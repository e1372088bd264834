import IcsPa.Am.X86.Mpe.Halt

/-! # The boot and the halt come to an end

    Each processor has a rank, which its own moves lower and no step of another
    raises: to be reset is the end of it.  The polls of the first processor and the
    characters of a program are no moves.  As long as the machine is on, some
    processor can move, unless all of them are in the program. -/

namespace Am.X86.Mpe

/-! ## Section 1: Ranks -/

/-- The moves of a processor that is about to halt. -/
def halt_rank (ncpu : Nat) : Nat := 20 + 4 * ncpu

/-- The moves that a processor has left, if it is not stopped. -/
def Pc.rank (ncpu : Nat) : Pc → Nat
  | .off => halt_rank ncpu + 8
  | .boot_record => halt_rank ncpu + 7
  | .load_kernel => halt_rank ncpu + 6
  | .start_c => halt_rank ncpu + 5
  | .percpu_init => halt_rank ncpu + 4
  | .announce => halt_rank ncpu + 3
  | .call_user_entry => halt_rank ncpu + 2
  | .user _ => halt_rank ncpu + 1
  | .main => halt_rank ncpu + 6 + 6 * ncpu
  | .mpe_init _ => halt_rank ncpu + 5 + 6 * ncpu
  | .set_jmp_code => halt_rank ncpu + 4 + 6 * ncpu
  | .loop cpu => halt_rank ncpu + 3 + 6 * (ncpu - cpu)
  | .boot cpu ipis => halt_rank ncpu + 5 + ipis.length + 6 * (ncpu - (cpu + 1))
  | .wait cpu => halt_rank ncpu + 4 + 6 * (ncpu - (cpu + 1))
  | .halt _ => halt_rank ncpu
  | .stop _ cpu_ [] => 19 + 4 * (ncpu - cpu_)
  | .stop _ cpu_ (_ :: ipis) => 20 + ipis.length + 4 * (ncpu - (cpu_ + 1))
  | .print _ rest => rest.length
  | .reload | .bootcpu_init | .lost => 0

/-- The moves that the processor `k` has left. -/
def rank (ncpu : Nat) (w : World) (k : Nat) : Nat :=
  if w.jmp_code = JMP_SELF ∧ (w.pc k = .off ∨ w.pc k = .boot_record) then 0 else (w.pc k).rank ncpu

def ranks (ncpu : Nat) (w : World) : Nat := ∑ k ∈ Finset.range ncpu, rank ncpu w k + (!w.off).toNat

section rank
variable {ncpu i c k : Nat} {w w' : World}

theorem rank_killed (h : Killed w k) : rank ncpu w k = 0 := if_pos h

theorem rank_alive (h : ¬ Killed w k) : rank ncpu w k = (w.pc k).rank ncpu := if_neg h

theorem rank_le (w : World) (k : Nat) : rank ncpu w k ≤ (w.pc k).rank ncpu := by
  unfold rank
  split
  · exact Nat.zero_le _
  · exact Nat.le_refl _

theorem message_length (cpu : Nat) (code : Int) : (message cpu code).length = 18 := by
  unfold message
  rw [List.length_map]
  rfl

/-- No step raises the rank of another processor. -/
theorem Inv.rank_others (h : Inv ncpu i w) (hc : c < ncpu) (ht : Trans ncpu c w w') (hk : k ≠ c) :
    rank ncpu w' k ≤ rank ncpu w k := by
  by_cases hkill' : Killed w' k
  · rw [rank_killed hkill']
    exact Nat.zero_le _
  · rcases h.others hc ht hk with hsame | ⟨hkill, -⟩ | ⟨hoff, hrec⟩
    · have hlive : ¬ Killed w k := by
        rintro ⟨hself, hpc⟩
        exact hkill' ⟨h.self_stays hc ht hself, hsame ▸ hpc⟩
      rw [rank_alive hkill', rank_alive hlive, hsame]
    · exact absurd hkill hkill'
    · have hlive : ¬ Killed w k := by
        rintro ⟨hself, -⟩
        exact hkill' ⟨h.self_stays hc ht hself, .inr hrec⟩
      rw [rank_alive hkill', rank_alive hlive, hoff, hrec]
      simp only [Pc.rank]
      omega

end rank

/-! ## Section 2: Moves -/

/-- A move takes the processor to another place, or switches the machine off. -/
def moved (w : World) (x : Nat × Act) (w' : World) : Bool :=
  w'.pc x.1 != w.pc x.1 || w'.off != w.off

section moves
variable {ncpu i c : Nat} {w w' : World}

theorem rank_lower {p : Pc} (hlive : ¬ Killed w c) (hpc : w'.pc c = p)
    (h : p.rank ncpu < (w.pc c).rank ncpu) : rank ncpu w' c < rank ncpu w c := by
  rw [rank_alive hlive]
  exact Nat.lt_of_le_of_lt (rank_le w' c) (hpc ▸ h)

theorem goes_on {p q : Pc} (w₁ : World) (h : w.pc c = q) (hoff : q ≠ .off) (hrec : q ≠ .boot_record)
    (heq : w₁.off = w.off) (hlt : p.rank ncpu < q.rank ncpu) :
    rank ncpu (w₁.goto c p) c < rank ncpu w c ∧ (w₁.goto c p).off = w.off :=
  ⟨rank_lower (alive h hoff hrec) (World.goto_self ..) (by rw [h]; exact hlt), heq⟩

/-- A step takes the processor on, or it is no move, or it switches the machine
    off. -/
theorem Trans.rank_self (ht : Trans ncpu c w w') (hc : c < ncpu) :
    rank ncpu w' c < rank ncpu w c ∧ w'.off = w.off ∨
      w'.pc c = w.pc c ∧ rank ncpu w' c = rank ncpu w c ∧ (w'.off = w.off ∨ w'.off = true) := by
  cases ht with
  | putch ch h => exact .inr ⟨rfl, rfl, .inl rfl⟩
  | poll cpu h hready => exact .inr ⟨rfl, rfl, .inl rfl⟩
  | spin h hjmp => exact .inr ⟨rfl, rfl, .inl rfl⟩
  | power_off code h => exact .inr ⟨rfl, rfl, .inr rfl⟩
  | fetch h hjmp =>
    have hlive : ¬ Killed w c := by
      rintro ⟨hself, -⟩
      rw [hself] at hjmp
      cases hjmp
    exact .inl ⟨rank_lower hlive (World.goto_self ..) (by rw [h]; simp only [Pc.rank]; omega), rfl⟩
  | stray h hjmp hjmp' =>
    have hlive : ¬ Killed w c := by
      rintro ⟨hself, -⟩
      rw [hself] at hjmp'
      exact hjmp' rfl
    exact .inl ⟨rank_lower hlive (World.goto_self ..) (by rw [h]; simp only [Pc.rank]; omega), rfl⟩
  | to_halt code h =>
    left
    rcases h with h | ⟨e, h⟩
    · exact goes_on w h Pc.noConfusion Pc.noConfusion rfl (by simp only [Pc.rank]; omega)
    · exact goes_on w h Pc.noConfusion Pc.noConfusion rfl (by simp only [Pc.rank]; omega)
  | to_mpe_init e h =>
    exact .inl (goes_on w h Pc.noConfusion Pc.noConfusion rfl
      (by simp only [Pc.rank]; omega))
  | set_entry e h =>
    exact .inl (goes_on { w with user_entry := some e } h Pc.noConfusion Pc.noConfusion rfl
      (by simp only [Pc.rank]; omega))
  | set_jmp h =>
    exact .inl (goes_on { w with jmp_code := JMP_BOOT } h Pc.noConfusion Pc.noConfusion rfl
      (by simp only [Pc.rank]; omega))
  | next_cpu cpu h hlt =>
    exact .inl (goes_on { w with is_ap := 1 } h Pc.noConfusion Pc.noConfusion rfl
      (by simp only [Pc.rank, bootap, List.length]; omega))
  | all_up cpu h hge =>
    exact .inl (goes_on w h Pc.noConfusion Pc.noConfusion rfl
      (by simp only [Pc.rank]; omega))
  | boot_ipi cpu ipi ipis h =>
    exact .inl (goes_on (w.send cpu ipi) h Pc.noConfusion Pc.noConfusion (send_off ..)
      (by simp only [Pc.rank, List.length_cons]; omega))
  | booted cpu h =>
    exact .inl (goes_on w h Pc.noConfusion Pc.noConfusion rfl
      (by simp only [Pc.rank, List.length_nil]; omega))
  | is_ready cpu h hready =>
    exact .inl (goes_on { w with ap_ready := 0 } h Pc.noConfusion Pc.noConfusion rfl
      (by simp only [Pc.rank]; omega))
  | loaded h hap =>
    exact .inl (goes_on w h Pc.noConfusion Pc.noConfusion rfl
      (by simp only [Pc.rank]; omega))
  | reloads h hap =>
    exact .inl (goes_on w h Pc.noConfusion Pc.noConfusion rfl
      (by simp only [Pc.rank]; omega))
  | othercpu h hap =>
    exact .inl (goes_on w h Pc.noConfusion Pc.noConfusion rfl
      (by simp only [Pc.rank]; omega))
  | bootcpu h hap =>
    exact .inl (goes_on w h Pc.noConfusion Pc.noConfusion rfl
      (by simp only [Pc.rank]; omega))
  | inited h =>
    exact .inl (goes_on w h Pc.noConfusion Pc.noConfusion rfl
      (by simp only [Pc.rank]; omega))
  | announced h =>
    exact .inl (goes_on { w with ap_ready := 1 } h Pc.noConfusion Pc.noConfusion rfl
      (by simp only [Pc.rank]; omega))
  | enter e h he =>
    exact .inl (goes_on w h Pc.noConfusion Pc.noConfusion rfl
      (by simp only [Pc.rank]; omega))
  | no_entry h he =>
    exact .inl (goes_on w h Pc.noConfusion Pc.noConfusion rfl
      (by simp only [Pc.rank]; omega))
  | set_self code h =>
    exact .inl (goes_on { w with jmp_code := JMP_SELF } h Pc.noConfusion Pc.noConfusion rfl
      (by simp only [Pc.rank, halt_rank]; omega))
  | skip_self code h =>
    exact .inl (goes_on w h Pc.noConfusion Pc.noConfusion rfl
      (by simp only [Pc.rank]; omega))
  | next_stop code cpu_ h hlt hne =>
    exact .inl (goes_on w h Pc.noConfusion Pc.noConfusion rfl
      (by simp only [Pc.rank, bootap, List.length]; omega))
  | all_stopped code cpu_ h hge =>
    exact .inl (goes_on w h Pc.noConfusion Pc.noConfusion rfl
      (by simp only [Pc.rank, message_length]; omega))
  | last_ipi code cpu_ ipi h =>
    exact .inl (goes_on (w.send cpu_ ipi) h Pc.noConfusion Pc.noConfusion (send_off ..)
      (by simp only [Pc.rank, List.length_nil]; omega))
  | stop_ipi code cpu_ ipi ipi' ipis h =>
    exact .inl (goes_on (w.send cpu_ ipi) h Pc.noConfusion Pc.noConfusion (send_off ..)
      (by simp only [Pc.rank, List.length_cons]; omega))
  | shown code ch rest h =>
    exact .inl (goes_on { w with com1 := w.com1 ++ [ch] } h Pc.noConfusion Pc.noConfusion rfl
      (by simp only [Pc.rank, List.length_cons]; omega))

/-- A step pays for its move. -/
theorem Inv.ranks_step (h : Inv ncpu i w) (hon : w.off = false) (hc : c < ncpu)
    (ht : Trans ncpu c w w') (a : Act) :
    ranks ncpu w' + (moved w (c, a) w').toNat ≤ ranks ncpu w := by
  have hsum : ∀ d, rank ncpu w' c + d ≤ rank ncpu w c →
      ∑ k ∈ Finset.range ncpu, rank ncpu w' k + d ≤ ∑ k ∈ Finset.range ncpu, rank ncpu w k :=
    fun d hd => Interleave.sum_add_le hc hd fun k _ hk => h.rank_others hc ht hk
  unfold ranks
  rcases ht.rank_self hc with ⟨hlt, hoff⟩ | ⟨hpc, hrank, hoff | hoff⟩
  · have hpaid := hsum 1 hlt
    have hone := Bool.toNat_le (moved w (c, a) w')
    rw [hoff]
    omega
  · have hpaid := hsum 0 (Nat.le_of_eq hrank)
    have hzero : moved w (c, a) w' = false := by simp [moved, hpc, hoff]
    rw [hoff, hzero]
    exact Nat.add_le_add_right hpaid _
  · have hpaid := hsum 0 (Nat.le_of_eq hrank)
    have hone := Bool.toNat_le (moved w (c, a) w')
    rw [hoff, hon]
    simp only [Bool.not_true, Bool.not_false, Bool.toNat_false, Bool.toNat_true]
    omega

end moves

/-! ## Section 3: Somebody can move -/

/-- The code of the processor `c` takes it on, or switches the machine off. -/
def CanMove (ncpu : Nat) (w : World) (c : Nat) : Prop :=
  ∃ w', step ncpu w c .go = some w' ∧ moved w (c, .go) w' = true

/-- Where the next step is always a move. -/
def Pc.active : Pc → Bool
  | .load_kernel | .start_c | .percpu_init | .announce | .call_user_entry | .mpe_init _
  | .set_jmp_code
  | .loop _ | .boot .. | .halt _ | .stop .. | .print .. => true
  | _ => false

section can_move
variable {ncpu i c : Nat} {w w' : World}

theorem step_go (hon : w.off = false) (hc : c < ncpu) : step ncpu w c .go = go ncpu c w := by
  unfold step
  rw [if_neg (by simp [hon, hc])]
  cases w.pc c <;> rfl

theorem moved_goto {p : Pc} (w₁ : World) (h : p ≠ w.pc c) :
    moved w (c, .go) (w₁.goto c p) = true := by
  simp [moved, h]

theorem can_move (hon : w.off = false) (hc : c < ncpu) (hact : (w.pc c).active = true) :
    CanMove ncpu w c := by
  have hgoes : ∀ {p : Pc} (w₁ : World), go ncpu c w = some (w₁.goto c p) → p ≠ w.pc c →
      CanMove ncpu w c := by
    intro p w₁ hgo hne
    exact ⟨w₁.goto c p, (step_go hon hc).trans hgo, moved_goto w₁ hne⟩
  unfold go at hgoes
  cases hpc : w.pc c <;> rw [hpc] at hact hgoes
  case off | boot_record | reload | bootcpu_init | user | lost | main | wait => cases hact
  case load_kernel =>
    apply hgoes w rfl
    split <;> exact Pc.noConfusion
  case start_c =>
    apply hgoes w rfl
    split <;> exact Pc.noConfusion
  case percpu_init => exact hgoes w rfl Pc.noConfusion
  case announce => exact hgoes _ rfl Pc.noConfusion
  case call_user_entry =>
    cases he : w.user_entry <;> rw [he] at hgoes
    · exact hgoes w rfl Pc.noConfusion
    · exact hgoes w rfl Pc.noConfusion
  case mpe_init => exact hgoes _ rfl Pc.noConfusion
  case set_jmp_code => exact hgoes _ rfl Pc.noConfusion
  case loop cpu =>
    by_cases hlt : cpu < ncpu
    · exact hgoes _ (if_pos hlt) Pc.noConfusion
    · exact hgoes _ (if_neg hlt) Pc.noConfusion
  case boot cpu ipis =>
    cases ipis with
    | nil => exact hgoes w rfl Pc.noConfusion
    | cons ipi ipis => exact hgoes _ rfl (by simp)
  case halt => exact hgoes _ rfl Pc.noConfusion
  case stop code cpu_ ipis =>
    match ipis with
    | [] =>
      dsimp only at hgoes
      unfold stop_next at hgoes
      by_cases hlt : cpu_ < ncpu
      · rw [if_pos hlt] at hgoes
        by_cases heq : cpu_ = c
        · rw [if_pos heq] at hgoes
          exact hgoes w rfl (by simp)
        · rw [if_neg heq] at hgoes
          exact hgoes w rfl (by simp [bootap])
      · rw [if_neg hlt] at hgoes
        exact hgoes w rfl Pc.noConfusion
    | [ipi] => exact hgoes _ rfl (by simp)
    | ipi :: ipi' :: ipis => exact hgoes _ rfl (by simp)
  case print code rest =>
    cases rest with
    | nil =>
      refine ⟨{ w with off := true }, (step_go hon hc).trans ?_, by simp [moved, hon]⟩
      unfold go
      rw [hpc]
    | cons ch rest => exact hgoes _ rfl (by simp)

/-- The processor whose turn it is gets out of the boot record. -/
theorem can_fetch (hon : w.off = false) (hc : c < ncpu) (hpc : w.pc c = .boot_record)
    (hjmp : w.jmp_code = JMP_BOOT) : CanMove ncpu w c := by
  refine ⟨w.goto c .load_kernel, (step_go hon hc).trans ?_,
    moved_goto w (by rw [hpc]; exact Pc.noConfusion)⟩
  unfold go
  rw [hpc, hjmp]
  exact if_pos rfl

theorem can_leave (hon : w.off = false) (hc : c < ncpu) {cpu : Nat} (hpc : w.pc c = .wait cpu)
    (hready : w.ap_ready = 1) : CanMove ncpu w c := by
  refine ⟨{ w with ap_ready := 0 }.goto c (.loop (cpu + 1)), (step_go hon hc).trans ?_,
    moved_goto _ (by rw [hpc]; exact Pc.noConfusion)⟩
  unfold go
  rw [hpc]
  exact if_pos hready

/-- No processor has halted: the processor whose turn it is can move, or the
    first one. -/
theorem Inv.can_boot (h : Inv ncpu i w) (hon : w.off = false) (hn : 0 < ncpu)
    (hjmp : w.jmp_code ≠ JMP_SELF) :
    (∃ c < ncpu, CanMove ncpu w c) ∨ (w.pc 0 = .main ∧ ∀ k < ncpu, k ≠ 0 → w.pc k = .off) ∨
      ∀ k < ncpu, ∃ e, w.pc k = .user e := by
  have hlive : ∀ k, ¬ Killed w k := fun k hkill => hjmp hkill.1
  have hfirst := h.first (hlive 0)
  unfold First at hfirst
  by_cases hact : (w.pc 0).active = true
  · exact .inl ⟨0, hn, can_move hon hn hact⟩
  · cases hpc : w.pc 0 <;> rw [hpc] at hact hfirst
    case off | boot_record | reload | bootcpu_init | lost => exact hfirst.elim
    case load_kernel | start_c | percpu_init | announce | call_user_entry | mpe_init | set_jmp_code
        | loop | boot | halt | stop | print => exact absurd rfl hact
    case main =>
      right; left
      refine ⟨rfl, fun k hk h0 => ?_⟩
      rcases h.other k (by omega) hk (hlive k) with ⟨-, hoff⟩ | ⟨hset, -⟩
      · exact hoff
      · exact absurd hfirst.2.1 hset.jmp_ne
    case wait cpu =>
      left
      obtain ⟨rfl, hlt, hset, hap, hon'⟩ := hfirst
      have hjmp' : w.jmp_code = JMP_BOOT := hset.2.resolve_right hjmp
      rcases h.other cpu h.pos hlt (hlive cpu) with
        ⟨-, hoff⟩ | ⟨-, -, ⟨hlt', -⟩ | ⟨-, hb | ⟨-, hready⟩⟩⟩
      · exact absurd hoff (hon' (hlive cpu))
      · omega
      · -- It has not announced itself yet.
        refine ⟨cpu, hlt, ?_⟩
        cases hpcc : w.pc cpu <;> rw [hpcc] at hb <;> try cases hb
        · exact can_fetch hon hlt hpcc hjmp'
        all_goals exact can_move hon hlt (by rw [hpcc]; rfl)
      · exact ⟨0, hn, can_leave hon hn hpc hready⟩
    case user e =>
      by_cases hall : ∀ k < ncpu, ∃ e, w.pc k = .user e
      · exact .inr (.inr hall)
      · left
        push Not at hall
        obtain ⟨k, hk, hnot⟩ := hall
        have h0 : k ≠ 0 := by
          rintro rfl
          exact hnot e hpc
        refine ⟨k, hk, can_move hon hk ?_⟩
        rcases h.other k (by omega) hk (hlive k) with ⟨hik, -⟩ | ⟨-, -, ⟨-, hd⟩ | ⟨hki, -⟩⟩
        · omega
        · cases hpck : w.pc k <;> rw [hpck] at hd <;> first | rfl | cases hd
          exact absurd hpck (hnot _)
        · omega

end can_move

/-! ## Section 4: The end -/

/-- The moves of an interleaving. -/
def moves (ncpu : Nat) (steps : List (Nat × Act)) : Nat :=
  Interleave.moves (fun w (x : Nat × Act) => step ncpu w x.1 x.2) moved start steps

theorem ranks_start (ncpu : Nat) : ranks ncpu start ≤ ncpu * (10 * ncpu + 28) + 1 := by
  have hsum : ∑ k ∈ Finset.range ncpu, rank ncpu start k ≤
      ∑ _k ∈ Finset.range ncpu, (10 * ncpu + 28) := by
    apply Finset.sum_le_sum
    intro k hk
    refine Nat.le_trans (rank_le start k) ?_
    by_cases h0 : k = 0
    · subst h0
      have hpc : start.pc 0 = .main := rfl
      rw [hpc]
      simp only [Pc.rank, halt_rank]
      omega
    · have hpc : start.pc k = .off := if_neg h0
      rw [hpc]
      simp only [Pc.rank, halt_rank]
      omega
  rw [Finset.sum_const, Finset.card_range, Nat.nsmul_eq_mul] at hsum
  unfold ranks
  have hone := Bool.toNat_le (!start.off)
  omega

/-- The processors of an interleaving move only so many times, and until the
    machine is off one of them can move, unless the first one is still alone in
    `main` or all are in the program.  So neither the boot nor a halt can hang,
    whoever halts, and in whatever order they go. -/
theorem boot_and_halt_end {ncpu : Nat} (hn : 0 < ncpu) {steps : List (Nat × Act)} {w : World}
    (hrun : run ncpu start steps = some w) :
    moves ncpu steps ≤ ncpu * (10 * ncpu + 28) + 1 ∧
      (w.off = true ∨ (∃ c < ncpu, CanMove ncpu w c) ∨
        (w.pc 0 = .main ∧ ∀ k < ncpu, k ≠ 0 → w.pc k = .off) ∨
        ∀ k < ncpu, ∃ e, w.pc k = .user e) := by
  refine ⟨?_, ?_⟩
  · have hle := Interleave.moves_le moved (P := fun w => ∃ i, Inv ncpu i w) (ranks ncpu)
      (fun w x w' hinv hstep => ?_) ⟨1, inv_start ncpu⟩ hrun
    · have hstart := ranks_start ncpu
      unfold moves
      omega
    · obtain ⟨i, hi⟩ := hinv
      obtain ⟨hon, hc, ht⟩ := step_trans hstep
      exact ⟨inv_trans hi hc ht, hi.ranks_step hon hc ht x.2⟩
  · have hreach : Reachable ncpu w := ⟨steps, hrun⟩
    cases hon : w.off with
    | true => exact .inl rfl
    | false =>
      right
      by_cases hself : w.jmp_code = JMP_SELF
      · obtain ⟨c, hc, hs⟩ := hreach.halting.someone hself
        refine .inl ⟨c, hc, can_move hon hc ?_⟩
        cases hpc : w.pc c <;> rw [hpc] at hs <;> first | rfl | cases hs
      · obtain ⟨i, hi⟩ := hreach.inv
        exact hi.can_boot hon hn hself

theorem boot_and_halt_end_two_up :
    moves 2 two_up ≤ 97 ∧
      (((run 2 start two_up).get (by decide)).off = true ∨
        (∃ c < 2, CanMove 2 ((run 2 start two_up).get (by decide)) c) ∨
        (((run 2 start two_up).get (by decide)).pc 0 = .main ∧
          ∀ k < 2, k ≠ 0 → ((run 2 start two_up).get (by decide)).pc k = .off) ∨
        ∀ k < 2, ∃ e, ((run 2 start two_up).get (by decide)).pc k = .user e) :=
  boot_and_halt_end (by decide) (Option.some_get _).symm

end Am.X86.Mpe
