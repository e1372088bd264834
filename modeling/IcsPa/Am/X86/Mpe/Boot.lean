import IcsPa.Am.X86.Mpe

/-! # The processors start one by one

    In every interleaving there is one processor `i` whose turn it is: those
    before it are through with their initialization, those behind it are off.
    Only `i` can be on the stack of the boot loader. -/

namespace Am.X86.Mpe

/-! ## Section 1: The invariant -/

namespace Pc

/-- On the way from the boot record to `xchg(&ap_ready, 1)`. -/
def booting : Pc → Bool
  | .boot_record | .load_kernel | .start_c | .percpu_init | .announce => true
  | _ => false

/-- Initialized. -/
def done : Pc → Bool
  | .call_user_entry | .user _ | .halt _ | .stop .. | .print .. => true
  | _ => false

/-- In `__am_stop_the_world`, or behind it. -/
def stopping : Pc → Bool
  | .stop .. | .print .. => true
  | _ => false

theorem not_done {p : Pc} (h : p.booting = true) : p.done = false := by
  cases p <;> first | rfl | cases h

theorem done_of_stopping {p : Pc} (h : p.stopping = true) : p.done = true := by
  cases p <;> first | rfl | cases h

end Pc

/-- Stopped by a processor that halts. -/
def Killed (w : World) (k : Nat) : Prop :=
  w.jmp_code = JMP_SELF ∧ (w.pc k = .off ∨ w.pc k = .boot_record)

/-- What `mpe_init` sets before its loop. -/
def Set (w : World) : Prop := w.user_entry ≠ none ∧ (w.jmp_code = JMP_BOOT ∨ w.jmp_code = JMP_SELF)

/-- Nothing of the processor `i` is to be seen. -/
def Quiet (ncpu i : Nat) (w : World) : Prop :=
  w.ap_ready = 0 ∧ (i < ncpu → ¬ Killed w i → w.pc i = .off)

/-- The processor `i` has been started. -/
def Started (i : Nat) (w : World) : Prop := ¬ Killed w i → w.pc i ≠ .off

/-- What the first processor is doing when it is the turn of `i`. -/
def First (ncpu i : Nat) (w : World) : Prop :=
  match w.pc 0 with
  | .main | .mpe_init _ => i = 1 ∧ w.jmp_code = 0 ∧ Quiet ncpu i w
  | .set_jmp_code => i = 1 ∧ w.jmp_code = 0 ∧ w.user_entry ≠ none ∧ Quiet ncpu i w
  | .loop cpu => cpu = i ∧ i ≤ ncpu ∧ Set w ∧ Quiet ncpu i w
  | .boot cpu ipis =>
      cpu = i ∧ i < ncpu ∧ Set w ∧ w.is_ap ≠ 0 ∧
        ((ipis = bootap ∨ ipis = [.startup, .startup]) ∧ Quiet ncpu i w ∨
          (ipis = [.startup] ∨ ipis = []) ∧ Started i w)
  | .wait cpu => cpu = i ∧ i < ncpu ∧ Set w ∧ w.is_ap ≠ 0 ∧ Started i w
  | .call_user_entry | .user _ => ncpu ≤ i ∧ Set w
  | .halt _ | .stop .. | .print .. => True
  | _ => False

/-- Where another processor is. -/
def Other (i : Nat) (w : World) (k : Nat) : Prop :=
  (i ≤ k ∧ w.pc k = .off) ∨
    (Set w ∧ w.is_ap ≠ 0 ∧
      ((k < i ∧ (w.pc k).done = true) ∨
        (k = i ∧ ((w.pc k).booting = true ∨ (w.pc k).done = true ∧ w.ap_ready = 1))))

structure Inv (ncpu i : Nat) (w : World) : Prop where
  pos      : 1 ≤ i
  first    : ¬ Killed w 0 → First ncpu i w
  other    : ∀ k, 1 ≤ k → k < ncpu → ¬ Killed w k → Other i w k
  ready    : w.ap_ready = 0 ∨ w.ap_ready = 1 ∧ (¬ Killed w i → (w.pc i).done = true)
  stopping : ∀ k < ncpu, (w.pc k).stopping = true → w.jmp_code = JMP_SELF

theorem inv_start (ncpu : Nat) : Inv ncpu 1 start where
  pos := Nat.le_refl 1
  first _ := ⟨rfl, rfl, rfl, fun _ _ => rfl⟩
  other k hk _ _ := by
    have hpc : start.pc k = .off := if_neg (by omega)
    exact .inl ⟨hk, hpc⟩
  ready := .inl rfl
  stopping k _ h := by
    by_cases hk : k = 0
    · subst hk
      cases h
    · have hpc : start.pc k = .off := if_neg hk
      rw [hpc] at h
      cases h

/-! ## Section 2: Facts about one processor -/

section facts
variable {ncpu i c : Nat} {w w' : World}

theorem alive {p : Pc} (h : w.pc c = p) (hoff : p ≠ .off) (hrec : p ≠ .boot_record) :
    ¬ Killed w c := by
  rintro ⟨-, hpc | hpc⟩
  · exact hoff (h.symm.trans hpc)
  · exact hrec (h.symm.trans hpc)

theorem alive_of_done (h : (w.pc c).done = true) : ¬ Killed w c := by
  rintro ⟨-, hpc | hpc⟩ <;> rw [hpc] at h <;> cases h

theorem Set.jmp_ne (h : Set w) : w.jmp_code ≠ 0 := by
  rcases h.2 with hj | hj <;> rw [hj] <;> decide

theorem First.not_booting (h : First ncpu i w) : (w.pc 0).booting = false := by
  unfold First at h
  cases hpc : w.pc 0 <;> rw [hpc] at h <;> first | rfl | exact h.elim

/-- It is its turn. -/
theorem Inv.turn (h : Inv ncpu i w) (hc : c < ncpu) (hlive : ¬ Killed w c)
    (hb : (w.pc c).booting = true) : c = i ∧ Set w ∧ w.is_ap ≠ 0 := by
  by_cases h0 : c = 0
  · subst h0
    have hfirst := (h.first hlive).not_booting
    rw [hb] at hfirst
    cases hfirst
  · rcases h.other c (by omega) hc hlive with ⟨-, hoff⟩ | ⟨hset, hap, ⟨-, hdone⟩ | ⟨hci, -⟩⟩
    · rw [hoff] at hb
      cases hb
    · rw [Pc.not_done hb] at hdone
      cases hdone
    · exact ⟨hci, hset, hap⟩

/-- A processor that is through has the entry, and another one that is through
    knows that it is not the first. -/
theorem Inv.past (h : Inv ncpu i w) (hc : c < ncpu) (h0 : c ≠ 0) (hd : (w.pc c).done = true) :
    Set w ∧ w.is_ap ≠ 0 ∧ (c < i ∨ c = i ∧ w.ap_ready = 1) := by
  rcases h.other c (by omega) hc (alive_of_done hd) with
    ⟨-, hoff⟩ | ⟨hset, hap, ⟨hlt, -⟩ | ⟨hci, hb | ⟨-, hready⟩⟩⟩
  · rw [hoff] at hd
    cases hd
  · exact ⟨hset, hap, .inl hlt⟩
  · rw [Pc.not_done hb] at hd
    cases hd
  · exact ⟨hset, hap, .inr ⟨hci, hready⟩⟩

/-- Only the first processor runs `mpe_init`. -/
theorem Inv.is_first (h : Inv ncpu i w) (hc : c < ncpu) (hlive : ¬ Killed w c)
    (hoff : w.pc c ≠ .off) (hb : (w.pc c).booting = false) (hd : (w.pc c).done = false) :
    c = 0 := by
  by_contra h0
  rcases h.other c (by omega) hc hlive with ⟨-, hpc⟩ | ⟨-, -, ⟨-, hdone⟩ | ⟨-, hbt | ⟨hdone, -⟩⟩⟩
  · exact hoff hpc
  · rw [hdone] at hd
    cases hd
  · rw [hbt] at hb
    cases hb
  · rw [hdone] at hd
    cases hd

/-! ## Section 3: What is kept -/

/-- What the first processor does is not touched by the others. -/
theorem First.keep (h : First ncpu i w) (hpc : w'.pc 0 = w.pc 0) (hset : Set w → Set w')
    (hjmp : w.jmp_code = 0 → w'.jmp_code = 0) (hentry : w.user_entry ≠ none → w'.user_entry ≠ none)
    (hap : w.is_ap ≠ 0 → w'.is_ap ≠ 0) (hquiet : Quiet ncpu i w → Quiet ncpu i w')
    (hstarted : Started i w → Started i w') : First ncpu i w' := by
  unfold First at h ⊢
  rw [hpc]
  cases hp : w.pc 0 <;> rw [hp] at h <;> dsimp only at h ⊢
  case main | mpe_init => exact ⟨h.1, hjmp h.2.1, hquiet h.2.2⟩
  case set_jmp_code => exact ⟨h.1, hjmp h.2.1, hentry h.2.2.1, hquiet h.2.2.2⟩
  case loop => exact ⟨h.1, h.2.1, hset h.2.2.1, hquiet h.2.2.2⟩
  case boot =>
    obtain ⟨hi, hlt, hs, ha, hipis⟩ := h
    exact ⟨hi, hlt, hset hs, hap ha, hipis.imp (And.imp_right hquiet) (And.imp_right hstarted)⟩
  case wait => exact ⟨h.1, h.2.1, hset h.2.2.1, hap h.2.2.2.1, hstarted h.2.2.2.2⟩
  case call_user_entry | user => exact ⟨h.1, hset h.2⟩

theorem Other.keep {k : Nat} (h : Other i w k) (hpc : w'.pc k = w.pc k) (hset : Set w → Set w')
    (hap : w.is_ap ≠ 0 → w'.is_ap ≠ 0) (hready : w.ap_ready = 1 → w'.ap_ready = 1) :
    Other i w' k := by
  unfold Other at h ⊢
  rw [hpc]
  rcases h with hoff | ⟨hs, ha, hlt | ⟨hki, hb | ⟨hd, hr⟩⟩⟩
  · exact .inl hoff
  · exact .inr ⟨hset hs, hap ha, .inl hlt⟩
  · exact .inr ⟨hset hs, hap ha, .inr ⟨hki, .inl hb⟩⟩
  · exact .inr ⟨hset hs, hap ha, .inr ⟨hki, .inr ⟨hd, hready hr⟩⟩⟩

theorem killed_goto {k : Nat} (hk : k ≠ c) (p : Pc) : Killed (w.goto c p) k ↔ Killed w k := by
  unfold Killed
  rw [w.goto_of_ne hk, World.goto_jmp_code]

/-! ## Section 4: Moves of the other processors -/

/-- On the way up. -/
theorem Inv.climb (h : Inv ncpu i w) (hc : c < ncpu) (hlive : ¬ Killed w c)
    (hb : (w.pc c).booting = true) {p : Pc} (hp : p.booting = true) : Inv ncpu i (w.goto c p) := by
  obtain ⟨rfl, hset, hap⟩ := h.turn hc hlive hb
  have h0 : (0 : Nat) ≠ c := Nat.ne_of_lt h.pos
  have hoff : w.pc c ≠ .off := by
    intro hpc
    rw [hpc] at hb
    cases hb
  have hpoff : p ≠ .off := by
    rintro rfl
    cases hp
  refine ⟨h.pos, ?_, ?_, ?_, ?_⟩
  · intro hl
    refine (h.first (fun hk => hl ((killed_goto h0 p).mpr hk))).keep
      (w.goto_of_ne h0 p) id id id id ?_ ?_
    · -- It is not quiet: the processor is on its way.
      intro hquiet
      exact absurd (hquiet.2 hc hlive) hoff
    · intro _ _
      rw [World.goto_self]
      exact hpoff
  · intro k hk hlt hl
    by_cases hkc : k = c
    · subst hkc
      exact .inr ⟨hset, hap, .inr ⟨rfl, .inl (by rw [World.goto_self]; exact hp)⟩⟩
    · exact (h.other k hk hlt (fun hkill => hl ((killed_goto hkc p).mpr hkill))).keep
        (w.goto_of_ne hkc p) id id id
  · rcases h.ready with hzero | ⟨-, hdone⟩
    · exact .inl hzero
    · have hd := hdone hlive
      rw [Pc.not_done hb] at hd
      cases hd
  · intro k hlt hs
    by_cases hkc : k = c
    · subst hkc
      rw [World.goto_self] at hs
      have hd := Pc.done_of_stopping hs
      rw [Pc.not_done hp] at hd
      cases hd
    · rw [w.goto_of_ne hkc] at hs
      exact h.stopping k hlt hs

/-- `xchg(&ap_ready, 1)` -/
theorem Inv.announce (h : Inv ncpu i w) (hc : c < ncpu) (hpc : w.pc c = .announce) :
    Inv ncpu i ({ w with ap_ready := 1 }.goto c .call_user_entry) := by
  have hlive : ¬ Killed w c := alive hpc (by decide) (by decide)
  obtain ⟨rfl, hset, hap⟩ := h.turn hc hlive (by rw [hpc]; rfl)
  have h0 : (0 : Nat) ≠ c := Nat.ne_of_lt h.pos
  refine ⟨h.pos, ?_, ?_, .inr ⟨rfl, fun _ => by rw [World.goto_self]; rfl⟩, ?_⟩
  · intro hl
    refine (h.first (fun hk => hl ((killed_goto h0 _).mpr hk))).keep
      (World.goto_of_ne _ h0 _) id id id id ?_ ?_
    · intro hquiet
      have hoff := hquiet.2 hc hlive
      rw [hpc] at hoff
      cases hoff
    · intro _ _
      rw [World.goto_self]
      exact Pc.noConfusion
  · intro k hk hlt hl
    by_cases hkc : k = c
    · subst hkc
      exact .inr ⟨hset, hap, .inr ⟨rfl, .inr ⟨by rw [World.goto_self]; rfl, rfl⟩⟩⟩
    · exact (h.other k hk hlt (fun hkill => hl ((killed_goto hkc _).mpr hkill))).keep
        (World.goto_of_ne _ hkc _) id id fun _ => rfl
  · intro k hlt hs
    by_cases hkc : k = c
    · subst hkc
      rw [World.goto_self] at hs
      cases hs
    · rw [World.goto_of_ne _ hkc] at hs
      exact h.stopping k hlt hs

/-- A processor that is through goes on, or halts: then it has set the jump to
    itself, and the processors that it resets are stopped. -/
theorem Inv.go_on (h : Inv ncpu i w) (hc : c < ncpu) (hd : (w.pc c).done = true)
    (hjmp : w'.jmp_code = w.jmp_code ∨ w'.jmp_code = JMP_SELF)
    (hentry : w'.user_entry = w.user_entry)
    (hap : w'.is_ap = w.is_ap) (hready : w'.ap_ready = w.ap_ready) (hpc : (w'.pc c).done = true)
    (hstop : (w'.pc c).stopping = true → w'.jmp_code = JMP_SELF)
    (hfirst : c = 0 → First ncpu i w')
    (hothers : ∀ k ≠ c, w'.pc k = w.pc k ∨ Killed w' k) : Inv ncpu i w' := by
  have hset : Set w → Set w' := by
    rintro ⟨he, hj⟩
    refine ⟨hentry ▸ he, ?_⟩
    rcases hjmp with hj' | hj'
    · rw [hj']
      exact hj
    · exact .inr hj'
  have hkill : ∀ k ≠ c, ¬ Killed w' k → w'.pc k = w.pc k ∧ ¬ Killed w k := by
    intro k hk hl
    have hsame := (hothers k hk).resolve_right hl
    refine ⟨hsame, fun ⟨hj, hp⟩ => hl ⟨?_, hsame ▸ hp⟩⟩
    exact hjmp.elim (fun hj' => hj'.trans hj) id
  refine ⟨h.pos, ?_, ?_, ?_, ?_⟩
  · intro hl
    by_cases h0 : c = 0
    · exact hfirst h0
    · obtain ⟨hsame, hl'⟩ := hkill 0 (Ne.symm h0) hl
      refine (h.first hl').keep hsame hset ?_ (by rw [hentry]; exact id)
        (by rw [hap]; exact id) ?_ ?_
      · -- The entry is set, and with it the jump.
        intro hzero
        exact absurd hzero (h.past hc h0 hd).1.jmp_ne
      · rintro ⟨hzero, hoff⟩
        refine ⟨hready.trans hzero, fun hi hlive => ?_⟩
        by_cases hic : i = c
        · subst hic
          rw [hoff hi (alive_of_done hd)] at hd
          cases hd
        · obtain ⟨hsame', hlive'⟩ := hkill i hic hlive
          rw [hsame']
          exact hoff hi hlive'
      · intro hon hlive
        by_cases hic : i = c
        · subst hic
          intro hoff
          rw [hoff] at hpc
          cases hpc
        · obtain ⟨hsame', hlive'⟩ := hkill i hic hlive
          rw [hsame']
          exact hon hlive'
  · intro k hk hlt hl
    by_cases hkc : k = c
    · subst hkc
      obtain ⟨hs, ha, hturn⟩ := h.past hc (by omega) hd
      refine .inr ⟨hset hs, hap ▸ ha, ?_⟩
      rcases hturn with hlt' | ⟨hki, hone⟩
      · exact .inl ⟨hlt', hpc⟩
      · exact .inr ⟨hki, .inr ⟨hpc, hready.trans hone⟩⟩
    · obtain ⟨hsame, hl'⟩ := hkill k hkc hl
      exact (h.other k hk hlt hl').keep hsame hset (by rw [hap]; exact id)
        (by rw [hready]; exact id)
  · rw [hready]
    refine h.ready.imp_right (And.imp_right ?_)
    intro hdone hl
    by_cases hic : i = c
    · rw [hic]
      exact hpc
    · obtain ⟨hsame, hl'⟩ := hkill i hic hl
      rw [hsame]
      exact hdone hl'
  · intro k hlt hs
    by_cases hkc : k = c
    · subst hkc
      exact hstop hs
    · have hnot : ¬ Killed w' k := alive_of_done (Pc.done_of_stopping hs)
      obtain ⟨hsame, -⟩ := hkill k hkc hnot
      rw [hsame] at hs
      have hself := h.stopping k hlt hs
      exact hjmp.elim (fun hj => hj.trans hself) id

/-! ## Section 5: Moves of the first processor -/

/-- It goes on, and may set what is shared. -/
theorem Inv.first_move (h : Inv ncpu i w) (hpc : ∀ k ≠ 0, w'.pc k = w.pc k)
    (hjmp : w.jmp_code = JMP_SELF → w'.jmp_code = JMP_SELF) (hset : Set w → Set w')
    (hap : w.is_ap ≠ 0 → w'.is_ap ≠ 0) (hready : w'.ap_ready = w.ap_ready)
    (hfirst : First ncpu i w')
    (hns : (w'.pc 0).stopping = false) : Inv ncpu i w' := by
  have hlive : ∀ k ≠ 0, ¬ Killed w' k → ¬ Killed w k := by
    rintro k hk hl ⟨hj, hp⟩
    exact hl ⟨hjmp hj, (hpc k hk).symm ▸ hp⟩
  refine ⟨h.pos, fun _ => hfirst, ?_, ?_, ?_⟩
  · intro k hk hlt hl
    have h0 : k ≠ 0 := by omega
    exact (h.other k hk hlt (hlive k h0 hl)).keep (hpc k h0) hset hap (by rw [hready]; exact id)
  · have h0 : i ≠ 0 := Nat.ne_of_gt h.pos
    rw [hready, hpc i h0]
    exact h.ready.imp_right (And.imp_right fun hd hl => hd (hlive i h0 hl))
  · intro k hlt hs
    by_cases h0 : k = 0
    · subst h0
      rw [hns] at hs
      cases hs
    · rw [hpc k h0] at hs
      exact hjmp (h.stopping k hlt hs)

/-- The loop goes to the next processor. -/
theorem Inv.advance (h : Inv ncpu i w) (hpc : w.pc 0 = .wait i) (hready : w.ap_ready = 1) :
    Inv ncpu (i + 1) ({ w with ap_ready := 0 }.goto 0 (.loop (i + 1))) := by
  have hlive : ¬ Killed w 0 := alive hpc Pc.noConfusion Pc.noConfusion
  have hfirst := h.first hlive
  unfold First at hfirst
  rw [hpc] at hfirst
  obtain ⟨-, hlt, hset, hap, -⟩ := hfirst
  have hdone : ¬ Killed w i → (w.pc i).done = true := by
    rcases h.ready with hzero | ⟨-, hd⟩
    · rw [hready] at hzero
      cases hzero
    · exact hd
  have hkill : ∀ k ≠ 0, ¬ Killed ({ w with ap_ready := 0 }.goto 0 (.loop (i + 1))) k →
      ¬ Killed w k :=
    fun k hk hl hkill => hl ((killed_goto hk _).mpr hkill)
  refine ⟨by omega, fun _ => ?_, ?_, .inl rfl, ?_⟩
  · unfold First
    rw [World.goto_self]
    refine ⟨rfl, hlt, hset, rfl, fun hlt' hl => ?_⟩
    have h0 : i + 1 ≠ 0 := by omega
    rw [World.goto_of_ne _ h0]
    rcases h.other (i + 1) (by omega) hlt' (hkill _ h0 hl) with
      ⟨-, hoff⟩ | ⟨-, -, ⟨hlt'', -⟩ | ⟨heq, -⟩⟩
    · exact hoff
    · omega
    · omega
  · intro k hk hlt' hl
    have h0 : k ≠ 0 := by omega
    have hl' := hkill k h0 hl
    unfold Other
    rw [World.goto_of_ne _ h0]
    rcases h.other k hk hlt' hl' with ⟨hik, hoff⟩ | ⟨-, -, ⟨hki, hd⟩ | ⟨hki, -⟩⟩
    · by_cases hki : k = i
      · -- It has announced itself.
        subst hki
        exact .inr ⟨hset, hap, .inl ⟨Nat.lt_succ_self k, hdone hl'⟩⟩
      · exact .inl ⟨by omega, hoff⟩
    · exact .inr ⟨hset, hap, .inl ⟨by omega, hd⟩⟩
    · subst hki
      exact .inr ⟨hset, hap, .inl ⟨Nat.lt_succ_self k, hdone hl'⟩⟩
  · intro k hlt' hs
    by_cases h0 : k = 0
    · subst h0
      rw [World.goto_self] at hs
      cases hs
    · rw [World.goto_of_ne _ h0] at hs
      exact h.stopping k hlt' hs

/-- It sends a command to the processor `i`. -/
theorem Inv.sent (h : Inv ncpu i w) (hset : Set w) (hap : w.is_ap ≠ 0) (hfirst : First ncpu i w')
    (hns : (w'.pc 0).stopping = false) (hsame : ∀ k ≠ 0, k ≠ i → w'.pc k = w.pc k)
    (hjmp : w'.jmp_code = w.jmp_code) (hentry : w'.user_entry = w.user_entry)
    (hap' : w'.is_ap = w.is_ap)
    (hready : w'.ap_ready = w.ap_ready)
    (hi : w'.pc i = w.pc i ∨ Killed w' i ∨ w.ap_ready = 0 ∧
      (w'.pc i = .off ∨ w'.pc i = .boot_record)) :
    Inv ncpu i w' := by
  have hset' : Set w → Set w' := by
    unfold Set
    rw [hjmp, hentry]
    exact id
  have hlive : ∀ k, w'.pc k = w.pc k → ¬ Killed w' k → ¬ Killed w k := by
    rintro k hk hl ⟨hj, hp⟩
    exact hl ⟨hjmp.trans hj, hk.symm ▸ hp⟩
  have hkeep : ∀ k, 1 ≤ k → k < ncpu → w'.pc k = w.pc k → ¬ Killed w' k → Other i w' k := by
    intro k hk hlt hp hl
    exact (h.other k hk hlt (hlive k hp hl)).keep hp hset' (by rw [hap']; exact id)
      (by rw [hready]; exact id)
  refine ⟨h.pos, fun _ => hfirst, ?_, ?_, ?_⟩
  · intro k hk hlt hl
    by_cases hki : k = i
    · subst hki
      rcases hi with hp | hkill | ⟨-, hoff | hrec⟩
      · exact hkeep k hk hlt hp hl
      · exact absurd hkill hl
      · exact .inl ⟨Nat.le_refl k, hoff⟩
      · exact .inr ⟨hset' hset, hap' ▸ hap, .inr ⟨rfl, .inl (by rw [hrec]; rfl)⟩⟩
    · exact hkeep k hk hlt (hsame k (by omega) hki) hl
  · rw [hready]
    rcases hi with hp | hkill | ⟨hzero, -⟩
    · rw [hp]
      exact h.ready.imp_right (And.imp_right fun hd hl => hd (hlive i hp hl))
    · exact h.ready.imp_right (And.imp_right fun _ hl => absurd hkill hl)
    · exact .inl hzero
  · intro k hlt hs
    rw [hjmp]
    by_cases h0 : k = 0
    · subst h0
      rw [hns] at hs
      cases hs
    · by_cases hki : k = i
      · subst hki
        rcases hi with hp | ⟨hj, -⟩ | ⟨-, hoff | hrec⟩
        · rw [hp] at hs
          exact h.stopping k hlt hs
        · exact hjmp.symm.trans hj
        · rw [hoff] at hs
          cases hs
        · rw [hrec] at hs
          cases hs
      · rw [hsame k h0 hki] at hs
        exact h.stopping k hlt hs

/-- A STARTUP starts a processor that waits for one. -/
theorem send_startup (w : World) (k : Nat) :
    (w.send k .startup).pc k = if w.pc k = .off then .boot_record else w.pc k := by
  unfold World.send
  by_cases hoff : w.pc k = .off
  · rw [if_pos hoff, if_pos hoff, World.goto_self]
  · rw [if_neg hoff, if_neg hoff]

theorem send_of_ne (w : World) {k j : Nat} (h : j ≠ k) (ipi : Ipi) :
    (w.send k ipi).pc j = w.pc j := by
  unfold World.send
  cases ipi with
  | init => exact w.goto_of_ne h .off
  | startup =>
    dsimp only
    split
    · exact w.goto_of_ne h .boot_record
    · rfl

/-- Nothing that is shared changes. -/
theorem send_shared (w : World) (k : Nat) (ipi : Ipi) :
    (w.send k ipi).jmp_code = w.jmp_code ∧ (w.send k ipi).user_entry = w.user_entry ∧
      (w.send k ipi).is_ap = w.is_ap ∧ (w.send k ipi).ap_ready = w.ap_ready := by
  unfold World.send
  cases ipi with
  | init => exact ⟨rfl, rfl, rfl, rfl⟩
  | startup =>
    dsimp only
    split <;> exact ⟨rfl, rfl, rfl, rfl⟩

theorem send_off (w : World) (k : Nat) (ipi : Ipi) : (w.send k ipi).off = w.off := by
  unfold World.send
  cases ipi with
  | init => rfl
  | startup =>
    dsimp only
    split <;> rfl

/-- The commands of `__am_lapic_bootap` start the processor `i`. -/
theorem Inv.boot (h : Inv ncpu i w) {ipi : Ipi} {ipis : List Ipi}
    (hpc : w.pc 0 = .boot i (ipi :: ipis)) :
    Inv ncpu i ((w.send i ipi).goto 0 (.boot i ipis)) := by
  have hlive : ¬ Killed w 0 := alive hpc Pc.noConfusion Pc.noConfusion
  have hfirst := h.first hlive
  unfold First at hfirst
  rw [hpc] at hfirst
  obtain ⟨-, hlt, hset, hap, hipis⟩ := hfirst
  have hi0 : i ≠ 0 := Nat.ne_of_gt h.pos
  obtain ⟨hjmp, hentry, hap', hready⟩ := send_shared w i ipi
  have hpci : ((w.send i ipi).goto 0 (.boot i ipis)).pc i = (w.send i ipi).pc i :=
    World.goto_of_ne _ hi0 _
  have hset' : Set (w.send i ipi) := by
    unfold Set
    rw [hjmp, hentry]
    exact hset
  have hsame : ∀ k ≠ 0, k ≠ i → ((w.send i ipi).goto 0 (.boot i ipis)).pc k = w.pc k := by
    intro k h0 hki
    rw [World.goto_of_ne _ h0, send_of_ne w hki]
  have hns : (((w.send i ipi).goto 0 (.boot i ipis)).pc 0).stopping = false := by
    rw [World.goto_self]
    rfl
  have hwrap : ((ipis = bootap ∨ ipis = [.startup, .startup]) ∧
        Quiet ncpu i ((w.send i ipi).goto 0 (.boot i ipis)) ∨
      (ipis = [.startup] ∨ ipis = []) ∧ Started i ((w.send i ipi).goto 0 (.boot i ipis))) →
      First ncpu i ((w.send i ipi).goto 0 (.boot i ipis)) := by
    intro hstage
    unfold First
    rw [World.goto_self]
    exact ⟨rfl, hlt, hset', hap' ▸ hap, hstage⟩
  rcases hipis with ⟨hipis | hipis, hzero, hoff⟩ | ⟨hipis | hipis, hon⟩
  · -- INIT: the processor is off, as before.
    cases hipis
    have hpc' : (w.send i .init).pc i = .off := World.goto_self ..
    rw [← hpci] at hpc'
    exact h.sent hset hap
      (hwrap (.inl ⟨.inr rfl, hready.trans hzero, fun _ _ => hpc'⟩)) hns hsame hjmp hentry
      hap' hready (.inr (.inr ⟨hzero, .inl hpc'⟩))
  · -- The first STARTUP: the processor is at the boot record.
    cases hipis
    have hpc' : (w.send i .startup).pc i = .boot_record := by
      rw [send_startup]
      by_cases hp : w.pc i = .off
      · rw [if_pos hp]
      · rw [if_neg hp]
        by_contra hrec
        exact hp (hoff hlt fun hk => hk.2.elim hp hrec)
    rw [← hpci] at hpc'
    refine h.sent hset hap (hwrap (.inr ⟨.inl rfl, fun _ => ?_⟩)) hns hsame hjmp hentry hap' hready
      (.inr (.inr ⟨hzero, .inr hpc'⟩))
    rw [hpc']
    exact Pc.noConfusion
  · -- The second one finds it running, unless it was stopped.
    cases hipis
    have hpc' := send_startup w i
    rw [← hpci] at hpc'
    by_cases hp : w.pc i = .off
    · rw [if_pos hp] at hpc'
      have hkill : Killed w i := by
        by_contra hl
        exact hon hl hp
      refine h.sent hset hap
        (hwrap (.inr ⟨.inr rfl, fun _ => ?_⟩)) hns hsame hjmp hentry hap' hready
        (.inr (.inl ⟨hjmp.trans hkill.1, .inr hpc'⟩))
      rw [hpc']
      exact Pc.noConfusion
    · rw [if_neg hp] at hpc'
      refine h.sent hset hap
        (hwrap (.inr ⟨.inr rfl, fun _ => ?_⟩)) hns hsame hjmp hentry hap' hready
        (.inl hpc')
      rw [hpc']
      exact hp
  · cases hipis

/-! ## Section 6: Every step keeps the invariant -/

/-- A processor that is through changes nothing but its own place. -/
theorem Inv.walk (h : Inv ncpu i w) (hc : c < ncpu) (hd : (w.pc c).done = true) {p : Pc}
    (hp : p.done = true) (hstop : p.stopping = true → w.jmp_code = JMP_SELF)
    (hfirst : c = 0 → First ncpu i (w.goto c p)) : Inv ncpu i (w.goto c p) :=
  h.go_on hc hd (.inl rfl) rfl rfl rfl (by rw [World.goto_self]; exact hp)
    (by rw [World.goto_self]; exact hstop) hfirst fun k hk => .inl (w.goto_of_ne hk p)

theorem first_of_stopping (h : (w.pc 0).stopping = true) : First ncpu i w := by
  unfold First
  cases hpc : w.pc 0 <;> rw [hpc] at h <;> trivial

theorem Quiet.goto (h : Quiet ncpu i w) (hi : i ≠ 0) (p : Pc) : Quiet ncpu i (w.goto 0 p) := by
  refine ⟨h.1, fun hlt hl => ?_⟩
  rw [w.goto_of_ne hi]
  exact h.2 hlt fun hk => hl ((killed_goto hi p).mpr hk)

theorem Started.goto (h : Started i w) (hi : i ≠ 0) (p : Pc) : Started i (w.goto 0 p) := by
  intro hl
  rw [w.goto_of_ne hi]
  exact h fun hk => hl ((killed_goto hi p).mpr hk)

/-- A processor in `__am_stop_the_world` sends a command, and goes on. -/
theorem Inv.kill (h : Inv ncpu i w) (hc : c < ncpu) (hs : (w.pc c).stopping = true) (t : Nat)
    (ipi : Ipi)
    {p : Pc} (hp : p.stopping = true) : Inv ncpu i ((w.send t ipi).goto c p) := by
  have hself := h.stopping c hc hs
  obtain ⟨hjmp, hentry, hap, hready⟩ := send_shared w t ipi
  refine h.go_on hc (Pc.done_of_stopping hs) (.inl hjmp) hentry hap hready
    (by rw [World.goto_self]; exact Pc.done_of_stopping hp) (fun _ => hjmp.trans hself) ?_ ?_
  · rintro rfl
    exact first_of_stopping (by rw [World.goto_self]; exact hp)
  · intro k hk
    rw [World.goto_of_ne _ hk]
    by_cases hkt : k = t
    · subst hkt
      cases ipi with
      | init =>
        refine .inr ⟨hjmp.trans hself, .inl ?_⟩
        rw [World.goto_of_ne _ hk]
        exact World.goto_self ..
      | startup =>
        by_cases hoff : w.pc k = .off
        · refine .inr ⟨hjmp.trans hself, .inr ?_⟩
          rw [World.goto_of_ne _ hk, send_startup, if_pos hoff]
        · exact .inl (by rw [send_startup, if_neg hoff])
    · exact .inl (send_of_ne w hkt ipi)

/-- Where only the first processor can be. -/
theorem Inv.at_first (h : Inv ncpu i w) (hc : c < ncpu) {p : Pc} (hp : w.pc c = p) (hoff : p ≠ .off)
    (hrec : p ≠ .boot_record) (hb : p.booting = false) (hd : p.done = false) :
    c = 0 ∧ First ncpu i w := by
  have hlive : ¬ Killed w c := alive hp hoff hrec
  have h0 := h.is_first hc hlive (hp ▸ hoff) (hp ▸ hb) (hp ▸ hd)
  exact ⟨h0, h.first (h0 ▸ hlive)⟩

/-- A program calls `halt`. -/
theorem Inv.to_halt (h : Inv ncpu i w) (hc : c < ncpu) (code : Int)
    (hpc : w.pc c = .main ∨ ∃ e, w.pc c = .user e) : Inv ncpu i (w.goto c (.halt code)) := by
  rcases hpc with hpc | ⟨e, hpc⟩
  · obtain ⟨rfl, -⟩ := h.at_first hc hpc Pc.noConfusion Pc.noConfusion rfl rfl
    refine h.first_move (fun k hk => w.goto_of_ne hk _) id id id rfl ?_
      (by rw [World.goto_self]; rfl)
    simp [First]
  · refine h.walk hc (by rw [hpc]; rfl) rfl Bool.noConfusion ?_
    rintro rfl
    simp [First]

theorem Inv.to_mpe_init (h : Inv ncpu i w) (hc : c < ncpu) (e : Nat) (hpc : w.pc c = .main) :
    Inv ncpu i (w.goto c (.mpe_init e)) := by
  have hi0 : i ≠ 0 := Nat.ne_of_gt h.pos
  obtain ⟨rfl, hfirst⟩ := h.at_first hc hpc Pc.noConfusion Pc.noConfusion rfl rfl
  simp only [First, hpc] at hfirst
  refine h.first_move (fun k hk => w.goto_of_ne hk _) id id id rfl ?_ (by rw [World.goto_self]; rfl)
  simp only [First, World.goto_self]
  exact ⟨hfirst.1, hfirst.2.1, hfirst.2.2.goto hi0 _⟩

theorem Inv.set_entry (h : Inv ncpu i w) (hc : c < ncpu) {e : Nat} (hpc : w.pc c = .mpe_init e) :
    Inv ncpu i ({ w with user_entry := some e }.goto c .set_jmp_code) := by
  have hi0 : i ≠ 0 := Nat.ne_of_gt h.pos
  obtain ⟨rfl, hfirst⟩ := h.at_first hc hpc Pc.noConfusion Pc.noConfusion rfl rfl
  simp only [First, hpc] at hfirst
  have hentry : some e ≠ none := Option.some_ne_none e
  refine h.first_move (fun k hk => World.goto_of_ne _ hk _) id (fun hset => ⟨hentry, hset.2⟩) id
    rfl ?_ (by rw [World.goto_self]; rfl)
  have hquiet : Quiet ncpu i { w with user_entry := some e } := hfirst.2.2
  simp only [First, World.goto_self]
  exact ⟨hfirst.1, hfirst.2.1, hentry, hquiet.goto hi0 _⟩

theorem Inv.set_jmp (h : Inv ncpu i w) (hc : c < ncpu) (hpc : w.pc c = .set_jmp_code) :
    Inv ncpu i ({ w with jmp_code := JMP_BOOT }.goto c (.loop 1)) := by
  have hi0 : i ≠ 0 := Nat.ne_of_gt h.pos
  obtain ⟨rfl, hfirst⟩ := h.at_first hc hpc Pc.noConfusion Pc.noConfusion rfl rfl
  simp only [First, hpc] at hfirst
  obtain ⟨hi1, hzero, hentry, hquiet⟩ := hfirst
  have hnot : w.jmp_code ≠ JMP_SELF := by
    rw [hzero]
    decide
  refine h.first_move (fun k hk => World.goto_of_ne _ hk _) (fun hj => absurd hj hnot) ?_ id rfl ?_
    (by rw [World.goto_self]; rfl)
  · exact fun hset => absurd hzero hset.jmp_ne
  · have hoff : Quiet ncpu i { w with jmp_code := JMP_BOOT } :=
      ⟨hquiet.1, fun hlt _ => hquiet.2 hlt fun hk => hnot hk.1⟩
    simp only [First, World.goto_self]
    exact ⟨hi1.symm, by omega, ⟨hentry, .inl rfl⟩, hoff.goto hi0 _⟩

/-- The loop of `mpe_init` comes to a processor. -/
theorem Inv.next_cpu (h : Inv ncpu i w) (hc : c < ncpu) {cpu : Nat} (hpc : w.pc c = .loop cpu)
    (hlt : cpu < ncpu) : Inv ncpu i ({ w with is_ap := 1 }.goto c (.boot cpu bootap)) := by
  have hi0 : i ≠ 0 := Nat.ne_of_gt h.pos
  obtain ⟨rfl, hfirst⟩ := h.at_first hc hpc Pc.noConfusion Pc.noConfusion rfl rfl
  simp only [First, hpc] at hfirst
  obtain ⟨rfl, -, hset, hquiet⟩ := hfirst
  refine h.first_move (fun k hk => World.goto_of_ne _ hk _) id id (fun _ => Nat.one_ne_zero) rfl ?_
    (by rw [World.goto_self]; rfl)
  have hquiet' : Quiet ncpu cpu { w with is_ap := 1 } := hquiet
  simp only [First, World.goto_self]
  exact ⟨trivial, hlt, hset, Nat.one_ne_zero, .inl ⟨.inl trivial, hquiet'.goto hi0 _⟩⟩

/-- The loop is over. -/
theorem Inv.all_up (h : Inv ncpu i w) (hc : c < ncpu) {cpu : Nat} (hpc : w.pc c = .loop cpu)
    (hge : ¬ cpu < ncpu) : Inv ncpu i (w.goto c .call_user_entry) := by
  obtain ⟨rfl, hfirst⟩ := h.at_first hc hpc Pc.noConfusion Pc.noConfusion rfl rfl
  simp only [First, hpc] at hfirst
  obtain ⟨rfl, -, hset, -⟩ := hfirst
  refine h.first_move (fun k hk => w.goto_of_ne hk _) id id id rfl ?_ (by rw [World.goto_self]; rfl)
  simp only [First, World.goto_self]
  exact ⟨Nat.le_of_not_lt hge, hset⟩

/-- All commands have been sent. -/
theorem Inv.booted (h : Inv ncpu i w) (hc : c < ncpu) {cpu : Nat} (hpc : w.pc c = .boot cpu []) :
    Inv ncpu i (w.goto c (.wait cpu)) := by
  have hi0 : i ≠ 0 := Nat.ne_of_gt h.pos
  obtain ⟨rfl, hfirst⟩ := h.at_first hc hpc Pc.noConfusion Pc.noConfusion rfl rfl
  simp only [First, hpc] at hfirst
  obtain ⟨rfl, hlt, hset, hap, ⟨hipis, -⟩ | ⟨-, hon⟩⟩ := hfirst
  · rcases hipis with hipis | hipis <;> cases hipis
  · refine h.first_move (fun k hk => w.goto_of_ne hk _) id id id rfl ?_
      (by rw [World.goto_self]; rfl)
    simp only [First, World.goto_self]
    exact ⟨trivial, hlt, hset, hap, hon.goto hi0 _⟩

/-- A processor that gets out of the boot record has not been stopped. -/
theorem Inv.fetch (h : Inv ncpu i w) (hc : c < ncpu) (hpc : w.pc c = .boot_record)
    (hjmp : jmp_target w.jmp_code = some 0x7c00) : Inv ncpu i (w.goto c .load_kernel) := by
  refine h.climb hc ?_ (by rw [hpc]; rfl) rfl
  rintro ⟨hself, -⟩
  rw [hself] at hjmp
  cases hjmp

/-- The boot record is there when it is run. -/
theorem Inv.not_stray (h : Inv ncpu i w) (hc : c < ncpu) (hpc : w.pc c = .boot_record)
    (hjmp : jmp_target w.jmp_code ≠ some 0x7c00) : jmp_target w.jmp_code = some BOOTREC_ADDR := by
  by_contra hjmp'
  have hlive : ¬ Killed w c := by
    rintro ⟨hself, -⟩
    rw [hself] at hjmp'
    exact hjmp' rfl
  obtain ⟨-, ⟨-, hboot | hself⟩, -⟩ := h.turn hc hlive (by rw [hpc]; rfl)
  · rw [hboot] at hjmp
    exact hjmp rfl
  · rw [hself] at hjmp'
    exact hjmp' rfl

theorem Inv.enter (h : Inv ncpu i w) (hc : c < ncpu) (e : Nat) (hpc : w.pc c = .call_user_entry) :
    Inv ncpu i (w.goto c (.user e)) := by
  refine h.walk hc (by rw [hpc]; rfl) rfl Bool.noConfusion ?_
  rintro rfl
  have hfirst := h.first (alive hpc Pc.noConfusion Pc.noConfusion)
  simp only [First, hpc] at hfirst
  simp only [First, World.goto_self]
  exact hfirst

/-- Who calls the entry finds one. -/
theorem Inv.has_entry (h : Inv ncpu i w) (hc : c < ncpu) (hpc : w.pc c = .call_user_entry) :
    w.user_entry ≠ none := by
  by_cases h0 : c = 0
  · subst h0
    have hfirst := h.first (alive hpc Pc.noConfusion Pc.noConfusion)
    simp only [First, hpc] at hfirst
    exact hfirst.2.1
  · exact (h.past hc h0 (by rw [hpc]; rfl)).1.1

theorem Inv.set_self (h : Inv ncpu i w) (hc : c < ncpu) {code : Int} (hpc : w.pc c = .halt code) :
    Inv ncpu i ({ w with jmp_code := JMP_SELF }.goto c (.stop code 0 [])) := by
  refine h.go_on hc (by rw [hpc]; rfl) (.inr rfl) rfl rfl rfl (by rw [World.goto_self]; rfl)
    (fun _ => rfl) ?_ fun k hk => .inl (World.goto_of_ne _ hk _)
  rintro rfl
  exact first_of_stopping (by rw [World.goto_self]; rfl)

/-- A processor that halts goes on, and may put out a character. -/
theorem Inv.halt_on (h : Inv ncpu i w) (hc : c < ncpu) (hs : (w.pc c).stopping = true) {p : Pc}
    (hp : p.stopping = true) (com1 : List Char) :
    Inv ncpu i ({ w with com1 := com1 }.goto c p) := by
  refine h.go_on hc (Pc.done_of_stopping hs) (.inl rfl) rfl rfl rfl
    (by rw [World.goto_self]; exact Pc.done_of_stopping hp) (fun _ => h.stopping c hc hs) ?_
    fun k hk => .inl (World.goto_of_ne _ hk _)
  rintro rfl
  exact first_of_stopping (by rw [World.goto_self]; exact hp)

/-- Step lemma. -/
theorem inv_trans (h : Inv ncpu i w) (hc : c < ncpu) (ht : Trans ncpu c w w') :
    ∃ i', Inv ncpu i' w' := by
  cases ht with
  | putch ch hpc => exact ⟨i, h.pos, h.first, h.other, h.ready, h.stopping⟩
  | power_off code hpc => exact ⟨i, h.pos, h.first, h.other, h.ready, h.stopping⟩
  | spin hpc hjmp => exact ⟨i, h⟩
  | to_halt code hpc => exact ⟨i, h.to_halt hc code hpc⟩
  | to_mpe_init e hpc => exact ⟨i, h.to_mpe_init hc e hpc⟩
  | set_entry e hpc => exact ⟨i, h.set_entry hc hpc⟩
  | set_jmp hpc => exact ⟨i, h.set_jmp hc hpc⟩
  | next_cpu cpu hpc hlt => exact ⟨i, h.next_cpu hc hpc hlt⟩
  | all_up cpu hpc hge => exact ⟨i, h.all_up hc hpc hge⟩
  | boot_ipi cpu ipi ipis hpc =>
    obtain ⟨rfl, hfirst⟩ := h.at_first hc hpc Pc.noConfusion Pc.noConfusion rfl rfl
    simp only [First, hpc] at hfirst
    obtain ⟨rfl, -⟩ := hfirst
    exact ⟨cpu, h.boot hpc⟩
  | booted cpu hpc => exact ⟨i, h.booted hc hpc⟩
  | is_ready cpu hpc hready =>
    -- The turn goes to the next processor.
    obtain ⟨rfl, hfirst⟩ := h.at_first hc hpc Pc.noConfusion Pc.noConfusion rfl rfl
    simp only [First, hpc] at hfirst
    obtain ⟨rfl, -⟩ := hfirst
    exact ⟨cpu + 1, h.advance hpc hready⟩
  | poll cpu hpc hready =>
    have hzero : w.ap_ready = 0 := h.ready.resolve_right fun hone => hready hone.1
    have hsame : { w with ap_ready := 0 } = w := by rw [← hzero]
    exact ⟨i, hsame ▸ h⟩
  | fetch hpc hjmp => exact ⟨i, h.fetch hc hpc hjmp⟩
  | stray hpc hjmp hjmp' => exact absurd (h.not_stray hc hpc hjmp) hjmp'
  | loaded hpc hap =>
    exact ⟨i, h.climb hc (alive hpc Pc.noConfusion Pc.noConfusion) (by rw [hpc]; rfl) rfl⟩
  | reloads hpc hap =>
    exact absurd hap (h.turn hc (alive hpc Pc.noConfusion Pc.noConfusion) (by rw [hpc]; rfl)).2.2
  | othercpu hpc hap =>
    exact ⟨i, h.climb hc (alive hpc Pc.noConfusion Pc.noConfusion) (by rw [hpc]; rfl) rfl⟩
  | bootcpu hpc hap =>
    exact absurd hap (h.turn hc (alive hpc Pc.noConfusion Pc.noConfusion) (by rw [hpc]; rfl)).2.2
  | inited hpc =>
    exact ⟨i, h.climb hc (alive hpc Pc.noConfusion Pc.noConfusion) (by rw [hpc]; rfl) rfl⟩
  | announced hpc => exact ⟨i, h.announce hc hpc⟩
  | enter e hpc he => exact ⟨i, h.enter hc e hpc⟩
  | no_entry hpc he => exact absurd he (h.has_entry hc hpc)
  | set_self code hpc => exact ⟨i, h.set_self hc hpc⟩
  | skip_self code hpc => exact ⟨i, h.halt_on hc (by rw [hpc]; rfl) rfl w.com1⟩
  | next_stop code cpu_ hpc hlt hne => exact ⟨i, h.halt_on hc (by rw [hpc]; rfl) rfl w.com1⟩
  | all_stopped code cpu_ hpc hge => exact ⟨i, h.halt_on hc (by rw [hpc]; rfl) rfl w.com1⟩
  | last_ipi code cpu_ ipi hpc => exact ⟨i, h.kill hc (by rw [hpc]; rfl) cpu_ ipi rfl⟩
  | stop_ipi code cpu_ ipi ipi' ipis hpc => exact ⟨i, h.kill hc (by rw [hpc]; rfl) cpu_ ipi rfl⟩
  | shown code ch rest hpc => exact ⟨i, h.halt_on hc (by rw [hpc]; rfl) rfl (w.com1 ++ [ch])⟩

end facts

theorem Reachable.inv {ncpu : Nat} {w : World} (h : Reachable ncpu w) : ∃ i, Inv ncpu i w := by
  obtain ⟨steps, hrun⟩ := h
  refine Interleave.run_inv (P := fun w => ∃ i, Inv ncpu i w) (fun w x w' hinv hstep => ?_)
    ⟨1, inv_start ncpu⟩ hrun
  obtain ⟨i, hi⟩ := hinv
  obtain ⟨-, hc, ht⟩ := step_trans hstep
  exact inv_trans hi hc ht

/-! ## Section 7: What a step does to the others -/

section others
variable {ncpu i c : Nat} {w w' : World}

/-- Once a processor halts, the boot record stays as it is. -/
theorem Inv.self_stays (h : Inv ncpu i w) (hc : c < ncpu) (ht : Trans ncpu c w w')
    (hself : w.jmp_code = JMP_SELF) : w'.jmp_code = JMP_SELF := by
  cases ht with
  | set_self code hpc => rfl
  | set_jmp hpc =>
    obtain ⟨rfl, hfirst⟩ := h.at_first hc hpc Pc.noConfusion Pc.noConfusion rfl rfl
    simp only [First, hpc] at hfirst
    rw [hself] at hfirst
    cases hfirst.2.1
  | boot_ipi cpu ipi ipis hpc => exact (send_shared w cpu ipi).1.trans hself
  | last_ipi code cpu_ ipi hpc => exact (send_shared w cpu_ ipi).1.trans hself
  | stop_ipi code cpu_ ipi ipi' ipis hpc => exact (send_shared w cpu_ ipi).1.trans hself
  | _ => exact hself

/-- The command of a processor that halts. -/
theorem send_killed {t k : Nat} (hself : w.jmp_code = JMP_SELF) (ipi : Ipi) :
    (w.send t ipi).pc k = w.pc k ∨ Killed (w.send t ipi) k := by
  by_cases hkt : k = t
  · subst hkt
    have hself' := (send_shared w k ipi).1.trans hself
    cases ipi with
    | init => exact .inr ⟨hself', .inl (World.goto_self ..)⟩
    | startup =>
      by_cases hoff : w.pc k = .off
      · exact .inr ⟨hself', .inr (by rw [send_startup, if_pos hoff])⟩
      · exact .inl (by rw [send_startup, if_neg hoff])
  · exact .inl (send_of_ne w hkt ipi)

/-- A step leaves another processor where it is, stops it, or starts it.  Only a
    processor that halts stops one. -/
theorem Inv.others (h : Inv ncpu i w) (hc : c < ncpu) (ht : Trans ncpu c w w') {k : Nat}
    (hk : k ≠ c) :
    w'.pc k = w.pc k ∨ (Killed w' k ∧ ((w.pc c).stopping = true ∨ Killed w k)) ∨
      w.pc k = .off ∧ w'.pc k = .boot_record := by
  have hstop : ∀ (t : Nat) (ipi : Ipi) (p : Pc), (w.pc c).stopping = true →
      ((w.send t ipi).goto c p).pc k = w.pc k ∨
        Killed ((w.send t ipi).goto c p) k ∧ ((w.pc c).stopping = true ∨ Killed w k) := by
    intro t ipi p hs
    rw [killed_goto hk, World.goto_of_ne _ hk]
    exact (send_killed (h.stopping c hc hs) ipi).imp_right fun hkill => ⟨hkill, .inl hs⟩
  cases ht with
  | boot_ipi cpu ipi ipis hpc =>
    obtain ⟨rfl, hfirst⟩ := h.at_first hc hpc Pc.noConfusion Pc.noConfusion rfl rfl
    simp only [First, hpc] at hfirst
    obtain ⟨rfl, hlt, -, -, hipis⟩ := hfirst
    rw [killed_goto hk, World.goto_of_ne _ hk]
    by_cases hkt : k = cpu
    · subst hkt
      cases ipi with
      | init =>
        have hquiet : Quiet ncpu k w := by
          rcases hipis with ⟨-, hquiet⟩ | ⟨hipis | hipis, -⟩
          · exact hquiet
          · cases hipis
          · cases hipis
        by_cases hkill : Killed w k
        · exact .inr (.inl ⟨⟨hkill.1, .inl (World.goto_self ..)⟩, .inr hkill⟩)
        · exact .inl ((World.goto_self ..).trans (hquiet.2 hlt hkill).symm)
      | startup =>
        by_cases hoff : w.pc k = .off
        · exact .inr (.inr ⟨hoff, by rw [send_startup, if_pos hoff]⟩)
        · exact .inl (by rw [send_startup, if_neg hoff])
    · exact .inl (send_of_ne w hkt ipi)
  | last_ipi code cpu_ ipi hpc => exact (hstop cpu_ ipi _ (by rw [hpc]; rfl)).imp_right .inl
  | stop_ipi code cpu_ ipi ipi' ipis hpc =>
    exact (hstop cpu_ ipi _ (by rw [hpc]; rfl)).imp_right .inl
  | putch => exact .inl rfl
  | poll => exact .inl rfl
  | spin => exact .inl rfl
  | power_off => exact .inl rfl
  | _ => exact .inl (World.goto_of_ne _ hk _)

end others

/-! ## Section 8: The entry -/

/-- Who is in an entry is in the one that was set. -/
def Entered (ncpu : Nat) (w : World) : Prop := ∀ k < ncpu, ∀ e, w.pc k = .user e →
    w.user_entry = some e

section entered
variable {ncpu i c : Nat} {w w' : World}

/-- Until the entry is set, the others are off. -/
theorem Inv.alone {e : Nat} (h : Inv ncpu i w) (hc : c < ncpu) (hpc : w.pc c = .mpe_init e)
    {k : Nat}
    (hk : k < ncpu) (hne : k ≠ c) : w.pc k = .off := by
  obtain ⟨rfl, hfirst⟩ := h.at_first hc hpc Pc.noConfusion Pc.noConfusion rfl rfl
  simp only [First, hpc] at hfirst
  have hnot : ¬ Killed w k := by
    intro hkill
    have hself := hkill.1
    rw [hfirst.2.1] at hself
    cases hself
  rcases h.other k (by omega) hk hnot with ⟨-, hoff⟩ | ⟨hset, -⟩
  · exact hoff
  · exact absurd hfirst.2.1 hset.jmp_ne

/-- The entry stays, but where `mpe_init` sets it. -/
theorem Trans.user_entry (ht : Trans ncpu c w w') (hpc : ∀ e, w.pc c ≠ .mpe_init e) :
    w'.user_entry = w.user_entry := by
  cases ht with
  | set_entry e h => exact absurd h (hpc e)
  | boot_ipi cpu ipi ipis h => exact (send_shared w cpu ipi).2.1
  | last_ipi code cpu_ ipi h => exact (send_shared w cpu_ ipi).2.1
  | stop_ipi code cpu_ ipi ipi' ipis h => exact (send_shared w cpu_ ipi).2.1
  | _ => rfl

/-- A processor gets into the entry that is set. -/
theorem Trans.enters {e : Nat} (ht : Trans ncpu c w w') (hpc : w'.pc c = .user e) :
    w.pc c = .user e ∨ w.pc c = .call_user_entry ∧ w.user_entry = some e := by
  cases ht with
  | enter e' h he =>
    rw [World.goto_self] at hpc
    cases hpc
    exact .inr ⟨h, he⟩
  | putch | poll | spin | power_off => exact .inl hpc
  | _ =>
    rw [World.goto_self] at hpc
    cases hpc

/-- Another processor does not get there by this. -/
theorem Inv.enters_not {e k : Nat} (h : Inv ncpu i w) (hc : c < ncpu) (ht : Trans ncpu c w w')
    (hk : k ≠ c)
    (hpc : w'.pc k = .user e) : w.pc k = .user e := by
  rcases h.others hc ht hk with hsame | ⟨⟨-, hoff | hrec⟩, -⟩ | ⟨-, hrec⟩
  · exact hsame.symm.trans hpc
  · rw [hoff] at hpc
    cases hpc
  · rw [hrec] at hpc
    cases hpc
  · rw [hrec] at hpc
    cases hpc

theorem Entered.trans (h : Entered ncpu w) (hinv : Inv ncpu i w) (hc : c < ncpu)
    (ht : Trans ncpu c w w') :
    Entered ncpu w' := by
  intro k hk e he
  by_cases hset : ∃ e', w.pc c = .mpe_init e'
  · -- Nobody is in an entry yet.
    exfalso
    obtain ⟨e', hpc⟩ := hset
    by_cases hkc : k = c
    · subst hkc
      rcases ht.enters he with hold | ⟨hold, -⟩
      · rw [hpc] at hold
        cases hold
      · rw [hpc] at hold
        cases hold
    · have hold := hinv.enters_not hc ht hkc he
      rw [hinv.alone hc hpc hk hkc] at hold
      cases hold
  · rw [ht.user_entry (not_exists.mp hset)]
    by_cases hkc : k = c
    · subst hkc
      rcases ht.enters he with hold | ⟨-, hnew⟩
      · exact h k hk e hold
      · exact hnew
    · exact h k hk e (hinv.enters_not hc ht hkc he)

end entered

theorem entered_start (ncpu : Nat) : Entered ncpu start := by
  intro k _ e he
  by_cases h0 : k = 0
  · subst h0
    cases he
  · have hoff : start.pc k = .off := if_neg h0
    rw [hoff] at he
    cases he

theorem Reachable.entered {ncpu : Nat} {w : World} (h : Reachable ncpu w) : Entered ncpu w := by
  obtain ⟨steps, hrun⟩ := h
  have hboth := Interleave.run_inv (P := fun w => (∃ i, Inv ncpu i w) ∧ Entered ncpu w)
    (fun w x w' hinv hstep => ?_) ⟨⟨1, inv_start ncpu⟩, entered_start ncpu⟩ hrun
  · exact hboth.2
  · obtain ⟨⟨i, hi⟩, he⟩ := hinv
    obtain ⟨-, hc, ht⟩ := step_trans hstep
    exact ⟨inv_trans hi hc ht, he.trans hi hc ht⟩

/-! ## Section 9: Safety of the boot -/

namespace Pc

/-- On the stack of the boot loader, or in its own initialization. -/
def initializing : Pc → Bool
  | .load_kernel | .reload | .start_c | .bootcpu_init | .percpu_init | .announce => true
  | _ => false

/-- Where no processor should ever be. -/
def astray : Pc → Bool
  | .reload | .bootcpu_init | .lost => true
  | _ => false

/-- Behind the loop of `mpe_init`. -/
def entering : Pc → Bool
  | .call_user_entry | .user _ => true
  | _ => false

theorem not_astray_of_done {p : Pc} (h : p.done = true) : p.astray = false := by
  cases p <;> simp [done, astray] at h ⊢

theorem not_astray_of_booting {p : Pc} (h : p.booting = true) : p.astray = false := by
  cases p <;> simp [booting, astray] at h ⊢

theorem booting_of_initializing {p : Pc} (h : p.initializing = true) (hnot : p.astray = false) :
    p.booting = true := by
  cases p <;> simp [initializing, astray, booting] at h hnot ⊢

theorem done_of_entering {p : Pc} (h : p.entering = true) : p.done = true := by
  cases p <;> simp [entering, done] at h ⊢

end Pc

section safety
variable {ncpu i c : Nat} {w : World}

theorem Inv.not_astray (h : Inv ncpu i w) (hc : c < ncpu) : (w.pc c).astray = false := by
  by_cases hkill : Killed w c
  · rcases hkill.2 with hpc | hpc <;> rw [hpc] <;> rfl
  · by_cases h0 : c = 0
    · subst h0
      have hfirst := h.first hkill
      unfold First at hfirst
      cases hpc : w.pc 0 <;> rw [hpc] at hfirst <;> first | rfl | exact hfirst.elim
    · rcases h.other c (by omega) hc hkill with ⟨-, hoff⟩ | ⟨-, -, ⟨-, hd⟩ | ⟨-, hb | ⟨hd, -⟩⟩⟩
      · rw [hoff]
        rfl
      · exact Pc.not_astray_of_done hd
      · exact Pc.not_astray_of_booting hb
      · exact Pc.not_astray_of_done hd

/-- It is its turn. -/
theorem Inv.initializing (h : Inv ncpu i w) (hc : c < ncpu) (hinit : (w.pc c).initializing = true) :
    c = i := by
  have hlive : ¬ Killed w c := by
    rintro ⟨-, hpc | hpc⟩ <;> rw [hpc] at hinit <;> cases hinit
  exact (h.turn hc hlive (Pc.booting_of_initializing hinit (h.not_astray hc))).1

/-- The loop of `mpe_init` is over. -/
theorem Inv.entering (h : Inv ncpu i w) (hent : (w.pc 0).entering = true) : ncpu ≤ i := by
  have hfirst := h.first (alive_of_done (Pc.done_of_entering hent))
  unfold First at hfirst
  cases hpc : w.pc 0 <;> rw [hpc] at hent hfirst <;> first | exact hfirst.1 | cases hent

end safety

/-- In every interleaving no two processors are on the stack of the boot loader
    or in their initialization at once, none takes itself for the first one or
    loads the kernel again, and each calls the entry that was given to
    `mpe_init`.  When the first processor calls it, all others are initialized or
    have been stopped. -/
theorem boot_safe {ncpu : Nat} {w : World} (h : Reachable ncpu w) :
    (∀ j < ncpu, ∀ k < ncpu, (w.pc j).initializing = true → (w.pc k).initializing = true → j = k) ∧
      (∀ k < ncpu, (w.pc k).astray = false) ∧
      (∀ k < ncpu, ∀ e, w.pc k = .user e → w.user_entry = some e) ∧
      ((w.pc 0).entering = true → ∀ k < ncpu, (w.pc k).done = true ∨ Killed w k) := by
  obtain ⟨i, hi⟩ := h.inv
  refine ⟨?_, fun k hk => hi.not_astray hk, h.entered, ?_⟩
  · intro j hj k hk hpj hpk
    exact (hi.initializing hj hpj).trans (hi.initializing hk hpk).symm
  · intro hent k hk
    have hall := hi.entering hent
    by_cases hkill : Killed w k
    · exact .inr hkill
    · left
      by_cases h0 : k = 0
      · subst h0
        exact Pc.done_of_entering hent
      · rcases hi.other k (by omega) hk hkill with ⟨hik, -⟩ | ⟨-, -, ⟨-, hd⟩ | ⟨hki, -⟩⟩
        · omega
        · exact hd
        · omega

/-- The first processor waits, and the second one is in its initialization. -/
def two_up : List (Nat × Act) :=
  [(0, .mpe_init 0x100000)] ++ List.replicate 7 (0, .go) ++ List.replicate 3 (1, .go)

theorem boot_safe_two :
    ((run 2 start two_up).get (by decide)).pc 1 = .percpu_init ∧
      (∀ k < 2, (((run 2 start two_up).get (by decide)).pc k).astray = false) :=
  ⟨by decide, (boot_safe ⟨two_up, (Option.some_get _).symm⟩).2.1⟩

end Am.X86.Mpe
