import IcsPa.Am.X86.Mpe.Boot

/-! # The last processor switches the machine off

    Processors that halt at once stop each other, and one of them remains: it is
    alone when it prints, and nobody comes between its characters. -/

namespace Am.X86.Mpe

/-! ## Section 1: Who is stopped stays stopped -/

section killed
variable {ncpu i c k : Nat} {w w' : World}

/-- It can only jump to itself. -/
theorem Killed.spins (h : Killed w c) (ht : Trans ncpu c w w') : w' = w := by
  obtain ⟨hself, hpc⟩ := h
  cases ht with
  | spin hrec hjmp => rfl
  | fetch hrec hjmp =>
    rw [hself] at hjmp
    cases hjmp
  | stray hrec hjmp hjmp' =>
    rw [hself] at hjmp'
    exact absurd rfl hjmp'
  | putch ch hp =>
    exfalso
    rcases hpc with hpc | hpc <;> rcases hp with hp | ⟨e, hp⟩ <;> rw [hpc] at hp <;> cases hp
  | to_halt code hp =>
    exfalso
    rcases hpc with hpc | hpc <;> rcases hp with hp | ⟨e, hp⟩ <;> rw [hpc] at hp <;> cases hp
  | to_mpe_init e hp | set_entry e hp | set_jmp hp | next_cpu cpu hp | all_up cpu hp
  | boot_ipi cpu ipi ipis hp
  | booted cpu hp | is_ready cpu hp | poll cpu hp | loaded hp | reloads hp | othercpu hp
  | bootcpu hp
  | inited hp | announced hp | enter e hp | no_entry hp | set_self code hp | skip_self code hp
  | next_stop code cpu_ hp | all_stopped code cpu_ hp | last_ipi code cpu_ ipi hp
  | stop_ipi code cpu_ ipi ipi' ipis hp | shown code ch rest hp | power_off code hp =>
    exfalso
    rcases hpc with hpc | hpc <;> rw [hpc] at hp <;> cases hp

theorem Inv.killed_stays (h : Inv ncpu i w) (hc : c < ncpu) (ht : Trans ncpu c w w')
    (hkill : Killed w k) :
    Killed w' k := by
  by_cases hkc : k = c
  · subst hkc
    rw [hkill.spins ht]
    exact hkill
  · have hself := h.self_stays hc ht hkill.1
    rcases h.others hc ht hkc with hsame | ⟨hkill', -⟩ | ⟨-, hrec⟩
    · exact ⟨hself, hsame ▸ hkill.2⟩
    · exact hkill'
    · exact ⟨hself, .inr hrec⟩

/-- A processor that halts is on its way to the end. -/
theorem Trans.stopping (ht : Trans ncpu c w w') (hs : (w.pc c).stopping = true) :
    (w'.pc c).stopping = true := by
  cases ht with
  | putch | poll | spin | power_off => exact hs
  | set_self | skip_self | next_stop | all_stopped | last_ipi | stop_ipi | shown =>
    rw [World.goto_self]
    rfl
  | to_halt code hp =>
    rcases hp with hp | ⟨e, hp⟩ <;> rw [hp] at hs <;> cases hs
  | to_mpe_init e hp | set_entry e hp | set_jmp hp | next_cpu cpu hp | all_up cpu hp
  | boot_ipi cpu ipi ipis hp
  | booted cpu hp | is_ready cpu hp | loaded hp | reloads hp | othercpu hp | bootcpu hp | fetch hp
  | stray hp
  | inited hp | announced hp | enter e hp | no_entry hp =>
    rw [hp] at hs
    cases hs

/-- Only a processor that halts lets the boot record jump to itself. -/
theorem Trans.halts (ht : Trans ncpu c w w') (hnot : w.jmp_code ≠ JMP_SELF)
    (hself : w'.jmp_code = JMP_SELF) :
    (w'.pc c).stopping = true := by
  cases ht with
  | set_self =>
    rw [World.goto_self]
    rfl
  | set_jmp => cases hself
  | boot_ipi cpu ipi ipis hp => exact absurd ((send_shared w cpu ipi).1.symm.trans hself) hnot
  | last_ipi code cpu_ ipi hp => exact absurd ((send_shared w cpu_ ipi).1.symm.trans hself) hnot
  | stop_ipi code cpu_ ipi ipi' ipis hp =>
    exact absurd ((send_shared w cpu_ ipi).1.symm.trans hself) hnot
  | _ => exact absurd hself hnot

end killed

/-! ## Section 2: The invariant of the halt -/

/-- What the processor `c` has done of its halt. -/
def Halts (ncpu : Nat) (w : World) (c : Nat) : Prop :=
  match w.pc c with
  | .stop _ cpu_ ipis =>
      (∀ k < ncpu, k < cpu_ → k ≠ c → Killed w k) ∧
        (ipis ≠ [] → cpu_ ≠ c ∧ cpu_ < ncpu ∧
          (ipis = bootap ∨ (ipis = [.startup, .startup] ∨ ipis = [.startup]) ∧ Killed w cpu_))
  | .print code rest =>
      (∀ k < ncpu, k ≠ c → Killed w k) ∧ ∃ before, w.com1 ++ rest = before ++ message c code
  | _ => True

structure Halting (ncpu : Nat) (w : World) : Prop where
  halts   : ∀ c < ncpu, Halts ncpu w c
  someone : w.jmp_code = JMP_SELF → ∃ c < ncpu, (w.pc c).stopping = true
  off     : w.off = true → ∃ c < ncpu, ∃ code, w.pc c = .print code []

theorem halting_start (ncpu : Nat) : Halting ncpu start where
  halts c _ := by
    unfold Halts
    by_cases h0 : c = 0
    · subst h0
      exact trivial
    · have hoff : start.pc c = .off := if_neg h0
      rw [hoff]
      exact trivial
  someone h := by cases h
  off h := by cases h

section halting
variable {ncpu i c k : Nat} {w w' : World}

/-- Another processor is not disturbed, unless it is stopped. -/
theorem Halts.keep (h : Halts ncpu w k) (hinv : Inv ncpu i w) (hc : c < ncpu)
    (ht : Trans ncpu c w w')
    (hk : k ≠ c) : Halts ncpu w' k := by
  have hstays : ∀ j, Killed w j → Killed w' j := fun j => hinv.killed_stays hc ht
  rcases hinv.others hc ht hk with hsame | ⟨⟨-, hoff | hrec⟩, -⟩ | ⟨-, hrec⟩
  · unfold Halts at h ⊢
    rw [hsame]
    cases hpc : w.pc k <;> rw [hpc] at h <;> dsimp only at h ⊢
    case stop code cpu_ ipis =>
      obtain ⟨hbehind, htarget⟩ := h
      refine ⟨fun j hj hlt hne => hstays j (hbehind j hj hlt hne), fun hipis => ?_⟩
      obtain ⟨hne, hlt, hstage⟩ := htarget hipis
      exact ⟨hne, hlt, hstage.imp_right (And.imp_right (hstays cpu_))⟩
    case print code rest =>
      -- The processor of the step is stopped.
      have hsame' := (h.1 c hc (Ne.symm hk)).spins ht
      rw [hsame']
      exact h
  · unfold Halts
    rw [hoff]
    exact trivial
  · unfold Halts
    rw [hrec]
    exact trivial
  · unfold Halts
    rw [hrec]
    exact trivial

/-- The commands of `__am_stop_the_world` stop the processor. -/
theorem send_kills (hself : w.jmp_code = JMP_SELF) {cpu_ : Nat} {ipi : Ipi} {ipis : List Ipi}
    (hipis : ipi :: ipis = bootap ∨
      (ipi :: ipis = [.startup, .startup] ∨ ipi :: ipis = [.startup]) ∧ Killed w cpu_) :
    Killed (w.send cpu_ ipi) cpu_ := by
  have hself' := (send_shared w cpu_ ipi).1.trans hself
  rcases hipis with hipis | ⟨hipis, -, hpc⟩
  · cases hipis
    exact ⟨hself', .inl (World.goto_self ..)⟩
  · have hipi : ipi = .startup := by rcases hipis with hipis | hipis <;> cases hipis <;> rfl
    subst hipi
    refine ⟨hself', .inr ?_⟩
    rw [send_startup]
    rcases hpc with hoff | hrec
    · rw [if_pos hoff]
    · rw [if_neg (by rw [hrec]; exact Pc.noConfusion), hrec]

/-- A step of the processor itself. -/
theorem Halts.step (h : Halts ncpu w c) (hinv : Inv ncpu i w) (hc : c < ncpu)
    (ht : Trans ncpu c w w') :
    Halts ncpu w' c := by
  have hstays : ∀ j, Killed w j → Killed w' j := fun j => hinv.killed_stays hc ht
  cases ht with
  | putch ch hp =>
    unfold Halts
    rcases hp with hp | ⟨e, hp⟩ <;> dsimp only <;> rw [hp] <;> exact trivial
  | poll cpu hp =>
    unfold Halts
    dsimp only
    rw [hp]
    exact trivial
  | spin hp => exact h
  | set_self code hp =>
    simp only [Halts, World.goto_self]
    exact ⟨fun k _ hlt => absurd hlt (Nat.not_lt_zero k), fun hne => absurd rfl hne⟩
  | skip_self code hp =>
    simp only [Halts, hp] at h
    simp only [Halts, World.goto_self]
    refine ⟨fun k hk hlt hne => hstays k (h.1 k hk ?_ hne), fun hne => absurd rfl hne⟩
    omega
  | next_stop code cpu_ hp hlt hne =>
    simp only [Halts, hp] at h
    simp only [Halts, World.goto_self]
    exact ⟨fun k hk hlt' hne' => hstays k (h.1 k hk hlt' hne'), fun _ => ⟨hne, hlt, .inl trivial⟩⟩
  | all_stopped code cpu_ hp hge =>
    simp only [Halts, hp] at h
    simp only [Halts, World.goto_self]
    exact ⟨fun k hk hne => hstays k (h.1 k hk (by omega) hne), w.com1, rfl⟩
  | last_ipi code cpu_ ipi hp =>
    have hself := hinv.stopping c hc (by rw [hp]; rfl)
    simp only [Halts, hp] at h
    simp only [Halts, World.goto_self]
    obtain ⟨hbehind, htarget⟩ := h
    obtain ⟨hne, -, hstage⟩ := htarget (List.cons_ne_nil _ _)
    refine ⟨fun k hk hlt hkc => ?_, fun hne => absurd rfl hne⟩
    by_cases hkt : k = cpu_
    · subst hkt
      exact (killed_goto hne _).mpr (send_kills hself hstage)
    · exact hstays k (hbehind k hk (by omega) hkc)
  | stop_ipi code cpu_ ipi ipi' ipis hp =>
    have hself := hinv.stopping c hc (by rw [hp]; rfl)
    simp only [Halts, hp] at h
    simp only [Halts, World.goto_self]
    obtain ⟨hbehind, htarget⟩ := h
    obtain ⟨hne, hlt, hstage⟩ := htarget (List.cons_ne_nil _ _)
    refine ⟨fun k hk hlt' hkc => hstays k (hbehind k hk hlt' hkc),
      fun _ => ⟨hne, hlt, .inr ⟨?_, ?_⟩⟩⟩
    · rcases hstage with hipis | ⟨hipis | hipis, -⟩ <;> cases hipis
      · exact .inl rfl
      · exact .inr rfl
    · exact (killed_goto hne _).mpr (send_kills hself hstage)
  | shown code ch rest hp =>
    simp only [Halts, hp] at h
    simp only [Halts, World.goto_self]
    obtain ⟨hall, before, hcom⟩ := h
    refine ⟨fun k hk hne => hstays k (hall k hk hne), before, ?_⟩
    rw [← hcom]
    simp
  | power_off code hp =>
    simp only [Halts, hp] at h
    simp only [Halts, hp]
    exact ⟨fun k hk hne => hstays k (h.1 k hk hne), h.2⟩
  | _ => simp only [Halts, World.goto_self]

/-- Somebody is left to switch the machine off. -/
theorem Halting.someone_stays (h : Halting ncpu w) (hinv : Inv ncpu i w) (hc : c < ncpu)
    (ht : Trans ncpu c w w') (hself : w'.jmp_code = JMP_SELF) :
    ∃ k < ncpu, (w'.pc k).stopping = true := by
  by_cases hold : w.jmp_code = JMP_SELF
  · by_cases hs : (w.pc c).stopping = true
    · exact ⟨c, hc, ht.stopping hs⟩
    · obtain ⟨k, hk, hsk⟩ := h.someone hold
      have hkc : k ≠ c := by
        rintro rfl
        exact hs hsk
      rcases hinv.others hc ht hkc with hsame | ⟨-, hsc | hkill⟩ | ⟨hoff, -⟩
      · exact ⟨k, hk, hsame ▸ hsk⟩
      · exact absurd hsc hs
      · exact absurd hkill (alive_of_done (Pc.done_of_stopping hsk))
      · rw [hoff] at hsk
        cases hsk
  · exact ⟨c, hc, ht.halts hold hself⟩

/-- Only the last step of `halt` switches the machine off. -/
theorem Trans.switches_off (ht : Trans ncpu c w w') (hon : w.off = false) (hoff : w'.off = true) :
    ∃ code, w'.pc c = .print code [] := by
  have hnot : w.off ≠ true := by simp [hon]
  cases ht with
  | power_off code hp => exact ⟨code, hp⟩
  | boot_ipi cpu ipi ipis hp => exact absurd ((send_off w cpu ipi).symm.trans hoff) hnot
  | last_ipi code cpu_ ipi hp => exact absurd ((send_off w cpu_ ipi).symm.trans hoff) hnot
  | stop_ipi code cpu_ ipi ipi' ipis hp => exact absurd ((send_off w cpu_ ipi).symm.trans hoff) hnot
  | _ => exact absurd hoff hnot

/-- Step lemma. -/
theorem Halting.trans (h : Halting ncpu w) (hinv : Inv ncpu i w) (hon : w.off = false)
    (hc : c < ncpu)
    (ht : Trans ncpu c w w') : Halting ncpu w' where
  halts k hk := by
    by_cases hkc : k = c
    · subst hkc
      exact (h.halts k hk).step hinv hk ht
    · exact (h.halts k hk).keep hinv hc ht hkc
  someone := h.someone_stays hinv hc ht
  off hoff := ⟨c, hc, ht.switches_off hon hoff⟩

end halting

theorem Reachable.halting {ncpu : Nat} {w : World} (h : Reachable ncpu w) : Halting ncpu w := by
  obtain ⟨steps, hrun⟩ := h
  have hboth := Interleave.run_inv (P := fun w => (∃ i, Inv ncpu i w) ∧ Halting ncpu w)
    (fun w x w' hinv hstep => ?_) ⟨⟨1, inv_start ncpu⟩, halting_start ncpu⟩ hrun
  · exact hboth.2
  · obtain ⟨⟨i, hi⟩, hh⟩ := hinv
    obtain ⟨hon, hc, ht⟩ := step_trans hstep
    exact ⟨inv_trans hi hc ht, hh.trans hi hon hc ht⟩

/-! ## Section 3: The last one is alone -/

/-- Whatever processors halt, and whenever: who prints is alone, nobody has
    come between the characters of its message, and when the machine is off that
    message is the end of what was put out.  Once the boot record jumps to itself,
    somebody is left to get there. -/
theorem halt_alone {ncpu : Nat} {w : World} (h : Reachable ncpu w) :
    (∀ c < ncpu, ∀ code rest, w.pc c = .print code rest →
        (∀ k < ncpu, k ≠ c → Killed w k) ∧ ∃ before, w.com1 ++ rest = before ++ message c code) ∧
      (w.off = true → ∃ c < ncpu, (∀ k < ncpu, k ≠ c → Killed w k) ∧
        ∃ code before, w.com1 = before ++ message c code) ∧
      (w.jmp_code = JMP_SELF → ∃ c < ncpu, (w.pc c).stopping = true) := by
  have hh := h.halting
  have hprint : ∀ c < ncpu, ∀ code rest, w.pc c = .print code rest →
      (∀ k < ncpu, k ≠ c → Killed w k) ∧ ∃ before, w.com1 ++ rest = before ++ message c code := by
    intro c hc code rest hpc
    have hhalts := hh.halts c hc
    unfold Halts at hhalts
    rw [hpc] at hhalts
    exact hhalts
  refine ⟨hprint, fun hoff => ?_, hh.someone⟩
  obtain ⟨c, hc, code, hpc⟩ := hh.off hoff
  obtain ⟨hall, before, hcom⟩ := hprint c hc code [] hpc
  exact ⟨c, hc, hall, code, before, by rw [← hcom, List.append_nil]⟩

/-- Both processors halt, and the second one is the faster. -/
def race : List (Nat × Act) :=
  [(0, .mpe_init 0x100000)] ++ List.replicate 7 (0, .go) ++ List.replicate 6 (1, .go) ++
    [(0, .go), (0, .go), (0, .go), (0, .putch 'a'), (0, .halt 1), (1, .halt 2), (0, .go)] ++
    List.replicate 26 (1, .go)

theorem halt_alone_race :
    ((run 2 start race).get (by decide)).off = true ∧
      (((run 2 start race).get (by decide)).off = true → ∃ c < 2,
        (∀ k < 2, k ≠ c → Killed ((run 2 start race).get (by decide)) k) ∧
          ∃ code before, ((run 2 start race).get (by decide)).com1 = before ++ message c code) :=
  ⟨by decide, (halt_alone ⟨race, (Option.some_get _).symm⟩).2.1⟩

end Am.X86.Mpe
