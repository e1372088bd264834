import IcsPa.Am.Native.Cte.Spaces

/-! # A context is resumed as it was

    Whatever other contexts are saved, made and resumed in between, as long as
    nobody writes to its object: a context goes on with the registers, the
    blocked signals, the kernel stack and the address space that it had.  That
    holds of an interrupted context and of a new one. -/

open CCall

set_option linter.style.nameCheck false

namespace Am.Native.Cte

section runs
variable {ρ A : Type} [DecidableEq A] (E : Env ρ)

/-! ## Section 1: Runs that spare a context -/

/-- The objects at `a` and `c` do not meet. -/
def Apart (a c : Nat) : Prop := a + E.size ≤ c ∨ c + E.size ≤ a

/-- A step that leaves the context at `c` alone: code writes elsewhere, the stack
    of an interrupt has room below `c` or ends there, and a new context is made
    on another stack. -/
def Spares (c : Nat) (s : Cpu ρ A) : Step ρ A → Prop
  | .compute _ write => write s.mem c = s.mem c
  | .signal sig .. => blocked sig s = false →
      Room E s ∧ (c + E.size + sizeof_Context E + 8 ≤ base s ∨ base s ≤ c)
  | .resume _ | .vme_init | .vme _ => True
  | .kcontext kstack_end .. | .ucontext _ kstack_end _ =>
      Apart E c (sub64 kstack_end (sizeof_Context E))

/-- All steps of a run do. -/
def SparesAll (c : Nat) : List (Step ρ A) → Cpu ρ A → Prop
  | [], _ => True
  | x :: xs, s => Spares E c s x ∧ ∀ s', step E s x = .ok s' → SparesAll c xs s'

variable {E} {c : Nat} {s s' : Cpu ρ A}

/-- Step lemma. -/
theorem step_spares (hsize : 0 < E.size) {x : Step ρ A} (hspare : Spares E c s x)
    (h : step E s x = .ok s') : s'.mem c = s.mem c := by
  cases x with
  | compute uc write =>
    cases h
    exact hspare
  | signal sig si_code si_addr =>
    rcases signal_cases h with ⟨hsame, -⟩ | ⟨hb, ev, rfl⟩
    · rw [hsame]
    · obtain ⟨⟨hlo, hhi⟩, hplace⟩ := hspare hb
      obtain ⟨hbelow, habove⟩ := frame_bounds (Nat.le_of_lt hlo) hhi
      refine put_apart hsize ?_ _ _
      rcases hplace with hunder | hover
      · exact .inl (by omega)
      · refine .inr (Nat.le_trans ?_ hover)
        unfold sizeof_Context at hbelow
        omega
  | resume c' =>
    obtain ⟨-, -, h⟩ := bind_eq_ok h
    cases hmem : s.mem c' with
    | none =>
      rw [hmem] at h
      cases h
    | some ctx =>
      rw [hmem] at h
      obtain ⟨vme, -, h⟩ := bind_eq_ok h
      simp [sig_handler, event_of, iret, hmem] at h
      rw [← h]
  | vme_init =>
    cases h
    rfl
  | vme call =>
    simp only [step] at h
    split at h
    · obtain ⟨vme, -, h⟩ := bind_eq_ok h
      cases h
      rfl
    · cases h
  | kcontext kstack_end entry arg =>
    cases h
    exact put_apart hsize hspare _ _
  | ucontext as kstack_end entry =>
    cases h
    exact put_apart hsize hspare _ _

/-- Run lemma. -/
theorem run_spares (hsize : 0 < E.size) {steps : List (Step ρ A)} (hspare : SparesAll E c steps s)
    (h : run E steps s = .ok s') : s'.mem c = s.mem c := by
  induction steps generalizing s with
  | nil =>
    cases h
    rfl
  | cons x xs ih =>
    unfold run at h
    rw [List.foldlM_cons] at h
    obtain ⟨s₁, hx, h⟩ := bind_eq_ok h
    exact (ih (hspare.2 s₁ hx) h).trans (step_spares hsize hspare.1 hx)

/-- A context that is spared can be gone on with as it was. -/
theorem resumed (hsize : 0 < E.size) (hhost : Maps E.P) {ctx : Context ρ} (hc : 0 < c)
    (hmem : s.mem c = some ctx) {steps : List (Step ρ A)} {u : Cpu ρ A} {m : Spaces A}
    (hspare : SparesAll E c steps s) (hrun : run E steps s = .ok u) (hu : Reachable E m u) :
    ∃ s', step E u (.resume c) = .ok s' ∧ Resumed ctx u s' :=
  leave_ok hhost hu hc ((run_spares hsize hspare hrun).trans hmem)

/-- Address spaces stay in use. -/
theorem step_enable {x : Step ρ A} (h : step E s x = .ok s') (hen : s.vme.vme_enable = true) :
    s'.vme.vme_enable = true := by
  cases x with
  | compute uc write =>
    cases h
    exact hen
  | signal sig si_code si_addr =>
    rcases signal_cases h with ⟨-, hvme⟩ | ⟨-, ev, rfl⟩
    · rw [hvme]
      exact hen
    · exact hen
  | resume c' =>
    cases hmem : s.mem c' with
    | none =>
      obtain ⟨-, -, h⟩ := bind_eq_ok h
      rw [hmem] at h
      cases h
    | some ctx => exact (leave_eq hmem h).enable.trans hen
  | vme_init =>
    cases h
    rfl
  | vme call =>
    simp only [step, if_pos hen] at h
    obtain ⟨vme, hcall, h⟩ := bind_eq_ok h
    cases h
    exact (call_enable hcall).trans hen
  | kcontext kstack_end entry arg =>
    cases h
    exact hen
  | ucontext as kstack_end entry =>
    cases h
    exact hen

theorem run_enable {steps : List (Step ρ A)} (h : run E steps s = .ok s')
    (hen : s.vme.vme_enable = true) : s'.vme.vme_enable = true :=
  foldlM_ok (P := fun _ t => t.vme.vme_enable = true)
    (fun _ _ _ _ _ _ ht hx => step_enable hx ht) hen h

/-! ## Section 2: Traps -/

/-- When a signal is taken, `user_handler` is called with its event, with
    interrupts blocked and an aligned stack, and the interrupted context is below
    the red zone of the stack that is used.  Whenever that context is chosen
    again, after whatever steps that spare it and map no page again, the choice
    returns and the code goes on with its registers (behind the instruction, if it
    was a trap), its blocked signals, its kernel stack and its address space. -/
theorem trap_resumes (E : Env ρ) (hsize : 0 < E.size) (hhost : Maps E.P) {s : Cpu ρ A} {sig : Sig}
    {si_code : SegvCode} {si_addr : Nat} {ev : Event} (hb : blocked sig s = false)
    (hev : event_of sig si_code si_addr s = .ok (some ev)) (hsafe : ¬ Refused E ev s)
    (hroom : Room E s) :
    ∃ t c, signal E sig si_code si_addr s = .ok t ∧
      t.ev = ev ∧ t.uc.rip = E.irq_handle ∧ t.uc.rdi = c ∧ t.uc.rsp = c ∧
      t.uc.sigmask = intr_sigmask ∧
      c + E.size ≤ base s - 128 ∧ (base s % 8 = 0 → E.size % 8 = 0 → (c + 8) % 16 = 0) ∧
      ∀ steps u m, SparesAll E c steps t → run E steps t = .ok u → Reachable E m u →
        ∃ s', step E u (.resume c) = .ok s' ∧
          s'.uc = { s.uc with rip := next_rip ev.event s.uc.rip } ∧ s'.ksp = s.ksp ∧
          (u.vme.vme_enable = true → s'.vme.vm_head = s.vme.vm_head) := by
  obtain ⟨hlo, hhi⟩ := hroom
  have hbounds := frame_bounds (Nat.le_of_lt hlo) hhi
  have hc : 0 < frame E (base s) := by omega
  refine ⟨trapped E ev s, frame E (base s), signal_traps hb hev hsafe, rfl, ?_, ?_, ?_, ?_, ?_,
    frame_aligned (Nat.le_of_lt hlo) hhi, ?_⟩
  · rw [trapped_uc]
  · rw [trapped_uc]
  · rw [trapped_uc]
  · rw [trapped_uc]
  · unfold sizeof_Context at hbounds
    omega
  · intro steps u m hspare hrun hu
    obtain ⟨s', hstep, hres⟩ := resumed hsize hhost hc (trapped_mem ev s) hspare hrun hu
    exact ⟨s', hstep, hres.uc, hres.ksp, hres.head⟩

/-- A host with the code of the program at 0x400000. -/
def small_env : Env Unit where
  P := ⟨4096, fun _ _ _ => true⟩
  text := ⟨0x400000, 0x500000⟩
  sigprocmask := 0x7f0000
  irq_handle := 0x400800
  kcontext_start := 0x400900
  uc_example := ⟨0, 0, 0, 0, 0, (), intr_sigmask⟩
  size := 984

/-- The registers of a kernel that is about to yield. -/
def kernel_uc : Ucontext Unit := ⟨0x400100, 0x90000, 1, 2, 3, (), ⟨false, false⟩⟩

/-- It has made an address space with a page. -/
def one_space : List (Step Unit Nat) :=
  [.vme_init, .vme (.protect 0), .vme (.map 0 0x40000000 0x1000000 MMAP_READ)]

/-- And a context for it. -/
def prepare : List (Step Unit Nat) :=
  one_space ++ [.ucontext 0 0x80000 0x40000000, .compute kernel_uc id]

/-- The context of the user runs until the timer interrupts it, and a new context
    of the kernel is made. -/
def others : List (Step Unit Nat) :=
  [.resume 0x7fba8, .signal .vtalrm .other 0, .kcontext 0x70000 0x400200 5]

set_option maxRecDepth 20000 in
theorem trap_resumes_yield :
    ∃ (s t u s' : Cpu Unit Nat) (c : Nat), run small_env prepare (boot kernel_uc) = .ok s ∧
      signal small_env .segv .accerr 0x100008 s = .ok t ∧ t.ev = ⟨.yield, 0, 0⟩ ∧
      run small_env others t = .ok u ∧ u.ev = ⟨.irq_timer, 0, 0⟩ ∧ u.vme.vm_head = some 0 ∧
      step small_env u (.resume c) = .ok s' ∧
      s'.uc = ⟨0x400107, 0x90000, 1, 2, 3, (), ⟨false, false⟩⟩ ∧ s'.vme.vm_head = none := by
  obtain ⟨s, hs⟩ : ∃ s, run small_env prepare (boot (A := Nat) kernel_uc) = .ok s := ⟨_, rfl⟩
  have hproper : ProperAll small_env (fun _ => none)
      (prepare ++ .signal .segv .accerr 0x100008 :: others) (boot kernel_uc) := by
    refine ⟨trivial, fun _ _ => ⟨id, fun _ _ => ⟨?_, fun _ _ => ⟨trivial, fun _ _ => ⟨?_,
      fun _ _ => ⟨trivial, fun _ _ => ⟨trivial, fun _ _ => ⟨trivial, fun _ _ => ⟨trivial,
        fun _ _ => trivial⟩⟩⟩⟩⟩⟩⟩⟩⟩
    · rintro ⟨pages, e, hm, hva⟩
      cases hm
      cases hva
    · exact fun a ctx hmem => .inr ⟨a, ctx, hmem, rfl⟩
  have htaken : blocked .segv s = false ∧ ¬ Refused small_env ⟨.yield, 0, 0⟩ s ∧ Room small_env s ∧
      event_of .segv .accerr 0x100008 s = .ok (some ⟨.yield, 0, 0⟩) := by
    cases hs
    exact ⟨rfl, by simp [Refused], ⟨by decide, by decide⟩, rfl⟩
  obtain ⟨t, c, hsignal, hev, -, hc, -, -, -, -, hback⟩ :=
    trap_resumes small_env (by decide) (fun _ _ _ => rfl) htaken.1 htaken.2.2.2 htaken.2.1
      htaken.2.2.1
  have hspare : SparesAll small_env c others t := by
    cases hs
    cases hsignal
    cases hc
    refine ⟨trivial, fun u hu => ⟨fun _ => ?_, fun _ _ => ⟨?_, fun _ _ => trivial⟩⟩⟩
    · cases hu
      exact ⟨⟨by decide, by decide⟩, .inr (by decide)⟩
    · exact .inr (by decide)
  obtain ⟨u, hu⟩ : ∃ u, run small_env others t = .ok u ∧ u.ev = ⟨.irq_timer, 0, 0⟩ ∧
      u.vme.vm_head = some 0 := by
    cases hs
    cases hsignal
    exact ⟨_, rfl, rfl, rfl⟩
  have hrun : run small_env (prepare ++ .signal .segv .accerr 0x100008 :: others) (boot kernel_uc) =
      .ok u := by
    unfold run at hs hu ⊢
    rw [List.foldlM_append, hs, ok_bind, List.foldlM_cons]
    simp [step, hsignal, hu.1]
  obtain ⟨s', hstep, huc, -, hhead⟩ :=
    hback others u _ hspare hu.1 ((Reachable.boot kernel_uc).run hproper hrun)
  refine ⟨s, t, u, s', c, hs, hsignal, hev, hu.1, hu.2.1, hu.2.2, hstep, ?_, ?_⟩
  · cases hs
    exact huc
  · cases hs
    cases hsignal
    have hen : u.vme.vme_enable = true := run_enable hu.1 rfl
    exact hhead hen

/-! ## Section 3: New contexts -/

omit [DecidableEq A] in
theorem kcontext_mem (kstack_end entry arg : Nat) (s : Cpu ρ A) :
    ∃ ksp, (kcontext E kstack_end entry arg s).2.mem (kcontext E kstack_end entry arg s).1 = some
      { ksp, vm_head := none
        uc := { E.uc_example with
          rip := E.kcontext_start, rsp := kstack_end, sigmask := ⟨false, false⟩
          rdi := arg, rsi := entry } } := by
  unfold kcontext
  dsimp only
  rw [put_self]
  exact ⟨_, rfl⟩

omit [DecidableEq A] in
theorem ucontext_mem (as : A) (kstack_end entry : Nat) (s : Cpu ρ A) :
    (ucontext E as kstack_end entry s).2.mem (ucontext E as kstack_end entry s).1 = some
      { ksp := kstack_end, vm_head := (s.vme.space as).ptr
        uc := { E.uc_example with
          rip := entry, rsp := USER_SPACE.end_, sigmask := ⟨false, false⟩ } } := by
  unfold ucontext
  dsimp only
  rw [put_self]

omit [DecidableEq A] in
/-- The stack pointer with which the entry of a kernel context starts. -/
theorem kcontext_start_rsp (hlo : sizeof_Context E ≤ s.uc.rsp) (hhi : s.uc.rsp < 2 ^ 64) :
    ((__am_kcontext_start E s).uc.rsp + 8) % 16 = 0 ∧
      (__am_kcontext_start E s).uc.rsp + 8 ≤ s.uc.rsp ∧
      s.uc.rsp < (__am_kcontext_start E s).uc.rsp + 24 := by
  have hmask : s.uc.rsp &&& 0xfffffffffffffff0 = s.uc.rsp / 2 ^ 4 % 2 ^ 60 * 2 ^ 4 :=
    BitCount.and_mask s.uc.rsp 60 4
  unfold sizeof_Context at hlo
  unfold __am_kcontext_start
  dsimp only
  rw [hmask, sub64_eq (by omega) (by omega)]
  omega

/-- The code of a user goes on: it computes, or a trap is taken from it, and after
    a run that spares its context it is chosen again. -/
inductive UserRuns (E : Env ρ) (s : Cpu ρ A) : Cpu ρ A → Prop
  | start : UserRuns E s s
  | compute {s' : Cpu ρ A} (uc : Ucontext ρ)
      (write : (Nat → Option (Context ρ)) → Nat → Option (Context ρ)) : UserRuns E s s' →
      UserRuns E s { s' with uc, mem := write s'.mem }
  | trap {s' t u s'' : Cpu ρ A} {sig : Sig} {si_code : SegvCode} {si_addr : Nat} {ev : Event}
      {steps : List (Step ρ A)} : UserRuns E s s' → USER_SPACE.IN_RANGE s'.uc.rip = true →
      blocked sig s' = false → event_of sig si_code si_addr s' = .ok (some ev) →
      signal E sig si_code si_addr s' = .ok t → SparesAll E t.uc.rdi steps t →
      run E steps t = .ok u → step E u (.resume t.uc.rdi) = .ok s'' → UserRuns E s s''

/-- The current context is one of a user, with this kernel stack. -/
structure OnStack (kstack_end head : Nat) (s : Cpu ρ A) : Prop where
  ksp    : s.ksp = kstack_end
  enable : s.vme.vme_enable = true
  head   : s.vme.vm_head = some head

omit [DecidableEq A] in
/-- A trap from user code uses the kernel stack. -/
theorem OnStack.base_eq {kstack_end head : Nat} (hs : OnStack kstack_end head s)
    (huser : USER_SPACE.IN_RANGE s.uc.rip = true) : base s = kstack_end := by
  unfold base __am_in_userspace
  rw [hs.enable, hs.head, huser]
  exact hs.ksp

omit [DecidableEq A] in
/-- A trap from user code is always safe to handle. -/
theorem OnStack.not_refused {kstack_end head : Nat} (hs : OnStack kstack_end head s)
    (huser : USER_SPACE.IN_RANGE s.uc.rip = true) (ev : Event) : ¬ Refused E ev s := by
  rintro ⟨-, hunsafe⟩
  unfold signal_safe __am_in_userspace at hunsafe
  simp [hs.enable, hs.head, huser] at hunsafe

/-- However often a user is interrupted, its kernel stack stays its own. -/
theorem user_runs_on_stack (hsize : 0 < E.size) {kstack_end head : Nat}
    (hs : OnStack kstack_end head s) (hruns : UserRuns E s s') : OnStack kstack_end head s' := by
  induction hruns with
  | start => exact hs
  | compute uc write _ ih =>
    exact ⟨ih.ksp, ih.enable, ih.head⟩
  | @trap s' t u s'' sig si_code si_addr ev steps _ huser hb hev hsig hspare hrun hstep ih =>
    rw [signal_traps hb hev (ih.not_refused huser ev)] at hsig
    cases hsig
    -- The context has the kernel stack and the address space, and comes back so.
    rw [trapped_uc] at hspare hstep
    dsimp only at hspare hstep
    have hmem := (run_spares hsize hspare hrun).trans (trapped_mem ev s')
    have hres := leave_eq hmem hstep
    have hen : u.vme.vme_enable = true := by
      apply run_enable hrun
      exact ih.enable
    exact ⟨hres.ksp.trans ih.ksp, hres.enable.trans hen, (hres.head hen).trans ih.head⟩

/-- A new context of the kernel can be gone on with in every later state, and then
    `__am_kcontext_start` calls its entry, with the argument, on an aligned stack
    and with interrupts; one of a user starts its entry in its address space, and
    however often it is interrupted, its traps use its kernel stack, wherever its
    own stack pointer is. -/
theorem context_starts (E : Env ρ) (hsize : 0 < E.size) (hhost : Maps E.P) (s : Cpu ρ A)
    {kstack_end : Nat} (hlo : sizeof_Context E + 8 < kstack_end) (hhi : kstack_end < 2 ^ 64)
    (entry arg : Nat) (as : A) :
    (∀ steps u m, SparesAll E (kcontext E kstack_end entry arg s).1 steps
        (kcontext E kstack_end entry arg s).2 →
      run E steps (kcontext E kstack_end entry arg s).2 = .ok u → Reachable E m u →
      ∃ s', step E u (.resume (kcontext E kstack_end entry arg s).1) = .ok s' ∧
        s'.uc.rip = E.kcontext_start ∧ s'.uc.sigmask = ⟨false, false⟩ ∧
        (u.vme.vme_enable = true → s'.vme.vm_head = none) ∧
        (__am_kcontext_start E s').uc.rip = entry ∧ (__am_kcontext_start E s').uc.rdi = arg ∧
        (__am_kcontext_start E s').uc.sigmask = ⟨false, false⟩ ∧
        ((__am_kcontext_start E s').uc.rsp + 8) % 16 = 0 ∧
        (__am_kcontext_start E s').uc.rsp + 8 ≤ kstack_end ∧
        kstack_end < (__am_kcontext_start E s').uc.rsp + 24) ∧
    (∀ steps u m, SparesAll E (ucontext E as kstack_end entry s).1 steps
        (ucontext E as kstack_end entry s).2 →
      run E steps (ucontext E as kstack_end entry s).2 = .ok u → Reachable E m u →
      ∃ s', step E u (.resume (ucontext E as kstack_end entry s).1) = .ok s' ∧
        s'.uc.rip = entry ∧ s'.uc.rsp = USER_SPACE.end_ ∧ s'.uc.sigmask = ⟨false, false⟩ ∧
        (u.vme.vme_enable = true → s'.vme.vm_head = (s.vme.space as).ptr) ∧
        (u.vme.vme_enable = true → (s.vme.space as).ptr.isSome = true →
          ∀ s'', UserRuns E s' s'' → USER_SPACE.IN_RANGE s''.uc.rip = true →
          ∀ sig si_code si_addr ev, blocked sig s'' = false →
            event_of sig si_code si_addr s'' = .ok (some ev) →
            ∃ t, signal E sig si_code si_addr s'' = .ok t ∧ t.ev = ev ∧
              t.uc.rip = E.irq_handle ∧ t.uc.rdi = frame E kstack_end ∧
              t.uc.rsp = frame E kstack_end)) := by
  have hc : 0 < sub64 kstack_end (sizeof_Context E) := by
    rw [sub64_eq (by omega) hhi]
    omega
  refine ⟨fun steps u m hspare hrun hu => ?_, fun steps u m hspare hrun hu => ?_⟩
  · obtain ⟨ksp, hmem⟩ := kcontext_mem (E := E) kstack_end entry arg s
    obtain ⟨s', hstep, hres⟩ := resumed hsize hhost hc hmem hspare hrun hu
    have huc := hres.uc
    have hrsp : s'.uc.rsp = kstack_end := by rw [huc]
    obtain ⟨halign, hbelow, habove⟩ := kcontext_start_rsp (E := E) (s := s') (by omega) (by omega)
    rw [hrsp] at hbelow habove
    refine ⟨s', hstep, ?_, ?_, hres.head, ?_, ?_, ?_, halign, hbelow, habove⟩
    · rw [huc]
    · rw [huc]
    · show s'.uc.rsi = entry
      rw [huc]
    · show s'.uc.rdi = arg
      rw [huc]
    · show s'.uc.sigmask = ⟨false, false⟩
      rw [huc]
  · obtain ⟨s', hstep, hres⟩ := resumed hsize hhost hc (ucontext_mem as kstack_end entry s) hspare
      hrun hu
    have huc := hres.uc
    refine ⟨s', hstep, ?_, ?_, ?_, hres.head, fun hen hsome s'' hruns huser => ?_⟩
    · rw [huc]
    · rw [huc]
    · rw [huc]
    · obtain ⟨head, hptr⟩ := Option.isSome_iff_exists.mp hsome
      have hstart : OnStack kstack_end head s' :=
        ⟨hres.ksp, hres.enable.trans hen, (hres.head hen).trans hptr⟩
      have hon := user_runs_on_stack hsize hstart hruns
      intro sig si_code si_addr ev hb hev
      refine ⟨_, signal_traps hb hev (hon.not_refused huser ev), rfl, ?_, ?_, ?_⟩
      · rw [trapped_uc]
      · rw [trapped_uc, hon.base_eq huser]
      · rw [trapped_uc, hon.base_eq huser]

/-- The kernel yields. -/
def yields : List (Step Unit Nat) := [.compute kernel_uc id, .signal .segv .accerr 0x100008]

/-- The registers of a user. -/
def user_uc : Ucontext Unit := ⟨0x40000100, 0x50000000, 7, 0, 0, (), ⟨false, false⟩⟩

theorem one_space_proper (x : Step Unit Nat) (hx : ∀ m s, Proper m s x) :
    ProperAll small_env (fun _ => none) (one_space ++ x :: yields) (boot kernel_uc) := by
  refine ⟨trivial, fun _ _ => ⟨id, fun _ _ => ⟨?_, fun _ _ => ⟨hx _ _, fun _ _ => ⟨?_,
    fun _ _ => ⟨trivial, fun _ _ => trivial⟩⟩⟩⟩⟩⟩
  · rintro ⟨pages, e, hm, hva⟩
    cases hm
    cases hva
  · exact fun a ctx hmem => .inr ⟨a, ctx, hmem, rfl⟩

theorem yields_spares {t : Cpu Unit Nat} {c : Nat} (hc : c + 984 + 1120 ≤ 0x90000) :
    SparesAll small_env c yields t := by
  refine ⟨rfl, fun u hu => ⟨fun _ => ?_, fun _ _ => trivial⟩⟩
  cases hu
  have hbase : base { t with uc := kernel_uc } = 0x90000 :=
    if_neg (by simp [__am_in_userspace, kernel_uc, USER_SPACE, Area.IN_RANGE])
  unfold Room
  rw [id, hbase]
  exact ⟨⟨by decide, by decide⟩, .inl hc⟩

set_option maxRecDepth 20000 in
theorem context_starts_both :
    ∃ s : Cpu Unit Nat, run small_env one_space (boot kernel_uc) = .ok s ∧
      (∃ c k u s', kcontext small_env 0x70000 0x400200 5 s = (c, k) ∧
        run small_env yields k = .ok u ∧ step small_env u (.resume c) = .ok s' ∧
        (__am_kcontext_start small_env s').uc.rip = 0x400200 ∧
        (__am_kcontext_start small_env s').uc.rdi = 5) ∧
      ∃ c k u s' s'' t, ucontext small_env 0 0x70000 0x40000000 s = (c, k) ∧
        run small_env yields k = .ok u ∧ step small_env u (.resume c) = .ok s' ∧
        s'.uc.rip = 0x40000000 ∧ UserRuns small_env s' s'' ∧ s''.uc = user_uc ∧
        signal small_env .segv .accerr 0x100000 s'' = .ok t ∧ t.ev = ⟨.syscall, 0, 0⟩ ∧
        t.uc.rsp = frame small_env 0x70000 := by
  have hlo : sizeof_Context small_env + 8 < 0x70000 := by decide
  have hfar : sub64 0x70000 (sizeof_Context small_env) + 984 + 1120 ≤ 0x90000 := by decide
  obtain ⟨s, hs⟩ : ∃ s, run small_env one_space (boot (A := Nat) kernel_uc) = .ok s := ⟨_, rfl⟩
  refine ⟨s, hs, ?_, ?_⟩
  · obtain ⟨u, hu⟩ : ∃ u,
        run small_env yields (kcontext small_env 0x70000 0x400200 5 s).2 = .ok u := by
      cases hs
      exact ⟨_, rfl⟩
    have hrun : run small_env (one_space ++ .kcontext 0x70000 0x400200 5 :: yields)
        (boot kernel_uc) = .ok u := by
      unfold run at hs hu ⊢
      rw [List.foldlM_append, hs, ok_bind, List.foldlM_cons]
      simp [step, hu]
    have hreach := (Reachable.boot kernel_uc).run
      (one_space_proper (.kcontext 0x70000 0x400200 5) fun _ _ => trivial) hrun
    obtain ⟨s', hstep, -, -, -, hrip, hrdi, -⟩ := (context_starts small_env (by decide)
      (fun _ _ _ => rfl) s hlo (by decide) 0x400200 5 0).1 yields u _ (yields_spares hfar) hu
        hreach
    exact ⟨_, _, u, s', rfl, hu, hstep, hrip, hrdi⟩
  · obtain ⟨u, hu⟩ : ∃ u,
        run small_env yields (ucontext small_env 0 0x70000 0x40000000 s).2 = .ok u := by
      cases hs
      exact ⟨_, rfl⟩
    have hrun : run small_env (one_space ++ .ucontext 0 0x70000 0x40000000 :: yields)
        (boot kernel_uc) = .ok u := by
      unfold run at hs hu ⊢
      rw [List.foldlM_append, hs, ok_bind, List.foldlM_cons]
      simp [step, hu]
    have hreach := (Reachable.boot kernel_uc).run
      (one_space_proper (.ucontext 0 0x70000 0x40000000) fun _ _ => trivial) hrun
    obtain ⟨s', hstep, hrip, -, -, -, hon⟩ := (context_starts small_env (by decide)
      (fun _ _ _ => rfl) s hlo (by decide) 0x40000000 5 0).2 yields u _ (yields_spares hfar) hu
        hreach
    have hen : u.vme.vme_enable = true ∧ (s.vme.space 0).ptr.isSome = true := by
      cases hs
      cases hu
      exact ⟨rfl, rfl⟩
    -- The user computes, is interrupted by the timer, and goes on.
    have hruns : ∃ s'', UserRuns small_env s' s'' ∧ s''.uc = user_uc := by
      have hcompute : UserRuns small_env s' { s' with uc := user_uc } := .compute user_uc id .start
      cases hs
      cases hu
      cases hstep
      have hspare : ∀ c t, SparesAll small_env c [] (t : Cpu Unit Nat) := fun _ _ => trivial
      exact ⟨_, .trap hcompute rfl (show blocked .vtalrm _ = false from rfl)
        (show event_of .vtalrm .other 0 _ = .ok (some ⟨.irq_timer, 0, 0⟩) from rfl) rfl
        (hspare _ _) rfl rfl, rfl⟩
    obtain ⟨s'', hruns, huc⟩ := hruns
    have hsys : blocked .segv s'' = false ∧ USER_SPACE.IN_RANGE s''.uc.rip = true := by
      rw [huc]
      exact ⟨rfl, rfl⟩
    obtain ⟨t, hsig, hev, -, -, hrsp⟩ := hon hen.1 hen.2 s'' hruns hsys.2 .segv .accerr 0x100000
      ⟨.syscall, 0, 0⟩ hsys.1 (by simp [event_of, __am_in_userspace, USER_SPACE, Area.IN_RANGE])
    exact ⟨_, _, u, s', s'', t, rfl, hu, hstep, hrip, hruns, huc, hsig, hev, hrsp⟩

end runs

end Am.Native.Cte
