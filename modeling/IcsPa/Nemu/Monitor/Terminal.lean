import IcsPa.Nemu.Monitor.Watched

/-! # The end of the guest

    An iteration of `cpu_exec` writes `nemu_state` in up to four places, one
    after the other: `rtl_exit`, `checkregs`, the watchpoint check and
    `device_update`.  The last two write without looking, so they can undo
    the end of the guest; `Undisturbed` says that nothing does.

    From an ended state that has survived its iteration, no step of the
    monitor leads out (`Halted.step`). -/

open CCall

namespace Nemu.Monitor

open Watchpoint Difftest

section terminal
variable {M V R Q : Type} (T : Target M V R Q)

/-! ## Section 1: One iteration -/

/-- The `pc` that a failing register check of the iteration records. -/
def failing (s : Mon M V Q) (x : Executed M V) : Option Nat :=
  let i := instr T s x
  if T.DIFF_TEST then failing_check T.ref i.cpu i.this_pc i.next_pc (s.driver.calls T.ref i)
  else none

/-- The record with which the iteration ends the guest: the arguments of
    `rtl_exit(NEMU_END or NEMU_ABORT, ..)`, or else what a failing register
    check leaves. -/
def ending (s : Mon M V Q) (x : Executed M V) : Option NEMUState :=
  match x.rtl_exit.filter ended with
  | some st => some st
  | none => (failing T s x).map fun pc => after_check (instr T s x).nemu_state (some pc)

/-- Nothing in the iteration overwrites the record `r`. -/
structure Undisturbed (s : Mon M V Q) (x : Executed M V) (r : NEMUState) : Prop where
  /-- If the register check fails too, it records the same. -/
  check : ∀ pc, failing T s x = some pc → r.state = .NEMU_ABORT ∧ r.halt_pc = pc
  /-- No watched value has changed. -/
  watch : ¬ WatchHit (guest T x.machine) s.pool
  /-- The window is not closed. -/
  quit  : T.HAS_IOE = true → (T.device_update r.state x.devices).2 = false

variable {T}

theorem ended_iff {st : NEMUState} :
    ended st = true ↔ st.state = .NEMU_END ∨ st.state = .NEMU_ABORT := by
  simp [ended]

theorem ending_ended {s : Mon M V Q} {x : Executed M V} {r : NEMUState}
    (h : ending T s x = some r) : ended r = true := by
  unfold ending at h
  cases hx : x.rtl_exit.filter ended with
  | some st =>
    rw [hx] at h
    cases h
    exact (Option.filter_eq_some_iff.mp hx).2
  | none =>
    rw [hx] at h
    obtain ⟨pc, -, rfl⟩ := Option.map_eq_some_iff.mp h
    rfl

/-- `nemu_state` after the instruction and its register check. -/
theorem exec_once_nemu_state {s s₁ : Mon M V Q} (h : exec_once T s = .ok s₁) :
    ∃ x, T.isa_exec_once s.machine s.devices = .ok x ∧
      s₁.machine = x.machine ∧ s₁.devices = x.devices ∧
      s₁.nemu_state = after_check (instr T s x).nemu_state (failing T s x) := by
  obtain ⟨x, hx, h⟩ := bind_eq_ok h
  obtain ⟨driver, hd, h⟩ := bind_eq_ok h
  cases h
  refine ⟨x, hx, rfl, rfl, ?_⟩
  show driver.nemu_state = _
  unfold difftest at hd
  unfold failing
  split at hd
  · rename_i hdiff
    simp only [hdiff, if_true]
    exact difftest_step_nemu_state hd
  · rename_i hdiff
    cases hd
    simp [hdiff, after_check]

/-- The record is what the register check leaves, unless the check fails
    after `rtl_exit` with other values. -/
theorem after_check_eq_ending {s : Mon M V Q} {x : Executed M V} {r : NEMUState}
    (h : ending T s x = some r) :
    after_check (instr T s x).nemu_state (failing T s x) = r ↔
      ∀ pc, failing T s x = some pc → r.state = .NEMU_ABORT ∧ r.halt_pc = pc := by
  unfold ending at h
  cases hx : x.rtl_exit.filter ended with
  | some st =>
    rw [hx] at h
    cases h
    have hexit : x.rtl_exit = some r := (Option.filter_eq_some_iff.mp hx).1
    have hst : (instr T s x).nemu_state = r := by simp [instr, hexit]
    rw [hst]
    cases failing T s x with
    | none => simp [after_check]
    | some pc =>
      obtain ⟨state, halt_pc, halt_ret⟩ := r
      simp [after_check, eq_comm]
  | none =>
    rw [hx] at h
    obtain ⟨pc, hfail, rfl⟩ := Option.map_eq_some_iff.mp h
    rw [hfail]
    simp [after_check]

/-- The watchpoint check keeps `nemu_state` or stops the guest. -/
theorem watch_nemu_state {s s' : Mon M V Q} {active free : List Nat}
    (hinv : WpInv s.pool active free) (h : watch T s = .ok s') :
    s'.devices = s.devices ∧
    (WatchHit (guest T s.machine) s.pool → s'.nemu_state.state = .NEMU_STOP) ∧
    (¬ WatchHit (guest T s.machine) s.pool → s'.nemu_state = s.nemu_state) := by
  obtain ⟨⟨pool, changed⟩, hcheck, h⟩ := bind_eq_ok h
  obtain ⟨-, -, hhit⟩ := check_wp_changed_spec hinv hcheck
  rw [← hhit]
  cases changed with
  | false => cases h; exact ⟨rfl, by simp, fun _ => rfl⟩
  | true => cases h; exact ⟨rfl, fun _ => rfl, by simp⟩

/-- `device_update` keeps `nemu_state` or quits. -/
theorem update_nemu_state (s : Mon M V Q) :
    (update T s).nemu_state =
      if T.HAS_IOE = true ∧ (T.device_update s.nemu_state.state s.devices).2 = true then
        { s.nemu_state with state := .NEMU_QUIT }
      else s.nemu_state := by
  unfold update
  cases T.HAS_IOE with
  | false => simp
  | true =>
    simp only [if_true, true_and]
    split
    · rfl
    · rfl

/-- Step lemma: an iteration that ends the guest leaves its record if and only
    if nothing in it overwrites the record. -/
theorem iteration_ending_iff {s s' : Mon M V Q} {x : Executed M V} {r : NEMUState}
    {active free : List Nat} (hinv : WpInv s.pool active free)
    (hx : T.isa_exec_once s.machine s.devices = .ok x) (hr : ending T s x = some r)
    (h : iteration T s = .ok s') : s'.nemu_state = r ↔ Undisturbed T s x r := by
  -- Execution, watchpoints and devices, each with what it does to the state.
  obtain ⟨s₁, s₂, hexec, hwatch, rfl⟩ := iteration_cases h
  have hpool := exec_once_pool hexec
  obtain ⟨x', hx', hm, hdev, hst⟩ := exec_once_nemu_state hexec
  rw [hx] at hx'
  cases hx'
  obtain ⟨hdev₂, hhit, hmiss⟩ := watch_nemu_state (by rw [hpool]; exact hinv) hwatch
  rw [hm, hpool] at hhit hmiss
  rw [hdev] at hdev₂
  have hended := ended_iff.mp (ending_ended hr)
  rw [update_nemu_state, hdev₂]
  constructor
  · intro heq
    -- A quit would have replaced the ending.
    have hquit : ¬ (T.HAS_IOE = true ∧
        (T.device_update s₂.nemu_state.state x.devices).2 = true) := by
      intro hq
      rw [if_pos hq] at heq
      rw [← heq] at hended
      simp at hended
    rw [if_neg hquit] at heq
    -- A watchpoint would have put a stop in its place.
    have hno : ¬ WatchHit (guest T x.machine) s.pool := by
      intro hw
      rw [← heq, hhit hw] at hended
      simp at hended
    rw [hmiss hno, hst] at heq
    refine ⟨(after_check_eq_ending hr).mp heq, hno, fun hioe => ?_⟩
    rw [hmiss hno, hst, heq] at hquit
    simpa [hioe] using hquit
  · intro hu
    have heq : s₂.nemu_state = r := by
      rw [hmiss hu.watch, hst]
      exact (after_check_eq_ending hr).mpr hu.check
    rw [heq, if_neg]
    rintro ⟨hioe, hq⟩
    rw [hu.quit hioe] at hq
    cases hq

/-! ## Section 2: After the end -/

/-- The guest has ended with the record `r` and the loop of `cpu_exec` is
    being left, if it is running. -/
structure Halted (r : NEMUState) (c : Conf M V Q) : Prop where
  record : c.mon.nemu_state = r
  ended  : ended r = true
  out    : ∀ n i s, c = .running n i s → n = 0

theorem cmd_w_nemu_state {args : Option (List Char)} {s s' : Mon M V Q} {rc : Rc}
    (h : cmd_w T args s = .ok (rc, s')) : s'.nemu_state = s.nemu_state := by
  obtain ⟨pool, rfl⟩ := cmd_w_frame T h
  rfl

theorem cmd_d_nemu_state {args : List (List Char)} {s s' : Mon M V Q} {rc : Rc}
    (h : cmd_d args s = .ok (rc, s')) : s'.nemu_state = s.nemu_state := by
  obtain ⟨pool, rfl⟩ := cmd_d_frame h
  rfl

theorem clear_nemu_state (s : Mon M V Q) : (clear T s).nemu_state = s.nemu_state := by
  unfold clear
  split <;> rfl

/-- Leaving `cpu_exec` keeps an ended state. -/
theorem leave_nemu_state {i : Nat} {s : Mon M V Q} (h : ended s.nemu_state = true) :
    (leave T i s).nemu_state = s.nemu_state := by
  have hne : s.nemu_state.state ≠ .NEMU_RUNNING := by
    rcases ended_iff.mp h with hst | hst <;> simp [hst]
  have hcharge : (charge T i s).nemu_state = s.nemu_state := by
    unfold Mon.nemu_state
    rw [(charge_frame T i s).2.2.2]
  unfold leave
  dsimp only
  rw [if_neg (by rw [hcharge]; exact hne), hcharge]

theorem Halted.next_command {r : NEMUState} {rc : Rc} {s : Mon M V Q} (hs : s.nemu_state = r)
    (hr : Monitor.ended r = true) : Halted r (next_command (rc, s)) := by
  unfold Monitor.next_command
  split
  · exact ⟨hs, hr, by simp⟩
  · exact ⟨hs, hr, by simp⟩

/-- Once the guest has ended, no step executes an instruction or changes the
    record. -/
theorem Halted.step {r : NEMUState} {c c' : Conf M V Q} {l : Label} (hc : Halted r c)
    (h : step T l c = .ok (some c')) : Halted r c' ∧ l ≠ .iteration := by
  obtain ⟨hrec, hend, hout⟩ := hc
  -- The record of the ending survives the clearing before each command.
  have hclear : ∀ s : Mon M V Q, s.nemu_state = r → (clear T s).nemu_state = r := fun s hs =>
    (clear_nemu_state s).trans hs
  cases step_cases T h with
  | refused => exact ⟨⟨hclear _ hrec, hend, by simp⟩, by simp⟩
  | @entered n s hrunning =>
    rw [hclear s hrec, hend] at hrunning
    cases hrunning
  | iterated hiter =>
    -- No turn is left of a run that has ended.
    have hzero := hout _ _ _ rfl
    cases hzero
  | @left timer_start s =>
    have hs : s.nemu_state = r := hrec
    refine ⟨⟨?_, hend, by simp⟩, by simp⟩
    exact (leave_nemu_state (by rw [hs]; exact hend)).trans hs
  | watch hcmd =>
    exact ⟨Halted.next_command ((cmd_w_nemu_state hcmd).trans (hclear _ hrec)) hend, by simp⟩
  | delete hcmd =>
    exact ⟨Halted.next_command ((cmd_d_nemu_state hcmd).trans (hclear _ hrec)) hend, by simp⟩
  | quit => exact ⟨⟨hclear _ hrec, hend, by simp⟩, by simp⟩

/-- Run lemma. -/
theorem Halted.run {r : NEMUState} {c : Conf M V Q} {run : List (Label × Conf M V Q)}
    (hc : Halted r c) (hrun : Run T c run) :
    ∀ y ∈ run, y.2.mon.nemu_state = r ∧ y.1 ≠ .iteration := by
  induction hrun with
  | nil c => simp
  | cons h hrun ih =>
    obtain ⟨hc', hl⟩ := hc.step h
    intro y hy
    rcases List.mem_cons.mp hy with rfl | hy
    · exact ⟨hc'.record, hl⟩
    · exact ih hc' y hy

/-! ## Section 3: Runs -/

variable (T)

/-- The record with which the next iteration ends the guest, if it does. -/
def ends_with (c : Conf M V Q) : Option NEMUState :=
  match c with
  | .running (_ + 1) _ s =>
      match T.isa_exec_once s.machine s.devices with
      | .ok x => ending T s x
      | .error _ => none
  | _ => none

/-- Whenever an iteration of the run ends the guest, its record stays in
    `nemu_state` to the end of the run, and no other iteration follows. -/
def StaysEnded : Conf M V Q → List (Label × Conf M V Q) → Prop
  | _, [] => True
  | c, (l, c') :: run =>
      (l = .iteration → ∀ r ∈ ends_with T c, c'.mon.nemu_state = r ∧
        ∀ y ∈ run, y.2.mon.nemu_state = r ∧ y.1 ≠ .iteration) ∧
      StaysEnded c' run

/-- No iteration of the run that ends the guest overwrites its record. -/
def EndsUndisturbed : Conf M V Q → List (Label × Conf M V Q) → Prop
  | _, [] => True
  | c, (l, c') :: run =>
      (l = .iteration → ∀ n i s x r, c = .running (n + 1) i s →
        T.isa_exec_once s.machine s.devices = .ok x → ending T s x = some r →
        Undisturbed T s x r) ∧
      EndsUndisturbed c' run

instance decidableStaysEnded : ∀ (c : Conf M V Q) (run : List (Label × Conf M V Q)),
    Decidable (StaysEnded T c run)
  | _, [] => inferInstanceAs (Decidable True)
  | _, (_, c') :: run =>
      have := decidableStaysEnded c' run
      inferInstanceAs (Decidable (_ ∧ _))

variable {T}

theorem ends_with_iff {c : Conf M V Q} {r : NEMUState} :
    r ∈ ends_with T c ↔ ∃ n i s x, c = .running (n + 1) i s ∧
      T.isa_exec_once s.machine s.devices = .ok x ∧ ending T s x = some r := by
  constructor
  · intro h
    cases c with
    | running n i s =>
      cases n with
      | zero => cases h
      | succ n =>
        cases hx : T.isa_exec_once s.machine s.devices with
        | error e => simp [ends_with, hx] at h
        | ok x => exact ⟨n, i, s, x, rfl, hx, by simpa [ends_with, hx] using h⟩
    | prompt => cases h
    | returned => cases h
  · rintro ⟨n, i, s, x, rfl, hx, hr⟩
    simpa [ends_with, hx] using hr

/-- The step lemma in a configuration: if the record is left, the loop is
    left too. -/
theorem step_ending {n i : Nat} {s : Mon M V Q} {c' : Conf M V Q} {x : Executed M V}
    {r : NEMUState} (hc : Watched T s) (hx : T.isa_exec_once s.machine s.devices = .ok x)
    (hr : ending T s x = some r) (h : step T .iteration (.running (n + 1) i s) = .ok (some c')) :
    (c'.mon.nemu_state = r ↔ Undisturbed T s x r) ∧
      (c'.mon.nemu_state = r → Halted r c') := by
  obtain ⟨active, free, hinv, -⟩ := hc
  obtain ⟨s', hiter, h⟩ := bind_eq_ok h
  cases h
  have hended := ending_ended hr
  refine ⟨iteration_ending_iff hinv hx hr hiter, fun hrec => ⟨hrec, hended, ?_⟩⟩
  -- An ended state is not `NEMU_RUNNING`, so `break` is reached.
  intro n' i' s'' heq
  have hne : s'.nemu_state.state ≠ .NEMU_RUNNING := by
    rw [show s'.nemu_state = r from hrec]
    rcases ended_iff.mp hended with hst | hst <;> simp [hst]
  rw [if_pos hne] at heq
  cases heq
  rfl

/-- Run lemma, from any configuration that keeps the invariant. -/
theorem run_staysEnded_iff {c : Conf M V Q} {run : List (Label × Conf M V Q)}
    (hc : c.Watched T) (hrun : Run T c run) : StaysEnded T c run ↔ EndsUndisturbed T c run := by
  induction hrun with
  | nil c => exact Iff.rfl
  | cons h hrun ih =>
    refine and_congr ?_ (ih (step_watched hc h))
    constructor
    · rintro hstay rfl n i s x r rfl hx hr
      have hend := ends_with_iff.mpr ⟨n, i, s, x, rfl, hx, hr⟩
      exact (step_ending hc hx hr h).1.mp (hstay rfl r hend).1
    · rintro hund rfl r hend
      obtain ⟨n, i, s, x, rfl, hx, hr⟩ := ends_with_iff.mp hend
      obtain ⟨hiff, hhalt⟩ := step_ending hc hx hr h
      have hrec := hiff.mpr (hund rfl n i s x r rfl hx hr)
      exact ⟨hrec, (hhalt hrec).run hrun⟩

/-- In a run of the monitor the end of the guest is final, with its record, if
    and only if no iteration that ends the guest overwrites the record: by a
    register check that fails with other values, a watchpoint, or a closed
    window. -/
theorem end_is_final_iff {m : M} {v : V} {ref : Q} {run : List (Label × Conf M V Q)}
    (h : Run T (.prompt (init m v ref)) run) :
    StaysEnded T (.prompt (init m v ref)) run ↔ EndsUndisturbed T (.prompt (init m v ref)) run :=
  run_staysEnded_iff (init_watched m v ref) h

end terminal

/-! ### A trap under a watchpoint -/

/-- x86 at its trap instructions: each takes one byte and ends the guest. -/
def traps : Target Nat Unit Nat Nat where
  isa := .x86
  DIFF_TEST := false
  HAS_IOE := false
  pc pc := pc
  cpu pc := pc
  pmem _ _ := 0
  isa_reg_str2val pc name := if name = ['p', 'c'] then some pc else none
  isa_exec_once pc _ := .ok ⟨pc + 1, (), some ⟨.NEMU_END, pc, 0⟩, [.skip_ref]⟩
  ref := pcRef
  device_update _ _ := ((), false)
  sdl_clear_event_queue _ := ()
  gettimeofday _ := (0, 0)

/-- A session that watches `$pc` and continues twice. -/
def watch_pc : List Label :=
  [.cmd_w (some ['$', 'p', 'c']), .cpu_exec 5, .iteration, .leave, .cpu_exec 5, .iteration]

/-- Without watchpoints the trap is the end. -/
theorem end_is_final_unwatched :
    let run := (play traps (.prompt (init 100 () 0))
      [.cpu_exec 5, .iteration, .leave, .cpu_exec 5]).getD []
    run.length = 4 ∧ (StaysEnded traps (.prompt (init 100 () 0)) run ↔
      EndsUndisturbed traps (.prompt (init 100 () 0)) run) :=
  ⟨by decide +kernel, end_is_final_iff (play_run traps (by decide +kernel))⟩

/-- The trap changes a watched value, and the guest runs on. -/
theorem watched_trap_runs_on :
    ∃ run, Run traps (.prompt (init 100 () 0)) run ∧
      ¬ StaysEnded traps (.prompt (init 100 () 0)) run :=
  ⟨(play traps (.prompt (init 100 () 0)) watch_pc).getD [], play_run traps (by decide +kernel),
    by decide +kernel⟩

end Nemu.Monitor
