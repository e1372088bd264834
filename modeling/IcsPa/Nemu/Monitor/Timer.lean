import IcsPa.Nemu.Monitor.CpuExec

/-! # Host time spent

    `get_time` narrows the seconds to 32 bits and scales them there, so its
    values start again from 0 every 2^32 ms, while `cpu_exec` subtracts and
    adds them in 64 bits.  A run that sees the values start again charges
    `g_timer` with a difference below zero.

    The host's clock is read twice in each run of `cpu_exec`, so run `k` of a
    session has the readings `2k` and `2k + 1`. -/

open CCall

namespace Nemu.Monitor

open Watchpoint Difftest

section timer
variable {M V R Q : Type} (T : Target M V R Q)

/-! ## Section 1: The time of a session -/

/-- What `monitor_statistic` prints for the simulation frequency, after
    `instrs` instructions and `ms` milliseconds. -/
def frequency (instrs ms : Nat) : Option Nat :=
  if 0 < ms then some (to_uint64 (instrs * 1000) / ms) else none

def monitor_statistic (s : Mon M V Q) : Option Nat := frequency s.g_nr_guest_instr s.g_timer

/-- A reading of the clock, to the nearest millisecond. -/
def millis (i : Nat) : Nat := (T.gettimeofday i).1 * 1000 + ((T.gettimeofday i).2 + 500) / 1000

/-- The milliseconds of the first `k` runs. -/
def elapsed : Nat → Nat
  | 0 => 0
  | k + 1 => elapsed k + (millis T (2 * k + 1) - millis T (2 * k))

/-- The clock gives the microseconds of a second and does not go back. -/
structure HostClock : Prop where
  tv_usec : ∀ i, (T.gettimeofday i).2 < 1000000
  forward : ∀ i, (T.gettimeofday i).1 < (T.gettimeofday (i + 1)).1 ∨
    (T.gettimeofday i).1 = (T.gettimeofday (i + 1)).1 ∧
      (T.gettimeofday i).2 ≤ (T.gettimeofday (i + 1)).2

/-- After `k` runs, `g_timer` and the divisor of `monitor_statistic` are the
    time of these runs. -/
structure Exact (k : Nat) (s : Mon M V Q) : Prop where
  g_timer : s.g_timer = elapsed T k
  divisor : monitor_statistic s = frequency s.g_nr_guest_instr (elapsed T k)

/-- All along a run of a session, which starts after `k` runs of `cpu_exec`,
    the time is exact and never decreases. -/
def ExactAlong : Nat → Conf M V Q → List (Label × Conf M V Q) → Prop
  | k, c, [] => Exact T k c.mon
  | k, c, (l, c') :: run =>
      Exact T k c.mon ∧ c.mon.g_timer ≤ c'.mon.g_timer ∧
        ExactAlong (if l = .leave then k + 1 else k) c' run

/-- The runs of `cpu_exec` that a run of a session completes. -/
def completed : List (Label × Conf M V Q) → Nat
  | [] => 0
  | (l, _) :: run => (if l = .leave then 1 else 0) + completed run

/-- Run `k` ends in the period of `get_time` in which it starts, where 2^32
    periods count as none. -/
def SamePeriod (k : Nat) : Prop :=
  millis T (2 * k + 1) / 2 ^ 32 % 2 ^ 32 = millis T (2 * k) / 2 ^ 32 % 2 ^ 32

/-! ## Section 2: One reading and one charge -/

variable {T}

theorem millis_le (hclock : HostClock T) (i : Nat) : millis T i ≤ millis T (i + 1) := by
  have husec := hclock.tv_usec i
  unfold millis
  rcases hclock.forward i with hlt | ⟨heq, hle⟩
  · omega
  · rw [heq]
    omega

/-- The arithmetic of `get_time` is that of the period. -/
theorem get_time_eq (hclock : HostClock T) (i : Nat) : get_time T i = millis T i % 2 ^ 32 := by
  have husec := hclock.tv_usec i
  show to_uint32 (to_uint32 (to_uint32 (T.gettimeofday i).1 * 1000) +
    to_uint32 (to_uint32 (T.gettimeofday i).2 + 500) / 1000) = _
  unfold millis to_uint32
  omega

theorem elapsed_le_succ (k : Nat) : elapsed T k ≤ elapsed T (k + 1) := Nat.le_add_right _ _

theorem elapsed_le (k n : Nat) : elapsed T k ≤ elapsed T (k + n) := by
  induction n with
  | zero => exact Nat.le_refl _
  | succ n ih => exact Nat.le_trans ih (elapsed_le_succ (k + n))

/-- A run is charged with its time if it stays in its period. -/
theorem charge_exact_iff (hclock : HostClock T) {k : Nat} {s : Mon M V Q}
    (hread : s.clock = 2 * k + 1) (htimer : s.g_timer = elapsed T k)
    (hsmall : elapsed T k < 2 ^ 64) :
    (charge T (get_time T (2 * k)) s).g_timer = elapsed T (k + 1) ↔
      SamePeriod T k ∧ elapsed T (k + 1) < 2 ^ 64 := by
  have hforward := millis_le hclock (2 * k)
  have hstep : elapsed T (k + 1) = elapsed T k + (millis T (2 * k + 1) - millis T (2 * k)) := rfl
  unfold charge SamePeriod to_uint64
  dsimp only
  rw [hread, htimer, get_time_eq hclock, get_time_eq hclock, hstep]
  generalize millis T (2 * k) = start at hforward
  generalize millis T (2 * k + 1) = stop at hforward
  constructor
  · intro h
    omega
  · intro h
    obtain ⟨hperiod, hfit⟩ := h
    omega

/-! ## Section 3: The steps of a session -/

variable (T) in
/-- Where the clock stands after `k` runs of `cpu_exec`. -/
def Clocked (k : Nat) : Conf M V Q → Prop
  | .prompt s => s.clock = 2 * k
  | .running _ timer_start s => s.clock = 2 * k + 1 ∧ timer_start = get_time T (2 * k)
  | .returned s => s.clock = 2 * k

/-- Neither the clock nor `g_timer` is touched. -/
structure SameTime (s s' : Mon M V Q) : Prop where
  clock   : s'.clock = s.clock
  g_timer : s'.g_timer = s.g_timer

theorem clear_sameTime (s : Mon M V Q) : SameTime s (clear T s) := by
  unfold clear
  split <;> exact ⟨rfl, rfl⟩

theorem update_sameTime (s : Mon M V Q) : SameTime s (update T s) := by
  unfold update
  split
  · dsimp only
    split <;> exact ⟨rfl, rfl⟩
  · exact ⟨rfl, rfl⟩

theorem iteration_sameTime {s s' : Mon M V Q} (h : iteration T s = .ok s') : SameTime s s' := by
  obtain ⟨s₁, s₂, hexec, hwatch, rfl⟩ := iteration_cases h
  obtain ⟨x, -, hexec⟩ := bind_eq_ok hexec
  obtain ⟨driver, -, hexec⟩ := bind_eq_ok hexec
  cases hexec
  obtain ⟨⟨pool, changed⟩, -, hwatch⟩ := bind_eq_ok hwatch
  obtain ⟨hclock, htimer⟩ := update_sameTime (T := T) s₂
  cases changed with
  | false =>
    cases hwatch
    exact ⟨hclock, htimer⟩
  | true =>
    cases hwatch
    exact ⟨hclock, htimer⟩

theorem cmd_w_sameTime {args : Option (List Char)} {s s' : Mon M V Q} {rc : Rc}
    (h : cmd_w T args s = .ok (rc, s')) : SameTime s s' := by
  obtain ⟨pool, rfl⟩ := cmd_w_frame T h
  exact ⟨rfl, rfl⟩

theorem cmd_d_sameTime {args : List (List Char)} {s s' : Mon M V Q} {rc : Rc}
    (h : cmd_d args s = .ok (rc, s')) : SameTime s s' := by
  obtain ⟨pool, rfl⟩ := cmd_d_frame h
  exact ⟨rfl, rfl⟩

/-- A handler that leaves the time alone leaves its prompt clocked. -/
theorem next_command_clocked {k : Nat} {s s' : Mon M V Q} {rc : Rc} (hs : s.clock = 2 * k)
    (hcmd : SameTime (clear T s) s') :
    Clocked T k (next_command (rc, s')) ∧ (next_command (rc, s')).mon.g_timer = s.g_timer := by
  have hclear := clear_sameTime (T := T) s
  have hclock : s'.clock = 2 * k := by rw [hcmd.clock, hclear.clock, hs]
  have htimer : s'.g_timer = s.g_timer := by rw [hcmd.g_timer, hclear.g_timer]
  unfold next_command
  split
  · exact ⟨hclock, htimer⟩
  · exact ⟨hclock, htimer⟩

theorem leave_time (timer_start : Nat) (s : Mon M V Q) :
    (leave T timer_start s).clock = s.clock + 1 ∧
      (leave T timer_start s).g_timer = (charge T timer_start s).g_timer := by
  unfold leave
  dsimp only
  split <;> exact ⟨rfl, rfl⟩

/-- Step lemma: `g_timer` only changes where a run of `cpu_exec` ends. -/
theorem step_clocked {k : Nat} {c c' : Conf M V Q} {l : Label} (hc : Clocked T k c)
    (h : step T l c = .ok (some c')) :
    (l ≠ .leave ∧ Clocked T k c' ∧ c'.mon.g_timer = c.mon.g_timer) ∨
      (l = .leave ∧ Clocked T (k + 1) c' ∧ c.mon.clock = 2 * k + 1 ∧
        c'.mon.g_timer = (charge T (get_time T (2 * k)) c.mon).g_timer) := by
  cases step_cases T h with
  | @refused n s =>
    have hclear := clear_sameTime (T := T) s
    have hs : s.clock = 2 * k := hc
    exact Or.inl ⟨by simp, hclear.clock.trans hs, hclear.g_timer⟩
  | @entered n s =>
    have hclear := clear_sameTime (T := T) s
    have hs : s.clock = 2 * k := hc
    have hread : (clear T s).clock = 2 * k := hclear.clock.trans hs
    -- The first reading of a run has an even index.
    refine Or.inl ⟨by simp, ⟨?_, ?_⟩, hclear.g_timer⟩
    · show (clear T s).clock + 1 = 2 * k + 1
      rw [hread]
    · show get_time T (clear T s).clock = get_time T (2 * k)
      rw [hread]
  | iterated hiter =>
    obtain ⟨hs, rfl⟩ := hc
    have hsame := iteration_sameTime hiter
    exact Or.inl ⟨by simp, ⟨hsame.clock.trans hs, rfl⟩, hsame.g_timer⟩
  | @left timer_start s =>
    obtain ⟨hs, rfl⟩ := hc
    obtain ⟨hclock, htimer⟩ := leave_time (T := T) (get_time T (2 * k)) s
    -- The second reading ends the run.
    refine Or.inr ⟨rfl, ?_, hs, htimer⟩
    show (leave T (get_time T (2 * k)) s).clock = 2 * (k + 1)
    rw [hclock, hs]
    omega
  | watch hcmd => exact Or.inl ⟨by simp, next_command_clocked hc (cmd_w_sameTime hcmd)⟩
  | delete hcmd => exact Or.inl ⟨by simp, next_command_clocked hc (cmd_d_sameTime hcmd)⟩
  | @quit s =>
    have hclear := clear_sameTime (T := T) s
    have hs : s.clock = 2 * k := hc
    exact Or.inl ⟨by simp, hclear.clock.trans hs, hclear.g_timer⟩

/-! ## Section 4: Whole sessions -/

theorem exact_iff {k : Nat} {s : Mon M V Q} : Exact T k s ↔ s.g_timer = elapsed T k := by
  constructor
  · intro h
    exact h.g_timer
  · intro h
    refine ⟨h, ?_⟩
    rw [monitor_statistic, h]

/-- Run lemma: the time is exact along a run if each run of `cpu_exec` stays in
    its period, and only then. -/
theorem exactAlong_iff (hclock : HostClock T) {c : Conf M V Q} {run : List (Label × Conf M V Q)}
    (hrun : Run T c run) {k : Nat} (hc : Clocked T k c) (htimer : c.mon.g_timer = elapsed T k)
    (hsmall : elapsed T k < 2 ^ 64) :
    ExactAlong T k c run ↔
      (∀ j < completed run, SamePeriod T (k + j)) ∧ elapsed T (k + completed run) < 2 ^ 64 := by
  induction hrun generalizing k with
  | nil c =>
    constructor
    · intro _
      exact ⟨fun j hj => absurd hj (Nat.not_lt_zero j), hsmall⟩
    · intro _
      exact exact_iff.mpr htimer
  | cons hstep hrun ih =>
    rename_i c c' l run
    have hexact : Exact T k c.mon := exact_iff.mpr htimer
    rcases step_clocked hc hstep with ⟨hl, hc', hsame⟩ | ⟨rfl, hc', hread, hcharge⟩
    · -- Nothing is charged.
      have hrest := ih hc' (by rw [hsame, htimer]) hsmall
      have hcount : completed ((l, c') :: run) = completed run := by
        rw [completed, if_neg hl, Nat.zero_add]
      rw [ExactAlong, if_neg hl, hcount, hrest, hsame]
      constructor
      · intro h
        exact h.2.2
      · intro h
        exact ⟨hexact, Nat.le_refl _, h⟩
    -- A run of `cpu_exec` ends here.
    · have hcount : completed ((.leave, c') :: run) = completed run + 1 := by
        rw [completed, if_pos rfl, Nat.add_comm]
      have hone := charge_exact_iff hclock hread htimer hsmall
      rw [← hcharge] at hone
      rw [ExactAlong, if_pos rfl, hcount]
      have hindex : k + (completed run + 1) = k + 1 + completed run := by omega
      rw [hindex]
      constructor
      · intro h
        obtain ⟨-, -, hafter⟩ := h
        -- The first state behind the run is exact, so this run stayed in its period.
        have htimer' : c'.mon.g_timer = elapsed T (k + 1) := by
          cases run with
          | nil => exact hafter.g_timer
          | cons p run => exact hafter.1.g_timer
        obtain ⟨hperiod, hfit⟩ := hone.mp htimer'
        obtain ⟨hperiods, hfits⟩ := (ih hc' htimer' hfit).mp hafter
        refine ⟨fun j hj => ?_, hfits⟩
        cases j with
        | zero => exact hperiod
        | succ j =>
          have hj' := hperiods j (by omega)
          rwa [show k + 1 + j = k + (j + 1) by omega] at hj'
      · intro h
        obtain ⟨hperiods, hfits⟩ := h
        have hfit : elapsed T (k + 1) < 2 ^ 64 := Nat.lt_of_le_of_lt (elapsed_le _ _) hfits
        have htimer' := hone.mpr ⟨hperiods 0 (by omega), hfit⟩
        refine ⟨hexact, ?_, (ih hc' htimer' hfit).mpr ⟨fun j hj => ?_, hfits⟩⟩
        · rw [htimer, htimer']
          exact elapsed_le_succ k
        · have hj' := hperiods (j + 1) (by omega)
          rwa [show k + (j + 1) = k + 1 + j by omega] at hj'

/-- In a session `g_timer` is the sum of the times of the runs exactly if no
    run goes over the end of a period of 2^32 ms. -/
theorem g_timer_exact_iff (hclock : HostClock T) {m : M} {v : V} {ref : Q}
    {run : List (Label × Conf M V Q)} (hrun : Run T (.prompt (init m v ref)) run) :
    ExactAlong T 0 (.prompt (init m v ref)) run ↔
      (∀ k < completed run, SamePeriod T k) ∧ elapsed T (completed run) < 2 ^ 64 := by
  have hsmall : elapsed T 0 < 2 ^ 64 := Nat.two_pow_pos 64
  have h := exactAlong_iff hclock hrun (k := 0) rfl rfl hsmall
  simpa using h

end timer

/-! ### Clocks -/

/-- The guest of `counter` on a host whose clock stands at `readings i`. -/
def clocked (readings : Nat → Nat × Nat) : Target Nat Unit Nat Nat :=
  { counter .x86 with gettimeofday := readings }

/-- `si` in a new session. -/
def si_labels : List Label := [.cpu_exec 1, .iteration, .leave]

def si_run (readings : Nat → Nat × Nat) : List (Label × Conf Nat Unit Nat) :=
  (play (clocked readings) (.prompt (init 0 () 0)) si_labels).getD []

/-- A clock that goes on by 500 ms at each reading. -/
def half_seconds (i : Nat) : Nat × Nat := (i / 2, if i % 2 = 0 then 0 else 500000)

theorem half_seconds_clock : HostClock (clocked half_seconds) where
  tv_usec := by
    intro i
    show (if i % 2 = 0 then 0 else 500000) < 1000000
    split <;> omega
  forward := by
    intro i
    show i / 2 < (i + 1) / 2 ∨ i / 2 = (i + 1) / 2 ∧
      (if i % 2 = 0 then 0 else 500000) ≤ (if (i + 1) % 2 = 0 then 0 else 500000)
    by_cases h : i % 2 = 0
    · rw [if_pos h]
      omega
    · omega

/-- A clock at the end of a period, which goes on by 1 ms at the second
    reading. -/
def wrapping (i : Nat) : Nat × Nat := (4294967, if i = 0 then 295000 else 296000)

theorem wrapping_clock : HostClock (clocked wrapping) where
  tv_usec := by
    intro i
    show (if i = 0 then 295000 else 296000) < 1000000
    split <;> omega
  forward := by
    intro i
    refine Or.inr ⟨rfl, ?_⟩
    show (if i = 0 then 295000 else 296000) ≤ (if i + 1 = 0 then 295000 else 296000)
    split <;> simp

theorem si_run_of_play {readings : Nat → Nat × Nat}
    (h : (play (clocked readings) (.prompt (init 0 () 0)) si_labels).isSome) :
    Run (clocked readings) (.prompt (init 0 () 0)) (si_run readings) :=
    play_run (clocked readings) h

theorem si_timed :
    ExactAlong (clocked half_seconds) 0 (.prompt (init 0 () 0)) (si_run half_seconds) := by
  have hrun : completed (si_run half_seconds) = 1 := by decide +kernel
  refine (g_timer_exact_iff half_seconds_clock (si_run_of_play (by decide +kernel))).mpr ?_
  rw [hrun]
  refine ⟨fun k hk => ?_, by decide⟩
  obtain rfl : k = 0 := by omega
  show millis (clocked half_seconds) 1 / 2 ^ 32 % 2 ^ 32 = _
  decide

/-- A `si` of 1 ms over the end of a period charges 2^64 - 2^32 + 1 ms. -/
theorem g_timer_wraps :
    HostClock (clocked wrapping) ∧
    Run (clocked wrapping) (.prompt (init 0 () 0)) (si_run wrapping) ∧
    (si_run wrapping).map (fun x => x.2.mon.g_timer) = [0, 0, 18446744069414584321] ∧
    elapsed (clocked wrapping) (completed (si_run wrapping)) = 1 ∧
    ¬ ExactAlong (clocked wrapping) 0 (.prompt (init 0 () 0)) (si_run wrapping) := by
  have hrun : Run (clocked wrapping) (.prompt (init 0 () 0)) (si_run wrapping) :=
    si_run_of_play (by decide +kernel)
  have hcount : completed (si_run wrapping) = 1 := by decide +kernel
  refine ⟨wrapping_clock, hrun, by decide +kernel, by rw [hcount]; decide, ?_⟩
  rw [exactAlong_iff (k := 0) wrapping_clock hrun rfl rfl (Nat.two_pow_pos 64), hcount]
  intro h
  have hperiod := h.1 0 Nat.one_pos
  revert hperiod
  unfold SamePeriod
  decide

end Nemu.Monitor
