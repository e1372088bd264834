import IcsPa.Nemu.Difftest
import IcsPa.Nemu.Expr.Eval
import IcsPa.Nemu.Watchpoint

/-! # The monitor

    `src/monitor/cpu-exec.c`, `check_wp_changed` of `debug/watchpoint.c`, and
    the commands of `debug/ui.c` that run the guest or change its
    watchpoints.  `DEBUG` is defined; `DIFF_TEST` and `HAS_IOE`, which
    `common.h` leaves to the user, are parameters.

    `cpu_exec` is the C function.  `Step` cuts a session into its smallest
    steps, so that runs can stop between two instructions. -/

open CCall Chain

namespace Nemu.Monitor

open Watchpoint Difftest

/-! ## Section 1: The emulator around `cpu_exec` -/

/-- What one call of `isa_exec_once` leaves: the guest, the devices, the last
    call of `rtl_exit`, and the calls of the differential-testing driver. -/
structure Executed (M V : Type) where
  machine  : M
  devices  : V
  rtl_exit : Option NEMUState
  calls    : List SkipCall

/-- The parts of the emulator below the monitor, over guests `M` (`cpu` and
    `pmem`), devices `V` with the events of the host, and registers `R` and
    states `Q` of a reference.  `device_update` tells whether it polled an
    `SDL_QUIT`; `gettimeofday` is the host's clock at each reading. -/
structure Target (M V R Q : Type) where
  isa             : Isa
  DIFF_TEST       : Bool
  HAS_IOE         : Bool
  pc              : M → Nat
  cpu             : M → R
  pmem            : M → Bytes.Store
  isa_reg_str2val : M → List Char → Option Nat
  isa_exec_once   : M → V → Except Fault (Executed M V)
  ref             : RefDesign R Q
  device_update   : RunState → V → V × Bool
  sdl_clear_event_queue : V → V
  gettimeofday    : Nat → Nat × Nat

/-- The state of the emulator.  `clock` counts the readings of the clock. -/
structure Mon (M V Q : Type) where
  machine : M
  devices : V
  driver  : Driver Q
  pool    : WpPool
  g_nr_guest_instr : Nat
  g_timer : Nat
  clock   : Nat

/-- The conversions to `uint32_t` and `uint64_t`. -/
def to_uint32 (v : Nat) : Nat := v % 0x100000000

def to_uint64 (v : Nat) : Nat := v % 0x10000000000000000

section monitor
variable {M V R Q : Type}

namespace Mon

def nemu_state (s : Mon M V Q) : NEMUState := s.driver.nemu_state

/-- `nemu_state.state = st`. -/
def set_state (st : RunState) (s : Mon M V Q) : Mon M V Q :=
  { s with driver := { s.driver with nemu_state := { s.nemu_state with state := st } } }

@[simp] theorem set_state_nemu_state (s : Mon M V Q) (st : RunState) :
    (s.set_state st).nemu_state = { s.nemu_state with state := st } := rfl

@[simp] theorem set_state_machine (s : Mon M V Q) (st : RunState) :
    (s.set_state st).machine = s.machine := rfl

@[simp] theorem set_state_pool (s : Mon M V Q) (st : RunState) :
    (s.set_state st).pool = s.pool := rfl

@[simp] theorem set_state_g_nr_guest_instr (s : Mon M V Q) (st : RunState) :
    (s.set_state st).g_nr_guest_instr = s.g_nr_guest_instr := rfl

end Mon

variable (T : Target M V R Q)

/-- What expressions read of the guest. -/
def guest (m : M) : Expr.Guest := ⟨T.isa, T.isa_reg_str2val m, T.pmem m⟩

/-! ## Section 2: Watchpoints -/

/-- The string that a `char *` points at. -/
def read_string : CharPtr → Except Fault (List Char)
  | .live s => .ok s
  | _ => .error .outOfBounds

/-- The body of the loop of `check_wp_changed`. -/
def check_wp (g : Expr.Guest) (p : Nat) (s : WpPool × Bool) : Except Fault (WpPool × Bool) := do
  let e ← read_string (s.1.wp_pool p).watch_expr
  let old_v := (s.1.wp_pool p).watch_value
  match ← Expr.expr g e with
  | none => .error .assertion
  | some v =>
      let new_v := to_uint32 v
      if new_v ≠ old_v then
        return (s.1.write p { s.1.wp_pool p with watch_value := new_v }, true)
      else return s

def check_wp_changed (g : Expr.Guest) (s : WpPool) : Except Fault (WpPool × Bool) :=
  foreach (fun s => s.1.next) (check_wp g) .diverges NR_WP s.head (s, false)

/-! ## Section 3: `cpu_exec` -/

def get_time (i : Nat) : Nat :=
  let (tv_sec, tv_usec) := T.gettimeofday i
  let seconds := to_uint32 tv_sec
  let useconds := to_uint32 tv_usec
  to_uint32 (to_uint32 (seconds * 1000) + to_uint32 (useconds + 500) / 1000)

/-- The arguments of the driver for an instruction that started in `s`. -/
def instr (s : Mon M V Q) (x : Executed M V) : Instr R where
  calls := x.calls
  cpu := T.cpu x.machine
  nemu_state := x.rtl_exit.getD s.nemu_state
  this_pc := T.pc s.machine
  next_pc := T.pc x.machine

/-- `difftest_step`, which is empty without `DIFF_TEST`. -/
def difftest (i : Instr R) (s : Driver Q) : Except Fault (Driver Q) :=
  if T.DIFF_TEST then exec_instr T.ref s i else .ok { s with nemu_state := i.nemu_state }

/-- `isa_exec_once(); difftest_step(this_pc, cpu.pc); g_nr_guest_instr ++;` -/
def exec_once (s : Mon M V Q) : Except Fault (Mon M V Q) := do
  let x ← T.isa_exec_once s.machine s.devices
  let driver ← difftest T (instr T s x) s.driver
  return { s with
    machine := x.machine
    devices := x.devices
    driver := driver
    g_nr_guest_instr := to_uint64 (s.g_nr_guest_instr + 1) }

/-- `if (true == check_wp_changed()) nemu_state.state = NEMU_STOP;` -/
def watch (s : Mon M V Q) : Except Fault (Mon M V Q) := do
  let (pool, changed) ← check_wp_changed (guest T s.machine) s.pool
  let s := { s with pool := pool }
  return if changed then s.set_state .NEMU_STOP else s

/-- `device_update()`, which is called with `HAS_IOE` only. -/
def update (s : Mon M V Q) : Mon M V Q :=
  if T.HAS_IOE then
    let (devices, quit) := T.device_update s.nemu_state.state s.devices
    let s := { s with devices := devices }
    if quit then s.set_state .NEMU_QUIT else s
  else s

/-- The body of the loop of `cpu_exec`. -/
def iteration (s : Mon M V Q) : Except Fault (Mon M V Q) := do
  let s ← exec_once T s
  let s ← watch T s
  return update T s

/-- The loop of `cpu_exec`. -/
def exec_loop : Nat → Mon M V Q → Except Fault (Mon M V Q)
  | 0, s => .ok s
  | n + 1, s => do
      let s ← iteration T s
      if s.nemu_state.state ≠ .NEMU_RUNNING then return s else exec_loop n s

/-- What `cpu_exec` refuses to run. -/
def ended (st : NEMUState) : Bool := st.state == .NEMU_END || st.state == .NEMU_ABORT

/-- `cpu_exec` before its loop; `timer_start` is its local variable. -/
def enter (s : Mon M V Q) : Nat × Mon M V Q :=
  let s := s.set_state .NEMU_RUNNING
  (get_time T s.clock, { s with clock := s.clock + 1 })

/-- `timer_end = get_time(); g_timer += timer_end - timer_start;` -/
def charge (timer_start : Nat) (s : Mon M V Q) : Mon M V Q :=
  { s with
    clock := s.clock + 1
    g_timer := to_uint64 (s.g_timer + (get_time T s.clock + 0x10000000000000000 - timer_start)) }

/-- `cpu_exec` after its loop. -/
def leave (timer_start : Nat) (s : Mon M V Q) : Mon M V Q :=
  let s := charge T timer_start s
  if s.nemu_state.state = .NEMU_RUNNING then s.set_state .NEMU_STOP else s

/-! The guest, the pool and the count are not touched around an instruction. -/

theorem update_frame (s : Mon M V Q) :
    (update T s).machine = s.machine ∧ (update T s).pool = s.pool ∧
      (update T s).g_nr_guest_instr = s.g_nr_guest_instr := by
  unfold update
  split
  · dsimp only
    split <;> exact ⟨rfl, rfl, rfl⟩
  · exact ⟨rfl, rfl, rfl⟩

theorem enter_frame (s : Mon M V Q) :
    (enter T s).2.machine = s.machine ∧ (enter T s).2.pool = s.pool ∧
      (enter T s).2.g_nr_guest_instr = s.g_nr_guest_instr :=
  ⟨rfl, rfl, rfl⟩

theorem charge_frame (timer_start : Nat) (s : Mon M V Q) :
    (charge T timer_start s).machine = s.machine ∧ (charge T timer_start s).pool = s.pool ∧
      (charge T timer_start s).g_nr_guest_instr = s.g_nr_guest_instr ∧
      (charge T timer_start s).driver = s.driver := by
  unfold charge
  exact ⟨rfl, rfl, rfl, rfl⟩

theorem leave_frame (timer_start : Nat) (s : Mon M V Q) :
    (leave T timer_start s).machine = s.machine ∧ (leave T timer_start s).pool = s.pool ∧
      (leave T timer_start s).g_nr_guest_instr = s.g_nr_guest_instr := by
  obtain ⟨hm, hp, hc, -⟩ := charge_frame T timer_start s
  unfold leave
  dsimp only
  split
  · rw [Mon.set_state_machine, Mon.set_state_pool, Mon.set_state_g_nr_guest_instr]
    exact ⟨hm, hp, hc⟩
  · exact ⟨hm, hp, hc⟩

def cpu_exec (n : Nat) (s : Mon M V Q) : Except Fault (Mon M V Q) :=
  if ended s.nemu_state then .ok s
  else do
    let (timer_start, s) := enter T s
    let s ← exec_loop T n s
    return leave T timer_start s

/-! ## Section 4: Commands -/

/-- The value of a handler: negative ends the session. -/
abbrev Rc := Int

def cmd_w (args : Option (List Char)) (s : Mon M V Q) : Except Fault (Rc × Mon M V Q) :=
  match args with
  | none => .error .outOfBounds
  | some args => do
      let (wp, pool) ← new_wp s.pool
      let pool := pool.write wp { pool.wp_pool wp with watch_expr := .live args }
      match ← Expr.expr (guest T s.machine) args with
      | none =>
          let pool ← free_wp (some wp) pool
          return (-1, { s with pool := pool })
      | some v =>
          let pool := pool.write wp { pool.wp_pool wp with watch_value := to_uint32 v }
          return (0, { s with pool := pool })

/-- Whether the expression has a value or not, `w` only changes the pool. -/
theorem cmd_w_frame {args : Option (List Char)} {s s' : Mon M V Q} {rc : Rc}
    (h : cmd_w T args s = .ok (rc, s')) : ∃ pool, s' = { s with pool := pool } := by
  cases args with
  | none => cases h
  | some args =>
    obtain ⟨⟨wp, pool⟩, -, h⟩ := bind_eq_ok h
    obtain ⟨o, -, h⟩ := bind_eq_ok h
    cases o with
    | none =>
      obtain ⟨pool', -, h⟩ := bind_eq_ok h
      cases h
      exact ⟨pool', rfl⟩
    | some v =>
      cases h
      exact ⟨_, rfl⟩

/-- The conversion of a `long` to `int`. -/
def to_int (v : Int) : Int := (v + 0x80000000) % 0x100000000 - 0x80000000

/-- The body of the loop of `cmd_d`. -/
def delete_wp (arg : List Char) (pool : WpPool) : Except Fault WpPool := do
  match ← no_to_wp (to_int (Expr.strtol arg 10)) pool with
  | none => return pool
  | some wp => free_wp (some wp) pool

/-- `args` are the words that `strtok` still has. -/
def cmd_d (args : List (List Char)) (s : Mon M V Q) : Except Fault (Rc × Mon M V Q) :=
  if args = [] then .ok (-1, s)
  else do
    let pool ← args.foldlM (fun pool arg => delete_wp arg pool) s.pool
    return (0, { s with pool := pool })

theorem cmd_d_frame {args : List (List Char)} {s s' : Mon M V Q} {rc : Rc}
    (h : cmd_d args s = .ok (rc, s')) : ∃ pool, s' = { s with pool := pool } := by
  unfold cmd_d at h
  split at h
  · cases h
    exact ⟨s.pool, rfl⟩
  · obtain ⟨pool, -, h⟩ := bind_eq_ok h
    cases h
    exact ⟨pool, rfl⟩

/-! ## Section 5: Sessions -/

/-- Where a session stands: `ui_mainloop` waits for a command, the loop of
    `cpu_exec` is about to test `n > 0`, or `ui_mainloop` has returned. -/
inductive Conf (M V Q : Type) where
  | prompt (s : Mon M V Q)
  | running (n timer_start : Nat) (s : Mon M V Q)
  | returned (s : Mon M V Q)

def Conf.mon : Conf M V Q → Mon M V Q
  | prompt s => s
  | running _ _ s => s
  | returned s => s

/-- What happens in a step. -/
inductive Label where
  | cpu_exec (n : Nat)
  | iteration
  | leave
  | cmd_w (args : Option (List Char))
  | cmd_d (args : List (List Char))
  | cmd_q
  deriving DecidableEq

/-- What `ui_mainloop` does before it calls a handler. -/
def clear (s : Mon M V Q) : Mon M V Q :=
  if T.HAS_IOE then { s with devices := T.sdl_clear_event_queue s.devices } else s

theorem clear_frame (s : Mon M V Q) :
    (clear T s).machine = s.machine ∧ (clear T s).pool = s.pool ∧
      (clear T s).driver = s.driver := by
  unfold clear
  split <;> exact ⟨rfl, rfl, rfl⟩

/-- What `ui_mainloop` does with the value of a handler. -/
def next_command (r : Rc × Mon M V Q) : Conf M V Q :=
  if r.1 < 0 then .returned r.2 else .prompt r.2

/-- One step of a session; `none` where the label does not fit. -/
def step (l : Label) (c : Conf M V Q) : Except Fault (Option (Conf M V Q)) :=
  match l, c with
  | .cpu_exec n, .prompt s =>
      let s := clear T s
      if ended s.nemu_state then .ok (some (.prompt s))
      else .ok (some (.running n (enter T s).1 (enter T s).2))
  | .iteration, .running (n + 1) timer_start s => do
      let s ← iteration T s
      return some (.running (if s.nemu_state.state ≠ .NEMU_RUNNING then 0 else n) timer_start s)
  | .leave, .running 0 timer_start s => .ok (some (.prompt (leave T timer_start s)))
  | .cmd_w args, .prompt s => do return some (next_command (← cmd_w T args (clear T s)))
  | .cmd_d args, .prompt s => do return some (next_command (← cmd_d args (clear T s)))
  | .cmd_q, .prompt s => .ok (some (.returned (clear T s)))
  | _, _ => .ok none

/-- What a step can do. -/
inductive Stepped : Label → Conf M V Q → Conf M V Q → Prop
  | refused {n : Nat} {s : Mon M V Q} (h : ended (clear T s).nemu_state = true) :
      Stepped (.cpu_exec n) (.prompt s) (.prompt (clear T s))
  | entered {n : Nat} {s : Mon M V Q} (h : ended (clear T s).nemu_state = false) :
      Stepped (.cpu_exec n) (.prompt s)
        (.running n (enter T (clear T s)).1 (enter T (clear T s)).2)
  | iterated {n timer_start : Nat} {s s' : Mon M V Q} (h : iteration T s = .ok s') :
      Stepped .iteration (.running (n + 1) timer_start s)
        (.running (if s'.nemu_state.state ≠ .NEMU_RUNNING then 0 else n) timer_start s')
  | left {timer_start : Nat} {s : Mon M V Q} :
      Stepped .leave (.running 0 timer_start s) (.prompt (leave T timer_start s))
  | watch {args : Option (List Char)} {s s' : Mon M V Q} {rc : Rc}
      (h : cmd_w T args (clear T s) = .ok (rc, s')) :
      Stepped (.cmd_w args) (.prompt s) (next_command (rc, s'))
  | delete {args : List (List Char)} {s s' : Mon M V Q} {rc : Rc}
      (h : cmd_d args (clear T s) = .ok (rc, s')) :
      Stepped (.cmd_d args) (.prompt s) (next_command (rc, s'))
  | quit {s : Mon M V Q} : Stepped .cmd_q (.prompt s) (.returned (clear T s))

/-- Inversion lemma: the labels that fit, each with where it leads. -/
theorem step_cases {c c' : Conf M V Q} {l : Label} (h : step T l c = .ok (some c')) :
    Stepped T l c c' := by
  cases c with
  | prompt s =>
    cases l with
    | cpu_exec n =>
      simp only [step] at h
      split at h
      · rename_i hended
        cases h
        exact .refused hended
      · rename_i hended
        cases h
        exact .entered (Bool.eq_false_iff.mpr hended)
    | cmd_w args =>
      obtain ⟨⟨rc, s'⟩, hcmd, h⟩ := bind_eq_ok h
      cases h
      exact .watch hcmd
    | cmd_d args =>
      obtain ⟨⟨rc, s'⟩, hcmd, h⟩ := bind_eq_ok h
      cases h
      exact .delete hcmd
    | cmd_q =>
      cases h
      exact .quit
    | iteration => cases h
    | leave => cases h
  | running n timer_start s =>
    cases l with
    | iteration =>
      cases n with
      | zero => cases h
      | succ n =>
        obtain ⟨s', hiter, h⟩ := bind_eq_ok h
        cases h
        exact .iterated hiter
    | leave =>
      cases n with
      | zero =>
        cases h
        exact .left
      | succ n => cases h
    | cpu_exec => cases h
    | cmd_w => cases h
    | cmd_d => cases h
    | cmd_q => cases h
  | returned s => cases l <;> cases h

/-- The emulator after `init_monitor`. -/
def init (m : M) (v : V) (ref : Q) : Mon M V Q where
  machine := m
  devices := v
  driver := initDriver ref ⟨.NEMU_STOP, 0, 0⟩
  pool := init_wp_pool
  g_nr_guest_instr := 0
  g_timer := 0
  clock := 0

/-- A run: each label with the configuration it leads to. -/
inductive Run : Conf M V Q → List (Label × Conf M V Q) → Prop
  | nil (c : Conf M V Q) : Run c []
  | cons {c c' : Conf M V Q} {l : Label} {run : List (Label × Conf M V Q)}
      (h : step T l c = .ok (some c')) (hrun : Run c' run) : Run c ((l, c') :: run)

/-- The run with the given labels. -/
def play : Conf M V Q → List Label → Option (List (Label × Conf M V Q))
  | _, [] => some []
  | c, l :: ls =>
      match step T l c with
      | .ok (some c') => (play c' ls).map fun run => (l, c') :: run
      | _ => none

theorem play_run {c : Conf M V Q} {ls : List Label} (h : (play T c ls).isSome) :
    Run T c ((play T c ls).getD []) := by
  induction ls generalizing c with
  | nil => exact .nil c
  | cons l ls ih =>
    unfold play at h ⊢
    split at h
    · rename_i c' hstep
      obtain ⟨run, hplay⟩ := Option.isSome_iff_exists.mp (by simpa using h)
      have hrun := ih (c := c') (by rw [hplay]; rfl)
      rw [hplay] at hrun ⊢
      exact .cons hstep hrun
    · cases h

inductive Reachable : Conf M V Q → Prop
  | init (m : M) (v : V) (ref : Q) : Reachable (.prompt (init m v ref))
  | step {c c' : Conf M V Q} {l : Label} (hc : Reachable c) (h : step T l c = .ok (some c')) :
      Reachable c'

end monitor

end Nemu.Monitor
