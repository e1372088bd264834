import IcsPa.Nemu.Monitor.Terminal
import IcsPa.Nemu.Monitor.Ui

/-! # The exit status

    `main` returns 0 if `nemu_state` says `NEMU_END` with `halt_ret` 0, or
    `NEMU_QUIT`, when `ui_mainloop` returns.  What it should say is told by
    the session: by how the guest last stopped, and by how the user left.

    `cmd_q` does not write `nemu_state`, although `device_update` does so when
    the window is closed; and the record of an ended guest may be overwritten
    in the iteration that ends it. -/

open CCall

namespace Nemu.Monitor

open Watchpoint Difftest

section exit
variable {M V R Q : Type} (T : Target M V R Q)

/-! ## Section 1: What happens in a session -/

/-- The states in which the loop of `cpu_exec` executes an instruction. -/
def exec_states : Nat → Mon M V Q → List (Mon M V Q)
  | 0, _ => []
  | n + 1, s =>
      s :: match iteration T s with
        | .ok s' => if s'.nemu_state.state ≠ .NEMU_RUNNING then [] else exec_states n s'
        | .error _ => []

/-- The instructions of a call of `cpu_exec`, unless it refuses to run. -/
def call_states (n : Nat) (s : Mon M V Q) : Option (List (Mon M V Q)) :=
  if ended s.nemu_state then none else some (exec_states T n (enter T s).2)

/-- The call of `cpu_exec` that a handler makes. -/
def Handler.call (handler : Handler) (args : Option (List Char)) (s : Mon M V Q) :
    Option (List (Mon M V Q)) :=
  match handler with
  | cmd_c => call_states T UINT64_MAX s
  | cmd_si => call_states T (nsteps args) s
  | _ => none

/-- The handler of a line, with the text behind the command. -/
def line_handler (str : List Char) : Option (Handler × List Char) :=
  (strtok ' ' str).bind fun (cmd, rest) => (cmd_table.lookup cmd).map fun handler => (handler, rest)

/-- The call of `cpu_exec` that a line makes. -/
def line_call (str : List Char) (s : Mon M V Q) : Option (List (Mon M V Q)) :=
  (line_handler str).bind fun (handler, rest) => handler.call T (arguments rest) (clear T s)

/-- The lines that are read, each with the state in which it is. -/
def read_lines : List (List Char) → Mon M V Q → List (List Char × Mon M V Q)
  | [], _ => []
  | str :: strs, s =>
      (str, s) :: match ui_command T str s with
        | .ok (rc, s') => if rc < 0 then [] else read_lines strs s'
        | .error _ => []

/-- The calls of `cpu_exec` in a session. -/
def calls (strs : List (List Char)) (s : Mon M V Q) : List (List (Mon M V Q)) :=
  (read_lines T strs s).filterMap fun (str, s) => line_call T str s

/-- The last line is `q`. -/
def LeftByQ (strs : List (List Char)) (s : Mon M V Q) : Prop :=
  ∃ str u rest, (read_lines T strs s).getLast? = some (str, u) ∧
    line_handler str = some (.cmd_q, rest)

/-- The state before the last instruction of the last call. -/
def last_instr (calls : List (List (Mon M V Q))) : Option (Mon M V Q) :=
  calls.getLast?.bind List.getLast?

/-- The instruction ends the guest with the record `r`: it calls `rtl_exit`,
    or its register check fails. -/
def Ends (u : Mon M V Q) (r : NEMUState) : Prop :=
  ended r = true ∧ ∃ x, T.isa_exec_once u.machine u.devices = .ok x ∧
    after_check (instr T u x).nemu_state (failing T u x) = r

/-- A watched value changes with the instruction. -/
def Hits (u : Mon M V Q) : Prop :=
  ∃ x, T.isa_exec_once u.machine u.devices = .ok x ∧ WatchHit (guest T x.machine) u.pool

/-- The window has been closed when `device_update` polls the events after the
    instruction. -/
def Closes (u : Mon M V Q) : Prop :=
  T.HAS_IOE = true ∧ ∃ x, T.isa_exec_once u.machine u.devices = .ok x ∧
    (WatchHit (guest T x.machine) u.pool → (T.device_update .NEMU_STOP x.devices).2 = true) ∧
    (¬ WatchHit (guest T x.machine) u.pool →
      (T.device_update (after_check (instr T u x).nemu_state (failing T u x)).state
        x.devices).2 = true)

/-- The record of a `nemu_trap` with return value 0. -/
def Good (r : NEMUState) : Prop := r.state = .NEMU_END ∧ r.halt_ret = 0

def GoodTrap (u : Mon M V Q) : Prop := ∃ r, Ends T u r ∧ Good r

/-- The guest has aborted or trapped with a nonzero value. -/
def HasFailed (calls : List (List (Mon M V Q))) : Prop :=
  ∃ call ∈ calls, ∃ u ∈ call, ∃ r, Ends T u r ∧ ¬ Good r

/-- When the exit status of a session should be 0: the guest's last stop was a
    `nemu_trap` with return value 0, or the user left, by `q` or by closing the
    window, while the guest had not failed. -/
def ShouldSucceed (strs : List (List Char)) (s : Mon M V Q) : Prop :=
  (∃ u, last_instr (calls T strs s) = some u ∧ GoodTrap T u) ∨
    ((LeftByQ T strs s ∨ ∃ u, last_instr (calls T strs s) = some u ∧ Closes T u) ∧
      ¬ HasFailed T (calls T strs s))

/-- The sessions whose exit status is what it should be. -/
structure Reported (strs : List (List Char)) (s : Mon M V Q) : Prop where
  /-- `q` is not used on a guest that stands still without having ended. -/
  quit : LeftByQ T strs s → ¬ HasFailed T (calls T strs s) →
    ∃ u, last_instr (calls T strs s) = some u ∧ (Closes T u ∨ (GoodTrap T u ∧ ¬ Hits T u))
  /-- No watchpoint is hit by the last trap. -/
  trap : ∀ u, last_instr (calls T strs s) = some u → GoodTrap T u → Hits T u → Closes T u
  /-- The window is not closed behind a guest that has failed. -/
  window : ∀ u, last_instr (calls T strs s) = some u → Closes T u →
    HasFailed T (calls T strs s) → GoodTrap T u

/-- `rtl_exit` is called with `NEMU_END` and `NEMU_ABORT` only. -/
def ExitsEnded : Prop :=
  ∀ m v x st, T.isa_exec_once m v = .ok x → x.rtl_exit = some st → ended st = true

/-! ## Section 2: The state word -/

variable {T}

/-- `nemu_state` at a prompt, by what happened at the last instruction `u`. -/
structure Leaves (u s : Mon M V Q) : Prop where
  window  : Closes T u → s.nemu_state.state = .NEMU_QUIT
  hit     : ¬ Closes T u → Hits T u → s.nemu_state.state = .NEMU_STOP
  record  : ¬ Closes T u → ¬ Hits T u → ∀ r, Ends T u r → s.nemu_state = r
  count   : ¬ Closes T u → ¬ Hits T u → (∀ r, ¬ Ends T u r) → s.nemu_state.state = .NEMU_STOP

/-- The same behind the iteration, where a guest that has not stopped is still
    running. -/
structure Iterated (u s : Mon M V Q) : Prop where
  window  : Closes T u → s.nemu_state.state = .NEMU_QUIT
  hit     : ¬ Closes T u → Hits T u → s.nemu_state.state = .NEMU_STOP
  record  : ¬ Closes T u → ¬ Hits T u → ∀ r, Ends T u r → s.nemu_state = r
  running : ¬ Closes T u → ¬ Hits T u → (∀ r, ¬ Ends T u r) → s.nemu_state.state = .NEMU_RUNNING

/-- An instruction that does not end the guest leaves it running. -/
theorem running_of_not_ended (hexit : ExitsEnded T) {u : Mon M V Q} {x : Executed M V}
    (hx : T.isa_exec_once u.machine u.devices = .ok x)
    (hrun : u.nemu_state.state = .NEMU_RUNNING)
    (h : ended (after_check (instr T u x).nemu_state (failing T u x)) = false) :
    (after_check (instr T u x).nemu_state (failing T u x)).state = .NEMU_RUNNING := by
  cases hfail : failing T u x with
  | some pc =>
    rw [hfail] at h
    cases h
  | none =>
    rw [hfail] at h
    show (instr T u x).nemu_state.state = _
    have hinstr : ended (x.rtl_exit.getD u.nemu_state) = false := h
    show (x.rtl_exit.getD u.nemu_state).state = _
    cases hst : x.rtl_exit with
    | none => exact hrun
    | some st =>
      rw [hst] at hinstr
      have hend := hexit _ _ _ _ hx hst
      rw [Option.getD_some, hend] at hinstr
      cases hinstr

/-- Step lemma: what an iteration leaves in `nemu_state`. -/
theorem iterated (hexit : ExitsEnded T) {u s : Mon M V Q} (hs : Watched T u)
    (hrun : u.nemu_state.state = .NEMU_RUNNING) (h : iteration T u = .ok s) :
    Iterated (T := T) u s := by
  obtain ⟨active, free, hinv, -⟩ := hs
  obtain ⟨s₁, s₂, hexec, hwatch, rfl⟩ := iteration_cases h
  have hpool := exec_once_pool hexec
  obtain ⟨x, hx, hm, hdev, hst⟩ := exec_once_nemu_state hexec
  obtain ⟨hdev₂, hhit, hmiss⟩ := watch_nemu_state (by rw [hpool]; exact hinv) hwatch
  rw [hm, hpool] at hhit hmiss
  rw [hdev] at hdev₂
  have hunique : ∀ y, T.isa_exec_once u.machine u.devices = .ok y → y = x := by
    intro y hy
    rw [hx] at hy
    cases hy
    rfl
  have hhits : Hits T u ↔ WatchHit (guest T x.machine) u.pool := by
    constructor
    · intro hh
      obtain ⟨y, hy, hw⟩ := hh
      rwa [hunique y hy] at hw
    · intro hw
      exact ⟨x, hx, hw⟩
  have hends : ∀ r, Ends T u r ↔
      ended r = true ∧ after_check (instr T u x).nemu_state (failing T u x) = r := by
    intro r
    constructor
    · intro hr
      obtain ⟨hend, y, hy, heq⟩ := hr
      rw [hunique y hy] at heq
      exact ⟨hend, heq⟩
    · intro hr
      exact ⟨hr.1, x, hx, hr.2⟩
  -- What `device_update` polls is what `Closes` says.
  have hcloses : Closes T u ↔
      T.HAS_IOE = true ∧ (T.device_update s₂.nemu_state.state s₂.devices).2 = true := by
    rw [hdev₂]
    constructor
    · intro hc
      obtain ⟨hioe, y, hy, hstop, hother⟩ := hc
      rw [hunique y hy] at hstop hother
      refine ⟨hioe, ?_⟩
      by_cases hw : WatchHit (guest T x.machine) u.pool
      · rw [hhit hw]
        exact hstop hw
      · rw [hmiss hw, hst]
        exact hother hw
    · intro hc
      refine ⟨hc.1, x, hx, fun hw => ?_, fun hw => ?_⟩
      · rw [← hhit hw]
        exact hc.2
      · rw [← hst, ← hmiss hw]
        exact hc.2
  rw [hhits.symm] at hhit hmiss
  refine ⟨fun hc => ?_, fun hc hw => ?_, fun hc hw r hr => ?_, fun hc hw hno => ?_⟩
  · rw [update_nemu_state, if_pos (hcloses.mp hc)]
  · rw [update_nemu_state, if_neg fun hq => hc (hcloses.mpr hq)]
    exact hhit hw
  · rw [update_nemu_state, if_neg fun hq => hc (hcloses.mpr hq), hmiss hw, hst]
    exact ((hends r).mp hr).2
  · rw [update_nemu_state, if_neg fun hq => hc (hcloses.mpr hq), hmiss hw, hst]
    apply running_of_not_ended hexit hx hrun
    rw [← Bool.not_eq_true]
    intro hend
    exact hno _ ((hends _).mpr ⟨hend, rfl⟩)

/-- The loop of `cpu_exec` ends with its last instruction, or executes none. -/
theorem exec_loop_last {n : Nat} {s s' : Mon M V Q} (hs : Watched T s)
    (hrun : s.nemu_state.state = .NEMU_RUNNING) (h : exec_loop T n s = .ok s') :
    (exec_states T n s = [] ∧ s' = s) ∨
      ∃ u, (exec_states T n s).getLast? = some u ∧ Watched T u ∧
        u.nemu_state.state = .NEMU_RUNNING ∧ iteration T u = .ok s' := by
  induction n generalizing s with
  | zero =>
    cases h
    exact Or.inl ⟨rfl, rfl⟩
  | succ n ih =>
    refine Or.inr ?_
    obtain ⟨mid, hiter, h⟩ := bind_eq_ok h
    obtain ⟨active, free, hinv, hup⟩ := hs
    have hmid : Watched T mid := ⟨active, free, iteration_watched hinv hiter⟩
    by_cases hstop : mid.nemu_state.state ≠ .NEMU_RUNNING
    · rw [if_pos hstop] at h
      cases h
      refine ⟨s, ?_, ⟨active, free, hinv, hup⟩, hrun, hiter⟩
      simp [exec_states, hiter, hstop]
    · rw [if_neg hstop] at h
      have hstates : exec_states T (n + 1) s = s :: exec_states T n mid := by
        simp only [exec_states, hiter, if_neg hstop]
      rcases ih hmid (not_not.mp hstop) h with ⟨hnil, rfl⟩ | ⟨u, hu, hrest⟩
      · rw [hstates, hnil]
        exact ⟨s, rfl, ⟨active, free, hinv, hup⟩, hrun, hiter⟩
      · rw [hstates, List.getLast?_cons, hu]
        exact ⟨u, rfl, hrest⟩

/-- `cpu_exec` behind its loop keeps what it finds, unless the guest is still
    running. -/
theorem leave_state (i : Nat) (s : Mon M V Q) :
    (s.nemu_state.state = .NEMU_RUNNING → (leave T i s).nemu_state.state = .NEMU_STOP) ∧
      (s.nemu_state.state ≠ .NEMU_RUNNING → (leave T i s).nemu_state = s.nemu_state) := by
  have hcharge : (charge T i s).nemu_state = s.nemu_state := by
    unfold Mon.nemu_state
    rw [(charge_frame T i s).2.2.2]
  unfold leave
  dsimp only
  rw [hcharge]
  constructor
  · intro h
    rw [if_pos h]
    rfl
  · intro h
    rw [if_neg h, hcharge]

theorem Iterated.leaves {u s : Mon M V Q} (h : Iterated (T := T) u s) (i : Nat) :
    Leaves (T := T) u (leave T i s) := by
  obtain ⟨hrunning, hkeep⟩ := leave_state (T := T) i s
  refine ⟨fun hc => ?_, fun hc hw => ?_, fun hc hw r hr => ?_, fun hc hw hno => ?_⟩
  · have hst := h.window hc
    rw [hkeep (by rw [hst]; nofun), hst]
  · have hst := h.hit hc hw
    rw [hkeep (by rw [hst]; nofun), hst]
  · have hst := h.record hc hw r hr
    have hne : s.nemu_state.state ≠ .NEMU_RUNNING := by
      rw [hst]
      rcases ended_iff.mp hr.1 with he | he <;> simp [he]
    rw [hkeep hne, hst]
  · exact hrunning (h.running hc hw hno)

/-! ## Section 3: Sessions -/

/-- The invariant of a session: `nemu_state` at the prompt, by the last
    instruction of the last call of `cpu_exec`. -/
def Tracks (calls : List (List (Mon M V Q))) (s : Mon M V Q) : Prop :=
  (last_instr calls = none → s.nemu_state.state = .NEMU_STOP) ∧
    ∀ u, last_instr calls = some u → Leaves (T := T) u s

/-- Step lemma: a call of `cpu_exec`. -/
theorem Tracks.cpu_exec (hexit : ExitsEnded T) {cs : List (List (Mon M V Q))} {n : Nat}
    {s s' : Mon M V Q} (hs : Watched T s) (ht : Tracks (T := T) cs s)
    (h : cpu_exec T n s = .ok s') : Tracks (T := T) (cs ++ (call_states T n s).toList) s' := by
  unfold Monitor.cpu_exec at h
  unfold call_states
  by_cases hend : ended s.nemu_state = true
  · rw [if_pos hend] at h ⊢
    cases h
    rw [Option.toList_none, List.append_nil]
    exact ht
  · rw [if_neg hend] at h ⊢
    obtain ⟨mid, hloop, h⟩ := bind_eq_ok h
    cases h
    have hlast : last_instr (cs ++ [exec_states T n (enter T s).2]) =
        (exec_states T n (enter T s).2).getLast? := by
      rw [last_instr, List.getLast?_concat]
      rfl
    rw [Option.toList_some, Tracks, hlast]
    rcases exec_loop_last (enter_watched hs) rfl hloop with ⟨hnil, rfl⟩ | ⟨u, hu, hwu, hrun, hiter⟩
    · rw [hnil]
      exact ⟨fun _ => (leave_state _ _).1 rfl, nofun⟩
    · rw [hu]
      refine ⟨nofun, fun u' hu' => ?_⟩
      cases hu'
      exact (iterated hexit hwu hrun hiter).leaves _

theorem Tracks.congr {cs : List (List (Mon M V Q))} {s s' : Mon M V Q}
    (ht : Tracks (T := T) cs s) (h : s'.nemu_state = s.nemu_state) : Tracks (T := T) cs s' := by
  unfold Tracks at ht ⊢
  rw [h]
  refine ⟨ht.1, fun u hu => ?_⟩
  obtain ⟨h1, h2, h3, h4⟩ := ht.2 u hu
  constructor <;> rw [h] <;> assumption

/-- Step lemma: a handler. -/
theorem Tracks.handler (hexit : ExitsEnded T) {cs : List (List (Mon M V Q))} {handler : Handler}
    {args : Option (List Char)} {rest : List Char} {s s' : Mon M V Q} {rc : Rc}
    (hs : Watched T s) (ht : Tracks (T := T) cs s)
    (h : handler.run T args rest s = .ok (rc, s')) :
    Tracks (T := T) (cs ++ (handler.call T args s).toList) s' := by
  have hnone : handler.call T args s = none → s'.nemu_state = s.nemu_state →
      Tracks (T := T) (cs ++ (handler.call T args s).toList) s' := by
    intro hcall hkeep
    rw [hcall, Option.toList_none, List.append_nil]
    exact ht.congr hkeep
  cases handler with
  | cmd_c =>
    obtain ⟨mid, hexec, h⟩ := bind_eq_ok h
    cases h
    exact ht.cpu_exec hexit hs hexec
  | cmd_si =>
    obtain ⟨mid, hexec, h⟩ := bind_eq_ok h
    cases h
    exact ht.cpu_exec hexit hs hexec
  | cmd_help => cases h; exact hnone rfl rfl
  | cmd_q => cases h; exact hnone rfl rfl
  | cmd_info => cases h; exact hnone rfl rfl
  | cmd_x => exact hnone rfl (by rw [(cmd_x_state h).2])
  | cmd_p => exact hnone rfl (by rw [(cmd_p_state h).2])
  | cmd_w => exact hnone rfl (cmd_w_nemu_state h)
  | cmd_d => exact hnone rfl (cmd_d_nemu_state h)

/-- Step lemma: a line. -/
theorem Tracks.line (hexit : ExitsEnded T) {cs : List (List (Mon M V Q))} {str : List Char}
    {s s' : Mon M V Q} {rc : Rc} (hs : Watched T s) (ht : Tracks (T := T) cs s)
    (h : ui_command T str s = .ok (rc, s')) :
    Tracks (T := T) (cs ++ (line_call T str s).toList) s' := by
  have htc : Tracks (T := T) cs (clear T s) := ht.congr (clear_nemu_state s)
  unfold ui_command at h
  unfold line_call line_handler
  cases hcmd : strtok ' ' str with
  | none =>
    rw [hcmd] at h
    cases h
    simpa using ht
  | some pair =>
    rw [hcmd] at h
    cases hlook : cmd_table.lookup pair.1 with
    | none =>
      simp only [hlook] at h
      cases h
      simpa [hlook] using htc
    | some handler =>
      simp only [hlook] at h
      have hrun := htc.handler hexit (clear_watched hs) h
      simpa [hlook] using hrun

/-- Run lemma. -/
theorem Tracks.session (hexit : ExitsEnded T) {strs : List (List Char)}
    {cs : List (List (Mon M V Q))} {s s' : Mon M V Q} (hs : Watched T s)
    (ht : Tracks (T := T) cs s) (h : ui_mainloop T strs s = .ok s') :
    Tracks (T := T) (cs ++ calls T strs s) s' := by
  induction strs generalizing cs s with
  | nil =>
    have hnil : calls T [] s = [] := rfl
    rw [hnil, List.append_nil]
    cases h
    exact ht
  | cons str strs ih =>
    obtain ⟨⟨rc, mid⟩, hcmd, h⟩ := bind_eq_ok h
    have hmid := ht.line hexit hs hcmd
    -- A line adds its own call, and a line that quits is the last.
    have hcalls : calls T (str :: strs) s = (line_call T str s).toList ++
        if rc < 0 then [] else calls T strs mid := by
      unfold calls
      rw [read_lines, hcmd]
      by_cases hrc : rc < 0
      · simp only [if_pos hrc]
        cases hcall : line_call T str s <;> simp [hcall]
      · simp only [if_neg hrc]
        cases hcall : line_call T str s <;> simp [hcall]
    rw [hcalls, ← List.append_assoc]
    by_cases hrc : rc < 0
    · rw [if_pos hrc, List.append_nil]
      have hret : mid = s' := by simpa [hrc] using h
      rw [← hret]
      exact hmid
    · rw [if_neg hrc]
      exact ih (ui_command_watched hs hcmd hrc) hmid (by simpa [hrc] using h)

/-! ## Section 4: The main theorem -/

theorem exit_status_zero_iff (s : Mon M V Q) :
    exit_status s = 0 ↔ Good s.nemu_state ∨ s.nemu_state.state = .NEMU_QUIT := by
  unfold exit_status is_exit_status_bad Good
  cases s.nemu_state.state <;> simp

theorem Ends.unique {u : Mon M V Q} {r r' : NEMUState} (h : Ends T u r) (h' : Ends T u r') :
    r = r' := by
  obtain ⟨-, x, hx, rfl⟩ := h
  obtain ⟨-, y, hy, rfl⟩ := h'
  rw [hx] at hy
  cases hy
  rfl

/-- The exit status, by the last instruction. -/
theorem exit_status_last {cs : List (List (Mon M V Q))} {s : Mon M V Q}
    (ht : Tracks (T := T) cs s) :
    exit_status s = 0 ↔
      ∃ u, last_instr cs = some u ∧ (Closes T u ∨ (GoodTrap T u ∧ ¬ Hits T u)) := by
  rw [exit_status_zero_iff]
  cases hu : last_instr cs with
  | none =>
    have hst := ht.1 hu
    simp [Good, hst]
  | some u =>
    obtain ⟨hwindow, hhit, hrecord, hcount⟩ := ht.2 u hu
    have hsome : (∃ u', some u = some u' ∧ (Closes T u' ∨ (GoodTrap T u' ∧ ¬ Hits T u'))) ↔
        (Closes T u ∨ (GoodTrap T u ∧ ¬ Hits T u)) := by
      simp
    rw [hsome]
    -- What decides is the last instruction: a window that closes, a hit, an ending.
    by_cases hc : Closes T u
    · simp [hc, hwindow hc]
    · by_cases hw : Hits T u
      · simp [hc, hw, Good, hhit hc hw]
      · by_cases hend : ∃ r, Ends T u r
        · obtain ⟨r, hr⟩ := hend
          have hst := hrecord hc hw r hr
          have hgood : GoodTrap T u ↔ Good r :=
            ⟨fun ⟨r', hr', hg⟩ => hr'.unique hr ▸ hg, fun hg => ⟨r, hr, hg⟩⟩
          have hquit : r.state ≠ .NEMU_QUIT := by
            rcases ended_iff.mp hr.1 with he | he <;> simp [he]
          simp [hc, hw, hgood, hst, hquit]
        · have hst := hcount hc hw (not_exists.mp hend)
          have hgood : ¬ GoodTrap T u := fun ⟨r, hr, _⟩ => hend ⟨r, hr⟩
          simp [hc, hgood, Good, hst]

/-- The exit status of a session is 0 exactly when it should be, if and only if
    `q` is not used on a guest that stands still without having ended, no
    watchpoint is hit by the last trap, and the window is not closed behind a
    guest that has failed. -/
theorem exit_status_iff (hexit : ExitsEnded T) {m : M} {v : V} {ref : Q}
    {strs : List (List Char)} {s : Mon M V Q}
    (h : ui_mainloop T strs (init m v ref) = .ok s) :
    (exit_status s = 0 ↔ ShouldSucceed T strs (init m v ref)) ↔
      Reported T strs (init m v ref) := by
  have hstart : Tracks (T := T) [] (init m v ref) := ⟨fun _ => rfl, nofun⟩
  have ht := hstart.session hexit (init_watched m v ref) h
  rw [List.nil_append] at ht
  rw [exit_status_last ht]
  unfold ShouldSucceed
  constructor
  -- From the status to the three reports, and back.
  · intro hiff
    refine ⟨fun hq hno => hiff.mpr (Or.inr ⟨Or.inl hq, hno⟩), fun u hu hgood hhit => ?_,
      fun u hu hc hfail => ?_⟩
    · obtain ⟨u', hu', hcase⟩ := hiff.mpr (Or.inl ⟨u, hu, hgood⟩)
      rw [hu] at hu'
      cases hu'
      exact hcase.resolve_right fun hg => hg.2 hhit
    · rcases hiff.mp ⟨u, hu, Or.inl hc⟩ with ⟨u', hu', hgood⟩ | ⟨-, hno⟩
      · rw [hu] at hu'
        cases hu'
        exact hgood
      · exact absurd hfail hno
  · intro hrep
    constructor
    · intro hzero
      obtain ⟨u, hu, hc | ⟨hgood, -⟩⟩ := hzero
      · by_cases hfail : HasFailed T (calls T strs (init m v ref))
        · exact Or.inl ⟨u, hu, hrep.window u hu hc hfail⟩
        · exact Or.inr ⟨Or.inr ⟨u, hu, hc⟩, hfail⟩
      · exact Or.inl ⟨u, hu, hgood⟩
    · intro hshould
      rcases hshould with ⟨u, hu, hgood⟩ | ⟨hq | ⟨u, hu, hc⟩, hno⟩
      -- A hit hides a good trap unless the report says otherwise.
      · by_cases hhit : Hits T u
        · exact ⟨u, hu, Or.inl (hrep.trap u hu hgood hhit)⟩
        · exact ⟨u, hu, Or.inr ⟨hgood, hhit⟩⟩
      · exact hrep.quit hq hno
      · exact ⟨u, hu, Or.inl hc⟩

end exit

theorem traps_exitsEnded : ExitsEnded traps := by
  intro m v x st hx hst
  cases hx
  cases hst
  rfl

/-- A trap with return value 0, and `q`. -/
theorem exit_status_after_trap :
    ∃ s, ui_mainloop traps [['s', 'i'], ['q']] (init 100 () 0) = .ok s ∧
      exit_status s = 0 ∧
      ((exit_status s = 0 ↔ ShouldSucceed traps [['s', 'i'], ['q']] (init 100 () 0)) ↔
        Reported traps [['s', 'i'], ['q']] (init 100 () 0)) :=
  ⟨_, rfl, rfl, exit_status_iff traps_exitsEnded rfl⟩

/-- The user leaves by `q` before the guest has run, and the status is 1. -/
theorem q_exits_with_one :
    ∃ s, ui_mainloop traps [['q']] (init 100 () 0) = .ok s ∧ exit_status s = 1 ∧
      ShouldSucceed traps [['q']] (init 100 () 0) := by
  refine ⟨_, rfl, rfl, Or.inr ⟨Or.inl ⟨['q'], init 100 () 0, [], rfl, rfl⟩, fun h => ?_⟩⟩
  obtain ⟨call, hcall, -⟩ := h
  cases hcall

end Nemu.Monitor
