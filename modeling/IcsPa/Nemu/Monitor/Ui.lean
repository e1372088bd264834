import IcsPa.Nemu.Monitor.Watched

/-! # The command line

    `src/monitor/debug/ui.c` and `main`.  `ui_command` is one round of the
    loop of `ui_mainloop`: it splits the line with `strtok` and calls the
    handler of its first word.

    `strtok` puts a `NUL` behind each word, so a handler sees the argument
    text and what `strtok` has left of it as the same string. -/

open CCall

namespace Nemu.Monitor

open Watchpoint Difftest

/-! ## Section 1: Words -/

/-- `strtok` with one delimiter, on what is left of the string: the next word,
    and what is left behind the delimiter that ends it. -/
def strtok (delim : Char) (s : List Char) : Option (List Char × List Char) :=
  match s.dropWhile (fun c => c == delim) with
  | [] => none
  | c :: s =>
      some ((c :: s).takeWhile (fun c => c != delim),
        ((c :: s).dropWhile (fun c => c != delim)).drop 1)

/-- At most `n` calls of `strtok(NULL, " ")`, until one returns `NULL`. -/
def strtok_loop : Nat → List Char → List (List Char)
  | 0, _ => []
  | n + 1, s =>
      match strtok ' ' s with
      | none => []
      | some (word, rest) => word :: strtok_loop n rest

/-- The words that `strtok` still has; each has a character. -/
def words (s : List Char) : List (List Char) := strtok_loop s.length s

/-- `atoi(s)`. -/
def atoi (s : List Char) : Int := to_int (Expr.strtol s 10)

/-- The conversion of an `int` to `uint32_t`. -/
def int_to_uint32 (v : Int) : Nat := (v % 0x100000000).toNat

/-! ## Section 2: Handlers -/

inductive Handler where
  | cmd_help
  | cmd_c
  | cmd_q
  | cmd_si
  | cmd_info
  | cmd_x
  | cmd_p
  | cmd_w
  | cmd_d
  deriving DecidableEq, Repr

def cmd_table : List (List Char × Handler) :=
  [(['h', 'e', 'l', 'p'], .cmd_help),
   (['c'], .cmd_c),
   (['q'], .cmd_q),
   (['s', 'i'], .cmd_si),
   (['i', 'n', 'f', 'o'], .cmd_info),
   (['x'], .cmd_x),
   (['p'], .cmd_p),
   (['w'], .cmd_w),
   (['d'], .cmd_d)]

section ui
variable {M V R Q : Type} (T : Target M V R Q)

/-- `-1` as an `uint64_t`. -/
def UINT64_MAX : Nat := 0xFFFFFFFFFFFFFFFF

def cmd_c (s : Mon M V Q) : Except Fault (Rc × Mon M V Q) := do
  let s ← cpu_exec T UINT64_MAX s
  return (0, s)

/-- The local variable of `cmd_si`. -/
def nsteps (args : Option (List Char)) : Nat :=
  match args with
  | none => 1
  | some args => int_to_uint32 (atoi args)

def cmd_si (args : Option (List Char)) (s : Mon M V Q) : Except Fault (Rc × Mon M V Q) := do
  let s ← cpu_exec T (nsteps args) s
  return (0, s)

/-- Printing the value changes nothing. -/
def cmd_p (args : Option (List Char)) (s : Mon M V Q) : Except Fault (Rc × Mon M V Q) :=
  match args with
  | none => .ok (0, s)
  | some args => do
      let _ ← Expr.expr (guest T s.machine) args
      return (0, s)

/-- The loop of `cmd_x` that reads `n` words to print them. -/
def show_words (g : Expr.Guest) : Nat → Nat → Except Fault Unit
  | 0, _ => .ok ()
  | n + 1, g_addr => do
      let _ ← g.deref g_addr
      show_words g n (to_uint32 (g_addr + 4))

/-- `args` is what `strtok` still has. -/
def cmd_x (args : List Char) (s : Mon M V Q) : Except Fault (Rc × Mon M V Q) :=
  match strtok ' ' args with
  | none => .ok (0, s)
  | some (arg, rest) =>
      let nr_is := atoi arg
      match strtok '\n' rest with
      | none => .ok (0, s)
      | some (arg, _) => do
          match ← Expr.expr (guest T s.machine) arg with
          | none => return (0, s)
          | some g_addr =>
              show_words (guest T s.machine) nr_is.toNat (to_uint32 g_addr)
              return (0, s)

/-- `cmd_table[i].handler(args)`; `rest` is what `strtok` still has.  `cmd_help`
    and `cmd_info` only print. -/
def Handler.run (handler : Handler) (args : Option (List Char)) (rest : List Char)
    (s : Mon M V Q) : Except Fault (Rc × Mon M V Q) :=
  match handler with
  | cmd_help => .ok (0, s)
  | cmd_c => Monitor.cmd_c T s
  | cmd_q => .ok (-1, s)
  | cmd_si => Monitor.cmd_si T args s
  | cmd_info => .ok (0, s)
  | cmd_x => Monitor.cmd_x T rest s
  | cmd_p => Monitor.cmd_p T args s
  | cmd_w => Monitor.cmd_w T args s
  | cmd_d => Monitor.cmd_d (words rest) s

/-! ## Section 3: `ui_mainloop` -/

/-- `args`, which is `NULL` if nothing is behind the first word. -/
def arguments (rest : List Char) : Option (List Char) := if rest = [] then none else some rest

/-- One round of the loop: the value of the handler, 0 without one. -/
def ui_command (str : List Char) (s : Mon M V Q) : Except Fault (Rc × Mon M V Q) :=
  match strtok ' ' str with
  | none => .ok (0, s)
  | some (cmd, rest) =>
      let s := clear T s
      match cmd_table.lookup cmd with
      | some handler => handler.run T (arguments rest) rest s
      | none => .ok (0, s)

/-- The session with these lines; `readline` returns `NULL` after the last. -/
def ui_mainloop : List (List Char) → Mon M V Q → Except Fault (Mon M V Q)
  | [], s => .ok s
  | str :: strs, s => do
      let (rc, s) ← ui_command T str s
      if rc < 0 then return s else ui_mainloop strs s

def is_exit_status_bad (s : Mon M V Q) : Bool :=
  let good := (s.nemu_state.state == .NEMU_END && s.nemu_state.halt_ret == 0) ||
    s.nemu_state.state == .NEMU_QUIT
  !good

/-- The exit status of `main`, from the state in which `engine_start` returns. -/
def exit_status (s : Mon M V Q) : Nat := if is_exit_status_bad s then 1 else 0

/-- The states in which `ui_mainloop` waits for a line. -/
inductive AtPrompt : Mon M V Q → Prop
  | init (m : M) (v : V) (ref : Q) : AtPrompt (init m v ref)
  | command {s s' : Mon M V Q} {rc : Rc} {str : List Char} (hs : AtPrompt s)
      (h : ui_command T str s = .ok (rc, s')) (hrc : ¬ rc < 0) : AtPrompt s'

/-! ## Section 4: The invariant of a session -/

variable {T}

theorem exec_loop_watched {n : Nat} {s s' : Mon M V Q} (hs : Watched T s)
    (h : exec_loop T n s = .ok s') : Watched T s' := by
  induction n generalizing s with
  | zero => cases h; exact hs
  | succ n ih =>
    obtain ⟨mid, hiter, h⟩ := bind_eq_ok h
    obtain ⟨active, free, hinv, -⟩ := hs
    have hmid : Watched T mid := ⟨active, free, iteration_watched hinv hiter⟩
    by_cases hstop : mid.nemu_state.state ≠ .NEMU_RUNNING
    · rw [if_pos hstop] at h
      cases h
      exact hmid
    · rw [if_neg hstop] at h
      exact ih hmid h

theorem enter_watched {s : Mon M V Q} (h : Watched T s) : Watched T (enter T s).2 := by
  obtain ⟨hm, hp, -⟩ := enter_frame T s
  unfold Watched
  rw [hm, hp]
  exact h

theorem cpu_exec_watched {n : Nat} {s s' : Mon M V Q} (hs : Watched T s)
    (h : cpu_exec T n s = .ok s') : Watched T s' := by
  unfold cpu_exec at h
  by_cases hend : ended s.nemu_state = true
  · rw [if_pos hend] at h
    cases h
    exact hs
  · rw [if_neg hend] at h
    obtain ⟨mid, hloop, h⟩ := bind_eq_ok h
    cases h
    exact leave_watched _ (exec_loop_watched (enter_watched hs) hloop)

/-- `cmd_x` and `cmd_p` only read. -/
theorem cmd_x_state {args : List Char} {s s' : Mon M V Q} {rc : Rc}
    (h : cmd_x T args s = .ok (rc, s')) : rc = 0 ∧ s' = s := by
  unfold cmd_x at h
  cases hnum : strtok ' ' args with
  | none =>
    rw [hnum] at h
    cases h
    exact ⟨rfl, rfl⟩
  | some pair =>
    rw [hnum] at h
    cases htext : strtok '\n' pair.2 with
    | none =>
      simp only [htext] at h
      cases h
      exact ⟨rfl, rfl⟩
    | some text =>
      simp only [htext] at h
      obtain ⟨o, -, h⟩ := bind_eq_ok h
      cases o with
      | none => cases h; exact ⟨rfl, rfl⟩
      | some v =>
        obtain ⟨-, -, h⟩ := bind_eq_ok h
        cases h
        exact ⟨rfl, rfl⟩

theorem cmd_p_state {args : Option (List Char)} {s s' : Mon M V Q} {rc : Rc}
    (h : cmd_p T args s = .ok (rc, s')) : rc = 0 ∧ s' = s := by
  cases args with
  | none => cases h; exact ⟨rfl, rfl⟩
  | some args =>
    obtain ⟨o, -, h⟩ := bind_eq_ok h
    cases h
    exact ⟨rfl, rfl⟩

/-- A handler keeps the invariant, unless it ends the session. -/
theorem Handler.run_watched {handler : Handler} {args : Option (List Char)} {rest : List Char}
    {s s' : Mon M V Q} {rc : Rc} (hs : Watched T s)
    (h : handler.run T args rest s = .ok (rc, s')) (hrc : ¬ rc < 0) : Watched T s' := by
  cases handler with
  | cmd_help => cases h; exact hs
  | cmd_c =>
    obtain ⟨mid, hexec, h⟩ := bind_eq_ok h
    cases h
    exact cpu_exec_watched hs hexec
  | cmd_q => cases h; exact hs
  | cmd_si =>
    obtain ⟨mid, hexec, h⟩ := bind_eq_ok h
    cases h
    exact cpu_exec_watched hs hexec
  | cmd_info => cases h; exact hs
  | cmd_x => rw [(cmd_x_state h).2]; exact hs
  | cmd_p => rw [(cmd_p_state h).2]; exact hs
  | cmd_w => exact cmd_w_watched hs h hrc
  | cmd_d => exact cmd_d_watched hs h

/-- What a round of the loop does: nothing for a blank line, else it clears the
    events of the window and runs the handler, if there is one. -/
theorem ui_command_cases {str : List Char} {s s' : Mon M V Q} {rc : Rc}
    (h : ui_command T str s = .ok (rc, s')) :
    (rc = 0 ∧ (s' = s ∨ s' = clear T s)) ∨
      ∃ cmd rest handler, strtok ' ' str = some (cmd, rest) ∧
        cmd_table.lookup cmd = some handler ∧
        handler.run T (arguments rest) rest (clear T s) = .ok (rc, s') := by
  unfold ui_command at h
  cases hcmd : strtok ' ' str with
  | none =>
    rw [hcmd] at h
    cases h
    exact Or.inl ⟨rfl, Or.inl rfl⟩
  | some pair =>
    rw [hcmd] at h
    cases hlook : cmd_table.lookup pair.1 with
    | none =>
      simp only [hlook] at h
      cases h
      exact Or.inl ⟨rfl, Or.inr rfl⟩
    | some handler =>
      simp only [hlook] at h
      exact Or.inr ⟨pair.1, pair.2, handler, rfl, hlook, h⟩

/-- Step lemma. -/
theorem ui_command_watched {str : List Char} {s s' : Mon M V Q} {rc : Rc} (hs : Watched T s)
    (h : ui_command T str s = .ok (rc, s')) (hrc : ¬ rc < 0) : Watched T s' := by
  rcases ui_command_cases h with ⟨-, rfl | rfl⟩ | ⟨cmd, rest, handler, -, -, hrun⟩
  · exact hs
  · exact clear_watched hs
  · exact Handler.run_watched (clear_watched hs) hrun hrc

/-- Run lemma: the invariant holds in every state in which a line is read. -/
theorem AtPrompt.watched {s : Mon M V Q} (h : AtPrompt T s) : Watched T s := by
  induction h with
  | init m v ref => exact init_watched m v ref
  | command _ h hrc ih => exact ui_command_watched ih h hrc

end ui

end Nemu.Monitor
