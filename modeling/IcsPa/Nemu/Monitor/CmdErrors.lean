import IcsPa.Nemu.Expr.Grammar
import IcsPa.Nemu.Expr.Lexing
import IcsPa.Nemu.Monitor.Terminal
import IcsPa.Nemu.Monitor.Ui
import Mathlib.Data.List.TakeWhile

/-! # Commands that cannot be carried out

    A wrong command should leave the session as it is.  `cmd_p` and `cmd_x`
    report an error and return 0.  `cmd_w` and `cmd_d` return -1, which
    `ui_mainloop` takes for `q`, and `cmd_d` acts on whatever `strtol` makes
    of its arguments. -/

open CCall Chain

namespace Nemu.Monitor

open Watchpoint Difftest

section errors
variable {M V R Q : Type} (T : Target M V R Q)

/-! ## Section 1: Wrong commands -/

/-- The number that a text is: decimal digits, with or without a sign. -/
def number_text (s : List Char) : Option Int :=
  let (neg, ds) := Expr.take_sign s
  if ds ≠ [] ∧ ds.all Char.isDigit = true then
    some (if neg then -(Expr.decValue ds : Int) else Expr.decValue ds)
  else none

/-- `no` is the number of an active watchpoint. -/
def ActiveNo (pool : WpPool) (no : Int) : Prop :=
  ∃ active, Links pool.next pool.head active ∧ ∃ p ∈ active, (pool.wp_pool p).NO = no

/-- The expression of `x`, behind its first argument. -/
def x_text (rest : List Char) : Option (List Char) :=
  (strtok ' ' rest).bind fun (_, rest) => (strtok '\n' rest).map Prod.fst

/-- The command with the text `rest` behind it cannot be carried out. -/
def Handler.Fails (handler : Handler) (rest : List Char) (s : Mon M V Q) : Prop :=
  let fails := fun text => words text = [] ∨ Expr.expr (guest T s.machine) text = .ok none
  match handler with
  | cmd_w => fails rest
  | cmd_p => fails rest
  | cmd_x => ∀ text, x_text rest = some text → fails text
  | cmd_d => words rest = [] ∨
      ∃ arg ∈ words rest, ∀ no, number_text arg = some no → ¬ ActiveNo s.pool no
  | _ => False

/-- The command line cannot be carried out. -/
def CommandFails (str : List Char) (s : Mon M V Q) : Prop :=
  ∃ cmd rest handler, strtok ' ' str = some (cmd, rest) ∧
    cmd_table.lookup cmd = some handler ∧ handler.Fails T rest s

/-- The guest is the same, and so are the active watchpoints with their
    expressions and values. -/
structure Kept (s s' : Mon M V Q) : Prop where
  machine : s'.machine = s.machine
  watched : ∃ active, Links s.pool.next s.pool.head active ∧
    Links s'.pool.next s'.pool.head active ∧
    ∀ p ∈ active, (s'.pool.wp_pool p).watch_expr = (s.pool.wp_pool p).watch_expr ∧
      (s'.pool.wp_pool p).watch_value = (s.pool.wp_pool p).watch_value

/-- The next command is read, and nothing has changed. -/
def GoesOn (str : List Char) (s : Mon M V Q) : Prop :=
  ∃ rc s', ui_command T str s = .ok (rc, s') ∧ ¬ rc < 0 ∧ Kept s s'

/-- The wrong commands that the handlers leave at that. -/
def Handler.Spares (handler : Handler) (rest : List Char) (s : Mon M V Q) : Prop :=
  match handler with
  | cmd_p => rest = [] ∨ words rest ≠ []
  | cmd_x => ∀ text, x_text rest = some text → words text ≠ []
  | cmd_d => words rest ≠ [] ∧ ∀ arg ∈ words rest, ¬ ActiveNo s.pool (atoi arg)
  | _ => False

def Spared (str : List Char) (s : Mon M V Q) : Prop :=
  ∃ cmd rest handler, strtok ' ' str = some (cmd, rest) ∧
    cmd_table.lookup cmd = some handler ∧ handler.Spares rest s

/-! ## Section 2: Blank texts -/

theorem strtok_none_iff {delim : Char} {s : List Char} :
    strtok delim s = none ↔ ∀ c ∈ s, c = delim := by
  have hdrop : s.dropWhile (fun c => c == delim) = [] ↔ ∀ c ∈ s, c = delim := by
    rw [List.dropWhile_eq_nil_iff]
    simp
  rw [← hdrop, strtok]
  cases s.dropWhile (fun c => c == delim) with
  | nil => simp
  | cons c s => simp

theorem words_nil_iff {s : List Char} : words s = [] ↔ ∀ c ∈ s, c = ' ' := by
  cases s with
  | nil => simp [words, strtok_loop]
  | cons c s =>
    rw [← strtok_none_iff]
    show strtok_loop (s.length + 1) (c :: s) = [] ↔ _
    rw [strtok_loop]
    cases strtok ' ' (c :: s) with
    | none => simp
    | some pair => simp

/-- `expr` does not report a failure on a blank text: it evaluates no tokens. -/
theorem expr_blank (g : Expr.Guest) {s : List Char} (h : words s = []) :
    Expr.expr g s = .error .assertion := by
  have hrep : s = List.replicate s.length ' ' :=
    List.eq_replicate_iff.mpr ⟨rfl, words_nil_iff.mp h⟩
  have htoken : Expr.make_token s = .ok (some []) := by
    have hplace : Expr.WellPlaced false [] := trivial
    rw [hrep]
    exact Expr.make_token_loop_printed (Expr.Printed.nil s.length) (by simp) hplace (by simp)
      (by simp) (Nat.le_refl _)
  rw [Expr.expr, htoken]
  rfl

/-! ## Section 3: The handlers -/

variable {T}

theorem kept_refl {s : Mon M V Q} (hs : Watched T s) : Kept s s := by
  obtain ⟨active, free, hinv, -⟩ := hs
  exact ⟨rfl, active, hinv.active_links, hinv.active_links, fun _ _ => ⟨rfl, rfl⟩⟩

/-- `GoesOn` of a handler. -/
def Handler.GoesOn (handler : Handler) (rest : List Char) (s : Mon M V Q) : Prop :=
  ∃ rc s', handler.run T (arguments rest) rest s = .ok (rc, s') ∧ ¬ rc < 0 ∧ Kept s s'

theorem arguments_eq {rest : List Char} (h : rest ≠ []) : arguments rest = some rest := if_neg h

/-- `w` without an expression stops the emulator, and with a wrong one it ends
    the session. -/
theorem cmd_w_fails {rest : List Char} {s : Mon M V Q} (hfail : Handler.cmd_w.Fails T rest s) :
    ¬ Handler.cmd_w.GoesOn (T := T) rest s := by
  intro h
  obtain ⟨rc, s', hrun, hrc, -⟩ := h
  by_cases hrest : rest = []
  · subst hrest
    cases hrun
  · have hrun' : cmd_w T (some rest) s = .ok (rc, s') := by
      rw [← arguments_eq hrest]
      exact hrun
    obtain ⟨⟨wp, pool⟩, -, hrun'⟩ := bind_eq_ok hrun'
    obtain ⟨o, hexpr, hrun'⟩ := bind_eq_ok hrun'
    rcases hfail with hblank | hnone
    · rw [expr_blank _ hblank] at hexpr
      cases hexpr
    · rw [hnone] at hexpr
      cases hexpr
      obtain ⟨pool', -, hret⟩ := bind_eq_ok hrun'
      cases hret
      exact hrc (by decide)

/-- `p` goes on unless its text is blank. -/
theorem cmd_p_fails_iff {rest : List Char} {s : Mon M V Q} (hs : Watched T s)
    (hfail : Handler.cmd_p.Fails T rest s) :
    Handler.cmd_p.GoesOn (T := T) rest s ↔ rest = [] ∨ words rest ≠ [] := by
  by_cases hrest : rest = []
  · subst hrest
    exact iff_of_true ⟨0, s, rfl, by decide, kept_refl hs⟩ (Or.inl rfl)
  · have hargs := arguments_eq hrest
    by_cases hblank : words rest = []
    · refine iff_of_false (fun h => ?_) (by simp [hrest, hblank])
      obtain ⟨rc, s', hrun, -⟩ := h
      have hrun' : cmd_p T (some rest) s = .ok (rc, s') := by
        rw [← hargs]
        exact hrun
      rw [cmd_p, expr_blank _ hblank] at hrun'
      cases hrun'
    · have hnone := hfail.resolve_left hblank
      refine iff_of_true ⟨0, s, ?_, by decide, kept_refl hs⟩ (Or.inr hblank)
      show cmd_p T (arguments rest) s = _
      rw [hargs, cmd_p, hnone]
      rfl

/-- `x` goes on unless the text of its expression is blank. -/
theorem cmd_x_fails_iff {rest : List Char} {s : Mon M V Q} (hs : Watched T s)
    (hfail : Handler.cmd_x.Fails T rest s) :
    Handler.cmd_x.GoesOn (T := T) rest s ↔ ∀ text, x_text rest = some text → words text ≠ [] := by
  -- Without a second argument the command ends at once.
  have hx : x_text rest = none → cmd_x T rest s = .ok (0, s) := by
    intro h
    unfold x_text at h
    unfold cmd_x
    cases hnum : strtok ' ' rest with
    | none => rfl
    | some pair =>
      rw [hnum] at h
      have htext : strtok '\n' pair.2 = none := by simpa using h
      simp only [htext]
  -- With one, it does what `expr` does, as long as that gives no value.
  have hy : ∀ text, x_text rest = some text →
      ∀ o, Expr.expr (guest T s.machine) text = o → o = .ok none ∨ (∃ e, o = .error e) →
        cmd_x T rest s = o.map fun _ => (0, s) := by
    intro text h o ho hcase
    unfold x_text at h
    unfold cmd_x
    cases hnum : strtok ' ' rest with
    | none => rw [hnum] at h; cases h
    | some pair =>
      rw [hnum] at h
      cases htext : strtok '\n' pair.2 with
      | none => simp [htext] at h
      | some t =>
        obtain rfl : t.1 = text := by simpa [htext] using h
        simp only [htext]
        rw [ho]
        rcases hcase with rfl | ⟨e, rfl⟩ <;> rfl
  cases htext : x_text rest with
  | none =>
    exact iff_of_true ⟨0, s, hx htext, by decide, kept_refl hs⟩ (by simp)
  | some text =>
    -- A blank expression runs into the assertion of `expr`.
    by_cases hblank : words text = []
    · refine iff_of_false (fun h => ?_) (by simp [hblank])
      obtain ⟨rc, s', hrun, -⟩ := h
      have hrun' : cmd_x T rest s = .ok (rc, s') := hrun
      rw [hy text htext _ (expr_blank _ hblank) (Or.inr ⟨_, rfl⟩)] at hrun'
      cases hrun'
    · have hnone := (hfail text htext).resolve_left hblank
      refine iff_of_true ⟨0, s, ?_, by decide, kept_refl hs⟩ (by simpa using hblank)
      exact hy text htext _ hnone (Or.inl rfl)

/-- The arguments of `d`, one after the other: no watchpoint is added, and the
    first argument that `strtol` takes for an active number deletes one. -/
theorem foldlM_delete_length {g : Expr.Guest} {args : List (List Char)} {pool pool' : WpPool}
    {active free : List Nat} (hinv : WpInv pool active free) (hup : UpToDate g pool active)
    (h : args.foldlM (fun pool arg => delete_wp arg pool) pool = .ok pool') :
    ∃ active' free', WpInv pool' active' free' ∧ active'.length ≤ active.length ∧
      ((∃ arg ∈ args, ∃ p ∈ active, (pool.wp_pool p).NO = atoi arg) →
        active'.length < active.length) := by
  induction args generalizing pool active free with
  | nil =>
    cases h
    exact ⟨active, free, hinv, Nat.le_refl _, by simp⟩
  | cons arg args ih =>
    rw [List.foldlM_cons] at h
    obtain ⟨mid, hfirst, hrest⟩ := bind_eq_ok h
    rcases delete_wp_cases hinv hup with ⟨hno, hkeep⟩ | ⟨wp, hwp, mid', -, hdel, hinv', hup'⟩
    · rw [hkeep] at hfirst
      cases hfirst
      obtain ⟨active', free', hinv', hle, hlt⟩ := ih hinv hup hrest
      refine ⟨active', free', hinv', hle, fun hex => hlt ?_⟩
      obtain ⟨a, ha, p, hp, heq⟩ := hex
      rcases List.mem_cons.mp ha with rfl | ha
      · exact absurd heq (hno p hp)
      · exact ⟨a, ha, p, hp, heq⟩
    · rw [hdel] at hfirst
      cases hfirst
      obtain ⟨active', free', hinv'', hle, -⟩ := ih hinv' hup' hrest
      have hshort := List.length_erase_of_mem hwp
      have hpos := List.length_pos_of_mem hwp
      exact ⟨active', free', hinv'', by omega, fun _ => by omega⟩

/-- Without such an argument nothing is deleted. -/
theorem foldlM_delete_keeps {g : Expr.Guest} {args : List (List Char)} {pool : WpPool}
    {active free : List Nat} (hinv : WpInv pool active free) (hup : UpToDate g pool active)
    (hno : ∀ arg ∈ args, ∀ p ∈ active, (pool.wp_pool p).NO ≠ atoi arg) :
    args.foldlM (fun pool arg => delete_wp arg pool) pool = .ok pool := by
  induction args with
  | nil => rfl
  | cons arg args ih =>
    rw [List.foldlM_cons]
    rcases delete_wp_cases hinv hup with ⟨-, hkeep⟩ | ⟨wp, hwp, -, heq, -⟩
    · rw [hkeep, ok_bind]
      exact ih fun a ha => hno a (List.mem_cons_of_mem arg ha)
    · exact absurd heq (hno arg List.mem_cons_self wp hwp)

theorem activeNo_iff {pool : WpPool} {active free : List Nat} (hinv : WpInv pool active free)
    (no : Int) : ActiveNo pool no ↔ ∃ p ∈ active, (pool.wp_pool p).NO = no := by
  constructor
  · intro h
    obtain ⟨l, hlinks, hp⟩ := h
    rwa [links_unique hlinks hinv.active_links] at hp
  · intro h
    exact ⟨active, hinv.active_links, h⟩

/-- `d` goes on if it has arguments, and `strtol` takes none of them for the
    number of an active watchpoint. -/
theorem cmd_d_goesOn_iff {rest : List Char} {s : Mon M V Q} (hs : Watched T s) :
    Handler.cmd_d.GoesOn (T := T) rest s ↔
      words rest ≠ [] ∧ ∀ arg ∈ words rest, ¬ ActiveNo s.pool (atoi arg) := by
  obtain ⟨active, free, hinv, hup⟩ := hs
  constructor
  · intro h
    obtain ⟨rc, s', hrun, hrc, hkept⟩ := h
    have hrun' : cmd_d (words rest) s = .ok (rc, s') := hrun
    unfold cmd_d at hrun'
    by_cases hnil : words rest = []
    · rw [if_pos hnil] at hrun'
      cases hrun'
      exact absurd (by decide) hrc
    · rw [if_neg hnil] at hrun'
      obtain ⟨pool, hfold, hret⟩ := bind_eq_ok hrun'
      cases hret
      refine ⟨hnil, fun arg harg hactive => ?_⟩
      obtain ⟨active', free', hinv', -, hlt⟩ := foldlM_delete_length hinv hup hfold
      obtain ⟨l, hl, hl', -⟩ := hkept.watched
      -- The list of active watchpoints would be shorter, but it is the same.
      have hlen := hlt ⟨arg, harg, (activeNo_iff hinv _).mp hactive⟩
      rw [← links_unique hl hinv.active_links, ← links_unique hl' hinv'.active_links] at hlen
      exact Nat.lt_irrefl _ hlen
  · intro h
    obtain ⟨hnil, hno⟩ := h
    refine ⟨0, s, ?_, by decide, kept_refl ⟨active, free, hinv, hup⟩⟩
    show cmd_d (words rest) s = _
    rw [cmd_d, if_neg hnil, foldlM_delete_keeps hinv hup fun arg harg p hp heq =>
      hno arg harg ((activeNo_iff hinv _).mpr ⟨p, hp, heq⟩)]
    rfl

theorem Handler.goesOn_iff {handler : Handler} {rest : List Char} {s : Mon M V Q}
    (hs : Watched T s) (hfail : handler.Fails T rest s) :
    handler.GoesOn (T := T) rest s ↔ handler.Spares rest s := by
  cases handler with
  | cmd_w => exact iff_of_false (cmd_w_fails hfail) (fun h => h)
  | cmd_p => exact cmd_p_fails_iff hs hfail
  | cmd_x => exact cmd_x_fails_iff hs hfail
  | cmd_d => exact cmd_d_goesOn_iff hs
  | _ => exact absurd hfail (fun h => h)

/-! ## Section 4: The main theorem -/

theorem Kept.clear_iff {s s' : Mon M V Q} : Kept (clear T s) s' ↔ Kept s s' := by
  obtain ⟨hm, hp, -⟩ := clear_frame T s
  constructor
  · intro h
    exact ⟨h.machine.trans hm, hp ▸ h.watched⟩
  · intro h
    exact ⟨h.machine.trans hm.symm, hp.symm ▸ h.watched⟩

/-- After a command line that cannot be carried out, the session goes on with
    nothing changed exactly if the command is `p` or `x` and its expression is
    missing or not blank, or `d` with arguments none of which `strtol` takes
    for the number of an active watchpoint. -/
theorem command_fails_iff {s : Mon M V Q} {str : List Char} (hs : AtPrompt T s)
    (hfail : CommandFails T str s) : GoesOn T str s ↔ Spared str s := by
  obtain ⟨cmd, rest, handler, hcmd, hlook, hfails⟩ := hfail
  obtain ⟨hm, hp, -⟩ := clear_frame T s
  -- Clearing the screen changes neither the machine nor the pool.
  have hfails' : handler.Fails T rest (clear T s) := by
    unfold Handler.Fails at hfails ⊢
    rw [hm, hp]
    exact hfails
  have hcommand : ui_command T str s = handler.run T (arguments rest) rest (clear T s) := by
    unfold ui_command
    rw [hcmd]
    simp only [hlook]
  have hgoes : GoesOn T str s ↔ handler.GoesOn (T := T) rest (clear T s) := by
    unfold GoesOn Handler.GoesOn
    rw [hcommand]
    simp only [Kept.clear_iff]
  rw [hgoes, Handler.goesOn_iff (clear_watched hs.watched) hfails']
  have hspares : handler.Spares rest (clear T s) ↔ handler.Spares rest s := by
    unfold Handler.Spares
    rw [hp]
  rw [hspares]
  constructor
  · intro h
    exact ⟨cmd, rest, handler, hcmd, hlook, h⟩
  · intro h
    -- The line has one command and one handler.
    obtain ⟨cmd', rest', handler', hcmd', hlook', h'⟩ := h
    rw [hcmd] at hcmd'
    cases hcmd'
    rw [hlook] at hlook'
    cases hlook'
    exact h'

end errors

/-- `p @` reports the error, and the session goes on. -/
theorem p_goes_on : GoesOn traps ['p', ' ', '@'] (init 100 () 0) := by
  have hexpr : Expr.expr (guest traps 100) ['@'] = .ok none := rfl
  have hfail : CommandFails traps ['p', ' ', '@'] (init 100 () 0) :=
    ⟨['p'], ['@'], .cmd_p, rfl, rfl, Or.inr hexpr⟩
  exact (command_fails_iff (.init 100 () 0) hfail).mpr
    ⟨['p'], ['@'], .cmd_p, rfl, rfl, Or.inr (by decide)⟩

/-- `w @` and `d` without a number end the session. -/
theorem w_and_d_end_the_session :
    (CommandFails traps ['w', ' ', '@'] (init 100 () 0) ∧
        ¬ GoesOn traps ['w', ' ', '@'] (init 100 () 0)) ∧
      CommandFails traps ['d'] (init 100 () 0) ∧
        ¬ GoesOn traps ['d'] (init 100 () 0) := by
  have hexpr : Expr.expr (guest traps 100) ['@'] = .ok none := rfl
  refine ⟨⟨⟨['w'], ['@'], .cmd_w, rfl, rfl, Or.inr hexpr⟩, fun h => ?_⟩,
    ⟨['d'], [], .cmd_d, rfl, rfl, Or.inl rfl⟩, fun h => ?_⟩
  · obtain ⟨rc, s', hrun, hrc, -⟩ := h
    have hrc' : (ui_command traps ['w', ' ', '@'] (init 100 () 0)).map Prod.fst = .ok (-1) := by
      decide +kernel
    rw [hrun] at hrc'
    cases hrc'
    exact hrc (by decide)
  · obtain ⟨rc, s', hrun, hrc, -⟩ := h
    have hrc' : (ui_command traps ['d'] (init 100 () 0)).map Prod.fst = .ok (-1) := by
      decide +kernel
    rw [hrun] at hrc'
    cases hrc'
    exact hrc (by decide)

end Nemu.Monitor
