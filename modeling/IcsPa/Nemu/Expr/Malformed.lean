import IcsPa.Nemu.Expr.Eval
import IcsPa.Nemu.Expr.Grammar

/-! # Strings that are no expressions

    `expr` reports a failure in one place only, when the lexer finds no rule
    that matches.  Strings made of the lexemes of the language that are put
    together wrongly are not reported: they stop the emulator or have a value. -/

open CCall

namespace Nemu.Expr

/-- The registers of a guest. -/
def Guest.isReg (g : Guest) (name : List Char) : Bool := (g.isa_reg_str2val name).isSome

/-- `expr` fails exactly on the strings that the lexer rejects. -/
theorem expr_none_iff (g : Guest) (s : List Char) : expr g s = .ok none ↔ Rejected s := by
  rw [← make_token_none_iff, expr]
  cases make_token s with
  | error e => simp
  | ok r =>
    cases r with
    | none => simp
    | some tokens =>
      rw [ok_bind]
      show ((eval g tokens (tokens.length + 1) 0 (tokens.length - 1) >>= fun res =>
        pure (some res)) = .ok none) ↔ _
      cases eval g tokens (tokens.length + 1) 0 (tokens.length - 1) <;> simp

/-- On strings that are not well-formed, `expr` reports a failure if and only
    if the lexer rejects them. -/
theorem malformed_fails_iff (g : Guest) (s : List Char) :
    (¬ WellFormed g.isReg s → expr g s = .ok none) ↔
      (¬ WellFormed g.isReg s → Rejected s) := by
  rw [expr_none_iff]

/-- On a guest without registers: the empty string stops the emulator, and the
    bracket of `(1+2 3`, which is never closed, goes unnoticed. -/
theorem malformed_accepted :
    let g : Guest := ⟨.mips32, fun _ => none, fun _ => 0⟩
    (¬ WellFormed g.isReg [] ∧ expr g [] = .error .assertion) ∧
      ¬ WellFormed g.isReg ['(', '1', '+', '2', ' ', '3'] ∧
        expr g ['(', '1', '+', '2', ' ', '3'] = .ok (some 3) := by
  intro g
  have hreg : ∀ name, g.isReg name = true → ∀ c ∈ name, c ≠ '(' ∧ c ≠ ')' := by
    intro name h
    cases h
  refine ⟨⟨fun h => ?_, rfl⟩, fun h => ?_, rfl⟩
  · exact (h.brackets hreg).2 rfl
  · exact absurd (h.brackets hreg).1 (by decide)

end Nemu.Expr
