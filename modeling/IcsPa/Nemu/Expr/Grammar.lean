import Mathlib.Data.List.Basic

/-! # The language of the debugger's expressions

    The language itself, apart from the code: its syntax trees, how they are
    printed, how C reads a printed expression and what value it gives it.

    A tree is written down as its symbols, with any number of blanks before,
    between and after them.  One symbol sequence has many trees, since
    operators need no brackets; `CParse` singles out the one that C reads. -/

namespace Nemu.Expr

/-! ## Section 1: Syntax -/

inductive BinOp where
  | plus
  | sub
  | mul
  | div
  | eq
  | neq
  | and
  deriving DecidableEq, Repr

def BinOp.text : BinOp → List Char
  | plus => ['+']
  | sub => ['-']
  | mul => ['*']
  | div => ['/']
  | eq => ['=', '=']
  | neq => ['!', '=']
  | and => ['&', '&']

/-- The symbols an expression is written with.  `x` is the second character of
    a hex literal, `u` says whether a literal ends in `U`. -/
inductive Sym where
  | num (ds : List Char) (u : Bool)
  | hex (x : Char) (ds : List Char) (u : Bool)
  | reg (name : List Char)
  | star
  | op (op : BinOp)
  | lbrkt
  | rbrkt
  deriving DecidableEq, Repr

def suffix (u : Bool) : List Char := if u then ['U'] else []

def Sym.text : Sym → List Char
  | num ds u => ds ++ suffix u
  | hex x ds u => '0' :: x :: (ds ++ suffix u)
  | reg name => '$' :: name
  | star => ['*']
  | op o => o.text
  | lbrkt => ['(']
  | rbrkt => [')']

inductive Operand where
  | num (ds : List Char) (u : Bool)
  | hex (x : Char) (ds : List Char) (u : Bool)
  | reg (name : List Char)
  | deref (x : Char) (ds : List Char) (u : Bool)
  deriving DecidableEq, Repr

def Operand.syms : Operand → List Sym
  | num ds u => [.num ds u]
  | hex x ds u => [.hex x ds u]
  | reg name => [.reg name]
  | deref x ds u => [.star, .hex x ds u]

inductive Ast where
  | leaf (o : Operand)
  | paren (e : Ast)
  | bin (op : BinOp) (l r : Ast)
  deriving DecidableEq, Repr

def Ast.syms : Ast → List Sym
  | leaf o => o.syms
  | paren e => .lbrkt :: (e.syms ++ [.rbrkt])
  | bin op l r => l.syms ++ .op op :: r.syms

/-- `s` is the text of the symbols with blanks around them. -/
inductive Printed : List Sym → List Char → Prop
  | nil (n : Nat) : Printed [] (List.replicate n ' ')
  | cons (n : Nat) (y : Sym) {ys : List Sym} {s : List Char} (h : Printed ys s) :
      Printed (y :: ys) (List.replicate n ' ' ++ (y.text ++ s))

def isHexDigit (c : Char) : Bool :=
  c.isDigit || ('a' ≤ c && c ≤ 'f') || ('A' ≤ c && c ≤ 'F')

/-- The literals and register names of the language; `isReg` are the registers
    of the machine. -/
def Operand.Valid (isReg : List Char → Bool) : Operand → Prop
  | num ds _ => ds ≠ [] ∧ ∀ c ∈ ds, c.isDigit = true
  | hex x ds _ => (x = 'x' ∨ x = 'X') ∧ ds ≠ [] ∧ ∀ c ∈ ds, isHexDigit c = true
  | reg name => isReg name = true
  | deref x ds _ => (x = 'x' ∨ x = 'X') ∧ ds ≠ [] ∧ ∀ c ∈ ds, isHexDigit c = true

def Ast.Valid (isReg : List Char → Bool) : Ast → Prop
  | leaf o => o.Valid isReg
  | paren e => e.Valid isReg
  | bin _ l r => l.Valid isReg ∧ r.Valid isReg

/-- The well-formed strings of the language. -/
def WellFormed (isReg : List Char → Bool) (s : List Char) : Prop :=
  ∃ e : Ast, e.Valid isReg ∧ Printed e.syms s

/-! ### What every well-formed string has -/

theorem Ast.syms_ne_nil (e : Ast) : e.syms ≠ [] := by
  cases e with
  | leaf o => cases o <;> simp [syms, Operand.syms]
  | paren e => simp [syms]
  | bin op l r => simp [syms]

theorem Ast.brackets_balanced (e : Ast) : e.syms.count .lbrkt = e.syms.count .rbrkt := by
  induction e with
  | leaf o => cases o <;> rfl
  | paren e ih => simp [syms, ih]
  | bin op l r ihl ihr => simp [syms, ihl, ihr]

/-- No symbol of a valid expression is empty, and brackets are written only by
    the bracket symbols. -/
structure Sym.Plain (y : Sym) : Prop where
  ne_nil : y.text ≠ []
  open_  : y.text.count '(' = [y].count .lbrkt
  close  : y.text.count ')' = [y].count .rbrkt

/-- Characters that are no brackets. -/
theorem count_brackets {s : List Char} (h : ∀ c ∈ s, c ≠ '(' ∧ c ≠ ')') :
    s.count '(' = 0 ∧ s.count ')' = 0 :=
  ⟨List.count_eq_zero.mpr fun hmem => (h _ hmem).1 rfl,
    List.count_eq_zero.mpr fun hmem => (h _ hmem).2 rfl⟩

theorem suffix_no_bracket {u : Bool} {c : Char} (h : c ∈ suffix u) : c ≠ '(' ∧ c ≠ ')' := by
  cases u with
  | true =>
    obtain rfl := List.mem_singleton.mp h
    decide
  | false => cases h

/-- A symbol whose text is nonempty and has no brackets, and is none. -/
theorem Sym.plain_of_no_bracket {y : Sym} (hne : y.text ≠ [])
    (htext : ∀ c ∈ y.text, c ≠ '(' ∧ c ≠ ')') (hy : y ≠ .lbrkt ∧ y ≠ .rbrkt) : y.Plain := by
  obtain ⟨ho, hc⟩ := count_brackets htext
  refine ⟨hne, ?_, ?_⟩
  · rw [ho, List.count_singleton, if_neg (by simpa using hy.1)]
  · rw [hc, List.count_singleton, if_neg (by simpa using hy.2)]

theorem isHexDigit_no_bracket {c : Char} (h : isHexDigit c = true) : c ≠ '(' ∧ c ≠ ')' := by
  constructor
  · rintro rfl; exact absurd h (by decide)
  · rintro rfl; exact absurd h (by decide)

/-- The symbols of a valid expression are plain, if register names have no
    brackets. -/
theorem Ast.syms_plain {isReg : List Char → Bool}
    (hreg : ∀ name, isReg name = true → ∀ c ∈ name, c ≠ '(' ∧ c ≠ ')') {e : Ast}
    (h : e.Valid isReg) : ∀ y ∈ e.syms, y.Plain := by
  -- No character of a literal is a bracket.
  have hhex : ∀ x ds u, (x = 'x' ∨ x = 'X') ∧ ds ≠ [] ∧ (∀ c ∈ ds, isHexDigit c = true) →
      (Sym.hex x ds u).Plain := by
    rintro x ds u ⟨hx, -, hds⟩
    refine Sym.plain_of_no_bracket (by simp [Sym.text]) (fun c hc => ?_) (by simp)
    simp only [Sym.text, List.mem_cons, List.mem_append] at hc
    rcases hc with rfl | rfl | hc | hc
    · decide
    · rcases hx with rfl | rfl <;> decide
    · exact isHexDigit_no_bracket (hds c hc)
    · exact suffix_no_bracket hc
  induction e with
  | leaf o =>
    intro y hy
    cases o with
    | num ds u =>
      obtain rfl := List.mem_singleton.mp hy
      obtain ⟨hne, hds⟩ := h
      refine Sym.plain_of_no_bracket (by simp [Sym.text, hne]) (fun c hc => ?_) (by simp)
      rcases List.mem_append.mp hc with hc | hc
      · exact isHexDigit_no_bracket (by simp [isHexDigit, hds c hc])
      · exact suffix_no_bracket hc
    | hex x ds u =>
      obtain rfl := List.mem_singleton.mp hy
      exact hhex x ds u h
    | reg name =>
      obtain rfl := List.mem_singleton.mp hy
      refine Sym.plain_of_no_bracket (by simp [Sym.text]) (fun c hc => ?_) (by simp)
      rcases List.mem_cons.mp hc with rfl | hc
      · decide
      · exact hreg name h c hc
    | deref x ds u =>
      rcases List.mem_cons.mp hy with rfl | hy
      · exact ⟨by decide, by decide, by decide⟩
      · obtain rfl := List.mem_singleton.mp hy
        exact hhex x ds u h
  | paren e ih =>
    intro y hy
    simp only [syms, List.mem_cons, List.mem_append, List.not_mem_nil, or_false] at hy
    rcases hy with rfl | hy | rfl
    · exact ⟨by decide, by decide, by decide⟩
    · exact ih h y hy
    · exact ⟨by decide, by decide, by decide⟩
  | bin op l r ihl ihr =>
    intro y hy
    simp only [syms, List.mem_cons, List.mem_append] at hy
    rcases hy with hy | rfl | hy
    · exact ihl h.1 y hy
    · cases op <;> exact ⟨by decide, by decide, by decide⟩
    · exact ihr h.2 y hy

/-- The brackets of a printed sequence of plain symbols, and its length. -/
theorem Printed.counts {ys : List Sym} {s : List Char} (h : Printed ys s)
    (hplain : ∀ y ∈ ys, y.Plain) :
    s.count '(' = ys.count .lbrkt ∧ s.count ')' = ys.count .rbrkt ∧ ys.length ≤ s.length := by
  have hblank : ∀ n : Nat, (List.replicate n ' ').count '(' = 0 ∧
      (List.replicate n ' ').count ')' = 0 := fun n =>
    count_brackets fun c hc => by rw [(List.mem_replicate.mp hc).2]; decide
  induction h with
  | nil n => exact ⟨(hblank n).1, (hblank n).2, by simp⟩
  | cons n y h ih =>
    rename_i ys s
    obtain ⟨hne, hopen, hclose⟩ := hplain y List.mem_cons_self
    obtain ⟨ih₁, ih₂, ih₃⟩ := ih fun z hz => hplain z (List.mem_cons_of_mem y hz)
    have hsplit : ∀ x, (y :: ys).count x = [y].count x + ys.count x := fun x => by
      rw [← List.count_append]; rfl
    refine ⟨?_, ?_, ?_⟩
    · rw [List.count_append, List.count_append, (hblank n).1, hopen, ih₁, hsplit, Nat.zero_add]
    · rw [List.count_append, List.count_append, (hblank n).2, hclose, ih₂, hsplit, Nat.zero_add]
    · have hpos : 0 < y.text.length := List.length_pos_iff.mpr hne
      simp only [List.length_cons, List.length_append, List.length_replicate]
      omega

/-- A well-formed string has as many opening as closing brackets, and is not
    empty. -/
theorem WellFormed.brackets {isReg : List Char → Bool}
    (hreg : ∀ name, isReg name = true → ∀ c ∈ name, c ≠ '(' ∧ c ≠ ')') {s : List Char}
    (h : WellFormed isReg s) : s.count '(' = s.count ')' ∧ s ≠ [] := by
  obtain ⟨e, hvalid, hp⟩ := h
  obtain ⟨hopen, hclose, hlen⟩ := hp.counts (Ast.syms_plain hreg hvalid)
  refine ⟨by rw [hopen, hclose, e.brackets_balanced], ?_⟩
  rintro rfl
  exact e.syms_ne_nil (List.length_eq_zero_iff.mp (Nat.le_zero.mp hlen))

/-! ## Section 2: How C reads an expression -/

/-- Binding strength: `*` and `/`, then `+` and `-`, then `==` and `!=`, then
    `&&`. -/
def BinOp.level : BinOp → Nat
  | mul | div => 3
  | plus | sub => 2
  | eq | neq => 1
  | and => 0

/-- The operators outside all brackets, from left to right. -/
def Ast.outerOps : Ast → List BinOp
  | leaf _ => []
  | paren _ => []
  | bin op l r => l.outerOps ++ op :: r.outerOps

/-- The tree that C reads: what stands left of an operator binds at least as
    tightly, what stands right of it more tightly. -/
def Ast.CParse : Ast → Prop
  | leaf _ => True
  | paren e => e.CParse
  | bin op l r => l.CParse ∧ r.CParse ∧
      (∀ o ∈ l.outerOps, op.level ≤ o.level) ∧ ∀ o ∈ r.outerOps, op.level < o.level

/-- The value of decimal digits. -/
def decValue (ds : List Char) : Nat :=
  ds.foldl (fun v c => 10 * v + (c.toNat - '0'.toNat)) 0

/-- The operators of C on `unsigned`; none when a divisor is 0. -/
def BinOp.apply (a b : UInt32) : BinOp → Option UInt32
  | plus => some (a + b)
  | sub => some (a - b)
  | mul => some (a * b)
  | div => if b = 0 then none else some (a / b)
  | eq => some (if a = b then 1 else 0)
  | neq => some (if a ≠ b then 1 else 0)
  | and => some (if a ≠ 0 ∧ b ≠ 0 then 1 else 0)

/-- The value of an expression over decimal literals, over 32-bit unsigned
    arithmetic. -/
def Ast.value : Ast → Option UInt32
  | leaf (.num ds _) => some (UInt32.ofNat (decValue ds))
  | leaf _ => none
  | paren e => e.value
  | bin op l r => do
      let a ← l.value
      let b ← r.value
      op.apply a b

/-- The symbols of such expressions: operators, brackets, and literals below
    2^32 without leading zeros. -/
def Sym.Arith : Sym → Prop
  | num ds _ => ds ≠ [] ∧ (∀ c ∈ ds, c.isDigit = true) ∧ (ds.head? = some '0' → ds = ['0']) ∧
      decValue ds < 0x100000000
  | op _ => True
  | lbrkt => True
  | rbrkt => True
  | _ => False

/-! ### Every expression is read in one way -/

/-- Attach an operator and an operand at the right end of a tree. -/
def Ast.attach : Ast → BinOp → Ast → Ast
  | bin op' l r, op, a =>
      if op'.level < op.level then bin op' l (r.attach op a) else bin op (bin op' l r) a
  | e, op, a => bin op e a

theorem Ast.attach_syms (op : BinOp) (a e : Ast) :
    (e.attach op a).syms = e.syms ++ .op op :: a.syms := by
  induction e with
  | leaf o => rfl
  | paren e _ => rfl
  | bin op' l r _ ih =>
    rw [attach]
    by_cases h : op'.level < op.level
    · rw [if_pos h, syms, syms, ih, List.append_assoc, List.cons_append]
    · rw [if_neg h]; rfl

theorem Ast.attach_outerOps (op : BinOp) {a : Ast} (ha : a.outerOps = []) (e : Ast) :
    (e.attach op a).outerOps = e.outerOps ++ [op] := by
  induction e with
  | leaf o => simp [attach, outerOps, ha]
  | paren e _ => simp [attach, outerOps, ha]
  | bin op' l r _ ih =>
    rw [attach]
    by_cases h : op'.level < op.level
    · rw [if_pos h, outerOps, outerOps, ih, List.append_assoc, List.cons_append]
    · rw [if_neg h, outerOps, ha]

/-- The root of a tree of C is its loosest operator. -/
theorem Ast.CParse.root_le {op : BinOp} {l r : Ast} (h : (bin op l r).CParse) {o : BinOp}
    (ho : o ∈ (bin op l r).outerOps) : op.level ≤ o.level := by
  rw [outerOps, List.mem_append, List.mem_cons] at ho
  rcases ho with ho | rfl | ho
  · exact h.2.2.1 o ho
  · exact Nat.le_refl _
  · exact Nat.le_of_lt (h.2.2.2 o ho)

theorem Ast.attach_cParse (op : BinOp) {a : Ast} (ha : a.outerOps = []) (hca : a.CParse)
    {e : Ast} (he : e.CParse) : (e.attach op a).CParse := by
  have hr : ∀ o ∈ a.outerOps, op.level < o.level := by rw [ha]; simp
  induction e with
  | leaf o => exact ⟨he, hca, by simp [outerOps], hr⟩
  | paren e _ => exact ⟨he, hca, by simp [outerOps], hr⟩
  | bin op' l r _ ih =>
    rw [attach]
    by_cases h : op'.level < op.level
    · rw [if_pos h]
      refine ⟨he.1, ih he.2.1, he.2.2.1, fun o ho => ?_⟩
      rw [attach_outerOps op ha, List.mem_append, List.mem_singleton] at ho
      rcases ho with ho | rfl
      · exact he.2.2.2 o ho
      · exact h
    · rw [if_neg h]
      refine ⟨he, hca, fun o ho => ?_, hr⟩
      have hle := he.root_le ho
      omega

/-- Every symbol sequence of a tree has a tree that C reads: attach the
    operands from left to right. -/
theorem Ast.exists_cParse_attach (e t : Ast) (ht : t.CParse) (op : BinOp) :
    (∃ c : Ast, c.CParse ∧ c.syms = t.syms ++ .op op :: e.syms) ∧
      ∃ c : Ast, c.CParse ∧ c.syms = e.syms := by
  induction e generalizing t op with
  | leaf o =>
    have hatom : (leaf o).outerOps = [] := rfl
    exact ⟨⟨t.attach op (leaf o), attach_cParse op hatom trivial ht, attach_syms op _ t⟩,
      leaf o, trivial, rfl⟩
  | paren e ih =>
    obtain ⟨-, c, hc, hsyms⟩ := ih t ht op
    have hatom : (paren c).outerOps = [] := rfl
    have hps : (paren c).syms = (paren e).syms := by rw [syms, syms, hsyms]
    refine ⟨⟨t.attach op (paren c), attach_cParse op hatom hc ht, ?_⟩, paren c, hc, hps⟩
    rw [attach_syms, hps]
  | bin op' l r ihl ihr =>
    obtain ⟨⟨tl, htl, htls⟩, cl, hcl, hcls⟩ := ihl t ht op
    obtain ⟨⟨c, hc, hcs⟩, -⟩ := ihr tl htl op'
    obtain ⟨⟨d, hd, hds⟩, -⟩ := ihr cl hcl op'
    refine ⟨⟨c, hc, ?_⟩, d, hd, ?_⟩
    · rw [hcs, htls, syms]; simp
    · rw [hds, hcls, syms]

theorem Ast.exists_cParse (e : Ast) : ∃ c : Ast, c.CParse ∧ c.syms = e.syms :=
  (e.exists_cParse_attach (leaf (.reg [])) trivial .plus).2

end Nemu.Expr
