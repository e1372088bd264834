import IcsPa.Nemu.Common
import IcsPa.Nemu.Expr.Lexer

/-! # Evaluating an expression

    `src/monitor/debug/expr.c`, from `check_parentheses` to `expr`.  `eval`
    works on ranges `[p, q]` of the token array: it strips a pair of brackets
    around the range, or splits it at its main operator.

    `tokens[p..q]` is a list of tokens here; the loops over a range are
    recursions over it. -/

open CCall

namespace Nemu.Expr

open TK

/-! ## Section 1: Ranges -/

def token (tokens : List Token) (i : Int) : Token := tokens.getD i.toNat ⟨TK_INVAILD, []⟩

/-- `tokens[p]` to `tokens[q]`. -/
def range (tokens : List Token) (p q : Int) : List Token :=
  (tokens.drop p.toNat).take (q - p + 1).toNat

/-- The loop of `check_parentheses`. -/
def brackets_ok : List Token → Nat → Bool
  | [], top => top == 0
  | t :: ts, top =>
      if t.type = TK_LBRKT then brackets_ok ts (top + 1)
      else if t.type = TK_RBRKT then
        if top = 0 then false else brackets_ok ts (top - 1)
      else brackets_ok ts top

def check_parentheses (tokens : List Token) (p q : Int) : Except Fault Bool := do
  cassert (decide (q - p + 1 ≥ 3))
  if (token tokens p).type ≠ TK_LBRKT ∧ (token tokens q).type ≠ TK_RBRKT then return false
  return brackets_ok (range tokens (p + 1) (q - 1)) 0

/-- `-1` as an `uint8_t` for a type without a rule. -/
def get_precedence (type : TK) : Nat :=
  match rules.find? fun rule => rule.token_type == type with
  | some rule => rule.precedence
  | none => UCHAR_MAX

def priority_is_higher (op1 op2 : TK) : Except Fault Bool := do
  cassert (token_is_vaild_op op1)
  cassert (token_is_vaild_op op2)
  return decide (get_precedence op1 < get_precedence op2)

/-- The loop that looks for the main operator, from the right; the head of the
    list is `tokens[i]`. -/
def main_op_loop : List Token → Int → Nat → TK → Int → Except Fault (TK × Int)
  | [], _, _, main_op, main_op_pos => .ok (main_op, main_op_pos)
  | t :: ts, i, need_brkt, main_op, main_op_pos =>
      if !token_is_vaild_op t.type then main_op_loop ts (i - 1) need_brkt main_op main_op_pos
      else if t.type = TK_RBRKT then main_op_loop ts (i - 1) (need_brkt + 1) main_op main_op_pos
      else if need_brkt ≠ 0 then
        let need_brkt := if t.type = TK_LBRKT then need_brkt - 1 else need_brkt
        main_op_loop ts (i - 1) need_brkt main_op main_op_pos
      else do
        let looser ← if main_op = TK_INVAILD then .ok true else priority_is_higher main_op t.type
        if looser then main_op_loop ts (i - 1) 0 t.type i
        else main_op_loop ts (i - 1) 0 main_op main_op_pos

def find_main_op (tokens : List Token) (p q : Int) : Except Fault (TK × Int) :=
  main_op_loop (range tokens p q).reverse q 0 TK_INVAILD 0

/-! ## Section 2: Numbers -/

/-- The value of a digit in `base`, if it is one. -/
def digit_val (base : Nat) (c : Char) : Option Nat :=
  let d :=
    if c.isDigit then c.toNat - '0'.toNat
    else if 'a' ≤ c ∧ c ≤ 'z' then c.toNat - 'a'.toNat + 10
    else if 'A' ≤ c ∧ c ≤ 'Z' then c.toNat - 'A'.toNat + 10
    else base
  if d < base then some d else none

def strtol_digits (base : Nat) : List Char → Nat → Nat
  | [], v => v
  | c :: s, v =>
      match digit_val base c with
      | some d => strtol_digits base s (v * base + d)
      | none => v

/-- The sign that `strtol` allows. -/
def take_sign : List Char → Bool × List Char
  | '-' :: s => (true, s)
  | '+' :: s => (false, s)
  | s => (false, s)

/-- The prefix that `strtol` allows in base 16. -/
def skip_0x : List Char → List Char
  | '0' :: 'x' :: s => s
  | '0' :: 'X' :: s => s
  | s => s

/-- `strtol(s, NULL, base)` with a 64-bit `long`, for base 10 and 16. -/
def strtol (s : List Char) (base : Nat) : Int :=
  let (neg, s) := take_sign (s.dropWhile isspace)
  let s := if base = 16 then skip_0x s else s
  let v : Int := strtol_digits base s 0
  if neg then max (-v) (-2 ^ 63) else min v (2 ^ 63 - 1)

/-- A number behind a vertical tab. -/
example : strtol [Char.ofNat 11, '1'] 10 = 1 := by decide

/-- The conversion to `word_t`. -/
def to_word (isa : Isa) (v : Int) : Nat := (v % (isa.wordSize : Int)).toNat

/-- The conversion to `paddr_t`. -/
def to_paddr (v : Int) : Nat := (v % (2 ^ 32 : Int)).toNat

/-! ## Section 3: `eval` -/

/-- What `eval` reads of the guest: `isa_reg_str2val`, without a value when it
    sets `*success` to false, and `pmem`. -/
structure Guest where
  isa             : Isa
  isa_reg_str2val : List Char → Option Nat
  pmem            : Bytes.Store

/-- `*(word_t *)guest_to_host(addr)`. -/
def Guest.deref (g : Guest) (addr : Nat) : Except Fault Nat :=
  if addr + g.isa.wordBytes ≤ PMEM_SIZE then .ok (Bytes.load g.pmem addr g.isa.wordBytes)
  else .error .outOfBounds

/-- The case `p == q`.  `strcpy` into the 32 characters of `str` needs room for
    the `NUL`. -/
def eval_operand (g : Guest) (t : Token) : Except Fault Nat :=
  if t.str.length ≥ 32 then .error .outOfBounds
  else
    match t.type with
    | TK_NUM => .ok (to_word g.isa (strtol t.str 10))
    | TK_HEX_NUM => .ok (to_word g.isa (strtol t.str 16))
    | TK_REG =>
        match g.isa_reg_str2val t.str with
        | some v => .ok v
        | none => .error .assertion
    | TK_DEREF => g.deref (to_paddr (strtol t.str 16))
    | _ => .error .assertion

/-- The `switch (main_op)`. -/
def eval_op (isa : Isa) (val1 val2 : Nat) : TK → Except Fault Nat
  | TK_PLUS => .ok ((val1 + val2) % isa.wordSize)
  | TK_SUB => .ok ((val1 + (isa.wordSize - val2)) % isa.wordSize)
  | TK_MUX => .ok ((val1 * val2) % isa.wordSize)
  | TK_DIV => do
      cassert (val2 != 0)
      return val1 / val2
  | TK_EQ => .ok (if val1 = val2 then 1 else 0)
  | TK_NEQ => .ok (if val1 ≠ val2 then 1 else 0)
  | TK_AND => .ok (if val1 ≠ 0 ∧ val2 ≠ 0 then 1 else 0)
  | _ => .error .assertion

/-- `eval(p, q)` with calls at most `fuel` deep. -/
def eval (g : Guest) (tokens : List Token) : Nat → Int → Int → Except Fault Nat
  | 0, _, _ => .error .diverges
  | fuel + 1, p, q =>
      if p > q then .error .assertion
      else if p = q then eval_operand g (token tokens p)
      else do
        if ← check_parentheses tokens p q then eval g tokens fuel (p + 1) (q - 1)
        else
          let (main_op, main_op_pos) ← find_main_op tokens p q
          if main_op = TK_INVAILD then .error .assertion
          else
            let val1 ← eval g tokens fuel p (main_op_pos - 1)
            let val2 ← eval g tokens fuel (main_op_pos + 1) q
            eval_op g.isa val1 val2 main_op

/-- `expr(e, &success)`; `none` when it sets `success` to false.  Every call of
    `eval` is on a shorter range than its caller. -/
def expr (g : Guest) (e : List Char) : Except Fault (Option Nat) := do
  match ← make_token e with
  | none => return none
  | some tokens =>
      let res ← eval g tokens (tokens.length + 1) 0 (tokens.length - 1)
      return some res

/-! ## Section 4: Values are words -/

/-- `isa_reg_str2val` returns a `word_t`. -/
def Guest.WordRegs (g : Guest) : Prop :=
  ∀ name v, g.isa_reg_str2val name = some v → v < g.isa.wordSize

theorem one_lt_wordSize (isa : Isa) : 1 < isa.wordSize := by
  unfold Isa.wordSize
  rcases isa.wordBytes_cases with h | h <;> rw [h] <;> decide

theorem to_word_lt (isa : Isa) (v : Int) : to_word isa v < isa.wordSize := by
  have hsize := one_lt_wordSize isa
  have hpos : (0 : Int) < isa.wordSize := by omega
  have hlt := Int.emod_lt_of_pos v hpos
  have hnonneg := Int.emod_nonneg v (ne_of_gt hpos)
  unfold to_word
  omega

theorem eval_operand_lt {g : Guest} (hg : g.WordRegs) {t : Token} {v : Nat}
    (h : eval_operand g t = .ok v) : v < g.isa.wordSize := by
  unfold eval_operand at h
  split at h
  · cases h
  · split at h
    · cases h; exact to_word_lt _ _
    · cases h; exact to_word_lt _ _
    · split at h
      · rename_i hreg
        cases h
        exact hg _ _ hreg
      · cases h
    · unfold Guest.deref at h
      split at h
      · cases h; exact Bytes.load_lt _ _ _
      · cases h
    · cases h

theorem eval_op_lt {isa : Isa} {val1 val2 v : Nat} {op : TK} (h₁ : val1 < isa.wordSize)
    (h : eval_op isa val1 val2 op = .ok v) : v < isa.wordSize := by
  have hsize := one_lt_wordSize isa
  unfold eval_op at h
  split at h
  · cases h; exact Nat.mod_lt _ (by omega)
  · cases h; exact Nat.mod_lt _ (by omega)
  · cases h; exact Nat.mod_lt _ (by omega)
  · obtain ⟨-, -, h⟩ := bind_eq_ok h
    cases h
    exact lt_of_le_of_lt (Nat.div_le_self _ _) h₁
  all_goals
    first
    | cases h; done
    | cases h; split <;> omega

/-- Every value of `eval` is a word, whatever the tokens are. -/
theorem eval_lt {g : Guest} (hg : g.WordRegs) {tokens : List Token} {fuel : Nat} {p q : Int}
    {v : Nat} (h : eval g tokens fuel p q = .ok v) : v < g.isa.wordSize := by
  induction fuel generalizing p q v with
  | zero => cases h
  | succ fuel ih =>
    unfold eval at h
    split at h
    · cases h
    · split at h
      · exact eval_operand_lt hg h
      · obtain ⟨brackets, -, h⟩ := bind_eq_ok h
        split at h
        · exact ih h
        · obtain ⟨⟨main_op, main_op_pos⟩, -, h⟩ := bind_eq_ok h
          dsimp only at h
          split at h
          · cases h
          · obtain ⟨val1, h₁, h⟩ := bind_eq_ok h
            obtain ⟨val2, -, h⟩ := bind_eq_ok h
            exact eval_op_lt (ih h₁) h

theorem expr_lt {g : Guest} (hg : g.WordRegs) {e : List Char} {v : Nat}
    (h : expr g e = .ok (some v)) : v < g.isa.wordSize := by
  obtain ⟨r, -, h⟩ := bind_eq_ok h
  cases r with
  | none => cases h
  | some tokens =>
    obtain ⟨res, heval, h⟩ := bind_eq_ok h
    cases h
    exact eval_lt hg heval

end Nemu.Expr
