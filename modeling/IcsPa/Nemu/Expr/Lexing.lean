import IcsPa.Nemu.Expr.Grammar
import IcsPa.Nemu.Expr.Lexer
import Mathlib.Tactic.IntervalCases

/-! # Lexing a printed expression

    The tokens of an expression over decimal literals, printed with any
    blanks, are those of its symbols, one for one.  What a rule matches at
    the start of a symbol is decided by its first characters and, for a
    literal, by the character after it. -/

open CCall Regex RegularExpression

namespace Nemu.Expr

open TK

/-! ## Section 1: What the rules match -/

theorem longest_plus_none {cs : List Char} {c : Char} (s : List Char) (h : c ∉ cs) :
    longest (oneOrMore (anyOf cs)) (c :: s) = none := by
  rw [oneOrMore, longest_single_mul_cons (single_anyOf cs), if_neg h]

/-- Blanks are matched together. -/
theorem match_blanks {n : Nat} {rest : List Char} (hn : 0 < n) (hend : rest.head? ≠ some ' ') :
    match_rule (List.replicate n ' ' ++ rest) = some (TK_NOTYPE, n) := by
  have hne : List.replicate n ' ' ≠ [] := by simp; omega
  have hall : ∀ c ∈ List.replicate n ' ', c ∈ [' '] := by
    intro c hc
    rw [(List.mem_replicate.mp hc).2]
    exact List.mem_singleton_self ' '
  have hstop : EndsRun [' '] rest := by
    intro c hc hmem
    rw [List.mem_singleton.mp hmem] at hc
    exact hend hc
  have hrun := longest_run hne hall hstop
  rw [List.length_replicate] at hrun
  simp [match_rule, rules, hrun]

/-- A property of the characters of a list is checked on each of them. -/
theorem of_chars {cs : List Char} {p : Char → Prop} [DecidablePred p]
    (h : (cs.all fun c => decide (p c)) = true) : ∀ c ∈ cs, p c := by
  intro c hc
  have hp := List.all_eq_true.mp h c hc
  exact of_decide_eq_true hp

theorem mem_digits (c : Char) : c ∈ digits ↔ c.isDigit = true := by
  constructor
  · have hall : ∀ c ∈ digits, c.isDigit = true := of_chars (by rfl)
    exact hall c
  · intro h
    simp only [Char.isDigit, Bool.and_eq_true, decide_eq_true_eq] at h
    have hlo : 48 ≤ c.toNat := h.1
    have hhi : c.toNat ≤ 57 := h.2
    have hc : c = Char.ofNat c.toNat := (Char.ofNat_toNat c).symm
    rw [hc]
    generalize c.toNat = n at hlo hhi
    interval_cases n <;> decide

/-- The first characters of the rules before the literals. -/
theorem digit_ne_symbol : ∀ c ∈ digits,
    c ≠ ' ' ∧ c ≠ '+' ∧ c ≠ '-' ∧ c ≠ '*' ∧ c ≠ '/' ∧ c ≠ '(' ∧ c ≠ ')' ∧ c ≠ '=' ∧ c ≠ '!' ∧
      c ≠ '&' ∧ c ≠ '$' ∧ c ≠ 'x' ∧ c ≠ 'X' ∧ c ≠ 'U' :=
  of_chars (by rfl)

/-- Where a decimal literal may end. -/
def EndsNumber (rest : List Char) : Prop :=
  ∀ c ∈ rest.head?, c ∉ digits ∧ c ≠ 'x' ∧ c ≠ 'X' ∧ c ≠ 'U'

/-- No hex literal starts a run of digits. -/
theorem longest_hex_none {c : Char} {s : List Char}
    (h : ∀ d ∈ s.head?, d ≠ 'x' ∧ d ≠ 'X') : longest hex_number (c :: s) = none := by
  rw [hex_number, longest_single_mul_cons (single_char _)]
  by_cases hc : c = '0'
  · rw [if_pos hc]
    cases s with
    | nil => rw [longest_single_mul_nil (single_anyOf _)]; rfl
    | cons d s =>
      obtain ⟨hx, hX⟩ := h d rfl
      rw [longest_single_mul_cons (single_anyOf _), if_neg (by simp [hx, hX])]
      rfl
  · rw [if_neg hc]

/-- The digits of a literal are matched as a whole, with its `U`. -/
theorem longest_number {ds rest : List Char} (u : Bool) (hne : ds ≠ []) (hds : ∀ c ∈ ds, c ∈ digits)
    (hend : EndsNumber rest) :
    longest number (ds ++ suffix u ++ rest) = some (ds ++ suffix u).length := by
  cases u with
  | true =>
    have hlong : longest number (ds ++ 'U' :: rest) = some (ds.length + 1) :=
      longest_run_optional_some hne hds (by decide)
    simpa [suffix] using hlong
  | false =>
    have hstop : EndsRun digits rest := fun c hc => (hend c hc).1
    have hu : rest.head? ≠ some 'U' := fun h => (hend 'U' h).2.2.2 rfl
    have hlong := longest_run_optional_none hne hds hstop hu
    simpa [number, suffix] using hlong

/-- A decimal literal is matched by the last rule. -/
theorem match_number {ds rest : List Char} (u : Bool) (hne : ds ≠ []) (hds : ∀ c ∈ ds, c ∈ digits)
    (hend : EndsNumber rest) :
    match_rule (ds ++ suffix u ++ rest) = some (TK_NUM, (ds ++ suffix u).length) := by
  have hnum := longest_number u hne hds hend
  obtain ⟨c, ds, rfl⟩ := List.exists_cons_of_ne_nil hne
  have hnox : ∀ d ∈ (ds ++ suffix u ++ rest).head?, d ≠ 'x' ∧ d ≠ 'X' := by
    intro d hd
    cases ds with
    | cons e ds =>
      obtain rfl : e = d := by simpa using hd
      have hsym := digit_ne_symbol e (hds e (by simp))
      exact ⟨hsym.2.2.2.2.2.2.2.2.2.2.2.1, hsym.2.2.2.2.2.2.2.2.2.2.2.2.1⟩
    | nil =>
      cases u with
      | true =>
        obtain rfl : 'U' = d := by simpa [suffix] using hd
        decide
      | false => exact ⟨(hend d hd).2.1, (hend d hd).2.2.1⟩
  have hhex : longest hex_number (c :: (ds ++ suffix u ++ rest)) = none := longest_hex_none hnox
  obtain ⟨h1, h2, h3, h4, h5, h6, h7, h8, h9, h10, h11, -⟩ := digit_ne_symbol c (hds c (by simp))
  have hblank : longest (oneOrMore (anyOf [' '])) (c :: (ds ++ suffix u ++ rest)) = none :=
    longest_plus_none _ (by simpa using h1)
  have hnum' : longest number (c :: (ds ++ suffix u ++ rest)) =
      some (c :: (ds ++ suffix u)).length := hnum
  show match_rule (c :: (ds ++ suffix u ++ rest)) = some (TK_NUM, (c :: (ds ++ suffix u)).length)
  generalize ds ++ suffix u ++ rest = t at hblank hhex hnum' ⊢
  simp [match_rule, rules, hblank, hhex, hnum', longest_single_cons (single_char _),
    longest_single_mul_cons (single_char _), h2, h3, h4, h5, h6, h7, h8, h9, h10, h11]

/-- A hex literal whose digits are decimal is matched by the rule before it. -/
theorem match_hex {x : Char} {ds rest : List Char} (u : Bool) (hx : x = 'x' ∨ x = 'X')
    (hne : ds ≠ []) (hds : ∀ c ∈ ds, c ∈ digits) (hend : EndsNumber rest) :
    match_rule ('0' :: x :: (ds ++ suffix u ++ rest)) =
      some (TK_HEX_NUM, (ds ++ suffix u).length + 2) := by
  have hnum := longest_number u hne hds hend
  have hxmem : x ∈ ['x', 'X'] := by simpa using hx
  have hhex : longest hex_number ('0' :: x :: (ds ++ suffix u ++ rest)) =
      some ((ds ++ suffix u).length + 2) := by
    rw [hex_number, longest_single_mul_cons (single_char _), if_pos rfl,
      longest_single_mul_cons (single_anyOf _), if_pos hxmem, hnum]
    rfl
  have hblank : longest (oneOrMore (anyOf [' '])) ('0' :: x :: (ds ++ suffix u ++ rest)) = none :=
    longest_plus_none _ (by decide)
  generalize x :: (ds ++ suffix u ++ rest) = t at hhex hblank ⊢
  generalize (ds ++ suffix u).length + 2 = n at hhex ⊢
  simp [match_rule, rules, hblank, hhex, longest_single_cons (single_char _),
    longest_single_mul_cons (single_char _)]

/-- A register name is matched as a whole. -/
theorem match_reg {name rest : List Char} (hne : name ≠ []) (hname : ∀ c ∈ name, c ∈ letters)
    (hend : EndsRun letters rest) :
    match_rule ('$' :: (name ++ rest)) = some (TK_REG, name.length + 1) := by
  have hrun := longest_run hne hname hend
  have hblank : longest (oneOrMore (anyOf [' '])) ('$' :: (name ++ rest)) = none :=
    longest_plus_none _ (by decide)
  simp [match_rule, rules, hblank, hrun, longest_single_cons (single_char _),
    longest_single_mul_cons (single_char _)]

/-! ## Section 2: Symbols and their tokens -/

def BinOp.tk : BinOp → TK
  | plus => TK_PLUS
  | sub => TK_SUB
  | mul => TK_MUX
  | div => TK_DIV
  | eq => TK_EQ
  | neq => TK_NEQ
  | and => TK_AND

/-- The token of a symbol of an arithmetic expression. -/
def Sym.token : Sym → Token
  | num ds _ => ⟨TK_NUM, ds⟩
  | hex x ds u => ⟨TK_HEX_NUM, (hex x ds u).text⟩
  | reg name => ⟨TK_REG, name⟩
  | star => ⟨TK_DEREF, []⟩
  | op o => ⟨o.tk, []⟩
  | lbrkt => ⟨TK_LBRKT, []⟩
  | rbrkt => ⟨TK_RBRKT, []⟩

/-- The last symbol of an operand. -/
def Sym.endsOperand : Sym → Bool
  | num _ _ => true
  | hex _ _ _ => true
  | reg _ => true
  | rbrkt => true
  | _ => false

/-- A symbol that stands after an operand. -/
def Sym.afterOperand : Sym → Bool
  | op _ => true
  | rbrkt => true
  | _ => false

/-- Operators and closing brackets stand after operands, all other symbols do
    not; `prev` says whether an operand comes before. -/
def WellPlaced : Bool → List Sym → Prop
  | _, [] => True
  | prev, y :: ys => y.afterOperand = prev ∧ WellPlaced y.endsOperand ys

theorem Ast.wellPlaced (e : Ast) {rest : List Sym} (h : WellPlaced true rest) :
    WellPlaced false (e.syms ++ rest) := by
  induction e generalizing rest with
  | leaf o =>
    cases o with
    | deref x ds u => exact ⟨rfl, rfl, h⟩
    | _ => exact ⟨rfl, h⟩
  | paren e ih =>
    have hin : WellPlaced false (e.syms ++ (.rbrkt :: rest)) := ih ⟨rfl, h⟩
    rw [syms, List.cons_append, List.append_assoc]
    exact ⟨rfl, hin⟩
  | bin op l r ihl ihr =>
    have hin : WellPlaced false (l.syms ++ (.op op :: (r.syms ++ rest))) := ihl ⟨rfl, ihr h⟩
    rw [syms, List.append_assoc]
    exact hin

/-- An operand ends where the next symbol of an expression, a blank or the end
    of the string is. -/
theorem Printed.endsOperand {ys : List Sym} {s : List Char} (h : Printed ys s)
    (hplace : WellPlaced true ys) : EndsRun (digits ++ letters) s := by
  have hblank : ∀ n rest, 0 < n → EndsRun (digits ++ letters) (List.replicate n ' ' ++ rest) := by
    intro n rest hn c hc
    obtain ⟨m, rfl⟩ : ∃ m, n = m + 1 := ⟨n - 1, by omega⟩
    obtain rfl : ' ' = c := by simpa [List.replicate_succ] using hc
    decide
  cases h with
  | nil n =>
    rcases Nat.eq_zero_or_pos n with rfl | hn
    · intro c hc; simp at hc
    · simpa using hblank n [] hn
  | cons n y h =>
    rcases Nat.eq_zero_or_pos n with rfl | hn
    · have hafter : y.afterOperand = true := hplace.1
      cases y with
      | op o =>
        intro c hc
        cases o <;>
          (obtain rfl := by simpa [Sym.text, BinOp.text] using hc
           decide)
      | rbrkt =>
        intro c hc
        obtain rfl : ')' = c := by simpa [Sym.text] using hc
        decide
      | _ => cases hafter
    · exact hblank n _ hn

theorem EndsNumber.of_endsRun {s : List Char} (h : EndsRun (digits ++ letters) s) :
    EndsNumber s := by
  intro c hc
  have hno := h c hc
  rw [List.mem_append, not_or] at hno
  refine ⟨hno.1, ?_, ?_, ?_⟩ <;> (intro he; subst he; exact hno.2 (by decide))

theorem Printed.endsNumber {ys : List Sym} {s : List Char} (h : Printed ys s)
    (hplace : WellPlaced true ys) : EndsNumber s :=
  .of_endsRun (h.endsOperand hplace)

/-! ## Section 3: The tokens of a printed expression -/

/-- The type of the rule that matches a symbol. -/
def Sym.rule_type : Sym → TK
  | num _ _ => TK_NUM
  | hex _ _ _ => TK_HEX_NUM
  | reg _ => TK_REG
  | star => TK_MUX
  | op o => o.tk
  | lbrkt => TK_LBRKT
  | rbrkt => TK_RBRKT

theorem match_op (o : BinOp) (s : List Char) :
    match_rule (o.text ++ s) = some (o.tk, o.text.length) := by
  cases o <;>
    simp [BinOp.text, BinOp.tk, match_rule, rules, longest_plus_none,
      longest_single_cons (single_char _), longest_single_mul_cons (single_char _)]

theorem match_bracket (s : List Char) :
    match_rule ('(' :: s) = some (TK_LBRKT, 1) ∧ match_rule (')' :: s) = some (TK_RBRKT, 1) := by
  constructor <;>
    simp [match_rule, rules, longest_plus_none, longest_single_cons (single_char _)]

/-- A symbol of an arithmetic expression is matched as a whole. -/
theorem match_sym {y : Sym} {rest : List Char} (hy : y.Arith)
    (hend : y.endsOperand = true → EndsNumber rest) :
    match_rule (y.text ++ rest) = some (y.rule_type, y.text.length) := by
  cases y with
  | num ds u =>
    obtain ⟨hne, hds, -, -⟩ := hy
    exact match_number u hne (fun c hc => (mem_digits c).mpr (hds c hc)) (hend rfl)
  | op o => exact match_op o rest
  | lbrkt => exact (match_bracket rest).1
  | rbrkt => exact (match_bracket rest).2
  | hex x ds u => exact absurd hy id
  | reg name => exact absurd hy id
  | star => exact absurd hy id

theorem decValue_ge (ds : List Char) (v : Nat) :
    v * 10 ^ ds.length ≤ ds.foldl (fun v c => 10 * v + (c.toNat - '0'.toNat)) v := by
  induction ds generalizing v with
  | nil => simp
  | cons c ds ih =>
    have hstep : v * 10 ^ (c :: ds).length ≤ (10 * v + (c.toNat - '0'.toNat)) * 10 ^ ds.length := by
      rw [List.length_cons, Nat.pow_succ]
      calc
        v * (10 ^ ds.length * 10) = (10 * v) * 10 ^ ds.length := by
          rw [Nat.mul_comm (10 ^ ds.length) 10, ← Nat.mul_assoc, Nat.mul_comm v 10]
        _ ≤ (10 * v + (c.toNat - '0'.toNat)) * 10 ^ ds.length :=
          Nat.mul_le_mul_right _ (Nat.le_add_right _ _)
    exact hstep.trans (ih _)

/-- A literal below 2^32 without leading zeros has at most ten digits. -/
theorem num_length_le {ds : List Char} {u : Bool} (h : (Sym.num ds u).Arith) : ds.length ≤ 10 := by
  obtain ⟨hne, hds, hzero, hlt⟩ := h
  obtain ⟨c, ds, rfl⟩ := List.exists_cons_of_ne_nil hne
  by_cases hc : c = '0'
  · have hone := hzero (by rw [hc]; rfl)
    rw [hone]
    decide
  · have hdigit := hds c List.mem_cons_self
    have hpos : 1 ≤ 10 * 0 + (c.toNat - '0'.toNat) := by
      have hmem := (mem_digits c).mpr hdigit
      have hall : ∀ c ∈ digits, c ≠ '0' → 1 ≤ 10 * 0 + (c.toNat - '0'.toNat) :=
        of_chars (by rfl)
      exact hall c hmem hc
    by_contra hlen
    have hlong : 10 ≤ ds.length := by
      rw [List.length_cons] at hlen
      omega
    have hpow : (10 : Nat) ^ 10 ≤ 10 ^ ds.length := Nat.pow_le_pow_right (by decide) hlong
    have hge := decValue_ge ds (10 * 0 + (c.toNat - '0'.toNat))
    have hval : 10 ^ ds.length ≤ decValue (c :: ds) :=
      (Nat.le_mul_of_pos_left _ hpos).trans hge
    omega

/-- Only the digits of a literal are stored. -/
theorem num_str_text {ds : List Char} (u : Bool) (hds : ∀ c ∈ ds, c.isDigit = true) :
    num_str (ds ++ suffix u) = ds := by
  cases u with
  | true => simp [num_str, suffix]
  | false =>
    have hlast : ds.getLast? ≠ some 'U' := by
      intro h
      have hU := hds 'U' (List.mem_of_getLast? h)
      exact absurd hU (by decide)
    simp [num_str, suffix, hlast]

theorem memset_fits_of_le {n : Nat} (h : n ≤ 63000) : memset_fits n = true := by
  unfold memset_fits str_fits str_offset sizeof_Token TOKENS_MAX_SIZE
  rw [decide_eq_true_eq]
  omega

/-- A matched symbol of an arithmetic expression becomes its token. -/
theorem add_token_sym {y : Sym} {tokens : List Token} (hy : y.Arith)
    (hroom : tokens.length ≤ 63000)
    (hstar : y.afterOperand = true → star_type tokens.getLast? = TK_MUX) :
    add_token tokens y.rule_type y.text = .ok (tokens ++ [y.token]) := by
  rw [add_token, if_pos (memset_fits_of_le hroom)]
  cases y with
  | num ds u =>
    have hlen : (ds ++ suffix u).length < 32 := by
      have hds := num_length_le hy
      have hu : (suffix u).length ≤ 1 := by cases u <;> decide
      rw [List.length_append]
      omega
    show (cassert (decide ((ds ++ suffix u).length < 32)) >>= fun _ =>
      pure (tokens ++ [⟨TK_NUM, num_str (ds ++ suffix u)⟩])) = _
    rw [decide_eq_true hlen, num_str_text u hy.2.1]
    rfl
  | op o =>
    cases o with
    | mul =>
      have hmux := hstar rfl
      show Except.ok (tokens ++ [⟨star_type tokens.getLast?, []⟩]) = _
      rw [hmux]
      rfl
    | _ => rfl
  | lbrkt => rfl
  | rbrkt => rfl
  | hex x ds u => exact absurd hy id
  | reg name => exact absurd hy id
  | star => exact absurd hy id

/-- Blanks change nothing. -/
theorem loop_blanks (n : Nat) {rest : List Char} (hend : rest.head? ≠ some ' ')
    {tokens : List Token} (hroom : tokens.length ≤ 63000) {fuel : Nat}
    (hfuel : (List.replicate n ' ' ++ rest).length ≤ fuel) :
    ∃ fuel', rest.length ≤ fuel' ∧
      make_token_loop fuel tokens (List.replicate n ' ' ++ rest) =
        make_token_loop fuel' tokens rest := by
  rcases Nat.eq_zero_or_pos n with rfl | hn
  · exact ⟨fuel, by simpa using hfuel, by simp⟩
  · obtain ⟨m, rfl⟩ : ∃ m, n = m + 1 := ⟨n - 1, by omega⟩
    rw [List.length_append, List.length_replicate] at hfuel
    obtain ⟨k, rfl⟩ : ∃ k, fuel = k + 1 := ⟨fuel - 1, by omega⟩
    refine ⟨k, by omega, ?_⟩
    have hmatch := match_blanks hn hend
    have hcons : List.replicate (m + 1) ' ' ++ rest = ' ' :: (List.replicate m ' ' ++ rest) := rfl
    rw [hcons] at hmatch ⊢
    rw [make_token_loop, hmatch]
    show (add_token tokens TK_NOTYPE _ >>= fun tokens => make_token_loop k tokens _) = _
    rw [add_token, if_pos (memset_fits_of_le hroom), store_token, ok_bind, ← hcons,
      List.drop_append_of_le_length (by simp), List.drop_of_length_le (by simp), List.nil_append]

theorem Sym.Arith.text_cons {y : Sym} (hy : y.Arith) : ∃ c s, y.text = c :: s ∧ c ≠ ' ' := by
  cases y with
  | num ds u =>
    obtain ⟨c, ds, rfl⟩ := List.exists_cons_of_ne_nil hy.1
    have hmem := (mem_digits c).mpr (hy.2.1 c List.mem_cons_self)
    exact ⟨c, ds ++ suffix u, rfl, (digit_ne_symbol c hmem).1⟩
  | op o => cases o <;> exact ⟨_, _, rfl, by decide⟩
  | lbrkt => exact ⟨_, _, rfl, by decide⟩
  | rbrkt => exact ⟨_, _, rfl, by decide⟩
  | hex x ds u => exact absurd hy id
  | reg name => exact absurd hy id
  | star => exact absurd hy id

/-- Run lemma: the loop turns the symbols into their tokens. -/
theorem make_token_loop_printed {ys : List Sym} {s : List Char} (hp : Printed ys s)
    (harith : ∀ y ∈ ys, y.Arith) {prev : Bool} (hplace : WellPlaced prev ys)
    {tokens : List Token} (hstar : prev = true → star_type tokens.getLast? = TK_MUX)
    (hroom : tokens.length + ys.length ≤ 63000) {fuel : Nat} (hfuel : s.length ≤ fuel) :
    make_token_loop fuel tokens s = .ok (some (tokens ++ ys.map Sym.token)) := by
  induction hp generalizing prev tokens fuel with
  | nil n =>
    have hblank : List.replicate n ' ' = List.replicate n ' ' ++ [] := by simp
    rw [hblank] at hfuel ⊢
    obtain ⟨k, -, hloop⟩ := loop_blanks n (by simp) hroom hfuel
    rw [hloop]
    cases k <;> simp [make_token_loop]
  | cons n y h ih =>
    rename_i ys s
    have hy := harith y List.mem_cons_self
    rw [List.length_cons] at hroom
    obtain ⟨c, t, htext, hc⟩ := hy.text_cons
    have hhead : (y.text ++ s).head? ≠ some ' ' := by rw [htext]; simpa using hc
    have htokens : tokens.length ≤ 63000 := by omega
    obtain ⟨k, hk, hloop⟩ := loop_blanks n hhead htokens hfuel
    rw [hloop]
    -- One round for the symbol, and the induction hypothesis for the rest.
    have hlen : y.text.length = t.length + 1 := by rw [htext]; rfl
    rw [List.length_append] at hk
    obtain ⟨k, rfl⟩ : ∃ j, k = j + 1 := ⟨k - 1, by omega⟩
    have hmatch : match_rule (y.text ++ s) = some (y.rule_type, y.text.length) :=
      match_sym hy fun hends => h.endsNumber (hends ▸ hplace.2)
    have hcons : y.text ++ s = c :: (t ++ s) := by rw [htext]; rfl
    have hadd := add_token_sym hy htokens fun hafter => hstar (hplace.1 ▸ hafter)
    rw [hcons] at hmatch ⊢
    rw [make_token_loop, hmatch]
    show (add_token tokens y.rule_type _ >>= fun tokens => make_token_loop k tokens _) = _
    rw [← hcons, List.take_left, List.drop_left, hadd, ok_bind]
    rw [ih (fun z hz => harith z (List.mem_cons_of_mem y hz)) hplace.2 ?_ ?_ (by omega)]
    · simp
    · intro hends
      rw [List.getLast?_concat]
      cases y with
      | num ds u => rfl
      | rbrkt => rfl
      | hex x ds u => exact absurd hy id
      | reg name => exact absurd hy id
      | op o => cases hends
      | lbrkt => cases hends
      | star => cases hends
    · rw [List.length_append, List.length_singleton]
      omega

/-- The tokens of a printed arithmetic expression are those of its symbols. -/
theorem make_token_printed {e : Ast} {s : List Char} (hp : Printed e.syms s)
    (harith : ∀ y ∈ e.syms, y.Arith) (hroom : e.syms.length ≤ 63000) :
    make_token s = .ok (some (e.syms.map Sym.token)) := by
  have hplace : WellPlaced false (e.syms ++ []) := e.wellPlaced trivial
  rw [List.append_nil] at hplace
  exact make_token_loop_printed hp harith hplace (by simp) (by simpa using hroom) (Nat.le_refl _)

end Nemu.Expr
