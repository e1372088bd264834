import IcsPa.Nemu.Expr.Lexing

/-! # One token for each lexeme

    What `make_token` should make of a well-formed expression: one token for
    each lexeme, a dereference and its address together in one, and `*`
    between two operands a multiplication.

    The lexer tells the two kinds of `*` apart by the token before it, and
    takes it for a dereference after a register and after a dereference.  It
    also knows fewer literals than the language. -/

open CCall Regex RegularExpression

namespace Nemu.Expr

open TK

/-! ## Section 1: The tokens of an expression -/

/-- The register names of a machine.  They fit into the text of a token. -/
structure RegNames where
  isReg : List Char → Bool
  short : ∀ name, isReg name = true → name.length ≤ 32

def regsl : List (List Char) :=
  [['e', 'a', 'x'], ['e', 'c', 'x'], ['e', 'd', 'x'], ['e', 'b', 'x'],
   ['e', 's', 'p'], ['e', 'b', 'p'], ['e', 's', 'i'], ['e', 'd', 'i']]

def regsw : List (List Char) :=
  [['a', 'x'], ['c', 'x'], ['d', 'x'], ['b', 'x'],
   ['s', 'p'], ['b', 'p'], ['s', 'i'], ['d', 'i']]

def regsb : List (List Char) :=
  [['a', 'l'], ['c', 'l'], ['d', 'l'], ['b', 'l'],
   ['a', 'h'], ['c', 'h'], ['d', 'h'], ['b', 'h']]

/-- The names that `isa_reg_str2val` of x86 looks for, after `tolower`. -/
def reg_names : List (List Char) := ['p', 'c'] :: (regsl ++ regsw ++ regsb)

def x86_regs : RegNames where
  isReg name := decide (name.map Char.toLower ∈ reg_names)
  short name h := by
    have hall : ∀ n ∈ reg_names, n.length ≤ 32 := by decide
    have hlen := hall _ (of_decide_eq_true h)
    rwa [List.length_map] at hlen

def Operand.token : Operand → Token
  | num ds _ => ⟨TK_NUM, ds⟩
  | hex x ds u => ⟨TK_HEX_NUM, (Sym.hex x ds u).text⟩
  | reg name => ⟨TK_REG, name⟩
  | deref x ds u => ⟨TK_DEREF, (Sym.hex x ds u).text⟩

/-- A `*` that is an operator of the tree is `TK_MUX`; a `*` that starts an
    operand is part of its `TK_DEREF`. -/
def Ast.merged : Ast → List Token
  | leaf o => [o.token]
  | paren e => ⟨TK_LBRKT, []⟩ :: (e.merged ++ [⟨TK_RBRKT, []⟩])
  | bin op l r => l.merged ++ ⟨op.tk, []⟩ :: r.merged

def Ast.operands : Ast → List Operand
  | leaf o => [o]
  | paren e => e.operands
  | bin _ l r => l.operands ++ r.operands

/-! ## Section 2: What the lexer can tell apart -/

/-- The literals and names that the rules match as a whole. -/
def Operand.Lexical : Operand → Prop
  | num _ _ => True
  | hex _ ds _ => ∀ c ∈ ds, c.isDigit = true
  | reg name => name ≠ [] ∧ ∀ c ∈ name, c ∈ letters
  | deref _ ds _ => ∀ c ∈ ds, c.isDigit = true

/-- The literals that the assertions of `make_token` let through. -/
def Operand.Short : Operand → Prop
  | num ds u => (Sym.num ds u).text.length < 32
  | hex x ds u => (Sym.hex x ds u).text.length < 10
  | reg _ => True
  | deref x ds u => (Sym.hex x ds u).text.length < 10

/-- The expression ends in a literal that is no address, or in a bracket. -/
def Ast.EndsPlain : Ast → Prop
  | leaf (.num _ _) => True
  | leaf (.hex _ _ _) => True
  | leaf _ => False
  | paren _ => True
  | bin _ _ r => r.EndsPlain

/-- No multiplication has a left operand that ends in a register or in a
    dereference. -/
def Ast.StarsPlain : Ast → Prop
  | leaf _ => True
  | paren e => e.StarsPlain
  | bin op l r => l.StarsPlain ∧ r.StarsPlain ∧ (op = .mul → l.EndsPlain)

/-- The expression ends in a dereference. -/
def Ast.endsDeref : Ast → Bool
  | leaf (.deref _ _ _) => true
  | leaf _ => false
  | paren _ => false
  | bin _ _ r => r.endsDeref

/-- The token that is cleared when the last piece of the string is matched.
    It is one further than the last token if that piece is blank, or the
    address of a `*` that has its token already. -/
def Ast.last_index (e : Ast) (s : List Char) : Nat :=
  if s.getLast? = some ' ' ∨ e.endsDeref = true then e.merged.length else e.merged.length - 1

/-- The printed expressions that the lexer reads as they are meant. -/
structure Ast.Readable (e : Ast) (s : List Char) : Prop where
  lexical : ∀ o ∈ e.operands, o.Lexical
  short   : ∀ o ∈ e.operands, o.Short
  stars   : e.StarsPlain
  room    : memset_fits (e.last_index s) = true

/-! ### Operands, symbols and tokens -/

theorem Ast.valid_iff {isReg : List Char → Bool} (e : Ast) :
    e.Valid isReg ↔ ∀ o ∈ e.operands, o.Valid isReg := by
  induction e with
  | leaf o => simp [Valid, operands]
  | paren e ih => exact ih
  | bin op l r ihl ihr =>
    rw [Valid, ihl, ihr]
    simp [operands, or_imp, forall_and]

theorem Ast.token_mem {e : Ast} {o : Operand} (h : o ∈ e.operands) : o.token ∈ e.merged := by
  induction e with
  | leaf p =>
    obtain rfl := List.mem_singleton.mp h
    exact List.mem_singleton_self _
  | paren e ih =>
    have hmem := ih h
    simp [merged, hmem]
  | bin op l r ihl ihr =>
    rw [merged, List.mem_append, List.mem_cons]
    rcases List.mem_append.mp h with h | h
    · exact Or.inl (ihl h)
    · exact Or.inr (Or.inr (ihr h))

theorem Ast.operand_syms {e : Ast} {o : Operand} (h : o ∈ e.operands) :
    ∀ y ∈ o.syms, y ∈ e.syms := by
  induction e with
  | leaf p =>
    obtain rfl := List.mem_singleton.mp h
    exact fun y hy => hy
  | paren e ih =>
    intro y hy
    have hmem := ih h y hy
    simp [syms, hmem]
  | bin op l r ihl ihr =>
    intro y hy
    rw [syms, List.mem_append, List.mem_cons]
    rcases List.mem_append.mp h with h | h
    · exact Or.inl (ihl h y hy)
    · exact Or.inr (Or.inr (ihr h y hy))

/-- What holds of brackets, of operators and of the symbols of the operands
    holds of all symbols. -/
theorem Ast.syms_all {P : Sym → Prop} {e : Ast} (hl : P .lbrkt) (hr : P .rbrkt)
    (hop : ∀ op, P (.op op)) (ho : ∀ o ∈ e.operands, ∀ y ∈ o.syms, P y) : ∀ y ∈ e.syms, P y := by
  induction e with
  | leaf o => exact ho o (List.mem_singleton_self o)
  | paren e ih =>
    intro y hy
    simp only [syms, List.mem_cons, List.mem_append, List.not_mem_nil, or_false] at hy
    rcases hy with rfl | hy | rfl
    · exact hl
    · exact ih ho y hy
    · exact hr
  | bin op l r ihl ihr =>
    intro y hy
    simp only [syms, List.mem_cons, List.mem_append] at hy
    rcases hy with hy | rfl | hy
    · exact ihl (fun o h => ho o (List.mem_append_left _ h)) y hy
    · exact hop op
    · exact ihr (fun o h => ho o (List.mem_append_right _ h)) y hy

/-! ## Section 3: The pieces of a printed expression -/

/-- The symbols that the rules match as a whole. -/
def Sym.Lexical : Sym → Prop
  | num ds _ => ds ≠ [] ∧ ∀ c ∈ ds, c ∈ digits
  | hex x ds _ => (x = 'x' ∨ x = 'X') ∧ ds ≠ [] ∧ ∀ c ∈ ds, c ∈ digits
  | reg name => name ≠ [] ∧ ∀ c ∈ name, c ∈ letters
  | _ => True

def Sym.lexeme (y : Sym) : Lexeme := (y.rule_type, y.text)

theorem Operand.syms_lexical {isReg : List Char → Bool} {o : Operand} (hv : o.Valid isReg)
    (hl : o.Lexical) : ∀ y ∈ o.syms, y.Lexical := by
  intro y hy
  cases o with
  | num ds u =>
    obtain rfl := List.mem_singleton.mp hy
    exact ⟨hv.1, fun c hc => (mem_digits c).mpr (hv.2 c hc)⟩
  | hex x ds u =>
    obtain rfl := List.mem_singleton.mp hy
    exact ⟨hv.1, hv.2.1, fun c hc => (mem_digits c).mpr (hl c hc)⟩
  | reg name =>
    obtain rfl := List.mem_singleton.mp hy
    exact hl
  | deref x ds u =>
    rcases List.mem_cons.mp hy with rfl | hy
    · trivial
    · obtain rfl := List.mem_singleton.mp hy
      exact ⟨hv.1, hv.2.1, fun c hc => (mem_digits c).mpr (hl c hc)⟩

theorem Ast.syms_lexical {isReg : List Char → Bool} {e : Ast} (hv : e.Valid isReg)
    (hl : ∀ o ∈ e.operands, o.Lexical) : ∀ y ∈ e.syms, y.Lexical :=
  syms_all trivial trivial (fun _ => trivial) fun o ho =>
    o.syms_lexical (e.valid_iff.mp hv o ho) (hl o ho)

theorem Ast.reg_short {R : RegNames} {e : Ast} (hv : e.Valid R.isReg) :
    ∀ y ∈ e.syms, y.rule_type = TK_REG → y.text.length ≤ 33 := by
  refine syms_all nofun nofun (fun op => ?_) fun o ho y hy => ?_
  · cases op <;> nofun
  · have hvalid := e.valid_iff.mp hv o ho
    cases o with
    | reg name =>
      obtain rfl := List.mem_singleton.mp hy
      intro _
      exact Nat.succ_le_succ (R.short name hvalid)
    | num ds u =>
      obtain rfl := List.mem_singleton.mp hy
      exact nofun
    | hex x ds u =>
      obtain rfl := List.mem_singleton.mp hy
      exact nofun
    | deref x ds u =>
      rcases List.mem_cons.mp hy with rfl | hy
      · exact nofun
      · obtain rfl := List.mem_singleton.mp hy
        exact nofun

/-- Such a symbol is matched as a whole. -/
theorem Sym.Lexical.match_rule {y : Sym} {rest : List Char} (hy : y.Lexical)
    (hend : y.endsOperand = true → EndsRun (digits ++ letters) rest) :
    match_rule (y.text ++ rest) = some (y.rule_type, y.text.length) := by
  cases y with
  | num ds u => exact match_number u hy.1 hy.2 (.of_endsRun (hend rfl))
  | hex x ds u =>
    have hmatch := match_hex u hy.1 hy.2.1 hy.2.2 (.of_endsRun (hend rfl))
    simpa [Sym.text, rule_type] using hmatch
  | reg name =>
    have hstop : EndsRun letters rest := by
      intro c hc hmem
      exact hend rfl c hc (List.mem_append_right _ hmem)
    exact match_reg hy.1 hy.2 hstop
  | star => exact match_op .mul rest
  | op o => exact match_op o rest
  | lbrkt => exact (match_bracket rest).1
  | rbrkt => exact (match_bracket rest).2

/-- It neither starts nor ends in a blank. -/
theorem Sym.Lexical.no_blank {y : Sym} (hy : y.Lexical) :
    y.text ≠ [] ∧ ∀ c ∈ y.text, c ≠ ' ' := by
  -- Digits and a suffix have no blank.
  have hlit : ∀ (ds : List Char) u, (∀ c ∈ ds, c ∈ digits) → ∀ c ∈ ds ++ suffix u, c ≠ ' ' := by
    intro ds u hds c hc
    rcases List.mem_append.mp hc with hc | hc
    · exact (digit_ne_symbol c (hds c hc)).1
    · cases u with
      | true =>
        obtain rfl := List.mem_singleton.mp hc
        decide
      | false => cases hc
  cases y with
  | num ds u => exact ⟨by simp [text, hy.1], hlit ds u hy.2⟩
  | hex x ds u =>
    refine ⟨by simp [text], fun c hc => ?_⟩
    simp only [text, List.mem_cons] at hc
    rcases hc with rfl | rfl | hc
    · decide
    · rcases hy.1 with rfl | rfl <;> decide
    · exact hlit ds u hy.2.2 c hc
  | reg name =>
    refine ⟨by simp [text], fun c hc => ?_⟩
    rcases List.mem_cons.mp hc with rfl | hc
    · decide
    · have hletter := hy.2 c hc
      intro he
      subst he
      exact absurd hletter (by decide)
  | star => exact ⟨by decide, of_chars (by rfl)⟩
  | op o => cases o <;> exact ⟨by decide, of_chars (by rfl)⟩
  | lbrkt => exact ⟨by decide, of_chars (by rfl)⟩
  | rbrkt => exact ⟨by decide, of_chars (by rfl)⟩

/-- The piece that `n` blanks are. -/
def blanks (n : Nat) : List Lexeme := if n = 0 then [] else [(TK_NOTYPE, List.replicate n ' ')]

theorem split_blanks (n : Nat) {rest : List Char} (hend : rest.head? ≠ some ' ') {fuel : Nat}
    (hfuel : (List.replicate n ' ' ++ rest).length ≤ fuel) :
    ∃ fuel', rest.length ≤ fuel' ∧
      split_loop fuel (List.replicate n ' ' ++ rest) =
        (blanks n ++ (split_loop fuel' rest).1, (split_loop fuel' rest).2) := by
  rcases Nat.eq_zero_or_pos n with rfl | hn
  · exact ⟨fuel, by simpa using hfuel, by simp [blanks]⟩
  · obtain ⟨m, rfl⟩ : ∃ m, n = m + 1 := ⟨n - 1, by omega⟩
    rw [List.length_append, List.length_replicate] at hfuel
    obtain ⟨k, rfl⟩ : ∃ k, fuel = k + 1 := ⟨fuel - 1, by omega⟩
    refine ⟨k, by omega, ?_⟩
    have hmatch := match_blanks hn hend
    have hcons : List.replicate (m + 1) ' ' ++ rest = ' ' :: (List.replicate m ' ' ++ rest) := rfl
    rw [hcons] at hmatch ⊢
    rw [split_loop, hmatch, ← hcons]
    have htake : (List.replicate (m + 1) ' ' ++ rest).take (m + 1) = List.replicate (m + 1) ' ' :=
      by simp
    have hdrop : (List.replicate (m + 1) ' ' ++ rest).drop (m + 1) = rest := by simp
    show ((TK_NOTYPE, _) :: (split_loop k _).1, (split_loop k _).2) = _
    rw [htake, hdrop, blanks, if_neg (Nat.succ_ne_zero m)]
    rfl

/-- The pieces that are not blank are the texts of the symbols. -/
theorem split_printed {ys : List Sym} {s : List Char} (hp : Printed ys s)
    (hlex : ∀ y ∈ ys, y.Lexical) {prev : Bool} (hplace : WellPlaced prev ys) {fuel : Nat}
    (hfuel : s.length ≤ fuel) :
    (split_loop fuel s).2 = [] ∧
      (split_loop fuel s).1.filter (fun l => decide (l.1 ≠ TK_NOTYPE)) = ys.map Sym.lexeme := by
  have hblanks : ∀ n, (blanks n).filter (fun l => decide (l.1 ≠ TK_NOTYPE)) = [] := by
    intro n
    by_cases hn : n = 0 <;> simp [blanks, hn]
  induction hp generalizing prev fuel with
  | nil n =>
    have hblank : List.replicate n ' ' = List.replicate n ' ' ++ [] := by simp
    rw [hblank] at hfuel ⊢
    obtain ⟨k, -, hsplit⟩ := split_blanks n (by simp) hfuel
    have hend : split_loop k [] = ([], []) := by cases k <;> rfl
    rw [hsplit, hend]
    exact ⟨rfl, by rw [List.append_nil]; exact hblanks n⟩
  | cons n y h ih =>
    rename_i ys s
    have hy := hlex y List.mem_cons_self
    obtain ⟨hne, hnoblank⟩ := hy.no_blank
    obtain ⟨c, t, htext⟩ := List.exists_cons_of_ne_nil hne
    have hhead : (y.text ++ s).head? ≠ some ' ' := by
      have hc := hnoblank c (by rw [htext]; exact List.mem_cons_self)
      rw [htext]
      simpa using hc
    obtain ⟨k, hk, hsplit⟩ := split_blanks n hhead hfuel
    rw [hsplit]
    -- One round for the symbol, and the induction hypothesis for the rest.
    have hlen : y.text.length = t.length + 1 := by rw [htext]; rfl
    rw [List.length_append] at hk
    obtain ⟨k, rfl⟩ : ∃ j, k = j + 1 := ⟨k - 1, by omega⟩
    have hmatch := hy.match_rule fun hends => h.endsOperand (hends ▸ hplace.2)
    have hround : split_loop (k + 1) (y.text ++ s) =
        (y.lexeme :: (split_loop k s).1, (split_loop k s).2) := by
      have hcons : y.text ++ s = c :: (t ++ s) := by rw [htext]; rfl
      rw [hcons] at hmatch ⊢
      rw [split_loop, hmatch, ← hcons]
      show ((y.rule_type, (y.text ++ s).take y.text.length) :: _, _) = _
      rw [List.take_left, List.drop_left]
      rfl
    obtain ⟨hrest, hpieces⟩ := ih (fun z hz => hlex z (List.mem_cons_of_mem y hz)) hplace.2
      (show s.length ≤ k by omega)
    have htype : y.lexeme.1 ≠ TK_NOTYPE := by
      cases y with
      | op o => cases o <;> exact TK.noConfusion
      | _ => exact TK.noConfusion
    rw [hround]
    refine ⟨hrest, ?_⟩
    rw [List.filter_append, hblanks, List.nil_append, List.filter_cons,
      if_pos (by simpa using htype),
      hpieces]
    rfl

/-- The pieces make up the string, and each is a match of a rule of its type. -/
theorem split_pieces (fuel : Nat) (s : List Char) :
    ((split_loop fuel s).1.map Prod.snd).flatten ++ (split_loop fuel s).2 = s ∧
      ∀ l ∈ (split_loop fuel s).1, ∃ rule ∈ rules, rule.token_type = l.1 ∧
        l.2 ∈ rule.regex.matches' := by
  induction fuel generalizing s with
  | zero => cases s <;> exact ⟨rfl, by intro l hl; cases hl⟩
  | succ fuel ih =>
    cases s with
    | nil => exact ⟨rfl, by intro l hl; cases hl⟩
    | cons c s =>
      rw [split_loop]
      cases hm : match_rule (c :: s) with
      | none => exact ⟨rfl, by intro l hl; cases hl⟩
      | some m =>
        obtain ⟨type, n⟩ := m
        obtain ⟨-, -, hrule⟩ := match_rule_spec hm
        obtain ⟨hjoin, hpieces⟩ := ih ((c :: s).drop n)
        constructor
        · show ((c :: s).take n ++ ((split_loop fuel _).1.map Prod.snd).flatten) ++ _ = _
          rw [List.append_assoc, hjoin, List.take_append_drop]
        · intro l hl
          rcases List.mem_cons.mp hl with rfl | hl
          · exact hrule
          · exact hpieces l hl

/-! ## Section 4: The tokens that the pieces add up to -/

/-- A piece changes the type of no token that is there. -/
theorem push_types (tokens : List Token) (l : Lexeme) :
    tokens.map Token.type <+: (push_token tokens l).map Token.type := by
  have hconcat : ∀ t : Token, tokens.map Token.type <+: (tokens ++ [t]).map Token.type := by
    intro t
    rw [List.map_append]
    exact List.prefix_append _ _
  obtain ⟨type, substr⟩ := l
  cases type with
  | TK_NOTYPE => exact List.prefix_refl _
  | TK_HEX_NUM =>
    show _ <+: (push_hex tokens substr).map Token.type
    unfold push_hex
    split
    · next str hlast =>
      -- The address goes into the token of its `*`.
      obtain ⟨init, rfl⟩ := List.getLast?_eq_some_iff.mp hlast
      rw [List.dropLast_concat, List.map_append, List.map_append]
      exact List.prefix_refl _
    · exact hconcat _
  | _ => exact hconcat _

theorem foldl_push_types (ls : List Lexeme) (tokens : List Token) :
    tokens.map Token.type <+: (ls.foldl push_token tokens).map Token.type := by
  induction ls generalizing tokens with
  | nil => exact List.prefix_refl _
  | cons l ls ih => exact (push_types tokens l).trans (ih _)

/-- An operand may come next. -/
def Opens (tokens : List Token) : Prop :=
  ∀ t, tokens.getLast? = some t →
    t.type ≠ TK_RBRKT ∧ t.type ≠ TK_NUM ∧ t.type ≠ TK_HEX_NUM ∧ t.type ≠ TK_DEREF

theorem opens_nil : Opens [] := by
  intro t ht
  cases ht

theorem opens_concat {tokens : List Token} {t : Token}
    (h : t.type ≠ TK_RBRKT ∧ t.type ≠ TK_NUM ∧ t.type ≠ TK_HEX_NUM ∧ t.type ≠ TK_DEREF) :
    Opens (tokens ++ [t]) := by
  intro t' ht'
  rw [List.getLast?_concat] at ht'
  cases ht'
  exact h

theorem opens_lbrkt (tokens : List Token) : Opens (tokens ++ [⟨TK_LBRKT, []⟩]) :=
  opens_concat ⟨nofun, nofun, nofun, nofun⟩

theorem opens_op (tokens : List Token) (op : BinOp) : Opens (tokens ++ [⟨op.tk, []⟩]) := by
  apply opens_concat
  cases op <;> exact ⟨nofun, nofun, nofun, nofun⟩

theorem Opens.star_type {tokens : List Token} (h : Opens tokens) :
    star_type tokens.getLast? = TK_DEREF := by
  cases hlast : tokens.getLast? with
  | none => rfl
  | some t =>
    obtain ⟨h1, h2, h3, -⟩ := h t hlast
    rw [Expr.star_type, if_neg (by simp [h1, h2, h3])]

/-- The pieces of an operand are one token. -/
theorem Operand.push {isReg : List Char → Bool} {o : Operand} (hv : o.Valid isReg)
    {tokens : List Token} (hopen : Opens tokens) :
    (o.syms.map Sym.lexeme).foldl push_token tokens = tokens ++ [o.token] := by
  cases o with
  | num ds u =>
    show tokens ++ [⟨TK_NUM, num_str (ds ++ suffix u)⟩] = _
    rw [num_str_text u hv.2]
    rfl
  | hex x ds u =>
    show push_hex tokens (Sym.hex x ds u).text = _
    unfold push_hex
    split
    · next str hlast => exact absurd rfl (hopen _ hlast).2.2.2
    · rfl
  | reg name => rfl
  | deref x ds u =>
    show push_hex (tokens ++ [⟨Expr.star_type tokens.getLast?, []⟩]) (Sym.hex x ds u).text = _
    rw [hopen.star_type, push_hex, List.getLast?_concat]
    show (tokens ++ [(⟨TK_DEREF, []⟩ : Token)]).dropLast ++ [⟨TK_DEREF, overwrite _ []⟩] = _
    rw [List.dropLast_concat]
    simp [overwrite, token]

/-- The last token of an expression. -/
theorem Ast.merged_concat (e : Ast) :
    ∃ init t, e.merged = init ++ [t] ∧
      (e.EndsPlain ↔ t.type = TK_RBRKT ∨ t.type = TK_NUM ∨ t.type = TK_HEX_NUM) ∧
      (e.endsDeref = true ↔ t.type = TK_DEREF) ∧ (t.type = TK_DEREF → t.str ≠ []) := by
  induction e with
  | leaf o =>
    refine ⟨[], o.token, rfl, ?_⟩
    cases o <;> simp [EndsPlain, endsDeref, Operand.token, Sym.text]
  | paren e _ =>
    exact ⟨⟨TK_LBRKT, []⟩ :: e.merged, ⟨TK_RBRKT, []⟩, rfl, by simp [EndsPlain],
      by simp [endsDeref], by simp⟩
  | bin op l r _ ihr =>
    obtain ⟨init, t, htokens, hplain, hderef, hstr⟩ := ihr
    exact ⟨l.merged ++ ⟨op.tk, []⟩ :: init, t, by simp [merged, htokens], hplain, hderef, hstr⟩

/-- How a `*` after an expression is recorded. -/
theorem Ast.star_type_mux (e : Ast) (tokens : List Token) :
    star_type (tokens ++ e.merged).getLast? = TK_MUX ↔ e.EndsPlain := by
  obtain ⟨init, t, htokens, hplain, -⟩ := e.merged_concat
  rw [htokens, ← List.append_assoc, List.getLast?_concat, star_type, hplain]
  by_cases h : t.type = TK_RBRKT ∨ t.type = TK_NUM ∨ t.type = TK_HEX_NUM <;> simp [h]

theorem push_op (tokens : List Token) (op : BinOp) :
    push_token tokens (Sym.op op).lexeme =
      tokens ++ [⟨if op = .mul then star_type tokens.getLast? else op.tk, []⟩] := by
  cases op <;> rfl

/-- The pieces of an expression are its tokens, if no multiplication is taken
    for a dereference. -/
theorem Ast.push {isReg : List Char → Bool} {e : Ast} (hv : e.Valid isReg) (hstars : e.StarsPlain)
    {tokens : List Token} (hopen : Opens tokens) :
    (e.syms.map Sym.lexeme).foldl push_token tokens = tokens ++ e.merged := by
  induction e generalizing tokens with
  | leaf o => exact o.push hv hopen
  | paren e ih =>
    have hin : (e.syms.map Sym.lexeme).foldl push_token (tokens ++ [⟨TK_LBRKT, []⟩]) =
        tokens ++ [⟨TK_LBRKT, []⟩] ++ e.merged := ih hv hstars (opens_lbrkt tokens)
    have hlbrkt : push_token tokens Sym.lbrkt.lexeme = tokens ++ [⟨TK_LBRKT, []⟩] := rfl
    rw [syms, List.map_cons, List.foldl_cons, List.map_append, List.foldl_append, hlbrkt, hin]
    show tokens ++ [⟨TK_LBRKT, []⟩] ++ e.merged ++ [⟨TK_RBRKT, []⟩] = _
    simp [Ast.merged]
  | bin op l r ihl ihr =>
    obtain ⟨hl, hr, hmul⟩ := hstars
    rw [syms, List.map_append, List.foldl_append, ihl hv.1 hl hopen, List.map_cons,
      List.foldl_cons, push_op]
    have htype : (if op = .mul then star_type (tokens ++ l.merged).getLast? else op.tk) =
        op.tk := by
      by_cases h : op = .mul
      · rw [if_pos h, (l.star_type_mux tokens).mpr (hmul h), h]
        rfl
      · rw [if_neg h]
    rw [htype, ihr hv.2 hr (opens_op _ op), Ast.merged]
    simp

/-- If the types come out right, no multiplication was taken for a
    dereference: later pieces do not change the type of its token. -/
theorem Ast.starsPlain_of_types {isReg : List Char → Bool} {e : Ast} (hv : e.Valid isReg)
    {tokens : List Token} (hopen : Opens tokens) (rest : List Lexeme)
    (htypes : (tokens ++ e.merged).map Token.type <+:
      ((e.syms.map Sym.lexeme ++ rest).foldl push_token tokens).map Token.type) :
    e.StarsPlain := by
  induction e generalizing tokens rest with
  | leaf o => trivial
  | paren e ih =>
    apply ih hv (opens_lbrkt tokens) (Sym.rbrkt.lexeme :: rest)
    have hshort : (tokens ++ [(⟨TK_LBRKT, []⟩ : Token)] ++ e.merged).map Token.type <+:
        (tokens ++ (paren e).merged).map Token.type := by
      simp [Ast.merged]
    have hfold : (((paren e).syms.map Sym.lexeme ++ rest).foldl push_token tokens) =
        ((e.syms.map Sym.lexeme ++ Sym.rbrkt.lexeme :: rest).foldl push_token
          (tokens ++ [⟨TK_LBRKT, []⟩])) := by
      simp only [syms, List.map_cons, List.map_append, List.cons_append, List.append_assoc,
        List.foldl_cons]
      rfl
    rw [← hfold]
    exact hshort.trans htypes
  | bin op l r ihl ihr =>
    have hsplit : ((bin op l r).syms.map Sym.lexeme ++ rest) =
        l.syms.map Sym.lexeme ++ ((Sym.op op).lexeme :: (r.syms.map Sym.lexeme ++ rest)) := by
      simp [syms]
    rw [hsplit] at htypes
    have hl : l.StarsPlain := by
      apply ihl hv.1 hopen ((Sym.op op).lexeme :: (r.syms.map Sym.lexeme ++ rest))
      have hshort : (tokens ++ l.merged).map Token.type <+:
          (tokens ++ (bin op l r).merged).map Token.type := by
        simp [Ast.merged]
      exact hshort.trans htypes
    rw [List.foldl_append, l.push hv.1 hl hopen, List.foldl_cons, push_op] at htypes
    -- What the operator was recorded as is what stands there at the end.
    have hop : (if op = .mul then star_type (tokens ++ l.merged).getLast? else op.tk) = op.tk := by
      have hkept := (foldl_push_types (r.syms.map Sym.lexeme ++ rest)
        (tokens ++ l.merged ++ [⟨if op = .mul then star_type (tokens ++ l.merged).getLast?
          else op.tk, []⟩]))
      have hmeant : (tokens ++ l.merged ++ [(⟨op.tk, []⟩ : Token)]).map Token.type <+:
          (tokens ++ (bin op l r).merged).map Token.type := by
        simp [Ast.merged]
      have hsame := List.prefix_of_prefix_length_le hkept (hmeant.trans htypes) (by simp)
      simpa using hsame
    have hmul : op = .mul → l.EndsPlain := by
      intro h
      rw [if_pos h, h] at hop
      exact (l.star_type_mux tokens).mp hop
    refine ⟨hl, ?_, hmul⟩
    rw [hop] at htypes
    apply ihr hv.2 (opens_op (tokens ++ l.merged) op) rest
    have hall : (tokens ++ l.merged ++ [(⟨op.tk, []⟩ : Token)] ++ r.merged) =
        tokens ++ (bin op l r).merged := by
      simp [Ast.merged]
    rw [hall]
    exact htypes

/-! ### What the texts of the tokens are made of -/

/-- Register names are letters; the text of a hex literal or of an address has
    no other hex digits than decimal ones. -/
def Token.Lexical (t : Token) : Prop :=
  (t.type = TK_REG → t.str ≠ [] ∧ ∀ c ∈ t.str, c ∈ letters) ∧
  (t.type = TK_HEX_NUM ∨ t.type = TK_DEREF → ∀ c ∈ t.str, c ∈ digits ∨ c ∈ ['x', 'X', 'U'])

/-- A piece that a rule of its type matches. -/
def Matched (l : Lexeme) : Prop :=
  ∃ rule ∈ rules, rule.token_type = l.1 ∧ l.2 ∈ rule.regex.matches'

/-- There is one rule of each type. -/
theorem Matched.mem {l : Lexeme} (h : Matched l) {rule : Rule} (hrule : rule ∈ rules)
    (htype : rule.token_type = l.1) : l.2 ∈ rule.regex.matches' := by
  obtain ⟨rule', hrule', htype', hmem⟩ := h
  have hnodup : (rules.map Rule.token_type).Nodup := by decide
  obtain rfl := List.inj_on_of_nodup_map hnodup hrule' hrule (htype'.trans htype.symm)
  exact hmem

theorem Matched.blank {substr : List Char} (h : Matched (TK_NOTYPE, substr)) :
    substr ≠ [] ∧ ∀ c ∈ substr, c = ' ' := by
  have hrule : ⟨oneOrMore (anyOf [' ']), TK_NOTYPE, UCHAR_MAX⟩ ∈ rules := by simp [rules]
  have hmem := h.mem hrule rfl
  obtain ⟨hne, hall⟩ := (mem_oneOrMore_anyOf _ _).mp hmem
  exact ⟨hne, fun c hc => List.mem_singleton.mp (hall c hc)⟩

theorem Matched.reg {substr : List Char} (h : Matched (TK_REG, substr)) :
    substr.drop 1 ≠ [] ∧ ∀ c ∈ substr.drop 1, c ∈ letters := by
  have hrule : ⟨char '$' * oneOrMore (anyOf letters), TK_REG, UCHAR_MAX⟩ ∈ rules := by simp [rules]
  have hmem := h.mem hrule rfl
  obtain ⟨a, ha, name, hname, hcat⟩ := (mem_mul _ _ _).mp hmem
  rw [(mem_char _ _).mp ha] at hcat
  have hdrop : substr.drop 1 = name := by rw [← show ['$'] ++ name = substr from hcat]; rfl
  rw [hdrop]
  exact (mem_oneOrMore_anyOf _ _).mp hname

theorem Matched.hex {substr : List Char} (h : Matched (TK_HEX_NUM, substr)) :
    ∀ c ∈ substr, c ∈ digits ∨ c ∈ ['x', 'X', 'U'] := by
  have hrule : ⟨hex_number, TK_HEX_NUM, UCHAR_MAX⟩ ∈ rules := by simp [rules]
  have hmem := h.mem hrule rfl
  obtain ⟨a, ha, b, hb, hcat⟩ := (mem_mul _ _ _).mp hmem
  obtain ⟨x, hx, n, hn, hxn⟩ := (mem_mul _ _ _).mp hb
  obtain ⟨ds, hds, u, hu, hdu⟩ := (mem_mul _ _ _).mp hn
  have hdigits := ((mem_oneOrMore_anyOf _ _).mp hds).2
  obtain ⟨d, hd, rfl⟩ := (mem_anyOf _ _).mp hx
  intro c hc
  have hmemc : c ∈ a ++ ([d] ++ (ds ++ u)) := by rw [hdu, hxn]; exact hcat ▸ hc
  simp only [List.mem_append] at hmemc
  rcases hmemc with hca | hcd | hcs | hcu
  · rw [(mem_char _ _).mp ha, List.mem_singleton] at hca
    exact Or.inl (by rw [hca]; decide)
  · rw [List.mem_singleton] at hcd
    subst hcd
    refine Or.inr ?_
    simp only [List.mem_cons, List.not_mem_nil, or_false] at hd ⊢
    exact hd.imp_right Or.inl
  · exact Or.inl (hdigits c hcs)
  · rcases (mem_optional _ _).mp hu with hnil | hone
    · rw [hnil] at hcu
      cases hcu
    · rw [(mem_char _ _).mp hone, List.mem_singleton] at hcu
      exact Or.inr (by rw [hcu]; decide)

theorem push_lexical {tokens : List Token} {l : Lexeme} (h : ∀ t ∈ tokens, t.Lexical)
    (hl : Matched l) : ∀ t ∈ push_token tokens l, t.Lexical := by
  have hconcat : ∀ t : Token, t.Lexical → ∀ t' ∈ tokens ++ [t], t'.Lexical := by
    intro t ht t' ht'
    rcases List.mem_append.mp ht' with hmem | hmem
    · exact h t' hmem
    · rw [List.mem_singleton.mp hmem]
      exact ht
  have hempty : ∀ type : TK, type ≠ TK_REG → Token.Lexical ⟨type, []⟩ := by
    intro type hne
    exact ⟨fun he => absurd he hne, fun _ c hc => by cases hc⟩
  obtain ⟨type, substr⟩ := l
  cases type with
  | TK_NOTYPE => exact h
  | TK_REG => exact hconcat _ ⟨fun _ => hl.reg, by simp⟩
  | TK_NUM => exact hconcat _ ⟨by simp, by simp⟩
  | TK_MUX =>
    apply hconcat
    apply hempty
    unfold star_type
    cases tokens.getLast? with
    | none => exact TK.noConfusion
    | some prev =>
      show (if _ then TK_MUX else TK_DEREF) ≠ TK_REG
      split <;> exact TK.noConfusion
  | TK_HEX_NUM =>
    show ∀ t ∈ push_hex tokens substr, t.Lexical
    unfold push_hex
    split
    · next str hlast =>
      -- What is left of an earlier address is also such a text.
      have hstr := (h _ (List.mem_of_getLast? hlast)).2 (Or.inr rfl)
      intro t ht
      rcases List.mem_append.mp ht with hmem | hmem
      · exact h t (List.mem_of_mem_dropLast hmem)
      · rw [List.mem_singleton.mp hmem]
        refine ⟨by simp, fun _ c hc => ?_⟩
        rcases List.mem_append.mp hc with hc | hc
        · exact hl.hex c hc
        · exact hstr c (List.mem_of_mem_drop hc)
    · exact hconcat _ ⟨by simp, fun _ => hl.hex⟩
  | _ => exact hconcat _ (hempty _ TK.noConfusion)

theorem foldl_push_lexical {ls : List Lexeme} (hls : ∀ l ∈ ls, Matched l) {tokens : List Token}
    (h : ∀ t ∈ tokens, t.Lexical) : ∀ t ∈ ls.foldl push_token tokens, t.Lexical := by
  induction ls generalizing tokens with
  | nil => exact h
  | cons l ls ih =>
    apply ih fun l' hl' => hls l' (List.mem_cons_of_mem l hl')
    exact push_lexical h (hls l List.mem_cons_self)

/-- A valid operand whose token is made of such text is one the rules match. -/
theorem Operand.lexical_of_token {isReg : List Char → Bool} {o : Operand} (hv : o.Valid isReg)
    (h : o.token.Lexical) : o.Lexical := by
  have hdigits : ∀ (x : Char) (ds : List Char) u, (∀ c ∈ ds, isHexDigit c = true) →
      (∀ c ∈ (Sym.hex x ds u).text, c ∈ digits ∨ c ∈ ['x', 'X', 'U']) →
      ∀ c ∈ ds, c.isDigit = true := by
    intro x ds u hhex htext c hc
    have hmem : c ∈ (Sym.hex x ds u).text := by simp [Sym.text, hc]
    rcases htext c hmem with hd | hletter
    · exact (mem_digits c).mp hd
    · have hisHex := hhex c hc
      simp only [List.mem_cons, List.not_mem_nil, or_false] at hletter
      rcases hletter with rfl | rfl | rfl <;> exact absurd hisHex (by decide)
  cases o with
  | num ds u => trivial
  | hex x ds u => exact hdigits x ds u hv.2.2 (h.2 (Or.inl rfl))
  | reg name => exact h.1 rfl
  | deref x ds u => exact hdigits x ds u hv.2.2 (h.2 (Or.inr rfl))

/-! ## Section 5: Room for the tokens -/

theorem memset_fits_mono {i j : Nat} (hij : i ≤ j) (h : memset_fits j = true) :
    memset_fits i = true := by
  unfold memset_fits str_fits str_offset sizeof_Token TOKENS_MAX_SIZE at *
  rw [decide_eq_true_eq] at *
  omega

theorem str_fits_of_memset {i n : Nat} (hn : n ≤ 32) (h : memset_fits i = true) :
    str_fits i n = true := by
  unfold memset_fits str_fits str_offset sizeof_Token TOKENS_MAX_SIZE at *
  rw [decide_eq_true_eq] at *
  omega

/-- No literal of the piece runs into an assertion. -/
def Lexeme.Short (l : Lexeme) : Prop :=
  (l.1 = TK_NUM → l.2.length < 32) ∧ (l.1 = TK_HEX_NUM → l.2.length < 10)

theorem Lexeme.short_of_ne {l : Lexeme} (hnum : l.1 ≠ TK_NUM) (hhex : l.1 ≠ TK_HEX_NUM) : l.Short :=
  ⟨fun he => absurd he hnum, fun he => absurd he hhex⟩

theorem allStorable_concat (tokens : List Token) (ls : List Lexeme) (l : Lexeme) :
    AllStorable tokens (ls ++ [l]) ↔
      AllStorable tokens ls ∧ Storable (ls.foldl push_token tokens).length l := by
  induction ls generalizing tokens with
  | nil => simp [AllStorable]
  | cons l' ls ih =>
    rw [List.cons_append, AllStorable, AllStorable, ih, and_assoc]
    rfl

/-- All pieces can be stored if none is too long and there is room for the
    last: the number of tokens never goes down. -/
theorem allStorable_iff (tokens : List Token) (ls : List Lexeme)
    (hreg : ∀ l ∈ ls, l.1 = TK_REG → l.2.length ≤ 33) :
    AllStorable tokens ls ↔
      (∀ l ∈ ls, l.Short) ∧
        ∀ init l, ls = init ++ [l] → memset_fits (init.foldl push_token tokens).length = true := by
  induction ls using List.reverseRecOn with
  | nil => simp [AllStorable]
  | append_singleton ls l ih =>
    have hreg' : ∀ l ∈ ls, l.1 = TK_REG → l.2.length ≤ 33 :=
      fun l' h => hreg l' (List.mem_append_left _ h)
    have hlast : l.1 = TK_REG → l.2.length ≤ 33 := hreg l (by simp)
    rw [allStorable_concat, ih hreg']
    constructor
    · intro h
      obtain ⟨⟨hshort, -⟩, hfit, -, hnum, hhex⟩ := h
      -- The pieces before the last one, and the last one.
      refine ⟨fun l' hl' => ?_, fun init l' heq => ?_⟩
      · rcases List.mem_append.mp hl' with hmem | hmem
        · exact hshort l' hmem
        · rw [List.mem_singleton.mp hmem]
          exact ⟨hnum, hhex⟩
      · obtain ⟨rfl, -⟩ := List.append_inj' heq rfl
        exact hfit
    · intro h
      have hfit := h.2 ls l rfl
      have hshort := h.1 l (by simp)
      -- Fewer tokens leave more room.
      refine ⟨⟨fun l' hl' => h.1 l' (List.mem_append_left _ hl'), fun init l' heq => ?_⟩,
        hfit, fun he => str_fits_of_memset ?_ hfit, hshort.1, hshort.2⟩
      · apply memset_fits_mono _ hfit
        have hmore := (foldl_push_types [l'] (init.foldl push_token tokens)).length_le
        rw [heq, List.foldl_append]
        simpa using hmore
      · have hlen := hlast he
        omega

/-- The number of tokens before the last piece that is not blank. -/
theorem push_length {tokens init : List Token} {l : Lexeme} {t : Token} (hl : l.1 ≠ TK_NOTYPE)
    (h : push_token tokens l = init ++ [t]) (ht : t.type = TK_DEREF → t.str ≠ []) :
    tokens.length = if t.type = TK_DEREF then init.length + 1 else init.length := by
  have hconcat : ∀ t' : Token, (t'.type = TK_DEREF → t'.str = []) → tokens ++ [t'] = init ++ [t] →
      tokens.length = if t.type = TK_DEREF then init.length + 1 else init.length := by
    intro t' hstr heq
    obtain ⟨rfl, hone⟩ := List.append_inj' heq rfl
    cases hone
    rw [if_neg fun hd => ht hd (hstr hd)]
  obtain ⟨type, substr⟩ := l
  cases type with
  | TK_NOTYPE => exact absurd rfl hl
  | TK_HEX_NUM =>
    have hhex : push_hex tokens substr = init ++ [t] := h
    unfold push_hex at hhex
    split at hhex
    · next str hlast =>
      obtain ⟨front, rfl⟩ := List.getLast?_eq_some_iff.mp hlast
      rw [List.dropLast_concat] at hhex
      obtain ⟨rfl, hone⟩ := List.append_inj' hhex rfl
      cases hone
      simp
    · exact hconcat _ (fun he => by cases he) hhex
  | TK_REG => exact hconcat _ (fun he => by cases he) h
  | TK_NUM => exact hconcat _ (fun he => by cases he) h
  | _ => exact hconcat _ (fun _ => rfl) h

/-! ## Section 6: The main theorem -/

theorem foldl_push_filter (ls : List Lexeme) (tokens : List Token) :
    ls.foldl push_token tokens =
      (ls.filter fun l => decide (l.1 ≠ TK_NOTYPE)).foldl push_token tokens := by
  induction ls generalizing tokens with
  | nil => rfl
  | cons l ls ih =>
    rw [List.foldl_cons, ih, List.filter_cons]
    by_cases hl : l.1 = TK_NOTYPE
    · obtain ⟨type, substr⟩ := l
      obtain rfl : type = TK_NOTYPE := hl
      rfl
    · rw [if_pos (by simpa using hl), List.foldl_cons]

section printed
variable {R : RegNames} {e : Ast} {s : List Char}

/-- The pieces of a printed expression whose literals the rules know. -/
theorem split_ast (hv : e.Valid R.isReg) (hp : Printed e.syms s)
    (hlex : ∀ o ∈ e.operands, o.Lexical) :
    (split s).2 = [] ∧
      (split s).1.filter (fun l => decide (l.1 ≠ TK_NOTYPE)) = e.syms.map Sym.lexeme := by
  have hplace : WellPlaced false (e.syms ++ []) := e.wellPlaced trivial
  rw [List.append_nil] at hplace
  exact split_printed hp (Ast.syms_lexical hv hlex) hplace (Nat.le_refl _)

/-- A piece that is not blank is a symbol. -/
theorem mem_split {l : Lexeme}
    (hpieces : (split s).1.filter (fun l => decide (l.1 ≠ TK_NOTYPE)) = e.syms.map Sym.lexeme)
    (hl : l ∈ (split s).1) (htype : l.1 ≠ TK_NOTYPE) : ∃ y ∈ e.syms, y.lexeme = l := by
  have hmem : l ∈ (split s).1.filter (fun l => decide (l.1 ≠ TK_NOTYPE)) :=
    List.mem_filter.mpr ⟨hl, by simpa using htype⟩
  rw [hpieces] at hmem
  exact List.mem_map.mp hmem

/-- Where the last piece is stored. -/
theorem last_index_eq (hv : e.Valid R.isReg) (hlex : ∀ o ∈ e.operands, o.Lexical)
    (hrest : (split s).2 = [])
    (hpieces : (split s).1.filter (fun l => decide (l.1 ≠ TK_NOTYPE)) = e.syms.map Sym.lexeme)
    (hfold : (split s).1.foldl push_token [] = e.merged) {init : List Lexeme} {l : Lexeme}
    (hls : (split s).1 = init ++ [l]) :
    (init.foldl push_token []).length = e.last_index s := by
  obtain ⟨hjoin, hmatched⟩ := split_pieces s.length s
  have hjoin' : ((init ++ [l]).map Prod.snd).flatten ++ [] = s := by
    rw [← hls, ← hrest]
    exact hjoin
  have hmem : l ∈ (split s).1 := by rw [hls]; simp
  -- The string ends as its last piece does.
  have hlast : l.2 ≠ [] → s.getLast? = l.2.getLast? := by
    intro hne
    rw [← hjoin']
    simp [List.getLast?_append, List.getLast?_eq_getLast_of_ne_nil hne]
  have hpush : push_token (init.foldl push_token []) l = e.merged := by
    rw [← hfold, hls, List.foldl_append]
    rfl
  obtain ⟨front, t, htokens, -, hderef, hstr⟩ := e.merged_concat
  by_cases htype : l.1 = TK_NOTYPE
  · -- A blank piece is the end of the string, and adds no token.
    obtain ⟨type, substr⟩ := l
    obtain rfl : type = TK_NOTYPE := htype
    obtain ⟨hne, hblank⟩ := Matched.blank (hmatched _ hmem)
    have hend : s.getLast? = some ' ' := by
      rw [hlast hne, List.getLast?_eq_getLast_of_ne_nil hne, hblank _ (List.getLast_mem hne)]
    have hsame : init.foldl push_token [] = e.merged := hpush
    rw [Ast.last_index, if_pos (Or.inl hend), hsame]
  -- The last piece is a symbol and ends without a blank.
  · obtain ⟨y, hy, rfl⟩ := mem_split hpieces hmem htype
    obtain ⟨hne, hnoblank⟩ := (Ast.syms_lexical hv hlex y hy).no_blank
    have hend : s.getLast? ≠ some ' ' := by
      intro h
      rw [hlast hne] at h
      exact hnoblank ' ' (List.mem_of_getLast? h) rfl
    rw [push_length htype (hpush.trans htokens) hstr, Ast.last_index, htokens, List.length_append,
      List.length_singleton, Nat.add_sub_cancel]
    by_cases ht : t.type = TK_DEREF
    · rw [if_pos ht, if_pos (Or.inr (hderef.mpr ht))]
    · rw [if_neg ht, if_neg (not_or.mpr ⟨hend, fun h => ht (hderef.mp h)⟩)]

theorem syms_short_iff : (∀ y ∈ e.syms, y.lexeme.Short) ↔ ∀ o ∈ e.operands, o.Short := by
  constructor
  · intro h o ho
    -- The symbols of an operand are symbols of the expression.
    have hsyms := fun y hy => h y (e.operand_syms ho y hy)
    cases o with
    | num ds u => exact (hsyms _ (List.mem_singleton_self _)).1 rfl
    | hex x ds u => exact (hsyms _ (List.mem_singleton_self _)).2 rfl
    | reg name => trivial
    | deref x ds u => exact (hsyms (.hex x ds u) (by simp [Operand.syms])).2 rfl
  · intro h
    -- Brackets and operators are neither numbers nor hex.
    have hlbrkt : Sym.lbrkt.lexeme.Short := Lexeme.short_of_ne TK.noConfusion TK.noConfusion
    have hrbrkt : Sym.rbrkt.lexeme.Short := Lexeme.short_of_ne TK.noConfusion TK.noConfusion
    refine Ast.syms_all hlbrkt hrbrkt (fun op => ?_) fun o ho y hy => ?_
    · cases op <;> exact Lexeme.short_of_ne TK.noConfusion TK.noConfusion
    · have hshort := h o ho
      cases o with
      | num ds u =>
        obtain rfl := List.mem_singleton.mp hy
        exact ⟨fun _ => hshort, TK.noConfusion⟩
      | hex x ds u =>
        obtain rfl := List.mem_singleton.mp hy
        exact ⟨TK.noConfusion, fun _ => hshort⟩
      | reg name =>
        obtain rfl := List.mem_singleton.mp hy
        exact Lexeme.short_of_ne TK.noConfusion TK.noConfusion
      | deref x ds u =>
        rcases List.mem_cons.mp hy with rfl | hy
        · exact Lexeme.short_of_ne TK.noConfusion TK.noConfusion
        · obtain rfl := List.mem_singleton.mp hy
          exact ⟨TK.noConfusion, fun _ => hshort⟩

/-- The pieces of a printed expression can be stored exactly if its literals
    are short enough and there is room for the last piece. -/
theorem allStorable_ast (hv : e.Valid R.isReg) (hlex : ∀ o ∈ e.operands, o.Lexical)
    (hrest : (split s).2 = [])
    (hpieces : (split s).1.filter (fun l => decide (l.1 ≠ TK_NOTYPE)) = e.syms.map Sym.lexeme)
    (hfold : (split s).1.foldl push_token [] = e.merged) :
    AllStorable [] (split s).1 ↔
      (∀ o ∈ e.operands, o.Short) ∧ memset_fits (e.last_index s) = true := by
  have hreg : ∀ l ∈ (split s).1, l.1 = TK_REG → l.2.length ≤ 33 := by
    intro l hl htype
    obtain ⟨y, hy, rfl⟩ := mem_split hpieces hl (by rw [htype]; exact TK.noConfusion)
    exact e.reg_short hv y hy htype
  -- Blank pieces have no text that is stored.
  have hshort : (∀ l ∈ (split s).1, l.Short) ↔ ∀ y ∈ e.syms, y.lexeme.Short := by
    constructor
    · intro h y hy
      have hmem : y.lexeme ∈ e.syms.map Sym.lexeme := List.mem_map_of_mem hy
      rw [← hpieces] at hmem
      exact h _ (List.mem_filter.mp hmem).1
    · intro h l hl
      by_cases htype : l.1 = TK_NOTYPE
      · obtain ⟨type, substr⟩ := l
        obtain rfl : type = TK_NOTYPE := htype
        exact ⟨nofun, nofun⟩
      · obtain ⟨y, hy, rfl⟩ := mem_split hpieces hl htype
        exact h y hy
  -- The string has one last piece.
  have hroom : (∀ init l, (split s).1 = init ++ [l] →
      memset_fits (init.foldl push_token []).length = true) ↔
        memset_fits (e.last_index s) = true := by
    constructor
    · intro h
      have hne : (split s).1 ≠ [] := by
        intro hnil
        rw [hnil] at hpieces
        exact e.syms_ne_nil (List.map_eq_nil_iff.mp hpieces.symm)
      have hls := (List.dropLast_append_getLast hne).symm
      rw [← last_index_eq hv hlex hrest hpieces hfold hls]
      exact h _ _ hls
    · intro h init l hls
      rw [last_index_eq hv hlex hrest hpieces hfold hls]
      exact h
  rw [allStorable_iff [] _ hreg, hshort, syms_short_iff, hroom]

/-- `make_token` makes the tokens of an expression out of its text exactly when
    its literals are such as the lexer knows and lets through, no
    multiplication stands behind a register or a dereference, and there is
    room for the tokens. -/
theorem make_token_tokens_iff (hv : e.Valid R.isReg) (hp : Printed e.syms s) :
    make_token s = .ok (some e.merged) ↔ e.Readable s := by
  rw [make_token_some_iff]
  constructor
  · intro h
    obtain ⟨hrest, hstore, hfold⟩ := h
    have hlexical : ∀ o ∈ e.operands, o.Lexical := by
      intro o ho
      have htoken : ∀ t ∈ e.merged, t.Lexical := by
        rw [← hfold]
        exact foldl_push_lexical (split_pieces s.length s).2 (by simp)
      exact o.lexical_of_token (e.valid_iff.mp hv o ho) (htoken _ (Ast.token_mem ho))
    obtain ⟨-, hpieces⟩ := split_ast hv hp hlexical
    have hstars : e.StarsPlain := by
      apply Ast.starsPlain_of_types hv opens_nil []
      rw [List.append_nil, ← hpieces, ← foldl_push_filter, hfold]
      exact List.prefix_refl _
    obtain ⟨hshort, hroom⟩ := (allStorable_ast hv hlexical hrest hpieces hfold).mp hstore
    exact ⟨hlexical, hshort, hstars, hroom⟩
  · intro h
    obtain ⟨hrest, hpieces⟩ := split_ast hv hp h.lexical
    have hfold : (split s).1.foldl push_token [] = e.merged := by
      rw [foldl_push_filter, hpieces, e.push hv h.stars opens_nil, List.nil_append]
    exact ⟨hrest, (allStorable_ast hv h.lexical hrest hpieces hfold).mpr ⟨h.short, h.room⟩, hfold⟩

end printed

/-- The text of `(*0x10) * 2` is read as it is meant. -/
theorem make_token_tokens_bracketed :
    let e : Ast :=
    .bin .mul (.paren (.leaf (.deref 'x' ['1', '0'] false))) (.leaf (.num ['2'] false))
    make_token ['(', '*', '0', 'x', '1', '0', ')', ' ', '*', ' ', '2'] = .ok (some e.merged) := by
  intro e
  have hv : e.Valid x86_regs.isReg :=
    ⟨⟨Or.inl rfl, by decide, of_chars (by rfl)⟩, by decide, of_chars (by rfl)⟩
  have hp : Printed e.syms ['(', '*', '0', 'x', '1', '0', ')', ' ', '*', ' ', '2'] :=
    .cons 0 .lbrkt (.cons 0 .star (.cons 0 (.hex 'x' ['1', '0'] false) (.cons 0 .rbrkt
      (.cons 1 (.op .mul) (.cons 1 (.num ['2'] false) (.nil 0))))))
  refine (make_token_tokens_iff hv hp).mpr ⟨?_, ?_, ⟨trivial, trivial, fun _ => trivial⟩, by decide⟩
  · intro o ho
    have ho' : o = .deref 'x' ['1', '0'] false ∨ o = .num ['2'] false := by
      simpa [e, Ast.operands] using ho
    rcases ho' with rfl | rfl
    · show ∀ c ∈ ['1', '0'], c.isDigit = true
      exact of_chars (by rfl)
    · trivial
  · intro o ho
    have ho' : o = .deref 'x' ['1', '0'] false ∨ o = .num ['2'] false := by
      simpa [e, Ast.operands] using ho
    rcases ho' with rfl | rfl
    · show (Sym.hex 'x' ['1', '0'] false).text.length < 10
      decide
    · show (Sym.num ['2'] false).text.length < 32
      decide

/-- In `$eax*2` the `*` is taken for a dereference. -/
theorem star_after_operand :
    let e : Ast := .bin .mul (.leaf (.reg ['e', 'a', 'x'])) (.leaf (.num ['2'] false))
    e.Valid x86_regs.isReg ∧ Printed e.syms ['$', 'e', 'a', 'x', '*', '2'] ∧
      make_token ['$', 'e', 'a', 'x', '*', '2'] =
        .ok (some [⟨TK_REG, ['e', 'a', 'x']⟩, ⟨TK_DEREF, []⟩, ⟨TK_NUM, ['2']⟩]) ∧
      make_token ['$', 'e', 'a', 'x', '*', '2'] ≠ .ok (some e.merged) := by
  intro e
  have htokens : make_token ['$', 'e', 'a', 'x', '*', '2'] =
      .ok (some [⟨TK_REG, ['e', 'a', 'x']⟩, ⟨TK_DEREF, []⟩, ⟨TK_NUM, ['2']⟩]) := by
    rfl
  have hreg : x86_regs.isReg ['e', 'a', 'x'] = true := by decide
  refine ⟨⟨hreg, by decide, of_chars (by rfl)⟩, ?_, htokens, ?_⟩
  · exact .cons 0 (.reg ['e', 'a', 'x']) (.cons 0 (.op .mul) (.cons 0 (.num ['2'] false) (.nil 0)))
  · rw [htokens]
    decide

end Nemu.Expr
