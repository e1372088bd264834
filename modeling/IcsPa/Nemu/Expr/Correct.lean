import IcsPa.Nemu.Expr.Eval
import IcsPa.Nemu.Expr.Lexing

/-! # The debugger computes what C computes

    `eval` on the tokens of an expression follows the tree that C reads.
    Three facts about a range that holds exactly one such tree carry the
    proof: brackets inside it are balanced, so that `check_parentheses`
    recognises a bracketed tree and no other; the scan for the main operator
    skips what is in brackets; and outside them it stops at the root. -/

open CCall

namespace Nemu.Expr

open TK

def Ast.tokens (e : Ast) : List Token := e.syms.map Sym.token

def lp : Token := ⟨TK_LBRKT, []⟩
def rp : Token := ⟨TK_RBRKT, []⟩

/-- The trees of the arithmetic expressions. -/
def Ast.Arith (e : Ast) : Prop := ∀ y ∈ e.syms, y.Arith

theorem Ast.tokens_paren (e : Ast) : (paren e).tokens = lp :: (e.tokens ++ [rp]) := by
  simp [tokens, syms, Sym.token, lp, rp]

theorem Ast.tokens_bin (op : BinOp) (l r : Ast) :
    (bin op l r).tokens = l.tokens ++ ⟨op.tk, []⟩ :: r.tokens := by
  simp [tokens, syms, Sym.token]

theorem Ast.Arith.paren {e : Ast} (h : (Ast.paren e).Arith) : e.Arith := fun y hy =>
  h y (by simp [Ast.syms, hy])

theorem Ast.Arith.left {op : BinOp} {l r : Ast} (h : (Ast.bin op l r).Arith) : l.Arith :=
  fun y hy => h y (by simp [Ast.syms, hy])

theorem Ast.Arith.right {op : BinOp} {l r : Ast} (h : (Ast.bin op l r).Arith) : r.Arith :=
  fun y hy => h y (by simp [Ast.syms, hy])

/-- The only operands of an arithmetic expression are decimal literals. -/
theorem Ast.Arith.leaf {o : Operand} (h : (Ast.leaf o).Arith) :
    ∃ ds u, o = .num ds u ∧ (Sym.num ds u).Arith := by
  cases o with
  | num ds u => exact ⟨ds, u, rfl, h _ (by simp [Ast.syms, Operand.syms])⟩
  | hex x ds u => exact absurd (h (.hex x ds u) (by simp [Ast.syms, Operand.syms])) id
  | reg name => exact absurd (h (.reg name) (by simp [Ast.syms, Operand.syms])) id
  | deref x ds u => exact absurd (h .star (by simp [Ast.syms, Operand.syms])) id

theorem Ast.tokens_leaf (ds : List Char) (u : Bool) :
    (leaf (.num ds u)).tokens = [⟨TK_NUM, ds⟩] := rfl

theorem Ast.length_paren (e : Ast) : e.paren.tokens.length = e.tokens.length + 2 := by
  rw [tokens_paren]; simp

theorem Ast.length_bin (op : BinOp) (l r : Ast) :
    (bin op l r).tokens.length = l.tokens.length + 1 + r.tokens.length := by
  rw [tokens_bin]; simp; omega

theorem Ast.tokens_pos (e : Ast) : 0 < e.tokens.length := by
  rw [tokens, List.length_map]
  exact List.length_pos_iff.mpr e.syms_ne_nil

/-! ## Section 1: Brackets -/

/-- A piece of the token array that opens and closes its own brackets. -/
def Balanced (ts : List Token) : Prop :=
  ∀ rest top, brackets_ok (ts ++ rest) top = brackets_ok rest top

theorem balanced_nil : Balanced [] := fun _ _ => rfl

theorem balanced_append {ts us : List Token} (ht : Balanced ts) (hu : Balanced us) :
    Balanced (ts ++ us) := fun rest top => by
  rw [List.append_assoc, ht, hu]

theorem balanced_single {t : Token} (hl : t.type ≠ TK_LBRKT) (hr : t.type ≠ TK_RBRKT) :
    Balanced [t] := fun rest top => by
  show brackets_ok (t :: rest) top = _
  rw [brackets_ok, if_neg hl, if_neg hr]

theorem balanced_paren {ts : List Token} (h : Balanced ts) : Balanced (lp :: (ts ++ [rp])) :=
  fun rest top => by
    have hinner : brackets_ok (ts ++ rp :: rest) (top + 1) = brackets_ok rest top := by
      rw [h]
      rfl
    rw [List.cons_append, List.append_assoc]
    exact hinner

theorem op_not_bracket (op : BinOp) : op.tk ≠ TK_LBRKT ∧ op.tk ≠ TK_RBRKT := by
  cases op <;> decide

theorem num_not_bracket (ds : List Char) :
    (Token.mk TK_NUM ds).type ≠ TK_LBRKT ∧ (Token.mk TK_NUM ds).type ≠ TK_RBRKT :=
  ⟨nofun, nofun⟩

theorem balanced_op (op : BinOp) : Balanced [⟨op.tk, []⟩] :=
  balanced_single (op_not_bracket op).1 (op_not_bracket op).2

theorem Ast.tokens_balanced {e : Ast} (h : e.Arith) : Balanced e.tokens := by
  induction e with
  | leaf o =>
    obtain ⟨ds, u, rfl, -⟩ := h.leaf
    exact balanced_single (num_not_bracket ds).1 (num_not_bracket ds).2
  | paren e ih =>
    rw [tokens_paren]
    exact balanced_paren (ih h.paren)
  | bin op l r ihl ihr =>
    rw [tokens_bin]
    exact balanced_append (ihl h.left) (balanced_append (balanced_op op) (ihr h.right))

/-- Without its first token a tree is balanced, or starts inside a bracket
    that it closes. -/
theorem Ast.tokens_first {e : Ast} (h : e.Arith) :
    (∃ t rest, e.tokens = t :: rest ∧ t.type ≠ TK_LBRKT ∧ Balanced rest) ∨
    (∃ inner rest, e.tokens = lp :: (inner ++ rp :: rest) ∧ Balanced inner) := by
  induction e with
  | leaf o =>
    obtain ⟨ds, u, rfl, -⟩ := h.leaf
    exact Or.inl ⟨⟨TK_NUM, ds⟩, [], rfl, (num_not_bracket ds).1, balanced_nil⟩
  | paren e _ => exact Or.inr ⟨e.tokens, [], e.tokens_paren, tokens_balanced h.paren⟩
  | bin op l r ihl _ =>
    rw [tokens_bin]
    rcases ihl h.left with ⟨t, rest, hl, ht, hbal⟩ | ⟨inner, rest, hl, hbal⟩
    · refine Or.inl ⟨t, rest ++ ⟨op.tk, []⟩ :: r.tokens, by rw [hl]; rfl, ht, ?_⟩
      exact balanced_append hbal (balanced_append (balanced_op op) (tokens_balanced h.right))
    · exact Or.inr ⟨inner, rest ++ ⟨op.tk, []⟩ :: r.tokens, by rw [hl]; simp, hbal⟩

/-- The last token of a tree is an operand, or closes a bracket of the tree. -/
theorem Ast.tokens_last {e : Ast} (h : e.Arith) :
    (∃ init t, e.tokens = init ++ [t] ∧ t.type ≠ TK_RBRKT) ∨
    (∃ init inner, e.tokens = init ++ lp :: (inner ++ [rp]) ∧ Balanced init ∧ Balanced inner) := by
  induction e with
  | leaf o =>
    obtain ⟨ds, u, rfl, -⟩ := h.leaf
    exact Or.inl ⟨[], ⟨TK_NUM, ds⟩, rfl, (num_not_bracket ds).2⟩
  | paren e _ =>
    exact Or.inr ⟨[], e.tokens, e.tokens_paren, balanced_nil, tokens_balanced h.paren⟩
  | bin op l r _ ihr =>
    rw [tokens_bin]
    rcases ihr h.right with ⟨init, t, hr, ht⟩ | ⟨init, inner, hr, hinit, hinner⟩
    · exact Or.inl ⟨l.tokens ++ ⟨op.tk, []⟩ :: init, t, by rw [hr]; simp, ht⟩
    · refine Or.inr ⟨l.tokens ++ ⟨op.tk, []⟩ :: init, inner, by rw [hr]; simp, ?_, hinner⟩
      exact balanced_append (tokens_balanced h.left) (balanced_append (balanced_op op) hinit)

/-- What stands between the first and the last token of a binary tree is not
    balanced if one of them is a bracket. -/
theorem Ast.bin_not_wrapped {op : BinOp} {l r : Ast} (h : (bin op l r).Arith) {a b : Token}
    {mid : List Token} (htoks : (bin op l r).tokens = a :: (mid ++ [b]))
    (hab : ¬ (a.type ≠ TK_LBRKT ∧ b.type ≠ TK_RBRKT)) : brackets_ok mid 0 = false := by
  rw [tokens_bin] at htoks
  rcases tokens_first h.left with ⟨t, rest, hl, ht, hbal⟩ | ⟨inner, rest, hl, hbal⟩
  · -- The first token is an operand, so the last one closes a bracket.
    rw [hl, List.cons_append] at htoks
    obtain ⟨rfl, htail⟩ := List.cons_eq_cons.mp htoks
    have hb : b.type = TK_RBRKT := by
      by_contra hb
      exact hab ⟨ht, hb⟩
    -- The last token would be an operand too, or closes a bracket of the right side.
    rcases tokens_last h.right with ⟨init, u, hr, hu⟩ | ⟨init, inner, hr, hinit, hinner⟩
    · have hlast : (rest ++ ⟨op.tk, []⟩ :: init) ++ [u] = mid ++ [b] := by
        rw [← htail, hr]; simp
      obtain ⟨-, hub⟩ := List.append_inj' hlast rfl
      rw [List.singleton_inj.mp hub] at hu
      exact absurd hb hu
    · have hsplit : (rest ++ ⟨op.tk, []⟩ :: (init ++ lp :: inner)) ++ [rp] = mid ++ [b] := by
        rw [← htail, hr]; simp
      obtain ⟨hmid, -⟩ := List.append_inj' hsplit rfl
      have hpre : Balanced (rest ++ ⟨op.tk, []⟩ :: init) :=
        balanced_append hbal (balanced_append (balanced_op op) hinit)
      have hshape : mid = (rest ++ ⟨op.tk, []⟩ :: init) ++ lp :: inner := by rw [← hmid]; simp
      have hinner' := hinner [] 1
      rw [List.append_nil] at hinner'
      rw [hshape, hpre]
      show brackets_ok inner 1 = false
      rw [hinner']
      rfl
  · -- The bracket that the first token opens is closed before the last token.
    rw [hl, List.cons_append] at htoks
    obtain ⟨-, htail⟩ := List.cons_eq_cons.mp htoks
    -- Some token is the last one of the right side.
    obtain ⟨init, last, hr⟩ : ∃ init last, r.tokens = init ++ [last] := by
      rcases tokens_last h.right with ⟨init, t, hr, -⟩ | ⟨init, inner, hr, -, -⟩
      · exact ⟨init, t, hr⟩
      · exact ⟨init ++ lp :: inner, rp, by rw [hr]; simp⟩
    have hsplit : (inner ++ rp :: (rest ++ ⟨op.tk, []⟩ :: init)) ++ [last] = mid ++ [b] := by
      rw [← htail, hr]; simp
    obtain ⟨rfl, -⟩ := List.append_inj' hsplit rfl
    rw [hbal]
    rfl

/-! ## Section 2: The main operator -/

/-- The precedences of the rules are the binding strengths of C. -/
theorem priority_is_higher_op (a b : BinOp) :
    priority_is_higher a.tk b.tk = .ok (decide (b.level < a.level)) := by
  cases a <;> cases b <;> rfl

section scan
variable {ts : List Token} {i : Int} {n : Nat} {m : TK} {pos : Int}

theorem scan_num (ds : List Char) :
    main_op_loop (⟨TK_NUM, ds⟩ :: ts) i n m pos = main_op_loop ts (i - 1) n m pos := rfl

theorem scan_rp : main_op_loop (rp :: ts) i n m pos = main_op_loop ts (i - 1) (n + 1) m pos := rfl

theorem scan_lp : main_op_loop (lp :: ts) i (n + 1) m pos = main_op_loop ts (i - 1) n m pos := rfl

/-- An operator in brackets is passed over. -/
theorem scan_op_inside (op : BinOp) :
    main_op_loop (⟨op.tk, []⟩ :: ts) i (n + 1) m pos = main_op_loop ts (i - 1) (n + 1) m pos := by
  cases op <;> rfl

/-- The first operator outside brackets is taken. -/
theorem scan_op_first (op : BinOp) :
    main_op_loop (⟨op.tk, []⟩ :: ts) i 0 TK_INVAILD pos = main_op_loop ts (i - 1) 0 op.tk i := by
  cases op <;> rfl

/-- A later one replaces it if it is looser. -/
theorem scan_op_next (op o : BinOp) :
    main_op_loop (⟨op.tk, []⟩ :: ts) i 0 o.tk pos =
      if op.level < o.level then main_op_loop ts (i - 1) 0 op.tk i
      else main_op_loop ts (i - 1) 0 o.tk pos := by
  cases op <;> cases o <;> rfl

/-- From the right: the right side, the operator and the left side. -/
theorem reverse_bin (op : BinOp) (l r : Ast) (ts : List Token) :
    (Ast.bin op l r).tokens.reverse ++ ts =
      r.tokens.reverse ++ (⟨op.tk, []⟩ :: (l.tokens.reverse ++ ts)) := by
  rw [Ast.tokens_bin]
  simp only [List.reverse_cons, List.reverse_append, List.append_assoc, List.cons_append,
    List.nil_append]

/-- Where the scan stands behind the three. -/
theorem index_bin (op : BinOp) (l r : Ast) (i : Int) :
    i - (((Ast.bin op l r).tokens.length : Nat) : Int) =
      i - r.tokens.length - 1 - l.tokens.length := by
  rw [Ast.length_bin]
  omega

/-- A whole tree in brackets is passed over. -/
theorem scan_inside {e : Ast} (h : e.Arith) :
    main_op_loop (e.tokens.reverse ++ ts) i (n + 1) m pos =
      main_op_loop ts (i - e.tokens.length) (n + 1) m pos := by
  induction e generalizing ts i n with
  | leaf o =>
    obtain ⟨ds, u, rfl, -⟩ := h.leaf
    exact scan_num ds
  | paren e ih =>
    have hlen : i - ((e.paren.tokens.length : Nat) : Int) = i - 1 - e.tokens.length - 1 := by
      rw [Ast.length_paren]
      omega
    rw [hlen, Ast.tokens_paren]
    simp only [List.reverse_cons, List.reverse_append, List.reverse_nil, List.nil_append,
      List.append_assoc, List.cons_append]
    rw [scan_rp, ih h.paren, scan_lp]
  | bin op l r ihl ihr =>
    rw [reverse_bin, index_bin, ihr h.right, scan_op_inside, ihl h.left]

/-- A bracketed tree is passed over. -/
theorem scan_paren {e : Ast} (h : e.Arith) :
    main_op_loop (e.paren.tokens.reverse ++ ts) i n m pos =
      main_op_loop ts (i - e.paren.tokens.length) n m pos := by
  have hlen : i - ((e.paren.tokens.length : Nat) : Int) = i - 1 - e.tokens.length - 1 := by
    rw [Ast.length_paren]
    omega
  rw [hlen, Ast.tokens_paren]
  simp only [List.reverse_cons, List.reverse_append, List.reverse_nil, List.nil_append,
    List.append_assoc, List.cons_append]
  rw [scan_rp, scan_inside h, scan_lp]

/-- An operator that nothing in the tree is looser than stays the main one. -/
theorem scan_keep {e : Ast} (h : e.Arith) {o : BinOp} (ho : ∀ x ∈ e.outerOps, o.level ≤ x.level) :
    main_op_loop (e.tokens.reverse ++ ts) i 0 o.tk pos =
      main_op_loop ts (i - e.tokens.length) 0 o.tk pos := by
  induction e generalizing ts i with
  | leaf x =>
    obtain ⟨ds, u, rfl, -⟩ := h.leaf
    exact scan_num ds
  | paren e _ => exact scan_paren h.paren
  | bin op l r ihl ihr =>
    have hl : ∀ x ∈ l.outerOps, o.level ≤ x.level := fun x hx =>
      ho x (by simp [Ast.outerOps, hx])
    have hr : ∀ x ∈ r.outerOps, o.level ≤ x.level := fun x hx =>
      ho x (by simp [Ast.outerOps, hx])
    have hop : ¬ op.level < o.level := Nat.not_lt.mpr (ho op (by simp [Ast.outerOps]))
    rw [reverse_bin, index_bin, ihr h.right hr, scan_op_next, if_neg hop, ihl h.left hl]

/-- No operator yet, or one that binds more tightly than `o`. -/
def Tighter (o : BinOp) (m : TK) : Prop := m = TK_INVAILD ∨ ∃ x : BinOp, m = x.tk ∧
    o.level < x.level

theorem scan_op_tighter {o op : BinOp} (hm : Tighter o m) (hop : o.level < op.level) :
    ∃ m' pos', Tighter o m' ∧
      main_op_loop (⟨op.tk, []⟩ :: ts) i 0 m pos = main_op_loop ts (i - 1) 0 m' pos' := by
  rcases hm with rfl | ⟨x, rfl, hx⟩
  · exact ⟨op.tk, i, Or.inr ⟨op, rfl, hop⟩, scan_op_first op⟩
  · rw [scan_op_next]
    by_cases hlt : op.level < x.level
    · rw [if_pos hlt]
      exact ⟨op.tk, i, Or.inr ⟨op, rfl, hop⟩, rfl⟩
    · rw [if_neg hlt]
      exact ⟨x.tk, pos, Or.inr ⟨x, rfl, hx⟩, rfl⟩

/-- After a tree of tighter operators there is still no looser one. -/
theorem scan_tighter {e : Ast} (h : e.Arith) {o : BinOp} (ho : ∀ x ∈ e.outerOps, o.level < x.level)
    (hm : Tighter o m) :
    ∃ m' pos', Tighter o m' ∧ main_op_loop (e.tokens.reverse ++ ts) i 0 m pos =
      main_op_loop ts (i - e.tokens.length) 0 m' pos' := by
  induction e generalizing ts i m pos with
  | leaf x =>
    obtain ⟨ds, u, rfl, -⟩ := h.leaf
    exact ⟨m, pos, hm, scan_num ds⟩
  | paren e _ => exact ⟨m, pos, hm, scan_paren h.paren⟩
  | bin op l r ihl ihr =>
    have hl : ∀ x ∈ l.outerOps, o.level < x.level := fun x hx =>
      ho x (by simp [Ast.outerOps, hx])
    have hr : ∀ x ∈ r.outerOps, o.level < x.level := fun x hx =>
      ho x (by simp [Ast.outerOps, hx])
    have hop : o.level < op.level := ho op (by simp [Ast.outerOps])
    rw [reverse_bin, index_bin]
    obtain ⟨m₁, pos₁, hm₁, hrun₁⟩ := ihr h.right hr hm
    obtain ⟨m₂, pos₂, hm₂, hrun₂⟩ := scan_op_tighter hm₁ hop
    obtain ⟨m₃, pos₃, hm₃, hrun₃⟩ := ihl h.left hl hm₂
    exact ⟨m₃, pos₃, hm₃, by rw [hrun₁, hrun₂, hrun₃]⟩

/-- A looser operator is taken. -/
theorem scan_op_take {o : BinOp} (hm : Tighter o m) :
    main_op_loop (⟨o.tk, []⟩ :: ts) i 0 m pos = main_op_loop ts (i - 1) 0 o.tk i := by
  rcases hm with rfl | ⟨x, rfl, hx⟩
  · exact scan_op_first o
  · rw [scan_op_next, if_pos hx]

end scan

/-- The scan over a tree of C finds its root. -/
theorem find_root {op : BinOp} {l r : Ast} (h : (Ast.bin op l r).Arith)
    (hc : (Ast.bin op l r).CParse) (i : Int) :
    main_op_loop (Ast.bin op l r).tokens.reverse i 0 TK_INVAILD 0 =
      .ok (op.tk, i - r.tokens.length) := by
  let rest : List Token := ⟨op.tk, []⟩ :: l.tokens.reverse
  let j : Int := i - r.tokens.length
  obtain ⟨m, pos, hm, hrun⟩ : ∃ m pos, Tighter op m ∧
      main_op_loop (r.tokens.reverse ++ rest) i 0 TK_INVAILD 0 = main_op_loop rest j 0 m pos :=
    scan_tighter h.right hc.2.2.2 (Or.inl rfl)
  have hl : main_op_loop (l.tokens.reverse ++ []) (j - 1) 0 op.tk j =
      main_op_loop [] (j - 1 - l.tokens.length) 0 op.tk j := scan_keep h.left hc.2.2.1
  rw [List.append_nil] at hl
  rw [Ast.tokens_bin]
  simp only [List.reverse_cons, List.reverse_append, List.append_assoc, List.singleton_append]
  show main_op_loop (r.tokens.reverse ++ rest) i 0 TK_INVAILD 0 = _
  rw [hrun, scan_op_take hm, hl]
  rfl

/-! ## Section 3: `eval` -/

section ranges
variable {pre mid post : List Token}

/-- The range of a piece of the array. -/
theorem range_mid {p q : Int} (hp : p = pre.length) (hq : q = pre.length + mid.length - 1) :
    range (pre ++ mid ++ post) p q = mid := by
  have hstart : p.toNat = pre.length := by omega
  have hlen : (q - p + 1).toNat = mid.length := by omega
  rw [range, hstart, hlen, List.append_assoc, List.drop_left, List.take_left]

theorem token_first {t : Token} {p : Int} (hp : p = pre.length) :
    token (pre ++ (t :: mid) ++ post) p = t := by
  have hstart : p.toNat = pre.length := by omega
  simp [token, hstart]

theorem token_last {t : Token} {q : Int} (hq : q = pre.length + mid.length) :
    token (pre ++ (mid ++ [t]) ++ post) q = t := by
  have hstart : q.toNat = (pre ++ mid).length := by simp; omega
  rw [token, hstart, ← List.append_assoc, List.append_assoc (pre ++ mid)]
  simp

end ranges

/-! ### Literals -/

theorem digit_val_digit {c : Char} (h : c.isDigit = true) :
    digit_val 10 c = some (c.toNat - '0'.toNat) := by
  have hall : ∀ c ∈ digits, digit_val 10 c = some (c.toNat - '0'.toNat) := of_chars (by rfl)
  exact hall c ((mem_digits c).mpr h)

theorem strtol_digits_eq (ds : List Char) (hds : ∀ c ∈ ds, c.isDigit = true) (v : Nat) :
    strtol_digits 10 ds v = ds.foldl (fun v c => 10 * v + (c.toNat - '0'.toNat)) v := by
  induction ds generalizing v with
  | nil => rfl
  | cons c ds ih =>
    rw [strtol_digits, digit_val_digit (hds c List.mem_cons_self)]
    show strtol_digits 10 ds (v * 10 + (c.toNat - '0'.toNat)) = _
    rw [ih (fun d hd => hds d (List.mem_cons_of_mem c hd)), Nat.mul_comm]
    rfl

/-- A text that starts with a digit has no blanks and no sign before it. -/
theorem strtol_no_sign {c : Char} (hc : c ∈ digits) (s : List Char) :
    take_sign ((c :: s).dropWhile isspace) = (false, c :: s) := by
  have hplain : ∀ c ∈ digits, isspace c = false ∧ c ≠ '-' ∧ c ≠ '+' := of_chars (by rfl)
  obtain ⟨hspace, hminus, hplus⟩ := hplain c hc
  rw [List.dropWhile_cons, hspace]
  show take_sign (c :: s) = _
  unfold take_sign
  split
  · rename_i heq
    exact absurd (List.cons_eq_cons.mp heq).1 hminus
  · rename_i heq
    exact absurd (List.cons_eq_cons.mp heq).1 hplus
  · rfl

/-- `strtol` reads a decimal literal. -/
theorem strtol_num {ds : List Char} {u : Bool} (h : (Sym.num ds u).Arith) :
    strtol ds 10 = decValue ds := by
  obtain ⟨hne, hds, -, hlt⟩ := h
  obtain ⟨c, ds, rfl⟩ := List.exists_cons_of_ne_nil hne
  have hc := (mem_digits c).mpr (hds c List.mem_cons_self)
  have hval : strtol_digits 10 (c :: ds) 0 = decValue (c :: ds) := strtol_digits_eq (c :: ds) hds 0
  rw [strtol, strtol_no_sign hc]
  show min ((strtol_digits 10 (c :: ds) 0 : Nat) : Int) (2 ^ 63 - 1) = _
  rw [hval]
  omega

/-- The leaf case on a literal. -/
theorem eval_num {g : Guest} (hword : g.isa.wordBytes = 4) {ds : List Char} {u : Bool}
    (h : (Sym.num ds u).Arith) :
    eval_operand g ⟨TK_NUM, ds⟩ = .ok (UInt32.ofNat (decValue ds)).toNat := by
  have hlen := num_length_le h
  have hlt : decValue ds < 0x100000000 := h.2.2.2
  have hsize : g.isa.wordSize = 2 ^ 32 := by rw [Isa.wordSize, hword]; rfl
  have hfit : ¬ ds.length ≥ 32 := by omega
  rw [eval_operand, if_neg hfit]
  show Except.ok (to_word g.isa (strtol ds 10)) = _
  rw [strtol_num h, to_word, hsize, UInt32.toNat_ofNat']
  congr 1

/-- The operators of the two sides agree. -/
theorem eval_op_apply {g : Guest} (hword : g.isa.wordBytes = 4) {op : BinOp} {a b v : UInt32}
    (h : op.apply a b = some v) : eval_op g.isa a.toNat b.toNat op.tk = .ok v.toNat := by
  -- Words of four bytes, so the arithmetic is that of `uint32_t`.
  have hsize : g.isa.wordSize = 2 ^ 32 := by rw [Isa.wordSize, hword]; rfl
  have ha := a.toNat_lt
  have hb := b.toNat_lt
  cases op with
  | plus =>
    cases h
    show Except.ok ((a.toNat + b.toNat) % g.isa.wordSize) = _
    rw [hsize, UInt32.toNat_add]
  | sub =>
    cases h
    show Except.ok ((a.toNat + (g.isa.wordSize - b.toNat)) % g.isa.wordSize) = _
    rw [hsize, UInt32.toNat_sub, Nat.add_comm]
  | mul =>
    cases h
    show Except.ok ((a.toNat * b.toNat) % g.isa.wordSize) = _
    rw [hsize, UInt32.toNat_mul]
  | div =>
    simp only [BinOp.apply] at h
    split at h
    · cases h
    · rename_i hzero
      cases h
      have hne : b.toNat ≠ 0 := fun h0 => hzero (UInt32.toNat_inj.mp h0)
      show (cassert (b.toNat != 0) >>= fun _ => pure (a.toNat / b.toNat)) = _
      rw [bne_iff_ne.mpr hne, UInt32.toNat_div]
      rfl
  | eq =>
    cases h
    show Except.ok (if a.toNat = b.toNat then 1 else 0) = _
    simp only [UInt32.toNat_inj]
    split <;> rfl
  | neq =>
    cases h
    show Except.ok (if a.toNat ≠ b.toNat then 1 else 0) = _
    simp only [ne_eq, UInt32.toNat_inj]
    split <;> rfl
  | and =>
    cases h
    have hzero : ∀ x : UInt32, x.toNat ≠ 0 ↔ x ≠ 0 := fun x => by
      rw [ne_eq, ne_eq, ← UInt32.toNat_inj]; rfl
    show Except.ok (if a.toNat ≠ 0 ∧ b.toNat ≠ 0 then 1 else 0) = _
    simp only [hzero]
    split <;> rfl

/-! ### Trees -/

theorem check_parentheses_eq {pre mid post : List Token} {a b : Token} (hmid : 0 < mid.length)
    {p q : Int} (hp : p = pre.length) (hq : q = pre.length + mid.length + 1) :
    check_parentheses (pre ++ (a :: (mid ++ [b])) ++ post) p q =
      .ok (if a.type ≠ TK_LBRKT ∧ b.type ≠ TK_RBRKT then false else brackets_ok mid 0) := by
  have hlen : q - p + 1 ≥ 3 := by omega
  have ha : token (pre ++ (a :: (mid ++ [b])) ++ post) p = a := token_first hp
  have hb : token (pre ++ (a :: (mid ++ [b])) ++ post) q = b := by
    have hlast : q = pre.length + (a :: mid).length := by simp; omega
    have hshape : a :: (mid ++ [b]) = (a :: mid) ++ [b] := rfl
    rw [hshape]
    exact token_last hlast
  have hrange : range (pre ++ (a :: (mid ++ [b])) ++ post) (p + 1) (q - 1) = mid := by
    have hshape : pre ++ (a :: (mid ++ [b])) ++ post = (pre ++ [a]) ++ mid ++ (b :: post) := by simp
    rw [hshape]
    exact range_mid (by simp; omega) (by simp; omega)
  rw [check_parentheses, decide_eq_true hlen, ha, hb, hrange]
  by_cases hab : a.type ≠ TK_LBRKT ∧ b.type ≠ TK_RBRKT
  · rw [if_pos hab, if_pos hab]; rfl
  · rw [if_neg hab, if_neg hab]; rfl

/-- A list of at least two tokens has a first and a last one. -/
theorem ends_of_length {ts : List Token} (h : 2 ≤ ts.length) :
    ∃ a mid b, ts = a :: (mid ++ [b]) := by
  cases ts with
  | nil => simp at h
  | cons a ts =>
    rcases List.eq_nil_or_concat ts with rfl | ⟨mid, b, rfl⟩
    · simp at h
    · exact ⟨a, mid, b, by simp⟩

theorem check_bin {op : BinOp} {l r : Ast} (h : (Ast.bin op l r).Arith) (pre post : List Token)
    {p q : Int} (hp : p = pre.length)
    (hq : q = pre.length + (Ast.bin op l r).tokens.length - 1) :
    check_parentheses (pre ++ (Ast.bin op l r).tokens ++ post) p q = .ok false := by
  have hl := l.tokens_pos
  have hr := r.tokens_pos
  rw [Ast.length_bin] at hq
  have htwo : 2 ≤ (Ast.bin op l r).tokens.length := by rw [Ast.length_bin]; omega
  obtain ⟨a, mid, b, htoks⟩ := ends_of_length htwo
  have hlen : mid.length + 2 = l.tokens.length + 1 + r.tokens.length := by
    rw [← Ast.length_bin, htoks]
    simp
  rw [htoks, check_parentheses_eq (by omega) hp (by omega)]
  by_cases hab : a.type ≠ TK_LBRKT ∧ b.type ≠ TK_RBRKT
  · rw [if_pos hab]
  · rw [if_neg hab, Ast.bin_not_wrapped h htoks hab]

theorem check_paren {e : Ast} (h : e.Arith) (pre post : List Token) {p q : Int}
    (hp : p = pre.length) (hq : q = pre.length + e.paren.tokens.length - 1) :
    check_parentheses (pre ++ e.paren.tokens ++ post) p q = .ok true := by
  have hpos := e.tokens_pos
  have hbal := Ast.tokens_balanced h [] 0
  rw [List.append_nil] at hbal
  rw [Ast.length_paren] at hq
  rw [Ast.tokens_paren, check_parentheses_eq hpos hp (by omega), hbal]
  rfl

theorem op_ne_invalid (op : BinOp) : op.tk ≠ TK_INVAILD := by
  cases op <;> decide

/-- The parts of a tree with a value have values. -/
theorem Ast.value_bin {op : BinOp} {l r : Ast} {v : UInt32} (h : (bin op l r).value = some v) :
    ∃ a b, l.value = some a ∧ r.value = some b ∧ op.apply a b = some v := by
  rw [value] at h
  obtain ⟨a, ha, h⟩ := Option.bind_eq_some_iff.mp h
  obtain ⟨b, hb, h⟩ := Option.bind_eq_some_iff.mp h
  exact ⟨a, b, ha, hb, h⟩

/-- `eval` on the tokens of a tree of C is the value of the tree. -/
theorem eval_tree {g : Guest} (hword : g.isa.wordBytes = 4) (e : Ast) (h : e.Arith)
    (hc : e.CParse) {v : UInt32} (hv : e.value = some v) (pre post : List Token) {fuel : Nat}
    (hfuel : e.tokens.length ≤ fuel) {p q : Int} (hp : p = pre.length)
    (hq : q = pre.length + e.tokens.length - 1) :
    eval g (pre ++ e.tokens ++ post) fuel p q = .ok v.toNat := by
  induction e generalizing v pre post fuel p q with
  | leaf o =>
    obtain ⟨ds, u, rfl, harith⟩ := h.leaf
    rw [Ast.tokens_leaf] at hfuel hq ⊢
    obtain ⟨k, rfl⟩ : ∃ k, fuel = k + 1 := ⟨fuel - 1, by simp at hfuel; omega⟩
    have hpq : p = q := by simp at hq; omega
    cases hv
    rw [eval, if_neg (by omega), if_pos hpq, token_first hp]
    exact eval_num hword harith
  | paren e ih =>
    have hpos := e.tokens_pos
    have hcheck := check_paren h.paren pre post hp hq
    rw [Ast.length_paren] at hfuel hq
    obtain ⟨k, rfl⟩ : ∃ k, fuel = k + 1 := ⟨fuel - 1, by omega⟩
    rw [eval, if_neg (by omega), if_neg (by omega), hcheck, ok_bind, if_pos rfl]
    have hshape : pre ++ e.paren.tokens ++ post = (pre ++ [lp]) ++ e.tokens ++ (rp :: post) := by
      rw [Ast.tokens_paren]; simp
    rw [hshape]
    exact ih h.paren hc hv (pre ++ [lp]) (rp :: post) (by omega) (by simp; omega) (by simp; omega)
  | bin op l r ihl ihr =>
    have hl := l.tokens_pos
    have hr := r.tokens_pos
    have hcheck := check_bin h pre post hp hq
    have hrange : range (pre ++ (Ast.bin op l r).tokens ++ post) p q = (Ast.bin op l r).tokens :=
      range_mid hp hq
    have hroot := find_root h hc q
    rw [Ast.length_bin] at hfuel hq
    obtain ⟨k, rfl⟩ : ∃ k, fuel = k + 1 := ⟨fuel - 1, by omega⟩
    obtain ⟨a, b, ha, hb, hab⟩ := Ast.value_bin hv
    let o : Token := ⟨op.tk, []⟩
    -- The two recursive calls.
    have hleft : eval g (pre ++ (Ast.bin op l r).tokens ++ post) k p (q - r.tokens.length - 1) =
        .ok a.toNat := by
      have hshape : pre ++ (Ast.bin op l r).tokens ++ post =
          pre ++ l.tokens ++ (o :: (r.tokens ++ post)) := by
        rw [Ast.tokens_bin]; simp [o]
      rw [hshape]
      exact ihl h.left hc.1 ha pre (o :: (r.tokens ++ post)) (by omega) hp (by omega)
    have hright : eval g (pre ++ (Ast.bin op l r).tokens ++ post) k (q - r.tokens.length + 1) q =
        .ok b.toNat := by
      have hshape : pre ++ (Ast.bin op l r).tokens ++ post =
          (pre ++ l.tokens ++ [o]) ++ r.tokens ++ post := by
        rw [Ast.tokens_bin]; simp [o]
      rw [hshape]
      exact ihr h.right hc.2.1 hb (pre ++ l.tokens ++ [o]) post (by omega) (by simp; omega)
        (by simp; omega)
    rw [eval, if_neg (by omega), if_neg (by omega), hcheck, ok_bind, if_neg (by simp),
      find_main_op, hrange, hroot, ok_bind]
    show (if op.tk = TK_INVAILD then .error .assertion else
      eval g _ k p (q - r.tokens.length - 1) >>= fun val1 =>
        eval g _ k (q - r.tokens.length + 1) q >>= fun val2 =>
          eval_op g.isa val1 val2 op.tk) = _
    rw [if_neg (op_ne_invalid op), hleft, ok_bind, hright, ok_bind]
    exact eval_op_apply hword hab

/-! ## Section 4: `expr` -/

/-- Every expression has a reading of C, and `expr` returns its value: for all
    ways to print it, unless a divisor is 0. -/
theorem expr_computes_c_value {g : Guest} (hword : g.isa.wordBytes = 4) {e : Ast} {s : List Char}
    (harith : ∀ y ∈ e.syms, y.Arith) (hp : Printed e.syms s) (hroom : e.syms.length ≤ 63000) :
    (∃ c : Ast, c.CParse ∧ c.syms = e.syms) ∧
    ∀ c : Ast, c.CParse → c.syms = e.syms → ∀ v, c.value = some v →
      expr g s = .ok (some v.toNat) := by
  refine ⟨e.exists_cParse, fun c hc hsyms v hv => ?_⟩
  have hca : c.Arith := fun y hy => harith y (hsyms ▸ hy)
  have htoks : make_token s = .ok (some c.tokens) := by
    rw [make_token_printed hp harith hroom, ← hsyms]
    rfl
  have heval := eval_tree hword c hca hc hv [] [] (Nat.le_succ c.tokens.length)
    (p := 0) (q := c.tokens.length - 1) rfl (by simp)
  rw [List.nil_append, List.append_nil] at heval
  rw [expr, htoks, ok_bind]
  show (eval g c.tokens (c.tokens.length + 1) 0 (c.tokens.length - 1) >>= fun res =>
    pure (some res)) = _
  rw [heval]
  rfl

/-- A guest without registers to name, over empty memory. -/
def plainGuest : Guest := ⟨.mips32, fun _ => none, fun _ => 0⟩

/-- `2 * (3U - 4)`: the subtraction wraps around. -/
theorem expr_computes_wrapped_product :
    expr plainGuest ['2', ' ', '*', '(', '3', 'U', ' ', '-', '4', ')'] =
      .ok (some 4294967294) := by
  let two : Ast := .leaf (.num ['2'] false)
  let diff : Ast := .bin .sub (.leaf (.num ['3'] true)) (.leaf (.num ['4'] false))
  let e : Ast := .bin .mul two (.paren diff)
  -- Each symbol is one that C reads the same way.
  have harith : ∀ y ∈ e.syms, y.Arith := by
    have hnum : ∀ c u, c ∈ digits → (Sym.num [c] u).Arith := by
      intro c u hc
      refine ⟨by simp, fun d hd => ?_, fun h => ?_, ?_⟩
      · obtain rfl := List.mem_singleton.mp hd
        exact (mem_digits d).mp hc
      · rw [Option.some.inj h]
      · have hall : ∀ c ∈ digits, decValue [c] < 0x100000000 := of_chars (by rfl)
        exact hall c hc
    intro y hy
    have hcases : y = .num ['2'] false ∨ y = .op .mul ∨ y = .lbrkt ∨ y = .num ['3'] true ∨
        y = .op .sub ∨ y = .num ['4'] false ∨ y = .rbrkt := by
      simpa [e, two, diff, Ast.syms, Operand.syms] using hy
    rcases hcases with rfl | rfl | rfl | rfl | rfl | rfl | rfl
    · exact hnum '2' false (by decide)
    · exact trivial
    · exact trivial
    · exact hnum '3' true (by decide)
    · exact trivial
    · exact hnum '4' false (by decide)
    · exact trivial
  have hp : Printed e.syms ['2', ' ', '*', '(', '3', 'U', ' ', '-', '4', ')'] :=
    Printed.cons 0 (.num ['2'] false) <| Printed.cons 1 (.op .mul) <| Printed.cons 0 .lbrkt <|
      Printed.cons 0 (.num ['3'] true) <| Printed.cons 1 (.op .sub) <|
        Printed.cons 0 (.num ['4'] false) <| Printed.cons 0 .rbrkt <| Printed.nil 0
  have hc : e.CParse := by
    refine ⟨trivial, ⟨trivial, trivial, ?_, ?_⟩, ?_, ?_⟩ <;> intro o ho <;> cases ho
  exact (expr_computes_c_value rfl harith hp (by decide)).2 e hc rfl 4294967294 rfl

end Nemu.Expr
