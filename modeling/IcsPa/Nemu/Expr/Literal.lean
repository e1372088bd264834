import IcsPa.Nemu.Expr.Correct
import IcsPa.Nemu.Expr.Tokens
import IcsPa.Framework.Hex
import Mathlib.Data.Nat.Digits.Lemmas

/-! # Typing a word back

    A word can be written in decimal, with or without `U`, and in hexadecimal
    with either prefix, either case of each digit, as short as possible or
    padded to eight digits as the commands of the debugger print it.

    The rule for hex literals only knows decimal digits, and `make_token`
    takes no literal of ten characters.  So a decimal literal is always read
    back, but of the hex literals only those that are short and have no
    letter, and none that is padded. -/

open CCall Regex RegularExpression

namespace Nemu.Expr

open TK

/-! ## Section 1: Writing a word -/

/-- The digits of a number, the most significant one first. -/
def digit_values (base v : Nat) : List Nat := if v = 0 then [0] else (Nat.digits base v).reverse

/-- Zeros before the digits, up to `n` of them in all. -/
def pad (n : Nat) (ds : List Nat) : List Nat := List.replicate (n - ds.length) 0 ++ ds

def digit_char (upper : Bool) (d : Nat) : Char :=
  if d < 10 then Char.ofNat ('0'.toNat + d)
  else Char.ofNat ((if upper then 'A' else 'a').toNat + (d - 10))

/-- The ways to write a word.  `X` is the case of the prefix, `upper i` that of
    digit `i`. -/
inductive Literal where
  | dec (u : Bool)
  | hex (X : Bool) (upper : Nat → Bool) (padded : Bool)

def hex_digits (padded : Bool) (v : Nat) : List Nat :=
  if padded then pad 8 (digit_values 16 v) else digit_values 16 v

def Literal.text (v : Nat) : Literal → List Char
  | dec u => (digit_values 10 v).map (digit_char false) ++ suffix u
  | hex X upper padded =>
      '0' :: (if X then 'X' else 'x') ::
        (hex_digits padded v).mapIdx fun i d => digit_char (upper i) d

/-- The literals that are read back: all decimal ones, and those in
    hexadecimal that are not padded and have at most seven digits, none of
    them a letter. -/
def Literal.Readable (v : Nat) : Literal → Prop
  | dec _ => True
  | hex _ _ padded => padded = false ∧ v < 16 ^ 7 ∧ ∀ d ∈ Nat.digits 16 v, d < 10

instance (v : Nat) (l : Literal) : Decidable (l.Readable v) :=
  match l with
  | .dec _ => isTrue trivial
  | .hex _ _ padded =>
      inferInstanceAs (Decidable (padded = false ∧ v < 16 ^ 7 ∧ ∀ d ∈ Nat.digits 16 v, d < 10))

/-! ## Section 2: Digits -/

theorem digit_values_lt {base v : Nat} (hb : 1 < base) : ∀ d ∈ digit_values base v, d < base := by
  intro d hd
  unfold digit_values at hd
  split at hd
  · rw [List.mem_singleton.mp hd]
    omega
  · exact Nat.digits_lt_base hb (List.mem_reverse.mp hd)

theorem digit_values_ne_nil (base v : Nat) : digit_values base v ≠ [] := by
  unfold digit_values
  split
  · exact List.cons_ne_nil 0 []
  · rename_i hv
    intro h
    exact hv (Nat.digits_eq_nil_iff_eq_zero.mp (List.reverse_eq_nil_iff.mp h))

theorem digit_values_length {base v k : Nat} (hb : 1 < base) (hk : 0 < k) :
    (digit_values base v).length ≤ k ↔ v < base ^ k := by
  unfold digit_values
  split
  · rename_i hv
    subst hv
    exact ⟨fun _ => Nat.pow_pos (by omega), fun _ => hk⟩
  · rw [List.length_reverse]
    exact Nat.digits_length_le_iff hb v

/-- Reading the digits from the left gives the number again. -/
theorem digit_values_value (base v : Nat) :
    (digit_values base v).foldl (fun n d => n * base + d) 0 = v := by
  unfold digit_values
  split
  · rename_i hv
    rw [hv]
    simp
  · exact Hex.foldl_reverse_digits base v

theorem decimals_mem {ds : List Nat} (hds : ∀ d ∈ ds, d < 10) :
    ∀ c ∈ ds.map (digit_char false), c ∈ digits := by
  intro c hc
  obtain ⟨d, hd, rfl⟩ := List.mem_map.mp hc
  have hlt := hds d hd
  interval_cases d <;> decide

/-- The case of a decimal digit does not matter. -/
theorem mapIdx_decimals {ds : List Nat} (upper : Nat → Bool) (hds : ∀ d ∈ ds, d < 10) :
    (ds.mapIdx fun i d => digit_char (upper i) d) = ds.map (digit_char false) := by
  apply List.ext_getElem
  · simp
  · intro i h₁ h₂
    have hi : i < ds.length := by simpa using h₂
    have hlt : ds[i] < 10 := hds _ (List.getElem_mem hi)
    simp [digit_char, hlt]

theorem digit_val_char {base d : Nat} (hbase : 10 ≤ base) (hd : d < 10) :
    digit_val base (digit_char false d) = some d := by
  have hchar : ∀ d < 10, (digit_char false d).isDigit = true ∧
      (digit_char false d).toNat - '0'.toNat = d := by decide
  obtain ⟨hdigit, hval⟩ := hchar d hd
  have hbase' : d < base := by omega
  have hval' : (digit_char false d).toNat - 48 = d := hval
  simp [digit_val, hdigit, hval', hbase']

theorem strtol_digits_decimals {base : Nat} (hbase : 10 ≤ base) {ds : List Nat}
    (hds : ∀ d ∈ ds, d < 10) (n : Nat) :
    strtol_digits base (ds.map (digit_char false)) n = ds.foldl (fun n d => n * base + d) n := by
  induction ds generalizing n with
  | nil => rfl
  | cons d ds ih =>
    rw [List.map_cons, strtol_digits, digit_val_char hbase (hds d List.mem_cons_self)]
    exact ih (fun e he => hds e (List.mem_cons_of_mem d he)) (n * base + d)

theorem to_word_of_lt (isa : Isa) {v : Nat} (hv : v < 2 ^ 32) :
    to_word isa (min (v : Int) (2 ^ 63 - 1)) = v := by
  have hsize : 2 ^ 32 ≤ isa.wordSize := by
    unfold Isa.wordSize
    rcases isa.wordBytes_cases with h | h <;> rw [h] <;> decide
  have hmin : min (v : Int) (2 ^ 63 - 1) = v := by omega
  have hlt : (v : Int) < isa.wordSize := by omega
  rw [to_word, hmin, Int.emod_eq_of_lt (by omega) hlt]
  rfl

/-! ## Section 3: One literal, one token -/

/-- A string that is matched as a whole by the rule of a literal gives one
    token, if it is not too long for it. -/
theorem make_token_single {s : List Char} {type : TK} (hs : s ≠ [])
    (hm : match_rule s = some (type, s.length)) :
    make_token s = add_token [] type s >>= fun tokens => .ok (some tokens) := by
  obtain ⟨c, t, rfl⟩ := List.exists_cons_of_ne_nil hs
  have hloop : ∀ fuel tokens, make_token_loop fuel tokens [] = .ok (some tokens) := by
    intro fuel tokens
    cases fuel <;> rfl
  -- The first round takes the whole string, and the second one ends.
  show make_token_loop (t.length + 1) [] (c :: t) = _
  rw [make_token_loop, hm]
  show (add_token [] type ((c :: t).take (c :: t).length) >>= fun tokens =>
    make_token_loop t.length tokens ((c :: t).drop (c :: t).length)) = _
  rw [List.take_length, List.drop_length]
  congr 1
  funext tokens
  exact hloop t.length tokens

/-- The value of a single token is that of the operand. -/
theorem expr_single (g : Guest) {s : List Char} {t : Token} (h : make_token s = .ok (some [t])) :
    expr g s = eval_operand g t >>= fun res => .ok (some res) := by
  have heval : eval g [t] 2 0 0 = eval_operand g t := rfl
  rw [expr, h, ok_bind]
  show (eval g [t] 2 0 0 >>= fun res => pure (some res)) = _
  rw [heval]
  rfl

theorem endsNumber_nil : EndsNumber [] := by
  intro c hc
  exact absurd hc (Option.not_mem_none c)

/-- A decimal literal is read back. -/
theorem expr_decimal (g : Guest) {v : Nat} (hv : v < 2 ^ 32) (u : Bool) :
    expr g ((Literal.dec u).text v) = .ok (some v) := by
  let ds := digit_values 10 v
  have hlt : ∀ d ∈ ds, d < 10 := digit_values_lt (by decide)
  have hmem : ∀ c ∈ ds.map (digit_char false), c ∈ digits := decimals_mem hlt
  have hne : ds.map (digit_char false) ≠ [] := by simpa using digit_values_ne_nil 10 v
  have hlen : ds.length ≤ 10 :=
    (digit_values_length (by decide) (by decide)).mpr (lt_of_lt_of_le hv (by decide))
  have hu : (suffix u).length ≤ 1 := by cases u <;> decide
  show expr g (ds.map (digit_char false) ++ suffix u) = _
  -- From here on only the digits count, not the value they come from.
  generalize hcs : ds.map (digit_char false) = cs at hmem hne
  have hcslen : cs.length ≤ 10 := by rw [← hcs, List.length_map]; exact hlen
  have hmatch := match_number u hne hmem endsNumber_nil
  rw [List.append_nil] at hmatch
  have hfit : (cs ++ suffix u).length < 32 := by rw [List.length_append]; omega
  have hadd : add_token [] TK_NUM (cs ++ suffix u) = .ok [⟨TK_NUM, cs⟩] := by
    rw [add_token, if_pos (memset_fits_of_le (by simp))]
    show (cassert (decide ((cs ++ suffix u).length < 32)) >>= fun _ =>
      pure [Token.mk TK_NUM (num_str (cs ++ suffix u))]) = _
    rw [decide_eq_true hfit, num_str_text u fun c hc => (mem_digits c).mp (hmem c hc)]
    rfl
  have htok : make_token (cs ++ suffix u) = .ok (some [⟨TK_NUM, cs⟩]) := by
    rw [make_token_single (by simp [hne]) hmatch, hadd]
    rfl
  rw [expr_single g htok, eval_operand, if_neg (by show ¬ cs.length ≥ 32; omega)]
  show (Except.ok (to_word g.isa (strtol cs 10)) >>= fun res => Except.ok (some res)) = _
  have hstr : strtol cs 10 = min (v : Int) (2 ^ 63 - 1) := by
    obtain ⟨c, t, hct⟩ := List.exists_cons_of_ne_nil hne
    have hval : strtol_digits 10 cs 0 = v := by
      rw [← hcs, strtol_digits_decimals (by decide) hlt, digit_values_value]
    have hsign := strtol_no_sign (hmem c (by rw [hct]; exact List.mem_cons_self)) t
    rw [← hct] at hsign
    rw [strtol, hsign]
    show min ((strtol_digits 10 cs 0 : Nat) : Int) (2 ^ 63 - 1) = _
    rw [hval]
  rw [hstr, to_word_of_lt g.isa hv]
  rfl

section hex
variable (g : Guest) {X padded : Bool} {upper : Nat → Bool} {v : Nat}

/-- Without letters the text is its prefix and decimal digits. -/
theorem hex_text_decimals (X : Bool) (upper : Nat → Bool)
    (hds : ∀ d ∈ hex_digits padded v, d < 10) :
    (Literal.hex X upper padded).text v =
      '0' :: (if X then 'X' else 'x') :: (hex_digits padded v).map (digit_char false) := by
  show '0' :: _ :: ((hex_digits padded v).mapIdx fun i d => digit_char (upper i) d) = _
  rw [mapIdx_decimals upper hds]

/-- It is then matched as a whole by the rule of the hex literals. -/
theorem match_hex_text (X : Bool) (upper : Nat → Bool) (hds : ∀ d ∈ hex_digits padded v, d < 10)
    (hne : hex_digits padded v ≠ []) :
    match_rule ((Literal.hex X upper padded).text v) =
      some (TK_HEX_NUM, ((Literal.hex X upper padded).text v).length) := by
  rw [hex_text_decimals X upper hds]
  have hx : (if X then 'X' else 'x') = 'x' ∨ (if X then 'X' else 'x') = 'X' := by
    cases X
    · exact Or.inl rfl
    · exact Or.inr rfl
  have hmatch := match_hex false hx (by simpa using hne) (decimals_mem hds) endsNumber_nil
  simpa [suffix] using hmatch

theorem hex_digits_ne_nil : hex_digits padded v ≠ [] := by
  unfold hex_digits pad
  split
  · exact fun h => digit_values_ne_nil 16 v (List.append_eq_nil_iff.mp h).2
  · exact digit_values_ne_nil 16 v

/-- A short hex literal without letters is read back. -/
theorem expr_hex (hv : v < 16 ^ 7) (hds : ∀ d ∈ digit_values 16 v, d < 10) :
    expr g ((Literal.hex X upper false).text v) = .ok (some v) := by
  let ds := digit_values 16 v
  have hlen : ds.length ≤ 7 := (digit_values_length (by decide) (by decide)).mpr hv
  have hne : ds ≠ [] := digit_values_ne_nil 16 v
  have hall : ∀ d ∈ hex_digits false v, d < 10 := hds
  have hmatch := match_hex_text X upper hall hex_digits_ne_nil
  have htext := hex_text_decimals X upper hall
  rw [htext] at hmatch ⊢
  generalize hx : (if X then 'X' else 'x') = x at hmatch ⊢
  change match_rule ('0' :: x :: ds.map (digit_char false)) = _ at hmatch
  show expr g ('0' :: x :: ds.map (digit_char false)) = _
  have hfit : ('0' :: x :: ds.map (digit_char false)).length < 10 := by
    rw [List.length_cons, List.length_cons, List.length_map]
    omega
  have hadd : add_token [] TK_HEX_NUM ('0' :: x :: ds.map (digit_char false)) =
      .ok [⟨TK_HEX_NUM, '0' :: x :: ds.map (digit_char false)⟩] := by
    rw [add_token, if_pos (memset_fits_of_le (by simp))]
    show (cassert (decide (('0' :: x :: ds.map (digit_char false)).length < 10)) >>= fun _ =>
      pure (push_hex [] _)) = _
    rw [decide_eq_true hfit]
    rfl
  have htok : make_token ('0' :: x :: ds.map (digit_char false)) =
      .ok (some [⟨TK_HEX_NUM, '0' :: x :: ds.map (digit_char false)⟩]) := by
    rw [make_token_single (List.cons_ne_nil _ _) hmatch, hadd]
    rfl
  have hshort : ¬ ('0' :: x :: ds.map (digit_char false)).length ≥ 32 := by omega
  rw [expr_single g htok, eval_operand, if_neg hshort]
  show (Except.ok (to_word g.isa (strtol ('0' :: x :: ds.map (digit_char false)) 16)) >>= fun res =>
    Except.ok (some res)) = _
  -- `strtol` skips the prefix again.
  have hstr : strtol ('0' :: x :: ds.map (digit_char false)) 16 = min (v : Int) (2 ^ 63 - 1) := by
    have hval : strtol_digits 16 (ds.map (digit_char false)) 0 = v := by
      rw [strtol_digits_decimals (by decide) hds, digit_values_value]
    have hskip : skip_0x ('0' :: x :: ds.map (digit_char false)) = ds.map (digit_char false) := by
      cases X <;> (rw [← hx]; rfl)
    rw [strtol, strtol_no_sign (by decide)]
    show min ((strtol_digits 16 (skip_0x _) 0 : Nat) : Int) (2 ^ 63 - 1) = _
    rw [hskip, hval]
  have hword : v < 2 ^ 32 := lt_trans hv (by decide)
  rw [hstr, to_word_of_lt g.isa hword]
  rfl

/-- No token is made of a hex literal of eight digits or more. -/
theorem expr_long_hex (hds : ∀ d ∈ hex_digits padded v, d < 10)
    (hlong : 8 ≤ (hex_digits padded v).length) :
    expr g ((Literal.hex X upper padded).text v) = .error .assertion := by
  have hmatch := match_hex_text X upper hds hex_digits_ne_nil
  have htext := hex_text_decimals X upper hds
  have hlen : ¬ ((Literal.hex X upper padded).text v).length < 10 := by
    rw [htext, List.length_cons, List.length_cons, List.length_map]
    omega
  have hne : (Literal.hex X upper padded).text v ≠ [] := by
    rw [htext]
    exact List.cons_ne_nil _ _
  have hadd : add_token [] TK_HEX_NUM ((Literal.hex X upper padded).text v) =
      .error .assertion := by
    rw [add_token, if_pos (memset_fits_of_le (by simp))]
    show (cassert (decide (((Literal.hex X upper padded).text v).length < 10)) >>= fun _ =>
      pure (push_hex [] _)) = _
    rw [decide_eq_false hlen]
    rfl
  rw [expr, make_token_single hne hmatch, hadd]
  rfl

/-! ### Letters -/

def hex_letters : List Char := ['a', 'b', 'c', 'd', 'e', 'f', 'A', 'B', 'C', 'D', 'E', 'F']

theorem digit_char_letter (upper : Bool) {d : Nat} (hd : 10 ≤ d) (hlt : d < 16) :
    digit_char upper d ∈ hex_letters := by
  interval_cases d <;> cases upper <;> decide

theorem digit_char_ne_dollar (upper : Bool) {d : Nat} (hlt : d < 16) :
    digit_char upper d ≠ '$' := by
  interval_cases d <;> cases upper <;> decide

/-- Only a register name has such a letter, and it starts with `$`. -/
theorem Matched.dollar {l : Lexeme} (h : Matched l) {c : Char} (hc : c ∈ l.2)
    (hletter : c ∈ hex_letters) : '$' ∈ l.2 := by
  by_cases hreg : l.1 = TK_REG
  · have hrule : ⟨char '$' * oneOrMore (anyOf letters), TK_REG, UCHAR_MAX⟩ ∈ rules := by
      simp [rules]
    obtain ⟨a, ha, name, -, hcat⟩ := (mem_mul _ _ _).mp (h.mem hrule hreg.symm)
    rw [← hcat, (mem_char _ _).mp ha]
    exact List.mem_append_left _ (List.mem_singleton_self '$')
  · obtain ⟨rule, hrule, htype, hmem⟩ := h
    have hrules : (rules.all fun rule => rule.token_type == TK_REG ||
        hex_letters.all fun c => decide (c ∉ alphabet rule.regex)) = true := by rfl
    have hall := List.all_eq_true.mp hrules rule hrule
    rcases Bool.or_eq_true_iff.mp hall with htk | hno
    · exact absurd (htype.symm.trans (of_decide_eq_true htk)) hreg
    · have hnot := of_decide_eq_true (List.all_eq_true.mp hno c hletter)
      exact absurd (mem_alphabet rule.regex hmem c hc) hnot

theorem hex_digits_lt : ∀ d ∈ hex_digits padded v, d < 16 := by
  intro d hd
  unfold hex_digits pad at hd
  split at hd
  · rcases List.mem_append.mp hd with hd | hd
    · rw [(List.mem_replicate.mp hd).2]
      decide
    · exact digit_values_lt (by decide) d hd
  · exact digit_values_lt (by decide) d hd

/-- A literal with a letter leaves something that no rule matches. -/
theorem make_token_letter {d : Nat} (hd : d ∈ hex_digits padded v) (hletter : 10 ≤ d)
    (tokens : List Token) :
    make_token ((Literal.hex X upper padded).text v) ≠ .ok (some tokens) := by
  intro hok
  obtain ⟨hrest, -, -⟩ := (make_token_some_iff _ _).mp hok
  obtain ⟨hjoin, hpieces⟩ :=
    split_pieces ((Literal.hex X upper padded).text v).length ((Literal.hex X upper padded).text v)
  change (split _).2 = [] at hrest
  rw [show (split_loop _ ((Literal.hex X upper padded).text v)).2 = [] from hrest,
    List.append_nil] at hjoin
  obtain ⟨i, hi, rfl⟩ := List.getElem_of_mem hd
  have hc : digit_char (upper i) (hex_digits padded v)[i] ∈
      (Literal.hex X upper padded).text v := by
    refine List.mem_cons_of_mem _ (List.mem_cons_of_mem _ ?_)
    exact List.mem_mapIdx.mpr ⟨i, hi, rfl⟩
  have hmem := digit_char_letter (upper i) hletter (hex_digits_lt _ hd)
  -- The letter lies in some piece, and so would a `$`.
  rw [← hjoin] at hc
  obtain ⟨piece, hpiece, hcp⟩ := List.mem_flatten.mp hc
  obtain ⟨l, hl, rfl⟩ := List.mem_map.mp hpiece
  have hdollar := Matched.dollar (hpieces l hl) hcp hmem
  have htext : '$' ∈ (Literal.hex X upper padded).text v := by
    rw [← hjoin]
    exact List.mem_flatten.mpr ⟨l.2, List.mem_map_of_mem hl, hdollar⟩
  rcases List.mem_cons.mp htext with h | htext
  · exact absurd h (by decide)
  rcases List.mem_cons.mp htext with h | htext
  · cases X <;> exact absurd h (by decide)
  obtain ⟨j, hj, heq⟩ := List.mem_mapIdx.mp htext
  exact digit_char_ne_dollar (upper j) (hex_digits_lt _ (List.getElem_mem hj)) heq

theorem expr_letter {d w : Nat} (hd : d ∈ hex_digits padded v) (hletter : 10 ≤ d) :
    expr g ((Literal.hex X upper padded).text v) ≠ .ok (some w) := by
  intro h
  obtain ⟨r, hr, h⟩ := bind_eq_ok h
  cases r with
  | none => cases h
  | some tokens => exact make_token_letter hd hletter tokens hr

end hex

/-! ## Section 4: What is read back -/

/-- Zeros make no digit a letter. -/
theorem mem_hex_digits (padded : Bool) (v : Nat) {d : Nat} (hd : d ≠ 0) :
    d ∈ hex_digits padded v ↔ d ∈ Nat.digits 16 v := by
  have hvalues : d ∈ digit_values 16 v ↔ d ∈ Nat.digits 16 v := by
    unfold digit_values
    split
    · rename_i hv
      simp [hv, hd]
    · exact List.mem_reverse
  unfold hex_digits pad
  split
  · rw [List.mem_append, hvalues]
    exact ⟨fun h => h.resolve_left fun h => hd (List.mem_replicate.mp h).2, Or.inr⟩
  · exact hvalues

theorem hex_digits_long {padded : Bool} {v : Nat} (h : padded = true ∨ 16 ^ 7 ≤ v) :
    8 ≤ (hex_digits padded v).length := by
  have hvalues : 16 ^ 7 ≤ v → 8 ≤ (digit_values 16 v).length := by
    intro hv
    by_contra hlen
    have hle : (digit_values 16 v).length ≤ 7 := by omega
    have hlt := (digit_values_length (by decide) (by decide)).mp hle
    omega
  unfold hex_digits pad
  split
  · rw [List.length_append, List.length_replicate]
    omega
  · exact hvalues (h.resolve_left (by assumption))

/-- A literal of a word is read back exactly if it is decimal, or a hex literal
    of at most seven digits without letters and padding. -/
theorem expr_text_iff (g : Guest) (v : UInt32) (l : Literal) :
    expr g (l.text v.toNat) = .ok (some v.toNat) ↔ l.Readable v.toNat := by
  have hv : v.toNat < 2 ^ 32 := v.toNat_lt
  generalize v.toNat = v at hv ⊢
  cases l with
  | dec u => exact ⟨fun _ => trivial, fun _ => expr_decimal g hv u⟩
  | hex X upper padded =>
    show _ ↔ padded = false ∧ v < 16 ^ 7 ∧ ∀ d ∈ Nat.digits 16 v, d < 10
    by_cases hletters : ∀ d ∈ hex_digits padded v, d < 10
    · have hdigits : ∀ d ∈ Nat.digits 16 v, d < 10 := by
        intro d hd
        by_cases hzero : d = 0
        · omega
        · exact hletters d ((mem_hex_digits padded v hzero).mpr hd)
      -- `make_token` asserts fewer than ten characters, with the prefix.
      by_cases hlong : padded = true ∨ 16 ^ 7 ≤ v
      · rw [expr_long_hex g hletters (hex_digits_long hlong)]
        constructor
        · intro h
          cases h
        · rintro ⟨rfl, hlt, -⟩
          rcases hlong with h | h
          · cases h
          · omega
      -- Short and without letters: the one case that is read.
      · rw [not_or] at hlong
        obtain rfl : padded = false := Bool.eq_false_of_not_eq_true hlong.1
        have hlt : v < 16 ^ 7 := by omega
        exact ⟨fun _ => ⟨rfl, hlt, hdigits⟩, fun _ => expr_hex g hlt hletters⟩
    -- A letter ends the last match of the text.
    · push Not at hletters
      obtain ⟨d, hd, hten⟩ := hletters
      constructor
      · intro h
        exact absurd h (expr_letter g hd hten)
      · rintro ⟨-, -, hall⟩
        have hlt := hall d ((mem_hex_digits padded v (by omega)).mp hd)
        omega

/-- What `isa_reg_display` prints for a register, `0x%08X`. -/
def reg_text (v : UInt32) : List Char := (Literal.hex false (fun _ => true) true).text v.toNat

/-- Which literals are read back; a register as it is displayed never is. -/
theorem literal_read_back_iff (g : Guest) (v : UInt32) :
    (∀ l : Literal, expr g (l.text v.toNat) = .ok (some v.toNat) ↔ l.Readable v.toNat) ∧
      expr g (reg_text v) ≠ .ok (some v.toNat) := by
  constructor
  · exact expr_text_iff g v
  · intro h
    obtain ⟨hpadded, -⟩ := (expr_text_iff g v (.hex false (fun _ => true) true)).mp h
    cases hpadded

/-- The `pc` at the start, as it is displayed. -/
theorem start_pc_not_read_back :
    expr plainGuest ['0', 'x', '0', '0', '1', '0', '0', '0', '0', '0'] = .error .assertion ∧
      reg_text 0x100000 = ['0', 'x', '0', '0', '1', '0', '0', '0', '0', '0'] ∧
      ¬ ∀ (g : Guest) (v : UInt32) (l : Literal),
        expr g (l.text v.toNat) = .ok (some v.toNat) := by
  have hexpr : expr plainGuest ['0', 'x', '0', '0', '1', '0', '0', '0', '0', '0'] =
      .error .assertion := by rfl
  have htext : reg_text 0x100000 = ['0', 'x', '0', '0', '1', '0', '0', '0', '0', '0'] := by decide
  refine ⟨hexpr, htext, fun h => ?_⟩
  have hback : expr plainGuest (reg_text 0x100000) = _ :=
    h plainGuest 0x100000 (.hex false (fun _ => true) true)
  rw [htext, hexpr] at hback
  cases hback

end Nemu.Expr
