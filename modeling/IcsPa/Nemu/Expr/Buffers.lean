import IcsPa.Nemu.Expr.Literal

/-! # The buffers of the lexer

    Where `make_token` and the leaf case of `eval` write.  Each token has 32
    characters of its own, but the `memset` at the start of every round
    clears `TOKENS_MAX_SIZE` bytes from there on.  Of the copies after it,
    only that of a register name is not bounded. -/

open CCall Regex RegularExpression

namespace Nemu.Expr

open TK

/-! ## Section 1: Writes -/

/-- `sizeof(tokens[i].str)`, and of the `str` in `eval`. -/
def STR_SIZE : Nat := 32

/-- A write to `tokens[i].type`, or to the first `len` bytes from
    `tokens[i].str` on. -/
inductive Write where
  | type (i : Nat)
  | str (i len : Nat)
  deriving DecidableEq, Repr

/-- The write stays in the array, and in its own field. -/
def Write.Inside : Write → Prop
  | type i => i < TOKENS_MAX_SIZE
  | str i len => i < TOKENS_MAX_SIZE ∧ len ≤ STR_SIZE

/-- A round of the loop: the tokens before it and what was matched. -/
structure Round where
  tokens : List Token
  type   : TK
  substr : List Char

/-- What the `switch` writes. -/
def Round.copies (r : Round) : List Write :=
  let nr_token := r.tokens.length
  match r.type with
  | TK_NOTYPE => []
  | TK_REG => [.type nr_token, .str nr_token (r.substr.length - 1)]
  | TK_NUM =>
      .type nr_token ::
        if r.substr.length < 32 then [.str nr_token (num_str r.substr).length] else []
  | TK_HEX_NUM =>
      if r.substr.length < 10 then
        match r.tokens.getLast? with
        | some ⟨TK_DEREF, _⟩ => [.str (nr_token - 1) r.substr.length]
        | _ => [.type nr_token, .str nr_token r.substr.length]
      else []
  | _ => [.type nr_token]

/-- All that a round writes, with the `memset` first. -/
def Round.writes (r : Round) : List Write := .str r.tokens.length TOKENS_MAX_SIZE :: r.copies

/-- The round `r`, and those after it if it does not stop the program. -/
def Round.andThen (r : Round) (stored : Except Fault (List Token))
    (rest : List Token → List Round × Except Fault (Option (List Token))) :
    List Round × Except Fault (Option (List Token)) :=
  match stored with
  | .error e => ([r], .error e)
  | .ok tokens => (r :: (rest tokens).1, (rest tokens).2)

/-- `make_token_loop` with its rounds, up to the one that stops the program. -/
def trace_loop : Nat → List Token → List Char → List Round × Except Fault (Option (List Token))
  | _, tokens, [] => ([], .ok (some tokens))
  | 0, _, _ :: _ => ([], .error .diverges)
  | fuel + 1, tokens, c :: s =>
      match match_rule (c :: s) with
      | none => ([], .ok none)
      | some (type, substr_len) =>
          Round.andThen ⟨tokens, type, (c :: s).take substr_len⟩
            (add_token tokens type ((c :: s).take substr_len)) fun tokens =>
              trace_loop fuel tokens ((c :: s).drop substr_len)

def rounds (e : List Char) : List Round := (trace_loop e.length [] e).1

/-- The rounds are those of `make_token`. -/
theorem trace_loop_result (fuel : Nat) (tokens : List Token) (s : List Char) :
    (trace_loop fuel tokens s).2 = make_token_loop fuel tokens s := by
  induction fuel generalizing tokens s with
  | zero => cases s <;> rfl
  | succ fuel ih =>
    cases s with
    | nil => simp [trace_loop, make_token_loop]
    | cons c s =>
      rw [trace_loop, make_token_loop]
      -- The two loops make the same round, and then the induction hypothesis is about the rest.
      cases match_rule (c :: s) with
      | none => rfl
      | some m =>
        obtain ⟨type, n⟩ := m
        show (Round.andThen _ (add_token tokens type ((c :: s).take n)) _).2 =
          (add_token tokens type ((c :: s).take n) >>= _)
        cases add_token tokens type ((c :: s).take n) with
        | error e => rfl
        | ok tokens' => exact ih tokens' ((c :: s).drop n)

/-! ## Section 2: The buffers -/

/-- All writes for a token are inside its own field and the array, `nr_token`
    stays within the array, and the text of every token ends within its field,
    so that `eval` can copy it with its `NUL`. -/
structure StaysInside (e : List Char) : Prop where
  writes     : ∀ r ∈ rounds e, ∀ w ∈ r.writes, w.Inside
  count      : ∀ r ∈ rounds e, r.tokens.length ≤ TOKENS_MAX_SIZE
  terminated : ∀ tokens, make_token e = .ok (some tokens) →
    tokens.length ≤ TOKENS_MAX_SIZE ∧ ∀ t ∈ tokens, t.str.length + 1 ≤ STR_SIZE

/-- The `memset` of a round never is. -/
theorem memset_outside (r : Round) : ¬ ∀ w ∈ r.writes, w.Inside := by
  intro h
  have hmem : Write.str r.tokens.length TOKENS_MAX_SIZE ∈ r.writes := List.mem_cons_self
  have hlen : TOKENS_MAX_SIZE ≤ STR_SIZE := (h _ hmem).2
  rw [TOKENS_MAX_SIZE, STR_SIZE] at hlen
  omega

theorem rounds_eq_nil_iff (e : List Char) : rounds e = [] ↔ e = [] ∨ match_rule e = none := by
  cases e with
  | nil => exact ⟨fun _ => Or.inl rfl, fun _ => rfl⟩
  | cons c s =>
    show (trace_loop (s.length + 1) [] (c :: s)).1 = [] ↔ _
    rw [trace_loop]
    cases hm : match_rule (c :: s) with
    | none => exact ⟨fun _ => Or.inr rfl, fun _ => rfl⟩
    | some m =>
      obtain ⟨type, n⟩ := m
      simp only [reduceCtorEq, or_self, iff_false]
      cases add_token [] type ((c :: s).take n) with
      | error e => exact List.cons_ne_nil _ _
      | ok tokens => exact List.cons_ne_nil _ _

/-- The buffers hold exactly if nothing at all is stored: the string is empty,
    or no rule matches where it starts. -/
theorem stays_inside_iff (e : List Char) : StaysInside e ↔ e = [] ∨ match_rule e = none := by
  rw [← rounds_eq_nil_iff]
  constructor
  · intro h
    by_contra hne
    obtain ⟨r, rs, hrounds⟩ := List.exists_cons_of_ne_nil hne
    have hmem : r ∈ rounds e := by rw [hrounds]; exact List.mem_cons_self
    exact memset_outside r (h.writes r hmem)
  · intro h
    -- Without rounds nothing is written, and only the empty string is accepted.
    have hnone : ∀ r, r ∉ rounds e := by
      intro r hr
      rw [h] at hr
      exact List.not_mem_nil hr
    refine ⟨fun r hr => absurd hr (hnone r), fun r hr => absurd hr (hnone r), ?_⟩
    intro tokens hok
    rcases (rounds_eq_nil_iff e).mp h with rfl | hm
    · cases hok
      exact ⟨Nat.zero_le _, fun t ht => absurd ht List.not_mem_nil⟩
    · cases e with
      | nil => cases hok; exact ⟨Nat.zero_le _, fun t ht => absurd ht List.not_mem_nil⟩
      | cons c s =>
        have hloop : make_token_loop (s.length + 1) [] (c :: s) = .ok (some tokens) := hok
        rw [make_token_loop, hm] at hloop
        cases hloop

/-- One digit is enough. -/
theorem digit_clears_other_tokens : ¬ StaysInside ['1'] := by
  intro h
  have hround : (⟨[], TK_NUM, ['1']⟩ : Round) ∈ rounds ['1'] :=
      List.mem_of_getElem? (i := 0) (by rfl)
  exact memset_outside _ (h.writes _ hround)

/-! ## Section 3: The other writes

    Apart from the `memset` everything is bounded, except for the copy of a
    register name. -/

theorem push_token_length (tokens : List Token) (l : Lexeme) :
    (push_token tokens l).length ≤ tokens.length + 1 := by
  obtain ⟨type, substr⟩ := l
  have hconcat : ∀ t : Token, (tokens ++ [t]).length ≤ tokens.length + 1 := by
    intro t
    rw [List.length_append, List.length_singleton]
  cases type with
  | TK_NOTYPE => exact Nat.le_succ _
  | TK_HEX_NUM =>
    show (push_hex tokens substr).length ≤ _
    unfold push_hex
    split
    · rw [List.length_append, List.length_dropLast, List.length_singleton]
      omega
    · exact hconcat _
  | _ => exact hconcat _

theorem memset_room {n : Nat} (h : memset_fits n = true) : n + 1 < TOKENS_MAX_SIZE := by
  unfold memset_fits str_fits str_offset sizeof_Token at h
  have hle := of_decide_eq_true h
  unfold TOKENS_MAX_SIZE at hle ⊢
  omega

/-- Run lemma: `nr_token` never exceeds the array, and every match is stored
    only where the `memset` has room. -/
theorem trace_loop_count (fuel : Nat) {tokens : List Token} (s : List Char)
    (h : tokens.length < TOKENS_MAX_SIZE) :
    ∀ r ∈ (trace_loop fuel tokens s).1, r.tokens.length < TOKENS_MAX_SIZE := by
  induction fuel generalizing tokens s with
  | zero => cases s <;> exact fun r hr => absurd hr List.not_mem_nil
  | succ fuel ih =>
    cases s with
    | nil => simp [trace_loop]
    | cons c s =>
      rw [trace_loop]
      cases hm : match_rule (c :: s) with
      | none => exact fun r hr => absurd hr List.not_mem_nil
      | some m =>
        obtain ⟨type, n⟩ := m
        obtain ⟨-, -, rule, hrule, rfl, -⟩ := match_rule_spec hm
        show ∀ r ∈ (Round.andThen _ (add_token tokens rule.token_type ((c :: s).take n)) _).1, _
        -- Where the loop goes on, `memset` had room for one token more.
        rcases add_token_eq tokens rule hrule ((c :: s).take n) with ⟨hok, hadd⟩ | ⟨-, e, hadd⟩
        · rw [hadd]
          have hlen := push_token_length tokens (rule.token_type, (c :: s).take n)
          have hroom := memset_room hok.1
          intro r hr
          rcases List.mem_cons.mp hr with rfl | hr
          · exact h
          · exact ih _ (by omega) r hr
        · rw [hadd]
          intro r hr
          rw [List.mem_singleton.mp hr]
          exact h

/-- A round copies into its own field, unless it copies a long name. -/
theorem Round.copies_inside_iff {r : Round} (hcount : r.tokens.length < TOKENS_MAX_SIZE) :
    (∀ w ∈ r.copies, w.Inside) ↔ (r.type = TK_REG → r.substr.length ≤ STR_SIZE + 1) := by
  obtain ⟨tokens, type, substr⟩ := r
  have htype : (Write.type tokens.length).Inside := hcount
  have hstr : ∀ {i len}, i ≤ tokens.length → len ≤ 32 → (Write.str i len).Inside := by
    intro i len hi hlen
    exact ⟨lt_of_le_of_lt hi hcount, hlen⟩
  cases type with
  | TK_REG =>
    simp only [Round.copies, List.forall_mem_cons, forall_true_left, Write.Inside]
    -- The `$` is not copied; nothing bounds the rest.
    have hsub : substr.length - 1 ≤ STR_SIZE ↔ substr.length ≤ STR_SIZE + 1 := by omega
    simp [hsub, show tokens.length < TOKENS_MAX_SIZE from hcount]
  | TK_NUM =>
    simp only [Round.copies, reduceCtorEq, false_implies, iff_true]
    split
    · rename_i hlen
      -- A `U` at the end is not copied.
      have hnum : (num_str substr).length ≤ 32 := by
        unfold num_str
        split
        · rw [List.length_dropLast]
          omega
        · omega
      simp [htype, hstr (Nat.le_refl _) hnum]
    · simp [htype]
  | TK_HEX_NUM =>
    simp only [Round.copies, reduceCtorEq, false_implies, iff_true]
    split
    · rename_i hlen
      split
      · simp [hstr (Nat.sub_le _ _) (show substr.length ≤ 32 by omega)]
      · simp [htype, hstr (Nat.le_refl _) (show substr.length ≤ 32 by omega)]
    · exact fun w hw => absurd hw List.not_mem_nil
  | TK_NOTYPE => simp [Round.copies]
  | _ => simp [Round.copies, htype]

/-- The copies of a whole string stay inside exactly if no name that is copied
    has more than 32 letters. -/
theorem copies_inside_iff (e : List Char) :
    (∀ r ∈ rounds e, ∀ w ∈ r.copies, w.Inside) ↔
      ∀ r ∈ rounds e, r.type = TK_REG → r.substr.length ≤ STR_SIZE + 1 := by
  have hcount : ∀ r ∈ rounds e, r.tokens.length < TOKENS_MAX_SIZE :=
    trace_loop_count e.length e (by decide)
  constructor
  · intro h r hr
    exact (Round.copies_inside_iff (hcount r hr)).mp (h r hr)
  · intro h r hr
    exact (Round.copies_inside_iff (hcount r hr)).mpr (h r hr)

end Nemu.Expr
