import IcsPa.Framework.Fault
import IcsPa.Framework.Regex

/-! # The lexer of the debugger's expressions

    `src/monitor/debug/expr.c`, up to `make_token`.  At each position of the
    string the rules are tried in order; the first one with a match there is
    taken, at its longest match, and may add a token to the array.

    A C string is the list of its characters before the `NUL`. -/

open CCall Regex RegularExpression

namespace Nemu.Expr

/-! ## Section 1: Rules -/

/-- The token types, in the order of the `enum`. -/
inductive TK where
  | TK_NOTYPE
  | TK_OP_START
  | TK_PLUS
  | TK_SUB
  | TK_MUX
  | TK_DIV
  | TK_LBRKT
  | TK_RBRKT
  | TK_EQ
  | TK_NEQ
  | TK_AND
  | TK_OP_END
  | TK_REG
  | TK_DEREF
  | TK_NUM
  | TK_HEX_NUM
  | TK_INVAILD
  deriving DecidableEq, Repr

open TK

/-- The value of the constant. -/
def TK.val (type : TK) : Nat := 256 + type.ctorIdx

def token_is_vaild_op (type : TK) : Bool :=
  decide (TK_OP_START.val < type.val) && decide (type.val < TK_OP_END.val)

def UCHAR_MAX : Nat := 255

structure Rule where
  regex      : RegularExpression Char
  token_type : TK
  precedence : Nat

/-- `[0-9]` -/
def digits : List Char := ['0', '1', '2', '3', '4', '5', '6', '7', '8', '9']

/-- `[A-Za-z]` -/
def letters : List Char :=
  ['A', 'B', 'C', 'D', 'E', 'F', 'G', 'H', 'I', 'J', 'K', 'L', 'M', 'N', 'O', 'P', 'Q', 'R', 'S',
   'T', 'U', 'V', 'W', 'X', 'Y', 'Z', 'a', 'b', 'c', 'd', 'e', 'f', 'g', 'h', 'i', 'j', 'k', 'l',
   'm', 'n', 'o', 'p', 'q', 'r', 's', 't', 'u', 'v', 'w', 'x', 'y', 'z']

/-- `[0-9]+U?` -/
def number : RegularExpression Char := oneOrMore (anyOf digits) * optional (char 'U')

/-- `0[xX][0-9]+U?` -/
def hex_number : RegularExpression Char := char '0' * (anyOf ['x', 'X'] * number)

def rules : List Rule :=
  [⟨oneOrMore (anyOf [' ']), TK_NOTYPE, UCHAR_MAX⟩,
   ⟨char '+', TK_PLUS, 4⟩,
   ⟨char '-', TK_SUB, 4⟩,
   ⟨char '*', TK_MUX, 3⟩,
   ⟨char '/', TK_DIV, 3⟩,
   ⟨char '(', TK_LBRKT, 1⟩,
   ⟨char ')', TK_RBRKT, 1⟩,
   ⟨char '=' * char '=', TK_EQ, 7⟩,
   ⟨char '!' * char '=', TK_NEQ, 7⟩,
   ⟨char '&' * char '&', TK_AND, 11⟩,
   ⟨char '$' * oneOrMore (anyOf letters), TK_REG, UCHAR_MAX⟩,
   ⟨hex_number, TK_HEX_NUM, UCHAR_MAX⟩,
   ⟨number, TK_NUM, UCHAR_MAX⟩]

/-- The loop over `rules`: the first rule whose regular expression matches at
    the start of `s` (`pmatch.rm_so == 0`), and the length of the match. -/
def match_rule (s : List Char) : Option (TK × Nat) :=
  rules.findSome? fun rule => (longest rule.regex s).map fun n => (rule.token_type, n)

/-! ## Section 2: Tokens -/

/-- `str` holds the characters before the `NUL`. -/
structure Token where
  type : TK
  str  : List Char
  deriving DecidableEq, Repr

def TOKENS_MAX_SIZE : Nat := 65535 + 1

/-- `sizeof(Token)`: an `int` and 32 characters. -/
def sizeof_Token : Nat := 36

/-- Where `tokens[i].str` starts in the array. -/
def str_offset (i : Nat) : Nat := i * sizeof_Token + 4

/-- `n` bytes from `tokens[i].str` on are inside the array. -/
def str_fits (i n : Nat) : Bool := decide (str_offset i + n ≤ TOKENS_MAX_SIZE * sizeof_Token)

/-- `memset(tokens[i].str, 0, TOKENS_MAX_SIZE)` stays inside the array. -/
def memset_fits (i : Nat) : Bool := str_fits i TOKENS_MAX_SIZE

/-- The type recorded for a match, from the type of the token before it. -/
def star_type : Option Token → TK
  | none => TK_DEREF
  | some prev =>
      if prev.type = TK_RBRKT ∨ prev.type = TK_NUM ∨ prev.type = TK_HEX_NUM then TK_MUX
      else TK_DEREF

/-- `memcpy` of `substr` over the start of a string. -/
def overwrite (substr str : List Char) : List Char := substr ++ str.drop substr.length

/-- The `U` of a decimal literal is not stored. -/
def num_str (substr : List Char) : List Char :=
  if substr.getLast? = some 'U' then substr.dropLast else substr

/-- A hex literal after `*` is stored in the token of the `*`. -/
def push_hex (tokens : List Token) (substr : List Char) : List Token :=
  match tokens.getLast? with
  | some ⟨TK_DEREF, str⟩ => tokens.dropLast ++ [⟨TK_DEREF, overwrite substr str⟩]
  | _ => tokens ++ [⟨TK_HEX_NUM, substr⟩]

/-- The `switch` of `make_token`; `tokens` are the `nr_token` tokens so far. -/
def store_token (tokens : List Token) (substr : List Char) : TK → Except Fault (List Token)
  | TK_NOTYPE => .ok tokens
  | TK_PLUS => .ok (tokens ++ [⟨TK_PLUS, []⟩])
  | TK_SUB => .ok (tokens ++ [⟨TK_SUB, []⟩])
  | TK_MUX => .ok (tokens ++ [⟨star_type tokens.getLast?, []⟩])
  | TK_DIV => .ok (tokens ++ [⟨TK_DIV, []⟩])
  | TK_LBRKT => .ok (tokens ++ [⟨TK_LBRKT, []⟩])
  | TK_RBRKT => .ok (tokens ++ [⟨TK_RBRKT, []⟩])
  | TK_EQ => .ok (tokens ++ [⟨TK_EQ, []⟩])
  | TK_NEQ => .ok (tokens ++ [⟨TK_NEQ, []⟩])
  | TK_AND => .ok (tokens ++ [⟨TK_AND, []⟩])
  | TK_REG =>
      if str_fits tokens.length (substr.length - 1) then .ok (tokens ++ [⟨TK_REG, substr.drop 1⟩])
      else .error .outOfBounds
  | TK_NUM => do
      cassert (decide (substr.length < 32))
      return tokens ++ [⟨TK_NUM, num_str substr⟩]
  | TK_HEX_NUM => do
      cassert (decide (substr.length < 10))
      return push_hex tokens substr
  | _ => .error .assertion

/-- What `make_token` does with a match.  The `memset` clears more than the new
    token: also those after it. -/
def add_token (tokens : List Token) (type : TK) (substr : List Char) :
    Except Fault (List Token) :=
  if memset_fits tokens.length then store_token tokens substr type else .error .outOfBounds

/-- The loop of `make_token` on the rest of the string, for at most `fuel`
    matches.  `none` is the `return false`. -/
def make_token_loop : Nat → List Token → List Char → Except Fault (Option (List Token))
  | _, tokens, [] => .ok (some tokens)
  | 0, _, _ :: _ => .error .diverges
  | fuel + 1, tokens, c :: s =>
      match match_rule (c :: s) with
      | none => .ok none
      | some (type, substr_len) => do
          let tokens ← add_token tokens type ((c :: s).take substr_len)
          make_token_loop fuel tokens ((c :: s).drop substr_len)

/-- A match is never empty, so one round for each character is enough. -/
def make_token (e : List Char) : Except Fault (Option (List Token)) :=
  make_token_loop e.length [] e

/-! ## Section 3: Splitting a string

    What the lexer does to a string, without the tokens: `split` cuts it into
    the matches of the rules and a rest at which no rule matches. -/

/-- A matched piece of the string. -/
abbrev Lexeme : Type := TK × List Char

def split_loop : Nat → List Char → List Lexeme × List Char
  | _, [] => ([], [])
  | 0, c :: s => ([], c :: s)
  | fuel + 1, c :: s =>
      match match_rule (c :: s) with
      | none => ([], c :: s)
      | some (type, n) =>
          let (ls, rest) := split_loop fuel ((c :: s).drop n)
          ((type, (c :: s).take n) :: ls, rest)

def split (s : List Char) : List Lexeme × List Char := split_loop s.length s

/-- What a piece adds to the tokens when nothing goes wrong. -/
def push_token (tokens : List Token) : Lexeme → List Token
  | (TK_NOTYPE, _) => tokens
  | (TK_MUX, _) => tokens ++ [⟨star_type tokens.getLast?, []⟩]
  | (TK_REG, substr) => tokens ++ [⟨TK_REG, substr.drop 1⟩]
  | (TK_NUM, substr) => tokens ++ [⟨TK_NUM, num_str substr⟩]
  | (TK_HEX_NUM, substr) => push_hex tokens substr
  | (type, _) => tokens ++ [⟨type, []⟩]

/-- A piece can be stored as token `i`: there is room for it in the array, and
    it is no decimal literal of 32 or hex literal of 10 characters. -/
def Storable (i : Nat) (l : Lexeme) : Prop :=
  memset_fits i = true ∧
  (l.1 = TK_REG → str_fits i (l.2.length - 1) = true) ∧
  (l.1 = TK_NUM → l.2.length < 32) ∧
  (l.1 = TK_HEX_NUM → l.2.length < 10)

instance (i : Nat) (l : Lexeme) : Decidable (Storable i l) :=
  inferInstanceAs (Decidable (_ ∧ _ ∧ _ ∧ _))

/-- All pieces can be stored one after the other. -/
def AllStorable : List Token → List Lexeme → Prop
  | _, [] => True
  | tokens, l :: ls => Storable tokens.length l ∧ AllStorable (push_token tokens l) ls

theorem rules_nonempty : ∀ rule ∈ rules, rule.regex.rmatch [] = false := by decide

/-- A match is a nonempty prefix that a rule of that type matches. -/
theorem match_rule_spec {s : List Char} {type : TK} {n : Nat}
    (h : match_rule s = some (type, n)) :
    0 < n ∧ n ≤ s.length ∧
      ∃ rule ∈ rules, rule.token_type = type ∧ s.take n ∈ rule.regex.matches' := by
  obtain ⟨rule, hrule, hmatch⟩ := List.exists_of_findSome?_eq_some h
  obtain ⟨m, hm, hpair⟩ := Option.map_eq_some_iff.mp hmatch
  cases hpair
  obtain ⟨hlen, hmem, -⟩ := isLongest_of_longest hm
  refine ⟨Nat.pos_of_ne_zero fun h0 => ?_, hlen, rule, hrule, rfl, hmem⟩
  subst h0
  rw [List.take_zero, ← rmatch_iff_matches', rules_nonempty rule hrule] at hmem
  cases hmem

section storable
variable {i : Nat} {substr : List Char}

theorem storable_reg (hfit : memset_fits i = true) :
    Storable i (TK_REG, substr) ↔ str_fits i (substr.length - 1) = true :=
  ⟨fun h => h.2.1 rfl, fun h => ⟨hfit, fun _ => h, nofun, nofun⟩⟩

theorem storable_num (hfit : memset_fits i = true) :
    Storable i (TK_NUM, substr) ↔ substr.length < 32 :=
  ⟨fun h => h.2.2.1 rfl, fun h => ⟨hfit, nofun, fun _ => h, nofun⟩⟩

theorem storable_hex (hfit : memset_fits i = true) :
    Storable i (TK_HEX_NUM, substr) ↔ substr.length < 10 :=
  ⟨fun h => h.2.2.2 rfl, fun h => ⟨hfit, nofun, nofun, fun _ => h⟩⟩

theorem storable_other {type : TK} (hfit : memset_fits i = true)
    (h : type ≠ TK_REG ∧ type ≠ TK_NUM ∧ type ≠ TK_HEX_NUM) : Storable i (type, substr) :=
  ⟨hfit, fun he => absurd he h.1, fun he => absurd he h.2.1, fun he => absurd he h.2.2⟩

end storable

/-- The switch stores a piece if it can, and otherwise never returns. -/
theorem add_token_eq (tokens : List Token) (rule : Rule) (hrule : rule ∈ rules)
    (substr : List Char) :
    (Storable tokens.length (rule.token_type, substr) ∧
      add_token tokens rule.token_type substr =
        .ok (push_token tokens (rule.token_type, substr))) ∨
    (¬ Storable tokens.length (rule.token_type, substr) ∧
      ∃ e, add_token tokens rule.token_type substr = .error e) := by
  by_cases hfit : memset_fits tokens.length = true
  · have htypes : rule.token_type ∈ rules.map Rule.token_type := List.mem_map_of_mem hrule
    revert htypes
    cases rule.token_type with
    | TK_REG =>
      intro _
      rw [storable_reg hfit]
      by_cases hreg : str_fits tokens.length (substr.length - 1) = true
      · exact Or.inl ⟨hreg, by simp [add_token, store_token, hfit, hreg, push_token]⟩
      · exact Or.inr ⟨hreg, .outOfBounds, by simp [add_token, store_token, hfit, hreg]⟩
    | TK_NUM =>
      intro _
      rw [storable_num hfit]
      by_cases hlen : substr.length < 32
      · exact Or.inl ⟨hlen, by simp [add_token, store_token, hfit, hlen, push_token]⟩
      · exact Or.inr ⟨hlen, .assertion, by simp [add_token, store_token, hfit, hlen]⟩
    | TK_HEX_NUM =>
      intro _
      rw [storable_hex hfit]
      by_cases hlen : substr.length < 10
      · exact Or.inl ⟨hlen, by simp [add_token, store_token, hfit, hlen, push_token]⟩
      · exact Or.inr ⟨hlen, .assertion, by simp [add_token, store_token, hfit, hlen]⟩
    | TK_OP_START => intro h; exact absurd h (by decide)
    | TK_OP_END => intro h; exact absurd h (by decide)
    | TK_DEREF => intro h; exact absurd h (by decide)
    | TK_INVAILD => intro h; exact absurd h (by decide)
    -- The other types are stored whenever there is room.
    | _ =>
      intro _
      exact Or.inl ⟨storable_other hfit (by decide), by rw [add_token, if_pos hfit]; rfl⟩
  · exact Or.inr ⟨fun h => hfit h.1, .outOfBounds, by rw [add_token, if_neg hfit]⟩

/-- Step by step the lexer follows `split`, as long as the pieces can be
    stored. -/
theorem make_token_loop_ok_iff (fuel : Nat) (tokens : List Token) (s : List Char)
    (hfuel : s.length ≤ fuel) (r : Option (List Token)) :
    make_token_loop fuel tokens s = .ok r ↔
      AllStorable tokens (split_loop fuel s).1 ∧
        r = if (split_loop fuel s).2 = [] then some ((split_loop fuel s).1.foldl push_token tokens)
          else none := by
  induction fuel generalizing tokens s with
  | zero =>
    obtain rfl := List.length_eq_zero_iff.mp (Nat.le_zero.mp hfuel)
    simp [make_token_loop, split_loop, AllStorable, eq_comm]
  | succ fuel ih =>
    cases s with
    | nil => simp [make_token_loop, split_loop, AllStorable, eq_comm]
    | cons c s =>
      rw [make_token_loop, split_loop]
      cases hm : match_rule (c :: s) with
      | none => simp [AllStorable, eq_comm]
      | some m =>
        obtain ⟨type, n⟩ := m
        obtain ⟨hpos, -, rule, hrule, rfl, -⟩ := match_rule_spec hm
        -- A rule matches at least one character, so the rest has enough fuel.
        have hrest : ((c :: s).drop n).length ≤ fuel := by
          rw [List.length_drop, List.length_cons]
          rw [List.length_cons] at hfuel
          omega
        show (add_token tokens rule.token_type ((c :: s).take n) >>= fun tokens =>
            make_token_loop fuel tokens ((c :: s).drop n)) = .ok r ↔
          (Storable tokens.length (rule.token_type, (c :: s).take n) ∧
              AllStorable (push_token tokens (rule.token_type, (c :: s).take n))
                (split_loop fuel ((c :: s).drop n)).1) ∧
            r = if (split_loop fuel ((c :: s).drop n)).2 = [] then
                some ((split_loop fuel ((c :: s).drop n)).1.foldl push_token
                  (push_token tokens (rule.token_type, (c :: s).take n)))
              else none
        -- The piece is stored, or the loop stops at it.
        rcases add_token_eq tokens rule hrule ((c :: s).take n) with ⟨hok, hadd⟩ | ⟨hno, e, hadd⟩
        · rw [hadd, ok_bind, ih _ _ hrest]
          simp [hok]
        · rw [hadd, error_bind]
          simp [hno]

/-- What `make_token` returns, by what `split` does. -/
theorem make_token_ok_iff (s : List Char) (r : Option (List Token)) :
    make_token s = .ok r ↔
      AllStorable [] (split s).1 ∧
        r = if (split s).2 = [] then some ((split s).1.foldl push_token []) else none :=
  make_token_loop_ok_iff s.length [] s (Nat.le_refl _) r

/-- It returns these tokens if `split` leaves nothing over, all pieces can be
    stored, and the tokens are what the pieces add up to. -/
theorem make_token_some_iff (s : List Char) (tokens : List Token) :
    make_token s = .ok (some tokens) ↔
      (split s).2 = [] ∧ AllStorable [] (split s).1 ∧
        (split s).1.foldl push_token [] = tokens := by
  rw [make_token_ok_iff]
  by_cases hrest : (split s).2 = []
  · rw [if_pos hrest, Option.some.injEq]
    constructor
    · intro h
      exact ⟨hrest, h.1, h.2.symm⟩
    · intro h
      exact ⟨h.2.1, h.2.2.symm⟩
  · simp [hrest]

/-! ## Section 4: The strings that are rejected

    The same in terms of the languages of the rules: how a string is cut, and
    how many tokens the pieces before one make. -/

/-- No prefix of `s` is in the language of the rule. -/
def NoMatch (s : List Char) (rule : Rule) : Prop :=
  ∀ text rest, s = text ++ rest → text ∉ rule.regex.matches'

/-- Of the rules with a prefix of `text ++ rest` in their language the first has
    this type, and `text` is its longest one. -/
def FirstMatch (type : TK) (text rest : List Char) : Prop :=
  ∃ before rule after, rules = before ++ rule :: after ∧ rule.token_type = type ∧
    (∀ r ∈ before, NoMatch (text ++ rest) r) ∧ text ∈ rule.regex.matches' ∧
    ∀ longer rest', text ++ rest = longer ++ rest' → longer ∈ rule.regex.matches' →
      longer.length ≤ text.length

/-- From the left the string is cut into these pieces and a rest at which no
    rule matches. -/
inductive Cut : List Char → List Lexeme → List Char → Prop where
  | stop {s : List Char} (h : ∀ rule ∈ rules, NoMatch s rule) : Cut s [] s
  | piece {type : TK} {text s rest : List Char} {ls : List Lexeme} (h : FirstMatch type text s)
      (hcut : Cut s ls rest) : Cut (text ++ s) ((type, text) :: ls) rest

/-- One more piece, after `n` tokens and a last one of this type: a blank is no
    token, and an address has the token of its `*`. -/
def count_piece : Nat × Option TK → TK → Nat × Option TK
  | seen, TK_NOTYPE => seen
  | (n, last), TK_MUX =>
      (n + 1, some (if last = some TK_RBRKT ∨ last = some TK_NUM ∨ last = some TK_HEX_NUM then
        TK_MUX else TK_DEREF))
  | (n, some TK_DEREF), TK_HEX_NUM => (n, some TK_DEREF)
  | (n, _), type => (n + 1, some type)

/-- The tokens that the pieces make. -/
def token_count (ls : List Lexeme) : Nat := ((ls.map Prod.fst).foldl count_piece (0, none)).1

/-- The string is cut into pieces that can be stored, and a rest. -/
def Rejected (s : List Char) : Prop :=
  ∃ ls rest, Cut s ls rest ∧ rest ≠ [] ∧
    ∀ before l after, ls = before ++ l :: after → Storable (token_count before) l

theorem noMatch_iff {s : List Char} {rule : Rule} :
    NoMatch s rule ↔ longest rule.regex s = none := by
  rw [longest_eq_none]
  constructor
  · intro h n _
    exact h (s.take n) (s.drop n) (List.take_append_drop n s).symm
  · rintro h text rest rfl
    have hmem := h text.length (by simp)
    rwa [List.take_left] at hmem

theorem match_rule_none_iff {s : List Char} :
    match_rule s = none ↔ ∀ rule ∈ rules, NoMatch s rule := by
  simp [match_rule, List.findSome?_eq_none_iff, noMatch_iff]

/-- The loop over the rules finds the first match. -/
theorem match_rule_some_iff {type : TK} {text rest : List Char} :
    match_rule (text ++ rest) = some (type, text.length) ↔ FirstMatch type text rest := by
  unfold match_rule FirstMatch
  rw [List.findSome?_eq_some_iff]
  constructor
  · rintro ⟨before, rule, after, hrules, hmatch, hbefore⟩
    obtain ⟨n, hlong, hpair⟩ := Option.map_eq_some_iff.mp hmatch
    obtain ⟨rfl, rfl⟩ := Prod.mk.inj hpair
    obtain ⟨-, hmem, hmax⟩ := isLongest_of_longest hlong
    rw [List.take_left] at hmem
    refine ⟨before, rule, after, hrules, rfl, fun r hr => ?_, hmem,
      fun longer rest' hsplit hin => ?_⟩
    · exact noMatch_iff.mpr (Option.map_eq_none_iff.mp (hbefore r hr))
    · by_contra hlt
      refine hmax longer.length (by omega) (by rw [hsplit]; simp) ?_
      rwa [hsplit, List.take_left]
  · rintro ⟨before, rule, after, hrules, rfl, hbefore, hmem, hmax⟩
    refine ⟨before, rule, after, hrules, ?_, fun r hr => ?_⟩
    · have hlong : IsLongest rule.regex (text ++ rest) text.length := by
        refine ⟨by simp, by rwa [List.take_left], fun m hlt hm hin => ?_⟩
        have hle := hmax _ _ (List.take_append_drop m (text ++ rest)).symm hin
        rw [List.length_take, Nat.min_eq_left hm] at hle
        omega
      rw [longest_eq_some hlong]
      rfl
    · rw [noMatch_iff.mp (hbefore r hr)]
      rfl

/-- `split` cuts the string. -/
theorem cut_split {fuel : Nat} {s : List Char} (hfuel : s.length ≤ fuel) :
    Cut s (split_loop fuel s).1 (split_loop fuel s).2 := by
  have hempty : Cut [] [] [] := .stop (match_rule_none_iff.mp (by decide))
  induction fuel generalizing s with
  | zero =>
    obtain rfl := List.length_eq_zero_iff.mp (Nat.le_zero.mp hfuel)
    exact hempty
  | succ fuel ih =>
    cases s with
    | nil => exact hempty
    | cons c s =>
      rw [split_loop]
      cases hm : match_rule (c :: s) with
      | none => exact .stop (match_rule_none_iff.mp hm)
      | some m =>
        obtain ⟨type, n⟩ := m
        obtain ⟨hpos, hlen, -⟩ := match_rule_spec hm
        have hrest : ((c :: s).drop n).length ≤ fuel := by
          rw [List.length_drop, List.length_cons]
          rw [List.length_cons] at hfuel
          omega
        have hfirst : FirstMatch type ((c :: s).take n) ((c :: s).drop n) := by
          rw [← match_rule_some_iff, List.take_append_drop, List.length_take, Nat.min_eq_left hlen]
          exact hm
        have hcut := Cut.piece hfirst (ih hrest)
        rwa [List.take_append_drop] at hcut

/-- There is one way to cut a string. -/
theorem Cut.unique {s rest : List Char} {ls : List Lexeme} (h : Cut s ls rest) :
    ∀ {ls' rest'}, Cut s ls' rest' → ls' = ls ∧ rest' = rest := by
  induction h with
  | stop h =>
    intro ls' rest' h'
    cases h' with
    | stop => exact ⟨rfl, rfl⟩
    | piece hfirst =>
      have hmatch := match_rule_some_iff.mpr hfirst
      rw [match_rule_none_iff.mpr h] at hmatch
      cases hmatch
  | piece hfirst hcut ih =>
    rename_i type text s rest ls
    intro ls' rest' h'
    have hmatch := match_rule_some_iff.mpr hfirst
    generalize hs : text ++ s = whole at h' hmatch
    cases h' with
    | stop h' =>
      rw [match_rule_none_iff.mpr h'] at hmatch
      cases hmatch
    | piece hfirst' hcut' =>
      rename_i type' text' s' ls'
      rw [match_rule_some_iff.mpr hfirst'] at hmatch
      obtain ⟨rfl, hlen⟩ := Prod.mk.inj (Option.some.inj hmatch)
      obtain ⟨rfl, rfl⟩ := List.append_inj hs hlen.symm
      obtain ⟨rfl, rfl⟩ := ih hcut'
      exact ⟨rfl, rfl⟩

/-- The tokens, as far as they are counted. -/
def seen (tokens : List Token) : Nat × Option TK := (tokens.length, tokens.getLast?.map Token.type)

theorem seen_push (tokens : List Token) (l : Lexeme) :
    seen (push_token tokens l) = count_piece (seen tokens) l.1 := by
  obtain ⟨type, substr⟩ := l
  cases type with
  | TK_NOTYPE => rfl
  | TK_MUX =>
    cases hlast : tokens.getLast? <;> simp [seen, push_token, count_piece, star_type, hlast]
  | TK_HEX_NUM =>
    cases hlast : tokens.getLast? with
    | none => simp [seen, push_token, push_hex, count_piece, hlast]
    | some prev =>
      obtain ⟨type, str⟩ := prev
      by_cases hderef : type = TK_DEREF
      · -- The last token is replaced.
        subst hderef
        have hpos : 0 < tokens.length := List.length_pos_of_mem (List.mem_of_getLast? hlast)
        simp [seen, push_token, push_hex, count_piece, hlast]
        omega
      · cases type <;> simp [seen, push_token, push_hex, count_piece, hlast] at hderef ⊢
  | _ => cases hlast : tokens.getLast? <;> simp [seen, push_token, count_piece, hlast]

theorem allStorable_counted (tokens : List Token) (ls : List Lexeme) :
    AllStorable tokens ls ↔ ∀ before l after, ls = before ++ l :: after →
      Storable ((before.map Prod.fst).foldl count_piece (seen tokens)).1 l := by
  induction ls generalizing tokens with
  | nil => simp [AllStorable]
  | cons l ls ih =>
    rw [AllStorable, ih, seen_push]
    constructor
    · rintro ⟨hl, hls⟩ before l' after heq
      cases before with
      | nil =>
        obtain ⟨rfl, rfl⟩ := List.cons.inj heq
        exact hl
      | cons l'' before =>
        obtain ⟨rfl, rfl⟩ := List.cons.inj heq
        exact hls before l' after rfl
    · intro h
      refine ⟨h [] l ls rfl, fun before l' after heq => ?_⟩
      exact h (l :: before) l' after (by rw [heq]; rfl)

/-- `make_token` returns false exactly on the rejected strings. -/
theorem make_token_none_iff (s : List Char) : make_token s = .ok none ↔ Rejected s := by
  have hcut : Cut s (split s).1 (split s).2 := cut_split (Nat.le_refl _)
  have hreject : Rejected s ↔ (split s).2 ≠ [] ∧ AllStorable [] (split s).1 := by
    rw [allStorable_counted]
    constructor
    · rintro ⟨ls, rest, hcut', hrest, hstore⟩
      obtain ⟨rfl, rfl⟩ := hcut.unique hcut'
      exact ⟨hrest, hstore⟩
    · rintro ⟨hrest, hstore⟩
      exact ⟨_, _, hcut, hrest, hstore⟩
  rw [make_token_ok_iff, hreject]
  by_cases hrest : (split s).2 = [] <;> simp [hrest]

end Nemu.Expr
