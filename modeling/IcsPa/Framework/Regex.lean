import Mathlib.Computability.RegularExpressions

/-! # Longest matches of regular expressions

    `longest r s` is what a matcher with the leftmost-longest rule reports
    for a match at the start of `s`: the length of the longest prefix that
    `r` matches.  Patterns are Mathlib's `RegularExpression`s; the operators
    that Mathlib lacks (classes, `+`, `?`) are added here, with one rule each
    that computes `longest` without trying prefixes. -/

open RegularExpression

namespace Regex

variable {α : Type*}

/-! ## Operators -/

/-- `[cs]`: one character of a class. -/
def anyOf (cs : List α) : RegularExpression α := cs.foldr (fun c r => char c + r) 0

/-- `r+`: one or more times. -/
def oneOrMore (r : RegularExpression α) : RegularExpression α := r * r.star

/-- `r?`: at most once. -/
def optional (r : RegularExpression α) : RegularExpression α := 1 + r

theorem mem_char (c : α) (w : List α) : w ∈ (char c).matches' ↔ w = [c] := by
  rw [matches'_char]; exact Iff.rfl

theorem mem_anyOf (cs : List α) (w : List α) :
    w ∈ (anyOf cs).matches' ↔ ∃ c ∈ cs, w = [c] := by
  induction cs with
  | nil => simp [anyOf]
  | cons c cs ih =>
    have hcons : (anyOf (c :: cs)).matches' = (char c).matches' + (anyOf cs).matches' := rfl
    rw [hcons, Language.mem_add, mem_char, ih]
    simp

theorem mem_mul (r t : RegularExpression α) (w : List α) :
    w ∈ (r * t).matches' ↔ ∃ a ∈ r.matches', ∃ b ∈ t.matches', a ++ b = w := by
  rw [matches'_mul]; exact Language.mem_mul

theorem mem_optional (r : RegularExpression α) (w : List α) :
    w ∈ (optional r).matches' ↔ w = [] ∨ w ∈ r.matches' := by
  rw [optional, matches'_add, Language.mem_add, matches'_epsilon, Language.mem_one]

/-- The characters that the words of a regular expression are made of. -/
def alphabet : RegularExpression α → List α
  | zero => []
  | epsilon => []
  | char c => [c]
  | plus r t => alphabet r ++ alphabet t
  | comp r t => alphabet r ++ alphabet t
  | RegularExpression.star r => alphabet r

theorem mem_alphabet (r : RegularExpression α) {w : List α} (h : w ∈ r.matches') :
    ∀ c ∈ w, c ∈ alphabet r := by
  induction r generalizing w with
  | zero => exact absurd h id
  | epsilon =>
    obtain rfl : w = [] := h
    intro c hc
    exact absurd hc List.not_mem_nil
  | char a =>
    obtain rfl : w = [a] := h
    exact fun c hc => hc
  | plus r t ihr iht =>
    intro c hc
    rcases h with h | h
    · exact List.mem_append_left _ (ihr h c hc)
    · exact List.mem_append_right _ (iht h c hc)
  | comp r t ihr iht =>
    obtain ⟨a, ha, b, hb, rfl⟩ := (mem_mul r t w).mp h
    intro c hc
    rcases List.mem_append.mp hc with hc | hc
    · exact List.mem_append_left _ (ihr ha c hc)
    · exact List.mem_append_right _ (iht hb c hc)
  | star r ih =>
    -- A word of `r*` is cut into words of `r`.
    have hstar : w ∈ KStar.kstar r.matches' := h
    obtain ⟨ws, rfl, hws⟩ := Language.mem_kstar.mp hstar
    intro c hc
    obtain ⟨u, hu, hcu⟩ := List.mem_flatten.mp hc
    exact ih (hws u hu) c hcu

/-- `[cs]+` matches the nonempty words over `cs`. -/
theorem mem_oneOrMore_anyOf (cs : List α) (w : List α) :
    w ∈ (oneOrMore (anyOf cs)).matches' ↔ w ≠ [] ∧ ∀ c ∈ w, c ∈ cs := by
  -- Any number of characters, cut into words of one.
  have hstar : ∀ w, w ∈ (anyOf cs).star.matches' ↔ ∀ c ∈ w, c ∈ cs := by
    intro w
    rw [matches'_star, Language.mem_kstar]
    constructor
    · rintro ⟨ws, rfl, hws⟩ c hc
      obtain ⟨u, hu, hcu⟩ := List.mem_flatten.mp hc
      obtain ⟨d, hd, rfl⟩ := (mem_anyOf cs u).mp (hws u hu)
      obtain rfl := List.mem_singleton.mp hcu
      exact hd
    · intro hall
      refine ⟨w.map fun c => [c], ?_, fun u hu => ?_⟩
      · induction w with
        | nil => rfl
        | cons c w ih =>
          rw [List.map_cons, List.flatten_cons, ← ih fun d hd => hall d (List.mem_cons_of_mem c hd)]
          rfl
      · obtain ⟨c, hc, rfl⟩ := List.mem_map.mp hu
        exact (mem_anyOf cs [c]).mpr ⟨c, hall c hc, rfl⟩
  rw [oneOrMore, mem_mul]
  constructor
  · rintro ⟨a, ha, b, hb, rfl⟩
    obtain ⟨c, hc, rfl⟩ := (mem_anyOf cs a).mp ha
    refine ⟨by simp, fun d hd => ?_⟩
    rcases List.mem_cons.mp hd with rfl | hd
    · exact hc
    · exact (hstar b).mp hb d hd
  · rintro ⟨hne, hall⟩
    obtain ⟨c, b, rfl⟩ := List.exists_cons_of_ne_nil hne
    have hc := hall c List.mem_cons_self
    have hb := (hstar b).mpr fun d hd => hall d (List.mem_cons_of_mem c hd)
    exact ⟨[c], (mem_anyOf cs [c]).mpr ⟨c, hc, rfl⟩, b, hb, rfl⟩

/-! ## Patterns of this shape -/

/-- `r` matches single characters only, those of `p`. -/
def Single (r : RegularExpression α) (p : α → Prop) : Prop :=
  ∀ w, w ∈ r.matches' ↔ ∃ c, p c ∧ w = [c]

theorem single_char (c : α) : Single (char c) (· = c) := fun w => by
  rw [mem_char]; simp

theorem single_anyOf (cs : List α) : Single (anyOf cs) (· ∈ cs) := mem_anyOf cs

section single
variable {r t : RegularExpression α} {p : α → Prop}

theorem mem_single_mul (hr : Single r p) (c : α) (w : List α) :
    c :: w ∈ (r * t).matches' ↔ p c ∧ w ∈ t.matches' := by
  rw [mem_mul]
  constructor
  · rintro ⟨a, ha, b, hb, hab⟩
    obtain ⟨d, hd, rfl⟩ := (hr a).mp ha
    obtain ⟨rfl, rfl⟩ := List.cons_eq_cons.mp hab
    exact ⟨hd, hb⟩
  · rintro ⟨hc, hw⟩
    exact ⟨[c], (hr [c]).mpr ⟨c, hc, rfl⟩, w, hw, rfl⟩

theorem nil_not_mem_single_mul (hr : Single r p) : [] ∉ (r * t).matches' := by
  rw [mem_mul]
  rintro ⟨a, ha, b, -, hab⟩
  obtain ⟨c, -, rfl⟩ := (hr a).mp ha
  cases hab

end single

/-- The run of characters of `cs` ends where `rest` starts. -/
def EndsRun (cs : List α) (rest : List α) : Prop := ∀ c ∈ rest.head?, c ∉ cs

/-- A prefix over `cs` ends with the run. -/
theorem take_le_run {cs w rest : List α} (hend : EndsRun cs rest) {m : Nat}
    (hm : m ≤ (w ++ rest).length) (hall : ∀ c ∈ (w ++ rest).take m, c ∈ cs) : m ≤ w.length := by
  by_contra hlt
  cases rest with
  | nil => simp at hm; omega
  | cons c rest =>
    refine hend c rfl (hall c ?_)
    rw [List.mem_take_iff_getElem]
    exact ⟨w.length, by simp at hm ⊢; omega, by simp⟩

/-- What `[cs]+u?` matches. -/
theorem mem_run_optional {cs : List α} {u : α} (v : List α) :
    v ∈ (oneOrMore (anyOf cs) * optional (char u)).matches' ↔
      ∃ a b, a ≠ [] ∧ (∀ c ∈ a, c ∈ cs) ∧ (b = [] ∨ b = [u]) ∧ a ++ b = v := by
  rw [mem_mul]
  constructor
  · rintro ⟨a, ha, b, hb, hab⟩
    rw [mem_oneOrMore_anyOf] at ha
    rw [mem_optional, mem_char] at hb
    exact ⟨a, b, ha.1, ha.2, hb, hab⟩
  · rintro ⟨a, b, hne, hall, hb, hab⟩
    refine ⟨a, (mem_oneOrMore_anyOf cs a).mpr ⟨hne, hall⟩, b, ?_, hab⟩
    rw [mem_optional, mem_char]; exact hb

/-- A match of `[cs]+u?` reaches at most one character past the run. -/
theorem run_optional_le {cs w rest : List α} {u : α} (hend : EndsRun cs rest) {m : Nat}
    (hms : m ≤ (w ++ rest).length)
    (hmem : (w ++ rest).take m ∈ (oneOrMore (anyOf cs) * optional (char u)).matches') :
    m ≤ w.length ∨ m = w.length + 1 ∧ rest.head? = some u := by
  obtain ⟨a, b, -, hall, hb, hab⟩ := (mem_run_optional _).mp hmem
  have hlen := congrArg List.length hab
  rw [List.length_append, List.length_take, Nat.min_eq_left hms] at hlen
  rcases hb with rfl | rfl
  · refine Or.inl (take_le_run hend hms ?_)
    rw [← hab, List.append_nil]; exact hall
  · -- All but the last character belong to the run.
    have hlen' : a.length + 1 = m := hlen
    have ha : a = (w ++ rest).take (m - 1) := by
      have hcut := congrArg (List.take (m - 1)) hab
      rw [List.take_take, Nat.min_eq_left (by omega)] at hcut
      rw [← hcut, List.take_append_of_le_length (by omega), List.take_of_length_le (by omega)]
    have hle := take_le_run hend (by omega) (ha ▸ hall)
    by_cases hm : m ≤ w.length
    · exact Or.inl hm
    · have hmw : m = w.length + 1 := by omega
      refine Or.inr ⟨hmw, ?_⟩
      have hget : ((w ++ rest).take m)[a.length]? = some u := by rw [← hab]; simp
      rw [List.getElem?_take_of_lt (by omega), List.getElem?_append_right (by omega)] at hget
      rw [List.head?_eq_getElem?, ← hget]
      congr 1
      omega

/-! ## The longest match -/

variable [DecidableEq α]

/-- The length of the longest prefix of `s` that `r` matches, if there is one. -/
def longest (r : RegularExpression α) (s : List α) : Option Nat :=
  (List.range (s.length + 1)).reverse.find? fun n => r.rmatch (s.take n)

/-- `n` is the length of the longest prefix in a language. -/
def IsLongest (r : RegularExpression α) (s : List α) (n : Nat) : Prop :=
  n ≤ s.length ∧ s.take n ∈ r.matches' ∧ ∀ m, n < m → m ≤ s.length → s.take m ∉ r.matches'

theorem longest_eq_none {r : RegularExpression α} {s : List α} :
    longest r s = none ↔ ∀ n ≤ s.length, s.take n ∉ r.matches' := by
  rw [longest, List.find?_eq_none]
  constructor
  · intro hall n hn hmem
    refine hall n (by simp; omega) ?_
    rw [rmatch_iff_matches']; exact hmem
  · intro hall n hn hmem
    rw [rmatch_iff_matches'] at hmem
    exact hall n (by simp at hn; omega) hmem

theorem isLongest_of_longest {r : RegularExpression α} {s : List α} {n : Nat}
    (h : longest r s = some n) : IsLongest r s n := by
  obtain ⟨hmatch, l₁, l₂, hsplit, hbefore⟩ := List.find?_eq_some_iff_append.mp h
  have hrange : List.range (s.length + 1) = l₂.reverse ++ n :: l₁.reverse := by
    have hrev := congrArg List.reverse hsplit
    simpa using hrev
  have hlen : l₂.length = n := by
    have hget : (List.range (s.length + 1))[l₂.length]? = some n := by rw [hrange]; simp
    obtain ⟨hlt, hval⟩ := List.getElem?_eq_some_iff.mp hget
    simpa using hval
  have hsum : l₂.length + (l₁.length + 1) = s.length + 1 := by
    have hcount := congrArg List.length hrange
    simp at hcount
    omega
  refine ⟨by omega, (rmatch_iff_matches' r _).mp hmatch, fun m hm hms hmem => ?_⟩
  -- The longer prefixes were tried before.
  have hin : m ∈ l₁ := by
    have hget : (List.range (s.length + 1))[m]? = some m := by
      rw [List.getElem?_range (by omega)]
    rw [hrange, List.getElem?_append_right (by simp; omega)] at hget
    obtain ⟨k, hk⟩ : ∃ k, m - l₂.reverse.length = k + 1 := ⟨m - n - 1, by simp; omega⟩
    rw [hk, List.getElem?_cons_succ] at hget
    exact List.mem_reverse.mp (List.mem_of_getElem? hget)
  have hno := hbefore m hin
  rw [(rmatch_iff_matches' r _).mpr hmem] at hno
  exact absurd hno (by simp)

theorem longest_eq_some {r : RegularExpression α} {s : List α} {n : Nat} (h : IsLongest r s n) :
    longest r s = some n := by
  obtain ⟨hn, hmem, hmax⟩ := h
  cases hl : longest r s with
  | none => exact absurd hmem (longest_eq_none.mp hl n hn)
  | some m =>
    obtain ⟨hm, hmem', hmax'⟩ := isLongest_of_longest hl
    rcases Nat.lt_trichotomy m n with hlt | rfl | hlt
    · exact absurd hmem (hmax' n hlt hn)
    · rfl
    · exact absurd hmem' (hmax m hlt hm)

/-! ## Computing it -/

section single
variable {r t : RegularExpression α} {p : α → Prop}

theorem longest_single_mul_nil (hr : Single r p) : longest (r * t) [] = none := by
  rw [longest_eq_none]
  intro n _
  rw [List.take_nil]
  exact nil_not_mem_single_mul hr

variable [DecidablePred p]

/-- The first character is matched by `r`, the rest by `t`. -/
theorem longest_single_mul_cons (hr : Single r p) (c : α) (s : List α) :
    longest (r * t) (c :: s) = if p c then (longest t s).map (· + 1) else none := by
  by_cases hc : p c
  · rw [if_pos hc]
    cases hl : longest t s with
    | none =>
      rw [longest_eq_none] at hl
      refine longest_eq_none.mpr fun n hn hmem => ?_
      cases n with
      | zero => exact nil_not_mem_single_mul hr hmem
      | succ n =>
        rw [List.take_succ_cons, mem_single_mul hr] at hmem
        exact hl n (by simpa using hn) hmem.2
    | some n =>
      obtain ⟨hn, hmem, hmax⟩ := isLongest_of_longest hl
      refine longest_eq_some ⟨by simpa using hn, ?_, fun m hm hms hmem' => ?_⟩
      · rw [List.take_succ_cons, mem_single_mul hr]
        exact ⟨hc, hmem⟩
      · obtain ⟨k, rfl⟩ : ∃ k, m = k + 1 := ⟨m - 1, by omega⟩
        rw [List.take_succ_cons, mem_single_mul hr] at hmem'
        have hnk : n < k := Nat.lt_of_succ_lt_succ hm
        exact hmax k hnk (by simpa using hms) hmem'.2
  · rw [if_neg hc, longest_eq_none]
    intro n hn hmem
    cases n with
    | zero => exact nil_not_mem_single_mul hr hmem
    | succ n =>
      rw [List.take_succ_cons, mem_single_mul hr] at hmem
      exact hc hmem.1

theorem longest_single_cons (hr : Single r p) (c : α) (s : List α) :
    longest r (c :: s) = if p c then some 1 else none := by
  by_cases hc : p c
  · rw [if_pos hc]
    refine longest_eq_some ⟨by simp, (hr _).mpr ⟨c, hc, by simp⟩, fun m hm hms hmem => ?_⟩
    obtain ⟨d, -, hd⟩ := (hr _).mp hmem
    have hlen := congrArg List.length hd
    simp at hlen hms
    omega
  · rw [if_neg hc, longest_eq_none]
    intro n hn hmem
    obtain ⟨d, hd, hcd⟩ := (hr _).mp hmem
    cases n with
    | zero => cases hcd
    | succ n =>
      rw [List.take_succ_cons] at hcd
      exact hc ((List.cons_eq_cons.mp hcd).1 ▸ hd)

end single

/-! ### Runs of a class -/

section run
variable {cs : List α} {u : α} {w rest : List α}

/-- `[cs]+` matches the whole run. -/
theorem longest_run (hne : w ≠ []) (hw : ∀ c ∈ w, c ∈ cs) (hend : EndsRun cs rest) :
    longest (oneOrMore (anyOf cs)) (w ++ rest) = some w.length := by
  refine longest_eq_some ⟨by simp, ?_, fun m hm hms hmem => ?_⟩
  · rw [List.take_left, mem_oneOrMore_anyOf]
    exact ⟨hne, hw⟩
  · have hle := take_le_run hend hms ((mem_oneOrMore_anyOf cs _).mp hmem).2
    omega

/-- `[cs]+u?` before a `u`. -/
theorem longest_run_optional_some (hne : w ≠ []) (hw : ∀ c ∈ w, c ∈ cs) (hu : u ∉ cs) :
    longest (oneOrMore (anyOf cs) * optional (char u)) (w ++ u :: rest) =
      some (w.length + 1) := by
  have hend : EndsRun cs (u :: rest) := fun c hc => by
    obtain rfl : u = c := by simpa using hc
    exact hu
  refine longest_eq_some ⟨by simp, ?_, fun m hm hms hmem => ?_⟩
  · rw [List.take_append, List.take_of_length_le (by omega), mem_run_optional]
    exact ⟨w, [u], hne, hw, Or.inr rfl, by simp⟩
  · rcases run_optional_le hend hms hmem with hle | ⟨hle, -⟩
    · omega
    · omega

/-- `[cs]+u?` before anything else. -/
theorem longest_run_optional_none (hne : w ≠ []) (hw : ∀ c ∈ w, c ∈ cs)
    (hend : EndsRun cs rest) (hu : rest.head? ≠ some u) :
    longest (oneOrMore (anyOf cs) * optional (char u)) (w ++ rest) = some w.length := by
  refine longest_eq_some ⟨by simp, ?_, fun m hm hms hmem => ?_⟩
  · rw [List.take_left, mem_run_optional]
    exact ⟨w, [], hne, hw, Or.inl rfl, by simp⟩
  · rcases run_optional_le hend hms hmem with hle | ⟨-, hhead⟩
    · omega
    · exact hu hhead

end run

end Regex
