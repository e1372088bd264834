import IcsPa.Framework.Fault
import Mathlib.Data.List.TakeWhile

/-! # klib: `atoi`

    `klib/src/stdlib.c`.  A string is the list of its characters up to the
    NUL, so both loops of `atoi` end at the end of the list.

    The C standard reads an integer off the front of a string: white space, a
    sign and digits, each as many as there are.  `atoi` of klib knows no white
    space but the blank and no sign, and it adds the code of a digit before it
    takes `'0'` away. -/

open CCall

namespace Am.Klib

/-! ## Section 1: The code -/

/-- `*nptr >= '0' && *nptr <= '9'` -/
def is_digit (c : Char) : Bool := '0' ≤ c && c ≤ '9'

/-- `while (*nptr == ' ') { nptr ++; }` -/
def skip_blanks (nptr : List Char) : List Char := nptr.dropWhile (· == ' ')

/-- `x * 10 + *nptr - '0'`, evaluated from the left in `int`. -/
def accumulate (x : Int) (c : Char) : Except Fault Int := do
  let x ← cint (x * 10)
  let x ← cint (x + c.toNat)
  cint (x - '0'.toNat)

/-- The second loop of `atoi`. -/
def read_digits : List Char → Int → Except Fault Int
  | [], x => .ok x
  | c :: nptr, x =>
      if is_digit c then do
        let x ← accumulate x c
        read_digits nptr x
      else .ok x

def atoi (nptr : List Char) : Except Fault Int := read_digits (skip_blanks nptr) 0

/-! ## Section 2: The integer at the front of a string -/

inductive Sign where
  | none
  | plus
  | minus
  deriving DecidableEq

def Sign.text : Sign → List Char
  | none => []
  | plus => ['+']
  | minus => ['-']

/-- The number that digits denote. -/
def decimal (digits : List Char) : Nat := digits.foldl (fun v c => v * 10 + (c.toNat - '0'.toNat)) 0

/-- A string with an integer at its front, cut as the standard cuts it: no
    digit is left in `rest` for the integer. -/
structure Numeral where
  space  : List Char
  sign   : Sign
  digits : List Char
  rest   : List Char
  isspace_space : ∀ c ∈ space, isspace c
  is_digit_digits : ∀ c ∈ digits, is_digit c
  digits_ne_nil : digits ≠ []
  rest_stops : ∀ c ∈ rest.head?, is_digit c = false

namespace Numeral

def text (s : Numeral) : List Char := s.space ++ (s.sign.text ++ (s.digits ++ s.rest))

def value (s : Numeral) : Int :=
  if s.sign = .minus then -(decimal s.digits : Int) else decimal s.digits

/-- The value is one of `int`. -/
def Representable (s : Numeral) : Prop := -2147483648 ≤ s.value ∧ s.value ≤ 2147483647

/-- Nothing but blanks stands before the digits, and the value is at least 48
    below the end of `int`. -/
def Plain (s : Numeral) : Prop :=
  (∀ c ∈ s.space, c = ' ') ∧ s.sign = .none ∧ s.value + 48 ≤ 2147483647

end Numeral

/-! ## Section 3: What `atoi` reads -/

theorem digit_code {c : Char} (h : is_digit c) : 48 ≤ c.toNat ∧ c.toNat ≤ 57 := by
  simp only [is_digit, Bool.and_eq_true, decide_eq_true_eq] at h
  have hlo := Char.le_def.mp h.1
  have hhi := Char.le_def.mp h.2
  exact ⟨by simpa using UInt32.le_iff_toNat_le.mp hlo, by simpa using UInt32.le_iff_toNat_le.mp hhi⟩

/-- A digit overflows if its code does not fit on top of `10 * x`. -/
theorem accumulate_eq {x : Nat} {c : Char} (hc : is_digit c) :
    accumulate x c =
      if x * 10 + c.toNat < 2 ^ 31 then .ok ((x * 10 + (c.toNat - 48) : Nat) : Int)
      else .error .overflow := by
  obtain ⟨hlo, -⟩ := digit_code hc
  have hzero : ('0'.toNat : Int) = 48 := rfl
  unfold accumulate
  rw [hzero]
  -- The product may overflow, and the sum before `'0'` is taken away.
  by_cases hten : x * 10 < 2 ^ 31
  · have hcast : ((x : Int) * 10) = ((x * 10 : Nat) : Int) := by push_cast; rfl
    rw [hcast, cint_natCast hten, ok_bind]
    by_cases hfit : x * 10 + c.toNat < 2 ^ 31
    · rw [if_pos hfit, ← Nat.cast_add, cint_natCast hfit, ok_bind]
      have hsub : ((x * 10 + c.toNat : Nat) : Int) - 48 =
          ((x * 10 + (c.toNat - 48) : Nat) : Int) := by
        omega
      rw [hsub]
      exact cint_natCast (by omega)
    · rw [if_neg hfit]
      unfold cint
      rw [if_neg (by omega), error_bind]
  · rw [if_neg (by omega)]
    unfold cint
    rw [if_neg (by omega), error_bind]

variable {digits rest : List Char}

theorem read_digits_stop (hrest : ∀ c ∈ rest.head?, is_digit c = false) (x : Int) :
    read_digits rest x = .ok x := by
  cases rest with
  | nil => rfl
  | cons c rest =>
    have hc : is_digit c = false := hrest c rfl
    unfold read_digits
    rw [hc]
    rfl

/-- The digits read so far only make the number longer. -/
theorem le_foldl_decimal (digits : List Char) (x : Nat) :
    x ≤ digits.foldl (fun v c => v * 10 + (c.toNat - '0'.toNat)) x := by
  induction digits generalizing x with
  | nil => exact Nat.le_refl x
  | cons c digits ih =>
    have hrest := ih (x * 10 + (c.toNat - '0'.toNat))
    rw [List.foldl_cons]
    omega

/-- The loop returns the number if 48 more is an `int`, and overflows if not. -/
theorem read_digits_eq (hdigits : ∀ c ∈ digits, is_digit c) (hne : digits ≠ [])
    (hrest : ∀ c ∈ rest.head?, is_digit c = false) (x : Nat) :
    read_digits (digits ++ rest) x =
      let v := digits.foldl (fun v c => v * 10 + (c.toNat - '0'.toNat)) x
      if v + 48 < 2 ^ 31 then .ok (v : Int) else .error .overflow := by
  induction digits generalizing x with
  | nil => exact absurd rfl hne
  | cons c digits ih =>
    have hc := hdigits c List.mem_cons_self
    obtain ⟨hlo, -⟩ := digit_code hc
    have hzero : '0'.toNat = 48 := rfl
    have hgrow := le_foldl_decimal digits (x * 10 + (c.toNat - '0'.toNat))
    rw [List.cons_append, read_digits, if_pos hc, accumulate_eq hc, List.foldl_cons]
    dsimp only
    rw [hzero] at hgrow ⊢
    -- The code of a digit is 48 more than its value, so only the last digit decides.
    by_cases hfit : x * 10 + c.toNat < 2 ^ 31
    · rw [if_pos hfit, ok_bind]
      by_cases hlast : digits = []
      · subst hlast
        rw [List.nil_append, read_digits_stop hrest, List.foldl_nil, if_pos (by omega)]
      · exact ih (fun c hc => hdigits c (List.mem_cons_of_mem _ hc)) hlast _
    · rw [if_neg hfit, if_neg (by omega), error_bind]

/-- Before a sign, and before white space that is not a blank, `atoi` stops. -/
theorem atoi_stuck {blanks rest : List Char} {c : Char} (hblanks : ∀ c ∈ blanks, c = ' ')
    (hblank : c ≠ ' ') (hdigit : is_digit c = false) : atoi (blanks ++ c :: rest) = .ok 0 := by
  unfold atoi skip_blanks
  rw [List.dropWhile_append_of_pos (by simpa using hblanks),
    List.dropWhile_cons_of_neg (by simpa using hblank)]
  apply read_digits_stop
  intro c' hc'
  rw [← Option.some.inj hc']
  exact hdigit

theorem atoi_digits {blanks : List Char} (hblanks : ∀ c ∈ blanks, c = ' ')
    (hdigits : ∀ c ∈ digits, is_digit c) (hne : digits ≠ [])
    (hrest : ∀ c ∈ rest.head?, is_digit c = false) :
    atoi (blanks ++ (digits ++ rest)) =
      if decimal digits + 48 < 2 ^ 31 then .ok (decimal digits : Int) else .error .overflow := by
  unfold atoi skip_blanks
  rw [List.dropWhile_append_of_pos (by simpa using hblanks)]
  -- The first digit is not a blank.
  obtain ⟨c, t, rfl⟩ := List.exists_cons_of_ne_nil hne
  have hc : c ≠ ' ' := by
    intro h
    have hdigit := hdigits c List.mem_cons_self
    rw [h] at hdigit
    cases hdigit
  rw [List.cons_append, List.dropWhile_cons_of_neg (by simpa using hc)]
  exact read_digits_eq hdigits hne hrest 0

/-! ## Section 4: `atoi` against the standard -/

theorem is_digit_of_isspace {c : Char} (h : isspace c) : is_digit c = false := by
  by_contra hdigit
  obtain ⟨hlo, -⟩ := digit_code (Bool.eq_true_of_not_eq_false hdigit)
  simp only [isspace, Bool.or_eq_true, Bool.and_eq_true, beq_iff_eq, decide_eq_true_eq] at h
  rcases h with rfl | ⟨-, hhi⟩
  · cases hdigit rfl
  · have hcode : c.toNat ≤ 13 := UInt32.le_iff_toNat_le.mp (Char.le_def.mp hhi)
    omega

/-- White space is blanks only, or there is a first character that is none. -/
theorem blanks_or_other (space : List Char) :
    (∀ c ∈ space, c = ' ') ∨
      ∃ blanks c rest, space = blanks ++ c :: rest ∧ (∀ c ∈ blanks, c = ' ') ∧ c ≠ ' ' := by
  induction space with
  | nil => exact Or.inl fun c hc => absurd hc List.not_mem_nil
  | cons c space ih =>
    by_cases hc : c = ' '
    · rcases ih with hall | ⟨blanks, c', rest, rfl, hblanks, hc'⟩
      · exact Or.inl fun d hd => (List.mem_cons.mp hd).elim (fun h => h.trans hc) (hall d)
      · refine Or.inr ⟨c :: blanks, c', rest, rfl, ?_, hc'⟩
        exact fun d hd => (List.mem_cons.mp hd).elim (fun h => h.trans hc) (hblanks d)
    · exact Or.inr ⟨[], c, space, rfl, fun d hd => absurd hd List.not_mem_nil, hc⟩

namespace Numeral

/-- Nothing but blanks stands before the digits. -/
def Bare (s : Numeral) : Prop := (∀ c ∈ s.space, c = ' ') ∧ s.sign = .none

/-- A sign, or white space other than the blank, comes first. -/
def Blocked (s : Numeral) : Prop :=
  ∃ blanks c rest, s.text = blanks ++ c :: rest ∧ (∀ c ∈ blanks, c = ' ') ∧ c ≠ ' ' ∧
    is_digit c = false

theorem not_bare_of_sign {s : Numeral} (h : s.sign ≠ .none) : ¬ s.Bare := fun hbare => h hbare.2

theorem blocked_of_sign {s : Numeral} {c : Char} (hall : ∀ c ∈ s.space, c = ' ')
    (hsign : s.sign.text = [c]) (hc : c ≠ ' ') (hdigit : is_digit c = false) : s.Blocked := by
  have htext : s.text = s.space ++ c :: (s.digits ++ s.rest) := by
    rw [text, hsign]
    rfl
  exact ⟨s.space, c, s.digits ++ s.rest, htext, hall, hc, hdigit⟩

theorem bare_or_blocked (s : Numeral) : s.Bare ∨ ¬ s.Bare ∧ s.Blocked := by
  rcases blanks_or_other s.space with hall | ⟨blanks, c, rest, hspace, hblanks, hc⟩
  · -- The white space is skipped, so the sign decides.
    cases hsign : s.sign with
    | none => exact Or.inl ⟨hall, hsign⟩
    | plus =>
      have htext : s.sign.text = ['+'] := by rw [hsign]; rfl
      have hbare : ¬ s.Bare := not_bare_of_sign (by rw [hsign]; decide)
      exact Or.inr ⟨hbare, blocked_of_sign hall htext (by decide) (by decide)⟩
    | minus =>
      have htext : s.sign.text = ['-'] := by rw [hsign]; rfl
      have hbare : ¬ s.Bare := not_bare_of_sign (by rw [hsign]; decide)
      exact Or.inr ⟨hbare, blocked_of_sign hall htext (by decide) (by decide)⟩
  -- White space that is not a blank is no digit either.
  · have hmem : c ∈ s.space := by
      rw [hspace]
      simp
    have hbare : ¬ s.Bare := fun h => hc (h.1 c hmem)
    have htext : s.text = blanks ++ c :: (rest ++ (s.sign.text ++ (s.digits ++ s.rest))) := by
      rw [text, hspace]
      simp
    have hdigit := is_digit_of_isspace (s.isspace_space c hmem)
    exact Or.inr ⟨hbare, blanks, c, _, htext, hblanks, hc, hdigit⟩

theorem Bare.value {s : Numeral} (h : s.Bare) : s.value = decimal s.digits := by
  rw [Numeral.value, h.2]
  rfl

theorem Bare.text {s : Numeral} (h : s.Bare) : s.text = s.space ++ (s.digits ++ s.rest) := by
  rw [Numeral.text, h.2]
  rfl

end Numeral

/-- `atoi` returns the value exactly if the value is 0 or the integer is
    plain. -/
theorem atoi_eq_value_iff (s : Numeral) :
    atoi s.text = .ok s.value ↔ s.value = 0 ∨ s.Plain := by
  rcases s.bare_or_blocked with hbare | ⟨hbare, blanks, c, rest, htext, hblanks, hc, hdigit⟩
  -- The digits are read; 48 on top of their value must be an `int`.
  · rw [hbare.text, atoi_digits hbare.1 s.is_digit_digits s.digits_ne_nil s.rest_stops, hbare.value]
    constructor
    · intro h
      split at h
      · rename_i hfit
        exact Or.inr ⟨hbare.1, hbare.2, by rw [hbare.value]; omega⟩
      · cases h
    · intro h
      apply if_pos
      rcases h with hzero | hplain
      · omega
      · have hfit := hplain.2.2
        rw [hbare.value] at hfit
        omega
  · -- `atoi` returns 0 before it has seen a digit.
    rw [htext, atoi_stuck hblanks hc hdigit]
    constructor
    · intro h
      exact Or.inl (Except.ok.inj h).symm
    · intro h
      rcases h with hzero | hplain
      · rw [hzero]
      · exact absurd ⟨hplain.1, hplain.2.1⟩ hbare

/-- A numeral without text behind it. -/
def numeral (space : List Char) (sign : Sign) (digits : List Char)
    (h : (space.all isspace && digits.all is_digit && !digits.isEmpty) = true) : Numeral where
  space := space
  sign := sign
  digits := digits
  rest := []
  isspace_space := by
    simp only [Bool.and_eq_true, List.all_eq_true] at h
    exact h.1.1
  is_digit_digits := by
    simp only [Bool.and_eq_true, List.all_eq_true] at h
    exact h.1.2
  digits_ne_nil := by
    simp only [Bool.and_eq_true] at h
    simpa using h.2
  rest_stops := fun c hc => by cases hc

/-- `"-5"` is 0 for `atoi`, and the largest `int` overflows. -/
theorem atoi_ne_value :
    (∃ s : Numeral, s.text = ['-', '5'] ∧ s.value = -5 ∧ s.Representable ∧ atoi s.text = .ok 0) ∧
    ∃ s : Numeral, s.text = ['2', '1', '4', '7', '4', '8', '3', '6', '4', '7'] ∧
      s.value = 2147483647 ∧ s.Representable ∧ atoi s.text = .error .overflow := by
  constructor
  · exact ⟨numeral [] .minus ['5'] rfl, rfl, by decide, ⟨by decide, by decide⟩, by decide⟩
  · exact ⟨numeral [] .none ['2', '1', '4', '7', '4', '8', '3', '6', '4', '7'] rfl, rfl, by decide,
      ⟨by decide, by decide⟩, by decide⟩

end Am.Klib
