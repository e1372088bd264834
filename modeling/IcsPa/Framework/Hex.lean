import Mathlib.Data.List.Basic
import Mathlib.Data.Nat.Digits.Lemmas

/-! # Hexadecimal texts

    Bytes and numbers as texts of ASCII codes.  `encode` writes two lower-case
    digits for each byte, the high half first, and `print` writes a number as
    `%x` does; `decode` and `parse` read them back, in either case. -/

namespace Hex

/-- The code of an ASCII character. -/
def ascii (c : Char) : UInt8 := UInt8.ofNat c.toNat

def text (s : List Char) : List UInt8 := s.map ascii

theorem text_ne {s : List Char} {c : UInt8} (h : (s.all fun x => ascii x != c) = true) :
    ∀ d ∈ text s, d ≠ c := by
  intro d hd
  obtain ⟨x, hx, rfl⟩ := List.mem_map.mp hd
  simpa using List.all_eq_true.mp h x hx

/-- The lower-case digit `d`. -/
def digit (d : Nat) : UInt8 :=
  if d < 10 then UInt8.ofNat ('0'.toNat + d) else UInt8.ofNat ('a'.toNat + (d - 10))

/-- The value of a digit. -/
def value (c : UInt8) : Option Nat :=
  if ascii '0' ≤ c ∧ c ≤ ascii '9' then some (c.toNat - '0'.toNat)
  else if ascii 'a' ≤ c ∧ c ≤ ascii 'f' then some (c.toNat - 'a'.toNat + 10)
  else if ascii 'A' ≤ c ∧ c ≤ ascii 'F' then some (c.toNat - 'A'.toNat + 10)
  else none

theorem value_digit {d : Nat} (hd : d < 16) : value (digit d) = some d := by
  have hall : ∀ d < 16, value (digit d) = some d := by decide
  exact hall d hd

/-- A character that is no digit is not written by the functions below. -/
theorem digit_ne {d : Nat} {c : UInt8} (hd : d < 16) (hc : value c = none) : digit d ≠ c := by
  intro h
  rw [← h, value_digit hd] at hc
  cases hc

/-! ## Numbers -/

/-- `%x` -/
def print (v : Nat) : List UInt8 :=
  (if v = 0 then [0] else (Nat.digits 16 v).reverse).map digit

/-- The number after some more digits. -/
def append_digits (v : Nat) (l : List UInt8) : Option Nat :=
  l.foldlM (fun v c => (value c).map fun d => v * 16 + d) v

/-- The number in a text of digits. -/
def parse (l : List UInt8) : Option Nat := if l = [] then none else append_digits 0 l

/-- From the left the last digit is added last. -/
theorem foldl_reverse_digits (base v : Nat) :
    (Nat.digits base v).reverse.foldl (fun n d => n * base + d) 0 = v := by
  rw [List.foldl_reverse]
  calc
    (Nat.digits base v).foldr (fun d n => n * base + d) 0
        = Nat.ofDigits base (Nat.digits base v) := by
      rw [Nat.ofDigits_eq_foldr]
      congr 1
      funext d n
      simp only [Nat.cast_id]
      rw [Nat.mul_comm, Nat.add_comm]
    _ = v := Nat.ofDigits_digits base v

theorem append_digits_map {ds : List Nat} (hds : ∀ d ∈ ds, d < 16) (v : Nat) :
    append_digits v (ds.map digit) = some (ds.foldl (fun n d => n * 16 + d) v) := by
  induction ds generalizing v with
  | nil => rfl
  | cons d ds ih =>
    have hfirst : value (digit d) = some d := value_digit (hds d List.mem_cons_self)
    unfold append_digits
    rw [List.map_cons, List.foldlM_cons, hfirst]
    exact ih (fun e he => hds e (List.mem_cons_of_mem d he)) (v * 16 + d)

theorem print_digits (v : Nat) : ∃ ds : List Nat, print v = ds.map digit ∧ ds ≠ [] ∧
    (∀ d ∈ ds, d < 16) ∧ ds.foldl (fun n d => n * 16 + d) 0 = v := by
  by_cases hv : v = 0
  · subst hv
    exact ⟨[0], rfl, by simp, by simp, rfl⟩
  · refine ⟨(Nat.digits 16 v).reverse, by rw [print, if_neg hv], ?_, ?_, foldl_reverse_digits 16 v⟩
    · intro h
      exact hv (Nat.digits_eq_nil_iff_eq_zero.mp (List.reverse_eq_nil_iff.mp h))
    · intro d hd
      exact Nat.digits_lt_base (by decide) (List.mem_reverse.mp hd)

theorem parse_print (v : Nat) : parse (print v) = some v := by
  obtain ⟨ds, hprint, hne, hds, hval⟩ := print_digits v
  have hne' : ds.map digit ≠ [] := by simpa using hne
  rw [hprint, parse, if_neg hne', append_digits_map hds, hval]

/-- A number below `16 ^ k` has at most `k` digits. -/
theorem length_print_le {v k : Nat} (hk : 0 < k) (hv : v < 16 ^ k) : (print v).length ≤ k := by
  unfold print
  rw [List.length_map]
  split
  · exact hk
  · rw [List.length_reverse]
    exact (Nat.digits_length_le_iff (by decide) v).mpr hv

theorem print_ne {c : UInt8} (hc : value c = none) (v : Nat) : ∀ d ∈ print v, d ≠ c := by
  obtain ⟨ds, hprint, -, hds, -⟩ := print_digits v
  intro d hd
  rw [hprint] at hd
  obtain ⟨e, he, rfl⟩ := List.mem_map.mp hd
  exact digit_ne (hds e he) hc

/-! ## Bytes -/

def encode_byte (b : UInt8) : List UInt8 := [digit (b.toNat / 16), digit (b.toNat % 16)]

def encode (bytes : List UInt8) : List UInt8 := bytes.flatMap encode_byte

def decode : List UInt8 → Option (List UInt8)
  | [] => some []
  | [_] => none
  | hi :: lo :: l =>
      (value hi).bind fun h => (value lo).bind fun w =>
      (decode l).map (UInt8.ofNat (16 * h + w) :: ·)

theorem byte_halves (b : UInt8) :
    b.toNat / 16 < 16 ∧ b.toNat % 16 < 16 ∧
    UInt8.ofNat (16 * (b.toNat / 16) + b.toNat % 16) = b := by
  have hb := b.toNat_lt
  refine ⟨by omega, by omega, ?_⟩
  rw [Nat.div_add_mod]
  exact UInt8.ofNat_toNat

theorem decode_encode (bytes : List UInt8) : decode (encode bytes) = some bytes := by
  induction bytes with
  | nil => rfl
  | cons b bytes ih =>
    obtain ⟨hhi, hlo, hb⟩ := byte_halves b
    -- The two digits of the first byte.
    show (value (digit (b.toNat / 16))).bind (fun h => (value (digit (b.toNat % 16))).bind
      fun w => (decode (encode bytes)).map (UInt8.ofNat (16 * h + w) :: ·)) = some (b :: bytes)
    rw [value_digit hhi, value_digit hlo, ih, Option.bind_some, Option.bind_some, Option.map_some,
      hb]

@[simp] theorem length_encode (bytes : List UInt8) : (encode bytes).length = 2 * bytes.length := by
  induction bytes with
  | nil => rfl
  | cons b bytes ih =>
    show (encode bytes).length + 1 + 1 = _
    rw [ih, List.length_cons]
    omega

theorem encode_append (l l' : List UInt8) : encode (l ++ l') = encode l ++ encode l' :=
  List.flatMap_append

theorem drop_encode (bytes : List UInt8) (n : Nat) :
    (encode bytes).drop (2 * n) = encode (bytes.drop n) := by
  induction n generalizing bytes with
  | zero => rfl
  | succ n ih =>
    cases bytes with
    | nil => simp [encode]
    | cons b bytes => exact ih bytes

theorem take_encode (bytes : List UInt8) (n : Nat) :
    (encode bytes).take (2 * n) = encode (bytes.take n) := by
  induction n generalizing bytes with
  | zero => rfl
  | succ n ih =>
    cases bytes with
    | nil => simp [encode]
    | cons b bytes => exact congrArg (encode_byte b ++ ·) (ih bytes)

theorem encode_ne {c : UInt8} (hc : value c = none) (bytes : List UInt8) :
    ∀ d ∈ encode bytes, d ≠ c := by
  intro d hd
  obtain ⟨b, -, hd⟩ := List.mem_flatMap.mp hd
  obtain ⟨hhi, hlo, -⟩ := byte_halves b
  have hpair : d = digit (b.toNat / 16) ∨ d = digit (b.toNat % 16) := by
    simpa [encode_byte] using hd
  rcases hpair with rfl | rfl
  · exact digit_ne hhi hc
  · exact digit_ne hlo hc

end Hex
