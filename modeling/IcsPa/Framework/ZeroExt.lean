import Mathlib.Data.Int.ModEq
import Mathlib.Tactic.Linarith
import Mathlib.Tactic.Ring

/-! # Zeros in front of negative numbers

    A negative number with zeros in front of it is that number plus the base
    `B`.  When do products, quotients and remainders of such numbers still
    agree modulo `B` with those of the numbers themselves?  A remainder is
    smaller than its divisor, and a quotient that fits is at most `B / 2`, so
    each congruence becomes an equation with few solutions. -/

namespace ZeroExt

/-! ## Section 1: Natural numbers -/

/-- The low halves of the quotients by `d` and by its zero-extended negation
    cancel, and the remainders are the same. -/
theorem quotients_cancel_iff {B n d : Nat} (hd : 0 < d) (hB : 2 * d ≤ B) (hq : 2 * (n / d) ≤ B) :
    (B ∣ n / (B - d) + n / d ∧ n % (B - d) = n % d) ↔ n < d ∨ 2 * d = B ∧ n / d = d := by
  obtain ⟨e, rfl⟩ : ∃ e, B = d + e := ⟨B - d, by omega⟩
  rw [Nat.add_sub_cancel_left]
  have he : d ≤ e := by omega
  have hn := Nat.div_add_mod n d
  have hn' := Nat.div_add_mod n e
  constructor
  · intro ⟨⟨k, hk⟩, hmod⟩
    -- The products agree, so the quotient is a multiple of `e`.
    have hsame : e * (n / e) = d * (n / d) := by omega
    have hquot : n / d = e * k := by
      have hprod : (d + e) * (n / d) = (d + e) * (e * k) := by
        calc (d + e) * (n / d) = d * (n / d) + e * (n / d) := by ring
          _ = e * (n / e + n / d) := by rw [← hsame]; ring
          _ = (d + e) * (e * k) := by rw [hk]; ring
      exact Nat.eq_of_mul_eq_mul_left (by omega) hprod
    -- A quotient of two or more times `e` is too large.
    match k with
    | 0 =>
      rw [Nat.mul_zero] at hquot
      exact .inl ((Nat.div_eq_zero_iff_lt hd).mp hquot)
    | 1 => omega
    | k + 2 =>
      have hbig : e * 2 ≤ e * (k + 2) := Nat.mul_le_mul_left e (by omega)
      omega
  · rintro (hlt | ⟨hhalf, hquot⟩)
    · have hlt' : n < e := by omega
      rw [Nat.div_eq_of_lt hlt, Nat.div_eq_of_lt hlt', Nat.mod_eq_of_lt hlt, Nat.mod_eq_of_lt hlt']
      exact ⟨dvd_zero _, rfl⟩
    · obtain rfl : e = d := by omega
      rw [hquot]
      exact ⟨dvd_rfl, rfl⟩

/-- The zero-extended negative dividend, with a positive divisor. -/
theorem negative_dividend_iff {B m d : Nat} (hd : 0 < d) (hB : 2 * d ≤ B) (hm : m ≤ B * B) :
    (B ∣ (B * B - m) / d + m / d ∧ B ∣ (B * B - m) % d + m % d) ↔ d ∣ m ∧ d ∣ B := by
  have hlt := Nat.mod_lt m hd
  have hlt' := Nat.mod_lt (B * B - m) hd
  have hdm := Nat.div_add_mod m d
  have hdm' := Nat.div_add_mod (B * B - m) d
  constructor
  · intro ⟨⟨k, hk⟩, hmod⟩
    have hzero : (B * B - m) % d + m % d = 0 := Nat.eq_zero_of_dvd_of_lt hmod (by omega)
    have hsum : B * B = d * (B * k) := by
      rw [← hk, Nat.mul_add]
      omega
    refine ⟨Nat.dvd_of_mod_eq_zero (by omega), k, ?_⟩
    apply Nat.eq_of_mul_eq_mul_left (show 0 < B by omega)
    rw [hsum]
    ring
  · rintro ⟨⟨q, rfl⟩, ⟨k, rfl⟩⟩
    have hsplit : d * k * (d * k) - d * q = d * (k * (d * k) - q) := by
      rw [Nat.mul_sub, Nat.mul_assoc]
    have hle : q ≤ k * (d * k) := by
      apply Nat.le_of_mul_le_mul_left _ hd
      rw [← Nat.mul_assoc]
      exact hm
    rw [hsplit, Nat.mul_div_cancel_left _ hd, Nat.mul_div_cancel_left _ hd, Nat.mul_mod_right,
      Nat.mul_mod_right, Nat.sub_add_cancel hle]
    exact ⟨Nat.dvd_mul_left _ _, dvd_zero _⟩

/-- The zero-extended negative dividend, with a zero-extended negative divisor. -/
theorem negative_operands_iff {B m d : Nat} (hd : 0 < d) (hm : 0 < m) (hB : 2 * d ≤ B)
    (hq : 2 * (m / d) < B) (hle : m ≤ B * B) :
    ((B * B - m) / (B - d) ≡ m / d [MOD B] ∧ B ∣ (B * B - m) % (B - d) + m % d) ↔ m = d * d := by
  obtain ⟨e, rfl⟩ : ∃ e, B = d + e := ⟨B - d, by omega⟩
  rw [Nat.add_sub_cancel_left]
  have he : d ≤ e := by omega
  have hlt := Nat.mod_lt m hd
  have hlt' := Nat.mod_lt ((d + e) * (d + e) - m) (show 0 < e by omega)
  have hdm := Nat.div_add_mod m d
  have hdm' := Nat.div_add_mod ((d + e) * (d + e) - m) e
  constructor
  · intro ⟨hquot, hmod⟩
    -- The remainders are too small for a sum other than 0.
    have hzero : ((d + e) * (d + e) - m) % e + m % d = 0 :=
      Nat.eq_zero_of_dvd_of_lt hmod (by omega)
    have hexact : m = d * (m / d) := by omega
    obtain ⟨k, hk⟩ : ∃ k, ((d + e) * (d + e) - m) / e = m / d + (d + e) * k := by
      have hqmod : m / d % (d + e) = m / d := Nat.mod_eq_of_lt (by omega)
      refine ⟨((d + e) * (d + e) - m) / e / (d + e), ?_⟩
      have hsame : ((d + e) * (d + e) - m) / e % (d + e) = m / d :=
        Eq.trans hquot hqmod
      rw [← hsame]
      exact (Nat.mod_add_div _ _).symm
    -- The two ways to write `m` give `d + e` as a sum.
    have hsum : d + e = m / d + e * k := by
      apply Nat.eq_of_mul_eq_mul_left (show 0 < d + e by omega)
      calc (d + e) * (d + e) = e * (m / d + (d + e) * k) + d * (m / d) := by rw [← hk]; omega
        _ = (d + e) * (m / d + e * k) := by ring
    -- Only `k = 1` leaves a quotient of `d`.
    match k with
    | 0 => omega
    | 1 =>
      have hqd : m / d = d := by omega
      rw [hqd] at hexact
      exact hexact
    | k + 2 =>
      have hbig : e * 2 ≤ e * (k + 2) := Nat.mul_le_mul_left e (by omega)
      have hqz : m / d = 0 := by omega
      rw [hqz] at hexact
      omega
  · intro hsq
    subst hsq
    have hsplit : (d + e) * (d + e) - d * d = e * (d + (d + e)) := by
      rw [show (d + e) * (d + e) = e * (d + (d + e)) + d * d by ring, Nat.add_sub_cancel]
    rw [hsplit, Nat.mul_div_cancel_left _ (by omega), Nat.mul_div_cancel_left _ hd,
      Nat.mul_mod_right, Nat.mul_mod_right]
    exact ⟨Nat.add_modEq_right, dvd_zero _⟩

/-! ## Section 2: Signed numbers -/

/-- The product of `a` and `x` modulo `B * B`, from factors of which the
    negative ones have `B` added. -/
theorem product_iff {B a x α β : Int} (hB : 0 < B) (hα : α = 0 ∧ 0 ≤ a ∨ α = 1 ∧ a < 0)
    (hβ : β = 0 ∧ 0 ≤ x ∨ β = 1 ∧ x < 0) (ha : -B ≤ 2 * a ∧ 2 * a < B)
    (hx : -B ≤ 2 * x ∧ 2 * x < B) :
    (a + α * B) * (x + β * B) ≡ a * x [ZMOD B * B] ↔
      (0 ≤ a ∧ 0 ≤ x) ∨ a = 0 ∨ x = 0 ∨ (2 * a = -B ∧ 2 * x = -B) := by
  have hdiff : (a + α * B) * (x + β * B) - a * x = B * (α * x + β * a + α * β * B) := by ring
  have hsmall : ∀ k, -B < k → k < B → (B ∣ k ↔ k = 0) := by
    intro k hlo hhi
    constructor
    · intro hdvd
      exact Int.eq_zero_of_abs_lt_dvd hdvd (abs_lt.mpr ⟨hlo, hhi⟩)
    · intro hk
      rw [hk]
      exact dvd_zero B
  rw [Int.modEq_comm, Int.modEq_iff_dvd, hdiff, Int.mul_dvd_mul_iff_left (by omega)]
  rcases hα with ⟨rfl, ha0⟩ | ⟨rfl, ha0⟩ <;> rcases hβ with ⟨rfl, hx0⟩ | ⟨rfl, hx0⟩
  · simp [ha0, hx0]
  · rw [show 0 * x + 1 * a + 0 * 1 * B = a by ring, hsmall a (by omega) (by omega)]
    omega
  · rw [show 1 * x + 0 * a + 1 * 0 * B = x by ring, hsmall x (by omega) (by omega)]
    omega
  · rw [show 1 * x + 1 * a + 1 * 1 * B = (a + x) +
      B by ring, hsmall (a + x + B) (by omega) (by omega)]
    omega

theorem modEq_neg_iff {B p q : Nat} : (p : Int) ≡ -q [ZMOD B] ↔ B ∣ p + q := by
  rw [Int.modEq_comm, Int.modEq_iff_dvd, sub_neg_eq_add, ← Int.natCast_add,
    Int.natCast_dvd_natCast]

theorem modEq_of_small {B p q : Nat} (hp : p < B) (hq : q < B) :
    (p : Int) ≡ q [ZMOD B] ↔ p = q := by
  rw [Int.natCast_modEq_iff, Nat.ModEq, Nat.mod_eq_of_lt hp, Nat.mod_eq_of_lt hq]

/-- The divisor `-δ` with zeros in front; the dividend is `m` or `-m`. -/
theorem zero_extended_divisor_iff {B m δ : Nat} {n : Int} (hn : n = m ∨ n = -m) (hδ : 0 < δ)
    (hB : 2 * δ ≤ B) (hq : 2 * (m / δ) ≤ B) :
    (n.tdiv (B - δ : Nat) ≡ n.tdiv (-δ) [ZMOD B] ∧ n.tmod (B - δ : Nat) ≡ n.tmod (-δ) [ZMOD B]) ↔
      m < δ ∨ 2 * δ = B ∧ m / δ = δ := by
  have hlt := Nat.mod_lt m hδ
  have hlt' := Nat.mod_lt m (show 0 < B - δ by omega)
  rw [← quotients_cancel_iff hδ hB hq]
  rcases hn with rfl | rfl
  · rw [Int.tdiv_neg, Int.tmod_neg, ← Int.ofNat_tdiv, ← Int.ofNat_tdiv, ← Int.ofNat_tmod,
      ← Int.ofNat_tmod, modEq_neg_iff, modEq_of_small (by omega) (by omega)]
  · rw [Int.tdiv_neg, Int.tmod_neg, Int.neg_tdiv, Int.neg_tdiv, Int.neg_tmod, Int.neg_tmod,
      ← Int.ofNat_tdiv, ← Int.ofNat_tdiv, ← Int.ofNat_tmod, ← Int.ofNat_tmod, Int.neg_modEq_neg,
      Int.neg_modEq_neg, modEq_neg_iff, modEq_of_small (by omega) (by omega)]

end ZeroExt
