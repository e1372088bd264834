import Mathlib.Data.BitVec
import Mathlib.Data.Nat.Size
import Mathlib.Tactic.Ring

/-! # Counting zeros by halves

    The zeros in front of the first one of a number of `m` bits, and those
    behind its last one.  A number of `h + h'` bits is searched by halves: if
    the half that is looked at is all zeros the count goes on in the other
    half, and otherwise it is settled in this one. -/

namespace BitCount

/-- The leading zeros of a number below `2 ^ m`. -/
def lz (m x : Nat) : Nat := m - x.size

/-- The trailing zeros among the low `m` bits of a number. -/
def tz : Nat → Nat → Nat
  | 0, _ => 0
  | m + 1, x => if x % 2 = 0 then tz m (x / 2) + 1 else 0

/-! ## Leading zeros -/

theorem size_eq {x k : Nat} (hlo : 2 ^ k ≤ x) (hhi : x < 2 ^ (k + 1)) : x.size = k + 1 := by
  have hle : x.size ≤ k + 1 := Nat.size_le.mpr hhi
  have hlt : k < x.size := Nat.lt_size.mpr hlo
  omega

/-- The upper half is empty. -/
theorem lz_low {h h' x : Nat} (hx : x < 2 ^ h) : lz (h' + h) x = h' + lz h x := by
  have hsize : x.size ≤ h := Nat.size_le.mpr hx
  unfold lz
  omega

/-- The upper half is not empty. -/
theorem lz_high {h h' x : Nat} (hx : 2 ^ h ≤ x) : lz (h' + h) x = lz h' (x / 2 ^ h) := by
  obtain ⟨k, hk⟩ : ∃ k, (x / 2 ^ h).size = k + 1 := by
    have hpos : 0 < x / 2 ^ h := Nat.div_pos hx (Nat.two_pow_pos h)
    exact ⟨(x / 2 ^ h).size - 1, by have := Nat.size_pos.mpr hpos; omega⟩
  have hlo : 2 ^ k ≤ x / 2 ^ h := Nat.lt_size.mp (by omega)
  have hhi : x / 2 ^ h < 2 ^ (k + 1) := Nat.size_le.mp (by omega)
  rw [Nat.le_div_iff_mul_le (Nat.two_pow_pos h), ← pow_add] at hlo
  rw [Nat.div_lt_iff_lt_mul (Nat.two_pow_pos h), ← pow_add] at hhi
  have hsize : x.size = k + h + 1 := size_eq hlo (by rwa [show k + h + 1 = k + 1 + h by omega])
  unfold lz
  rw [hsize, hk]
  omega

theorem toNat_clz {w : Nat} (x : BitVec w) : x.clz.toNat = lz w x.toNat := by
  by_cases hx : x = 0
  · subst hx
    have hall : (0 : BitVec w).clz = BitVec.ofNat w w := BitVec.clz_eq_iff_eq_zero.mpr rfl
    rw [hall, BitVec.toNat_ofNat, Nat.mod_eq_of_lt Nat.lt_two_pow_self]
    simp [lz]
  · have hw : 0 < w := by
      rcases Nat.eq_zero_or_pos w with rfl | hw
      · exact absurd (BitVec.eq_nil x) hx
      · exact hw
    have hlo := BitVec.two_pow_sub_clz_le_toNat_of_ne_zero hw hx
    have hhi := BitVec.toNat_lt_two_pow_sub_clz (x := x)
    have hlt : x.clz.toNat < w := by
      have := BitVec.lt_def.mp (BitVec.clz_lt_iff_ne_zero.mpr hx)
      rwa [BitVec.natCast_eq_ofNat, BitVec.toNat_ofNat,
        Nat.mod_eq_of_lt Nat.lt_two_pow_self] at this
    have hsize : x.toNat.size = w - 1 - x.clz.toNat + 1 :=
      size_eq hlo (by rwa [show w - 1 - x.clz.toNat + 1 = w - x.clz.toNat by omega])
    unfold lz
    omega

/-! ## Trailing zeros -/

/-- The lower half is empty. -/
theorem tz_high {h h' x : Nat} (hx : x % 2 ^ h = 0) : tz (h + h') x = h + tz h' (x / 2 ^ h) := by
  induction h generalizing x with
  | zero => simp
  | succ h ih =>
    rw [pow_succ', Nat.mod_mul] at hx
    rw [show h + 1 + h' = h + h' + 1 by omega, tz, if_pos (by omega), ih (by omega), pow_succ',
      ← Nat.div_div_eq_div_mul]
    omega

/-- The lower half is not empty. -/
theorem tz_low {h h' x : Nat} (hx : x % 2 ^ h ≠ 0) : tz (h + h') x = tz h x := by
  induction h generalizing x with
  | zero => exact absurd (Nat.mod_one x) hx
  | succ h ih =>
    rw [pow_succ', Nat.mod_mul] at hx
    rw [show h + 1 + h' = h + h' + 1 by omega, tz, tz]
    by_cases heven : x % 2 = 0
    · rw [if_pos heven, if_pos heven, ih (by omega)]
    · rw [if_neg heven, if_neg heven]

/-- The count is settled by the bits. -/
theorem tz_eq {m t x : Nat} (ht : t ≤ m) (hlow : x % 2 ^ t = 0)
    (hbit : t < m → x / 2 ^ t % 2 = 1) : tz m x = t := by
  obtain ⟨h', rfl⟩ : ∃ h', m = t + h' := ⟨m - t, by omega⟩
  rw [tz_high hlow]
  cases h' with
  | zero => rfl
  | succ h' => rw [tz, if_neg (by rw [hbit (by omega)]; decide), Nat.add_zero]

theorem toNat_ctz {w : Nat} (x : BitVec w) : x.ctz.toNat = tz w x.toNat := by
  have hlow : x.toNat % 2 ^ x.ctz.toNat = 0 := by
    apply Nat.eq_of_testBit_eq
    intro i
    rw [Nat.testBit_mod_two_pow, Nat.zero_testBit]
    by_cases hi : i < x.ctz.toNat
    · have hzero : x.toNat.testBit i = false := BitVec.getLsbD_false_of_lt_ctz hi
      rw [hzero, Bool.and_false]
    · rw [decide_eq_false hi, Bool.false_and]
  by_cases hx : x = 0
  · subst hx
    have hall : (0 : BitVec w).ctz.toNat = w := by
      rw [BitVec.ctz_eq_reverse_clz, toNat_clz]
      have hrev : (0 : BitVec w).reverse = 0 := BitVec.reverse_eq_zero_iff.mpr rfl
      rw [hrev]
      simp [lz]
    rw [hall]
    exact (tz_eq (Nat.le_refl w) (by simp) (fun h => absurd h (Nat.lt_irrefl w))).symm
  · have hlt : x.ctz.toNat < w := by
      have := BitVec.lt_def.mp (BitVec.ctz_lt_iff_ne_zero.mpr hx)
      rwa [BitVec.natCast_eq_ofNat, BitVec.toNat_ofNat,
        Nat.mod_eq_of_lt Nat.lt_two_pow_self] at this
    refine (tz_eq (Nat.le_of_lt hlt) hlow fun _ => ?_).symm
    have hbit : x.toNat.testBit x.ctz.toNat = true := BitVec.getLsbD_true_ctz_of_ne_zero hx
    rw [Nat.testBit_eq_decide_div_mod_eq] at hbit
    exact of_decide_eq_true hbit

/-! ## Masks -/

/-- The `b` bits from place `s` on. -/
theorem and_mask (a b s : Nat) : a &&& ((2 ^ b - 1) * 2 ^ s) = a / 2 ^ s % 2 ^ b * 2 ^ s := by
  rw [← Nat.shiftLeft_eq, ← Nat.shiftLeft_eq]
  apply Nat.eq_of_testBit_eq
  intro i
  rw [Nat.testBit_and, Nat.testBit_shiftLeft, Nat.testBit_shiftLeft, Nat.testBit_mod_two_pow,
    Nat.testBit_two_pow_sub_one, Nat.testBit_div_two_pow]
  by_cases hi : s ≤ i
  · have hsub : i - s + s = i := by omega
    simp [hi, hsub, Bool.and_comm]
  · simp [hi]

/-- The upper half of a number. -/
theorem and_upper_half {h x : Nat} (hx : x < 2 ^ (h + h)) :
    x &&& ((2 ^ h - 1) <<< h) = 0 ↔ x < 2 ^ h := by
  have hquot : x / 2 ^ h < 2 ^ h := by
    rw [Nat.div_lt_iff_lt_mul (Nat.two_pow_pos h), ← Nat.pow_add]
    exact hx
  have hpos := Nat.two_pow_pos h
  rw [Nat.shiftLeft_eq, and_mask, Nat.mod_eq_of_lt hquot, Nat.mul_eq_zero, Nat.div_eq_zero_iff]
  omega

/-- A number that shares no bit with its predecessor is a power of two. -/
theorem eq_two_pow_ctz {w : Nat} {x : BitVec w} (hx : x ≠ 0) (hand : x &&& (x - 1) = 0) :
    x.toNat = 2 ^ x.ctz.toNat := by
  have hpos : 0 < x.toNat := Nat.pos_of_ne_zero fun h => hx (BitVec.eq_of_toNat_eq h)
  have hpred : (x - 1).toNat = x.toNat - 1 := by
    have hle : (1 : BitVec w) ≤ x := by
      rw [BitVec.le_def]
      exact Nat.le_trans (Nat.mod_le 1 _) hpos
    have hone : (1 : BitVec w).toNat = 1 := Nat.mod_eq_of_lt (Nat.lt_of_le_of_lt hpos x.isLt)
    rw [BitVec.toNat_sub_of_le hle, hone]
  have hnat : x.toNat &&& (x.toNat - 1) = 0 := by
    have := congrArg BitVec.toNat hand
    rwa [BitVec.toNat_and, hpred] at this
  obtain ⟨k, hk⟩ := (Nat.and_sub_one_eq_zero_iff_isPowerOfTwo (Nat.ne_of_gt hpos)).mp hnat
  have hkw : k < w := by
    have hlt := x.isLt
    rw [hk] at hlt
    exact (Nat.pow_lt_pow_iff_right (by decide)).mp hlt
  rw [toNat_ctz, hk]
  congr 1
  refine (tz_eq (Nat.le_of_lt hkw) (Nat.mod_self _) fun _ => ?_).symm
  rw [Nat.div_self (Nat.two_pow_pos k)]

end BitCount
