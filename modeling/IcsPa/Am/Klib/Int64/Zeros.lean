import IcsPa.Framework.BitCount
import IcsPa.Framework.CArith

/-! # klib: `__clzsi2` and `__ctzsi2`

    `klib/src/int64.c`.  Each of the first four statements looks at one half
    of the bits that are left and shifts them if the half is empty; the last
    two bits are settled by one expression without a branch.

    Their precondition is a number that is not zero, and the builtins of the
    compiler have it as well.  The code counts 32 zeros in the number zero. -/

open BitCount

namespace Am.Klib.Int64

/-! ## Section 1: The code -/

/-- A truth value as a number. -/
def of_cond (c : Bool) : BitVec 32 := if c then 1 else 0

/-- `t = ((x & mask) == 0) << lg; x >>= h - t; r += t;` where `h` is `1 << lg`. -/
def clz_step (mask : BitVec 32) (lg : Nat) (x r : BitVec 32) : BitVec 32 × BitVec 32 :=
  let t := of_cond (x &&& mask == 0) <<< lg
  (x >>> (of_cond true <<< lg - t).toNat, r + t)

def clzsi2 (a : BitVec 32) : BitVec 32 :=
  let (x, r) := clz_step 0xFFFF0000 4 a 0
  let (x, r) := clz_step 0xFF00 3 x r
  let (x, r) := clz_step 0xF0 2 x r
  let (x, r) := clz_step 0xC 1 x r
  r + ((2 - x) &&& -of_cond (x &&& 2 == 0))

/-- `t = ((x & mask) == 0) << lg; x >>= t; r += t;` -/
def ctz_step (mask : BitVec 32) (lg : Nat) (x r : BitVec 32) : BitVec 32 × BitVec 32 :=
  let t := of_cond (x &&& mask == 0) <<< lg
  (x >>> t.toNat, r + t)

def ctzsi2 (a : BitVec 32) : BitVec 32 :=
  let (x, r) := ctz_step 0x0000FFFF 4 a 0
  let (x, r) := ctz_step 0x00FF 3 x r
  let (x, r) := ctz_step 0x0F 2 x r
  let (x, r) := ctz_step 0x3 1 x r
  let x := x &&& 3
  r + ((2 - x >>> 1) &&& -of_cond (x &&& 1 == 0))

/-! ## Section 2: One step -/

/-- A count of the low `m` bits of `x` that has come to `r`. -/
structure Counted (count : Nat → Nat → Nat) (m goal : Nat) (x r : BitVec 32) : Prop where
  total : r.toNat + count m x.toNat = goal
  small : r.toNat + m ≤ 32

/-- The two values of `t`. -/
theorem toNat_of_cond_shl {lg h : Nat} (hh : h = 2 ^ lg) (hlg : lg < 5) (c : Bool) :
    (of_cond c <<< lg).toNat = if c then h else 0 := by
  have hh32 : h < 32 := by
    rw [hh]
    exact Nat.pow_lt_pow_right (by decide) hlg
  rw [BitVec.toNat_shiftLeft, Nat.shiftLeft_eq, ← hh]
  cases c with
  | false =>
    show 0 * h % 2 ^ 32 = 0
    rw [Nat.zero_mul, Nat.zero_mod]
  | true =>
    show 1 * h % 2 ^ 32 = h
    omega

theorem beq_zero_iff {x : BitVec 32} {P : Prop} [Decidable P] (h : x.toNat = 0 ↔ P) :
    (x == 0) = decide P := by
  rw [beq_eq_decide]
  congr 1
  rw [eq_iff_iff, ← h]
  exact ⟨fun h => by rw [h]; rfl, fun h => BitVec.eq_of_toNat_eq h⟩

section step
variable {x r : BitVec 32} {goal : Nat}

theorem clz_step_spec (mask : BitVec 32) (lg h : Nat) (hh : h = 2 ^ lg) (hlg : lg < 5)
    (hmask : mask.toNat = (2 ^ h - 1) <<< h)
    (hx : x.toNat < 2 ^ (h + h)) (hc : Counted lz (h + h) goal x r) :
    (clz_step mask lg x r).1.toNat < 2 ^ h ∧
      Counted lz h goal (clz_step mask lg x r).1 (clz_step mask lg x r).2 := by
  have hsmall := hc.small
  have htotal := hc.total
  have hempty : (x &&& mask == 0) = decide (x.toNat < 2 ^ h) := by
    apply beq_zero_iff
    rw [BitVec.toNat_and, hmask, and_upper_half hx]
  have hr : (clz_step mask lg x r).2.toNat = r.toNat + if x.toNat < 2 ^ h then h else 0 := by
    show (r + of_cond (x &&& mask == 0) <<< lg).toNat = _
    rw [BitVec.toNat_add, hempty, toNat_of_cond_shl hh hlg]
    by_cases hlow : x.toNat < 2 ^ h <;> simp [hlow] <;> omega
  have hx' : (clz_step mask lg x r).1.toNat =
      if x.toNat < 2 ^ h then x.toNat else x.toNat / 2 ^ h := by
    show (x >>> (of_cond true <<< lg - of_cond (x &&& mask == 0) <<< lg).toNat).toNat = _
    rw [CArith.toNat_ushiftRight_eq, hempty, BitVec.toNat_sub_of_le]
    · rw [toNat_of_cond_shl hh hlg, toNat_of_cond_shl hh hlg]
      by_cases hlow : x.toNat < 2 ^ h <;> simp [hlow]
    · rw [BitVec.le_def, toNat_of_cond_shl hh hlg, toNat_of_cond_shl hh hlg]
      by_cases hlow : x.toNat < 2 ^ h <;> simp [hlow]
  by_cases hlow : x.toNat < 2 ^ h
  · rw [if_pos hlow] at hr hx'
    rw [lz_low hlow] at htotal
    exact ⟨by rw [hx']; exact hlow, by rw [hr, hx']; omega, by rw [hr]; omega⟩
  · rw [if_neg hlow] at hr hx'
    rw [lz_high (Nat.le_of_not_lt hlow)] at htotal
    refine ⟨?_, by rw [hr, hx']; exact htotal, by rw [hr]; omega⟩
    rw [hx', Nat.div_lt_iff_lt_mul (Nat.two_pow_pos h), ← pow_add]
    exact hx

theorem ctz_step_spec (mask : BitVec 32) (lg h : Nat) (hh : h = 2 ^ lg) (hlg : lg < 5)
    (hmask : mask.toNat = 2 ^ h - 1)
    (hc : Counted tz (h + h) goal x r) :
    Counted tz h goal (ctz_step mask lg x r).1 (ctz_step mask lg x r).2 := by
  have hsmall := hc.small
  have htotal := hc.total
  have hempty : (x &&& mask == 0) = decide (x.toNat % 2 ^ h = 0) := by
    apply beq_zero_iff
    rw [BitVec.toNat_and, hmask, Nat.and_two_pow_sub_one_eq_mod]
  have hr : (ctz_step mask lg x r).2.toNat = r.toNat + if x.toNat % 2 ^ h = 0 then h else 0 := by
    show (r + of_cond (x &&& mask == 0) <<< lg).toNat = _
    rw [BitVec.toNat_add, hempty, toNat_of_cond_shl hh hlg]
    by_cases hzero : x.toNat % 2 ^ h = 0 <;> simp [hzero] <;> omega
  have hx' : (ctz_step mask lg x r).1.toNat =
      if x.toNat % 2 ^ h = 0 then x.toNat / 2 ^ h else x.toNat := by
    show (x >>> (of_cond (x &&& mask == 0) <<< lg).toNat).toNat = _
    rw [CArith.toNat_ushiftRight_eq, hempty, toNat_of_cond_shl hh hlg]
    by_cases hzero : x.toNat % 2 ^ h = 0 <;> simp [hzero]
  by_cases hzero : x.toNat % 2 ^ h = 0
  · rw [if_pos hzero] at hr hx'
    rw [tz_high hzero] at htotal
    exact ⟨by rw [hr, hx']; omega, by rw [hr]; omega⟩
  · rw [if_neg hzero] at hr hx'
    rw [tz_low hzero] at htotal
    exact ⟨by rw [hr, hx']; exact htotal, by rw [hr]; omega⟩

end step

/-! ## Section 3: The last two bits -/

theorem clz_last {x : BitVec 32} (hx : x.toNat < 2 ^ 2) :
    ((2 - x) &&& -of_cond (x &&& 2 == 0)).toNat = lz 2 x.toNat := by
  have hall : ∀ n < 4, ((2 - BitVec.ofNat 32 n) &&& -of_cond (BitVec.ofNat 32 n &&& 2 == 0)).toNat =
      2 - n.size := by
    decide
  have hcase := hall x.toNat hx
  rwa [BitVec.ofNat_toNat, BitVec.setWidth_eq] at hcase

theorem ctz_last (x : BitVec 32) :
    ((2 - (x &&& 3) >>> 1) &&& -of_cond (x &&& 3 &&& 1 == 0)).toNat = tz 2 x.toNat := by
  have hall : ∀ n < 4, ((2 - BitVec.ofNat 32 n >>> 1) &&& -of_cond
      (BitVec.ofNat 32 n &&& 1 == 0)).toNat = tz 2 n := by
    decide
  have hmod : (x &&& 3).toNat = x.toNat % 4 := by
    rw [BitVec.toNat_and]
    exact Nat.and_two_pow_sub_one_eq_mod x.toNat 2
  have hcase := hall (x.toNat % 4) (Nat.mod_lt _ (by decide))
  rw [← hmod, BitVec.ofNat_toNat, BitVec.setWidth_eq, hmod] at hcase
  rw [hcase]
  simp only [tz]
  rw [show x.toNat % 4 % 2 =
    x.toNat % 2 by omega, show x.toNat % 4 / 2 % 2 = x.toNat / 2 % 2 by omega]

/-! ## Section 4: The counts -/

/-- A count that has come to its last two bits. -/
theorem counted_end {count : Nat → Nat → Nat} {goal : BitVec 32} {x r last : BitVec 32}
    (hc : Counted count 2 goal.toNat x r) (hlast : last.toNat = count 2 x.toNat)
    (hle : count 2 x.toNat ≤ 2) :
    r + last = goal := by
  have hsmall := hc.small
  have htotal := hc.total
  apply BitVec.eq_of_toNat_eq
  rw [BitVec.toNat_add, hlast, ← htotal]
  omega

theorem zero_counts (a : BitVec 32) : clzsi2 a = a.clz ∧ ctzsi2 a = a.ctz := by
  refine ⟨?_, ?_⟩
  · have hstart : Counted lz (16 + 16) a.clz.toNat a 0 :=
      ⟨by rw [toNat_clz]; exact Nat.zero_add _, by decide⟩
    obtain ⟨hx, hc⟩ := clz_step_spec 0xFFFF0000 4 16 rfl (by decide) rfl a.isLt hstart
    obtain ⟨hx, hc⟩ := clz_step_spec 0xFF00 3 8 rfl (by decide) rfl hx hc
    obtain ⟨hx, hc⟩ := clz_step_spec 0xF0 2 4 rfl (by decide) rfl hx hc
    obtain ⟨hx, hc⟩ := clz_step_spec 0xC 1 2 rfl (by decide) rfl hx hc
    exact counted_end hc (clz_last hx) (Nat.sub_le 2 _)
  · have hstart : Counted tz (16 + 16) a.ctz.toNat a 0 :=
      ⟨by rw [toNat_ctz]; exact Nat.zero_add _, by decide⟩
    have hc := ctz_step_spec 0x0000FFFF 4 16 rfl (by decide) rfl hstart
    have hc := ctz_step_spec 0x00FF 3 8 rfl (by decide) rfl hc
    have hc := ctz_step_spec 0x0F 2 4 rfl (by decide) rfl hc
    have hc := ctz_step_spec 0x3 1 2 rfl (by decide) rfl hc
    refine counted_end hc (ctz_last _) ?_
    simp only [tz]
    split
    · split <;> omega
    · omega

end Am.Klib.Int64
