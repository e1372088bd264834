import IcsPa.Am.Klib.Int64

/-! # klib: signed division

    `__divdi3`, `__moddi3` and `__divmoddi4` of `klib/src/int64.c`.  The signs
    are taken off, the magnitudes divided, and the sign of the result put on,
    each by an exclusive or with a sign and a subtraction of it.

    The least number has no magnitude: where it is an operand a signed
    subtraction overflows, also where the quotient can be represented. -/

open CArith

namespace Am.Klib.Int64

/-! ## Section 1: The code -/

/-- `x >> bits_in_dword_m1` -/
def sign (x : BitVec 64) : BitVec 64 := x.sshiftRight 63

/-- `(x ^ s) - s` in `di_int`. -/
def negate_if (x s : BitVec 64) : Except Undefined (BitVec 64) := ssub (x ^^^ s) s

def divdi3 (a b : BitVec 64) : Except Undefined (BitVec 64) := do
  let s_a := sign a
  let s_b := sign b
  let a ← negate_if a s_a
  let b ← negate_if b s_b
  let s_a := s_a ^^^ s_b
  -- The quotient is unsigned here.
  let (q, _) ← udivmoddi4 a b false
  return (q ^^^ s_a) - s_a

/-- `__divmoddi4`, with what it stores through `rem`. -/
def divmoddi4 (a b : BitVec 64) : Except Undefined (BitVec 64 × BitVec 64) := do
  let d ← divdi3 a b
  let p ← smul d b
  let r ← ssub a p
  return (d, r)

def moddi3 (a b : BitVec 64) : Except Undefined (BitVec 64) := do
  let b ← negate_if b (sign b)
  let s := sign a
  let a ← negate_if a s
  let (_, r) ← udivmoddi4 a b true
  negate_if (r.getD 0) s

/-! ## Section 2: Signs -/

/-- The two values of a sign. -/
def mask (neg : Bool) : BitVec 64 := if neg then BitVec.allOnes 64 else 0#64

theorem sign_eq (x : BitVec 64) : sign x = mask x.msb := sshiftRight_sign x

theorem mask_xor (p q : Bool) : mask p ^^^ mask q = mask (p ^^ q) := by
  cases p <;> cases q <;> rfl

/-- The same without a check, for unsigned words. -/
theorem xor_sub_mask (x : BitVec 64) (neg : Bool) :
    (x ^^^ mask neg) - mask neg = if neg then -x else x := by
  cases neg with
  | false => simp [mask]
  | true =>
    have hnot : x ^^^ mask true = ~~~x := BitVec.xor_allOnes
    have hone : mask true = -1#64 := rfl
    rw [hnot, hone, BitVec.sub_neg, if_pos rfl, BitVec.neg_eq_not_add]

theorem toInt_not_eq (x : BitVec 64) : (~~~x).toInt = -x.toInt - 1 := by
  have hx := x.isLt
  rw [BitVec.toInt_eq_toNat_cond, BitVec.toInt_eq_toNat_cond, BitVec.toNat_not]
  split <;> split <;> omega

theorem toInt_range (x : BitVec 64) : -2 ^ 63 ≤ x.toInt ∧ x.toInt < 2 ^ 63 :=
  ⟨BitVec.le_toInt x, BitVec.toInt_lt⟩

theorem toInt_ne_intMin {x : BitVec 64} : x ≠ BitVec.intMin 64 ↔ x.toInt ≠ -2 ^ 63 :=
  not_congr ⟨fun h => by rw [h]; rfl, fun h => BitVec.eq_of_toInt_eq h⟩

/-- The sign can be changed of every number but the least one. -/
theorem negate_if_mask (x : BitVec 64) (neg : Bool) :
    negate_if x (mask neg) =
      if neg = true ∧ x = BitVec.intMin 64 then .error .overflow else .ok
      (if neg then -x else x) := by
  obtain ⟨hlo, hhi⟩ := toInt_range x
  have hover : BitVec.ssubOverflow (x ^^^ mask neg) (mask neg) = decide (neg = true ∧
      x = BitVec.intMin 64) := by
    cases neg with
    | false =>
      have hzero : (mask false).toInt = 0 := rfl
      have hxor : x ^^^ mask false = x := BitVec.xor_zero
      rw [decide_eq_false fun h => Bool.false_ne_true h.1]
      unfold BitVec.ssubOverflow
      rw [hxor, hzero, Bool.or_eq_false_iff, decide_eq_false_iff_not, decide_eq_false_iff_not]
      omega
    | true =>
      have hones : (mask true).toInt = -1 := rfl
      have hnot : (x ^^^ mask true).toInt = -x.toInt - 1 := by
        rw [← toInt_not_eq, ← BitVec.xor_allOnes]
        rfl
      have hmin : x = BitVec.intMin 64 ↔ x.toInt = -2 ^ 63 := not_iff_not.mp toInt_ne_intMin
      unfold BitVec.ssubOverflow
      rw [hnot, hones, Bool.eq_iff_iff, Bool.or_eq_true, decide_eq_true_eq, decide_eq_true_eq,
        decide_eq_true_eq, hmin]
      exact ⟨fun h => ⟨rfl, by omega⟩, fun h => by have := h.2; omega⟩
  unfold negate_if ssub
  rw [hover, xor_sub_mask]
  by_cases hbad : neg = true ∧ x = BitVec.intMin 64
  · rw [if_pos hbad, decide_eq_true hbad, if_pos rfl]
  · rw [if_neg hbad, decide_eq_false hbad, if_neg Bool.false_ne_true]

/-- The magnitude of a number. -/
theorem negate_if_sign (x : BitVec 64) :
    negate_if x (sign x) = if x = BitVec.intMin 64 then .error .overflow else .ok x.abs := by
  rw [sign_eq, negate_if_mask]
  by_cases hmin : x = BitVec.intMin 64
  · rw [if_pos hmin, if_pos]
    subst hmin
    exact ⟨rfl, rfl⟩
  · rw [if_neg hmin, if_neg fun h => hmin h.2]
    rfl

/-! ## Section 3: Division -/

theorem abs_eq_zero {b : BitVec 64} : b.abs = 0 ↔ b = 0 := by
  unfold BitVec.abs
  split
  · exact BitVec.neg_eq_zero_iff
  · exact Iff.rfl

theorem sdiv_eq_abs (a b : BitVec 64) :
    a.sdiv b = if a.msb ^^ b.msb then -(a.abs / b.abs) else a.abs / b.abs := by
  rw [BitVec.sdiv_eq]
  unfold BitVec.abs
  cases a.msb <;> cases b.msb <;> rfl

theorem srem_eq_abs (a b : BitVec 64) :
    a.srem b = if a.msb then -(a.abs % b.abs) else a.abs % b.abs := by
  rw [BitVec.srem_eq]
  unfold BitVec.abs
  cases a.msb <;> cases b.msb <;> rfl

theorem divdi3_eq (a b : BitVec 64) :
    divdi3 a b =
      if a = BitVec.intMin 64 ∨ b = BitVec.intMin 64 then .error .overflow
      else if b = 0 then .error .division
      else .ok (a.sdiv b) := by
  unfold divdi3
  show (negate_if a (sign a) >>= fun a' => negate_if b (sign b) >>= fun b' =>
    udivmoddi4 a' b' false >>= fun q =>
    pure ((q.1 ^^^ (sign a ^^^ sign b)) - (sign a ^^^ sign b))) = _
  rw [negate_if_sign, negate_if_sign]
  by_cases ha : a = BitVec.intMin 64
  · rw [if_pos ha, if_pos (Or.inl ha), error_bind]
  by_cases hb : b = BitVec.intMin 64
  · rw [if_neg ha, if_pos hb, if_pos (Or.inr hb), ok_bind, error_bind]
  rw [if_neg ha, if_neg hb, if_neg (not_or.mpr ⟨ha, hb⟩), ok_bind, ok_bind, udivmoddi4_eq]
  by_cases hzero : b = 0
  · rw [if_pos hzero, if_pos (abs_eq_zero.mpr hzero), error_bind]
  · rw [if_neg hzero, if_neg fun h => hzero (abs_eq_zero.mp h), ok_bind, sign_eq, sign_eq, mask_xor,
      xor_sub_mask, sdiv_eq_abs]
    rfl

theorem toNat_abs_lt {x : BitVec 64} (hx : x ≠ BitVec.intMin 64) : x.abs.toNat < 2 ^ 63 := by
  have hlt := x.isLt
  have hne : x.toNat ≠ 2 ^ 63 := fun h => hx (BitVec.eq_of_toNat_eq h)
  rw [BitVec.toNat_abs, BitVec.msb_eq_decide]
  split
  · rename_i h
    have := of_decide_eq_true h
    omega
  · rename_i h
    have : ¬ 2 ^ (64 - 1) ≤ x.toNat := fun hle => h (decide_eq_true hle)
    omega

theorem moddi3_eq (a b : BitVec 64) :
    moddi3 a b =
      if a = BitVec.intMin 64 ∨ b = BitVec.intMin 64 then .error .overflow
      else if b = 0 then .error .division
      else .ok (a.srem b) := by
  unfold moddi3
  show (negate_if b (sign b) >>= fun b' => negate_if a (sign a) >>= fun a' =>
    udivmoddi4 a' b' true >>= fun qr => negate_if (qr.2.getD 0) (sign a)) = _
  rw [negate_if_sign, negate_if_sign]
  by_cases hb : b = BitVec.intMin 64
  · rw [if_pos hb, if_pos (Or.inr hb), error_bind]
  by_cases ha : a = BitVec.intMin 64
  · rw [if_neg hb, if_pos ha, if_pos (Or.inl ha), ok_bind, error_bind]
  rw [if_neg ha, if_neg hb, if_neg (not_or.mpr ⟨ha, hb⟩), ok_bind, ok_bind, udivmoddi4_eq]
  by_cases hzero : b = 0
  · rw [if_pos hzero, if_pos (abs_eq_zero.mpr hzero), error_bind]
  · rw [if_neg hzero, if_neg fun h => hzero (abs_eq_zero.mp h), ok_bind]
    show negate_if (a.abs % b.abs) (sign a) = _
    -- The remainder is below the magnitude of the divisor.
    have hsmall : a.abs % b.abs ≠ BitVec.intMin 64 := by
      intro h
      have hval := congrArg BitVec.toNat h
      have hle := Nat.mod_le a.abs.toNat b.abs.toNat
      have hlt := toNat_abs_lt ha
      rw [BitVec.toNat_umod] at hval
      have hmin : (BitVec.intMin 64).toNat = 2 ^ 63 := rfl
      omega
    rw [sign_eq, negate_if_mask, if_neg fun h => hsmall h.2, srem_eq_abs]

theorem divmoddi4_eq (a b : BitVec 64) :
    divmoddi4 a b =
      if a = BitVec.intMin 64 ∨ b = BitVec.intMin 64 then .error .overflow
      else if b = 0 then .error .division
      else .ok (a.sdiv b, a.srem b) := by
  unfold divmoddi4
  rw [divdi3_eq]
  by_cases hmin : a = BitVec.intMin 64 ∨ b = BitVec.intMin 64
  · rw [if_pos hmin, if_pos hmin, error_bind]
  by_cases hzero : b = 0
  · rw [if_neg hmin, if_neg hmin, if_pos hzero, if_pos hzero, error_bind]
  obtain ⟨ha, hb⟩ := not_or.mp hmin
  rw [if_neg hmin, if_neg hmin, if_neg hzero, if_neg hzero, ok_bind]
  obtain ⟨halo, hahi⟩ := toInt_range a
  have hane := toInt_ne_intMin.mp ha
  have hquot : (a.sdiv b).toInt = a.toInt.tdiv b.toInt :=
    BitVec.toInt_sdiv_of_ne_or_ne a b (.inl ha)
  have hsum := Int.tdiv_mul_add_tmod a.toInt b.toInt
  -- The product is no larger than the dividend.
  have hprod : (a.toInt.tdiv b.toInt * b.toInt).natAbs ≤ a.toInt.natAbs := by
    rw [Int.natAbs_mul, Int.natAbs_tdiv]
    exact Nat.div_mul_le_self _ _
  have hrest : (a.toInt.tmod b.toInt).natAbs ≤ a.toInt.natAbs := by
    rw [Int.natAbs_tmod]
    exact Nat.mod_le _ _
  have hmul : BitVec.smulOverflow (a.sdiv b) b = false := by
    unfold BitVec.smulOverflow
    rw [hquot, Bool.or_eq_false_iff, decide_eq_false_iff_not, decide_eq_false_iff_not]
    omega
  have hmulval : (a.sdiv b * b).toInt = a.toInt.tdiv b.toInt * b.toInt := by
    rw [BitVec.toInt_mul_of_not_smulOverflow (by rw [hmul]; exact Bool.false_ne_true), hquot]
  have hsub : BitVec.ssubOverflow a (a.sdiv b * b) = false := by
    unfold BitVec.ssubOverflow
    rw [hmulval, Bool.or_eq_false_iff, decide_eq_false_iff_not, decide_eq_false_iff_not]
    omega
  have hrem : a - a.sdiv b * b = a.srem b := by
    apply BitVec.eq_of_toInt_eq
    rw [BitVec.toInt_sub_of_not_ssubOverflow (by rw [hsub]; exact Bool.false_ne_true), hmulval,
      BitVec.toInt_srem]
    omega
  rw [smul, hmul, if_neg Bool.false_ne_true, ok_bind, ssub, hsub, if_neg Bool.false_ne_true,
    ok_bind, hrem]
  rfl

/-- Division that rounds to zero, except for the least number. -/
theorem signed_division (a b : BitVec 64) :
    (divdi3 a b =
      if a = BitVec.intMin 64 ∨ b = BitVec.intMin 64 then .error .overflow
      else if b = 0 then .error .division
      else .ok (a.sdiv b)) ∧
    (moddi3 a b =
      if a = BitVec.intMin 64 ∨ b = BitVec.intMin 64 then .error .overflow
      else if b = 0 then .error .division
      else .ok (a.srem b)) ∧
    (divmoddi4 a b =
      if a = BitVec.intMin 64 ∨ b = BitVec.intMin 64 then .error .overflow
      else if b = 0 then .error .division
      else .ok (a.sdiv b, a.srem b)) :=
  ⟨divdi3_eq a b, moddi3_eq a b, divmoddi4_eq a b⟩

end Am.Klib.Int64
