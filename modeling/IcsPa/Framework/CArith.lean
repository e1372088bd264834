import Mathlib.Data.BitVec

/-! # C arithmetic that may be undefined

    Operations on words of `w` bits that C leaves undefined for some operands.
    Unsigned arithmetic wraps and needs no rule here. -/

namespace CArith

/-- What C does not define. -/
inductive Undefined where
  /-- Division by zero. -/
  | division
  /-- A shift by the width of the operand or more. -/
  | shift
  /-- A signed result outside its type. -/
  | overflow
  /-- `__builtin_clz(0)` and `__builtin_ctz(0)`. -/
  | builtin
  deriving DecidableEq, Repr

variable {w : Nat}

@[simp] theorem ok_bind {α β : Type} (a : α) (f : α → Except Undefined β) :
    (Except.ok a >>= f) = f a := rfl

@[simp] theorem error_bind {α β : Type} (e : Undefined) (f : α → Except Undefined β) :
    (Except.error e >>= f) = .error e := rfl

@[simp] theorem pure_eq_ok {α : Type} (a : α) : (pure a : Except Undefined α) = .ok a := rfl

/-! ## Unsigned words -/

/-- `x / y` -/
def udiv (x y : BitVec w) : Except Undefined (BitVec w) :=
  if y = 0 then .error .division else .ok (x / y)

/-- `x % y` -/
def umod (x y : BitVec w) : Except Undefined (BitVec w) :=
  if y = 0 then .error .division else .ok (x % y)

/-- `x << k` -/
def shl (x : BitVec w) (k : Nat) : Except Undefined (BitVec w) :=
  if k < w then .ok (x <<< k) else .error .shift

/-- `x >> k` -/
def shr (x : BitVec w) (k : Nat) : Except Undefined (BitVec w) :=
  if k < w then .ok (x >>> k) else .error .shift

theorem shl_ok (x : BitVec w) {k : Nat} (hk : k < w) : shl x k = .ok (x <<< k) := if_pos hk

theorem shr_ok (x : BitVec w) {k : Nat} (hk : k < w) : shr x k = .ok (x >>> k) := if_pos hk

/-- The builtins that count zeros. -/
def clz (x : BitVec w) : Except Undefined (BitVec w) :=
  if x = 0 then .error .builtin else .ok x.clz

def ctz (x : BitVec w) : Except Undefined (BitVec w) :=
  if x = 0 then .error .builtin else .ok x.ctz

theorem clz_ok {x : BitVec w} (hx : x ≠ 0) : clz x = .ok x.clz := if_neg hx

theorem ctz_ok {x : BitVec w} (hx : x ≠ 0) : ctz x = .ok x.ctz := if_neg hx

/-! ## Signed words -/

/-- `x - y` -/
def ssub (x y : BitVec w) : Except Undefined (BitVec w) :=
  if BitVec.ssubOverflow x y then .error .overflow else .ok (x - y)

/-- `x * y` -/
def smul (x y : BitVec w) : Except Undefined (BitVec w) :=
  if BitVec.smulOverflow x y then .error .overflow else .ok (x * y)

/-! ## Places that do not overlap -/

/-- Bits that come in from below. -/
theorem toNat_shl_or {x y : BitVec w} {k : Nat} (hy : y.toNat < 2 ^ k) (hk : k ≤ w) :
    (x <<< k ||| y).toNat = x.toNat * 2 ^ k % 2 ^ w + y.toNat := by
  rw [BitVec.toNat_or, BitVec.toNat_shiftLeft, Nat.shiftLeft_eq]
  have hplace : x.toNat * 2 ^ k % 2 ^ w = (x.toNat % 2 ^ (w - k)) <<< k := by
    rw [Nat.shiftLeft_eq, ← Nat.mul_mod_mul_right, ← pow_add, Nat.sub_add_cancel hk]
  rw [hplace, Nat.shiftLeft_add_eq_or_of_lt hy]

theorem toNat_ushiftRight_eq (x : BitVec w) (k : Nat) : (x >>> k).toNat = x.toNat / 2 ^ k := by
  rw [BitVec.toNat_ushiftRight, Nat.shiftRight_eq_div_pow]

/-! ## Signs -/

/-- `x >> (w - 1)` of a signed word: `-1` if it is negative, and `0` if not. -/
theorem sshiftRight_sign (x : BitVec w) :
    x.sshiftRight (w - 1) = if x.msb then BitVec.allOnes w else 0 := by
  apply BitVec.eq_of_getLsbD_eq
  intro i hi
  have hbit : (x.sshiftRight (w - 1)).getLsbD i = x.msb := by
    rw [BitVec.getLsbD_sshiftRight, decide_eq_false (by omega), Bool.not_false, Bool.true_and]
    split
    · rename_i hlt
      obtain rfl : i = 0 := by omega
      rw [BitVec.msb_eq_getLsbD_last, Nat.add_zero]
    · rfl
  rw [hbit]
  cases x.msb with
  | true => simp [hi]
  | false => simp

/-- The sign of `d - r - 1` tells whether `r` has reached `d`, if they are less
    than half the range apart. -/
theorem msb_sub_sub_one {d r : BitVec w} (hw : 1 < w) (hup : r.toNat < d.toNat + 2 ^ (w - 1))
    (hlow : d.toNat ≤ r.toNat + 2 ^ (w - 1)) : (d - r - 1).msb = decide (d.toNat ≤ r.toNat) := by
  have hd := d.isLt
  have hr := r.isLt
  have htwo : 2 ^ w = 2 * 2 ^ (w - 1) := by
    rw [← Nat.pow_succ']
    congr 1
    omega
  have hone : (1 : BitVec w).toNat = 1 := Nat.mod_eq_of_lt (Nat.one_lt_two_pow (by omega))
  have hsub : (d - r - 1).toNat = (2 ^ w - 1 + (2 ^ w - r.toNat + d.toNat) % 2 ^ w) % 2 ^ w := by
    rw [BitVec.toNat_sub, BitVec.toNat_sub, hone]
  rw [BitVec.msb_eq_decide, hsub]
  by_cases hle : d.toNat ≤ r.toNat
  · rw [decide_eq_true hle, decide_eq_true]
    rcases Nat.lt_or_ge d.toNat r.toNat with hlt | hge
    · rw [Nat.mod_eq_of_lt (show 2 ^ w - r.toNat + d.toNat < 2 ^ w by omega),
        Nat.mod_eq_sub_mod (by omega), Nat.mod_eq_of_lt (by omega)]
      omega
    · rw [show 2 ^ w - r.toNat + d.toNat = 2 ^ w by omega, Nat.mod_self, Nat.add_zero,
        Nat.mod_eq_of_lt (by omega)]
      omega
  · rw [decide_eq_false hle, decide_eq_false]
    rw [Nat.mod_eq_sub_mod (show 2 ^ w ≤ 2 ^ w - r.toNat + d.toNat by omega),
      Nat.mod_eq_of_lt (show 2 ^ w - r.toNat + d.toNat - 2 ^ w < 2 ^ w by omega),
      Nat.mod_eq_sub_mod (by omega), Nat.mod_eq_of_lt (by omega)]
    omega

end CArith
