import IcsPa.Framework.BitCount
import IcsPa.Framework.CArith
import IcsPa.Framework.ShiftSub

/-! # klib: 64-bit division

    `klib/src/int64.c`.  On a machine of 32 bits a division of 64 bits is a
    call of one of these functions.  `__udivmoddi4` tells apart which halves
    of its operands are zero.  The general case is a division by shifting and
    subtracting on two pairs of halves; it starts at the place where the
    leading bits of the operands meet, and each turn gets its comparison from
    the sign of a difference. -/

open CArith

namespace Am.Klib.Int64

/-! ## Section 1: `__udivmoddi4` -/

/-- `udwords`: a word of 64 bits, which is `all`, as its two halves. -/
structure Udwords where
  low  : BitVec 32
  high : BitVec 32

def Udwords.all (x : Udwords) : BitVec 64 := x.high ++ x.low

def Udwords.of_all (v : BitVec 64) : Udwords := ⟨v.extractLsb' 0 32, v.extractLsb' 32 32⟩

/-- What a function returns, and what it has stored through `rem`. -/
abbrev Result : Type := BitVec 64 × Option (BitVec 64)

/-- `if (rem) *rem = v;` -/
def store (rem : Bool) (v : BitVec 64) : Option (BitVec 64) := if rem then some v else none

/-- `if (rem) *rem = x % y; return x / y;` -/
def divide_words (x y : BitVec 32) (rem : Bool) : Except Undefined Result := do
  let m ← if rem then umod x y else pure 0
  let q ← udiv x y
  return (q.setWidth 64, store rem (m.setWidth 64))

/-- `q`, `r` and `carry` in the loop. -/
structure Loop where
  q     : Udwords
  r     : Udwords
  carry : BitVec 32

/-- `x.s.high = (x.s.high << 1) | (x.s.low >> 31); x.s.low = (x.s.low << 1) | c;` -/
def shl_in (x : Udwords) (c : BitVec 32) : Udwords :=
  ⟨x.low <<< 1 ||| c, x.high <<< 1 ||| x.low >>> 31⟩

/-- The body of the loop. -/
def loop_turn (d : Udwords) (l : Loop) : Loop :=
  let r := shl_in l.r (l.q.high >>> 31)
  let q := shl_in l.q l.carry
  let s := (d.all - r.all - 1).sshiftRight 63
  { q := q, r := .of_all (r.all - (d.all &&& s)), carry := (s &&& 1).setWidth 32 }

/-- The loop, which runs `sr` turns, and what follows it. -/
def shift_subtract (d q r : Udwords) (sr : BitVec 32) (rem : Bool) : Result :=
  let l := (loop_turn d)^[sr.toNat] ⟨q, r, 0⟩
  (l.q.all <<< 1 ||| l.carry.setWidth 64, store rem l.r.all)

/-- `n.all >> sr` for `1 <= sr <= n_uword_bits - 1`. -/
def shift_right (n : Udwords) (sr : BitVec 32) : Except Undefined Udwords := do
  let high ← shr n.high sr.toNat
  let up ← shl n.high (32 - sr).toNat
  let down ← shr n.low sr.toNat
  return ⟨up ||| down, high⟩

/-- `q` and `r` before the loop, for `1 <= sr <= n_uword_bits - 1`. -/
def split_below (n : Udwords) (sr : BitVec 32) : Except Undefined (Udwords × Udwords) := do
  let q_high ← shl n.low (32 - sr).toNat
  let r ← shift_right n sr
  return (⟨0, q_high⟩, r)

/-- The same for `sr == n_uword_bits`. -/
def split_middle (n : Udwords) : Udwords × Udwords := (⟨0, n.low⟩, ⟨n.high, 0⟩)

/-- The same for `n_uword_bits + 1 <= sr <= n_udword_bits - 1`. -/
def split_above (n : Udwords) (sr : BitVec 32) : Except Undefined (Udwords × Udwords) := do
  let q_low ← shl n.low (64 - sr).toNat
  let up ← shl n.high (64 - sr).toNat
  let down ← shr n.low (sr - 32).toNat
  let r_low ← shr n.high (sr - 32).toNat
  return (⟨q_low, up ||| down⟩, ⟨r_low, 0⟩)

/-- `q` and `r` before the loop. -/
def split (n : Udwords) (sr : BitVec 32) : Except Undefined (Udwords × Udwords) :=
  if sr = 32 then pure (split_middle n)
  else if sr < 32 then split_below n sr
  else split_above n sr

/-- `K X / K 0` -/
def divide_by_high (n d : Udwords) (rem : Bool) : Except Undefined Result :=
  if n.low = 0 then do
    let m ← if rem then umod n.high d.high else pure 0
    let q ← udiv n.high d.high
    return (q.setWidth 64, store rem (Udwords.all ⟨0, m⟩))
  else if d.high &&& (d.high - 1) = 0 then do
    let k ← ctz d.high
    let q ← shr n.high k.toNat
    return (q.setWidth 64, store rem (Udwords.all ⟨n.low, n.high &&& (d.high - 1)⟩))
  else do
    let cd ← clz d.high
    let cn ← clz n.high
    let sr := cd - cn
    if 30 < sr then
      return (0, store rem n.all)
    else do
      let (q, r) ← split_below n (sr + 1)
      return shift_subtract d q r (sr + 1) rem

/-- `K X / 0 K` -/
def divide_by_low (n d : Udwords) (rem : Bool) : Except Undefined Result :=
  if d.low &&& (d.low - 1) = 0 then do
    let m := store rem ((n.low &&& (d.low - 1)).setWidth 64)
    if d.low = 1 then
      return (n.all, m)
    else do
      let sr ← ctz d.low
      let q ← shift_right n sr
      return (q.all, m)
  else do
    let cd ← clz d.low
    let cn ← clz n.high
    let sr := 1 + 32 + cd - cn
    let (q, r) ← split n sr
    return shift_subtract d q r sr rem

/-- `K X / K K` -/
def divide_by_both (n d : Udwords) (rem : Bool) : Except Undefined Result := do
  let cd ← clz d.high
  let cn ← clz n.high
  let sr := cd - cn
  if 31 < sr then
    return (0, store rem n.all)
  else do
    let sr := sr + 1
    let (q, r) ← if sr = 32 then pure (split_middle n) else split_below n sr
    return shift_subtract d q r sr rem

/-- `__udivmoddi4`; `rem` tells whether the pointer is one. -/
def udivmoddi4 (a b : BitVec 64) (rem : Bool) : Except Undefined Result :=
  let n := Udwords.of_all a
  let d := Udwords.of_all b
  if n.high = 0 then
    if d.high = 0 then divide_words n.low d.low rem
    else return (0, store rem (n.low.setWidth 64))
  else if d.low = 0 then
    if d.high = 0 then divide_words n.high d.low rem
    else divide_by_high n d rem
  else if d.high = 0 then divide_by_low n d rem
  else divide_by_both n d rem

def udivdi3 (a b : BitVec 64) : Except Undefined (BitVec 64) := do
  let (q, _) ← udivmoddi4 a b false
  return q

/-- `__umoddi3`: `r` is what `__udivmoddi4` stores. -/
def umoddi3 (a b : BitVec 64) : Except Undefined (BitVec 64) := do
  let (_, r) ← udivmoddi4 a b true
  return r.getD 0

/-! ## Section 2: Halves -/

@[simp] theorem toNat_all (x : Udwords) : x.all.toNat = x.high.toNat * 2 ^ 32 + x.low.toNat := by
  unfold Udwords.all
  rw [BitVec.toNat_append, ← Nat.shiftLeft_add_eq_or_of_lt x.low.isLt, Nat.shiftLeft_eq]

@[simp] theorem all_of_all (v : BitVec 64) : (Udwords.of_all v).all = v := by
  apply BitVec.eq_of_toNat_eq
  rw [toNat_all]
  show v.toNat >>> 32 % 2 ^ 32 * 2 ^ 32 + v.toNat >>> 0 % 2 ^ 32 = v.toNat
  have hv := v.isLt
  rw [Nat.shiftRight_eq_div_pow, Nat.shiftRight_zero]
  omega

theorem toNat_of_all (v : BitVec 64) :
    v.toNat = (Udwords.of_all v).high.toNat * 2 ^ 32 + (Udwords.of_all v).low.toNat := by
  rw [← toNat_all, all_of_all]

/-- The two results of a division. -/
theorem result_eq {n d q m : BitVec 64} {rem : Bool} (hq : q.toNat = n.toNat / d.toNat)
    (hm : rem = true → m.toNat = n.toNat % d.toNat) :
    ((q, store rem m) : Result) = (n / d, store rem (n % d)) := by
  have hquot : q = n / d := BitVec.eq_of_toNat_eq hq
  rw [hquot]
  cases rem with
  | false => rfl
  | true =>
    have hrest : m = n % d := BitVec.eq_of_toNat_eq (hm rfl)
    rw [hrest]

section shifts
variable {P R hi lo : Nat}

/-- A shift to the right takes bits from the upper half to the lower one. -/
theorem halves_div (hPR : P * R = 2 ^ 32) (hP : 0 < P) :
    (hi * 2 ^ 32 + lo) / P = hi / P * 2 ^ 32 + (hi * R % 2 ^ 32 + lo / P) := by
  have hR : 0 < R := by
    rcases Nat.eq_zero_or_pos R with rfl | hR
    · simp at hPR
    · exact hR
  have hquot : hi * R / 2 ^ 32 = hi / P := by rw [← hPR, Nat.mul_div_mul_right _ _ hR]
  have hsum := Nat.div_add_mod (hi * R) (2 ^ 32)
  calc
    (hi * 2 ^ 32 + lo) / P = (P * (hi * R) + lo) / P := by
      rw [← hPR]
      congr 2
      ring
    _ = hi * R + lo / P := by rw [Nat.mul_add_div hP]
    _ = hi / P * 2 ^ 32 + (hi * R % 2 ^ 32 + lo / P) := by
      rw [← hquot, Nat.mul_comm (hi * R / 2 ^ 32)]
      omega

/-- A shift to the left by more than a half. -/
theorem halves_mul_far : (hi * 2 ^ 32 + lo) * (R * 2 ^ 32) % 2 ^ 64 = lo * R % 2 ^ 32 * 2 ^ 32 := by
  have hform : (hi * 2 ^ 32 + lo) * (R * 2 ^ 32) = (lo * R + 2 ^ 32 * (hi * R)) * 2 ^ 32 := by ring
  rw [hform, show (2 : Nat) ^ 64 = 2 ^ 32 * 2 ^ 32 from rfl, Nat.mul_mod_mul_right,
    Nat.add_mul_mod_self_left]

/-- A shift to the left by less than a half. -/
theorem halves_mul_near (hPR : P * R = 2 ^ 32) (hup : hi * R % 2 ^ 32 + lo / P < 2 ^ 32) :
    (hi * 2 ^ 32 + lo) * R % 2 ^ 64 = (hi * R % 2 ^ 32 + lo / P) * 2 ^ 32 + lo * R % 2 ^ 32 := by
  have hR : 0 < R := by
    rcases Nat.eq_zero_or_pos R with rfl | hR
    · simp at hPR
    · exact hR
  have hquot : lo * R / 2 ^ 32 = lo / P := by rw [← hPR, Nat.mul_div_mul_right _ _ hR]
  have hlo := Nat.div_add_mod (lo * R) (2 ^ 32)
  have hhi := Nat.div_add_mod (hi * R) (2 ^ 32)
  have hform : (hi * 2 ^ 32 + lo) * R = hi * R * 2 ^ 32 + lo * R := by ring
  rw [hform]
  rw [hquot] at hlo
  omega

end shifts

theorem toNat_sub_of_le {x y : BitVec 32} (h : y.toNat ≤ x.toNat) :
    (x - y).toNat = x.toNat - y.toNat :=
  BitVec.toNat_sub_of_le (BitVec.le_def.mpr h)

theorem shift_right_spec (n : Udwords) {sr : BitVec 32} (hpos : 0 < sr.toNat)
    (hlt : sr.toNat < 32) :
    ∃ r, shift_right n sr = .ok r ∧ r.all.toNat = n.all.toNat / 2 ^ sr.toNat := by
  have hback : (32 - sr).toNat = 32 - sr.toNat := toNat_sub_of_le (Nat.le_of_lt hlt)
  have hPR : 2 ^ sr.toNat * 2 ^ (32 - sr.toNat) = 2 ^ 32 := by
    rw [← pow_add, Nat.add_sub_cancel' hlt.le]
  refine ⟨⟨n.high <<< (32 - sr.toNat) ||| n.low >>> sr.toNat, n.high >>> sr.toNat⟩, ?_, ?_⟩
  · unfold shift_right
    rw [hback, shr_ok _ hlt, shl_ok _ (by omega), shr_ok _ hlt]
    rfl
  · have hdown : (n.low >>> sr.toNat).toNat < 2 ^ (32 - sr.toNat) := by
      rw [toNat_ushiftRight_eq, Nat.div_lt_iff_lt_mul (Nat.two_pow_pos _), Nat.mul_comm, hPR]
      exact n.low.isLt
    rw [toNat_all, toNat_all, toNat_ushiftRight_eq, toNat_shl_or hdown (by omega),
      toNat_ushiftRight_eq,
      halves_div hPR (Nat.two_pow_pos _)]

/-- `q` and `r` hold the dividend, which has been shifted to the place where
    the loop begins. -/
structure Split (n : Udwords) (sr : BitVec 32) (qr : Udwords × Udwords) : Prop where
  q : qr.1.all.toNat = n.all.toNat * 2 ^ (64 - sr.toNat) % 2 ^ 64
  r : qr.2.all.toNat = n.all.toNat / 2 ^ sr.toNat

theorem split_below_spec (n : Udwords) (sr : BitVec 32) (hpos : 0 < sr.toNat)
    (hlt : sr.toNat < 32) :
    ∃ qr, split_below n sr = .ok qr ∧ Split n sr qr := by
  obtain ⟨r, hr, hrval⟩ := shift_right_spec n hpos hlt
  have hback : (32 - sr).toNat = 32 - sr.toNat := toNat_sub_of_le (Nat.le_of_lt hlt)
  refine ⟨(⟨0, n.low <<< (32 - sr.toNat)⟩, r), ?_, ⟨?_, hrval⟩⟩
  · unfold split_below
    rw [hback, shl_ok _ (by omega), hr]
    rfl
  · have hfar : (64 - sr.toNat) = (32 - sr.toNat) + 32 := by omega
    rw [toNat_all, toNat_all, hfar, pow_add, halves_mul_far, BitVec.toNat_shiftLeft,
      Nat.shiftLeft_eq]
    exact Nat.add_zero _

theorem split_middle_spec (n : Udwords) {sr : BitVec 32} (h : sr = 32) :
    Split n sr (split_middle n) := by
  subst h
  have hlow := n.low.isLt
  have hhigh := n.high.isLt
  refine ⟨?_, ?_⟩
  · rw [toNat_all, toNat_all]
    show n.low.toNat * 2 ^ 32 + 0 = (n.high.toNat * 2 ^ 32 + n.low.toNat) * 2 ^ 32 % 2 ^ 64
    omega
  · rw [toNat_all, toNat_all]
    show 0 * 2 ^ 32 + n.high.toNat = (n.high.toNat * 2 ^ 32 + n.low.toNat) / 2 ^ 32
    omega

theorem split_above_spec (n : Udwords) (sr : BitVec 32) (hgt : 32 < sr.toNat)
    (hlt : sr.toNat < 64) :
    ∃ qr, split_above n sr = .ok qr ∧ Split n sr qr := by
  have hback : (64 - sr).toNat = 64 - sr.toNat := toNat_sub_of_le (Nat.le_of_lt hlt)
  have hmore : (sr - 32).toNat = sr.toNat - 32 := toNat_sub_of_le (Nat.le_of_lt hgt)
  have hPR : 2 ^ (sr.toNat - 32) * 2 ^ (64 - sr.toNat) = 2 ^ 32 := by
    rw [← pow_add]
    congr 1
    omega
  have hdown : (n.low >>> (sr.toNat - 32)).toNat < 2 ^ (64 - sr.toNat) := by
    rw [toNat_ushiftRight_eq, Nat.div_lt_iff_lt_mul (Nat.two_pow_pos _), Nat.mul_comm, hPR]
    exact n.low.isLt
  have hup := toNat_shl_or (x := n.high) hdown (by omega)
  rw [toNat_ushiftRight_eq] at hup
  refine ⟨(⟨n.low <<< (64 - sr.toNat), n.high <<< (64 - sr.toNat) ||| n.low >>> (sr.toNat - 32)⟩,
    ⟨n.high >>> (sr.toNat - 32), 0⟩), ?_, ⟨?_, ?_⟩⟩
  · unfold split_above
    rw [hback, hmore, shl_ok _ (by omega), shl_ok _ (by omega), shr_ok _ (by omega),
      shr_ok _ (by omega)]
    rfl
  · rw [toNat_all, toNat_all, hup, BitVec.toNat_shiftLeft, Nat.shiftLeft_eq,
      halves_mul_near hPR]
    rw [← hup]
    exact BitVec.isLt _
  · have hwhole : 2 ^ sr.toNat = 2 ^ 32 * 2 ^ (sr.toNat - 32) := by
      rw [← pow_add]
      congr 1
      omega
    have hlow := n.low.isLt
    rw [toNat_all, toNat_all, toNat_ushiftRight_eq, hwhole, ← Nat.div_div_eq_div_mul]
    show 0 * 2 ^ 32 + n.high.toNat / 2 ^ (sr.toNat - 32) = _
    rw [show (n.high.toNat * 2 ^ 32 + n.low.toNat) / 2 ^ 32 = n.high.toNat by omega, Nat.zero_mul,
      Nat.zero_add]

/-! ## Section 3: The loop -/

/-- The loop's words are the registers of the division. -/
structure Sim (l : Loop) (s : ShiftSub.Regs) : Prop where
  r : l.r.all.toNat = s.r
  q : l.q.all.toNat = s.q
  c : l.carry.toNat = s.c

/-- A pair of halves is shifted by one place. -/
theorem all_shl_in (x : Udwords) {c : BitVec 32} (hc : c.toNat < 2) :
    (shl_in x c).all = x.all <<< 1 ||| c.setWidth 64 := by
  have hlow := x.low.isLt
  have hhigh := x.high.isLt
  have htop : (x.low >>> 31).toNat < 2 ^ 1 := by
    rw [toNat_ushiftRight_eq]
    omega
  have hwide : (c.setWidth 64).toNat = c.toNat := by
    rw [BitVec.toNat_setWidth]
    omega
  apply BitVec.eq_of_toNat_eq
  unfold shl_in
  rw [toNat_all, toNat_shl_or htop (by decide), toNat_shl_or hc (by decide),
    toNat_shl_or (by rw [hwide]; exact hc) (by decide), hwide, toNat_all, toNat_ushiftRight_eq]
  omega

theorem toNat_shl_one_or {x : BitVec 64} {c : BitVec 32} (hc : c.toNat < 2) :
    (x <<< 1 ||| c.setWidth 64).toNat = (2 * x.toNat + c.toNat) % 2 ^ 64 := by
  have hwide : (c.setWidth 64).toNat = c.toNat := by
    rw [BitVec.toNat_setWidth]
    omega
  rw [toNat_shl_or (by rw [hwide]; exact hc) (by decide), hwide]
  omega

/-- One turn of the loop. -/
theorem loop_turn_sim {d : Udwords} {l : Loop} {s : ShiftSub.Regs} (hc : s.c < 2) (h : Sim l s)
    (hup : ShiftSub.shifted 64 s < d.all.toNat + 2 ^ 63)
    (hlow : d.all.toNat ≤ ShiftSub.shifted 64 s + 2 ^ 63) :
    Sim (loop_turn d l) (ShiftSub.turn 64 d.all.toNat s) := by
  have hcarry : l.carry.toNat < 2 := by rw [h.c]; exact hc
  -- The words after the shift.
  have hr : (shl_in l.r (l.q.high >>> 31)).all.toNat = ShiftSub.shifted 64 s := by
    have htop : (l.q.high >>> 31).toNat < 2 := by
      have := l.q.high.isLt
      rw [toNat_ushiftRight_eq]
      omega
    have hql := l.q.low.isLt
    have hq := h.q
    rw [toNat_all] at hq
    rw [all_shl_in _ htop, toNat_shl_one_or htop, toNat_ushiftRight_eq, h.r, ShiftSub.shifted]
    congr 2
    omega
  have hq : (shl_in l.q l.carry).all.toNat = (2 * s.q + s.c) % 2 ^ 64 := by
    rw [all_shl_in _ hcarry, toNat_shl_one_or hcarry, h.q, h.c]
  -- The mask is all ones if the divisor fits.
  have hmask := sshiftRight_sign (d.all - (shl_in l.r (l.q.high >>> 31)).all - 1)
  rw [msb_sub_sub_one (by decide) (by rw [hr]; exact hup) (by rw [hr]; exact hlow), hr] at hmask
  refine ⟨?_, hq, ?_⟩
  · show (Udwords.all (Udwords.of_all _)).toNat = _
    rw [all_of_all, hmask]
    show _ = if d.all.toNat ≤ ShiftSub.shifted 64 s then _ else _
    by_cases hle : d.all.toNat ≤ ShiftSub.shifted 64 s
    · rw [decide_eq_true hle, if_pos rfl, if_pos hle, BitVec.and_allOnes,
        BitVec.toNat_sub_of_le (by rw [BitVec.le_def, hr]; exact hle), hr]
    · rw [decide_eq_false hle, if_neg Bool.false_ne_true, if_neg hle]
      simp [hr]
  · show (((_ : BitVec 64) &&& 1).setWidth 32).toNat =
      if d.all.toNat ≤ ShiftSub.shifted 64 s then 1 else 0
    rw [hmask]
    by_cases hle : d.all.toNat ≤ ShiftSub.shifted 64 s
    · rw [decide_eq_true hle, if_pos rfl, if_pos hle]
      rfl
    · rw [decide_eq_false hle, if_neg Bool.false_ne_true, if_neg hle]
      rfl

/-- The loop divides, wherever it may begin. -/
theorem shift_subtract_spec {n d q r : Udwords} {sr : BitVec 32} (rem : Bool) (hd : 0 < d.all.toNat)
    (hsr : sr.toNat ≤ 64) (hsplit : Split n sr (q, r))
    (hstart : n.all.toNat / 2 ^ sr.toNat < d.all.toNat)
    (hfit : ShiftSub.Fits 64 n.all.toNat d.all.toNat sr.toNat) :
    shift_subtract d q r sr rem = (n.all / d.all, store rem (n.all % d.all)) := by
  have hrun := ShiftSub.run_start (by decide) hd hsr hstart hfit
  have hsim : ∀ i ≤ sr.toNat, Sim ((loop_turn d)^[i] ⟨q, r, 0⟩)
      ((ShiftSub.turn 64 d.all.toNat)^[i] (ShiftSub.start 64 n.all.toNat sr.toNat)) := by
    intro i
    induction i with
    | zero => exact fun _ => ⟨hsplit.r, hsplit.q, rfl⟩
    | succ i ih =>
      intro hi
      have hat := hrun i (by omega)
      rw [show sr.toNat - i = sr.toNat - (i + 1) + 1 by omega] at hat
      obtain ⟨-, hup, hlow⟩ := ShiftSub.shifted_fits (by decide) hd hsr hstart (by omega) hfit hat
      have hc : ((ShiftSub.turn 64 d.all.toNat)^[i] (ShiftSub.start 64 n.all.toNat sr.toNat)).c <
          2 := by
        rw [hat.c]
        exact Nat.mod_lt _ (by decide)
      rw [Function.iterate_succ_apply', Function.iterate_succ_apply']
      exact loop_turn_sim hc (ih (by omega)) hup hlow
  have hend := hsim sr.toNat (Nat.le_refl _)
  have hat := hrun sr.toNat (Nat.le_refl _)
  rw [Nat.sub_self] at hat
  obtain ⟨hrem, hquot⟩ := ShiftSub.finish hat
  have hcarry : ((loop_turn d)^[sr.toNat] ⟨q, r, 0⟩).carry.toNat < 2 := by
    rw [hend.c, hat.c]
    exact Nat.mod_lt _ (by decide)
  apply result_eq
  · rw [toNat_shl_one_or hcarry, hend.q, hend.c, hquot, Nat.mod_eq_of_lt]
    exact Nat.lt_of_le_of_lt (Nat.div_le_self _ _) n.all.isLt
  · intro _
    rw [hend.r, hrem]

/-! ## Section 4: The place where the loop begins -/

/-- A word between two powers of two. -/
theorem clz_bounds {x : BitVec 32} (hx : x ≠ 0) :
    x.clz.toNat < 32 ∧ 2 ^ (31 - x.clz.toNat) ≤ x.toNat ∧ x.toNat < 2 ^ (32 - x.clz.toNat) := by
  have hlo := BitVec.two_pow_sub_clz_le_toNat_of_ne_zero (by decide) hx
  have hhi := BitVec.toNat_lt_two_pow_sub_clz (x := x)
  refine ⟨?_, hlo, hhi⟩
  by_contra hge
  rw [show 32 - x.clz.toNat = 0 by omega] at hhi
  have hpos : 0 < x.toNat := Nat.lt_of_lt_of_le (Nat.two_pow_pos _) hlo
  omega

theorem clz_bounds_high {x : Udwords} (hx : x.high ≠ 0) :
    2 ^ (63 - x.high.clz.toNat) ≤ x.all.toNat ∧ x.all.toNat < 2 ^ (64 - x.high.clz.toNat) := by
  obtain ⟨hlt, hlo, hhi⟩ := clz_bounds hx
  have hlow := x.low.isLt
  rw [toNat_all, show 63 - x.high.clz.toNat = (31 - x.high.clz.toNat) + 32 by omega,
    show 64 - x.high.clz.toNat = (32 - x.high.clz.toNat) + 32 by omega, pow_add, pow_add]
  exact ⟨Nat.le_trans (Nat.mul_le_mul_right _ hlo) (Nat.le_add_right _ _), by omega⟩

/-- Of a word that is no power of two at least two bits count. -/
theorem clz_le_of_not_pow {x : BitVec 32} (hx : x ≠ 0) (hpow : ¬ x &&& (x - 1) = 0) :
    x.clz.toNat ≤ 30 := by
  obtain ⟨hlt, hlo, hhi⟩ := clz_bounds hx
  by_contra hgt
  obtain hone : x.clz.toNat = 31 := by omega
  rw [hone] at hlo hhi
  have hx1 : x = 1 := BitVec.eq_of_toNat_eq (show x.toNat = 1 by omega)
  rw [hx1] at hpow
  exact hpow rfl

/-- The dividend is the smaller operand if it has more leading zeros. -/
theorem small_dividend {n d : BitVec 64} {i j : Nat} (hn : n.toNat < 2 ^ (64 - i))
    (hd : 2 ^ (63 - j) ≤ d.toNat)
    (hij : j < i) (rem : Bool) : ((0, store rem n) : Result) = (n / d, store rem (n % d)) := by
  have hle : 2 ^ (64 - i) ≤ 2 ^ (63 - j) := Nat.pow_le_pow_right (by decide) (by omega)
  have hlt : n.toNat < d.toNat := by omega
  exact result_eq (Nat.div_eq_of_lt hlt).symm fun _ => (Nat.mod_eq_of_lt hlt).symm

/-- Else their leading bits meet after `sr` places. -/
theorem start_lt {n d i j sr : Nat} (hn : n < 2 ^ (64 - i)) (hd : 2 ^ j ≤ d)
    (hsr : 64 - i ≤ sr + j) : n / 2 ^ sr < d := by
  have hle : 2 ^ (64 - i) ≤ 2 ^ sr * 2 ^ j := by
    rw [← pow_add]
    exact Nat.pow_le_pow_right (by decide) hsr
  have hmul : 2 ^ sr * 2 ^ j ≤ 2 ^ sr * d := Nat.mul_le_mul_left _ hd
  exact Nat.div_lt_of_lt_mul (by omega)

section clz
variable {n d : Udwords}

/-- The difference of two counts. -/
theorem clz_sub {x y : BitVec 32} (hx : x ≠ 0) (hy : y ≠ 0) :
    (x.clz - y.clz).toNat =
      if y.clz.toNat ≤ x.clz.toNat then x.clz.toNat - y.clz.toNat
      else 2 ^ 32 + x.clz.toNat - y.clz.toNat := by
  obtain ⟨hxlt, -⟩ := clz_bounds hx
  obtain ⟨hylt, -⟩ := clz_bounds hy
  rw [BitVec.toNat_sub]
  split <;> omega

/-- A divisor of all 64 bits leaves one turn. -/
theorem fits_of_clz {n d : Udwords} {i j : Nat} {sr : BitVec 32} (hn : 2 ^ (63 - i) ≤ n.all.toNat)
    (hd : d.all.toNat < 2 ^ (64 - j)) (hsr : sr.toNat = j - i + 1) (hij : i ≤ j) :
    ShiftSub.Fits 64 n.all.toNat d.all.toNat sr.toNat := by
  by_cases hzero : j = 0
  · refine .inr ⟨by omega, d.all.isLt, ?_, n.all.isLt⟩
    rwa [show i = 0 by omega] at hn
  · refine .inl (Nat.le_of_lt (Nat.lt_of_lt_of_le hd ?_))
    exact Nat.pow_le_pow_right (by decide) (by omega)

theorem divide_by_both_spec (hn : n.high ≠ 0) (hd : d.high ≠ 0) (rem : Bool) :
    divide_by_both n d rem = .ok (n.all / d.all, store rem (n.all % d.all)) := by
  obtain ⟨hnlo, hnhi⟩ := clz_bounds_high hn
  obtain ⟨hdlo, hdhi⟩ := clz_bounds_high hd
  obtain ⟨hcn, -⟩ := clz_bounds hn
  obtain ⟨hcd, -⟩ := clz_bounds hd
  have hsub := clz_sub hd hn
  have hpos : 0 < d.all.toNat := Nat.lt_of_lt_of_le (Nat.two_pow_pos _) hdlo
  have hbig : (31 < d.high.clz - n.high.clz) ↔ 31 < (d.high.clz - n.high.clz).toNat := BitVec.lt_def
  unfold divide_by_both
  rw [clz_ok hd, clz_ok hn, ok_bind, ok_bind]
  by_cases hle : n.high.clz.toNat ≤ d.high.clz.toNat
  · -- The loop starts where the leading bits meet.
    rw [if_pos hle] at hsub
    rw [if_neg (by rw [hbig, hsub]; omega)]
    have hsr : (d.high.clz - n.high.clz + 1).toNat = d.high.clz.toNat - n.high.clz.toNat + 1 := by
      rw [BitVec.toNat_add, hsub]
      exact Nat.mod_eq_of_lt (by simp; omega)
    have hstart : n.all.toNat / 2 ^ (d.high.clz - n.high.clz + 1).toNat < d.all.toNat :=
      start_lt hnhi hdlo (by omega)
    have hfit : ShiftSub.Fits 64 n.all.toNat d.all.toNat (d.high.clz - n.high.clz + 1).toNat :=
      fits_of_clz hnlo hdhi hsr hle
    by_cases hmid : d.high.clz - n.high.clz + 1 = 32
    · rw [if_pos hmid]
      exact congrArg _
        (shift_subtract_spec rem hpos (by omega) (split_middle_spec n hmid) hstart hfit)
    · have hne : (d.high.clz - n.high.clz + 1).toNat ≠ 32 := fun h => hmid (BitVec.eq_of_toNat_eq h)
      obtain ⟨qr, hqr, hsplit⟩ :=
        split_below_spec n (d.high.clz - n.high.clz + 1) (by omega) (by omega)
      rw [if_neg hmid, hqr]
      exact congrArg _ (shift_subtract_spec rem hpos (by omega) hsplit hstart hfit)
  · rw [if_neg hle] at hsub
    rw [if_pos (by rw [hbig, hsub]; omega)]
    exact congrArg _ (small_dividend hnhi hdlo (by omega) rem)

/-- `split_below` or one of the others, as the place asks for. -/
theorem split_spec (n : Udwords) (sr : BitVec 32) (hpos : 0 < sr.toNat) (hlt : sr.toNat < 64) :
    ∃ qr, split n sr = .ok qr ∧ Split n sr qr := by
  unfold split
  by_cases hmid : sr = 32
  · exact ⟨split_middle n, if_pos hmid, split_middle_spec n hmid⟩
  · have hne : sr.toNat ≠ 32 := fun h => hmid (BitVec.eq_of_toNat_eq h)
    by_cases hbelow : sr < 32
    · rw [if_neg hmid, if_pos hbelow]
      exact split_below_spec n sr hpos (BitVec.lt_def.mp hbelow)
    · have hge : ¬ sr.toNat < 32 := fun h => hbelow (BitVec.lt_def.mpr h)
      rw [if_neg hmid, if_neg hbelow]
      exact split_above_spec n sr (by omega) hlt

/-- A mask of low bits takes a remainder. -/
theorem toNat_and_pred {x y : BitVec 32} (hy : y ≠ 0) (hpow : y &&& (y - 1) = 0) :
    (x &&& (y - 1)).toNat = x.toNat % y.toNat := by
  have htwo := BitCount.eq_two_pow_ctz hy hpow
  have hone : (y - 1).toNat = y.toNat - 1 := by
    apply toNat_sub_of_le
    have := Nat.two_pow_pos y.ctz.toNat
    show 1 ≤ y.toNat
    omega
  rw [BitVec.toNat_and, hone, htwo, Nat.and_two_pow_sub_one_eq_mod]

theorem ctz_lt {x : BitVec 32} (hx : x ≠ 0) : x.ctz.toNat < 32 := by
  have hlt := BitVec.lt_def.mp (BitVec.ctz_lt_iff_ne_zero.mpr hx)
  exact hlt

theorem divide_by_low_spec (hn : n.high ≠ 0) (hd : d.low ≠ 0) (hhigh : d.high = 0) (rem : Bool) :
    divide_by_low n d rem = .ok (n.all / d.all, store rem (n.all % d.all)) := by
  have hdall : d.all.toNat = d.low.toNat := by
    rw [toNat_all, hhigh]
    show 0 * 2 ^ 32 + d.low.toNat = d.low.toNat
    omega
  unfold divide_by_low
  by_cases hpow : d.low &&& (d.low - 1) = 0
  · -- A power of two: the quotient is a shift.
    have htwo := BitCount.eq_two_pow_ctz hd hpow
    have hrem : ((n.low &&& (d.low - 1)).setWidth 64).toNat = n.all.toNat % d.all.toNat := by
      have hdvd : d.low.toNat ∣ n.high.toNat * 2 ^ 32 := by
        rw [htwo]
        exact Dvd.dvd.mul_left (pow_dvd_pow 2 (Nat.le_of_lt (ctz_lt hd))) _
      rw [BitVec.toNat_setWidth, toNat_and_pred hd hpow, hdall, toNat_all,
        Nat.add_mod, Nat.mod_eq_zero_of_dvd hdvd, Nat.zero_add, Nat.mod_mod]
      have := Nat.mod_le n.low.toNat d.low.toNat
      have := n.low.isLt
      omega
    rw [if_pos hpow]
    by_cases hone : d.low = 1
    · rw [if_pos hone]
      refine congrArg _ (result_eq ?_ fun _ => hrem)
      rw [hdall, hone]
      exact (Nat.div_one _).symm
    · have hpos : 0 < d.low.ctz.toNat := by
        rcases Nat.eq_zero_or_pos d.low.ctz.toNat with hzero | hpos
        · rw [hzero] at htwo
          exact absurd (BitVec.eq_of_toNat_eq htwo) hone
        · exact hpos
      obtain ⟨q, hq, hqval⟩ := shift_right_spec n hpos (ctz_lt hd)
      rw [if_neg hone, ctz_ok hd, ok_bind, hq]
      refine congrArg _ (result_eq ?_ fun _ => hrem)
      rw [hqval, hdall, htwo]
  · -- The loop.
    obtain ⟨hcn, -⟩ := clz_bounds hn
    obtain ⟨hcd, hdlo, hdhi⟩ := clz_bounds hd
    obtain ⟨-, hnhi⟩ := clz_bounds_high hn
    have hcd' := clz_le_of_not_pow hd hpow
    have hsr : (1 + 32 + d.low.clz - n.high.clz).toNat = 33 +
        d.low.clz.toNat - n.high.clz.toNat := by
      rw [toNat_sub_of_le]
      · rw [BitVec.toNat_add]
        show (33 + d.low.clz.toNat) % 2 ^ 32 - _ = _
        omega
      · rw [BitVec.toNat_add]
        show _ ≤ (33 + d.low.clz.toNat) % 2 ^ 32
        omega
    obtain ⟨qr, hqr, hsplit⟩ := split_spec n (1 + 32 + d.low.clz - n.high.clz) (by omega) (by omega)
    have hpos : 0 < d.all.toNat := by
      rw [hdall]
      exact Nat.lt_of_lt_of_le (Nat.two_pow_pos _) hdlo
    have hstart : n.all.toNat / 2 ^ (1 + 32 + d.low.clz - n.high.clz).toNat < d.all.toNat := by
      rw [hdall]
      exact start_lt hnhi hdlo (by omega)
    have hfit : ShiftSub.Fits 64 n.all.toNat d.all.toNat
        (1 + 32 + d.low.clz - n.high.clz).toNat := by
      have hlt := d.low.isLt
      exact .inl (by rw [hdall]; omega)
    rw [if_neg hpow, clz_ok hd, clz_ok hn, ok_bind, ok_bind]
    show (split n (1 + 32 + d.low.clz - n.high.clz) >>= _) = _
    rw [hqr]
    exact congrArg _ (shift_subtract_spec rem hpos (by omega) hsplit hstart hfit)

/-- Both halves of the quotient's operands can be divided by `2 ^ 32`. -/
theorem divide_high_halves (nh dh : Nat) {nl : Nat} (hnl : nl < 2 ^ 32) :
    (nh * 2 ^ 32 + nl) / (dh * 2 ^ 32) = nh / dh ∧
      (nh * 2 ^ 32 + nl) % (dh * 2 ^ 32) = nh % dh * 2 ^ 32 + nl := by
  have hhigh : (nh * 2 ^ 32 + nl) / 2 ^ 32 = nh := by omega
  refine ⟨?_, ?_⟩
  · rw [Nat.mul_comm dh, ← Nat.div_div_eq_div_mul, hhigh]
  · rw [Nat.mul_comm dh, Nat.mod_mul, hhigh]
    omega

theorem divide_by_high_spec (hn : n.high ≠ 0) (hd : d.high ≠ 0) (hlow : d.low = 0) (rem : Bool) :
    divide_by_high n d rem = .ok (n.all / d.all, store rem (n.all % d.all)) := by
  have hdall : d.all.toNat = d.high.toNat * 2 ^ 32 := by
    rw [toNat_all, hlow]
    exact Nat.add_zero _
  obtain ⟨hquot, hrem⟩ := divide_high_halves n.high.toNat d.high.toNat n.low.isLt
  rw [← toNat_all, ← hdall] at hquot hrem
  have hwide : ∀ x : BitVec 32, (x.setWidth 64).toNat = x.toNat := by
    intro x
    have := x.isLt
    rw [BitVec.toNat_setWidth]
    omega
  unfold divide_by_high
  by_cases hzero : n.low = 0
  · rw [if_pos hzero, udiv, if_neg hd]
    cases rem with
    | false =>
      exact congrArg _ (result_eq (by rw [hwide, BitVec.toNat_udiv, hquot]) (fun h => by cases h))
    | true =>
      rw [if_pos rfl, umod, if_neg hd]
      refine congrArg _ (result_eq (by rw [hwide, BitVec.toNat_udiv, hquot]) fun _ => ?_)
      rw [toNat_all, hrem, hzero]
      rfl
  · by_cases hpow : d.high &&& (d.high - 1) = 0
    · have htwo := BitCount.eq_two_pow_ctz hd hpow
      rw [if_neg hzero, if_pos hpow, ctz_ok hd, ok_bind, shr_ok _ (ctz_lt hd), ok_bind]
      refine congrArg _ (result_eq ?_ fun _ => ?_)
      · rw [hwide, toNat_ushiftRight_eq, hquot, htwo]
      · rw [toNat_all, toNat_and_pred hd hpow, hrem]
    · obtain ⟨hnlo, hnhi⟩ := clz_bounds_high hn
      obtain ⟨hdlo, hdhi⟩ := clz_bounds_high hd
      obtain ⟨hcn, -⟩ := clz_bounds hn
      have hcd := clz_le_of_not_pow hd hpow
      have hsub := clz_sub hd hn
      have hpos : 0 < d.all.toNat := Nat.lt_of_lt_of_le (Nat.two_pow_pos _) hdlo
      have hbig : (30 < d.high.clz - n.high.clz) ↔ 30 < (d.high.clz - n.high.clz).toNat :=
        BitVec.lt_def
      rw [if_neg hzero, if_neg hpow, clz_ok hd, clz_ok hn, ok_bind, ok_bind]
      by_cases hle : n.high.clz.toNat ≤ d.high.clz.toNat
      · rw [if_pos hle] at hsub
        rw [if_neg (by rw [hbig, hsub]; omega)]
        have hsr : (d.high.clz - n.high.clz + 1).toNat = d.high.clz.toNat - n.high.clz.toNat +
            1 := by
          rw [BitVec.toNat_add, hsub]
          exact Nat.mod_eq_of_lt (by simp; omega)
        obtain ⟨qr, hqr, hsplit⟩ :=
          split_below_spec n (d.high.clz - n.high.clz + 1) (by omega) (by omega)
        rw [hqr]
        exact congrArg _
          (shift_subtract_spec rem hpos (by omega) hsplit (start_lt hnhi hdlo (by omega))
          (fits_of_clz hnlo hdhi (by omega) hle))
      · rw [if_neg hle] at hsub
        rw [if_pos (by rw [hbig, hsub]; omega)]
        exact congrArg _ (small_dividend hnhi hdlo (by omega) rem)

end clz

/-! ## Section 5: Unsigned division -/

theorem divide_words_spec (x y : BitVec 32) (rem : Bool) :
    divide_words x y rem =
      if y = 0 then .error .division
      else .ok ((x / y).setWidth 64, store rem ((x % y).setWidth 64)) := by
  unfold divide_words udiv umod
  by_cases hy : y = 0
  · rw [if_pos hy, if_pos hy, if_pos hy]
    cases rem <;> rfl
  · rw [if_neg hy, if_neg hy, if_neg hy]
    cases rem <;> rfl

/-- The division goes wrong for the divisor zero only. -/
theorem udivmoddi4_eq (a b : BitVec 64) (rem : Bool) :
    udivmoddi4 a b rem = if b = 0 then .error .division else .ok (a / b, store rem (a % b)) := by
  have ha := toNat_of_all a
  have hb := toNat_of_all b
  have hzero : b = 0 ↔ (Udwords.of_all b).high = 0 ∧ (Udwords.of_all b).low = 0 := by
    refine ⟨fun h => by subst h; exact ⟨rfl, rfl⟩, fun h => BitVec.eq_of_toNat_eq ?_⟩
    rw [hb, h.1, h.2]
    rfl
  have hwide : ∀ x : BitVec 32, (x.setWidth 64).toNat = x.toNat := by
    intro x
    have := x.isLt
    rw [BitVec.toNat_setWidth]
    omega
  unfold udivmoddi4
  show (if (Udwords.of_all a).high = 0 then _ else _) = _
  by_cases hah : (Udwords.of_all a).high = 0
  · rw [if_pos hah]
    have haval : a.toNat = (Udwords.of_all a).low.toNat := by
      rw [ha, hah]
      show 0 * 2 ^ 32 + _ = _
      omega
    by_cases hbh : (Udwords.of_all b).high = 0
    · rw [if_pos hbh, divide_words_spec]
      have hbval : b.toNat = (Udwords.of_all b).low.toNat := by
        rw [hb, hbh]
        show 0 * 2 ^ 32 + _ = _
        omega
      by_cases hbl : (Udwords.of_all b).low = 0
      · rw [if_pos hbl, if_pos (hzero.mpr ⟨hbh, hbl⟩)]
      · rw [if_neg hbl, if_neg fun h => hbl (hzero.mp h).2]
        refine congrArg _ (result_eq ?_ fun _ => ?_)
        · rw [hwide, BitVec.toNat_udiv, haval, hbval]
        · rw [hwide, BitVec.toNat_umod, haval, hbval]
    · -- The divisor is the larger one.
      rw [if_neg hbh, if_neg fun h => hbh (hzero.mp h).1]
      have hlt : a.toNat < b.toNat := by
        have hpos : 0 < (Udwords.of_all b).high.toNat := Nat.pos_of_ne_zero fun h =>
          hbh (BitVec.eq_of_toNat_eq h)
        have := (Udwords.of_all a).low.isLt
        omega
      refine congrArg _ (result_eq (Nat.div_eq_of_lt hlt).symm fun _ => ?_)
      rw [hwide, Nat.mod_eq_of_lt hlt, haval]
  · rw [if_neg hah]
    by_cases hbl : (Udwords.of_all b).low = 0
    · rw [if_pos hbl]
      by_cases hbh : (Udwords.of_all b).high = 0
      · rw [if_pos hbh, divide_words_spec, if_pos hbl, if_pos (hzero.mpr ⟨hbh, hbl⟩)]
      · rw [if_neg hbh, if_neg fun h => hbh (hzero.mp h).1, divide_by_high_spec hah hbh hbl,
          all_of_all,
          all_of_all]
    · rw [if_neg hbl, if_neg fun h => hbl (hzero.mp h).2]
      by_cases hbh : (Udwords.of_all b).high = 0
      · rw [if_pos hbh, divide_by_low_spec hah hbl hbh, all_of_all, all_of_all]
      · rw [if_neg hbh, divide_by_both_spec hah hbh, all_of_all, all_of_all]

theorem unsigned_division (a b : BitVec 64) (rem : Bool) :
    (udivmoddi4 a b rem = if b = 0 then .error .division else .ok (a / b, store rem (a % b))) ∧
      (udivdi3 a b = if b = 0 then .error .division else .ok (a / b)) ∧
      (umoddi3 a b = if b = 0 then .error .division else .ok (a % b)) := by
  refine ⟨udivmoddi4_eq a b rem, ?_, ?_⟩
  · unfold udivdi3
    rw [udivmoddi4_eq]
    by_cases hb : b = 0
    · rw [if_pos hb, if_pos hb, error_bind]
    · rw [if_neg hb, if_neg hb, ok_bind]
      rfl
  · unfold umoddi3
    rw [udivmoddi4_eq]
    by_cases hb : b = 0
    · rw [if_pos hb, if_pos hb, error_bind]
    · rw [if_neg hb, if_neg hb, ok_bind]
      rfl

end Am.Klib.Int64
