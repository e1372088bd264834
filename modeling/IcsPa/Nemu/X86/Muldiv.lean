import IcsPa.Nemu.X86.ModRM
import Mathlib.Algebra.Order.Ring.Abs

/-! # Multiplication and division on x86

    The RTL of `exec_mul`, `exec_imul1`, `exec_div` and `exec_idiv` is run on
    an operand wherever it is.  Parts of registers and operands of one or two
    bytes are loaded with zeros in front, also for the signed instructions, so
    the results below are numbers of the words in the registers. -/

open CCall Bytes I386

namespace Nemu.X86

variable {D : Type}

/-! ## Section 1: The operand -/

/-- `id_dest` points at the operand `x` of width `w`: at a register only when
    the width is 4. -/
structure Loaded (t : State D) (w : Nat) (p : Ptr) (x : BitVec 32) : Prop where
  width : (t.op .dest).width = w
  preg  : (t.op .dest).preg = some p
  val   : t.get p = x
  place : p = .val .dest ∨ w = 4 ∧ ∃ r, p = .gpr r
  bound : x.toNat < 256 ^ w

theorem Loaded.small {t : State D} {w : Nat} {p : Ptr} {x : BitVec 32} (h : Loaded t w p x)
    (hw : w ≠ 4) : p = .val .dest := by
  rcases h.place with hp | ⟨h, _⟩
  · exact hp
  · exact absurd h hw

/-- The registers after a helper. -/
def gprs (r : Except Fault (State D)) : Except Fault Gprs := r.map State.gpr

theorem Loaded.not_tmp {t : State D} {w : Nat} {p : Ptr} {x : BitVec 32} (h : Loaded t w p x)
    (i : Fin 4) : p ≠ .tmp i := by
  intro hp
  rcases h.place with h | ⟨_, r, h⟩ <;> cases hp.symm.trans h

/-! ## Section 2: What the helpers compute -/

theorem exec_mul_byte {t : State D} {p : Ptr} {x : BitVec 32} (h : Loaded t 1 p x) :
    gprs (exec_mul t) = .ok (Gprs.set_part t.gpr 2 EAX (x * Gprs.part t.gpr 1 EAX)) := by
  simp only [exec_mul, h.width, rtl_lr_tmp _ _ (.inl rfl), ok_bind, ddest, op_put_tmp, h.preg,
    deref, rtl_mul_lo, rtl_sr_eq _ _ (.inr (.inl rfl)), gpr_put_tmp, get_put_tmp,
    get_put_tmp_of h.not_tmp, h.val, c_mul_lo]
  rfl

theorem exec_mul_word {t : State D} {p : Ptr} {x : BitVec 32} (h : Loaded t 2 p x) :
    gprs (exec_mul t) = .ok ((Gprs.set_part t.gpr 2 EAX (x * Gprs.part t.gpr 2 EAX)).set_part 2 EDX
      ((x * Gprs.part t.gpr 2 EAX) >>> 16)) := by
  simp only [exec_mul, h.width, rtl_lr_tmp _ _ (.inr (.inl rfl)), ok_bind, ddest, op_put_tmp,
    h.preg, deref, rtl_mul_lo, rtl_sr_eq _ _ (.inr (.inl rfl)), gpr_put_tmp, get_put_tmp,
    get_put_tmp_of h.not_tmp, h.val, c_mul_lo, rtl_shri, c_shr, gpr_with_gpr, get_with_gpr_tmp]
  rfl

theorem exec_mul_long {t : State D} {p : Ptr} {x : BitVec 32} (h : Loaded t 4 p x) :
    gprs (exec_mul t) = .ok ((Gprs.set_part t.gpr 4 EDX (c_mul_hi x (t.gpr EAX))).set_part 4 EAX
      (x * t.gpr EAX)) := by
  simp only [exec_mul, h.width, rtl_lr_tmp _ _ (.inr (.inr rfl)), part_four, ok_bind, ddest,
    op_put_tmp, h.preg, deref, rtl_mul_lo, rtl_mul_hi, rtl_sr_eq _ _ (.inr (.inr rfl)), gpr_put_tmp,
    get_put_tmp, get_put_tmp_of h.not_tmp, h.val, c_mul_lo, gpr_with_gpr, get_with_gpr_tmp]
  rfl

/-- With zeros in front of both factors. -/
theorem exec_imul1_small {t : State D} {w : Nat} {p : Ptr} {x : BitVec 32} (h : Loaded t w p x)
    (hw : w = 1 ∨ w = 2) : gprs (exec_imul1 t) = gprs (exec_mul t) := by
  rcases hw with rfl | rfl
  · rw [exec_mul_byte h]
    simp only [exec_imul1, h.width, rtl_lr_tmp _ _ (.inl rfl), ok_bind, ddest, h.preg,
      deref, rtl_imul_lo, rtl_sr_eq _ _ (.inr (.inl rfl)), gpr_put_tmp, get_put_tmp,
      get_put_tmp_of h.not_tmp, h.val, c_imul_lo]
    rfl
  · rw [exec_mul_word h]
    simp only [exec_imul1, h.width, rtl_lr_tmp _ _ (.inr (.inl rfl)), ok_bind, ddest,
      h.preg, deref, rtl_imul_lo, rtl_sr_eq _ _ (.inr (.inl rfl)), gpr_put_tmp, get_put_tmp,
      get_put_tmp_of h.not_tmp, h.val, c_imul_lo, rtl_shri, c_shr, gpr_with_gpr, get_with_gpr_tmp]
    rfl

/-- `edx` is written before the factors are read again. -/
theorem rtl_imul_pair {q : Ptr} (hq : q ≠ .gpr R_EDX) (s : State D) :
    (rtl_imul_lo (.gpr R_EAX) q (.gpr R_EAX) (rtl_imul_hi (.gpr R_EDX) q (.gpr R_EAX) s)).gpr =
      (Gprs.set_part s.gpr 4 EDX (c_imul_hi (s.get q) (s.gpr EAX))).set_part 4 EAX
        (s.get q * s.gpr EAX) := by
  have hax : (s.put (.gpr R_EDX) (c_imul_hi (s.get q) (s.gpr EAX))).get (.gpr R_EAX) = s.gpr EAX :=
    get_put_gpr_ne (by decide) _ _
  show ((s.put (.gpr R_EDX) (c_imul_hi (s.get q) (s.gpr EAX))).put (.gpr R_EAX)
    ((s.put (.gpr R_EDX) (c_imul_hi (s.get q) (s.gpr EAX))).get q *
      (s.put (.gpr R_EDX) (c_imul_hi (s.get q) (s.gpr EAX))).get (.gpr R_EAX))).gpr = _
  rw [hax, get_put_gpr_ne hq, put_gpr, put_gpr]
  rfl

/-- The operand is copied when it is in `edx`. -/
theorem exec_imul1_long {t : State D} {p : Ptr} {x : BitVec 32} (h : Loaded t 4 p x) :
    gprs (exec_imul1 t) = .ok ((Gprs.set_part t.gpr 4 EDX (c_imul_hi x (t.gpr EAX))).set_part 4 EAX
      (x * t.gpr EAX)) := by
  have hd : ddest t = .ok p := by rw [ddest, h.preg, deref]
  rw [exec_imul1, hd, h.width, ok_bind]
  by_cases hp : p = .gpr R_EDX
  · simp only [if_pos hp, rtl_mv_tmp (h.not_tmp 0)]
    show Except.ok (State.gpr _) = _
    rw [rtl_imul_pair (by decide), get_put_tmp, h.val]
    rfl
  · simp only [if_neg hp]
    show Except.ok (State.gpr _) = _
    rw [rtl_imul_pair hp, h.val]

theorem get_s0_put_s1 (s : State D) (v : BitVec 32) : (s.put s1 v).get s0 = s.get s0 := rfl

theorem exec_div_byte {t : State D} {p : Ptr} {x : BitVec 32} (h : Loaded t 1 p x) (hx : x ≠ 0) :
    gprs (exec_div t) = .ok ((Gprs.set_part t.gpr 1 EAX (Gprs.part t.gpr 2 EAX / x)).set_part 1 AH
      (Gprs.part t.gpr 2 EAX % x)) := by
  obtain rfl := h.small (by decide)
  have hcheck : (x != 0) = true := bne_iff_ne.mpr hx
  simp only [exec_div, ddest, h.width, h.preg, deref, ok_bind, rtl_lr_tmp _ _ (.inr (.inl rfl)),
    rtl_div_q, rtl_div_r, get_put_tmp, get_put_tmp_val, h.val, hcheck, cassert_true,
    rtl_sr_eq _ _ (.inl rfl), gpr_put_tmp, gpr_with_gpr, get_with_gpr_tmp, get_with_gpr_val,
    get_s0_put_s1, pure_eq_ok]
  rfl

/-- `DX:AX`. -/
def dx_ax (g : Gprs) : BitVec 32 := g.part 2 EAX ||| g.part 2 EDX <<< 16

theorem exec_div_word {t : State D} {p : Ptr} {x : BitVec 32} (h : Loaded t 2 p x) (hx : x ≠ 0) :
    gprs (exec_div t) = .ok ((Gprs.set_part t.gpr 2 EAX (dx_ax t.gpr / x)).set_part 2 EDX
      (dx_ax t.gpr % x)) := by
  obtain rfl := h.small (by decide)
  have hcheck : (x != 0) = true := bne_iff_ne.mpr hx
  simp only [exec_div, ddest, h.width, h.preg, deref, ok_bind, rtl_lr_tmp _ _ (.inr (.inl rfl)),
    rtl_shli, c_shl, rtl_or,
    rtl_div_q, rtl_div_r, get_put_tmp, get_put_tmp_val, h.val, hcheck, cassert_true,
    rtl_sr_eq _ _ (.inr (.inl rfl)), gpr_put_tmp, gpr_with_gpr, get_with_gpr_tmp, get_with_gpr_val,
    get_s0_put_s1, pure_eq_ok]
  rfl

theorem exec_idiv_byte {t : State D} {p : Ptr} {x : BitVec 32} (h : Loaded t 1 p x)
    (hx : signed_division (Gprs.part t.gpr 2 EAX) x = true) :
    gprs (exec_idiv t) = .ok ((Gprs.set_part t.gpr 1 EAX
      ((Gprs.part t.gpr 2 EAX).sdiv x)).set_part 1 AH ((Gprs.part t.gpr 2 EAX).srem x)) := by
  obtain rfl := h.small (by decide)
  have hcheck : signed_division (Gprs.part t.gpr 2 R_AX) x = true := hx
  simp only [exec_idiv, ddest, h.width, h.preg, deref, ok_bind, rtl_lr_tmp _ _ (.inr (.inl rfl)),
    rtl_idiv_q, rtl_idiv_r, get_put_tmp, get_put_tmp_val, h.val, hcheck, cassert_true,
    rtl_sr_eq _ _ (.inl rfl), gpr_put_tmp, gpr_with_gpr, get_with_gpr_tmp, get_with_gpr_val,
    get_s0_put_s1, pure_eq_ok]
  rfl

theorem exec_idiv_word {t : State D} {p : Ptr} {x : BitVec 32} (h : Loaded t 2 p x)
    (hx : signed_division (dx_ax t.gpr) x = true) :
    gprs (exec_idiv t) = .ok ((Gprs.set_part t.gpr 2 EAX ((dx_ax t.gpr).sdiv x)).set_part 2 EDX
      ((dx_ax t.gpr).srem x)) := by
  obtain rfl := h.small (by decide)
  have hdividend : Gprs.part t.gpr 2 R_AX ||| Gprs.part t.gpr 2 R_DX <<< (16 &&& 0x1f : BitVec 32) =
    dx_ax t.gpr := rfl
  simp only [exec_idiv, ddest, h.width, h.preg, deref, ok_bind, rtl_lr_tmp _ _ (.inr (.inl rfl)),
    rtl_shli, c_shl, rtl_or, gpr_put_tmp, get_put_tmp, get_put_tmp_val, get_s0_put_s1, hdividend,
    rtl_idiv_q, rtl_idiv_r, h.val, hx, cassert_true, rtl_sr_eq _ _ (.inr (.inl rfl)),
    gpr_with_gpr, get_with_gpr_tmp, get_with_gpr_val, pure_eq_ok]
  rfl

/-- The divisor is read from the copy of `eax` when it is in `eax`. -/
theorem divisor_pointer {t : State D} {p : Ptr} {x : BitVec 32} (h : Loaded t 4 p x) :
    ∃ q, (if p = .gpr R_EAX then s0 else p) = q ∧ q ≠ .gpr R_EAX ∧
      (t.put s0 (t.gpr EAX)).get q = x := by
  by_cases hp : p = .gpr R_EAX
  · refine ⟨s0, if_pos hp, by decide, ?_⟩
    rw [get_put_tmp, ← h.val, hp]
    rfl
  · refine ⟨p, if_neg hp, hp, ?_⟩
    rw [get_put_tmp_of h.not_tmp, h.val]

/-- `EDX:EAX`. -/
def edx_eax (g : Gprs) : BitVec 64 := (g EDX).setWidth 64 <<< 32 ||| (g EAX).setWidth 64

theorem dividend64_eq (t : State D) :
    dividend64 (.gpr R_EDX) s0 (t.put s0 (t.gpr EAX)) = edx_eax t.gpr := rfl

/-- The first division, which writes `eax`, changes nothing that the second
    one reads. -/
theorem dividend64_put (s : State D) (v : BitVec 32) :
    dividend64 (.gpr R_EDX) s0 (s.put (.gpr R_EAX) v) = dividend64 (.gpr R_EDX) s0 s := by
  unfold dividend64
  rw [get_put_gpr_ne (by decide), get_put_gpr_ne (by decide)]

theorem exec_div_long {t : State D} {p : Ptr} {x : BitVec 32} (h : Loaded t 4 p x)
    (hx : x.setWidth 64 ≠ 0) :
    gprs (exec_div t) = .ok ((Gprs.set_part t.gpr 4 EAX
        ((edx_eax t.gpr / x.setWidth 64).setWidth 32)).set_part 4 EDX
      ((edx_eax t.gpr % x.setWidth 64).setWidth 32)) := by
  have hcheck : (x.setWidth 64 != 0) = true := bne_iff_ne.mpr hx
  have hd : ddest t = .ok p := by rw [ddest, h.preg, deref]
  have hmv : rtl_mv s0 (.gpr R_EAX) t = t.put s0 (t.gpr EAX) := rtl_mv_tmp (by decide) t
  obtain ⟨q, hq, hne, hget⟩ := divisor_pointer h
  rw [exec_div, hd, ok_bind, h.width]
  simp only [hq, hmv, rtl_div64_q, rtl_div64_r, get_put_gpr_ne hne, hget, hcheck, cassert_true,
    ok_bind, pure_eq_ok, dividend64_put, dividend64_eq]
  show Except.ok (State.gpr _) = _
  rw [put_gpr, put_gpr]
  rfl

theorem exec_idiv_long {t : State D} {p : Ptr} {x : BitVec 32} (h : Loaded t 4 p x)
    (hx : signed_division (edx_eax t.gpr) (x.signExtend 64) = true) :
    gprs (exec_idiv t) = .ok ((Gprs.set_part t.gpr 4 EAX
        (((edx_eax t.gpr).sdiv (x.signExtend 64)).setWidth 32)).set_part 4 EDX
      (((edx_eax t.gpr).srem (x.signExtend 64)).setWidth 32)) := by
  have hd : ddest t = .ok p := by rw [ddest, h.preg, deref]
  have hmv : rtl_mv s0 (.gpr R_EAX) t = t.put s0 (t.gpr EAX) := rtl_mv_tmp (by decide) t
  obtain ⟨q, hq, hne, hget⟩ := divisor_pointer h
  rw [exec_idiv, hd, ok_bind, h.width]
  simp only [hq, hmv, rtl_idiv64_q, rtl_idiv64_r, get_put_gpr_ne hne, hget, hx, cassert_true,
    ok_bind, pure_eq_ok, dividend64_put, dividend64_eq]
  show Except.ok (State.gpr _) = _
  rw [put_gpr, put_gpr]
  rfl

/-! ## Section 3: Words and numbers -/

theorem part_lt (g : Gprs) {w : Nat} (hw : w = 1 ∨ w = 2 ∨ w = 4) (r : Fin 8) :
    (g.part w r).toNat < 256 ^ w := by
  unfold Gprs.part
  rw [toNat_field _ _ (by omega), Nat.pow_mul]
  exact Nat.mod_lt _ (Nat.pow_pos (by decide))

/-- Two's complement. -/
theorem signed_toInt (w : Nat) {bits : Nat} (v : BitVec bits) (hbits : bits = 8 * w) :
    signed w v.toNat = v.toInt := by
  have hpow : 2 ^ bits = 256 ^ w := by rw [hbits, Nat.pow_mul]
  rw [BitVec.toInt_eq_toNat_cond, hpow, signed]
  push_cast
  rfl

theorem high_low_toNat {bits k : Nat} (hi lo : BitVec bits) (hlo : lo.toNat < 2 ^ k)
    (hhi : hi.toNat * 2 ^ k < 2 ^ bits) :
    (hi <<< k ||| lo).toNat = hi.toNat * 2 ^ k + lo.toNat := by
  rw [BitVec.toNat_or, BitVec.toNat_shiftLeft, Nat.shiftLeft_eq, Nat.mod_eq_of_lt hhi,
    ← Nat.shiftLeft_eq, ← Nat.shiftLeft_add_eq_or_of_lt hlo]

theorem dx_ax_toNat (g : Gprs) : (dx_ax g).toNat = g.wide 2 := by
  have hlo := part_lt g (w := 2) (.inr (.inl rfl)) EAX
  have hhi := part_lt g (w := 2) (.inr (.inl rfl)) EDX
  rw [dx_ax, BitVec.or_comm, high_low_toNat _ _ hlo (by omega)]
  rfl

theorem edx_eax_toNat (g : Gprs) : (edx_eax g).toNat = g.wide 4 := by
  have hlo := (g EAX).isLt
  have hhi := (g EDX).isLt
  have hset : ∀ v : BitVec 32, (v.setWidth 64).toNat = v.toNat := by
    intro v
    rw [BitVec.toNat_setWidth]
    exact Nat.mod_eq_of_lt (by omega)
  rw [edx_eax, high_low_toNat _ _ (by rw [hset]; exact hlo) (by rw [hset]; omega), hset, hset]
  unfold Gprs.wide
  rw [if_neg (by decide), part_four, part_four]
  rfl

theorem wide_lt (g : Gprs) {w : Nat} (hw : w = 1 ∨ w = 2 ∨ w = 4) : g.wide w < 256 ^ (2 * w) := by
  unfold Gprs.wide
  rcases hw with rfl | rfl | rfl
  · exact part_lt g (w := 2) (.inr (.inl rfl)) EAX
  · have hlo := part_lt g (w := 2) (.inr (.inl rfl)) EAX
    have hhi := part_lt g (w := 2) (.inr (.inl rfl)) EDX
    rw [if_neg (by decide)]
    omega
  · have hlo := part_lt g (w := 4) (.inr (.inr rfl)) EAX
    have hhi := part_lt g (w := 4) (.inr (.inr rfl)) EDX
    rw [if_neg (by decide)]
    omega

theorem ofInt_toNat (v : BitVec 32) : BitVec.ofInt 32 v.toNat = v := by
  rw [BitVec.ofInt_natCast, BitVec.ofNat_toNat, BitVec.setWidth_eq]

theorem setWidth_toNat (v : BitVec 64) : v.setWidth 32 = BitVec.ofInt 32 v.toNat := by
  rw [BitVec.ofInt_natCast]
  apply BitVec.eq_of_toNat_eq
  rw [BitVec.toNat_setWidth, BitVec.toNat_ofNat]

theorem setWidth_toInt (v : BitVec 64) : v.setWidth 32 = BitVec.ofInt 32 v.toInt := by
  apply BitVec.eq_of_toInt_eq
  rw [BitVec.toInt_setWidth, BitVec.toInt_ofInt, BitVec.toInt_eq_toNat_bmod,
    Int.bmod_bmod_of_dvd (by decide)]

/-- The low word of a product. -/
theorem mul_eq_ofInt (a x : BitVec 32) : x * a = BitVec.ofInt 32 (a.toNat * x.toNat : Nat) := by
  rw [BitVec.ofInt_natCast]
  apply BitVec.eq_of_toNat_eq
  rw [BitVec.toNat_mul, BitVec.toNat_ofNat, Nat.mul_comm]

theorem imul_eq_ofInt (a x : BitVec 32) : x * a = BitVec.ofInt 32 (a.toInt * x.toInt) := by
  apply BitVec.eq_of_toInt_eq
  rw [BitVec.toInt_mul, BitVec.toInt_ofInt, Int.mul_comm]

theorem c_mul_hi_eq (a x : BitVec 32) :
    c_mul_hi x a = BitVec.ofInt 32 ((a.toNat * x.toNat : Nat) / 256 ^ 4) := by
  have hprod : (x.setWidth 64 * a.setWidth 64).toNat = a.toNat * x.toNat := by
    have ha := a.isLt
    have hx := x.isLt
    have hbound : a.toNat * x.toNat ≤ (2 ^ 32 - 1) * (2 ^ 32 - 1) :=
      Nat.mul_le_mul (by omega) (by omega)
    rw [BitVec.toNat_mul, BitVec.toNat_setWidth, BitVec.toNat_setWidth,
      Nat.mod_eq_of_lt (by omega : a.toNat < 2 ^ 64),
      Nat.mod_eq_of_lt (by omega : x.toNat < 2 ^ 64), Nat.mul_comm x.toNat]
    exact Nat.mod_eq_of_lt (by omega)
  rw [c_mul_hi, setWidth_toNat, BitVec.toNat_ushiftRight, hprod, Nat.shiftRight_eq_div_pow]
  push_cast
  rfl

theorem c_imul_hi_eq (a x : BitVec 32) :
    c_imul_hi x a = BitVec.ofInt 32 (a.toInt * x.toInt / 256 ^ 4) := by
  have hsext : ∀ v : BitVec 32, (v.signExtend 64).toInt = v.toInt :=
    fun v => BitVec.toInt_signExtend_of_le (by decide)
  have habs : ∀ v : BitVec 32, |v.toInt| ≤ 2 ^ 31 := by
    intro v
    have hlo := BitVec.le_two_mul_toInt (x := v)
    have hhi := BitVec.two_mul_toInt_lt (x := v)
    rw [abs_le]
    omega
  have hprod : (x.signExtend 64 * a.signExtend 64).toInt = a.toInt * x.toInt := by
    have hbound : |a.toInt * x.toInt| ≤ 2 ^ 31 * 2 ^ 31 := by
      rw [abs_mul]
      exact mul_le_mul (habs a) (habs x) (abs_nonneg _) (by decide)
    rw [abs_le] at hbound
    rw [BitVec.toInt_mul, hsext, hsext, Int.mul_comm x.toInt]
    exact Int.bmod_eq_of_le (by omega) (by omega)
  rw [c_imul_hi, setWidth_toInt, BitVec.toInt_sshiftRight, hprod, Int.shiftRight_eq_div_pow]
  rfl

/-! ## Section 4: Multiplication -/

/-- `EDX` and `EAX` in either order. -/
theorem set_wide_four (g : Gprs) (n : Int) :
    g.set_wide 4 n = (g.set_part 4 EDX (BitVec.ofInt 32 (n / 256 ^ 4))).set_part 4 EAX
      (BitVec.ofInt 32 n) := by
  unfold Gprs.set_wide
  rw [if_neg (by decide)]
  simp only [set_part_four]
  exact Function.update_comm (by decide) _ _ _

theorem exec_mul_correct {t : State D} {w : Nat} {p : Ptr} {x : BitVec 32} (h : Loaded t w p x)
    (hw : w = 1 ∨ w = 2 ∨ w = 4) :
    gprs (exec_mul t) =
      .ok (Gprs.set_wide t.gpr w ((Gprs.part t.gpr w EAX).toNat * x.toNat : Nat)) := by
  rcases hw with rfl | rfl | rfl
  · rw [exec_mul_byte h, mul_eq_ofInt]
    rfl
  · have hhigh : (x * Gprs.part t.gpr 2 EAX) >>> 16 =
        BitVec.ofInt 32 (((Gprs.part t.gpr 2 EAX).toNat * x.toNat : Nat) / 256 ^ 2) := by
      have ha := part_lt t.gpr (w := 2) (.inr (.inl rfl)) EAX
      have hx := h.bound
      generalize Gprs.part t.gpr 2 EAX = a at ha ⊢
      have hbound : a.toNat * x.toNat ≤ 65535 * 65535 := Nat.mul_le_mul (by omega) (by omega)
      rw [← ofInt_toNat ((x * a) >>> 16), BitVec.toNat_ushiftRight, BitVec.toNat_mul,
        Nat.mul_comm x.toNat, Nat.mod_eq_of_lt (by omega), Nat.shiftRight_eq_div_pow]
      push_cast
      rfl
    rw [exec_mul_word h, hhigh, mul_eq_ofInt]
    rfl
  · rw [exec_mul_long h, set_wide_four, c_mul_hi_eq, mul_eq_ofInt, part_four]

/-! ## Section 5: Division -/

theorem exec_div_correct {t : State D} {w : Nat} {p : Ptr} {x : BitVec 32} (h : Loaded t w p x)
    (hw : w = 1 ∨ w = 2 ∨ w = 4) (hx : x.toNat ≠ 0) :
    gprs (exec_div t) = .ok (Gprs.set_quotient t.gpr w (Gprs.wide t.gpr w / x.toNat : Nat)
      (Gprs.wide t.gpr w % x.toNat : Nat)) := by
  have hx0 : x ≠ 0 := by
    intro h0
    rw [h0] at hx
    exact hx rfl
  rcases hw with rfl | rfl | rfl
  · rw [exec_div_byte h hx0, ← ofInt_toNat (_ / _), ← ofInt_toNat (_ % _), BitVec.toNat_udiv,
      BitVec.toNat_umod]
    rfl
  · rw [exec_div_word h hx0, ← ofInt_toNat (_ / _), ← ofInt_toNat (_ % _), BitVec.toNat_udiv,
      BitVec.toNat_umod, dx_ax_toNat]
    rfl
  · have hext : (x.setWidth 64).toNat = x.toNat := by
      have hlt := x.isLt
      rw [BitVec.toNat_setWidth]
      exact Nat.mod_eq_of_lt (by omega)
    have hext0 : x.setWidth 64 ≠ 0 := by
      intro h0
      rw [h0] at hext
      exact hx hext.symm
    rw [exec_div_long h hext0, setWidth_toNat, setWidth_toNat, BitVec.toNat_udiv,
      BitVec.toNat_umod, hext, edx_eax_toNat]
    rfl

theorem signed_division_iff {bits : Nat} (n x : BitVec bits) :
    signed_division n x = true ↔ x ≠ 0 ∧ (n ≠ BitVec.intMin bits ∨ x ≠ -1) := by
  simp only [signed_division, Bool.and_eq_true, Bool.not_eq_true', Bool.and_eq_false_iff,
    bne_iff_ne, beq_eq_false_iff_ne]

theorem sdiv_eq_ofInt (n : BitVec 32) {x : BitVec 32} (hx : x ≠ -1) :
    n.sdiv x = BitVec.ofInt 32 (n.toInt.tdiv x.toInt) := by
  rw [← BitVec.toInt_sdiv_of_ne_or_ne n x (.inr hx), BitVec.ofInt_toInt]

theorem srem_eq_ofInt (n x : BitVec 32) :
    n.srem x = BitVec.ofInt 32 (n.toInt.tmod x.toInt) := by
  rw [← BitVec.toInt_srem, BitVec.ofInt_toInt]

/-- A divisor of one or two bytes has zeros in front, and so has a dividend of
    one byte. -/
theorem exec_idiv_small {t : State D} {w : Nat} {p : Ptr} {x : BitVec 32} (h : Loaded t w p x)
    (hw : w = 1 ∨ w = 2) (hx : x.toNat ≠ 0) :
    gprs (exec_idiv t) = .ok (Gprs.set_quotient t.gpr w
      ((signed 4 (Gprs.wide t.gpr w)).tdiv x.toNat)
      ((signed 4 (Gprs.wide t.gpr w)).tmod x.toNat)) := by
  have hlt : x.toNat < 65536 := by
    have hbound := h.bound
    rcases hw with rfl | rfl <;> omega
  have hval : x.toInt = x.toNat := BitVec.toInt_eq_toNat_of_lt (by omega)
  have hneg : x ≠ -1 := by
    intro h1
    rw [h1] at hlt
    revert hlt
    decide
  have hcheck : ∀ n, signed_division n x = true := by
    intro n
    refine (signed_division_iff n x).mpr ⟨?_, .inr hneg⟩
    intro h0
    rw [h0] at hx
    exact hx rfl
  rcases hw with rfl | rfl
  · rw [exec_idiv_byte h (hcheck _), sdiv_eq_ofInt _ hneg, srem_eq_ofInt, hval,
      ← signed_toInt 4 (Gprs.part t.gpr 2 EAX) rfl]
    rfl
  · rw [exec_idiv_word h (hcheck _), sdiv_eq_ofInt _ hneg, srem_eq_ofInt, hval,
      ← signed_toInt 4 (dx_ax t.gpr) rfl, dx_ax_toNat]
    rfl

/-- No quotient that fits overflows in 64 bits. -/
theorem exec_idiv_four {t : State D} {p : Ptr} {x : BitVec 32} (h : Loaded t 4 p x)
    (hx : signed 4 x.toNat ≠ 0)
    (hhi : 2 * (signed 8 (Gprs.wide t.gpr 4)).tdiv (signed 4 x.toNat) < 256 ^ 4) :
    gprs (exec_idiv t) = .ok (Gprs.set_quotient t.gpr 4
      ((signed 8 (Gprs.wide t.gpr 4)).tdiv (signed 4 x.toNat))
      ((signed 8 (Gprs.wide t.gpr 4)).tmod (signed 4 x.toNat))) := by
  have hd : (x.signExtend 64).toInt = signed 4 x.toNat := by
    rw [BitVec.toInt_signExtend_of_le (by decide), signed_toInt 4 x rfl]
  have hn : (edx_eax t.gpr).toInt = signed 8 (Gprs.wide t.gpr 4) := by
    rw [← edx_eax_toNat, signed_toInt 8 (edx_eax t.gpr) rfl]
  rw [← hd] at hx hhi ⊢
  rw [← hn] at hhi ⊢
  have hover : edx_eax t.gpr ≠ BitVec.intMin 64 ∨ x.signExtend 64 ≠ -1#64 := by
    by_contra hboth
    rw [not_or, not_not, not_not] at hboth
    rw [hboth.1, hboth.2] at hhi
    revert hhi
    decide
  have hcheck : signed_division (edx_eax t.gpr) (x.signExtend 64) = true := by
    refine (signed_division_iff _ _).mpr ⟨?_, hover⟩
    intro h0
    rw [h0] at hx
    exact hx rfl
  rw [exec_idiv_long h hcheck, setWidth_toInt, setWidth_toInt,
    BitVec.toInt_sdiv_of_ne_or_ne _ _ hover,
    BitVec.toInt_srem]
  rfl

end Nemu.X86
