import Mathlib.Data.Nat.Bits
import Mathlib.Logic.Function.Iterate
import Mathlib.Tactic.LinearCombination
import Mathlib.Tactic.Ring

/-! # Division by shifting and subtracting

    Two registers of `W` bits hold the remainder so far and, behind it, the
    bits of the dividend that are still to come; the bits of the quotient take
    their places from below, one turn late.  A turn shifts the pair by one
    place and takes the divisor away where it fits.

    The dividend may start `k` places up, where its leading part is below the
    divisor: `k` turns are enough then (`run_start`).  `Fits` says that the
    shifted remainder stays in its register and near the divisor, so that the
    sign of their difference tells which one is larger. -/

namespace ShiftSub

/-- The remainder, the quotient and the quotient's last bit. -/
structure Regs where
  r : Nat
  q : Nat
  c : Nat

/-- The remainder after the shift. -/
def shifted (W : Nat) (s : Regs) : Nat := (2 * s.r + s.q / 2 ^ (W - 1)) % 2 ^ W

def turn (W d : Nat) (s : Regs) : Regs where
  r := if d ≤ shifted W s then shifted W s - d else shifted W s
  q := (2 * s.q + s.c) % 2 ^ W
  c := if d ≤ shifted W s then 1 else 0

/-- The registers before the first of `k` turns. -/
def start (W n k : Nat) : Regs := ⟨n / 2 ^ k, n * 2 ^ (W - k) % 2 ^ W, 0⟩

/-- The registers while `j` of `k` turns are left. -/
structure At (W n d k j : Nat) (s : Regs) : Prop where
  r : s.r = n / 2 ^ j % d
  q : s.q = n % 2 ^ j * 2 ^ (W - j) + n / 2 ^ j / d / 2
  c : s.c = n / 2 ^ j / d % 2

/-- The divisor has a bit to spare, or one turn does it. -/
def Fits (W n d k : Nat) : Prop :=
  d ≤ 2 ^ (W - 1) ∨ (k = 1 ∧ d < 2 ^ W ∧ 2 ^ (W - 1) ≤ n ∧ n < 2 ^ W)

/-! ## The bits of the dividend -/

theorem div_two_pow_succ (n j : Nat) : n / 2 ^ j = 2 * (n / 2 ^ (j + 1)) + n / 2 ^ j % 2 := by
  have hdiv : n / 2 ^ (j + 1) = n / 2 ^ j / 2 := by rw [pow_succ, Nat.div_div_eq_div_mul]
  omega

theorem mod_two_pow_succ (n j : Nat) : n % 2 ^ (j + 1) = n / 2 ^ j % 2 * 2 ^ j + n % 2 ^ j := by
  rw [pow_succ, Nat.mod_mul]
  ring

theorem two_pow_pred {W : Nat} (hW : 0 < W) : 2 ^ W = 2 * 2 ^ (W - 1) := by
  obtain ⟨v, rfl⟩ : ∃ v, W = v + 1 := ⟨W - 1, by omega⟩
  rw [Nat.add_sub_cancel, pow_succ]
  ring

/-- The places of the quotient that are in use. -/
theorem quotient_lt {n d k j : Nat} (hd : 0 < d) (hk : n / 2 ^ k < d) (hj : j ≤ k) :
    n / 2 ^ j / d < 2 ^ (k - j) := by
  have hsplit : 2 ^ k = 2 ^ j * 2 ^ (k - j) := by rw [← pow_add, Nat.add_sub_cancel' hj]
  rw [hsplit, ← Nat.div_div_eq_div_mul, Nat.div_lt_iff_lt_mul (Nat.two_pow_pos _)] at hk
  rw [Nat.div_lt_iff_lt_mul hd, Nat.mul_comm]
  exact hk

/-! ## One turn -/

section turn
variable {W n d k j : Nat} {s : Regs}

/-- The bit that leaves the quotient register is the next one of the dividend. -/
theorem top_bit (hd : 0 < d) (hkW : k ≤ W) (hk : n / 2 ^ k < d) (hj : j + 1 ≤ k)
    (hs : At W n d k (j + 1) s) :
    s.q = n / 2 ^ j % 2 * 2 ^ (W - 1) +
        (n % 2 ^ j * 2 ^ (W - (j + 1)) + n / 2 ^ (j + 1) / d / 2) ∧
      n % 2 ^ j * 2 ^ (W - (j + 1)) + n / 2 ^ (j + 1) / d / 2 < 2 ^ (W - 1) := by
  have hplace : 2 ^ (W - 1) = 2 ^ j * 2 ^ (W - (j + 1)) := by
    rw [← pow_add]
    congr 1
    omega
  refine ⟨?_, ?_⟩
  · rw [hs.q, mod_two_pow_succ, hplace]
    ring
  · -- The quotient stands below the bits of the dividend.
    have hquot : n / 2 ^ (j + 1) / d / 2 < 2 ^ (W - (j + 1)) := by
      have hlt := quotient_lt hd hk hj
      have hle : 2 ^ (k - (j + 1)) ≤ 2 ^ (W - (j + 1)) :=
        Nat.pow_le_pow_right (by decide) (by omega)
      exact Nat.lt_of_le_of_lt (Nat.div_le_self _ 2) (Nat.lt_of_lt_of_le hlt hle)
    have hrest : n % 2 ^ j + 1 ≤ 2 ^ j := Nat.mod_lt n (Nat.two_pow_pos j)
    calc
      n % 2 ^ j * 2 ^ (W - (j + 1)) + n / 2 ^ (j + 1) / d / 2
          < n % 2 ^ j * 2 ^ (W - (j + 1)) + 2 ^ (W - (j + 1)) := Nat.add_lt_add_left hquot _
      _ = (n % 2 ^ j + 1) * 2 ^ (W - (j + 1)) := by ring
      _ ≤ 2 ^ j * 2 ^ (W - (j + 1)) := Nat.mul_le_mul_right _ hrest
      _ = 2 ^ (W - 1) := hplace.symm

/-- Where `Fits` holds, the shifted remainder has not lost a bit, and it is
    within half the range of the divisor. -/
theorem shifted_fits (hW : 0 < W) (hd : 0 < d) (hkW : k ≤ W) (hk : n / 2 ^ k < d) (hj : j + 1 ≤ k)
    (hfit : Fits W n d k) (hs : At W n d k (j + 1) s) :
    shifted W s = 2 * (n / 2 ^ (j + 1) % d) + n / 2 ^ j % 2 ∧
      shifted W s < d + 2 ^ (W - 1) ∧ d ≤ shifted W s + 2 ^ (W - 1) := by
  obtain ⟨hq, hlow⟩ := top_bit hd hkW hk hj hs
  have hbit : s.q / 2 ^ (W - 1) = n / 2 ^ j % 2 := by
    rw [hq, Nat.mul_comm, Nat.mul_add_div (Nat.two_pow_pos _), Nat.div_eq_of_lt hlow, Nat.add_zero]
  have htwo := two_pow_pred hW
  have hrem : n / 2 ^ (j + 1) % d < d := Nat.mod_lt _ hd
  have hsmall : n / 2 ^ j % 2 < 2 := Nat.mod_lt _ (by decide)
  have hvalue : 2 * (n / 2 ^ (j + 1) % d) + n / 2 ^ j % 2 < 2 ^ W ∧
      2 * (n / 2 ^ (j + 1) % d) + n / 2 ^ j % 2 < d + 2 ^ (W - 1) ∧
      d ≤ 2 * (n / 2 ^ (j + 1) % d) + n / 2 ^ j % 2 + 2 ^ (W - 1) := by
    rcases hfit with hhalf | ⟨rfl, hdW, hnlow, hn⟩
    · omega
    · -- The only turn: the shifted remainder is the dividend.
      obtain rfl : j = 0 := by omega
      have hall : n / 2 ^ 0 = n := by simp
      have hsplit := div_two_pow_succ n 0
      rw [Nat.mod_eq_of_lt hk]
      rw [hall] at hsplit ⊢
      rw [← hsplit]
      rw [pow_one] at hk
      clear hq hlow hbit hrem hsmall hsplit
      omega
  unfold shifted
  rw [hs.r, hbit, Nat.mod_eq_of_lt hvalue.1]
  exact ⟨rfl, hvalue.2⟩

/-- A shifted remainder that has lost no bit is divided once. -/
theorem divide_once {a r b : Nat} (hd : 0 < d) (hr : r < d) (hb : b < 2) :
    (d ≤ 2 * r + b → (2 * (d * a + r) + b) / d = 2 * a + 1 ∧
      (2 * (d * a + r) + b) % d = 2 * r + b - d) ∧
      (2 * r + b < d → (2 * (d * a + r) + b) / d = 2 * a ∧
        (2 * (d * a + r) + b) % d = 2 * r + b) := by
  refine ⟨fun hle => ?_, fun hlt => ?_⟩
  · have hform : 2 * (d * a + r) + b = (2 * r + b - d) + d * (2 * a + 1) := by
      have hsub : 2 * r + b = (2 * r + b - d) + d := by omega
      linear_combination hsub
    rw [hform, Nat.add_mul_div_left _ _ hd, Nat.add_mul_mod_self_left, Nat.div_eq_of_lt (by omega),
      Nat.mod_eq_of_lt (by omega), Nat.zero_add]
    exact ⟨rfl, rfl⟩
  · have hform : 2 * (d * a + r) + b = (2 * r + b) + d * (2 * a) := by ring
    rw [hform, Nat.add_mul_div_left _ _ hd, Nat.add_mul_mod_self_left, Nat.div_eq_of_lt hlt,
      Nat.mod_eq_of_lt hlt, Nat.zero_add]
    exact ⟨rfl, rfl⟩

/-- One turn. -/
theorem turn_at (hW : 0 < W) (hd : 0 < d) (hkW : k ≤ W) (hk : n / 2 ^ k < d) (hj : j + 1 ≤ k)
    (hfit : Fits W n d k) (hs : At W n d k (j + 1) s) : At W n d k j (turn W d s) := by
  obtain ⟨hshift, -⟩ := shifted_fits hW hd hkW hk hj hfit hs
  obtain ⟨hq, hlow⟩ := top_bit hd hkW hk hj hs
  have hsplit : n / 2 ^ j = 2 * (d * (n / 2 ^ (j + 1) / d) + n / 2 ^ (j + 1) % d) +
      n / 2 ^ j % 2 := by
    rw [Nat.div_add_mod]
    exact div_two_pow_succ n j
  obtain ⟨hbig, hsmall⟩ := divide_once (d := d) (a := n / 2 ^ (j + 1) / d) hd
    (Nat.mod_lt (n / 2 ^ (j + 1)) hd) (Nat.mod_lt (n / 2 ^ j) Nat.two_pos)
  rw [← hsplit, ← hshift] at hbig hsmall
  have hhalf : n / 2 ^ j / d / 2 = n / 2 ^ (j + 1) / d := by
    by_cases hle : d ≤ shifted W s
    · rw [(hbig hle).1]
      omega
    · rw [(hsmall (Nat.lt_of_not_le hle)).1]
      omega
  refine ⟨?_, ?_, ?_⟩
  · show (if d ≤ shifted W s then shifted W s - d else shifted W s) = _
    split
    · rename_i hle
      exact (hbig hle).2.symm
    · rename_i hlt
      exact (hsmall (Nat.lt_of_not_le hlt)).2.symm
  · -- The top bit is gone, and the last bit of the quotient has come in.
    have hWj : 2 ^ (W - j) = 2 * 2 ^ (W - (j + 1)) := by
      rw [show W - j = (W - (j + 1)) + 1 by omega, pow_succ]
      ring
    have hin : 2 * s.q + s.c = n / 2 ^ j % 2 * 2 ^ W +
        (n % 2 ^ j * 2 ^ (W - j) + n / 2 ^ (j + 1) / d) := by
      have hc := hs.c
      have hparity := Nat.div_add_mod (n / 2 ^ (j + 1) / d) 2
      rw [two_pow_pred hW, hWj, hq, hc]
      linear_combination hparity
    have hbelow : n % 2 ^ j * 2 ^ (W - j) + n / 2 ^ (j + 1) / d < 2 ^ W := by
      have htwo := two_pow_pred hW
      have hquot : n / 2 ^ (j + 1) / d < 2 * (n / 2 ^ (j + 1) / d / 2) + 2 := by omega
      have hmul : n % 2 ^ j * 2 ^ (W - j) = 2 * (n % 2 ^ j * 2 ^ (W - (j + 1))) := by
        rw [hWj]
        ring
      omega
    show (2 * s.q + s.c) % 2 ^ W = _
    rw [hin, Nat.mul_comm, Nat.mul_add_mod, Nat.mod_eq_of_lt hbelow, hhalf]
  · show (if d ≤ shifted W s then 1 else 0) = _
    split
    · rename_i hle
      rw [(hbig hle).1]
      omega
    · rename_i hlt
      rw [(hsmall (Nat.lt_of_not_le hlt)).1]
      omega

end turn

/-! ## All turns -/

theorem start_at {W n d k : Nat} (hkW : k ≤ W) (hk : n / 2 ^ k < d) :
    At W n d k k (start W n k) := by
  have hquot : n / 2 ^ k / d = 0 := Nat.div_eq_of_lt hk
  refine ⟨(Nat.mod_eq_of_lt hk).symm, ?_, by rw [hquot]; rfl⟩
  show n * 2 ^ (W - k) % 2 ^ W = _
  have hplace : 2 ^ W = 2 ^ k * 2 ^ (W - k) := by rw [← pow_add, Nat.add_sub_cancel' hkW]
  rw [hquot, hplace, Nat.mul_mod_mul_right, Nat.zero_div, Nat.add_zero]

/-- The registers at the end. -/
theorem finish {W n d k : Nat} {s : Regs} (hs : At W n d k 0 s) :
    s.r = n % d ∧ 2 * s.q + s.c = n / d := by
  have hr := hs.r
  have hq := hs.q
  have hc := hs.c
  rw [pow_zero, Nat.div_one] at hr hq hc
  rw [Nat.mod_one, Nat.zero_mul, Nat.zero_add] at hq
  exact ⟨hr, by omega⟩

/-- `k` turns divide. -/
theorem run_start {W n d k : Nat} (hW : 0 < W) (hd : 0 < d) (hkW : k ≤ W) (hk : n / 2 ^ k < d)
    (hfit : Fits W n d k) : ∀ i ≤ k, At W n d k (k - i) ((turn W d)^[i] (start W n k)) := by
  intro i
  induction i with
  | zero => exact fun _ => start_at hkW hk
  | succ i ih =>
    intro hi
    have hprev := ih (by omega)
    rw [show k - i = k - (i + 1) + 1 by omega] at hprev
    rw [Function.iterate_succ_apply']
    exact turn_at hW hd hkW hk (by omega) hfit hprev

end ShiftSub
