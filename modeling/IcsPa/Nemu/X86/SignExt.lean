import IcsPa.Framework.ZeroExt
import IcsPa.Nemu.X86.Muldiv

/-! # Multiplication and division against the i386

    `MUL` and `DIV` are always right.  `exec_imul1` and `exec_idiv` do not
    extend the sign of operands of one or two bytes, which `exec_imul2` and
    `exec_imul3` do, and are right for a part of the inputs only. -/

open CCall Bytes I386 ZeroExt

namespace Nemu.X86

variable {D : Type}

/-! ## Section 1: Signed multiplication -/

/-- `IMUL` of `a` by `x` is right although factors of one and two bytes have
    zeros in front. -/
def imul_exact (w : Nat) (a x : Int) : Prop :=
  w = 4 ∨ (0 ≤ a ∧ 0 ≤ x) ∨ a = 0 ∨ x = 0 ∨ (2 * a = -256 ^ w ∧ 2 * x = -256 ^ w)

/-- Factors with zeros in front. -/
theorem exec_imul1_small_iff {t : State D} {w : Nat} {p : Ptr} {x : BitVec 32}
    (h : Loaded t w p x) (hw : w = 1 ∨ w = 2) :
    let a := (Gprs.part t.gpr w EAX).toNat
    Gprs.set_wide t.gpr w (a * x.toNat : Nat) =
        Gprs.set_wide t.gpr w (signed w a * signed w x.toNat) ↔
      imul_exact w (signed w a) (signed w x.toNat) := by
  intro a
  have ha : a < 256 ^ w := part_lt t.gpr (by omega) EAX
  obtain ⟨α, haα, hα⟩ := signed_cases ha
  obtain ⟨β, hxβ, hβ⟩ := signed_cases h.bound
  have hiff := product_iff (pow_pos (by decide) w) hα hβ (signed_bounds ha) (signed_bounds h.bound)
  have hne : w ≠ 4 := by omega
  rw [set_wide_eq_iff _ hw]
  unfold imul_exact
  simp only [hne, false_or]
  rw [← hiff, ← haα, ← hxβ]
  push_cast
  rfl

theorem exec_imul1_iff {t : State D} {w : Nat} {p : Ptr} {x : BitVec 32} (h : Loaded t w p x)
    (hw : w = 1 ∨ w = 2 ∨ w = 4) :
    let a := signed w (Gprs.part t.gpr w EAX).toNat
    ∃ g, gprs (exec_imul1 t) = .ok g ∧
      (g = Gprs.set_wide t.gpr w (a * signed w x.toNat) ↔ imul_exact w a (signed w x.toNat)) := by
  intro a
  by_cases hfour : w = 4
  · subst hfour
    have ha : a = (t.gpr EAX).toInt := by
      rw [← signed_toInt 4 (t.gpr EAX) rfl, ← part_four t.gpr]
    refine ⟨_, exec_imul1_long h, fun _ => .inl rfl, fun _ => ?_⟩
    rw [ha, signed_toInt 4 x rfl, set_wide_four, c_imul_hi_eq, imul_eq_ofInt]
  · have hsmall : w = 1 ∨ w = 2 := by omega
    refine ⟨_, (exec_imul1_small h hsmall).trans (exec_mul_correct h hw), ?_⟩
    exact exec_imul1_small_iff h hsmall

/-! ## Section 2: Signed division -/

/-- `IDIV` of `n` by `d` is right although a dividend and a divisor of one
    byte, and a divisor of two bytes, have zeros in front. -/
def idiv_exact (w : Nat) (n d : Int) : Prop :=
  w = 4 ∨
  (0 < d ∧ (0 ≤ n ∨ w = 2 ∨ d ∣ n ∧ d ∣ 256)) ∨
  (d < 0 ∧ (0 ≤ n ∨ w = 2) ∧
    (n.natAbs < d.natAbs ∨ 2 * d = -256 ^ w ∧ d * d ≤ n ∧ n < d * d - d)) ∨
  (d < 0 ∧ w = 1 ∧ n = -(d * d))

/-- The two divisions agree in the `w` bytes of the quotient and of the remainder. -/
def SameDivision (w : Nat) (n d n' d' : Int) : Prop :=
  n.tdiv d ≡ n'.tdiv d' [ZMOD 256 ^ w] ∧ n.tmod d ≡ n'.tmod d' [ZMOD 256 ^ w]

theorem same_division_refl (w : Nat) (n d : Int) : SameDivision w n d n d :=
  ⟨Int.ModEq.refl _, Int.ModEq.refl _⟩

theorem idiv_words_iff {n : Int} {x : Nat} (hx : x < 65536) (hd : x ≠ 0)
    (hlo : -65536 ≤ 2 * n.tdiv (signed 2 x)) (hhi : 2 * n.tdiv (signed 2 x) < 65536) :
    SameDivision 2 n x n (signed 2 x) ↔ idiv_exact 2 n (signed 2 x) := by
  -- A divisor that is not negative is the same number in both.
  by_cases hpos : 2 * x < 65536
  · have hval : signed 2 x = x := if_pos hpos
    rw [hval]
    have hexact : idiv_exact 2 n x := .inr (.inl ⟨by omega, .inr (.inl rfl)⟩)
    exact ⟨fun _ => hexact, fun _ => same_division_refl 2 n x⟩
  · obtain ⟨δ, hδ⟩ : ∃ δ, x = 65536 - δ ∧ 0 < δ ∧ 2 * δ ≤ 65536 := ⟨65536 - x, by omega⟩
    obtain ⟨rfl, hδ0, hδB⟩ := hδ
    have hval : signed 2 (65536 - δ) = -δ := by
      rw [signed, if_neg (show ¬ 2 * (65536 - δ) < 256 ^ 2 from hpos)]
      omega
    rw [hval] at hlo hhi ⊢
    have habs := Int.natAbs_eq n
    obtain ⟨m, hm⟩ : ∃ m, n.natAbs = m := ⟨_, rfl⟩
    rw [hm] at habs
    -- The quotient has the sign of the dividend, so its size is bounded either way.
    have hq : 2 * (m / δ) ≤ 65536 := by
      rcases habs with rfl | rfl
      · rw [Int.tdiv_neg, ← Int.ofNat_tdiv] at hlo
        omega
      · rw [Int.neg_tdiv, Int.tdiv_neg, ← Int.ofNat_tdiv] at hhi
        omega
    refine (zero_extended_divisor_iff habs hδ0 hδB hq).trans ?_
    constructor
    · rintro (hlt | ⟨hhalf, hquot⟩)
      · exact .inr (.inr (.inl ⟨by omega, .inr rfl, .inl (by omega)⟩))
      · obtain rfl : δ = 32768 := by omega
        have hn : n = m := by
          rcases habs with h | rfl
          · exact h
          · rw [Int.neg_tdiv, Int.tdiv_neg, ← Int.ofNat_tdiv] at hhi
            omega
        exact .inr (.inr (.inl ⟨by omega, .inr rfl, .inr ⟨by omega, by omega, by omega⟩⟩))
    · rintro (h | ⟨h, _⟩ | ⟨_, _, hlt | ⟨hhalf, hsq, hsq'⟩⟩ | ⟨_, h, _⟩)
      · omega
      · omega
      · exact .inl (by omega)
      · obtain rfl : δ = 32768 := by omega
        exact .inr ⟨rfl, by omega⟩
      · omega

theorem same_negative_dividend_iff {m d : Nat} (hd : 0 < d) (hB : 2 * d ≤ 256) (hm : m ≤ 65536) :
    SameDivision 1 (65536 - m : Nat) d (-m) d ↔ d ∣ m ∧ d ∣ 256 := by
  rw [← negative_dividend_iff hd hB hm]
  unfold SameDivision
  rw [Int.neg_tdiv, Int.neg_tmod, ← Int.ofNat_tdiv, ← Int.ofNat_tdiv, ← Int.ofNat_tmod,
    ← Int.ofNat_tmod]
  exact and_congr (modEq_neg_iff (B := 256)) (modEq_neg_iff (B := 256))

theorem same_negative_operands_iff {m δ : Nat} (hδ : 0 < δ) (hm0 : 0 < m) (hB : 2 * δ ≤ 256)
    (hq : 2 * (m / δ) < 256) (hm : m ≤ 65536) :
    SameDivision 1 (65536 - m : Nat) (256 - δ : Nat) (-m) (-δ) ↔ m = δ * δ := by
  rw [← negative_operands_iff hδ hm0 hB hq hm]
  unfold SameDivision
  rw [Int.neg_tdiv, Int.neg_tmod, Int.tdiv_neg, Int.tmod_neg, neg_neg, ← Int.ofNat_tdiv,
    ← Int.ofNat_tdiv, ← Int.ofNat_tmod, ← Int.ofNat_tmod]
  exact and_congr (Int.natCast_modEq_iff (n := 256)) (modEq_neg_iff (B := 256))

/-- A negative word, and a negative byte. -/
theorem signed_two_negative {W : Nat} (hW : W < 65536) (h : ¬ 2 * W < 65536) :
    ∃ m, W = 65536 - m ∧ 0 < m ∧ 2 * m ≤ 65536 ∧ signed 2 W = -m := by
  refine ⟨65536 - W, by omega, by omega, by omega, ?_⟩
  rw [signed, if_neg (show ¬ 2 * W < 256 ^ 2 from h)]
  omega

theorem signed_one_negative {x : Nat} (hx : x < 256) (h : ¬ 2 * x < 256) :
    ∃ δ, x = 256 - δ ∧ 0 < δ ∧ 2 * δ ≤ 256 ∧ signed 1 x = -δ := by
  refine ⟨256 - x, by omega, by omega, by omega, ?_⟩
  rw [signed, if_neg (show ¬ 2 * x < 256 ^ 1 from h)]
  omega

/-- The dividend of one byte is the unsigned one. -/
theorem idiv_bytes_iff {W x : Nat} (hW : W < 65536) (hx : x < 256) (hd : x ≠ 0)
    (hlo : -256 ≤ 2 * (signed 2 W).tdiv (signed 1 x))
    (hhi : 2 * (signed 2 W).tdiv (signed 1 x) < 256) :
    SameDivision 1 W x (signed 2 W) (signed 1 x) ↔
      idiv_exact 1 (signed 2 W) (signed 1 x) := by
  -- The signs of the divisor and the dividend.
  by_cases hd0 : 2 * x < 256 <;> by_cases hn0 : 2 * W < 65536
  · have hd : signed 1 x = x := if_pos hd0
    have hn : signed 2 W = W := if_pos hn0
    rw [hd, hn]
    have hexact : idiv_exact 1 W x := .inr (.inl ⟨by omega, .inl (by omega)⟩)
    exact ⟨fun _ => hexact, fun _ => same_division_refl 1 W x⟩
  · have hd : signed 1 x = x := if_pos hd0
    obtain ⟨m, rfl, hm0, hm, hn⟩ := signed_two_negative hW hn0
    rw [hd, hn, same_negative_dividend_iff (by omega) (by omega) (by omega)]
    constructor
    · intro ⟨hdvd, hdvd'⟩
      refine .inr (.inl ⟨by omega, .inr (.inr ⟨?_, ?_⟩)⟩)
      · exact Int.dvd_neg.mpr (Int.natCast_dvd_natCast.mpr hdvd)
      · exact Int.natCast_dvd_natCast.mpr hdvd'
    · rintro (h | ⟨_, h | h | ⟨hdvd, hdvd'⟩⟩ | ⟨h, _⟩ | ⟨h, _⟩)
      · omega
      · omega
      · omega
      · exact ⟨Int.natCast_dvd_natCast.mp (Int.dvd_neg.mp hdvd), Int.natCast_dvd_natCast.mp hdvd'⟩
      · omega
      · omega
  · have hn : signed 2 W = W := if_pos hn0
    obtain ⟨δ, rfl, hδ0, hδ, hd⟩ := signed_one_negative hx hd0
    rw [hd, hn] at hlo hhi ⊢
    have hq : 2 * (W / δ) ≤ 256 := by
      rw [Int.tdiv_neg, ← Int.ofNat_tdiv] at hlo
      omega
    refine (zero_extended_divisor_iff (.inl rfl) hδ0 hδ hq).trans ?_
    constructor
    · rintro (hlt | ⟨hhalf, hquot⟩)
      · exact .inr (.inr (.inl ⟨by omega, .inl (by omega), .inl (by omega)⟩))
      · obtain rfl : δ = 128 := by omega
        exact .inr (.inr (.inl ⟨by omega, .inl (by omega), .inr ⟨by omega, by omega, by omega⟩⟩))
    · rintro (h | ⟨h, _⟩ | ⟨_, _, hlt | ⟨hhalf, hsq, hsq'⟩⟩ | ⟨_, _, hsq⟩)
      · omega
      · omega
      · exact .inl (by omega)
      · obtain rfl : δ = 128 := by omega
        exact .inr ⟨rfl, by omega⟩
      · have hpos : 0 < (δ : Int) * δ := Int.mul_pos (by omega) (by omega)
        rw [Int.neg_mul_neg] at hsq
        omega
  · obtain ⟨m, rfl, hm0, hm, hn⟩ := signed_two_negative hW hn0
    obtain ⟨δ, rfl, hδ0, hδ, hd⟩ := signed_one_negative hx hd0
    rw [hd, hn] at hlo hhi ⊢
    have hq : 2 * (m / δ) < 256 := by
      rw [Int.neg_tdiv, Int.tdiv_neg, neg_neg, ← Int.ofNat_tdiv] at hhi
      omega
    rw [same_negative_operands_iff hδ0 hm0 hδ hq (by omega)]
    constructor
    · intro hsq
      refine .inr (.inr (.inr ⟨by omega, rfl, ?_⟩))
      rw [Int.neg_mul_neg, hsq]
      push_cast
      rfl
    · rintro (h | ⟨h, _⟩ | ⟨_, h | h, _⟩ | ⟨_, _, hsq⟩)
      · omega
      · omega
      · omega
      · omega
      · rw [Int.neg_mul_neg] at hsq
        have hsq' : (m : Int) = (δ * δ : Nat) := by
          push_cast
          omega
        exact Int.ofNat_inj.mp hsq'

theorem exec_idiv_iff {t : State D} {w : Nat} {p : Ptr} {x : BitVec 32} (h : Loaded t w p x)
    (hw : w = 1 ∨ w = 2 ∨ w = 4) :
    let n := signed (2 * w) (Gprs.wide t.gpr w)
    let d := signed w x.toNat
    d ≠ 0 → -256 ^ w ≤ 2 * n.tdiv d → 2 * n.tdiv d < 256 ^ w →
      ∃ g, gprs (exec_idiv t) = .ok g ∧
        (g = Gprs.set_quotient t.gpr w (n.tdiv d) (n.tmod d) ↔ idiv_exact w n d) := by
  intro n d hd hlo hhi
  have hx : x.toNat ≠ 0 := by
    intro h0
    apply hd
    show signed w x.toNat = 0
    rw [h0, signed_zero]
  have hwide := wide_lt t.gpr hw
  rcases hw with rfl | rfl | rfl
  · have hfirst : signed 4 (Gprs.wide t.gpr 1) = Gprs.wide t.gpr 1 :=
      if_pos (show 2 * Gprs.wide t.gpr 1 < 256 ^ 4 by omega)
    refine ⟨_, exec_idiv_small h (.inl rfl) hx, ?_⟩
    rw [set_quotient_eq_iff _ (.inl rfl), hfirst]
    exact idiv_bytes_iff hwide h.bound hx hlo hhi
  · refine ⟨_, exec_idiv_small h (.inr rfl) hx, ?_⟩
    rw [set_quotient_eq_iff _ (.inr (.inl rfl))]
    exact idiv_words_iff h.bound hx hlo hhi
  · exact ⟨_, exec_idiv_four h hd hhi, fun _ => .inl rfl, fun _ => rfl⟩

/-! ## Section 3: The operand -/

/-- The value at a place, and the memory after a load. -/
def read_place (maps : List (Paddr.IOMap D)) (w : Nat) (s : State D) :
    Place → Except Fault (BitVec 32 × Paddr.Mem D)
  | .reg r => .ok (Gprs.part s.gpr w r, s.mem)
  | .mem a => vaddr_read maps a w s.mem

/-- Also from a device, a load has zeros in front. -/
theorem vaddr_read_lt {maps : List (Paddr.IOMap D)} {a v : BitVec 32} {len : Nat}
    {mem mem' : Paddr.Mem D} (h : vaddr_read maps a len mem = .ok (v, mem')) :
    v.toNat < 256 ^ len := by
  by_cases hlen : len ∈ Paddr.cpuWidths .x86
  -- A read gives bytes, from guest memory or from a device.
  · have hdata : ∀ data span m, Paddr.paddr_read .x86 maps a.toNat len mem = .ok (data, span, m) →
        data < 256 ^ len := by
      intro data span m hread
      cases hin : Paddr.in_pmem .x86 a.toNat with
      | true =>
        rw [Paddr.paddr_read_pmem maps mem hin hlen] at hread
        obtain ⟨rfl, _⟩ := Prod.mk.inj (Except.ok.inj hread)
        exact load_lt _ _ _
      | false =>
        cases hmap : Paddr.fetch_mmio_map maps a.toNat with
        | none =>
          rw [(Paddr.paddr_unmapped 0 mem hin hlen hmap).1] at hread
          cases hread
        | some map =>
          rw [Paddr.paddr_read_mmio mem hin hlen hmap] at hread
          cases hio : Paddr.invoke_callback map (a.toNat - map.low) len false mem.io with
          | error e =>
            rw [hio] at hread
            cases hread
          | ok io =>
            rw [hio] at hread
            obtain ⟨rfl, _⟩ := Prod.mk.inj (Except.ok.inj hread)
            exact Nat.mod_lt _ (Nat.pow_pos (by decide))
    simp only [vaddr_read, hlen, decide_true, cassert_true, ok_bind] at h
    cases hread : Paddr.paddr_read .x86 maps a.toNat len mem with
    | error e =>
      rw [hread] at h
      cases h
    | ok r =>
      rw [hread] at h
      obtain ⟨rfl, _⟩ := Prod.mk.inj (Except.ok.inj h)
      rw [BitVec.toNat_ofNat]
      exact Nat.lt_of_le_of_lt (Nat.mod_le _ _) (hdata r.1 r.2.1 r.2.2 hread)
  -- Other lengths are not read.
  · simp only [vaddr_read, hlen, decide_false] at h
    cases h

theorem decode_E_loads (maps : List (Paddr.IOMap D)) {s : State D} {w : Nat} {x : BitVec 32}
    {mem : Paddr.Mem D} (hw : w = 1 ∨ w = 2 ∨ w = 4) (hwidth : (s.op .dest).width = w)
    (hend : s.seq_pc.toNat + (code s).form_length ≤ PMEM_SIZE)
    (hx : read_place maps w s ((code s).place s.gpr) = .ok (x, mem)) :
    ∃ t p, decode_E maps s = .ok t ∧ t.gpr = s.gpr ∧ Loaded t w p x := by
  -- The operand is read once, while it is decoded.
  have hmem : (code s).mod ≠ 3 → vaddr_read maps ((code s).address s.gpr) w s.mem = .ok
      (x, mem) := by
    intro hmod
    rw [Code.place, if_neg hmod] at hx
    exact hx
  have hops : Operands s .dest none := by
    rw [← hwidth] at hw
    exact ⟨hw, fun q h => absurd h.symm (Option.some_ne_none q), by decide⟩
  obtain ⟨t, hrun, hdec⟩ := read_ModR_M_at maps .dest none true false hops hend
    (fun _ hmod => ⟨_, by rw [hwidth]; exact hmem hmod⟩)
  have hwidth' : (t.op .dest).width = w := (hdec.fetched.width .dest).trans hwidth
  have hgpr := hdec.fetched.gpr
  -- The operand is a register, or it was loaded into `val`.
  by_cases hmod : (code s).mod = 3
  · obtain ⟨hreg, _⟩ := hdec.rm_op.reg hmod
    rw [Code.place, if_pos hmod] at hx
    obtain ⟨rfl, _⟩ := Prod.mk.inj (Except.ok.inj hx)
    rw [← hgpr] at hreg
    obtain ⟨p, hpreg, hval, hplace⟩ := hreg.pointer
    rw [hwidth', hgpr] at hval
    refine ⟨t, p, hrun, hgpr, hwidth', hpreg, hval, ?_, part_lt s.gpr hw _⟩
    rcases hplace with hp | ⟨hfour, hp⟩
    · exact .inl hp
    · exact .inr ⟨hwidth'.symm.trans hfour, _, hp⟩
  · have hism := hdec.rm_op.mem hmod
    have hload := hism.val rfl
    rw [hwidth', hmem hmod] at hload
    have hval : x = (t.op .dest).val := (Prod.mk.inj (Except.ok.inj hload)).1
    exact ⟨t, .val .dest, hrun, hgpr, hwidth', hism.preg, hval.symm, .inl rfl,
      vaddr_read_lt (hmem hmod)⟩

/-! ## Section 4: The four instructions -/

def exec_acc (op : AccOp) (s : State D) : Except Fault (State D) :=
  match op with
  | .MUL => exec_mul s
  | .IMUL => exec_imul1 s
  | .DIV => exec_div s
  | .IDIV => exec_idiv s

/-- Zeros in front of the operands do no harm. -/
def sign_exact (op : AccOp) (w : Nat) (x : BitVec 32) (g : Gprs) : Prop :=
  match op with
  | .MUL => True
  | .IMUL => imul_exact w (signed w (g.part w EAX).toNat) (signed w x.toNat)
  | .DIV => True
  | .IDIV => idiv_exact w (signed (2 * w) (g.wide w)) (signed w x.toNat)

theorem exec_acc_iff (op : AccOp) {t : State D} {w : Nat} {p : Ptr} {x : BitVec 32} {g : Gprs}
    (h : Loaded t w p x) (hw : w = 1 ∨ w = 2 ∨ w = 4) (hg : op.result w x t.gpr = some g) :
    ∃ u, exec_acc op t = .ok u ∧ (u.gpr = g ↔ sign_exact op w x t.gpr) := by
  -- The registers come from a state.
  have hrun : ∀ {r : Except Fault (State D)} {g'}, gprs r = .ok g' → ∃ u, r = .ok u ∧
      u.gpr = g' := by
    intro r g' hr
    cases r with
    | error e => cases hr
    | ok u => exact ⟨u, rfl, Except.ok.inj hr⟩
  cases op with
  | MUL =>
    obtain ⟨u, hu, hgpr⟩ := hrun (exec_mul_correct h hw)
    exact ⟨u, hu, fun _ => trivial, fun _ => hgpr.trans (Option.some.inj hg)⟩
  -- Only the signed operations can differ from the result.
  | IMUL =>
    obtain ⟨g', hg', hiff⟩ := exec_imul1_iff h hw
    obtain ⟨u, hu, hgpr⟩ := hrun hg'
    refine ⟨u, hu, ?_⟩
    rw [hgpr, ← Option.some.inj hg]
    exact hiff
  | DIV =>
    by_cases hfits : x.toNat ≠ 0 ∧ Gprs.wide t.gpr w / x.toNat < 256 ^ w
    · obtain ⟨u, hu, hgpr⟩ := hrun (exec_div_correct h hw hfits.1)
      have hg' := (if_pos hfits).symm.trans hg
      exact ⟨u, hu, fun _ => trivial, fun _ => hgpr.trans (Option.some.inj hg')⟩
    · cases (if_neg hfits).symm.trans hg
  | IDIV =>
    by_cases hfits : signed w x.toNat ≠ 0 ∧
        -256 ^ w ≤ 2 * (signed (2 * w) (Gprs.wide t.gpr w)).tdiv (signed w x.toNat) ∧
        2 * (signed (2 * w) (Gprs.wide t.gpr w)).tdiv (signed w x.toNat) < 256 ^ w
    · obtain ⟨g', hg', hiff⟩ := exec_idiv_iff h hw hfits.1 hfits.2.1 hfits.2.2
      obtain ⟨u, hu, hgpr⟩ := hrun hg'
      have hg'' := (if_pos hfits).symm.trans hg
      refine ⟨u, hu, ?_⟩
      rw [hgpr, ← Option.some.inj hg'']
      exact hiff
    · cases (if_neg hfits).symm.trans hg

/-- For every width, register state and operand. -/
theorem muldiv_exact_iff (maps : List (Paddr.IOMap D)) (op : AccOp) {s : State D} {w : Nat}
    {x : BitVec 32} {mem : Paddr.Mem D} {g : Gprs} (hw : w = 1 ∨ w = 2 ∨ w = 4)
    (hwidth : (s.op .dest).width = w)
    (hend : s.seq_pc.toNat + (code s).form_length ≤ PMEM_SIZE)
    (hx : read_place maps w s ((code s).place s.gpr) = .ok (x, mem))
    (hg : op.result w x s.gpr = some g) :
    ∃ t u, decode_E maps s = .ok t ∧ exec_acc op t = .ok u ∧
      (u.gpr = g ↔ sign_exact op w x s.gpr) := by
  obtain ⟨t, p, hdecode, hgpr, hloaded⟩ := decode_E_loads maps hw hwidth hend hx
  rw [← hgpr] at hg ⊢
  obtain ⟨u, hexec, hiff⟩ := exec_acc_iff op hloaded hw hg
  exact ⟨t, u, hdecode, hexec, hiff⟩

/-- The operand at `0x100` is `bl`, with `ax` and `bl` given. -/
def bl_state (ax bl : BitVec 32) : State Unit :=
  { sib_state with
    gpr := fun r => if r = R_EAX then ax else if r = 3 then bl else 0
    mem := { Paddr.zeroMem with pmem := store Paddr.zeroMem.pmem 0x100 0xeb 1 }
    op  := fun _ => ⟨.OP_TYPE_IMM, 1, 0, none, 0⟩ }

/-- `-100` by 4, which divides it and 256. -/
theorem muldiv_exact_idiv :
    ∃ t u, decode_E [] (bl_state 0xff9c 4) = .ok t ∧ exec_acc .IDIV t = .ok u ∧
      (u.gpr = Gprs.set_quotient (bl_state 0xff9c 4).gpr 1 (-25) 0 ↔
        sign_exact .IDIV 1 4 (bl_state 0xff9c 4).gpr) :=
  muldiv_exact_iff [] .IDIV (x := 4) (.inl rfl) rfl (by decide) rfl rfl

/-- The operand is used with zeros in front where its sign matters. -/
theorem exec_acc_wrong (op : AccOp) {s : State Unit} {w : Nat} {x : BitVec 32} {g : Gprs}
    (hw : w = 1 ∨ w = 2 ∨ w = 4) (hwidth : (s.op .dest).width = w)
    (hend : s.seq_pc.toNat + (code s).form_length ≤ PMEM_SIZE)
    (hx : read_place [] w s ((code s).place s.gpr) = .ok (x, s.mem))
    (hg : op.result w x s.gpr = some g) (hno : ¬ sign_exact op w x s.gpr) :
    ∃ t u g, decode_E [] s = .ok t ∧ exec_acc op t = .ok u ∧
      op.result w x s.gpr = some g ∧ u.gpr ≠ g := by
  obtain ⟨t, p, hdecode, hgpr, hloaded⟩ := decode_E_loads [] hw hwidth hend hx
  obtain ⟨u, hexec, hiff⟩ := exec_acc_iff op hloaded hw (by rw [hgpr]; exact hg)
  rw [hgpr] at hiff
  exact ⟨t, u, g, hdecode, hexec, hg, fun heq => hno (hiff.mp heq)⟩

/-- `-1` times `-1` is not 1, and `-10` by 3 is not `-3` with the rest `-1`. -/
theorem imul1_idiv_bytes_not_signed :
    (∃ t u g, decode_E [] (bl_state 0xff 0xff) = .ok t ∧ exec_acc .IMUL t = .ok u ∧
      AccOp.IMUL.result 1 0xff (bl_state 0xff 0xff).gpr = some g ∧ u.gpr ≠ g) ∧
    (∃ t u g, decode_E [] (bl_state 0xfff6 3) = .ok t ∧ exec_acc .IDIV t = .ok u ∧
      AccOp.IDIV.result 1 3 (bl_state 0xfff6 3).gpr = some g ∧ u.gpr ≠ g) := by
  constructor
  · apply exec_acc_wrong .IMUL (.inl rfl) rfl (by decide) rfl rfl
    unfold sign_exact imul_exact
    decide
  · apply exec_acc_wrong .IDIV (g := Gprs.set_quotient (bl_state 0xfff6 3).gpr 1 (-3) (-1))
      (.inl rfl) rfl (by decide) rfl rfl
    unfold sign_exact idiv_exact
    decide

end Nemu.X86
