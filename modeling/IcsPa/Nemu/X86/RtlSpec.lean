import IcsPa.Nemu.X86.Rtl
import IcsPa.Nemu.Paddr.History

/-! # What RTL instructions do

    Registers and their parts are those of the i386, a pointer keeps its word
    while others are written, and an access inside `pmem` is a load or a
    store. -/

open CCall Bytes I386

namespace Nemu.X86

variable {D : Type}

/-! ## Section 1: Pointers -/

/-- Replace the registers. -/
def State.with_gpr (s : State D) (g : Gprs) : State D := { s with gpr := g }

@[simp] theorem get_with_gpr_tmp (s : State D) (g : Gprs) (i : Fin 4) :
    (s.with_gpr g).get (.tmp i) = s.get (.tmp i) := rfl

@[simp] theorem get_with_gpr_val (s : State D) (g : Gprs) (q : OpName) :
    (s.with_gpr g).get (.val q) = s.get (.val q) := rfl

@[simp] theorem gpr_with_gpr (s : State D) (g : Gprs) : (s.with_gpr g).gpr = g := rfl

@[simp] theorem get_put_tmp (s : State D) (i : Fin 4) (v : BitVec 32) :
    (s.put (.tmp i) v).get (.tmp i) = v := by
  simp [State.get, State.put]

@[simp] theorem get_put_tmp_val (s : State D) (i : Fin 4) (v : BitVec 32) (q : OpName) :
    (s.put (.tmp i) v).get (.val q) = s.get (.val q) := rfl

@[simp] theorem gpr_put_tmp (s : State D) (i : Fin 4) (v : BitVec 32) :
    (s.put (.tmp i) v).gpr = s.gpr := rfl

@[simp] theorem op_put_tmp (s : State D) (i : Fin 4) (v : BitVec 32) :
    (s.put (.tmp i) v).op = s.op := rfl

/-- Temporaries do not change the operand. -/
theorem get_put_tmp_of {p : Ptr} (hp : ∀ i, p ≠ .tmp i) (s : State D) (i : Fin 4) (v : BitVec 32) :
    (s.put (.tmp i) v).get p = s.get p := by
  cases p with
  | tmp j => exact absurd rfl (hp j)
  | gpr r => rfl
  | val q => rfl
  | mbr => rfl
  | rz => rfl

theorem put_gpr (s : State D) (r : Fin 8) (v : BitVec 32) :
    s.put (.gpr r) v = s.with_gpr (Gprs.set_part s.gpr 4 r v) := by
  rw [set_part_four]
  rfl

/-- A word behind another pointer stays. -/
theorem get_put_gpr_ne {q : Ptr} {r : Fin 8} (hq : q ≠ .gpr r) (s : State D) (v : BitVec 32) :
    (s.put (.gpr r) v).get q = s.get q := by
  cases q with
  | gpr r' => exact Function.update_of_ne (fun he => hq (congrArg Ptr.gpr he)) _ _
  | tmp j => rfl
  | val q => rfl
  | mbr => rfl
  | rz => rfl

/-! ## Section 2: Registers -/

/-- Where `reg_b` finds a byte. -/
theorem byte_home (r : Fin 8) : (r &&& 3) = home 1 r ∧ 8 * (r.val >>> 2) = first_bit 1 r := by
  revert r
  decide

theorem reg_b_eq (s : State D) (r : Fin 8) : reg_b s r = Gprs.part s.gpr 1 r := by
  unfold reg_b Gprs.part
  rw [(byte_home r).1, (byte_home r).2]

theorem reg_w_eq (s : State D) (r : Fin 8) : reg_w s r = Gprs.part s.gpr 2 r := rfl

theorem part_four (g : Gprs) (r : Fin 8) : g.part 4 r = g r := field_all (g r)

theorem rtl_lr_tmp (i : Fin 4) (r : Fin 8) {w : Nat} (hw : w = 1 ∨ w = 2 ∨ w = 4) (s : State D) :
    rtl_lr (.tmp i) r w s = .ok (s.put (.tmp i) (Gprs.part s.gpr w r)) := by
  rcases hw with rfl | rfl | rfl
  · rw [← reg_b_eq]
    rfl
  · rfl
  · have hzero : s.get (.gpr r) + s.get .rz = s.gpr r := BitVec.add_zero _
    rw [part_four]
    simp [rtl_lr, rtl_mv, rtl_add, hzero]

theorem rtl_sr_eq (r : Fin 8) (p : Ptr) {w : Nat} (hw : w = 1 ∨ w = 2 ∨ w = 4) (s : State D) :
    rtl_sr r p w s = .ok (s.with_gpr (Gprs.set_part s.gpr w r (s.get p))) := by
  rcases hw with rfl | rfl | rfl
  · simp only [rtl_sr, set_reg_b, (byte_home r).1, (byte_home r).2]
    rfl
  · rfl
  · rw [set_part_four]
    -- `rtl_mv` of a register to itself does nothing.
    by_cases hp : p = .gpr r
    · subst hp
      have hsame : Function.update s.gpr r (s.get (.gpr r)) = s.gpr :=
        Function.update_eq_self r s.gpr
      simp [rtl_sr, rtl_mv, hsame, State.with_gpr]
    · have hzero : s.get p + s.get .rz = s.get p := BitVec.add_zero _
      simp only [rtl_sr, rtl_mv, rtl_add, hzero]
      rw [if_pos (fun h => hp h.symm)]
      rfl

theorem rtl_mv_tmp {p : Ptr} {i : Fin 4} (hp : p ≠ .tmp i) (s : State D) :
    rtl_mv (.tmp i) p s = s.put (.tmp i) (s.get p) := by
  have hzero : s.get p + s.get .rz = s.get p := BitVec.add_zero _
  rw [rtl_mv, if_pos hp.symm, rtl_add, hzero]

/-! ## Section 3: Memory -/

section memory
variable (maps : List (Paddr.IOMap D))

theorem widths_x86 (len : Nat) : len ∈ Paddr.cpuWidths .x86 ↔ len = 1 ∨ len = 2 ∨ len = 4 := by
  simp [Paddr.cpuWidths, Isa.isa64]

/-- The access is to a CPU width and ends inside `pmem`. -/
def Fits (a : BitVec 32) (len : Nat) : Prop :=
  (len = 1 ∨ len = 2 ∨ len = 4) ∧ a.toNat + len ≤ PMEM_SIZE

theorem Fits.in_pmem {a : BitVec 32} {len : Nat} (h : Fits a len) :
    Paddr.in_pmem .x86 a.toNat = true := by
  obtain ⟨hlen, hend⟩ := h
  have hbase : Isa.x86.pmemBase = 0 := rfl
  rw [Paddr.in_pmem_iff, hbase]
  omega

theorem vaddr_read_pmem {a : BitVec 32} {len : Nat} (h : Fits a len) (mem : Paddr.Mem D) :
    vaddr_read maps a len mem = .ok (BitVec.ofNat 32 (load mem.pmem a.toNat len), mem) := by
  have hlen := (widths_x86 len).mpr h.1
  simp only [vaddr_read, hlen, decide_true, cassert_true, ok_bind,
    Paddr.paddr_read_pmem maps mem h.in_pmem hlen]
  rfl

theorem vaddr_ifetch_pmem {a : BitVec 32} {len : Nat} (h : Fits a len) (mem : Paddr.Mem D) :
    vaddr_ifetch maps a len mem = .ok (BitVec.ofNat 32 (load mem.pmem a.toNat len), mem) := by
  obtain ⟨hlen, hend⟩ := h
  rw [vaddr_ifetch, if_neg (by omega)]
  exact vaddr_read_pmem maps ⟨hlen, hend⟩ mem

theorem vaddr_ifetch_eq_ok {a : BitVec 32} {len : Nat} {mem : Paddr.Mem D}
    {r : BitVec 32 × Paddr.Mem D} (h : vaddr_ifetch maps a len mem = .ok r) :
    vaddr_read maps a len mem = .ok r := by
  unfold vaddr_ifetch at h
  split at h
  · cases h
  · exact h

theorem vaddr_write_pmem {a : BitVec 32} {len : Nat} (h : Fits a len) (v : BitVec 32)
    (mem : Paddr.Mem D) :
    vaddr_write maps a v len mem = .ok { mem with pmem := store mem.pmem a.toNat v.toNat len } := by
  have hlen := (widths_x86 len).mpr h.1
  simp only [vaddr_write, hlen, decide_true, cassert_true, ok_bind,
    Paddr.paddr_write_pmem maps v.toNat mem h.in_pmem hlen]
  rfl

/-- A read at `a` returns: it is in guest memory, or a device takes it. -/
def can_read (mem : Paddr.Mem D) (a : BitVec 32) (len : Nat) : Bool :=
  Paddr.in_pmem .x86 a.toNat ||
    match Paddr.fetch_mmio_map maps a.toNat with
    | none => false
    | some map =>
        match map.callback with
        | none => true
        | some c => (c (a.toNat - map.low) len false mem.io).isSome

theorem can_read_iff {len : Nat} (hlen : len = 1 ∨ len = 2 ∨ len = 4) (mem : Paddr.Mem D)
    (a : BitVec 32) :
    can_read maps mem a len = true ↔ ∃ r, vaddr_read maps a len mem = .ok r := by
  have hwidth := (widths_x86 len).mpr hlen
  unfold can_read
  simp only [vaddr_read, hwidth, decide_true, cassert_true, ok_bind]
  cases hin : Paddr.in_pmem .x86 a.toNat with
  | true =>
    rw [Paddr.paddr_read_pmem maps mem hin hwidth]
    exact ⟨fun _ => ⟨_, rfl⟩, fun _ => rfl⟩
  | false =>
    rw [Bool.false_or]
    cases hmap : Paddr.fetch_mmio_map maps a.toNat with
    | none =>
      rw [(Paddr.paddr_unmapped 0 mem hin hwidth hmap).1]
      constructor
      · intro h
        cases h
      · rintro ⟨r, h⟩
        cases h
    | some map =>
      rw [Paddr.paddr_read_mmio mem hin hwidth hmap]
      dsimp only
      -- The device decides.
      unfold Paddr.invoke_callback
      cases map.callback with
      | none => exact ⟨fun _ => ⟨_, rfl⟩, fun _ => rfl⟩
      | some c =>
        dsimp only
        cases c (a.toNat - map.low) len false mem.io with
        | some io => exact ⟨fun _ => ⟨_, rfl⟩, fun _ => rfl⟩
        | none =>
          constructor
          · intro h
            cases h
          · rintro ⟨r, h⟩
            cases h

/-- A fetch at `a` returns. -/
def can_fetch (mem : Paddr.Mem D) (a : BitVec 32) (len : Nat) : Bool :=
  can_read maps mem a len &&
    !(Paddr.in_pmem .x86 a.toNat && decide (PMEM_SIZE < a.toNat + len))

theorem rtl_lm_pmem {dest addr : Ptr} {offset : BitVec 32} {len : Nat} {s : State D}
    (h : Fits (s.get addr + offset) len) :
    rtl_lm maps dest addr offset len s = .ok (s.put dest
      (BitVec.ofNat 32 (load s.mem.pmem (s.get addr + offset).toNat len))) := by
  simp only [rtl_lm, vaddr_read_pmem maps h, ok_bind]
  rfl

theorem rtl_sm_pmem {addr src : Ptr} {offset : BitVec 32} {len : Nat} {s : State D}
    (h : Fits (s.get addr + offset) len) :
    rtl_sm maps addr offset src len s = .ok { s with mem := { s.mem with
      pmem := store s.mem.pmem (s.get addr + offset).toNat (s.get src).toNat len } } := by
  simp only [rtl_sm, vaddr_write_pmem maps h, ok_bind]
  rfl

end memory

end Nemu.X86
