import IcsPa.Nemu.Paddr.History
import IcsPa.Nemu.Riscv.Exec

/-! # One instruction is one step of RISC-V

    The immediates are put together from the bit-fields as the formats say,
    an access inside `pmem` is a load or a store, and register 0, which the
    code writes like any other, is zero again after every instruction. -/

open CCall Bytes

namespace Nemu.Riscv

variable {v : Variant} {D : Type}

/-! ## Section 1: Fields and immediates -/

/-- The two opcode fields are the opcode. -/
theorem opcode_fields (instr : BitVec 32) :
    opcode1_0 instr = (RV.opcode instr).toNat % 4 ∧
      opcode6_2 instr = (RV.opcode instr).toNat / 4 := by
  unfold opcode1_0 opcode6_2 RV.opcode
  simp only [BitVec.extractLsb'_toNat, Nat.shiftRight_eq_div_pow]
  omega

theorem check_reg_field (instr : BitVec 32) (first : Nat) :
    check_reg_index ((instr.extractLsb' first 5).setWidth 32).toNat =
      .ok (RV.reg_field instr first) := by
  have hlt : (instr.extractLsb' first 5).toNat < 32 := (instr.extractLsb' first 5).isLt
  have hwide : ((instr.extractLsb' first 5).setWidth 32).toNat =
      (instr.extractLsb' first 5).toNat := by
    rw [BitVec.toNat_setWidth]
    exact Nat.mod_eq_of_lt (by omega)
  rw [check_reg_index, dif_pos (by omega)]
  exact congrArg Except.ok (Fin.ext hwide)

/-- Extending in two steps is extending at once. -/
theorem of_int_signExtend {w : Nat} (x : BitVec w) (hw : w ≤ 32) (v : Variant) :
    of_int v (x.signExtend 32) = x.signExtend v.bits := by
  show BitVec.ofInt v.bits (x.signExtend 32).toInt = BitVec.ofInt v.bits x.toInt
  rw [BitVec.toInt_signExtend_of_le hw]

/-- The immediate of a store, from its two fields. -/
theorem S_imm_eq (instr : BitVec 32) :
    simm11_5 instr <<< 5 ||| imm4_0 instr = (RV.imm_S instr).signExtend 32 := by
  apply BitVec.eq_of_getLsbD_eq
  intro i hi
  simp only [simm11_5, imm4_0, RV.imm_S, BitVec.getLsbD_or, BitVec.getLsbD_shiftLeft,
    BitVec.getLsbD_signExtend, BitVec.getLsbD_setWidth, BitVec.getLsbD_append, BitVec.msb_append,
    BitVec.getLsbD_extractLsb', hi, decide_true, Bool.true_and]
  by_cases hlow : i < 5
  · have h12 : i < 12 := by omega
    simp [hlow, h12]
  · by_cases hmid : i < 12
    · have h7 : i - 5 < 7 := by omega
      have h32 : i - 5 < 32 := by omega
      simp [hlow, hmid, h7, h32]
    · have h7 : ¬ i - 5 < 7 := by omega
      have h32 : i - 5 < 32 := by omega
      simp [hlow, hmid, h7, h32]

/-- The immediate of `LUI`. -/
theorem U_imm_eq (v : Variant) (instr : BitVec 32) :
    U_imm v instr = (RV.imm_U instr ++ 0#12).signExtend v.bits := by
  cases v with
  | riscv32 =>
    apply BitVec.eq_of_getLsbD_eq
    intro i hi
    have hi : i < 32 := hi
    have h20 : i - 12 < 32 := by omega
    simp only [U_imm, imm31_12, RV.imm_U, BitVec.getLsbD_shiftLeft, BitVec.getLsbD_signExtend,
      BitVec.getLsbD_setWidth, BitVec.getLsbD_append, hi, h20, decide_true, Bool.true_and, if_true]
    by_cases hlow : i < 12 <;> simp [hlow]
  | riscv64 =>
    show of_int .riscv64 (simm31_12 instr) <<< 12 = _
    rw [simm31_12, of_int_signExtend _ (by decide)]
    apply BitVec.eq_of_getLsbD_eq
    intro i hi
    have hi : i < 64 := hi
    have h20 : i - 12 < 64 := by omega
    simp only [RV.imm_U, BitVec.getLsbD_shiftLeft, BitVec.getLsbD_signExtend, BitVec.getLsbD_append,
      BitVec.msb_append, hi, h20, decide_true, Bool.true_and]
    by_cases hlow : i < 12
    · have h32 : i < 32 := by omega
      simp [hlow, h32]
    · by_cases hmid : i < 32
      · have h20 : i - 12 < 20 := by omega
        simp [hlow, hmid, h20]
      · have h20 : ¬ i - 12 < 20 := by omega
        simp [hlow, hmid, h20]

/-! ## Section 2: Accesses inside `pmem` -/

/-- The bytes of a `word_t`. -/
theorem Variant.bytes_mem (v : Variant) :
    v.bits / 8 ∈ Paddr.cpuWidths v.isa ∧ 4 ∈ Paddr.cpuWidths v.isa ∧
    v.bits / 8 ∈ ldst_widths v := by
  cases v <;> decide

section memory
variable (maps : List (Paddr.IOMap D))

/-- The whole range is in `pmem`. -/
def Fits (addr : word_t v) (len : Nat) : Prop := RV.InRam v.isa.pmemBase PMEM_SIZE addr len

theorem Fits.in_pmem {addr : word_t v} {len : Nat} (h : Fits addr len)
    (hlen : len ∈ Paddr.cpuWidths v.isa) : Paddr.in_pmem v.isa (to_paddr addr) = true := by
  have hlo : v.isa.pmemBase ≤ to_paddr addr := h.1
  have hhi : to_paddr addr + len ≤ v.isa.pmemBase + PMEM_SIZE := h.2
  have hpos := (Paddr.cpuWidths_bounds hlen).1
  rw [Paddr.in_pmem_iff]
  omega

theorem vaddr_read_pmem {addr : word_t v} {len : Nat} (h : Fits addr len)
    (hlen : len ∈ Paddr.cpuWidths v.isa) (mem : Paddr.Mem D) :
    vaddr_read maps addr len mem =
      .ok (BitVec.ofNat v.bits (load mem.pmem (RV.phys addr - v.isa.pmemBase) len), mem) := by
  simp only [vaddr_read, hlen, decide_true, cassert_true, ok_bind,
    Paddr.paddr_read_pmem maps mem (h.in_pmem hlen) hlen]
  rfl

theorem vaddr_write_pmem {addr : word_t v} {len : Nat} (h : Fits addr len)
    (hlen : len ∈ Paddr.cpuWidths v.isa) (data : word_t v) (mem : Paddr.Mem D) :
    vaddr_write maps addr data len mem =
      .ok { mem with pmem := store mem.pmem (RV.phys addr - v.isa.pmemBase) data.toNat len } := by
  simp only [vaddr_write, hlen, decide_true, cassert_true, ok_bind,
    Paddr.paddr_write_pmem maps data.toNat mem (h.in_pmem hlen) hlen]
  rfl

/-- The instruction at an address of `pmem`. -/
def instr_at (s : State v D) (addr : word_t v) : BitVec 32 :=
  BitVec.ofNat 32 (load s.mem.pmem (RV.phys addr - v.isa.pmemBase) 4)

theorem instr_fetch_pmem {s : State v D} (h : Fits s.seq_pc 4) :
    instr_fetch maps 4 s = .ok (instr_at s s.seq_pc, { s with seq_pc := s.seq_pc + 4 }) := by
  have hwidth : 32 ≤ v.bits := by cases v <;> decide
  have hcode : ∀ k, (BitVec.ofNat v.bits k).setWidth 32 = BitVec.ofNat 32 k := by
    intro k
    apply BitVec.eq_of_toNat_eq
    rw [BitVec.toNat_setWidth, BitVec.toNat_ofNat, BitVec.toNat_ofNat,
      Nat.mod_mod_of_dvd _ (Nat.pow_dvd_pow 2 hwidth)]
  rw [instr_fetch, vaddr_read_pmem maps h v.bytes_mem.2.1, ok_bind]
  simp only [hcode]
  rfl

/-! ## Section 3: The operands -/

/-- Decoding changes the operands only. -/
structure Decoded (s u : State v D) : Prop where
  gpr        : u.gpr = s.gpr
  mem        : u.mem = s.mem
  seq_pc     : u.seq_pc = s.seq_pc
  is_jmp     : u.is_jmp = s.is_jmp
  nemu_state : u.nemu_state = s.nemu_state
  instr      : u.instr = s.instr

theorem decode_I_spec (s : State v D) :
    ∃ u, decode_I s = .ok u ∧ Decoded s u ∧ u.src1.preg = some (RV.reg_field s.instr 15) ∧
      u.src2.imm = (RV.imm_I s.instr).signExtend v.bits ∧
      u.dest.preg = some (RV.reg_field s.instr 7) := by
  have himm : of_int v (simm11_0 s.instr) = (RV.imm_I s.instr).signExtend v.bits :=
    of_int_signExtend _ (by decide) v
  rw [decode_I, decode_op_r, rs1, check_reg_field, ok_bind, himm]
  simp only [decode_op_r, rd, check_reg_field, ok_bind]
  exact ⟨_, rfl, ⟨rfl, rfl, rfl, rfl, rfl, rfl⟩, rfl, rfl, rfl⟩

theorem decode_U_spec (s : State v D) :
    ∃ u, decode_U s = .ok u ∧ Decoded s u ∧
      u.src1.imm = (RV.imm_U s.instr ++ 0#12).signExtend v.bits ∧
      u.dest.preg = some (RV.reg_field s.instr 7) := by
  rw [← U_imm_eq, decode_U, decode_op_r, rd, check_reg_field, ok_bind]
  exact ⟨_, rfl, ⟨rfl, rfl, rfl, rfl, rfl, rfl⟩, rfl, rfl⟩

theorem decode_S_spec (s : State v D) :
    ∃ u, decode_S s = .ok u ∧ Decoded s u ∧ u.src1.preg = some (RV.reg_field s.instr 15) ∧
      u.src2.imm = (RV.imm_S s.instr).signExtend v.bits ∧
      u.dest.preg = some (RV.reg_field s.instr 20) := by
  have himm : of_int v (simm11_5 s.instr <<< 5 ||| imm4_0 s.instr) =
      (RV.imm_S s.instr).signExtend v.bits := by
    rw [S_imm_eq]
    exact of_int_signExtend _ (by decide) v
  rw [decode_S, decode_op_r, rs1, check_reg_field, ok_bind, himm]
  simp only [decode_op_r, rs2, check_reg_field, ok_bind]
  exact ⟨_, rfl, ⟨rfl, rfl, rfl, rfl, rfl, rfl⟩, rfl, rfl, rfl⟩

/-! ## Section 4: One instruction -/

/-- The guest's view of the state. -/
def State.hart (s : State v D) : RV.Hart v.bits := ⟨s.gpr, s.pc, s.mem.pmem⟩

theorem reg_hart {s : State v D} (h0 : s.gpr 0 = 0) (r : Fin 32) : s.hart.reg r = s.gpr r := by
  unfold RV.Hart.reg
  split
  · rename_i hr
    rw [hr, h0]
  · rfl

/-- Register 0 is repaired after any write. -/
theorem set_reg_hart {s : State v D} (h0 : s.gpr 0 = 0) (r : Fin 32) (x : word_t v) :
    (s.hart.set_reg r x).x = Function.update (Function.update s.gpr r x) 0 0 := by
  unfold RV.Hart.set_reg
  split
  · rename_i hr
    rw [hr, Function.update_idem]
    exact (Function.update_eq_self_iff.mpr h0.symm).symm
  · rename_i hr
    have hzero : Function.update s.gpr r x 0 = 0 := by
      rw [Function.update_of_ne (fun he => hr he.symm), h0]
    exact (Function.update_eq_self_iff.mpr hzero.symm).symm

theorem set_reg_ram (h : RV.Hart v.bits) (r : Fin 32) (x : word_t v) :
    (h.set_reg r x).ram = h.ram := by
  unfold RV.Hart.set_reg
  split <;> rfl

/-- What the execution of `i` leaves before register 0 is reset. -/
structure Executed (s t : State v D) (i : RV.Instr) : Prop where
  x          : Function.update t.gpr 0 0 = (i.exec v.isa.pmemBase s.hart).x
  mem        : t.mem = { s.mem with pmem := (i.exec v.isa.pmemBase s.hart).ram }
  seq_pc     : t.seq_pc = s.seq_pc
  is_jmp     : t.is_jmp = s.is_jmp
  nemu_state : t.nemu_state = s.nemu_state

/-- `rz` is zero. -/
theorem rtl_li_eq (dest : Fin 32) (imm : word_t v) (s : State v D) :
    rtl_li dest imm s = s.put dest imm :=
  congrArg (s.put dest) (BitVec.zero_add imm)

/-- The load and the store of a whole register have the width of a `word_t`. -/
theorem exec_load_word {s : State v D} (h : RV.funct3 s.instr = RV.width_funct3 v.bits) :
    exec_load maps s = exec_ld maps { s with width := v.bits / 8 } := by
  have hf : funct3 s.instr = (RV.width_funct3 v.bits).toNat := congrArg BitVec.toNat h
  cases v with
  | riscv32 =>
    have hf : funct3 s.instr = 2 := hf
    simp only [exec_load, hf]
    rfl
  | riscv64 =>
    have hf : funct3 s.instr = 3 := hf
    simp only [exec_load, hf]
    rfl

theorem exec_store_word {s : State v D} (h : RV.funct3 s.instr = RV.width_funct3 v.bits) :
    exec_store maps s = exec_st maps { s with width := v.bits / 8 } := by
  have hf : funct3 s.instr = (RV.width_funct3 v.bits).toNat := congrArg BitVec.toNat h
  cases v with
  | riscv32 =>
    have hf : funct3 s.instr = 2 := hf
    simp only [exec_store, hf]
    rfl
  | riscv64 =>
    have hf : funct3 s.instr = 3 := hf
    simp only [exec_store, hf]
    rfl

theorem rtl_lm_pmem {s : State v D} (dest : Fin 32) {addr : Fin 32} {offset : word_t v} {len : Nat}
    (h : Fits (s.gpr addr + offset) len) (hlen : len ∈ Paddr.cpuWidths v.isa) :
    rtl_lm maps dest addr offset len s = .ok (s.put dest (BitVec.ofNat v.bits
      (load s.mem.pmem (RV.phys (s.gpr addr + offset) - v.isa.pmemBase) len))) := by
  rw [rtl_lm, vaddr_read_pmem maps h hlen, ok_bind]
  rfl

/-- Replace `pmem`. -/
def State.with_pmem (s : State v D) (m : Store) : State v D :=
  { s with mem := { s.mem with pmem := m } }

theorem rtl_sm_pmem {s : State v D} (src : Fin 32) {addr : Fin 32} {offset : word_t v} {len : Nat}
    (h : Fits (s.gpr addr + offset) len) (hlen : len ∈ Paddr.cpuWidths v.isa) :
    rtl_sm maps addr offset src len s =
      .ok (s.with_pmem (store s.mem.pmem (RV.phys (s.gpr addr + offset) - v.isa.pmemBase)
        (s.gpr src).toNat len)) := by
  rw [rtl_sm, vaddr_write_pmem maps h hlen, ok_bind]
  rfl

/-- A load through pointers that are set. -/
theorem exec_ld_eq {s : State v D} {rd rs1 : Fin 32} (hd : s.dest.preg = some rd)
    (hs : s.src1.preg = some rs1) (hw : s.width = v.bits / 8)
    (hfit : Fits (s.gpr rs1 + s.src2.imm) (v.bits / 8)) :
    exec_ld maps s = .ok (s.put rd (BitVec.ofNat v.bits
      (load s.mem.pmem (RV.phys (s.gpr rs1 + s.src2.imm) - v.isa.pmemBase) (v.bits / 8)))) := by
  have hlm := rtl_lm_pmem maps rd hfit v.bytes_mem.1
  have hcase : decide (s.width ∈ ldst_widths v) = true := by
    rw [hw]
    exact decide_eq_true v.bytes_mem.2.2
  rw [exec_ld, hd, hs, deref, ok_bind, deref, ok_bind]
  show (rtl_lm maps rd rs1 s.src2.imm s.width s >>= fun s' =>
    cassert (decide (s'.width ∈ ldst_widths v)) >>= fun _ => pure s') = _
  rw [hw, hlm, ok_bind]
  show (cassert (decide (s.width ∈ ldst_widths v)) >>= fun _ => pure _) = _
  rw [hcase]
  rfl

theorem exec_st_eq {s : State v D} {rs2 rs1 : Fin 32} (hd : s.dest.preg = some rs2)
    (hs : s.src1.preg = some rs1) (hw : s.width = v.bits / 8)
    (hfit : Fits (s.gpr rs1 + s.src2.imm) (v.bits / 8)) :
    exec_st maps s = .ok (s.with_pmem (store s.mem.pmem
      (RV.phys (s.gpr rs1 + s.src2.imm) - v.isa.pmemBase) (s.gpr rs2).toNat (v.bits / 8))) := by
  have hsm := rtl_sm_pmem maps rs2 hfit v.bytes_mem.1
  have hcase : decide (s.width ∈ ldst_widths v) = true := by
    rw [hw]
    exact decide_eq_true v.bytes_mem.2.2
  rw [exec_st, hs, hd, deref, ok_bind, deref, ok_bind]
  show (rtl_sm maps rs1 s.src2.imm rs2 s.width s >>= fun s' =>
    cassert (decide (s'.width ∈ ldst_widths v)) >>= fun _ => pure s') = _
  rw [hw, hsm, ok_bind]
  show (cassert (decide (s.width ∈ ldst_widths v)) >>= fun _ => pure _) = _
  rw [hcase]
  rfl

section instructions
variable {s : State v D} (h0 : s.gpr 0 = 0)
include h0

/-- The registers name the same address on both sides. -/
theorem address_hart (r : Fin 32) (imm : BitVec 12) :
    s.hart.address r imm = s.gpr r + imm.signExtend v.bits := by
  rw [RV.Hart.address, reg_hart h0]

theorem exec_lui_spec :
    ∃ t, case_entry decode_U exec_lui 0 s = .ok t ∧
      Executed s t (.lui (RV.reg_field s.instr 7) (RV.imm_U s.instr)) := by
  obtain ⟨u, hdecode, hu, himm, hdest⟩ := decode_U_spec s
  refine ⟨u.put (RV.reg_field s.instr 7) ((RV.imm_U s.instr ++ 0#12).signExtend v.bits), ?_, ?_, ?_,
    hu.seq_pc, hu.is_jmp, hu.nemu_state⟩
  · show (decode_U s >>= exec_lui) = _
    rw [hdecode, ok_bind, exec_lui, hdest, deref, ok_bind, rtl_li_eq, himm]
    rfl
  · rw [RV.Instr.exec, set_reg_hart h0, ← hu.gpr]
    rfl
  · rw [RV.Instr.exec, set_reg_ram]
    exact hu.mem

theorem exec_load_spec (hf : RV.funct3 s.instr = RV.width_funct3 v.bits)
    (hin : Fits (s.hart.address (RV.reg_field s.instr 15) (RV.imm_I s.instr)) (v.bits / 8)) :
    ∃ t, case_entry decode_I (exec_load maps) 0 s = .ok t ∧
      Executed s t
        (.load (RV.reg_field s.instr 7) (RV.reg_field s.instr 15) (RV.imm_I s.instr)) := by
  obtain ⟨u, hdecode, hu, hsrc, himm, hdest⟩ := decode_I_spec s
  let w : State v D := { u with width := v.bits / 8 }
  have haddr : w.gpr (RV.reg_field s.instr 15) + w.src2.imm =
      s.hart.address (RV.reg_field s.instr 15) (RV.imm_I s.instr) := by
    rw [address_hart h0, ← himm, ← hu.gpr]
  have hexec := exec_ld_eq maps (s := w) hdest hsrc rfl (by rw [haddr]; exact hin)
  rw [haddr] at hexec
  generalize hx : BitVec.ofNat v.bits (load w.mem.pmem _ (v.bits / 8)) = x at hexec
  refine ⟨w.put (RV.reg_field s.instr 7) x, ?_, ?_, ?_, hu.seq_pc, hu.is_jmp, hu.nemu_state⟩
  · show (decode_I s >>= exec_load maps) = _
    rw [hdecode, ok_bind, exec_load_word maps (by rw [hu.instr]; exact hf)]
    exact hexec
  · have hmem : w.mem = s.mem := hu.mem
    rw [hmem] at hx
    rw [RV.Instr.exec, set_reg_hart h0, ← hu.gpr]
    show Function.update (Function.update u.gpr _ x) 0 0 = _
    rw [← hx]
    rfl
  · rw [RV.Instr.exec, set_reg_ram]
    exact hu.mem

theorem exec_store_spec (hf : RV.funct3 s.instr = RV.width_funct3 v.bits)
    (hin : Fits (s.hart.address (RV.reg_field s.instr 15) (RV.imm_S s.instr)) (v.bits / 8)) :
    ∃ t, case_entry decode_S (exec_store maps) 0 s = .ok t ∧
      Executed s t
        (.store (RV.reg_field s.instr 20) (RV.reg_field s.instr 15) (RV.imm_S s.instr)) := by
  obtain ⟨u, hdecode, hu, hsrc, himm, hdest⟩ := decode_S_spec s
  let w : State v D := { u with width := v.bits / 8 }
  have haddr : w.gpr (RV.reg_field s.instr 15) + w.src2.imm =
      s.hart.address (RV.reg_field s.instr 15) (RV.imm_S s.instr) := by
    rw [address_hart h0, ← himm, ← hu.gpr]
  have hexec := exec_st_eq maps (s := w) hdest hsrc rfl (by rw [haddr]; exact hin)
  rw [haddr] at hexec
  generalize hm : store w.mem.pmem _ _ (v.bits / 8) = m at hexec
  refine ⟨w.with_pmem m, ?_, ?_, ?_, hu.seq_pc, hu.is_jmp, hu.nemu_state⟩
  · show (decode_S s >>= exec_store maps) = _
    rw [hdecode, ok_bind, exec_store_word maps (by rw [hu.instr]; exact hf)]
    exact hexec
  · show Function.update u.gpr 0 0 = s.gpr
    rw [hu.gpr]
    exact Function.update_eq_self_iff.mpr h0.symm
  · have hmem : w.mem = s.mem := hu.mem
    have hgpr : w.gpr = s.gpr := hu.gpr
    rw [hmem, hgpr] at hm
    rw [RV.Instr.exec, reg_hart h0]
    show { w.mem with pmem := m } = _
    rw [hmem, ← hm]
    rfl

end instructions

/-- The state behind the fetch. -/
def State.fetched (s : State v D) : State v D :=
  { s with seq_pc := s.seq_pc + 4, instr := instr_at s s.seq_pc }

/-- The instruction decoded from the fetched word is executed. -/
theorem fetch_decode_exec_spec {s : State v D} {i : RV.Instr} (h0 : s.gpr 0 = 0)
    (hpc : Fits s.seq_pc 4) (hi : RV.decode v.bits (instr_at s s.seq_pc) = some i)
    (hin : i.Inside v.isa.pmemBase PMEM_SIZE s.hart) :
    ∃ t, fetch_decode_exec maps s = .ok t ∧ Executed s.fetched t i := by
  obtain ⟨hlow, hhigh⟩ := opcode_fields (instr_at s s.seq_pc)
  have hfetch := instr_fetch_pmem maps hpc
  -- Behind the fetch the opcode selects the entry of the `switch`.
  have hswitch : ∀ op : BitVec 7, RV.opcode (instr_at s s.seq_pc) = op → op.toNat % 4 = 3 →
      fetch_decode_exec maps s = decode_exec maps (op.toNat / 4) s.fetched := by
    intro op hop hthree
    rw [hop] at hlow hhigh
    rw [fetch_decode_exec, hfetch, ok_bind]
    simp only [hlow, hhigh, hthree, decide_true, cassert_true, ok_bind]
    rfl
  unfold RV.decode at hi
  split at hi
  · rename_i hop
    cases hi
    rw [hswitch _ hop (by decide)]
    exact exec_lui_spec (s := s.fetched) h0
  · split at hi
    · rename_i hop
      cases hi
      rw [hswitch _ hop.1 (by decide)]
      exact exec_load_spec maps (s := s.fetched) h0 hop.2 hin
    · split at hi
      · rename_i hop
        cases hi
        rw [hswitch _ hop.1 (by decide)]
        exact exec_store_spec maps (s := s.fetched) h0 hop.2 hin
      · cases hi

end memory

/-- For every state with `gpr[0] = 0` and each of the instructions: one
    `isa_exec_once` is the step of RISC-V, changes nothing else, and leaves
    `gpr[0]` zero. -/
theorem isa_exec_once_riscv (maps : List (Paddr.IOMap D)) {s : State v D} {i : RV.Instr}
    (h0 : s.gpr 0 = 0) (hpc : Fits s.pc 4) (hi : RV.decode v.bits (instr_at s s.pc) = some i)
    (hin : i.Inside v.isa.pmemBase PMEM_SIZE s.hart) :
    ∃ t, isa_exec_once maps s = .ok (s.pc + 4, t) ∧ t.hart = i.step v.isa.pmemBase s.hart ∧
      t.gpr 0 = 0 ∧ t.mem.io = s.mem.io ∧ t.nemu_state = s.nemu_state := by
  let e : State v D := { s with is_jmp := false, seq_pc := s.pc }
  obtain ⟨t, hrun, ht⟩ := fetch_decode_exec_spec maps (s := e) h0 hpc hi hin
  have hseq : t.seq_pc = s.pc + 4 := ht.seq_pc
  have hjmp : t.is_jmp = false := ht.is_jmp
  have hmem : t.mem = { s.mem with pmem := (i.exec v.isa.pmemBase s.hart).ram } := ht.mem
  refine ⟨reset_zero (update_pc t), ?_, ?_, Function.update_self 0 0 t.gpr, ?_, ht.nemu_state⟩
  · show (fetch_decode_exec maps e >>= fun s => pure (_, reset_zero (update_pc s))) = _
    rw [hrun, ok_bind]
    show Except.ok (t.seq_pc, _) = _
    rw [hseq]
  · have hx : (reset_zero (update_pc t)).gpr = (i.exec v.isa.pmemBase s.hart).x := ht.x
    have hnext : (update_pc t).pc = s.pc + 4 := by
      unfold update_pc
      rw [hjmp, hseq]
      rfl
    show RV.Hart.mk (reset_zero (update_pc t)).gpr (update_pc t).pc t.mem.pmem = _
    rw [hx, hnext, hmem]
    rfl
  · show t.mem.io = s.mem.io
    rw [hmem]

/-- `ld t0,-8(t0)` on riscv64, with a word below the address in `t0`. -/
def load_state : State .riscv64 Unit where
  gpr r := if r = 5 then 0xffffffff80000010 else 0
  pc := 0x80100004
  mem := { Paddr.zeroMem with
    pmem := store (store Paddr.zeroMem.pmem 0x100004 0xff82b283 4) 8 0x8877665544332211 8 }
  nemu_state := ⟨.NEMU_RUNNING, 0, 0⟩
  seq_pc := 0
  is_jmp := false
  jmp_pc := 0
  src1 := ⟨.OP_TYPE_REG, 0, 0, none⟩
  dest := ⟨.OP_TYPE_REG, 0, 0, none⟩
  src2 := ⟨.OP_TYPE_REG, 0, 0, none⟩
  width := 0
  instr := 0

/-- The register of the address gets the word. -/
theorem isa_exec_once_riscv_load :
    ∃ t, isa_exec_once [] load_state = .ok (0x80100008, t) ∧
      t.hart = (RV.Instr.load 5 5 0xff8).step 0x80000000 load_state.hart ∧
      t.gpr 5 = 0x8877665544332211 ∧ t.gpr 0 = 0 ∧ t.mem.io = load_state.mem.io ∧
      t.nemu_state = load_state.nemu_state := by
  obtain ⟨t, hrun, hhart, hzero, hio, hstate⟩ := isa_exec_once_riscv [] (s := load_state)
    (i := .load 5 5 0xff8) rfl (show RV.InRam 0x80000000 PMEM_SIZE 0x80100004#64 4 by decide)
    (by decide)
    (show RV.InRam 0x80000000 PMEM_SIZE (0xffffffff80000010#64 + (0xff8#12).signExtend 64) 8
      by decide)
  refine ⟨t, hrun, hhart, ?_, hzero, hio, hstate⟩
  have hx : t.gpr 5 = ((RV.Instr.load 5 5 0xff8).step 0x80000000 load_state.hart).x 5 :=
    congrFun (congrArg RV.Hart.x hhart) 5
  rw [hx]
  decide +kernel

/-! ## Section 5: Register 0 in every run -/

/-- The states after `restart` and any number of instructions. -/
inductive Reachable (maps : List (Paddr.IOMap D)) : State v D → Prop
  | start (s : State v D) : Reachable maps (restart s)
  | step {s t : State v D} {seq_pc : word_t v} (h : Reachable maps s)
      (hstep : isa_exec_once maps s = .ok (seq_pc, t)) : Reachable maps t

/-- Whatever was executed, `gpr[0]` is zero. -/
theorem Reachable.zero {maps : List (Paddr.IOMap D)} {s : State v D} (h : Reachable maps s) :
    s.gpr 0 = 0 := by
  cases h with
  | start s => exact Function.update_self 0 0 s.gpr
  | step h hstep =>
    obtain ⟨t, -, hend⟩ := bind_eq_ok hstep
    obtain ⟨-, rfl⟩ := Prod.mk.inj (Except.ok.inj hend)
    exact Function.update_self 0 0 t.gpr

end Nemu.Riscv
