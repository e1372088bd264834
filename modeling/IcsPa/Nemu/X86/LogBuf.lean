import IcsPa.Nemu.X86.Debug
import IcsPa.Nemu.X86.Invalid

/-! # What an instruction writes to log_bytebuf

    Every byte that is fetched takes three characters.  The bytes are those of
    the prefixes, of the opcode and of its operands, and eight more when
    `exec_inv` fetches the instruction again. -/

open CCall Bytes I386

namespace Nemu.X86

variable {D : Type} (maps : List (Paddr.IOMap D))

/-! ## Section 1: The length of an instruction -/

/-- The bytes behind `0x0f`. -/
def escape_bytes (c : Code) : Nat := if c 0 = 0x01 then 1 + (c.drop 1).form_length else 1

/-- The bytes behind the opcode, with operands of width `w`. -/
def operand_bytes (w : Nat) (c : Code) : Nat :=
  let form := (c.drop 1).form_length
  match (c 0).toNat with
  | 0x0f => escape_bytes (c.drop 1)
  | 0x80 | 0xc0 | 0xc1 | 0xc6 => form + 1
  | 0x81 | 0xc7 => form + w
  | 0x83 | 0x88 | 0x89 | 0x8a | 0x8b | 0xd0 | 0xd1 | 0xd2 | 0xd3 | 0xf6 | 0xf7 | 0xfe | 0xff => form
  | 0xa0 | 0xa1 | 0xa2 | 0xa3 => 4
  | 0xb0 | 0xb1 | 0xb2 | 0xb3 | 0xb4 | 0xb5 | 0xb6 | 0xb7 => 1
  | 0xb8 | 0xb9 | 0xba | 0xbb | 0xbc | 0xbd | 0xbe | 0xbf => w
  | _ => 0

/-- The bytes that are fetched again: none behind `MOV`, `nemu_trap` and the
    unfinished `0x83`, as there is no `exec_inv`. -/
def inv_bytes (c : Code) : Nat :=
  match (c 0).toNat with
  | 0x83 | 0x88 | 0x89 | 0x8a | 0x8b | 0xa0 | 0xa1 | 0xa2 | 0xa3 => 0
  | 0xb0 | 0xb1 | 0xb2 | 0xb3 | 0xb4 | 0xb5 | 0xb6 | 0xb7 => 0
  | 0xb8 | 0xb9 | 0xba | 0xbb | 0xbc | 0xbd | 0xbe | 0xbf => 0
  | 0xc6 | 0xc7 | 0xd6 => 0
  | _ => 8

/-- The groups that read their `r/m` operand: whether it is a byte, and the bytes
    behind the form. -/
def rm_group (size : Nat) (c : Code) : Option (Bool × Nat) :=
  match (c 0).toNat with
  | 0x80 | 0xc0 => some (true, 1)
  | 0x81 => some (false, size)
  | 0xc1 => some (false, 1)
  | 0xd0 | 0xd2 | 0xf6 | 0xfe => some (true, 0)
  | 0xd1 | 0xd3 | 0xf7 | 0xff => some (false, 0)
  | _ => none

/-- The read of that operand comes back, if there is one. -/
def rm_read (size : Nat) (c : Code) (g : Gprs) (mem : Paddr.Mem D) : Bool :=
  let form := c.drop 1
  match rm_group size c with
  | none => true
  | some (byte, _) =>
      form.mod == 3 || can_read maps mem (form.address g) (if byte then 1 else size)

/-- The bytes that are fetched behind the opcode. -/
def rest_bytes (size : Nat) (c : Code) (g : Gprs) (mem : Paddr.Mem D) : Nat :=
  if rm_read maps size c g mem then operand_bytes size c + inv_bytes c
  else (c.drop 1).form_length

/-! ## Section 2: Fetching -/

section returns
variable {p : Prop}

theorem length_strcatf_02x (b : UInt8) : (Debug.strcatf_02x b).length = 3 := rfl

theorem instr_fetch_returns {len : Nat} {s : State D} (h : p → Fits s.seq_pc len) :
    (Debug.instr_fetch maps len s).Returns p (3 * len) := by
  have htext : ∀ v, ((List.range len).flatMap fun i =>
      Debug.strcatf_02x (Debug.p_instr v i)).length = 3 * len := by
    intro v
    simp [List.length_flatMap, length_strcatf_02x, Nat.mul_comm]
  -- The bytes are written only when the read has come back.
  apply Logged.Returns.lift_bind
  · intro hp
    exact ⟨_, vaddr_ifetch_pmem maps (h hp) s.mem⟩
  · intro r _
    exact ((Logged.Returns.write _).of_eq (htext r.1)).bind_zero fun _ => Logged.Returns.pure _

theorem fetch_disp_returns {n : Nat} (hn : n = 0 ∨ n = 1 ∨ n = 4) {s : State D}
    (hend : s.seq_pc.toNat + n ≤ PMEM_SIZE) :
    (Debug.fetch_disp maps n s).Returns p (3 * n) := by
  rcases hn with rfl | rfl | rfl
  · exact Logged.Returns.pure _
  · exact (instr_fetch_returns maps fun _ => ⟨.inl rfl, hend⟩).bind_zero fun _ =>
      Logged.Returns.pure _
  · exact (instr_fetch_returns maps fun _ => ⟨.inr (.inr rfl), hend⟩).bind_zero fun _ =>
      Logged.Returns.pure _

/-! ## Section 3: The ModR/M form -/

theorem fetch_sib_returns {s : State D} (hmod : (code s).mod ≠ 3)
    (hend : s.seq_pc.toNat + (code s).disp_at ≤ PMEM_SIZE) :
    (Debug.fetch_sib maps (code s 0) (s.at 1)).Returns p (3 * ((code s).disp_at - 1)) := by
  rw [disp_at_eq] at hend ⊢
  by_cases hsib : (code s).rm = R_ESP
  · have hcond : ModR_M.R_M (code s 0) = R_ESP := hsib
    rw [if_pos ((has_sib_iff hmod).mpr hsib)] at hend ⊢
    have hpc : (s.at 1).seq_pc.toNat = s.seq_pc.toNat + 1 :=
      pc_add (show s.seq_pc.toNat + 1 ≤ PMEM_SIZE by omega)
    rw [Debug.fetch_sib, if_pos hcond]
    exact (instr_fetch_returns maps fun _ => ⟨.inl rfl, by omega⟩).bind_zero fun _ =>
      Logged.Returns.pure _
  · have hcond : ¬ ModR_M.R_M (code s 0) = R_ESP := hsib
    rw [if_neg fun h => hsib ((has_sib_iff hmod).mp h), Debug.fetch_sib, if_neg hcond]
    exact Logged.Returns.pure _

theorem load_addr_returns {s : State D} (rm : OpName) (hmod : (code s).mod ≠ 3)
    (hend : s.seq_pc.toNat + (code s).form_length ≤ PMEM_SIZE) :
    (Debug.load_addr maps (code s 0) rm (s.at 1)).Returns p (3 * ((code s).form_length - 1)) := by
  have hmod' : (ModR_M.mod (code s 0) != 3) = true := bne_iff_ne.mpr hmod
  have hdisp := one_le_disp_at (code s)
  have hlength : (code s).form_length = (code s).disp_at + (code s).disp_size := rfl
  have hfirst : s.seq_pc.toNat + (code s).disp_at ≤ PMEM_SIZE := by omega
  -- How long the displacement is depends on the base in the SIB byte.
  obtain ⟨scale, hsib, -⟩ := fetch_sib_at maps hmod hfirst
  have hpc : (s.at (code s).disp_at).seq_pc.toNat = s.seq_pc.toNat + (code s).disp_at :=
    pc_add hfirst
  apply Logged.Returns.lift_bind
  · intro _
    exact ⟨(), by rw [hmod', cassert_true]⟩
  · intro _ _
    have hrest : 3 * ((code s).disp_at - 1) + 3 * (code s).disp_size =
        3 * ((code s).form_length - 1) := by omega
    refine ((fetch_sib_returns maps hmod hfirst).bind ?_).of_eq hrest
    intro r hr
    rw [Debug.fetch_sib_result, hsib] at hr
    obtain rfl := Except.ok.inj hr
    simp only [base_and_disp_size_eq hmod]
    exact (fetch_disp_returns maps (disp_size_cases _) (by omega)).bind_zero fun _ =>
      Logged.Returns.pure _

/-- The whole form is fetched before the operand is loaded, so a load that fails
    does not shorten it. -/
theorem read_R_M_writes {s : State D} (rm : OpName) (load_val : Bool)
    (hend : s.seq_pc.toNat + (code s).form_length ≤ PMEM_SIZE) :
    (Debug.read_R_M maps (code s 0) rm load_val (s.at 1)).Writes p
      (3 * ((code s).form_length - 1)) := by
  by_cases hmod : (code s).mod = 3
  · have hmod' : ModR_M.mod (code s 0) = 3 := hmod
    rw [form_length_reg hmod, Debug.read_R_M, if_pos hmod']
    exact Logged.Writes.lift _
  · have hmod' : ¬ ModR_M.mod (code s 0) = 3 := hmod
    rw [Debug.read_R_M, if_neg hmod']
    refine (load_addr_returns maps rm hmod hend).toWrites.bind_silent fun t => ?_
    cases load_val with
    | false => rfl
    | true =>
      apply Logged.lift_bind_text
      intro base
      apply Logged.lift_bind_text
      intro u
      rfl

/-- The read of the `r/m` operand comes back, if there is one. -/
def RmRead (load_val : Bool) (rm : OpName) (s : State D) : Prop :=
  load_val = true → (code s).mod ≠ 3 →
    ∃ r, vaddr_read maps ((code s).address s.gpr) (s.op rm).width s.mem = .ok r

theorem operand_rm_writes {s : State D} (rm : OpName) (reg : Option OpName)
    (load_rm_val load_reg_val : Bool) (hops : Operands s rm reg)
    (hend : s.seq_pc.toNat + (code s).form_length ≤ PMEM_SIZE) :
    (Debug.operand_rm maps rm load_rm_val reg load_reg_val s).Writes p
      (3 * (code s).form_length) := by
  have hlength := one_le_form_length (code s)
  have hfetch := instr_fetch_first maps (s := s) (.inl rfl) (by omega)
  -- The register operand is between the first byte and the others.
  let e : State D := { s with ext_opcode := BitVec.ofNat 8 (code s).reg.val }
  obtain ⟨e', hreg, hfetched, hmem, -, -, -⟩ := reg_operand_at (s := e) reg
    load_reg_val (code s).reg hops.reg_width
  have hcode : code e' = code s := hfetched.same_code hmem
  have hpc : e'.seq_pc = s.seq_pc := hfetched.seq_pc.trans (Fetched.refl s).seq_pc.symm
  have hrm :=
      read_R_M_writes (p := p) maps (s := e') rm load_rm_val (by rw [hcode, hpc]; exact hend)
  rw [hcode] at hrm
  have hcount : 3 * 1 + 3 * ((code s).form_length - 1) = 3 * (code s).form_length := by omega
  refine (Logged.Writes.bind (instr_fetch_returns maps fun _ => ⟨.inl rfl, by omega⟩) ?_).of_eq
    hcount
  intro r hr
  rw [Debug.instr_fetch_result, hfetch] at hr
  obtain rfl := Except.ok.inj hr
  simp only [byte_load]
  cases reg with
  | none =>
    have hreg : e.at 1 = e'.at 1 := Except.ok.inj hreg
    show Logged.Writes _ (Debug.read_R_M maps (code s 0) rm load_rm_val (e.at 1)) _
    rw [hreg]
    exact hrm
  | some q =>
    have hreg : operand_reg q load_reg_val (code s).reg ((e.at 1).op q).width (e.at 1) =
      .ok (e'.at 1) := hreg
    refine (Logged.Writes.bind (Logged.Returns.lift fun _ => ⟨_, hreg⟩) ?_).of_eq (Nat.zero_add _)
    intro t ht
    obtain rfl := Except.ok.inj (hreg.symm.trans ht)
    exact hrm

theorem operand_rm_returns {s : State D} {rm : OpName} {reg : Option OpName}
    {load_rm_val : Bool} (load_reg_val : Bool) (hops : Operands s rm reg)
    (hend : s.seq_pc.toNat + (code s).form_length ≤ PMEM_SIZE)
    (hread : RmRead maps load_rm_val rm s) :
    (Debug.operand_rm maps rm load_rm_val reg load_reg_val s).Returns p
      (3 * (code s).form_length) := by
  obtain ⟨t, hrun, -⟩ := read_ModR_M_at maps rm reg load_rm_val load_reg_val hops hend hread
  refine ⟨operand_rm_writes maps rm reg load_rm_val load_reg_val hops hend, fun _ => ⟨t, ?_⟩⟩
  rw [Debug.operand_rm_result]
  exact hrun

/-- An operand that has been loaded could be read. -/
theorem read_R_M_read {s t : State D} {rm : OpName} (hmod : (code s).mod ≠ 3)
    (hend : s.seq_pc.toNat + (code s).form_length ≤ PMEM_SIZE)
    (h : read_R_M maps (code s 0) rm true (s.at 1) = .ok t) :
    ∃ r, vaddr_read maps ((code s).address s.gpr) (s.op rm).width s.mem = .ok r := by
  have hmod' : ¬ ModR_M.mod (code s 0) = 3 := hmod
  obtain ⟨p, tmp, mbr, haddr, -, ha⟩ := load_addr_at maps rm hmod hend
  rw [read_R_M, if_neg hmod', haddr, ok_bind] at h
  obtain ⟨base, hbase, h⟩ := bind_eq_ok h
  obtain rfl : p = base := Except.ok.inj hbase
  obtain ⟨v, hload, -⟩ := bind_eq_ok h
  -- The load is at the address of the form, with the width of the operand.
  obtain ⟨r, hread, -⟩ := bind_eq_ok hload
  rw [with_op_self] at hread
  refine ⟨r, Eq.trans ?_ hread⟩
  congr 1
  refine (ha _ ?_ ?_).symm
  · rfl
  · rfl

theorem operand_rm_stops {s : State D} {rm : OpName} {reg : Option OpName}
    {load_rm_val : Bool} (load_reg_val : Bool) (hops : Operands s rm reg)
    (hend : s.seq_pc.toNat + (code s).form_length ≤ PMEM_SIZE)
    (h : ¬ RmRead maps load_rm_val rm s) :
    ∃ e, (Debug.operand_rm maps rm load_rm_val reg load_reg_val s).result = .error e := by
  rw [Debug.operand_rm_result]
  cases hrun : operand_rm maps rm load_rm_val reg load_reg_val s with
  | error e => exact ⟨e, rfl⟩
  | ok t =>
    refine absurd (fun hload hmod => ?_) h
    subst hload
    have hlength := one_le_form_length (code s)
    have hfetch := instr_fetch_first maps (s := s) (.inl rfl) (by omega)
    let e : State D := { s with ext_opcode := BitVec.ofNat 8 (code s).reg.val }
    obtain ⟨e', hreg, hfetched, hmem, -, -, -⟩ := reg_operand_at (s := e) reg
      load_reg_val (code s).reg hops.reg_width
    have hcode : code e' = code s := hfetched.same_code hmem
    have hpc : e'.seq_pc = s.seq_pc := hfetched.seq_pc.trans (Fetched.refl s).seq_pc.symm
    have hgpr : e'.gpr = s.gpr := hfetched.gpr
    have hmem : e'.mem = s.mem := hmem
    have hwidth : (e'.op rm).width = (s.op rm).width := hfetched.width rm
    -- Both operands come after the first byte.
    have hrm : read_R_M maps (code s 0) rm true (e'.at 1) = .ok t := by
      unfold operand_rm read_ModR_M at hrun
      rw [hfetch, ok_bind] at hrun
      simp only [byte_load] at hrun
      cases reg with
      | none =>
        have hreg : e.at 1 = e'.at 1 := Except.ok.inj hreg
        rw [← hreg]
        exact hrun
      | some q =>
        have hreg : operand_reg q load_reg_val (code s).reg ((e.at 1).op q).width (e.at 1) =
          .ok (e'.at 1) := hreg
        obtain ⟨u, hu, hrun⟩ := bind_eq_ok hrun
        obtain rfl := Except.ok.inj (hreg.symm.trans hu)
        exact hrun
    rw [← hcode] at hrm hmod
    have hread := read_R_M_read maps hmod (by rw [hcode, hpc]; exact hend) hrm
    rw [hcode, hgpr, hwidth, hmem] at hread
    exact hread

/-- Where the cursor is behind the form. -/
theorem operand_rm_cursor {s t : State D} {rm : OpName} {reg : Option OpName}
    {load_rm_val load_reg_val : Bool} (hops : Operands s rm reg)
    (hend : s.seq_pc.toNat + (code s).form_length ≤ PMEM_SIZE)
    (hread : RmRead maps load_rm_val rm s)
    (ht : (Debug.operand_rm maps rm load_rm_val reg load_reg_val s).result = .ok t) :
    t.seq_pc.toNat = s.seq_pc.toNat + (code s).form_length := by
  obtain ⟨u, hrun, hdecoded⟩ := read_ModR_M_at maps rm reg load_rm_val load_reg_val hops hend hread
  rw [Debug.operand_rm_result] at ht
  obtain rfl := Except.ok.inj (hrun.symm.trans ht)
  exact hdecoded.fetched.seq_pc_toNat hend

/-! ## Section 4: Decode helpers -/

theorem decode_op_I_returns {q : OpName} {w : Nat} (load_val : Bool) {s : State D}
    (hq : (s.op q).width = w) (hw : w = 1 ∨ w = 2 ∨ w = 4) (hend : s.seq_pc.toNat + w ≤ PMEM_SIZE) :
    (Debug.decode_op_I maps q load_val s).Returns p (3 * w) := by
  unfold Debug.decode_op_I
  rw [hq]
  exact (instr_fetch_returns maps fun _ => ⟨hw, hend⟩).bind_zero fun _ => Logged.Returns.pure _

/-- The load is behind the offset. -/
theorem decode_op_O_writes (q : OpName) (load_val : Bool) {s : State D}
    (hend : s.seq_pc.toNat + 4 ≤ PMEM_SIZE) :
    (Debug.decode_op_O maps q load_val s).Writes p (3 * 4) := by
  have hfetch : (Debug.instr_fetch maps 4
      (s.set_op q fun o => { o with type := .OP_TYPE_MEM })).Returns p (3 * 4) :=
    instr_fetch_returns maps fun _ => ⟨.inr (.inr rfl), hend⟩
  refine hfetch.toWrites.bind_silent fun r => ?_
  cases load_val with
  | false => rfl
  | true =>
    apply Logged.lift_bind_text
    intro u
    rfl

/-- A register operand does not fetch. -/
theorem operand_reg_ok (q : OpName) (load_val : Bool) (r : Fin 8) {w : Nat}
    (hw : w = 1 ∨ w = 2 ∨ w = 4) (s : State D) : ∃ t, operand_reg q load_val r w s = .ok t := by
  rcases hw with rfl | rfl | rfl <;> cases load_val <;> exact ⟨_, rfl⟩

/-- All operands have one of the widths of the i386. -/
structure Sized (s : State D) (w : Nat) : Prop where
  width : ∀ q, (s.op q).width = w
  cases : w = 1 ∨ w = 2 ∨ w = 4

theorem Sized.operands {s : State D} {w : Nat} (h : Sized s w) {rm : OpName}
    {reg : Option OpName} (htwo : reg ≠ some rm) : Operands s rm reg := by
  have hwidth : ∀ q, (s.op q).width = 1 ∨ (s.op q).width = 2 ∨ (s.op q).width = 4 := by
    intro q
    rw [h.width]
    exact h.cases
  exact ⟨hwidth rm, fun q _ => hwidth q, htwo⟩

theorem Sized.kept {s t : State D} {w : Nat} (h : Sized s w) (ht : Kept s t) : Sized t w :=
  ⟨fun q => (ht.width q).trans (h.width q), h.cases⟩

/-- `decode_I2E` and `decode_mov_I2E`. -/
theorem decode_I2E_returns (load_rm_val : Bool) {s : State D} {w : Nat} (h : Sized s w)
    (hend : s.seq_pc.toNat + ((code s).form_length + w) ≤ PMEM_SIZE)
    (hread : RmRead maps load_rm_val .dest s) :
    (Debug.operand_rm maps .dest load_rm_val none false s >>=
      Debug.decode_op_I maps .src1 true).Returns p (3 * ((code s).form_length + w)) := by
  have hops : Operands s .dest none := h.operands (by decide)
  have hcount := (Nat.mul_add 3 (code s).form_length w).symm
  refine ((operand_rm_returns maps false hops (by omega) hread).bind ?_).of_eq hcount
  intro t ht
  have hpc := operand_rm_cursor maps hops (by omega) hread ht
  rw [Debug.operand_rm_result] at ht
  exact decode_op_I_returns maps true ((h.kept (operand_rm_kept maps ht)).width .src1) h.cases
    (by omega)

theorem decode_gp2_Ib2E_returns {s : State D} {w : Nat} (h : Sized s w)
    (hend : s.seq_pc.toNat + ((code s).form_length + 1) ≤ PMEM_SIZE)
    (hread : RmRead maps true .dest s) :
    (Debug.decode_gp2_Ib2E maps s).Returns p (3 * ((code s).form_length + 1)) := by
  have hops : Operands s .dest none := h.operands (by decide)
  have hcount := (Nat.mul_add 3 (code s).form_length 1).symm
  refine ((operand_rm_returns maps false hops (by omega) hread).bind ?_).of_eq hcount
  intro t ht
  have hpc := operand_rm_cursor maps hops (by omega) hread ht
  let u := t.set_op .src1 fun o => { o with width := 1 }
  have hwidth : (u.op .src1).width = 1 := by simp [u, State.set_op]
  exact decode_op_I_returns maps true hwidth (.inl rfl)
    (show t.seq_pc.toNat + 1 ≤ PMEM_SIZE by omega)

theorem decode_gp2_1_E_returns {s : State D} {w : Nat} (h : Sized s w)
    (hend : s.seq_pc.toNat + (code s).form_length ≤ PMEM_SIZE) (hread : RmRead maps true .dest s) :
    (Debug.decode_gp2_1_E maps s).Returns p (3 * (code s).form_length) := by
  exact (operand_rm_returns maps false (h.operands (by decide)) hend hread).bind_zero fun _ =>
    Logged.Returns.pure _

theorem decode_gp2_cl2E_returns {s : State D} {w : Nat} (h : Sized s w)
    (hend : s.seq_pc.toNat + (code s).form_length ≤ PMEM_SIZE) (hread : RmRead maps true .dest s) :
    (Debug.decode_gp2_cl2E maps s).Returns p (3 * (code s).form_length) := by
  apply (operand_rm_returns maps false (h.operands (by decide)) hend hread).bind_zero
  intro t
  exact Logged.Returns.lift fun _ => operand_reg_ok .src1 true R_ECX (.inr (.inr rfl)) t

theorem decode_E_returns {s : State D} {w : Nat} (h : Sized s w)
    (hend : s.seq_pc.toNat + (code s).form_length ≤ PMEM_SIZE) (hread : RmRead maps true .dest s) :
    (Debug.decode_E maps s).Returns p (3 * (code s).form_length) :=
  operand_rm_returns maps false (h.operands (by decide)) hend hread

/-- The immediate is not fetched: `decode_op_SI` stops. -/
theorem decode_SI2E_writes {s : State D} {w : Nat} (h : Sized s w) (hw : w ≠ 1)
    (hend : s.seq_pc.toNat + (code s).form_length ≤ PMEM_SIZE) :
    (Debug.decode_SI2E maps s).Writes p (3 * (code s).form_length) := by
  have hassert : cassert (decide ((s.op .dest).width = 2) || decide ((s.op .dest).width = 4)) =
      .ok () := by
    rw [h.width]
    rcases h.cases with rfl | rfl | rfl
    · exact absurd rfl hw
    · rfl
    · rfl
  have hfirst : Logged.Returns (γ := UInt8) p (liftM
      (cassert (decide ((s.op .dest).width = 2) || decide ((s.op .dest).width = 4)))) 0 :=
    Logged.Returns.lift fun _ => ⟨(), hassert⟩
  refine (Logged.Writes.bind hfirst (n := 3 * (code s).form_length) ?_).of_eq (Nat.zero_add _)
  intro _ _
  have hrm := operand_rm_writes (p := p) maps .dest none true false (h.operands (by decide)) hend
  refine hrm.bind_silent fun t => ?_
  show (liftM (decode_op_SI .src1 true _) >>= _ : Logged UInt8 (State D)).text = []
  rw [Debug.decode_op_SI_stops]
  rfl

/-- So the entry ends there. -/
theorem decode_SI2E_stops (s : State D) : ∃ e, (Debug.decode_SI2E maps s).result = .error e := by
  rw [Debug.decode_SI2E_result]
  cases hres : decode_SI2E maps s with
  | error e => exact ⟨e, rfl⟩
  | ok t =>
    obtain ⟨_, _, h⟩ := bind_eq_ok hres
    obtain ⟨u, _, h⟩ := bind_eq_ok h
    obtain ⟨v, himm, _⟩ := bind_eq_ok h
    cases (Debug.decode_op_SI_stops _ _ _).symm.trans himm

theorem decode_O2a_writes {s : State D} (hend : s.seq_pc.toNat + 4 ≤ PMEM_SIZE) :
    (Debug.decode_O2a maps s).Writes p (3 * 4) :=
  (decode_op_O_writes maps .src1 true hend).bind_silent fun _ => rfl

theorem decode_a2O_writes {s : State D} {w : Nat} (h : Sized s w)
    (hend : s.seq_pc.toNat + 4 ≤ PMEM_SIZE) : (Debug.decode_a2O maps s).Writes p (3 * 4) := by
  obtain ⟨o, hreg, -, -⟩ := operand_reg_spec .src1 true R_EAX (h.width .src1) h.cases
  have ha : decode_op_a .src1 true s = .ok (s.with_op .src1 o) := by
    rw [decode_op_a, h.width]
    exact hreg
  refine (Logged.Writes.bind (Logged.Returns.lift fun _ => ⟨_, ha⟩) ?_).of_eq (Nat.zero_add _)
  intro t ht
  obtain rfl := Except.ok.inj (ha.symm.trans ht)
  exact decode_op_O_writes maps .dest false (show s.seq_pc.toNat + 4 ≤ PMEM_SIZE from hend)

theorem decode_mov_I2r_writes {s : State D} {w : Nat} (h : Sized s w)
    (hend : s.seq_pc.toNat + w ≤ PMEM_SIZE) : (Debug.decode_mov_I2r maps s).Writes p (3 * w) := by
  obtain ⟨o, hreg, how, -⟩ := operand_reg_spec .dest false
    ⟨s.opcode.toNat % 8, Nat.mod_lt _ (by decide)⟩ (h.width .dest) h.cases
  have hr : decode_op_r .dest false s = .ok (s.with_op .dest o) := by
    rw [decode_op_r, h.width]
    exact hreg
  refine (Logged.Writes.bind (Logged.Returns.lift fun _ => ⟨_, hr⟩) ?_).of_eq (Nat.zero_add _)
  intro t ht
  obtain rfl := Except.ok.inj (hr.symm.trans ht)
  have hwidth : ((s.with_op .dest o).op .src1).width = w := by
    rw [with_op_ne (by decide)]
    exact h.width .src1
  exact (decode_op_I_returns maps true hwidth h.cases hend).toWrites

end returns

/-! ## Section 5: The opcode table -/

/-- The two words for the message are behind the end of guest memory at most
    where the instruction is short. -/
theorem exec_inv_writes {pc : BitVec 32} {t : State D} (hpc : t.pc = pc) :
    (Debug.exec_inv maps t).Writes (pc.toNat + 8 ≤ PMEM_SIZE) (3 * 8) := by
  have hsize : PMEM_SIZE < 2 ^ 32 := by decide
  have hfirst : pc.toNat + 8 ≤ PMEM_SIZE → Fits t.pc 4 := by
    intro h
    rw [hpc]
    exact ⟨.inr (.inr rfl), by omega⟩
  let u : State D := { t with seq_pc := t.pc }
  refine Logged.Writes.bind (instr_fetch_returns maps (s := u) hfirst) (n := 3 * 4) ?_
  intro r hr
  rw [Debug.instr_fetch_result] at hr
  obtain ⟨⟨v, mem⟩, _, hr⟩ := bind_eq_ok hr
  cases hr
  have hsecond : pc.toNat + 8 ≤ PMEM_SIZE → Fits (t.pc + BitVec.ofNat 32 4) 4 := by
    intro h
    rw [hpc]
    have hnext : (pc + BitVec.ofNat 32 4).toNat = pc.toNat + 4 := pc_add (by omega)
    exact ⟨.inr (.inr rfl), by omega⟩
  exact ((instr_fetch_returns maps hsecond).bind_zero fun _ => Logged.Returns.pure _).toWrites

theorem exec_gp_writes {pc : BitVec 32} {t : State D} (hpc : t.pc = pc) :
    (Debug.exec_gp maps t).Writes (pc.toNat + 8 ≤ PMEM_SIZE) (3 * 8) := by
  refine (Logged.Writes.bind (Logged.Returns.pure _) (n := 3 * 8) ?_).of_eq (Nat.zero_add _)
  intro u hu
  obtain rfl := Except.ok.inj hu
  exact exec_inv_writes maps ((Unseen.set_width 0 t).pc.trans hpc)

theorem set_width_sized (byte : Bool) {s : State D} :
    Sized (set_width (if byte then 1 else 0) s) (if byte then 1 else operand_size s) := by
  rw [set_width_mov]
  refine ⟨fun _ => rfl, ?_⟩
  unfold operand_size
  cases byte <;> cases s.is_operand_size_16 <;> decide

/-- `v` differs from `s` in the operands. -/
structure SameInstr (s v : State D) : Prop where
  gpr    : v.gpr = s.gpr
  mem    : v.mem = s.mem
  pc     : v.pc = s.pc
  seq_pc : v.seq_pc = s.seq_pc

theorem set_width_same (byte : Bool) (s : State D) :
    SameInstr s (set_width (if byte then 1 else 0) s) := by
  rw [set_width_mov]
  exact ⟨rfl, rfl, rfl, rfl⟩

theorem SameInstr.code {s v : State D} (h : SameInstr s v) : code v = code s := by
  unfold X86.code
  rw [h.mem, h.seq_pc]

/-- An entry that does not come to `exec_inv`. -/
theorem case_entry_silent {p : Prop} (byte : Bool) {id ex : State D → Logged UInt8 (State D)}
    {s : State D} {n : Nat}
    (hid : ∀ v : State D, Sized v (if byte then 1 else operand_size s) → SameInstr s v →
      (id v).Writes p n)
    (hex : ∀ t, (ex t).text = []) :
    (Debug.case_entry id ex (if byte then 1 else 0) s).Writes p n :=
  (hid _ (set_width_sized byte) (set_width_same byte s)).bind_silent hex

/-- A group ends in `exec_inv`. -/
theorem rm_group_bytes {size k : Nat} {byte : Bool} {c : Code}
    (h : rm_group size c = some (byte, k)) :
    operand_bytes size c = (c.drop 1).form_length + k ∧ inv_bytes c = 8 := by
  unfold rm_group at h
  unfold operand_bytes inv_bytes
  split at h
  all_goals cases h
  all_goals
    rename_i hopcode
    rw [hopcode]
    exact ⟨rfl, rfl⟩

theorem rm_read_iff {byte : Bool} {k : Nat} {c : Code} {s v : State D}
    (hc : rm_group (operand_size s) c = some (byte, k)) (hcode : code s = c.drop 1)
    (hsized : Sized v (if byte then 1 else operand_size s)) (hv : SameInstr s v) :
    rm_read maps (operand_size s) c s.gpr s.mem = true ↔ RmRead maps true .dest v := by
  unfold rm_read RmRead
  rw [hc, hv.code, hv.gpr, hv.mem, hcode, hsized.width, ← can_read_iff maps hsized.cases]
  by_cases hmod : (c.drop 1).mod = 3
  · simp [hmod]
  · simp [hmod]

/-- An entry of a group: its operand is read behind the form. -/
theorem group_entry_writes (byte : Bool) {id : State D → Logged UInt8 (State D)} {s : State D}
    {k : Nat} {c : Code} (hc : rm_group (operand_size s) c = some (byte, k))
    (hcode : code s = c.drop 1)
    (hfirst : ∀ v, ∃ rest : State D → Logged UInt8 (State D),
      id v = Debug.operand_rm maps .dest true none false v >>= rest)
    (hid : ∀ v : State D, Sized v (if byte then 1 else operand_size s) →
      v.seq_pc.toNat + ((code v).form_length + k) ≤ PMEM_SIZE → RmRead maps true .dest v →
      (id v).Returns (s.pc.toNat + 8 ≤ PMEM_SIZE) (3 * ((code v).form_length + k)))
    (hpc : ∀ v t, (id v).result = .ok t → t.pc = v.pc)
    (hend : s.seq_pc.toNat + operand_bytes (operand_size s) c ≤ PMEM_SIZE) :
    (Debug.case_entry id (Debug.exec_gp maps) (if byte then 1 else 0) s).Writes
      (s.pc.toNat + 8 ≤ PMEM_SIZE) (3 * rest_bytes maps (operand_size s) c s.gpr s.mem) := by
  let v := set_width (if byte then 1 else 0) s
  have hsized : Sized v (if byte then 1 else operand_size s) := set_width_sized byte
  have hv : SameInstr s v := set_width_same byte s
  have hform : (code v).form_length = (c.drop 1).form_length := by rw [hv.code, hcode]
  have hiff := rm_read_iff maps hc hcode hsized hv
  obtain ⟨hbytes, hinv⟩ := rm_group_bytes hc
  rw [hbytes, ← hv.seq_pc, ← hform] at hend
  unfold rest_bytes
  by_cases hread : rm_read maps (operand_size s) c s.gpr s.mem = true
  · have hcount : 3 * ((code v).form_length + k) + 3 * 8 =
        3 * (operand_bytes (operand_size s) c + inv_bytes c) := by
      rw [hbytes, hinv, hform]
      omega
    rw [if_pos hread]
    refine (Logged.Writes.bind (hid v hsized hend (hiff.mp hread)) ?_).of_eq hcount
    intro t ht
    exact exec_gp_writes maps ((hpc v t ht).trans hv.pc)
  · -- The operand cannot be read, and the entry ends there.
    rw [if_neg hread, ← hform]
    have hops : Operands v .dest none := hsized.operands (by decide)
    have hrm := operand_rm_writes (p := s.pc.toNat + 8 ≤ PMEM_SIZE) maps .dest none true false hops
      (by omega)
    obtain ⟨rest, hrest⟩ := hfirst v
    obtain ⟨e, he⟩ := operand_rm_stops maps false hops (by omega) fun h => hread (hiff.mpr h)
    have hdecode : (id v).Writes (s.pc.toNat + 8 ≤ PMEM_SIZE) (3 * (code v).form_length) := by
      rw [hrest]
      exact hrm.stop he rest
    have hresult : (id v).result = .error e := by
      rw [hrest, Logged.bind_result, he]
      rfl
    exact hdecode.stop hresult _

theorem exec_2byte_esc_writes {pc : BitVec 32} {s : State D} (hpc : s.pc = pc)
    (hend : s.seq_pc.toNat + escape_bytes (code s) ≤ PMEM_SIZE) :
    (Debug.exec_2byte_esc maps s).Writes (pc.toNat + 8 ≤ PMEM_SIZE)
      (3 * (escape_bytes (code s) + 8)) := by
  have hone : 1 ≤ escape_bytes (code s) := by
    unfold escape_bytes
    split <;> omega
  have hfetch := instr_fetch_first maps (s := s) (.inl rfl) (by omega)
  let n := 3 * (escape_bytes (code s) - 1 + 8)
  refine (Logged.Writes.bind (instr_fetch_returns maps fun _ => ⟨.inl rfl, by omega⟩)
    (n := n) ?_).of_eq (by omega)
  intro r hr
  rw [Debug.instr_fetch_result, hfetch] at hr
  obtain rfl := Except.ok.inj hr
  -- The second byte.
  simp only [byte_load]
  let u : State D := { s.at 1 with opcode := BitVec.ofNat 32 (code s 0).toNat }
  -- Only the group behind `0x01` decodes an operand, and it does not read it.
  by_cases hgroup : code s 0 = 0x01
  · let v := set_width 0 u
    have hbytes : escape_bytes (code s) = 1 + ((code s).drop 1).form_length := if_pos hgroup
    have hcode : code v = (code s).drop 1 := code_at (show s.seq_pc.toNat + 1 ≤ PMEM_SIZE by omega)
    have hcursor : v.seq_pc.toNat = s.seq_pc.toNat + 1 :=
      pc_add (show s.seq_pc.toNat + 1 ≤ PMEM_SIZE by omega)
    have hops : Operands v .dest none :=
      (set_width_sized false (s := u)).operands (by decide)
    have hread : RmRead maps false .dest v := fun h => absurd h Bool.false_ne_true
    have hrm := operand_rm_returns (p := pc.toNat + 8 ≤ PMEM_SIZE) maps false hops
      (by rw [hcode]; omega) hread
    have hn : 3 * (code v).form_length + 3 * 8 = n := by
      rw [hcode]
      omega
    have hbyte : (code s 0).toNat = 0x01 := by rw [hgroup]; rfl
    split
    · refine (Logged.Writes.bind hrm fun t ht => ?_).of_eq hn
      rw [Debug.operand_rm_result] at ht
      exact exec_gp_writes maps ((operand_rm_kept maps ht).pc.trans hpc)
    · exact absurd hbyte ‹_›
  · have hn : 3 * 8 = n := by
      unfold n escape_bytes
      rw [if_neg hgroup]
    have hne : (code s 0).toNat ≠ 0x01 := fun he => hgroup (UInt8.toNat_inj.mp he)
    split
    · exact absurd ‹_› hne
    · exact (exec_inv_writes (t := u) maps hpc).of_eq hn

/-- The entry `0x0f`. -/
theorem escape_entry_writes {s : State D}
    (hend : s.seq_pc.toNat + escape_bytes (code s) ≤ PMEM_SIZE) :
    (Debug.case_entry pure (Debug.exec_2byte_esc maps) 0 s).Writes (s.pc.toNat + 8 ≤ PMEM_SIZE)
      (3 * (escape_bytes (code s) + 8)) := by
  let v := set_width 0 s
  have hv : code v = code s ∧ v.seq_pc = s.seq_pc := ⟨rfl, rfl⟩
  have hesc :=
    exec_2byte_esc_writes maps (show v.pc = s.pc from rfl) (by rw [hv.1, hv.2]; exact hend)
  rw [hv.1] at hesc
  refine (Logged.Writes.bind (Logged.Returns.pure v) ?_).of_eq (Nat.zero_add _)
  intro t ht
  obtain rfl := Except.ok.inj ht
  exact hesc

/-- The entry `0x83`, which does not come to `exec_gp`. -/
theorem SI2E_entry_writes {p : Prop} {s : State D}
    (hend : s.seq_pc.toNat + (code s).form_length ≤ PMEM_SIZE) :
    (Debug.case_entry (Debug.decode_SI2E maps) (Debug.exec_gp maps) 0 s).Writes p
      (3 * (code s).form_length) := by
  have hsized : Sized (set_width 0 s) (operand_size s) := set_width_sized false
  have hne : operand_size s ≠ 1 := by
    unfold operand_size
    split <;> decide
  obtain ⟨e, he⟩ := decode_SI2E_stops maps (set_width 0 s)
  exact Logged.Writes.stop (decode_SI2E_writes maps hsized hne hend) he _

/-- Outside the groups the count does not depend on a read. -/
theorem rest_bytes_eq {size : Nat} {c : Code} (h : rm_group size c = none) (g : Gprs)
    (mem : Paddr.Mem D) : rest_bytes maps size c g mem = operand_bytes size c + inv_bytes c := by
  have hread : rm_read maps size c g mem = true := by
    unfold rm_read
    rw [h]
  unfold rest_bytes
  rw [if_pos hread]

/-- The guest does not see what a helper of a group does. -/
theorem group_pc (opcode : UInt8) {id : State D → Logged UInt8 (State D)}
    {id' : State D → Except Fault (State D)} {w : Int}
    (hgroup : group_entry maps opcode = some (id', w)) (hid : ∀ v, (id v).result = id' v)
    (v t : State D) (ht : (id v).result = .ok t) : t.pc = v.pc := by
  rw [hid] at ht
  exact (group_unseen maps hgroup ht).pc

/-- The groups that read their operand. -/
theorem rm_group_writes {c : Code} {s : State D} {byte : Bool} {k : Nat}
    (hc : rm_group (operand_size s) c = some (byte, k)) (hcode : code s = c.drop 1)
    (hend : s.seq_pc.toNat + operand_bytes (operand_size s) c ≤ PMEM_SIZE) :
    (Debug.decode_exec maps (c 0) s).Writes (s.pc.toNat + 8 ≤ PMEM_SIZE)
      (3 * rest_bytes maps (operand_size s) c s.gpr s.mem) := by
  have hI2E := group_pc maps 0x80 rfl (Debug.decode_I2E_result maps)
  have hIb2E := group_pc maps 0xc0 rfl (Debug.decode_gp2_Ib2E_result maps)
  have h1E := group_pc maps 0xd0 rfl (Debug.decode_gp2_1_E_result maps)
  have hcl2E := group_pc maps 0xd2 rfl (Debug.decode_gp2_cl2E_result maps)
  have hE := group_pc maps 0xf6 rfl (Debug.decode_E_result maps)
  have hfirst : ∀ v, ∃ rest : State D → Logged UInt8 (State D),
      Debug.decode_E maps v = Debug.operand_rm maps .dest true none false v >>= rest :=
    fun v => ⟨pure, (Logged.bind_pure _).symm⟩
  have hform := hc
  unfold rm_group at hform
  split at hform
  all_goals cases hform
  all_goals
    rename_i hopcode
    unfold Debug.decode_exec
    rw [hopcode]
  · exact group_entry_writes maps true hc hcode (fun v => ⟨_, rfl⟩)
      (fun _ => decode_I2E_returns maps true) hI2E hend
  · exact group_entry_writes maps true hc hcode (fun v => ⟨_, rfl⟩)
      (fun _ => decode_gp2_Ib2E_returns maps) hIb2E hend
  · exact group_entry_writes maps false hc hcode (fun v => ⟨_, rfl⟩)
      (fun _ => decode_I2E_returns maps true) hI2E hend
  · exact group_entry_writes maps false hc hcode (fun v => ⟨_, rfl⟩)
      (fun _ => decode_gp2_Ib2E_returns maps) hIb2E hend
  · exact group_entry_writes maps true hc hcode (fun v => ⟨_, rfl⟩)
      (fun _ => decode_gp2_1_E_returns maps) h1E hend
  · exact group_entry_writes maps true hc hcode (fun v => ⟨_, rfl⟩)
      (fun _ => decode_gp2_cl2E_returns maps) hcl2E hend
  · exact group_entry_writes maps true hc hcode hfirst (fun _ => decode_E_returns maps) hE hend
  · exact group_entry_writes maps true hc hcode hfirst (fun _ => decode_E_returns maps) hE hend
  · exact group_entry_writes maps false hc hcode (fun v => ⟨_, rfl⟩)
      (fun _ => decode_gp2_1_E_returns maps) h1E hend
  · exact group_entry_writes maps false hc hcode (fun v => ⟨_, rfl⟩)
      (fun _ => decode_gp2_cl2E_returns maps) hcl2E hend
  · exact group_entry_writes maps false hc hcode hfirst (fun _ => decode_E_returns maps) hE hend
  · exact group_entry_writes maps false hc hcode hfirst (fun _ => decode_E_returns maps) hE hend

/-- `decode_mov_G2E` and `decode_mov_E2G` behind `set_width`. -/
theorem mov_rm_writes {p : Prop} {rm : OpName} {reg : Option OpName} (load load' : Bool)
    (htwo : reg ≠ some rm) {s v : State D} {w : Nat} (hsized : Sized v w) (hv : SameInstr s v)
    (hend : s.seq_pc.toNat + (code s).form_length ≤ PMEM_SIZE) :
    (Debug.operand_rm maps rm load reg load' v).Writes p (3 * (code s).form_length) := by
  rw [← hv.code]
  rw [← hv.code, ← hv.seq_pc] at hend
  exact operand_rm_writes maps rm reg load load' (hsized.operands htwo) hend

theorem mov_I2E_writes {p : Prop} {s v : State D} {w : Nat} (hsized : Sized v w)
    (hv : SameInstr s v) (hend : s.seq_pc.toNat + ((code s).form_length + w) ≤ PMEM_SIZE) :
    (Debug.decode_mov_I2E maps v).Writes p (3 * ((code s).form_length + w)) := by
  rw [← hv.code]
  rw [← hv.code, ← hv.seq_pc] at hend
  exact (decode_I2E_returns maps false hsized hend fun h => absurd h Bool.false_ne_true).toWrites

theorem decode_exec_writes {c : Code} {s : State D} (hcode : code s = c.drop 1)
    (hend : s.seq_pc.toNat + operand_bytes (operand_size s) c ≤ PMEM_SIZE) :
    (Debug.decode_exec maps (c 0) s).Writes (s.pc.toNat + 8 ≤ PMEM_SIZE)
      (3 * rest_bytes maps (operand_size s) c s.gpr s.mem) := by
  cases hgroup : rm_group (operand_size s) c with
  | some r => exact rm_group_writes maps hgroup hcode hend
  | none =>
    have hmov : ∀ t, (Debug.exec_mov maps t).text = [] := fun _ => rfl
    rw [rest_bytes_eq maps hgroup]
    unfold rm_group at hgroup
    unfold Debug.decode_exec
    split
    case h_42 =>
      have hbytes : operand_bytes (operand_size s) c = 0 ∧ inv_bytes c = 8 := by
        unfold operand_bytes inv_bytes
        constructor
        all_goals
          split
          all_goals first
            | rfl
            | exact absurd ‹_› (by assumption)
      rw [hbytes.1, hbytes.2]
      exact exec_inv_writes maps rfl
    all_goals
      rename_i hopcode
      simp only [hopcode, reduceCtorEq] at hgroup
    -- Both counts are read off the opcode.
    all_goals
      unfold operand_bytes at hend ⊢
      unfold inv_bytes
      rw [hopcode] at hend ⊢
      rw [← hcode] at hend ⊢
    case h_1 => exact escape_entry_writes maps hend
    case h_4 => exact SI2E_entry_writes maps hend
    case h_5 =>
      exact case_entry_silent true
        (fun v h hv => mov_rm_writes maps false true (by decide) h hv hend) hmov
    case h_6 =>
      exact case_entry_silent false
        (fun v h hv => mov_rm_writes maps false true (by decide) h hv hend) hmov
    case h_7 =>
      exact case_entry_silent true
        (fun v h hv => mov_rm_writes maps true false (by decide) h hv hend) hmov
    case h_8 =>
      exact case_entry_silent false
        (fun v h hv => mov_rm_writes maps true false (by decide) h hv hend) hmov
    case h_9 =>
      exact case_entry_silent true (fun v _ hv => decode_O2a_writes maps (hv.seq_pc ▸ hend)) hmov
    case h_10 =>
      exact case_entry_silent false (fun v _ hv => decode_O2a_writes maps (hv.seq_pc ▸ hend)) hmov
    case h_11 =>
      exact case_entry_silent true (fun v h hv => decode_a2O_writes maps h (hv.seq_pc ▸ hend)) hmov
    case h_12 =>
      exact case_entry_silent false (fun v h hv => decode_a2O_writes maps h (hv.seq_pc ▸ hend)) hmov
    case h_21 | h_22 | h_23 | h_24 | h_25 | h_26 | h_27 | h_28 =>
      exact case_entry_silent false
        (fun v h hv => decode_mov_I2r_writes maps h (hv.seq_pc ▸ hend)) hmov
    case h_31 =>
      exact case_entry_silent true (fun v h hv => mov_I2E_writes maps h hv hend) hmov
    case h_32 =>
      exact case_entry_silent false (fun v h hv => mov_I2E_writes maps h hv hend) hmov
    case h_37 =>
      exact case_entry_silent false (fun _ _ _ => (Logged.Returns.pure _).toWrites) fun _ => rfl
    all_goals
      exact case_entry_silent true
        (fun v h hv => decode_mov_I2r_writes maps h (hv.seq_pc ▸ hend)) hmov

/-! ## Section 6: Prefixes -/

/-- `n` operand-size bytes in front of an instruction. -/
def prefixed (n : Nat) (c : Code) : Code := fun k => if k < n then 0x66 else c (k - n)

theorem prefixed_first (n : Nat) (c : Code) : prefixed (n + 1) c 0 = 0x66 := rfl

theorem prefixed_drop (n : Nat) (c : Code) : (prefixed (n + 1) c).drop 1 = prefixed n c := by
  funext k
  show (if 1 + k < n + 1 then 0x66 else c (1 + k - (n + 1))) = if k < n then 0x66 else c (k - n)
  by_cases hk : k < n
  · rw [if_pos hk, if_pos (by omega)]
  · have hindex : 1 + k - (n + 1) = k - n := by omega
    rw [if_neg hk, if_neg (by omega), hindex]

/-- The width of the operands behind the prefixes. -/
def prefixed_size (n size : Nat) : Nat := if 0 < n then 2 else size

theorem prefixed_size_zero (size : Nat) : prefixed_size 0 size = size := rfl

theorem prefixed_size_succ (n size : Nat) : prefixed_size (n + 1) size = prefixed_size n 2 :=
  (ite_self 2).symm

/-- The bytes from the first prefix to the last operand. -/
def instr_bytes (n size : Nat) (c : Code) : Nat := n + 1 + operand_bytes (prefixed_size n size) c

/-- The bytes that are fetched for the instruction. -/
def fetched_bytes (n size : Nat) (c : Code) (g : Gprs) (mem : Paddr.Mem D) : Nat :=
  n + 1 + rest_bytes maps (prefixed_size n size) c g mem

/-- The state behind an opcode. -/
def State.behind_opcode (s : State D) : State D :=
  { s.at 1 with opcode := BitVec.ofNat 32 (code s 0).toNat }

theorem code_behind_opcode {s : State D} (hend : s.seq_pc.toNat + 1 ≤ PMEM_SIZE) :
    code s.behind_opcode = (code s).drop 1 :=
  code_at hend

theorem seq_pc_behind_opcode {s : State D} (hend : s.seq_pc.toNat + 1 ≤ PMEM_SIZE) :
    s.behind_opcode.seq_pc.toNat = s.seq_pc.toNat + 1 :=
  pc_add hend

/-- One turn of the loop over the prefixes. -/
theorem fetch_decode_exec_turn {p : Prop} {s : State D} {fuel m : Nat}
    (hend : s.seq_pc.toNat + 1 ≤ PMEM_SIZE)
    (hrest : (if code s 0 = 0x66 then
        Debug.fetch_decode_exec maps fuel { s.behind_opcode with is_operand_size_16 := true }
      else Debug.decode_exec maps (code s 0) s.behind_opcode).Writes p (3 * m)) :
    (Debug.fetch_decode_exec maps (fuel + 1) s).Writes p (3 * (1 + m)) := by
  have hfetch := instr_fetch_first maps (s := s) (.inl rfl) hend
  have hcount := (Nat.mul_add 3 1 m).symm
  refine (Logged.Writes.bind (instr_fetch_returns maps fun _ => ⟨.inl rfl, hend⟩) ?_).of_eq hcount
  intro r hr
  rw [Debug.instr_fetch_result, hfetch] at hr
  obtain rfl := Except.ok.inj hr
  simp only [byte_load]
  exact hrest

/-- The induction is on the prefixes that are left. -/
theorem fetch_decode_exec_writes (n : Nat) {c : Code} (hc : c 0 ≠ 0x66) {s : State D} {fuel : Nat}
    (hcode : code s = prefixed n c)
    (hend : s.seq_pc.toNat + instr_bytes n (operand_size s) c ≤ PMEM_SIZE) (hfuel : n < fuel) :
    (Debug.fetch_decode_exec maps fuel s).Writes (s.pc.toNat + 8 ≤ PMEM_SIZE)
      (3 * fetched_bytes maps n (operand_size s) c s.gpr s.mem) := by
  induction n generalizing s fuel with
  | zero =>
    obtain ⟨fuel, rfl⟩ := Nat.exists_eq_add_one.mpr hfuel
    obtain rfl : code s = c := hcode
    unfold instr_bytes at hend
    unfold fetched_bytes
    rw [prefixed_size_zero, Nat.zero_add] at hend ⊢
    have hfirst : s.seq_pc.toNat + 1 ≤ PMEM_SIZE := by omega
    have hpc := seq_pc_behind_opcode hfirst
    have hin : s.behind_opcode.seq_pc.toNat +
        operand_bytes (operand_size s.behind_opcode) (code s) ≤ PMEM_SIZE := by
      have hsize : operand_size s.behind_opcode = operand_size s := rfl
      rw [hpc, hsize]
      omega
    apply fetch_decode_exec_turn maps hfirst
    rw [if_neg hc]
    exact decode_exec_writes maps (code_behind_opcode hfirst) hin
  | succ n ih =>
    obtain ⟨fuel, rfl⟩ := Nat.exists_eq_add_one.mpr (Nat.lt_of_le_of_lt (Nat.zero_le _) hfuel)
    unfold instr_bytes at hend
    unfold fetched_bytes
    rw [prefixed_size_succ] at hend ⊢
    have hfirst : s.seq_pc.toNat + 1 ≤ PMEM_SIZE := by omega
    let u : State D := { s.behind_opcode with is_operand_size_16 := true }
    have hpc : u.seq_pc.toNat = s.seq_pc.toNat + 1 := seq_pc_behind_opcode hfirst
    have hucode : code u = prefixed n c := by
      rw [← prefixed_drop, ← hcode]
      exact code_behind_opcode hfirst
    have hbyte : code s 0 = 0x66 := by
      rw [hcode]
      exact prefixed_first n c
    -- The operand size is 2 from here on.
    have hsize : operand_size u = 2 := rfl
    have hrest := ih hucode (by unfold instr_bytes; rw [hsize]; omega) (show n < fuel by omega)
    rw [Nat.add_comm n 1, Nat.add_assoc 1, Nat.add_assoc 1]
    apply fetch_decode_exec_turn maps hfirst
    rw [if_pos hbyte]
    exact hrest

/-! ## Section 7: The buffer -/

/-- A stream of bytes: operand-size bytes, and an instruction that fits into
    guest memory with them. -/
structure InstrStream where
  prefixes : Nat
  body     : Code
  opcode   : body 0 ≠ 0x66
  fits     : instr_bytes prefixes 4 body ≤ PMEM_SIZE

namespace InstrStream

/-- The length of the instruction. -/
def size (b : InstrStream) : Nat := instr_bytes b.prefixes 4 b.body

/-- The bytes that are fetched for it in the state `s`. -/
def fetched (b : InstrStream) (s : State D) : Nat :=
  fetched_bytes maps b.prefixes 4 b.body s.gpr s.mem

/-- The stream is at `pc`. -/
def At (b : InstrStream) (s : State D) : Prop :=
  s.instr = prefixed b.prefixes b.body ∧ s.pc.toNat + b.size ≤ PMEM_SIZE

end InstrStream

/-- Three characters for each byte, unless the two words for the message are not
    there. -/
theorem isa_exec_once_writes {b : InstrStream} {s : State D} {fuel : Nat} (hs : b.At s)
    (hfuel : b.prefixes < fuel) :
    (Debug.isa_exec_once maps fuel s).Writes (s.pc.toNat + 8 ≤ PMEM_SIZE)
    (3 * b.fetched maps s) := by
  have hcode : code (start s) = prefixed b.prefixes b.body := hs.1
  -- The instruction starts with 32-bit operands.
  have hrun := fetch_decode_exec_writes maps b.prefixes b.opcode hcode hs.2 hfuel
  exact hrun.bind_silent fun _ => rfl

theorem inv_bytes_le (c : Code) : inv_bytes c ≤ 8 := by
  unfold inv_bytes
  split <;> decide

/-- No form is longer than its instruction. -/
theorem rest_bytes_le (size : Nat) (c : Code) (g : Gprs) (mem : Paddr.Mem D) :
    rest_bytes maps size c g mem ≤ operand_bytes size c + 8 := by
  have hinv := inv_bytes_le c
  unfold rest_bytes
  split
  · omega
  · rename_i hread
    -- Only a group can fail to read.
    cases hgroup : rm_group size c with
    | none =>
      unfold rm_read at hread
      rw [hgroup] at hread
      exact absurd rfl hread
    | some r =>
      obtain ⟨byte, k⟩ := r
      have hbytes := (rm_group_bytes hgroup).1
      omega

/-- The text of one instruction fits with its NUL exactly if at most 26 bytes are
    fetched. -/
theorem text_fits_iff {b : InstrStream} {s : State D} {fuel : Nat} (hs : b.At s)
    (hfuel : b.prefixes < fuel) :
    (Debug.isa_exec_once maps fuel s).text.length + 1 ≤ Debug.LOG_BUF_SIZE ↔
      b.fetched maps s ≤ 26 := by
  have hbuf : Debug.LOG_BUF_SIZE = 80 := rfl
  have hwrites := isa_exec_once_writes maps hs hfuel
  rw [hbuf]
  by_cases hpc : s.pc.toNat + 8 ≤ PMEM_SIZE
  · have heq := hwrites.eq hpc
    omega
  · -- The instruction has seven bytes at most.
    have hle := hwrites.le
    have hsize : s.pc.toNat + b.size ≤ PMEM_SIZE := hs.2
    have hrest := rest_bytes_le maps (prefixed_size b.prefixes 4) b.body s.gpr s.mem
    have hfetched : b.fetched maps s ≤ b.size + 8 := by
      unfold InstrStream.fetched fetched_bytes InstrStream.size instr_bytes
      omega
    omega

/-- One turn of the loop of `cpu_exec`: the text of the instruction is appended
    to `log_bytebuf`, and `asm_print` prints the line. -/
def exec_print (fuel : Nat) (s : State D) (bufs : Debug.LogBufs) :
    Debug.LogBufs × Except Fault (State D × Debug.LogBufs) :=
  let run := Debug.isa_exec_once maps fuel s
  let bufs := { bufs with log_bytebuf := bufs.log_bytebuf ++ run.text }
  (bufs, do
    let t ← run.result
    return (t, (Debug.asm_print s.pc (t.seq_pc - s.pc).toInt bufs).2))

/-- In a run of as many instructions as there are streams, `log_bytebuf` has room
    for its text and its NUL behind each, and is empty before the next. -/
def LogFits (fuel : Nat) : List InstrStream → State D → Debug.LogBufs → Prop
  | [], _, _ => True
  | _ :: bs, s, bufs =>
      (exec_print maps fuel s bufs).1.log_bytebuf.length + 1 ≤ Debug.LOG_BUF_SIZE ∧
        ∀ s' bufs', (exec_print maps fuel s bufs).2 = .ok (s', bufs') →
          bufs'.log_bytebuf = [] ∧ LogFits fuel bs s' bufs'

/-- `P` holds of each stream and of the state in which it is executed. -/
def Along (fuel : Nat) (P : InstrStream → State D → Prop) : List InstrStream → State D → Prop
  | [], _ => True
  | b :: bs, s => P b s ∧ ∀ s', isa_exec_once maps fuel s = .ok s' → Along fuel P bs s'

/-- In a run of any instructions in guest memory, whatever devices there are,
    the buffer never overflows exactly if each fetches at most 26 bytes. -/
theorem log_fits_iff (fuel : Nat) (bs : List InstrStream) {s : State D}
    (h : Along maps fuel (fun b s => b.At s ∧ b.prefixes < fuel) bs s) (asmbuf : List UInt8) :
    LogFits maps fuel bs s ⟨[], asmbuf⟩ ↔
    Along maps fuel (fun b s => b.fetched maps s ≤ 26) bs s := by
  induction bs generalizing s asmbuf with
  | nil => exact Iff.rfl
  | cons b bs ih =>
    obtain ⟨⟨hs, hfuel⟩, hnext⟩ := h
    refine and_congr (text_fits_iff maps hs hfuel) ⟨fun hlog t ht => ?_, fun hlog t bufs ht => ?_⟩
    · -- The line is printed, and the next instruction finds the buffer empty.
      have hrun := Debug.isa_exec_once_result maps fuel s
      rw [ht] at hrun
      have hstep : (exec_print maps fuel s ⟨[], asmbuf⟩).2 = .ok (t, ⟨[], []⟩) := by
        unfold exec_print
        dsimp only
        rw [hrun]
        rfl
      exact (ih (hnext t ht) []).mp (hlog _ _ hstep).2
    · unfold exec_print at ht
      obtain ⟨u, hu, ht⟩ := bind_eq_ok ht
      obtain ⟨rfl, rfl⟩ := Prod.mk.inj (Except.ok.inj ht)
      rw [Debug.isa_exec_once_result] at hu
      exact ⟨rfl, (ih (hnext u hu) []).mpr (hlog u hu)⟩

/-- 14 operand-size bytes before an `add` to the word at 0xfffffff0. -/
def far_add : InstrStream where
  prefixes := 14
  body     := fun k => [0x81, 0x05, 0xf0, 0xff, 0xff, 0xff, 0x34, 0x12].getD k 0
  opcode   := by decide
  fits     := by decide

/-- Where no device is behind the address, the immediate is not fetched. -/
example : far_add.fetched [] sib_state = 20 := by decide

/-- A device elsewhere changes nothing. -/
theorem far_add_fetched (s : State Unit) : far_add.fetched [write_only] s = 20 := by
  have hbase : (far_add.body.drop 1).base = none := by decide
  have hindex : (far_add.body.drop 1).index = none := by decide
  have hdisp : (far_add.body.drop 1).disp = 0xfffffff0 := by decide
  have haddress : (far_add.body.drop 1).address s.gpr = 0xfffffff0 := by
    rw [Code.address, hbase, hindex, hdisp]
    show (0 + 0 + 0xfffffff0 : BitVec 32) = 0xfffffff0
    decide
  have hread : rm_read [write_only] 2 far_add.body s.gpr s.mem = false := by
    have hgroup : rm_group 2 far_add.body = some (false, 2) := by decide
    have hmod : ((far_add.body.drop 1).mod == 3) = false := by decide
    unfold rm_read
    rw [hgroup]
    dsimp only
    rw [hmod, haddress]
    rfl
  unfold InstrStream.fetched fetched_bytes rest_bytes
  rw [show prefixed_size far_add.prefixes 4 = 2 from rfl, hread]
  decide

/-- `mov $0x1234, %ax`, and then `far_add`. -/
def mov_then_add : InstrStream where
  prefixes := 1
  body     := fun k =>
    if k < 3 then [0xb8, 0x34, 0x12].getD k 0 else prefixed 14 far_add.body (k - 3)
  opcode   := by decide
  fits     := by decide

theorem mov_then_add_behind {k : Nat} (h : 3 ≤ k) :
    mov_then_add.body k = prefixed 14 far_add.body (k - 3) :=
  if_neg (Nat.not_lt.mpr h)

/-- They begin at 0x100. -/
def two_instr_bytes : Store := fun a => prefixed 1 mov_then_add.body (a - 0x100)

def two_instr_state : State Unit :=
  { sib_state with pc := 0x100, mem := { Paddr.zeroMem with pmem := two_instr_bytes } }

theorem log_fits_iff_two_instr :
    LogFits [write_only] 15 [mov_then_add, far_add] two_instr_state ⟨[], []⟩ := by
  obtain ⟨t, hrun, -, hmem, hpc, -⟩ := isa_exec_once_mov [write_only] 13 (s := two_instr_state)
    (i := ⟨4, 2, .reg 0, .imm 0x1234⟩) (by decide) (by decide) ⟨trivial, trivial⟩
  have hbytes : two_instr_state.mem.pmem = two_instr_bytes := by
    unfold two_instr_state
    dsimp only
  have hstart : two_instr_state.pc.toNat = 0x100 := by decide
  have hfirst : mov_then_add.At two_instr_state := by
    refine ⟨?_, by decide⟩
    funext k
    show two_instr_state.mem.pmem (two_instr_state.pc.toNat + k) = _
    rw [hstart, hbytes]
    unfold two_instr_bytes
    rw [Nat.add_sub_cancel_left]
    rfl
  -- A register is written, so the bytes stay.
  have hkept : t.mem.pmem = two_instr_bytes := by
    rw [hmem]
    dsimp only [Place.write]
    exact hbytes
  have hcursor : t.pc.toNat = 0x104 := by
    rw [hpc]
    decide
  have hsecond : far_add.At t := by
    constructor
    · funext k
      show t.mem.pmem (t.pc.toNat + k) = _
      rw [hkept, hcursor]
      have hmov : prefixed 1 mov_then_add.body (0x104 + k - 0x100) =
          mov_then_add.body (0x104 + k - 0x100 - 1) := if_neg (by omega)
      have hindex : 0x104 + k - 0x100 - 1 - 3 = k := by omega
      unfold two_instr_bytes
      rw [hmov, mov_then_add_behind (by omega), hindex]
      rfl
    · rw [hcursor]
      decide
  have hnext : ∀ s', isa_exec_once [write_only] 15 two_instr_state = .ok s' → s' = t := by
    intro s' hs'
    exact Except.ok.inj (hs'.symm.trans hrun)
  have hfour : mov_then_add.fetched [write_only] two_instr_state = 4 := rfl
  refine (log_fits_iff [write_only] 15 [mov_then_add, far_add]
    ⟨⟨hfirst, by decide⟩, fun s' hs' => ?_⟩ []).mpr
    ⟨hfour.le.trans (by decide), fun s' hs' => ?_⟩
  · rw [hnext s' hs']
    exact ⟨⟨hsecond, by decide⟩, fun _ _ => trivial⟩
  · have hfetched := far_add_fetched s'
    exact ⟨hfetched.le.trans (by decide), fun _ _ => trivial⟩

/-- 26 operand-size bytes before `nemu_trap`. -/
def long_stream : InstrStream where
  prefixes := 26
  body     := fun _ => 0xd6
  opcode   := by decide
  fits     := by decide

/-- The stream at the start of guest memory. -/
def long_state : State Unit :=
  { sib_state with
    pc  := 0
    mem := { Paddr.zeroMem with pmem := prefixed long_stream.prefixes long_stream.body } }

theorem log_overflows : ¬ ∀ (fuel : Nat) (bs : List InstrStream) (s : State Unit),
    Along [] fuel (fun b s => b.At s ∧ b.prefixes < fuel) bs s → LogFits [] fuel bs s ⟨[], []⟩ := by
  intro h
  have hat : long_stream.At long_state := by
    refine ⟨?_, by decide⟩
    funext k
    show prefixed long_stream.prefixes long_stream.body (0 + k) = _
    rw [Nat.zero_add]
  have hfits := (h 27 [long_stream] long_state ⟨⟨hat, by decide⟩, fun _ _ => trivial⟩).1
  have hfetched := (text_fits_iff [] hat (show long_stream.prefixes < 27 by decide)).mp hfits
  exact absurd hfetched (by decide)

end Nemu.X86
