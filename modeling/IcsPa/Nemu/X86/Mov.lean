import IcsPa.Nemu.X86.ModRM

/-! # MOV on x86

    Each decode helper leaves a source that points at the value to move and a
    destination that names the place; `exec_mov` stores the one in the other.
    The operands may share registers and memory: nothing is written before
    everything has been read. -/

open CCall Bytes I386

namespace Nemu.X86

variable {D : Type} (maps : List (Paddr.IOMap D))

/-! ## Section 1: exec_mov -/

/-- `id_dest` names a place. -/
def IsDest (t : State D) : Place → Prop
  | .reg r => (t.op .dest).type = .OP_TYPE_REG ∧ (t.op .dest).reg = BitVec.ofNat 32 r.val
  | .mem a => (t.op .dest).type = .OP_TYPE_MEM ∧
      ∃ p, t.mbase = some p ∧ IsBase p ∧ t.get p + t.moff = a

theorem IsDest.frame {t u : State D} {dst : Place} (h : IsDest t dst) (hgpr : u.gpr = t.gpr)
    (hop : u.op .dest = t.op .dest) (hmbase : u.mbase = t.mbase) (hmbr : u.mbr = t.mbr)
    (hmoff : u.moff = t.moff) : IsDest u dst := by
  cases dst with
  | reg r =>
    unfold IsDest
    rw [hop]
    exact h
  | mem a =>
    obtain ⟨htype, p, hp, hbase, ha⟩ := h
    refine ⟨by rw [hop]; exact htype, p, hmbase.trans hp, hbase, ?_⟩
    rw [get_base_eq hbase hgpr hmbr, hmoff]
    exact ha

/-- `id_src1` points at a value. -/
def IsSource (t : State D) (x : BitVec 32) : Prop :=
  ∃ p, (t.op .src1).preg = some p ∧ t.get p = x

/-- What a decode helper leaves in `t`: all operands have the width of `i`. -/
structure MovReady (s t : State D) (i : Mov) : Prop where
  fetched : Fetched s t i.length
  mem     : t.mem = s.mem
  src     : IsSource t (i.src.value i.width s.gpr s.mem.pmem)
  dst     : IsDest t i.dst

theorem check_reg_index_eq :
    ∀ r : Fin 8, check_reg_index (BitVec.ofNat 32 r.val).toNat = .ok r := by
  decide

/-- Put a value in a place. -/
def State.write_place (t : State D) (w : Nat) (dst : Place) (x : BitVec 32) : State D :=
  { t with
    gpr := (dst.write w t.gpr t.mem.pmem x).1
    mem := { t.mem with pmem := (dst.write w t.gpr t.mem.pmem x).2 } }

/-- The effect of `exec_mov`. -/
theorem exec_mov_spec {t : State D} {dst : Place} {x : BitVec 32} {w : Nat}
    (hw : w = 1 ∨ w = 2 ∨ w = 4) (hwidth : (t.op .dest).width = w) (hsrc : IsSource t x)
    (hdst : IsDest t dst) (hin : dst.Inside PMEM_SIZE w) :
    exec_mov maps t = .ok (t.write_place w dst x) := by
  obtain ⟨p, hp, hx⟩ := hsrc
  have hpreg : dsrc1 t = .ok p := by rw [dsrc1, hp, deref]
  rw [exec_mov, hpreg, ok_bind, operand_write]
  cases dst with
  | reg r =>
    obtain ⟨htype, hreg⟩ := hdst
    rw [htype, hreg, hwidth]
    simp only [check_reg_index_eq, ok_bind, rtl_sr_eq r p hw, hx]
    rfl
  | mem a =>
    obtain ⟨htype, q, hq, _, ha⟩ := hdst
    have hmbase : deref t.mbase = .ok q := by rw [hq, deref]
    have hfits : Fits (t.get q + t.moff) w := ⟨hw, by rw [ha]; exact hin⟩
    rw [htype, hwidth]
    simp only [hmbase, ok_bind, rtl_sm_pmem maps hfits, hx, ha]
    rfl

/-! ## Section 2: Decoding -/

/-- An immediate behind the bytes that have been fetched. -/
theorem decode_op_I_at {t : State D} {w : Nat} (hw : w = 1 ∨ w = 2 ∨ w = 4)
    (hwidth : (t.op .src1).width = w) (hend : t.seq_pc.toNat + w ≤ PMEM_SIZE) :
    ∃ u, decode_op_I maps .src1 true t = .ok u ∧ Fetched t u w ∧ u.mem = t.mem ∧
      IsSource u (BitVec.ofNat 32 (load (code t) 0 w)) ∧
      ∀ dst, IsDest t dst → IsDest u dst := by
  have hfetch := instr_fetch_first maps (s := t) hw hend
  let imm := BitVec.ofNat 32 (load (code t) 0 w)
  let o : Operand := { t.op .src1 with
    type := .OP_TYPE_IMM, reg := imm, val := imm, preg := some (.val .src1) }
  have hrun : decode_op_I maps .src1 true t = .ok ((t.at w).with_op .src1 o) := by
    rw [decode_op_I, hwidth, hfetch, ok_bind]
    simp [operand_imm, rtl_li, rtl_addi, State.get, State.put, State.set_op, State.with_op, o, imm]
    rfl
  have hat : Fetched t (t.at w) w := ⟨rfl, rfl, rfl, rfl, rfl, rfl, rfl, fun _ => rfl⟩
  refine ⟨_, hrun, hat.with_op rfl, rfl, ⟨.val .src1, ?_, ?_⟩, ?_⟩
  · rw [with_op_self]
  · show (((t.at w).with_op .src1 o).op .src1).val = imm
    rw [with_op_self]
  · intro dst hdst
    exact hdst.frame rfl (with_op_ne (by decide) _ _) rfl rfl rfl

/-- A moffs operand at `s`, with the copy `v` when it is loaded. -/
theorem decode_op_O_at {s : State D} (q : OpName) (load_val : Bool) {w : Nat}
    (hw : w = 1 ∨ w = 2 ∨ w = 4) (hwidth : (s.op q).width = w)
    (hend : s.seq_pc.toNat + 4 ≤ PMEM_SIZE) :
    let a := BitVec.ofNat 32 (load (code s) 0 4)
    (load_val = true → a.toNat + w ≤ PMEM_SIZE) →
      ∃ o, decode_op_O maps q load_val s =
          .ok ({ s.at 4 with moff := a, mbase := some .rz }.with_op q o) ∧
        o.width = w ∧ o.type = .OP_TYPE_MEM ∧
        (load_val = true → o.preg = some (.val q) ∧
          o.val = BitVec.ofNat 32 (load s.mem.pmem a.toNat w)) := by
  intro a hload
  let e : State D := s.set_op q fun o => { o with type := .OP_TYPE_MEM }
  -- The offset is always four bytes.
  have hfetch : instr_fetch maps 4 e = .ok (a, e.at 4) :=
    instr_fetch_first maps (s := e) (.inr (.inr rfl)) hend
  let o : Operand := { s.op q with type := .OP_TYPE_MEM }
  cases load_val with
  | false =>
    refine ⟨o, ?_, hwidth, rfl, fun h => absurd h Bool.false_ne_true⟩
    show (instr_fetch maps 4 e >>= _) = _
    rw [hfetch]
    rfl
  | true =>
    let v := BitVec.ofNat 32 (load s.mem.pmem a.toNat w)
    let u : State D := { e.at 4 with moff := a, mbase := some .rz }
    -- The base register is `rz`, which is 0.
    have ha : u.get .rz + a = a := BitVec.zero_add a
    have hfits : Fits (u.get .rz + a) w := ⟨hw, by rw [ha]; exact hload rfl⟩
    have hlm : rtl_lm maps (.val q) .rz a w u = .ok (u.put (.val q) v) := by
      rw [rtl_lm_pmem maps hfits, ha]
      rfl
    have hop : (u.op q).width = w := by
      show (Function.update s.op q o q).width = w
      rw [Function.update_self]
      exact hwidth
    refine ⟨{ o with val := v, preg := some (.val q) }, ?_, hwidth, rfl, fun _ => ⟨rfl, rfl⟩⟩
    show (instr_fetch maps 4 e >>= _) = _
    rw [hfetch, ok_bind]
    show (rtl_lm maps (.val q) .rz a (u.op q).width u >>= _) = _
    rw [hop, hlm, ok_bind]
    simp [State.put, State.set_op, State.with_op, State.at, u, e, o]

theorem IsReg.isSource {t : State D} {r : Fin 8} {w : Nat}
    (h : IsReg t.gpr .src1 true r (t.op .src1)) (hwidth : (t.op .src1).width = w) :
    IsSource t (Gprs.part t.gpr w r) := by
  obtain ⟨p, hp, hval, _⟩ := h.pointer
  rw [hwidth] at hval
  exact ⟨p, hp, hval⟩

variable {maps} in
/-- The place that `mod` and `r/m` name. -/
theorem IsRm.isDest {s t : State D} (h : IsRm maps s t .dest false) :
    IsDest t ((code s).place s.gpr) ∧ t.mem = s.mem := by
  unfold Code.place
  by_cases hmod : (code s).mod = 3
  · obtain ⟨hreg, hmem⟩ := h.reg hmod
    rw [if_pos hmod]
    exact ⟨⟨hreg.type, hreg.reg⟩, hmem⟩
  · have hism := h.mem hmod
    rw [if_neg hmod]
    exact ⟨⟨hism.type, hism.addr⟩, hism.unread rfl⟩

variable {maps} in
theorem IsRm.isSource {s t : State D} {w : Nat} (h : IsRm maps s t .src1 true)
    (hgpr : t.gpr = s.gpr) (hw : w = 1 ∨ w = 2 ∨ w = 4) (hwidth : (t.op .src1).width = w)
    (hin : ((code s).place s.gpr).Inside PMEM_SIZE w) :
    IsSource t (((code s).place s.gpr).value w s.gpr s.mem.pmem) ∧ t.mem = s.mem := by
  unfold Code.place at hin ⊢
  by_cases hmod : (code s).mod = 3
  · obtain ⟨hreg, hmem⟩ := h.reg hmod
    rw [if_pos hmod]
    rw [← hgpr] at hreg ⊢
    exact ⟨hreg.isSource hwidth, hmem⟩
  · have hism := h.mem hmod
    rw [if_neg hmod] at hin ⊢
    have hval := hism.val rfl
    rw [hwidth, vaddr_read_pmem maps ⟨hw, hin⟩] at hval
    obtain ⟨hv, hmem⟩ := Prod.mk.inj (Except.ok.inj hval)
    exact ⟨⟨.val .src1, hism.preg, hv.symm⟩, hmem.symm⟩

/-- The decode helper of a form. -/
def mov_decoder (form : MovForm) : State D → Except Fault (State D) :=
  match form with
  | .r_to_rm => decode_mov_G2E maps
  | .rm_to_r => decode_mov_E2G maps
  | .moffs_to_a => decode_O2a maps
  | .a_to_moffs => decode_a2O maps
  | .imm_to_r _ => decode_mov_I2r maps
  | .imm_to_rm => decode_mov_I2E maps

section ready
variable {s : State D} {w : Nat} {i : Mov}

theorem widths_cases (hw : w = 1 ∨ w = 2 ∨ w = 4) (hwidth : ∀ q, (s.op q).width = w) (q : OpName) :
    (s.op q).width = 1 ∨ (s.op q).width = 2 ∨ (s.op q).width = 4 := by
  rw [hwidth]
  exact hw

theorem decode_mov_G2E_ready (hw : w = 1 ∨ w = 2 ∨ w = 4) (hwidth : ∀ q, (s.op q).width = w)
    (hi : MovForm.r_to_rm.operands w (code s) s.gpr = some i)
    (hend : s.seq_pc.toNat + i.length ≤ PMEM_SIZE) :
    ∃ t, decode_mov_G2E maps s = .ok t ∧ MovReady s t i := by
  have hwidths := widths_cases hw hwidth
  obtain rfl := Option.some.inj hi
  obtain ⟨t, hrun, h⟩ := read_ModR_M_at maps .dest (some .src1) false true
    ⟨hwidths .dest, fun q _ => hwidths q, by decide⟩ hend (fun h => absurd h Bool.false_ne_true)
  obtain ⟨hdst, hmem⟩ := h.rm_op.isDest
  have hreg := h.reg_op .src1 rfl
  rw [← h.fetched.gpr] at hreg
  have hsrc := hreg.isSource ((h.fetched.width .src1).trans (hwidth .src1))
  rw [h.fetched.gpr] at hsrc
  exact ⟨t, hrun, h.fetched, hmem, hsrc, hdst⟩

theorem decode_mov_E2G_ready (hw : w = 1 ∨ w = 2 ∨ w = 4) (hwidth : ∀ q, (s.op q).width = w)
    (hi : MovForm.rm_to_r.operands w (code s) s.gpr = some i)
    (hend : s.seq_pc.toNat + i.length ≤ PMEM_SIZE) (hin : i.src.Inside PMEM_SIZE w) :
    ∃ t, decode_mov_E2G maps s = .ok t ∧ MovReady s t i := by
  have hwidths := widths_cases hw hwidth
  obtain rfl := Option.some.inj hi
  have hfits : (code s).mod ≠ 3 → Fits ((code s).address s.gpr) w := by
    intro hmod
    have hin : ((code s).place s.gpr).Inside PMEM_SIZE w := hin
    rw [Code.place, if_neg hmod] at hin
    exact ⟨hw, hin⟩
  obtain ⟨t, hrun, h⟩ := read_ModR_M_at maps .src1 (some .dest) true false
    ⟨hwidths .src1, fun q _ => hwidths q, by decide⟩ hend
    (fun _ hmod => ⟨_, by rw [hwidth]; exact vaddr_read_pmem maps (hfits hmod) _⟩)
  obtain ⟨hsrc, hmem⟩ := h.rm_op.isSource h.fetched.gpr hw
    ((h.fetched.width .src1).trans (hwidth .src1)) hin
  have hreg := h.reg_op .dest rfl
  exact ⟨t, hrun, h.fetched, hmem, hsrc, hreg.type, hreg.reg⟩

/-- The offset, then the accumulator. -/
theorem decode_O2a_ready (hw : w = 1 ∨ w = 2 ∨ w = 4) (hwidth : ∀ q, (s.op q).width = w)
    (hi : MovForm.moffs_to_a.operands w (code s) s.gpr = some i)
    (hend : s.seq_pc.toNat + i.length ≤ PMEM_SIZE) (hin : i.src.Inside PMEM_SIZE w) :
    ∃ t, decode_O2a maps s = .ok t ∧ MovReady s t i := by
  obtain rfl := Option.some.inj hi
  obtain ⟨o, hmoffs, how, _, hval⟩ := decode_op_O_at maps .src1 true hw (hwidth .src1) hend
    (fun _ => hin)
  let u := { s.at 4 with
    moff := BitVec.ofNat 32 (load (code s) 0 4), mbase := some .rz }.with_op .src1 o
  have hu : Fetched s u 4 :=
    Fetched.with_op ⟨rfl, rfl, rfl, rfl, rfl, rfl, rfl, fun _ => rfl⟩
      (how.trans (hwidth .src1).symm)
  obtain ⟨o', hreg, how', hisreg⟩ := operand_reg_spec .dest false R_EAX (s := u)
    ((hu.width .dest).trans (hwidth .dest)) hw
  have hother : (u.with_op .dest o').op .src1 = o := by
    rw [with_op_ne (by decide), with_op_self]
  refine ⟨u.with_op .dest o', ?_, hu.with_op (how'.trans ?_), rfl, ?_, ?_⟩
  · show (decode_op_O maps .src1 true s >>= _) = _
    rw [hmoffs, ok_bind]
    show operand_reg .dest false R_EAX (u.op .dest).width u = _
    rw [hu.width, hwidth]
    exact hreg
  · rw [hu.width, hwidth]
  · refine ⟨.val .src1, by rw [hother]; exact (hval rfl).1, ?_⟩
    show ((u.with_op .dest o').op .src1).val = _
    rw [hother]
    exact (hval rfl).2
  · unfold IsDest
    rw [with_op_self]
    exact ⟨hisreg.type, hisreg.reg⟩

/-- The accumulator, then the offset. -/
theorem decode_a2O_ready (hw : w = 1 ∨ w = 2 ∨ w = 4) (hwidth : ∀ q, (s.op q).width = w)
    (hi : MovForm.a_to_moffs.operands w (code s) s.gpr = some i)
    (hend : s.seq_pc.toNat + i.length ≤ PMEM_SIZE) :
    ∃ t, decode_a2O maps s = .ok t ∧ MovReady s t i := by
  obtain rfl := Option.some.inj hi
  obtain ⟨o, hreg, how, hisreg⟩ := operand_reg_spec .src1 true R_EAX (hwidth .src1) hw
  have hu : Fetched s (s.with_op .src1 o) 0 :=
    (Fetched.refl s).with_op (how.trans (hwidth .src1).symm)
  have hcode : code (s.with_op .src1 o) = code s := rfl
  obtain ⟨o', hmoffs, how', htype, _⟩ := decode_op_O_at maps (s := s.with_op .src1 o) .dest false
    hw ((hu.width .dest).trans (hwidth .dest)) hend (fun h => absurd h Bool.false_ne_true)
  rw [hcode] at hmoffs
  let a := BitVec.ofNat 32 (load (code s) 0 4)
  let u : State D := { (s.with_op .src1 o).at 4 with moff := a, mbase := some .rz }
  have hu4 : Fetched s u 4 :=
    ⟨rfl, rfl, rfl, rfl, rfl, rfl, rfl, hu.width⟩
  have hother : (u.with_op .dest o').op .src1 = o := by
    rw [with_op_ne (by decide)]
    exact with_op_self s .src1 o
  refine ⟨u.with_op .dest o', ?_, hu4.with_op (how'.trans ?_), rfl, ?_, ?_⟩
  · show (operand_reg .src1 true R_EAX (s.op .src1).width s >>= _) = _
    rw [hwidth, hreg, ok_bind]
    exact hmoffs
  · rw [hu4.width, hwidth]
  · apply IsReg.isSource
    · rw [hother]
      exact hisreg
    · rw [hother]
      exact how
  · refine ⟨?_, .rz, rfl, trivial, BitVec.zero_add a⟩
    rw [with_op_self]
    exact htype

theorem decode_mov_I2r_ready {r : Fin 8} (hopcode : s.opcode.toNat % 8 = r.val)
    (hw : w = 1 ∨ w = 2 ∨ w = 4) (hwidth : ∀ q, (s.op q).width = w)
    (hi : (MovForm.imm_to_r r).operands w (code s) s.gpr = some i)
    (hend : s.seq_pc.toNat + i.length ≤ PMEM_SIZE) :
    ∃ t, decode_mov_I2r maps s = .ok t ∧ MovReady s t i := by
  obtain rfl := Option.some.inj hi
  obtain ⟨o, hreg, how, hisreg⟩ := operand_reg_spec .dest false r (hwidth .dest) hw
  let u := s.with_op .dest o
  have hu : Fetched s u 0 := (Fetched.refl s).with_op (how.trans (hwidth .dest).symm)
  obtain ⟨t, hrun, hfetched, hmem, hsrc, hkeep⟩ := decode_op_I_at maps (t := u) hw
    ((hu.width .src1).trans (hwidth .src1)) hend
  have hfetched' := hu.trans hfetched
  rw [Nat.zero_add] at hfetched'
  refine ⟨t, ?_, hfetched', hmem, hsrc, hkeep (.reg r) ?_⟩
  · have hr : (⟨s.opcode.toNat % 8, Nat.mod_lt _ (by decide)⟩ : Fin 8) = r :=
      Fin.ext hopcode
    show (operand_reg .dest false ⟨s.opcode.toNat % 8, Nat.mod_lt _ (by decide)⟩
      (s.op .dest).width s >>= _) = _
    rw [hr, hwidth, hreg, ok_bind]
    exact hrun
  · unfold IsDest
    rw [with_op_self]
    exact ⟨hisreg.type, hisreg.reg⟩

/-- The group has only one move. -/
theorem decode_mov_I2E_ready (hw : w = 1 ∨ w = 2 ∨ w = 4) (hwidth : ∀ q, (s.op q).width = w)
    (hi : MovForm.imm_to_rm.operands w (code s) s.gpr = some i)
    (hend : s.seq_pc.toNat + i.length ≤ PMEM_SIZE) :
    ∃ t, decode_mov_I2E maps s = .ok t ∧ MovReady s t i := by
  have hwidths := widths_cases hw hwidth
  by_cases hzero : (code s).reg = 0
  · obtain rfl := Option.some.inj ((if_pos hzero).symm.trans hi)
    have hend : s.seq_pc.toNat + ((code s).form_length + w) ≤ PMEM_SIZE := hend
    obtain ⟨u, hform, h⟩ := read_ModR_M_at maps .dest none false false
      ⟨hwidths .dest, fun q _ => hwidths q, by decide⟩ (by omega)
      (fun h => absurd h Bool.false_ne_true)
    obtain ⟨hdst, hmem⟩ := h.rm_op.isDest
    have hcode := h.fetched.code hmem (by omega)
    have hpc := h.fetched.seq_pc_toNat (by omega)
    obtain ⟨t, hrun, hfetched, hmem', hsrc, hkeep⟩ := decode_op_I_at maps (t := u) hw
      ((h.fetched.width .src1).trans (hwidth .src1)) (by omega)
    rw [hcode] at hsrc
    have hload : load ((code s).drop (code s).form_length) 0 w =
        load (code s) (code s).form_length w := load_stream (code s) _ 0 w
    rw [hload] at hsrc
    refine ⟨t, ?_, h.fetched.trans hfetched, hmem'.trans hmem, hsrc, hkeep _ hdst⟩
    show (operand_rm maps .dest false none false s >>= _) = _
    rw [operand_rm, hform, ok_bind]
    exact hrun
  · cases (if_neg hzero).symm.trans hi

/-- Each decode helper leaves the operands of its form. -/
theorem mov_ready (form : MovForm) (hw : w = 1 ∨ w = 2 ∨ w = 4)
    (hwidth : ∀ q, (s.op q).width = w)
    (hopcode : ∀ r, form = .imm_to_r r → s.opcode.toNat % 8 = r.val)
    (hi : form.operands w (code s) s.gpr = some i)
    (hend : s.seq_pc.toNat + i.length ≤ PMEM_SIZE) (hin : i.src.Inside PMEM_SIZE w) :
    ∃ t, mov_decoder maps form s = .ok t ∧ MovReady s t i := by
  cases form with
  | r_to_rm => exact decode_mov_G2E_ready maps hw hwidth hi hend
  | rm_to_r => exact decode_mov_E2G_ready maps hw hwidth hi hend hin
  | moffs_to_a => exact decode_O2a_ready maps hw hwidth hi hend hin
  | a_to_moffs => exact decode_a2O_ready maps hw hwidth hi hend
  | imm_to_r r => exact decode_mov_I2r_ready maps (hopcode r rfl) hw hwidth hi hend
  | imm_to_rm => exact decode_mov_I2E_ready maps hw hwidth hi hend

end ready

/-! ## Section 3: The whole instruction -/

/-- The opcode map sends each `MOV` to its helpers. -/
theorem decode_exec_mov {opcode : UInt8} {form : MovForm} {byte : Bool}
    (h : mov_form opcode = some (form, byte)) (s : State D) :
    decode_exec maps opcode s =
      case_entry (mov_decoder maps form) (exec_mov maps) (if byte then 1 else 0) s := by
  unfold mov_form at h
  split at h
  case h_11 n _ _ _ _ _ _ _ _ _ _ =>
    by_cases hn : 0xb0 ≤ opcode.toNat ∧ opcode.toNat < 0xc0
    · rw [if_pos hn] at h
      cases h
      obtain ⟨hlo, hhi⟩ := hn
      unfold decode_exec
      generalize opcode.toNat = n at hlo hhi
      interval_cases n <;> rfl
    · rw [if_neg hn] at h
      cases h
  all_goals
    rename_i hopcode
    cases h
    unfold decode_exec
    rw [hopcode]
    rfl

theorem mov_form_reg {opcode : UInt8} {r : Fin 8} {byte : Bool}
    (h : mov_form opcode = some (.imm_to_r r, byte)) : opcode.toNat % 8 = r.val := by
  unfold mov_form at h
  split at h
  case h_11 =>
    split at h
    · cases h
      show opcode.toNat % 8 = opcode.toNat / 1 % 8
      rw [Nat.div_one]
    · cases h
  all_goals cases h

/-- The operand-size byte is no opcode. -/
theorem mov_form_size_byte : mov_form 0x66 = none := rfl

/-- `t` is behind the `MOV` `i` of `s`. -/
structure Moved (s t : State D) (i : Mov) : Prop where
  gpr : t.gpr = (i.dst.write i.width s.gpr s.mem.pmem
    (i.src.value i.width s.gpr s.mem.pmem)).1
  mem : t.mem = { s.mem with pmem := (i.dst.write i.width s.gpr s.mem.pmem
    (i.src.value i.width s.gpr s.mem.pmem)).2 }
  seq_pc : t.seq_pc = s.seq_pc + BitVec.ofNat 32 i.length
  is_jmp : t.is_jmp = s.is_jmp
  nemu_state : t.nemu_state = s.nemu_state

/-- The accesses of a `MOV` are inside `pmem`. -/
def AccessesInside (i : Mov) : Prop :=
  i.dst.Inside PMEM_SIZE i.width ∧ i.src.Inside PMEM_SIZE i.width

/-- The operand size of an instruction. -/
def operand_size (s : State D) : Nat := if s.is_operand_size_16 then 2 else 4

theorem set_width_mov (byte : Bool) (s : State D) :
    set_width (if byte then 1 else 0) s =
      { s with op := fun q => { s.op q with width := if byte then 1 else operand_size s } } := by
  cases byte with
  | true => rfl
  | false => rfl

/-- The next opcode is that of a `MOV`. -/
theorem fetch_decode_exec_mov (fuel : Nat) {s : State D} {i : Mov}
    (hi : (code s).sized_mov (operand_size s) s.gpr = some i)
    (hend : s.seq_pc.toNat + i.length ≤ PMEM_SIZE) (hin : AccessesInside i) :
    ∃ t, fetch_decode_exec maps (fuel + 1) s = .ok t ∧ Moved s t i := by
  unfold Code.sized_mov at hi
  cases hform : mov_form (code s 0) with
  | none =>
    rw [hform] at hi
    cases hi
  | some fb =>
    obtain ⟨form, byte⟩ := fb
    rw [hform] at hi
    let w := if byte then 1 else operand_size s
    obtain ⟨j, hj, rfl⟩ := Option.map_eq_some_iff.mp hi
    have hend : s.seq_pc.toNat + (1 + j.length) ≤ PMEM_SIZE := hend
    have hw : w = 1 ∨ w = 2 ∨ w = 4 := by
      unfold w operand_size
      cases byte <;> cases s.is_operand_size_16 <;> decide
    -- The state behind the opcode, with the widths of the operands.
    let u : State D := { s.at 1 with
      opcode := BitVec.ofNat 32 (code s 0).toNat
      op := fun q => { s.op q with width := w } }
    have hcode : code u = (code s).drop 1 := code_at (show s.seq_pc.toNat + 1 ≤ PMEM_SIZE by omega)
    have hpc : u.seq_pc.toNat = s.seq_pc.toNat + 1 :=
      pc_add (show s.seq_pc.toNat + 1 ≤ PMEM_SIZE by omega)
    have hopcode : ∀ r, form = .imm_to_r r → u.opcode.toNat % 8 = r.val := by
      intro r hr
      have hlt : (code s 0).toNat < 2 ^ 32 := Nat.lt_trans (code s 0).toNat_lt (by decide)
      show (BitVec.ofNat 32 (code s 0).toNat).toNat % 8 = r.val
      rw [BitVec.toNat_ofNat, Nat.mod_eq_of_lt hlt]
      exact mov_form_reg (hr ▸ hform)
    have hjw : j.width = w := operands_width hj
    obtain ⟨hdst, hsrc⟩ := hin
    have hdst : j.dst.Inside PMEM_SIZE w := hjw ▸ hdst
    have hsrc : j.src.Inside PMEM_SIZE w := hjw ▸ hsrc
    obtain ⟨t, hdecode, hready⟩ := mov_ready maps form (s := u) hw (fun _ => rfl) hopcode
      (hcode ▸ hj) (by omega) hsrc
    have hexec := exec_mov_spec maps hw (hready.fetched.width .dest) hready.src hready.dst hdst
    have hne : code s 0 ≠ 0x66 := by
      intro h66
      rw [h66, mov_form_size_byte] at hform
      cases hform
    have hfetch := instr_fetch_first maps (s := s) (.inl rfl) (by omega)
    let x := j.src.value j.width s.gpr s.mem.pmem
    refine ⟨t.write_place w j.dst x, ?_, ?_⟩
    · rw [fetch_decode_exec, hfetch, ok_bind]
      simp only [byte_load, if_neg hne, decode_exec_mov maps hform, case_entry, set_width_mov]
      show (mov_decoder maps form u >>= exec_mov maps) = _
      rw [hdecode, ok_bind]
      exact hexec
    · refine ⟨?_, ?_, ?_, hready.fetched.is_jmp, hready.fetched.nemu_state⟩
      · show (j.dst.write w t.gpr t.mem.pmem x).1 = _
        rw [hready.fetched.gpr, hready.mem, ← hjw]
        rfl
      · show { t.mem with pmem := (j.dst.write w t.gpr t.mem.pmem x).2 } = _
        rw [hready.fetched.gpr, hready.mem, ← hjw]
        rfl
      · show t.seq_pc = s.seq_pc + BitVec.ofNat 32 (1 + j.length)
        rw [hready.fetched.seq_pc, BitVec.ofNat_add, ← BitVec.add_assoc]
        rfl

/-- The instruction at `pc`. -/
def State.instr (s : State D) : Code := fun k => s.mem.pmem (s.pc.toNat + k)

/-- For every state of the CPU and of the memory: one `isa_exec_once` is the
    `MOV` of the i386.  Two opcodes are fetched at most. -/
theorem isa_exec_once_mov (fuel : Nat) {s : State D} {i : Mov}
    (hi : s.instr.mov s.gpr = some i) (hend : s.pc.toNat + i.length ≤ PMEM_SIZE)
    (hin : AccessesInside i) :
    ∃ t, isa_exec_once maps (fuel + 2) s = .ok t ∧
      t.gpr = (i.dst.write i.width s.gpr s.mem.pmem
        (i.src.value i.width s.gpr s.mem.pmem)).1 ∧
      t.mem = { s.mem with pmem := (i.dst.write i.width s.gpr s.mem.pmem
        (i.src.value i.width s.gpr s.mem.pmem)).2 } ∧
      t.pc = s.pc + BitVec.ofNat 32 i.length ∧ t.nemu_state = s.nemu_state := by
  let e : State D := { s with
    is_jmp := false, is_operand_size_16 := false, ext_opcode := 0, mbase := none, mbr := 0
    moff := 0, seq_pc := s.pc }
  -- A prefix is one more byte and one more turn.
  have hrun : ∃ t, fetch_decode_exec maps (fuel + 2) e = .ok t ∧ Moved e t i := by
    by_cases h66 : s.instr 0 = 0x66
    · obtain ⟨j, hj, rfl⟩ := Option.map_eq_some_iff.mp ((if_pos h66).symm.trans hi)
      have hend : e.seq_pc.toNat + (1 + j.length) ≤ PMEM_SIZE := hend
      have hfirst : e.seq_pc.toNat + 1 ≤ PMEM_SIZE := by omega
      let u : State D := { e.at 1 with
        opcode := BitVec.ofNat 32 (code e 0).toNat, is_operand_size_16 := true }
      have hcode : code u = (code e).drop 1 := code_at hfirst
      have hpc : u.seq_pc.toNat = e.seq_pc.toNat + 1 := pc_add hfirst
      have hsized : (code u).sized_mov (operand_size u) u.gpr = some j := by
        rw [hcode]
        exact hj
      obtain ⟨t, hrun, hmoved⟩ := fetch_decode_exec_mov maps fuel hsized (by omega) hin
      have hfetch := instr_fetch_first maps (s := e) (.inl rfl) hfirst
      refine ⟨t, ?_, hmoved.gpr, hmoved.mem, ?_, hmoved.is_jmp, hmoved.nemu_state⟩
      · rw [fetch_decode_exec, hfetch, ok_bind]
        have h66 : code e 0 = 0x66 := h66
        simp only [byte_load, if_pos h66]
        exact hrun
      · rw [hmoved.seq_pc, BitVec.ofNat_add, ← BitVec.add_assoc]
        rfl
    · have hsized : (code e).sized_mov (operand_size e) e.gpr = some i :=
        (if_neg h66).symm.trans hi
      exact fetch_decode_exec_mov maps (fuel + 1) hsized hend hin
  obtain ⟨t, hfetch, hmoved⟩ := hrun
  refine ⟨update_pc t, ?_, hmoved.gpr, hmoved.mem, ?_, hmoved.nemu_state⟩
  · show (fetch_decode_exec maps (fuel + 2) e >>= _) = _
    rw [hfetch]
    rfl
  -- No move is a jump, so `pc` follows `seq_pc`.
  · have hjmp : t.is_jmp = false := hmoved.is_jmp
    unfold update_pc
    rw [hjmp]
    exact hmoved.seq_pc

/-- `mov %ax, -4(%ebp, %ecx, 4)` behind an operand-size byte. -/
def mov_state : State Unit :=
  { sib_state with
    pc  := 0x100
    gpr := fun r => if r = R_EAX then 0x1234beef else sib_state.gpr r
    mem := { Paddr.zeroMem with pmem := store Paddr.zeroMem.pmem 0x100 0xfc8d448966 5 } }

theorem isa_exec_once_mov_word : ∃ t, isa_exec_once [] 2 mov_state = .ok t ∧
    t.gpr = mov_state.gpr ∧
    t.mem = { mov_state.mem with pmem := store mov_state.mem.pmem 0x2008 0xbeef 2 } ∧
    t.pc = 0x105 ∧ t.nemu_state = mov_state.nemu_state :=
  isa_exec_once_mov [] 0 (i := ⟨5, 2, .mem 0x2008, .place (.reg 0)⟩) (by decide) (by decide)
    ⟨show 0x2008 + 2 ≤ PMEM_SIZE by decide, trivial⟩

end Nemu.X86
