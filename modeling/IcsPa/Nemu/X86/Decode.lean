import IcsPa.Nemu.X86.Rtl

/-! # Decoding operands on x86

    `isa/x86/decode.c` and `local-include/decode.h`, without the texts for the
    instruction log. -/

open CCall I386

namespace Nemu.X86

variable {D : Type} (maps : List (Paddr.IOMap D))

/-! ## Section 1: Register and immediate operands -/

def operand_reg (op : OpName) (load_val : Bool) (r : Fin 8) (width : Nat) (s : State D) :
    Except Fault (State D) := do
  let s := s.set_op op fun o => { o with type := .OP_TYPE_REG, reg := BitVec.ofNat 32 r.val }
  if width = 4 then return s.set_op op fun o => { o with preg := some (.gpr r) }
  cassert (decide (width = 1) || decide (width = 2))
  let s := s.set_op op fun o => { o with preg := some (.val op) }
  if load_val then rtl_lr (.val op) r width s else return s

def operand_imm (op : OpName) (load_val : Bool) (imm : BitVec 32) (s : State D) : State D :=
  let s := s.set_op op fun o => { o with type := .OP_TYPE_IMM, reg := imm }
  if load_val then
    let s := rtl_li (.val op) imm s
    s.set_op op fun o => { o with preg := some (.val op) }
  else s

/-! ## Section 2: ModR/M -/

/-- The bit fields of the `ModR_M` byte. -/
abbrev ModR_M : Type := UInt8

def ModR_M.R_M (m : ModR_M) : Fin 8 := bits3 m 0
def ModR_M.reg (m : ModR_M) : Fin 8 := bits3 m 3
def ModR_M.mod (m : ModR_M) : Fin 4 := bits2 m
def ModR_M.opcode (m : ModR_M) : Fin 8 := bits3 m 3

abbrev SIB : Type := UInt8

def SIB.base (sib : SIB) : Fin 8 := bits3 sib 0
def SIB.index (sib : SIB) : Fin 8 := bits3 sib 3
def SIB.ss (sib : SIB) : Fin 4 := bits2 sib

/-- The assignment of a fetched word to a byte. -/
def byte (v : BitVec 32) : UInt8 := UInt8.ofNat v.toNat

/-- The `SIB` branch of `load_addr`: the registers, where `none` is the
    number `-1`, and the scale. -/
def fetch_sib (m : ModR_M) (s : State D) :
    Except Fault ((Option (Fin 8) × Option (Fin 8) × Fin 4) × State D) :=
  if m.R_M = R_ESP then do
    let (v, s) ← instr_fetch maps 1 s
    let sib : SIB := byte v
    let index_reg := if sib.index ≠ R_ESP then some sib.index else none
    return ((some sib.base, index_reg, sib.ss), s)
  else return ((some m.R_M, none, 0), s)

/-- The base register without `EBP` in the form with a displacement only, and
    the size of the displacement. -/
def base_and_disp_size (m : ModR_M) (base_reg : Option (Fin 8)) : Option (Fin 8) × Nat :=
  if m.mod = 0 then
    if base_reg = some R_EBP then (none, 4) else (base_reg, 0)
  else if m.mod = 1 then (base_reg, 1)
  else (base_reg, 4)

def fetch_disp (disp_size : Nat) (s : State D) : Except Fault (BitVec 32 × State D) :=
  if disp_size ≠ 0 then do
    let (disp, s) ← instr_fetch maps disp_size s
    if disp_size = 1 then return ((disp.setWidth 8).signExtend 32, s)
    return (disp, s)
  else return (0, s)

/-- `s->isa.mbase` and `s->isa.mbr`. -/
def set_mbase (base_reg index_reg : Option (Fin 8)) (scale : Fin 4) (s : State D) : State D :=
  let base : Ptr :=
    match base_reg with
    | some r => .gpr r
    | none => .rz
  let s := { s with mbase := some base }
  match index_reg with
  | some r =>
      let s := rtl_shli s1 (.gpr r) (BitVec.ofNat 32 scale.val) s
      let s := rtl_add .mbr base s1 s
      { s with mbase := some .mbr }
  | none => s

def load_addr (m : ModR_M) (rm : OpName) (s : State D) : Except Fault (State D) := do
  cassert (m.mod != 3)
  let ((base_reg, index_reg, scale), s) ← fetch_sib maps m s
  let (base_reg, disp_size) := base_and_disp_size m base_reg
  let (disp, s) ← fetch_disp maps disp_size s
  let s := set_mbase base_reg index_reg scale s
  let s := { s with moff := disp }
  return s.set_op rm fun o => { o with type := .OP_TYPE_MEM }

/-- The part of `read_ModR_M` behind the register operand. -/
def read_R_M (m : ModR_M) (rm : OpName) (load_rm_val : Bool) (s : State D) :
    Except Fault (State D) := do
  if m.mod = 3 then operand_reg rm load_rm_val m.R_M (s.op rm).width s
  else
    let s ← load_addr maps m rm s
    let s ←
      if load_rm_val then do
        let base ← deref s.mbase
        rtl_lm maps (.val rm) base s.moff (s.op rm).width s
      else .ok s
    return s.set_op rm fun o => { o with preg := some (.val rm) }

/-- `reg` is `none` for `NULL`. -/
def read_ModR_M (rm : OpName) (load_rm_val : Bool) (reg : Option OpName) (load_reg_val : Bool)
    (s : State D) : Except Fault (State D) := do
  let (v, s) ← instr_fetch maps 1 s
  let m : ModR_M := byte v
  let s := { s with ext_opcode := BitVec.ofNat 8 m.opcode.val }
  let s ←
    match reg with
    | some reg => operand_reg reg load_reg_val m.reg (s.op reg).width s
    | none => .ok s
  read_R_M maps m rm load_rm_val s

/-! ## Section 3: Decode helpers -/

def decode_op_I (op : OpName) (load_val : Bool) (s : State D) : Except Fault (State D) := do
  let (imm, s) ← instr_fetch maps (s.op op).width s
  return operand_imm op load_val imm s

/-- The body is `TODO()`. -/
def decode_op_SI (op : OpName) (_load_val : Bool) (s : State D) : Except Fault (State D) := do
  cassert (decide ((s.op op).width = 1) || decide ((s.op op).width = 4))
  .error .assertion

def decode_op_a (op : OpName) (load_val : Bool) (s : State D) : Except Fault (State D) :=
  operand_reg op load_val R_EAX (s.op op).width s

def decode_op_r (op : OpName) (load_val : Bool) (s : State D) : Except Fault (State D) :=
  operand_reg op load_val ⟨s.opcode.toNat % 8, Nat.mod_lt _ (by decide)⟩ (s.op op).width s

def operand_rm (rm : OpName) (load_rm_val : Bool) (reg : Option OpName) (load_reg_val : Bool)
    (s : State D) : Except Fault (State D) :=
  read_ModR_M maps rm load_rm_val reg load_reg_val s

def decode_op_O (op : OpName) (load_val : Bool) (s : State D) : Except Fault (State D) := do
  let s := s.set_op op fun o => { o with type := .OP_TYPE_MEM }
  let (moff, s) ← instr_fetch maps 4 s
  let s := { s with moff := moff, mbase := some .rz }
  if load_val then
    let s ← rtl_lm maps (.val op) .rz s.moff (s.op op).width s
    return s.set_op op fun o => { o with preg := some (.val op) }
  return s

def decode_mov_G2E (s : State D) : Except Fault (State D) :=
  operand_rm maps .dest false (some .src1) true s

def decode_mov_E2G (s : State D) : Except Fault (State D) :=
  operand_rm maps .src1 true (some .dest) false s

def decode_I2E (s : State D) : Except Fault (State D) := do
  let s ← operand_rm maps .dest true none false s
  decode_op_I maps .src1 true s

def decode_mov_I2E (s : State D) : Except Fault (State D) := do
  let s ← operand_rm maps .dest false none false s
  decode_op_I maps .src1 true s

def decode_mov_I2r (s : State D) : Except Fault (State D) := do
  let s ← decode_op_r .dest false s
  decode_op_I maps .src1 true s

def decode_E (s : State D) : Except Fault (State D) :=
  operand_rm maps .dest true none false s

def decode_gp7_E (s : State D) : Except Fault (State D) :=
  operand_rm maps .dest false none false s

def decode_SI2E (s : State D) : Except Fault (State D) := do
  cassert (decide ((s.op .dest).width = 2) || decide ((s.op .dest).width = 4))
  let s ← operand_rm maps .dest true none false s
  let s := s.set_op .src1 fun o => { o with width := 1 }
  let s ← decode_op_SI .src1 true s
  if (s.op .dest).width = 2 then
    let p ← dsrc1 s
    return s.put p (s.get p &&& 0xffff)
  return s

def decode_gp2_1_E (s : State D) : Except Fault (State D) := do
  let s ← operand_rm maps .dest true none false s
  return operand_imm .src1 true 1 s

def decode_gp2_cl2E (s : State D) : Except Fault (State D) := do
  let s ← operand_rm maps .dest true none false s
  operand_reg .src1 true R_ECX 4 s

def decode_gp2_Ib2E (s : State D) : Except Fault (State D) := do
  let s ← operand_rm maps .dest true none false s
  let s := s.set_op .src1 fun o => { o with width := 1 }
  decode_op_I maps .src1 true s

def decode_O2a (s : State D) : Except Fault (State D) := do
  let s ← decode_op_O maps .src1 true s
  decode_op_a .dest false s

def decode_a2O (s : State D) : Except Fault (State D) := do
  let s ← decode_op_a .src1 true s
  decode_op_O maps .dest false s

def operand_write (op : OpName) (src : Ptr) (s : State D) : Except Fault (State D) :=
  match (s.op op).type with
  | .OP_TYPE_REG => do
      let r ← check_reg_index (s.op op).reg.toNat
      rtl_sr r src (s.op op).width s
  | .OP_TYPE_MEM => do
      let base ← deref s.mbase
      rtl_sm maps base s.moff src (s.op op).width s
  | .OP_TYPE_IMM => .error .assertion

end Nemu.X86
