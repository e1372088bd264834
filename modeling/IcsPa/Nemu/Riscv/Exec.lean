import IcsPa.Framework.Riscv
import IcsPa.Nemu.Paddr
import Mathlib.Logic.Function.Basic

/-! # The interpreter of riscv32 and riscv64

    `isa/riscv32` and `isa/riscv64`: `local-include/decode.h`, `exec/exec.c`,
    `exec/ldst.h`, `exec/compute.h` and `exec/special.c`, with the RTL
    instructions they use.  The two directories are copies of each other; the
    definitions here have the variant as a parameter, and the bodies differ
    where the files do.

    The pointers of the RTL instructions point into `cpu.gpr`. -/

open CCall

namespace Nemu.Riscv

/-! ## Section 1: State -/

inductive Variant where
  | riscv32
  | riscv64
  deriving DecidableEq, Repr

def Variant.isa : Variant → Isa
  | riscv32 => .riscv32
  | riscv64 => .riscv64

/-- The number of bits of a `word_t`. -/
abbrev Variant.bits : Variant → Nat
  | riscv32 => 32
  | riscv64 => 64

/-- `word_t`, `rtlreg_t` and `vaddr_t`. -/
abbrev word_t (v : Variant) : Type := BitVec v.bits

inductive OpType where
  | OP_TYPE_REG
  | OP_TYPE_MEM
  | OP_TYPE_IMM
  deriving DecidableEq, Repr

/-- An operand: `imm` and `reg` share their storage, and are never both used.
    `preg` is `none` before it is set. -/
structure Operand (v : Variant) where
  type : OpType
  imm  : word_t v
  reg  : BitVec 32
  preg : Option (Fin 32)

/-- The global `cpu`, the guest's memory and `nemu_state`, and the
    `DecodeExecState` of the instruction. -/
structure State (v : Variant) (D : Type) where
  gpr        : Fin 32 → word_t v
  pc         : word_t v
  mem        : Paddr.Mem D
  nemu_state : NEMUState
  seq_pc     : word_t v
  is_jmp     : Bool
  jmp_pc     : word_t v
  src1       : Operand v
  dest       : Operand v
  src2       : Operand v
  width      : Nat
  instr      : BitVec 32

variable {v : Variant} {D : Type}

/-! ## Section 2: Bit-fields -/

/-- The fields of `s->isa.instr`; the fields that are declared `uint32_t` are
    promoted without a sign, those declared `int32_t` with theirs. -/
def opcode1_0 (instr : BitVec 32) : Nat := (instr.extractLsb' 0 2).toNat
def opcode6_2 (instr : BitVec 32) : Nat := (instr.extractLsb' 2 5).toNat
def rd (instr : BitVec 32) : BitVec 32 := (instr.extractLsb' 7 5).setWidth 32
def funct3 (instr : BitVec 32) : Nat := (instr.extractLsb' 12 3).toNat
def rs1 (instr : BitVec 32) : BitVec 32 := (instr.extractLsb' 15 5).setWidth 32
def rs2 (instr : BitVec 32) : BitVec 32 := (instr.extractLsb' 20 5).setWidth 32
def simm11_0 (instr : BitVec 32) : BitVec 32 := (instr.extractLsb' 20 12).signExtend 32
def imm4_0 (instr : BitVec 32) : BitVec 32 := (instr.extractLsb' 7 5).setWidth 32
def simm11_5 (instr : BitVec 32) : BitVec 32 := (instr.extractLsb' 25 7).signExtend 32
def imm31_12 (instr : BitVec 32) : BitVec 32 := (instr.extractLsb' 12 20).setWidth 32
def simm31_12 (instr : BitVec 32) : BitVec 32 := (instr.extractLsb' 12 20).signExtend 32

/-- The conversion of an `int` to `word_t` or `sword_t`. -/
def of_int (v : Variant) (i : BitVec 32) : word_t v := i.signExtend v.bits

/-! ## Section 3: Memory -/

def check_reg_index (index : Nat) : Except Fault (Fin 32) :=
  if h : index < 32 then .ok ⟨index, h⟩ else .error .assertion

/-- The conversion to `paddr_t`. -/
def to_paddr (addr : word_t v) : Nat := addr.toNat % 2 ^ 32

section memory
variable (maps : List (Paddr.IOMap D))

def vaddr_read (addr : word_t v) (len : Nat) (mem : Paddr.Mem D) :
    Except Fault (word_t v × Paddr.Mem D) := do
  cassert (decide (len ∈ Paddr.cpuWidths v.isa))
  let (data, _, mem) ← Paddr.paddr_read v.isa maps (to_paddr addr) len mem
  return (BitVec.ofNat v.bits data, mem)

def vaddr_write (addr data : word_t v) (len : Nat) (mem : Paddr.Mem D) :
    Except Fault (Paddr.Mem D) := do
  cassert (decide (len ∈ Paddr.cpuWidths v.isa))
  let (_, mem) ← Paddr.paddr_write v.isa maps (to_paddr addr) data.toNat len mem
  return mem

/-- `instr_fetch(&s->seq_pc, len)`, an `uint32_t`. -/
def instr_fetch (len : Nat) (s : State v D) : Except Fault (BitVec 32 × State v D) := do
  let (instr, mem) ← vaddr_read maps s.seq_pc len s.mem
  return (instr.setWidth 32, { s with mem := mem, seq_pc := s.seq_pc + BitVec.ofNat v.bits len })

/-! ## Section 4: RTL instructions -/

/-- A pointer that has been set. -/
def deref (p : Option (Fin 32)) : Except Fault (Fin 32) :=
  match p with
  | some p => .ok p
  | none => .error .outOfBounds

/-- `*dest = x`. -/
def State.put (s : State v D) (dest : Fin 32) (x : word_t v) : State v D :=
  { s with gpr := Function.update s.gpr dest x }

/-- `rtl_addi` from `rz`. -/
def rtl_li (dest : Fin 32) (imm : word_t v) (s : State v D) : State v D := s.put dest (0 + imm)

def rtl_lm (dest addr : Fin 32) (offset : word_t v) (len : Nat) (s : State v D) :
    Except Fault (State v D) := do
  let (x, mem) ← vaddr_read maps (s.gpr addr + offset) len s.mem
  return { s with mem := mem }.put dest x

def rtl_sm (addr : Fin 32) (offset : word_t v) (src1 : Fin 32) (len : Nat) (s : State v D) :
    Except Fault (State v D) := do
  let mem ← vaddr_write maps (s.gpr addr + offset) (s.gpr src1) len s.mem
  return { s with mem := mem }

def rtl_exit (state : RunState) (halt_pc : word_t v) (halt_ret : BitVec 32) (s : State v D) :
    State v D :=
  { s with nemu_state := ⟨state, halt_pc.toNat, halt_ret.toNat⟩ }

/-! ## Section 5: `decode.h` -/

def decode_op_i (op : Operand v) (val : word_t v) : Operand v :=
  { op with type := .OP_TYPE_IMM, imm := val }

/-- The register number goes through `word_t` and back to `uint32_t`. -/
def decode_op_r (op : Operand v) (val : BitVec 32) : Except Fault (Operand v) := do
  let r ← check_reg_index val.toNat
  return { op with type := .OP_TYPE_REG, reg := val, preg := some r }

def decode_I (s : State v D) : Except Fault (State v D) := do
  let src1 ← decode_op_r s.src1 (rs1 s.instr)
  let src2 := decode_op_i s.src2 (of_int v (simm11_0 s.instr))
  let dest ← decode_op_r s.dest (rd s.instr)
  return { s with src1 := src1, src2 := src2, dest := dest }

/-- `imm31_12` is declared without a sign in riscv32 and with one in riscv64,
    where it is converted before the shift. -/
def U_imm : (v : Variant) → BitVec 32 → word_t v
  | .riscv32, instr => imm31_12 instr <<< 12
  | .riscv64, instr => of_int .riscv64 (simm31_12 instr) <<< 12

def decode_U (s : State v D) : Except Fault (State v D) := do
  let src1 := decode_op_i s.src1 (U_imm v s.instr)
  let dest ← decode_op_r s.dest (rd s.instr)
  return { s with src1 := src1, dest := dest }

def decode_S (s : State v D) : Except Fault (State v D) := do
  let src1 ← decode_op_r s.src1 (rs1 s.instr)
  let simm := of_int v (simm11_5 s.instr <<< 5 ||| imm4_0 s.instr)
  let src2 := decode_op_i s.src2 simm
  let dest ← decode_op_r s.dest (rs2 s.instr)
  return { s with src1 := src1, src2 := src2, dest := dest }

/-! ## Section 6: `exec.c` -/

/-- The widths with a `case` in `exec_ld` and `exec_st`. -/
def ldst_widths : Variant → List Nat
  | .riscv32 => [4, 2, 1]
  | .riscv64 => [8, 4, 2, 1]

def exec_ld (s : State v D) : Except Fault (State v D) := do
  let ddest ← deref s.dest.preg
  let dsrc1 ← deref s.src1.preg
  let s ← rtl_lm maps ddest dsrc1 s.src2.imm s.width s
  cassert (decide (s.width ∈ ldst_widths v))
  return s

def exec_st (s : State v D) : Except Fault (State v D) := do
  let dsrc1 ← deref s.src1.preg
  let ddest ← deref s.dest.preg
  let s ← rtl_sm maps dsrc1 s.src2.imm ddest s.width s
  cassert (decide (s.width ∈ ldst_widths v))
  return s

def exec_lui (s : State v D) : Except Fault (State v D) := do
  let ddest ← deref s.dest.preg
  return rtl_li ddest s.src1.imm s

/-- Two words at the instruction are fetched for the message. -/
def exec_inv (s : State v D) : Except Fault (State v D) := do
  let s := { s with seq_pc := s.pc }
  let (_, s) ← instr_fetch maps 4 s
  let (_, s) ← instr_fetch maps 4 s
  return rtl_exit .NEMU_ABORT s.pc (-1) s

def exec_nemu_trap (s : State v D) : Except Fault (State v D) :=
  .ok (rtl_exit .NEMU_END s.pc ((s.gpr 10).setWidth 32) s)

def set_width (width : Nat) (s : State v D) : State v D :=
  if width ≠ 0 then { s with width := width } else s

/-- `CASE_ENTRY(idx, id, ex, w)`. -/
def case_entry (id ex : State v D → Except Fault (State v D)) (w : Nat) (s : State v D) :
    Except Fault (State v D) := do
  let s := set_width w s
  let s ← id s
  ex s

def exec_load (s : State v D) : Except Fault (State v D) :=
  match v, funct3 s.instr with
  | .riscv32, 2 => case_entry .ok (exec_ld maps) 4 s
  | .riscv64, 3 => case_entry .ok (exec_ld maps) 8 s
  | _, _ => exec_inv maps s

def exec_store (s : State v D) : Except Fault (State v D) :=
  match v, funct3 s.instr with
  | .riscv32, 2 => case_entry .ok (exec_st maps) 4 s
  | .riscv64, 3 => case_entry .ok (exec_st maps) 8 s
  | _, _ => exec_inv maps s

/-- The `switch` of `fetch_decode_exec`. -/
def decode_exec (opcode6_2 : Nat) (s : State v D) : Except Fault (State v D) :=
  match opcode6_2 with
  | 0b00000 => case_entry decode_I (exec_load maps) 0 s
  | 0b01000 => case_entry decode_S (exec_store maps) 0 s
  | 0b01101 => case_entry decode_U exec_lui 0 s
  | 0b11010 => case_entry .ok exec_nemu_trap 0 s
  | _ => exec_inv maps s

def fetch_decode_exec (s : State v D) : Except Fault (State v D) := do
  let (val, s) ← instr_fetch maps 4 s
  let s := { s with instr := val }
  cassert (decide (opcode1_0 s.instr = 0x3))
  decode_exec maps (opcode6_2 s.instr) s

def update_pc (s : State v D) : State v D :=
  { s with pc := if s.is_jmp then s.jmp_pc else s.seq_pc }

def reset_zero (s : State v D) : State v D := s.put 0 0

/-- `isa_exec_once`; what is not set here is what the `DecodeExecState` on the
    stack holds. -/
def isa_exec_once (s : State v D) : Except Fault (word_t v × State v D) := do
  let s := { s with is_jmp := false, seq_pc := s.pc }
  let s ← fetch_decode_exec maps s
  let s := reset_zero (update_pc s)
  return (s.seq_pc, s)

end memory

/-- `restart` of `init.c`. -/
def restart (s : State v D) : State v D :=
  { s with
    pc := BitVec.ofNat v.bits (v.isa.pmemBase + 0x100000)
    gpr := Function.update s.gpr 0 0 }

end Nemu.Riscv
