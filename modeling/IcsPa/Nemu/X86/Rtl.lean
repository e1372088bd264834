import IcsPa.Framework.I386
import IcsPa.Nemu.Paddr

/-! # RTL instructions on x86

    `isa/x86/local-include/reg.h` and `rtl.h`, `include/rtl/*.h`,
    `engine/interpreter/rtl-basic.h` and `c_op.h`, `include/memory/vaddr.h`.
    An RTL instruction reads and writes words through pointers, which may
    point into the registers of the CPU, into the operands and temporaries of
    the instruction being decoded, or at the constant zero. -/

open CCall I386

namespace Nemu.X86

/-! ## Section 1: State -/

def R_EAX : Fin 8 := 0
def R_EDX : Fin 8 := 2
def R_ESP : Fin 8 := 4
def R_EBP : Fin 8 := 5
def R_AX : Fin 8 := 0
def R_DX : Fin 8 := 2
def R_AL : Fin 8 := 0
def R_AH : Fin 8 := 4
def R_ECX : Fin 8 := 1

inductive OpType where
  | OP_TYPE_REG
  | OP_TYPE_MEM
  | OP_TYPE_IMM
  deriving DecidableEq, Repr

/-- The operands of a `DecodeExecState`: `id_src1`, `id_dest` and `id_src2`. -/
inductive OpName where
  | src1
  | dest
  | src2
  deriving DecidableEq, Repr

/-- Where an `rtlreg_t *` points. -/
inductive Ptr where
  /-- `&reg_l(r)`, which is also `&cpu.eax` to `&cpu.edi`. -/
  | gpr (r : Fin 8)
  /-- The field `val` of an operand. -/
  | val (op : OpName)
  /-- `s0`, `s1`, `s2` and `t0`. -/
  | tmp (i : Fin 4)
  /-- `&s->isa.mbr`. -/
  | mbr
  /-- `rz`. -/
  | rz
  deriving DecidableEq, Repr

/-- `reg` is the union of `reg`, `imm` and `simm`; `preg` is `none` before it
    is set. -/
structure Operand where
  type  : OpType
  width : Nat
  reg   : BitVec 32
  preg  : Option Ptr
  val   : BitVec 32

/-- The global `cpu`, the guest's memory and `nemu_state`, and the
    `DecodeExecState` of the instruction. -/
structure State (D : Type) where
  gpr        : Fin 8 → BitVec 32
  pc         : BitVec 32
  mem        : Paddr.Mem D
  nemu_state : NEMUState
  opcode     : BitVec 32
  seq_pc     : BitVec 32
  is_jmp     : Bool
  jmp_pc     : BitVec 32
  op         : OpName → Operand
  tmp_reg    : Fin 4 → BitVec 32
  is_operand_size_16 : Bool
  ext_opcode : BitVec 8
  mbase      : Option Ptr
  mbr        : BitVec 32
  moff       : BitVec 32

abbrev s0 : Ptr := .tmp 0
abbrev s1 : Ptr := .tmp 1

variable {D : Type}

namespace State

/-- `*p`. -/
def get (s : State D) : Ptr → BitVec 32
  | .gpr r => s.gpr r
  | .val op => (s.op op).val
  | .tmp i => s.tmp_reg i
  | .mbr => s.mbr
  | .rz => 0

/-- `*p = v`; there is no store through `rz`, which points at a constant. -/
def put (s : State D) (p : Ptr) (v : BitVec 32) : State D :=
  match p with
  | .gpr r => { s with gpr := Function.update s.gpr r v }
  | .val op => { s with op := Function.update s.op op { s.op op with val := v } }
  | .tmp i => { s with tmp_reg := Function.update s.tmp_reg i v }
  | .mbr => { s with mbr := v }
  | .rz => s

/-- Change one operand. -/
def set_op (s : State D) (op : OpName) (f : Operand → Operand) : State D :=
  { s with op := Function.update s.op op (f (s.op op)) }

end State

/-- A pointer that has been set. -/
def deref (p : Option Ptr) : Except Fault Ptr :=
  match p with
  | some p => .ok p
  | none => .error .outOfBounds

def ddest (s : State D) : Except Fault Ptr := deref (s.op .dest).preg

def dsrc1 (s : State D) : Except Fault Ptr := deref (s.op .src1).preg

/-! ## Section 2: Registers -/

def check_reg_index (index : Nat) : Except Fault (Fin 8) :=
  if h : index < 8 then .ok ⟨index, h⟩ else .error .assertion

/-- `reg_w(index)`: the low two bytes. -/
def reg_w (s : State D) (r : Fin 8) : BitVec 32 := field (s.gpr r) 0 16

/-- `reg_b(index)`: `_8[index >> 2]` of register `index & 0x3`. -/
def reg_b (s : State D) (r : Fin 8) : BitVec 32 := field (s.gpr (r &&& 3)) (8 * (r.val >>> 2)) 8

def set_reg_w (s : State D) (r : Fin 8) (v : BitVec 32) : State D :=
  s.put (.gpr r) (put_field (s.gpr r) 0 16 v)

def set_reg_b (s : State D) (r : Fin 8) (v : BitVec 32) : State D :=
  s.put (.gpr (r &&& 3)) (put_field (s.gpr (r &&& 3)) (8 * (r.val >>> 2)) 8 v)

/-! ## Section 3: Computation -/

def c_shl (a b : BitVec 32) : BitVec 32 := a <<< (b &&& 0x1f)
def c_shr (a b : BitVec 32) : BitVec 32 := a >>> (b &&& 0x1f)
def c_mul_lo (a b : BitVec 32) : BitVec 32 := a * b
def c_mul_hi (a b : BitVec 32) : BitVec 32 := ((a.setWidth 64 * b.setWidth 64) >>> 32).setWidth 32

/-- The product of two `sword_t`; where it overflows, it wraps around. -/
def c_imul_lo (a b : BitVec 32) : BitVec 32 := a * b

def c_imul_hi (a b : BitVec 32) : BitVec 32 :=
  ((a.signExtend 64 * b.signExtend 64).sshiftRight 32).setWidth 32

def rtl_add (dest src1 src2 : Ptr) (s : State D) : State D :=
  s.put dest (s.get src1 + s.get src2)

def rtl_addi (dest src1 : Ptr) (imm : BitVec 32) (s : State D) : State D :=
  s.put dest (s.get src1 + imm)

def rtl_or (dest src1 src2 : Ptr) (s : State D) : State D :=
  s.put dest (s.get src1 ||| s.get src2)

def rtl_shli (dest src1 : Ptr) (imm : BitVec 32) (s : State D) : State D :=
  s.put dest (c_shl (s.get src1) imm)

def rtl_shri (dest src1 : Ptr) (imm : BitVec 32) (s : State D) : State D :=
  s.put dest (c_shr (s.get src1) imm)

def rtl_mul_lo (dest src1 src2 : Ptr) (s : State D) : State D :=
  s.put dest (c_mul_lo (s.get src1) (s.get src2))

def rtl_mul_hi (dest src1 src2 : Ptr) (s : State D) : State D :=
  s.put dest (c_mul_hi (s.get src1) (s.get src2))

def rtl_imul_lo (dest src1 src2 : Ptr) (s : State D) : State D :=
  s.put dest (c_imul_lo (s.get src1) (s.get src2))

def rtl_imul_hi (dest src1 src2 : Ptr) (s : State D) : State D :=
  s.put dest (c_imul_hi (s.get src1) (s.get src2))

/-- A division stops the process when the divisor is zero. -/
def rtl_div_q (dest src1 src2 : Ptr) (s : State D) : Except Fault (State D) := do
  cassert (s.get src2 != 0)
  return s.put dest (s.get src1 / s.get src2)

def rtl_div_r (dest src1 src2 : Ptr) (s : State D) : Except Fault (State D) := do
  cassert (s.get src2 != 0)
  return s.put dest (s.get src1 % s.get src2)

/-- The process also stops when a signed quotient overflows. -/
def signed_division {w : Nat} (a b : BitVec w) : Bool :=
  b != 0 && !(a == BitVec.intMin w && b == -1)

def rtl_idiv_q (dest src1 src2 : Ptr) (s : State D) : Except Fault (State D) := do
  cassert (signed_division (s.get src1) (s.get src2))
  return s.put dest ((s.get src1).sdiv (s.get src2))

def rtl_idiv_r (dest src1 src2 : Ptr) (s : State D) : Except Fault (State D) := do
  cassert (signed_division (s.get src1) (s.get src2))
  return s.put dest ((s.get src1).srem (s.get src2))

/-- `((uint64_t)(*src1_hi) << 32) | (*src1_lo)`. -/
def dividend64 (src1_hi src1_lo : Ptr) (s : State D) : BitVec 64 :=
  (s.get src1_hi).setWidth 64 <<< 32 ||| (s.get src1_lo).setWidth 64

def rtl_div64_q (dest src1_hi src1_lo src2 : Ptr) (s : State D) : Except Fault (State D) := do
  let dividend := dividend64 src1_hi src1_lo s
  let divisor := (s.get src2).setWidth 64
  cassert (divisor != 0)
  return s.put dest ((dividend / divisor).setWidth 32)

def rtl_div64_r (dest src1_hi src1_lo src2 : Ptr) (s : State D) : Except Fault (State D) := do
  let dividend := dividend64 src1_hi src1_lo s
  let divisor := (s.get src2).setWidth 64
  cassert (divisor != 0)
  return s.put dest ((dividend % divisor).setWidth 32)

def rtl_idiv64_q (dest src1_hi src1_lo src2 : Ptr) (s : State D) : Except Fault (State D) := do
  let dividend := dividend64 src1_hi src1_lo s
  let divisor := (s.get src2).signExtend 64
  cassert (signed_division dividend divisor)
  return s.put dest ((dividend.sdiv divisor).setWidth 32)

def rtl_idiv64_r (dest src1_hi src1_lo src2 : Ptr) (s : State D) : Except Fault (State D) := do
  let dividend := dividend64 src1_hi src1_lo s
  let divisor := (s.get src2).signExtend 64
  cassert (signed_division dividend divisor)
  return s.put dest ((dividend.srem divisor).setWidth 32)

/-! ## Section 4: Pseudo instructions -/

def rtl_li (dest : Ptr) (imm : BitVec 32) (s : State D) : State D := rtl_addi dest .rz imm s

def rtl_mv (dest src1 : Ptr) (s : State D) : State D :=
  if dest ≠ src1 then rtl_add dest src1 .rz s else s

/-- `rtl_lr`; the loads from `reg_b` and `reg_w` are `rtl_host_lm`. -/
def rtl_lr (dest : Ptr) (r : Fin 8) (width : Nat) (s : State D) : Except Fault (State D) :=
  match width with
  | 4 => .ok (rtl_mv dest (.gpr r) s)
  | 1 => .ok (s.put dest (reg_b s r))
  | 2 => .ok (s.put dest (reg_w s r))
  | _ => .error .assertion

def rtl_sr (r : Fin 8) (src1 : Ptr) (width : Nat) (s : State D) : Except Fault (State D) :=
  match width with
  | 4 => .ok (rtl_mv (.gpr r) src1 s)
  | 1 => .ok (set_reg_b s r (s.get src1))
  | 2 => .ok (set_reg_w s r (s.get src1))
  | _ => .error .assertion

/-! ## Section 5: Memory

    Address translation is off: `isa_vaddr_check` is always `MEM_RET_OK`. -/

section memory
variable (maps : List (Paddr.IOMap D))

def vaddr_read (addr : BitVec 32) (len : Nat) (mem : Paddr.Mem D) :
    Except Fault (BitVec 32 × Paddr.Mem D) := do
  cassert (decide (len ∈ Paddr.cpuWidths .x86))
  let (data, _, mem) ← Paddr.paddr_read .x86 maps addr.toNat len mem
  return (BitVec.ofNat 32 data, mem)

def vaddr_write (addr data : BitVec 32) (len : Nat) (mem : Paddr.Mem D) :
    Except Fault (Paddr.Mem D) := do
  cassert (decide (len ∈ Paddr.cpuWidths .x86))
  let (_, mem) ← Paddr.paddr_write .x86 maps addr.toNat data.toNat len mem
  return mem

def rtl_lm (dest addr : Ptr) (offset : BitVec 32) (len : Nat) (s : State D) :
    Except Fault (State D) := do
  let (v, mem) ← vaddr_read maps (s.get addr + offset) len s.mem
  return { s with mem := mem }.put dest v

def rtl_sm (addr : Ptr) (offset : BitVec 32) (src1 : Ptr) (len : Nat) (s : State D) :
    Except Fault (State D) := do
  let mem ← vaddr_write maps (s.get addr + offset) (s.get src1) len s.mem
  return { s with mem := mem }

/-- A fetch that begins in guest memory and runs over its end has no bytes to
    return. -/
def vaddr_ifetch (addr : BitVec 32) (len : Nat) (mem : Paddr.Mem D) :
    Except Fault (BitVec 32 × Paddr.Mem D) :=
  if Paddr.in_pmem .x86 addr.toNat ∧ PMEM_SIZE < addr.toNat + len then .error .outOfBounds
  else vaddr_read maps addr len mem

/-- `instr_fetch(&s->seq_pc, len)`. -/
def instr_fetch (len : Nat) (s : State D) : Except Fault (BitVec 32 × State D) := do
  let (instr, mem) ← vaddr_ifetch maps s.seq_pc len s.mem
  return (instr, { s with mem := mem, seq_pc := s.seq_pc + BitVec.ofNat 32 len })

end memory

end Nemu.X86
