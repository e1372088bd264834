import IcsPa.Framework.Bytes
import Mathlib.Data.BitVec
import Mathlib.Logic.Function.Basic

/-! # RISC-V, as its manual describes it

    The instructions `LUI`, and the load and the store of a whole register,
    for registers of `n` bits.  Register 0 reads as zero and is never written.

    `ram` is the memory from the physical address `base` on.  The platform has
    32 address lines: of a wider address only the low bits reach the memory. -/

open Bytes

namespace RV

instance neZero_thirty_two : NeZero 32 := ⟨by decide⟩

variable {n : Nat}

structure Hart (n : Nat) where
  x   : Fin 32 → BitVec n
  pc  : BitVec n
  ram : Store

/-- A register as an operand. -/
def Hart.reg (h : Hart n) (r : Fin 32) : BitVec n := if r = 0 then 0 else h.x r

def Hart.set_reg (h : Hart n) (r : Fin 32) (v : BitVec n) : Hart n :=
  if r = 0 then h else { h with x := Function.update h.x r v }

/-! ## Section 1: Instructions -/

inductive Instr where
  | lui (rd : Fin 32) (imm : BitVec 20)
  | load (rd rs1 : Fin 32) (imm : BitVec 12)
  | store (rs2 rs1 : Fin 32) (imm : BitVec 12)
  deriving DecidableEq, Repr

/-- Five bits that name a register. -/
def reg_field (code : BitVec 32) (first : Nat) : Fin 32 := (code.extractLsb' first 5).toFin

def opcode (code : BitVec 32) : BitVec 7 := code.extractLsb' 0 7
def funct3 (code : BitVec 32) : BitVec 3 := code.extractLsb' 12 3

/-- The immediates of the formats U, I and S. -/
def imm_U (code : BitVec 32) : BitVec 20 := code.extractLsb' 12 20
def imm_I (code : BitVec 32) : BitVec 12 := code.extractLsb' 20 12
def imm_S (code : BitVec 32) : BitVec 12 := code.extractLsb' 25 7 ++ code.extractLsb' 7 5

/-- The `funct3` of the load and the store of `n` bits: those of `LW` and `SW`,
    and of `LD` and `SD`. -/
def width_funct3 (n : Nat) : BitVec 3 := if n = 64 then 3 else 2

def decode (n : Nat) (code : BitVec 32) : Option Instr :=
  if opcode code = 0b0110111#7 then some (.lui (reg_field code 7) (imm_U code))
  else if opcode code = 0b0000011#7 ∧ funct3 code = width_funct3 n then
    some (.load (reg_field code 7) (reg_field code 15) (imm_I code))
  else if opcode code = 0b0100011#7 ∧ funct3 code = width_funct3 n then
    some (.store (reg_field code 20) (reg_field code 15) (imm_S code))
  else none

/-! ## Section 2: Steps -/

/-- `imm(rs1)` -/
def Hart.address (h : Hart n) (rs1 : Fin 32) (imm : BitVec 12) : BitVec n :=
  h.reg rs1 + imm.signExtend n

/-- The physical address. -/
def phys (a : BitVec n) : Nat := a.toNat % 2 ^ 32

/-- What an instruction does before the `pc` advances. -/
def Instr.exec (base : Nat) (h : Hart n) : Instr → Hart n
  | lui rd imm => h.set_reg rd ((imm ++ 0#12).signExtend n)
  | load rd rs1 imm =>
      h.set_reg rd (BitVec.ofNat n (Bytes.load h.ram (phys (h.address rs1 imm) - base) (n / 8)))
  | store rs2 rs1 imm =>
      { h with ram :=
          Bytes.store h.ram (phys (h.address rs1 imm) - base) (h.reg rs2).toNat (n / 8) }

def Instr.step (base : Nat) (h : Hart n) (i : Instr) : Hart n :=
  { i.exec base h with pc := h.pc + 4 }

/-- The `len` bytes at an address are among the `size` bytes from `base` on. -/
def InRam (base size : Nat) (a : BitVec n) (len : Nat) : Prop :=
  base ≤ phys a ∧ phys a + len ≤ base + size

instance (base size : Nat) (a : BitVec n) (len : Nat) : Decidable (InRam base size a len) :=
  inferInstanceAs (Decidable (_ ∧ _))

/-- The access of the instruction, if it has one, lies in the memory. -/
def Instr.Inside (base size : Nat) (h : Hart n) : Instr → Prop
  | lui _ _ => True
  | load _ rs1 imm => InRam base size (h.address rs1 imm) (n / 8)
  | store _ rs1 imm => InRam base size (h.address rs1 imm) (n / 8)

end RV
