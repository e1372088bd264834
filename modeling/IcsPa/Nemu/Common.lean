import IcsPa.Framework.Bytes
import IcsPa.Framework.Fault

/-! # NEMU: what every source file includes

    `include/common.h`, `include/memory/paddr.h` and `include/isa/*.h` fix the
    word type, the physical memory and the supported ISAs. -/

namespace Nemu

/-- The directories of `src/isa`. -/
inductive Isa where
  | x86
  | mips32
  | riscv32
  | riscv64
  deriving DecidableEq, Repr

namespace Isa

/-- `ISA64` is defined for riscv64 only. -/
def isa64 : Isa → Bool
  | riscv64 => true
  | _ => false

/-- `sizeof(word_t)`. -/
def wordBytes (isa : Isa) : Nat := if isa.isa64 then 8 else 4

/-- The number of values of `word_t`. -/
def wordSize (isa : Isa) : Nat := 256 ^ isa.wordBytes

/-- `PMEM_BASE`. -/
def pmemBase : Isa → Nat
  | x86 => 0x0
  | _ => 0x80000000

theorem wordBytes_cases (isa : Isa) : isa.wordBytes = 4 ∨ isa.wordBytes = 8 := by
  unfold wordBytes; split <;> simp

end Isa

/-- `PMEM_SIZE`. -/
def PMEM_SIZE : Nat := 128 * 1024 * 1024

/-- The `NEMU_*` constants of `monitor.h`. -/
inductive RunState where
  | NEMU_STOP
  | NEMU_RUNNING
  | NEMU_END
  | NEMU_ABORT
  | NEMU_QUIT
  deriving DecidableEq, Repr

structure NEMUState where
  state    : RunState
  halt_pc  : Nat
  halt_ret : Nat
  deriving DecidableEq, Repr

end Nemu
