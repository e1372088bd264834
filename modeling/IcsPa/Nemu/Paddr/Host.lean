import IcsPa.Nemu.Paddr

/-! # Guest addresses and host addresses

    `guest_to_host` and `host_to_guest`, through which the debugger reads
    guest memory.  They index the array with the guest address itself, where
    `pmem_read` subtracts `PMEM_BASE`, and subtract the pointers the other way
    round. -/

open CCall Bytes

namespace Nemu.Paddr

variable {D : Type}

/-- `&pmem[addr]`, for the host address `pmem` of the array. -/
def guest_to_host (pmem addr : Nat) : Nat := pmem + addr

/-- `(void *)pmem - addr` as a `paddr_t`. -/
def host_to_guest (pmem addr : Nat) : Nat := (((pmem : Int) - (addr : Int)) % 0x100000000).toNat

/-- The byte at a host address; only the array is known to be there. -/
def host_byte (pmem : Nat) (mem : Mem D) (host : Nat) : Except Fault UInt8 :=
  if pmem ≤ host ∧ host < pmem + PMEM_SIZE then .ok (mem.pmem (host - pmem))
  else .error .outOfBounds

/-- The debugger finds the byte that the CPU reads. -/
def SeesSame (isa : Isa) (maps : List (IOMap D)) (pmem : Nat) (mem : Mem D) (a : Nat) : Prop :=
  ∃ byte span, host_byte pmem mem (guest_to_host pmem a) = .ok byte ∧
    paddr_read isa maps a 1 mem = .ok (byte.toNat, span, mem)

def RoundTrip (pmem a : Nat) : Prop := host_to_guest pmem (guest_to_host pmem a) = a

theorem one_mem_cpuWidths (isa : Isa) : 1 ∈ cpuWidths isa := by
  unfold cpuWidths
  split <;> simp

/-- The debugger sees the guest's memory where that starts at 0. -/
theorem sees_same_iff {isa : Isa} (maps : List (IOMap D)) (pmem : Nat) (mem : Mem D) {a : Nat}
    (hin : in_pmem isa a = true) : SeesSame isa maps pmem mem a ↔ isa.pmemBase = 0 := by
  obtain ⟨hlo, hhi⟩ := (in_pmem_iff isa a).mp hin
  have hread := paddr_read_pmem maps mem hin (one_mem_cpuWidths isa)
  rw [load_one] at hread
  constructor
  · intro ⟨byte, span, hhost, _⟩
    cases isa with
    | x86 => rfl
    -- Above `PMEM_BASE` the host address is past the end of the array.
    | mips32 | riscv32 | riscv64 =>
      have hbase : 0x80000000 ≤ a := hlo
      unfold host_byte guest_to_host at hhost
      rw [if_neg] at hhost
      · cases hhost
      · intro ⟨_, hlt⟩
        have hsize : PMEM_SIZE = 0x8000000 := rfl
        omega
  · intro hbase
    rw [hbase] at hlo hhi hread
    refine ⟨mem.pmem a, _, ?_, hread⟩
    unfold host_byte guest_to_host
    rw [if_pos ⟨by omega, by omega⟩, Nat.add_sub_cancel_left]

/-- The difference of the pointers is `-a`. -/
theorem round_trip_iff {pmem a : Nat} (ha : a < 0x100000000) :
    RoundTrip pmem a ↔ a = 0 ∨ a = 0x80000000 := by
  unfold RoundTrip host_to_guest guest_to_host
  constructor
  · intro h
    omega
  · intro h
    omega

/-- For an address in `pmem`, the debugger and the CPU see the same byte and
    the address can be converted back exactly if the ISA is x86 and the
    address is 0. -/
theorem same_memory_iff {isa : Isa} (maps : List (IOMap D)) (pmem : Nat) (mem : Mem D) {a : Nat}
    (hin : in_pmem isa a = true) :
    SeesSame isa maps pmem mem a ∧ RoundTrip pmem a ↔ isa = .x86 ∧ a = 0 := by
  have hhi := ((in_pmem_iff isa a).mp hin).2
  have hsize : PMEM_SIZE = 0x8000000 := rfl
  rw [sees_same_iff maps pmem mem hin]
  cases isa with
  | x86 =>
    have hlt : a < 0 + PMEM_SIZE := hhi
    rw [round_trip_iff (by omega)]
    constructor
    · intro ⟨_, h⟩
      exact ⟨rfl, by omega⟩
    · intro ⟨_, h⟩
      exact ⟨rfl, Or.inl h⟩
  | mips32 | riscv32 | riscv64 =>
    constructor
    · intro ⟨h, _⟩
      cases h
    · intro ⟨h, _⟩
      cases h

theorem same_memory_at_zero : SeesSame .x86 [] 0x55555000 zeroMem 0 ∧ RoundTrip 0x55555000 0 :=
  (same_memory_iff [] 0x55555000 zeroMem (by decide)).mpr ⟨rfl, rfl⟩

/-- On x86 the address 4 comes back as `0xfffffffc`; on riscv32 the debugger
    reads past the array. -/
theorem not_same_memory :
    (in_pmem .x86 4 = true ∧
      ¬ (SeesSame .x86 [] 0x55555000 zeroMem 4 ∧ RoundTrip 0x55555000 4)) ∧
    in_pmem .riscv32 0x80100000 = true ∧ ¬ SeesSame .riscv32 [] 0x55555000 zeroMem 0x80100000 := by
  refine ⟨⟨by decide, ?_⟩, by decide, ?_⟩
  · intro ⟨_, hback⟩
    have h := (round_trip_iff (show 4 < 0x100000000 by decide)).mp hback
    omega
  · intro hsame
    have h := (sees_same_iff [] 0x55555000 zeroMem (by decide)).mp hsame
    cases h

end Nemu.Paddr
