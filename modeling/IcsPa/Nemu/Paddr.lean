import IcsPa.Framework.Bytes
import IcsPa.Nemu.Common
import Mathlib.Data.Nat.Bitwise
import Mathlib.Tactic.IntervalCases

/-! # Guest physical memory

    `src/memory/paddr.c`, `src/device/io/map.c` and `include/device/map.h`.
    A guest access is routed by its address to the array `pmem` or to the
    first `IOMap` that contains the address; the typed load, the typed store
    or the `memcpy` then works on the host bytes of that region.

    Host memory has no end in the model: an access past a region reads or
    writes the host bytes that follow.  Each access returns the `Span` of
    host bytes it touched, so that staying inside the region is a statement
    about the result. -/

open CCall Bytes

namespace Nemu.Paddr

/-! ## Section 1: Host memory -/

/-- The bytes behind the device registers, and the private state of the
    devices. -/
structure Devices (D : Type) where
  bytes : Store
  state : D

/-- `IOMap`.  `space` is the host address of the register at `low`; the
    callback may stop the emulator with an assertion (`none`). -/
structure IOMap (D : Type) where
  low      : Nat
  high     : Nat
  space    : Nat
  callback : Option (Nat → Nat → Bool → Devices D → Option (Devices D))

/-- The memory a guest access can reach. -/
structure Mem (D : Type) where
  pmem : Store
  io   : Devices D

/-- The regions an access is routed to. -/
inductive Region where
  | pmem
  | mmio (low high : Nat)
  deriving DecidableEq, Repr

/-- The number of bytes of a region. -/
def Region.size : Region → Nat
  | .pmem => PMEM_SIZE
  | .mmio low high => high + 1 - low

/-- The `bytes` host bytes from offset `first` of `region`. -/
structure Span where
  region : Region
  first  : Nat
  bytes  : Nat
  deriving DecidableEq, Repr

/-- No byte of the span is past the end of its region. -/
def Span.inside (s : Span) : Prop := s.first + s.bytes ≤ s.region.size

instance (s : Span) : Decidable s.inside := inferInstanceAs (Decidable (_ ≤ _))

variable {D : Type}

/-! ## Section 2: `paddr.c` and `map.c` -/

def in_pmem (isa : Isa) (addr : Nat) : Bool :=
  decide (isa.pmemBase ≤ addr) && decide (addr ≤ isa.pmemBase + PMEM_SIZE - 1)

/-- The widths with a `case` in `pmem_read`, `pmem_write` and `vaddr.h`. -/
def cpuWidths (isa : Isa) : List Nat :=
  if isa.isa64 then [1, 2, 4, 8] else [1, 2, 4]

def pmem_read (isa : Isa) (addr len : Nat) (mem : Mem D) : Except Fault (Nat × Span) := do
  let p := addr - isa.pmemBase
  cassert (decide (len ∈ cpuWidths isa))
  return (load mem.pmem p len, ⟨.pmem, p, len⟩)

def pmem_write (isa : Isa) (addr data len : Nat) (mem : Mem D) :
    Except Fault (Span × Mem D) := do
  let p := addr - isa.pmemBase
  cassert (decide (len ∈ cpuWidths isa))
  return (⟨.pmem, p, len⟩, { mem with pmem := store mem.pmem p data len })

def map_inside (map : IOMap D) (addr : Nat) : Bool :=
  decide (addr ≥ map.low) && decide (addr ≤ map.high)

/-- `find_mapid_by_addr` over the table `maps`; `none` is the index `-1`. -/
def fetch_mmio_map (maps : List (IOMap D)) (addr : Nat) : Option (IOMap D) :=
  maps.find? fun map => map_inside map addr

/-- `check_bound`: the map is there and contains the address. -/
def check_bound (map : Option (IOMap D)) (addr : Nat) : Except Fault (IOMap D) :=
  match map with
  | none => .error .assertion
  | some map => do
      cassert (decide (addr ≤ map.high) && decide (addr ≥ map.low))
      return map

def invoke_callback (map : IOMap D) (offset len : Nat) (is_write : Bool) (io : Devices D) :
    Except Fault (Devices D) :=
  match map.callback with
  | none => .ok io
  | some c =>
      match c offset len is_write io with
      | some io' => .ok io'
      | none => .error .assertion

/-- `map_read` loads a whole `word_t` at the register and masks it. -/
def map_read (isa : Isa) (addr len : Nat) (map : Option (IOMap D)) (io : Devices D) :
    Except Fault (Nat × Span × Devices D) := do
  cassert (decide (len ≥ 1) && decide (len ≤ 8))
  let map ← check_bound map addr
  let offset := addr - map.low
  let io ← invoke_callback map offset len false io
  let data := load io.bytes (map.space + offset) isa.wordBytes
                &&& ((2 ^ 64 - 1) >>> ((8 - len) <<< 3))
  return (data, ⟨.mmio map.low map.high, offset, isa.wordBytes⟩, io)

/-- `map_write` copies the data before it calls the device. -/
def map_write (addr data len : Nat) (map : Option (IOMap D)) (io : Devices D) :
    Except Fault (Span × Devices D) := do
  cassert (decide (len ≥ 1) && decide (len ≤ 8))
  let map ← check_bound map addr
  let offset := addr - map.low
  let io := { io with bytes := store io.bytes (map.space + offset) data len }
  let io ← invoke_callback map offset len true io
  return (⟨.mmio map.low map.high, offset, len⟩, io)

def paddr_read (isa : Isa) (maps : List (IOMap D)) (addr len : Nat) (mem : Mem D) :
    Except Fault (Nat × Span × Mem D) :=
  if in_pmem isa addr then do
    let (data, span) ← pmem_read isa addr len mem
    return (data, span, mem)
  else do
    let (data, span, io) ← map_read isa addr len (fetch_mmio_map maps addr) mem.io
    return (data, span, { mem with io := io })

def paddr_write (isa : Isa) (maps : List (IOMap D)) (addr data len : Nat) (mem : Mem D) :
    Except Fault (Span × Mem D) :=
  if in_pmem isa addr then
    pmem_write isa addr data len mem
  else do
    let (span, io) ← map_write addr data len (fetch_mmio_map maps addr) mem.io
    return (span, { mem with io := io })

/-! ## Section 3: What one access does -/

/-- The device behind `map` does not stop the emulator. -/
def device_accepts (map : IOMap D) (offset len : Nat) (is_write : Bool) (io : Devices D) :
    Prop :=
  ∀ c, map.callback = some c → (c offset len is_write io).isSome

theorem invoke_callback_accepts {map : IOMap D} {offset len : Nat} {w : Bool}
    {io : Devices D} (h : device_accepts map offset len w io) :
    ∃ io', invoke_callback map offset len w io = .ok io' := by
  unfold invoke_callback
  cases hc : map.callback with
  | none => exact ⟨io, rfl⟩
  | some c =>
    obtain ⟨io', hio'⟩ := Option.isSome_iff_exists.mp (h c hc)
    exact ⟨io', by simp [hio']⟩

theorem accepts_of_invoke_callback {map : IOMap D} {offset len : Nat} {w : Bool}
    {io io' : Devices D} (h : invoke_callback map offset len w io = .ok io') :
    device_accepts map offset len w io := by
  intro c hc
  simp only [invoke_callback, hc] at h
  cases hio : c offset len w io with
  | none => simp [hio] at h
  | some _ => rfl

/-- An address in `pmem` is at least the base. -/
theorem in_pmem_iff (isa : Isa) (addr : Nat) :
    in_pmem isa addr = true ↔ isa.pmemBase ≤ addr ∧ addr < isa.pmemBase + PMEM_SIZE := by
  have hsize : 0 < PMEM_SIZE := by decide
  simp only [in_pmem, Bool.and_eq_true, decide_eq_true_eq]
  omega

theorem cpuWidths_bounds {isa : Isa} {len : Nat} (h : len ∈ cpuWidths isa) :
    1 ≤ len ∧ len ≤ isa.wordBytes ∧ len ≤ 8 := by
  cases isa <;> simp_all [cpuWidths, Isa.wordBytes, Isa.isa64] <;> omega

/-- The routed map contains the address. -/
theorem fetch_mmio_map_inside {maps : List (IOMap D)} {addr : Nat} {map : IOMap D}
    (h : fetch_mmio_map maps addr = some map) : map.low ≤ addr ∧ addr ≤ map.high := by
  have hfound := List.find?_some h
  simpa [map_inside] using hfound

/-- The mask of `map_read` keeps the low `len` bytes. -/
theorem map_read_mask (v : Nat) {len : Nat} (hlo : 1 ≤ len) (hhi : len ≤ 8) :
    v &&& ((2 ^ 64 - 1) >>> ((8 - len) <<< 3)) = v % 256 ^ len := by
  have hmask : (2 ^ 64 - 1) >>> ((8 - len) <<< 3) = 2 ^ (8 * len) - 1 := by
    interval_cases len <;> rfl
  have hpow : 2 ^ (8 * len) = 256 ^ len := by rw [Nat.pow_mul]
  rw [hmask, Nat.and_two_pow_sub_one_eq_mod, hpow]

/-- A read routed to `pmem` is a typed load of `len` bytes. -/
theorem paddr_read_pmem {isa : Isa} (maps : List (IOMap D)) {addr len : Nat} (mem : Mem D)
    (hin : in_pmem isa addr = true) (hlen : len ∈ cpuWidths isa) :
    paddr_read isa maps addr len mem =
      .ok (load mem.pmem (addr - isa.pmemBase) len, ⟨.pmem, addr - isa.pmemBase, len⟩, mem) := by
  simp [paddr_read, pmem_read, hin, hlen]

/-- A write routed to `pmem` is a typed store of `len` bytes. -/
theorem paddr_write_pmem {isa : Isa} (maps : List (IOMap D)) {addr len : Nat} (data : Nat)
    (mem : Mem D) (hin : in_pmem isa addr = true) (hlen : len ∈ cpuWidths isa) :
    paddr_write isa maps addr data len mem =
      .ok (⟨.pmem, addr - isa.pmemBase, len⟩,
        { mem with pmem := store mem.pmem (addr - isa.pmemBase) data len }) := by
  simp [paddr_write, pmem_write, hin, hlen]

/-- A read that reaches a device calls it, and then loads a whole `word_t`. -/
theorem paddr_read_mmio {isa : Isa} {maps : List (IOMap D)} {addr len : Nat} (mem : Mem D)
    {map : IOMap D} (hout : in_pmem isa addr = false) (hlen : len ∈ cpuWidths isa)
    (hmap : fetch_mmio_map maps addr = some map) :
    paddr_read isa maps addr len mem =
      (invoke_callback map (addr - map.low) len false mem.io).map fun io =>
        (load io.bytes (map.space + (addr - map.low)) isa.wordBytes % 256 ^ len,
          ⟨.mmio map.low map.high, addr - map.low, isa.wordBytes⟩, { mem with io := io }) := by
  obtain ⟨hlo, _, hhi⟩ := cpuWidths_bounds hlen
  have hbound := fetch_mmio_map_inside hmap
  simp only [paddr_read, map_read, hout, hmap, check_bound, hlo, hhi, hbound.1, hbound.2,
    map_read_mask _ hlo hhi, decide_true, Bool.and_self, cassert_true, ok_bind, pure_eq_ok,
    Bool.false_eq_true, if_false]
  cases invoke_callback map (addr - map.low) len false mem.io <;> rfl

/-- A write that reaches a device copies `len` bytes, and then calls it. -/
theorem paddr_write_mmio {isa : Isa} {maps : List (IOMap D)} {addr len : Nat} (data : Nat)
    (mem : Mem D) {map : IOMap D} (hout : in_pmem isa addr = false)
    (hlen : len ∈ cpuWidths isa) (hmap : fetch_mmio_map maps addr = some map) :
    paddr_write isa maps addr data len mem =
      (invoke_callback map (addr - map.low) len true
        { mem.io with bytes := store mem.io.bytes (map.space + (addr - map.low)) data len }).map
        fun io => (⟨.mmio map.low map.high, addr - map.low, len⟩, { mem with io := io }) := by
  obtain ⟨hlo, _, hhi⟩ := cpuWidths_bounds hlen
  have hbound := fetch_mmio_map_inside hmap
  simp only [paddr_write, map_write, hout, hmap, check_bound, hlo, hhi, hbound.1, hbound.2,
    decide_true, Bool.and_self, cassert_true, ok_bind, pure_eq_ok, Bool.false_eq_true,
    if_false]
  generalize invoke_callback map (addr - map.low) len true _ = r
  cases r <;> rfl

/-- Without a map for the address, the bound check stops the emulator. -/
theorem paddr_unmapped {isa : Isa} {maps : List (IOMap D)} {addr len : Nat} (data : Nat)
    (mem : Mem D) (hout : in_pmem isa addr = false) (hlen : len ∈ cpuWidths isa)
    (hmap : fetch_mmio_map maps addr = none) :
    paddr_read isa maps addr len mem = .error .assertion ∧
      paddr_write isa maps addr data len mem = .error .assertion := by
  obtain ⟨hlo, _, hhi⟩ := cpuWidths_bounds hlen
  simp [paddr_read, paddr_write, map_read, map_write, hout, hmap, check_bound, hlo, hhi]

/-! ## Section 4: Accesses and the ends of the regions

    `in_pmem`, `find_mapid_by_addr` and `check_bound` look at the first byte
    of an access only, so the last byte may be past the end. -/

/-- No accepted read touches a byte past the end of its region. -/
def ReadInside (isa : Isa) (maps : List (IOMap D)) (addr len : Nat) (mem : Mem D) : Prop :=
  ∀ data span mem', paddr_read isa maps addr len mem = .ok (data, span, mem') → span.inside

/-- No accepted write touches a byte past the end of its region. -/
def WriteInside (isa : Isa) (maps : List (IOMap D)) (addr data len : Nat) (mem : Mem D) :
    Prop :=
  ∀ span mem', paddr_write isa maps addr data len mem = .ok (span, mem') → span.inside

/-- In `pmem` the whole access fits; on a device that accepts the read, the
    `word_t` at the register fits. -/
def ReadFits (isa : Isa) (maps : List (IOMap D)) (addr len : Nat) (mem : Mem D) : Prop :=
  if in_pmem isa addr then addr + len ≤ isa.pmemBase + PMEM_SIZE
  else ∀ map, fetch_mmio_map maps addr = some map →
    device_accepts map (addr - map.low) len false mem.io → addr + isa.wordBytes ≤ map.high + 1

/-- In `pmem` and on a device that accepts the write, the whole access fits. -/
def WriteFits (isa : Isa) (maps : List (IOMap D)) (addr data len : Nat) (mem : Mem D) : Prop :=
  if in_pmem isa addr then addr + len ≤ isa.pmemBase + PMEM_SIZE
  else ∀ map, fetch_mmio_map maps addr = some map →
    device_accepts map (addr - map.low) len true
      { mem.io with bytes := store mem.io.bytes (map.space + (addr - map.low)) data len } →
    addr + len ≤ map.high + 1

theorem paddr_read_inside_iff {isa : Isa} (maps : List (IOMap D)) (addr : Nat) {len : Nat}
    (mem : Mem D) (hlen : len ∈ cpuWidths isa) :
    ReadInside isa maps addr len mem ↔ ReadFits isa maps addr len mem := by
  cases hin : in_pmem isa addr with
  | true =>
    -- An address in guest memory, where only the end may lie outside.
    have hbase := ((in_pmem_iff isa addr).mp hin).1
    simp only [ReadInside, ReadFits, paddr_read_pmem maps mem hin hlen, hin, if_true,
      Except.ok.injEq, Prod.mk.injEq]
    constructor
    · intro h
      have hspan := h _ _ _ ⟨rfl, rfl, rfl⟩
      simp only [Span.inside, Region.size] at hspan
      omega
    · rintro h data span mem' ⟨_, rfl, _⟩
      simp only [Span.inside, Region.size]
      omega
  | false =>
    -- No device: an assertion fails, and nothing is accessed.
    cases hmap : fetch_mmio_map maps addr with
    | none =>
      have herr := (paddr_unmapped 0 mem hin hlen hmap).1
      simp [ReadInside, ReadFits, herr, hin, hmap]
    | some map =>
      -- A device that accepts the access.
      have hbound := fetch_mmio_map_inside hmap
      simp only [ReadInside, ReadFits, paddr_read_mmio mem hin hlen hmap, hin, hmap,
        Option.some.injEq, forall_eq', Bool.false_eq_true, if_false]
      constructor
      · intro h hacc
        obtain ⟨io', hio'⟩ := invoke_callback_accepts hacc
        have hspan := h _ _ _ (by rw [hio']; rfl)
        simp only [Span.inside, Region.size] at hspan
        omega
      · intro h data span mem' hrun
        cases hio : invoke_callback map (addr - map.low) len false mem.io with
        | error e => rw [hio] at hrun; cases hrun
        | ok io' =>
          rw [hio] at hrun
          have hfits := h (accepts_of_invoke_callback hio)
          cases hrun
          simp only [Span.inside, Region.size]
          omega

theorem paddr_write_inside_iff {isa : Isa} (maps : List (IOMap D)) (addr data : Nat)
    {len : Nat} (mem : Mem D) (hlen : len ∈ cpuWidths isa) :
    WriteInside isa maps addr data len mem ↔ WriteFits isa maps addr data len mem := by
  cases hin : in_pmem isa addr with
  | true =>
    -- In guest memory only the end may lie outside.
    have hbase := ((in_pmem_iff isa addr).mp hin).1
    simp only [WriteInside, WriteFits, paddr_write_pmem maps data mem hin hlen, hin, if_true,
      Except.ok.injEq, Prod.mk.injEq]
    constructor
    · intro h
      have hspan := h _ _ ⟨rfl, rfl⟩
      simp only [Span.inside, Region.size] at hspan
      omega
    · rintro h span mem' ⟨rfl, _⟩
      simp only [Span.inside, Region.size]
      omega
  | false =>
    cases hmap : fetch_mmio_map maps addr with
    | none =>
      have herr := (paddr_unmapped data mem hin hlen hmap).2
      simp [WriteInside, WriteFits, herr, hin, hmap]
    | some map =>
      -- A device that accepts the access.
      have hbound := fetch_mmio_map_inside hmap
      simp only [WriteInside, WriteFits, paddr_write_mmio data mem hin hlen hmap, hin, hmap,
        Option.some.injEq, forall_eq', Bool.false_eq_true, if_false]
      constructor
      · intro h hacc
        obtain ⟨io', hio'⟩ := invoke_callback_accepts hacc
        have hspan := h _ _ (by rw [hio']; rfl)
        simp only [Span.inside, Region.size] at hspan
        omega
      · intro h span mem' hrun
        generalize hio : invoke_callback map (addr - map.low) len true _ = r at hrun
        cases r with
        | error e => cases hrun
        | ok io' =>
          have hfits := h (accepts_of_invoke_callback hio)
          cases hrun
          simp only [Span.inside, Region.size]
          omega

/-- **Guest accesses and region ends.** For every ISA, device table, memory,
    address and CPU width, an access stays inside its region exactly when it
    fits there as a whole. -/
theorem paddr_access_inside_iff (isa : Isa) (maps : List (IOMap D)) (addr data len : Nat)
    (mem : Mem D) (hlen : len ∈ cpuWidths isa) :
    (ReadInside isa maps addr len mem ↔ ReadFits isa maps addr len mem) ∧
      (WriteInside isa maps addr data len mem ↔ WriteFits isa maps addr data len mem) :=
  ⟨paddr_read_inside_iff maps addr mem hlen, paddr_write_inside_iff maps addr data mem hlen⟩

/-- An x86 memory of zeros without devices. -/
def zeroMem : Mem Unit := ⟨fun _ => 0, ⟨fun _ => 0, ()⟩⟩

/-- The last word of `pmem` that x86 can read starts at `0x7fffffc`. -/
theorem paddr_access_inside_at_last_word :
    (ReadInside .x86 [] 0x7fffffc 4 zeroMem ↔ ReadFits .x86 [] 0x7fffffc 4 zeroMem) ∧
      (WriteInside .x86 [] 0x7fffffc 1 4 zeroMem ↔ WriteFits .x86 [] 0x7fffffc 1 4 zeroMem) :=
  paddr_access_inside_iff .x86 [] 0x7fffffc 1 4 zeroMem (by decide)

/-- `in_pmem` accepts the last byte of `pmem`, and a 4-byte read there touches
    three bytes past the array. -/
theorem paddr_read_last_byte_not_inside : ¬ ReadInside .x86 [] 0x7ffffff 4 zeroMem := by
  intro h
  have hspan := h _ _ _ (paddr_read_pmem [] zeroMem (by decide) (by decide))
  revert hspan
  decide

end Nemu.Paddr
