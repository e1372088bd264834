import IcsPa.Nemu.Paddr

/-! # What a guest reads back

    A run of accesses to `pmem`, of any widths, aligned or not, that may
    overlap in any way.  Every byte of a later read is the one that was
    written there last. -/

open CCall Bytes

namespace Nemu.Paddr

variable {D : Type}

/-! ## Section 1: Runs of accesses -/

inductive Access where
  | read (addr len : Nat)
  | write (addr data len : Nat)

/-- The whole range is in `pmem`, and the width is one of the CPU's. -/
def InPmem (isa : Isa) (addr len : Nat) : Prop :=
  len ∈ cpuWidths isa ∧ isa.pmemBase ≤ addr ∧ addr + len ≤ isa.pmemBase + PMEM_SIZE

def Access.Valid (isa : Isa) : Access → Prop
  | .read addr len => InPmem isa addr len
  | .write addr _ len => InPmem isa addr len

/-- The memory after an access. -/
def access (isa : Isa) (maps : List (IOMap D)) (mem : Mem D) : Access → Except Fault (Mem D)
  | .read addr len => do
      let (_, _, mem) ← paddr_read isa maps addr len mem
      return mem
  | .write addr data len => do
      let (_, mem) ← paddr_write isa maps addr data len mem
      return mem

/-- The writes among some accesses. -/
def writes : List Access → List Write
  | [] => []
  | .read _ _ :: accesses => writes accesses
  | .write addr data len :: accesses => ⟨addr, data, len⟩ :: writes accesses

/-- The byte of `pmem` at a guest address. -/
def guest_byte (isa : Isa) (mem : Mem D) : Store := fun addr => mem.pmem (addr - isa.pmemBase)

/-! ## Section 2: The law -/

theorem InPmem.in_pmem {isa : Isa} {addr len : Nat} (h : InPmem isa addr len) :
    in_pmem isa addr = true := by
  obtain ⟨hlen, hlo, hhi⟩ := h
  have hpos := (cpuWidths_bounds hlen).1
  rw [in_pmem_iff]
  omega

theorem load_guest {isa : Isa} {addr : Nat} (mem : Mem D) (n : Nat) (h : isa.pmemBase ≤ addr) :
    load mem.pmem (addr - isa.pmemBase) n = load (guest_byte isa mem) addr n := by
  induction n generalizing addr with
  | zero => rfl
  | succ n ih =>
    have hnext : addr - isa.pmemBase + 1 = addr + 1 - isa.pmemBase := by omega
    rw [load_succ, load_succ, hnext, ih (by omega)]
    rfl

/-- Step lemma: a read changes nothing, and a write is a store at the guest
    address. -/
theorem access_spec {isa : Isa} (maps : List (IOMap D)) (mem : Mem D) {x : Access}
    (hx : x.Valid isa) : ∃ mem', access isa maps mem x = .ok mem' ∧ mem'.io = mem.io ∧
      ∀ a, isa.pmemBase ≤ a → guest_byte isa mem' a = stores (guest_byte isa mem)
      (writes [x]) a := by
  cases x with
  | read addr len =>
    have hread := paddr_read_pmem maps mem (InPmem.in_pmem hx) hx.1
    refine ⟨mem, ?_, rfl, fun a _ => rfl⟩
    rw [access, hread]
    rfl
  | write addr data len =>
    have hin : InPmem isa addr len := hx
    have hlo := hin.2.1
    have hwrite := paddr_write_pmem maps data mem hin.in_pmem hin.1
    refine ⟨{ mem with pmem := store mem.pmem (addr - isa.pmemBase) data len }, ?_, rfl, ?_⟩
    · rw [access, hwrite]
      rfl
    · intro a ha
      show store mem.pmem (addr - isa.pmemBase) data len (a - isa.pmemBase) =
        store (guest_byte isa mem) addr data len a
      -- The base is subtracted on both sides.
      have hcover : addr - isa.pmemBase ≤ a - isa.pmemBase ∧
          a - isa.pmemBase < addr - isa.pmemBase + len ↔ addr ≤ a ∧ a < addr + len := by omega
      have hindex : a - isa.pmemBase - (addr - isa.pmemBase) = a - addr := by omega
      unfold store
      rw [hindex]
      exact if_congr hcover rfl rfl

theorem writes_append (xs ys : List Access) : writes (xs ++ ys) = writes xs ++ writes ys := by
  induction xs with
  | nil => rfl
  | cons x xs ih =>
    cases x with
    | read addr len => exact ih
    | write addr data len => exact congrArg _ ih

/-- Run lemma. -/
theorem accesses_spec {isa : Isa} (maps : List (IOMap D)) (mem : Mem D) {xs : List Access}
    (hxs : ∀ x ∈ xs, x.Valid isa) : ∃ mem', xs.foldlM (access isa maps) mem = .ok mem' ∧
      mem'.io = mem.io ∧ ∀ a, isa.pmemBase ≤ a →
        guest_byte isa mem' a = stores (guest_byte isa mem) (writes xs) a := by
  apply foldlM_total (P := fun done mem' => mem'.io = mem.io ∧ ∀ a, isa.pmemBase ≤ a →
    guest_byte isa mem' a = stores (guest_byte isa mem) (writes done) a)
  · intro done x rest mem₁ hsplit ⟨hio, hbytes⟩
    have hx : x.Valid isa := hxs x (by rw [hsplit]; simp)
    obtain ⟨mem₂, hrun, hio', hbytes'⟩ := access_spec maps mem₁ hx
    refine ⟨mem₂, hrun, hio'.trans hio, ?_⟩
    intro a ha
    have hold := hbytes a ha
    rw [hbytes' a ha, writes_append]
    cases x with
    | read addr len =>
      show guest_byte isa mem₁ a = stores (guest_byte isa mem) (writes done ++ []) a
      rw [List.append_nil]
      exact hold
    | write addr data len =>
      have hone := store_apply (guest_byte isa mem₁) ⟨addr, data, len⟩ a
      have hlast := lastByte_concat (guest_byte isa mem) (writes done) ⟨addr, data, len⟩ a
      rw [← stores_apply, ← stores_apply, ← hold] at hlast
      exact hone.trans hlast.symm
  · exact ⟨rfl, fun a _ => rfl⟩

/-- After any run of accesses inside `pmem`, a read returns, for each of its
    bytes, the byte written there last or the initial one, least significant
    byte first, and leaves the memory as it is. -/
theorem read_after_writes {isa : Isa} (maps : List (IOMap D)) (mem : Mem D) {xs : List Access}
    (hxs : ∀ x ∈ xs, x.Valid isa) : ∃ mem', xs.foldlM (access isa maps) mem = .ok mem' ∧
      mem'.io = mem.io ∧ ∀ a n, InPmem isa a n → ∃ span,
        paddr_read isa maps a n mem' =
          .ok (load (lastByte (guest_byte isa mem) (writes xs)) a n, span, mem') := by
  obtain ⟨mem', hrun, hio, hbytes⟩ := accesses_spec maps mem hxs
  refine ⟨mem', hrun, hio, ?_⟩
  intro a n ha
  refine ⟨⟨.pmem, a - isa.pmemBase, n⟩, ?_⟩
  have hload : load (guest_byte isa mem') a n =
      load (lastByte (guest_byte isa mem) (writes xs)) a n := by
    apply load_congr
    intro x hx _
    rw [hbytes x (Nat.le_trans ha.2.1 hx), stores_apply]
  rw [paddr_read_pmem maps mem' ha.in_pmem ha.1, load_guest mem' n ha.2.1, hload]

/-- Two writes that overlap, on x86. -/
theorem read_after_writes_overlap : ∃ mem',
    [Access.write 0x100 0x11223344 4, .read 0x100 2, .write 0x103 0xaabb 2].foldlM
      (access .x86 []) zeroMem = .ok mem' ∧
    ∃ span, paddr_read .x86 [] 0x102 4 mem' = .ok (0x00aabb22, span, mem') := by
  have hvalid : ∀ x ∈ [Access.write 0x100 0x11223344 4, .read 0x100 2, .write 0x103 0xaabb 2],
      x.Valid .x86 := by
    intro x hx
    simp only [List.mem_cons, List.not_mem_nil, or_false] at hx
    rcases hx with rfl | rfl | rfl
    · exact ⟨by decide, by decide, by decide⟩
    · exact ⟨by decide, by decide, by decide⟩
    · exact ⟨by decide, by decide, by decide⟩
  obtain ⟨mem', hrun, -, hread⟩ := read_after_writes [] zeroMem hvalid
  obtain ⟨span, hread⟩ := hread 0x102 4 ⟨by decide, by decide, by decide⟩
  refine ⟨mem', hrun, span, ?_⟩
  rw [hread]
  rfl

end Nemu.Paddr
