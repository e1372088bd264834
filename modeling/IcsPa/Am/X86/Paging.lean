import IcsPa.Am.AddrSpace
import IcsPa.Framework.BitCount
import Mathlib.Data.Nat.Bitwise
import Mathlib.Tactic.NormNum

/-! # Paging on x86

    The tables of `x86/qemu/vme.c` for both configurations, and the walk that
    the processor makes through them.  The processor knows nothing of the
    tables of the program: `HwLevel` is the architecture's own description of
    a level, and `indexof_eq` shows that the two agree. -/

namespace Am.X86

/-! ## Section 1: The configurations -/

/-- The two values of `__x86_64__`. -/
inductive Arch where
  | i386
  | x86_64
  deriving DecidableEq, Repr

structure PtInfo where
  mask  : Nat
  shift : Nat
  bits  : Nat
  deriving DecidableEq

structure VmArea where
  area   : Area
  kernel : Bool
  deriving DecidableEq

/-- `mmu.pgsize`. -/
def pgsize : Nat := 4096

def PTE_P : Nat := 0x001
def PTE_W : Nat := 0x002
def PTE_U : Nat := 0x004
def PTE_PS : Nat := 0x080

def PML4_ADDR : Nat := 0x1000
def PDPT_ADDR : Nat := 0x2000

namespace Arch

/-- `sizeof(uintptr_t)`. -/
def wordBytes : Arch → Nat
  | i386 => 4
  | x86_64 => 8

/-- The number of values of `uintptr_t`. -/
def wordSize : Arch → Nat
  | i386 => 0x100000000
  | x86_64 => 0x10000000000000000

/-- `mmu.pgtables`. -/
def pgtables : Arch → List PtInfo
  | i386 => [
      ⟨0x00000000, 0, 0⟩,
      ⟨0xffc00000, 22, 10⟩,
      ⟨0x003ff000, 12, 10⟩]
  | x86_64 => [
      ⟨0x000000000000, 0, 0⟩,
      ⟨0xff8000000000, 39, 9⟩,
      ⟨0x007fc0000000, 30, 9⟩,
      ⟨0x00003fe00000, 21, 9⟩,
      ⟨0x0000001ff000, 12, 9⟩]

/-- `mmu.pgtables[1]`, the level-1 page table. -/
def level1 : Arch → PtInfo
  | i386 => ⟨0xffc00000, 22, 10⟩
  | x86_64 => ⟨0xff8000000000, 39, 9⟩

def uvm_area : Arch → Area
  | i386 => ⟨0x40000000, 0x80000000⟩
  | x86_64 => ⟨0x100000000000, 0x108000000000⟩

/-- The entries of `vm_areas` with `kernel` set. -/
def kernel_areas : Arch → List Area
  | i386 => [⟨0x00000000, 0x40000000⟩, ⟨0xfd000000, 0x00000000⟩]
  | x86_64 => [⟨0x000000000000, 0x008000000000⟩]

def vm_areas (arch : Arch) : List VmArea :=
  ⟨arch.uvm_area, false⟩ :: arch.kernel_areas.map fun area => ⟨area, true⟩

/-- The number of entries of a table. -/
def entries (arch : Arch) : Nat := pgsize / arch.wordBytes

end Arch

def indexof (addr : Nat) (info : PtInfo) : Nat := (addr &&& info.mask) >>> info.shift

def baseof (arch : Arch) (addr : Nat) : Nat := addr &&& (arch.wordSize - pgsize)

/-- The address of `pt[index]`. -/
def cell (arch : Arch) (pt index : Nat) : Nat := pt + index * arch.wordBytes

/-- `entry & PTE_P`. -/
def present (entry : Nat) : Bool := entry &&& PTE_P != 0

/-! ## Section 2: The processor -/

/-- One level of the architecture's tables; `large` levels may map a page of
    their own size by an entry with `PTE_PS`. -/
structure HwLevel where
  shift : Nat
  bits  : Nat
  large : Bool

namespace Arch

def hwLevels : Arch → List HwLevel
  | i386 => [⟨22, 10, true⟩, ⟨12, 10, false⟩]
  | x86_64 => [⟨39, 9, false⟩, ⟨30, 9, true⟩, ⟨21, 9, true⟩, ⟨12, 9, false⟩]

/-- The number of virtual addresses that are translated. -/
def virtSize : Arch → Nat
  | i386 => 0x100000000
  | x86_64 => 0x1000000000000

/-- The number of physical addresses. -/
def physSize : Arch → Nat
  | i386 => 0x100000000
  | x86_64 => 0x10000000000000

end Arch

/-- The index of a virtual address at a level. -/
def HwLevel.index (l : HwLevel) (va : Nat) : Nat := va / 2 ^ l.shift % 2 ^ l.bits

/-- The physical page in an entry. -/
def frame (arch : Arch) (entry : Nat) : Nat := entry % arch.physSize / pgsize * pgsize

/-- What an access at a virtual address finds. -/
structure Translation where
  pa       : Nat
  writable : Bool
  user     : Bool
  deriving DecidableEq, Repr

/-- The walk through the levels `ls` from the table at `base`; an access is
    allowed if the entry of every level allows it.  After the last level,
    `base` is the page. -/
def walkLevels (arch : Arch) (mem : Nat → Nat) (va : Nat) :
    List HwLevel → Nat → Bool → Bool → Option Translation
  | [], base, w, u => some ⟨base + va % pgsize, w, u⟩
  | l :: ls, base, w, u =>
      let entry := mem (cell arch base (l.index va))
      let w := w && (entry &&& PTE_W != 0)
      let u := u && (entry &&& PTE_U != 0)
      if !present entry then none
      else if l.large && (entry &&& PTE_PS != 0) then
        some ⟨frame arch entry / 2 ^ l.shift * 2 ^ l.shift + va % 2 ^ l.shift, w, u⟩
      else walkLevels arch mem va ls (frame arch entry) w u

/-- The walk with `cr3` loaded. -/
def hwWalk (arch : Arch) (mem : Nat → Nat) (cr3 va : Nat) : Option Translation :=
  walkLevels arch mem va arch.hwLevels (frame arch cr3) true true

/-! ## Section 3: Words -/

/-- The page is aligned and has a physical address. -/
def PageOk (arch : Arch) (p : Nat) : Prop := p % pgsize = 0 ∧ p + pgsize ≤ arch.physSize

/-- Setting flags in an aligned word. -/
theorem or_flags {p f : Nat} (hp : p % pgsize = 0) (hf : f < pgsize) : p ||| f = p + f := by
  unfold pgsize at hp hf
  obtain ⟨k, rfl⟩ := Nat.dvd_of_mod_eq_zero hp
  exact (Nat.two_pow_add_eq_or_of_lt (i := 12) hf k).symm

/-- Testing flags of a word only depends on its low bits. -/
theorem and_flags {m : Nat} (e : Nat) (hm : m < pgsize) : e &&& m = e % pgsize &&& m := by
  unfold pgsize at hm ⊢
  have hlow := Nat.and_mod_two_pow (a := e) (b := m) (n := 12)
  have hle : e &&& m ≤ m := Nat.and_le_right
  rw [Nat.mod_eq_of_lt (show e &&& m < 2 ^ 12 by omega),
    Nat.mod_eq_of_lt (show m < 2 ^ 12 by omega)] at hlow
  exact hlow

theorem add_and_flags {p f m : Nat} (hp : p % pgsize = 0) (hf : f < pgsize) (hm : m < pgsize) :
    (p + f) &&& m = f &&& m := by
  rw [and_flags _ hm]
  unfold pgsize at hp hf ⊢
  rw [show (p + f) % 4096 = f by omega]

theorem frame_add {arch : Arch} {p f : Nat} (hp : PageOk arch p) (hf : f < pgsize) :
    frame arch (p + f) = p := by
  obtain ⟨halign, hlt⟩ := hp
  unfold frame pgsize at *
  cases arch <;> simp only [Arch.physSize] at * <;> omega

theorem baseof_eq {arch : Arch} {a : Nat} (ha : a < arch.wordSize) :
    baseof arch a = a / pgsize * pgsize := by
  unfold baseof pgsize
  cases arch with
  | i386 =>
    have hmask : Arch.i386.wordSize - 4096 = (2 ^ 20 - 1) * 2 ^ 12 := by decide
    have ha' : a < 0x100000000 := ha
    rw [hmask, BitCount.and_mask]
    omega
  | x86_64 =>
    have hmask : Arch.x86_64.wordSize - 4096 = (2 ^ 52 - 1) * 2 ^ 12 := by decide
    have ha' : a < 0x10000000000000000 := ha
    rw [hmask, BitCount.and_mask]
    omega

theorem physSize_le (arch : Arch) : arch.physSize ≤ arch.wordSize := by
  cases arch <;> decide

theorem baseof_add {arch : Arch} {p f : Nat} (hp : PageOk arch p) (hf : f < pgsize) :
    baseof arch (p + f) = p := by
  obtain ⟨halign, hlt⟩ := hp
  have hsize := physSize_le arch
  rw [baseof_eq (by omega)]
  unfold pgsize at *
  omega

/-- Tables do not overlap: a cell belongs to one table, at one index. -/
theorem cell_inj {arch : Arch} {p q i j : Nat} (hp : p % pgsize = 0) (hq : q % pgsize = 0)
    (hi : i < arch.entries) (hj : j < arch.entries) (h : cell arch p i = cell arch q j) :
    p = q ∧ i = j := by
  unfold cell at h
  unfold pgsize at hp hq
  cases arch with
  | i386 =>
    have hi' : i < 1024 := hi
    have hj' : j < 1024 := hj
    simp only [Arch.wordBytes] at h
    omega
  | x86_64 =>
    have hi' : i < 512 := hi
    have hj' : j < 512 := hj
    simp only [Arch.wordBytes] at h
    omega

/-! ## Section 4: Indices -/

/-- The path of a virtual address through the tables. -/
def digits (arch : Arch) (va : Nat) : List Nat := arch.hwLevels.map fun l => l.index va

/-- A table and the level of the architecture that reads it. -/
def PtInfo.Describes (info : PtInfo) (l : HwLevel) : Prop :=
  info.mask = (2 ^ l.bits - 1) * 2 ^ l.shift ∧ info.shift = l.shift

theorem indexof_eq {info : PtInfo} {l : HwLevel} (h : info.Describes l) (va : Nat) :
    indexof va info = l.index va := by
  obtain ⟨hmask, hshift⟩ := h
  unfold indexof HwLevel.index
  rw [hmask, hshift, BitCount.and_mask, Nat.shiftRight_eq_div_pow,
    Nat.mul_div_cancel _ (Nat.two_pow_pos l.shift)]

/-- The tables of the program are those of the architecture. -/
theorem pgtables_describe (arch : Arch) :
    ∃ cr3 infos, arch.pgtables = cr3 :: infos ∧ List.Forall₂ PtInfo.Describes infos arch.hwLevels ∧
      ∀ va, indexof va cr3 = 0 := by
  cases arch with
  | i386 =>
    refine ⟨_, _, rfl, ?_, fun va => by simp [indexof]⟩
    refine .cons ⟨rfl, rfl⟩ (.cons ⟨rfl, rfl⟩ .nil)
  | x86_64 =>
    refine ⟨_, _, rfl, ?_, fun va => by simp [indexof]⟩
    refine .cons ⟨rfl, rfl⟩ (.cons ⟨rfl, rfl⟩ (.cons ⟨rfl, rfl⟩ (.cons ⟨rfl, rfl⟩ .nil)))

theorem digits_lt {arch : Arch} {va i : Nat} (h : i ∈ digits arch va) : i < arch.entries := by
  obtain ⟨l, hl, rfl⟩ := List.mem_map.mp h
  have hbits : 2 ^ l.bits = arch.entries := by
    cases arch with
    | i386 =>
      simp only [Arch.hwLevels, List.mem_cons, List.not_mem_nil, or_false] at hl
      rcases hl with rfl | rfl <;> rfl
    | x86_64 =>
      simp only [Arch.hwLevels, List.mem_cons, List.not_mem_nil, or_false] at hl
      rcases hl with rfl | rfl | rfl | rfl <;> rfl
  rw [← hbits]
  exact Nat.mod_lt _ (Nat.two_pow_pos _)

/-- The path of an address determines its page. -/
theorem digits_inj {arch : Arch} {va va' : Nat} (h : va < arch.virtSize) (h' : va' < arch.virtSize)
    (heq : digits arch va = digits arch va') : va / pgsize = va' / pgsize := by
  unfold digits at heq
  unfold pgsize
  cases arch with
  | i386 =>
    simp only [Arch.hwLevels, List.map_cons, List.map_nil, HwLevel.index, List.cons.injEq,
      and_true, Arch.virtSize] at *
    norm_num at heq
    omega
  | x86_64 =>
    simp only [Arch.hwLevels, List.map_cons, List.map_nil, HwLevel.index, List.cons.injEq,
      and_true, Arch.virtSize] at *
    norm_num at heq
    omega

/-- All addresses of a page have the same path. -/
theorem digits_page (arch : Arch) (va : Nat) :
    digits arch (va / pgsize * pgsize) = digits arch va := by
  unfold digits
  refine List.map_congr_left fun l hl => ?_
  unfold HwLevel.index pgsize
  cases arch with
  | i386 =>
    simp only [Arch.hwLevels, List.mem_cons, List.not_mem_nil, or_false] at hl
    rcases hl with rfl | rfl
    · norm_num
      omega
    · norm_num
  | x86_64 =>
    simp only [Arch.hwLevels, List.mem_cons, List.not_mem_nil, or_false] at hl
    rcases hl with rfl | rfl | rfl | rfl
    · norm_num
      omega
    · norm_num
      omega
    · norm_num
      omega
    · norm_num

end Am.X86
