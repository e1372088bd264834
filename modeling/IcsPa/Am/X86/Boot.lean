import IcsPa.Framework.Bytes
import IcsPa.Framework.Fault

/-! # The boot loader

    `am/src/x86/qemu/boot/main.c`.  The loader reads the headers of an ELF image
    into a buffer, and then the segments to their places in the memory, in
    whole sectors.  The first and the last sector of a segment may reach beyond
    it, and so into its neighbours. -/

open CCall Bytes

namespace Am.X86.Boot

/-! ## Section 1: ELF images -/

inductive Class where
  | elf32
  | elf64
  deriving DecidableEq, Repr

/-- The fields of a program header that the loader reads. -/
structure Phdr where
  filesz : Nat
  memsz  : Nat
  paddr  : Nat
  offset : Nat
  deriving DecidableEq, Repr

namespace Class

/-- `e_phoff` of the ELF header at `elf`. -/
def e_phoff (m : Store) (elf : Nat) : Class → Nat
  | elf32 => load m (elf + 28) 4
  | elf64 => load m (elf + 32) 8

def e_phnum (m : Store) (elf : Nat) : Class → Nat
  | elf32 => load m (elf + 44) 2
  | elf64 => load m (elf + 56) 2

/-- `sizeof(Elf32_Phdr)` and `sizeof(Elf64_Phdr)` -/
def sizeof_phdr : Class → Nat
  | elf32 => 32
  | elf64 => 56

/-- The program header at `ph`. -/
def phdr (m : Store) (ph : Nat) : Class → Phdr
  | elf32 =>
      { filesz := load m (ph + 16) 4, memsz := load m (ph + 20) 4
        paddr := load m (ph + 12) 4, offset := load m (ph + 4) 4 }
  | elf64 =>
      { filesz := load m (ph + 32) 8, memsz := load m (ph + 40) 8
        paddr := load m (ph + 24) 8, offset := load m (ph + 8) 8 }

end Class

/-- `e_machine` of the ELF header at `elf`. -/
def e_machine (m : Store) (elf : Nat) : Nat := load m (elf + 18) 2

def EM_X86_64 : Nat := 62

/-! ## Section 2: `main.c` -/

def SECTSIZE : Nat := 512
def ARGSIZE : Nat := 1024
def MAINARG_ADDR : Nat := 0x10000

/-- The buffer of the headers. -/
def ELF_ADDR : Nat := 0x8000

/-- The loader itself, and its stack from `sp` on. -/
def loader (sp : Nat) : List (Nat × Nat) := [(0x7c00, 0x7e00), (sp, 0xa000)]

/-- What the loader uses while it loads the segments. -/
def in_use (sp : Nat) : List (Nat × Nat) := (ELF_ADDR, ELF_ADDR + 4096) :: loader sp

/-- The `n` bytes from `a` on meet one of the regions. -/
def hits (regions : List (Nat × Nat)) (a n : Nat) : Bool :=
  regions.any fun r => decide (a < r.2) && decide (r.1 < a + n)

section disk
variable (disk : Store) (regions : List (Nat × Nat))

/-- `read_disk(buf, sect)`: the sector comes from the disk.  The loader does not
    survive a sector in a region that it uses. -/
def read_disk (buf sect : Nat) (mem : Store) : Except Fault Store :=
  if hits regions buf SECTSIZE then .error .outOfBounds
  else .ok fun x =>
    if buf ≤ x ∧ x < buf + SECTSIZE then disk (SECTSIZE * sect + (x - buf)) else mem x

/-- The loop of `copy_from_disk`.  There are `2 ^ 23` sectors in the memory; a
    loop that makes as many turns has come round. -/
def read_sectors (ed : Nat) : Nat → Nat → Nat → Store → Except Fault Store
  | 0, _, _, _ => .error .diverges
  | fuel + 1, cur, sect, mem =>
      -- The whole sector is read, also what lies before `buf` and behind the end.
      if cur < ed then do
        let mem ← read_disk disk regions cur sect mem
        read_sectors ed fuel ((cur + SECTSIZE) % 2 ^ 32) ((sect + 1) % 2 ^ 32) mem
      else .ok mem

/-- `copy_from_disk(buf, nbytes, disk_offset)` -/
def copy_from_disk (buf : Nat) (nbytes disk_offset : Int) (mem : Store) : Except Fault Store :=
  let cur := buf - buf % SECTSIZE
  -- The sum is a `uint32_t`: an end at the end of the memory is 0.
  let ed := ((buf + nbytes) % 2 ^ 32).toNat
  let sect := ((disk_offset.tdiv SECTSIZE + ARGSIZE / SECTSIZE + 1) % 2 ^ 32).toNat
  read_sectors disk regions ed (2 ^ 23) cur sect mem

/-- The loop that clears the bytes behind the file. -/
def clear_bss : Nat → Nat → Store → Except Fault Store
  | 0, _, mem => .ok mem
  | n + 1, bss, mem =>
      if hits regions bss 1 then .error .outOfBounds
      else clear_bss n ((bss + 1) % 2 ^ 32) (Function.update mem bss 0)

/-- `load_program`, whose parameters are `uint32_t`s; those of `copy_from_disk`
    are `int`s. -/
def load_program (filesz memsz paddr offset : Nat) (mem : Store) : Except Fault Store := do
  let mem ← copy_from_disk disk regions paddr ((filesz : Int).bmod (2 ^ 32))
    ((offset : Int).bmod (2 ^ 32)) mem
  clear_bss regions ((memsz + 2 ^ 32 - filesz) % 2 ^ 32) ((paddr + filesz) % 2 ^ 32) mem

/-- The body of the loops of `load_elf32` and `load_elf64`. -/
def load_phdr (ph : Phdr) (mem : Store) : Except Fault Store :=
  load_program disk regions (ph.filesz % 2 ^ 32) (ph.memsz % 2 ^ 32) (ph.paddr % 2 ^ 32)
    (ph.offset % 2 ^ 32) mem

/-- `load_elf32` and `load_elf64`.  Each program header is read from the buffer
    when it is its turn; no turn changes the buffer, so `e_phnum` is read once. -/
def load_elf (cls : Class) (mem : Store) : Except Fault Store :=
  let ph := (ELF_ADDR + cls.e_phoff mem ELF_ADDR) % 2 ^ 32
  (List.range (cls.e_phnum mem ELF_ADDR)).foldlM (fun mem i =>
    load_phdr disk regions (cls.phdr mem ((ph + i * cls.sizeof_phdr) % 2 ^ 32)) mem) mem

end disk

/-- `load_kernel` of the first processor, up to the jump to the kernel. -/
def load_kernel (disk : Store) (sp : Nat) (mem : Store) : Except Fault Store := do
  let mem ← copy_from_disk disk (loader sp) MAINARG_ADDR 1024 (-1024) mem
  let mem ← copy_from_disk disk (loader sp) ELF_ADDR 4096 0 mem
  let cls := if e_machine mem ELF_ADDR = EM_X86_64 then Class.elf64 else Class.elf32
  load_elf disk (in_use sp) cls mem

/-! ## Section 3: What loading an image means -/

/-- The image follows the boot sector and the arguments. -/
def file (disk : Store) : Store := fun i => disk (SECTSIZE + ARGSIZE + i)

/-- The segments of an image, one for each program header. -/
def segments (cls : Class) (f : Store) : List Phdr :=
  (List.range (cls.e_phnum f 0)).map fun i =>
    cls.phdr f (cls.e_phoff f 0 + i * cls.sizeof_phdr)

/-- The memory of a segment has no byte in `lo` to `hi`. -/
def Phdr.Apart (s : Phdr) (lo hi : Nat) : Prop :=
  s.memsz = 0 ∨ s.paddr + s.memsz ≤ lo ∨ hi ≤ s.paddr

instance (s : Phdr) (lo hi : Nat) : Decidable (s.Apart lo hi) :=
  inferInstanceAs (Decidable (_ ∨ _ ∨ _))

/-- What is promised of an image. -/
structure Image (cls : Class) (f : Store) (sp : Nat) : Prop where
  headers   : cls.e_phoff f 0 + cls.e_phnum f 0 * cls.sizeof_phdr ≤ 4096
  sizes     : ∀ s ∈ segments cls f, s.filesz ≤ s.memsz
  congruent : ∀ s ∈ segments cls f, s.paddr % SECTSIZE = s.offset % SECTSIZE
  disjoint  : (segments cls f).Pairwise fun s t => t.memsz = 0 ∨ s.Apart t.paddr (t.paddr + t.memsz)
  away      : ∀ s ∈ segments cls f, ∀ r ∈ in_use sp, s.Apart r.1 r.2

/-- The byte of the segment that belongs at `x`. -/
def Phdr.byte (f : Store) (s : Phdr) (x : Nat) : UInt8 :=
  if x < s.paddr + s.filesz then f (s.offset + (x - s.paddr)) else 0

/-- The memory of the segment holds its file bytes, and zeros behind them. -/
def Phdr.LoadedIn (f : Store) (s : Phdr) (mem : Store) : Prop :=
  s.paddr + s.memsz ≤ 2 ^ 32 ∧
    ∀ x, s.paddr ≤ x → x < s.paddr + s.memsz → mem x = s.byte f x

/-- The headers are in their buffer. -/
def HeadersIn (f : Store) (mem : Store) : Prop := ∀ i < 4096, mem (ELF_ADDR + i) = f i

/-- The loop over the program headers loads all segments. -/
def LoadsAll (cls : Class) (disk : Store) (sp : Nat) : Prop :=
  ∀ mem, HeadersIn (file disk) mem → ∃ mem', load_elf disk (in_use sp) cls mem = .ok mem' ∧
    ∀ s ∈ segments cls (file disk), s.LoadedIn (file disk) mem'

/-! ## Section 4: When it does -/

namespace Phdr
variable (s : Phdr)

/-- The address of the first sector that is read for the segment. -/
def first : Nat := s.paddr - s.paddr % SECTSIZE

/-- How many sectors are read; an end that is no address counts as 0. -/
def sectors : Nat :=
  if s.paddr + s.filesz < 2 ^ 32 then
    (s.paddr % SECTSIZE + s.filesz + (SECTSIZE - 1)) / SECTSIZE
  else 0

/-- A sector is read over `x`. -/
def Reads (x : Nat) : Prop := s.first ≤ x ∧ x < s.first + SECTSIZE * s.sectors

instance (x : Nat) : Decidable (s.Reads x) := inferInstanceAs (Decidable (_ ∧ _))

/-- The number of the first sector. -/
def sect : Nat :=
  ((((s.offset % 2 ^ 32 : Nat) : Int).bmod (2 ^ 32)).tdiv SECTSIZE + ARGSIZE / SECTSIZE + 1) %
    2 ^ 32 |>.toNat

/-- The byte that is read to `x`. -/
def disk_byte (disk : Store) (x : Nat) : UInt8 :=
  disk (SECTSIZE * ((s.sect + (x - s.first) / SECTSIZE) % 2 ^ 32) + (x - s.first) % SECTSIZE)

/-- The sectors of the segment end below the end of the memory, and none of
    them meets the loader. -/
def Readable (sp : Nat) : Prop :=
  s.paddr + s.memsz ≤ 2 ^ 32 ∧
    (s.sectors = 0 ∨ s.first + SECTSIZE * s.sectors < 2 ^ 32) ∧
    ∀ m < s.sectors, hits (in_use sp) (s.first + SECTSIZE * m) SECTSIZE = false

instance (sp : Nat) : Decidable (s.Readable sp) :=
  inferInstanceAs (Decidable (_ ∧ (_ ∨ _) ∧ ∀ m < s.sectors, _))

end Phdr

/-- The byte that the last of the segments reads to `x`. -/
def last_byte (disk : Store) : List Phdr → Nat → Option UInt8
  | [], _ => none
  | s :: rest, x =>
      match last_byte disk rest x with
      | some b => some b
      | none => if s.Reads x then some (s.disk_byte disk x) else none

/-- Over each byte of a segment, the last sector that is read has the right
    byte: one of a later segment, or one of its own for a byte of its file. -/
def Kept (disk : Store) : List Phdr → Prop
  | [] => True
  | s :: rest =>
      (∀ x, s.paddr ≤ x → x < s.paddr + s.memsz →
        match last_byte disk rest x with
        | some b => b = s.byte (file disk) x
        | none => x < s.paddr + s.filesz →
            s.Reads x ∧ s.disk_byte disk x = s.byte (file disk) x) ∧
      Kept disk rest

/-- What an image needs to be loaded. -/
def Loadable (cls : Class) (disk : Store) (sp : Nat) : Prop :=
  (∀ s ∈ segments cls (file disk), s.Readable sp) ∧ Kept disk (segments cls (file disk))

end Am.X86.Boot
