import IcsPa.Am.X86.Boot.Load

/-! # Which images the boot loader loads

    An image is loaded exactly if its sectors can be read and the last sector
    over each byte of a segment brings the right byte.  Segments that lie in
    the memory as they lie in the file are loaded; segments whose places in
    the file are apart, and which meet in a sector of the memory, are not. -/

open CCall Bytes

namespace Am.X86.Boot

/-! ## Section 1: Exactly which -/

section loads
variable {cls : Class} {disk : Store} {sp : Nat}

theorem loads_all_of_loadable (himage : Image cls (file disk) sp) (hload : Loadable cls disk sp) :
    LoadsAll cls disk sp := by
  intro mem hmem
  obtain ⟨hread, hkept⟩ := hload
  refine ⟨_, load_elf_ok himage hread hmem, ?_⟩
  intro s hs
  refine ⟨(hread s hs).1, ?_⟩
  intro x hlo hhi
  exact loaded_of_kept himage.disjoint hkept hs hlo hhi

/-- A memory that has the headers in their buffer, and `v` in its last byte. -/
def with_last (f : Store) (v : UInt8) : Store := fun x =>
  if x = 2 ^ 32 - 1 then v else f (x - ELF_ADDR)

theorem with_last_headers (f : Store) (v : UInt8) : HeadersIn f (with_last f v) := by
  intro i hi
  unfold with_last ELF_ADDR
  rw [if_neg (by omega), Nat.add_sub_cancel_left]

theorem readable_of_loads_all (himage : Image cls (file disk) sp) (hloads : LoadsAll cls disk sp) :
    ∀ s ∈ segments cls (file disk), s.Readable sp := by
  have hmem := with_last_headers (file disk) 0
  obtain ⟨mem', hrun, hloaded⟩ := hloads _ hmem
  exact load_elf_readable himage (fun s hs => (hloaded s hs).1) hmem hrun

/-- Only one segment has the last byte of the memory. -/
theorem last_outside {l : List Phdr} {s : Phdr} (hs : s ∈ l)
    (hdisjoint : l.Pairwise fun s t => t.memsz = 0 ∨ s.Apart t.paddr (t.paddr + t.memsz))
    (hin : ∀ t ∈ l, t.paddr + t.memsz ≤ 2 ^ 32)
    (hlast : s.paddr + s.filesz = 2 ^ 32) (hsome : 0 < s.filesz) (hsize : s.filesz ≤ s.memsz) :
    ∀ t ∈ l, ¬ (t.paddr + t.filesz ≤ 2 ^ 32 - 1 ∧ 2 ^ 32 - 1 < t.paddr + t.memsz) := by
  obtain ⟨front, rest, rfl⟩ := List.append_of_mem hs
  rw [List.pairwise_append, List.pairwise_cons] at hdisjoint
  obtain ⟨-, ⟨hrest, -⟩, hfront⟩ := hdisjoint
  intro t ht
  have htin := hin t ht
  have hsin := hin s hs
  -- `t` is before `s` in the list, `s` itself, or behind it.
  rcases List.mem_append.mp ht with ht | ht
  · have hapart := hfront t ht s List.mem_cons_self
    unfold Phdr.Apart at hapart
    omega
  · rcases List.mem_cons.mp ht with rfl | ht
    · omega
    · have hapart := hrest t ht
      unfold Phdr.Apart at hapart
      omega

/-- A byte that is neither read nor cleared keeps its value. -/
theorem load_all_kept {l : List Phdr} {x : Nat} (hreads : ∀ t ∈ l, ¬ t.Reads x)
    (hclear : ∀ t ∈ l, ¬ (t.paddr + t.filesz ≤ x ∧ x < t.paddr + t.memsz)) (mem : Store) :
    load_all disk l mem x = mem x := by
  induction l generalizing mem with
  | nil => rfl
  | cons t rest ih =>
    have hrest := ih (fun u hu => hreads u (List.mem_cons_of_mem t hu))
      (fun u hu => hclear u (List.mem_cons_of_mem t hu)) (t.loaded disk mem)
    rw [load_all_cons, hrest, Phdr.loaded, if_neg (hclear t List.mem_cons_self),
      if_neg (hreads t List.mem_cons_self)]

/-- If every segment is loaded, its file bytes are read. -/
theorem reads_of_loads_all (himage : Image cls (file disk) sp) (hloads : LoadsAll cls disk sp) :
    ∀ s ∈ segments cls (file disk), ∀ x, s.paddr ≤ x → x < s.paddr + s.filesz → s.Reads x := by
  intro s hs x hlo hhi
  have hread := readable_of_loads_all himage hloads
  have hsize := himage.sizes s hs
  by_cases hend : s.paddr + s.filesz < 2 ^ 32
  · exact Phdr.reads_file hend hlo hhi
  · -- The loop makes no turn then, and the last byte stays as it was.
    have hin := (hread s hs).1
    have hclear := last_outside hs himage.disjoint (fun t ht => (hread t ht).1) (by omega)
      (by omega) hsize
    -- It is right only by chance: start with any value in it.
    have hlast : ∀ v, v = s.byte (file disk) (2 ^ 32 - 1) := by
      intro v
      have hmem := with_last_headers (file disk) v
      obtain ⟨mem', hrun, hloaded⟩ := hloads _ hmem
      rw [load_elf_ok himage hread hmem] at hrun
      cases hrun
      have hbyte := (hloaded s hs).2 (2 ^ 32 - 1) (by omega) (by omega)
      rw [load_all_kept (fun t ht => (hread t ht).not_reads_last) hclear] at hbyte
      rw [← hbyte]
      exact (if_pos rfl).symm
    exact absurd ((hlast 0).trans (hlast 1).symm) (by decide)

theorem loadable_of_loads_all (himage : Image cls (file disk) sp) (hloads : LoadsAll cls disk sp) :
    Loadable cls disk sp := by
  have hread := readable_of_loads_all himage hloads
  have hmem := with_last_headers (file disk) 0
  obtain ⟨mem', hrun, hloaded⟩ := hloads _ hmem
  rw [load_elf_ok himage hread hmem] at hrun
  cases hrun
  exact ⟨hread, kept_of_loaded himage.disjoint (reads_of_loads_all himage hloads) hloaded⟩

/-- The loop loads all segments exactly if every sector that it reads lies in
    the memory and away from the loader, and the last sector over each byte of
    a segment has the right byte. -/
theorem loads_all_iff (himage : Image cls (file disk) sp) :
    LoadsAll cls disk sp ↔ Loadable cls disk sp := by
  constructor
  · intro hloads
    exact loadable_of_loads_all himage hloads
  · intro hload
    exact loads_all_of_loadable himage hload

end loads

/-- A disk with an ELF32 image of the given headers and bytes. -/
def disk_of (fields : List Write) : Store := fun x =>
  stores (fun _ => 0) ([⟨28, 52, 4⟩] ++ fields) (x - (SECTSIZE + ARGSIZE))

/-- A segment of two bytes, and one behind it of a byte and one that is cleared,
    which is also behind it in the file. -/
def neighbours : Store := disk_of
  [⟨44, 2, 2⟩, ⟨56, 0x200, 4⟩, ⟨64, 0x100000, 4⟩, ⟨68, 2, 4⟩, ⟨72, 2, 4⟩, ⟨88, 0x202, 4⟩,
    ⟨96, 0x100002, 4⟩, ⟨100, 1, 4⟩, ⟨104, 2, 4⟩, ⟨0x200, 0xff3c2d5a, 4⟩]

theorem segments_neighbours : segments .elf32 (file neighbours) =
    [⟨2, 2, 0x100000, 0x200⟩, ⟨1, 2, 0x100002, 0x202⟩] := by
  decide +kernel

theorem image_neighbours : Image .elf32 (file neighbours) 0x9000 where
  headers := by decide +kernel
  sizes := by
    rw [segments_neighbours]
    decide
  congruent := by
    rw [segments_neighbours]
    decide
  disjoint := by
    rw [segments_neighbours]
    decide
  away := by
    rw [segments_neighbours]
    decide

/-- The sector of the second segment is read over the first one, and has its
    bytes. -/
theorem neighbours_load : LoadsAll .elf32 neighbours 0x9000 := by
  apply (loads_all_iff image_neighbours).mpr
  unfold Loadable
  rw [segments_neighbours]
  refine ⟨by decide, ?_, ?_, True.intro⟩
  · intro x hlo hhi
    have hx : x = 0x100000 ∨ x = 0x100001 := by
      dsimp only at hlo hhi
      omega
    have hfirst : last_byte neighbours [⟨1, 2, 0x100002, 0x202⟩] 0x100000 = some 0x5a := by
      decide +kernel
    have hsecond : last_byte neighbours [⟨1, 2, 0x100002, 0x202⟩] 0x100001 = some 0x2d := by
      decide +kernel
    rcases hx with rfl | rfl
    · rw [hfirst]
      decide +kernel
    · rw [hsecond]
      decide +kernel
  · intro x hlo _ hfile
    have hx : x = 0x100002 := by
      dsimp only at hlo hfile
      omega
    rw [hx]
    decide +kernel

/-- A segment of one byte, and one that is the next byte of the memory but
    not of the file. -/
def two_segments : Store := disk_of
  [⟨44, 2, 2⟩, ⟨56, 0x200, 4⟩, ⟨64, 0x100000, 4⟩, ⟨68, 1, 4⟩, ⟨72, 1, 4⟩, ⟨88, 0x401, 4⟩,
    ⟨96, 0x100001, 4⟩, ⟨100, 1, 4⟩, ⟨104, 1, 4⟩, ⟨0x200, 0x5a, 1⟩, ⟨0x401, 0xa5, 1⟩]

theorem segments_two : segments .elf32 (file two_segments) =
    [⟨1, 1, 0x100000, 0x200⟩, ⟨1, 1, 0x100001, 0x401⟩] := by
  decide +kernel

theorem image_two : Image .elf32 (file two_segments) 0x9000 where
  headers := by decide +kernel
  sizes := by
    rw [segments_two]
    decide
  congruent := by
    rw [segments_two]
    decide
  disjoint := by
    rw [segments_two]
    decide
  away := by
    rw [segments_two]
    decide

/-- The sector of the second segment is read over the first one. -/
theorem neighbour_overwritten : Image .elf32 (file two_segments) 0x9000 ∧
    ¬ LoadsAll .elf32 two_segments 0x9000 := by
  refine ⟨image_two, ?_⟩
  intro hloads
  obtain ⟨-, hkept⟩ := loadable_of_loads_all image_two hloads
  rw [segments_two] at hkept
  -- The first byte of the sector is 0 in the file, and 0x5a is wanted.
  have hlast : last_byte two_segments [⟨1, 1, 0x100001, 0x401⟩] 0x100000 = some 0 := by
    decide +kernel
  have hbyte := hkept.1 0x100000 (Nat.le_refl _) (by decide)
  rw [hlast] at hbyte
  exact absurd hbyte (by decide +kernel)

/-! ## Section 2: Segments that lie as in the file -/

section displacement
variable {disk : Store} {s t : Phdr}

/-- What is read to `x`, as a byte of the file. -/
theorem Phdr.disk_byte_eq (hoffset : s.offset < 2 ^ 31) {x : Nat} (hx : x < 2 ^ 32) :
    s.disk_byte disk x = file disk (s.offset - s.offset % SECTSIZE + (x - s.first)) := by
  have hmod : s.offset % 2 ^ 32 = s.offset := Nat.mod_eq_of_lt (by omega)
  have hbmod : (s.offset : Int).bmod (2 ^ 32) = s.offset := by
    apply Int.bmod_eq_of_le
    · omega
    · omega
  have htdiv : (s.offset : Int).tdiv SECTSIZE = ((s.offset / 512 : Nat) : Int) := rfl
  have hsect : s.sect = s.offset / 512 + 3 := by
    have hargs : ARGSIZE / SECTSIZE = 2 := rfl
    unfold Phdr.sect
    rw [hmod, hbmod, htdiv]
    omega
  have hplace : SECTSIZE * ((s.sect + (x - s.first) / SECTSIZE) % 2 ^ 32) +
      (x - s.first) % SECTSIZE =
        SECTSIZE + ARGSIZE + (s.offset - s.offset % SECTSIZE + (x - s.first)) := by
    rw [hsect]
    unfold SECTSIZE ARGSIZE
    omega
  unfold Phdr.disk_byte file
  rw [hplace]

/-- A sector has the right bytes of each segment that lies in the memory as
    the segment it is read for. -/
theorem Phdr.right_byte (hcongruent : t.paddr % SECTSIZE = t.offset % SECTSIZE)
    (hoffset : t.offset < 2 ^ 31) (hsame : t.offset + s.paddr = s.offset + t.paddr) {x : Nat}
    (hx : x < 2 ^ 32) (hlo : s.paddr ≤ x) (hfile : x < s.paddr + s.filesz) (hreads : t.Reads x) :
    t.disk_byte disk x = s.byte (file disk) x := by
  rw [Phdr.disk_byte_eq hoffset hx, Phdr.byte, if_pos hfile]
  congr 1
  unfold Phdr.Reads Phdr.first at *
  unfold SECTSIZE at *
  omega

/-- The last byte is one that one of the segments reads. -/
theorem last_byte_some {l : List Phdr} {x : Nat} {b : UInt8} (h : last_byte disk l x = some b) :
    ∃ t ∈ l, t.Reads x ∧ b = t.disk_byte disk x := by
  induction l with
  | nil => cases h
  | cons t rest ih =>
    rw [last_byte] at h
    cases hrest : last_byte disk rest x with
    | some b' =>
      rw [hrest] at h ih
      obtain ⟨u, hu, hread⟩ := ih h
      exact ⟨u, List.mem_cons_of_mem t hu, hread⟩
    | none =>
      rw [hrest] at h
      by_cases hreads : t.Reads x
      · rw [if_pos hreads] at h
        cases h
        exact ⟨t, List.mem_cons_self, hreads, rfl⟩
      · rw [if_neg hreads] at h
        cases h

/-- Loading `t` after `s` leaves the memory of `s` as it should be: where its
    sectors reach into it, they bring the file bytes of `s`. -/
def Phdr.Spares (s t : Phdr) : Prop :=
  ∀ x, s.paddr ≤ x → x < s.paddr + s.memsz → t.Reads x →
    x < s.paddr + s.filesz ∧ t.offset + s.paddr = s.offset + t.paddr

/-- Segments that spare each other are kept. -/
theorem kept_of_spares {l : List Phdr} (hoffset : ∀ s ∈ l, s.offset < 2 ^ 31)
    (hcongruent : ∀ s ∈ l, s.paddr % SECTSIZE = s.offset % SECTSIZE)
    (hend : ∀ s ∈ l, s.paddr + s.filesz < 2 ^ 32 ∧ s.paddr + s.memsz ≤ 2 ^ 32)
    (hspares : l.Pairwise Phdr.Spares) : Kept disk l := by
  induction l with
  | nil => exact True.intro
  | cons s rest ih =>
    rw [List.pairwise_cons] at hspares
    obtain ⟨hfirst, hlater⟩ := hspares
    have hs : s ∈ s :: rest := List.mem_cons_self
    obtain ⟨hcover, hin⟩ := hend s hs
    constructor
    -- A byte that a later segment reads as well must be spared by it.
    · intro x hlo hhi
      cases hlast : last_byte disk rest x with
      | some b =>
        obtain ⟨t, ht, hreads, rfl⟩ := last_byte_some hlast
        have htl : t ∈ s :: rest := List.mem_cons_of_mem s ht
        obtain ⟨hfile, hsame⟩ := hfirst t ht x hlo hhi hreads
        exact Phdr.right_byte (hcongruent t htl) (hoffset t htl) hsame (by omega) hlo hfile hreads
      | none =>
        -- No later segment reads the byte.
        intro hfile
        have hreads := Phdr.reads_file hcover hlo hfile
        exact ⟨hreads, Phdr.right_byte (hcongruent s hs) (hoffset s hs) rfl (by omega) hlo hfile
          hreads⟩
    · apply ih
      · intro t ht
        exact hoffset t (List.mem_cons_of_mem s ht)
      · intro t ht
        exact hcongruent t (List.mem_cons_of_mem s ht)
      · intro t ht
        exact hend t (List.mem_cons_of_mem s ht)
      · exact hlater

end displacement

/-! ## Section 3: `load_kernel` -/

section kernel
variable {disk mem : Store} {sp : Nat}

/-- Copying some sectors to an aligned address away from the loader. -/
theorem copy_aligned {buf n : Nat} {offset : Int} {sect : Nat} (hbuf : buf % SECTSIZE = 0)
    (hend : buf + SECTSIZE * n < 2 ^ 32)
    (hsect : ((offset.tdiv SECTSIZE + ARGSIZE / SECTSIZE + 1) % 2 ^ 32).toNat = sect)
    (haway : ∀ r ∈ loader sp, r.2 ≤ buf ∨ buf + SECTSIZE * n ≤ r.1) :
    copy_from_disk disk (loader sp) buf ((SECTSIZE * n : Nat) : Int) offset mem =
      .ok (with_sectors disk buf sect n mem) := by
  have hed : (((buf : Int) + ((SECTSIZE * n : Nat) : Int)) % 2 ^ 32).toNat = buf +
      SECTSIZE * n := by
    omega
  unfold copy_from_disk
  rw [hed, hsect, hbuf, Nat.sub_zero]
  apply read_sectors_ok
  · unfold SECTSIZE at hend
    omega
  · rw [← hsect]
    omega
  · exact Or.inr hend
  · intro m hm
    exact Nat.add_lt_add_left (Nat.mul_lt_mul_of_pos_left hm (by decide)) buf
  · exact Nat.le_refl _
  · intro m hm
    have hsector : SECTSIZE * m + SECTSIZE ≤ SECTSIZE * n := by
      rw [← Nat.mul_succ]
      exact Nat.mul_le_mul_left _ hm
    unfold hits
    rw [List.any_eq_false]
    intro r hr
    have hregion := haway r hr
    rw [Bool.and_eq_true, decide_eq_true_eq, decide_eq_true_eq]
    omega

/-- The class that `load_kernel` sees in the header. -/
def class_of (f : Store) : Class := if e_machine f 0 = EM_X86_64 then .elf64 else .elf32

/-- If the stack is above the header buffer, `load_kernel` loads every image
    that can be loaded. -/
theorem load_kernel_loads (hsp : 0x9000 ≤ sp) (himage : Image (class_of (file disk)) (file disk) sp)
    (hload : Loadable (class_of (file disk)) disk sp) : ∃ mem', load_kernel disk sp mem = .ok mem' ∧
      ∀ s ∈ segments (class_of (file disk)) (file disk), s.LoadedIn (file disk) mem' := by
  -- The arguments are behind the boot sector, and the image behind them.
  have hargs : copy_from_disk disk (loader sp) MAINARG_ADDR 1024 (-1024) mem =
      .ok (with_sectors disk MAINARG_ADDR 1 2 mem) := by
    apply copy_aligned (n := 2) (by decide) (by decide) (by decide)
    intro r hr
    simp only [loader, List.mem_cons, List.not_mem_nil, or_false] at hr
    rcases hr with rfl | rfl
    · exact Or.inl (show 0x7e00 ≤ MAINARG_ADDR by decide)
    · exact Or.inl (show 0xa000 ≤ MAINARG_ADDR by decide)
  have hheader : ∀ mem, copy_from_disk disk (loader sp) ELF_ADDR 4096 0 mem =
      .ok (with_sectors disk ELF_ADDR 3 8 mem) := by
    intro mem
    apply copy_aligned (n := 8) (by decide) (by decide) (by decide)
    intro r hr
    simp only [loader, List.mem_cons, List.not_mem_nil, or_false] at hr
    rcases hr with rfl | rfl
    · exact Or.inl (show 0x7e00 ≤ ELF_ADDR by decide)
    · exact Or.inr hsp
  have hmem : HeadersIn (file disk) (with_sectors disk ELF_ADDR 3 8
      (with_sectors disk MAINARG_ADDR 1 2 mem)) := by
    intro i hi
    unfold with_sectors file
    rw [if_pos ⟨Nat.le_add_right _ _, Nat.add_lt_add_left hi _⟩, Nat.add_sub_cancel_left]
    congr 1
    unfold SECTSIZE ARGSIZE
    omega
  have hclass : e_machine (with_sectors disk ELF_ADDR 3 8
      (with_sectors disk MAINARG_ADDR 1 2 mem)) ELF_ADDR = e_machine (file disk) 0 :=
    hmem.load (by decide)
  obtain ⟨mem', hrun, hloaded⟩ := loads_all_of_loadable himage hload _ hmem
  refine ⟨mem', ?_, hloaded⟩
  unfold load_kernel
  rw [hargs, ok_bind, hheader, ok_bind, hclass]
  exact hrun

end kernel

end Am.X86.Boot
