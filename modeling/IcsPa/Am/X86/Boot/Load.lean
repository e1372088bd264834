import IcsPa.Am.X86.Boot

/-! # What the boot loader loads

    Reading the sectors of a segment and clearing its rest give the memory of
    `loaded`.  The segments that follow leave in it the bytes that the last of
    them reads.  From this follows exactly which images are loaded as they
    should be. -/

open CCall Bytes

namespace Am.X86.Boot

/-! ## Section 1: Sectors -/

section sectors
variable {disk : Store} {regions : List (Nat × Nat)} {ed : Nat}

theorem sector_le (cur n : Nat) : cur + SECTSIZE ≤ cur + SECTSIZE * (n + 1) :=
  Nat.add_le_add_left (Nat.le_mul_of_pos_right SECTSIZE (Nat.succ_pos n)) cur

/-- The memory after `n` sectors are read from `sect` on. -/
def with_sectors (disk : Store) (cur sect n : Nat) (mem : Store) : Store := fun x =>
  if cur ≤ x ∧ x < cur + SECTSIZE * n then
    disk (SECTSIZE * ((sect + (x - cur) / SECTSIZE) % 2 ^ 32) + (x - cur) % SECTSIZE)
  else mem x

/-- A sector, and then `n` more. -/
theorem with_sectors_succ (disk : Store) {cur sect : Nat} (hsect : sect < 2 ^ 32) (n : Nat)
    (mem : Store) :
    with_sectors disk (cur + SECTSIZE) ((sect + 1) % 2 ^ 32) n
      (fun x => if cur ≤ x ∧
        x < cur + SECTSIZE then disk (SECTSIZE * sect + (x - cur)) else mem x) =
    with_sectors disk cur sect (n + 1) mem := by
  funext x
  unfold with_sectors SECTSIZE
  -- `x` is in one of the later sectors, in the first one, or in none.
  by_cases hlater : cur + 512 ≤ x ∧ x < cur + 512 + 512 * n
  · have hdiv : (x - cur) / 512 = (x - (cur + 512)) / 512 + 1 := by omega
    have hmod : (x - cur) % 512 = (x - (cur + 512)) % 512 := by omega
    rw [if_pos hlater, if_pos (by omega), hdiv, hmod, Nat.mod_add_mod]
    congr 3
    omega
  · rw [if_neg hlater]
    dsimp only
    by_cases hfirst : cur ≤ x ∧ x < cur + 512
    · have hdiv : (x - cur) / 512 = 0 := Nat.div_eq_of_lt (by omega)
      have hmod : (x - cur) % 512 = x - cur := Nat.mod_eq_of_lt (by omega)
      have hin : cur ≤ x ∧ x < cur + 512 * (n + 1) :=
        ⟨hfirst.1, Nat.lt_of_lt_of_le hfirst.2 (sector_le cur n)⟩
      rw [if_pos hfirst, if_pos hin, hdiv, hmod, Nat.add_zero, Nat.mod_eq_of_lt hsect]
    · have hout : ¬ (cur ≤ x ∧ x < cur + 512 * (n + 1)) := by
        have hsum : 512 * (n + 1) = 512 * n + 512 := Nat.mul_succ 512 n
        rw [hsum, ← Nat.add_assoc]
        omega
      rw [if_neg hfirst, if_neg hout]

/-- The loop reads `n` sectors, when none of them meets a region in use. -/
theorem read_sectors_ok {n fuel cur sect : Nat} {mem : Store} (hfuel : n < fuel)
    (hsect : sect < 2 ^ 32) (hend : n = 0 ∨ cur + SECTSIZE * n < 2 ^ 32)
    (hturns : ∀ m < n, cur + SECTSIZE * m < ed) (hed : ed ≤ cur + SECTSIZE * n)
    (hfree : ∀ m < n, hits regions (cur + SECTSIZE * m) SECTSIZE = false) :
    read_sectors disk regions ed fuel cur sect mem = .ok (with_sectors disk cur sect n mem) := by
  induction n generalizing fuel cur sect mem with
  | zero =>
    obtain ⟨fuel, rfl⟩ : ∃ f, fuel = f + 1 := ⟨fuel - 1, by omega⟩
    have hsame : with_sectors disk cur sect 0 mem = mem := by
      funext x
      exact if_neg (by omega)
    rw [read_sectors, if_neg (by omega), hsame]
  | succ n ih =>
    obtain ⟨fuel, rfl⟩ : ∃ f, fuel = f + 1 := ⟨fuel - 1, by omega⟩
    have hcur := hturns 0 (by omega)
    have hhit := hfree 0 (by omega)
    unfold SECTSIZE at hend hcur hhit
    have hread : read_disk disk regions cur sect mem = .ok fun x =>
        if cur ≤ x ∧ x < cur + SECTSIZE then disk (SECTSIZE * sect + (x - cur)) else mem x := by
      unfold read_disk
      rw [if_neg]
      rw [show hits regions cur SECTSIZE = false from hhit]
      exact Bool.false_ne_true
    have hnext : (cur + SECTSIZE) % 2 ^ 32 = cur + SECTSIZE := by
      unfold SECTSIZE
      exact Nat.mod_eq_of_lt (by omega)
    -- One sector now; the induction hypothesis reads the others from the next one on.
    rw [read_sectors, if_pos (by omega), hread, ok_bind, hnext, ih]
    · rw [with_sectors_succ disk hsect]
    · omega
    · exact Nat.mod_lt _ (by decide)
    · unfold SECTSIZE
      omega
    · intro m hm
      have hturn := hturns (m + 1) (by omega)
      rw [Nat.mul_succ] at hturn
      omega
    · rw [Nat.mul_succ] at hed
      omega
    · intro m hm
      have hfree' := hfree (m + 1) (by omega)
      rw [Nat.mul_succ, Nat.add_comm _ SECTSIZE, ← Nat.add_assoc] at hfree'
      exact hfree'

/-- A sector that meets a region in use stops the loop. -/
theorem read_sectors_hit {n fuel cur sect : Nat} {mem : Store}
    (hend : cur + SECTSIZE * n < 2 ^ 32) (hturns : ∀ m < n, cur + SECTSIZE * m < ed)
    (hhit : ∃ m < n, hits regions (cur + SECTSIZE * m) SECTSIZE = true) :
    ∃ e, read_sectors disk regions ed fuel cur sect mem = .error e := by
  induction n generalizing fuel cur sect mem with
  | zero =>
    obtain ⟨m, hm, -⟩ := hhit
    omega
  | succ n ih =>
    cases fuel with
    | zero => exact ⟨_, rfl⟩
    | succ fuel =>
      have hcur := hturns 0 (by omega)
      rw [Nat.mul_zero, Nat.add_zero] at hcur
      rw [read_sectors, if_pos hcur]
      -- The sector of this turn, or a later one.
      by_cases hfirst : hits regions cur SECTSIZE = true
      · refine ⟨.outOfBounds, ?_⟩
        rw [read_disk, if_pos hfirst, error_bind]
      · rw [read_disk, if_neg hfirst, ok_bind]
        have hnext : (cur + SECTSIZE) % 2 ^ 32 = cur + SECTSIZE :=
          Nat.mod_eq_of_lt (Nat.lt_of_le_of_lt (sector_le cur n) hend)
        rw [hnext]
        apply ih
        · rw [Nat.mul_succ] at hend
          omega
        · intro m hm
          have hturn := hturns (m + 1) (by omega)
          rw [Nat.mul_succ] at hturn
          omega
        · obtain ⟨m, hm, hhit⟩ := hhit
          cases m with
          | zero => exact absurd hhit hfirst
          | succ m =>
            rw [Nat.mul_succ, Nat.add_comm _ SECTSIZE, ← Nat.add_assoc] at hhit
            exact ⟨m, by omega, hhit⟩

/-- If the end is in the last sector of the memory, the loop comes round. -/
theorem read_sectors_wrap (hed : 2 ^ 32 - SECTSIZE < ed) {cur sect : Nat} {mem : Store}
    (hcur : cur % SECTSIZE = 0) (hlt : cur < 2 ^ 32) (fuel : Nat) :
    ∃ e, read_sectors disk regions ed fuel cur sect mem = .error e := by
  unfold SECTSIZE at hed hcur
  induction fuel generalizing cur sect mem with
  | zero => exact ⟨_, rfl⟩
  | succ fuel ih =>
    -- No sector starts at or above `ed`, so the test never fails.
    rw [read_sectors, if_pos (by omega)]
    unfold read_disk
    split
    · exact ⟨_, rfl⟩
    · rw [ok_bind]
      unfold SECTSIZE
      exact ih (by omega) (by omega)

/-- The loop that clears `n` bytes, when none of them is in use. -/
theorem clear_bss_ok {n bss : Nat} {mem : Store} (hend : bss + n ≤ 2 ^ 32)
    (hfree : ∀ m < n, hits regions (bss + m) 1 = false) :
    clear_bss regions n (bss % 2 ^ 32) mem =
      .ok fun x => if bss ≤ x ∧ x < bss + n then 0 else mem x := by
  induction n generalizing bss mem with
  | zero =>
    have hsame : (fun x => if bss ≤ x ∧ x < bss + 0 then 0 else mem x) = mem := by
      funext x
      exact if_neg (by omega)
    rw [hsame]
    rfl
  | succ n ih =>
    have hhit : hits regions bss 1 = false := hfree 0 (by omega)
    have hbss : bss % 2 ^ 32 = bss := Nat.mod_eq_of_lt (by omega)
    rw [clear_bss, hbss, if_neg (by rw [hhit]; exact Bool.false_ne_true), ih (by omega)]
    · congr 1
      funext x
      by_cases hlater : bss + 1 ≤ x ∧ x < bss + 1 + n
      · rw [if_pos hlater, if_pos (by omega)]
      · rw [if_neg hlater]
        by_cases hfirst : x = bss
        · rw [hfirst, Function.update_self, if_pos (by omega)]
        · rw [Function.update_of_ne hfirst, if_neg (by omega)]
    · intro m hm
      have hfree' := hfree (m + 1) (by omega)
      rw [Nat.add_comm m 1, ← Nat.add_assoc] at hfree'
      exact hfree'

end sectors

/-! ## Section 2: One segment -/

namespace Phdr
variable {s : Phdr} {sp : Nat} {disk mem : Store}

/-- The memory after a segment is loaded. -/
def loaded (disk : Store) (s : Phdr) (mem : Store) : Store := fun x =>
  if s.paddr + s.filesz ≤ x ∧ x < s.paddr + s.memsz then 0
  else if s.Reads x then s.disk_byte disk x else mem x

/-- No segment is as large as the memory. -/
theorem memsz_lt (haway : ∀ r ∈ in_use sp, s.Apart r.1 r.2) (hin : s.paddr + s.memsz ≤ 2 ^ 32) :
    s.memsz < 2 ^ 32 := by
  have hbuf := haway (ELF_ADDR, ELF_ADDR + 4096) List.mem_cons_self
  unfold Apart ELF_ADDR at hbuf
  dsimp only at hbuf
  omega

/-- The memory of the segment is not in use. -/
theorem hits_apart (haway : ∀ r ∈ in_use sp, s.Apart r.1 r.2) {x : Nat} (hlo : s.paddr ≤ x)
    (hhi : x < s.paddr + s.memsz) : hits (in_use sp) x 1 = false := by
  unfold hits
  rw [List.any_eq_false]
  intro r hr
  have hapart := haway r hr
  unfold Apart at hapart
  rw [Bool.and_eq_true, decide_eq_true_eq, decide_eq_true_eq]
  omega

/-- The end that `copy_from_disk` computes. -/
theorem copy_end (paddr filesz : Nat) :
    (((paddr : Int) + (filesz : Int).bmod (2 ^ 32)) % 2 ^ 32).toNat =
    (paddr + filesz) % 2 ^ 32 := by
  have hemod : (filesz : Int).bmod (2 ^ 32) % 2 ^ 32 = (filesz : Int) % 2 ^ 32 :=
    Int.bmod_emod (m := 2 ^ 32)
  rw [Int.add_emod, hemod, ← Int.add_emod]
  omega

/-- The sectors cover the file bytes, and the last of them has one. -/
theorem sectors_cover (hend : s.paddr + s.filesz < 2 ^ 32) :
    s.paddr + s.filesz ≤ s.first + SECTSIZE * s.sectors ∧
      ∀ m < s.sectors, s.first + SECTSIZE * m < s.paddr + s.filesz := by
  unfold first sectors SECTSIZE
  rw [if_pos hend]
  constructor
  · omega
  · intro m hm
    omega

/-- What `copy_from_disk` does for a segment that starts below the end of the
    memory. -/
theorem copy_segment (s : Phdr) (hin : s.paddr + s.filesz ≤ 2 ^ 32) (regions : List (Nat × Nat)) :
    copy_from_disk disk regions s.paddr ((s.filesz : Int).bmod (2 ^ 32))
        (((s.offset % 2 ^ 32 : Nat) : Int).bmod (2 ^ 32)) mem =
      read_sectors disk regions (if s.paddr + s.filesz < 2 ^ 32 then s.paddr + s.filesz else 0)
        (2 ^ 23) s.first s.sect mem := by
  have hed : (s.paddr + s.filesz) % 2 ^ 32 =
      if s.paddr + s.filesz < 2 ^ 32 then s.paddr + s.filesz else 0 := by
    split
    · exact Nat.mod_eq_of_lt (by omega)
    · rw [show s.paddr + s.filesz = 2 ^ 32 by omega, Nat.mod_self]
  unfold copy_from_disk
  rw [copy_end, hed]
  rfl

theorem sect_lt (s : Phdr) : s.sect < 2 ^ 32 := by
  unfold sect
  omega

/-- The loop reads the sectors of the segment. -/
theorem read_segment
    (hend : s.sectors = 0 ∨ s.first + SECTSIZE * s.sectors < 2 ^ 32)
    (hfree : ∀ m < s.sectors, hits (in_use sp) (s.first + SECTSIZE * m) SECTSIZE = false) :
    read_sectors disk (in_use sp)
      (if s.paddr + s.filesz < 2 ^ 32 then s.paddr + s.filesz else 0) (2 ^ 23) s.first s.sect mem =
        .ok (with_sectors disk s.first s.sect s.sectors mem) := by
  have hfuel : s.sectors < 2 ^ 23 := by
    unfold SECTSIZE at hend
    omega
  by_cases hcover : s.paddr + s.filesz < 2 ^ 32
  · obtain ⟨hed, hturns⟩ := sectors_cover hcover
    rw [if_pos hcover]
    exact read_sectors_ok hfuel s.sect_lt hend hturns hed hfree
  · have hnone : s.sectors = 0 := if_neg hcover
    rw [if_neg hcover, hnone]
    apply read_sectors_ok (by decide) s.sect_lt (Or.inl rfl)
    · intro m hm
      exact absurd hm (Nat.not_lt_zero m)
    · exact Nat.zero_le _
    · intro m hm
      exact absurd hm (Nat.not_lt_zero m)

/-- Loading a segment that starts below the end of the memory. -/
theorem load_phdr_below (hpaddr : s.paddr < 2 ^ 32) (hsize : s.filesz ≤ s.memsz)
    (haway : ∀ r ∈ in_use sp, s.Apart r.1 r.2) (hread : s.Readable sp) :
    load_phdr disk (in_use sp) s mem = .ok (s.loaded disk mem) := by
  obtain ⟨hin, hend, hfree⟩ := hread
  have hmemsz := memsz_lt haway hin
  have hf : s.filesz % 2 ^ 32 = s.filesz := Nat.mod_eq_of_lt (by omega)
  have hm : s.memsz % 2 ^ 32 = s.memsz := Nat.mod_eq_of_lt hmemsz
  have hp : s.paddr % 2 ^ 32 = s.paddr := Nat.mod_eq_of_lt hpaddr
  -- `memsz - filesz` does not wrap, as the file is not larger than the memory.
  have hcount : (s.memsz + 2 ^ 32 - s.filesz) % 2 ^ 32 = s.memsz - s.filesz := by
    rw [show s.memsz + 2 ^ 32 - s.filesz = s.memsz - s.filesz + 2 ^ 32 by omega,
      Nat.add_mod_right]
    exact Nat.mod_eq_of_lt (by omega)
  have hclear : ∀ mem, clear_bss (in_use sp) (s.memsz - s.filesz)
    ((s.paddr + s.filesz) % 2 ^ 32) mem =
      .ok fun x => if s.paddr + s.filesz ≤ x ∧ x < s.paddr + s.filesz + (s.memsz - s.filesz) then 0
        else mem x := by
    intro mem
    apply clear_bss_ok (by omega)
    intro m hm
    exact hits_apart haway (by omega) (by omega)
  unfold load_phdr load_program
  rw [hf, hm, hp, copy_segment s (by omega), read_segment hend hfree, ok_bind, hcount,
    hclear]
  congr 1
  funext x
  unfold loaded with_sectors
  rw [show s.paddr + s.filesz + (s.memsz - s.filesz) = s.paddr + s.memsz by omega]
  rfl

/-- Nothing is read and nothing is cleared. -/
theorem loaded_empty (hsize : s.filesz = s.memsz) (hnone : s.sectors = 0) :
    s.loaded disk mem = mem := by
  funext x
  have hreads : ¬ s.Reads x := by
    unfold Reads
    rw [hnone]
    omega
  unfold loaded
  rw [if_neg hreads, if_neg (by omega)]

theorem load_phdr_ok (hsize : s.filesz ≤ s.memsz) (haway : ∀ r ∈ in_use sp, s.Apart r.1 r.2)
    (hread : s.Readable sp) : load_phdr disk (in_use sp) s mem = .ok (s.loaded disk mem) := by
  by_cases hpaddr : s.paddr < 2 ^ 32
  · exact load_phdr_below hpaddr hsize haway hread
  · -- An empty segment at the end of the memory is loaded as one at its start.
    obtain ⟨hf, hm, hp⟩ : s.filesz = 0 ∧ s.memsz = 0 ∧ s.paddr = 2 ^ 32 := by
      have hin := hread.1
      omega
    let t : Phdr := ⟨0, 0, 0, s.offset⟩
    have hsame : load_phdr disk (in_use sp) s mem = load_phdr disk (in_use sp) t mem := by
      unfold load_phdr
      rw [hf, hm, hp, Nat.mod_self]
      rfl
    have hnone' : t.sectors = 0 := by simp [sectors, t, SECTSIZE]
    have ht : load_phdr disk (in_use sp) t mem = .ok (t.loaded disk mem) := load_phdr_below
      (Nat.zero_lt_succ _) (Nat.le_refl 0) (fun r hr => Or.inl rfl)
      ⟨Nat.zero_le _, Or.inl hnone', by
        rw [hnone']
        exact fun m hm => absurd hm (Nat.not_lt_zero m)⟩
    rw [hsame, ht, loaded_empty rfl hnone', loaded_empty (by omega) (if_neg (by omega))]

/-- Otherwise the loader does not survive the segment. -/
theorem load_phdr_fails (hsize : s.filesz ≤ s.memsz) (haway : ∀ r ∈ in_use sp, s.Apart r.1 r.2)
    (hin : s.paddr + s.memsz ≤ 2 ^ 32) (hread : ¬ s.Readable sp) :
    ∃ e, load_phdr disk (in_use sp) s mem = .error e := by
  have hmemsz := memsz_lt haway hin
  -- A segment of no sectors is readable, so this one has some.
  have hsome : s.sectors ≠ 0 := by
    intro hnone
    refine hread ⟨hin, Or.inl hnone, ?_⟩
    rw [hnone]
    exact fun m hm => absurd hm (Nat.not_lt_zero m)
  have hcover : s.paddr + s.filesz < 2 ^ 32 := by
    by_contra hcover
    exact hsome (if_neg hcover)
  obtain ⟨hed, hturns⟩ := sectors_cover hcover
  have hcopy : ∃ e, read_sectors disk (in_use sp)
      (if s.paddr + s.filesz < 2 ^ 32 then s.paddr + s.filesz else 0) (2 ^ 23) s.first s.sect mem =
        .error e := by
    rw [if_pos hcover]
    by_cases hend : s.first + SECTSIZE * s.sectors < 2 ^ 32
    · apply read_sectors_hit hend hturns
      by_contra hfree
      refine hread ⟨hin, Or.inr hend, ?_⟩
      intro m hm
      by_contra hhit
      exact hfree ⟨m, hm, Bool.not_eq_false _ ▸ hhit⟩
    · -- The last sector is the last one of the memory.
      have hlast := hturns (s.sectors - 1) (by omega)
      have hfirst : s.first % SECTSIZE = 0 := by
        unfold first SECTSIZE
        omega
      apply read_sectors_wrap _ hfirst
      · unfold first
        omega
      · unfold SECTSIZE at hend hlast hfirst ⊢
        omega
  obtain ⟨e, hcopy⟩ := hcopy
  refine ⟨e, ?_⟩
  have hf : s.filesz % 2 ^ 32 = s.filesz := Nat.mod_eq_of_lt (by omega)
  have hp : s.paddr % 2 ^ 32 = s.paddr := Nat.mod_eq_of_lt (by omega)
  unfold load_phdr load_program
  rw [hf, hp, copy_segment s (by omega), hcopy, error_bind]

/-- Each byte of the file is read, unless the file ends with the memory. -/
theorem reads_file (hend : s.paddr + s.filesz < 2 ^ 32) {x : Nat} (hlo : s.paddr ≤ x)
    (hhi : x < s.paddr + s.filesz) : s.Reads x := by
  have hcover := (sectors_cover hend).1
  unfold Reads
  constructor
  · unfold first
    omega
  · omega

/-- What is read leaves everything in use alone. -/
theorem Readable.not_reads (hread : s.Readable sp) {r : Nat × Nat} (hr : r ∈ in_use sp) {x : Nat}
    (hlo : r.1 ≤ x) (hhi : x < r.2) : ¬ s.Reads x := by
  intro hreads
  unfold Reads at hreads
  have hfree := hread.2.2 ((x - s.first) / SECTSIZE) (by unfold SECTSIZE at *; omega)
  unfold hits at hfree
  rw [List.any_eq_false] at hfree
  apply hfree r hr
  rw [Bool.and_eq_true, decide_eq_true_eq, decide_eq_true_eq]
  unfold SECTSIZE at *
  omega

/-- The last byte of the memory is never read. -/
theorem Readable.not_reads_last (hread : s.Readable sp) : ¬ s.Reads (2 ^ 32 - 1) := by
  intro hreads
  unfold Reads at hreads
  have hend := hread.2.1
  unfold first SECTSIZE at *
  omega

/-- The headers stay in their buffer. -/
theorem loaded_headers {f : Store} (haway : ∀ r ∈ in_use sp, s.Apart r.1 r.2)
    (hread : s.Readable sp) (hmem : HeadersIn f mem) : HeadersIn f (s.loaded disk mem) := by
  intro i hi
  have hbuf : (ELF_ADDR, ELF_ADDR + 4096) ∈ in_use sp := List.mem_cons_self
  have hapart := haway _ hbuf
  have hreads : ¬ s.Reads (ELF_ADDR + i) :=
    hread.not_reads hbuf (Nat.le_add_right _ _) (Nat.add_lt_add_left hi _)
  unfold Apart at hapart
  unfold loaded
  rw [if_neg, if_neg hreads]
  · exact hmem i hi
  · dsimp only at hapart
    omega

end Phdr

/-! ## Section 3: The program headers -/

section headers
variable {cls : Class} {f mem : Store}

/-- A field of a header, read from the buffer. -/
theorem HeadersIn.load (hmem : HeadersIn f mem) {k n : Nat} (h : k + n ≤ 4096) :
    load mem (ELF_ADDR + k) n = load f k n := by
  apply load_shift
  intro i hi
  rw [Nat.add_assoc]
  exact hmem (k + i) (by omega)

theorem HeadersIn.e_phoff (hmem : HeadersIn f mem) :
    cls.e_phoff mem ELF_ADDR = cls.e_phoff f 0 := by
  cases cls with
  | elf32 => exact hmem.load (by decide)
  | elf64 => exact hmem.load (by decide)

theorem HeadersIn.e_phnum (hmem : HeadersIn f mem) :
    cls.e_phnum mem ELF_ADDR = cls.e_phnum f 0 := by
  cases cls with
  | elf32 => exact hmem.load (by decide)
  | elf64 => exact hmem.load (by decide)

theorem HeadersIn.phdr (hmem : HeadersIn f mem) {k : Nat} (h : k + cls.sizeof_phdr ≤ 4096) :
    cls.phdr mem (ELF_ADDR + k) = cls.phdr f k := by
  have hfield {j n : Nat} (hin : k + j + n ≤ 4096) :
      Bytes.load mem (ELF_ADDR + k + j) n = Bytes.load f (k + j) n := by
    rw [Nat.add_assoc]
    exact hmem.load (by omega)
  cases cls with
  | elf32 =>
    have hin : k + 32 ≤ 4096 := h
    simp only [Class.phdr]
    rw [hfield (by omega), hfield (by omega), hfield (by omega), hfield (by omega)]
  | elf64 =>
    have hin : k + 56 ≤ 4096 := h
    simp only [Class.phdr]
    rw [hfield (by omega), hfield (by omega), hfield (by omega), hfield (by omega)]

end headers

/-! ## Section 4: All segments -/

section segments
variable {cls : Class} {disk mem : Store} {sp : Nat}

/-- The memory after some segments are loaded. -/
def load_all (disk : Store) (l : List Phdr) (mem : Store) : Store :=
  l.foldl (fun mem s => s.loaded disk mem) mem

theorem load_all_cons (s : Phdr) (rest : List Phdr) :
    load_all disk (s :: rest) mem = load_all disk rest (s.loaded disk mem) := rfl

theorem load_all_concat (l : List Phdr) (s : Phdr) :
    load_all disk (l ++ [s]) mem = s.loaded disk (load_all disk l mem) := by
  unfold load_all
  rw [List.foldl_append]
  rfl

/-- Behind the segments each byte is the last one read, outside their own
    memories. -/
theorem load_all_outside {l : List Phdr} {x : Nat}
    (hout : ∀ s ∈ l, ¬ (s.paddr ≤ x ∧ x < s.paddr + s.memsz)) :
    load_all disk l mem x = (last_byte disk l x).getD (mem x) := by
  induction l generalizing mem with
  | nil => rfl
  | cons s rest ih =>
    have hself := hout s List.mem_cons_self
    have hrest : load_all disk rest (s.loaded disk mem) x =
        (last_byte disk rest x).getD (s.loaded disk mem x) :=
      ih fun t ht => hout t (List.mem_cons_of_mem s ht)
    rw [load_all_cons, hrest, last_byte]
    -- What `s` leaves at `x` only counts if nothing is read there later.
    cases last_byte disk rest x with
    | some b => rfl
    | none =>
      rw [Option.getD_none, Phdr.loaded, if_neg (by omega)]
      by_cases hreads : s.Reads x
      · rw [if_pos hreads, if_pos hreads, Option.getD_some]
      · rw [if_neg hreads, if_neg hreads, Option.getD_none]

/-- The memory of a segment has no byte of those behind it. -/
theorem outside_rest {s : Phdr} {rest : List Phdr}
    (hdisjoint : ∀ t ∈ rest, t.memsz = 0 ∨ s.Apart t.paddr (t.paddr + t.memsz)) {x : Nat}
    (hlo : s.paddr ≤ x) (hhi : x < s.paddr + s.memsz) :
    ∀ t ∈ rest, ¬ (t.paddr ≤ x ∧ x < t.paddr + t.memsz) := by
  intro t ht hin
  have hapart := hdisjoint t ht
  unfold Phdr.Apart at hapart
  omega

/-- What is in the memory of a segment after it and those behind it are
    loaded. -/
theorem load_all_head {s : Phdr} {rest : List Phdr} {x : Nat}
    (hdisjoint : ∀ t ∈ rest, t.memsz = 0 ∨ s.Apart t.paddr (t.paddr + t.memsz))
    (hlo : s.paddr ≤ x) (hhi : x < s.paddr + s.memsz) :
    load_all disk (s :: rest) mem x = (last_byte disk rest x).getD (s.loaded disk mem x) := by
  rw [load_all_cons]
  exact load_all_outside (outside_rest hdisjoint hlo hhi)

/-- If the last bytes are the right ones, all segments are loaded. -/
theorem loaded_of_kept {l : List Phdr}
    (hdisjoint : l.Pairwise fun s t => t.memsz = 0 ∨ s.Apart t.paddr (t.paddr + t.memsz))
    (hkept : Kept disk l) {s : Phdr} (hs : s ∈ l) {x : Nat} (hlo : s.paddr ≤ x)
    (hhi : x < s.paddr + s.memsz) : load_all disk l mem x = s.byte (file disk) x := by
  induction l generalizing mem with
  | nil => cases hs
  | cons t rest ih =>
    rw [List.pairwise_cons] at hdisjoint
    obtain ⟨hfirst, hlater⟩ := hdisjoint
    obtain ⟨hself, hrest⟩ := hkept
    rcases List.mem_cons.mp hs with rfl | hs
    · have hbyte := hself x hlo hhi
      rw [load_all_head hfirst hlo hhi]
      cases hlast : last_byte disk rest x with
      | some b =>
        rw [hlast] at hbyte
        exact hbyte
      | none =>
        rw [hlast] at hbyte
        rw [Option.getD_none, Phdr.loaded]
        by_cases hfile : x < s.paddr + s.filesz
        · obtain ⟨hreads, hright⟩ := hbyte hfile
          rw [if_neg (by omega), if_pos hreads, hright]
        · rw [if_pos ⟨by omega, hhi⟩, Phdr.byte, if_neg hfile]
    · exact ih hlater hrest hs

/-- If all segments are loaded, the last bytes are the right ones. -/
theorem kept_of_loaded {l : List Phdr}
    (hdisjoint : l.Pairwise fun s t => t.memsz = 0 ∨ s.Apart t.paddr (t.paddr + t.memsz))
    (hfile : ∀ s ∈ l, ∀ x, s.paddr ≤ x → x < s.paddr + s.filesz → s.Reads x)
    (hloaded : ∀ s ∈ l, s.LoadedIn (file disk) (load_all disk l mem)) : Kept disk l := by
  induction l generalizing mem with
  | nil => exact True.intro
  | cons s rest ih =>
    rw [List.pairwise_cons] at hdisjoint
    obtain ⟨hfirst, hlater⟩ := hdisjoint
    have hmem : s ∈ s :: rest := List.mem_cons_self
    constructor
    · intro x hlo hhi
      have hbyte := (hloaded s hmem).2 x hlo hhi
      rw [load_all_head hfirst hlo hhi] at hbyte
      cases hlast : last_byte disk rest x with
      | some b =>
        rw [hlast] at hbyte
        exact hbyte
      | none =>
        rw [hlast, Option.getD_none] at hbyte
        intro hin
        have hreads := hfile s hmem x hlo hin
        rw [Phdr.loaded, if_neg (by omega), if_pos hreads] at hbyte
        exact ⟨hreads, hbyte⟩
    · have hrest : ∀ t ∈ rest, t.LoadedIn (file disk) (load_all disk rest (s.loaded disk mem)) :=
        fun t ht => hloaded t (List.mem_cons_of_mem s ht)
      apply ih hlater _ hrest
      intro t ht
      exact hfile t (List.mem_cons_of_mem s ht)

end segments

/-! ## Section 5: The loop over the program headers -/

section loop
variable {cls : Class} {disk mem : Store} {sp : Nat}

/-- The segment of the program header `i`. -/
def segment (cls : Class) (f : Store) (i : Nat) : Phdr :=
  cls.phdr f (cls.e_phoff f 0 + i * cls.sizeof_phdr)

theorem segment_mem {f : Store} {i : Nat} (hi : i < cls.e_phnum f 0) :
    segment cls f i ∈ segments cls f :=
  List.mem_map.mpr ⟨i, List.mem_range.mpr hi, rfl⟩

/-- One turn of the loop. -/
def turn (cls : Class) (disk : Store) (sp : Nat) (mem : Store) (i : Nat) : Except Fault Store :=
  load_phdr disk (in_use sp)
    (cls.phdr mem (((ELF_ADDR + cls.e_phoff (file disk) 0) % 2 ^ 32 + i * cls.sizeof_phdr) %
      2 ^ 32)) mem

theorem load_elf_turns (hmem : HeadersIn (file disk) mem) :
    load_elf disk (in_use sp) cls mem =
      (List.range (cls.e_phnum (file disk) 0)).foldlM (turn cls disk sp) mem := by
  unfold load_elf
  rw [hmem.e_phoff, hmem.e_phnum]
  rfl

/-- A turn loads its segment, as long as the headers are in their buffer. -/
theorem turn_eq (himage : Image cls (file disk) sp) (hmem : HeadersIn (file disk) mem) {i : Nat}
    (hi : i < cls.e_phnum (file disk) 0) :
    turn cls disk sp mem i = load_phdr disk (in_use sp) (segment cls (file disk) i) mem := by
  have hheaders := himage.headers
  have hnext : (i + 1) * cls.sizeof_phdr ≤ cls.e_phnum (file disk) 0 * cls.sizeof_phdr :=
    Nat.mul_le_mul_right _ hi
  rw [Nat.add_mul, Nat.one_mul] at hnext
  -- The table ends in the buffer, so no address wraps.
  have hplace : ((ELF_ADDR + cls.e_phoff (file disk) 0) % 2 ^ 32 + i * cls.sizeof_phdr) % 2 ^ 32 =
      ELF_ADDR + (cls.e_phoff (file disk) 0 + i * cls.sizeof_phdr) := by
    unfold ELF_ADDR
    omega
  unfold turn segment
  rw [hplace, hmem.phdr (by omega)]

theorem index_lt {n i : Nat} {done rest : List Nat} (h : List.range n = done ++ i :: rest) :
    i < n := by
  apply List.mem_range.mp
  rw [h]
  exact List.mem_append_right _ List.mem_cons_self

/-- The loop loads all segments. -/
theorem load_elf_ok (himage : Image cls (file disk) sp)
    (hread : ∀ s ∈ segments cls (file disk), s.Readable sp) (hmem : HeadersIn (file disk) mem) :
    load_elf disk (in_use sp) cls mem =
      .ok (load_all disk (segments cls (file disk)) mem) := by
  have hrun := foldlM_total (f := turn cls disk sp) (l := List.range (cls.e_phnum (file disk) 0))
    (P := fun done now => now = load_all disk (done.map (segment cls (file disk))) mem ∧
      HeadersIn (file disk) now) ?_ (s := mem) ⟨rfl, hmem⟩
  · obtain ⟨mem', hrun, hall, -⟩ := hrun
    rw [load_elf_turns hmem, hrun, hall]
    rfl
  · intro done i rest now hl hdone
    obtain ⟨hall, hnow⟩ := hdone
    have hi := index_lt hl
    have hs := segment_mem hi
    have hturn : turn cls disk sp now i = .ok ((segment cls (file disk) i).loaded disk now) := by
      rw [turn_eq himage hnow hi]
      exact Phdr.load_phdr_ok (himage.sizes _ hs) (himage.away _ hs) (hread _ hs)
    refine ⟨_, hturn, ?_, Phdr.loaded_headers (himage.away _ hs) (hread _ hs) hnow⟩
    rw [List.map_append, hall]
    exact (load_all_concat _ _).symm

/-- If the loop returns, it could read every segment. -/
theorem load_elf_readable (himage : Image cls (file disk) sp)
    (hin : ∀ s ∈ segments cls (file disk), s.paddr + s.memsz ≤ 2 ^ 32)
    (hmem : HeadersIn (file disk) mem) {mem' : Store}
    (hrun : load_elf disk (in_use sp) cls mem = .ok mem') :
    ∀ s ∈ segments cls (file disk), s.Readable sp := by
  rw [load_elf_turns hmem] at hrun
  -- The headers stay readable from turn to turn.
  have hall := foldlM_ok (P := fun done now => HeadersIn (file disk) now ∧
    ∀ i ∈ done, (segment cls (file disk) i).Readable sp) ?_
    ⟨hmem, fun i hi => absurd hi List.not_mem_nil⟩ hrun
  · intro s hs
    obtain ⟨i, hi, rfl⟩ := List.mem_map.mp hs
    exact hall.2 i hi
  · intro done i rest now next hl hdone hturn
    obtain ⟨hnow, hdone⟩ := hdone
    have hi := index_lt hl
    have hs := segment_mem hi
    rw [turn_eq himage hnow hi] at hturn
    -- A segment that cannot be read stops the loader.
    have hread : (segment cls (file disk) i).Readable sp := by
      by_contra hread
      obtain ⟨e, hfail⟩ : ∃ e, load_phdr disk (in_use sp) (segment cls (file disk) i) now =
        .error e :=
        Phdr.load_phdr_fails (himage.sizes _ hs) (himage.away _ hs) (hin _ hs) hread
      rw [hfail] at hturn
      cases hturn
    rw [Phdr.load_phdr_ok (himage.sizes _ hs) (himage.away _ hs) hread] at hturn
    cases hturn
    refine ⟨Phdr.loaded_headers (himage.away _ hs) hread hnow, ?_⟩
    intro j hj
    rcases List.mem_append.mp hj with hj | hj
    · exact hdone j hj
    · rw [List.mem_singleton.mp hj]
      exact hread

end loop

end Am.X86.Boot
