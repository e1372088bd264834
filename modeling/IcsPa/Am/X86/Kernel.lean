import IcsPa.Am.X86.Tables

/-! # The kernel's tables

    What the loops of `vme_init` and `protect` run over, and what `vme_init`
    leaves: tables in which every kernel address is mapped to itself.
    `KernelReady` says so of any memory that agrees with theirs on the pages
    `Kp`, so later calls need only leave these pages alone. -/

open CCall

namespace Am.X86

open Vme

/-! ## Section 1: Kernel addresses -/

/-- The addresses of the kernel areas; an area may end with the address space. -/
def InKernel (arch : Arch) (va : Nat) : Prop :=
  ∃ area ∈ arch.kernel_areas, area.start ≤ va ∧ (va < area.end_ ∨ area.end_ = 0)

/-- The values of `cur` in a loop over all kernel areas. -/
def kernel_addrs (arch : Arch) (step : Nat) : List Nat :=
  (arch.vm_areas.filter (·.kernel)).flatMap fun vma => area_addrs arch step vma.area

/-- The slots of the level-1 table that `protect` copies. -/
def kernel_slots (arch : Arch) : List Nat :=
  (kernel_addrs arch (1 <<< arch.level1.shift)).map fun cur => indexof cur arch.level1

/-- A loop that comes to its end after `n` steps, all below the end of the
    address space. -/
theorem addrs_eq {arch : Arch} {step end_ n fuel cur : Nat} (hn : n ≤ fuel)
    (hcur : cur < arch.wordSize)
    (hbelow : ∀ k < n, cur + k * step < arch.wordSize ∧ cur + k * step ≠ end_)
    (hend : (cur + n * step) % arch.wordSize = end_) :
    addrs arch step end_ fuel cur = (List.range n).map fun k => cur + k * step := by
  induction n generalizing fuel cur with
  | zero =>
    rw [Nat.zero_mul, Nat.add_zero, Nat.mod_eq_of_lt hcur] at hend
    cases fuel with
    | zero => rfl
    | succ fuel => rw [addrs, if_pos hend]; rfl
  | succ n ih =>
    obtain ⟨fuel, rfl⟩ : ∃ m, fuel = m + 1 := ⟨fuel - 1, by omega⟩
    have hfirst := (hbelow 0 (by omega)).2
    rw [Nat.zero_mul, Nat.add_zero] at hfirst
    have hpos : 0 < arch.wordSize := by omega
    -- Only the last sum may wrap around.
    have hnext : ∀ k < n, (cur + step) % arch.wordSize + k * step = cur + (k + 1) * step := by
      intro k hk
      have hlt := (hbelow 1 (by omega)).1
      rw [Nat.one_mul] at hlt
      rw [Nat.mod_eq_of_lt hlt, Nat.succ_mul]
      omega
    rw [addrs, if_neg hfirst, ih (by omega) (Nat.mod_lt _ hpos), List.range_succ_eq_map,
      List.map_cons, List.map_map, Nat.zero_mul, Nat.add_zero]
    · refine congrArg _ (List.map_congr_left fun k hk => ?_)
      exact hnext k (List.mem_range.mp hk)
    · intro k hk
      rw [hnext k hk]
      exact hbelow (k + 1) (by omega)
    · rw [Nat.mod_add_mod, ← hend, Nat.succ_mul]
      congr 1
      omega

theorem mem_range_map {n start step x : Nat} :
    x ∈ (List.range n).map (fun k => start + k * step) ↔ ∃ k < n, x = start + k * step := by
  simp only [List.mem_map, List.mem_range]
  exact exists_congr fun k => and_congr_right fun _ => eq_comm

/-- The pages that `vme_init` maps. -/
theorem mem_kernel_pages (cur : Nat) : cur ∈ kernel_addrs .i386 pgsize ↔
    cur % pgsize = 0 ∧ cur < Arch.i386.virtSize ∧ InKernel .i386 cur := by
  have hlow : area_addrs .i386 4096 ⟨0x00000000, 0x40000000⟩ =
      (List.range 0x40000).map fun k => 0x00000000 + k * 4096 :=
    addrs_eq (by decide) (by decide) (fun k hk =>
      ⟨show 0 + k * 4096 < 0x100000000 by omega,
        show 0 + k * 4096 ≠ 0x40000000 by omega⟩) (by decide)
  have hhigh : area_addrs .i386 4096 ⟨0xfd000000, 0x00000000⟩ =
      (List.range 0x3000).map fun k => 0xfd000000 + k * 4096 :=
    addrs_eq (by decide) (by decide) (fun k hk =>
      ⟨show 0xfd000000 + k * 4096 < 0x100000000 by omega,
        show 0xfd000000 + k * 4096 ≠ 0 by omega⟩) (by decide)
  have hall : kernel_addrs .i386 pgsize = area_addrs .i386 4096 ⟨0x00000000, 0x40000000⟩ ++
      (area_addrs .i386 4096 ⟨0xfd000000, 0x00000000⟩ ++ []) := rfl
  rw [hall, hlow, hhigh, List.append_nil, List.mem_append, mem_range_map, mem_range_map]
  unfold InKernel pgsize
  simp only [Arch.kernel_areas, Arch.virtSize, List.mem_cons, List.not_mem_nil, or_false,
    exists_eq_or_imp, exists_eq_left, or_true, and_true]
  constructor
  · rintro (⟨k, hk, rfl⟩ | ⟨k, hk, rfl⟩) <;> omega
  · rintro ⟨halign, hlt, h | h⟩
    · exact Or.inl ⟨cur / 4096, by omega, by omega⟩
    · exact Or.inr ⟨(cur - 0xfd000000) / 4096, by omega, by omega⟩

theorem mem_kernel_slots_i386 (i : Nat) :
    i ∈ kernel_slots .i386 ↔ i < 256 ∨ (1012 ≤ i ∧ i < 1024) := by
  have hlow : area_addrs .i386 0x400000 ⟨0x00000000, 0x40000000⟩ =
      (List.range 256).map fun k => 0x00000000 + k * 0x400000 :=
    addrs_eq (by decide) (by decide) (fun k hk =>
      ⟨show 0 + k * 0x400000 < 0x100000000 by omega,
        show 0 + k * 0x400000 ≠ 0x40000000 by omega⟩) (by decide)
  have hhigh : area_addrs .i386 0x400000 ⟨0xfd000000, 0x00000000⟩ =
      (List.range 12).map fun k => 0xfd000000 + k * 0x400000 :=
    addrs_eq (by decide) (by decide) (fun k hk =>
      ⟨show 0xfd000000 + k * 0x400000 < 0x100000000 by omega,
        show 0xfd000000 + k * 0x400000 ≠ 0 by omega⟩) (by decide)
  have hall : kernel_addrs .i386 (1 <<< Arch.i386.level1.shift) =
      area_addrs .i386 0x400000 ⟨0x00000000, 0x40000000⟩ ++
        (area_addrs .i386 0x400000 ⟨0xfd000000, 0x00000000⟩ ++ []) := rfl
  have hindex : ∀ va, indexof va Arch.i386.level1 = va / 0x400000 % 1024 :=
    fun va => indexof_eq (l := ⟨22, 10, true⟩) ⟨rfl, rfl⟩ va
  unfold kernel_slots
  rw [hall, hlow, hhigh, List.append_nil, List.mem_map]
  simp only [List.mem_append, mem_range_map, hindex]
  constructor
  · rintro ⟨x, ⟨k, hk, rfl⟩ | ⟨k, hk, rfl⟩, rfl⟩ <;> omega
  · rintro (h | h)
    · exact ⟨0 + i * 0x400000, Or.inl ⟨i, h, rfl⟩, by omega⟩
    · exact ⟨0xfd000000 + (i - 1012) * 0x400000, Or.inr ⟨i - 1012, by omega, rfl⟩, by omega⟩

theorem mem_kernel_slots_x86_64 (i : Nat) : i ∈ kernel_slots .x86_64 ↔ i = 0 := by
  have hlow : area_addrs .x86_64 0x8000000000 ⟨0x000000000000, 0x008000000000⟩ =
      (List.range 1).map fun k => 0x000000000000 + k * 0x8000000000 :=
    addrs_eq (by decide) (by decide) (fun k hk =>
      ⟨show 0 + k * 0x8000000000 < 0x10000000000000000 by omega,
        show 0 + k * 0x8000000000 ≠ 0x8000000000 by omega⟩) (by decide)
  have hall : kernel_addrs .x86_64 (1 <<< Arch.x86_64.level1.shift) =
      area_addrs .x86_64 0x8000000000 ⟨0x000000000000, 0x008000000000⟩ ++ [] := rfl
  unfold kernel_slots
  rw [hall, hlow]
  simp [indexof]

/-- The kernel's addresses are those behind the kernel's slots. -/
theorem head_slot_iff {arch : Arch} {va i : Nat} (hva : va < arch.virtSize)
    (hi : (digits arch va).head? = some i) : i ∈ kernel_slots arch ↔ InKernel arch va := by
  unfold InKernel
  cases arch with
  | i386 =>
    have hi' : va / 0x400000 % 1024 = i := Option.some.inj hi
    have hva' : va < 0x100000000 := hva
    rw [mem_kernel_slots_i386]
    simp only [Arch.kernel_areas, List.mem_cons, List.not_mem_nil, or_false, exists_eq_or_imp,
      exists_eq_left, or_true, and_true]
    omega
  | x86_64 =>
    have hi' : va / 0x8000000000 % 512 = i := Option.some.inj hi
    have hva' : va < 0x1000000000000 := hva
    rw [mem_kernel_slots_x86_64]
    simp only [Arch.kernel_areas, List.mem_cons, List.not_mem_nil, or_false, exists_eq_left]
    omega

/-- User addresses are translated and are not the kernel's. -/
theorem user_not_kernel {arch : Arch} {va : Nat} (h : arch.uvm_area.IN_RANGE va = true) :
    va < arch.virtSize ∧ ¬ InKernel arch va := by
  unfold Area.IN_RANGE at h
  unfold InKernel
  rw [Bool.and_eq_true, decide_eq_true_eq, decide_eq_true_eq] at h
  cases arch with
  | i386 =>
    simp only [Arch.uvm_area, Arch.virtSize, Arch.kernel_areas, List.mem_cons, List.not_mem_nil,
      or_false, exists_eq_or_imp, exists_eq_left, or_true, and_true] at *
    omega
  | x86_64 =>
    simp only [Arch.uvm_area, Arch.virtSize, Arch.kernel_areas, List.mem_cons, List.not_mem_nil,
      or_false, exists_eq_left] at *
    omega

/-! ## Section 2: `vme_init` -/

/-- The flags of entries that lead to tables: of the kernel and of user pages. -/
def kernelFlags : Nat := PTE_P ||| PTE_W

def userFlags : Nat := PTE_P ||| (PTE_W ||| PTE_U)

section kernel
variable {A : Type} {arch : Arch}

/-- The memory agrees with that of `s` on the pages `Kp`. -/
def Agrees (arch : Arch) (Kp : List Nat) (s : Vme A) (mem : Nat → Nat) : Prop :=
  ∀ k ∈ Kp, ∀ i < arch.entries, mem (cell arch k i) = s.mem (cell arch k i)

/-- What `vme_init` leaves: no address space, and the kernel's tables in the
    pages `Kp`, through which the processor maps each kernel address to
    itself, for writing but not for users.  The tables below `kpt` are not for
    users either (`super`), and are in `Kp` (`below`). -/
structure KernelReady (arch : Arch) (Kp : List Nat) (s : Vme A) : Prop where
  inv   : TablesInv arch (kernel_slots arch) userFlags Kp s
  unset : ∀ r, s.ptr r = none
  kpt   : s.kpt ∈ Kp ∧ PageOk arch s.kpt
  super : ∀ i ∈ kernel_slots arch, present (s.mem (cell arch s.kpt i)) →
    s.mem (cell arch s.kpt i) &&& PTE_U = 0
  below : ∀ i ∈ kernel_slots arch, ∀ x, s.child arch s.kpt i = some x → x ∈ Kp
  walk  : ∀ mem, Agrees arch Kp s mem → ∀ va < arch.virtSize, InKernel arch va →
    walkLevels arch mem va arch.hwLevels s.kpt true true = some ⟨va, true, false⟩

/-- Without roots there are no tables. -/
theorem inv_of_no_roots {K Kp : List Nat} {fl : Nat} {s : Vme A} (h : ∀ r, s.root arch r = none)
    (hpages : ∀ p ∈ s.pages, PageOk arch p) (hdistinct : s.pages.Nodup)
    (hkernel : ∀ k ∈ Kp, k % pgsize = 0 ∧ (k ∈ s.pages ∨ k ∈ boot_pages arch)) :
    TablesInv arch K fl Kp s := by
  have hnone : ∀ r path, s.table arch r path = none := fun r => table_none (h r)
  refine ⟨?_, ?_, ?_, hpages, hdistinct, hkernel⟩
  · intro r _ path _ x _ _ hx
    have hx' := (hnone r path).symm.trans hx
    cases hx'
  · intro r path x _ hx
    rw [hnone] at hx
    cases hx
  · intro r path i x _ hx
    rw [hnone] at hx
    cases hx

/-- A walk through owned tables only reads their pages. -/
theorem walkLevels_agrees {fl : Nat} {s : Vme A} {mem : Nat → Nat} {r : Option A} {va : Nat}
    (hfl : fl < pgsize) (hinv : TablesInv arch [] fl [] s) (hmem : Agrees arch s.pages s mem)
    {ls : List HwLevel} {l : HwLevel} {path : List Nat} {p : Nat} (w u : Bool)
    (hp : s.table arch r path = some p) (hlast : Last arch [] (path ++ ls.map fun l => l.index va))
    (hl : l.index va < arch.entries) :
    walkLevels arch mem va (ls ++ [l]) p w u = walkLevels arch s.mem va (ls ++ [l]) p w u := by
  induction ls generalizing path p w u with
  | nil =>
    have hown : Own arch [] path := by simpa using hlast.1
    have hsame := hmem p (hinv.tables r path p hown hp).1 (l.index va) hl
    simp only [List.nil_append, walkLevels, hsame]
  | cons l' ls ih =>
    have hfront : path ++ (l' :: ls).map (fun l => l.index va) =
        (path ++ [l'.index va]) ++ ls.map fun l => l.index va := by simp
    rw [hfront] at hlast
    have hown : Own arch [] (path ++ [l'.index va]) := own_of_append hlast.1
    have hpath := own_front path _ hown
    have hsame := hmem p (hinv.tables r path p hpath hp).1 (l'.index va) (own_last hown)
    simp only [List.cons_append, walkLevels, hsame]
    cases hpres : present (s.mem (cell arch p (l'.index va))) with
    | false => rfl
    | true =>
      obtain ⟨q, hq, heq⟩ := hinv.interior r path (l'.index va) p hown hp hpres
      have hnext : s.table arch r (path ++ [l'.index va]) = some q := by
        rw [table_snoc hp (l'.index va)]
        unfold next_table
        rw [if_pos hpres, heq, baseof_add hq hfl]
      rw [heq, frame_add hq hfl, ih _ _ hnext hlast]

variable [DecidableEq A]

/-! ### The loops on i386 -/

/-- The invariant of the loops of `vme_init`: the pages `done` are mapped to
    themselves, and no other. -/
structure BootInv (done : List Nat) (s : Vme A) : Prop where
  inv     : TablesInv .i386 [] kernelFlags [] s
  unset   : ∀ r, r ≠ none → s.ptr r = none
  entries : ∀ cur < Arch.i386.virtSize, cur % pgsize = 0 →
    s.entry .i386 none (front .i386 cur) (lastIndex .i386 cur) =
      if cur ∈ done then cur + kernelFlags else 0

theorem front_last_nil (arch : Arch) (va : Nat) : Last arch [] (front arch va) :=
  front_last (by simp)

/-- Step lemma of the loops. -/
theorem map_kernel_inv {pgalloc : List Nat → Nat} (hok : PgallocOk .i386 pgalloc)
    {done : List Nat} {cur : Nat} {s s' : Vme A} (hcur : cur < Arch.i386.virtSize)
    (halign : cur % pgsize = 0) (hs : BootInv done s)
    (h : map_kernel .i386 pgalloc s cur = .ok s') : BootInv (done ++ [cur]) s' := by
  obtain ⟨⟨ptentry, s₁⟩, hwalk, h⟩ := bind_eq_ok h
  obtain ⟨hinv₁, hgrow, -, pt, hpt, rfl⟩ :=
    ptwalk_spec hok (by decide) (by decide) hs.inv (front_last_nil _ cur) hwalk
  obtain rfl : s₁.write (cur ||| PTE_P ||| PTE_W) (.mem (cell .i386 pt (lastIndex .i386 cur))) =
    s' :=
    Except.ok.inj h
  have hentry : cur ||| PTE_P ||| PTE_W = cur + kernelFlags := by
    rw [Nat.or_assoc, or_flags halign (by decide)]
    rfl
  rw [hentry]
  obtain ⟨hinv', hkeep, -, hentries⟩ :=
    write_entry (v := cur + kernelFlags) hinv₁ (front_last_nil _ cur) hpt (lastIndex_lt _ cur)
  refine ⟨hinv', fun r hr => ?_, fun cur' hcur' halign' => ?_⟩
  · have hnone := hs.unset r hr
    rw [hkeep.ptrs r (Or.inl ?_)]
    · rw [hgrow.ptrs r (Or.inl hnone), hnone]
    · rw [hgrow.ptrs r (Or.inl hnone), hnone]
  · rw [hentries _ _ _ (front_last_nil _ cur') (lastIndex_lt _ cur'),
      hgrow.entries _ _ _ (front_last_nil _ cur') (lastIndex_lt _ cur'),
      hs.entries cur' hcur' halign']
    -- The entry belongs to one page only.
    by_cases heq : cur' = cur
    · subst heq
      simp
    · have hne : ¬ (front .i386 cur' = front .i386 cur ∧
          lastIndex .i386 cur' = lastIndex .i386 cur) := by
        rintro ⟨hfront, hindex⟩
        have hdigits : digits .i386 cur' = digits .i386 cur := by
          rw [digits_eq, digits_eq, hfront, hindex]
        have hpage := digits_inj hcur' hcur hdigits
        unfold pgsize at *
        omega
      simp [hne, heq]

/-- What the loops leave. -/
theorem boot_loops_inv {pgalloc : List Nat → Nat} (hok : PgallocOk .i386 pgalloc) {s s' : Vme A}
    (hs : BootInv [] s)
    (h : (Arch.i386.vm_areas.filter (·.kernel)).foldlM (fun s vma =>
      (area_addrs .i386 pgsize vma.area).foldlM (map_kernel .i386 pgalloc) s) s = .ok s') :
    BootInv (kernel_addrs .i386 pgsize) s' := by
  refine foldlM_ok (P := fun vmas s =>
    BootInv (vmas.flatMap fun vma => area_addrs .i386 pgsize vma.area) s) ?_ hs h
  intro doneAreas vma restAreas s₁ s₂ hareas hs₁ hrun
  have hinner := foldlM_ok (P := fun done s =>
    BootInv ((doneAreas.flatMap fun vma => area_addrs .i386 pgsize vma.area) ++ done) s)
    (l := area_addrs .i386 pgsize vma.area) ?_ (by simpa using hs₁) hrun
  · simpa [List.flatMap_append] using hinner
  · intro done cur rest s₃ s₄ hl hs₃ hcur
    have hmem : cur ∈ kernel_addrs .i386 pgsize := by
      unfold kernel_addrs
      refine List.mem_flatMap.mpr ⟨vma, by rw [hareas]; simp, by rw [hl]; simp⟩
    obtain ⟨halign, hlt, -⟩ := (mem_kernel_pages cur).mp hmem
    have hnext := map_kernel_inv hok hlt halign hs₃ hcur
    rwa [List.append_assoc] at hnext

/-- The leaf of a page that is mapped to itself. -/
theorem leaf_identity {va cur : Nat} (hva : va < Arch.i386.virtSize)
    (hcur : va / pgsize * pgsize = cur) :
    leaf .i386 va (cur + kernelFlags) true false = some ⟨va, true, false⟩ := by
  have hva' : va < 0x100000000 := hva
  have hpage : PageOk .i386 cur := by
    unfold PageOk pgsize at *
    rw [show Arch.i386.physSize = 0x100000000 from rfl]
    omega
  have hpresent : present (cur + kernelFlags) = true := by
    unfold present
    rw [add_and_flags hpage.1 (by decide) (by decide)]
    decide
  unfold leaf
  rw [if_pos hpresent, frame_add hpage (by decide), add_and_flags hpage.1 (by decide) (by decide)]
  have hsum : cur + va % pgsize = va := by
    unfold pgsize at *
    omega
  rw [hsum]
  simp [kernelFlags, PTE_P, PTE_W]

/-- Before the loops the kernel has no table. -/
theorem boot_start (mem : Nat → Nat) : BootInv [] ((boot mem : Vme A).write 0 (.ptr none)) := by
  have hroots : ∀ r, ((boot mem : Vme A).write 0 (.ptr none)).root .i386 r = none := by
    intro r
    unfold Vme.root Vme.write boot
    by_cases hr : r = none
    · subst hr
      simp [next_table_zero]
    · simp [Function.update_of_ne hr]
  refine ⟨inv_of_no_roots hroots (by simp [boot, Vme.write]) List.nodup_nil (by simp),
    fun r hr => ?_, fun cur _ _ => ?_⟩
  · simp [boot, Vme.write, Function.update_of_ne hr]
  · unfold Vme.entry
    rw [table_none (hroots none)]
    simp

section kernel
variable {s : Vme A} {ptr : Nat}

omit [DecidableEq A] in
/-- The kernel has pages, so it has a root. -/
theorem boot_root (hs : BootInv (kernel_addrs .i386 pgsize) s) (hptr : s.ptr none = some ptr) :
    s.table .i386 none [] = some (baseof .i386 ptr) := by
  have hzero : s.entry .i386 none (front .i386 0) (lastIndex .i386 0) = kernelFlags := by
    rw [hs.entries 0 (by decide) (by decide), if_pos, Nat.zero_add]
    refine (mem_kernel_pages 0).mpr ⟨by decide, by decide, ⟨_, List.mem_cons_self, ?_⟩⟩
    exact ⟨Nat.le_refl 0, Or.inl (by decide)⟩
  cases hpres : present ptr with
  | true =>
    rw [table_nil]
    unfold Vme.root
    rw [hptr]
    show next_table .i386 ptr = _
    unfold next_table
    rw [if_pos hpres]
  | false =>
    unfold Vme.entry at hzero
    rw [table_none (root_none hptr hpres)] at hzero
    cases hzero

omit [DecidableEq A] in
/-- The kernel's tables map each address of its areas to itself. -/
theorem kernel_walk_i386 (hs : BootInv (kernel_addrs .i386 pgsize) s)
    (hroot : s.table .i386 none [] = some (baseof .i386 ptr)) {mem : Nat → Nat}
    (hagrees : Agrees .i386 s.pages s mem) {va : Nat} (hva : va < Arch.i386.virtSize)
    (hkernel : InKernel .i386 va) :
    walkLevels .i386 mem va Arch.i386.hwLevels (baseof .i386 ptr) true true =
      some ⟨va, true, false⟩ := by
  have hlast : Last .i386 [] ([] ++ [(⟨22, 10, true⟩ : HwLevel)].map fun l => l.index va) :=
    front_last_nil .i386 va
  have hidx : HwLevel.index ⟨12, 10, false⟩ va < Arch.i386.entries := lastIndex_lt .i386 va
  have hreads : walkLevels .i386 mem va Arch.i386.hwLevels (baseof .i386 ptr) true true =
      walkLevels .i386 s.mem va Arch.i386.hwLevels (baseof .i386 ptr) true true :=
    walkLevels_agrees (by decide) hs.inv hagrees true true hroot hlast hidx
  have hwalk : walkLevels .i386 s.mem va Arch.i386.hwLevels (baseof .i386 ptr) true true =
      leaf .i386 va (s.entry .i386 none (front .i386 va) (lastIndex .i386 va)) true false :=
    walkLevels_eq (by decide) (by decide) hs.inv true true rfl hroot hlast
  rw [hreads, hwalk]
  -- The entry is that of the page.
  have hpath := digits_page .i386 va
  have hfront : front .i386 (va / pgsize * pgsize) = front .i386 va :=
    congrArg List.dropLast hpath
  have hlastIndex : lastIndex .i386 (va / pgsize * pgsize) = lastIndex .i386 va :=
    congrArg (fun l => l.getLastD 0) hpath
  have hin : va / pgsize * pgsize ∈ kernel_addrs .i386 pgsize := by
    refine (mem_kernel_pages _).mpr ⟨Nat.mul_mod_left _ _, ?_, ?_⟩
    · exact Nat.lt_of_le_of_lt (Nat.div_mul_le_self va pgsize) hva
    · unfold InKernel pgsize at *
      simp only [Arch.kernel_areas, List.mem_cons, List.not_mem_nil, or_false, exists_eq_or_imp,
        exists_eq_left, or_true, and_true] at *
      omega
  have hentry := hs.entries _ ((mem_kernel_pages _).mp hin).2.1 ((mem_kernel_pages _).mp hin).1
  rw [if_pos hin, hfront, hlastIndex] at hentry
  rw [hentry]
  exact leaf_identity hva rfl

end kernel

/-- `vme_init` on i386. -/
theorem vme_init_i386 {pgalloc : List Nat → Nat} (hok : PgallocOk .i386 pgalloc)
    {mem : Nat → Nat} {s₀ : Vme A} (h : vme_init .i386 pgalloc (boot mem) = .ok s₀) :
    KernelReady .i386 s₀.pages s₀ := by
  obtain ⟨s, hloops, h⟩ := bind_eq_ok h
  obtain ⟨ptr, hread, h⟩ := bind_eq_ok h
  have hptr := read_ptr hread
  cases h
  have hs := boot_loops_inv hok (boot_start mem) hloops
  have hroot := boot_root hs hptr
  have hmem := (hs.inv.tables none [] _ (own_nil _ _) hroot).1
  have hown : ∀ i ∈ kernel_slots .i386, Own .i386 [] ([] ++ [i]) := by
    intro i hi
    have hlt : i < Arch.i386.entries := by
      rcases (mem_kernel_slots_i386 i).mp hi with h | h
      · exact show i < 1024 by omega
      · exact h.2
    exact ⟨show 1 < 2 by omega, by simpa using hlt, by simp⟩
  refine ⟨inv_of_no_roots (fun r => ?_) hs.inv.pages hs.inv.distinct fun k hk =>
    ⟨(hs.inv.pages k hk).1, Or.inl hk⟩, fun r => ?_, ⟨hmem, hs.inv.pages _ hmem⟩,
    fun i hi hpresent => ?_, fun i hi x hx => ?_, fun mem' hagrees va hva hkernel => ?_⟩
  · unfold Vme.root
    by_cases hr : r = none
    · subst hr
      simp
    · simp [Function.update_of_ne hr, hs.unset r hr]
  · by_cases hr : r = none
    · subst hr
      simp
    · simp [Function.update_of_ne hr, hs.unset r hr]
  · obtain ⟨q, hq, heq⟩ := hs.inv.interior none [] i _ (hown i hi) hroot hpresent
    rw [heq, add_and_flags hq.1 (by decide) (by decide)]
    rfl
  · have htable : s.table .i386 none ([] ++ [i]) = some x := (table_snoc hroot i).trans hx
    exact (hs.inv.tables none _ x (hown i hi) htable).1
  · exact kernel_walk_i386 hs hroot hagrees hva hkernel

/-- `vme_init` on x86-64: the tables are those of `start64.S`. -/
theorem vme_init_x86_64 {pgalloc : List Nat → Nat} {mem : Nat → Nat} {s₀ : Vme A}
    (hmem : Booted .x86_64 mem) (h : vme_init .x86_64 pgalloc (boot mem) = .ok s₀) :
    KernelReady .x86_64 (boot_pages .x86_64) s₀ := by
  obtain ⟨hpml4, hpdpt⟩ := hmem
  cases h
  refine ⟨inv_of_no_roots (fun _ => rfl) (fun _ hp => absurd hp List.not_mem_nil) List.nodup_nil
    fun k hk => ⟨?_, Or.inr hk⟩, fun _ => rfl, ⟨List.mem_cons_self,
      show PageOk .x86_64 PML4_ADDR from ⟨by decide, by decide⟩⟩, fun i hi _ => ?_,
    fun i hi x hx => ?_, fun mem' hagrees va hva hin => ?_⟩
  -- The two tables of `start.S` are the kernel's pages.
  · rcases List.mem_cons.mp hk with rfl | hk
    · rfl
    · rw [List.mem_singleton.mp hk]
      rfl
  · rw [(mem_kernel_slots_x86_64 i).mp hi]
    show mem (cell .x86_64 PML4_ADDR 0) &&& PTE_U = 0
    rw [hpml4]
    rfl
  · rw [(mem_kernel_slots_x86_64 i).mp hi] at hx
    have hnext : next_table .x86_64 (mem (cell .x86_64 PML4_ADDR 0)) = some x := hx
    rw [hpml4] at hnext
    obtain rfl : PDPT_ADDR = x := Option.some.inj hnext
    exact List.mem_cons_of_mem _ List.mem_cons_self
  -- The kernel's area lies below the first entry of the top table.
  have hva' : va < 0x8000000000 := by
    unfold InKernel at hin
    simp only [Arch.kernel_areas, List.mem_cons, List.not_mem_nil, or_false, exists_eq_left] at hin
    omega
  have hidx : HwLevel.index ⟨39, 9, false⟩ va = 0 := by
    unfold HwLevel.index
    norm_num
    omega
  let i := HwLevel.index ⟨30, 9, true⟩ va
  have hi : i = va / 0x40000000 := by
    show va / 2 ^ 30 % 2 ^ 9 = _
    norm_num
    omega
  have hlt : i < 512 := by omega
  -- The walk: the one entry of the top table, and a page of 1 GiB below it.
  have hentry₁ : mem' (cell .x86_64 PML4_ADDR 0) = PDPT_ADDR + kernelFlags :=
    (hagrees PML4_ADDR (by decide) 0 (by decide)).trans hpml4
  have hentry₂ : mem' (cell .x86_64 PDPT_ADDR i) = i * 0x40000000 + (kernelFlags ||| PTE_PS) := by
    have hread : mem' (cell .x86_64 PDPT_ADDR i) = i <<< 30 ||| (PTE_P ||| PTE_W ||| PTE_PS) :=
      (hagrees PDPT_ADDR (by decide) i hlt).trans (hpdpt i hlt)
    rw [hread, Nat.shiftLeft_eq]
    refine or_flags ?_ (by decide)
    unfold pgsize
    norm_num
    omega
  have hpage : PageOk .x86_64 (i * 0x40000000) := by
    unfold PageOk pgsize
    rw [show Arch.x86_64.physSize = 0x10000000000000 from rfl]
    omega
  have hflag : ∀ m < pgsize, (i * 0x40000000 + (kernelFlags ||| PTE_PS)) &&& m =
      (kernelFlags ||| PTE_PS) &&& m := fun m hm => add_and_flags hpage.1 (by decide) hm
  show walkLevels .x86_64 mem' va (⟨39, 9, false⟩ :: ⟨30, 9, true⟩ :: _) PML4_ADDR true true = _
  rw [walkLevels, hidx, hentry₁]
  show walkLevels .x86_64 mem' va (⟨30, 9, true⟩ :: _) PDPT_ADDR true false = _
  rw [walkLevels, show HwLevel.index ⟨30, 9, true⟩ va = i from rfl, hentry₂]
  unfold present
  rw [hflag PTE_P (by decide), hflag PTE_W (by decide), hflag PTE_PS (by decide),
    frame_add hpage (by decide), show (kernelFlags ||| PTE_PS) &&& PTE_P = 1 by decide,
    show (kernelFlags ||| PTE_PS) &&& PTE_W = 2 by decide,
    show (kernelFlags ||| PTE_PS) &&& PTE_PS = 128 by decide]
  have hpa : i * 0x40000000 / 2 ^ 30 * 2 ^ 30 + va % 2 ^ 30 = va := by
    norm_num
    omega
  rw [hpa]
  simp

/-- The pages of the kernel's tables: those that `start64.S` has built, and
    those that `vme_init` has allocated. -/
def kernel_pages (arch : Arch) (s₀ : Vme A) : List Nat := s₀.pages ++ boot_pages arch

/-- What `vme_init` leaves. -/
theorem vme_init_ready {pgalloc : List Nat → Nat} {mem : Nat → Nat} {s₀ : Vme A}
    (hok : PgallocOk arch pgalloc) (hmem : Booted arch mem)
    (h : vme_init arch pgalloc (boot mem) = .ok s₀) :
    KernelReady arch (kernel_pages arch s₀) s₀ := by
  unfold kernel_pages
  cases arch with
  | i386 =>
    rw [show boot_pages .i386 = [] from rfl, List.append_nil]
    exact vme_init_i386 hok h
  | x86_64 =>
    have hready := vme_init_x86_64 hmem h
    cases h
    exact hready

end kernel

end Am.X86
