import IcsPa.Am.X86.Kernel

/-! # The page tables refine the address spaces

    `Sim` relates the machine of page tables to the address spaces of the
    interface: each space has a root of its own, which shares the kernel's
    slots, and the last-level entries are the pages of the space.  Every call
    keeps it, and the walk of the processor reads it off. -/

open CCall

namespace Am.X86

open Vme

section refinement
variable {A : Type} {arch : Arch} {pgalloc : List Nat → Nat} {K Kp : List Nat}
variable {s s' s₀ : Vme A} {m : Spaces A}

/-! ## Section 1: The simulation -/

/-- The flags of `as->ptr`. -/
def ptrFlags : Nat := PTE_P ||| PTE_U

theorem kernel_slots_lt {i : Nat} (h : i ∈ kernel_slots arch) : i < arch.entries := by
  cases arch with
  | i386 =>
    have hi := (mem_kernel_slots_i386 i).mp h
    exact show i < 1024 by omega
  | x86_64 =>
    rw [(mem_kernel_slots_x86_64 i).mp h]
    decide

/-- The last-level entry of a page of an address space. -/
def encode : Option (Nat × Nat) → Nat
  | some (pa, prot) => user_entry pa prot
  | none => 0

/-- The tables in `s` are those of the address spaces `m`; `s₀` is the state
    that `vme_init` left. -/
structure Sim (arch : Arch) (Kp : List Nat) (s₀ s : Vme A) (m : Spaces A) : Prop where
  inv     : TablesInv arch (kernel_slots arch) userFlags Kp s
  kpt     : s.kpt = s₀.kpt
  frozen  : Agrees arch Kp s₀ s.mem
  unset   : ∀ as, m as = none → s.ptr (some as) = none
  root    : ∀ as pages, m as = some pages → ∃ upt, s.ptr (some as) = some (upt + ptrFlags) ∧
    PageOk arch upt ∧ ∀ i ∈ kernel_slots arch,
      s.mem (cell arch upt i) = s₀.mem (cell arch s₀.kpt i)
  entries : ∀ as pages, m as = some pages → ∀ va < arch.virtSize, va % pgsize = 0 →
    ¬ InKernel arch va → s.entry arch (some as) (front arch va) (lastIndex arch va) =
      encode (pages va)
  mapped  : ∀ as pages va pa prot, m as = some pages → pages va = some (pa, prot) →
    PageOk arch pa

theorem user_last {va : Nat} (hva : va < arch.virtSize) (hkernel : ¬ InKernel arch va) :
    Last arch (kernel_slots arch) (front arch va) :=
  front_last fun _ hi hslot => hkernel ((head_slot_iff hva hi).mp hslot)

/-- `vme_init` leaves no address space. -/
theorem Sim.init (h : KernelReady arch Kp s₀) : Sim arch Kp s₀ s₀ fun _ => none :=
  ⟨h.inv, rfl, fun _ _ _ _ => rfl, fun as _ => h.unset (some as), nofun, nofun, nofun⟩

/-- Where `as->ptr` leads. -/
theorem Sim.upt (h : Sim arch Kp s₀ s m) {as : A} {pages : Pages} (hm : m as = some pages) :
    ∃ upt, s.ptr (some as) = some (upt + ptrFlags) ∧ s.root arch (some as) = some upt ∧
      PageOk arch upt ∧ ∀ i ∈ kernel_slots arch,
        s.mem (cell arch upt i) = s₀.mem (cell arch s₀.kpt i) := by
  obtain ⟨upt, hptr, hpage, hslots⟩ := h.root as pages hm
  refine ⟨upt, hptr, ?_, hpage, hslots⟩
  unfold Vme.root
  rw [hptr]
  exact next_table_add hpage (by decide) (by decide)

/-! ## Section 2: The walk of the processor -/

/-- What an address space with these pages translates an address to. -/
def translation (pages : Pages) (va : Nat) : Option Translation :=
  (pages (va / pgsize * pgsize)).map fun page =>
    ⟨page.1 + va % pgsize, page.2 &&& MMAP_WRITE != 0, true⟩

/-- A leaf that `map` has written. -/
theorem leaf_encode {page : Option (Nat × Nat)} (hpage : ∀ pa prot, page = some (pa, prot) →
    PageOk arch pa) (va : Nat) : leaf arch va (encode page) true true =
      page.map fun page => ⟨page.1 + va % pgsize, page.2 &&& MMAP_WRITE != 0, true⟩ := by
  cases page with
  | none => rfl
  | some page =>
    obtain ⟨pa, prot⟩ := page
    have hpa := hpage pa prot rfl
    -- The entry is the page and one of two sets of flags.
    obtain ⟨fl, hfl, heq, hw, hu, hp⟩ : ∃ fl < pgsize, user_entry pa prot = pa + fl ∧
        (fl &&& PTE_W != 0) = (prot &&& MMAP_WRITE != 0) ∧ (fl &&& PTE_U != 0) = true ∧
        present fl = true := by
      unfold user_entry
      by_cases hwrite : prot &&& MMAP_WRITE ≠ 0
      · refine ⟨PTE_P ||| PTE_U ||| PTE_W, by decide, ?_, ?_, rfl, rfl⟩
        · rw [if_pos hwrite, ← or_flags hpa.1 (by decide), Nat.or_assoc, Nat.or_assoc, Nat.or_assoc]
        · rw [bne_iff_ne.mpr hwrite]
          rfl
      · refine ⟨PTE_P ||| PTE_U, by decide, ?_, ?_, rfl, rfl⟩
        · rw [if_neg hwrite, Nat.or_zero, ← or_flags hpa.1 (by decide), Nat.or_assoc]
        · rw [Decidable.not_not.mp hwrite]
          rfl
    have hpresent : present (pa + fl) = true := by
      unfold present at hp ⊢
      rw [add_and_flags hpa.1 hfl (by decide)]
      exact hp
    show leaf arch va (user_entry pa prot) true true = _
    unfold leaf
    rw [heq, if_pos hpresent, frame_add hpa hfl, add_and_flags hpa.1 hfl (by decide),
      add_and_flags hpa.1 hfl (by decide), hw, hu]
    rfl

/-- The last level is not large. -/
theorem hwLevels_eq (arch : Arch) : ∃ ls l, arch.hwLevels = ls ++ [l] ∧ l.large = false ∧
    ls.isEmpty = false := by
  cases arch with
  | i386 => exact ⟨[_], _, rfl, rfl, rfl⟩
  | x86_64 => exact ⟨[_, _, _], _, rfl, rfl, rfl⟩

/-- Outside the kernel areas the walk reads the pages of the address space. -/
theorem Sim.user_walk (h : Sim arch Kp s₀ s m) {as : A} {pages : Pages} (hm : m as = some pages)
    {cr3 va : Nat} (hptr : s.ptr (some as) = some cr3) (hva : va < arch.virtSize)
    (hkernel : ¬ InKernel arch va) : hwWalk arch s.mem cr3 va = translation pages va := by
  obtain ⟨upt, hptr', hroot, hpage, -⟩ := h.upt hm
  obtain rfl : upt + ptrFlags = cr3 := Option.some.inj (hptr'.symm.trans hptr)
  obtain ⟨ls, l, hlevels, hlarge, hne⟩ := hwLevels_eq arch
  have hdigits : digits arch va = (ls.map fun l => l.index va) ++ [l.index va] := by
    unfold digits
    rw [hlevels, List.map_append]
    rfl
  have hfront : (ls.map fun l => l.index va) = front arch va := by
    unfold front
    rw [hdigits, List.dropLast_concat]
  have hindex : l.index va = lastIndex arch va := by
    unfold lastIndex
    rw [hdigits]
    simp
  have hlast := user_last hva hkernel
  have hroot' : s.table arch (some as) [] = some upt := (table_nil s (some as)).trans hroot
  have hlast' : Last arch (kernel_slots arch) ([] ++ ls.map fun l => l.index va) := by
    rw [List.nil_append, hfront]
    exact hlast
  have hwalk := walkLevels_eq (by decide) (by decide) h.inv true true hlarge hroot' hlast'
  unfold hwWalk
  rw [frame_add hpage (by decide), hlevels, hwalk, hne, List.nil_append, hfront, hindex]
  -- The entry is that of the page.
  have hpath := digits_page arch va
  have hfront' : front arch (va / pgsize * pgsize) = front arch va := congrArg List.dropLast hpath
  have hindex' : lastIndex arch (va / pgsize * pgsize) = lastIndex arch va :=
    congrArg (fun l => l.getLastD 0) hpath
  have hva' : va / pgsize * pgsize < arch.virtSize :=
    Nat.lt_of_le_of_lt (Nat.div_mul_le_self va pgsize) hva
  have hkernel' : ¬ InKernel arch (va / pgsize * pgsize) := by
    obtain ⟨i, hi⟩ : ∃ i, (digits arch va).head? = some i := by cases arch <;> exact ⟨_, rfl⟩
    rw [← head_slot_iff hva' (by rw [hpath]; exact hi), head_slot_iff hva hi]
    exact hkernel
  have hentry := h.entries as pages hm _ hva' (Nat.mul_mod_left _ _) hkernel'
  rw [hfront', hindex'] at hentry
  rw [hentry]
  exact leaf_encode (fun pa prot hpa => h.mapped as pages _ pa prot hm hpa) va

/-- Walks from tables with one first entry are the same. -/
theorem walkLevels_head {mem : Nat → Nat} {va p q : Nat} {l : HwLevel} {ls : List HwLevel}
    (w u : Bool) (h : mem (cell arch p (l.index va)) = mem (cell arch q (l.index va))) :
    walkLevels arch mem va (l :: ls) p w u = walkLevels arch mem va (l :: ls) q w u := by
  unfold walkLevels
  rw [h]

/-- In the kernel areas every address space is translated as by `kpt`. -/
theorem Sim.kernel_walk (hready : KernelReady arch Kp s₀) (h : Sim arch Kp s₀ s m) {as : A}
    {pages : Pages} (hm : m as = some pages) {cr3 va : Nat} (hptr : s.ptr (some as) = some cr3)
    (hva : va < arch.virtSize) (hkernel : InKernel arch va) :
    hwWalk arch s.mem cr3 va = hwWalk arch s.mem s.kpt va ∧
      hwWalk arch s.mem s.kpt va = some ⟨va, true, false⟩ := by
  obtain ⟨upt, hptr', -, hpage, hslots⟩ := h.upt hm
  obtain rfl : upt + ptrFlags = cr3 := Option.some.inj (hptr'.symm.trans hptr)
  have hkpt : frame arch s.kpt = s₀.kpt := by
    rw [h.kpt]
    exact frame_add (f := 0) hready.kpt.2 (by decide)
  have hwalk := hready.walk s.mem h.frozen va hva hkernel
  unfold hwWalk
  rw [hkpt, frame_add hpage (by decide), hwalk]
  refine ⟨?_, rfl⟩
  rw [← hwalk]
  obtain ⟨l, ls, hlevels⟩ : ∃ l ls, arch.hwLevels = l :: ls := by cases arch <;> exact ⟨_, _, rfl⟩
  have hslot : l.index va ∈ kernel_slots arch := by
    refine (head_slot_iff hva ?_).mpr hkernel
    unfold digits
    rw [hlevels]
    rfl
  rw [hlevels]
  refine walkLevels_head true true ?_
  rw [hslots _ hslot]
  exact (h.frozen s₀.kpt hready.kpt.1 _ (kernel_slots_lt hslot)).symm

variable [DecidableEq A]

/-! ## Section 3: `protect` -/

/-- The loops of `protect` copy the entries at the indices of their addresses. -/
theorem copy_loop {upt : Nat} (hupt : upt % pgsize = 0) {addrs : List Nat}
    (hlt : ∀ cur ∈ addrs, indexof cur arch.level1 < arch.entries) (hkpt : s.kpt % pgsize = 0)
    (hne : s.kpt ≠ upt) (ht : addrs.foldl (copy_entry arch upt) s = s') :
    s'.ptr = s.ptr ∧ s'.kpt = s.kpt ∧ s'.pages = s.pages ∧
      (∀ i < arch.entries, s'.mem (cell arch upt i) =
        if i ∈ addrs.map (fun cur => indexof cur arch.level1) then s.mem (cell arch s.kpt i)
        else s.mem (cell arch upt i)) ∧
      ∀ p, p % pgsize = 0 → p ≠ upt → ∀ i < arch.entries,
        s'.mem (cell arch p i) = s.mem (cell arch p i) := by
  induction addrs generalizing s with
  | nil =>
    cases ht
    exact ⟨rfl, rfl, rfl, fun _ _ => rfl, fun _ _ _ _ _ => rfl⟩
  | cons cur addrs ih =>
    let t := copy_entry arch upt s cur
    let index := indexof cur arch.level1
    have hindex : index < arch.entries := hlt cur List.mem_cons_self
    have hself : t.mem (cell arch upt index) = s.mem (cell arch s.kpt index) :=
      Function.update_self _ _ _
    -- No other entry is written.
    have hother : ∀ p i, p % pgsize = 0 → i < arch.entries → ¬ (p = upt ∧ i = index) →
        t.mem (cell arch p i) = s.mem (cell arch p i) := by
      intro p i hp hi hdiff
      refine Function.update_of_ne (fun h => ?_) _ _
      exact hdiff (cell_inj hp hupt hi hindex h)
    obtain ⟨hptr, hkpt', hpages, hcopied, hrest⟩ :=
      ih (s := t) (fun c hc => hlt c (List.mem_cons_of_mem cur hc)) hkpt hne ht
    refine ⟨hptr, hkpt', hpages, fun i hi => ?_, fun p hp hpu i hi => ?_⟩
    · have hkpt_i : t.mem (cell arch t.kpt i) = s.mem (cell arch s.kpt i) :=
        hother s.kpt i hkpt hi (fun h => hne h.1)
      rw [hcopied i hi, hkpt_i, List.map_cons]
      -- The entry is copied later, now, or not at all.
      by_cases hin : i ∈ addrs.map fun cur => indexof cur arch.level1
      · rw [if_pos hin, if_pos (List.mem_cons_of_mem _ hin)]
      · rw [if_neg hin]
        by_cases heq : i = index
        · subst heq
          rw [if_pos List.mem_cons_self]
          exact hself
        · have hout : i ∉ indexof cur arch.level1 :: addrs.map fun cur =>
              indexof cur arch.level1 := by
            intro h
            rcases List.mem_cons.mp h with h | h
            · exact heq h
            · exact hin h
          rw [if_neg hout]
          exact hother upt i hupt hi (fun h => heq h.2)
    · rw [hrest p hp hpu i hi]
      exact hother p i hp hi (fun h => hpu h.1)

/-- `protect` plants a root that shares the kernel's slots. -/
theorem protect_spec (hok : PgallocOk arch pgalloc) {fl : Nat} {as : A}
    (hinv : TablesInv arch (kernel_slots arch) fl Kp s) (hkpt : s.kpt ∈ Kp)
    (h : protect arch pgalloc as s = .ok s') :
    ∃ upt s₁, Allocated arch s upt s₁ ∧
      Rooted arch (kernel_slots arch) s₁ (some as) upt ptrFlags s' ∧
      ∀ i ∈ kernel_slots arch, s'.mem (cell arch upt i) = s.mem (cell arch s.kpt i) := by
  obtain ⟨⟨upt, s₁⟩, halloc, h⟩ := bind_eq_ok h
  have ha := pgallocz_spec hok halloc
  cases h
  obtain ⟨hkalign, huse⟩ := hinv.kernel s.kpt hkpt
  -- The fresh table is not the kernel's.
  have hne : s₁.kpt ≠ upt := by
    rw [ha.kpt]
    rintro rfl
    rcases huse with h | h
    · exact ha.fresh.1 h
    · exact ha.fresh.2 h
  have hkalign' : s₁.kpt % pgsize = 0 := by rw [ha.kpt]; exact hkalign
  obtain ⟨t, ht⟩ : ∃ t, (arch.vm_areas.filter (·.kernel)).foldl (fun s vma =>
      (area_addrs arch (1 <<< arch.level1.shift) vma.area).foldl (copy_entry arch upt) s) s₁ = t :=
    ⟨_, rfl⟩
  have hloop : (kernel_addrs arch (1 <<< arch.level1.shift)).foldl (copy_entry arch upt) s₁ =
      t := by
    rw [← ht]
    unfold kernel_addrs
    rw [List.foldl_flatMap]
  obtain ⟨hptr, hkpt', hpages, hcopied, hrest⟩ := copy_loop ha.page.1 (fun cur hcur =>
    kernel_slots_lt (List.mem_map_of_mem hcur)) hkalign' hne hloop
  -- The loop copies exactly the kernel's slots.
  have hslots : ∀ i < arch.entries, t.mem (cell arch upt i) =
      if i ∈ kernel_slots arch then s₁.mem (cell arch s₁.kpt i) else s₁.mem (cell arch upt i) :=
    hcopied
  have hfinal : upt ||| PTE_P ||| PTE_U = upt + ptrFlags := by
    rw [Nat.or_assoc, or_flags ha.page.1 (by decide)]
    rfl
  refine ⟨upt, s₁, ha, ⟨?_, ?_, ?_, fun i hi hout => ?_, fun p hp hpu i hi => ?_⟩, fun i hi => ?_⟩
  · rw [← hfinal, ht, ← hptr]
    rfl
  · rw [ht]; exact hkpt'
  · rw [ht]; exact hpages
  · rw [ht]
    show t.mem (cell arch upt i) = 0
    rw [hslots i hi, if_neg hout]
    exact ha.zero i hi
  · rw [ht]; exact hrest p hp hpu i hi
  · rw [ht]
    show t.mem (cell arch upt i) = _
    have hi' := kernel_slots_lt hi
    rw [hslots i hi', if_pos hi, ha.kpt]
    exact ha.frozen hinv hkpt hi'

/-! ## Section 4: `map` -/

/-- The entry that `map` leaves. -/
def new_entry (pa prot : Nat) : Nat := if prot = MMAP_NONE then 0 else user_entry pa prot

theorem rounddown_eq {a : Nat} (ha : a < arch.wordSize) (h : a = rounddown arch a) :
    a % pgsize = 0 := by
  have hbase : rounddown arch a = a / pgsize * pgsize := baseof_eq ha
  unfold pgsize at *
  omega

/-- What `map` does to the trees: tables may be added to the address space,
    and one last-level entry changes. -/
structure Mapped (arch : Arch) (K Kp : List Nat) (as : A) (va pa prot : Nat) (s s' : Vme A) :
    Prop where
  inv     : TablesInv arch K userFlags Kp s'
  keeps   : Keeps arch K Kp s s'
  allots  : ∃ new, Allots arch K (some as) new s s'
  entries : ∀ r path i, Last arch K path → i < arch.entries → s'.entry arch r path i =
    if r = some as ∧ path = front arch va ∧ i = lastIndex arch va then new_entry pa prot
    else s.entry arch r path i

/-- What the branches of `map` write. -/
theorem set_entry_spec {a pa prot : Nat} (h : set_entry (.mem a) pa prot s = .ok s') :
    s' = s.write (new_entry pa prot) (.mem a) := by
  obtain ⟨v, hv, h⟩ := bind_eq_ok h
  unfold new_entry
  by_cases hprot : prot = MMAP_NONE
  · rw [if_pos hprot] at h ⊢
    obtain ⟨_, -, h⟩ := bind_eq_ok h
    exact (Except.ok.inj h).symm
  · rw [if_neg hprot] at h ⊢
    obtain ⟨_, -, h⟩ := bind_eq_ok h
    exact (Except.ok.inj h).symm

theorem map_spec (hok : PgallocOk arch pgalloc) {as : A} {va pa prot : Nat}
    (hinv : TablesInv arch (kernel_slots arch) userFlags Kp s) (hpa : pa < arch.physSize)
    (h : map arch pgalloc as va pa prot s = .ok s') :
    arch.uvm_area.IN_RANGE va = true ∧ va % pgsize = 0 ∧ PageOk arch pa ∧ s.ptr (some as) ≠ none ∧
      Mapped arch (kernel_slots arch) Kp as va pa prot s s' := by
  obtain ⟨_, hrange, h⟩ := bind_eq_ok h
  obtain ⟨_, hround, h⟩ := bind_eq_ok h
  obtain ⟨⟨ptentry, s₁⟩, hwalk₁, h⟩ := bind_eq_ok h
  obtain ⟨s₂, hset, h⟩ := bind_eq_ok h
  obtain ⟨⟨ptentry', s₃⟩, hwalk₂, h⟩ := bind_eq_ok h
  obtain rfl := Except.ok.inj h
  have hrange' := cassert_ok hrange
  have hround' := cassert_ok hround
  rw [Bool.and_eq_true, beq_iff_eq, beq_iff_eq] at hround'
  obtain ⟨hva, hkernel⟩ := user_not_kernel hrange'
  have hsize := physSize_le arch
  have hvirt : arch.virtSize ≤ arch.wordSize := by cases arch <;> decide
  have hva_align := rounddown_eq (by omega) hround'.1
  -- The two rounded addresses are the addresses themselves.
  have hpa_align := rounddown_eq (by omega) hround'.2
  have hpage : PageOk arch pa := by
    refine ⟨hpa_align, ?_⟩
    have hphys : arch.physSize % pgsize = 0 := by cases arch <;> decide
    unfold pgsize at *
    omega
  -- The walk does not enter a slot that is shared with the kernel.
  have hlast : Last arch (kernel_slots arch) (front arch va) :=
    front_last fun i hi hslot => hkernel ((head_slot_iff hva hi).mp hslot)
  have hptr : s.ptr (some as) ≠ none := by
    intro hnone
    unfold ptwalk at hwalk₁
    obtain ⟨cr3, infos, hpt, hdesc, -⟩ := pgtables_describe arch
    rw [hpt] at hwalk₁
    cases infos with
    | nil =>
      have hlen := hdesc.length_eq
      cases arch <;> simp [Arch.hwLevels] at hlen
    | cons info infos =>
      obtain ⟨v, hread, -⟩ := bind_eq_ok hwalk₁
      have hsome := read_ptr hread
      rw [hnone] at hsome
      cases hsome
  -- First walk, write of the entry, second walk.
  obtain ⟨hinv₁, hgrow₁, ⟨new₁, hallot₁⟩, pt, hpt, rfl⟩ :=
    ptwalk_spec hok (by decide) (by decide) hinv hlast hwalk₁
  obtain rfl := set_entry_spec hset
  obtain ⟨hinv₂, hkeep₂, htables₂, hentry₂⟩ :=
    write_entry (v := new_entry pa prot) hinv₁ hlast hpt (lastIndex_lt arch va)
  obtain ⟨hinv₃, hgrow₃, ⟨new₃, hallot₃⟩, -⟩ :=
    ptwalk_spec hok (by decide) (by decide) hinv₂ hlast hwalk₂
  have hallot₂ : Allots arch (kernel_slots arch) (some as) [] s₁
      (s₁.write (new_entry pa prot) (.mem (cell arch pt (lastIndex arch va)))) :=
    ⟨rfl, fun r' x => by rw [htables₂]; simp⟩
  refine ⟨hrange', hva_align, hpage, hptr, hinv₃,
    (hgrow₁.toKeeps.trans hkeep₂).trans hgrow₃.toKeeps,
    ⟨_, (hallot₁.trans hallot₂).trans hallot₃⟩, fun r path i hpath hi => ?_⟩
  rw [hgrow₃.entries r path i hpath hi, hentry₂ r path i hpath hi, hgrow₁.entries r path i hpath hi]

/-! ## Section 5: The calls keep the simulation -/

/-- `protect` makes an empty address space. -/
theorem Sim.protect (hok : PgallocOk arch pgalloc) (hready : KernelReady arch Kp s₀)
    (h : Sim arch Kp s₀ s m) {as : A} (hcall : protect arch pgalloc as s = .ok s') :
    Sim arch Kp s₀ s' (m.callUnmap (.protect as)) := by
  have hkpt : s.kpt ∈ Kp := by rw [h.kpt]; exact hready.kpt.1
  obtain ⟨upt, s₁, ha, hrooted, hslots⟩ := protect_spec hok h.inv hkpt hcall
  obtain ⟨hinv, -, -, htable⟩ := root_step ha h.inv hrooted (by decide) (by decide)
  have hptr_ne : ∀ as', as' ≠ as → s'.ptr (some as') = s.ptr (some as') := by
    intro as' hne
    rw [hrooted.ptr, ha.ptr, Function.update_of_ne (by simpa using hne)]
  -- The pages in use keep their words.
  have hkeep : ∀ p, p % pgsize = 0 → p ≠ upt → ∀ i < arch.entries,
      s'.mem (cell arch p i) = s.mem (cell arch p i) := by
    intro p hp hne i hi
    rw [hrooted.others p hp hne i hi, ha.others p hp hne i hi]
  have hfrozen : ∀ k ∈ Kp, ∀ i < arch.entries,
      s'.mem (cell arch k i) = s.mem (cell arch k i) := by
    intro k hk
    obtain ⟨halign, huse⟩ := h.inv.kernel k hk
    refine hkeep k halign ?_
    rintro rfl
    rcases huse with huse | huse
    · exact ha.fresh.1 huse
    · exact ha.fresh.2 huse
  have hcases : ∀ as' pages, (m.callUnmap (.protect as)) as' = some pages →
      (as' = as ∧ pages = Pages.empty) ∨ (as' ≠ as ∧ m as' = some pages) := by
    intro as' pages hm
    by_cases heq : as' = as
    · subst heq
      have hself : some Pages.empty = some pages := (m.protect_self as').symm.trans hm
      exact Or.inl ⟨rfl, (Option.some.inj hself).symm⟩
    · exact Or.inr ⟨heq, (Function.update_of_ne heq _ _).symm.trans hm⟩
  refine ⟨hinv, ?_, fun k hk i hi => ?_, fun as' hm => ?_, fun as' pages hm => ?_,
    fun as' pages hm va hva halign hkernel => ?_, fun as' pages va pa prot hm hva => ?_⟩
  · rw [hrooted.kpt, ha.kpt, h.kpt]
  · rw [hfrozen k hk i hi]
    exact h.frozen k hk i hi
  · by_cases heq : as' = as
    · subst heq
      have hself : (some Pages.empty : Option Pages) = none := (m.protect_self as').symm.trans hm
      cases hself
    · rw [hptr_ne as' heq]
      exact h.unset as' ((m.protect_ne heq).symm.trans hm)
  · rcases hcases as' pages hm with ⟨rfl, rfl⟩ | ⟨hne, hm'⟩
    · refine ⟨upt, ?_, ha.page, fun i hi => ?_⟩
      · rw [hrooted.ptr, Function.update_self]
      · rw [hslots i hi, ← h.kpt]
        exact h.frozen s.kpt hkpt i (kernel_slots_lt hi)
    · obtain ⟨upt', hptr', hroot', hpage', hslots'⟩ := h.upt hm'
      refine ⟨upt', by rw [hptr_ne as' hne, hptr'], hpage', fun i hi => ?_⟩
      have hmem := (h.inv.tables (some as') [] upt' (own_nil _ _)
        ((table_nil _ _).trans hroot')).1
      rw [hkeep upt' hpage'.1 (fun heq => ha.fresh.1 (heq ▸ hmem)) i (kernel_slots_lt hi)]
      exact hslots' i hi
  · have hlast := user_last hva hkernel
    unfold Vme.entry
    rw [htable _ _ hlast.1]
    rcases hcases as' pages hm with ⟨rfl, rfl⟩ | ⟨hne, hm'⟩
    · rw [if_pos rfl, if_neg (front_ne_nil hlast)]
      rfl
    · rw [if_neg (by simpa using hne), ← h.entries as' pages hm' va hva halign hkernel]
      unfold Vme.entry
      cases hx : s.table arch (some as') (front arch va) with
      | none => rfl
      | some x =>
        have hmem := (h.inv.tables _ _ x hlast.1 hx).1
        exact hkeep x (h.inv.pages x hmem).1 (fun heq => ha.fresh.1 (heq ▸ hmem)) _
          (lastIndex_lt arch va)
  · rcases hcases as' pages hm with ⟨rfl, rfl⟩ | ⟨hne, hm'⟩
    · cases hva
    · exact h.mapped as' pages va pa prot hm' hva

/-- `map` maps or unmaps one page of one address space. -/
theorem Sim.map (hok : PgallocOk arch pgalloc) (h : Sim arch Kp s₀ s m) {as : A}
    {va pa prot : Nat} (hpa : pa < arch.physSize)
    (hcall : map arch pgalloc as va pa prot s = .ok s') :
    Sim arch Kp s₀ s' (m.callUnmap (.map as va pa prot)) := by
  obtain ⟨hrange, hva_align, hpage, hptr, hmapped⟩ := map_spec hok h.inv hpa hcall
  obtain ⟨hva, hkernel⟩ := user_not_kernel hrange
  have hkeep := hmapped.keeps
  -- What the call does to the pages of each address space.
  have hcases : ∀ as' pages, (m.callUnmap (.map as va pa prot)) as' = some pages →
      ∃ pages', m as' = some pages' ∧
        pages = if as' = as then pages'.map va pa prot else pages' := by
    intro as' pages hm
    by_cases heq : as' = as
    · subst heq
      have hself : (m as').map (fun pages => pages.map va pa prot) = some pages :=
        (m.map_self as' va pa prot).symm.trans hm
      obtain ⟨pages', hm', rfl⟩ := Option.map_eq_some_iff.mp hself
      exact ⟨pages', hm', by rw [if_pos rfl]⟩
    · exact ⟨pages, (m.map_ne va pa prot heq).symm.trans hm, by rw [if_neg heq]⟩
  refine ⟨hmapped.inv, hkeep.kpt.trans h.kpt, fun k hk i hi => ?_, fun as' hm => ?_,
    fun as' pages hm => ?_, fun as' pages hm va' hva' halign hkernel' => ?_,
    fun as' pages va' pa' prot' hm hva' => ?_⟩
  · exact (hkeep.frozen k hk i hi).trans (h.frozen k hk i hi)
  · have hnone : m as' = none := by
      by_cases heq : as' = as
      · subst heq
        have hself : (m as').map (fun pages => pages.map va pa prot) = none :=
          (m.map_self as' va pa prot).symm.trans hm
        exact Option.map_eq_none_iff.mp hself
      · exact (m.map_ne va pa prot heq).symm.trans hm
    have hptr' := h.unset as' hnone
    rw [hkeep.ptrs _ (Or.inl hptr')]
    exact hptr'
  · obtain ⟨pages', hm', -⟩ := hcases as' pages hm
    obtain ⟨upt, hptr', hroot, hpage', hslots⟩ := h.upt hm'
    refine ⟨upt, ?_, hpage', fun i hi => ?_⟩
    · rw [hkeep.ptrs _ (Or.inr (by rw [hroot]; simp)), hptr']
    · rw [hkeep.slots _ _ hroot i hi (kernel_slots_lt hi)]
      exact hslots i hi
  · obtain ⟨pages', hm', rfl⟩ := hcases as' pages hm
    rw [hmapped.entries _ _ _ (user_last hva' hkernel') (lastIndex_lt arch va'),
      h.entries as' pages' hm' va' hva' halign hkernel']
    -- The entry of the page that was mapped, or another one.
    by_cases hsame : as' = as ∧ va' = va
    · obtain ⟨rfl, rfl⟩ := hsame
      rw [if_pos ⟨rfl, rfl, rfl⟩, if_pos rfl]
      unfold new_entry Pages.map
      by_cases hprot : prot = MMAP_NONE
      · rw [if_pos hprot, if_pos hprot]
        simp [Pages.erase, encode]
      · rw [if_neg hprot, if_neg hprot, Pages.insert_self]
        rfl
    · rw [if_neg]
      · split
        · rename_i heq
          rw [Pages.map_ne pages' pa prot fun hva => hsame ⟨heq, hva⟩]
        · rfl
      · -- The path determines the page.
        rintro ⟨has, hfront, hindex⟩
        have hdigits : digits arch va' = digits arch va := by
          rw [digits_eq, digits_eq, hfront, hindex]
        have hpage' := digits_inj hva' hva hdigits
        refine hsame ⟨Option.some.inj has, ?_⟩
        unfold pgsize at *
        omega
  · obtain ⟨pages', hm', rfl⟩ := hcases as' pages hm
    by_cases hsame : as' = as ∧ va' = va
    · obtain ⟨rfl, rfl⟩ := hsame
      rw [if_pos rfl] at hva'
      unfold Pages.map at hva'
      split at hva'
      · simp [Pages.erase] at hva'
      · rw [Pages.insert_self] at hva'
        cases hva'
        exact hpage
    · refine h.mapped as' pages' va' pa' prot' hm' ?_
      split at hva'
      · rename_i heq
        rwa [Pages.map_ne pages' pa prot fun hva => hsame ⟨heq, hva⟩] at hva'
      · exact hva'

/-- Step lemma: every call keeps the simulation. -/
theorem Sim.call (hok : PgallocOk arch pgalloc) (hready : KernelReady arch Kp s₀)
    (h : Sim arch Kp s₀ s m) {c : Call A}
    (hpa : ∀ as va pa prot, c = .map as va pa prot → pa < arch.physSize)
    (hcall : call arch pgalloc s c = .ok s') : Sim arch Kp s₀ s' (m.callUnmap c) := by
  cases c with
  | protect as => exact h.protect hok hready hcall
  | map as va pa prot => exact h.map hok (hpa as va pa prot rfl) hcall
  | switch ctx =>
    cases hcall
    exact h

/-- Run lemma. -/
theorem Sim.run (hok : PgallocOk arch pgalloc) (hready : KernelReady arch Kp s₀)
    {calls : List (Call A)}
    (hpa : ∀ as va pa prot, Call.map as va pa prot ∈ calls → pa < arch.physSize)
    (hrun : run arch pgalloc s₀ calls = .ok s) :
    Sim arch Kp s₀ s (Spaces.runUnmap calls) := by
  refine foldlM_ok (P := fun done s => Sim arch Kp s₀ s (Spaces.runUnmap done)) ?_
    (Sim.init hready) hrun
  intro done c rest s₁ s₂ hcalls hs hc
  rw [Spaces.runUnmap_append]
  refine hs.call hok hready (fun as va pa prot heq => ?_) hc
  exact hpa as va pa prot (by rw [hcalls, heq]; simp)

/-! ## Section 6: The result -/

/-- The call is about this page of this address space, or replaces the whole
    space. -/
def Touches (as : A) (va : Nat) : Call A → Prop
  | .protect as' => as = as'
  | .map as' va' _ _ => as = as' ∧ va / pgsize = va' / pgsize
  | .switch _ => False

/-- Other pages stay in the address spaces. -/
theorem callUnmap_untouched {c : Call A} {as : A} {va : Nat} {pages : Pages}
    (hm : m as = some pages) (hc : ¬ Touches as va c) :
    ∃ pages', (m.callUnmap c) as = some pages' ∧
      pages' (va / pgsize * pgsize) = pages (va / pgsize * pgsize) := by
  cases c with
  | protect as' =>
    have hne : as ≠ as' := hc
    exact ⟨pages, (m.protect_ne hne).trans hm, rfl⟩
  | map as' va' pa prot =>
    by_cases has : as = as'
    · subst has
      refine ⟨pages.map va' pa prot, by rw [m.map_self, hm]; rfl, ?_⟩
      refine Pages.map_ne pages pa prot fun heq => hc ⟨rfl, ?_⟩
      unfold pgsize at *
      omega
    · exact ⟨pages, (m.map_ne va' pa prot has).trans hm, rfl⟩
  | switch ctx => exact ⟨pages, hm, rfl⟩

/-- The root of an address space is only replaced by `protect`. -/
theorem call_ptr (hok : PgallocOk arch pgalloc) (hready : KernelReady arch Kp s₀)
    (h : Sim arch Kp s₀ s m) {c : Call A}
    (hpa : ∀ as va pa prot, c = .map as va pa prot → pa < arch.physSize)
    (hcall : call arch pgalloc s c = .ok s') {as : A} {va : Nat} {pages : Pages}
    (hm : m as = some pages) (hc : ¬ Touches as va c) : s'.ptr (some as) = s.ptr (some as) := by
  cases c with
  | protect as' =>
    have hne : as ≠ as' := hc
    have hkpt : s.kpt ∈ Kp := by rw [h.kpt]; exact hready.kpt.1
    obtain ⟨upt, s₁, ha, hrooted, -⟩ := protect_spec hok h.inv hkpt hcall
    rw [hrooted.ptr, ha.ptr, Function.update_of_ne (by simpa using hne)]
  | map as' va' pa prot =>
    obtain ⟨-, -, -, -, hmapped⟩ := map_spec hok h.inv (hpa as' va' pa prot rfl) hcall
    obtain ⟨upt, -, hroot, -⟩ := h.upt hm
    exact hmapped.keeps.ptrs _ (Or.inr (by rw [hroot]; simp))
  | switch ctx =>
    cases hcall
    rfl

/-- For every sequence of `protect` and `map` calls that does not panic: the
    processor finds, at every address of the user area, the page and the write
    permission of the last `map` in that address space, or nothing; it finds in
    the kernel areas what it finds from `kpt`; and each further call leaves the
    walks of all other pages and address spaces as they were. -/
theorem walks_refine {mem : Nat → Nat} {calls : List (Call A)} (hok : PgallocOk arch pgalloc)
    (hmem : Booted arch mem) (hinit : vme_init arch pgalloc (boot mem) = .ok s₀)
    (hrun : run arch pgalloc s₀ calls = .ok s)
    (hpa : ∀ as va pa prot, Call.map as va pa prot ∈ calls → pa < arch.physSize) :
    (∀ as pages, Spaces.runUnmap calls as = some pages → ∃ cr3, s.ptr (some as) = some cr3 ∧
      (∀ va, arch.uvm_area.IN_RANGE va = true →
        hwWalk arch s.mem cr3 va = translation pages va) ∧
      ∀ va < arch.virtSize, InKernel arch va →
      hwWalk arch s.mem cr3 va = hwWalk arch s.mem s.kpt va ∧
        hwWalk arch s.mem s.kpt va = some ⟨va, true, false⟩) ∧
    ∀ c s', call arch pgalloc s c = .ok s' →
      (∀ as va pa prot, c = .map as va pa prot → pa < arch.physSize) →
      ∀ as pages va, Spaces.runUnmap calls as = some pages → va < arch.virtSize →
        ¬ Touches as va c → ∃ cr3, s.ptr (some as) = some cr3 ∧ s'.ptr (some as) = some cr3 ∧
          hwWalk arch s'.mem cr3 va = hwWalk arch s.mem cr3 va := by
  have hready := vme_init_ready hok hmem hinit
  have hsim := Sim.run hok hready hpa hrun
  refine ⟨fun as pages hm => ?_, fun c s' hcall hpa' as pages va hm hva hc => ?_⟩
  · obtain ⟨upt, hptr, -⟩ := hsim.upt hm
    refine ⟨_, hptr, fun va hrange => ?_, fun va hva hkernel => ?_⟩
    · obtain ⟨hva, hkernel⟩ := user_not_kernel hrange
      exact hsim.user_walk hm hptr hva hkernel
    · exact hsim.kernel_walk hready hm hptr hva hkernel
  · have hsim' := hsim.call hok hready hpa' hcall
    obtain ⟨pages', hm', hpage⟩ := callUnmap_untouched hm hc
    obtain ⟨upt, hptr, -⟩ := hsim.upt hm
    have hptr' := (call_ptr hok hready hsim hpa' hcall hm hc).trans hptr
    refine ⟨_, hptr, hptr', ?_⟩
    -- In the kernel the tables are all the same; elsewhere the pages decide.
    by_cases hkernel : InKernel arch va
    · obtain ⟨hwalk, hid⟩ := hsim.kernel_walk hready hm hptr hva hkernel
      obtain ⟨hwalk', hid'⟩ := hsim'.kernel_walk hready hm' hptr' hva hkernel
      rw [hwalk', hid', hwalk, hid]
    · rw [hsim'.user_walk hm' hptr' hva hkernel, hsim.user_walk hm hptr hva hkernel]
      unfold translation
      rw [hpage]

/-! ### A run on x86-64 -/

/-- The memory that `start64.S` leaves. -/
def boot_mem (a : Nat) : Nat :=
  if a = PML4_ADDR then PDPT_ADDR ||| PTE_P ||| PTE_W
  else if PDPT_ADDR ≤ a then ((a - PDPT_ADDR) / 8) <<< 30 ||| (PTE_P ||| PTE_W ||| PTE_PS)
  else 0

/-- Pages one after another, as long as there are any. -/
def next_page (pages : List Nat) : Nat :=
  let page := (pages.foldr max PDPT_ADDR / pgsize + 1) * pgsize
  if page + pgsize ≤ Arch.x86_64.physSize then page else 0

theorem booted_boot_mem : Booted .x86_64 boot_mem := by
  refine ⟨rfl, fun i hi => ?_⟩
  have hcell : cell .x86_64 PDPT_ADDR i = 0x2000 + i * 8 := rfl
  unfold boot_mem
  rw [hcell, if_neg (by unfold PML4_ADDR; omega), if_pos (by unfold PDPT_ADDR; omega)]
  unfold PDPT_ADDR
  rw [show (0x2000 + i * 8 - 0x2000) / 8 = i by omega]

theorem next_page_ok : PgallocOk .x86_64 next_page := by
  -- The next page above all pages so far, as long as memory has it.
  have hpage : ∀ pages, next_page pages ≠ 0 → next_page pages =
      (pages.foldr max PDPT_ADDR / pgsize + 1) * pgsize ∧
        (pages.foldr max PDPT_ADDR / pgsize + 1) * pgsize + pgsize ≤ Arch.x86_64.physSize := by
    intro pages h
    unfold next_page at h ⊢
    by_cases hle : (pages.foldr max PDPT_ADDR / pgsize + 1) * pgsize + pgsize ≤ Arch.x86_64.physSize
    · exact ⟨if_pos hle, hle⟩
    · exact absurd (if_neg hle) h
  -- The highest page is above the boot tables too.
  have hmax : ∀ pages : List Nat, PDPT_ADDR ≤ pages.foldr max PDPT_ADDR ∧
      ∀ p ∈ pages, p ≤ pages.foldr max PDPT_ADDR := by
    intro pages
    induction pages with
    | nil => exact ⟨Nat.le_refl _, by simp⟩
    | cons q pages ih =>
      rw [List.foldr_cons]
      refine ⟨Nat.le_trans ih.1 (Nat.le_max_right _ _), fun p hp => ?_⟩
      rcases List.mem_cons.mp hp with rfl | hp
      · exact Nat.le_max_left _ _
      · exact Nat.le_trans (ih.2 p hp) (Nat.le_max_right _ _)
  refine ⟨fun pages h => ?_, fun pages h => ?_⟩
  · obtain ⟨heq, hle⟩ := hpage pages h
    rw [heq]
    exact ⟨Nat.mul_mod_left _ _, hle⟩
  · obtain ⟨heq, -⟩ := hpage pages h
    obtain ⟨hlow, hall⟩ := hmax pages
    rw [heq]
    unfold pgsize PDPT_ADDR at *
    refine ⟨fun hin => ?_, fun hin => ?_⟩
    · have hle := hall _ hin
      omega
    · have hboot : boot_pages .x86_64 = [0x1000, 0x2000] := rfl
      rw [hboot, List.mem_cons, List.mem_singleton] at hin
      omega

/-- Two spaces with a page at the same address.  In the first one that page is
    replaced, and a second page is mapped and unmapped again. -/
def two_spaces : List (Call Nat) :=
  [.protect 0, .protect 1, .map 0 0x100000000000 0x5000 3, .map 1 0x100000000000 0x6000 3,
    .map 0 0x100000001000 0x8000 1, .map 0 0x100000000000 0x5000 MMAP_NONE,
    .map 0 0x100000000000 0x7000 1, .map 0 0x100000001000 0x8000 MMAP_NONE]

theorem two_spaces_pa : ∀ as va pa prot, Call.map as va pa prot ∈ two_spaces →
    pa < Arch.x86_64.physSize := by
  intro as va pa prot h
  simp only [two_spaces, List.mem_cons, List.not_mem_nil, or_false, reduceCtorEq, false_or,
    Call.map.injEq] at h
  obtain ⟨-, -, rfl, -⟩ | ⟨-, -, rfl, -⟩ | ⟨-, -, rfl, -⟩ | ⟨-, -, rfl, -⟩ | ⟨-, -, rfl, -⟩ |
    ⟨-, -, rfl, -⟩ := h
  all_goals decide

/-- Each space has its own page, the kernel is in both, and a page that is mapped
    in the second one leaves the first as it is.  A map over a mapped page
    panics. -/
theorem walks_refine_two_spaces : ∃ (s s' : Vme Nat) (cr3 cr3' : Nat),
    (do let s₀ ← vme_init .x86_64 next_page (boot boot_mem)
        run .x86_64 next_page s₀ two_spaces) = .ok s ∧
      call .x86_64 next_page s (.map 1 0x100000001000 0x9000 3) = .ok s' ∧
      (call .x86_64 next_page s (.map 1 0x100000000000 0x9000 3)).toBool = false ∧
      s.ptr (some 0) = some cr3 ∧ s.ptr (some 1) = some cr3' ∧
      hwWalk .x86_64 s.mem cr3 0x100000000234 = some ⟨0x7234, false, true⟩ ∧
      hwWalk .x86_64 s.mem cr3' 0x100000000234 = some ⟨0x6234, true, true⟩ ∧
      hwWalk .x86_64 s.mem cr3' 0x345678 = some ⟨0x345678, true, false⟩ ∧
      hwWalk .x86_64 s'.mem cr3 0x100000001000 = none := by
  obtain ⟨⟨s, s'⟩, hs⟩ : ∃ t : Vme Nat × Vme Nat, (do
      let s₀ ← vme_init .x86_64 next_page (boot boot_mem)
      let s ← run .x86_64 next_page s₀ two_spaces
      cassert !(call .x86_64 next_page s (.map 1 0x100000000000 0x9000 3)).toBool
      let s' ← call .x86_64 next_page s (.map 1 0x100000001000 0x9000 3)
      return (s, s')) = .ok t :=
    toBool_ok (by decide +kernel)
  obtain ⟨s₀, hinit, hs⟩ := bind_eq_ok hs
  obtain ⟨s₁, hrun, hs⟩ := bind_eq_ok hs
  obtain ⟨⟨⟩, hpanic, hs⟩ := bind_eq_ok hs
  obtain ⟨s₂, hcall, hs⟩ := bind_eq_ok hs
  cases hs
  obtain ⟨hwalks, hkeep⟩ := walks_refine next_page_ok booted_boot_mem hinit hrun two_spaces_pa
  obtain ⟨cr3, hptr, huser, -⟩ := hwalks 0 _ rfl
  obtain ⟨cr3', hptr', huser', hkernel⟩ := hwalks 1 _ rfl
  have hpa : ∀ as va pa prot, Call.map 1 0x100000001000 0x9000 3 = Call.map as va pa prot →
      pa < Arch.x86_64.physSize := by
    rintro _ _ _ _ ⟨⟩
    decide
  obtain ⟨cr3₁, hptr₁, -, hframe⟩ := hkeep _ _ hcall hpa 0 _ 0x100000001000 rfl (by decide)
    (fun htouch => absurd htouch.1 Nat.zero_ne_one)
  obtain rfl : cr3 = cr3₁ := Option.some.inj (hptr.symm.trans hptr₁)
  refine ⟨s, s', cr3, cr3', by rw [hinit, ok_bind]; exact hrun, hcall, ?_, hptr, hptr', ?_, ?_, ?_,
    ?_⟩
  · by_contra hok
    rw [Bool.not_eq_false] at hok
    rw [hok] at hpanic
    cases hpanic
  · rw [huser 0x100000000234 (by decide)]
    rfl
  · rw [huser' 0x100000000234 (by decide)]
    rfl
  · obtain ⟨hsame, hid⟩ := hkernel 0x345678 (by decide)
      ⟨_, List.mem_singleton_self _, by decide⟩
    exact hsame.trans hid
  · rw [hframe, huser 0x100000001000 (by decide)]
    rfl

end refinement

end Am.X86
