import IcsPa.Am.X86.Vme
import IcsPa.Framework.Radix
import Mathlib.Data.List.Forall2

/-! # The tables as trees

    Seen through `root` and `child`, the tables of the address spaces are
    radix trees in memory.  A path is owned by its address space unless it
    starts with one of the slots `K` of the level-1 table that `protect`
    copies from the kernel.

    `TablesInv` is the invariant: owned tables are pages of their own, and
    their entries lead to aligned pages with the same flags at every level.
    `ptwalk` may add tables but changes no last-level entry (`Grows`). -/

open CCall

namespace Am.X86

open Vme

section tables
variable {A : Type} (arch : Arch)

/-! ## Section 1: Trees -/

/-- The table that a present entry leads to. -/
def next_table (entry : Nat) : Option Nat :=
  if present entry then some (baseof arch entry) else none

def Vme.root (s : Vme A) (r : Option A) : Option Nat := (s.ptr r).bind (next_table arch)

def Vme.child (s : Vme A) (pt index : Nat) : Option Nat :=
  next_table arch (s.mem (cell arch pt index))

/-- The table at the end of a path. -/
def Vme.table (s : Vme A) (r : Option A) (path : List Nat) : Option Nat :=
  Radix.node (s.root arch) (s.child arch) r path

/-- The path leads to a table and does not start with a slot of `K`. -/
def Own (K path : List Nat) : Prop :=
  path.length < arch.hwLevels.length ∧ (∀ i ∈ path, i < arch.entries) ∧
    ∀ i, path.head? = some i → i ∉ K

/-- The entry `i` of the last-level table at the end of `path`; 0 if the table
    does not exist. -/
def Vme.entry (s : Vme A) (r : Option A) (path : List Nat) (i : Nat) : Nat :=
  match s.table arch r path with
  | some pt => s.mem (cell arch pt i)
  | none => 0

/-- The path of a last-level table. -/
def Last (K path : List Nat) : Prop := Own arch K path ∧ path.length + 1 = arch.hwLevels.length

/-- The invariant.  `fl` are the flags of entries that lead to tables; `Kp` are
    the pages of the kernel's tables. -/
structure TablesInv (K : List Nat) (fl : Nat) (Kp : List Nat) (s : Vme A) : Prop where
  unshared : Radix.Unshared (Own arch K) (s.root arch) (s.child arch)
  tables   : ∀ r path p, Own arch K path → s.table arch r path = some p → p ∈ s.pages ∧ p ∉ Kp
  interior : ∀ r path i p, Own arch K (path ++ [i]) → s.table arch r path = some p →
    present (s.mem (cell arch p i)) →
    ∃ q, PageOk arch q ∧ s.mem (cell arch p i) = q + fl
  pages    : ∀ p ∈ s.pages, PageOk arch p
  distinct : s.pages.Nodup
  kernel   : ∀ k ∈ Kp, k % pgsize = 0 ∧ (k ∈ s.pages ∨ k ∈ boot_pages arch)

/-- What no operation on user pages changes: the kernel's tables, the `ptr`
    fields that are unset or lead to a table, and the shared slots of roots. -/
structure Keeps (K Kp : List Nat) (s s' : Vme A) : Prop where
  kpt    : s'.kpt = s.kpt
  frozen : ∀ k ∈ Kp, ∀ i < arch.entries, s'.mem (cell arch k i) = s.mem (cell arch k i)
  ptrs   : ∀ r, s.ptr r = none ∨ s.root arch r ≠ none → s'.ptr r = s.ptr r
  slots  : ∀ r p, s.root arch r = some p → ∀ i ∈ K, i < arch.entries →
    s'.mem (cell arch p i) = s.mem (cell arch p i)

/-- Tables are added, and every last-level entry stays. -/
structure Grows (K Kp : List Nat) (s s' : Vme A) : Prop extends Keeps arch K Kp s s' where
  entries : ∀ r path i, Last arch K path → i < arch.entries →
    s'.entry arch r path i = s.entry arch r path i

/-- The page is one of the tables of an address space. -/
def Vme.IsTable (K : List Nat) (s : Vme A) (r : Option A) (x : Nat) : Prop :=
  ∃ path, Own arch K path ∧ s.table arch r path = some x

/-- The pages `new` are allocated, each as a table of `r`. -/
structure Allots (K : List Nat) (r : Option A) (new : List Nat) (s s' : Vme A) : Prop where
  pages  : s'.pages = new ++ s.pages
  tables : ∀ r' x, s'.IsTable arch K r' x ↔ s.IsTable arch K r' x ∨ (r' = r ∧ x ∈ new)

variable {arch} {K Kp : List Nat} {fl : Nat} {s s' s'' : Vme A} {r : Option A}
variable {path : List Nat} {p q i : Nat}

theorem own_front (path : List Nat) (i : Nat) (h : Own arch K (path ++ [i])) :
    Own arch K path := by
  obtain ⟨hlen, hlt, hhead⟩ := h
  refine ⟨by simp at hlen; omega, fun j hj => hlt j (by simp [hj]), fun j hj => hhead j ?_⟩
  cases path with
  | nil => cases hj
  | cons k path => exact hj

/-- A path with an owned extension is owned. -/
theorem own_of_append {path' : List Nat} (h : Own arch K (path ++ path')) : Own arch K path := by
  induction path' using List.reverseRecOn with
  | nil => simpa using h
  | append_singleton path' i ih =>
    rw [← List.append_assoc] at h
    exact ih (own_front _ i h)

theorem own_nil (arch : Arch) (K : List Nat) : Own arch K [] := by
  refine ⟨?_, by simp, by simp⟩
  cases arch <;> decide

theorem own_last (h : Own arch K (path ++ [i])) : i < arch.entries := h.2.1 i (by simp)

theorem table_nil (s : Vme A) (r : Option A) : s.table arch r [] = s.root arch r := by
  unfold Vme.table
  rw [Radix.node_nil]

/-- One entry further. -/
theorem table_snoc (hp : s.table arch r path = some p) (i : Nat) :
    s.table arch r (path ++ [i]) = next_table arch (s.mem (cell arch p i)) := by
  unfold Vme.table at hp ⊢
  rw [Radix.node_snoc, hp]
  rfl

/-- The roots stay. -/
theorem Keeps.root (h : Keeps arch K Kp s s') (hp : s.root arch r = some p) :
    s'.root arch r = some p := by
  have hptr := h.ptrs r (Or.inr (by rw [hp]; simp))
  unfold Vme.root at hp ⊢
  rw [hptr]
  exact hp

theorem Keeps.trans (h : Keeps arch K Kp s s') (h' : Keeps arch K Kp s' s'') :
    Keeps arch K Kp s s'' := by
  refine ⟨h'.kpt.trans h.kpt, fun k hk i hi => ?_, fun r hr => ?_, fun r p hp i hi hlt => ?_⟩
  · exact (h'.frozen k hk i hi).trans (h.frozen k hk i hi)
  · have hptr := h.ptrs r hr
    refine (h'.ptrs r ?_).trans hptr
    rcases hr with hnone | hroot
    · exact Or.inl (hptr.trans hnone)
    · obtain ⟨p, hp⟩ := Option.ne_none_iff_exists'.mp hroot
      exact Or.inr (by rw [h.root hp]; simp)
  · exact (h'.slots r p (h.root hp) i hi hlt).trans (h.slots r p hp i hi hlt)

theorem Grows.refl (s : Vme A) : Grows arch K Kp s s :=
  ⟨⟨rfl, fun _ _ _ _ => rfl, fun _ _ => rfl, fun _ _ _ _ _ _ => rfl⟩, fun _ _ _ _ _ => rfl⟩

theorem Grows.trans (h : Grows arch K Kp s s') (h' : Grows arch K Kp s' s'') :
    Grows arch K Kp s s'' :=
  ⟨h.toKeeps.trans h'.toKeeps, fun r path i hl hi =>
    (h'.entries r path i hl hi).trans (h.entries r path i hl hi)⟩

theorem Allots.refl (r : Option A) (s : Vme A) : Allots arch K r [] s s :=
  ⟨rfl, fun r' x => by simp⟩

theorem Allots.trans {new new' : List Nat} (h : Allots arch K r new s s')
    (h' : Allots arch K r new' s' s'') : Allots arch K r (new' ++ new) s s'' := by
  refine ⟨by rw [h'.pages, h.pages, List.append_assoc], fun r' x => ?_⟩
  rw [h'.tables, h.tables, List.mem_append]
  constructor
  · rintro ((hx | ⟨hr, hx⟩) | ⟨hr, hx⟩)
    · exact Or.inl hx
    · exact Or.inr ⟨hr, Or.inr hx⟩
    · exact Or.inr ⟨hr, Or.inl hx⟩
  · rintro (hx | ⟨hr, hx | hx⟩)
    · exact Or.inl (Or.inl hx)
    · exact Or.inr ⟨hr, hx⟩
    · exact Or.inl (Or.inr ⟨hr, hx⟩)

theorem read_ptr {v : Nat} (h : s.read (.ptr r) = .ok v) : s.ptr r = some v := by
  unfold Vme.read at h
  dsimp only at h
  cases hr : s.ptr r with
  | none => rw [hr] at h; cases h
  | some v' => rw [hr] at h; rw [Except.ok.inj h]

/-- An entry made of a page and present flags leads to the page. -/
theorem next_table_add (hq : PageOk arch q) (hfl : fl < pgsize) (hp : present fl) :
    next_table arch (q + fl) = some q := by
  have hpresent : present (q + fl) = true := by
    unfold present at hp ⊢
    rw [add_and_flags hq.1 hfl (by decide)]
    exact hp
  unfold next_table
  rw [if_pos hpresent, baseof_add hq hfl]

theorem next_table_zero : next_table arch 0 = none := rfl

/-! ## Section 2: The walk of the processor -/

/-- The path of an address up to its last-level table, and its index there. -/
def front (arch : Arch) (va : Nat) : List Nat := (digits arch va).dropLast

def lastIndex (arch : Arch) (va : Nat) : Nat := (digits arch va).getLastD 0

theorem digits_eq (arch : Arch) (va : Nat) :
    digits arch va = front arch va ++ [lastIndex arch va] := by
  cases arch <;> rfl

theorem lastIndex_lt (arch : Arch) (va : Nat) : lastIndex arch va < arch.entries := by
  have hmem : lastIndex arch va ∈ digits arch va := by
    rw [digits_eq arch va]
    simp
  exact digits_lt hmem

theorem getLast?_digits (arch : Arch) (va : Nat) :
    (digits arch va).getLast? = some (lastIndex arch va) := by
  rw [digits_eq, List.getLast?_concat]

/-- The path of an address is owned unless it starts in a shared slot. -/
theorem front_last {va : Nat} (h : ∀ i, (digits arch va).head? = some i → i ∉ K) :
    Last arch K (front arch va) := by
  have hlt : ∀ i ∈ front arch va, i < arch.entries := fun i hi =>
    digits_lt ((List.dropLast_sublist (digits arch va)).subset hi)
  cases arch with
  | i386 => exact ⟨⟨show 1 < 2 by omega, hlt, h⟩, rfl⟩
  | x86_64 => exact ⟨⟨show 3 < 4 by omega, hlt, h⟩, rfl⟩

theorem front_ne_nil (h : Last arch K path) : path ≠ [] := by
  rintro rfl
  have hlen := h.2
  cases arch <;> simp [Arch.hwLevels] at hlen

/-- What the last-level entry of an address says. -/
def leaf (arch : Arch) (va entry : Nat) (w u : Bool) : Option Translation :=
  if present entry then
    some ⟨frame arch entry + va % pgsize, w && (entry &&& PTE_W != 0), u && (entry &&& PTE_U != 0)⟩
  else none

/-- From an owned table, the processor finds the last-level entry.  The flags
    `fl` of the entries on the way are the permissions they give. -/
theorem walkLevels_eq {va : Nat} (hfl : fl < pgsize) (hps : fl &&& PTE_PS = 0)
    (hinv : TablesInv arch K fl Kp s) {ls : List HwLevel} {l : HwLevel} (w u : Bool)
    (hlarge : l.large = false) (hp : s.table arch r path = some p)
    (hlast : Last arch K (path ++ ls.map fun l => l.index va)) :
    walkLevels arch s.mem va (ls ++ [l]) p w u =
      leaf arch va (s.entry arch r (path ++ ls.map fun l => l.index va) (l.index va))
        (w && (ls.isEmpty || fl &&& PTE_W != 0)) (u && (ls.isEmpty || fl &&& PTE_U != 0)) := by
  induction ls generalizing path p w u with
  | nil =>
    unfold Vme.entry leaf
    rw [List.map_nil, List.append_nil, hp]
    simp only [List.nil_append, walkLevels, hlarge, Bool.false_and, List.isEmpty_nil,
      Bool.true_or, Bool.and_true]
    cases present (s.mem (cell arch p (l.index va))) <;> rfl
  | cons l' ls ih =>
    have hfront : path ++ (l' :: ls).map (fun l => l.index va) =
        (path ++ [l'.index va]) ++ ls.map fun l => l.index va := by simp
    rw [hfront] at hlast ⊢
    have hown : Own arch K (path ++ [l'.index va]) := own_of_append hlast.1
    have hnext := table_snoc hp (l'.index va)
    rw [List.cons_append, walkLevels]
    cases hpres : present (s.mem (cell arch p (l'.index va))) with
    | false =>
      -- A missing table on the way is a missing entry at the end.
      have hnone : s.table arch r ((path ++ [l'.index va]) ++ ls.map fun l => l.index va) =
          none := by
        have hstop : s.table arch r (path ++ [l'.index va]) = none := by
          rw [hnext]; unfold next_table; rw [hpres]; rfl
        unfold Vme.table Radix.node at hstop ⊢
        cases hr : s.root arch r with
        | none => rfl
        | some p₀ =>
          rw [hr] at hstop
          have hstop' : Radix.descend (s.child arch) p₀ (path ++ [l'.index va]) = none := hstop
          show Radix.descend (s.child arch) p₀ _ = none
          rw [Radix.descend_append, hstop']
          rfl
      have hzero : present 0 = false := by decide
      unfold Vme.entry leaf
      rw [hnone]
      simp [hzero]
    | true =>
      obtain ⟨q, hq, heq⟩ := hinv.interior r path (l'.index va) p hown hp hpres
      have hflag : ∀ m, m < pgsize → s.mem (cell arch p (l'.index va)) &&& m = fl &&& m := by
        intro m hm
        rw [heq, add_and_flags hq.1 hfl hm]
      have hq' : s.table arch r (path ++ [l'.index va]) = some q := by
        rw [hnext]
        unfold next_table
        rw [if_pos hpres, heq, baseof_add hq hfl]
      rw [hflag PTE_W (by decide), hflag PTE_U (by decide), hflag PTE_PS (by decide), hps]
      simp only [Bool.not_true, Bool.false_eq_true, if_false, bne_self_eq_false, Bool.and_false]
      rw [heq, frame_add hq hfl, ih _ _ hq' hlast]
      have hidem : ∀ a b c : Bool, (a && b && (c || b)) = (a && b) := by decide
      simp [hidem]

/-! ## Section 3: Allocation -/

/-- What `pgallocz` leaves: a page that was not in use, full of zeros. -/
structure Allocated (arch : Arch) (s : Vme A) (q : Nat) (s' : Vme A) : Prop where
  page   : PageOk arch q
  fresh  : q ∉ s.pages ∧ q ∉ boot_pages arch
  pages  : s'.pages = q :: s.pages
  ptr    : s'.ptr = s.ptr
  kpt    : s'.kpt = s.kpt
  zero   : ∀ i < arch.entries, s'.mem (cell arch q i) = 0
  others : ∀ p, p % pgsize = 0 → p ≠ q → ∀ i < arch.entries,
    s'.mem (cell arch p i) = s.mem (cell arch p i)

/-- The loop of `pgallocz` sets the words at `n` indices. -/
theorem zero_loop (mem : Nat → Nat) (base n a : Nat) :
    (List.range n).foldl (fun mem i => Function.update mem (cell arch base i) 0) mem a =
      if ∃ i < n, a = cell arch base i then 0 else mem a := by
  induction n with
  | zero => simp
  | succ n ih =>
    rw [List.range_succ, List.foldl_append, List.foldl_cons, List.foldl_nil]
    by_cases ha : a = cell arch base n
    · rw [ha, Function.update_self, if_pos ⟨n, by omega, rfl⟩]
    · rw [Function.update_of_ne ha, ih]
      refine if_congr ⟨fun ⟨i, hi, h⟩ => ⟨i, by omega, h⟩, fun ⟨i, hi, h⟩ => ⟨i, ?_, h⟩⟩ rfl rfl
      have hne : i ≠ n := fun hin => ha (hin ▸ h)
      omega

theorem pgallocz_spec {pgalloc : List Nat → Nat} (hok : PgallocOk arch pgalloc)
    (h : pgallocz arch pgalloc s = .ok (q, s')) : Allocated arch s q s' := by
  obtain ⟨u, hne, h⟩ := bind_eq_ok h
  have hne' : pgalloc s.pages ≠ 0 := by
    intro h0
    simp [h0] at hne
  cases h
  have hpage := hok.page s.pages hne'
  refine ⟨hpage, hok.fresh s.pages hne', rfl, rfl, rfl, fun i hi => ?_, fun p hp hpq i hi => ?_⟩
  · show zero arch s.mem (pgalloc s.pages) _ = 0
    unfold zero
    rw [zero_loop, if_pos ⟨i, hi, rfl⟩]
  · show zero arch s.mem (pgalloc s.pages) _ = _
    unfold zero
    rw [zero_loop, if_neg]
    rintro ⟨j, hj, hcell⟩
    exact hpq (cell_inj hp hpage.1 hi hj hcell).1

/-- A fresh page is on no owned path. -/
theorem Allocated.not_table (ha : Allocated arch s q s') (hinv : TablesInv arch K fl Kp s) :
    Radix.Fresh (Own arch K) (s.root arch) (s.child arch) q := by
  intro r path hpath hq
  exact ha.fresh.1 (hinv.tables r path q hpath hq).1

/-- The owned tables keep their words. -/
theorem Allocated.keep (ha : Allocated arch s q s') (hinv : TablesInv arch K fl Kp s)
    (hpath : Own arch K path) (hp : s.table arch r path = some p) (hi : i < arch.entries) :
    s'.mem (cell arch p i) = s.mem (cell arch p i) := by
  have hmem := (hinv.tables r path p hpath hp).1
  refine ha.others p (hinv.pages p hmem).1 ?_ i hi
  rintro rfl
  exact ha.fresh.1 hmem

theorem Allocated.root (ha : Allocated arch s q s') : s'.root arch = s.root arch := by
  funext r
  unfold Vme.root
  rw [ha.ptr]

/-- All owned paths lead where they led. -/
theorem Allocated.table (ha : Allocated arch s q s') (hinv : TablesInv arch K fl Kp s)
    (hpath : Own arch K path) : s'.table arch r path = s.table arch r path := by
  unfold Vme.table
  rw [ha.root]
  refine Radix.node_congr own_front (fun r path p i hown hp => ?_) hpath
  unfold Vme.child
  rw [ha.keep hinv (own_front path i hown) hp (own_last hown)]

/-- The kernel's tables keep their words. -/
theorem Allocated.frozen (ha : Allocated arch s q s') (hinv : TablesInv arch K fl Kp s)
    (hp : p ∈ Kp) (hi : i < arch.entries) : s'.mem (cell arch p i) = s.mem (cell arch p i) := by
  obtain ⟨halign, huse⟩ := hinv.kernel p hp
  refine ha.others p halign ?_ i hi
  rintro rfl
  rcases huse with h | h
  · exact ha.fresh.1 h
  · exact ha.fresh.2 h

theorem Allocated.inv (ha : Allocated arch s q s') (hinv : TablesInv arch K fl Kp s) :
    TablesInv arch K fl Kp s' := by
  -- The fresh page is no table of any root.
  have htable : ∀ r path, Own arch K path → s'.table arch r path = s.table arch r path :=
    fun r path hpath => ha.table hinv hpath
  refine ⟨?_, ?_, ?_, ?_, ?_, ?_⟩
  · intro r₁ r₂ path₁ path₂ x h₁ h₂ hx₁ hx₂
    have hx₁' := (htable r₁ path₁ h₁).symm.trans hx₁
    have hx₂' := (htable r₂ path₂ h₂).symm.trans hx₂
    exact hinv.unshared r₁ r₂ path₁ path₂ x h₁ h₂ hx₁' hx₂'
  · intro r path p hpath hp
    rw [htable r path hpath] at hp
    rw [ha.pages]
    obtain ⟨hmem, hk⟩ := hinv.tables r path p hpath hp
    exact ⟨List.mem_cons_of_mem q hmem, hk⟩
  · intro r path i p hown hp hpresent
    have hpath := own_front path i hown
    rw [htable r path hpath] at hp
    rw [ha.keep hinv hpath hp (own_last hown)] at hpresent ⊢
    exact hinv.interior r path i p hown hp hpresent
  · intro p hp
    rw [ha.pages] at hp
    rcases List.mem_cons.mp hp with rfl | hp
    · exact ha.page
    · exact hinv.pages p hp
  · rw [ha.pages]
    exact List.nodup_cons.mpr ⟨ha.fresh.1, hinv.distinct⟩
  · intro k hk
    obtain ⟨halign, huse⟩ := hinv.kernel k hk
    rw [ha.pages]
    exact ⟨halign, huse.imp_left (List.mem_cons_of_mem q)⟩

/-! ## Section 4: Linking a table -/

/-- An entry of a table of `r` that leads nowhere. -/
structure Gap (arch : Arch) (K : List Nat) (s : Vme A) (r : Option A) (path : List Nat)
    (p i : Nat) : Prop where
  table  : s.table arch r path = some p
  own    : Own arch K (path ++ [i])
  absent : present (s.mem (cell arch p i)) = false

theorem Gap.front (h : Gap arch K s r path p i) : Own arch K path := own_front path i h.own

theorem Gap.last (h : Gap arch K s r path p i) : i < arch.entries := own_last h.own

theorem Gap.before (h : Gap arch K s r path p i) : s.table arch r (path ++ [i]) = none := by
  rw [table_snoc h.table i]
  unfold next_table
  rw [h.absent]
  rfl

theorem Gap.mem_pages (h : Gap arch K s r path p i) (hinv : TablesInv arch K fl Kp s) :
    p ∈ s.pages := (hinv.tables r path p h.front h.table).1

theorem Gap.no_child (h : Gap arch K s r path p i) (ha : Allocated arch s q s')
    (hinv : TablesInv arch K fl Kp s) : s'.child arch p i = none := by
  unfold Vme.child next_table
  rw [ha.keep hinv h.front h.table h.last, h.absent]
  rfl

variable [DecidableEq A]

/-- `q` becomes the table behind entry `i` of `p`. -/
def Vme.linked (arch : Arch) (s : Vme A) (p i v : Nat) : Vme A :=
  s.write v (.mem (cell arch p i))

theorem linked_mem_self (s : Vme A) (p i v : Nat) :
    (s.linked arch p i v).mem (cell arch p i) = v := by
  simp [Vme.linked, Vme.write]

theorem linked_mem_ne {p' j v : Nat} (hp : p % pgsize = 0) (hp' : p' % pgsize = 0)
    (hi : i < arch.entries) (hj : j < arch.entries) (hne : ¬ (p' = p ∧ j = i)) :
    (s.linked arch p i v).mem (cell arch p' j) = s.mem (cell arch p' j) := by
  unfold Vme.linked Vme.write
  refine Function.update_of_ne (fun h => ?_) _ _
  exact hne (cell_inj hp' hp hj hi h)

/-- The link changes one word. -/
theorem Gap.other (h : Gap arch K s r path p i) (hinv : TablesInv arch K fl Kp s) {p' j v : Nat}
    (halign : p' % pgsize = 0) (hj : j < arch.entries) (hne : ¬ (p' = p ∧ j = i)) :
    (s'.linked arch p i v).mem (cell arch p' j) = s'.mem (cell arch p' j) :=
  linked_mem_ne (hinv.pages p (h.mem_pages hinv)).1 halign h.last hj hne

/-- The new table is empty. -/
theorem Gap.zero (h : Gap arch K s r path p i) (ha : Allocated arch s q s')
    (hinv : TablesInv arch K fl Kp s) {v j : Nat} (hj : j < arch.entries) :
    (s'.linked arch p i v).mem (cell arch q j) = 0 := by
  have hqp : q ≠ p := by
    rintro rfl
    exact ha.fresh.1 (h.mem_pages hinv)
  rw [h.other hinv ha.page.1 hj fun heq => hqp heq.1]
  exact ha.zero j hj

theorem Gap.linked (h : Gap arch K s r path p i) (ha : Allocated arch s q s')
    (hinv : TablesInv arch K fl Kp s) (hfl : fl < pgsize) (hpfl : present fl) :
    Radix.Linked (Own arch K) (s'.root arch) (s'.child arch)
      ((s'.linked arch p i (q + fl)).child arch) path p i q := by
  have hinv' := ha.inv hinv
  refine ⟨?_, fun j hj => ?_, fun r' path' p' j hown' hp' hne => ?_⟩
  · show next_table arch ((s'.linked arch p i (q + fl)).mem (cell arch p i)) = some q
    rw [linked_mem_self, next_table_add ha.page hfl hpfl]
  · show next_table arch ((s'.linked arch p i (q + fl)).mem (cell arch q j)) = none
    rw [h.zero ha hinv (own_last hj), next_table_zero]
  · show next_table arch ((s'.linked arch p i (q + fl)).mem (cell arch p' j)) = _
    have hmem := (hinv'.tables r' path' p' (own_front path' j hown') hp').1
    rw [h.other hinv (hinv'.pages p' hmem).1 (own_last hown') hne]
    rfl

/-- Where the paths lead now. -/
theorem Gap.tables (h : Gap arch K s r path p i) (ha : Allocated arch s q s')
    (hinv : TablesInv arch K fl Kp s) (hfl : fl < pgsize) (hpfl : present fl) {r' : Option A}
    {path' : List Nat} (hpath' : Own arch K path') :
    (s'.linked arch p i (q + fl)).table arch r' path' =
      if r' = r ∧ path' = path ++ [i] then some q else s'.table arch r' path' :=
  Radix.node_link own_front (ha.inv hinv).unshared ((ha.table hinv h.front).trans h.table) h.own
    (h.no_child ha hinv) (h.linked ha hinv hfl hpfl) hpath'

theorem link_inv (h : Gap arch K s r path p i) (ha : Allocated arch s q s')
    (hinv : TablesInv arch K fl Kp s) (hfl : fl < pgsize) (hpfl : present fl) :
    TablesInv arch K fl Kp (s'.linked arch p i (q + fl)) := by
  have hinv' := ha.inv hinv
  have hfresh : Radix.Fresh (Own arch K) (s'.root arch) (s'.child arch) q := by
    intro r' path' hpath' hq
    have hq' := (ha.table (r := r') hinv hpath').symm.trans hq
    exact ha.not_table hinv r' path' hpath' hq'
  refine ⟨?_, ?_, ?_, hinv'.pages, hinv'.distinct, hinv'.kernel⟩
  · exact hinv'.unshared.link own_front ((ha.table hinv h.front).trans h.table) h.own
      (h.no_child ha hinv) hfresh (h.linked ha hinv hfl hpfl)
  · intro r' path' x hpath' hx
    rw [h.tables ha hinv hfl hpfl hpath'] at hx
    split at hx
    · cases hx
      refine ⟨?_, fun hk => ?_⟩
      · show q ∈ s'.pages
        rw [ha.pages]; exact List.mem_cons_self
      · rcases (hinv.kernel q hk).2 with hin | hin
        · exact ha.fresh.1 hin
        · exact ha.fresh.2 hin
    · exact hinv'.tables r' path' x hpath' hx
  · intro r' path' j x hown' hx hpresent
    rw [h.tables ha hinv hfl hpfl (own_front path' j hown')] at hx
    split at hx
    · cases hx
      rw [h.zero ha hinv (own_last hown')] at hpresent
      cases hpresent
    · by_cases hcell : x = p ∧ j = i
      · obtain ⟨rfl, rfl⟩ := hcell
        exact ⟨q, ha.page, linked_mem_self s' x j _⟩
      · have hmem := (hinv'.tables r' path' x (own_front path' j hown') hx).1
        have hsame : (s'.linked arch p i (q + fl)).mem (cell arch x j) = s'.mem (cell arch x j) :=
          h.other hinv (hinv'.pages x hmem).1 (own_last hown') hcell
        rw [hsame] at hpresent
        obtain ⟨y, hy, heq⟩ := hinv'.interior r' path' j x hown' hx hpresent
        exact ⟨y, hy, hsame.trans heq⟩

theorem link_keeps (h : Gap arch K s r path p i) (ha : Allocated arch s q s')
    (hinv : TablesInv arch K fl Kp s) : Keeps arch K Kp s (s'.linked arch p i (q + fl)) := by
  refine ⟨ha.kpt, ?_, ?_, ?_⟩
  · intro k hk j hj
    obtain ⟨halign, -⟩ := hinv.kernel k hk
    rw [h.other hinv halign hj, ha.frozen hinv hk hj]
    rintro ⟨rfl, -⟩
    exact (hinv.tables r path k h.front h.table).2 hk
  · intro r' _
    show s'.ptr r' = s.ptr r'
    rw [ha.ptr]
  · intro r' x hx j hj hlt
    have hnil : Own arch K [] := own_nil arch K
    have hx' : s.table arch r' [] = some x := (table_nil _ _).trans hx
    have hmem := (hinv.tables r' [] x hnil hx').1
    rw [h.other hinv (hinv.pages x hmem).1 hlt, ha.keep hinv hnil hx' hlt]
    rintro ⟨rfl, rfl⟩
    -- A shared slot is not at the start of an owned path.
    obtain ⟨-, rfl⟩ := hinv.unshared _ _ _ _ _ hnil h.front hx' h.table
    exact h.own.2.2 j rfl hj

/-- No last-level entry changes. -/
theorem link_entries (h : Gap arch K s r path p i) (ha : Allocated arch s q s')
    (hinv : TablesInv arch K fl Kp s) (hfl : fl < pgsize) (hpfl : present fl) (r' : Option A)
    (path' : List Nat) (j : Nat) (hlast : Last arch K path') (hj : j < arch.entries) :
    (s'.linked arch p i (q + fl)).entry arch r' path' j = s.entry arch r' path' j := by
  unfold Vme.entry
  rw [h.tables ha hinv hfl hpfl hlast.1]
  by_cases hnew : r' = r ∧ path' = path ++ [i]
  · -- The table is new: its entries are 0, as if it did not exist.
    obtain ⟨rfl, rfl⟩ := hnew
    rw [if_pos ⟨rfl, rfl⟩, h.before]
    exact h.zero ha hinv hj
  · rw [if_neg hnew, ha.table hinv hlast.1]
    cases hx : s.table arch r' path' with
    | none => rfl
    | some x =>
      have hmem := (hinv.tables r' path' x hlast.1 hx).1
      show (s'.linked arch p i (q + fl)).mem (cell arch x j) = s.mem (cell arch x j)
      rw [h.other hinv (hinv.pages x hmem).1 hj, ha.keep hinv hlast.1 hx hj]
      rintro ⟨rfl, rfl⟩
      -- The linked entry is not in a last-level table.
      obtain ⟨-, rfl⟩ := hinv.unshared _ _ _ _ _ hlast.1 h.front hx h.table
      have hlen := h.own.1
      have hlen' := hlast.2
      simp at hlen
      omega

theorem link_allots (h : Gap arch K s r path p i) (ha : Allocated arch s q s')
    (hinv : TablesInv arch K fl Kp s) (hfl : fl < pgsize) (hpfl : present fl) :
    Allots arch K r [q] s (s'.linked arch p i (q + fl)) := by
  refine ⟨ha.pages, fun r' x => ⟨?_, ?_⟩⟩
  · rintro ⟨path', hpath', hx⟩
    rw [h.tables ha hinv hfl hpfl hpath'] at hx
    split at hx
    · rename_i hnew
      cases hx
      exact Or.inr ⟨hnew.1, List.mem_singleton_self q⟩
    · rw [ha.table hinv hpath'] at hx
      exact Or.inl ⟨path', hpath', hx⟩
  · rintro (⟨path', hpath', hx⟩ | ⟨rfl, hx⟩)
    · refine ⟨path', hpath', (h.tables ha hinv hfl hpfl hpath').trans ?_⟩
      rw [if_neg, ha.table hinv hpath', hx]
      rintro ⟨rfl, rfl⟩
      rw [h.before] at hx
      cases hx
    · rw [List.mem_singleton.mp hx]
      refine ⟨path ++ [i], h.own, (h.tables ha hinv hfl hpfl h.own).trans ?_⟩
      rw [if_pos ⟨rfl, rfl⟩]

/-- Step lemma of `ptwalk`: a fresh table behind an entry that was not present
    keeps the invariant, and only grows the trees. -/
theorem link_step (ha : Allocated arch s q s') (hinv : TablesInv arch K fl Kp s)
    (h : Gap arch K s r path p i) (hfl : fl < pgsize) (hpfl : present fl) :
    TablesInv arch K fl Kp (s'.linked arch p i (q + fl)) ∧
      Grows arch K Kp s (s'.linked arch p i (q + fl)) ∧
      Allots arch K r [q] s (s'.linked arch p i (q + fl)) ∧
      (s'.linked arch p i (q + fl)).table arch r (path ++ [i]) = some q := by
  refine ⟨link_inv h ha hinv hfl hpfl, ⟨link_keeps h ha hinv, ?_⟩,
    link_allots h ha hinv hfl hpfl, ?_⟩
  · exact link_entries h ha hinv hfl hpfl
  · rw [h.tables ha hinv hfl hpfl h.own, if_pos ⟨rfl, rfl⟩]

/-! ## Section 5: Planting a tree -/

/-- `q` becomes the root of `r`; `t` differs from the state after the
    allocation in the root and in the shared slots of the new table. -/
structure Rooted (arch : Arch) (K : List Nat) (s' : Vme A) (r : Option A) (q f : Nat)
    (t : Vme A) : Prop where
  ptr    : t.ptr = Function.update s'.ptr r (some (q + f))
  kpt    : t.kpt = s'.kpt
  pages  : t.pages = s'.pages
  zero   : ∀ i < arch.entries, i ∉ K → t.mem (cell arch q i) = 0
  others : ∀ p, p % pgsize = 0 → p ≠ q → ∀ i < arch.entries,
    t.mem (cell arch p i) = s'.mem (cell arch p i)

/-- A fresh root keeps the invariant; its tree has no other tables. -/
theorem root_step {t : Vme A} {f : Nat} (ha : Allocated arch s q s')
    (hinv : TablesInv arch K fl Kp s) (ht : Rooted arch K s' r q f t) (hf : f < pgsize)
    (hpf : present f) :
    TablesInv arch K fl Kp t ∧ t.root arch r = some q ∧
      (∀ r', r' ≠ r → t.root arch r' = s.root arch r') ∧
      ∀ r' path', Own arch K path' → t.table arch r' path' =
        if r' = r then (if path' = [] then some q else none) else s.table arch r' path' := by
  have hinv' := ha.inv hinv
  -- No table is the new root yet.
  have hfresh : Radix.Fresh (Own arch K) (s'.root arch) (s'.child arch) q := by
    intro r' path' hpath' hq
    have hq' := (ha.table (r := r') hinv hpath').symm.trans hq
    exact ha.not_table hinv r' path' hpath' hq'
  have hroot : t.root arch r = some q := by
    unfold Vme.root
    rw [ht.ptr, Function.update_self]
    exact next_table_add ha.page hf hpf
  have hroots : ∀ r', r' ≠ r → t.root arch r' = s'.root arch r' := by
    intro r' hr'
    unfold Vme.root
    rw [ht.ptr, Function.update_of_ne hr']
  -- The entries of all other tables are as before.
  have hother : ∀ r' path' p' j, Own arch K (path' ++ [j]) → s'.table arch r' path' = some p' →
      t.mem (cell arch p' j) = s'.mem (cell arch p' j) := by
    intro r' path' p' j hown hp'
    have hmem := (hinv'.tables r' path' p' (own_front path' j hown) hp').1
    refine ht.others p' (hinv'.pages p' hmem).1 ?_ j (own_last hown)
    rintro rfl
    exact hfresh r' path' (own_front path' j hown) hp'
  have hplant : Radix.Planted (Own arch K) (s'.root arch) (t.root arch) (s'.child arch)
      (t.child arch) r q := by
    refine ⟨hroot, hroots, fun j hj => ?_, fun r' path' p' j hown hp' => ?_⟩
    · show next_table arch (t.mem (cell arch q j)) = none
      have hj' : Own arch K ([] ++ [j]) := hj
      rw [ht.zero j (own_last hj') (hj.2.2 j rfl), next_table_zero]
    · show next_table arch (t.mem (cell arch p' j)) = next_table arch (s'.mem (cell arch p' j))
      rw [hother r' path' p' j hown hp']
  -- The new root has no table below it, and the other roots keep theirs.
  have htable : ∀ r' path', Own arch K path' → t.table arch r' path' =
      if r' = r then (if path' = [] then some q else none) else s'.table arch r' path' :=
    fun r' path' hpath' => Radix.node_plant own_front hplant hpath'
  refine ⟨⟨hinv'.unshared.plant own_front hfresh hplant, ?_, ?_, ?_, ?_, ?_⟩, hroot, ?_, ?_⟩
  · intro r' path' x hpath' hx
    rw [htable r' path' hpath'] at hx
    rw [ht.pages]
    split at hx
    · split at hx
      · cases hx
        refine ⟨by rw [ha.pages]; exact List.mem_cons_self, fun hk => ?_⟩
        rcases (hinv.kernel q hk).2 with h | h
        · exact ha.fresh.1 h
        · exact ha.fresh.2 h
      · cases hx
    · exact hinv'.tables r' path' x hpath' hx
  · intro r' path' j x hown hx hpresent
    rw [htable r' path' (own_front path' j hown)] at hx
    split at hx
    · split at hx
      · rename_i hnil
        cases hx
        subst hnil
        rw [ht.zero j (own_last hown) (hown.2.2 j rfl)] at hpresent
        cases hpresent
      · cases hx
    · rw [hother r' path' x j hown hx] at hpresent ⊢
      exact hinv'.interior r' path' j x hown hx hpresent
  · rw [ht.pages]; exact hinv'.pages
  · rw [ht.pages]; exact hinv'.distinct
  · rw [ht.pages]; exact hinv'.kernel
  · intro r' hr'
    rw [hroots r' hr', ha.root]
  · intro r' path' hpath'
    rw [htable r' path' hpath', ha.table hinv hpath']

/-- The tables after a root is planted: `r` has lost those it had. -/
theorem root_tables {t : Vme A} (htable : ∀ r' path', Own arch K path' → t.table arch r' path' =
    if r' = r then (if path' = [] then some q else none) else s.table arch r' path') (r' : Option A)
    (x : Nat) : t.IsTable arch K r' x ↔ if r' = r then x = q else s.IsTable arch K r' x := by
  unfold Vme.IsTable
  by_cases hr : r' = r
  · rw [if_pos hr]
    constructor
    · rintro ⟨path', hpath', hx⟩
      rw [htable r' path' hpath', if_pos hr] at hx
      split at hx
      · exact (Option.some.inj hx).symm
      · cases hx
    · rintro rfl
      refine ⟨[], own_nil arch K, ?_⟩
      rw [htable r' [] (own_nil arch K), if_pos hr, if_pos rfl]
  · rw [if_neg hr]
    refine exists_congr fun path' => and_congr_right fun hpath' => ?_
    rw [htable r' path' hpath', if_neg hr]

/-! ## Section 6: `ptwalk` -/

/-- The flags of the entries that `ptwalk` writes. -/
theorem table_entry {flags : Nat} (hq : PageOk arch q) (hfl : PTE_P ||| flags < pgsize) :
    q ||| PTE_P ||| flags = q + (PTE_P ||| flags) := by
  rw [Nat.or_assoc, or_flags hq.1 hfl]

/-- The loop of `ptwalk` ends at the entry of its address in a last-level
    table; on its way it only adds tables. -/
theorem ptwalk_loop_spec {pgalloc : List Nat → Nat} (hok : PgallocOk arch pgalloc)
    {addr flags : Nat} (hfl : PTE_P ||| flags < pgsize) (hpfl : present (PTE_P ||| flags))
    {infos : List PtInfo} {ls : List HwLevel} (hdesc : List.Forall₂ PtInfo.Describes infos ls)
    {s : Vme A} {path : List Nat} {p : Nat} {loc : Loc A}
    (hinv : TablesInv arch K (PTE_P ||| flags) Kp s) (hp : s.table arch r path = some p)
    (hlast : Last arch K (path ++ (ls.map fun l => l.index addr).dropLast))
    (h : ptwalk_loop arch pgalloc addr flags infos (.mem p) s = .ok (loc, s')) :
    TablesInv arch K (PTE_P ||| flags) Kp s' ∧ Grows arch K Kp s s' ∧
      (∃ new, Allots arch K r new s s') ∧ ∃ pt i, (ls.map fun l => l.index addr).getLast? = some i ∧
        s'.table arch r (path ++ (ls.map fun l => l.index addr).dropLast) = some pt ∧
        loc = .mem (cell arch pt i) := by
  induction hdesc generalizing s path p with
  | nil => cases h
  | @cons info l infos ls hinfo hrest ih =>
    cases hrest with
    | nil =>
      -- The last level: the walk ends at this entry.
      cases h
      refine ⟨hinv, Grows.refl _, ⟨[], Allots.refl r _⟩, p, l.index addr, rfl, ?_, ?_⟩
      · simpa using hp
      · show Loc.mem (cell arch p (indexof addr info)) = _
        rw [indexof_eq hinfo]
    | @cons info' l' infos ls hinfo' hrest =>
      -- One more level: the path gets one index longer.
      have hfront : path ++ ((l :: l' :: ls).map fun l => l.index addr).dropLast =
          (path ++ [l.index addr]) ++ ((l' :: ls).map fun l => l.index addr).dropLast := by simp
      have hget : ((l :: l' :: ls).map fun l => l.index addr).getLast? =
          ((l' :: ls).map fun l => l.index addr).getLast? := by simp
      rw [hfront] at hlast ⊢
      rw [hget]
      have hown : Own arch K (path ++ [l.index addr]) := own_of_append hlast.1
      obtain ⟨v, hv, h⟩ := bind_eq_ok h
      obtain rfl : s.mem (cell arch p (l.index addr)) = v := by
        rw [← indexof_eq hinfo]
        exact Except.ok.inj hv
      rw [indexof_eq hinfo] at h
      cases hpres : present (s.mem (cell arch p (l.index addr))) with
      | false =>
        -- A new table is linked here, and the walk goes on in it.
        rw [if_pos (by simp [hpres])] at h
        obtain ⟨⟨q, s₁⟩, halloc, h⟩ := bind_eq_ok h
        have ha := pgallocz_spec hok halloc
        obtain ⟨hinv₂, hgrow, hallot, hq⟩ := link_step ha hinv ⟨hp, hown, hpres⟩ hfl hpfl
        have hwrite : s₁.write (q ||| PTE_P ||| flags) (.mem (cell arch p (l.index addr))) =
            s₁.linked arch p (l.index addr) (q + (PTE_P ||| flags)) := by
          rw [table_entry ha.page hfl]
          rfl
        have h' : ptwalk_loop arch pgalloc addr flags (info' :: infos) (.mem q)
            (s₁.write (q ||| PTE_P ||| flags) (.mem (cell arch p (l.index addr)))) =
              .ok (loc, s') := h
        rw [hwrite] at h'
        obtain ⟨hinv', hgrow', ⟨new, hallot'⟩, hloc⟩ := ih hinv₂ hq hlast h'
        exact ⟨hinv', hgrow.trans hgrow', ⟨_, hallot.trans hallot'⟩, hloc⟩
      | true =>
        rw [if_neg (by simp [hpres])] at h
        refine ih hinv ?_ hlast h
        rw [table_snoc hp (l.index addr)]
        unfold next_table
        rw [if_pos hpres]

omit [DecidableEq A] in
theorem root_none {v : Nat} (hptr : s.ptr r = some v) (hpres : present v = false) :
    s.root arch r = none := by
  unfold Vme.root
  rw [hptr]
  show next_table arch v = none
  unfold next_table
  rw [hpres]
  rfl

omit [DecidableEq A] in
theorem table_none (hnone : s.root arch r = none) (path : List Nat) :
    s.table arch r path = none := by
  unfold Vme.table Radix.node
  rw [hnone]
  rfl

section planted
variable {t : Vme A} {f v : Nat}

/-- To plant a tree where there was none changes no other one. -/
theorem root_keeps (ha : Allocated arch s q s') (hinv : TablesInv arch K fl Kp s)
    (hptr : s.ptr r = some v) (hnone : s.root arch r = none) (ht : Rooted arch K s' r q f t)
    (hmem : ∀ p i, t.mem (cell arch p i) = s'.mem (cell arch p i)) : Keeps arch K Kp s t := by
  refine ⟨ht.kpt.trans ha.kpt, fun k hk i hi => (hmem k i).trans (ha.frozen hinv hk hi),
    fun r' hr' => ?_, fun r' p hp i _ hi => ?_⟩
  · have hne : r' ≠ r := by
      rintro rfl
      rcases hr' with h | h
      · rw [hptr] at h
        cases h
      · exact h hnone
    rw [ht.ptr, Function.update_of_ne hne, ha.ptr]
  · have hp' : s.table arch r' [] = some p := (table_nil _ _).trans hp
    exact (hmem p i).trans (ha.keep hinv (own_nil arch K) hp' hi)

/-- The new tree has no last-level table yet. -/
theorem root_entries (ha : Allocated arch s q s') (hinv : TablesInv arch K fl Kp s)
    (hnone : s.root arch r = none)
    (hmem : ∀ p i, t.mem (cell arch p i) = s'.mem (cell arch p i))
    (htable : ∀ r' path', Own arch K path' → t.table arch r' path' =
      if r' = r then (if path' = [] then some q else none) else s.table arch r' path')
    (r' : Option A) {path' : List Nat} {i : Nat} (hl : Last arch K path') (hi : i < arch.entries) :
    t.entry arch r' path' i = s.entry arch r' path' i := by
  unfold Vme.entry
  rw [htable r' path' hl.1]
  by_cases hr' : r' = r
  · subst hr'
    rw [if_pos rfl, if_neg (front_ne_nil hl), table_none hnone]
  · rw [if_neg hr']
    cases hx : s.table arch r' path' with
    | none => rfl
    | some x => exact (hmem x i).trans (ha.keep hinv hl.1 hx hi)

/-- The page of the new root belongs to `r`. -/
theorem root_allots (ha : Allocated arch s q s') (hnone : s.root arch r = none)
    (ht : Rooted arch K s' r q f t)
    (htable : ∀ r' path', Own arch K path' → t.table arch r' path' =
      if r' = r then (if path' = [] then some q else none) else s.table arch r' path') :
    Allots arch K r [q] s t := by
  refine ⟨ht.pages.trans ha.pages, fun r' x => ?_⟩
  rw [root_tables htable r' x]
  by_cases hr' : r' = r
  · subst hr'
    rw [if_pos rfl, List.mem_singleton]
    constructor
    · intro hx
      exact Or.inr ⟨rfl, hx⟩
    · rintro (⟨path', -, hx⟩ | ⟨-, hx⟩)
      · rw [table_none hnone] at hx
        cases hx
      · exact hx
  · rw [if_neg hr']
    simp [hr']

end planted

/-- From a root on, the loop of `ptwalk` does the rest. -/
theorem ptwalk_from_root {pgalloc : List Nat → Nat} (hok : PgallocOk arch pgalloc)
    {addr flags : Nat} (hfl : PTE_P ||| flags < pgsize) (hpfl : present (PTE_P ||| flags))
    {infos : List PtInfo} (hdesc : List.Forall₂ PtInfo.Describes infos arch.hwLevels)
    {loc : Loc A} {p : Nat} (hinv : TablesInv arch K (PTE_P ||| flags) Kp s)
    (hlast : Last arch K (front arch addr)) (hroot : s.root arch r = some p)
    (h : ptwalk_loop arch pgalloc addr flags infos (.mem p) s = .ok (loc, s')) :
    TablesInv arch K (PTE_P ||| flags) Kp s' ∧ Grows arch K Kp s s' ∧
      (∃ new, Allots arch K r new s s') ∧ ∃ pt, s'.table arch r (front arch addr) = some pt ∧
        loc = .mem (cell arch pt (lastIndex arch addr)) := by
  have hp : s.table arch r [] = some p := (table_nil _ _).trans hroot
  obtain ⟨hinv', hgrow, hallot, pt, i, hi, hpt', hloc⟩ :=
    ptwalk_loop_spec hok hfl hpfl hdesc hinv hp hlast h
  have hi' := (getLast?_digits arch addr).symm.trans hi
  cases hi'
  exact ⟨hinv', hgrow, hallot, pt, hpt', hloc⟩

/-- `ptwalk` returns the entry of its address, and only grows the trees; for a
    field that holds no table it plants one. -/
theorem ptwalk_spec {pgalloc : List Nat → Nat} (hok : PgallocOk arch pgalloc)
    {addr flags : Nat} (hfl : PTE_P ||| flags < pgsize) (hpfl : present (PTE_P ||| flags))
    {loc : Loc A} (hinv : TablesInv arch K (PTE_P ||| flags) Kp s)
    (hlast : Last arch K (front arch addr))
    (h : ptwalk arch pgalloc r addr flags s = .ok (loc, s')) :
    TablesInv arch K (PTE_P ||| flags) Kp s' ∧ Grows arch K Kp s s' ∧
      (∃ new, Allots arch K r new s s') ∧ ∃ pt, s'.table arch r (front arch addr) = some pt ∧
        loc = .mem (cell arch pt (lastIndex arch addr)) := by
  obtain ⟨cr3, infos, hpt, hdesc, -⟩ := pgtables_describe arch
  unfold ptwalk at h
  rw [hpt] at h
  obtain ⟨info, infos, rfl⟩ : ∃ info infos', infos = info :: infos' := by
    cases infos with
    | nil =>
      have hlen := hdesc.length_eq
      cases arch <;> simp [Arch.hwLevels] at hlen
    | cons info infos => exact ⟨info, infos, rfl⟩
  obtain ⟨v, hv, h⟩ := bind_eq_ok h
  have hptr : s.ptr r = some v := read_ptr hv
  cases hpres : present v with
  | true =>
    rw [if_neg (by simp [hpres])] at h
    refine ptwalk_from_root hok hfl hpfl hdesc hinv hlast ?_ h
    unfold Vme.root
    rw [hptr]
    show next_table arch v = _
    unfold next_table
    rw [if_pos hpres]
  | false =>
    -- There is no root yet, so a page becomes one.
    rw [if_pos (by simp [hpres])] at h
    obtain ⟨⟨q, s₁⟩, halloc, h⟩ := bind_eq_ok h
    have ha := pgallocz_spec hok halloc
    have hnone : s.root arch r = none := root_none hptr hpres
    let t := s₁.write (q ||| PTE_P ||| flags) (.ptr r)
    have ht : Rooted arch K s₁ r q (PTE_P ||| flags) t := by
      refine ⟨?_, rfl, rfl, fun i hi _ => ha.zero i hi, fun _ _ _ _ _ => rfl⟩
      show Function.update s₁.ptr r (some (q ||| PTE_P ||| flags)) = _
      rw [table_entry ha.page hfl]
    obtain ⟨hinv₁, hroot, hroots, htable⟩ := root_step ha hinv ht hfl hpfl
    have hgrow : Grows arch K Kp s t :=
      ⟨root_keeps ha hinv hptr hnone ht fun _ _ => rfl, fun r' path' i hl hi =>
        root_entries (t := t) ha hinv hnone (fun _ _ => rfl) htable r' hl hi⟩
    have hallot : Allots arch K r [q] s t := root_allots ha hnone ht htable
    obtain ⟨hinv', hgrow', ⟨new, hallot'⟩, hloc⟩ :=
      ptwalk_from_root hok hfl hpfl hdesc hinv₁ hlast hroot h
    exact ⟨hinv', hgrow.trans hgrow', ⟨_, hallot.trans hallot'⟩, hloc⟩

/-- Writing a last-level entry changes that entry only. -/
theorem write_entry {pt v : Nat} (hinv : TablesInv arch K fl Kp s) (hlast : Last arch K path)
    (hpt : s.table arch r path = some pt) (hi : i < arch.entries) :
    TablesInv arch K fl Kp (s.write v (.mem (cell arch pt i))) ∧
      Keeps arch K Kp s (s.write v (.mem (cell arch pt i))) ∧
      (∀ r' x, (s.write v (.mem (cell arch pt i))).IsTable arch K r' x ↔ s.IsTable arch K r' x) ∧
      ∀ r' path' j, Last arch K path' → j < arch.entries →
        (s.write v (.mem (cell arch pt i))).entry arch r' path' j =
          if r' = r ∧ path' = path ∧ j = i then v else s.entry arch r' path' j := by
  have hmem := (hinv.tables r path pt hlast.1 hpt).1
  have halign := (hinv.pages pt hmem).1
  let t := s.linked arch pt i v
  have hother : ∀ p' j, p' % pgsize = 0 → j < arch.entries → ¬ (p' = pt ∧ j = i) →
      t.mem (cell arch p' j) = s.mem (cell arch p' j) :=
    fun p' j halign' hj hne => linked_mem_ne halign halign' hi hj hne
  -- The entries that lead to tables are elsewhere.
  have hinner : ∀ r' path' p' j, Own arch K (path' ++ [j]) → s.table arch r' path' = some p' →
      t.mem (cell arch p' j) = s.mem (cell arch p' j) := by
    intro r' path' p' j hown hp'
    have hmem' := (hinv.tables r' path' p' (own_front path' j hown) hp').1
    refine hother p' j (hinv.pages p' hmem').1 (own_last hown) ?_
    rintro ⟨rfl, -⟩
    obtain ⟨-, rfl⟩ := hinv.unshared _ _ _ _ _ (own_front path' j hown) hlast.1 hp' hpt
    have hlen := hown.1
    have hlen' := hlast.2
    simp at hlen
    omega
  have htable : ∀ r' path', Own arch K path' → t.table arch r' path' = s.table arch r' path' := by
    intro r' path' hpath'
    refine Radix.node_congr own_front (fun r' path' p' j hown hp' => ?_) hpath'
    show next_table arch (t.mem (cell arch p' j)) = next_table arch (s.mem (cell arch p' j))
    rw [hinner r' path' p' j hown hp']
  refine ⟨⟨?_, ?_, ?_, hinv.pages, hinv.distinct, hinv.kernel⟩, ⟨rfl, ?_, fun _ _ => rfl, ?_⟩,
    fun r' x => ?_, ?_⟩
  · intro r₁ r₂ path₁ path₂ x h₁ h₂ hx₁ hx₂
    have hx₁' := (htable r₁ path₁ h₁).symm.trans hx₁
    have hx₂' := (htable r₂ path₂ h₂).symm.trans hx₂
    exact hinv.unshared r₁ r₂ path₁ path₂ x h₁ h₂ hx₁' hx₂'
  · intro r' path' x hpath' hx
    have hx' := (htable r' path' hpath').symm.trans hx
    exact hinv.tables r' path' x hpath' hx'
  · intro r' path' j x hown hx hpresent
    have hx' := (htable r' path' (own_front path' j hown)).symm.trans hx
    have hsame := hinner r' path' x j hown hx'
    have hpresent' : present (t.mem (cell arch x j)) = true := hpresent
    rw [hsame] at hpresent'
    obtain ⟨y, hy, heq⟩ := hinv.interior r' path' j x hown hx' hpresent'
    exact ⟨y, hy, hsame.trans heq⟩
  · intro k hk j hj
    refine hother k j (hinv.kernel k hk).1 hj ?_
    rintro ⟨rfl, -⟩
    exact (hinv.tables r path k hlast.1 hpt).2 hk
  · intro r' p hp j _ hj
    have hp' : s.table arch r' [] = some p := (table_nil _ _).trans hp
    have hmem' := (hinv.tables r' [] p (own_nil arch K) hp').1
    refine hother p j (hinv.pages p hmem').1 hj ?_
    rintro ⟨rfl, -⟩
    obtain ⟨-, rfl⟩ := hinv.unshared _ _ _ _ _ (own_nil arch K) hlast.1 hp' hpt
    exact front_ne_nil hlast rfl
  · refine exists_congr fun path' => and_congr_right fun hpath' => ?_
    rw [show (s.write v (.mem (cell arch pt i))).table arch r' path' =
      _ from htable r' path' hpath']
  · intro r' path' j hlast' hj
    show t.entry arch r' path' j = _
    unfold Vme.entry
    rw [htable r' path' hlast'.1]
    by_cases hsame : r' = r ∧ path' = path ∧ j = i
    · obtain ⟨rfl, rfl, rfl⟩ := hsame
      rw [if_pos ⟨rfl, rfl, rfl⟩, hpt]
      exact linked_mem_self s pt j v
    · rw [if_neg hsame]
      cases hx : s.table arch r' path' with
      | none => rfl
      | some x =>
        have hmem' := (hinv.tables r' path' x hlast'.1 hx).1
        refine hother x j (hinv.pages x hmem').1 hj ?_
        rintro ⟨rfl, rfl⟩
        obtain ⟨rfl, rfl⟩ := hinv.unshared _ _ _ _ _ hlast'.1 hlast.1 hx hpt
        exact hsame ⟨rfl, rfl, rfl⟩

end tables

end Am.X86
