import IcsPa.Am.AddrSpace
import IcsPa.Framework.Chain
import IcsPa.Framework.Fault
import Mathlib.Data.List.Induction
import Mathlib.Data.List.Perm.Subperm

/-! # Native address spaces

    `abstract-machine/am/src/native/vme.c`.  An address space is a singly
    linked list of `PageMap` nodes behind a head node, whose address is also
    the key of the space; `__am_switch` replaces the mappings of one list in
    the host process by those of another. -/

open CCall Chain

set_option linter.style.nameCheck false

namespace Am.Native

/-! ## Section 1: The code -/

structure PageMap where
  va        : Nat
  pa        : Nat
  next      : Option Nat
  prot      : Nat
  is_mapped : Bool
  deriving DecidableEq, Repr

structure AddrSpace where
  pgsize : Nat
  area   : Area
  ptr    : Option Nat

/-- A page of `pmem_fd` in the address space of the host process. -/
structure HostPage where
  pa         : Nat
  prot_read  : Bool
  prot_exec  : Bool
  prot_write : Bool
  deriving DecidableEq, Repr

/-- The page size, and whether the `mmap` of the host succeeds for a `va`, a
    `pa` and a `prot`. -/
structure Platform where
  __am_pgsize : Nat
  mmap_ok     : Nat → Nat → Nat → Bool

/-- The memory that `vme.c` uses.  The pages of `pgalloc` are numbered in the
    order of their allocation, and a pointer to a node is the number of its
    page. -/
structure Vme (A : Type) where
  vme_enable : Bool
  page       : Nat → PageMap
  brk        : Nat
  space      : A → AddrSpace
  vm_head    : Option Nat
  host       : Nat → Option HostPage

def USER_SPACE : Area := ⟨0x40000000, 0xc0000000⟩

def zeroPage : PageMap := ⟨0, 0, none, 0, false⟩

namespace Vme
variable {A : Type}

def next (s : Vme A) (p : Nat) : Option Nat := (s.page p).next

/-- `*pp = page`. -/
def write (s : Vme A) (pp : Nat) (page : PageMap) : Vme A :=
  { s with page := Function.update s.page pp page }

@[simp] theorem write_self (s : Vme A) (pp : Nat) (page : PageMap) :
    (s.write pp page).page pp = page := by
  simp [write]

theorem write_ne (s : Vme A) {p pp : Nat} (page : PageMap) (h : p ≠ pp) :
    (s.write pp page).page p = s.page p := by
  simp [write, Function.update_of_ne h]

theorem write_next (s : Vme A) (pp : Nat) (page : PageMap) :
    (s.write pp page).next = Function.update s.next pp page.next := by
  funext p
  by_cases hp : p = pp
  · subst hp; simp [next]
  · simp [next, write_ne s page hp, Function.update_of_ne hp]

end Vme

section code
variable {A : Type} [DecidableEq A] (P : Platform)

/-- `pgalloc` after `vme_init`: a fresh zeroed page. -/
def pgalloc (s : Vme A) : Nat × Vme A :=
  (s.brk, { s.write s.brk zeroPage with brk := s.brk + 1 })

/-- The state that `vme_init` leaves at start-up. -/
def vme_init : Vme A where
  vme_enable := true
  page _ := zeroPage
  brk := 0
  space _ := ⟨0, ⟨0, 0⟩, none⟩
  vm_head := none
  host _ := none

def protect (as : A) (s : Vme A) : Vme A :=
  let (ptr, s) := pgalloc s
  { s with space := Function.update s.space as ⟨P.__am_pgsize, USER_SPACE, some ptr⟩ }

def __am_pmem_map (va pa prot : Nat) (s : Vme A) : Except Fault (Vme A) := do
  let readable := prot &&& MMAP_READ != 0
  let writable := prot &&& MMAP_WRITE != 0
  cassert (P.mmap_ok va pa prot)
  return { s with host := Function.update s.host va (some ⟨pa, readable, readable, writable⟩) }

def __am_pmem_unmap (va : Nat) (s : Vme A) : Vme A :=
  { s with host := Function.update s.host va none }

/-- The two statements by which a node gets mapped in the host. -/
def map_now (pp : Nat) (s : Vme A) : Except Fault (Vme A) := do
  let s ← __am_pmem_map P (s.page pp).va (s.page pp).pa (s.page pp).prot s
  return s.write pp { s.page pp with is_mapped := true }

/-- `list_foreach`, broken off at the first node with `va`. -/
def find_va (vm_head va : Nat) (s : Vme A) : Except Fault (Option Nat) :=
  -- A list of distinct nodes has at most one node for each allocated page.
  match search s.next (fun pp => (s.page pp).va == va) s.brk (s.next vm_head) with
  | some pp => .ok pp
  | none => .error .diverges

/-- The assignments that fill `pp` and put it behind `vm_head`. -/
def link_node (vm_head pp va pa prot : Nat) (s : Vme A) : Vme A :=
  let s := s.write pp ⟨va, pa, s.next vm_head, prot, false⟩
  s.write vm_head { s.page vm_head with next := some pp }

def map (as : A) (va pa prot : Nat) (s : Vme A) : Except Fault (Vme A) := do
  cassert (USER_SPACE.IN_RANGE va)
  cassert (va % P.__am_pgsize == 0)
  cassert (pa % P.__am_pgsize == 0)
  match (s.space as).ptr with
  | none => .error .assertion
  | some vm_head =>
      let found ← find_va vm_head va s
      let (pp, s) := match found with
        | some pp => (pp, s)
        | none => pgalloc s
      let s := link_node vm_head pp va pa prot s
      if s.vm_head = some vm_head then map_now P pp s else return s

/-- The body of the first loop of `__am_switch`. -/
def switch_out (pp : Nat) (s : Vme A) : Except Fault (Vme A) :=
  if (s.page pp).is_mapped then
    let s := __am_pmem_unmap (s.page pp).va s
    .ok (s.write pp { s.page pp with is_mapped := false })
  else .ok s

/-- The body of the second loop of `__am_switch`. -/
def switch_in (pp : Nat) (s : Vme A) : Except Fault (Vme A) := do
  cassert (USER_SPACE.IN_RANGE (s.page pp).va)
  map_now P pp s

def list_foreach (body : Nat → Vme A → Except Fault (Vme A)) (head : Nat) (s : Vme A) :
    Except Fault (Vme A) :=
  foreach Vme.next body .diverges s.brk (s.next head) s

/-- `if (head != NULL) list_foreach(pp, head) body`. -/
def foreach_if (body : Nat → Vme A → Except Fault (Vme A)) : Option Nat → Vme A →
    Except Fault (Vme A)
  | some head, s => list_foreach body head s
  | none, s => .ok s

def __am_switch (head : Option Nat) (s : Vme A) : Except Fault (Vme A) :=
  if !s.vme_enable then .ok s
  else if head = s.vm_head then .ok s
  else do
    let s ← foreach_if switch_out s.vm_head s
    let s ← foreach_if (switch_in P) head s
    return { s with vm_head := head }

/-- One call of the interface.  The context made by `ucontext` has the
    `as->ptr` of its address space, a kernel context has `NULL`. -/
def call (s : Vme A) : Call A → Except Fault (Vme A)
  | .protect as => .ok (protect P as s)
  | .map as va pa prot => map P as va pa prot s
  | .switch ctx => __am_switch P (ctx.bind fun as => (s.space as).ptr) s

def run (calls : List (Call A)) : Except Fault (Vme A) :=
  calls.foldlM (call P) vme_init

end code

/-! ## Section 2: What the lists mean -/

section refinement
variable {A : Type}

/-- The nodes `l` record the mappings `pages`, one node for each page. -/
structure Records (s : Vme A) (l : List Nat) (pages : Pages) : Prop where
  once   : (l.map fun p => (s.page p).va).Nodup
  latest : ∀ va pa prot, pages va = some (pa, prot) ↔
    ∃ p ∈ l, (s.page p).va = va ∧ (s.page p).pa = pa ∧ (s.page p).prot = prot

/-- Behind every `as->ptr` is a finite list that records what was mapped. -/
def Refines (s : Vme A) (m : Spaces A) : Prop :=
  ∀ as, match m as with
    | none => (s.space as).ptr = none
    | some pages => ∃ vm_head l, (s.space as).ptr = some vm_head ∧
        Links s.next (s.next vm_head) l ∧ Records s l pages

/-- Every page belongs to at most one list, that of its `owner`, and every
    head owns a finite list of user pages. -/
structure ListInv (s : Vme A) (owner : Nat → Option Nat) : Prop where
  chains   : ∀ h, owner h = some h →
    ∃ l, Links s.next (some h) (h :: l) ∧ ∀ p ∈ h :: l, owner p = some h
  fresh    : ∀ p h, owner p = some h → p < s.brk
  heads    : ∀ as h, (s.space as).ptr = some h → owner h = some h
  distinct : ∀ as as' h, (s.space as).ptr = some h → (s.space as').ptr = some h → as = as'
  current  : ∀ h, s.vm_head = some h → owner h = some h
  user     : ∀ p h, owner p = some h → p ≠ h → USER_SPACE.IN_RANGE (s.page p).va = true

/-- The two states differ in `is_mapped`, in the host and in the current
    address space only. -/
structure SameLists (s s' : Vme A) : Prop where
  page  : ∀ p, s'.page p = { s.page p with is_mapped := (s'.page p).is_mapped }
  brk   : s'.brk = s.brk
  space : s'.space = s.space

namespace SameLists
variable {s s' s'' : Vme A}

theorem refl (s : Vme A) : SameLists s s := ⟨fun _ => rfl, rfl, rfl⟩

theorem trans (h : SameLists s s') (h' : SameLists s' s'') : SameLists s s'' := by
  refine ⟨fun p => ?_, h'.brk.trans h.brk, h'.space.trans h.space⟩
  rw [h'.page p, h.page p]

theorem next (h : SameLists s s') : s'.next = s.next := by
  funext p
  show (s'.page p).next = (s.page p).next
  rw [h.page p]

theorem records {l : List Nat} {pages : Pages} (h : SameLists s s') (hr : Records s l pages) :
    Records s' l pages := by
  have hva : ∀ p, (s'.page p).va = (s.page p).va := fun p => by rw [h.page p]
  have hpa : ∀ p, (s'.page p).pa = (s.page p).pa := fun p => by rw [h.page p]
  have hprot : ∀ p, (s'.page p).prot = (s.page p).prot := fun p => by rw [h.page p]
  refine ⟨?_, fun va pa prot => ?_⟩
  · simp only [hva]; exact hr.once
  · simp only [hva, hpa, hprot]; exact hr.latest va pa prot

theorem refines {m : Spaces A} (h : SameLists s s') (hr : Refines s m) : Refines s' m := by
  intro as
  have has := hr as
  cases hm : m as with
  | none =>
    rw [hm] at has
    show (s'.space as).ptr = none
    rw [h.space]; exact has
  | some pages =>
    rw [hm] at has
    obtain ⟨vm_head, l, hptr, hlinks, hrec⟩ := has
    refine ⟨vm_head, l, ?_, ?_, h.records hrec⟩
    · rw [h.space]; exact hptr
    · rw [h.next]; exact hlinks

theorem inv {owner : Nat → Option Nat} (h : SameLists s s') (hi : ListInv s owner)
    (hcur : ∀ p, s'.vm_head = some p → owner p = some p) : ListInv s' owner where
  chains p hp := by rw [h.next]; exact hi.chains p hp
  fresh p q hp := by rw [h.brk]; exact hi.fresh p q hp
  heads as p hp := by rw [h.space] at hp; exact hi.heads as p hp
  distinct as as' p hp hp' := by
    rw [h.space] at hp hp'; exact hi.distinct as as' p hp hp'
  current := hcur
  user p q hp hne := by
    rw [h.page p]
    exact hi.user p q hp hne

end SameLists

/-- Two records over the same nodes with the same fields. -/
theorem Records.congr {s s' : Vme A} {l : List Nat} {pages : Pages} (hr : Records s l pages)
    (h : ∀ p ∈ l, (s'.page p).va = (s.page p).va ∧ (s'.page p).pa = (s.page p).pa ∧
      (s'.page p).prot = (s.page p).prot) : Records s' l pages := by
  refine ⟨?_, fun va pa prot => ?_⟩
  · have hmap : (l.map fun p => (s'.page p).va) = l.map fun p => (s.page p).va :=
      List.map_congr_left fun p hp => (h p hp).1
    rw [hmap]; exact hr.once
  · rw [hr.latest]
    refine exists_congr fun p => and_congr_right fun hp => ?_
    rw [(h p hp).1, (h p hp).2.1, (h p hp).2.2]

namespace ListInv
variable {s : Vme A} {owner : Nat → Option Nat}

theorem ne_brk (hi : ListInv s owner) {p h : Nat} (hp : owner p = some h) : p ≠ s.brk :=
  Nat.ne_of_lt (hi.fresh p h hp)

/-- The list found behind a head is the one it owns. -/
theorem chain_of_links (hi : ListInv s owner) {h : Nat} {l : List Nat} (hh : owner h = some h)
    (hlinks : Links s.next (s.next h) l) :
    (∀ p ∈ h :: l, owner p = some h) ∧ Links s.next (some h) (h :: l) := by
  obtain ⟨l', hlinks', hown⟩ := hi.chains h hh
  obtain rfl := links_unique hlinks hlinks'.2
  exact ⟨hown, hlinks'⟩

/-- A list of pages in use is not longer than their number. -/
theorem length_le (hi : ListInv s owner) {h : Nat} {l : List Nat}
    (hlinks : Links s.next (some h) (h :: l)) (hown : ∀ p ∈ h :: l, owner p = some h) :
    l.length ≤ s.brk := by
  have hsub : l ⊆ List.range s.brk := fun p hp =>
    List.mem_range.mpr (hi.fresh p h (hown p (List.mem_cons_of_mem h hp)))
  have hnodup := (List.nodup_cons.mp (links_nodup hlinks)).2
  simpa using (List.subperm_of_subset hnodup hsub).length_le

/-- Changing the links of nodes that `h` does not own keeps its list. -/
theorem chain_frame {next' : Nat → Option Nat} (hi : ListInv s owner) {h : Nat}
    (hh : owner h = some h) (hag : ∀ p, owner p = some h → next' p = s.next p) :
    ∃ l, Links next' (some h) (h :: l) ∧ ∀ p ∈ h :: l, owner p = some h := by
  obtain ⟨l, hlinks, hown⟩ := hi.chains h hh
  exact ⟨l, links_congr (fun p hp => (hag p (hown p hp)).symm) hlinks, hown⟩

end ListInv

/-! ## Section 3: One call -/

section steps
variable {P : Platform} {s s' : Vme A} {owner : Nat → Option Nat} {m : Spaces A}

/-! ### `protect` -/

section protect
variable [DecidableEq A]

theorem protect_next (as : A) : (protect P as s).next = Function.update s.next s.brk none :=
  s.write_next s.brk zeroPage

theorem protect_ptr (as a : A) : ((protect P as s).space a).ptr =
    if a = as then some s.brk else (s.space a).ptr := by
  by_cases ha : a = as
  · subst ha; simp [protect, pgalloc]
  · simp [protect, pgalloc, ha, Vme.write]

/-- After `protect`, a head is the new page or the head of another space. -/
theorem protect_ptr_cases {as a : A} {h : Nat} (ha : ((protect P as s).space a).ptr = some h) :
    (a = as ∧ h = s.brk) ∨ (a ≠ as ∧ (s.space a).ptr = some h) := by
  rw [protect_ptr] at ha
  by_cases hd : a = as
  · rw [if_pos hd] at ha
    exact Or.inl ⟨hd, (Option.some.inj ha).symm⟩
  · rw [if_neg hd] at ha
    exact Or.inr ⟨hd, ha⟩

theorem protect_keeps_next (as : A) (hi : ListInv s owner) {p h : Nat} (hp : owner p = some h) :
    (protect P as s).next p = s.next p := by
  rw [protect_next, Function.update_of_ne (hi.ne_brk hp)]

theorem protect_keeps_page (as : A) (hi : ListInv s owner) {p h : Nat} (hp : owner p = some h) :
    (protect P as s).page p = s.page p :=
  s.write_ne zeroPage (hi.ne_brk hp)

/-- `protect` owns a fresh page. -/
theorem protect_inv (as : A) (hi : ListInv s owner) :
    ListInv (protect P as s) (Function.update owner s.brk (some s.brk)) := by
  have hown : ∀ p h, owner p = some h → Function.update owner s.brk (some s.brk) p = some h :=
    fun p h hp => by rw [Function.update_of_ne (hi.ne_brk hp)]; exact hp
  refine ⟨fun h hh => ?_, fun p h hp => ?_, fun a h ha => ?_, fun a b h ha hb => ?_,
    fun h hh => hown h h (hi.current h hh), fun p h hp hne => ?_⟩
  · by_cases hb : h = s.brk
    · subst hb
      exact ⟨[], ⟨rfl, by rw [protect_next, Function.update_self]; rfl⟩, by simp⟩
    · rw [Function.update_of_ne hb] at hh
      obtain ⟨l, hlinks, hl⟩ := hi.chain_frame hh fun p hp => protect_keeps_next (P := P) as hi hp
      exact ⟨l, hlinks, fun p hp => hown p h (hl p hp)⟩
  · show p < s.brk + 1
    by_cases hb : p = s.brk
    · omega
    · rw [Function.update_of_ne hb] at hp
      have hlt := hi.fresh p h hp
      omega
  · rcases protect_ptr_cases ha with ⟨-, rfl⟩ | ⟨-, hold⟩
    · rw [Function.update_self]
    · exact hown h h (hi.heads a h hold)
  · -- Two spaces with one head: both are `as`, or neither.
    rcases protect_ptr_cases ha with ⟨rfl, rfl⟩ | ⟨-, hold⟩
    · rcases protect_ptr_cases hb with ⟨rfl, -⟩ | ⟨-, hold⟩
      · rfl
      · exact absurd rfl (hi.ne_brk (hi.heads b _ hold))
    · rcases protect_ptr_cases hb with ⟨-, rfl⟩ | ⟨-, hold'⟩
      · exact absurd rfl (hi.ne_brk (hi.heads a _ hold))
      · exact hi.distinct a b h hold hold'
  · by_cases hb : p = s.brk
    · rw [hb, Function.update_self] at hp
      exact absurd (hb.trans (Option.some.inj hp)) hne
    · rw [Function.update_of_ne hb] at hp
      rw [protect_keeps_page as hi hp]
      exact hi.user p h hp hne

/-- `protect` starts an empty list. -/
theorem protect_refines (as : A) (hi : ListInv s owner) (hr : Refines s m) :
    Refines (protect P as s) (m.call (.protect as)) := by
  intro a
  by_cases hd : a = as
  · subst hd
    rw [Spaces.call, Function.update_self]
    refine ⟨s.brk, [], by rw [protect_ptr, if_pos rfl], ?_, List.nodup_nil, by simp [Pages.empty]⟩
    rw [protect_next, Function.update_self]
    rfl
  · rw [Spaces.call, Function.update_of_ne hd]
    have ha := hr a
    cases hm : m a with
    | none =>
      rw [hm] at ha
      show ((protect P as s).space a).ptr = none
      rw [protect_ptr, if_neg hd]; exact ha
    | some pages =>
      rw [hm] at ha
      obtain ⟨h, l, hp, hlinks, hrec⟩ := ha
      obtain ⟨hl, -⟩ := hi.chain_of_links (hi.heads a h hp) hlinks
      refine ⟨h, l, by rw [protect_ptr, if_neg hd]; exact hp, ?_, hrec.congr fun p hp => ?_⟩
      · rw [protect_keeps_next as hi (hl h List.mem_cons_self)]
        refine links_congr (fun p hp => ?_) hlinks
        exact (protect_keeps_next as hi (hl p (List.mem_cons_of_mem h hp))).symm
      · rw [protect_keeps_page as hi (hl p (List.mem_cons_of_mem h hp))]
        exact ⟨rfl, rfl, rfl⟩

end protect

/-! ### `map` -/

/-- `find_va` looks through the list of `vm_head`. -/
theorem find_va_eq (hi : ListInv s owner) {h va : Nat} {l : List Nat} (hh : owner h = some h)
    (hlinks : Links s.next (s.next h) l) :
    find_va h va s = .ok (l.find? fun pp => (s.page pp).va == va) := by
  obtain ⟨hl, hchain⟩ := hi.chain_of_links hh hlinks
  rw [find_va, search_eq_find _ hlinks (hi.length_le hchain hl)]

theorem Records.find_eq_none {l : List Nat} {pages : Pages} (hr : Records s l pages) {va : Nat} :
    (l.find? fun pp => (s.page pp).va == va) = none ↔ pages va = none := by
  rw [List.find?_eq_none]
  constructor
  · intro hnone
    cases hp : pages va with
    | none => rfl
    | some e =>
      obtain ⟨pp, hmem, hva, -, -⟩ := (hr.latest va e.1 e.2).mp hp
      exact absurd (by simpa using hva) (hnone pp hmem)
  · intro hnone pp hmem hva
    have hva : (s.page pp).va = va := by simpa using hva
    have hsome := (hr.latest va _ _).mpr ⟨pp, hmem, hva, rfl, rfl⟩
    rw [hnone] at hsome
    cases hsome

section link_node
variable {h pp va pa prot : Nat}

theorem link_node_next : (link_node h pp va pa prot s).next =
    Function.update (Function.update s.next pp (s.next h)) h (some pp) := by
  unfold link_node
  rw [Vme.write_next, Vme.write_next]

theorem link_node_page (hne : pp ≠ h) :
    (link_node h pp va pa prot s).page pp = ⟨va, pa, s.next h, prot, false⟩ := by
  unfold link_node
  rw [Vme.write_ne _ _ hne, Vme.write_self]

theorem link_node_page_head (hne : pp ≠ h) :
    (link_node h pp va pa prot s).page h = { s.page h with next := some pp } := by
  unfold link_node
  rw [Vme.write_self, Vme.write_ne _ _ hne.symm]

theorem link_node_page_ne {p : Nat} (hpp : p ≠ pp) (hh : p ≠ h) :
    (link_node h pp va pa prot s).page p = s.page p := by
  unfold link_node
  rw [Vme.write_ne _ _ hh, Vme.write_ne _ _ hpp]

end link_node

/-- `map_now` only touches `is_mapped` and the host. -/
theorem map_now_cases (pp : Nat) (s : Vme A) : map_now P pp s = .error .assertion ∨
    ∃ s', map_now P pp s = .ok s' ∧ SameLists s s' ∧ s'.vm_head = s.vm_head := by
  unfold map_now __am_pmem_map
  cases hok : P.mmap_ok (s.page pp).va (s.page pp).pa (s.page pp).prot with
  | false => exact Or.inl rfl
  | true =>
    refine Or.inr ⟨_, rfl, ⟨fun p => ?_, rfl, rfl⟩, rfl⟩
    by_cases hp : p = pp
    · subst hp; rw [Vme.write_self]
    · rw [Vme.write_ne _ _ hp]

/-- The node that `map` fills, and the state it fills it in. -/
def map_target (l : List Nat) (va : Nat) (s : Vme A) : Nat × Vme A :=
  match l.find? fun pp => (s.page pp).va == va with
  | some pp => (pp, s)
  | none => pgalloc s

/-- Past its assertions `map` links the node behind the head. -/
theorem map_result {as : A} {va pa prot : Nat} (hi : ListInv s owner) (hr : Refines s m)
    (hassert : map P as va pa prot s ≠ .error .assertion) :
    ∃ h pages l s', (s.space as).ptr = some h ∧ m as = some pages ∧
      Links s.next (s.next h) l ∧ Records s l pages ∧ map P as va pa prot s = .ok s' ∧
      s'.vm_head = s.vm_head ∧ USER_SPACE.IN_RANGE va = true ∧
      SameLists (link_node h (map_target l va s).1 va pa prot (map_target l va s).2) s' := by
  have has := hr as
  cases hm : m as with
  -- An address space that was never made has no list, which `map` asserts.
  | none =>
    rw [hm] at has
    refine absurd ?_ hassert
    have hptr : (s.space as).ptr = none := has
    unfold map
    cases USER_SPACE.IN_RANGE va <;> cases (va % P.__am_pgsize == 0) <;>
      cases (pa % P.__am_pgsize == 0) <;> simp [hptr]
  | some pages =>
    rw [hm] at has
    obtain ⟨h, l, hptr, hlinks, hrec⟩ := has
    have hfind : find_va h va s = .ok (l.find? fun pp => (s.page pp).va == va) :=
      find_va_eq hi (hi.heads as h hptr) hlinks
    let t := link_node h (map_target l va s).1 va pa prot (map_target l va s).2
    -- With the assertions out of the way, `map` links the page and maps it if its
    -- list is the current one.
    have hrun : map P as va pa prot s ≠ .error .assertion → map P as va pa prot s =
        if t.vm_head = some h then map_now P (map_target l va s).1 t else .ok t := by
      unfold map
      cases USER_SPACE.IN_RANGE va <;> cases (va % P.__am_pgsize == 0) <;>
        cases (pa % P.__am_pgsize == 0) <;> simp [hptr, hfind]
      intro _
      rfl
    have hhead : t.vm_head = s.vm_head := by
      show (map_target l va s).2.vm_head = s.vm_head
      unfold map_target
      split <;> rfl
    have huser : USER_SPACE.IN_RANGE va = true := by
      cases hu : USER_SPACE.IN_RANGE va with
      | true => rfl
      | false =>
        refine absurd ?_ hassert
        unfold map
        simp [hu]
    rw [hrun hassert]
    by_cases hcur : t.vm_head = some h
    · rw [if_pos hcur]
      rcases map_now_cases (P := P) (map_target l va s).1 t with herr | ⟨s', hok, hsame, hvm⟩
      · rw [hrun hassert, if_pos hcur] at hassert
        exact absurd herr hassert
      · exact ⟨h, pages, l, s', hptr, rfl, hlinks, hrec, hok, hvm.trans hhead, huser, hsame⟩
    · rw [if_neg hcur]
      exact ⟨h, pages, l, t, hptr, rfl, hlinks, hrec, rfl, hhead, huser, SameLists.refl t⟩

/-- The state after a page that was not mapped is linked in. -/
def link_fresh (h va pa prot : Nat) (s : Vme A) : Vme A :=
  link_node h s.brk va pa prot (pgalloc s).2

section link_fresh
variable {h va pa prot : Nat}

theorem link_fresh_next (hh : h ≠ s.brk) : (link_fresh h va pa prot s).next =
    Function.update (Function.update s.next s.brk (s.next h)) h (some s.brk) := by
  have halloc : (pgalloc s).2.next = Function.update s.next s.brk none :=
    s.write_next s.brk zeroPage
  rw [link_fresh, link_node_next, halloc, Function.update_of_ne hh, Function.update_idem]

theorem link_fresh_next_ne {p : Nat} (hh : h ≠ s.brk) (hp : p ≠ s.brk) (hph : p ≠ h) :
    (link_fresh h va pa prot s).next p = s.next p := by
  rw [link_fresh_next hh, Function.update_of_ne hph, Function.update_of_ne hp]

theorem link_fresh_page_ne {p : Nat} (hp : p ≠ s.brk) (hph : p ≠ h) :
    (link_fresh h va pa prot s).page p = s.page p := by
  rw [link_fresh, link_node_page_ne hp hph]
  exact s.write_ne zeroPage hp

/-- The new page goes to the list of `h`. -/
theorem link_fresh_inv (hi : ListInv s owner) (hh : owner h = some h)
    (huser : USER_SPACE.IN_RANGE va = true) :
    ListInv (link_fresh h va pa prot s) (Function.update owner s.brk (some h)) := by
  have hne := hi.ne_brk hh
  -- Pages with an owner are not the fresh page.
  have hown : ∀ p k, owner p = some k → Function.update owner s.brk (some h) p = some k :=
    fun p k hp => by rw [Function.update_of_ne (hi.ne_brk hp)]; exact hp
  refine ⟨fun k hk => ?_, fun p k hp => ?_, fun a k ha => hown k k (hi.heads a k ha), hi.distinct,
    fun k hk => hown k k (hi.current k hk), fun p k hp hpk => ?_⟩
  · have hkb : k ≠ s.brk := by
      rintro rfl
      rw [Function.update_self] at hk
      exact hne (Option.some.inj hk)
    rw [Function.update_of_ne hkb] at hk
    by_cases hkh : k = h
    · subst hkh
      -- The list of `h` gets the fresh page at its front.
      obtain ⟨l, hlinks, hl⟩ := hi.chains k hk
      have hout : s.brk ∉ k :: l := fun hmem => hi.ne_brk (hl _ hmem) rfl
      refine ⟨s.brk :: l, ?_, fun p hp => ?_⟩
      · rw [link_fresh_next hne]
        exact links_insert hout hlinks
      · by_cases hpb : p = s.brk
        · subst hpb; rw [Function.update_self]
        · exact hown p k (hl p (by simpa [hpb] using hp))
    · -- The list of another head contains neither page that was written.
      have hkeep : ∀ p, owner p = some k → (link_fresh h va pa prot s).next p = s.next p := by
        intro p hp
        refine link_fresh_next_ne hne (hi.ne_brk hp) ?_
        rintro rfl
        rw [hh] at hp
        exact hkh (Option.some.inj hp).symm
      obtain ⟨l, hlinks, hl⟩ := hi.chain_frame hk hkeep
      exact ⟨l, hlinks, fun p hp => hown p k (hl p hp)⟩
  · show p < s.brk + 1
    by_cases hpb : p = s.brk
    · omega
    · rw [Function.update_of_ne hpb] at hp
      have hlt := hi.fresh p k hp
      omega
  · by_cases hpb : p = s.brk
    · rw [hpb, link_fresh, link_node_page hne.symm]
      exact huser
    · rw [Function.update_of_ne hpb] at hp
      have hph : p ≠ h := by
        rintro rfl
        rw [hh] at hp
        exact hpk (Option.some.inj hp)
      rw [link_fresh_page_ne hpb hph]
      exact hi.user p k hp hpk

/-- The new node records the new mapping. -/
theorem link_fresh_records {l : List Nat} {pages : Pages} (hne : h ≠ s.brk) (hb : s.brk ∉ l)
    (hl : h ∉ l) (hr : Records s l pages) (hva : pages va = none) :
    Records (link_fresh h va pa prot s) (s.brk :: l) (pages.insert va pa prot) := by
  have hnew : (link_fresh h va pa prot s).page s.brk = ⟨va, pa, _, prot, false⟩ :=
    link_node_page hne.symm
  have hold : ∀ p ∈ l, (link_fresh h va pa prot s).page p = s.page p := fun p hp =>
    link_fresh_page_ne (fun hpb => hb (hpb ▸ hp)) (fun hph => hl (hph ▸ hp))
  -- The address has no page in the list yet.
  have hout : ∀ p ∈ l, (s.page p).va ≠ va := by
    rintro p hp rfl
    have hsome := (hr.latest _ _ _).mpr ⟨p, hp, rfl, rfl, rfl⟩
    rw [hva] at hsome
    cases hsome
  have hr' : Records (link_fresh h va pa prot s) l pages :=
    hr.congr fun p hp => by rw [hold p hp]; exact ⟨rfl, rfl, rfl⟩
  -- The list has each address once, and records the mappings.
  refine ⟨?_, fun va' pa' prot' => ?_⟩
  · rw [List.map_cons, List.nodup_cons, hnew]
    refine ⟨fun hmem => ?_, hr'.once⟩
    obtain ⟨p, hp, hpva⟩ := List.mem_map.mp hmem
    rw [hold p hp] at hpva
    exact hout p hp hpva
  · by_cases hv : va' = va
    · subst hv
      rw [Pages.insert_self]
      constructor
      · intro heq
        cases heq
        exact ⟨s.brk, List.mem_cons_self, by rw [hnew], by rw [hnew], by rw [hnew]⟩
      · rintro ⟨p, hp, h1, h2, h3⟩
        rcases List.mem_cons.mp hp with rfl | hp
        · rw [hnew] at h2 h3
          rw [← h2, ← h3]
        · rw [hold p hp] at h1
          exact absurd h1 (hout p hp)
    · rw [Pages.insert_ne _ _ _ hv, hr'.latest]
      constructor
      · rintro ⟨p, hp, hrest⟩
        exact ⟨p, List.mem_cons_of_mem _ hp, hrest⟩
      · rintro ⟨p, hp, h1, h2, h3⟩
        rcases List.mem_cons.mp hp with rfl | hp
        · rw [hnew] at h1
          exact absurd h1.symm hv
        · exact ⟨p, hp, h1, h2, h3⟩

/-- Linking a page that was not mapped is what the abstract `map` does. -/
theorem link_fresh_refines [DecidableEq A] {as : A} {pages : Pages} (hi : ListInv s owner)
    (hr : Refines s m) (hptr : (s.space as).ptr = some h) (hm : m as = some pages)
    (hva : pages va = none) :
    Refines (link_fresh h va pa prot s) (m.call (.map as va pa prot)) := by
  have hh := hi.heads as h hptr
  have hne := hi.ne_brk hh
  intro a
  have ha := hr a
  by_cases hd : a = as
  -- The address space of the call, and then the others.
  · subst hd
    rw [hm] at ha
    obtain ⟨h', l, hptr', hlinks, hrec⟩ := ha
    obtain rfl : h' = h := Option.some.inj (hptr'.symm.trans hptr)
    obtain ⟨hl, hchain⟩ := hi.chain_of_links hh hlinks
    have hb : s.brk ∉ h' :: l := fun hmem => hi.ne_brk (hl _ hmem) rfl
    have hout : h' ∉ l := (List.nodup_cons.mp (links_nodup hchain)).1
    rw [Spaces.call, Function.update_self, hm]
    refine ⟨h', s.brk :: l, hptr, ?_, link_fresh_records hne
      (fun hmem => hb (List.mem_cons_of_mem _ hmem)) hout hrec hva⟩
    rw [link_fresh_next hne]
    exact (links_insert hb hchain).2
  · rw [Spaces.call, Function.update_of_ne hd]
    cases hma : m a with
    | none => rw [hma] at ha; exact ha
    | some pages' =>
      rw [hma] at ha
      obtain ⟨h', l, hptr', hlinks, hrec⟩ := ha
      obtain ⟨hl, -⟩ := hi.chain_of_links (hi.heads a h' hptr') hlinks
      -- The list of another address space has neither page that was written.
      have hother : ∀ p ∈ h' :: l, p ≠ s.brk ∧ p ≠ h := by
        refine fun p hp => ⟨hi.ne_brk (hl p hp), ?_⟩
        rintro rfl
        have hsame := (hl p hp).symm.trans hh
        rw [Option.some.inj hsame] at hptr'
        exact hd (hi.distinct a as p hptr' hptr)
      have hnext : ∀ p ∈ h' :: l, (link_fresh h va pa prot s).next p = s.next p := fun p hp =>
        link_fresh_next_ne hne (hother p hp).1 (hother p hp).2
      refine ⟨h', l, hptr', ?_, hrec.congr fun p hp => ?_⟩
      · rw [hnext h' List.mem_cons_self]
        exact links_congr (fun p hp => (hnext p (List.mem_cons_of_mem _ hp)).symm) hlinks
      · have hp' := hother p (List.mem_cons_of_mem _ hp)
        rw [link_fresh_page_ne hp'.1 hp'.2]
        exact ⟨rfl, rfl, rfl⟩

end link_fresh

/-- Linking the node of a page that is mapped already leaves no list behind
    the head. -/
theorem link_again_no_list {h va pa prot pp : Nat} {l l' : List Nat}
    (hchain : Links s.next (some h) (h :: l)) (hpp : pp ∈ l) :
    ¬ Links (link_node h pp va pa prot s).next ((link_node h pp va pa prot s).next h) l' := by
  obtain ⟨l₁, l₂, rfl⟩ := List.append_of_mem hpp
  rw [link_node_next, Function.update_self]
  exact no_links_relink hchain

/-! ### `__am_switch` -/

/-- A loop body that stops the program or only touches `is_mapped` and the
    host. -/
def Quiet (body : Nat → Vme A → Except Fault (Vme A)) : Prop :=
  ∀ pp s, body pp s = .error .assertion ∨
    ∃ s', body pp s = .ok s' ∧ SameLists s s' ∧ s'.vm_head = s.vm_head

theorem quiet_switch_out : Quiet (switch_out (A := A)) := by
  intro pp s
  refine Or.inr ?_
  unfold switch_out
  by_cases hmapped : (s.page pp).is_mapped
  · rw [if_pos hmapped]
    refine ⟨_, rfl, ⟨fun p => ?_, rfl, rfl⟩, rfl⟩
    by_cases hp : p = pp
    · subst hp; rw [Vme.write_self]; rfl
    · rw [Vme.write_ne _ _ hp]; rfl
  · rw [if_neg hmapped]
    exact ⟨s, rfl, SameLists.refl s, rfl⟩

theorem quiet_switch_in : Quiet (switch_in (A := A) P) := by
  intro pp s
  unfold switch_in
  cases USER_SPACE.IN_RANGE (s.page pp).va with
  | false => exact Or.inl rfl
  | true => exact map_now_cases pp s

/-- A quiet loop over a list of the invariant ends. -/
theorem list_foreach_cases {body : Nat → Vme A → Except Fault (Vme A)} (hbody : Quiet body)
    (hi : ListInv s owner) {h : Nat} (hh : owner h = some h) :
    list_foreach body h s = .error .assertion ∨
      ∃ s', list_foreach body h s = .ok s' ∧ SameLists s s' ∧ s'.vm_head = s.vm_head := by
  obtain ⟨l, hlinks, hl⟩ := hi.chains h hh
  have hnext : ∀ pp s s', body pp s = .ok s' → s'.next = s.next := by
    intro pp s s' hrun
    rcases hbody pp s with herr | ⟨t, hok, hsame, -⟩
    · rw [herr] at hrun; cases hrun
    · rw [hok] at hrun
      cases hrun
      exact hsame.next
  rw [list_foreach, foreach_eq_foldlM hnext hlinks.2 (hi.length_le hlinks hl)]
  -- The rest is about any sequence of quiet bodies.
  clear hlinks hl hi
  induction l generalizing s with
  | nil => exact Or.inr ⟨s, rfl, SameLists.refl s, rfl⟩
  | cons pp l ih =>
    rw [List.foldlM_cons]
    rcases hbody pp s with herr | ⟨t, hok, hsame, hvm⟩
    · rw [herr]; exact Or.inl rfl
    · rw [hok, ok_bind]
      rcases ih (s := t) with herr | ⟨s', hok', hsame', hvm'⟩
      · exact Or.inl herr
      · exact Or.inr ⟨s', hok', hsame.trans hsame', hvm'.trans hvm⟩

theorem foreach_if_cases {body : Nat → Vme A → Except Fault (Vme A)} (hbody : Quiet body)
    (hi : ListInv s owner) {head : Option Nat} (hhead : ∀ h, head = some h → owner h = some h) :
    foreach_if body head s = .error .assertion ∨
      ∃ s', foreach_if body head s = .ok s' ∧ SameLists s s' ∧ s'.vm_head = s.vm_head := by
  cases head with
  | none => exact Or.inr ⟨s, rfl, SameLists.refl s, rfl⟩
  | some h => exact list_foreach_cases hbody hi (hhead h rfl)

/-- `__am_switch` keeps all lists. -/
theorem switch_cases {head : Option Nat} (hi : ListInv s owner)
    (hhead : ∀ h, head = some h → owner h = some h) :
    __am_switch P head s = .error .assertion ∨
      ∃ s', __am_switch P head s = .ok s' ∧ SameLists s s' ∧
        (s'.vm_head = s.vm_head ∨ s'.vm_head = head) := by
  unfold __am_switch
  by_cases hen : s.vme_enable
  · rw [if_neg (by simp [hen])]
    by_cases hcur : head = s.vm_head
    · rw [if_pos hcur]
      exact Or.inr ⟨s, rfl, SameLists.refl s, Or.inl rfl⟩
    · rw [if_neg hcur]
      rcases foreach_if_cases quiet_switch_out hi hi.current with herr | ⟨t, hok, hsame, hvm⟩
      · rw [herr]; exact Or.inl rfl
      · have hit : ListInv t owner := hsame.inv hi fun p hp => hi.current p (hvm ▸ hp)
        rw [hok, ok_bind]
        rcases foreach_if_cases (quiet_switch_in (P := P)) hit hhead with
          herr | ⟨u, hok', hsame', -⟩
        · rw [herr]; exact Or.inl rfl
        · have hsu := hsame.trans hsame'
          rw [hok', ok_bind]
          exact Or.inr ⟨_, rfl, ⟨hsu.page, hsu.brk, hsu.space⟩, Or.inr rfl⟩
  · rw [if_pos (by simpa using hen)]
    exact Or.inr ⟨s, rfl, SameLists.refl s, Or.inl rfl⟩

end steps

/-! ## Section 4: Runs -/

section runs
variable {P : Platform} {s s' : Vme A} {owner : Nat → Option Nat} {m : Spaces A}

/-- The start: no list, no address space. -/
theorem init_inv : ListInv (vme_init : Vme A) (fun _ => none) where
  chains _ h := by cases h
  fresh _ _ h := by cases h
  heads _ _ h := by cases h
  distinct _ _ _ h := by cases h
  current _ h := by cases h
  user _ _ h := by cases h

variable [DecidableEq A]

/-- `map` is called for a page that the address space has already. -/
def Remaps (m : Spaces A) : Call A → Prop
  | .map as va _ _ => ∃ pages e, m as = some pages ∧ pages va = some e
  | _ => False

/-- Step lemma: a call that passes its assertions and maps no page again does
    to the lists what it does to the abstract address spaces, and every page
    stays in its list. -/
theorem call_refines {c : Call A} (hi : ListInv s owner) (hr : Refines s m)
    (hc : ¬ Remaps m c) (hassert : call P s c ≠ .error .assertion) :
    ∃ s' owner', call P s c = .ok s' ∧ ListInv s' owner' ∧ Refines s' (m.call c) ∧
      ∀ p h, owner p = some h → owner' p = some h := by
  -- The owner of the page that is allocated is new.
  have hgrows : ∀ k p h, owner p = some h → Function.update owner s.brk (some k) p = some h := by
    intro k p h hp
    rw [Function.update_of_ne (hi.ne_brk hp)]
    exact hp
  cases c with
  | protect as => exact ⟨_, _, rfl, protect_inv as hi, protect_refines as hi hr, hgrows s.brk⟩
  | map as va pa prot =>
    obtain ⟨h, pages, l, s', hptr, hm, hlinks, hrec, hok, hvm, huser, hsame⟩ :=
      map_result hi hr hassert
    -- Without a page at the address, `map` allocates one.
    have hva : pages va = none := by
      cases hp : pages va with
      | none => rfl
      | some e => exact absurd ⟨pages, e, hm, hp⟩ hc
    have htarget : map_target l va s = pgalloc s := by
      rw [map_target, hrec.find_eq_none.mpr hva]
    rw [htarget] at hsame
    have hinv : ListInv (link_fresh h va pa prot s) _ :=
      link_fresh_inv hi (hi.heads as h hptr) huser
    refine ⟨s', _, hok, hsame.inv hinv fun p hp => hinv.current p ?_,
      hsame.refines (link_fresh_refines hi hr hptr hm hva), hgrows h⟩
    show s.vm_head = some p
    rw [← hvm]; exact hp
  | switch ctx =>
    have hhead : ∀ h, (ctx.bind fun as => (s.space as).ptr) = some h → owner h = some h := by
      intro h hh
      obtain ⟨as, -, hptr⟩ := Option.bind_eq_some_iff.mp hh
      exact hi.heads as h hptr
    -- The current list is the one before or that of the context.
    rcases switch_cases (P := P) hi hhead with herr | ⟨s', hok, hsame, hvm⟩
    · exact absurd herr hassert
    · refine ⟨s', owner, hok, hsame.inv hi fun p hp => ?_, hsame.refines hr, fun _ _ hp => hp⟩
      rcases hvm with hvm | hvm
      · exact hi.current p (hvm ▸ hp)
      · exact hhead p (hvm ▸ hp)

/-- Step lemma: mapping a page again destroys the list. -/
theorem call_remaps {c : Call A} (hi : ListInv s owner) (hr : Refines s m) (hc : Remaps m c)
    (hok : call P s c = .ok s') : ¬ Refines s' (m.call c) := by
  cases c with
  | protect as => exact absurd hc id
  | switch ctx => exact absurd hc id
  | map as va pa prot =>
    obtain ⟨pages, e, hm, hva⟩ := hc
    have hassert : map P as va pa prot s ≠ .error .assertion := by
      intro herr
      rw [call, herr] at hok
      cases hok
    obtain ⟨h, pages', l, t, hptr, hm', hlinks, hrec, hok', hvm, -, hsame⟩ :=
      map_result hi hr hassert
    obtain rfl : pages = pages' := Option.some.inj (hm.symm.trans hm')
    obtain rfl : s' = t := by
      rw [call, hok'] at hok
      cases hok
      rfl
    obtain ⟨-, hchain⟩ := hi.chain_of_links (hi.heads as h hptr) hlinks
    -- The page at the address is linked a second time, which closes a circle.
    cases hfind : l.find? fun pp => (s.page pp).va == va with
    | none => rw [hrec.find_eq_none.mp hfind] at hva; cases hva
    | some pp =>
      have htarget : map_target l va s = (pp, s) := by rw [map_target, hfind]
      rw [htarget] at hsame
      intro hr'
      have has := hr' as
      rw [Spaces.call, Function.update_self, hm] at has
      obtain ⟨h', l', hptr', hlinks', -⟩ := has
      obtain rfl : h' = h := by
        rw [hsame.space] at hptr'
        exact Option.some.inj (hptr'.symm.trans hptr)
      rw [hsame.next] at hlinks'
      exact link_again_no_list hchain (List.mem_of_find?_eq_some hfind) hlinks'

/-- After every prefix of the calls, all calls have returned and every list
    is finite and records what was mapped last, one node for each page. -/
def ListsKept (P : Platform) (calls : List (Call A)) : Prop :=
  ∀ before after, calls = before ++ after →
    ∃ s, run P before = .ok s ∧ Refines s (Spaces.run before)

/-- No `map` is called for a page that is mapped in its address space. -/
def NoRemap (calls : List (Call A)) : Prop :=
  ∀ before c after, calls = before ++ c :: after → ¬ Remaps (Spaces.run before) c

theorem noRemap_concat (calls : List (Call A)) {c : Call A} (h : NoRemap calls)
    (hc : ¬ Remaps (Spaces.run calls) c) : NoRemap (calls ++ [c]) := by
  intro before d after hsplit
  rcases List.eq_nil_or_concat after with rfl | ⟨after, e, rfl⟩
  · obtain ⟨rfl, hcd⟩ := List.append_inj' hsplit rfl
    cases hcd
    exact hc
  · have hsplit' : calls ++ [c] = (before ++ d :: after) ++ [e] := by rw [hsplit]; simp
    obtain ⟨hcalls, -⟩ := List.append_inj' hsplit' rfl
    exact h before d after hcalls

theorem run_append (calls : List (Call A)) (c : Call A) :
    run P (calls ++ [c]) = run P calls >>= fun s => call P s c := by
  rw [run, List.foldlM_append]
  refine congrArg _ (funext fun s => ?_)
  rw [List.foldlM_cons]
  cases call P s c <;> rfl

/-- Run lemma: without a second mapping of a page, all lists are kept. -/
theorem run_refines (calls : List (Call A)) (hno : NoRemap calls)
    (hassert : run P calls ≠ .error .assertion) :
    ∃ s owner, run P calls = .ok s ∧ ListInv s owner ∧ Refines s (Spaces.run calls) := by
  induction calls using List.reverseRecOn with
  | nil => exact ⟨vme_init, _, rfl, init_inv, fun _ => rfl⟩
  | append_singleton calls c ih =>
    have hbefore : run P calls ≠ .error .assertion := by
      intro herr
      rw [run_append, herr] at hassert
      exact hassert rfl
    obtain ⟨s, owner, hrun, hi, hr⟩ := ih
      (fun before d after hsplit => hno before d (after ++ [c]) (by rw [hsplit]; simp)) hbefore
    rw [run_append, hrun, ok_bind] at hassert ⊢
    rw [Spaces.run_append]
    obtain ⟨s', owner', hok, hi', hr', -⟩ := call_refines hi hr (hno calls c [] rfl) hassert
    exact ⟨s', owner', hok, hi', hr'⟩

theorem noRemap_of_listsKept (calls : List (Call A)) (hassert : run P calls ≠ .error .assertion)
    (hkept : ListsKept P calls) : NoRemap calls := by
  induction calls using List.reverseRecOn with
  | nil => intro before c after hsplit; simp at hsplit
  | append_singleton calls c ih =>
    have hbefore : run P calls ≠ .error .assertion := by
      intro herr
      rw [run_append, herr] at hassert
      exact hassert rfl
    have hno : NoRemap calls := ih hbefore fun before after hsplit =>
      hkept before (after ++ [c]) (by rw [hsplit]; simp)
    obtain ⟨s, owner, hrun, hi, hr⟩ := run_refines calls hno hbefore
    apply noRemap_concat calls hno
    -- The last call: the state before it keeps the invariant.
    intro hremap
    obtain ⟨s', hrun', hr'⟩ := hkept (calls ++ [c]) [] (by simp)
    rw [run_append, hrun, ok_bind] at hrun'
    rw [Spaces.run_append] at hr'
    exact call_remaps hi hr hremap hrun' hr'

/-- Among calls that pass their assertions, all lists are kept if and only if
    no page is mapped again while it is mapped. -/
theorem lists_kept_iff (calls : List (Call A)) (hassert : run P calls ≠ .error .assertion) :
    ListsKept P calls ↔ NoRemap calls := by
  constructor
  · exact noRemap_of_listsKept calls hassert
  · intro hno before after hsplit
    have hbefore : run P before ≠ .error .assertion := by
      intro herr
      rw [hsplit, run, List.foldlM_append] at hassert
      rw [run] at herr
      rw [herr] at hassert
      exact hassert rfl
    obtain ⟨s, -, hrun, -, hr⟩ := run_refines before
      (fun b c a hb => hno b c (a ++ after) (by rw [hsplit, hb]; simp)) hbefore
    exact ⟨s, hrun, hr⟩

end runs

end refinement

/-! ### Mapping a page twice -/

/-- 4 KiB pages, and a host whose `mmap` always succeeds. -/
def linux : Platform := ⟨4096, fun _ _ _ => true⟩

/-- One address space with two pages, then a switch to it. -/
def two_pages : List (Call Nat) :=
  [.protect 0, .map 0 0x40000000 0x1000 MMAP_READ, .map 0 0x40001000 0x2000 MMAP_READ,
    .switch (some 0)]

theorem lists_kept_iff_two_pages : ListsKept linux two_pages ↔ NoRemap two_pages := by
  have hassert : run linux two_pages ≠ .error .assertion := by
    intro herr
    cases herr
  exact lists_kept_iff two_pages hassert

/-- The first page of an address space, and the same page once more. -/
def page_twice : List (Call Nat) :=
  [.protect 0, .map 0 0x40000000 0x1000 MMAP_READ, .map 0 0x40000000 0x2000 MMAP_READ]

/-- The second `map` passes its assertions, and leaves a node that links to
    itself. -/
theorem page_twice_not_kept :
    run linux page_twice ≠ .error .assertion ∧ ¬ ListsKept linux page_twice := by
  have hassert : run linux page_twice ≠ .error .assertion := by
    intro herr
    cases herr
  refine ⟨hassert, fun hkept => ?_⟩
  obtain ⟨s, hrun, hr⟩ := hkept page_twice [] (by simp)
  have hspace : ∃ pages, Spaces.run page_twice 0 = some pages := ⟨_, rfl⟩
  obtain ⟨pages, hpages⟩ := hspace
  have has := hr 0
  rw [hpages] at has
  obtain ⟨vm_head, l, hptr, hlinks, -⟩ := has
  cases hrun
  cases hptr
  -- Node 1 is its own successor.
  refine no_links_of_closed {1} (fun a ha => ⟨1, rfl, ?_⟩) rfl hlinks
  cases ha
  rfl

end Am.Native
