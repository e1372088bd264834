import IcsPa.Am.X86.Refinement

/-! # `unprotect`

    `teardown` decides from flag bits alone which tables to free and where to
    go on.  With the invariant of the tables it visits exactly the owned
    paths of one address space, so it frees its tables once each and no other
    page, whatever `pgfree` writes into the pages it is given.

    The tables that were allocated for an address space are recorded beside
    the run of the calls: they are what `pgalloc` returned in the calls on
    this space since its last `protect`. -/

open CCall

namespace Am.X86

open Vme

section teardown
variable {A : Type} {arch : Arch} {pgfree : Nat → (Nat → Nat) → Nat → Nat}
variable {K Kp : List Nat} {s : Vme A} {r : Option A} {t t' t'' : Vme A × List Nat}

/-! ## Section 1: Freeing -/

/-- From `t` to `t'` the pages in `P` are freed, each once; only their words
    may change. -/
structure Frees (P : Nat → Prop) (t t' : Vme A × List Nat) : Prop where
  freed : ∃ new, t'.2 = new ++ t.2 ∧ new.Nodup ∧ ∀ x, x ∈ new ↔ P x
  words : ∀ a, (∀ x, P x → a < x ∨ x + pgsize ≤ a) → t'.1.mem a = t.1.mem a
  ptr   : t'.1.ptr = t.1.ptr

theorem Frees.none {P : Nat → Prop} (h : ∀ x, ¬ P x) (t : Vme A × List Nat) : Frees P t t := by
  refine ⟨⟨[], rfl, List.nodup_nil, ?_⟩, fun _ _ => rfl, rfl⟩
  intro x
  simp [h x]

/-- Disjoint sets of pages are freed one after the other. -/
theorem Frees.trans {P Q R : Nat → Prop} (h : Frees P t t') (h' : Frees Q t' t'')
    (hdisjoint : ∀ x, P x → ¬ Q x) (hR : ∀ x, R x ↔ P x ∨ Q x) : Frees R t t'' := by
  obtain ⟨new, hnew, hnodup, hmem⟩ := h.freed
  obtain ⟨new', hnew', hnodup', hmem'⟩ := h'.freed
  refine ⟨⟨new' ++ new, ?_, ?_, ?_⟩, ?_, h'.ptr.trans h.ptr⟩
  · rw [hnew', hnew, List.append_assoc]
  · apply List.nodup_append.mpr
    refine ⟨hnodup', hnodup, ?_⟩
    intro x hx y hy heq
    subst heq
    exact hdisjoint x ((hmem x).mp hy) ((hmem' x).mp hx)
  · intro x
    rw [List.mem_append, hmem, hmem', hR]
    exact Or.comm
  · intro a ha
    rw [h'.words a, h.words a]
    · intro x hx
      exact ha x ((hR x).mpr (Or.inl hx))
    · intro x hx
      exact ha x ((hR x).mpr (Or.inr hx))

/-- The words of other pages stay. -/
theorem Frees.keep {P : Nat → Prop} (h : Frees P t t') {p : Nat} (hp : p % pgsize = 0)
    (hP : ∀ x, P x → x % pgsize = 0 ∧ x ≠ p) {i : Nat} (hi : i < arch.entries) :
    t'.1.mem (cell arch p i) = t.1.mem (cell arch p i) := by
  apply h.words
  intro x hx
  obtain ⟨halign, hne⟩ := hP x hx
  unfold cell
  unfold pgsize at *
  cases arch with
  | i386 =>
    have hi' : i < 1024 := hi
    simp only [Arch.wordBytes]
    omega
  | x86_64 =>
    have hi' : i < 512 := hi
    simp only [Arch.wordBytes]
    omega

theorem free_spec (hfree : PgfreeOk pgfree) (pt : Nat) (t : Vme A × List Nat) :
    ∃ t', free pgfree (.mem pt) t = .ok t' ∧ Frees (fun x => x = pt) t t' := by
  refine ⟨_, rfl, ⟨[pt], rfl, by simp, fun x => List.mem_singleton⟩, ?_, rfl⟩
  intro a ha
  exact hfree pt t.1.mem a (ha pt rfl)

/-! ## Section 2: `teardown` -/

/-- The page is a table at or below the end of a path. -/
def Under (arch : Arch) (K : List Nat) (s : Vme A) (r : Option A) (path : List Nat) (x : Nat) :
    Prop :=
  ∃ rest, Own arch K (path ++ rest) ∧ s.table arch r (path ++ rest) = some x

/-- Where a table stops, there is nothing below. -/
theorem table_none_append {path rest : List Nat} (h : s.table arch r path = none) :
    s.table arch r (path ++ rest) = none := by
  unfold Vme.table Radix.node at h ⊢
  cases hroot : s.root arch r with
  | none => rfl
  | some p =>
    rw [hroot] at h
    have hstop : Radix.descend (s.child arch) p path = none := h
    show Radix.descend (s.child arch) p (path ++ rest) = none
    rw [Radix.descend_append, hstop]
    rfl

/-- The page is a table behind one of these indices of the table at the end of
    a path. -/
def Behind (arch : Arch) (K : List Nat) (s : Vme A) (r : Option A) (path done : List Nat)
    (x : Nat) : Prop :=
  ∃ i ∈ done, Under arch K s r (path ++ [i]) x

theorem behind_concat {path done : List Nat} {i x : Nat} :
    Behind arch K s r path (done ++ [i]) x ↔
      Behind arch K s r path done x ∨ Under arch K s r (path ++ [i]) x := by
  constructor
  · intro ⟨j, hj, hx⟩
    rcases List.mem_append.mp hj with hj | hj
    · exact Or.inl ⟨j, hj, hx⟩
    · rw [List.mem_singleton.mp hj] at hx
      exact Or.inr hx
  · intro hx
    rcases hx with ⟨j, hj, hx⟩ | hx
    · exact ⟨j, List.mem_append_left _ hj, hx⟩
    · exact ⟨i, List.mem_append_right _ List.mem_cons_self, hx⟩

/-- The tables under a path: the one at its end and those behind its indices. -/
theorem under_iff {path : List Nat} {p : Nat} (hown : Own arch K path)
    (hp : s.table arch r path = some p) (x : Nat) :
    Under arch K s r path x ↔ Behind arch K s r path (List.range arch.entries) x ∨ x = p := by
  have hassoc : ∀ i rest, path ++ [i] ++ rest = path ++ (i :: rest) := by simp
  constructor
  · intro ⟨rest, hrest, hx⟩
    cases rest with
    | nil =>
      rw [List.append_nil] at hx
      exact Or.inr (Option.some.inj (hx.symm.trans hp))
    | cons i rest =>
      refine Or.inl ⟨i, List.mem_range.mpr (hrest.2.1 i (by simp)), rest, ?_, ?_⟩
      · rw [hassoc]; exact hrest
      · rw [hassoc]; exact hx
  · intro hx
    rcases hx with ⟨i, -, rest, hrest, hx⟩ | heq
    · rw [hassoc] at hrest hx
      exact ⟨i :: rest, hrest, hx⟩
    · subst heq
      refine ⟨[], ?_, ?_⟩
      · rw [List.append_nil]; exact hown
      · rw [List.append_nil]; exact hp

variable (hinv : TablesInv arch K userFlags Kp s)
include hinv

theorem under_align {path : List Nat} {x : Nat} (h : Under arch K s r path x) : x % pgsize = 0 := by
  obtain ⟨rest, hrest, hx⟩ := h
  exact (hinv.pages x (hinv.tables r _ x hrest hx).1).1

theorem behind_ne {path done : List Nat} {p x : Nat} (hown : Own arch K path)
    (hp : s.table arch r path = some p) (h : Behind arch K s r path done x) :
    x % pgsize = 0 ∧ x ≠ p := by
  obtain ⟨i, -, hx⟩ := h
  refine ⟨under_align hinv hx, ?_⟩
  intro heq
  subst heq
  obtain ⟨rest, hrest, hx⟩ := hx
  obtain ⟨-, hpath⟩ := hinv.unshared _ _ _ _ _ hrest hown hx hp
  simp at hpath

/-- What is behind one index is not behind another. -/
theorem behind_disjoint {path done : List Nat} {i x : Nat} (hi : i ∉ done)
    (h : Behind arch K s r path done x) : ¬ Under arch K s r (path ++ [i]) x := by
  intro ⟨rest₂, hrest₂, hx₂⟩
  obtain ⟨j, hj, rest₁, hrest₁, hx₁⟩ := h
  obtain ⟨-, hpath⟩ := hinv.unshared _ _ _ _ _ hrest₁ hrest₂ hx₁ hx₂
  rw [List.append_assoc, List.append_assoc] at hpath
  have hcons := List.append_cancel_left hpath
  rw [List.singleton_append, List.singleton_append, List.cons.injEq] at hcons
  exact hi (hcons.1 ▸ hj)

/-- Behind an entry without both flags there is no owned table. -/
theorem under_skipped {path : List Nat} {p i : Nat} (hp : s.table arch r path = some p)
    (h : (present (s.mem (cell arch p i)) && s.mem (cell arch p i) &&& PTE_U != 0) = false)
    (x : Nat) : ¬ Under arch K s r (path ++ [i]) x := by
  intro ⟨rest, hrest, hx⟩
  by_cases hpresent : present (s.mem (cell arch p i)) = true
  · obtain ⟨q, hq, heq⟩ := hinv.interior r path i p (own_of_append hrest) hp hpresent
    have huser : s.mem (cell arch p i) &&& PTE_U = userFlags &&& PTE_U := by
      rw [heq, add_and_flags hq.1 (by decide) (by decide)]
    rw [hpresent, huser] at h
    cases h
  · have hnone : s.table arch r (path ++ [i]) = none := by
      rw [table_snoc hp i]
      unfold next_table
      rw [if_neg hpresent]
    rw [table_none_append hnone] at hx
    cases hx

omit hinv in
/-- Behind an entry with both flags there is one: the kernel's entries are not
    for users. -/
theorem teardown_entry (hsuper : ∀ p, s.root arch r = some p → ∀ i ∈ K,
      present (s.mem (cell arch p i)) → s.mem (cell arch p i) &&& PTE_U = 0)
    {path : List Nat} {p i : Nat} (hown : Own arch K path) (hp : s.table arch r path = some p)
    (hi : i < arch.entries) (hlen : path.length + 1 < arch.hwLevels.length)
    (h : (present (s.mem (cell arch p i)) && s.mem (cell arch p i) &&& PTE_U != 0) = true) :
    Own arch K (path ++ [i]) ∧
      s.table arch r (path ++ [i]) = some (baseof arch (s.mem (cell arch p i))) := by
  rw [Bool.and_eq_true, bne_iff_ne] at h
  obtain ⟨hpresent, huser⟩ := h
  have hnext : s.table arch r (path ++ [i]) = some (baseof arch (s.mem (cell arch p i))) := by
    rw [table_snoc hp i]
    unfold next_table
    rw [if_pos hpresent]
  refine ⟨⟨?_, ?_, ?_⟩, hnext⟩
  · rw [List.length_append]
    exact hlen
  · intro j hj
    rcases List.mem_append.mp hj with hj | hj
    · exact hown.2.1 j hj
    · rw [List.mem_singleton.mp hj]
      exact hi
  · intro j hj
    cases path with
    | nil =>
      -- The first step: a shared slot has no `PTE_U`.
      obtain rfl : i = j := Option.some.inj hj
      intro hK
      exact huser (hsuper p ((table_nil s r).symm.trans hp) i hK hpresent)
    | cons k path => exact hown.2.2 j hj

/-- The table has not been freed before the tables behind it. -/
theorem own_words {path done : List Nat} {p i : Nat} {t u : Vme A × List Nat}
    (hown : Own arch K path) (hp : s.table arch r path = some p) (hi : i < arch.entries)
    (hu : Frees (Behind arch K s r path done) t u) (hmem : ∀ x, Under arch K s r path x →
      ∀ i < arch.entries, t.1.mem (cell arch x i) = s.mem (cell arch x i)) :
    u.1.mem (cell arch p i) = s.mem (cell arch p i) := by
  have hp_under : Under arch K s r path p := (under_iff hown hp p).mpr (Or.inr rfl)
  rw [hu.keep (under_align hinv hp_under) (fun x => behind_ne hinv hown hp) hi]
  exact hmem p hp_under i hi

/-- Neither have the tables behind the next index. -/
theorem next_words {path done : List Nat} {p i : Nat} {t u : Vme A × List Nat}
    (hown : Own arch K path) (hp : s.table arch r path = some p) (hi : i < arch.entries)
    (hdone : i ∉ done) (hu : Frees (Behind arch K s r path done) t u)
    (hmem : ∀ x, Under arch K s r path x → ∀ i < arch.entries,
      t.1.mem (cell arch x i) = s.mem (cell arch x i)) {x : Nat}
    (hx : Under arch K s r (path ++ [i]) x) {j : Nat} (hj : j < arch.entries) :
    u.1.mem (cell arch x j) = s.mem (cell arch x j) := by
  have hx_path : Under arch K s r path x :=
    (under_iff hown hp x).mpr (Or.inl ⟨i, List.mem_range.mpr hi, hx⟩)
  rw [hu.keep (under_align hinv hx) ?_ hj]
  · exact hmem x hx_path j hj
  · intro y hy
    refine ⟨(behind_ne hinv hown hp hy).1, ?_⟩
    rintro rfl
    exact behind_disjoint hinv hdone hy hx

omit hinv in
/-- Behind a last-level table there are pages of the user, and no tables. -/
theorem under_last {path : List Nat} {i : Nat} (hlen : path.length + 1 = arch.hwLevels.length)
    (x : Nat) : ¬ Under arch K s r (path ++ [i]) x := by
  intro ⟨rest, hrest, _⟩
  have hlt := hrest.1
  simp only [List.length_append, List.length_singleton] at hlt
  omega

/-- `teardown` frees the tables at and below the end of its path.  The words of
    these tables are as in `s` when it starts. -/
theorem teardown_spec (hfree : PgfreeOk pgfree)
    (hsuper : ∀ p, s.root arch r = some p → ∀ i ∈ K, present (s.mem (cell arch p i)) →
      s.mem (cell arch p i) &&& PTE_U = 0)
    {infos : List PtInfo} (hbits : ∀ info ∈ infos, 1 <<< info.bits = arch.entries)
    {path : List Nat} {p level : Nat} {t : Vme A × List Nat} (hown : Own arch K path)
    (hp : s.table arch r path = some p) (hlen : path.length + infos.length = arch.hwLevels.length)
    (hlevel : 1 ≤ level) (hmem : ∀ x, Under arch K s r path x → ∀ i < arch.entries,
      t.1.mem (cell arch x i) = s.mem (cell arch x i)) :
    ∃ t', teardown arch pgfree infos level (.mem p) t = .ok t' ∧
      Frees (Under arch K s r path) t t' := by
  induction infos generalizing path p level t with
  | nil =>
    have hlt := hown.1
    rw [List.length_nil] at hlen
    omega
  | cons info infos ih =>
    rw [List.length_cons] at hlen
    have hloop : ∃ u, (List.range (1 <<< info.bits)).foldlM (fun (u : Vme A × List Nat) index => do
        let v ← u.1.read ((Loc.mem p).index arch index)
        if present v && v &&& PTE_U != 0 then
          teardown arch pgfree infos (level + 1) (.mem (baseof arch v)) u
        else .ok u) t = .ok u ∧
          Frees (Behind arch K s r path (List.range (1 <<< info.bits))) t u := by
      rw [hbits info List.mem_cons_self]
      apply foldlM_total (P := fun done u => Frees (Behind arch K s r path done) t u)
      · intro done i rest u hrange hu
        have hnodup : (done ++ i :: rest).Nodup := by
          rw [← hrange]
          exact List.nodup_range
        have hi : i < arch.entries := by
          apply List.mem_range.mp
          rw [hrange]
          simp
        have hi_done : i ∉ done := by
          intro hin
          exact (List.nodup_append.mp hnodup).2.2 i hin i List.mem_cons_self rfl
        have hskip : (∀ x, ¬ Under arch K s r (path ++ [i]) x) →
            Frees (Behind arch K s r path (done ++ [i])) t u := fun hnone =>
          hu.trans (Frees.none hnone u) (fun x => behind_disjoint hinv hi_done)
            fun x => behind_concat
        show ∃ u', (do
          let v ← Except.ok (u.1.mem (cell arch p i))
          if present v && v &&& PTE_U != 0 then
            teardown arch pgfree infos (level + 1) (.mem (baseof arch v)) u
          else .ok u) = .ok u' ∧ Frees (Behind arch K s r path (done ++ [i])) t u'
        rw [own_words hinv hown hp hi hu hmem, ok_bind]
        by_cases hlast : infos = []
        · subst hlast
          exact ⟨u, by split <;> rfl, hskip (under_last hlen)⟩
        · have hpos : 0 < infos.length := List.length_pos_iff.mpr hlast
          cases hcond : present (s.mem (cell arch p i)) && s.mem (cell arch p i) &&& PTE_U != 0 with
          | false => exact ⟨u, rfl, hskip (under_skipped hinv hp hcond)⟩
          | true =>
            rw [if_pos rfl]
            obtain ⟨hown_i, hnext⟩ := teardown_entry hsuper hown hp hi (by omega) hcond
            have hlen_i : (path ++ [i]).length + infos.length = arch.hwLevels.length := by
              rw [List.length_append, List.length_singleton]
              omega
            have hbits' : ∀ info' ∈ infos, 1 <<< info'.bits = arch.entries :=
              fun info' h => hbits info' (List.mem_cons_of_mem info h)
            obtain ⟨u', hrun, hu'⟩ := ih hbits' hown_i hnext hlen_i (show 1 ≤ level + 1 by omega)
              fun x hx j hj => next_words hinv hown hp hi hi_done hu hmem hx hj
            exact ⟨u', hrun, hu.trans hu' (fun x => behind_disjoint hinv hi_done)
              fun x => behind_concat⟩
      · apply Frees.none
        intro x ⟨i, hi, _⟩
        cases hi
    obtain ⟨u, hrun, hu⟩ := hloop
    obtain ⟨t', hfreed, ht'⟩ := free_spec hfree p u
    refine ⟨t', ?_, hu.trans ht' (fun x hx => (behind_ne hinv hown hp hx).2) ?_⟩
    · unfold teardown
      rw [hrun, ok_bind, if_pos hlevel]
      exact hfreed
    · intro x
      rw [hbits info List.mem_cons_self]
      exact under_iff hown hp x

omit hinv

variable {pgalloc : List Nat → Nat} {s' s₀ : Vme A} {m : Spaces A}

/-! ## Section 3: `unprotect` -/

/-- The levels below the root, and their tables. -/
theorem pgtables_bits (arch : Arch) : ∃ cr3 infos, arch.pgtables = cr3 :: infos ∧
    1 <<< cr3.bits = 1 ∧ infos.length = arch.hwLevels.length ∧
      ∀ info ∈ infos, 1 <<< info.bits = arch.entries := by
  cases arch with
  | i386 =>
    refine ⟨_, _, rfl, rfl, rfl, ?_⟩
    intro info hinfo
    rcases List.mem_cons.mp hinfo with rfl | hinfo
    · rfl
    · rw [List.mem_singleton.mp hinfo]
      rfl
  | x86_64 =>
    refine ⟨_, _, rfl, rfl, rfl, ?_⟩
    intro info hinfo
    simp only [List.mem_cons, List.not_mem_nil, or_false] at hinfo
    rcases hinfo with rfl | rfl | rfl | rfl <;> rfl

/-- `unprotect` frees the tables of its address space. -/
theorem unprotect_spec (hfree : PgfreeOk pgfree) (hready : KernelReady arch Kp s₀)
    (hsim : Sim arch Kp s₀ s m) {as : A} {pages : Pages} (hm : m as = some pages) :
    ∃ t, unprotect arch pgfree as s = .ok t ∧
      Frees (s.IsTable arch (kernel_slots arch) (some as)) (s, []) t := by
  obtain ⟨upt, hptr, hroot, hpage, hslots⟩ := hsim.upt hm
  obtain ⟨cr3, infos, hpt, hone, hlen, hbits⟩ := pgtables_bits arch
  have hsuper : ∀ p, s.root arch (some as) = some p → ∀ i ∈ kernel_slots arch,
      present (s.mem (cell arch p i)) → s.mem (cell arch p i) &&& PTE_U = 0 := by
    intro p hp i hi hpresent
    obtain rfl : upt = p := Option.some.inj (hroot.symm.trans hp)
    rw [hslots i hi] at hpresent ⊢
    exact hready.super i hi hpresent
  obtain ⟨t, hrun, ht⟩ := teardown_spec hsim.inv hfree hsuper hbits (own_nil arch _)
    ((table_nil s (some as)).trans hroot) (by rw [List.length_nil, hlen, Nat.zero_add])
    (Nat.le_refl 1) (t := (s, [])) (fun _ _ _ _ => rfl)
  refine ⟨t, ?_, ht⟩
  -- The root field holds one entry, for users.
  have hpresent : present (upt + ptrFlags) = true := by
    unfold present
    rw [add_and_flags hpage.1 (by decide) (by decide)]
    rfl
  have huser : (upt + ptrFlags) &&& PTE_U = PTE_U := by
    rw [add_and_flags hpage.1 (by decide) (by decide)]
    rfl
  have hread : s.read (.ptr (some as)) = .ok (upt + ptrFlags) := by
    unfold Vme.read
    dsimp only
    rw [hptr]
  unfold unprotect
  rw [hpt, teardown, hone, show List.range 1 = [0] from rfl, List.foldlM_cons]
  simp only [List.foldlM_nil, Loc.index, hread, ok_bind, hpresent, huser,
    baseof_add hpage (show ptrFlags < pgsize by decide)]
  rw [if_pos (by decide), hrun]
  rfl

/-! ## Section 4: Who owns a page -/

/-- The pages that a call has allocated. -/
def new_pages (s s' : Vme A) : List Nat := s'.pages.take (s'.pages.length - s.pages.length)

theorem new_pages_eq {new : List Nat} (h : s'.pages = new ++ s.pages) : new_pages s s' = new := by
  unfold new_pages
  rw [h, List.length_append, Nat.add_sub_cancel, List.take_left]

variable [DecidableEq A]

/-- The pages allocated for each address space since its last `protect`. -/
def own_pages (owned : A → List Nat) (s s' : Vme A) : Call A → A → List Nat
  | .protect as => Function.update owned as (new_pages s s')
  | .map as _ _ _ => Function.update owned as (new_pages s s' ++ owned as)
  | .switch _ => owned

/-- `run` with a record of the owners. -/
def run_owned (arch : Arch) (pgalloc : List Nat → Nat) (s : Vme A) (calls : List (Call A)) :
    Except Fault (Vme A × (A → List Nat)) :=
  calls.foldlM (fun t c => do
    let s' ← call arch pgalloc t.1 c
    return (s', own_pages t.2 t.1 s' c)) (s, fun _ => [])

/-- The record does not change the run. -/
theorem run_owned_fst {calls : List (Call A)} {owned : A → List Nat}
    (h : run_owned arch pgalloc s₀ calls = .ok (s, owned)) : run arch pgalloc s₀ calls = .ok s := by
  apply foldlM_ok (P := fun done t => run arch pgalloc s₀ done = .ok t.1) ?_ rfl h
  intro done c rest t t' _ hdone hstep
  obtain ⟨u, hcall, hu⟩ := bind_eq_ok hstep
  cases hu
  have hone : run arch pgalloc t.1 [c] = .ok u := by
    unfold run
    rw [List.foldlM_cons, hcall]
    rfl
  have happend : run arch pgalloc s₀ (done ++ [c]) =
      (do
        let s ← run arch pgalloc s₀ done
        run arch pgalloc s [c]) := List.foldlM_append
  rw [happend, hdone]
  exact hone

/-- The owned pages are the tables of the address space. -/
structure Owned (arch : Arch) (s : Vme A) (m : Spaces A) (owned : A → List Nat) : Prop where
  unset  : ∀ as, m as = none → owned as = []
  nodup  : ∀ as, (owned as).Nodup
  tables : ∀ as, m as ≠ none → ∀ x,
    x ∈ owned as ↔ s.IsTable arch (kernel_slots arch) (some as) x

theorem Owned.protect (hok : PgallocOk arch pgalloc) (hready : KernelReady arch Kp s₀)
    (hsim : Sim arch Kp s₀ s m) {owned : A → List Nat} (h : Owned arch s m owned) {as : A}
    (hcall : protect arch pgalloc as s = .ok s') :
    Owned arch s' (m.callUnmap (.protect as)) (own_pages owned s s' (.protect as)) := by
  have hkpt : s.kpt ∈ Kp := by rw [hsim.kpt]; exact hready.kpt.1
  obtain ⟨upt, s₁, ha, hrooted, -⟩ := protect_spec hok hsim.inv hkpt hcall
  obtain ⟨-, -, -, htable⟩ := root_step ha hsim.inv hrooted (by decide) (by decide)
  -- The only new page is the root.
  have hnew : new_pages s s' = [upt] := by
    apply new_pages_eq
    rw [hrooted.pages, ha.pages]
    rfl
  have hself : own_pages owned s s' (.protect as) as = [upt] := by
    rw [← hnew]
    exact Function.update_self _ _ _
  have hother : ∀ as', as' ≠ as → own_pages owned s s' (.protect as) as' = owned as' :=
    fun as' hne => Function.update_of_ne hne _ _
  refine ⟨?_, ?_, ?_⟩
  · intro as' hm
    by_cases heq : as' = as
    · rw [heq, m.protect_self] at hm
      cases hm
    · rw [hother as' heq]
      exact h.unset as' ((m.protect_ne heq).symm.trans hm)
  · intro as'
    by_cases heq : as' = as
    · rw [heq, hself]
      exact List.nodup_cons.mpr ⟨List.not_mem_nil, List.nodup_nil⟩
    · rw [hother as' heq]
      exact h.nodup as'
  · intro as' hm x
    rw [root_tables htable]
    by_cases heq : as' = as
    · rw [heq, hself, if_pos rfl]
      exact List.mem_singleton
    · rw [hother as' heq, if_neg (by simpa using heq)]
      exact h.tables as' ((m.protect_ne heq) ▸ hm) x

theorem Owned.map (hok : PgallocOk arch pgalloc) (hsim : Sim arch Kp s₀ s m)
    {owned : A → List Nat} (h : Owned arch s m owned) {as : A} {va pa prot : Nat}
    (hpa : pa < arch.physSize) (hcall : map arch pgalloc as va pa prot s = .ok s') :
    Owned arch s' (m.callUnmap (.map as va pa prot))
    (own_pages owned s s' (.map as va pa prot)) := by
  obtain ⟨-, -, -, hptr, hmapped⟩ := map_spec hok hsim.inv hpa hcall
  obtain ⟨new, hallot⟩ := hmapped.allots
  have hnew : new_pages s s' = new := new_pages_eq hallot.pages
  have hself : own_pages owned s s' (.map as va pa prot) as = new ++ owned as := by
    rw [← hnew]
    exact Function.update_self _ _ _
  have hother : ∀ as', as' ≠ as → own_pages owned s s' (.map as va pa prot) as' = owned as' :=
    fun as' hne => Function.update_of_ne hne _ _
  have hlive : m as ≠ none := fun hnone => hptr (hsim.unset as hnone)
  refine ⟨?_, ?_, ?_⟩
  · intro as' hm
    by_cases heq : as' = as
    · rw [heq, m.map_self, Option.map_eq_none_iff] at hm
      exact absurd hm hlive
    · rw [hother as' heq]
      exact h.unset as' ((m.map_ne va pa prot heq).symm.trans hm)
  · intro as'
    by_cases heq : as' = as
    · rw [heq, hself]
      -- The new pages were not in use.
      have hdistinct := hmapped.inv.distinct
      rw [hallot.pages] at hdistinct
      obtain ⟨hnodup, -, hdisjoint⟩ := List.nodup_append.mp hdistinct
      apply List.nodup_append.mpr
      refine ⟨hnodup, h.nodup as, ?_⟩
      intro x hx y hy
      obtain ⟨path, hpath, hy'⟩ := (h.tables as hlive y).mp hy
      exact hdisjoint x hx y (hsim.inv.tables _ _ y hpath hy').1
    · rw [hother as' heq]
      exact h.nodup as'
  · intro as' hm x
    rw [hallot.tables]
    by_cases heq : as' = as
    · rw [heq, hself, List.mem_append, h.tables as hlive]
      constructor
      · intro hx
        rcases hx with hx | hx
        · exact Or.inr ⟨rfl, hx⟩
        · exact Or.inl hx
      · intro hx
        rcases hx with hx | ⟨-, hx⟩
        · exact Or.inr hx
        · exact Or.inl hx
    · rw [hother as' heq, h.tables as' ((m.map_ne va pa prot heq) ▸ hm)]
      simp [heq]

/-- Run lemma. -/
theorem Owned.run (hok : PgallocOk arch pgalloc) (hready : KernelReady arch Kp s₀)
    {calls : List (Call A)} {owned : A → List Nat}
    (hpa : ∀ as va pa prot, Call.map as va pa prot ∈ calls → pa < arch.physSize)
    (hrun : run_owned arch pgalloc s₀ calls = .ok (s, owned)) :
    Sim arch Kp s₀ s (Spaces.runUnmap calls) ∧ Owned arch s (Spaces.runUnmap calls) owned := by
  apply foldlM_ok (P := fun done t => Sim arch Kp s₀ t.1 (Spaces.runUnmap done) ∧
    Owned arch t.1 (Spaces.runUnmap done) t.2) ?_ ?_ hrun
  · intro done c rest t t' hcalls ⟨hsim, howned⟩ hstep
    obtain ⟨u, hcall, hu⟩ := bind_eq_ok hstep
    cases hu
    have hpa' : ∀ as va pa prot, c = .map as va pa prot → pa < arch.physSize := by
      intro as va pa prot heq
      exact hpa as va pa prot (by rw [hcalls, heq]; simp)
    rw [Spaces.runUnmap_append]
    refine ⟨hsim.call hok hready hpa' hcall, ?_⟩
    cases c with
    | protect as => exact howned.protect hok hready hsim hcall
    | map as va pa prot => exact howned.map hok hsim (hpa' as va pa prot rfl) hcall
    | switch ctx =>
      cases hcall
      exact howned
  · refine ⟨Sim.init hready, fun _ _ => rfl, fun _ => List.nodup_nil, ?_⟩
    intro as hm
    exact absurd rfl hm

/-! ## Section 5: The result -/

/-- For every sequence of `protect` and `map` calls that does not panic,
    `unprotect` frees the pages that were allocated for its address space, each
    once, and no other: none of the kernel's tables, of which the shared
    entries lead to, and none of another address space. -/
theorem unprotect_frees {mem : Nat → Nat} {calls : List (Call A)} {owned : A → List Nat}
    (hok : PgallocOk arch pgalloc) (hmem : Booted arch mem) (hfree : PgfreeOk pgfree)
    (hinit : vme_init arch pgalloc (boot mem) = .ok s₀)
    (hrun : run_owned arch pgalloc s₀ calls = .ok (s, owned))
    (hpa : ∀ as va pa prot, Call.map as va pa prot ∈ calls → pa < arch.physSize)
    {as : A} {pages : Pages} (hlive : Spaces.runUnmap calls as = some pages) :
    ∃ s' freed, unprotect arch pgfree as s = .ok (s', freed) ∧
      freed.Perm (owned as) ∧ freed.Nodup ∧
      (s.kpt ∈ kernel_pages arch s₀ ∧ ∀ k ∈ kernel_pages arch s₀, k ∉ freed) ∧
      (∃ upt, s.root arch (some as) = some upt ∧
        ∀ i ∈ kernel_slots arch, ∀ x, s.child arch upt i = some x → x ∈ kernel_pages arch s₀) ∧
      (∀ as', as' ≠ as → ∀ x ∈ owned as', x ∉ freed) ∧
      ∀ a, (∀ x ∈ freed, a < x ∨ x + pgsize ≤ a) → s'.mem a = s.mem a := by
  have hready := vme_init_ready hok hmem hinit
  obtain ⟨hsim, howned⟩ := Owned.run hok hready hpa hrun
  obtain ⟨⟨s', freed⟩, hcall, hfrees⟩ := unprotect_spec hfree hready hsim hlive
  obtain ⟨new, hnew, hnodup, hmem_new⟩ := hfrees.freed
  -- `unprotect` starts with no page freed.
  obtain rfl : freed = new := by
    rw [List.append_nil] at hnew
    exact hnew
  have hlive' : Spaces.runUnmap calls as ≠ none := by rw [hlive]; simp
  obtain ⟨upt, -, hroot, -, hslots⟩ := hsim.upt hlive
  refine ⟨s', freed, hcall, ?_, hnodup, ⟨?_, ?_⟩, ⟨upt, hroot, ?_⟩, ?_, ?_⟩
  -- The pages freed are the tables of `as`, as the pages owned are.
  · apply (List.perm_ext_iff_of_nodup hnodup (howned.nodup as)).mpr
    intro x
    rw [hmem_new, howned.tables as hlive']
  · rw [hsim.kpt]
    exact hready.kpt.1
  · intro k hk hin
    obtain ⟨path, hpath, hx⟩ := (hmem_new k).mp hin
    exact (hsim.inv.tables _ _ k hpath hx).2 hk
  · intro i hi x hx
    unfold Vme.child at hx
    rw [hslots i hi] at hx
    exact hready.below i hi x hx
  -- A page of another address space would be a table of both.
  · intro as' hne x hx hin
    obtain ⟨path, hpath, hx₁⟩ := (hmem_new x).mp hin
    have hm' : Spaces.runUnmap calls as' ≠ none := by
      intro hnone
      rw [howned.unset as' hnone] at hx
      cases hx
    obtain ⟨path', hpath', hx₂⟩ := (howned.tables as' hm' x).mp hx
    obtain ⟨heq, -⟩ := hsim.inv.unshared _ _ _ _ _ hpath' hpath hx₂ hx₁
    exact hne (Option.some.inj heq)
  · intro a ha
    apply hfrees.words a
    intro x hx
    exact ha x ((hmem_new x).mpr hx)

/-- A `pgfree` that clears its page. -/
def pgfree_clear (page : Nat) (mem : Nat → Nat) (a : Nat) : Nat :=
  if page ≤ a ∧ a < page + pgsize then 0 else mem a

theorem pgfree_clear_ok : PgfreeOk pgfree_clear := by
  intro page mem a ha
  exact if_neg (by omega)

/-- The first of the two spaces gives its four tables back, and the four of the
    other one stay. -/
theorem unprotect_frees_two_spaces :
    ∃ (s s' : Vme Nat) (owned : Nat → List Nat) (freed : List Nat),
      (do let s₀ ← vme_init .x86_64 next_page (boot boot_mem)
          run_owned .x86_64 next_page s₀ two_spaces) = .ok (s, owned) ∧
        unprotect .x86_64 pgfree_clear 0 s = .ok (s', freed) ∧ freed.Perm (owned 0) ∧
        (owned 0).length = 4 ∧ (owned 1).length = 4 ∧
        (∀ x ∈ owned 1, x ∉ freed) ∧
        ∀ x ∈ owned 1, s'.mem (cell .x86_64 x 32) = s.mem (cell .x86_64 x 32) := by
  obtain ⟨⟨s, owned⟩, hs⟩ : ∃ t : Vme Nat × (Nat → List Nat), (do
      let s₀ ← vme_init .x86_64 next_page (boot boot_mem)
      let t ← run_owned .x86_64 next_page s₀ two_spaces
      cassert ((t.2 0).length == 4 && (t.2 1).length == 4 &&
        (t.2 0 ++ t.2 1).all fun x => x % pgsize == 0)
      return t) = .ok t :=
    toBool_ok (by decide +kernel)
  obtain ⟨s₀, hinit, hs⟩ := bind_eq_ok hs
  obtain ⟨t, hrun, hs⟩ := bind_eq_ok hs
  obtain ⟨⟨⟩, hsizes, hs⟩ := bind_eq_ok hs
  cases hs
  have hsizes := cassert_ok hsizes
  simp only [Bool.and_eq_true, beq_iff_eq, List.all_eq_true] at hsizes
  obtain ⟨⟨hfirst, hsecond⟩, haligned⟩ := hsizes
  obtain ⟨s', freed, hcall, hperm, -, -, -, hother, hmem⟩ := unprotect_frees next_page_ok
    booted_boot_mem pgfree_clear_ok hinit hrun two_spaces_pa (rfl : Spaces.runUnmap _ 0 = some _)
  have hspared : ∀ x ∈ owned 1, x ∉ freed := hother 1 Nat.one_ne_zero
  refine ⟨s, s', owned, freed, by rw [hinit, ok_bind]; exact hrun, hcall, hperm, hfirst, hsecond,
    hspared, fun x hx => hmem _ fun y hy => ?_⟩
  have hxy : x ≠ y := by
    rintro rfl
    exact hspared x hx hy
  have hx_page := haligned x (List.mem_append_right _ hx)
  have hy_page := haligned y (List.mem_append_left _ (hperm.mem_iff.mp hy))
  unfold cell pgsize at *
  simp only [Arch.wordBytes]
  omega

end teardown

end Am.X86
