import IcsPa.Am.Native.Vme

/-! # The pages in the host process

    What `map` and `__am_switch` leave in the host: exactly the nodes of the
    list of `thiscpu->vm_head` are mapped, and these are the nodes with
    `is_mapped`.  The loops of `__am_switch` move through states in which a
    part of a list is mapped; `Hosts` says which part.

    The run with a check at every `__am_pmem_unmap` is the same run, so no
    page is unmapped that was not mapped. -/

open CCall Chain

set_option linter.style.nameCheck false

namespace Am.Native

section host
variable {A : Type} {P : Platform} {s s' : Vme A} {owner : Nat → Option Nat} {m : Spaces A}

/-! ## Section 1: What is mapped -/

/-- What `__am_pmem_map` makes of a node. -/
def host_page (page : PageMap) : HostPage where
  pa := page.pa
  prot_read := page.prot &&& MMAP_READ != 0
  prot_exec := page.prot &&& MMAP_READ != 0
  prot_write := page.prot &&& MMAP_WRITE != 0

/-- Exactly the nodes `l` are mapped in the host. -/
structure Hosts (s : Vme A) (l : List Nat) : Prop where
  once   : (l.map fun p => (s.page p).va).Nodup
  host   : ∀ va hp, s.host va = some hp ↔
    ∃ p ∈ l, (s.page p).va = va ∧ host_page (s.page p) = hp
  mapped : ∀ p, (s.page p).is_mapped = true ↔ p ∈ l

/-- The nodes of the current list are mapped, and no other; without a current
    address space there are none. -/
def HostInv (s : Vme A) : Prop :=
  match s.vm_head with
  | none => Hosts s []
  | some h => ∃ l, Links s.next (s.next h) l ∧ Hosts s l

/-- `switch_out`, stopped at a page that is not mapped. -/
def switch_out_checked (pp : Nat) (s : Vme A) : Except Fault (Vme A) := do
  cassert (!(s.page pp).is_mapped || (s.host (s.page pp).va).isSome)
  switch_out pp s

/-- `__am_switch` with the check. -/
def __am_switch_checked (P : Platform) (head : Option Nat) (s : Vme A) : Except Fault (Vme A) :=
  if !s.vme_enable then .ok s
  else if head = s.vm_head then .ok s
  else do
    let s ← foreach_if switch_out_checked s.vm_head s
    let s ← foreach_if (switch_in P) head s
    return { s with vm_head := head }

/-- The addresses of pages that are as before. -/
theorem vas_congr {s t : Vme A} {l : List Nat} (hold : ∀ p ∈ l, t.page p = s.page p) :
    (l.map fun p => (t.page p).va) = l.map fun p => (s.page p).va := by
  apply List.map_congr_left
  intro p hp
  rw [hold p hp]

/-- Only pages outside the list have changed, and none of them is mapped. -/
theorem Hosts.congr {s t : Vme A} {l : List Nat} (h : Hosts s l) (hhost : t.host = s.host)
    (hold : ∀ p ∈ l, t.page p = s.page p)
    (hmapped : ∀ p, (t.page p).is_mapped = true ↔ p ∈ l) : Hosts t l := by
  refine ⟨?_, ?_, hmapped⟩
  · rw [vas_congr hold]
    exact h.once
  · intro va hp
    rw [hhost, h.host]
    apply exists_congr
    intro p
    apply and_congr_right
    intro hmem
    rw [hold p hmem]

/-! ## Section 2: The loops of `__am_switch` -/

/-- The first node of the rest is unmapped. -/
theorem switch_out_hosts {pp : Nat} {l : List Nat} (h : Hosts s (pp :: l)) :
    ∃ t, switch_out pp s = .ok t ∧ switch_out_checked pp s = .ok t ∧ Hosts t l ∧
      SameLists s t ∧ t.vm_head = s.vm_head := by
  have hmapped : (s.page pp).is_mapped = true := (h.mapped pp).mpr List.mem_cons_self
  have hhost : s.host (s.page pp).va = some (host_page (s.page pp)) :=
    (h.host _ _).mpr ⟨pp, List.mem_cons_self, rfl, rfl⟩
  have honce := h.once
  rw [List.map_cons, List.nodup_cons] at honce
  obtain ⟨hva, honce⟩ := honce
  -- No other page of the list is at this address.
  have hother : ∀ p ∈ l, (s.page p).va ≠ (s.page pp).va := by
    intro p hp heq
    exact hva (List.mem_map.mpr ⟨p, hp, heq⟩)
  have hnot : pp ∉ l := fun hmem => hother pp hmem rfl
  let t := (__am_pmem_unmap (s.page pp).va s).write pp
    { (__am_pmem_unmap (s.page pp).va s).page pp with is_mapped := false }
  have hrun : switch_out pp s = .ok t := by
    unfold switch_out
    rw [if_pos hmapped]
  -- Only `pp` is written.
  have hpage : ∀ p, p ≠ pp → t.page p = s.page p := by
    intro p hp
    exact Vme.write_ne _ _ hp
  have hself : t.page pp = { s.page pp with is_mapped := false } := Vme.write_self _ _ _
  have hlists : SameLists s t := by
    refine ⟨?_, rfl, rfl⟩
    intro p
    by_cases hp : p = pp
    · subst hp
      rw [hself]
    · rw [hpage p hp]
  have hold : ∀ p ∈ l, t.page p = s.page p := fun p hp => hpage p fun heq => hnot (heq ▸ hp)
  refine ⟨t, hrun, ?_, ⟨?_, ?_, ?_⟩, hlists, rfl⟩
  · unfold switch_out_checked
    rw [hhost, hmapped, hrun]
    rfl
  · rw [vas_congr hold]
    exact honce
  · intro va hp
    show Function.update s.host (s.page pp).va none va = some hp ↔ _
    -- The mapping at the address of `pp` is gone; those of the others stay.
    by_cases heq : va = (s.page pp).va
    · subst heq
      rw [Function.update_self]
      constructor
      · intro habs
        cases habs
      · intro ⟨p, hmem, hva', _⟩
        rw [hold p hmem] at hva'
        exact absurd hva' (hother p hmem)
    · rw [Function.update_of_ne heq, h.host]
      constructor
      · intro ⟨p, hmem, hva', hpage'⟩
        rcases List.mem_cons.mp hmem with hfirst | hmem
        · rw [hfirst] at hva'
          exact absurd hva'.symm heq
        · exact ⟨p, hmem, by rw [hold p hmem]; exact ⟨hva', hpage'⟩⟩
      · intro ⟨p, hmem, hrest⟩
        rw [hold p hmem] at hrest
        exact ⟨p, List.mem_cons_of_mem pp hmem, hrest⟩
  · intro p
    by_cases hp : p = pp
    · subst hp
      rw [hself]
      constructor
      · intro habs
        cases habs
      · intro hmem
        exact absurd hmem hnot
    · rw [hpage p hp, h.mapped, List.mem_cons]
      constructor
      · intro hmem
        rcases hmem with hfirst | hmem
        · exact absurd hfirst hp
        · exact hmem
      · intro hmem
        exact Or.inr hmem

/-- The first loop unmaps the whole list. -/
theorem switch_out_loop {l : List Nat} (h : Hosts s l) :
    ∃ t, l.foldlM (fun s pp => switch_out pp s) s = .ok t ∧
      l.foldlM (fun s pp => switch_out_checked pp s) s = .ok t ∧ Hosts t [] ∧ SameLists s t ∧
        t.vm_head = s.vm_head := by
  induction l generalizing s with
  | nil => exact ⟨s, rfl, rfl, h, SameLists.refl s, rfl⟩
  | cons pp l ih =>
    obtain ⟨u, hrun, hchecked, hu, hsame, hhead⟩ := switch_out_hosts h
    obtain ⟨t, hrest, hrest', ht, hsame', hhead'⟩ := ih hu
    refine ⟨t, ?_, ?_, ht, hsame.trans hsame', hhead'.trans hhead⟩
    · rw [List.foldlM_cons, hrun]
      exact hrest
    · rw [List.foldlM_cons, hchecked]
      exact hrest'

/-- One more node is mapped. -/
theorem map_now_hosts {pp : Nat} {l : List Nat} (h : Hosts s l)
    (hva : ∀ p ∈ l, (s.page p).va ≠ (s.page pp).va) (hrun : map_now P pp s = .ok s') :
    Hosts s' (pp :: l) ∧ SameLists s s' ∧ s'.vm_head = s.vm_head := by
  obtain ⟨u, hmap, hrun⟩ := bind_eq_ok hrun
  obtain ⟨_, -, hmap⟩ := bind_eq_ok hmap
  cases hmap
  obtain rfl := Except.ok.inj hrun
  have hnot : pp ∉ l := fun hmem => hva pp hmem rfl
  let u : Vme A :=
      { s with host := Function.update s.host (s.page pp).va (some (host_page (s.page pp))) }
  show Hosts (u.write pp { u.page pp with is_mapped := true }) (pp :: l) ∧
    SameLists s (u.write pp { u.page pp with is_mapped := true }) ∧ _
  have hself : (u.write pp { u.page pp with is_mapped := true }).page pp =
      { s.page pp with is_mapped := true } := Vme.write_self _ _ _
  have hpage : ∀ p, p ≠ pp →
      (u.write pp { u.page pp with is_mapped := true }).page p = s.page p := by
    intro p hp
    exact Vme.write_ne _ _ hp
  -- `pp` is not in the list, so the pages of the list are as before.
  have hold : ∀ p ∈ l, (u.write pp { u.page pp with is_mapped := true }).page p = s.page p :=
    fun p hp => hpage p fun heq => hnot (heq ▸ hp)
  refine ⟨⟨?_, ?_, ?_⟩, ⟨?_, rfl, rfl⟩, rfl⟩
  · rw [List.map_cons, List.nodup_cons, hself]
    rw [vas_congr hold]
    refine ⟨?_, h.once⟩
    intro hmem
    obtain ⟨p, hp, heq⟩ := List.mem_map.mp hmem
    exact hva p hp heq
  · intro va hp
    show Function.update s.host (s.page pp).va (some (host_page (s.page pp))) va = some hp ↔ _
    -- The address of `pp` is new to the host.
    by_cases heq : va = (s.page pp).va
    · subst heq
      rw [Function.update_self]
      constructor
      · intro hsome
        exact ⟨pp, List.mem_cons_self, by rw [hself], by rw [hself]; exact Option.some.inj hsome⟩
      · intro ⟨p, hmem, hva', hpage'⟩
        rcases List.mem_cons.mp hmem with hfirst | hmem
        · rw [hfirst, hself] at hpage'
          exact congrArg some hpage'
        · rw [hold p hmem] at hva'
          exact absurd hva' (hva p hmem)
    · rw [Function.update_of_ne heq, h.host]
      constructor
      · intro ⟨p, hmem, hrest⟩
        exact ⟨p, List.mem_cons_of_mem pp hmem, by rw [hold p hmem]; exact hrest⟩
      · intro ⟨p, hmem, hva', hpage'⟩
        rcases List.mem_cons.mp hmem with hfirst | hmem
        · rw [hfirst, hself] at hva'
          exact absurd hva'.symm heq
        · rw [hold p hmem] at hva' hpage'
          exact ⟨p, hmem, hva', hpage'⟩
  · intro p
    by_cases hp : p = pp
    · subst hp
      rw [hself]
      exact ⟨fun _ => List.mem_cons_self, fun _ => rfl⟩
    · rw [hpage p hp, h.mapped, List.mem_cons]
      exact ⟨Or.inr, fun hmem => hmem.resolve_left hp⟩
  · intro p
    by_cases hp : p = pp
    · subst hp
      rw [hself]
    · rw [hpage p hp]

/-- The order of the nodes does not matter. -/
theorem Hosts.perm {l l' : List Nat} (h : Hosts s l) (hperm : l.Perm l') : Hosts s l' := by
  refine ⟨(hperm.map _).nodup_iff.mp h.once, ?_, ?_⟩
  · intro va hp
    rw [h.host]
    apply exists_congr
    intro p
    rw [hperm.mem_iff]
  · intro p
    rw [h.mapped, hperm.mem_iff]

/-- The second loop maps the whole list. -/
theorem switch_in_loop {l : List Nat} (h : Hosts s [])
    (honce : (l.map fun p => (s.page p).va).Nodup)
    (hrun : l.foldlM (fun s pp => switch_in P pp s) s = .ok s') :
    Hosts s' l ∧ SameLists s s' ∧ s'.vm_head = s.vm_head := by
  have hloop := foldlM_ok (P := fun done t => Hosts t done.reverse ∧ SameLists s t ∧
    t.vm_head = s.vm_head) ?_ ⟨h, SameLists.refl s, rfl⟩ hrun
  · exact ⟨hloop.1.perm l.reverse_perm, hloop.2⟩
  · intro done pp rest t t' hl ⟨ht, hsame, hhead⟩ hstep
    obtain ⟨_, -, hmap⟩ := bind_eq_ok hstep
    have hva : ∀ p, (t.page p).va = (s.page p).va := fun p => by rw [hsame.page p]
    have hdistinct : ∀ p ∈ done.reverse, (t.page p).va ≠ (t.page pp).va := by
      intro p hp heq
      rw [hva, hva] at heq
      rw [hl, List.map_append, List.map_cons] at honce
      have hdisjoint := (List.nodup_append.mp honce).2.2
      exact hdisjoint _ (List.mem_map_of_mem (List.mem_reverse.mp hp)) _ List.mem_cons_self heq
    obtain ⟨ht', hsame', hhead'⟩ := map_now_hosts ht hdistinct hmap
    refine ⟨?_, hsame.trans hsame', hhead'.trans hhead⟩
    rw [List.reverse_append]
    exact ht'

/-! ## Section 3: One call -/

/-- A loop that does not relink runs over the list of its head. -/
theorem list_foreach_eq {body : Nat → Vme A → Except Fault (Vme A)}
    (hbody : ∀ pp s s', body pp s = .ok s' → s'.next = s.next) (hi : ListInv s owner) {h : Nat}
    (hh : owner h = some h) {l : List Nat} (hlinks : Links s.next (s.next h) l) :
    list_foreach body h s = l.foldlM (fun s pp => body pp s) s := by
  obtain ⟨hl, hchain⟩ := hi.chain_of_links hh hlinks
  exact foreach_eq_foldlM hbody hlinks (hi.length_le hchain hl)

theorem Quiet.next {body : Nat → Vme A → Except Fault (Vme A)} (hbody : Quiet body) (pp : Nat)
    (s s' : Vme A) (h : body pp s = .ok s') : s'.next = s.next := by
  rcases hbody pp s with herr | ⟨t, hok, hsame, -⟩
  · rw [herr] at h
    cases h
  · rw [hok] at h
    cases h
    exact hsame.next

theorem checked_next (pp : Nat) (s s' : Vme A) (h : switch_out_checked pp s = .ok s') :
    s'.next = s.next := by
  obtain ⟨_, -, h⟩ := bind_eq_ok h
  exact quiet_switch_out.next pp s s' h

/-- The first loop, for any current address space. -/
theorem unmap_current (hi : ListInv s owner) (hinv : HostInv s) :
    ∃ t, foreach_if switch_out s.vm_head s = .ok t ∧
      foreach_if switch_out_checked s.vm_head s = .ok t ∧ Hosts t [] ∧ SameLists s t ∧
        t.vm_head = s.vm_head := by
  unfold HostInv at hinv
  cases hcur : s.vm_head with
  | none =>
    rw [hcur] at hinv
    exact ⟨s, rfl, rfl, hinv, SameLists.refl s, hcur⟩
  | some h =>
    rw [hcur] at hinv
    obtain ⟨l, hlinks, hhosts⟩ := hinv
    obtain ⟨t, hrun, hchecked, ht, hsame, hhead⟩ := switch_out_loop hhosts
    have hh := hi.current h hcur
    refine ⟨t, ?_, ?_, ht, hsame, hhead.trans hcur⟩
    · exact (list_foreach_eq quiet_switch_out.next hi hh hlinks).trans hrun
    · exact (list_foreach_eq checked_next hi hh hlinks).trans hchecked

/-- Step lemma of `__am_switch`. -/
theorem switch_host {head : Option Nat} (hi : ListInv s owner) (hinv : HostInv s)
    (hhead : ∀ h, head = some h → owner h = some h ∧
      ∃ l, Links s.next (s.next h) l ∧ (l.map fun p => (s.page p).va).Nodup)
    (hok : __am_switch P head s = .ok s') :
    HostInv s' ∧ __am_switch_checked P head s = .ok s' := by
  unfold __am_switch at hok
  unfold __am_switch_checked
  by_cases hen : (!s.vme_enable) = true
  · rw [if_pos hen] at hok ⊢
    cases hok
    exact ⟨hinv, rfl⟩
  rw [if_neg hen] at hok ⊢
  by_cases hcur : head = s.vm_head
  · -- The current address space stays, and nothing is done.
    rw [if_pos hcur] at hok ⊢
    cases hok
    exact ⟨hinv, rfl⟩
  rw [if_neg hcur] at hok ⊢
  obtain ⟨t, hunmap, hchecked, ht, hsame, hvm⟩ := unmap_current hi hinv
  rw [hunmap, ok_bind] at hok
  rw [hchecked, ok_bind]
  refine ⟨?_, hok⟩
  obtain ⟨u, hmap, hok⟩ := bind_eq_ok hok
  cases hok
  unfold HostInv
  dsimp only
  cases head with
  | none =>
    cases hmap
    exact ⟨ht.once, ht.host, ht.mapped⟩
  | some h =>
    -- The pages of the new address space are switched in one by one.
    obtain ⟨hh, l, hlinks, honce⟩ := hhead h rfl
    have hit : ListInv t owner := hsame.inv hi fun p hp => hi.current p (hvm ▸ hp)
    have hlinks_t : Links t.next (t.next h) l := by
      rw [hsame.next]
      exact hlinks
    have honce_t : (l.map fun p => (t.page p).va).Nodup := by
      have hva : ∀ p, (t.page p).va = (s.page p).va := fun p => by rw [hsame.page p]
      simp only [hva]
      exact honce
    have hloop : l.foldlM (fun s pp => switch_in P pp s) t = .ok u := by
      rw [← list_foreach_eq quiet_switch_in.next hit hh hlinks_t]
      exact hmap
    obtain ⟨hu, hsame', -⟩ := switch_in_loop ht honce_t hloop
    refine ⟨l, ?_, hu.once, hu.host, hu.mapped⟩
    show Links u.next (u.next h) l
    rw [hsame'.next]
    exact hlinks_t

theorem Records.va_ne {l : List Nat} {pages : Pages} (hr : Records s l pages) {va : Nat}
    (hva : pages va = none) : ∀ p ∈ l, (s.page p).va ≠ va := by
  intro p hp heq
  have hsome := (hr.latest _ _ _).mpr ⟨p, hp, heq, rfl, rfl⟩
  rw [hva] at hsome
  cases hsome

section map
variable {h va pa prot : Nat}

/-- `map` of a page that is not mapped. -/
theorem map_fresh [DecidableEq A] {as : A} {pages : Pages} (hi : ListInv s owner)
    (hr : Refines s m) (hptr : (s.space as).ptr = some h) (hm : m as = some pages)
    (hva : pages va = none) (hok : map P as va pa prot s = .ok s') :
    (if s.vm_head = some h then map_now P s.brk (link_fresh h va pa prot s)
      else .ok (link_fresh h va pa prot s)) = .ok s' := by
  have has := hr as
  rw [hm] at has
  obtain ⟨h', l, hptr', hlinks, hrec⟩ := has
  obtain rfl : h' = h := Option.some.inj (hptr'.symm.trans hptr)
  obtain ⟨_, -, hok⟩ := bind_eq_ok hok
  obtain ⟨_, -, hok⟩ := bind_eq_ok hok
  obtain ⟨_, -, hok⟩ := bind_eq_ok hok
  rw [hptr] at hok
  obtain ⟨found, hfind, hok⟩ := bind_eq_ok hok
  rw [find_va_eq hi (hi.heads as h' hptr) hlinks, hrec.find_eq_none.mpr hva] at hfind
  cases hfind
  exact hok

theorem link_fresh_is_mapped (hne : h ≠ s.brk) (p : Nat) :
    ((link_fresh h va pa prot s).page p).is_mapped =
      if p = s.brk then false else (s.page p).is_mapped := by
  by_cases hp : p = s.brk
  · rw [if_pos hp, hp]
    exact congrArg PageMap.is_mapped (link_node_page hne.symm)
  · rw [if_neg hp]
    by_cases hph : p = h
    · subst hph
      have hhead : (link_fresh p va pa prot s).page p =
          { (pgalloc s).2.page p with next := some s.brk } := link_node_page_head hne.symm
      have hkeep : (pgalloc s).2.page p = s.page p := s.write_ne zeroPage hp
      rw [hhead, hkeep]
    · rw [link_fresh_page_ne hp hph]

/-- Linking a node leaves the mapped nodes as they are. -/
theorem link_fresh_hosts {l : List Nat} (hne : h ≠ s.brk) (hb : s.brk ∉ l) (hl : h ∉ l)
    (hhosts : Hosts s l) : Hosts (link_fresh h va pa prot s) l := by
  have hold : ∀ p ∈ l, (link_fresh h va pa prot s).page p = s.page p := fun p hp =>
    link_fresh_page_ne (fun heq => hb (heq ▸ hp)) fun heq => hl (heq ▸ hp)
  have hhost : (link_fresh h va pa prot s).host = s.host := rfl
  apply hhosts.congr hhost hold
  intro p
  rw [link_fresh_is_mapped hne]
  by_cases hp : p = s.brk
  · rw [if_pos hp, hp]
    exact ⟨nofun, fun hmem => absurd hmem hb⟩
  · rw [if_neg hp]
    exact hhosts.mapped p

/-- Step lemma of `map`. -/
theorem map_host [DecidableEq A] {as : A} {pages : Pages} (hi : ListInv s owner)
    (hr : Refines s m) (hinv : HostInv s) (hptr : (s.space as).ptr = some h)
    (hm : m as = some pages) (hva : pages va = none) (hok : map P as va pa prot s = .ok s') :
    HostInv s' := by
  have hh := hi.heads as h hptr
  have hne := hi.ne_brk hh
  have hrun := map_fresh hi hr hptr hm hva hok
  have has := hr as
  rw [hm] at has
  obtain ⟨h', l, hptr', hlinks, hrec⟩ := has
  obtain rfl : h' = h := Option.some.inj (hptr'.symm.trans hptr)
  obtain ⟨hown, hchain⟩ := hi.chain_of_links hh hlinks
  have hb : s.brk ∉ h' :: l := fun hmem => hi.ne_brk (hown _ hmem) rfl
  have hout : h' ∉ l := (List.nodup_cons.mp (links_nodup hchain)).1
  have hbl : s.brk ∉ l := fun hmem => hb (List.mem_cons_of_mem _ hmem)
  by_cases hcur : s.vm_head = some h'
  · -- The new node is mapped at once.
    rw [if_pos hcur] at hrun
    unfold HostInv at hinv
    rw [hcur] at hinv
    obtain ⟨l', hlinks', hhosts⟩ := hinv
    obtain rfl := links_unique hlinks' hlinks
    have hlinked : Hosts (link_fresh h' va pa prot s) l' := link_fresh_hosts hne hbl hout hhosts
    have hdistinct : ∀ p ∈ l', ((link_fresh h' va pa prot s).page p).va ≠
        ((link_fresh h' va pa prot s).page s.brk).va := by
      intro p hp
      have hnew : (link_fresh h' va pa prot s).page s.brk = ⟨va, pa, _, prot, false⟩ :=
        link_node_page hne.symm
      have hp_brk : p ≠ s.brk := fun heq => hbl (heq ▸ hp)
      have hp_head : p ≠ h' := fun heq => hout (heq ▸ hp)
      rw [hnew, link_fresh_page_ne hp_brk hp_head]
      exact hrec.va_ne hva p hp
    obtain ⟨hhosts', hsame, hvm⟩ := map_now_hosts hlinked hdistinct hrun
    have hvm' : s'.vm_head = some h' := hvm.trans hcur
    unfold HostInv
    rw [hvm']
    refine ⟨s.brk :: l', ?_, hhosts'⟩
    rw [hsame.next, link_fresh_next hne]
    exact (links_insert hb hchain).2
  · rw [if_neg hcur] at hrun
    cases hrun
    unfold HostInv at hinv ⊢
    have hvm : (link_fresh h' va pa prot s).vm_head = s.vm_head := rfl
    rw [hvm]
    cases hk : s.vm_head with
    | none =>
      rw [hk] at hinv
      exact link_fresh_hosts hne List.not_mem_nil List.not_mem_nil hinv
    | some k =>
      rw [hk] at hinv
      obtain ⟨l', hlinks', hhosts⟩ := hinv
      -- The current list is another one.
      have hkh : k ≠ h' := fun heq => hcur (heq ▸ hk)
      obtain ⟨hown', -⟩ := hi.chain_of_links (hi.current k hk) hlinks'
      have hother : ∀ p ∈ k :: l', p ≠ s.brk ∧ p ≠ h' := by
        intro p hp
        refine ⟨hi.ne_brk (hown' p hp), ?_⟩
        intro heq
        subst heq
        exact hkh (Option.some.inj ((hown' p hp).symm.trans hh))
      have hnext : ∀ p ∈ k :: l', (link_fresh h' va pa prot s).next p = s.next p := fun p hp =>
        link_fresh_next_ne hne (hother p hp).1 (hother p hp).2
      refine ⟨l', ?_, link_fresh_hosts hne ?_ ?_ hhosts⟩
      · rw [hnext k List.mem_cons_self]
        exact links_congr (fun p hp => (hnext p (List.mem_cons_of_mem k hp)).symm) hlinks'
      · exact fun hmem => (hother _ (List.mem_cons_of_mem k hmem)).1 rfl
      · exact fun hmem => (hother _ (List.mem_cons_of_mem k hmem)).2 rfl

end map

/-- Step lemma of `protect`: the new head is not mapped. -/
theorem protect_host [DecidableEq A] (as : A) (hi : ListInv s owner) (hinv : HostInv s) :
    HostInv (protect P as s) := by
  have hkeep : ∀ l : List Nat, (∀ p ∈ l, p ≠ s.brk) → Hosts s l → Hosts (protect P as s) l := by
    intro l hl hhosts
    have hpage : ∀ p, p ≠ s.brk → (protect P as s).page p = s.page p := fun p hp =>
      s.write_ne zeroPage hp
    -- The page that is allocated is in no list.
    have hhost : (protect P as s).host = s.host := rfl
    apply hhosts.congr hhost fun p hp => hpage p (hl p hp)
    intro p
    by_cases hp : p = s.brk
    · have hzero : (protect P as s).page p = zeroPage := by
        rw [hp]
        exact s.write_self _ _
      rw [hzero]
      exact ⟨nofun, fun hmem => absurd hp (hl p hmem)⟩
    · rw [hpage p hp]
      exact hhosts.mapped p
  unfold HostInv at hinv ⊢
  have hvm : (protect P as s).vm_head = s.vm_head := rfl
  rw [hvm]
  cases hk : s.vm_head with
  | none =>
    rw [hk] at hinv
    exact hkeep [] (by simp) hinv
  | some k =>
    rw [hk] at hinv
    obtain ⟨l, hlinks, hhosts⟩ := hinv
    obtain ⟨hown, -⟩ := hi.chain_of_links (hi.current k hk) hlinks
    have hnext : ∀ p ∈ k :: l, (protect P as s).next p = s.next p := fun p hp =>
      protect_keeps_next as hi (hown p hp)
    refine ⟨l, ?_, hkeep l ?_ hhosts⟩
    · rw [hnext k List.mem_cons_self]
      exact links_congr (fun p hp => (hnext p (List.mem_cons_of_mem k hp)).symm) hlinks
    · intro p hp
      exact hi.ne_brk (hown p (List.mem_cons_of_mem k hp))

/-! ## Section 4: Runs -/

theorem init_host : HostInv (vme_init : Vme A) := by
  refine ⟨List.nodup_nil, ?_, ?_⟩
  · intro va hp
    constructor
    · intro habs
      cases habs
    · intro ⟨p, hmem, _⟩
      cases hmem
  · intro p
    exact ⟨nofun, nofun⟩

variable [DecidableEq A]

/-- `call` with the check at every `__am_pmem_unmap`. -/
def call_checked (P : Platform) (s : Vme A) : Call A → Except Fault (Vme A)
  | .switch ctx => __am_switch_checked P (ctx.bind fun as => (s.space as).ptr) s
  | c => call P s c

def run_checked (P : Platform) (calls : List (Call A)) : Except Fault (Vme A) :=
  calls.foldlM (call_checked P) vme_init

/-- Step lemma: a call that maps no page again keeps exactly the current list
    mapped, and unmaps only what is mapped. -/
theorem call_host {c : Call A} (hi : ListInv s owner) (hr : Refines s m) (hinv : HostInv s)
    (hc : ¬ Remaps m c) (hok : call P s c = .ok s') :
    HostInv s' ∧ call_checked P s c = .ok s' := by
  cases c with
  | protect as =>
    cases hok
    exact ⟨protect_host as hi hinv, rfl⟩
  -- The address is not mapped yet, so the list gets a new page.
  | map as va pa prot =>
    have hassert : map P as va pa prot s ≠ .error .assertion := by
      intro herr
      rw [call, herr] at hok
      cases hok
    obtain ⟨h, pages, -, -, hptr, hm, -⟩ := map_result hi hr hassert
    have hva : pages va = none := by
      cases hp : pages va with
      | none => rfl
      | some e => exact absurd ⟨pages, e, hm, hp⟩ hc
    exact ⟨map_host hi hr hinv hptr hm hva hok, hok⟩
  -- The context names an address space that has been made.
  | switch ctx =>
    apply switch_host hi hinv ?_ hok
    intro h hh
    obtain ⟨as, -, hptr⟩ := Option.bind_eq_some_iff.mp hh
    refine ⟨hi.heads as h hptr, ?_⟩
    have has := hr as
    cases hm : m as with
    | none =>
      rw [hm] at has
      have hnone : (s.space as).ptr = none := has
      rw [hnone] at hptr
      cases hptr
    | some pages =>
      rw [hm] at has
      obtain ⟨h', l, hptr', hlinks, hrec⟩ := has
      obtain rfl : h' = h := Option.some.inj (hptr'.symm.trans hptr)
      exact ⟨l, hlinks, hrec.once⟩

/-- After every run that maps no page twice, the pages mapped in the host are
    the list of `thiscpu->vm_head` with its `pa` and `prot`, the nodes with
    `is_mapped` are those of this list, and no `__am_pmem_unmap` on the way was
    for a page that was not mapped. -/
theorem host_matches (calls : List (Call A)) (hno : NoRemap calls)
    (hrun : run P calls = .ok s) : HostInv s ∧ run_checked P calls = .ok s := by
  induction calls using List.reverseRecOn generalizing s with
  | nil =>
    cases hrun
    exact ⟨init_host, rfl⟩
  | append_singleton calls c ih =>
    rw [run_append] at hrun
    obtain ⟨t, hbefore, hcall⟩ := bind_eq_ok hrun
    have hno' : NoRemap calls := fun before d after hsplit =>
      hno before d (after ++ [c]) (by rw [hsplit]; simp)
    obtain ⟨hinv, hchecked⟩ := ih hno' hbefore
    obtain ⟨t', owner, hrun', hi, hr⟩ := run_refines calls hno' (by rw [hbefore]; nofun)
    obtain rfl : t = t' := Except.ok.inj (hbefore.symm.trans hrun')
    obtain ⟨hinv', hchecked'⟩ := call_host hi hr hinv (hno calls c [] rfl) hcall
    refine ⟨hinv', ?_⟩
    unfold run_checked at hchecked ⊢
    rw [List.foldlM_append, hchecked, ok_bind, List.foldlM_cons, hchecked']
    rfl

/-- Two address spaces, and a switch from one to the other. -/
def two_spaces : List (Call Nat) :=
  [.protect 0, .protect 1, .map 0 0x40000000 0x1000 MMAP_READ, .map 1 0x40000000 0x2000 MMAP_WRITE,
    .switch (some 0), .switch (some 1)]

theorem host_matches_two_spaces : ∃ s, run linux two_spaces = .ok s ∧ HostInv s ∧
    run_checked linux two_spaces = .ok s ∧
    s.host 0x40000000 = some ⟨0x2000, false, false, true⟩ := by
  have hno : NoRemap two_spaces := by
    have hmap : ∀ (m : Spaces Nat) as va pa prot, (∀ pages, m as = some pages → pages va = none) →
        ¬ Remaps m (.map as va pa prot) := by
      intro m as va pa prot hnone ⟨pages, e, hm, hva⟩
      rw [hnone pages hm] at hva
      cases hva
    apply noRemap_concat [_, _, _, _, _] ?_ id
    apply noRemap_concat [_, _, _, _] ?_ id
    apply noRemap_concat [_, _, _] ?_ (hmap _ _ _ _ _ ?_)
    apply noRemap_concat [_, _] ?_ (hmap _ _ _ _ _ ?_)
    apply noRemap_concat [_] ?_ id
    apply noRemap_concat [] ?_ id
    · intro before c after hsplit
      simp at hsplit
    · intro pages hm
      cases hm
      rfl
    · intro pages hm
      cases hm
      rfl
  obtain ⟨s, hs⟩ : ∃ s, run linux two_spaces = .ok s := ⟨_, rfl⟩
  obtain ⟨hinv, hchecked⟩ := host_matches two_spaces hno hs
  refine ⟨s, hs, hinv, hchecked, ?_⟩
  cases hs
  rfl

end host

end Am.Native
