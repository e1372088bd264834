import IcsPa.Framework.Chain
import IcsPa.Nemu.Common

/-! # The watchpoint pool

    `src/monitor/debug/watchpoint.c`.  The 32 nodes of `wp_pool` are shared
    between two singly linked lists with one `next` field per node: the
    active watchpoints from `head` and the free nodes from `free_`.

    `WpInv s active free` names the two lists: they are finite chains and
    together a rearrangement of the pool.  Each operation has one lemma that
    says which lists it leaves. -/

open CCall Chain

namespace Nemu.Watchpoint

/-! ## Section 1: The pool -/

def NR_WP : Nat := 32

/-- What a `char *` field points at: nothing, a string, or memory that has
    been given back to `free`. -/
inductive CharPtr where
  | null
  | live (s : List Char)
  | freed
  deriving DecidableEq, Repr

/-- A node.  A pointer to a node is its index in `wp_pool`. -/
structure WP where
  NO          : Int
  next        : Option Nat
  watch_expr  : CharPtr
  watch_value : Nat

/-- The static variables of the file. -/
structure WpPool where
  wp_pool : Nat → WP
  head    : Option Nat
  free_   : Option Nat

namespace WpPool

/-- The `next` field of each node. -/
def next (s : WpPool) (p : Nat) : Option Nat := (s.wp_pool p).next

/-- `wp_pool[p] = wp`. -/
def write (s : WpPool) (p : Nat) (wp : WP) : WpPool :=
  { s with wp_pool := Function.update s.wp_pool p wp }

@[simp] theorem write_self (s : WpPool) (p : Nat) (wp : WP) : (s.write p wp).wp_pool p = wp := by
  simp [write]

theorem write_ne (s : WpPool) {p q : Nat} (wp : WP) (h : q ≠ p) :
    (s.write p wp).wp_pool q = s.wp_pool q := by
  simp [write, Function.update_of_ne h]

theorem write_next (s : WpPool) (p : Nat) (wp : WP) :
    (s.write p wp).next = Function.update s.next p wp.next := by
  funext q
  by_cases hq : q = p
  · subst hq; simp [next]
  · simp [next, write_ne s wp hq, Function.update_of_ne hq]

end WpPool

/-- The body of the loop of `init_wp_pool`. -/
def init_node (pool : Nat → WP) (i : Nat) : Nat → WP :=
  Function.update pool i { NO := i, next := some (i + 1), watch_expr := .null, watch_value := 0 }

def init_wp_pool : WpPool :=
  let pool := (List.range NR_WP).foldl init_node fun _ => ⟨0, none, .null, 0⟩
  let pool := Function.update pool (NR_WP - 1) { pool (NR_WP - 1) with next := none }
  { wp_pool := pool, head := none, free_ := some 0 }

def new_wp (s : WpPool) : Except Fault (Nat × WpPool) :=
  match s.free_ with
  | none => .error .assertion
  | some p =>
      let s := { s with free_ := s.next p }
      let s := s.write p { s.wp_pool p with next := s.head }
      .ok (p, { s with head := some p })

/-- `free(wp->watch_expr)`. -/
def free_expr : CharPtr → Except Fault CharPtr
  | .null => .ok .null
  | .live _ => .ok .freed
  | .freed => .error .outOfBounds

/-- The node before `wp`, or the last node: where the `while` of `free_wp`
    stops. -/
def find_pre (s : WpPool) (wp : Nat) : Except Fault Nat :=
  match search s.next (fun pre => s.next pre == some wp || s.next pre == none) NR_WP s.head with
  | some (some pre) => .ok pre
  | some none => .error .assertion
  | none => .error .diverges

/-- The `else` branch of `free_wp`: `wp` leaves the list behind its
    predecessor. -/
def unlink_wp (s : WpPool) (wp : Nat) : Except Fault WpPool := do
  let pre ← find_pre s wp
  cassert (s.next pre == some wp)
  return s.write pre { s.wp_pool pre with next := s.next wp }

def free_wp (wp : Option Nat) (s : WpPool) : Except Fault WpPool :=
  match wp, s.head with
  | some wp, some head => do
      let expr ← free_expr (s.wp_pool wp).watch_expr
      let s := s.write wp { s.wp_pool wp with watch_expr := expr, watch_value := 0 }
      let s ← if head = wp then .ok { s with head := s.next wp } else unlink_wp s wp
      let s := s.write wp { s.wp_pool wp with next := s.free_ }
      return { s with free_ := some wp }
  | _, _ => .error .assertion

def no_to_wp (no : Int) (s : WpPool) : Except Fault (Option Nat) :=
  if no > NR_WP then .ok none
  else
    match search s.next (fun p => (s.wp_pool p).NO == no) NR_WP s.head with
    | some p => .ok p
    | none => .error .diverges

/-! ## Section 2: The invariant -/

/-- `active` and `free` are the lists behind `head` and `free_`; together
    they hold every node of the pool once, and node `i` has number `i`. -/
structure WpInv (s : WpPool) (active free : List Nat) : Prop where
  active_links : Links s.next s.head active
  free_links   : Links s.next s.free_ free
  partition    : (active ++ free).Perm (List.range NR_WP)
  numbered     : ∀ i < NR_WP, (s.wp_pool i).NO = i

namespace WpInv
variable {s : WpPool} {active free : List Nat}

theorem nodup (h : WpInv s active free) : (active ++ free).Nodup :=
  h.partition.nodup_iff.mpr List.nodup_range

theorem length_eq (h : WpInv s active free) : active.length + free.length = NR_WP := by
  have hlen := h.partition.length_eq
  simpa using hlen

theorem lt_of_active (h : WpInv s active free) {p : Nat} (hp : p ∈ active) : p < NR_WP :=
  List.mem_range.mp (h.partition.subset (List.mem_append_left free hp))

theorem not_active_of_free (h : WpInv s active free) {p : Nat} (hp : p ∈ free) : p ∉ active :=
  fun ha => List.disjoint_of_nodup_append h.nodup ha hp

end WpInv

/-! ### Initialisation -/

theorem foldl_init_node (n : Nat) (pool : Nat → WP) (i : Nat) :
    (List.range n).foldl init_node pool i =
      if i < n then ⟨i, some (i + 1), .null, 0⟩ else pool i := by
  induction n with
  | zero => simp
  | succ n ih =>
    rw [List.range_succ, List.foldl_append, List.foldl_cons, List.foldl_nil, init_node]
    by_cases hi : i = n
    · subst hi; simp
    · rw [Function.update_of_ne hi, ih]
      have hlt : i < n + 1 ↔ i < n := by omega
      simp [hlt]

/-- The node `i` after `init_wp_pool`. -/
theorem init_wp_pool_node {i : Nat} (hi : i < NR_WP) :
    init_wp_pool.wp_pool i =
      ⟨i, if i = NR_WP - 1 then none else some (i + 1), .null, 0⟩ := by
  have hlast : NR_WP - 1 < NR_WP := by decide
  unfold init_wp_pool
  by_cases hi' : i = NR_WP - 1
  · subst hi'
    simp only [Function.update_self, foldl_init_node, hlast, if_true]
  · simp only [Function.update_of_ne hi', foldl_init_node, hi, if_true, hi', if_false]

/-- From node `i` on, the links of the fresh pool run to the last node. -/
theorem init_links (n i : Nat) (h : i + n + 1 = NR_WP) :
    Links init_wp_pool.next (some i) (List.range' i (n + 1)) := by
  induction n generalizing i with
  | zero =>
    have hnode := init_wp_pool_node (i := i) (by omega)
    have hlast : i = NR_WP - 1 := by omega
    have hnext : init_wp_pool.next i = none := by rw [WpPool.next, hnode, if_pos hlast]
    exact ⟨rfl, hnext⟩
  | succ n ih =>
    have hnode := init_wp_pool_node (i := i) (by omega)
    have hlast : i ≠ NR_WP - 1 := by omega
    have hnext : init_wp_pool.next i = some (i + 1) := by simp [WpPool.next, hnode, hlast]
    rw [List.range'_succ, links_cons, hnext]
    exact ⟨rfl, ih (i + 1) (by omega)⟩

theorem init_wp_pool_inv : WpInv init_wp_pool [] (List.range NR_WP) where
  active_links := rfl
  free_links := by
    rw [List.range_eq_range']
    exact init_links (NR_WP - 1) 0 (by decide)
  partition := List.Perm.refl _
  numbered := fun i hi => by rw [init_wp_pool_node hi]

/-! ### `new_wp` -/

/-- `new_wp` moves the first free node in front of the active ones. -/
theorem new_wp_inv {s : WpPool} {active free : List Nat} {p : Nat}
    (h : WpInv s active (p :: free)) :
    ∃ s', new_wp s = .ok (p, s') ∧ WpInv s' (p :: active) free ∧
      ∀ q, (s'.wp_pool q).watch_expr = (s.wp_pool q).watch_expr ∧
        (s'.wp_pool q).watch_value = (s.wp_pool q).watch_value := by
  have hp : p ∉ active := h.not_active_of_free List.mem_cons_self
  -- `p` is on one list only.
  have hpf : p ∉ free := by
    have hnodup := (List.nodup_append.mp h.nodup).2.1
    exact (List.nodup_cons.mp hnodup).1
  obtain ⟨hfree, hrest⟩ := h.free_links
  let mid := (s.write p { s.wp_pool p with next := s.head })
  let s' : WpPool := { mid with head := some p, free_ := s.next p }
  -- Only the link of `p` changes.
  have hnext : s'.next = Function.update s.next p s.head := WpPool.write_next s p _
  refine ⟨s', ?_, ⟨?_, ?_, ?_, ?_⟩, ?_⟩
  · rw [new_wp, hfree]; rfl
  · rw [hnext]; exact links_push hp h.active_links
  · rw [hnext]; exact links_update_outside hpf hrest
  · exact (List.perm_middle.symm).trans h.partition
  · intro i hi
    by_cases hip : i = p
    · subst hip
      show (mid.wp_pool i).NO = i
      rw [WpPool.write_self]; exact h.numbered i hi
    · show (mid.wp_pool i).NO = i
      rw [WpPool.write_ne _ _ hip]; exact h.numbered i hi
  · intro q
    show (mid.wp_pool q).watch_expr = _ ∧ (mid.wp_pool q).watch_value = _
    by_cases hq : q = p
    · subst hq; rw [WpPool.write_self]; exact ⟨rfl, rfl⟩
    · rw [WpPool.write_ne _ _ hq]; exact ⟨rfl, rfl⟩

/-- With every node active, `new_wp` stops the emulator. -/
theorem new_wp_full {s : WpPool} {active : List Nat} (h : WpInv s active []) :
    new_wp s = .error .assertion := by
  have hnone : s.free_ = none := h.free_links
  simp [new_wp, hnone]

/-! ### `free_wp` -/

/-- The loop of `free_wp` finds the node before `wp`. -/
theorem find_pre_eq {s : WpPool} {l₁ l₂ : List Nat} {pre wp : Nat}
    (h : Links s.next s.head (l₁ ++ pre :: wp :: l₂))
    (hlen : (l₁ ++ pre :: wp :: l₂).length ≤ NR_WP) : find_pre s wp = .ok pre := by
  rw [find_pre, search_eq_find _ h hlen, find_before h]

/-- Writing a node with its old link keeps all links. -/
theorem WpPool.write_next_self (s : WpPool) (p : Nat) (wp : WP) (h : wp.next = s.next p) :
    (s.write p wp).next = s.next := by
  rw [WpPool.write_next, h, Function.update_eq_self]

/-- A node of a chain is its head or follows another node. -/
theorem mem_split {l : List Nat} {wp : Nat} (h : wp ∈ l) :
    (∃ l₂, l = wp :: l₂) ∨ ∃ l₁ pre l₂, l = l₁ ++ pre :: wp :: l₂ := by
  obtain ⟨l₁, l₂, rfl⟩ := List.append_of_mem h
  rcases List.eq_nil_or_concat l₁ with rfl | ⟨l₁', pre, rfl⟩
  · exact Or.inl ⟨l₂, rfl⟩
  · exact Or.inr ⟨l₁', pre, l₂, by simp⟩

/-- What `free_wp` leaves in the nodes. -/
structure FreedNode (s s' : WpPool) (wp : Nat) (expr : CharPtr) : Prop where
  expr   : (s'.wp_pool wp).watch_expr = expr
  others : ∀ q, q ≠ wp → (s'.wp_pool q).watch_expr = (s.wp_pool q).watch_expr ∧
    (s'.wp_pool q).watch_value = (s.wp_pool q).watch_value
  number : ∀ q, (s'.wp_pool q).NO = (s.wp_pool q).NO

/-- `free_wp` at the head of the active list. -/
theorem free_wp_head {s : WpPool} {wp : Nat} {expr : CharPtr} (hhead : s.head = some wp)
    (hexpr : free_expr (s.wp_pool wp).watch_expr = .ok expr) :
    ∃ s', free_wp (some wp) s = .ok s' ∧ s'.head = s.next wp ∧ s'.free_ = some wp ∧
      s'.next = Function.update s.next wp s.free_ ∧ FreedNode s s' wp expr := by
  let s₁ := s.write wp { s.wp_pool wp with watch_expr := expr, watch_value := 0 }
  let s₂ := (s₁.write wp { s₁.wp_pool wp with next := s.free_ })
  have h₁ : s₁.next = s.next := s.write_next_self wp _ rfl
  have hrun : free_wp (some wp) s = .ok { s₂ with head := s₁.next wp, free_ := some wp } := by
    simp only [free_wp, hhead, hexpr, ok_bind, if_true]
    rfl
  refine ⟨_, hrun, ?_, rfl, ?_, ?_, ?_, ?_⟩
  · show s₁.next wp = s.next wp
    rw [h₁]
  · show s₂.next = _
    rw [WpPool.write_next, h₁]
  · show (s₂.wp_pool wp).watch_expr = expr
    simp [s₂, s₁]
  · intro q hq
    show (s₂.wp_pool q).watch_expr = _ ∧ (s₂.wp_pool q).watch_value = _
    rw [WpPool.write_ne _ _ hq, WpPool.write_ne _ _ hq]
    exact ⟨rfl, rfl⟩
  · intro q
    show (s₂.wp_pool q).NO = _
    by_cases hq : q = wp
    · subst hq; simp [s₂, s₁]
    · rw [WpPool.write_ne _ _ hq, WpPool.write_ne _ _ hq]

/-- `free_wp` of the node after `pre`. -/
theorem free_wp_after {s : WpPool} {l₁ l₂ : List Nat} {pre wp : Nat} {expr : CharPtr}
    (hlinks : Links s.next s.head (l₁ ++ pre :: wp :: l₂))
    (hlen : (l₁ ++ pre :: wp :: l₂).length ≤ NR_WP)
    (hexpr : free_expr (s.wp_pool wp).watch_expr = .ok expr) :
    ∃ s', free_wp (some wp) s = .ok s' ∧ s'.head = s.head ∧ s'.free_ = some wp ∧
      s'.next = Function.update (Function.update s.next pre (s.next wp)) wp s.free_ ∧
      FreedNode s s' wp expr := by
  have hnodup := links_nodup hlinks
  have hpre : pre ≠ wp := by
    rintro rfl
    simp [List.nodup_append] at hnodup
  have hlink : s.next pre = some wp := (links_suffix hlinks).2.1
  -- The head is not `wp`, so the list is searched.
  obtain ⟨head, hhead, hne⟩ : ∃ head, s.head = some head ∧ head ≠ wp := by
    cases l₁ with
    | nil => exact ⟨pre, hlinks.1, hpre⟩
    | cons c l₁ =>
      refine ⟨c, hlinks.1, ?_⟩
      rintro rfl
      simp at hnodup
  -- The three writes of `free_wp`.
  let s₁ := s.write wp { s.wp_pool wp with watch_expr := expr, watch_value := 0 }
  let s₂ := s₁.write pre { s₁.wp_pool pre with next := s₁.next wp }
  let s₃ := s₂.write wp { s₂.wp_pool wp with next := s.free_ }
  have h₁ : s₁.next = s.next := s.write_next_self wp _ rfl
  have hfind : find_pre s₁ wp = .ok pre :=
    find_pre_eq (by rw [h₁]; exact hlinks) hlen
  have hrun : free_wp (some wp) s = .ok { s₃ with free_ := some wp } := by
    have hcheck : (s₁.next pre == some wp) = true := by rw [h₁, hlink]; simp
    have hunlink : unlink_wp s₁ wp = .ok s₂ := by
      rw [unlink_wp, hfind, ok_bind, hcheck]
      rfl
    simp only [free_wp, hhead, hexpr, ok_bind, hne, if_false]
    rw [show unlink_wp (s.write wp _) wp = .ok s₂ from hunlink]
    rfl
  refine ⟨_, hrun, rfl, rfl, ?_, ?_, ?_, ?_⟩
  · show s₃.next = _
    rw [WpPool.write_next, WpPool.write_next, h₁]
  · show (s₃.wp_pool wp).watch_expr = expr
    rw [WpPool.write_self, WpPool.write_ne _ _ hpre.symm, WpPool.write_self]
  · intro q hq
    show (s₃.wp_pool q).watch_expr = _ ∧ (s₃.wp_pool q).watch_value = _
    rw [WpPool.write_ne _ _ hq]
    by_cases hqp : q = pre
    · subst hqp
      rw [WpPool.write_self, WpPool.write_ne _ _ hq]
      exact ⟨rfl, rfl⟩
    · rw [WpPool.write_ne _ _ hqp, WpPool.write_ne _ _ hq]
      exact ⟨rfl, rfl⟩
  · intro q
    show (s₃.wp_pool q).NO = _
    by_cases hq : q = wp
    · subst hq
      rw [WpPool.write_self, WpPool.write_ne _ _ hpre.symm, WpPool.write_self]
    · rw [WpPool.write_ne _ _ hq]
      by_cases hqp : q = pre
      · subst hqp; rw [WpPool.write_self, WpPool.write_ne _ _ hq]
      · rw [WpPool.write_ne _ _ hqp, WpPool.write_ne _ _ hq]

/-- `free_wp` takes exactly its node out of the active list, keeps the order
    of the others, and puts the node in front of the free ones. -/
theorem free_wp_inv {s : WpPool} {active free : List Nat} {wp : Nat} {expr : CharPtr}
    (h : WpInv s active free) (hwp : wp ∈ active)
    (hexpr : free_expr (s.wp_pool wp).watch_expr = .ok expr) :
    ∃ s', free_wp (some wp) s = .ok s' ∧ WpInv s' (active.erase wp) (wp :: free) ∧
      FreedNode s s' wp expr := by
  have hfree : wp ∉ free := fun hf => h.not_active_of_free hf hwp
  -- The two lists still have all nodes.
  have hpart : (active.erase wp ++ wp :: free).Perm (List.range NR_WP) := by
    refine List.Perm.trans ?_ h.partition
    exact List.perm_middle.trans ((List.perm_cons_erase hwp).symm.append_right free)
  -- `wp` is the first node of its list, or has one before it.
  rcases mem_split hwp with ⟨l₂, rfl⟩ | ⟨l₁, pre, l₂, rfl⟩
  · obtain ⟨hhead, hrest⟩ := h.active_links
    obtain ⟨s', hrun, hhead', hfree', hnext, hnode⟩ := free_wp_head hhead hexpr
    have herase : (wp :: l₂).erase wp = l₂ := by simp
    have hout : wp ∉ l₂ := (List.nodup_cons.mp (links_nodup h.active_links)).1
    refine ⟨s', hrun, ⟨?_, ?_, hpart, ?_⟩, hnode⟩
    · rw [herase, hnext, hhead']
      exact links_update_outside hout hrest
    · rw [hnext, hfree']
      exact links_push hfree h.free_links
    · intro i hi
      rw [hnode.number]; exact h.numbered i hi
  · have hlen := h.length_eq
    obtain ⟨s', hrun, hhead', hfree', hnext, hnode⟩ :=
      free_wp_after h.active_links (by omega) hexpr
    have hnodup := links_nodup h.active_links
    have herase : (l₁ ++ pre :: wp :: l₂).erase wp = l₁ ++ pre :: l₂ := by
      have hl₁ : wp ∉ l₁ := fun hmem => by
        simp only [List.nodup_append, List.mem_cons] at hnodup
        exact hnodup.2.2 wp hmem wp (Or.inr (Or.inl rfl)) rfl
      have hpre : pre ≠ wp := by
        rintro rfl
        simp [List.nodup_append] at hnodup
      rw [List.erase_append_right _ hl₁, List.erase_cons_tail (by simpa using hpre),
        List.erase_cons_head]
    have hout : wp ∉ l₁ ++ pre :: l₂ := by
      rw [← herase]
      exact hnodup.not_mem_erase
    -- The node before `wp` is not on the free list.
    have hpre : pre ∉ free := fun hf => h.not_active_of_free hf (by simp)
    refine ⟨s', hrun, ⟨?_, ?_, hpart, ?_⟩, hnode⟩
    · rw [herase, hnext, hhead']
      exact links_update_outside hout (links_unlink h.active_links)
    · rw [hnext, hfree']
      exact links_push hfree (links_update_outside hpre h.free_links)
    · intro i hi
      rw [hnode.number]; exact h.numbered i hi

/-! ### `no_to_wp` -/

/-- `no_to_wp` returns the active node with the given number, if there is one. -/
theorem no_to_wp_inv {s : WpPool} {active free : List Nat} (h : WpInv s active free) (no : Int) :
    ∃ r, no_to_wp no s = .ok r ∧ ∀ p, r = some p ↔ p ∈ active ∧ (s.wp_pool p).NO = no := by
  by_cases hno : no > NR_WP
  · refine ⟨none, by rw [no_to_wp, if_pos hno], fun p => ?_⟩
    have hout : p ∈ active → (s.wp_pool p).NO ≠ no := by
      intro hp
      have hlt := h.lt_of_active hp
      rw [h.numbered p hlt]
      omega
    simpa using hout
  · have hlen := h.length_eq
    refine ⟨active.find? fun p => (s.wp_pool p).NO == no, ?_, fun p => ⟨fun hfind => ?_, ?_⟩⟩
    · rw [no_to_wp, if_neg hno, search_eq_find _ h.active_links (by omega)]
    · have heq := List.find?_some hfind
      exact ⟨List.mem_of_find?_eq_some hfind, by simpa using heq⟩
    · rintro ⟨hp, heq⟩
      cases hfind : active.find? fun p => (s.wp_pool p).NO == no with
      | none =>
        have hne := List.find?_eq_none.mp hfind p hp
        simp [heq] at hne
      | some q =>
        -- Numbers are positions, so a node with the number of `p` is `p`.
        have hq := List.mem_of_find?_eq_some hfind
        have heq' : (s.wp_pool q).NO = no := by simpa using List.find?_some hfind
        rw [h.numbered p (h.lt_of_active hp)] at heq
        rw [h.numbered q (h.lt_of_active hq)] at heq'
        have hpq : q = p := by omega
        rw [hpq]

/-! ## Section 3: Runs -/

/-- The pools after `init_wp_pool` and some calls of `new_wp` and of `free_wp`
    on active nodes.  With `sets` every caller of `new_wp` stores a fresh
    string and a value in the node, as `cmd_w` does; without, nobody does. -/
inductive WpReachable (sets : Bool) : WpPool → Prop
  | init : WpReachable sets init_wp_pool
  | new_wp {s s' : WpPool} {p : Nat} (e : List Char) (v : Nat) (h : WpReachable sets s)
      (hnew : new_wp s = .ok (p, s')) :
      WpReachable sets
        (if sets then s'.write p { s'.wp_pool p with watch_expr := .live e, watch_value := v }
         else s')
  | free_wp {s s' : WpPool} {active : List Nat} {wp : Nat} (h : WpReachable sets s)
      (hactive : Links s.next s.head active) (hwp : wp ∈ active)
      (hfree : free_wp (some wp) s = .ok s') : WpReachable sets s'

/-- What a watched node holds: its caller's string, or still `NULL`. -/
def ExprSet (sets : Bool) (s : WpPool) (active free : List Nat) : Prop :=
  (sets = true → ∀ p ∈ active, ∃ e, (s.wp_pool p).watch_expr = .live e) ∧
  (sets = false → ∀ p ∈ active ++ free, (s.wp_pool p).watch_expr = .null)

/-- The string of an active node can be freed. -/
theorem ExprSet.free_expr {sets : Bool} {s : WpPool} {active free : List Nat} {wp : Nat}
    (h : ExprSet sets s active free) (hwp : wp ∈ active) :
    ∃ expr, free_expr (s.wp_pool wp).watch_expr = .ok expr ∧ (sets = false → expr = .null) := by
  cases sets with
  | true =>
    obtain ⟨e, he⟩ := h.1 rfl wp hwp
    exact ⟨.freed, by rw [he]; rfl, by simp⟩
  | false =>
    have hnull := h.2 rfl wp (List.mem_append_left free hwp)
    exact ⟨.null, by rw [hnull]; rfl, fun _ => rfl⟩

/-- Storing a string and a value in a node keeps both lists. -/
theorem WpInv.set {s : WpPool} {active free : List Nat} (h : WpInv s active free) (p : Nat)
    (e : CharPtr) (v : Nat) :
    WpInv (s.write p { s.wp_pool p with watch_expr := e, watch_value := v }) active free := by
  have hnext := s.write_next_self p { s.wp_pool p with watch_expr := e, watch_value := v } rfl
  refine ⟨?_, ?_, h.partition, fun i hi => ?_⟩
  · rw [hnext]; exact h.active_links
  · rw [hnext]; exact h.free_links
  · by_cases hip : i = p
    · subst hip; rw [WpPool.write_self]; exact h.numbered i hi
    · rw [WpPool.write_ne _ _ hip]; exact h.numbered i hi

/-- Run lemma: the two lists stay a partition of the pool. -/
theorem WpReachable.inv {sets : Bool} {s : WpPool} (h : WpReachable sets s) :
    ∃ active free, WpInv s active free ∧ ExprSet sets s active free := by
  induction h with
  | init =>
    refine ⟨[], List.range NR_WP, init_wp_pool_inv, by simp, fun _ p hp => ?_⟩
    rw [init_wp_pool_node (by simpa using hp)]
  | new_wp e v _ hnew ih =>
    rename_i s s' p _
    obtain ⟨active, free, hinv, hset⟩ := ih
    -- `new_wp` returns only if a node is free.
    cases free with
    | nil => rw [new_wp_full hinv] at hnew; cases hnew
    | cons q free =>
      obtain ⟨t, ht, hinv', hkeep⟩ := new_wp_inv hinv
      rw [ht] at hnew
      cases hnew
      cases sets with
      | false =>
        refine ⟨p :: active, free, hinv', by simp, fun _ q hq => ?_⟩
        rw [if_neg (by simp), (hkeep q).1]
        refine hset.2 rfl q ?_
        simp only [List.cons_append, List.mem_cons, List.mem_append] at hq ⊢
        tauto
      | true =>
        refine ⟨p :: active, free, hinv'.set p (.live e) v, fun _ q hq => ?_, by simp⟩
        rw [if_pos rfl]
        by_cases hqp : q = p
        · subst hqp; exact ⟨e, by rw [WpPool.write_self]⟩
        · rw [WpPool.write_ne _ _ hqp, (hkeep q).1]
          exact hset.1 rfl q ((List.mem_cons.mp hq).resolve_left hqp)
  | free_wp _ hactive hwp hfree ih =>
    rename_i s s' active' wp _
    obtain ⟨active, free, hinv, hset⟩ := ih
    -- The list that is freed from is the active one.
    obtain rfl := links_unique hactive hinv.active_links
    obtain ⟨expr, hexpr, hnull⟩ := hset.free_expr hwp
    obtain ⟨t, ht, hinv', hnode⟩ := free_wp_inv hinv hwp hexpr
    rw [ht] at hfree
    cases hfree
    refine ⟨_, _, hinv', fun hsets p hp => ?_, fun hsets p hp => ?_⟩
    -- The other nodes keep their expressions.
    · have hne : p ≠ wp := by
        rintro rfl
        exact (links_nodup hinv.active_links).not_mem_erase hp
      rw [(hnode.others p hne).1]
      exact hset.1 hsets p (List.mem_of_mem_erase hp)
    · by_cases hne : p = wp
      · subst hne; rw [hnode.expr]; exact hnull hsets
      · rw [(hnode.others p hne).1]
        refine hset.2 hsets p ?_
        simp only [List.mem_append, List.mem_cons, hne, false_or] at hp ⊢
        exact hp.imp_left List.mem_of_mem_erase

/-- A run goes on with a `new_wp` as long as a node is free. -/
theorem WpReachable.push {s : WpPool} {active free : List Nat} {p : Nat} (h : WpReachable true s)
    (hinv : WpInv s active (p :: free)) (e : List Char) (v : Nat) :
    ∃ s', WpReachable true s' ∧ WpInv s' (p :: active) free := by
  obtain ⟨s', hnew, hinv', -⟩ := new_wp_inv hinv
  exact ⟨_, h.new_wp e v hnew, hinv'.set p (.live e) v⟩

/-- And with a `free_wp` of any active node. -/
theorem WpReachable.erase {s : WpPool} {active free : List Nat} (h : WpReachable true s)
    (hinv : WpInv s active free) (wp : Nat) (hwp : wp ∈ active) :
    ∃ s', WpReachable true s' ∧ WpInv s' (active.erase wp) (wp :: free) := by
  obtain ⟨active', free', hinv₀, hset⟩ := h.inv
  have hsame : active' = active := links_unique hinv₀.active_links hinv.active_links
  obtain ⟨expr, hexpr, -⟩ := hset.free_expr (hsame ▸ hwp)
  obtain ⟨s', hfree, hinv', -⟩ := free_wp_inv hinv hwp hexpr
  exact ⟨s', h.free_wp hinv.active_links hwp hfree, hinv'⟩

/-- In every reachable pool the two lists are a partition of the nodes, and
    each operation does to them what it is called for. -/
theorem wp_pool_partition {sets : Bool} {s : WpPool} (h : WpReachable sets s) :
    ∃ active free, Links s.next s.head active ∧ Links s.next s.free_ free ∧
      (active ++ free).Perm (List.range 32) ∧
      ((∃ e, new_wp s = .error e) ↔ active.length = 32) ∧
      (∀ p s', new_wp s = .ok (p, s') → Links s'.next s'.head (p :: active)) ∧
      (∀ wp ∈ active, ∃ s', free_wp (some wp) s = .ok s' ∧
        Links s'.next s'.head (active.erase wp)) ∧
      (∀ no, ∃ r, no_to_wp no s = .ok r ∧
        ∀ p, r = some p ↔ p ∈ active ∧ (s.wp_pool p).NO = no) ∧
      ∀ i < 32, (s.wp_pool i).NO = i := by
  obtain ⟨active, free, hinv, hset⟩ := h.inv
  have hlen := hinv.length_eq
  refine ⟨active, free, hinv.active_links, hinv.free_links, hinv.partition, ?_, ?_, ?_,
    no_to_wp_inv hinv, hinv.numbered⟩
  -- The pool is full, or has a free node.
  · cases free with
    | nil =>
      have hfull : active.length = 32 := by
        have hcount : active.length + 0 = 32 := hlen
        omega
      exact ⟨fun _ => hfull, fun _ => ⟨_, new_wp_full hinv⟩⟩
    | cons p free =>
      obtain ⟨s', hs', -, -⟩ := new_wp_inv hinv
      have hlt : active.length ≠ 32 := by
        have hcount : active.length + (free.length + 1) = 32 := hlen
        omega
      simp [hs', hlt]
  · intro p s' hnew
    cases free with
    | nil => rw [new_wp_full hinv] at hnew; cases hnew
    | cons q free =>
      obtain ⟨t, ht, hinv', -⟩ := new_wp_inv hinv
      rw [ht] at hnew
      cases hnew
      exact hinv'.active_links
  · intro wp hwp
    obtain ⟨expr, hexpr, -⟩ := hset.free_expr hwp
    obtain ⟨s', hs', hinv', -⟩ := free_wp_inv hinv hwp hexpr
    exact ⟨s', hs', hinv'.active_links⟩

/-- Four watchpoints, of which two are deleted, one of them in the middle and one
    at the end, and a new one. -/
theorem wp_pool_partition_reused :
    ∃ s, WpReachable true s ∧ Links s.next s.head [0, 3, 2] ∧
      ∃ free, Links s.next s.free_ free ∧ ([0, 3, 2] ++ free).Perm (List.range 32) ∧
        (∃ p s', new_wp s = .ok (p, s') ∧ Links s'.next s'.head [p, 0, 3, 2]) ∧
        (∃ s', free_wp (some 3) s = .ok s' ∧ Links s'.next s'.head [0, 2]) ∧
        (∃ s', free_wp (some 2) s = .ok s' ∧ Links s'.next s'.head [0, 3]) ∧
        no_to_wp 2 s = .ok (some 2) ∧ no_to_wp 1 s = .ok none ∧ (s.wp_pool 31).NO = 31 := by
  obtain ⟨s, h, hinv⟩ := WpReachable.init.push init_wp_pool_inv ['1'] 1
  obtain ⟨s, h, hinv⟩ := h.push hinv ['2'] 2
  obtain ⟨s, h, hinv⟩ := h.push hinv ['3'] 3
  obtain ⟨s, h, hinv⟩ := h.push hinv ['4'] 4
  obtain ⟨s, h, hinv⟩ := h.erase hinv 1 (by decide)
  obtain ⟨s, h, hinv⟩ := h.erase hinv 0 (by decide)
  obtain ⟨s, h, hinv⟩ := h.push hinv ['5'] 5
  have hlinks : Links s.next s.head [0, 3, 2] := hinv.active_links
  obtain ⟨active, free, hactive, hfree, hperm, hfull, hnew, hdel, hno, hnum⟩ := wp_pool_partition h
  obtain rfl : active = [0, 3, 2] := links_unique hactive hlinks
  refine ⟨s, h, hactive, free, hfree, hperm, ?_, hdel 3 (by simp), hdel 2 (by simp), ?_, ?_,
    hnum 31 (by decide)⟩
  · -- The pool is not full.
    cases hcall : new_wp s with
    | error e => exact absurd (hfull.mp ⟨e, hcall⟩) (by decide)
    | ok r => exact ⟨r.1, r.2, rfl, hnew r.1 r.2 hcall⟩
  · obtain ⟨r, hr, hiff⟩ := hno 2
    rw [hr, (hiff 2).mpr ⟨by simp, hnum 2 (by decide)⟩]
  · obtain ⟨r, hr, hiff⟩ := hno 1
    rw [hr]
    cases r with
    | none => rfl
    | some p =>
      obtain ⟨hp, hone⟩ := (hiff p).mp rfl
      simp only [List.mem_cons, List.not_mem_nil, or_false] at hp
      rw [hnum p (by omega)] at hone
      omega
end Nemu.Watchpoint
