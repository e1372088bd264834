import Mathlib.Logic.Function.Basic
import Mathlib.Data.List.Nodup
import Mathlib.Data.List.Perm.Basic

/-! # Singly linked lists in a heap

    A heap of nodes is seen through its link field `next : α → Option α`.
    `Links next p l` says that following the links from `p` visits exactly
    the nodes of `l` and then meets `NULL`: the chain is finite and acyclic.

    The rules say which single-link updates keep a chain: writing the link of
    a node outside it, pushing a node in front, and unlinking the node after
    a given one.  `links_nodup` shows that a finite chain never repeats a
    node, and `no_links_of_closed` that a chain caught in a cycle has no list
    at all. -/

namespace Chain

variable {α : Type*}

/-- The nodes visited from `p` are exactly `l`. -/
def Links (next : α → Option α) : Option α → List α → Prop
  | p, [] => p = none
  | p, a :: l => p = some a ∧ Links next (next a) l

variable {next next' : α → Option α} {p : Option α} {a b : α} {l l₁ l₂ : List α}

@[simp] theorem links_nil : Links next p [] ↔ p = none := Iff.rfl

@[simp] theorem links_cons : Links next p (a :: l) ↔ p = some a ∧ Links next (next a) l :=
  Iff.rfl

/-! ## Shape of a chain -/

/-- The list of a chain is determined by its first link. -/
theorem links_unique {l l' : List α} (h : Links next p l) (h' : Links next p l') : l = l' := by
  induction l generalizing p l' with
  | nil =>
    cases l' with
    | nil => rfl
    | cons a l' => rw [links_nil] at h; rw [h] at h'; exact absurd h'.1 (by simp)
  | cons a l ih =>
    obtain ⟨rfl, hrest⟩ := h
    cases l' with
    | nil => exact absurd h' (by simp)
    | cons b l' =>
      obtain ⟨hab, hrest'⟩ := h'
      cases hab
      rw [ih hrest hrest']

/-- The chain from a node in the middle. -/
theorem links_suffix (h : Links next p (l₁ ++ a :: l₂)) : Links next (some a) (a :: l₂) := by
  induction l₁ generalizing p with
  | nil => exact ⟨rfl, h.2⟩
  | cons b l₁ ih => exact ih h.2

/-- A finite chain does not repeat a node. -/
theorem links_nodup (h : Links next p l) : l.Nodup := by
  induction l generalizing p with
  | nil => exact List.nodup_nil
  | cons a l ih =>
    refine List.nodup_cons.mpr ⟨fun hmem => ?_, ih h.2⟩
    -- A second visit to `a` would give the same chain twice, at two lengths.
    obtain ⟨s, t, rfl⟩ := List.append_of_mem hmem
    have hlater : Links next (some a) (a :: t) := links_suffix h.2
    have hnow : Links next (some a) (a :: (s ++ a :: t)) := ⟨rfl, h.2⟩
    have hlen := congrArg List.length (links_unique hlater hnow)
    simp only [List.length_cons, List.length_append] at hlen
    omega

/-- A set of nodes that the links never leave has no finite chain. -/
theorem no_links_of_closed (S : Set α) (hclosed : ∀ a ∈ S, ∃ b ∈ S, next a = some b)
    (ha : a ∈ S) : ¬ Links next (some a) l := by
  induction l generalizing a with
  | nil => simp
  | cons b l ih =>
    rintro ⟨hab, hrest⟩
    cases hab
    obtain ⟨c, hc, hnext⟩ := hclosed b ha
    rw [hnext] at hrest
    exact ih hc hrest

/-- Before a node `a` of a chain, every link leads to a node up to `a`. -/
theorem links_next_mem (h : Links next p (l₁ ++ a :: l₂)) {x : α} (hx : x ∈ l₁) :
    ∃ y ∈ l₁ ++ [a], next x = some y := by
  induction l₁ generalizing p with
  | nil => cases hx
  | cons c l₁ ih =>
    rcases List.mem_cons.mp hx with rfl | hx
    · cases l₁ with
      | nil => exact ⟨a, by simp, h.2.1⟩
      | cons d l₁ => exact ⟨d, by simp, h.2.1⟩
    · obtain ⟨y, hy, hxy⟩ := ih h.2 hx
      exact ⟨y, List.mem_cons_of_mem c hy, hxy⟩

/-! ## Updates of one link -/

/-- A chain only depends on the links of its own nodes. -/
theorem links_congr (hag : ∀ x ∈ l, next x = next' x) (h : Links next p l) :
    Links next' p l := by
  induction l generalizing p with
  | nil => exact h
  | cons a l ih =>
    refine ⟨h.1, ?_⟩
    rw [← hag a List.mem_cons_self]
    exact ih (fun x hx => hag x (List.mem_cons_of_mem a hx)) h.2

section update
variable [DecidableEq α]

/-- Writing the link of a node outside the chain. -/
theorem links_update_outside {v : Option α} (ha : a ∉ l) (h : Links next p l) :
    Links (Function.update next a v) p l := by
  refine links_congr (fun x hx => ?_) h
  have hne : x ≠ a := fun hxa => ha (hxa ▸ hx)
  rw [Function.update_of_ne hne]

/-- Pushing a node in front of a chain. -/
theorem links_push (ha : a ∉ l) (h : Links next p l) :
    Links (Function.update next a p) (some a) (a :: l) := by
  refine ⟨rfl, ?_⟩
  rw [Function.update_self]
  exact links_update_outside ha h

/-- Inserting a node `a` behind the first node `b`. -/
theorem links_insert (ha : a ∉ b :: l) (h : Links next (some b) (b :: l)) :
    Links (Function.update (Function.update next a (next b)) b (some a)) (some b)
    (b :: a :: l) := by
  have hb : b ∉ l := (List.nodup_cons.mp (links_nodup h)).1
  have hab : a ≠ b := fun hab => ha (by simp [hab])
  refine ⟨rfl, ?_⟩
  rw [Function.update_self]
  refine links_update_outside (by simp [hab.symm, hb]) ?_
  exact links_push (fun hmem => ha (List.mem_cons_of_mem b hmem)) h.2

/-- Unlinking the node `b` after `a`. -/
theorem links_unlink (h : Links next p (l₁ ++ a :: b :: l₂)) :
    Links (Function.update next a (next b)) p (l₁ ++ a :: l₂) := by
  have hnodup := links_nodup h
  induction l₁ generalizing p with
  | nil =>
    obtain ⟨hp, hab, hrest⟩ := h
    have ha : a ∉ l₂ := by
      intro hmem
      exact (List.nodup_cons.mp hnodup).1 (List.mem_cons_of_mem b hmem)
    refine ⟨hp, ?_⟩
    rw [Function.update_self]
    exact links_update_outside ha hrest
  | cons c l₁ ih =>
    have hc : c ≠ a := by
      rintro rfl
      exact (List.nodup_cons.mp hnodup).1 (by simp)
    refine ⟨h.1, ?_⟩
    rw [Function.update_of_ne hc]
    exact ih h.2 (List.nodup_cons.mp hnodup).2

/-- Linking a node `a` of the chain behind `b` in front of what follows `b`,
    without unlinking it first, closes a cycle. -/
theorem no_links_relink (h : Links next (some b) (b :: (l₁ ++ a :: l₂))) :
    ¬ Links (Function.update (Function.update next a (next b)) b (some a)) (some a) l := by
  have hnodup := links_nodup h
  -- The nodes from the front of the chain to `a` are never left.
  refine no_links_of_closed {x | x ∈ l₁ ++ [a]} (fun x (hx : x ∈ l₁ ++ [a]) => ?_)
    (show a ∈ l₁ ++ [a] by simp)
  have hx' : x ∈ l₁ ∨ x = a := by simpa using hx
  have hxb : x ≠ b := by
    rintro rfl
    have hout := (List.nodup_cons.mp hnodup).1
    rcases hx' with hx' | rfl
    · exact hout (List.mem_append_left _ hx')
    · simp at hout
  rw [Function.update_of_ne hxb]
  by_cases hxa : x = a
  · subst hxa
    rw [Function.update_self]
    cases l₁ with
    | nil => exact ⟨x, hx, h.2.1⟩
    | cons c l₁ => exact ⟨c, show c ∈ c :: l₁ ++ [x] by simp, h.2.1⟩
  · rw [Function.update_of_ne hxa]
    exact links_next_mem h.2 (hx'.resolve_right hxa)

end update

/-! ## Searching a chain -/

/-- The loop `for (p = head; p != NULL; p = p->next) if (stop(p)) break;`,
    run for at most `n` nodes.  The outer `none` means that the loop was still
    going after `n` nodes. -/
def search (next : α → Option α) (stop : α → Bool) : Nat → Option α → Option (Option α)
  | _, none => some none
  | 0, some _ => none
  | n + 1, some a => if stop a then some (some a) else search next stop n (next a)

/-- On a chain of at most `n` nodes the loop ends, with the first node at
    which it stops. -/
theorem search_eq_find (stop : α → Bool) {n : Nat} (h : Links next p l) (hn : l.length ≤ n) :
    search next stop n p = some (l.find? stop) := by
  induction l generalizing p n with
  | nil => rw [links_nil.mp h]; cases n <;> rfl
  | cons a l ih =>
    obtain ⟨m, rfl⟩ : ∃ m, n = m + 1 := ⟨n - 1, by simp at hn; omega⟩
    have hrest := ih h.2 (by simpa using hn)
    rw [h.1]
    cases hstop : stop a with
    | true => simp [search, hstop]
    | false => simp [search, hstop, hrest]

/-- Walking until the link is `b` (or `NULL`) ends at the node before `b`. -/
theorem find_before [DecidableEq α] (h : Links next p (l₁ ++ a :: b :: l₂)) :
    (l₁ ++ a :: b :: l₂).find? (fun x => next x == some b || next x == none) = some a := by
  have hnodup := links_nodup h
  induction l₁ generalizing p with
  | nil =>
    have hab : next a = some b := h.2.1
    simp [hab]
  | cons c l₁ ih =>
    have hrest := ih h.2 (List.nodup_cons.mp hnodup).2
    -- The link of `c` leads to a node before `b`, so the walk goes on.
    obtain ⟨d, hd, hdb⟩ : ∃ d, next c = some d ∧ d ≠ b := by
      cases l₁ with
      | nil =>
        have hne : a ≠ b := by
          rintro rfl
          simp at hnodup
        exact ⟨a, h.2.1, hne⟩
      | cons d l₁ =>
        have hne : d ≠ b := by
          rintro rfl
          simp at hnodup
        exact ⟨d, h.2.1, hne⟩
    rw [List.cons_append, List.find?_cons_of_neg (by simp [hd, hdb])]
    exact hrest

/-! ## Walking a chain -/

section foreach
variable {σ ε : Type*} {links : σ → α → Option α} {body : α → σ → Except ε σ} {loop : ε}

/-- The loop `for (p = head; p != NULL; p = p->next) body(p);`, run for at
    most `n` nodes.  `loop` is returned if it was still going then. -/
def foreach (links : σ → α → Option α) (body : α → σ → Except ε σ) (loop : ε) :
    Nat → Option α → σ → Except ε σ
  | _, none, s => .ok s
  | 0, some _, _ => .error loop
  | n + 1, some a, s => body a s >>= fun s => foreach links body loop n (links s a) s

/-- On a chain that the body does not relink, the loop visits the nodes in
    order, each once. -/
theorem foreach_eq_foldlM (hbody : ∀ a s s', body a s = .ok s' → links s' = links s)
    {n : Nat} {s : σ} (h : Links (links s) p l) (hn : l.length ≤ n) :
    foreach links body loop n p s = l.foldlM (fun s a => body a s) s := by
  induction l generalizing p n s with
  | nil => rw [links_nil.mp h]; cases n <;> rfl
  | cons a l ih =>
    obtain ⟨m, rfl⟩ : ∃ m, n = m + 1 := ⟨n - 1, by simp at hn; omega⟩
    rw [h.1, List.foldlM_cons]
    show (body a s >>= fun s => foreach links body loop m (links s a) s) = _
    cases hrun : body a s with
    | error e => rfl
    | ok s' =>
      have hlinks := hbody a s s' hrun
      have hrest : Links (links s') (links s' a) l := by rw [hlinks]; exact h.2
      exact ih hrest (by simpa using hn)

/-- The loop keeps what its body keeps, on any list. -/
theorem foreach_keeps {Q : σ → Prop} (hbody : ∀ a s s', body a s = .ok s' → Q s → Q s')
    {n : Nat} {s s' : σ} (h : foreach links body loop n p s = .ok s') (hs : Q s) : Q s' := by
  induction n generalizing p s with
  | zero =>
    cases p with
    | none =>
      cases h
      exact hs
    | some a => cases h
  | succ n ih =>
    cases p with
    | none =>
      cases h
      exact hs
    | some a =>
      unfold foreach at h
      cases hrun : body a s with
      | error e =>
        rw [hrun] at h
        cases h
      | ok t =>
        rw [hrun] at h
        exact ih h (hbody a s t hrun hs)

end foreach

end Chain
