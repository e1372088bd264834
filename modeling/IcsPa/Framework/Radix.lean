import Mathlib.Logic.Function.Basic
import Mathlib.Data.List.Induction

/-! # Radix trees in a heap

    Nodes `N` of a heap have a child for some of their indices `I`; several
    trees, named by `R`, start at roots.  `node root child r path` is the
    node that a path of indices leads to.

    `Own` is the set of paths that belong to the trees themselves; what lies
    behind other paths may be shared.  `Unshared` says that a node is reached
    on one owned path of one tree only.  The rules tell where the paths lead
    after a fresh node has been linked into a tree, or planted as a new tree. -/

namespace Radix

variable {R N I : Type*}

/-- Follow a path from a node. -/
def descend (child : N → I → Option N) : N → List I → Option N
  | p, [] => some p
  | p, i :: path => (child p i).bind fun q => descend child q path

/-- The node at the end of a path of the tree `r`. -/
def node (root : R → Option N) (child : N → I → Option N) (r : R) (path : List I) : Option N :=
  (root r).bind fun p => descend child p path

variable {root root' : R → Option N} {child child' : N → I → Option N} {Own : List I → Prop}
variable {r : R} {p q : N} {i : I} {path : List I}

theorem descend_append (p : N) (path path' : List I) :
    descend child p (path ++ path') = (descend child p path).bind fun q =>
    descend child q path' := by
  induction path generalizing p with
  | nil => rfl
  | cons i path ih =>
    show (child p i).bind (fun q => descend child q (path ++ path')) =
      ((child p i).bind fun q => descend child q path).bind fun q => descend child q path'
    rw [Option.bind_assoc]
    exact congrArg _ (funext fun q => ih q)

@[simp] theorem node_nil (r : R) : node root child r [] = root r := by
  unfold node
  cases root r <;> rfl

/-- The last step of a path. -/
theorem node_snoc (r : R) (path : List I) (i : I) :
    node root child r (path ++ [i]) = (node root child r path).bind fun p => child p i := by
  unfold node
  cases root r with
  | none => rfl
  | some p =>
    show descend child p (path ++ [i]) = _
    rw [descend_append]
    refine congrArg _ (funext fun q => ?_)
    show (child q i).bind some = child q i
    cases child q i <;> rfl

/-! ## Owned paths -/

/-- Each node is reached on one owned path of one tree. -/
def Unshared (Own : List I → Prop) (root : R → Option N) (child : N → I → Option N) : Prop :=
  ∀ r r' path path' p, Own path → Own path' → node root child r path = some p →
    node root child r' path' = some p → r = r' ∧ path = path'

/-- The node is on no owned path. -/
def Fresh (Own : List I → Prop) (root : R → Option N) (child : N → I → Option N) (q : N) : Prop :=
  ∀ r path, Own path → node root child r path ≠ some q

/-- Paths only depend on the children of the nodes they pass. -/
theorem node_congr (hown : ∀ path i, Own (path ++ [i]) → Own path)
    (h : ∀ r path p i, Own (path ++ [i]) → node root child r path = some p →
      child' p i = child p i) {path : List I} (hpath : Own path) :
    node root child' r path = node root child r path := by
  induction path using List.reverseRecOn with
  | nil => rw [node_nil, node_nil]
  | append_singleton path i ih =>
    rw [node_snoc, node_snoc, ih (hown path i hpath)]
    cases hp : node root child r path with
    | none => rfl
    | some p => exact h r path p i hpath hp

/-! ## Linking a node -/

/-- The node `q`, which has no children, becomes child `i` of `p`, the node at
    the end of `path`; on owned paths nothing else changes. -/
structure Linked (Own : List I → Prop) (root : R → Option N) (child child' : N → I → Option N)
    (path : List I) (p : N) (i : I) (q : N) : Prop where
  link   : child' p i = some q
  leaf   : ∀ j, Own (path ++ [i] ++ [j]) → child' q j = none
  others : ∀ r' path' p' j, Own (path' ++ [j]) → node root child r' path' = some p' →
    ¬ (p' = p ∧ j = i) → child' p' j = child p' j

/-- After a link there is one more path, to the new node. -/
theorem node_link [DecidableEq R] [DecidableEq I] (hown : ∀ path i, Own (path ++ [i]) → Own path)
    (hun : Unshared Own root child) (hp : node root child r path = some p)
    (hi : Own (path ++ [i])) (hnone : child p i = none)
    (hlink : Linked Own root child child' path p i q) {r' : R} {path' : List I}
    (hpath' : Own path') :
    node root child' r' path' =
      if r' = r ∧ path' = path ++ [i] then some q else node root child r' path' := by
  induction path' using List.reverseRecOn with
  | nil =>
    rw [node_nil, node_nil, if_neg]
    rintro ⟨-, h⟩
    simp at h
  | append_singleton path' j ih =>
    -- The new node, a node below it, or any other.
    have hown' := hown path' j hpath'
    rw [node_snoc, ih hown']
    by_cases hnew : r' = r ∧ path' = path ++ [i]
    · -- Below the new node there is nothing, and there was nothing.
      obtain ⟨rfl, rfl⟩ := hnew
      have hlen : ¬ (r' = r' ∧ path ++ [i] ++ [j] = path ++ [i]) := by
        rintro ⟨-, h⟩
        simp at h
      rw [if_pos ⟨rfl, rfl⟩, if_neg hlen, node_snoc, node_snoc, hp]
      simp [hlink.leaf j hpath', hnone]
    · rw [if_neg hnew, node_snoc]
      cases hp' : node root child r' path' with
      | none =>
        rw [if_neg]
        · rfl
        · rintro ⟨rfl, h⟩
          obtain ⟨rfl, -⟩ := List.append_inj' h rfl
          rw [hp] at hp'
          cases hp'
      | some p' =>
        show child' p' j = _
        -- Only the linked cell differs, and only one path leads to it.
        by_cases hcell : p' = p ∧ j = i
        · obtain ⟨rfl, rfl⟩ := hcell
          obtain ⟨rfl, rfl⟩ := hun _ _ _ _ _ hown' (hown path j hi) hp' hp
          rw [hlink.link, if_pos ⟨rfl, rfl⟩]
        · rw [hlink.others r' path' p' j hpath' hp' hcell, if_neg]
          · rfl
          · rintro ⟨rfl, h⟩
            obtain ⟨rfl, hji⟩ := List.append_inj' h rfl
            rw [hp] at hp'
            cases hp'
            exact hcell ⟨rfl, by simpa using hji⟩

/-- Linking a fresh node shares nothing. -/
theorem Unshared.link [DecidableEq R] [DecidableEq I]
    (hown : ∀ path i, Own (path ++ [i]) → Own path) (hun : Unshared Own root child)
    (hp : node root child r path = some p) (hi : Own (path ++ [i])) (hnone : child p i = none)
    (hq : Fresh Own root child q) (hlink : Linked Own root child child' path p i q) :
    Unshared Own root child' := by
  intro r₁ r₂ path₁ path₂ x h₁ h₂ hx₁ hx₂
  rw [node_link hown hun hp hi hnone hlink h₁] at hx₁
  rw [node_link hown hun hp hi hnone hlink h₂] at hx₂
  split at hx₁
  · rename_i hnew₁
    split at hx₂
    · rename_i hnew₂
      exact ⟨hnew₁.1.trans hnew₂.1.symm, hnew₁.2.trans hnew₂.2.symm⟩
    · cases hx₁
      exact absurd hx₂ (hq r₂ path₂ h₂)
  · split at hx₂
    · cases hx₂
      exact absurd hx₁ (hq r₁ path₁ h₁)
    · exact hun _ _ _ _ _ h₁ h₂ hx₁ hx₂

/-! ## Planting a tree -/

/-- The node `q`, without children on owned paths, becomes the root of `r`. -/
structure Planted (Own : List I → Prop) (root root' : R → Option N)
    (child child' : N → I → Option N) (r : R) (q : N) : Prop where
  plant  : root' r = some q
  roots  : ∀ r', r' ≠ r → root' r' = root r'
  leaf   : ∀ j, Own [j] → child' q j = none
  others : ∀ r' path' p' j, Own (path' ++ [j]) → node root child r' path' = some p' →
    child' p' j = child p' j

/-- After planting, the tree `r` is its root and the others are as before. -/
theorem node_plant [DecidableEq R] [DecidableEq I]
    (hown : ∀ path i, Own (path ++ [i]) → Own path)
    (hplant : Planted Own root root' child child' r q) {r' : R} {path' : List I}
    (hpath' : Own path') :
    node root' child' r' path' =
      if r' = r then (if path' = [] then some q else none) else node root child r' path' := by
  induction path' using List.reverseRecOn with
  | nil =>
    rw [node_nil, node_nil]
    by_cases hr : r' = r
    · rw [if_pos hr, if_pos rfl, hr, hplant.plant]
    · rw [if_neg hr, hplant.roots r' hr]
  | append_singleton path' j ih =>
    have hown' := hown path' j hpath'
    rw [node_snoc, ih hown']
    by_cases hr : r' = r
    · rw [if_pos hr, if_pos hr]
      by_cases hnil : path' = []
      · subst hnil
        rw [if_pos rfl, if_neg (by simp)]
        exact hplant.leaf j hpath'
      · rw [if_neg hnil, if_neg (by simp)]
        rfl
    · rw [if_neg hr, if_neg hr, node_snoc]
      cases hp' : node root child r' path' with
      | none => rfl
      | some p' => exact hplant.others r' path' p' j hpath' hp'

/-- Planting a fresh node shares nothing. -/
theorem Unshared.plant [DecidableEq R] [DecidableEq I]
    (hown : ∀ path i, Own (path ++ [i]) → Own path) (hun : Unshared Own root child)
    (hq : Fresh Own root child q) (hplant : Planted Own root root' child child' r q) :
    Unshared Own root' child' := by
  intro r₁ r₂ path₁ path₂ x h₁ h₂ hx₁ hx₂
  rw [node_plant hown hplant h₁] at hx₁
  rw [node_plant hown hplant h₂] at hx₂
  split at hx₁
  · rename_i hr₁
    split at hx₁
    · rename_i hnil₁
      cases hx₁
      split at hx₂
      · rename_i hr₂
        split at hx₂
        · rename_i hnil₂
          exact ⟨hr₁.trans hr₂.symm, hnil₁.trans hnil₂.symm⟩
        · cases hx₂
      · exact absurd hx₂ (hq r₂ path₂ h₂)
    · cases hx₁
  · split at hx₂
    · split at hx₂
      · cases hx₂
        exact absurd hx₁ (hq r₁ path₁ h₁)
      · cases hx₂
    · exact hun _ _ _ _ _ h₁ h₂ hx₁ hx₂

end Radix
