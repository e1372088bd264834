import Mathlib.Logic.Function.Basic

/-! # Address spaces

    What the VME part of `am.h` is for.  A set of address spaces is a map
    from their names to finite maps of user pages: `protect` makes an empty
    one, `map` records where a page leads and with which permissions, and
    switching contexts changes none.  The implementations of
    `abstract-machine/am/src` are compared with this machine. -/

namespace Am

def MMAP_NONE : Nat := 0x00000000
def MMAP_READ : Nat := 0x00000001
def MMAP_WRITE : Nat := 0x00000002

/-- Memory area for `[start, end_)`. -/
structure Area where
  start : Nat
  end_  : Nat
  deriving DecidableEq, Repr

def Area.IN_RANGE (area : Area) (ptr : Nat) : Bool :=
  decide (area.start ≤ ptr) && decide (ptr < area.end_)

/-- The contents of one address space: the `pa` and `prot` of the last `map`
    of each page. -/
abbrev Pages : Type := Nat → Option (Nat × Nat)

def Pages.empty : Pages := fun _ => none

def Pages.insert (pages : Pages) (va pa prot : Nat) : Pages :=
  Function.update pages va (some (pa, prot))

theorem Pages.insert_self (pages : Pages) (va pa prot : Nat) :
    pages.insert va pa prot va = some (pa, prot) := by
  simp [Pages.insert]

theorem Pages.insert_ne (pages : Pages) {va va' : Nat} (pa prot : Nat) (h : va' ≠ va) :
    pages.insert va pa prot va' = pages va' := by
  simp [Pages.insert, Function.update_of_ne h]

def Pages.erase (pages : Pages) (va : Nat) : Pages :=
  Function.update pages va none

/-- `map` where `MMAP_NONE` unmaps the page. -/
def Pages.map (pages : Pages) (va pa prot : Nat) : Pages :=
  if prot = MMAP_NONE then pages.erase va else pages.insert va pa prot

theorem Pages.map_ne (pages : Pages) {va va' : Nat} (pa prot : Nat) (h : va' ≠ va) :
    pages.map va pa prot va' = pages va' := by
  unfold Pages.map
  split
  · simp [Pages.erase, Function.update_of_ne h]
  · exact pages.insert_ne pa prot h

/-- All address spaces; `none` before the first `protect`. -/
abbrev Spaces (A : Type) : Type := A → Option Pages

/-- The calls of the interface; `A` names the `AddrSpace` objects.  A context
    is one of `ucontext`, or (`none`) one of the kernel. -/
inductive Call (A : Type) where
  | protect (as : A)
  | map (as : A) (va pa prot : Nat)
  | switch (ctx : Option A)

section spaces
variable {A : Type} [DecidableEq A]

def Spaces.call (m : Spaces A) : Call A → Spaces A
  | .protect as => Function.update m as (some Pages.empty)
  | .map as va pa prot => Function.update m as ((m as).map fun pages => pages.insert va pa prot)
  | .switch _ => m

/-- The calls where `map` may unmap. -/
def Spaces.callUnmap (m : Spaces A) : Call A → Spaces A
  | .map as va pa prot => Function.update m as ((m as).map fun pages => pages.map va pa prot)
  | c => m.call c

theorem Spaces.protect_self (m : Spaces A) (as : A) :
    m.callUnmap (.protect as) as = some Pages.empty := Function.update_self as _ m

theorem Spaces.protect_ne (m : Spaces A) {as as' : A} (h : as' ≠ as) :
    m.callUnmap (.protect as) as' = m as' := Function.update_of_ne h _ m

theorem Spaces.map_self (m : Spaces A) (as : A) (va pa prot : Nat) :
    m.callUnmap (.map as va pa prot) as = (m as).map fun pages => pages.map va pa prot :=
  Function.update_self as _ m

theorem Spaces.map_ne (m : Spaces A) {as as' : A} (va pa prot : Nat) (h : as' ≠ as) :
    m.callUnmap (.map as va pa prot) as' = m as' := Function.update_of_ne h _ m

/-- The address spaces after some calls. -/
def Spaces.run (calls : List (Call A)) : Spaces A :=
  calls.foldl Spaces.call fun _ => none

/-- The address spaces after some calls where `map` may unmap. -/
def Spaces.runUnmap (calls : List (Call A)) : Spaces A :=
  calls.foldl Spaces.callUnmap fun _ => none

theorem Spaces.runUnmap_append (calls : List (Call A)) (c : Call A) :
    Spaces.runUnmap (calls ++ [c]) = (Spaces.runUnmap calls).callUnmap c := by
  simp [Spaces.runUnmap]

theorem Spaces.run_append (calls : List (Call A)) (c : Call A) :
    Spaces.run (calls ++ [c]) = (Spaces.run calls).call c := by
  simp [Spaces.run]

end spaces

end Am
