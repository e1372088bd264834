import IcsPa.Framework.Bytes
import Mathlib.Logic.Function.Basic

/-! # Objects in one byte store

    A `Layout` gives each object of a family a place of its own in a byte
    store, so that no byte belongs to two of them.  A store then `Holds` the
    contents of all objects at once, and a load or a store inside one place is
    a load or a store of that object alone. -/

namespace Bytes

/-- Where the objects are, and how many bytes of each place are its own. -/
structure Layout (ι : Type*) where
  base   : ι → Nat
  extent : ι → Nat
  apart  : ∀ d e, d ≠ e → base d + extent d ≤ base e ∨ base e + extent e ≤ base d

namespace Layout

variable {ι : Type*} (L : Layout ι)

/-- Every byte of a place is the one of the object's contents. -/
def Holds (m : Store) (objs : ι → Store) : Prop :=
  ∀ d i, i < L.extent d → m (L.base d + i) = objs d i

variable {L} {m : Store} {objs : ι → Store}

theorem Holds.byte (h : L.Holds m objs) {d : ι} {i : Nat} (hi : i < L.extent d) :
    m (L.base d + i) = objs d i := h d i hi

/-- A load inside a place is a load of the object. -/
theorem Holds.load (h : L.Holds m objs) {d : ι} {i n : Nat} (hin : i + n ≤ L.extent d) :
    load m (L.base d + i) n = load (objs d) i n := by
  apply load_shift
  intro j hj
  rw [Nat.add_assoc]
  exact h d (i + j) (by omega)

/-- A store inside a place is a store to the object, and no other object
    changes. -/
theorem Holds.store [DecidableEq ι] (h : L.Holds m objs) {d : ι} {i n : Nat} (v : Nat)
    (hin : i + n ≤ L.extent d) :
    L.Holds (store m (L.base d + i) v n) (Function.update objs d (Bytes.store (objs d) i v n)) := by
  intro e j hj
  by_cases hed : e = d
  · subst hed
    rw [Function.update_self]
    by_cases hcover : i ≤ j ∧ j < i + n
    · have hindex : L.base e + j - (L.base e + i) = j - i := by omega
      rw [store_inside (by omega) (by omega), store_inside hcover.1 hcover.2, hindex]
    · rw [store_outside (by omega), store_outside (by omega)]
      exact h e j hj
  · -- The places are apart.
    have hapart := L.apart e d hed
    rw [Function.update_of_ne hed, store_outside (by omega)]
    exact h e j hj

end Layout

end Bytes
