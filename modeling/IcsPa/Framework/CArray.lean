import IcsPa.Framework.Fault
import Mathlib.Data.List.Range
import Mathlib.Logic.Function.Basic

/-! # C arrays

    An array and `memcpy` and `memset` on it.  Offsets and lengths are `int`s;
    a length below 0 is a huge `size_t`, so a copy outside its arrays goes
    wrong. -/

namespace CCall

structure CArray (α : Type) where
  size : Nat
  cell : Nat → α

namespace CArray

variable {α : Type}

/-- `n` elements from `off` on are in the array. -/
def has (a : CArray α) (off n : Int) : Prop := 0 ≤ off ∧ 0 ≤ n ∧ off + n ≤ a.size

instance (a : CArray α) (off n : Int) : Decidable (a.has off n) :=
  inferInstanceAs (Decidable (_ ∧ _))

/-- The elements from `off` on. -/
def slice (a : CArray α) (off n : Nat) : List α := (List.range n).map fun i => a.cell (off + i)

/-- The array after a copy. -/
def copied (dst : CArray α) (d : Nat) (src : CArray α) (s n : Nat) : CArray α :=
  { dst with cell := fun x => if d ≤ x ∧ x < d + n then src.cell (s + (x - d)) else dst.cell x }

def filled (dst : CArray α) (d : Nat) (v : α) (n : Nat) : CArray α :=
  { dst with cell := fun x => if d ≤ x ∧ x < d + n then v else dst.cell x }

/-- `memcpy(dst + d, src + s, n * sizeof(*dst))` -/
def memcpy (dst : CArray α) (d : Int) (src : CArray α) (s n : Int) : Except Fault (CArray α) :=
  if dst.has d n ∧ src.has s n then .ok (dst.copied d.toNat src s.toNat n.toNat)
  else .error .outOfBounds

/-- `memset(dst + d, v, n)` -/
def memset (dst : CArray α) (d : Int) (v : α) (n : Int) : Except Fault (CArray α) :=
  if dst.has d n then .ok (dst.filled d.toNat v n.toNat) else .error .outOfBounds

/-- `a[i]` -/
def read (a : CArray α) (i : Int) : Except Fault α :=
  if 0 ≤ i ∧ i < a.size then .ok (a.cell i.toNat) else .error .outOfBounds

/-- `a[i] = v` -/
def write (a : CArray α) (i : Int) (v : α) : Except Fault (CArray α) :=
  if 0 ≤ i ∧ i < a.size then .ok { a with cell := Function.update a.cell i.toNat v }
  else .error .outOfBounds

theorem read_ok {a : CArray α} {i : Nat} (h : i < a.size) : a.read i = .ok (a.cell i) :=
  if_pos ⟨by omega, by omega⟩

theorem write_ok {a : CArray α} {i : Nat} (h : i < a.size) (v : α) :
    a.write i v = .ok { a with cell := Function.update a.cell i v } :=
  if_pos ⟨by omega, by omega⟩

variable {dst src : CArray α} {d s n : Nat}

theorem memcpy_ok (hd : d + n ≤ dst.size) (hs : s + n ≤ src.size) :
    memcpy dst d src s n = .ok (dst.copied d src s n) := by
  have hdst : dst.has d n := ⟨by omega, by omega, by omega⟩
  have hsrc : src.has s n := ⟨by omega, by omega, by omega⟩
  rw [memcpy, if_pos ⟨hdst, hsrc⟩]
  rfl

/-- A copy that returns is inside its arrays. -/
theorem has_of_memcpy {a : CArray α} {x y k : Int} (h : memcpy dst x src y k = .ok a) :
    dst.has x k ∧ src.has y k := by
  unfold memcpy at h
  split at h
  · assumption
  · cases h

theorem memset_ok {v : α} (hd : d + n ≤ dst.size) : memset dst d v n = .ok (dst.filled d v n) := by
  have hdst : dst.has d n := ⟨by omega, by omega, by omega⟩
  rw [memset, if_pos hdst]
  rfl

@[simp] theorem length_slice (a : CArray α) (off n : Nat) : (a.slice off n).length = n := by
  simp [slice]

@[simp] theorem size_copied : (dst.copied d src s n).size = dst.size := rfl

theorem copied_inside {x : Nat} (hlo : d ≤ x) (hhi : x < d + n) :
    (dst.copied d src s n).cell x = src.cell (s + (x - d)) := if_pos ⟨hlo, hhi⟩

theorem copied_outside {x : Nat} (h : x < d ∨ d + n ≤ x) :
    (dst.copied d src s n).cell x = dst.cell x := if_neg (by omega)

theorem filled_inside {v : α} {x : Nat} (hlo : d ≤ x) (hhi : x < d + n) :
    (dst.filled d v n).cell x = v := if_pos ⟨hlo, hhi⟩

theorem filled_outside {v : α} {x : Nat} (h : x < d ∨ d + n ≤ x) :
    (dst.filled d v n).cell x = dst.cell x := if_neg (by omega)

theorem slice_add (a : CArray α) (off m n : Nat) :
    a.slice off (m + n) = a.slice off m ++ a.slice (off + m) n := by
  unfold slice
  rw [List.range_add, List.map_append, List.map_map]
  congr 2
  funext i
  rw [Function.comp_apply, Nat.add_assoc]

theorem slice_congr {a b : CArray α} {off off' n : Nat}
    (h : ∀ i < n, b.cell (off' + i) = a.cell (off + i)) : b.slice off' n = a.slice off n := by
  unfold slice
  apply List.map_congr_left
  intro i hi
  exact h i (List.mem_range.mp hi)

theorem slice_copied : (dst.copied d src s n).slice d n = src.slice s n := by
  apply slice_congr
  intro i hi
  rw [copied_inside (by omega) (by omega), Nat.add_sub_cancel_left]

theorem slice_copied_outside {off m : Nat} (h : off + m ≤ d ∨ d + n ≤ off) :
    (dst.copied d src s n).slice off m = dst.slice off m := by
  apply slice_congr
  intro i hi
  exact copied_outside (by omega)

theorem slice_filled {v : α} : (dst.filled d v n).slice d n = List.replicate n v := by
  unfold slice
  rw [List.eq_replicate_iff]
  constructor
  · simp
  · intro x hx
    obtain ⟨i, hi, rfl⟩ := List.mem_map.mp hx
    have hlt := List.mem_range.mp hi
    exact filled_inside (by omega) (by omega)

theorem slice_filled_outside {v : α} {off m : Nat} (h : off + m ≤ d ∨ d + n ≤ off) :
    (dst.filled d v n).slice off m = dst.slice off m := by
  apply slice_congr
  intro i hi
  exact filled_outside (by omega)

end CArray

end CCall
