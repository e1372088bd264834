import IcsPa.Nemu.Common
import Mathlib.Algebra.BigOperators.Group.List.Basic
import Mathlib.Algebra.Order.BigOperators.Group.List

/-! # The space of the devices

    `new_space` of `src/device/io/map.c`.  The devices get the bytes behind
    their registers from one array; each request takes whole pages from the
    first one that is free, and nothing is given back.

    The bound is checked after `p_space` has moved, and with `<`: a request
    that fills the array up to its last byte is refused. -/

open CCall

namespace Nemu.IoSpace

/-! ## Section 1: The code -/

def IO_SPACE_MAX : Int := 2 * 1024 * 1024

def PAGE_SIZE : Int := 4096

/-- The address of the array, which is `PG_ALIGN`, and the pointer into it. -/
structure Space where
  io_space : Int
  pg_align : PAGE_SIZE ∣ io_space
  p_space  : Int

/-- The state that NEMU starts in. -/
def init (io_space : Int) (h : PAGE_SIZE ∣ io_space) : Space := ⟨io_space, h, io_space⟩

/-- `v & ~PAGE_MASK` -/
def clear_page_mask (v : Int) : Int := v - v % PAGE_SIZE

def new_space (size : Int) (s : Space) : Except Fault (Int × Space) := do
  let p := s.p_space
  let size ← cint (size + (PAGE_SIZE - 1))
  let size := clear_page_mask size
  let s := { s with p_space := s.p_space + size }
  cassert (s.p_space - s.io_space < IO_SPACE_MAX)
  return (p, s)

/-! ## Section 2: Histories of requests -/

/-- The bytes of the pages that hold `size` bytes. -/
def page_round (size : Int) : Int := clear_page_mask (size + (PAGE_SIZE - 1))

/-- A region for `size` bytes at `start`. -/
structure Region where
  start : Int
  size  : Int
  deriving DecidableEq

/-- The address `x` is in the pages of the region. -/
def Region.has (r : Region) (x : Int) : Prop := r.start ≤ x ∧ x < r.start + page_round r.size

/-- The regions that requests return, up to the first request that fails. -/
def requests : List Int → Space → List Region × Option Int
  | [], _ => ([], none)
  | size :: sizes, s =>
      match new_space size s with
      | .ok (p, s') => (⟨p, size⟩ :: (requests sizes s').1, (requests sizes s').2)
      | .error _ => ([], some size)

/-- The bytes of the pages that requests of these sizes take. -/
def used (sizes : List Int) : Int := (sizes.map page_round).sum

/-- The sizes that requests may have. -/
def Valid (size : Int) : Prop := 1 ≤ size ∧ size ≤ IO_SPACE_MAX

instance (size : Int) : Decidable (Valid size) := inferInstanceAs (Decidable (_ ∧ _))

/-- What the history of requests is to give: aligned regions inside the array,
    no two with a byte in common, and a failure only for want of space. -/
structure Served (io_space : Int) (history : List Region × Option Int) : Prop where
  aligned  : ∀ r ∈ history.1, PAGE_SIZE ∣ r.start
  inside   : ∀ r ∈ history.1, ∀ x, r.has x → io_space ≤ x ∧ x < io_space + IO_SPACE_MAX
  disjoint : history.1.Pairwise fun r r' => ∀ x, ¬ (r.has x ∧ r'.has x)
  exhausted : ∀ size, history.2 = some size →
    IO_SPACE_MAX - used (history.1.map Region.size) < page_round size

/-! ## Section 3: One request -/

theorem page_round_dvd (size : Int) : PAGE_SIZE ∣ page_round size := by
  unfold page_round clear_page_mask
  exact Int.dvd_self_sub_emod

/-- The pages hold the bytes that were asked for. -/
theorem le_page_round (size : Int) : size ≤ page_round size := by
  unfold page_round clear_page_mask PAGE_SIZE
  omega

variable {s : Space} {size : Int} {sizes : List Int}

/-- A request is refused if it would end at the end of the array or behind. -/
theorem new_space_eq (hsize : Valid size) :
    new_space size s =
      if s.p_space + page_round size < s.io_space + IO_SPACE_MAX then
        .ok (s.p_space, { s with p_space := s.p_space + page_round size })
      else .error .assertion := by
  have hmax : IO_SPACE_MAX = 2097152 := rfl
  have hpage : PAGE_SIZE = 4096 := rfl
  obtain ⟨hlo, hhi⟩ := hsize
  unfold new_space
  rw [cint_eq_ok (by omega) (by omega)]
  show (cassert (decide (s.p_space + page_round size - s.io_space < IO_SPACE_MAX)) >>= _) = _
  -- The assertion subtracts the start of the array.
  by_cases hfit : s.p_space + page_round size < s.io_space + IO_SPACE_MAX
  · have hfit' : s.p_space + page_round size - s.io_space < IO_SPACE_MAX := by omega
    rw [decide_eq_true hfit', if_pos hfit]
    rfl
  · have hfit' : ¬ s.p_space + page_round size - s.io_space < IO_SPACE_MAX := by omega
    rw [decide_eq_false hfit', if_neg hfit]
    rfl

/-! ## Section 4: Whole histories -/

/-- The next region starts at a page of the array. -/
structure Ready (s : Space) : Prop where
  aligned : PAGE_SIZE ∣ s.p_space
  lower   : s.io_space ≤ s.p_space
  upper   : s.p_space < s.io_space + IO_SPACE_MAX

theorem Ready.advance (hs : Ready s) (hsize : Valid size)
    (hfit : s.p_space + page_round size < s.io_space + IO_SPACE_MAX) :
    Ready { s with p_space := s.p_space + page_round size } where
  aligned := Int.dvd_add hs.aligned (page_round_dvd size)
  -- The pages hold at least one byte.
  lower := by
    have hround := le_page_round size
    have hlo := hs.lower
    have hpos := hsize.1
    dsimp only
    omega
  upper := hfit

/-- The regions of a history start behind what was returned before. -/
theorem requests_regions (hs : Ready s) (hsizes : ∀ size ∈ sizes, Valid size) :
    (requests sizes s).1.Pairwise (fun r r' => r.start + page_round r.size ≤ r'.start) ∧
      ∀ r ∈ (requests sizes s).1, PAGE_SIZE ∣ r.start ∧ s.p_space ≤ r.start ∧
        r.start + page_round r.size < s.io_space + IO_SPACE_MAX := by
  induction sizes generalizing s with
  | nil => exact ⟨List.Pairwise.nil, fun r hr => absurd hr List.not_mem_nil⟩
  | cons size sizes ih =>
    have hsize := hsizes size List.mem_cons_self
    rw [requests, new_space_eq hsize]
    by_cases hfit : s.p_space + page_round size < s.io_space + IO_SPACE_MAX
    · rw [if_pos hfit]
      obtain ⟨hpair, hrest⟩ := ih (hs.advance hsize hfit)
        fun size h => hsizes size (List.mem_cons_of_mem _ h)
      have hround := le_page_round size
      have hpos := hsize.1
      constructor
      · exact List.pairwise_cons.mpr ⟨fun r hr => (hrest r hr).2.1, hpair⟩
      · intro r hr
        rcases List.mem_cons.mp hr with rfl | hr
        · exact ⟨hs.aligned, Int.le_refl _, hfit⟩
        · obtain ⟨halign, hlo, hhi⟩ := hrest r hr
          dsimp only at hlo hhi
          exact ⟨halign, by omega, hhi⟩
    · rw [if_neg hfit]
      exact ⟨List.Pairwise.nil, fun r hr => absurd hr List.not_mem_nil⟩

/-- The bytes of the pages still free. -/
def free (s : Space) : Int := s.io_space + IO_SPACE_MAX - s.p_space

theorem used_nonneg (hsizes : ∀ size ∈ sizes, Valid size) : 0 ≤ used sizes := by
  apply List.sum_nonneg
  intro v hv
  obtain ⟨size, hmem, rfl⟩ := List.mem_map.mp hv
  have hpos := (hsizes size hmem).1
  have hround := le_page_round size
  omega

theorem used_cons (size : Int) (sizes : List Int) :
    used (size :: sizes) = page_round size + used sizes := by
  unfold used
  rw [List.map_cons, List.sum_cons]

/-- A failure is for want of space unless some requests fill the array. -/
theorem requests_exhausted_iff (hs : Ready s) (hsizes : ∀ size ∈ sizes, Valid size) :
    (∀ size, (requests sizes s).2 = some size →
        free s - used ((requests sizes s).1.map Region.size) < page_round size) ↔
      ∀ k ≤ sizes.length, used (sizes.take k) ≠ free s := by
  have hupper := hs.upper
  induction sizes generalizing s with
  | nil =>
    constructor
    · intro _ k _ h
      rw [List.take_nil] at h
      have hfree : free s = 0 := h.symm
      unfold free at hfree
      omega
    · intro _ size h
      cases h
  | cons size sizes ih =>
    have hsize := hsizes size List.mem_cons_self
    have hsizes' : ∀ size ∈ sizes, Valid size := fun size h =>
      hsizes size (List.mem_cons_of_mem _ h)
    -- No request at all takes nothing, and there is space.
    have hfirst : used ((size :: sizes).take 0) ≠ free s := by
      show (0 : Int) ≠ s.io_space + IO_SPACE_MAX - s.p_space
      omega
    rw [requests, new_space_eq hsize]
    by_cases hfit : s.p_space + page_round size < s.io_space + IO_SPACE_MAX
    · -- The rest of the history starts with less space.
      rw [if_pos hfit]
      have hfree : free { s with p_space := s.p_space + page_round size } =
          free s - page_round size := by
        unfold free
        dsimp only
        omega
      have hrest := ih (hs.advance hsize hfit) hsizes' hfit
      rw [hfree] at hrest
      rw [List.map_cons, used_cons]
      dsimp only
      constructor
      · intro h k hk
        cases k with
        | zero => exact hfirst
        | succ k =>
          have hk' :=
              hrest.mp (fun size hfail => by have := h size hfail; omega) k (by simpa using hk)
          rw [List.take_succ_cons, used_cons]
          omega
      · intro h size' hfail
        have hrest' := hrest.mpr (fun k hk => by
          have hk' := h (k + 1) (Nat.succ_le_succ hk)
          rw [List.take_succ_cons, used_cons] at hk'
          omega) size' hfail
        omega
    · -- This request fails; no later one can fill the array again.
      rw [if_neg hfit]
      have hnil : used (List.map Region.size []) = 0 := rfl
      dsimp only
      rw [hnil]
      unfold free
      constructor
      · intro h k hk
        have hlack := h size rfl
        cases k with
        | zero => exact hfirst
        | succ k =>
          have hmore : 0 ≤ used (sizes.take k) :=
            used_nonneg fun size hmem => hsizes' size (List.mem_of_mem_take hmem)
          rw [List.take_succ_cons, used_cons]
          omega
      · intro h size' hfail
        -- This request alone does not fill the array, so its pages are too many.
        have hone := h 1 (by simp)
        rw [List.take_succ_cons, used_cons, List.take_zero] at hone
        have hzero : used [] = 0 := rfl
        cases hfail
        omega

/-- A history of requests is served as it should be unless some requests in a
    row take exactly the whole array. -/
theorem served_iff (io_space : Int) (hbase : PAGE_SIZE ∣ io_space) (sizes : List Int)
    (hsizes : ∀ size ∈ sizes, Valid size) :
    Served io_space (requests sizes (init io_space hbase)) ↔
      ∀ k ≤ sizes.length, used (sizes.take k) ≠ IO_SPACE_MAX := by
  have hmax : IO_SPACE_MAX = 2097152 := rfl
  -- At the start the whole array is free.
  have hroom : io_space < io_space + IO_SPACE_MAX := by omega
  have hready : Ready (init io_space hbase) := ⟨hbase, Int.le_refl _, hroom⟩
  have hfree : free (init io_space hbase) = IO_SPACE_MAX := by
    show io_space + IO_SPACE_MAX - io_space = IO_SPACE_MAX
    omega
  have hexhausted := requests_exhausted_iff hready hsizes
  rw [hfree] at hexhausted
  obtain ⟨hpair, hregions⟩ := requests_regions hready hsizes
  constructor
  · intro h
    exact hexhausted.mp h.exhausted
  · intro h
    refine ⟨fun r hr => (hregions r hr).1, ?_, hpair.imp ?_, hexhausted.mpr h⟩
    · intro r hr x hx
      obtain ⟨-, hlo, hhi⟩ := hregions r hr
      have hbase : io_space ≤ r.start := hlo
      have hend : r.start + page_round r.size < io_space + IO_SPACE_MAX := hhi
      exact ⟨by have := hx.1; omega, by have := hx.2; omega⟩
    · intro r r' hlt x hx
      have hend := hx.1.2
      have hstart := hx.2.1
      omega

theorem served_keyboard : Served 0 (requests [8, 4, 8] (init 0 ⟨0, rfl⟩)) :=
  (served_iff 0 ⟨0, rfl⟩ [8, 4, 8] (by decide)).mpr (by decide)

/-- A first request for the whole array fails. -/
theorem whole_array_refused :
    Valid IO_SPACE_MAX ∧ requests [IO_SPACE_MAX] (init 0 ⟨0, rfl⟩) = ([], some IO_SPACE_MAX) ∧
      ¬ Served 0 (requests [IO_SPACE_MAX] (init 0 ⟨0, rfl⟩)) := by
  have hrefused : requests [IO_SPACE_MAX] (init 0 ⟨0, rfl⟩) = ([], some IO_SPACE_MAX) := by decide
  refine ⟨by decide, hrefused, ?_⟩
  intro h
  rw [hrefused] at h
  have hlack := h.exhausted IO_SPACE_MAX rfl
  revert hlack
  decide

end Nemu.IoSpace
