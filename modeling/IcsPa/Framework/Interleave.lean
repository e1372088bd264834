import Mathlib.Algebra.Order.BigOperators.Group.Finset

/-! # Interleavings

    A machine takes one of its steps after the other, or is stuck.  What every
    step keeps, every run keeps; and where the moves of a run pay for themselves
    from a rank that never grows, there are only so many of them. -/

namespace Interleave

variable {σ ι : Type}

/-! ## Section 1: Runs -/

section run
variable (step : σ → ι → Option σ)

def run (s : σ) : List ι → Option σ
  | [] => some s
  | x :: xs => (step s x).bind fun s => run s xs

end run

variable {step : σ → ι → Option σ} {s s' : σ}

theorem run_cons {x : ι} {xs : List ι} (h : run step s (x :: xs) = some s') :
    ∃ s₁, step s x = some s₁ ∧ run step s₁ xs = some s' := Option.bind_eq_some_iff.mp h

/-- What every step keeps, every run keeps. -/
theorem run_inv {P : σ → Prop} (hstep : ∀ s x s', P s → step s x = some s' → P s') {xs : List ι}
    (hs : P s) (hrun : run step s xs = some s') : P s' := by
  induction xs generalizing s with
  | nil =>
    cases hrun
    exact hs
  | cons x xs ih =>
    obtain ⟨s₁, hx, hrest⟩ := run_cons hrun
    exact ih (hstep s x s₁ hs hx) hrest

/-! ## Section 2: Moves -/

/-- How many steps of a run are moves. -/
def moves (step : σ → ι → Option σ) (moved : σ → ι → σ → Bool) (s : σ) : List ι → Nat
  | [] => 0
  | x :: xs =>
      match step s x with
      | none => 0
      | some s' => (moved s x s').toNat + moves step moved s' xs

/-- Each move costs one of the rank, and no step adds to it. -/
theorem moves_le (moved : σ → ι → σ → Bool) {P : σ → Prop} (rank : σ → Nat)
    (hstep : ∀ s x s', P s → step s x = some s' → P s' ∧ rank s' + (moved s x s').toNat ≤ rank s)
    {xs : List ι} (hs : P s) (hrun : run step s xs = some s') :
    rank s' + moves step moved s xs ≤ rank s := by
  induction xs generalizing s with
  | nil =>
    cases hrun
    exact Nat.le_refl _
  | cons x xs ih =>
    obtain ⟨s₁, hx, hrest⟩ := run_cons hrun
    obtain ⟨hs₁, hpaid⟩ := hstep s x s₁ hs hx
    have hih := ih hs₁ hrest
    unfold moves
    rw [hx]
    dsimp only
    omega

/-- The rank of a system is the sum of the ranks of its parties: it is enough
    that the party `c` pays. -/
theorem sum_add_le {n c d : Nat} {f g : Nat → Nat} (hc : c < n) (hpays : g c + d ≤ f c)
    (hothers : ∀ k < n, k ≠ c → g k ≤ f k) :
    ∑ k ∈ Finset.range n, g k + d ≤ ∑ k ∈ Finset.range n, f k := by
  have hmem : c ∈ Finset.range n := Finset.mem_range.mpr hc
  have hrest : ∑ k ∈ (Finset.range n).erase c, g k ≤ ∑ k ∈ (Finset.range n).erase c, f k := by
    apply Finset.sum_le_sum
    intro k hk
    obtain ⟨hne, hk⟩ := Finset.mem_erase.mp hk
    exact hothers k (Finset.mem_range.mp hk) hne
  rw [← Finset.add_sum_erase _ g hmem, ← Finset.add_sum_erase _ f hmem]
  omega

end Interleave
