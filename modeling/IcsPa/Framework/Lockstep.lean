import IcsPa.Framework.Fault

/-! # Two programs in lockstep

    Two calls are in lockstep when they go wrong in the same way, or both
    return and their results are related.  A run feeds a list of inputs to a
    step function and collects what the steps put out; two runs are in
    lockstep if their steps are. -/

namespace CCall

variable {α β γ δ σ τ ι κ ω : Type}

/-! ## Section 1: Calls -/

def Lockstep (R : α → β → Prop) (x : Except Fault α) (y : Except Fault β) : Prop :=
  (∃ e, x = .error e ∧ y = .error e) ∨ ∃ a b, x = .ok a ∧ y = .ok b ∧ R a b

namespace Lockstep

variable {R : α → β → Prop} {S : γ → δ → Prop} {x : Except Fault α} {y : Except Fault β}

theorem ok {a : α} {b : β} (h : R a b) : Lockstep R (.ok a) (.ok b) := .inr ⟨a, b, rfl, rfl, h⟩

theorem error (R : α → β → Prop) (e : Fault) : Lockstep R (.error e) (.error e) :=
  .inl ⟨e, rfl, rfl⟩

theorem bind {f : α → Except Fault γ} {g : β → Except Fault δ} (h : Lockstep R x y)
    (hfg : ∀ a b, R a b → Lockstep S (f a) (g b)) : Lockstep S (x >>= f) (y >>= g) := by
  rcases h with ⟨e, rfl, rfl⟩ | ⟨a, b, rfl, rfl, hab⟩
  · exact error S e
  · exact hfg a b hab

/-- The first goes on to compute something from its result. -/
theorem map_left {T : γ → β → Prop} {f : α → γ} (h : Lockstep R x y) (hf : ∀ a b, R a b →
    T (f a) b) :
    Lockstep T (x >>= fun a => .ok (f a)) y := by
  rcases h with ⟨e, rfl, rfl⟩ | ⟨a, b, rfl, rfl, hab⟩
  · exact error T e
  · exact ok (hf a b hab)

/-- Both start with the same call. -/
theorem bind_left (x : Except Fault α) {f : α → Except Fault γ} {g : α → Except Fault δ}
    (hfg : ∀ a, x = .ok a → Lockstep S (f a) (g a)) : Lockstep S (x >>= f) (x >>= g) := by
  cases x with
  | error e => exact error S e
  | ok a => exact hfg a rfl

theorem mono {R' : α → β → Prop} (h : Lockstep R x y) (hR : ∀ a b, R a b → R' a b) :
    Lockstep R' x y := by
  rcases h with ⟨e, hx, hy⟩ | ⟨a, b, hx, hy, hab⟩
  · exact .inl ⟨e, hx, hy⟩
  · exact .inr ⟨a, b, hx, hy, hR a b hab⟩

/-- If the second call returns, so does the first. -/
theorem of_ok (h : Lockstep R x y) {b : β} (hy : y = .ok b) : ∃ a, x = .ok a ∧ R a b := by
  rcases h with ⟨e, hx, hy'⟩ | ⟨a, b', hx, hy', hab⟩
  · rw [hy] at hy'
    cases hy'
  · rw [hy] at hy'
    cases hy'
    exact ⟨a, hx, hab⟩

theorem symm (h : Lockstep R x y) : Lockstep (fun b a => R a b) y x := by
  rcases h with ⟨e, hx, hy⟩ | ⟨a, b, hx, hy, hab⟩
  · exact .inl ⟨e, hy, hx⟩
  · exact .inr ⟨b, a, hy, hx, hab⟩

theorem trans {T : β → γ → Prop} {z : Except Fault γ} (h : Lockstep R x y) (h' : Lockstep T y z) :
    Lockstep (fun a c => ∃ b, R a b ∧ T b c) x z := by
  rcases h with ⟨e, rfl, rfl⟩ | ⟨a, b, rfl, rfl, hab⟩
  · rcases h' with ⟨e', he, rfl⟩ | ⟨b, c, hb, -, -⟩
    · cases he
      exact error _ e
    · cases hb
  · rcases h' with ⟨e, he, -⟩ | ⟨b', c, hb, rfl, hbc⟩
    · cases he
    · cases hb
      exact ok ⟨b, hab, hbc⟩

/-- Loops over one list whose turns are in lockstep. -/
theorem foldlM {f : α → ι → Except Fault α} {g : β → ι → Except Fault β} {xs : List ι}
    (hturn : ∀ a b, R a b → ∀ x ∈ xs, Lockstep R (f a x) (g b x)) {a : α} {b : β} (h : R a b) :
    Lockstep R (xs.foldlM f a) (xs.foldlM g b) := by
  induction xs generalizing a b with
  | nil => exact ok h
  | cons x xs ih =>
    rw [List.foldlM_cons, List.foldlM_cons]
    exact (hturn a b h x List.mem_cons_self).bind fun a' b' h' =>
      ih (fun a b h y hy => hturn a b h y (List.mem_cons_of_mem x hy)) h'

end Lockstep

/-! ## Section 2: Runs -/

/-- A run, and what its steps put out. -/
def runs (step : σ → ι → Except Fault (σ × List ω)) : σ → List ι → Except Fault (σ × List ω)
  | s, [] => .ok (s, [])
  | s, x :: xs => do
      let (s, out) ← step s x
      let (s, rest) ← runs step s xs
      return (s, out ++ rest)

/-- The same is put out, and the states are related. -/
def Same (R : σ → τ → Prop) (x : σ × List ω) (y : τ × List ω) : Prop := R x.1 y.1 ∧ x.2 = y.2

theorem Same.mk {R : σ → τ → Prop} {s : σ} {t : τ} (h : R s t) (out : List ω) :
    Same R (s, out) (t, out) := ⟨h, rfl⟩

variable {f : σ → ι → Except Fault (σ × List ω)} {g : τ → κ → Except Fault (τ × List ω)}

/-- Steps in lockstep make runs in lockstep. -/
theorem Lockstep.runs {R : σ → τ → Prop} (φ : ι → κ) {xs : List ι}
    (hstep : ∀ s t, R s t → ∀ x ∈ xs, Lockstep (Same R) (f s x) (g t (φ x)))
    {s : σ} {t : τ} (h : R s t) : Lockstep (Same R) (runs f s xs) (runs g t (xs.map φ)) := by
  induction xs generalizing s t with
  | nil => exact .ok (.mk h [])
  | cons x xs ih =>
    refine (hstep s t h x List.mem_cons_self).bind ?_
    rintro ⟨s₁, out⟩ ⟨t₁, out'⟩ ⟨h₁, rfl⟩
    refine (ih (fun s t h y hy => hstep s t h y (List.mem_cons_of_mem x hy)) h₁).bind ?_
    rintro ⟨s₂, rest⟩ ⟨t₂, rest'⟩ ⟨h₂, rfl⟩
    exact .ok (.mk h₂ (out ++ rest))

/-- Inputs that do the same may take each other's place. -/
theorem runs_map {φ : ι → ι} {xs : List ι} (h : ∀ s, ∀ x ∈ xs, f s (φ x) = f s x) (s : σ) :
    runs f s (xs.map φ) = runs f s xs := by
  induction xs generalizing s with
  | nil => rfl
  | cons x xs ih =>
    rw [List.map_cons]
    unfold runs
    rw [h s x List.mem_cons_self]
    congr 1
    funext ⟨s', out⟩
    dsimp only
    rw [ih fun s y hy => h s y (List.mem_cons_of_mem x hy)]

/-- What every step keeps, a run that returns keeps; `P` is about what was put
    out so far. -/
theorem runs_inv {P : List ι → List ω → σ → Prop} {xs : List ι}
    (hstep : ∀ done x rest out s s' o, xs = done ++ x :: rest → P done out s →
      f s x = .ok (s', o) → P (done ++ [x]) (out ++ o) s')
    {s s' : σ} {out : List ω} (hs : P [] [] s) (h : runs f s xs = .ok (s', out)) : P xs out s' := by
  suffices hrest : ∀ rest done out₀ s out, xs = done ++ rest → P done out₀ s →
      runs f s rest = .ok (s', out) → P xs (out₀ ++ out) s' from hrest xs [] [] s out rfl hs h
  intro rest
  induction rest with
  | nil =>
    intro done out₀ s out hxs hdone hrun
    cases hrun
    rw [hxs, List.append_nil, List.append_nil]
    exact hdone
  | cons x rest ih =>
    intro done out₀ s out hxs hdone hrun
    obtain ⟨⟨s₁, o⟩, hx, hrun⟩ := bind_eq_ok hrun
    obtain ⟨⟨s₂, os⟩, hrest, hrun⟩ := bind_eq_ok hrun
    cases hrun
    have hnext := hstep done x rest out₀ s s₁ o hxs hdone hx
    have hend := ih (done ++ [x]) (out₀ ++ o) s₁ os (by rw [hxs]; simp) hnext hrest
    rw [← List.append_assoc]
    exact hend

end CCall
