import Mathlib.Data.List.Range
import Mathlib.Tactic.Ring

/-! # C calls that may not return

    A C function that can stop the program, or go wrong in a way C does not
    define, is a function into `Except Fault`; its body is a `do` block. -/

namespace CCall

/-- The ways a C call ends without returning. -/
inductive Fault where
  /-- `assert`, `Assert`, `panic` or `TODO()`: the process stops. -/
  | assertion
  /-- The call reads or writes outside every live C object it may use. -/
  | outOfBounds
  /-- A signed computation leaves the range of its type. -/
  | overflow
  /-- The call loops for ever. -/
  | diverges
  deriving DecidableEq, Repr

/-- `assert(cond)`. -/
def cassert (cond : Bool) : Except Fault Unit :=
  if cond then .ok () else .error .assertion

@[simp] theorem cassert_true : cassert true = .ok () := rfl

@[simp] theorem cassert_false : cassert false = .error .assertion := rfl

theorem cassert_ok {c : Bool} {u : Unit} (h : cassert c = .ok u) : c = true := by
  cases c with
  | true => rfl
  | false => cases h

/-- The value of a computation in `int`. -/
def cint (v : Int) : Except Fault Int :=
  if -2 ^ 31 ≤ v ∧ v < 2 ^ 31 then .ok v else .error .overflow

theorem cint_eq_ok {v : Int} (hlo : -2 ^ 31 ≤ v) (hhi : v < 2 ^ 31) : cint v = .ok v :=
  if_pos ⟨hlo, hhi⟩

theorem cint_natCast {n : Nat} (h : n < 2 ^ 31) : cint n = .ok (n : Int) :=
  cint_eq_ok (by omega) (by omega)

theorem cint_ok {v v' : Int} (h : cint v = .ok v') : v' = v ∧ -2 ^ 31 ≤ v ∧ v < 2 ^ 31 := by
  unfold cint at h
  split at h
  · rename_i hrange
    exact ⟨(Except.ok.inj h).symm, hrange⟩
  · cases h

/-- `isspace` in the C locale. -/
def isspace (c : Char) : Bool := c == ' ' || ('\t' ≤ c && c ≤ '\r')

/-- A `do` block returns only if its first statement does. -/
theorem bind_eq_ok {α β : Type} {x : Except Fault α} {f : α → Except Fault β} {b : β}
    (h : x >>= f = .ok b) : ∃ a, x = .ok a ∧ f a = .ok b := by
  cases x with
  | error e => cases h
  | ok a => exact ⟨a, rfl, h⟩

@[simp] theorem ok_bind {α β : Type} (a : α) (f : α → Except Fault β) :
    (Except.ok a >>= f) = f a := rfl

@[simp] theorem error_bind {α β : Type} (e : Fault) (f : α → Except Fault β) :
    (Except.error e >>= f) = .error e := rfl

@[simp] theorem pure_eq_ok {α : Type} (a : α) : (pure a : Except Fault α) = .ok a := rfl

theorem toBool_ok {α : Type} {x : Except Fault α} (h : x.toBool = true) : ∃ a, x = .ok a := by
  cases x with
  | error e => cases h
  | ok a => exact ⟨a, rfl⟩

/-- A loop over a list keeps what its body keeps; `done` are the elements
    behind it. -/
theorem foldlM_ok {α σ : Type} {f : σ → α → Except Fault σ} {P : List α → σ → Prop} {l : List α}
    (hstep : ∀ done x rest s s', l = done ++ x :: rest → P done s → f s x = .ok s' →
      P (done ++ [x]) s')
    {s s' : σ} (hs : P [] s) (h : l.foldlM f s = .ok s') : P l s' := by
  suffices hrest : ∀ rest done s, l = done ++ rest → P done s → rest.foldlM f s = .ok s' →
      P l s' from hrest l [] s rfl hs h
  intro rest
  induction rest with
  | nil =>
    intro done s hl hdone hrun
    cases hrun
    rw [hl, List.append_nil]
    exact hdone
  | cons x rest ih =>
    intro done s hl hdone hrun
    rw [List.foldlM_cons] at hrun
    obtain ⟨mid, hx, hrun⟩ := bind_eq_ok hrun
    exact ih (done ++ [x]) mid (by rw [hl]; simp) (hstep done x rest s mid hl hdone hx) hrun

/-- A loop over a list returns if its body does, in every state the loop comes
    to. -/
theorem foldlM_total {α σ : Type} {f : σ → α → Except Fault σ} {P : List α → σ → Prop}
    {l : List α} (hstep : ∀ done x rest s, l = done ++ x :: rest → P done s →
      ∃ s', f s x = .ok s' ∧ P (done ++ [x]) s')
    {s : σ} (hs : P [] s) : ∃ s', l.foldlM f s = .ok s' ∧ P l s' := by
  suffices hrest : ∀ rest done s, l = done ++ rest → P done s →
      ∃ s', rest.foldlM f s = .ok s' ∧ P l s' from hrest l [] s rfl hs
  intro rest
  induction rest with
  | nil =>
    intro done s hl hdone
    refine ⟨s, rfl, ?_⟩
    rw [hl, List.append_nil]
    exact hdone
  | cons x rest ih =>
    intro done s hl hdone
    obtain ⟨mid, hx, hmid⟩ := hstep done x rest s hl hdone
    obtain ⟨s', hrun, hs'⟩ := ih (done ++ [x]) mid (by rw [hl]; simp) hmid
    refine ⟨s', ?_, hs'⟩
    rw [List.foldlM_cons, hx]
    exact hrun

/-- What each turn that returns implies, a loop that returns implies of all. -/
theorem foldlM_ok_all {α σ : Type} {f : σ → α → Except Fault σ} {C : α → Prop} {l : List α}
    (hturn : ∀ x s s', f s x = .ok s' → C x) {s s' : σ} (h : l.foldlM f s = .ok s') :
    ∀ x ∈ l, C x := by
  refine foldlM_ok (P := fun done _ => ∀ x ∈ done, C x) ?_
    (fun x hx => absurd hx List.not_mem_nil) h
  intro done x rest s₁ s₂ _ hdone hx y hy
  rcases List.mem_append.mp hy with hy | hy
  · exact hdone y hy
  · rw [List.mem_singleton.mp hy]
    exact hturn x s₁ s₂ hx

/-- A loop goes wrong as one of its turns does. -/
theorem foldlM_error {α σ : Type} {f : σ → α → Except Fault σ} {l : List α} {s : σ} {e : Fault}
    (h : l.foldlM f s = .error e) : ∃ x s', f s' x = .error e := by
  induction l generalizing s with
  | nil => cases h
  | cons x l ih =>
    rw [List.foldlM_cons] at h
    cases hx : f s x with
    | error e' =>
      rw [hx] at h
      cases h
      exact ⟨x, s, hx⟩
    | ok s' =>
      rw [hx] at h
      exact ih h

/-- The last turn of a loop that counts. -/
theorem foldlM_range_succ {σ : Type} (f : σ → Nat → Except Fault σ) (n : Nat) (s : σ) :
    (List.range (n + 1)).foldlM f s = (List.range n).foldlM f s >>= fun s => f s n := by
  rw [List.range_succ, List.foldlM_append]
  congr 1
  funext s
  rw [List.foldlM_cons]
  show (f s n >>= fun s' => .ok s') = f s n
  cases f s n with
  | ok s' => rfl
  | error e => rfl

end CCall
