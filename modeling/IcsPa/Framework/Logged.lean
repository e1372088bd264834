import IcsPa.Framework.Fault

/-! # C calls that append to a text

    A call that may not return, and that appends to a buffer while it runs.
    What has been written stays when the call goes wrong.

    The rules bound the length of the text.  The bound is reached when a
    proposition `p` holds that says that nothing goes wrong on the way. -/

namespace CCall

structure Logged (γ α : Type) where
  result : Except Fault α
  text   : List γ

variable {γ α β : Type}

namespace Logged

/-- Append to the buffer. -/
def write (l : List γ) : Logged γ Unit := ⟨.ok (), l⟩

instance : Monad (Logged γ) where
  pure a := ⟨.ok a, []⟩
  bind x f :=
    match x.result with
    | .ok a => ⟨(f a).result, x.text ++ (f a).text⟩
    | .error e => ⟨.error e, x.text⟩

/-- A call that does not write. -/
instance : MonadLift (Except Fault) (Logged γ) := ⟨fun x => ⟨x, []⟩⟩

@[simp] theorem write_result (l : List γ) : (write l).result = .ok () := rfl

@[simp] theorem pure_result (a : α) : (pure a : Logged γ α).result = .ok a := rfl

@[simp] theorem lift_result (x : Except Fault α) : (liftM x : Logged γ α).result = x := rfl

/-- The results do not depend on the text. -/
@[simp] theorem bind_result (x : Logged γ α) (f : α → Logged γ β) :
    (x >>= f).result = x.result >>= fun a => (f a).result := by
  show (match x.result with
    | .ok a => (⟨(f a).result, x.text ++ (f a).text⟩ : Logged γ β)
    | .error e => ⟨.error e, x.text⟩).result = _
  cases x.result with
  | ok a => rfl
  | error e => rfl

theorem bind_text_ok {x : Logged γ α} {a : α} (h : x.result = .ok a) (f : α → Logged γ β) :
    (x >>= f).text = x.text ++ (f a).text := by
  show (match x.result with
    | .ok a => (⟨(f a).result, x.text ++ (f a).text⟩ : Logged γ β)
    | .error e => ⟨.error e, x.text⟩).text = _
  rw [h]

theorem bind_text_error {x : Logged γ α} {e : Fault} (h : x.result = .error e)
    (f : α → Logged γ β) : (x >>= f).text = x.text := by
  show (match x.result with
    | .ok a => (⟨(f a).result, x.text ++ (f a).text⟩ : Logged γ β)
    | .error e => ⟨.error e, x.text⟩).text = _
  rw [h]

theorem bind_pure (x : Logged γ α) : x >>= pure = x := by
  obtain ⟨result, text⟩ := x
  cases result with
  | ok a =>
    show (⟨.ok a, text ++ []⟩ : Logged γ α) = _
    rw [List.append_nil]
  | error e => rfl

/-- Calls that do not write, one after the other. -/
theorem lift_bind_text (x : Except Fault α) {f : α → Logged γ β} (hf : ∀ a, (f a).text = []) :
    (liftM x >>= f).text = [] := by
  cases x with
  | error e => rfl
  | ok a => exact hf a

/-! ## Bounds -/

/-- At most `n` characters are written, and under `p` as many. -/
structure Writes (p : Prop) (x : Logged γ α) (n : Nat) : Prop where
  le : x.text.length ≤ n
  eq : p → x.text.length = n

/-- Under `p` the call also returns. -/
structure Returns (p : Prop) (x : Logged γ α) (n : Nat) : Prop extends Writes p x n where
  ok : p → ∃ a, x.result = .ok a

variable {p : Prop}

theorem Returns.pure (a : α) : Returns p (Pure.pure a : Logged γ α) 0 :=
  ⟨⟨Nat.le_refl 0, fun _ => rfl⟩, fun _ => ⟨a, rfl⟩⟩

theorem Returns.write (l : List γ) : Returns p (Logged.write l) l.length :=
  ⟨⟨Nat.le_refl _, fun _ => rfl⟩, fun _ => ⟨(), rfl⟩⟩

theorem Writes.lift (x : Except Fault α) : Writes p (liftM x : Logged γ α) 0 :=
  ⟨Nat.le_refl 0, fun _ => rfl⟩

theorem Returns.lift {x : Except Fault α} (h : p → ∃ a, x = .ok a) :
    Returns p (liftM x : Logged γ α) 0 :=
  ⟨Writes.lift x, h⟩

theorem Writes.bind {x : Logged γ α} {f : α → Logged γ β} {m n : Nat} (hx : Returns p x m)
    (hf : ∀ a, x.result = .ok a → Writes p (f a) n) : Writes p (x >>= f) (m + n) := by
  have hle := hx.le
  -- If `x` goes wrong its own text is all there is, and `p` is false.
  cases hres : x.result with
  | ok a =>
    have htext := bind_text_ok hres f
    constructor
    · have hle' := (hf a hres).le
      rw [htext, List.length_append]
      omega
    · intro hp
      rw [htext, List.length_append, hx.eq hp, (hf a hres).eq hp]
  | error e =>
    constructor
    · rw [bind_text_error hres]
      omega
    · intro hp
      obtain ⟨a, ha⟩ := hx.ok hp
      cases hres.symm.trans ha

theorem Returns.bind {x : Logged γ α} {f : α → Logged γ β} {m n : Nat} (hx : Returns p x m)
    (hf : ∀ a, x.result = .ok a → Returns p (f a) n) : Returns p (x >>= f) (m + n) := by
  refine ⟨Writes.bind hx fun a ha => (hf a ha).toWrites, ?_⟩
  intro hp
  obtain ⟨a, ha⟩ := hx.ok hp
  obtain ⟨b, hb⟩ := (hf a ha).ok hp
  refine ⟨b, ?_⟩
  rw [bind_result, ha]
  exact hb

theorem Writes.of_eq {x : Logged γ α} {m n : Nat} (h : Writes p x m) (heq : m = n) :
    Writes p x n :=
  heq ▸ h

theorem Returns.of_eq {x : Logged γ α} {m n : Nat} (h : Returns p x m) (heq : m = n) :
    Returns p x n :=
  heq ▸ h

/-- What follows writes nothing. -/
theorem Returns.bind_zero {x : Logged γ α} {f : α → Logged γ β} {n : Nat} (hx : Returns p x n)
    (hf : ∀ a, Returns p (f a) 0) : Returns p (x >>= f) n :=
  Returns.bind hx fun a _ => hf a

/-- A call that does not write stands in front. -/
theorem Returns.lift_bind {x : Except Fault α} {f : α → Logged γ β} {n : Nat}
    (hx : p → ∃ a, x = .ok a) (hf : ∀ a, x = .ok a → Returns p (f a) n) :
    Returns p (liftM x >>= f) n :=
  (Returns.bind (Returns.lift hx) hf).of_eq (Nat.zero_add n)

theorem Writes.bind_silent {x : Logged γ α} {f : α → Logged γ β} {n : Nat} (hx : Writes p x n)
    (hf : ∀ a, (f a).text = []) : Writes p (x >>= f) n := by
  have htext : (x >>= f).text = x.text := by
    cases hres : x.result with
    | ok a => rw [bind_text_ok hres, hf, List.append_nil]
    | error e => exact bind_text_error hres f
  exact ⟨by rw [htext]; exact hx.le, fun hp => by rw [htext]; exact hx.eq hp⟩

/-- Behind a call that does not return nothing is written. -/
theorem Writes.stop {x : Logged γ α} {e : Fault} {n : Nat} (hx : Writes p x n)
    (he : x.result = .error e) (f : α → Logged γ β) : Writes p (x >>= f) n := by
  have htext := bind_text_error he f
  exact ⟨by rw [htext]; exact hx.le, fun hp => by rw [htext]; exact hx.eq hp⟩

end Logged

end CCall
