import IcsPa.Am.Keys
import IcsPa.Framework.Fault
import IcsPa.Framework.Ring

/-! # The keyboard of the native machine

    `am/src/native/native-input.c`.  `event_thread` puts keys into a ring
    buffer and `__am_input_keybrd` takes them out.  Each does so under a lock,
    so a run is a sequence of their steps.

    The thread does not check whether the buffer is full, and looks up
    scancodes that `keymap` has no entry for. -/

open CCall Ring

set_option linter.style.nameCheck false

namespace Am.Native.Input

/-! ## Section 1: `native-input.c` -/

def KEY_QUEUE_LEN : Nat := 1024

structure KeyQueue where
  key_queue : Nat → Nat
  key_f     : Nat
  key_r     : Nat

/-- The fields of `AM_INPUT_KEYBRD_T`. -/
structure Keybrd where
  keydown : Bool
  keycode : Nat
  deriving DecidableEq, Repr

/-- What `__am_input_keybrd` makes of an element; `~KEYDOWN_MASK` is that of
    an `int`. -/
def decoded (k : Nat) : Keybrd where
  keydown := k &&& KEYDOWN_MASK != 0
  keycode := k &&& (0xffffffff ^^^ KEYDOWN_MASK)

def __am_input_keybrd (s : KeyQueue) : Keybrd × KeyQueue :=
  if s.key_f ≠ s.key_r then
    let k := s.key_queue s.key_f
    (decoded k, { s with key_f := (s.key_f + 1) % KEY_QUEUE_LEN })
  else (decoded AM_KEY_NONE, s)

section device
variable (SDL_SCANCODE : Key → Fin 256)

/-- The body of the loop of `event_thread`; `none` is a process that has
    halted. -/
def handle_event (s : KeyQueue) : SDL_Event → Except Fault (Option KeyQueue)
  | .quit => .ok none
  | .key scancode keydown =>
      if 256 ≤ scancode then .error .outOfBounds
      else if keymap SDL_SCANCODE scancode ≠ 0 then
        let am_code := key_code SDL_SCANCODE scancode keydown
        let key_queue := Function.update s.key_queue s.key_r am_code
        .ok (some { s with key_queue := key_queue, key_r := (s.key_r + 1) % KEY_QUEUE_LEN })
      else .ok (some s)
  | .other => .ok (some s)

inductive Step where
  | event (e : SDL_Event)
  | keybrd
  deriving DecidableEq, Repr

/-- A step, and what `__am_input_keybrd` returns. -/
def step : Option KeyQueue → Step → Except Fault (Option KeyQueue × List Keybrd)
  | none, _ => .ok (none, [])
  | some s, .event e => do
      let s ← handle_event SDL_SCANCODE s e
      return (s, [])
  | some s, .keybrd => .ok (some (__am_input_keybrd s).2, [(__am_input_keybrd s).1])

/-- A run, and what its calls of `__am_input_keybrd` return. -/
def run : Option KeyQueue → List Step → Except Fault (Option KeyQueue × List Keybrd)
  | s, [] => .ok (s, [])
  | s, x :: steps => do
      let (s, key) ← step SDL_SCANCODE s x
      let (s, rest) ← run s steps
      return (s, key ++ rest)

/-! ## Section 2: What a keyboard does -/

/-- What happens before the process halts. -/
def history (steps : List Step) : List Step :=
  steps.takeWhile fun x => decide (x ≠ .event .quit)

/-- A scancode that is in the key map. -/
def mapped (scancode : Nat) : Prop := scancode < 256 ∧ keymap SDL_SCANCODE scancode ≠ AM_KEY_NONE

instance (scancode : Nat) : Decidable (mapped SDL_SCANCODE scancode) :=
  inferInstanceAs (Decidable (_ ∧ _))

/-- What a step does to the FIFO of the outstanding keys. -/
def Step.ops : Step → List (Op Keybrd)
  | .event (.key scancode down) =>
      if mapped SDL_SCANCODE scancode then [.put ⟨down, keymap SDL_SCANCODE scancode⟩] else []
  | .event _ => []
  | .keybrd => [.get]

def ops (steps : List Step) : List (Op Keybrd) :=
  (history steps).flatMap (Step.ops SDL_SCANCODE)

/-- What `__am_input_keybrd` returns when there is no key. -/
def no_key : Keybrd := ⟨false, AM_KEY_NONE⟩

def start : Option KeyQueue := some ⟨fun _ => 0, 0, 0⟩

/-- The run returns the mapped keys: its calls are the `get`s of the FIFO, with
    `no_key` for none; the other keys among them and the outstanding keys are
    all mapped keys, in order. -/
def ReturnsKeys (steps : List Step) : Prop :=
  ∃ s' keys, run SDL_SCANCODE start steps = .ok (s', keys) ∧
    keys = (fifo [] (ops SDL_SCANCODE steps)).2.map (·.getD no_key) ∧
    keys.filter (·.keycode ≠ AM_KEY_NONE) ++ (fifo [] (ops SDL_SCANCODE steps)).1 =
      puts (ops SDL_SCANCODE steps)

/-! ## Section 3: The FIFO behind the ring -/

def KeyQueue.ring (s : KeyQueue) : Queue Nat := ⟨s.key_queue, s.key_f, s.key_r⟩

/-- The `int` that stands for a key in the buffer. -/
def am_code (k : Keybrd) : Nat := k.keycode ||| if k.keydown then KEYDOWN_MASK else 0

/-- The ring holds the outstanding keys, and each is read as it was put in. -/
structure Holds (s : KeyQueue) (q : List Keybrd) : Prop where
  inv   : s.ring.Inv KEY_QUEUE_LEN
  items : s.ring.items KEY_QUEUE_LEN = q.map am_code
  codes : ∀ k ∈ q, decoded (am_code k) = k

theorem decoded_am_code (scancode : Nat) (down : Bool) :
    decoded (am_code ⟨down, keymap SDL_SCANCODE scancode⟩) =
      ⟨down, keymap SDL_SCANCODE scancode⟩ := by
  have hsmall : ∀ c < 83, ∀ down, decoded (am_code ⟨down, c⟩) = ⟨down, c⟩ := by decide
  apply hsmall
  unfold keymap
  split
  · rename_i k _
    cases k <;> decide
  · decide

/-- A key is put at the end. -/
theorem handle_event_put {s : KeyQueue} {q : List Keybrd} (h : Holds s q) {sc : Nat} (down : Bool)
    (hsc : mapped SDL_SCANCODE sc) (hroom : q.length + 1 < KEY_QUEUE_LEN) :
    ∃ s', handle_event SDL_SCANCODE s (.key sc down) = .ok (some s') ∧
      Holds s' (q ++ [⟨down, keymap SDL_SCANCODE sc⟩]) := by
  let x := key_code SDL_SCANCODE sc down
  let s' : KeyQueue := { s with
    key_queue := Function.update s.key_queue s.key_r x
    key_r := (s.key_r + 1) % KEY_QUEUE_LEN }
  have hlen : s.ring.length KEY_QUEUE_LEN = q.length := by
    rw [← Queue.length_items, h.items, List.length_map]
  refine ⟨s', ?_, h.inv.push x, ?_, ?_⟩
  · rw [handle_event, if_neg (Nat.not_le.mpr hsc.1),
      if_pos (show keymap SDL_SCANCODE sc ≠ 0 from hsc.2)]
  · have hpush := Queue.items_push h.inv x (by rw [hlen]; exact hroom)
    rw [h.items] at hpush
    rw [List.map_append]
    exact hpush
  · intro k hk
    rcases List.mem_append.mp hk with hk | hk
    · exact h.codes k hk
    · rw [List.mem_singleton.mp hk]
      exact decoded_am_code SDL_SCANCODE sc down

theorem handle_event_drop (s : KeyQueue) {sc : Nat} (down : Bool) (hlt : sc < 256)
    (hsc : ¬ mapped SDL_SCANCODE sc) :
    handle_event SDL_SCANCODE s (.key sc down) = .ok (some s) := by
  rw [handle_event, if_neg (Nat.not_le.mpr hlt), if_neg]
  intro hne
  exact hsc ⟨hlt, hne⟩

/-- A call takes the first key, or returns `no_key`. -/
theorem keybrd_get {s : KeyQueue} {q : List Keybrd} (h : Holds s q) :
    (__am_input_keybrd s).1 = q.head?.getD no_key ∧ Holds (__am_input_keybrd s).2 q.tail := by
  by_cases hempty : s.key_f = s.key_r
  -- The ring is empty, and so is the queue.
  · have hq : q = [] := by
      have hitems := h.items
      rw [(Queue.items_eq_nil_iff h.inv).mpr hempty] at hitems
      exact List.map_eq_nil_iff.mp hitems.symm
    have hcall : __am_input_keybrd s = (no_key, s) := by
      rw [__am_input_keybrd, if_neg (not_not_intro hempty)]
      rfl
    rw [hcall, hq]
    rw [hq] at h
    exact ⟨rfl, h⟩
  · have hcall : __am_input_keybrd s = (decoded (s.key_queue s.key_f),
        { s with key_f := (s.key_f + 1) % KEY_QUEUE_LEN }) := by
      rw [__am_input_keybrd, if_pos hempty]
    -- The ring gives its first code.
    have hpop : s.ring.items KEY_QUEUE_LEN =
        s.key_queue s.key_f :: (s.ring.pop KEY_QUEUE_LEN).items KEY_QUEUE_LEN :=
      Queue.items_pop h.inv hempty
    rw [h.items] at hpop
    cases q with
    | nil => cases hpop
    | cons k q =>
      obtain ⟨hk, hrest⟩ := List.cons.inj hpop
      rw [hcall]
      refine ⟨?_, h.inv.pop, hrest.symm, ?_⟩
      · rw [← hk]
        exact h.codes k List.mem_cons_self
      · intro k' hk'
        exact h.codes k' (List.mem_cons_of_mem k hk')

/-! ## Section 4: Runs -/

theorem run_cons {x : Step} {steps : List Step} {s s₁ s' : Option KeyQueue}
    {key rest : List Keybrd} (hstep : step SDL_SCANCODE s x = .ok (s₁, key))
    (hrun : run SDL_SCANCODE s₁ steps = .ok (s', rest)) :
    run SDL_SCANCODE s (x :: steps) = .ok (s', key ++ rest) := by
  rw [run, hstep]
  show (run SDL_SCANCODE s₁ steps >>= _) = _
  rw [hrun]
  rfl

/-- A step that returns no key leaves what the rest returns. -/
theorem run_silent {x : Step} {s s₁ : Option KeyQueue}
    (hstep : step SDL_SCANCODE s x = .ok (s₁, []))
    (steps : List Step) : run SDL_SCANCODE s (x :: steps) = run SDL_SCANCODE s₁ steps := by
  rw [run, hstep]
  show (run SDL_SCANCODE s₁ steps >>= fun r => .ok (r.1, r.2)) = _
  cases run SDL_SCANCODE s₁ steps with
  | ok r => rfl
  | error f => rfl

theorem run_none (steps : List Step) : run SDL_SCANCODE none steps = .ok (none, []) := by
  induction steps with
  | nil => rfl
  | cons x steps ih => rw [run_silent SDL_SCANCODE rfl, ih]

/-- The history begins with a step that does not halt. -/
theorem history_cons {x : Step} (hx : x ≠ .event .quit) (steps : List Step) :
    history (x :: steps) = x :: history steps := by
  unfold history
  rw [List.takeWhile_cons, if_pos (decide_eq_true hx)]

theorem ops_cons {x : Step} (hx : x ≠ .event .quit) (steps : List Step) :
    ops SDL_SCANCODE (x :: steps) = x.ops SDL_SCANCODE ++ ops SDL_SCANCODE steps := by
  unfold ops
  rw [history_cons hx]
  rfl

/-- A run and the FIFO go in step. -/
theorem run_keys {steps : List Step} {s : KeyQueue} {q : List Keybrd} (h : Holds s q)
    (hsc : ∀ sc down, .event (.key sc down) ∈ history steps → sc < 256)
    (hroom : Fits KEY_QUEUE_LEN q (ops SDL_SCANCODE steps)) :
    ∃ s', run SDL_SCANCODE (some s) steps =
      .ok (s', (fifo q (ops SDL_SCANCODE steps)).2.map (·.getD no_key)) := by
  induction steps generalizing s q with
  | nil => exact ⟨some s, rfl⟩
  | cons x steps ih =>
    by_cases hquit : x = .event .quit
    · have hstep : step SDL_SCANCODE (some s) (.event .quit) = .ok (none, []) := rfl
      refine ⟨none, ?_⟩
      rw [hquit, run_silent SDL_SCANCODE hstep, run_none]
      rfl
    · rw [ops_cons SDL_SCANCODE hquit] at hroom ⊢
      -- The scan codes of the rest are in range as well.
      rw [history_cons hquit] at hsc
      have hrest : ∀ sc down, .event (.key sc down) ∈ history steps → sc < 256 :=
        fun sc down hmem => hsc sc down (List.mem_cons_of_mem x hmem)
      cases x with
      | keybrd =>
        obtain ⟨hkey, hholds⟩ := keybrd_get h
        obtain ⟨s', hrun⟩ := ih hholds hrest (Fits.get hroom)
        refine ⟨s', ?_⟩
        rw [run_cons SDL_SCANCODE (s := some s) rfl hrun, hkey]
        show _ = Except.ok (s', (fifo q (.get :: ops SDL_SCANCODE steps)).2.map _)
        rw [fifo_get]
        rfl
      | event e =>
        cases e with
        | quit => exact absurd rfl hquit
        | other =>
          obtain ⟨s', hrun⟩ := ih h hrest hroom
          have hstep : step SDL_SCANCODE (some s) (.event .other) = .ok (some s, []) := rfl
          refine ⟨s', ?_⟩
          rw [run_silent SDL_SCANCODE hstep]
          exact hrun
        | key sc down =>
          have hlt := hsc sc down List.mem_cons_self
          -- Only a key that the keymap knows enters the queue.
          by_cases hmap : mapped SDL_SCANCODE sc
          · have hops : Step.ops SDL_SCANCODE (.event (.key sc down)) =
                [.put ⟨down, keymap SDL_SCANCODE sc⟩] := if_pos hmap
            rw [hops] at hroom ⊢
            obtain ⟨hlen, hroom'⟩ := Fits.put hroom
            obtain ⟨s₁, hput, hholds⟩ := handle_event_put SDL_SCANCODE h down hmap hlen
            obtain ⟨s', hrun⟩ := ih hholds hrest hroom'
            have hstep : step SDL_SCANCODE (some s) (.event (.key sc down)) = .ok
                (some s₁, []) := by
              rw [step, hput]
              rfl
            refine ⟨s', ?_⟩
            rw [run_silent SDL_SCANCODE hstep]
            exact hrun
          · have hops : Step.ops SDL_SCANCODE (.event (.key sc down)) = [] := if_neg hmap
            rw [hops] at hroom ⊢
            obtain ⟨s', hrun⟩ := ih h hrest hroom
            have hstep : step SDL_SCANCODE (some s) (.event (.key sc down)) = .ok (some s, []) := by
              rw [step, handle_event_drop SDL_SCANCODE s down hlt hmap]
              rfl
            refine ⟨s', ?_⟩
            rw [run_silent SDL_SCANCODE hstep]
            exact hrun

theorem puts_pos (steps : List Step) :
    ∀ k ∈ puts (ops SDL_SCANCODE steps), k.keycode ≠ AM_KEY_NONE := by
  induction steps with
  | nil => exact fun k hk => absurd hk List.not_mem_nil
  | cons x steps ih =>
    by_cases hquit : x = .event .quit
    · rw [hquit]
      exact fun k hk => absurd hk List.not_mem_nil
    · rw [ops_cons SDL_SCANCODE hquit]
      cases x with
      | keybrd => exact ih
      | event e =>
        cases e with
        | quit => exact absurd rfl hquit
        | other => exact ih
        | key sc down =>
          by_cases hmap : mapped SDL_SCANCODE sc
          · rw [show Step.ops SDL_SCANCODE (.event (.key sc down)) =
              [.put ⟨down, keymap SDL_SCANCODE sc⟩] from if_pos hmap]
            intro k hk
            rcases List.mem_cons.mp hk with rfl | hk
            · exact hmap.2
            · exact ih k hk
          · rw [show Step.ops SDL_SCANCODE (.event (.key sc down)) = [] from if_neg hmap]
            exact ih

theorem start_holds : Holds ⟨fun _ => 0, 0, 0⟩ [] where
  inv := ⟨Nat.zero_lt_succ _, Nat.zero_lt_succ _⟩
  items := (Queue.items_eq_nil_iff ⟨Nat.zero_lt_succ _, Nat.zero_lt_succ _⟩).mpr rfl
  codes := fun _ hk => absurd hk List.not_mem_nil

/-- In every run whose scancodes are indices of `keymap`, and in which fewer
    than 1024 keys are outstanding at any time, the keys come out in order. -/
theorem keybrd_returns_keys (steps : List Step)
    (hsc : ∀ sc down, .event (.key sc down) ∈ history steps → sc < 256)
    (hroom : Fits KEY_QUEUE_LEN [] (ops SDL_SCANCODE steps)) : ReturnsKeys SDL_SCANCODE steps := by
  obtain ⟨s', hrun⟩ := run_keys SDL_SCANCODE start_holds hsc hroom
  refine ⟨s', _, hrun, rfl, filter_fifo rfl ?_⟩
  intro k hk
  exact decide_eq_true (puts_pos SDL_SCANCODE steps k hk)

/-- The front index does not move as keys arrive. -/
theorem run_arrivals {sc : Nat} (hsc : mapped SDL_SCANCODE sc) (down : Bool) (n : Nat)
    (rest : List Step) (s : KeyQueue) (hr : s.key_r < KEY_QUEUE_LEN) :
    ∃ key_queue, run SDL_SCANCODE (some s)
        (List.replicate n (.event (.key sc down)) ++ rest) =
      run SDL_SCANCODE (some ⟨key_queue, s.key_f, (s.key_r + n) % KEY_QUEUE_LEN⟩) rest := by
  induction n generalizing s with
  | zero =>
    refine ⟨s.key_queue, ?_⟩
    rw [Nat.add_zero, Nat.mod_eq_of_lt hr]
    rfl
  | succ n ih =>
    let s₁ : KeyQueue := { s with
      key_queue := Function.update s.key_queue s.key_r (key_code SDL_SCANCODE sc down)
      key_r := (s.key_r + 1) % KEY_QUEUE_LEN }
    have hevent : handle_event SDL_SCANCODE s (.key sc down) = .ok (some s₁) := by
      rw [handle_event, if_neg (Nat.not_le.mpr hsc.1),
        if_pos (show keymap SDL_SCANCODE sc ≠ 0 from hsc.2)]
    have hstep : step SDL_SCANCODE (some s) (.event (.key sc down)) = .ok (some s₁, []) := by
      rw [step, hevent]
      rfl
    obtain ⟨key_queue, hrun⟩ := ih s₁ (Nat.mod_lt _ (Nat.zero_lt_succ _))
    refine ⟨key_queue, ?_⟩
    rw [List.replicate_succ, List.cons_append, run_silent SDL_SCANCODE hstep, hrun, Nat.mod_add_mod,
      Nat.add_assoc, Nat.add_comm 1 n]

theorem ops_arrivals {sc : Nat} (hsc : mapped SDL_SCANCODE sc) (down : Bool) (n : Nat)
    (rest : List Step) : ops SDL_SCANCODE (List.replicate n (.event (.key sc down)) ++ rest) =
      (List.replicate n ⟨down, keymap SDL_SCANCODE sc⟩).map .put ++ ops SDL_SCANCODE rest := by
  induction n with
  | zero => rfl
  | succ n ih =>
    rw [List.replicate_succ, List.cons_append, ops_cons SDL_SCANCODE (by simp), ih,
      show Step.ops SDL_SCANCODE (.event (.key sc down)) =
        [.put ⟨down, keymap SDL_SCANCODE sc⟩] from if_pos hsc]
    rfl

end device

/-- `A` goes down and up, and the program sees both. -/
theorem keybrd_returns_keys_a : ReturnsKeys sdl_scancode
    [.event (.key 4 true), .keybrd, .event (.key 4 false), .keybrd, .keybrd, .event .quit] := by
  apply keybrd_returns_keys
  · intro sc down hmem
    have hkey : sc = 4 ∧ down = true ∨ sc = 4 ∧ down = false := by simpa [history] using hmem
    omega
  · exact Fits.of_length (by decide)

/-- `A` goes down 1024 times, and the program sees no key. -/
theorem full_buffer_lost : ¬ ReturnsKeys sdl_scancode
    (List.replicate 1024 (.event (.key 4 true)) ++ [.keybrd]) := by
  rintro ⟨s', keys, hrun, hkeys, -⟩
  have ha : mapped sdl_scancode 4 := ⟨by decide, by decide⟩
  -- After 1024 keys the indices are equal again.
  obtain ⟨key_queue, harrive⟩ := run_arrivals sdl_scancode ha true 1024 [.keybrd] ⟨fun _ => 0, 0, 0⟩
    (Nat.zero_lt_succ _)
  rw [start, harrive] at hrun
  have hnone : keys = [no_key] := (Prod.mk.inj (Except.ok.inj hrun)).2.symm
  rw [hnone, ops_arrivals sdl_scancode ha, fifo_map_put] at hkeys
  exact absurd hkeys (by decide)

end Am.Native.Input
