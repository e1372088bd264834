import Mathlib.Data.List.Range
import Mathlib.Data.Nat.ModEq
import Mathlib.Logic.Function.Basic

/-! # Ring buffers

    `N` cells `buf : Nat → α`, used cyclically.  `window` lists the cells from
    a position on.  What is written behind a window extends it, as long as the
    window does not come round to its own start.

    A queue with two indices is full at `N - 1` elements: one more makes the
    indices equal, and the queue empty. -/

namespace Ring

variable {α : Type*} {N : Nat}

/-! ## Section 1: FIFO -/

/-- What is done to a queue. -/
inductive Op (α : Type*) where
  | put (x : α)
  | get

/-- A first-in first-out queue: its contents at the end, and what the `get`s
    returned. -/
def fifo : List α → List (Op α) → List α × List (Option α)
  | q, [] => (q, [])
  | q, .put x :: ops => fifo (q ++ [x]) ops
  | [], .get :: ops => ((fifo [] ops).1, none :: (fifo [] ops).2)
  | x :: q, .get :: ops => ((fifo q ops).1, some x :: (fifo q ops).2)

/-- What was put into the queue. -/
def puts : List (Op α) → List α
  | [] => []
  | .put x :: ops => x :: puts ops
  | .get :: ops => puts ops

/-- Nothing is lost, doubled or reordered: what came out and what is still
    there is what was there and what came in. -/
theorem fifo_conserves (q : List α) (ops : List (Op α)) :
    (fifo q ops).2.filterMap id ++ (fifo q ops).1 = q ++ puts ops := by
  induction ops generalizing q with
  | nil => simp [fifo, puts]
  | cons op ops ih =>
    cases op with
    | put x =>
      rw [fifo, puts, ih, List.append_assoc]
      rfl
    | get =>
      cases q with
      | nil =>
        rw [fifo, puts, List.filterMap_cons_none rfl]
        exact ih []
      | cons x q =>
        show x :: ((fifo q ops).2.filterMap id ++ (fifo q ops).1) = x :: (q ++ puts ops)
        rw [ih]

theorem fifo_append (q : List α) (ops ops' : List (Op α)) :
    fifo q (ops ++ ops') =
      ((fifo (fifo q ops).1 ops').1, (fifo q ops).2 ++ (fifo (fifo q ops).1 ops').2) := by
  induction ops generalizing q with
  | nil => rfl
  | cons op ops ih =>
    cases op with
    | put x => exact ih (q ++ [x])
    | get =>
      cases q with
      | nil => rw [List.cons_append, fifo, ih]; rfl
      | cons x q => rw [List.cons_append, fifo, ih]; rfl

theorem fifo_get (q : List α) (ops : List (Op α)) :
    fifo q (.get :: ops) = ((fifo q.tail ops).1, q.head? :: (fifo q.tail ops).2) := by
  cases q with
  | nil => rfl
  | cons x q => rfl

theorem fifo_map_put (q l : List α) (ops : List (Op α)) :
    fifo q (l.map .put ++ ops) = fifo (q ++ l) ops := by
  induction l generalizing q with
  | nil => rw [List.append_nil]; rfl
  | cons x l ih =>
    show fifo (q ++ [x]) (l.map .put ++ ops) = _
    rw [ih, List.append_assoc]
    rfl

theorem length_fifo_le (q : List α) (ops : List (Op α)) :
    (fifo q ops).1.length ≤ q.length + ops.length := by
  induction ops generalizing q with
  | nil => exact Nat.le_refl _
  | cons op ops ih =>
    cases op with
    | put x =>
      have hle := ih (q ++ [x])
      rw [List.length_append, List.length_singleton] at hle
      rw [fifo, List.length_cons]
      omega
    | get =>
      have hle := ih q.tail
      rw [List.length_tail] at hle
      rw [fifo_get, List.length_cons]
      show (fifo q.tail ops).1.length ≤ _
      omega

/-- There are fewer than `N` elements at any time. -/
def Fits (N : Nat) (q : List α) (ops : List (Op α)) : Prop :=
  ∀ pre, pre <+: ops → (fifo q pre).1.length < N

theorem Fits.of_length {q : List α} {ops : List (Op α)} (h : q.length + ops.length < N) :
    Fits N q ops := by
  intro pre hpre
  have hfifo := length_fifo_le q pre
  have hlen := hpre.length_le
  omega

theorem Fits.append {q : List α} {ops ops' : List (Op α)} (h : Fits N q (ops ++ ops')) :
    Fits N q ops ∧ Fits N (fifo q ops).1 ops' := by
  constructor
  · intro pre hpre
    exact h pre (hpre.trans (List.prefix_append ops ops'))
  · intro pre hpre
    have hlen := h (ops ++ pre) ((List.prefix_append_right_inj ops).mpr hpre)
    rw [fifo_append] at hlen
    exact hlen

theorem Fits.put {q : List α} {x : α} {ops : List (Op α)} (h : Fits N q (.put x :: ops)) :
    q.length + 1 < N ∧ Fits N (q ++ [x]) ops := by
  have hsplit : Fits N q ([.put x] ++ ops) := h
  obtain ⟨hone, hrest⟩ := hsplit.append
  have hlen := hone [.put x] (List.prefix_refl _)
  rw [show (fifo q [.put x]).1 = q ++ [x] from rfl, List.length_append] at hlen
  exact ⟨hlen, hrest⟩

theorem Fits.get {q : List α} {ops : List (Op α)} (h : Fits N q (.get :: ops)) :
    Fits N q.tail ops := by
  have hsplit : Fits N q ([.get] ++ ops) := h
  have hrest := hsplit.append.2
  rw [fifo_get] at hrest
  exact hrest

/-- Where no element is the default, the elements among what the `get`s returned are those
    that came out. -/
theorem filter_getD {p : α → Bool} {d : α} (hd : p d = false) {outs : List (Option α)}
    (h : ∀ x ∈ outs.filterMap id, p x = true) :
    (outs.map (·.getD d)).filter p = outs.filterMap id := by
  induction outs with
  | nil => rfl
  | cons o outs ih =>
    cases o with
    | none =>
      rw [List.map_cons, List.filter_cons_of_neg]
      · exact ih h
      · simpa using hd
    | some x =>
      have hx : p x = true := h x List.mem_cons_self
      have hrest := ih fun y hy => h y (List.mem_cons_of_mem _ hy)
      rw [show (some x :: outs).filterMap id = x :: outs.filterMap id from rfl, ← hrest,
        List.map_cons, List.filter_cons_of_pos]
      · rfl
      · exact hx

/-- So they are, with what is still there, all that came in. -/
theorem filter_fifo {p : α → Bool} {d : α} (hd : p d = false) {ops : List (Op α)}
    (h : ∀ x ∈ puts ops, p x = true) :
    ((fifo [] ops).2.map (·.getD d)).filter p ++ (fifo [] ops).1 = puts ops := by
  have hconserve := fifo_conserves [] ops
  rw [List.nil_append] at hconserve
  rw [filter_getD hd, hconserve]
  intro x hx
  apply h x
  rw [← hconserve]
  exact List.mem_append_left _ hx

/-! ## Section 2: Windows -/

/-- The `n` cells from position `start` on. -/
def window (N : Nat) (buf : Nat → α) (start n : Nat) : List α :=
  (List.range n).map fun i => buf ((start + i) % N)

@[simp] theorem length_window (buf : Nat → α) (start n : Nat) :
    (window N buf start n).length = n := by
  simp [window]

/-- Positions count modulo `N`. -/
theorem window_mod (buf : Nat → α) (start n : Nat) :
    window N buf (start % N) n = window N buf start n := by
  unfold window
  congr 1
  funext i
  rw [Nat.mod_add_mod]

theorem window_add (buf : Nat → α) (start m n : Nat) :
    window N buf start (m + n) = window N buf start m ++ window N buf (start + m) n := by
  unfold window
  rw [List.range_add, List.map_append, List.map_map]
  congr 2
  funext i
  rw [Function.comp_apply, Nat.add_assoc]

theorem window_succ (buf : Nat → α) (start n : Nat) :
    window N buf start (n + 1) = buf (start % N) :: window N buf (start + 1) n := by
  rw [Nat.add_comm, window_add]
  rfl

/-- A window only depends on its own cells. -/
theorem window_congr {buf buf' : Nat → α} {start n : Nat}
    (h : ∀ i < n, buf' ((start + i) % N) = buf ((start + i) % N)) :
    window N buf' start n = window N buf start n := by
  unfold window
  apply List.map_congr_left
  intro i hi
  exact h i (List.mem_range.mp hi)

/-- Different places of one turn are different cells. -/
theorem cell_ne {start i j : Nat} (hij : i < j) (hj : j < i + N) :
    (start + i) % N ≠ (start + j) % N := by
  intro h
  have hmod : start + j ≡ start + i [MOD N] := h.symm
  have hdvd : N ∣ start + j - (start + i) := (Nat.modEq_iff_dvd' (by omega)).mp hmod.symm
  have hle := Nat.le_of_dvd (by omega) hdvd
  omega

/-- The cell behind a window is not in it. -/
theorem window_update (buf : Nat → α) (start : Nat) {n : Nat} (x : α) (hn : n < N) :
    window N (Function.update buf ((start + n) % N) x) start n = window N buf start n := by
  apply window_congr
  intro i hi
  have hne : (start + i) % N ≠ (start + n) % N := cell_ne hi (by omega)
  exact Function.update_of_ne hne x buf

/-- Writing it extends the window. -/
theorem window_update_snoc (buf : Nat → α) (start : Nat) {n : Nat} (x : α) (hn : n < N) :
    window N (Function.update buf ((start + n) % N) x) start (n + 1) =
      window N buf start n ++ [x] := by
  rw [window_add, window_update buf start x hn]
  congr 1
  show [Function.update buf ((start + n) % N) x ((start + n + 0) % N)] = [x]
  rw [Nat.add_zero, Function.update_self]

/-- `n` cells of a ring, from `start` on, are written with `f`, and the others
    are as before. -/
structure Written (N : Nat) (f buf buf' : Nat → α) (start n : Nat) : Prop where
  inside  : ∀ j < n, buf' ((start + j) % N) = f j
  outside : ∀ x < N, (∀ j < n, x ≠ (start + j) % N) → buf' x = buf x

/-- Writing the cells behind a window extends it by them. -/
theorem Written.window {f buf buf' : Nat → α} {start n m : Nat} (hN : 0 < N) (hroom : n + m ≤ N)
    (h : Written N f buf buf' ((start + n) % N) m) :
    window N buf' start (n + m) = window N buf start n ++ (List.range m).map f := by
  have hplace : ∀ j, ((start + n) % N + j) % N = (start + (n + j)) % N := by
    intro j
    rw [Nat.mod_add_mod, Nat.add_assoc]
  rw [window_add]
  congr 1
  · apply window_congr
    intro i hi
    apply h.outside _ (Nat.mod_lt _ hN)
    intro j hj
    rw [hplace]
    exact cell_ne (by omega) (by omega)
  · apply List.map_congr_left
    intro j hj
    have hcell := h.inside j (List.mem_range.mp hj)
    rw [Nat.mod_add_mod] at hcell
    exact hcell

/-- The first `m` elements of a window and the others. -/
theorem window_split {buf : Nat → α} {start m : Nat} {q : List α} (hm : m ≤ q.length)
    (h : window N buf start q.length = q) :
    window N buf start m = q.take m ∧
      window N buf (start + m) (q.length - m) = q.drop m := by
  have hlen : m + (q.length - m) = q.length := by omega
  rw [← hlen, window_add] at h
  constructor
  · rw [← h, List.take_left' (length_window _ _ _)]
  · rw [← h, List.drop_left' (length_window _ _ _)]
    simp

/-! ## Section 3: Queues with two indices -/

structure Queue (α : Type*) where
  buf : Nat → α
  f   : Nat
  r   : Nat

namespace Queue

variable (N)

def length (q : Queue α) : Nat := (q.r + N - q.f) % N

def items (q : Queue α) : List α := window N q.buf q.f (q.length N)

def push (q : Queue α) (x : α) : Queue α :=
  { q with buf := Function.update q.buf q.r x, r := (q.r + 1) % N }

def pop (q : Queue α) : Queue α := { q with f := (q.f + 1) % N }

/-- Both indices are cells. -/
structure Inv (q : Queue α) : Prop where
  f : q.f < N
  r : q.r < N

variable {N} {q : Queue α}

theorem Inv.push (h : q.Inv N) (x : α) : (q.push N x).Inv N :=
  ⟨h.f, Nat.mod_lt _ (Nat.zero_lt_of_lt h.f)⟩

theorem Inv.pop (h : q.Inv N) : (q.pop N).Inv N :=
  ⟨Nat.mod_lt _ (Nat.zero_lt_of_lt h.f), h.r⟩

theorem length_items : (q.items N).length = q.length N := length_window _ _ _

theorem length_lt (h : q.Inv N) : q.length N < N := Nat.mod_lt _ (Nat.zero_lt_of_lt h.f)

/-- The length is how far the rear index is ahead. -/
theorem length_eq_iff (h : q.Inv N) {n : Nat} (hn : n < N) :
    q.length N = n ↔ q.r = (q.f + n) % N := by
  have hf := h.f
  have hr := h.r
  have hwrap : ∀ m < N, (q.f + m) % N = if q.f + m < N then q.f + m else q.f + m - N := by
    intro m hm
    split
    · rename_i hlt
      exact Nat.mod_eq_of_lt hlt
    · rw [Nat.mod_eq_sub_mod (by omega)]
      exact Nat.mod_eq_of_lt (by omega)
  have hlen : q.length N = if q.f ≤ q.r then q.r - q.f else q.r + N - q.f := by
    unfold length
    split
    · have hsum : q.r + N - q.f = q.r - q.f + N := by omega
      rw [hsum, Nat.add_mod_right]
      exact Nat.mod_eq_of_lt (by omega)
    · exact Nat.mod_eq_of_lt (by omega)
  rw [hlen, hwrap n hn]
  split <;> split <;> omega

theorem rear_eq (h : q.Inv N) : q.r = (q.f + q.length N) % N :=
  (length_eq_iff h (length_lt h)).mp rfl

theorem items_eq_nil_iff (h : q.Inv N) : q.items N = [] ↔ q.f = q.r := by
  have hpos := Nat.zero_lt_of_lt h.f
  rw [← List.length_eq_zero_iff, length_items, length_eq_iff h hpos, Nat.add_zero,
    Nat.mod_eq_of_lt h.f]
  exact eq_comm

/-- Unless it is full, a queue takes an element at its end. -/
theorem items_push (h : q.Inv N) (x : α) (hroom : q.length N + 1 < N) :
    (q.push N x).items N = q.items N ++ [x] := by
  have hlen : (q.push N x).length N = q.length N + 1 := by
    rw [length_eq_iff (h.push x) hroom]
    show (q.r + 1) % N = (q.f + (q.length N + 1)) % N
    rw [rear_eq h, Nat.mod_add_mod, Nat.add_assoc]
  unfold items
  rw [hlen, ← window_update_snoc q.buf q.f x (by omega), ← rear_eq h]
  rfl

/-- The first element is at the front index. -/
theorem items_pop (h : q.Inv N) (hne : q.f ≠ q.r) :
    q.items N = q.buf q.f :: (q.pop N).items N := by
  have hpos : 0 < q.length N := by
    rw [← length_items]
    exact List.length_pos_iff.mpr fun hnil => hne ((items_eq_nil_iff h).mp hnil)
  have hlt := length_lt h
  have hlen : (q.pop N).length N = q.length N - 1 := by
    rw [length_eq_iff h.pop (by omega)]
    show q.r = ((q.f + 1) % N + (q.length N - 1)) % N
    have hsum : q.f + 1 + (q.length N - 1) = q.f + q.length N := by omega
    rw [Nat.mod_add_mod, hsum, ← rear_eq h]
  obtain ⟨n, hn⟩ : ∃ n, q.length N = n + 1 := ⟨q.length N - 1, by omega⟩
  unfold items
  rw [hlen, hn, window_succ, Nat.mod_eq_of_lt h.f, Nat.add_sub_cancel]
  congr 1
  exact (window_mod _ _ _).symm

end Queue

end Ring
