import Mathlib.Data.BitVec
import Mathlib.Data.List.Basic
import Mathlib.Tactic.Ring

/-! # Words in a wrapping memory

    Memory with addresses of `w` bits, seen as words of `W` bytes, where
    `w = 8 * W`.  `Holds W m a ws` says that the words `ws` stand in memory
    one behind the other from `a` on.  All rules are about distances from
    `a`, so they hold wherever `a` is, also where the address space ends.

    A stack grows at the front of such a list: `holds_push` and `holds_cons`
    are the rules of push and pop. -/

namespace Words

variable {w : Nat}

/-! ## Bytes -/

abbrev Memory (w : Nat) : Type := BitVec w → UInt8

/-- The little-endian number in the `n` bytes from `a` on. -/
def load (m : Memory w) (a : BitVec w) : Nat → Nat
  | 0 => 0
  | n + 1 => (m a).toNat + 256 * load m (a + 1) n

/-- Write the low `n` bytes of `v` from `a` on. -/
def store (m : Memory w) (a : BitVec w) (v n : Nat) : Memory w :=
  fun x => if (x - a).toNat < n then UInt8.ofNat (v / 256 ^ (x - a).toNat) else m x

theorem add_ofNat_succ (a : BitVec w) (k : Nat) :
    a + BitVec.ofNat w (k + 1) = a + 1 + BitVec.ofNat w k := by
  have hone : BitVec.ofNat w 1 = 1 := rfl
  rw [BitVec.ofNat_add, hone]
  ring

theorem load_congr {m m' : Memory w} {a b : BitVec w} {n : Nat}
    (h : ∀ k < n, m (a + BitVec.ofNat w k) = m' (b + BitVec.ofNat w k)) :
    load m a n = load m' b n := by
  induction n generalizing a b with
  | zero => rfl
  | succ n ih =>
    have hfirst : m a = m' b := by simpa using h 0 (Nat.succ_pos n)
    have hrest : load m (a + 1) n = load m' (b + 1) n := by
      apply ih
      intro k hk
      have hnext := h (k + 1) (Nat.succ_lt_succ hk)
      rwa [add_ofNat_succ, add_ofNat_succ] at hnext
    rw [load, load, hfirst, hrest]

/-- Bytes that a store does not reach. -/
theorem load_store_disjoint {m : Memory w} {a b : BitVec w} {v n k : Nat}
    (h : ∀ i < k, n ≤ (b + BitVec.ofNat w i - a).toNat) :
    load (store m a v n) b k = load m b k := by
  apply load_congr
  intro i hi
  exact if_neg (Nat.not_lt.mpr (h i hi))

theorem toNat_distance {i : Nat} (a : BitVec w) (hi : i < 2 ^ w) :
    (a + BitVec.ofNat w i - a).toNat = i := by
  have hsub : a + BitVec.ofNat w i - a = BitVec.ofNat w i := by ring
  rw [hsub, BitVec.toNat_ofNat, Nat.mod_eq_of_lt hi]

/-- Part of what has been stored. -/
theorem load_store_part (m : Memory w) (a : BitVec w) (v : Nat) {n i k : Nat} (hn : n ≤ 2 ^ w)
    (hk : i + k ≤ n) :
    load (store m a v n) (a + BitVec.ofNat w i) k = v / 256 ^ i % 256 ^ k := by
  induction k generalizing i with
  | zero => simp [load, Nat.mod_one]
  | succ k ih =>
    have hbyte : store m a v n (a + BitVec.ofNat w i) = UInt8.ofNat (v / 256 ^ i) := by
      have hdist := toNat_distance (w := w) (i := i) a (by omega)
      unfold store
      rw [hdist, if_pos (by omega)]
    have hnext : a + BitVec.ofNat w i + 1 = a + BitVec.ofNat w (i + 1) := by
      rw [add_ofNat_succ]
      ring
    have hlow : (UInt8.ofNat (v / 256 ^ i)).toNat = v / 256 ^ i % 256 := UInt8.toNat_ofNat'
    have hdiv : v / 256 ^ (i + 1) = v / 256 ^ i / 256 := by
      rw [Nat.pow_succ, Nat.div_div_eq_div_mul]
    rw [load, hbyte, hnext, ih (by omega), hlow, hdiv, Nat.pow_succ 256 k,
      Nat.mul_comm (256 ^ k) 256, Nat.mod_mul]

theorem load_store_same (m : Memory w) (a : BitVec w) (v : Nat) {n : Nat} (hn : n ≤ 2 ^ w) :
    load (store m a v n) a n = v % 256 ^ n := by
  have hpart := load_store_part m a v (i := 0) hn (Nat.le_of_eq (Nat.zero_add n))
  simpa using hpart

/-! ## Words -/

/-- The word of `W` bytes at `a`. -/
def word (W : Nat) (m : Memory w) (a : BitVec w) : BitVec w := BitVec.ofNat w (load m a W)

def store_word (W : Nat) (m : Memory w) (a v : BitVec w) : Memory w := store m a v.toNat W

/-- The address `i` words behind `a`. -/
def nth (W : Nat) (a : BitVec w) (i : Nat) : BitVec w := a + BitVec.ofNat w (W * i)

/-- The address `n` words in front of `a`. -/
def back (W : Nat) (a : BitVec w) (n : Nat) : BitVec w := a - BitVec.ofNat w (W * n)

/-- The words `ws` stand in memory from `a` on. -/
def Holds (W : Nat) (m : Memory w) (a : BitVec w) (ws : List (BitVec w)) : Prop :=
  ∀ i v, ws[i]? = some v → word W m (nth W a i) = v

variable {W : Nat}

theorem nth_zero (a : BitVec w) : nth W a 0 = a := by
  simp [nth]

theorem nth_succ (a : BitVec w) (i : Nat) : nth W a (i + 1) = nth W (a + BitVec.ofNat w W) i := by
  unfold nth
  rw [Nat.mul_succ, BitVec.ofNat_add]
  ring

theorem nth_nth (a : BitVec w) (i j : Nat) : nth W (nth W a i) j = nth W a (i + j) := by
  unfold nth
  rw [Nat.mul_add, BitVec.ofNat_add]
  ring

theorem back_zero (a : BitVec w) : back W a 0 = a := by
  simp [back]

theorem back_one (a : BitVec w) : back W a 1 = a - BitVec.ofNat w W := by
  rw [back, Nat.mul_one]

theorem back_back (a : BitVec w) (i j : Nat) : back W (back W a i) j = back W a (i + j) := by
  unfold back
  rw [Nat.mul_add, BitVec.ofNat_add]
  ring

/-- Going back and forth. -/
theorem nth_back (a : BitVec w) (i j : Nat) : nth W (back W a (i + j)) i = back W a j := by
  unfold nth back
  rw [Nat.mul_add, BitVec.ofNat_add]
  ring

theorem holds_nil (m : Memory w) (a : BitVec w) : Holds W m a [] := by
  intro i v h
  cases h

theorem holds_cons {m : Memory w} {a v : BitVec w} {ws : List (BitVec w)} :
    Holds W m a (v :: ws) ↔ word W m a = v ∧ Holds W m (a + BitVec.ofNat w W) ws := by
  constructor
  · intro h
    refine ⟨by simpa [nth_zero] using h 0 v rfl, fun i u hu => ?_⟩
    rw [← nth_succ]
    exact h (i + 1) u hu
  · intro h i u hu
    cases i with
    | zero =>
      cases hu
      rw [nth_zero]
      exact h.1
    | succ i =>
      rw [nth_succ]
      exact h.2 i u hu

/-- The words that stand there anyway. -/
theorem holds_map (m : Memory w) (a : BitVec w) (n : Nat) :
    Holds W m a ((List.range n).map fun i => word W m (nth W a i)) := by
  intro i v h
  rw [List.getElem?_map, Option.map_eq_some_iff] at h
  obtain ⟨j, hj, rfl⟩ := h
  obtain ⟨-, rfl⟩ := List.getElem?_eq_some_iff.mp hj
  rw [List.getElem_range]

/-! ## Stores and distances -/

/-- How far apart two addresses near `a` are, going upwards from the second. -/
theorem toNat_offset_sub (a : BitVec w) {p q : Nat} (hp : p < 2 ^ w) (hq : q < 2 ^ w) :
    (a + BitVec.ofNat w p - (a + BitVec.ofNat w q)).toNat =
      if q ≤ p then p - q else 2 ^ w - (q - p) := by
  have hsub : a + BitVec.ofNat w p - (a + BitVec.ofNat w q) =
      BitVec.ofNat w p - BitVec.ofNat w q := by ring
  rw [hsub, BitVec.toNat_sub, BitVec.toNat_ofNat, BitVec.toNat_ofNat, Nat.mod_eq_of_lt hp,
    Nat.mod_eq_of_lt hq]
  generalize 2 ^ w = n at hp hq ⊢
  by_cases hle : q ≤ p
  · have hsum : n - q + p = n + (p - q) := by omega
    rw [if_pos hle, hsum, Nat.add_mod_left, Nat.mod_eq_of_lt (by omega)]
  · rw [if_neg hle, Nat.mod_eq_of_lt (by omega)]
    omega

/-- Bytes behind a word that is stored. -/
theorem store_word_behind {m : Memory w} {a v : BitVec w} {i p : Nat} (hp : p < 2 ^ w)
    (hi : W * i + W ≤ p) :
    store_word W m (nth W a i) v (a + BitVec.ofNat w p) = m (a + BitVec.ofNat w p) := by
  apply if_neg
  unfold nth
  rw [toNat_offset_sub a hp (by omega), if_pos (by omega)]
  omega

theorem word_store_same (hw : w = 8 * W) (m : Memory w) (a v : BitVec w) :
    word W (store_word W m a v) a = v := by
  have hroom : W ≤ 2 ^ w := by
    have hlt : w < 2 ^ w := Nat.lt_two_pow_self
    omega
  have hpow : 256 ^ W = 2 ^ w := by
    rw [hw, Nat.pow_mul]
  unfold word store_word
  rw [load_store_same m a _ hroom, hpow, Nat.mod_eq_of_lt v.isLt, BitVec.ofNat_toNat,
    BitVec.setWidth_eq]

/-- A store to one word of a row leaves the others. -/
theorem word_store_ne {m : Memory w} {a v : BitVec w} {i j n : Nat} (hn : W * n ≤ 2 ^ w)
    (hi : i < n) (hj : j < n) (hne : j ≠ i) :
    word W (store_word W m (nth W a i) v) (nth W a j) = word W m (nth W a j) := by
  have hi' : W * (i + 1) ≤ W * n := Nat.mul_le_mul_left W hi
  have hj' : W * (j + 1) ≤ W * n := Nat.mul_le_mul_left W hj
  rw [Nat.mul_succ] at hi' hj'
  unfold word store_word
  rw [load_store_disjoint]
  intro k hk
  unfold nth
  rw [BitVec.add_assoc, ← BitVec.ofNat_add, toNat_offset_sub a (by omega) (by omega)]
  rcases Nat.lt_or_gt_of_ne hne with hlt | hgt
  · -- The word is in front: going up from `i` wraps around.
    have hstep : W * (j + 1) ≤ W * i := Nat.mul_le_mul_left W hlt
    rw [Nat.mul_succ] at hstep
    rw [if_neg (by omega)]
    omega
  · have hstep : W * (i + 1) ≤ W * j := Nat.mul_le_mul_left W hgt
    rw [Nat.mul_succ] at hstep
    rw [if_pos (by omega)]
    omega

theorem holds_set (hw : w = 8 * W) {m : Memory w} {a v : BitVec w} {ws : List (BitVec w)} {i : Nat}
    (h : Holds W m a ws) (hi : i < ws.length) (hroom : W * ws.length ≤ 2 ^ w) :
    Holds W (store_word W m (nth W a i) v) a (ws.set i v) := by
  intro j u hu
  by_cases hj : j = i
  · subst hj
    rw [List.getElem?_set_self hi] at hu
    cases hu
    exact word_store_same hw m _ _
  · rw [List.getElem?_set_ne (Ne.symm hj)] at hu
    obtain ⟨hlt, -⟩ := List.getElem?_eq_some_iff.mp hu
    rw [word_store_ne hroom hi hlt hj]
    exact h j u hu

/-- Push: a word in front of the row. -/
theorem holds_push (hw : w = 8 * W) {m : Memory w} {a v : BitVec w} {ws : List (BitVec w)}
    (h : Holds W m a ws) (hroom : W * (ws.length + 1) ≤ 2 ^ w) :
    Holds W (store_word W m (back W a 1) v) (back W a 1) (v :: ws) := by
  have hback : back W a 1 + BitVec.ofNat w W = a := by
    rw [back_one]
    ring
  have hcons : Holds W m (back W a 1) (word W m (back W a 1) :: ws) := by
    rw [holds_cons, hback]
    exact ⟨rfl, h⟩
  have hset := holds_set hw (v := v) hcons (Nat.succ_pos _) (by simpa using hroom)
  rwa [nth_zero] at hset

theorem holds_append {m : Memory w} {a : BitVec w} (us vs : List (BitVec w)) :
    Holds W m a (us ++ vs) ↔ Holds W m a us ∧ Holds W m (nth W a us.length) vs := by
  induction us generalizing a with
  | nil => simp [nth_zero, holds_nil]
  | cons u us ih =>
    rw [List.cons_append, holds_cons, holds_cons, ih, and_assoc, List.length_cons, nth_succ]

/-- A row only depends on its bytes. -/
theorem holds_congr {m m' : Memory w} {a : BitVec w} {ws : List (BitVec w)}
    (h : Holds W m a ws)
    (heq : ∀ k < W * ws.length, m' (a + BitVec.ofNat w k) = m (a + BitVec.ofNat w k)) :
    Holds W m' a ws := by
  intro i v hv
  obtain ⟨hlt, -⟩ := List.getElem?_eq_some_iff.mp hv
  rw [← h i v hv]
  unfold word nth
  have hbytes : load m' (a + BitVec.ofNat w (W * i)) W = load m (a + BitVec.ofNat w (W * i)) W := by
    apply load_congr
    intro k hk
    rw [BitVec.add_assoc, ← BitVec.ofNat_add]
    apply heq
    have hstep : W * (i + 1) ≤ W * ws.length := Nat.mul_le_mul_left W hlt
    rw [Nat.mul_succ] at hstep
    omega
  rw [hbytes]

/-- A gap in front of the row. -/
theorem holds_reserve {m : Memory w} {a : BitVec w} {ws : List (BitVec w)} (h : Holds W m a ws)
    (n : Nat) :
    ∃ us : List (BitVec w), us.length = n ∧ Holds W m (back W a n) (us ++ ws) := by
  have hend : nth W (back W a n) n = a := by
    have hback := nth_back (W := W) a n 0
    rwa [Nat.add_zero, back_zero] at hback
  refine ⟨_, ?_, (holds_append _ ws).mpr ⟨holds_map m (back W a n) n, ?_⟩⟩
  · rw [List.length_map, List.length_range]
  · rw [List.length_map, List.length_range, hend]
    exact h

/-! ## Words in a row of fields -/

/-- Field `i` of the structure at `p`. -/
def get_field (W : Nat) (m : Memory w) (p : BitVec w) (i : Nat) : BitVec w := word W m (nth W p i)

def set_field (W : Nat) (m : Memory w) (p : BitVec w) (i : Nat) (v : BitVec w) : Memory w :=
  store_word W m (nth W p i) v

theorem get_field_eq {m : Memory w} {p v : BitVec w} {ws : List (BitVec w)} {i : Nat}
    (h : Holds W m p ws) (hv : ws[i]? = some v) : get_field W m p i = v :=
  h i v hv

theorem holds_set_field (hw : w = 8 * W) {m : Memory w} {p : BitVec w} {ws : List (BitVec w)}
    {i : Nat} {v : BitVec w} (h : Holds W m p ws) (hi : i < ws.length)
    (hroom : W * ws.length ≤ 2 ^ w) : Holds W (set_field W m p i v) p (ws.set i v) :=
  holds_set hw h hi hroom

/-- Field `i` becomes a copy of field `j`. -/
theorem holds_copy_field (hw : w = 8 * W) {m : Memory w} {p v : BitVec w} {ws : List (BitVec w)}
    {i j : Nat} (h : Holds W m p ws) (hv : ws[j]? = some v) (hi : i < ws.length)
    (hroom : W * ws.length ≤ 2 ^ w) :
    Holds W (set_field W m p i (get_field W m p j)) p (ws.set i v) := by
  rw [get_field_eq h hv]
  exact holds_set_field hw h hi hroom

/-- A structure that has been cleared. -/
theorem holds_zero (m : Memory w) (a : BitVec w) {n : Nat} (hroom : W * n ≤ 2 ^ w) :
    Holds W (store m a 0 (W * n)) a (List.replicate n 0) := by
  intro i v h
  obtain ⟨hi, rfl⟩ := List.getElem?_eq_some_iff.mp h
  rw [List.length_replicate] at hi
  have hfield : W * (i + 1) ≤ W * n := Nat.mul_le_mul_left W hi
  rw [Nat.mul_succ] at hfield
  rw [List.getElem_replicate]
  unfold word nth
  rw [load_store_part m a 0 hroom hfield, Nat.zero_div, Nat.zero_mod]
  rfl

/-! ## Moving a row upwards -/

/-- Copy the first `n` words of the row at `a` by `g` words upwards, the last
    one first. -/
def move_up (W : Nat) (a : BitVec w) (g : Nat) : Nat → Memory w → Memory w
  | 0, m => m
  | n + 1, m => move_up W a g n (store_word W m (nth W a (n + g)) (word W m (nth W a n)))

/-- The words behind the copy stay. -/
theorem word_move_up_behind {a : BitVec w} {g n j : Nat} {m : Memory w}
    (hroom : W * (j + 1) ≤ 2 ^ w) (hj : n + g ≤ j) :
    word W (move_up W a g n m) (nth W a j) = word W m (nth W a j) := by
  induction n generalizing m with
  | zero => rfl
  | succ n ih =>
    rw [move_up, ih (by omega)]
    exact word_store_ne hroom (by omega) (Nat.lt_succ_self j) (by omega)

/-- The copy may overlap what is copied: each word is read before it is
    overwritten. -/
theorem word_move_up (hw : w = 8 * W) {a : BitVec w} {g n j : Nat} {m : Memory w}
    (hroom : W * (n + g) ≤ 2 ^ w) (hj : j < n) :
    word W (move_up W a g n m) (nth W a (j + g)) = word W m (nth W a j) := by
  induction n generalizing m with
  | zero => omega
  | succ n ih =>
    have hless : W * (n + g) ≤ W * (n + 1 + g) := Nat.mul_le_mul_left W (by omega)
    rw [move_up]
    by_cases hlast : j = n
    · -- The word that has just been written: the rest of the copy is in front of it.
      subst hlast
      rw [word_move_up_behind (by rwa [Nat.add_right_comm]) (Nat.le_refl _)]
      exact word_store_same hw m _ _
    · rw [ih (Nat.le_trans hless hroom) (by omega)]
      exact word_store_ne hroom (by omega) (by omega) (by omega)

theorem holds_move_up (hw : w = 8 * W) {a : BitVec w} {g : Nat} {m : Memory w}
    {ws : List (BitVec w)} (h : Holds W m a ws) (hroom : W * (ws.length + g) ≤ 2 ^ w) :
    Holds W (move_up W a g ws.length m) (nth W a g) ws := by
  intro j v hv
  obtain ⟨hj, -⟩ := List.getElem?_eq_some_iff.mp hv
  rw [nth_nth, Nat.add_comm g j, word_move_up hw hroom hj]
  exact h j v hv

end Words
