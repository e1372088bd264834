import Mathlib.Data.List.Induction
import Mathlib.Data.Nat.Basic
import Mathlib.Tactic.Ring

/-! # Little-endian byte stores

    A `Store` is a byte-addressed memory without an end: a C object is a
    range of it.  `load m a n` is the number a little-endian host reads from
    the `n` bytes at `a`, and `store m a v n` writes the low `n` bytes of `v`
    there.

    The file collects how the two operations compose: what a load reads after
    a store to the same range and to a disjoint range, and what a run of
    stores leaves in each byte. -/

namespace Bytes

/-- Byte-addressed memory. -/
abbrev Store : Type := Nat → UInt8

/-- The little-endian number in the `n` bytes at address `a`. -/
def load (m : Store) (a : Nat) : Nat → Nat
  | 0 => 0
  | n + 1 => (m a).toNat + 256 * load m (a + 1) n

/-- Write the low `n` bytes of `v` at address `a`. -/
def store (m : Store) (a v n : Nat) : Store :=
  fun x => if a ≤ x ∧ x < a + n then UInt8.ofNat (v / 256 ^ (x - a)) else m x

/-! ## Loads -/

@[simp] theorem load_zero (m : Store) (a : Nat) : load m a 0 = 0 := rfl

theorem load_succ (m : Store) (a n : Nat) :
    load m a (n + 1) = (m a).toNat + 256 * load m (a + 1) n := rfl

/-- A load of `n` bytes is an `8n`-bit number. -/
theorem load_lt (m : Store) (a n : Nat) : load m a n < 256 ^ n := by
  induction n generalizing a with
  | zero => simp
  | succ n ih =>
    have hbyte : (m a).toNat < 256 := (m a).toNat_lt
    have hrest := ih (a + 1)
    rw [load_succ, Nat.pow_succ]
    omega

/-- The low bytes of a load are the load of the low bytes. -/
theorem load_mod (m : Store) (a : Nat) {k n : Nat} (h : k ≤ n) :
    load m a n % 256 ^ k = load m a k := by
  induction k generalizing a n with
  | zero => exact Nat.mod_one _
  | succ k ih =>
    obtain ⟨n, rfl⟩ : ∃ j, n = j + 1 := ⟨n - 1, by omega⟩
    have hbyte : (m a).toNat < 256 := (m a).toNat_lt
    have hrest := ih (a + 1) (n := n) (by omega)
    have hlow : ((m a).toNat + 256 * load m (a + 1) n) % 256 = (m a).toNat := by omega
    have hhigh : ((m a).toNat + 256 * load m (a + 1) n) / 256 = load m (a + 1) n := by omega
    rw [load_succ, load_succ, Nat.pow_succ', Nat.mod_mul, hlow, hhigh, hrest]

/-- A load only depends on the bytes it covers. -/
theorem load_congr {m m' : Store} {a n : Nat}
    (h : ∀ x, a ≤ x → x < a + n → m x = m' x) : load m a n = load m' a n := by
  induction n generalizing a with
  | zero => rfl
  | succ n ih =>
    have hfirst : m a = m' a := h a (Nat.le_refl a) (by omega)
    have hrest : load m (a + 1) n = load m' (a + 1) n :=
      ih fun x hlo hhi => h x (by omega) (by omega)
    rw [load_succ, load_succ, hfirst, hrest]

/-- The same bytes at another place make the same load. -/
theorem load_shift {m m' : Store} {a b n : Nat} (h : ∀ i < n, m (a + i) = m' (b + i)) :
    load m a n = load m' b n := by
  induction n generalizing a b with
  | zero => rfl
  | succ n ih =>
    have hfirst : m a = m' b := h 0 (by omega)
    have hrest : load m (a + 1) n = load m' (b + 1) n := by
      apply ih
      intro i hi
      have hbyte := h (i + 1) (by omega)
      rw [Nat.add_comm i 1, ← Nat.add_assoc, ← Nat.add_assoc] at hbyte
      exact hbyte
    rw [load_succ, load_succ, hfirst, hrest]

/-- A one-byte load is the byte. -/
@[simp] theorem load_one (m : Store) (a : Nat) : load m a 1 = (m a).toNat := by
  simp [load]

/-! ## Stores -/

theorem store_inside {m : Store} {a v n x : Nat} (hlo : a ≤ x) (hhi : x < a + n) :
    store m a v n x = UInt8.ofNat (v / 256 ^ (x - a)) := by
  simp [store, hlo, hhi]

/-- A store leaves every byte outside its range alone. -/
theorem store_outside {m : Store} {a v n x : Nat} (h : x < a ∨ a + n ≤ x) :
    store m a v n x = m x := by
  have hout : ¬ (a ≤ x ∧ x < a + n) := by omega
  simp [store, hout]

/-- A store splits into its first byte and the rest. -/
theorem store_succ (m : Store) (a v n : Nat) :
    store m a v (n + 1) = store (store m a v 1) (a + 1) (v / 256) n := by
  funext x
  by_cases hrest : a + 1 ≤ x ∧ x < a + 1 + n
  · have hx : x - a = (x - (a + 1)) + 1 := by omega
    rw [store_inside (by omega) (by omega), store_inside hrest.1 hrest.2, hx,
      Nat.pow_succ', ← Nat.div_div_eq_div_mul]
  · rw [store_outside (m := store m a v 1) (by omega)]
    by_cases hfirst : x = a
    · subst hfirst
      rw [store_inside (by omega) (by omega), store_inside (by omega) (by omega)]
    · rw [store_outside (by omega), store_outside (by omega)]

/-- Reading back a store gives the stored number, cut to the width. -/
theorem load_store_same (m : Store) (a v n : Nat) :
    load (store m a v n) a n = v % 256 ^ n := by
  induction n generalizing m a v with
  | zero => simp [Nat.mod_one]
  | succ n ih =>
    have hfirst : (store m a v (n + 1) a).toNat = v % 256 := by
      rw [store_inside (Nat.le_refl a) (by omega)]
      simp
    have hrest : load (store m a v (n + 1)) (a + 1) n = v / 256 % 256 ^ n := by
      rw [store_succ]
      exact ih (store m a v 1) (a + 1) (v / 256)
    rw [load_succ, hfirst, hrest, Nat.pow_succ', Nat.mod_mul]

/-- A load does not see a store to a disjoint range. -/
theorem load_store_disjoint {m : Store} {a b v n k : Nat}
    (h : b + k ≤ a ∨ a + n ≤ b) : load (store m a v n) b k = load m b k :=
  load_congr fun _ hlo hhi => store_outside (by omega)

/-! ## Bits -/

/-- The bits of a load, byte by byte. -/
theorem testBit_load (m : Store) (a n i : Nat) :
    (load m a n).testBit i = (decide (i < 8 * n) && (m (a + i / 8)).toNat.testBit (i % 8)) := by
  induction n generalizing a i with
  | zero => simp
  | succ n ih =>
    have hbyte : (m a).toNat < 2 ^ 8 := (m a).toNat_lt
    rw [load_succ, Nat.add_comm, show (256 : Nat) = 2 ^ 8 from rfl,
      Nat.testBit_two_pow_mul_add _ hbyte]
    by_cases hi : i < 8
    · have hin : i < 8 * (n + 1) := by omega
      simp [hi, hin, Nat.div_eq_of_lt hi, Nat.mod_eq_of_lt hi]
    · have hdiv : a + 1 + (i - 8) / 8 = a + i / 8 := by omega
      have hmod : (i - 8) % 8 = i % 8 := by omega
      have hin : (i - 8 < 8 * n) = (i < 8 * (n + 1)) := propext (by omega)
      simp only [hi, if_false, ih, hdiv, hmod, hin]

/-- The bits of a stored byte. -/
theorem testBit_store {m : Store} {a v n x : Nat} (hlo : a ≤ x) (hhi : x < a + n) (j : Nat) :
    (store m a v n x).toNat.testBit j = (decide (j < 8) && v.testBit (8 * (x - a) + j)) := by
  rw [store_inside hlo hhi, UInt8.toNat_ofNat', show (256 : Nat) = 2 ^ 8 from rfl, ← Nat.pow_mul,
    Nat.testBit_mod_two_pow, Nat.testBit_div_two_pow, Nat.add_comm]

/-! ## Copies -/

/-- The `n` bytes of `src` at `b` are copied to `a`. -/
def copy (dst : Store) (a : Nat) (src : Store) (b n : Nat) : Store :=
  fun x => if a ≤ x ∧ x < a + n then src (b + (x - a)) else dst x

theorem copy_inside {dst src : Store} {a b n x : Nat} (hlo : a ≤ x) (hhi : x < a + n) :
    copy dst a src b n x = src (b + (x - a)) := if_pos ⟨hlo, hhi⟩

theorem copy_outside {dst src : Store} {a b n x : Nat} (h : x < a ∨ a + n ≤ x) :
    copy dst a src b n x = dst x := if_neg (by omega)

@[simp] theorem copy_zero (dst src : Store) (a b : Nat) : copy dst a src b 0 = dst := by
  funext x
  exact copy_outside (by omega)

/-- A copy goes on where another one ends. -/
theorem copy_add (dst src : Store) (a b m n : Nat) :
    copy (copy dst a src b m) (a + m) src (b + m) n = copy dst a src b (m + n) := by
  funext x
  by_cases hrest : a + m ≤ x ∧ x < a + m + n
  · have hx : b + m + (x - (a + m)) = b + (x - a) := by omega
    rw [copy_inside hrest.1 hrest.2, copy_inside (by omega) (by omega), hx]
  · rw [@copy_outside (copy dst a src b m) src (a + m) (b + m) n x (by omega)]
    by_cases hfirst : a ≤ x ∧ x < a + m
    · rw [copy_inside hfirst.1 hfirst.2, copy_inside (by omega) (by omega)]
    · rw [copy_outside (by omega), copy_outside (by omega)]

/-- The byte number `i` of a load. -/
theorem load_byte (m : Store) (a : Nat) {i n : Nat} (h : i < n) :
    UInt8.ofNat (load m a n / 256 ^ i) = m (a + i) := by
  induction i generalizing a n with
  | zero =>
    obtain ⟨n, rfl⟩ : ∃ k, n = k + 1 := ⟨n - 1, by omega⟩
    have hbyte : (m a).toNat < 256 := (m a).toNat_lt
    apply UInt8.toNat_inj.mp
    rw [load_succ, Nat.pow_zero, Nat.div_one, UInt8.toNat_ofNat']
    show _ = (m a).toNat
    omega
  | succ i ih =>
    obtain ⟨n, rfl⟩ : ∃ k, n = k + 1 := ⟨n - 1, by omega⟩
    have hbyte : (m a).toNat < 256 := (m a).toNat_lt
    have hhigh : ((m a).toNat + 256 * load m (a + 1) n) / 256 = load m (a + 1) n := by omega
    rw [load_succ, Nat.pow_succ', ← Nat.div_div_eq_div_mul, hhigh, ih (a + 1) (by omega)]
    congr 1
    omega

/-- To store what was loaded is to copy it. -/
theorem store_load (dst src : Store) (a b n : Nat) :
    store dst a (load src b n) n = copy dst a src b n := by
  funext x
  by_cases h : a ≤ x ∧ x < a + n
  · rw [store_inside h.1 h.2, copy_inside h.1 h.2, load_byte src b (by omega)]
  · rw [store_outside (by omega), copy_outside (by omega)]

/-! ## Histories of stores -/

/-- A store of the low `len` bytes of `data`. -/
structure Write where
  addr : Nat
  data : Nat
  len  : Nat

def Write.covers (w : Write) (x : Nat) : Bool :=
  decide (w.addr ≤ x) && decide (x < w.addr + w.len)

/-- The byte of the data that goes to `x`. -/
def Write.byte (w : Write) (x : Nat) : UInt8 := UInt8.ofNat (w.data / 256 ^ (x - w.addr))

/-- The byte at `x` that was written last, or the one of `m` if none was. -/
def lastByte (m : Store) (ws : List Write) (x : Nat) : UInt8 :=
  match ws.reverse.find? fun w => w.covers x with
  | some w => w.byte x
  | none => m x

/-- The memory after some stores. -/
def stores (m : Store) (ws : List Write) : Store :=
  ws.foldl (fun m w => store m w.addr w.data w.len) m

theorem store_apply (m : Store) (w : Write) (x : Nat) :
    store m w.addr w.data w.len x = if w.covers x then w.byte x else m x := by
  unfold store Write.covers Write.byte
  simp only [Bool.and_eq_true, decide_eq_true_eq]

theorem lastByte_concat (m : Store) (ws : List Write) (w : Write) (x : Nat) :
    lastByte m (ws ++ [w]) x = if w.covers x then w.byte x else lastByte m ws x := by
  unfold lastByte
  rw [List.reverse_append, List.reverse_singleton, List.singleton_append, List.find?_cons]
  cases w.covers x with
  | true => rfl
  | false => rfl

/-- After any stores each byte is the one written last. -/
theorem stores_apply (m : Store) (ws : List Write) (x : Nat) : stores m ws x = lastByte m ws x := by
  induction ws using List.reverseRecOn with
  | nil => rfl
  | append_singleton ws w ih =>
    rw [lastByte_concat, ← ih]
    unfold stores
    rw [List.foldl_append]
    exact store_apply _ w x

end Bytes
