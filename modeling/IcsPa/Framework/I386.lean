import IcsPa.Framework.Bytes
import Mathlib.Data.BitVec
import Mathlib.Data.Int.ModEq
import Mathlib.Logic.Function.Basic

/-! # The i386, as its manual describes it

    The general registers with their parts, the ModR/M form with 32-bit
    addressing, the `MOV` instructions, and the multiplications and divisions
    of the accumulator.  An instruction is a stream of bytes
    `code : Nat → UInt8` that starts at it.

    Widths are in bytes: 1, 2 or 4.  A value of a smaller width is a word with
    zeros in front. -/

open Bytes

namespace I386

/-! ## Section 1: Fields of words -/

/-- Ones at the `bits` bits from bit `first` on. -/
def mask (first bits : Nat) : BitVec 32 := BitVec.ofNat 32 (2 ^ bits - 1) <<< first

/-- The `bits` bits of `v` from bit `first` on. -/
def field (v : BitVec 32) (first bits : Nat) : BitVec 32 := v >>> first &&& mask 0 bits

/-- Replace the `bits` bits of `v` from bit `first` on by the low bits of `x`. -/
def put_field (v : BitVec 32) (first bits : Nat) (x : BitVec 32) : BitVec 32 :=
  (v &&& ~~~ mask first bits) ||| (x <<< first &&& mask first bits)

theorem getLsbD_mask (first bits i : Nat) :
    (mask first bits).getLsbD i =
    (decide (i < 32) && decide (first ≤ i) && decide (i < first + bits)) := by
  unfold mask
  rw [BitVec.getLsbD_shiftLeft, BitVec.getLsbD_ofNat, Nat.testBit_two_pow_sub_one]
  rw [Bool.eq_iff_iff]
  simp only [Bool.and_eq_true, Bool.not_eq_true', decide_eq_true_eq, decide_eq_false_iff_not]
  omega

theorem getLsbD_field (v : BitVec 32) (first bits i : Nat) :
    (field v first bits).getLsbD i = (decide (i < bits) && v.getLsbD (first + i)) := by
  by_cases hi : i < 32
  · rw [field, BitVec.getLsbD_and, BitVec.getLsbD_ushiftRight, getLsbD_mask]
    simp [hi, Bool.and_comm]
  · have hout : ∀ u : BitVec 32, u.getLsbD (first + i) = false :=
      fun u => BitVec.getLsbD_of_ge u _ (by omega)
    rw [hout, BitVec.getLsbD_of_ge _ _ (by omega), Bool.and_false]

theorem getLsbD_put_field (v : BitVec 32) (first bits : Nat) (x : BitVec 32) (i : Nat) :
    (put_field v first bits x).getLsbD i =
      if first ≤ i ∧ i < first + bits then decide (i < 32) && x.getLsbD
      (i - first) else v.getLsbD i := by
  by_cases hi : i < 32
  · simp only [put_field, BitVec.getLsbD_or, BitVec.getLsbD_and, BitVec.getLsbD_not, getLsbD_mask,
      BitVec.getLsbD_shiftLeft, hi, decide_true, Bool.true_and]
    by_cases hf : first ≤ i <;> by_cases hb : i < first + bits <;>
      simp [hf, hb, Nat.not_lt.mpr]
  · rw [BitVec.getLsbD_of_ge _ _ (by omega), BitVec.getLsbD_of_ge v _ (by omega)]
    simp [hi]

theorem toNat_field (v : BitVec 32) (first : Nat) {bits : Nat} (hbits : bits ≤ 32) :
    (field v first bits).toNat = v.toNat / 2 ^ first % 2 ^ bits := by
  have hmask : (mask 0 bits).toNat = 2 ^ bits - 1 := by
    have hle : 2 ^ bits ≤ 2 ^ 32 := Nat.pow_le_pow_right (by decide) hbits
    have hpos := Nat.two_pow_pos bits
    simp only [mask, BitVec.shiftLeft_zero, BitVec.toNat_ofNat]
    exact Nat.mod_eq_of_lt (by omega)
  rw [field, BitVec.toNat_and, hmask, Nat.and_two_pow_sub_one_eq_mod, BitVec.toNat_ushiftRight,
    Nat.shiftRight_eq_div_pow]

theorem field_all (v : BitVec 32) : field v 0 32 = v := by
  apply BitVec.eq_of_getLsbD_eq
  intro i hi
  rw [getLsbD_field, Nat.zero_add]
  simp [hi]

theorem put_field_all (v x : BitVec 32) : put_field v 0 32 x = x := by
  apply BitVec.eq_of_getLsbD_eq
  intro i hi
  rw [getLsbD_put_field, if_pos (by omega)]
  simp [hi]

/-- Reading a field back. -/
theorem field_put_field (v x : BitVec 32) {first bits : Nat} (h : first + bits ≤ 32) :
    field (put_field v first bits x) first bits = field x 0 bits := by
  apply BitVec.eq_of_getLsbD_eq
  intro i _
  simp only [getLsbD_field, getLsbD_put_field, Nat.zero_add]
  by_cases hb : i < bits
  · rw [if_pos (by omega), Nat.add_sub_cancel_left]
    simp [hb, show first + i < 32 by omega]
  · simp [hb]

/-- Only the low bits of `x` count. -/
theorem put_field_eq_iff (v x y : BitVec 32) {first bits : Nat} (h : first + bits ≤ 32) :
    put_field v first bits x = put_field v first bits y ↔ field x 0 bits = field y 0 bits := by
  constructor
  · intro heq
    rw [← field_put_field v x h, heq, field_put_field v y h]
  · intro heq
    apply BitVec.eq_of_getLsbD_eq
    intro i _
    rw [getLsbD_put_field, getLsbD_put_field]
    by_cases hi : first ≤ i ∧ i < first + bits
    · have hbit := congrArg (fun u : BitVec 32 => u.getLsbD (i - first)) heq
      simp only [getLsbD_field, Nat.zero_add, show i - first < bits by omega, decide_true,
        Bool.true_and] at hbit
      rw [if_pos hi, if_pos hi, hbit]
    · rw [if_neg hi, if_neg hi]

/-- The low bits of numbers modulo `2 ^ bits`. -/
theorem field_ofInt_eq_iff (m n : Int) {bits : Nat} (hbits : bits ≤ 32) :
    field (BitVec.ofInt 32 m) 0 bits = field (BitVec.ofInt 32 n) 0 bits ↔
      m ≡ n [ZMOD 2 ^ bits] := by
  have hnat : ∀ k : Int, ((field (BitVec.ofInt 32 k) 0 bits).toNat : Int) = k % 2 ^ bits := by
    intro k
    have hdvd : (2 : Int) ^ bits ∣ 2 ^ 32 := pow_dvd_pow 2 hbits
    have hlift : ((BitVec.ofInt 32 k).toNat : Int) = k % 2 ^ 32 := by
      rw [BitVec.toNat_ofInt, Int.toNat_of_nonneg (Int.emod_nonneg _ (by decide))]
      rfl
    rw [toNat_field _ _ hbits, Nat.pow_zero, Nat.div_one]
    push_cast
    rw [hlift, Int.emod_emod_of_dvd _ hdvd]
  constructor
  · intro heq
    show m % 2 ^ bits = n % 2 ^ bits
    rw [← hnat m, ← hnat n, heq]
  · intro hmod
    apply BitVec.eq_of_toNat_eq
    have hsame : m % 2 ^ bits = n % 2 ^ bits := hmod
    rw [← hnat m, ← hnat n] at hsame
    exact Int.ofNat_inj.mp hsame

/-! ### Words in memory -/

/-- The little-endian word at an address. -/
def word (m : Store) (a : Nat) : BitVec 32 := BitVec.ofNat 32 (load m a 4)

theorem getLsbD_word (m : Store) (a i : Nat) :
    (word m a).getLsbD i = (decide (i < 32) && (m (a + i / 8)).toNat.testBit (i % 8)) := by
  rw [word, BitVec.getLsbD_ofNat, testBit_load]
  by_cases hi : i < 32 <;> simp [hi]

/-- Bytes of a word are a field of it. -/
theorem load_in_word (m : Store) (a : Nat) {k n : Nat} (h : k + n ≤ 4) :
    BitVec.ofNat 32 (load m (a + k) n) = field (word m a) (8 * k) (8 * n) := by
  apply BitVec.eq_of_getLsbD_eq
  intro i hi
  rw [BitVec.getLsbD_ofNat, testBit_load, getLsbD_field, getLsbD_word]
  have hdiv : a + k + i / 8 = a + (8 * k + i) / 8 := by omega
  have hmod : i % 8 = (8 * k + i) % 8 := by omega
  rw [hdiv, hmod]
  by_cases hin : i < 8 * n
  · have hlt : 8 * k + i < 32 := by omega
    simp [hi, hin, hlt]
  · simp [hin]

/-- A store into bytes of a word puts a field into it. -/
theorem word_store (m : Store) (a v : Nat) {k n : Nat} (h : k + n ≤ 4) :
    word (store m (a + k) v n) a = put_field (word m a) (8 * k) (8 * n) (BitVec.ofNat 32 v) := by
  apply BitVec.eq_of_getLsbD_eq
  intro i hi
  rw [getLsbD_word, getLsbD_put_field]
  by_cases hin : 8 * k ≤ i ∧ i < 8 * k + 8 * n
  · have hbit : 8 * (a + i / 8 - (a + k)) + i % 8 = i - 8 * k := by omega
    have hlt : i - 8 * k < 32 := by omega
    rw [if_pos hin, testBit_store (by omega) (by omega), hbit, BitVec.getLsbD_ofNat]
    simp [hi, hlt, Nat.mod_lt]
  · rw [if_neg hin, store_outside (by omega), getLsbD_word]

/-- A store elsewhere does not change it. -/
theorem word_store_disjoint {m : Store} {a b v n : Nat} (h : a + 4 ≤ b ∨ b + n ≤ a) :
    word (store m b v n) a = word m a := by
  unfold word
  rw [load_store_disjoint h]

/-! ## Section 2: Registers -/

instance neZero_eight : NeZero 8 := ⟨by decide⟩

instance neZero_four : NeZero 4 := ⟨by decide⟩

abbrev Gprs : Type := Fin 8 → BitVec 32

def EAX : Fin 8 := 0
def EDX : Fin 8 := 2
def AH : Fin 8 := 4
def ESP : Fin 8 := 4
def EBP : Fin 8 := 5

/-- The general register in which register number `r` of width `w` is: the
    bytes 0 to 3 are `AL` to `BL`, and 4 to 7 are `AH` to `BH`. -/
def home (w : Nat) (r : Fin 8) : Fin 8 := if w = 1 then r % 4 else r

/-- Its first bit there. -/
def first_bit (w : Nat) (r : Fin 8) : Nat := if w = 1 ∧ 4 ≤ r then 8 else 0

def Gprs.part (g : Gprs) (w : Nat) (r : Fin 8) : BitVec 32 :=
  field (g (home w r)) (first_bit w r) (8 * w)

def Gprs.set_part (g : Gprs) (w : Nat) (r : Fin 8) (x : BitVec 32) : Gprs :=
  Function.update g (home w r) (put_field (g (home w r)) (first_bit w r) (8 * w) x)

theorem set_part_four (g : Gprs) (r : Fin 8) (x : BitVec 32) :
    g.set_part 4 r x = Function.update g r x := by
  unfold Gprs.set_part
  exact congrArg (Function.update g r) (put_field_all _ _)

/-- The bits outside the part stay. -/
theorem set_part_bits (g : Gprs) (w : Nat) (r q : Fin 8) (x : BitVec 32) (i : Nat)
    (hout : q ≠ home w r ∨ i < first_bit w r ∨ first_bit w r + 8 * w ≤ i) :
    (g.set_part w r x q).getLsbD i = (g q).getLsbD i := by
  unfold Gprs.set_part
  by_cases hq : q = home w r
  · subst hq
    rw [Function.update_self, getLsbD_put_field, if_neg]
    rcases hout with hne | hbits
    · exact absurd rfl hne
    · omega
  · rw [Function.update_of_ne hq]

/-- A part ends inside its register. -/
theorem part_inside {w : Nat} (hw : w = 1 ∨ w = 2 ∨ w = 4) (r : Fin 8) :
    first_bit w r + 8 * w ≤ 32 := by
  have hfirst : first_bit w r = 0 ∨ w = 1 ∧ first_bit w r = 8 := by
    unfold first_bit
    by_cases h : w = 1 ∧ 4 ≤ r
    · exact .inr ⟨h.1, if_pos h⟩
    · exact .inl (if_neg h)
  omega

theorem part_set_part (g : Gprs) {w : Nat} (hw : w = 1 ∨ w = 2 ∨ w = 4) (r : Fin 8)
    (x : BitVec 32) : (g.set_part w r x).part w r = field x 0 (8 * w) := by
  unfold Gprs.part Gprs.set_part
  rw [Function.update_self, field_put_field _ _ (part_inside hw r)]

/-- Registers of one width do not overlap. -/
theorem part_set_part_ne (g : Gprs) {w : Nat} (hw : w = 1 ∨ w = 2 ∨ w = 4) {q r : Fin 8}
    (hne : q ≠ r) (x : BitVec 32) : (g.set_part w q x).part w r = g.part w r := by
  have hapart : home w r ≠ home w q ∨ first_bit w r + 8 * w ≤ first_bit w q ∨
      first_bit w q + 8 * w ≤ first_bit w r := by
    rcases hw with rfl | rfl | rfl
    · revert q r
      decide
    · exact .inl hne.symm
    · exact .inl hne.symm
  apply BitVec.eq_of_getLsbD_eq
  intro i _
  unfold Gprs.part
  rw [getLsbD_field, getLsbD_field]
  by_cases hi : i < 8 * w
  · rw [set_part_bits]
    rcases hapart with hhome | hbelow | habove
    · exact .inl hhome
    · exact .inr (.inl (by omega))
    · exact .inr (.inr (by omega))
  · simp [hi]

theorem set_part_eq_iff (g : Gprs) {w : Nat} (hw : w = 1 ∨ w = 2 ∨ w = 4) (r : Fin 8)
    (x y : BitVec 32) :
    g.set_part w r x = g.set_part w r y ↔ field x 0 (8 * w) = field y 0 (8 * w) := by
  rw [← put_field_eq_iff (g (home w r)) x y (part_inside hw r)]
  constructor
  · intro h
    have hat := congrFun h (home w r)
    unfold Gprs.set_part at hat
    rwa [Function.update_self, Function.update_self] at hat
  · intro h
    unfold Gprs.set_part
    rw [h]

/-! ## Section 3: The ModR/M form -/

abbrev Code : Type := Nat → UInt8

/-- The stream behind the first `n` bytes. -/
def Code.drop (code : Code) (n : Nat) : Code := fun i => code (n + i)

/-- Three bits of a byte. -/
def bits3 (b : UInt8) (first : Nat) : Fin 8 :=
  ⟨b.toNat / 2 ^ first % 8, Nat.mod_lt _ (by decide)⟩

/-- The last two bits, of weight 64. -/
def bits2 (b : UInt8) : Fin 4 := ⟨b.toNat / 64, Nat.div_lt_of_lt_mul b.toNat_lt⟩

namespace Code

def mod (code : Code) : Fin 4 := bits2 (code 0)
def reg (code : Code) : Fin 8 := bits3 (code 0) 3
def rm (code : Code) : Fin 8 := bits3 (code 0) 0

def has_sib (code : Code) : Bool := code.rm = 4 && code.mod ≠ 3

/-- The field that names the base register. -/
def base_field (code : Code) : Fin 8 := if code.has_sib then bits3 (code 1) 0 else code.rm

def base (code : Code) : Option (Fin 8) :=
  if code.mod = 0 ∧ code.base_field = EBP then none else some code.base_field

/-- The index register, and the scale as an exponent of 2. -/
def index (code : Code) : Option (Fin 8 × Fin 4) :=
  if code.has_sib ∧ bits3 (code 1) 3 ≠ ESP then some (bits3 (code 1) 3, bits2 (code 1)) else none

/-- The number of bytes of the displacement. -/
def disp_size (code : Code) : Nat :=
  match code.mod with
  | 0 => if code.base_field = EBP then 4 else 0
  | 1 => 1
  | 2 => 4
  | 3 => 0

/-- Where the displacement is. -/
def disp_at (code : Code) : Nat := if code.has_sib then 2 else 1

/-- The displacement; one byte is sign-extended. -/
def disp (code : Code) : BitVec 32 :=
  if code.disp_size = 1 then (BitVec.ofNat 8 (code code.disp_at).toNat).signExtend 32
  else BitVec.ofNat 32 (load code code.disp_at code.disp_size)

/-- The bytes of the whole form. -/
def form_length (code : Code) : Nat := code.disp_at + code.disp_size

def address (code : Code) (g : Gprs) : BitVec 32 :=
  (match code.base with
    | some r => g r
    | none => 0) +
  (match code.index with
    | some (r, scale) => g r * 2 ^ scale.val
    | none => 0) +
  code.disp

end Code

/-! ## Section 4: Operands -/

/-- A register or a place in memory, of the width of an instruction. -/
inductive Place where
  | reg (r : Fin 8)
  | mem (a : BitVec 32)
  deriving DecidableEq, Repr

/-- The operand that `mod` and `r/m` name. -/
def Code.place (code : Code) (g : Gprs) : Place :=
  if code.mod = 3 then .reg code.rm else .mem (code.address g)

/-- The value there. -/
def Place.value (w : Nat) (g : Gprs) (m : Store) : Place → BitVec 32
  | .reg r => g.part w r
  | .mem a => BitVec.ofNat 32 (load m a.toNat w)

/-! ## Section 5: Multiplication and division

    The accumulator of width `w` is `AL`, `AX` or `EAX`; that of twice the
    width is `AX`, `DX:AX` or `EDX:EAX`. -/

/-- The number that the `w` bytes `n` are in two's complement. -/
def signed (w n : Nat) : Int := if 2 * n < 256 ^ w then n else n - 256 ^ w

def Gprs.wide (g : Gprs) (w : Nat) : Nat :=
  if w = 1 then (g.part 2 EAX).toNat
  else (g.part w EDX).toNat * 256 ^ w + (g.part w EAX).toNat

def Gprs.set_wide (g : Gprs) (w : Nat) (n : Int) : Gprs :=
  if w = 1 then g.set_part 2 EAX (BitVec.ofInt 32 n)
  else (g.set_part w EAX (BitVec.ofInt 32 n)).set_part w EDX (BitVec.ofInt 32 (n / 256 ^ w))

/-- The register of the remainder: `AH`, `DX` or `EDX`. -/
def remainder_reg (w : Nat) : Fin 8 := if w = 1 then AH else EDX

def Gprs.set_quotient (g : Gprs) (w : Nat) (q r : Int) : Gprs :=
  (g.set_part w EAX (BitVec.ofInt 32 q)).set_part w (remainder_reg w) (BitVec.ofInt 32 r)

/-- The instructions of the accumulator with one operand. -/
inductive AccOp where
  | MUL
  | IMUL
  | DIV
  | IDIV
  deriving DecidableEq, Repr

/-- The registers afterwards, with the operand `x`; `none` is the divide
    error. -/
def AccOp.result (op : AccOp) (w : Nat) (x : BitVec 32) (g : Gprs) : Option Gprs :=
  let a := (g.part w EAX).toNat
  match op with
  | .MUL => some (g.set_wide w (a * x.toNat : Nat))
  | .IMUL => some (g.set_wide w (signed w a * signed w x.toNat))
  | .DIV =>
      let n := g.wide w
      let d := x.toNat
      if d ≠ 0 ∧ n / d < 256 ^ w then some (g.set_quotient w (n / d : Nat) (n % d : Nat)) else none
  | .IDIV =>
      let n := signed (2 * w) (g.wide w)
      let d := signed w x.toNat
      let q := n.tdiv d
      if d ≠ 0 ∧ -256 ^ w ≤ 2 * q ∧ 2 * q < 256 ^ w then some (g.set_quotient w q (n.tmod d))
      else none

theorem signed_bounds {w n : Nat} (h : n < 256 ^ w) :
    -256 ^ w ≤ 2 * signed w n ∧ 2 * signed w n < 256 ^ w := by
  have hpow : ((256 ^ w : Nat) : Int) = 256 ^ w := by push_cast; rfl
  unfold signed
  split <;> omega

theorem signed_zero (w : Nat) : signed w 0 = 0 := if_pos (Nat.pow_pos (by decide))

/-- A negative number is `256 ^ w` less. -/
theorem signed_cases {w n : Nat} (h : n < 256 ^ w) :
    ∃ α : Int, n = signed w n + α * 256 ^ w ∧
      (α = 0 ∧ 0 ≤ signed w n ∨ α = 1 ∧ signed w n < 0) := by
  have hpow : ((256 ^ w : Nat) : Int) = 256 ^ w := by push_cast; rfl
  by_cases hn : 2 * n < 256 ^ w
  · refine ⟨0, ?_, .inl ⟨rfl, ?_⟩⟩ <;> rw [signed, if_pos hn] <;> omega
  · refine ⟨1, ?_, .inr ⟨rfl, ?_⟩⟩ <;> rw [signed, if_neg hn] <;> omega

theorem set_quotient_eq_iff (g : Gprs) {w : Nat} (hw : w = 1 ∨ w = 2 ∨ w = 4) (q r q' r' : Int) :
    g.set_quotient w q r = g.set_quotient w q' r' ↔
      q ≡ q' [ZMOD 256 ^ w] ∧ r ≡ r' [ZMOD 256 ^ w] := by
  have hbits : 8 * w ≤ 32 := by omega
  have hpow : (256 : Int) ^ w = 2 ^ (8 * w) := by rw [pow_mul]; rfl
  have hne : remainder_reg w ≠ EAX := by
    unfold remainder_reg
    split <;> decide
  rw [hpow, ← field_ofInt_eq_iff q q' hbits, ← field_ofInt_eq_iff r r' hbits]
  constructor
  · intro h
    have hquot := congrArg (fun u : Gprs => u.part w EAX) h
    have hrem := congrArg (fun u : Gprs => u.part w (remainder_reg w)) h
    simp only [Gprs.set_quotient, part_set_part_ne _ hw hne, part_set_part _ hw] at hquot hrem
    exact ⟨hquot, hrem⟩
  · intro ⟨hquot, hrem⟩
    have hfirst := (set_part_eq_iff g hw EAX _ _).mpr hquot
    unfold Gprs.set_quotient
    rw [hfirst]
    exact (set_part_eq_iff _ hw _ _ _).mpr hrem

/-- A number of twice the width. -/
theorem set_wide_eq_iff (g : Gprs) {w : Nat} (hw : w = 1 ∨ w = 2) (m n : Int) :
    g.set_wide w m = g.set_wide w n ↔ m ≡ n [ZMOD 256 ^ w * 256 ^ w] := by
  rcases hw with rfl | rfl
  · show g.set_part 2 EAX _ = g.set_part 2 EAX _ ↔ _
    rw [set_part_eq_iff g (.inr (.inl rfl)), field_ofInt_eq_iff m n (by decide)]
    rfl
  · show g.set_quotient 2 m (m / 65536) = g.set_quotient 2 n (n / 65536) ↔ _
    rw [set_quotient_eq_iff g (.inr (.inl rfl))]
    show m % 65536 = n % 65536 ∧ m / 65536 % 65536 = n / 65536 % 65536 ↔
      m % (65536 * 65536) = n % (65536 * 65536)
    omega

/-! ## Section 6: MOV -/

/-- Change what is at a place. -/
def Place.write (w : Nat) (g : Gprs) (m : Store) (x : BitVec 32) : Place → Gprs × Store
  | .reg r => (g.set_part w r x, m)
  | .mem a => (g, store m a.toNat x.toNat w)

/-- A place in memory ends inside its first `size` bytes. -/
def Place.Inside (size w : Nat) : Place → Prop
  | .reg _ => True
  | .mem a => a.toNat + w ≤ size

/-- What is moved. -/
inductive Source where
  | place (p : Place)
  | imm (v : BitVec 32)
  deriving DecidableEq, Repr

def Source.value (w : Nat) (g : Gprs) (m : Store) : Source → BitVec 32
  | .place p => p.value w g m
  | .imm v => v

def Source.Inside (size w : Nat) : Source → Prop
  | .place p => p.Inside size w
  | .imm _ => True

/-- A decoded `MOV`. -/
structure Mov where
  length : Nat
  width  : Nat
  dst    : Place
  src    : Source
  deriving DecidableEq, Repr

inductive MovForm where
  | r_to_rm
  | rm_to_r
  | moffs_to_a
  | a_to_moffs
  | imm_to_r (r : Fin 8)
  | imm_to_rm
  deriving DecidableEq, Repr

/-- The opcodes, and whether they are about bytes. -/
def mov_form (opcode : UInt8) : Option (MovForm × Bool) :=
  match opcode.toNat with
  | 0x88 => some (.r_to_rm, true)
  | 0x89 => some (.r_to_rm, false)
  | 0x8a => some (.rm_to_r, true)
  | 0x8b => some (.rm_to_r, false)
  | 0xa0 => some (.moffs_to_a, true)
  | 0xa1 => some (.moffs_to_a, false)
  | 0xa2 => some (.a_to_moffs, true)
  | 0xa3 => some (.a_to_moffs, false)
  | 0xc6 => some (.imm_to_rm, true)
  | 0xc7 => some (.imm_to_rm, false)
  | n =>
      if 0xb0 ≤ n ∧ n < 0xc0 then some (.imm_to_r (bits3 opcode 0), decide (n < 0xb8)) else none

/-- The operands behind the opcode; `length` counts from there. -/
def MovForm.operands (form : MovForm) (w : Nat) (code : Code) (g : Gprs) : Option Mov :=
  match form with
  | .r_to_rm => some ⟨code.form_length, w, code.place g, .place (.reg code.reg)⟩
  | .rm_to_r => some ⟨code.form_length, w, .reg code.reg, .place (code.place g)⟩
  | .moffs_to_a => some ⟨4, w, .reg EAX, .place (.mem (BitVec.ofNat 32 (load code 0 4)))⟩
  | .a_to_moffs => some ⟨4, w, .mem (BitVec.ofNat 32 (load code 0 4)), .place (.reg EAX)⟩
  | .imm_to_r r => some ⟨w, w, .reg r, .imm (BitVec.ofNat 32 (load code 0 w))⟩
  | .imm_to_rm =>
      if code.reg = 0 then
        some ⟨code.form_length + w, w, code.place g,
          .imm (BitVec.ofNat 32 (load code code.form_length w))⟩
      else none

theorem operands_width {form : MovForm} {w : Nat} {code : Code} {g : Gprs} {i : Mov}
    (h : form.operands w code g = some i) : i.width = w := by
  cases form with
  | imm_to_rm =>
    by_cases hreg : code.reg = 0
    · obtain rfl := Option.some.inj ((if_pos hreg).symm.trans h)
      rfl
    · cases (if_neg hreg).symm.trans h
  | r_to_rm | rm_to_r | moffs_to_a | a_to_moffs | imm_to_r r =>
    obtain rfl := Option.some.inj h
    rfl

/-- `MOV` with operands of one byte or of `size` bytes. -/
def Code.sized_mov (size : Nat) (code : Code) (g : Gprs) : Option Mov :=
  match mov_form (code 0) with
  | some (form, byte) =>
      (form.operands (if byte then 1 else size) (code.drop 1) g).map
        fun i => { i with length := 1 + i.length }
  | none => none

/-- `MOV` with at most one operand-size prefix. -/
def Code.mov (code : Code) (g : Gprs) : Option Mov :=
  if code 0 = 0x66 then
    (Code.sized_mov 2 (code.drop 1) g).map fun i => { i with length := 1 + i.length }
  else Code.sized_mov 4 code g

end I386
