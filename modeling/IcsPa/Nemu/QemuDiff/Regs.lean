import IcsPa.Framework.Bytes
import IcsPa.Nemu.QemuDiff
import Mathlib.Data.List.GetD

/-! # The registers of the reference

    `gdb_getregs` and `gdb_setregs` of `gdb-host.c`, with the decoding of
    `protocol.c`, and the functions of `diff-test.c` that NEMU calls.

    Registers go out byte by byte and come in word by word: a word is decoded
    in the buffer of the reply, behind a NUL that takes the place of the first
    digit of the next word for a moment. -/

open CCall

namespace Nemu.QemuDiff

/-! ## Section 1: The code -/

/-- `DIFFTEST_REG_SIZE` of `isa/*/difftest/difftest.h`. -/
def DIFFTEST_REG_SIZE : Isa → Nat
  | .x86 => 4 * 9
  | .mips32 => 4 * 38
  | .riscv32 => 4 * 33
  | .riscv64 => 8 * 33

/-- `sizeof(union isa_gdb_regs)`: 77 words, and on riscv64 a multiple of 8. -/
def sizeof_regs : Isa → Nat
  | .riscv64 => 4 * 78
  | _ => 4 * 77

def isdigit (c : UInt8) : Bool := Hex.ascii '0' ≤ c && c ≤ Hex.ascii '9'

def isxdigit (c : UInt8) : Bool :=
  isdigit c || (Hex.ascii 'a' ≤ c && c ≤ Hex.ascii 'f') || (Hex.ascii 'A' ≤ c && c ≤ Hex.ascii 'F')

def tolower (c : UInt8) : UInt8 :=
  if Hex.ascii 'A' ≤ c ∧ c ≤ Hex.ascii 'Z' then c + (Hex.ascii 'a' - Hex.ascii 'A') else c

def hex_nibble (hex : UInt8) : UInt8 :=
  if isdigit hex then hex - Hex.ascii '0' else tolower hex - Hex.ascii 'a' + 10

/-- The value has 16 bits. -/
def gdb_decode_hex (msb lsb : UInt8) : Nat :=
  if !isxdigit msb || !isxdigit lsb then 0xffff
  else 16 * (hex_nibble msb).toNat + (hex_nibble lsb).toNat

/-- The loop of `gdb_decode_hex_str`, with the bytes up to the end of their
    buffer. -/
def decode_loop : List UInt8 → Nat → Nat → Except Fault Nat
  | a :: b :: bytes, value, weight =>
      if isxdigit a && isxdigit b then
        decode_loop bytes ((value + weight * gdb_decode_hex a b) % 2 ^ 64)
        (weight * (16 * 16) % 2 ^ 64)
      else .ok value
  | [a], value, _ => if isxdigit a then .error .outOfBounds else .ok value
  | [], _, _ => .error .outOfBounds

def gdb_decode_hex_str (bytes : List UInt8) : Except Fault Nat := decode_loop bytes 0 1

/-- The buffer of `recv_packet`, which has 4096 bytes or more, with a reply and
    its NUL. -/
def recv_buffer (fresh : Nat → UInt8) (reply : List UInt8) : CArray UInt8 where
  size := max 4096 (reply.length + 1)
  cell i := if i ≤ reply.length then reply.getD i 0 else fresh i

/-- `r->array[i] = v` -/
def write_word (r : CArray UInt8) (i v : Nat) : Except Fault (CArray UInt8) :=
  if 4 * i + 4 ≤ r.size then .ok { r with cell := Bytes.store r.cell (4 * i) v 4 }
  else .error .outOfBounds

/-- The body of the loop of `gdb_getregs`, where `p` is `reply + 8 * i`. -/
def get_word (i : Nat) (s : CArray UInt8 × CArray UInt8) :
    Except Fault (CArray UInt8 × CArray UInt8) := do
  let (reply, r) := s
  let p := 8 * i
  let c ← reply.read ((p + 8 : Nat) : Int)
  let reply ← reply.write ((p + 8 : Nat) : Int) 0
  let v ← gdb_decode_hex_str (reply.slice p (reply.size - p))
  let r ← write_word r i v
  let reply ← reply.write ((p + 8 : Nat) : Int) c
  return (reply, r)

section client
variable {σ : Type} (P : Peer σ) (isa : Isa)

def gdb_getregs (r : CArray UInt8) (c : Conn σ) : Except Fault (CArray UInt8 × Conn σ) := do
  let buffer := recv_buffer (P.fresh c.stub)
  let (c, reply) := exchange P (Hex.text ['g']) c
  let (_, r) ← (List.range (sizeof_regs isa / 4)).foldlM (fun s i => get_word i s) (buffer reply, r)
  return (r, c)

def gdb_setregs (r : CArray UInt8) (c : Conn σ) : Except Fault (Bool × Conn σ) := do
  let len := sizeof_regs isa
  let size ← malloc ((len * 2 + 128 : Nat) : Int)
  let buf ← sprintf size [] (Hex.text ['G'])
  let buf ← append_hex size r 0 len buf
  let (c, reply) := exchange P (c_string buf) c
  return (answered_ok reply, c)

/-- `union isa_gdb_regs qemu_r;` -/
def qemu_r (c : Conn σ) : CArray UInt8 := ⟨sizeof_regs isa, P.fresh c.stub⟩

def difftest_getregs (r : CArray UInt8) (c : Conn σ) : Except Fault (CArray UInt8 × Conn σ) := do
  let (regs, c) ← gdb_getregs P isa (qemu_r P isa c) c
  let r ← CArray.memcpy r 0 regs 0 (DIFFTEST_REG_SIZE isa)
  return (r, c)

def difftest_setregs (r : CArray UInt8) (c : Conn σ) : Except Fault (Conn σ) := do
  let (regs, c) ← gdb_getregs P isa (qemu_r P isa c) c
  let regs ← CArray.memcpy regs 0 r 0 (DIFFTEST_REG_SIZE isa)
  let (_, c) ← gdb_setregs P isa regs c
  return c

end client

/-! ## Section 2: The register file of the stub -/

/-- The file after a `G` packet with some bytes; its length stays. -/
def overlay (data regs : List UInt8) : List UInt8 :=
  data.take regs.length ++ regs.drop data.length

/-- A stub that stores the bytes of a `G` packet, and returns them in the reply
    to `g`. -/
structure RegStub (σ : Type) extends Peer σ where
  regs    : σ → List UInt8
  stores  : ∀ s data, regs (answer s (Hex.ascii 'G' :: Hex.encode data)).1 = overlay data (regs s)
  replies : ∀ s, (answer s (Hex.text ['g'])).2 = Hex.encode (regs s)
  keeps   : ∀ s, regs (answer s (Hex.text ['g'])).1 = regs s

/-! ## Section 3: Decoding -/

/-- The little-endian number of some bytes. -/
def le_num : List UInt8 → Nat
  | [] => 0
  | b :: bytes => b.toNat + 256 * le_num bytes

/-- The bytes of the number are the bytes. -/
theorem byte_le_num {bytes : List UInt8} {j : Nat} (hj : j < bytes.length) :
    UInt8.ofNat (le_num bytes / 256 ^ j) = bytes.getD j 0 := by
  induction bytes generalizing j with
  | nil => exact absurd hj (Nat.not_lt_zero j)
  | cons b bytes ih =>
    have hb := b.toNat_lt
    cases j with
    | zero =>
      apply UInt8.toNat_inj.mp
      rw [UInt8.toNat_ofNat', le_num, List.getD_cons_zero, Nat.pow_zero, Nat.div_one]
      omega
    | succ j =>
      have hdiv : le_num (b :: bytes) / 256 = le_num bytes := by
        rw [le_num]
        omega
      rw [Nat.pow_succ', ← Nat.div_div_eq_div_mul, hdiv, List.getD_cons_succ]
      exact ih (by simpa using hj)

theorem decode_digits {d e : Nat} (hd : d < 16) (he : e < 16) :
    isxdigit (Hex.digit d) = true ∧ isxdigit (Hex.digit e) = true ∧
      gdb_decode_hex (Hex.digit d) (Hex.digit e) = 16 * d + e := by
  have hall : ∀ d < 16, isxdigit (Hex.digit d) = true ∧ (hex_nibble (Hex.digit d)).toNat = d := by
    decide
  obtain ⟨hd₁, hd₂⟩ := hall d hd
  obtain ⟨he₁, he₂⟩ := hall e he
  refine ⟨hd₁, he₁, ?_⟩
  unfold gdb_decode_hex
  rw [hd₁, he₁, hd₂, he₂]
  rfl

theorem decode_loop_stop (rest : List UInt8) (value weight : Nat) :
    decode_loop (0 :: rest) value weight = .ok value := by
  cases rest with
  | nil => rfl
  | cons b rest => rfl

/-- Bytes in hex in front of a NUL are decoded to their number. -/
theorem decode_loop_encode {bytes rest : List UInt8} {value n : Nat}
    (hvalue : value < 256 ^ n) (hn : n + bytes.length ≤ 4) :
    decode_loop (Hex.encode bytes ++ 0 :: rest) value (256 ^ n) =
      .ok (value + 256 ^ n * le_num bytes) := by
  induction bytes generalizing value n with
  | nil =>
    show decode_loop (0 :: rest) value (256 ^ n) = _
    rw [decode_loop_stop, le_num, Nat.mul_zero, Nat.add_zero]
  | cons b bytes ih =>
    obtain ⟨hhi, hlo, -⟩ := Hex.byte_halves b
    obtain ⟨hx, hy, hpair⟩ := decode_digits hhi hlo
    rw [Nat.div_add_mod] at hpair
    have hb := b.toNat_lt
    have hn' : n + 1 + bytes.length ≤ 4 := by
      rw [List.length_cons] at hn
      omega
    have hpow : (256 : Nat) ^ (n + 1) ≤ 256 ^ 4 := Nat.pow_le_pow_right (by decide) (by omega)
    -- The number of four bytes stays below 2^32, so nothing wraps in 64 bits.
    have hnext : value + 256 ^ n * b.toNat < 256 ^ (n + 1) := by
      have hmul : 256 ^ n * b.toNat ≤ 256 ^ n * 255 := Nat.mul_le_mul_left _ (by omega)
      rw [Nat.pow_succ]
      omega
    have hsmall : (256 : Nat) ^ 4 < 2 ^ 64 := by decide
    show decode_loop (Hex.digit (b.toNat / 16) :: Hex.digit (b.toNat % 16) ::
      (Hex.encode bytes ++ 0 :: rest)) value (256 ^ n) = _
    rw [decode_loop, hx, hy, hpair, if_pos (by rfl), Nat.mod_eq_of_lt (by omega),
      show 16 * 16 = 256 by rfl, ← Nat.pow_succ, Nat.mod_eq_of_lt (by omega), ih hnext hn', le_num]
    congr 1
    rw [Nat.pow_succ, Nat.mul_add, Nat.mul_assoc, Nat.add_assoc]

/-- Whatever stands in front of a NUL, the loop ends there at the latest. -/
theorem decode_loop_total {l : List UInt8} {k : Nat} (hl : l.length = 2 * k) (rest : List UInt8)
    (value weight : Nat) : ∃ v, decode_loop (l ++ 0 :: rest) value weight = .ok v := by
  induction k generalizing l value weight with
  | zero =>
    rw [List.eq_nil_of_length_eq_zero hl]
    exact ⟨value, decode_loop_stop rest value weight⟩
  | succ k ih =>
    -- Each turn takes two characters or stops.
    match l, hl with
    | a :: b :: l, hl =>
      rw [List.cons_append, List.cons_append, decode_loop]
      split
      · exact ih (by simpa [Nat.mul_add] using hl) _ _
      · exact ⟨value, rfl⟩

/-! ## Section 4: One word -/

section word
variable {fresh : Nat → UInt8} {regs : List UInt8} {r : CArray UInt8}

/-- The reply to `g` in its buffer. -/
def g_buffer (fresh : Nat → UInt8) (regs : List UInt8) : CArray UInt8 :=
  recv_buffer fresh (Hex.encode regs)

theorem g_buffer_size : 4096 ≤ (g_buffer fresh regs).size := Nat.le_max_left _ _

/-- The buffer with a NUL for a moment. -/
def with_nul (a : CArray UInt8) (x : Nat) : CArray UInt8 :=
  { a with cell := Function.update a.cell x 0 }

/-- The digits of the registers from `4 * i` on. -/
theorem slice_with_nul {i k : Nat} (hk : k ≤ 4) (hfit : 4 * i + k ≤ regs.length) :
    (with_nul (g_buffer fresh regs) (8 * i + 8)).slice (8 * i) (2 * k) =
      Hex.encode ((regs.drop (4 * i)).take k) := by
  have hlen : (Hex.encode regs).length = 2 * regs.length := Hex.length_encode regs
  rw [← Hex.take_encode, ← Hex.drop_encode, ← Nat.mul_assoc]
  apply List.ext_getElem
  · simp only [CArray.length_slice, List.length_take, List.length_drop, hlen]
    omega
  · intro j h₁ h₂
    rw [CArray.length_slice] at h₁
    -- The NUL stands behind the word.
    have hne : 8 * i + j ≠ 8 * i + 8 := by omega
    have hin : 8 * i + j ≤ (Hex.encode regs).length := by omega
    have hget : 8 * i + j < (Hex.encode regs).length := by omega
    simp only [CArray.slice, with_nul, List.getElem_map, List.getElem_range, List.getElem_take,
      List.getElem_drop]
    rw [Function.update_of_ne hne]
    show (if 8 * i + j ≤ (Hex.encode regs).length then (Hex.encode regs).getD (8 * i + j) 0
      else fresh (8 * i + j)) = _
    rw [if_pos hin, List.getD_eq_getElem _ _ hget]

/-- Behind the digits of a word, or of what there is of it, stands a NUL. -/
theorem with_nul_stop {i k : Nat} (h : k = 4 ∨ k < 4 ∧ 4 * i + k = regs.length) :
    (with_nul (g_buffer fresh regs) (8 * i + 8)).cell (8 * i + 2 * k) = 0 := by
  rcases h with rfl | ⟨hk, hend⟩
  · exact Function.update_self _ _ _
  · have hlen : (Hex.encode regs).length = 2 * regs.length := Hex.length_encode regs
    -- The NUL is the one behind the reply.
    have hne : 8 * i + 2 * k ≠ 8 * i + 8 := by omega
    have hnul : 8 * i + 2 * k = (Hex.encode regs).length := by omega
    show Function.update (g_buffer fresh regs).cell (8 * i + 8) 0 (8 * i + 2 * k) = 0
    rw [Function.update_of_ne hne, hnul]
    show (if (Hex.encode regs).length ≤ (Hex.encode regs).length then
      (Hex.encode regs).getD (Hex.encode regs).length 0 else fresh _) = 0
    rw [if_pos (Nat.le_refl _)]
    exact List.getD_eq_default _ _ (Nat.le_refl _)

/-- The rest of an array in front of and behind a NUL. -/
theorem slice_nul {a : CArray UInt8} {p n : Nat} (hnul : a.cell (p + n) = 0)
    (hfit : p + n < a.size) :
    ∃ rest, a.slice p (a.size - p) = a.slice p n ++ 0 :: rest := by
  have hlen : a.size - p = n + (1 + (a.size - p - n - 1)) := by omega
  have hone : a.slice (p + n) 1 = [0] := by
    show [a.cell (p + n + 0)] = [0]
    rw [Nat.add_zero, hnul]
  rw [hlen, CArray.slice_add, CArray.slice_add, hone]
  exact ⟨_, rfl⟩

/-- Every word is decoded, to the registers of the stub as far as it has them. -/
theorem decode_word {i : Nat} (hi : 8 * i + 8 < 4096) :
    ∃ v, gdb_decode_hex_str ((with_nul (g_buffer fresh regs) (8 * i + 8)).slice (8 * i)
        ((g_buffer fresh regs).size - 8 * i)) = .ok v ∧
      ∀ j < 4, 4 * i + j < regs.length → UInt8.ofNat (v / 256 ^ j) = regs.getD (4 * i + j) 0 := by
  have hsize : 4096 ≤ (g_buffer fresh regs).size := g_buffer_size
  by_cases hhas : 4 * i ≤ regs.length
  · -- The digits end at the NUL behind the word or at the end of the reply.
    let k := min 4 (regs.length - 4 * i)
    have hk : k ≤ 4 := Nat.min_le_left _ _
    have hstop : k = 4 ∨ k < 4 ∧ 4 * i + k = regs.length := by omega
    have hlen : ((regs.drop (4 * i)).take k).length = k := by
      rw [List.length_take, List.length_drop]
      omega
    obtain ⟨rest, hrest⟩ := slice_nul (a := with_nul (g_buffer fresh regs) (8 * i + 8))
      (with_nul_stop hstop) (show 8 * i + 2 * k < (g_buffer fresh regs).size by omega)
    have hdecode : gdb_decode_hex_str (Hex.encode ((regs.drop (4 * i)).take k) ++ 0 :: rest) =
        .ok (0 + 256 ^ 0 * le_num ((regs.drop (4 * i)).take k)) :=
      decode_loop_encode (n := 0) Nat.one_pos (by rw [hlen]; omega)
    refine ⟨_, (congrArg _ (hrest.trans ?_)).trans hdecode, ?_⟩
    · rw [slice_with_nul hk (by omega)]
    · intro j hj hin
      rw [Nat.pow_zero, Nat.one_mul, Nat.zero_add, byte_le_num (by rw [hlen]; omega)]
      have htake : j < ((regs.drop (4 * i)).take k).length := by rw [hlen]; omega
      rw [List.getD_eq_getElem _ _ htake, List.getD_eq_getElem _ _ hin, List.getElem_take,
        List.getElem_drop]
  · -- The word lies behind the reply.
    have hnul : (with_nul (g_buffer fresh regs) (8 * i + 8)).cell (8 * i + 8) = 0 :=
      Function.update_self _ _ _
    obtain ⟨rest, hrest⟩ := slice_nul hnul (show 8 * i + 8 < (g_buffer fresh regs).size by omega)
    have hfront : ((with_nul (g_buffer fresh regs) (8 * i + 8)).slice (8 * i) 8).length = 2 * 4 :=
      CArray.length_slice _ _ _
    obtain ⟨v, hv⟩ := decode_loop_total hfront rest 0 1
    exact ⟨v, (congrArg _ hrest).trans hv, fun j _ hin => by omega⟩

/-- Step lemma: a turn of the loop stores a word and leaves the buffer as it
    was. -/
theorem get_word_eq {i : Nat} (hi : 8 * i + 8 < 4096) (hr : 4 * i + 4 ≤ r.size) :
    ∃ v, get_word i (g_buffer fresh regs, r) =
        .ok (g_buffer fresh regs, { r with cell := Bytes.store r.cell (4 * i) v 4 }) ∧
      ∀ j < 4, 4 * i + j < regs.length → UInt8.ofNat (v / 256 ^ j) = regs.getD (4 * i + j) 0 := by
  have hsize : 4096 ≤ (g_buffer fresh regs).size := g_buffer_size
  have hp : 8 * i + 8 < (g_buffer fresh regs).size := by omega
  have hp' : 8 * i + 8 < (with_nul (g_buffer fresh regs) (8 * i + 8)).size := hp
  obtain ⟨v, hv, hbytes⟩ := @decode_word fresh regs i hi
  refine ⟨v, ?_, hbytes⟩
  have hword : write_word r i v = .ok { r with cell := Bytes.store r.cell (4 * i) v 4 } := if_pos hr
  -- The character under the NUL is put back.
  have hback : (with_nul (g_buffer fresh regs) (8 * i + 8)).write ((8 * i + 8 : Nat) : Int)
      ((g_buffer fresh regs).cell (8 * i + 8)) = .ok (g_buffer fresh regs) := by
    rw [CArray.write_ok hp']
    unfold with_nul
    dsimp only
    rw [Function.update_idem, Function.update_eq_self]
  unfold get_word
  dsimp only
  rw [CArray.read_ok hp, ok_bind, CArray.write_ok hp, ok_bind]
  show (gdb_decode_hex_str ((with_nul (g_buffer fresh regs) (8 * i + 8)).slice (8 * i)
    ((g_buffer fresh regs).size - 8 * i)) >>= _) = _
  rw [hv, ok_bind, hword, ok_bind]
  show ((with_nul (g_buffer fresh regs) (8 * i + 8)).write _ _ >>= _) = _
  rw [hback]
  rfl

/-- Run lemma: after `n` words the first `4 * n` bytes are the registers of the
    stub, as far as it has them. -/
theorem get_words {n : Nat} (hn : 8 * n < 4096) (hr : 4 * n ≤ r.size) :
    ∃ r', (List.range n).foldlM (fun s i => get_word i s) (g_buffer fresh regs, r) =
        .ok (g_buffer fresh regs, r') ∧ r'.size = r.size ∧
      ∀ j < 4 * n, j < regs.length → r'.cell j = regs.getD j 0 := by
  induction n with
  | zero => exact ⟨r, rfl, rfl, fun j hj => absurd hj (Nat.not_lt_zero j)⟩
  | succ n ih =>
    obtain ⟨r₁, hloop, hsize, hbytes⟩ := ih (by omega) (by omega)
    obtain ⟨v, hword, hv⟩ := @get_word_eq fresh regs r₁ n (by omega) (by omega)
    refine ⟨{ r₁ with cell := Bytes.store r₁.cell (4 * n) v 4 }, ?_, hsize, ?_⟩
    · rw [foldlM_range_succ, hloop, ok_bind, hword]
    · intro j hj hin
      show Bytes.store r₁.cell (4 * n) v 4 j = _
      -- Bytes of earlier words, and bytes of this one.
      by_cases hold : j < 4 * n
      · rw [Bytes.store_outside (Or.inl hold)]
        exact hbytes j hold hin
      · have hj' := hv (j - 4 * n) (by omega) (by omega)
        rw [Bytes.store_inside (by omega) (by omega), hj', Nat.add_sub_cancel' (by omega)]

end word

/-! ## Section 5: The register file and back -/

section regs
variable {σ : Type} {S : RegStub σ} {isa : Isa} {c : Conn σ}

theorem sizeof_regs_words (isa : Isa) : 4 * (sizeof_regs isa / 4) = sizeof_regs isa ∧
    sizeof_regs isa ≤ 312 ∧ DIFFTEST_REG_SIZE isa ≤ sizeof_regs isa := by
  cases isa <;> decide

/-- What `gdb_getregs` reads are the registers of the stub, as far as it has
    them. -/
theorem gdb_getregs_eq : ∃ r c', gdb_getregs S.toPeer isa (qemu_r S.toPeer isa c) c = .ok (r, c') ∧
    r.size = sizeof_regs isa ∧ S.regs c'.stub = S.regs c.stub ∧
    ∀ j < sizeof_regs isa, j < (S.regs c.stub).length → r.cell j = (S.regs c.stub).getD j 0 := by
  obtain ⟨hwords, hsmall, -⟩ := sizeof_regs_words isa
  obtain ⟨r, hloop, hsize, hbytes⟩ := @get_words (S.fresh c.stub) (S.regs c.stub)
    (qemu_r S.toPeer isa c) (sizeof_regs isa / 4) (by omega) (Nat.le_of_eq hwords)
  refine ⟨r, (exchange S.toPeer (Hex.text ['g']) c).1, ?_, hsize, S.keeps c.stub, ?_⟩
  · unfold gdb_getregs exchange
    dsimp only
    rw [S.replies c.stub]
    show ((List.range (sizeof_regs isa / 4)).foldlM (fun s i => get_word i s)
      (g_buffer (S.fresh c.stub) (S.regs c.stub), qemu_r S.toPeer isa c) >>= _) = _
    rw [hloop]
    rfl
  · rwa [hwords] at hbytes

/-- `gdb_setregs` puts its bytes over those of the stub. -/
theorem gdb_setregs_eq {r : CArray UInt8} (hr : sizeof_regs isa ≤ r.size) :
    ∃ ok c', gdb_setregs S.toPeer isa r c = .ok (ok, c') ∧
      S.regs c'.stub = overlay (r.slice 0 (sizeof_regs isa)) (S.regs c.stub) := by
  let p := Hex.ascii 'G' :: Hex.encode (r.slice 0 (sizeof_regs isa))
  have hmalloc : malloc ((sizeof_regs isa * 2 + 128 : Nat) : Int) = .ok
      (sizeof_regs isa * 2 + 128) :=
    if_pos (Int.natCast_nonneg _)
  have hG : sprintf (sizeof_regs isa * 2 + 128) [] (Hex.text ['G']) = .ok (Hex.text ['G']) := by
    apply if_pos
    show 1 < sizeof_regs isa * 2 + 128
    omega
  have hhex : append_hex (sizeof_regs isa * 2 + 128) r 0 (sizeof_regs isa)
      (Hex.text ['G']) = .ok p := by
    apply append_hex_eq (by omega)
    show 1 + 2 * sizeof_regs isa < sizeof_regs isa * 2 + 128
    omega
  have htext : c_string p = p := by
    apply c_string_eq
    intro d hd
    rcases List.mem_cons.mp hd with rfl | hd
    · decide
    · exact Hex.encode_ne (by decide) _ d hd
  refine ⟨answered_ok (S.answer c.stub p).2, (exchange S.toPeer p c).1, ?_, S.stores c.stub _⟩
  unfold gdb_setregs
  dsimp only
  rw [hmalloc, ok_bind, hG, ok_bind, hhex, ok_bind, htext]
  rfl

/-- The bytes of the other registers come from the stub and go back to it. -/
theorem overlay_eq {regs : List UInt8} {r q : CArray UInt8} {d n : Nat} (hd : d ≤ regs.length)
    (hdn : d ≤ n) (hin : ∀ j < d, q.cell j = r.cell j)
    (hout : ∀ j < n, d ≤ j → j < regs.length → q.cell j = regs.getD j 0) :
    overlay (q.slice 0 n) regs = r.slice 0 d ++ regs.drop d := by
  apply List.ext_getElem
  · simp only [overlay, List.length_append, List.length_take, List.length_drop, CArray.length_slice]
    omega
  · intro j h₁ h₂
    have hj : j < regs.length := by
      simp only [List.length_append, List.length_drop, CArray.length_slice] at h₂
      omega
    unfold overlay
    simp only [CArray.slice, List.getElem_append, List.length_take, List.length_map,
      List.length_range, List.getElem_take, List.getElem_map, List.getElem_range, List.getElem_drop,
      Nat.zero_add]
    -- Bytes that the caller set, bytes read from the stub, and bytes behind these.
    by_cases hjd : j < d
    · rw [dif_pos (by omega), dif_pos hjd]
      exact hin j hjd
    · rw [dif_neg hjd]
      have hget : regs.getD j 0 = regs[d + (j - d)] := by
        rw [List.getD_eq_getElem _ _ hj]
        congr 1
        omega
      by_cases hjn : j < n
      · rw [dif_pos (by omega), hout j hjn (by omega) hj, hget]
      · rw [dif_neg (by omega), ← hget, List.getD_eq_getElem _ _ hj]
        congr 1
        omega

/-- What `difftest_setregs` leaves in the stub. -/
theorem difftest_setregs_eq {r : CArray UInt8} (hr : DIFFTEST_REG_SIZE isa ≤ r.size)
    (hregs : DIFFTEST_REG_SIZE isa ≤ (S.regs c.stub).length) :
    ∃ c', difftest_setregs S.toPeer isa r c = .ok c' ∧
      S.regs c'.stub =
        r.slice 0 (DIFFTEST_REG_SIZE isa) ++ (S.regs c.stub).drop (DIFFTEST_REG_SIZE isa) := by
  obtain ⟨-, -, hsize⟩ := sizeof_regs_words isa
  obtain ⟨q, c₁, hget, hq, hkeep, hbytes⟩ := @gdb_getregs_eq σ S isa c
  -- The first registers are overwritten in what was read.
  have hcopy : CArray.memcpy q 0 r 0 (DIFFTEST_REG_SIZE isa) =
      .ok (q.copied 0 r 0 (DIFFTEST_REG_SIZE isa)) :=
    CArray.memcpy_ok (d := 0) (s := 0) (by omega) (by omega)
  obtain ⟨ok, c₂, hset, hstub⟩ := @gdb_setregs_eq σ S isa c₁
    (q.copied 0 r 0 (DIFFTEST_REG_SIZE isa)) (Nat.le_of_eq hq.symm)
  refine ⟨c₂, ?_, ?_⟩
  · unfold difftest_setregs
    rw [hget, ok_bind]
    dsimp only
    rw [hcopy, ok_bind, hset]
    rfl
  · rw [hstub, hkeep]
    apply overlay_eq hregs hsize
    · intro j hj
      rw [CArray.copied_inside (Nat.zero_le j) (by omega), Nat.zero_add, Nat.sub_zero]
    · intro j hj hout hin
      rw [CArray.copied_outside (Or.inr (by omega))]
      exact hbytes j hj hin

/-- What `difftest_getregs` reads. -/
theorem difftest_getregs_eq {r : CArray UInt8} (hr : DIFFTEST_REG_SIZE isa ≤ r.size)
    (hregs : DIFFTEST_REG_SIZE isa ≤ (S.regs c.stub).length) :
    ∃ r' c', difftest_getregs S.toPeer isa r c = .ok (r', c') ∧ S.regs c'.stub = S.regs c.stub ∧
      r'.slice 0 (DIFFTEST_REG_SIZE isa) = (S.regs c.stub).take (DIFFTEST_REG_SIZE isa) := by
  obtain ⟨-, -, hsize⟩ := sizeof_regs_words isa
  obtain ⟨q, c₁, hget, hq, hkeep, hbytes⟩ := @gdb_getregs_eq σ S isa c
  have hcopy : CArray.memcpy r 0 q 0 (DIFFTEST_REG_SIZE isa) =
      .ok (r.copied 0 q 0 (DIFFTEST_REG_SIZE isa)) :=
    CArray.memcpy_ok (d := 0) (s := 0) (by omega) (by omega)
  refine ⟨r.copied 0 q 0 (DIFFTEST_REG_SIZE isa), c₁, ?_, hkeep, ?_⟩
  · unfold difftest_getregs
    rw [hget, ok_bind]
    dsimp only
    rw [hcopy]
    rfl
  · rw [CArray.slice_copied]
    apply List.ext_getElem
    · rw [CArray.length_slice, List.length_take]
      omega
    · intro j h₁ h₂
      have hj : j < DIFFTEST_REG_SIZE isa := by simpa using h₁
      have hin : j < (S.regs c.stub).length := by omega
      simp only [CArray.slice, List.getElem_map, List.getElem_range, List.getElem_take]
      rw [Nat.zero_add, hbytes j (by omega) hin, List.getD_eq_getElem _ _ hin]

end regs

/-- Registers that are set are what is read back, and the stub keeps all its
    others. -/
theorem difftest_regs_roundtrip {σ : Type} (S : RegStub σ) (isa : Isa) (r dst : CArray UInt8)
    (c : Conn σ) (hr : DIFFTEST_REG_SIZE isa ≤ r.size) (hdst : DIFFTEST_REG_SIZE isa ≤ dst.size)
    (hregs : DIFFTEST_REG_SIZE isa ≤ (S.regs c.stub).length) :
    ∃ c₁, difftest_setregs S.toPeer isa r c = .ok c₁ ∧
      (S.regs c₁.stub).drop (DIFFTEST_REG_SIZE isa) =
        (S.regs c.stub).drop (DIFFTEST_REG_SIZE isa) ∧
      ∃ dst' c₂, difftest_getregs S.toPeer isa dst c₁ = .ok (dst', c₂) ∧
        dst'.slice 0 (DIFFTEST_REG_SIZE isa) = r.slice 0 (DIFFTEST_REG_SIZE isa) ∧
        S.regs c₂.stub = S.regs c₁.stub := by
  obtain ⟨c₁, hset, hstub⟩ := difftest_setregs_eq hr hregs
  have hlen : (r.slice 0 (DIFFTEST_REG_SIZE isa)).length = DIFFTEST_REG_SIZE isa :=
    CArray.length_slice r 0 _
  have hregs₁ : DIFFTEST_REG_SIZE isa ≤ (S.regs c₁.stub).length := by
    rw [hstub, List.length_append, hlen]
    omega
  obtain ⟨dst', c₂, hget, hkeep, hread⟩ := difftest_getregs_eq hdst hregs₁
  refine ⟨c₁, hset, ?_, dst', c₂, hget, ?_, hkeep⟩
  -- What was set comes first and has the length of what is read.
  · rw [hstub, List.drop_append_of_le_length (by omega), List.drop_of_length_le (by omega),
      List.nil_append]
  · rw [hread, hstub, List.take_append_of_le_length (by omega), List.take_of_length_le (by omega)]

/-- A stub that is its register file. -/
def plain_regs : RegStub (List UInt8) where
  answer regs p :=
    if p.head? = some (Hex.ascii 'G') then
      match Hex.decode p.tail with
      | some data => (overlay data regs, Hex.text ['O', 'K'])
      | none => (regs, Hex.text ['E', '2', '2'])
    else (regs, Hex.encode regs)
  fresh _ _ := 0xcc
  regs s := s
  stores := by
    intro s data
    rw [List.head?_cons, if_pos rfl, List.tail_cons, Hex.decode_encode]
  replies := fun _ => rfl
  keeps := fun _ => rfl

/-- A file of 16 registers, as that of i386 has them. -/
theorem regs_roundtrip_x86 :
    let r : CArray UInt8 := ⟨36, fun i => UInt8.ofNat (3 * i)⟩
    let c : Conn (List UInt8) := ⟨List.replicate 64 0x5a, []⟩
    ∃ c₁, difftest_setregs plain_regs.toPeer .x86 r c = .ok c₁ ∧
      (plain_regs.regs c₁.stub).drop 36 = (plain_regs.regs c.stub).drop 36 ∧
      ∃ dst' c₂, difftest_getregs plain_regs.toPeer .x86 ⟨36, fun _ => 0⟩ c₁ = .ok (dst', c₂) ∧
        dst'.slice 0 36 = r.slice 0 36 ∧ plain_regs.regs c₂.stub = plain_regs.regs c₁.stub := by
  intro r c
  exact difftest_regs_roundtrip plain_regs .x86 r ⟨36, fun _ => 0⟩ c (by decide) (by decide)
    (by decide)

end Nemu.QemuDiff
