import IcsPa.Framework.CArray
import IcsPa.Framework.Hex
import IcsPa.Nemu.Common
import Mathlib.Data.List.TakeWhile

/-! # The gdb client of the reference

    `tools/qemu-diff/src/gdb-host.c` with the hex digits of `protocol.c`.  The
    client sends a packet, the stub of QEMU answers it, and the text that the
    client reads of the answer ends at its NUL.  Frames, checksums and
    acknowledgements belong to the line below and are not modelled.

    `gdb_memcpy_to_qemu` cuts a copy into packets of the form
    `M0x<addr>,<length>:<hex>` of at most 1500 bytes. -/

open CCall

namespace Nemu.QemuDiff

/-! ## Section 1: The line to the stub -/

/-- A stub with states `σ`.  `answer` is what it does with a packet and what
    it replies; `fresh` is what `malloc` leaves in a buffer. -/
structure Peer (σ : Type) where
  answer : σ → List UInt8 → σ × List UInt8
  fresh  : σ → Nat → UInt8

/-- The stub and the packets so far, each with its reply. -/
structure Conn (σ : Type) where
  stub : σ
  log  : List (List UInt8 × List UInt8)

section client
variable {σ : Type}

/-- `gdb_send(conn, p, strlen(p)); reply = gdb_recv(conn, &size);` -/
def exchange (P : Peer σ) (p : List UInt8) (c : Conn σ) : Conn σ × List UInt8 :=
  (⟨(P.answer c.stub p).1, c.log ++ [(p, (P.answer c.stub p).2)]⟩, (P.answer c.stub p).2)

/-- The text in a buffer, up to its NUL. -/
def c_string (buf : List UInt8) : List UInt8 := buf.takeWhile (· ≠ 0)

/-- `!strcmp((const char *)reply, "OK")` -/
def answered_ok (reply : List UInt8) : Bool := c_string reply = Hex.text ['O', 'K']

/-! ## Section 2: Packets of hex digits -/

def hex_encode (digit : UInt8) : UInt8 :=
  if 9 < digit then Hex.ascii 'a' + digit - 10 else Hex.ascii '0' + digit

/-- `malloc(n)` for an `int`; a negative size is too large to be served. -/
def malloc (n : Int) : Except Fault Nat := if 0 ≤ n then .ok n.toNat else .error .assertion

/-- `p += sprintf(buf + p, ..)`, where the text so far ends at `p`. -/
def sprintf (size : Nat) (buf s : List UInt8) : Except Fault (List UInt8) :=
  if buf.length + s.length < size then .ok (buf ++ s) else .error .outOfBounds

/-- The loop that writes the bytes `src[off..off+len)` in hex. -/
def append_hex (size : Nat) (src : CArray UInt8) (off len : Nat) (buf : List UInt8) :
    Except Fault (List UInt8) :=
  (List.range len).foldlM (fun buf i => do
    let b ← src.read ((off + i : Nat) : Int)
    sprintf size buf [hex_encode (b >>> 4), hex_encode (b &&& 0xf)]) buf

/-- `sprintf(buf, "M0x%x,%x:", dest, len)` -/
def m_header (dest : UInt32) (len : Int) : List UInt8 :=
  Hex.text ['M', '0', 'x'] ++ Hex.print dest.toNat ++ Hex.text [','] ++
    Hex.print (len % 2 ^ 32).toNat ++ Hex.text [':']

/-- The source is `src + off`. -/
def gdb_memcpy_to_qemu_small (P : Peer σ) (dest : UInt32) (src : CArray UInt8) (off : Nat)
    (len : Int) (c : Conn σ) : Except Fault (Bool × Conn σ) := do
  let size ← malloc (len * 2 + 128)
  let buf ← sprintf size [] (m_header dest len)
  let buf ← append_hex size src off len.toNat buf
  let (c, reply) := exchange P (c_string buf) c
  return (answered_ok reply, c)

def mtu : Nat := 1500

/-- The loop of `gdb_memcpy_to_qemu` with the packet behind it, for at most
    `n` packets. -/
def memcpy_loop (P : Peer σ) (src : CArray UInt8) :
    Nat → UInt32 → Nat → Int → Bool → Conn σ → Except Fault (Bool × Conn σ)
  | 0, _, _, _, _, _ => .error .diverges
  | n + 1, dest, off, len, ok, c =>
      if len > mtu then do
        let (r, c) ← gdb_memcpy_to_qemu_small P dest src off mtu c
        memcpy_loop P src n (dest + 1500) (off + mtu) (len - mtu) (ok && r) c
      else do
        let (r, c) ← gdb_memcpy_to_qemu_small P dest src off len c
        return (ok && r, c)

def gdb_memcpy_to_qemu (P : Peer σ) (dest : UInt32) (src : CArray UInt8) (len : Int) (c : Conn σ) :
    Except Fault (Bool × Conn σ) :=
  memcpy_loop P src (len.toNat + 1) dest 0 len true c

/-! ## Section 3: What a stub reads -/

/-- A write of some bytes from an address on. -/
structure Poke where
  addr : Nat
  data : List UInt8
  deriving DecidableEq

/-- The bytes of a write with their addresses, which have 32 bits. -/
def Poke.bytes (w : Poke) : List (Nat × UInt8) :=
  w.data.mapIdx fun i b => ((w.addr + i) % 2 ^ 32, b)

/-- The text in front of the first `c`, and the text behind it. -/
def cut (c : UInt8) (p : List UInt8) : List UInt8 × List UInt8 :=
  (p.takeWhile (· ≠ c), (p.dropWhile (· ≠ c)).drop 1)

/-- A number may stand behind `0x`. -/
def drop_0x (p : List UInt8) : List UInt8 :=
  if p.take 2 = Hex.text ['0', 'x'] then p.drop 2 else p

/-- The write that a packet `M<addr>,<length>:<hex>` asks for, if its data has
    the length that it announces. -/
def m_packet (p : List UInt8) : Option Poke :=
  if p.head? = some (Hex.ascii 'M') then do
    let (addr, p) := cut (Hex.ascii ',') p.tail
    let (len, hex) := cut (Hex.ascii ':') p
    let addr ← Hex.parse (drop_0x addr)
    let len ← Hex.parse (drop_0x len)
    let data ← Hex.decode hex
    if data.length = len then some ⟨addr, data⟩ else none
  else none

/-- The bytes that a packet writes. -/
def written (p : List UInt8) : List (Nat × UInt8) := ((m_packet p).map Poke.bytes).getD []

/-- The bytes `src[off..off+len)` with the addresses from `dest` on. -/
def bytes_to (dest : Nat) (src : CArray UInt8) (off len : Nat) : List (Nat × UInt8) :=
  (List.range len).map fun i => ((dest + i) % 2 ^ 32, src.cell (off + i))

/-- The packets of a copy with their replies, and its result. -/
structure Transfer (dest : Nat) (src : CArray UInt8) (off len : Nat)
    (packets : List (List UInt8 × List UInt8)) (ok : Bool) : Prop where
  packet : ∀ p ∈ packets, ∃ w, m_packet p.1 = some w ∧ w.data.length ≤ mtu
  bytes  : packets.flatMap (fun p => written p.1) = bytes_to dest src off len
  result : ok = packets.all fun p => answered_ok p.2

/-- Memory after some bytes have been written. -/
def write_bytes (l : List (Nat × UInt8)) (m : Nat → UInt8) : Nat → UInt8 :=
  l.foldl (fun m b => Function.update m b.1 b.2) m

/-- A stub that follows the protocol of `M` packets: what it answers with OK it
    has written, and what it refuses it has not. -/
structure MemStub (σ : Type) extends Peer σ where
  memory   : σ → Nat → UInt8
  executes : ∀ s p w, m_packet p = some w → answered_ok (answer s p).2 = true →
    memory (answer s p).1 = write_bytes w.bytes (memory s)
  refuses  : ∀ s p w, m_packet p = some w → answered_ok (answer s p).2 = false →
    memory (answer s p).1 = memory s

/-- `m'` holds `src[off..off+len)` from `dest` on, and is `m` elsewhere. -/
structure Copied (dest : Nat) (src : CArray UInt8) (off len : Nat) (m m' : Nat → UInt8) : Prop where
  inside  : ∀ i < len, m' ((dest + i) % 2 ^ 32) = src.cell (off + i)
  outside : ∀ a, (∀ i < len, a ≠ (dest + i) % 2 ^ 32) → m' a = m a

end client

/-! ## Section 4: One packet -/

theorem hex_encode_half {d : Nat} (hd : d < 16) : hex_encode (UInt8.ofNat d) = Hex.digit d := by
  have hall : ∀ d < 16, hex_encode (UInt8.ofNat d) = Hex.digit d := by decide
  exact hall d hd

theorem hex_encode_byte (b : UInt8) :
    [hex_encode (b >>> 4), hex_encode (b &&& 0xf)] = Hex.encode_byte b := by
  obtain ⟨hhi, hlo, -⟩ := Hex.byte_halves b
  have hshift : b >>> 4 = UInt8.ofNat (b.toNat / 16) := by
    apply UInt8.toNat_inj.mp
    rw [UInt8.toNat_shiftRight, UInt8.toNat_ofNat_of_lt' (Nat.lt_trans hhi (by decide))]
    exact Nat.shiftRight_eq_div_pow b.toNat 4
  have hmask : b &&& 0xf = UInt8.ofNat (b.toNat % 16) := by
    apply UInt8.toNat_inj.mp
    rw [UInt8.toNat_and, UInt8.toNat_ofNat_of_lt' (Nat.lt_trans hlo (by decide))]
    exact Nat.and_two_pow_sub_one_eq_mod b.toNat 4
  rw [hshift, hmask, hex_encode_half hhi, hex_encode_half hlo]
  rfl

theorem append_hex_eq {size off len : Nat} {src : CArray UInt8} {buf : List UInt8}
    (hsrc : off + len ≤ src.size) (hfit : buf.length + 2 * len < size) :
    append_hex size src off len buf = .ok (buf ++ Hex.encode (src.slice off len)) := by
  induction len with
  | zero => simp [append_hex, CArray.slice, Hex.encode]
  | succ len ih =>
    -- The loop has written what stands before the last byte.
    have hlast : src.slice (off + len) 1 = [src.cell (off + len)] := by simp [CArray.slice]
    unfold append_hex at ih ⊢
    rw [foldlM_range_succ, ih (by omega) (by omega), ok_bind, CArray.read_ok (by omega), ok_bind,
      hex_encode_byte, sprintf, if_pos, CArray.slice_add, hlast, Hex.encode_append,
      List.append_assoc]
    · rfl
    · rw [List.length_append, Hex.length_encode, CArray.length_slice]
      show buf.length + 2 * len + 2 < size
      omega

theorem c_string_eq {l : List UInt8} (h : ∀ c ∈ l, c ≠ 0) : c_string l = l := by
  unfold c_string
  rw [List.takeWhile_eq_self_iff]
  simpa using h

theorem cut_append {c : UInt8} {l l' : List UInt8} (h : ∀ d ∈ l, d ≠ c) :
    cut c (l ++ c :: l') = (l, l') := by
  have hall : ∀ d ∈ l, decide (d ≠ c) = true := by simpa using h
  unfold cut
  rw [List.takeWhile_append_of_pos hall, List.dropWhile_append_of_pos hall]
  simp

theorem drop_0x_print (v : Nat) : drop_0x (Hex.print v) = Hex.print v := by
  apply if_neg
  intro h
  -- No digit is an `x`.
  have hx : Hex.ascii 'x' ∈ (Hex.print v).take 2 := by
    rw [h]
    decide
  exact Hex.print_ne (by decide) v _ (List.mem_of_mem_take hx) rfl

/-- The packet is read back as the write it was made for. -/
theorem m_packet_header {dest : UInt32} {len : Nat} {data : List UInt8} (hlen : len < 2 ^ 32)
    (hdata : data.length = len) :
    m_packet (m_header dest len ++ Hex.encode data) = some ⟨dest.toNat, data⟩ := by
  -- `%x` reads the `int` as unsigned.
  have hmod : ((len : Int) % 2 ^ 32).toNat = len := by omega
  have htext : m_header dest len ++ Hex.encode data =
      Hex.ascii 'M' :: ((Hex.text ['0', 'x'] ++ Hex.print dest.toNat) ++
        Hex.ascii ',' :: (Hex.print len ++ Hex.ascii ':' :: Hex.encode data)) := by
    unfold m_header
    rw [hmod]
    simp [Hex.text]
  -- Neither number holds the sign that ends it.
  have haddr : ∀ d ∈ Hex.text ['0', 'x'] ++ Hex.print dest.toNat, d ≠ Hex.ascii ',' := by
    intro d hd
    have h0x : ∀ d ∈ Hex.text ['0', 'x'], d ≠ Hex.ascii ',' := Hex.text_ne (by decide)
    rcases List.mem_append.mp hd with hd | hd
    · exact h0x d hd
    · exact Hex.print_ne (by decide) dest.toNat d hd
  have h0x : drop_0x (Hex.text ['0', 'x'] ++ Hex.print dest.toNat) = Hex.print dest.toNat :=
    if_pos rfl
  rw [htext, m_packet, if_pos (by rfl), List.tail_cons, cut_append haddr]
  dsimp only
  rw [cut_append (Hex.print_ne (by decide) len)]
  dsimp only
  rw [h0x, drop_0x_print, Hex.parse_print, Hex.parse_print, Hex.decode_encode]
  exact if_pos hdata

section small
variable {σ : Type} {P : Peer σ} {dest : UInt32} {src : CArray UInt8} {off len : Nat} {c : Conn σ}

theorem length_m_header_le (dest : UInt32) (len : Int) : (m_header dest len).length ≤ 21 := by
  have hdest : (Hex.print dest.toNat).length ≤ 8 :=
    Hex.length_print_le (by decide) dest.toNat_lt
  have hlen : (Hex.print (len % 2 ^ 32).toNat).length ≤ 8 :=
    Hex.length_print_le (by decide) (by omega)
  simp only [m_header, Hex.text, List.length_append, List.length_map, List.length_cons,
    List.length_nil]
  omega

/-- The text of a packet is sent as a whole. -/
theorem c_string_packet (dest : UInt32) (len : Int) (data : List UInt8) :
    c_string (m_header dest len ++ Hex.encode data) = m_header dest len ++ Hex.encode data := by
  apply c_string_eq
  intro d hd
  have hprint := Hex.print_ne (c := 0) (by decide)
  have hM : ∀ d ∈ Hex.text ['M', '0', 'x'], d ≠ 0 := Hex.text_ne (by decide)
  have hcomma : ∀ d ∈ Hex.text [','], d ≠ 0 := Hex.text_ne (by decide)
  have hcolon : ∀ d ∈ Hex.text [':'], d ≠ 0 := Hex.text_ne (by decide)
  simp only [m_header, List.mem_append] at hd
  rcases hd with ((((hd | hd) | hd) | hd) | hd) | hd
  · exact hM d hd
  · exact hprint _ d hd
  · exact hcomma d hd
  · exact hprint _ d hd
  · exact hcolon d hd
  · exact Hex.encode_ne (by decide) data d hd

/-- Step lemma: what one packet sends and returns. -/
theorem small_eq (hlen : len ≤ mtu) (hsrc : off + len ≤ src.size) :
    ∃ p, gdb_memcpy_to_qemu_small P dest src off len c =
        .ok (answered_ok (P.answer c.stub p).2, (exchange P p c).1) ∧
      m_packet p = some ⟨dest.toNat, src.slice off len⟩ := by
  have hmtu : mtu = 1500 := rfl
  have hheader := length_m_header_le dest len
  refine ⟨m_header dest len ++ Hex.encode (src.slice off len), ?_,
    m_packet_header (by omega) (CArray.length_slice src off len)⟩
  -- Two digits a byte and 128 bytes for the header are enough.
  have hmalloc : malloc ((len : Int) * 2 + 128) = .ok (2 * len + 128) := by
    unfold malloc
    rw [if_pos (by omega)]
    congr 1
    omega
  have hsprintf : sprintf (2 * len + 128) [] (m_header dest len) = .ok (m_header dest len) := by
    apply if_pos
    rw [List.length_nil]
    omega
  unfold gdb_memcpy_to_qemu_small
  rw [hmalloc, ok_bind, hsprintf, ok_bind, Int.toNat_natCast, append_hex_eq hsrc (by omega),
    ok_bind,
    c_string_packet]
  rfl

end small

/-! ## Section 5: The whole copy -/

section copy
variable {dest off len : Nat} {src : CArray UInt8}

theorem bytes_of_slice : Poke.bytes ⟨dest, src.slice off len⟩ = bytes_to dest src off len := by
  apply List.ext_getElem
  · simp [Poke.bytes, bytes_to]
  · intro i h₁ h₂
    simp [Poke.bytes, bytes_to, CArray.slice]

theorem bytes_to_add (m n : Nat) : bytes_to dest src off (m + n) =
    bytes_to dest src off m ++ bytes_to ((dest + m) % 2 ^ 32) src (off + m) n := by
  unfold bytes_to
  rw [List.range_add, List.map_append, List.map_map]
  congr 2
  funext i
  have haddr : (dest + (m + i)) % 2 ^ 32 = ((dest + m) % 2 ^ 32 + i) % 2 ^ 32 := by omega
  rw [Function.comp_apply, haddr, Nat.add_assoc]

theorem nodup_addresses (hlen : len ≤ 2 ^ 32) :
    ((bytes_to dest src off len).map Prod.fst).Nodup := by
  unfold bytes_to
  rw [List.map_map]
  apply List.Nodup.map_on _ List.nodup_range
  intro i hi j hj heq
  have hi' := List.mem_range.mp hi
  have hj' := List.mem_range.mp hj
  have heq' : (dest + i) % 2 ^ 32 = (dest + j) % 2 ^ 32 := heq
  omega

/-- No address is written twice, so each byte stays. -/
theorem copied_of_write_bytes (m : Nat → UInt8) (hlen : len ≤ 2 ^ 32) :
    Copied dest src off len m (write_bytes (bytes_to dest src off len) m) := by
  induction len with
  | zero => exact ⟨fun i hi => absurd hi (Nat.not_lt_zero i), fun a _ => rfl⟩
  | succ len ih =>
    obtain ⟨hinside, houtside⟩ := ih (by omega)
    have hlast : write_bytes (bytes_to dest src off (len + 1)) m =
        Function.update (write_bytes (bytes_to dest src off len) m) ((dest + len) % 2 ^ 32)
          (src.cell (off + len)) := by
      unfold write_bytes bytes_to
      rw [List.range_succ, List.map_append, List.foldl_append]
      rfl
    rw [hlast]
    constructor
    · intro i hi
      -- The last byte does not go to the place of an earlier one.
      by_cases hil : i = len
      · rw [hil, Function.update_self]
      · rw [Function.update_of_ne (by omega)]
        exact hinside i (by omega)
    · intro a ha
      rw [Function.update_of_ne (ha len (Nat.lt_succ_self len))]
      exact houtside a fun i hi => ha i (by omega)

variable {σ : Type} {S : MemStub σ} {ok : Bool}

/-- The bytes of the packets that the stub has accepted. -/
def accepted (packets : List (List UInt8 × List UInt8)) : List (Nat × UInt8) :=
  (packets.filter fun p => answered_ok p.2).flatMap fun p => written p.1

/-- A copy ended with `r` and left `c'`. -/
structure Ended (S : MemStub σ) (dest : Nat) (src : CArray UInt8) (off len : Nat) (r : Bool)
    (c c' : Conn σ) (packets : List (List UInt8 × List UInt8)) : Prop where
  log      : c'.log = c.log ++ packets
  transfer : Transfer dest src off len packets r
  memory   : S.memory c'.stub = write_bytes (accepted packets) (S.memory c.stub)

/-- A copy of one packet. -/
theorem small_ended {dest : UInt32} {c : Conn σ} (hlen : len ≤ mtu) (hsrc : off + len ≤ src.size) :
    ∃ r c' packets, gdb_memcpy_to_qemu_small S.toPeer dest src off len c = .ok (r, c') ∧
      Ended S dest.toNat src off len r c c' packets := by
  obtain ⟨p, hrun, hp⟩ := small_eq hlen hsrc
  have hwritten : written p = bytes_to dest.toNat src off len := by
    rw [written, hp]
    exact bytes_of_slice
  refine ⟨_, _, [(p, (S.answer c.stub p).2)], hrun, rfl, ⟨?_, ?_, ?_⟩, ?_⟩
  · intro q hq
    rw [List.mem_singleton.mp hq]
    exact ⟨_, hp, by rw [CArray.length_slice]; exact hlen⟩
  · rw [List.flatMap_singleton, hwritten]
  · simp
  · show S.memory (S.answer c.stub p).1 = _
    unfold accepted
    cases hok : answered_ok (S.answer c.stub p).2 with
    | true =>
      -- Only an accepted packet is in memory.
      have hkeep : [(p, (S.answer c.stub p).2)].filter (fun p => answered_ok p.2) =
          [(p, (S.answer c.stub p).2)] := by simp [hok]
      rw [S.executes _ _ _ hp hok, hkeep, List.flatMap_singleton, written, hp]
      rfl
    | false =>
      have hdrop : [(p, (S.answer c.stub p).2)].filter (fun p => answered_ok p.2) = [] := by
        simp [hok]
      rw [S.refuses _ _ _ hp hok, hdrop]
      rfl

/-- One copy behind the other is one copy. -/
theorem Ended.append {m n : Nat} {r r' : Bool} {c c' c'' : Conn σ}
    {packets packets' : List (List UInt8 × List UInt8)}
    (h : Ended S dest src off m r c c' packets)
    (h' : Ended S ((dest + m) % 2 ^ 32) src (off + m) n r' c' c'' packets') :
    Ended S dest src off (m + n) (r && r') c c'' (packets ++ packets') := by
  obtain ⟨hlog, ⟨hpacket, hbytes, hresult⟩, hmem⟩ := h
  obtain ⟨hlog', ⟨hpacket', hbytes', hresult'⟩, hmem'⟩ := h'
  refine ⟨by rw [hlog', hlog, List.append_assoc], ⟨?_, ?_, ?_⟩, ?_⟩
  · intro p hp
    exact (List.mem_append.mp hp).elim (hpacket p) (hpacket' p)
  · rw [List.flatMap_append, hbytes, hbytes', bytes_to_add]
  · rw [List.all_append, hresult, hresult']
  · rw [hmem', hmem]
    unfold accepted write_bytes
    rw [List.filter_append, List.flatMap_append, List.foldl_append]

/-- Run lemma: the loop does what is left of the copy. -/
theorem memcpy_loop_ended {n : Nat} {dest : UInt32} {c : Conn σ} (hn : len < n)
    (hsrc : off + len ≤ src.size) :
    ∃ r c' packets, memcpy_loop S.toPeer src n dest off len ok c = .ok (ok && r, c') ∧
      Ended S dest.toNat src off len r c c' packets := by
  have hmtu : mtu = 1500 := rfl
  induction n generalizing dest off len ok c with
  | zero => exact absurd hn (Nat.not_lt_zero len)
  | succ n ih =>
    unfold memcpy_loop
    by_cases hlong : len > mtu
    · have hlong' : (len : Int) > mtu := by omega
      have hrest : (len : Int) - mtu = ((len - mtu : Nat) : Int) := by omega
      have hfit : off + mtu ≤ src.size := by omega
      obtain ⟨r, c₁, packets, hsmall, hfirst⟩ := small_ended (Nat.le_refl mtu) hfit
      have hn' : len - mtu < n := by omega
      have hsrc' : off + mtu + (len - mtu) ≤ src.size := by omega
      obtain ⟨r', c₂, packets', hloop, hlast⟩ :=
        @ih (off + mtu) (len - mtu) (ok && r) (dest + 1500) c₁ hn' hsrc'
      rw [if_pos hlong', hsmall, ok_bind, hrest]
      dsimp only
      rw [hloop, Bool.and_assoc]
      refine ⟨r && r', c₂, packets ++ packets', rfl, ?_⟩
      -- `dest` wraps at the end of the address space, as the addresses do.
      have hdest : (dest + 1500).toNat = (dest.toNat + mtu) % 2 ^ 32 := UInt32.toNat_add dest 1500
      rw [hdest] at hlast
      have hlen : len = mtu + (len - mtu) := by omega
      rw [hlen]
      exact hfirst.append hlast
    · have hshort : ¬ (len : Int) > mtu := by omega
      have hlen : len ≤ mtu := by omega
      obtain ⟨r, c', packets, hsmall, hended⟩ := small_ended hlen hsrc
      rw [if_neg hshort, hsmall, ok_bind]
      exact ⟨r, c', packets, rfl, hended⟩

end copy

/-- The packets of a copy write each byte of the source once and to its place,
    and the result tells whether all were accepted; then the stub's memory
    holds the source and is as before elsewhere. -/
theorem gdb_memcpy_to_qemu_writes {σ : Type} (S : MemStub σ) (dest : UInt32) (src : CArray UInt8)
    (len : Nat) (c : Conn σ) (hsrc : len ≤ src.size) (hint : len < 2 ^ 31) :
    ∃ ok c' packets, gdb_memcpy_to_qemu S.toPeer dest src len c = .ok (ok, c') ∧
      c'.log = c.log ++ packets ∧ Transfer dest.toNat src 0 len packets ok ∧
      ((packets.flatMap fun p => written p.1).map Prod.fst).Nodup ∧
      (ok = true → Copied dest.toNat src 0 len (S.memory c.stub) (S.memory c'.stub)) := by
  have hfuel : len < (len : Int).toNat + 1 := by omega
  have hsrc' : 0 + len ≤ src.size := by rwa [Nat.zero_add]
  obtain ⟨r, c', packets, hrun, hlog, htransfer, hmem⟩ := memcpy_loop_ended hfuel hsrc'
  refine ⟨r, c', packets, hrun, hlog, htransfer, ?_, ?_⟩
  · rw [htransfer.bytes]
    exact nodup_addresses (by omega)
  intro hr
  -- All packets were accepted, so memory got all bytes.
  have hall : accepted packets = bytes_to dest.toNat src 0 len := by
    have hfilter : packets.filter (fun p => answered_ok p.2) = packets := by
      rw [List.filter_eq_self]
      rw [htransfer.result] at hr
      exact fun p hp => List.all_eq_true.mp hr p hp
    rw [accepted, hfilter, htransfer.bytes]
  rw [hmem, hall]
  exact copied_of_write_bytes (S.memory c.stub) (by omega)

/-- A stub that is its memory and accepts every packet it can read. -/
def plain_stub : MemStub (Nat → UInt8) where
  answer m p :=
    match m_packet p with
    | some w => (write_bytes w.bytes m, Hex.text ['O', 'K'])
    | none => (m, [])
  fresh _ _ := 0
  memory m := m
  executes := by
    intro m p w hp _
    rw [hp]
  refuses := by
    intro m p w hp hok
    rw [hp] at hok
    cases hok

/-- Two whole packets, from an address at the end of the address space on. -/
theorem memcpy_two_packets :
    let src : CArray UInt8 := ⟨3000, fun i => UInt8.ofNat i⟩
    let c : Conn (Nat → UInt8) := ⟨fun _ => 0, []⟩
    ∃ ok c' packets,
      gdb_memcpy_to_qemu plain_stub.toPeer 0xfffffc00 src (3000 : Nat) c = .ok (ok, c') ∧
      c'.log = c.log ++ packets ∧
      Transfer (0xfffffc00 : UInt32).toNat src 0 3000 packets ok ∧
      ((packets.flatMap fun p => written p.1).map Prod.fst).Nodup ∧
      (ok = true → Copied (0xfffffc00 : UInt32).toNat src 0 3000 (plain_stub.memory c.stub)
        (plain_stub.memory c'.stub)) := by
  intro src c
  exact gdb_memcpy_to_qemu_writes plain_stub 0xfffffc00 src 3000 c (Nat.le_refl 3000) (by decide)

end Nemu.QemuDiff
