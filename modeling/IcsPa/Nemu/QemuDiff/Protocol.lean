import IcsPa.Framework.Packet
import IcsPa.Nemu.QemuDiff.Regs

/-! # The packets of the gdb client

    `tools/qemu-diff/src/protocol.c`: `send_packet` and `recv_packet`.  The
    bytes that can be read are a list, and its end is the end of the file.
    `malloc` and `realloc` succeed; where they fail, the process exits.

    The buffer of a reply begins with 4096 bytes and doubles.  A run of a
    repeated byte is shorter than the buffer, so that doubling once is enough
    for it too. -/

open CCall Packet

namespace Nemu.QemuDiff

/-! ## Section 1: The code -/

/-- The bytes that `send_packet` writes. -/
def send_packet (command : List UInt8) : List UInt8 :=
  let sum := command.foldl (fun sum c => sum + c) 0
  Hex.ascii '$' :: (command ++ Hex.ascii '#' :: Packet.digits sum)

/-- The variables of `recv_packet`: `reply` is the first `i` bytes of the
    buffer, which has `size` bytes. -/
structure Recv where
  reply  : List UInt8
  size   : Nat
  sum    : UInt8
  escape : Bool

/-- A packet in a buffer of `size` bytes and the bytes that are left, or the
    exit of the process at the end of the file. -/
inductive Received where
  | packet (reply : List UInt8) (size : Nat) (sum_ok : Bool) (rest : List UInt8)
  | exit
  deriving DecidableEq

/-- `fgetc(in)` as a `uint8_t`. -/
def fgetc : List UInt8 → UInt8 × List UInt8
  | [] => (255, [])
  | c :: input => (c, input)

/-- `reply[i++] = c`, with a bigger buffer if needed. -/
def add_char (s : Recv) (c : UInt8) : Except Fault Recv :=
  let c := if s.escape then c ^^^ 0x20 else c
  let size := if s.reply.length = s.size then s.size * 2 else s.size
  if s.reply.length < size then
    .ok { s with reply := s.reply ++ [c], size := size, escape := false }
  else .error .outOfBounds

/-- `memset(&reply[i], reply[i - 1], count)`, with a bigger buffer if needed. -/
def add_run (s : Recv) (count : Nat) : Except Fault Recv :=
  let size := if s.size < s.reply.length + count then s.size * 2 else s.size
  if s.reply ≠ [] ∧ s.reply.length + count ≤ size then
    .ok { s with reply := s.reply ++ List.replicate count (s.reply.getLastD 0), size := size }
  else .error .outOfBounds

/-- The end of a packet. -/
def end_packet (s : Recv) (input : List UInt8) : Except Fault Received :=
  let (msb, input) := fgetc input
  let (lsb, input) := fgetc input
  let sum_ok := s.sum.toNat == gdb_decode_hex msb lsb
  let size := if s.reply.length = s.size then s.size + 1 else s.size
  if s.reply.length < size then .ok (.packet s.reply size sum_ok input)
  else .error .outOfBounds

/-- A byte that cannot be a count. -/
def invalid_count (c2 : UInt8) : Bool :=
  c2 < 29 || c2 > 126 || c2 == Hex.ascii '$' || c2 == Hex.ascii '#'

/-- The second loop. -/
def recv_loop : List UInt8 → Recv → Except Fault Received
  | [], _ => .ok .exit
  | c :: input, s =>
      let s := { s with sum := s.sum + c }
      if c = Hex.ascii '$' then recv_loop input { s with reply := [], sum := 0, escape := false }
      else if c = Hex.ascii '#' then end_packet { s with sum := s.sum - c } input
      else if c = Hex.ascii '}' then recv_loop input { s with escape := true }
      else if c = Hex.ascii '*' ∧ s.reply ≠ [] then
        match input with
        | c2 :: input =>
            if invalid_count c2 then do
              -- `ungetc(c2, in)`
              let s ← add_char s c
              recv_loop (c2 :: input) s
            else do
              let s ← add_run s (c2.toNat - 29)
              recv_loop input { s with sum := s.sum + c2 }
        | [] => do
            let s ← add_char s c
            recv_loop [] s
      else do
        let s ← add_char s c
        recv_loop input s

def recv_packet (input : List UInt8) : Except Fault Received :=
  recv_loop ((input.dropWhile (· ≠ Hex.ascii '$')).drop 1) ⟨[], 4096, 0, false⟩

/-! ## Section 2: Digits -/

/-- `gdb_decode_hex` has the value of its digits, and no byte otherwise. -/
theorem gdb_decode_hex_eq (msb lsb : UInt8) :
    gdb_decode_hex msb lsb =
      ((Hex.value msb).bind fun h => (Hex.value lsb).map fun l => 16 * h + l).getD 0xffff := by
  have hdigit : ∀ c : UInt8, (isxdigit c = true ∧ Hex.value c = some (hex_nibble c).toNat) ∨
      (isxdigit c = false ∧ Hex.value c = none) := by
    have hall : ∀ n < 256, (isxdigit (UInt8.ofNat n) = true ∧
        Hex.value (UInt8.ofNat n) = some (hex_nibble (UInt8.ofNat n)).toNat) ∨
        (isxdigit (UInt8.ofNat n) = false ∧ Hex.value (UInt8.ofNat n) = none) := by decide +kernel
    intro c
    have hc := hall c.toNat c.toNat_lt
    rwa [UInt8.ofNat_toNat] at hc
  unfold gdb_decode_hex
  rcases hdigit msb with ⟨hx, hv⟩ | ⟨hx, hv⟩
  · rcases hdigit lsb with ⟨hx', hv'⟩ | ⟨hx', hv'⟩
    · simp [hx, hx', hv, hv']
    · simp [hx, hx', hv, hv']
  · simp [hx, hv]

/-- The comparison of the sum with the digits. -/
theorem sum_beq_decode (body : List UInt8) (msb lsb : UInt8) :
    ((checksum body).toNat == gdb_decode_hex msb lsb) = sum_ok body msb lsb := by
  have hlt := (checksum body).toNat_lt
  have hnone : ((checksum body).toNat == 0xffff) = false := by
    rw [beq_eq_false_iff_ne]
    omega
  rw [gdb_decode_hex_eq, sum_ok]
  cases hm : Hex.value msb with
  | none => exact hnone
  | some h =>
    cases hl : Hex.value lsb with
    | none => exact hnone
    | some l => rfl

/-! ## Section 3: The buffer -/

/-- The bytes so far are in the buffer. -/
structure Fits (s : Recv) : Prop where
  bound : s.reply.length ≤ s.size
  large : 4096 ≤ s.size

theorem add_char_eq {s : Recv} (hs : Fits s) (c : UInt8) :
    ∃ size, add_char s c = .ok ⟨s.reply ++ [unescape s.escape c], size, s.sum, false⟩ ∧
      Fits ⟨s.reply ++ [unescape s.escape c], size, s.sum, false⟩ := by
  have hbound := hs.bound
  have hlarge := hs.large
  have hroom : s.reply.length < if s.reply.length = s.size then s.size * 2 else s.size := by
    split <;> omega
  have hsize : 4096 ≤ if s.reply.length = s.size then s.size * 2 else s.size := by
    split <;> omega
  refine ⟨_, if_pos hroom, ⟨?_, hsize⟩⟩
  rw [List.length_append]
  exact hroom

/-- Doubling the buffer is enough for a run of 97 bytes. -/
theorem add_run_eq {s : Recv} (hs : Fits s) (hreply : s.reply ≠ []) {n : Nat} (hn : n ≤ 97) :
    ∃ size, add_run s n = .ok ⟨repeat_last s.reply n, size, s.sum, s.escape⟩ ∧
      Fits ⟨repeat_last s.reply n, size, s.sum, s.escape⟩ := by
  have hbound := hs.bound
  have hlarge := hs.large
  have hroom : s.reply.length + n ≤ if s.size < s.reply.length + n then s.size * 2 else s.size := by
    split <;> omega
  have hsize : 4096 ≤ if s.size < s.reply.length + n then s.size * 2 else s.size := by
    split <;> omega
  refine ⟨_, if_pos ⟨hreply, hroom⟩, ⟨?_, hsize⟩⟩
  rw [repeat_last, List.length_append, List.length_replicate]
  exact hroom

theorem end_packet_eq {s : Recv} (hs : Fits s) {body : List UInt8} (hsum : s.sum = checksum body)
    (tail : List UInt8) : ∃ size, end_packet s tail =
        .ok (.packet s.reply size (sum_ok body (tail.getD 0 255) (tail.getD 1 255)) (tail.drop 2)) ∧
      s.reply.length + 1 ≤ size ∧ 4096 ≤ size := by
  have hbound := hs.bound
  have hlarge := hs.large
  have hmsb : (fgetc tail).1 = tail.getD 0 255 := by cases tail <;> rfl
  have hlsb : (fgetc (fgetc tail).2).1 = tail.getD 1 255 := by
    rcases tail with _ | ⟨c, _ | ⟨d, tail⟩⟩ <;> rfl
  have hrest : (fgetc (fgetc tail).2).2 = tail.drop 2 := by
    rcases tail with _ | ⟨c, _ | ⟨d, tail⟩⟩ <;> rfl
  have hroom : s.reply.length < if s.reply.length = s.size then s.size + 1 else s.size := by
    split <;> omega
  have hsize : 4096 ≤ if s.reply.length = s.size then s.size + 1 else s.size := by
    split <;> omega
  refine ⟨if s.reply.length = s.size then s.size + 1 else s.size, ?_, hroom, hsize⟩
  unfold end_packet
  show (if s.reply.length < (if s.reply.length = s.size then s.size + 1 else s.size) then
    Except.ok (Received.packet s.reply (if s.reply.length = s.size then s.size + 1 else s.size)
      (s.sum.toNat == gdb_decode_hex (fgetc tail).1 (fgetc (fgetc tail).2).1)
      (fgetc (fgetc tail).2).2)
    else _) = _
  rw [if_pos hroom, hmsb, hlsb, hrest, hsum, sum_beq_decode]

theorem invalid_count_eq (c : UInt8) : invalid_count c = !is_count c := by
  have hall : ∀ n < 256, invalid_count (UInt8.ofNat n) = !is_count (UInt8.ofNat n) := by
    decide +kernel
  have hc := hall c.toNat c.toNat_lt
  rwa [UInt8.ofNat_toNat] at hc

/-! ## Section 4: One byte -/

theorem recv_start (input : List UInt8) (s : Recv) :
    recv_loop (START :: input) s = recv_loop input
    { s with reply := [], sum := 0, escape := false } := by
  rw [recv_loop.eq_def]
  exact if_pos rfl

theorem recv_end (input : List UInt8) (s : Recv) :
    recv_loop (END :: input) s = end_packet s input := by
  have hback : s.sum + END - END = s.sum := UInt8.add_sub_cancel s.sum END
  rw [recv_loop.eq_def]
  show (if END = START then _ else if END = END then end_packet
    { s with sum := s.sum + END - END } input
    else _) = _
  rw [if_neg (by decide), if_pos rfl, hback]

theorem recv_esc (input : List UInt8) (s : Recv) :
    recv_loop (ESC :: input) s = recv_loop input { s with sum := s.sum + ESC, escape := true } := by
  rw [recv_loop.eq_def]
  show (if ESC = START then _ else if ESC = END then _ else if ESC = ESC then _ else _) = _
  rw [if_neg (by decide), if_neg (by decide), if_pos rfl]

theorem recv_rep {s : Recv} {d : UInt8} (hreply : s.reply ≠ []) (hd : is_count d = true)
    (input : List UInt8) :
    recv_loop (REP :: d :: input) s =
      (add_run { s with sum := s.sum + REP } (d.toNat - 29) >>=
        fun s => recv_loop input { s with sum := s.sum + d }) := by
  have hvalid : ¬ invalid_count d = true := by simp [invalid_count_eq, hd]
  rw [recv_loop.eq_def]
  show (if REP = START then _ else if REP = END then _ else if REP = ESC then _
    else if REP = REP ∧ s.reply ≠ [] then (if invalid_count d = true then _ else _) else _) = _
  rw [if_neg (by decide), if_neg (by decide), if_neg (by decide), if_pos ⟨rfl, hreply⟩,
    if_neg hvalid]

theorem recv_char {s : Recv} {c : UInt8} {input : List UInt8} (hstart : c ≠ START) (hend : c ≠ END)
    (hesc : c ≠ ESC)
    (hrep : c = REP → s.reply ≠ [] → ∀ d ∈ input.head?, is_count d = false) :
    recv_loop (c :: input) s =
      (add_char { s with sum := s.sum + c } c >>= fun s => recv_loop input s) := by
  rw [recv_loop.eq_def]
  show (if c = START then _ else if c = END then _ else if c = ESC then _
    else if c = REP ∧ s.reply ≠ [] then _ else _) = _
  rw [if_neg hstart, if_neg hend, if_neg hesc]
  by_cases hstar : c = REP ∧ s.reply ≠ []
  · rw [if_pos hstar]
    cases input with
    | nil => rfl
    | cons d input =>
      have hinvalid : invalid_count d = true := by
        rw [invalid_count_eq, hrep hstar.1 hstar.2 d rfl]
        rfl
      exact if_pos hinvalid
  · exact if_neg hstar

/-! ## Section 5: A packet -/

/-- The variables after a part of the body without marks. -/
structure After (s : Recv) (seg : List UInt8) (s' : Recv) : Prop where
  fits  : Fits s'
  reply : s'.reply = (decode s.escape s.reply seg).2
  sum   : s'.sum = s.sum + checksum seg

/-- A part of the body without marks, up to a mark or the end of the file. -/
theorem recv_segment {seg : List UInt8} (hseg : Unmarked seg) {rest : List UInt8}
    (hrest : ∀ d ∈ rest.head?, d = START ∨ d = END) {s : Recv} (hs : Fits s) :
    ∃ s', recv_loop (seg ++ rest) s = recv_loop rest s' ∧ After s seg s' := by
  -- A run takes two bytes, so the induction is on the length.
  induction hn : seg.length using Nat.strong_induction_on generalizing seg s with
  | _ n ih =>
    subst hn
    cases seg with
    | nil => exact ⟨s, rfl, hs, rfl, (UInt8.add_zero s.sum).symm⟩
    | cons c seg =>
      obtain ⟨hstart, hend⟩ := hseg c List.mem_cons_self
      have hseg' : Unmarked seg := fun d hd => hseg d (List.mem_cons_of_mem c hd)
      by_cases hesc : c = ESC
      · subst hesc
        obtain ⟨s', hrun, hafter⟩ := ih seg.length (Nat.lt_succ_self _) hseg'
          (s := { s with sum := s.sum + ESC, escape := true }) ⟨hs.bound, hs.large⟩ rfl
        refine ⟨s', ?_, hafter.fits, ?_, ?_⟩
        · rw [List.cons_append, recv_esc, hrun]
        · rw [decode_esc, hafter.reply]
        · rw [hafter.sum, checksum_cons, UInt8.add_assoc]
      · by_cases hrun : c = REP ∧ s.reply ≠ [] ∧ ∃ d l, seg = d :: l ∧ is_count d = true
        · obtain ⟨rfl, hreply, d, l, rfl, hd⟩ := hrun
          have hcount : d.toNat - 29 ≤ 97 := by
            unfold is_count at hd
            simp only [Bool.and_eq_true, decide_eq_true_eq] at hd
            have hle : d.toNat ≤ 126 := hd.1.1.2
            omega
          obtain ⟨size, hadd, hfit⟩ := add_run_eq (s := { s with sum := s.sum + REP })
            ⟨hs.bound, hs.large⟩ hreply hcount
          obtain ⟨s', hrun, hafter⟩ :=
            ih l.length (by simp) (fun e he => hseg' e (List.mem_cons_of_mem d he))
            (s := ⟨repeat_last s.reply (d.toNat - 29), size, s.sum + REP + d, s.escape⟩)
            ⟨hfit.bound, hfit.large⟩ rfl
          refine ⟨s', ?_, hafter.fits, ?_, ?_⟩
          · rw [List.cons_append, List.cons_append, recv_rep hreply hd, hadd]
            exact hrun
          · rw [decode_rep _ _ hreply hd, hafter.reply]
          · rw [hafter.sum, checksum_cons, checksum_cons, UInt8.add_assoc, UInt8.add_assoc]
        · have hliteral : c = REP → s.reply ≠ [] → ∀ d ∈ seg.head?, is_count d = false := by
            intro hc hreply d hd
            cases seg with
            | nil => cases hd
            | cons e l =>
              cases hd
              by_contra hcount
              exact hrun ⟨hc, hreply, d, l, rfl, by simpa using hcount⟩
          have hnext : c = REP → s.reply ≠ [] → ∀ d ∈ (seg ++ rest).head?, is_count d = false := by
            intro hc hreply d hd
            cases seg with
            | nil =>
              rcases hrest d hd with rfl | rfl <;> rfl
            | cons e l => exact hliteral hc hreply d hd
          obtain ⟨size, hadd, hfit⟩ :=
            add_char_eq (s := { s with sum := s.sum + c }) ⟨hs.bound, hs.large⟩ c
          obtain ⟨s', hrun, hafter⟩ := ih seg.length (Nat.lt_succ_self _) hseg'
            (s := ⟨s.reply ++ [unescape s.escape c], size, s.sum + c, false⟩) ⟨hfit.bound,
              hfit.large⟩ rfl
          refine ⟨s', ?_, hafter.fits, ?_, ?_⟩
          · rw [List.cons_append, recv_char hstart hend hesc hnext, hadd]
            exact hrun
          · rw [decode_byte _ _ hesc hliteral, hafter.reply]
          · rw [hafter.sum, checksum_cons, UInt8.add_assoc]

/-- The bytes up to the next mark. -/
theorem exists_segment (input : List UInt8) :
    ∃ seg rest, input = seg ++ rest ∧ Unmarked seg ∧ ∀ d ∈ rest.head?, d = START ∨ d = END := by
  induction input with
  | nil => exact ⟨[], [], rfl, unmarked_nil, fun d hd => by cases hd⟩
  | cons c input ih =>
    by_cases hmark : c = START ∨ c = END
    · refine ⟨[], c :: input, rfl, unmarked_nil, fun d hd => ?_⟩
      cases hd
      exact hmark
    · obtain ⟨seg, rest, rfl, hseg, hrest⟩ := ih
      refine ⟨c :: seg, rest, rfl, fun d hd => ?_, hrest⟩
      rcases List.mem_cons.mp hd with rfl | hd
      · exact not_or.mp hmark
      · exact hseg d hd

/-- The variables at the start of a packet. -/
structure Fresh (s : Recv) : Prop where
  fits   : Fits s
  reply  : s.reply = []
  sum    : s.sum = 0
  escape : s.escape = false

/-- What the loop returns for the body that `scan` finds. -/
structure Reads (r : Received) (body tail : List UInt8) : Prop where
  buffer : ∃ size, r = .packet (decode false [] body).2 size
      (sum_ok body (tail.getD 0 255) (tail.getD 1 255)) (tail.drop 2) ∧
    (decode false [] body).2.length + 1 ≤ size ∧ 4096 ≤ size

/-- The loop from the start of a packet; each turn of this induction is one
    body, which may be broken off by a `$`. -/
theorem recv_loop_scan (input : List UInt8) {s : Recv} (hs : Fresh s) :
    ∃ r, recv_loop input s = .ok r ∧ (scan [] input = none → r = .exit) ∧
      ∀ body tail, scan [] input = some (body, tail) → Reads r body tail := by
  induction hn : input.length using Nat.strong_induction_on generalizing input s with
  | _ n ih =>
    obtain ⟨seg, rest, rfl, hseg, hrest⟩ := exists_segment input
    obtain ⟨s', hrun, hafter⟩ := recv_segment hseg hrest hs.fits
    have hreply := hafter.reply
    have hsum := hafter.sum
    rw [hs.escape, hs.reply] at hreply
    rw [hs.sum, UInt8.zero_add] at hsum
    rw [hrun, scan_unmarked hseg, List.nil_append]
    cases rest with
    | nil => exact ⟨.exit, rfl, fun _ => rfl, fun body tail h => by cases h⟩
    | cons d rest =>
      rcases hrest d rfl with rfl | rfl
      · -- The packet starts over.
        have hscan : scan seg (START :: rest) = scan [] rest := if_pos rfl
        rw [recv_start, hscan]
        refine ih rest.length ?_ rest ⟨⟨Nat.zero_le _, hafter.fits.large⟩, rfl, rfl, rfl⟩ rfl
        rw [← hn, List.length_append, List.length_cons]
        omega
      · have hscan : scan seg (END :: rest) = some (seg, rest) := by
          rw [scan, if_neg (by decide), if_pos rfl]
        obtain ⟨size, hend, hsize⟩ := end_packet_eq hafter.fits hsum rest
        rw [recv_end, hscan, hend]
        refine ⟨_, rfl, fun h => absurd h (Option.some_ne_none _), fun body tail h => ?_⟩
        cases h
        rw [hreply] at hsize ⊢
        exact ⟨size, rfl, hsize⟩

/-- `recv_packet` reads the first packet, whatever the bytes are, in a buffer
    that it never leaves. -/
theorem recv_packet_eq (input : List UInt8) :
    ∃ r, recv_packet input = .ok r ∧ (receive input = none → r = .exit) ∧
      ∀ reply ok rest, receive input = some (reply, ok, rest) →
        ∃ size, r = .packet reply size ok rest ∧ reply.length + 1 ≤ size ∧ 4096 ≤ size := by
  have hfresh : Fresh ⟨[], 4096, 0, false⟩ := ⟨⟨Nat.zero_le _, Nat.le_refl _⟩, rfl, rfl, rfl⟩
  obtain ⟨r, hrun, hexit, hreads⟩ := recv_loop_scan ((input.dropWhile (· ≠ START)).drop 1) hfresh
  refine ⟨r, hrun, fun h => hexit (Option.map_eq_none_iff.mp h), fun reply ok rest h => ?_⟩
  obtain ⟨⟨body, tail⟩, hscan, hpacket⟩ := Option.map_eq_some_iff.mp h
  cases hpacket
  exact (hreads body tail hscan).buffer

/-- What it returns for a packet that is known. -/
theorem recv_packet_of {input reply rest : List UInt8} {ok : Bool}
    (h : receive input = some (reply, ok, rest)) :
    ∃ size, recv_packet input = .ok (.packet reply size ok rest) := by
  obtain ⟨r, hrun, -, hreads⟩ := recv_packet_eq input
  obtain ⟨size, rfl, -⟩ := hreads reply ok rest h
  exact ⟨size, hrun⟩

/-! ## Section 6: What `recv_packet` accepts -/

/-- `recv_packet` returns from any bytes and stays in its buffer.  It exits if
    no packet is complete; else it returns the meaning of the body of the first
    one that is, and tells whether the digits behind it are its sum. -/
theorem recv_packet_total (input : List UInt8) :
    recv_packet input = .ok .exit ∧
        (∀ lead rest, input = lead ++ START :: rest → START ∉ lead → END ∉ rest) ∨
      ∃ noise broken body tail size, input = noise ++ broken ++ START :: (body ++ END :: tail) ∧
        START ∉ noise ∧ END ∉ broken ∧ Unmarked body ∧
        recv_packet input = .ok (.packet (decode false [] body).2 size
          (sum_ok body (tail.getD 0 255) (tail.getD 1 255)) (tail.drop 2)) ∧
        (decode false [] body).2.length < size ∧ 4096 ≤ size := by
  obtain ⟨r, hrun, hexit, hreads⟩ := recv_packet_eq input
  rcases receive_cut input with
    ⟨hnone, hno⟩ | ⟨noise, broken, body, tail, hinput, hnoise, hbroken, hbody, hsome⟩
  · refine .inl ⟨?_, hno⟩
    rw [hrun, hexit hnone]
  · obtain ⟨size, rfl, hsize⟩ := hreads _ _ _ hsome
    exact .inr ⟨noise, broken, body, tail, size, hinput, hnoise, hbroken, hbody, hrun, hsize⟩

/-- A packet with escaped bytes and runs is read back, behind any noise. -/
theorem recv_send_packet {noise : List UInt8} (hnoise : START ∉ noise) {ts : List Token}
    (hts : Packet.Valid [] ts)
    (rest : List UInt8) :
    ∃ size, recv_packet (noise ++ send_packet (text ts) ++ rest) =
      .ok (.packet (meaning [] ts) size true rest) :=
  recv_packet_of (receive_frame noise hnoise hts rest)

/-- `a` four times, and an escaped `#`. -/
theorem recv_send_run :
    ∃ size, recv_packet
    (Hex.text ['+'] ++ send_packet (text [.byte 97, .repeated 3, .escaped 35]) ++ []) =
      .ok (.packet (meaning [] [.byte 97, .repeated 3, .escaped 35]) size true []) := by
  refine recv_send_packet (by decide) ?_ []
  exact ⟨rfl, ⟨by decide, by decide, rfl⟩, rfl, trivial⟩

/-- A body with a wrong sum is refused. -/
theorem recv_packet_refused {noise body : List UInt8} {msb lsb : UInt8} (hnoise : START ∉ noise)
    (hbody : Unmarked body) (hwrong : ¬ sum_ok body msb lsb = true) (rest : List UInt8) :
    ∃ reply size, recv_packet (noise ++ START :: (body ++ END :: msb :: lsb :: rest)) =
      .ok (.packet reply size false rest) := by
  have hread := receive_packet noise hnoise hbody msb lsb rest
  rw [Bool.eq_false_iff.mpr hwrong] at hread
  obtain ⟨size, hrun⟩ := recv_packet_of hread
  exact ⟨_, size, hrun⟩

/-- A packet is refused in which one byte of the body has become another one,
    and one with a digit that is not that of the sum. -/
theorem recv_packet_damaged {noise : List UInt8} (hnoise : START ∉ noise) (msb lsb : UInt8)
    (rest : List UInt8) :
    (∀ l r c d, Unmarked l → Unmarked r → d ≠ START → d ≠ END → d ≠ c →
      [msb, lsb] = digits (checksum (l ++ c :: r)) →
      ∃ reply size, recv_packet (noise ++ START :: (l ++ d :: r ++ END :: msb :: lsb :: rest)) =
        .ok (.packet reply size false rest)) ∧
    ∀ body, Unmarked body → (Hex.value msb ≠ some ((checksum body).toNat / 16) ∨
        Hex.value lsb ≠ some ((checksum body).toNat % 16)) →
      ∃ reply size, recv_packet (noise ++ START :: (body ++ END :: msb :: lsb :: rest)) =
        .ok (.packet reply size false rest) := by
  refine ⟨fun l r c d hl hr hstart hend hne hdigits => ?_, fun body hbody hdigit => ?_⟩
  · apply recv_packet_refused hnoise
    · intro x hx
      rcases List.mem_append.mp hx with hx | hx
      · exact hl x hx
      · rcases List.mem_cons.mp hx with rfl | hx
        · exact ⟨hstart, hend⟩
        · exact hr x hx
    · -- The digits are those of the body that was sent.
      intro hok
      obtain ⟨rfl, rfl⟩ : msb = _ ∧ lsb = _ := by simpa [digits] using hdigits
      exact checksum_replace hne (sum_ok_unique hok (sum_ok_digits (l ++ c :: r)))
  · apply recv_packet_refused hnoise hbody
    intro hok
    obtain ⟨hm, hl⟩ := sum_ok_iff.mp hok
    rcases hdigit with h | h
    · exact h hm
    · exact h hl

/-- `OK` that has become `NK`, and an empty body with another sum. -/
theorem recv_packet_nk :
    (∃ reply size, recv_packet ([] ++ START :: ([] ++ Hex.ascii 'N' :: Hex.text ['K'] ++
        END :: Hex.ascii '9' :: Hex.ascii 'A' :: [])) = .ok (.packet reply size false [])) ∧
      ∃ reply size, recv_packet
      ([] ++ START :: ([] ++ END :: Hex.ascii '0' :: Hex.ascii '1' :: [])) =
        .ok (.packet reply size false []) := by
  refine ⟨?_, ?_⟩
  · refine (recv_packet_damaged List.not_mem_nil _ _ []).1 [] _ (Hex.ascii 'O') _ unmarked_nil ?_
      (by decide) (by decide) (by decide) rfl
    intro x hx
    rw [List.mem_singleton.mp hx]
    decide
  · exact (recv_packet_damaged List.not_mem_nil _ _ []).2 [] unmarked_nil (.inr (by decide))

end Nemu.QemuDiff
