import IcsPa.Framework.Hex
import Mathlib.Data.List.TakeWhile

/-! # Packets with a checksum

    The format of a remote serial protocol.  A packet is `$`, a body, `#` and
    the sum of the body's bytes as two hexadecimal digits.  In the body `}`
    stands before a byte that is sent with bit 5 flipped, and `*` with a count
    behind it repeats the last byte.

    `receive` reads the first packet of a text.  Whatever may stand in the
    body, `decode` gives it a meaning; `decode_text` says that the bodies a
    sender builds from tokens mean what they are built from. -/

namespace Packet

abbrev START : UInt8 := Hex.ascii '$'
abbrev END : UInt8 := Hex.ascii '#'
abbrev ESC : UInt8 := Hex.ascii '}'
abbrev REP : UInt8 := Hex.ascii '*'

/-- The bytes that mean something else than themselves. -/
def special (c : UInt8) : Bool := c == START || c == END || c == ESC || c == REP

theorem not_special {c : UInt8} : special c = false ↔ c ≠ START ∧ c ≠ END ∧ c ≠ ESC ∧ c ≠ REP := by
  unfold special
  rw [Bool.or_eq_false_iff, Bool.or_eq_false_iff, Bool.or_eq_false_iff, beq_eq_false_iff_ne,
    beq_eq_false_iff_ne, beq_eq_false_iff_ne, beq_eq_false_iff_ne]
  tauto

/-! ## Checksums -/

def checksum (l : List UInt8) : UInt8 := l.foldl (· + ·) 0

theorem foldl_add (l : List UInt8) (s : UInt8) : l.foldl (· + ·) s = s + checksum l := by
  unfold checksum
  induction l generalizing s with
  | nil => exact (UInt8.add_zero s).symm
  | cons c l ih =>
    rw [List.foldl_cons, List.foldl_cons, ih, ih (0 + c), UInt8.zero_add, UInt8.add_assoc]

@[simp] theorem checksum_nil : checksum [] = 0 := rfl

@[simp] theorem checksum_cons (c : UInt8) (l : List UInt8) :
    checksum (c :: l) = c + checksum l := by
  show l.foldl (· + ·) (0 + c) = _
  rw [foldl_add, UInt8.zero_add]

theorem checksum_append (l l' : List UInt8) : checksum (l ++ l') = checksum l + checksum l' := by
  unfold checksum
  rw [List.foldl_append, foldl_add]
  rfl

/-- Whether two digits are the sum of a body. -/
def sum_ok (body : List UInt8) (msb lsb : UInt8) : Bool :=
  match Hex.value msb, Hex.value lsb with
  | some h, some l => (checksum body).toNat == 16 * h + l
  | _, _ => false

/-- The upper-case digit `d`. -/
def upper_digit (d : Nat) : UInt8 :=
  if d < 10 then UInt8.ofNat ('0'.toNat + d) else UInt8.ofNat ('A'.toNat + (d - 10))

theorem value_upper_digit {d : Nat} (hd : d < 16) : Hex.value (upper_digit d) = some d := by
  have hall : ∀ d < 16, Hex.value (upper_digit d) = some d := by decide
  exact hall d hd

/-- `%02X` -/
def digits (s : UInt8) : List UInt8 := [upper_digit (s.toNat / 16), upper_digit (s.toNat % 16)]

def frame (body : List UInt8) : List UInt8 := START :: (body ++ END :: digits (checksum body))

/-! ## Bodies -/

/-- A byte that can stand behind `*`, 29 above the count. -/
def is_count (c : UInt8) : Bool := 29 ≤ c && c ≤ 126 && c != START && c != END

def unescape (escape : Bool) (c : UInt8) : UInt8 := if escape then c ^^^ 0x20 else c

/-- The last byte again, `n` times. -/
def repeat_last (reply : List UInt8) (n : Nat) : List UInt8 :=
  reply ++ List.replicate n (reply.getLastD 0)

/-- What a body adds to the bytes so far; `escape` tells that `}` has come. -/
def decode : Bool → List UInt8 → List UInt8 → Bool × List UInt8
  | escape, reply, [] => (escape, reply)
  | escape, reply, [c] => if c = ESC then (true, reply) else (false, reply ++ [unescape escape c])
  | escape, reply, c :: d :: body =>
      if c = ESC then decode true reply (d :: body)
      else if c = REP ∧ reply ≠ [] ∧ is_count d = true then
        decode escape (repeat_last reply (d.toNat - 29)) body
      else decode false (reply ++ [unescape escape c]) (d :: body)

theorem decode_esc (escape : Bool) (reply body : List UInt8) :
    decode escape reply (ESC :: body) = decode true reply body := by
  cases body with
  | nil => rfl
  | cons d body => exact if_pos rfl

theorem decode_rep (escape : Bool) {reply : List UInt8} {d : UInt8} (body : List UInt8)
    (hreply : reply ≠ []) (hd : is_count d = true) :
    decode escape reply (REP :: d :: body) = decode escape
    (repeat_last reply (d.toNat - 29)) body := by
  rw [decode, if_neg (by decide), if_pos ⟨rfl, hreply, hd⟩]

/-- Every other byte stands for itself, with its bit flipped behind `}`. -/
theorem decode_byte (escape : Bool) (reply : List UInt8) {c : UInt8} {body : List UInt8}
    (hesc : c ≠ ESC)
    (hrep : c = REP → reply ≠ [] → ∀ d ∈ body.head?, is_count d = false) :
    decode escape reply (c :: body) = decode false (reply ++ [unescape escape c]) body := by
  cases body with
  | nil => exact if_neg hesc
  | cons d body =>
    rw [decode, if_neg hesc, if_neg]
    rintro ⟨hc, hreply, hd⟩
    rw [hrep hc hreply d rfl] at hd
    cases hd

/-! ## Tokens -/

/-- What a sender puts into a body. -/
inductive Token where
  | byte (c : UInt8)
  | escaped (c : UInt8)
  | repeated (n : Nat)

namespace Token

def text : Token → List UInt8
  | byte c => [c]
  | escaped c => [ESC, c ^^^ 0x20]
  | repeated n => [REP, UInt8.ofNat (n + 29)]

/-- The bytes after a token. -/
def read (reply : List UInt8) : Token → List UInt8
  | byte c => reply ++ [c]
  | escaped c => reply ++ [c]
  | repeated n => repeat_last reply n

/-- A token that may follow some bytes. -/
def Valid (reply : List UInt8) : Token → Prop
  | byte c => special c = false
  | escaped c => special (c ^^^ 0x20) = false
  | repeated n => reply ≠ [] ∧ n + 29 ≤ 126 ∧ is_count (UInt8.ofNat (n + 29)) = true

end Token

def text (ts : List Token) : List UInt8 := ts.flatMap Token.text

def meaning (reply : List UInt8) (ts : List Token) : List UInt8 := ts.foldl Token.read reply

def Valid : List UInt8 → List Token → Prop
  | _, [] => True
  | reply, t :: ts => t.Valid reply ∧ Valid (t.read reply) ts

theorem xor_twice (c : UInt8) : c ^^^ 0x20 ^^^ 0x20 = c := by
  rw [UInt8.xor_assoc, UInt8.xor_self, UInt8.xor_zero]

/-- A body means what it is built from. -/
theorem decode_text {ts : List Token} {reply : List UInt8} (h : Valid reply ts)
    (body : List UInt8) :
    decode false reply (text ts ++ body) = decode false (meaning reply ts) body := by
  induction ts generalizing reply with
  | nil => rfl
  | cons t ts ih =>
    obtain ⟨ht, hts⟩ := h
    -- The first token has been read.
    refine Eq.trans ?_ (ih hts)
    cases t with
    | byte c =>
      obtain ⟨-, -, hesc, hrep⟩ := not_special.mp ht
      exact decode_byte false reply hesc fun hc => absurd hc hrep
    | escaped c =>
      obtain ⟨-, -, hesc, hrep⟩ := not_special.mp ht
      show decode false reply (ESC :: (c ^^^ 0x20) :: (text ts ++ body)) = _
      rw [decode_esc, decode_byte true reply hesc fun hc => absurd hc hrep]
      show decode false (reply ++ [c ^^^ 0x20 ^^^ 0x20]) _ = _
      rw [xor_twice]
      rfl
    | repeated n =>
      obtain ⟨hreply, hn, hcount⟩ := ht
      have hval : (UInt8.ofNat (n + 29)).toNat - 29 = n := by
        rw [UInt8.toNat_ofNat_of_lt' (by show n + 29 < 256; omega)]
        omega
      show decode false reply (REP :: UInt8.ofNat (n + 29) :: (text ts ++ body)) = _
      rw [decode_rep false _ hreply hcount, hval]
      rfl

/-- The plain encoding, which escapes the special bytes. -/
def escape (l : List UInt8) : List Token := l.map fun c => if special c then .escaped c else .byte c

theorem special_flip (c : UInt8) (hc : special c = true) : special (c ^^^ 0x20) = false := by
  have hcases : c = START ∨ c = END ∨ c = ESC ∨ c = REP := by
    unfold special at hc
    simpa [or_assoc] using hc
  rcases hcases with rfl | rfl | rfl | rfl <;> rfl

theorem valid_escape (l reply : List UInt8) : Valid reply (escape l) := by
  induction l generalizing reply with
  | nil => trivial
  | cons c l ih =>
    refine ⟨?_, ih _⟩
    show Token.Valid reply (if special c then .escaped c else .byte c)
    split
    · rename_i hc
      exact special_flip c hc
    · rename_i hc
      exact Bool.eq_false_iff.mpr hc

theorem meaning_escape (l reply : List UInt8) : meaning reply (escape l) = reply ++ l := by
  induction l generalizing reply with
  | nil => exact (List.append_nil reply).symm
  | cons c l ih =>
    have hread : Token.read reply (if special c then .escaped c else .byte c) = reply ++ [c] := by
      split <;> rfl
    show meaning (Token.read reply (if special c then .escaped c else .byte c)) (escape l) = _
    rw [hread, ih, List.append_assoc]
    rfl

theorem text_escape {l : List UInt8} (h : ∀ c ∈ l, special c = false) : text (escape l) = l := by
  induction l with
  | nil => rfl
  | cons c l ih =>
    have hc : special c = false := h c List.mem_cons_self
    show Token.text (if special c then .escaped c else .byte c) ++ text (escape l) = _
    rw [if_neg (by rw [hc]; exact Bool.false_ne_true),
      ih fun d hd => h d (List.mem_cons_of_mem c hd)]
    rfl

/-- No mark of a packet stands in the body. -/
def Unmarked (body : List UInt8) : Prop := ∀ c ∈ body, c ≠ START ∧ c ≠ END

theorem unmarked_nil : Unmarked [] := fun _ hc => absurd hc List.not_mem_nil

theorem unmarked_text {ts : List Token} {reply : List UInt8} (h : Valid reply ts) :
    Unmarked (text ts) := by
  induction ts generalizing reply with
  | nil => exact unmarked_nil
  | cons t ts ih =>
    obtain ⟨ht, hts⟩ := h
    intro c hc
    rcases List.mem_append.mp hc with hc | hc
    · cases t with
      | byte d =>
        obtain ⟨hstart, hend, -⟩ := not_special.mp ht
        rw [List.mem_singleton.mp hc]
        exact ⟨hstart, hend⟩
      | escaped d =>
        obtain ⟨hstart, hend, -⟩ := not_special.mp ht
        have hpair : c = ESC ∨ c = d ^^^ 0x20 := by simpa [Token.text] using hc
        rcases hpair with rfl | rfl
        · decide
        · exact ⟨hstart, hend⟩
      | repeated n =>
        obtain ⟨-, -, hcount⟩ := ht
        have hpair : c = REP ∨ c = UInt8.ofNat (n + 29) := by simpa [Token.text] using hc
        rcases hpair with rfl | rfl
        · decide
        · unfold is_count at hcount
          simp only [Bool.and_eq_true, bne_iff_ne] at hcount
          exact ⟨hcount.1.2, hcount.2⟩
    · exact ih hts c hc

/-! ## Reading a packet -/

/-- The body that ends at the next `#`, and the text behind it; a `$` begins a
    new body. -/
def scan : List UInt8 → List UInt8 → Option (List UInt8 × List UInt8)
  | _, [] => none
  | body, c :: input =>
      if c = START then scan [] input
      else if c = END then some (body, input)
      else scan (body ++ [c]) input

/-- The first packet of a text: its bytes, whether its sum is right, and the
    text behind it. -/
def receive (input : List UInt8) : Option (List UInt8 × Bool × List UInt8) :=
  (scan [] ((input.dropWhile (· ≠ START)).drop 1)).map fun (body, tail) =>
    ((decode false [] body).2, sum_ok body (tail.getD 0 255) (tail.getD 1 255), tail.drop 2)

theorem scan_unmarked {seg : List UInt8} (h : Unmarked seg) (body rest : List UInt8) :
    scan body (seg ++ rest) = scan (body ++ seg) rest := by
  induction seg generalizing body with
  | nil => rw [List.append_nil, List.nil_append]
  | cons c seg ih =>
    obtain ⟨hstart, hend⟩ := h c List.mem_cons_self
    rw [List.cons_append, scan, if_neg hstart, if_neg hend,
      ih fun d hd => h d (List.mem_cons_of_mem c hd), List.append_assoc]
    rfl

theorem sum_ok_digits (body : List UInt8) :
    sum_ok body (upper_digit ((checksum body).toNat / 16))
    (upper_digit ((checksum body).toNat % 16)) = true := by
  have hlt := (checksum body).toNat_lt
  unfold sum_ok
  rw [value_upper_digit (by omega), value_upper_digit (by omega), beq_iff_eq, Nat.div_add_mod]

/-- Everything before the first `$` is skipped. -/
theorem dropWhile_start {lead : List UInt8} (hlead : START ∉ lead) (rest : List UInt8) :
    (lead ++ START :: rest).dropWhile (· ≠ START) = START :: rest := by
  have hall : ∀ c ∈ lead, decide (c ≠ START) = true := by
    intro c hc
    apply decide_eq_true
    rintro rfl
    exact hlead hc
  rw [List.dropWhile_append_of_pos hall, List.dropWhile_cons_of_neg (by simp)]

/-- A packet behind some noise. -/
theorem receive_packet (noise : List UInt8) {body : List UInt8} (hnoise : START ∉ noise)
    (hbody : Unmarked body)
    (msb lsb : UInt8) (rest : List UInt8) :
    receive (noise ++ START :: (body ++ END :: msb :: lsb :: rest)) =
      some ((decode false [] body).2, sum_ok body msb lsb, rest) := by
  unfold receive
  rw [dropWhile_start hnoise, List.drop_one, List.tail_cons, scan_unmarked hbody, List.nil_append,
    scan, if_neg (by decide),
    if_pos rfl]
  rfl

/-- A frame is read back. -/
theorem receive_frame (noise : List UInt8) (hnoise : START ∉ noise) {ts : List Token}
    (hts : Valid [] ts) (rest : List UInt8) :
    receive (noise ++ frame (text ts) ++ rest) = some (meaning [] ts, true, rest) := by
  have hdecode := decode_text hts []
  rw [List.append_nil] at hdecode
  have hshape : noise ++ frame (text ts) ++ rest = noise ++ START :: (text ts ++
      END :: upper_digit ((checksum (text ts)).toNat / 16) ::
        upper_digit ((checksum (text ts)).toNat % 16) :: rest) := by
    simp [frame, digits]
  rw [hshape, receive_packet noise hnoise (unmarked_text hts), sum_ok_digits, hdecode]
  rfl

/-- What `scan` finds stands between a `$` and a `#`, without a mark; no `#` is
    before it. -/
theorem scan_cut {body : List UInt8} (hbody : Unmarked body) (input : List UInt8) :
    scan body input = none ∧ END ∉ input ∨
      ∃ front tail, scan body input = some (front, tail) ∧ Unmarked front ∧
        ∃ lead, START :: (body ++ input) = lead ++ START :: (front ++ END :: tail) ∧
          END ∉ lead := by
  induction input generalizing body with
  | nil => exact .inl ⟨rfl, List.not_mem_nil⟩
  | cons c input ih =>
    rw [scan]
    by_cases hstart : c = START
    · -- The body is broken off.
      subst hstart
      rw [if_pos rfl]
      rcases ih unmarked_nil with ⟨hnone, hend⟩ | ⟨front, tail, hsome, hfront, lead, hlead, hno⟩
      · refine .inl ⟨hnone, fun h => ?_⟩
        rcases List.mem_cons.mp h with h | h
        · exact absurd h (by decide)
        · exact hend h
      · refine .inr ⟨front, tail, hsome, hfront, START :: (body ++ lead), ?_, fun h => ?_⟩
        · rw [List.cons_append, List.append_assoc, ← hlead]
          rfl
        · rcases List.mem_cons.mp h with h | h
          · exact absurd h (by decide)
          · rcases List.mem_append.mp h with h | h
            · exact (hbody END h).2 rfl
            · exact hno h
    · by_cases hend : c = END
      · subst hend
        rw [if_neg hstart, if_pos rfl]
        exact .inr ⟨body, input, rfl, hbody, [], rfl, List.not_mem_nil⟩
      · rw [if_neg hstart, if_neg hend]
        have hnext : Unmarked (body ++ [c]) := by
          intro d hd
          rcases List.mem_append.mp hd with hd | hd
          · exact hbody d hd
          · rw [List.mem_singleton.mp hd]
            exact ⟨hstart, hend⟩
        rcases ih hnext with ⟨hnone, hno⟩ | ⟨front, tail, hsome, hfront, lead, hlead, hno⟩
        · refine .inl ⟨hnone, fun h => ?_⟩
          rcases List.mem_cons.mp h with h | h
          · exact hend h.symm
          · exact hno h
        · rw [List.append_assoc] at hlead
          exact .inr ⟨front, tail, hsome, hfront, lead, hlead, hno⟩

/-- A text has no packet if no `#` follows its first `$`, and else the packet
    that is read is the first one that is complete: before it are bytes without a
    `$`, and packets that are broken off. -/
theorem receive_cut (input : List UInt8) :
    receive input = none ∧
    (∀ lead rest, input = lead ++ START :: rest → START ∉ lead → END ∉ rest) ∨
      ∃ noise broken body tail, input = noise ++ broken ++ START :: (body ++ END :: tail) ∧
        START ∉ noise ∧ END ∉ broken ∧ Unmarked body ∧
        receive input =
          some ((decode false [] body).2, sum_ok body (tail.getD 0 255) (tail.getD 1 255),
            tail.drop 2) := by
  have hsplit : input = input.takeWhile (· ≠ START) ++ input.dropWhile (· ≠ START) :=
    List.takeWhile_append_dropWhile.symm
  unfold receive
  cases hdrop : input.dropWhile (· ≠ START) with
  | nil =>
    refine .inl ⟨rfl, fun lead rest h hlead => ?_⟩
    rw [h, dropWhile_start hlead] at hdrop
    cases hdrop
  | cons c after =>
    have hc : c = START := by
      have := List.head?_dropWhile_not (fun c => decide (c ≠ START)) input
      rw [hdrop] at this
      simpa using this
    subst hc
    rw [List.drop_one, List.tail_cons]
    rcases scan_cut unmarked_nil after with
      ⟨hnone, hend⟩ | ⟨front, tail, hsome, hfront, lead, hlead, hno⟩
    · refine .inl ⟨by rw [hnone]; rfl, fun lead rest h hlead => ?_⟩
      rw [h, dropWhile_start hlead] at hdrop
      cases hdrop
      exact hend
    · refine .inr ⟨input.takeWhile (· ≠ START), lead, front, tail, ?_, fun h => ?_, hno, hfront,
        by rw [hsome]; rfl⟩
      · rw [List.append_assoc, ← hlead, List.nil_append, ← hdrop]
        exact hsplit
      · have hmem := List.mem_takeWhile_imp h
        simp at hmem

/-! ## Damage -/

/-- Another byte in the place of one changes the sum. -/
theorem checksum_replace {l r : List UInt8} {c d : UInt8} (h : c ≠ d) :
    checksum (l ++ c :: r) ≠ checksum (l ++ d :: r) := by
  rw [checksum_append, checksum_append, checksum_cons, checksum_cons]
  intro heq
  have hinner := UInt8.add_right_inj (checksum l) |>.mp heq
  exact h ((UInt8.add_left_inj (checksum r)).mp hinner)

/-- Digits are the sum of one checksum only. -/
theorem sum_ok_unique {body body' : List UInt8} {msb lsb : UInt8} (h : sum_ok body msb lsb = true)
    (h' : sum_ok body' msb lsb = true) : checksum body = checksum body' := by
  unfold sum_ok at h h'
  split at h
  · rename_i h₁ h₂
    rw [h₁, h₂] at h'
    apply UInt8.toNat_inj.mp
    rw [beq_iff_eq.mp h, beq_iff_eq.mp h']
  · cases h

theorem value_lt {c : UInt8} {d : Nat} (h : Hex.value c = some d) : d < 16 := by
  have hall : ∀ n < 256, ∀ d ∈ Hex.value (UInt8.ofNat n), d < 16 := by decide +kernel
  have hc := hall c.toNat c.toNat_lt d
  rw [UInt8.ofNat_toNat] at hc
  exact hc h

/-- The two digits of a sum. -/
theorem sum_ok_iff {body : List UInt8} {msb lsb : UInt8} :
    sum_ok body msb lsb = true ↔
      Hex.value msb = some ((checksum body).toNat / 16) ∧
      Hex.value lsb = some ((checksum body).toNat % 16) := by
  unfold sum_ok
  cases hm : Hex.value msb with
  | none => simp
  | some h =>
    cases hl : Hex.value lsb with
    | none => simp
    | some l =>
      have hh := value_lt hm
      have hl' := value_lt hl
      rw [beq_iff_eq, Option.some.injEq, Option.some.injEq]
      omega

end Packet
