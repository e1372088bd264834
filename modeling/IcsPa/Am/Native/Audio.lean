import IcsPa.Framework.CArray
import IcsPa.Framework.Ring

/-! # The sound of the native machine

    `am/src/native/native-audio.c`.  `audio_write` puts bytes into the sound
    buffer, and SDL takes them out by `audio_play`.  Both transfer as much as
    they can, in one piece or, at the end of the buffer, in two. -/

open CCall CArray Ring

set_option linter.style.nameCheck false

namespace Am.Native.Audio

/-! ## Section 1: `native-audio.c` -/

def SBUF_SIZE_MAX : Nat := 65536

structure Sbuf where
  sbuf  : CArray UInt8
  head  : Int
  tail  : Int
  count : Int

/-- `nread` of `audio_play`. -/
def nread (len : Int) (s : Sbuf) : Int := if s.count < len then s.count else len

/-- The copies of `audio_play`, and `tail` after them. -/
def copy_out (stream : CArray UInt8) (nread : Int) (s : Sbuf) : Except Fault (CArray UInt8 × Int) :=
  if nread + s.tail < SBUF_SIZE_MAX then do
    let stream ← memcpy stream 0 s.sbuf s.tail nread
    return (stream, s.tail + nread)
  else do
    let first_cpy_len := SBUF_SIZE_MAX - s.tail
    let stream ← memcpy stream 0 s.sbuf s.tail first_cpy_len
    let stream ← memcpy stream first_cpy_len s.sbuf 0 (nread - first_cpy_len)
    return (stream, nread - first_cpy_len)

def audio_play (stream : CArray UInt8) (len : Int) (s : Sbuf) :
    Except Fault (CArray UInt8 × Sbuf) := do
  let nread := nread len s
  let (stream, tail) ← copy_out stream nread s
  let s := { s with tail := tail, count := s.count - nread }
  if len > nread then do
    let stream ← memset stream nread 0 (len - nread)
    return (stream, s)
  else return (stream, s)

/-- `nwrite` of `audio_write`. -/
def nwrite (len : Int) (s : Sbuf) : Int :=
  let free := SBUF_SIZE_MAX - s.count
  if free < len then free else len

/-- The copies of `audio_write`, and `head` after them. -/
def copy_in (buf : CArray UInt8) (nwrite : Int) (s : Sbuf) : Except Fault (CArray UInt8 × Int) :=
  if nwrite + s.head < SBUF_SIZE_MAX then do
    let sbuf ← memcpy s.sbuf s.head buf 0 nwrite
    return (sbuf, s.head + nwrite)
  else do
    let first_cpy_len := SBUF_SIZE_MAX - s.head
    let sbuf ← memcpy s.sbuf s.head buf 0 first_cpy_len
    let sbuf ← memcpy sbuf 0 buf first_cpy_len (nwrite - first_cpy_len)
    return (sbuf, nwrite - first_cpy_len)

def audio_write (buf : CArray UInt8) (len : Int) (s : Sbuf) : Except Fault (Int × Sbuf) := do
  let nwrite := nwrite len s
  let (sbuf, head) ← copy_in buf nwrite s
  return (nwrite, { s with sbuf := sbuf, head := head, count := s.count + nwrite })

/-- `__am_audio_play` of the bytes between `start` and `end`; `none` is a call
    that waits for room. -/
def __am_audio_play (buf : CArray UInt8) (s : Sbuf) : Except Fault (Option (Int × Sbuf)) := do
  let len : Int := buf.size
  cassert (decide (len ≤ SBUF_SIZE_MAX))
  if SBUF_SIZE_MAX - s.count < len then return none
  else do
    let r ← audio_write buf len s
    return some r

/-! ## Section 2: Runs -/

/-- A call, with what the buffer or the stream holds before it; `submit` is
    `__am_audio_play`, at a turn of its loop. -/
inductive Call where
  | write (buf : Nat → UInt8) (len : Int)
  | submit (buf : Nat → UInt8) (len : Int)
  | play (stream : Nat → UInt8) (len : Int)

/-- What a call did: the bytes that `audio_write` reports as written, or
    the stream after `audio_play` with the number of bytes that it took. -/
inductive Outcome where
  | written (bytes : List UInt8)
  | played (nread : Int) (stream : List UInt8)

def Call.len : Call → Int
  | .write _ len => len
  | .submit _ len => len
  | .play _ len => len

def step (s : Sbuf) : Call → Except Fault (Sbuf × Outcome)
  | .write buf len => do
      let (nwrite, s) ← audio_write ⟨len.toNat, buf⟩ len s
      return (s, .written ((⟨len.toNat, buf⟩ : CArray UInt8).slice 0 nwrite.toNat))
  | .submit buf len => do
      match ← __am_audio_play ⟨len.toNat, buf⟩ s with
      | none => return (s, .written [])
      | some (nwrite, s) =>
          return (s, .written ((⟨len.toNat, buf⟩ : CArray UInt8).slice 0 nwrite.toNat))
  | .play stream len => do
      let (out, s') ← audio_play ⟨len.toNat, stream⟩ len s
      return (s', .played (nread len s) (out.slice 0 out.size))

def run (s : Sbuf) : List Call → Except Fault (Sbuf × List Outcome)
  | [] => .ok (s, [])
  | c :: calls => do
      let (s, o) ← step s c
      let (s, os) ← run s calls
      return (s, o :: os)

def Outcome.bytes_written : Outcome → List UInt8
  | .written bytes => bytes
  | .played _ _ => []

/-- The bytes of the stream that are no padding. -/
def Outcome.bytes_played : Outcome → List UInt8
  | .written _ => []
  | .played nread stream => stream.take nread.toNat

def written (os : List Outcome) : List UInt8 := os.flatMap Outcome.bytes_written

def played (os : List Outcome) : List UInt8 := os.flatMap Outcome.bytes_played

/-- The call did what it is for when `n` bytes were in the buffer: `audio_write`
    took as many of the first bytes as there was room for, `__am_audio_play` took
    all or none, and `audio_play` gave as many as it could and filled the stream
    up with zeros. -/
def Answers (n : Nat) : Call → Outcome → Prop
  | .write buf len, .written bytes =>
      bytes = (List.range (min len.toNat (SBUF_SIZE_MAX - n))).map buf
  | .submit buf len, .written bytes =>
      bytes = if len.toNat ≤ SBUF_SIZE_MAX - n then (List.range len.toNat).map buf else []
  | .play _ len, .played nread stream => nread = min len n ∧
      stream.length = len ∧ ∀ x ∈ stream.drop nread.toNat, x = 0
  | _, _ => False

/-- So did all calls, from `n` bytes in the buffer on. -/
inductive AllAnswer : Nat → List Call → List Outcome → Prop where
  | nil (n : Nat) : AllAnswer n [] []
  | cons {n : Nat} {c : Call} {o : Outcome} {calls : List Call} {os : List Outcome}
      (h : Answers n c o)
      (hrest : AllAnswer (n + o.bytes_written.length - o.bytes_played.length) calls os) :
      AllAnswer n (c :: calls) (o :: os)

/-- What holds after a run. -/
structure Plays (calls : List Call) (s : Sbuf) (os : List Outcome) : Prop where
  head    : 0 ≤ s.head ∧ s.head < SBUF_SIZE_MAX
  tail    : 0 ≤ s.tail ∧ s.tail < SBUF_SIZE_MAX
  count   : 0 ≤ s.count ∧ s.count ≤ SBUF_SIZE_MAX
  balance : s.count = (written os).length - (played os).length
  order   : played os <+: written os
  answers : AllAnswer 0 calls os

/-- The sound buffer at first, and after `__am_audio_ctrl`. -/
def start (sbuf : Nat → UInt8) : Sbuf := ⟨⟨SBUF_SIZE_MAX, sbuf⟩, 0, 0, 0⟩

/-! ## Section 3: The FIFO in the buffer -/

/-- The bytes `q` are in the buffer, from `t` on. -/
structure Holds (s : Sbuf) (t : Nat) (q : List UInt8) : Prop where
  size   : s.sbuf.size = SBUF_SIZE_MAX
  tail   : s.tail = t
  lt     : t < SBUF_SIZE_MAX
  count  : s.count = q.length
  fits   : q.length ≤ SBUF_SIZE_MAX
  head   : s.head = ((t + q.length) % SBUF_SIZE_MAX : Nat)
  bytes  : window SBUF_SIZE_MAX s.sbuf.cell t q.length = q

theorem window_slice (a : CArray UInt8) {t n : Nat} (h : t + n ≤ SBUF_SIZE_MAX) :
    window SBUF_SIZE_MAX a.cell t n = a.slice t n := by
  unfold window slice
  apply List.map_congr_left
  intro i hi
  have hlt := List.mem_range.mp hi
  rw [Nat.mod_eq_of_lt (by omega)]

/-- Where `tail` is after `n` bytes. -/
theorem wrap_eq {t n : Nat} (ht : t < SBUF_SIZE_MAX) (hn : n ≤ SBUF_SIZE_MAX) :
    (t + n) % SBUF_SIZE_MAX = if t + n < SBUF_SIZE_MAX then t + n else n - (SBUF_SIZE_MAX - t) := by
  split
  · rename_i hlt
    exact Nat.mod_eq_of_lt hlt
  · rw [Nat.mod_eq_sub_mod (by omega), Nat.mod_eq_of_lt (by omega)]
    omega

/-- The copies of `audio_play` give the first bytes. -/
theorem copy_out_takes {s : Sbuf} {t n : Nat} {q : List UInt8} (h : Holds s t q)
    (stream : CArray UInt8) (hq : n ≤ q.length) (hs : n ≤ stream.size) :
    ∃ out, copy_out stream n s = .ok (out, ((t + n) % SBUF_SIZE_MAX : Nat)) ∧
      out.size = stream.size ∧ out.slice 0 n = q.take n := by
  have hlt := h.lt
  have hfits := h.fits
  have hsize := h.size
  have htake := (window_split hq h.bytes).1
  rw [copy_out, h.tail, wrap_eq h.lt (by omega)]
  -- One `memcpy` if the bytes end before the end of the buffer.
  by_cases hone : t + n < SBUF_SIZE_MAX
  · refine ⟨stream.copied 0 s.sbuf t n, ?_, rfl, ?_⟩
    · have hcopy : memcpy stream 0 s.sbuf t n = .ok (stream.copied 0 s.sbuf t n) :=
        memcpy_ok (d := 0) (by omega) (by omega)
      rw [if_pos (by omega), if_pos hone, hcopy]
      rfl
    · rw [slice_copied, ← window_slice s.sbuf (by omega), htake]
  · -- The bytes up to the end of the buffer, and the others from its start.
    obtain ⟨k, hk⟩ : ∃ k, SBUF_SIZE_MAX = t + k := ⟨SBUF_SIZE_MAX - t, by omega⟩
    obtain ⟨m, hm⟩ : ∃ m, n = k + m := ⟨n - k, by omega⟩
    have hfirst : ((SBUF_SIZE_MAX : Nat) : Int) - t = k := by omega
    have hsecond : (n : Int) - k = m := by omega
    have hcopy₁ : memcpy stream 0 s.sbuf t k = .ok (stream.copied 0 s.sbuf t k) :=
      memcpy_ok (d := 0) (by omega) (by omega)
    have hcopy₂ : memcpy (stream.copied 0 s.sbuf t k) k s.sbuf 0 m =
        .ok ((stream.copied 0 s.sbuf t k).copied k s.sbuf 0 m) :=
      memcpy_ok (s := 0) (by rw [size_copied]; omega) (by omega)
    refine ⟨(stream.copied 0 s.sbuf t k).copied k s.sbuf 0 m, ?_, rfl, ?_⟩
    · have hm' : n - (SBUF_SIZE_MAX - t) = m := by omega
      rw [if_neg (by omega), if_neg hone, hm']
      simp only [hfirst, hsecond, hcopy₁, hcopy₂, ok_bind]
      rfl
    · have hwrap : window SBUF_SIZE_MAX s.sbuf.cell (t + k) m = s.sbuf.slice 0 m := by
        rw [← hk, ← window_mod, Nat.mod_self, window_slice s.sbuf (by omega)]
      rw [← htake, hm, window_add, hwrap, window_slice s.sbuf (by omega), slice_add,
        Nat.zero_add, slice_copied, slice_copied_outside (by omega), slice_copied]

/-- `audio_play` takes bytes out at the front. -/
theorem audio_play_takes {s : Sbuf} {t : Nat} {q : List UInt8} (h : Holds s t q)
    (stream : CArray UInt8) :
    ∃ (n : Nat) (out : CArray UInt8) (s' : Sbuf),
      n = min stream.size q.length ∧ nread stream.size s = n ∧
      audio_play stream stream.size s = .ok (out, s') ∧ out.size = stream.size ∧
      out.slice 0 out.size = q.take n ++ List.replicate (stream.size - n) 0 ∧
      Holds s' ((t + n) % SBUF_SIZE_MAX) (q.drop n) := by
  -- `nread` is the smaller of the two lengths.
  obtain ⟨n, hn, hmin⟩ : ∃ n : Nat, nread stream.size s = n ∧ n = min stream.size q.length := by
    unfold nread
    rw [h.count]
    by_cases hless : (q.length : Int) < stream.size
    · rw [if_pos hless]
      exact ⟨q.length, rfl, by omega⟩
    · rw [if_neg hless]
      exact ⟨stream.size, rfl, by omega⟩
  have hnq : n ≤ q.length := by omega
  have hns : n ≤ stream.size := by omega
  obtain ⟨out, hcopy, hsize, hslice⟩ := copy_out_takes h stream hnq hns
  have hfits := h.fits
  let s' : Sbuf := { s with tail := ((t + n) % SBUF_SIZE_MAX : Nat), count := s.count - n }
  have hholds : Holds s' ((t + n) % SBUF_SIZE_MAX) (q.drop n) := by
    have hlen : (q.drop n).length = q.length - n := List.length_drop
    refine ⟨h.size, rfl, Nat.mod_lt _ (Nat.zero_lt_succ _), ?_, by omega, ?_, ?_⟩
    · show s.count - n = _
      rw [h.count, hlen]
      omega
    · show s.head = _
      rw [h.head, hlen, Nat.mod_add_mod, Nat.add_assoc, show n + (q.length - n) = q.length by omega]
    · rw [hlen, window_mod]
      exact (window_split hnq h.bytes).2
  -- The rest of the stream is silence.
  have hpadded : ∃ out', audio_play stream stream.size s = .ok (out', s') ∧
      out'.size = stream.size ∧
      out'.slice 0 stream.size = q.take n ++ List.replicate (stream.size - n) 0 := by
    have hplay : audio_play stream stream.size s =
        (if (stream.size : Int) > n then do
          let out ← memset out n 0 (stream.size - n)
          return (out, s')
        else return (out, s')) := by
      rw [audio_play, hn, hcopy]
      rfl
    rw [hplay]
    by_cases hpad : n < stream.size
    · have hcast : (stream.size : Int) - n = (stream.size - n : Nat) := by omega
      have hfill : memset out n (0 : UInt8) (stream.size - n : Nat) =
          .ok (out.filled n 0 (stream.size - n)) := memset_ok (by omega)
      refine ⟨out.filled n 0 (stream.size - n), ?_, hsize, ?_⟩
      · rw [if_pos (by omega), hcast, hfill]
        rfl
      · have hsum : n + (stream.size - n) = stream.size := by omega
        nth_rewrite 2 [← hsum]
        rw [slice_add, slice_filled_outside (by omega), Nat.zero_add, slice_filled, hslice]
    · have heq : stream.size = n := by omega
      refine ⟨out, if_neg (by omega), hsize, ?_⟩
      rw [heq, Nat.sub_self, List.replicate_zero, List.append_nil, hslice]
  obtain ⟨out', hplay, hsize', hslice'⟩ := hpadded
  refine ⟨n, out', s', hmin, hn, hplay, hsize', ?_, hholds⟩
  rw [hsize']
  exact hslice'

/-- A copy that ends before the end of the ring. -/
theorem written_copied (dst src : CArray UInt8) {N hd n : Nat} (h : hd + n < N) :
    Written N src.cell dst.cell (dst.copied hd src 0 n).cell hd n where
  inside := by
    intro j hj
    rw [Nat.mod_eq_of_lt (by omega), copied_inside (by omega) (by omega)]
    congr 1
    omega
  outside := by
    intro x _ hne
    apply copied_outside
    by_contra hin
    apply hne (x - hd) (by omega)
    rw [Nat.mod_eq_of_lt (by omega)]
    omega

/-- A copy up to the end of the ring, and one of the others to its start. -/
theorem written_copied_twice (dst src : CArray UInt8) {hd k m : Nat} (hm : m ≤ hd)
    (hhd : hd < hd + k) :
    Written (hd + k) src.cell dst.cell ((dst.copied hd src 0 k).copied 0 src k m).cell
      hd (k + m) where
  inside := by
    intro j hj
    by_cases hjk : j < k
    · rw [Nat.mod_eq_of_lt (by omega), copied_outside (by omega),
        copied_inside (by omega) (by omega)]
      congr 1
      omega
    · have hturn : (hd + j) % (hd + k) = j - k := by
        rw [Nat.mod_eq_sub_mod (by omega), Nat.mod_eq_of_lt (by omega)]
        omega
      rw [hturn, copied_inside (by omega) (by omega)]
      congr 1
      omega
  outside := by
    intro x hx hne
    rw [copied_outside, copied_outside]
    · by_contra hin
      apply hne (x - hd) (by omega)
      rw [Nat.mod_eq_of_lt (by omega)]
      omega
    · by_contra hin
      apply hne (k + x) (by omega)
      rw [← Nat.add_assoc, Nat.add_mod_left, Nat.mod_eq_of_lt hx]

/-- The copies of `audio_write` put bytes behind the FIFO. -/
theorem copy_in_puts {s : Sbuf} {t n : Nat} {q : List UInt8} (h : Holds s t q)
    (buf : CArray UInt8) (hroom : q.length + n ≤ SBUF_SIZE_MAX) (hb : n ≤ buf.size) :
    ∃ sbuf, copy_in buf n s = .ok (sbuf, ((t + (q.length + n)) % SBUF_SIZE_MAX : Nat)) ∧
      sbuf.size = SBUF_SIZE_MAX ∧
      window SBUF_SIZE_MAX sbuf.cell t (q.length + n) = q ++ buf.slice 0 n := by
  obtain ⟨hd, hhd, hhlt⟩ : ∃ hd, (t + q.length) % SBUF_SIZE_MAX = hd ∧ hd < SBUF_SIZE_MAX :=
    ⟨_, rfl, Nat.mod_lt _ (Nat.zero_lt_succ _)⟩
  have hhead : s.head = hd := by rw [h.head, hhd]
  have hsize := h.size
  have hplace : (t + q.length + n) % SBUF_SIZE_MAX = (hd + n) % SBUF_SIZE_MAX := by
    rw [← hhd, Nat.mod_add_mod]
  -- Either way the bytes are behind those of the queue.
  have hwindow : ∀ sbuf : CArray UInt8, Written SBUF_SIZE_MAX buf.cell s.sbuf.cell sbuf.cell hd n →
      window SBUF_SIZE_MAX sbuf.cell t (q.length + n) = q ++ buf.slice 0 n := by
    intro sbuf hwritten
    have hpos : 0 < SBUF_SIZE_MAX := Nat.zero_lt_succ _
    rw [← hhd] at hwritten
    rw [hwritten.window hpos hroom, h.bytes]
    unfold slice
    simp only [Nat.zero_add]
  rw [← Nat.add_assoc, hplace, copy_in, hhead, wrap_eq hhlt (by omega)]
  by_cases hone : hd + n < SBUF_SIZE_MAX
  · have hcopy : memcpy s.sbuf hd buf 0 n = .ok (s.sbuf.copied hd buf 0 n) :=
      memcpy_ok (s := 0) (by omega) (by omega)
    have hsum : (hd : Int) + n = (hd + n : Nat) := rfl
    refine ⟨s.sbuf.copied hd buf 0 n, ?_, hsize, hwindow _ (written_copied _ _ hone)⟩
    rw [if_pos (by omega), if_pos hone, hcopy, ok_bind, hsum]
    rfl
  · -- The bytes up to the end of the buffer, and the others to its start.
    obtain ⟨k, hk⟩ : ∃ k, SBUF_SIZE_MAX = hd + k := ⟨SBUF_SIZE_MAX - hd, by omega⟩
    obtain ⟨m, hm⟩ : ∃ m, n = k + m := ⟨n - k, by omega⟩
    have hfirst : ((SBUF_SIZE_MAX : Nat) : Int) - hd = k := by omega
    have hsecond : (n : Int) - k = m := by omega
    have hcopy₁ : memcpy s.sbuf hd buf 0 k = .ok (s.sbuf.copied hd buf 0 k) :=
      memcpy_ok (s := 0) (by omega) (by omega)
    have hcopy₂ : memcpy (s.sbuf.copied hd buf 0 k) 0 buf k m =
        .ok ((s.sbuf.copied hd buf 0 k).copied 0 buf k m) :=
      memcpy_ok (d := 0) (by rw [size_copied]; omega) (by omega)
    refine ⟨(s.sbuf.copied hd buf 0 k).copied 0 buf k m, ?_, hsize, ?_⟩
    · have hm' : n - (SBUF_SIZE_MAX - hd) = m := by omega
      rw [if_neg (by omega), if_neg hone, hm']
      simp only [hfirst, hsecond, hcopy₁, hcopy₂, ok_bind]
      rfl
    · apply hwindow
      rw [hk, hm]
      exact written_copied_twice _ _ (by omega) (by omega)

/-- `audio_write` puts bytes in at the end. -/
theorem audio_write_puts {s : Sbuf} {t : Nat} {q : List UInt8} (h : Holds s t q)
    (buf : CArray UInt8) :
    ∃ (n : Nat) (s' : Sbuf), n = min buf.size (SBUF_SIZE_MAX - q.length) ∧
      audio_write buf buf.size s = .ok ((n : Int), s') ∧ Holds s' t (q ++ buf.slice 0 n) := by
  have hfits := h.fits
  -- `nwrite` is the smaller of the room and the length.
  obtain ⟨n, hn, hmin⟩ : ∃ n : Nat, nwrite buf.size s = n ∧
      n = min buf.size (SBUF_SIZE_MAX - q.length) := by
    unfold nwrite
    rw [h.count]
    by_cases hfull : ((SBUF_SIZE_MAX : Nat) : Int) - q.length < buf.size
    · rw [if_pos hfull]
      exact ⟨SBUF_SIZE_MAX - q.length, by omega, by omega⟩
    · rw [if_neg hfull]
      exact ⟨buf.size, rfl, by omega⟩
  have hnb : n ≤ buf.size := by omega
  have hroom : q.length + n ≤ SBUF_SIZE_MAX := by omega
  obtain ⟨sbuf, hcopy, hsize, hbytes⟩ := copy_in_puts h buf hroom hnb
  have hlen : (q ++ buf.slice 0 n).length = q.length + n := by
    rw [List.length_append, length_slice]
  let s' : Sbuf := ⟨sbuf, ((t + (q.length + n)) % SBUF_SIZE_MAX : Nat), s.tail, s.count + n⟩
  refine ⟨n, s', hmin, ?_, hsize, h.tail, h.lt, ?_, ?_, ?_, ?_⟩
  · rw [audio_write, hn, hcopy]
    rfl
  · show s.count + n = _
    rw [h.count, hlen]
    rfl
  · rw [hlen]
    exact hroom
  · rw [hlen]
  · rw [hlen]
    exact hbytes

/-! ## Section 4: Runs -/

/-- A call keeps the FIFO, and moves bytes through it. -/
theorem step_fifo {s : Sbuf} {t : Nat} {q : List UInt8} (h : Holds s t q) {c : Call}
    (hlo : 0 ≤ c.len) (hhi : c.len ≤ SBUF_SIZE_MAX) :
    ∃ s' o t' q', step s c = .ok (s', o) ∧ Holds s' t' q' ∧ Answers q.length c o ∧
      q ++ o.bytes_written = o.bytes_played ++ q' := by
  obtain ⟨len, hlen⟩ : ∃ len : Nat, c.len = len := ⟨c.len.toNat, (Int.toNat_of_nonneg hlo).symm⟩
  cases c with
  | write buf _ =>
    obtain rfl : _ = (len : Int) := hlen
    let b : CArray UInt8 := ⟨len, buf⟩
    obtain ⟨n, s', hmin, hwrite, hholds⟩ := audio_write_puts h b
    refine ⟨s', .written (b.slice 0 n), t, q ++ b.slice 0 n, ?_, hholds, ?_, rfl⟩
    · show (audio_write b len s >>= _) = _
      rw [hwrite]
      rfl
    · simp [Answers, slice, b, hmin]
  | submit buf _ =>
    obtain rfl : _ = (len : Int) := hlen
    let b : CArray UInt8 := ⟨len, buf⟩
    have hcount := h.count
    have hfits := h.fits
    -- `assert(len <= sizeof(sbuf))`
    have hassert : decide ((len : Int) ≤ SBUF_SIZE_MAX) = true := decide_eq_true hhi
    by_cases hwait : (SBUF_SIZE_MAX : Int) - s.count < len
    · -- The loop goes on.
      have hcall : __am_audio_play b s = .ok none := by
        unfold __am_audio_play
        simp only [b, hassert, cassert_true, ok_bind, if_pos hwait]
        rfl
      refine ⟨s, .written [], t, q, ?_, h, ?_, List.append_nil q⟩
      · show (__am_audio_play b s >>= _) = _
        rw [hcall]
        rfl
      · exact (if_neg (by rw [Int.toNat_natCast]; omega)).symm
    -- There is room for all of the buffer.
    · obtain ⟨n, s', hmin, hwrite, hholds⟩ := audio_write_puts h b
      have hn : n = len := by
        rw [hmin]
        show min len _ = len
        omega
      have hcall : __am_audio_play b s = .ok (some ((n : Int), s')) := by
        unfold __am_audio_play
        simp only [b, hassert, cassert_true, ok_bind, if_neg hwait] at hwrite ⊢
        rw [hwrite]
        rfl
      refine ⟨s', .written (b.slice 0 n), t, q ++ b.slice 0 n, ?_, hholds, ?_, rfl⟩
      · show (__am_audio_play b s >>= _) = _
        rw [hcall]
        rfl
      · refine Eq.trans ?_ (if_pos (by rw [Int.toNat_natCast]; omega)).symm
        simp [slice, b, hn]
  | play stream _ =>
    obtain rfl : _ = (len : Int) := hlen
    let b : CArray UInt8 := ⟨len, stream⟩
    obtain ⟨n, out, s', hmin, hn, hplay, hsize, hslice, hholds⟩ := audio_play_takes h b
    have hnq : n ≤ q.length := by omega
    -- What comes out is the front of the queue, and then silence.
    have htaken : (out.slice 0 out.size).take n = q.take n := by
      rw [hslice, List.take_left' (List.length_take_of_le hnq)]
    have hpadding : (out.slice 0 out.size).drop n = List.replicate (len - n) 0 := by
      rw [hslice, List.drop_left' (List.length_take_of_le hnq)]
    refine ⟨s', .played n (out.slice 0 out.size), _, q.drop n, ?_, hholds, ?_, ?_⟩
    · show (audio_play b len s >>= fun r =>
        .ok (r.2, Outcome.played (nread len s) (r.1.slice 0 r.1.size))) = _
      rw [hplay]
      show Except.ok (s', Outcome.played (nread len s) _) = _
      rw [hn]
    · have hmin' : n = min len q.length := hmin
      refine ⟨by omega, ?_, ?_⟩
      · rw [length_slice, hsize]
      · intro x hx
        rw [Int.toNat_natCast, hpadding] at hx
        exact List.eq_of_mem_replicate hx
    · show q ++ [] = (out.slice 0 out.size).take n ++ q.drop n
      rw [htaken, List.append_nil, List.take_append_drop]

/-- So do the calls of a run. -/
theorem run_fifo {calls : List Call} (hlen : ∀ c ∈ calls, 0 ≤ c.len ∧ c.len ≤ SBUF_SIZE_MAX)
    {s : Sbuf} {t : Nat} {q : List UInt8} (h : Holds s t q) :
    ∃ s' os t' q', run s calls = .ok (s', os) ∧ Holds s' t' q' ∧
      AllAnswer q.length calls os ∧ q ++ written os = played os ++ q' := by
  induction calls generalizing s t q with
  | nil => exact ⟨s, [], t, q, rfl, h, .nil q.length, List.append_nil q⟩
  | cons c calls ih =>
    obtain ⟨hlo, hhi⟩ := hlen c List.mem_cons_self
    obtain ⟨s₁, o, t₁, q₁, hstep, h₁, hanswer, hbytes⟩ := step_fifo h hlo hhi
    obtain ⟨s', os, t', q', hrun, h', hanswers, hrest⟩ :=
      ih (fun c' hc' => hlen c' (List.mem_cons_of_mem c hc')) h₁
    have hleft : q₁.length = q.length + o.bytes_written.length - o.bytes_played.length := by
      have hsum := congrArg List.length hbytes
      rw [List.length_append, List.length_append] at hsum
      omega
    refine ⟨s', o :: os, t', q', ?_, h', .cons hanswer (hleft ▸ hanswers), ?_⟩
    · rw [run, hstep]
      show (run s₁ calls >>= _) = _
      rw [hrun]
      rfl
    · calc q ++ (o.bytes_written ++ written os)
        _ = (q ++ o.bytes_written) ++ written os := (List.append_assoc _ _ _).symm
        _ = o.bytes_played ++ (q₁ ++ written os) := by rw [hbytes, List.append_assoc]
        _ = (o.bytes_played ++ played os) ++ q' := by rw [hrest, List.append_assoc]

/-- However the calls come, the bytes that are played are the bytes written,
    in order, and what is not played yet is in the buffer. -/
theorem audio_plays (sbuf : Nat → UInt8) (calls : List Call)
    (hlen : ∀ c ∈ calls, 0 ≤ c.len ∧ c.len ≤ 65536) :
    ∃ s os, run (start sbuf) calls = .ok (s, os) ∧ Plays calls s os := by
  have hstart : Holds (start sbuf) 0 [] :=
    ⟨rfl, rfl, Nat.zero_lt_succ _, rfl, Nat.zero_le _, rfl, rfl⟩
  obtain ⟨s, os, t, q, hrun, h, hanswers, hbytes⟩ := run_fifo hlen hstart
  rw [List.nil_append] at hbytes
  have hsum : (written os).length = (played os).length + q.length := by
    rw [hbytes, List.length_append]
  have hlt := h.lt
  have hhead : (t + q.length) % SBUF_SIZE_MAX < SBUF_SIZE_MAX := Nat.mod_lt _ (Nat.zero_lt_succ _)
  have hfits := h.fits
  refine ⟨s, os, hrun, ?_, ?_, ?_, ?_, ?_, hanswers⟩
  · rw [h.head]
    exact ⟨Int.natCast_nonneg _, by exact_mod_cast hhead⟩
  · rw [h.tail]
    exact ⟨Int.natCast_nonneg _, by exact_mod_cast hlt⟩
  · rw [h.count]
    exact ⟨Int.natCast_nonneg _, by exact_mod_cast hfits⟩
  · rw [h.count, hsum]
    omega
  · rw [hbytes]
    exact List.prefix_append _ _

/-- The buffer is filled to its end, played, and filled across its end. -/
theorem audio_plays_wrap : ∃ s os, run (start fun _ => 0)
      [.write (fun _ => 1) 65536, .play (fun _ => 9) 65000, .submit (fun _ => 2) 1000,
        .play (fun _ => 9) 2000] = .ok (s, os) ∧
      Plays [.write (fun _ => 1) 65536, .play (fun _ => 9) 65000, .submit (fun _ => 2) 1000,
        .play (fun _ => 9) 2000] s os := by
  apply audio_plays
  intro c hc
  simp only [List.mem_cons, List.not_mem_nil, or_false] at hc
  rcases hc with rfl | rfl | rfl | rfl <;> exact ⟨by decide, by decide⟩

end Am.Native.Audio
