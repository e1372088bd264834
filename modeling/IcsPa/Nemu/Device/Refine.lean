import IcsPa.Nemu.Device.Board
import IcsPa.Nemu.Keyboard.Order

/-! # The shared array is seven memories

    A machine that shares one array, two tables and a ring buffer among its
    devices does for the guest what the seven devices of `Parts` do.  The two
    are in lockstep over every run: each read returns the same, the same goes
    to `stderr`, and where one stops the other stops. -/

open CCall Bytes

namespace Nemu.Device

open Am Paddr Keyboard

section now
variable (now : Nat → Timeval) (io_space : Nat)

/-! ## Section 1: The tables -/

namespace Part

theorem size_pos (p : Part) : 0 < p.size := by cases p <;> decide

theorem offset_eq_some {start : Part → Option Nat} {addr i : Nat} {p q : Part}
    (h : offset start addr p = some (q, i)) :
    q = p ∧ start p = some (addr - i) ∧ i ≤ addr ∧ i < p.size := by
  obtain ⟨low, hlow, hin⟩ := Option.bind_eq_some_iff.mp h
  by_cases hwin : low ≤ addr ∧ addr < low + p.size
  · rw [if_pos hwin] at hin
    cases hin
    have hsub : addr - (addr - low) = low := by omega
    exact ⟨rfl, by rw [hsub, hlow], by omega, by omega⟩
  · rw [if_neg hwin] at hin
    cases hin

/-- The address is in the window of the device that is there. -/
theorem located_eq_some {start : Part → Option Nat} {addr i : Nat} {p : Part}
    (h : located start addr = some (p, i)) :
    start p = some (addr - i) ∧ i ≤ addr ∧ i < p.size := by
  obtain ⟨q, _, hq⟩ := List.exists_of_findSome?_eq_some h
  obtain ⟨rfl, hrest⟩ := offset_eq_some hq
  exact hrest

end Part

@[simp] theorem map_low (p : Part) (low : Nat) : (p.map now io_space low).low = low := rfl

@[simp] theorem map_high (p : Part) (low : Nat) :
    (p.map now io_space low).high = low + p.size - 1 := rfl

@[simp] theorem map_space (p : Part) (low : Nat) :
    (p.map now io_space low).space = io_space + p.spot := rfl

theorem map_inside_part (p : Part) (low addr : Nat) :
    map_inside (p.map now io_space low) addr = true ↔ low ≤ addr ∧ addr < low + p.size := by
  have hpos := p.size_pos
  show (decide (low ≤ addr) && decide (addr ≤ low + p.size - 1)) = true ↔ _
  simp only [Bool.and_eq_true, decide_eq_true_eq]
  omega

/-- The table is searched for the device at the address. -/
theorem fetch_table (start : Part → Option Nat) (addr : Nat) (ps : List Part) :
    fetch_mmio_map (table now io_space start ps) addr =
      (ps.findSome? (Part.offset start addr)).map fun x => x.1.map now io_space (addr - x.2) := by
  induction ps with
  | nil => rfl
  | cons p ps ih =>
    cases hlow : start p with
    | none =>
      have hskip : Part.offset start addr p = none := by simp [Part.offset, hlow]
      rw [List.findSome?_cons, hskip]
      unfold table
      rw [List.filterMap_cons, hlow]
      exact ih
    | some low =>
      unfold table
      rw [List.filterMap_cons, hlow, List.findSome?_cons]
      show List.find? _ (p.map now io_space low :: _) = _
      by_cases hwin : low ≤ addr ∧ addr < low + p.size
      · have hoffset : Part.offset start addr p = some (p, addr - low) := by
          simp [Part.offset, hlow, hwin]
        have hsub : addr - (addr - low) = low := by omega
        have hinside : map_inside (p.map now io_space low) addr = true :=
          (map_inside_part now io_space p low addr).mpr hwin
        simp [hinside, hoffset, hsub]
      · have hoffset : Part.offset start addr p = none := by
          simp [Part.offset, hlow, hwin]
        have hinside : map_inside (p.map now io_space low) addr = false :=
          Bool.eq_false_iff.mpr fun h => hwin ((map_inside_part now io_space p low addr).mp h)
        rw [List.find?_cons, hinside, hoffset]
        exact ih

theorem fetch_none {start : Part → Option Nat} {addr : Nat} (h : Part.located start addr = none) :
    fetch_mmio_map (table now io_space start Part.all) addr = none := by
  rw [fetch_table, show Part.all.findSome? (Part.offset start addr) = none from h]
  rfl

theorem fetch_some {start : Part → Option Nat} {addr i : Nat} {p : Part}
    (h : Part.located start addr = some (p, i)) :
    ∃ low, addr = low + i ∧ i < p.size ∧ start p = some low ∧
      fetch_mmio_map (table now io_space start Part.all) addr = some (p.map now io_space low) := by
  obtain ⟨hstart, hi, hsize⟩ := Part.located_eq_some h
  refine ⟨addr - i, by omega, hsize, hstart, ?_⟩
  rw [fetch_table, show Part.all.findSome? (Part.offset start addr) = some (p, i) from h]
  rfl

/-! ## Section 2: What a handler does -/

/-- The array holds the registers, the ring buffer the keys; the bytes of the
    host around the array are the ones of `host`. -/
structure Rel (host : Store) (io : Devices Board) (s : Parts) : Prop where
  regs    : (layout io_space).Holds io.bytes s.regs
  outside : ∀ x, x < io_space ∨ io_space + 2097152 ≤ x → io.bytes x = host x
  keys    : Holds io.state.keys s.keys
  asked   : io.state.asked = s.asked
  stderr  : io.state.stderr = s.stderr

variable {now io_space} {host : Store} {io : Devices Board} {s : Parts}

/-- A store of the guest, or of a handler, to the device's own bytes. -/
theorem Rel.store (h : Rel io_space host io s) (p : Part) (i v n : Nat) (hin : i + n ≤ p.extent) :
    Rel io_space host { io with bytes := store io.bytes (io_space + p.spot + i) v n }
      (s.set p (Bytes.store (s.regs p) i v n)) where
  regs := h.regs.store v hin
  outside x hx := by
    have hspot := p.spot_le
    rw [← h.outside x hx]
    exact store_outside (by omega)
  keys := h.keys
  asked := h.asked
  stderr := h.stderr

/-- The callback that a device registered, when it stops by an assertion. -/
theorem invoke_part {p : Part} {low i len : Nat} {w : Bool} {y : Except Fault Parts}
    {f : Nat → Nat → Bool → Devices Board → Except Fault (Devices Board)}
    (hf : p.handler now (io_space + p.spot) = some f)
    (h : Lockstep (Rel io_space host) (f i len w io) y) (hy : ∀ e, y = .error e → e = .assertion) :
    Lockstep (Rel io_space host) (invoke_callback (p.map now io_space low) i len w io) y := by
  have hcall : (p.map now io_space low).callback = callback f := by
    show (p.handler now (io_space + p.spot)).bind callback = callback f
    rw [hf]
    rfl
  unfold invoke_callback
  rw [hcall]
  rcases h with ⟨e, hx, hy'⟩ | ⟨io', t, hx, rfl, hR⟩
  · obtain rfl := hy e hy'
    simp only [callback, hx]
    exact .inl ⟨.assertion, rfl, hy'⟩
  · simp only [callback, hx]
    exact .ok hR

theorem serial_lockstep (h : Rel io_space host io s) (i len : Nat) (w : Bool) :
    Lockstep (Rel io_space host) (serial_io_handler (io_space + Part.serial.spot) i len w io)
      (s.serve_serial i len w) := by
  by_cases hok : i = 0 ∧ len = 1 ∧ w = true
  · obtain ⟨rfl, rfl, rfl⟩ := hok
    have hbyte : io.bytes (io_space + Part.serial.spot) = s.regs .serial 0 :=
      h.regs .serial 0 (show 0 < Part.serial.extent by decide)
    refine .ok ⟨h.regs, h.outside, h.keys, h.asked, ?_⟩
    simp [h.stderr, hbyte]
  · have hcode : serial_io_handler (io_space + Part.serial.spot) i len w io =
        .error .assertion := by
      by_cases hlen : len = 1
      · by_cases hi : i = 0
        · have hw : w = false := by simpa [hlen, hi] using hok
          simp [serial_io_handler, hlen, hi, hw, CH_OFFSET]
        · simp [serial_io_handler, hlen, hi, CH_OFFSET]
      · have hlen' : (len == 1) = false := by simpa using hlen
        simp [serial_io_handler, hlen']
    rw [hcode, Parts.serve_serial, if_neg hok]
    exact .error _ _

/-- Both registers of the clock are set to one time. -/
theorem rtc_lockstep (h : Rel io_space host io s) (i : Nat) (w : Bool) :
    Lockstep (Rel io_space host) (rtc_io_handler now (io_space + Part.rtc.spot) i w io)
      (s.serve_rtc now i w) := by
  by_cases hi : i = 0 ∨ i = 4
  · have hassert : (i == 0 || i == 4) = true := by simpa using hi
    rw [Parts.serve_rtc, if_pos hi, rtc_io_handler, hassert]
    cases w with
    | true => exact .ok h
    | false =>
      have husec := h.store .rtc 0 (now io.state.asked).tv_usec 4 (by decide)
      have hsec := husec.store .rtc 4 (now io.state.asked).tv_sec 4 (by decide)
      refine .ok ⟨?_, hsec.outside, h.keys, congrArg (· + 1) h.asked, h.stderr⟩
      simpa [Parts.set, h.asked] using hsec.regs
  · have hassert : (i == 0 || i == 4) = false := by simpa using hi
    rw [Parts.serve_rtc, if_neg hi, rtc_io_handler, hassert]
    exact .error _ _

/-- The first key of the ring buffer is the first of the FIFO. -/
theorem keyboard_lockstep (h : Rel io_space host io s) (i : Nat) (w : Bool) :
    Lockstep (Rel io_space host) (keyboard_io_handler (io_space + Part.keyboard.spot) i w io)
      (s.serve_keyboard i w) := by
  by_cases hi : i = 0 ∧ w = false
  · obtain ⟨rfl, rfl⟩ := hi
    obtain ⟨keys, hdata, hkeys⟩ := handler_data h.keys (io_space + Part.keyboard.spot) io.bytes
    have hstore := h.store .keyboard 0 (s.keys.headD 0) 4 (by decide)
    unfold keyboard_io_handler
    rw [hdata]
    exact .ok ⟨hstore.regs, hstore.outside, hkeys, h.asked, h.stderr⟩
  · have hcode : keyboard_io_handler (io_space + Part.keyboard.spot) i w io =
        .error .assertion := by
      cases w with
      | true => simp [keyboard_io_handler, i8042_data_io_handler]
      | false =>
        have hi' : (i == 0) = false := by simpa using hi
        simp [keyboard_io_handler, i8042_data_io_handler, hi']
    rw [hcode, Parts.serve_keyboard, if_neg hi]
    exact .error _ _

/-- A device only stops by an assertion. -/
theorem serve_error (now : Nat → Timeval) (p : Part) (i len : Nat) (w : Bool) (e : Fault)
    (h : s.serve now p i len w = .error e) : e = .assertion := by
  cases p <;> simp only [Parts.serve, Parts.serve_serial, Parts.serve_rtc,
    Parts.serve_keyboard] at h <;>
    grind

/-- The handler in the array does what the device on its own does. -/
theorem invoke_lockstep (now : Nat → Timeval) (h : Rel io_space host io s) (p : Part)
    (low i len : Nat) (w : Bool) :
    Lockstep (Rel io_space host) (invoke_callback (p.map now io_space low) i len w io)
      (s.serve now p i len w) := by
  cases p with
  | serial => exact invoke_part rfl (serial_lockstep h i len w) (serve_error now .serial i len w)
  | rtc => exact invoke_part rfl (rtc_lockstep h i w) (serve_error now .rtc i len w)
  | keyboard => exact invoke_part rfl (keyboard_lockstep h i w) (serve_error now .keyboard i len w)
  | audio => exact invoke_part rfl (.ok h) fun e he => by cases he
  | screen => exact .ok h
  | vmem => exact .ok h
  | sbuf => exact .ok h

/-! ## Section 3: One access -/

variable (now)

theorem wordBytes_le (isa : Isa) : isa.wordBytes ≤ 8 := by
  rcases isa.wordBytes_cases with h | h <;> omega

/-- A read of a register calls the device, and then loads a whole `word_t`. -/
theorem map_read_part (isa : Isa) (p : Part) (low : Nat) {i len : Nat} (hi : i < p.size)
    (hlo : 1 ≤ len) (hhi : len ≤ 8) (io : Devices Board) :
    map_read isa (low + i) len (some (p.map now io_space low)) io =
      (invoke_callback (p.map now io_space low) i len false io >>= fun io' =>
        .ok (load io'.bytes (io_space + p.spot + i) isa.wordBytes % 256 ^ len,
          ⟨.mmio low (low + p.size - 1), i, isa.wordBytes⟩, io')) := by
  have hlow : low ≤ low + i := Nat.le_add_right low i
  have hhigh : low + i ≤ low + p.size - 1 := by omega
  simp only [map_read, check_bound, ge_iff_le, map_low, map_high, map_space, hlo, hhi, hlow, hhigh,
    decide_true, Bool.and_self, cassert_true, ok_bind, pure_eq_ok, Nat.add_sub_cancel_left,
    map_read_mask _ hlo hhi]

/-- A write copies the data, and then calls the device. -/
theorem map_write_part (p : Part) (low : Nat) {i len : Nat} (hi : i < p.size) (hlo : 1 ≤ len)
    (hhi : len ≤ 8) (data : Nat) (io : Devices Board) :
    map_write (low + i) data len (some (p.map now io_space low)) io =
      (invoke_callback (p.map now io_space low) i len true
        { io with bytes := Bytes.store io.bytes (io_space + p.spot + i) data len } >>= fun io' =>
        .ok (⟨.mmio low (low + p.size - 1), i, len⟩, io')) := by
  have hlow : low ≤ low + i := Nat.le_add_right low i
  have hhigh : low + i ≤ low + p.size - 1 := by omega
  simp [map_write, check_bound, hlo, hhi, hlow, hhigh]

/-- A read of at most a word, at the same place. -/
theorem read_lockstep (h : Rel io_space host io s) (isa : Isa) (start : Part → Option Nat)
    (addr : Nat) {len : Nat} (hlo : 1 ≤ len) (hhi : len ≤ isa.wordBytes) :
    Lockstep (fun x y => x.1 = y.1 ∧ x.1 < 256 ^ len ∧ Rel io_space host x.2.2 y.2)
      (map_read isa addr len (fetch_mmio_map (table now io_space start Part.all) addr) io)
      (s.read now start addr len) := by
  have hword := wordBytes_le isa
  have hlen8 : len ≤ 8 := by omega
  unfold Parts.read
  cases hat : Part.located start addr with
  | none =>
    rw [fetch_none now io_space hat]
    simp [map_read, check_bound, hlo, hlen8]
    exact .error _ _
  | some x =>
    obtain ⟨p, i⟩ := x
    obtain ⟨low, rfl, hi, -, hfetch⟩ := fetch_some now io_space hat
    rw [hfetch, map_read_part now isa p low hi hlo hlen8]
    refine (invoke_lockstep now h p low i len false).bind ?_
    intro io' s' h'
    refine .ok ⟨?_, Nat.mod_lt _ (by positivity), h'⟩
    -- The word may run over the end of the window, but not to another device.
    have hin : i + isa.wordBytes ≤ p.extent := by
      unfold Part.extent
      omega
    have hload : load io'.bytes (io_space + p.spot + i) isa.wordBytes = load
        (s'.regs p) i isa.wordBytes :=
      h'.regs.load hin
    rw [hload, load_mod _ _ hhi]

theorem write_lockstep (h : Rel io_space host io s) (start : Part → Option Nat) (addr data : Nat)
    {len : Nat} (hlo : 1 ≤ len) (hhi : len ≤ 8) :
    Lockstep (fun x y => Rel io_space host x.2 y)
      (map_write addr data len (fetch_mmio_map (table now io_space start Part.all) addr) io)
      (s.write now start addr data len) := by
  unfold Parts.write
  cases hat : Part.located start addr with
  | none =>
    rw [fetch_none now io_space hat]
    simp [map_write, check_bound, hlo, hhi]
    exact .error _ _
  | some x =>
    obtain ⟨p, i⟩ := x
    obtain ⟨low, rfl, hi, -, hfetch⟩ := fetch_some now io_space hat
    have hin : i + len ≤ p.extent := by
      unfold Part.extent
      omega
    rw [hfetch, map_write_part now p low hi hlo hhi]
    exact (invoke_lockstep now (h.store p i data len hin) p low i len true).map_left
      fun io' s' h' => h'

end now

end Nemu.Device
