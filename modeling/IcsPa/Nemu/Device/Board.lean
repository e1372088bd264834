import IcsPa.Nemu.Device.Parts

/-! # The array after `init_device`

    `init_device` returns for every array of `map.c`, and leaves the devices
    at fixed offsets of it.  Between two of them there is room for a whole
    `uint64_t` at the last register, so an access that runs off a window does
    not come to another device. -/

open CCall Bytes

namespace Nemu.Device

open Am Paddr Keyboard

/-! ## Section 1: Where the devices are -/

namespace Part

/-- The offset of the registers in the array. -/
def spot : Part → Nat
  | .serial => 0
  | .rtc => 0x1000
  | .screen => 0x2000
  | .vmem => 0x3000
  | .keyboard => 0x79000
  | .audio => 0x7a000
  | .sbuf => 0x7b000

/-- The registers, and the seven bytes that an access at the last of them may
    run over. -/
def extent (p : Part) : Nat := p.size + 7

theorem spots_apart (d e : Part) (h : d ≠ e) :
    d.spot + d.extent ≤ e.spot ∨ e.spot + e.extent ≤ d.spot := by
  cases d <;> cases e <;> first | exact absurd rfl h | exact by decide

/-- No place reaches the end of the array. -/
theorem spot_le (p : Part) : p.spot + p.extent ≤ 2097152 := by cases p <;> decide

end Part

/-- The devices in the array at `io_space`. -/
def layout (io_space : Nat) : Layout Part where
  base p := io_space + p.spot
  extent := Part.extent
  apart d e h := by
    have hspots := Part.spots_apart d e h
    omega

section now
variable (now : Nat → Timeval)

/-- The handler that the device registers. -/
def Part.handler (base : Nat) :
    Part → Option (Nat → Nat → Bool → Devices Board → Except Fault (Devices Board))
  | .serial => some (serial_io_handler base)
  | .rtc => some fun offset _ => rtc_io_handler now base offset
  | .keyboard => some fun offset _ => keyboard_io_handler base offset
  | .audio => some fun _ _ _ => audio_io_handler
  | .screen | .vmem | .sbuf => none

/-- The map of the device for a window at `low`. -/
def Part.map (io_space : Nat) (p : Part) (low : Nat) : IOMap Board :=
  io_map low (io_space + p.spot) p.size ((p.handler now (io_space + p.spot)).bind callback)

/-- The table of the windows. -/
def table (io_space : Nat) (start : Part → Option Nat) (ps : List Part) : List (IOMap Board) :=
  ps.filterMap fun p => (start p).map (p.map now io_space)

/-- The machine that `init_device` leaves. -/
def ready (pmem host : Store) (io_space : Nat) (h : (4096 : Int) ∣ (io_space : Int)) : Machine :=
  let m := boot pmem host io_space h
  let bytes := store m.mem.io.bytes (io_space + 0x2000) (SCREEN_W <<< 16 ||| SCREEN_H) 4
  { m with
    mem := { m.mem with io :=
      { m.mem.io with bytes := store bytes (io_space + 0x79000) AM_KEY_NONE 4 } }
    space := { m.space with p_space := (io_space + 0x8b000 : Nat) }
    mmio_maps := table now io_space Part.mmio Part.all
    pio_maps := table now io_space Part.port Part.all
    handler := [.timer_intr, .set_device_update_flag] }

/-! ## Section 2: `init_device` -/

/-- A request gets the first free page, and the pages that it needs. -/
theorem new_space_at (p size next : Nat) {m : Machine} (hp : m.space.p_space = p)
    (hsize : 1 ≤ size ∧ size ≤ 2097152) (hnext : (next : Int) = p + IoSpace.page_round size)
    (hfit : (next : Int) < m.space.io_space + 2097152) :
    new_space size m = .ok (p, { m with space := { m.space with p_space := (next : Nat) } }) := by
  have hmax : IoSpace.IO_SPACE_MAX = 2097152 := rfl
  have hvalid : IoSpace.Valid size := by
    unfold IoSpace.Valid
    omega
  have hroom : m.space.p_space + IoSpace.page_round size < m.space.io_space +
      IoSpace.IO_SPACE_MAX := by
    omega
  unfold new_space
  rw [IoSpace.new_space_eq hvalid, if_pos hroom]
  simp only [ok_bind, pure_eq_ok, hp, ← hnext, Int.toNat_natCast]

section maps
variable (addr space len : Nat)
  (c : Option (Nat → Nat → Bool → Devices Board → Option (Devices Board)))

theorem add_mmio_map_eq {m : Machine} (h : m.mmio_maps.length < 16) :
    add_mmio_map addr space len c m =
      .ok { m with mmio_maps := m.mmio_maps ++ [io_map addr space len c] } := by
  simp [add_mmio_map, NR_MAP, h]

theorem add_pio_map_eq {m : Machine} (h : m.pio_maps.length < 16) (hport : addr + len ≤ 65535) :
    add_pio_map addr space len c m =
      .ok { m with pio_maps := m.pio_maps ++ [io_map addr space len c] } := by
  simp [add_pio_map, NR_MAP, PORT_IO_SPACE_MAX, h, hport]

end maps

/-- The next free page, and how many maps there are. -/
structure Free (io_space p n : Nat) (m : Machine) : Prop where
  base    : m.space.io_space = io_space
  p_space : m.space.p_space = p
  mmio    : m.mmio_maps.length = n
  pio     : m.pio_maps.length ≤ n

section init
variable (io_space p n q r : Nat) {m : Machine}

theorem init_serial_eq (h : Free io_space p n m) (hn : n < 16) (hq : q = p + 0x1000)
    (hp : q < io_space + 2097152) :
    init_serial m = .ok { m with
      space := { m.space with p_space := (q : Nat) }
      pio_maps := m.pio_maps ++ [io_map SERIAL_PORT p 8 (callback (serial_io_handler p))]
      mmio_maps := m.mmio_maps ++ [io_map SERIAL_MMIO p 8 (callback (serial_io_handler p))] } := by
  obtain ⟨hbase, hspace, hmmio, hpio⟩ := h
  have hpio' : m.pio_maps.length < 16 := by omega
  have hmmio' : m.mmio_maps.length < 16 := by omega
  unfold init_serial
  rw [new_space_at p 8 q hspace (by decide)
    (by rw [hq]; simp; rfl) (by omega)]
  simp only [ok_bind]
  rw [add_pio_map_eq _ _ _ _ (by exact hpio') (by decide), ok_bind,
    add_mmio_map_eq _ _ _ _ (by exact hmmio')]

theorem init_timer_eq (h : Free io_space p n m) (hn : n < 16) (hq : q = p + 0x1000)
    (hp : q < io_space + 2097152)
    (hhandler : m.handler.length < 8) :
    init_timer now m = .ok { m with
      space := { m.space with p_space := (q : Nat) }
      pio_maps :=
        m.pio_maps ++ [io_map RTC_PORT p 8 (callback fun offset _ => rtc_io_handler now p offset)]
      mmio_maps :=
        m.mmio_maps ++ [io_map RTC_MMIO p 8 (callback fun offset _ => rtc_io_handler now p offset)]
      handler := m.handler ++ [.timer_intr] } := by
  obtain ⟨hbase, hspace, hmmio, hpio⟩ := h
  have hpio' : m.pio_maps.length < 16 := by omega
  have hmmio' : m.mmio_maps.length < 16 := by omega
  unfold init_timer
  rw [new_space_at p 8 q hspace (by decide)
    (by rw [hq]; simp; rfl) (by omega)]
  simp only [ok_bind]
  rw [add_pio_map_eq _ _ _ _ (by exact hpio') (by decide), ok_bind,
    add_mmio_map_eq _ _ _ _ (by exact hmmio'), ok_bind]
  simp [add_alarm_handle, MAX_HANDLER, hhandler]

theorem init_vga_eq (h : Free io_space p n m) (hn : n + 1 < 16) (hr : r = p + 0x1000)
    (hq : q = r + 0x76000) (hp : q < io_space + 2097152) :
    init_vga m = .ok { set_reg p (SCREEN_W <<< 16 ||| SCREEN_H) m with
      space := { m.space with p_space := (q : Nat) }
      pio_maps := m.pio_maps ++ [io_map VGACTL_PORT p 8 none]
      mmio_maps :=
        m.mmio_maps ++ [io_map VGACTL_MMIO p 8 none, io_map VMEM r SCREEN_SIZE none] } := by
  obtain ⟨hbase, hspace, hmmio, hpio⟩ := h
  have hpio' : m.pio_maps.length < 16 := by omega
  have hmmio' : m.mmio_maps.length < 16 := by omega
  have hmmio'' : (m.mmio_maps ++ [io_map VGACTL_MMIO p 8 none]).length < 16 := by
    rw [List.length_append, List.length_singleton]
    omega
  unfold init_vga
  rw [new_space_at p 8 r hspace (by decide) (by rw [hr]; simp; rfl) (by omega)]
  simp only [ok_bind]
  rw [add_pio_map_eq _ _ _ _ (by exact hpio') (by decide), ok_bind,
    add_mmio_map_eq _ _ _ _ (by exact hmmio'), ok_bind,
    new_space_at r SCREEN_SIZE q rfl (by decide)
      (by show (q : Int) = (r : Int) + 0x76000; omega)
      (by show (q : Int) < m.space.io_space + 2097152; omega)]
  simp only [ok_bind]
  rw [add_mmio_map_eq _ _ _ _ (by exact hmmio'')]
  simp [set_reg]

theorem init_i8042_eq (h : Free io_space p n m) (hn : n < 16) (hq : q = p + 0x1000)
    (hp : q < io_space + 2097152) :
    init_i8042 m = .ok { set_reg p AM_KEY_NONE m with
      space := { m.space with p_space := (q : Nat) }
      pio_maps := m.pio_maps ++
        [io_map I8042_DATA_PORT p 4 (callback fun offset _ => keyboard_io_handler p offset)]
      mmio_maps := m.mmio_maps ++
        [io_map I8042_DATA_MMIO p 4 (callback fun offset _ => keyboard_io_handler p offset)] } := by
  obtain ⟨hbase, hspace, hmmio, hpio⟩ := h
  have hpio' : m.pio_maps.length < 16 := by omega
  have hmmio' : m.mmio_maps.length < 16 := by omega
  unfold init_i8042
  rw [new_space_at p 4 q hspace (by decide)
    (by rw [hq]; simp; rfl) (by omega)]
  simp only [ok_bind]
  rw [add_pio_map_eq _ _ _ _ (by exact hpio') (by decide), ok_bind,
    add_mmio_map_eq _ _ _ _ (by exact hmmio')]
  rfl

theorem init_audio_eq (h : Free io_space p n m) (hn : n + 1 < 16) (hr : r = p + 0x1000)
    (hq : q = r + 0x10000) (hp : q < io_space + 2097152) :
    init_audio m = .ok { m with
      space := { m.space with p_space := (q : Nat) }
      pio_maps :=
        m.pio_maps ++ [io_map AUDIO_PORT p (4 * nr_reg) (callback fun _ _ _ => audio_io_handler)]
      mmio_maps := m.mmio_maps ++
        [io_map AUDIO_MMIO p (4 * nr_reg) (callback fun _ _ _ => audio_io_handler),
          io_map STREAM_BUF r STREAM_BUF_MAX_SIZE none] } := by
  obtain ⟨hbase, hspace, hmmio, hpio⟩ := h
  have hpio' : m.pio_maps.length < 16 := by omega
  have hmmio' : m.mmio_maps.length < 16 := by omega
  have hmmio'' : (m.mmio_maps ++
      [io_map AUDIO_MMIO p (4 * nr_reg) (callback fun _ _ _ => audio_io_handler)]).length < 16 := by
    rw [List.length_append, List.length_singleton]
    omega
  unfold init_audio
  dsimp only
  rw [new_space_at p (4 * nr_reg) r hspace (by decide)
    (by show (r : Int) = (p : Int) + 0x1000; omega) (by omega)]
  simp only [ok_bind]
  rw [add_pio_map_eq _ _ _ _ (by exact hpio') (by decide), ok_bind,
    add_mmio_map_eq _ _ _ _ (by exact hmmio'), ok_bind,
    new_space_at r STREAM_BUF_MAX_SIZE q rfl (by decide)
      (by show (q : Int) = (r : Int) + 0x10000; omega)
      (by show (q : Int) < m.space.io_space + 2097152; omega)]
  simp only [ok_bind]
  rw [add_mmio_map_eq _ _ _ _ (by exact hmmio'')]
  simp

end init

/-- `init_device` returns, whatever the host's memory is. -/
theorem init_device_eq (pmem host : Store) (io_space : Nat) (h : (4096 : Int) ∣ (io_space : Int)) :
    init_device now (boot pmem host io_space h) = .ok (ready now pmem host io_space h) := by
  unfold init_device
  rw [init_serial_eq io_space io_space 0 (io_space + 0x1000) ⟨rfl, rfl, rfl,
    Nat.le_of_ble_eq_true rfl⟩
      (by decide) rfl (by omega), ok_bind,
    init_timer_eq now io_space (io_space + 0x1000) 1 (io_space + 0x2000) ⟨rfl, rfl, rfl,
      Nat.le_of_ble_eq_true rfl⟩
      (by decide) (by omega) (by omega) (Nat.le_of_ble_eq_true rfl), ok_bind,
    init_vga_eq io_space (io_space + 0x2000) 2 (io_space + 0x79000) (io_space + 0x3000)
      ⟨rfl, rfl, rfl, Nat.le_of_ble_eq_true rfl⟩ (by decide) (by omega) (by omega) (by omega),
      ok_bind,
    init_i8042_eq io_space (io_space + 0x79000) 4 (io_space + 0x7a000)
      ⟨rfl, rfl, rfl, Nat.le_of_ble_eq_true rfl⟩ (by decide) (by omega) (by omega), ok_bind,
    init_audio_eq io_space (io_space + 0x7a000) 5 (io_space + 0x8b000) (io_space + 0x7b000)
      ⟨rfl, rfl, rfl, Nat.le_of_ble_eq_true rfl⟩ (by decide) (by omega) (by omega) (by omega),
      ok_bind]
  rfl

end now

end Nemu.Device
