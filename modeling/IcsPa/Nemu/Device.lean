import IcsPa.Framework.Lockstep
import IcsPa.Nemu.IoSpace
import IcsPa.Nemu.Keyboard

/-! # The devices of NEMU

    `src/device` as it is with `HAS_IOE`: the tables of ports and of
    memory-mapped registers, the handlers of the devices, `init_device`, and
    the alarm.  All registers and buffers are in the array of `map.c`, one
    behind the other; a guest access finds its map by the address of its first
    byte and then works on the array.

    SDL's window and its audio are not there: `vga_update_screen`, the audio
    handler and `dev_raise_intr` are empty in the source as well. -/

open CCall Bytes

namespace Nemu.Device

open Am Paddr Keyboard

/-! ## Section 1: State -/

/-- `struct timeval` -/
structure Timeval where
  tv_sec  : Nat
  tv_usec : Nat

/-- What the devices keep behind the registers, and what the host sees. -/
structure Board where
  keys   : KeyQueue
  /-- How often `gettimeofday` was called. -/
  asked  : Nat
  stderr : List UInt8

/-- What `add_alarm_handle` is called with. -/
inductive AlarmHandler where
  | timer_intr
  | set_device_update_flag
  deriving DecidableEq

/-- The static variables of the device files, and the guest's memory. -/
structure Machine where
  mem                : Mem Board
  space              : IoSpace.Space
  mmio_maps          : List (IOMap Board)
  pio_maps           : List (IOMap Board)
  handler            : List AlarmHandler
  jiffy              : Nat
  nemu_state         : RunState
  device_update_flag : Bool

/-! ## Section 2: `map.c`, `mmio.c` and `port-io.c` -/

def NR_MAP : Nat := 16

def PORT_IO_SPACE_MAX : Nat := 65535

/-- The pointer that `new_space` returns. -/
def new_space (size : Nat) (m : Machine) : Except Fault (Nat × Machine) := do
  let (p, space) ← IoSpace.new_space size m.space
  return (p.toNat, { m with space := space })

/-- A callback; each way in which a handler does not return is an assertion. -/
def callback (handler : Nat → Nat → Bool → Devices Board → Except Fault (Devices Board)) :
    Option (Nat → Nat → Bool → Devices Board → Option (Devices Board)) :=
  some fun offset len is_write io => (handler offset len is_write io).toOption

section maps
variable (addr space len : Nat)
  (callback : Option (Nat → Nat → Bool → Devices Board → Option (Devices Board)))

def io_map : IOMap Board := ⟨addr, addr + len - 1, space, callback⟩

def add_mmio_map (m : Machine) : Except Fault Machine := do
  cassert (decide (m.mmio_maps.length < NR_MAP))
  return { m with mmio_maps := m.mmio_maps ++ [io_map addr space len callback] }

def add_pio_map (m : Machine) : Except Fault Machine := do
  cassert (decide (m.pio_maps.length < NR_MAP))
  cassert (decide (addr + len ≤ PORT_IO_SPACE_MAX))
  return { m with pio_maps := m.pio_maps ++ [io_map addr space len callback] }

end maps

def pio_read_common (isa : Isa) (addr len : Nat) (m : Machine) : Except Fault (Nat × Machine) := do
  cassert (decide (addr + len - 1 < PORT_IO_SPACE_MAX))
  let map := fetch_mmio_map m.pio_maps addr
  cassert map.isSome
  let (data, _, io) ← map_read isa addr len map m.mem.io
  return (data % 2 ^ 32, { m with mem := { m.mem with io := io } })

def pio_write_common (addr data len : Nat) (m : Machine) : Except Fault Machine := do
  cassert (decide (addr + len - 1 < PORT_IO_SPACE_MAX))
  let map := fetch_mmio_map m.pio_maps addr
  cassert map.isSome
  let (_, io) ← map_write addr data len map m.mem.io
  return { m with mem := { m.mem with io := io } }

/-! ## Section 3: The devices -/

def CH_OFFSET : Nat := 0

def serial_io_handler (serial_base offset len : Nat) (is_write : Bool) (io : Devices Board) :
    Except Fault (Devices Board) := do
  cassert (len == 1)
  if offset = CH_OFFSET then
    if is_write then
      return { io with state :=
        { io.state with stderr := io.state.stderr ++ [io.bytes serial_base] } }
    else .error .assertion
  else .error .assertion

/-- `now n` is what the host's clock shows when it is asked for the `n`th time. -/
def rtc_io_handler (now : Nat → Timeval) (rtc_port_base offset : Nat) (is_write : Bool)
    (io : Devices Board) : Except Fault (Devices Board) := do
  cassert (offset == 0 || offset == 4)
  if !is_write then
    let time := now io.state.asked
    let bytes := store io.bytes rtc_port_base time.tv_usec 4
    let bytes := store bytes (rtc_port_base + 4) time.tv_sec 4
    return { bytes := bytes, state := { io.state with asked := io.state.asked + 1 } }
  else return io

/-- `i8042_data_io_handler` among the other devices. -/
def keyboard_io_handler (i8042_data_port_base offset : Nat) (is_write : Bool) (io : Devices Board) :
    Except Fault (Devices Board) := do
  let io' ← i8042_data_io_handler i8042_data_port_base offset is_write ⟨io.bytes, io.state.keys⟩
  return { bytes := io'.bytes, state := { io.state with keys := io'.state } }

def audio_io_handler (io : Devices Board) : Except Fault (Devices Board) := .ok io

def SERIAL_PORT : Nat := 0x3F8
def SERIAL_MMIO : Nat := 0xa10003F8
def RTC_PORT : Nat := 0x48
def RTC_MMIO : Nat := 0xa1000048
def VGACTL_PORT : Nat := 0x100
def VGACTL_MMIO : Nat := 0xa1000100
def VMEM : Nat := 0xa0000000
def I8042_DATA_PORT : Nat := 0x60
def AUDIO_PORT : Nat := 0x200
def AUDIO_MMIO : Nat := 0xa1000200
def STREAM_BUF : Nat := 0xa0800000
def STREAM_BUF_MAX_SIZE : Nat := 65536
def SCREEN_W : Nat := 400
def SCREEN_H : Nat := 300
def SCREEN_SIZE : Nat := SCREEN_H * SCREEN_W * 4

/-- The number of registers of the audio device. -/
def nr_reg : Nat := 6

def MAX_HANDLER : Nat := 8

def add_alarm_handle (h : AlarmHandler) (m : Machine) : Except Fault Machine := do
  cassert (decide (m.handler.length < MAX_HANDLER))
  return { m with handler := m.handler ++ [h] }

/-- `*p = v` for a register of four bytes. -/
def set_reg (p v : Nat) (m : Machine) : Machine :=
  { m with mem := { m.mem with io := { m.mem.io with bytes := store m.mem.io.bytes p v 4 } } }

def init_serial (m : Machine) : Except Fault Machine := do
  let (serial_base, m) ← new_space 8 m
  let m ← add_pio_map SERIAL_PORT serial_base 8 (callback (serial_io_handler serial_base)) m
  add_mmio_map SERIAL_MMIO serial_base 8 (callback (serial_io_handler serial_base)) m

section now
variable (now : Nat → Timeval)

def init_timer (m : Machine) : Except Fault Machine := do
  let (rtc_port_base, m) ← new_space 8 m
  let c := callback fun offset _ => rtc_io_handler now rtc_port_base offset
  let m ← add_pio_map RTC_PORT rtc_port_base 8 c m
  let m ← add_mmio_map RTC_MMIO rtc_port_base 8 c m
  add_alarm_handle .timer_intr m

def init_vga (m : Machine) : Except Fault Machine := do
  let (vgactl_port_base, m) ← new_space 8 m
  let m := set_reg vgactl_port_base (SCREEN_W <<< 16 ||| SCREEN_H) m
  let m ← add_pio_map VGACTL_PORT vgactl_port_base 8 none m
  let m ← add_mmio_map VGACTL_MMIO vgactl_port_base 8 none m
  let (vmem, m) ← new_space SCREEN_SIZE m
  add_mmio_map VMEM vmem SCREEN_SIZE none m

def init_i8042 (m : Machine) : Except Fault Machine := do
  let (i8042_data_port_base, m) ← new_space 4 m
  let m := set_reg i8042_data_port_base AM_KEY_NONE m
  let c := callback fun offset _ => keyboard_io_handler i8042_data_port_base offset
  let m ← add_pio_map I8042_DATA_PORT i8042_data_port_base 4 c m
  add_mmio_map I8042_DATA_MMIO i8042_data_port_base 4 c m

def init_audio (m : Machine) : Except Fault Machine := do
  let space_size := 4 * nr_reg
  let (audio_base, m) ← new_space space_size m
  let c := callback fun _ _ _ => audio_io_handler
  let m ← add_pio_map AUDIO_PORT audio_base space_size c m
  let m ← add_mmio_map AUDIO_MMIO audio_base space_size c m
  let (sbuf, m) ← new_space STREAM_BUF_MAX_SIZE m
  add_mmio_map STREAM_BUF sbuf STREAM_BUF_MAX_SIZE none m

def init_device (m : Machine) : Except Fault Machine := do
  let m ← init_serial m
  let m ← init_timer now m
  let m ← init_vga m
  let m ← init_i8042 m
  let m ← init_audio m
  add_alarm_handle .set_device_update_flag m

/-- The static variables before `init_device`, with the array at `io_space`
    among the other bytes of the host. -/
def boot (pmem host : Store) (io_space : Nat) (h : (4096 : Int) ∣ (io_space : Int)) : Machine where
  mem := ⟨pmem, fun x => if io_space ≤ x ∧ x < io_space + 2097152 then 0 else host x,
    ⟨fun _ => 0, 0, 0⟩, 0, []⟩
  space := IoSpace.init io_space h
  mmio_maps := []
  pio_maps := []
  handler := []
  jiffy := 0
  nemu_state := .NEMU_STOP
  device_update_flag := false

end now

/-! ## Section 4: The alarm, and what happens to the machine -/

def AlarmHandler.call (m : Machine) : AlarmHandler → Machine
  | .timer_intr => m
  | .set_device_update_flag => { m with device_update_flag := true }

def alarm_sig_handler (m : Machine) : Machine :=
  let m := m.handler.foldl AlarmHandler.call m
  { m with jiffy := (m.jiffy + 1) % 2 ^ 32 }

def TIMER_HZ : Nat := 60

def uptime (m : Machine) : Nat := m.jiffy / TIMER_HZ

section sdl
variable (SDL_SCANCODE : Key → Fin 256)

/-- `device_update` when SDL has these events. -/
def device_update (events : List SDL_Event) (m : Machine) : Except Fault Machine := do
  let io := m.mem.io
  let sys ← Keyboard.device_update SDL_SCANCODE events
    ⟨⟨m.mem.pmem, io.bytes, io.state.keys⟩, m.nemu_state, m.device_update_flag⟩
  return { m with
    mem := { m.mem with io := { io with state := { io.state with keys := sys.mem.io.state } } }
    nemu_state := sys.nemu_state
    device_update_flag := sys.device_update_flag }

/-- A step of the machine: an access of the CPU to a physical address or to a
    port, the alarm, a call of `device_update`, or a change of the run state by
    the monitor. -/
inductive Step where
  | read (addr len : Nat)
  | write (addr data len : Nat)
  | pio_read (addr len : Nat)
  | pio_write (addr data len : Nat)
  | alarm
  | update (events : List SDL_Event)
  | run_state (state : RunState)

/-- A step, and what a read returns. -/
def step (isa : Isa) (m : Machine) : Step → Except Fault (Machine × List Nat)
  | .read addr len => do
      let (data, _, mem) ← paddr_read isa m.mmio_maps addr len m.mem
      return ({ m with mem := mem }, [data])
  | .write addr data len => do
      let (_, mem) ← paddr_write isa m.mmio_maps addr data len m.mem
      return ({ m with mem := mem }, [])
  | .pio_read addr len => do
      let (data, m) ← pio_read_common isa addr len m
      return (m, [data])
  | .pio_write addr data len => do
      let m ← pio_write_common addr data len m
      return (m, [])
  | .alarm => .ok (alarm_sig_handler m, [])
  | .update events => do
      let m ← device_update SDL_SCANCODE events m
      return (m, [])
  | .run_state state => .ok ({ m with nemu_state := state }, [])

/-- The widths of the CPU's accesses; one that begins in `pmem` ends there, and a
    port is a `uint16_t`. -/
def Step.Valid (isa : Isa) : Step → Prop
  | .read addr len | .write addr _ len =>
      len ∈ cpuWidths isa ∧ (in_pmem isa addr = true → addr + len ≤ isa.pmemBase + PMEM_SIZE)
  | .pio_read addr len | .pio_write addr _ len => addr < 2 ^ 16 ∧ len ∈ [1, 2, 4]
  | .alarm | .update _ | .run_state _ => True

instance (isa : Isa) : (x : Step) → Decidable (x.Valid isa)
  | .read _ _ | .write _ _ _ | .pio_read _ _ | .pio_write _ _ _ =>
      inferInstanceAs (Decidable (_ ∧ _))
  | .alarm | .update _ | .run_state _ => inferInstanceAs (Decidable True)

end sdl

end Nemu.Device
