import IcsPa.Framework.Objects
import IcsPa.Nemu.Device

/-! # What the devices are for

    The guest is promised seven devices.  Each has registers of its own and a
    window of physical addresses, some have a window of ports too; the
    keyboard has a FIFO of keys, the serial port is the host's `stderr`, the
    clock is the host's.  No array is shared here, and no ring buffer. -/

open CCall Bytes

namespace Nemu.Device

open Am Paddr Keyboard

/-! ## Section 1: The windows -/

inductive Part where
  | serial
  | rtc
  | screen
  | vmem
  | keyboard
  | audio
  | sbuf
  deriving DecidableEq

namespace Part

def all : List Part := [.serial, .rtc, .screen, .vmem, .keyboard, .audio, .sbuf]

/-- The bytes of the window. -/
def size : Part → Nat
  | .serial | .rtc | .screen => 8
  | .vmem => SCREEN_SIZE
  | .keyboard => 4
  | .audio => 4 * nr_reg
  | .sbuf => STREAM_BUF_MAX_SIZE

/-- Where the window is in the physical addresses. -/
def mmio : Part → Option Nat
  | .serial => some SERIAL_MMIO
  | .rtc => some RTC_MMIO
  | .screen => some VGACTL_MMIO
  | .vmem => some VMEM
  | .keyboard => some I8042_DATA_MMIO
  | .audio => some AUDIO_MMIO
  | .sbuf => some STREAM_BUF

/-- Where it is in the ports. -/
def port : Part → Option Nat
  | .serial => some SERIAL_PORT
  | .rtc => some RTC_PORT
  | .screen => some VGACTL_PORT
  | .keyboard => some I8042_DATA_PORT
  | .audio => some AUDIO_PORT
  | .vmem | .sbuf => none

/-- The offset of an address in the window. -/
def offset (start : Part → Option Nat) (addr : Nat) (p : Part) : Option (Part × Nat) :=
  (start p).bind fun low => if low ≤ addr ∧ addr < low + p.size then some (p, addr - low) else none

/-- The device at an address. -/
def located (start : Part → Option Nat) (addr : Nat) : Option (Part × Nat) :=
  all.findSome? (offset start addr)

end Part

/-! ## Section 2: The devices -/

structure Parts where
  regs   : Part → Store
  keys   : List Nat
  asked  : Nat
  stderr : List UInt8

namespace Parts

/-- The registers of one device change. -/
def set (s : Parts) (p : Part) (regs : Store) : Parts :=
  { s with regs := Function.update s.regs p regs }

@[simp] theorem set_regs_self (s : Parts) (p : Part) (r : Store) : (s.set p r).regs p = r :=
  Function.update_self ..

theorem set_regs_of_ne (s : Parts) {p q : Part} (h : q ≠ p) (r : Store) :
    (s.set p r).regs q = s.regs q := Function.update_of_ne h ..

@[simp] theorem set_keys (s : Parts) (p : Part) (r : Store) : (s.set p r).keys = s.keys := rfl
@[simp] theorem set_asked (s : Parts) (p : Part) (r : Store) : (s.set p r).asked = s.asked := rfl
@[simp] theorem set_stderr (s : Parts) (p : Part) (r : Store) : (s.set p r).stderr = s.stderr := rfl

section now
variable (now : Nat → Timeval)

/-- The serial port takes one byte at a time. -/
def serve_serial (offset len : Nat) (is_write : Bool) (s : Parts) : Except Fault Parts :=
  if offset = 0 ∧ len = 1 ∧ is_write = true then
    .ok { s with stderr := s.stderr ++ [s.regs .serial 0] }
  else .error .assertion

/-- A read of the clock sets both registers to the time of the host. -/
def serve_rtc (offset : Nat) (is_write : Bool) (s : Parts) : Except Fault Parts :=
  if offset = 0 ∨ offset = 4 then
    if is_write then .ok s
    else
      .ok { s.set .rtc
        (store (store (s.regs .rtc) 0 (now s.asked).tv_usec 4) 4 (now s.asked).tv_sec 4) with
        asked := s.asked + 1 }
  else .error .assertion

/-- A read of the keyboard takes the first key, if there is one. -/
def serve_keyboard (offset : Nat) (is_write : Bool) (s : Parts) : Except Fault Parts :=
  if offset = 0 ∧ is_write = false then
    .ok { s.set .keyboard (store (s.regs .keyboard) 0 (s.keys.headD AM_KEY_NONE) 4) with
      keys := s.keys.tail }
  else .error .assertion

/-- What a device does before it is read, and after it is written. -/
def serve (p : Part) (offset len : Nat) (is_write : Bool) (s : Parts) : Except Fault Parts :=
  match p with
  | .serial => serve_serial offset len is_write s
  | .rtc => serve_rtc now offset is_write s
  | .keyboard => serve_keyboard offset is_write s
  | .screen | .vmem | .audio | .sbuf => .ok s

def read (start : Part → Option Nat) (addr len : Nat) (s : Parts) : Except Fault (Nat × Parts) :=
  match Part.located start addr with
  | none => .error .assertion
  | some (p, offset) => do
      let s ← serve now p offset len false s
      return (load (s.regs p) offset len, s)

def write (start : Part → Option Nat) (addr data len : Nat) (s : Parts) : Except Fault Parts :=
  match Part.located start addr with
  | none => .error .assertion
  | some (p, offset) => serve now p offset len true (s.set p (store (s.regs p) offset data len))

end now

end Parts

/-! ## Section 3: The guest's machine -/

structure Guest where
  pmem               : Store
  parts              : Parts
  jiffy              : Nat
  nemu_state         : RunState
  device_update_flag : Bool

namespace Guest

/-- A key is put at the end while the guest runs; the FIFO has a limit. -/
def key (SDL_SCANCODE : Key → Fin 256) (scancode : Nat) (down : Bool) (g : Guest) :
    Except Fault Guest :=
  if g.nemu_state = .NEMU_RUNNING ∧ keymap SDL_SCANCODE scancode ≠ AM_KEY_NONE then do
    cassert (decide (g.parts.keys.length + 1 < KEY_QUEUE_LEN))
    return { g with parts := { g.parts with
      keys := g.parts.keys ++ [key_code SDL_SCANCODE scancode down] } }
  else .ok g

def event (SDL_SCANCODE : Key → Fin 256) (g : Guest) : SDL_Event → Except Fault Guest
  | .quit => .ok { g with nemu_state := .NEMU_QUIT }
  | .key scancode down => g.key SDL_SCANCODE (scancode % 256) down
  | .other => .ok g

/-- An access to `pmem` is one to a memory; every other one is for a device. -/
def step (SDL_SCANCODE : Key → Fin 256) (now : Nat → Timeval) (isa : Isa) (g : Guest) :
    Step → Except Fault (Guest × List Nat)
  | .read addr len =>
      if in_pmem isa addr then .ok (g, [load g.pmem (addr - isa.pmemBase) len])
      else do
        let (data, parts) ← g.parts.read now Part.mmio addr len
        return ({ g with parts := parts }, [data])
  | .write addr data len =>
      if in_pmem isa addr then
        .ok ({ g with pmem := store g.pmem (addr - isa.pmemBase) data len }, [])
      else do
        let parts ← g.parts.write now Part.mmio addr data len
        return ({ g with parts := parts }, [])
  | .pio_read addr len => do
      let (data, parts) ← g.parts.read now Part.port addr len
      return ({ g with parts := parts }, [data])
  | .pio_write addr data len => do
      let parts ← g.parts.write now Part.port addr data len
      return ({ g with parts := parts }, [])
  | .alarm => .ok ({ g with jiffy := (g.jiffy + 1) % 2 ^ 32, device_update_flag := true }, [])
  | .update events =>
      if g.device_update_flag then do
        let g ← events.foldlM (event SDL_SCANCODE) { g with device_update_flag := false }
        return (g, [])
      else .ok (g, [])
  | .run_state state => .ok ({ g with nemu_state := state }, [])

/-- The size of the screen is in its first register; the rest is zero. -/
def start (pmem : Store) : Guest where
  pmem := pmem
  parts :=
    { regs := fun p => if p = .screen then store (fun _ => 0) 0 (400 <<< 16 ||| 300) 4 else fun _ =>
      0
      keys := []
      asked := 0
      stderr := [] }
  jiffy := 0
  nemu_state := .NEMU_STOP
  device_update_flag := false

end Guest

end Nemu.Device
