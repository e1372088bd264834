import IcsPa.Am.Keys
import IcsPa.Framework.Ring
import IcsPa.Nemu.Paddr

/-! # The keyboard of NEMU

    `src/device/keyboard.c`, and `device_update` of `src/device/device.c`.
    The keys that SDL reports while the guest runs go into a ring buffer, and
    every read of the data register takes one out.

    The buffer is a FIFO of 1023 keys.  But `device_update` cuts the scancode
    to a byte before it looks it up, and so takes some keys for others. -/

open CCall Bytes Ring

namespace Nemu.Keyboard

open Am

/-! ## Section 1: `keyboard.c` -/

def KEY_QUEUE_LEN : Nat := 1024

def I8042_DATA_MMIO : Nat := 0xa1000060

/-- The static variables of the file. -/
structure KeyQueue where
  key_queue : Nat → Nat
  key_f     : Nat
  key_r     : Nat

section device
variable (SDL_SCANCODE : Key → Fin 256)

/-- `send_key(scancode, is_keydown)` -/
def send_key (state : RunState) (scancode : UInt8) (is_keydown : Bool) (s : KeyQueue) :
    Except Fault KeyQueue :=
  if state = .NEMU_RUNNING ∧ keymap SDL_SCANCODE scancode.toNat ≠ AM_KEY_NONE then do
    let am_scancode := key_code SDL_SCANCODE scancode.toNat is_keydown
    let key_queue := Function.update s.key_queue s.key_r am_scancode
    let key_r := (s.key_r + 1) % KEY_QUEUE_LEN
    cassert (key_r != s.key_f)
    return { s with key_queue := key_queue, key_r := key_r }
  else .ok s

/-- `i8042_data_port_base` is at `base` of the space of the devices. -/
def i8042_data_io_handler (base offset : Nat) (is_write : Bool) (io : Paddr.Devices KeyQueue) :
    Except Fault (Paddr.Devices KeyQueue) := do
  cassert (!is_write)
  cassert (offset == 0)
  let s := io.state
  if s.key_f ≠ s.key_r then
    return { bytes := store io.bytes base (s.key_queue s.key_f) 4
             state := { s with key_f := (s.key_f + 1) % KEY_QUEUE_LEN } }
  else
    return { io with bytes := store io.bytes base AM_KEY_NONE 4 }

/-- The map that `init_i8042` adds. -/
def i8042_map (base : Nat) : Paddr.IOMap KeyQueue where
  low := I8042_DATA_MMIO
  high := I8042_DATA_MMIO + 4 - 1
  space := base
  callback := some fun offset _ is_write io =>
    (i8042_data_io_handler base offset is_write io).toOption

/-! ## Section 2: `device.c` -/

/-- What the emulator does to the keyboard, with the guest's memory. -/
structure System where
  mem                : Paddr.Mem KeyQueue
  nemu_state         : RunState
  device_update_flag : Bool

def System.with_keys (sys : System) (s : KeyQueue) : System :=
  { sys with mem := { sys.mem with io := { sys.mem.io with state := s } } }

/-- The body of the loop over the polled events. -/
def handle_event (sys : System) : SDL_Event → Except Fault System
  | .quit => .ok { sys with nemu_state := .NEMU_QUIT }
  | .key scancode down => do
      let k := UInt8.ofNat scancode
      let s ← send_key SDL_SCANCODE sys.nemu_state k down sys.mem.io.state
      return sys.with_keys s
  | .other => .ok sys

/-- `device_update` when SDL has these events. -/
def device_update (events : List SDL_Event) (sys : System) : Except Fault System :=
  if !sys.device_update_flag then .ok sys
  else events.foldlM (handle_event SDL_SCANCODE) { sys with device_update_flag := false }

/-- A step of the emulator: the alarm, a call of `device_update`, a read of
    the data register by the guest, and a change of the run state by the
    monitor. -/
inductive Step where
  | alarm
  | update (events : List SDL_Event)
  | read
  | run_state (state : RunState)

/-- A step, and what a read returns. -/
def step (isa : Isa) (base : Nat) (sys : System) : Step → Except Fault (System × List Nat)
  | .alarm => .ok ({ sys with device_update_flag := true }, [])
  | .update events => do
      let sys ← device_update SDL_SCANCODE events sys
      return (sys, [])
  | .read => do
      let (data, _, mem) ← Paddr.paddr_read isa [i8042_map base] I8042_DATA_MMIO 4 sys.mem
      return ({ sys with mem := mem }, [data])
  | .run_state state => .ok ({ sys with nemu_state := state }, [])

/-- A run, and what its reads return. -/
def run (isa : Isa) (base : Nat) : System → List Step → Except Fault (System × List Nat)
  | sys, [] => .ok (sys, [])
  | sys, x :: steps => do
      let (sys, data) ← step SDL_SCANCODE isa base sys x
      let (sys, rest) ← run isa base sys steps
      return (sys, data ++ rest)

/-! ## Section 3: What a keyboard does -/

/-- A key event that is polled while the guest runs, or a read. -/
inductive Happening where
  | key (scancode : Nat) (down : Bool)
  | read

/-- The key events of one `device_update`; one that ends the program ends
    them. -/
def polled : RunState → List SDL_Event → RunState × List Happening
  | state, [] => (state, [])
  | _, .quit :: events => polled .NEMU_QUIT events
  | state, .key scancode down :: events =>
      ((polled state events).1,
        if state = .NEMU_RUNNING then .key scancode down :: (polled state events).2
        else (polled state events).2)
  | state, .other :: events => polled state events

/-- All that happens in a run. -/
def history : RunState → Bool → List Step → List Happening
  | _, _, [] => []
  | state, _, .alarm :: steps => history state true steps
  | state, flag, .update events :: steps =>
      if flag then (polled state events).2 ++ history (polled state events).1 false steps
      else history state flag steps
  | state, flag, .read :: steps => .read :: history state flag steps
  | _, flag, .run_state state :: steps => history state flag steps

/-- The whole scancode is in the key map. -/
def mapped (scancode : Nat) : Prop :=
  scancode < 256 ∧ keymap SDL_SCANCODE scancode ≠ AM_KEY_NONE

instance (scancode : Nat) : Decidable (mapped SDL_SCANCODE scancode) :=
  inferInstanceAs (Decidable (_ ∧ _))

def Happening.ops : Happening → List (Op Nat)
  | .key scancode down =>
      if mapped SDL_SCANCODE scancode then [.put (key_code SDL_SCANCODE scancode down)] else []
  | .read => [.get]

/-- What happens to the FIFO of the outstanding keys. -/
def ops (hs : List Happening) : List (Op Nat) := hs.flatMap (Happening.ops SDL_SCANCODE)

/-- Fewer than 1024 keys are outstanding at any time. -/
def Room (q : List Nat) (hs : List Happening) : Prop :=
  Fits KEY_QUEUE_LEN q (ops SDL_SCANCODE hs)

/-- The scancode is that of a byte, or its low byte is that of no key. -/
def Exact (scancode : Nat) : Prop :=
  scancode < 256 ∨ keymap SDL_SCANCODE (scancode % 256) = AM_KEY_NONE

/-- The keyboard as it is at first, in front of any memory. -/
def start (pmem bytes : Store) : System where
  mem := ⟨pmem, ⟨bytes, ⟨fun _ => 0, 0, 0⟩⟩⟩
  nemu_state := .NEMU_STOP
  device_update_flag := false

/-- The run returns the mapped keys: its reads are the `get`s of the FIFO, with
    0 for none; the nonzero codes among them and the outstanding keys are all
    mapped keys, in order. -/
def ReturnsKeys (isa : Isa) (base : Nat) (sys : System) (steps : List Step) : Prop :=
  let hs := history sys.nemu_state sys.device_update_flag steps
  ∃ sys' reads, run SDL_SCANCODE isa base sys steps = .ok (sys', reads) ∧
    reads = (fifo [] (ops SDL_SCANCODE hs)).2.map (·.getD 0) ∧
    reads.filter (· ≠ 0) ++ (fifo [] (ops SDL_SCANCODE hs)).1 = puts (ops SDL_SCANCODE hs)

end device

end Nemu.Keyboard
