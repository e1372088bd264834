import IcsPa.Nemu.Device.Refine

/-! # Runs of the machine with its devices

    After `init_device` a machine is in lockstep with the devices of `Parts`
    for ever: over any accesses of the guest, alarms, key events and changes
    of the run state. -/

open CCall Bytes Ring

namespace Nemu.Device

open Am Paddr Keyboard

section now
variable (SDL_SCANCODE : Key → Fin 256) (now : Nat → Timeval) (io_space : Nat)

/-! ## Section 1: The machine and its devices -/

/-- The machine shows the guest these devices. -/
structure Refines (host : Store) (m : Machine) (g : Guest) : Prop where
  mmio_maps  : m.mmio_maps = table now io_space Part.mmio Part.all
  pio_maps   : m.pio_maps = table now io_space Part.port Part.all
  handler    : m.handler = [.timer_intr, .set_device_update_flag]
  pmem       : m.mem.pmem = g.pmem
  devices    : Rel io_space host m.mem.io g.parts
  jiffy      : m.jiffy = g.jiffy
  nemu_state : m.nemu_state = g.nemu_state
  flag       : m.device_update_flag = g.device_update_flag

theorem boot_byte (pmem host : Store) (h : (4096 : Int) ∣ (io_space : Int)) (p : Part) {i : Nat}
    (hi : i < p.extent) : (boot pmem host io_space h).mem.io.bytes (io_space + p.spot + i) = 0 := by
  have hspot := p.spot_le
  have hin : io_space ≤ io_space + p.spot + i ∧ io_space + p.spot + i < io_space + 2097152 := by
    omega
  show (if _ then (0 : UInt8) else _) = 0
  rw [if_pos hin]

/-- The registers start as `init_device` sets them. -/
theorem ready_refines (pmem host : Store) (h : (4096 : Int) ∣ (io_space : Int)) :
    Refines now io_space host (ready now pmem host io_space h) (Guest.start pmem) where
  mmio_maps := rfl
  pio_maps := rfl
  handler := rfl
  pmem := rfl
  devices := by
    have hzero : Rel io_space host (boot pmem host io_space h).mem.io ⟨fun _ _ => 0, [], 0, []⟩ :=
      ⟨fun p i hi => boot_byte io_space pmem host h p hi, fun x hx => if_neg (by omega),
        start_holds pmem host, rfl, rfl⟩
    have hscreen := hzero.store .screen 0 (SCREEN_W <<< 16 ||| SCREEN_H) 4 (by decide)
    have hkeys := hscreen.store .keyboard 0 AM_KEY_NONE 4 (by decide)
    have hzeros : store (fun _ => 0) 0 AM_KEY_NONE 4 = fun _ => 0 := by
      funext x
      simp [store, AM_KEY_NONE]
    have hregs : (Guest.start pmem).parts.regs =
        ((Parts.set ⟨fun _ _ => 0, [], 0, []⟩ .screen
          (store (fun _ => 0) 0 (SCREEN_W <<< 16 ||| SCREEN_H) 4)).set .keyboard
          (store (fun _ => 0) 0 AM_KEY_NONE 4)).regs := by
      rw [hzeros]
      funext p
      cases p <;> rfl
    exact ⟨by rw [hregs]; exact hkeys.regs, hkeys.outside, hkeys.keys, hkeys.asked, hkeys.stderr⟩
  jiffy := rfl
  nemu_state := rfl
  flag := rfl

/-! ## Section 2: Keys -/

variable {io_space} {host : Store}

/-- The ring buffer has one cell less than it seems. -/
theorem send_key_full {s : KeyQueue} {q : List Nat} (h : Holds s q) (k : UInt8) (down : Bool)
    (hk : keymap SDL_SCANCODE k.toNat ≠ AM_KEY_NONE) (hfull : ¬ q.length + 1 < KEY_QUEUE_LEN) :
    send_key SDL_SCANCODE .NEMU_RUNNING k down s = .error .assertion := by
  have hlen : s.ring.length KEY_QUEUE_LEN = q.length := by rw [← Queue.length_items, h.items]
  have hlt := Queue.length_lt h.inv
  have hrear := Queue.rear_eq h.inv
  have hfront : s.key_f < KEY_QUEUE_LEN := h.inv.f
  have hwrap : (s.key_r + 1) % KEY_QUEUE_LEN = s.key_f := by
    have hone : s.ring.length KEY_QUEUE_LEN + 1 = KEY_QUEUE_LEN := by omega
    have hnext : s.key_r = (s.key_f + s.ring.length KEY_QUEUE_LEN) % KEY_QUEUE_LEN := hrear
    rw [hnext, Nat.mod_add_mod, Nat.add_assoc, hone, Nat.add_mod_right, Nat.mod_eq_of_lt hfront]
  rw [send_key, if_pos ⟨rfl, hk⟩]
  simp [hwrap]

/-- A key event in the ring buffer and in the FIFO. -/
theorem send_key_lockstep {sys : System} {g : Guest} (hkeys : Holds sys.mem.io.state g.parts.keys)
    (hstate : sys.nemu_state = g.nemu_state) (scancode : Nat) (down : Bool) :
    Lockstep (fun s g' => Holds s g'.parts.keys ∧
        g' = { g with parts := { g.parts with keys := g'.parts.keys } })
      (send_key SDL_SCANCODE sys.nemu_state (UInt8.ofNat scancode) down sys.mem.io.state)
      (g.key SDL_SCANCODE (scancode % 256) down) := by
  have hbyte : (UInt8.ofNat scancode).toNat = scancode % 256 := by simp
  unfold Guest.key
  by_cases hput : g.nemu_state = .NEMU_RUNNING ∧ keymap SDL_SCANCODE (scancode % 256) ≠ AM_KEY_NONE
  · rw [if_pos hput, hstate, hput.1]
    rw [← hbyte] at hput
    by_cases hroom : g.parts.keys.length + 1 < KEY_QUEUE_LEN
    · obtain ⟨s', hsend, hs'⟩ := send_key_put SDL_SCANCODE hkeys _ down hput.2 hroom
      rw [hsend, decide_eq_true hroom, ← hbyte]
      exact .ok ⟨hs', rfl⟩
    · rw [send_key_full SDL_SCANCODE hkeys _ down hput.2 hroom, decide_eq_false hroom]
      exact .error _ _
  · rw [if_neg hput, send_key_drop]
    · exact .ok ⟨hkeys, rfl⟩
    · rw [hbyte, hstate]
      exact not_and_or.mp hput |>.imp id not_not.mp

/-- What the polled events of one `device_update` leave. -/
structure Polled (sys₀ : System) (g₀ : Guest) (sys : System) (g : Guest) : Prop where
  keys       : Holds sys.mem.io.state g.parts.keys
  nemu_state : sys.nemu_state = g.nemu_state
  flag       : sys.device_update_flag = sys₀.device_update_flag
  guest      : g = { g₀ with
    nemu_state := g.nemu_state, parts := { g₀.parts with keys := g.parts.keys } }

theorem event_lockstep {sys₀ sys : System} {g₀ g : Guest} (h : Polled sys₀ g₀ sys g)
    (e : SDL_Event) :
    Lockstep (Polled sys₀ g₀) (handle_event SDL_SCANCODE sys e) (g.event SDL_SCANCODE e) := by
  cases e with
  | quit => exact .ok ⟨h.keys, rfl, h.flag, by rw [h.guest]⟩
  | other => exact .ok h
  | key scancode down =>
    refine (send_key_lockstep SDL_SCANCODE h.keys h.nemu_state scancode down).map_left ?_
    rintro s g' ⟨hs, hg'⟩
    refine ⟨hs, ?_, h.flag, ?_⟩
    · rw [hg']
      exact h.nemu_state
    · rw [hg', h.guest]

theorem update_lockstep {m : Machine} {g : Guest} (h : Refines now io_space host m g)
    (events : List SDL_Event) :
    Lockstep (Refines now io_space host) (device_update SDL_SCANCODE events m)
      (if g.device_update_flag then
        events.foldlM (Guest.event SDL_SCANCODE) { g with device_update_flag := false }
      else .ok g) := by
  unfold device_update Keyboard.device_update
  rw [← h.flag]
  cases hflag : m.device_update_flag with
  | false =>
    refine .ok ⟨h.mmio_maps, h.pio_maps, h.handler, h.pmem, h.devices, h.jiffy, h.nemu_state, ?_⟩
    rw [← h.flag]
    exact hflag.symm
  | true =>
    let sys : System := ⟨⟨m.mem.pmem, m.mem.io.bytes, m.mem.io.state.keys⟩, m.nemu_state, false⟩
    let g₀ : Guest := { g with device_update_flag := false }
    have hloop : Lockstep (Polled sys g₀) (events.foldlM (handle_event SDL_SCANCODE) sys)
        (events.foldlM (Guest.event SDL_SCANCODE) g₀) :=
      .foldlM (fun sys g' h' e _ => event_lockstep SDL_SCANCODE h' e)
        ⟨h.devices.keys, h.nemu_state, rfl, rfl⟩
    refine hloop.map_left ?_
    rintro sys g' ⟨hkeys, hstate, hfalse, hguest⟩
    have hparts : g'.parts = { g.parts with keys := g'.parts.keys } := by rw [hguest]
    refine ⟨h.mmio_maps, h.pio_maps, h.handler, ?_, ?_, ?_, hstate, ?_⟩
    · rw [hguest]
      exact h.pmem
    · rw [hparts]
      exact ⟨h.devices.regs, h.devices.outside, hkeys, h.devices.asked, h.devices.stderr⟩
    · rw [hguest]
      exact h.jiffy
    · rw [hguest]
      exact hfalse

/-! ## Section 3: One step -/

/-- The devices change, and nothing else. -/
theorem Refines.with_parts {m : Machine} {g : Guest} (h : Refines now io_space host m g)
    {io : Devices Board} {s : Parts} (hio : Rel io_space host io s) :
    Refines now io_space host { m with mem := { m.mem with io := io } } { g with parts := s } :=
  ⟨h.mmio_maps, h.pio_maps, h.handler, h.pmem, hio, h.jiffy, h.nemu_state, h.flag⟩

theorem paddr_read_lockstep {m : Machine} {g : Guest} (h : Refines now io_space host m g)
    (isa : Isa)
    (addr : Nat) {len : Nat} (hlen : len ∈ cpuWidths isa) :
    Lockstep (Same (Refines now io_space host)) (step SDL_SCANCODE isa m (.read addr len))
      (g.step SDL_SCANCODE now isa (.read addr len)) := by
  obtain ⟨hlo, hhi, -⟩ := cpuWidths_bounds hlen
  cases hin : in_pmem isa addr with
  | true =>
    have hread := paddr_read_pmem m.mmio_maps m.mem hin hlen
    simp only [step, Guest.step, hread, hin, if_true, h.pmem, ok_bind, pure_eq_ok]
    exact .ok (.mk h _)
  | false =>
    have hdevice := read_lockstep now h.devices isa Part.mmio addr hlo hhi
    rw [← h.mmio_maps] at hdevice
    simp only [step, Guest.step, paddr_read, hin, Bool.false_eq_true, if_false, bind_assoc]
    refine hdevice.bind ?_
    rintro ⟨data, span, io⟩ ⟨data', s⟩ ⟨rfl, -, hio⟩
    exact .ok (.mk (h.with_parts now hio) _)

theorem paddr_write_lockstep {m : Machine} {g : Guest} (h : Refines now io_space host m g)
    (isa : Isa)
    (addr data : Nat) {len : Nat} (hlen : len ∈ cpuWidths isa) :
    Lockstep (Same (Refines now io_space host)) (step SDL_SCANCODE isa m (.write addr data len))
      (g.step SDL_SCANCODE now isa (.write addr data len)) := by
  obtain ⟨hlo, -, hhi⟩ := cpuWidths_bounds hlen
  cases hin : in_pmem isa addr with
  | true =>
    have hwrite := paddr_write_pmem m.mmio_maps data m.mem hin hlen
    simp only [step, Guest.step, hwrite, hin, if_true, h.pmem, ok_bind, pure_eq_ok]
    exact .ok (.mk ⟨h.mmio_maps, h.pio_maps, h.handler, rfl, h.devices, h.jiffy, h.nemu_state,
      h.flag⟩ [])
  | false =>
    have hdevice := write_lockstep now h.devices Part.mmio addr data hlo hhi
    rw [← h.mmio_maps] at hdevice
    simp only [step, Guest.step, paddr_write, hin, Bool.false_eq_true, if_false, bind_assoc]
    refine hdevice.bind ?_
    rintro ⟨span, io⟩ s hio
    exact .ok (.mk (h.with_parts now hio) [])

/-- No port that a device has is near the end of the ports. -/
theorem located_port_lt {addr i : Nat} {p : Part} (h : Part.located Part.port addr = some (p, i)) :
    addr < 0x400 := by
  obtain ⟨hport, hi, hsize⟩ := Part.located_eq_some h
  have hwindow : ∀ q : Part, ∀ low, q.port = some low → low + q.size ≤ 0x400 := by
    intro q low hq
    cases q <;> cases hq <;> decide
  have hend := hwindow p _ hport
  omega

/-- The checks of a port access pass where a device is, and only there. -/
theorem port_checks {m : Machine} {g : Guest} (h : Refines now io_space host m g) {addr len : Nat}
    (hlen : len ∈ [1, 2, 4]) {α : Type} (x : Except Fault α) :
    (do cassert (decide (addr + len - 1 < PORT_IO_SPACE_MAX))
        cassert (fetch_mmio_map m.pio_maps addr).isSome
        x) = if (Part.located Part.port addr).isSome then x else .error .assertion := by
  have hlen4 : len ≤ 4 := by
    simp at hlen
    omega
  rw [h.pio_maps]
  cases hat : Part.located Part.port addr with
  | none =>
    rw [fetch_none now io_space hat]
    cases decide (addr + len - 1 < PORT_IO_SPACE_MAX) <;> rfl
  | some y =>
    obtain ⟨p, i⟩ := y
    have hport := located_port_lt hat
    have hlimit : addr + len - 1 < PORT_IO_SPACE_MAX := by
      have hmax : PORT_IO_SPACE_MAX = 65535 := rfl
      omega
    obtain ⟨low, -, -, -, hfetch⟩ := fetch_some now io_space hat
    rw [hfetch, decide_eq_true hlimit]
    rfl

theorem pio_read_lockstep {m : Machine} {g : Guest} (h : Refines now io_space host m g) (isa : Isa)
    (addr : Nat) {len : Nat} (hlen : len ∈ [1, 2, 4]) :
    Lockstep (Same (Refines now io_space host)) (step SDL_SCANCODE isa m (.pio_read addr len))
      (g.step SDL_SCANCODE now isa (.pio_read addr len)) := by
  have hlo : 1 ≤ len ∧ len ≤ 4 := by
    simp at hlen
    omega
  have hhi : len ≤ isa.wordBytes := by rcases isa.wordBytes_cases with hw | hw <;> omega
  have hdevice := read_lockstep now h.devices isa Part.port addr hlo.1 hhi
  rw [← h.pio_maps] at hdevice
  simp only [step, Guest.step, pio_read_common, bind_assoc, pure_bind]
  rw [port_checks now h hlen]
  cases hat : (Part.located Part.port addr).isSome with
  | true =>
    refine hdevice.bind ?_
    rintro ⟨data, span, io⟩ ⟨data', s⟩ ⟨rfl, hdata, hio⟩
    have hdata32 : data < 2 ^ 32 :=
      Nat.lt_of_lt_of_le hdata (Nat.pow_le_pow_right (by decide) hlo.2)
    show Lockstep _ (.ok (_, [data % 2 ^ 32])) _
    rw [Nat.mod_eq_of_lt hdata32]
    exact .ok (.mk (h.with_parts now hio) [data])
  | false =>
    have hnone : Part.located Part.port addr = none := by simpa using hat
    unfold Parts.read
    rw [hnone]
    exact .error _ _

theorem pio_write_lockstep {m : Machine} {g : Guest} (h : Refines now io_space host m g) (isa : Isa)
    (addr data : Nat) {len : Nat} (hlen : len ∈ [1, 2, 4]) :
    Lockstep (Same (Refines now io_space host)) (step SDL_SCANCODE isa m (.pio_write addr data len))
      (g.step SDL_SCANCODE now isa (.pio_write addr data len)) := by
  have hlo : 1 ≤ len ∧ len ≤ 8 := by
    simp at hlen
    omega
  have hdevice := write_lockstep now h.devices Part.port addr data hlo.1 hlo.2
  rw [← h.pio_maps] at hdevice
  simp only [step, Guest.step, pio_write_common, bind_assoc, pure_bind]
  rw [port_checks now h hlen]
  cases hat : (Part.located Part.port addr).isSome with
  | true =>
    refine hdevice.bind ?_
    rintro ⟨span, io⟩ s hio
    exact .ok (.mk (h.with_parts now hio) [])
  | false =>
    have hnone : Part.located Part.port addr = none := by simpa using hat
    unfold Parts.write
    rw [hnone]
    exact .error _ _

/-- Step lemma. -/
theorem step_lockstep {m : Machine} {g : Guest} (h : Refines now io_space host m g) (isa : Isa)
    {x : Step}
    (hx : x.Valid isa) :
    Lockstep (Same (Refines now io_space host)) (step SDL_SCANCODE isa m x)
    (g.step SDL_SCANCODE now isa x) := by
  cases x with
  | read addr len => exact paddr_read_lockstep SDL_SCANCODE now h isa addr hx.1
  | write addr data len => exact paddr_write_lockstep SDL_SCANCODE now h isa addr data hx.1
  | pio_read addr len => exact pio_read_lockstep SDL_SCANCODE now h isa addr hx.2
  | pio_write addr data len => exact pio_write_lockstep SDL_SCANCODE now h isa addr data hx.2
  | alarm =>
    refine .ok (.mk ?_ [])
    have hsignal : alarm_sig_handler m =
        { m with device_update_flag := true, jiffy := (m.jiffy + 1) % 2 ^ 32 } := by
      simp [alarm_sig_handler, h.handler, AlarmHandler.call]
    rw [hsignal]
    refine ⟨h.mmio_maps, h.pio_maps, h.handler, h.pmem, h.devices, ?_, h.nemu_state, rfl⟩
    rw [h.jiffy]
  | update events =>
    have hupdate := update_lockstep SDL_SCANCODE now h events
    have hspec : g.step SDL_SCANCODE now isa (.update events) =
        (if g.device_update_flag then
          events.foldlM (Guest.event SDL_SCANCODE) { g with device_update_flag := false }
        else .ok g) >>= fun g => .ok (g, []) := by
      simp only [Guest.step]
      cases g.device_update_flag <;> rfl
    rw [hspec]
    exact hupdate.bind fun m' g' h' => .ok (.mk h' [])
  | run_state state =>
    exact .ok (.mk ⟨h.mmio_maps, h.pio_maps, h.handler, h.pmem, h.devices, h.jiffy, rfl, h.flag⟩ [])

/-- Run lemma. -/
theorem runs_lockstep {m : Machine} {g : Guest} (h : Refines now io_space host m g) (isa : Isa)
    {steps : List Step} (hsteps : ∀ x ∈ steps, x.Valid isa) :
    Lockstep (Same (Refines now io_space host)) (runs (step SDL_SCANCODE isa) m steps)
      (runs (Guest.step SDL_SCANCODE now isa) g steps) := by
  have hruns : Lockstep (Same (Refines now io_space host)) (runs (step SDL_SCANCODE isa) m steps)
      (runs (Guest.step SDL_SCANCODE now isa) g (steps.map id)) :=
    .runs id (fun m g h x hx => step_lockstep SDL_SCANCODE now h isa (hsteps x hx)) h
  rwa [List.map_id] at hruns

/-- Wherever the array is: `init_device` returns, and from there every run is
    one of the seven devices, with the same reads and the same output, up to
    the same step if a device stops it. -/
theorem devices_refine (isa : Isa) (pmem host : Store) (io_space : Nat)
    (h : (4096 : Int) ∣ (io_space : Int)) {steps : List Step} (hsteps : ∀ x ∈ steps, x.Valid isa) :
    ∃ m, init_device now (boot pmem host io_space h) = .ok m ∧
      Lockstep (Same (Refines now io_space host)) (runs (step SDL_SCANCODE isa) m steps)
        (runs (Guest.step SDL_SCANCODE now isa) (Guest.start pmem) steps) :=
  ⟨ready now pmem host io_space h, init_device_eq now pmem host io_space h,
    runs_lockstep SDL_SCANCODE now (ready_refines now io_space pmem host h) isa hsteps⟩

end now

/-- A greeting through the port, a pixel, and a read of the screen's size. -/
def greeting : List Step :=
  [.pio_write SERIAL_PORT 72 1, .write (VMEM + 4) 0xff00ff 4, .run_state .NEMU_RUNNING, .alarm,
    .update [.key 4 true], .write SERIAL_MMIO 105 1, .read VGACTL_MMIO 4]

def ticking (n : Nat) : Timeval := ⟨n, 7⟩

theorem devices_refine_greeting : ∃ m,
    init_device ticking (boot (fun _ => 0) (fun _ => 1) 4096 (by decide)) = .ok m ∧
      Lockstep (Same (Refines ticking 4096 fun _ => 1))
      (runs (step sdl_scancode .riscv64) m greeting)
        (runs (Guest.step sdl_scancode ticking .riscv64) (Guest.start fun _ => 0) greeting) :=
  devices_refine sdl_scancode ticking .riscv64 (fun _ => 0) (fun _ => 1) 4096 (by decide)
  (by decide)

end Nemu.Device
