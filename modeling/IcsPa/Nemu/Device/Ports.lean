import IcsPa.Nemu.Device.Runs

/-! # Ports and registers

    `mmio.c` and `port-io.c` keep two tables, and each device adds itself to
    both.  A port and the register at `0xa1000000` above it are the same: a
    guest may use either, and cannot tell which it used. -/

open CCall Bytes

namespace Nemu.Device

open Am Paddr Keyboard

def MMIO_BASE : Nat := 0xa1000000

/-- The access to the register instead of the port. -/
def Step.to_register : Step → Step
  | .pio_read addr len => .read (MMIO_BASE + addr) len
  | .pio_write addr data len => .write (MMIO_BASE + addr) data len
  | x => x

/-- The buffers have no ports, and are below all registers. -/
theorem offset_register (addr : Nat) (p : Part) :
    p.offset Part.mmio (MMIO_BASE + addr) = p.offset Part.port addr := by
  have hshift : ∀ low, p.port = some low → p.mmio = some (MMIO_BASE + low) := by
    intro low h
    cases p <;> cases h <;> rfl
  have hbuffer : p.port = none → ∃ low, p.mmio = some low ∧ low + p.size ≤ MMIO_BASE := by
    intro h
    cases p with
    | vmem => exact ⟨VMEM, rfl, by decide⟩
    | sbuf => exact ⟨STREAM_BUF, rfl, by decide⟩
    | serial | rtc | screen | keyboard | audio => cases h
  unfold Part.offset
  cases hport : p.port with
  | none =>
    obtain ⟨low, hlow, hbelow⟩ := hbuffer hport
    have hout : ¬ (low ≤ MMIO_BASE + addr ∧ MMIO_BASE + addr < low + p.size) := by omega
    rw [hlow, Option.bind_some, if_neg hout]
    rfl
  | some low =>
    have hin : (MMIO_BASE + low ≤ MMIO_BASE + addr ∧ MMIO_BASE + addr < MMIO_BASE + low + p.size) ↔
        (low ≤ addr ∧ addr < low + p.size) := by omega
    have hsub : MMIO_BASE + addr - (MMIO_BASE + low) = addr - low := by omega
    rw [hshift low hport, Option.bind_some, Option.bind_some, hsub]
    simp only [hin]

theorem located_register (addr : Nat) :
    Part.located Part.mmio (MMIO_BASE + addr) = Part.located Part.port addr := by
  unfold Part.located
  congr 1
  funext p
  exact offset_register addr p

theorem register_not_pmem (isa : Isa) (addr : Nat) : in_pmem isa (MMIO_BASE + addr) = false := by
  have hsize : PMEM_SIZE = 134217728 := rfl
  have hbase : isa.pmemBase ≤ 0x80000000 := by cases isa <;> decide
  have hregs : MMIO_BASE = 0xa1000000 := rfl
  rw [Bool.eq_false_iff]
  intro h
  have hin := (in_pmem_iff isa _).mp h
  omega

theorem Step.to_register_valid {isa : Isa} {x : Step} (hx : x.Valid isa) :
    x.to_register.Valid isa := by
  have hwidths : ∀ len ∈ [1, 2, 4], len ∈ cpuWidths isa := by cases isa <;> decide
  have hnot : ∀ addr, ¬ in_pmem isa (MMIO_BASE + addr) = true := fun addr =>
    Bool.eq_false_iff.mp (register_not_pmem isa addr)
  cases x with
  | pio_read addr len => exact ⟨hwidths len hx.2, fun h => absurd h (hnot addr)⟩
  | pio_write addr data len => exact ⟨hwidths len hx.2, fun h => absurd h (hnot addr)⟩
  | read | write | alarm | update | run_state => exact hx

section now
variable (SDL_SCANCODE : Key → Fin 256) (now : Nat → Timeval)

theorem step_to_register (isa : Isa) (g : Guest) (x : Step) :
    g.step SDL_SCANCODE now isa x.to_register = g.step SDL_SCANCODE now isa x := by
  cases x with
  | pio_read addr len =>
    simp [Step.to_register, Guest.step, Parts.read, register_not_pmem, located_register]
  | pio_write addr data len =>
    simp [Step.to_register, Guest.step, Parts.write, register_not_pmem, located_register]
  | read | write | alarm | update | run_state => rfl

/-- A run with ports, and the run with the registers instead: both return the
    same, stop at the same step, and leave the same devices. -/
theorem ports_as_registers (isa : Isa) (pmem host : Store) (io_space : Nat)
    (h : (4096 : Int) ∣ (io_space : Int)) {steps : List Step} (hsteps : ∀ x ∈ steps, x.Valid isa) :
    Lockstep (Same fun m m' => ∃ g, Refines now io_space host m g ∧ Refines now io_space host m' g)
      (runs (step SDL_SCANCODE isa) (ready now pmem host io_space h) steps)
      (runs (step SDL_SCANCODE isa) (ready now pmem host io_space h)
        (steps.map Step.to_register)) := by
  have hready := ready_refines now io_space pmem host h
  have hports := runs_lockstep SDL_SCANCODE now hready isa hsteps
  have hregs : ∀ x ∈ steps.map Step.to_register, x.Valid isa := by
    intro x hx
    obtain ⟨y, hy, rfl⟩ := List.mem_map.mp hx
    exact Step.to_register_valid (hsteps y hy)
  have hregisters := runs_lockstep SDL_SCANCODE now hready isa hregs
  rw [runs_map fun g x _ => step_to_register SDL_SCANCODE now isa g x] at hregisters
  refine (hports.trans hregisters.symm).mono ?_
  rintro ⟨m, out⟩ ⟨m', out'⟩ ⟨⟨g, out''⟩, ⟨hm, rfl⟩, ⟨hm', rfl⟩⟩
  exact ⟨⟨g, hm, hm'⟩, rfl⟩

end now

theorem ports_as_registers_greeting :
    Lockstep (Same fun m m' => ∃ g, Refines ticking 4096 (fun _ => 1) m g ∧
      Refines ticking 4096 (fun _ => 1) m' g)
      (runs (step sdl_scancode .x86)
        (ready ticking (fun _ => 0) (fun _ => 1) 4096 (by decide)) greeting)
      (runs (step sdl_scancode .x86) (ready ticking (fun _ => 0) (fun _ => 1) 4096 (by decide))
        (greeting.map Step.to_register)) :=
  ports_as_registers sdl_scancode ticking .x86 (fun _ => 0) (fun _ => 1) 4096 (by decide)
  (by decide)

end Nemu.Device
