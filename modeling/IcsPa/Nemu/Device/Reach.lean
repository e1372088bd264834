import IcsPa.Nemu.Device.Runs

/-! # What the guest cannot reach

    An access is checked by its first byte only, and works on an array among the
    other bytes of the host.  Still no run of the guest reads or changes any of
    them: not around the array of the devices, and not behind `pmem`. -/

open CCall Bytes

namespace Nemu.Device

open Am Paddr Keyboard

section machine
variable (SDL_SCANCODE : Key → Fin 256) (now : Nat → Timeval)

/-! ## Section 1: Behind `pmem` -/

/-- Two guests with the same memory; behind it are these bytes of the host. -/
structure Behind (pmem pmem' : Store) (g g' : Guest) : Prop where
  rest   : g' = { g with pmem := g'.pmem }
  inside : ∀ x, x < PMEM_SIZE → g'.pmem x = g.pmem x
  behind : ∀ x, PMEM_SIZE ≤ x → g.pmem x = pmem x ∧ g'.pmem x = pmem' x

variable {pmem pmem' : Store} {g g' : Guest}

theorem Behind.parts (h : Behind pmem pmem' g g') : g'.parts = g.parts := by rw [h.rest]

/-- The devices change, and nothing else. -/
theorem Behind.with_parts (h : Behind pmem pmem' g g') (s : Parts) :
    Behind pmem pmem' { g with parts := s } { g' with parts := s } :=
  ⟨by rw [h.rest], h.inside, h.behind⟩

theorem Behind.event (h : Behind pmem pmem' g g') (e : SDL_Event) :
    Lockstep (Behind pmem pmem') (g.event SDL_SCANCODE e) (g'.event SDL_SCANCODE e) := by
  cases e with
  | quit => exact .ok ⟨by rw [h.rest], h.inside, h.behind⟩
  | other => exact .ok h
  | key scancode down =>
    have hstate : g'.nemu_state = g.nemu_state := by rw [h.rest]
    simp only [Guest.event, Guest.key, hstate, h.parts]
    split
    · exact .bind_left _ fun _ _ => .ok ⟨by rw [h.rest], h.inside, h.behind⟩
    · exact .ok h

/-- Step lemma. -/
theorem guest_step_behind (h : Behind pmem pmem' g g') {isa : Isa} {x : Step} (hx : x.Valid isa) :
    Lockstep (Same (Behind pmem pmem')) (g.step SDL_SCANCODE now isa x)
      (g'.step SDL_SCANCODE now isa x) := by
  cases x with
  | read addr len =>
    cases hin : in_pmem isa addr with
    | true =>
      have hbase := ((in_pmem_iff isa addr).mp hin).1
      have hend := hx.2 hin
      have hload : load g'.pmem (addr - isa.pmemBase) len = load g.pmem (addr - isa.pmemBase) len :=
        load_congr fun y _ hy => h.inside y (by omega)
      simp only [Guest.step, hin, if_true, hload]
      exact .ok (.mk h _)
    | false =>
      simp only [Guest.step, hin, Bool.false_eq_true, if_false, h.parts]
      exact .bind_left _ fun x _ => .ok (.mk (h.with_parts x.2) _)
  | write addr data len =>
    cases hin : in_pmem isa addr with
    | true =>
      have hbase := ((in_pmem_iff isa addr).mp hin).1
      have hend := hx.2 hin
      simp only [Guest.step, hin, if_true]
      refine .ok (.mk ⟨by rw [h.rest], fun y hy => ?_, fun y hy => ?_⟩ _)
      · -- A byte of `pmem` is written in both, or in neither.
        simp only [store, h.inside y hy]
      · dsimp only
        rw [store_outside (by omega), store_outside (by omega)]
        exact h.behind y hy
    | false =>
      simp only [Guest.step, hin, Bool.false_eq_true, if_false, h.parts]
      exact .bind_left _ fun s _ => .ok (.mk (h.with_parts s) _)
  | pio_read addr len =>
    simp only [Guest.step, h.parts]
    exact .bind_left _ fun x _ => .ok (.mk (h.with_parts x.2) _)
  | pio_write addr data len =>
    simp only [Guest.step, h.parts]
    exact .bind_left _ fun s _ => .ok (.mk (h.with_parts s) _)
  | alarm =>
    refine .ok (.mk ⟨?_, h.inside, h.behind⟩ _)
    rw [h.rest]
  | update events =>
    have hflag : g'.device_update_flag = g.device_update_flag := by rw [h.rest]
    simp only [Guest.step, hflag]
    split
    · have hcleared : Behind pmem pmem' { g with device_update_flag := false }
          { g' with device_update_flag := false } := ⟨by rw [h.rest], h.inside, h.behind⟩
      have hloop := Lockstep.foldlM
        (fun a b hab e (_ : e ∈ events) => Behind.event SDL_SCANCODE hab e) hcleared
      exact hloop.bind fun a b hab => .ok (.mk hab _)
    · exact .ok (.mk h _)
  | run_state state => exact .ok (.mk ⟨by rw [h.rest], h.inside, h.behind⟩ _)

/-! ## Section 2: Runs -/

/-- With other bytes of the host around the array and behind `pmem` every run
    returns the same and stops at the same step, and it leaves all of them as
    they were. -/
theorem host_out_of_reach (isa : Isa) (pmem pmem' host host' : Store) (io_space : Nat)
    (h : (4096 : Int) ∣ (io_space : Int)) (hpmem : ∀ x, x < PMEM_SIZE → pmem' x = pmem x)
    {steps : List Step} (hsteps : ∀ x ∈ steps, x.Valid isa) :
    Lockstep (Same fun m m' =>
        (∃ g g', Refines now io_space host m g ∧ Refines now io_space host' m' g' ∧
          Behind pmem pmem' g g') ∧
        ∀ x, x < io_space ∨ io_space + 2097152 ≤ x →
          m.mem.io.bytes x = host x ∧ m'.mem.io.bytes x = host' x)
      (runs (step SDL_SCANCODE isa) (ready now pmem host io_space h) steps)
      (runs (step SDL_SCANCODE isa) (ready now pmem' host' io_space h) steps) := by
  have hready := ready_refines now io_space pmem host h
  have hready' := ready_refines now io_space pmem' host' h
  have hone := runs_lockstep SDL_SCANCODE now hready isa hsteps
  have hother := runs_lockstep SDL_SCANCODE now hready' isa hsteps
  have hstart : Behind pmem pmem' (Guest.start pmem) (Guest.start pmem') :=
    ⟨rfl, hpmem, fun x _ => ⟨rfl, rfl⟩⟩
  have hguests : Lockstep (Same (Behind pmem pmem'))
      (runs (Guest.step SDL_SCANCODE now isa) (Guest.start pmem) steps)
      (runs (Guest.step SDL_SCANCODE now isa) (Guest.start pmem') (steps.map id)) :=
    .runs id (fun g g' h x hx => guest_step_behind SDL_SCANCODE now h (hsteps x hx)) hstart
  rw [List.map_id] at hguests
  refine ((hone.trans hguests).trans hother.symm).mono ?_
  rintro ⟨m, out⟩ ⟨m', out'⟩ ⟨⟨g', o'⟩, ⟨⟨g, o⟩, ⟨hm, rfl⟩, hg, rfl⟩, hm', rfl⟩
  exact ⟨⟨⟨g, g', hm, hm', hg⟩,
    fun x hx => ⟨hm.devices.outside x hx, hm'.devices.outside x hx⟩⟩, rfl⟩

end machine

/-- The last word of `pmem`, and the greeting. -/
def last_word : List Step := .write 0x7fffffc 5 4 :: greeting ++ [.read 0x7fffffc 4]

theorem host_out_of_reach_last_word :
    Lockstep (Same fun m m' =>
        (∃ g g', Refines ticking 4096 (fun _ => 1) m g ∧ Refines ticking 4096 (fun _ => 2) m' g' ∧
          Behind (fun _ => 0) (fun x => if x < PMEM_SIZE then 0 else 7) g g') ∧
        ∀ x, x < 4096 ∨ 4096 + 2097152 ≤ x → m.mem.io.bytes x = 1 ∧ m'.mem.io.bytes x = 2)
      (runs (step sdl_scancode .x86)
        (ready ticking (fun _ => 0) (fun _ => 1) 4096 (by decide)) last_word)
      (runs (step sdl_scancode .x86)
        (ready ticking (fun x => if x < PMEM_SIZE then 0 else 7) (fun _ => 2) 4096 (by decide))
        last_word) :=
  host_out_of_reach sdl_scancode ticking .x86 (fun _ => 0) (fun x => if x < PMEM_SIZE then 0 else 7)
    (fun _ => 1) (fun _ => 2) 4096 (by decide) (fun x hx => if_pos hx) (by decide)

end Nemu.Device
