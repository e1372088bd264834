import IcsPa.Nemu.Device.Runs

/-! # What comes of the accesses of a run

    The guest's accesses to one device are not disturbed by those to the
    others, by the alarm or by the keys.  What was written to the serial port
    is the console, a buffer reads back what was written to it last, and each
    read of the clock shows the host's time. -/

open CCall Bytes

namespace Nemu.Device

open Am Paddr Keyboard

/-! ## Section 1: Accesses -/

inductive Access where
  | read (len : Nat)
  | write (data len : Nat)

/-- The device that a step accesses, and where. -/
def Step.access (isa : Isa) : Step → Option (Part × Nat × Access)
  | .read addr len =>
      if in_pmem isa addr then none
      else (Part.located Part.mmio addr).map fun x => (x.1, x.2, .read len)
  | .write addr data len =>
      if in_pmem isa addr then none
      else (Part.located Part.mmio addr).map fun x => (x.1, x.2, .write data len)
  | .pio_read addr len => (Part.located Part.port addr).map fun x => (x.1, x.2, .read len)
  | .pio_write addr data len => (Part.located Part.port addr).map fun x =>
      (x.1, x.2, .write data len)
  | .alarm | .update _ | .run_state _ => none

/-- What goes to the console. -/
def console (p : Part) (i : Nat) : Access → List UInt8
  | .write data 1 => if p = .serial ∧ i = 0 then [UInt8.ofNat data] else []
  | _ => []

/-- What is written to the registers of `q`. -/
def written (q p : Part) (i : Nat) : Access → List Write
  | .write data len => if p = q then [⟨i, data, len⟩] else []
  | .read _ => []

/-- How often the host is asked for the time. -/
def asked (p : Part) : Access → Nat
  | .read _ => if p = .rtc then 1 else 0
  | .write _ _ => 0

/-- The accesses of a run. -/
def accesses (isa : Isa) (steps : List Step) : List (Part × Nat × Access) :=
  steps.filterMap (Step.access isa)

/-- The accesses that a device does not answer with an assertion. -/
def Proper (p : Part) (i : Nat) (a : Access) : Prop :=
  match p with
  | .serial => i = 0 ∧ ∃ data, a = .write data 1
  | .rtc => i = 0 ∨ i = 4
  | .keyboard => i = 0 ∧ ∃ len, a = .read len
  | .screen | .vmem | .audio | .sbuf => True

/-- A device that keeps what is written to it, and nothing else. -/
def Part.buffer : Part → Bool
  | .screen | .vmem | .audio | .sbuf => true
  | .serial | .rtc | .keyboard => false

section now
variable (now : Nat → Timeval)

def Parts.access (s : Parts) (p : Part) (i : Nat) : Access → Except Fault (Parts × List Nat)
  | .read len => do
      let s ← s.serve now p i len false
      return (s, [load (s.regs p) i len])
  | .write data len => do
      let s ← (s.set p (store (s.regs p) i data len)).serve now p i len true
      return (s, [])

/-! ## Section 2: One access -/

/-- What an access to a device changes. -/
structure Accessed (s : Parts) (p : Part) (i : Nat) (a : Access) (s' : Parts) : Prop where
  proper : Proper p i a
  stderr : s'.stderr = s.stderr ++ console p i a
  asked  : s'.asked = s.asked + asked p a
  buffer : ∀ q : Part, q.buffer = true → s'.regs q = stores (s.regs q) (written q p i a)

variable {now} {s s' : Parts} {p : Part} {i len data : Nat} {out : List Nat}

theorem proper_of_buffer {a : Access} (hp : p.buffer = true) : Proper p i a := by
  cases p with
  | serial | rtc | keyboard => cases hp
  | screen | vmem | audio | sbuf => trivial

theorem buffer_ne {q : Part} (hp : p.buffer = false) (hq : q.buffer = true) : q ≠ p := by
  rintro rfl
  rw [hp] at hq
  cases hq

/-- Before a read, a device changes its own registers only. -/
theorem served_read (h : s.serve now p i len false = .ok s') : Accessed s p i (.read len) s' := by
  have hself : p.buffer = true → s' = s → Accessed s p i (.read len) s' := by
    rintro hp rfl
    have hrtc : p ≠ .rtc := fun he => absurd hp (by rw [he]; decide)
    exact ⟨proper_of_buffer hp, by simp [console], by simp [Device.asked, hrtc], fun q _ => rfl⟩
  cases p with
  | serial => simp [Parts.serve, Parts.serve_serial] at h
  | rtc =>
    simp only [Parts.serve, Parts.serve_rtc] at h
    split at h
    · rename_i hi
      cases h
      refine ⟨hi, by simp [console], rfl, fun q hq => ?_⟩
      exact s.set_regs_of_ne (buffer_ne (p := .rtc) rfl hq) _
    · cases h
  | keyboard =>
    simp only [Parts.serve, Parts.serve_keyboard] at h
    split at h
    · rename_i hi
      cases h
      refine ⟨⟨hi.1, len, rfl⟩, by simp [console], rfl, fun q hq => ?_⟩
      exact s.set_regs_of_ne (buffer_ne (p := .keyboard) rfl hq) _
    · cases h
  | screen | vmem | audio | sbuf => exact hself rfl (Except.ok.inj h).symm

/-- The registers of the other devices stay. -/
theorem set_written (s : Parts) (p : Part) (i data len : Nat) (q : Part) :
    (s.set p (store (s.regs p) i data len)).regs q = stores (s.regs q)
    (written q p i (.write data len)) := by
  by_cases hpq : p = q
  · subst hpq
    simp [written, stores]
  · rw [s.set_regs_of_ne (Ne.symm hpq)]
    simp [written, hpq, stores]

theorem served_write (h : (s.set p (store (s.regs p) i data len)).serve now p i len true = .ok s') :
    Accessed s p i (.write data len) s' := by
  have hset := set_written s p i data len
  -- A device that keeps the data shows nothing on the console.
  have hself : p ≠ .serial → Proper p i (.write data len) →
      s' = s.set p (store (s.regs p) i data len) → Accessed s p i (.write data len) s' := by
    rintro hp hproper rfl
    refine ⟨hproper, ?_, rfl, fun q _ => hset q⟩
    unfold console
    split <;> simp [hp]
  cases p with
  | serial =>
    simp only [Parts.serve, Parts.serve_serial] at h
    split at h
    · rename_i hok
      obtain ⟨rfl, rfl, -⟩ := hok
      cases h
      refine ⟨⟨rfl, data, rfl⟩, ?_, rfl, fun q _ => hset q⟩
      simp [console, store]
    · cases h
  | rtc =>
    simp only [Parts.serve, Parts.serve_rtc, if_true] at h
    split at h
    · rename_i hi
      exact hself (by decide) hi (Except.ok.inj h).symm
    · cases h
  | keyboard => simp [Parts.serve, Parts.serve_keyboard] at h
  | screen | vmem | audio | sbuf => exact hself (by decide) trivial (Except.ok.inj h).symm

theorem accessed {a : Access} (h : s.access now p i a = .ok (s', out)) : Accessed s p i a s' := by
  cases a with
  | read len =>
    obtain ⟨t, ht, h⟩ := bind_eq_ok h
    cases h
    exact served_read ht
  | write data len =>
    obtain ⟨t, ht, h⟩ := bind_eq_ok h
    cases h
    exact served_write ht

end now

/-! ## Section 3: One step -/

section step
variable (SDL_SCANCODE : Key → Fin 256) (now : Nat → Timeval)

/-- A step that accesses a device is that access. -/
theorem step_access {isa : Isa} {x : Step} {p : Part} {i : Nat} {a : Access}
    (h : x.access isa = some (p, i, a)) (g : Guest) :
    g.step SDL_SCANCODE now isa x =
      (g.parts.access now p i a >>= fun r => .ok ({ g with parts := r.1 }, r.2)) := by
  cases x with
  | read addr len | write addr data len =>
    cases hin : in_pmem isa addr with
    | true => simp [Step.access, hin] at h
    | false =>
      obtain ⟨⟨q, j⟩, hat, heq⟩ : ∃ y, Part.located Part.mmio addr = some y ∧
        (y.1, y.2, _) = (p, i, a) := by
        simpa [Step.access, hin] using h
      cases heq
      simp [Guest.step, Parts.read, Parts.write, Parts.access, hin, hat]
  | pio_read addr len | pio_write addr data len =>
    obtain ⟨⟨q, j⟩, hat, heq⟩ := Option.map_eq_some_iff.mp h
    cases heq
    simp [Guest.step, Parts.read, Parts.write, Parts.access, hat]
  | alarm | update | run_state => cases h

/-- The keys and the run state are all that an event changes. -/
theorem event_parts {g g' : Guest} {e : SDL_Event} (h : g.event SDL_SCANCODE e = .ok g') :
    g'.parts = { g.parts with keys := g'.parts.keys } := by
  cases e with
  | quit | other =>
    cases h
    rfl
  | key scancode down =>
    simp only [Guest.event, Guest.key] at h
    split at h
    · obtain ⟨_, -, h⟩ := bind_eq_ok h
      cases h
      rfl
    · cases h
      rfl

/-- Every other step leaves the devices alone, but for the keys. -/
theorem step_other {isa : Isa} {x : Step} (h : x.access isa = none) {g g' : Guest} {out : List Nat}
    (hstep : g.step SDL_SCANCODE now isa x = .ok (g', out)) :
    g'.parts = { g.parts with keys := g'.parts.keys } := by
  cases x with
  | read addr len | write addr data len =>
    cases hin : in_pmem isa addr with
    | true =>
      simp only [Guest.step, hin, if_true] at hstep
      cases hstep
      rfl
    | false =>
      have hat : Part.located Part.mmio addr = none := by simpa [Step.access, hin] using h
      simp [Guest.step, Parts.read, Parts.write, hin, hat] at hstep
  | pio_read addr len | pio_write addr data len =>
    have hat : Part.located Part.port addr = none := Option.map_eq_none_iff.mp h
    simp [Guest.step, Parts.read, Parts.write, hat] at hstep
  | alarm | run_state =>
    cases hstep
    rfl
  | update events =>
    simp only [Guest.step] at hstep
    split at hstep
    · obtain ⟨g₁, hloop, hstep⟩ := bind_eq_ok hstep
      cases hstep
      refine foldlM_ok (P := fun (_ : List SDL_Event) (g₁ : Guest) =>
        g₁.parts = { g.parts with keys := g₁.parts.keys })
        (s := { g with device_update_flag := false })
        ?_ rfl hloop
      intro _ e _ g₂ g₃ _ h₂ he
      rw [event_parts SDL_SCANCODE he, h₂]
    · cases hstep
      rfl

/-! ## Section 4: Runs -/

/-- What the accesses of a run have left of the devices. -/
structure Left (g₀ : Guest) (as : List (Part × Nat × Access)) (g : Guest) : Prop where
  proper : ∀ x ∈ as, Proper x.1 x.2.1 x.2.2
  stderr : g.parts.stderr = g₀.parts.stderr ++ as.flatMap fun x => console x.1 x.2.1 x.2.2
  asked  : g.parts.asked = g₀.parts.asked + (as.map fun x => asked x.1 x.2.2).sum
  buffer : ∀ q : Part, q.buffer = true →
    g.parts.regs q = stores (g₀.parts.regs q) (as.flatMap fun x => written q x.1 x.2.1 x.2.2)

/-- Step lemma. -/
theorem Left.step {isa : Isa} {g₀ g g' : Guest} {as : List (Part × Nat × Access)} {x : Step}
    {out : List Nat} (h : Left g₀ as g) (hstep : g.step SDL_SCANCODE now isa x = .ok (g', out)) :
    Left g₀ (as ++ (x.access isa).toList) g' := by
  cases hx : x.access isa with
  | none =>
    have hparts := step_other SDL_SCANCODE now hx hstep
    rw [Option.toList_none, List.append_nil]
    refine ⟨h.proper, ?_, ?_, fun q hq => ?_⟩
    · rw [hparts]
      exact h.stderr
    · rw [hparts]
      exact h.asked
    · rw [hparts]
      exact h.buffer q hq
  | some y =>
    obtain ⟨p, i, a⟩ := y
    rw [step_access SDL_SCANCODE now hx] at hstep
    obtain ⟨⟨s', out'⟩, haccess, hstep⟩ := bind_eq_ok hstep
    cases hstep
    have hone := accessed haccess
    refine ⟨?_, ?_, ?_, fun q hq => ?_⟩
    · intro y hy
      rcases List.mem_append.mp hy with hy | hy
      · exact h.proper y hy
      · obtain rfl := List.mem_singleton.mp hy
        exact hone.proper
    · simp [hone.stderr, h.stderr]
    · simp [hone.asked, h.asked, Nat.add_assoc]
    · simp [hone.buffer q hq, h.buffer q hq, stores]

/-- Run lemma. -/
theorem left_of_run {isa : Isa} {g₀ g : Guest} {steps : List Step} {out : List Nat}
    (h : runs (Guest.step SDL_SCANCODE now isa) g₀ steps = .ok (g, out)) :
    Left g₀ (accesses isa steps) g := by
  refine runs_inv (P := fun done _ g => Left g₀ (accesses isa done) g) ?_
    ⟨fun x hx => absurd hx List.not_mem_nil, ?_, ?_, fun q _ => rfl⟩ h
  · intro done x rest out₁ g₁ g₂ out₂ _ hleft hstep
    have hnext := hleft.step SDL_SCANCODE now hstep
    unfold accesses at hnext ⊢
    rw [List.filterMap_append]
    cases hx : x.access isa <;> simpa [hx] using hnext
  · simp [accesses]
  · simp [accesses]

end step

/-! ## Section 5: What the host and the guest see -/

section machine
variable (SDL_SCANCODE : Key → Fin 256) (now : Nat → Timeval) {isa : Isa} {pmem host : Store}
  {io_space : Nat} {h : (4096 : Int) ∣ (io_space : Int)} {m m' : Machine} {steps : List Step}
  {out : List Nat}

/-- A run of the machine is one of the guest's. -/
theorem left_of_machine (hinit : init_device now (boot pmem host io_space h) = .ok m)
    (hsteps : ∀ x ∈ steps, x.Valid isa)
    (hrun : runs (step SDL_SCANCODE isa) m steps = .ok (m', out)) :
    ∃ g, Refines now io_space host m' g ∧ Left (Guest.start pmem) (accesses isa steps) g := by
  rw [init_device_eq] at hinit
  cases hinit
  have hlock := runs_lockstep SDL_SCANCODE now (ready_refines now io_space pmem host h) isa hsteps
  obtain ⟨⟨g, out'⟩, hguest, hm', -⟩ := hlock.symm.of_ok hrun
  exact ⟨g, hm', left_of_run SDL_SCANCODE now hguest⟩

/-- The greeting goes through. -/
theorem greeting_runs (isa : Isa) : ∃ m m' out,
    init_device ticking (boot (fun _ => 0) (fun _ => 1) 4096 (by decide)) = .ok m ∧
      runs (step sdl_scancode isa) m greeting = .ok (m', out) := by
  have hsteps : ∀ x ∈ greeting, x.Valid isa := by cases isa <;> decide
  have hguest : ∃ g out, runs (Guest.step sdl_scancode ticking isa)
    (Guest.start fun _ => 0) greeting =
      .ok (g, out) := by
    cases isa <;> exact ⟨_, _, rfl⟩
  obtain ⟨g, out, hguest⟩ := hguest
  have hready := ready_refines ticking 4096 (fun _ => 0) (fun _ => 1) (by decide)
  obtain ⟨⟨m', out'⟩, hrun, -⟩ :=
    (runs_lockstep sdl_scancode ticking hready isa hsteps).of_ok hguest
  exact ⟨_, m', out', init_device_eq ticking (fun _ => 0) (fun _ => 1) 4096 (by decide), hrun⟩

/-- The bytes that proper accesses send. -/
theorem sent_of_proper {as : List (Part × Nat × Access)} (has : ∀ x ∈ as, Proper x.1 x.2.1 x.2.2) :
    ∃ data : List Nat, as.filter (fun x => x.1 = .serial) = data.map
    (fun d => (.serial, 0, .write d 1)) ∧
      (as.flatMap fun x => console x.1 x.2.1 x.2.2) = data.map UInt8.ofNat := by
  induction as with
  | nil => exact ⟨[], rfl, rfl⟩
  | cons x as ih =>
    obtain ⟨data, hfilter, hconsole⟩ := ih fun y hy => has y (List.mem_cons_of_mem x hy)
    obtain ⟨p, i, a⟩ := x
    have hx : Proper p i a := has _ List.mem_cons_self
    by_cases hp : p = .serial
    · subst hp
      obtain ⟨rfl, d, rfl⟩ : i = 0 ∧ ∃ data, a = .write data 1 := hx
      have hone : console .serial 0 (.write d 1) = [UInt8.ofNat d] := rfl
      exact ⟨d :: data, by simp [hfilter], by simp [hone, hconsole]⟩
    · refine ⟨data, by simp [hp, hfilter], ?_⟩
      have hquiet : console p i a = [] := by
        unfold console
        split <;> simp [hp]
      simp [hquiet, hconsole]

/-- A run goes on only as long as each access to the serial port is a write of
    one byte to its first register; these bytes, in order, are the console,
    whatever else happens. -/
theorem console_written (hinit : init_device now (boot pmem host io_space h) = .ok m)
    (hsteps : ∀ x ∈ steps, x.Valid isa)
    (hrun : runs (step SDL_SCANCODE isa) m steps = .ok (m', out)) :
    ∃ data : List Nat,
      (accesses isa steps).filter (fun x => x.1 = .serial) =
        data.map (fun d => (.serial, 0, .write d 1)) ∧
      m'.mem.io.state.stderr = data.map UInt8.ofNat := by
  obtain ⟨g, hm', hleft⟩ := left_of_machine SDL_SCANCODE now hinit hsteps hrun
  obtain ⟨data, hfilter, hconsole⟩ := sent_of_proper hleft.proper
  refine ⟨data, hfilter, ?_⟩
  rw [hm'.devices.stderr, hleft.stderr, hconsole]
  rfl

theorem console_written_greeting : ∃ m m' out, ∃ data : List Nat,
    init_device ticking (boot (fun _ => 0) (fun _ => 1) 4096 (by decide)) = .ok m ∧
      runs (step sdl_scancode .x86) m greeting = .ok (m', out) ∧
      (accesses .x86 greeting).filter (fun x => x.1 = .serial) =
        data.map (fun d => (.serial, 0, .write d 1)) ∧
      m'.mem.io.state.stderr = data.map UInt8.ofNat := by
  obtain ⟨m, m', out, hinit, hrun⟩ := greeting_runs .x86
  obtain ⟨data, hsent⟩ := console_written sdl_scancode ticking hinit (by decide) hrun
  exact ⟨m, m', out, data, hinit, hrun, hsent⟩

/-- What is written to one device. -/
def writes (isa : Isa) (p : Part) (steps : List Step) : List Write :=
  (accesses isa steps).flatMap fun x => written p x.1 x.2.1 x.2.2

/-- The screen, its memory, the audio registers and the audio buffer are
    memories: after any run a read returns for each byte the one written there
    last, by whichever address, or the initial one. -/
theorem buffer_reads_back (hinit : init_device now (boot pmem host io_space h) = .ok m)
    (hsteps : ∀ x ∈ steps, x.Valid isa)
    (hrun : runs (step SDL_SCANCODE isa) m steps = .ok (m', out))
    {x : Step} (hx : x.Valid isa) {p : Part} {i len : Nat}
    (hread : x.access isa = some (p, i, .read len))
    (hp : p.buffer = true) :
    ∃ m'', step SDL_SCANCODE isa m' x =
      .ok (m'',
        [load (lastByte ((Guest.start pmem).parts.regs p) (writes isa p steps)) i len]) := by
  obtain ⟨g, hm', hleft⟩ := left_of_machine SDL_SCANCODE now hinit hsteps hrun
  have hserve : g.parts.serve now p i len false = .ok g.parts := by
    cases p with
    | serial | rtc | keyboard => cases hp
    | screen | vmem | audio | sbuf => rfl
  have hguest : g.step SDL_SCANCODE now isa x = .ok (g, [load (g.parts.regs p) i len]) := by
    rw [step_access SDL_SCANCODE now hread, Parts.access, hserve]
    rfl
  have hload : load (g.parts.regs p) i len =
      load (lastByte ((Guest.start pmem).parts.regs p) (writes isa p steps)) i len := by
    apply load_congr
    intro y _ _
    rw [hleft.buffer p hp, stores_apply]
    rfl
  obtain ⟨⟨m'', out''⟩, hstep, -, hout⟩ := (step_lockstep SDL_SCANCODE now hm' isa hx).of_ok hguest
  cases hout
  exact ⟨m'', by rw [hstep, hload]⟩

theorem buffer_reads_back_pixel : ∃ m m' m'' out,
    init_device ticking (boot (fun _ => 0) (fun _ => 1) 4096 (by decide)) = .ok m ∧
      runs (step sdl_scancode .riscv32) m greeting = .ok (m', out) ∧
      step sdl_scancode .riscv32 m' (.read (VMEM + 5) 2) = .ok (m'',
        [load (lastByte ((Guest.start fun _ => 0).parts.regs .vmem)
          (writes .riscv32 .vmem greeting)) 5 2]) := by
  obtain ⟨m, m', out, hinit, hrun⟩ := greeting_runs .riscv32
  obtain ⟨m'', hread⟩ := buffer_reads_back sdl_scancode ticking hinit (by decide) hrun
    (x := .read (VMEM + 5) 2) (by decide) (p := .vmem) (i := 5) rfl rfl
  exact ⟨m, m', m'', out, hinit, hrun, hread⟩

/-- The low bytes of a stored register. -/
theorem load_store_low (r : Store) (a v : Nat) {len : Nat} (hlen : len ≤ 4) :
    load (store r a v 4) a len = v % 256 ^ len := by
  rw [← load_mod _ a hlen, load_store_same, Nat.mod_mod_of_dvd _ (Nat.pow_dvd_pow 256 hlen)]

/-- The reads of the clock among some accesses. -/
def clock_reads (isa : Isa) (steps : List Step) : Nat :=
  ((accesses isa steps).map fun x => asked x.1 x.2.2).sum

/-- The `n`th read of the clock shows the time that the host then has, whatever
    was written to its registers. -/
theorem clock_shows_now (hinit : init_device now (boot pmem host io_space h) = .ok m)
    (hsteps : ∀ x ∈ steps, x.Valid isa)
    (hrun : runs (step SDL_SCANCODE isa) m steps = .ok (m', out))
    {x : Step} (hx : x.Valid isa) {i len : Nat} (hread : x.access isa = some (.rtc, i, .read len))
    (hlen : len ≤ 4) (hi : i = 0 ∨ i = 4) :
    ∃ m'', step SDL_SCANCODE isa m' x = .ok (m'',
      [(if i = 0 then (now (clock_reads isa steps)).tv_usec else
        (now (clock_reads isa steps)).tv_sec) %
        256 ^ len]) := by
  obtain ⟨g, hm', hleft⟩ := left_of_machine SDL_SCANCODE now hinit hsteps hrun
  have hasked : g.parts.asked = clock_reads isa steps := by
    rw [hleft.asked]
    exact Nat.zero_add _
  let time := now (clock_reads isa steps)
  let regs := store (store (g.parts.regs .rtc) 0 time.tv_usec 4) 4 time.tv_sec 4
  have hserve : g.parts.serve now .rtc i len false =
      .ok { g.parts.set .rtc regs with asked := g.parts.asked + 1 } := by
    simp only [Parts.serve, Parts.serve_rtc, if_pos hi, hasked]
    rfl
  have hguest : g.step SDL_SCANCODE now isa x =
      .ok ({ g with parts := { g.parts.set .rtc regs with asked := g.parts.asked + 1 } },
        [load regs i len]) := by
    rw [step_access SDL_SCANCODE now hread, Parts.access, hserve]
    simp [Parts.set]
  have hload : load regs i len = (if i = 0 then time.tv_usec else time.tv_sec) % 256 ^ len := by
    rcases hi with rfl | rfl
    · -- The second register is behind the first.
      have hbehind : load regs 0 len = load (store (g.parts.regs .rtc) 0 time.tv_usec 4) 0 len :=
        load_store_disjoint (by omega)
      rw [hbehind, load_store_low _ 0 _ hlen]
      rfl
    · exact load_store_low _ 4 _ hlen
  obtain ⟨⟨m'', out''⟩, hstep, -, hout⟩ := (step_lockstep SDL_SCANCODE now hm' isa hx).of_ok hguest
  cases hout
  exact ⟨m'', by rw [hstep, hload]⟩

theorem clock_shows_now_greeting : ∃ m m' m'' out,
    init_device ticking (boot (fun _ => 0) (fun _ => 1) 4096 (by decide)) = .ok m ∧
      runs (step sdl_scancode .mips32) m greeting = .ok (m', out) ∧
      step sdl_scancode .mips32 m' (.read RTC_MMIO 4) = .ok (m'',
        [(if 0 = 0 then (ticking (clock_reads .mips32 greeting)).tv_usec
          else (ticking (clock_reads .mips32 greeting)).tv_sec) % 256 ^ 4]) := by
  obtain ⟨m, m', out, hinit, hrun⟩ := greeting_runs .mips32
  obtain ⟨m'', hread⟩ := clock_shows_now sdl_scancode ticking hinit (by decide) hrun
    (x := .read RTC_MMIO 4) (by decide) (i := 0) rfl (by decide) (.inl rfl)
  exact ⟨m, m', m'', out, hinit, hrun, hread⟩

end machine

end Nemu.Device
