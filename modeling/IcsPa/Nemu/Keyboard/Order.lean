import IcsPa.Nemu.Keyboard

/-! # Keys come out in order

    The ring buffer holds the outstanding keys of the FIFO.  This survives
    every event whose scancode is looked up as it is, and every read; so the
    run and the FIFO go in step. -/

open CCall Bytes Ring

namespace Nemu.Keyboard

open Am

section device
variable (SDL_SCANCODE : Key → Fin 256)

/-! ## Section 1: The FIFO behind the ring -/

/-- The ring buffer of the keyboard. -/
def KeyQueue.ring (s : KeyQueue) : Queue Nat := ⟨s.key_queue, s.key_f, s.key_r⟩

/-- The ring holds the outstanding keys, and each is the code of a key. -/
structure Holds (s : KeyQueue) (q : List Nat) : Prop where
  inv   : s.ring.Inv KEY_QUEUE_LEN
  items : s.ring.items KEY_QUEUE_LEN = q
  codes : ∀ x ∈ q, x ≠ 0 ∧ x < 256 ^ 4

theorem key_code_lt (scancode : Nat) (down : Bool) :
    key_code SDL_SCANCODE scancode down < 256 ^ 4 := by
  have hmap : keymap SDL_SCANCODE scancode < 2 ^ 16 := by
    unfold keymap
    split
    · rename_i k _
      cases k <;> decide
    · decide
  have hmask : (if down then KEYDOWN_MASK else 0) < 2 ^ 16 := by cases down <;> decide
  exact lt_trans (Nat.or_lt_two_pow hmap hmask) (by decide)

/-- A key is put at the end. -/
theorem send_key_put {s : KeyQueue} {q : List Nat} (h : Holds s q) (k : UInt8) (down : Bool)
    (hk : keymap SDL_SCANCODE k.toNat ≠ AM_KEY_NONE) (hroom : q.length + 1 < KEY_QUEUE_LEN) :
    ∃ s', send_key SDL_SCANCODE .NEMU_RUNNING k down s = .ok s' ∧
      Holds s' (q ++ [key_code SDL_SCANCODE k.toNat down]) := by
  let x := key_code SDL_SCANCODE k.toNat down
  let s' : KeyQueue := { s with
    key_queue := Function.update s.key_queue s.key_r x
    key_r := (s.key_r + 1) % KEY_QUEUE_LEN }
  have hlen : s.ring.length KEY_QUEUE_LEN = q.length := by rw [← Queue.length_items, h.items]
  have hitems : s'.ring.items KEY_QUEUE_LEN = q ++ [x] := by
    have hpush := Queue.items_push h.inv x (by rw [hlen]; exact hroom)
    rw [h.items] at hpush
    exact hpush
  -- The queue is not empty now, so the indices differ.
  have hne : s'.key_r ≠ s.key_f := by
    intro he
    have hnil := (Queue.items_eq_nil_iff (h.inv.push x)).mpr he.symm
    rw [show (s.ring.push KEY_QUEUE_LEN x).items KEY_QUEUE_LEN = q ++ [x] from hitems] at hnil
    exact absurd hnil (List.append_ne_nil_of_right_ne_nil q (List.cons_ne_nil x []))
  refine ⟨s', ?_, h.inv.push x, hitems, ?_⟩
  · rw [send_key, if_pos ⟨rfl, hk⟩]
    show (cassert (s'.key_r != s.key_f) >>= fun _ => pure s') = _
    rw [show (s'.key_r != s.key_f) = true from bne_iff_ne.mpr hne]
    rfl
  · intro y hy
    rcases List.mem_append.mp hy with hy | hy
    · exact h.codes y hy
    · rw [List.mem_singleton.mp hy]
      exact ⟨key_code_pos SDL_SCANCODE hk down, key_code_lt SDL_SCANCODE _ down⟩

theorem send_key_drop {s : KeyQueue} (state : RunState) (k : UInt8) (down : Bool)
    (h : state ≠ .NEMU_RUNNING ∨ keymap SDL_SCANCODE k.toNat = AM_KEY_NONE) :
    send_key SDL_SCANCODE state k down s = .ok s := by
  rw [send_key, if_neg]
  intro hboth
  rcases h with h | h
  · exact h hboth.1
  · exact hboth.2 h

/-- What the handler leaves in the data register. -/
theorem handler_data {s : KeyQueue} {q : List Nat} (h : Holds s q) (base : Nat) (bytes : Store) :
    ∃ s', i8042_data_io_handler base 0 false ⟨bytes, s⟩ =
        .ok ⟨store bytes base (q.headD 0) 4, s'⟩ ∧ Holds s' q.tail := by
  by_cases hempty : s.key_f = s.key_r
  · obtain rfl : q = [] := by
      rw [← h.items]
      exact (Queue.items_eq_nil_iff h.inv).mpr hempty
    refine ⟨s, ?_, h⟩
    simp [i8042_data_io_handler, hempty, AM_KEY_NONE]
  · have hpop : s.ring.items KEY_QUEUE_LEN =
        s.key_queue s.key_f :: (s.ring.pop KEY_QUEUE_LEN).items KEY_QUEUE_LEN :=
      Queue.items_pop h.inv hempty
    rw [h.items] at hpop
    refine ⟨{ s with key_f := (s.key_f + 1) % KEY_QUEUE_LEN }, ?_, h.inv.pop, ?_, ?_⟩
    · rw [hpop]
      simp [i8042_data_io_handler, hempty]
    · rw [hpop]
      rfl
    · intro x hx
      exact h.codes x (List.mem_of_mem_tail hx)

/-- A read takes the first key, or gives 0. -/
theorem read_data {s : KeyQueue} {q : List Nat} (h : Holds s q) (isa : Isa) (base : Nat)
    (pmem bytes : Store) :
    ∃ span bytes' s', Paddr.paddr_read isa [i8042_map base] I8042_DATA_MMIO 4 ⟨pmem, bytes, s⟩ =
        .ok (q.headD 0, span, ⟨pmem, bytes', s'⟩) ∧ Holds s' q.tail := by
  obtain ⟨s', hhandler, hs'⟩ := handler_data h base bytes
  have hout : Paddr.in_pmem isa I8042_DATA_MMIO = false := by cases isa <;> decide
  have hlen : 4 ∈ Paddr.cpuWidths isa := by cases isa <;> decide
  have hmap : Paddr.fetch_mmio_map [i8042_map base] I8042_DATA_MMIO = some (i8042_map base) := rfl
  have hcall : Paddr.invoke_callback (i8042_map base)
      ( I8042_DATA_MMIO - (i8042_map base).low) 4 false ⟨bytes, s⟩ = .ok
      ⟨store bytes base (q.headD 0) 4, s'⟩ := by
    unfold Paddr.invoke_callback
    simp only [i8042_map, Nat.sub_self, hhandler]
    rfl
  have hdata : load (store bytes base (q.headD 0) 4) base isa.wordBytes % 256 ^ 4 = q.headD 0 := by
    have hword : 4 ≤ isa.wordBytes := by rcases isa.wordBytes_cases with hw | hw <;> omega
    rw [load_mod _ _ hword, load_store_same]
    apply Nat.mod_eq_of_lt
    cases q with
    | nil => decide
    | cons x q => exact (h.codes x List.mem_cons_self).2
  rw [Paddr.paddr_read_mmio _ hout hlen hmap, hcall]
  show ∃ span bytes' s'', Except.ok (load (store bytes base (q.headD 0) 4) base isa.wordBytes %
    256 ^ 4, _, _) = _ ∧ _
  rw [hdata]
  exact ⟨_, _, s', rfl, hs'⟩

/-! ## Section 2: Runs -/

theorem ops_append (hs hs' : List Happening) :
    ops SDL_SCANCODE (hs ++ hs') = ops SDL_SCANCODE hs ++ ops SDL_SCANCODE hs' :=
  List.flatMap_append

/-- Room for all is room for the first part, and then for the rest. -/
theorem Room.append {q : List Nat} {hs hs' : List Happening}
    (h : Room SDL_SCANCODE q (hs ++ hs')) :
    Room SDL_SCANCODE q hs ∧
      Room SDL_SCANCODE (fifo q (ops SDL_SCANCODE hs)).1 hs' := by
  unfold Room at h
  rw [ops_append] at h
  exact Fits.append h

/-- What an event of a running guest does to the FIFO. -/
theorem handle_key {sys : System} {q : List Nat} (h : Holds sys.mem.io.state q)
    (hrunning : sys.nemu_state = .NEMU_RUNNING) {sc : Nat} (down : Bool)
    (hsc : Exact SDL_SCANCODE sc) (hroom : Room SDL_SCANCODE q [.key sc down]) :
    ∃ sys', handle_event SDL_SCANCODE sys (.key sc down) = .ok sys' ∧
      sys'.nemu_state = sys.nemu_state ∧ sys'.device_update_flag = sys.device_update_flag ∧
      Holds sys'.mem.io.state (fifo q (ops SDL_SCANCODE [.key sc down])).1 ∧
      (fifo q (ops SDL_SCANCODE [.key sc down])).2 = [] := by
  by_cases hmap : mapped SDL_SCANCODE sc
  · -- The byte is the whole scancode, and the key is put in.
    have hbyte : (UInt8.ofNat sc).toNat = sc := by
      rw [UInt8.toNat_ofNat']
      exact Nat.mod_eq_of_lt hmap.1
    have hops : ops SDL_SCANCODE [.key sc down] = [.put (key_code SDL_SCANCODE sc down)] := by
      simp [ops, Happening.ops, hmap]
    unfold Room at hroom
    rw [hops] at hroom ⊢
    obtain ⟨s', hsend, hs'⟩ := send_key_put SDL_SCANCODE h (UInt8.ofNat sc) down
      (by rw [hbyte]; exact hmap.2) (Fits.put hroom).1
    rw [hbyte] at hs'
    refine ⟨sys.with_keys s', ?_, rfl, rfl, hs', rfl⟩
    rw [handle_event, hrunning, hsend]
    rfl
  · -- No key has the code, nor the byte that is left of it.
    have hops : ops SDL_SCANCODE [.key sc down] = [] := by
      simp [ops, Happening.ops, hmap]
    have hnone : keymap SDL_SCANCODE (UInt8.ofNat sc).toNat = AM_KEY_NONE := by
      rw [UInt8.toNat_ofNat']
      rcases hsc with hlt | hnone
      · rw [Nat.mod_eq_of_lt hlt]
        by_contra hne
        exact hmap ⟨hlt, hne⟩
      · exact hnone
    rw [hops]
    refine ⟨sys, ?_, rfl, rfl, h, rfl⟩
    rw [handle_event, send_key_drop SDL_SCANCODE _ _ _ (Or.inr hnone)]
    rfl

/-- The keys that are polled are put in, as long as they are looked up as they
    are. -/
theorem poll_keys {events : List SDL_Event} {sys : System} {q : List Nat}
    (h : Holds sys.mem.io.state q)
    (hexact : ∀ sc down, .key sc down ∈ (polled sys.nemu_state events).2 → Exact SDL_SCANCODE sc)
    (hroom : Room SDL_SCANCODE q (polled sys.nemu_state events).2) :
    ∃ sys', events.foldlM (handle_event SDL_SCANCODE) sys = .ok sys' ∧
      sys'.nemu_state = (polled sys.nemu_state events).1 ∧
      sys'.device_update_flag = sys.device_update_flag ∧
      Holds sys'.mem.io.state (fifo q (ops SDL_SCANCODE (polled sys.nemu_state events).2)).1 ∧
      (fifo q (ops SDL_SCANCODE (polled sys.nemu_state events).2)).2 = [] := by
  induction events generalizing sys q with
  | nil => exact ⟨sys, rfl, rfl, rfl, h, rfl⟩
  | cons e events ih =>
    cases e with
    -- After a quit the keys behind it are polled but not sent.
    | quit => exact @ih { sys with nemu_state := .NEMU_QUIT } q h hexact hroom
    | other => exact ih h hexact hroom
    | key sc down =>
      by_cases hrunning : sys.nemu_state = .NEMU_RUNNING
      -- The key first, and then the events behind it.
      · have hpolled : (polled sys.nemu_state (.key sc down :: events)).2 =
            [.key sc down] ++ (polled sys.nemu_state events).2 := by
          simp [polled, hrunning]
        rw [hpolled] at hexact hroom
        obtain ⟨hroom₁, hroom₂⟩ := hroom.append
        obtain ⟨sys₁, hevent, hstate₁, hflag₁, hholds₁, hout₁⟩ :=
          handle_key SDL_SCANCODE h hrunning down (hexact sc down List.mem_cons_self) hroom₁
        rw [← hstate₁] at hroom₂
        obtain ⟨sys', hfold, hstate, hflag, hholds, hout⟩ := ih hholds₁ (by
          intro sc' down' hmem
          rw [hstate₁] at hmem
          exact hexact sc' down' (List.mem_cons_of_mem _ hmem)) hroom₂
        rw [hstate₁] at hstate hholds hout
        rw [hpolled, ops_append, fifo_append]
        refine ⟨sys', ?_, hstate, hflag.trans hflag₁, hholds, ?_⟩
        · rw [List.foldlM_cons, hevent]
          exact hfold
        · show (fifo q (ops SDL_SCANCODE [.key sc down])).2 ++ _ = []
          rw [hout₁, hout]
          rfl
      · have hpolled : (polled sys.nemu_state (.key sc down :: events)).2 =
            (polled sys.nemu_state events).2 := by
          simp [polled, hrunning]
        rw [hpolled] at hexact hroom ⊢
        obtain ⟨sys', hfold, hrest⟩ := ih h hexact hroom
        refine ⟨sys', ?_, hrest⟩
        rw [List.foldlM_cons, handle_event, send_key_drop SDL_SCANCODE _ _ _ (Or.inl hrunning)]
        exact hfold

/-- There is room for fewer than 1024 events. -/
theorem Room.of_length {hs : List Happening} (h : hs.length < KEY_QUEUE_LEN) :
    Room SDL_SCANCODE [] hs := by
  have hops : ∀ hs, (ops SDL_SCANCODE hs).length ≤ hs.length := by
    intro hs
    induction hs with
    | nil => exact Nat.le_refl 0
    | cons e hs ih =>
      have he : (e.ops SDL_SCANCODE).length ≤ 1 := by
        cases e with
        | read => exact Nat.le_refl 1
        | key sc down =>
          show (if mapped SDL_SCANCODE sc then _ else _ : List (Op Nat)).length ≤ 1
          split
          · exact Nat.le_refl 1
          · exact Nat.zero_le 1
      show (e.ops SDL_SCANCODE ++ ops SDL_SCANCODE hs).length ≤ hs.length + 1
      rw [List.length_append]
      omega
  have hle := hops hs
  apply Fits.of_length
  rw [List.length_nil]
  omega

theorem run_cons {isa : Isa} {base : Nat} {x : Step} {steps : List Step} {sys sys₁ sys' : System}
    {data rest : List Nat} (hstep : step SDL_SCANCODE isa base sys x = .ok (sys₁, data))
    (hrun : run SDL_SCANCODE isa base sys₁ steps = .ok (sys', rest)) :
    run SDL_SCANCODE isa base sys (x :: steps) = .ok (sys', data ++ rest) := by
  rw [run, hstep]
  show (run SDL_SCANCODE isa base sys₁ steps >>= _) = _
  rw [hrun]
  rfl

/-- Polling after the alarm. -/
theorem update_keys (isa : Isa) (base : Nat) {events : List SDL_Event} {sys : System} {q : List Nat}
    (h : Holds sys.mem.io.state q) (hflag : sys.device_update_flag = true)
    (hexact : ∀ sc down, .key sc down ∈ (polled sys.nemu_state events).2 → Exact SDL_SCANCODE sc)
    (hroom : Room SDL_SCANCODE q (polled sys.nemu_state events).2) :
    ∃ sys', step SDL_SCANCODE isa base sys (.update events) = .ok (sys', []) ∧
      sys'.nemu_state = (polled sys.nemu_state events).1 ∧ sys'.device_update_flag = false ∧
      Holds sys'.mem.io.state (fifo q (ops SDL_SCANCODE (polled sys.nemu_state events).2)).1 ∧
      (fifo q (ops SDL_SCANCODE (polled sys.nemu_state events).2)).2 = [] := by
  obtain ⟨sys', hpoll, hrest⟩ :=
    @poll_keys SDL_SCANCODE events { sys with device_update_flag := false } q h hexact hroom
  refine ⟨sys', ?_, hrest⟩
  unfold step device_update
  rw [hflag]
  show (List.foldlM _ _ events >>= fun sys => pure (sys, [])) = _
  rw [hpoll]
  rfl

/-- A run and the FIFO go in step. -/
theorem run_keys {isa : Isa} {base : Nat} {steps : List Step} {sys : System} {q : List Nat}
    (h : Holds sys.mem.io.state q)
    (hexact : ∀ sc down,
      .key sc down ∈ history sys.nemu_state sys.device_update_flag steps → Exact SDL_SCANCODE sc)
    (hroom : Room SDL_SCANCODE q (history sys.nemu_state sys.device_update_flag steps)) :
    ∃ sys', run SDL_SCANCODE isa base sys steps =
      .ok (sys', (fifo q (ops SDL_SCANCODE
        (history sys.nemu_state sys.device_update_flag steps))).2.map (·.getD 0)) := by
  induction steps generalizing sys q with
  | nil => exact ⟨sys, rfl⟩
  | cons x steps ih =>
    cases x with
    | alarm =>
      let sys₁ : System := { sys with device_update_flag := true }
      obtain ⟨sys', hrun⟩ := @ih sys₁ q h hexact hroom
      have hstep : step SDL_SCANCODE isa base sys .alarm = .ok (sys₁, []) := rfl
      refine ⟨sys', ?_⟩
      rw [run_cons SDL_SCANCODE hstep hrun]
      rfl
    | run_state state =>
      let sys₁ : System := { sys with nemu_state := state }
      obtain ⟨sys', hrun⟩ := @ih sys₁ q h hexact hroom
      have hstep : step SDL_SCANCODE isa base sys (.run_state state) = .ok (sys₁, []) := rfl
      refine ⟨sys', ?_⟩
      rw [run_cons SDL_SCANCODE hstep hrun]
      rfl
    | read =>
      -- A read takes the oldest code.
      obtain ⟨span, bytes', s', hread, hs'⟩ := read_data h isa base sys.mem.pmem sys.mem.io.bytes
      let sys₁ : System := { sys with mem := ⟨sys.mem.pmem, bytes', s'⟩ }
      have hstep : step SDL_SCANCODE isa base sys .read = .ok (sys₁, [q.headD 0]) := by
        unfold step
        rw [hread]
        rfl
      have hrest : ∀ sc down,
          .key sc down ∈ history sys.nemu_state sys.device_update_flag steps →
            Exact SDL_SCANCODE sc := fun sc down hmem =>
        hexact sc down (List.mem_cons_of_mem _ hmem)
      obtain ⟨sys', hrun⟩ := @ih sys₁ _ hs' hrest (Fits.get hroom)
      refine ⟨sys', ?_⟩
      rw [run_cons SDL_SCANCODE hstep hrun]
      show Except.ok (sys', q.headD 0 :: _) = Except.ok (sys', (fifo q (.get :: _)).2.map _)
      rw [fifo_get, List.map_cons, List.headD_eq_head?_getD]
      rfl
    | update events =>
      by_cases hflag : sys.device_update_flag = true
      -- The queue of SDL is polled once, and the flag is off again.
      · have hhist : history sys.nemu_state sys.device_update_flag (.update events :: steps) =
            (polled sys.nemu_state events).2 ++
              history (polled sys.nemu_state events).1 false steps := by
          rw [history, if_pos hflag]
        rw [hhist] at hexact hroom ⊢
        obtain ⟨hroom₁, hroom₂⟩ := hroom.append
        obtain ⟨sys₁, hstep, hstate₁, hflag₁, hholds₁, hout⟩ :=
          update_keys SDL_SCANCODE isa base h hflag
            (fun sc down hmem => hexact sc down (List.mem_append_left _ hmem)) hroom₁
        have hrest : ∀ sc down,
            .key sc down ∈ history sys₁.nemu_state sys₁.device_update_flag steps →
              Exact SDL_SCANCODE sc := by
          intro sc down hmem
          rw [hstate₁, hflag₁] at hmem
          exact hexact sc down (List.mem_append_right _ hmem)
        have hroom' := hroom₂
        rw [← hstate₁, ← hflag₁] at hroom'
        obtain ⟨sys', hrun⟩ := ih hholds₁ hrest hroom'
        refine ⟨sys', ?_⟩
        rw [run_cons SDL_SCANCODE hstep hrun, ops_append, fifo_append, hout, hstate₁, hflag₁]
        rfl
      -- Without the flag nothing is polled.
      · rw [Bool.not_eq_true] at hflag
        have hhist : history sys.nemu_state sys.device_update_flag (.update events :: steps) =
            history sys.nemu_state sys.device_update_flag steps := by
          rw [history, hflag]
          rfl
        rw [hhist] at hexact hroom ⊢
        obtain ⟨sys', hrun⟩ := ih h hexact hroom
        have hstep : step SDL_SCANCODE isa base sys (.update events) = .ok (sys, []) := by
          unfold step device_update
          rw [hflag]
          rfl
        exact ⟨sys', run_cons SDL_SCANCODE hstep hrun⟩

/-! ## Section 3: What the reads return -/

theorem puts_pos (hs : List Happening) : ∀ x ∈ puts (ops SDL_SCANCODE hs), x ≠ 0 := by
  induction hs with
  | nil => exact fun x hx => absurd hx List.not_mem_nil
  | cons e hs ih =>
    cases e with
    | read => exact ih
    | key sc down =>
      by_cases hmap : mapped SDL_SCANCODE sc
      · have hops : ops SDL_SCANCODE (.key sc down :: hs) =
            .put (key_code SDL_SCANCODE sc down) :: ops SDL_SCANCODE hs := by
          simp [ops, Happening.ops, hmap]
        intro x hx
        rw [hops] at hx
        rcases List.mem_cons.mp hx with rfl | hx
        · exact key_code_pos SDL_SCANCODE hmap.2 down
        · exact ih x hx
      · have hops : ops SDL_SCANCODE (.key sc down :: hs) = ops SDL_SCANCODE hs := by
          simp [ops, Happening.ops, hmap]
        rw [hops]
        exact ih

/-- The keyboard as it is at first holds nothing. -/
theorem start_holds (pmem bytes : Store) : Holds (start pmem bytes).mem.io.state [] where
  inv := ⟨Nat.zero_lt_succ _, Nat.zero_lt_succ _⟩
  items := (Queue.items_eq_nil_iff ⟨Nat.zero_lt_succ _, Nat.zero_lt_succ _⟩).mpr rfl
  codes := fun _ hx => absurd hx List.not_mem_nil

/-- In every run whose events are looked up with the whole scancode, the
    guest reads the mapped keys in order. -/
theorem returns_keys (isa : Isa) (base : Nat) (pmem bytes : Store) (steps : List Step)
    (hexact : ∀ sc down, .key sc down ∈ history .NEMU_STOP false steps → Exact SDL_SCANCODE sc)
    (hroom : Room SDL_SCANCODE [] (history .NEMU_STOP false steps)) :
    ReturnsKeys SDL_SCANCODE isa base (start pmem bytes) steps := by
  obtain ⟨sys', hrun⟩ :=
    @run_keys SDL_SCANCODE isa base steps _ [] (start_holds pmem bytes) hexact hroom
  refine ⟨sys', _, hrun, rfl, filter_fifo rfl ?_⟩
  intro x hx
  exact decide_eq_true (puts_pos SDL_SCANCODE _ x hx)

end device

/-- The guest reads that `A` goes down. -/
theorem returns_keys_a : ReturnsKeys sdl_scancode .riscv32 0 (start (fun _ => 0) fun _ => 0)
    [.run_state .NEMU_RUNNING, .alarm, .update [.key 4 true, .key 257 true], .read, .read] := by
  apply returns_keys
  · intro sc down hmem
    have hsc : sc = 4 ∧ down = true ∨ sc = 257 ∧ down = true := by
      simpa [history, polled] using hmem
    rcases hsc with ⟨rfl, -⟩ | ⟨rfl, -⟩
    · exact Or.inl (by decide)
    · exact Or.inr (by decide)
  · exact Room.of_length sdl_scancode (by decide)

/-- `SDL_SCANCODE_AUDIOSTOP` is 260, and the guest reads that `A` goes down. -/
theorem audiostop_read_as_a :
    Room sdl_scancode [] (history .NEMU_STOP false
      [.run_state .NEMU_RUNNING, .alarm, .update [.key 260 true], .read]) ∧
    ¬ ReturnsKeys sdl_scancode .riscv32 0 (start (fun _ => 0) fun _ => 0)
      [.run_state .NEMU_RUNNING, .alarm, .update [.key 260 true], .read] := by
  constructor
  · exact Room.of_length sdl_scancode (by decide)
  · rintro ⟨sys', reads, hrun, hreads, -⟩
    have hcode : (run sdl_scancode .riscv32 0 (start (fun _ => 0) fun _ => 0)
        [.run_state .NEMU_RUNNING, .alarm, .update [.key 260 true], .read]).map (·.2) =
          .ok [0x802b] := by rfl
    rw [hrun] at hcode
    have hsame : reads = [0x802b] := Except.ok.inj hcode
    rw [hsame] at hreads
    exact absurd hreads (by decide)

end Nemu.Keyboard
