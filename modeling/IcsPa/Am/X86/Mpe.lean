import IcsPa.Framework.Interleave
import Mathlib.Logic.Function.Basic

/-! # The processors of x86-qemu

    `am/src/x86/qemu/mpe.c`, with `_start_c` and `halt` of `trm.c`,
    `__am_lapic_bootap` of `ioe.c`, and the way of a processor through
    `boot/start.S` and `load_kernel`.  The first processor starts the others
    one by one, and waits for each; a processor that halts stops all others.

    A step of a processor is one access to the memory that it shares with the
    others, one command to its local APIC, or one character.  An INIT resets
    the processor that it is sent to, and a STARTUP starts it at the boot record
    if it waits for one.  A run is any interleaving.

    The code does not wait for the delivery of its commands.  Here they are
    assumed to arrive at once: a processor makes no step between the INIT that
    another one sends to it and its reset.  Without this, two processors that halt
    could reset each other. -/

namespace Am.X86.Mpe

/-! ## Section 1: The boot record -/

def BOOTREC_ADDR : Nat := 0x7000

/-- Where the first instruction of the boot record jumps to, in 16-bit code with
    `%cs` at the record: `jmp rel16` or `jmp rel8`. -/
def jmp_target (jmp_code : Nat) : Option Nat :=
  if jmp_code % 256 = 0xe9 then
    some (BOOTREC_ADDR + (3 + jmp_code / 256 % 2 ^ 16) % 2 ^ 16)
  else if jmp_code % 256 = 0xeb then
    -- The offset is signed.
    some (BOOTREC_ADDR +
      (2 + (jmp_code / 256 % 256 + 2 ^ 16 - 2 * (jmp_code / 256 % 256 / 128) * 128)) % 2 ^ 16)
  else none

/-- (16-bit) jmp (0x7c00) -/
def JMP_BOOT : Nat := 0x000bfde9

/-- (16-bit) jmp . -/
def JMP_SELF : Nat := 0x0000feeb

example : jmp_target JMP_BOOT = some 0x7c00 := by decide

example : jmp_target JMP_SELF = some BOOTREC_ADDR := by decide

/-! ## Section 2: The state -/

/-- The commands of `__am_lapic_bootap`. -/
inductive Ipi where
  | init
  | startup
  deriving DecidableEq

/-- What `__am_lapic_bootap` sends. -/
def bootap : List Ipi := [.init, .startup, .startup]

/-- Where a processor is. -/
inductive Pc where
  /-- It waits for a STARTUP. -/
  | off
  /-- It is at the boot record. -/
  | boot_record
  /-- It is at 0x7c00, on the stack of the boot loader, and will read `is_ap`. -/
  | load_kernel
  /-- It loads the kernel once more. -/
  | reload
  /-- It is in `_start_c`, still on that stack, and will read `is_ap`. -/
  | start_c
  /-- It takes itself for the first processor. -/
  | bootcpu_init
  /-- It is in `othercpu_entry`, on its own stack. -/
  | percpu_init
  /-- `xchg(&ap_ready, 1)` is next. -/
  | announce
  | call_user_entry
  /-- It is in the entry at this address. -/
  | user (entry : Nat)
  /-- It has left the program. -/
  | lost
  | main
  | mpe_init (entry : Nat)
  | set_jmp_code
  /-- The loop of `mpe_init` is at `cpu`. -/
  | loop (cpu : Nat)
  | boot (cpu : Nat) (ipis : List Ipi)
  /-- `while (xchg(&ap_ready, 0) != 1)` -/
  | wait (cpu : Nat)
  | halt (code : Int)
  /-- The loop of `__am_stop_the_world` is at `cpu_`. -/
  | stop (code : Int) (cpu_ : Nat) (ipis : List Ipi)
  | print (code : Int) (rest : List Char)
  deriving DecidableEq

structure World where
  jmp_code   : Nat
  is_ap      : Nat
  user_entry : Option Nat
  ap_ready   : Nat
  pc         : Nat → Pc
  /-- What was put to COM1. -/
  com1       : List Char
  /-- The machine is switched off. -/
  off        : Bool

def World.goto (w : World) (c : Nat) (pc : Pc) : World := { w with pc := Function.update w.pc c pc }

@[simp] theorem World.goto_self (w : World) (c : Nat) (pc : Pc) : (w.goto c pc).pc c = pc :=
  Function.update_self ..

theorem World.goto_of_ne (w : World) {c k : Nat} (h : k ≠ c) (pc : Pc) :
    (w.goto c pc).pc k = w.pc k :=
  Function.update_of_ne h ..

@[simp] theorem World.goto_jmp_code (w : World) (c : Nat) (pc : Pc) :
    (w.goto c pc).jmp_code = w.jmp_code := rfl
@[simp] theorem World.goto_is_ap (w : World) (c : Nat) (pc : Pc) :
    (w.goto c pc).is_ap = w.is_ap := rfl
@[simp] theorem World.goto_user_entry (w : World) (c : Nat) (pc : Pc) :
    (w.goto c pc).user_entry = w.user_entry := rfl
@[simp] theorem World.goto_ap_ready (w : World) (c : Nat) (pc : Pc) :
    (w.goto c pc).ap_ready = w.ap_ready := rfl
@[simp] theorem World.goto_com1 (w : World) (c : Nat) (pc : Pc) : (w.goto c pc).com1 = w.com1 := rfl
@[simp] theorem World.goto_off (w : World) (c : Nat) (pc : Pc) : (w.goto c pc).off = w.off := rfl

/-- The processor `c` gets a command, in the step that sends it. -/
def World.send (w : World) (c : Nat) : Ipi → World
  | .init => w.goto c .off
  | .startup => if w.pc c = .off then w.goto c .boot_record else w

/-! ## Section 3: What `halt` prints -/

def hex : List Char :=
  ['0', '1', '2', '3', '4', '5', '6', '7', '8', '9', 'a', 'b', 'c', 'd', 'e', 'f']

def fmt : List Char :=
  ['C', 'P', 'U', ' ', '#', '$', ' ', 'H', 'a', 'l', 't', ' ', '(', '4', '0', ')', '.',
   Char.ofNat 10]

/-- The loop of `halt` over the format, on the processor `cpu`. -/
def message (cpu : Nat) (code : Int) : List Char :=
  fmt.map fun ch =>
    if ch = '$' then hex.getD cpu ch
    else if ch = '0' ∨ ch = '4' then hex.getD ((code >>> (ch.toNat - '0'.toNat)) % 16).toNat ch
    else ch

/-! ## Section 4: Steps -/

/-- What a program may do next where the code does not say. -/
inductive Act where
  | go
  | putch (ch : Char)
  | mpe_init (entry : Nat)
  | halt (code : Int)
  deriving DecidableEq

section step
variable (ncpu : Nat)

/-- The next command of the loop of `__am_stop_the_world`. -/
def stop_next (c : Nat) (code : Int) (cpu_ : Nat) (w : World) : World :=
  if cpu_ < ncpu then
    if cpu_ = c then w.goto c (.stop code (cpu_ + 1) []) else w.goto c (.stop code cpu_ bootap)
  else w.goto c (.print code (message c code))

/-- The next step of the code, where it does not call the user. -/
def go (c : Nat) (w : World) : Option World :=
  match w.pc c with
  | .boot_record =>
      if jmp_target w.jmp_code = some 0x7c00 then some (w.goto c .load_kernel)
      else if jmp_target w.jmp_code = some BOOTREC_ADDR then some w
      else some (w.goto c .lost)
  | .load_kernel => some (w.goto c (if w.is_ap ≠ 0 then .start_c else .reload))
  | .start_c => some (w.goto c (if w.is_ap ≠ 0 then .percpu_init else .bootcpu_init))
  | .percpu_init => some (w.goto c .announce)
  | .announce => some ({ w with ap_ready := 1 }.goto c .call_user_entry)
  | .call_user_entry =>
      match w.user_entry with
      | some entry => some (w.goto c (.user entry))
      | none => some (w.goto c .lost)
  | .mpe_init entry => some ({ w with user_entry := some entry }.goto c .set_jmp_code)
  | .set_jmp_code => some ({ w with jmp_code := JMP_BOOT }.goto c (.loop 1))
  | .loop cpu =>
      if cpu < ncpu then some ({ w with is_ap := 1 }.goto c (.boot cpu bootap))
      else some (w.goto c .call_user_entry)
  | .boot cpu [] => some (w.goto c (.wait cpu))
  | .boot cpu (ipi :: ipis) => some ((w.send cpu ipi).goto c (.boot cpu ipis))
  | .wait cpu =>
      if w.ap_ready = 1 then some ({ w with ap_ready := 0 }.goto c (.loop (cpu + 1)))
      else some { w with ap_ready := 0 }
  | .halt code => some ({ w with jmp_code := JMP_SELF }.goto c (.stop code 0 []))
  | .stop code cpu_ [] => some (stop_next ncpu c code cpu_ w)
  | .stop code cpu_ [ipi] => some ((w.send cpu_ ipi).goto c (.stop code (cpu_ + 1) []))
  | .stop code cpu_ (ipi :: ipis) => some ((w.send cpu_ ipi).goto c (.stop code cpu_ ipis))
  | .print _ [] => some { w with off := true }
  | .print code (ch :: rest) => some ({ w with com1 := w.com1 ++ [ch] }.goto c (.print code rest))
  | .off | .reload | .bootcpu_init | .user _ | .lost | .main => none

/-- A step of the processor `c`. -/
def step (w : World) (c : Nat) (a : Act) : Option World :=
  if w.off ∨ ¬ c < ncpu then none
  else
    match w.pc c, a with
    | .main, .putch ch | .user _, .putch ch => some { w with com1 := w.com1 ++ [ch] }
    | .main, .halt code | .user _, .halt code => some (w.goto c (.halt code))
    | .main, .mpe_init entry => some (w.goto c (.mpe_init entry))
    | _, .go => go ncpu c w
    | _, _ => none

/-- An interleaving. -/
def run (w : World) (steps : List (Nat × Act)) : Option World :=
  Interleave.run (fun w (x : Nat × Act) => step ncpu w x.1 x.2) w steps

end step

/-- The first processor is in `main`, and the others are off. -/
def start : World where
  jmp_code := 0
  is_ap := 0
  user_entry := none
  ap_ready := 0
  pc := fun c => if c = 0 then .main else .off
  com1 := []
  off := false

/-- The states of all interleavings. -/
def Reachable (ncpu : Nat) (w : World) : Prop := ∃ steps, run ncpu start steps = some w

/-! ## Section 5: What a step can do -/

/-- The steps of the processor `c`. -/
inductive Trans (ncpu c : Nat) (w : World) : World → Prop where
  | putch (ch : Char) (h : w.pc c = .main ∨ ∃ e, w.pc c = .user e) :
      Trans ncpu c w { w with com1 := w.com1 ++ [ch] }
  | to_halt (code : Int) (h : w.pc c = .main ∨ ∃ e, w.pc c = .user e) :
      Trans ncpu c w (w.goto c (.halt code))
  | to_mpe_init (e : Nat) (h : w.pc c = .main) : Trans ncpu c w (w.goto c (.mpe_init e))
  | set_entry (e : Nat) (h : w.pc c = .mpe_init e) :
      Trans ncpu c w ({ w with user_entry := some e }.goto c .set_jmp_code)
  | set_jmp (h : w.pc c = .set_jmp_code) :
      Trans ncpu c w ({ w with jmp_code := JMP_BOOT }.goto c (.loop 1))
  | next_cpu (cpu : Nat) (h : w.pc c = .loop cpu) (hlt : cpu < ncpu) :
      Trans ncpu c w ({ w with is_ap := 1 }.goto c (.boot cpu bootap))
  | all_up (cpu : Nat) (h : w.pc c = .loop cpu) (hge : ¬ cpu < ncpu) :
      Trans ncpu c w (w.goto c .call_user_entry)
  | boot_ipi (cpu : Nat) (ipi : Ipi) (ipis : List Ipi) (h : w.pc c = .boot cpu (ipi :: ipis)) :
      Trans ncpu c w ((w.send cpu ipi).goto c (.boot cpu ipis))
  | booted (cpu : Nat) (h : w.pc c = .boot cpu []) : Trans ncpu c w (w.goto c (.wait cpu))
  | is_ready (cpu : Nat) (h : w.pc c = .wait cpu) (hready : w.ap_ready = 1) :
      Trans ncpu c w ({ w with ap_ready := 0 }.goto c (.loop (cpu + 1)))
  | poll (cpu : Nat) (h : w.pc c = .wait cpu) (hready : w.ap_ready ≠ 1) :
      Trans ncpu c w { w with ap_ready := 0 }
  | fetch (h : w.pc c = .boot_record) (hjmp : jmp_target w.jmp_code = some 0x7c00) :
      Trans ncpu c w (w.goto c .load_kernel)
  | spin (h : w.pc c = .boot_record) (hjmp : jmp_target w.jmp_code = some BOOTREC_ADDR) :
      Trans ncpu c w w
  | stray (h : w.pc c = .boot_record) (hjmp : jmp_target w.jmp_code ≠ some 0x7c00)
      (hjmp' : jmp_target w.jmp_code ≠ some BOOTREC_ADDR) : Trans ncpu c w (w.goto c .lost)
  | loaded (h : w.pc c = .load_kernel) (hap : w.is_ap ≠ 0) : Trans ncpu c w (w.goto c .start_c)
  | reloads (h : w.pc c = .load_kernel) (hap : w.is_ap = 0) : Trans ncpu c w (w.goto c .reload)
  | othercpu (h : w.pc c = .start_c) (hap : w.is_ap ≠ 0) : Trans ncpu c w (w.goto c .percpu_init)
  | bootcpu (h : w.pc c = .start_c) (hap : w.is_ap = 0) : Trans ncpu c w (w.goto c .bootcpu_init)
  | inited (h : w.pc c = .percpu_init) : Trans ncpu c w (w.goto c .announce)
  | announced (h : w.pc c = .announce) :
      Trans ncpu c w ({ w with ap_ready := 1 }.goto c .call_user_entry)
  | enter (e : Nat) (h : w.pc c = .call_user_entry) (he : w.user_entry = some e) :
      Trans ncpu c w (w.goto c (.user e))
  | no_entry (h : w.pc c = .call_user_entry) (he : w.user_entry = none) :
      Trans ncpu c w (w.goto c .lost)
  | set_self (code : Int) (h : w.pc c = .halt code) :
      Trans ncpu c w ({ w with jmp_code := JMP_SELF }.goto c (.stop code 0 []))
  | skip_self (code : Int) (h : w.pc c = .stop code c []) :
      Trans ncpu c w (w.goto c (.stop code (c + 1) []))
  | next_stop (code : Int) (cpu_ : Nat) (h : w.pc c = .stop code cpu_ []) (hlt : cpu_ < ncpu)
      (hne : cpu_ ≠ c) :
      Trans ncpu c w (w.goto c (.stop code cpu_ bootap))
  | all_stopped (code : Int) (cpu_ : Nat) (h : w.pc c = .stop code cpu_ []) (hge : ¬ cpu_ < ncpu) :
      Trans ncpu c w (w.goto c (.print code (message c code)))
  | last_ipi (code : Int) (cpu_ : Nat) (ipi : Ipi) (h : w.pc c = .stop code cpu_ [ipi]) :
      Trans ncpu c w ((w.send cpu_ ipi).goto c (.stop code (cpu_ + 1) []))
  | stop_ipi (code : Int) (cpu_ : Nat) (ipi ipi' : Ipi) (ipis : List Ipi)
      (h : w.pc c = .stop code cpu_ (ipi :: ipi' :: ipis)) :
      Trans ncpu c w ((w.send cpu_ ipi).goto c (.stop code cpu_ (ipi' :: ipis)))
  | shown (code : Int) (ch : Char) (rest : List Char) (h : w.pc c = .print code (ch :: rest)) :
      Trans ncpu c w ({ w with com1 := w.com1 ++ [ch] }.goto c (.print code rest))
  | power_off (code : Int) (h : w.pc c = .print code []) : Trans ncpu c w { w with off := true }

section go
variable {ncpu c : Nat} {w w' : World}

/-- The processor is at the boot record. -/
theorem boot_record_trans (hpc : w.pc c = .boot_record) (h : go ncpu c w = some w') :
    Trans ncpu c w w' := by
  simp only [go, hpc] at h
  split at h
  · rename_i hjmp
    cases h
    exact .fetch hpc hjmp
  · rename_i hjmp
    split at h
    · rename_i hself
      cases h
      exact .spin hpc hself
    · rename_i hself
      cases h
      exact .stray hpc hjmp hself

/-- It reads `is_ap`, for the first time. -/
theorem load_kernel_trans (hpc : w.pc c = .load_kernel) (h : go ncpu c w = some w') :
    Trans ncpu c w w' := by
  simp only [go, hpc] at h
  cases h
  by_cases hap : w.is_ap = 0
  · rw [if_neg (by simpa using hap)]
    exact .reloads hpc hap
  · rw [if_pos hap]
    exact .loaded hpc hap

/-- It reads `is_ap` again. -/
theorem start_c_trans (hpc : w.pc c = .start_c) (h : go ncpu c w = some w') :
    Trans ncpu c w w' := by
  simp only [go, hpc] at h
  cases h
  by_cases hap : w.is_ap = 0
  · rw [if_neg (by simpa using hap)]
    exact .bootcpu hpc hap
  · rw [if_pos hap]
    exact .othercpu hpc hap

theorem call_user_entry_trans (hpc : w.pc c = .call_user_entry) (h : go ncpu c w = some w') :
    Trans ncpu c w w' := by
  simp only [go, hpc] at h
  split at h
  · rename_i entry he
    cases h
    exact .enter entry hpc he
  · rename_i he
    cases h
    exact .no_entry hpc he

/-- The head of the loop of `mpe_init`. -/
theorem loop_trans {cpu : Nat} (hpc : w.pc c = .loop cpu) (h : go ncpu c w = some w') :
    Trans ncpu c w w' := by
  simp only [go, hpc] at h
  split at h
  · rename_i hlt
    cases h
    exact .next_cpu cpu hpc hlt
  · rename_i hge
    cases h
    exact .all_up cpu hpc hge

theorem wait_trans {cpu : Nat} (hpc : w.pc c = .wait cpu) (h : go ncpu c w = some w') :
    Trans ncpu c w w' := by
  simp only [go, hpc] at h
  split at h
  · rename_i hready
    cases h
    exact .is_ready cpu hpc hready
  · rename_i hready
    cases h
    exact .poll cpu hpc hready

/-- The head of the loop of `__am_stop_the_world`. -/
theorem stop_next_trans {code : Int} {cpu_ : Nat} (hpc : w.pc c = .stop code cpu_ []) :
    Trans ncpu c w (stop_next ncpu c code cpu_ w) := by
  unfold stop_next
  by_cases hlt : cpu_ < ncpu
  · rw [if_pos hlt]
    by_cases hne : cpu_ = c
    · subst hne
      rw [if_pos rfl]
      exact .skip_self code hpc
    · rw [if_neg hne]
      exact .next_stop code cpu_ hpc hlt hne
  · rw [if_neg hlt]
    exact .all_stopped code cpu_ hpc hlt

theorem stop_trans {code : Int} {cpu_ : Nat} {ipis : List Ipi} (hpc : w.pc c = .stop code cpu_ ipis)
    (h : go ncpu c w = some w') : Trans ncpu c w w' := by
  simp only [go, hpc] at h
  match ipis with
  | [] =>
    cases h
    exact stop_next_trans hpc
  | [ipi] =>
    cases h
    exact .last_ipi code cpu_ ipi hpc
  | ipi :: ipi' :: ipis =>
    cases h
    exact .stop_ipi code cpu_ ipi ipi' ipis hpc

theorem go_trans (h : go ncpu c w = some w') : Trans ncpu c w w' := by
  cases hpc : w.pc c
  case boot_record => exact boot_record_trans hpc h
  case load_kernel => exact load_kernel_trans hpc h
  case start_c => exact start_c_trans hpc h
  case call_user_entry => exact call_user_entry_trans hpc h
  case loop => exact loop_trans hpc h
  case wait => exact wait_trans hpc h
  case stop => exact stop_trans hpc h
  all_goals simp only [go, hpc] at h
  case off | reload | bootcpu_init | user | lost | main => cases h
  case percpu_init =>
    cases h
    exact .inited hpc
  case announce =>
    cases h
    exact .announced hpc
  case mpe_init entry =>
    cases h
    exact .set_entry entry hpc
  case set_jmp_code =>
    cases h
    exact .set_jmp hpc
  case boot cpu ipis =>
    cases ipis with
    | nil =>
      cases h
      exact .booted cpu hpc
    | cons ipi ipis =>
      cases h
      exact .boot_ipi cpu ipi ipis hpc
  case halt code =>
    cases h
    exact .set_self code hpc
  case print code rest =>
    cases rest with
    | nil =>
      cases h
      exact .power_off code hpc
    | cons ch rest =>
      cases h
      exact .shown code ch rest hpc

end go

/-- A step is one of these, of a processor that is there, while the machine is
    on. -/
theorem step_trans {ncpu c : Nat} {w w' : World} {a : Act} (h : step ncpu w c a = some w') :
    w.off = false ∧ c < ncpu ∧ Trans ncpu c w w' := by
  unfold step at h
  split at h
  · cases h
  · rename_i hon
    have hoff : w.off = false := by simpa using fun hoff => hon (.inl hoff)
    have hc : c < ncpu := by
      by_contra hge
      exact hon (.inr hge)
    refine ⟨hoff, hc, ?_⟩
    split at h
    case h_1 hpc =>
      cases h
      exact .putch _ (.inl hpc)
    case h_2 entry _ hpc =>
      cases h
      exact .putch _ (.inr ⟨entry, hpc⟩)
    case h_3 hpc =>
      cases h
      exact .to_halt _ (.inl hpc)
    case h_4 entry _ hpc =>
      cases h
      exact .to_halt _ (.inr ⟨entry, hpc⟩)
    case h_5 hpc =>
      cases h
      exact .to_mpe_init _ hpc
    case h_6 => exact go_trans h
    case h_7 => cases h

end Am.X86.Mpe
