import IcsPa.Am.Native.Vme

/-! # Contexts in the native process

    `abstract-machine/am/src/native/cte.c`, with `ucontext` of `vme.c` and the
    start of a kernel context in `trap.S`, in one process.  An interrupt is a
    signal of the host, and a trap is an access to a page that nobody may touch:
    the signal handler puts the interrupted context on the stack, and lets the
    process go on in `irq_handle`.  The way back is such an access too.

    A context is an object at an address of the memory.  To write an object
    destroys the others that share a byte with it.  The floating-point registers
    are not in it: `uc_mcontext` has a pointer to where the host has put them. -/

open CCall

set_option linter.style.nameCheck false

namespace Am.Native.Cte

/-! ## Section 1: The state -/

inductive EventType where
  | null
  | yield
  | syscall
  | pagefault
  | error
  | irq_timer
  | irq_iodev
  deriving DecidableEq

structure Event where
  event : EventType
  cause : Nat
  ref   : Nat
  deriving DecidableEq

inductive Sig where
  | usr1
  | vtalrm
  | segv
  deriving DecidableEq

/-- `si_code` of a `SIGSEGV`. -/
inductive SegvCode where
  | maperr
  | accerr
  | other
  deriving DecidableEq

/-- Which of the signals of the interrupts are blocked. -/
structure Sigset where
  usr1   : Bool
  vtalrm : Bool
  deriving DecidableEq

/-- `__am_intr_sigmask` -/
def intr_sigmask : Sigset := ⟨true, true⟩

/-- What a signal handler finds of the interrupted code; `ρ` are the registers
    that the code does not name. -/
structure Ucontext (ρ : Type) where
  rip     : Nat
  rsp     : Nat
  rax     : Nat
  rdi     : Nat
  rsi     : Nat
  rest    : ρ
  sigmask : Sigset

structure Context (ρ : Type) where
  ksp     : Nat
  vm_head : Option Nat
  uc      : Ucontext ρ

/-- The addresses that the code knows, and the host. -/
structure Env (ρ : Type) where
  P             : Platform
  /-- The code of the program, without the libraries. -/
  text          : Area
  sigprocmask   : Nat
  irq_handle    : Nat
  kcontext_start : Nat
  uc_example    : Ucontext ρ
  /-- The bytes of a `Context` before its red zone. -/
  size          : Nat

structure Cpu (ρ A : Type) where
  vme : Vme A
  ksp : Nat
  ev  : Event
  /-- The registers and the blocked signals of the process. -/
  uc  : Ucontext ρ
  mem : Nat → Option (Context ρ)

/-! ## Section 2: The code -/

section code
variable {ρ A : Type} [DecidableEq A] (E : Env ρ)

/-- The difference of two addresses. -/
def sub64 (a b : Nat) : Nat := (a + (2 ^ 64 - b)) % 2 ^ 64

/-- The object at `c` is written. -/
def put (c : Nat) (ctx : Context ρ) (mem : Nat → Option (Context ρ)) : Nat → Option (Context ρ) :=
  fun a => if a = c then some ctx else if a < c + E.size ∧ c < a + E.size then none else mem a

/-- Something else is written to the `n` bytes at `p`. -/
def clobber (p n : Nat) (mem : Nat → Option (Context ρ)) : Nat → Option (Context ρ) :=
  fun a => if p < a + E.size ∧ a < p + n then none else mem a

/-- `sizeof(Context)`, with the red zone. -/
def sizeof_Context : Nat := E.size + 128

def __am_in_userspace (addr : Nat) (s : Cpu ρ A) : Bool :=
  s.vme.vme_enable && s.vme.vm_head.isSome && USER_SPACE.IN_RANGE addr

/-- `YIELD_INSTR_LEN` and `SYSCALL_INSTR_LEN`. -/
def INSTR_LEN : Nat := 7

/-- An interrupt in a library is not safe to handle. -/
def signal_safe (rip : Nat) (s : Cpu ρ A) : Bool :=
  E.text.IN_RANGE rip || __am_in_userspace rip s || rip == E.sigprocmask + 13

/-- Where the context goes on. -/
def next_rip (event : EventType) (rip : Nat) : Nat :=
  if event = .syscall then rip + INSTR_LEN
  else if event = .yield then rip + INSTR_LEN
  else rip

/-- Where the context is put, below `rsp`. -/
def frame (rsp : Nat) : Nat :=
  let rsp := sub64 rsp (sizeof_Context E)
  if (rsp + 8) % 16 ≠ 0 then sub64 rsp 8 else rsp

/-- `setup_stack`, and whether `irq_handle` is called next. -/
def setup_stack (event : EventType) (s : Cpu ρ A) : Cpu ρ A × Bool :=
  let rip := s.uc.rip
  let trap_from_user := __am_in_userspace rip s
  if (event = .irq_iodev ∨ event = .irq_timer) ∧ signal_safe E rip s = false then (s, false)
  else
    let uc := { s.uc with rip := next_rip event rip }
    -- The red zone of the interrupted code is in the context.
    let c := frame E (if trap_from_user then s.ksp else uc.rsp)
    let garbage := (s.mem c).getD ⟨0, none, uc⟩
    ({ s with
        mem := put E c { garbage with uc } s.mem
        uc := { uc with rdi := c, rip := E.irq_handle, rsp := c, sigmask := intr_sigmask } }, true)

/-- The first statements of `irq_handle`. -/
def irq_handle_enter (s : Cpu ρ A) : Except Fault (Cpu ρ A) :=
  match s.mem s.uc.rdi with
  | none => .error .outOfBounds
  | some c =>
      let c := { c with vm_head := s.vme.vm_head, ksp := s.ksp }
      .ok { s with mem := put E s.uc.rdi c s.mem }

/-- `iret` -/
def iret (s : Cpu ρ A) : Except Fault (Cpu ρ A) :=
  match s.mem s.uc.rax with
  | none => .error .outOfBounds
  | some c => .ok { s with uc := c.uc, ksp := c.ksp }

/-- The event of a signal; there is none for the way back. -/
def event_of (sig : Sig) (si_code : SegvCode) (si_addr : Nat) (s : Cpu ρ A) :
    Except Fault (Option Event) :=
  match sig with
  | .usr1 => .ok (some ⟨.irq_iodev, 0, 0⟩)
  | .vtalrm => .ok (some ⟨.irq_timer, 0, 0⟩)
  | .segv =>
      if si_code = .accerr ∧ si_addr = 0x100010 then .ok none
      else do
        let event := if si_code = .accerr ∧ si_addr = 0x100000 then EventType.syscall
          else if si_code = .accerr ∧ si_addr = 0x100008 then .yield
          else .error
        let ev ←
          if __am_in_userspace si_addr s then do
            cassert (event = .error)
            match si_code with
            | .maperr => .ok ⟨.pagefault, MMAP_READ, si_addr⟩
            | .accerr => .ok ⟨.pagefault, MMAP_WRITE, si_addr⟩
            | .other => .error .assertion
          else .ok (⟨event, 0, 0⟩ : Event)
        cassert (ev.event ≠ .error)
        return some ev

/-- `sig_handler`, and whether `irq_handle` is called next. -/
def sig_handler (sig : Sig) (si_code : SegvCode) (si_addr : Nat) (s : Cpu ρ A) :
    Except Fault (Cpu ρ A × Bool) := do
  match ← event_of sig si_code si_addr s with
  | none =>
      let s ← iret { s with ev := ⟨.error, 0, 0⟩ }
      return (s, false)
  | some ev => return setup_stack E ev.event { s with ev }

def blocked (sig : Sig) (s : Cpu ρ A) : Bool :=
  match sig with
  | .usr1 => s.uc.sigmask.usr1
  | .vtalrm => s.uc.sigmask.vtalrm
  | .segv => false

/-- A signal comes.  If it is blocked, it waits. -/
def signal (sig : Sig) (si_code : SegvCode) (si_addr : Nat) (s : Cpu ρ A) :
    Except Fault (Cpu ρ A) :=
  if blocked sig s then .ok s
  else do
    let (s, irq) ← sig_handler E sig si_code si_addr s
    if irq then irq_handle_enter E s else return s

/-- The rest of `irq_handle`, when `user_handler` has returned `c`. -/
def irq_handle_leave (c : Nat) (s : Cpu ρ A) : Except Fault (Cpu ρ A) := do
  cassert (c ≠ 0)
  match s.mem c with
  | none => .error .outOfBounds
  | some ctx =>
      let vme ← __am_switch E.P ctx.vm_head s.vme
      -- The magic call.
      let (s, _) ← sig_handler E .segv .accerr 0x100010 { s with vme, uc := { s.uc with rax := c } }
      return s

def kcontext (kstack_end entry arg : Nat) (s : Cpu ρ A) : Nat × Cpu ρ A :=
  let c := sub64 kstack_end (sizeof_Context E)
  let garbage := (s.mem c).getD ⟨0, none, E.uc_example⟩
  let uc := { E.uc_example with
    rip := E.kcontext_start, rsp := kstack_end, sigmask := ⟨false, false⟩, rdi := arg, rsi :=
      entry }
  (c, { s with mem := put E c { garbage with vm_head := none, uc } s.mem })

/-- The code at `__am_kcontext_start`, up to the first instruction of the entry:
    `andq $0xfffffffffffffff0, %rsp` and `call *%rsi`. -/
def __am_kcontext_start (s : Cpu ρ A) : Cpu ρ A :=
  let rsp := s.uc.rsp &&& 0xfffffffffffffff0
  let rsp := sub64 rsp 8
  { s with mem := clobber E rsp 8 s.mem, uc := { s.uc with rsp, rip := s.uc.rsi } }

def ucontext (as : A) (kstack_end entry : Nat) (s : Cpu ρ A) : Nat × Cpu ρ A :=
  let c := sub64 kstack_end (sizeof_Context E)
  let uc := { E.uc_example with rip := entry, rsp := USER_SPACE.end_, sigmask := ⟨false, false⟩ }
  (c, { s with mem := put E c { ksp := kstack_end, vm_head := (s.vme.space as).ptr, uc } s.mem })

/-! ## Section 3: Runs -/

/-- The process when `main` is called. -/
def boot (uc : Ucontext ρ) : Cpu ρ A where
  vme := { vme_init with vme_enable := false }
  ksp := 0
  ev := ⟨.null, 0, 0⟩
  uc
  mem _ := none

/-- What happens: code computes, signals come, and the operating system makes
    contexts and address spaces and chooses the context to go on with. -/
inductive Step (ρ A : Type) where
  | compute (uc : Ucontext ρ) (write : (Nat → Option (Context ρ)) → Nat → Option (Context ρ))
  | signal (sig : Sig) (si_code : SegvCode) (si_addr : Nat)
  | resume (c : Nat)
  | vme_init
  | vme (call : Call A)
  | kcontext (kstack_end entry arg : Nat)
  | ucontext (as : A) (kstack_end entry : Nat)

def step (s : Cpu ρ A) : Step ρ A → Except Fault (Cpu ρ A)
  | .compute uc write => .ok { s with uc, mem := write s.mem }
  | .signal sig si_code si_addr => signal E sig si_code si_addr s
  | .resume c => irq_handle_leave E c s
  | .vme_init => .ok { s with vme := { s.vme with vme_enable := true } }
  | .vme call =>
      -- Without `vme_init` there is no `pgalloc`.
      if s.vme.vme_enable then do
        let vme ← Native.call E.P s.vme call
        return { s with vme }
      else .error .outOfBounds
  | .kcontext kstack_end entry arg => .ok (kcontext E kstack_end entry arg s).2
  | .ucontext as kstack_end entry => .ok (ucontext E as kstack_end entry s).2

def run (steps : List (Step ρ A)) (s : Cpu ρ A) : Except Fault (Cpu ρ A) := steps.foldlM (step E) s

end code

end Am.Native.Cte
