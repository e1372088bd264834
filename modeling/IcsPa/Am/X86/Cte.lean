import IcsPa.Framework.Asm
import IcsPa.Framework.Fault

/-! # Interrupts and contexts of x86-qemu

    What the 32-bit and the 64-bit version of `cte.c` have in common: the
    selectors and the list `IRQS` of `x86.h`, the processor's table of vectors
    with an error code, and the event that `__am_irq_handle` makes of a trap
    frame.  The user's handler is a parameter. -/

open CCall Words Asm

namespace Am.X86.Cte

/-! ## Section 1: Selectors and vectors -/

def SEG_KCODE : Nat := 1
def SEG_KDATA : Nat := 2
def SEG_UCODE : Nat := 3
def SEG_UDATA : Nat := 4

def DPL_KERN : Nat := 0x0
def DPL_USER : Nat := 0x3

def KSEL (seg : Nat) : BitVec 16 := BitVec.ofNat 16 ((seg <<< 3) ||| DPL_KERN)
def USEL (seg : Nat) : BitVec 16 := BitVec.ofNat 16 ((seg <<< 3) ||| DPL_USER)

/-- The ring of a selector. -/
def rpl (cs : BitVec 16) : BitVec 16 := cs &&& BitVec.ofNat 16 DPL_USER

def T_IRQ0 : Nat := 32
def EX_DE : Nat := 0
def EX_UD : Nat := 6
def EX_NM : Nat := 7
def EX_DF : Nat := 8
def EX_TS : Nat := 10
def EX_NP : Nat := 11
def EX_SS : Nat := 12
def EX_GP : Nat := 13
def EX_PF : Nat := 14
def EX_SYSCALL : Nat := 0x80
def EX_YIELD : Nat := 0x81

/-- Whether an entry of `IRQS` is marked as one with an error code. -/
inductive Err where
  | NOERR
  | ERR
  deriving DecidableEq, Repr

/-- `IRQS` without the privilege levels, which only `int` looks at. -/
def IRQS : List (Nat × Err) :=
  [(0, .NOERR), (1, .NOERR), (2, .NOERR), (3, .NOERR), (4, .NOERR), (5, .NOERR), (6, .NOERR),
   (7, .NOERR), (8, .ERR), (9, .NOERR), (10, .ERR), (11, .ERR), (12, .ERR), (13, .ERR),
   (14, .ERR), (15, .NOERR), (16, .NOERR), (19, .NOERR), (31, .NOERR), (32, .NOERR),
   (33, .NOERR), (34, .NOERR), (35, .NOERR), (36, .NOERR), (37, .NOERR), (38, .NOERR),
   (39, .NOERR), (40, .NOERR), (41, .NOERR), (42, .NOERR), (43, .NOERR), (44, .NOERR),
   (45, .NOERR), (46, .NOERR), (47, .NOERR), (128, .NOERR), (129, .NOERR)]

/-- The vectors for which the processor pushes an error code: double fault,
    TSS, segment, stack and protection faults, page fault, alignment check and
    the control-protection and security exceptions. -/
def pushes_error_code (vector : Nat) : Bool := vector ∈ [8, 10, 11, 12, 13, 14, 17, 21, 29, 30]

/-- The list marks exactly the vectors with an error code. -/
theorem err_iff {id : Nat} {err : Err} (h : (id, err) ∈ IRQS) :
    err = .ERR ↔ pushes_error_code id = true := by
  have hall : ∀ p ∈ IRQS, p.2 = .ERR ↔ pushes_error_code p.1 = true := by decide
  exact hall (id, err) h

/-- The processor's flags for a handler: `TF`, `NT`, `RF` and `VM` are cleared;
    a trap gate leaves `IF`. -/
def trap_flags {w : Nat} (flags : BitVec w) : BitVec w := flags &&& ~~~ (BitVec.ofNat w 0x34100)

/-- The code of `__am_irq##id` in front of its jump: `cli; err; push $id`. -/
def am_irq {R : Type} {w : Nat} (id : Nat) : Err → List (Ins R w)
  | .NOERR => [.cli, .pushi 0, .pushi (BitVec.ofNat w id)]
  | .ERR => [.cli, .pushi (BitVec.ofNat w id)]

/-- The processor's frame with the two words of `__am_irq##id` in front of it:
    there is an error code in every frame. -/
theorem stacked_am_irq {R : Type} [DecidableEq R] {w W : Nat} {SP : R} (hw : w = 8 * W)
    (errcode : BitVec w) (frame : List (BitVec w)) {s t : Cpu R w} {a : BitVec w} {id : Nat}
    {err : Err} (hirq : (id, err) ∈ IRQS) (h : Stacked W SP s t a [])
    (hroom : W * (frame.length + 2) ≤ 2 ^ w) :
    ∃ ec, Stacked W SP (run W SP (am_irq id err) (push_words W SP
        (frame ++ if pushes_error_code id then [errcode] else []) s))
      { t with flags := t.flags &&& ~~~ FL_IF } (back W a (frame.length + 2))
      ([BitVec.ofNat w id, ec] ++ frame.reverse) := by
  have hless : ∀ n ≤ frame.length + 2, W * n ≤ 2 ^ w :=
    fun n hn => Nat.le_trans (Nat.mul_le_mul_left W hn) hroom
  have hframe := stacked_push_words hw frame h (hless _ (by rw [List.length_nil]; omega))
  rw [List.append_nil] at hframe
  -- The CPU pushes an error code exactly where the stub pushes none.
  cases err with
  | ERR =>
    have hcode : pushes_error_code id = true := (err_iff hirq).mp rfl
    have herr :=
        stacked_push hw (v := errcode) hframe (hless _ (by rw [List.length_reverse]; omega))
    have hid := stacked_push hw (v := BitVec.ofNat w id) (stacked_cli herr)
      (hless _ (by rw [List.length_cons, List.length_reverse]))
    rw [back_back, back_back] at hid
    rw [hcode, if_pos rfl, push_words_append]
    exact ⟨errcode, hid⟩
  | NOERR =>
    have hcode : ¬ pushes_error_code id = true := fun h => nomatch (err_iff hirq).mpr h
    have herr := stacked_push hw (v := 0) (stacked_cli hframe)
      (hless _ (by rw [List.length_reverse]; omega))
    have hid := stacked_push hw (v := BitVec.ofNat w id) herr
      (hless _ (by rw [List.length_cons, List.length_reverse]))
    rw [back_back, back_back] at hid
    rw [if_neg hcode, List.append_nil]
    exact ⟨0, hid⟩

/-! ## Section 2: Events -/

def MMAP_NONE : Nat := 0
def MMAP_READ : Nat := 1
def MMAP_WRITE : Nat := 2

inductive EventKind where
  | EVENT_NULL
  | EVENT_YIELD
  | EVENT_SYSCALL
  | EVENT_PAGEFAULT
  | EVENT_ERROR
  | EVENT_IRQ_TIMER
  | EVENT_IRQ_IODEV
  deriving DecidableEq, Repr

structure Event (w : Nat) where
  event : EventKind
  cause : BitVec w
  ref   : BitVec w
  msg   : String
  deriving DecidableEq, Repr

/-- The `switch` of `__am_irq_handle`. -/
def irq_event {w : Nat} (irq errcode cr2 : BitVec w) : Event w :=
  if irq.toNat = T_IRQ0 + 0 then ⟨.EVENT_IRQ_TIMER, 0, 0, "timer interrupt (lapic)"⟩
  else if irq.toNat = T_IRQ0 + 1 then ⟨.EVENT_IRQ_IODEV, 0, 0, "I/O device IRQ1 (keyboard)"⟩
  else if irq.toNat = T_IRQ0 + 4 then ⟨.EVENT_IRQ_IODEV, 0, 0, "I/O device IRQ4 (COM1)"⟩
  else if irq.toNat = EX_SYSCALL then ⟨.EVENT_SYSCALL, 0, 0, "int $0x80 system call"⟩
  else if irq.toNat = EX_YIELD then ⟨.EVENT_YIELD, 0, 0, "int $0x81 yield"⟩
  else if irq.toNat = EX_DE then ⟨.EVENT_ERROR, 0, 0, "DE #0 divide by zero"⟩
  else if irq.toNat = EX_UD then ⟨.EVENT_ERROR, 0, 0, "UD #6 invalid opcode"⟩
  else if irq.toNat = EX_NM then ⟨.EVENT_ERROR, 0, 0, "NM #7 coprocessor error"⟩
  else if irq.toNat = EX_DF then ⟨.EVENT_ERROR, 0, 0, "DF #8 double fault"⟩
  else if irq.toNat = EX_TS then ⟨.EVENT_ERROR, 0, 0, "TS #10 invalid TSS"⟩
  else if irq.toNat = EX_NP then ⟨.EVENT_ERROR, 0, 0, "NP #11 segment/gate not present"⟩
  else if irq.toNat = EX_SS then ⟨.EVENT_ERROR, 0, 0, "SS #12 stack fault"⟩
  else if irq.toNat = EX_GP then ⟨.EVENT_ERROR, 0, 0, "GP #13, general protection fault"⟩
  else if irq.toNat = EX_PF then
    let none := if errcode &&& 0x1 ≠ 0 then MMAP_NONE else 0
    let cause := none ||| (if errcode &&& 0x2 ≠ 0 then MMAP_WRITE else MMAP_READ)
    ⟨.EVENT_PAGEFAULT, BitVec.ofNat w cause, cr2, "PF #14, page fault, @cause: PROT_XXX"⟩
  else ⟨.EVENT_ERROR, errcode, 0, "unrecognized interrupt/exception"⟩

/-! ## Section 3: The user's handler

    A handler runs as C code on the interrupted stack, below the trap frame. -/

abbrev Handler (w : Nat) : Type := Event w → BitVec w → Memory w → BitVec w × Memory w

/-- The handler has returned the context at `ctx`, of `n` bytes, as it was. -/
def Unchanged {w : Nat} (n : Nat) (ctx : BitVec w) (m : Memory w) (r : BitVec w × Memory w) :
    Prop :=
  r.1 = ctx ∧ ∀ k < n, r.2 (ctx + BitVec.ofNat w k) = m (ctx + BitVec.ofNat w k)

/-- What the compiled C code leaves when it calls `__am_iret`: its stack
    reaches `depth` bytes below the trap frame, with the arguments and the
    return address of the call at its end, but not around to the context of
    `n` bytes.  Its registers, the arithmetic flags and the rest of its part of
    the stack hold anything. -/
structure CFrame (R : Type) (w n : Nat) where
  depth  : Nat
  gpr    : R → BitVec w
  flags  : BitVec w
  locals : Memory w
  args   : 8 ≤ depth
  room   : depth + n ≤ 2 ^ w

/-- Memory with the stack of the C code below `tf`. -/
def CFrame.over {R : Type} {w n : Nat} (f : CFrame R w n) (tf : BitVec w) (m : Memory w) :
    Memory w :=
  fun x => if (x - (tf - BitVec.ofNat w f.depth)).toNat < f.depth then f.locals x else m x

/-- The C code does not reach its caller's frame. -/
theorem over_above {R : Type} {w n : Nat} (f : CFrame R w n) (tf : BitVec w) (m : Memory w)
    {k : Nat} (hroom : f.depth + k < 2 ^ w) :
    f.over tf m (tf + BitVec.ofNat w k) = m (tf + BitVec.ofNat w k) := by
  have hdist : tf + BitVec.ofNat w k - (tf - BitVec.ofNat w f.depth) =
      BitVec.ofNat w (f.depth + k) := by
    rw [BitVec.ofNat_add]
    ring
  apply if_neg
  rw [hdist, BitVec.toNat_ofNat, Nat.mod_eq_of_lt hroom]
  omega

/-- A processor in kernel mode runs the kernel's code segment; every other
    ring is a user mode. -/
def Mode (cs : BitVec 16) : Prop := cs = KSEL SEG_KCODE ∨ rpl cs ≠ 0

/-- `s'` goes on where `s` was interrupted. -/
structure Resumes {R : Type} {w : Nat} (s s' : Cpu R w) : Prop where
  gpr   : ∀ r, s'.gpr r = s.gpr r
  ip    : s'.ip = s.ip
  cs    : s'.cs = s.cs
  flags : s'.flags = s.flags

/-- `s` is at the first instruction of a kernel context: `arg` and `entry` are
    in `GPR1` and `GPR2`, and the stack is empty. -/
structure Starts {R : Type} {w : Nat} (GPR1 GPR2 SP : R)
    (amkcontext_start kstack_end entry arg : BitVec w) (s : Cpu R w) : Prop where
  ip    : s.ip = amkcontext_start
  gpr1  : s.gpr GPR1 = arg
  gpr2  : s.gpr GPR2 = entry
  sp    : s.gpr SP = kstack_end
  cs    : s.cs = KSEL SEG_KCODE
  flags : s.flags = FL_IF

end Am.X86.Cte
