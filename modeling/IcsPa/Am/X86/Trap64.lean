import IcsPa.Am.X86.Cte

/-! # Interrupts of the 64-bit x86-qemu

    `trap64.S` line by line, the 64-bit half of `__am_irq_handle` and
    `kcontext`, and the processor's interrupt and return.  Here the processor
    aligns the stack, and always pushes and pops the stack pointer. -/

open CCall Words Asm

namespace Am.X86.Cte

/-! ## Section 1: Registers and structures -/

inductive Reg64 where
  | rax
  | rbx
  | rcx
  | rdx
  | rbp
  | rsi
  | rdi
  | r8
  | r9
  | r10
  | r11
  | r12
  | r13
  | r14
  | r15
  | rsp
  deriving DecidableEq, Repr

abbrev Cpu64 : Type := Cpu Reg64 64

/-- The fields of `struct Context`, each of one word. -/
inductive Context64 where
  | cr3
  | rax
  | rbx
  | rcx
  | rdx
  | rbp
  | rsi
  | rdi
  | r8
  | r9
  | r10
  | r11
  | r12
  | r13
  | r14
  | r15
  | rip
  | cs
  | rflags
  | rsp
  | ss
  | rsp0
  deriving DecidableEq, Repr

/-- `sizeof(Context)`. -/
def sizeof_Context64 : Nat := 176

/-- The fields of `struct trap_frame` behind `saved_context`. -/
inductive TrapFrame64 where
  | irq
  | errcode
  | rip
  | cs
  | rflags
  | rsp
  | ss
  deriving DecidableEq, Repr

def Context64.index (f : Context64) : Nat := f.ctorIdx

def TrapFrame64.index (f : TrapFrame64) : Nat := 22 + f.ctorIdx

/-! ## Section 2: The processor -/

abbrev run64 : List (Ins Reg64 64) → Cpu64 → Cpu64 := run 8 .rsp

/-- The words that an interrupt pushes. -/
def interrupt_words64 (s : Cpu64) (vector : Nat) (errcode : BitVec 64) : List (BitVec 64) :=
  [(s.seg .ss).setWidth 64, s.gpr .rsp, s.flags, s.cs.setWidth 64, s.ip] ++
    if pushes_error_code vector then [errcode] else []

/-- The processor at the other side of a trap gate, in front of the code at
    `entry`; an interrupt of an outer ring switches the stack, and leaves no
    selector in `ss`. -/
def enter_gate64 (s : Cpu64) (entry : BitVec 64) : Cpu64 :=
  let s' := if rpl s.cs = 0 then s
    else { s.set .rsp s.sp0 with seg := Function.update s.seg .ss 0 }
  let s' := s'.set .rsp (s'.gpr .rsp &&& ~~~ 15)
  { s' with cs := KSEL SEG_KCODE, ip := entry, flags := trap_flags s.flags }

/-- Interrupt `vector`. -/
def interrupt64 (s : Cpu64) (vector : Nat) (errcode entry : BitVec 64) : Cpu64 :=
  push_words 8 .rsp (interrupt_words64 s vector errcode) (enter_gate64 s entry)

/-- `iretq` in kernel mode. -/
def iretq (s : Cpu64) : Cpu64 :=
  let sp := s.gpr .rsp
  { s.set .rsp (get_field 8 s.mem sp 3) with
    ip := get_field 8 s.mem sp 0
    cs := low (get_field 8 s.mem sp 1)
    flags := get_field 8 s.mem sp 2
    seg := Function.update s.seg .ss (low (get_field 8 s.mem sp 4)) }

/-! ## Section 3: `trap64.S` -/

/-- `trap`, up to the call; the call pushes the address behind it, which is
    that of `__am_iret`. -/
def trap64 (am_iret : BitVec 64) : List (Ins Reg64 64) :=
  [.cli,
   .subi 48 .rsp,
   .push .r15,
   .push .r14,
   .push .r13,
   .push .r12,
   .push .r11,
   .push .r10,
   .push .r9,
   .push .r8,
   .push .rdi,
   .push .rsi,
   .push .rbp,
   .push .rdx,
   .push .rcx,
   .push .rbx,
   .push .rax,
   .pushi 0,
   .mov .rsp .rdi,
   .pushi am_iret]

/-- `__am_iret`, up to the `iretq`. -/
def am_iret64_code : List (Ins Reg64 64) :=
  [.mov .rdi .rsp,
   .load 160 .rsp .rax,
   .movw_to .rax .ds,
   .movw_to .rax .es,
   .addi 8 .rsp,
   .pop .rax,
   .pop .rbx,
   .pop .rcx,
   .pop .rdx,
   .pop .rbp,
   .pop .rsi,
   .pop .rdi,
   .pop .r8,
   .pop .r9,
   .pop .r10,
   .pop .r11,
   .pop .r12,
   .pop .r13,
   .pop .r14,
   .pop .r15]

def am_iret64 (s : Cpu64) : Cpu64 := iretq (run64 am_iret64_code s)

/-! ## Section 4: `cte.c` -/

/-- The assignments to `saved_ctx` at the start of `__am_irq_handle`. -/
def save_context64 (rsp0 cr3 : BitVec 64) (tf : BitVec 64) (m : Memory 64) : Memory 64 :=
  let saved_ctx := tf
  let m := set_field 8 m saved_ctx Context64.rip.index (get_field 8 m tf TrapFrame64.rip.index)
  let m := set_field 8 m saved_ctx Context64.cs.index (get_field 8 m tf TrapFrame64.cs.index)
  let m := set_field 8 m saved_ctx Context64.rflags.index
    (get_field 8 m tf TrapFrame64.rflags.index)
  let m := set_field 8 m saved_ctx Context64.rsp.index (get_field 8 m tf TrapFrame64.rsp.index)
  let m := set_field 8 m saved_ctx Context64.rsp0.index rsp0
  let m := set_field 8 m saved_ctx Context64.ss.index (get_field 8 m tf TrapFrame64.ss.index)
  set_field 8 m saved_ctx Context64.cr3.index cr3

/-- The event and the memory with which `__am_irq_handle` calls the handler. -/
def handler_call64 (s : Cpu64) (tf : BitVec 64) : Event 64 × Memory 64 :=
  let m := save_context64 s.sp0 s.cr3 tf s.mem
  (irq_event (get_field 8 m tf TrapFrame64.irq.index) (get_field 8 m tf TrapFrame64.errcode.index)
    s.cr2, m)

/-- `__am_irq_handle(tf)`, up to the call of `__am_iret`: the context to go on
    with, and the processor with the memory after the call of the handler. -/
def am_irq_handle64 (user_handler : Handler 64) (tf : BitVec 64) (s : Cpu64) :
    Except Fault (BitVec 64 × Cpu64) := do
  let (ev, m) := handler_call64 s tf
  let (ret_ctx, m) := user_handler ev tf m
  cassert (ret_ctx != 0)
  let cr3 := get_field 8 m ret_ctx Context64.cr3.index
  if cr3 = 0 then return (ret_ctx, { s with mem := m })
  return (ret_ctx, { s with
    mem := m, cr3 := cr3, sp0 := get_field 8 m ret_ctx Context64.rsp0.index })

/-- The call `__am_iret(ret_ctx)` out of the C code: the argument is in `rdi`,
    the return address `ret` at the end of its stack. -/
def call_am_iret64 (f : CFrame Reg64 64 sizeof_Context64) (ret tf ret_ctx : BitVec 64) (s : Cpu64) :
    Cpu64 :=
  let sp := tf - BitVec.ofNat 64 f.depth
  { s with
    gpr := Function.update (Function.update f.gpr .rsp sp) .rdi ret_ctx, flags := f.flags
    mem := store_word 8 (f.over tf s.mem) sp ret }

/-- The processor at the start of `__am_irq_handle`, interrupted in state `s`. -/
def trapped64 (am_iret entry : BitVec 64) (s : Cpu64) (irq : Nat × Err) (errcode : BitVec 64) :
    Cpu64 :=
  run64 (trap64 am_iret) (run64 (am_irq irq.1 irq.2) (interrupt64 s irq.1 errcode entry))

/-- The argument of the C code. -/
def arg64 (s : Cpu64) : BitVec 64 := s.gpr .rdi

/-- From the interrupt to the return from it. -/
def handle_interrupt64 (user_handler : Handler 64) (am_iret entry ret : BitVec 64)
    (f : CFrame Reg64 64 sizeof_Context64) (s : Cpu64) (irq : Nat × Err) (errcode : BitVec 64) :
    Except Fault Cpu64 := do
  let t := trapped64 am_iret entry s irq errcode
  let tf := arg64 t
  let (ret_ctx, t) ← am_irq_handle64 user_handler tf t
  return am_iret64 (call_am_iret64 f ret tf ret_ctx t)

/-- `kcontext(kstack, entry, arg)`. -/
def kcontext64 (amkcontext_start : BitVec 64) (kstack_end entry arg : BitVec 64) (m : Memory 64) :
    BitVec 64 × Memory 64 :=
  let ctx := kstack_end - BitVec.ofNat 64 sizeof_Context64
  let m := store m ctx 0 sizeof_Context64
  let m := set_field 8 m ctx Context64.cs.index ((KSEL SEG_KCODE).setWidth 64)
  let m := set_field 8 m ctx Context64.rip.index amkcontext_start
  let m := set_field 8 m ctx Context64.rflags.index FL_IF
  let m := set_field 8 m ctx Context64.rsp.index kstack_end
  let m := set_field 8 m ctx Context64.rdi.index arg
  let m := set_field 8 m ctx Context64.rsi.index entry
  (ctx, m)

end Am.X86.Cte
