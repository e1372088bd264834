import IcsPa.Am.X86.Cte

/-! # Interrupts of the 32-bit x86-qemu

    `trap32.S` line by line, the 32-bit half of `__am_irq_handle` and
    `kcontext`, and the processor's interrupt and return.

    Rows of words carry the proofs: the interrupt, the entry code and the C
    code build a `Context` word by word at the front of the stack, and
    `__am_iret` consumes it.  The return to the kernel moves the end of the
    row to the new stack first, over itself when the context is a fresh one. -/

open CCall Words Asm

namespace Am.X86.Cte

/-! ## Section 1: Registers and structures -/

inductive Reg32 where
  | eax
  | ebx
  | ecx
  | edx
  | esi
  | edi
  | ebp
  | esp
  deriving DecidableEq, Repr

abbrev Cpu32 : Type := Cpu Reg32 32

/-- The fields of `struct Context`, each of one word. -/
inductive Context32 where
  | cr3
  | ds
  | eax
  | ebx
  | ecx
  | edx
  | esp0
  | esi
  | edi
  | ebp
  | eip
  | cs
  | eflags
  | esp
  | ss3
  deriving DecidableEq, Repr

/-- `sizeof(Context)`. -/
def sizeof_Context32 : Nat := 60

/-- The fields of `struct trap_frame` behind `saved_context`. -/
inductive TrapFrame32 where
  | irq
  | errcode
  | eip
  | cs
  | eflags
  | esp
  | ss
  deriving DecidableEq, Repr

def Context32.index (f : Context32) : Nat := f.ctorIdx

def TrapFrame32.index (f : TrapFrame32) : Nat := 15 + f.ctorIdx

/-- `sizeof(struct trap_frame)`. -/
def sizeof_trap_frame32 : Nat := 88

/-! ## Section 2: The processor -/

abbrev run32 : List (Ins Reg32 32) → Cpu32 → Cpu32 := run 4 .esp

/-- The words that an interrupt pushes: in an outer ring the stack that was
    in use comes first. -/
def interrupt_words32 (s : Cpu32) (vector : Nat) (errcode : BitVec 32) : List (BitVec 32) :=
  (if rpl s.cs = 0 then [] else [(s.seg .ss).setWidth 32, s.gpr .esp]) ++
    [s.flags, s.cs.setWidth 32, s.ip] ++
    if pushes_error_code vector then [errcode] else []

/-- The processor at the other side of a trap gate, in front of the code at
    `entry`; an interrupt of an outer ring switches the stack. -/
def enter_gate32 (s : Cpu32) (entry : BitVec 32) : Cpu32 :=
  let s' := if rpl s.cs = 0 then s
    else { s.set .esp s.sp0 with seg := Function.update s.seg .ss s.ss0 }
  { s' with cs := KSEL SEG_KCODE, ip := entry, flags := trap_flags s.flags }

/-- Interrupt `vector`. -/
def interrupt32 (s : Cpu32) (vector : Nat) (errcode entry : BitVec 32) : Cpu32 :=
  push_words 4 .esp (interrupt_words32 s vector errcode) (enter_gate32 s entry)

/-- `iret` in kernel mode; the stack pointer is popped only with a code
    segment of an outer ring. -/
def iret32 (s : Cpu32) : Cpu32 :=
  let sp := s.gpr .esp
  let cs := low (get_field 4 s.mem sp 1)
  let s' := { s with ip := get_field 4 s.mem sp 0, cs := cs, flags := get_field 4 s.mem sp 2 }
  if rpl cs = 0 then s'.set .esp (nth 4 sp 3)
  else { s'.set .esp (get_field 4 s.mem sp 3) with
    seg := Function.update s.seg .ss (low (get_field 4 s.mem sp 4)) }

/-! ## Section 3: `trap32.S` -/

/-- `trap`, up to the call; the call pushes the address behind it, which is
    that of `__am_iret`. -/
def trap32 (am_iret : BitVec 32) : List (Ins Reg32 32) :=
  [.cli,
   .subi 20 .esp,
   .push .ebp,
   .push .edi,
   .push .esi,
   .pushi 0,
   .push .edx,
   .push .ecx,
   .push .ebx,
   .push .eax,
   .movw_from .ds .eax,
   .push .eax,
   .pushi 0,
   .movw_imm (KSEL SEG_KDATA) .eax,
   .movw_to .eax .ds,
   .movw_to .eax .es,
   .movw_to .eax .ss,
   .push .esp,
   .pushi am_iret]

/-- `__am_iret`, up to the comparison. -/
def am_iret32_head : List (Ins Reg32 32) :=
  [.addi 4 .esp,
   .pop .eax,
   .mov .eax .esp,
   .addi 4 .esp,
   .pop .eax,
   .movw_to .eax .ds,
   .movw_to .eax .es]

def user_iret : List (Ins Reg32 32) :=
  [.pop .eax,
   .pop .ebx,
   .pop .ecx,
   .pop .edx,
   .addi 4 .esp,
   .pop .esi,
   .pop .edi,
   .pop .ebp]

def kernel_iret : List (Ins Reg32 32) :=
  [.pop .eax,
   .pop .ebx,
   .pop .ecx,
   .pop .edx,
   .addi 4 .esp,
   .mov .esp .ebp,
   .load 24 .ebp .edi,
   .load 20 .ebp .esi, .store .esi (-4) .edi,
   .load 16 .ebp .esi, .store .esi (-8) .edi,
   .load 12 .ebp .esi, .store .esi (-12) .edi,
   .load 8 .ebp .esi, .store .esi (-16) .edi,
   .load 4 .ebp .esi, .store .esi (-20) .edi,
   .load 0 .ebp .esi, .store .esi (-24) .edi,
   .lea (-24) .edi .esp,
   .pop .esi,
   .pop .edi,
   .pop .ebp]

def am_iret32 (s : Cpu32) : Cpu32 :=
  let s := run32 am_iret32_head s
  -- `cmpw $KSEL(SEG_KCODE), 36(%esp)`
  if low (word 4 s.mem (s.gpr .esp + 36)) = KSEL SEG_KCODE then iret32 (run32 kernel_iret s)
  else iret32 (run32 user_iret s)

/-! ## Section 4: `cte.c` -/

/-- The assignments to `saved_ctx` at the start of `__am_irq_handle`. -/
def save_context32 (esp0 cr3 : BitVec 32) (tf : BitVec 32) (m : Memory 32) : Memory 32 :=
  let saved_ctx := tf
  let m := set_field 4 m saved_ctx Context32.eip.index (get_field 4 m tf TrapFrame32.eip.index)
  let m := set_field 4 m saved_ctx Context32.cs.index (get_field 4 m tf TrapFrame32.cs.index)
  let m := set_field 4 m saved_ctx Context32.eflags.index
    (get_field 4 m tf TrapFrame32.eflags.index)
  let m := set_field 4 m saved_ctx Context32.esp0.index esp0
  let m := set_field 4 m saved_ctx Context32.ss3.index ((USEL SEG_UDATA).setWidth 32)
  let m := set_field 4 m saved_ctx Context32.esp.index
    (if get_field 4 m tf TrapFrame32.cs.index &&& BitVec.ofNat 32 DPL_USER ≠ 0 then
      get_field 4 m tf TrapFrame32.esp.index
    else tf + BitVec.ofNat 32 sizeof_trap_frame32 - 8)
  set_field 4 m saved_ctx Context32.cr3.index cr3

/-- The event and the memory with which `__am_irq_handle` calls the handler. -/
def handler_call32 (s : Cpu32) (tf : BitVec 32) : Event 32 × Memory 32 :=
  let m := save_context32 s.sp0 s.cr3 tf s.mem
  (irq_event (get_field 4 m tf TrapFrame32.irq.index) (get_field 4 m tf TrapFrame32.errcode.index)
    s.cr2, m)

/-- `__am_irq_handle(tf)`, up to the call of `__am_iret`: the context to go on
    with, and the processor with the memory after the call of the handler. -/
def am_irq_handle32 (user_handler : Handler 32) (tf : BitVec 32) (s : Cpu32) :
    Except Fault (BitVec 32 × Cpu32) := do
  let (ev, m) := handler_call32 s tf
  let (ret_ctx, m) := user_handler ev tf m
  cassert (ret_ctx != 0)
  let cr3 := get_field 4 m ret_ctx Context32.cr3.index
  if cr3 = 0 then return (ret_ctx, { s with mem := m })
  return (ret_ctx, { s with
    mem := m, cr3 := cr3, ss0 := KSEL SEG_KDATA
    sp0 := get_field 4 m ret_ctx Context32.esp0.index })

/-- The call `__am_iret(ret_ctx)` out of the C code: the argument and the
    return address `ret` are at the end of its stack. -/
def call_am_iret32 (f : CFrame Reg32 32 sizeof_Context32) (ret tf ret_ctx : BitVec 32) (s : Cpu32) :
    Cpu32 :=
  let sp := tf - BitVec.ofNat 32 f.depth
  { s with
    gpr := Function.update f.gpr .esp sp, flags := f.flags
    mem := store_word 4 (store_word 4 (f.over tf s.mem) (sp + 4) ret_ctx) sp ret }

/-- The processor at the start of `__am_irq_handle`, interrupted in state `s`. -/
def trapped32 (am_iret entry : BitVec 32) (s : Cpu32) (irq : Nat × Err) (errcode : BitVec 32) :
    Cpu32 :=
  run32 (trap32 am_iret) (run32 (am_irq irq.1 irq.2) (interrupt32 s irq.1 errcode entry))

/-- The argument of the C code. -/
def arg32 (s : Cpu32) : BitVec 32 := word 4 s.mem (s.gpr .esp + 4)

/-- From the interrupt to the return from it. -/
def handle_interrupt32 (user_handler : Handler 32) (am_iret entry ret : BitVec 32)
    (f : CFrame Reg32 32 sizeof_Context32) (s : Cpu32) (irq : Nat × Err) (errcode : BitVec 32) :
    Except Fault Cpu32 := do
  let t := trapped32 am_iret entry s irq errcode
  let tf := arg32 t
  let (ret_ctx, t) ← am_irq_handle32 user_handler tf t
  return am_iret32 (call_am_iret32 f ret tf ret_ctx t)

/-- `kcontext(kstack, entry, arg)`. -/
def kcontext32 (amkcontext_start : BitVec 32) (kstack_end entry arg : BitVec 32) (m : Memory 32) :
    BitVec 32 × Memory 32 :=
  let ctx := kstack_end - BitVec.ofNat 32 sizeof_Context32
  let m := store m ctx 0 sizeof_Context32
  let m := set_field 4 m ctx Context32.ds.index ((KSEL SEG_KDATA).setWidth 32)
  let m := set_field 4 m ctx Context32.cs.index ((KSEL SEG_KCODE).setWidth 32)
  let m := set_field 4 m ctx Context32.eip.index amkcontext_start
  let m := set_field 4 m ctx Context32.eflags.index FL_IF
  let m := set_field 4 m ctx Context32.esp.index kstack_end
  let m := set_field 4 m ctx Context32.eax.index arg
  let m := set_field 4 m ctx Context32.ebx.index entry
  (ctx, m)

end Am.X86.Cte
