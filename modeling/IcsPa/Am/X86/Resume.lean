import IcsPa.Am.X86.Resume32
import IcsPa.Am.X86.Resume64

/-! # Contexts of x86-qemu in both versions

    An interrupt whose handler returns the saved context is not seen by the
    interrupted code, and a new kernel context starts its entry code. -/

open CCall Words Asm

namespace Am.X86.Cte

/-- The parts are about interrupts of the 32-bit and the 64-bit version, and
    about kernel contexts of both.  The trap frame is a C object, so that it is
    not at the address of `NULL`. -/
theorem contexts_resume :
    (∀ (user_handler : Handler 32) (am_iret entry ret errcode : BitVec 32)
        (f : CFrame Reg32 32 sizeof_Context32) (s : Cpu32), ∀ irq ∈ IRQS, Mode s.cs →
      arg32 (trapped32 am_iret entry s irq errcode) ≠ 0 →
      Returns32 user_handler (trapped32 am_iret entry s irq errcode) →
      ∃ s', handle_interrupt32 user_handler am_iret entry ret f s irq errcode = .ok s' ∧
        Resumes s s') ∧
    (∀ (user_handler : Handler 64) (am_iret entry ret errcode : BitVec 64)
        (f : CFrame Reg64 64 sizeof_Context64) (s : Cpu64), ∀ irq ∈ IRQS, Mode s.cs →
      arg64 (trapped64 am_iret entry s irq errcode) ≠ 0 →
      Returns64 user_handler (trapped64 am_iret entry s irq errcode) →
      ∃ s', handle_interrupt64 user_handler am_iret entry ret f s irq errcode = .ok s' ∧
        Resumes s s') ∧
    (∀ (amkcontext_start kstack_end entry arg : BitVec 32) (m : Memory 32) (s : Cpu32),
      arg32 s = (kcontext32 amkcontext_start kstack_end entry arg m).1 →
      Unchanged sizeof_Context32 (kcontext32 amkcontext_start kstack_end entry arg m).1
        (kcontext32 amkcontext_start kstack_end entry arg m).2 (arg32 s, s.mem) →
      Starts .eax .ebx .esp amkcontext_start kstack_end entry arg (am_iret32 s)) ∧
    (∀ (amkcontext_start kstack_end entry arg : BitVec 64) (m : Memory 64) (s : Cpu64),
      arg64 s = (kcontext64 amkcontext_start kstack_end entry arg m).1 →
      Unchanged sizeof_Context64 (kcontext64 amkcontext_start kstack_end entry arg m).1
        (kcontext64 amkcontext_start kstack_end entry arg m).2 (arg64 s, s.mem) →
      Starts .rdi .rsi .rsp amkcontext_start kstack_end entry arg (am_iret64 s)) := by
  refine ⟨?_, ?_, ?_, ?_⟩
  -- A trap that is handled resumes, and a new context starts, on each of the two
  -- architectures.
  · intro user_handler am_iret entry ret errcode f s irq hirq hmode hnull hsame
    exact handle_interrupt32_resumes hirq hmode hnull hsame
  · intro user_handler am_iret entry ret errcode f s irq hirq _ hnull hsame
    exact handle_interrupt64_resumes hirq hnull hsame
  · intro amkcontext_start kstack_end entry arg m s harg hmem
    exact kcontext32_starts harg hmem
  · intro amkcontext_start kstack_end entry arg m s harg hmem
    exact kcontext64_starts harg hmem

/-- A program that is interrupted in user mode. -/
def user_program : Cpu32 where
  gpr r := if r = .esp then 0x40001000 else 7
  ip    := 0x40000000
  flags := 0x202
  cs    := USEL SEG_UCODE
  seg _ := USEL SEG_UDATA
  ss0   := KSEL SEG_KDATA
  sp0   := 0x200000
  cr2   := 0
  cr3   := 0x101000
  mem _ := 0

def small_frame : CFrame Reg32 32 sizeof_Context32 where
  depth    := 64
  gpr _    := 0
  flags    := 0
  locals _ := 0
  args     := by decide
  room     := by decide

/-- The kernel calls `__am_iret` for a new kernel context. -/
def first_switch : Cpu32 :=
  let (ctx, m) := kcontext32 0x100300 0x300000 0x100a00 5 user_program.mem
  { user_program with
    gpr := fun _ => 0x1000, cs := KSEL SEG_KCODE, mem := store_word 4 m 0x1004 ctx }

/-- Code of the 64-bit kernel, on a stack that is not aligned. -/
def kernel_code : Cpu64 where
  gpr r := if r = .rsp then 0x201238 else 9
  ip    := 0x100000
  flags := 0x246
  cs    := KSEL SEG_KCODE
  seg _ := KSEL SEG_KDATA
  ss0   := 0
  sp0   := 0
  cr2   := 0x5000
  cr3   := 0x1000
  mem _ := 0

def wide_frame : CFrame Reg64 64 sizeof_Context64 where
  depth    := 256
  gpr _    := 1
  flags    := 0x40
  locals _ := 3
  args     := by decide
  room     := by decide

/-- The 64-bit kernel calls `__am_iret` for a new kernel context. -/
def first_switch64 : Cpu64 :=
  let (ctx, m) := kcontext64 0x100300 0x300000 0x100a00 5 kernel_code.mem
  { kernel_code with gpr := fun r => if r = .rdi then ctx else 0x1000, mem := m }

theorem unchanged_self {w : Nat} (n : Nat) (ctx : BitVec w) (m : Memory w) :
    Unchanged n ctx m (ctx, m) := ⟨rfl, fun _ _ => rfl⟩

theorem first_switch_arg :
    arg32 first_switch = (kcontext32 0x100300 0x300000 0x100a00 5 user_program.mem).1 := by
  decide +kernel

/-- The argument of `__am_iret` is above the context. -/
theorem first_switch_mem : ∀ k < sizeof_Context32,
    first_switch.mem (arg32 first_switch + BitVec.ofNat 32 k) =
      (kcontext32 0x100300 0x300000 0x100a00 5 user_program.mem).2
        (arg32 first_switch + BitVec.ofNat 32 k) := by
  decide +kernel

/-- A system call of a 32-bit program, a page fault in the 64-bit kernel, which has
    an error code, and the start of a kernel context of both. -/
theorem traps_resume_kcontexts_start :
    (∃ s', handle_interrupt32 (fun _ ctx m => (ctx, m)) 0x100400 0x100200 0x100800 small_frame
        user_program (128, .NOERR) 0 = .ok s' ∧ Resumes user_program s') ∧
    (∃ s', handle_interrupt64 (fun _ ctx m => (ctx, m)) 0x100400 0x100200 0x100800 wide_frame
        kernel_code (14, .ERR) 2 = .ok s' ∧ Resumes kernel_code s') ∧
    Starts .eax .ebx .esp 0x100300 0x300000 0x100a00 5 (am_iret32 first_switch) ∧
    Starts .rdi .rsi .rsp 0x100300 0x300000 0x100a00 5 (am_iret64 first_switch64) :=
  ⟨contexts_resume.1 _ _ _ _ _ _ _ (128, .NOERR) (by decide) (.inr (by decide))
      (by decide +kernel) (unchanged_self ..),
    contexts_resume.2.1 _ _ _ _ _ _ _ (14, .ERR) (by decide) (.inl rfl)
      (by decide +kernel) (unchanged_self ..),
    contexts_resume.2.2.1 _ _ _ _ user_program.mem _ first_switch_arg
      ⟨first_switch_arg, first_switch_mem⟩,
    contexts_resume.2.2.2 _ _ _ _ kernel_code.mem _ rfl (unchanged_self ..)⟩

end Am.X86.Cte
