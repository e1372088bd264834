import IcsPa.Am.X86.Trap64

/-! # The 64-bit x86-qemu returns to what it interrupted

    The same as for 32 bits, without a moved frame: `Context64 → BitVec 64` is
    a `Context` as a value and `row64` the row of its words in memory. -/

open CCall Words Asm

namespace Am.X86.Cte

/-! ## Section 1: `__am_iret` loads a context -/

/-- The words of a `Context` in memory. -/
def row64 (c : Context64 → BitVec 64) : List (BitVec 64) :=
  [c .cr3, c .rax, c .rbx, c .rcx, c .rdx, c .rbp, c .rsi, c .rdi, c .r8, c .r9, c .r10, c .r11,
   c .r12, c .r13, c .r14, c .r15, c .rip, c .cs, c .rflags, c .rsp, c .ss, c .rsp0]

/-- The general registers of a `Context`. -/
def gpr64 (c : Context64 → BitVec 64) : Reg64 → BitVec 64
  | .rax => c .rax
  | .rbx => c .rbx
  | .rcx => c .rcx
  | .rdx => c .rdx
  | .rbp => c .rbp
  | .rsi => c .rsi
  | .rdi => c .rdi
  | .r8 => c .r8
  | .r9 => c .r9
  | .r10 => c .r10
  | .r11 => c .r11
  | .r12 => c .r12
  | .r13 => c .r13
  | .r14 => c .r14
  | .r15 => c .r15
  | .rsp => c .rsp

/-- `s` runs in the context `c`. -/
structure Loaded64 (c : Context64 → BitVec 64) (s : Cpu64) : Prop where
  gpr   : ∀ r, s.gpr r = gpr64 c r
  ip    : s.ip = c .rip
  cs    : s.cs = low (c .cs)
  flags : s.flags = c .rflags

/-- The registers that are pushed and popped, in the order of the pops. -/
def saved_regs64 : List Reg64 :=
  [.rax, .rbx, .rcx, .rdx, .rbp, .rsi, .rdi, .r8, .r9, .r10, .r11, .r12, .r13, .r14, .r15]

theorem iretq_spec {t : Cpu64} {sp ip cs flags sp' ss : BitVec 64} {m : Memory 64}
    {ws : List (BitVec 64)} (hrow : Holds 8 m sp ([ip, cs, flags, sp', ss] ++ ws)) :
    iretq (t.on_stack .rsp sp m) =
      { t with ip := ip, cs := low cs, flags := flags, seg := Function.update t.seg .ss (low ss)
        }.on_stack .rsp sp' m := by
  have hip : get_field 8 m sp 0 = ip := get_field_eq hrow rfl
  have hcs : get_field 8 m sp 1 = cs := get_field_eq hrow rfl
  have hflags : get_field 8 m sp 2 = flags := get_field_eq hrow rfl
  have hsp : get_field 8 m sp 3 = sp' := get_field_eq hrow rfl
  have hss : get_field 8 m sp 4 = ss := get_field_eq hrow rfl
  simp only [iretq, on_stack_sp, on_stack_mem, hip, hcs, hflags, hsp, hss]
  exact set_sp_on_stack { t with
    ip := ip, cs := low cs, flags := flags, seg := Function.update t.seg .ss (low ss) } sp sp' m

/-- Any context, of the kernel or of an outer ring. -/
theorem am_iret64_spec {s : Cpu64} {ctx : BitVec 64} {c : Context64 → BitVec 64}
    (harg : arg64 s = ctx) (hctx : Holds 8 s.mem ctx (row64 c)) :
    Loaded64 c (am_iret64 s) := by
  have hcode : am_iret64_code = [.mov .rdi .rsp, .load 160 .rsp .rax, .movw_to .rax .ds,
      .movw_to .rax .es, .addi 8 .rsp] ++ saved_regs64.map .pop := rfl
  have hself : s = s.on_stack .rsp (s.gpr .rsp) s.mem := (on_stack_self s).symm
  have hnext : ctx + 8 = nth 8 ctx 1 := rfl
  have hhead : ∃ t : Cpu64, run 8 .rsp [.mov .rdi .rsp, .load 160 .rsp .rax, .movw_to .rax .ds,
      .movw_to .rax .es, .addi 8 .rsp] s = t.on_stack .rsp (nth 8 ctx 1) s.mem := by
    conv =>
      enter [1, t, 1]
      rw [hself]
    rw [run_cons, exec_mov_sp (by decide), run_cons, exec_load_sp (by decide), run_cons,
      exec_movw_to (by decide), run_cons, exec_movw_to (by decide), run_cons, exec_addi_sp, run_nil,
      show s.gpr .rdi = ctx from harg, hnext]
    exact ⟨_, rfl⟩
  obtain ⟨t, ht⟩ := hhead
  have hrow : Holds 8 s.mem (nth 8 ctx 1) (saved_regs64.map (gpr64 c) ++
      ([c .rip, c .cs, c .rflags, c .rsp, c .ss] ++ [c .rsp0])) :=
    ((holds_append [c .cr3] _).mp hctx).2
  have hregs : Reg64.rsp ∉ saved_regs64 := by decide
  obtain ⟨hpops, hframe⟩ := run_pops hregs (s := t) (by rfl) hrow
  unfold am_iret64 run64
  rw [hcode, run_append, ht, hpops, iretq_spec hframe]
  refine ⟨?_, rfl, rfl, rfl⟩
  intro r
  cases r <;> rfl

/-! ## Section 2: The way in -/

/-- `trap` puts the words of a `Context` in front of the row; the last six are
    left to the C code. -/
theorem stacked_trap64 (am_iret : BitVec 64) {s t : Cpu64} {a : BitVec 64}
    {ws : List (BitVec 64)} (h : Stacked 8 .rsp s t a ws) (hroom : 8 * (23 + ws.length) ≤ 2 ^ 64) :
    ∃ (t' : Cpu64) (us : List (BitVec 64)), us.length = 6 ∧ t'.gpr .rdi = back 8 a 22 ∧
      Stacked 8 .rsp (run64 (trap64 am_iret) s) t' (back 8 a 23)
        ([am_iret, 0] ++ (saved_regs64.map t.gpr ++ (us ++ ws))) := by
  obtain ⟨us, hus, hsub⟩ := stacked_reserve (n := 6) (stacked_cli h)
  have hlen : (us ++ ws).length = 6 + ws.length := by rw [List.length_append, hus]
  generalize hvs : us ++ ws = vs at hsub hlen
  have hregs := stacked_pushes rfl (show Reg64.rsp ∉ saved_regs64.reverse by decide) hsub
    (by show 8 * (15 + vs.length) ≤ _; omega)
  have hcr3 := stacked_push rfl (v := 0) hregs (by show 8 * (vs.length + 15 + 1) ≤ _; omega)
  have hdi := stacked_map (i := .mov .rsp .rdi) hcr3 fun m => exec_mov_from_sp (by decide) _ _ m
  have hcall := stacked_push rfl (v := am_iret) hdi (by show 8 * (vs.length + 16 + 1) ≤ _; omega)
  simp only [back_back] at hcall
  subst hvs
  refine ⟨_, us, hus, ?_, hcall⟩
  exact set_gpr_self _ Reg64.rdi _

/-- The context that the assignments at the start of `__am_irq_handle`
    complete. -/
theorem save_context64_spec (rsp0 cr3 : BitVec 64) {m : Memory 64} {c : Context64 → BitVec 64}
    {tf z x₀ x₁ x₂ x₃ x₄ x₅ irq ec ip cs fl sp ss : BitVec 64}
    (h : Holds 8 m tf ([z] ++ saved_regs64.map (gpr64 c) ++ [x₀, x₁, x₂, x₃, x₄, x₅] ++
      [irq, ec, ip, cs, fl, sp, ss])) :
    Holds 8 (save_context64 rsp0 cr3 tf m) tf ([cr3] ++ saved_regs64.map (gpr64 c) ++
      [ip, cs, fl, sp, ss, rsp0] ++ [irq, ec, ip, cs, fl, sp, ss]) := by
  have hroom : 8 * 29 ≤ 2 ^ 64 := by decide
  have hin : ∀ f : Context64, f.index < 29 := fun f => by cases f <;> decide
  have h₁ := holds_copy_field rfl h (j := TrapFrame64.rip.index) rfl (hin .rip) hroom
  have h₂ := holds_copy_field rfl h₁ (j := TrapFrame64.cs.index) rfl (hin .cs) hroom
  have h₃ := holds_copy_field rfl h₂ (j := TrapFrame64.rflags.index) rfl (hin .rflags) hroom
  have h₄ := holds_copy_field rfl h₃ (j := TrapFrame64.rsp.index) rfl (hin .rsp) hroom
  have h₅ := holds_set_field rfl h₄ (v := rsp0) (hin .rsp0) hroom
  have h₆ := holds_copy_field rfl h₅ (j := TrapFrame64.ss.index) rfl (hin .ss) hroom
  have h₇ := holds_set_field rfl h₆ (v := cr3) (hin .cr3) hroom
  exact h₇

/-! ## Section 3: Interrupt and return -/

/-- The stack that the trap frame lies on. -/
def stack64 (s : Cpu64) : BitVec 64 := (if rpl s.cs = 0 then s.gpr .rsp else s.sp0) &&& ~~~ 15

theorem enter_gate64_sp (s : Cpu64) (entry : BitVec 64) :
    (enter_gate64 s entry).gpr .rsp = stack64 s := by
  unfold enter_gate64 stack64
  split <;> rfl

theorem enter_gate64_gpr {r : Reg64} (hr : r ≠ .rsp) (s : Cpu64) (entry : BitVec 64) :
    (enter_gate64 s entry).gpr r = s.gpr r := by
  unfold enter_gate64
  split
  · exact set_gpr_ne hr s _
  · exact (set_gpr_ne hr _ _).trans (set_gpr_ne hr s _)

/-- The trap frame in front of the C code, which gets its address. -/
theorem trapped64_spec (am_iret entry errcode : BitVec 64) (s : Cpu64) {irq : Nat × Err}
    (hirq : irq ∈ IRQS) :
    ∃ (t : Cpu64) (ec : BitVec 64) (us : List (BitVec 64)), us.length = 6 ∧
      t.gpr .rdi = back 8 (stack64 s) 29 ∧
      Stacked 8 .rsp (trapped64 am_iret entry s irq errcode) t (back 8 (stack64 s) 30)
        ([am_iret, 0] ++ (saved_regs64.map s.gpr ++ (us ++
          [BitVec.ofNat 64 irq.1, ec, s.ip, s.cs.setWidth 64, s.flags, s.gpr .rsp,
            (s.seg .ss).setWidth 64]))) := by
  have hgate : Stacked 8 .rsp (enter_gate64 s entry) (enter_gate64 s entry) (stack64 s) [] := by
    rw [← enter_gate64_sp s entry]
    exact stacked_self
  obtain ⟨ec, hstub⟩ := stacked_am_irq rfl errcode
    [(s.seg .ss).setWidth 64, s.gpr .rsp, s.flags, s.cs.setWidth 64, s.ip] hirq hgate
    (by show 8 * 7 ≤ 2 ^ 64; decide)
  obtain ⟨t, us, hus, hrdi, htrap⟩ := stacked_trap64 am_iret hstub
    (by show 8 * (23 + 7) ≤ 2 ^ 64; decide)
  have hgpr : saved_regs64.map (enter_gate64 s entry).gpr = saved_regs64.map s.gpr := by
    apply List.map_congr_left
    intro r hr
    exact enter_gate64_gpr (fun he => absurd hr (by rw [he]; decide)) s entry
  simp only [back_back, hgpr] at htrap hrdi
  exact ⟨t, ec, us, hus, hrdi, htrap⟩

/-- The bytes above the C code. -/
theorem call_am_iret64_above {f : CFrame Reg64 64 sizeof_Context64} {ret tf ret_ctx : BitVec 64}
    {s : Cpu64}
    {k : Nat} (hk : k < sizeof_Context64) :
    (call_am_iret64 f ret tf ret_ctx s).mem (tf + BitVec.ofNat 64 k) =
      s.mem (tf + BitVec.ofNat 64 k) := by
  have hargs := f.args
  have hroom := Nat.lt_of_lt_of_le (Nat.add_lt_add_left hk f.depth) f.room
  have hbase : tf + BitVec.ofNat 64 k =
      tf - BitVec.ofNat 64 f.depth + BitVec.ofNat 64 (f.depth + k) := by
    rw [BitVec.ofNat_add]
    ring
  have hmem : (call_am_iret64 f ret tf ret_ctx s).mem =
      store_word 8 (f.over tf s.mem) (nth 8 (tf - BitVec.ofNat 64 f.depth) 0) ret := by
    rw [nth_zero]
    rfl
  rw [hmem, hbase, store_word_behind hroom (by omega), ← hbase]
  exact over_above f tf s.mem hroom

theorem am_irq_handle64_ok {user_handler : Handler 64} {tf : BitVec 64} {s : Cpu64}
    (hnull : tf ≠ 0)
    (hptr : (user_handler (handler_call64 s tf).1 tf (handler_call64 s tf).2).1 = tf) :
    ∃ s', am_irq_handle64 user_handler tf s = .ok (tf, s') ∧
      s'.mem = (user_handler (handler_call64 s tf).1 tf (handler_call64 s tf).2).2 := by
  have hne : (tf != 0) = true := bne_iff_ne.mpr hnull
  simp only [am_irq_handle64, hptr, hne, cassert_true, ok_bind]
  split
  · exact ⟨_, rfl, rfl⟩
  · exact ⟨_, rfl, rfl⟩

/-- The handler returns the context of the interrupted code as it was. -/
def Returns64 (user_handler : Handler 64) (t : Cpu64) : Prop :=
  Unchanged sizeof_Context64 (arg64 t) (handler_call64 t (arg64 t)).2
    (user_handler (handler_call64 t (arg64 t)).1 (arg64 t) (handler_call64 t (arg64 t)).2)

/-- The `Context` of the code interrupted in state `s`. -/
def context64 (s : Cpu64) (cr3 rsp0 : BitVec 64) : Context64 → BitVec 64
  | .cr3 => cr3
  | .rax => s.gpr .rax
  | .rbx => s.gpr .rbx
  | .rcx => s.gpr .rcx
  | .rdx => s.gpr .rdx
  | .rbp => s.gpr .rbp
  | .rsi => s.gpr .rsi
  | .rdi => s.gpr .rdi
  | .r8 => s.gpr .r8
  | .r9 => s.gpr .r9
  | .r10 => s.gpr .r10
  | .r11 => s.gpr .r11
  | .r12 => s.gpr .r12
  | .r13 => s.gpr .r13
  | .r14 => s.gpr .r14
  | .r15 => s.gpr .r15
  | .rip => s.ip
  | .cs => s.cs.setWidth 64
  | .rflags => s.flags
  | .rsp => s.gpr .rsp
  | .ss => (s.seg .ss).setWidth 64
  | .rsp0 => rsp0

theorem context64_gpr (s : Cpu64) (cr3 rsp0 : BitVec 64) :
    gpr64 (context64 s cr3 rsp0) = s.gpr := by
  funext r
  cases r <;> rfl

/-- The context that `__am_irq_handle` gives to the handler. -/
theorem handler_call64_holds (am_iret entry errcode : BitVec 64) (s : Cpu64) {irq : Nat × Err}
    (hirq : irq ∈ IRQS) :
    ∃ cr3 rsp0, Holds 8
      (handler_call64 (trapped64 am_iret entry s irq errcode)
        (arg64 (trapped64 am_iret entry s irq errcode))).2
      (arg64 (trapped64 am_iret entry s irq errcode)) (row64 (context64 s cr3 rsp0)) := by
  obtain ⟨t, ec, us, hus, hrdi, m, htrap, hrow⟩ := trapped64_spec am_iret entry errcode s hirq
  have htf : arg64 (trapped64 am_iret entry s irq errcode) = back 8 (stack64 s) 29 := by
    rw [htrap]
    exact (on_stack_gpr (by decide) t _ m).trans hrdi
  have hframe := ((holds_append [am_iret] _).mp hrow).2
  have hnext : nth 8 (back 8 (stack64 s) 30) 1 = back 8 (stack64 s) 29 := nth_back (stack64 s) 1 29
  rw [show [am_iret].length = 1 from rfl, hnext] at hframe
  rw [htf]
  generalize back 8 (stack64 s) 29 = tf at hframe ⊢
  match us, hus with
  | [x₀, x₁, x₂, x₃, x₄, x₅], _ =>
    have hsaved := save_context64_spec t.sp0 t.cr3 (c := context64 s t.cr3 t.sp0)
      (by rw [context64_gpr]; exact hframe)
    have hctx : Holds 8 (save_context64 t.sp0 t.cr3 tf m) tf (row64 (context64 s t.cr3 t.sp0)) :=
      ((holds_append (row64 (context64 s t.cr3 t.sp0)) [BitVec.ofNat 64 irq.1, ec, s.ip,
        s.cs.setWidth 64, s.flags, s.gpr .rsp, (s.seg .ss).setWidth 64]).mp hsaved).1
    rw [htrap]
    exact ⟨_, _, hctx⟩

/-- Every interrupt of kernel or user code is returned from exactly. -/
theorem handle_interrupt64_resumes {user_handler : Handler 64}
    {am_iret entry ret errcode : BitVec 64} {f : CFrame Reg64 64 sizeof_Context64} {s : Cpu64}
    {irq : Nat × Err}
    (hirq : irq ∈ IRQS)
    (hnull : arg64 (trapped64 am_iret entry s irq errcode) ≠ 0)
    (hsame : Returns64 user_handler (trapped64 am_iret entry s irq errcode)) :
    ∃ s', handle_interrupt64 user_handler am_iret entry ret f s irq errcode = .ok s' ∧
      Resumes s s' := by
  obtain ⟨cr3, rsp0, hctx⟩ := handler_call64_holds am_iret entry errcode s hirq
  unfold Returns64 at hsame
  generalize htrap : trapped64 am_iret entry s irq errcode = t at hctx hnull hsame
  obtain ⟨t', hhandle, hmem⟩ := am_irq_handle64_ok hnull hsame.1
  -- Neither the handler nor the C code below the frame changes the context.
  have hkept : Holds 8 t'.mem (arg64 t) (row64 (context64 s cr3 rsp0)) := by
    rw [hmem]
    exact holds_congr hctx hsame.2
  let u := call_am_iret64 f ret (arg64 t) (arg64 t) t'
  have hu : Holds 8 u.mem (arg64 t) (row64 (context64 s cr3 rsp0)) := by
    apply holds_congr hkept
    intro k hk
    exact call_am_iret64_above hk
  have harg : arg64 u = arg64 t := by simp [u, arg64, call_am_iret64]
  have hloaded := am_iret64_spec harg hu
  refine ⟨am_iret64 u, ?_, ?_⟩
  · unfold handle_interrupt64
    rw [htrap]
    simp only [hhandle, ok_bind]
    rfl
  · refine ⟨?_, hloaded.ip, hloaded.cs.trans (low_setWidth (by decide) s.cs), hloaded.flags⟩
    intro r
    rw [hloaded.gpr r, context64_gpr]

/-! ## Section 4: Kernel contexts -/

/-- The `Context` that `kcontext` builds. -/
def fresh64 (amkcontext_start kstack_end entry arg : BitVec 64) : Context64 → BitVec 64
  | .cs => (KSEL SEG_KCODE).setWidth 64
  | .rip => amkcontext_start
  | .rflags => FL_IF
  | .rsp => kstack_end
  | .rdi => arg
  | .rsi => entry
  | _ => 0

theorem kcontext64_holds (amkcontext_start kstack_end entry arg : BitVec 64) (m : Memory 64) :
    Holds 8 (kcontext64 amkcontext_start kstack_end entry arg m).2
      (kcontext64 amkcontext_start kstack_end entry arg m).1
      (row64 (fresh64 amkcontext_start kstack_end entry arg)) := by
  have hroom : 8 * 22 ≤ 2 ^ 64 := by decide
  have hin : ∀ f : Context64, f.index < 22 := fun f => by cases f <;> decide
  have h₀ := holds_zero (W := 8) m (kstack_end - BitVec.ofNat 64 sizeof_Context64) hroom
  have h₁ := holds_set_field rfl h₀ (v := (KSEL SEG_KCODE).setWidth 64) (hin .cs) hroom
  have h₂ := holds_set_field rfl h₁ (v := amkcontext_start) (hin .rip) hroom
  have h₃ := holds_set_field rfl h₂ (v := FL_IF) (hin .rflags) hroom
  have h₄ := holds_set_field rfl h₃ (v := kstack_end) (hin .rsp) hroom
  have h₅ := holds_set_field rfl h₄ (v := arg) (hin .rdi) hroom
  have h₆ := holds_set_field rfl h₅ (v := entry) (hin .rsi) hroom
  exact h₆

/-- A context from `kcontext` starts at its entry code. -/
theorem kcontext64_starts {amkcontext_start kstack_end entry arg : BitVec 64} {m : Memory 64}
    {s : Cpu64} (harg : arg64 s = (kcontext64 amkcontext_start kstack_end entry arg m).1)
    (hmem : Unchanged sizeof_Context64 (kcontext64 amkcontext_start kstack_end entry arg m).1
      (kcontext64 amkcontext_start kstack_end entry arg m).2 (arg64 s, s.mem)) :
    Starts .rdi .rsi .rsp amkcontext_start kstack_end entry arg (am_iret64 s) := by
  have hctx := holds_congr (kcontext64_holds amkcontext_start kstack_end entry arg m) hmem.2
  have hloaded := am_iret64_spec harg hctx
  exact ⟨hloaded.ip, hloaded.gpr .rdi, hloaded.gpr .rsi, hloaded.gpr .rsp,
    hloaded.cs.trans (low_setWidth (by decide) (KSEL SEG_KCODE)), hloaded.flags⟩

end Am.X86.Cte
