import IcsPa.Am.X86.Trap32

/-! # The 32-bit x86-qemu returns to what it interrupted

    `Context32 → BitVec 32` is a `Context` as a value and `row32` the row of
    its words in memory.  `__am_iret` loads the context that its argument
    points at (Section 1), and the way in builds the one of the interrupted
    code (Section 2).

    In the kernel's ring the processor neither pushes nor pops the stack
    pointer: it is where the frame ends, and the return puts its three words
    in front of it. -/

open CCall Words Asm

namespace Am.X86.Cte

/-! ## Section 1: `__am_iret` loads a context -/

/-- The words of a `Context` in memory. -/
def row32 (c : Context32 → BitVec 32) : List (BitVec 32) :=
  [c .cr3, c .ds, c .eax, c .ebx, c .ecx, c .edx, c .esp0, c .esi, c .edi, c .ebp, c .eip, c .cs,
   c .eflags, c .esp, c .ss3]

/-- The general registers of a `Context`. -/
def gpr32 (c : Context32 → BitVec 32) : Reg32 → BitVec 32
  | .eax => c .eax
  | .ebx => c .ebx
  | .ecx => c .ecx
  | .edx => c .edx
  | .esi => c .esi
  | .edi => c .edi
  | .ebp => c .ebp
  | .esp => c .esp

/-- `s` runs in the context `c`. -/
structure Loaded32 (c : Context32 → BitVec 32) (s : Cpu32) : Prop where
  gpr   : ∀ r, s.gpr r = gpr32 c r
  ip    : s.ip = c .eip
  cs    : s.cs = low (c .cs)
  flags : s.flags = c .eflags

/-- The next word, as the code writes it. -/
theorem add_four (a : BitVec 32) : a + 4 = nth 4 a 1 := rfl

theorem am_iret32_head_spec {s : Cpu32} {ctx : BitVec 32} (harg : arg32 s = ctx) :
    ∃ t : Cpu32, run32 am_iret32_head s = t.on_stack .esp (nth 4 ctx 2) s.mem := by
  have hself : s = s.on_stack .esp (s.gpr .esp) s.mem := (on_stack_self s).symm
  have harg' : word 4 s.mem (s.gpr .esp + 4) = ctx := harg
  -- The argument is the new stack, and `cr3` is skipped.
  have hstack : run 4 .esp [.addi 4 .esp, .pop .eax, .mov .eax .esp, .addi 4 .esp] s =
      (s.set .eax ctx).on_stack .esp (nth 4 ctx 1) s.mem := by
    conv_lhs => rw [hself]
    rw [run_cons, exec_addi_sp, run_cons, exec_pop (by decide), harg', run_cons,
      exec_mov_sp (by decide), run_cons, exec_addi_sp]
    rfl
  have hcode : (am_iret32_head : List (Ins Reg32 32)) =
      [.addi 4 .esp, .pop .eax, .mov .eax .esp, .addi 4 .esp] ++
        [.pop .eax, .movw_to .eax .ds, .movw_to .eax .es] := rfl
  unfold run32
  rw [hcode, run_append, hstack, run_cons, exec_pop (by decide), nth_nth, run_cons,
    exec_movw_to (by decide), run_cons, exec_movw_to (by decide)]
  exact ⟨_, rfl⟩

/-- The registers that both ways out pop first. -/
theorem run_restore {t : Cpu32} {ctx : BitVec 32} {m : Memory 32} {c : Context32 → BitVec 32}
    (hctx : Holds 4 m ctx (row32 c)) :
    run 4 .esp ([.eax, .ebx, .ecx, .edx].map .pop ++ [.addi 4 .esp])
        (t.on_stack .esp (nth 4 ctx 2) m) =
      (set_all t [(.eax, c .eax), (.ebx, c .ebx), (.ecx, c .ecx), (.edx, c .edx)]).on_stack .esp
        (nth 4 ctx 7) m := by
  have hrow : Holds 4 m (nth 4 ctx 2) ([c .eax, c .ebx, c .ecx, c .edx] ++ (row32 c).drop 6) :=
    ((holds_append [c .cr3, c .ds] _).mp hctx).2
  have hregs : Reg32.esp ∉ [Reg32.eax, .ebx, .ecx, .edx] := by decide
  have hpops := (run_pops hregs (s := t) rfl hrow).1
  rw [run_append, hpops, run_cons, exec_addi_sp, add_four, List.length_cons, List.length_cons,
    List.length_cons, List.length_cons, List.length_nil, nth_nth, nth_nth]
  rfl

theorem run_restore_last {t : Cpu32} {sp si di bp : BitVec 32} {m : Memory 32}
    (ws : List (BitVec 32)) (hrow : Holds 4 m sp ([si, di, bp] ++ ws)) :
    run 4 .esp ([.esi, .edi, .ebp].map .pop) (t.on_stack .esp sp m) =
        (set_all t [(.esi, si), (.edi, di), (.ebp, bp)]).on_stack .esp (nth 4 sp 3) m ∧
      Holds 4 m (nth 4 sp 3) ws :=
  run_pops (show Reg32.esp ∉ [Reg32.esi, .edi, .ebp] by decide) rfl hrow

/-- `iret` with a return to the kernel. -/
theorem iret32_kernel {t : Cpu32} {sp ip cs flags : BitVec 32} {m : Memory 32}
    (hrow : Holds 4 m sp [ip, cs, flags]) (hcs : rpl (low cs) = 0) :
    iret32 (t.on_stack .esp sp m) =
      { t with ip := ip, cs := low cs, flags := flags }.on_stack .esp (nth 4 sp 3) m := by
  have hip : get_field 4 m sp 0 = ip := get_field_eq hrow rfl
  have hcs' : get_field 4 m sp 1 = cs := get_field_eq hrow rfl
  have hflags : get_field 4 m sp 2 = flags := get_field_eq hrow rfl
  simp only [iret32, on_stack_sp, on_stack_mem, hip, hcs', hflags, if_pos hcs]
  exact set_sp_on_stack { t with ip := ip, cs := low cs, flags := flags } sp (nth 4 sp 3) m

/-- `iret` with a return to an outer ring. -/
theorem iret32_user {t : Cpu32} {sp ip cs flags sp' ss : BitVec 32} {m : Memory 32}
    (hrow : Holds 4 m sp [ip, cs, flags, sp', ss]) (hcs : rpl (low cs) ≠ 0) :
    iret32 (t.on_stack .esp sp m) =
      { t with ip := ip, cs := low cs, flags := flags, seg := Function.update t.seg .ss (low ss)
        }.on_stack .esp sp' m := by
  have hip : get_field 4 m sp 0 = ip := get_field_eq hrow rfl
  have hcs' : get_field 4 m sp 1 = cs := get_field_eq hrow rfl
  have hflags : get_field 4 m sp 2 = flags := get_field_eq hrow rfl
  have hsp : get_field 4 m sp 3 = sp' := get_field_eq hrow rfl
  have hss : get_field 4 m sp 4 = ss := get_field_eq hrow rfl
  simp only [iret32, on_stack_sp, on_stack_mem, hip, hcs', hflags, hsp, hss, if_neg hcs]
  exact set_sp_on_stack { t with
    ip := ip, cs := low cs, flags := flags, seg := Function.update t.seg .ss (low ss) } sp sp' m

/-- A context for an outer ring. -/
theorem am_iret32_user {s : Cpu32} {ctx : BitVec 32} {c : Context32 → BitVec 32}
    (harg : arg32 s = ctx) (hctx : Holds 4 s.mem ctx (row32 c)) (hcs : rpl (low (c .cs)) ≠ 0) :
    Loaded32 c (am_iret32 s) := by
  obtain ⟨t, ht⟩ := am_iret32_head_spec harg
  have hne : low (word 4 s.mem (nth 4 ctx 2 + 36)) ≠ KSEL SEG_KCODE := by
    intro h
    have hword : word 4 s.mem (nth 4 ctx 11) = c .cs := hctx 11 (c .cs) rfl
    have haddr : nth 4 ctx 2 + 36 = nth 4 ctx 11 := nth_nth ctx 2 9
    rw [haddr, hword] at h
    exact hcs (by rw [h]; decide)
  have hrow : Holds 4 s.mem (nth 4 ctx 7) ([c .esi, c .edi, c .ebp] ++
      [c .eip, c .cs, c .eflags, c .esp, c .ss3]) :=
    ((holds_append ((row32 c).take 7) _).mp hctx).2
  obtain ⟨hlast, hframe⟩ := run_restore_last (t := set_all t
    [(.eax, c .eax), (.ebx, c .ebx), (.ecx, c .ecx), (.edx, c .edx)]) _ hrow
  have hcode : user_iret = ([.eax, .ebx, .ecx, .edx].map .pop ++ [.addi 4 .esp]) ++
      [.esi, .edi, .ebp].map .pop := rfl
  unfold am_iret32 run32
  rw [show run 4 Reg32.esp am_iret32_head s = _ from ht]
  show Loaded32 c (if low (word 4 s.mem ((t.on_stack .esp (nth 4 ctx 2) s.mem).gpr .esp + 36)) =
    KSEL SEG_KCODE then _ else _)
  rw [on_stack_sp, if_neg hne, hcode, run_append, run_restore hctx, hlast, iret32_user hframe hcs]
  refine ⟨?_, rfl, rfl, rfl⟩
  intro r
  cases r <;> rfl

/-- The last `n` of the lines that move the frame of the `iret`. -/
def move_lines : Nat → List (Ins Reg32 32)
  | 0 => []
  | n + 1 => .load (BitVec.ofNat 32 (4 * n)) .ebp .esi ::
      .store .esi (BitVec.ofNat 32 (4 * n) - 24) .edi :: move_lines n

theorem run_move_lines {b a : BitVec 32} {g : Nat} (n : Nat) {t : Cpu32} {m : Memory 32}
    (hbp : t.gpr .ebp = b) (hdi : t.gpr .edi = nth 4 b (g + 6)) :
    ∃ v, run 4 .esp (move_lines n) (t.on_stack .esp a m) =
      (t.set .esi v).on_stack .esp a (move_up 4 b g n m) := by
  induction n generalizing t m with
  | zero =>
    refine ⟨t.gpr .esi, ?_⟩
    unfold Cpu.set
    rw [Function.update_eq_self]
    rfl
  | succ n ih =>
    have hdst : nth 4 b (g + 6) + (BitVec.ofNat 32 (4 * n) - 24) = nth 4 b (n + g) := by
      have hsum : 4 * (g + 6) = 4 * g + 24 := by omega
      have h24 : BitVec.ofNat 32 24 = 24 := rfl
      unfold nth
      rw [hsum, Nat.mul_add, BitVec.ofNat_add, BitVec.ofNat_add, h24]
      ring
    rw [move_lines, run_cons, exec_load (by decide) (by decide), hbp, run_cons,
      exec_store (by decide) (by decide)]
    obtain ⟨v, hv⟩ := ih (t := t.set .esi (word 4 m (nth 4 b n)))
      (m := store_word 4 m (nth 4 b (n + g)) (word 4 m (nth 4 b n))) hbp hdi
    refine ⟨v, ?_⟩
    have hedi : (t.set .esi (word 4 m (nth 4 b n))).gpr .edi = nth 4 b (g + 6) := hdi
    have hesi : (t.set .esi (word 4 m (nth 4 b n))).gpr .esi = word 4 m (nth 4 b n) := rfl
    show run 4 .esp (move_lines n) ((t.set .esi (word 4 m (nth 4 b n))).on_stack .esp a
      (store_word 4 m ((t.set .esi (word 4 m (nth 4 b n))).gpr .edi +
        (BitVec.ofNat 32 (4 * n) - 24)) ((t.set .esi (word 4 m (nth 4 b n))).gpr .esi))) = _
    rw [hedi, hesi, hdst, hv]
    simp [Cpu.set, move_up]

/-- The frame of the `iret` is moved to the new stack, `g` words behind. -/
theorem run_move {t : Cpu32} {b si di bp ip cs flags sp ss : BitVec 32} {m : Memory 32} {g : Nat}
    (hrow : Holds 4 m b ([si, di, bp, ip, cs, flags] ++ [sp, ss])) (hsp : sp = nth 4 b (g + 6))
    (hroom : 4 * (6 + g) ≤ 2 ^ 32) :
    ∃ v m', run 4 .esp ([.mov .esp .ebp, .load 24 .ebp .edi] ++
        (move_lines 6 ++ [.lea (-24) .edi .esp])) (t.on_stack .esp b m) =
        (((t.set .ebp b).set .edi sp).set .esi v).on_stack .esp (nth 4 b g) m' ∧
      Holds 4 m' (nth 4 b g) [si, di, bp, ip, cs, flags] := by
  have hword : word 4 m (b + 24) = sp := hrow 6 sp rfl
  obtain ⟨v, hmove⟩ := run_move_lines (a := b) (b := b) (g := g) 6
    (t := (t.set .ebp b).set .edi sp) (m := m) rfl hsp
  have hlea : sp + -24 = nth 4 b g := by
    have hback : nth 4 (nth 4 b g) 6 = nth 4 b g + 24 := rfl
    have hcancel : (24 : BitVec 32) + -24 = 0 := by decide
    rw [hsp, ← nth_nth, hback, BitVec.add_assoc, hcancel, add_zero]
  refine ⟨v, move_up 4 b g 6 m, ?_, holds_move_up rfl ((holds_append _ _).mp hrow).1 hroom⟩
  have hebp : (t.set .ebp b).gpr .ebp = b := rfl
  have hedi : (((t.set .ebp b).set .edi sp).set .esi v).gpr .edi = sp := rfl
  rw [run_append, run_cons, exec_mov_from_sp (by decide), run_cons,
    exec_load (by decide) (by decide), hebp, hword, run_nil, run_append, hmove, run_cons,
    exec_lea_sp (by decide), hedi, hlea, run_nil]

/-- A context for the kernel, whose stack pointer is `g` words or more behind
    the place of its `esp`. -/
theorem am_iret32_kernel {s : Cpu32} {ctx : BitVec 32} {c : Context32 → BitVec 32} {g : Nat}
    (harg : arg32 s = ctx) (hctx : Holds 4 s.mem ctx (row32 c))
    (hcs : low (c .cs) = KSEL SEG_KCODE) (hsp : c .esp = nth 4 ctx (13 + g))
    (hroom : 4 * (13 + g) ≤ 2 ^ 32) :
    Loaded32 c (am_iret32 s) := by
  obtain ⟨t, ht⟩ := am_iret32_head_spec harg
  -- The branch of the code for the kernel is taken.
  have heq : low (word 4 s.mem (nth 4 ctx 2 + 36)) = KSEL SEG_KCODE := by
    have hword : word 4 s.mem (nth 4 ctx 11) = c .cs := hctx 11 (c .cs) rfl
    have haddr : nth 4 ctx 2 + 36 = nth 4 ctx 11 := nth_nth ctx 2 9
    rw [haddr, hword, hcs]
  have hker : rpl (low (c .cs)) = 0 := by rw [hcs]; decide
  have hrow : Holds 4 s.mem (nth 4 ctx 7) ([c .esi, c .edi, c .ebp, c .eip, c .cs, c .eflags] ++
      [c .esp, c .ss3]) := ((holds_append ((row32 c).take 7) _).mp hctx).2
  -- The saved stack pointer is `g` words above the frame that `iret` needs.
  have hsp' : c .esp = nth 4 (nth 4 ctx 7) (g + 6) := by
    have hidx : 13 + g = 7 + (g + 6) := by omega
    rw [nth_nth, hsp, hidx]
  obtain ⟨v, m', hmove, hmoved⟩ := run_move (t := set_all t
    [(.eax, c .eax), (.ebx, c .ebx), (.ecx, c .ecx), (.edx, c .edx)]) hrow hsp' (by omega)
  obtain ⟨hlast, hframe⟩ := run_restore_last (t := (((set_all t
    [(.eax, c .eax), (.ebx, c .ebx), (.ecx, c .ecx), (.edx, c .edx)]).set .ebp
      (nth 4 ctx 7)).set .edi (c .esp)).set .esi v) [c .eip, c .cs, c .eflags] hmoved
  -- The instructions, cut where the lemmas about them meet.
  have hcode : kernel_iret = ([.eax, .ebx, .ecx, .edx].map .pop ++ [.addi 4 .esp]) ++
      (([.mov .esp .ebp, .load 24 .ebp .edi] ++ (move_lines 6 ++ [.lea (-24) .edi .esp])) ++
        [.esi, .edi, .ebp].map .pop) := rfl
  unfold am_iret32 run32
  rw [show run 4 Reg32.esp am_iret32_head s = _ from ht]
  show Loaded32 c (if low (word 4 s.mem ((t.on_stack .esp (nth 4 ctx 2) s.mem).gpr .esp + 36)) =
    KSEL SEG_KCODE then _ else _)
  rw [on_stack_sp, if_pos heq, hcode, run_append, run_restore hctx, run_append, hmove, hlast,
    iret32_kernel hframe hker]
  refine ⟨?_, rfl, rfl, rfl⟩
  have hend : nth 4 (nth 4 (nth 4 (nth 4 ctx 7) g) 3) 3 = c .esp := by
    rw [nth_nth, nth_nth, hsp']
  intro r
  cases r with
  | esp => exact hend
  | _ => rfl

/-! ## Section 2: The way in -/

/-- `trap` puts the words of a `Context` in front of the row; the five in the
    middle are left to the C code. -/
theorem stacked_trap32 (am_iret : BitVec 32) {s t : Cpu32} {a : BitVec 32}
    {ws : List (BitVec 32)} (h : Stacked 4 .esp s t a ws)
    (hroom : 4 * (17 + ws.length) ≤ 2 ^ 32) :
    ∃ (t' : Cpu32) (ds : BitVec 32) (us : List (BitVec 32)), us.length = 5 ∧
      Stacked 4 .esp (run32 (trap32 am_iret) s) t' (back 4 a 17)
        ([am_iret, back 4 a 15, 0, ds, t.gpr .eax, t.gpr .ebx, t.gpr .ecx, t.gpr .edx, 0,
          t.gpr .esi, t.gpr .edi, t.gpr .ebp] ++ (us ++ ws)) := by
  obtain ⟨us, hus, hsub⟩ := stacked_reserve (n := 5) (stacked_cli h)
  -- The row has five words more than `ws`, and grows by twelve.
  have hlen : (us ++ ws).length = 5 + ws.length := by rw [List.length_append, hus]
  generalize hvs : us ++ ws = vs at hsub hlen
  have hlast := stacked_pushes rfl (show Reg32.esp ∉ [Reg32.ebp, .edi, .esi] by decide) hsub
    (by show 4 * (3 + vs.length) ≤ _; omega)
  have hesp0 := stacked_push rfl (v := 0) hlast (by show 4 * (vs.length + 3 + 1) ≤ _; omega)
  have hfirst := stacked_pushes rfl (show Reg32.esp ∉ [Reg32.edx, .ecx, .ebx, .eax] by decide) hesp0
    (by show 4 * (4 + (vs.length + 4)) ≤ _; omega)
  have hds := stacked_push_reg (r := .eax) rfl (by decide)
    (stacked_movw_from (r := .eax) (d := .ds) (by decide) hfirst)
    (by show 4 * (vs.length + 8 + 1) ≤ _; omega)
  have hcr3 := stacked_push rfl (v := 0) hds (by show 4 * (vs.length + 9 + 1) ≤ _; omega)
  have hsegs := stacked_movw_to (r := .eax) (d := .ss) (by decide)
    (stacked_movw_to (r := .eax) (d := .es) (by decide)
      (stacked_movw_to (r := .eax) (d := .ds) (by decide)
        (stacked_movw_imm (r := .eax) (v := KSEL SEG_KDATA) (by decide) hcr3)))
  have harg := stacked_push_sp rfl hsegs (by show 4 * (vs.length + 10 + 1) ≤ _; omega)
  have hcall := stacked_push rfl (v := am_iret) harg (by show 4 * (vs.length + 11 + 1) ≤ _; omega)
  simp only [back_back] at hcall
  subst hvs
  exact ⟨_, with_low (t.gpr .eax) (t.seg .ds), us, hus, hcall⟩

/-- The stack pointer of the interrupted code: in the kernel's ring it was not
    pushed, and is the address behind the frame. -/
theorem saved_esp {m : Memory 32} {tf cs sp : BitVec 32}
    (hcs : get_field 4 m tf TrapFrame32.cs.index = cs)
    (hsp : cs &&& BitVec.ofNat 32 DPL_USER ≠ 0 ∧ get_field 4 m tf TrapFrame32.esp.index = sp ∨
      cs &&& BitVec.ofNat 32 DPL_USER = 0 ∧ sp = nth 4 tf 20) :
    (if get_field 4 m tf TrapFrame32.cs.index &&& BitVec.ofNat 32 DPL_USER ≠ 0 then
      get_field 4 m tf TrapFrame32.esp.index
    else tf + BitVec.ofNat 32 sizeof_trap_frame32 - 8) = sp := by
  rw [hcs]
  rcases hsp with ⟨huser, hesp⟩ | ⟨hkern, rfl⟩
  · rw [if_pos huser, hesp]
  · have hback : BitVec.ofNat 32 sizeof_trap_frame32 - 8 = BitVec.ofNat 32 (4 * 20) := by decide
    rw [if_neg (not_not.mpr hkern), BitVec.sub_eq_add_neg, BitVec.add_assoc,
      ← BitVec.sub_eq_add_neg, hback]
    rfl

/-- The context that the assignments at the start of `__am_irq_handle`
    complete. -/
theorem save_context32_spec (esp0 cr3 sp : BitVec 32) {m : Memory 32} {outer : List (BitVec 32)}
    {tf z ds ax bx cx dx z' si di bp x₀ x₁ x₂ x₃ x₄ irq ec ip cs fl : BitVec 32}
    (h : Holds 4 m tf ([z, ds, ax, bx, cx, dx, z', si, di, bp, x₀, x₁, x₂, x₃, x₄, irq, ec, ip, cs,
      fl] ++ outer))
    (houter : outer.length ≤ 2)
    (hsp : cs &&& BitVec.ofNat 32 DPL_USER ≠ 0 ∧ outer[0]? = some sp ∨
      cs &&& BitVec.ofNat 32 DPL_USER = 0 ∧ sp = nth 4 tf 20) :
    Holds 4 (save_context32 esp0 cr3 tf m) tf ([cr3, ds, ax, bx, cx, dx, esp0, si, di, bp, ip, cs,
      fl, sp, (USEL SEG_UDATA).setWidth 32, irq, ec, ip, cs, fl] ++ outer) := by
  have hroom : 4 * (outer.length + 20) ≤ 2 ^ 32 := by omega
  have hin : ∀ f : Context32, f.index < outer.length + 20 := by
    intro f
    have hlt : f.index < 20 := by cases f <;> decide
    exact Nat.lt_of_lt_of_le hlt (Nat.le_add_left 20 _)
  have h₁ := holds_copy_field rfl h (j := TrapFrame32.eip.index) rfl (hin .eip) hroom
  have h₂ := holds_copy_field rfl h₁ (j := TrapFrame32.cs.index) rfl (hin .cs) hroom
  have h₃ := holds_copy_field rfl h₂ (j := TrapFrame32.eflags.index) rfl (hin .eflags) hroom
  have h₄ := holds_set_field rfl h₃ (v := esp0) (hin .esp0) hroom
  have h₅ := holds_set_field rfl h₄ (v := (USEL SEG_UDATA).setWidth 32) (hin .ss3) hroom
  have h₆ := holds_set_field rfl h₅ (v := sp) (hin .esp) hroom
  have h₇ := holds_set_field rfl h₆ (v := cr3) (hin .cr3) hroom
  have hesp := saved_esp (get_field_eq h₅ rfl) (hsp.imp_left fun hu => ⟨hu.1, get_field_eq h₅ hu.2⟩)
  simp only [save_context32]
  rw [hesp]
  exact h₇

/-! ## Section 3: Interrupt and return -/

/-- The stack that the trap frame lies on, and the words of the frame that
    only an interrupt of an outer ring has. -/
def stack32 (s : Cpu32) : BitVec 32 := if rpl s.cs = 0 then s.gpr .esp else s.sp0

def outer32 (s : Cpu32) : List (BitVec 32) :=
  if rpl s.cs = 0 then [] else [s.gpr .esp, (s.seg .ss).setWidth 32]

theorem outer32_length (s : Cpu32) : (outer32 s).length ≤ 2 := by
  unfold outer32
  split
  · exact Nat.zero_le 2
  · exact Nat.le_refl 2

theorem enter_gate32_sp (s : Cpu32) (entry : BitVec 32) :
    (enter_gate32 s entry).gpr .esp = stack32 s := by
  unfold enter_gate32 stack32
  split <;> rfl

theorem enter_gate32_gpr {r : Reg32} (hr : r ≠ .esp) (s : Cpu32) (entry : BitVec 32) :
    (enter_gate32 s entry).gpr r = s.gpr r := by
  unfold enter_gate32
  split
  · rfl
  · exact Function.update_of_ne hr _ _

theorem interrupt_words32_eq (s : Cpu32) (vector : Nat) (errcode : BitVec 32) :
    interrupt_words32 s vector errcode = (outer32 s).reverse ++
      [s.flags, s.cs.setWidth 32, s.ip] ++
        if pushes_error_code vector then [errcode] else [] := by
  unfold interrupt_words32 outer32
  by_cases hring : rpl s.cs = 0
  · rw [if_pos hring, if_pos hring]
    rfl
  · rw [if_neg hring, if_neg hring]
    rfl

/-- The trap frame at `tf`, in front of the C code. -/
theorem trapped32_spec (am_iret entry errcode : BitVec 32) (s : Cpu32) {irq : Nat × Err}
    (hirq : irq ∈ IRQS) :
    ∃ (t : Cpu32) (ds ec : BitVec 32) (us : List (BitVec 32)), us.length = 5 ∧
      Stacked 4 .esp (trapped32 am_iret entry s irq errcode) t
        (back 4 (stack32 s) ((outer32 s).length + 22))
        ([am_iret, back 4 (stack32 s) ((outer32 s).length + 20), 0, ds, s.gpr .eax, s.gpr .ebx,
          s.gpr .ecx, s.gpr .edx, 0, s.gpr .esi, s.gpr .edi, s.gpr .ebp] ++ (us ++
            ([BitVec.ofNat 32 irq.1, ec, s.ip, s.cs.setWidth 32, s.flags] ++ outer32 s))) := by
  have hgate : Stacked 4 .esp (enter_gate32 s entry) (enter_gate32 s entry) (stack32 s) [] := by
    rw [← enter_gate32_sp s entry]
    exact stacked_self
  have hlen := outer32_length s
  have hframe : ((outer32 s).reverse ++ [s.flags, s.cs.setWidth 32, s.ip]).length =
      (outer32 s).length + 3 := by
    rw [List.length_append, List.length_reverse]
    rfl
  obtain ⟨ec, hstub⟩ := stacked_am_irq rfl errcode
    ((outer32 s).reverse ++ [s.flags, s.cs.setWidth 32, s.ip]) hirq hgate
    (by rw [hframe]; omega)
  rw [← interrupt_words32_eq, hframe, List.reverse_append, List.reverse_reverse] at hstub
  obtain ⟨t, ds, us, hus, htrap⟩ := stacked_trap32 am_iret hstub
    (by show 4 * (17 + ((outer32 s).length + 5)) ≤ _; omega)
  refine ⟨t, ds, ec, us, hus, ?_⟩
  simp (disch := decide) only [back_back, enter_gate32_gpr] at htrap
  exact htrap

theorem call_am_iret32_mem (f : CFrame Reg32 32 sizeof_Context32) (ret tf ret_ctx : BitVec 32)
    (s : Cpu32) :
    (call_am_iret32 f ret tf ret_ctx s).mem =
      store_word 4 (store_word 4 (f.over tf s.mem) (nth 4 (tf - BitVec.ofNat 32 f.depth) 1) ret_ctx)
        (nth 4 (tf - BitVec.ofNat 32 f.depth) 0) ret := by
  rw [nth_zero]
  rfl

theorem call_am_iret32_arg (f : CFrame Reg32 32 sizeof_Context32) (ret tf ret_ctx : BitVec 32)
    (s : Cpu32) :
    arg32 (call_am_iret32 f ret tf ret_ctx s) = ret_ctx := by
  have hsp : (call_am_iret32 f ret tf ret_ctx s).gpr .esp = tf - BitVec.ofNat 32 f.depth :=
    Function.update_self Reg32.esp _ f.gpr
  unfold arg32
  rw [hsp, call_am_iret32_mem, add_four, word_store_ne (n := 2) (by decide) (by decide) (by decide)
    (by decide)]
  exact word_store_same rfl _ _ _

/-- The bytes above the C code. -/
theorem call_am_iret32_above {f : CFrame Reg32 32 sizeof_Context32} {ret tf ret_ctx : BitVec 32}
    {s : Cpu32}
    {k : Nat} (hk : k < sizeof_Context32) :
    (call_am_iret32 f ret tf ret_ctx s).mem (tf + BitVec.ofNat 32 k) =
      s.mem (tf + BitVec.ofNat 32 k) := by
  have hargs := f.args
  have hroom := Nat.lt_of_lt_of_le (Nat.add_lt_add_left hk f.depth) f.room
  have hbase : tf + BitVec.ofNat 32 k =
      tf - BitVec.ofNat 32 f.depth + BitVec.ofNat 32 (f.depth + k) := by
    rw [BitVec.ofNat_add]
    ring
  rw [call_am_iret32_mem, hbase, store_word_behind hroom (by omega),
    store_word_behind hroom (by omega), ← hbase]
  exact over_above f tf s.mem hroom

theorem am_irq_handle32_ok {user_handler : Handler 32} {tf : BitVec 32} {s : Cpu32}
    (hnull : tf ≠ 0)
    (hptr : (user_handler (handler_call32 s tf).1 tf (handler_call32 s tf).2).1 = tf) :
    ∃ s', am_irq_handle32 user_handler tf s = .ok (tf, s') ∧
      s'.mem = (user_handler (handler_call32 s tf).1 tf (handler_call32 s tf).2).2 := by
  have hne : (tf != 0) = true := bne_iff_ne.mpr hnull
  simp only [am_irq_handle32, hptr, hne, cassert_true, ok_bind]
  split
  · exact ⟨_, rfl, rfl⟩
  · exact ⟨_, rfl, rfl⟩

/-- The handler returns the context of the interrupted code as it was. -/
def Returns32 (user_handler : Handler 32) (t : Cpu32) : Prop :=
  Unchanged sizeof_Context32 (arg32 t) (handler_call32 t (arg32 t)).2
    (user_handler (handler_call32 t (arg32 t)).1 (arg32 t) (handler_call32 t (arg32 t)).2)

/-- The `Context` of the code interrupted in state `s`, for a trap frame at `tf`. -/
def context32 (s : Cpu32) (tf cr3 ds esp0 : BitVec 32) : Context32 → BitVec 32
  | .cr3 => cr3
  | .ds => ds
  | .eax => s.gpr .eax
  | .ebx => s.gpr .ebx
  | .ecx => s.gpr .ecx
  | .edx => s.gpr .edx
  | .esp0 => esp0
  | .esi => s.gpr .esi
  | .edi => s.gpr .edi
  | .ebp => s.gpr .ebp
  | .eip => s.ip
  | .cs => s.cs.setWidth 32
  | .eflags => s.flags
  | .esp => if rpl s.cs = 0 then nth 4 tf 20 else s.gpr .esp
  | .ss3 => (USEL SEG_UDATA).setWidth 32

theorem and_user_iff (cs : BitVec 16) :
    cs.setWidth 32 &&& BitVec.ofNat 32 DPL_USER = 0 ↔ rpl cs = 0 := by
  have hwide : cs.setWidth 32 &&& BitVec.ofNat 32 DPL_USER = (rpl cs).setWidth 32 := by
    unfold rpl
    rw [BitVec.setWidth_and]
    rfl
  rw [hwide]
  constructor
  · intro h
    rw [← low_setWidth (w := 32) (by decide) (rpl cs), h]
    rfl
  · intro h
    rw [h]
    rfl

/-- The context that `__am_irq_handle` gives to the handler. -/
theorem handler_call32_holds (am_iret entry errcode : BitVec 32) (s : Cpu32) {irq : Nat × Err}
    (hirq : irq ∈ IRQS) :
    ∃ cr3 ds esp0, Holds 4
      (handler_call32 (trapped32 am_iret entry s irq errcode)
        (arg32 (trapped32 am_iret entry s irq errcode))).2
      (arg32 (trapped32 am_iret entry s irq errcode))
      (row32 (context32 s (arg32 (trapped32 am_iret entry s irq errcode)) cr3 ds esp0)) ∧
    arg32 (trapped32 am_iret entry s irq errcode) =
      back 4 (stack32 s) ((outer32 s).length + 20) := by
  obtain ⟨t, ds, ec, us, hus, m, htrap, hrow⟩ := trapped32_spec am_iret entry errcode s hirq
  -- The argument of the handler is the context itself.
  have htf : arg32 (trapped32 am_iret entry s irq errcode) =
      back 4 (stack32 s) ((outer32 s).length + 20) := by
    rw [htrap]
    unfold arg32
    rw [on_stack_sp, on_stack_mem, add_four]
    exact hrow 1 _ rfl
  rw [htf]
  -- It stands above the return address and the argument.
  have hnext : nth 4 (back 4 (stack32 s) ((outer32 s).length + 22)) 2 =
      back 4 (stack32 s) ((outer32 s).length + 20) := by
    have hidx : (outer32 s).length + 22 = 2 + ((outer32 s).length + 20) := by omega
    rw [hidx, nth_back]
  have hframe := ((holds_append [am_iret, back 4 (stack32 s) ((outer32 s).length + 20)] _).mp
    hrow).2
  rw [show [am_iret, back 4 (stack32 s) ((outer32 s).length + 20)].length = 2 from rfl, hnext]
    at hframe
  generalize back 4 (stack32 s) ((outer32 s).length + 20) = tf at hframe ⊢
  match us, hus with
  | [x₀, x₁, x₂, x₃, x₄], _ =>
    have hsaved := save_context32_spec t.sp0 t.cr3
      (if rpl s.cs = 0 then nth 4 tf 20 else s.gpr .esp) hframe (outer32_length s) (by
        by_cases hring : rpl s.cs = 0
        · exact .inr ⟨(and_user_iff s.cs).mpr hring, if_pos hring⟩
        · refine .inl ⟨fun h => hring ((and_user_iff s.cs).mp h), ?_⟩
          rw [if_neg hring, outer32, if_neg hring]
          rfl)
    -- What was saved is the front of what is on the stack.
    have hctx : Holds 4 (save_context32 t.sp0 t.cr3 tf m) tf
        (row32 (context32 s tf t.cr3 ds t.sp0)) :=
      ((holds_append (row32 (context32 s tf t.cr3 ds t.sp0))
        ([BitVec.ofNat 32 irq.1, ec, s.ip, s.cs.setWidth 32, s.flags] ++ outer32 s)).mp hsaved).1
    rw [htrap]
    exact ⟨_, ds, _, hctx, rfl⟩

/-- Every interrupt of kernel or user code is returned from exactly. -/
theorem handle_interrupt32_resumes {user_handler : Handler 32}
    {am_iret entry ret errcode : BitVec 32} {f : CFrame Reg32 32 sizeof_Context32} {s : Cpu32}
    {irq : Nat × Err}
    (hirq : irq ∈ IRQS) (hmode : Mode s.cs)
    (hnull : arg32 (trapped32 am_iret entry s irq errcode) ≠ 0)
    (hsame : Returns32 user_handler (trapped32 am_iret entry s irq errcode)) :
    ∃ s', handle_interrupt32 user_handler am_iret entry ret f s irq errcode = .ok s' ∧
      Resumes s s' := by
  obtain ⟨cr3, ds, esp0, hctx, htf⟩ := handler_call32_holds am_iret entry errcode s
    hirq
  unfold Returns32 at hsame
  generalize htrap : trapped32 am_iret entry s irq errcode = t at hctx htf hnull hsame
  obtain ⟨t', hhandle, hmem⟩ := am_irq_handle32_ok hnull hsame.1
  -- Neither the handler nor the C code below the frame changes the context.
  have hkept : Holds 4 t'.mem (arg32 t) (row32 (context32 s (arg32 t) cr3 ds esp0)) := by
    rw [hmem]
    exact holds_congr hctx hsame.2
  let u := call_am_iret32 f ret (arg32 t) (arg32 t) t'
  have hu : Holds 4 u.mem (arg32 t) (row32 (context32 s (arg32 t) cr3 ds esp0)) := by
    apply holds_congr hkept
    intro k hk
    exact call_am_iret32_above hk
  have harg : arg32 u = arg32 t := call_am_iret32_arg _ _ _ _ _
  have hloaded : Loaded32 (context32 s (arg32 t) cr3 ds esp0) (am_iret32 u) := by
    have hlow : low (s.cs.setWidth 32) = s.cs := low_setWidth (by decide) s.cs
    rcases hmode with hkern | huser
    · have hsp : context32 s (arg32 t) cr3 ds esp0 .esp = nth 4 (arg32 t) (13 + 7) := by
        have hring : rpl s.cs = 0 := by rw [hkern]; decide
        exact if_pos hring
      exact am_iret32_kernel harg hu (hlow.trans hkern) hsp (by decide)
    · apply am_iret32_user harg hu
      show rpl (low (s.cs.setWidth 32)) ≠ 0
      rw [hlow]
      exact huser
  refine ⟨am_iret32 u, ?_, ?_⟩
  · unfold handle_interrupt32
    rw [htrap]
    simp only [hhandle, ok_bind]
    rfl
  · refine ⟨?_, hloaded.ip, hloaded.cs.trans (low_setWidth (by decide) s.cs), hloaded.flags⟩
    have hsp : (if rpl s.cs = 0 then nth 4 (arg32 t) 20 else s.gpr .esp) = s.gpr .esp := by
      by_cases hring : rpl s.cs = 0
      · have hback := nth_back (W := 4) (s.gpr .esp) 20 0
        rw [if_pos hring, htf, stack32, outer32, if_pos hring, if_pos hring]
        rwa [back_zero] at hback
      · exact if_neg hring
    intro r
    rw [hloaded.gpr r]
    cases r with
    | esp => exact hsp
    | _ => rfl

/-! ## Section 4: Kernel contexts -/

/-- The `Context` that `kcontext` builds. -/
def fresh32 (amkcontext_start kstack_end entry arg : BitVec 32) : Context32 → BitVec 32
  | .ds => (KSEL SEG_KDATA).setWidth 32
  | .cs => (KSEL SEG_KCODE).setWidth 32
  | .eip => amkcontext_start
  | .eflags => FL_IF
  | .esp => kstack_end
  | .eax => arg
  | .ebx => entry
  | _ => 0

theorem kcontext32_holds (amkcontext_start kstack_end entry arg : BitVec 32) (m : Memory 32) :
    Holds 4 (kcontext32 amkcontext_start kstack_end entry arg m).2
      (kcontext32 amkcontext_start kstack_end entry arg m).1
      (row32 (fresh32 amkcontext_start kstack_end entry arg)) := by
  have hroom : 4 * 15 ≤ 2 ^ 32 := by decide
  have hin : ∀ f : Context32, f.index < 15 := fun f => by cases f <;> decide
  have h₀ := holds_zero (W := 4) m (kstack_end - BitVec.ofNat 32 sizeof_Context32) hroom
  have h₁ := holds_set_field rfl h₀ (v := (KSEL SEG_KDATA).setWidth 32) (hin .ds) hroom
  have h₂ := holds_set_field rfl h₁ (v := (KSEL SEG_KCODE).setWidth 32) (hin .cs) hroom
  have h₃ := holds_set_field rfl h₂ (v := amkcontext_start) (hin .eip) hroom
  have h₄ := holds_set_field rfl h₃ (v := FL_IF) (hin .eflags) hroom
  have h₅ := holds_set_field rfl h₄ (v := kstack_end) (hin .esp) hroom
  have h₆ := holds_set_field rfl h₅ (v := arg) (hin .eax) hroom
  have h₇ := holds_set_field rfl h₆ (v := entry) (hin .ebx) hroom
  exact h₇

/-- A context from `kcontext` starts at its entry code.  The two words that
    the return moves lie over each other there. -/
theorem kcontext32_starts {amkcontext_start kstack_end entry arg : BitVec 32} {m : Memory 32}
    {s : Cpu32} (harg : arg32 s = (kcontext32 amkcontext_start kstack_end entry arg m).1)
    (hmem : Unchanged sizeof_Context32 (kcontext32 amkcontext_start kstack_end entry arg m).1
      (kcontext32 amkcontext_start kstack_end entry arg m).2 (arg32 s, s.mem)) :
    Starts .eax .ebx .esp amkcontext_start kstack_end entry arg (am_iret32 s) := by
  have hctx := holds_congr (kcontext32_holds amkcontext_start kstack_end entry arg m) hmem.2
  have hsp : fresh32 amkcontext_start kstack_end entry arg .esp =
      nth 4 (kcontext32 amkcontext_start kstack_end entry arg m).1 (13 + 2) := by
    have hback := nth_back (W := 4) kstack_end 15 0
    rw [back_zero] at hback
    exact hback.symm
  have hloaded := am_iret32_kernel harg hctx (low_setWidth (by decide) (KSEL SEG_KCODE)) hsp
    (by decide)
  exact ⟨hloaded.ip, hloaded.gpr .eax, hloaded.gpr .ebx, hloaded.gpr .esp,
    hloaded.cs.trans (low_setWidth (by decide) (KSEL SEG_KCODE)), hloaded.flags⟩

end Am.X86.Cte
