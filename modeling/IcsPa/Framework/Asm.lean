import IcsPa.Framework.Words
import Mathlib.Logic.Function.Basic

/-! # A small assembly language

    Straight-line code over a register file, segment registers and a wrapping
    memory with a stack in it: the instructions that entry and exit code of a
    kernel is made of.  Operands are in the order of the AT&T syntax, source
    before destination; `W` is the size of a word, and `SP` the register that
    points at the top of the stack.

    `Cpu.on_stack` moves the stack pointer and replaces the memory.  A block
    of pushes does nothing else, and a block of pops loads its registers from
    the row of words that the stack holds. -/

open Words

namespace Asm

/-! ## The machine -/

inductive Seg where
  | ds
  | es
  | ss
  deriving DecidableEq, Repr

/-- `ss0` and `sp0` are the stack that a trap from an outer ring switches to. -/
structure Cpu (R : Type) (w : Nat) where
  gpr   : R → BitVec w
  ip    : BitVec w
  flags : BitVec w
  cs    : BitVec 16
  seg   : Seg → BitVec 16
  ss0   : BitVec 16
  sp0   : BitVec w
  cr2   : BitVec w
  cr3   : BitVec w
  mem   : Memory w

/-- The low half word of a register. -/
def low {w : Nat} (v : BitVec w) : BitVec 16 := v.setWidth 16

/-- Replace the low half word. -/
def with_low {w : Nat} (v : BitVec w) (x : BitVec 16) : BitVec w :=
  (v &&& ~~~ (BitVec.ofNat w 0xFFFF)) ||| x.setWidth w

theorem low_setWidth {w : Nat} (hw : 16 ≤ w) (x : BitVec 16) : low (x.setWidth w) = x := by
  ext i hi
  have hlt : i < w := Nat.lt_of_lt_of_le hi hw
  simp [low, hi, hlt, ← BitVec.getLsbD_eq_getElem]

inductive Ins (R : Type) (w : Nat) where
  | cli
  | push (r : R)
  | pushi (v : BitVec w)
  | pop (r : R)
  | addi (v : BitVec w) (r : R)
  | subi (v : BitVec w) (r : R)
  | mov (src dst : R)
  /-- `mov off(base), dst` -/
  | load (off : BitVec w) (base dst : R)
  /-- `mov src, off(base)` -/
  | store (src : R) (off : BitVec w) (base : R)
  | lea (off : BitVec w) (base dst : R)
  | movw_from (src : Seg) (dst : R)
  | movw_imm (v : BitVec 16) (dst : R)
  | movw_to (src : R) (dst : Seg)

/-- The interrupt flag. -/
def FL_IF {w : Nat} : BitVec w := BitVec.ofNat w 0x200

section machine
variable {R : Type} [DecidableEq R] {w : Nat} (W : Nat) (SP : R)

namespace Cpu

def set (s : Cpu R w) (r : R) (v : BitVec w) : Cpu R w :=
  { s with gpr := Function.update s.gpr r v }

def push (s : Cpu R w) (v : BitVec w) : Cpu R w :=
  let a := s.gpr SP - BitVec.ofNat w W
  { s.set SP a with mem := store_word W s.mem a v }

/-- The word at the top of the stack. -/
def top (s : Cpu R w) : BitVec w := word W s.mem (s.gpr SP)

def drop (s : Cpu R w) : Cpu R w := s.set SP (s.gpr SP + BitVec.ofNat w W)

/-- The same with another stack. -/
def on_stack (s : Cpu R w) (a : BitVec w) (m : Memory w) : Cpu R w :=
  { s.set SP a with mem := m }

end Cpu

/-- One instruction.  The flags that arithmetic sets are not modelled. -/
def exec (s : Cpu R w) : Ins R w → Cpu R w
  | .cli => { s with flags := s.flags &&& ~~~ FL_IF }
  | .push r => s.push W SP (s.gpr r)
  | .pushi v => s.push W SP v
  | .pop r => (s.drop W SP).set r (s.top W SP)
  | .addi v r => s.set r (s.gpr r + v)
  | .subi v r => s.set r (s.gpr r - v)
  | .mov src dst => s.set dst (s.gpr src)
  | .load off base dst => s.set dst (word W s.mem (s.gpr base + off))
  | .store src off base => { s with mem := store_word W s.mem (s.gpr base + off) (s.gpr src) }
  | .lea off base dst => s.set dst (s.gpr base + off)
  | .movw_from src dst => s.set dst (with_low (s.gpr dst) (s.seg src))
  | .movw_imm v dst => s.set dst (with_low (s.gpr dst) v)
  | .movw_to src dst => { s with seg := Function.update s.seg dst (low (s.gpr src)) }

def run (is : List (Ins R w)) (s : Cpu R w) : Cpu R w := is.foldl (exec W SP) s

/-- Push words one after the other. -/
def push_words (vs : List (BitVec w)) (s : Cpu R w) : Cpu R w := vs.foldl (Cpu.push W SP) s

/-- Load registers one after the other. -/
def set_all (s : Cpu R w) (rvs : List (R × BitVec w)) : Cpu R w :=
  rvs.foldl (fun s rv => s.set rv.1 rv.2) s

/-! ## Stacks -/

variable {W SP}

@[simp] theorem set_gpr_self (s : Cpu R w) (r : R) (v : BitVec w) : (s.set r v).gpr r = v := by
  simp [Cpu.set]

theorem set_gpr_ne {q r : R} (h : q ≠ r) (s : Cpu R w) (v : BitVec w) :
    (s.set r v).gpr q = s.gpr q := by
  simp [Cpu.set, h]

@[simp] theorem on_stack_sp (s : Cpu R w) (a : BitVec w) (m : Memory w) :
    (s.on_stack SP a m).gpr SP = a := by
  simp [Cpu.on_stack, Cpu.set]

theorem on_stack_gpr {r : R} (hr : r ≠ SP) (s : Cpu R w) (a : BitVec w) (m : Memory w) :
    (s.on_stack SP a m).gpr r = s.gpr r := by
  simp [Cpu.on_stack, Cpu.set, hr]

@[simp] theorem on_stack_mem (s : Cpu R w) (a : BitVec w) (m : Memory w) :
    (s.on_stack SP a m).mem = m := rfl

theorem on_stack_self (s : Cpu R w) : s.on_stack SP (s.gpr SP) s.mem = s := by
  unfold Cpu.on_stack Cpu.set
  rw [Function.update_eq_self]

/-- Loading another register and moving the stack commute. -/
theorem set_on_stack {r : R} (hr : r ≠ SP) (s : Cpu R w) (a v : BitVec w) (m : Memory w) :
    (s.on_stack SP a m).set r v = (s.set r v).on_stack SP a m := by
  simp [Cpu.on_stack, Cpu.set, Function.update_comm hr]

theorem set_sp_on_stack (s : Cpu R w) (a b : BitVec w) (m : Memory w) :
    (s.on_stack SP a m).set SP b = s.on_stack SP b m := by
  simp [Cpu.on_stack, Cpu.set]

theorem push_on_stack (s : Cpu R w) (a v : BitVec w) (m : Memory w) :
    (s.on_stack SP a m).push W SP v =
      s.on_stack SP (back W a 1) (store_word W m (back W a 1) v) := by
  simp [Cpu.push, Cpu.on_stack, Cpu.set, back_one]

theorem exec_addi_sp (s : Cpu R w) (a v : BitVec w) (m : Memory w) :
    exec W SP (s.on_stack SP a m) (.addi v SP) = s.on_stack SP (a + v) m := by
  show (s.on_stack SP a m).set SP ((s.on_stack SP a m).gpr SP + v) = _
  rw [on_stack_sp, set_sp_on_stack]

theorem exec_subi_sp (s : Cpu R w) (a v : BitVec w) (m : Memory w) :
    exec W SP (s.on_stack SP a m) (.subi v SP) = s.on_stack SP (a - v) m := by
  show (s.on_stack SP a m).set SP ((s.on_stack SP a m).gpr SP - v) = _
  rw [on_stack_sp, set_sp_on_stack]

theorem exec_mov_sp {r : R} (hr : r ≠ SP) (s : Cpu R w) (a : BitVec w) (m : Memory w) :
    exec W SP (s.on_stack SP a m) (.mov r SP) = s.on_stack SP (s.gpr r) m := by
  show (s.on_stack SP a m).set SP ((s.on_stack SP a m).gpr r) = _
  rw [on_stack_gpr hr, set_sp_on_stack]

theorem exec_mov_from_sp {r : R} (hr : r ≠ SP) (s : Cpu R w) (a : BitVec w) (m : Memory w) :
    exec W SP (s.on_stack SP a m) (.mov SP r) = (s.set r a).on_stack SP a m := by
  show (s.on_stack SP a m).set r ((s.on_stack SP a m).gpr SP) = _
  rw [on_stack_sp, set_on_stack hr]

theorem exec_lea_sp {b : R} (hb : b ≠ SP) (s : Cpu R w) (a off : BitVec w) (m : Memory w) :
    exec W SP (s.on_stack SP a m) (.lea off b SP) = s.on_stack SP (s.gpr b + off) m := by
  show (s.on_stack SP a m).set SP ((s.on_stack SP a m).gpr b + off) = _
  rw [on_stack_gpr hb, set_sp_on_stack]

theorem exec_load {b r : R} (hb : b ≠ SP) (hr : r ≠ SP) (s : Cpu R w) (a off : BitVec w)
    (m : Memory w) :
    exec W SP (s.on_stack SP a m) (.load off b r) =
      (s.set r (word W m (s.gpr b + off))).on_stack SP a m := by
  show (s.on_stack SP a m).set r (word W m ((s.on_stack SP a m).gpr b + off)) = _
  rw [on_stack_gpr hb, set_on_stack hr]

theorem exec_load_sp {r : R} (hr : r ≠ SP) (s : Cpu R w) (a off : BitVec w) (m : Memory w) :
    exec W SP (s.on_stack SP a m) (.load off SP r) =
      (s.set r (word W m (a + off))).on_stack SP a m := by
  show (s.on_stack SP a m).set r (word W m ((s.on_stack SP a m).gpr SP + off)) = _
  rw [on_stack_sp, set_on_stack hr]

theorem exec_store {b r : R} (hb : b ≠ SP) (hr : r ≠ SP) (s : Cpu R w) (a off : BitVec w)
    (m : Memory w) :
    exec W SP (s.on_stack SP a m) (.store r off b) =
      s.on_stack SP a (store_word W m (s.gpr b + off) (s.gpr r)) := by
  show { s.on_stack SP a m with
    mem := store_word W m ((s.on_stack SP a m).gpr b + off) ((s.on_stack SP a m).gpr r) } = _
  rw [on_stack_gpr hb, on_stack_gpr hr]
  rfl

theorem exec_pop {r : R} (hr : r ≠ SP) (s : Cpu R w) (a : BitVec w) (m : Memory w) :
    exec W SP (s.on_stack SP a m) (.pop r) =
      (s.set r (word W m a)).on_stack SP (nth W a 1) m := by
  have hnext : nth W a 1 = a + BitVec.ofNat w W := by rw [nth_succ, nth_zero]
  show ((s.on_stack SP a m).drop W SP).set r ((s.on_stack SP a m).top W SP) = _
  unfold Cpu.drop Cpu.top
  rw [on_stack_sp, on_stack_mem, set_sp_on_stack, set_on_stack hr, hnext]

theorem exec_movw_to {r : R} (hr : r ≠ SP) (s : Cpu R w) (a : BitVec w) (m : Memory w) (d : Seg) :
    exec W SP (s.on_stack SP a m) (.movw_to r d) =
      { s with seg := Function.update s.seg d (low (s.gpr r)) }.on_stack SP a m := by
  show { s.on_stack SP a m with
    seg := Function.update s.seg d (low ((s.on_stack SP a m).gpr r)) } = _
  rw [on_stack_gpr hr]
  rfl

theorem run_append (is js : List (Ins R w)) (s : Cpu R w) :
    run W SP (is ++ js) s = run W SP js (run W SP is s) := List.foldl_append

theorem push_words_append (us vs : List (BitVec w)) (s : Cpu R w) :
    push_words W SP (us ++ vs) s = push_words W SP vs (push_words W SP us s) := List.foldl_append

theorem run_cons (i : Ins R w) (is : List (Ins R w)) (s : Cpu R w) :
    run W SP (i :: is) s = run W SP is (exec W SP s i) := rfl

@[simp] theorem run_nil (s : Cpu R w) : run W SP [] s = s := rfl

/-! ## Rows on the stack -/

/-- `s` is `t` with a stack at `a`, on which the row `ws` stands. -/
def Stacked (W : Nat) (SP : R) (s t : Cpu R w) (a : BitVec w) (ws : List (BitVec w)) : Prop :=
  ∃ m, s = t.on_stack SP a m ∧ Holds W m a ws

theorem stacked_self {s : Cpu R w} : Stacked W SP s s (s.gpr SP) [] :=
  ⟨s.mem, (on_stack_self s).symm, holds_nil s.mem (s.gpr SP)⟩

theorem stacked_push (hw : w = 8 * W) {s t : Cpu R w} {a v : BitVec w} {ws : List (BitVec w)}
    (h : Stacked W SP s t a ws) (hroom : W * (ws.length + 1) ≤ 2 ^ w) :
    Stacked W SP (s.push W SP v) t (back W a 1) (v :: ws) := by
  obtain ⟨m, rfl, hrow⟩ := h
  exact ⟨_, push_on_stack t a v m, holds_push hw hrow hroom⟩

theorem stacked_push_reg (hw : w = 8 * W) {r : R} (hr : r ≠ SP) {s t : Cpu R w} {a : BitVec w}
    {ws : List (BitVec w)} (h : Stacked W SP s t a ws) (hroom : W * (ws.length + 1) ≤ 2 ^ w) :
    Stacked W SP (exec W SP s (.push r)) t (back W a 1) (t.gpr r :: ws) := by
  have hgpr : s.gpr r = t.gpr r := by
    obtain ⟨m, rfl, -⟩ := h
    exact on_stack_gpr hr t a m
  show Stacked W SP (s.push W SP (s.gpr r)) t (back W a 1) (t.gpr r :: ws)
  rw [hgpr]
  exact stacked_push hw h hroom

theorem stacked_push_sp (hw : w = 8 * W) {s t : Cpu R w} {a : BitVec w} {ws : List (BitVec w)}
    (h : Stacked W SP s t a ws) (hroom : W * (ws.length + 1) ≤ 2 ^ w) :
    Stacked W SP (exec W SP s (.push SP)) t (back W a 1) (a :: ws) := by
  have hgpr : s.gpr SP = a := by
    obtain ⟨m, rfl, -⟩ := h
    exact on_stack_sp t a m
  show Stacked W SP (s.push W SP (s.gpr SP)) t (back W a 1) (a :: ws)
  rw [hgpr]
  exact stacked_push hw h hroom

/-- Room on the stack, in which anything may stand. -/
theorem stacked_reserve {n : Nat} {s t : Cpu R w} {a : BitVec w} {ws : List (BitVec w)}
    (h : Stacked W SP s t a ws) :
    ∃ us : List (BitVec w), us.length = n ∧
      Stacked W SP (exec W SP s (.subi (BitVec.ofNat w (W * n)) SP)) t (back W a n)
        (us ++ ws) := by
  obtain ⟨m, rfl, hrow⟩ := h
  obtain ⟨us, hus, hall⟩ := holds_reserve hrow n
  exact ⟨us, hus, m, exec_subi_sp t a _ m, hall⟩

/-- Changes that do not touch the stack. -/
theorem stacked_map {s t t' : Cpu R w} {i : Ins R w} {a : BitVec w} {ws : List (BitVec w)}
    (h : Stacked W SP s t a ws)
    (hexec : ∀ m, exec W SP (t.on_stack SP a m) i = t'.on_stack SP a m) :
    Stacked W SP (exec W SP s i) t' a ws := by
  obtain ⟨m, rfl, hrow⟩ := h
  exact ⟨m, hexec m, hrow⟩

theorem stacked_cli {s t : Cpu R w} {a : BitVec w} {ws : List (BitVec w)}
    (h : Stacked W SP s t a ws) :
    Stacked W SP (exec W SP s .cli) { t with flags := t.flags &&& ~~~ FL_IF } a ws :=
  stacked_map h fun _ => rfl

theorem stacked_movw_from {r : R} (hr : r ≠ SP) {s t : Cpu R w} {a : BitVec w} {d : Seg}
    {ws : List (BitVec w)} (h : Stacked W SP s t a ws) :
    Stacked W SP (exec W SP s (.movw_from d r)) (t.set r (with_low (t.gpr r) (t.seg d))) a ws := by
  apply stacked_map h
  intro m
  show (t.on_stack SP a m).set r (with_low ((t.on_stack SP a m).gpr r) (t.seg d)) = _
  rw [on_stack_gpr hr, set_on_stack hr]

theorem stacked_movw_imm {r : R} (hr : r ≠ SP) {s t : Cpu R w} {a : BitVec w} {v : BitVec 16}
    {ws : List (BitVec w)} (h : Stacked W SP s t a ws) :
    Stacked W SP (exec W SP s (.movw_imm v r)) (t.set r (with_low (t.gpr r) v)) a ws := by
  apply stacked_map h
  intro m
  show (t.on_stack SP a m).set r (with_low ((t.on_stack SP a m).gpr r) v) = _
  rw [on_stack_gpr hr, set_on_stack hr]

theorem stacked_movw_to {r : R} (hr : r ≠ SP) {s t : Cpu R w} {a : BitVec w} {d : Seg}
    {ws : List (BitVec w)} (h : Stacked W SP s t a ws) :
    Stacked W SP (exec W SP s (.movw_to r d))
      { t with seg := Function.update t.seg d (low (t.gpr r)) } a ws :=
  stacked_map h fun m => exec_movw_to hr t a m d

/-- A row of pushes: the last word is on top. -/
theorem stacked_push_words (hw : w = 8 * W) (vs : List (BitVec w)) {s t : Cpu R w} {a : BitVec w}
    {ws : List (BitVec w)} (h : Stacked W SP s t a ws)
    (hroom : W * (vs.length + ws.length) ≤ 2 ^ w) :
    Stacked W SP (push_words W SP vs s) t (back W a vs.length) (vs.reverse ++ ws) := by
  induction vs generalizing s a ws with
  | nil =>
    rw [List.length_nil, back_zero]
    exact h
  | cons v vs ih =>
    have hlen : W * (ws.length + 1) ≤ W * ((v :: vs).length + ws.length) :=
      Nat.mul_le_mul_left W (by rw [List.length_cons]; omega)
    have hpush := stacked_push hw (v := v) h (Nat.le_trans hlen hroom)
    have hless : W * (vs.length + (v :: ws).length) ≤ 2 ^ w := by
      rw [List.length_cons] at hroom ⊢
      rwa [Nat.add_right_comm, Nat.add_assoc] at hroom
    have hrest := ih hpush hless
    rw [back_back, Nat.add_comm 1] at hrest
    rw [List.reverse_cons, List.append_assoc]
    exact hrest

/-- A block of pushes of registers. -/
theorem stacked_pushes (hw : w = 8 * W) {rs : List R} (hrs : SP ∉ rs) {s t : Cpu R w}
    {a : BitVec w} {ws : List (BitVec w)} (h : Stacked W SP s t a ws)
    (hroom : W * (rs.length + ws.length) ≤ 2 ^ w) :
    Stacked W SP (run W SP (rs.map .push) s) t (back W a rs.length)
      ((rs.map t.gpr).reverse ++ ws) := by
  induction rs generalizing s a ws with
  | nil =>
    rw [List.length_nil, back_zero]
    exact h
  | cons r rs ih =>
    have hr : r ≠ SP := fun he => hrs (by rw [he]; exact List.mem_cons_self)
    have hlen : W * (ws.length + 1) ≤ W * ((r :: rs).length + ws.length) :=
      Nat.mul_le_mul_left W (by rw [List.length_cons]; omega)
    have hpush := stacked_push_reg hw hr h (Nat.le_trans hlen hroom)
    have hless : W * (rs.length + (t.gpr r :: ws).length) ≤ 2 ^ w := by
      rw [List.length_cons] at hroom ⊢
      rwa [Nat.add_right_comm, Nat.add_assoc] at hroom
    have hrest := ih (fun hmem => hrs (List.mem_cons_of_mem r hmem)) hpush hless
    rw [back_back, Nat.add_comm 1] at hrest
    rw [List.map_cons, List.map_cons, List.reverse_cons, List.append_assoc]
    exact hrest

/-- A block of pops loads its registers with the words on the stack. -/
theorem run_pops {rs : List R} (hrs : SP ∉ rs) {s : Cpu R w} {a : BitVec w} {m : Memory w}
    {vs ws : List (BitVec w)} (hlen : vs.length = rs.length) (h : Holds W m a (vs ++ ws)) :
    run W SP (rs.map .pop) (s.on_stack SP a m) =
        (set_all s (rs.zip vs)).on_stack SP (nth W a rs.length) m ∧
      Holds W m (nth W a rs.length) ws := by
  induction rs generalizing s a vs with
  | nil =>
    obtain rfl := List.length_eq_zero_iff.mp hlen
    rw [List.length_nil, nth_zero]
    exact ⟨rfl, h⟩
  | cons r rs ih =>
    obtain ⟨v, vs, rfl⟩ := List.exists_cons_of_length_eq_add_one hlen
    obtain ⟨hv, hrest⟩ := holds_cons.mp h
    have hr : r ≠ SP := fun he => hrs (by rw [he]; exact List.mem_cons_self)
    have hnext : nth W a 1 = a + BitVec.ofNat w W := by rw [nth_succ, nth_zero]
    rw [List.map_cons, run_cons, exec_pop hr, hv, hnext, List.length_cons, nth_succ]
    exact ih (fun hmem => hrs (List.mem_cons_of_mem r hmem)) (Nat.succ.inj hlen) hrest

end machine

end Asm
