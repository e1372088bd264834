import IcsPa.Nemu.Expr.Tokens
import IcsPa.Nemu.X86.RtlSpec
import Mathlib.Tactic.FinCases

/-! # The registers in memory

    `x86_CPU_state` holds the general registers once, and gives three views of
    them: the array of unions `gpr` behind `reg_l`, `reg_w` and `reg_b`, the
    struct of the named registers that overlays it, and the name tables of
    `isa_reg_str2val`.

    A write through RTL changes some bytes of the union.  Every view then
    reads the parts of one register file of eight words. -/

open CCall Bytes I386

namespace Nemu.X86

open Nemu.Expr (regsl regsw regsb)

/-! ## Section 1: `x86_CPU_state` -/

/-- `regs` are the bytes of the union at the start of `cpu`. -/
structure Cpu where
  regs : Store
  pc   : BitVec 32

/-- `sizeof(gpr[0])`: its largest member is `_32`. -/
def sizeof_gpr : Nat := 4

/-- `&cpu.gpr[i]`; the members `_32` and `_16` and the array `_8` start there. -/
def gpr_at (i : Nat) : Nat := i * sizeof_gpr

def Cpu.gpr_32 (cpu : Cpu) (i : Nat) : BitVec 32 := BitVec.ofNat 32 (load cpu.regs (gpr_at i) 4)
def Cpu.gpr_16 (cpu : Cpu) (i : Nat) : BitVec 32 := BitVec.ofNat 32 (load cpu.regs (gpr_at i) 2)

/-- `cpu.gpr[i]._8[k]` -/
def Cpu.gpr_8 (cpu : Cpu) (i k : Nat) : BitVec 32 :=
  BitVec.ofNat 32 (load cpu.regs (gpr_at i + k) 1)

/-- The members of the struct, in its order. -/
inductive NamedReg where
  | eax
  | ecx
  | edx
  | ebx
  | esp
  | ebp
  | esi
  | edi
  deriving DecidableEq, Repr

/-- `sizeof(rtlreg_t)` -/
def sizeof_rtlreg : Nat := 4

def NamedReg.offset (f : NamedReg) : Nat := f.ctorIdx * sizeof_rtlreg

/-- `cpu.eax` to `cpu.edi`. -/
def Cpu.named (cpu : Cpu) (f : NamedReg) : BitVec 32 :=
  BitVec.ofNat 32 (load cpu.regs f.offset sizeof_rtlreg)

/-! ## Section 2: Reading and writing -/

/-- `*(uintN_t *)addr` for the pointers that RTL instructions get. -/
def rtl_host_lm (cpu : Cpu) (addr len : Nat) : Except Fault (BitVec 32) := do
  cassert (decide (len = 4 ∨ len = 1 ∨ len = 2))
  return BitVec.ofNat 32 (load cpu.regs addr len)

def rtl_host_sm (cpu : Cpu) (addr : Nat) (v : BitVec 32) (len : Nat) : Except Fault Cpu := do
  cassert (decide (len = 4 ∨ len = 1 ∨ len = 2))
  return { cpu with regs := store cpu.regs addr v.toNat len }

/-- `&reg_b(index)` -/
def reg_b_at (i : Fin 8) : Nat := gpr_at (i &&& 3).val + (i.val >>> 2)

/-- What `rtl_lr` puts into its destination. -/
def Cpu.rtl_lr (cpu : Cpu) (r width : Nat) : Except Fault (BitVec 32) :=
  match width with
  | 4 => do
      let i ← check_reg_index r
      return cpu.gpr_32 i
  | 1 => do
      let i ← check_reg_index r
      rtl_host_lm cpu (reg_b_at i) 1
  | 2 => do
      let i ← check_reg_index r
      rtl_host_lm cpu (gpr_at i) 2
  | _ => .error .assertion

/-- `rtl_sr` with the value `v` of its source; the `rtl_mv` of width 4 writes a
    whole `_32`. -/
def Cpu.rtl_sr (cpu : Cpu) (r : Nat) (v : BitVec 32) (width : Nat) : Except Fault Cpu :=
  match width with
  | 4 => do
      let i ← check_reg_index r
      return { cpu with regs := store cpu.regs (gpr_at i) v.toNat 4 }
  | 1 => do
      let i ← check_reg_index r
      rtl_host_sm cpu (reg_b_at i) v 1
  | 2 => do
      let i ← check_reg_index r
      rtl_host_sm cpu (gpr_at i) v 2
  | _ => .error .assertion

/-- `reg_name(index, width)` -/
def reg_name (index width : Nat) : Except Fault (List Char) := do
  cassert (decide (index < 8))
  match width with
  | 4 => return regsl.getD index []
  | 1 => return regsb.getD index []
  | 2 => return regsw.getD index []
  | _ => .error .assertion

/-- One round of the loop of `isa_reg_str2val`. -/
def Cpu.match_reg (cpu : Cpu) (s_dup : List Char) (i : Nat) : Option (BitVec 32) :=
  if s_dup = regsl.getD i [] then some (cpu.gpr_32 i)
  else if s_dup = regsw.getD i [] then some (cpu.gpr_16 i)
  else if s_dup = regsb.getD i [] then some (cpu.gpr_8 (i % 4) (i / 4))
  else none

/-- `none` is `*success = false`. -/
def Cpu.isa_reg_str2val (cpu : Cpu) (s : List Char) : Option (BitVec 32) :=
  let s_dup := s.map Char.toLower
  if s_dup = ['p', 'c'] then some cpu.pc
  else (List.range 8).findSome? (cpu.match_reg s_dup)

/-! ## Section 3: The register file -/

/-- The registers as eight words. -/
def Cpu.file (cpu : Cpu) : Gprs := fun r => word cpu.regs (gpr_at r)

/-- The bytes of a part of a register. -/
theorem load_part (cpu : Cpu) {w : Nat} (hw : w = 1 ∨ w = 2 ∨ w = 4) (r : Fin 8) :
    BitVec.ofNat 32 (load cpu.regs (gpr_at (home w r) + first_bit w r / 8) w) =
      cpu.file.part w r := by
  have hfit := part_inside hw r
  have hbyte : 8 * (first_bit w r / 8) = first_bit w r := by
    unfold first_bit
    split <;> rfl
  rw [load_in_word _ _ (by omega), hbyte]
  rfl

/-- Storing there replaces the part. -/
theorem store_part (cpu : Cpu) {w : Nat} (hw : w = 1 ∨ w = 2 ∨ w = 4) (r : Fin 8)
    (v : BitVec 32) :
    ({ cpu with regs := store cpu.regs (gpr_at (home w r) + first_bit w r / 8) v.toNat w } :
      Cpu).file = cpu.file.set_part w r v := by
  have hfit := part_inside hw r
  have hbyte : 8 * (first_bit w r / 8) = first_bit w r := by
    unfold first_bit
    split <;> rfl
  -- The word that has the part, and the others, whose bytes are elsewhere.
  funext q
  unfold Gprs.set_part
  by_cases hq : q = home w r
  · subst hq
    rw [Function.update_self]
    show word (store cpu.regs _ _ _) _ = _
    rw [word_store _ _ _ (by omega), hbyte, BitVec.ofNat_toNat, BitVec.setWidth_eq]
    rfl
  · rw [Function.update_of_ne hq]
    have hne : q.val ≠ (home w r).val := fun h => hq (Fin.ext h)
    have hapart : gpr_at q + 4 ≤ gpr_at (home w r) + first_bit w r / 8 ∨
        gpr_at (home w r) + first_bit w r / 8 + w ≤ gpr_at q := by
      unfold gpr_at sizeof_gpr
      omega
    exact word_store_disjoint hapart

/-- Where the bytes of a part are, for each of the widths. -/
theorem part_at_word (r : Fin 8) : gpr_at (home 4 r) + first_bit 4 r / 8 = gpr_at r := by
  revert r
  decide

theorem part_at_half (r : Fin 8) : gpr_at (home 2 r) + first_bit 2 r / 8 = gpr_at r := by
  revert r
  decide

theorem part_at_byte (r : Fin 8) : gpr_at (home 1 r) + first_bit 1 r / 8 = reg_b_at r := by
  revert r
  decide

theorem check_reg_index_fin (r : Fin 8) : check_reg_index r.val = .ok r := dif_pos r.isLt

/-- `rtl_lr` reads a part. -/
theorem Cpu.rtl_lr_eq (cpu : Cpu) (r : Fin 8) {w : Nat} (hw : w = 1 ∨ w = 2 ∨ w = 4) :
    cpu.rtl_lr r w = .ok (cpu.file.part w r) := by
  -- One case for each `switch` label of the width.
  rw [← load_part cpu hw r]
  rcases hw with rfl | rfl | rfl
  · rw [Cpu.rtl_lr, check_reg_index_fin, part_at_byte]
    rfl
  · rw [Cpu.rtl_lr, check_reg_index_fin, part_at_half]
    rfl
  · rw [Cpu.rtl_lr, check_reg_index_fin, part_at_word]
    rfl

/-- Step lemma: `rtl_sr` replaces a part. -/
theorem Cpu.rtl_sr_eq (cpu : Cpu) (r : Fin 8) (v : BitVec 32) {w : Nat}
    (hw : w = 1 ∨ w = 2 ∨ w = 4) :
    ∃ cpu', cpu.rtl_sr r v w = .ok cpu' ∧ cpu'.file = cpu.file.set_part w r v ∧
      cpu'.pc = cpu.pc := by
  let cpu' : Cpu :=
    { cpu with regs := store cpu.regs (gpr_at (home w r) + first_bit w r / 8) v.toNat w }
  refine ⟨cpu', ?_, store_part cpu hw r v, rfl⟩
  show _ = Except.ok ({ cpu with
    regs := store cpu.regs (gpr_at (home w r) + first_bit w r / 8) v.toNat w } : Cpu)
  rcases hw with rfl | rfl | rfl
  · rw [Cpu.rtl_sr, check_reg_index_fin, part_at_byte]
    rfl
  · rw [Cpu.rtl_sr, check_reg_index_fin, part_at_half]
    rfl
  · rw [Cpu.rtl_sr, check_reg_index_fin, part_at_word]
    rfl

/-- The named registers are the words of the file, in its order. -/
theorem Cpu.named_eq (cpu : Cpu) (f : NamedReg) :
    cpu.named f = cpu.file ⟨f.ctorIdx, by cases f <;> decide⟩ := rfl

/-- The union refines the words of the RTL model. -/
theorem Cpu.rtl_sr_refines {D : Type} {s : State D} {cpu : Cpu} (h : s.gpr = cpu.file) (r : Fin 8)
    (p : Ptr) {w : Nat} (hw : w = 1 ∨ w = 2 ∨ w = 4) :
    ∃ s' cpu', X86.rtl_sr r p w s = .ok s' ∧ cpu.rtl_sr r (s.get p) w = .ok cpu' ∧
      s'.gpr = cpu'.file := by
  obtain ⟨cpu', hstep, hfile, -⟩ := cpu.rtl_sr_eq r (s.get p) hw
  refine ⟨_, cpu', X86.rtl_sr_eq r p hw s, hstep, ?_⟩
  rw [hfile, ← h]
  rfl

/-! ## Section 4: Names -/

/-- The name of register `r` of width `w`. -/
def name_of (w : Nat) (r : Fin 8) : List Char :=
  if w = 4 then regsl.getD r [] else if w = 2 then regsw.getD r [] else regsb.getD r []

theorem reg_name_eq (r : Fin 8) {w : Nat} (hw : w = 1 ∨ w = 2 ∨ w = 4) :
    reg_name r w = .ok (name_of w r) := by
  have hlt : decide (r.val < 8) = true := decide_eq_true r.isLt
  rcases hw with rfl | rfl | rfl <;> (rw [reg_name, hlt]; rfl)

/-- The loop finds the register that has the name, and no other before it. -/
theorem Cpu.find_name (cpu : Cpu) (r : Fin 8) {w : Nat} (hw : w = 1 ∨ w = 2 ∨ w = 4) :
    (List.range 8).findSome? (cpu.match_reg (name_of w r)) =
      some (BitVec.ofNat 32 (load cpu.regs (gpr_at (home w r) + first_bit w r / 8) w)) := by
  rcases hw with rfl | rfl | rfl
  · rw [part_at_byte]
    -- The loop of eight rounds is run for each name.
    fin_cases r <;> rfl
  · rw [part_at_half]
    fin_cases r <;> rfl
  · rw [part_at_word]
    fin_cases r <;> rfl

theorem name_ne_pc (r : Fin 8) {w : Nat} (hw : w = 1 ∨ w = 2 ∨ w = 4) :
    name_of w r ≠ ['p', 'c'] := by
  rcases hw with rfl | rfl | rfl
  · fin_cases r <;> decide
  · fin_cases r <;> decide
  · fin_cases r <;> decide

/-- A name in any letter case gives the part it names. -/
theorem Cpu.str2val_eq (cpu : Cpu) (r : Fin 8) {w : Nat} (hw : w = 1 ∨ w = 2 ∨ w = 4)
    {s : List Char} (hs : reg_name r w = .ok (s.map Char.toLower)) :
    cpu.isa_reg_str2val s = some (cpu.file.part w r) := by
  have hname : s.map Char.toLower = name_of w r := by
    rw [reg_name_eq r hw] at hs
    exact (Except.ok.inj hs).symm
  rw [Cpu.isa_reg_str2val, hname, if_neg (name_ne_pc r hw), cpu.find_name r hw, load_part cpu hw r]

/-! ## Section 5: Runs of writes -/

/-- A call of `rtl_sr` with a register number and a width of the i386. -/
structure SrWrite where
  r     : Fin 8
  v     : BitVec 32
  w     : Nat
  width : w = 1 ∨ w = 2 ∨ w = 4

def Cpu.sr_writes (cpu : Cpu) (ws : List SrWrite) : Except Fault Cpu :=
  ws.foldlM (fun cpu x => cpu.rtl_sr x.r x.v x.w) cpu

/-- The register file after the writes. -/
def file_after (g : Gprs) (ws : List SrWrite) : Gprs :=
  ws.foldl (fun g x => g.set_part x.w x.r x.v) g

/-- Run lemma. -/
theorem Cpu.sr_writes_eq (cpu : Cpu) (ws : List SrWrite) :
    ∃ cpu', cpu.sr_writes ws = .ok cpu' ∧ cpu'.file = file_after cpu.file ws ∧
      cpu'.pc = cpu.pc := by
  induction ws generalizing cpu with
  | nil => exact ⟨cpu, rfl, rfl, rfl⟩
  | cons x ws ih =>
    obtain ⟨cpu₁, hstep, hfile, hpc⟩ := cpu.rtl_sr_eq x.r x.v x.width
    obtain ⟨cpu', hrun, hfile', hpc'⟩ := ih cpu₁
    refine ⟨cpu', ?_, ?_, hpc'.trans hpc⟩
    · show (cpu.rtl_sr x.r x.v x.w >>= fun cpu => cpu.sr_writes ws) = _
      rw [hstep]
      exact hrun
    · rw [hfile', hfile]
      rfl

/-- After any writes the three views agree with the register file. -/
theorem views_agree (cpu : Cpu) (ws : List SrWrite) :
    ∃ cpu', cpu.sr_writes ws = .ok cpu' ∧
      (∀ (r : Fin 8) (w : Nat), w = 1 ∨ w = 2 ∨ w = 4 →
        cpu'.rtl_lr r w = .ok ((file_after cpu.file ws).part w r) ∧
        ∀ s, reg_name r w = .ok (s.map Char.toLower) →
          cpu'.isa_reg_str2val s = some ((file_after cpu.file ws).part w r)) ∧
      ∀ f : NamedReg, cpu'.named f = file_after cpu.file ws ⟨f.ctorIdx, by cases f <;> decide⟩ := by
  obtain ⟨cpu', hrun, hfile, -⟩ := cpu.sr_writes_eq ws
  -- Every view is a function of the register file.
  rw [← hfile]
  refine ⟨cpu', hrun, ?_, cpu'.named_eq⟩
  intro r w hw
  exact ⟨cpu'.rtl_lr_eq r hw, fun s hs => cpu'.str2val_eq r hw hs⟩

/-- Writes of every width to `eax` and its parts, and one to another register. -/
def eax_writes : List SrWrite :=
  [⟨R_EAX, 0x12345678, 4, .inr (.inr rfl)⟩, ⟨R_AX, 0xabcd, 2, .inr (.inl rfl)⟩,
    ⟨R_ECX, 0x55, 4, .inr (.inr rfl)⟩, ⟨R_AH, 0x99, 1, .inl rfl⟩, ⟨R_AL, 0x1ef, 1, .inl rfl⟩]

/-- A part keeps what was written to the others. -/
theorem views_agree_eax :
    ∃ cpu', (Cpu.mk (fun _ => 0) 0).sr_writes eax_writes = .ok cpu' ∧
      cpu'.rtl_lr R_EAX 4 = .ok 0x123499ef ∧ cpu'.rtl_lr R_AH 1 = .ok 0x99 ∧
      cpu'.isa_reg_str2val ['a', 'X'] = some 0x99ef ∧
      cpu'.isa_reg_str2val ['E', 'c', 'x'] = some 0x55 ∧ cpu'.named .eax = 0x123499ef := by
  obtain ⟨cpu', hrun, hparts, hnamed⟩ := views_agree (Cpu.mk (fun _ => 0) 0) eax_writes
  refine ⟨cpu', hrun, ?_, ?_, ?_, ?_, ?_⟩
  · rw [(hparts R_EAX 4 (.inr (.inr rfl))).1]
    rfl
  · rw [(hparts R_AH 1 (.inl rfl)).1]
    rfl
  · rw [(hparts R_AX 2 (.inr (.inl rfl))).2 ['a', 'X'] rfl]
    rfl
  · rw [(hparts R_ECX 4 (.inr (.inr rfl))).2 ['E', 'c', 'x'] rfl]
    rfl
  · rw [hnamed]
    rfl

end Nemu.X86
