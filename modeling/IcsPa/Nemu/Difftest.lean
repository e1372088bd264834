import IcsPa.Nemu.Common
import Mathlib.Algebra.BigOperators.Group.List.Basic
import Mathlib.Data.List.Induction

/-! # The differential-testing driver

    `src/monitor/difftest/dut.c`.  While an instruction executes it may ask
    for its own check to be skipped (`difftest_skip_ref`) or open a window in
    which NEMU catches up with the reference (`difftest_skip_dut`); after it,
    `difftest_step` runs and compares the reference, or skips.

    The reference is behind four function pointers and is a parameter here,
    as is the register comparison of the ISA.  The window is an `int` of 32
    bits; a sum of windows that is too large is taken to wrap. -/

open CCall

namespace Nemu.Difftest

/-! ## Section 1: The driver -/

/-- The functions loaded from `ref_so_file` and the check of the ISA, over
    registers `R` and states `Q` of the reference.  `ref_difftest_exec` is
    only ever called with 1. -/
structure RefDesign (R Q : Type) where
  ref_difftest_getregs   : Q → R
  ref_difftest_setregs   : R → Q → Q
  ref_difftest_exec      : Q → Q
  pc                     : R → Nat
  isa_difftest_checkregs : R → R → Nat → Bool

/-- The functions behave as they are named. -/
structure RefDesign.Lawful {R Q : Type} (D : RefDesign R Q) : Prop where
  getregs_setregs : ∀ c q, D.ref_difftest_getregs (D.ref_difftest_setregs c q) = c
  checkregs_eq    : ∀ r c pc, D.isa_difftest_checkregs r c pc = true → r = c

/-- The static variables of the file, the state behind the pointers, and
    `nemu_state`. -/
structure Driver (Q : Type) where
  is_skip_ref       : Bool
  skip_dut_nr_instr : Int32
  ref               : Q
  nemu_state        : NEMUState

inductive SkipCall where
  | skip_ref
  | skip_dut (nr_ref nr_dut : Int32)
  deriving DecidableEq, Repr

section driver
variable {R Q : Type} (D : RefDesign R Q)

def difftest_skip_ref (s : Driver Q) : Driver Q :=
  { s with is_skip_ref := true, skip_dut_nr_instr := 0 }

def difftest_skip_dut (nr_ref nr_dut : Int32) (s : Driver Q) : Driver Q :=
  { s with
    skip_dut_nr_instr := s.skip_dut_nr_instr + nr_dut
    ref := D.ref_difftest_exec^[nr_ref.toInt.toNat] s.ref }

/-- `cpu` is the global variable the ISA's check reads. -/
def checkregs (ref_r cpu : R) (pc : Nat) (s : NEMUState) : NEMUState :=
  if D.isa_difftest_checkregs ref_r cpu pc then s
  else { s with state := .NEMU_ABORT, halt_pc := pc }

def difftest_step (cpu : R) (this_pc next_pc : Nat) (s : Driver Q) : Except Fault (Driver Q) :=
  if s.skip_dut_nr_instr > 0 then
    let ref_r := D.ref_difftest_getregs s.ref
    if D.pc ref_r = next_pc then
      .ok { s with
        nemu_state := checkregs D ref_r cpu next_pc s.nemu_state
        skip_dut_nr_instr := 0 }
    else
      let s := { s with skip_dut_nr_instr := s.skip_dut_nr_instr - 1 }
      if s.skip_dut_nr_instr = 0 then .error .assertion else .ok s
  else if s.is_skip_ref then
    .ok { s with ref := D.ref_difftest_setregs cpu s.ref, is_skip_ref := false }
  else
    let ref := D.ref_difftest_exec s.ref
    let ref_r := D.ref_difftest_getregs ref
    .ok { s with ref := ref, nemu_state := checkregs D ref_r cpu this_pc s.nemu_state }

/-- One call made while an instruction executes. -/
def SkipCall.run (s : Driver Q) : SkipCall → Driver Q
  | skip_ref => difftest_skip_ref s
  | skip_dut nr_ref nr_dut => difftest_skip_dut D nr_ref nr_dut s

/-- What the driver sees of one instruction: the calls it makes, the registers
    and `nemu_state` it leaves, and the arguments of the step after it. -/
structure Instr (R : Type) where
  calls      : List SkipCall
  cpu        : R
  nemu_state : NEMUState
  this_pc    : Nat
  next_pc    : Nat

/-- The driver after the calls of an instruction. -/
def Driver.calls (s : Driver Q) (i : Instr R) : Driver Q :=
  { i.calls.foldl (SkipCall.run D) s with nemu_state := i.nemu_state }

def exec_instr (s : Driver Q) (i : Instr R) : Except Fault (Driver Q) :=
  difftest_step D i.cpu i.this_pc i.next_pc (s.calls D i)

/-- A sequence of instructions; it ends when the driver panics. -/
def run (s : Driver Q) : List (Instr R) → Except Fault (Driver Q)
  | [] => .ok s
  | i :: is => exec_instr D s i >>= fun s => run s is

/-- The driver before the first instruction. -/
def initDriver (ref : Q) (st : NEMUState) : Driver Q :=
  { is_skip_ref := false, skip_dut_nr_instr := 0, ref := ref, nemu_state := st }

/-! ## Section 2: The calls of one instruction -/

/-- How far the call moves the end of the catch-up window. -/
def SkipCall.nr_dut : SkipCall → Int32
  | skip_ref => 0
  | skip_dut _ nr_dut => nr_dut

/-- The calls after the last `skip_ref`. -/
def afterSkipRef (cs : List SkipCall) : List SkipCall :=
  (cs.reverse.takeWhile (· ≠ .skip_ref)).reverse

/-- The instruction asks to skip its own check and then opens a window. -/
def RefThenDut (cs : List SkipCall) : Prop :=
  .skip_ref ∈ cs ∧ 0 < ((afterSkipRef cs).map SkipCall.nr_dut).sum

instance (cs : List SkipCall) : Decidable (RefThenDut cs) :=
  inferInstanceAs (Decidable (_ ∧ _))

/-- Two windows whose sum wraps to a positive number. -/
example : RefThenDut [.skip_ref, .skip_dut 0 (-2147483648), .skip_dut 0 (-1)] := by decide

theorem afterSkipRef_append_ref (cs : List SkipCall) :
    afterSkipRef (cs ++ [.skip_ref]) = [] := by
  simp [afterSkipRef]

theorem afterSkipRef_append_dut (cs : List SkipCall) (m n : Int32) :
    afterSkipRef (cs ++ [.skip_dut m n]) = afterSkipRef cs ++ [.skip_dut m n] := by
  simp [afterSkipRef]

/-- The calls set the flag if one of them is a `skip_ref`. -/
theorem foldl_is_skip_ref (cs : List SkipCall) (s : Driver Q) :
    (cs.foldl (SkipCall.run D) s).is_skip_ref = (s.is_skip_ref || decide (.skip_ref ∈ cs)) := by
  induction cs using List.reverseRecOn with
  | nil => simp
  | append_singleton cs c ih =>
    rw [List.foldl_append, List.foldl_cons, List.foldl_nil]
    cases c with
    | skip_ref => simp [SkipCall.run, difftest_skip_ref]
    | skip_dut m n =>
      show (cs.foldl (SkipCall.run D) s).is_skip_ref = _
      rw [ih]
      simp

/-- The window after the calls: a `skip_ref` closes it, and every later
    `skip_dut` moves its end. -/
theorem foldl_skip_dut_nr_instr (cs : List SkipCall) (s : Driver Q) :
    (cs.foldl (SkipCall.run D) s).skip_dut_nr_instr =
      (if .skip_ref ∈ cs then 0 else s.skip_dut_nr_instr) +
        ((afterSkipRef cs).map SkipCall.nr_dut).sum := by
  induction cs using List.reverseRecOn with
  | nil => simp [afterSkipRef]
  | append_singleton cs c ih =>
    rw [List.foldl_append, List.foldl_cons, List.foldl_nil]
    cases c with
    | skip_ref =>
      rw [afterSkipRef_append_ref]
      simp [SkipCall.run, difftest_skip_ref]
    | skip_dut m n =>
      rw [afterSkipRef_append_dut]
      show (cs.foldl (SkipCall.run D) s).skip_dut_nr_instr + n = _
      rw [ih]
      simp [SkipCall.nr_dut, Int32.add_assoc]

/-! ## Section 3: One step -/

variable {D}

/-- What a completed `difftest_step` can do. -/
theorem difftest_step_cases {cpu : R} {this_pc next_pc : Nat} {s s' : Driver Q}
    (h : difftest_step D cpu this_pc next_pc s = .ok s') :
    (0 < s.skip_dut_nr_instr ∧ s'.is_skip_ref = s.is_skip_ref) ∨
    (s.skip_dut_nr_instr ≤ 0 ∧ s.is_skip_ref = true ∧
      s' = { s with ref := D.ref_difftest_setregs cpu s.ref, is_skip_ref := false }) ∨
    (s.skip_dut_nr_instr ≤ 0 ∧ s.is_skip_ref = false ∧
      s' = { s with
        ref := D.ref_difftest_exec s.ref
        nemu_state := checkregs D (D.ref_difftest_getregs (D.ref_difftest_exec s.ref)) cpu
          this_pc s.nemu_state }) := by
  unfold difftest_step at h
  split at h
  · rename_i hwin
    refine Or.inl ⟨hwin, ?_⟩
    -- In the window the flag is not looked at.
    dsimp only at h
    split at h
    · cases h; rfl
    · split at h
      · cases h
      · cases h; rfl
  · rename_i hwin
    have hclosed : s.skip_dut_nr_instr ≤ 0 := Int32.not_lt.mp hwin
    split at h
    · rename_i hflag
      cases h
      exact Or.inr (Or.inl ⟨hclosed, hflag, rfl⟩)
    · rename_i hflag
      cases h
      exact Or.inr (Or.inr ⟨hclosed, by simpa using hflag, rfl⟩)

variable (D) in
/-- The `pc` that a failing check of the step records. -/
def failing_check (cpu : R) (this_pc next_pc : Nat) (s : Driver Q) : Option Nat :=
  if s.skip_dut_nr_instr > 0 then
    let ref_r := D.ref_difftest_getregs s.ref
    if D.pc ref_r = next_pc ∧ D.isa_difftest_checkregs ref_r cpu next_pc = false then some next_pc
    else none
  else if s.is_skip_ref then none
  else
    let ref_r := D.ref_difftest_getregs (D.ref_difftest_exec s.ref)
    if D.isa_difftest_checkregs ref_r cpu this_pc = false then some this_pc else none

/-- `nemu_state` after a check that failed at `pc`, or did not fail. -/
def after_check (st : NEMUState) : Option Nat → NEMUState
  | none => st
  | some pc => { st with state := .NEMU_ABORT, halt_pc := pc }

theorem checkregs_eq_after_check (ref_r cpu : R) (pc : Nat) (st : NEMUState) :
    checkregs D ref_r cpu pc st =
      after_check st (if D.isa_difftest_checkregs ref_r cpu pc = false then some pc else none) := by
  unfold checkregs
  cases D.isa_difftest_checkregs ref_r cpu pc <;> rfl

/-- A completed step only changes `nemu_state` by a failing check. -/
theorem difftest_step_nemu_state {cpu : R} {this_pc next_pc : Nat} {s s' : Driver Q}
    (h : difftest_step D cpu this_pc next_pc s = .ok s') :
    s'.nemu_state = after_check s.nemu_state (failing_check D cpu this_pc next_pc s) := by
  unfold difftest_step at h
  unfold failing_check
  -- In a window the registers are compared once the reference has reached the pc.
  split at h
  · rename_i hwin
    rw [if_pos hwin]
    dsimp only at h ⊢
    split at h
    · rename_i hpc
      cases h
      show checkregs D _ cpu next_pc s.nemu_state = _
      rw [checkregs_eq_after_check]
      simp [hpc]
    · rename_i hpc
      rw [if_neg (fun hand => hpc hand.1)]
      split at h
      · cases h
      · cases h; rfl
  · rename_i hwin
    rw [if_neg hwin]
    -- Outside, a skipped instruction copies the registers, and any other is compared.
    split at h
    · rename_i hflag
      cases h
      rw [if_pos hflag]
      rfl
    · rename_i hflag
      cases h
      rw [if_neg hflag]
      exact checkregs_eq_after_check _ _ _ _

/-- A check leaves equal registers or stops the emulator. -/
theorem checkregs_eq_or_abort (hD : D.Lawful) (ref_r cpu : R) (pc : Nat) (st : NEMUState) :
    ref_r = cpu ∨ (checkregs D ref_r cpu pc st).state = .NEMU_ABORT := by
  unfold checkregs
  split
  · rename_i hcheck
    exact Or.inl (hD.checkregs_eq _ _ _ hcheck)
  · exact Or.inr rfl

variable (D)

/-- What is promised of one instruction, from the driver `s` before it to the
    driver `s'` after its step. -/
structure StepOk (s : Driver Q) (i : Instr R) (s' : Driver Q) : Prop where
  /-- Without a skip and outside a window the reference executes one
      instruction and is compared. -/
  compared : i.calls = [] → s.skip_dut_nr_instr ≤ 0 →
    s'.ref = D.ref_difftest_exec s.ref ∧
    s'.nemu_state = checkregs D (D.ref_difftest_getregs s'.ref) i.cpu i.this_pc i.nemu_state
  /-- No `skip_ref` request is left for a later instruction. -/
  no_carry : s'.is_skip_ref = false
  /-- Outside a window the registers agree or the emulator has aborted. -/
  synced : (s.calls D i).skip_dut_nr_instr ≤ 0 →
    D.ref_difftest_getregs s'.ref = i.cpu ∨ s'.nemu_state.state = .NEMU_ABORT

variable {D}

/-- Step lemma: from a driver without a request the promise holds exactly for
    the instructions that do not open a window after a `skip_ref`. -/
theorem exec_instr_ok_iff (hD : D.Lawful) {s s' : Driver Q} {i : Instr R}
    (hflag : s.is_skip_ref = false) (h : exec_instr D s i = .ok s') :
    StepOk D s i s' ↔ ¬ RefThenDut i.calls := by
  -- What the calls of the instruction leave in the flags.
  have hcalls : (s.calls D i).is_skip_ref = decide (.skip_ref ∈ i.calls) := by
    show (i.calls.foldl (SkipCall.run D) s).is_skip_ref = _
    rw [foldl_is_skip_ref, hflag, Bool.false_or]
  have hnr : (s.calls D i).skip_dut_nr_instr =
      (if .skip_ref ∈ i.calls then 0 else s.skip_dut_nr_instr) +
        ((afterSkipRef i.calls).map SkipCall.nr_dut).sum :=
    foldl_skip_dut_nr_instr D i.calls s
  rcases difftest_step_cases h with ⟨hwin, hkeep⟩ | ⟨hclosed, hreq, rfl⟩ | ⟨hclosed, hreq, rfl⟩
  · -- In a window the request survives the step if there is one.
    rw [hcalls] at hkeep
    by_cases href : .skip_ref ∈ i.calls
    · have hbad : RefThenDut i.calls := by
        refine ⟨href, ?_⟩
        rw [if_pos href, Int32.zero_add] at hnr
        rw [← hnr]; exact hwin
      refine ⟨fun hok => ?_, fun hgood => absurd hbad hgood⟩
      rw [hok.no_carry] at hkeep
      simp [href] at hkeep
    · refine ⟨fun _ hbad => href hbad.1, fun _ => ⟨fun hnone hle => ?_, ?_, fun hle => ?_⟩⟩
      · rw [hnone] at hnr
        simp [afterSkipRef] at hnr
        rw [hnr] at hwin
        exact absurd hle (Int32.not_le.mpr hwin)
      · rw [hkeep]; simpa using href
      · exact absurd hle (Int32.not_le.mpr hwin)
  -- The reference takes the registers over.
  · have href : .skip_ref ∈ i.calls := by
      rw [hcalls] at hreq; simpa using hreq
    have hgood : ¬ RefThenDut i.calls := by
      rintro ⟨-, hpos⟩
      rw [if_pos href, Int32.zero_add] at hnr
      rw [hnr] at hclosed
      exact absurd hclosed (Int32.not_le.mpr hpos)
    refine ⟨fun _ => hgood, fun _ => ⟨fun hnone => ?_, rfl, fun _ => ?_⟩⟩
    · rw [hnone] at href; simp at href
    · exact Or.inl (hD.getregs_setregs _ _)
  -- The reference executes the instruction and is compared.
  · have href : .skip_ref ∉ i.calls := by
      rw [hcalls] at hreq; simpa using hreq
    refine ⟨fun _ hbad => href hbad.1, fun _ => ⟨fun hnone _ => ?_, hreq, fun _ => ?_⟩⟩
    · have hsame : (s.calls D i).ref = s.ref := by simp [Driver.calls, hnone]
      exact ⟨by rw [hsame], by rw [hsame]; rfl⟩
    · exact checkregs_eq_or_abort hD _ _ _ _

/-! ## Section 4: Runs -/

variable (D)

/-- The promise holds of every completed step of a run. -/
def EveryStepOk (s₀ : Driver Q) (is : List (Instr R)) : Prop :=
  ∀ before i after s s', is = before ++ i :: after → run D s₀ before = .ok s →
    exec_instr D s i = .ok s' → StepOk D s i s'

variable {D}

theorem everyStepOk_cons {s₀ s₁ : Driver Q} {i : Instr R} {is : List (Instr R)}
    (h : exec_instr D s₀ i = .ok s₁) :
    EveryStepOk D s₀ (i :: is) ↔ StepOk D s₀ i s₁ ∧ EveryStepOk D s₁ is := by
  constructor
  · intro hall
    refine ⟨hall [] i is s₀ s₁ rfl rfl h, fun before j after s s' his hrun hstep => ?_⟩
    refine hall (i :: before) j after s s' (by rw [his]; rfl) ?_ hstep
    rw [run, h]; exact hrun
  · rintro ⟨hfirst, hrest⟩ before j after s s' his hrun hstep
    cases before with
    | nil =>
      cases hrun
      cases his
      rw [h] at hstep
      cases hstep
      exact hfirst
    | cons k before =>
      cases his
      rw [run, h] at hrun
      exact hrest before j after s s' rfl hrun hstep

theorem everyStepOk_nil (s₀ : Driver Q) : EveryStepOk D s₀ [] := by
  intro before i after s s' his
  simp at his

/-- Run lemma, from any driver without a request. -/
theorem run_ok_iff (hD : D.Lawful) {s s' : Driver Q} {is : List (Instr R)}
    (hflag : s.is_skip_ref = false) (h : run D s is = .ok s') :
    EveryStepOk D s is ↔ ∀ i ∈ is, ¬ RefThenDut i.calls := by
  induction is generalizing s with
  | nil => simp [everyStepOk_nil]
  | cons i is ih =>
    obtain ⟨s₁, hstep, hrest⟩ := bind_eq_ok h
    have hiff := exec_instr_ok_iff hD hflag hstep
    rw [everyStepOk_cons hstep, List.forall_mem_cons, hiff]
    refine and_congr_right fun hgood => ?_
    exact ih (hiff.mpr hgood).no_carry hrest

/-- In a run of the driver every step keeps its promise if and only if no
    instruction opens a catch-up window after its last `skip_ref`. -/
theorem difftest_run_ok_iff (hD : D.Lawful) {ref : Q} {st : NEMUState} {is : List (Instr R)}
    {s' : Driver Q} (h : run D (initDriver ref st) is = .ok s') :
    EveryStepOk D (initDriver ref st) is ↔ ∀ i ∈ is, ¬ RefThenDut i.calls :=
  run_ok_iff hD rfl h

end driver

/-! ### A request that carries over -/

/-- A reference whose only register is the program counter. -/
def pcRef : RefDesign Nat Nat where
  ref_difftest_getregs := id
  ref_difftest_setregs c _ := c
  ref_difftest_exec q := q + 1
  pc := id
  isa_difftest_checkregs r c _ := r == c

theorem pcRef_lawful : pcRef.Lawful where
  getregs_setregs _ _ := rfl
  checkregs_eq _ _ _ h := by simpa [pcRef] using h

/-- The first instruction skips its check and lets the reference run ahead by
    one; the second asks for nothing, and jumps to 5 where the reference
    would go to 2. -/
def carried_over : List (Instr Nat) :=
  let running : NEMUState := ⟨.NEMU_RUNNING, 0, 0⟩
  [⟨[.skip_ref, .skip_dut 1 2], 1, running, 0, 1⟩, ⟨[], 5, running, 1, 5⟩]

/-- An ordinary instruction and one that skips its check. -/
def checked : List (Instr Nat) :=
  let running : NEMUState := ⟨.NEMU_RUNNING, 0, 0⟩
  [⟨[], 1, running, 0, 1⟩, ⟨[.skip_dut 1 2, .skip_ref], 7, running, 1, 7⟩]

theorem difftest_run_ok_checked :
    EveryStepOk pcRef (initDriver 0 ⟨.NEMU_RUNNING, 0, 0⟩) checked := by
  have hrun : run pcRef (initDriver 0 ⟨.NEMU_RUNNING, 0, 0⟩) checked =
      .ok ⟨false, 0, 7, ⟨.NEMU_RUNNING, 0, 0⟩⟩ := rfl
  exact (difftest_run_ok_iff pcRef_lawful hrun).mpr (by decide)

/-- The wrong jump of the second instruction of `carried_over` is not
    noticed: its check is skipped with the request of the first. -/
theorem skip_ref_carries_over :
    ¬ EveryStepOk pcRef (initDriver 0 ⟨.NEMU_RUNNING, 0, 0⟩) carried_over := by
  intro hall
  let mid : Driver Nat := ⟨true, 0, 1, ⟨.NEMU_RUNNING, 0, 0⟩⟩
  let last : Driver Nat := ⟨false, 0, 5, ⟨.NEMU_RUNNING, 0, 0⟩⟩
  have hstep := hall [⟨[.skip_ref, .skip_dut 1 2], 1, ⟨.NEMU_RUNNING, 0, 0⟩, 0, 1⟩]
    ⟨[], 5, ⟨.NEMU_RUNNING, 0, 0⟩, 1, 5⟩ [] mid last rfl rfl rfl
  have hexec : (5 : Nat) = 1 + 1 := (hstep.compared rfl (by decide)).1
  omega

end Nemu.Difftest
