import IcsPa.Nemu.X86.Exec
import IcsPa.Nemu.X86.RtlSpec

/-! # The ModR/M form is decoded as the i386 manual says

    `code s` is the stream of bytes at `s->seq_pc`.  A state in which the first
    `n` of them have been fetched is `s.at n`; each part of the form moves the
    cursor over its own bytes. -/

open CCall Bytes I386

namespace Nemu.X86

variable {D : Type} (maps : List (Paddr.IOMap D))

/-! ## Section 1: Fetching from `pmem` -/

/-- The bytes at `s->seq_pc`. -/
def code (s : State D) : Code := fun i => s.mem.pmem (s.seq_pc.toNat + i)

/-- The first `n` bytes have been fetched. -/
def State.at (s : State D) (n : Nat) : State D :=
  { s with seq_pc := s.seq_pc + BitVec.ofNat 32 n }

/-- One operand is `o`. -/
def State.with_op (s : State D) (q : OpName) (o : Operand) : State D :=
  { s with op := Function.update s.op q o }

@[simp] theorem with_op_self (s : State D) (q : OpName) (o : Operand) :
    (s.with_op q o).op q = o := by
  simp [State.with_op]

theorem with_op_ne {p q : OpName} (h : p ≠ q) (s : State D) (o : Operand) :
    (s.with_op q o).op p = s.op p := by
  simp [State.with_op, h]

theorem pc_add {pc : BitVec 32} {n : Nat} (h : pc.toNat + n ≤ PMEM_SIZE) :
    (pc + BitVec.ofNat 32 n).toNat = pc.toNat + n := by
  have hsize : PMEM_SIZE < 2 ^ 32 := by decide
  rw [BitVec.toNat_add, BitVec.toNat_ofNat, Nat.mod_eq_of_lt (by omega : n < 2 ^ 32),
    Nat.mod_eq_of_lt (by omega)]

theorem code_at {s : State D} {n : Nat} (h : s.seq_pc.toNat + n ≤ PMEM_SIZE) :
    code (s.at n) = (code s).drop n := by
  funext i
  show s.mem.pmem ((s.seq_pc + BitVec.ofNat 32 n).toNat + i) =
    s.mem.pmem (s.seq_pc.toNat + (n + i))
  rw [pc_add h, Nat.add_assoc]

/-- A load from a stream is one from where the stream is. -/
theorem load_stream (m : Store) (a k n : Nat) :
    load (fun i => m (a + i)) k n = load m (a + k) n := by
  induction n generalizing k with
  | zero => rfl
  | succ n ih =>
    rw [load_succ, load_succ, ih]
    rfl

/-- Step of the cursor. -/
theorem instr_fetch_at {s : State D} {n len : Nat} (hlen : len = 1 ∨ len = 2 ∨ len = 4)
    (hend : s.seq_pc.toNat + (n + len) ≤ PMEM_SIZE) :
    instr_fetch maps len (s.at n) =
      .ok (BitVec.ofNat 32 (load (code s) n len), s.at (n + len)) := by
  have haddr : (s.seq_pc + BitVec.ofNat 32 n).toNat = s.seq_pc.toNat + n := pc_add (by omega)
  have hfits : Fits (s.seq_pc + BitVec.ofNat 32 n) len := ⟨hlen, by rw [haddr]; omega⟩
  have hcode : load (code s) n len = load s.mem.pmem (s.seq_pc.toNat + n) len :=
    load_stream s.mem.pmem s.seq_pc.toNat n len
  have hread : vaddr_ifetch maps (s.at n).seq_pc len (s.at n).mem =
      .ok (BitVec.ofNat 32 (load s.mem.pmem (s.seq_pc.toNat + n) len), s.mem) := by
    rw [← haddr]
    exact vaddr_ifetch_pmem maps hfits s.mem
  simp only [instr_fetch, hread, ok_bind, hcode]
  have hnext : s.seq_pc + BitVec.ofNat 32 n + BitVec.ofNat 32 len =
      s.seq_pc + BitVec.ofNat 32 (n + len) := by
    rw [BitVec.add_assoc, ← BitVec.ofNat_add]
  show Except.ok (_, { s with seq_pc := s.seq_pc + BitVec.ofNat 32 n + BitVec.ofNat 32 len }) = _
  rw [hnext]
  rfl

/-- The first fetch. -/
theorem instr_fetch_first {s : State D} {len : Nat} (hlen : len = 1 ∨ len = 2 ∨ len = 4)
    (hend : s.seq_pc.toNat + len ≤ PMEM_SIZE) :
    instr_fetch maps len s = .ok (BitVec.ofNat 32 (load (code s) 0 len), s.at len) := by
  have hzero : s.at 0 = s := by simp [State.at]
  have hfetch := instr_fetch_at maps (s := s) (n := 0) hlen (by omega)
  rw [hzero, Nat.zero_add] at hfetch
  exact hfetch

/-- A fetched byte. -/
theorem byte_load (c : Code) (n : Nat) : byte (BitVec.ofNat 32 (load c n 1)) = c n := by
  have hlt : (c n).toNat < 2 ^ 32 := Nat.lt_trans (c n).toNat_lt (by decide)
  unfold byte
  rw [load_one, BitVec.toNat_ofNat, Nat.mod_eq_of_lt hlt, UInt8.ofNat_toNat]

/-! ## Section 2: Register operands -/

/-- Operand `o` is register `r`; a part of a register has been copied, if
    `load_val` says so. -/
structure IsReg (g : Gprs) (q : OpName) (load_val : Bool) (r : Fin 8) (o : Operand) : Prop where
  type : o.type = .OP_TYPE_REG
  reg  : o.reg = BitVec.ofNat 32 r.val
  preg : o.preg = some (if o.width = 4 then .gpr r else .val q)
  val  : load_val = true → o.width ≠ 4 → o.val = g.part o.width r

/-- A loaded register operand points at the value of the register. -/
theorem IsReg.pointer {t : State D} {q : OpName} {r : Fin 8} (h : IsReg t.gpr q true r (t.op q)) :
    ∃ p, (t.op q).preg = some p ∧ t.get p = Gprs.part t.gpr (t.op q).width r ∧
      (p = .val q ∨ (t.op q).width = 4 ∧ p = .gpr r) := by
  refine ⟨_, h.preg, ?_⟩
  by_cases hfour : (t.op q).width = 4
  · rw [if_pos hfour, hfour, part_four]
    exact ⟨rfl, .inr ⟨rfl, rfl⟩⟩
  · rw [if_neg hfour]
    exact ⟨h.val rfl hfour, .inl rfl⟩

theorem operand_reg_spec (q : OpName) (load_val : Bool) (r : Fin 8) {width : Nat} {s : State D}
    (hq : (s.op q).width = width) (hwidth : width = 1 ∨ width = 2 ∨ width = 4) :
    ∃ o, operand_reg q load_val r width s = .ok (s.with_op q o) ∧ o.width = width ∧
      IsReg s.gpr q load_val r o := by
  let o : Operand := { s.op q with
    type := .OP_TYPE_REG, reg := BitVec.ofNat 32 r.val, preg := some (.val q) }
  have hunread : operand_reg q false r width s = .ok (s.with_op q { o with
      preg := some (if width = 4 then .gpr r else .val q) }) := by
    rcases hwidth with rfl | rfl | rfl <;> simp [operand_reg, State.set_op, State.with_op, o]
  have hread : width ≠ 4 → operand_reg q true r width s =
      .ok (s.with_op q { o with val := Gprs.part s.gpr width r }) := by
    intro hne
    rcases hwidth with rfl | rfl | rfl
    · simp [operand_reg, State.set_op, rtl_lr, reg_b_eq, State.put, State.with_op, o]
    · simp [operand_reg, State.set_op, rtl_lr, reg_w_eq, State.put, State.with_op, o]
    · exact absurd rfl hne
  cases load_val with
  | false => exact ⟨_, hunread, hq, rfl, rfl, by rw [← hq], fun h => absurd h Bool.false_ne_true⟩
  | true =>
    by_cases hfour : width = 4
    · have hsame : operand_reg q true r width s = operand_reg q false r width s := by
        subst hfour
        rfl
      exact ⟨_, hsame.trans hunread, hq, rfl, rfl,
        by rw [← hq], fun _ hne => absurd (hq.trans hfour) hne⟩
    · refine ⟨_, hread hfour, hq, rfl, rfl, ?_, fun _ _ => by rw [← hq]⟩
      exact (congrArg some (if_neg (by rw [← hq] at hfour; exact hfour))).symm

/-! ## Section 3: Memory operands -/

theorem disp_at_eq (c : Code) : c.disp_at = if c.has_sib then 2 else 1 := rfl

theorem one_le_disp_at (c : Code) : 1 ≤ c.disp_at := by
  rw [disp_at_eq]
  split <;> omega

theorem one_le_form_length (c : Code) : 1 ≤ c.form_length :=
  Nat.le_trans (one_le_disp_at c) (Nat.le_add_right _ _)

/-- A register operand is in the first byte. -/
theorem form_length_reg {c : Code} (hmod : c.mod = 3) : c.form_length = 1 := by
  have hsib : ¬ c.has_sib = true := by simp [Code.has_sib, hmod]
  simp [Code.form_length, Code.disp_at, Code.disp_size, hsib, hmod]

theorem has_sib_iff {c : Code} (hmod : c.mod ≠ 3) : c.has_sib = true ↔ c.rm = R_ESP := by
  simp [Code.has_sib, hmod, R_ESP]

/-- The registers of the form; the scale counts only with an index. -/
theorem fetch_sib_at {s : State D} (hmod : (code s).mod ≠ 3)
    (hend : s.seq_pc.toNat + (code s).disp_at ≤ PMEM_SIZE) :
    ∃ scale, fetch_sib maps (code s 0) (s.at 1) =
        .ok ((some (code s).base_field, (code s).index.map Prod.fst, scale),
          s.at (code s).disp_at) ∧
      ∀ r k, (code s).index = some (r, k) → scale = k := by
  -- A SIB byte follows if `R_M` names `esp`.
  by_cases hsib : (code s).rm = R_ESP
  · have hcond : ModR_M.R_M (code s 0) = R_ESP := hsib
    have hhas : (code s).has_sib = true := (has_sib_iff hmod).mpr hsib
    rw [disp_at_eq, if_pos hhas] at hend ⊢
    have hfetch := instr_fetch_at maps (s := s) (n := 1) (.inl rfl) hend
    have hindex : (code s).index.map Prod.fst =
        if SIB.index (code s 1) ≠ R_ESP then some (SIB.index (code s 1)) else none := by
      unfold Code.index
      by_cases hesp : SIB.index (code s 1) = R_ESP
      · rw [if_neg (fun h => h.2 hesp), if_neg (not_not.mpr hesp)]
        rfl
      · rw [if_pos ⟨hhas, hesp⟩, if_pos hesp]
        rfl
    have hbase : (code s).base_field = SIB.base (code s 1) := if_pos hhas
    refine ⟨bits2 (code s 1), ?_, ?_⟩
    · simp only [fetch_sib, hcond, if_true, hfetch, ok_bind, byte_load]
      rw [hindex, hbase]
      rfl
    · intro r k h
      unfold Code.index at h
      split at h
      · exact (Prod.mk.inj (Option.some.inj h)).2
      · cases h
  · have hcond : ¬ ModR_M.R_M (code s 0) = R_ESP := hsib
    have hhas : ¬ (code s).has_sib = true := fun h => hsib ((has_sib_iff hmod).mp h)
    have hindex : (code s).index = none := if_neg fun h => hhas h.1
    rw [disp_at_eq, if_neg hhas]
    refine ⟨0, ?_, ?_⟩
    · rw [hindex, Code.base_field, if_neg hhas, fetch_sib, if_neg hcond]
      rfl
    · intro r k h
      cases hindex.symm.trans h

theorem base_and_disp_size_eq {c : Code} (hmod : c.mod ≠ 3) :
    base_and_disp_size (c 0) (some c.base_field) = (c.base, c.disp_size) := by
  have hmod' : ModR_M.mod (c 0) = c.mod := rfl
  unfold base_and_disp_size Code.base Code.disp_size
  rw [hmod']
  generalize c.mod = m at hmod
  match m with
  | 0 =>
    by_cases hbp : c.base_field = R_EBP
    · simp [hbp, R_EBP, EBP]
    · have hbp' : ¬ c.base_field = EBP := hbp
      simp [hbp, hbp']
  | 1 => rfl
  | 2 => rfl
  | 3 => exact absurd rfl hmod

theorem disp_size_cases (c : Code) : c.disp_size = 0 ∨ c.disp_size = 1 ∨ c.disp_size = 4 := by
  unfold Code.disp_size
  generalize c.mod = m
  match m with
  | 0 => by_cases hbp : c.base_field = EBP <;> simp [hbp]
  | 1 => exact .inr (.inl rfl)
  | 2 => exact .inr (.inr rfl)
  | 3 => exact .inl rfl

theorem fetch_disp_at {s : State D}
    (hend : s.seq_pc.toNat + (code s).form_length ≤ PMEM_SIZE) :
    fetch_disp maps (code s).disp_size (s.at (code s).disp_at) =
      .ok ((code s).disp, s.at (code s).form_length) := by
  unfold Code.form_length at hend ⊢
  unfold Code.disp
  rcases disp_size_cases (code s) with h | h | h
  · rw [h]
    rfl
  · rw [h] at hend ⊢
    have hlow : (BitVec.ofNat 32 (code s (code s).disp_at).toNat).setWidth 8 =
        BitVec.ofNat 8 (code s (code s).disp_at).toNat := BitVec.setWidth_ofNat_of_le (by decide) _
    simp only [fetch_disp, instr_fetch_at maps (.inl rfl) hend, load_one, ok_bind, hlow]
    rfl
  · rw [h] at hend ⊢
    simp only [fetch_disp, instr_fetch_at maps (.inr (.inr rfl)) hend, ok_bind]
    rfl

/-- A pointer to a base: a register, `mbr` or zero. -/
def IsBase : Ptr → Prop
  | .gpr _ => True
  | .mbr => True
  | .rz => True
  | _ => False

/-- A base depends on the registers and `mbr` only. -/
theorem get_base_eq {p : Ptr} (hp : IsBase p) {s t : State D} (hgpr : s.gpr = t.gpr)
    (hmbr : s.mbr = t.mbr) : s.get p = t.get p := by
  cases p with
  | gpr r => exact congrFun hgpr r
  | mbr => exact hmbr
  | rz => rfl
  | val op => exact hp.elim
  | tmp i => exact hp.elim

/-- The base with the scaled index, as a word; only `s1` and `mbr` are used. -/
theorem set_mbase_spec (base index : Option (Fin 8)) (scale : Fin 4) (s : State D) :
    ∃ p tmp mbr, set_mbase base index scale s =
        { s with mbase := some p, tmp_reg := tmp, mbr := mbr } ∧ IsBase p ∧
      (set_mbase base index scale s).get p =
        (match base with
          | some r => s.gpr r
          | none => 0) +
        (match index with
          | some r => s.gpr r * 2 ^ scale.val
          | none => 0) := by
  cases index with
  | none =>
    cases base with
    | none => exact ⟨.rz, s.tmp_reg, s.mbr, rfl, trivial, rfl⟩
    | some r => exact ⟨.gpr r, s.tmp_reg, s.mbr, rfl, trivial, (add_zero (s.gpr r)).symm⟩
  | some r =>
    let v := s.gpr r * 2 ^ scale.val
    -- The host shifts by at most 3 places, which is a product.
    have hshift : c_shl (s.gpr r) (BitVec.ofNat 32 scale.val) = v := by
      have hscale : ∀ k : Fin 4, (BitVec.ofNat 32 k.val &&& 0x1f).toNat = k.val ∧
          BitVec.twoPow 32 k.val = (2 : BitVec 32) ^ k.val := by decide
      unfold c_shl
      rw [BitVec.shiftLeft_eq', (hscale scale).1, BitVec.shiftLeft_eq_mul_twoPow, (hscale scale).2]
    have hs1 : Function.update s.tmp_reg 1 (c_shl (s.gpr r) (BitVec.ofNat 32 scale.val)) 1 = v := by
      rw [Function.update_self, hshift]
    -- With a base the two are added; without one the sum starts at 0.
    cases base with
    | none =>
      refine ⟨.mbr, _, _, rfl, trivial, ?_⟩
      show 0 + Function.update s.tmp_reg 1 (c_shl (s.gpr r) (BitVec.ofNat 32 scale.val)) 1 = 0 + v
      rw [hs1]
    | some b =>
      refine ⟨.mbr, _, _, rfl, trivial, ?_⟩
      show s.gpr b + Function.update s.tmp_reg 1 (c_shl (s.gpr r) (BitVec.ofNat 32 scale.val)) 1 =
        s.gpr b + v
      rw [hs1]

/-- Operand `q` of `t` is the memory at `a`, which has been loaded from the
    memory of `s`, if `load_val` says so. -/
structure IsMem (s t : State D) (q : OpName) (load_val : Bool) (a : BitVec 32) : Prop where
  type   : (t.op q).type = .OP_TYPE_MEM
  addr   : ∃ p, t.mbase = some p ∧ IsBase p ∧ t.get p + t.moff = a
  unread : load_val = false → t.mem = s.mem
  preg   : (t.op q).preg = some (.val q)
  val    : load_val = true →
    vaddr_read maps a (t.op q).width s.mem = .ok ((t.op q).val, t.mem)

/-- `load_addr` behind the `ModR_M` byte. -/
theorem load_addr_at {s : State D} (rm : OpName) (hmod : (code s).mod ≠ 3)
    (hend : s.seq_pc.toNat + (code s).form_length ≤ PMEM_SIZE) :
    ∃ p tmp mbr, load_addr maps (code s 0) rm (s.at 1) = .ok
        ({ s.at (code s).form_length with
          mbase := some p, tmp_reg := tmp, mbr := mbr, moff := (code s).disp }.with_op rm
            { s.op rm with type := .OP_TYPE_MEM }) ∧ IsBase p ∧
      ∀ t : State D, t.gpr = s.gpr → t.mbr = mbr →
        t.get p + (code s).disp = (code s).address s.gpr := by
  have hmod' : (ModR_M.mod (code s 0) != 3) = true := bne_iff_ne.mpr hmod
  have hsib : s.seq_pc.toNat + (code s).disp_at ≤ PMEM_SIZE := by
    have hle : (code s).disp_at ≤ (code s).form_length := Nat.le_add_right _ _
    omega
  -- The SIB byte, the base with the index, and the displacement.
  obtain ⟨scale, hfetch, hscale⟩ := fetch_sib_at maps hmod hsib
  obtain ⟨p, tmp, mbr, hmbase, hp, hval⟩ := set_mbase_spec (code s).base
    ((code s).index.map Prod.fst) scale (s.at (code s).form_length)
  refine ⟨p, tmp, mbr, ?_, hp, ?_⟩
  · simp only [load_addr, hmod', cassert_true, ok_bind, hfetch, base_and_disp_size_eq hmod,
      fetch_disp_at maps hend, hmbase]
    rfl
  · intro t hgpr hmbr
    rw [hmbase] at hval
    rw [get_base_eq hp (t := { s.at (code s).form_length with
      mbase := some p, tmp_reg := tmp, mbr := mbr }) hgpr hmbr, hval]
    unfold Code.address
    -- The scale counts only where there is an index.
    cases hidx : (code s).index with
    | none => rfl
    | some rk =>
      obtain ⟨r, k⟩ := rk
      rw [hscale r k hidx]
      rfl

/-! ## Section 4: The form -/

/-- `t` differs from `s` in the operands, in the scratch fields and in what a
    load does to a device, and `n` more bytes have been fetched. -/
structure Fetched (s t : State D) (n : Nat) : Prop where
  gpr    : t.gpr = s.gpr
  pc     : t.pc = s.pc
  nemu_state : t.nemu_state = s.nemu_state
  opcode : t.opcode = s.opcode
  seq_pc : t.seq_pc = s.seq_pc + BitVec.ofNat 32 n
  is_jmp : t.is_jmp = s.is_jmp
  size16 : t.is_operand_size_16 = s.is_operand_size_16
  width  : ∀ q, (t.op q).width = (s.op q).width

theorem Fetched.refl (s : State D) : Fetched s s 0 :=
  ⟨rfl, rfl, rfl, rfl, by simp, rfl, rfl, fun _ => rfl⟩

theorem Fetched.trans {s t u : State D} {m n : Nat} (h : Fetched s t m) (h' : Fetched t u n) :
    Fetched s u (m + n) where
  gpr        := h'.gpr.trans h.gpr
  pc         := h'.pc.trans h.pc
  nemu_state := h'.nemu_state.trans h.nemu_state
  opcode     := h'.opcode.trans h.opcode
  seq_pc     := by rw [h'.seq_pc, h.seq_pc, BitVec.add_assoc, ← BitVec.ofNat_add]
  is_jmp     := h'.is_jmp.trans h.is_jmp
  size16     := h'.size16.trans h.size16
  width q    := (h'.width q).trans (h.width q)

theorem Fetched.with_op {s t : State D} {n : Nat} {q : OpName} {o : Operand}
    (h : Fetched s t n) (ho : o.width = (t.op q).width) : Fetched s (t.with_op q o) n := by
  refine ⟨h.gpr, h.pc, h.nemu_state, h.opcode, h.seq_pc, h.is_jmp, h.size16, ?_⟩
  intro p
  by_cases hp : p = q
  · rw [hp, with_op_self, ho, h.width]
  · rw [with_op_ne hp, h.width]

theorem Fetched.seq_pc_toNat {s t : State D} {n : Nat} (h : Fetched s t n)
    (hend : s.seq_pc.toNat + n ≤ PMEM_SIZE) : t.seq_pc.toNat = s.seq_pc.toNat + n := by
  rw [h.seq_pc, pc_add hend]

/-- The stream goes on behind what has been fetched. -/
theorem Fetched.code {s t : State D} {n : Nat} (h : Fetched s t n) (hmem : t.mem = s.mem)
    (hend : s.seq_pc.toNat + n ≤ PMEM_SIZE) : code t = (code s).drop n := by
  rw [← code_at hend]
  show (fun i => t.mem.pmem (t.seq_pc.toNat + i)) = _
  rw [hmem, h.seq_pc]
  rfl

/-- Where nothing has been fetched, the stream is the same. -/
theorem Fetched.same_code {s t : State D} (h : Fetched s t 0) (hmem : t.mem = s.mem) :
    X86.code t = X86.code s := by
  have hpc : t.seq_pc = s.seq_pc := h.seq_pc.trans (Fetched.refl s).seq_pc.symm
  show (fun i => t.mem.pmem (t.seq_pc.toNat + i)) = _
  rw [hmem, hpc]
  rfl

/-- The operand that `mod` and `r/m` name, in a state `t` behind the bytes of
    the form. -/
structure IsRm (s t : State D) (rm : OpName) (load_val : Bool) : Prop where
  reg : (code s).mod = 3 → IsReg s.gpr rm load_val (code s).rm (t.op rm) ∧ t.mem = s.mem
  mem : (code s).mod ≠ 3 → IsMem maps s t rm load_val ((code s).address s.gpr)

theorem read_R_M_at {s : State D} (rm : OpName) (load_val : Bool)
    (hend : s.seq_pc.toNat + (code s).form_length ≤ PMEM_SIZE)
    (hwidth : (s.op rm).width = 1 ∨ (s.op rm).width = 2 ∨ (s.op rm).width = 4)
    (hload : load_val = true → (code s).mod ≠ 3 →
      ∃ r, vaddr_read maps ((code s).address s.gpr) (s.op rm).width s.mem = .ok r) :
    ∃ t, read_R_M maps (code s 0) rm load_val (s.at 1) = .ok t ∧
      Fetched s t (code s).form_length ∧ t.ext_opcode = s.ext_opcode ∧
      (∀ q, q ≠ rm → t.op q = s.op q) ∧ IsRm maps s t rm load_val := by
  by_cases hmod : (code s).mod = 3
  · have hmod' : ModR_M.mod (code s 0) = 3 := hmod
    obtain ⟨o, hrun, how, hreg⟩ := operand_reg_spec rm load_val (code s).rm (s := s.at 1) rfl hwidth
    have hat : Fetched s (s.at 1) 1 := ⟨rfl, rfl, rfl, rfl, rfl, rfl, rfl, fun _ => rfl⟩
    refine ⟨(s.at 1).with_op rm o, ?_, ?_, rfl, ?_, ?_, ?_⟩
    · rw [read_R_M, if_pos hmod']
      exact hrun
    · rw [form_length_reg hmod]
      exact hat.with_op how
    · intro q hq
      exact with_op_ne hq _ _
    · intro _
      rw [with_op_self]
      exact ⟨hreg, rfl⟩
    · intro hne
      exact absurd hmod hne
  · have hmod' : ¬ ModR_M.mod (code s 0) = 3 := hmod
    obtain ⟨p, tmp, mbr, haddr, hp, ha⟩ := load_addr_at maps rm hmod hend
    let a := (code s).address s.gpr
    let u (mem : Paddr.Mem D) : State D := { s.at (code s).form_length with
      mem := mem, mbase := some p, tmp_reg := tmp, mbr := mbr, moff := (code s).disp }
    have hu : ∀ mem o, ((u mem).with_op rm o).get p + (code s).disp = a :=
      fun mem o => ha _ rfl rfl
    have hfetched : ∀ mem, Fetched s (u mem) (code s).form_length :=
      fun mem => ⟨rfl, rfl, rfl, rfl, rfl, rfl, rfl, fun _ => rfl⟩
    -- Whether it is loaded or not, the operand is all that is left to set.
    have hrun : ∃ mem v, read_R_M maps (code s 0) rm load_val (s.at 1) = .ok ((u mem).with_op rm
          { s.op rm with type := .OP_TYPE_MEM, preg := some (.val rm), val := v }) ∧
        (load_val = false → mem = s.mem) ∧
        (load_val = true → vaddr_read maps a (s.op rm).width s.mem = .ok (v, mem)) := by
      rw [read_R_M, if_neg hmod', haddr, ok_bind]
      cases load_val with
      | false =>
        refine ⟨s.mem, (s.op rm).val, ?_, fun _ => rfl, fun h => absurd h Bool.false_ne_true⟩
        simp [State.set_op, State.with_op, u]
        rfl
      | true =>
        obtain ⟨⟨v, mem⟩, hv⟩ := hload rfl hmod
        refine ⟨mem, v, ?_, fun h => absurd h.symm Bool.false_ne_true, fun _ => hv⟩
        have hlm : rtl_lm maps (.val rm) p (code s).disp (s.op rm).width
            ((u s.mem).with_op rm { s.op rm with type := .OP_TYPE_MEM }) = .ok
            (((u mem).with_op rm { s.op rm with type := .OP_TYPE_MEM }).put (.val rm) v) := by
          unfold rtl_lm
          rw [hu]
          show (vaddr_read maps a (s.op rm).width s.mem >>= _) = _
          rw [hv, ok_bind]
          rfl
        have hop : (((u s.mem).with_op rm { s.op rm with type := .OP_TYPE_MEM }).op rm).width =
            (s.op rm).width := by rw [with_op_self]
        show (rtl_lm maps (.val rm) p (code s).disp
          (((u s.mem).with_op rm { s.op rm with type := .OP_TYPE_MEM }).op rm).width
          ((u s.mem).with_op rm { s.op rm with type := .OP_TYPE_MEM }) >>= _) = _
        rw [hop, hlm, ok_bind]
        simp [State.put, State.set_op, State.with_op]
    obtain ⟨mem, v, hrun, hunread, hread⟩ := hrun
    refine ⟨_, hrun, (hfetched mem).with_op rfl, rfl, ?_, ?_, ?_⟩
    · intro q hq
      exact with_op_ne hq _ _
    · intro h
      exact absurd h hmod
    · intro _
      refine ⟨?_, ⟨p, rfl, hp, hu mem _⟩, hunread, ?_, ?_⟩
      · rw [with_op_self]
      · rw [with_op_self]
      · rw [with_op_self]
        exact hread

/-- What `read_ModR_M` leaves in `t`. -/
structure Decoded (s t : State D) (rm : OpName) (load_rm_val : Bool) (reg : Option OpName)
    (load_reg_val : Bool) : Prop where
  fetched    : Fetched s t (code s).form_length
  ext_opcode : t.ext_opcode = BitVec.ofNat 8 (code s).reg.val
  reg_op     : ∀ q, reg = some q → IsReg s.gpr q load_reg_val (code s).reg (t.op q)
  rm_op      : IsRm maps s t rm load_rm_val
  other      : ∀ q, q ≠ rm → reg ≠ some q → t.op q = s.op q

/-- The operands have widths of the i386, and are two. -/
structure Operands (s : State D) (rm : OpName) (reg : Option OpName) : Prop where
  rm_width  : (s.op rm).width = 1 ∨ (s.op rm).width = 2 ∨ (s.op rm).width = 4
  reg_width : ∀ q, reg = some q →
    (s.op q).width = 1 ∨ (s.op q).width = 2 ∨ (s.op q).width = 4
  two       : reg ≠ some rm

/-- The register operand of `read_ModR_M`. -/
theorem reg_operand_at (reg : Option OpName) (load_val : Bool) (r : Fin 8) {s : State D}
    (hwidth : ∀ q, reg = some q →
      (s.op q).width = 1 ∨ (s.op q).width = 2 ∨ (s.op q).width = 4) :
    ∃ t : State D, (match reg with
        | some q => operand_reg q load_val r ((s.at 1).op q).width (s.at 1)
        | none => .ok (s.at 1)) = .ok (t.at 1) ∧
      Fetched s t 0 ∧ t.mem = s.mem ∧ t.ext_opcode = s.ext_opcode ∧
      (∀ q, reg = some q → IsReg s.gpr q load_val r (t.op q)) ∧
      ∀ q, reg ≠ some q → t.op q = s.op q := by
  cases reg with
  | none =>
    refine ⟨s, rfl, Fetched.refl s, rfl, rfl, ?_, fun _ _ => rfl⟩
    intro q h
    cases h
  | some q =>
    obtain ⟨o, hrun, how, hreg⟩ := operand_reg_spec q load_val r (s := s.at 1) rfl (hwidth q rfl)
    refine ⟨s.with_op q o, hrun, (Fetched.refl s).with_op how, rfl, rfl, ?_, ?_⟩
    · intro p hp
      obtain rfl := Option.some.inj hp
      rw [with_op_self]
      exact hreg
    · intro p hp
      exact with_op_ne (fun he => hp (congrArg some he.symm)) s o

theorem read_ModR_M_at {s : State D} (rm : OpName) (reg : Option OpName)
    (load_rm_val load_reg_val : Bool) (hops : Operands s rm reg)
    (hend : s.seq_pc.toNat + (code s).form_length ≤ PMEM_SIZE)
    (hload : load_rm_val = true → (code s).mod ≠ 3 →
      ∃ r, vaddr_read maps ((code s).address s.gpr) (s.op rm).width s.mem = .ok r) :
    ∃ t, read_ModR_M maps rm load_rm_val reg load_reg_val s = .ok t ∧
      Decoded maps s t rm load_rm_val reg load_reg_val := by
  have hlength := one_le_form_length (code s)
  have hfetch := instr_fetch_first maps (s := s) (.inl rfl) (by omega)
  have hbyte := byte_load (code s) 0
  let e : State D := { s with ext_opcode := BitVec.ofNat 8 (code s).reg.val }
  -- First the register operand, which changes neither the code nor `seq_pc`.
  obtain ⟨e', hreg, hfetched, hmem, hext, hisreg, hother⟩ := reg_operand_at (s := e) reg
    load_reg_val (code s).reg hops.reg_width
  have hcode : code e' = code s := hfetched.same_code hmem
  have hpc : e'.seq_pc = s.seq_pc := hfetched.seq_pc.trans (Fetched.refl s).seq_pc.symm
  have hgpr : e'.gpr = s.gpr := hfetched.gpr
  have hmem : e'.mem = s.mem := hmem
  have hwidth : ∀ q, (e'.op q).width = (s.op q).width := hfetched.width
  -- Then the other operand.
  obtain ⟨t, hrun, hfetched', hext', hother', hrm⟩ := read_R_M_at maps (s := e') rm load_rm_val
    (by rw [hcode, hpc]; exact hend)
    (by rw [hwidth]; exact hops.rm_width)
    (by rw [hcode, hgpr, hwidth, hmem]; exact hload)
  rw [hcode] at hrun hfetched'
  -- The two operands are not the same one.
  have hne : ∀ q, reg = some q → q ≠ rm := by
    intro q hq he
    exact hops.two (he ▸ hq)
  refine ⟨t, ?_, ?_, ?_, ?_, ?_, ?_⟩
  · unfold read_ModR_M
    rw [hfetch, ok_bind]
    simp only [hbyte]
    -- Not every decoder asks for the register operand.
    cases reg with
    | none =>
      have hreg : Except.ok (e.at 1) = Except.ok (e'.at 1) := hreg
      show (Except.ok (e.at 1) >>= read_R_M maps (code s 0) rm load_rm_val) = _
      rw [hreg]
      exact hrun
    | some q =>
      have hreg : operand_reg q load_reg_val (code s).reg ((e.at 1).op q).width (e.at 1) =
        .ok (e'.at 1) := hreg
      show (operand_reg q load_reg_val (code s).reg ((e.at 1).op q).width (e.at 1) >>=
        read_R_M maps (code s 0) rm load_rm_val) = _
      rw [hreg]
      exact hrun
  · have htrans := hfetched.trans hfetched'
    rw [Nat.zero_add] at htrans
    exact ⟨htrans.gpr, htrans.pc, htrans.nemu_state, htrans.opcode, htrans.seq_pc, htrans.is_jmp,
      htrans.size16, htrans.width⟩
  · exact hext'.trans hext
  · intro q hq
    rw [hother' q (hne q hq)]
    exact hisreg q hq
  · have hmem' := hrm.mem
    have hreg' := hrm.reg
    rw [hcode, hgpr] at hmem' hreg'
    rw [hmem] at hreg'
    refine ⟨hreg', fun hmod => ?_⟩
    have h := hmem' hmod
    exact ⟨h.type, h.addr, fun hl => (h.unread hl).trans hmem, h.preg, fun hl => hmem ▸ h.val hl⟩
  · intro q hq hr
    rw [hother' q hq]
    exact hother q hr

/-- For every stream of bytes and every register state, whatever the widths
    and the load flags are, `read_ModR_M` decodes the form exactly. -/
theorem read_ModR_M_decodes {s : State D} {rm : OpName} {reg : Option OpName}
    (load_rm_val load_reg_val : Bool) (hops : Operands s rm reg)
    (hend : s.seq_pc.toNat + (code s).form_length ≤ PMEM_SIZE)
    (hload : load_rm_val = true → (code s).mod ≠ 3 →
      ∃ r, vaddr_read maps ((code s).address s.gpr) (s.op rm).width s.mem = .ok r) :
    ∃ t, read_ModR_M maps rm load_rm_val reg load_reg_val s = .ok t ∧
      t.gpr = s.gpr ∧ t.seq_pc = s.seq_pc + BitVec.ofNat 32 (code s).form_length ∧
      t.ext_opcode = BitVec.ofNat 8 (code s).reg.val ∧
      (∀ q, reg = some q → IsReg s.gpr q load_reg_val (code s).reg (t.op q)) ∧
      ((code s).mod = 3 → IsReg s.gpr rm load_rm_val (code s).rm (t.op rm)) ∧
      ((code s).mod ≠ 3 → IsMem maps s t rm load_rm_val ((code s).address s.gpr)) := by
  obtain ⟨t, hrun, h⟩ := read_ModR_M_at maps rm reg load_rm_val load_reg_val hops hend hload
  refine ⟨t, hrun, h.fetched.gpr, h.fetched.seq_pc, h.ext_opcode, h.reg_op, ?_, h.rm_op.mem⟩
  intro hmod
  exact (h.rm_op.reg hmod).1

/-- At `0x100` there is `[ebp + 4 * ecx - 4]` with register 0. -/
def sib_state : State Unit where
  gpr        := fun r => if r = R_EBP then 0x2000 else if r = R_ECX then 3 else 0
  pc         := 0xff
  mem        := { Paddr.zeroMem with pmem := store Paddr.zeroMem.pmem 0x100 0xfc8d44 3 }
  nemu_state := ⟨.NEMU_RUNNING, 0, 0⟩
  opcode     := 0x8b
  seq_pc     := 0x100
  is_jmp     := false
  jmp_pc     := 0
  op         := fun _ => ⟨.OP_TYPE_IMM, 4, 0, none, 0⟩
  tmp_reg    := fun _ => 0
  is_operand_size_16 := false
  ext_opcode := 0
  mbase      := none
  mbr        := 0
  moff       := 0

theorem read_ModR_M_decodes_sib : ∃ t,
    read_ModR_M [] .src1 true (some .dest) false sib_state = .ok t ∧
      t.gpr = sib_state.gpr ∧ t.seq_pc = 0x103 ∧ t.ext_opcode = 0 ∧
      (∀ q, some .dest = some q → IsReg sib_state.gpr q false 0 (t.op q)) ∧
      ((code sib_state).mod = 3 → IsReg sib_state.gpr .src1 true 4 (t.op .src1)) ∧
      ((code sib_state).mod ≠ 3 → IsMem [] sib_state t .src1 true 0x2008) := by
  have haddress : (code sib_state).address sib_state.gpr = 0x2008 := by decide
  rw [← haddress]
  apply read_ModR_M_decodes [] true false ?_ (by decide) ?_
  · exact ⟨.inr (.inr rfl), fun _ _ => .inr (.inr rfl), by decide⟩
  · intro _ _
    rw [haddress]
    exact ⟨_, vaddr_read_pmem [] ⟨.inr (.inr rfl), by decide⟩ _⟩

end Nemu.X86
