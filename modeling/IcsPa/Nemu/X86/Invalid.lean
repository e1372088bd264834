import IcsPa.Nemu.X86.Mov

/-! # Invalid instructions on x86

    `exec_inv` runs when the prefixes and the opcode have been fetched, and in a
    group when the operands have been decoded and loaded.  Decoding moves the
    cursor and fills in the operands; it keeps what the guest can see. -/

open CCall Bytes I386

namespace Nemu.X86

variable {D : Type} (maps : List (Paddr.IOMap D))

/-! ## Section 1: What decoding keeps -/

/-- The guest does not see a difference, and the instruction has not ended. -/
structure Unseen (s t : State D) : Prop where
  gpr        : t.gpr = s.gpr
  pc         : t.pc = s.pc
  pmem       : t.mem.pmem = s.mem.pmem
  nemu_state : t.nemu_state = s.nemu_state
  is_jmp     : t.is_jmp = s.is_jmp

theorem Unseen.refl (s : State D) : Unseen s s := ⟨rfl, rfl, rfl, rfl, rfl⟩

theorem Unseen.trans {s t u : State D} (h : Unseen s t) (h' : Unseen t u) : Unseen s u where
  gpr        := h'.gpr.trans h.gpr
  pc         := h'.pc.trans h.pc
  pmem       := h'.pmem.trans h.pmem
  nemu_state := h'.nemu_state.trans h.nemu_state
  is_jmp     := h'.is_jmp.trans h.is_jmp

theorem Unseen.set_op (q : OpName) (f : Operand → Operand) (s : State D) :
    Unseen s (s.set_op q f) :=
  ⟨rfl, rfl, rfl, rfl, rfl⟩

theorem Unseen.set_width (w : Int) (s : State D) : Unseen s (set_width w s) := by
  unfold X86.set_width
  split
  · exact Unseen.refl s
  · exact ⟨rfl, rfl, rfl, rfl, rfl⟩

/-- The operands also keep their widths. -/
structure Kept (s t : State D) : Prop extends Unseen s t where
  width : ∀ q, (t.op q).width = (s.op q).width

theorem Kept.refl (s : State D) : Kept s s := ⟨Unseen.refl s, fun _ => rfl⟩

theorem Kept.trans {s t u : State D} (h : Kept s t) (h' : Kept t u) : Kept s u :=
  ⟨h.toUnseen.trans h'.toUnseen, fun q => (h'.width q).trans (h.width q)⟩

theorem Kept.set_op (q : OpName) {f : Operand → Operand} (hf : ∀ o, (f o).width = o.width)
    (s : State D) : Kept s (s.set_op q f) := by
  refine ⟨Unseen.set_op q f s, ?_⟩
  intro q'
  by_cases hq : q' = q
  · subst hq
    show (Function.update s.op q' (f (s.op q')) q').width = _
    rw [Function.update_self, hf]
  · show (Function.update s.op q (f (s.op q)) q').width = _
    rw [Function.update_of_ne hq]

/-- A pointer into the operands and temporaries. -/
def IsScratch : Ptr → Prop
  | .gpr _ => False
  | _ => True

theorem Kept.put {p : Ptr} (hp : IsScratch p) (v : BitVec 32) (s : State D) :
    Kept s (s.put p v) := by
  cases p with
  | gpr r => exact hp.elim
  | val q => exact Kept.set_op q (f := fun o => { o with val := v }) (fun _ => rfl) s
  | tmp i => exact ⟨⟨rfl, rfl, rfl, rfl, rfl⟩, fun _ => rfl⟩
  | mbr => exact ⟨⟨rfl, rfl, rfl, rfl, rfl⟩, fun _ => rfl⟩
  | rz => exact Kept.refl s

theorem vaddr_read_pmem_eq {a : BitVec 32} {len : Nat} {m m' : Paddr.Mem D} {v : BitVec 32}
    (h : vaddr_read maps a len m = .ok (v, m')) : m'.pmem = m.pmem := by
  obtain ⟨_, _, h⟩ := bind_eq_ok h
  obtain ⟨⟨data, span, m''⟩, hread, h⟩ := bind_eq_ok h
  cases h
  unfold Paddr.paddr_read at hread
  split at hread
  · obtain ⟨⟨data, span⟩, _, hread⟩ := bind_eq_ok hread
    cases hread
    rfl
  · -- A device may change its own state only.
    obtain ⟨⟨data, span, io⟩, _, hread⟩ := bind_eq_ok hread
    cases hread
    rfl

theorem instr_fetch_kept {len : Nat} {s t : State D} {v : BitVec 32}
    (h : instr_fetch maps len s = .ok (v, t)) : Kept s t := by
  obtain ⟨⟨v, m⟩, hread, h⟩ := bind_eq_ok h
  have hpmem := vaddr_read_pmem_eq maps (vaddr_ifetch_eq_ok maps hread)
  cases h
  exact ⟨⟨rfl, rfl, hpmem, rfl, rfl⟩, fun _ => rfl⟩

theorem rtl_lm_kept {p q : Ptr} {off : BitVec 32} {len : Nat} {s t : State D} (hp : IsScratch p)
    (h : rtl_lm maps p q off len s = .ok t) : Kept s t := by
  obtain ⟨⟨v, m⟩, hread, h⟩ := bind_eq_ok h
  have hpmem := vaddr_read_pmem_eq maps hread
  cases h
  have hload : Kept s { s with mem := m } := ⟨⟨rfl, rfl, hpmem, rfl, rfl⟩, fun _ => rfl⟩
  exact hload.trans (Kept.put hp v _)

theorem rtl_lr_kept {p : Ptr} {r : Fin 8} {w : Nat} {s t : State D} (hp : IsScratch p)
    (h : rtl_lr p r w s = .ok t) : Kept s t := by
  unfold rtl_lr at h
  split at h
  · cases h
    unfold rtl_mv
    split
    · exact Kept.put hp _ s
    · exact Kept.refl s
  · cases h
    exact Kept.put hp _ s
  · cases h
    exact Kept.put hp _ s
  · cases h

theorem operand_reg_kept {q : OpName} {load_val : Bool} {r : Fin 8} {w : Nat} {s t : State D}
    (h : operand_reg q load_val r w s = .ok t) : Kept s t := by
  let s' := s.set_op q fun o => { o with type := .OP_TYPE_REG, reg := BitVec.ofNat 32 r.val }
  have hs' : Kept s s' := Kept.set_op q (by intro _; rfl) s
  unfold operand_reg at h
  split at h
  · cases h
    exact hs'.trans (Kept.set_op q (by intro _; rfl) s')
  · -- A part of a register is copied to the operand.
    obtain ⟨_, _, h⟩ := bind_eq_ok h
    have hpreg := hs'.trans (Kept.set_op q (f := fun o => { o with preg := some (.val q) })
      (by intro _; rfl) s')
    cases load_val with
    | true => exact hpreg.trans (rtl_lr_kept (p := .val q) trivial h)
    | false =>
      cases h
      exact hpreg

theorem operand_imm_kept (q : OpName) (load_val : Bool) (imm : BitVec 32) (s : State D) :
    Kept s (operand_imm q load_val imm s) := by
  let s' := s.set_op q fun o => { o with type := .OP_TYPE_IMM, reg := imm }
  have hs' : Kept s s' := Kept.set_op q (by intro _; rfl) s
  cases load_val with
  | true =>
    let u := rtl_li (.val q) imm s'
    have hu : Kept s' u := Kept.put (p := .val q) trivial _ s'
    have hpreg : Kept u (operand_imm q true imm s) :=
      Kept.set_op q (f := fun o => { o with preg := some (.val q) }) (by intro _; rfl) u
    exact (hs'.trans hu).trans hpreg
  | false => exact hs'

theorem fetch_sib_kept {m : ModR_M} {s t : State D} {sib : Option (Fin 8) × Option (Fin 8) × Fin 4}
    (h : fetch_sib maps m s = .ok (sib, t)) : Kept s t := by
  unfold fetch_sib at h
  split at h
  · obtain ⟨⟨v, u⟩, hfetch, h⟩ := bind_eq_ok h
    have hu := instr_fetch_kept maps hfetch
    cases h
    exact hu
  · cases h
    exact Kept.refl s

theorem fetch_disp_kept {n : Nat} {s t : State D} {disp : BitVec 32}
    (h : fetch_disp maps n s = .ok (disp, t)) : Kept s t := by
  unfold fetch_disp at h
  split at h
  · obtain ⟨⟨v, u⟩, hfetch, h⟩ := bind_eq_ok h
    have hu := instr_fetch_kept maps hfetch
    -- The displacement of one byte is extended, and nothing else.
    by_cases hone : n = 1
    · simp only [if_pos hone] at h
      cases h
      exact hu
    · simp only [if_neg hone] at h
      cases h
      exact hu
  · cases h
    exact Kept.refl s

theorem set_mbase_kept (base index : Option (Fin 8)) (scale : Fin 4) (s : State D) :
    Kept s (set_mbase base index scale s) := by
  obtain ⟨p, tmp, mbr, heq, _, _⟩ := set_mbase_spec base index scale s
  rw [heq]
  exact ⟨⟨rfl, rfl, rfl, rfl, rfl⟩, fun _ => rfl⟩

theorem load_addr_kept {m : ModR_M} {q : OpName} {s t : State D}
    (h : load_addr maps m q s = .ok t) : Kept s t := by
  obtain ⟨_, _, h⟩ := bind_eq_ok h
  obtain ⟨⟨⟨base, index, scale⟩, u⟩, hsib, h⟩ := bind_eq_ok h
  obtain ⟨⟨disp, v⟩, hdisp, h⟩ := bind_eq_ok h
  cases h
  have hfetched := (fetch_sib_kept maps hsib).trans (fetch_disp_kept maps hdisp)
  have hbase := set_mbase_kept (base_and_disp_size m base).1 index scale v
  have hmoff : ∀ w : State D, Kept w { w with moff := disp } := fun w =>
    ⟨⟨rfl, rfl, rfl, rfl, rfl⟩, fun _ => rfl⟩
  exact (hfetched.trans hbase).trans ((hmoff _).trans (Kept.set_op q (by intro _; rfl) _))

theorem read_R_M_kept {m : ModR_M} {q : OpName} {load_val : Bool} {s t : State D}
    (h : read_R_M maps m q load_val s = .ok t) : Kept s t := by
  unfold read_R_M at h
  split at h
  · exact operand_reg_kept h
  · obtain ⟨u, haddr, h⟩ := bind_eq_ok h
    have hu := load_addr_kept maps haddr
    cases load_val with
    | true =>
      obtain ⟨base, _, h⟩ := bind_eq_ok h
      obtain ⟨v, hload, h⟩ := bind_eq_ok h
      cases h
      have hv : Kept u v := rtl_lm_kept maps (p := .val q) trivial hload
      exact (hu.trans hv).trans (Kept.set_op q (by intro _; rfl) v)
    | false =>
      cases h
      exact hu.trans (Kept.set_op q (by intro _; rfl) u)

theorem operand_rm_kept {q : OpName} {load_rm_val : Bool} {reg : Option OpName}
    {load_reg_val : Bool} {s t : State D}
    (h : operand_rm maps q load_rm_val reg load_reg_val s = .ok t) : Kept s t := by
  obtain ⟨⟨v, u⟩, hfetch, h⟩ := bind_eq_ok h
  have hu := instr_fetch_kept maps hfetch
  let u' : State D := { u with ext_opcode := BitVec.ofNat 8 (ModR_M.opcode (byte v)).val }
  have hu' : Kept u u' := ⟨⟨rfl, rfl, rfl, rfl, rfl⟩, fun _ => rfl⟩
  cases reg with
  | none => exact (hu.trans hu').trans (read_R_M_kept maps h)
  | some r =>
    obtain ⟨w, hreg, h⟩ := bind_eq_ok h
    exact ((hu.trans hu').trans (operand_reg_kept hreg)).trans (read_R_M_kept maps h)

theorem decode_op_I_kept {q : OpName} {load_val : Bool} {s t : State D}
    (h : decode_op_I maps q load_val s = .ok t) : Kept s t := by
  obtain ⟨⟨imm, u⟩, hfetch, h⟩ := bind_eq_ok h
  cases h
  exact (instr_fetch_kept maps hfetch).trans (operand_imm_kept q load_val imm u)

/-! ## Section 2: The opcode table -/

/-- The entries of `fetch_decode_exec` for the groups: the decode helper and
    the width. -/
def group_entry (opcode : UInt8) : Option ((State D → Except Fault (State D)) × Int) :=
  match opcode.toNat with
  | 0x80 => some (decode_I2E maps, 1)
  | 0x81 => some (decode_I2E maps, 0)
  | 0x83 => some (decode_SI2E maps, 0)
  | 0xc0 => some (decode_gp2_Ib2E maps, 1)
  | 0xc1 => some (decode_gp2_Ib2E maps, 0)
  | 0xd0 => some (decode_gp2_1_E maps, 1)
  | 0xd1 => some (decode_gp2_1_E maps, 0)
  | 0xd2 => some (decode_gp2_cl2E maps, 1)
  | 0xd3 => some (decode_gp2_cl2E maps, 0)
  | 0xf6 | 0xfe => some (decode_E maps, 1)
  | 0xf7 | 0xff => some (decode_E maps, 0)
  | _ => none

/-- The table of `fetch_decode_exec` outside the groups. -/
def in_table (opcode : UInt8) : Bool :=
  opcode == 0x66 || opcode == 0x0f || opcode == 0xd6 || (mov_form opcode).isSome

theorem decode_exec_group {opcode : UInt8} {id : State D → Except Fault (State D)} {w : Int}
    (h : group_entry maps opcode = some (id, w)) (s : State D) :
    decode_exec maps opcode s = case_entry id (exec_gp maps) w s := by
  unfold group_entry at h
  split at h
  all_goals cases h
  all_goals
    rename_i hopcode
    unfold decode_exec
    rw [hopcode]
    rfl

/-- An opcode that is not in the table. -/
theorem decode_exec_undefined {opcode : UInt8} (htable : in_table opcode = false)
    (hgroup : group_entry maps opcode = none) (s : State D) :
    decode_exec maps opcode s = exec_inv maps s := by
  unfold decode_exec
  split
  all_goals first
    | rfl
    | rename_i hopcode
      simp [in_table, mov_form, group_entry, hopcode, ← UInt8.toNat_inj] at htable hgroup

theorem group_unseen {opcode : UInt8} {id : State D → Except Fault (State D)} {w : Int}
    (hgroup : group_entry maps opcode = some (id, w)) {s t : State D} (h : id s = .ok t) :
    Unseen s t := by
  have hI2E : decode_I2E maps s = .ok t → Unseen s t := by
    intro h
    obtain ⟨u, hrm, h⟩ := bind_eq_ok h
    exact ((operand_rm_kept maps hrm).trans (decode_op_I_kept maps h)).toUnseen
  have hSI2E : decode_SI2E maps s ≠ .ok t := by
    intro h
    obtain ⟨_, _, h⟩ := bind_eq_ok h
    obtain ⟨u, _, h⟩ := bind_eq_ok h
    obtain ⟨v, himm, _⟩ := bind_eq_ok h
    -- The immediate is still to be written in the source.
    obtain ⟨_, _, himm⟩ := bind_eq_ok himm
    cases himm
  have hgp2_Ib2E : decode_gp2_Ib2E maps s = .ok t → Unseen s t := by
    intro h
    obtain ⟨u, hrm, h⟩ := bind_eq_ok h
    have hwidth := Unseen.set_op .src1 (fun o => { o with width := 1 }) u
    exact ((operand_rm_kept maps hrm).toUnseen.trans hwidth).trans
      (decode_op_I_kept maps h).toUnseen
  have hgp2_1_E : decode_gp2_1_E maps s = .ok t → Unseen s t := by
    intro h
    obtain ⟨u, hrm, h⟩ := bind_eq_ok h
    cases h
    exact ((operand_rm_kept maps hrm).trans (operand_imm_kept .src1 true 1 u)).toUnseen
  have hgp2_cl2E : decode_gp2_cl2E maps s = .ok t → Unseen s t := by
    intro h
    obtain ⟨u, hrm, h⟩ := bind_eq_ok h
    exact ((operand_rm_kept maps hrm).trans (operand_reg_kept h)).toUnseen
  have hE : decode_E maps s = .ok t → Unseen s t := fun h => (operand_rm_kept maps h).toUnseen
  unfold group_entry at hgroup
  split at hgroup
  all_goals cases hgroup
  · exact hI2E h
  · exact hI2E h
  · exact absurd h hSI2E
  · exact hgp2_Ib2E h
  · exact hgp2_Ib2E h
  · exact hgp2_1_E h
  · exact hgp2_1_E h
  · exact hgp2_cl2E h
  · exact hgp2_cl2E h
  all_goals exact hE h

/-! ## Section 3: The way to exec_inv -/

/-- The fetch of an opcode. -/
def fetch_opcode (s : State D) : Except Fault (UInt8 × State D) := do
  let (v, s) ← instr_fetch maps 1 s
  let opcode := byte v
  return (opcode, { s with opcode := BitVec.ofNat 32 opcode.toNat })

/-- `fetch_decode_exec` in `s` comes to `exec_inv` in `t` behind `n` prefixes. -/
inductive ReachesInv : Nat → State D → State D → Prop where
  | operand_size {n : Nat} {s u t : State D} (hfetch : fetch_opcode maps s = .ok (0x66, u))
      (h : ReachesInv n { u with is_operand_size_16 := true } t) : ReachesInv (n + 1) s t
  /-- An opcode that is not in the table. -/
  | undefined {opcode : UInt8} {s t : State D} (hfetch : fetch_opcode maps s = .ok (opcode, t))
      (htable : in_table opcode = false) (hgroup : group_entry maps opcode = none) :
      ReachesInv 0 s t
  /-- A group: its decode helper has run. -/
  | group {opcode : UInt8} {id : State D → Except Fault (State D)} {w : Int} {s u t : State D}
      (hfetch : fetch_opcode maps s = .ok (opcode, u))
      (hgroup : group_entry maps opcode = some (id, w)) (hid : id (set_width w u) = .ok t) :
      ReachesInv 0 s (set_width 0 t)
  /-- An opcode behind `0x0f` that is not implemented. -/
  | escape {opcode : UInt8} {s u t : State D} (hfetch : fetch_opcode maps s = .ok (0x0f, u))
      (hnext : fetch_opcode maps (set_width 0 u) = .ok (opcode, t)) (hne : opcode ≠ 0x01) :
      ReachesInv 0 s t
  | escape_group {s u v t : State D} (hfetch : fetch_opcode maps s = .ok (0x0f, u))
      (hnext : fetch_opcode maps (set_width 0 u) = .ok (0x01, v))
      (hid : decode_gp7_E maps (set_width 0 v) = .ok t) : ReachesInv 0 s (set_width 0 t)

/-- One turn of the loop over the prefixes. -/
theorem fetch_decode_exec_succ {fuel : Nat} {s u : State D} {opcode : UInt8}
    (h : fetch_opcode maps s = .ok (opcode, u)) :
    fetch_decode_exec maps (fuel + 1) s =
      if opcode = 0x66 then fetch_decode_exec maps fuel { u with is_operand_size_16 := true }
      else decode_exec maps opcode u := by
  obtain ⟨⟨v, w⟩, hfetch, h⟩ := bind_eq_ok h
  cases h
  rw [fetch_decode_exec, hfetch]
  rfl

theorem exec_2byte_esc_undefined {s t : State D} {opcode : UInt8}
    (h : fetch_opcode maps s = .ok (opcode, t)) (hne : opcode ≠ 0x01) :
    exec_2byte_esc maps s = exec_inv maps t := by
  obtain ⟨⟨v, w⟩, hfetch, h⟩ := bind_eq_ok h
  cases h
  have hne' : (byte v).toNat ≠ 0x01 := fun he => hne (UInt8.toNat_inj.mp he)
  rw [exec_2byte_esc, hfetch, ok_bind]
  dsimp only
  split
  · exact absurd ‹_› hne'
  · rfl

theorem exec_2byte_esc_group {s t : State D} (h : fetch_opcode maps s = .ok (0x01, t)) :
    exec_2byte_esc maps s = case_entry (decode_gp7_E maps) (exec_gp maps) 0 t := by
  obtain ⟨⟨v, w⟩, hfetch, h⟩ := bind_eq_ok h
  obtain ⟨hbyte, rfl⟩ := Prod.mk.inj (Except.ok.inj h)
  rw [exec_2byte_esc, hfetch, ok_bind]
  dsimp only
  rw [hbyte]
  rfl

variable {maps} in
/-- Every way ends in `exec_inv`. -/
theorem ReachesInv.run {n : Nat} {s t : State D} (h : ReachesInv maps n s t) :
    ∀ fuel, n < fuel → fetch_decode_exec maps fuel s = exec_inv maps t := by
  induction h with
  | operand_size hfetch _ ih =>
    intro fuel hfuel
    -- The prefix uses up one turn.
    obtain ⟨fuel, rfl⟩ := Nat.exists_eq_add_one.mpr (Nat.lt_of_le_of_lt (Nat.zero_le _) hfuel)
    rw [fetch_decode_exec_succ maps hfetch, if_pos rfl]
    exact ih fuel (by omega)
  | @undefined opcode _ _ hfetch htable hgroup =>
    intro fuel hfuel
    obtain ⟨fuel, rfl⟩ := Nat.exists_eq_add_one.mpr hfuel
    -- The opcode is not the prefix, which the table has an entry for.
    have hne : opcode ≠ 0x66 := by
      intro he
      rw [he] at htable
      cases htable
    rw [fetch_decode_exec_succ maps hfetch, if_neg hne, decode_exec_undefined maps htable hgroup]
  | @group opcode _ _ _ _ _ hfetch hgroup hid =>
    intro fuel hfuel
    obtain ⟨fuel, rfl⟩ := Nat.exists_eq_add_one.mpr hfuel
    have hne : opcode ≠ 0x66 := by
      intro he
      rw [he] at hgroup
      cases hgroup
    rw [fetch_decode_exec_succ maps hfetch, if_neg hne, decode_exec_group maps hgroup, case_entry,
      hid]
    rfl
  | escape hfetch hnext hne =>
    intro fuel hfuel
    obtain ⟨fuel, rfl⟩ := Nat.exists_eq_add_one.mpr hfuel
    -- The second byte is looked up in the same turn.
    rw [fetch_decode_exec_succ maps hfetch, if_neg (by decide)]
    exact exec_2byte_esc_undefined maps hnext hne
  | escape_group hfetch hnext hid =>
    intro fuel hfuel
    obtain ⟨fuel, rfl⟩ := Nat.exists_eq_add_one.mpr hfuel
    rw [fetch_decode_exec_succ maps hfetch, if_neg (by decide)]
    show exec_2byte_esc maps (set_width 0 _) = _
    rw [exec_2byte_esc_group maps hnext, case_entry, hid]
    rfl

/-! ## Section 4: exec_inv -/

/-- A device takes a read by its register and its width alone, whatever state it
    is in. -/
def Steady : Prop :=
  ∀ map ∈ maps, ∀ c, map.callback = some c → ∀ offset len io io',
    (c offset len false io).isSome = (c offset len false io').isSome

variable {maps} in
theorem Steady.can_read (h : Steady maps) (mem mem' : Paddr.Mem D) (a : BitVec 32) (len : Nat) :
    can_read maps mem a len = can_read maps mem' a len := by
  unfold X86.can_read
  congr 1
  cases hmap : Paddr.fetch_mmio_map maps a.toNat with
  | none => rfl
  | some map =>
    dsimp only
    cases hc : map.callback with
    | none => rfl
    | some c => exact h map (List.mem_of_find?_eq_some hmap) c hc _ _ _ _

variable {maps} in
theorem Steady.can_fetch (h : Steady maps) (mem mem' : Paddr.Mem D) (a : BitVec 32) (len : Nat) :
    can_fetch maps mem a len = can_fetch maps mem' a len := by
  unfold X86.can_fetch
  rw [h.can_read mem mem']

/-- The state in which `isa_exec_once` calls `fetch_decode_exec`. -/
def start (s : State D) : State D :=
  { s with
    is_jmp := false, is_operand_size_16 := false, ext_opcode := 0, mbase := none, mbr := 0
    moff := 0, seq_pc := s.pc }

/-- A device that takes no reads. -/
def write_only : Paddr.IOMap Unit :=
  ⟨0xa10003f8, 0xa10003ff, 0, some fun _ _ is_write io => if is_write then some io else none⟩

end Nemu.X86
