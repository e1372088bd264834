import IcsPa.Framework.Hex
import IcsPa.Framework.Logged
import IcsPa.Nemu.X86.Exec

/-! # Executing one instruction on x86, with `DEBUG`

    With `DEBUG`, `instr_fetch` appends the bytes it fetches to `log_bytebuf`,
    through `strcatf` of `monitor/debug/log.c`, which does not look at the size
    of the buffer.  The functions of `isa/x86` that fetch are here once more,
    as calls that write; what they compute is the same. -/

open CCall I386

namespace Nemu.X86.Debug

variable {D : Type} (maps : List (Paddr.IOMap D))

/-! ## Section 1: The buffers -/

/-- `strcatf(buf, "%02x ", b)` appends this. -/
def strcatf_02x (b : UInt8) : List UInt8 := Hex.encode_byte b ++ [Hex.ascii ' ']

/-- The bytes of the fetched word. -/
def p_instr (instr : BitVec 32) (i : Nat) : UInt8 := UInt8.ofNat (instr.toNat >>> (8 * i))

/-- The size of `log_bytebuf` and of `log_asmbuf`. -/
def LOG_BUF_SIZE : Nat := 80

/-- The texts in `log_bytebuf` and `log_asmbuf`. -/
structure LogBufs where
  log_bytebuf : List UInt8
  log_asmbuf  : List UInt8

/-- `FMT_WORD`: `"0x%08x"`. -/
def fmt_word (v : BitVec 32) : List UInt8 :=
  let digits := Hex.print v.toNat
  Hex.text ['0', 'x'] ++ List.replicate (8 - digits.length) (Hex.ascii '0') ++ digits

/-- The line in `tempbuf`; a negative field width pads on the other side. -/
def asm_line (this_pc : BitVec 32) (instr_len : Int) (bufs : LogBufs) : List UInt8 :=
  (fmt_word this_pc ++ Hex.text [':', ' ', ' ', ' '] ++ bufs.log_bytebuf ++
    List.replicate (50 - (12 + 3 * instr_len)).natAbs (Hex.ascii ' ') ++ bufs.log_asmbuf).take 255

/-- The line that is written, and the buffers. -/
def asm_print (this_pc : BitVec 32) (instr_len : Int) (bufs : LogBufs) : List UInt8 × LogBufs :=
  (asm_line this_pc instr_len bufs, ⟨[], []⟩)

/-! ## Section 2: `decode.h` and `decode.c` -/

def instr_fetch (len : Nat) (s : State D) : Logged UInt8 (BitVec 32 × State D) := do
  let (instr, mem) ← vaddr_ifetch maps s.seq_pc len s.mem
  -- One `strcatf` for each byte, before the cursor moves.
  Logged.write ((List.range len).flatMap fun i => strcatf_02x (p_instr instr i))
  return (instr, { s with mem := mem, seq_pc := s.seq_pc + BitVec.ofNat 32 len })

def fetch_sib (m : ModR_M) (s : State D) :
    Logged UInt8 ((Option (Fin 8) × Option (Fin 8) × Fin 4) × State D) :=
  if m.R_M = R_ESP then do
    let (v, s) ← instr_fetch maps 1 s
    let sib : SIB := byte v
    let index_reg := if sib.index ≠ R_ESP then some sib.index else none
    return ((some sib.base, index_reg, sib.ss), s)
  else return ((some m.R_M, none, 0), s)

def fetch_disp (disp_size : Nat) (s : State D) : Logged UInt8 (BitVec 32 × State D) :=
  if disp_size ≠ 0 then do
    let (disp, s) ← instr_fetch maps disp_size s
    if disp_size = 1 then return ((disp.setWidth 8).signExtend 32, s)
    return (disp, s)
  else return (0, s)

def load_addr (m : ModR_M) (rm : OpName) (s : State D) : Logged UInt8 (State D) := do
  cassert (m.mod != 3)
  let ((base_reg, index_reg, scale), s) ← fetch_sib maps m s
  let (base_reg, disp_size) := base_and_disp_size m base_reg
  let (disp, s) ← fetch_disp maps disp_size s
  let s := set_mbase base_reg index_reg scale s
  let s := { s with moff := disp }
  return s.set_op rm fun o => { o with type := .OP_TYPE_MEM }

def read_R_M (m : ModR_M) (rm : OpName) (load_rm_val : Bool) (s : State D) :
    Logged UInt8 (State D) := do
  if m.mod = 3 then operand_reg rm load_rm_val m.R_M (s.op rm).width s
  else
    let s ← load_addr maps m rm s
    let s ←
      if load_rm_val then do
        let base ← deref s.mbase
        rtl_lm maps (.val rm) base s.moff (s.op rm).width s
      else pure s
    return s.set_op rm fun o => { o with preg := some (.val rm) }

def read_ModR_M (rm : OpName) (load_rm_val : Bool) (reg : Option OpName) (load_reg_val : Bool)
    (s : State D) : Logged UInt8 (State D) := do
  let (v, s) ← instr_fetch maps 1 s
  let m : ModR_M := byte v
  let s := { s with ext_opcode := BitVec.ofNat 8 m.opcode.val }
  let s ←
    match reg with
    | some reg => liftM (operand_reg reg load_reg_val m.reg (s.op reg).width s)
    | none => pure s
  read_R_M maps m rm load_rm_val s

def decode_op_I (op : OpName) (load_val : Bool) (s : State D) : Logged UInt8 (State D) := do
  let (imm, s) ← instr_fetch maps (s.op op).width s
  return operand_imm op load_val imm s

def operand_rm (rm : OpName) (load_rm_val : Bool) (reg : Option OpName) (load_reg_val : Bool)
    (s : State D) : Logged UInt8 (State D) :=
  read_ModR_M maps rm load_rm_val reg load_reg_val s

def decode_op_O (op : OpName) (load_val : Bool) (s : State D) : Logged UInt8 (State D) := do
  let s := s.set_op op fun o => { o with type := .OP_TYPE_MEM }
  let (moff, s) ← instr_fetch maps 4 s
  let s := { s with moff := moff, mbase := some .rz }
  if load_val then
    let s ← rtl_lm maps (.val op) .rz s.moff (s.op op).width s
    return s.set_op op fun o => { o with preg := some (.val op) }
  return s

def decode_mov_G2E (s : State D) : Logged UInt8 (State D) :=
  operand_rm maps .dest false (some .src1) true s

def decode_mov_E2G (s : State D) : Logged UInt8 (State D) :=
  operand_rm maps .src1 true (some .dest) false s

def decode_I2E (s : State D) : Logged UInt8 (State D) := do
  let s ← operand_rm maps .dest true none false s
  decode_op_I maps .src1 true s

def decode_mov_I2E (s : State D) : Logged UInt8 (State D) := do
  let s ← operand_rm maps .dest false none false s
  decode_op_I maps .src1 true s

def decode_mov_I2r (s : State D) : Logged UInt8 (State D) := do
  let s ← decode_op_r .dest false s
  decode_op_I maps .src1 true s

def decode_E (s : State D) : Logged UInt8 (State D) :=
  operand_rm maps .dest true none false s

def decode_gp7_E (s : State D) : Logged UInt8 (State D) :=
  operand_rm maps .dest false none false s

def decode_SI2E (s : State D) : Logged UInt8 (State D) := do
  cassert (decide ((s.op .dest).width = 2) || decide ((s.op .dest).width = 4))
  let s ← operand_rm maps .dest true none false s
  let s := s.set_op .src1 fun o => { o with width := 1 }
  let s ← decode_op_SI .src1 true s
  if (s.op .dest).width = 2 then
    let p ← dsrc1 s
    return s.put p (s.get p &&& 0xffff)
  return s

def decode_gp2_1_E (s : State D) : Logged UInt8 (State D) := do
  let s ← operand_rm maps .dest true none false s
  return operand_imm .src1 true 1 s

def decode_gp2_cl2E (s : State D) : Logged UInt8 (State D) := do
  let s ← operand_rm maps .dest true none false s
  operand_reg .src1 true R_ECX 4 s

def decode_gp2_Ib2E (s : State D) : Logged UInt8 (State D) := do
  let s ← operand_rm maps .dest true none false s
  let s := s.set_op .src1 fun o => { o with width := 1 }
  decode_op_I maps .src1 true s

def decode_O2a (s : State D) : Logged UInt8 (State D) := do
  let s ← decode_op_O maps .src1 true s
  decode_op_a .dest false s

def decode_a2O (s : State D) : Logged UInt8 (State D) := do
  let s ← decode_op_a .src1 true s
  decode_op_O maps .dest false s

/-! ## Section 3: `special.c` and `exec.c` -/

def exec_inv (s : State D) : Logged UInt8 (State D) := do
  -- Back to the first prefix.
  let s := { s with seq_pc := s.pc }
  let (_, s) ← instr_fetch maps 4 s
  let (_, s) ← instr_fetch maps 4 s
  return rtl_exit .NEMU_ABORT s.pc (-1) s

def case_entry (id ex : State D → Logged UInt8 (State D)) (w : Int) (s : State D) :
    Logged UInt8 (State D) := do
  let s := set_width w s
  let s ← id s
  ex s

/-- An execution helper that does not fetch. -/
def exec_mov (s : State D) : Logged UInt8 (State D) := liftM (X86.exec_mov maps s)

def exec_gp (s : State D) : Logged UInt8 (State D) := case_entry pure (exec_inv maps) 0 s

def exec_2byte_esc (s : State D) : Logged UInt8 (State D) := do
  let (opcode, s) ← instr_fetch maps 1 s
  let opcode := byte opcode
  let s := { s with opcode := BitVec.ofNat 32 opcode.toNat }
  match opcode.toNat with
  | 0x01 => case_entry (decode_gp7_E maps) (exec_gp maps) 0 s
  | _ => exec_inv maps s

def decode_exec (opcode : UInt8) (s : State D) : Logged UInt8 (State D) :=
  match opcode.toNat with
  | 0x0f => case_entry pure (exec_2byte_esc maps) 0 s
  | 0x80 => case_entry (decode_I2E maps) (exec_gp maps) 1 s
  | 0x81 => case_entry (decode_I2E maps) (exec_gp maps) 0 s
  | 0x83 => case_entry (decode_SI2E maps) (exec_gp maps) 0 s
  | 0x88 => case_entry (decode_mov_G2E maps) (exec_mov maps) 1 s
  | 0x89 => case_entry (decode_mov_G2E maps) (exec_mov maps) 0 s
  | 0x8a => case_entry (decode_mov_E2G maps) (exec_mov maps) 1 s
  | 0x8b => case_entry (decode_mov_E2G maps) (exec_mov maps) 0 s
  | 0xa0 => case_entry (decode_O2a maps) (exec_mov maps) 1 s
  | 0xa1 => case_entry (decode_O2a maps) (exec_mov maps) 0 s
  | 0xa2 => case_entry (decode_a2O maps) (exec_mov maps) 1 s
  | 0xa3 => case_entry (decode_a2O maps) (exec_mov maps) 0 s
  | 0xb0 | 0xb1 | 0xb2 | 0xb3 | 0xb4 | 0xb5 | 0xb6 | 0xb7 =>
      case_entry (decode_mov_I2r maps) (exec_mov maps) 1 s
  | 0xb8 | 0xb9 | 0xba | 0xbb | 0xbc | 0xbd | 0xbe | 0xbf =>
      case_entry (decode_mov_I2r maps) (exec_mov maps) 0 s
  | 0xc0 => case_entry (decode_gp2_Ib2E maps) (exec_gp maps) 1 s
  | 0xc1 => case_entry (decode_gp2_Ib2E maps) (exec_gp maps) 0 s
  | 0xc6 => case_entry (decode_mov_I2E maps) (exec_mov maps) 1 s
  | 0xc7 => case_entry (decode_mov_I2E maps) (exec_mov maps) 0 s
  | 0xd0 => case_entry (decode_gp2_1_E maps) (exec_gp maps) 1 s
  | 0xd1 => case_entry (decode_gp2_1_E maps) (exec_gp maps) 0 s
  | 0xd2 => case_entry (decode_gp2_cl2E maps) (exec_gp maps) 1 s
  | 0xd3 => case_entry (decode_gp2_cl2E maps) (exec_gp maps) 0 s
  | 0xd6 => case_entry pure (fun s => liftM (exec_nemu_trap s)) 0 s
  | 0xf6 => case_entry (decode_E maps) (exec_gp maps) 1 s
  | 0xf7 => case_entry (decode_E maps) (exec_gp maps) 0 s
  | 0xfe => case_entry (decode_E maps) (exec_gp maps) 1 s
  | 0xff => case_entry (decode_E maps) (exec_gp maps) 0 s
  | _ => exec_inv maps s

def fetch_decode_exec (fuel : Nat) (s : State D) : Logged UInt8 (State D) :=
  match fuel with
  | 0 => liftM (Except.error Fault.diverges : Except Fault (State D))
  | fuel + 1 => do
      let (opcode, s) ← instr_fetch maps 1 s
      let opcode := byte opcode
      let s := { s with opcode := BitVec.ofNat 32 opcode.toNat }
      if opcode = 0x66 then fetch_decode_exec fuel { s with is_operand_size_16 := true }
      else decode_exec maps opcode s

def isa_exec_once (fuel : Nat) (s : State D) : Logged UInt8 (State D) := do
  let s := { s with
    is_jmp := false, is_operand_size_16 := false, ext_opcode := 0, mbase := none, mbr := 0
    moff := 0, seq_pc := s.pc }
  let s ← fetch_decode_exec maps fuel s
  return update_pc s

/-! ## Section 4: The same results -/

@[simp] theorem instr_fetch_result (len : Nat) (s : State D) :
    (instr_fetch maps len s).result = X86.instr_fetch maps len s := by
  simp [instr_fetch, X86.instr_fetch]

@[simp] theorem fetch_sib_result (m : ModR_M) (s : State D) :
    (fetch_sib maps m s).result = X86.fetch_sib maps m s := by
  unfold fetch_sib X86.fetch_sib
  split <;> simp

@[simp] theorem fetch_disp_result (n : Nat) (s : State D) :
    (fetch_disp maps n s).result = X86.fetch_disp maps n s := by
  unfold fetch_disp X86.fetch_disp
  split
  · by_cases hone : n = 1 <;> simp [hone]
  · rfl

@[simp] theorem load_addr_result (m : ModR_M) (q : OpName) (s : State D) :
    (load_addr maps m q s).result = X86.load_addr maps m q s := by
  simp [load_addr, X86.load_addr]

@[simp] theorem read_R_M_result (m : ModR_M) (q : OpName) (load_val : Bool) (s : State D) :
    (read_R_M maps m q load_val s).result = X86.read_R_M maps m q load_val s := by
  unfold read_R_M X86.read_R_M
  split
  · rfl
  · cases load_val <;> simp

@[simp] theorem operand_rm_result (q : OpName) (load_rm_val : Bool) (reg : Option OpName)
    (load_reg_val : Bool) (s : State D) :
    (operand_rm maps q load_rm_val reg load_reg_val s).result =
      X86.operand_rm maps q load_rm_val reg load_reg_val s := by
  unfold operand_rm read_ModR_M X86.operand_rm X86.read_ModR_M
  cases reg <;> simp

@[simp] theorem decode_op_I_result (q : OpName) (load_val : Bool) (s : State D) :
    (decode_op_I maps q load_val s).result = X86.decode_op_I maps q load_val s := by
  simp [decode_op_I, X86.decode_op_I]

@[simp] theorem decode_op_O_result (q : OpName) (load_val : Bool) (s : State D) :
    (decode_op_O maps q load_val s).result = X86.decode_op_O maps q load_val s := by
  unfold decode_op_O X86.decode_op_O
  cases load_val <;> simp

theorem decode_op_SI_stops (q : OpName) (load_val : Bool) (s : State D) :
    decode_op_SI q load_val s = .error .assertion := by
  unfold decode_op_SI
  cases decide ((s.op q).width = 1) || decide ((s.op q).width = 4) <;> rfl

theorem decode_SI2E_result (s : State D) :
    (decode_SI2E maps s).result = X86.decode_SI2E maps s := by
  -- The rest of the helper is behind a call that does not return.
  simp [decode_SI2E, X86.decode_SI2E, decode_op_SI_stops]

theorem case_entry_result {id ex : State D → Logged UInt8 (State D)}
    {id' ex' : State D → Except Fault (State D)} (hid : ∀ s, (id s).result = id' s)
    (hex : ∀ s, (ex s).result = ex' s) (w : Int) (s : State D) :
    (case_entry id ex w s).result = X86.case_entry id' ex' w s := by
  simp [case_entry, X86.case_entry, hid, hex]

@[simp] theorem exec_inv_result (s : State D) :
    (exec_inv maps s).result = X86.exec_inv maps s := by
  simp [exec_inv, X86.exec_inv]

@[simp] theorem exec_gp_result (s : State D) : (exec_gp maps s).result = X86.exec_gp maps s :=
  case_entry_result (fun _ => rfl) (exec_inv_result maps) 0 s

theorem exec_2byte_esc_result (s : State D) :
    (exec_2byte_esc maps s).result = X86.exec_2byte_esc maps s := by
  have hgp7 : ∀ s, (decode_gp7_E maps s).result = X86.decode_gp7_E maps s :=
    operand_rm_result maps .dest false none false
  unfold exec_2byte_esc X86.exec_2byte_esc
  rw [Logged.bind_result, instr_fetch_result]
  congr 1
  funext ⟨v, u⟩
  by_cases hgroup : (byte v).toNat = 0x01
  · simp only [hgroup]
    exact case_entry_result hgp7 (exec_gp_result maps) 0 _
  · simp only
    exact exec_inv_result maps _

@[simp] theorem decode_I2E_result (s : State D) :
    (decode_I2E maps s).result = X86.decode_I2E maps s := by
  simp [decode_I2E, X86.decode_I2E]

@[simp] theorem decode_mov_I2E_result (s : State D) :
    (decode_mov_I2E maps s).result = X86.decode_mov_I2E maps s := by
  simp [decode_mov_I2E, X86.decode_mov_I2E]

@[simp] theorem decode_mov_I2r_result (s : State D) :
    (decode_mov_I2r maps s).result = X86.decode_mov_I2r maps s := by
  simp [decode_mov_I2r, X86.decode_mov_I2r]

@[simp] theorem decode_E_result (s : State D) :
    (decode_E maps s).result = X86.decode_E maps s :=
  operand_rm_result maps .dest true none false s

@[simp] theorem decode_gp2_Ib2E_result (s : State D) :
    (decode_gp2_Ib2E maps s).result = X86.decode_gp2_Ib2E maps s := by
  simp [decode_gp2_Ib2E, X86.decode_gp2_Ib2E]

@[simp] theorem decode_gp2_1_E_result (s : State D) :
    (decode_gp2_1_E maps s).result = X86.decode_gp2_1_E maps s := by
  simp [decode_gp2_1_E, X86.decode_gp2_1_E]

@[simp] theorem decode_gp2_cl2E_result (s : State D) :
    (decode_gp2_cl2E maps s).result = X86.decode_gp2_cl2E maps s := by
  simp [decode_gp2_cl2E, X86.decode_gp2_cl2E]

@[simp] theorem decode_O2a_result (s : State D) :
    (decode_O2a maps s).result = X86.decode_O2a maps s := by
  simp [decode_O2a, X86.decode_O2a]

@[simp] theorem decode_a2O_result (s : State D) :
    (decode_a2O maps s).result = X86.decode_a2O maps s := by
  simp [decode_a2O, X86.decode_a2O]

theorem decode_exec_result (opcode : UInt8) (s : State D) :
    (decode_exec maps opcode s).result = X86.decode_exec maps opcode s := by
  have hmov : ∀ s, (exec_mov maps s).result = X86.exec_mov maps s := fun _ => rfl
  have hrm : ∀ q load reg load' s, (operand_rm maps q load reg load' s).result =
      X86.operand_rm maps q load reg load' s := operand_rm_result maps
  -- Both tables have the same entries, so one case of one is one of the other.
  unfold decode_exec
  split
  case h_1 hopcode =>
    rw [X86.decode_exec, hopcode]
    exact case_entry_result (fun _ => rfl) (exec_2byte_esc_result maps) _ s
  case h_2 hopcode | h_3 hopcode =>
    rw [X86.decode_exec, hopcode]
    exact case_entry_result (decode_I2E_result maps) (exec_gp_result maps) _ s
  case h_4 hopcode =>
    rw [X86.decode_exec, hopcode]
    exact case_entry_result (decode_SI2E_result maps) (exec_gp_result maps) _ s
  case h_5 hopcode | h_6 hopcode | h_7 hopcode | h_8 hopcode =>
    rw [X86.decode_exec, hopcode]
    exact case_entry_result (hrm _ _ _ _) hmov _ s
  case h_9 hopcode | h_10 hopcode =>
    rw [X86.decode_exec, hopcode]
    exact case_entry_result (decode_O2a_result maps) hmov _ s
  case h_11 hopcode | h_12 hopcode =>
    rw [X86.decode_exec, hopcode]
    exact case_entry_result (decode_a2O_result maps) hmov _ s
  case h_29 hopcode | h_30 hopcode =>
    rw [X86.decode_exec, hopcode]
    exact case_entry_result (decode_gp2_Ib2E_result maps) (exec_gp_result maps) _ s
  case h_31 hopcode | h_32 hopcode =>
    rw [X86.decode_exec, hopcode]
    exact case_entry_result (decode_mov_I2E_result maps) hmov _ s
  case h_33 hopcode | h_34 hopcode =>
    rw [X86.decode_exec, hopcode]
    exact case_entry_result (decode_gp2_1_E_result maps) (exec_gp_result maps) _ s
  case h_35 hopcode | h_36 hopcode =>
    rw [X86.decode_exec, hopcode]
    exact case_entry_result (decode_gp2_cl2E_result maps) (exec_gp_result maps) _ s
  case h_37 hopcode =>
    rw [X86.decode_exec, hopcode]
    exact case_entry_result (fun _ => rfl) (fun _ => rfl) _ s
  case h_38 hopcode | h_39 hopcode | h_40 hopcode | h_41 hopcode =>
    rw [X86.decode_exec, hopcode]
    exact case_entry_result (hrm _ _ _ _) (exec_gp_result maps) _ s
  case h_42 =>
    unfold X86.decode_exec
    split
    all_goals first
      | exact exec_inv_result maps s
      | exact absurd ‹_› (by assumption)
  all_goals
    rename_i hopcode
    rw [X86.decode_exec, hopcode]
    exact case_entry_result (decode_mov_I2r_result maps) hmov _ s

theorem fetch_decode_exec_result (fuel : Nat) (s : State D) :
    (fetch_decode_exec maps fuel s).result = X86.fetch_decode_exec maps fuel s := by
  induction fuel generalizing s with
  | zero => rfl
  | succ fuel ih =>
    simp only [fetch_decode_exec, X86.fetch_decode_exec, Logged.bind_result, instr_fetch_result]
    congr 1
    funext r
    split
    · exact ih _
    · exact decode_exec_result maps _ _

/-- The text does not change what an instruction does. -/
theorem isa_exec_once_result (fuel : Nat) (s : State D) :
    (isa_exec_once maps fuel s).result = X86.isa_exec_once maps fuel s := by
  simp [isa_exec_once, X86.isa_exec_once, fetch_decode_exec_result]

end Nemu.X86.Debug
