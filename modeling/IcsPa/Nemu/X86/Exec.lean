import IcsPa.Nemu.X86.Decode

/-! # Executing one instruction on x86

    `isa/x86/exec/exec.c` with the execution helpers of `data-mov.h`,
    `special.c`, and the multiplications and divisions of `arith.h`.  The
    helpers of `arith.h` are not in the opcode table yet. -/

open CCall I386

namespace Nemu.X86

variable {D : Type}

/-! ## Section 1: Multiplication and division -/

def exec_mul (s : State D) : Except Fault (State D) := do
  let width := (s.op .dest).width
  let s ← rtl_lr s0 R_EAX width s
  let d ← ddest s
  let s := rtl_mul_lo s1 d s0 s
  match width with
  | 1 => rtl_sr R_AX s1 2 s
  | 2 => do
      let s ← rtl_sr R_AX s1 2 s
      let s := rtl_shri s1 s1 16 s
      rtl_sr R_DX s1 2 s
  | 4 => do
      let s := rtl_mul_hi s0 d s0 s
      let s ← rtl_sr R_EDX s0 4 s
      rtl_sr R_EAX s1 4 s
  | _ => .error .assertion

def exec_imul1 (s : State D) : Except Fault (State D) := do
  let d ← ddest s
  match (s.op .dest).width with
  | 1 => do
      let s ← rtl_lr s0 R_EAX 1 s
      let s := rtl_imul_lo s1 d s0 s
      rtl_sr R_AX s1 2 s
  | 2 => do
      let s ← rtl_lr s0 R_EAX 2 s
      let s := rtl_imul_lo s1 d s0 s
      let s ← rtl_sr R_AX s1 2 s
      let s := rtl_shri s1 s1 16 s
      rtl_sr R_DX s1 2 s
  | 4 =>
      -- `edx` is written before the second factor is read again.
      let (pdest, s) := if d = .gpr R_EDX then (s0, rtl_mv s0 d s) else (d, s)
      let s := rtl_imul_hi (.gpr R_EDX) pdest (.gpr R_EAX) s
      .ok (rtl_imul_lo (.gpr R_EAX) pdest (.gpr R_EAX) s)
  | _ => .error .assertion

def exec_div (s : State D) : Except Fault (State D) := do
  let d ← ddest s
  match (s.op .dest).width with
  | 1 => do
      let s ← rtl_lr s0 R_AX 2 s
      let s ← rtl_div_q s1 s0 d s
      let s ← rtl_sr R_AL s1 1 s
      let s ← rtl_div_r s1 s0 d s
      rtl_sr R_AH s1 1 s
  | 2 => do
      let s ← rtl_lr s0 R_AX 2 s
      let s ← rtl_lr s1 R_DX 2 s
      let s := rtl_shli s1 s1 16 s
      let s := rtl_or s0 s0 s1 s
      let s ← rtl_div_q s1 s0 d s
      let s ← rtl_sr R_AX s1 2 s
      let s ← rtl_div_r s1 s0 d s
      rtl_sr R_DX s1 2 s
  | 4 => do
      let pdest := if d = .gpr R_EAX then s0 else d
      let s := rtl_mv s0 (.gpr R_EAX) s
      let s ← rtl_div64_q (.gpr R_EAX) (.gpr R_EDX) s0 pdest s
      rtl_div64_r (.gpr R_EDX) (.gpr R_EDX) s0 pdest s
  | _ => .error .assertion

def exec_idiv (s : State D) : Except Fault (State D) := do
  let d ← ddest s
  match (s.op .dest).width with
  | 1 => do
      let s ← rtl_lr s0 R_AX 2 s
      let s ← rtl_idiv_q s1 s0 d s
      let s ← rtl_sr R_AL s1 1 s
      let s ← rtl_idiv_r s1 s0 d s
      rtl_sr R_AH s1 1 s
  | 2 => do
      let s ← rtl_lr s0 R_AX 2 s
      let s ← rtl_lr s1 R_DX 2 s
      let s := rtl_shli s1 s1 16 s
      let s := rtl_or s0 s0 s1 s
      let s ← rtl_idiv_q s1 s0 d s
      let s ← rtl_sr R_AX s1 2 s
      let s ← rtl_idiv_r s1 s0 d s
      rtl_sr R_DX s1 2 s
  | 4 => do
      let pdest := if d = .gpr R_EAX then s0 else d
      let s := rtl_mv s0 (.gpr R_EAX) s
      let s ← rtl_idiv64_q (.gpr R_EAX) (.gpr R_EDX) s0 pdest s
      rtl_idiv64_r (.gpr R_EDX) (.gpr R_EDX) s0 pdest s
  | _ => .error .assertion

/-! ## Section 2: Other execution helpers -/

def rtl_exit (state : RunState) (halt_pc halt_ret : BitVec 32) (s : State D) : State D :=
  { s with nemu_state := ⟨state, halt_pc.toNat, halt_ret.toNat⟩ }

section memory
variable (maps : List (Paddr.IOMap D))

def exec_mov (s : State D) : Except Fault (State D) := do
  let src ← dsrc1 s
  operand_write maps .dest src s

/-- The eight bytes at the start of the instruction are fetched again for the
    message. -/
def exec_inv (s : State D) : Except Fault (State D) := do
  let s := { s with seq_pc := s.pc }
  let (_, s) ← instr_fetch maps 4 s
  let (_, s) ← instr_fetch maps 4 s
  return rtl_exit .NEMU_ABORT s.pc (-1) s

def exec_nemu_trap (s : State D) : Except Fault (State D) :=
  .ok (rtl_exit .NEMU_END s.pc (s.gpr R_EAX) s)

/-! ## Section 3: `exec.c` -/

def set_width (width : Int) (s : State D) : State D :=
  if width = -1 then s
  else
    let width := if width = 0 then (if s.is_operand_size_16 then 2 else 4) else width.toNat
    { s with op := fun op => { s.op op with width := width } }

/-- `CASE_ENTRY(idx, id, ex, w)`. -/
def case_entry (id ex : State D → Except Fault (State D)) (w : Int) (s : State D) :
    Except Fault (State D) := do
  let s := set_width w s
  let s ← id s
  ex s

/-- The entries of the groups `gp1` to `gp5` and `gp7`: all are `EMPTY`. -/
def exec_gp (s : State D) : Except Fault (State D) := case_entry .ok (exec_inv maps) 0 s

def exec_2byte_esc (s : State D) : Except Fault (State D) := do
  let (opcode, s) ← instr_fetch maps 1 s
  let opcode := byte opcode
  let s := { s with opcode := BitVec.ofNat 32 opcode.toNat }
  match opcode.toNat with
  | 0x01 => case_entry (decode_gp7_E maps) (exec_gp maps) 0 s
  | _ => exec_inv maps s

/-- The `switch` of `fetch_decode_exec` without the prefix. -/
def decode_exec (opcode : UInt8) (s : State D) : Except Fault (State D) :=
  match opcode.toNat with
  | 0x0f => case_entry .ok (exec_2byte_esc maps) 0 s
  | 0x80 => case_entry (decode_I2E maps) (exec_gp maps) 1 s
  | 0x81 => case_entry (decode_I2E maps) (exec_gp maps) 0 s
  | 0x83 => case_entry (decode_SI2E maps) (exec_gp maps) 0 s
  | 0x88 => case_entry (decode_mov_G2E maps) (exec_mov maps) 1 s
  | 0x89 => case_entry (decode_mov_G2E maps) (exec_mov maps) 0 s
  | 0x8a => case_entry (decode_mov_E2G maps) (exec_mov maps) 1 s
  | 0x8b => case_entry (decode_mov_E2G maps) (exec_mov maps) 0 s
  | 0xa0 => case_entry (decode_O2a maps) (exec_mov maps) 1 s
  | 0xa1 => case_entry (decode_O2a maps) (exec_mov maps) 0 s
  | 0xa2 => case_entry (decode_a2O maps) (exec_mov maps) 1 s
  | 0xa3 => case_entry (decode_a2O maps) (exec_mov maps) 0 s
  | 0xb0 | 0xb1 | 0xb2 | 0xb3 | 0xb4 | 0xb5 | 0xb6 | 0xb7 =>
      case_entry (decode_mov_I2r maps) (exec_mov maps) 1 s
  | 0xb8 | 0xb9 | 0xba | 0xbb | 0xbc | 0xbd | 0xbe | 0xbf =>
      case_entry (decode_mov_I2r maps) (exec_mov maps) 0 s
  | 0xc0 => case_entry (decode_gp2_Ib2E maps) (exec_gp maps) 1 s
  | 0xc1 => case_entry (decode_gp2_Ib2E maps) (exec_gp maps) 0 s
  | 0xc6 => case_entry (decode_mov_I2E maps) (exec_mov maps) 1 s
  | 0xc7 => case_entry (decode_mov_I2E maps) (exec_mov maps) 0 s
  | 0xd0 => case_entry (decode_gp2_1_E maps) (exec_gp maps) 1 s
  | 0xd1 => case_entry (decode_gp2_1_E maps) (exec_gp maps) 0 s
  | 0xd2 => case_entry (decode_gp2_cl2E maps) (exec_gp maps) 1 s
  | 0xd3 => case_entry (decode_gp2_cl2E maps) (exec_gp maps) 0 s
  | 0xd6 => case_entry .ok exec_nemu_trap 0 s
  | 0xf6 => case_entry (decode_E maps) (exec_gp maps) 1 s
  | 0xf7 => case_entry (decode_E maps) (exec_gp maps) 0 s
  | 0xfe => case_entry (decode_E maps) (exec_gp maps) 1 s
  | 0xff => case_entry (decode_E maps) (exec_gp maps) 0 s
  | _ => exec_inv maps s

/-- `fetch_decode_exec` with at most `fuel` fetches of an opcode. -/
def fetch_decode_exec (fuel : Nat) (s : State D) : Except Fault (State D) :=
  match fuel with
  | 0 => .error .diverges
  | fuel + 1 => do
      let (opcode, s) ← instr_fetch maps 1 s
      let opcode := byte opcode
      let s := { s with opcode := BitVec.ofNat 32 opcode.toNat }
      if opcode = 0x66 then fetch_decode_exec fuel { s with is_operand_size_16 := true }
      else decode_exec maps opcode s

def update_pc (s : State D) : State D :=
  { s with pc := if s.is_jmp then s.jmp_pc else s.seq_pc }

/-- `isa_exec_once`; what is not set here is what the `DecodeExecState` on the
    stack holds. -/
def isa_exec_once (fuel : Nat) (s : State D) : Except Fault (State D) := do
  let s := { s with
    is_jmp := false, is_operand_size_16 := false, ext_opcode := 0, mbase := none, mbr := 0
    moff := 0, seq_pc := s.pc }
  let s ← fetch_decode_exec maps fuel s
  return update_pc s

end memory

end Nemu.X86
