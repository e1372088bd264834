import IcsPa.Framework.Bytes
import IcsPa.Framework.Fault

/-! # A disk on programmed input and output

    An ATA drive as its host sees it, alone on its cable, with 28 bits of a
    block number and one block of 512 bytes to a command.  After a command, and
    after the last word of a block that is written, the drive is busy, for as many
    polls of its status as it likes.

    What the drive does not define is an error here: to touch a register or the
    data while it is busy or while a block is under way, to ask for data that was
    not commanded, or for a block that the drive does not have. -/

open CCall Bytes

namespace Ata

/-- What is under way: the block, and the next of its words. -/
inductive Mode where
  | idle
  | reading (lba word : Nat)
  | writing (lba word : Nat)
  deriving DecidableEq

structure Drive where
  count   : Nat
  low     : Nat
  mid     : Nat
  high    : Nat
  device  : Nat
  mode    : Mode
  /-- How many polls still find it busy. -/
  busy    : Nat
  /-- How long it is going to be busy, time after time. -/
  delays  : List Nat
  media   : Store
  /-- How many blocks it has. -/
  blocks  : Nat

def BLOCK : Nat := 512

namespace Drive

/-- It gets busy. -/
def work (d : Drive) : Drive := { d with busy := d.delays.headD 0, delays := d.delays.tail }

/-- The status: it is busy, or ready, with the request for data.  Nobody
    answers for a second drive. -/
def status (d : Drive) : Nat × Drive :=
  if d.device / 16 % 2 = 1 then (0, d)
  else if d.busy ≠ 0 then (0x80, { d with busy := d.busy - 1 })
  else (if d.mode = .idle then 0x40 else 0x48, d)

/-- The block that the registers name. -/
def lba (d : Drive) : Nat := d.low + 2 ^ 8 * d.mid + 2 ^ 16 * d.high + 2 ^ 24 * (d.device % 16)

/-- One block is asked for by its number, from the first drive. -/
def Selects (d : Drive) : Prop :=
  d.count = 1 ∧ d.device / 64 % 2 = 1 ∧ d.device / 16 % 2 = 0 ∧ d.lba < d.blocks

instance (d : Drive) : Decidable d.Selects := inferInstanceAs (Decidable (_ ∧ _ ∧ _ ∧ _))

def command (d : Drive) (cmd : Nat) : Except Fault Drive :=
  if d.Selects ∧ cmd = 0x20 then .ok { d with mode := .reading d.lba 0 }.work
  else if d.Selects ∧ cmd = 0x30 then .ok { d with mode := .writing d.lba 0 }.work
  else .error .assertion

/-- A byte is put to the register `reg`, the command register being the seventh. -/
def set (d : Drive) (reg v : Nat) : Except Fault Drive :=
  if d.busy ≠ 0 ∨ d.mode ≠ .idle then .error .assertion
  else
    match reg with
    | 2 => .ok { d with count := v }
    | 3 => .ok { d with low := v }
    | 4 => .ok { d with mid := v }
    | 5 => .ok { d with high := v }
    | 6 => .ok { d with device := v }
    | 7 => d.command v
    | _ => .error .assertion

/-- The next 32 bits of a block that is read. -/
def get_word (d : Drive) : Except Fault (Nat × Drive) :=
  match d.mode with
  | .reading lba word =>
      if d.busy ≠ 0 then .error .assertion
      else .ok (load d.media (BLOCK * lba + 4 * word) 4,
        { d with mode := if word + 1 = 128 then .idle else .reading lba (word + 1) })
  | _ => .error .assertion

/-- The next 32 bits of a block that is written. -/
def put_word (d : Drive) (v : Nat) : Except Fault Drive :=
  match d.mode with
  | .writing lba word =>
      if d.busy ≠ 0 then .error .assertion
      else
        let d := { d with media := store d.media (BLOCK * lba + 4 * word) v 4 }
        .ok (if word + 1 = 128 then { d with mode := .idle }.work
          else { d with mode := .writing lba (word + 1) })
  | _ => .error .assertion

/-! ## The state between two commands -/

/-- Nothing is under way, and no poll is going to be answered with "busy" as
    often as `fuel` times. -/
structure Ready (d : Drive) (fuel : Nat) : Prop where
  idle  : d.mode = .idle
  first : d.device / 16 % 2 = 0
  busy  : d.busy < fuel
  soon  : ∀ n ∈ d.delays, n < fuel
  bound : d.blocks ≤ 2 ^ 28

theorem work_busy {d : Drive} {fuel : Nat} (hpos : 0 < fuel) (h : ∀ n ∈ d.delays, n < fuel) :
    d.work.busy < fuel ∧ ∀ n ∈ d.work.delays, n < fuel := by
  unfold work
  cases hd : d.delays with
  | nil => exact ⟨hpos, fun n hn => absurd hn List.not_mem_nil⟩
  | cons x rest =>
    rw [hd] at h
    exact ⟨h x List.mem_cons_self, fun n hn => h n (List.mem_cons_of_mem x hn)⟩

end Drive

end Ata
