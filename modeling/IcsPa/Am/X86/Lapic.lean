import IcsPa.Framework.Bytes
import IcsPa.Framework.Fault

/-! # How many processors there are

    `__am_lapic_init` of `am/src/x86/qemu/trm.c`: it looks for the floating pointer
    of the multiprocessor configuration, and goes through the entries of the
    table that it points to.  The entry of a processor begins with a zero byte and
    has 20 bytes; any other one has 8. -/

open CCall Bytes

namespace Am.X86.Lapic

/-! ## Section 1: The code -/

def MAX_CPU : Nat := 8

/-- `_MP_` -/
def MAGIC : Nat := 0x5f504d5f

/-- `sizeof(MPConf)` -/
def sizeof_conf : Nat := 44

/-- `conf` of the `MPDesc` at `st`. -/
def desc_conf (m : Store) (st : Nat) : Nat := load m (st + 4) 4

/-- `length` of the `MPConf` at `conf`. -/
def conf_length (m : Store) (conf : Nat) : Nat := load m (conf + 4) 2

def conf_lapicaddr (m : Store) (conf : Nat) : Nat := load m (conf + 36) 4

/-- The outer loop, with `n` addresses to go. -/
def find_desc (m : Store) : Nat → Nat → Option Nat
  | 0, _ => none
  | n + 1, st => if load m st 4 = MAGIC then some st else find_desc m n (st + 1)

/-- The inner loop, given up after `fuel` turns. -/
def count_cpus (m : Store) (ed : Nat) : Nat → Nat → Nat → Except Fault Nat
  | 0, _, _ => .error .diverges
  | fuel + 1, ptr, ncpu =>
      if ptr < ed then
        if m ptr = 0 then do
          cassert (ncpu + 1 ≤ MAX_CPU)
          count_cpus m ed fuel (ptr + 12 + 8) (ncpu + 1)
        else count_cpus m ed fuel (ptr + 8) ncpu
      else .ok ncpu

/-- The address of the local APIC, and the number of processors. -/
def lapic_init (m : Store) : Except Fault (Nat × Nat) :=
  match find_desc m (0xffffff - 0xf0000) 0xf0000 with
  | none => .error .assertion
  | some st => do
      let conf := desc_conf m st
      let ncpu ← count_cpus m (conf + conf_length m conf) (conf_length m conf + 1)
        (conf + sizeof_conf) 0
      return (conf_lapicaddr m conf, ncpu)

/-! ## Section 2: The table -/

/-- An entry of the table. -/
inductive Entry where
  | processor (data : Vector UInt8 19)
  | other (type : UInt8) (htype : type ≠ 0) (data : Vector UInt8 7)

namespace Entry

def bytes : Entry → List UInt8
  | processor data => 0 :: data.toList
  | other type _ data => type :: data.toList

def isProcessor : Entry → Bool
  | processor _ => true
  | other .. => false

end Entry

/-- The bytes of the entries, one after the other. -/
def table (entries : List Entry) : List UInt8 := entries.flatMap Entry.bytes

def processors (entries : List Entry) : Nat := entries.countP Entry.isProcessor

/-- The memory holds these bytes at `a`. -/
def HasBytes (m : Store) (a : Nat) (bs : List UInt8) : Prop :=
  ∀ i (h : i < bs.length), m (a + i) = bs[i]

theorem hasBytes_append {m : Store} {a : Nat} {bs cs : List UInt8} (h : HasBytes m a (bs ++ cs)) :
    HasBytes m a bs ∧ HasBytes m (a + bs.length) cs := by
  constructor
  · intro i hi
    rw [h i (by rw [List.length_append]; omega), List.getElem_append_left hi]
  · intro i hi
    rw [Nat.add_assoc, h (bs.length + i) (by rw [List.length_append]; omega),
      List.getElem_append_right (by omega)]
    congr 1
    omega

/-! ## Section 3: The loops -/

theorem find_desc_first {m : Store} {st n : Nat} (hmagic : load m st 4 = MAGIC) {x : Nat}
    (hx : x ≤ st)
    (hn : st < x + n) (hfirst : ∀ y, x ≤ y → y < st → load m y 4 ≠ MAGIC) :
    find_desc m n x = some st := by
  induction n generalizing x with
  | zero => omega
  | succ n ih =>
    unfold find_desc
    by_cases hhere : x = st
    · subst hhere
      rw [if_pos hmagic]
    · rw [if_neg (hfirst x (Nat.le_refl x) (by omega))]
      exact ih (by omega) (by omega) fun y hy => hfirst y (by omega)

/-- The loop counts the processors, up to the greatest number. -/
theorem count_cpus_table {m : Store} {entries : List Entry} {ptr ncpu fuel : Nat}
    (htable : HasBytes m ptr (table entries)) (hfuel : (table entries).length < fuel)
    (hncpu : ncpu ≤ MAX_CPU) :
    count_cpus m (ptr + (table entries).length) fuel ptr ncpu =
      if ncpu + processors entries ≤ MAX_CPU then .ok (ncpu + processors entries)
      else .error .assertion := by
  induction entries generalizing ptr ncpu fuel with
  | nil =>
    obtain ⟨fuel, rfl⟩ : ∃ f, fuel = f + 1 := ⟨fuel - 1, by omega⟩
    have hnone : processors [] = 0 := rfl
    have hend : ptr + (table []).length = ptr := rfl
    unfold count_cpus
    rw [hend, if_neg (Nat.lt_irrefl ptr), hnone, Nat.add_zero, if_pos hncpu]
  | cons e entries ih =>
    have hcons : table (e :: entries) = e.bytes ++ table entries := List.flatMap_cons
    rw [hcons] at htable hfuel ⊢
    rw [List.length_append] at hfuel ⊢
    obtain ⟨hentry, hrest⟩ := hasBytes_append htable
    obtain ⟨fuel, rfl⟩ : ∃ f, fuel = f + 1 := ⟨fuel - 1, by omega⟩
    have hend : ptr + (e.bytes.length + (table entries).length) =
        ptr + e.bytes.length + (table entries).length := by omega
    unfold count_cpus
    cases e with
    | processor data =>
      have hlen : (Entry.processor data).bytes.length = 20 := by simp [Entry.bytes]
      have hzero : m ptr = 0 := hentry 0 (by rw [hlen]; decide)
      have hcount : processors (.processor data :: entries) = processors entries + 1 :=
        List.countP_cons_of_pos rfl
      rw [if_pos (by omega), if_pos hzero, hend, hlen, hcount]
      rw [hlen] at hrest hfuel
      by_cases hmax : ncpu + 1 ≤ MAX_CPU
      · have hadd : ncpu + (processors entries + 1) = ncpu + 1 + processors entries := by omega
        rw [decide_eq_true hmax, cassert_true, ok_bind, hadd]
        exact ih hrest (by omega) hmax
      · rw [decide_eq_false hmax, cassert_false, error_bind, if_neg (by omega)]
    | other type htype data =>
      have hlen : (Entry.other type htype data).bytes.length = 8 := by simp [Entry.bytes]
      have hfirst : m ptr = type := hentry 0 (by rw [hlen]; decide)
      have hcount : processors (.other type htype data :: entries) = processors entries :=
        List.countP_cons_of_neg Bool.noConfusion
      rw [if_pos (by omega), if_neg (by rw [hfirst]; exact htype), hend, hlen, hcount]
      rw [hlen] at hrest hfuel
      exact ih hrest (by omega) hncpu

/-! ## Section 4: The number of processors -/

/-- What the firmware leaves in the memory: the first floating pointer points to a
    table with these entries. -/
structure Firmware (m : Store) (st : Nat) (entries : List Entry) : Prop where
  lo     : 0xf0000 ≤ st
  hi     : st < 0xffffff
  magic  : load m st 4 = MAGIC
  first  : ∀ x, 0xf0000 ≤ x → x < st → load m x 4 ≠ MAGIC
  length : conf_length m (desc_conf m st) = sizeof_conf + (table entries).length
  table  : HasBytes m (desc_conf m st + sizeof_conf) (table entries)

/-- Whatever entries the table has, and in whatever order, the processors among
    them are counted, and the call panics exactly if there are too many. -/
theorem lapic_init_counts {m : Store} {st : Nat} {entries : List Entry}
    (h : Firmware m st entries) :
    lapic_init m =
      if processors entries ≤ MAX_CPU then .ok (conf_lapicaddr m (desc_conf m st),
        processors entries)
      else .error .assertion := by
  have hhi := h.hi
  have hlo := h.lo
  have hfind : find_desc m (0xffffff - 0xf0000) 0xf0000 = some st :=
    find_desc_first h.magic h.lo (by omega) h.first
  have hcount := count_cpus_table h.table (Nat.lt_add_left (sizeof_conf) (Nat.lt_succ_self _))
    (Nat.zero_le MAX_CPU)
  unfold lapic_init
  rw [hfind]
  dsimp only
  rw [h.length, ← Nat.add_assoc, Nat.add_assoc sizeof_conf, hcount, Nat.zero_add]
  by_cases hmax : processors entries ≤ MAX_CPU
  · rw [if_pos hmax, if_pos hmax]
    rfl
  · rw [if_neg hmax, if_neg hmax]
    rfl

/-- A table at 0x2000 with two processors and a bus between them. -/
def two_processors : Store
  | 0xf0001 => 0x5f
  | 0xf0002 => 0x4d
  | 0xf0003 => 0x50
  | 0xf0004 => 0x5f
  | 0xf0006 => 0x20
  | 0x2004 => 92
  | 0x2026 => 0xe0
  | 0x2027 => 0xfe
  | 0x2040 => 1
  | _ => 0

def two_entries : List Entry :=
  [.processor (Vector.replicate 19 0), .other 1 (by decide) (Vector.replicate 7 0),
   .processor (Vector.replicate 19 0)]

theorem two_firmware : Firmware two_processors 0xf0001 two_entries where
  lo := by decide
  hi := by decide
  magic := by decide
  first x hlo hhi := by
    have hx : x = 0xf0000 := by omega
    subst hx
    decide
  length := by decide
  table := by
    unfold HasBytes
    decide

theorem lapic_init_counts_two : lapic_init two_processors = .ok (0xfee00000, 2) :=
  lapic_init_counts two_firmware

end Am.X86.Lapic
