import IcsPa.Am.X86.Paging
import IcsPa.Framework.Fault

/-! # The page tables of x86-qemu

    `abstract-machine/am/src/x86/qemu/vme.c`, for both configurations.  The
    functions run on one memory of words, in which page tables lie at their
    own physical address, and on the `ptr` fields of the `AddrSpace` objects.

    `pgalloc` is the function given to `vme_init`: its result depends on the
    pages it has handed out so far, and 0 is its `NULL`. -/

open CCall

namespace Am.X86

/-! ## Section 1: State -/

/-- Where a `uintptr_t *` points: the `ptr` field of an `AddrSpace` (`none` is
    the local one of `vme_init`), or a word of memory. -/
inductive Loc (A : Type) where
  | ptr (as : Option A)
  | mem (a : Nat)

/-- `ptr` is `none` before the field is written; `pages` are the pages that
    `pgalloc` has handed out, the last one first. -/
structure Vme (A : Type) where
  ptr   : Option A → Option Nat
  mem   : Nat → Nat
  kpt   : Nat
  pages : List Nat

section vme
variable {A : Type} [DecidableEq A] (arch : Arch) (pgalloc : List Nat → Nat)

/-- `&pt[index]`; the index of a field is 0. -/
def Loc.index : Loc A → Nat → Loc A
  | .ptr as, _ => .ptr as
  | .mem pt, index => .mem (cell arch pt index)

namespace Vme

def read (s : Vme A) : Loc A → Except Fault Nat
  | .ptr as =>
      match s.ptr as with
      | some v => .ok v
      | none => .error .outOfBounds
  | .mem a => .ok (s.mem a)

def write (s : Vme A) (v : Nat) : Loc A → Vme A
  | .ptr as => { s with ptr := Function.update s.ptr as (some v) }
  | .mem a => { s with mem := Function.update s.mem a v }

/-- The loop of `pgallocz`. -/
def zero (mem : Nat → Nat) (base : Nat) : Nat → Nat :=
  (List.range arch.entries).foldl (fun mem i => Function.update mem (cell arch base i) 0) mem

def pgallocz (s : Vme A) : Except Fault (Nat × Vme A) := do
  let base := pgalloc s.pages
  cassert (base != 0)
  return (base, { s with mem := zero arch s.mem base, pages := base :: s.pages })

/-- The loop of `ptwalk`, from the table at `cur`. -/
def ptwalk_loop (addr flags : Nat) :
    List PtInfo → Loc A → Vme A → Except Fault (Loc A × Vme A)
  | [], _, _ => .error .assertion
  | [ptinfo], cur, s => .ok (cur.index arch (indexof addr ptinfo), s)
  | ptinfo :: infos, cur, s => do
      let entry := cur.index arch (indexof addr ptinfo)
      let v ← s.read entry
      if !present v then
        let (next_page, s) ← pgallocz arch pgalloc s
        ptwalk_loop addr flags infos (.mem next_page)
          (s.write (next_page ||| PTE_P ||| flags) entry)
      else ptwalk_loop addr flags infos (.mem (baseof arch v)) s

def ptwalk (as : Option A) (addr flags : Nat) (s : Vme A) : Except Fault (Loc A × Vme A) :=
  ptwalk_loop arch pgalloc addr flags arch.pgtables (.ptr as) s

/-- The values of `cur` in `for (cur = start; cur != end_; cur += step)`, at
    most `n`; the sums are modulo the size of a word. -/
def addrs (step end_ : Nat) : Nat → Nat → List Nat
  | 0, _ => []
  | n + 1, cur =>
      if cur = end_ then [] else cur :: addrs step end_ n ((cur + step) % arch.wordSize)

/-- The values of `cur` in the loop over an area; no loop is longer than it
    takes to come back to the start. -/
def area_addrs (step : Nat) (area : Area) : List Nat :=
  addrs arch step area.end_ (arch.wordSize / step) area.start

/-- The body of the loops of `vme_init`. -/
def map_kernel (s : Vme A) (cur : Nat) : Except Fault (Vme A) := do
  let (ptentry, s) ← ptwalk arch pgalloc none cur PTE_W s
  return s.write (cur ||| PTE_P ||| PTE_W) ptentry

/-- `vme_init` on the bootstrap processor. -/
def vme_init (s : Vme A) : Except Fault (Vme A) :=
  match arch with
  | .x86_64 => .ok { s with kpt := PML4_ADDR }
  | .i386 => do
      let s := s.write 0 (.ptr none)
      let s ← (arch.vm_areas.filter (·.kernel)).foldlM
        (fun s vma => (area_addrs arch pgsize vma.area).foldlM (map_kernel arch pgalloc) s) s
      let ptr ← s.read (.ptr none)
      -- The local `AddrSpace` goes out of scope.
      return { s with kpt := baseof arch ptr, ptr := Function.update s.ptr none none }

/-- The body of the loops of `protect`. -/
def copy_entry (upt : Nat) (s : Vme A) (cur : Nat) : Vme A :=
  let index := indexof cur arch.level1
  s.write (s.mem (cell arch s.kpt index)) (.mem (cell arch upt index))

def protect (as : A) (s : Vme A) : Except Fault (Vme A) := do
  let (upt, s) ← pgallocz arch pgalloc s
  let s := (arch.vm_areas.filter (·.kernel)).foldl
    (fun s vma => (area_addrs arch (1 <<< arch.level1.shift) vma.area).foldl
      (copy_entry arch upt) s) s
  return s.write (upt ||| PTE_P ||| PTE_U) (.ptr (some as))

/-- `ROUNDDOWN(a, mmu.pgsize)`. -/
def rounddown (a : Nat) : Nat := a &&& (arch.wordSize - pgsize)

/-- The entry that `map` writes. -/
def user_entry (pa prot : Nat) : Nat :=
  pa ||| PTE_P ||| PTE_U ||| (if prot &&& MMAP_WRITE ≠ 0 then PTE_W else 0)

/-- The branches of `map`. -/
def set_entry (ptentry : Loc A) (pa prot : Nat) (s : Vme A) : Except Fault (Vme A) := do
  let v ← s.read ptentry
  if prot = MMAP_NONE then do
    cassert (present v)
    return s.write 0 ptentry
  else do
    cassert (!present v)
    return s.write (user_entry pa prot) ptentry

def map (as : A) (va pa prot : Nat) (s : Vme A) : Except Fault (Vme A) := do
  cassert (arch.uvm_area.IN_RANGE va)
  cassert (va == rounddown arch va && pa == rounddown arch pa)
  let (ptentry, s) ← ptwalk arch pgalloc (some as) va (PTE_W ||| PTE_U) s
  let s ← set_entry ptentry pa prot s
  let (_, s) ← ptwalk arch pgalloc (some as) va (PTE_W ||| PTE_U) s
  return s

/-- A call of the interface.  Switching to a context loads `cr3`. -/
def call (s : Vme A) : Call A → Except Fault (Vme A)
  | .protect as => protect arch pgalloc as s
  | .map as va pa prot => map arch pgalloc as va pa prot s
  | .switch _ => .ok s

/-- `pgfree(pt)`: `freed` are the pages given to it so far, the last one
    first. -/
def free (pgfree : Nat → (Nat → Nat) → Nat → Nat) :
    Loc A → Vme A × List Nat → Except Fault (Vme A × List Nat)
  | .ptr _, _ => .error .outOfBounds
  | .mem pt, (s, freed) => .ok ({ s with mem := pgfree pt s.mem }, pt :: freed)

/-- `teardown` at the level of the first table. -/
def teardown (pgfree : Nat → (Nat → Nat) → Nat → Nat) :
    List PtInfo → Nat → Loc A → Vme A × List Nat → Except Fault (Vme A × List Nat)
  | [], _, _, s => .ok s
  | ptinfo :: infos, level, pt, s => do
      let s ← (List.range (1 <<< ptinfo.bits)).foldlM (fun s index => do
        let v ← s.1.read (pt.index arch index)
        if present v && v &&& PTE_U != 0 then
          teardown pgfree infos (level + 1) (.mem (baseof arch v)) s
        else .ok s) s
      if 1 ≤ level then free pgfree pt s else .ok s

/-- `unprotect`, with the pages it frees. -/
def unprotect (pgfree : Nat → (Nat → Nat) → Nat → Nat) (as : A) (s : Vme A) :
    Except Fault (Vme A × List Nat) :=
  teardown arch pgfree arch.pgtables 0 (.ptr (some as)) (s, [])

/-- The state before `vme_init`. -/
def boot (mem : Nat → Nat) : Vme A := { ptr := fun _ => none, mem := mem, kpt := 0, pages := [] }

/-- The calls after `vme_init`; a run ends when one panics. -/
def run (s : Vme A) (calls : List (Call A)) : Except Fault (Vme A) :=
  calls.foldlM (call arch pgalloc) s

end Vme

/-! ## Section 2: What is assumed -/

/-- The pages of the tables that `start64.S` builds. -/
def boot_pages : Arch → List Nat
  | .i386 => []
  | .x86_64 => [PML4_ADDR, PDPT_ADDR]

/-- What `start64.S` has left in memory: one entry for 512 GiB, mapped to
    themselves in pages of 1 GiB. -/
def Booted (mem : Nat → Nat) : Prop :=
  match arch with
  | .i386 => True
  | .x86_64 => mem (cell .x86_64 PML4_ADDR 0) = PDPT_ADDR ||| PTE_P ||| PTE_W ∧
      ∀ i < 512, mem (cell .x86_64 PDPT_ADDR i) = i <<< 30 ||| (PTE_P ||| PTE_W ||| PTE_PS)

/-- `pgalloc` returns `NULL` or a page that is aligned, not in use, and
    reachable at its own address. -/
structure PgallocOk : Prop where
  page  : ∀ pages, pgalloc pages ≠ 0 → PageOk arch (pgalloc pages)
  fresh : ∀ pages, pgalloc pages ≠ 0 → pgalloc pages ∉ pages ∧ pgalloc pages ∉ boot_pages arch

end vme

/-- `pgfree` may use the words of the page that it is given, and no other. -/
def PgfreeOk (pgfree : Nat → (Nat → Nat) → Nat → Nat) : Prop :=
  ∀ page mem a, a < page ∨ page + pgsize ≤ a → pgfree page mem a = mem a

end Am.X86
