import IcsPa.Am.X86.Boot
import IcsPa.Framework.Ata

/-! # The disk of x86-qemu

    `disk_blkio` of `am/src/x86/qemu/ioe.c`, and `read_disk` of the boot loader,
    over the drive.  Whatever requests a program makes of blocks that the drive
    has, and however long the drive lets it wait, the blocks are a memory of their
    own: a request copies from one to the other. -/

open CCall Bytes Ata

namespace Am.X86.Disk

/-! ## Section 1: The driver -/

/-- The memory and the drive. -/
structure Host where
  mem  : Store
  disk : Drive

def BLKSZ : Nat := 512

/-- `outb`, to the register `0x1f0 + reg`. -/
def outb (reg v : Nat) (disk : Drive) : Except Fault Drive := disk.set reg (v % 256)

/-- `while ((inb(0x1f7) & 0xc0) != 0x40);`, given up after `fuel` polls. -/
def wait_disk : Nat → Drive → Except Fault Drive
  | 0, _ => .error .diverges
  | fuel + 1, disk =>
      let (v, disk) := disk.status
      if v &&& 0xc0 ≠ 0x40 then wait_disk fuel disk else .ok disk

/-- The six `outb`s of `disk_blkio` and of `read_disk`. -/
def send (blkno cmd : Nat) (disk : Drive) : Except Fault Drive := do
  let disk ← outb 2 1 disk
  let disk ← outb 3 blkno disk
  let disk ← outb 4 (blkno >>> 8) disk
  let disk ← outb 5 (blkno >>> 16) disk
  let disk ← outb 6 (blkno >>> 24 ||| 0xe0) disk
  outb 7 cmd disk

/-- `*ptr++ = inl(0x1f0)`, `n` times. -/
def read_words : Nat → Nat → Host → Except Fault Host
  | 0, _, s => .ok s
  | n + 1, ptr, s => do
      let (v, disk) ← s.disk.get_word
      read_words n (ptr + 4) { mem := store s.mem ptr v 4, disk }

/-- `outl(0x1f0, *ptr++)`, `n` times. -/
def write_words : Nat → Nat → Host → Except Fault Host
  | 0, _, s => .ok s
  | n + 1, ptr, s => do
      let disk ← s.disk.put_word (load s.mem ptr 4)
      write_words n (ptr + 4) { s with disk }

/-- The body of the loop of `disk_blkio`. -/
def blkio_turn (fuel : Nat) (write : Bool) (blkno ptr : Nat) (s : Host) : Except Fault Host := do
  let disk ← wait_disk fuel s.disk
  let disk ← send blkno (if write then 0x30 else 0x20) disk
  let disk ← wait_disk fuel disk
  if write then write_words (BLKSZ / 4) ptr { s with disk }
  else read_words (BLKSZ / 4) ptr { s with disk }

/-- The loop of `disk_blkio`. -/
def blkio_loop (fuel : Nat) (write : Bool) : Nat → Nat → Nat → Host → Except Fault Host
  | 0, _, _, s => .ok s
  | remain + 1, blkno, ptr, s => do
      let s ← blkio_turn fuel write blkno ptr s
      blkio_loop fuel write remain ((blkno + 1) % 2 ^ 32) (ptr + BLKSZ) s

/-- `AM_DISK_BLKIO_T` -/
structure Bio where
  write  : Bool
  buf    : Nat
  blkno  : Nat
  blkcnt : Nat

def disk_blkio (fuel : Nat) (bio : Bio) (s : Host) : Except Fault Host :=
  blkio_loop fuel bio.write bio.blkcnt bio.blkno bio.buf s

/-- `read_disk` of the boot loader. -/
def read_disk (fuel : Nat) (buf sect : Nat) (s : Host) : Except Fault Host := do
  let disk ← wait_disk fuel s.disk
  let disk ← send sect 0x20 disk
  let disk ← wait_disk fuel disk
  read_words (Boot.SECTSIZE / 4) buf { s with disk }

/-! ## Section 2: Waiting and sending -/

theorem wait_disk_ok {fuel : Nat} {disk : Drive} (hfirst : disk.device / 16 % 2 = 0)
    (hbusy : disk.busy < fuel) : wait_disk fuel disk = .ok { disk with busy := 0 } := by
  induction fuel generalizing disk with
  | zero => omega
  | succ fuel ih =>
    unfold wait_disk Drive.status
    rw [if_neg (by omega)]
    by_cases hzero : disk.busy = 0
    · rw [if_neg (by simpa using hzero)]
      have hsame : { disk with busy := 0 } = disk := by rw [← hzero]
      rw [hsame]
      by_cases hidle : disk.mode = .idle
      · simp [hidle]
      · simp [hidle]
    · rw [if_pos hzero]
      have hless : disk.busy - 1 < fuel := by omega
      exact @ih { disk with busy := disk.busy - 1 } hfirst hless

/-- The bits above the number of the block select it, and the first drive. -/
theorem device_bits {blkno : Nat} (h : blkno < 2 ^ 28) :
    (blkno >>> 24 ||| 0xe0) % 256 = 0xe0 + blkno / 2 ^ 24 := by
  have hlow : blkno / 2 ^ 24 < 2 ^ 5 := by omega
  have hor : 2 ^ 5 * 7 + blkno / 2 ^ 24 = 2 ^ 5 * 7 ||| blkno / 2 ^ 24 :=
    Nat.two_pow_add_eq_or_of_lt hlow 7
  rw [Nat.shiftRight_eq_div_pow, Nat.or_comm, show (0xe0 : Nat) = 2 ^ 5 * 7 from rfl, ← hor]
  omega

/-- The command for the block is accepted. -/
theorem send_ok {disk : Drive} {blkno : Nat} (hidle : disk.mode = .idle) (hbusy : disk.busy = 0)
    (hblk : blkno < disk.blocks) (hbound : disk.blocks ≤ 2 ^ 28) (write : Bool) :
    ∃ d, send blkno (if write then 0x30 else 0x20) disk = .ok d ∧
      d.mode = (if write then .writing blkno 0 else .reading blkno 0) ∧ d.device / 16 % 2 = 0 ∧
      d.media = disk.media ∧ d.blocks = disk.blocks ∧ d.busy = disk.delays.headD 0 ∧
      d.delays = disk.delays.tail := by
  have hdev := device_bits (Nat.lt_of_lt_of_le hblk hbound)
  let d₅ : Drive := { disk with
    count := 1, low := blkno % 256, mid := (blkno >>> 8) % 256, high := (blkno >>> 16) % 256
    device := 0xe0 + blkno / 2 ^ 24 }
  have hlba : d₅.lba = blkno := by
    show blkno % 256 + 2 ^ 8 * ((blkno >>> 8) % 256) + 2 ^ 16 * ((blkno >>> 16) % 256) +
      2 ^ 24 * ((0xe0 + blkno / 2 ^ 24) % 16) = blkno
    rw [Nat.shiftRight_eq_div_pow, Nat.shiftRight_eq_div_pow]
    omega
  have hsel : d₅.Selects := by
    refine ⟨rfl, ?_, ?_, ?_⟩
    · show (0xe0 + blkno / 2 ^ 24) / 64 % 2 = 1
      omega
    · show (0xe0 + blkno / 2 ^ 24) / 16 % 2 = 0
      omega
    · rw [hlba]
      exact hblk
  have hsend : send blkno (if write then 0x30 else 0x20) disk = d₅.command
      (if write then 0x30 else 0x20) := by
    unfold send outb
    rw [hdev]
    cases write <;> simp [Drive.set, hidle, hbusy, d₅]
  rw [hsend]
  unfold Drive.command
  rw [hlba]
  cases write with
  | false => exact ⟨_, if_pos ⟨hsel, rfl⟩, rfl, hsel.2.2.1, rfl, rfl, rfl, rfl⟩
  | true =>
    rw [if_neg (by simp)]
    exact ⟨_, if_pos ⟨hsel, rfl⟩, rfl, hsel.2.2.1, rfl, rfl, rfl, rfl⟩

/-! ## Section 3: Blocks -/

/-- The words that are left of a block are read. -/
theorem read_words_ok {n word lba ptr : Nat} {s : Host} (hmode : s.disk.mode = .reading lba word)
    (hbusy : s.disk.busy = 0) (hn : word + (n + 1) = 128) :
    read_words (n + 1) ptr s =
      .ok { mem := copy s.mem ptr s.disk.media (BLOCK * lba + 4 * word) (4 * (n + 1))
            disk := { s.disk with mode := .idle } } := by
  induction n generalizing word ptr s with
  | zero =>
    have hlast : word + 1 = 128 := by omega
    unfold read_words Drive.get_word
    simp only [hmode, hbusy, hlast, ne_eq, not_true_eq_false, if_false, if_true, ok_bind]
    unfold read_words
    rw [store_load]
  | succ n ih =>
    have hnot : word + 1 ≠ 128 := by omega
    have hptr : BLOCK * lba + 4 * (word + 1) = BLOCK * lba + 4 * word + 4 := by omega
    unfold read_words Drive.get_word
    simp only [hmode, hbusy, hnot, ne_eq, not_true_eq_false, if_false, ok_bind]
    refine (ih rfl rfl (by omega)).trans ?_
    dsimp only
    rw [store_load, hptr, copy_add, show 4 + 4 * (n + 1) = 4 * (n + 1 + 1) by omega]

/-- The words that are left of a block are written. -/
theorem write_words_ok {n word lba ptr : Nat} {s : Host} (hmode : s.disk.mode = .writing lba word)
    (hbusy : s.disk.busy = 0) (hn : word + (n + 1) = 128) :
    write_words (n + 1) ptr s =
      .ok { mem := s.mem
            disk := Drive.work { s.disk with
              media := copy s.disk.media (BLOCK * lba + 4 * word) s.mem ptr (4 * (n + 1))
              mode := .idle } } := by
  induction n generalizing word ptr s with
  | zero =>
    have hlast : word + 1 = 128 := by omega
    unfold write_words Drive.put_word
    simp only [hmode, hbusy, hlast, ne_eq, not_true_eq_false, if_false, if_true, ok_bind]
    unfold write_words
    rw [store_load]
  | succ n ih =>
    have hnot : word + 1 ≠ 128 := by omega
    have hptr : BLOCK * lba + 4 * (word + 1) = BLOCK * lba + 4 * word + 4 := by omega
    unfold write_words Drive.put_word
    simp only [hmode, hbusy, hnot, ne_eq, not_true_eq_false, if_false, ok_bind]
    refine (ih rfl rfl (by omega)).trans ?_
    dsimp only
    rw [store_load, hptr, copy_add, show 4 + 4 * (n + 1) = 4 * (n + 1 + 1) by omega]

/-- The drive is ready again. -/
theorem ready_again {d d' : Drive} {fuel : Nat} (h : d.Ready fuel) (hidle : d'.mode = .idle)
    (hfirst : d'.device / 16 % 2 = 0) (hblocks : d'.blocks = d.blocks) (hbusy : d'.busy < fuel)
    (hdelays : ∀ n ∈ d'.delays, n < fuel) : d'.Ready fuel :=
  ⟨hidle, hfirst, hbusy, hdelays, hblocks ▸ h.bound⟩

/-- A turn of the loop, up to the data. -/
theorem commanded {fuel blkno : Nat} {disk : Drive} (h : disk.Ready fuel)
    (hblk : blkno < disk.blocks)
    (write : Bool) :
    ∃ d, (do
        let disk ← wait_disk fuel disk
        let disk ← send blkno (if write then 0x30 else 0x20) disk
        wait_disk fuel disk) = .ok d ∧
      d.mode = (if write then .writing blkno 0 else .reading blkno 0) ∧ d.busy = 0 ∧
      d.device / 16 % 2 = 0 ∧ d.media = disk.media ∧ d.blocks = disk.blocks ∧
      ∀ n ∈ d.delays, n < fuel := by
  have hpos : 0 < fuel := Nat.lt_of_le_of_lt (Nat.zero_le _) h.busy
  obtain ⟨d, hsend, hmode, hfirst, hmedia, hblocks, hbusy, hdelays⟩ :=
    @send_ok { disk with busy := 0 } blkno h.idle rfl hblk h.bound write
  have hwork := Drive.work_busy (d := disk) hpos h.soon
  have hbusy' : d.busy < fuel := by
    rw [hbusy]
    exact hwork.1
  refine ⟨{ d with busy := 0 }, ?_, hmode, rfl, hfirst, hmedia, hblocks, ?_⟩
  · rw [wait_disk_ok h.first h.busy, ok_bind, hsend, ok_bind, wait_disk_ok hfirst hbusy']
  · show ∀ n ∈ d.delays, n < fuel
    rw [hdelays]
    exact hwork.2

/-! ## Section 4: Requests -/

/-- The memory and the blocks, without the drive. -/
structure Blocks where
  mem   : Store
  media : Store

/-- A request copies. -/
def Bio.perform (bio : Bio) (s : Blocks) : Blocks :=
  if bio.write then
    { s with media := copy s.media (BLKSZ * bio.blkno) s.mem bio.buf (BLKSZ * bio.blkcnt) }
  else { s with mem := copy s.mem bio.buf s.media (BLKSZ * bio.blkno) (BLKSZ * bio.blkcnt) }

/-- The host is as `b` says, and the drive is ready. -/
structure Shows (fuel : Nat) (s : Host) (b : Blocks) : Prop where
  mem   : s.mem = b.mem
  media : s.disk.media = b.media
  ready : s.disk.Ready fuel

/-- One block is read or written. -/
theorem turn_shows {fuel blkno : Nat} (ptr : Nat) (write : Bool) {s : Host} {b : Blocks}
    (h : Shows fuel s b)
    (hblk : blkno < s.disk.blocks) :
    ∃ s', blkio_turn fuel write blkno ptr s = .ok s' ∧ s'.disk.blocks = s.disk.blocks ∧
      Shows fuel s' (Bio.perform ⟨write, ptr, blkno, 1⟩ b) := by
  obtain ⟨d, hrun, hmode, hbusy, hfirst, hmedia, hblocks, hsoon⟩ := commanded h.ready hblk write
  have hpos : 0 < fuel := Nat.lt_of_le_of_lt (Nat.zero_le _) h.ready.busy
  obtain ⟨d₁, hwait, hrun⟩ := bind_eq_ok hrun
  obtain ⟨d₂, hsend, hwait'⟩ := bind_eq_ok hrun
  unfold blkio_turn
  rw [hwait, ok_bind, hsend, ok_bind, hwait', ok_bind]
  cases write with
  | false =>
    refine ⟨_, read_words_ok (s := { s with disk := d }) (n := 127) hmode hbusy rfl, hblocks, ?_,
      ?_, ?_⟩
    · show copy s.mem ptr d.media _ _ = copy b.mem ptr b.media _ _
      rw [h.mem, hmedia, h.media]
      rfl
    · exact hmedia.trans h.media
    · exact ready_again h.ready rfl hfirst hblocks (hbusy ▸ hpos) hsoon
  | true =>
    have hwork := Drive.work_busy (d := d) hpos hsoon
    refine ⟨_, write_words_ok (s := { s with disk := d }) (n := 127) hmode hbusy rfl, hblocks,
      h.mem, ?_, ?_⟩
    · show copy d.media _ s.mem ptr _ = copy b.media _ b.mem ptr _
      rw [h.mem, hmedia, h.media]
      rfl
    · exact ready_again h.ready rfl hfirst hblocks hwork.1 hwork.2

/-- Requests of neighbouring blocks are one. -/
theorem perform_succ (write : Bool) (buf blkno n : Nat) (b : Blocks) :
    Bio.perform ⟨write, buf + BLKSZ, blkno + 1, n⟩ (Bio.perform ⟨write, buf, blkno, 1⟩ b) =
      Bio.perform ⟨write, buf, blkno, n + 1⟩ b := by
  have hnext : BLKSZ * (blkno + 1) = BLKSZ * blkno + BLKSZ * 1 := Nat.mul_add ..
  have hbuf : buf + BLKSZ = buf + BLKSZ * 1 := rfl
  have hlen : BLKSZ * (n + 1) = BLKSZ * 1 + BLKSZ * n := by
    rw [Nat.add_comm n 1]
    exact Nat.mul_add ..
  cases write with
  | false =>
    show Blocks.mk _ _ = Blocks.mk _ _
    rw [hnext, hbuf, hlen]
    congr 1
    exact copy_add ..
  | true =>
    show Blocks.mk _ _ = Blocks.mk _ _
    rw [hnext, hbuf, hlen]
    congr 1
    exact copy_add ..

/-- The loop. -/
theorem loop_shows {fuel remain blkno ptr : Nat} {write : Bool} {s : Host} {b : Blocks}
    (h : Shows fuel s b)
    (hblk : blkno + remain ≤ s.disk.blocks) :
    ∃ s', blkio_loop fuel write remain blkno ptr s = .ok s' ∧ s'.disk.blocks = s.disk.blocks ∧
      Shows fuel s' (Bio.perform ⟨write, ptr, blkno, remain⟩ b) := by
  induction remain generalizing blkno ptr s b with
  | zero =>
    refine ⟨s, rfl, rfl, ?_⟩
    have hnone : Bio.perform ⟨write, ptr, blkno, 0⟩ b = b := by
      cases write <;> simp [Bio.perform]
    rw [hnone]
    exact h
  | succ n ih =>
    have hbound := h.ready.bound
    obtain ⟨s₁, hturn, hblocks, h₁⟩ := turn_shows ptr write h (by omega : blkno < s.disk.blocks)
    obtain ⟨s₂, hloop, hblocks', h₂⟩ :=
      @ih (blkno + 1) (ptr + BLKSZ) s₁ _ h₁ (by rw [hblocks]; omega)
    refine ⟨s₂, ?_, hblocks'.trans hblocks, ?_⟩
    · unfold blkio_loop
      rw [hturn, ok_bind, Nat.mod_eq_of_lt (by omega : blkno + 1 < 2 ^ 32)]
      exact hloop
    · rw [← perform_succ]
      exact h₂

theorem disk_blkio_shows {fuel : Nat} {bio : Bio} {s : Host} {b : Blocks} (h : Shows fuel s b)
    (hblk : bio.blkno + bio.blkcnt ≤ s.disk.blocks) :
    ∃ s', disk_blkio fuel bio s = .ok s' ∧ s'.disk.blocks = s.disk.blocks ∧
    Shows fuel s' (bio.perform b) :=
  loop_shows h hblk

/-- What the boot loader takes the disk for is what it gets from the drive. -/
theorem read_disk_shows {fuel buf sect sp : Nat} {s : Host} {b : Blocks} (h : Shows fuel s b)
    (hsect : sect < s.disk.blocks) (hmiss : Boot.hits (Boot.loader sp) buf Boot.SECTSIZE = false) :
    ∃ s', read_disk fuel buf sect s = .ok s' ∧ s'.disk.blocks = s.disk.blocks ∧
      Boot.read_disk b.media (Boot.loader sp) buf sect b.mem = .ok s'.mem ∧
      Shows fuel s' { b with mem := s'.mem } := by
  obtain ⟨s', hrun, hblocks, hshows⟩ := turn_shows buf false h hsect
  refine ⟨s', hrun, hblocks, ?_, ⟨rfl, hshows.media, hshows.ready⟩⟩
  unfold Boot.read_disk
  rw [if_neg (by simp [hmiss]), hshows.mem]
  rfl

/-! ## Section 5: Runs -/

/-- What a program does: it computes in the memory, or makes a request. -/
inductive Call where
  | compute (f : Store → Store)
  | blkio (bio : Bio)

def call (fuel : Nat) (s : Host) : Call → Except Fault Host
  | .compute f => .ok { s with mem := f s.mem }
  | .blkio bio => disk_blkio fuel bio s

def run (fuel : Nat) (calls : List Call) (s : Host) : Except Fault Host :=
  calls.foldlM (call fuel) s

def Call.perform (b : Blocks) : Call → Blocks
  | .compute f => { b with mem := f b.mem }
  | .blkio bio => bio.perform b

/-- The run without the drive. -/
def perform (calls : List Call) (b : Blocks) : Blocks := calls.foldl Call.perform b

/-- All requests are of blocks that there are. -/
def InRange (blocks : Nat) (calls : List Call) : Prop :=
  ∀ bio, Call.blkio bio ∈ calls → bio.blkno + bio.blkcnt ≤ blocks

/-- Step lemma. -/
theorem call_shows {fuel : Nat} {c : Call} {s : Host} {b : Blocks} (h : Shows fuel s b)
    (hin : ∀ bio, c = .blkio bio → bio.blkno + bio.blkcnt ≤ s.disk.blocks) :
    ∃ s', call fuel s c = .ok s' ∧ s'.disk.blocks = s.disk.blocks ∧
    Shows fuel s' (c.perform b) := by
  cases c with
  | compute f => exact ⟨_, rfl, rfl, congrArg f h.mem, h.media, h.ready⟩
  | blkio bio => exact disk_blkio_shows h (hin bio rfl)

/-- Run lemma. -/
theorem run_shows {fuel : Nat} {calls : List Call} {s : Host} {b : Blocks} (h : Shows fuel s b)
    (hin : InRange s.disk.blocks calls) :
    ∃ s', run fuel calls s = .ok s' ∧ s'.disk.blocks = s.disk.blocks ∧
    Shows fuel s' (perform calls b) := by
  induction calls generalizing s b with
  | nil => exact ⟨s, rfl, rfl, h⟩
  | cons c calls ih =>
    obtain ⟨s₁, hcall, hblocks, h₁⟩ := call_shows h fun bio heq =>
      hin bio (heq ▸ List.mem_cons_self)
    obtain ⟨s₂, hrun, hblocks', h₂⟩ := ih h₁ fun bio hmem =>
      hblocks ▸ hin bio (List.mem_cons_of_mem c hmem)
    refine ⟨s₂, ?_, hblocks'.trans hblocks, h₂⟩
    unfold run
    rw [List.foldlM_cons, hcall, ok_bind]
    exact hrun

theorem shows_self {fuel : Nat} {s : Host} (h : s.disk.Ready fuel) :
    Shows fuel s ⟨s.mem, s.disk.media⟩ :=
  ⟨rfl, rfl, h⟩

/-- Whatever a program asks of the disk, in blocks that there are, it gets what it
    would get from a memory of blocks: no request hangs, none is made while the
    drive is busy, and the drive is ready for the next one. -/
theorem disk_refines {fuel : Nat} (calls : List Call) {s : Host} (hready : s.disk.Ready fuel)
    (hin : InRange s.disk.blocks calls) :
    ∃ s', run fuel calls s = .ok s' ∧ s'.mem = (perform calls ⟨s.mem, s.disk.media⟩).mem ∧
      s'.disk.media = (perform calls ⟨s.mem, s.disk.media⟩).media ∧ s'.disk.Ready fuel := by
  obtain ⟨s', hrun, -, h⟩ := run_shows (shows_self hready) hin
  exact ⟨s', hrun, h.mem, h.media, h.ready⟩

/-- A drive of eight blocks that is busy three times, and then once. -/
def small : Drive where
  count := 0
  low := 0
  mid := 0
  high := 0
  device := 0
  mode := .idle
  busy := 2
  delays := [3, 0, 1]
  media := fun x => UInt8.ofNat (x / BLOCK)
  blocks := 8

theorem small_ready : small.Ready 4 := ⟨rfl, rfl, by decide, by decide, by decide⟩

theorem disk_refines_copy :
    ∃ s', run 4 [.blkio ⟨false, 0x1000, 2, 3⟩, .blkio ⟨true, 0x1000, 5, 2⟩]
    ⟨fun _ => 0, small⟩ = .ok s' ∧
      s'.mem 0x1200 = 3 ∧ s'.disk.media (BLKSZ * 6) = 3 := by
  obtain ⟨s', hrun, hmem, hmedia, -⟩ := disk_refines
    [.blkio ⟨false, 0x1000, 2, 3⟩, .blkio ⟨true, 0x1000, 5, 2⟩]
    (s := ⟨fun _ => 0, small⟩) small_ready (by
      intro bio hmem
      rcases List.mem_cons.mp hmem with heq | hmem
      · cases heq
        decide
      · cases List.mem_singleton.mp hmem
        decide)
  refine ⟨s', hrun, ?_, ?_⟩
  · rw [hmem]
    decide
  · rw [hmedia]
    decide

/-! ## Section 6: What was written last -/

/-- A call that writes no block from `lo` to `hi`. -/
def Call.Spares (lo hi : Nat) : Call → Prop
  | .compute _ => True
  | .blkio bio => bio.write = true → bio.blkno + bio.blkcnt ≤ lo ∨ hi ≤ bio.blkno

/-- The blocks that are spared stay. -/
theorem perform_spares {lo hi : Nat} {calls : List Call} (hspare : ∀ c ∈ calls, c.Spares lo hi)
    (b : Blocks)
    {x : Nat} (hlo : BLKSZ * lo ≤ x) (hhi : x < BLKSZ * hi) :
    (perform calls b).media x = b.media x := by
  induction calls generalizing b with
  | nil => rfl
  | cons c calls ih =>
    have hrest := ih (fun c' hc => hspare c' (List.mem_cons_of_mem c hc)) (c.perform b)
    refine hrest.trans ?_
    have hc := hspare c List.mem_cons_self
    cases c with
    | compute f => rfl
    | blkio bio =>
      show (bio.perform b).media x = b.media x
      unfold Bio.perform
      cases hw : bio.write with
      | false => rfl
      | true =>
        have haway : bio.blkno + bio.blkcnt ≤ lo ∨ hi ≤ bio.blkno := hc hw
        refine copy_outside ?_
        have hend : BLKSZ * bio.blkno + BLKSZ * bio.blkcnt = BLKSZ * (bio.blkno + bio.blkcnt) := by
          rw [Nat.mul_add]
        rcases haway with hle | hle
        · exact .inr (hend ▸ Nat.le_trans (Nat.mul_le_mul_left BLKSZ hle) hlo)
        · exact .inl (Nat.lt_of_lt_of_le hhi (Nat.mul_le_mul_left BLKSZ hle))

/-- After blocks have been written, and whatever is done without writing to them
    again, a read of some of them returns the bytes that the memory held when they
    were written. -/
theorem blkio_reads_back {fuel : Nat} (before between : List Call) (w r : Bio) {s : Host}
    (hready : s.disk.Ready fuel)
    (hin : InRange s.disk.blocks (before ++ .blkio w :: between ++ [.blkio r]))
    (hw : w.write = true) (hr : r.write = false)
    (hlo : w.blkno ≤ r.blkno) (hhi : r.blkno + r.blkcnt ≤ w.blkno + w.blkcnt)
    (hspare : ∀ c ∈ between, c.Spares r.blkno (r.blkno + r.blkcnt)) :
    ∃ s₁ s₂, run fuel before s = .ok s₁ ∧
      run fuel (before ++ .blkio w :: between ++ [.blkio r]) s = .ok s₂ ∧
      ∀ i < BLKSZ * r.blkcnt, s₂.mem (r.buf + i) = s₁.mem
      (w.buf + (BLKSZ * (r.blkno - w.blkno) + i)) := by
  have hbefore : InRange s.disk.blocks before := by
    intro bio hmem
    apply hin bio
    rw [List.append_assoc]
    exact List.mem_append_left _ hmem
  obtain ⟨s₁, hrun₁, -, h₁⟩ := run_shows (shows_self hready) hbefore
  obtain ⟨s₂, hrun₂, -, h₂⟩ := run_shows (shows_self hready) hin
  refine ⟨s₁, s₂, hrun₁, hrun₂, fun i hi => ?_⟩
  -- The states of the run without the drive.
  let b₁ := perform before ⟨s.mem, s.disk.media⟩
  let b₂ := perform between (w.perform b₁)
  have hsplit : perform (before ++ .blkio w :: between ++ [.blkio r])
      ⟨s.mem, s.disk.media⟩ = r.perform b₂ := by
    unfold perform
    rw [List.foldl_append, List.foldl_append, List.foldl_cons]
    rfl
  have hread : (r.perform b₂).mem (r.buf + i) = b₂.media (BLKSZ * r.blkno + i) := by
    unfold Bio.perform
    rw [hr]
    refine (copy_inside (by omega) (by omega)).trans ?_
    congr 1
    omega
  have hkept : b₂.media (BLKSZ * r.blkno + i) = (w.perform b₁).media (BLKSZ * r.blkno + i) := by
    refine perform_spares hspare _ (by omega) ?_
    rw [Nat.mul_add]
    omega
  have hwritten : (w.perform b₁).media (BLKSZ * r.blkno + i) =
      b₁.mem (w.buf + (BLKSZ * (r.blkno - w.blkno) + i)) := by
    have hfrom := Nat.mul_le_mul_left BLKSZ hlo
    have hto := Nat.mul_le_mul_left BLKSZ hhi
    rw [Nat.mul_add, Nat.mul_add] at hto
    unfold Bio.perform
    rw [hw, if_pos rfl]
    refine (copy_inside (by omega) (by omega)).trans ?_
    congr 2
    rw [Nat.mul_sub]
    omega
  rw [h₂.mem, hsplit, hread, hkept, hwritten, h₁.mem]

theorem blkio_reads_back_copy :
    ∃ s₁ s₂, run 4 [] ⟨fun x => UInt8.ofNat x, small⟩ = .ok s₁ ∧
      run 4 [.blkio ⟨true, 0x1000, 2, 2⟩, .blkio ⟨true, 0x2000, 4, 1⟩, .compute fun _ _ => 0,
        .blkio ⟨false, 0x3000, 3, 1⟩] ⟨fun x => UInt8.ofNat x, small⟩ = .ok s₂ ∧
      ∀ i < BLKSZ * 1, s₂.mem (0x3000 + i) = s₁.mem (0x1000 + (BLKSZ * (3 - 2) + i)) :=
  blkio_reads_back [] [.blkio ⟨true, 0x2000, 4, 1⟩, .compute fun _ _ => 0] ⟨true, 0x1000, 2, 2⟩
    ⟨false, 0x3000, 3, 1⟩ small_ready
    (by
      intro bio hmem
      simp only [List.nil_append, List.cons_append, List.mem_cons, Call.blkio.injEq, reduceCtorEq,
        List.not_mem_nil, or_false, false_or] at hmem
      rcases hmem with rfl | rfl | rfl <;> decide)
    rfl rfl (by decide) (by decide)
    (by
      intro c hc
      rcases List.mem_cons.mp hc with rfl | hc
      · exact fun _ => .inr (by decide)
      · cases List.mem_singleton.mp hc
        exact trivial)

end Am.X86.Disk
