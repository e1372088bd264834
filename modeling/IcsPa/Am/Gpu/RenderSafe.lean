import IcsPa.Am.Gpu.Render

/-! # When rendering is safe

    The loops that draw a canvas make their last access at the largest index,
    so one condition decides about all of them.  By induction over the tree, a
    run makes no access outside its arrays exactly if each canvas that it comes
    to meets its condition. -/

open CCall CArray Bytes

namespace Am.Gpu

/-! ## Section 1: Accesses -/

/-- A run that does not stop with a panic. -/
def NoPanic {α : Type} (r : Except Fault α) : Prop := r ≠ .error .assertion

theorem NoPanic.bind {α β : Type} {x : Except Fault α} {f : α → Except Fault β} (hx : NoPanic x)
    (hf : ∀ a, NoPanic (f a)) : NoPanic (x >>= f) := by
  cases x with
  | ok a => exact hf a
  | error e => exact fun h => hx (congrArg Except.error (Except.error.inj h))

theorem ok_no_panic {α : Type} (a : α) : NoPanic (.ok a) := by
  intro h
  cases h

theorem fault_no_panic {α : Type} {e : Fault} (he : e ≠ .assertion) :
    NoPanic (.error e : Except Fault α) := by
  intro h
  exact he (Except.error.inj h)

theorem cint_no_panic (v : Int) : NoPanic (cint v) := by
  unfold cint
  split
  · exact ok_no_panic _
  · exact fault_no_panic (by decide)

theorem read_no_panic {α : Type} (a : CArray α) (i : Int) : NoPanic (a.read i) := by
  unfold CArray.read
  split
  · exact ok_no_panic _
  · exact fault_no_panic (by decide)

theorem write_no_panic {α : Type} (a : CArray α) (i : Int) (v : α) : NoPanic (a.write i v) := by
  unfold CArray.write
  split
  · exact ok_no_panic _
  · exact fault_no_panic (by decide)

theorem memcpy_no_panic {α : Type} (dst : CArray α) (d : Int) (src : CArray α) (s n : Int) :
    NoPanic (dst.memcpy d src s n) := by
  unfold memcpy
  split
  · exact ok_no_panic _
  · exact fault_no_panic (by decide)

theorem pixel_at_no_panic (a : CArray UInt8) (off : Int) : NoPanic (pixel_at a off) :=
  (read_no_panic a _).bind fun _ => (read_no_panic a _).bind fun _ =>
    (read_no_panic a _).bind fun _ => ok_no_panic _

theorem pixel_at_ok {a : CArray UInt8} {off : Nat} (h : off + 3 ≤ a.size) :
    ∃ p, pixel_at a off = .ok p := by
  have hb : a.read off = .ok (a.cell off) := read_ok (by omega)
  have hg : a.read ((off : Int) + 1) = .ok (a.cell (off + 1)) := read_ok (i := off + 1) (by omega)
  have hr : a.read ((off : Int) + 2) = .ok (a.cell (off + 2)) := read_ok (i := off + 2) (by omega)
  exact ⟨_, by rw [pixel_at, hb, ok_bind, hg, ok_bind, hr]; rfl⟩

theorem pixel_at_inside {a : CArray UInt8} {off : Int} {p : Pixel} (h : pixel_at a off = .ok p) :
    0 ≤ off ∧ off + 3 ≤ a.size := by
  obtain ⟨b, hb, h⟩ := bind_eq_ok h
  obtain ⟨g, hg, h⟩ := bind_eq_ok h
  obtain ⟨r, hr, h⟩ := bind_eq_ok h
  have hin : ∀ {i : Int} {v : UInt8}, a.read i = .ok v → 0 ≤ i ∧ i < a.size := by
    intro i v hread
    unfold CArray.read at hread
    split at hread
    · assumption
    · cases hread
  have hlo := hin hb
  have hhi := hin hr
  omega

/-- A loop stops with a panic only if one of its turns does. -/
theorem foldlM_no_panic {α σ : Type} {f : σ → α → Except Fault σ} (hf : ∀ s x, NoPanic (f s x))
    (l : List α) (s : σ) : NoPanic (l.foldlM f s) := by
  intro h
  obtain ⟨x, s', hx⟩ := foldlM_error h
  exact hf s' x hx

/-- The arrays have their sizes, and `head` bytes of the arena are taken. -/
structure Vram.At (s : Vram) (display : Display) (head : Nat) : Prop where
  vbuf : s.vbuf.size = VMEM_SIZE
  fb   : s.fb.size = display.w * display.h
  head : s.vbuf_head = head

section draw
variable {vmem : Store} {display : Display}

/-- The pixels at `px` are read from `base` on in an array of `VMEM_SIZE`
    bytes. -/
structure Source (vmem : Store) (display : Display) (px : Ptr) (base : Nat) : Prop where
  ok       : ∀ {s head} {k : Nat}, Vram.At s display head → base + 3 * (k + 1) ≤ VMEM_SIZE →
    ∃ p, px.read vmem s k = .ok p
  inside   : ∀ {s head} {k : Nat} {p}, Vram.At s display head → px.read vmem s k = .ok p →
    base + 3 * (k + 1) ≤ VMEM_SIZE
  no_panic : ∀ s k, NoPanic (px.read vmem s k)

theorem source_texture (vmem : Store) (display : Display) (pixels : Nat) :
    Source vmem display (.vmem (to_host pixels)) pixels := by
  unfold to_host
  by_cases hnull : pixels = AM_GPU_NULL
  · rw [if_pos hnull]
    have hbig : VMEM_SIZE < AM_GPU_NULL := by decide
    refine ⟨fun _ hfit => by omega, ?_, fun s k => fault_no_panic (by decide)⟩
    intro s head k p _ hread
    cases hread
  · rw [if_neg hnull]
    refine ⟨?_, ?_, fun s k => pixel_at_no_panic _ _⟩
    · intro s head k _ hfit
      have hin : pixels + 3 * k + 3 ≤ (⟨VMEM_SIZE, vmem⟩ : CArray UInt8).size := by
        show pixels + 3 * k + 3 ≤ VMEM_SIZE
        omega
      exact pixel_at_ok hin
    · intro s head k p _ hread
      have hin : (pixels + 3 * k : Int) + 3 ≤ VMEM_SIZE := (pixel_at_inside hread).2
      omega

theorem source_vbuf (vmem : Store) (display : Display) (base : Nat) :
    Source vmem display (.vbuf base) base := by
  refine ⟨?_, ?_, fun s k => pixel_at_no_panic _ _⟩
  · intro s head k hs hfit
    have hsize := hs.vbuf
    have hin : base + 3 * k + 3 ≤ s.vbuf.size := by omega
    exact pixel_at_ok hin
  · intro s head k p hs hread
    have hin := (pixel_at_inside hread).2
    rw [hs.vbuf] at hin
    omega

/-- An area of `W` times `H` pixels can be written at `px`. -/
structure Target (display : Display) (px : Ptr) (W H : Nat) : Prop where
  ok       : ∀ {s head} {x y : Nat} (p : Pixel), Vram.At s display head → x < W → y < H →
    ∃ s', px.write s (W * y + x : Nat) p = .ok s' ∧ s'.At display head
  no_panic : ∀ s k p, NoPanic (px.write s k p)

/-- The place of a pixel is before the end of the area. -/
theorem place_lt {W H x y : Nat} (hx : x < W) (hy : y < H) : W * y + x < W * H := by
  calc W * y + x
    _ < W * y + W := Nat.add_lt_add_left hx _
    _ = W * (y + 1) := (Nat.mul_succ W y).symm
    _ ≤ W * H := Nat.mul_le_mul_left W hy

theorem target_fb (display : Display) : Target display .fb display.w display.h := by
  constructor
  · intro s head x y p hs hx hy
    have hlt := place_lt hx hy
    have hfb := hs.fb
    let cell := Function.update s.fb.cell (display.w * y + x) p
    refine ⟨{ s with fb := { s.fb with cell := cell } }, ?_, ?_⟩
    · have hwrite := write_ok (a := s.fb) (i := display.w * y + x) (by omega) p
      show (s.fb.write _ p >>= _) = _
      rw [hwrite]
      rfl
    · exact ⟨hs.vbuf, hs.fb, hs.head⟩
  · intro s k p
    exact (write_no_panic _ _ _).bind fun _ => ok_no_panic _

theorem target_vbuf (display : Display) {base W H : Nat} (hfit : base + 3 * (W * H) ≤ VMEM_SIZE) :
    Target display (.vbuf base) W H := by
  constructor
  · intro s head x y p hs hx hy
    have hlt := place_lt hx hy
    have hsize := hs.vbuf
    let off := base + 3 * (W * y + x)
    refine ⟨{ s with vbuf := s.vbuf.copied off p.bytes 0 3 }, ?_, hs.vbuf, hs.fb, hs.head⟩
    have hcopy : memcpy s.vbuf off p.bytes 0 3 = .ok (s.vbuf.copied off p.bytes 0 3) :=
      memcpy_ok (s := 0) (n := 3) (by show base + _ + 3 ≤ _; omega) (Nat.le_refl 3)
    show (memcpy s.vbuf _ p.bytes 0 3 >>= _) = _
    rw [show (base : Int) + 3 * ((W * y + x : Nat) : Int) = (off : Nat) from rfl, hcopy]
    rfl
  · intro s k p
    exact (memcpy_no_panic _ _ _ _ _).bind fun _ => ok_no_panic _

/-! ## Section 2: Drawing one canvas -/

/-- The largest index that is read for a target of `w1` times `h1` pixels. -/
def top (w h w1 h1 : Nat) : Nat := w * ((h1 - 1) * h / h1) + (w1 - 1) * w / w1

/-- The last turns of the loops make no access outside the arrays. -/
def LastTurn (c : Canvas) (w h W base : Nat) : Prop :=
  (c.h1 - 1) * h < 2 ^ 31 ∧ (c.w1 - 1) * w < 2 ^ 31 ∧ top w h c.w1 c.h1 < 2 ^ 31 ∧
    base + 3 * (top w h c.w1 c.h1 + 1) ≤ VMEM_SIZE ∧
    W * (c.y1 + (c.h1 - 1)) + (c.x1 + (c.w1 - 1)) < 2 ^ 31

variable {c : Canvas} {w h W H base : Nat} {px_local px : Ptr} {s s' : Vram} {head : Nat}

/-- A turn whose indices are in their ranges. -/
theorem draw_scaled_ok (hsrc : Source vmem display px_local base) (hdst : Target display px W H)
    (hs : s.At display head) {i j : Nat} (hx : c.x1 + i < W) (hy : c.y1 + j < H)
    (hjh : j * h < 2 ^ 31) (hiw : i * w < 2 ^ 31)
    (hk : w * (j * h / c.h1) + i * w / c.w1 < 2 ^ 31)
    (hread : base + 3 * (w * (j * h / c.h1) + i * w / c.w1 + 1) ≤ VMEM_SIZE)
    (hplace : W * (c.y1 + j) + (c.x1 + i) < 2 ^ 31) :
    ∃ s', draw_scaled vmem c px_local w h W px i s j = .ok s' ∧ s'.At display head := by
  obtain ⟨p, hp⟩ := hsrc.ok hs hread
  obtain ⟨s', hwrite, hs'⟩ := hdst.ok p hs hx hy
  refine ⟨s', ?_, hs'⟩
  unfold draw_scaled
  simp only [← Int.natCast_mul]
  rw [cint_natCast hjh, ok_bind, ← Int.natCast_ediv, ← Int.natCast_mul,
    cint_natCast (Nat.lt_of_le_of_lt (Nat.le_add_right _ _) hk), ok_bind, cint_natCast hiw,
    ok_bind, ← Int.natCast_ediv, ← Int.natCast_add, cint_natCast hk, ok_bind, hp, ok_bind,
    cint_natCast (Nat.lt_of_le_of_lt (Nat.le_add_right _ _) hplace), ok_bind, ← Int.natCast_add,
    cint_natCast hplace, ok_bind]
  exact hwrite

/-- A turn that returns had its indices in their ranges. -/
theorem draw_scaled_inside (hsrc : Source vmem display px_local base)
    (hdst : Target display px W H) (hs : s.At display head) {i j : Nat} (hx : c.x1 + i < W)
    (hy : c.y1 + j < H) (hrun : draw_scaled vmem c px_local w h W px i s j = .ok s') :
    s'.At display head ∧ j * h < 2 ^ 31 ∧ i * w < 2 ^ 31 ∧
      w * (j * h / c.h1) + i * w / c.w1 < 2 ^ 31 ∧
      base + 3 * (w * (j * h / c.h1) + i * w / c.w1 + 1) ≤ VMEM_SIZE ∧
      W * (c.y1 + j) + (c.x1 + i) < 2 ^ 31 := by
  unfold draw_scaled at hrun
  simp only [← Int.natCast_mul] at hrun
  -- Each operation of the turn has returned, so its value was an `int`.
  obtain ⟨jh, hjh, hrun⟩ := bind_eq_ok hrun
  obtain ⟨rfl, -, hjh⟩ := cint_ok hjh
  rw [← Int.natCast_ediv, ← Int.natCast_mul] at hrun
  obtain ⟨line, hline, hrun⟩ := bind_eq_ok hrun
  obtain ⟨rfl, -, -⟩ := cint_ok hline
  obtain ⟨iw, hiw, hrun⟩ := bind_eq_ok hrun
  obtain ⟨rfl, -, hiw⟩ := cint_ok hiw
  rw [← Int.natCast_ediv, ← Int.natCast_add] at hrun
  obtain ⟨k, hk, hrun⟩ := bind_eq_ok hrun
  obtain ⟨rfl, -, hk⟩ := cint_ok hk
  obtain ⟨p, hp, hrun⟩ := bind_eq_ok hrun
  obtain ⟨row, hrow, hrun⟩ := bind_eq_ok hrun
  obtain ⟨rfl, -, -⟩ := cint_ok hrow
  rw [← Int.natCast_add] at hrun
  obtain ⟨place, hplace, hwrite⟩ := bind_eq_ok hrun
  obtain ⟨rfl, -, hplace⟩ := cint_ok hplace
  -- The write to the target does not fail where the read did not.
  obtain ⟨s₁, hwrite₁, hs₁⟩ := hdst.ok p hs hx hy
  rw [hwrite₁] at hwrite
  obtain rfl := Except.ok.inj hwrite
  have hread := hsrc.inside hs hp
  exact ⟨hs₁, by omega, by omega, by omega, hread, by omega⟩

theorem draw_scaled_no_panic (hsrc : Source vmem display px_local base)
    (hdst : Target display px W H) (i : Nat) (s : Vram) (j : Nat) :
    NoPanic (draw_scaled vmem c px_local w h W px i s j) :=
  (cint_no_panic _).bind fun _ => (cint_no_panic _).bind fun _ => (cint_no_panic _).bind fun _ =>
    (cint_no_panic _).bind fun _ => (hsrc.no_panic _ _).bind fun _ => (cint_no_panic _).bind
      fun _ => (cint_no_panic _).bind fun _ => hdst.no_panic _ _ _

theorem draw_no_panic (hsrc : Source vmem display px_local base) (hdst : Target display px W H)
    (s : Vram) : NoPanic (draw vmem c px_local w h W px s) :=
  foldlM_no_panic (fun s i => foldlM_no_panic (draw_scaled_no_panic hsrc hdst i) _ s) _ s

/-- If the last turns can be made, so can the others. -/
theorem draw_ok (hsrc : Source vmem display px_local base) (hdst : Target display px W H)
    (hin : c.Inside W H) (hs : s.At display head)
    (hlast : c.w1 = 0 ∨ c.h1 = 0 ∨ LastTurn c w h W base) :
    ∃ s', draw vmem c px_local w h W px s = .ok s' ∧ s'.At display head := by
  obtain ⟨hx, hy⟩ := hin
  refine foldlM_total (P := fun _ (s : Vram) => s.At display head) ?_ hs
  intro done i rest s₁ hi hs₁
  refine foldlM_total (P := fun _ (s : Vram) => s.At display head) ?_ hs₁
  intro done' j rest' s₂ hj hs₂
  have hi : i < c.w1 := List.mem_range.mp (by rw [hi]; simp)
  have hj : j < c.h1 := List.mem_range.mp (by rw [hj]; simp)
  obtain hw1 | hh1 | ⟨hjh, hiw, htop, hread, hplace⟩ := hlast
  · omega
  · omega
  -- Each index is at most that of the last turns.
  have hjle : j * h ≤ (c.h1 - 1) * h := Nat.mul_le_mul_right h (by omega)
  have hile : i * w ≤ (c.w1 - 1) * w := Nat.mul_le_mul_right w (by omega)
  have hk : w * (j * h / c.h1) + i * w / c.w1 ≤ top w h c.w1 c.h1 :=
    Nat.add_le_add (Nat.mul_le_mul_left w (Nat.div_le_div_right hjle)) (Nat.div_le_div_right hile)
  have hyle : W * (c.y1 + j) ≤ W * (c.y1 + (c.h1 - 1)) := Nat.mul_le_mul_left W (by omega)
  exact draw_scaled_ok hsrc hdst hs₂ (by omega) (by omega) (by omega) (by omega) (by omega)
    (by omega) (by omega)

/-- If the loops return, the last turns have been made. -/
theorem draw_inside (hsrc : Source vmem display px_local base) (hdst : Target display px W H)
    (hin : c.Inside W H) (hs : s.At display head)
    (hrun : draw vmem c px_local w h W px s = .ok s') :
    c.w1 = 0 ∨ c.h1 = 0 ∨ LastTurn c w h W base := by
  obtain ⟨hx, hy⟩ := hin
  by_cases hw1 : c.w1 = 0
  · exact Or.inl hw1
  by_cases hh1 : c.h1 = 0
  · exact Or.inr (Or.inl hh1)
  -- Only the last column is followed, and in it only the last row.
  have hlast : s'.At display head ∧ ∀ i ∈ List.range c.w1, i = c.w1 - 1 →
      LastTurn c w h W base := by
    refine foldlM_ok (P := fun (done : List Nat) (s : Vram) => s.At display head ∧ ∀ i ∈ done,
      i = c.w1 - 1 → LastTurn c w h W base) ?_ ⟨hs, fun i hi => absurd hi List.not_mem_nil⟩ hrun
    intro done i rest s₁ s₂ hl hdone hloop
    have hi : i < c.w1 := List.mem_range.mp (by rw [hl]; simp)
    obtain ⟨hs₂, hrow⟩ : s₂.At display head ∧ ∀ j ∈ List.range c.h1, i = c.w1 - 1 →
        j = c.h1 - 1 → LastTurn c w h W base := by
      refine foldlM_ok (P := fun (done : List Nat) (s : Vram) => s.At display head ∧ ∀ j ∈ done,
        i = c.w1 - 1 → j = c.h1 - 1 → LastTurn c w h W base) ?_
        ⟨hdone.1, fun j hj => absurd hj List.not_mem_nil⟩ hloop
      intro done' j rest' s₃ s₄ hl' hdone' hturn
      have hj : j < c.h1 := List.mem_range.mp (by rw [hl']; simp)
      -- The body of both loops, at the pixel `(i, j)`.
      obtain ⟨hs₄, hturn⟩ :=
        draw_scaled_inside hsrc hdst hdone'.1 (by omega) (by omega) hturn
      refine ⟨hs₄, ?_⟩
      intro j' hj' hilast hjlast
      rcases List.mem_append.mp hj' with hj' | hj'
      · exact hdone'.2 j' hj' hilast hjlast
      · obtain rfl := List.mem_singleton.mp hj'
        rw [hilast, hjlast] at hturn
        exact ⟨hturn.1, hturn.2.1, hturn.2.2.1, hturn.2.2.2.1, hturn.2.2.2.2⟩
    refine ⟨hs₂, ?_⟩
    intro i' hi' hilast
    rcases List.mem_append.mp hi' with hi' | hi'
    · exact hdone.2 i' hi' hilast
    · obtain rfl := List.mem_singleton.mp hi'
      exact hrow (c.h1 - 1) (List.mem_range.mpr (by omega)) hilast rfl
  exact Or.inr (Or.inr (hlast.2 (c.w1 - 1) (List.mem_range.mpr (by omega)) rfl))

/-- The places that a canvas with pixels reads are those of its pixels. -/
theorem top_lt {w h w1 h1 : Nat} (hw : w ≠ 0) (hh : h ≠ 0) (hw1 : w1 ≠ 0) (hh1 : h1 ≠ 0) :
    top w h w1 h1 < w * h := by
  have hline : (h1 - 1) * h / h1 < h := by
    rw [Nat.div_lt_iff_lt_mul (by omega), Nat.mul_comm h h1]
    exact Nat.mul_lt_mul_of_pos_right (by omega) (by omega)
  have hplace : (w1 - 1) * w / w1 < w := by
    rw [Nat.div_lt_iff_lt_mul (by omega), Nat.mul_comm w w1]
    exact Nat.mul_lt_mul_of_pos_right (by omega) (by omega)
  exact place_lt hplace hline

theorem top_empty {w h w1 h1 : Nat} (hempty : w = 0 ∨ h = 0) :
    top w h w1 h1 = (w1 - 1) * w / w1 := by
  unfold top
  rcases hempty with rfl | rfl
  · simp
  · simp

/-- When the last turns can be made. -/
theorem last_turn_iff (hpixels : w * h ≠ 0 → base + 3 * (w * h) ≤ VMEM_SIZE)
    (hsize : c.size = (w, h)) :
    (c.w1 = 0 ∨ c.h1 = 0 ∨ LastTurn c w h W base) ↔ c.Drawable base ∧ c.Placed W := by
  have hvmem : VMEM_SIZE < 2 ^ 31 := by decide
  unfold Canvas.Drawable Canvas.Placed LastTurn
  rw [hsize]
  by_cases hw1 : c.w1 = 0
  · simp [hw1]
  by_cases hh1 : c.h1 = 0
  · simp [hh1]
  have hy : c.y1 + c.h1 - 1 = c.y1 + (c.h1 - 1) := by omega
  have hx : c.x1 + c.w1 - 1 = c.x1 + (c.w1 - 1) := by omega
  rw [hy, hx]
  -- A source without pixels reads the place of its first one.
  by_cases hempty : w = 0 ∨ h = 0
  · have htop : top w h c.w1 c.h1 ≤ (c.w1 - 1) * w := by
      rw [top_empty hempty]
      exact Nat.div_le_self _ _
    have hsame : top w h c.w1 c.h1 = (c.w1 - 1) * w / c.w1 := top_empty hempty
    rw [← hsame]
    constructor
    · rintro (hzero | hzero | ⟨hjh, hiw, -, hread, hplace⟩)
      · exact absurd hzero hw1
      · exact absurd hzero hh1
      · exact ⟨Or.inr (Or.inr ⟨hjh, hiw, fun _ => hread⟩), Or.inr (Or.inr hplace)⟩
    · rintro ⟨hzero | hzero | ⟨hjh, hiw, hread⟩, hplace⟩
      · exact absurd hzero hw1
      · exact absurd hzero hh1
      · exact Or.inr (Or.inr ⟨hjh, hiw, by omega, hread hempty, by omega⟩)
  · rw [not_or] at hempty
    have htop := top_lt hempty.1 hempty.2 hw1 hh1
    have hfit := hpixels (Nat.mul_ne_zero hempty.1 hempty.2)
    constructor
    · rintro (hzero | hzero | ⟨hjh, hiw, -, -, hplace⟩)
      · exact absurd hzero hw1
      · exact absurd hzero hh1
      · exact ⟨Or.inr (Or.inr ⟨hjh, hiw, fun hzero => by omega⟩), Or.inr (Or.inr hplace)⟩
    · rintro ⟨hzero | hzero | ⟨hjh, hiw, -⟩, hplace⟩
      · exact absurd hzero hw1
      · exact absurd hzero hh1
      · exact Or.inr (Or.inr ⟨hjh, hiw, by omega, by omega, by omega⟩)

/-! ## Section 3: Canvas trees -/

/-- How a run ends that takes the arena up to `total`, when `sound` is what it
    needs. -/
structure Renders (display : Display) (r : Except Fault Vram) (sound : Prop) (total : Nat) :
    Prop where
  ok    : sound → total ≤ VMEM_SIZE → ∃ s', r = .ok s' ∧ s'.At display total
  panic : sound → VMEM_SIZE < total → r = .error .assertion
  bad   : ¬ sound → ¬ Safe r

theorem Renders.of_iff {r : Except Fault Vram} {sound sound' : Prop} {total : Nat}
    (h : Renders display r sound total) (hiff : sound' ↔ sound) :
    Renders display r sound' total where
  ok := fun hsound => h.ok (hiff.mp hsound)
  panic := fun hsound => h.panic (hiff.mp hsound)
  bad := fun hsound => h.bad fun hsound' => hsound (hiff.mpr hsound')

theorem not_safe_of {r : Except Fault Vram} (hok : ∀ s, r ≠ .ok s) (hpanic : NoPanic r) :
    ¬ Safe r := by
  rintro (⟨s, hs⟩ | hs)
  · exact hok s hs
  · exact hpanic hs

/-- What goes wrong at the beginning of a run goes wrong. -/
theorem not_safe_bind {r : Except Fault Vram} {f : Vram → Except Fault Vram} (h : ¬ Safe r) :
    ¬ Safe (r >>= f) := by
  cases r with
  | ok s => exact absurd (Or.inl ⟨s, rfl⟩) h
  | error e =>
    rintro (⟨s, hs⟩ | hs)
    · cases hs
    · exact h (Or.inr (congrArg Except.error (Except.error.inj hs)))

/-- One run after another. -/
theorem Renders.bind {r : Except Fault Vram} {f : Vram → Except Fault Vram} {sound sound' : Prop}
    {total total' : Nat} (h : Renders display r sound total)
    (hf : total ≤ VMEM_SIZE → ∀ s, s.At display total → Renders display (f s) sound' total')
    (hle : total ≤ total') :
    Renders display (r >>= f) (sound ∧ (total ≤ VMEM_SIZE → sound')) total' := by
  constructor
  · rintro ⟨hsound, hsound'⟩ hfit
    obtain ⟨s, hrun, hs⟩ := h.ok hsound (by omega)
    rw [hrun]
    exact (hf (by omega) s hs).ok (hsound' (by omega)) hfit
  · rintro ⟨hsound, hsound'⟩ hfull
    by_cases hfit : total ≤ VMEM_SIZE
    · obtain ⟨s, hrun, hs⟩ := h.ok hsound hfit
      rw [hrun]
      exact (hf hfit s hs).panic (hsound' hfit) hfull
    · rw [h.panic hsound (by omega)]
      rfl
  · intro hboth
    by_cases hsound : sound
    · rw [not_and, Classical.not_imp] at hboth
      obtain ⟨hfit, hsound'⟩ := hboth hsound
      obtain ⟨s, hrun, hs⟩ := h.ok hsound hfit
      rw [hrun]
      exact (hf hfit s hs).bad hsound'
    · exact not_safe_bind (h.bad hsound)

/-- Drawing a canvas that has its pixels. -/
theorem draw_renders (hsrc : Source vmem display px_local base) (hdst : Target display px W H)
    (hin : c.Inside W H) (hpixels : w * h ≠ 0 → base + 3 * (w * h) ≤ VMEM_SIZE)
    (hsize : c.size = (w, h)) (hs : s.At display head) (hhead : head ≤ VMEM_SIZE) :
    Renders display (draw vmem c px_local w h W px s) (c.Drawable base ∧ c.Placed W) head := by
  have hiff := last_turn_iff (W := W) hpixels hsize
  constructor
  · intro hsound _
    exact draw_ok hsrc hdst hin hs (hiff.mpr hsound)
  · intro _ hfull
    omega
  · intro hsound
    apply not_safe_of
    · intro s' hrun
      exact hsound (hiff.mp (draw_inside hsrc hdst hin hs hrun))
    · exact draw_no_panic hsrc hdst s

/-- The arena gives the bytes that a subtree needs, or there is a panic. -/
theorem vbuf_alloc_ok (hs : s.At display head) {size : Nat} (hfit : head + size ≤ VMEM_SIZE) :
    ∃ s', vbuf_alloc size s = .ok ((head : Int), s') ∧ s'.At display (head + size) := by
  let vbuf := s.vbuf.filled head 0 size
  have hsize := hs.vbuf
  refine ⟨{ s with vbuf := vbuf, vbuf_head := (head + size : Nat) }, ?_, hs.vbuf, hs.fb, rfl⟩
  have hcheck : decide ((head : Int) + size ≤ VMEM_SIZE) = true := decide_eq_true (by omega)
  have hfill : memset s.vbuf head 0 size = .ok vbuf := memset_ok (by omega)
  unfold vbuf_alloc
  rw [hs.head]
  simp only [hcheck, cassert_true, ok_bind, hfill]
  rfl

theorem vbuf_alloc_full (hs : s.At display head) {size : Nat} (hfull : VMEM_SIZE < head + size) :
    vbuf_alloc size s = .error .assertion := by
  have hcheck : decide ((head : Int) + size ≤ VMEM_SIZE) = false := decide_eq_false (by omega)
  unfold vbuf_alloc
  rw [hs.head]
  simp only [hcheck, cassert_false, error_bind]

variable {children : Option Nat → Nat → Ptr → Vram → Except Fault Vram} {cv : Nat}

theorem deref_ok (hin : cv + sizeof_canvas ≤ VMEM_SIZE) :
    deref vmem (some cv) = .ok (canvas vmem cv) := if_pos hin

theorem render_eq (hin : cv + sizeof_canvas ≤ VMEM_SIZE) :
    render vmem children (some cv) W px s =
      (local_canvas children (canvas vmem cv) s >>= fun r =>
        draw vmem (canvas vmem cv) r.1 r.2.1 r.2.2.1 W px r.2.2.2) := by
  rw [render, deref_ok hin, ok_bind]

/-- A texture is only drawn. -/
theorem render_texture (hin : cv + sizeof_canvas ≤ VMEM_SIZE)
    (htype : (canvas vmem cv).type = AM_GPU_TEXTURE) :
    render vmem children (some cv) W px s =
      draw vmem (canvas vmem cv) (.vmem (to_host (canvas vmem cv).texture_pixels))
        (canvas vmem cv).texture_w (canvas vmem cv).texture_h W px s := by
  rw [render_eq hin, local_canvas, if_pos htype, ok_bind]

theorem local_canvas_subtree (htype : c.type = AM_GPU_SUBTREE) :
    local_canvas children c s = (do
      let area ← cint (c.w * c.h)
      let size ← cint (area * 3)
      let (ret, s) ← vbuf_alloc size s
      let s ← children (to_host c.child) c.w (.vbuf ret) s
      return (.vbuf ret, c.w, c.h, s)) := by
  have hne : c.type ≠ AM_GPU_TEXTURE := by
    rw [htype]
    decide
  rw [local_canvas, if_neg hne, if_pos htype]

/-- A subtree whose size is no `int`. -/
theorem render_overflow (hin : cv + sizeof_canvas ≤ VMEM_SIZE)
    (htype : (canvas vmem cv).type = AM_GPU_SUBTREE)
    (hbig : 2 ^ 31 ≤ 3 * ((canvas vmem cv).w * (canvas vmem cv).h)) :
    ¬ Safe (render vmem children (some cv) W px s) := by
  have hover : local_canvas children (canvas vmem cv) s = .error .overflow := by
    rw [local_canvas_subtree htype, ← Int.natCast_mul]
    by_cases harea : (canvas vmem cv).w * (canvas vmem cv).h < 2 ^ 31
    · have hsize : cint (((canvas vmem cv).w * (canvas vmem cv).h : Nat) * 3) =
          .error .overflow := if_neg (by omega)
      rw [cint_natCast harea, ok_bind, hsize, error_bind]
    · have hcint : cint (((canvas vmem cv).w * (canvas vmem cv).h : Nat) : Int) =
          .error .overflow := if_neg (by omega)
      rw [hcint, error_bind]
  rw [render_eq hin, hover, error_bind]
  rintro (⟨s', hs'⟩ | hs')
  · cases hs'
  · cases hs'

/-- A subtree for which the arena has no room. -/
theorem render_full (hin : cv + sizeof_canvas ≤ VMEM_SIZE)
    (htype : (canvas vmem cv).type = AM_GPU_SUBTREE)
    (hint : 3 * ((canvas vmem cv).w * (canvas vmem cv).h) < 2 ^ 31) (hs : s.At display head)
    (hfull : VMEM_SIZE < head + 3 * ((canvas vmem cv).w * (canvas vmem cv).h)) :
    render vmem children (some cv) W px s = .error .assertion := by
  have hsize : (((canvas vmem cv).w * (canvas vmem cv).h : Nat) : Int) * 3 =
      (3 * ((canvas vmem cv).w * (canvas vmem cv).h) : Nat) := by omega
  rw [render_eq hin, local_canvas_subtree htype, ← Int.natCast_mul, cint_natCast (by omega),
    ok_bind,
    hsize, cint_natCast hint, ok_bind, vbuf_alloc_full hs hfull, error_bind, error_bind]

/-- A subtree gets a buffer; its children are rendered, and then it is drawn. -/
theorem render_subtree (W : Nat) (px : Ptr)
    (children : Option Nat → Nat → Ptr → Vram → Except Fault Vram)
    (hin : cv + sizeof_canvas ≤ VMEM_SIZE)
    (htype : (canvas vmem cv).type = AM_GPU_SUBTREE)
    (hint : 3 * ((canvas vmem cv).w * (canvas vmem cv).h) < 2 ^ 31) (hs : s.At display head)
    (hfit : head + 3 * ((canvas vmem cv).w * (canvas vmem cv).h) ≤ VMEM_SIZE) :
    ∃ s', s'.At display (head + 3 * ((canvas vmem cv).w * (canvas vmem cv).h)) ∧
      render vmem children (some cv) W px s =
        (children (to_host (canvas vmem cv).child) (canvas vmem cv).w (.vbuf head) s' >>=
          draw vmem (canvas vmem cv) (.vbuf head) (canvas vmem cv).w (canvas vmem cv).h W px) := by
  obtain ⟨s', halloc, hs'⟩ := vbuf_alloc_ok hs hfit
  have hsize : (((canvas vmem cv).w * (canvas vmem cv).h : Nat) : Int) * 3 =
      (3 * ((canvas vmem cv).w * (canvas vmem cv).h) : Nat) := by omega
  refine ⟨s', hs', ?_⟩
  rw [render_eq hin, local_canvas_subtree htype, ← Int.natCast_mul, cint_natCast (by omega),
    ok_bind,
    hsize, cint_natCast hint, ok_bind, halloc, ok_bind]
  show ((children (to_host (canvas vmem cv).child) (canvas vmem cv).w (.vbuf head) s' >>= fun s =>
    .ok (Ptr.vbuf head, (canvas vmem cv).w, (canvas vmem cv).h, s)) >>= _) = _
  cases children (to_host (canvas vmem cv).child) (canvas vmem cv).w (.vbuf head) s' with
  | ok s'' => rfl
  | error e => rfl

/-- Rendering a texture takes nothing of the arena. -/
theorem texture_renders (sound : Prop) (hplace : cv + sizeof_canvas ≤ VMEM_SIZE)
    (htype : (canvas vmem cv).type = AM_GPU_TEXTURE)
    (hpixels : (canvas vmem cv).texture_w * (canvas vmem cv).texture_h ≠ 0 →
      (canvas vmem cv).texture_pixels +
        3 * ((canvas vmem cv).texture_w * (canvas vmem cv).texture_h) ≤ VMEM_SIZE)
    (hin : (canvas vmem cv).Inside W H) (hdst : Target display px W H) (hs : s.At display head)
    (hhead : head ≤ VMEM_SIZE) :
    Renders display (render vmem children (some cv) W px s)
      ((canvas vmem cv).Sound head 0 sound ∧
        (head + (canvas vmem cv).own + 0 ≤ VMEM_SIZE → (canvas vmem cv).Placed W))
      (head + (canvas vmem cv).own + 0) := by
  have hne : (canvas vmem cv).type ≠ AM_GPU_SUBTREE := by
    rw [htype]
    decide
  have hown : (canvas vmem cv).own = 0 := if_neg hne
  have hsize : (canvas vmem cv).size =
      ((canvas vmem cv).texture_w, (canvas vmem cv).texture_h) := if_neg hne
  have htotal : head + (canvas vmem cv).own + 0 = head := by omega
  rw [render_texture hplace htype, htotal]
  apply (draw_renders (source_texture vmem display _) hdst hin hpixels hsize hs hhead).of_iff
  unfold Canvas.Sound
  rw [htotal, if_neg hne]
  constructor
  · intro hsound
    obtain ⟨⟨-, hdraw⟩, hplaced⟩ := hsound
    exact ⟨hdraw hhead, hplaced hhead⟩
  · intro hdraw
    exact ⟨⟨fun h => absurd h hne, fun _ => hdraw.1⟩, fun _ => hdraw.2⟩

/-- Rendering a subtree, when its children are rendered as they should and take
    `used` bytes of the arena. -/
theorem subtree_renders (sound : Prop) {used : Nat} (hplace : cv + sizeof_canvas ≤ VMEM_SIZE)
    (htype : (canvas vmem cv).type = AM_GPU_SUBTREE)
    (hin : (canvas vmem cv).Inside W H) (hdst : Target display px W H) (hs : s.At display head)
    (hchildren : head + (canvas vmem cv).own ≤ VMEM_SIZE →
      ∀ s', s'.At display (head + (canvas vmem cv).own) →
        Renders display
          (children (to_host (canvas vmem cv).child) (canvas vmem cv).w (.vbuf head) s') sound
          (head + (canvas vmem cv).own + used)) :
    Renders display (render vmem children (some cv) W px s)
      ((canvas vmem cv).Sound head used sound ∧
        (head + (canvas vmem cv).own + used ≤ VMEM_SIZE → (canvas vmem cv).Placed W))
      (head + (canvas vmem cv).own + used) := by
  have hown : (canvas vmem cv).own = 3 * ((canvas vmem cv).w * (canvas vmem cv).h) := if_pos htype
  have hsize : (canvas vmem cv).size = ((canvas vmem cv).w, (canvas vmem cv).h) := if_pos htype
  unfold Canvas.Sound
  rw [if_pos htype]
  by_cases hint : 3 * ((canvas vmem cv).w * (canvas vmem cv).h) < 2 ^ 31
  · by_cases hfit : head + (canvas vmem cv).own ≤ VMEM_SIZE
    · -- The children first, in the new buffer, and then the buffer itself.
      obtain ⟨s', hs', hrender⟩ := render_subtree W px children hplace htype hint hs (by omega)
      -- What is drawn of the new buffer once its children are there.
      rw [← hown] at hs'
      have hdraw : ∀ s, head + (canvas vmem cv).own + used ≤ VMEM_SIZE →
          s.At display (head + (canvas vmem cv).own + used) →
          Renders display (draw vmem (canvas vmem cv) (.vbuf head) (canvas vmem cv).w
            (canvas vmem cv).h W px s)
            ((canvas vmem cv).Drawable head ∧ (canvas vmem cv).Placed W)
            (head + (canvas vmem cv).own + used) :=
        fun s htotal hs =>
          draw_renders (source_vbuf vmem display head) hdst hin (fun _ => by omega) hsize hs htotal
      have hrun := (hchildren hfit s' hs').bind (fun htotal s hs => hdraw s htotal hs)
        (Nat.le_refl _)
      rw [hrender]
      apply hrun.of_iff
      constructor
      · intro hsound
        obtain ⟨⟨hsound, hdraw⟩, hplaced⟩ := hsound
        exact ⟨(hsound htype).2 hfit, fun htotal => ⟨hdraw htotal, hplaced htotal⟩⟩
      · intro hsound
        obtain ⟨hsound, hdraw⟩ := hsound
        exact ⟨⟨fun _ => ⟨hint, fun _ => hsound⟩, fun htotal => (hdraw htotal).1⟩,
          fun htotal => (hdraw htotal).2⟩
    · -- The arena runs out at once.
      rw [render_full hplace htype hint hs (by omega)]
      constructor
      · intro _ htotal
        omega
      · intro _ _
        rfl
      · intro hsound
        refine absurd ⟨⟨fun _ => ⟨hint, fun h => absurd h hfit⟩, ?_⟩, ?_⟩ hsound
        · intro htotal
          omega
        · intro htotal
          omega
  · -- The size of the buffer is no `int`.
    constructor
    · intro hsound
      exact absurd (hsound.1.1 htype).1 hint
    · intro hsound
      exact absurd (hsound.1.1 htype).1 hint
    · intro _
      exact render_overflow hplace htype (by omega)

/-- Rendering a canvas, when its children are rendered as they should. -/
theorem render_renders {kids : Forest} (sound : Prop) (hvalid : Valid vmem cv kids)
    (hin : (canvas vmem cv).Inside W H) (hdst : Target display px W H) (hs : s.At display head)
    (hhead : head ≤ VMEM_SIZE)
    (hchildren : (canvas vmem cv).type = AM_GPU_SUBTREE →
      head + (canvas vmem cv).own ≤ VMEM_SIZE → ∀ s', s'.At display (head + (canvas vmem cv).own) →
      Renders display
        (children (to_host (canvas vmem cv).child) (canvas vmem cv).w (.vbuf head) s') sound
        (head + (canvas vmem cv).own + kids.used vmem)) :
    Renders display (render vmem children (some cv) W px s)
      ((canvas vmem cv).Sound head (kids.used vmem) sound ∧
        (head + (canvas vmem cv).own + kids.used vmem ≤ VMEM_SIZE → (canvas vmem cv).Placed W))
      (head + (canvas vmem cv).own + kids.used vmem) := by
  obtain ⟨hplace, ⟨htype, hkids, hpixels⟩ | htype⟩ := hvalid
  · have hused : kids.used vmem = 0 := by
      rw [hkids]
      rfl
    rw [hused]
    exact texture_renders sound hplace htype hpixels hin hdst hs hhead
  · exact subtree_renders sound hplace htype hin hdst hs (hchildren htype)

/-- The place of a child is in the range of `int`. -/
theorem placed_of_inside (hin : c.Inside W H) (hfit : 3 * (W * H) ≤ VMEM_SIZE) : c.Placed W := by
  have hvmem : VMEM_SIZE < 2 ^ 31 := by decide
  by_cases hw1 : c.w1 = 0
  · exact Or.inl hw1
  by_cases hh1 : c.h1 = 0
  · exact Or.inr (Or.inl hh1)
  obtain ⟨hx, hy⟩ := hin
  have hlt : W * (c.y1 + c.h1 - 1) + (c.x1 + c.w1 - 1) < W * H :=
    place_lt (by omega) (by omega)
  exact Or.inr (Or.inr (by omega))

theorem to_host_valid {kids : Forest} (hvalid : Valid vmem cv kids) : to_host cv = some cv := by
  have hnull : VMEM_SIZE < AM_GPU_NULL := by decide
  have hplace := hvalid.1
  unfold sizeof_canvas at hplace
  exact if_neg (by omega)

/-- Rendering a list of canvases into a buffer of the arena. -/
theorem siblings_renders {trees : Forest} {ptr fuel : Nat} (hfuel : trees.depth ≤ fuel)
    (htrees : trees.At vmem ptr W H) (hbuf : base + 3 * (W * H) ≤ VMEM_SIZE)
    (hs : s.At display head) (hhead : head ≤ VMEM_SIZE) :
    Renders display (siblings vmem fuel (to_host ptr) W (.vbuf base) s) (trees.Sound vmem head)
      (head + trees.used vmem) := by
  induction trees generalizing ptr fuel W H base s head with
  | nil =>
    obtain ⟨fuel, rfl⟩ : ∃ n, fuel = n + 1 := ⟨fuel - 1, by unfold Forest.depth at hfuel; omega⟩
    obtain rfl : ptr = AM_GPU_NULL := htrees
    refine ⟨fun _ _ => ⟨s, rfl, hs⟩, ?_, fun h => absurd trivial h⟩
    intro _ hfull
    have hused : Forest.nil.used vmem = 0 := rfl
    omega
  | cons cv kids rest ihkids ihrest =>
    obtain ⟨rfl, hvalid, hin, hkids, hrest⟩ := htrees
    unfold Forest.depth at hfuel
    -- The node itself, with its children by the first hypothesis.
    obtain ⟨fuel, rfl⟩ : ∃ n, fuel = n + 1 := ⟨fuel - 1, by omega⟩
    have hnode : Renders display
        (render vmem (siblings vmem fuel) (some ptr) W (.vbuf base) s)
        ((canvas vmem ptr).Sound head (kids.used vmem)
          (kids.Sound vmem (head + (canvas vmem ptr).own)))
        (head + (canvas vmem ptr).own + kids.used vmem) := by
      have hplaced := placed_of_inside hin (by omega)
      refine (render_renders _ hvalid hin (target_vbuf display hbuf) hs hhead ?_).of_iff
        ⟨fun hsound => ⟨hsound, fun _ => hplaced⟩, fun hsound => hsound.1⟩
      intro htype hfit s' hs'
      have hown : (canvas vmem ptr).own = 3 * ((canvas vmem ptr).w * (canvas vmem ptr).h) :=
        if_pos htype
      exact ihkids (by omega) (hkids htype) (by omega) hs' hfit
    -- Its siblings use what is left of the arena.
    have hrun := hnode.bind (f := fun s => siblings vmem fuel (to_host (canvas vmem ptr).sibling) W
      (.vbuf base) s) (fun htotal s' hs' => ihrest (by omega) hrest hbuf hs' htotal)
      (Nat.le_add_right _ _)
    have hstep : siblings vmem (fuel + 1) (some ptr) W (.vbuf base) s =
        (render vmem (siblings vmem fuel) (some ptr) W (.vbuf base) s >>= fun s =>
          siblings vmem fuel (to_host (canvas vmem ptr).sibling) W (.vbuf base) s) := by
      rw [siblings]
      congr 1
      funext s
      rw [deref_ok hvalid.1, ok_bind]
    have htotal : head + (Forest.cons ptr kids rest).used vmem =
        head + (canvas vmem ptr).own + kids.used vmem + rest.used vmem := by
      show head + ((canvas vmem ptr).own + kids.used vmem + rest.used vmem) = _
      omega
    rw [to_host_valid hvalid, hstep, htotal]
    exact hrun

end draw

/-! ## Section 4: `gpu_render` -/

/-- The canvas at `root` and those below it are in the video memory, and each
    has its target on its parent. -/
def InMemory (vmem : Store) (display : Display) (root : Nat) (children : Forest) : Prop :=
  Valid vmem root children ∧ (canvas vmem root).Inside display.w display.h ∧
    ((canvas vmem root).type = AM_GPU_SUBTREE →
      children.At vmem (canvas vmem root).child (canvas vmem root).w (canvas vmem root).h)

/-- A frame buffer and an arena with their sizes. -/
def vram (display : Display) (vbuf : Nat → UInt8) (fb : Nat → Pixel) : Vram :=
  ⟨⟨VMEM_SIZE, vbuf⟩, 0, ⟨display.w * display.h, fb⟩⟩

/-- A finite tree is rendered without an access outside the arrays exactly if
    each canvas that is come to before the arena runs out meets its
    condition. -/
theorem gpu_render_safe_iff (vmem : Store) (display : Display) (root : Nat) (children : Forest)
    (h : InMemory vmem display root children) (fuel : Nat) (hfuel : children.depth ≤ fuel)
    (vbuf : Nat → UInt8) (fb : Nat → Pixel) :
    Safe (gpu_render vmem display fuel root (vram display vbuf fb)) ↔
      Renderable vmem display root children := by
  obtain ⟨hvalid, hin, hkids⟩ := h
  have hs : (vram display vbuf fb).At display 0 := ⟨rfl, rfl, rfl⟩
  have hrun : Renders display (gpu_render vmem display fuel root (vram display vbuf fb))
      (Renderable vmem display root children)
      (0 + (canvas vmem root).own + children.used vmem) := by
    unfold gpu_render
    rw [to_host_valid hvalid]
    refine (render_renders (children.Sound vmem (0 + (canvas vmem root).own)) hvalid hin
      (target_fb display) hs (Nat.zero_le _) ?_).of_iff ?_
    · intro htype hfit s' hs'
      have hown : (canvas vmem root).own = 3 * ((canvas vmem root).w * (canvas vmem root).h) :=
        if_pos htype
      exact siblings_renders hfuel (hkids htype) (by omega) hs' hfit
    · unfold Renderable
      rw [Nat.zero_add]
  constructor
  · intro hsafe
    by_contra hsound
    exact hrun.bad hsound hsafe
  · intro hsound
    by_cases hfit : 0 + (canvas vmem root).own + children.used vmem ≤ VMEM_SIZE
    · obtain ⟨s', hok, -⟩ := hrun.ok hsound hfit
      exact Or.inl ⟨s', hok⟩
    · exact Or.inr (hrun.panic hsound (by omega))

/-- A subtree of 4 times 4 pixels, which is drawn in double size.  Below it are a
    texture of one pixel and a subtree with another one. -/
def small_tree : Store :=
  stores (fun _ => 0)
    [⟨0, 2, 2⟩, ⟨2, 4, 2⟩, ⟨4, 4, 2⟩, ⟨6, 10, 2⟩, ⟨8, 20, 2⟩, ⟨10, 8, 2⟩, ⟨12, 8, 2⟩,
      ⟨14, 0xffffffff, 4⟩, ⟨18, 26, 4⟩,
      ⟨26, 1, 2⟩, ⟨36, 2, 2⟩, ⟨38, 2, 2⟩, ⟨40, 52, 4⟩, ⟨44, 1, 2⟩, ⟨46, 1, 2⟩, ⟨48, 104, 4⟩,
      ⟨52, 2, 2⟩, ⟨54, 2, 2⟩, ⟨56, 1, 2⟩, ⟨58, 2, 2⟩, ⟨60, 2, 2⟩, ⟨62, 2, 2⟩, ⟨64, 2, 2⟩,
      ⟨66, 0xffffffff, 4⟩, ⟨70, 78, 4⟩,
      ⟨78, 1, 2⟩, ⟨88, 1, 2⟩, ⟨90, 1, 2⟩, ⟨92, 0xffffffff, 4⟩, ⟨96, 1, 2⟩, ⟨98, 1, 2⟩,
      ⟨100, 104, 4⟩]

def small_children : Forest := .cons 26 .nil (.cons 52 (.cons 78 .nil .nil) .nil)

/-- The places of `small_tree`. -/
theorem small_tree_canvas :
    canvas small_tree 0 = ⟨2, 4, 4, 10, 20, 8, 8, 0xffffffff, 26, 26, 0, 0⟩ ∧
      canvas small_tree 26 = ⟨1, 0, 0, 0, 0, 2, 2, 52, 0x10001, 1, 1, 104⟩ ∧
      canvas small_tree 52 = ⟨2, 2, 1, 2, 2, 2, 2, 0xffffffff, 78, 78, 0, 0⟩ ∧
      canvas small_tree 78 = ⟨1, 0, 0, 0, 0, 1, 1, 0xffffffff, 0x10001, 1, 1, 104⟩ :=
  ⟨rfl, rfl, rfl, rfl⟩

theorem small_tree_in_memory :
    InMemory small_tree ⟨400, 300, by decide, by decide⟩ 0 small_children := by
  obtain ⟨hroot, hfirst, hsecond, hthird⟩ := small_tree_canvas
  simp [InMemory, small_children, Forest.At, Valid, Canvas.Inside, hroot, hfirst, hsecond, hthird,
    AM_GPU_TEXTURE, AM_GPU_SUBTREE, AM_GPU_NULL, sizeof_canvas, VMEM_SIZE]

theorem gpu_render_small_tree :
    Safe (gpu_render small_tree ⟨400, 300, by decide, by decide⟩ 4 0
      (vram ⟨400, 300, by decide, by decide⟩ (fun _ => 0) fun _ => ⟨0, 0, 0⟩)) := by
  apply (gpu_render_safe_iff small_tree _ 0 small_children small_tree_in_memory 4 (by decide) _
    _).mpr
  obtain ⟨hroot, hfirst, hsecond, hthird⟩ := small_tree_canvas
  simp [Renderable, small_children, Forest.Sound, Forest.used, Canvas.Sound, Canvas.Drawable,
    Canvas.Placed, Canvas.own, Canvas.size, hroot, hfirst, hsecond, hthird, AM_GPU_SUBTREE,
    VMEM_SIZE]

/-- A subtree of 65535 times 65535 pixels, with a texture of one pixel in its
    line 10. -/
def huge_subtree : Store := fun a =>
  if a = 0 then 2
  else if 2 ≤ a ∧ a < 6 ∨ 40 ≤ a ∧ a < 44 then 255
  else if a = 18 then 26
  else if a = 34 then 10
  else if a = 48 then 52
  else if a = 10 ∨ a = 12 ∨ a = 26 ∨ a = 36 ∨ a = 38 ∨ a = 44 ∨ a = 46 then 1
  else 0

/-- Its size is no `int`. -/
theorem huge_subtree_overflows :
    InMemory huge_subtree ⟨400, 300, by decide, by decide⟩ 0 (.cons 26 .nil .nil) ∧
    ¬ Safe (gpu_render huge_subtree ⟨400, 300, by decide, by decide⟩ 2 0
      (vram ⟨400, 300, by decide, by decide⟩ (fun _ => 0) fun _ => ⟨0, 0, 0⟩)) := by
  constructor
  · refine ⟨⟨by decide, Or.inr (by decide)⟩, ⟨by decide, by decide⟩, fun _ => ?_⟩
    refine ⟨by decide, ⟨by decide, Or.inl ⟨by decide, rfl, fun _ => by decide⟩⟩,
      ⟨by decide, by decide⟩, ?_, ?_⟩
    · intro htype
      exact absurd htype (by decide)
    · show (canvas huge_subtree 26).sibling = AM_GPU_NULL
      decide
  · exact render_overflow (by decide) (by decide) (by decide)

end Am.Gpu
