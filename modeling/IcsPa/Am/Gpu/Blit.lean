import IcsPa.Am.Gpu

/-! # When drawing is a clipped blit

    The native driver draws the clipped rectangle unless a row that is on the
    screen starts beyond the right edge: the number of bytes is negative then,
    and `memcpy` takes it for a huge one.  The driver for QEMU draws it unless
    one of its sums leaves the range of `int`. -/

open CCall CArray

set_option linter.style.nameCheck false

namespace Am.Gpu

/-! ## Section 1: The native driver -/

/-- An `int` keeps what fits. -/
theorem bmod_int {v : Int} (hlo : -2 ^ 31 ≤ v) (hhi : v < 2 ^ 31) : v.bmod (2 ^ 32) = v := by
  rw [Int.bmod_def]
  split <;> omega

/-- The end of a row is in the array of all rows. -/
theorem row_end {W H row : Nat} (h : row < H) : row * W + W ≤ W * H := by
  calc row * W + W
    _ = (row + 1) * W := (Nat.succ_mul row W).symm
    _ ≤ H * W := Nat.mul_le_mul_right W h
    _ = W * H := Nat.mul_comm _ _

section native
variable {s : Screen} {ctl : Fbdraw} {fb fb' : CArray UInt32}

theorem Fbdraw.row_end (d : Fbdraw) {j : Nat} (h : j < d.h) : j * d.w + d.w ≤ d.pixels.size := by
  rw [d.area]
  exact Am.Gpu.row_end h

/-- One turn of the loop. -/
theorem fbdraw_rows_succ (cp_bytes : Int) {j : Nat} (hj : ctl.y + j < 2 ^ 31) (n : Nat) :
    fbdraw_rows s ctl cp_bytes j (n + 1) fb =
      if ctl.y + j < s.H then do
        let off ← cint ((ctl.y + j) * s.W : Nat)
        let off ← cint (off + ctl.x)
        let fb ← memcpy fb off ctl.pixels (j * ctl.w : Nat) (cp_bytes / 4)
        fbdraw_rows s ctl cp_bytes (j + 1) n fb
      else .ok fb := by
  rw [fbdraw_rows, cint_eq_ok (by omega) (by omega), ok_bind]
  by_cases hrow : ctl.y + j < s.H
  · rw [if_pos (by omega), if_pos hrow]
    push_cast
    rfl
  · rw [if_neg (by omega), if_neg hrow]
    rfl

/-- A rectangle that starts on the screen is drawn row by row. -/
theorem fbdraw_rows_blit (hx : ctl.x ≤ s.W) {m : Nat} (hm : m = min ctl.w (s.W - ctl.x))
    {start : CArray UInt32} {n j : Nat} (hj : j + n = ctl.h) (hy : ctl.y + j < 2 ^ 31)
    (hsize : fb.size = s.W * s.H) (h : Rows s.W s.H id ctl j start fb) :
    ∃ fb', fbdraw_rows s ctl (4 * m : Nat) j n fb = .ok fb' ∧
      Rows s.W s.H id ctl ctl.h start fb' := by
  have hH := s.H_lt
  have hsmall := s.small
  induction n generalizing j fb with
  | zero =>
    obtain rfl : j = ctl.h := by omega
    exact ⟨fb, rfl, h⟩
  | succ n ih =>
    rw [fbdraw_rows_succ _ hy]
    by_cases hrow : ctl.y + j < s.H
    · have hend := row_end (W := s.W) hrow
      have hsrc := ctl.row_end (j := j) (by omega)
      let off := (ctl.y + j) * s.W + ctl.x
      have hcopy : memcpy fb off ctl.pixels (j * ctl.w : Nat) m =
          .ok (fb.copied off ctl.pixels (j * ctl.w) m) :=
        memcpy_ok (by show off + m ≤ _; omega) (by omega)
      have hbytes : ((4 * m : Nat) : Int) / 4 = m := by omega
      rw [if_pos hrow, cint_eq_ok (by omega) (by omega), ok_bind,
        cint_eq_ok (by omega) (by omega), ok_bind, hbytes,
        show (((ctl.y + j) * s.W : Nat) : Int) + ctl.x = off from rfl, hcopy, ok_bind]
      apply ih (by omega) (by omega) (show (fb.copied off _ _ _).size = s.W * s.H from hsize)
      -- The copied cells are those of the row.
      apply h.succ (show (fb.copied off _ _ _).size = fb.size from rfl) _ _ hrow
      · intro i hi hxi
        rw [copied_inside (by omega) (by omega)]
        congr 1
        omega
      · intro k hk
        apply copied_outside
        by_contra hin
        exact hk (k - off) (by omega) (by omega) (by omega)
    · rw [if_neg hrow]
      exact ⟨fb, rfl, h.below (by omega) (by omega)⟩

/-- A row on the screen that starts beyond the right edge goes wrong. -/
theorem fbdraw_rows_fails (hx : s.W < ctl.x) (hy : ctl.y < s.H) (hsize : fb.size = s.W * s.H)
    (n : Nat) : ¬ ∃ fb', fbdraw_rows s ctl
      ((4 * min (ctl.w : Int) (s.W - ctl.x)).bmod (2 ^ 32)) 0 (n + 1) fb = .ok fb' := by
  rintro ⟨fb', hrun⟩
  have hsmall := s.small
  have hend := row_end (W := s.W) hy
  have hxlt := ctl.x_lt
  have hH := s.H_lt
  rw [fbdraw_rows_succ _ (by omega), if_pos (by omega)] at hrun
  obtain ⟨off₁, hoff₁, hrun⟩ := bind_eq_ok hrun
  obtain ⟨off₂, hoff₂, hrun⟩ := bind_eq_ok hrun
  obtain ⟨mid, hcopy, -⟩ := bind_eq_ok hrun
  obtain ⟨rfl, -, -⟩ := cint_ok hoff₁
  obtain ⟨rfl, -, -⟩ := cint_ok hoff₂
  obtain ⟨⟨-, hcount, hfit⟩, -⟩ := has_of_memcpy hcopy
  -- So far to the right no byte of the frame buffer is left.
  have hnear : (ctl.x : Int) < 2 ^ 29 := by
    have hrow : (0 : Int) ≤ ((ctl.y + 0) * s.W : Nat) := Int.natCast_nonneg _
    omega
  have hmin : min (ctl.w : Int) (s.W - ctl.x) = s.W - ctl.x := by omega
  rw [hmin, bmod_int (by omega) (by omega)] at hcount
  omega

/-- The native driver draws the clipped rectangle unless a row on the screen
    starts beyond the right edge. -/
theorem native_blit_iff (s : Screen) (ctl : Fbdraw) (cells : Nat → UInt32) :
    (∃ fb', __am_gpu_fbdraw s ctl ⟨s.W * s.H, cells⟩ = .ok fb' ∧
      Blit s.W s.H id ctl ⟨s.W * s.H, cells⟩ fb') ↔ ctl.h = 0 ∨ s.H ≤ ctl.y ∨ ctl.x ≤ s.W := by
  have hzero := Rows.zero s.W s.H id ctl ⟨s.W * s.H, cells⟩
  unfold __am_gpu_fbdraw
  by_cases hseen : ctl.h ≠ 0 ∧ ctl.y < s.H
  · obtain ⟨hh, hy⟩ := hseen
    have hend := row_end (W := s.W) hy
    have hsmall := s.small
    by_cases hx : ctl.x ≤ s.W
    -- The bytes of a row fit, so the 32-bit product is the true one.
    · have hbytes : (4 * min (ctl.w : Int) (s.W - ctl.x)).bmod (2 ^ 32) =
          (4 * min ctl.w (s.W - ctl.x) : Nat) := by
        rw [bmod_int (by omega) (by omega)]
        omega
      rw [hbytes]
      have hblit := fbdraw_rows_blit hx rfl (Nat.zero_add _) ctl.y_lt rfl hzero
      exact ⟨fun _ => Or.inr (Or.inr hx), fun _ => hblit⟩
    -- A row that starts to the right of the screen gets a length below zero.
    · obtain ⟨n, hn⟩ := Nat.exists_eq_succ_of_ne_zero hh
      have hfails : ¬ ∃ fb', fbdraw_rows s ctl
          ((4 * min (ctl.w : Int) (s.W - ctl.x)).bmod (2 ^ 32)) 0 (n + 1) ⟨s.W * s.H, cells⟩ =
            .ok fb' := fbdraw_rows_fails (by omega) hy rfl n
      constructor
      · rintro ⟨fb', hrun, -⟩
        rw [hn] at hrun
        exact absurd ⟨fb', hrun⟩ hfails
      · intro hcond
        omega
  · -- No row is on the screen.
    have hnone : fbdraw_rows s ctl ((4 * min (ctl.w : Int) (s.W - ctl.x)).bmod (2 ^ 32)) 0 ctl.h
        ⟨s.W * s.H, cells⟩ = .ok ⟨s.W * s.H, cells⟩ := by
      cases hh : ctl.h with
      | zero => rfl
      | succ n =>
        have hy := ctl.y_lt
        rw [fbdraw_rows_succ _ hy, if_neg (by omega)]
    have hblit : Blit s.W s.H id ctl ⟨s.W * s.H, cells⟩ ⟨s.W * s.H, cells⟩ := by
      by_cases hh : ctl.h = 0
      · unfold Blit
        rw [hh]
        exact hzero
      · exact hzero.below (Nat.zero_le _) (by omega)
    exact ⟨fun _ => by omega, fun _ => ⟨_, hnone, hblit⟩⟩

end native

/-! ## Section 2: The driver for QEMU -/

section qemu
variable {display : Display} {draw : Fbdraw} {fb fb' : CArray Pixel}

def color (p : UInt32) : Pixel := ⟨B p, G p, R p⟩

/-- The sums of `gpu_fbdraw` are in the range of `int`. -/
structure InRange (display : Display) (draw : Fbdraw) : Prop where
  right  : draw.x + draw.w < 2 ^ 31
  bottom : draw.y + draw.h ≤ 2 ^ 31
  cell   : ∀ j < draw.h, draw.y + j < display.h →
    draw.x + (draw.y + j) * display.w < 2 ^ 31

/-- The inner loop copies `n` pixels of a row. -/
theorem draw_pixels {j px n : Nat} (hsrc : j * draw.w + n ≤ draw.pixels.size)
    (hdst : ∀ i < n, px + i < fb.size) :
    ∃ fb', (List.range n).foldlM (draw_pixel draw j px) fb = .ok fb' ∧ fb'.size = fb.size ∧
      (∀ i < n, fb'.cell (px + i) = color (draw.pixels.cell (j * draw.w + i))) ∧
      (∀ k, (∀ i < n, k ≠ px + i) → fb'.cell k = fb.cell k) := by
  induction n with
  | zero =>
    exact ⟨fb, rfl, rfl, fun i hi => absurd hi (Nat.not_lt_zero i), fun k _ => rfl⟩
  | succ n ih =>
    obtain ⟨mid, hrun, hsize, hpixel, hframe⟩ := ih (by omega) fun i hi => hdst i (by omega)
    have hin := hdst n (by omega)
    let p := draw.pixels.cell (j * draw.w + n)
    let fb' : CArray Pixel := { mid with cell := Function.update mid.cell (px + n) (color p) }
    -- One more pixel is read and written.
    have hturn : draw_pixel draw j px mid n = .ok fb' := by
      have hread : draw.pixels.read (j * draw.w + n : Nat) = .ok p := read_ok (by omega)
      have hwrite : mid.write (px + n : Nat) (color p) = .ok fb' := write_ok (by omega) _
      rw [draw_pixel, hread]
      exact hwrite
    refine ⟨fb', ?_, hsize, ?_, ?_⟩
    · rw [foldlM_range_succ, hrun]
      exact hturn
    · intro i hi
      by_cases hlast : i = n
      · rw [hlast]
        exact Function.update_self _ _ _
      · have hold : fb'.cell (px + i) = mid.cell (px + i) :=
          Function.update_of_ne (by omega) _ _
        rw [hold]
        exact hpixel i (by omega)
    · intro k hk
      have hold : fb'.cell k = mid.cell k := Function.update_of_ne (hk n (by omega)) _ _
      rw [hold]
      exact hframe k fun i hi => hk i (by omega)

/-- The bound of the inner loop. -/
theorem len_eq (display : Display) (draw : Fbdraw) :
    (if (draw.x + draw.w : Int) ≥ display.w then (display.w : Int) - draw.x else draw.w).toNat =
      min draw.w (display.w - draw.x) := by
  split <;> omega

/-- A turn of the outer loop draws its row. -/
theorem draw_row_blit (hrange : InRange display draw) {j : Nat} (hj : j < draw.h)
    {start : CArray Pixel} (hsize : fb.size = display.w * display.h)
    (h : Rows display.w display.h color draw j start fb) {len : Int}
    (hlen : len.toNat = min draw.w (display.w - draw.x)) :
    ∃ fb', draw_row display draw len fb j = .ok fb' ∧ fb'.size = fb.size ∧
      Rows display.w display.h color draw (j + 1) start fb' := by
  have hbottom := hrange.bottom
  have hrow : cint ((draw.y : Int) + j) = .ok ((draw.y + j : Nat) : Int) :=
    cint_eq_ok (by omega) (by omega)
  rw [draw_row, hrow, ok_bind]
  -- A row below the screen is skipped by the test in the loop.
  by_cases hseen : draw.y + j < display.h
  · have hcell := hrange.cell j hj hseen
    have hend := row_end (W := display.w) hseen
    have hsrc := draw.row_end hj
    let px := draw.x + (draw.y + j) * display.w
    have hfit : j * draw.w + min draw.w (display.w - draw.x) ≤ draw.pixels.size := by omega
    have hdst : ∀ i < min draw.w (display.w - draw.x), px + i < fb.size := by omega
    obtain ⟨fb', hrun, hsize', hpixel, hframe⟩ := draw_pixels hfit hdst
    refine ⟨fb', ?_, hsize', ?_⟩
    -- The two products of the loop fit into `int`.
    · have hoff : ((draw.y + j : Nat) : Int) * display.w = ((draw.y + j) * display.w : Nat) :=
        (Int.natCast_mul _ _).symm
      have hpx : (draw.x : Int) + ((draw.y + j) * display.w : Nat) = (px : Nat) :=
        (Int.natCast_add _ _).symm
      rw [if_pos (by omega), hoff, cint_natCast (by omega), ok_bind, hpx, cint_natCast hcell,
        ok_bind, hlen]
      exact hrun
    · apply h.succ hsize' _ _ hseen
      · intro i hi hx
        have hplace : (draw.y + j) * display.w + (draw.x + i) = px + i := by
          show _ = draw.x + (draw.y + j) * display.w + i
          omega
        rw [hplace]
        exact hpixel i (by omega)
      · intro k hk
        apply hframe k
        intro i hi heq
        exact hk i (by omega) (by omega) (by omega)
  · rw [if_neg (by omega)]
    exact ⟨fb, rfl, rfl, h.below (by omega) (by omega)⟩

/-- What a turn of the outer loop has computed. -/
theorem draw_row_sums {len : Int} {j : Nat}
    (h : draw_row display draw len fb j = .ok fb') : (draw.y + j : Int) < 2 ^ 31 ∧
      (draw.y + j < display.h → draw.x + (draw.y + j) * display.w < 2 ^ 31) := by
  obtain ⟨row, hrow, hturn⟩ := bind_eq_ok h
  obtain ⟨rfl, -, hrow⟩ := cint_ok hrow
  refine ⟨hrow, ?_⟩
  intro hseen
  rw [if_pos (by omega)] at hturn
  obtain ⟨off, hoff, hturn⟩ := bind_eq_ok hturn
  obtain ⟨px, hpx, -⟩ := bind_eq_ok hturn
  obtain ⟨rfl, -, -⟩ := cint_ok hoff
  obtain ⟨-, -, hpx⟩ := cint_ok hpx
  exact_mod_cast hpx

/-- If the driver returns, no sum has left the range of `int`. -/
theorem in_range_of_drawn (h : gpu_fbdraw display draw fb = .ok fb') :
    InRange display draw := by
  obtain ⟨right, hright, hrows⟩ := bind_eq_ok h
  obtain ⟨rfl, -, hright⟩ := cint_ok hright
  have hturns := foldlM_ok_all (fun j _ _ hturn => draw_row_sums hturn) hrows
  refine ⟨by omega, ?_, ?_⟩
  · by_cases hh : draw.h = 0
    · have hy := draw.y_lt
      omega
    · have hlast := (hturns (draw.h - 1) (List.mem_range.mpr (by omega))).1
      omega
  · intro j hj hseen
    exact (hturns j (List.mem_range.mpr hj)).2 hseen

/-- The outer loop draws the first `n` rows. -/
theorem draw_rows_blit (hrange : InRange display draw) {start : CArray Pixel}
    (hsize : start.size = display.w * display.h) {len : Int}
    (hlen : len.toNat = min draw.w (display.w - draw.x)) {n : Nat} (hn : n ≤ draw.h) :
    ∃ fb', (List.range n).foldlM (draw_row display draw len) start = .ok fb' ∧
      fb'.size = display.w * display.h ∧
      Rows display.w display.h color draw n start fb' := by
  induction n with
  | zero => exact ⟨start, rfl, hsize, Rows.zero _ _ _ _ _⟩
  | succ n ih =>
    obtain ⟨mid, hrun, hmid, hrows⟩ := ih (by omega)
    obtain ⟨fb', hturn, hsize', hrow⟩ := draw_row_blit hrange (by omega) hmid hrows hlen
    refine ⟨fb', ?_, hsize'.trans hmid, hrow⟩
    rw [foldlM_range_succ, hrun, ok_bind]
    exact hturn

/-- The driver for QEMU draws the clipped rectangle unless a sum leaves the
    range of `int`. -/
theorem qemu_blit_iff (display : Display) (draw : Fbdraw) (cells : Nat → Pixel) :
    (∃ fb', gpu_fbdraw display draw ⟨display.w * display.h, cells⟩ = .ok fb' ∧
      Blit display.w display.h color draw ⟨display.w * display.h, cells⟩ fb') ↔
      InRange display draw := by
  constructor
  · intro hblit
    obtain ⟨fb', hrun, -⟩ := hblit
    exact in_range_of_drawn hrun
  · intro hrange
    have hright := hrange.right
    let start : CArray Pixel := ⟨display.w * display.h, cells⟩
    have hsize : start.size = display.w * display.h := rfl
    obtain ⟨fb', hrun, -, hblit⟩ :=
      draw_rows_blit hrange hsize (len_eq display draw) (Nat.le_refl draw.h)
    refine ⟨fb', ?_, hblit⟩
    have hsum : cint ((draw.x : Int) + draw.w) = .ok ((draw.x : Int) + draw.w) :=
      cint_eq_ok (by omega) (by omega)
    rw [gpu_fbdraw, hsum, ok_bind]
    exact hrun

end qemu

/-! ## Section 3: Both drivers -/

/-- Exactly when a request is drawn as the clipped rectangle. -/
theorem fbdraw_blit_iff (s : Screen) (display : Display) (d : Fbdraw) (cells : Nat → UInt32)
    (cells' : Nat → Pixel) :
    ((∃ fb', __am_gpu_fbdraw s d ⟨s.W * s.H, cells⟩ = .ok fb' ∧
      Blit s.W s.H id d ⟨s.W * s.H, cells⟩ fb') ↔ d.h = 0 ∨ s.H ≤ d.y ∨ d.x ≤ s.W) ∧
    ((∃ fb', gpu_fbdraw display d ⟨display.w * display.h, cells'⟩ = .ok fb' ∧
      Blit display.w display.h color d ⟨display.w * display.h, cells'⟩ fb') ↔
      InRange display d) :=
  ⟨native_blit_iff s d cells, qemu_blit_iff display d cells'⟩

/-- One pixel, beyond the right edge of the screen. -/
def beyond (x : Nat) (hx : x < 2 ^ 31) : Fbdraw where
  x := x
  y := 0
  w := 1
  h := 1
  pixels := ⟨1, fun _ => 0⟩
  x_lt := hx
  y_lt := by decide
  w_lt := by decide
  h_lt := by decide
  area := rfl

/-- It is not clipped away: the native driver copies a negative number of
    bytes, and the driver for QEMU leaves the range of `int` for the largest
    `x`. -/
theorem beyond_not_clipped :
    (¬ ∃ fb', __am_gpu_fbdraw MODE_400x300 (beyond 401 (by decide)) ⟨400 * 300, fun _ => 0⟩ =
        .ok fb' ∧
      Blit 400 300 id (beyond 401 (by decide)) ⟨400 * 300, fun _ => 0⟩ fb') ∧
    ¬ ∃ fb', gpu_fbdraw ⟨400, 300, by decide, by decide⟩ (beyond (2 ^ 31 - 1) (by decide))
        ⟨400 * 300, fun _ => ⟨0, 0, 0⟩⟩ = .ok fb' ∧
      Blit 400 300 color (beyond (2 ^ 31 - 1) (by decide)) ⟨400 * 300, fun _ => ⟨0, 0, 0⟩⟩ fb' := by
  constructor
  · intro hblit
    have hcond := (native_blit_iff MODE_400x300 _ _).mp hblit
    exact absurd hcond (by decide)
  · intro hblit
    have hrange := (qemu_blit_iff ⟨400, 300, by decide, by decide⟩ _ _).mp hblit
    exact absurd hrange.right (by decide)

end Am.Gpu
