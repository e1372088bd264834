import IcsPa.Framework.CArray

/-! # Drawing to the frame buffer

    `__am_gpu_fbdraw` of `am/src/native/native-gpu.c` and `gpu_fbdraw` of
    `am/src/x86/qemu/ioe.c`.  Both copy a rectangle of pixels to a place of the
    screen and cut off what is beyond its right and its lower edge.  The one
    clips a row by its number of bytes, the other by the bound of a loop. -/

open CCall CArray

set_option linter.style.nameCheck false

namespace Am.Gpu

/-! ## Section 1: Requests and screens -/

/-- The fields of `AM_GPU_FBDRAW_T`, when none is negative; `pixels` are the
    rows of the rectangle, one after another. -/
structure Fbdraw where
  x      : Nat
  y      : Nat
  w      : Nat
  h      : Nat
  pixels : CArray UInt32
  x_lt   : x < 2 ^ 31
  y_lt   : y < 2 ^ 31
  w_lt   : w < 2 ^ 31
  h_lt   : h < 2 ^ 31
  area   : pixels.size = w * h

/-- `W` and `H` of `native-gpu.c`.  The frame buffer is a static array, so it is
    smaller than 2 GiB. -/
structure Screen where
  W     : Nat
  H     : Nat
  W_lt  : W < 2 ^ 31
  H_lt  : H < 2 ^ 31
  small : W * H < 2 ^ 29

/-- The screen in `MODE_800x600`. -/
def MODE_800x600 : Screen := ⟨800, 600, by decide, by decide, by decide⟩

/-- The screen in the other mode. -/
def MODE_400x300 : Screen := ⟨400, 300, by decide, by decide, by decide⟩

/-- The size of `display` in `ioe.c`, from the fields of `vbe_info`. -/
structure Display where
  w    : Nat
  h    : Nat
  w_lt : w < 2 ^ 16
  h_lt : h < 2 ^ 16

structure Pixel where
  b : UInt8
  g : UInt8
  r : UInt8
  deriving DecidableEq, Repr

def R (p : UInt32) : UInt8 := (p >>> 16).toUInt8

def G (p : UInt32) : UInt8 := (p >>> 8).toUInt8

def B (p : UInt32) : UInt8 := p.toUInt8

/-! ## Section 2: `native-gpu.c` -/

/-- The rows from `j` on; `n` are left. -/
def fbdraw_rows (s : Screen) (ctl : Fbdraw) (cp_bytes : Int) :
    Nat → Nat → CArray UInt32 → Except Fault (CArray UInt32)
  | _, 0, fb => .ok fb
  | j, n + 1, fb => do
      let row ← cint (ctl.y + j)
      if row < s.H then do
        let off ← cint (row * s.W)
        let off ← cint (off + ctl.x)
        -- A cell has 4 bytes; `pixels` has advanced by `w` in each row.
        let fb ← memcpy fb off ctl.pixels (j * ctl.w : Nat) (cp_bytes / 4)
        fbdraw_rows s ctl cp_bytes (j + 1) n fb
      else return fb

def __am_gpu_fbdraw (s : Screen) (ctl : Fbdraw) (fb : CArray UInt32) :
    Except Fault (CArray UInt32) :=
  -- The product is a `size_t`; `cp_bytes` is its low half as an `int`.
  let cp_bytes := (4 * min (ctl.w : Int) (s.W - ctl.x)).bmod (2 ^ 32)
  fbdraw_rows s ctl cp_bytes 0 ctl.h fb

/-! ## Section 3: `ioe.c` -/

/-- The turn `i` of the inner loop; `px` is the address of the first pixel of
    the row. -/
def draw_pixel (draw : Fbdraw) (j : Nat) (px : Int) (fb : CArray Pixel) (i : Nat) :
    Except Fault (CArray Pixel) := do
  let p ← draw.pixels.read (j * draw.w + i : Nat)
  fb.write (px + i) ⟨B p, G p, R p⟩

/-- The turn `j` of the outer loop. -/
def draw_row (display : Display) (draw : Fbdraw) (len : Int) (fb : CArray Pixel) (j : Nat) :
    Except Fault (CArray Pixel) := do
  let row ← cint (draw.y + j)
  if row < display.h then do
    let off ← cint (row * display.w)
    let px ← cint (draw.x + off)
    (List.range len.toNat).foldlM (draw_pixel draw j px) fb
  else return fb

def gpu_fbdraw (display : Display) (draw : Fbdraw) (fb : CArray Pixel) :
    Except Fault (CArray Pixel) := do
  let right ← cint (draw.x + draw.w)
  let len : Int := if right ≥ display.w then display.w - draw.x else draw.w
  (List.range draw.h).foldlM (draw_row display draw len) fb

/-! ## Section 4: Clipped blits -/

section blit
variable {β : Type}

/-- `fb'` is `fb` with the first `n` rows of the rectangle in it; nothing else
    of it changes. -/
structure Rows (W H : Nat) (color : UInt32 → β) (d : Fbdraw) (n : Nat) (fb fb' : CArray β) :
    Prop where
  size  : fb'.size = fb.size
  pixel : ∀ i j, i < d.w → j < n → d.x + i < W → d.y + j < H →
    fb'.cell ((d.y + j) * W + (d.x + i)) = color (d.pixels.cell (j * d.w + i))
  frame : ∀ k, (∀ i j, i < d.w → j < n → d.x + i < W → d.y + j < H →
    k ≠ (d.y + j) * W + (d.x + i)) → fb'.cell k = fb.cell k

/-- The clipped blit. -/
def Blit (W H : Nat) (color : UInt32 → β) (d : Fbdraw) (fb fb' : CArray β) : Prop :=
  Rows W H color d d.h fb fb'

variable {W H : Nat} {color : UInt32 → β} {d : Fbdraw} {n : Nat} {fb fb' fb'' : CArray β}

theorem Rows.zero (W H : Nat) (color : UInt32 → β) (d : Fbdraw) (fb : CArray β) :
    Rows W H color d 0 fb fb where
  size := rfl
  pixel := fun _ _ _ hj => absurd hj (Nat.not_lt_zero _)
  frame := fun _ _ => rfl

/-- Rows below the screen are not drawn. -/
theorem Rows.below (h : Rows W H color d n fb fb') {m : Nat} (hn : n ≤ m) (hH : H ≤ d.y + n) :
    Rows W H color d m fb fb' where
  size := h.size
  pixel := fun i j hi _ hx hy => h.pixel i j hi (by omega) hx hy
  frame := fun k hk => h.frame k fun i j hi hj hx hy => hk i j hi (by omega) hx hy

/-- One more row is drawn. -/
theorem Rows.succ (h : Rows W H color d n fb fb') (hsize : fb''.size = fb'.size)
    (hpixel : ∀ i, i < d.w → d.x + i < W →
      fb''.cell ((d.y + n) * W + (d.x + i)) = color (d.pixels.cell (n * d.w + i)))
    (hframe : ∀ k, (∀ i, i < d.w → d.x + i < W → k ≠ (d.y + n) * W + (d.x + i)) →
      fb''.cell k = fb'.cell k)
    (hH : d.y + n < H) : Rows W H color d (n + 1) fb fb'' where
  size := hsize.trans h.size
  pixel := by
    intro i j hi hj hx hy
    by_cases hlast : j = n
    · rw [hlast]
      exact hpixel i hi hx
    · rw [hframe, h.pixel i j hi (by omega) hx hy]
      -- The rows do not overlap.
      intro i' _ hx' heq
      have hrow : (d.y + j + 1) * W ≤ (d.y + n) * W := Nat.mul_le_mul_right W (by omega)
      rw [Nat.add_mul, Nat.one_mul] at hrow
      omega
  frame := by
    intro k hk
    rw [hframe, h.frame]
    · exact fun i j hi hj hx hy => hk i j hi (by omega) hx hy
    · exact fun i hi hx => hk i n hi (by omega) hx hH

end blit

end Am.Gpu
