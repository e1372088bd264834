import IcsPa.Am.Gpu
import IcsPa.Framework.Bytes

/-! # Rendering canvas trees

    `vbuf_alloc`, `render` and `gpu_render` of `am/src/x86/qemu/ioe.c`.  A
    canvas in the video memory is a texture or a subtree of canvases.  A subtree
    is rendered into a buffer of its own, which is taken from the arena `vbuf`;
    then each canvas is scaled to its target on its parent.

    All of this is computed in `int`. -/

open CCall CArray Bytes

namespace Am.Gpu

/-! ## Section 1: The video memory -/

/-- `VMEM_SIZE`, the size of `vmem` and of `vbuf`. -/
def VMEM_SIZE : Nat := 512 <<< 10

def AM_GPU_TEXTURE : Nat := 1
def AM_GPU_SUBTREE : Nat := 2
def AM_GPU_NULL : Nat := 0xffffffff

/-- `to_host(ptr)`: `NULL`, or the place in `vmem`. -/
def to_host (ptr : Nat) : Option Nat := if ptr = AM_GPU_NULL then none else some ptr

/-- `struct gpu_canvas`; the fields `child` and `texture` share their bytes. -/
structure Canvas where
  type    : Nat
  w       : Nat
  h       : Nat
  x1      : Nat
  y1      : Nat
  w1      : Nat
  h1      : Nat
  sibling : Nat
  child   : Nat
  texture_w      : Nat
  texture_h      : Nat
  texture_pixels : Nat

def sizeof_canvas : Nat := 26

/-- The canvas at `cv` of `vmem`. -/
def canvas (vmem : Store) (cv : Nat) : Canvas where
  type := load vmem cv 2
  w := load vmem (cv + 2) 2
  h := load vmem (cv + 4) 2
  x1 := load vmem (cv + 6) 2
  y1 := load vmem (cv + 8) 2
  w1 := load vmem (cv + 10) 2
  h1 := load vmem (cv + 12) 2
  sibling := load vmem (cv + 14) 4
  child := load vmem (cv + 18) 4
  texture_w := load vmem (cv + 18) 2
  texture_h := load vmem (cv + 20) 2
  texture_pixels := load vmem (cv + 22) 4

/-- `*cv` -/
def deref (vmem : Store) (cv : Option Nat) : Except Fault Canvas :=
  match cv with
  | none => .error .outOfBounds
  | some cv => if cv + sizeof_canvas ≤ VMEM_SIZE then .ok (canvas vmem cv) else .error .outOfBounds

/-! ## Section 2: `ioe.c` -/

/-- What `gpu_render` writes; `vbuf_head` is relative to `vbuf`. -/
structure Vram where
  vbuf      : CArray UInt8
  vbuf_head : Int
  fb        : CArray Pixel

/-- A `struct pixel *`: into `vmem`, into `vbuf`, or the frame buffer. -/
inductive Ptr where
  | vmem (ptr : Option Nat)
  | vbuf (off : Int)
  | fb

/-- The bytes of a pixel. -/
def Pixel.bytes (p : Pixel) : CArray UInt8 :=
  ⟨3, fun i => if i = 0 then p.b else if i = 1 then p.g else p.r⟩

/-- The pixel at a place of an array of bytes. -/
def pixel_at (a : CArray UInt8) (off : Int) : Except Fault Pixel := do
  let b ← a.read off
  let g ← a.read (off + 1)
  let r ← a.read (off + 2)
  return ⟨b, g, r⟩

/-- `px[k]` -/
def Ptr.read (vmem : Store) (s : Vram) (k : Int) : Ptr → Except Fault Pixel
  | .vmem none => .error .outOfBounds
  | .vmem (some ptr) => pixel_at ⟨VMEM_SIZE, vmem⟩ (ptr + 3 * k)
  | .vbuf off => pixel_at s.vbuf (off + 3 * k)
  | .fb => s.fb.read k

/-- `px[k] = p`; the places that `render` writes to are not in `vmem`. -/
def Ptr.write (s : Vram) (k : Int) (p : Pixel) : Ptr → Except Fault Vram
  | .vmem _ => .error .outOfBounds
  | .vbuf off => do
      let vbuf ← memcpy s.vbuf (off + 3 * k) p.bytes 0 3
      return { s with vbuf := vbuf }
  | .fb => do
      let fb ← s.fb.write k p
      return { s with fb := fb }

/-- `vbuf_alloc(size)`.  The check comes after the head has moved. -/
def vbuf_alloc (size : Int) (s : Vram) : Except Fault (Int × Vram) := do
  let ret := s.vbuf_head
  let vbuf_head := s.vbuf_head + size
  cassert (decide (vbuf_head ≤ VMEM_SIZE))
  let vbuf ← memset s.vbuf ret 0 size
  return (ret, { s with vbuf := vbuf, vbuf_head := vbuf_head })

/-- The body of the loops that draw a canvas. -/
def draw_scaled (vmem : Store) (cv : Canvas) (px_local : Ptr) (w h W : Nat) (px : Ptr) (i : Nat)
    (s : Vram) (j : Nat) : Except Fault Vram := do
  let x := cv.x1 + i
  let y := cv.y1 + j
  let jh ← cint (j * h)
  let line ← cint (w * (jh / cv.h1))
  let iw ← cint (i * w)
  let k ← cint (line + iw / cv.w1)
  let p ← px_local.read vmem s k
  let row ← cint (W * y)
  let place ← cint (row + x)
  px.write s place p

/-- The loops that draw a canvas. -/
def draw (vmem : Store) (cv : Canvas) (px_local : Ptr) (w h W : Nat) (px : Ptr) (s : Vram) :
    Except Fault Vram :=
  (List.range cv.w1).foldlM (fun s i =>
    (List.range cv.h1).foldlM (draw_scaled vmem cv px_local w h W px i) s) s

/-- The `switch` of `render`: the pixels of the canvas with their width and
    height.  `children` is the loop over the children of a subtree. -/
def local_canvas (children : Option Nat → Nat → Ptr → Vram → Except Fault Vram) (cv : Canvas)
    (s : Vram) : Except Fault (Ptr × Nat × Nat × Vram) :=
  if cv.type = AM_GPU_TEXTURE then
    .ok (.vmem (to_host cv.texture_pixels), cv.texture_w, cv.texture_h, s)
  else if cv.type = AM_GPU_SUBTREE then do
    -- The product is a `size_t`, and the parameter of `vbuf_alloc` an `int`.
    let area ← cint (cv.w * cv.h)
    let size ← cint (area * 3)
    let (ret, s) ← vbuf_alloc size s
    let s ← children (to_host cv.child) cv.w (.vbuf ret) s
    return (.vbuf ret, cv.w, cv.h, s)
  else .error .assertion

/-- `render(cv, parent, px)`, with the width of the parent. -/
def render (vmem : Store) (children : Option Nat → Nat → Ptr → Vram → Except Fault Vram)
    (cv : Option Nat) (W : Nat) (px : Ptr) (s : Vram) : Except Fault Vram := do
  let cv ← deref vmem cv
  let (px_local, w, h, s) ← local_canvas children cv s
  draw vmem cv px_local w h W px s

/-- The loop over the children, from `ch` on. -/
def siblings (vmem : Store) : Nat → Option Nat → Nat → Ptr → Vram → Except Fault Vram
  | 0, _, _, _, _ => .error .diverges
  | _ + 1, none, _, _, s => .ok s
  | fuel + 1, some ch, W, px, s => do
      let s ← render vmem (siblings vmem fuel) (some ch) W px s
      let next ← deref vmem (some ch)
      siblings vmem fuel (to_host next.sibling) W px s

def gpu_render (vmem : Store) (display : Display) (fuel root : Nat) (s : Vram) :
    Except Fault Vram :=
  render vmem (siblings vmem fuel) (to_host root) display.w .fb { s with vbuf_head := 0 }

/-! ## Section 3: Canvas trees -/

/-- The places of a list of canvases: of the first, of its children, and of its
    siblings. -/
inductive Forest where
  | nil
  | cons (cv : Nat) (children rest : Forest)

/-- How deep the calls and loops are nested. -/
def Forest.depth : Forest → Nat
  | .nil => 1
  | .cons _ children rest => max children.depth rest.depth + 1

section tree
variable (vmem : Store)

/-- The size of the canvas, in pixels. -/
def Canvas.size (c : Canvas) : Nat × Nat :=
  if c.type = AM_GPU_SUBTREE then (c.w, c.h) else (c.texture_w, c.texture_h)

/-- The canvas at `cv` is a texture whose pixels are in `vmem`, or a subtree. -/
def Valid (cv : Nat) (children : Forest) : Prop :=
  cv + sizeof_canvas ≤ VMEM_SIZE ∧
    (((canvas vmem cv).type = AM_GPU_TEXTURE ∧ children = .nil ∧
      ((canvas vmem cv).texture_w * (canvas vmem cv).texture_h ≠ 0 →
        (canvas vmem cv).texture_pixels +
          3 * ((canvas vmem cv).texture_w * (canvas vmem cv).texture_h) ≤ VMEM_SIZE)) ∨
      (canvas vmem cv).type = AM_GPU_SUBTREE)

/-- The target of the canvas is in an area of `W` times `H` pixels. -/
def Canvas.Inside (c : Canvas) (W H : Nat) : Prop := c.x1 + c.w1 ≤ W ∧ c.y1 + c.h1 ≤ H

/-- The list of siblings from `ptr` on, and the lists below it, are in `vmem`; the
    targets are in an area of `W` times `H` pixels. -/
def Forest.At : Forest → Nat → Nat → Nat → Prop
  | .nil, ptr, _, _ => ptr = AM_GPU_NULL
  | .cons cv children rest, ptr, W, H =>
      ptr = cv ∧ Valid vmem cv children ∧ (canvas vmem cv).Inside W H ∧
        ((canvas vmem cv).type = AM_GPU_SUBTREE →
          children.At (canvas vmem cv).child (canvas vmem cv).w (canvas vmem cv).h) ∧
        rest.At (canvas vmem cv).sibling W H

/-! ## Section 4: When rendering stays in its arrays -/

/-- What the canvas takes from the arena for itself. -/
def Canvas.own (c : Canvas) : Nat := if c.type = AM_GPU_SUBTREE then 3 * (c.w * c.h) else 0

/-- What the list takes from the arena. -/
def Forest.used : Forest → Nat
  | .nil => 0
  | .cons cv children rest => (canvas vmem cv).own + children.used + rest.used

/-- The canvas, whose pixels are at `base`, can be drawn: the scaled indices are
    in the range of `int`, and if it has no pixels, those that are read all the
    same are in the array. -/
def Canvas.Drawable (c : Canvas) (base : Nat) : Prop :=
  c.w1 = 0 ∨ c.h1 = 0 ∨
    (c.h1 - 1) * c.size.2 < 2 ^ 31 ∧ (c.w1 - 1) * c.size.1 < 2 ^ 31 ∧
      (c.size.1 = 0 ∨ c.size.2 = 0 →
        base + 3 * ((c.w1 - 1) * c.size.1 / c.w1 + 1) ≤ VMEM_SIZE)

/-- The canvas can be rendered when `head` bytes of the arena are taken: the
    size of its buffer is an `int`, and unless the arena runs out, its children
    can be rendered and then itself. -/
def Canvas.Sound (c : Canvas) (head used : Nat) (children : Prop) : Prop :=
  (c.type = AM_GPU_SUBTREE →
    3 * (c.w * c.h) < 2 ^ 31 ∧ (head + c.own ≤ VMEM_SIZE → children)) ∧
  (head + c.own + used ≤ VMEM_SIZE →
    c.Drawable (if c.type = AM_GPU_SUBTREE then head else c.texture_pixels))

/-- So can the canvases of a list, one after another. -/
def Forest.Sound : Forest → Nat → Prop
  | .nil, _ => True
  | .cons cv children rest, head =>
      (canvas vmem cv).Sound head (children.used vmem)
        (children.Sound (head + (canvas vmem cv).own)) ∧
      (head + (canvas vmem cv).own + children.used vmem ≤ VMEM_SIZE →
        rest.Sound (head + (canvas vmem cv).own + children.used vmem))

/-- The last place of the target is in the range of `int`. -/
def Canvas.Placed (c : Canvas) (W : Nat) : Prop :=
  c.w1 = 0 ∨ c.h1 = 0 ∨ W * (c.y1 + c.h1 - 1) + (c.x1 + c.w1 - 1) < 2 ^ 31

/-- The tree of the canvas at `root` can be rendered. -/
def Renderable (display : Display) (root : Nat) (children : Forest) : Prop :=
  (canvas vmem root).Sound 0 (children.used vmem)
    (children.Sound vmem (canvas vmem root).own) ∧
  ((canvas vmem root).own + children.used vmem ≤ VMEM_SIZE →
    (canvas vmem root).Placed display.w)

end tree

/-- The run ends, or stops with a panic; it makes no access outside the
    arrays. -/
def Safe (r : Except Fault Vram) : Prop := (∃ s, r = .ok s) ∨ r = .error .assertion

end Am.Gpu
