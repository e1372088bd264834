/-! # Keys

    The keys of `AM_KEYS` in `am/include/amdev.h`; `_KEYS` in NEMU's
    `device/keyboard.c` is a copy of the list.  Both number the keys from 1 on
    and map the scancodes of SDL to them.

    Which scancode a key has is fixed by SDL: `SDL_SCANCODE k`.  The table
    `keymap` has 256 entries, and every `SDL_SCANCODE k` is an index of it. -/

namespace Am

inductive Key where
  | ESCAPE
  | F1
  | F2
  | F3
  | F4
  | F5
  | F6
  | F7
  | F8
  | F9
  | F10
  | F11
  | F12
  | GRAVE
  | K1
  | K2
  | K3
  | K4
  | K5
  | K6
  | K7
  | K8
  | K9
  | K0
  | MINUS
  | EQUALS
  | BACKSPACE
  | TAB
  | Q
  | W
  | E
  | R
  | T
  | Y
  | U
  | I
  | O
  | P
  | LEFTBRACKET
  | RIGHTBRACKET
  | BACKSLASH
  | CAPSLOCK
  | A
  | S
  | D
  | F
  | G
  | H
  | J
  | K
  | L
  | SEMICOLON
  | APOSTROPHE
  | RETURN
  | LSHIFT
  | Z
  | X
  | C
  | V
  | B
  | N
  | M
  | COMMA
  | PERIOD
  | SLASH
  | RSHIFT
  | LCTRL
  | APPLICATION
  | LALT
  | SPACE
  | RALT
  | RCTRL
  | UP
  | DOWN
  | LEFT
  | RIGHT
  | INSERT
  | DELETE
  | HOME
  | END
  | PAGEUP
  | PAGEDOWN
  deriving DecidableEq, Repr

/-- The keys, in the order of the list. -/
def AM_KEYS : List Key :=
  [.ESCAPE, .F1, .F2, .F3, .F4, .F5, .F6, .F7, .F8, .F9, .F10, .F11, .F12, .GRAVE, .K1, .K2,
   .K3, .K4, .K5, .K6, .K7, .K8, .K9, .K0, .MINUS, .EQUALS, .BACKSPACE, .TAB, .Q, .W, .E, .R,
   .T, .Y, .U, .I, .O, .P, .LEFTBRACKET, .RIGHTBRACKET, .BACKSLASH, .CAPSLOCK, .A, .S, .D, .F,
   .G, .H, .J, .K, .L, .SEMICOLON, .APOSTROPHE, .RETURN, .LSHIFT, .Z, .X, .C, .V, .B, .N, .M,
   .COMMA, .PERIOD, .SLASH, .RSHIFT, .LCTRL, .APPLICATION, .LALT, .SPACE, .RALT, .RCTRL, .UP,
   .DOWN, .LEFT, .RIGHT, .INSERT, .DELETE, .HOME, .END, .PAGEUP, .PAGEDOWN]

/-- `AM_KEY_NONE` and `_KEY_NONE`. -/
def AM_KEY_NONE : Nat := 0

/-- `AM_KEY_##k` and `_KEY_##k`. -/
def Key.number (k : Key) : Nat := k.ctorIdx + 1

def KEYDOWN_MASK : Nat := 0x8000

/-- The scancodes of SDL 2. -/
def sdl_scancode : Key → Fin 256
  | .ESCAPE => 41
  | .F1 => 58
  | .F2 => 59
  | .F3 => 60
  | .F4 => 61
  | .F5 => 62
  | .F6 => 63
  | .F7 => 64
  | .F8 => 65
  | .F9 => 66
  | .F10 => 67
  | .F11 => 68
  | .F12 => 69
  | .GRAVE => 53
  | .K1 => 30
  | .K2 => 31
  | .K3 => 32
  | .K4 => 33
  | .K5 => 34
  | .K6 => 35
  | .K7 => 36
  | .K8 => 37
  | .K9 => 38
  | .K0 => 39
  | .MINUS => 45
  | .EQUALS => 46
  | .BACKSPACE => 42
  | .TAB => 43
  | .Q => 20
  | .W => 26
  | .E => 8
  | .R => 21
  | .T => 23
  | .Y => 28
  | .U => 24
  | .I => 12
  | .O => 18
  | .P => 19
  | .LEFTBRACKET => 47
  | .RIGHTBRACKET => 48
  | .BACKSLASH => 49
  | .CAPSLOCK => 57
  | .A => 4
  | .S => 22
  | .D => 7
  | .F => 9
  | .G => 10
  | .H => 11
  | .J => 13
  | .K => 14
  | .L => 15
  | .SEMICOLON => 51
  | .APOSTROPHE => 52
  | .RETURN => 40
  | .LSHIFT => 225
  | .Z => 29
  | .X => 27
  | .C => 6
  | .V => 25
  | .B => 5
  | .N => 17
  | .M => 16
  | .COMMA => 54
  | .PERIOD => 55
  | .SLASH => 56
  | .RSHIFT => 229
  | .LCTRL => 224
  | .APPLICATION => 101
  | .LALT => 226
  | .SPACE => 44
  | .RALT => 230
  | .RCTRL => 228
  | .UP => 82
  | .DOWN => 81
  | .LEFT => 80
  | .RIGHT => 79
  | .INSERT => 73
  | .DELETE => 76
  | .HOME => 74
  | .END => 77
  | .PAGEUP => 75
  | .PAGEDOWN => 78

/-- An `SDL_Event`; the scancode of a key is an `SDL_Scancode`, with values up
    to 511. -/
inductive SDL_Event where
  | quit
  | key (scancode : Nat) (down : Bool)
  | other
  deriving DecidableEq, Repr

section keymap
variable (SDL_SCANCODE : Key → Fin 256)

/-- `keymap[i]`, of which the last initializer counts. -/
def keymap (i : Nat) : Nat :=
  match AM_KEYS.reverse.find? fun k => decide ((SDL_SCANCODE k).val = i) with
  | some k => k.number
  | none => AM_KEY_NONE

/-- The code of a key that goes down or up. -/
def key_code (scancode : Nat) (down : Bool) : Nat :=
  keymap SDL_SCANCODE scancode ||| if down then KEYDOWN_MASK else 0

theorem key_code_pos {scancode : Nat} (h : keymap SDL_SCANCODE scancode ≠ AM_KEY_NONE)
    (down : Bool) :
    key_code SDL_SCANCODE scancode down ≠ 0 := by
  intro hzero
  exact h (Nat.or_eq_zero_iff.mp hzero).1

end keymap

end Am
