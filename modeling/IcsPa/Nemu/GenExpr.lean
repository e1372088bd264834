import IcsPa.Framework.CArray
import IcsPa.Nemu.Expr.Literal
import Mathlib.Data.List.GetD

/-! # The generator of test expressions

    `tools/gen-expr/gen-expr.c`.  `gen_rand_expr` writes a random expression
    into `buf` and gives up where the buffer is full, at any depth and with
    what it has written so far left behind; `main` then empties the buffer and
    tries again.

    `rand` is any sequence of numbers.  Nothing bounds the depth of
    `gen_rand_expr`, so the model takes the depth that the host's stack has
    room for; the state at the point where it runs out is kept. -/

open CCall

namespace Nemu.GenExpr

open Nemu.Expr

/-! ## Section 1: The code -/

def MAX_INDEX : Nat := 65536

/-- The globals, and the numbers that `rand` returns, `drawn` of them so far. -/
structure Gen where
  buf       : CArray Char
  buf_index : Nat
  rand      : Nat → Nat
  drawn     : Nat

/-- How a call ends, and what it leaves. -/
abbrev Outcome := Except Fault Bool × Gen

/-- `choose(n)` -/
def choose (n : Nat) (s : Gen) : Nat × Gen := (s.rand s.drawn % n, { s with drawn := s.drawn + 1 })

/-- `if (false == f()) return false;` and `g()` behind it. -/
def and_then (f g : Gen → Outcome) (s : Gen) : Outcome :=
  match f s with
  | (.ok true, s') => g s'
  | r => r

/-- `buf[buf_index ++] = c;` -/
def put (c : Char) (s : Gen) : Outcome :=
  match s.buf.write s.buf_index c with
  | .ok buf => (.ok true, { s with buf := buf, buf_index := s.buf_index + 1 })
  | .error e => (.error e, s)

def gen (c : Char) (s : Gen) : Outcome :=
  if s.buf_index ≥ MAX_INDEX - 1 then (.ok false, s) else put c s

/-- `"%dU"` -/
def num_text (n : Nat) : List Char := (digit_values 10 n).map (digit_char false) ++ ['U']

/-- The array `ran_num_str` with a text. -/
def ran_num_str (str : List Char) : CArray Char := ⟨12, fun i => str.getD i '\x00'⟩

def gen_num (s : Gen) : Outcome :=
  let (ran_num, s) := choose 1000 s
  let str := num_text ran_num
  -- `sprintf` ends the text with a NUL.
  if str.length + 1 > 12 then (.error .outOfBounds, s)
  else if s.buf_index + str.length ≥ MAX_INDEX - 1 then (.ok false, s)
  else match s.buf.memcpy s.buf_index (ran_num_str str) 0 str.length with
    | .ok buf => (.ok true, { s with buf := buf, buf_index := s.buf_index + str.length })
    | .error e => (.error e, s)

def gen_rand_op (s : Gen) : Outcome :=
  if s.buf_index ≥ MAX_INDEX - 1 then (.ok false, s)
  else
    let (c, s) := choose 4 s
    match c with
    | 0 => put '+' s
    | 1 => put '-' s
    | 2 => put '*' s
    | 3 => put '/' s
    | _ => (.error .assertion, s)

/-- `gen_rand_expr` with room for `depth` calls on the stack. -/
def gen_rand_expr : Nat → Gen → Outcome
  | 0, s => (.error .diverges, s)
  | depth + 1, s =>
      let (c, s) := choose 4 s
      match c with
      | 0 => gen_num s
      | 1 => and_then (gen '(') (and_then (gen_rand_expr depth) (gen ')')) s
      | 2 => and_then (gen_rand_expr depth) (and_then gen_rand_op (gen_rand_expr depth)) s
      | _ => and_then (gen ' ') (gen_rand_expr depth) s

/-- `buf_index = 0; memset(buf, 0, 65535 * sizeof(char));` -/
def reset (s : Gen) : Except Fault Gen := do
  let buf ← s.buf.memset 0 '\x00' 65535
  return { s with buf := buf, buf_index := 0 }

/-- The loop `while (gen_rand_expr() == false)` for at most `tries` turns. -/
def retry (depth : Nat) : Nat → Gen → Outcome
  | 0, s => (.error .diverges, s)
  | tries + 1, s =>
      match gen_rand_expr depth s with
      | (.ok false, s') =>
          match reset s' with
          | .ok s' => retry depth tries s'
          | .error e => (.error e, s')
      | r => r

/-- The text of `code_format` before `%s`. -/
def code_front : List Char :=
  ['#', 'i', 'n', 'c', 'l', 'u', 'd', 'e', ' ', '<', 's', 't', 'd', 'i', 'o', '.', 'h', '>', '\n',
   'i', 'n', 't', ' ', 'm', 'a', 'i', 'n', '(', ')', ' ', '{', ' ',
   ' ', ' ', 'u', 'n', 's', 'i', 'g', 'n', 'e', 'd', ' ', 'r', 'e', 's', 'u', 'l', 't', ' ', '=',
   ' ']

/-- The text of `code_format` behind `%s`. -/
def code_back : List Char :=
  [';', ' ',
   ' ', ' ', 'p', 'r', 'i', 'n', 't', 'f',
   '(', '"', '%', 'u', '"', ',', ' ', 'r', 'e', 's', 'u', 'l',
   't', ')', ';', ' ',
   ' ', ' ', 'r', 'e', 't', 'u', 'r', 'n', ' ', '0', ';', ' ',
   '}']

/-- The string in `buf`, which has to end in it. -/
def buf_string (s : Gen) : Except Fault (List Char) :=
  let str := (s.buf.slice 0 s.buf.size).takeWhile (· ≠ '\x00')
  if str.length < s.buf.size then .ok str else .error .outOfBounds

/-- `sprintf(code_buf, code_format, buf)` -/
def sprintf_code (s : Gen) : Except Fault (List Char) := do
  let str ← buf_string s
  let code := code_front ++ str ++ code_back
  if code.length + 1 ≤ 65536 + 128 then return code else .error .outOfBounds

/-- The loop of `main`: the programs that are written to `/tmp/.code.c`.  The
    buffer is emptied whether or not a program compiles. -/
def main_loop (depth tries : Nat) : Nat → Gen → Except Fault (List (List Char))
  | 0, _ => .ok []
  | loop + 1, s =>
      match retry depth tries s with
      | (.ok _, s') => do
          let code ← sprintf_code s'
          let s' ← reset s'
          let codes ← main_loop depth tries loop s'
          return code :: codes
      | (.error e, _) => .error e

/-! ## Section 2: The grammar -/

inductive Sentence : List Char → Prop where
  | num (n : Nat) (h : n < 1000) : Sentence (num_text n)
  | paren {e : List Char} (h : Sentence e) : Sentence (['('] ++ (e ++ [')']))
  | bin {e e' : List Char} (op : Char) (hop : op ∈ ['+', '-', '*', '/']) (h : Sentence e)
      (h' : Sentence e') : Sentence (e ++ ([op] ++ e'))
  | blank {e : List Char} (h : Sentence e) : Sentence ([' '] ++ e)

/-! ## Section 3: The buffer -/

/-- The globals before any call: the buffer is empty. -/
def empty (size : Nat) (rand : Nat → Nat) (drawn : Nat) : Gen :=
  ⟨⟨size, fun _ => '\x00'⟩, 0, rand, drawn⟩

/-- What has been written. -/
def written (s : Gen) : List Char := s.buf.slice 0 s.buf_index

/-- The text ends before the last byte of `buf`, and only NULs follow it. -/
structure Terminated (s : Gen) : Prop where
  room  : s.buf_index ≤ MAX_INDEX - 1
  nul   : ∀ i, s.buf_index ≤ i → s.buf.cell i = '\x00'
  plain : ∀ i < s.buf_index, s.buf.cell i ≠ '\x00'

/-- A call has written `w` behind the text. -/
structure Wrote (s s' : Gen) (w : List Char) : Prop where
  terminated : Terminated s'
  text       : written s' = written s ++ w
  size       : s'.buf.size = s.buf.size
  rand       : s'.rand = s.rand

/-- A call returns, or the stack is full; it writes only behind the text, and
    if it succeeds it has written a text of `L`. -/
structure Writes (L : List Char → Prop) (s : Gen) (r : Outcome) : Prop where
  ending : r.1 = .error .diverges ∨ ∃ b, r.1 = .ok b
  wrote  : ∃ w, Wrote s r.2 w ∧ (r.1 = .ok true → L w)

/-- A text of `L` and a text of `L'` behind it. -/
def Cat (L L' : List Char → Prop) (w : List Char) : Prop := ∃ e e', L e ∧ L' e' ∧ w = e ++ e'

variable {s s' s'' : Gen}

theorem Terminated.choose (hs : Terminated s) (n : Nat) : Terminated (choose n s).2 :=
  ⟨hs.room, hs.nul, hs.plain⟩

theorem empty_terminated (size : Nat) (rand : Nat → Nat) (drawn : Nat) :
    Terminated (empty size rand drawn) :=
  ⟨Nat.zero_le _, fun _ _ => rfl, fun i hi => absurd hi (Nat.not_lt_zero i)⟩

theorem Wrote.refl (hs : Terminated s) : Wrote s s [] := ⟨hs, (List.append_nil _).symm, rfl, rfl⟩

theorem Wrote.trans {w w' : List Char} (h : Wrote s s' w) (h' : Wrote s' s'' w') :
    Wrote s s'' (w ++ w') :=
  ⟨h'.terminated, by rw [h'.text, h.text, List.append_assoc], h'.size.trans h.size,
    h'.rand.trans h.rand⟩

theorem writes_false {L : List Char → Prop} (hs : Terminated s) : Writes L s (.ok false, s) :=
  ⟨Or.inr ⟨false, rfl⟩, [], Wrote.refl hs, fun h => by cases h⟩

/-- Some characters copied to the end of the text. -/
theorem wrote_copied {buf : CArray Char} {w : List Char} (hs : Terminated s)
    (hroom : s.buf_index + w.length ≤ MAX_INDEX - 1) (hsize : buf.size = s.buf.size)
    (hin : ∀ i, (h : i < w.length) → buf.cell (s.buf_index + i) = w[i])
    (hout : ∀ i, i < s.buf_index ∨ s.buf_index + w.length ≤ i → buf.cell i = s.buf.cell i)
    (hplain : ∀ c ∈ w, c ≠ '\x00') :
    Wrote s { s with buf := buf, buf_index := s.buf_index + w.length } w where
  terminated := by
    refine ⟨hroom, fun i hi => ?_, fun i hi => ?_⟩
    · rw [hout i (Or.inr hi)]
      exact hs.nul i (Nat.le_trans (Nat.le_add_right _ _) hi)
    · by_cases hold : i < s.buf_index
      · rw [hout i (Or.inl hold)]
        exact hs.plain i hold
      -- A new character.
      · have hlt : i < s.buf_index + w.length := hi
        have hnew := hin (i - s.buf_index) (by omega)
        rw [Nat.add_sub_cancel' (by omega)] at hnew
        dsimp only
        rw [hnew]
        exact hplain _ (List.getElem_mem _)
  text := by
    show buf.slice 0 (s.buf_index + w.length) = s.buf.slice 0 s.buf_index ++ w
    rw [CArray.slice_add, Nat.zero_add]
    congr 1
    · apply CArray.slice_congr
      intro i hi
      exact hout (0 + i) (Or.inl (by omega))
    · apply List.ext_getElem
      · rw [CArray.length_slice]
      · intro i h₁ h₂
        simp only [CArray.slice, List.getElem_map, List.getElem_range]
        exact hin i h₂
  size := hsize
  rand := rfl

/-! ## Section 4: The calls -/

theorem put_writes {c : Char} (hs : Terminated s) (hsize : MAX_INDEX - 1 ≤ s.buf.size)
    (hroom : s.buf_index < MAX_INDEX - 1) (hc : c ≠ '\x00') : Writes (· = [c]) s (put c s) := by
  have hlt : s.buf_index < s.buf.size := Nat.lt_of_lt_of_le hroom hsize
  have hwrote : Wrote s { s with
      buf := { s.buf with cell := Function.update s.buf.cell s.buf_index c }
      buf_index := s.buf_index + 1 } [c] := by
    apply wrote_copied (w := [c]) hs hroom
    · rfl
    · intro i hi
      obtain rfl : i = 0 := by simpa using hi
      exact Function.update_self _ _ _
    · intro i hi
      have hi' : i < s.buf_index ∨ s.buf_index + 1 ≤ i := hi
      exact Function.update_of_ne (by omega) _ _
    · intro d hd
      rw [List.mem_singleton.mp hd]
      exact hc
  unfold put
  rw [CArray.write_ok hlt]
  exact ⟨Or.inr ⟨true, rfl⟩, [c], hwrote, fun _ => rfl⟩

theorem gen_writes {c : Char} (hs : Terminated s) (hsize : MAX_INDEX - 1 ≤ s.buf.size)
    (hc : c ≠ '\x00') : Writes (· = [c]) s (gen c s) := by
  unfold gen
  by_cases hfull : s.buf_index ≥ MAX_INDEX - 1
  · rw [if_pos hfull]
    exact writes_false hs
  · rw [if_neg hfull]
    exact put_writes hs hsize (Nat.lt_of_not_le hfull) hc

/-- A number below 1000 has at most three digits and an `U`. -/
theorem num_text_plain {n : Nat} (hn : n < 1000) :
    (num_text n).length ≤ 4 ∧ ∀ c ∈ num_text n, c ≠ '\x00' := by
  have hdigits : (digit_values 10 n).length ≤ 3 :=
    (digit_values_length (by decide) (by decide)).mpr hn
  have hdecimal : ∀ c ∈ digits, c ≠ '\x00' := of_chars (by rfl)
  constructor
  · unfold num_text
    rw [List.length_append, List.length_map]
    show (digit_values 10 n).length + 1 ≤ 4
    omega
  · intro c hc
    rcases List.mem_append.mp hc with hc | hc
    · exact hdecimal c (decimals_mem (digit_values_lt (by decide)) c hc)
    · rw [List.mem_singleton.mp hc]
      decide

theorem choose_lt {n : Nat} (hn : 0 < n) (s : Gen) : (choose n s).1 < n := Nat.mod_lt _ hn

/-- What is written after a choice is written after the state before it. -/
theorem Writes.of_choose {L : List Char → Prop} {n : Nat} {r : Outcome}
    (h : Writes L (choose n s).2 r) : Writes L s r := by
  obtain ⟨hend, w, hwrote, hL⟩ := h
  exact ⟨hend, w, ⟨hwrote.terminated, hwrote.text, hwrote.size, hwrote.rand⟩, hL⟩

/-- A text that fits is copied to the end of what is there. -/
theorem memcpy_writes {str : List Char} (hs : Terminated s) (hsize : MAX_INDEX - 1 ≤ s.buf.size)
    (hroom : s.buf_index + str.length < MAX_INDEX - 1) (hstr : str.length ≤ 12)
    (hplain : ∀ c ∈ str, c ≠ '\x00') :
    ∃ buf, s.buf.memcpy s.buf_index (ran_num_str str) 0 str.length = .ok buf ∧
      Wrote s { s with buf := buf, buf_index := s.buf_index + str.length } str := by
  have hdst : s.buf_index + str.length ≤ s.buf.size := by omega
  have hsrc : 0 + str.length ≤ (ran_num_str str).size := by
    show 0 + str.length ≤ 12
    omega
  refine ⟨_, CArray.memcpy_ok (s := 0) hdst hsrc,
    wrote_copied hs (Nat.le_of_lt hroom) rfl ?_ ?_ hplain⟩
  · intro i hi
    rw [CArray.copied_inside (by omega) (by omega), Nat.add_sub_cancel_left, Nat.zero_add]
    exact List.getD_eq_getElem _ _ hi
  · intro i hi
    exact CArray.copied_outside hi

theorem gen_num_writes (hs : Terminated s) (hsize : MAX_INDEX - 1 ≤ s.buf.size) :
    Writes Sentence s (gen_num s) := by
  have hn : (choose 1000 s).1 < 1000 := choose_lt (by decide) s
  have hs' := hs.choose 1000
  obtain ⟨hlen, hplain⟩ := num_text_plain hn
  have h12 : ¬ (num_text (choose 1000 s).1).length + 1 > 12 := by omega
  apply Writes.of_choose (n := 1000)
  unfold gen_num
  dsimp only
  rw [if_neg h12]
  by_cases hfull : (choose 1000 s).2.buf_index + (num_text (choose 1000 s).1).length ≥ MAX_INDEX - 1
  · rw [if_pos hfull]
    exact writes_false hs'
  · rw [if_neg hfull]
    obtain ⟨buf, hcopy, hwrote⟩ :=
      memcpy_writes hs' hsize (Nat.lt_of_not_le hfull) (Nat.le_trans hlen (by decide)) hplain
    rw [hcopy]
    exact ⟨Or.inr ⟨true, rfl⟩, _, hwrote, fun _ => .num _ hn⟩

theorem gen_rand_op_writes (hs : Terminated s) (hsize : MAX_INDEX - 1 ≤ s.buf.size) :
    Writes (fun w => ∃ op ∈ ['+', '-', '*', '/'], w = [op]) s (gen_rand_op s) := by
  unfold gen_rand_op
  by_cases hfull : s.buf_index ≥ MAX_INDEX - 1
  · rw [if_pos hfull]
    exact writes_false hs
  · rw [if_neg hfull]
    apply Writes.of_choose (n := 4)
    have hc := choose_lt (n := 4) (by decide) s
    have hput : ∀ op ∈ ['+', '-', '*', '/'], op ≠ '\x00' →
        Writes (fun w => ∃ op ∈ ['+', '-', '*', '/'], w = [op]) (choose 4 s).2
          (put op (choose 4 s).2) := by
      intro op hop hplain
      obtain ⟨hend, w, hwrote, hw⟩ :=
        put_writes (hs.choose 4) hsize (Nat.lt_of_not_le hfull) hplain
      exact ⟨hend, w, hwrote, fun h => ⟨op, hop, hw h⟩⟩
    dsimp only
    -- `choose` is below 4, so `assert(0)` is not reached.
    generalize (choose 4 s).1 = c at hc
    match c, hc with
    | 0, _ => exact hput '+' (by simp) (by decide)
    | 1, _ => exact hput '-' (by simp) (by decide)
    | 2, _ => exact hput '*' (by simp) (by decide)
    | 3, _ => exact hput '/' (by simp) (by decide)
    | c + 4, hc => omega

theorem Writes.mono {L L' : List Char → Prop} {r : Outcome} (h : Writes L s r)
    (hL : ∀ w, L w → L' w) : Writes L' s r := by
  obtain ⟨hend, w, hwrote, hw⟩ := h
  exact ⟨hend, w, hwrote, fun hr => hL w (hw hr)⟩

/-- Two calls in a row. -/
theorem Writes.and_then {L L' : List Char → Prop} {f g : Gen → Outcome}
    (hf : Writes L s (f s))
    (hg : ∀ s', Terminated s' → s'.buf.size = s.buf.size → Writes L' s' (g s')) :
    Writes (Cat L L') s (and_then f g s) := by
  obtain ⟨hend, w, hwrote, hw⟩ := hf
  unfold GenExpr.and_then
  -- What follows runs only if the first call succeeded.
  generalize f s = r at hend hwrote hw
  obtain ⟨b, s'⟩ := r
  match b with
  | .ok true =>
    obtain ⟨hend', w', hwrote', hw'⟩ := hg s' hwrote.terminated hwrote.size
    exact ⟨hend', w ++ w', hwrote.trans hwrote', fun h => ⟨w, w', hw rfl, hw' h, rfl⟩⟩
  | .ok false => exact ⟨Or.inr ⟨false, rfl⟩, w, hwrote, fun h => by cases h⟩
  | .error e => exact ⟨hend, w, hwrote, fun h => by cases h⟩

/-- Run lemma: a call at any depth writes behind the text, and a sentence if it
    succeeds. -/
theorem gen_rand_expr_writes (depth : Nat) (hs : Terminated s)
    (hsize : MAX_INDEX - 1 ≤ s.buf.size) : Writes Sentence s (gen_rand_expr depth s) := by
  induction depth generalizing s with
  | zero => exact ⟨Or.inl rfl, [], Wrote.refl hs, fun h => by cases h⟩
  | succ depth ih =>
    have hs' := hs.choose 4
    have hsize' : MAX_INDEX - 1 ≤ (choose 4 s).2.buf.size := hsize
    apply Writes.of_choose (n := 4)
    unfold gen_rand_expr
    dsimp only
    generalize (choose 4 s).2 = t at hs' hsize'
    -- The calls below have one level less and the same buffer.
    have hexpr : ∀ t', Terminated t' → t'.buf.size = t.buf.size →
        Writes Sentence t' (gen_rand_expr depth t') := by
      intro t' ht' hsame
      exact ih ht' (by rw [hsame]; exact hsize')
    match (choose 4 s).1 with
    | 0 => exact gen_num_writes hs' hsize'
    | 1 =>
      have hcall : Writes (Cat (· = ['(']) (Cat Sentence (· = [')']))) t
          (and_then (gen '(') (and_then (gen_rand_expr depth) (gen ')')) t) := by
        apply (gen_writes hs' hsize' (by decide)).and_then
        intro t₁ ht₁ hsame₁
        apply (hexpr t₁ ht₁ hsame₁).and_then
        intro t₂ ht₂ hsame₂
        exact gen_writes ht₂ (by rw [hsame₂, hsame₁]; exact hsize') (by decide)
      apply hcall.mono
      intro w hw
      obtain ⟨-, -, rfl, ⟨e, -, he, rfl, rfl⟩, rfl⟩ := hw
      exact .paren he
    | 2 =>
      have hcall := (hexpr t hs' rfl).and_then fun t₁ ht₁ hsame₁ =>
        (gen_rand_op_writes ht₁ (by rw [hsame₁]; exact hsize')).and_then fun t₂ ht₂ hsame₂ =>
          hexpr t₂ ht₂ (hsame₂.trans hsame₁)
      apply hcall.mono
      intro w hw
      obtain ⟨e, -, he, ⟨-, e', ⟨op, hop, rfl⟩, he', rfl⟩, rfl⟩ := hw
      exact .bin op hop he he'
    | c + 3 =>
      apply ((gen_writes hs' hsize' (by decide)).and_then hexpr).mono
      intro w hw
      obtain ⟨-, e, rfl, he, rfl⟩ := hw
      exact .blank he

/-! ### The depth -/

/-- What `f` returns, `g` returns as well. -/
def Extends (f g : Gen → Outcome) : Prop := ∀ s b s', f s = (.ok b, s') → g s = (.ok b, s')

theorem Extends.and_then {f f' g g' : Gen → Outcome} (hf : Extends f f') (hg : Extends g g') :
    Extends (and_then f g) (and_then f' g') := by
  intro s b s' h
  unfold GenExpr.and_then at h ⊢
  cases hfs : f s with
  | mk r t =>
    rw [hfs] at h
    cases r with
    | error e => cases h
    | ok b₁ =>
      rw [hf s b₁ t hfs]
      cases b₁ with
      | true => exact hg t b s' h
      | false => exact h

theorem Extends.refl (f : Gen → Outcome) : Extends f f := fun _ _ _ h => h

/-- A call that returns returns the same with more room on the stack. -/
theorem gen_rand_expr_extends (depth n : Nat) :
    Extends (gen_rand_expr depth) (gen_rand_expr (depth + n)) := by
  induction depth with
  | zero =>
    intro s b s' h
    cases h
  | succ depth ih =>
    intro s b s' h
    have hdepth : depth + 1 + n = depth + n + 1 := by omega
    rw [hdepth]
    unfold gen_rand_expr at h ⊢
    dsimp only at h ⊢
    generalize (choose 4 s).2 = t at h ⊢
    match (choose 4 s).1, h with
    | 0, h => exact h
    | 1, h => exact (Extends.refl _).and_then (ih.and_then (Extends.refl _)) t b s' h
    | 2, h => exact ih.and_then ((Extends.refl _).and_then ih) t b s' h
    | c + 3, h => exact (Extends.refl _).and_then ih t b s' h

/-! ## Section 5: The loops of `main` -/

/-- Behind the reset the globals are those of the start. -/
theorem reset_eq (hs : Terminated s) (hsize : MAX_INDEX - 1 ≤ s.buf.size) :
    reset s = .ok (empty s.buf.size s.rand s.drawn) := by
  have hfilled : s.buf.filled 0 '\x00' 65535 = ⟨s.buf.size, fun _ => '\x00'⟩ := by
    unfold CArray.filled
    congr 1
    funext x
    -- The last byte is not reached by `memset`, and no text reaches it.
    by_cases hx : 0 ≤ x ∧ x < 0 + 65535
    · rw [if_pos hx]
    · have hroom : s.buf_index ≤ 65535 := hs.room
      rw [if_neg hx]
      exact hs.nul x (by omega)
  have hset : s.buf.memset 0 '\x00' 65535 = .ok (s.buf.filled 0 '\x00' 65535) := by
    apply CArray.memset_ok (d := 0)
    rw [Nat.zero_add]
    exact hsize
  unfold reset
  rw [hset, hfilled]
  rfl

variable {size : Nat} (rand : Nat → Nat)

/-- After a call with an empty buffer the reset gives one again. -/
theorem reset_of_wrote {k : Nat} {w : List Char} (hsize : MAX_INDEX - 1 ≤ size)
    (h : Wrote (empty size rand k) s w) : reset s = .ok (empty size rand s.drawn) := by
  have hsame : s.buf.size = size := h.size
  have hrand : s.rand = rand := h.rand
  have hreset := reset_eq h.terminated (by rw [hsame]; exact hsize)
  rw [hsame, hrand] at hreset
  exact hreset

/-- A call with an empty buffer. -/
theorem gen_rand_expr_empty (depth k : Nat) (hsize : MAX_INDEX - 1 ≤ size) :
    Writes Sentence (empty size rand k) (gen_rand_expr depth (empty size rand k)) :=
  gen_rand_expr_writes depth (empty_terminated size rand k) hsize

/-- Run lemma: the loop ends with what a call with an empty buffer leaves. -/
theorem retry_spec (depth tries k : Nat) (hsize : MAX_INDEX - 1 ≤ size) :
    (retry depth tries (empty size rand k)).1 = .error .diverges ∨
      ∃ k' s', retry depth tries (empty size rand k) = (.ok true, s') ∧
        gen_rand_expr depth (empty size rand k') = (.ok true, s') := by
  induction tries generalizing k with
  | zero => exact Or.inl rfl
  | succ tries ih =>
    obtain ⟨hend, w, hwrote, -⟩ := gen_rand_expr_empty rand depth k hsize
    unfold retry
    cases hcall : gen_rand_expr depth (empty size rand k) with
    | mk r s' =>
      rw [hcall] at hend hwrote
      rcases hend with hend | ⟨b, hend⟩
      · obtain rfl : r = .error .diverges := hend
        exact Or.inl rfl
      · obtain rfl : r = .ok b := hend
        cases b with
        | true => exact Or.inr ⟨k, s', rfl, hcall⟩
        | false =>
          -- The next turn starts with an empty buffer again.
          dsimp only
          rw [reset_of_wrote rand hsize hwrote]
          exact ih s'.drawn

theorem buf_string_eq (hs : Terminated s) (hsize : MAX_INDEX ≤ s.buf.size) :
    buf_string s = .ok (written s) := by
  have hmax : MAX_INDEX = 65536 := rfl
  have hroom := hs.room
  -- The text, its NUL and the rest.
  have hrest : s.buf.size = s.buf_index + (1 + (s.buf.size - s.buf_index - 1)) := by omega
  have hnul : s.buf.slice (0 + s.buf_index) 1 = ['\x00'] := by
    show [s.buf.cell (0 + s.buf_index + 0)] = _
    rw [hs.nul _ (by omega)]
  have hplain : ∀ c ∈ s.buf.slice 0 s.buf_index, decide (c ≠ '\x00') = true := by
    intro c hc
    obtain ⟨i, hi, rfl⟩ := List.mem_map.mp hc
    rw [Nat.zero_add]
    exact decide_eq_true (hs.plain i (List.mem_range.mp hi))
  have htext : (s.buf.slice 0 s.buf.size).takeWhile (· ≠ '\x00') = written s := by
    rw [hrest, CArray.slice_add, CArray.slice_add, hnul, List.takeWhile_append_of_pos hplain,
      List.cons_append, List.takeWhile_cons_of_neg (by simp), List.append_nil]
    rfl
  have hlen : (written s).length < s.buf.size := by
    rw [written, CArray.length_slice]
    omega
  unfold buf_string
  rw [htext]
  exact if_pos hlen

/-- The program around the text of a full buffer fits into `code_buf`. -/
theorem sprintf_code_eq (hs : Terminated s) (hsize : MAX_INDEX ≤ s.buf.size) :
    sprintf_code s = .ok (code_front ++ written s ++ code_back) := by
  have hroom : s.buf_index ≤ 65535 := hs.room
  have hfit : (code_front ++ written s ++ code_back).length + 1 ≤ 65536 + 128 := by
    have hfront : code_front.length = 52 := rfl
    have hback : code_back.length = 39 := rfl
    rw [List.length_append, List.length_append, hfront, hback, written, CArray.length_slice]
    omega
  unfold sprintf_code
  rw [buf_string_eq hs hsize, ok_bind]
  exact if_pos hfit

/-- The programs of `main`, each around what one call with an empty buffer
    wrote. -/
theorem main_loop_spec (depth tries loop k : Nat) :
    main_loop depth tries loop (empty 65536 rand k) = .error .diverges ∨
      ∃ codes, main_loop depth tries loop (empty 65536 rand k) = .ok codes ∧
        codes.length = loop ∧
        ∀ code ∈ codes, ∃ k' s', gen_rand_expr depth (empty 65536 rand k') = (.ok true, s') ∧
          code = code_front ++ written s' ++ code_back := by
  have hmax : MAX_INDEX - 1 ≤ 65536 := by decide
  induction loop generalizing k with
  | zero => exact Or.inr ⟨[], rfl, rfl, fun code hcode => absurd hcode List.not_mem_nil⟩
  | succ loop ih =>
    unfold main_loop
    rcases retry_spec rand depth tries k hmax with hdiv | ⟨k', s', hretry, hcall⟩
    · generalize retry depth tries (empty 65536 rand k) = r at hdiv
      obtain ⟨r, s'⟩ := r
      obtain rfl : r = .error .diverges := hdiv
      exact Or.inl rfl
    -- The text of the call, the program around it, and the empty buffer again.
    · obtain ⟨-, w, hwrote, -⟩ := gen_rand_expr_empty rand depth k' hmax
      rw [hcall] at hwrote
      have hsame : s'.buf.size = 65536 := hwrote.size
      have hreset := reset_of_wrote rand hmax hwrote
      have hcode := sprintf_code_eq hwrote.terminated (by rw [hsame]; decide)
      rw [hretry]
      dsimp only
      rw [hcode, ok_bind, hreset, ok_bind]
      rcases ih s'.drawn with hdiv | ⟨codes, hloop, hlength, hcodes⟩
      · rw [hdiv]
        exact Or.inl rfl
      · rw [hloop]
        refine Or.inr ⟨_, rfl, congrArg (· + 1) hlength, fun code hmem => ?_⟩
        rcases List.mem_cons.mp hmem with rfl | hmem
        · exact ⟨k', s', hcall, rfl⟩
        · exact hcodes code hmem

/-- With an empty buffer, even one that ends at byte 65534, `gen_rand_expr`
    writes inside it, leaves it terminated, and has written a sentence if it
    returns true; and `main` writes as many programs as it is asked for, each
    the template around the sentence of one such call, and fits. -/
theorem gen_rand_expr_sentences (rand : Nat → Nat) (depth : Nat) :
    (∀ size k, MAX_INDEX - 1 ≤ size →
      let r := gen_rand_expr depth (empty size rand k)
      (r.1 = .error .diverges ∨ ∃ b, r.1 = .ok b) ∧ Terminated r.2 ∧
        (r.1 = .ok true → Sentence (written r.2))) ∧
    ∀ tries loop, main_loop depth tries loop (empty 65536 rand 0) = .error .diverges ∨
      ∃ codes, main_loop depth tries loop (empty 65536 rand 0) = .ok codes ∧
        codes.length = loop ∧
        ∀ code ∈ codes, ∃ k s, gen_rand_expr depth (empty 65536 rand k) = (.ok true, s) ∧
          code = code_front ++ written s ++ code_back := by
  constructor
  · intro size k hsize
    obtain ⟨hend, w, hwrote, hw⟩ := gen_rand_expr_empty rand depth k hsize
    refine ⟨hend, hwrote.terminated, fun h => ?_⟩
    have htext : written (gen_rand_expr depth (empty size rand k)).2 = w := hwrote.text
    rw [htext]
    exact hw h
  · intro tries loop
    exact main_loop_spec rand depth tries loop 0

/-- `(42U)` -/
theorem gen_rand_expr_paren :
    let rand : Nat → Nat := fun i => [1, 0, 42].getD i 3
    let r := gen_rand_expr 2 (empty 65535 rand 0)
    r.1 = .ok true ∧ Terminated r.2 ∧ Sentence (written r.2) := by
  intro rand r
  have hok : r.1 = .ok true := by decide +kernel
  obtain ⟨-, hterminated, hsentence⟩ :=
    (gen_rand_expr_sentences rand 2).1 65535 0 (Nat.le_refl 65535)
  exact ⟨hok, hterminated, hsentence hok⟩

end Nemu.GenExpr
