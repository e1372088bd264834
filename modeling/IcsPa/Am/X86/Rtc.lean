import IcsPa.Framework.Fault
import Mathlib.Data.Fin.Rev
import Mathlib.Order.Monotone.Basic

/-! # The clock of x86-qemu

    `timer_rtc` of `am/src/x86/qemu/ioe.c`.  The date is read byte by byte while
    the clock goes on, and it is read again until the seconds are the same at both
    ends.  The six reads are initializers of one structure, and C leaves their
    order to the compiler. -/

open CCall

namespace Am.X86.Rtc

/-! ## Section 1: The clock -/

/-- The last three fields of the date of a day; the year has two digits.  At new
    year all of them change. -/
structure Calendar where
  day   : Nat → Nat
  month : Nat → Nat
  year  : Nat → Nat
  day_lt   : ∀ d, day d < 100
  month_lt : ∀ d, month d < 100
  year_lt  : ∀ d, year d < 100
  new_year : ∃ d, day (d + 1) ≠ day d ∧ month (d + 1) ≠ month d ∧ year (d + 1) ≠ year d

/-- The time of each access to the clock: it never goes back, and seven accesses
    take less than a minute. -/
structure Clock where
  now   : Nat → Nat
  mono  : Monotone now
  quick : ∀ k, now (k + 6) < now k + 60

/-- Two decimal digits in a byte. -/
def bcd (n : Nat) : Nat := n / 10 * 16 + n % 10

/-- The register `reg` of the clock, `t` seconds after some midnight. -/
def Calendar.cmos (cal : Calendar) (t : Nat) : Nat → Nat
  | 0 => bcd (t % 60)
  | 2 => bcd (t / 60 % 60)
  | 4 => bcd (t / 3600 % 24)
  | 7 => bcd (cal.day (t / 86400))
  | 8 => bcd (cal.month (t / 86400))
  | 9 => bcd (cal.year (t / 86400))
  | _ => 0

/-- `AM_TIMER_RTC_T` -/
structure Date where
  year   : Nat
  month  : Nat
  day    : Nat
  hour   : Nat
  minute : Nat
  second : Nat
  deriving DecidableEq

/-- The date at `t`. -/
def Calendar.date (cal : Calendar) (t : Nat) : Date where
  year := cal.year (t / 86400) + 2000
  month := cal.month (t / 86400)
  day := cal.day (t / 86400)
  hour := t / 3600 % 24
  minute := t / 60 % 60
  second := t % 60

/-! ## Section 2: The code -/

inductive Field where
  | second
  | minute
  | hour
  | day
  | month
  | year
  deriving DecidableEq

/-- The place of each read among the six. -/
abbrev Order : Type := Field ≃ Fin 6

section code
variable (cal : Calendar) (now : Nat → Nat)

/-- `read_rtc(reg)` when it is the `k`-th access to the clock. -/
def read_rtc (reg k : Nat) : Nat :=
  let ret := cal.cmos (now k) reg % 256
  (ret &&& 0xf) + (ret >>> 4) * 10

def read_rtc_async (o : Order) (k : Nat) : Date where
  second := read_rtc cal now 0 (k + o .second)
  minute := read_rtc cal now 2 (k + o .minute)
  hour := read_rtc cal now 4 (k + o .hour)
  day := read_rtc cal now 7 (k + o .day)
  month := read_rtc cal now 8 (k + o .month)
  year := read_rtc cal now 9 (k + o .year) + 2000

/-- The loop, given up after `fuel` rounds, with the number of the next access. -/
def timer_rtc (o : Order) : Nat → Nat → Except Fault (Date × Nat)
  | 0, _ => .error .diverges
  | fuel + 1, k =>
      let rtc := read_rtc_async cal now o k
      let tmp := read_rtc cal now 0 (k + 6)
      if tmp ≠ rtc.second then timer_rtc o fuel (k + 7) else .ok (rtc, k + 7)

end code

/-! ## Section 3: One round -/

theorem bcd_decode {n : Nat} (h : n < 100) :
    (bcd n % 256 &&& 0xf) + ((bcd n % 256) >>> 4) * 10 = n := by
  have hbyte : bcd n % 256 = bcd n := Nat.mod_eq_of_lt (by unfold bcd; omega)
  have hlow : bcd n &&& 0xf = n % 10 := by
    rw [show (0xf : Nat) = 2 ^ 4 - 1 from rfl, Nat.and_two_pow_sub_one_eq_mod]
    unfold bcd
    omega
  have hhigh : bcd n >>> 4 = n / 10 := by
    rw [Nat.shiftRight_eq_div_pow]
    unfold bcd
    omega
  rw [hbyte, hlow, hhigh]
  omega

section round
variable {cal : Calendar} {now : Nat → Nat} {o : Order}

theorem read_second (k : Nat) : read_rtc cal now 0 k = now k % 60 := bcd_decode (by omega)

theorem read_minute (k : Nat) : read_rtc cal now 2 k = now k / 60 % 60 := bcd_decode (by omega)

theorem read_hour (k : Nat) : read_rtc cal now 4 k = now k / 3600 % 24 := bcd_decode (by omega)

theorem read_day (k : Nat) : read_rtc cal now 7 k = cal.day (now k / 86400) :=
  bcd_decode (cal.day_lt _)

theorem read_month (k : Nat) : read_rtc cal now 8 k = cal.month (now k / 86400) :=
  bcd_decode (cal.month_lt _)

theorem read_year (k : Nat) : read_rtc cal now 9 k = cal.year (now k / 86400) :=
  bcd_decode (cal.year_lt _)

/-- While the clock stands, the date that is read is that of the clock. -/
theorem round_date {k t : Nat} (hstill : ∀ f, now (k + o f) = t) :
    read_rtc_async cal now o k = cal.date t := by
  simp only [read_rtc_async, Calendar.date, read_second, read_minute, read_hour, read_day,
    read_month, read_year, hstill]

/-- Less than a minute apart, the same seconds are the same time. -/
theorem same_second {t t' : Nat} (hle : t ≤ t') (hlt : t' < t + 60) (h : t' % 60 = t % 60) :
    t' = t := by
  omega

end round

/-- If the seconds are read first and have not changed, the date is that of the
    whole round. -/
theorem round_whole {cal : Calendar} {o : Order} (hfirst : o .second = 0) (c : Clock) {k : Nat}
    (hsame : read_rtc cal c.now 0 (k + 6) = (read_rtc_async cal c.now o k).second) :
    read_rtc_async cal c.now o k = cal.date (c.now k) := by
  have htick : c.now (k + 6) % 60 = c.now k % 60 := by
    simpa [read_rtc_async, read_second, hfirst] using hsame
  -- No second has passed, so the clock has stood all the time.
  have hstood := same_second (c.mono (Nat.le_add_right k 6)) (c.quick k) htick
  apply round_date
  intro f
  have hlo := c.mono (Nat.le_add_right k (o f))
  have hhi := c.mono (Nat.add_le_add_left (show (o f : Nat) ≤ 6 by omega) k)
  omega

/-! ## Section 4: The loop -/

/-- The date that is returned is always the date at one moment of the last round. -/
def Whole (cal : Calendar) (o : Order) : Prop :=
  ∀ (c : Clock) fuel k rtc k', timer_rtc cal c.now o fuel k = .ok (rtc, k') →
    ∃ j, k ≤ j ∧ j < k' ∧ k' ≤ j + 7 ∧ rtc = cal.date (c.now j)

theorem whole_of_first (cal : Calendar) {o : Order} (hfirst : o .second = 0) : Whole cal o := by
  intro c fuel
  induction fuel with
  | zero =>
    intro k rtc k' h
    cases h
  | succ fuel ih =>
    intro k rtc k' h
    unfold timer_rtc at h
    by_cases hsame : read_rtc cal c.now 0 (k + 6) = (read_rtc_async cal c.now o k).second
    · rw [if_neg (by simpa using hsame)] at h
      cases h
      exact ⟨k, Nat.le_refl k, by omega, Nat.le_refl _, round_whole hfirst c hsame⟩
    · rw [if_pos hsame] at h
      obtain ⟨j, hj, hrest⟩ := ih (k + 7) rtc k' h
      exact ⟨j, by omega, hrest⟩

/-- The last second of a day passes after the first access. -/
def midnight (d : Nat) : Clock where
  now k := if k = 0 then 86400 * d + 86399 else 86400 * (d + 1)
  mono a b hab := by
    show (if a = 0 then 86400 * d + 86399 else 86400 * (d + 1)) ≤
      if b = 0 then 86400 * d + 86399 else 86400 * (d + 1)
    split <;> split <;> omega
  quick k := by
    show (if k + 6 = 0 then 86400 * d + 86399 else 86400 * (d + 1)) <
      (if k = 0 then 86400 * d + 86399 else 86400 * (d + 1)) + 60
    split <;> split <;> omega

theorem midnight_zero (d : Nat) : (midnight d).now 0 = 86400 * d + 86399 := rfl

theorem midnight_succ (d : Nat) {k : Nat} (hk : k ≠ 0) : (midnight d).now k = 86400 * (d + 1) :=
  if_neg hk

/-- If another field is read first, at new year the date is a mixture. -/
theorem not_whole (cal : Calendar) {o : Order} (hlater : o .second ≠ 0) : ¬ Whole cal o := by
  intro hwhole
  obtain ⟨d, hday, hmonth, hyear⟩ := cal.new_year
  obtain ⟨f, hf⟩ := o.surjective 0
  have hsecond : (o .second : Nat) ≠ 0 := fun h => hlater (Fin.ext h)
  have hrun : timer_rtc cal (midnight d).now o 1 0 =
      .ok (read_rtc_async cal (midnight d).now o 0, 7) := by
    apply if_neg
    have htmp := midnight_succ d (show 6 ≠ 0 by simp)
    simp [read_rtc_async, read_second, midnight_succ d hsecond, htmp]
  obtain ⟨j, -, -, -, hdate⟩ := hwhole _ _ _ _ _ hrun
  by_cases hj : j = 0
  · -- The seconds are those of the new year.
    have hs := congrArg Date.second hdate
    rw [hj, midnight_zero] at hs
    simp only [read_rtc_async, read_second, Calendar.date, Nat.zero_add,
      midnight_succ d hsecond] at hs
    omega
  · -- The field that was read first is that of the old year.
    rw [midnight_succ d hj] at hdate
    have hday₀ : (86400 * d + 86399) / 86400 = d := by omega
    have hday₁ : 86400 * (d + 1) / 86400 = d + 1 := by omega
    cases f with
    | second => exact hlater hf
    | minute =>
      have hm := congrArg Date.minute hdate
      simp only [read_rtc_async, read_minute, Calendar.date, hf, Fin.val_zero, Nat.add_zero,
        midnight_zero] at hm
      omega
    | hour =>
      have hh := congrArg Date.hour hdate
      simp only [read_rtc_async, read_hour, Calendar.date, hf, Fin.val_zero, Nat.add_zero,
        midnight_zero] at hh
      omega
    | day =>
      have hd := congrArg Date.day hdate
      simp only [read_rtc_async, read_day, Calendar.date, hf, Fin.val_zero, Nat.add_zero,
        midnight_zero, hday₀, hday₁] at hd
      exact hday hd.symm
    | month =>
      have hm := congrArg Date.month hdate
      simp only [read_rtc_async, read_month, Calendar.date, hf, Fin.val_zero, Nat.add_zero,
        midnight_zero, hday₀, hday₁] at hm
      exact hmonth hm.symm
    | year =>
      have hy := congrArg Date.year hdate
      simp only [read_rtc_async, read_year, Calendar.date, hf, Fin.val_zero, Nat.add_zero,
        midnight_zero, hday₀, hday₁] at hy
      exact hyear (Nat.add_right_cancel hy).symm

/-- The loop returns at the latest with the first round that sees no second pass. -/
theorem timer_rtc_ends (cal : Calendar) (o : Order) (c : Clock) {fuel n k : Nat} (hn : n < fuel)
    (hstill : c.now (k + 7 * n + 6) = c.now (k + 7 * n)) :
    ∃ rtc k', timer_rtc cal c.now o fuel k = .ok (rtc, k') ∧ k' ≤ k + 7 * (n + 1) := by
  induction n generalizing fuel k with
  | zero =>
    obtain ⟨fuel, rfl⟩ := Nat.exists_eq_succ_of_ne_zero (Nat.ne_of_gt hn)
    simp only [Nat.mul_zero, Nat.add_zero] at hstill
    have hlo := c.mono (Nat.le_add_right k (o .second))
    have hhi := c.mono (Nat.add_le_add_left (show (o .second : Nat) ≤ 6 by omega) k)
    have hsecond : c.now (k + o .second) = c.now (k + 6) := by omega
    refine ⟨_, _, if_neg ?_, Nat.le_refl _⟩
    simp [read_rtc_async, read_second, hsecond]
  | succ n ih =>
    obtain ⟨fuel, rfl⟩ := Nat.exists_eq_succ_of_ne_zero (show fuel ≠ 0 by omega)
    have hnext : k + 7 + 7 * n = k + 7 * (n + 1) := by omega
    obtain ⟨rtc, k', hrun, hle⟩ :=
      ih (k := k + 7) (show n < fuel by omega) (by rw [hnext]; exact hstill)
    unfold timer_rtc
    dsimp only
    split
    · exact ⟨rtc, k', hrun, by omega⟩
    · exact ⟨_, _, rfl, by omega⟩

/-- The date is always that of one moment if and only if the compiler lets the
    seconds be read first.  In any order the loop returns at the latest with the
    first round that sees no second pass. -/
theorem timer_rtc_whole_iff (cal : Calendar) (o : Order) :
    (Whole cal o ↔ o .second = 0) ∧
      ∀ (c : Clock) fuel n k, n < fuel → c.now (k + 7 * n + 6) = c.now (k + 7 * n) →
        ∃ rtc k', timer_rtc cal c.now o fuel k = .ok (rtc, k') ∧ k' ≤ k + 7 * (n + 1) := by
  refine ⟨⟨fun hwhole => ?_, whole_of_first cal⟩, fun c fuel n k => timer_rtc_ends cal o c⟩
  by_contra hlater
  exact not_whole cal hlater hwhole

/-- The order in which the fields are written. -/
def as_written : Order where
  toFun
    | .second => 0
    | .minute => 1
    | .hour => 2
    | .day => 3
    | .month => 4
    | .year => 5
  invFun
    | 0 => .second
    | 1 => .minute
    | 2 => .hour
    | 3 => .day
    | 4 => .month
    | 5 => .year
  left_inv f := by cases f <;> rfl
  right_inv i := by
    revert i
    decide

/-- Months of 31 days. -/
def long_months : Calendar where
  day d := d % 31 + 1
  month d := d / 31 % 12 + 1
  year d := d / 372 % 100
  day_lt d := by omega
  month_lt d := by omega
  year_lt d := by omega
  new_year := ⟨371, by decide⟩

/-- A second passes with every tenth access, from two seconds before midnight on. -/
def slow_clock : Clock where
  now k := 86398 + k / 10
  mono a b hab := by
    show 86398 + a / 10 ≤ 86398 + b / 10
    omega
  quick k := by
    show 86398 + (k + 6) / 10 < 86398 + k / 10 + 60
    omega

/-- Midnight comes in the first round, and the second one is whole; read backwards
    the date may be a mixture. -/
theorem timer_rtc_whole_iff_midnight :
    timer_rtc long_months slow_clock.now as_written 4 14 = .ok (⟨2000, 1, 2, 0, 0, 0⟩, 28) ∧
      (∃ rtc k', timer_rtc long_months slow_clock.now as_written 4 14 = .ok (rtc, k') ∧ k' ≤ 28) ∧
      Whole long_months as_written ∧ ¬ Whole long_months (as_written.trans Fin.revPerm) := by
  refine ⟨by decide, ?_, ?_, fun hwhole => ?_⟩
  · exact (timer_rtc_whole_iff long_months as_written).2 slow_clock 4 1 14 (by decide) (by decide)
  · exact (timer_rtc_whole_iff long_months as_written).1.mpr rfl
  · exact absurd ((timer_rtc_whole_iff long_months _).1.mp hwhole) (by decide)

end Am.X86.Rtc
