import Mathlib.Order.Monotone.Basic
import Mathlib.Tactic.IntervalCases

/-! The proleptic Gregorian calendar, from the first of January of the year 0
on. Days are counted the way the calendar is defined, year by year and month
by month; that every count is the count of one date is then a theorem. -/
namespace Gregorian

def isLeap (y : Nat) : Bool := y % 4 = 0 ∧ (y % 100 ≠ 0 ∨ y % 400 = 0)

def monthLength (y : Nat) : Nat → Nat
  | 1 | 3 | 5 | 7 | 8 | 10 | 12 => 31
  | 4 | 6 | 9 | 11 => 30
  | 2 => if isLeap y then 29 else 28
  | _ => 0

def yearLength (y : Nat) : Nat := if isLeap y then 366 else 365

def daysBeforeYear : Nat → Nat
  | 0 => 0
  | y + 1 => daysBeforeYear y + yearLength y

/-- The days of a year before the first of a month. -/
def daysBeforeMonth (y : Nat) : Nat → Nat
  | 0 => 0
  | m + 1 => daysBeforeMonth y m + monthLength y m

/-- A day the calendar has. -/
structure Date where
  year : Nat
  month : Nat
  day : Nat
  month_mem : 1 ≤ month ∧ month ≤ 12
  day_mem : 1 ≤ day ∧ day ≤ monthLength year month

/-- The date of a year, a month and a day, if there is one. -/
def Date.of (y m d : Nat) : Option Date :=
  if h : (1 ≤ m ∧ m ≤ 12) ∧ 1 ≤ d ∧ d ≤ monthLength y m then some ⟨y, m, d, h.1, h.2⟩ else none

theorem Date.of_eq (d : Date) : Date.of d.year d.month d.day = some d :=
  dif_pos ⟨d.month_mem, d.day_mem⟩

/-- How many days came before a date. -/
def Date.dayNumber (d : Date) : Nat :=
  daysBeforeYear d.year + daysBeforeMonth d.year d.month + (d.day - 1)

/-! ## Years -/

theorem isLeap_iff {y : Nat} :
    isLeap y = true ↔ y % 4 = 0 ∧ (y % 100 ≠ 0 ∨ y % 400 = 0) := decide_eq_true_iff

/-- Leap years counted by multiples of 4, 100 and 400. -/
theorem daysBeforeYear_succ (y : Nat) :
    daysBeforeYear (y + 1) + y / 100 = 365 * (y + 1) + y / 4 + y / 400 + 1 := by
  induction y with
  | zero => rfl
  | succ y ih =>
    rw [daysBeforeYear, yearLength]
    by_cases hleap : isLeap (y + 1)
    · rw [if_pos hleap]
      rw [isLeap_iff] at hleap
      omega
    · rw [if_neg hleap]
      rw [isLeap_iff] at hleap
      by_cases h4 : (y + 1) % 4 = 0
      · have h100 : (y + 1) % 100 = 0 := by omega
        have h400 : (y + 1) % 400 ≠ 0 := by omega
        omega
      · have h4' : (y + 1) / 4 = y / 4 := by omega
        have h100 : (y + 1) / 100 = y / 100 := by omega
        have h400 : (y + 1) / 400 = y / 400 := by omega
        omega

theorem monotone_daysBeforeYear : Monotone daysBeforeYear :=
  monotone_nat_of_le_succ fun _ => Nat.le_add_right _ _

/-! ## Months -/

theorem monotone_daysBeforeMonth (y : Nat) : Monotone (daysBeforeMonth y) :=
  monotone_nat_of_le_succ fun _ => Nat.le_add_right _ _

theorem daysBeforeMonth_thirteen (y : Nat) : daysBeforeMonth y 13 = yearLength y := by
  simp only [daysBeforeMonth, monthLength, yearLength]
  split <;> rfl

theorem monthLength_two (y : Nat) : monthLength y 2 + 337 = yearLength y := by
  simp only [monthLength, yearLength]
  split <;> rfl

/-- From March on the months make up 153 days for every five of them. -/
theorem monthLength_add_three (y : Nat) {k : Nat} (h : k ≤ 9) :
    monthLength y (k + 3) + (153 * k + 2) / 5 = (153 * (k + 1) + 2) / 5 := by
  interval_cases k <;> rfl

theorem daysBeforeMonth_add_three (y : Nat) {k : Nat} (h : k ≤ 9) :
    daysBeforeMonth y (k + 3) + 306 = yearLength y + (153 * k + 2) / 5 := by
  have hmarch : daysBeforeMonth y 3 = 31 + monthLength y 2 := by
    simp [daysBeforeMonth, monthLength]
  have hfebruary := monthLength_two y
  induction k with
  | zero =>
    rw [Nat.zero_add]
    omega
  | succ k ih =>
    have hk := ih (by omega)
    have hlength := monthLength_add_three y (k := k) (by omega)
    rw [Nat.add_right_comm, daysBeforeMonth]
    omega

theorem monthLength_pos (y : Nat) {m : Nat} (h : 1 ≤ m ∧ m ≤ 12) : 1 ≤ monthLength y m := by
  obtain ⟨hlo, hhi⟩ := h
  by_cases hfebruary : m = 2
  · subst hfebruary
    simp only [monthLength]
    split <;> omega
  · interval_cases m <;> simp [monthLength] at hfebruary ⊢

theorem monthLength_le (y m : Nat) : monthLength y m ≤ 31 := by
  unfold monthLength
  split <;> first | omega | (split <;> omega)

/-! ## Dates -/

namespace Date

variable {d d' : Date}

theorem ext' (hy : d.year = d'.year) (hm : d.month = d'.month) (hd : d.day = d'.day) :
    d = d' := by
  cases d
  cases d'
  cases hy
  cases hm
  cases hd
  rfl

/-- A date comes before the end of its month. -/
theorem dayNumber_lt_month (d : Date) :
    d.dayNumber < daysBeforeYear d.year + daysBeforeMonth d.year (d.month + 1) := by
  have := d.day_mem
  unfold dayNumber
  rw [daysBeforeMonth]
  omega

/-- A date comes before the end of its year. -/
theorem dayNumber_lt_year (d : Date) : d.dayNumber < daysBeforeYear (d.year + 1) := by
  have hmonth := d.dayNumber_lt_month
  have hyear : daysBeforeMonth d.year (d.month + 1) ≤ daysBeforeMonth d.year 13 :=
    monotone_daysBeforeMonth d.year (Nat.succ_le_succ d.month_mem.2)
  rw [daysBeforeMonth_thirteen] at hyear
  rw [daysBeforeYear]
  omega

/-- Earlier by year, then by month, then by day. -/
def Before (d d' : Date) : Prop :=
  d.year < d'.year ∨ d.year = d'.year ∧
    (d.month < d'.month ∨ d.month = d'.month ∧ d.day < d'.day)

/-- Days are counted in the order of their dates. -/
theorem Before.dayNumber_lt (h : d.Before d') : d.dayNumber < d'.dayNumber := by
  rcases h with hy | ⟨hy, hm | ⟨hm, hd⟩⟩
  · have hlt := d.dayNumber_lt_year
    have hle : daysBeforeYear (d.year + 1) ≤ daysBeforeYear d'.year :=
      monotone_daysBeforeYear (Nat.succ_le_of_lt hy)
    unfold dayNumber at hlt ⊢
    omega
  · have hlt := d.dayNumber_lt_month
    have hle : daysBeforeMonth d.year (d.month + 1) ≤ daysBeforeMonth d.year d'.month :=
      monotone_daysBeforeMonth d.year (Nat.succ_le_of_lt hm)
    unfold dayNumber at hlt ⊢
    rw [← hy]
    omega
  · have := d.day_mem
    unfold dayNumber
    rw [← hy, ← hm]
    omega

theorem before_or_eq_or_before (d d' : Date) : d.Before d' ∨ d = d' ∨ d'.Before d := by
  unfold Before
  by_cases heq : d.year = d'.year ∧ d.month = d'.month ∧ d.day = d'.day
  · exact .inr (.inl (ext' heq.1 heq.2.1 heq.2.2))
  · omega

theorem dayNumber_lt_iff : d.dayNumber < d'.dayNumber ↔ d.Before d' := by
  constructor
  · intro h
    rcases before_or_eq_or_before d d' with hb | rfl | hb
    · exact hb
    · exact absurd h (Nat.lt_irrefl _)
    · exact absurd h (Nat.lt_asymm hb.dayNumber_lt)
  · exact Before.dayNumber_lt

theorem dayNumber_injective : Function.Injective dayNumber := by
  intro d d' h
  rcases before_or_eq_or_before d d' with hb | heq | hb
  · exact absurd h (Nat.ne_of_lt hb.dayNumber_lt)
  · exact heq
  · exact absurd h.symm (Nat.ne_of_lt hb.dayNumber_lt)

end Date

/-- The day after a date is the next of its month, the first of the next
month, or New Year's Day. -/
theorem Date.exists_next (d : Date) : ∃ d' : Date, d'.dayNumber = d.dayNumber + 1 := by
  obtain ⟨y, m, dd, hm, hd⟩ := d
  by_cases hday : dd < monthLength y m
  · refine ⟨⟨y, m, dd + 1, hm, by omega⟩, ?_⟩
    simp only [dayNumber]
    omega
  · by_cases hmonth : m < 12
    · have hm' : 1 ≤ m + 1 ∧ m + 1 ≤ 12 := by omega
      refine ⟨⟨y, m + 1, 1, hm', by omega, monthLength_pos y hm'⟩, ?_⟩
      simp only [dayNumber, daysBeforeMonth]
      omega
    · obtain rfl : m = 12 := by omega
      refine ⟨⟨y + 1, 1, 1, by omega, by omega, monthLength_pos _ (by omega)⟩, ?_⟩
      have hyear : daysBeforeMonth y 12 + monthLength y 12 = yearLength y :=
        daysBeforeMonth_thirteen y
      have hjanuary : daysBeforeMonth (y + 1) 1 = 0 := rfl
      simp only [dayNumber, daysBeforeYear, hjanuary]
      omega

/-- Every count is the count of a date. -/
theorem exists_date (n : Nat) : ∃ d : Date, d.dayNumber = n := by
  induction n with
  | zero => exact ⟨⟨0, 1, 1, by decide, by decide⟩, rfl⟩
  | succ n ih =>
    obtain ⟨d, rfl⟩ := ih
    exact d.exists_next

end Gregorian
