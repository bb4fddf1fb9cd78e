import Mathlib.Order.SuccPred.IntervalSucc
import Mathlib.Order.Interval.Set.Monotone
import Mathlib.Algebra.Order.Group.Int
import Mathlib.Algebra.Order.BigOperators.Group.List
import Mathlib.Data.Int.ConditionallyCompleteOrder
import Mathlib.Tactic.IntervalCases

/-!
# The proleptic Gregorian calendar

The lengths of years and months, and the number of a day counted from 1970-01-01. A `Moment` is a
second of the UTC time scale by its fields, which are in range by construction.

* `yearStart_succ`, `monthStart_succ`: the counts are the sums of the lengths of the years and of
  the months.
* `dayNumber_inj`: a day has one date.
* `seconds_inj`: a second has one date and time.
-/
namespace MinMcp.Core.Gregorian

def isLeap (y : Int) : Prop := y % 4 = 0 ∧ (y % 100 ≠ 0 ∨ y % 400 = 0)

instance (y : Int) : Decidable (isLeap y) := inferInstanceAs (Decidable (_ ∧ _))

def daysInYear (y : Int) : Int := if isLeap y then 366 else 365

def daysInMonth (y m : Int) : Int :=
  if m = 2 then if isLeap y then 29 else 28
  else if m = 4 ∨ m = 6 ∨ m = 9 ∨ m = 11 then 30
  else 31

/-- The day the year begins with: 365 days a year and the leap days before it. -/
def yearStart (y : Int) : Int := 365 * (y - 1970) + ((y - 1) / 4 - (y - 1) / 100 + (y - 1) / 400 - 477)

def months : List Int := [1, 2, 3, 4, 5, 6, 7, 8, 9, 10, 11, 12]

/-- The days of the year before the month. -/
def monthStart (y m : Int) : Int := ((months.filter fun k => k < m).map (daysInMonth y)).sum

def dayNumber (y m d : Int) : Int := yearStart y + monthStart y m + (d - 1)

example : dayNumber 1970 1 1 = 0 ∧ dayNumber 2000 2 29 = 11016 ∧ dayNumber 0 3 1 = -719468 := by decide

theorem yearStart_succ (y : Int) : yearStart (y + 1) = yearStart y + daysInYear y := by
  unfold yearStart daysInYear
  by_cases h : isLeap y
  · rw [if_pos h]
    unfold isLeap at h
    omega
  · rw [if_neg h]
    unfold isLeap at h
    omega

theorem daysInYear_pos (y : Int) : 0 ≤ daysInYear y := by
  unfold daysInYear
  split <;> omega

theorem daysInMonth_pos (y m : Int) : 0 ≤ daysInMonth y m := by
  unfold daysInMonth
  split
  · split <;> omega
  · split <;> omega

theorem daysInMonth_le (y m : Int) : daysInMonth y m ≤ 31 := by
  unfold daysInMonth
  split
  · split <;> omega
  · split <;> omega

theorem monthStart_succ (y : Int) {m : Int} (h : 1 ≤ m) (h' : m ≤ 12) :
    monthStart y (m + 1) = monthStart y m + daysInMonth y m := by
  interval_cases m <;> simp [monthStart, months] <;> omega

theorem monthStart_one (y : Int) : monthStart y 1 = 0 := rfl

theorem monthStart_two (y : Int) : monthStart y 2 = 31 := rfl

theorem monthStart_end (y : Int) : monthStart y 13 = daysInYear y := by
  by_cases h : isLeap y <;> simp [monthStart, months, daysInMonth, daysInYear, h]

/-- From March on, five months have 153 days, again and again. -/
theorem monthStart_march (y : Int) {m : Int} (h : 3 ≤ m) (h' : m ≤ 12) :
    monthStart y m = daysInYear y - 306 + (153 * (m - 3) + 2) / 5 := by
  by_cases hleap : isLeap y <;>
    interval_cases m <;> simp [monthStart, months, daysInMonth, daysInYear, hleap]

theorem yearStart_mono : Monotone yearStart :=
  monotone_int_of_le_succ fun y => by have := daysInYear_pos y; rw [yearStart_succ]; omega

theorem monthStart_mono (y : Int) : Monotone (monthStart y) := by
  intro m m' h
  unfold monthStart
  generalize months = ks
  induction ks with
  | nil => exact Int.le_refl 0
  | cons k ks ih =>
    have := daysInMonth_pos y k
    simp only [List.filter_cons]
    split <;> split <;> simp_all <;> omega

/-- Between two neighbours of a monotone count. -/
theorem eq_of_between {g : Int → Int} (hg : Monotone g) {a b x : Int} (ha : g a ≤ x) (ha' : x < g (a + 1))
    (hb : g b ≤ x) (hb' : x < g (b + 1)) : a = b := by
  rcases lt_trichotomy a b with h | h | h
  · have := hg (show a + 1 ≤ b by omega)
    omega
  · exact h
  · have := hg (show b + 1 ≤ a by omega)
    omega

/-- A date of the calendar. -/
structure IsDate (y m d : Int) : Prop where
  month : 1 ≤ m ∧ m ≤ 12
  day : 1 ≤ d ∧ d ≤ daysInMonth y m

variable {y m d y' m' d' : Int}

theorem IsDate.in_year (h : IsDate y m d) :
    yearStart y ≤ dayNumber y m d ∧ dayNumber y m d < yearStart (y + 1) := by
  have hstart := monthStart_mono y h.month.1
  have hend := monthStart_mono y (show m + 1 ≤ 13 by have := h.month.2; omega)
  rw [monthStart_one] at hstart
  rw [monthStart_end, monthStart_succ y h.month.1 h.month.2] at hend
  have := h.day
  rw [yearStart_succ, dayNumber]
  omega

theorem dayNumber_inj (h : IsDate y m d) (h' : IsDate y' m' d') (he : dayNumber y m d = dayNumber y' m' d') :
    y = y' ∧ m = m' ∧ d = d' := by
  have hy : y = y' := by
    have := h'.in_year
    rw [← he] at this
    exact eq_of_between yearStart_mono h.in_year.1 h.in_year.2 this.1 this.2
  subst hy
  have hday := h.day
  have hday' := h'.day
  unfold dayNumber at he
  have hm : m = m' := by
    refine eq_of_between (monthStart_mono y) (x := monthStart y m + (d - 1)) (by omega) ?_ (by omega) ?_
    · rw [monthStart_succ y h.month.1 h.month.2]
      omega
    · rw [monthStart_succ y h'.month.1 h'.month.2]
      omega
  subst hm
  exact ⟨rfl, rfl, by omega⟩

/-! ## Moments -/

structure Moment where
  year : Int
  month : Int
  day : Int
  hour : Int
  minute : Int
  second : Int
  isDate : IsDate year month day
  hour_range : 0 ≤ hour ∧ hour ≤ 23
  minute_range : 0 ≤ minute ∧ minute ≤ 59
  second_range : 0 ≤ second ∧ second ≤ 59

/-- Seconds since the first second of 1970. -/
def Moment.seconds (t : Moment) : Int :=
  dayNumber t.year t.month t.day * 86400 + t.hour * 3600 + t.minute * 60 + t.second

theorem seconds_inj {t t' : Moment} (h : t.seconds = t'.seconds) : t = t' := by
  have := t.hour_range
  have := t.minute_range
  have := t.second_range
  have := t'.hour_range
  have := t'.minute_range
  have := t'.second_range
  unfold Moment.seconds at h
  have hday : dayNumber t.year t.month t.day = dayNumber t'.year t'.month t'.day := by omega
  obtain ⟨hy, hm, hd⟩ := dayNumber_inj t.isDate t'.isDate hday
  rw [hday] at h
  obtain ⟨y, m, d, hr, mi, s⟩ := t
  obtain ⟨y', m', d', hr', mi', s'⟩ := t'
  simp only [Moment.mk.injEq] at *
  omega

end MinMcp.Core.Gregorian
