import MinMcp.Core.Gregorian
import Mathlib.Data.Int.SuccPred

/-!
# The `{{iso8601}}` header value

`iso8601_utc` (src/surface/generators.rs) writes a number of seconds as an RFC 3339 text. The date
comes from the number of the day by a calculation over eras of 400 years, in which a year begins
with March. The operations are those of `i64`; one that overflows has no result here.

* `civilFromDays_eq`: the date of a day by the calendar, and no operation overflows.
* `iso8601Utc_correct`: every number of seconds is one moment, and its text is that moment.
-/
namespace MinMcp.L4.Generators

open MinMcp.Core MinMcp.Core.Gregorian

/-- The result of an `i64` operation. -/
def i64 (x : Int) : Option Int := if -2 ^ 63 ≤ x ∧ x < 2 ^ 63 then some x else none

theorem i64_eq {x : Int} (h : -2 ^ 63 ≤ x ∧ x < 2 ^ 63) : i64 x = some x := if_pos h

/-- The era and the day of the era.
mirrors src/surface/generators.rs:67-68 -/
def eraAndDay (z : Int) : Option (Int × Int) := do
  let base ← (if 0 ≤ z then some z else i64 (z - 146096))
  let era := base.tdiv 146097
  let eraStart ← i64 (era * 146097)
  let doe ← i64 (z - eraStart)
  return (era, doe)

/-- mirrors src/surface/generators.rs:69 -/
def yearOfEra (doe : Int) : Option Int := do
  let a ← i64 (doe - doe.tdiv 1460)
  let b ← i64 (a + doe.tdiv 36524)
  let c ← i64 (b - doe.tdiv 146096)
  return c.tdiv 365

/-- mirrors src/surface/generators.rs:71 -/
def dayOfYear (doe yoe : Int) : Option Int := do
  let a ← i64 (365 * yoe)
  let b ← i64 (a + yoe.tdiv 4)
  let c ← i64 (b - yoe.tdiv 100)
  i64 (doe - c)

/-- mirrors src/surface/generators.rs:72-74 -/
def monthAndDay (doy : Int) : Option (Int × Int) := do
  let a ← i64 (5 * doy)
  let b ← i64 (a + 2)
  let mp := b.tdiv 153
  let c ← i64 (153 * mp)
  let e ← i64 (c + 2)
  let f ← i64 (doy - e.tdiv 5)
  let d ← i64 (f + 1)
  let m ← (if mp < 10 then i64 (mp + 3) else i64 (mp - 9))
  return (m, d)

/-- Year, month and day of a day counted from 1970-01-01.
mirrors src/surface/generators.rs:66-75 -/
def civilFromDays (days : Int) : Option (Int × Int × Int) := do
  let z ← i64 (days + 719468)
  let (era, doe) ← eraAndDay z
  let yoe ← yearOfEra doe
  let eraYears ← i64 (era * 400)
  let y ← i64 (yoe + eraYears)
  let doy ← dayOfYear doe yoe
  let (m, d) ← monthAndDay doy
  let y ← (if m ≤ 2 then i64 (y + 1) else some y)
  return (y, m, d)

/-- `{n:0width}`: zeros up to the width, behind the sign. -/
def padded (width : Nat) (n : Int) : String :=
  let digits := Nat.repr n.natAbs
  if n < 0 then "-" ++ String.ofList (List.replicate (width - 1 - digits.length) '0') ++ digits
  else String.ofList (List.replicate (width - digits.length) '0') ++ digits

/-- mirrors src/surface/generators.rs:61-78 -/
def iso8601Utc (secs : Int64) : Option String := do
  let days := secs.toInt / 86400
  let tod := secs.toInt % 86400
  let (h, mi, s) := (tod.tdiv 3600, (tod.tmod 3600).tdiv 60, tod.tmod 60)
  let (y, m, d) ← civilFromDays days
  return padded 4 y ++ "-" ++ padded 2 m ++ "-" ++ padded 2 d ++ "T" ++ padded 2 h ++ ":" ++ padded 2 mi ++
    ":" ++ padded 2 s ++ "Z"

example : iso8601Utc 1786003740 = some "2026-08-06T08:09:00Z" := by decide +kernel

/-! ## Years that begin with March -/

/-- The first day of a year of the era. -/
def eraYearStart (k : Int) : Int := 365 * k + k / 4 - k / 100 + k / 400

/-- The day of the era without the leap days before it. -/
def levelled (doe : Int) : Int := doe - doe / 1460 + doe / 36524 - doe / 146096

theorem levelled_succ {x : Int} (h : 0 ≤ x) (h' : x < 146096) : levelled x ≤ levelled (x + 1) := by
  unfold levelled
  omega

theorem levelled_le {x y : Int} (h : 0 ≤ x) (hxy : x ≤ y) (hy : y < 146097) : levelled x ≤ levelled y := by
  induction y, hxy using Int.leInduction with
  | base => exact Int.le_refl _
  | succ y hxy ih => exact Int.le_trans (ih (by omega)) (levelled_succ (by omega) (by omega))

/-- The 400 years of the era: on its days the calculation gives each year its number. -/
theorem levelled_years : ∀ k : Fin 400, 365 * (k : Int) ≤ levelled (eraYearStart k) ∧
    levelled (eraYearStart (k + 1) - 1) < 365 * ((k : Int) + 1) := by
  decide +kernel

theorem exists_eraYear {doe : Int} (h : 0 ≤ doe) :
    ∀ n : Nat, doe < eraYearStart n → ∃ k : Nat, k < n ∧ eraYearStart k ≤ doe ∧ doe < eraYearStart (k + 1) := by
  intro n
  induction n with
  | zero => intro hn; simp [eraYearStart] at hn; omega
  | succ n ih =>
    intro hn
    by_cases hlt : doe < eraYearStart n
    · obtain ⟨k, hk, hdoe⟩ := ih hlt
      exact ⟨k, by omega, hdoe⟩
    · exact ⟨n, by omega, by omega, by simpa using hn⟩

theorem eraYearStart_range {k : Nat} (h : k < 400) :
    0 ≤ eraYearStart k ∧ eraYearStart (k + 1) ≤ 146097 := by
  unfold eraYearStart
  omega

/-- The year of a day of the era. -/
theorem yearOfEra_spec (doe : Int) (h : 0 ≤ doe) (h' : doe < 146097) :
    ∃ yoe, yearOfEra doe = some yoe ∧ 0 ≤ yoe ∧ yoe < 400 ∧ eraYearStart yoe ≤ doe ∧
      doe < eraYearStart (yoe + 1) := by
  obtain ⟨k, hk, hlo, hhi⟩ := exists_eraYear h 400 (by simpa [eraYearStart] using h')
  have hrange := eraYearStart_range hk
  obtain ⟨hfirst, hlast⟩ := levelled_years ⟨k, hk⟩
  have hge := levelled_le hrange.1 hlo h'
  have hle := levelled_le h (show doe ≤ eraYearStart (k + 1) - 1 by omega) (by omega)
  simp only at hfirst hlast
  refine ⟨k, ?_, by omega, by omega, hlo, hhi⟩
  have hq1 : doe.tdiv 1460 = doe / 1460 := Int.tdiv_eq_ediv_of_nonneg h
  have hq2 : doe.tdiv 36524 = doe / 36524 := Int.tdiv_eq_ediv_of_nonneg h
  have hq3 : doe.tdiv 146096 = doe / 146096 := Int.tdiv_eq_ediv_of_nonneg h
  have ha : i64 (doe - doe / 1460) = some (doe - doe / 1460) := i64_eq (by omega)
  have hb : i64 (doe - doe / 1460 + doe / 36524) = some (doe - doe / 1460 + doe / 36524) := i64_eq (by omega)
  have hc : i64 (doe - doe / 1460 + doe / 36524 - doe / 146096) = some (levelled doe) := i64_eq (by omega)
  have hdiv : (levelled doe).tdiv 365 = k := by
    rw [Int.tdiv_eq_ediv_of_nonneg (by omega)]
    omega
  simp only [yearOfEra, hq1, hq2, hq3, ha, hb, hc, hdiv, Option.bind_eq_bind, Option.bind_some, Option.pure_def]

theorem dayOfYear_spec {doe yoe : Int} (h : 0 ≤ yoe) (h' : yoe < 400) (hlo : eraYearStart yoe ≤ doe)
    (hhi : doe < 146097) : dayOfYear doe yoe = some (doe - eraYearStart yoe) := by
  have hstart : 365 * yoe + yoe / 4 - yoe / 100 = eraYearStart yoe := by unfold eraYearStart; omega
  have hq1 : yoe.tdiv 4 = yoe / 4 := Int.tdiv_eq_ediv_of_nonneg h
  have hq2 : yoe.tdiv 100 = yoe / 100 := Int.tdiv_eq_ediv_of_nonneg h
  have ha : i64 (365 * yoe) = some (365 * yoe) := i64_eq (by omega)
  have hb : i64 (365 * yoe + yoe / 4) = some (365 * yoe + yoe / 4) := i64_eq (by omega)
  have hc : i64 (365 * yoe + yoe / 4 - yoe / 100) = some (eraYearStart yoe) := by
    rw [hstart]
    exact i64_eq (by omega)
  have hd : i64 (doe - eraYearStart yoe) = some (doe - eraYearStart yoe) := i64_eq (by omega)
  simp only [dayOfYear, hq1, hq2, ha, hb, hc, hd, Option.bind_eq_bind, Option.bind_some]

/-! ## The date of a day -/

/-- The era of a day: `/` rounds towards zero, and the offset makes up for it. -/
theorem era_eq (z : Int) : (if 0 ≤ z then z else z - 146096).tdiv 146097 = z / 146097 := by
  split
  · next h => exact Int.tdiv_eq_ediv_of_nonneg h
  · next h =>
    rw [show z - 146096 = -(146096 - z) by omega, Int.neg_tdiv, Int.tdiv_eq_ediv_of_nonneg (by omega)]
    omega

theorem eraAndDay_spec {z : Int} (h : -2 ^ 62 ≤ z ∧ z ≤ 2 ^ 62) :
    eraAndDay z = some (z / 146097, z % 146097) := by
  have hbase : (if 0 ≤ z then some z else i64 (z - 146096)) = some (if 0 ≤ z then z else z - 146096) := by
    split
    · rfl
    · exact i64_eq (by omega)
  have ha : i64 (z / 146097 * 146097) = some (z / 146097 * 146097) := i64_eq (by omega)
  have hb : i64 (z - z / 146097 * 146097) = some (z % 146097) := by
    rw [show z - z / 146097 * 146097 = z % 146097 by omega]
    exact i64_eq (by omega)
  simp only [eraAndDay, hbase, era_eq, ha, hb, Option.bind_eq_bind, Option.bind_some, Option.pure_def]

/-- The first of March. -/
def marchStart (y : Int) : Int := yearStart (y + 1) - 306

theorem marchStart_era (era yoe : Int) (h : 0 ≤ yoe) (h' : yoe < 400) :
    marchStart (yoe + era * 400) = era * 146097 + eraYearStart yoe - 719468 := by
  unfold marchStart yearStart eraYearStart
  omega

/-- The last day of February is there in a leap year only. -/
theorem isLeap_of_last {era yoe : Int} (hlen : eraYearStart yoe + 365 < eraYearStart (yoe + 1)) :
    isLeap (yoe + era * 400 + 1) := by
  unfold eraYearStart at hlen
  unfold isLeap
  omega

/-- A day of the year that begins with March. -/
theorem march_date {y doy mp m year : Int} (h : 0 ≤ doy) (h' : doy ≤ 365) (hleap : doy = 365 → isLeap (y + 1))
    (hmp : (5 * doy + 2) / 153 = mp) (hm : (if mp < 10 then mp + 3 else mp - 9) = m)
    (hyear : (if m ≤ 2 then y + 1 else y) = year) :
    IsDate year m (doy - (153 * mp + 2) / 5 + 1) ∧
      dayNumber year m (doy - (153 * mp + 2) / 5 + 1) = marchStart y + doy := by
  have hlo : 0 ≤ mp := by omega
  have hhi : mp ≤ 11 := by omega
  by_cases hspring : mp < 10
  · rw [if_pos hspring] at hm
    rw [if_neg (by omega)] at hyear
    subst hm hyear
    refine ⟨⟨by omega, by omega, ?_⟩, ?_⟩
    · interval_cases mp <;> simp [daysInMonth] <;> omega
    · rw [dayNumber, monthStart_march y (by omega) (by omega), marchStart, yearStart_succ,
        show mp + 3 - 3 = mp by omega]
      omega
  · rw [if_neg hspring] at hm
    rw [if_pos (by omega)] at hyear
    subst hm hyear
    obtain rfl | rfl : mp = 10 ∨ mp = 11 := by omega
    · refine ⟨⟨by omega, by omega, ?_⟩, ?_⟩
      · simp [daysInMonth]
        omega
      · rw [dayNumber, show (10 : Int) - 9 = 1 by rfl, monthStart_one, marchStart]
        omega
    · refine ⟨⟨by omega, by omega, ?_⟩, ?_⟩
      · show _ ≤ if isLeap (y + 1) then (29 : Int) else 28
        split
        · omega
        · next hn =>
          have : doy ≠ 365 := fun e => hn (hleap e)
          omega
      · rw [dayNumber, show (11 : Int) - 9 = 2 by rfl, monthStart_two, marchStart]
        omega

theorem monthAndDay_spec (doy : Int) (h : 0 ≤ doy) (h' : doy ≤ 365) :
    ∃ mp m, monthAndDay doy = some (m, doy - (153 * mp + 2) / 5 + 1) ∧ (5 * doy + 2) / 153 = mp ∧
      (if mp < 10 then mp + 3 else mp - 9) = m := by
  obtain ⟨mp, hmp⟩ : ∃ mp, (5 * doy + 2) / 153 = mp := ⟨_, rfl⟩
  obtain ⟨m, hm⟩ : ∃ m, (if mp < 10 then mp + 3 else mp - 9) = m := ⟨_, rfl⟩
  refine ⟨mp, m, ?_, hmp, hm⟩
  have hq1 : (5 * doy + 2).tdiv 153 = mp := by rw [Int.tdiv_eq_ediv_of_nonneg (by omega), hmp]
  have hq2 : (153 * mp + 2).tdiv 5 = (153 * mp + 2) / 5 := Int.tdiv_eq_ediv_of_nonneg (by omega)
  have ha : i64 (5 * doy) = some (5 * doy) := i64_eq (by omega)
  have hb : i64 (5 * doy + 2) = some (5 * doy + 2) := i64_eq (by omega)
  have hc : i64 (153 * mp) = some (153 * mp) := i64_eq (by omega)
  have he : i64 (153 * mp + 2) = some (153 * mp + 2) := i64_eq (by omega)
  have hf : i64 (doy - (153 * mp + 2) / 5) = some (doy - (153 * mp + 2) / 5) := i64_eq (by omega)
  have hd : i64 (doy - (153 * mp + 2) / 5 + 1) = some (doy - (153 * mp + 2) / 5 + 1) := i64_eq (by omega)
  have hmi : (if mp < 10 then i64 (mp + 3) else i64 (mp - 9)) = some m := by
    rw [← hm]
    split <;> exact i64_eq (by omega)
  simp only [monthAndDay, ha, hb, hq1, hc, he, hq2, hf, hd, hmi, Option.bind_eq_bind, Option.bind_some,
    Option.pure_def]

/-- Every day has a date, and no operation on the way to it overflows. -/
theorem civilFromDays_eq (days : Int) (h : -2 ^ 61 ≤ days ∧ days < 2 ^ 61) :
    ∃ y m d, civilFromDays days = some (y, m, d) ∧ IsDate y m d ∧ dayNumber y m d = days := by
  have hz : i64 (days + 719468) = some (days + 719468) := i64_eq (by omega)
  have hera := eraAndDay_spec (z := days + 719468) (by omega)
  generalize hzd : days + 719468 = z at hz hera
  obtain ⟨yoe, hyoe, hyoe0, hyoe400, hlo, hhi⟩ := yearOfEra_spec (z % 146097) (by omega) (by omega)
  have hdoy := dayOfYear_spec hyoe0 hyoe400 hlo (by omega)
  have hlen : eraYearStart (yoe + 1) ≤ eraYearStart yoe + 366 := by unfold eraYearStart; omega
  generalize hdoyd : z % 146097 - eraYearStart yoe = doy at hdoy
  obtain ⟨mp, m, hmd, hmp, hm⟩ := monthAndDay_spec doy (by omega) (by omega)
  obtain ⟨year, hyear⟩ :
      ∃ year, (if m ≤ 2 then yoe + z / 146097 * 400 + 1 else yoe + z / 146097 * 400) = year := ⟨_, rfl⟩
  have ha : i64 (z / 146097 * 400) = some (z / 146097 * 400) := i64_eq (by omega)
  have hb : i64 (yoe + z / 146097 * 400) = some (yoe + z / 146097 * 400) := i64_eq (by omega)
  have hy : (if m ≤ 2 then i64 (yoe + z / 146097 * 400 + 1) else some (yoe + z / 146097 * 400)) = some year := by
    rw [← hyear]
    split
    · exact i64_eq (by omega)
    · rfl
  have hleap : doy = 365 → isLeap (yoe + z / 146097 * 400 + 1) := fun e => isLeap_of_last (by omega)
  obtain ⟨hdate, hnumber⟩ := march_date (by omega) (by omega) hleap hmp hm hyear
  refine ⟨year, m, _, ?_, hdate, ?_⟩
  · simp only [civilFromDays, hzd, hz, hera, hyoe, ha, hb, hdoy, hmd, hy, Option.bind_eq_bind, Option.bind_some,
      Option.pure_def]
  · rw [hnumber, marchStart_era (z / 146097) yoe hyoe0 hyoe400]
    omega

/-! ## The text -/

/-- The last decimal digit. -/
def place (n : Int) : Char := Nat.digitChar (n % 10).toNat

def two (n : Int) : List Char := [place (n / 10), place n]

def four (n : Int) : List Char := [place (n / 1000), place (n / 100), place (n / 10), place n]

/-- Date and time of RFC 3339, in UTC. -/
def rfc3339 (t : Moment) : List Char :=
  four t.year ++ '-' :: (two t.month ++ '-' :: (two t.day ++ 'T' :: (two t.hour ++ ':' :: (two t.minute ++
    ':' :: (two t.second ++ ['Z'])))))

theorem padded_eq (width n : Nat) : (padded width n).toList =
    List.replicate (width - (Nat.toDigits 10 n).length) '0' ++ Nat.toDigits 10 n := by
  have hlen : (Nat.repr n).length = (Nat.toDigits 10 n).length := by rw [← String.length_toList, Nat.toList_repr]
  rw [padded, if_neg (by omega), String.toList_append, String.toList_ofList, Int.natAbs_natCast, Nat.toList_repr,
    hlen]

theorem place_eq (n : Nat) : place n = Nat.digitChar (n % 10) := by
  unfold place
  congr 1

/-- The digits are counted off from the last; zeros stand where there are none. -/
theorem padded_succ {width : Nat} (h : 1 ≤ width) (n : Nat) :
    (padded (width + 1) n).toList = (padded width (n / 10 : Nat)).toList ++ [place n] := by
  rw [padded_eq, padded_eq, place_eq]
  by_cases h10 : n < 10
  · rw [Nat.toDigits_of_lt_base h10, Nat.div_eq_of_lt h10, Nat.mod_eq_of_lt h10, Nat.toDigits_zero]
    obtain ⟨w, rfl⟩ : ∃ w, width = w + 1 := ⟨width - 1, by omega⟩
    simp [List.replicate_succ']
  · rw [Nat.toDigits_of_base_le (by omega) (by omega)]
    simp

theorem padded_one {n : Nat} (h : n < 10) : (padded 1 n).toList = [place n] := by
  rw [padded_eq, place_eq, Nat.toDigits_of_lt_base h, Nat.mod_eq_of_lt h]
  rfl

theorem padded_two {n : Int} (h : 0 ≤ n) (h' : n ≤ 99) : (padded 2 n).toList = two n := by
  obtain ⟨k, rfl⟩ := Int.eq_ofNat_of_zero_le h
  rw [padded_succ (by omega), padded_one (by omega), two]
  rfl

theorem padded_four {n : Int} (h : 0 ≤ n) (h' : n ≤ 9999) : (padded 4 n).toList = four n := by
  obtain ⟨k, rfl⟩ := Int.eq_ofNat_of_zero_le h
  rw [padded_succ (by omega), padded_succ (by omega), padded_succ (by omega), padded_one (by omega),
    show k / 10 / 10 / 10 = k / 1000 by omega, show k / 10 / 10 = k / 100 by omega]
  rfl

/-- Every number of seconds is one moment, written in full where its year has four digits. -/
theorem iso8601Utc_correct (secs : Int64) : ∃ t : Moment, t.seconds = secs.toInt ∧
    (∀ t' : Moment, t'.seconds = secs.toInt → t' = t) ∧
    (0 ≤ t.year → t.year ≤ 9999 → iso8601Utc secs = some (String.ofList (rfc3339 t))) := by
  have hlo := secs.le_toInt
  have hhi := secs.toInt_lt
  obtain ⟨y, m, d, hcivil, hdate, hnumber⟩ := civilFromDays_eq (secs.toInt / 86400) (by omega)
  have hh : (secs.toInt % 86400).tdiv 3600 = secs.toInt % 86400 / 3600 := Int.tdiv_eq_ediv_of_nonneg (by omega)
  have hmi : ((secs.toInt % 86400).tmod 3600).tdiv 60 = secs.toInt % 86400 % 3600 / 60 := by
    rw [Int.tmod_eq_emod_of_nonneg (by omega), Int.tdiv_eq_ediv_of_nonneg (by omega)]
  have hs : (secs.toInt % 86400).tmod 60 = secs.toInt % 86400 % 60 := Int.tmod_eq_emod_of_nonneg (by omega)
  let t : Moment := ⟨y, m, d, secs.toInt % 86400 / 3600, secs.toInt % 86400 % 3600 / 60,
    secs.toInt % 86400 % 60, hdate, by omega, by omega, by omega⟩
  have ht : t.seconds = secs.toInt := by
    show dayNumber y m d * 86400 + secs.toInt % 86400 / 3600 * 3600 + secs.toInt % 86400 % 3600 / 60 * 60 +
      secs.toInt % 86400 % 60 = secs.toInt
    rw [hnumber]
    omega
  refine ⟨t, ht, fun t' ht' => seconds_inj (ht'.trans ht.symm), fun hy hy' => ?_⟩
  have hmonth := hdate.month
  have hday := hdate.day
  have hlen := daysInMonth_le y m
  simp only [iso8601Utc, hh, hmi, hs, hcivil, Option.bind_eq_bind, Option.bind_some, Option.pure_def,
    Option.some.injEq]
  apply String.toList_inj.mp
  simp only [String.toList_append, String.toList_ofList, rfc3339]
  rw [padded_four hy hy', padded_two (n := m) (by omega) (by omega), padded_two (n := d) (by omega) (by omega),
    padded_two (by omega) (by omega), padded_two (by omega) (by omega), padded_two (by omega) (by omega)]
  simp [t]

end MinMcp.L4.Generators
