-- SUMMARY: Date strings: a time value's calendar fields, their ISO form, and that no two times share one.
import Mathlib.Data.Int.Basic
import Mathlib.Data.List.Basic
import Mathlib.Tactic.Ring

/-!
# Date strings

A time value is a count of milliseconds. Its fields are those of the proleptic Gregorian
calendar in UTC, and `toISOString` writes them in digits of fixed width, so the string
determines the time.
-/

namespace Calendar

/-! ## Years and days -/

def dayFromYear (y : ℤ) : ℤ :=
  365 * (y - 1970) + (y - 1969) / 4 - (y - 1901) / 100 + (y - 1601) / 400

/-- The year of a day: the last one to start on it or before it. -/
def yearOfDay (day : ℤ) : ℤ :=
  let y := 1970 + day * 400 / 146097
  if dayFromYear (y + 1) ≤ day then y + 1 else if day < dayFromYear y then y - 1 else y

theorem yearOfDay_spec (day : ℤ) : dayFromYear (yearOfDay day) ≤ day ∧ day < dayFromYear (yearOfDay day + 1) := by
  simp only [yearOfDay]
  generalize hy : 1970 + day * 400 / 146097 = y
  split_ifs with hafter hbefore
  · refine ⟨hafter, ?_⟩
    rw [show y + 1 + 1 = y + 2 by ring]
    simp only [dayFromYear] at hafter ⊢
    omega
  · rw [sub_add_cancel]
    refine ⟨?_, hbefore⟩
    simp only [dayFromYear] at hafter hbefore ⊢
    omega
  · exact ⟨not_lt.mp hbefore, not_le.mp hafter⟩

/-! ## Fields -/

def inLeapYear (y : ℤ) : Bool := dayFromYear (y + 1) - dayFromYear y = 366

def monthStarts (leap : Bool) : List ℕ :=
  if leap then [0, 31, 60, 91, 121, 152, 182, 213, 244, 274, 305, 335]
  else [0, 31, 59, 90, 120, 151, 181, 212, 243, 273, 304, 334]

/-- The month, from zero, of a day within the year: the last to start on it or before it. -/
def monthOf (leap : Bool) (day : ℕ) : ℕ := (monthStarts leap).countP (· ≤ day) - 1

def monthStart (leap : Bool) (month : ℕ) : ℕ := (monthStarts leap).getD month 0

/-- What the digits of a date string spell, the day counted from zero. -/
structure Fields where
  year : ℤ
  month : ℕ
  day : ℕ
  hour : ℕ
  minute : ℕ
  second : ℕ
  milli : ℕ
deriving DecidableEq

def fieldsOf (t : ℤ) : Fields :=
  let days := t / 86400000
  let clock := (t % 86400000).toNat
  let year := yearOfDay days
  let leap := inLeapYear year
  let within := (days - dayFromYear year).toNat
  { year := year
    month := monthOf leap within
    day := within - monthStart leap (monthOf leap within)
    hour := clock / 3600000
    minute := clock / 60000 % 60
    second := clock / 1000 % 60
    milli := clock % 1000 }

def timeOf (f : Fields) : ℤ :=
  (dayFromYear f.year + monthStart (inLeapYear f.year) f.month + f.day) * 86400000 +
    (f.hour * 3600000 + f.minute * 60000 + f.second * 1000 + f.milli : ℕ)

theorem month_spec : ∀ leap, ∀ day < 366, monthOf leap day < 12 ∧
    monthStart leap (monthOf leap day) ≤ day ∧ day - monthStart leap (monthOf leap day) < 32 := by
  decide +kernel

theorem within_year (day : ℤ) : 0 ≤ day - dayFromYear (yearOfDay day) ∧ day - dayFromYear (yearOfDay day) < 366 := by
  obtain ⟨hlow, hhigh⟩ := yearOfDay_spec day
  generalize yearOfDay day = y at hlow hhigh ⊢
  simp only [dayFromYear] at hlow hhigh ⊢
  omega

theorem fieldsOf_bounds (t : ℤ) : (fieldsOf t).month < 12 ∧ (fieldsOf t).day < 32 ∧ (fieldsOf t).hour < 24 ∧
      (fieldsOf t).minute < 60 ∧ (fieldsOf t).second < 60 ∧ (fieldsOf t).milli < 1000 := by
  obtain ⟨hlow, hhigh⟩ := within_year (t / 86400000)
  obtain ⟨hmonth, -, hday⟩ := month_spec (inLeapYear (yearOfDay (t / 86400000)))
    (t / 86400000 - dayFromYear (yearOfDay (t / 86400000))).toNat (by omega)
  have hclock : (t % 86400000).toNat < 86400000 := by omega
  refine ⟨hmonth, hday, ?_, ?_, ?_, ?_⟩ <;> simp only [fieldsOf] <;> omega

theorem timeOf_fieldsOf (t : ℤ) : timeOf (fieldsOf t) = t := by
  obtain ⟨hlow, hhigh⟩ := within_year (t / 86400000)
  obtain ⟨-, hstart, -⟩ := month_spec (inLeapYear (yearOfDay (t / 86400000)))
    (t / 86400000 - dayFromYear (yearOfDay (t / 86400000))).toNat (by omega)
  simp only [timeOf, fieldsOf]
  generalize inLeapYear (yearOfDay (t / 86400000)) = leap at hstart ⊢
  generalize hwithin : (t / 86400000 - dayFromYear (yearOfDay (t / 86400000))).toNat = within at hstart ⊢
  generalize monthStart leap (monthOf leap within) = start at hstart ⊢
  generalize dayFromYear (yearOfDay (t / 86400000)) = first at hlow hwithin ⊢
  omega

/-! ## Digits -/

/-- The last `width` decimal digits of a number. -/
def pad : ℕ → ℕ → List Char
  | 0, _ => []
  | width + 1, n => pad width (n / 10) ++ [Char.ofNat (48 + n % 10)]

@[simp] theorem length_pad {width n : ℕ} : (pad width n).length = width := by
  induction width generalizing n with
  | zero => rfl
  | succ width ih => simp [pad, ih]

theorem pad_injective {width n m : ℕ} (hn : n < 10 ^ width) (hm : m < 10 ^ width)
    (h : pad width n = pad width m) : n = m := by
  induction width generalizing n m with
  | zero => simp at hn hm; omega
  | succ width ih =>
    obtain ⟨hfront, hlast⟩ := List.append_inj' h rfl
    have hdiv : n / 10 = m / 10 := ih (by omega) (by omega) hfront
    have hdigit : ∀ i < 10, ∀ j < 10, [Char.ofNat (48 + i)] = [Char.ofNat (48 + j)] → i = j := by decide
    have hmod := hdigit (n % 10) (by omega) (m % 10) (by omega) hlast
    omega

/-! ## Date strings -/

def yearChars (y : ℤ) : List Char :=
  if 0 ≤ y ∧ y ≤ 9999 then pad 4 y.toNat
  else (if y < 0 then '-' else '+') :: pad 6 y.natAbs

def restChars (f : Fields) : List Char :=
  ['-'] ++ (pad 2 (f.month + 1) ++ (['-'] ++ (pad 2 (f.day + 1) ++ (['T'] ++ (pad 2 f.hour ++
    ([':'] ++ (pad 2 f.minute ++ ([':'] ++ (pad 2 f.second ++ (['.'] ++ (pad 3 f.milli ++ ['Z'])))))))))))

/-- `new Date(t).toISOString()`, none where it throws. -/
def toISOString (t : ℤ) : Option String :=
  if t.natAbs ≤ 8640000000000000 then
    some (String.ofList (yearChars (fieldsOf t).year ++ restChars (fieldsOf t)))
  else none

example : toISOString 0 = some "1970-01-01T00:00:00.000Z" := by decide +kernel
example : toISOString 1790163198250 = some "2026-09-23T11:33:18.250Z" := by decide +kernel

theorem year_bounds {t : ℤ} (h : t.natAbs ≤ 8640000000000000) : (fieldsOf t).year.natAbs < 10 ^ 6 := by
  obtain ⟨hlow, hhigh⟩ := yearOfDay_spec (t / 86400000)
  simp only [fieldsOf]
  generalize yearOfDay (t / 86400000) = y at hlow hhigh ⊢
  simp only [dayFromYear] at hlow hhigh
  omega

theorem yearChars_injective {y z : ℤ} (hy : y.natAbs < 10 ^ 6) (hz : z.natAbs < 10 ^ 6)
    (h : yearChars y = yearChars z) : y = z := by
  have hlength := congrArg List.length h
  unfold yearChars at h hlength
  split_ifs at h hlength with hyShort hzShort hzNeg hzNeg hyNeg hzShort hzNeg hyNeg
  all_goals simp at hlength
  · have := pad_injective (by omega) (by omega) h
    omega
  all_goals
    obtain ⟨hsign, hdigits⟩ := List.cons.inj h
    first
      | exact absurd hsign (by decide)
      | have := pad_injective hy hz hdigits
        omega

theorem restChars_injective {f g : Fields}
    (hf : f.month < 12 ∧ f.day < 32 ∧ f.hour < 24 ∧ f.minute < 60 ∧ f.second < 60 ∧ f.milli < 1000)
    (hg : g.month < 12 ∧ g.day < 32 ∧ g.hour < 24 ∧ g.minute < 60 ∧ g.second < 60 ∧ g.milli < 1000)
    (hyear : f.year = g.year) (h : restChars f = restChars g) : f = g := by
  unfold restChars at h
  obtain ⟨-, h⟩ := List.append_inj h rfl
  obtain ⟨hmonth, h⟩ := List.append_inj h (by simp)
  obtain ⟨-, h⟩ := List.append_inj h rfl
  obtain ⟨hday, h⟩ := List.append_inj h (by simp)
  obtain ⟨-, h⟩ := List.append_inj h rfl
  obtain ⟨hhour, h⟩ := List.append_inj h (by simp)
  obtain ⟨-, h⟩ := List.append_inj h rfl
  obtain ⟨hminute, h⟩ := List.append_inj h (by simp)
  obtain ⟨-, h⟩ := List.append_inj h rfl
  obtain ⟨hsecond, h⟩ := List.append_inj h (by simp)
  obtain ⟨-, h⟩ := List.append_inj h rfl
  obtain ⟨hmilli, -⟩ := List.append_inj h (by simp)
  have hmonth := pad_injective (by omega) (by omega) hmonth
  have hday := pad_injective (by omega) (by omega) hday
  have hhour := pad_injective (by omega) (by omega) hhour
  have hminute := pad_injective (by omega) (by omega) hminute
  have hsecond := pad_injective (by omega) (by omega) hsecond
  have hmilli := pad_injective (by omega) (by omega) hmilli
  cases f
  cases g
  simp_all

theorem length_restChars {f : Fields} : (restChars f).length = 20 := by simp [restChars]

/-- **No two times have one date string.** -/
theorem toISOString_injective {t u : ℤ} {date : String} (ht : toISOString t = some date)
    (hu : toISOString u = some date) : t = u := by
  unfold toISOString at ht hu
  split_ifs at ht hu with htRange huRange
  have hchars : yearChars (fieldsOf t).year ++ restChars (fieldsOf t) =
      yearChars (fieldsOf u).year ++ restChars (fieldsOf u) := by
    have := congrArg String.toList ((Option.some.inj ht).trans (Option.some.inj hu).symm)
    simpa using this
  obtain ⟨hyear, hrest⟩ := List.append_inj' hchars (by simp [length_restChars])
  have hyear := yearChars_injective (year_bounds htRange) (year_bounds huRange) hyear
  have hfields := restChars_injective (fieldsOf_bounds t) (fieldsOf_bounds u) hyear hrest
  rw [← timeOf_fieldsOf t, hfields, timeOf_fieldsOf u]

end Calendar
