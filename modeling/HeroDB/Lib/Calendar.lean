-- The days of the Gregorian calendar, and the number that the Calendar FAQ gives each of them.
import Mathlib.Tactic.IntervalCases
import Mathlib.Logic.Function.Iterate

namespace calendar

/-! ## Days -/

def leap (year : Nat) : Bool := year % 4 = 0 ∧ (year % 100 ≠ 0 ∨ year % 400 = 0)

def days_in_month (year month : Nat) : Nat :=
  match month with
  | 2 => if leap year then 29 else 28
  | 4 | 6 | 9 | 11 => 30
  | _ => 31

structure Day where
  year : Nat
  month : Nat
  day : Nat
  month_pos : 1 ≤ month
  month_le : month ≤ 12
  day_pos : 1 ≤ day
  day_le : day ≤ days_in_month year month

theorem days_pos (year month : Nat) : 1 ≤ days_in_month year month := by
  unfold days_in_month
  split
  · split <;> omega
  · omega
  · omega
  · omega
  · omega
  · omega

/-- The day after. -/
def Day.next (d : Day) : Day :=
  if h : d.day < days_in_month d.year d.month then
    { d with day := d.day + 1, day_pos := by omega, day_le := h }
  else if hmonth : d.month < 12 then
    { year := d.year, month := d.month + 1, day := 1, month_pos := by omega, month_le := hmonth,
      day_pos := by omega, day_le := days_pos _ _ }
  else
    { year := d.year + 1, month := 1, day := 1, month_pos := by omega, month_le := by omega,
      day_pos := by omega, day_le := days_pos _ _ }

/-! ## Their numbers -/

def julian_day (year month day : Nat) : Nat :=
  let a := (14 - month) / 12
  let y := year + 4800 - a
  let m := month + 12 * a - 3
  day + (153 * m + 2) / 5 + 365 * y + y / 4 - y / 100 + y / 400 - 32045

/-- The year, the month and the day with a number. -/
def civil (jd : Nat) : Nat × Nat × Nat :=
  let a := jd + 32044
  let b := (4 * a + 3) / 146097
  let c := a - 146097 * b / 4
  let d := (4 * c + 3) / 1461
  let e := c - 1461 * d / 4
  let m := (5 * e + 2) / 153
  (100 * b + d + m / 10 - 4800, m + 3 - 12 * (m / 10), e - (153 * m + 2) / 5 + 1)

def Day.number (d : Day) : Nat := julian_day d.year d.month d.day

/-! ## Years that begin in March -/

section march

/-- The last day of February is the last day of such a year. -/
def long (y e : Nat) : Prop := e ≤ 365 ∧ (e = 365 → (y + 1) % 4 = 0 ∧ ((y + 1) % 100 ≠ 0 ∨ (y + 1) % 400 = 0))

/-- The number of the day `e` of the year `y`. -/
def day_of (y e : Nat) : Nat := e + 365 * y + y / 4 - y / 100 + y / 400

variable {y e : Nat}

/-- The number by the century and the year in it. -/
theorem day_of_eq (y e : Nat) :
    day_of y e = 36524 * (y / 100) + y / 100 / 4 + (e + 365 * (y % 100) + y % 100 / 4) := by
  have hleap : y / 4 = 25 * (y / 100) + y % 100 / 4 := by omega
  have hcentury : y / 400 = y / 100 / 4 := by omega
  unfold day_of
  omega

theorem century_of (h : long y e) : (4 * day_of y e + 3) / 146097 = y / 100 := by
  obtain ⟨hle, hlast⟩ := h
  have hyear : (y + 1) % 100 = 0 → y % 100 = 99 := by omega
  have hfour : (y + 1) % 400 = 0 → y / 100 % 4 = 3 := by omega
  have hless : 365 * (y % 100) + e + y % 100 / 4 ≤ 36523 ∨
      365 * (y % 100) + e + y % 100 / 4 = 36524 ∧ y / 100 % 4 = 3 := by
    by_cases he : e = 365
    · obtain ⟨-, hor⟩ := hlast he
      rcases hor with hor | hor
      · have : y % 100 ≤ 98 := by omega
        omega
      · have := hfour hor
        omega
    · omega
  rw [day_of_eq]
  generalize y / 100 = q at *
  generalize y % 100 = r at *
  omega

theorem day_of_century (y e : Nat) :
    day_of y e - 146097 * (y / 100) / 4 = e + 365 * (y % 100) + y % 100 / 4 := by
  rw [day_of_eq]
  generalize y / 100 = q
  omega

theorem year_of (h : long y e) :
    (4 * (e + 365 * (y % 100) + y % 100 / 4) + 3) / 1461 = y % 100 := by
  obtain ⟨hle, hlast⟩ := h
  have hfour : e = 365 → y % 100 % 4 = 3 := by
    intro he
    obtain ⟨hfour, -⟩ := hlast he
    omega
  generalize y % 100 = r at *
  omega

theorem day_of_year (y e : Nat) :
    e + 365 * (y % 100) + y % 100 / 4 - 1461 * (y % 100) / 4 = e := by
  omega

end march

/-! ## From a day to its number, and back -/

section inverse

/-- The number of months that a year is behind one that begins in March. -/
def behind (month : Nat) : Nat := (14 - month) / 12

/-- The day in a year that begins in March. -/
def day_in_march_year (month day : Nat) : Nat :=
  (153 * (month + 12 * behind month - 3) + 2) / 5 + (day - 1)

variable {year month day : Nat}

theorem julian_day_eq (year : Nat) (hmonth : 1 ≤ month ∧ month ≤ 12) (hday : 1 ≤ day) :
    julian_day year month day + 32044 =
      day_of (year + 4800 - behind month) (day_in_march_year month day) := by
  unfold julian_day day_of day_in_march_year behind
  have hbehind : (14 - month) / 12 ≤ 1 := by omega
  dsimp only
  generalize (14 - month) / 12 = a at *
  generalize (153 * (month + 12 * a - 3) + 2) / 5 = e
  generalize hy : year + 4800 - a = y
  omega

theorem Day.long (d : Day) :
    calendar.long (d.year + 4800 - behind d.month) (day_in_march_year d.month d.day) := by
  obtain ⟨year, month, day, hpos, hle, hday, hlast⟩ := d
  unfold calendar.long day_in_march_year behind
  dsimp only
  interval_cases month <;> simp only [days_in_month] at hlast <;> try omega
  -- February
  by_cases hleap : leap year = true
  · rw [if_pos hleap] at hlast
    simp only [leap, decide_eq_true_eq] at hleap
    omega
  · rw [if_neg hleap] at hlast
    omega

/-- The month of a day that is not behind the end of its month. -/
theorem month_of (d : Day) :
    (5 * day_in_march_year d.month d.day + 2) / 153 = d.month + 12 * behind d.month - 3 := by
  obtain ⟨year, month, day, hpos, hle, hday, hlast⟩ := d
  unfold day_in_march_year behind
  dsimp only
  interval_cases month <;> simp only [days_in_month] at hlast <;> try omega
  by_cases hleap : leap year = true
  · rw [if_pos hleap] at hlast
    omega
  · rw [if_neg hleap] at hlast
    omega

theorem civil_number (d : Day) : civil d.number = (d.year, d.month, d.day) := by
  have hmonth := d.month_pos
  have hmonth' := d.month_le
  have hday := d.day_pos
  unfold civil Day.number
  simp only [julian_day_eq d.year ⟨hmonth, hmonth'⟩ hday, century_of d.long, day_of_century,
    year_of d.long, day_of_year, month_of]
  unfold day_in_march_year behind
  simp only [Prod.mk.injEq]
  omega

end inverse

/-! ## Numbers count the days -/

section count

variable {year month : Nat}

/-- A leap year has one day more before its March. -/
theorem first_of_march (year e : Nat) :
    day_of (year + 4800) e =
      day_of (year + 4799) e + if leap year = true then 366 else 365 := by
  have hfour : (year + 4800) / 4 = (year + 4799) / 4 + if year % 4 = 0 then 1 else 0 := by
    split <;> omega
  have hcentury : (year + 4800) / 100 = (year + 4799) / 100 + if year % 100 = 0 then 1 else 0 := by
    split <;> omega
  have hfourth : (year + 4800) / 400 = (year + 4799) / 400 + if year % 400 = 0 then 1 else 0 := by
    split <;> omega
  unfold day_of
  rw [hfour, hcentury, hfourth]
  simp only [leap, decide_eq_true_eq]
  split_ifs <;> omega

theorem day_of_add (y e : Nat) : day_of y e = day_of y 0 + e := by
  unfold day_of
  omega

/-- The days from the first of a month to the first of the next one. -/
theorem number_next_month (year : Nat) (hpos : 1 ≤ month) (hlt : month < 12) :
    julian_day year (month + 1) 1 = julian_day year month 1 + days_in_month year month := by
  have hnext := julian_day_eq year (by omega : 1 ≤ month + 1 ∧ month + 1 ≤ 12) le_rfl
  have hthis := julian_day_eq year (by omega : 1 ≤ month ∧ month ≤ 12) le_rfl
  rw [day_of_add] at hnext hthis
  by_cases hmonth : month = 2
  · -- March: the next of the years that begin in it.
    subst hmonth
    have hmarch := first_of_march year 0
    have hnone : year + 4800 - behind 3 = year + 4800 := rfl
    have hone : year + 4800 - behind 2 = year + 4799 := rfl
    rw [hnone] at hnext
    rw [hone] at hthis
    unfold day_in_march_year behind at hnext hthis
    have hdays : days_in_month year 2 = if leap year = true then 29 else 28 := rfl
    rw [hdays]
    split_ifs at hmarch ⊢ <;> omega
  · have hbehind : behind (month + 1) = behind month := by
      unfold behind
      omega
    rw [hbehind] at hnext
    unfold day_in_march_year at hnext hthis
    rw [hbehind] at hnext
    generalize day_of (year + 4800 - behind month) 0 = first at *
    unfold behind at hnext hthis
    interval_cases month <;> simp only [days_in_month] at hnext hthis ⊢ <;> omega

theorem number_next_year (year : Nat) : julian_day (year + 1) 1 1 = julian_day year 12 1 + 31 := by
  have hnext := julian_day_eq (year + 1) (by omega : 1 ≤ 1 ∧ 1 ≤ 12) le_rfl
  have hthis := julian_day_eq year (by omega : 1 ≤ 12 ∧ 12 ≤ 12) le_rfl
  rw [day_of_add] at hnext hthis
  have hsame : year + 1 + 4800 - behind 1 = year + 4800 - behind 12 := by
    unfold behind
    omega
  rw [hsame] at hnext
  unfold day_in_march_year behind at hnext hthis
  omega

/-- Within a month, the numbers go up with the days. -/
theorem number_in_month {day : Nat} (hmonth : 1 ≤ month ∧ month ≤ 12) (hday : 1 ≤ day) :
    julian_day year month day = julian_day year month 1 + (day - 1) := by
  have hthis := julian_day_eq year hmonth hday
  have hfirst := julian_day_eq year hmonth le_rfl
  rw [day_of_add] at hthis hfirst
  unfold day_in_march_year at hthis hfirst
  omega

/-- The day after has the next number. -/
theorem number_next (d : Day) : d.next.number = d.number + 1 := by
  have hmonth : 1 ≤ d.month ∧ d.month ≤ 12 := ⟨d.month_pos, d.month_le⟩
  have hday := d.day_pos
  have hlast := d.day_le
  unfold Day.next Day.number
  rw [number_in_month hmonth hday]
  by_cases hin : d.day < days_in_month d.year d.month
  · rw [dif_pos hin]
    dsimp only
    rw [number_in_month hmonth (by omega)]
    omega
  · rw [dif_neg hin]
    by_cases hyear : d.month < 12
    · rw [dif_pos hyear]
      dsimp only
      rw [number_next_month _ hmonth.1 hyear]
      omega
    · have hdec : d.month = 12 := by omega
      have hdays : days_in_month d.year 12 = 31 := rfl
      rw [hdec, hdays] at hin hlast
      rw [dif_neg hyear]
      dsimp only
      rw [number_next_year, hdec]
      omega

theorem number_iterate (d : Day) (n : Nat) : (Day.next^[n] d).number = d.number + n := by
  induction n with
  | zero => exact (Nat.add_zero _).symm
  | succ n ih => rw [Function.iterate_succ_apply', number_next, ih, Nat.add_assoc]

end count

/-- Two days with one number are one day. -/
theorem number_injective {d d' : Day} (h : d.number = d'.number) : d = d' := by
  have hcivil := congrArg civil h
  rw [civil_number, civil_number, Prod.mk.injEq, Prod.mk.injEq] at hcivil
  obtain ⟨year, month, day, hpos, hle, hday, hlast⟩ := d
  obtain ⟨year', month', day', hpos', hle', hday', hlast'⟩ := d'
  obtain ⟨rfl, rfl, rfl⟩ := hcivil
  rfl

/-! ## The order of days -/

section order

/-- By the year, then the month, then the day. -/
def Day.Before (d d' : Day) : Prop :=
  d.year < d'.year ∨ d.year = d'.year ∧ (d.month < d'.month ∨ d.month = d'.month ∧ d.day < d'.day)

theorem Day.before_or (d d' : Day) : d.Before d' ∨ d = d' ∨ d'.Before d := by
  obtain ⟨year, month, day, hpos, hle, hday, hlast⟩ := d
  obtain ⟨year', month', day', hpos', hle', hday', hlast'⟩ := d'
  by_cases hsame : year = year' ∧ month = month' ∧ day = day'
  · obtain ⟨rfl, rfl, rfl⟩ := hsame
    exact .inr (.inl rfl)
  · unfold Day.Before
    dsimp only
    omega

/-- The months of a year follow each other. -/
theorem first_of_month_lt {month : Nat} (year k : Nat) (hpos : 1 ≤ month) (hle : month + (k + 1) ≤ 12) :
    julian_day year month 1 + days_in_month year month ≤ julian_day year (month + (k + 1)) 1 := by
  induction k with
  | zero => rw [number_next_month year hpos (by omega)]
  | succ k ih =>
    have hnext := number_next_month year (by omega : 1 ≤ month + (k + 1)) (by omega)
    have hthis := ih (by omega)
    rw [← Nat.add_assoc, hnext]
    omega

theorem first_of_year_lt (year k : Nat) :
    julian_day year 12 1 + 31 ≤ julian_day (year + (k + 1)) 1 1 := by
  induction k with
  | zero => rw [number_next_year]
  | succ k ih =>
    have hmonths : julian_day (year + (k + 1)) 1 1 + days_in_month (year + (k + 1)) 1 ≤
        julian_day (year + (k + 1)) 12 1 := first_of_month_lt _ 10 le_rfl le_rfl
    have hdays := days_pos (year + (k + 1)) 1
    rw [← Nat.add_assoc, number_next_year]
    omega

theorem number_lt_of_before {d d' : Day} (h : d.Before d') : d.number < d'.number := by
  obtain ⟨year, month, day, hpos, hle, hday, hlast⟩ := d
  obtain ⟨year', month', day', hpos', hle', hday', hlast'⟩ := d'
  unfold Day.Before at h
  unfold Day.number
  dsimp only at h ⊢
  rw [number_in_month ⟨hpos, hle⟩ hday, number_in_month ⟨hpos', hle'⟩ hday']
  rcases h with hyear | ⟨rfl, hmonth | ⟨rfl, hbefore⟩⟩
  · obtain ⟨k, rfl⟩ : ∃ k, year' = year + (k + 1) := ⟨year' - year - 1, by omega⟩
    have hyears := first_of_year_lt year k
    have hend : julian_day year month 1 + days_in_month year month ≤ julian_day year 12 1 + 31 := by
      rcases Nat.lt_or_ge month 12 with hlt | hge
      · have := first_of_month_lt year (11 - month) hpos (by omega)
        have hdec : month + (11 - month + 1) = 12 := by omega
        rw [hdec] at this
        omega
      · obtain rfl : month = 12 := by omega
        rfl
    have hstart : julian_day (year + (k + 1)) 1 1 ≤ julian_day (year + (k + 1)) month' 1 := by
      rcases Nat.lt_or_ge 1 month' with hlt | hge
      · have := first_of_month_lt (year + (k + 1)) (month' - 2) le_rfl (by omega)
        have hmonth : 1 + (month' - 2 + 1) = month' := by omega
        rw [hmonth] at this
        omega
      · obtain rfl : month' = 1 := by omega
        rfl
    omega
  · obtain ⟨k, rfl⟩ : ∃ k, month' = month + (k + 1) := ⟨month' - month - 1, by omega⟩
    have hmonths := first_of_month_lt year k hpos hle'
    omega
  · omega

theorem number_lt_iff {d d' : Day} : d.number < d'.number ↔ d.Before d' := by
  constructor
  · intro h
    rcases d.before_or d' with hbefore | rfl | hafter
    · exact hbefore
    · exact absurd h (lt_irrefl _)
    · exact absurd h (number_lt_of_before hafter).asymm
  · exact number_lt_of_before

end order

end calendar
