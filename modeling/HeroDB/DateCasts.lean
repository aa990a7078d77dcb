-- The dates of the TPC-H relations: the day numbers that `castString` stores for them, and the text
-- that `operator<<` writes back.
import HeroDB.NumberCasts
import HeroDB.Lib.Calendar

namespace hero.types

open decimals calendar

/-! ## Day numbers -/

/-- Algorithm from the Calendar FAQ. -/
def mergeJulianDay (year month day : BitVec 32) : BitVec 32 :=
  let a := (14 - month) / 12
  let y := year + 4800 - a
  let m := month + 12 * a - 3
  day + (153 * m + 2) / 5 + 365 * y + y / 4 - y / 100 + y / 400 - 32045

/-- Algorithm from the Calendar FAQ: the year, the month and the day. -/
def splitJulianDay (jd : BitVec 32) : BitVec 32 × BitVec 32 × BitVec 32 :=
  let a := jd + 32044
  let b := (4 * a + 3) / 146097
  let c := a - 146097 * b / 4
  let d := (4 * c + 3) / 1461
  let e := c - 1461 * d / 4
  let m := (5 * e + 2) / 153
  (100 * b + d - 4800 + m / 10, m + 3 - 12 * (m / 10), e - (153 * m + 2) / 5 + 1)

/-! ## Dates as text -/

/-- One field of a date or a time: digits up to the character `stop`, or to the end where the text may
end. What follows is read by the next field. -/
def read_field (error : String) (stop : Option Char) (atEnd : Bool) :
    List Char → BitVec 32 → Except String (BitVec 32 × List Char)
  | [], value => if atEnd then .ok (value, []) else .error error
  | c :: rest, value =>
    if some c = stop then .ok (value, rest)
    else if c.isDigit then
      read_field error stop atEnd rest (10 * value + BitVec.ofNat 32 (digit c))
    else .error error

/-- The year, the month and the day, where the day ends at `stop`. -/
def read_date (error : String) (stop : Option Char) (str : List Char) :
    Except String (BitVec 32 × List Char) := do
  let (year, rest) ← read_field error (some '-') false str 0
  let (month, rest) ← read_field error (some '-') false rest 0
  let (day, rest) ← read_field error stop true rest 0
  if year > 9999 ∨ month < 1 ∨ month > 12 ∨ day < 1 ∨ day > 31 then .error error
  else return (mergeJulianDay year month day, rest)

/-- `"%04u-%02u-%02u"` -/
def date_text (year month day : Nat) : List Char :=
  zero_padded 4 year ++ '-' :: (zero_padded 2 month ++ '-' :: zero_padded 2 day)

/-- The text of a day number. -/
def print_date (jd : BitVec 32) : List Char :=
  let (year, month, day) := splitJulianDay jd
  date_text year.toNat month.toNat day.toNat

namespace Date

def castString (str : List Char) : Except String (BitVec 32) := do
  let (value, _) ← read_date "invalid date format" none (trim str)
  return value

/-- `operator<<` -/
def print (value : BitVec 32) : List Char := print_date value

end Date

/-- `extractYear` -/
def extractYear (d : BitVec 32) : BitVec 32 := (splitJulianDay d).1

/-! ## Day numbers without overflow -/

section numbers

variable {year month day : BitVec 32}

theorem toNat_div {x d : BitVec 32} {n k : Nat} (hx : x.toNat = n) (hd : d.toNat = k) :
    (x / d).toNat = n / k := by
  rw [BitVec.toNat_udiv, hx, hd]

/-- No date up to the year 9999 takes the day number out of 32 bits. -/
theorem toNat_mergeJulianDay (hyear : year.toNat ≤ 9999)
    (hmonth : 1 ≤ month.toNat ∧ month.toNat ≤ 12) (hday : 1 ≤ day.toNat ∧ day.toNat ≤ 31) :
    (mergeJulianDay year month day).toNat = julian_day year.toNat month.toNat day.toNat := by
  unfold mergeJulianDay julian_day
  dsimp only
  have ha : ((14 - month) / 12).toNat = (14 - month.toNat) / 12 := toNat_div (by bv_omega) rfl
  rw [← ha]
  generalize (14 - month) / 12 = a at *
  have hy : (year + 4800 - a).toNat = year.toNat + 4800 - a.toNat := by bv_omega
  have hm : (month + 12 * a - 3).toNat = month.toNat + 12 * a.toNat - 3 := by bv_omega
  rw [← hy, ← hm]
  have hyless : (year + 4800 - a).toNat ≤ 14799 ∧ 4799 ≤ (year + 4800 - a).toNat := by omega
  have hmless : (month + 12 * a - 3).toNat ≤ 21 := by omega
  generalize year + 4800 - a = y at *
  generalize month + 12 * a - 3 = m at *
  have hdays : ((153 * m + 2) / 5).toNat = (153 * m.toNat + 2) / 5 := toNat_div (by bv_omega) rfl
  have hfour : (y / 4).toNat = y.toNat / 4 := toNat_div rfl rfl
  have hcentury : (y / 100).toNat = y.toNat / 100 := toNat_div rfl rfl
  have hfourth : (y / 400).toNat = y.toNat / 400 := toNat_div rfl rfl
  rw [← hdays, ← hfour, ← hcentury, ← hfourth]
  generalize (153 * m + 2) / 5 = e at *
  generalize y / 4 = q at *
  generalize y / 100 = r at *
  generalize y / 400 = s at *
  bv_omega

/-- The first half of the split: the century, the year in it and the day in the year. -/
theorem split_year {y e : Nat} (hlong : long y e) (hdays : day_of y e < 2 ^ 23) {a b c d : BitVec 32}
    (ha : a.toNat = day_of y e) (hb : b = (4 * a + 3) / 146097) (hc : c = a - 146097 * b / 4)
    (hd : d = (4 * c + 3) / 1461) :
    b.toNat = y / 100 ∧ d.toNat = y % 100 ∧ (c - 1461 * d / 4).toNat = e := by
  have hless := hlong.1
  have hsmall : y < 2 ^ 15 := by
    unfold day_of at hdays
    omega
  have hcentury : b.toNat = y / 100 := by
    rw [hb, ← century_of hlong]
    exact toNat_div (by bv_omega) rfl
  have hinside : c.toNat = e + 365 * (y % 100) + y % 100 / 4 := by
    have hquarter : (146097 * b / 4).toNat = 146097 * (y / 100) / 4 := toNat_div (by bv_omega) rfl
    have hdays' := day_of_century y e
    have hle : 146097 * (y / 100) / 4 ≤ day_of y e := by
      rw [day_of_eq]
      omega
    rw [hc]
    generalize 146097 * b / 4 = x at *
    bv_omega
  have hyear : d.toNat = y % 100 := by
    rw [hd, ← year_of hlong]
    exact toNat_div (by bv_omega) rfl
  have hyears : 1461 * (y % 100) / 4 = 365 * (y % 100) + y % 100 / 4 := by omega
  have hquarter : (1461 * d / 4).toNat = 365 * (y % 100) + y % 100 / 4 := by
    rw [← hyears]
    exact toNat_div (by bv_omega) rfl
  refine ⟨hcentury, hyear, ?_⟩
  generalize 1461 * d / 4 = x at *
  bv_omega

/-- The second half: the month and the day of a day in a year that begins in March. -/
theorem split_day (d : Day) {e m : BitVec 32} (he : e.toNat = day_in_march_year d.month d.day)
    (hm : m = (5 * e + 2) / 153) :
    (m / 10).toNat = behind d.month ∧ (m + 3 - 12 * (m / 10)).toNat = d.month ∧
      (e - (153 * m + 2) / 5 + 1).toNat = d.day := by
  have hmonth := d.month_pos
  have hmonth' := d.month_le
  have hlate : (d.month + 12 * behind d.month - 3) / 10 = behind d.month := by
    unfold behind
    omega
  have hday := d.day_pos
  have hless := d.long.1
  have hmonths := month_of d
  have hfirst : (153 * (d.month + 12 * behind d.month - 3) + 2) / 5 + (d.day - 1) =
      day_in_march_year d.month d.day := rfl
  have hbehind : behind d.month = (14 - d.month) / 12 := rfl
  generalize day_in_march_year d.month d.day = day at *
  have hnumber : m.toNat = d.month + 12 * behind d.month - 3 := by
    rw [hm, ← hmonths]
    exact toNat_div (by bv_omega) rfl
  have hten : (m / 10).toNat = behind d.month := by
    rw [← hlate]
    exact toNat_div hnumber rfl
  have hstart : ((153 * m + 2) / 5).toNat =
      (153 * (d.month + 12 * behind d.month - 3) + 2) / 5 := toNat_div (by bv_omega) rfl
  generalize m / 10 = t at *
  generalize (153 * m + 2) / 5 = u at *
  exact ⟨hten, by bv_omega, by bv_omega⟩

/-- The number of a day up to the year 9999 is split into that day. -/
theorem splitJulianDay_number {d : Day} (hyear : d.year ≤ 9999) {jd : BitVec 32}
    (hjd : jd.toNat = d.number) :
    (splitJulianDay jd).1.toNat = d.year ∧ (splitJulianDay jd).2.1.toNat = d.month ∧
      (splitJulianDay jd).2.2.toNat = d.day := by
  have hnumber := julian_day_eq d.year ⟨d.month_pos, d.month_le⟩ d.day_pos
  have hlong := d.long
  have hless := hlong.1
  have hbehind : behind d.month ≤ 1 := by
    have hpos := d.month_pos
    unfold behind
    omega
  have hsplit : ∀ y : Nat, 100 * (y / 100) + y % 100 = y := fun y => Nat.div_add_mod y 100
  have hdays : day_of (d.year + 4800 - behind d.month) (day_in_march_year d.month d.day) <
      2 ^ 23 := by
    unfold day_of
    omega
  have ha : (jd + 32044).toNat =
      day_of (d.year + 4800 - behind d.month) (day_in_march_year d.month d.day) := by
    rw [← hnumber] at hdays ⊢
    unfold Day.number at hjd
    bv_omega
  obtain ⟨hcentury, hinside, he⟩ := split_year hlong hdays ha rfl rfl rfl
  obtain ⟨hten, hmonth, hday⟩ := split_day d he rfl
  refine ⟨?_, hmonth, hday⟩
  have hyears := hsplit (d.year + 4800 - behind d.month)
  unfold splitJulianDay
  dsimp only
  generalize (d.year + 4800 - behind d.month) / 100 = century at *
  generalize (d.year + 4800 - behind d.month) % 100 = inside at *
  bv_omega

end numbers

/-! ## The fields of a text -/

section fields

variable {error : String} {stop : Option Char} {atEnd : Bool} {str text rest : List Char}
  {value : BitVec 32}

theorem read_field_digits (rest : List Char) (n : Nat) (hstop : ∀ c ∈ stop, ¬c.isDigit = true)
    (h : Digits text) :
    read_field error stop atEnd (text ++ rest) (BitVec.ofNat 32 n) =
      read_field error stop atEnd rest (BitVec.ofNat 32 (10 ^ text.length * n + number text)) := by
  induction text generalizing n with
  | nil => simp
  | cons c text ih =>
    obtain ⟨hc, htext⟩ := digits_cons.mp h
    have hgoes : ¬some c = stop := fun hsame => hstop c hsame.symm hc
    have hdigit : 10 * BitVec.ofNat 32 n + BitVec.ofNat 32 (digit c) =
        BitVec.ofNat 32 (10 * n + digit c) := by
      rw [BitVec.ofNat_add, BitVec.ofNat_mul]
      rfl
    rw [List.cons_append, read_field, if_neg hgoes, if_pos hc, hdigit, ih _ htext, shift_digits]

/-- A field is digits, and a character behind them where the text does not end. -/
theorem read_field_iff (hstop : ∀ c ∈ stop, ¬c.isDigit = true) :
    read_field error stop atEnd str 0 = .ok (value, rest) ↔
      ∃ text, Digits text ∧ value = BitVec.ofNat 32 (number text) ∧
        (atEnd = true ∧ str = text ∧ rest = [] ∨ ∃ c, stop = some c ∧ str = text ++ c :: rest) := by
  have hzero : (0 : BitVec 32) = BitVec.ofNat 32 0 := rfl
  have hread : ∀ text behind, Digits text →
      read_field error stop atEnd (text ++ behind) 0 =
        read_field error stop atEnd behind (BitVec.ofNat 32 (number text)) := by
    intro text behind h
    rw [hzero, read_field_digits behind 0 hstop h, Nat.mul_zero, Nat.zero_add]
  constructor
  · intro h
    obtain ⟨text, behind, rfl, htext, hbehind⟩ := digits_in_front str
    rw [hread text behind htext] at h
    refine ⟨text, htext, ?_⟩
    cases behind with
    | nil =>
      rw [read_field] at h
      split at h
      · rename_i hend
        obtain ⟨rfl, rfl⟩ := Prod.mk.inj (Except.ok.inj h)
        exact ⟨rfl, .inl ⟨hend, List.append_nil _, rfl⟩⟩
      · exact absurd h (by simp)
    | cons c behind =>
      rw [read_field] at h
      split at h
      · rename_i hc
        obtain ⟨rfl, rfl⟩ := Prod.mk.inj (Except.ok.inj h)
        exact ⟨rfl, .inr ⟨c, hc.symm, rfl⟩⟩
      · rw [if_neg (hbehind c rfl)] at h
        exact absurd h (by simp)
  · rintro ⟨text, htext, rfl, ⟨hend, rfl, rfl⟩ | ⟨c, rfl, rfl⟩⟩
    · have hall := hread str [] htext
      rw [List.append_nil] at hall
      rw [hall, read_field, if_pos hend]
    · rw [hread text _ htext, read_field, if_pos rfl]

theorem stop_no_digit {c : Char} (hc : c.isDigit = false) : ∀ x ∈ some c, ¬x.isDigit = true := by
  intro x hx
  obtain rfl := Option.some.inj hx
  rw [hc]
  decide

theorem bind_ok_iff {α β : Type} {x : Except String α} {f : α → Except String β} {b : β} :
    x >>= f = .ok b ↔ ∃ a, x = .ok a ∧ f a = .ok b := by
  cases x with
  | error message => simp [bind, Except.bind]
  | ok a =>
    constructor
    · exact fun h => ⟨a, rfl, h⟩
    · rintro ⟨_, ha, h⟩
      obtain rfl := Except.ok.inj ha
      exact h

/-- The range check. -/
def InRange (year month day : Nat) : Prop :=
  year ≤ 9999 ∧ (1 ≤ month ∧ month ≤ 12) ∧ (1 ≤ day ∧ day ≤ 31)

theorem in_range_iff (year month day : BitVec 32) :
    (year > 9999 ∨ month < 1 ∨ month > 12 ∨ day < 1 ∨ day > 31) ↔
      ¬InRange year.toNat month.toNat day.toNat := by
  unfold InRange
  bv_omega

/-- The three fields of a date, and what is left of the text. -/
structure DateFields (stop : Option Char) (str rest : List Char) where
  years : List Char
  months : List Char
  days : List Char
  years_digits : Digits years
  months_digits : Digits months
  days_digits : Digits days
  tail : List Char
  text_eq : str = years ++ '-' :: (months ++ '-' :: tail)
  tail_eq : tail = days ∧ rest = [] ∨ ∃ c, stop = some c ∧ tail = days ++ c :: rest

namespace DateFields

variable (f : DateFields stop str rest)

/-- The fields as 32 bits hold them. -/
def year : Nat := number f.years % 2 ^ 32

def month : Nat := number f.months % 2 ^ 32

def day : Nat := number f.days % 2 ^ 32

end DateFields

theorem mergeJulianDay_eq {year month day : BitVec 32}
    (h : InRange year.toNat month.toNat day.toNat) :
    mergeJulianDay year month day =
      BitVec.ofNat 32 (julian_day year.toNat month.toNat day.toNat) := by
  obtain ⟨hyear, hmonth, hday⟩ := h
  rw [← toNat_mergeJulianDay hyear hmonth hday, BitVec.ofNat_toNat, BitVec.setWidth_eq]

theorem mergeJulianDay_of_range {year month day : Nat} (h : InRange year month day) :
    mergeJulianDay (BitVec.ofNat 32 year) (BitVec.ofNat 32 month) (BitVec.ofNat 32 day) =
      BitVec.ofNat 32 (julian_day year month day) := by
  have hword : ∀ n : Nat, n ≤ 9999 → (BitVec.ofNat 32 n).toNat = n := by
    intro n hn
    rw [BitVec.toNat_ofNat, Nat.mod_eq_of_lt (by omega)]
  obtain ⟨hyear, hmonth, hday⟩ := h
  have hy := hword year hyear
  have hm := hword month (by omega)
  have hd := hword day (by omega)
  have hmerge := @mergeJulianDay_eq (BitVec.ofNat 32 year) (BitVec.ofNat 32 month)
    (BitVec.ofNat 32 day)
  rw [hy, hm, hd] at hmerge
  exact hmerge ⟨hyear, hmonth, hday⟩

theorem read_date_iff (error : String) (hstop : ∀ c ∈ stop, ¬c.isDigit = true) :
    read_date error stop str = .ok (value, rest) ↔
      ∃ f : DateFields stop str rest, InRange f.year f.month f.day ∧
        value = BitVec.ofNat 32 (julian_day f.year f.month f.day) := by
  have hdash : ∀ c ∈ some '-', ¬c.isDigit = true := stop_no_digit rfl
  unfold read_date
  simp only [bind_ok_iff, Prod.exists]
  constructor
  · rintro ⟨year, rest₁, hyear, month, rest₂, hmonth, day, rest₃, hday, hlast⟩
    obtain ⟨years, hyears, rfl, hfirst⟩ := (read_field_iff hdash).mp hyear
    obtain ⟨months, hmonths, rfl, hsecond⟩ := (read_field_iff hdash).mp hmonth
    obtain ⟨days, hdays, rfl, hthird⟩ := (read_field_iff hstop).mp hday
    rcases hfirst with ⟨h, -⟩ | ⟨c, hc, rfl⟩
    · exact absurd h (by simp)
    rcases hsecond with ⟨h, -⟩ | ⟨c', hc', rfl⟩
    · exact absurd h (by simp)
    obtain rfl := Option.some.inj hc
    obtain rfl := Option.some.inj hc'
    split at hlast
    · exact absurd hlast (by simp)
    · rename_i hrange
      obtain ⟨rfl, rfl⟩ := Prod.mk.inj (Except.ok.inj hlast)
      rw [in_range_iff, not_not] at hrange
      refine ⟨⟨years, months, days, hyears, hmonths, hdays, rest₂, rfl, ?_⟩, ?_, ?_⟩
      · exact hthird.imp (fun h => h.2) id
      · simpa [DateFields.year, DateFields.month, DateFields.day] using hrange
      · rw [mergeJulianDay_eq hrange]
        simp [DateFields.year, DateFields.month, DateFields.day]
  · rintro ⟨f, hrange, rfl⟩
    obtain ⟨years, months, days, hyears, hmonths, hdays, tail, rfl, htail⟩ := f
    refine ⟨_, _, (read_field_iff hdash).mpr ⟨years, hyears, rfl, .inr ⟨'-', rfl, rfl⟩⟩,
      _, _, (read_field_iff hdash).mpr ⟨months, hmonths, rfl, .inr ⟨'-', rfl, rfl⟩⟩,
      _, _, (read_field_iff hstop).mpr ⟨days, hdays, rfl, htail.imp (fun h => ⟨rfl, h⟩) id⟩, ?_⟩
    have hbits : InRange (BitVec.ofNat 32 (number years)).toNat (BitVec.ofNat 32 (number months)).toNat
        (BitVec.ofNat 32 (number days)).toNat := by
      simpa [DateFields.year, DateFields.month, DateFields.day] using hrange
    rw [if_neg (by rw [in_range_iff, not_not]; exact hbits), mergeJulianDay_eq hbits]
    simp [DateFields.year, DateFields.month, DateFields.day, pure, Except.pure]

end fields

/-! ## Dates -/

section dates

variable {year month day : Nat} {str : List Char} {value : BitVec 32}

theorem castString_iff_fields :
    Date.castString str = .ok value ↔
      ∃ f : DateFields none (trim str) [], InRange f.year f.month f.day ∧
        value = BitVec.ofNat 32 (julian_day f.year f.month f.day) := by
  unfold Date.castString
  rw [← read_date_iff "invalid date format" (by simp)]
  constructor
  · intro h
    obtain ⟨⟨value', rest⟩, hread, hvalue⟩ := bind_ok_iff.mp h
    obtain rfl := Except.ok.inj hvalue
    obtain ⟨f, -, -⟩ := (read_date_iff _ (by simp)).mp hread
    rcases f.tail_eq with ⟨-, rfl⟩ | ⟨c, hc, -⟩
    · exact hread
    · exact absurd hc (by simp)
  · intro h
    exact bind_ok_iff.mpr ⟨_, h, rfl⟩

theorem blank_not_mem_fields {years months days : List Char} (hyears : Digits years)
    (hmonths : Digits months) (hdays : Digits days) :
    ' ' ∉ years ++ '-' :: (months ++ '-' :: days) := by
  have hblank : ∀ {text}, Digits text → ' ' ∉ text := fun h => not_mem_of_digits h rfl
  simp [hblank hyears, hblank hmonths, hblank hdays]

theorem castString_fields {years months days : List Char} (hyears : Digits years)
    (hmonths : Digits months) (hdays : Digits days) (j k : Nat)
    (h : InRange (number years % 2 ^ 32) (number months % 2 ^ 32) (number days % 2 ^ 32)) :
    Date.castString (blanks j ++ (years ++ '-' :: (months ++ '-' :: days) ++ blanks k)) =
      .ok (BitVec.ofNat 32 (julian_day (number years % 2 ^ 32) (number months % 2 ^ 32)
        (number days % 2 ^ 32))) := by
  have hblank := blank_not_mem_fields hyears hmonths hdays
  have htrim := trim_self (fun h => hblank (List.mem_of_head? h))
    (fun h => hblank (List.mem_of_getLast? h))
  have hall := trim_blanks j k (years ++ '-' :: (months ++ '-' :: days))
  rw [castString_iff_fields]
  exact ⟨⟨years, months, days, hyears, hmonths, hdays, days, hall.trans htrim, .inl ⟨rfl, rfl⟩⟩, h,
    rfl⟩

theorem number_date_text (h : InRange year month day) :
    number (zero_padded 4 year) % 2 ^ 32 = year ∧ number (zero_padded 2 month) % 2 ^ 32 = month ∧
      number (zero_padded 2 day) % 2 ^ 32 = day := by
  unfold InRange at h
  simp only [number_zero_padded]
  omega

/-- The text of a date in range is read up to the character behind it. -/
theorem read_date_text (error : String) {c : Char} (hc : c.isDigit = false)
    (h : InRange year month day) (rest : List Char) :
    read_date error (some c) (date_text year month day ++ c :: rest) =
      .ok (BitVec.ofNat 32 (julian_day year month day), rest) := by
  obtain ⟨hyears, hmonths, hdays⟩ := number_date_text h
  rw [read_date_iff _ (stop_no_digit hc)]
  refine ⟨⟨_, _, _, digits_zero_padded 4 year, digits_zero_padded 2 month,
    digits_zero_padded 2 day, _, by simp [date_text], .inr ⟨c, rfl, rfl⟩⟩, ?_⟩
  unfold DateFields.year DateFields.month DateFields.day
  dsimp only
  rw [hyears, hmonths, hdays]
  exact ⟨h, rfl⟩

/-- The text of a date in range is read as its day number. -/
theorem castString_date_text (h : InRange year month day) (j k : Nat) :
    Date.castString (blanks j ++ (date_text year month day ++ blanks k)) =
      .ok (BitVec.ofNat 32 (julian_day year month day)) := by
  obtain ⟨hyears, hmonths, hdays⟩ := number_date_text h
  have hcast := castString_fields (digits_zero_padded 4 year) (digits_zero_padded 2 month)
    (digits_zero_padded 2 day) j k
  rw [hyears, hmonths, hdays] at hcast
  exact hcast h

variable {d : Day}

theorem number_lt (hyear : d.year ≤ 9999) : d.number < 2 ^ 23 := by
  have hnumber := julian_day_eq d.year ⟨d.month_pos, d.month_le⟩ d.day_pos
  have hlong := d.long.1
  unfold Day.number
  unfold day_of at hnumber
  omega

theorem toNat_number (hyear : d.year ≤ 9999) : (BitVec.ofNat 32 d.number).toNat = d.number := by
  have hless := number_lt hyear
  rw [BitVec.toNat_ofNat, Nat.mod_eq_of_lt (by omega)]

theorem toInt_number (hyear : d.year ≤ 9999) : (BitVec.ofNat 32 d.number).toInt = d.number := by
  have hless := number_lt hyear
  rw [BitVec.toInt_eq_toNat_of_lt (by rw [toNat_number hyear]; omega), toNat_number hyear]

theorem Day.in_range (hyear : d.year ≤ 9999) : InRange d.year d.month d.day := by
  refine ⟨hyear, ⟨d.month_pos, d.month_le⟩, d.day_pos, ?_⟩
  have hlast := d.day_le
  unfold days_in_month at hlast
  split at hlast <;> (try split at hlast) <;> omega

/-- A day is written as its year, its month and its day. -/
theorem print_number (hyear : d.year ≤ 9999) :
    Date.print (BitVec.ofNat 32 d.number) = date_text d.year d.month d.day := by
  obtain ⟨hy, hm, hd⟩ := splitJulianDay_number hyear (toNat_number hyear)
  unfold Date.print print_date
  dsimp only
  rw [hy, hm, hd]

/-- The day of a date in range: its own, or one in the next month. -/
theorem day_in_range (h : InRange year month day) :
    ∃ d : Day, d.year = year ∧ d.number = julian_day year month day ∧
      date_text d.year d.month d.day = if day ≤ days_in_month year month then
        date_text year month day
      else date_text year (month + 1) (day - days_in_month year month) := by
  obtain ⟨hyear, hmonth, hday⟩ := h
  by_cases hin : day ≤ days_in_month year month
  · rw [if_pos hin]
    exact ⟨⟨year, month, day, hmonth.1, hmonth.2, hday.1, hin⟩, rfl, rfl, rfl⟩
  · -- December has 31 days.
    have hlt : month < 12 := by
      by_contra hge
      obtain rfl : month = 12 := by omega
      exact hin hday.2
    have hdays : ∀ m, 28 ≤ days_in_month year m := by
      intro m
      unfold days_in_month
      split <;> (try split) <;> omega
    have hover : day - days_in_month year month ≤ days_in_month year (month + 1) := by
      have hthis := hdays month
      have hnext := hdays (month + 1)
      omega
    rw [if_neg hin]
    refine ⟨⟨year, month + 1, day - days_in_month year month, by omega, hlt, by omega, hover⟩, rfl,
      ?_, rfl⟩
    unfold Day.number
    dsimp only
    rw [number_in_month hmonth hday.1, number_in_month (by omega) (by omega),
      number_next_month year hmonth.1 hlt]
    omega

end dates

/-- A Date accepts three numbers with dashes between them, with blanks around them, when their values
in 32 bits are in range, and stores the day number. -/
theorem Date.accepts_the_fields (str : List Char) (value : BitVec 32) :
    castString str = .ok value ↔
      ∃ (years months days : List Char) (j k : Nat),
        str = blanks j ++ (years ++ '-' :: (months ++ '-' :: days) ++ blanks k) ∧
        Digits years ∧ Digits months ∧ Digits days ∧
        InRange (number years % 2 ^ 32) (number months % 2 ^ 32) (number days % 2 ^ 32) ∧
        value = BitVec.ofNat 32 (julian_day (number years % 2 ^ 32) (number months % 2 ^ 32)
          (number days % 2 ^ 32)) := by
  constructor
  · intro h
    obtain ⟨f, hrange, rfl⟩ := castString_iff_fields.mp h
    obtain ⟨j, k, hstr⟩ := trim_between str
    refine ⟨f.years, f.months, f.days, j, k, ?_, f.years_digits, f.months_digits, f.days_digits,
      hrange, rfl⟩
    rcases f.tail_eq with ⟨htail, -⟩ | ⟨c, hc, -⟩
    · rw [← htail, ← f.text_eq]
      exact hstr
    · exact absurd hc (by simp)
  · rintro ⟨years, months, days, j, k, rfl, hyears, hmonths, hdays, hrange, rfl⟩
    exact castString_fields hyears hmonths hdays j k hrange

/-- A day number is split into the day that it was merged from. -/
theorem split_of_merged {year month day : Nat} (h : InRange year month day)
    (hday : day ≤ days_in_month year month) :
    splitJulianDay (BitVec.ofNat 32 (julian_day year month day)) =
      (BitVec.ofNat 32 year, BitVec.ofNat 32 month, BitVec.ofNat 32 day) := by
  let d : Day := ⟨year, month, day, h.2.1.1, h.2.1.2, h.2.2.1, hday⟩
  have hword : ∀ (w : BitVec 32) (n : Nat), w.toNat = n → w = BitVec.ofNat 32 n := by
    rintro w n rfl
    rw [BitVec.ofNat_toNat, BitVec.setWidth_eq]
  obtain ⟨hy, hm, hd⟩ := splitJulianDay_number (d := d) h.1 (toNat_number (d := d) h.1)
  exact Prod.ext (hword _ _ hy) (Prod.ext (hword _ _ hm) (hword _ _ hd))

/-- A date in range is stored as its day number, which is split into the same day if the month has it.
It is written back as it was, or, if its month has no such day, as the day in the next month that is
so many days later. -/
theorem Date.writes_the_day {year month day : Nat} (h : InRange year month day) (j k : Nat) :
    ∃ value, castString (blanks j ++ (date_text year month day ++ blanks k)) = .ok value ∧
      value = mergeJulianDay (BitVec.ofNat 32 year) (BitVec.ofNat 32 month) (BitVec.ofNat 32 day) ∧
      value.toNat = julian_day year month day ∧
      (day ≤ days_in_month year month → splitJulianDay value =
        (BitVec.ofNat 32 year, BitVec.ofNat 32 month, BitVec.ofNat 32 day)) ∧
      print value = (if day ≤ days_in_month year month then date_text year month day
        else date_text year (month + 1) (day - days_in_month year month)) ∧
      (extractYear value).toNat = year := by
  obtain ⟨d, hyear, hnumber, htext⟩ := day_in_range h
  have hless : d.year ≤ 9999 := by
    rw [hyear]
    exact h.1
  refine ⟨_, castString_date_text h j k, (mergeJulianDay_of_range h).symm, ?_, split_of_merged h, ?_⟩
  · rw [← hnumber]
    exact toNat_number hless
  · rw [← hnumber, ← htext, ← hyear]
    exact ⟨print_number hless, (splitJulianDay_number hless (toNat_number hless)).1⟩

/-- The 30th of February is written as the 2nd of March. -/
theorem the_thirtieth_of_february :
    ∃ value, Date.castString (blanks 0 ++ (date_text 1995 2 30 ++ blanks 0)) = .ok value ∧
      value = mergeJulianDay (BitVec.ofNat 32 1995) (BitVec.ofNat 32 2) (BitVec.ofNat 32 30) ∧
      value.toNat = julian_day 1995 2 30 ∧
      (30 ≤ days_in_month 1995 2 → splitJulianDay value =
        (BitVec.ofNat 32 1995, BitVec.ofNat 32 2, BitVec.ofNat 32 30)) ∧
      Date.print value = (if 30 ≤ days_in_month 1995 2 then date_text 1995 2 30
        else date_text 1995 (2 + 1) (30 - days_in_month 1995 2)) ∧
      (extractYear value).toNat = 1995 :=
  Date.writes_the_day (by unfold InRange; omega) 0 0

/-- The stored dates are in the order of the calendar, and count its days. -/
theorem Date.counts_the_days {d d' : Day} (hyear : d.year ≤ 9999) (hyear' : d'.year ≤ 9999) :
    ∃ value value', castString (date_text d.year d.month d.day) = .ok value ∧
      castString (date_text d'.year d'.month d'.day) = .ok value' ∧
      (value.toInt < value'.toInt ↔ d.Before d') ∧
      ∀ n : Nat, value'.toInt = value.toInt + n ↔ d' = Day.next^[n] d := by
  have hcast := castString_date_text (Day.in_range hyear) 0 0
  have hcast' := castString_date_text (Day.in_range hyear') 0 0
  simp only [blanks, List.replicate_zero, List.nil_append, List.append_nil] at hcast hcast'
  refine ⟨_, _, hcast, hcast', ?_, ?_⟩
  · have hnumbers := toInt_number hyear
    have hnumbers' := toInt_number hyear'
    unfold Day.number at hnumbers hnumbers'
    rw [hnumbers, hnumbers', Nat.cast_lt]
    exact number_lt_iff
  · intro n
    have hnumbers := toInt_number hyear
    have hnumbers' := toInt_number hyear'
    unfold Day.number at hnumbers hnumbers'
    rw [hnumbers, hnumbers', ← Nat.cast_add, Nat.cast_inj]
    constructor
    · intro h
      apply number_injective
      rw [number_iterate]
      exact h
    · rintro rfl
      exact number_iterate d n

/-- The last day of a year and the first of the next one. -/
def new_years_eve : Day := ⟨1998, 12, 31, by omega, by omega, by omega, by decide⟩

theorem a_year_ends : ∃ value value',
    Date.castString (date_text 1998 12 31) = .ok value ∧
      Date.castString (date_text 1999 1 1) = .ok value' ∧
      (value.toInt < value'.toInt ↔ new_years_eve.Before new_years_eve.next) ∧
      ∀ n : Nat, value'.toInt = value.toInt + n ↔ new_years_eve.next = Day.next^[n] new_years_eve :=
  @Date.counts_the_days new_years_eve new_years_eve.next (by decide) (by decide)

end hero.types
