-- Timestamps as text: milliseconds since the first day number, and a NULL that is written together
-- with its date.
import HeroDB.DateCasts

namespace hero.types

open decimals calendar

/-! ## The time of a day -/

def msPerDay : BitVec 64 := 24 * 60 * 60 * 1000

/-- Merge into ms since midnight. -/
def mergeTime (hour minute second ms : BitVec 32) : BitVec 32 :=
  ms + 1000 * second + 60 * 1000 * minute + 60 * 60 * 1000 * hour

/-- Split ms since midnight: the hour, the minute, the second and the millisecond. -/
def splitTime (value : BitVec 32) : BitVec 32 × BitVec 32 × BitVec 32 × BitVec 32 :=
  let ms := value % 1000
  let value := value / 1000
  let second := value % 60
  let value := value / 60
  let minute := value % 60
  let value := value / 60
  (value % 24, minute, second, ms)

/-- `"%u:%02u:%02u.%03u"`, without the last field if there are no milliseconds. -/
def time_text (hour minute second ms : Nat) : List Char :=
  Nat.toDigits 10 hour ++ ':' :: (zero_padded 2 minute ++ ':' :: (zero_padded 2 second ++
    if ms = 0 then [] else '.' :: zero_padded 3 ms))

namespace Timestamp

def castString (str : List Char) : Except String (BitVec 64) :=
  if str = ['N', 'U', 'L', 'L'] then .ok 0
  else do
    let error := "invalid timestamp format"
    let (date, rest) ← read_date error (some ' ') (trim str)
    let (hour, rest) ← read_field error (some ':') false rest 0
    let (minute, rest) ← read_field error (some ':') false rest 0
    let (second, rest) ← read_field error (some '.') true rest 0
    let (ms, _) ← read_field error none true rest 0
    if hour ≥ 24 ∨ minute ≥ 60 ∨ second ≥ 60 ∨ ms ≥ 1000 then .error error
    else return date.setWidth 64 * msPerDay + (mergeTime hour minute second ms).setWidth 64

/-- `operator<<` -/
def print (value : BitVec 64) : List Char :=
  let (hour, minute, second, ms) := splitTime ((value % msPerDay).setWidth 32)
  (if value = 0 then ['N', 'U', 'L', 'L'] else []) ++
    (print_date ((value / msPerDay).setWidth 32) ++
      ' ' :: time_text hour.toNat minute.toNat second.toNat ms.toNat)

end Timestamp

/-! ## Times without overflow -/

section times

/-- The range check of a time. -/
def TimeInRange (hour minute second ms : Nat) : Prop :=
  hour < 24 ∧ minute < 60 ∧ second < 60 ∧ ms < 1000

/-- The milliseconds since midnight. -/
def midnight_ms (hour minute second ms : Nat) : Nat :=
  ms + 1000 * second + 60000 * minute + 3600000 * hour

variable {hour minute second ms : Nat} {h m s t : BitVec 32}

theorem toNat_mod {w : Nat} {x d : BitVec w} {n k : Nat} (hx : x.toNat = n) (hd : d.toNat = k) :
    (x % d).toNat = n % k := by
  rw [BitVec.toNat_umod, hx, hd]

theorem toNat_mergeTime (hrange : TimeInRange h.toNat m.toNat s.toNat t.toNat) :
    (mergeTime h m s t).toNat = midnight_ms h.toNat m.toNat s.toNat t.toNat := by
  obtain ⟨hhour, hminute, hsecond, hms⟩ := hrange
  have hminutes : (60 * 1000 : BitVec 32) = 60000 := rfl
  have hhours : (60 * 60 * 1000 : BitVec 32) = 3600000 := rfl
  unfold mergeTime midnight_ms
  rw [hminutes, hhours]
  bv_omega

theorem midnight_ms_lt (hrange : TimeInRange hour minute second ms) :
    midnight_ms hour minute second ms < 86400000 := by
  obtain ⟨hhour, hminute, hsecond, hms⟩ := hrange
  unfold midnight_ms
  omega

theorem splitTime_merge (hrange : TimeInRange hour minute second ms) {value : BitVec 32}
    (hvalue : value.toNat = midnight_ms hour minute second ms) :
    (splitTime value).1.toNat = hour ∧ (splitTime value).2.1.toNat = minute ∧
      (splitTime value).2.2.1.toNat = second ∧ (splitTime value).2.2.2.toNat = ms := by
  obtain ⟨hhour, hminute, hsecond, hms⟩ := hrange
  unfold midnight_ms at hvalue
  unfold splitTime
  have hseconds : (value / 1000).toNat = second + 60 * minute + 3600 * hour := by
    have hdiv : value.toNat / 1000 = second + 60 * minute + 3600 * hour := by omega
    exact (toNat_div rfl rfl).trans hdiv
  have hminutes : (value / 1000 / 60).toNat = minute + 60 * hour := by
    have hdiv : (second + 60 * minute + 3600 * hour) / 60 = minute + 60 * hour := by omega
    exact (toNat_div hseconds rfl).trans hdiv
  have hhours : (value / 1000 / 60 / 60).toNat = hour := by
    have hdiv : (minute + 60 * hour) / 60 = hour := by omega
    exact (toNat_div hminutes rfl).trans hdiv
  dsimp only
  refine ⟨?_, ?_, ?_, ?_⟩
  · have hmod : hour % 24 = hour := Nat.mod_eq_of_lt hhour
    exact (toNat_mod hhours rfl).trans hmod
  · have hmod : (minute + 60 * hour) % 60 = minute := by omega
    exact (toNat_mod hminutes rfl).trans hmod
  · have hmod : (second + 60 * minute + 3600 * hour) % 60 = second := by omega
    exact (toNat_mod hseconds rfl).trans hmod
  · have hmod : (ms + 1000 * second + 60000 * minute + 3600000 * hour) % 1000 = ms := by omega
    exact (toNat_mod hvalue rfl).trans hmod

end times

/-! ## Timestamps -/

section timestamps

variable {hour minute second ms : Nat}

/-- The milliseconds of a day and a time. -/
def stored (d : Day) (hour minute second ms : Nat) : BitVec 64 :=
  BitVec.ofNat 64 (d.number * 86400000 + midnight_ms hour minute second ms)

theorem number_pos (d : Day) : 0 < d.number := by
  have hnumber := julian_day_eq d.year ⟨d.month_pos, d.month_le⟩ d.day_pos
  have hbehind : behind d.month ≤ 1 := by
    have := d.month_pos
    unfold behind
    omega
  unfold Day.number
  unfold day_of at hnumber
  omega

variable {d : Day}

theorem toNat_stored (hyear : d.year ≤ 9999) (hrange : TimeInRange hour minute second ms) :
    (stored d hour minute second ms).toNat =
      d.number * 86400000 + midnight_ms hour minute second ms := by
  have hless := number_lt hyear
  have hms := midnight_ms_lt hrange
  unfold stored
  rw [BitVec.toNat_ofNat, Nat.mod_eq_of_lt (by omega)]

/-- The day and the time of a stored timestamp. -/
theorem split_stored (hyear : d.year ≤ 9999) (hrange : TimeInRange hour minute second ms) :
    (stored d hour minute second ms / msPerDay).setWidth 32 = BitVec.ofNat 32 d.number ∧
      ((stored d hour minute second ms % msPerDay).setWidth 32).toNat =
        midnight_ms hour minute second ms := by
  have hless := number_lt hyear
  have hms := midnight_ms_lt hrange
  have hstored := toNat_stored hyear hrange
  have hday : msPerDay.toNat = 86400000 := rfl
  constructor
  · apply BitVec.eq_of_toNat_eq
    rw [BitVec.toNat_setWidth, BitVec.toNat_udiv, hstored, hday, toNat_number hyear]
    omega
  · rw [BitVec.toNat_setWidth, toNat_mod hstored hday]
    omega

/-- What is written for a timestamp of a day. -/
theorem print_stored (hyear : d.year ≤ 9999) (hrange : TimeInRange hour minute second ms) :
    Timestamp.print (stored d hour minute second ms) =
      date_text d.year d.month d.day ++ ' ' :: time_text hour minute second ms := by
  obtain ⟨hdate, htime⟩ := split_stored hyear hrange
  obtain ⟨hhour, hminute, hsecond, hms⟩ := splitTime_merge hrange htime
  have hpos := number_pos d
  have hzero : ¬stored d hour minute second ms = 0 := by
    intro hzero
    have htoNat := congrArg BitVec.toNat hzero
    rw [toNat_stored hyear hrange] at htoNat
    change _ = 0 at htoNat
    omega
  have hprint := print_number hyear
  unfold Date.print at hprint
  unfold Timestamp.print
  dsimp only
  rw [if_neg hzero, hdate, hprint, hhour, hminute, hsecond, hms, List.nil_append]

theorem digits_first {text : List Char} (h : Digits text) (hne : text ≠ []) (rest : List Char) :
    ∃ c, (text ++ rest).head? = some c ∧ c.isDigit = true := by
  cases text with
  | nil => exact absurd rfl hne
  | cons c text => exact ⟨c, rfl, h c (List.mem_cons_self ..)⟩

theorem blank_not_mem_time (hour minute second ms : Nat) : ' ' ∉ time_text hour minute second ms := by
  have hhour := not_mem_of_digits (digits_toDigits hour) (by rfl : ' '.isDigit = false)
  have hminute := not_mem_of_digits (digits_zero_padded 2 minute) (by rfl : ' '.isDigit = false)
  have hsecond := not_mem_of_digits (digits_zero_padded 2 second) (by rfl : ' '.isDigit = false)
  have hms := not_mem_of_digits (digits_zero_padded 3 ms) (by rfl : ' '.isDigit = false)
  unfold time_text
  split <;> simp [hhour, hminute, hsecond, hms]

/-- The blank between the date and the time is not trimmed. -/
theorem trim_timestamp (year month day hour minute second ms : Nat) :
    trim (date_text year month day ++ ' ' :: time_text hour minute second ms) =
      date_text year month day ++ ' ' :: time_text hour minute second ms := by
  apply trim_self
  · obtain ⟨c, hc, hdigit⟩ := digits_first (digits_zero_padded 4 year) (zero_padded_ne_nil 4 year)
      ('-' :: (zero_padded 2 month ++ '-' :: zero_padded 2 day) ++
        ' ' :: time_text hour minute second ms)
    unfold date_text
    rw [List.append_assoc, hc]
    intro hblank
    obtain rfl := Option.some.inj hblank
    exact absurd hdigit (by decide)
  · have hne : time_text hour minute second ms ≠ [] := by
      unfold time_text
      exact List.append_ne_nil_of_left_ne_nil Nat.toDigits_ne_nil _
    have hcons : date_text year month day ++ ' ' :: time_text hour minute second ms =
        (date_text year month day ++ [' ']) ++ time_text hour minute second ms := by simp
    rw [hcons, List.getLast?_append_of_ne_nil _ hne]
    exact fun h => blank_not_mem_time hour minute second ms (List.mem_of_getLast? h)

theorem time_in_range_iff (h m s t : BitVec 32) :
    (h ≥ 24 ∨ m ≥ 60 ∨ s ≥ 60 ∨ t ≥ 1000) ↔ ¬TimeInRange h.toNat m.toNat s.toNat t.toNat := by
  unfold TimeInRange
  bv_omega

/-- What a timestamp becomes. -/
theorem merge_stored {d : Day} (hyear : d.year ≤ 9999) {h m s t : BitVec 32}
    (hrange : TimeInRange h.toNat m.toNat s.toNat t.toNat) :
    (BitVec.ofNat 32 d.number).setWidth 64 * msPerDay + (mergeTime h m s t).setWidth 64 =
      stored d h.toNat m.toNat s.toNat t.toNat := by
  have hless := number_lt hyear
  have hms := midnight_ms_lt hrange
  have hday : msPerDay.toNat = 86400000 := rfl
  apply BitVec.eq_of_toNat_eq
  rw [toNat_stored hyear hrange, BitVec.toNat_add, BitVec.toNat_mul, BitVec.toNat_setWidth,
    BitVec.toNat_setWidth, toNat_number hyear, toNat_mergeTime hrange, hday]
  omega

/-- A timestamp that is read and is not NULL is the one of a day and a time. -/
theorem stored_of_castString {str : List Char} {value : BitVec 64}
    (h : Timestamp.castString str = .ok value) :
    value = 0 ∨ ∃ (d : Day) (hour minute second ms : Nat), d.year ≤ 9999 ∧
      TimeInRange hour minute second ms ∧ value = stored d hour minute second ms := by
  unfold Timestamp.castString at h
  by_cases hnull : str = ['N', 'U', 'L', 'L']
  · rw [if_pos hnull] at h
    exact .inl (Except.ok.inj h).symm
  · rw [if_neg hnull] at h
    simp only [bind_ok_iff, Prod.exists] at h
    obtain ⟨date, rest, hdate, hour, rest₁, -, minute, rest₂, -, second, rest₃, -, ms, rest₄, -, hlast⟩
      := h
    obtain ⟨f, hrange, rfl⟩ := (read_date_iff _ (stop_no_digit rfl)).mp hdate
    obtain ⟨d, hyear, hnumber, -⟩ := day_in_range hrange
    split at hlast
    · exact absurd hlast (by simp)
    · rename_i htime
      rw [time_in_range_iff, not_not] at htime
      have hless : d.year ≤ 9999 := by
        rw [hyear]
        exact hrange.1
      rw [← hnumber, merge_stored hless htime] at hlast
      exact .inr ⟨d, _, _, _, _, hless, htime, (Except.ok.inj hlast).symm⟩

section texts

variable {text : List Char} {n : Nat}

/-- A field with its stop. -/
theorem read_field_before (error : String) {c : Char} (atEnd : Bool) (rest : List Char)
    (htext : Digits text) (hn : number text = n) (hc : c.isDigit = false) :
    read_field error (some c) atEnd (text ++ c :: rest) 0 = .ok (BitVec.ofNat 32 n, rest) := by
  rw [read_field_iff (stop_no_digit hc)]
  exact ⟨text, htext, by rw [hn], .inr ⟨c, rfl, rfl⟩⟩

/-- A field at the end of the text. -/
theorem read_field_last (error : String) {stop : Option Char} (htext : Digits text)
    (hn : number text = n) (hstop : ∀ c ∈ stop, ¬c.isDigit = true) :
    read_field error stop true text 0 = .ok (BitVec.ofNat 32 n, []) := by
  rw [read_field_iff hstop]
  exact ⟨text, htext, by rw [hn], .inl ⟨rfl, rfl, rfl⟩⟩

end texts

/-- The text ends behind the seconds, or behind the milliseconds. -/
theorem read_seconds (error : String) (second ms : Nat) : ∃ tail,
    read_field error (some '.') true
      (zero_padded 2 second ++ if ms = 0 then [] else '.' :: zero_padded 3 ms) 0 =
        .ok (BitVec.ofNat 32 second, tail) ∧
      read_field error none true tail 0 = .ok (BitVec.ofNat 32 ms, []) := by
  have hsecond := digits_zero_padded 2 second
  have hnumber := number_zero_padded 2 second
  by_cases hzero : ms = 0
  · rw [if_pos hzero, hzero, List.append_nil]
    exact ⟨[], read_field_last error hsecond hnumber (stop_no_digit rfl), rfl⟩
  · rw [if_neg hzero]
    exact ⟨zero_padded 3 ms, read_field_before error true _ hsecond hnumber rfl,
      read_field_last error (digits_zero_padded 3 ms) (number_zero_padded 3 ms) (by simp)⟩

/-- What is written for a day and a time is read as the same timestamp. -/
theorem castString_stored {d : Day} (hyear : d.year ≤ 9999)
    (hrange : TimeInRange hour minute second ms) :
    Timestamp.castString (date_text d.year d.month d.day ++ ' ' :: time_text hour minute second ms) =
      .ok (stored d hour minute second ms) := by
  have hnull : date_text d.year d.month d.day ++ ' ' :: time_text hour minute second ms ≠
      ['N', 'U', 'L', 'L'] := by
    intro hnull
    have hblank : ' ' ∈ ['N', 'U', 'L', 'L'] := by
      rw [← hnull]
      simp
    exact absurd hblank (by decide)
  have hbits : ∀ {n}, n < 2 ^ 32 → (BitVec.ofNat 32 n).toNat = n := fun h => by
    rw [BitVec.toNat_ofNat, Nat.mod_eq_of_lt h]
  obtain ⟨hhour, hminute, hsecond, hms⟩ := hrange
  have htime : TimeInRange (BitVec.ofNat 32 hour).toNat (BitVec.ofNat 32 minute).toNat
      (BitVec.ofNat 32 second).toNat (BitVec.ofNat 32 ms).toNat := by
    rw [hbits (by omega), hbits (by omega), hbits (by omega), hbits (by omega)]
    exact ⟨hhour, hminute, hsecond, hms⟩
  have hmerge := merge_stored hyear htime
  rw [hbits (by omega), hbits (by omega), hbits (by omega), hbits (by omega)] at hmerge
  obtain ⟨tail, hseconds, hmilliseconds⟩ := read_seconds "invalid timestamp format" second ms
  unfold Timestamp.castString
  rw [if_neg hnull, trim_timestamp]
  simp only [bind_ok_iff, Prod.exists]
  refine ⟨_, _, read_date_text _ rfl (Day.in_range hyear) _,
    _, _, read_field_before _ _ _ (digits_toDigits hour) (number_toDigits hour) rfl,
    _, _, read_field_before _ _ _ (digits_zero_padded 2 minute) (number_zero_padded 2 minute) rfl,
    _, _, hseconds, _, _, hmilliseconds, ?_⟩
  rw [if_neg (by rw [time_in_range_iff, not_not]; exact htime)]
  exact congrArg Except.ok hmerge

/-- A date behind the word makes the text no NULL, and the word is no year. -/
theorem null_is_refused :
    Timestamp.castString (Timestamp.print 0) = .error "invalid timestamp format" := by
  obtain ⟨c, rest, hprint⟩ : ∃ c rest,
      Timestamp.print 0 = 'N' :: 'U' :: 'L' :: 'L' :: c :: rest := by
    have hne := zero_padded_ne_nil 4 (splitJulianDay ((0 / msPerDay).setWidth 32)).1.toNat
    unfold Timestamp.print print_date date_text
    dsimp only
    cases hyear : zero_padded 4 (splitJulianDay ((0 / msPerDay).setWidth 32)).1.toNat with
    | nil => exact absurd hyear hne
    | cons c years => exact ⟨c, _, rfl⟩
  have htrim := trim_append [] ('U' :: 'L' :: 'L' :: c :: rest) (by simp) (by decide : 'N' ≠ ' ')
  rw [List.nil_append, List.nil_append] at htrim
  have hyear : read_field "invalid timestamp format" (some '-') false
      ('N' :: ('U' :: 'L' :: 'L' :: c :: rest).rdropWhile (· == ' ')) 0 =
        .error "invalid timestamp format" := by
    rw [read_field, if_neg (by decide), if_neg (by decide)]
  rw [hprint]
  unfold Timestamp.castString
  rw [if_neg (by simp), htrim]
  unfold read_date
  dsimp only
  rw [hyear]
  rfl

end timestamps

/-- Every timestamp that is read is written as a text that is read as the same one, except NULL: the
text of its date follows the word. -/
theorem Timestamp.reads_back_all_but_null {str : List Char} {value : BitVec 64}
    (h : castString str = .ok value) :
    castString (print value) =
      if value = 0 then .error "invalid timestamp format" else .ok value := by
  rcases stored_of_castString h with rfl | ⟨d, hour, minute, second, ms, hyear, hrange, rfl⟩
  · exact null_is_refused
  · have hpos := number_pos d
    rw [print_stored hyear hrange, castString_stored hyear hrange, if_neg]
    intro hzero
    have htoNat := congrArg BitVec.toNat hzero
    rw [toNat_stored hyear hrange] at htoNat
    change _ = 0 at htoNat
    omega

/-- 1995-03-17 9:05:00 -/
theorem a_morning_is_read_back :
    Timestamp.castString (Timestamp.print 211662234300000) =
      if (211662234300000 : BitVec 64) = 0 then .error "invalid timestamp format"
      else .ok 211662234300000 :=
  @Timestamp.reads_back_all_but_null
    ['1', '9', '9', '5', '-', '0', '3', '-', '1', '7', ' ', '9', ':', '0', '5', ':', '0', '0'] _ rfl

end hero.types
