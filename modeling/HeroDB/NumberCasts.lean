-- The numbers of the TPC-H relations as text: how `castString` reads an Integer and a Numeric, and
-- how `operator<<` writes them. C++ leaves the overflow of a signed number undefined. `castString` is
-- modelled with the arithmetic of the machine, which wraps, and `operator<<` has no text there.
import HeroDB.Lib.Decimals

namespace hero.types

open decimals

/-! ## The sign -/

/-- A sign in front is passed: whether it is a minus, and what follows. -/
def take_sign : List Char → Bool × List Char
  | '-' :: rest => (true, rest)
  | '+' :: rest => (false, rest)
  | str => (false, str)

/-! ## Integers -/

namespace Integer

/-- The digits up to the first point: their number, and how many there are. -/
def loop : List Char → BitVec 64 → Nat → Except String (BitVec 64 × Nat)
  | [], result, digitsSeen => .ok (result, digitsSeen)
  | c :: rest, result, digitsSeen =>
    if c.isDigit then loop rest (result * 10 + BitVec.ofNat 64 (digit c)) (digitsSeen + 1)
    else if c = '.' then .ok (result, digitsSeen)
    else .error "invalid number format: invalid character in integer string"

def castString (str : List Char) : Except String (BitVec 32) :=
  let (neg, str) := take_sign (trim str)
  if str = [] then .error "invalid number format: found non-integer characters"
  else do
    let (result, digitsSeen) ← loop str 0 0
    if digitsSeen > 10 then
      .error "invalid number format: too many characters (32bit integers can at most consist of 10 numeric characters)"
    else return (if neg then -result else result).setWidth 32

/-- `operator<<` -/
def print (value : BitVec 32) : List Char :=
  if value.toInt < 0 then '-' :: Nat.toDigits 10 value.toInt.natAbs
  else Nat.toDigits 10 value.toInt.natAbs

end Integer

/-! ## Numerics -/

/-- The powers of ten up to 10^18. -/
def numericShifts : List (BitVec 64) := (List.range 19).map fun k => BitVec.ofNat 64 (10 ^ k)

namespace Numeric

variable (precision : Nat)

/-- The digits behind the point. -/
def fraction_loop : List Char → BitVec 64 → Nat → Except String (BitVec 64 × Nat)
  | [], result, digitsSeenFraction => .ok (result, digitsSeenFraction)
  | c :: rest, result, digitsSeenFraction =>
    if c.isDigit then
      fraction_loop rest (result * 10 + BitVec.ofNat 64 (digit c)) (digitsSeenFraction + 1)
    else if c = '.' then .error "invalid number format: already in fraction"
    else .error "invalid number format: invalid character in numeric string"

/-- All digits: their number, how many stand before the point, and how many behind it. -/
def loop : List Char → BitVec 64 → Nat → Except String (BitVec 64 × Nat × Nat)
  | [], result, digitsSeen => .ok (result, digitsSeen, 0)
  | c :: rest, result, digitsSeen =>
    if c.isDigit then loop rest (result * 10 + BitVec.ofNat 64 (digit c)) (digitsSeen + 1)
    else if c = '.' then do
      -- The zeros at the end are skipped.
      let (result, digitsSeenFraction) ← fraction_loop (rest.rdropWhile (· == '0')) result 0
      return (result, digitsSeen, digitsSeenFraction)
    else .error "invalid number format: invalid character in numeric string"

def castString (str : List Char) : Except String (BitVec 64) :=
  let (neg, str) := take_sign (trim str)
  if str = [] then .error "invalid number format: found non-numeric characters"
  else do
    let (result, digitsSeen, digitsSeenFraction) ← loop str 0 0
    if digitsSeen > 18 ∨ digitsSeenFraction > precision then
      .error "invalid number format: loosing precision"
    else
      let result := result * numericShifts.getD (precision - digitsSeenFraction) 0
      return if neg then -result else result

/-- The zeros behind the point: `while (sep>(10*v))`. -/
def zeros (v sep : Nat) : List Char :=
  if 10 * v < sep then '0' :: zeros v (sep / 10) else []
termination_by sep
decreasing_by omega

/-- The text behind the sign. -/
def print_absolute (v : Nat) : List Char :=
  let sep := 10 ^ precision
  if precision = 0 then Nat.toDigits 10 v
  else Nat.toDigits 10 (v / sep) ++ '.' ::
    (if v % sep = 0 then List.replicate precision '0'
    else zeros (v % sep) sep ++ Nat.toDigits 10 (v % sep))

/-- `operator<<`. There is no text when a `long` cannot hold the absolute value, the power of ten, or
the product `10*v` of the loop. -/
def print (value : BitVec 64) : Option (List Char) :=
  if value = BitVec.intMin 64 ∨ precision > 18 ∨
      2 ^ 63 ≤ 10 * (value.toInt.natAbs % 10 ^ precision) then none
  else if value.toInt < 0 then some ('-' :: print_absolute precision value.toInt.natAbs)
  else some (print_absolute precision value.toInt.natAbs)

end Numeric

/-! ## The loops -/

section loops

variable {text rest : List Char} {n seen : Nat}

/-- One more digit. -/
theorem add_digit (n : Nat) (c : Char) :
    BitVec.ofNat 64 n * 10 + BitVec.ofNat 64 (digit c) = BitVec.ofNat 64 (10 * n + digit c) := by
  rw [Nat.mul_comm, BitVec.ofNat_add, BitVec.ofNat_mul]
  rfl

theorem shift_digits (n : Nat) (c : Char) (rest : List Char) :
    10 ^ rest.length * (10 * n + digit c) + number rest =
      10 ^ (c :: rest).length * n + number (c :: rest) := by
  rw [number_cons, List.length_cons, Nat.pow_succ]
  ring

/-- A loop that puts each digit behind the number puts a run of digits behind it. -/
theorem loop_digits {β : Type} {loop : List Char → BitVec 64 → Nat → β}
    (hloop : ∀ c rest result seen, c.isDigit = true → loop (c :: rest) result seen =
      loop rest (result * 10 + BitVec.ofNat 64 (digit c)) (seen + 1))
    (rest : List Char) (n seen : Nat) (h : Digits text) :
    loop (text ++ rest) (BitVec.ofNat 64 n) seen =
      loop rest (BitVec.ofNat 64 (10 ^ text.length * n + number text)) (seen + text.length) := by
  induction text generalizing n seen with
  | nil => simp
  | cons c text ih =>
    obtain ⟨hc, htext⟩ := digits_cons.mp h
    rw [List.cons_append, hloop _ _ _ _ hc, add_digit, ih _ _ htext, shift_digits,
      List.length_cons, Nat.add_assoc, Nat.add_comm 1]

theorem integer_loop_digits (rest : List Char) (n seen : Nat) (h : Digits text) :
    Integer.loop (text ++ rest) (BitVec.ofNat 64 n) seen =
      Integer.loop rest (BitVec.ofNat 64 (10 ^ text.length * n + number text))
        (seen + text.length) :=
  loop_digits (fun c rest result seen hc => by rw [Integer.loop, if_pos hc]) rest n seen h

theorem fraction_loop_digits (rest : List Char) (n seen : Nat) (h : Digits text) :
    Numeric.fraction_loop (text ++ rest) (BitVec.ofNat 64 n) seen =
      Numeric.fraction_loop rest (BitVec.ofNat 64 (10 ^ text.length * n + number text))
        (seen + text.length) :=
  loop_digits (fun c rest result seen hc => by rw [Numeric.fraction_loop, if_pos hc]) rest n seen h

theorem numeric_loop_digits (rest : List Char) (n seen : Nat) (h : Digits text) :
    Numeric.loop (text ++ rest) (BitVec.ofNat 64 n) seen =
      Numeric.loop rest (BitVec.ofNat 64 (10 ^ text.length * n + number text))
        (seen + text.length) :=
  loop_digits (fun c rest result seen hc => by rw [Numeric.loop, if_pos hc]) rest n seen h

/-- The loop over an Integer ends with the text, or with the first point in it. -/
theorem integer_loop_ok {out : BitVec 64 × Nat}
    (h : Integer.loop text (BitVec.ofNat 64 n) seen = .ok out) :
    ∃ whole behind, text = whole ++ behind ∧ Digits whole ∧
      (behind = [] ∨ behind.head? = some '.') := by
  obtain ⟨whole, behind, rfl, hwhole, hbehind⟩ := digits_in_front text
  refine ⟨whole, behind, rfl, hwhole, ?_⟩
  rw [integer_loop_digits _ _ _ hwhole] at h
  cases behind with
  | nil => exact .inl rfl
  | cons c rest =>
    rw [Integer.loop, if_neg (hbehind c rfl)] at h
    split at h
    · rename_i hpoint
      exact .inr (congrArg some hpoint)
    · exact absurd h (by simp)

theorem fraction_loop_ok {out : BitVec 64 × Nat}
    (h : Numeric.fraction_loop text (BitVec.ofNat 64 n) seen = .ok out) : Digits text := by
  obtain ⟨whole, behind, rfl, hwhole, hbehind⟩ := digits_in_front text
  rw [fraction_loop_digits _ _ _ hwhole] at h
  cases behind with
  | nil => rwa [List.append_nil]
  | cons c rest =>
    rw [Numeric.fraction_loop, if_neg (hbehind c rfl)] at h
    split at h <;> exact absurd h (by simp)

/-- The loop over a Numeric ends with the digits, or with those behind a point. -/
theorem numeric_loop_ok {out : BitVec 64 × Nat × Nat}
    (h : Numeric.loop text (BitVec.ofNat 64 n) seen = .ok out) :
    ∃ whole, Digits whole ∧
      (text = whole ∨ ∃ fraction, Digits fraction ∧ text = whole ++ '.' :: fraction) := by
  obtain ⟨whole, behind, rfl, hwhole, hbehind⟩ := digits_in_front text
  refine ⟨whole, hwhole, ?_⟩
  rw [numeric_loop_digits _ _ _ hwhole] at h
  cases behind with
  | nil => exact .inl (List.append_nil _)
  | cons c rest =>
    rw [Numeric.loop, if_neg (hbehind c rfl)] at h
    split at h
    · rename_i hpoint
      refine .inr ⟨rest, ?_, by rw [hpoint]⟩
      cases hloop : Numeric.fraction_loop (rest.rdropWhile (· == '0'))
          (BitVec.ofNat 64 (10 ^ whole.length * n + number whole)) 0 with
      | error message =>
        rw [hloop] at h
        exact absurd h (by simp [bind, Except.bind])
      | ok out =>
        obtain ⟨k, hk⟩ := dropped_behind '0' rest
        rw [hk]
        exact digits_append.mpr ⟨fraction_loop_ok hloop, digits_zeros k⟩
    · exact absurd h (by simp)

end loops

/-! ## Signs and decimals -/

section decimals

variable {d : Decimal} {p : Nat}

/-- A sign is passed in front of a digit or a point. -/
theorem take_sign_text (sign : Sign) {body : List Char}
    (h : ∃ c rest, body = c :: rest ∧ (c.isDigit = true ∨ c = '.')) :
    take_sign (sign.text ++ body) = (decide (sign = .minus), body) := by
  cases sign with
  | minus => rfl
  | plus => rfl
  | unsigned =>
    obtain ⟨c, rest, rfl, hc⟩ := h
    rw [Sign.text, List.nil_append]
    unfold take_sign
    split
    · simp_all
    · simp_all
    · rfl

theorem first_of_body (d : Decimal) :
    ∃ c rest, d.body = c :: rest ∧ (c.isDigit = true ∨ c = '.') := by
  cases hbody : d.body with
  | nil => exact absurd hbody d.body_ne_nil
  | cons c rest => exact ⟨c, rest, rfl, Decimal.mem_body (hbody ▸ List.mem_cons_self ..)⟩

/-- Every text is a sign and what follows it. -/
theorem take_sign_between (str : List Char) :
    ∃ sign : Sign, str = sign.text ++ (take_sign str).2 := by
  unfold take_sign
  split
  · exact ⟨.minus, rfl⟩
  · exact ⟨.plus, rfl⟩
  · exact ⟨.unsigned, rfl⟩

/-- The digits of a decimal as the loop leaves them. -/
theorem loop_body (d : Decimal) :
    Numeric.loop d.body 0 0 =
      .ok (BitVec.ofNat 64 (10 ^ d.significant.length * number d.whole + number d.significant),
        d.whole.length, d.significant.length) := by
  have hzero : (0 : BitVec 64) = BitVec.ofNat 64 0 := rfl
  unfold Decimal.body Decimal.significant
  rw [hzero, numeric_loop_digits _ _ _ d.whole_digits]
  cases hf : d.fraction with
  | none => simp [Numeric.loop]
  | some f =>
    have hdigits : Digits (f.rdropWhile (· == '0')) := fun c hc =>
      d.fraction_digits f hf c ((List.rdropWhile_prefix ..).subset hc)
    have hloop := fraction_loop_digits [] (10 ^ d.whole.length * 0 + number d.whole) 0 hdigits
    rw [List.append_nil] at hloop
    rw [Numeric.loop, if_neg (by decide), if_pos rfl, hloop]
    simp [Numeric.fraction_loop, bind, Except.bind, pure, Except.pure]

theorem numericShifts_eq {k : Nat} (h : k ≤ 18) :
    numericShifts.getD k 0 = BitVec.ofNat 64 (10 ^ k) := by
  unfold numericShifts
  rw [List.getD_eq_getElem?_getD, List.getElem?_map, List.getElem?_range (by omega)]
  rfl

/-- What the digits of a decimal become. -/
theorem shifted_digits (hp : p ≤ 18) (h : d.significant.length ≤ p) :
    (let result := BitVec.ofNat 64 (10 ^ d.significant.length * number d.whole + number d.significant) *
        numericShifts.getD (p - d.significant.length) 0
      if d.sign = .minus then -result else result) = BitVec.ofInt 64 (d.scaled p) := by
  have hpow : number d.whole * 10 ^ p + number d.significant * 10 ^ (p - d.significant.length) =
      (10 ^ d.significant.length * number d.whole + number d.significant) *
        10 ^ (p - d.significant.length) := by
    rw [← Nat.sub_add_cancel h, Nat.add_sub_cancel, Nat.pow_add]
    ring
  unfold Decimal.scaled
  rw [numericShifts_eq (by omega), ← BitVec.ofNat_mul, hpow]
  dsimp only
  cases d.sign with
  | minus => rw [if_pos rfl, Sign.factor, Int.neg_one_mul, BitVec.ofInt_neg, BitVec.ofInt_natCast]
  | plus => rw [if_neg (by decide), Sign.factor, Int.one_mul, BitVec.ofInt_natCast]
  | unsigned => rw [if_neg (by decide), Sign.factor, Int.one_mul, BitVec.ofInt_natCast]

/-- What a Numeric makes of a decimal. -/
theorem castString_decimal (hp : p ≤ 18) (d : Decimal) (j k : Nat) :
    Numeric.castString p (blanks j ++ (d.text ++ blanks k)) =
      if d.whole.length > 18 ∨ d.significant.length > p then
        .error "invalid number format: loosing precision"
      else .ok (BitVec.ofInt 64 (d.scaled p)) := by
  unfold Numeric.castString
  rw [d.trim_text, Decimal.text, take_sign_text _ (first_of_body d)]
  simp only [if_neg d.body_ne_nil, loop_body, decide_eq_true_eq, bind, Except.bind]
  by_cases hrefused : d.whole.length > 18 ∨ d.significant.length > p
  · rw [if_pos hrefused, if_pos hrefused]
  · rw [if_neg hrefused, if_neg hrefused, ← shifted_digits hp (by omega)]
    rfl

/-- A text that a Numeric does not refuse is a decimal between blanks. -/
theorem decimal_of_castString {str : List Char} {value : BitVec 64}
    (h : Numeric.castString p str = .ok value) :
    ∃ (d : Decimal) (j k : Nat), str = blanks j ++ (d.text ++ blanks k) := by
  obtain ⟨j, k, hstr⟩ := trim_between str
  obtain ⟨sign, hsign⟩ := take_sign_between (trim str)
  unfold Numeric.castString at h
  generalize htake : take_sign (trim str) = taken at h hsign
  obtain ⟨neg, body⟩ := taken
  dsimp only at h hsign
  by_cases hbody : body = []
  · rw [if_pos hbody] at h
    exact absurd h (by simp)
  · rw [if_neg hbody] at h
    cases hloop : Numeric.loop body 0 0 with
    | error message =>
      rw [hloop] at h
      exact absurd h (by simp [bind, Except.bind])
    | ok out =>
      obtain ⟨whole, hwhole, hcases⟩ := numeric_loop_ok (n := 0) hloop
      rw [hstr, hsign]
      rcases hcases with rfl | ⟨fraction, hfraction, rfl⟩
      · refine ⟨⟨sign, body, none, hwhole, by simp, .inl hbody⟩, j, k, ?_⟩
        simp [Decimal.text, Decimal.body]
      · exact ⟨⟨sign, whole, some fraction, hwhole, by simpa using hfraction, .inr rfl⟩, j, k, rfl⟩

end decimals

/-- A Numeric accepts the decimals with at most 18 digits before the point and none that it would
lose behind it, and stores the number in units of its last place. -/
theorem Numeric.accepts_the_decimals {precision : Nat} (hprecision : precision ≤ 18)
    (str : List Char) (value : BitVec 64) :
    castString precision str = .ok value ↔
      ∃ (d : Decimal) (j k : Nat), str = blanks j ++ (d.text ++ blanks k) ∧ d.whole.length ≤ 18 ∧
        d.significant.length ≤ precision ∧
        ∃ units : Int, (units : ℚ) = 10 ^ precision * d.value ∧ value = BitVec.ofInt 64 units := by
  constructor
  · intro h
    obtain ⟨d, j, k, rfl⟩ := decimal_of_castString h
    rw [castString_decimal hprecision] at h
    split at h
    · exact absurd h (by simp)
    · rename_i hfits
      refine ⟨d, j, k, rfl, by omega, by omega, d.scaled precision, Decimal.scaled_eq (by omega), ?_⟩
      exact (Except.ok.inj h).symm
  · rintro ⟨d, j, k, rfl, hwhole, hsignificant, units, hunits, rfl⟩
    have hscaled : d.scaled precision = units := by
      have hcast : (d.scaled precision : ℚ) = units := (Decimal.scaled_eq hsignificant).trans hunits.symm
      exact_mod_cast hcast
    rw [castString_decimal hprecision, if_neg (by omega), hscaled]

/-- 7.100 is accepted, with one digit behind the point. -/
theorem a_trailing_zero_is_accepted : Numeric.castString 2 ['7', '.', '1', '0', '0'] = .ok 710 ↔
    ∃ (d : Decimal) (j k : Nat), ['7', '.', '1', '0', '0'] = blanks j ++ (d.text ++ blanks k) ∧
      d.whole.length ≤ 18 ∧ d.significant.length ≤ 2 ∧
      ∃ units : Int, (units : ℚ) = 10 ^ 2 * d.value ∧ (710 : BitVec 64) = BitVec.ofInt 64 units :=
  Numeric.accepts_the_decimals (by decide) _ _

/-! ## What `operator<<` writes -/

section print

variable {p r : Nat} {value : BitVec 64}

theorem zeros_eq (hr : 0 < r) (hlt : r < 10 ^ p) :
    Numeric.zeros r (10 ^ p) = List.replicate (p - (Nat.toDigits 10 r).length) '0' := by
  induction p with
  | zero => omega
  | succ p ih =>
    rw [Numeric.zeros, Nat.pow_succ, Nat.mul_div_cancel _ (by omega : 0 < 10)]
    by_cases hless : r < 10 ^ p
    · have hp : 0 < p := by
        rcases Nat.eq_zero_or_pos p with rfl | hp
        · omega
        · exact hp
      have hlength := (Nat.length_toDigits_le_iff (by omega) hp).mpr hless
      rw [if_pos (by omega), ih hless, Nat.succ_sub hlength, List.replicate_succ]
    · have hlength : p + 1 ≤ (Nat.toDigits 10 r).length := by
        rcases Nat.eq_zero_or_pos p with rfl | hp
        · exact Nat.length_toDigits_pos
        · by_contra hshort
          exact hless ((Nat.length_toDigits_le_iff (by omega) hp).mp (by omega))
      rw [if_neg (by omega), Nat.sub_eq_zero_of_le hlength, List.replicate_zero]

/-- The digits behind the point are padded up to the precision. -/
theorem print_fraction (hp : 0 < p) (hlt : r < 10 ^ p) :
    (if r = 0 then List.replicate p '0' else Numeric.zeros r (10 ^ p) ++ Nat.toDigits 10 r) =
      zero_padded p r := by
  unfold zero_padded
  by_cases hr : r = 0
  · have hsplit : p = (p - 1) + 1 := by omega
    rw [if_pos hr, hr, Nat.toDigits_zero, List.length_singleton]
    rw [hsplit, List.replicate_succ', Nat.add_sub_cancel]
  · rw [if_neg hr, zeros_eq (by omega) hlt]

/-- The decimal that `operator<<` writes. -/
def written (p : Nat) (value : BitVec 64) : Decimal where
  sign := if value.toInt < 0 then .minus else .unsigned
  whole := if p = 0 then Nat.toDigits 10 value.toInt.natAbs
    else Nat.toDigits 10 (value.toInt.natAbs / 10 ^ p)
  fraction := if p = 0 then none else some (zero_padded p (value.toInt.natAbs % 10 ^ p))
  whole_digits := by split <;> exact digits_toDigits _
  fraction_digits := by
    intro f hf
    split at hf
    · exact absurd hf (by simp)
    · obtain rfl := Option.some.inj hf
      exact digits_zero_padded _ _
  not_empty := by
    refine .inl ?_
    split <;> exact Nat.toDigits_ne_nil

theorem print_eq {text : List Char} (h : Numeric.print p value = some text) :
    text = (written p value).text := by
  have habsolute : Numeric.print_absolute p value.toInt.natAbs = (written p value).body := by
    unfold Numeric.print_absolute written Decimal.body
    by_cases hp : p = 0
    · simp [hp]
    · have hlt : value.toInt.natAbs % 10 ^ p < 10 ^ p := Nat.mod_lt _ (Nat.pow_pos (by omega))
      simp only [if_neg hp, print_fraction (by omega : 0 < p) hlt]
  unfold Numeric.print at h
  split at h
  · exact absurd h (by simp)
  · unfold Decimal.text
    rw [habsolute] at h
    split at h
    · rename_i hneg
      have hsign : (written p value).sign = .minus := if_pos hneg
      rw [hsign]
      exact (Option.some.inj h).symm
    · rename_i hpos
      have hsign : (written p value).sign = .unsigned := if_neg hpos
      rw [hsign]
      exact (Option.some.inj h).symm

theorem length_fraction (p : Nat) (value : BitVec 64) :
    ((written p value).fraction.getD []).length = p := by
  unfold written
  by_cases hp : p = 0
  · simp [hp]
  · simp only [if_neg hp, Option.getD_some]
    exact length_zero_padded (by omega) (Nat.mod_lt _ (Nat.pow_pos (by omega)))

/-- The decimal that is written has the value of the Numeric. -/
theorem scaled_written (p : Nat) (value : BitVec 64) : (written p value).scaled p = value.toInt := by
  have habsolute : number (written p value).whole * 10 ^ p +
      number ((written p value).fraction.getD []) = value.toInt.natAbs := by
    unfold written
    by_cases hp : p = 0
    · simp [hp]
    · simp only [if_neg hp, Option.getD_some]
      rw [number_toDigits, number_zero_padded]
      exact Nat.div_add_mod' _ _
  rw [Decimal.scaled_of_fraction (length_fraction p value), habsolute]
  by_cases hneg : value.toInt < 0
  · have hsign : (written p value).sign = .minus := if_pos hneg
    rw [hsign, Sign.factor]
    omega
  · have hsign : (written p value).sign = .unsigned := if_neg hneg
    rw [hsign, Sign.factor]
    omega

theorem length_whole_iff (p : Nat) (value : BitVec 64) :
    (written p value).whole.length ≤ 18 ↔ (p = 0 → value.toInt.natAbs < 10 ^ 18) := by
  have hlow := value.le_toInt
  have hhigh := value.toInt_lt
  unfold written
  by_cases hp : p = 0
  · simp only [if_pos hp, Nat.length_toDigits_le_iff (by omega : 1 < 10) (by omega : 0 < 18)]
    exact ⟨fun h _ => h, fun h => h hp⟩
  · simp only [if_neg hp, Nat.length_toDigits_le_iff (by omega : 1 < 10) (by omega : 0 < 18)]
    have hten : 10 ^ 1 ≤ 10 ^ p := Nat.pow_le_pow_right (by omega) (by omega)
    have hless : value.toInt.natAbs / 10 ^ p ≤ value.toInt.natAbs / 10 ^ 1 :=
      Nat.div_le_div_left hten (by omega)
    exact iff_of_true (by omega) (fun h => absurd h hp)

/-- A Numeric reads the decimal that it writes, if it has no more than 18 digits before the point. -/
theorem castString_written (hp : p ≤ 18) (value : BitVec 64) (j k : Nat) :
    Numeric.castString p (blanks j ++ ((written p value).text ++ blanks k)) = .ok value ↔
      (written p value).whole.length ≤ 18 := by
  have hsignificant : (written p value).significant.length ≤ p :=
    (Decimal.significant_le _).trans (length_fraction p value).le
  rw [castString_decimal hp]
  by_cases hwhole : (written p value).whole.length ≤ 18
  · rw [if_neg (by omega), scaled_written, BitVec.ofInt_toInt]
    exact iff_of_true rfl hwhole
  · rw [if_pos (by omega)]
    exact iff_of_false (by simp) hwhole

end print

/-- A Numeric reads what it writes, except that it refuses 19 digits without a point. -/
theorem Numeric.reads_what_it_writes {precision : Nat} {value : BitVec 64} {text : List Char}
    (h : print precision value = some text) (j k : Nat) :
    castString precision (blanks j ++ (text ++ blanks k)) = .ok value ↔
      (precision = 0 → value.toInt.natAbs < 10 ^ 18) := by
  have hprecision : precision ≤ 18 := by
    unfold print at h
    split at h
    · exact absurd h (by simp)
    · omega
  rw [print_eq h, castString_written hprecision, length_whole_iff]

/-- -12.50 -/
theorem the_balance_is_read :
    Numeric.castString 2 (blanks 1 ++ (['-', '1', '2', '.', '5', '0'] ++ blanks 2)) = .ok (-1250) ↔
      (2 = 0 → (-1250 : BitVec 64).toInt.natAbs < 10 ^ 18) :=
  Numeric.reads_what_it_writes
    (by
      simp only [Numeric.print, Numeric.print_absolute]
      simp [Numeric.zeros]
      decide) 1 2

/-! ## Integers -/

section integers

/-- What may follow the digits of an Integer: blanks, or a point and anything. -/
inductive Integer.Behind (whole : List Char) : List Char → Prop
  | blanks (k : Nat) : whole ≠ [] → Integer.Behind whole (blanks k)
  | point (more : List Char) : Integer.Behind whole ('.' :: more)

variable {sign : Sign} {whole behind str : List Char} {value : BitVec 32}

/-- The text in front of a point is not trimmed, nor is the point. -/
theorem trim_integer (sign : Sign) (hwhole : Digits whole) (h : Integer.Behind whole behind)
    (j : Nat) :
    ∃ rest, trim (blanks j ++ (sign.text ++ (whole ++ behind))) = sign.text ++ (whole ++ rest) ∧
      (rest = [] ∧ whole ≠ [] ∨ ∃ more, rest = '.' :: more) := by
  have hsign : ' ' ∉ sign.text := by cases sign <;> simp [Sign.text]
  have hfront : ' ' ∉ sign.text ++ whole := by
    rw [List.mem_append, not_or]
    exact ⟨hsign, not_mem_of_digits hwhole rfl⟩
  cases h with
  | blanks k hne =>
    refine ⟨[], ?_, .inl ⟨rfl, hne⟩⟩
    rw [← List.append_assoc sign.text, trim_blanks, List.append_nil]
    apply trim_self
    · exact fun h => hfront (List.mem_of_head? h)
    · exact fun h => hfront (List.mem_of_getLast? h)
  | point more =>
    refine ⟨'.' :: more.rdropWhile (· == ' '), ?_, .inr ⟨_, rfl⟩⟩
    have htrim := trim_blanks j 0 (sign.text ++ (whole ++ '.' :: more))
    have hnone : blanks 0 = [] := rfl
    rw [hnone, List.append_nil] at htrim
    rw [htrim, ← List.append_assoc, trim_append _ _ _ (by decide), List.append_assoc]
    intro hfirst
    have hmem := List.mem_of_head? hfirst
    rw [List.mem_append, List.mem_singleton] at hmem
    exact hmem.elim hfront (by decide)

/-- What an Integer makes of such a text. -/
theorem castString_integer (sign : Sign) (hwhole : Digits whole) (h : Integer.Behind whole behind)
    (j : Nat) :
    Integer.castString (blanks j ++ (sign.text ++ (whole ++ behind))) =
      if whole.length > 10 then
        .error "invalid number format: too many characters (32bit integers can at most consist of 10 numeric characters)"
      else .ok (BitVec.ofInt 32 (sign.factor * number whole)) := by
  obtain ⟨rest, htrim, hrest⟩ := trim_integer sign hwhole h j
  have hfirst : ∃ c more, whole ++ rest = c :: more ∧ (c.isDigit = true ∨ c = '.') := by
    cases hw : whole with
    | cons c more => exact ⟨c, more ++ rest, rfl, .inl (hwhole c (by rw [hw]; simp))⟩
    | nil =>
      rcases hrest with ⟨-, hne⟩ | ⟨more, rfl⟩
      · exact absurd hw hne
      · exact ⟨'.', more, rfl, .inr rfl⟩
  have hne : whole ++ rest ≠ [] := by
    obtain ⟨c, more, hcons, -⟩ := hfirst
    rw [hcons]
    exact List.cons_ne_nil _ _
  have hloop : Integer.loop (whole ++ rest) (BitVec.ofNat 64 0) 0 =
      .ok (BitVec.ofNat 64 (number whole), whole.length) := by
    rw [integer_loop_digits _ _ _ hwhole]
    rcases hrest with ⟨rfl, -⟩ | ⟨more, rfl⟩
    · simp [Integer.loop]
    · rw [Integer.loop, if_neg (by decide), if_pos rfl]
      simp
  have hvalue : (if sign = .minus then -BitVec.ofNat 64 (number whole)
      else BitVec.ofNat 64 (number whole)).setWidth 32 = BitVec.ofInt 32 (sign.factor * number whole) := by
    cases sign with
    | minus =>
      rw [if_pos rfl, BitVec.setWidth_neg_of_le (by omega), BitVec.setWidth_ofNat_of_le (by omega),
        Sign.factor, Int.neg_one_mul, BitVec.ofInt_neg, BitVec.ofInt_natCast]
    | plus =>
      rw [if_neg (by decide), BitVec.setWidth_ofNat_of_le (by omega), Sign.factor, Int.one_mul,
        BitVec.ofInt_natCast]
    | unsigned =>
      rw [if_neg (by decide), BitVec.setWidth_ofNat_of_le (by omega), Sign.factor, Int.one_mul,
        BitVec.ofInt_natCast]
  unfold Integer.castString
  have hzero : (0 : BitVec 64) = BitVec.ofNat 64 0 := rfl
  rw [htrim, take_sign_text _ hfirst]
  simp only [if_neg hne, hzero, hloop, bind, Except.bind, decide_eq_true_eq]
  split
  · rfl
  · exact congrArg Except.ok hvalue

/-- A text that an Integer does not refuse. -/
theorem integer_of_castString (h : Integer.castString str = .ok value) :
    ∃ (sign : Sign) (whole behind : List Char) (j : Nat),
      str = blanks j ++ (sign.text ++ (whole ++ behind)) ∧ Digits whole ∧
        Integer.Behind whole behind := by
  obtain ⟨j, k, hstr⟩ := trim_between str
  obtain ⟨sign, hsign⟩ := take_sign_between (trim str)
  unfold Integer.castString at h
  generalize htake : take_sign (trim str) = taken at h hsign
  obtain ⟨neg, body⟩ := taken
  dsimp only at h hsign
  by_cases hbody : body = []
  · rw [if_pos hbody] at h
    exact absurd h (by simp)
  · rw [if_neg hbody] at h
    cases hloop : Integer.loop body 0 0 with
    | error message =>
      rw [hloop] at h
      exact absurd h (by simp [bind, Except.bind])
    | ok out =>
      obtain ⟨whole, behind, rfl, hwhole, hcases⟩ := integer_loop_ok (n := 0) hloop
      refine ⟨sign, whole, behind ++ blanks k, j, ?_, hwhole, ?_⟩
      · rw [hstr, hsign, List.append_assoc, List.append_assoc]
      · rcases hcases with rfl | hpoint
        · rw [List.nil_append]
          exact .blanks k (by simpa using hbody)
        · obtain ⟨more, rfl⟩ := List.head?_eq_some_iff.mp hpoint
          exact .point _

end integers

/-- An Integer accepts up to ten digits with a sign, passes over blanks around them and over anything
behind a point, and stores the number as it fits into 32 bits. -/
theorem Integer.accepts_ten_digits (str : List Char) (value : BitVec 32) :
    castString str = .ok value ↔
      ∃ (sign : Sign) (whole behind : List Char) (j : Nat),
        str = blanks j ++ (sign.text ++ (whole ++ behind)) ∧ Digits whole ∧ Behind whole behind ∧
          whole.length ≤ 10 ∧ value = BitVec.ofInt 32 (sign.factor * number whole) := by
  constructor
  · intro h
    obtain ⟨sign, whole, behind, j, rfl, hwhole, hbehind⟩ := integer_of_castString h
    rw [castString_integer sign hwhole hbehind] at h
    split at h
    · exact absurd h (by simp)
    · exact ⟨sign, whole, behind, j, rfl, hwhole, hbehind, by omega, (Except.ok.inj h).symm⟩
  · rintro ⟨sign, whole, behind, j, rfl, hwhole, hbehind, hlength, rfl⟩
    rw [castString_integer sign hwhole hbehind, if_neg (by omega)]

/-- An Integer reads what it writes. -/
theorem castString_print (value : BitVec 32) (j k : Nat) :
    Integer.castString (blanks j ++ (Integer.print value ++ blanks k)) = .ok value := by
  have hlow := value.le_toInt
  have hhigh := value.toInt_lt
  have hlength : (Nat.toDigits 10 value.toInt.natAbs).length ≤ 10 :=
    (Nat.length_toDigits_le_iff (by omega) (by omega)).mpr (by omega)
  have hbehind : Integer.Behind (Nat.toDigits 10 value.toInt.natAbs) (blanks k) :=
    .blanks k Nat.toDigits_ne_nil
  unfold Integer.print
  by_cases hneg : value.toInt < 0
  · have hcast := castString_integer .minus (digits_toDigits _) hbehind j
    have habs : Sign.minus.factor * (value.toInt.natAbs : Int) = value.toInt := by
      rw [Sign.factor]
      omega
    rw [if_neg (by omega), number_toDigits, habs, BitVec.ofInt_toInt] at hcast
    rw [if_pos hneg]
    exact hcast
  · have hcast := castString_integer .unsigned (digits_toDigits _) hbehind j
    have habs : Sign.unsigned.factor * (value.toInt.natAbs : Int) = value.toInt := by
      rw [Sign.factor]
      omega
    rw [if_neg (by omega), number_toDigits, habs, BitVec.ofInt_toInt] at hcast
    rw [if_neg hneg]
    exact hcast

end hero.types
