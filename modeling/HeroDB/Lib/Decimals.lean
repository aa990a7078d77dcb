-- Numbers as text: digits and their value, zeros in front and behind, blanks around, and the
-- decimals with a sign and a point.
import Mathlib.Data.List.DropRight
import Mathlib.Algebra.Order.Field.Rat
import Mathlib.Tactic.Ring
import Mathlib.Tactic.FieldSimp

namespace decimals

/-! ## Digits -/

section digits

variable {text front rest : List Char} {c : Char} {n k : Nat}

def Digits (text : List Char) : Prop := ∀ c ∈ text, c.isDigit = true

/-- The number that the digits write. -/
abbrev number (text : List Char) : Nat := Nat.ofDigitChars 10 text 0

/-- The value of one digit. -/
abbrev digit (c : Char) : Nat := c.toNat - '0'.toNat

theorem digit_lt (h : c.isDigit = true) : digit c < 10 := by
  have hrange : '0'.val ≤ c.val ∧ c.val ≤ '9'.val := by simpa [Char.isDigit] using h
  have hlast : c.toNat ≤ '9'.toNat := UInt32.le_iff_toNat_le.mp hrange.2
  have hnine : '9'.toNat = 57 := rfl
  have hzero : '0'.toNat = 48 := rfl
  unfold digit
  omega

theorem digits_append : Digits (front ++ rest) ↔ Digits front ∧ Digits rest := by
  unfold Digits
  exact List.forall_mem_append

theorem digits_cons : Digits (c :: rest) ↔ c.isDigit = true ∧ Digits rest := by
  unfold Digits
  exact List.forall_mem_cons

theorem digits_zeros (k : Nat) : Digits (List.replicate k '0') := by
  intro c hc
  rw [List.eq_of_mem_replicate hc]
  rfl

theorem digits_toDigits (n : Nat) : Digits (Nat.toDigits 10 n) :=
  fun _ hc => Nat.isDigit_of_mem_toDigits (by omega) (by omega) hc

/-- A character that is no digit does not stand between digits. -/
theorem not_mem_of_digits (h : Digits text) (hc : c.isDigit = false) : c ∉ text := by
  intro hmem
  rw [h c hmem] at hc
  exact absurd hc (by decide)

/-- The digits in front of a text. -/
theorem digits_in_front (text : List Char) :
    ∃ whole behind, text = whole ++ behind ∧ Digits whole ∧ ∀ c ∈ behind.head?, ¬c.isDigit = true := by
  refine ⟨text.takeWhile Char.isDigit, text.dropWhile Char.isDigit,
    List.takeWhile_append_dropWhile.symm, fun c hc => List.mem_takeWhile_imp hc, ?_⟩
  intro c hc
  have hnot := List.head?_dropWhile_not Char.isDigit text
  rw [Option.mem_def.mp hc] at hnot
  simpa using hnot

theorem number_cons (c : Char) (rest : List Char) :
    number (c :: rest) = 10 ^ rest.length * digit c + number rest := by
  unfold number
  rw [Nat.ofDigitChars_cons, Nat.ofDigitChars_eq_ofDigitChars_zero, Nat.mul_zero, Nat.zero_add]

theorem number_append (front rest : List Char) :
    number (front ++ rest) = 10 ^ rest.length * number front + number rest := by
  unfold number
  rw [Nat.ofDigitChars_append, Nat.ofDigitChars_eq_ofDigitChars_zero]

theorem number_toDigits (n : Nat) : number (Nat.toDigits 10 n) = n := Nat.ofDigitChars_ten_toDigits

theorem number_zeros_append (k : Nat) (text : List Char) :
    number (List.replicate k '0' ++ text) = number text := by
  rw [number_append]
  simp

theorem number_append_zeros (text : List Char) (k : Nat) :
    number (text ++ List.replicate k '0') = 10 ^ k * number text := by
  rw [number_append]
  simp

theorem number_lt (h : Digits text) : number text < 10 ^ text.length := by
  induction text with
  | nil => simp
  | cons c rest ih =>
    rw [digits_cons] at h
    have hrest := ih h.2
    have hdigit := digit_lt h.1
    have hmul : 10 ^ rest.length * digit c ≤ 10 ^ rest.length * 9 := Nat.mul_le_mul_left _ (by omega)
    rw [number_cons, List.length_cons, Nat.pow_succ]
    omega

/-- `%0k`: zeros in front, up to `k` characters. -/
def zero_padded (k n : Nat) : List Char :=
  List.replicate (k - (Nat.toDigits 10 n).length) '0' ++ Nat.toDigits 10 n

theorem digits_zero_padded (k n : Nat) : Digits (zero_padded k n) :=
  digits_append.mpr ⟨digits_zeros _, digits_toDigits n⟩

theorem number_zero_padded (k n : Nat) : number (zero_padded k n) = n := by
  unfold zero_padded
  rw [number_zeros_append, number_toDigits]

theorem length_zero_padded {k n : Nat} (hk : 0 < k) (h : n < 10 ^ k) : (zero_padded k n).length = k := by
  have hlength := (Nat.length_toDigits_le_iff (by omega) hk).mpr h
  unfold zero_padded
  rw [List.length_append, List.length_replicate]
  omega

theorem zero_padded_ne_nil (k n : Nat) : zero_padded k n ≠ [] := by
  unfold zero_padded
  exact List.append_ne_nil_of_right_ne_nil _ Nat.toDigits_ne_nil

end digits

/-! ## Blanks and trailing characters -/

section blanks

variable {text front : List Char} {c : Char}

/-- The text without the blanks at both ends. -/
def trim (text : List Char) : List Char := (text.dropWhile (· == ' ')).rdropWhile (· == ' ')

abbrev blanks (k : Nat) : List Char := List.replicate k ' '

/-- The characters that a scan from the end drops are all the same one. -/
theorem dropped_behind (c : Char) (text : List Char) :
    ∃ k, text = text.rdropWhile (· == c) ++ List.replicate k c := by
  refine ⟨(text.rtakeWhile (· == c)).length, ?_⟩
  have hall : text.rtakeWhile (· == c) =
      List.replicate (text.rtakeWhile (· == c)).length c := by
    apply List.eq_replicate_of_mem
    intro x hx
    have hc := @List.mem_rtakeWhile_imp _ (· == c) _ _ hx
    exact eq_of_beq hc
  rw [← hall]
  exact (List.rdropWhile_append_rtakeWhile ..).symm

theorem dropped_in_front (c : Char) (text : List Char) :
    ∃ k, text = List.replicate k c ++ text.dropWhile (· == c) := by
  refine ⟨(text.takeWhile (· == c)).length, ?_⟩
  have hall : text.takeWhile (· == c) =
      List.replicate (text.takeWhile (· == c)).length c := by
    apply List.eq_replicate_of_mem
    intro x hx
    have hc := @List.mem_takeWhile_imp _ (· == c) _ _ hx
    exact eq_of_beq hc
  rw [← hall]
  exact List.takeWhile_append_dropWhile.symm

theorem rdropWhile_append_replicate (text : List Char) (c : Char) (k : Nat) :
    (text ++ List.replicate k c).rdropWhile (· == c) = text.rdropWhile (· == c) := by
  induction k with
  | zero => simp
  | succ k ih =>
    rw [List.replicate_succ', ← List.append_assoc, List.rdropWhile_concat_pos _ _ _ (by simp), ih]

theorem dropWhile_replicate_append (text : List Char) (c : Char) (k : Nat) :
    (List.replicate k c ++ text).dropWhile (· == c) = text.dropWhile (· == c) := by
  induction k with
  | zero => simp
  | succ k ih => simp [List.replicate_succ, ih]

/-- The front of a text stays when the characters are dropped behind it, if it does not end in one of
them. -/
theorem rdropWhile_append {x : Char} (hx : x ≠ c) (front text : List Char) :
    (front ++ x :: text).rdropWhile (· == c) = front ++ x :: text.rdropWhile (· == c) := by
  induction text using List.reverseRecOn with
  | nil => exact List.rdropWhile_concat_neg _ _ _ (by simpa using hx)
  | append_singleton text y ih =>
    have hsplit : front ++ x :: (text ++ [y]) = (front ++ x :: text) ++ [y] := by simp
    rw [hsplit, List.rdropWhile_concat, List.rdropWhile_concat, ih]
    by_cases hy : (y == c) = true
    · rw [if_pos hy, if_pos hy]
    · rw [if_neg hy, if_neg hy, hsplit]

theorem trim_blanks (j k : Nat) (text : List Char) :
    trim (blanks j ++ (text ++ blanks k)) = trim text := by
  unfold trim
  rw [dropWhile_replicate_append]
  by_cases hall : ∀ c ∈ text, (c == ' ') = true
  · -- Blanks only.
    have hblanks : text = List.replicate text.length ' ' :=
      List.eq_replicate_of_mem fun c hc => eq_of_beq (hall c hc)
    rw [hblanks, ← List.replicate_add]
    have hnil : ∀ n : Nat, (List.replicate n ' ').dropWhile (· == ' ') = [] := by
      intro n
      induction n with
      | zero => rfl
      | succ n ih => rw [List.replicate_succ, List.dropWhile_cons_of_pos (by rfl), ih]
    rw [hnil, hnil]
  · have hdrop : (text ++ blanks k).dropWhile (· == ' ') = text.dropWhile (· == ' ') ++ blanks k := by
      rw [List.dropWhile_append]
      have hne : (text.dropWhile (· == ' ')).isEmpty = false := by
        simpa [List.dropWhile_eq_nil_iff] using hall
      simp [hne]
    rw [hdrop, rdropWhile_append_replicate]

/-- Every text is its trimmed one between blanks. -/
theorem trim_between (text : List Char) : ∃ j k, text = blanks j ++ (trim text ++ blanks k) := by
  obtain ⟨j, hj⟩ := dropped_in_front ' ' text
  obtain ⟨k, hk⟩ := dropped_behind ' ' (text.dropWhile (· == ' '))
  refine ⟨j, k, ?_⟩
  unfold trim
  rw [← hk]
  exact hj

/-- A text that starts and ends without a blank is its own trimmed one. -/
theorem trim_self (hfirst : text.head? ≠ some ' ') (hlast : text.getLast? ≠ some ' ') :
    trim text = text := by
  unfold trim
  have hdrop : text.dropWhile (· == ' ') = text := by
    cases text with
    | nil => rfl
    | cons c rest =>
      rw [List.dropWhile_cons_of_neg]
      simpa using hfirst
  rw [hdrop, List.rdropWhile_eq_self_iff]
  intro hne
  rw [List.getLast?_eq_some_getLast hne] at hlast
  simpa using hlast

/-- A scan from the end does not pass a character that is no blank. -/
theorem trim_append {x : Char} (front text : List Char) (hfirst : (front ++ [x]).head? ≠ some ' ')
    (hx : x ≠ ' ') : trim (front ++ x :: text) = front ++ x :: text.rdropWhile (· == ' ') := by
  have hdrop : (front ++ x :: text).dropWhile (· == ' ') = front ++ x :: text := by
    cases front with
    | nil => exact List.dropWhile_cons_of_neg (by simpa using hx)
    | cons c rest => exact List.dropWhile_cons_of_neg (by simpa using hfirst)
  unfold trim
  rw [hdrop, rdropWhile_append hx]

end blanks

/-! ## Decimals -/

inductive Sign
  | unsigned
  | plus
  | minus
  deriving DecidableEq

def Sign.text : Sign → List Char
  | unsigned => []
  | plus => ['+']
  | minus => ['-']

def Sign.factor : Sign → Int
  | unsigned => 1
  | plus => 1
  | minus => -1

/-- A decimal as it is written: digits, and behind a point possibly more digits. -/
structure Decimal where
  sign : Sign
  whole : List Char
  fraction : Option (List Char)
  whole_digits : Digits whole
  fraction_digits : ∀ f ∈ fraction, Digits f
  not_empty : whole ≠ [] ∨ fraction.isSome

namespace Decimal

variable {d : Decimal} {p : Nat}

/-- What follows the sign. -/
def body (d : Decimal) : List Char :=
  d.whole ++ match d.fraction with
    | none => []
    | some f => '.' :: f

def text (d : Decimal) : List Char := d.sign.text ++ d.body

def value (d : Decimal) : ℚ :=
  d.sign.factor *
    (number d.whole + number (d.fraction.getD []) / 10 ^ (d.fraction.getD []).length)

/-- The digits behind the point, up to the last one that is not zero. -/
def significant (d : Decimal) : List Char := (d.fraction.getD []).rdropWhile (· == '0')

/-- The decimal in units of its last place. -/
def scaled (d : Decimal) (p : Nat) : Int :=
  d.sign.factor *
    (number d.whole * 10 ^ p + number d.significant * 10 ^ (p - d.significant.length) : Nat)

theorem scaled_eq (h : d.significant.length ≤ p) : (d.scaled p : ℚ) = 10 ^ p * d.value := by
  obtain ⟨k, hk⟩ := dropped_behind '0' (d.fraction.getD [])
  have hp : p = (p - d.significant.length) + d.significant.length := by omega
  have hfraction : (number (d.fraction.getD []) : ℚ) / 10 ^ (d.fraction.getD []).length =
      number d.significant / 10 ^ d.significant.length := by
    rw [hk, number_append_zeros, List.length_append, List.length_replicate]
    unfold significant
    push_cast
    rw [pow_add]
    field_simp
  unfold scaled value
  rw [hfraction]
  generalize hq : p - d.significant.length = q at hp
  rw [hp]
  push_cast
  rw [pow_add]
  field_simp

/-- With all of its places written, the units are the digits. -/
theorem scaled_of_fraction (h : (d.fraction.getD []).length = p) :
    d.scaled p =
      d.sign.factor * (number d.whole * 10 ^ p + number (d.fraction.getD []) : Nat) := by
  obtain ⟨k, hk⟩ := dropped_behind '0' (d.fraction.getD [])
  have hplaces : p - d.significant.length = k := by
    have hlength := congrArg List.length hk
    rw [List.length_append, List.length_replicate, h] at hlength
    unfold significant
    omega
  have hnumber : number (d.fraction.getD []) = number d.significant * 10 ^ k := by
    rw [hk, number_append_zeros, Nat.mul_comm]
    rfl
  unfold scaled
  rw [hplaces, hnumber]

theorem significant_le (d : Decimal) : d.significant.length ≤ (d.fraction.getD []).length := by
  unfold significant
  exact (List.rdropWhile_prefix ..).length_le

theorem body_ne_nil (d : Decimal) : d.body ≠ [] := by
  unfold body
  rcases d.not_empty with h | h
  · exact List.append_ne_nil_of_left_ne_nil h _
  · obtain ⟨f, hf⟩ := Option.isSome_iff_exists.mp h
    rw [hf]
    exact List.append_ne_nil_of_right_ne_nil _ (List.cons_ne_nil _ _)

theorem mem_body {c : Char} (h : c ∈ d.body) : c.isDigit = true ∨ c = '.' := by
  unfold body at h
  rcases List.mem_append.mp h with h | h
  · exact .inl (d.whole_digits c h)
  · cases hf : d.fraction with
    | none =>
      rw [hf] at h
      exact absurd h List.not_mem_nil
    | some f =>
      rw [hf] at h
      rcases List.mem_cons.mp h with h | h
      · exact .inr h
      · exact .inl (d.fraction_digits f hf c h)

/-- No blank stands in a decimal. -/
theorem blank_not_mem (d : Decimal) : ' ' ∉ d.text := by
  unfold text
  intro h
  rcases List.mem_append.mp h with h | h
  · cases hs : d.sign <;> rw [hs] at h <;> simp [Sign.text] at h
  · rcases mem_body h with h | h <;> exact absurd h (by decide)

theorem trim_text (d : Decimal) (j k : Nat) : trim (blanks j ++ (d.text ++ blanks k)) = d.text := by
  rw [trim_blanks]
  apply trim_self
  · exact fun h => d.blank_not_mem (List.mem_of_head? h)
  · exact fun h => d.blank_not_mem (List.mem_of_getLast? h)

end Decimal

end decimals
