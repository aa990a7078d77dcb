-- Little-endian numbers in a list of bytes: the bytes of a number, the number of some bytes, and
-- numbers of one width one behind the other.
import Mathlib.Data.Nat.ModEq
import Mathlib.Data.BitVec
import Mathlib.Tactic.Ring

namespace hero.little_endian

abbrev Byte := BitVec 8

/-- The `w` bytes of a number, the lowest one first. -/
def bytes : Nat → Nat → List Byte
  | 0, _ => []
  | w + 1, n => BitVec.ofNat 8 n :: bytes w (n / 256)

/-- The number of some bytes. -/
def number : List Byte → Nat
  | [] => 0
  | b :: rest => b.toNat + 256 * number rest

/-- Numbers of `w` bytes each, one behind the other. -/
def row_bytes (w : Nat) (rows : List Nat) : List Byte := rows.flatMap (bytes w)

/-- The `w` bytes of the number `r`, where they are. -/
def bytes_at (w : Nat) (memory : List Byte) (r : Nat) : Option (List Byte) :=
  if w * r + w ≤ memory.length then some ((memory.drop (w * r)).take w) else none

variable {w w' n r : Nat} {rows : List Nat}

@[simp] theorem length_bytes : (bytes w n).length = w := by
  induction w generalizing n with
  | zero => rfl
  | succ w ih => rw [bytes, List.length_cons, ih]

theorem number_bytes : number (bytes w n) = n % 256 ^ w := by
  induction w generalizing n with
  | zero => simp [bytes, number, Nat.mod_one]
  | succ w ih =>
    have hlow : (BitVec.ofNat 8 n).toNat = n % 256 := BitVec.toNat_ofNat ..
    rw [bytes, number, ih, hlow, pow_succ', Nat.mod_mul]

/-- The lower and the upper bytes of a number. -/
theorem bytes_add : bytes (w + w') n = bytes w n ++ bytes w' (n / 256 ^ w) := by
  induction w generalizing n with
  | zero => simp [bytes]
  | succ w ih =>
    rw [Nat.succ_add, bytes, bytes, ih, Nat.div_div_eq_div_mul, ← pow_succ', List.cons_append]

@[simp] theorem length_row_bytes : (row_bytes w rows).length = w * rows.length := by
  induction rows with
  | nil => rfl
  | cons n rest ih =>
    rw [row_bytes, List.flatMap_cons, List.length_append, length_bytes, ← row_bytes, ih,
      List.length_cons]
    ring

theorem row_bytes_cons : row_bytes w (n :: rows) = bytes w n ++ row_bytes w rows :=
  List.flatMap_cons

/-- The bytes of one of the numbers. -/
theorem bytes_at_row (hw : 0 < w) : bytes_at w (row_bytes w rows) r = (rows[r]?).map (bytes w) := by
  induction rows generalizing r with
  | nil =>
    rw [bytes_at, if_neg (by simp [row_bytes]; omega)]
    rfl
  | cons n rest ih =>
    cases r with
    | zero =>
      rw [bytes_at, if_pos (by simp [Nat.mul_add]), row_bytes_cons, Nat.mul_zero, List.drop_zero,
        List.take_append_of_le_length (by simp), List.take_of_length_le (by simp)]
      rfl
    | succ r =>
      rw [List.getElem?_cons_succ, ← ih]
      have hnext : w * (r + 1) = w + w * r := by ring
      have hdrop : (row_bytes w (n :: rest)).drop (w + w * r) = (row_bytes w rest).drop (w * r) := by
        rw [row_bytes_cons, List.drop_append, length_bytes, List.drop_of_length_le (by simp)]
        simp
      rw [bytes_at, bytes_at, hnext, hdrop, length_row_bytes, length_row_bytes, List.length_cons]
      exact if_congr (by rw [Nat.mul_add]; omega) rfl rfl

end hero.little_endian
