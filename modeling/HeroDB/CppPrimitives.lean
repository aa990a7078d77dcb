-- The C++ primitives (`cpp_layer/operations/primitives.cpp`): their loops count with an `int`, which
-- has no next one behind 2^31 - 1, and their arrays are `int` arrays, whose sums and products wrap.
import HeroDB.DataInterface
import HeroDB.Lib.Loops
import Mathlib.Data.BitVec

namespace hero.cpp_layer

open loops

universe u

/-! ## Loops and arrays -/

/-- `++j` of an `int`. The overflow of a counter is undefined behaviour: a compiled loop goes on. -/
def int_next (j : Int) : Option Int := if j < 2 ^ 31 - 1 then some (j + 1) else none

section loop

variable {σ : Type u} (size : Nat) (body : σ → Int → Option σ)

/-- The loop from `j` on. The test `j < size` compares `j` as a `size_t`. -/
def for_int_from : Nat → Int → σ → Option σ
  | 0, _, _ => none
  | fuel + 1, j, s =>
    if size_of_int j < size then
      (body s j).bind (fun s1 => (int_next j).bind (fun j1 => for_int_from fuel j1 s1))
    else some s

/-- `for (int j = 0; j < size; ++j)`. From 0 on there are 2^31 turns at most. -/
def for_int (s : σ) : Option σ := for_int_from size body (2 ^ 31 + 1) 0 s

end loop

/-- A load. An index outside of the array is undefined behaviour. -/
def load (array : List Word) (i : Int) : Option Word := if 0 ≤ i then array[i.toNat]? else none

/-- A store. -/
def store (array : List Word) (i : Int) (x : Word) : Option (List Word) :=
  if 0 ≤ i ∧ i.toNat < array.length then some (array.set i.toNat x) else none

/-- An element `+=`. -/
def add_to (array : List Word) (i : Int) (x : Word) : Option (List Word) :=
  (load array i).bind (fun r => store array i (r + x))

/-- `size_t pos = 32 * j`: the product is an `int`. A negative one is as a `size_t` an offset to
before the array. The first product of a loop that overflows is that of 2^26, which is negative. -/
def block_pos (j : Int) : Int := Int.bmod (32 * j) (2 ^ 32)

/-! ## The primitives -/

/-- The loop of the selections over the rows of a block. -/
def selection_bits (test : Word → Bool) (data : List Word) (j : Int) : Option Word :=
  (List.range 32).foldlM (fun (bm : Word) (i : Nat) =>
    (load data (block_pos j + i)).map (fun x => bm ||| (if test x then (1 : Word) <<< i else 0))) 0

/-- A selection with this test. -/
def selection (test : Word → Bool) (data bitmap : List Word) (size : Nat) : Option (List Word) :=
  for_int size (fun bitmap j => (selection_bits test data j).bind (store bitmap j)) bitmap

def selection_between_block (data bitmap : List Word) (p0 p1 : Word) : Nat → Option (List Word) :=
  selection (fun x => p0.sle x && p1.slt x) data bitmap

def selection_less_than_block (data bitmap : List Word) (p0 : Word) : Nat → Option (List Word) :=
  selection (fun x => x.slt p0) data bitmap

def selection_greater_than_block (data bitmap : List Word) (p0 : Word) : Nat → Option (List Word) :=
  selection (fun x => p0.sle x) data bitmap

/-- A primitive that stores one word of two. -/
def word_of_two (op : Word → Word → Word) (input data2 res : List Word) (size : Nat) :
    Option (List Word) :=
  for_int size (fun res i =>
    (load input i).bind (fun a => (load data2 i).bind (fun b => store res i (op a b)))) res

def logical_block : List Word → List Word → List Word → Nat → Option (List Word) :=
  word_of_two (· &&& ·)

def logical_block_or : List Word → List Word → List Word → Nat → Option (List Word) :=
  word_of_two (· ||| ·)

def arith_sum : List Word → List Word → List Word → Nat → Option (List Word) :=
  word_of_two (· + ·)

def arith_mul : List Word → List Word → List Word → Nat → Option (List Word) :=
  word_of_two (· * ·)

/-- The shift of an `int` to the right keeps its sign. -/
def materialize (input bitmap result : List Word) (size : Nat) : Option (List Word) :=
  for_int size (fun result j =>
    (List.range 32).foldlM (fun result (i : Nat) =>
      (load bitmap j).bind (fun bm => (load input (block_pos j + i)).bind (fun x =>
        store result (block_pos j + i) ((bm &&& ((1 : Word) <<< i)).sshiftRight i * x)))) result) result

/-- The sum of a position counts the neighbours up to it that are equal. The loop starts at 1. -/
def partial_prefix_sum (input result : List Word) (size : Nat) : Option (List Word) :=
  (store result 0 0).bind (for_int_from size (fun result j =>
    (load result (j - 1)).bind (fun before => (load input (j - 1)).bind (fun a =>
      (load input j).bind (fun b => store result j (before + (if a = b then 1 else 0))))))
    (2 ^ 31 + 1) 1)

/-- The loop over the rows of a block. -/
def block_sum (input : List Word) (j : Int) : Option Word :=
  (List.range 32).foldlM (fun agg (i : Nat) => (load input (block_pos j + i)).map (fun x => agg + x)) 0

def aggregate_block (input result : List Word) (size : Nat) : Option (List Word) :=
  for_int size (fun result j => (block_sum input j).bind (add_to result 0)) result

def ordered_aggregate_count_block (posList result : List Word) (size : Nat) : Option (List Word) :=
  for_int size (fun result i =>
    (load posList i).bind (fun pos => add_to result pos.toInt 1)) result

def ordered_aggregate_sum_block (posList input result : List Word) (size : Nat) :
    Option (List Word) :=
  for_int size (fun result i =>
    (load posList i).bind (fun pos => (load input i).bind (fun x => add_to result pos.toInt x)))
    result

/-! ## The turns of a loop -/

section turns

variable {σ : Type u} {size : Nat} {body : σ → Int → Option σ} {s : σ}

theorem bmod_small {k : Nat} (h : k < 2 ^ 31) : Int.bmod k (2 ^ 32) = k := by
  have hint := int_of_size_eq h
  unfold int_of_size at hint
  exact hint

theorem size_of_int_nat {k : Nat} (h : k < 2 ^ 31) : size_of_int k = k := by
  unfold size_of_int
  omega

/-- The turns of the loop while `j` has a next one. -/
theorem for_int_from_range (fuel : Nat) {k n : Nat} (hsize : k + n ≤ size) (hint : k + n < 2 ^ 31) :
    for_int_from size body (n + fuel) k s =
      ((List.range' k n).foldlM (fun s (i : Nat) => body s i) s).bind
        (for_int_from size body fuel (k + n : Nat)) := by
  induction n generalizing k s with
  | zero => simp
  | succ n ih =>
    have hj : size_of_int k < size := by
      rw [size_of_int_nat (by omega)]
      omega
    have hnext : int_next k = some ((k + 1 : Nat) : Int) := if_pos (by omega)
    rw [Nat.succ_add, for_int_from, if_pos hj, List.range'_succ, List.foldlM_cons, hnext]
    cases body s k with
    | none => rw [Option.bind_none, Option.bind_eq_bind, Option.bind_none, Option.bind_none]
    | some s1 =>
      have hend : k + (n + 1) = k + 1 + n := by omega
      rw [Option.bind_some, Option.bind_some, ih (by omega) (by omega), Option.bind_eq_bind,
        Option.bind_some, hend]

/-- A loop that starts at `k` and ends before the last `int`. -/
theorem for_int_from_eq (size : Nat) (body : σ → Int → Option σ) (s : σ) {k : Nat} (hk : k ≤ size)
    (hsize : size < 2 ^ 31) :
    for_int_from size body (2 ^ 31 + 1) k s =
      (List.range' k (size - k)).foldlM (fun s (i : Nat) => body s i) s := by
  obtain ⟨fuel, hfuel⟩ : ∃ fuel, 2 ^ 31 + 1 = (size - k) + (fuel + 1) :=
    ⟨2 ^ 31 - (size - k), by omega⟩
  have hend : ∀ s1, for_int_from size body (fuel + 1) size s1 = some s1 := by
    intro s1
    rw [for_int_from, size_of_int_nat hsize, if_neg (Nat.lt_irrefl size)]
  rw [hfuel, for_int_from_range (fuel + 1) (by omega) (by omega), Nat.add_sub_cancel' hk]
  simp only [hend]
  exact Option.bind_fun_some _

/-- A loop over fewer than 2^31 elements has one turn for each of them. -/
theorem for_int_eq (size : Nat) (body : σ → Int → Option σ) (s : σ) (hsize : size < 2 ^ 31) :
    for_int size body s = (List.range size).foldlM (fun s (i : Nat) => body s i) s := by
  have hrun := for_int_from_eq size body s (Nat.zero_le size) hsize
  rw [Nat.sub_zero, ← List.range_eq_range'] at hrun
  exact hrun

/-- A longer loop counts behind the last `int`. -/
theorem for_int_long (size : Nat) (body : σ → Int → Option σ) (s : σ) (hsize : 2 ^ 31 ≤ size) :
    for_int size body s = none := by
  have hrun := @for_int_from_range σ size body s 2 0 (2 ^ 31 - 1) (by omega) (by omega)
  have hlast : ∀ s1, for_int_from size body 2 (0 + (2 ^ 31 - 1) : Nat) s1 = none := by
    intro s1
    have hj : size_of_int (0 + (2 ^ 31 - 1) : Nat) < size := by
      rw [size_of_int_nat (by omega)]
      omega
    have hnext : int_next (0 + (2 ^ 31 - 1) : Nat) = none := if_neg (by omega)
    rw [for_int_from, if_pos hj, hnext]
    cases body s1 (0 + (2 ^ 31 - 1) : Nat) <;> rfl
  unfold for_int
  refine Eq.trans hrun ?_
  simp only [hlast]
  exact Option.bind_fun_none _

end turns

end hero.cpp_layer
