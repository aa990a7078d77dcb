-- The kernels of a filter and of its aggregation: one work item of each `.cl` file, with the words
-- that it loads and the words that it stores.
import HeroDB.HashKernels
import HeroDB.Lib.AtomicAdds
import Mathlib.Data.BitVec

namespace hero.kernels

open atomic_adds

/-! ## Blocks of 32 rows -/

/-- The first row of the block of a work item. -/
def block_pos (gid : Nat) : Nat := 32 * gid

/-- The loop of the selections: bit `i` is set when row `i` of the block passes the test. -/
def selection_bits (test : Word → Bool) (data : List Word) (gid : Nat) : Option Word :=
  (List.range 32).foldlM (fun bm i =>
    (data[block_pos gid + i]?).map (fun x => bm ||| (if test x then (1 : Word) <<< i else 0))) 0

def selection_between_block (data : List Word) (c1 c2 : Word) (bitmap : List Word) (gid : Nat) :
    Option (List Word) :=
  (selection_bits (fun x => c1 ≤ x && c2 < x) data gid).bind (store bitmap gid)

def selection_less_than_block (data : List Word) (c1 : Word) (bitmap : List Word) (gid : Nat) :
    Option (List Word) :=
  (selection_bits (fun x => x < c1) data gid).bind (store bitmap gid)

def selection_greater_than_block (data : List Word) (c1 : Word) (bitmap : List Word) (gid : Nat) :
    Option (List Word) :=
  (selection_bits (fun x => c1 < x) data gid).bind (store bitmap gid)

/-- `size_t pos = 32 * get_global_id(0)`, and the loop over the block. -/
def materialize (input bitmap result : List Word) (gid : Nat) : Option (List Word) :=
  (List.range 32).foldlM (fun result i =>
    (bitmap[gid]?).bind (fun bm => (input[block_pos gid + i]?).bind (fun x =>
      store result (block_pos gid + i) (((bm &&& ((1 : Word) <<< i)) >>> i) * x)))) result

/-! ## Words of two inputs -/

/-- A kernel that stores one word of two. -/
def word_of_two (op : Word → Word → Word) (input data2 res : List Word) (gid : Nat) :
    Option (List Word) :=
  (input[gid]?).bind (fun a => (data2[gid]?).bind (fun b => store res gid (op a b)))

def logical_block : List Word → List Word → List Word → Nat → Option (List Word) :=
  word_of_two (· &&& ·)

def logical_block_or : List Word → List Word → List Word → Nat → Option (List Word) :=
  word_of_two (· ||| ·)

def arith_mul : List Word → List Word → List Word → Nat → Option (List Word) :=
  word_of_two (· * ·)

/-! ## Aggregation with atomic adds -/

/-- The loop of `aggregate_block`. -/
def block_sum (input : List Word) (gid : Nat) : Option Word :=
  (List.range 32).foldlM (fun agg i => (input[block_pos gid + i]?).map (fun x => agg + x)) 0

def aggregate_block (input result : List Word) (gid : Nat) : Option (List Word) :=
  (block_sum input gid).bind (fun agg => atomic_add result 0 agg)

def ordered_aggregate_count_block (posList result : List Word) (gid : Nat) : Option (List Word) :=
  (posList[gid]?).bind (fun pos => atomic_add result pos.toNat 1)

def ordered_aggregate_sum_block (posList input result : List Word) (gid : Nat) :
    Option (List Word) :=
  (posList[gid]?).bind (fun pos => (input[gid]?).bind (fun x => atomic_add result pos.toNat x))

end hero.kernels
