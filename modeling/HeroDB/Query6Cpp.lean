-- `query_6` in both environments: the primitives compare `int`s and negate the last row of each block,
-- but the products of the two columns are the same where no value is negative.
import HeroDB.CppEnvironment
import HeroDB.PrimitiveNodes
import HeroDB.Query6

namespace hero.tests.query_6

open runtime_layer filter

theorem toInt_ofInt_bound {c : Int} (hnonneg : 0 ≤ c) (hlt : c < 2 ^ 31) :
    (BitVec.ofInt 32 c).toInt = c := by
  rw [BitVec.toInt_ofInt, Int.bmod_def]
  split <;> omega

/-- Both comparisons of the primitive ask for larger values, too. -/
theorem above_both_signed {a b : Int} (hnonneg : 0 ≤ a) (hle : a ≤ b) (hlt : b < 2 ^ 31)
    (w : Word) :
    ((BitVec.ofInt 32 a).sle w && (BitVec.ofInt 32 b).slt w) = decide (b < w.toInt) := by
  have hfirst := toInt_ofInt_bound hnonneg (Int.lt_of_le_of_lt hle hlt)
  have hsecond := toInt_ofInt_bound (Int.le_trans hnonneg hle) hlt
  rw [BitVec.sle_eq_decide, BitVec.slt_eq_decide, hfirst, hsecond, ← Bool.decide_and,
    decide_eq_decide]
  omega

theorem below_bound_signed (w : Word) :
    w.slt (BitVec.ofInt 32 c5) = decide (w.toInt < c5) := by
  rw [BitVec.slt_eq_decide, toInt_ofInt_bound (by decide) (by decide)]

/-- The tests of the primitives select the rows that pass as `int`s. -/
theorem tested_by_primitives (rows : lineitem_rows) (r : Nat) :
    tested (fun c d w => (BitVec.ofInt 32 c).sle w && (BitVec.ofInt 32 d).slt w)
      (fun c w => w.slt (BitVec.ofInt 32 c)) rows r = rows.passes BitVec.toInt r := by
  obtain ⟨hc1, hc12, hc2⟩ := c2_bound
  obtain ⟨hc3, hc34, hc4⟩ := c4_bound
  unfold tested lineitem_rows.passes
  dsimp only
  rw [above_both_signed hc1 hc12 hc2, above_both_signed hc3 hc34 hc4, below_bound_signed]

/-- No value that is compared is negative as an `int`. -/
def lineitem_rows.NotNegative (rows : lineitem_rows) : Prop :=
  ∀ r < 32 * rows.W,
    0 ≤ (rows.shipdate r).toInt ∧ 0 ≤ (rows.quantity r).toInt ∧ 0 ≤ (rows.discount r).toInt

/-- Then the rows that pass are the same. -/
theorem lineitem_rows.NotNegative.products {rows : lineitem_rows} (h : rows.NotNegative) :
    rows.products BitVec.toInt = rows.products unsigned := by
  refine List.map_congr_left fun r hr => ?_
  obtain ⟨hshipdate, hquantity, hdiscount⟩ := h r (List.mem_range.mp hr)
  have hpasses : rows.passes BitVec.toInt r = rows.passes unsigned r := by
    unfold lineitem_rows.passes unsigned
    rw [toInt_of_pos hshipdate, toInt_of_pos hquantity, toInt_of_pos hdiscount]
  unfold lineitem_rows.product
  rw [hpasses]

section cpp

variable {items : String → List (List Word) → Nat → List Nat}

/-- In the C++ environment the query shows the products of the rows that pass as `int`s, and leaves
their sum behind the alias of the aggregation. Where no value is negative, these are the results of
the devices. -/
theorem query_6_agrees_in_both_environments
    (horder : ∀ kernel buffers n, (items kernel buffers n).Perm (List.range n)) (x : run) :
    ∃ s, (execute_graph ⟨block_kernels items, primitive_words⟩ (scan x.rows) x.process_queue
        (.before { q_ (32 * x.rows.W) (0, 0) with execution_environment := 1 } x.counter
          x.st)).stores = some s ∧
      (execute_graph ⟨block_kernels items, primitive_words⟩ (scan x.rows) x.process_queue
        (.before { q_ (32 * x.rows.W) (0, 0) with execution_environment := 1 } x.counter
          x.st)).results = [x.rows.products BitVec.toInt] ∧
      (∃ words, behind s (out_alias (scan x.rows) x.counter x.process_queue 10) = some words ∧
        words[0]? = some (x.rows.revenue BitVec.toInt)) ∧
      (x.rows.NotNegative →
        (execute_graph ⟨block_kernels items, primitive_words⟩ (scan x.rows) x.process_queue
          (.before { q_ (32 * x.rows.W) (0, 0) with execution_environment := 1 } x.counter
            x.st)).results =
          (execute_graph ⟨block_kernels items, primitive_words⟩ (scan x.rows) x.process_queue
            (.before (q_ (32 * x.rows.W) (0, 0)) x.counter x.st)).results) := by
  have hK := primitives_serve primitive_words x.rows.int_size
  have htested := fun r (_ : r < 32 * x.rows.W) => tested_by_primitives x.rows r
  have hlong : x.plan.ShownWhole (Kernels.words ⟨primitive_words, primitive_words⟩) := by
    obtain ⟨hedges, hcol, hsize⟩ := shown_column x hK htested signed_row_mul
    intro e he
    rw [hedges, List.mem_singleton] at he
    rw [he, hsize, hcol.length]
  have hshown := shown_products x hK htested signed_row_mul
  obtain ⟨s, hs, hresults, hkept⟩ := Plan.execute_graph_in_cpp
    ⟨block_kernels items, primitive_words⟩ x.plan (plan_loses_nothing x _)
    (plan_defined x hK htested signed_row_mul) hlong
  refine ⟨s, hs, hresults.trans hshown, ⟨_, hkept 10 (ag_is_op x), ?_⟩, fun hsigns => ?_⟩
  · exact (ag_means x hK htested signed_row_mul).meaning
  · obtain ⟨-, -, hdevices, -⟩ := openCL_run x (block_kernels_serve horder primitive_words x.rows.W)
      (fun r _ => tested_by_kernels x.rows r) (fun _ _ _ => rfl)
    rw [hdevices, ← hsigns.products]
    exact hresults.trans hshown

end cpp

/-- The block of rows that pass, in both environments. -/
theorem query_6_agrees_on_one_block :
    ∃ s, (execute_graph ⟨block_kernels (fun _ _ n => (List.range n).reverse), primitive_words⟩
        (scan one_block.rows) one_block.process_queue
        (.before { q_ (32 * one_block.rows.W) (0, 0) with execution_environment := 1 }
          one_block.counter one_block.st)).stores = some s ∧
      (execute_graph ⟨block_kernels (fun _ _ n => (List.range n).reverse), primitive_words⟩
        (scan one_block.rows) one_block.process_queue
        (.before { q_ (32 * one_block.rows.W) (0, 0) with execution_environment := 1 }
          one_block.counter one_block.st)).results = [one_block.rows.products BitVec.toInt] ∧
      (∃ words,
        behind s (out_alias (scan one_block.rows) one_block.counter one_block.process_queue 10) =
          some words ∧
        words[0]? = some (one_block.rows.revenue BitVec.toInt)) ∧
      (execute_graph ⟨block_kernels (fun _ _ n => (List.range n).reverse), primitive_words⟩
        (scan one_block.rows) one_block.process_queue
        (.before { q_ (32 * one_block.rows.W) (0, 0) with execution_environment := 1 }
          one_block.counter one_block.st)).results =
        (execute_graph ⟨block_kernels (fun _ _ n => (List.range n).reverse), primitive_words⟩
          (scan one_block.rows) one_block.process_queue
          (.before (q_ (32 * one_block.rows.W) (0, 0)) one_block.counter one_block.st)).results := by
  have hsigns : one_block.rows.NotNegative := by
    unfold lineitem_rows.NotNegative
    decide +kernel
  obtain ⟨s, hs, hresults, hsum, hsame⟩ := query_6_agrees_in_both_environments
    (fun _ _ n => List.reverse_perm (List.range n)) one_block
  exact ⟨s, hs, hresults, hsum, hsame hsigns⟩

end hero.tests.query_6
