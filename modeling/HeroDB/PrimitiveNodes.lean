-- The C++ primitives as the kernels of a filter: their loops are launches in order, their comparisons
-- have a sign, and `materialize` negates the last row of a block.
import HeroDB.Bitmaps
import HeroDB.BlockNodes

namespace hero.filter

open loops aggregation runtime_layer

/-- What a primitive of `mKernelDictionary` leaves in its last array. -/
def primitive_words : kernel_run := fun kernel arrays params globalSize =>
  (cpp_layer.execute kernel arrays params globalSize).bind List.getLast?

/-- What the C++ `materialize` leaves of a row that is selected. -/
def signed_row (r : Nat) (w : Word) : Word := if r % 32 = 31 then -w else w

theorem signed_row_mul (r : Nat) (u w : Word) : signed_row r u * signed_row r w = u * w := by
  unfold signed_row
  split
  · exact neg_mul_neg u w
  · rfl

section words

open cpp_layer (Primitive)

variable {W : Nat} {p : Nat → Bool} {data a b c input bitmap result : List Word}
variable {params : List Int} {N : Nat}

/-- A primitive that writes the last of two arrays. A loop without turns leaves it. -/
theorem primitive_words_two (k : Primitive) {f : Nat → List Word → List Word → Option (List Word)}
    (hrun : k.run [a, b] (params.map (BitVec.ofInt 32)) N = Primitive.on_two [a, b] (f N))
    (hzero : f 0 a b = some b) : primitive_words k.name [a, b] params N = f N a b := by
  unfold primitive_words cpp_layer.execute
  rw [cpp_layer.mKernelDictionary_name, Option.bind_some, Primitive.call]
  split
  · rename_i h
    rw [h, hzero]
    rfl
  · rw [hrun]
    cases h : f N a b with
    | none => simp [Primitive.on_two, h]
    | some T => simp [Primitive.on_two, h]

/-- A primitive that writes the last of three arrays. -/
theorem primitive_words_three (k : Primitive)
    {f : Nat → List Word → List Word → List Word → Option (List Word)}
    (hrun : k.run [a, b, c] (params.map (BitVec.ofInt 32)) N = Primitive.on_three [a, b, c] (f N))
    (hzero : f 0 a b c = some c) : primitive_words k.name [a, b, c] params N = f N a b c := by
  unfold primitive_words cpp_layer.execute
  rw [cpp_layer.mKernelDictionary_name, Option.bind_some, Primitive.call]
  split
  · rename_i h
    rw [h, hzero]
    rfl
  · rw [hrun]
    cases h : f N a b c with
    | none => simp [Primitive.on_three, h]
    | some T => simp [Primitive.on_three, h]

/-- A loop over words is a launch in order. -/
theorem cpp_word_of_two_eq (op : Word → Word → Word) (a b result : List Word) (hN : N < 2 ^ 31) :
    cpp_layer.word_of_two op a b result N =
      (List.range N).foldlM (kernels.word_of_two op a b) result := by
  unfold cpp_layer.word_of_two
  rw [cpp_layer.for_int_eq _ _ _ hN]
  apply foldlM_congr
  intro i _ s
  simp only [load_nat, store_nat, kernels.word_of_two]

theorem cpp_aggregate_block_eq (data result : List Word) (hW : W ≤ 2 ^ 26) :
    cpp_layer.aggregate_block data result W =
      (List.range W).foldlM (kernels.aggregate_block data) result := by
  unfold cpp_layer.aggregate_block
  rw [cpp_layer.for_int_eq _ _ _ (by omega)]
  apply foldlM_congr
  intro j hj s
  have hlt := List.mem_range.mp hj
  rw [cpp_block_sum_eq data (by omega), kernels.aggregate_block]
  congr 1
  funext x
  exact add_to_nat s 0 x

theorem cpp_materialize_stores (hinput : input.length = 32 * W) (hbitmap : Marks W p bitmap)
    (hW : W ≤ 2 ^ 26) (result : List Word) :
    cpp_layer.materialize input bitmap result W = (List.range W).foldlM
      (stores_block (fun r => if p r then signed_row r (input.getD r 0) else 0)) result := by
  unfold cpp_layer.materialize
  rw [cpp_layer.for_int_eq _ _ _ (by omega)]
  apply foldlM_congr
  intro j hj s
  have hlt := List.mem_range.mp hj
  obtain ⟨bm, hbm, hbits⟩ := hbitmap j hlt
  unfold stores_block
  apply foldlM_congr
  intro i hi s
  have hi := List.mem_range.mp hi
  rw [load_nat, hbm, Option.bind_some, block_pos_small (by omega), ← Int.natCast_add, load_nat,
    getD_eq input (by omega), Option.bind_some, store_nat, cut_bit_signed _ hi, hbits i hi]
  dsimp only
  congr 1
  by_cases hp : p (32 * j + i)
  · rw [if_pos hp, if_pos hp, signed_row, bit_of_row j hi]
    split
    · rw [neg_one_mul]
    · rw [one_mul]
  · rw [if_neg hp, if_neg hp, zero_mul]

end words

/-- The primitives serve a filter as long as 32 times the number of a block is an `int`. -/
theorem primitives_serve (cpp : kernel_run) {W : Nat} (hW : 32 * W < 2 ^ 31) :
    Serves ⟨primitive_words, cpp⟩ W
      (fun c d w => (BitVec.ofInt 32 c).sle w && (BitVec.ofInt 32 d).slt w)
      (fun c w => w.slt (BitVec.ofInt 32 c)) signed_row where
  selection_between_block data c d hdata := by
    have hcall := @primitive_words_two data (List.replicate (32 * W) 0) [c, d] W
      .selection_between_block (fun N data bitmap => cpp_layer.selection_between_block data bitmap
        (BitVec.ofInt 32 c) (BitVec.ofInt 32 d) N) rfl
      (cpp_selection_eq _ _ (Nat.zero_le _) (Nat.zero_le _))
    refine ⟨List.range W, .refl _, hcall.trans ?_⟩
    exact cpp_selection_eq _ _ (by rw [List.length_replicate]; omega) (by omega)
  selection_less_than_block data c hdata := by
    have hcall := @primitive_words_two data (List.replicate (32 * W) 0) [c] W
      .selection_less_than_block (fun N data bitmap =>
        cpp_layer.selection_less_than_block data bitmap (BitVec.ofInt 32 c) N) rfl
      (cpp_selection_eq _ _ (Nat.zero_le _) (Nat.zero_le _))
    refine ⟨List.range W, .refl _, hcall.trans ?_⟩
    exact cpp_selection_eq _ _ (by rw [List.length_replicate]; omega) (by omega)
  logical_block a b ha hb := by
    have hcall := @primitive_words_three a b (List.replicate (32 * W) 0) [] (32 * W) .logical_block
      (fun N a b c => cpp_layer.logical_block a b c N) rfl
      (cpp_word_of_two_eq _ _ _ _ (by omega))
    refine ⟨List.range (32 * W), .refl _, hcall.trans ?_⟩
    exact cpp_word_of_two_eq _ _ _ _ hW
  materialize input bitmap p hinput hbitmap := by
    have hcall := @primitive_words_three input bitmap (List.replicate (32 * W) 0) [] W .materialize
      (fun N a b c => cpp_layer.materialize a b c N) rfl (cpp_layer.for_int_eq _ _ _ (by omega))
    refine ⟨List.range W, .refl _, hcall.trans ?_⟩
    exact cpp_materialize_stores hinput hbitmap (by omega) _
  arith_mul a b ha hb := by
    have hcall := @primitive_words_three a b (List.replicate (32 * W) 0) [] (32 * W) .arith_mul
      (fun N a b c => cpp_layer.arith_mul a b c N) rfl
      (cpp_word_of_two_eq _ _ _ _ (by omega))
    refine ⟨List.range (32 * W), .refl _, hcall.trans ?_⟩
    exact cpp_word_of_two_eq _ _ _ _ hW
  aggregate_block data hdata := by
    have hcall := @primitive_words_two data (List.replicate (32 * W) 0) [] W .aggregate_block
      (fun N a b => cpp_layer.aggregate_block a b N) rfl
      (cpp_aggregate_block_eq _ _ (Nat.zero_le _))
    refine ⟨List.range W, .refl _, hcall.trans ?_⟩
    exact cpp_aggregate_block_eq _ _ (by omega)

end hero.filter
