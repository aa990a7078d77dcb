-- The selections and `materialize` in both environments: the bitmap that each of them leaves, when
-- it is that of the range, when the two environments agree, and what a bitmap masks.
import HeroDB.FilterPipeline
import HeroDB.PrimitiveRanges

namespace hero.filter

open kernels loops aggregation

/-! ## The C++ loops as launches -/

section cpp

variable {W : Nat} {data bitmap : List Word}

theorem store_nat (array : List Word) (i : Nat) (x : Word) :
    cpp_layer.store array i x = kernels.store array i x := by
  unfold cpp_layer.store kernels.store
  simp only [Int.natCast_nonneg, true_and, Int.toNat_natCast]

theorem cpp_selection_bits_eq (test : Word → Bool) (data : List Word) {j : Nat} (h : j < 2 ^ 26) :
    cpp_layer.selection_bits test data j = selection_bits test data j := by
  unfold cpp_layer.selection_bits selection_bits kernels.block_pos
  rw [block_pos_small h]
  apply foldlM_congr
  intro i _ bm
  rw [← Int.natCast_add, load_nat]

/-- The launch that has its items in the order of their numbers, as a loop has its turns. -/
def Launching.in_order {items cells : Nat} (before : List Word) (room : cells ≤ before.length) :
    Launching items cells := ⟨List.range items, before, .refl _, room⟩

/-- A C++ selection over at most 2^26 blocks is a launch of the kernel with its test. -/
theorem cpp_selection_eq (test : Word → Bool) (data : List Word) (hroom : W ≤ bitmap.length)
    (hW : W ≤ 2 ^ 26) :
    cpp_layer.selection test data bitmap W =
      (@Launching.in_order W W bitmap hroom).launch (fun bitmap gid =>
        (selection_bits test data gid).bind (kernels.store bitmap gid)) := by
  unfold cpp_layer.selection
  rw [cpp_layer.for_int_eq _ _ _ (by omega)]
  apply foldlM_congr
  intro j hj s
  have hlt := List.mem_range.mp hj
  rw [cpp_selection_bits_eq test data (by omega)]
  simp only [store_nat]

/-- A C++ selection marks the rows of its test, and it does so as long as 32 times the number of a
block is an `int`. -/
theorem cpp_selection_marks (test : Word → Bool) (hdata : data.length = 32 * W)
    (hroom : W ≤ bitmap.length) (hW : W ≤ 2 ^ 26) :
    ∃ T, cpp_layer.selection test data bitmap W = some T ∧
      Marks W (fun r => test (data.getD r 0)) T := by
  rw [cpp_selection_eq test data hroom hW]
  exact launch_selection test hdata _

/-- What holds of the bitmap of a C++ selection, when the rows of its test decide it. -/
theorem cpp_selection_iff (test : Word → Bool) (hdata : data.length = 32 * W)
    (hroom : W ≤ bitmap.length) {Q : List Word → Prop} {R : Prop}
    (hQ : ∀ T, Marks W (fun r => test (data.getD r 0)) T → (Q T ↔ R)) :
    (∃ T, cpp_layer.selection test data bitmap W = some T ∧ Q T) ↔ W ≤ 2 ^ 26 ∧ R := by
  constructor
  · rintro ⟨T, hrun, hT⟩
    have hW := ((cpp_layer.selection_isSome test data bitmap W).mp
      (Option.isSome_iff_exists.mpr ⟨T, hrun⟩)).1
    obtain ⟨T', hrun', hmarks⟩ := cpp_selection_marks test hdata hroom hW
    rw [hrun', Option.some.injEq] at hrun
    rw [hrun] at hmarks
    exact ⟨hW, (hQ T hmarks).mp hT⟩
  · rintro ⟨hW, hR⟩
    obtain ⟨T, hrun, hmarks⟩ := cpp_selection_marks test hdata hroom hW
    exact ⟨T, hrun, (hQ T hmarks).mpr hR⟩

theorem selection_iff (test : Word → Bool) (hdata : data.length = 32 * W) (e : Launching W W)
    {Q : List Word → Prop} {R : Prop}
    (hQ : ∀ T, Marks W (fun r => test (data.getD r 0)) T → (Q T ↔ R)) :
    (∃ T, e.launch (fun bitmap gid =>
        (selection_bits test data gid).bind (kernels.store bitmap gid)) = some T ∧ Q T) ↔ R := by
  obtain ⟨T, hrun, hmarks⟩ := launch_selection test hdata e
  rw [hrun, ← hQ T hmarks]
  simp only [Option.some.injEq, exists_eq_left']

end cpp

/-! ## Range selections -/

/-- The bitmap selects a range: a bit is set only for a row from `c1` to `c2`, and it is set for
every row from `c1` to below `c2`. -/
def SelectsRange (W : Nat) (data : List Word) (c1 c2 : Word) (bitmap : List Word) : Prop :=
  ∀ j < W, ∃ bm, bitmap[j]? = some bm ∧ ∀ i < 32, ∃ x, data[32 * j + i]? = some x ∧
    (bm.getLsbD i = true → c1.toInt ≤ x.toInt ∧ x.toInt ≤ c2.toInt) ∧
    (c1.toInt ≤ x.toInt → x.toInt < c2.toInt → bm.getLsbD i = true)

section range

variable {W : Nat} {data bitmap T T' : List Word} {c1 c2 : Word} {p q : Nat → Bool}

theorem rows_iff {P : Nat → Prop} : (∀ j < W, ∀ i < 32, P (32 * j + i)) ↔ ∀ r < 32 * W, P r := by
  constructor
  · intro h r hr
    have hrow : 32 * (r / 32) + r % 32 = r := Nat.div_add_mod r 32
    rw [← hrow]
    exact h (r / 32) (by omega) (r % 32) (by omega)
  · intro h j hj i hi
    exact h (32 * j + i) (by omega)

theorem mem_iff_row (hdata : data.length = 32 * W) {P : Word → Prop} :
    (∀ x ∈ data, P x) ↔ ∀ r < 32 * W, P (data.getD r 0) := by
  rw [List.forall_mem_iff_forall_getElem, ← hdata]
  refine forall₂_congr fun r hr => ?_
  rw [List.getD_eq_getElem?_getD, List.getElem?_eq_getElem hr, Option.getD_some]

/-- A selection selects the range when its test is right for each row. -/
theorem selects_range_iff (test : Word → Bool) (hdata : data.length = 32 * W)
    (h : Marks W (fun r => test (data.getD r 0)) T) :
    SelectsRange W data c1 c2 T ↔ ∀ x ∈ data,
      (test x = true → c1.toInt ≤ x.toInt ∧ x.toInt ≤ c2.toInt) ∧
      (c1.toInt ≤ x.toInt → x.toInt < c2.toInt → test x = true) := by
  rw [mem_iff_row hdata, ← rows_iff]
  refine forall₂_congr fun j hj => ?_
  obtain ⟨bm, hbm, hbits⟩ := h j hj
  rw [hbm]
  simp only [Option.some.injEq, exists_eq_left']
  refine forall₂_congr fun i hi => ?_
  rw [getD_eq data (by omega), hbits i hi]
  simp only [Option.some.injEq, exists_eq_left']

theorem toInt_of_pos {x : Word} (h : 0 ≤ x.toInt) : x.toInt = x.toNat := by
  rw [BitVec.toInt_eq_toNat_cond] at h ⊢
  split at h <;> rename_i hsmall
  · rw [if_pos hsmall]
  · omega

/-- Between two bounds that are not negative, `selection_between_block` selects the range in both
environments if and only if each value is below the range or equal to its upper bound: its second
test is `c2 < data[pos]`. The C++ loop also needs 32 times each of its block numbers to be an
`int`. -/
theorem a_range_selection_selects_the_range_iff (hdata : data.length = 32 * W)
    (hroom : W ≤ bitmap.length) (hpos : ∀ x ∈ data, 0 ≤ x.toInt) (hc1 : 0 ≤ c1.toInt)
    (hc : c1.toInt ≤ c2.toInt) (e : Launching W W) :
    ((∃ T, cpp_layer.selection_between_block data bitmap c1 c2 W = some T ∧
        SelectsRange W data c1 c2 T) ↔
      W ≤ 2 ^ 26 ∧ ∀ x ∈ data, x.toInt < c1.toInt ∨ x.toInt = c2.toInt) ∧
    ((∃ T, e.launch (kernels.selection_between_block data c1 c2) = some T ∧
        SelectsRange W data c1 c2 T) ↔
      ∀ x ∈ data, x.toInt < c1.toInt ∨ x.toInt = c2.toInt) := by
  have hrows (test : Word → Bool)
      (htest : ∀ x ∈ data, test x = true ↔ c1.toInt ≤ x.toInt ∧ c2.toInt < x.toInt) (T : List Word)
      (h : Marks W (fun r => test (data.getD r 0)) T) : SelectsRange W data c1 c2 T ↔
        ∀ x ∈ data, x.toInt < c1.toInt ∨ x.toInt = c2.toInt := by
    rw [selects_range_iff test hdata h]
    refine forall₂_congr fun x hx => ?_
    rw [htest x hx]
    omega
  constructor
  · refine cpp_selection_iff _ hdata hroom (hrows (fun x => c1.sle x && c2.slt x) fun x _ => ?_)
    rw [Bool.and_eq_true, BitVec.sle_iff_toInt_le, BitVec.slt_iff_toInt_lt]
  · refine selection_iff _ hdata e (hrows (fun x => c1 ≤ x && c2 < x) fun x hx => ?_)
    rw [Bool.and_eq_true, decide_eq_true_iff, decide_eq_true_iff, toInt_of_pos (hpos x hx),
      toInt_of_pos hc1, toInt_of_pos (Int.le_trans hc1 hc), BitVec.le_def, BitVec.lt_def]
    omega

end range

def one_item : Launching 1 1 := ⟨[0], [0], by decide, by decide⟩

/-- A block of fives, asked for 7 to 9: nothing is selected, and nothing is in the range. -/
theorem a_block_below_the_range_is_not_selected :
    (∃ T, cpp_layer.selection_between_block (List.replicate 32 5) [0] 7 9 1 = some T ∧
      SelectsRange 1 (List.replicate 32 5) 7 9 T) ∧
    (∃ T, one_item.launch (kernels.selection_between_block (List.replicate 32 5) 7 9) = some T ∧
      SelectsRange 1 (List.replicate 32 5) 7 9 T) := by
  have hfive : ∀ x ∈ List.replicate 32 (5 : Word), x = 5 := fun x hx => List.eq_of_mem_replicate hx
  have hvalues : ∀ x ∈ List.replicate 32 (5 : Word),
      x.toInt < (7 : Word).toInt ∨ x.toInt = (9 : Word).toInt := by
    intro x hx
    rw [hfive x hx]
    exact .inl (by decide)
  obtain ⟨hcpp, hopenCL⟩ := @a_range_selection_selects_the_range_iff 1 (List.replicate 32 5) [0] 7 9
    List.length_replicate (by decide) (fun x hx => by rw [hfive x hx]; decide) (by decide)
    (by decide) one_item
  exact ⟨hcpp.mpr ⟨by decide, hvalues⟩, hopenCL.mpr hvalues⟩

/-- A block of fives, asked for 3 to 7: every row is in the range, and no bit is set. -/
theorem a_block_inside_the_range_is_not_selected :
    cpp_layer.selection_between_block (List.replicate 32 5) [0] 3 7 1 = some [0] ∧
      one_item.launch (kernels.selection_between_block (List.replicate 32 5) 3 7) = some [0] ∧
      ¬ SelectsRange 1 (List.replicate 32 5) 3 7 [0] := by
  refine ⟨?_, by decide, ?_⟩
  · rw [cpp_layer.selection_between_block, cpp_selection_eq (W := 1) _ _ (by decide) (by decide)]
    decide
  · intro h
    obtain ⟨bm, hbm, hbits⟩ := h 0 Nat.one_pos
    obtain ⟨x, hx, -, hset⟩ := hbits 0 (by decide)
    cases hbm
    cases hx
    exact absurd (hset (by decide) (by decide)) (by decide)

/-! ## Comparisons in both environments -/

/-- The two bitmaps have the same words. -/
def SameBitmap (W : Nat) (T T' : List Word) : Prop :=
  ∀ j < W, ∃ bm, T[j]? = some bm ∧ T'[j]? = some bm

section comparisons

variable {W : Nat} {data bitmap T T' : List Word} {p q : Nat → Bool}

theorem same_bitmap_iff (hp : Marks W p T) (hq : Marks W q T') :
    SameBitmap W T T' ↔ ∀ r < 32 * W, p r = q r := by
  rw [← rows_iff]
  refine forall₂_congr fun j hj => ?_
  obtain ⟨bm, hbm, hbits⟩ := hp j hj
  obtain ⟨bm', hbm', hbits'⟩ := hq j hj
  rw [hbm, hbm']
  simp only [Option.some.injEq, exists_eq_left']
  constructor
  · rintro rfl i hi
    rw [← hbits i hi, ← hbits' i hi]
  · intro h
    refine BitVec.eq_of_getLsbD_eq fun i hi => ?_
    rw [hbits i hi, hbits' i hi, h i hi]

/-- The C++ loop with one test and the OpenCL kernel with another one leave the same bitmap when
the tests agree on each row. -/
theorem selections_agree_iff (test test' : Word → Bool) (hdata : data.length = 32 * W)
    (hroom : W ≤ bitmap.length) (e : Launching W W) :
    (∃ T, cpp_layer.selection test data bitmap W = some T ∧
      ∃ T', e.launch (fun bitmap gid =>
        (selection_bits test' data gid).bind (kernels.store bitmap gid)) = some T' ∧
        SameBitmap W T T') ↔ W ≤ 2 ^ 26 ∧ ∀ x ∈ data, test x = test' x := by
  refine cpp_selection_iff test hdata hroom fun T hT => ?_
  refine selection_iff test' hdata e fun T' hT' => ?_
  rw [same_bitmap_iff hT hT', mem_iff_row hdata]

/-- A comparison of `int`s and one of `unsigned int`s differ where the signs do. -/
theorem slt_agrees_iff (x y : Word) :
    x.slt y = decide (x < y) ↔ (x.toInt < 0 ↔ y.toInt < 0) := by
  rw [Bool.eq_iff_iff, decide_eq_true_iff, BitVec.slt_iff_toInt_lt, BitVec.lt_def,
    BitVec.toInt_eq_toNat_cond, BitVec.toInt_eq_toNat_cond]
  omega

/-- The C++ `selection_greater_than_block` takes the rows that are equal to the constant. -/
theorem sle_agrees_iff (x y : Word) :
    x.sle y = decide (x < y) ↔ x ≠ y ∧ (x.toInt < 0 ↔ y.toInt < 0) := by
  rw [Bool.eq_iff_iff, decide_eq_true_iff, BitVec.sle_iff_toInt_le, BitVec.lt_def,
    BitVec.toInt_eq_toNat_cond, BitVec.toInt_eq_toNat_cond, ne_eq, ← BitVec.toNat_inj]
  omega

/-- The two environments leave the same bitmaps if and only if each value has the sign of the
constant and, for `selection_greater_than_block`, none is equal to it. The C++ loops also need 32
times each of their block numbers to be an `int`. -/
theorem the_comparisons_agree_iff (hdata : data.length = 32 * W) (hroom : W ≤ bitmap.length)
    (c1 : Word) (e : Launching W W) :
    ((∃ T, cpp_layer.selection_less_than_block data bitmap c1 W = some T ∧
      ∃ T', e.launch (kernels.selection_less_than_block data c1) = some T' ∧ SameBitmap W T T') ↔
        W ≤ 2 ^ 26 ∧ ∀ x ∈ data, (x.toInt < 0 ↔ c1.toInt < 0)) ∧
    ((∃ T, cpp_layer.selection_greater_than_block data bitmap c1 W = some T ∧
      ∃ T', e.launch (kernels.selection_greater_than_block data c1) = some T' ∧ SameBitmap W T T') ↔
        W ≤ 2 ^ 26 ∧ ∀ x ∈ data, x ≠ c1 ∧ (x.toInt < 0 ↔ c1.toInt < 0)) := by
  constructor
  · refine (selections_agree_iff (fun x => x.slt c1) (fun x => x < c1) hdata hroom e).trans ?_
    simp only [slt_agrees_iff]
  · refine (selections_agree_iff (fun x => c1.sle x) (fun x => c1 < x) hdata hroom e).trans ?_
    simp only [sle_agrees_iff, ne_comm, iff_comm]

end comparisons

/-- A block of fives is below 7 in both environments. -/
theorem a_block_below_the_constant_agrees :
    ∃ T, cpp_layer.selection_less_than_block (List.replicate 32 5) [0] 7 1 = some T ∧
      ∃ T', one_item.launch (kernels.selection_less_than_block (List.replicate 32 5) 7) = some T' ∧
        SameBitmap 1 T T' := by
  refine (the_comparisons_agree_iff (W := 1) List.length_replicate (by decide) 7 one_item).1.mpr
    ⟨by decide, fun x hx => ?_⟩
  rw [List.eq_of_mem_replicate hx]
  decide

/-- A block of fives, compared with 5: C++ selects every row, and OpenCL none. -/
theorem equal_rows_are_greater_in_cpp_only :
    ∃ T, cpp_layer.selection_greater_than_block (List.replicate 32 5) [0] 5 1 = some T ∧
      ∃ T', one_item.launch (kernels.selection_greater_than_block (List.replicate 32 5) 5) =
        some T' ∧ ¬ SameBitmap 1 T T' := by
  refine ⟨[BitVec.allOnes 32], ?_, [0], by decide, fun h => ?_⟩
  · rw [cpp_layer.selection_greater_than_block, cpp_selection_eq (W := 1) _ _ (by decide) (by decide)]
    decide
  · obtain ⟨bm, hbm, hbm'⟩ := h 0 Nat.one_pos
    cases hbm
    cases hbm'

/-! ## What a bitmap masks -/

/-- The result has the rows whose bits are set, and zeros in the other places. -/
def Masks (W : Nat) (input bitmap result : List Word) : Prop :=
  ∀ j < W, ∃ bm, bitmap[j]? = some bm ∧ ∀ i < 32, ∃ x, input[32 * j + i]? = some x ∧
    result[32 * j + i]? = some (if bm.getLsbD i then x else 0)

section masks

variable {W : Nat} {input bitmap result T : List Word}

/-- The bit of a row, cut out of its word with the shift of an `int`: the sign bit gives -1. -/
theorem cut_bit_signed (w : Word) {i : Nat} (hi : i < 32) :
    (w &&& ((1 : Word) <<< i)).sshiftRight i =
      if w.getLsbD i then (if i = 31 then -1 else 1) else 0 := by
  have hone : (1 : Word) <<< i = BitVec.twoPow 32 i := (BitVec.twoPow_eq 32 i).symm
  have hshift : ∀ i < 32, (BitVec.twoPow 32 i).sshiftRight i = if i = 31 then -1 else 1 := by decide
  rw [hone, BitVec.and_twoPow]
  split
  · exact hshift i hi
  · exact BitVec.zero_sshiftRight

theorem word_of_row (j : Nat) {i : Nat} (hi : i < 32) : (32 * j + i) / 32 = j := by
  omega

theorem bit_of_row (j : Nat) {i : Nat} (hi : i < 32) : (32 * j + i) % 32 = i := by
  omega

/-- What the C++ loop stores in a place. -/
def cpp_masked (input bitmap : List Word) (r : Nat) : Word :=
  if (bitmap.getD (r / 32) 0).getLsbD (r % 32) then
    (if r % 32 = 31 then -input.getD r 0 else input.getD r 0)
  else 0

/-- A C++ `materialize` over at most 2^26 blocks stores one word in each place. -/
theorem cpp_materialize_eq (hinput : input.length = 32 * W) (hbitmap : bitmap.length = W)
    (hroom : 32 * W ≤ result.length) (hW : W ≤ 2 ^ 26) :
    ∃ T, cpp_layer.materialize input bitmap result W = some T ∧
      ∀ r < 32 * W, T[r]? = some (cpp_masked input bitmap r) := by
  obtain ⟨T, hrun, -, hcells⟩ := launch_blocks (@Launching.in_order W (32 * W) result hroom)
    (fun result gid => (List.range 32).foldlM (fun result i =>
      kernels.store result (32 * gid + i) (cpp_masked input bitmap (32 * gid + i))) result)
    (cpp_masked input bitmap) (fun _ _ _ => rfl)
  refine ⟨T, ?_, hcells⟩
  rw [← hrun]
  unfold cpp_layer.materialize
  rw [cpp_layer.for_int_eq _ _ _ (by omega)]
  apply foldlM_congr
  intro j hj s
  have hlt := List.mem_range.mp hj
  apply foldlM_congr
  intro i hi s
  have hi := List.mem_range.mp hi
  rw [load_nat, getD_eq bitmap (by omega), Option.bind_some, block_pos_small (by omega),
    ← Int.natCast_add, load_nat, getD_eq input (by omega), Option.bind_some, store_nat,
    cut_bit_signed _ hi, cpp_masked, word_of_row j hi, bit_of_row j hi]
  congr 1
  split
  · split
    · rw [neg_one_mul]
    · rw [one_mul]
  · rw [zero_mul]

/-- What a result masks, when each of its places has its word. -/
theorem masks_iff (hinput : input.length = 32 * W) (hbitmap : bitmap.length = W)
    {value : Nat → Word} (hcells : ∀ r < 32 * W, T[r]? = some (value r)) :
    Masks W input bitmap T ↔ ∀ j < W, ∀ i < 32, value (32 * j + i) =
      if (bitmap.getD j 0).getLsbD i then input.getD (32 * j + i) 0 else 0 := by
  unfold Masks
  refine forall₂_congr fun j hj => ?_
  rw [getD_eq bitmap (by omega)]
  simp only [Option.some.injEq, exists_eq_left']
  refine forall₂_congr fun i hi => ?_
  rw [getD_eq input (by omega), hcells _ (by omega)]
  simp only [Option.some.injEq, exists_eq_left']

theorem neg_eq_self_iff (x : Word) : -x = x ↔ x = 0 ∨ x = BitVec.intMin 32 := by
  have hmin : BitVec.intMin 32 = 2147483648#32 := by decide
  rw [hmin]
  constructor
  · intro h
    bv_omega
  · rintro (rfl | rfl) <;> decide

/-- The C++ loop masks when the rows of the sign bits that are set are their own negatives. -/
theorem cpp_masks_iff (hinput : input.length = 32 * W) (hbitmap : bitmap.length = W)
    (hcells : ∀ r < 32 * W, T[r]? = some (cpp_masked input bitmap r)) :
    Masks W input bitmap T ↔ ∀ j < W, (bitmap.getD j 0).getLsbD 31 = true →
      input.getD (32 * j + 31) 0 = 0 ∨ input.getD (32 * j + 31) 0 = BitVec.intMin 32 := by
  rw [masks_iff hinput hbitmap hcells]
  refine forall₂_congr fun j hj => ?_
  constructor
  · intro h hset
    have hlast := h 31 (by decide)
    rw [cpp_masked, word_of_row j (by decide), bit_of_row j (by decide), if_pos hset, if_pos hset,
      if_pos rfl] at hlast
    exact (neg_eq_self_iff _).mp hlast
  · intro h i hi
    rw [cpp_masked, word_of_row j hi, bit_of_row j hi]
    split
    · rename_i hset
      split
      · rename_i hlast
        subst hlast
        exact (neg_eq_self_iff _).mpr (h hset)
      · rfl
    · rfl

theorem kernel_masks (hinput : input.length = 32 * W) (hbitmap : bitmap.length = W)
    (e : Launching W (32 * W)) :
    ∃ T, e.launch (kernels.materialize input bitmap) = some T ∧ Masks W input bitmap T := by
  have hmarks : Marks W (fun r => (bitmap.getD (r / 32) 0).getLsbD (r % 32)) bitmap := by
    intro j hj
    refine ⟨_, getD_eq bitmap (by omega), fun i hi => ?_⟩
    simp only [word_of_row j hi, bit_of_row j hi]
  obtain ⟨T, hrun, hcells⟩ := launch_materialize hinput hmarks e
  refine ⟨T, hrun, (masks_iff hinput hbitmap hcells).mpr fun j hj i hi => ?_⟩
  rw [word_of_row j hi, bit_of_row j hi]

/-- `materialize` masks its input in OpenCL always, and in C++ if and only if the rows of the sign
bits that are set are their own negatives: the shift of a negative `int` gives -1. The C++ loop
also needs 32 times each of its block numbers to be an `int`. -/
theorem materialize_masks_iff (hinput : input.length = 32 * W) (hbitmap : bitmap.length = W)
    (hroom : 32 * W ≤ result.length) (e : Launching W (32 * W)) :
    ((∃ T, cpp_layer.materialize input bitmap result W = some T ∧ Masks W input bitmap T) ↔
      W ≤ 2 ^ 26 ∧ ∀ j < W, (bitmap.getD j 0).getLsbD 31 = true →
        input.getD (32 * j + 31) 0 = 0 ∨ input.getD (32 * j + 31) 0 = BitVec.intMin 32) ∧
    ∃ T, e.launch (kernels.materialize input bitmap) = some T ∧ Masks W input bitmap T := by
  refine ⟨⟨?_, ?_⟩, kernel_masks hinput hbitmap e⟩
  · rintro ⟨T, hrun, hmasks⟩
    have hW := ((cpp_layer.materialize_isSome input bitmap result W).mp
      (Option.isSome_iff_exists.mpr ⟨T, hrun⟩)).1
    obtain ⟨T', hrun', hcells⟩ := cpp_materialize_eq hinput hbitmap hroom hW
    rw [hrun', Option.some.injEq] at hrun
    rw [← hrun] at hmasks
    exact ⟨hW, (cpp_masks_iff hinput hbitmap hcells).mp hmasks⟩
  · rintro ⟨hW, hlast⟩
    obtain ⟨T, hrun, hcells⟩ := cpp_materialize_eq hinput hbitmap hroom hW
    exact ⟨T, hrun, (cpp_masks_iff hinput hbitmap hcells).mpr hlast⟩

end masks

def one_block : Launching 1 32 := ⟨[0], List.replicate 32 0, by decide, by decide⟩

/-- A bitmap without sign bits masks a block of fives in both environments. -/
theorem a_block_without_its_last_row_is_masked :
    (∃ T, cpp_layer.materialize (List.replicate 32 5) [7] (List.replicate 32 0) 1 = some T ∧
      Masks 1 (List.replicate 32 5) [7] T) ∧
    ∃ T, one_block.launch (kernels.materialize (List.replicate 32 5) [7]) = some T ∧
      Masks 1 (List.replicate 32 5) [7] T := by
  obtain ⟨hcpp, hopenCL⟩ := @materialize_masks_iff 1 (List.replicate 32 5) [7]
    (List.replicate 32 0) List.length_replicate rfl (by decide) one_block
  refine ⟨hcpp.mpr ⟨by decide, fun j hj hset => ?_⟩, hopenCL⟩
  obtain rfl : j = 0 := by omega
  exact absurd hset (by decide)

/-- The last row of a block of fives is selected: the C++ loop stores -5 for it. -/
theorem the_last_row_of_a_block_is_negated_in_cpp :
    ∃ T, cpp_layer.materialize (List.replicate 32 5) [BitVec.intMin 32] (List.replicate 32 0) 1 =
      some T ∧ T.getD 31 0 = -5 ∧ ¬ Masks 1 (List.replicate 32 5) [BitVec.intMin 32] T := by
  obtain ⟨T, hrun, hcells⟩ := @cpp_materialize_eq 1 (List.replicate 32 5) [BitVec.intMin 32]
    (List.replicate 32 0) List.length_replicate rfl (by decide) (by decide)
  refine ⟨T, hrun, ?_, fun h => ?_⟩
  · rw [List.getD_eq_getElem?_getD, hcells 31 (by decide)]
    decide
  · have hrows := @masks_iff 1 (List.replicate 32 5) [BitVec.intMin 32] T List.length_replicate rfl
      _ hcells
    exact absurd (hrows.mp h 0 (by decide) 31 (by decide)) (by decide)

end hero.filter
