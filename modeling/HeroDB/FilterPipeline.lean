-- The filter pipeline of the OpenCL kernels: a predicate tree as bitmaps, two columns materialized
-- with it, multiplied and summed up, with the items of every launch in any order.
import HeroDB.Aggregation

namespace hero.filter

open kernels loops atomic_adds aggregation

/-! ## The pipeline -/

/-- A predicate: selections of columns at the leaves, and the logical kernels at the inner nodes. -/
inductive predicate
  | selection_less_than_block (data : List Word) (c1 : Word)
  | selection_greater_than_block (data : List Word) (c1 : Word)
  | logical_block (input data2 : predicate)
  | logical_block_or (input data2 : predicate)

/-- The rows that satisfy a predicate. -/
def predicate.satisfied : predicate → Nat → Bool
  | .selection_less_than_block data c1, r => data.getD r 0 < c1
  | .selection_greater_than_block data c1, r => c1 < data.getD r 0
  | .logical_block p q, r => p.satisfied r && q.satisfied r
  | .logical_block_or p q, r => p.satisfied r || q.satisfied r

def predicate.Columns (rows : Nat) : predicate → Prop
  | .selection_less_than_block data _ => data.length = rows
  | .selection_greater_than_block data _ => data.length = rows
  | .logical_block p q => p.Columns rows ∧ q.Columns rows
  | .logical_block_or p q => p.Columns rows ∧ q.Columns rows

/-- What is free in a launch: the order of its items, and what its output buffer holds before. -/
structure Launching (items cells : Nat) where
  order : List Nat
  before : List Word
  perm : order.Perm (List.range items)
  room : cells ≤ before.length

def Launching.launch {items cells : Nat} (x : Launching items cells)
    (kernel : List Word → Nat → Option (List Word)) : Option (List Word) :=
  x.order.foldlM kernel x.before

/-- The bitmap of a predicate. Each node of the tree has a launch of its own, found by the path to
the node. -/
def predicate.bitmap {W : Nat} : predicate → (List Bool → Launching W W) → Option (List Word)
  | .selection_less_than_block data c1, x =>
    (x []).launch (kernels.selection_less_than_block data c1)
  | .selection_greater_than_block data c1, x =>
    (x []).launch (kernels.selection_greater_than_block data c1)
  | .logical_block p q, x =>
    (p.bitmap (fun path => x (false :: path))).bind (fun a =>
      (q.bitmap (fun path => x (true :: path))).bind (fun b =>
        (x []).launch (kernels.logical_block a b)))
  | .logical_block_or p q, x =>
    (p.bitmap (fun path => x (false :: path))).bind (fun a =>
      (q.bitmap (fun path => x (true :: path))).bind (fun b =>
        (x []).launch (kernels.logical_block_or a b)))

structure Execution (W : Nat) where
  nodes : List Bool → Launching W W
  first : Launching W (32 * W)
  second : Launching W (32 * W)
  product : Launching (32 * W) (32 * W)
  sum : Launching W 1

/-- The pipeline: the bitmap, the two materialized columns, their products, and the sum. -/
def filter_sum {W : Nat} (p : predicate) (x y : List Word) (e : Execution W) :
    Option (List Word) :=
  (p.bitmap e.nodes).bind (fun bitmap =>
    (e.first.launch (materialize x bitmap)).bind (fun x' =>
      (e.second.launch (materialize y bitmap)).bind (fun y' =>
        (e.product.launch (arith_mul x' y')).bind (fun products =>
          e.sum.launch (aggregate_block products)))))

/-! ## Launches that store a word for each position -/

section launches

variable {items cells : Nat} {value : Nat → Word}

theorem launch_words (x : Launching items items) (kernel : List Word → Nat → Option (List Word))
    (value : Nat → Word) (hkernel : ∀ gid < items, ∀ result,
      kernel result gid = kernels.store result gid (value gid)) :
    ∃ T, x.launch kernel = some T ∧ items ≤ T.length ∧ ∀ i < items, T[i]? = some (value i) := by
  have hroom := x.room
  obtain ⟨T, hrun, hlen, hcells⟩ := sets_cells x.before x.order value kernel (by
    intro gid hgid result hlen
    have hlt : gid < items := List.mem_range.mp (x.perm.mem_iff.mp hgid)
    rw [hkernel gid hlt, kernels.store, if_pos (by omega)])
  refine ⟨T, hrun, by omega, ?_⟩
  intro i hi
  rw [hcells i (by omega), if_pos (x.perm.mem_iff.mpr (List.mem_range.mpr hi))]

theorem launch_blocks {W : Nat} (x : Launching W (32 * W))
    (kernel : List Word → Nat → Option (List Word)) (value : Nat → Word)
    (hkernel : ∀ gid < W, ∀ result, kernel result gid =
      (List.range 32).foldlM (fun result i =>
        kernels.store result (32 * gid + i) (value (32 * gid + i))) result) :
    ∃ T, x.launch kernel = some T ∧ 32 * W ≤ T.length ∧ ∀ i < 32 * W, T[i]? = some (value i) := by
  have hroom := x.room
  -- The launch is one loop over the positions of its blocks.
  have hflat : x.launch kernel =
      (x.order.flatMap (fun gid => (List.range 32).map (fun i => 32 * gid + i))).foldlM
        (fun result pos => kernels.store result pos (value pos)) x.before := by
    rw [Launching.launch, foldlM_flatMap]
    apply foldlM_congr
    intro gid hgid result
    rw [hkernel gid (List.mem_range.mp (x.perm.mem_iff.mp hgid)), List.foldlM_map]
  have hmem : ∀ pos, pos ∈ x.order.flatMap (fun gid => (List.range 32).map (fun i => 32 * gid + i)) ↔
      pos < 32 * W := by
    intro pos
    rw [← List.mem_range, ← slices_eq_range 32 W, List.mem_flatMap, List.mem_flatMap]
    simp only [x.perm.mem_iff]
  obtain ⟨T, hrun, hlen, hcells⟩ := sets_cells x.before
    (x.order.flatMap (fun gid => (List.range 32).map (fun i => 32 * gid + i))) value
    (fun result pos => kernels.store result pos (value pos)) (by
      intro pos hpos result hlen
      have hlt := (hmem pos).mp hpos
      simp only [kernels.store]
      rw [if_pos (by omega)])
  refine ⟨T, by rw [hflat, hrun], by omega, ?_⟩
  intro i hi
  rw [hcells i (by omega), if_pos ((hmem i).mpr hi)]

end launches

/-! ## Bits -/

section bits

variable {n : Nat}

theorem set_bit (b : Bool) (hn : n < 32) (i : Nat) :
    (if b then (1 : Word) <<< n else 0).getLsbD i = (b && decide (i = n)) := by
  cases b with
  | false => simp
  | true =>
    rw [if_pos rfl, BitVec.getLsbD_shiftLeft, Bool.true_and]
    rcases Nat.lt_trichotomy i n with hlt | rfl | hgt
    · simp [hlt, Nat.ne_of_lt hlt]
    · simp [hn]
    · simp [Nat.ne_of_gt hgt, show i - n ≠ 0 by omega]

/-- The bits that the loop of a selection has set after `n` rows. -/
theorem selection_bits_until (test : Word → Bool) (data : List Word) (gid : Nat)
    (h : 32 * (gid + 1) ≤ data.length) (hn : n ≤ 32) :
    ∃ bm : Word, (List.range n).foldlM (fun bm i => (data[block_pos gid + i]?).map (fun x =>
        bm ||| (if test x then (1 : Word) <<< i else 0))) 0 = some bm ∧
      ∀ i, bm.getLsbD i = (decide (i < n) && test (data.getD (32 * gid + i) 0)) := by
  induction n with
  | zero => exact ⟨0, rfl, by simp⟩
  | succ n ih =>
    obtain ⟨bm, hrun, hbits⟩ := ih (by omega)
    have hx : data[block_pos gid + n]? = some (data.getD (32 * gid + n) 0) := getD_eq data (by
      unfold block_pos
      omega)
    rw [List.range_succ, foldlM_snoc, hrun, Option.bind_some, hx]
    refine ⟨_, rfl, ?_⟩
    intro i
    rw [BitVec.getLsbD_or, hbits, set_bit _ (by omega)]
    rcases Nat.lt_trichotomy i n with hlt | rfl | hgt
    · simp [hlt, Nat.lt_succ_of_lt hlt, Nat.ne_of_lt hlt]
    · simp
    · simp [Nat.not_lt_of_lt hgt, Nat.ne_of_gt hgt, show ¬ i < n + 1 by omega]

/-- The bit of a row, cut out of its word. -/
theorem cut_bit (w : Word) {i : Nat} (hi : i < 32) :
    (w &&& ((1 : Word) <<< i)) >>> i = if w.getLsbD i then 1 else 0 := by
  apply BitVec.eq_of_getLsbD_eq
  intro k hk
  rw [BitVec.getLsbD_ushiftRight, BitVec.getLsbD_and, BitVec.getLsbD_shiftLeft]
  by_cases hk0 : k = 0
  · subst hk0
    cases w.getLsbD i <;> simp [hi]
  · cases w.getLsbD i <;> simp [hk0]

end bits

/-! ## The bitmap of a predicate -/

/-- Bit `i` of word `j` says whether row `32 * j + i` satisfies the predicate. -/
def Marks (W : Nat) (p : Nat → Bool) (bitmap : List Word) : Prop :=
  ∀ j < W, ∃ bm, bitmap[j]? = some bm ∧ ∀ i < 32, bm.getLsbD i = p (32 * j + i)

section pipeline

variable {W : Nat} {p q : Nat → Bool} {bitmap a b x y x' y' products : List Word}

theorem launch_selection {data : List Word} (test : Word → Bool) (hdata : data.length = 32 * W)
    (e : Launching W W) :
    ∃ bitmap, e.launch (fun bitmap gid =>
        (selection_bits test data gid).bind (kernels.store bitmap gid)) = some bitmap ∧
      Marks W (fun r => test (data.getD r 0)) bitmap := by
  have hbits : ∀ gid, ∃ bm : Word, gid < W → selection_bits test data gid = some bm ∧
      ∀ i < 32, bm.getLsbD i = test (data.getD (32 * gid + i) 0) := by
    intro gid
    by_cases hgid : gid < W
    · obtain ⟨bm, hrun, hbm⟩ := selection_bits_until test data gid (by omega) (Nat.le_refl 32)
      refine ⟨bm, fun _ => ⟨hrun, ?_⟩⟩
      intro i hi
      rw [hbm]
      simp [hi]
    · exact ⟨0, fun h => absurd h hgid⟩
  obtain ⟨value, hvalue⟩ := Classical.axiomOfChoice hbits
  obtain ⟨T, hrun, -, hcells⟩ := launch_words e (fun bitmap gid =>
      (selection_bits test data gid).bind (kernels.store bitmap gid)) value (by
    intro gid hgid result
    rw [(hvalue gid hgid).1, Option.bind_some])
  exact ⟨T, hrun, fun j hj => ⟨_, hcells j hj, (hvalue j hj).2⟩⟩

theorem launch_logical (op : Word → Word → Word) (both : Bool → Bool → Bool)
    (hop : ∀ (u w : Word) i, (op u w).getLsbD i = both (u.getLsbD i) (w.getLsbD i))
    (ha : Marks W p a) (hb : Marks W q b) (e : Launching W W) :
    ∃ bitmap, e.launch (word_of_two op a b) = some bitmap ∧
      Marks W (fun r => both (p r) (q r)) bitmap := by
  obtain ⟨T, hrun, -, hcells⟩ := launch_words e (word_of_two op a b)
      (fun j => op (a.getD j 0) (b.getD j 0)) (by
    intro gid hgid result
    obtain ⟨u, hu, -⟩ := ha gid hgid
    obtain ⟨w, hw, -⟩ := hb gid hgid
    have hua : a.getD gid 0 = u := by rw [List.getD_eq_getElem?_getD, hu, Option.getD_some]
    have hwb : b.getD gid 0 = w := by rw [List.getD_eq_getElem?_getD, hw, Option.getD_some]
    rw [word_of_two, hu, Option.bind_some, hw, Option.bind_some, hua, hwb])
  refine ⟨T, hrun, ?_⟩
  intro j hj
  obtain ⟨u, hu, hubits⟩ := ha j hj
  obtain ⟨w, hw, hwbits⟩ := hb j hj
  refine ⟨_, hcells j hj, ?_⟩
  intro i hi
  have hua : a.getD j 0 = u := by rw [List.getD_eq_getElem?_getD, hu, Option.getD_some]
  have hwb : b.getD j 0 = w := by rw [List.getD_eq_getElem?_getD, hw, Option.getD_some]
  rw [hop, hua, hwb, hubits i hi, hwbits i hi]

/-- Whatever the launches, a predicate gets the bitmap of its rows. -/
theorem bitmap_marks (p : predicate) (hcolumns : p.Columns (32 * W))
    (e : List Bool → Launching W W) :
    ∃ bitmap, p.bitmap e = some bitmap ∧ Marks W p.satisfied bitmap := by
  induction p generalizing e with
  | selection_less_than_block data c1 => exact launch_selection (fun x => x < c1) hcolumns (e [])
  | selection_greater_than_block data c1 => exact launch_selection (fun x => c1 < x) hcolumns (e [])
  | logical_block p q hp hq =>
    obtain ⟨a, ha, hamarks⟩ := hp hcolumns.1 (fun path => e (false :: path))
    obtain ⟨b, hb, hbmarks⟩ := hq hcolumns.2 (fun path => e (true :: path))
    obtain ⟨T, hT, hmarks⟩ := launch_logical (· &&& ·) and
      (fun u w i => BitVec.getLsbD_and) hamarks hbmarks (e [])
    refine ⟨T, ?_, hmarks⟩
    rw [predicate.bitmap, ha, Option.bind_some, hb, Option.bind_some]
    exact hT
  | logical_block_or p q hp hq =>
    obtain ⟨a, ha, hamarks⟩ := hp hcolumns.1 (fun path => e (false :: path))
    obtain ⟨b, hb, hbmarks⟩ := hq hcolumns.2 (fun path => e (true :: path))
    obtain ⟨T, hT, hmarks⟩ := launch_logical (· ||| ·) or
      (fun u w i => BitVec.getLsbD_or) hamarks hbmarks (e [])
    refine ⟨T, ?_, hmarks⟩
    rw [predicate.bitmap, ha, Option.bind_some, hb, Option.bind_some]
    exact hT

/-! ## The columns and the sum -/

/-- A materialized column has zeros where the bitmap has. -/
theorem launch_materialize (hx : x.length = 32 * W) (hbitmap : Marks W p bitmap)
    (e : Launching W (32 * W)) :
    ∃ x', e.launch (materialize x bitmap) = some x' ∧
      ∀ r < 32 * W, x'[r]? = some (if p r then x.getD r 0 else 0) := by
  obtain ⟨T, hrun, -, hcells⟩ := launch_blocks e (materialize x bitmap)
    (fun r => if p r then x.getD r 0 else 0) (by
    intro gid hgid result
    obtain ⟨bm, hbm, hbits⟩ := hbitmap gid hgid
    unfold materialize
    apply foldlM_congr
    intro i hi s
    have hlt := List.mem_range.mp hi
    have hrow : x[block_pos gid + i]? = some (x.getD (32 * gid + i) 0) := getD_eq x (by
      unfold block_pos
      omega)
    rw [hbm, Option.bind_some, hrow, Option.bind_some, cut_bit bm hlt, hbits i hlt]
    unfold block_pos
    congr 1
    split <;> simp)
  exact ⟨T, hrun, hcells⟩

theorem launch_arith_mul {f g : Nat → Word} (hx : ∀ r < 32 * W, x'[r]? = some (f r))
    (hy : ∀ r < 32 * W, y'[r]? = some (g r)) (e : Launching (32 * W) (32 * W)) :
    ∃ products, e.launch (arith_mul x' y') = some products ∧ 32 * W ≤ products.length ∧
      ∀ r < 32 * W, products[r]? = some (f r * g r) := by
  apply launch_words e (arith_mul x' y') (fun r => f r * g r)
  intro gid hgid result
  rw [arith_mul, word_of_two, hx gid hgid, Option.bind_some, hy gid hgid, Option.bind_some]

theorem block_totals_sum {f : Nat → Word} (n : Nat)
    (hcells : ∀ r < 32 * n, products[r]? = some (f r)) :
    ((List.range n).map (block_total products)).sum = ((List.range (32 * n)).map f).sum := by
  induction n with
  | zero => simp
  | succ n ih =>
    rw [List.range_succ, List.map_append, List.sum_append, ih (fun r hr => hcells r (by omega)),
      Nat.mul_succ, List.range_add, List.map_append, List.sum_append, List.map_singleton,
      List.sum_singleton, List.map_map, block_total]
    congr 2
    apply List.map_congr_left
    intro i hi
    have hlt := List.mem_range.mp hi
    rw [Function.comp_apply, List.getD_eq_getElem?_getD, hcells _ (by omega), Option.getD_some]

theorem launch_aggregate_block {f : Nat → Word} (hlen : 32 * W ≤ products.length)
    (hcells : ∀ r < 32 * W, products[r]? = some (f r)) (e : Launching W 1)
    (hzeros : ∀ w ∈ e.before, w = 0) :
    ∃ T, e.launch (aggregate_block products) = some T ∧
      T[0]? = some ((List.range (32 * W)).map f).sum := by
  have hroom : 0 < e.before.length := e.room
  have hrun : e.launch (aggregate_block products) = some (e.before.mapIdx (fun p x =>
      x + landed (fun _ => 0) (block_total products) (List.range W) p)) := by
    rw [← adds_perm e.perm (fun _ _ => hroom)]
    apply foldlM_congr
    intro gid hgid s
    have hlt := List.mem_range.mp (e.perm.mem_iff.mp hgid)
    rw [aggregate_block, block_sum_eq (by omega), Option.bind_some]
  refine ⟨_, hrun, ?_⟩
  have hzero : e.before[0]? = some 0 := by
    rw [List.getElem?_eq_getElem hroom, hzeros _ (List.getElem_mem hroom)]
  rw [List.getElem?_mapIdx, hzero, Option.map_some, landed_at_one_cell, zero_add,
    block_totals_sum W hcells]

theorem sum_of_satisfied (p : Nat → Bool) (f g : Nat → Word) (rows : List Nat) :
    (rows.map (fun r => (if p r then f r else 0) * (if p r then g r else 0))).sum =
      BitVec.ofNat 32 ((rows.filter p).map (fun r => (f r).toNat * (g r).toNat)).sum := by
  induction rows with
  | nil => rfl
  | cons r rest ih =>
    rw [List.map_cons, List.sum_cons, ih, List.filter_cons]
    by_cases hp : p r
    · rw [if_pos hp, if_pos hp, if_pos hp, List.map_cons, List.sum_cons, BitVec.ofNat_add,
        BitVec.ofNat_mul, BitVec.ofNat_toNat, BitVec.ofNat_toNat, BitVec.setWidth_eq,
        BitVec.setWidth_eq]
    · rw [if_neg hp, if_neg hp, if_neg hp, mul_zero, zero_add]

/-- Whatever the order of the items in each launch, and whatever the buffers held before, the
pipeline gives the sum of the products over the rows that satisfy the predicate, modulo 2^32. -/
theorem the_filter_pipeline_sums_the_satisfied_rows (p : predicate) (hcolumns : p.Columns (32 * W))
    (hx : x.length = 32 * W) (hy : y.length = 32 * W) (e : Execution W)
    (hzeros : ∀ w ∈ e.sum.before, w = 0) :
    ∃ T, filter_sum p x y e = some T ∧
      T[0]? = some (BitVec.ofNat 32 (((List.range (32 * W)).filter p.satisfied).map
        (fun r => (x.getD r 0).toNat * (y.getD r 0).toNat)).sum) := by
  obtain ⟨bitmap, hbitmap, hmarks⟩ := bitmap_marks p hcolumns e.nodes
  obtain ⟨x', hx', hxcells⟩ := launch_materialize hx hmarks e.first
  obtain ⟨y', hy', hycells⟩ := launch_materialize hy hmarks e.second
  obtain ⟨products, hproducts, hlen, hcells⟩ := launch_arith_mul hxcells hycells e.product
  obtain ⟨T, hT, hsum⟩ := launch_aggregate_block hlen hcells e.sum hzeros
  refine ⟨T, ?_, ?_⟩
  · unfold filter_sum
    rw [hbitmap, Option.bind_some, hx', Option.bind_some, hy', Option.bind_some, hproducts,
      Option.bind_some, hT]
  · rw [hsum, sum_of_satisfied]

end pipeline

def Launching.reversed (items cells : Nat) (w : Word) : Launching items cells where
  order := (List.range items).reverse
  before := List.replicate cells w
  perm := List.reverse_perm _
  room := Nat.le_of_eq List.length_replicate.symm

def first_block : predicate :=
  .logical_block (.selection_less_than_block (List.replicate 32 3 ++ List.replicate 32 8) 5)
    (.selection_greater_than_block (List.replicate 64 12) 9)

/-- Two blocks of rows, and the sum over the first. -/
theorem the_filter_pipeline_sums_the_first_block :
    ∃ T, filter_sum (W := 2) first_block (List.replicate 64 7) (List.replicate 64 2)
        ⟨fun _ => .reversed 2 2 1, .reversed 2 64 1, .reversed 2 64 1, .reversed 64 64 1,
          .reversed 2 1 0⟩ = some T ∧
      T[0]? = some (BitVec.ofNat 32 (((List.range (32 * 2)).filter first_block.satisfied).map
        (fun r => ((List.replicate 64 (7 : Word)).getD r 0).toNat *
          ((List.replicate 64 (2 : Word)).getD r 0).toNat)).sum) := by
  have hcolumns : first_block.Columns (32 * 2) := by
    refine ⟨?_, List.length_replicate⟩
    rw [predicate.Columns, List.length_append, List.length_replicate, List.length_replicate]
  exact the_filter_pipeline_sums_the_satisfied_rows _ hcolumns List.length_replicate
    List.length_replicate _ (fun _ hw => List.eq_of_mem_replicate hw)

end hero.filter
