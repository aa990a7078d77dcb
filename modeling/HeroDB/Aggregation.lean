-- The laws of the aggregations: the order of the atomic adds does not matter, and the C++ loops
-- with the same global size leave the same words as long as their counter stays an `int`.
import HeroDB.BlockKernels
import HeroDB.CppPrimitives

namespace hero.aggregation

open atomic_adds loops

/-- Both runs go well and leave the same words. -/
def Agree (openCL cpp : Option (List Word)) : Prop := ∃ T, openCL = some T ∧ cpp = some T

/-- The slot of an entry of a position list. -/
def entry (posList : List Word) (i : Nat) : Nat := (posList.getD i 0).toNat

/-- The words of a block, added up. -/
def block_total (input : List Word) (gid : Nat) : Word :=
  ((List.range 32).map (fun i => input.getD (32 * gid + i) 0)).sum

/-- What a loop with an `int` counter needs to give all that `size` atomic adds give: it ends before
the last `int`, and no entry that it reads is negative as an `int`. -/
def CounterFits (slot : Nat → Nat) (size : Nat) : Prop :=
  size < 2 ^ 31 ∧ ∀ i < size, slot i < 2 ^ 31

section words

variable {input posList result T : List Word} {size i : Nat}

theorem getD_eq (input : List Word) (h : i < input.length) : input[i]? = some (input.getD i 0) := by
  rw [List.getElem?_eq_getElem h, List.getD_eq_getElem?_getD, List.getElem?_eq_getElem h]
  rfl

theorem block_sum_eq {gid : Nat} (h : 32 * (gid + 1) ≤ input.length) :
    kernels.block_sum input gid = some (block_total input gid) := by
  unfold kernels.block_sum kernels.block_pos block_total
  rw [sum_loop (fun i => input.getD (32 * gid + i) 0), zero_add]
  intro i hi
  have hlt := List.mem_range.mp hi
  exact getD_eq input (by omega)

end words

/-! ## The C++ loops -/

section cpp

open cpp_layer

variable {input posList result T : List Word} {size i : Nat}

theorem load_nat (array : List Word) (i : Nat) : load array i = array[i]? := by
  unfold load
  rw [if_pos (Int.natCast_nonneg i), Int.toNat_natCast]

theorem load_negative (array : List Word) {i : Int} (h : i < 0) : load array i = none := by
  unfold load
  rw [if_neg (by omega)]

theorem add_to_nat (array : List Word) (p : Nat) (x : Word) :
    add_to array p x = atomic_add array p x := by
  unfold add_to atomic_add
  rw [load_nat]
  cases hp : array[p]? with
  | none => rfl
  | some r =>
    have hlt := (List.getElem?_eq_some_iff.mp hp).1
    rw [Option.bind_some, Option.map_some, store, if_pos ⟨Int.natCast_nonneg p, by
      rwa [Int.toNat_natCast]⟩, Int.toNat_natCast]

theorem add_to_negative (array : List Word) {p : Int} (h : p < 0) (x : Word) :
    add_to array p x = none := by
  unfold add_to
  rw [load_negative array h, Option.bind_none]

/-- The block of a turn, while 32 times its number is an `int`. -/
theorem block_pos_small {j : Nat} (h : j < 2 ^ 26) : block_pos j = (32 * j : Nat) := by
  unfold block_pos
  exact_mod_cast bmod_small (k := 32 * j) (by omega)

theorem cpp_block_sum_eq (input : List Word) {j : Nat} (h : j < 2 ^ 26) :
    block_sum input j = kernels.block_sum input j := by
  unfold block_sum kernels.block_sum kernels.block_pos
  rw [block_pos_small h]
  apply foldlM_congr
  intro i _ agg
  rw [← Int.natCast_add, load_nat]

/-- 32 times 2^26 is no `int`: the block of this turn is before the array. -/
theorem cpp_block_sum_overflow (input : List Word) : block_sum input (2 ^ 26 : Nat) = none := by
  unfold block_sum
  have hpos : block_pos (2 ^ 26 : Nat) = -2 ^ 31 := by rfl
  rw [hpos, List.range_succ_eq_map, List.foldlM_cons, load_negative _ (by decide)]
  rfl

end cpp

/-! ## Both sides -/

section agree

open cpp_layer

variable {input posList result T : List Word} {size : Nat} {order : List Nat}
variable {slot : Nat → Nat} {amount : Nat → Word}

/-- A loop with an `int` counter whose turns are atomic adds to slots that are read as `int`s leaves
what the adds leave, or goes wrong. -/
theorem for_int_adds {body : List Word → Int → Option (List Word)}
    (hbody : ∀ i < size, ∀ s,
      body s i = if slot i < 2 ^ 31 then atomic_add s (slot i) (amount i) else none) :
    (CounterFits slot size → for_int size body result =
      (List.range size).foldlM (fun s i => atomic_add s (slot i) (amount i)) result) ∧
    (¬ CounterFits slot size → for_int size body result = none) := by
  by_cases hsize : size < 2 ^ 31
  · rw [for_int_eq size body result hsize]
    refine ⟨fun hfits => ?_, fun hfits => ?_⟩
    · apply foldlM_congr
      intro i hi s
      have hlt := List.mem_range.mp hi
      rw [hbody i hlt, if_pos (hfits.2 i hlt)]
    · -- The turn of a negative slot goes wrong.
      rw [Option.eq_none_iff_forall_ne_some]
      intro s' hs'
      refine hfits ⟨hsize, fun i hi => ?_⟩
      obtain ⟨s1, s2, hturn⟩ := every_turn hs' (List.mem_range.mpr hi)
      rw [hbody i hi] at hturn
      split at hturn
      · assumption
      · cases hturn
  · exact ⟨fun hfits => absurd hfits.1 hsize,
      fun _ => for_int_long size body result (Nat.le_of_not_lt hsize)⟩

/-- A launch whose items are atomic adds, and the loop of `int` turns with the same adds. -/
theorem adds_agree_iff (slot : Nat → Nat) (amount : Nat → Word)
    {item : List Word → Nat → Option (List Word)}
    {body : List Word → Int → Option (List Word)} (horder : order.Perm (List.range size))
    (hslot : ∀ i < size, slot i < result.length)
    (hitem : ∀ i < size, ∀ s, item s i = atomic_add s (slot i) (amount i))
    (hbody : ∀ i < size, ∀ s,
      body s i = if slot i < 2 ^ 31 then atomic_add s (slot i) (amount i) else none) :
    Agree (order.foldlM item result) (for_int size body result) ↔ CounterFits slot size := by
  have hslots : ∀ i ∈ List.range size, slot i < result.length :=
    fun i hi => hslot i (List.mem_range.mp hi)
  have hlaunch : order.foldlM item result =
      some (result.mapIdx (fun p x => x + landed slot amount (List.range size) p)) := by
    rw [← adds_perm horder hslots]
    apply foldlM_congr
    intro i hi s
    exact hitem i (List.mem_range.mp (horder.mem_iff.mp hi)) s
  obtain ⟨hfits, hnot⟩ := @for_int_adds result size slot amount body hbody
  rw [adds_eq hslots] at hfits
  unfold Agree
  rw [hlaunch]
  constructor
  · rintro ⟨T, -, hcpp⟩
    by_contra h
    rw [hnot h] at hcpp
    cases hcpp
  · intro h
    exact ⟨_, rfl, hfits h⟩

/-- An element of an array of sums, at an entry of a position list. -/
theorem add_to_entry (array : List Word) (pos x : Word) :
    add_to array pos.toInt x =
      if pos.toNat < 2 ^ 31 then atomic_add array pos.toNat x else none := by
  have hbound := pos.isLt
  rw [BitVec.toInt_eq_toNat_cond]
  by_cases h : pos.toNat < 2 ^ 31
  · rw [if_pos (by omega), if_pos h, add_to_nat]
  · rw [if_neg (by omega), if_neg h, add_to_negative]
    omega

theorem entry_eq {i : Nat} {pos : Word} (h : posList[i]? = some pos) :
    entry posList i = pos.toNat := by
  rw [entry, List.getD_eq_getElem?_getD, h, Option.getD_some]

theorem aggregate_block_agrees_iff (horder : order.Perm (List.range size))
    (hinput : 32 * size ≤ input.length) (hresult : result ≠ []) :
    Agree (order.foldlM (kernels.aggregate_block input) result)
      (cpp_layer.aggregate_block input result size) ↔ size ≤ 2 ^ 26 := by
  have hpos : 0 < result.length := List.length_pos_iff.mpr hresult
  unfold cpp_layer.aggregate_block
  constructor
  · rintro ⟨T, -, hcpp⟩
    -- A longer loop comes to the block that is before the array.
    by_contra hlong
    by_cases hsize : size < 2 ^ 31
    · rw [for_int_eq _ _ _ hsize] at hcpp
      obtain ⟨s1, s2, hturn⟩ := every_turn hcpp (x := 2 ^ 26) (List.mem_range.mpr (by omega))
      rw [cpp_block_sum_overflow, Option.bind_none] at hturn
      cases hturn
    · rw [for_int_long _ _ _ (Nat.le_of_not_lt hsize)] at hcpp
      cases hcpp
  · intro hsize
    rw [adds_agree_iff (fun _ => 0) (block_total input) horder (fun _ _ => hpos)]
    · exact ⟨by omega, fun _ _ => Nat.two_pow_pos 31⟩
    · intro i hi s
      rw [kernels.aggregate_block, block_sum_eq (by omega), Option.bind_some]
    · intro i hi s
      rw [cpp_block_sum_eq input (by omega), block_sum_eq (by omega), Option.bind_some,
        if_pos (by omega)]
      exact add_to_nat s 0 _

theorem ordered_aggregate_sum_block_agrees_iff (horder : order.Perm (List.range size))
    (hlist : size ≤ posList.length) (hinput : size ≤ input.length)
    (hentry : ∀ i < size, entry posList i < result.length) :
    Agree (order.foldlM (kernels.ordered_aggregate_sum_block posList input) result)
      (cpp_layer.ordered_aggregate_sum_block posList input result size) ↔
        CounterFits (entry posList) size := by
  unfold cpp_layer.ordered_aggregate_sum_block
  apply adds_agree_iff _ (fun i => input.getD i 0) horder hentry
  · intro i hi s
    have hpos := getD_eq posList (i := i) (by omega)
    rw [kernels.ordered_aggregate_sum_block, hpos, Option.bind_some, getD_eq input (by omega),
      Option.bind_some, entry_eq hpos]
  · intro i hi s
    have hpos := getD_eq posList (i := i) (by omega)
    rw [load_nat, hpos, Option.bind_some, load_nat, getD_eq input (by omega),
      Option.bind_some, add_to_entry, entry_eq hpos]

theorem ordered_aggregate_count_block_agrees_iff (horder : order.Perm (List.range size))
    (hlist : size ≤ posList.length) (hentry : ∀ i < size, entry posList i < result.length) :
    Agree (order.foldlM (kernels.ordered_aggregate_count_block posList) result)
      (cpp_layer.ordered_aggregate_count_block posList result size) ↔
        CounterFits (entry posList) size := by
  unfold cpp_layer.ordered_aggregate_count_block
  apply adds_agree_iff _ (fun _ => 1) horder hentry
  · intro i hi s
    have hpos := getD_eq posList (i := i) (by omega)
    rw [kernels.ordered_aggregate_count_block, hpos, Option.bind_some, entry_eq hpos]
  · intro i hi s
    have hpos := getD_eq posList (i := i) (by omega)
    rw [load_nat, hpos, Option.bind_some, add_to_entry, entry_eq hpos]

/-- The kernels and the C++ loops of the same names leave the same words, for every order of the
atomic adds, exactly when the block numbers times 32 are `int`s, and when the counter stays below
the last `int` and reads no entry that is negative as an `int`. -/
theorem the_aggregations_agree_exactly_while_their_counters_fit (input posList result : List Word)
    (horder : order.Perm (List.range size)) :
    (32 * size ≤ input.length → result ≠ [] →
      (Agree (order.foldlM (kernels.aggregate_block input) result)
        (cpp_layer.aggregate_block input result size) ↔ size ≤ 2 ^ 26)) ∧
    (size ≤ posList.length → size ≤ input.length →
      (∀ i < size, entry posList i < result.length) →
      (Agree (order.foldlM (kernels.ordered_aggregate_sum_block posList input) result)
        (cpp_layer.ordered_aggregate_sum_block posList input result size) ↔
          CounterFits (entry posList) size)) ∧
    (size ≤ posList.length → (∀ i < size, entry posList i < result.length) →
      (Agree (order.foldlM (kernels.ordered_aggregate_count_block posList) result)
        (cpp_layer.ordered_aggregate_count_block posList result size) ↔
          CounterFits (entry posList) size)) :=
  ⟨aggregate_block_agrees_iff horder, ordered_aggregate_sum_block_agrees_iff horder,
    ordered_aggregate_count_block_agrees_iff horder⟩

end agree

/-- One block, and two entries for one slot, in the order 1, 0. -/
theorem the_aggregations_agree_on_small_inputs :
    Agree ((List.range 1).foldlM (kernels.aggregate_block (List.replicate 32 3)) [5])
      (cpp_layer.aggregate_block (List.replicate 32 3) [5] 1) ∧
    Agree ([1, 0].foldlM (kernels.ordered_aggregate_sum_block [1, 1] [4, 6]) [0, 7])
      (cpp_layer.ordered_aggregate_sum_block [1, 1] [4, 6] [0, 7] 2) ∧
    Agree ([1, 0].foldlM (kernels.ordered_aggregate_count_block [1, 1]) [0, 7])
      (cpp_layer.ordered_aggregate_count_block [1, 1] [0, 7] 2) :=
  have hfits : CounterFits (entry [1, 1]) 2 := by
    unfold CounterFits
    decide
  ⟨((the_aggregations_agree_exactly_while_their_counters_fit _ [] _ (List.Perm.refl _)).1
      (by decide) (by decide)).mpr (by decide),
    ((the_aggregations_agree_exactly_while_their_counters_fit _ _ _ (by decide)).2.1 (by decide)
      (by decide) (by decide)).mpr hfits,
    ((the_aggregations_agree_exactly_while_their_counters_fit [] _ _ (by decide)).2.2 (by decide)
      (by decide)).mpr hfits⟩

/-- 2^26 + 1 blocks: the last one is behind the last `int`, and the C++ loop leaves its array. -/
theorem aggregate_block_leaves_its_array_at_a_block_behind_the_last_int :
    ¬ Agree ((List.range (2 ^ 26 + 1)).foldlM
        (kernels.aggregate_block (List.replicate (32 * (2 ^ 26 + 1)) 1)) [0])
      (cpp_layer.aggregate_block (List.replicate (32 * (2 ^ 26 + 1)) 1) [0] (2 ^ 26 + 1)) := by
  intro h
  have hsize := (aggregate_block_agrees_iff (List.Perm.refl _)
    (Nat.le_of_eq List.length_replicate.symm) (List.cons_ne_nil 0 [])).mp h
  omega

end hero.aggregation
