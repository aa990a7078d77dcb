-- Which indexes of its arguments a C++ primitive reads and writes: a call goes well if and only if
-- its arrays are long enough for its loop.
import HeroDB.Aggregation

namespace hero.cpp_layer

open loops aggregation

universe u

/-! ## The registered primitives -/

/-- The primitives of `setup_environment` that the filter and aggregation plans are made of. -/
inductive Primitive
  | selection_between_block
  | selection_less_than_block
  | selection_greater_than_block
  | logical_block
  | logical_block_or
  | materialize
  | arith_sum
  | arith_mul
  | aggregate_block
deriving DecidableEq

namespace Primitive

def name : Primitive → String
  | selection_between_block => "selection_between_block"
  | selection_less_than_block => "selection_less_than_block"
  | selection_greater_than_block => "selection_greater_than_block"
  | logical_block => "logical_block"
  | logical_block_or => "logical_block_or"
  | materialize => "materialize"
  | arith_sum => "arith_sum"
  | arith_mul => "arith_mul"
  | aggregate_block => "aggregate_block"

/-- The `input_to_output_ratio` that the plans give to a node of the primitive. -/
def ratio : Primitive → Nat
  | logical_block | logical_block_or | arith_sum | arith_mul => 1
  | _ => 32

/-- The arrays that it reads, before the one that it writes. -/
def no_of_inputs : Primitive → Nat
  | selection_between_block | selection_less_than_block | selection_greater_than_block => 1
  | aggregate_block => 1
  | _ => 2

/-- The parameters that it reads. -/
def no_of_parameters : Primitive → Nat
  | selection_between_block => 2
  | selection_less_than_block | selection_greater_than_block => 1
  | _ => 0

/-- A function of two arrays that writes the second. A missing argument is an index outside of the
vector of the arguments. -/
def on_two (args : List (List Word)) (f : List Word → List Word → Option (List Word)) :
    Option (List (List Word)) := do
  let a ← args[0]?
  let b ← args[1]?
  (f a b).map (args.set 1)

/-- A function of three arrays that writes the third. -/
def on_three (args : List (List Word)) (f : List Word → List Word → List Word → Option (List Word)) :
    Option (List (List Word)) := do
  let a ← args[0]?
  let b ← args[1]?
  let c ← args[2]?
  (f a b c).map (args.set 2)

/-- A call with a launch size that is not 0: the arrays after it. -/
def run (args : List (List Word)) (parameters : List Word) (size : Nat) :
    Primitive → Option (List (List Word))
  | selection_between_block => do
    let p0 ← parameters[0]?
    let p1 ← parameters[1]?
    on_two args (fun data bitmap => cpp_layer.selection_between_block data bitmap p0 p1 size)
  | selection_less_than_block => do
    let p0 ← parameters[0]?
    on_two args (fun data bitmap => cpp_layer.selection_less_than_block data bitmap p0 size)
  | selection_greater_than_block => do
    let p0 ← parameters[0]?
    on_two args (fun data bitmap => cpp_layer.selection_greater_than_block data bitmap p0 size)
  | logical_block => on_three args (fun a b res => cpp_layer.logical_block a b res size)
  | logical_block_or => on_three args (fun a b res => cpp_layer.logical_block_or a b res size)
  | materialize =>
    on_three args (fun input bitmap result => cpp_layer.materialize input bitmap result size)
  | arith_sum => on_three args (fun a b res => cpp_layer.arith_sum a b res size)
  | arith_mul => on_three args (fun a b res => cpp_layer.arith_mul a b res size)
  | aggregate_block => on_two args (fun input result => cpp_layer.aggregate_block input result size)

/-- A loop without turns reads nothing. -/
def call (k : Primitive) (args : List (List Word)) (parameters : List Word) (size : Nat) :
    Option (List (List Word)) :=
  if size = 0 then some args else k.run args parameters size

/-- The lengths of the arrays are enough for a loop of this size. The blocks of 32 rows end where
`32 * j` is no `int`, and the loop over words before the last `int`. -/
def Fits (lengths : List Nat) (size : Nat) : Primitive → Prop
  | selection_between_block | selection_less_than_block | selection_greater_than_block =>
    size ≤ 2 ^ 26 ∧ 32 * size ≤ lengths.getD 0 0 ∧ size ≤ lengths.getD 1 0
  | logical_block | logical_block_or | arith_sum | arith_mul =>
    size < 2 ^ 31 ∧ size ≤ lengths.getD 0 0 ∧ size ≤ lengths.getD 1 0 ∧ size ≤ lengths.getD 2 0
  | materialize =>
    size ≤ 2 ^ 26 ∧ 32 * size ≤ lengths.getD 0 0 ∧ size ≤ lengths.getD 1 0 ∧
      32 * size ≤ lengths.getD 2 0
  | aggregate_block =>
    size ≤ 2 ^ 26 ∧ 32 * size ≤ lengths.getD 0 0 ∧ min size 1 ≤ lengths.getD 1 0

end Primitive

/-! ## Indexes -/

/-- The index is one of an array of `n` words. -/
def Within (n : Nat) (i : Int) : Prop := 0 ≤ i ∧ i.toNat < n

theorem within_nat {n i : Nat} : Within n i ↔ i < n := by
  unfold Within
  omega

theorem load_isSome {array : List Word} {i : Int} : (load array i).isSome ↔ Within array.length i := by
  unfold load Within
  split
  · rename_i hpos
    simp [hpos]
  · rename_i hneg
    simp [hneg]

theorem store_isSome {array : List Word} {i : Int} {x : Word} :
    (store array i x).isSome ↔ Within array.length i := by
  unfold store Within
  split
  · rename_i h
    simp [h]
  · rename_i h
    simp only [Option.isSome_none, Bool.false_eq_true, false_iff]
    exact h

theorem length_of_store {array array' : List Word} {i : Int} {x : Word}
    (h : store array i x = some array') : array'.length = array.length := by
  unfold store at h
  split at h
  · cases h
    exact List.length_set
  · cases h

/-- A binding goes well when both parts do. -/
theorem isSome_bind_iff {α β : Type} {o : Option α} {f : α → Option β} {P Q : Prop}
    (ho : o.isSome ↔ P) (hf : ∀ a, (f a).isSome ↔ Q) : (o.bind f).isSome ↔ P ∧ Q := by
  cases o with
  | none =>
    have hP : ¬ P := fun h => by simpa using ho.mpr h
    simp [hP]
  | some a =>
    have hP : P := ho.mp rfl
    rw [Option.bind_some, hf a, and_iff_right hP]

/-! ## Loops -/

section loop

variable {σ : Type u} {size : Nat} {body : σ → Int → Option σ} {s : σ}

/-- A loop with an `int` that goes well ends before the last `int`. -/
theorem for_int_isSome (Inv : σ → Prop) (P : Nat → Prop)
    (hturn : ∀ s1 (i : Nat), Inv s1 → ((body s1 i).isSome ↔ P i))
    (hkeep : ∀ s1 (i : Int) s2, Inv s1 → body s1 i = some s2 → Inv s2) (h : Inv s) :
    (for_int size body s).isSome ↔ size < 2 ^ 31 ∧ ∀ i < size, P i := by
  by_cases hsize : size < 2 ^ 31
  · rw [for_int_eq size body s hsize, and_iff_right hsize,
      goes_well_iff Inv P (fun s1 i => hturn s1 i) (fun s1 i s2 => hkeep s1 i s2) h]
    simp only [List.mem_range]
  · rw [for_int_long size body s (Nat.le_of_not_lt hsize)]
    exact iff_of_false Bool.false_ne_true (fun hall => hsize hall.1)

end loop

/-- The 32 rows of a block lie in the array. -/
def BlockWithin (n j : Nat) : Prop := ∀ i < 32, Within n (block_pos j + (i : Nat))

theorem block_within {n j : Nat} (h : j < 2 ^ 26) : BlockWithin n j ↔ 32 * j + 32 ≤ n := by
  unfold BlockWithin
  rw [block_pos_small h]
  constructor
  · intro hall
    have hlast := (hall 31 (by omega)).2
    omega
  · intro hle i hi
    unfold Within
    omega

theorem not_block_within (n : Nat) : ¬ BlockWithin n (2 ^ 26) := by
  intro h
  have hpos : block_pos (2 ^ 26 : Nat) = -2 ^ 31 := rfl
  have hfirst := (h 0 (by omega)).1
  rw [hpos] at hfirst
  omega

/-- The blocks of a loop lie in the array. -/
theorem blocks_within {n size : Nat} :
    (∀ j < size, BlockWithin n j) ↔ size ≤ 2 ^ 26 ∧ 32 * size ≤ n := by
  constructor
  · intro h
    have hsize : size ≤ 2 ^ 26 := by
      by_contra hlt
      exact not_block_within n (h (2 ^ 26) (by omega))
    refine ⟨hsize, ?_⟩
    cases size with
    | zero => omega
    | succ k =>
      have hlast := (block_within (by omega)).mp (h k (by omega))
      omega
  · rintro ⟨hsize, hn⟩ j hj
    rw [block_within (by omega)]
    omega

theorem words_within {n size : Nat} : (∀ i < size, i < n) ↔ size ≤ n := by
  constructor
  · intro h
    by_contra hlt
    exact absurd (h n (by omega)) (Nat.lt_irrefl n)
  · intro h i hi
    omega

theorem some_turn {n size : Nat} : (∀ j < size, 0 < n) ↔ min size 1 ≤ n := by
  constructor
  · intro h
    cases size with
    | zero => omega
    | succ k =>
      have hpos := h 0 (by omega)
      omega
  · intro h j hj
    omega

/-! ## The primitives -/

theorem selection_bits_isSome (test : Word → Bool) (data : List Word) (j : Nat) :
    (selection_bits test data j).isSome ↔ BlockWithin data.length j := by
  unfold selection_bits BlockWithin
  rw [goes_well_iff (fun _ => True) (fun i => Within data.length (block_pos j + (i : Nat)))
    (fun bm i _ => by rw [Option.isSome_map, load_isSome]) (fun _ _ _ _ _ => trivial) trivial]
  simp only [List.mem_range]

theorem selection_isSome (test : Word → Bool) (data bitmap : List Word) (size : Nat) :
    (selection test data bitmap size).isSome ↔
      size ≤ 2 ^ 26 ∧ 32 * size ≤ data.length ∧ size ≤ bitmap.length := by
  unfold selection
  rw [for_int_isSome (fun b => b.length = bitmap.length)
    (fun j => BlockWithin data.length j ∧ j < bitmap.length)]
  · rw [forall₂_and, blocks_within, words_within]
    omega
  · intro b j hb
    refine isSome_bind_iff (selection_bits_isSome test data j) (fun bm => ?_)
    rw [store_isSome, hb, within_nat]
  · intro b j b' hb hrun
    rw [Option.bind_eq_some_iff] at hrun
    obtain ⟨bm, -, hstore⟩ := hrun
    rw [length_of_store hstore, hb]
  · rfl

theorem word_of_two_isSome (op : Word → Word → Word) (input data2 res : List Word) (size : Nat) :
    (word_of_two op input data2 res size).isSome ↔
      size < 2 ^ 31 ∧ size ≤ input.length ∧ size ≤ data2.length ∧ size ≤ res.length := by
  unfold word_of_two
  rw [for_int_isSome (fun r => r.length = res.length)
    (fun i => i < input.length ∧ i < data2.length ∧ i < res.length)]
  · rw [forall₂_and, forall₂_and, words_within, words_within, words_within]
  · intro r i hr
    refine isSome_bind_iff (load_isSome.trans within_nat) (fun a => ?_)
    refine isSome_bind_iff (load_isSome.trans within_nat) (fun b => ?_)
    rw [store_isSome, hr, within_nat]
  · intro r i r' hr hrun
    simp only [Option.bind_eq_some_iff] at hrun
    obtain ⟨a, -, b, -, hstore⟩ := hrun
    rw [length_of_store hstore, hr]
  · rfl

theorem materialize_isSome (input bitmap result : List Word) (size : Nat) :
    (materialize input bitmap result size).isSome ↔
      size ≤ 2 ^ 26 ∧ 32 * size ≤ input.length ∧ size ≤ bitmap.length ∧
        32 * size ≤ result.length := by
  unfold materialize
  have hkeep : ∀ (j : Int) (r : List Word) (i : Nat) (r' : List Word), r.length = result.length →
      (load bitmap j).bind (fun bm => (load input (block_pos j + i)).bind (fun x =>
        store r (block_pos j + i) ((bm &&& ((1 : Word) <<< i)).sshiftRight i * x))) = some r' →
      r'.length = result.length := by
    intro j r i r' hr hrun
    simp only [Option.bind_eq_some_iff] at hrun
    obtain ⟨bm, -, x, -, hstore⟩ := hrun
    rw [length_of_store hstore, hr]
  rw [for_int_isSome (fun r => r.length = result.length)
    (fun j => j < bitmap.length ∧ BlockWithin input.length j ∧ BlockWithin result.length j)]
  · rw [forall₂_and, forall₂_and, blocks_within, blocks_within, words_within]
    omega
  · intro r j hr
    rw [goes_well_iff (fun r => r.length = result.length) (fun i => j < bitmap.length ∧
      Within input.length (block_pos j + (i : Nat)) ∧
      Within result.length (block_pos j + (i : Nat)))]
    · simp only [List.mem_range]
      rw [forall₂_and, forall₂_and]
      refine and_congr_left fun _ => ⟨fun h => h 0 (by omega), fun h _ _ => h⟩
    · intro r i hr
      refine isSome_bind_iff (load_isSome.trans within_nat) (fun bm => ?_)
      refine isSome_bind_iff load_isSome (fun x => ?_)
      rw [store_isSome, hr]
    · exact fun r i r' => hkeep j r i r'
    · exact hr
  · intro r j r' hr hrun
    exact keeps (fun _ r => r.length = result.length)
      (fun _ i _ r1 r2 _ hr1 hstep => hkeep j r1 i r2 hr1 hstep) hrun hr
  · rfl

theorem block_sum_isSome (input : List Word) (j : Nat) :
    (block_sum input j).isSome ↔ BlockWithin input.length j := by
  unfold block_sum BlockWithin
  rw [goes_well_iff (fun _ => True) (fun i => Within input.length (block_pos j + (i : Nat)))
    (fun agg i _ => by rw [Option.isSome_map, load_isSome]) (fun _ _ _ _ _ => trivial) trivial]
  simp only [List.mem_range]

theorem length_of_add_to {array array' : List Word} {i : Int} {x : Word}
    (h : add_to array i x = some array') : array'.length = array.length := by
  unfold add_to at h
  rw [Option.bind_eq_some_iff] at h
  obtain ⟨r, -, hstore⟩ := h
  exact length_of_store hstore

theorem add_to_isSome {array : List Word} {i : Int} {x : Word} :
    (add_to array i x).isSome ↔ Within array.length i := by
  unfold add_to
  rw [isSome_bind_iff load_isSome (fun r => store_isSome), and_self]

theorem aggregate_block_isSome (input result : List Word) (size : Nat) :
    (aggregate_block input result size).isSome ↔
      size ≤ 2 ^ 26 ∧ 32 * size ≤ input.length ∧ min size 1 ≤ result.length := by
  unfold aggregate_block
  rw [for_int_isSome (fun r => r.length = result.length)
    (fun j => BlockWithin input.length j ∧ 0 < result.length)]
  · rw [forall₂_and, blocks_within, some_turn]
    omega
  · intro r j hr
    refine isSome_bind_iff (block_sum_isSome input j) (fun agg => ?_)
    rw [add_to_isSome, hr]
    exact within_nat
  · intro r j r' hr hrun
    rw [Option.bind_eq_some_iff] at hrun
    obtain ⟨agg, -, hadd⟩ := hrun
    rw [length_of_add_to hadd, hr]
  · rfl

/-! ## Calls -/

namespace Primitive

variable {args : List (List Word)} {size : Nat}

theorem getD_length (args : List (List Word)) (i : Nat) :
    (args.map List.length).getD i 0 = ((args[i]?).map List.length).getD 0 := by
  rw [List.getD_eq_getElem?_getD, List.getElem?_map]

theorem on_two_isSome {f : List Word → List Word → Option (List Word)} {P : Nat → Nat → Prop}
    (hf : ∀ a b, (f a b).isSome ↔ P a.length b.length) (hpos : ∀ a b, P a b → 0 < a ∧ 0 < b) :
    (on_two args f).isSome ↔
      P ((args.map List.length).getD 0 0) ((args.map List.length).getD 1 0) := by
  unfold on_two
  rw [getD_length, getD_length]
  cases args[0]? with
  | none =>
    have hnot : ∀ b, ¬ P 0 b := fun b h => absurd (hpos 0 b h).1 (Nat.lt_irrefl 0)
    simp [hnot]
  | some a =>
    cases args[1]? with
    | none =>
      have hnot : ∀ a, ¬ P a 0 := fun a h => absurd (hpos a 0 h).2 (Nat.lt_irrefl 0)
      simp [hnot]
    | some b => simp [← hf]

theorem on_three_isSome {f : List Word → List Word → List Word → Option (List Word)}
    {P : Nat → Nat → Nat → Prop} (hf : ∀ a b c, (f a b c).isSome ↔ P a.length b.length c.length)
    (hpos : ∀ a b c, P a b c → 0 < a ∧ 0 < b ∧ 0 < c) :
    (on_three args f).isSome ↔ P ((args.map List.length).getD 0 0)
      ((args.map List.length).getD 1 0) ((args.map List.length).getD 2 0) := by
  unfold on_three
  rw [getD_length, getD_length, getD_length]
  cases args[0]? with
  | none =>
    have hnot : ∀ b c, ¬ P 0 b c := fun b c h => absurd (hpos 0 b c h).1 (Nat.lt_irrefl 0)
    simp [hnot]
  | some a =>
    cases args[1]? with
    | none =>
      have hnot : ∀ a c, ¬ P a 0 c := fun a c h => absurd (hpos a 0 c h).2.1 (Nat.lt_irrefl 0)
      simp [hnot]
    | some b =>
      cases args[2]? with
      | none =>
        have hnot : ∀ a b, ¬ P a b 0 := fun a b h => absurd (hpos a b 0 h).2.2 (Nat.lt_irrefl 0)
        simp [hnot]
      | some c => simp [← hf]

theorem no_of_inputs_pos (k : Primitive) : 0 < k.no_of_inputs := by
  cases k <;> decide

/-- A call with its parameters reads and writes only inside of its arrays if and only if they are
long enough for its loop. -/
theorem call_isSome (k : Primitive) (args : List (List Word)) (parameters : List Word) (size : Nat)
    (hparameters : k.no_of_parameters ≤ parameters.length) :
    (k.call args parameters size).isSome ↔ k.Fits (args.map List.length) size := by
  unfold call
  by_cases hzero : size = 0
  · subst hzero
    cases k <;> simp [Fits]
  · have hpos : 0 < size := Nat.pos_of_ne_zero hzero
    have hblock : ∀ a b, size ≤ 2 ^ 26 ∧ 32 * size ≤ a ∧ size ≤ b → 0 < a ∧ 0 < b := by omega
    have hwords : ∀ a b c, size < 2 ^ 31 ∧ size ≤ a ∧ size ≤ b ∧ size ≤ c →
        0 < a ∧ 0 < b ∧ 0 < c := by omega
    rw [if_neg hzero]
    cases k with
    | selection_between_block =>
      have hfirst : 0 < parameters.length := Nat.lt_of_succ_lt hparameters
      have hsecond : 1 < parameters.length := hparameters
      simp only [run, List.getElem?_eq_getElem hfirst, List.getElem?_eq_getElem hsecond]
      exact on_two_isSome (fun data bitmap => selection_isSome _ data bitmap size) hblock
    | selection_less_than_block =>
      have hfirst : 0 < parameters.length := hparameters
      simp only [run, List.getElem?_eq_getElem hfirst]
      exact on_two_isSome (fun data bitmap => selection_isSome _ data bitmap size) hblock
    | selection_greater_than_block =>
      have hfirst : 0 < parameters.length := hparameters
      simp only [run, List.getElem?_eq_getElem hfirst]
      exact on_two_isSome (fun data bitmap => selection_isSome _ data bitmap size) hblock
    | logical_block => exact on_three_isSome (fun a b c => word_of_two_isSome _ a b c size) hwords
    | logical_block_or => exact on_three_isSome (fun a b c => word_of_two_isSome _ a b c size) hwords
    | arith_sum => exact on_three_isSome (fun a b c => word_of_two_isSome _ a b c size) hwords
    | arith_mul => exact on_three_isSome (fun a b c => word_of_two_isSome _ a b c size) hwords
    | materialize =>
      have hrows : ∀ a b c, size ≤ 2 ^ 26 ∧ 32 * size ≤ a ∧ size ≤ b ∧ 32 * size ≤ c →
          0 < a ∧ 0 < b ∧ 0 < c := by omega
      exact on_three_isSome (fun a b c => materialize_isSome a b c size) hrows
    | aggregate_block =>
      have hsum : ∀ a b, size ≤ 2 ^ 26 ∧ 32 * size ≤ a ∧ min size 1 ≤ b → 0 < a ∧ 0 < b := by omega
      exact on_two_isSome (fun a b => aggregate_block_isSome a b size) hsum

end Primitive

/-- The primitives by their names, as `setup_environment` enters them. -/
def mKernelDictionary (_kernelName : String) : Option Primitive :=
  [.selection_between_block, .selection_less_than_block, .selection_greater_than_block,
    .logical_block, .logical_block_or, .materialize, .arith_sum, .arith_mul,
    .aggregate_block].find? (fun k : Primitive => k.name = _kernelName)

/-- The call of a kernel that is not in the dictionary is undefined behaviour. -/
def execute (_kernelName : String) (a : List (List Word)) (_param : List Int) (_globalSize : Nat) :
    Option (List (List Word)) :=
  (mKernelDictionary _kernelName).bind
    (fun k => k.call a (_param.map (BitVec.ofInt 32)) _globalSize)

theorem mKernelDictionary_name (k : Primitive) : mKernelDictionary k.name = some k := by
  cases k <;> simp [mKernelDictionary, Primitive.name]

end hero.cpp_layer
