-- A prefix sum as a task: what `execute_task` leaves in the C++ environment, and when these are the
-- sums that the OpenCL launch leaves.
import HeroDB.Bitmaps
import HeroDB.KernelDirectory
import HeroDB.PrefixSum

namespace hero.task_layer

open kernels loops transition work_items aggregation

/-! ## Tasks -/

/-- The global size that `execute_task` passes on. -/
def task.global_size (t : task) : Nat := t.data_size / t.intent

/-- `mKernelDictionary` of the C++ layer, with the prefix sum. -/
def cpp_call (_kernelName : String) (a : List (List Word)) (_param : List Int) (_globalSize : Nat) :
    Option (List (List Word)) :=
  if _kernelName = "partial_prefix_sum" then
    cpp_layer.Primitive.on_two a (fun input result =>
      cpp_layer.partial_prefix_sum input result _globalSize)
  else cpp_layer.execute _kernelName a _param _globalSize

/-- `execute_task` in the C++ environment: each alias gets the location of its data, and the
primitive works on the words there. -/
def task.execute_task_cpp (t : task) (mDataDictionary : cpp_layer.DataDictionary) :
    Option cpp_layer.DataDictionary := do
  let d := t.task_data.foldl (fun d p => d.insert p._alias p.CPUlocation) mDataDictionary
  let a ← t.task_data.mapM (fun p => d.lookup p._alias)
  let a' ← cpp_call (String.ofList t.task_kernel.mKernelName) a t.additional_parameters t.global_size
  return (t.task_data.zip a').foldl (fun d p => d.insert p.1._alias p.2) d

/-- The loops of the items count with an `int`, which does not go on behind 2^31 - 1. -/
def IntIndex (s : Launch prefix_pc prefix_arrays) (gid : Nat) : Prop :=
  ∀ i, s.items[gid]? = some (.block i) → i < 2 ^ 31

/-- `execute_task` in the OpenCL environment, for a prefix sum: the launch comes to an end with
these arrays. -/
def task.ExecuteTaskOpenCL (t : task) (m : prefix_arrays) : Prop :=
  ∃ boundaries sums offsets, t.task_data = [boundaries, sums, offsets] ∧
    ∃ s s', (summing boundaries.CPUlocation t.global_size).init s ∧
      s.memory = ⟨sums.CPUlocation, offsets.CPUlocation⟩ ∧
      (summing boundaries.CPUlocation t.global_size).Run IntIndex s s' ∧
      (∀ pc ∈ s'.items, pc = .done) ∧ s'.memory = m

/-- The task of `test_heroDB_tasks`: the boundaries, the sums, and the offsets. -/
def prefix_sum (boundaries sums offsets : dataPack) (data_size intent : Nat) : task :=
  { task_kernel :=
      { mPId := 0, mDId := 0, mKernelName := "partial_prefix_sum".toList, mKernelSrc := []
        mCmdArgs := [] }
    task_data := [boundaries, sums, offsets], data_size, intent }

theorem prefix_sum_name (boundaries sums offsets : dataPack) (data_size intent : Nat) :
    String.ofList (prefix_sum boundaries sums offsets data_size intent).task_kernel.mKernelName =
      "partial_prefix_sum" := String.ofList_toList

/-! ## The C++ prefix sum -/

section cpp

variable {input result T : List Word} {G : Nat}

def repeats (input : List Word) (i : Nat) : Nat :=
  (List.range' 1 i).countP (fun k => input[k - 1]? = input[k]?)

theorem repeats_succ (input : List Word) (i : Nat) :
    repeats input (i + 1) = repeats input i + (if input[i]? = input[i + 1]? then 1 else 0) := by
  unfold repeats
  rw [List.range'_1_concat, List.countP_append, Nat.add_comm 1 i]
  simp

def prefix_body (input : List Word) (T : List Word) (j : Int) : Option (List Word) :=
  (cpp_layer.load T (j - 1)).bind (fun before => (cpp_layer.load input (j - 1)).bind (fun a =>
    (cpp_layer.load input j).bind (fun b =>
      cpp_layer.store T j (before + (if a = b then 1 else 0)))))

/-- The sums up to a position are there. -/
def Counted (input result : List Word) (n : Nat) (T : List Word) : Prop :=
  T.length = result.length ∧ (∀ i ≤ n, T[i]? = some (BitVec.ofNat 32 (repeats input i))) ∧
    ∀ i, n < i → T[i]? = result[i]?

theorem Counted.turn {n : Nat} (h : Counted input result n T) (hinput : n + 1 < input.length)
    (hresult : n + 1 < result.length) :
    ∃ T', prefix_body input T (n + 1 : Nat) = some T' ∧ Counted input result (n + 1) T' := by
  obtain ⟨hlen, hsums, hrest⟩ := h
  refine ⟨T.set (n + 1) (BitVec.ofNat 32 (repeats input (n + 1))), ?_, ?_, ?_, ?_⟩
  · have hprev : ((n + 1 : Nat) : Int) - 1 = (n : Nat) := by omega
    rw [prefix_body, hprev, load_nat, hsums n (Nat.le_refl n), Option.bind_some, load_nat,
      List.getElem?_eq_getElem (by omega), Option.bind_some, load_nat,
      List.getElem?_eq_getElem hinput, Option.bind_some, filter.store_nat, kernels.store,
      if_pos (by omega), repeats_succ, BitVec.ofNat_add, List.getElem?_eq_getElem (by omega),
      List.getElem?_eq_getElem hinput]
    simp only [Option.some.injEq]
    split <;> rfl
  · rw [List.length_set, hlen]
  · intro i hi
    by_cases hnew : i = n + 1
    · rw [hnew, List.getElem?_set_self (by omega)]
    · rw [List.getElem?_set_ne (Ne.symm hnew), hsums i (by omega)]
  · intro i hi
    rw [List.getElem?_set_ne (by omega), hrest i (by omega)]

/-- The first `G` sums count the repeats, and the places behind them are left as they were. -/
theorem partial_prefix_sum_eq (hG : 0 < G) (hsmall : G < 2 ^ 31) (hinput : G ≤ input.length)
    (hresult : G ≤ result.length) :
    ∃ T, cpp_layer.partial_prefix_sum input result G = some T ∧
      (∀ i < G, T[i]? = some (BitVec.ofNat 32 (repeats input i))) ∧
      ∀ i, G ≤ i → T[i]? = result[i]? := by
  have hfirst : cpp_layer.store result 0 0 = some (result.set 0 0) := by
    have hstore := filter.store_nat result 0 0
    rw [kernels.store, if_pos (by omega)] at hstore
    exact hstore
  have hstart : Counted input result 0 (result.set 0 0) := by
    refine ⟨List.length_set, fun i hi => ?_, fun i hi => ?_⟩
    · obtain rfl : i = 0 := Nat.le_zero.mp hi
      rw [List.getElem?_set_self (by omega)]
      rfl
    · rw [List.getElem?_set_ne (Nat.ne_of_lt hi)]
  have hturn : ∀ pre j post T, List.range' 1 (G - 1) = pre ++ j :: post →
      Counted input result pre.length T →
      ∃ T', prefix_body input T (j : Nat) = some T' ∧
        Counted input result (pre ++ [j]).length T' := by
    intro pre j post T hl hT
    have hlt : pre.length < G - 1 := by
      have hlength := congrArg List.length hl
      rw [List.length_range', List.length_append, List.length_cons] at hlength
      omega
    have hj : j = pre.length + 1 := by
      have hplace := congrArg (fun l => l[pre.length]?) hl
      simpa [List.getElem?_range', hlt, Nat.add_comm] using hplace.symm
    rw [hj, List.length_append, List.length_singleton]
    exact hT.turn (by omega) (by omega)
  obtain ⟨T, hrun, -, hsums, hrest⟩ := goes_well (List.range' 1 (G - 1))
    (fun T (j : Nat) => prefix_body input T j) (result.set 0 0)
    (fun pre T => Counted input result pre.length T) hturn hstart
  rw [List.length_range'] at hrest hsums
  refine ⟨T, ?_, fun i hi => hsums i (by omega), fun i hi => hrest i (by omega)⟩
  rw [cpp_layer.partial_prefix_sum, hfirst, Option.bind_some]
  exact (cpp_layer.for_int_from_eq G (prefix_body input) _ hG hsmall).trans hrun

end cpp

/-! ## The OpenCL prefix sum -/

section openCL

variable {boundaries : List Word} {G : Nat} {s t : Launch prefix_pc prefix_arrays}

theorem launch_sums (hsize : 32 * G < 2 ^ 31) (hlen : boundaries.length = 32 * G)
    (h : (summing boundaries G).Reachable s) (hdone : ∀ pc ∈ s.items, pc = .done) {i : Nat}
    (hi : i < 32 * G) :
    ∃ w o, s.memory.partial_sums[i]? = some w ∧
      (if 0 < i / 32 then s.memory.offset_arr[i / 32 - 1]? else some 0) = some o ∧
      w + o = BitVec.ofNat 32 (zeros boundaries 0 (i + 1)) := by
  obtain ⟨-, hitems, hknows⟩ := summing_holds hsize hlen h
  have hpc : s.items[i / 32]? = some .done := by
    rw [List.eq_replicate_of_mem hdone, hitems, List.getElem?_replicate, if_pos (by omega)]
  have hsum := hknows (i / 32) .done hpc (i % 32) (Nat.mod_lt i (by decide))
  rw [Nat.div_add_mod] at hsum
  have hsplit := zeros_add boundaries 0 (32 * (i / 32)) (i % 32 + 1)
  rw [Nat.zero_add, ← Nat.add_assoc, Nat.div_add_mod] at hsplit
  refine ⟨_, BitVec.ofNat 32 (zeros boundaries 0 (32 * (i / 32))), hsum, ?_, ?_⟩
  · split
    · rename_i hpos
      have hprev : i / 32 - 1 + 1 = i / 32 := by omega
      rw [offset_at_the_end hsize hlen (by omega) h hdone, hprev]
    · rename_i hzero
      have hfirst : i / 32 = 0 := by omega
      rw [hfirst]
      rfl
  · rw [← BitVec.ofNat_add, hsplit, Nat.add_comm]

theorem launch_ends (hsize : 32 * G < 2 ^ 31) (hlen : boundaries.length = 32 * G)
    (hs : (summing boundaries G).init s) :
    ∃ t, (summing boundaries G).Run IntIndex s t ∧ ∀ pc ∈ t.items, pc = .done := by
  have hstable := prefix_turn_stable hsize hlen
  have hholds := summing_holds hsize hlen ⟨s, hs, .refl⟩
  have hends : ∃ t, (summing boundaries G).Run (fun _ _ => True) s t ∧ ∀ pc ∈ t.items, pc = .done := by
    refine finishes hstable (left G) (fun _ _ _ _ _ hturn => left_lt hturn) (fun pc => pc = .done)
      ?_ hholds
    intro gid pc m hgid hm hk hpc
    obtain ⟨pc', m', hturn, -⟩ := prefix_turn_spec hsize hlen hgid hm hk hpc
    exact ⟨_, hturn⟩
  obtain ⟨t, hrun, hdone⟩ := hends
  refine ⟨t, hrun.by_invariant hholds (fun _ _ _ hs hstep => hs.step hstable hstep) ?_, hdone⟩
  intro s gid hs i hi
  obtain ⟨n, hn, heq, -⟩ := hs.2.2 gid _ hi
  have hgid := (List.getElem?_eq_some_iff.mp hi).1
  rw [hs.2.1] at hgid
  omega

/-- An item that has not come behind its loop. -/
def Looping : prefix_pc → Prop
  | .start => True
  | .block i => i ≤ 2 ^ 31
  | .sum i _ => i < 2 ^ 31
  | _ => False

theorem Looping.turn {pc pc' : prefix_pc} {m m' : prefix_arrays} (h : Looping pc)
    (hint : ∀ i, pc = .block i → i < 2 ^ 31)
    (hturn : prefix_turn boundaries G (2 ^ 26 - 1) pc m = some (pc', m')) : Looping pc' := by
  have hfirst : mIndex (2 ^ 26 - 1) = 2 ^ 31 - 32 := rfl
  have hend : mIndexLast (2 ^ 26 - 1) = 2 ^ 31 := rfl
  cases pc with
  | start =>
    simp only [prefix_turn, Option.some.injEq, Prod.mk.injEq] at hturn
    rw [← hturn.1, hfirst, Looping]
    omega
  | block i =>
    have hi := hint i rfl
    simp only [prefix_turn] at hturn
    rw [hend, if_pos hi] at hturn
    split at hturn
    · simp only [Option.some.injEq, Prod.mk.injEq] at hturn
      rw [← hturn.1]
      exact hi
    · simp only [Option.map_eq_some_iff, Prod.mk.injEq] at hturn
      obtain ⟨v, -, hpc, -⟩ := hturn
      rw [← hpc]
      exact hi
  | sum i v =>
    simp only [prefix_turn, Option.bind_eq_some_iff, Option.map_eq_some_iff, Prod.mk.injEq] at hturn
    obtain ⟨w, -, sums, -, hpc, -⟩ := hturn
    rw [← hpc]
    exact h
  | last => cases h
  | offset k v => cases h
  | done => cases h

/-- A block that ends at 2^31 keeps its item, and the launch with it, from an end. -/
theorem launch_overflows (hs : (summing boundaries G).init s) (hG : 2 ^ 31 ≤ 32 * G)
    (hrun : (summing boundaries G).Run IntIndex s t) : ¬ ∀ pc ∈ t.items, pc = .done := by
  have hlooping : ∃ pc, t.items[2 ^ 26 - 1]? = some pc ∧ Looping pc := by
    have hkeeps := hrun.keeps (I := fun s => ∃ pc, s.items[2 ^ 26 - 1]? = some pc ∧ Looping pc)
    refine hkeeps ⟨.start, ?_, trivial⟩ ?_
    · rw [hs.2, List.getElem?_replicate, if_pos (by omega)]
    · rintro s gid t ⟨pc, hpc, hloop⟩ hok hstep
      obtain ⟨r, r', hr, hturn, hitems⟩ := step_cases hstep
      rw [hitems]
      by_cases hsame : gid = 2 ^ 26 - 1
      · subst hsame
        have hgid := (List.getElem?_eq_some_iff.mp hpc).1
        rw [hpc, Option.some.injEq] at hr
        subst hr
        refine ⟨r', List.getElem?_set_self hgid, hloop.turn ?_ hturn⟩
        rintro i rfl
        exact hok i hpc
      · exact ⟨pc, by rw [List.getElem?_set_ne hsame, hpc], hloop⟩
  intro hdone
  obtain ⟨pc, hpc, hloop⟩ := hlooping
  rw [hdone pc (List.mem_of_getElem? hpc)] at hloop
  exact hloop

end openCL

/-! ## Both environments -/

section both

variable {boundaries : List Word} {G : Nat}

/-- Of two neighbours that are 0 or 1, the first is 0 when they repeat exactly where a zero is. -/
theorem repeat_at_zero_iff {i : Nat} (hi : i + 1 < boundaries.length)
    (hbits : ∀ x ∈ boundaries, x = 0 ∨ x = 1) :
    (boundaries[i]? = boundaries[i + 1]? ↔ boundaries[i + 1]? = some 0) ↔
      boundaries[i]? = some 0 := by
  have hfirst := hbits _ (List.getElem_mem (Nat.lt_of_succ_lt hi))
  have hsecond := hbits _ (List.getElem_mem hi)
  rw [List.getElem?_eq_getElem (Nat.lt_of_succ_lt hi), List.getElem?_eq_getElem hi]
  rcases hfirst with h0 | h0 <;> rcases hsecond with h1 | h1 <;> rw [h0, h1] <;> decide

theorem same_count {p q : Prop} [Decidable p] [Decidable q] :
    (if p then 1 else 0) = (if q then 1 else 0) ↔ (p ↔ q) := by
  by_cases hp : p <;> by_cases hq : q <;> simp [hp, hq]

theorem repeats_eq_zeros_iff (hG : G ≤ boundaries.length)
    (hbits : ∀ x ∈ boundaries, x = 0 ∨ x = 1) :
    (∀ i < G, repeats boundaries i = zeros boundaries 0 (i + 1)) ↔
      ∀ i, i + 1 < G → boundaries[i]? = some 0 := by
  have hstep (i : Nat) : zeros boundaries 0 (i + 1 + 1) =
      zeros boundaries 0 (i + 1) + (if boundaries[i + 1]? = some 0 then 1 else 0) := by
    rw [zeros_add boundaries 0 (i + 1) 1, Nat.zero_add, zeros_one]
    simp
  constructor
  · intro h i hi
    have hnext := h (i + 1) hi
    rw [repeats_succ, hstep, h i (by omega)] at hnext
    exact (repeat_at_zero_iff (by omega) hbits).mp (same_count.mp (Nat.add_left_cancel hnext))
  · intro h i hi
    induction i with
    | zero => rfl
    | succ i ih =>
      have hzero := (repeat_at_zero_iff (by omega) hbits).mpr (h i hi)
      rw [repeats_succ, hstep, ih (by omega)]
      simp only [hzero]

theorem repeats_le (input : List Word) (i : Nat) : repeats input i ≤ i := by
  unfold repeats
  calc (List.range' 1 i).countP _ ≤ (List.range' 1 i).length := List.countP_le_length
    _ = i := List.length_range'

/-- Two small counts are the same word when they are the same number. -/
theorem word_of_count {m n : Nat} (hm : m < 2 ^ 32) (hn : n < 2 ^ 32) :
    BitVec.ofNat 32 m = BitVec.ofNat 32 n ↔ m = n := by
  rw [← BitVec.toNat_inj, BitVec.toNat_ofNat, BitVec.toNat_ofNat, Nat.mod_eq_of_lt hm,
    Nat.mod_eq_of_lt hn]

def SumsAgree (t : task) (T : List Word) : Prop :=
  (∃ m, t.ExecuteTaskOpenCL m) ∧ ∀ m, t.ExecuteTaskOpenCL m → ∀ i < 32 * t.global_size,
    ∃ w o, m.partial_sums[i]? = some w ∧
      (if 0 < i / 32 then m.offset_arr[i / 32 - 1]? else some 0) = some o ∧ T[i]? = some (w + o)

variable {boundaries sums offsets : dataPack} {data_size intent : Nat}

theorem execute_openCL_cases {m : prefix_arrays} (hG : data_size / intent = G)
    (h : (prefix_sum boundaries sums offsets data_size intent).ExecuteTaskOpenCL m) :
    ∃ s t, (summing boundaries.CPUlocation G).init s ∧
      (summing boundaries.CPUlocation G).Run IntIndex s t ∧
      (∀ pc ∈ t.items, pc = .done) ∧ t.memory = m := by
  obtain ⟨_, _, _, hdata, s, t, hs, -, hrun, hdone, hm⟩ := h
  have hglobal : (prefix_sum boundaries sums offsets data_size intent).global_size = G := hG
  simp only [prefix_sum, List.cons.injEq, and_true] at hdata
  obtain ⟨rfl, -, -⟩ := hdata
  rw [hglobal] at hs hrun
  exact ⟨s, t, hs, hrun, hdone, hm⟩

/-- The sums of the launches are the counts of the zeros, as long as the positions are `int`s. -/
theorem sums_agree_iff {T : List Word} (hG : data_size / intent = G)
    (hlen : boundaries.CPUlocation.length = 32 * G) (hsums : sums.CPUlocation.length = 32 * G)
    (hoffsets : offsets.CPUlocation = List.replicate G 0) :
    SumsAgree (prefix_sum boundaries sums offsets data_size intent) T ↔
      32 * G < 2 ^ 31 ∧ ∀ i < 32 * G,
        T[i]? = some (BitVec.ofNat 32 (zeros boundaries.CPUlocation 0 (i + 1))) := by
  have hglobal : (prefix_sum boundaries sums offsets data_size intent).global_size = G := hG
  unfold SumsAgree
  rw [hglobal]
  constructor
  · rintro ⟨⟨m, hm⟩, hall⟩
    obtain ⟨s, t, hs, hrun, hdone, rfl⟩ := execute_openCL_cases hG hm
    have hsize : 32 * G < 2 ^ 31 := by
      by_contra hlarge
      exact launch_overflows hs (by omega) hrun hdone
    refine ⟨hsize, fun i hi => ?_⟩
    have hreach : (summing boundaries.CPUlocation G).Reachable t :=
      ⟨s, hs, hrun.mono (fun _ _ _ => trivial)⟩
    obtain ⟨w, o, hw, ho, hsum⟩ := launch_sums hsize hlen hreach hdone hi
    obtain ⟨w', o', hw', ho', hT⟩ := hall _ hm i hi
    rw [hw, Option.some.injEq] at hw'
    rw [ho, Option.some.injEq] at ho'
    rw [hT, ← hw', ← ho', hsum]
  · rintro ⟨hsize, hT⟩
    constructor
    · have hs : (summing boundaries.CPUlocation G).init
          ⟨⟨sums.CPUlocation, offsets.CPUlocation⟩, List.replicate G .start⟩ :=
        ⟨⟨hoffsets, by rw [hsums]⟩, rfl⟩
      obtain ⟨t, hrun, hdone⟩ := launch_ends hsize hlen hs
      rw [← hglobal] at hs hrun
      exact ⟨t.memory, boundaries, sums, offsets, rfl, _, t, hs, rfl, hrun, hdone, rfl⟩
    · intro m hm i hi
      obtain ⟨s, t, hs, hrun, hdone, rfl⟩ := execute_openCL_cases hG hm
      have hreach : (summing boundaries.CPUlocation G).Reachable t :=
        ⟨s, hs, hrun.mono (fun _ _ _ => trivial)⟩
      obtain ⟨w, o, hw, ho, hsum⟩ := launch_sums hsize hlen hreach hdone hi
      exact ⟨w, o, hw, ho, by rw [hT i hi, hsum]⟩

/-- What the C++ environment leaves under the alias of the sums. -/
theorem execute_cpp_eq (d : cpp_layer.DataDictionary) (hG : data_size / intent = G)
    (hne : boundaries._alias ≠ sums._alias) (hne' : boundaries._alias ≠ offsets._alias)
    (hne'' : sums._alias ≠ offsets._alias) :
    ((prefix_sum boundaries sums offsets data_size intent).execute_task_cpp d).bind
        (fun d' => d'.lookup sums._alias) =
      cpp_layer.partial_prefix_sum boundaries.CPUlocation sums.CPUlocation G := by
  have hglobal : (prefix_sum boundaries sums offsets data_size intent).global_size = G := hG
  unfold task.execute_task_cpp
  rw [hglobal, prefix_sum_name]
  simp only [prefix_sum, List.foldl_cons, List.foldl_nil, List.mapM_cons, List.mapM_nil, cpp_call,
    AList.lookup_insert, AList.lookup_insert_ne hne, AList.lookup_insert_ne hne',
    AList.lookup_insert_ne hne'', Option.bind_eq_bind, Option.bind_some, Option.pure_def, if_true,
    cpp_layer.Primitive.on_two, List.getElem?_cons_zero, List.getElem?_cons_succ]
  cases cpp_layer.partial_prefix_sum boundaries.CPUlocation sums.CPUlocation G with
  | none => rfl
  | some T =>
    simp only [Option.map_some, Option.bind_some, List.set_cons_succ, List.set_cons_zero,
      List.zip_cons_cons, List.zip_nil_left, List.foldl_cons, List.foldl_nil,
      AList.lookup_insert_ne hne'', AList.lookup_insert]

/-- The sums of the C++ loop are the counts of the zeros when every boundary among the first `G`
but the last is 0, and the array already has the counts behind its first `G` places. -/
theorem cpp_sums_iff {input result : List Word} (hlen : input.length = 32 * G)
    (hresult : result.length = 32 * G) (hsize : 32 * G < 2 ^ 31)
    (hbits : ∀ x ∈ input, x = 0 ∨ x = 1) :
    (∃ T, cpp_layer.partial_prefix_sum input result G = some T ∧
      ∀ i < 32 * G, T[i]? = some (BitVec.ofNat 32 (zeros input 0 (i + 1)))) ↔
      0 < G ∧ (∀ i, i + 1 < G → input[i]? = some 0) ∧
        ∀ i, G ≤ i → i < 32 * G → result[i]? = some (BitVec.ofNat 32 (zeros input 0 (i + 1))) := by
  have hword (i : Nat) (hi : i < G) :
      BitVec.ofNat 32 (repeats input i) = BitVec.ofNat 32 (zeros input 0 (i + 1)) ↔
        repeats input i = zeros input 0 (i + 1) := by
    have hle := repeats_le input i
    have hle' := zeros_le input 0 (i + 1)
    exact word_of_count (by omega) (by omega)
  rw [← repeats_eq_zeros_iff (by omega) hbits]
  constructor
  · rintro ⟨T, hrun, hT⟩
    have hG : 0 < G := by
      by_contra hzero
      have hnil : result = [] := List.length_eq_zero_iff.mp (by omega)
      rw [cpp_layer.partial_prefix_sum, hnil] at hrun
      cases hrun
    obtain ⟨T', hrun', hsums, hrest⟩ :=
      @partial_prefix_sum_eq input result G hG (by omega) (by omega) (by omega)
    rw [hrun', Option.some.injEq] at hrun
    subst hrun
    refine ⟨hG, fun i hi => ?_, fun i hi hlt => ?_⟩
    · have hcell := hT i (by omega)
      rw [hsums i hi, Option.some.injEq] at hcell
      exact (hword i hi).mp hcell
    · rw [← hrest i hi]
      exact hT i hlt
  · rintro ⟨hG, hrepeats, hrest⟩
    obtain ⟨T, hrun, hsums, hsame⟩ :=
      @partial_prefix_sum_eq input result G hG (by omega) (by omega) (by omega)
    refine ⟨T, hrun, fun i hi => ?_⟩
    rcases Nat.lt_or_ge i G with hlt | hge
    · rw [hsums i hlt, (hword i hlt).mpr (hrepeats i hlt)]
    · rw [hsame i hge]
      exact hrest i hge hi

/-- The two environments leave the same sums if and only if the positions are `int`s, every boundary
among the first `G` but the last is 0, and the array of the sums already has the counts of the zeros
behind its first `G` places: the C++ loop has one turn for each work item, not for each position,
and compares neighbours. -/
theorem the_prefix_sums_agree_iff (d : cpp_layer.DataDictionary) (hG : data_size / intent = G)
    (hne : boundaries._alias ≠ sums._alias) (hne' : boundaries._alias ≠ offsets._alias)
    (hne'' : sums._alias ≠ offsets._alias) (hlen : boundaries.CPUlocation.length = 32 * G)
    (hsums : sums.CPUlocation.length = 32 * G) (hoffsets : offsets.CPUlocation = List.replicate G 0)
    (hbits : ∀ x ∈ boundaries.CPUlocation, x = 0 ∨ x = 1) :
    (∃ d' T, (prefix_sum boundaries sums offsets data_size intent).execute_task_cpp d = some d' ∧
      d'.lookup sums._alias = some T ∧
      SumsAgree (prefix_sum boundaries sums offsets data_size intent) T) ↔
      0 < G ∧ 32 * G < 2 ^ 31 ∧ (∀ i, i + 1 < G → boundaries.CPUlocation[i]? = some 0) ∧
        ∀ i, G ≤ i → i < 32 * G → sums.CPUlocation[i]? =
          some (BitVec.ofNat 32 (zeros boundaries.CPUlocation 0 (i + 1))) := by
  have hrun (T : List Word) :
      (∃ d', (prefix_sum boundaries sums offsets data_size intent).execute_task_cpp d = some d' ∧
        d'.lookup sums._alias = some T) ↔
      cpp_layer.partial_prefix_sum boundaries.CPUlocation sums.CPUlocation G = some T := by
    rw [← execute_cpp_eq d hG hne hne' hne'', Option.bind_eq_some_iff]
  constructor
  · rintro ⟨d', T, hexec, hlook, hagree⟩
    have hT := (hrun T).mp ⟨d', hexec, hlook⟩
    obtain ⟨hsize, hcounts⟩ := (sums_agree_iff hG hlen hsums hoffsets).mp hagree
    obtain ⟨hpos, hzeros, hrest⟩ := (cpp_sums_iff hlen hsums hsize hbits).mp ⟨T, hT, hcounts⟩
    exact ⟨hpos, hsize, hzeros, hrest⟩
  · rintro ⟨hpos, hsize, hzeros, hrest⟩
    obtain ⟨T, hT, hcounts⟩ := (cpp_sums_iff hlen hsums hsize hbits).mpr ⟨hpos, hzeros, hrest⟩
    obtain ⟨d', hexec, hlook⟩ := (hrun T).mpr hT
    exact ⟨d', T, hexec, hlook, (sums_agree_iff hG hlen hsums hoffsets).mpr ⟨hsize, hcounts⟩⟩

end both

/-- One work item on a block of ones: no position counts, in both environments. -/
theorem a_block_of_ones_has_the_same_sums :
    ∃ d' T, (prefix_sum ⟨1, List.replicate 32 1⟩ ⟨2, List.replicate 32 0⟩ ⟨3, [0]⟩ 32 32
        ).execute_task_cpp ∅ = some d' ∧ d'.lookup 2 = some T ∧
      SumsAgree (prefix_sum ⟨1, List.replicate 32 1⟩ ⟨2, List.replicate 32 0⟩ ⟨3, [0]⟩ 32 32) T := by
  have hcounts : ∀ i < 32, (List.replicate 32 (0 : Word))[i]? =
      some (BitVec.ofNat 32 (zeros (List.replicate 32 1) 0 (i + 1))) := by decide
  exact (the_prefix_sums_agree_iff (G := 1) ∅ rfl (by decide) (by decide) (by decide)
    List.length_replicate List.length_replicate rfl
    (fun x hx => .inr (List.eq_of_mem_replicate hx))).mpr
    ⟨by decide, by decide, fun i hi => absurd hi (by omega), fun i _ hi => hcounts i hi⟩

/-- One work item on a block of zeros: the OpenCL launch counts them, and C++ leaves zeros. -/
theorem a_block_of_zeros_has_other_sums_in_cpp :
    ¬ ∃ d' T, (prefix_sum ⟨1, List.replicate 32 0⟩ ⟨2, List.replicate 32 0⟩ ⟨3, [0]⟩ 32 32
        ).execute_task_cpp ∅ = some d' ∧ d'.lookup 2 = some T ∧
      SumsAgree (prefix_sum ⟨1, List.replicate 32 0⟩ ⟨2, List.replicate 32 0⟩ ⟨3, [0]⟩ 32 32) T := by
  rintro ⟨d', T, hexec, hlook, hagree⟩
  have hrun := @execute_cpp_eq 1 ⟨1, List.replicate 32 0⟩ ⟨2, List.replicate 32 0⟩ ⟨3, [0]⟩ 32 32 ∅
    rfl (by decide) (by decide) (by decide)
  rw [hexec, Option.bind_some, hlook] at hrun
  obtain ⟨T', hrun', -, hrest⟩ := @partial_prefix_sum_eq (List.replicate 32 0)
    (List.replicate 32 0) 1 (by decide) (by decide) (by decide) (by decide)
  rw [← hrun, Option.some.injEq] at hrun'
  have hcounts := ((sums_agree_iff (G := 1) rfl List.length_replicate List.length_replicate
    rfl).mp hagree).2 1 (by decide)
  rw [hrun', hrest 1 (by decide)] at hcounts
  exact absurd hcounts (by decide)

end hero.task_layer
