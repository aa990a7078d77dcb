-- The shared queue of the exchange executor: the loop ignores what `push` returns, so a query with
-- more than 20 operations loses those that come last in the topological order.
import HeroDB.Exchange
import HeroDB.Wiring
import HeroDB.HashJoinPlan

namespace hero.morsel_driven

open runtime_layer query_graph

/-! ## The pops -/

/-- `pop`: the vertex at the front. It fails on an empty queue. -/
def pop (queue : List Nat) : Option (Nat × List Nat) :=
  match queue with
  | [] => none
  | v :: rest => some (v, rest)

theorem pop_shorter {queue rest : List Nat} {v : Nat} (h : pop queue = some (v, rest)) :
    rest.length < queue.length := by
  cases queue with
  | nil => cases h
  | cons w queue =>
    cases h
    exact Nat.lt_succ_self _

/-- What the pops yield, up to the first that fails. -/
def pops (queue : List Nat) : List Nat :=
  match _ : pop queue with
  | none => []
  | some (v, rest) => v :: pops rest
termination_by queue.length
decreasing_by exact pop_shorter ‹_›

theorem pops_eq (queue : List Nat) : pops queue = queue := by
  induction queue with
  | nil =>
    rw [pops]
    rfl
  | cons v rest ih =>
    rw [pops]
    exact congrArg (v :: ·) ih

/-! ## The law -/

/-- A vertex other than the scan and the display, by the name of its kernel. -/
def IsOperation (g : query_graph) (v : Nat) : Prop :=
  (g.vertex v).mKernelName ≠ "data_scan" ∧ (g.vertex v).mKernelName ≠ "data_display"

instance (g : query_graph) (v : Nat) : Decidable (IsOperation g v) :=
  inferInstanceAs (Decidable (_ ∧ _))

/-- The operations of a graph. -/
def operations (g : query_graph) : List Nat :=
  (List.range g.num_vertices).filter (fun v => IsOperation g v)

/-- Every operation comes once, and behind the operations that it reads from. -/
structure YieldsOperations (g : query_graph) (popped : List Nat) : Prop where
  only : ∀ v ∈ popped, v ∈ operations g
  once : ∀ v ∈ operations g, popped.count v = 1
  after : ∀ pre v post, popped = pre ++ v :: post →
    ∀ e ∈ g.in_edges v, g.source e ∈ operations g → g.source e ∈ pre

/-! ## The queue -/

section queue

variable {g : query_graph} {data_scan : ScanMap} {order : List Nat}

theorem mem_operations {v : Nat} : v ∈ operations g ↔ v < g.num_vertices ∧ IsOperation g v := by
  simp [operations]

/-- Once the queue is full, a `push` leaves it as it is. -/
theorem push_take (vs : List Nat) (v : Nat) : push (vs.take 20) v = (vs ++ [v]).take 20 := by
  unfold push
  rw [List.length_take]
  by_cases hroom : vs.length < 20
  · rw [if_pos (by omega), List.take_of_length_le (by omega),
      List.take_of_length_le (by rw [List.length_append, List.length_singleton]; omega)]
  · rw [if_neg (by omega), List.take_append_of_le_length (by omega)]

/-- The turns of the loop keep the names of the vertices. -/
theorem form_turn_name (s : Machine × List Nat) (v_ w : Nat) :
    ((form_turn data_scan s v_).1.dag.vertex w).mKernelName = (s.1.dag.vertex w).mKernelName := by
  unfold form_turn
  split
  · rw [Machine.modify_edges_vertex, load_data_name]
  · split
    · rfl
    · rfl

/-- One turn of the loop on a queue that holds the first 20 of `vs`. -/
theorem form_turn_queue {m : Machine} {vs : List Nat} {v_ : Nat}
    (hname : (m.dag.vertex v_).mKernelName = (g.vertex v_).mKernelName) :
    (form_turn data_scan (m, vs.take 20) v_).2 =
      (vs ++ [v_].filter (fun v => IsOperation g v)).take 20 := by
  unfold form_turn
  rw [hname]
  by_cases hscan : (g.vertex v_).mKernelName = "data_scan"
  · rw [if_pos hscan, List.filter_cons_of_neg (by simp [IsOperation, hscan]), List.filter_nil,
      List.append_nil]
  · rw [if_neg hscan]
    by_cases hdisplay : (g.vertex v_).mKernelName = "data_display"
    · rw [if_pos hdisplay, List.filter_cons_of_neg (by simp [IsOperation, hdisplay]),
        List.filter_nil, List.append_nil]
    · rw [if_neg hdisplay, List.filter_cons_of_pos (by simp [IsOperation, hscan, hdisplay]),
        List.filter_nil]
      exact push_take vs v_

/-- The loop pushes the operations in the order of the list, and keeps the first 20. -/
theorem form_turns_queue (m : Machine) (vs : List Nat)
    (hname : ∀ v, (m.dag.vertex v).mKernelName = (g.vertex v).mKernelName) :
    (order.foldl (form_turn data_scan) (m, vs.take 20)).2 =
      (vs ++ order.filter (fun v => IsOperation g v)).take 20 := by
  induction order generalizing m vs with
  | nil => simp
  | cons v_ rest ih =>
    have hturn := @form_turn_queue g data_scan m vs v_ (hname v_)
    have hstate : form_turn data_scan (m, vs.take 20) v_ =
        ((form_turn data_scan (m, vs.take 20) v_).1,
          (vs ++ [v_].filter (fun v => IsOperation g v)).take 20) := by
      rw [← hturn]
    have hnext : ∀ v, ((form_turn data_scan (m, vs.take 20) v_).1.dag.vertex v).mKernelName =
        (g.vertex v).mKernelName := fun v => (form_turn_name _ v_ v).trans (hname v)
    rw [List.foldl_cons, hstate, ih _ _ hnext, List.append_assoc, ← List.filter_append,
      List.singleton_append]

theorem form_queue (counter : Nat) (st : Stores) :
    (form_lockfree_processing_queue data_scan order (.before g counter st)).2 =
      (order.filter (fun v => IsOperation g v)).take 20 := by
  have h := @form_turns_queue g data_scan order (.before g counter st) [] (fun _ => rfl)
  rwa [List.take_nil, List.nil_append] at h

theorem operations_perm (htop : IsTopological g order) :
    (order.filter (fun v => IsOperation g v)).Perm (operations g) :=
  htop.perm.filter _

/-- The operations in a topological order obey the law. -/
theorem yields_in_order (htop : IsTopological g order) :
    YieldsOperations g (order.filter (fun v => IsOperation g v)) where
  only v hv := (operations_perm htop).mem_iff.mp hv
  once v hv := by
    have hmem := (operations_perm htop).mem_iff.mpr hv
    exact List.count_eq_one_of_mem (htop.nodup.filter _) hmem
  after pre v post hsplit e he hs := by
    obtain ⟨before, behind, horder, rfl, hrest⟩ := List.filter_eq_append_iff.mp hsplit
    obtain ⟨between, last, rfl, hskip, -, -⟩ := List.filter_eq_cons_iff.mp hrest
    have hdone : g.source e ∈ before ++ between :=
      @IsTopological.sources_done g order _ last v htop (by rw [horder, List.append_assoc]) e he
    rw [List.mem_filter]
    rcases List.mem_append.mp hdone with hbefore | hbetween
    · exact ⟨hbefore, by simpa using (mem_operations.mp hs).2⟩
    · exact absurd (by simpa using (mem_operations.mp hs).2) (hskip _ hbetween)

/-- The law makes the pops as many as the operations. -/
theorem YieldsOperations.length_le {popped : List Nat} (h : YieldsOperations g popped) :
    (operations g).length ≤ popped.length := by
  refine List.Nodup.length_le_of_subset (List.nodup_range.filter _) fun v hv => ?_
  exact List.count_pos_iff.mp (by rw [h.once v hv]; omega)

/-- The pops yield every operation, each behind those that it reads from, if and only if the
queue has room for all. -/
theorem the_queue_yields_every_operation_iff (g : query_graph) (data_scan : ScanMap)
    (order : List Nat) (counter : Nat) (st : Stores) (htop : IsTopological g order) :
    YieldsOperations g
        (pops (form_lockfree_processing_queue data_scan order (.before g counter st)).2) ↔
      (operations g).length ≤ 20 := by
  rw [pops_eq, form_queue]
  constructor
  · intro h
    have hle := h.length_le
    rw [List.length_take] at hle
    omega
  · intro hroom
    rw [List.take_of_length_le ((operations_perm htop).length_eq.trans_le hroom)]
    exact yields_in_order htop

end queue

/-- The plan of the hash join has two operations. -/
theorem the_hash_join_fits_the_queue :
    YieldsOperations (tests.query_hashJoin_graph 2 1)
      (pops (form_lockfree_processing_queue (tests.query_hashJoin_scan [5, 7] [7])
        tests.query_hashJoin_queue (.before (tests.query_hashJoin_graph 2 1) 0 ⟨∅, ∅⟩)).2) :=
  (the_queue_yields_every_operation_iff _ _ _ _ _
    (tests.query_hashJoin_queue_is_topological 2 1)).mpr (by decide)

/-! ## A plan that does not fit -/

/-- A plan of selections, one on each of `n` columns. -/
def selections_graph : Nat → query_graph
  | 0 => empty
  | n + 1 =>
    (((selections_graph n).add_vertex (.fresh "selection_less_than_block")).add_edge start_vertex
      (n + 2) (.fresh (Int.ofNat (n + 1)))).add_edge (n + 2) end_vertex (.fresh 0)

theorem selections_columns_sorted :
    ((List.range 21).map fun k => (Int.ofNat (k + 1), [(5 : Word)])).Pairwise
      (fun a b => a.1 < b.1) := by decide

theorem selections_keys_are_ints :
    ∀ c ∈ (List.range 21).map fun k => (Int.ofNat (k + 1), [(5 : Word)]),
      -2 ^ 31 ≤ c.1 ∧ c.1 < 2 ^ 31 := by decide

/-- A column of one word for each of 21 selections. -/
def selections_scan : ScanMap where
  entries := (List.range 21).map fun k => (Int.ofNat (k + 1), [5])
  sorted := selections_columns_sorted
  int_keys := selections_keys_are_ints

/-- The scan, the selections and the display. -/
def selections_queue (n : Nat) : List Nat :=
  start_vertex :: (List.range n).map (· + 2) ++ [end_vertex]

theorem selections_queue_is_topological :
    IsTopological (selections_graph 21) (selections_queue 21) where
  perm := by decide
  forward := by decide

/-- With 21 selections, one of them is dropped. -/
theorem a_plan_of_21_selections_loses_one :
    IsTopological (selections_graph 21) (selections_queue 21) ∧
      ¬ YieldsOperations (selections_graph 21)
        (pops (form_lockfree_processing_queue selections_scan (selections_queue 21)
          (.before (selections_graph 21) 0 ⟨∅, ∅⟩)).2) := by
  refine ⟨selections_queue_is_topological, fun h => ?_⟩
  have hle := h.length_le
  rw [pops_eq, form_queue, List.length_take] at hle
  have hmany : (operations (selections_graph 21)).length = 21 := by decide
  omega

end hero.morsel_driven
