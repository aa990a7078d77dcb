-- Do the consumers of the data-parallel executor read only produced words? The transfer thread copies
-- from the result buffer of a producer on another device without a look at its progress.
import Mathlib.Data.List.Nodup
import HeroDB.MorselEffects

namespace hero.data_parallelism

/-! ## What a launch writes -/

/-- A number of rows in the unit of the results. -/
def result_until (t : Operation_Type) (offset : Nat) : Nat :=
  compute_result_size { operationType := t, data_size := offset }

/-- The kernel on the morsel at `offset` writes the word: each of its work items writes one. -/
def Writes (t : Operation_Type) (offset word : Nat) : Prop :=
  get_result_buffer_offset { operationType := t } offset ≤ word ∧
  word < get_result_buffer_offset { operationType := t } offset +
    ng_morsel_size / t.kernel_local_chunk_size

/-- Some device has executed the kernel of the vertex that writes the word. -/
def Produced (trace : List Event) (t : Operation_Type) (u word : Nat) : Prop :=
  ∃ d offset, .execute u d offset ∈ trace ∧ Writes t offset word

/-- The operations of the executor write words of bits from rows, or words from words. -/
def Kind (t : Operation_Type) : Prop :=
  t = ng_selection_greater_than ∨ t = ng_selection_less_than ∨ t = ng_logical_and

namespace Setup

variable (c : Setup)

/-- Each morsel that a transfer thread copied from the result buffer of a producer was written
before: the words of the morsel that lie in that buffer, by kernels that some device executed. -/
def ReadsProduced (s : State) : Prop :=
  ∀ i v e offset, s.memory.trace[i]? = some (.copy v e offset) →
    ∀ word, offset ≤ word → word < offset + ng_morsel_size →
      word < compute_result_size (s.memory.operation (c.plan.source e)) →
      Produced (s.memory.trace.take i) (s.memory.operation (c.plan.source e)).operationType
        (c.plan.source e) word

/-- The setup and the queue of a session: selections on columns of tables, whose constructor takes
the number of rows as an `int`. -/
structure IsSession (selections : List Operation_) (ng_processing_queue : List Nat) : Prop where
  columns : ∀ o ∈ selections, ∃ t rows, (t = ng_selection_greater_than ∨ t = ng_selection_less_than) ∧
    rows < 2 ^ 31 ∧ o = create_selection_operation t rows
  plan : create_execution_graph selections = some c.plan
  queue : IsPipeline selections.length ng_processing_queue

/-- The progress that the producer of an edge has published covers the morsel at `offset`: each of
its words lies below `processed_until`, or from `rear_processed_until` on. -/
def Published (e offset : Nat) (s : Memory) : Prop :=
  let producer := s.operation (c.plan.source e)
  (s.node (c.plan.source e)).is_initialized = true ∧
  ∀ word, offset ≤ word → word < offset + ng_morsel_size → word < compute_result_size producer →
    word < result_until producer.operationType producer.processed_until ∨
    result_until producer.operationType producer.rear_processed_until ≤ word

/-- The condition on a step: a copy from another device waits for the progress of the producer, and
the setup finds an in-edge that is at least as large as the data size of the vertex. -/
def Waits (s : State) : Move → Prop
  | .device _ => True
  | .transfer d =>
    match s.device d with
    | .run v (.copy offset i _) _ => ∀ e, (c.plan.findVertexDetails v).incoming_edges[i]? = some e →
        (s.memory.edge e).is_virtual_vertex = false → c.Published e offset s.memory
    | .run v (.put_rear_processed max) _ => (s.memory.operation v).data_size ≤ max
    | _ => True

end Setup

/-! ## Words of launches -/

theorem result_until_mono {t : Operation_Type} (ht : Kind t) {a b : Nat} (h : a ≤ b) :
    result_until t a ≤ result_until t b := by
  rcases ht with rfl | rfl | rfl
  · exact Nat.div_le_div_right h
  · exact Nat.div_le_div_right h
  · exact h

theorem compute_result_size_eq (o : Operation_) :
    compute_result_size o = result_until o.operationType o.data_size := rfl

theorem to_int_small {offset : Nat} (h : offset < 2 ^ 31) : to_int offset = offset := by
  unfold to_int
  apply Int.bmod_eq_of_le <;> omega

theorem to_size_small {n : Nat} (h : n < 2 ^ 64) : to_size n = n := by
  unfold to_size
  omega

theorem bits_offset {t : Operation_Type} {offset : Nat} (hfit : offset < 2 ^ 31)
    (hnormal : t.is_bitmap_to_normal_result = false) (hbits : t.is_normal_to_bitmap_result = true) :
    get_result_buffer_offset { operationType := t } offset = offset / 32 := by
  unfold get_result_buffer_offset
  rw [if_neg (by simp [hnormal]), if_pos hbits, to_int_small hfit]
  have hlt : offset / 32 < 2 ^ 64 := by omega
  exact to_size_small hlt

theorem words_offset {t : Operation_Type} {offset : Nat} (hfit : offset < 2 ^ 31)
    (hnormal : t.is_bitmap_to_normal_result = false) (hbits : t.is_normal_to_bitmap_result = false) :
    get_result_buffer_offset { operationType := t } offset = offset := by
  unfold get_result_buffer_offset
  rw [if_neg (by simp [hnormal]), if_neg (by simp [hbits]), to_int_small hfit]
  exact to_size_small (by omega)

/-- The launch on the morsel at `offset` writes the words of its rows. -/
theorem writes_of {t : Operation_Type} (ht : Kind t) {offset word : Nat} (hfit : offset < 2 ^ 31)
    (hfrom : result_until t offset ≤ word) (hto : word < result_until t (offset + ng_morsel_size)) :
    Writes t offset word := by
  have hbits : offset / 32 ≤ word → word < (offset + 1024) / 32 →
      offset / 32 ≤ word ∧ word < offset / 32 + 32 := by omega
  unfold Writes
  rcases ht with rfl | rfl | rfl
  · rw [bits_offset hfit rfl rfl]
    exact hbits hfrom hto
  · rw [bits_offset hfit rfl rfl]
    exact hbits hfrom hto
  · rw [words_offset hfit rfl rfl]
    exact ⟨hfrom, hto⟩

/-- A launch that starts below some rows starts below their words. -/
theorem lt_of_result_until {t : Operation_Type} (ht : Kind t) {a b word : Nat}
    (hfrom : result_until t a ≤ word) (hto : word < result_until t b) : a < b := by
  by_contra h
  have hmono := result_until_mono ht (Nat.not_lt.mp h)
  omega

/-! ## The graph -/

/-- What holds of a graph of selections and logical vertices before the devices start. -/
structure Plain (c : Setup) : Prop where
  node : ∀ v, Kind (c.start_memory.operation v).operationType ∧
    (c.start_memory.operation v).data_size < 2 ^ 31 ∧
    (c.start_memory.node v).is_initialized = false ∧
    (c.start_memory.operation v).processed_until = 0
  edge : ∀ e, (c.start_memory.edge e).data_size < 2 ^ 31
  one_consumer : ∀ e < c.plan.ends.length, ∀ e' < c.plan.ends.length,
    (c.start_memory.edge e).is_virtual_vertex = false →
    (c.start_memory.edge e').is_virtual_vertex = false → c.plan.source e = c.plan.source e' → e = e'

/-- The vertices that feed the logical vertex `i`. -/
def feeders (n i : Nat) : List Nat :=
  [if i = 0 then selection_vertex 0 else logical_vertex n (i - 1), selection_vertex (i + 1)]

/-- No vertex feeds two logical vertices. -/
theorem feeders_nodup (n : Nat) : ((List.range (n - 1)).flatMap (feeders n)).Nodup := by
  rw [List.nodup_flatMap]
  constructor
  · intro i hi
    have hlt := List.mem_range.mp hi
    simp only [feeders, selection_vertex, logical_vertex, List.nodup_cons, List.mem_singleton,
      List.not_mem_nil, not_false_eq_true, List.nodup_nil, and_true]
    split <;> omega
  · rw [List.pairwise_iff_getElem]
    intro i j hi hj hij
    simp only [List.length_range] at hi hj
    simp only [List.getElem_range, Function.onFun, List.disjoint_left, feeders, selection_vertex,
      logical_vertex, List.mem_cons, List.not_mem_nil, or_false]
    intro v hv hv'
    split at hv <;> split at hv' <;> omega

theorem pipeline_nodup {n : Nat} {queue : List Nat} (h : IsPipeline n queue) : queue.Nodup := by
  obtain ⟨selections, hperm, rfl⟩ := h
  rw [List.nodup_append]
  refine ⟨hperm.nodup_iff.mpr ?_, ?_, fun u hu v hv huv => ?_⟩
  · refine List.nodup_range.map fun a b hab => ?_
    unfold selection_vertex at hab
    omega
  · refine List.nodup_range.map fun a b hab => ?_
    unfold logical_vertex at hab
    omega
  · rw [hperm.mem_iff, List.mem_map] at hu
    rw [List.mem_map] at hv
    obtain ⟨i, hi, rfl⟩ := hu
    obtain ⟨j, -, rfl⟩ := hv
    rw [List.mem_range] at hi
    unfold selection_vertex logical_vertex at huv
    omega

theorem logical_edges_sources (selections : List Operation_) :
    ((List.range (selections.length - 1)).flatMap (logical_edges selections)).map (·.1.1) =
      (List.range (selections.length - 1)).flatMap (feeders selections.length) := by
  rw [List.map_flatMap]
  congr 1
  funext i
  unfold logical_edges feeders
  split <;> rfl

theorem getD_cases {α : Type} (l : List α) (i : Nat) (x : α) :
    l.getD i x ∈ l ∨ l.getD i x = x := by
  rw [List.getD_eq_getElem?_getD]
  cases h : l[i]? with
  | none => exact .inr rfl
  | some y => exact .inl (List.mem_of_getElem? h)

variable {c : Setup} {selections : List Operation_} {queue : List Nat}

theorem session_plan (h : c.IsSession selections queue) : c.plan.nodes = virtual_vertex ::
      selections.mapIdx (fun i operation => create_node operation i) ++
      (List.range (selections.length - 1)).map
        (fun i => create_logical_node ng_logical_and (selections.length + i)) ∧
    ∃ edges, edges = selections.mapIdx (fun i operation =>
        (((0, selection_vertex i), create_edge operation.data_size true) :
          (Nat × Nat) × Exchange_Edge)) ++
        (List.range (selections.length - 1)).flatMap (logical_edges selections) ∧
      c.plan.ends = edges.map (·.1) ∧ c.plan.edges = edges.map (·.2) := by
  have hplan := h.plan
  simp only [create_execution_graph] at hplan
  split at hplan
  · cases hplan
  · rw [← Option.some.inj hplan]
    exact ⟨rfl, _, rfl, rfl, rfl⟩

theorem session_sizes (h : c.IsSession selections queue) (j : Nat) :
    (selections[j]?.map (·.data_size)).getD 0 < 2 ^ 31 := by
  cases hj : selections[j]? with
  | none => simp
  | some o =>
    obtain ⟨t, rows, -, hrows, rfl⟩ := h.columns o (List.mem_of_getElem? hj)
    exact hrows

theorem session_nodes (h : c.IsSession selections queue) (v : Nat) :
    Kind (c.start_memory.operation v).operationType ∧
      (c.start_memory.operation v).data_size < 2 ^ 31 ∧
      (c.start_memory.node v).is_initialized = false ∧
      (c.start_memory.operation v).processed_until = 0 := by
  obtain ⟨hnodes, -⟩ := session_plan h
  unfold Memory.operation Setup.start_memory
  rcases getD_cases c.plan.nodes v virtual_vertex with hmem | heq
  · simp only
    rw [hnodes, List.cons_append, List.mem_cons, List.mem_append, List.mem_mapIdx,
      List.mem_map, ← List.cons_append, ← hnodes] at hmem
    rcases hmem with heq | ⟨i, hi, heq⟩ | ⟨i, -, heq⟩
    · rw [heq]
      exact ⟨.inr (.inr rfl), Nat.two_pow_pos 31, rfl, rfl⟩
    · rw [← heq]
      obtain ⟨t, rows, ht, hrows, heq⟩ := h.columns _ (List.getElem_mem hi)
      rw [heq]
      rcases ht with rfl | rfl
      · exact ⟨.inl rfl, hrows, rfl, rfl⟩
      · exact ⟨.inr (.inl rfl), hrows, rfl, rfl⟩
    · rw [← heq]
      exact ⟨.inr (.inr rfl), Nat.two_pow_pos 31, rfl, rfl⟩
  · simp only [heq]
    exact ⟨.inr (.inr rfl), Nat.two_pow_pos 31, rfl, rfl⟩

theorem session_edges (h : c.IsSession selections queue) (e : Nat) :
    (c.start_memory.edge e).data_size < 2 ^ 31 := by
  obtain ⟨-, edges, hedges, -, hplan⟩ := session_plan h
  unfold Setup.start_memory
  rcases getD_cases c.plan.edges e {} with hmem | heq
  · simp only
    rw [hplan, List.mem_map] at hmem
    obtain ⟨x, hx, heq⟩ := hmem
    rw [← hplan] at heq
    rw [← heq]
    rw [hedges, List.mem_append, List.mem_mapIdx, List.mem_flatMap] at hx
    rcases hx with ⟨i, hi, rfl⟩ | ⟨i, -, hx⟩
    · obtain ⟨t, rows, -, hrows, heq⟩ := h.columns _ (List.getElem_mem hi)
      rw [heq]
      exact hrows
    · simp only [logical_edges, List.mem_cons, List.not_mem_nil, or_false] at hx
      rcases hx with rfl | rfl
      · split
        · exact session_sizes h 0
        · exact Nat.two_pow_pos 31
      · exact session_sizes h (i + 1)
  · simp only [heq]
    exact Nat.two_pow_pos 31

/-- An edge that does not come from the virtual vertex is one of those into the logical vertices. -/
theorem session_logical_edge (h : c.IsSession selections queue) {e : Nat}
    (he : e < c.plan.ends.length) (hkind : (c.start_memory.edge e).is_virtual_vertex = false) :
    selections.length ≤ e ∧
      ((List.range (selections.length - 1)).flatMap
        (feeders selections.length))[e - selections.length]? = some (c.plan.source e) := by
  obtain ⟨-, edges, hedges, hends, hplan⟩ := session_plan h
  rw [hends, List.length_map] at he
  have hedge : (c.start_memory.edge e) = (edges[e]).2 := by
    unfold Setup.start_memory
    simp only
    rw [hplan, List.getD_eq_getElem?_getD, List.getElem?_map, List.getElem?_eq_getElem he]
    rfl
  have hsource : c.plan.source e = (edges[e]).1.1 := by
    unfold QueryPlan.source
    rw [hends, List.getD_eq_getElem?_getD, List.getElem?_map, List.getElem?_eq_getElem he]
    rfl
  have hle : selections.length ≤ e := by
    by_contra hlt
    rw [hedge] at hkind
    simp only [hedges] at hkind
    rw [List.getElem_append_left (by simpa using hlt), List.getElem_mapIdx] at hkind
    cases hkind
  refine ⟨hle, ?_⟩
  have hsplit : edges[e]? = ((List.range (selections.length - 1)).flatMap
      (logical_edges selections))[e - selections.length]? := by
    rw [hedges, List.getElem?_append_right (by simpa using hle), List.length_mapIdx]
  rw [← logical_edges_sources, List.getElem?_map, hsource, ← hsplit, List.getElem?_eq_getElem he]
  rfl

theorem session_plain (h : c.IsSession selections queue) : Plain c := by
  refine ⟨session_nodes h, session_edges h, fun e he e' he' hkind hkind' hsource => ?_⟩
  obtain ⟨hle, hget⟩ := session_logical_edge h he hkind
  obtain ⟨hle', hget'⟩ := session_logical_edge h he' hkind'
  rw [hsource] at hget
  have hlt := (List.getElem?_eq_some_iff.mp hget).1
  have hsame := (List.getElem?_inj hlt (feeders_nodup _)).mp (hget.trans hget'.symm)
  omega

end hero.data_parallelism
