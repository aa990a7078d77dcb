-- The meaning of a query graph: each operation computes its words from those of its inputs. What
-- `execute_graph` leaves in the buffers and shows is this meaning, so that neither the topological
-- order nor the aliases nor the devices play a part in the results.
import HeroDB.LaunchSizes
import HeroDB.Lib.Dataflow
import HeroDB.Placement

namespace hero.runtime_layer

open dataflow (Network Ordered Solves evaluate)
open relocation (Kept)

/-! ## The meaning -/

/-- What an edge brings: the words of its buffer, and the size that stands on it. -/
structure Flow where
  words : List Word
  data_size : Nat

/-- The input size of a node: the largest size that its inputs bring, and at least its own. -/
def primitive_node.size_for (n : primitive_node) (inputs : List Flow) : Nat :=
  inputs.foldl (fun size d => max size d.data_size) n.input_size

/-- What a node makes of its inputs, with kernels that write `f`. -/
def primitive_node.flow (f : String → List (List Word) → List Int → Nat → List Word)
    (n : primitive_node) (inputs : List Flow) : Flow :=
  let size := n.size_for inputs
  { words := f n.mKernelName (inputs.map Flow.words ++ [List.replicate size 0])
      n.additional_parameters (size / n.input_to_output_ratio)
    data_size := if n.overall_output_size = 0 then size else n.overall_output_size }

/-- The column of `data_scan` with a key. -/
def column_flow (data_scan : ScanMap) (key : Int) : Flow :=
  match data_scan.entries.find? (fun c => c.1 = key) with
  | some c => ⟨c.2, c.2.length⟩
  | none => ⟨[], 0⟩

/-- An edge from the scan brings the column whose key it carries, any other edge what its source
computes. -/
def edge_flow (g : query_graph) (data_scan : ScanMap) (value : Nat → Flow) (e : Nat) : Flow :=
  if g.source e = start_vertex then column_flow data_scan (g.edge e).data_pointer
  else value (g.source e)

/-- A query graph as a network. -/
def network (f : String → List (List Word) → List Int → Nat → List Word) (g : query_graph)
    (data_scan : ScanMap) : Network Nat Flow where
  inputs v := (g.in_edges v).map g.source
  compute v value := (g.vertex v).flow f ((g.in_edges v).map (edge_flow g data_scan value))
  reads v value value' h := by
    congr 1
    refine List.map_congr_left fun e he => ?_
    unfold edge_flow
    rw [h _ (List.mem_map_of_mem he)]

namespace Plan

variable (f : String → List (List Word) → List Int → Nat → List Word) (p : Plan)

/-- What a vertex computes. -/
def meaning (v : Nat) : Flow := evaluate (network f p.dag p.data_scan) ⟨[], 0⟩ p.order v

def edge_meaning (e : Nat) : Flow := edge_flow p.dag p.data_scan (p.meaning f) e

/-- The columns that the display fetches. The size goes through an `int`. -/
def shown : List (List Word) :=
  (p.dag.in_edges end_vertex).map (fun e =>
    (p.edge_meaning f e).words.takeD
      (size_of_int (int_of_size (p.edge_meaning f e).data_size)) 0)

/-! ## The condition -/

/-- Every edge from the scan carries the key of a column, and the alias of that column is the key of
no later one. -/
def FindsColumns : Prop :=
  ∀ e < p.dag.ends.length, p.dag.source e = start_vertex →
    ∃ j c, p.data_scan.entries[j]? = some c ∧ (p.dag.edge e).data_pointer = c.1 ∧
      ∀ c' ∈ p.data_scan.entries.drop (j + 1), c'.1 ≠ p.column j

/-- The run loses no words: every edge from the scan finds its column, no edge takes a buffer away
from a later edge or from the display, and a transfer takes as many words as there are. -/
structure LosesNothing : Prop where
  finds : p.FindsColumns
  unshared : (p.reads p.order).Pairwise p.Spares
  shown : ∀ e ∈ p.reads p.order, p.Remote e →
    ∀ e' ∈ p.dag.in_edges end_vertex, p.pointer e ≠ p.pointer e'
  whole : ∀ e ∈ p.reads p.order, p.Remote e →
    (p.edge_meaning f e).words.length = (p.edge_meaning f e).data_size

/-- After the turns of some vertices the run is good. The sizes on the edges are those of the meaning,
and so are the words that the operations wrote and what the display has fetched. -/
structure Computed (pre : List Nat) (s : Stores) : Prop where
  good : p.Good f pre s
  sizes : ∀ e < p.dag.ends.length, p.dag.source e ∈ pre →
    ((p.run f pre).dag.edge e).data_size = (p.edge_meaning f e).data_size
  words : ∀ u ∈ pre, p.dag.IsOp u → p.written f u = some (p.meaning f u).words
  results : (p.run f pre).results = if end_vertex ∈ pre then p.shown f else []

end Plan

/-! ## The equations of the meaning -/

theorem topological_ordered {f : String → List (List Word) → List Int → Nat → List Word}
    {g : query_graph} {data_scan : ScanMap} {order : List Nat} (h : IsTopological g order) :
    Ordered (network f g data_scan) order where
  nodup := h.nodup
  behind pre v post hsplit u hu := by
    obtain ⟨e, he, rfl⟩ := List.mem_map.mp hu
    exact h.sources_done hsplit he

theorem column_flow_eq {data_scan : ScanMap} {j : Nat} {c : Int × List Word}
    (hj : data_scan.entries[j]? = some c) : column_flow data_scan c.1 = ⟨c.2, c.2.length⟩ := by
  unfold column_flow
  cases hfind : data_scan.entries.find? (fun d => d.1 = c.1) with
  | none =>
    have hnone := List.find?_eq_none.mp hfind c (List.mem_of_getElem? hj)
    simp at hnone
  | some d =>
    have hkey : d.1 = c.1 := by simpa using List.find?_some hfind
    obtain ⟨i, hi⟩ := List.mem_iff_getElem?.mp (List.mem_of_find?_eq_some hfind)
    have hij := data_scan.key_inj hi hj hkey
    rw [hij, hj, Option.some.injEq] at hi
    rw [hi]

/-- An edge with the key of a column, when the alias of the column is the key of no later one. -/
theorem resolved_of_passed {counter : Nat} {data_scan : ScanMap} {d : data_edge} {j : Nat}
    {c : Int × List Word} (hj : data_scan.entries[j]? = some c) (hkey : d.data_pointer = c.1)
    (hlater : ∀ c' ∈ data_scan.entries.drop (j + 1), c'.1 ≠ column_alias counter j) :
    resolved counter data_scan.entries d =
      { d with data_pointer := column_alias counter j, data_size := c.2.length } := by
  have hbefore : ∀ i < j, ∀ x, data_scan.entries[i]? = some x → x.1 ≠ c.1 := by
    intro i hi c' hc' heq
    have hij := data_scan.key_inj hc' hj heq
    omega
  rw [resolved_split _ _ _ j c hj hkey hbefore]
  refine resolved_of_not_key _ _ _ (fun c' hc' => ?_)
  dsimp only
  exact hlater c' hc'

namespace Plan

section meaning

variable {f : String → List (List Word) → List Int → Nat → List Word} {p : Plan}
variable {pre post : List Nat} {v e : Nat} {s : Stores}

theorem meaning_eq (hv : v < p.dag.num_vertices) :
    p.meaning f v =
      (p.dag.vertex v).flow f ((p.dag.in_edges v).map (p.edge_meaning f)) :=
  (topological_ordered p.topological).evaluate_solves v ((p.topological.mem_iff v).mpr hv)

/-- An edge from the scan after the load: the alias and the size of its column. -/
theorem resolved_edge (h : p.FindsColumns) (hlt : e < p.dag.ends.length)
    (hs : p.dag.source e = start_vertex) :
    ∃ j c, p.data_scan.entries[j]? = some c ∧ p.edge_meaning f e = ⟨c.2, c.2.length⟩ ∧
      resolved (counter_at p.data_scan p.counter p.order start_vertex) p.data_scan.entries
        (p.dag.edge e) =
          { p.dag.edge e with data_pointer := p.column j, data_size := c.2.length } := by
  obtain ⟨j, c, hj, hkey, hlater⟩ := h e hlt hs
  refine ⟨j, c, hj, ?_, resolved_of_passed hj hkey hlater⟩
  rw [edge_meaning, edge_flow, if_pos hs, hkey, column_flow_eq hj]

theorem pointer_eq_column (h : p.FindsColumns) (hlt : e < p.dag.ends.length)
    (hs : p.dag.source e = start_vertex) :
    ∃ j c, p.data_scan.entries[j]? = some c ∧ (p.edge_meaning f e).words = c.2 ∧
      p.pointer e = p.column j := by
  obtain ⟨j, c, hj, hmeaning, hresolved⟩ := resolved_edge (f := f) h hlt hs
  refine ⟨j, c, hj, by rw [hmeaning], ?_⟩
  rw [pointer, edge_alias, if_pos hs, hresolved]

/-- The words that an edge brings are stored once its source had its turn. -/
theorem Computed.stored (h : p.Computed f pre s) (hfinds : p.FindsColumns)
    (hlt : e < p.dag.ends.length) (hsource : p.dag.source e ∈ pre) :
    p.Stored f pre (p.pointer e) (p.device (p.dag.source e)) (p.edge_meaning f e).words := by
  by_cases hs : p.dag.source e = start_vertex
  · obtain ⟨j, c, hj, hwords, hpointer⟩ := pointer_eq_column (f := f) hfinds hlt hs
    rw [hs] at hsource ⊢
    exact .inl ⟨hsource, rfl, j, c, hj, hpointer, hwords⟩
  · have hop := p.query.source_isOp hlt hs
    refine .inr ⟨p.dag.source e, hsource, hop, ?_, rfl, ?_⟩
    · rw [pointer, edge_alias, if_neg hs]
      rfl
    · rw [h.words _ hsource hop, edge_meaning, edge_flow, if_neg hs]

/-- The buffer of an input after `set_input` of its operation. -/
theorem input_words (hfinds : p.FindsColumns) (h : p.Computed f pre s) {s' : Stores}
    (hsplit : p.order = pre ++ v :: post)
    (hkept : Kept (p.trips f) (look p.st) (p.Stored f pre) (p.reads pre ++ p.dag.in_edges v)
      (look s'))
    (hshare : (p.reads pre ++ p.dag.in_edges v).Pairwise p.Spares)
    (hwhole : p.Remote e → (p.edge_meaning f e).words.length = (p.edge_meaning f e).data_size)
    (he : e ∈ p.dag.in_edges v) :
    look s' (p.pointer e) (p.device v) = some (p.edge_meaning f e).words := by
  have hknown : ∀ e' ∈ p.dag.in_edges v, p.Stored f pre (p.pointer e')
      (p.device (p.dag.source e')) (p.edge_meaning f e').words := fun e' he' =>
    h.stored hfinds (p.dag.mem_in_edges.mp he').1 (p.topological.sources_done hsplit he')
  have htarget := (p.dag.mem_in_edges.mp he).2
  have hgoal : p.device v = p.device (p.dag.target e) := by rw [htarget]
  by_cases haway : p.Remote e
  · have hsize : p.size f e = (p.edge_meaning f e).words.length := by
      rw [hwhole haway, ← h.sizes e (p.dag.mem_in_edges.mp he).1
        (p.topological.sources_done hsplit he)]
      exact (edge_at_turn f hsplit he).2.symm
    have hat := hkept.moved _ _ _ e (hknown e he) (List.mem_append_right _ he) haway rfl (p.device v)
    have hcargo : (p.trips f).cargo e (p.edge_meaning f e).words = (p.edge_meaning f e).words := by
      simp only [trips, hsize]
      rw [List.takeD_eq_take _ (Nat.le_refl _), List.take_length]
    rw [hat, hcargo]
    exact if_pos hgoal
  · have hfree : ∀ e' ∈ p.reads pre ++ p.dag.in_edges v, p.Remote e' → p.pointer e' ≠ p.pointer e := by
      intro e' he' haway' heq
      rcases List.mem_append.mp he' with hmem | hmem
      · exact (List.pairwise_append.mp hshare).2.2 e' hmem e he heq haway'
      · exact spares_of_local he hmem (hknown e he) (hknown e' hmem) haway heq haway'
    have hat := hkept.home _ _ _ (hknown e he) hfree (p.device v)
    rwa [if_pos (hgoal.trans (not_not.mp haway).symm)] at hat

end meaning

/-! ## The turns -/

section turns

variable {f : String → List (List Word) → List Int → Nat → List Word} {p : Plan}
variable {pre post : List Nat} {v e : Nat} {s s' : Stores}

theorem run_scan (f : String → List (List Word) → List Int → Nat → List Word)
    (hsplit : p.order = pre ++ start_vertex :: post) :
    p.run f (pre ++ [start_vertex]) = load_data p.data_scan start_vertex (p.run f pre) := by
  rcases run_snoc f hsplit with ⟨-, hrun⟩ | ⟨he, -⟩ | ⟨hop, -⟩
  · exact hrun
  · exact absurd he (by decide)
  · exact absurd rfl hop.2.1

theorem run_operation (f : String → List (List Word) → List Int → Nat → List Word)
    (hsplit : p.order = pre ++ v :: post) (hop : p.dag.IsOp v) :
    p.run f (pre ++ [v]) = operate (.total f) v (p.run f pre) := by
  rcases run_snoc f hsplit with ⟨hs, -⟩ | ⟨he, -⟩ | ⟨-, hrun⟩
  · exact absurd hs hop.2.1
  · exact absurd he hop.2.2
  · exact hrun

theorem run_display (f : String → List (List Word) → List Int → Nat → List Word)
    (hsplit : p.order = pre ++ end_vertex :: post) :
    p.run f (pre ++ [end_vertex]) = display_result (p.run f pre) := by
  rcases run_snoc f hsplit with ⟨hs, -⟩ | ⟨-, hrun⟩ | ⟨hop, -⟩
  · exact absurd hs (by decide)
  · exact hrun
  · exact absurd rfl hop.2.2

theorem computed_start (f : String → List (List Word) → List Int → Nat → List Word) (p : Plan) :
    p.Computed f [] p.st :=
  ⟨good_start f p, by simp, by simp, rfl⟩

/-- The turn of the scan. -/
theorem computed_scan (hfinds : p.FindsColumns) (hsplit : p.order = pre ++ start_vertex :: post)
    (h : p.Computed f pre s) : ∃ s', p.Computed f (pre ++ [start_vertex]) s' := by
  have hw := wired f hsplit
  have hat := counter_at_eq p.data_scan p.counter p.topological hsplit
  rw [← hw.counter_eq] at hat
  have hrun := run_scan f hsplit
  obtain ⟨s', hgood⟩ := good_scan hsplit h.good
  refine ⟨s', hgood, fun e hlt he => ?_, fun u hu hop => ?_, ?_⟩
  · have hout : e ∈ (p.run f pre).dag.out_edges start_vertex ↔ p.dag.source e = start_vertex := by
      rw [hw.shape.out_edges, query_graph.mem_out_edges, and_iff_right hlt]
    rw [hrun, load_data_edge]
    by_cases hs : p.dag.source e = start_vertex
    · have hfresh := hw.edge_eq e (by rw [hs]; exact p.topological.not_mem_prefix hsplit)
      obtain ⟨j, c, -, hmeaning, hresolved⟩ := resolved_edge (f := f) hfinds hlt hs
      rw [if_pos (hout.mpr hs), hfresh, ← hat, hresolved, hmeaning]
    · rw [if_neg (fun hmem => hs (hout.mp hmem))]
      exact h.sizes e hlt (by simpa [hs] using he)
  · exact h.words u (by simpa [hop.2.1] using hu) hop
  · have hne : end_vertex ≠ start_vertex := by decide
    rw [hrun, load_data_results, h.results]
    simp [hne]

/-- An operation at its launch: its inputs have given it its size, and the rest of it is as in the
graph. -/
theorem node_at_launch (h : p.Computed f pre s) (hsplit : p.order = pre ++ v :: post) :
    ∃ data, (set_input v (p.run f pre)).dag.vertex v =
      { p.dag.vertex v with
        input_data := data
        input_size := (p.dag.vertex v).size_for ((p.dag.in_edges v).map (p.edge_meaning f)) } := by
  have hw := wired f hsplit
  have hsize := take_inputs_size (p.dag.in_edges v) (p.run f pre).dag.edge (p.dag.vertex v)
  obtain ⟨data, size, heq⟩ :=
    take_inputs_eq (p.dag.in_edges v) (p.run f pre).dag.edge (p.dag.vertex v)
  refine ⟨data, ?_⟩
  rw [set_input_vertex_self, hw.shape.in_edges,
    hw.vertex_eq v (p.topological.not_mem_prefix hsplit), heq]
  congr 1
  rw [heq] at hsize
  rw [primitive_node.size_for, List.foldl_map]
  refine hsize.trans (foldl_max_congr (fun e he => ?_) _)
  exact h.sizes e (p.dag.mem_in_edges.mp he).1 (p.topological.sources_done hsplit he)

/-- The turn of an operation whose inputs have the words that they should: its kernel writes those of
its meaning. -/
theorem operation_writes (h : p.Computed f pre s) (hsplit : p.order = pre ++ v :: post)
    (hop : p.dag.IsOp v) (hset : (set_input v (p.run f pre)).stores = some s')
    (hinputs : ∀ e ∈ p.dag.in_edges v,
      look s' (p.pointer e) (p.device v) = some (p.edge_meaning f e).words)
    (hnew : ∀ dev, look s' (p.output v) dev = none) :
    p.written f v = some (p.meaning f v).words := by
  have hw := wired f hsplit
  have hvertex := hw.vertex_eq v (p.topological.not_mem_prefix hsplit)
  have hdevice : ((p.run f pre).dag.vertex v).device = p.device v := hw.device_eq v
  have hpointers : ((p.run f pre).dag.in_edges v).map (fun e =>
      ((p.run f pre).dag.edge e).data_pointer) = (p.dag.in_edges v).map p.pointer := by
    rw [hw.shape.in_edges]
    apply List.map_congr_left
    exact fun e he => (edge_at_turn f hsplit he).1
  obtain ⟨-, hruns⟩ := operate_runs (.total f) v (p.run f pre) _ (s := s')
    (hw.shape.execution_environment.trans p.environment)
    (by rw [hvertex]; exact (p.fresh v hop).1) (by rw [hvertex]; exact (p.fresh v hop).2) hset
    (by rw [hpointers, hdevice]; exact mapM_lookup_map hinputs)
    (by rw [output_eq f hsplit hop]; exact hnew _)
  rw [hdevice, output_eq f hsplit hop] at hruns
  obtain ⟨data, hnode⟩ := node_at_launch h hsplit
  obtain ⟨s'', hs'', hlook⟩ := hruns (p.meaning f v).words (by
    rw [meaning_eq hop.1, hnode, primitive_node.flow, List.map_map]
    rfl)
  rw [written, at_turn_eq f hsplit, hs'', Option.bind_some, hlook, if_pos rfl]

/-- The size that an operation puts on its out-edges. -/
theorem operation_size (h : p.Computed f pre s) (hsplit : p.order = pre ++ v :: post)
    (hlt : e < p.dag.ends.length) (hs : p.dag.source e = v) (hop : p.dag.IsOp v) :
    ((operate (.total f) v (p.run f pre)).dag.edge e).data_size =
      (p.edge_meaning f e).data_size := by
  have hw := wired f hsplit
  have hmem : e ∈ (p.run f pre).dag.out_edges v := by
    rw [hw.shape.out_edges, query_graph.mem_out_edges]
    exact ⟨hlt, hs⟩
  have hmeaning : p.edge_meaning f e = p.meaning f v := by
    rw [edge_meaning, edge_flow, hs, if_neg hop.2.1]
  obtain ⟨data, hnode⟩ := node_at_launch h hsplit
  rw [(operate_edge_of_mem _ v _ hmem).2, operate_vertex_self, hnode, hmeaning, meaning_eq hop.1]
  rfl

/-- After `set_input` of an operation its inputs have the words of the meaning, and the alias of its
output has no buffer yet. -/
theorem inputs_ready (hl : p.LosesNothing f) (hsplit : p.order = pre ++ v :: post)
    (hop : p.dag.IsOp v) (h : p.Computed f pre s) :
    ∃ s', (set_input v (p.run f pre)).stores = some s' ∧
      (∀ e ∈ p.dag.in_edges v,
        look s' (p.pointer e) (p.device v) = some (p.edge_meaning f e).words) ∧
      ∀ dev, look s' (p.output v) dev = none := by
  have hsub := reads_split hsplit hop.2.2
  have hshare := hl.unshared.sublist hsub
  obtain ⟨s', hs', hkept, -, hnew⟩ := inputs_there hsplit hop h.good
    (fun e he => ⟨_, h.stored hl.finds (p.dag.mem_in_edges.mp he).1
      (p.topological.sources_done hsplit he)⟩) hshare
  refine ⟨s', hs', fun e he => ?_, hnew⟩
  exact input_words hl.finds h hsplit hkept hshare
    (hl.whole e (hsub.subset (List.mem_append_right _ he))) he

/-- The turn of an operation. -/
theorem computed_operation (hl : p.LosesNothing f) (hsplit : p.order = pre ++ v :: post)
    (hop : p.dag.IsOp v) (h : p.Computed f pre s) : ∃ s', p.Computed f (pre ++ [v]) s' := by
  have hw := wired f hsplit
  have hshare := hl.unshared.sublist (reads_split hsplit hop.2.2)
  have hresolved : ∀ e ∈ p.dag.in_edges v, p.Resolved e := by
    intro e he hs
    obtain ⟨j, c, hj, -, hpointer⟩ :=
      pointer_eq_column (f := f) hl.finds (p.dag.mem_in_edges.mp he).1 hs
    exact ⟨j, (List.getElem?_eq_some_iff.mp hj).1, hpointer⟩
  have hrun := run_operation f hsplit hop
  obtain ⟨s1, hs1, hinputs, hnew⟩ := inputs_ready hl hsplit hop h
  have hwritten : p.written f v = some (p.meaning f v).words :=
    operation_writes h hsplit hop hs1 hinputs hnew
  obtain ⟨s2, hgood⟩ := good_operation hsplit hop h.good
    ((in_place_iff hsplit hop h.good).mpr ⟨hresolved, hshare⟩)
  refine ⟨s2, hgood, fun e hlt he => ?_, fun u hu hop' => ?_, ?_⟩
  · rw [hrun]
    by_cases hs : p.dag.source e = v
    · exact operation_size h hsplit hlt hs hop
    · have hout : e ∉ (p.run f pre).dag.out_edges v := by
        rw [hw.shape.out_edges, query_graph.mem_out_edges]
        exact fun hmem => hs hmem.2
      rw [operate_edge_of_not_mem _ v _ hout]
      exact h.sizes e hlt (by simpa [hs] using he)
  · rcases List.mem_append.mp hu with hu | hu
    · exact h.words u hu hop'
    · rw [List.mem_singleton.mp hu]
      exact hwritten
  · rw [hrun, operate_results, h.results]
    simp [hop.2.2.symm]

/-- A buffer that the display reads. -/
theorem shown_words (hl : p.LosesNothing f) (hsplit : p.order = pre ++ end_vertex :: post)
    (h : p.Computed f pre s) (he : e ∈ p.dag.in_edges end_vertex) :
    look s (p.pointer e) (p.device (p.dag.source e)) = some (p.edge_meaning f e).words := by
  have hstored := h.stored hl.finds (p.dag.mem_in_edges.mp he).1
    (p.topological.sources_done hsplit he)
  have hfree : ∀ e' ∈ p.reads pre, p.Remote e' → p.pointer e' ≠ p.pointer e := by
    intro e' he' haway
    refine hl.shown e' ?_ haway e he
    rw [hsplit, reads, List.filter_append, List.flatMap_append]
    exact List.mem_append_left _ he'
  have hat := h.good.kept.home _ _ _ hstored hfree (p.device (p.dag.source e))
  rwa [if_pos rfl] at hat

/-- What the display fetches. -/
theorem display_shows (hl : p.LosesNothing f) (hsplit : p.order = pre ++ end_vertex :: post)
    (h : p.Computed f pre s) :
    (p.run f (pre ++ [end_vertex])).results =
      if end_vertex ∈ pre ++ [end_vertex] then p.shown f else [] := by
  have hw := wired f hsplit
  have hshown : ∀ e ∈ p.dag.in_edges end_vertex,
      look s ((p.run f pre).dag.edge e).data_pointer
        ((p.run f pre).dag.vertex ((p.run f pre).dag.source e)).device =
          some (p.edge_meaning f e).words := by
    intro e he
    rw [(edge_at_turn f hsplit he).1, hw.shape.source, hw.device_eq]
    exact shown_words hl hsplit h he
  have hcolumns := display_edges_columns (fun e => (p.edge_meaning f e).words) h.good.stores
    (hw.shape.execution_environment.trans p.environment) hshown
  rw [run_display f hsplit, display_result, hw.shape.in_edges, hcolumns, h.results,
    if_neg (p.topological.not_mem_prefix hsplit), if_pos (by simp), List.nil_append, shown]
  refine List.map_congr_left fun e he => ?_
  rw [h.sizes e (p.dag.mem_in_edges.mp he).1 (p.topological.sources_done hsplit he)]

/-- The turn of the display. -/
theorem computed_display (hl : p.LosesNothing f) (hsplit : p.order = pre ++ end_vertex :: post)
    (h : p.Computed f pre s) : ∃ s', p.Computed f (pre ++ [end_vertex]) s' := by
  have hrun := run_display f hsplit
  obtain ⟨s', hgood⟩ := (good_display hsplit h.good).1 (fun e he => by
    rw [← present_iff h.good, ← not_not (a := _ ∈ s.openCL), ← AList.lookup_eq_none]
    rw [← look, shown_words hl hsplit h he]
    simp)
  refine ⟨s', hgood, fun e hlt he => ?_, fun u hu hop => ?_, ?_⟩
  · have hs : p.dag.source e ≠ end_vertex := p.query.display_last _ (p.dag.ends_mem hlt)
    rw [hrun, display_result_dag]
    exact h.sizes e hlt (by simpa [hs] using he)
  · exact h.words u (by simpa [hop.2.2] using hu) hop
  · exact display_shows hl hsplit h

/-- Every prefix of the run has computed its part of the meaning. -/
theorem computed_after (hl : p.LosesNothing f) (pre post : List Nat)
    (hsplit : p.order = pre ++ post) : ∃ s, p.Computed f pre s := by
  induction pre using List.reverseRecOn generalizing post with
  | nil => exact ⟨p.st, computed_start f p⟩
  | append_singleton pre v ih =>
    have hsplit' : p.order = pre ++ v :: post := by simpa using hsplit
    obtain ⟨s, h⟩ := ih (v :: post) hsplit'
    rcases run_snoc f hsplit' with ⟨rfl, -⟩ | ⟨rfl, -⟩ | ⟨hop, -⟩
    · exact computed_scan hl.finds hsplit' h
    · exact computed_display hl hsplit' h
    · exact computed_operation hl hsplit' hop h

end turns

/-! ## The laws -/

section laws

variable {f : String → List (List Word) → List Int → Nat → List Word} {p p' : Plan} {e v : Nat}

theorem Computed.results_eq {s : Stores} (h : p.Computed f p.order s) :
    (p.run f p.order).results = p.shown f :=
  h.results.trans (if_pos ((p.topological.mem_iff _).mpr p.query.two_le))

/-- The inputs of an operation as its launch finds them: behind each in-edge the column or the words
of the source, on the device of the operation. -/
def Reads (f : String → List (List Word) → List Int → Nat → List Word) (p : Plan) (v : Nat) : Prop :=
  ∃ s, (set_input v (p.at_turn f v)).stores = some s ∧ ∀ e ∈ p.dag.in_edges v,
    look s (p.pointer e) (p.device v) = some (p.edge_meaning f e).words

/-- A plan that loses nothing runs without undefined behaviour. Every operation reads what its edges
mean and writes the words of its meaning, and the display fetches those of its inputs. -/
theorem execute_graph_computes_the_meaning
    (f : String → List (List Word) → List Int → Nat → List Word) (p : Plan)
    (hl : p.LosesNothing f) :
    (execute_graph (.total f) p.data_scan p.order (.before p.dag p.counter p.st)).stores ≠ none ∧
      (execute_graph (.total f) p.data_scan p.order (.before p.dag p.counter p.st)).results =
        p.shown f ∧
      ∀ v, p.dag.IsOp v → p.Reads f v ∧ p.written f v = some (p.meaning f v).words := by
  obtain ⟨s, h⟩ := computed_after hl p.order [] (List.append_nil _).symm
  have hstores : (execute_graph (.total f) p.data_scan p.order
      (.before p.dag p.counter p.st)).stores = some s := h.good.stores
  refine ⟨by simp [hstores], h.results_eq, fun v hop => ⟨?_, ?_⟩⟩
  · obtain ⟨pre, post, hsplit⟩ := List.append_of_mem ((p.topological.mem_iff v).mpr hop.1)
    obtain ⟨s', h'⟩ := computed_after hl pre (v :: post) hsplit
    obtain ⟨s1, hs1, hinputs, -⟩ := inputs_ready hl hsplit hop h'
    exact ⟨s1, by rw [at_turn_eq f hsplit, hs1], hinputs⟩
  · exact h.words v ((p.topological.mem_iff v).mpr hop.1) hop

/-- Two plans for one query: their graphs differ in the devices at most, and they load the same
columns. -/
structure SameQuery (p p' : Plan) : Prop where
  num_vertices : p'.dag.num_vertices = p.dag.num_vertices
  ends : p'.dag.ends = p.dag.ends
  vertex : ∀ v, ∃ pID dID, p'.dag.vertex v = { p.dag.vertex v with pID := pID, dID := dID }
  edge : p'.dag.edge = p.dag.edge
  data_scan : p'.data_scan = p.data_scan

theorem SameQuery.in_edges (h : SameQuery p p') (v : Nat) : p'.dag.in_edges v = p.dag.in_edges v := by
  unfold query_graph.in_edges query_graph.target
  rw [h.ends]

theorem SameQuery.edge_flow_eq (h : SameQuery p p') (value : Nat → Flow) :
    edge_flow p'.dag p'.data_scan value = edge_flow p.dag p.data_scan value := by
  funext e
  unfold edge_flow query_graph.source
  rw [h.ends, h.edge, h.data_scan]

/-- The devices play no part in the meaning. -/
theorem SameQuery.meaning_eq (h : SameQuery p p') (hv : v < p.dag.num_vertices) :
    p'.meaning f v = p.meaning f v := by
  have hsolves : Solves (network f p.dag p.data_scan) p.order (p'.meaning f) := by
    intro v hv
    have hlt := (p.topological.mem_iff v).mp hv
    obtain ⟨pID, dID, hnode⟩ := h.vertex v
    have hedge : p'.edge_meaning f = edge_flow p.dag p.data_scan (p'.meaning f) :=
      h.edge_flow_eq _
    rw [Plan.meaning_eq (by rw [h.num_vertices]; exact hlt), hnode, h.in_edges, hedge]
    rfl
  have hordered : Ordered (network f p.dag p.data_scan) p.order := topological_ordered p.topological
  exact (hordered.unique hordered.evaluate_solves hsolves v ((p.topological.mem_iff v).mpr hv)).symm

theorem SameQuery.shown_eq (h : SameQuery p p') : p'.shown f = p.shown f := by
  unfold shown
  rw [h.in_edges]
  refine List.map_congr_left fun e he => ?_
  have hlt := (p.query.ends_lt _ (p.dag.ends_mem (p.dag.mem_in_edges.mp he).1)).1
  have hedge : p'.edge_meaning f e = p.edge_meaning f e := by
    unfold edge_meaning
    rw [h.edge_flow_eq]
    unfold edge_flow
    rw [h.meaning_eq hlt]
  rw [hedge]

/-- Two plans for one query that lose nothing show the same results, and each operation writes the
same words in both: whatever the devices, the topological order, the alias counter and the buffers
of earlier graphs. -/
theorem placement_changes_no_results (hsame : SameQuery p p') (hl : p.LosesNothing f)
    (hl' : p'.LosesNothing f) :
    (execute_graph (.total f) p'.data_scan p'.order (.before p'.dag p'.counter p'.st)).results =
        (execute_graph (.total f) p.data_scan p.order (.before p.dag p.counter p.st)).results ∧
      ∀ v, p.dag.IsOp v → p'.written f v = p.written f v := by
  obtain ⟨s, h⟩ := computed_after hl p.order [] (List.append_nil _).symm
  obtain ⟨s', h'⟩ := computed_after hl' p'.order [] (List.append_nil _).symm
  constructor
  · exact h'.results_eq.trans (hsame.shown_eq.trans h.results_eq.symm)
  · intro v hop
    have hop' : p'.dag.IsOp v := ⟨by rw [hsame.num_vertices]; exact hop.1, hop.2⟩
    rw [h.words v ((p.topological.mem_iff v).mpr hop.1) hop,
      h'.words v ((p'.topological.mem_iff v).mpr hop'.1) hop', hsame.meaning_eq hop.1]

end laws

/-! ## Plans that lose nothing -/

section plans

variable {f : String → List (List Word) → List Int → Nat → List Word} {p : Plan} {e v : Nat}

/-- When the counter has passed every key, no alias is taken for a key. -/
theorem findsColumns_of_passed (hkeys : ∀ e < p.dag.ends.length, p.dag.source e = start_vertex →
      ∃ c ∈ p.data_scan.entries, (p.dag.edge e).data_pointer = c.1)
    (hpassed : ∀ c ∈ p.data_scan.entries, c.1 ≤ p.counter) : p.FindsColumns := by
  intro e hlt hs
  obtain ⟨c, hc, hkey⟩ := hkeys e hlt hs
  obtain ⟨j, hj⟩ := List.mem_iff_getElem?.mp hc
  refine ⟨j, c, hj, hkey, fun c' hc' heq => ?_⟩
  have hle := hpassed c' (List.mem_of_mem_drop hc')
  have hlt := counter_lt_column (p := p) (List.getElem?_eq_some_iff.mp hj).1
  omega

/-- Kernels that fill the buffer that they get for their output. -/
def FillsOutput (f : String → List (List Word) → List Int → Nat → List Word) : Prop :=
  ∀ kernel buffers size params globalSize,
    (f kernel (buffers ++ [List.replicate size 0]) params globalSize).length = size

/-- With kernels that fill their output, an edge brings as many words as its size says, when no
operation asks for an output size of its own. -/
theorem whole_of_fillsOutput (hf : FillsOutput f)
    (hsize : ∀ v, p.dag.IsOp v → (p.dag.vertex v).overall_output_size = 0)
    (hfinds : p.FindsColumns) (hmem : e ∈ p.reads p.order) :
    (p.edge_meaning f e).words.length = (p.edge_meaning f e).data_size := by
  obtain ⟨-, v, -, -, -, hedge⟩ := mem_reads hmem
  have he := (p.dag.mem_in_edges.mp hedge).1
  by_cases hs : p.dag.source e = start_vertex
  · obtain ⟨j, c, -, hmeaning, -⟩ := resolved_edge (f := f) hfinds he hs
    rw [hmeaning]
  · have hop := p.query.source_isOp he hs
    rw [edge_meaning, edge_flow, if_neg hs, meaning_eq hop.1, primitive_node.flow]
    simp only [hsize _ hop, if_true]
    exact hf _ _ _ _ _

/-- On one device nothing is lost. -/
theorem losesNothing_of_one_device (hfinds : p.FindsColumns) 
    (hone : ∀ e ∈ p.reads p.order, ¬ p.Remote e) : p.LosesNothing f where
  finds := hfinds
  unshared := List.pairwise_of_forall_mem_list (fun e he _ _ _ => hone e he)
  shown e he haway := absurd haway (hone e he)
  whole e he haway := absurd haway (hone e he)

end plans

end Plan

/-! ## A filter on two devices -/

/-- The selections and the conjunction of `query_6`, the second selection on a device of its own. -/
def filter_graph (dID : Nat) : query_graph :=
  let select : primitive_node :=
    { primitive_node.fresh "selection_between_block" with input_to_output_ratio := 32 }
  ((((((((query_graph.empty.add_vertex select
    ).add_vertex { select with dID := dID }
    ).add_vertex (primitive_node.fresh "logical_and")
    ).add_edge start_vertex 2 (data_edge.fresh 1)
    ).add_edge start_vertex 3 (data_edge.fresh 2)
    ).add_edge 2 4 (data_edge.fresh 0)
    ).add_edge 3 4 (data_edge.fresh 0)
    ).add_edge 4 end_vertex (data_edge.fresh 0))

theorem filter_graph_isOp {dID v : Nat} : (filter_graph dID).IsOp v ↔ v = 2 ∨ v = 3 ∨ v = 4 := by
  have hfive : (filter_graph dID).num_vertices = 5 := rfl
  unfold query_graph.IsOp
  rw [hfive, start_vertex, end_vertex]
  omega

theorem filter_graph_ends (dID : Nat) :
    (filter_graph dID).ends = [(0, 2), (0, 3), (2, 4), (3, 4), (4, 1)] := rfl

theorem filter_graph_name (dID : Nat) :
    ((filter_graph dID).vertex 2).mKernelName = "selection_between_block" ∧
      ((filter_graph dID).vertex 3).mKernelName = "selection_between_block" ∧
      ((filter_graph dID).vertex 4).mKernelName = "logical_and" := ⟨rfl, rfl, rfl⟩

/-- The device of the second selection is all that differs. -/
theorem filter_graph_vertex (dID dID' v : Nat) : ∃ pID d, (filter_graph dID').vertex v =
    { (filter_graph dID).vertex v with pID := pID, dID := d } := by
  by_cases hv : v = 3
  · rw [hv]
    exact ⟨0, dID', rfl⟩
  · have hsame : (filter_graph dID').vertex v = (filter_graph dID).vertex v := by
      simp only [filter_graph, query_graph.add_edge, query_graph.add_vertex, query_graph.empty,
        Function.update_apply, if_neg hv]
    rw [hsame]
    exact ⟨_, _, rfl⟩

theorem filter_graph_query (dID : Nat) : IsQuery (filter_graph dID) := by
  have hfive : (filter_graph dID).num_vertices = 5 := rfl
  obtain ⟨hsel1, hsel2, hand⟩ := filter_graph_name dID
  refine ⟨by rw [hfive]; decide, rfl, rfl, ?_, ?_, ?_, ?_⟩
  · intro v hop
    rcases filter_graph_isOp.mp hop with rfl | rfl | rfl
    · rw [hsel1]
      decide
    · rw [hsel2]
      decide
    · rw [hand]
      decide
  · rw [filter_graph_ends, hfive]
    decide
  · rw [filter_graph_ends]
    decide
  · rw [filter_graph_ends]
    decide

/-- A run of the filter, with the counter past the keys. -/
def filter_plan (dID counter : Nat) (order : List Nat) (hsmall : counter < 100)
    (hpassed : 2 ≤ counter) (h : IsTopological (filter_graph dID) order) : Plan where
  dag := filter_graph dID
  data_scan :=
    { entries := [(1, [7, 8]), (2, [8, 9])]
      sorted := by simp
      int_keys := by simp }
  order
  counter
  st := ⟨∅, ∅⟩
  query := filter_graph_query dID
  fresh := by
    intro v hop
    rcases filter_graph_isOp.mp hop with rfl | rfl | rfl
    · exact ⟨rfl, rfl⟩
    · exact ⟨rfl, rfl⟩
    · exact ⟨rfl, rfl⟩
  topological := h
  small := by
    have hfive : (filter_graph dID).num_vertices = 5 := rfl
    rw [hfive]
    simp only [List.length_cons, List.length_nil]
    omega
  environment := rfl
  old := by
    intro key hkey
    cases hkey

/-- The second selection on the other device. -/
def filter_on_two : Plan :=
  filter_plan 1 2 [0, 2, 3, 4, 1] (by decide) (by decide) ⟨by decide, by decide⟩

/-- All on one device, in another order and with another counter. -/
def filter_on_one : Plan :=
  filter_plan 0 9 [0, 3, 2, 4, 1] (by decide) (by decide) ⟨by decide, by decide⟩

/-- A kernel that copies its first input. -/
def first_input (_ : String) (buffers : List (List Word)) (_ : List Int) (_ : Nat) : List Word :=
  (buffers.headD []).takeD (buffers.getLastD []).length 0

theorem first_input_fills : Plan.FillsOutput first_input := by
  intro kernel buffers size params globalSize
  simp [first_input]

instance (p : Plan) (e : Nat) : Decidable (p.Remote e) :=
  inferInstanceAs (Decidable (p.device (p.dag.source e) ≠ p.device (p.dag.target e)))

instance (p : Plan) (e e' : Nat) : Decidable (p.Spares e e') :=
  inferInstanceAs (Decidable (p.pointer e = p.pointer e' → ¬ p.Remote e))

theorem filter_plan_finds {dID counter : Nat} {order : List Nat} (hsmall : counter < 100)
    (hpassed : 2 ≤ counter) (h : IsTopological (filter_graph dID) order) :
    (filter_plan dID counter order hsmall hpassed h).FindsColumns := by
  refine Plan.findsColumns_of_passed ?_ ?_
  · intro e he hs
    have hfive : e < 5 := he
    obtain rfl | rfl | rfl | rfl | rfl : e = 0 ∨ e = 1 ∨ e = 2 ∨ e = 3 ∨ e = 4 := by omega
    · exact ⟨_, List.mem_cons_self, rfl⟩
    · exact ⟨_, List.mem_cons_of_mem _ List.mem_cons_self, rfl⟩
    · cases hs
    · cases hs
    · cases hs
  · intro c hc
    have hkey : c = (1, [7, 8]) ∨ c = (2, [8, 9]) := by
      simpa [filter_plan] using hc
    have hle : (2 : Int) ≤ counter := by omega
    rcases hkey with rfl | rfl
    · exact Int.le_trans (by decide) hle
    · exact hle

theorem filter_on_two_loses_nothing : filter_on_two.LosesNothing first_input where
  finds := filter_plan_finds _ _ _
  unshared := by decide +kernel
  shown := by decide +kernel
  whole e he _ := by
    refine Plan.whole_of_fillsOutput first_input_fills ?_ (filter_plan_finds _ _ _) he
    intro v hop
    rcases filter_graph_isOp.mp hop with rfl | rfl | rfl
    · rfl
    · rfl
    · rfl

theorem filter_on_one_loses_nothing : filter_on_one.LosesNothing first_input := by
  refine Plan.losesNothing_of_one_device (filter_plan_finds _ _ _) ?_
  decide +kernel

/-- The filter on two devices. -/
theorem filter_on_two_computes_its_meaning :
    (execute_graph (.total first_input) filter_on_two.data_scan filter_on_two.order
        (.before filter_on_two.dag filter_on_two.counter filter_on_two.st)).stores ≠ none ∧
      (execute_graph (.total first_input) filter_on_two.data_scan filter_on_two.order
        (.before filter_on_two.dag filter_on_two.counter filter_on_two.st)).results =
          filter_on_two.shown first_input ∧
      ∀ v, filter_on_two.dag.IsOp v → filter_on_two.Reads first_input v ∧
        filter_on_two.written first_input v = some (filter_on_two.meaning first_input v).words :=
  Plan.execute_graph_computes_the_meaning first_input filter_on_two filter_on_two_loses_nothing

/-- The filter on two devices and on one. -/
theorem filter_placement_changes_no_results :
    (execute_graph (.total first_input) filter_on_one.data_scan filter_on_one.order
        (.before filter_on_one.dag filter_on_one.counter filter_on_one.st)).results =
      (execute_graph (.total first_input) filter_on_two.data_scan filter_on_two.order
        (.before filter_on_two.dag filter_on_two.counter filter_on_two.st)).results ∧
      ∀ v, filter_on_two.dag.IsOp v →
        filter_on_one.written first_input v = filter_on_two.written first_input v :=
  Plan.placement_changes_no_results
    { num_vertices := rfl
      ends := rfl
      vertex := filter_graph_vertex 1 0
      edge := rfl
      data_scan := rfl }
    filter_on_two_loses_nothing filter_on_one_loses_nothing

end hero.runtime_layer
