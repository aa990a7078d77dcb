-- The graph that a query builds: the calls of `add_vertex` for a list of nodes, and the calls of
-- `add_edge` for a list of edges. The scan comes first when every other vertex has an input.
import HeroDB.GroupSums
import HeroDB.KernelRuns

namespace hero.tests

open runtime_layer

/-- The calls of a query on a new graph. -/
def graph_of (nodes : List primitive_node) (edges : List ((Nat × Nat) × data_edge)) : query_graph :=
  edges.foldl (fun g d => g.add_edge d.1.1 d.1.2 d.2)
    (nodes.foldl query_graph.add_vertex query_graph.empty)

section graph_of

variable {nodes : List primitive_node} {edges : List ((Nat × Nat) × data_edge)} {v e : Nat}

theorem graph_of_num_vertices : (graph_of nodes edges).num_vertices = 2 + nodes.length := by
  unfold graph_of
  rw [(add_edges _ _).1, (add_vertices _ _).1]
  rfl

theorem graph_of_ends : (graph_of nodes edges).ends = edges.map Prod.fst := by
  unfold graph_of
  rw [(add_edges _ _).2.1, (add_vertices _ _).2.1]
  rfl

theorem graph_of_environment : (graph_of nodes edges).execution_environment = 0 := by
  unfold graph_of
  rw [(add_edges _ _).2.2.1, (add_vertices _ _).2.2.1]
  rfl

theorem graph_of_vertices (v : Nat) : (graph_of nodes edges).vertex v =
    (nodes.foldl query_graph.add_vertex query_graph.empty).vertex v := by
  unfold graph_of
  rw [(add_edges _ _).2.2.2.1]

theorem graph_of_old (hv : v < 2) :
    (graph_of nodes edges).vertex v = query_graph.empty.vertex v := by
  rw [graph_of_vertices]
  exact (add_vertices nodes query_graph.empty).2.2.2.1 v hv

theorem graph_of_vertex {i : Nat} {n : primitive_node} (h : nodes[i]? = some n) :
    (graph_of nodes edges).vertex (2 + i) = n := by
  rw [graph_of_vertices]
  exact (add_vertices nodes query_graph.empty).2.2.2.2 i n h

theorem graph_of_edge {d : (Nat × Nat) × data_edge} (h : edges[e]? = some d) :
    (graph_of nodes edges).edge e = d.2 := by
  have hnone : (nodes.foldl query_graph.add_vertex query_graph.empty).ends.length = 0 := by
    rw [(add_vertices _ _).2.1]
    rfl
  have he := (add_edges edges (nodes.foldl query_graph.add_vertex query_graph.empty)).2.2.2.2.2 e d h
  rw [hnone, Nat.zero_add] at he
  exact he

/-- An operation is one of the nodes. -/
theorem graph_of_op (hop : (graph_of nodes edges).IsOp v) :
    ∃ i n, v = 2 + i ∧ nodes[i]? = some n ∧ (graph_of nodes edges).vertex v = n := by
  have hlt := hop.1
  rw [graph_of_num_vertices] at hlt
  have hge : 2 ≤ v := by
    have hstart : v ≠ 0 := hop.2.1
    have hend : v ≠ 1 := hop.2.2
    omega
  obtain ⟨i, rfl⟩ := Nat.exists_eq_add_of_le hge
  have hi : i < nodes.length := by omega
  exact ⟨i, nodes[i], rfl, List.getElem?_eq_getElem hi, graph_of_vertex (List.getElem?_eq_getElem hi)⟩

/-- The graph is a query, when no node takes the name of the scan or the display. -/
theorem graph_of_query
    (hnames : ∀ name ∈ nodes.map primitive_node.mKernelName,
      name ≠ "data_scan" ∧ name ≠ "data_display")
    (hends : ∀ e ∈ edges.map Prod.fst, e.1 < 2 + nodes.length ∧ e.2 < 2 + nodes.length)
    (hscan : ∀ e ∈ edges.map Prod.fst, e.2 ≠ start_vertex)
    (hdisplay : ∀ e ∈ edges.map Prod.fst, e.1 ≠ end_vertex) : IsQuery (graph_of nodes edges) where
  two_le := by
    rw [graph_of_num_vertices]
    omega
  scan_name := by
    rw [graph_of_old (by decide)]
    rfl
  display_name := by
    rw [graph_of_old (by decide)]
    rfl
  op_name := by
    intro v hop
    obtain ⟨i, n, -, hi, hvertex⟩ := graph_of_op hop
    rw [hvertex]
    exact hnames _ (List.mem_map_of_mem (List.mem_of_getElem? hi))
  ends_lt := by
    rw [graph_of_ends, graph_of_num_vertices]
    exact hends
  scan_first := by
    rw [graph_of_ends]
    exact hscan
  display_last := by
    rw [graph_of_ends]
    exact hdisplay

theorem graph_of_fresh (h : ∀ n ∈ nodes, n.input_data = [] ∧ n.output_data = []) :
    FreshNodes (graph_of nodes edges) := by
  intro v hop
  obtain ⟨i, n, -, hi, hvertex⟩ := graph_of_op hop
  rw [hvertex]
  exact h n (List.mem_of_getElem? hi)

theorem graph_of_source : (graph_of nodes edges).source e =
    ((edges.map Prod.fst).getD e (0, 0)).1 := by
  unfold query_graph.source
  rw [graph_of_ends]

theorem graph_of_target : (graph_of nodes edges).target e =
    ((edges.map Prod.fst).getD e (0, 0)).2 := by
  unfold query_graph.target
  rw [graph_of_ends]

theorem graph_of_in_edges : (graph_of nodes edges).in_edges v =
    (List.range edges.length).filter (fun e => ((edges.map Prod.fst).getD e (0, 0)).2 = v) := by
  unfold query_graph.in_edges
  simp only [graph_of_target, graph_of_ends, List.length_map]

/-- Where every node is on the device of the scan, every vertex is. -/
theorem graph_of_device (h : ∀ n ∈ nodes, n.device = (0, 0)) (hv : v < 2 + nodes.length) :
    ((graph_of nodes edges).vertex v).device = (0, 0) := by
  by_cases hold : v < 2
  · rw [graph_of_old hold]
    obtain rfl | rfl : v = 0 ∨ v = 1 := by omega
    · rfl
    · rfl
  · obtain ⟨i, rfl⟩ := Nat.exists_eq_add_of_le (Nat.le_of_not_lt hold)
    have hi : i < nodes.length := by omega
    rw [graph_of_vertex (List.getElem?_eq_getElem hi)]
    exact h _ (List.getElem_mem hi)

end graph_of

end hero.tests

/-! ## The aliases of the columns -/

namespace hero.runtime_layer.Plan

variable {p : Plan}

/-- When every other vertex has an input, the scan is the first vertex of any topological order. -/
theorem scan_first (hfed : ∀ v < p.dag.num_vertices, v ≠ start_vertex → p.dag.in_edges v ≠ []) :
    ∃ post, p.order = start_vertex :: post := by
  have hstart := p.start_mem
  cases horder : p.order with
  | nil =>
    rw [horder] at hstart
    exact absurd hstart List.not_mem_nil
  | cons v post =>
    have hlt : v < p.dag.num_vertices := (p.topological.mem_iff v).mp (by simp [horder])
    by_cases hv : v = start_vertex
    · exact ⟨post, by rw [hv]⟩
    · obtain ⟨e, he⟩ := List.exists_mem_of_ne_nil _ (hfed v hlt hv)
      have hsplit : p.order = [] ++ v :: post := horder
      exact absurd (p.topological.sources_done hsplit he) List.not_mem_nil

theorem column_of_first (hfed : ∀ v < p.dag.num_vertices, v ≠ start_vertex → p.dag.in_edges v ≠ [])
    {j : Nat} (hj : j < p.data_scan.entries.length) : p.column j = (p.counter + j + 1 : Nat) := by
  obtain ⟨post, horder⟩ := scan_first hfed
  have hcounter : counter_at p.data_scan p.counter p.order start_vertex = p.counter := by
    unfold counter_at
    rw [horder]
    simp
  unfold column
  rw [column_alias_at p.data_scan p.counter p.topological p.start_mem p.small hj, hcounter]

/-- The scan edges find their columns, when no alias is the key of a later column. -/
theorem findsColumns_of_apart
    (hfed : ∀ v < p.dag.num_vertices, v ≠ start_vertex → p.dag.in_edges v ≠ [])
    (hkeys : ∀ e < p.dag.ends.length, p.dag.source e = start_vertex →
      ∃ (j : Nat) (c : Int × List Word), p.data_scan.entries[j]? = some c ∧
        (p.dag.edge e).data_pointer = c.1)
    (hapart : ∀ (i j : Nat) (c : Int × List Word), i < j → p.data_scan.entries[j]? = some c →
      c.1 ≠ (p.counter + i + 1 : Nat)) : p.FindsColumns := by
  intro e hlt hs
  obtain ⟨j, c, hj, hkey⟩ := hkeys e hlt hs
  refine ⟨j, c, hj, hkey, fun c' hc' => ?_⟩
  obtain ⟨k, hk⟩ := List.mem_iff_getElem?.mp hc'
  rw [List.getElem?_drop] at hk
  rw [column_of_first hfed (List.getElem?_eq_some_iff.mp hj).1]
  exact hapart j _ c' (by omega) hk

end hero.runtime_layer.Plan
