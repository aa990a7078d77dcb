-- `bfs_flatten`: the queue in the order of a breadth-first search. The search discovers a vertex
-- on the shortest path, while the executor needs it behind the longest one.
import HeroDB.GraphSteps
import HeroDB.Lib.BreadthFirst

namespace hero.runtime_layer

open breadth_first

/-! ## The flattening -/

namespace query_graph

variable (g : query_graph)

/-- The vertices in the order in which `breadth_first_search` discovers them from
`start_vertex`. -/
def discovered : List Nat :=
  breadth_first_search g.out_edges g.target (List.range g.num_vertices) start_vertex

/-- `dtime`, an array of zeros that the visitor fills. -/
def dtime (v : Nat) : Nat := time g.discovered v

/-- `discover_order` after `std::sort`, in any order of vertices with equal times. -/
def DiscoverOrder (discover_order : List Nat) : Prop :=
  SortedByTime g.discovered (List.range g.num_vertices) discover_order

/-- The queue before and after a call of `bfs_flatten`. -/
def bfs_flatten (process_queue flattened : List Nat) : Prop :=
  ∃ discover_order, g.DiscoverOrder discover_order ∧ flattened = process_queue ++ discover_order

/-! ## The graphs -/

/-- A path leads from `start_vertex` to the vertex. -/
def Reachable (v : Nat) : Prop :=
  ∃ p, Path g.out_edges g.target start_vertex p v

/-- The edges join vertices of the graph, and each of these is reachable from `start_vertex`. -/
structure Connected : Prop where
  start_lt : start_vertex < g.num_vertices
  ends_lt : ∀ e ∈ g.ends, e.1 < g.num_vertices ∧ e.2 < g.num_vertices
  reachable : ∀ v < g.num_vertices, g.Reachable v

/-- Of the least paths to the two ends of an edge, the one to its source is less: it has fewer
edges, or as many and takes the earlier out-edge where the two part. -/
def LeastPathsInOrder : Prop :=
  ∀ e ∈ g.ends, Before g.out_edges g.target start_vertex e.1 e.2

variable {g}

theorem out_edges_sorted (v : Nat) : (g.out_edges v).Pairwise (· < ·) :=
  List.pairwise_lt_range.filter _

namespace Connected

theorem start_mem (h : g.Connected) : start_vertex ∈ List.range g.num_vertices :=
  List.mem_range.mpr h.start_lt

theorem closed (h : g.Connected) :
    ∀ v ∈ List.range g.num_vertices, ∀ e ∈ g.out_edges v,
      g.target e ∈ List.range g.num_vertices := by
  intro v _ e he
  obtain ⟨hlt, rfl⟩ := g.mem_out_edges.mp he
  apply List.mem_range.mpr
  exact (h.ends_lt _ (g.ends_mem hlt)).2

theorem path_lt (h : g.Connected) {p : List Nat} {v : Nat}
    (hp : Path g.out_edges g.target start_vertex p v) : v < g.num_vertices := by
  induction hp with
  | nil => exact h.start_lt
  | snoc _ he ih => exact List.mem_range.mp (h.closed _ (List.mem_range.mpr ih) _ he)

/-- The search discovers every vertex once. -/
theorem discovered_perm (h : g.Connected) :
    g.discovered.Perm (List.range g.num_vertices) := by
  unfold discovered
  apply (List.perm_ext_iff_of_nodup (search_nodup out_edges_sorted) List.nodup_range).mpr
  intro v
  rw [mem_search_iff out_edges_sorted h.start_mem h.closed, List.mem_range]
  constructor
  · rintro ⟨p, hp⟩
    exact h.path_lt hp
  · exact h.reachable v

theorem order_eq_discovered (h : g.Connected) {discover_order : List Nat}
    (hsort : g.DiscoverOrder discover_order) : discover_order = g.discovered :=
  SortedByTime.eq_found hsort (search_nodup out_edges_sorted) h.discovered_perm

theorem idxOf_lt_iff (h : g.Connected) {u v : Nat} (hu : u < g.num_vertices)
    (hv : v < g.num_vertices) :
    g.discovered.idxOf u < g.discovered.idxOf v ↔
      Before g.out_edges g.target start_vertex u v :=
  breadth_first.idxOf_lt_iff out_edges_sorted h.start_mem h.closed (h.reachable u hu)
    (h.reachable v hv)

/-- In a graph in layers, where each edge leads to the next layer, the least paths are in order. -/
theorem least_paths_in_order (h : g.Connected) (layer : Nat → Nat)
    (hlayer : ∀ e ∈ g.ends, layer e.2 = layer e.1 + 1) : g.LeastPathsInOrder := by
  have hlength : ∀ {p v}, Path g.out_edges g.target start_vertex p v →
      layer start_vertex + p.length = layer v := by
    intro p v hp
    induction hp with
    | nil => rfl
    | @snoc p v e _ he ih =>
      obtain ⟨hlt, rfl⟩ := g.mem_out_edges.mp he
      have hnext : layer (g.target e) = layer (g.source e) + 1 := hlayer _ (g.ends_mem hlt)
      rw [List.length_append, List.length_singleton]
      omega
  intro e he
  obtain ⟨p, hp⟩ := h.reachable e.1 (h.ends_lt e he).1
  refine ⟨p, hp, fun q hq => List.Shortlex.of_length_lt ?_⟩
  have hp := hlength hp
  have hq := hlength hq
  have hnext := hlayer e he
  omega

end Connected

end query_graph

open query_graph (Connected)

/-- `bfs_flatten` appends every vertex once, and the sources before the targets if and only if the
least paths from `start_vertex` are in the order of the edges. -/
theorem flattens_to_a_topological_order_iff (g : query_graph) (process_queue flattened : List Nat)
    (hg : g.Connected) (hflatten : g.bfs_flatten process_queue flattened) :
    (∃ order, flattened = process_queue ++ order ∧ IsTopological g order) ↔ g.LeastPathsInOrder := by
  obtain ⟨discover_order, hsort, rfl⟩ := hflatten
  have horder := hg.order_eq_discovered hsort
  constructor
  · rintro ⟨order, heq, htop⟩ e he
    have hsame : order = g.discovered := by rw [← horder, List.append_cancel_left heq]
    have hbefore := htop.forward e he
    rw [hsame] at hbefore
    exact (hg.idxOf_lt_iff (hg.ends_lt e he).1 (hg.ends_lt e he).2).mp hbefore
  · intro hedges
    refine ⟨discover_order, rfl, hsort.perm, fun e he => ?_⟩
    rw [horder]
    exact (hg.idxOf_lt_iff (hg.ends_lt e he).1 (hg.ends_lt e he).2).mpr (hedges e he)

/-- The plan of one operation. -/
def one_operation : query_graph :=
  ((query_graph.empty.add_vertex (.fresh "selection")).add_edge start_vertex 2 (.fresh 1)
    ).add_edge 2 end_vertex (.fresh 0)

theorem one_operation_connected : one_operation.Connected where
  start_lt := by decide
  ends_lt := by decide
  reachable
    | 0, _ => ⟨[], .nil⟩
    | 1, _ => ⟨[0, 1], .snoc (p := [0]) (.snoc .nil (by decide)) (by decide)⟩
    | 2, _ => ⟨[0], .snoc .nil (by decide)⟩

theorem one_operation_flattens_to_a_topological_order :
    ∃ order, [0, 2, 1] = [] ++ order ∧ IsTopological one_operation order := by
  have hflatten : one_operation.bfs_flatten [] [0, 2, 1] :=
    ⟨[0, 2, 1], ⟨by decide, by decide⟩, rfl⟩
  apply (flattens_to_a_topological_order_iff one_operation [] [0, 2, 1] one_operation_connected
    hflatten).mpr
  exact one_operation_connected.least_paths_in_order (fun v => [0, 2, 1].idxOf v) (by decide)

/-- A plan with a column that feeds a late operation: two columns of the scan, of which one goes
through a selection and a logical operation before the two meet in a materialization. -/
def late_column : query_graph :=
  (((((((query_graph.empty.add_vertex (.fresh "selection")).add_vertex (.fresh "logical")
    ).add_vertex (.fresh "materialize")).add_edge start_vertex 2 (.fresh 1)
    ).add_edge start_vertex 4 (.fresh 2)).add_edge 2 3 (.fresh 0)
    ).add_edge 3 4 (.fresh 0)).add_edge 4 end_vertex (.fresh 0)

theorem late_column_connected : late_column.Connected where
  start_lt := by decide
  ends_lt := by decide
  reachable
    | 0, _ => ⟨[], .nil⟩
    | 1, _ => ⟨[1, 4], .snoc (p := [1]) (.snoc .nil (by decide)) (by decide)⟩
    | 2, _ => ⟨[0], .snoc .nil (by decide)⟩
    | 3, _ => ⟨[0, 2], .snoc (p := [0]) (.snoc .nil (by decide)) (by decide)⟩
    | 4, _ => ⟨[1], .snoc .nil (by decide)⟩

/-- The materialization is before the logical operation whose result it reads. -/
theorem a_late_column_is_flattened_wrongly :
    late_column.Connected ∧ IsTopological late_column [0, 2, 3, 4, 1] ∧
      ∃ flattened, late_column.bfs_flatten [] flattened ∧
        ¬∃ order, flattened = [] ++ order ∧ IsTopological late_column order := by
  refine ⟨late_column_connected, ⟨by decide, by decide⟩, [0, 2, 4, 3, 1],
    ⟨_, ⟨by decide, by decide⟩, rfl⟩, ?_⟩
  rintro ⟨order, rfl, htop⟩
  exact absurd htop.forward (by decide)

end hero.runtime_layer
