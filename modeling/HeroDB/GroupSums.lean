-- The second graph of `query_1`: it sums up the sorted rows by group, and the display fetches as
-- many words as the last group id says, which is one less than there are groups.
import HeroDB.BlockKernels
import HeroDB.LaunchSizes

namespace hero.tests

open runtime_layer

/-! ## The graph -/

/-- The rows behind the sort of `query_1`, in whole blocks: a group id and a quantity for each. The
ids count the groups up from 0. -/
structure grouped_rows where
  W : Nat
  ag_key : List Word
  q : List Word
  blocks : 1 ≤ W
  keys : ag_key.length = 32 * W
  quantities : q.length = 32 * W
  from_zero : ag_key.head? = some 0
  no_gaps : ag_key.IsChain (fun a b => b.toInt = a.toInt ∨ b.toInt = a.toInt + 1)

/-- `ag_key[ag_key.size() - 1]`. -/
def grouped_rows.last_id (r : grouped_rows) : Word := r.ag_key.getLastD 0

/-- The words that the query passes on of a vector. -/
def aligned (v : List Word) : List Word := v.take (v.length - v.length % 32)

/-- `data_scan`: the two columns for each of the sums, and the group ids alone for the count. -/
def q_1_scan (r : grouped_rows) : ScanMap where
  entries := [(1, aligned r.ag_key), (2, aligned r.q), (3, aligned r.ag_key),
    (4, aligned r.ag_key), (5, aligned r.q), (6, aligned r.ag_key), (7, aligned r.q),
    (8, aligned r.ag_key), (9, aligned r.q), (10, aligned r.ag_key), (11, aligned r.q),
    (12, aligned r.ag_key), (13, aligned r.q), (14, aligned r.ag_key), (15, aligned r.q)]
  sorted := by simp
  int_keys := by simp

/-- A node of the aggregation. -/
def agg (mKernelName : String) (no_of_input_required : Nat) (last_id : Word)
    (target_device : Device) : primitive_node :=
  { primitive_node.fresh mKernelName with
    no_of_input_required, no_of_parameters := 0, overall_output_size := size_of_int last_id.toInt
    pID := target_device.1, dID := target_device.2 }

def agg1 : Word → Device → primitive_node := agg "ordered_aggregate_sum_block" 2

def agg2 : Word → Device → primitive_node := agg "ordered_aggregate_count_block" 1

def agg3 : Word → Device → primitive_node := agg "ordered_aggregate_sum_block" 2

def agg4 : Word → Device → primitive_node := agg "ordered_aggregate_sum_block" 2

def agg5 : Word → Device → primitive_node := agg "ordered_aggregate_sum_block" 2

def agg6 : Word → Device → primitive_node := agg "ordered_aggregate_sum_block" 2

def agg7 : Word → Device → primitive_node := agg "ordered_aggregate_sum_block" 2

def agg8 : Word → Device → primitive_node := agg "ordered_aggregate_sum_block" 2

/-- The edges from the scan: the key of a column, and the vertex that reads it. -/
def q_1_inputs : List (Int × Nat) :=
  [(1, 2), (2, 2), (3, 3), (4, 4), (5, 4), (6, 5), (7, 5), (8, 6), (9, 6), (10, 7), (11, 7),
    (12, 8), (13, 8), (14, 9), (15, 9)]

/-- The nodes, with the vertices `ag1` to `ag8` from 2 to 9. -/
def q_1_nodes (last_id : Word) (target_device : Device) : List primitive_node :=
  [agg1, agg2, agg3, agg4, agg5, agg6, agg7, agg8].map (fun n => n last_id target_device)

/-- The edges in the order of the `add_edge` calls. -/
def q_1_edges : List ((Nat × Nat) × data_edge) :=
  q_1_inputs.map (fun d => ((start_vertex, d.2), data_edge.fresh d.1)) ++
    [2, 3, 4, 5, 6, 7, 8, 9].map (fun v => ((v, end_vertex), data_edge.fresh 0))

def q_1 (last_id : Word) (target_device : Device) : query_graph :=
  q_1_edges.foldl (fun g d => g.add_edge d.1.1 d.1.2 d.2)
    ((q_1_nodes last_id target_device).foldl query_graph.add_vertex query_graph.empty)

/-- What is free when the graph is executed: the rows, the device, a topological order, the alias
counter, and the buffers of earlier graphs. -/
structure aggregation_run where
  rows : grouped_rows
  target_device : Device
  process_queue : List Nat
  counter : Nat
  st : Stores
  topological : IsTopological (q_1 rows.last_id target_device) process_queue

namespace aggregation_run

variable (K : Kernels) (x : aggregation_run)

def graph : query_graph := q_1 x.rows.last_id x.target_device

/-- The machine after the turns of some vertices. -/
def run (pre : List Nat) : Machine := after K x.graph (q_1_scan x.rows) x.counter x.st pre

/-- The columns that `display_result` fetches. -/
def results : List (List Word) := (x.run K x.process_queue).results

end aggregation_run

/-! ## The groups -/

namespace grouped_rows

variable (r : grouped_rows)

/-- The groups are numbered from 0 to the last id. -/
def groups : Nat := r.last_id.toNat + 1

/-- The rows of a group. -/
def group_rows (g : Nat) : List Nat :=
  (List.range r.ag_key.length).filter (fun i => (r.ag_key.getD i 0).toNat = g)

/-- The sum of the quantities of each group, modulo 2^32. -/
def group_sums : List Word :=
  (List.range r.groups).map (fun g =>
    BitVec.ofNat 32 ((r.group_rows g).map (fun i => (r.q.getD i 0).toNat)).sum)

/-- The number of rows of each group. -/
def group_counts : List Word :=
  (List.range r.groups).map (fun g => BitVec.ofNat 32 (r.group_rows g).length)

/-- The columns that answer the query, in the order of the nodes. -/
def every_group : List (List Word) :=
  [r.group_sums, r.group_counts, r.group_sums, r.group_sums, r.group_sums, r.group_sums,
    r.group_sums, r.group_sums]

/-- The words that the out-edge of a node offers: the size of its output, which is the number of
rows when the node asks for none. -/
def output_size : Nat :=
  if size_of_int r.last_id.toInt = 0 then 32 * r.W else size_of_int r.last_id.toInt

/-- The words that the display fetches for a node. -/
def fetched : Nat := size_of_int (int_of_size r.output_size)

end grouped_rows

/-! ## The graph as a query -/

/-- The calls of `add_vertex`. -/
theorem add_vertices (ns : List primitive_node) (g : query_graph) :
    (ns.foldl query_graph.add_vertex g).num_vertices = g.num_vertices + ns.length ∧
      (ns.foldl query_graph.add_vertex g).ends = g.ends ∧
      (ns.foldl query_graph.add_vertex g).execution_environment = g.execution_environment ∧
      (∀ v < g.num_vertices, (ns.foldl query_graph.add_vertex g).vertex v = g.vertex v) ∧
      ∀ i n, ns[i]? = some n →
        (ns.foldl query_graph.add_vertex g).vertex (g.num_vertices + i) = n := by
  induction ns generalizing g with
  | nil => exact ⟨rfl, rfl, rfl, fun _ _ => rfl, fun i n hn => by simp at hn⟩
  | cons n rest ih =>
    obtain ⟨hnum, hends, henv, hold, hnew⟩ := ih (g.add_vertex n)
    have hone : (g.add_vertex n).num_vertices = g.num_vertices + 1 := rfl
    rw [hone] at hnum hold hnew
    refine ⟨by rw [List.foldl_cons, hnum, List.length_cons]; omega, hends, henv, ?_, ?_⟩
    · intro v hv
      rw [List.foldl_cons, hold v (by omega)]
      exact Function.update_of_ne (by omega) _ _
    · intro i n' hn
      cases i with
      | zero =>
        rw [List.getElem?_cons_zero, Option.some.injEq] at hn
        rw [List.foldl_cons, Nat.add_zero, hold _ (by omega), ← hn]
        exact Function.update_self _ _ _
      | succ i =>
        rw [List.getElem?_cons_succ] at hn
        rw [List.foldl_cons, ← hnew i n' hn]
        congr 1
        omega

/-- The calls of `add_edge`. -/
theorem add_edges (ds : List ((Nat × Nat) × data_edge)) (g : query_graph) :
    (ds.foldl (fun g d => g.add_edge d.1.1 d.1.2 d.2) g).num_vertices = g.num_vertices ∧
      (ds.foldl (fun g d => g.add_edge d.1.1 d.1.2 d.2) g).ends = g.ends ++ ds.map Prod.fst ∧
      (ds.foldl (fun g d => g.add_edge d.1.1 d.1.2 d.2) g).execution_environment =
        g.execution_environment ∧
      (ds.foldl (fun g d => g.add_edge d.1.1 d.1.2 d.2) g).vertex = g.vertex ∧
      (∀ e < g.ends.length,
        (ds.foldl (fun g d => g.add_edge d.1.1 d.1.2 d.2) g).edge e = g.edge e) ∧
      ∀ i d, ds[i]? = some d →
        (ds.foldl (fun g d => g.add_edge d.1.1 d.1.2 d.2) g).edge (g.ends.length + i) = d.2 := by
  induction ds generalizing g with
  | nil => exact ⟨rfl, by simp, rfl, rfl, fun _ _ => rfl, fun i n hn => by simp at hn⟩
  | cons d rest ih =>
    obtain ⟨hnum, hends, henv, hvertex, hold, hnew⟩ := ih (g.add_edge d.1.1 d.1.2 d.2)
    have hone : (g.add_edge d.1.1 d.1.2 d.2).ends = g.ends ++ [d.1] := rfl
    rw [hone] at hends hold hnew
    rw [List.length_append, List.length_singleton] at hold hnew
    refine ⟨hnum, by rw [List.foldl_cons, hends]; simp, henv, hvertex, ?_, ?_⟩
    · intro e he
      rw [List.foldl_cons, hold e (by omega)]
      exact Function.update_of_ne (by omega) _ _
    · intro i d' hd
      cases i with
      | zero =>
        rw [List.getElem?_cons_zero, Option.some.injEq] at hd
        rw [List.foldl_cons, Nat.add_zero, hold _ (by omega), ← hd]
        exact Function.update_self _ _ _
      | succ i =>
        rw [List.getElem?_cons_succ] at hd
        rw [List.foldl_cons, ← hnew i d' hd]
        congr 1
        omega

section plan

variable (last_id : Word) (target_device : Device)

theorem q_1_num_vertices : (q_1 last_id target_device).num_vertices = 10 := by
  obtain ⟨hnum, -⟩ := add_edges q_1_edges
    ((q_1_nodes last_id target_device).foldl query_graph.add_vertex query_graph.empty)
  rw [q_1, hnum, (add_vertices _ _).1]
  rfl

theorem q_1_ends : (q_1 last_id target_device).ends = q_1_edges.map Prod.fst := by
  obtain ⟨-, hends, -⟩ := add_edges q_1_edges
    ((q_1_nodes last_id target_device).foldl query_graph.add_vertex query_graph.empty)
  rw [q_1, hends, (add_vertices _ _).2.1]
  rfl

theorem q_1_vertices (v : Nat) : (q_1 last_id target_device).vertex v =
    ((q_1_nodes last_id target_device).foldl query_graph.add_vertex query_graph.empty).vertex v := by
  obtain ⟨-, -, -, hvertex, -⟩ := add_edges q_1_edges
    ((q_1_nodes last_id target_device).foldl query_graph.add_vertex query_graph.empty)
  rw [q_1, hvertex]

theorem q_1_isOp {v : Nat} : (q_1 last_id target_device).IsOp v ↔ 2 ≤ v ∧ v < 10 := by
  unfold query_graph.IsOp
  rw [q_1_num_vertices, start_vertex, end_vertex]
  omega

/-- The kernel of a vertex, and its number of inputs: only `ag2` counts. -/
def q_1_task (v : Nat) : String × Nat :=
  if v = 3 then ("ordered_aggregate_count_block", 1) else ("ordered_aggregate_sum_block", 2)

/-- Each operation is a node of the aggregation. -/
theorem q_1_vertex {v : Nat} (h : (q_1 last_id target_device).IsOp v) :
    (q_1 last_id target_device).vertex v =
      agg (q_1_task v).1 (q_1_task v).2 last_id target_device := by
  obtain ⟨hlow, hhigh⟩ := (q_1_isOp last_id target_device).mp h
  obtain ⟨-, -, -, -, hnodes⟩ := add_vertices (q_1_nodes last_id target_device) query_graph.empty
  obtain ⟨i, rfl⟩ : ∃ i, v = query_graph.empty.num_vertices + i := ⟨v - 2, by
    have htwo : query_graph.empty.num_vertices = 2 := rfl
    omega⟩
  rw [q_1_vertices]
  apply hnodes
  have htwo : query_graph.empty.num_vertices = 2 := rfl
  rw [htwo] at hhigh ⊢
  obtain rfl | rfl | rfl | rfl | rfl | rfl | rfl | rfl :
      i = 0 ∨ i = 1 ∨ i = 2 ∨ i = 3 ∨ i = 4 ∨ i = 5 ∨ i = 6 ∨ i = 7 := by omega
  all_goals rfl

/-- Each edge of the scan carries the key of a column. -/
theorem q_1_edge {e : Nat} {d : (Nat × Nat) × data_edge} (h : q_1_edges[e]? = some d) :
    (q_1 last_id target_device).edge e = d.2 := by
  obtain ⟨-, -, -, -, -, hedge⟩ := add_edges q_1_edges
    ((q_1_nodes last_id target_device).foldl query_graph.add_vertex query_graph.empty)
  have hnone : ((q_1_nodes last_id target_device).foldl query_graph.add_vertex
      query_graph.empty).ends.length = 0 := by
    rw [(add_vertices _ _).2.1]
    rfl
  have he := hedge e d h
  rw [hnone, Nat.zero_add] at he
  exact he

theorem q_1_is_a_query : IsQuery (q_1 last_id target_device) where
  two_le := by rw [q_1_num_vertices]; omega
  scan_name := by
    rw [q_1_vertices, (add_vertices _ _).2.2.2.1 _ (by decide)]
    rfl
  display_name := by
    rw [q_1_vertices, (add_vertices _ _).2.2.2.1 _ (by decide)]
    rfl
  op_name := by
    intro v hv
    have hname : ((q_1 last_id target_device).vertex v).mKernelName = (q_1_task v).1 := by
      rw [q_1_vertex last_id target_device hv]
      rfl
    rw [hname, q_1_task]
    split
    · exact ⟨by decide, by decide⟩
    · exact ⟨by decide, by decide⟩
  ends_lt := by
    rw [q_1_ends, q_1_num_vertices]
    decide
  scan_first := by
    rw [q_1_ends]
    decide
  display_last := by
    rw [q_1_ends]
    decide

end plan

/-! ## The rows -/

section rows

variable (r : grouped_rows)

theorem aligned_eq {v : List Word} {W : Nat} (h : v.length = 32 * W) : aligned v = v := by
  have hzero : v.length % 32 = 0 := by omega
  rw [aligned, hzero, Nat.sub_zero, List.take_length]

/-- All columns are of one length. -/
theorem q_1_columns {c : Int × List Word} (h : c ∈ (q_1_scan r).entries) :
    c.2.length = 32 * r.W := by
  have hkeys := r.keys
  have hquantities := r.quantities
  simp only [q_1_scan, aligned_eq hkeys, aligned_eq hquantities, List.mem_cons, List.not_mem_nil,
    or_false] at h
  rcases h with rfl | rfl | rfl | rfl | rfl | rfl | rfl | rfl | rfl | rfl | rfl | rfl | rfl | rfl |
    rfl
  all_goals assumption

/-- The ids never fall below the first one. -/
theorem first_le {a : Word} {l : List Word}
    (h : (a :: l).IsChain (fun a b => b.toInt = a.toInt ∨ b.toInt = a.toInt + 1)) :
    ∀ k ∈ a :: l, a.toInt ≤ k.toInt := by
  induction l generalizing a with
  | nil =>
    intro k hk
    rw [List.mem_singleton.mp hk]
  | cons b rest ih =>
    obtain ⟨hstep, hrest⟩ := List.isChain_cons_cons.mp h
    intro k hk
    rcases List.mem_cons.mp hk with rfl | hk
    · exact Int.le_refl _
    · have hb := ih hrest k hk
      omega

theorem grouped_rows.last_id_nonneg : 0 ≤ r.last_id.toInt := by
  obtain ⟨l, hl⟩ := List.head?_eq_some_iff.mp r.from_zero
  have hchain := r.no_gaps
  rw [hl] at hchain
  have hmem : r.last_id ∈ (0 : Word) :: l := by
    rw [grouped_rows.last_id, hl, List.getLastD_cons]
    exact List.getLastD_mem_cons
  exact first_le hchain r.last_id hmem

/-- The last id as the size of an output. -/
theorem grouped_rows.last_id_size : size_of_int r.last_id.toInt = r.last_id.toNat := by
  have hnonneg := r.last_id_nonneg
  have hlt := r.last_id.isLt
  rw [BitVec.toInt_eq_toNat_cond] at hnonneg ⊢
  unfold size_of_int
  split <;> omega

/-- The size of the fetch goes through an `int`, which keeps it modulo 32. -/
theorem fetch_mod (n : Nat) : size_of_int (int_of_size n) % 32 = n % 32 := by
  unfold size_of_int int_of_size
  rw [Int.bmod_def]
  split <;> omega

/-- When there is more than one group, the fetch stops before the last one. -/
theorem grouped_rows.fetched_eq (h : r.last_id.toNat ≠ 0) : r.fetched = r.last_id.toNat := by
  have hnonneg := r.last_id_nonneg
  have hlt := r.last_id.isLt
  rw [BitVec.toInt_eq_toNat_cond] at hnonneg
  rw [grouped_rows.fetched, grouped_rows.output_size, r.last_id_size, if_neg h,
    int_of_size_eq (by split at hnonneg <;> omega)]
  unfold size_of_int
  split at hnonneg <;> omega

/-- For one group the node falls back to the number of rows. -/
theorem grouped_rows.fetched_of_one (h : r.last_id.toNat = 0) :
    r.fetched = size_of_int (int_of_size (32 * r.W)) := by
  rw [grouped_rows.fetched, grouped_rows.output_size, r.last_id_size, if_pos h]

/-- The display never fetches one word for each group. -/
theorem grouped_rows.fetched_ne_groups : r.fetched ≠ r.groups := by
  rw [grouped_rows.groups]
  by_cases hone : r.last_id.toNat = 0
  · rw [r.fetched_of_one hone]
    have hmod := fetch_mod (32 * r.W)
    omega
  · rw [r.fetched_eq hone]
    omega

end rows

/-! ## The sizes of a run -/

/-- What the turns of some vertices have left: every edge of the scan carries a whole column, every
edge into the display offers the output of its node, and the display has fetched as much. -/
structure Offers (x : aggregation_run) (pre : List Nat) (m : Machine) : Prop where
  untouched : Untouched x.graph pre m
  columns : ∀ e < x.graph.ends.length, x.graph.source e = start_vertex → start_vertex ∈ pre →
    (m.dag.edge e).data_size = 32 * x.rows.W
  outputs : ∀ e < x.graph.ends.length, x.graph.source e ≠ start_vertex → x.graph.source e ∈ pre →
    (m.dag.edge e).data_size = x.rows.output_size
  results : ∀ c ∈ m.results, c.length = x.rows.fetched

section run

variable {K : Kernels} {x : aggregation_run} {pre post : List Nat} {v : Nat} {m : Machine}

/-- An edge as a call of `add_edge`. -/
theorem aggregation_run.edge_at (x : aggregation_run) {e : Nat} (h : e < x.graph.ends.length) :
    ∃ d ∈ q_1_edges, x.graph.source e = d.1.1 ∧ x.graph.target e = d.1.2 ∧
      x.graph.edge e = d.2 := by
  rw [aggregation_run.graph, q_1_ends, List.length_map] at h
  have hd := List.getElem?_eq_getElem h
  have hends : x.graph.ends.getD e (0, 0) = q_1_edges[e].1 := by
    rw [aggregation_run.graph, q_1_ends, List.getD_eq_getElem?_getD, List.getElem?_map, hd]
    rfl
  refine ⟨q_1_edges[e], List.getElem_mem h, ?_, ?_, q_1_edge _ _ hd⟩
  · rw [query_graph.source, hends]
  · rw [query_graph.target, hends]

/-- An edge of the scan carries the key of a column. -/
theorem aggregation_run.key_at (x : aggregation_run) {e : Nat} (h : e < x.graph.ends.length)
    (hs : x.graph.source e = start_vertex) :
    ∃ c ∈ (q_1_scan x.rows).entries, c.1 = (x.graph.edge e).data_pointer := by
  obtain ⟨d, hd, hsource, -, hedge⟩ := x.edge_at h
  have hkeys : (q_1_scan x.rows).entries.map Prod.fst =
      (List.range 15).map (fun i : Nat => (i : Int) + 1) := rfl
  have hall : ∀ d ∈ q_1_edges, d.1.1 = start_vertex →
      d.2.data_pointer ∈ (List.range 15).map (fun i : Nat => (i : Int) + 1) := by decide
  have hmem := hall d hd (hsource.symm.trans hs)
  rw [← hkeys, ← hedge] at hmem
  exact List.mem_map.mp hmem

/-- The operations read the scan, and the display reads the operations. -/
theorem aggregation_run.source_at (x : aggregation_run) {e : Nat} (h : e < x.graph.ends.length) :
    x.graph.source e = start_vertex ↔ x.graph.target e ≠ end_vertex := by
  obtain ⟨d, hd, hsource, htarget, -⟩ := x.edge_at h
  have hall : ∀ d ∈ q_1_edges, d.1.1 = start_vertex ↔ d.1.2 ≠ end_vertex := by decide
  rw [hsource, htarget]
  exact hall d hd

theorem aggregation_run.source_ne_end (x : aggregation_run) {e : Nat} (h : e < x.graph.ends.length) :
    x.graph.source e ≠ end_vertex := by
  obtain ⟨d, hd, hsource, -⟩ := x.edge_at h
  have hall : ∀ d ∈ q_1_edges, d.1.1 ≠ end_vertex := by decide
  rw [hsource]
  exact hall d hd

/-- Every operation has an input. -/
theorem aggregation_run.has_input (x : aggregation_run) {v : Nat} (hop : x.graph.IsOp v) :
    ∃ e, e ∈ x.graph.in_edges v := by
  obtain ⟨hlow, hhigh⟩ := (q_1_isOp _ _).mp hop
  have hall : ∀ v < 10, 2 ≤ v → ∃ d ∈ q_1_edges, d.1.2 = v := by decide
  obtain ⟨d, hd, hv⟩ := hall v hhigh hlow
  obtain ⟨e, hlt, heq⟩ := List.getElem_of_mem hd
  refine ⟨e, x.graph.mem_in_edges.mpr ⟨?_, ?_⟩⟩
  · rw [aggregation_run.graph, q_1_ends, List.length_map]
    exact hlt
  · rw [query_graph.target, aggregation_run.graph, q_1_ends, List.getD_eq_getElem?_getD,
      List.getElem?_map, List.getElem?_eq_getElem hlt, heq]
    exact hv

theorem aggregation_run.is_a_query (x : aggregation_run) : IsQuery x.graph := q_1_is_a_query _ _

theorem offers_before : Offers x [] (.before x.graph x.counter x.st) where
  untouched := untouched_before x.graph x.counter x.st
  columns := fun _ _ _ h => by cases h
  outputs := fun _ _ _ h => by cases h
  results := fun _ h => by cases h

/-- The turn of the scan. -/
theorem offers_load (hsplit : x.process_queue = pre ++ start_vertex :: post) (h : Offers x pre m) :
    Offers x (pre ++ [start_vertex]) (load_data (q_1_scan x.rows) start_vertex m) := by
  have hstart := x.topological.not_mem_prefix hsplit
  have hout := h.untouched.mem_out_edges start_vertex
  refine ⟨untouched_load _ h.untouched, ?_, ?_, ?_⟩
  · intro e hlt hs _
    obtain ⟨j, c, hj, -, hsize⟩ := resolved_of_key m.total_data_set_in_device
      (q_1_scan x.rows).entries (m.dag.edge e) (by
        rw [h.untouched.edge_eq e (by rw [hs]; exact hstart)]
        exact x.key_at hlt hs)
    rw [load_data_edge, if_pos ((hout e).mpr ⟨hlt, hs⟩), hsize]
    exact q_1_columns x.rows (List.mem_of_getElem? hj)
  · intro e hlt hs he
    rw [load_data_edge, if_neg (fun hmem => hs ((hout e).mp hmem).2)]
    exact h.outputs e hlt hs (by simpa [hs] using he)
  · rw [load_data_results]
    exact h.results

/-- The inputs of an operation are whole columns. -/
theorem Offers.rows_at (hsplit : x.process_queue = pre ++ v :: post) (hop : x.graph.IsOp v)
    (h : Offers x pre m) : (∀ e ∈ m.dag.in_edges v, (m.dag.edge e).data_size = 32 * x.rows.W) ∧
      (m.dag.in_edges v).foldl (fun size e => max size (m.dag.edge e).data_size) 1 =
        32 * x.rows.W := by
  have hin : ∀ e ∈ m.dag.in_edges v, (m.dag.edge e).data_size = 32 * x.rows.W := by
    intro e he
    rw [h.untouched.shape.in_edges] at he
    obtain ⟨hlt, htarget⟩ := x.graph.mem_in_edges.mp he
    have hs := (x.source_at hlt).mpr (by rw [htarget]; exact hop.2.2)
    refine h.columns e hlt hs ?_
    rw [← hs]
    exact x.topological.sources_done hsplit he
  refine ⟨hin, ?_⟩
  rcases foldl_max_eq (m.dag.in_edges v) (fun e => (m.dag.edge e).data_size) 1
    with heq | ⟨e, he, heq⟩
  · obtain ⟨e, he⟩ := x.has_input hop
    rw [← h.untouched.shape.in_edges] at he
    have hle := (le_foldl_max (m.dag.in_edges v) (fun e => (m.dag.edge e).data_size) 1).2 e he
    have hblocks := x.rows.blocks
    rw [heq, hin e he] at hle
    omega
  · rw [heq, hin e he]

theorem Offers.vertex_at (hsplit : x.process_queue = pre ++ v :: post) (hop : x.graph.IsOp v)
    (h : Offers x pre m) :
    m.dag.vertex v = agg (q_1_task v).1 (q_1_task v).2 x.rows.last_id x.target_device :=
  (h.untouched.vertex_eq v (x.topological.not_mem_prefix hsplit)).trans (q_1_vertex _ _ hop)

/-- The turn of an operation. -/
theorem offers_operate (hsplit : x.process_queue = pre ++ v :: post) (hop : x.graph.IsOp v)
    (h : Offers x pre m) : Offers x (pre ++ [v]) (operate K v m) := by
  have hout := h.untouched.mem_out_edges v
  have hsize : ((operate K v m).dag.vertex v).overall_output_size = x.rows.output_size := by
    rw [operate_output_size, operate_input_size, h.vertex_at hsplit hop]
    simp only [agg, primitive_node.fresh, (h.rows_at hsplit hop).2]
    rfl
  refine ⟨untouched_operate K v h.untouched, ?_, ?_, ?_⟩
  · intro e hlt hs hstart
    have hne : x.graph.source e ≠ v := by
      rw [hs]
      exact Ne.symm hop.2.1
    rw [operate_edge_of_not_mem K v m (fun hmem => hne ((hout e).mp hmem).2)]
    exact h.columns e hlt hs (by simpa [Ne.symm hop.2.1] using hstart)
  · intro e hlt hs he
    by_cases hsv : x.graph.source e = v
    · rw [(operate_edge_of_mem K v m ((hout e).mpr ⟨hlt, hsv⟩)).2, hsize]
    · rw [operate_edge_of_not_mem K v m (fun hmem => hsv ((hout e).mp hmem).2)]
      exact h.outputs e hlt hs (by simpa [hsv] using he)
  · rw [operate_results]
    exact h.results

/-- Every column that the display fetches has the size of its fetch. -/
theorem display_edges_results (n : Nat) (es : List Nat) (m : Machine)
    (hes : ∀ e ∈ es, size_of_int (int_of_size (m.dag.edge e).data_size) = n)
    (hresults : ∀ c ∈ m.results, c.length = n) :
    ∀ c ∈ (es.foldl display_edge m).results, c.length = n := by
  induction es generalizing m with
  | nil => exact hresults
  | cons e rest ih =>
    refine ih (display_edge m e) (fun e' he' => hes e' (List.mem_cons_of_mem _ he')) ?_
    intro c hc
    unfold display_edge at hc
    rw [hes e List.mem_cons_self] at hc
    rcases List.mem_append.mp hc with hc | hc
    · exact hresults c hc
    · rw [Option.mem_toList, Option.bind_eq_some_iff] at hc
      obtain ⟨st, -, hc⟩ := hc
      split at hc
      · obtain ⟨buffer, -, rfl⟩ := Option.map_eq_some_iff.mp hc
        simp [openCL_layer.cl_success]
      · obtain ⟨array, -, harray⟩ := Option.bind_eq_some_iff.mp hc
        split at harray
        · rename_i hle
          cases harray
          exact List.length_take_of_le hle
        · cases harray

/-- The turn of the display. -/
theorem offers_display (hsplit : x.process_queue = pre ++ end_vertex :: post) (h : Offers x pre m) :
    Offers x (pre ++ [end_vertex]) (display_result m) := by
  refine ⟨untouched_display h.untouched, ?_, ?_, ?_⟩
  · intro e hlt hs hstart
    have hne : start_vertex ≠ end_vertex := by decide
    rw [display_result_dag]
    exact h.columns e hlt hs (by simpa [hne] using hstart)
  · intro e hlt hs he
    rw [display_result_dag]
    exact h.outputs e hlt hs (by simpa [x.source_ne_end hlt] using he)
  · apply display_edges_results _ _ _ _ h.results
    intro e he
    rw [h.untouched.shape.in_edges] at he
    obtain ⟨hlt, htarget⟩ := x.graph.mem_in_edges.mp he
    have hs : x.graph.source e ≠ start_vertex := fun hs =>
      (x.source_at hlt).mp hs htarget
    rw [h.outputs e hlt hs (x.topological.sources_done hsplit he)]
    rfl

/-- Every prefix of the queue leaves the sizes as they should be. -/
theorem offers_after (K : Kernels) (x : aggregation_run) (pre post : List Nat)
    (hsplit : x.process_queue = pre ++ post) : Offers x pre (x.run K pre) := by
  induction pre using List.reverseRecOn generalizing post with
  | nil => exact offers_before
  | append_singleton pre v ih =>
    have hsplit' : x.process_queue = pre ++ v :: post := by simpa using hsplit
    have hoffers := ih (v :: post) hsplit'
    have hv : v < x.graph.num_vertices := (x.topological.mem_iff v).mp (by simp [hsplit'])
    have hturn : x.run K (pre ++ [v]) =
        execute_vertex K (q_1_scan x.rows) (x.run K pre) v := after_snoc pre v
    rw [hturn]
    rcases execute_vertex_cases K (q_1_scan x.rows) x.is_a_query hv (hoffers.untouched.name_eq v)
      with ⟨rfl, he⟩ | ⟨rfl, he⟩ | ⟨hop, he⟩
    · rw [he]
      exact offers_load hsplit' hoffers
    · rw [he]
      exact offers_display hsplit' hoffers
    · rw [he]
      exact offers_operate hsplit' hop hoffers

end run

/-- Whatever the kernels, the rows, the device and the order: the display never fetches one word for
each group. -/
theorem query_1_never_returns_every_group (K : Kernels) (x : aggregation_run) :
    x.results K ≠ x.rows.every_group := by
  intro heq
  have hlength := (offers_after K x x.process_queue [] (List.append_nil _).symm).results
    x.rows.group_sums (by
      have hmem : x.rows.group_sums ∈ x.results K := by
        rw [heq]
        exact List.mem_cons_self
      exact hmem)
  rw [grouped_rows.group_sums, List.length_map, List.length_range] at hlength
  exact x.rows.fetched_ne_groups hlength.symm

/-- The kernels of the graph, with the work items of each launch in some order. -/
def aggregation_kernels (items : List (List Word) → Nat → List Nat) : Kernels where
  openCL kernel buffers _ globalSize :=
    match kernel, buffers with
    | "ordered_aggregate_sum_block", [posList, input, result] =>
      (items buffers globalSize).foldlM (kernels.ordered_aggregate_sum_block posList input) result
    | "ordered_aggregate_count_block", [posList, result] =>
      (items buffers globalSize).foldlM (kernels.ordered_aggregate_count_block posList) result
    | _, _ => none
  cpp _ _ _ _ := none

/-- One block: 31 rows of group 0 with quantity 2, and a row of group 1 with quantity 7. -/
def two_groups : grouped_rows where
  W := 1
  ag_key := List.replicate 31 0 ++ [1]
  q := List.replicate 31 2 ++ [7]
  blocks := by decide
  keys := by decide
  quantities := by decide
  from_zero := by decide
  no_gaps := by decide

/-- The graph on these rows, on the second device, when 15 aliases are taken. -/
def two_groups_aggregation : aggregation_run where
  rows := two_groups
  target_device := (0, 1)
  process_queue := [start_vertex, 2, 3, 4, 5, 6, 7, 8, 9, end_vertex]
  counter := 15
  st := ⟨∅, ∅⟩
  topological :=
    { perm := by
        rw [q_1_num_vertices]
        decide
      forward := by
        rw [q_1_ends]
        decide }

/-- The display fetches group 0 and leaves group 1 behind. -/
theorem the_last_of_two_groups_is_not_returned :
    two_groups_aggregation.results (aggregation_kernels (fun _ => List.range)) =
        [[62], [31], [62], [62], [62], [62], [62], [62]] ∧
      two_groups.every_group =
        [[62, 7], [31, 1], [62, 7], [62, 7], [62, 7], [62, 7], [62, 7], [62, 7]] ∧
      two_groups_aggregation.results (aggregation_kernels (fun _ => List.range)) ≠
        two_groups.every_group := by
  have hresults : two_groups_aggregation.results (aggregation_kernels (fun _ => List.range)) =
      [[62], [31], [62], [62], [62], [62], [62], [62]] := by
    decide +kernel
  have hgroups : two_groups.every_group =
      [[62, 7], [31, 1], [62, 7], [62, 7], [62, 7], [62, 7], [62, 7], [62, 7]] := by
    decide +kernel
  refine ⟨hresults, hgroups, ?_⟩
  rw [hresults, hgroups]
  decide

end hero.tests
