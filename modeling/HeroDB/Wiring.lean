-- The laws of the wiring: in a run of `execute_graph`, every operation is launched once, on the
-- buffers that its sources got in this run, and its own buffer is new.
import HeroDB.ScanResolution
import Mathlib.Data.List.Induction

namespace hero.runtime_layer

open query_graph (SameShape)

/-- An edge that does not come from the scan comes from an operation. -/
theorem IsQuery.source_isOp {g : query_graph} {e : Nat} (hq : IsQuery g) (hlt : e < g.ends.length)
    (hs : g.source e ≠ start_vertex) : g.IsOp (g.source e) :=
  ⟨(hq.ends_lt _ (g.ends_mem hlt)).1, hs, hq.display_last _ (g.ends_mem hlt)⟩

/-! ## Topological orders -/

namespace IsTopological

variable {g : query_graph} {order pre post : List Nat} {v : Nat}

theorem nodup (h : IsTopological g order) : order.Nodup := h.perm.nodup_iff.mpr List.nodup_range

theorem mem_iff (h : IsTopological g order) (v : Nat) : v ∈ order ↔ v < g.num_vertices := by
  rw [h.perm.mem_iff, List.mem_range]

theorem start_mem (h : IsTopological g order) (hq : IsQuery g) : start_vertex ∈ order := by
  have := hq.two_le
  rw [h.mem_iff, start_vertex]
  omega

theorem not_mem_prefix (h : IsTopological g order) (hsplit : order = pre ++ v :: post) :
    v ∉ pre := by
  have := h.nodup
  rw [hsplit, List.nodup_append] at this
  exact fun hv => this.2.2 v hv v List.mem_cons_self rfl

/-- At the turn of a vertex, the sources of its in-edges had their turn. -/
theorem sources_done (h : IsTopological g order) (hsplit : order = pre ++ v :: post) {e : Nat}
    (he : e ∈ g.in_edges v) : g.source e ∈ pre := by
  obtain ⟨hlt, rfl⟩ := g.mem_in_edges.mp he
  have hfw := h.forward _ (g.ends_mem hlt)
  have hv := h.not_mem_prefix hsplit
  rw [hsplit, List.idxOf_append_of_notMem hv, List.idxOf_cons_self, Nat.add_zero] at hfw
  by_contra hu
  rw [List.idxOf_append_of_notMem hu] at hfw
  omega

/-- The vertices before a vertex in the order are the prefix. -/
theorem takeWhile_eq (h : IsTopological g order) (hsplit : order = pre ++ v :: post) :
    order.takeWhile (· ≠ v) = pre := by
  have hv := h.not_mem_prefix hsplit
  rw [hsplit, List.takeWhile_append_of_pos]
  · simp
  · intro x hx
    simpa using fun he : x = v => hv (he ▸ hx)

end IsTopological

/-! ## The run, vertex by vertex -/

section run

variable (K : Kernels) (g : query_graph) (data_scan : ScanMap) (counter : Nat) (st : Stores)

/-- The machine after the turns of a prefix of the queue. -/
def after (pre : List Nat) : Machine := execute_graph K data_scan pre (.before g counter st)

/-- How many aliases the turn of a vertex takes. -/
def weight (v : Nat) : Nat :=
  if v = start_vertex then data_scan.entries.length else if v = end_vertex then 0 else 1

/-- The counter at the turn of a vertex. -/
def counter_at (order : List Nat) (v : Nat) : Nat :=
  counter + ((order.takeWhile (· ≠ v)).map (weight data_scan)).sum

/-- The alias of the output of an operation. -/
def out_alias (order : List Nat) (v : Nat) : Int := (counter_at data_scan counter order v + 1 : Nat)

/-- The alias that an edge carries when its target has its turn. -/
def edge_alias (order : List Nat) (e : Nat) : Int :=
  if g.source e = start_vertex then
    (resolved (counter_at data_scan counter order start_vertex) data_scan.entries
      (g.edge e)).data_pointer
  else out_alias data_scan counter order (g.source e)

/-- The call of `execute` at the turn of an operation. -/
def turn_launch (order : List Nat) (v : Nat) : launch :=
  launch_of g.execution_environment
    ((operate K v (after K g data_scan counter st (order.takeWhile (· ≠ v)))).dag.vertex v)

/-- The events of the turn of a vertex. -/
def turn_events (order : List Nat) (v : Nat) : List event :=
  if v = start_vertex then
    placed (counter_at data_scan counter order start_vertex) data_scan.entries
  else if v = end_vertex then []
  else [.output v (out_alias data_scan counter order v),
    .execute v (turn_launch K g data_scan counter st order v)]

/-- What holds after the turns of a prefix. A vertex and an edge that had no turn yet are as
they were, and an edge whose source had its turn carries its alias. -/
structure Wired (order pre : List Nat) (m : Machine) : Prop where
  shape : SameShape g m.dag
  counter_eq : m.total_data_set_in_device = counter + (pre.map (weight data_scan)).sum
  vertex_eq : ∀ v, v ∉ pre → m.dag.vertex v = g.vertex v
  name_eq : ∀ v, (m.dag.vertex v).mKernelName = (g.vertex v).mKernelName
  device_eq : ∀ v, (m.dag.vertex v).device = (g.vertex v).device
  edge_eq : ∀ e, g.source e ∉ pre → m.dag.edge e = g.edge e
  carries : ∀ e < g.ends.length, g.source e ∈ pre →
    (m.dag.edge e).data_pointer = edge_alias g data_scan counter order e
  trace_eq : m.trace = pre.flatMap (turn_events K g data_scan counter st order)

end run

/-! ## The counter -/

section count

variable (data_scan : ScanMap) (counter : Nat) {g : query_graph} {order pre post : List Nat}
variable {v w : Nat}

theorem sum_weight_le_of_not_start (h : start_vertex ∉ pre) :
    (pre.map (weight data_scan)).sum ≤ pre.length := by
  induction pre with
  | nil => simp
  | cons v rest ih =>
    obtain ⟨hv, hrest⟩ := List.ne_and_not_mem_of_not_mem_cons h
    have hw : weight data_scan v ≤ 1 := by
      unfold weight
      rw [if_neg (Ne.symm hv)]
      split <;> omega
    have := ih hrest
    simp only [List.map_cons, List.sum_cons, List.length_cons]
    omega

/-- The aliases of a prefix: one for each vertex and one for each column, at most. -/
theorem sum_weight_le (h : pre.Nodup) :
    (pre.map (weight data_scan)).sum ≤ data_scan.entries.length + pre.length := by
  induction pre with
  | nil => simp
  | cons v rest ih =>
    obtain ⟨hv, hrest⟩ := List.nodup_cons.mp h
    simp only [List.map_cons, List.sum_cons, List.length_cons]
    by_cases hs : v = start_vertex
    · subst hs
      have := sum_weight_le_of_not_start data_scan hv
      have hw : weight data_scan start_vertex = data_scan.entries.length := by simp [weight]
      omega
    · have hw : weight data_scan v ≤ 1 := by
        unfold weight
        rw [if_neg hs]
        split <;> omega
      have := ih hrest
      omega

/-- The counter stays small through the run. -/
theorem counter_small (htop : IsTopological g order) (hsplit : order = pre ++ v :: post)
    (hsmall : counter + data_scan.entries.length + g.num_vertices < 2 ^ 31) :
    counter + (pre.map (weight data_scan)).sum + weight data_scan v < 2 ^ 31 := by
  have hnd : (pre ++ [v]).Nodup := by
    have := htop.nodup
    rw [hsplit, ← List.singleton_append, ← List.append_assoc] at this
    exact (List.nodup_append.mp this).1
  have hle := sum_weight_le data_scan hnd
  have hlen : order.length = g.num_vertices := by
    rw [htop.perm.length_eq, List.length_range]
  rw [hsplit] at hlen
  simp only [List.map_append, List.sum_append, List.map_cons, List.map_nil, List.sum_cons,
    List.sum_nil, List.length_append, List.length_cons, List.length_nil] at hle hlen
  omega

theorem counter_at_eq (htop : IsTopological g order) (hsplit : order = pre ++ v :: post) :
    counter_at data_scan counter order v = counter + (pre.map (weight data_scan)).sum := by
  rw [counter_at, htop.takeWhile_eq hsplit]

/-- A vertex that has its turn first takes its aliases first. -/
theorem counter_at_le (htop : IsTopological g order) (hsplit : order = pre ++ w :: post)
    (hv : v ∈ pre) :
    counter_at data_scan counter order v + weight data_scan v ≤
      counter_at data_scan counter order w := by
  obtain ⟨p, q, rfl⟩ := List.append_of_mem hv
  have hsplit' : order = p ++ v :: (q ++ w :: post) := by simpa using hsplit
  rw [counter_at_eq data_scan counter htop hsplit, counter_at_eq data_scan counter htop hsplit']
  simp only [List.map_append, List.sum_append, List.map_cons, List.sum_cons]
  omega

/-- Of two vertices, one takes its aliases first. -/
theorem counter_at_total (htop : IsTopological g order) (hv : v ∈ order) (hw : w ∈ order)
    (hne : v ≠ w) :
    counter_at data_scan counter order v + weight data_scan v ≤
        counter_at data_scan counter order w ∨
      counter_at data_scan counter order w + weight data_scan w ≤
        counter_at data_scan counter order v := by
  obtain ⟨pre, post, hsplit⟩ := List.append_of_mem hw
  have hmem := hv
  rw [hsplit, List.mem_append, List.mem_cons] at hmem
  rcases hmem with hpre | rfl | hpost
  · exact .inl (counter_at_le data_scan counter htop hsplit hpre)
  · exact absurd rfl hne
  · right
    obtain ⟨p, q, rfl⟩ := List.append_of_mem hpost
    have hsplit' : order = (pre ++ w :: p) ++ v :: q := by simp [hsplit]
    exact counter_at_le data_scan counter htop hsplit' (by simp)

theorem weight_op (hop : g.IsOp v) : weight data_scan v = 1 := by
  unfold weight
  rw [if_neg hop.2.1, if_neg hop.2.2]

/-- Distinct operations get distinct aliases. -/
theorem out_alias_inj (htop : IsTopological g order) (hv : g.IsOp v) (hw : g.IsOp w)
    (heq : out_alias data_scan counter order v = out_alias data_scan counter order w) : v = w := by
  by_contra hne
  have hcounts := counter_at_total data_scan counter htop ((htop.mem_iff v).mpr hv.1)
    ((htop.mem_iff w).mpr hw.1) hne
  rw [weight_op data_scan hv, weight_op data_scan hw] at hcounts
  unfold out_alias at heq
  omega

/-- The alias of a column, as a number. -/
theorem column_alias_at (htop : IsTopological g order) (hs : start_vertex ∈ order)
    (hsmall : counter + data_scan.entries.length + g.num_vertices < 2 ^ 31) {j : Nat}
    (hj : j < data_scan.entries.length) :
    column_alias (counter_at data_scan counter order start_vertex) j =
      (counter_at data_scan counter order start_vertex + j + 1 : Nat) := by
  obtain ⟨pre, post, hsplit⟩ := List.append_of_mem hs
  have hsum := counter_small data_scan counter htop hsplit hsmall
  have hws : weight data_scan start_vertex = data_scan.entries.length := by simp [weight]
  rw [← counter_at_eq data_scan counter htop hsplit, hws] at hsum
  exact column_alias_small (by omega)

/-- The alias of an operation is not the alias of a column. -/
theorem out_alias_ne_column (htop : IsTopological g order) (hs : start_vertex ∈ order)
    (hsmall : counter + data_scan.entries.length + g.num_vertices < 2 ^ 31) (hv : g.IsOp v)
    {j : Nat} (hj : j < data_scan.entries.length) :
    out_alias data_scan counter order v ≠
      column_alias (counter_at data_scan counter order start_vertex) j := by
  intro heq
  have hcounts := counter_at_total data_scan counter htop ((htop.mem_iff v).mpr hv.1) hs hv.2.1
  have hws : weight data_scan start_vertex = data_scan.entries.length := by simp [weight]
  rw [weight_op data_scan hv, hws] at hcounts
  rw [column_alias_at data_scan counter htop hs hsmall hj] at heq
  unfold out_alias at heq
  omega

end count

/-! ## What a turn leaves as it was -/

/-- The turns of some vertices leave the shape of the graph, the names and the devices, and every
vertex and every edge that had no turn yet. -/
structure Untouched (g : query_graph) (pre : List Nat) (m : Machine) : Prop where
  shape : SameShape g m.dag
  vertex_eq : ∀ v, v ∉ pre → m.dag.vertex v = g.vertex v
  name_eq : ∀ v, (m.dag.vertex v).mKernelName = (g.vertex v).mKernelName
  device_eq : ∀ v, (m.dag.vertex v).device = (g.vertex v).device
  edge_eq : ∀ e, g.source e ∉ pre → m.dag.edge e = g.edge e

section untouched

variable {g : query_graph} {pre : List Nat} {m : Machine}

theorem untouched_before (g : query_graph) (counter : Nat) (st : Stores) :
    Untouched g [] (.before g counter st) where
  shape := .refl g
  vertex_eq := fun _ _ => rfl
  name_eq := fun _ => rfl
  device_eq := fun _ => rfl
  edge_eq := fun _ _ => rfl

theorem Untouched.mem_out_edges (h : Untouched g pre m) (v e : Nat) :
    e ∈ m.dag.out_edges v ↔ e < g.ends.length ∧ g.source e = v := by
  rw [h.shape.out_edges, query_graph.mem_out_edges]

theorem untouched_load (data_scan : ScanMap) (h : Untouched g pre m) :
    Untouched g (pre ++ [start_vertex]) (load_data data_scan start_vertex m) := by
  refine ⟨h.shape.trans (load_data_shape _ _ m), ?_, ?_, ?_, ?_⟩
  · intro v hv
    simp only [List.mem_append, List.mem_singleton, not_or] at hv
    rw [load_data_vertex _ _ m hv.2, h.vertex_eq v hv.1]
  · intro v
    rw [load_data_name, h.name_eq]
  · intro v
    rw [load_data_device, h.device_eq]
  · intro e he
    simp only [List.mem_append, List.mem_singleton, not_or] at he
    rw [load_data_edge, if_neg (fun hmem => he.2 ((h.mem_out_edges _ e).mp hmem).2),
      h.edge_eq e he.1]

theorem untouched_display (h : Untouched g pre m) :
    Untouched g (pre ++ [end_vertex]) (display_result m) := by
  refine ⟨by simpa using h.shape, ?_, ?_, ?_, ?_⟩
  · intro v hv
    simp only [List.mem_append, List.mem_singleton, not_or] at hv
    rw [display_result_dag, h.vertex_eq v hv.1]
  · intro v
    rw [display_result_dag, h.name_eq]
  · intro v
    rw [display_result_dag, h.device_eq]
  · intro e he
    simp only [List.mem_append, List.mem_singleton, not_or] at he
    rw [display_result_dag, h.edge_eq e he.1]

theorem untouched_operate (K : Kernels) (v : Nat) (h : Untouched g pre m) :
    Untouched g (pre ++ [v]) (operate K v m) := by
  refine ⟨h.shape.trans (operate_shape K v m), ?_, ?_, ?_, ?_⟩
  · intro w hw
    simp only [List.mem_append, List.mem_singleton, not_or] at hw
    rw [operate_vertex K v m hw.2, h.vertex_eq w hw.1]
  · intro w
    rw [operate_name, h.name_eq]
  · intro w
    rw [operate_device, h.device_eq]
  · intro e he
    simp only [List.mem_append, List.mem_singleton, not_or] at he
    rw [operate_edge_of_not_mem K v m (fun hmem => he.2 ((h.mem_out_edges v e).mp hmem).2),
      h.edge_eq e he.1]

end untouched

/-! ## One turn -/

section turn

variable {K : Kernels} {g : query_graph} {data_scan : ScanMap} {counter : Nat} {st : Stores}
variable {order pre post : List Nat} {v : Nat} {m : Machine}

theorem iterate_next_counter {n k : Nat} (h : n + k < 2 ^ 64) : next_counter^[k] n = n + k := by
  cases k with
  | zero => rfl
  | succ k =>
    rw [next_counter_iterate]
    exact Nat.mod_eq_of_lt h

theorem wired_before : Wired K g data_scan counter st order [] (.before g counter st) where
  shape := .refl g
  counter_eq := rfl
  vertex_eq := fun _ _ => rfl
  name_eq := fun _ => rfl
  device_eq := fun _ => rfl
  edge_eq := fun _ _ => rfl
  carries := fun _ _ h => by simp at h
  trace_eq := rfl

theorem Wired.untouched (h : Wired K g data_scan counter st order pre m) : Untouched g pre m :=
  ⟨h.shape, h.vertex_eq, h.name_eq, h.device_eq, h.edge_eq⟩

/-- The turn of the scan. -/
theorem wired_load (htop : IsTopological g order)
    (hsplit : order = pre ++ start_vertex :: post)
    (hsmall : counter + data_scan.entries.length + g.num_vertices < 2 ^ 31)
    (h : Wired K g data_scan counter st order pre m) :
    Wired K g data_scan counter st order (pre ++ [start_vertex])
      (load_data data_scan start_vertex m) := by
  have hc := counter_small data_scan counter htop hsplit hsmall
  have hw : weight data_scan start_vertex = data_scan.entries.length := by simp [weight]
  have hat := counter_at_eq data_scan counter htop hsplit
  rw [← h.counter_eq] at hat
  have hout := h.untouched.mem_out_edges start_vertex
  obtain ⟨hshape, hvertex, hname, hdevice, hedge⟩ := untouched_load data_scan h.untouched
  refine ⟨hshape, ?_, hvertex, hname, hdevice, hedge, ?_, ?_⟩
  · rw [load_data_counter, iterate_next_counter (by rw [h.counter_eq]; omega), h.counter_eq]
    simp only [List.map_append, List.sum_append, List.map_cons, List.map_nil, List.sum_cons,
      List.sum_nil, hw]
    omega
  · intro e hlt he
    by_cases hs : g.source e = start_vertex
    · have hfresh : m.dag.edge e = g.edge e :=
        h.edge_eq e (by rw [hs]; exact htop.not_mem_prefix hsplit)
      rw [load_data_edge, if_pos ((hout e).mpr ⟨hlt, hs⟩), edge_alias, if_pos hs, hat, hfresh]
    · simp only [List.mem_append, List.mem_singleton, hs, or_false] at he
      rw [load_data_edge, if_neg (fun hmem => hs ((hout e).mp hmem).2)]
      exact h.carries e hlt he
  · rw [load_data_trace, h.trace_eq, List.flatMap_append]
    simp [turn_events, hat]

/-- The turn of the display. -/
theorem wired_display (hq : IsQuery g) (h : Wired K g data_scan counter st order pre m) :
    Wired K g data_scan counter st order (pre ++ [end_vertex]) (display_result m) := by
  have hne : end_vertex ≠ start_vertex := by decide
  obtain ⟨hshape, hvertex, hname, hdevice, hedge⟩ := untouched_display h.untouched
  refine ⟨hshape, ?_, hvertex, hname, hdevice, hedge, ?_, ?_⟩
  · simp [h.counter_eq, weight, hne]
  · intro e hlt he
    have hs : g.source e ≠ end_vertex := hq.display_last _ (g.ends_mem hlt)
    simp only [List.mem_append, List.mem_singleton, hs, or_false] at he
    rw [display_result_dag]
    exact h.carries e hlt he
  · simp [h.trace_eq, turn_events, hne]

/-- The next alias at the turn of an operation. -/
theorem next_alias_eq (htop : IsTopological g order) (hsplit : order = pre ++ v :: post)
    (hop : g.IsOp v) (hsmall : counter + data_scan.entries.length + g.num_vertices < 2 ^ 31)
    (h : Wired K g data_scan counter st order pre m) :
    next_counter m.total_data_set_in_device = m.total_data_set_in_device + 1 ∧
      next_alias m = out_alias data_scan counter order v := by
  have hc := counter_small data_scan counter htop hsplit hsmall
  have hw := weight_op data_scan hop
  have hnext : next_counter m.total_data_set_in_device = m.total_data_set_in_device + 1 := by
    rw [next_counter]
    exact Nat.mod_eq_of_lt (by rw [h.counter_eq]; omega)
  refine ⟨hnext, ?_⟩
  rw [next_alias, hnext, int_of_size_eq (by rw [h.counter_eq]; omega), out_alias,
    counter_at_eq data_scan counter htop hsplit, h.counter_eq]

/-- The turn of an operation. -/
theorem wired_operate (htop : IsTopological g order) (hsplit : order = pre ++ v :: post)
    (hop : g.IsOp v) (hsmall : counter + data_scan.entries.length + g.num_vertices < 2 ^ 31)
    (h : Wired K g data_scan counter st order pre (after K g data_scan counter st pre)) :
    Wired K g data_scan counter st order (pre ++ [v])
      (operate K v (after K g data_scan counter st pre)) := by
  have hw := weight_op data_scan hop
  have htake := htop.takeWhile_eq hsplit
  obtain ⟨hnext, halias⟩ := next_alias_eq htop hsplit hop hsmall h
  generalize hm : after K g data_scan counter st pre = m at h hnext halias
  have hlaunch : turn_launch K g data_scan counter st order v =
      launch_of g.execution_environment ((operate K v m).dag.vertex v) := by
    rw [turn_launch, htake, hm]
  have hout := h.untouched.mem_out_edges v
  obtain ⟨hshape, hvertex, hname, hdevice, hedge⟩ := untouched_operate K v h.untouched
  refine ⟨hshape, ?_, hvertex, hname, hdevice, hedge, ?_, ?_⟩
  · rw [operate_counter, hnext, h.counter_eq]
    simp only [List.map_append, List.sum_append, List.map_cons, List.map_nil, List.sum_cons,
      List.sum_nil, hw]
    omega
  · intro e hlt he
    by_cases hs : g.source e = v
    · rw [(operate_edge_of_mem K v m ((hout e).mpr ⟨hlt, hs⟩)).1, halias, edge_alias, hs,
        if_neg hop.2.1]
    · simp only [List.mem_append, List.mem_singleton, hs, or_false] at he
      rw [operate_edge_of_not_mem K v m (fun hmem => hs ((hout e).mp hmem).2)]
      exact h.carries e hlt he
  · rw [operate_trace, h.trace_eq, h.shape.execution_environment, List.flatMap_append, halias]
    simp [turn_events, hlaunch, hop.2.1, hop.2.2]

/-- One turn of `execute_graph`, by the kind of the vertex. -/
theorem execute_vertex_cases (K : Kernels) (data_scan : ScanMap) (hq : IsQuery g)
    (hv : v < g.num_vertices)
    (hname : (m.dag.vertex v).mKernelName = (g.vertex v).mKernelName) :
    (v = start_vertex ∧ execute_vertex K data_scan m v = load_data data_scan v m) ∨
      (v = end_vertex ∧ execute_vertex K data_scan m v = display_result m) ∨
      (g.IsOp v ∧ execute_vertex K data_scan m v = operate K v m) := by
  unfold execute_vertex
  rw [hname]
  by_cases hs : v = start_vertex
  · left
    subst hs
    exact ⟨rfl, by rw [if_pos hq.scan_name]⟩
  · by_cases he : v = end_vertex
    · right; left
      subst he
      rw [hq.display_name, if_neg (by decide), if_pos rfl]
      exact ⟨rfl, rfl⟩
    · right; right
      have hop : g.IsOp v := ⟨hv, hs, he⟩
      rw [if_neg (hq.op_name v hop).1, if_neg (hq.op_name v hop).2]
      exact ⟨hop, rfl⟩

theorem after_snoc (pre : List Nat) (v : Nat) :
    after K g data_scan counter st (pre ++ [v]) =
      execute_vertex K data_scan (after K g data_scan counter st pre) v := by
  simp [after, execute_graph]

/-- Every prefix of a topological order leaves the graph wired. -/
theorem wired_after (K : Kernels) (st : Stores) (hq : IsQuery g) (htop : IsTopological g order)
    (hsmall : counter + data_scan.entries.length + g.num_vertices < 2 ^ 31)
    (pre post : List Nat) (hsplit : order = pre ++ post) :
    Wired K g data_scan counter st order pre (after K g data_scan counter st pre) := by
  induction pre using List.reverseRecOn generalizing post with
  | nil => exact wired_before
  | append_singleton pre v ih =>
    have hsplit' : order = pre ++ v :: post := by simpa using hsplit
    have hw := ih (v :: post) hsplit'
    have hv : v < g.num_vertices := (htop.mem_iff v).mp (by simp [hsplit'])
    rw [after_snoc]
    rcases execute_vertex_cases K data_scan hq hv (hw.name_eq v)
      with ⟨rfl, he⟩ | ⟨rfl, he⟩ | ⟨hop, he⟩
    · rw [he]
      exact wired_load htop hsplit' hsmall hw
    · rw [he]
      exact wired_display hq hw
    · rw [he]
      exact wired_operate htop hsplit' hop hsmall hw

end turn

/-! ## The log of a run -/

/-- The launches of a vertex. -/
def launches_of (v : Nat) (trace : List event) : List launch :=
  trace.filterMap (fun ev =>
    match ev with
    | .execute w l => if w = v then some l else none
    | _ => none)

/-- The aliases that a vertex gets for its output. -/
def outputs_of (v : Nat) (trace : List event) : List Int :=
  trace.filterMap (fun ev =>
    match ev with
    | .output w data_pointer => if w = v then some data_pointer else none
    | _ => none)

theorem mem_placed {counter : Nat} {cs : List (Int × List Word)} {ev : event} :
    ev ∈ placed counter cs ↔
      ∃ j c, cs[j]? = some c ∧ ev = .place c.1 (column_alias counter j) := by
  rw [List.mem_iff_getElem?]
  constructor
  · rintro ⟨j, hj⟩
    rw [placed_getElem, Option.map_eq_some_iff] at hj
    obtain ⟨c, hc, he⟩ := hj
    exact ⟨j, c, hc, he.symm⟩
  · rintro ⟨j, c, hc, rfl⟩
    exact ⟨j, by rw [placed_getElem, hc, Option.map_some]⟩

theorem launches_of_placed (v counter : Nat) (cs : List (Int × List Word)) :
    launches_of v (placed counter cs) = [] := by
  rw [launches_of, List.filterMap_eq_nil_iff]
  intro ev hev
  obtain ⟨j, c, _, rfl⟩ := mem_placed.mp hev
  rfl

theorem outputs_of_placed (v counter : Nat) (cs : List (Int × List Word)) :
    outputs_of v (placed counter cs) = [] := by
  rw [outputs_of, List.filterMap_eq_nil_iff]
  intro ev hev
  obtain ⟨j, c, _, rfl⟩ := mem_placed.mp hev
  rfl

section log

variable {K : Kernels} {g : query_graph} {data_scan : ScanMap} {counter : Nat} {st : Stores}
variable {order pre post : List Nat} {v w : Nat}

theorem launches_of_turn_of_ne (h : w ≠ v) :
    launches_of v (turn_events K g data_scan counter st order w) = [] := by
  unfold turn_events
  split
  · exact launches_of_placed _ _ _
  · split
    · rfl
    · simp [launches_of, h]

theorem outputs_of_turn_of_ne (h : w ≠ v) :
    outputs_of v (turn_events K g data_scan counter st order w) = [] := by
  unfold turn_events
  split
  · exact outputs_of_placed _ _ _
  · split
    · rfl
    · simp [outputs_of, h]

theorem launches_of_turns (h : v ∉ pre) :
    launches_of v (pre.flatMap (turn_events K g data_scan counter st order)) = [] := by
  rw [launches_of, List.filterMap_flatMap, List.flatMap_eq_nil_iff]
  exact fun w hw => launches_of_turn_of_ne (fun he => h (he ▸ hw))

/-- The scan, the display and a number that is no vertex are never launched. -/
theorem launches_of_not_op (htop : IsTopological g order) (h : ¬ g.IsOp v) :
    launches_of v (order.flatMap (turn_events K g data_scan counter st order)) = [] := by
  rw [launches_of, List.filterMap_flatMap, List.flatMap_eq_nil_iff]
  intro w hw
  by_cases hwv : w = v
  · subst hwv
    have hlt := (htop.mem_iff w).mp hw
    by_cases hs : w = start_vertex
    · rw [← launches_of, turn_events, if_pos hs]
      exact launches_of_placed _ _ _
    · have he : w = end_vertex := by
        by_contra he
        exact h ⟨hlt, hs, he⟩
      rw [turn_events, if_neg hs, if_pos he]
      rfl
  · exact launches_of_turn_of_ne hwv

theorem outputs_of_turns (h : v ∉ pre) :
    outputs_of v (pre.flatMap (turn_events K g data_scan counter st order)) = [] := by
  rw [outputs_of, List.filterMap_flatMap, List.flatMap_eq_nil_iff]
  exact fun w hw => outputs_of_turn_of_ne (fun he => h (he ▸ hw))

theorem mem_turns_output {a : Int} :
    .output v a ∈ pre.flatMap (turn_events K g data_scan counter st order) ↔
      v ∈ pre ∧ v ≠ start_vertex ∧ v ≠ end_vertex ∧ a = out_alias data_scan counter order v := by
  rw [List.mem_flatMap]
  constructor
  · rintro ⟨w, hw, hmem⟩
    unfold turn_events at hmem
    split at hmem
    · obtain ⟨_, _, _, he⟩ := mem_placed.mp hmem
      cases he
    · split at hmem
      · cases hmem
      · simp only [List.mem_cons, event.output.injEq, reduceCtorEq, List.not_mem_nil, or_false]
          at hmem
        obtain ⟨rfl, rfl⟩ := hmem
        exact ⟨hw, by assumption, by assumption, rfl⟩
  · rintro ⟨hv, hs, he, rfl⟩
    exact ⟨v, hv, by simp [turn_events, hs, he]⟩

theorem mem_turns_place {key a : Int} :
    .place key a ∈ pre.flatMap (turn_events K g data_scan counter st order) ↔
      start_vertex ∈ pre ∧
        .place key a ∈ placed (counter_at data_scan counter order start_vertex)
          data_scan.entries := by
  rw [List.mem_flatMap]
  constructor
  · rintro ⟨w, hw, hmem⟩
    unfold turn_events at hmem
    split at hmem
    · subst w
      exact ⟨hw, hmem⟩
    · split at hmem
      · cases hmem
      · simp at hmem
  · rintro ⟨hs, hmem⟩
    exact ⟨start_vertex, hs, by simpa [turn_events] using hmem⟩

end log

/-! ## The laws of the wiring -/

/-- The load step gives each out-edge of the scan the alias of the column whose key the edge
carries. -/
def LoadsOwnColumns (data_scan : ScanMap) (m : Machine) : Prop :=
  ∀ e ∈ m.dag.out_edges start_vertex,
    .place (m.dag.edge e).data_pointer
        ((load_data data_scan start_vertex m).dag.edge e).data_pointer ∈
      (load_data data_scan start_vertex m).trace

/-- The alias is the one of the column whose key the edge carries, or the one of the buffer of
the source of the edge. -/
def Feeds (g : query_graph) (trace : List event) (e : Nat) (data_pointer : Int) : Prop :=
  if g.source e = start_vertex then .place (g.edge e).data_pointer data_pointer ∈ trace
  else .output (g.source e) data_pointer ∈ trace

theorem Feeds.mono {g : query_graph} {trace trace' : List event} {e : Nat} {data_pointer : Int}
    (h : Feeds g trace e data_pointer) (hsub : ∀ ev ∈ trace, ev ∈ trace') :
    Feeds g trace' e data_pointer := by
  unfold Feeds at h ⊢
  split at h
  · rw [if_pos (by assumption)]
    exact hsub _ h
  · rw [if_neg (by assumption)]
    exact hsub _ h

/-- The vertex gets one output alias and is launched once. At the launch its inputs and its
output have their aliases, and the launch has them in the order of the in-edges, the output
last. -/
def LaunchedOnItsInputs (g : query_graph) (trace : List event) (v : Nat) : Prop :=
  ∃ before l after ins out,
    trace = before ++ .execute v l :: after ∧
    launches_of v trace = [l] ∧ outputs_of v trace = [out] ∧
    l.args = ins ++ [out] ∧ .output v out ∈ before ∧
    List.Forall₂ (Feeds g before) (g.in_edges v) ins

/-- The log of a run that is wired as the graph says. -/
structure WiredRun (g : query_graph) (trace : List event) : Prop where
  launched : ∀ v, g.IsOp v → LaunchedOnItsInputs g trace v
  only_ops : ∀ v, ¬ g.IsOp v → launches_of v trace = []
  outputs_differ : ∀ v w a, .output v a ∈ trace → .output w a ∈ trace → v = w
  columns_differ : ∀ v key a, .output v a ∈ trace → .place key a ∉ trace

section laws

variable {K : Kernels} {g : query_graph} {data_scan : ScanMap} {counter : Nat} {st : Stores}
variable {order pre post : List Nat} {v w : Nat}

/-- The arguments of the launch at the turn of an operation. -/
theorem turn_launch_args (hq : IsQuery g) (hfresh : FreshNodes g) (htop : IsTopological g order)
    (hsmall : counter + data_scan.entries.length + g.num_vertices < 2 ^ 31)
    (hsplit : order = pre ++ v :: post) (hop : g.IsOp v) :
    (turn_launch K g data_scan counter st order v).args =
      (g.in_edges v).map (edge_alias g data_scan counter order) ++
        [out_alias data_scan counter order v] := by
  have hw := wired_after K st hq htop hsmall pre (v :: post) hsplit
  have halias := (next_alias_eq htop hsplit hop hsmall hw).2
  have hv : v ∉ pre := htop.not_mem_prefix hsplit
  have hins : (g.in_edges v).map
        (fun e => ((after K g data_scan counter st pre).dag.edge e).data_pointer) =
      (g.in_edges v).map (edge_alias g data_scan counter order) :=
    List.map_congr_left (fun e he =>
      hw.carries e (g.mem_in_edges.mp he).1 (htop.sources_done hsplit he))
  rw [turn_launch, htop.takeWhile_eq hsplit,
    operate_args K v _ (by rw [hw.vertex_eq v hv]; exact (hfresh v hop).1)
      (by rw [hw.vertex_eq v hv]; exact (hfresh v hop).2), halias, hw.shape.in_edges, hins]

/-- At the turn of a vertex, each in-edge carries the alias of what feeds it. -/
theorem edge_alias_feeds (hq : IsQuery g) (htop : IsTopological g order)
    (hsmall : counter + data_scan.entries.length + g.num_vertices < 2 ^ 31)
    (hload : ∀ pre post, order = pre ++ start_vertex :: post →
      LoadsOwnColumns data_scan (after K g data_scan counter st pre))
    (hsplit : order = pre ++ v :: post) {e : Nat} (he : e ∈ g.in_edges v) :
    Feeds g (pre.flatMap (turn_events K g data_scan counter st order)) e
      (edge_alias g data_scan counter order e) := by
  have hmem := htop.sources_done hsplit he
  obtain ⟨hlt, -⟩ := g.mem_in_edges.mp he
  unfold Feeds edge_alias
  by_cases hs : g.source e = start_vertex
  · rw [if_pos hs, if_pos hs, mem_turns_place]
    rw [hs] at hmem
    refine ⟨hmem, ?_⟩
    obtain ⟨p, q, rfl⟩ := List.append_of_mem hmem
    have hsplit' : order = p ++ start_vertex :: (q ++ v :: post) := by simpa using hsplit
    have hw := wired_after K st hq htop hsmall p _ hsplit'
    have hfresh := hw.edge_eq e (by rw [hs]; exact htop.not_mem_prefix hsplit')
    have hout : e ∈ (after K g data_scan counter st p).dag.out_edges start_vertex := by
      rw [hw.shape.out_edges, query_graph.mem_out_edges]
      exact ⟨hlt, hs⟩
    have hown := hload p _ hsplit' e hout
    rw [load_data_edge, if_pos hout, hfresh, load_data_trace, hw.counter_eq,
      ← counter_at_eq data_scan counter htop hsplit', hw.trace_eq, List.mem_append] at hown
    rcases hown with hearly | hown
    · exact (mem_turns_place.mp hearly).2
    · exact hown
  · rw [if_neg hs, if_neg hs, mem_turns_output]
    exact ⟨hmem, hs, hq.display_last _ (g.ends_mem hlt), rfl⟩

/-- Each run is wired as the graph says: the log has one launch for every operation, on the aliases
of what its in-edges name and on its own new alias. -/
theorem wired_run (K : Kernels) (g : query_graph)
    (data_scan : ScanMap) (counter : Nat) (st : Stores) (order : List Nat) (hq : IsQuery g)
    (hfresh : FreshNodes g) (htop : IsTopological g order)
    (hsmall : counter + data_scan.entries.length + g.num_vertices < 2 ^ 31)
    (hload : ∀ pre post, order = pre ++ start_vertex :: post →
      LoadsOwnColumns data_scan (execute_graph K data_scan pre (.before g counter st))) :
    WiredRun g (execute_graph K data_scan order (.before g counter st)).trace := by
  have htrace := (wired_after K st hq htop hsmall order [] (by simp)).trace_eq
  rw [after] at htrace
  rw [htrace]
  refine ⟨?_, ?_, ?_, ?_⟩
  · intro v hop
    obtain ⟨pre, post, hsplit⟩ := List.append_of_mem ((htop.mem_iff v).mpr hop.1)
    have hpre := htop.not_mem_prefix hsplit
    have hpost : v ∉ post := by
      have := htop.nodup
      rw [hsplit, List.nodup_append] at this
      exact (List.nodup_cons.mp this.2.1).1
    have hturns : order.flatMap (turn_events K g data_scan counter st order) =
        pre.flatMap (turn_events K g data_scan counter st order) ++
          ([.output v (out_alias data_scan counter order v),
              .execute v (turn_launch K g data_scan counter st order v)] ++
            post.flatMap (turn_events K g data_scan counter st order)) := by
      conv_lhs => arg 2; rw [hsplit]
      simp [turn_events, hop.2.1, hop.2.2]
    refine ⟨pre.flatMap (turn_events K g data_scan counter st order) ++
        [.output v (out_alias data_scan counter order v)],
      turn_launch K g data_scan counter st order v,
      post.flatMap (turn_events K g data_scan counter st order),
      (g.in_edges v).map (edge_alias g data_scan counter order),
      out_alias data_scan counter order v, ?_, ?_, ?_, ?_, by simp, ?_⟩
    · rw [hturns]
      simp
    · rw [hturns, launches_of, List.filterMap_append, List.filterMap_append, ← launches_of,
        ← launches_of, ← launches_of, launches_of_turns hpre, launches_of_turns hpost]
      simp [launches_of]
    · rw [hturns, outputs_of, List.filterMap_append, List.filterMap_append, ← outputs_of,
        ← outputs_of, ← outputs_of, outputs_of_turns hpre, outputs_of_turns hpost]
      simp [outputs_of]
    · exact turn_launch_args hq hfresh htop hsmall hsplit hop
    · rw [List.forall₂_map_right_iff, List.forall₂_same]
      intro e he
      exact (edge_alias_feeds hq htop hsmall hload hsplit he).mono
        (fun ev hev => List.mem_append_left _ hev)
  · intro v hop
    exact launches_of_not_op htop hop
  · intro v w a hv hw
    rw [mem_turns_output] at hv hw
    have hop : ∀ u, u ∈ order → u ≠ start_vertex → u ≠ end_vertex → g.IsOp u :=
      fun u hu hs he => ⟨(htop.mem_iff u).mp hu, hs, he⟩
    apply out_alias_inj data_scan counter htop (hop v hv.1 hv.2.1 hv.2.2.1)
      (hop w hw.1 hw.2.1 hw.2.2.1)
    exact hv.2.2.2.symm.trans hw.2.2.2
  · intro v key a hv hplace
    rw [mem_turns_output] at hv
    rw [mem_turns_place] at hplace
    obtain ⟨j, c, hj, he⟩ := mem_placed.mp hplace.2
    have hop : g.IsOp v := ⟨(htop.mem_iff v).mp hv.1, hv.2.1, hv.2.2.1⟩
    apply out_alias_ne_column data_scan counter htop hplace.1 hsmall hop
      (List.getElem?_eq_some_iff.mp hj).1
    exact hv.2.2.2.symm.trans (event.place.inj he).2

end laws

end hero.runtime_layer
