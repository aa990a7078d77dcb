-- The turn of a vertex on one device, from the pop to the last flag, and the law that these turns
-- make the launches of the sequential executor.
import HeroDB.ExchangeRuns

namespace hero.morsel_driven

open runtime_layer query_graph

/-! ## The turn of a vertex -/

/-- The launches of a run, in order. -/
def launches (trace : List event) : List launch :=
  trace.filterMap (fun
    | .execute _ l => some l
    | _ => none)

@[simp] theorem launches_append (t t' : List event) :
    launches (t ++ t') = launches t ++ launches t' := List.filterMap_append

section turn

variable (K : Kernels) (dev : Device) (v : Nat) (m : Machine)

/-- The vertex is on the device. -/
def moved : Machine := m.modify_vertex v (set_device dev)

/-- The input size is the largest size on the in-edges. -/
def sized : Machine :=
  (moved dev v m).modify_vertex v (fun n =>
    { n with input_size := data_size_of_input (moved dev v m).dag v })

/-- The device thread is done with the vertex. -/
def prepared : Machine := prepare_output_buffer v (runtime_layer.set_input v (sized dev v m))

/-- The worker has executed the vertex. -/
def executed : Machine := execute_node K 0 v (compile_task v (prepared dev v m))

def set_flag (d : data_edge) : data_edge := { d with ready_for_next_step := true }

/-- The turn of a vertex on one device, from the pop to the last flag. -/
def exchange_vertex : Machine :=
  (executed K dev v m).modify_edges ((prepared dev v m).dag.out_edges v) set_flag

theorem prepared_launches : launches (prepared dev v m).trace = launches m.trace := by
  simp [prepared, sized, moved, Machine.modify_vertex, launches]

theorem executed_trace :
    (executed K dev v m).trace =
      (prepared dev v m).trace ++ [.execute v (launch_of 0 ((prepared dev v m).dag.vertex v))] := rfl

theorem exchange_vertex_launches :
    launches (exchange_vertex K dev v m).trace =
      launches m.trace ++ [launch_of 0 ((prepared dev v m).dag.vertex v)] := by
  rw [exchange_vertex, Machine.modify_edges_trace, executed_trace, launches_append,
    prepared_launches]
  rfl

end turn

/-- The machine after the turns of some vertices on one device. -/
def turns (K : Kernels) (dev : Device) (q : Query) (done : List Nat) : Machine :=
  done.foldl (fun m v => exchange_vertex K dev v m) q.loaded

theorem turns_nil (K : Kernels) (dev : Device) (q : Query) : turns K dev q [] = q.loaded := by
  rw [turns, List.foldl_nil]

theorem turns_concat (K : Kernels) (dev : Device) (q : Query) (done : List Nat) (v : Nat) :
    turns K dev q (done ++ [v]) = exchange_vertex K dev v (turns K dev q done) := by
  simp [turns]

theorem turns_launches_upto (K : Kernels) (dev : Device) (q : Query) (done rest : List Nat) :
    launches (turns K dev q done).trace <+: launches (turns K dev q (done ++ rest)).trace := by
  induction rest using List.reverseRecOn with
  | nil => simp
  | append_singleton rest v ih =>
    rw [← List.append_assoc, turns_concat, exchange_vertex_launches]
    exact ih.trans (List.prefix_append _ _)

/-! ## The inputs of a turn -/

section sizes

variable (f : Nat → data_edge)

theorem take_input_eq (n : primitive_node) (d : data_edge) :
    n.take_input d = { n with
      input_data := n.input_data ++ [d.data_pointer], input_size := max n.input_size d.data_size } := by
  unfold primitive_node.take_input
  congr 1
  rw [max_def_lt]

/-- The largest size on some edges. -/
def largest (es : List Nat) (size : Nat) : Nat :=
  es.foldl (fun size e => max size (f e).data_size) size

theorem largest_eq (es : List Nat) (size : Nat) : largest f es size = max size (largest f es 0) := by
  induction es generalizing size with
  | nil => simp [largest]
  | cons e rest ih =>
    have hstep : ∀ size, largest f (e :: rest) size = largest f rest (max size (f e).data_size) :=
      fun _ => rfl
    rw [hstep, hstep, ih, ih (max 0 _)]
    omega

theorem largest_pos {es : List Nat} (hes : es ≠ []) (h : ∀ e, 0 < (f e).data_size) :
    0 < largest f es 0 := by
  cases es with
  | nil => exact absurd rfl hes
  | cons e rest =>
    have hstep : largest f (e :: rest) 0 = largest f rest (max 0 (f e).data_size) := rfl
    have := h e
    rw [hstep, largest_eq]
    omega

/-- What the loop of `set_input` makes of a node. -/
theorem take_inputs_node (es : List Nat) (n : primitive_node) :
    es.foldl (fun n e => n.take_input (f e)) n =
      { n with
        input_data := n.input_data ++ es.map (fun e => (f e).data_pointer)
        input_size := largest f es n.input_size } := by
  induction es generalizing n with
  | nil => simp [largest]
  | cons e rest ih =>
    rw [List.foldl_cons, ih, take_input_eq]
    simp [largest]

theorem data_size_of_input_eq (g : query_graph) (v : Nat) :
    data_size_of_input g v = largest g.edge (g.in_edges v) 0 := by
  unfold data_size_of_input largest
  congr 1
  funext size e
  rw [max_def_lt]

end sizes

/-! ## The same turn in the two executors -/

/-- A machine of the exchange executor and one of the sequential executor agree on all that the
launches of the next vertices read. `pre` are the vertices that had their turn. -/
structure Agree (g : query_graph) (pre : List Nat) (m m' : Machine) : Prop where
  shape : SameShape g m.dag
  shape' : SameShape g m'.dag
  vertex : ∀ v, g.IsOp v → v ∉ pre → m.dag.vertex v = g.vertex v
  vertex' : ∀ v, v ∉ pre → m'.dag.vertex v = g.vertex v
  pointer : ∀ e, (m.dag.edge e).data_pointer = (m'.dag.edge e).data_pointer
  size : ∀ e, (m.dag.edge e).data_size = (m'.dag.edge e).data_size
  pos : ∀ e, 0 < (m.dag.edge e).data_size
  counter : m.total_data_set_in_device = m'.total_data_set_in_device
  launched : launches m.trace = launches m'.trace

section agree

variable {K : Kernels} {dev : Device} {g : query_graph} {pre : List Nat} {v : Nat} {m m' : Machine}

theorem sized_shape (dev : Device) (v : Nat) (m : Machine) :
    SameShape m.dag (sized dev v m).dag := ⟨rfl, rfl, rfl⟩

theorem prepared_shape (dev : Device) (v : Nat) (m : Machine) :
    SameShape m.dag (prepared dev v m).dag :=
  (sized_shape dev v m).trans
    ((set_input_shape v _).trans (prepare_output_buffer_shape v _))

/-- The node of the vertex after `set_input`: the exchange executor resets its input size first. -/
theorem set_input_agrees (h : Agree g pre m m') (hop : g.IsOp v) (hv : v ∉ pre)
    (hdev : (g.vertex v).device = dev) (hsize : (g.vertex v).input_size = 1)
    (hin : g.in_edges v ≠ []) :
    (runtime_layer.set_input v (sized dev v m)).dag.vertex v =
      (runtime_layer.set_input v m').dag.vertex v := by
  have hedges : (sized dev v m).dag.edge = m.dag.edge := rfl
  have hnode : (sized dev v m).dag.vertex v =
      { g.vertex v with input_size := largest m.dag.edge (g.in_edges v) 0 } := by
    have hmoved : data_size_of_input (moved dev v m).dag v = largest m.dag.edge (g.in_edges v) 0 := by
      rw [data_size_of_input_eq, ← h.shape.in_edges]
      rfl
    rw [sized, hmoved]
    simp only [moved, Machine.modify_vertex, modify_vertex_vertex_self, h.vertex v hop hv]
    rw [← hdev]
    rfl
  have hlargest : largest m'.dag.edge = largest m.dag.edge := by
    funext es size
    simp only [largest, h.size]
  have hpos := largest_pos m.dag.edge hin h.pos
  have hmax := largest_eq m.dag.edge (g.in_edges v)
  rw [set_input_vertex_self, set_input_vertex_self, (sized_shape dev v m).in_edges,
    h.shape.in_edges, h.shape'.in_edges, take_inputs_node, take_inputs_node, hnode, hedges,
    h.vertex' v hv, hlargest, hmax (largest _ _ _), hmax (g.vertex v).input_size, hsize]
  congr 1
  · simp only [h.pointer]
  · omega

/-- After the turn of an operation in the two executors, its node is the same. -/
theorem turn_vertex_agrees (h : Agree g pre m m') (hop : g.IsOp v) (hv : v ∉ pre)
    (hdev : (g.vertex v).device = dev) (hsize : (g.vertex v).input_size = 1)
    (hin : g.in_edges v ≠ []) :
    (prepared dev v m).dag.vertex v = (operate K v m').dag.vertex v := by
  have halias : next_alias (runtime_layer.set_input v (sized dev v m)) = next_alias m' := by
    simp [next_alias, sized, moved, Machine.modify_vertex, h.counter]
  rw [operate_vertex_self, prepared, prepare_output_buffer_vertex_self,
    set_input_agrees h hop hv hdev hsize hin, halias]

theorem prepared_edge (dev : Device) (v : Nat) (m : Machine) (e : Nat) :
    (prepared dev v m).dag.edge e =
      if e ∈ m.dag.out_edges v then
        { m.dag.edge e with
          data_pointer := next_alias m
          data_size := ((prepared dev v m).dag.vertex v).overall_output_size }
      else m.dag.edge e := by
  have hshape := ((sized_shape dev v m).trans (set_input_shape v _)).out_edges v
  rw [prepared, prepare_output_buffer_edge, hshape]
  simp [next_alias, sized, moved, Machine.modify_vertex]

theorem executed_dag (K : Kernels) (dev : Device) (v : Nat) (m : Machine) :
    (executed K dev v m).dag = (prepared dev v m).dag := by
  rw [executed, execute_node_dag, compile_task_dag]

theorem exchange_vertex_shape (K : Kernels) (dev : Device) (v : Nat) (m : Machine) :
    SameShape m.dag (exchange_vertex K dev v m).dag := by
  have hflags := Machine.modify_edges_shape (executed K dev v m)
    ((prepared dev v m).dag.out_edges v) set_flag
  rw [executed_dag] at hflags
  exact (prepared_shape dev v m).trans hflags

theorem exchange_vertex_edge (K : Kernels) (dev : Device) (v : Nat) (m : Machine) (e : Nat) :
    ((exchange_vertex K dev v m).dag.edge e).data_pointer =
        ((prepared dev v m).dag.edge e).data_pointer ∧
      ((exchange_vertex K dev v m).dag.edge e).data_size =
        ((prepared dev v m).dag.edge e).data_size := by
  rw [exchange_vertex, Machine.modify_edges_edge _ _ (query_graph.out_edges_nodup _ v), executed_dag]
  generalize (prepared dev v m).dag.edge e = d
  split
  · exact ⟨rfl, rfl⟩
  · exact ⟨rfl, rfl⟩

/-- The output of a node is not empty. -/
theorem prepared_output_size (hpos : 0 < ((runtime_layer.set_input v (sized dev v m)).dag.vertex
    v).input_size) : 0 < ((prepared dev v m).dag.vertex v).overall_output_size := by
  rw [prepared, prepare_output_buffer_vertex_self]
  simp only
  split
  · exact hpos
  · omega

/-- The turn of an operation keeps the agreement. -/
theorem agree_turn (K : Kernels) (hq : g.execution_environment = 0) (h : Agree g pre m m')
    (hop : g.IsOp v) (hv : v ∉ pre) (hdev : (g.vertex v).device = dev)
    (hsize : (g.vertex v).input_size = 1) (hin : g.in_edges v ≠ []) :
    Agree g (pre ++ [v]) (exchange_vertex K dev v m) (operate K v m') := by
  have hvertex := turn_vertex_agrees (K := K) h hop hv hdev hsize hin
  have hnext : next_alias m = next_alias m' := by rw [next_alias, next_alias, h.counter]
  have houtput : 0 < ((prepared dev v m).dag.vertex v).overall_output_size := by
    apply prepared_output_size
    have hpos := largest_pos m'.dag.edge hin (fun e => by rw [← h.size]; exact h.pos e)
    rw [set_input_agrees h hop hv hdev hsize hin, set_input_vertex_self, h.shape'.in_edges,
      take_inputs_node, largest_eq]
    simp only
    omega
  have hout : ∀ e, e ∈ m.dag.out_edges v ↔ e ∈ m'.dag.out_edges v := by
    intro e
    rw [h.shape.out_edges, h.shape'.out_edges]
  have hother : ∀ w, w ≠ v → (exchange_vertex K dev v m).dag.vertex w = m.dag.vertex w := by
    intro w hw
    rw [exchange_vertex, Machine.modify_edges_vertex, executed_dag, prepared,
      prepare_output_buffer_vertex _ _ hw, set_input_vertex _ _ hw]
    simp [sized, moved, Machine.modify_vertex, modify_vertex_vertex_ne _ _ hw]
  have hedge : ∀ e,
      (((prepared dev v m).dag.edge e).data_pointer =
        ((operate K v m').dag.edge e).data_pointer ∧
      ((prepared dev v m).dag.edge e).data_size = ((operate K v m').dag.edge e).data_size) ∧
        0 < ((prepared dev v m).dag.edge e).data_size := by
    intro e
    rw [prepared_edge]
    by_cases he : e ∈ m.dag.out_edges v
    · obtain ⟨hpointer, hsize'⟩ := operate_edge_of_mem K v m' ((hout e).mp he)
      rw [if_pos he, hpointer, hsize', ← hvertex, hnext]
      simp only [true_and]
      exact houtput
    · rw [if_neg he, operate_edge_of_not_mem K v m' (fun hmem => he ((hout e).mpr hmem))]
      exact ⟨⟨h.pointer e, h.size e⟩, h.pos e⟩
  refine ⟨?_, h.shape'.trans (operate_shape K v m'), ?_, ?_, ?_, ?_, ?_, ?_, ?_⟩
  · exact h.shape.trans (exchange_vertex_shape K dev v m)
  · intro w hw hpre
    simp only [List.mem_append, List.mem_singleton, not_or] at hpre
    rw [hother w hpre.2, h.vertex w hw hpre.1]
  · intro w hpre
    simp only [List.mem_append, List.mem_singleton, not_or] at hpre
    rw [operate_vertex K v m' hpre.2, h.vertex' w hpre.1]
  · intro e
    rw [(exchange_vertex_edge K dev v m e).1, (hedge e).1.1]
  · intro e
    rw [(exchange_vertex_edge K dev v m e).2, (hedge e).1.2]
  · intro e
    rw [(exchange_vertex_edge K dev v m e).2]
    exact (hedge e).2
  · rw [operate_counter, ← h.counter, exchange_vertex, Machine.modify_edges_counter]
    simp [executed, prepared, sized, moved, Machine.modify_vertex]
  · rw [exchange_vertex_launches, operate_trace, launches_append, h.launched, hvertex,
      h.shape'.execution_environment, hq]
    rfl

end agree

/-! ## All turns -/

/-- A query with all its operations on one device: each has an input and the input size of a new
node, edges have the size of a new edge or more, and no column is empty. -/
structure Query.OnOneDevice (q : Query) (dev : Device) : Prop where
  runnable : q.Runnable
  environment : q.dag.execution_environment = 0
  device : ∀ v, q.dag.IsOp v → (q.dag.vertex v).device = dev
  input_size : ∀ v, q.dag.IsOp v → (q.dag.vertex v).input_size = 1
  has_input : ∀ v, q.dag.IsOp v → q.dag.in_edges v ≠ []
  data_size : ∀ e, 0 < (q.dag.edge e).data_size
  columns : ∀ c ∈ q.data_scan.entries, c.2 ≠ []

/-- The sequential run of the query, up to the turns of some vertices. -/
def Query.sequential (q : Query) (K : Kernels) (pre : List Nat) : Machine :=
  execute_graph K q.data_scan pre (.before q.dag q.counter q.stores)

/-- The operations among some vertices. -/
def ops (pre : List Nat) : List Nat := pre.filter (fun v => v ≠ start_vertex ∧ v ≠ end_vertex)

theorem resolved_size_pos {counter : Nat} {cs : List (Int × List Word)} {d : data_edge}
    (hcs : ∀ c ∈ cs, c.2 ≠ []) (hd : 0 < d.data_size) : 0 < (resolved counter cs d).data_size := by
  induction cs generalizing counter d with
  | nil => exact hd
  | cons c rest ih =>
    refine ih (fun c' hc' => hcs c' (List.mem_cons_of_mem _ hc')) ?_
    unfold resolve_edge
    split
    · exact List.length_pos_iff.mpr (hcs c List.mem_cons_self)
    · exact hd

theorem launches_placed (counter : Nat) (cs : List (Int × List Word)) :
    launches (placed counter cs) = [] := by
  rw [launches, List.filterMap_eq_nil_iff]
  intro ev hev
  obtain ⟨j, c, _, rfl⟩ := mem_placed.mp hev
  rfl

section all

variable {K : Kernels} {dev : Device} {q : Query} {pre post : List Nat} {v : Nat} {m' : Machine}

/-- The turn of the scan, and the load of the exchange executor at its start. -/
theorem agree_load (h : q.OnOneDevice dev) (hdag : m'.dag = q.dag)
    (hcounter : m'.total_data_set_in_device = q.counter) (hlaunched : launches m'.trace = []) :
    Agree q.dag (pre ++ [start_vertex]) q.loaded (load_data q.data_scan start_vertex m') := by
  have hedge : ∀ e, ((q.loaded.dag.edge e).data_pointer =
        ((load_data q.data_scan start_vertex m').dag.edge e).data_pointer ∧
      (q.loaded.dag.edge e).data_size =
        ((load_data q.data_scan start_vertex m').dag.edge e).data_size) ∧
      0 < (q.loaded.dag.edge e).data_size := by
    intro e
    rw [Query.loaded, Machine.modify_edges_edge _ _ (q.dag.out_edges_nodup _), load_data_edge,
      load_data_edge, hdag, hcounter, Machine.before]
    by_cases he : e ∈ q.dag.out_edges start_vertex
    · rw [if_pos he, if_pos he]
      exact ⟨⟨rfl, rfl⟩, resolved_size_pos h.columns (h.data_size e)⟩
    · rw [if_neg he, if_neg he]
      exact ⟨⟨rfl, rfl⟩, h.data_size e⟩
  refine ⟨loaded_shape q, ?_, ?_, ?_, fun e => (hedge e).1.1, fun e => (hedge e).1.2,
    fun e => (hedge e).2, ?_, ?_⟩
  · rw [← hdag]
    exact load_data_shape _ _ _
  · intro w hw _
    rw [Query.loaded, Machine.modify_edges_vertex, load_data_vertex _ _ _ hw.2.1]
    rfl
  · intro w hw
    simp only [List.mem_append, List.mem_singleton, not_or] at hw
    rw [load_data_vertex _ _ _ hw.2, hdag]
  · rw [Query.loaded, Machine.modify_edges_counter, load_data_counter, load_data_counter, hcounter]
    rfl
  · rw [Query.loaded, Machine.modify_edges_trace, load_data_trace, load_data_trace,
      launches_append, launches_append, launches_placed, launches_placed, hlaunched]
    rfl

/-- The turn of the display. -/
theorem agree_display {m : Machine} (h : Agree q.dag pre m m') :
    Agree q.dag (pre ++ [end_vertex]) m (display_result m') := by
  have hsub : ∀ w, w ∉ pre ++ [end_vertex] → w ∉ pre :=
    fun _ hw hmem => hw (List.mem_append_left _ hmem)
  refine ⟨h.shape, by simpa using h.shape', fun w hw hpre => h.vertex w hw (hsub w hpre), ?_, ?_, ?_,
    h.pos, by simpa using h.counter, by simpa using h.launched⟩
  · intro w hpre
    rw [display_result_dag, h.vertex' w (hsub w hpre)]
  · simpa using h.pointer
  · simpa using h.size

/-- No operation has its turn before the scan. -/
theorem scan_comes_first (h : q.OnOneDevice dev) (hsplit : q.process_queue = pre ++ v :: post)
    (hop : q.dag.IsOp v) (hpre : start_vertex ∉ pre) : ops pre ≠ [] := by
  obtain ⟨e, he⟩ := List.exists_mem_of_ne_nil _ (h.has_input v hop)
  have hsource := h.runnable.topological.sources_done hsplit he
  have hlast := h.runnable.query.display_last _
    (q.dag.ends_mem (q.dag.mem_in_edges.mp he).1)
  apply List.ne_nil_of_mem (a := q.dag.source e)
  rw [ops, List.mem_filter]
  refine ⟨hsource, ?_⟩
  have hstart : q.dag.source e ≠ start_vertex := fun hs => hpre (hs ▸ hsource)
  simpa using ⟨hstart, hlast⟩

/-- Up to any place of the topological order the two executors agree, and before the scan the
sequential executor has launched nothing. -/
theorem agree_upto (K : Kernels) (h : q.OnOneDevice dev) (pre post : List Nat)
    (hsplit : q.process_queue = pre ++ post) :
    (start_vertex ∈ pre → Agree q.dag pre (turns K dev q (ops pre)) (q.sequential K pre)) ∧
    (start_vertex ∉ pre → ops pre = [] ∧ (q.sequential K pre).dag = q.dag ∧
      (q.sequential K pre).total_data_set_in_device = q.counter ∧
      launches (q.sequential K pre).trace = []) := by
  induction pre using List.reverseRecOn generalizing post with
  | nil => exact ⟨fun hs => by simp at hs, fun _ => ⟨rfl, rfl, rfl, rfl⟩⟩
  | append_singleton pre v ih =>
    have hsplit' : q.process_queue = pre ++ v :: post := by simpa using hsplit
    obtain ⟨ihscan, ihbefore⟩ := ih (v :: post) hsplit'
    have hlt : v < q.dag.num_vertices := (h.runnable.topological.mem_iff v).mp (by simp [hsplit'])
    have hfresh := h.runnable.topological.not_mem_prefix hsplit'
    have hname : ((q.sequential K pre).dag.vertex v).mKernelName =
        (q.dag.vertex v).mKernelName := by
      by_cases hs : start_vertex ∈ pre
      · rw [(ihscan hs).vertex' v hfresh]
      · rw [(ihbefore hs).2.1]
    have hturn : q.sequential K (pre ++ [v]) =
        execute_vertex K q.data_scan (q.sequential K pre) v := by
      simp [Query.sequential, execute_graph]
    rw [hturn]
    rcases execute_vertex_cases K q.data_scan h.runnable.query hlt hname
      with ⟨rfl, he⟩ | ⟨rfl, he⟩ | ⟨hop, he⟩
    · obtain ⟨hops, hdag, hcounter, hlaunched⟩ := ihbefore hfresh
      have hops' : ops (pre ++ [start_vertex]) = [] := by
        rw [ops, List.filter_append, ← ops, hops]
        simp
      rw [he, hops', turns_nil]
      refine ⟨fun _ => agree_load h hdag hcounter hlaunched, fun hs => ?_⟩
      simp at hs
    · have hops' : ops (pre ++ [end_vertex]) = ops pre := by simp [ops, List.filter_append]
      have hmem : start_vertex ∈ pre ++ [end_vertex] ↔ start_vertex ∈ pre := by
        simp [start_vertex, end_vertex]
      rw [he, hops', hmem]
      refine ⟨fun hs => agree_display (ihscan hs), fun hs => ?_⟩
      simpa using ihbefore hs
    · have hops' : ops (pre ++ [v]) = ops pre ++ [v] := by
        simp [ops, List.filter_append, hop.2.1, hop.2.2]
      have hmem : start_vertex ∈ pre ++ [v] ↔ start_vertex ∈ pre := by
        simp [Ne.symm hop.2.1]
      rw [he, hops', hmem, turns_concat]
      refine ⟨fun hs => ?_, fun hs => ?_⟩
      · exact agree_turn K h.environment (ihscan hs) hop hfresh (h.device v hop)
          (h.input_size v hop) (h.has_input v hop)
      · exact absurd (ihbefore hs).1 (scan_comes_first h hsplit' hop hs)

/-- The turns of all operations make the launches of the sequential executor. -/
theorem turns_launches (K : Kernels) (h : q.OnOneDevice dev) :
    launches (turns K dev q q.operations).trace =
      launches (execute_graph K q.data_scan q.process_queue
        (.before q.dag q.counter q.stores)).trace := by
  have hagree := (agree_upto K h q.process_queue [] (by simp)).1
    (h.runnable.topological.start_mem h.runnable.query)
  exact hagree.launched

end all

end hero.morsel_driven
