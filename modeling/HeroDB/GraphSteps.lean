-- What each function of the sequential executor changes: the counter, the vertices, the edges,
-- the stores and the trace, one lemma for each.
import HeroDB.QueryGraph
import Mathlib.Logic.Function.Iterate

namespace hero.runtime_layer

/-! ## Updates of the graph -/

namespace query_graph

variable (g : query_graph)

@[simp] theorem modify_vertex_vertex_self (v : Nat) (f : primitive_node → primitive_node) :
    (g.modify_vertex v f).vertex v = f (g.vertex v) := by simp [modify_vertex]

theorem modify_vertex_vertex_ne {v w : Nat} (f : primitive_node → primitive_node) (h : w ≠ v) :
    (g.modify_vertex v f).vertex w = g.vertex w := by simp [modify_vertex, h]

@[simp] theorem modify_vertex_edge (v : Nat) (f : primitive_node → primitive_node) :
    (g.modify_vertex v f).edge = g.edge := rfl

theorem mem_in_edges {v e : Nat} : e ∈ g.in_edges v ↔ e < g.ends.length ∧ g.target e = v := by
  simp [in_edges]

theorem mem_out_edges {v e : Nat} : e ∈ g.out_edges v ↔ e < g.ends.length ∧ g.source e = v := by
  simp [out_edges]

theorem out_edges_nodup (v : Nat) : (g.out_edges v).Nodup := List.nodup_range.filter _

/-- The two ends of an edge, as the list of ends has them. -/
theorem ends_mem {e : Nat} (h : e < g.ends.length) : (g.source e, g.target e) ∈ g.ends := by
  simp only [source, target, List.getD, List.getElem?_eq_getElem h, Option.getD_some]
  exact List.getElem_mem h

/-- Two graphs with the same vertices and ends: a run changes only what is on them. -/
structure SameShape (g h : query_graph) : Prop where
  ends : h.ends = g.ends
  num_vertices : h.num_vertices = g.num_vertices
  execution_environment : h.execution_environment = g.execution_environment

namespace SameShape

variable {g h k : query_graph}

theorem refl (g : query_graph) : SameShape g g := ⟨rfl, rfl, rfl⟩

theorem trans (h1 : SameShape g h) (h2 : SameShape h k) : SameShape g k :=
  ⟨h2.ends.trans h1.ends, h2.num_vertices.trans h1.num_vertices,
    h2.execution_environment.trans h1.execution_environment⟩

theorem source (h1 : SameShape g h) (e : Nat) : h.source e = g.source e := by
  unfold query_graph.source; rw [h1.ends]

theorem target (h1 : SameShape g h) (e : Nat) : h.target e = g.target e := by
  unfold query_graph.target; rw [h1.ends]

theorem in_edges (h1 : SameShape g h) (v : Nat) : h.in_edges v = g.in_edges v := by
  unfold query_graph.in_edges; simp only [h1.ends, h1.target]

theorem out_edges (h1 : SameShape g h) (v : Nat) : h.out_edges v = g.out_edges v := by
  unfold query_graph.out_edges; simp only [h1.ends, h1.source]

end SameShape

end query_graph

open query_graph (SameShape)

/-! ## Loops over edges -/

namespace Machine

variable (m : Machine)

@[simp] theorem modify_edges_nil (f : data_edge → data_edge) : m.modify_edges [] f = m := rfl

@[simp] theorem modify_edges_cons (e : Nat) (es : List Nat) (f : data_edge → data_edge) :
    m.modify_edges (e :: es) f = (m.modify_edge e f).modify_edges es f := rfl

/-- The loop changes nothing but edges. -/
theorem modify_edges_eq (es : List Nat) (f : data_edge → data_edge) :
    ∃ edge, m.modify_edges es f = { m with dag := { m.dag with edge := edge } } := by
  induction es generalizing m with
  | nil => exact ⟨m.dag.edge, rfl⟩
  | cons e es ih => exact ih (m.modify_edge e f)

section frame

variable (es : List Nat) (f : data_edge → data_edge)

@[simp] theorem modify_edges_counter :
    (m.modify_edges es f).total_data_set_in_device = m.total_data_set_in_device := by
  obtain ⟨edge, h⟩ := modify_edges_eq m es f; rw [h]

@[simp] theorem modify_edges_stores : (m.modify_edges es f).stores = m.stores := by
  obtain ⟨edge, h⟩ := modify_edges_eq m es f; rw [h]

@[simp] theorem modify_edges_trace : (m.modify_edges es f).trace = m.trace := by
  obtain ⟨edge, h⟩ := modify_edges_eq m es f; rw [h]

@[simp] theorem modify_edges_kernels :
    (m.modify_edges es f).mKernelDictionary = m.mKernelDictionary := by
  obtain ⟨edge, h⟩ := modify_edges_eq m es f; rw [h]

@[simp] theorem modify_edges_results : (m.modify_edges es f).results = m.results := by
  obtain ⟨edge, h⟩ := modify_edges_eq m es f; rw [h]

@[simp] theorem modify_edges_vertex : (m.modify_edges es f).dag.vertex = m.dag.vertex := by
  obtain ⟨edge, h⟩ := modify_edges_eq m es f; rw [h]

theorem modify_edges_shape : SameShape m.dag (m.modify_edges es f).dag := by
  obtain ⟨edge, h⟩ := modify_edges_eq m es f; rw [h]; exact ⟨rfl, rfl, rfl⟩

end frame

/-- Each edge of the loop is updated once. -/
theorem modify_edges_edge {es : List Nat} (f : data_edge → data_edge) (hes : es.Nodup) (e : Nat) :
    (m.modify_edges es f).dag.edge e = if e ∈ es then f (m.dag.edge e) else m.dag.edge e := by
  induction es generalizing m with
  | nil => simp
  | cons a es ih =>
    obtain ⟨ha, hes⟩ := List.nodup_cons.mp hes
    rw [modify_edges_cons, ih _ hes]
    by_cases hea : e = a
    · subst hea
      simp [ha, modify_edge, query_graph.modify_edge]
    · simp [hea, modify_edge, query_graph.modify_edge]

end Machine

/-! ## A new column -/

section load

variable (v : Nat) (m : Machine) (c : Int × List Word)

/-- A new column takes the next alias. -/
theorem load_column_counter :
    (load_column v m c).total_data_set_in_device = next_counter m.total_data_set_in_device := by
  simp [load_column, Machine.log, Machine.modify_vertex, place_data, get_alias]

/-- A new column goes into both stores under its alias. -/
theorem load_column_stores :
    (load_column v m c).stores = m.stores.map (fun st => task_layer.add_data st
      (int_of_size (next_counter m.total_data_set_in_device)) c.2 (m.dag.vertex v).device) := by
  simp [load_column, Machine.log, Machine.modify_vertex, place_data, get_alias]

theorem load_column_trace :
    (load_column v m c).trace = m.trace ++
      [.place c.1 (int_of_size (next_counter m.total_data_set_in_device))] := by
  simp [load_column, Machine.log, Machine.modify_vertex, place_data, get_alias]

theorem load_column_results : (load_column v m c).results = m.results := by
  simp [load_column, Machine.log, Machine.modify_vertex, place_data, get_alias]

/-- An out-edge of the scan is resolved when it carries the key of the column. -/
theorem load_column_edge (e : Nat) :
    (load_column v m c).dag.edge e =
      if e ∈ m.dag.out_edges v then
        resolve_edge c.1 (int_of_size (next_counter m.total_data_set_in_device)) c.2.length
          (m.dag.edge e)
      else m.dag.edge e := by
  simp only [load_column, Machine.log]
  rw [Machine.modify_edges_edge _ _ (m.dag.out_edges_nodup v)]
  simp [Machine.modify_vertex, place_data, get_alias]

theorem load_column_shape : SameShape m.dag (load_column v m c).dag :=
  SameShape.trans (h := ((place_data v c.2 m).2.modify_vertex v _).dag) ⟨rfl, rfl, rfl⟩
    (Machine.modify_edges_shape _ _ _)

theorem load_column_vertex {w : Nat} (h : w ≠ v) :
    (load_column v m c).dag.vertex w = m.dag.vertex w := by
  simp [load_column, Machine.log, Machine.modify_vertex, place_data,
    query_graph.modify_vertex_vertex_ne _ _ h]

theorem load_column_name (w : Nat) :
    ((load_column v m c).dag.vertex w).mKernelName = (m.dag.vertex w).mKernelName := by
  by_cases h : w = v
  · subst h
    simp [load_column, Machine.log, Machine.modify_vertex, place_data]
  · rw [load_column_vertex v m c h]

theorem load_column_device (w : Nat) :
    ((load_column v m c).dag.vertex w).device = (m.dag.vertex w).device := by
  by_cases h : w = v
  · subst h
    simp [load_column, Machine.log, Machine.modify_vertex, place_data, primitive_node.device]
  · rw [load_column_vertex v m c h]

end load

/-- What `load_data` makes of one out-edge, from the counter before it: each column in turn
takes the edge when the edge carries its key. -/
def resolved (counter : Nat) : List (Int × List Word) → data_edge → data_edge
  | [], d => d
  | c :: rest, d => resolved (next_counter counter) rest
      (resolve_edge c.1 (int_of_size (next_counter counter)) c.2.length d)

/-- The events of `load_data`: each column with the alias that it gets. -/
def placed (counter : Nat) : List (Int × List Word) → List event
  | [] => []
  | c :: rest =>
    .place c.1 (int_of_size (next_counter counter)) :: placed (next_counter counter) rest

section load

variable (v : Nat) (cs : List (Int × List Word)) (m : Machine)

/-- Each column takes one alias, so the counter goes on by one for each. -/
theorem load_columns_counter :
    (cs.foldl (load_column v) m).total_data_set_in_device =
      next_counter^[cs.length] m.total_data_set_in_device := by
  induction cs generalizing m with
  | nil => rfl
  | cons c rest ih => rw [List.foldl_cons, ih, load_column_counter]; rfl

theorem load_columns_trace :
    (cs.foldl (load_column v) m).trace = m.trace ++ placed m.total_data_set_in_device cs := by
  induction cs generalizing m with
  | nil => simp [placed]
  | cons c rest ih =>
    rw [List.foldl_cons, ih, load_column_trace, load_column_counter]
    simp [placed]

theorem load_columns_results : (cs.foldl (load_column v) m).results = m.results := by
  induction cs generalizing m with
  | nil => rfl
  | cons c rest ih => rw [List.foldl_cons, ih, load_column_results]

theorem load_columns_shape : SameShape m.dag (cs.foldl (load_column v) m).dag := by
  induction cs generalizing m with
  | nil => exact .refl _
  | cons c rest ih => exact (load_column_shape v m c).trans (ih _)

/-- The columns come to an out-edge one after the other, each with the alias that it gets. -/
theorem load_columns_edge (e : Nat) :
    (cs.foldl (load_column v) m).dag.edge e =
      if e ∈ m.dag.out_edges v then resolved m.total_data_set_in_device cs (m.dag.edge e)
      else m.dag.edge e := by
  induction cs generalizing m with
  | nil => simp [resolved]
  | cons c rest ih =>
    rw [List.foldl_cons, ih, (load_column_shape v m c).out_edges, load_column_edge,
      load_column_counter]
    split
    · rfl
    · rfl

theorem load_columns_vertex {w : Nat} (h : w ≠ v) :
    (cs.foldl (load_column v) m).dag.vertex w = m.dag.vertex w := by
  induction cs generalizing m with
  | nil => rfl
  | cons c rest ih => rw [List.foldl_cons, ih, load_column_vertex v m c h]

theorem load_columns_name (w : Nat) :
    ((cs.foldl (load_column v) m).dag.vertex w).mKernelName =
      (m.dag.vertex w).mKernelName := by
  induction cs generalizing m with
  | nil => rfl
  | cons c rest ih => rw [List.foldl_cons, ih, load_column_name]

theorem load_columns_device (w : Nat) :
    ((cs.foldl (load_column v) m).dag.vertex w).device = (m.dag.vertex w).device := by
  induction cs generalizing m with
  | nil => rfl
  | cons c rest ih => rw [List.foldl_cons, ih, load_column_device]

end load

section load

variable (data_scan : ScanMap) (v : Nat) (m : Machine)

/-- The counter after `load_data`. -/
theorem load_data_counter :
    (load_data data_scan v m).total_data_set_in_device =
      next_counter^[data_scan.entries.length] m.total_data_set_in_device :=
  load_columns_counter v _ _

theorem load_data_trace :
    (load_data data_scan v m).trace =
      m.trace ++ placed m.total_data_set_in_device data_scan.entries :=
  load_columns_trace v _ _

theorem load_data_results : (load_data data_scan v m).results = m.results :=
  load_columns_results v _ _

theorem load_data_shape : SameShape m.dag (load_data data_scan v m).dag :=
  SameShape.trans (h := (m.modify_vertex v _).dag) ⟨rfl, rfl, rfl⟩ (load_columns_shape v _ _)

/-- The out-edges of the scan after `load_data`. -/
theorem load_data_edge (e : Nat) :
    (load_data data_scan v m).dag.edge e =
      if e ∈ m.dag.out_edges v then
        resolved m.total_data_set_in_device data_scan.entries (m.dag.edge e)
      else m.dag.edge e :=
  load_columns_edge v _ _ e

/-- `load_data` changes no other vertex. -/
theorem load_data_vertex {w : Nat} (h : w ≠ v) :
    (load_data data_scan v m).dag.vertex w = m.dag.vertex w := by
  rw [load_data, load_columns_vertex v _ _ h]
  simp [Machine.modify_vertex, query_graph.modify_vertex_vertex_ne _ _ h]

theorem load_data_name (w : Nat) :
    ((load_data data_scan v m).dag.vertex w).mKernelName = (m.dag.vertex w).mKernelName := by
  rw [load_data, load_columns_name]
  by_cases h : w = v
  · subst h; simp [Machine.modify_vertex]
  · rw [Machine.modify_vertex, query_graph.modify_vertex_vertex_ne _ _ h]

theorem load_data_device (w : Nat) :
    ((load_data data_scan v m).dag.vertex w).device = (m.dag.vertex w).device := by
  rw [load_data, load_columns_device]
  by_cases h : w = v
  · subst h; simp [Machine.modify_vertex, primitive_node.device]
  · rw [Machine.modify_vertex, query_graph.modify_vertex_vertex_ne _ _ h]

end load

/-! ## The inputs of a node -/

section input

variable (v : Nat) (es : List Nat) (m : Machine)

/-- The loop of `set_input` changes the node and the stores. -/
theorem set_input_edges_eq :
    ∃ stores, es.foldl (set_input_edge v) m =
      { m with
        stores := stores
        dag := m.dag.modify_vertex v (fun n =>
          es.foldl (fun n e => n.take_input (m.dag.edge e)) n) } := by
  induction es generalizing m with
  | nil => exact ⟨m.stores, by simp [query_graph.modify_vertex]⟩
  | cons e rest ih =>
    obtain ⟨stores, h⟩ := ih (set_input_edge v m e)
    refine ⟨stores, ?_⟩
    rw [List.foldl_cons, h]
    simp [set_input_edge, query_graph.modify_vertex]

/-- The node gets the aliases on its in-edges, in their order. -/
theorem take_inputs_data (edge : Nat → data_edge) (n : primitive_node) :
    (es.foldl (fun n e => n.take_input (edge e)) n).input_data =
      n.input_data ++ es.map (fun e => (edge e).data_pointer) := by
  induction es generalizing n with
  | nil => simp
  | cons e rest ih =>
    rw [List.foldl_cons, ih]
    simp [primitive_node.take_input]

/-- Inputs change the input aliases and the input size of a node, and nothing else. -/
theorem take_inputs_eq (edge : Nat → data_edge) (n : primitive_node) :
    ∃ data size, es.foldl (fun n e => n.take_input (edge e)) n =
      { n with input_data := data, input_size := size } := by
  induction es generalizing n with
  | nil => exact ⟨n.input_data, n.input_size, rfl⟩
  | cons e rest ih => exact ih (n.take_input (edge e))

@[simp] theorem take_inputs_device (edge : Nat → data_edge) (n : primitive_node) :
    (es.foldl (fun n e => n.take_input (edge e)) n).device = n.device := by
  obtain ⟨data, size, h⟩ := take_inputs_eq es edge n; rw [h]; rfl

@[simp] theorem set_input_counter :
    (set_input v m).total_data_set_in_device = m.total_data_set_in_device := by
  obtain ⟨stores, h⟩ := set_input_edges_eq v (m.dag.in_edges v) m; rw [set_input, h]

@[simp] theorem set_input_trace : (set_input v m).trace = m.trace := by
  obtain ⟨stores, h⟩ := set_input_edges_eq v (m.dag.in_edges v) m; rw [set_input, h]

@[simp] theorem set_input_edge_data : (set_input v m).dag.edge = m.dag.edge := by
  obtain ⟨stores, h⟩ := set_input_edges_eq v (m.dag.in_edges v) m; rw [set_input, h]; rfl

theorem set_input_shape : SameShape m.dag (set_input v m).dag := by
  obtain ⟨stores, h⟩ := set_input_edges_eq v (m.dag.in_edges v) m
  rw [set_input, h]
  exact ⟨rfl, rfl, rfl⟩

/-- `set_input` puts what is on the in-edges into the node. -/
theorem set_input_vertex_self :
    (set_input v m).dag.vertex v =
      (m.dag.in_edges v).foldl (fun n e => n.take_input (m.dag.edge e)) (m.dag.vertex v) := by
  obtain ⟨stores, h⟩ := set_input_edges_eq v (m.dag.in_edges v) m
  rw [set_input, h]
  simp

theorem set_input_vertex {w : Nat} (h : w ≠ v) :
    (set_input v m).dag.vertex w = m.dag.vertex w := by
  obtain ⟨stores, hs⟩ := set_input_edges_eq v (m.dag.in_edges v) m
  rw [set_input, hs]
  simp [query_graph.modify_vertex_vertex_ne _ _ h]

end input

/-! ## The output of a node -/

section output

variable (v : Nat) (m : Machine)

/-- The alias that the output of the next node gets. -/
def next_alias : Int := int_of_size (next_counter m.total_data_set_in_device)

@[simp] theorem prepare_output_buffer_counter :
    (prepare_output_buffer v m).total_data_set_in_device =
      next_counter m.total_data_set_in_device := by
  simp [prepare_output_buffer, Machine.log, prepare_output, get_alias]

@[simp] theorem prepare_output_buffer_trace :
    (prepare_output_buffer v m).trace = m.trace ++ [.output v (next_alias m)] := by
  simp [prepare_output_buffer, Machine.log, prepare_output, get_alias, next_alias]

/-- The output is as long as the input, even where the node asks for another size. -/
theorem prepare_output_buffer_stores :
    (prepare_output_buffer v m).stores = m.stores.map (fun st =>
      task_layer.add_data st (next_alias m)
        (List.replicate (m.dag.vertex v).input_size 0) (m.dag.vertex v).device) := by
  simp [prepare_output_buffer, Machine.log, prepare_output, get_alias, next_alias]

theorem prepare_output_buffer_shape : SameShape m.dag (prepare_output_buffer v m).dag :=
  SameShape.trans (h := (prepare_output v m).2.dag) ⟨rfl, rfl, rfl⟩
    (Machine.modify_edges_shape _ _ _)

/-- The size that a node asks for stays. Without one it is the input size. -/
theorem prepare_output_buffer_vertex_self :
    (prepare_output_buffer v m).dag.vertex v =
      { m.dag.vertex v with
        overall_output_size :=
          if (m.dag.vertex v).overall_output_size = 0 then (m.dag.vertex v).input_size
          else (m.dag.vertex v).overall_output_size
        output_data := (m.dag.vertex v).output_data ++ [next_alias m] } := by
  simp [prepare_output_buffer, Machine.log, prepare_output, get_alias, next_alias]

theorem prepare_output_buffer_vertex {w : Nat} (h : w ≠ v) :
    (prepare_output_buffer v m).dag.vertex w = m.dag.vertex w := by
  simp [prepare_output_buffer, Machine.log, prepare_output,
    query_graph.modify_vertex_vertex_ne _ _ h]

/-- The new alias goes onto the out-edges, with the output size of the node. -/
theorem prepare_output_buffer_edge (e : Nat) :
    (prepare_output_buffer v m).dag.edge e =
      if e ∈ m.dag.out_edges v then
        { m.dag.edge e with
          data_pointer := next_alias m
          data_size := ((prepare_output_buffer v m).dag.vertex v).overall_output_size }
      else m.dag.edge e := by
  simp only [prepare_output_buffer, Machine.log, Machine.modify_edges_vertex]
  rw [Machine.modify_edges_edge _ _ (m.dag.out_edges_nodup v)]
  simp [prepare_output, get_alias, next_alias]

end output

/-! ## A launch, and the display -/

section launch

variable (K : Kernels) (envi_type : Int) (v : Nat) (m : Machine)

@[simp] theorem compile_task_dag : (compile_task v m).dag = m.dag := rfl

@[simp] theorem compile_task_counter :
    (compile_task v m).total_data_set_in_device = m.total_data_set_in_device := rfl

@[simp] theorem compile_task_trace : (compile_task v m).trace = m.trace := rfl

@[simp] theorem compile_task_stores : (compile_task v m).stores = m.stores := rfl

@[simp] theorem execute_node_dag : (execute_node K envi_type v m).dag = m.dag := rfl

@[simp] theorem execute_node_counter :
    (execute_node K envi_type v m).total_data_set_in_device = m.total_data_set_in_device := rfl

@[simp] theorem execute_node_trace :
    (execute_node K envi_type v m).trace =
      m.trace ++ [.execute v (launch_of envi_type (m.dag.vertex v))] := rfl

/-- The display reads: graph, counter and trace stay. -/
theorem display_edges_frame (es : List Nat) :
    (es.foldl display_edge m).dag = m.dag ∧
      (es.foldl display_edge m).total_data_set_in_device = m.total_data_set_in_device ∧
      (es.foldl display_edge m).trace = m.trace := by
  induction es generalizing m with
  | nil => exact ⟨rfl, rfl, rfl⟩
  | cons e rest ih => exact ih (display_edge m e)

@[simp] theorem display_result_dag : (display_result m).dag = m.dag :=
  (display_edges_frame m _).1

@[simp] theorem display_result_counter :
    (display_result m).total_data_set_in_device = m.total_data_set_in_device :=
  (display_edges_frame m _).2.1

@[simp] theorem display_result_trace : (display_result m).trace = m.trace :=
  (display_edges_frame m _).2.2

end launch

/-! ## The turn of an operation -/

/-- The machine after the turn of an operation. -/
def operate (K : Kernels) (v : Nat) (m : Machine) : Machine :=
  execute_node K m.dag.execution_environment v
    (compile_task v (prepare_output_buffer v (set_input v m)))

section operate

variable (K : Kernels) (v : Nat) (m : Machine)

/-- The turn of an operation keeps the vertices and the ends. -/
theorem operate_shape : SameShape m.dag (operate K v m).dag := by
  rw [operate, execute_node_dag, compile_task_dag]
  exact (set_input_shape v m).trans (prepare_output_buffer_shape v (set_input v m))

@[simp] theorem operate_counter :
    (operate K v m).total_data_set_in_device = next_counter m.total_data_set_in_device := by
  simp [operate]

/-- The turn logs the new alias, and then the launch. -/
theorem operate_trace :
    (operate K v m).trace = m.trace ++
      [.output v (next_alias m),
        .execute v (launch_of m.dag.execution_environment ((operate K v m).dag.vertex v))] := by
  simp [operate, next_alias]

theorem operate_results : (operate K v m).results = m.results := by
  obtain ⟨stores, h⟩ := set_input_edges_eq v (m.dag.in_edges v) m
  have hset : (set_input v m).results = m.results := by rw [set_input, h]
  rw [← hset]
  simp [operate, execute_node, compile_task, prepare_output_buffer, prepare_output, get_alias,
    Machine.log]

/-- The other vertices stay as they are. -/
theorem operate_vertex {w : Nat} (h : w ≠ v) :
    (operate K v m).dag.vertex w = m.dag.vertex w := by
  simp [operate, prepare_output_buffer_vertex _ _ h, set_input_vertex _ _ h]

/-- The node after its turn: its inputs, its output size, and the new alias. -/
theorem operate_vertex_self :
    (operate K v m).dag.vertex v =
      { (set_input v m).dag.vertex v with
        overall_output_size :=
          if ((set_input v m).dag.vertex v).overall_output_size = 0 then
            ((set_input v m).dag.vertex v).input_size
          else ((set_input v m).dag.vertex v).overall_output_size
        output_data := ((set_input v m).dag.vertex v).output_data ++ [next_alias m] } := by
  simp [operate, prepare_output_buffer_vertex_self, next_alias]

theorem operate_name (w : Nat) :
    ((operate K v m).dag.vertex w).mKernelName = (m.dag.vertex w).mKernelName := by
  by_cases h : w = v
  · subst h
    obtain ⟨data, size, heq⟩ := take_inputs_eq (m.dag.in_edges w) m.dag.edge (m.dag.vertex w)
    rw [operate_vertex_self, set_input_vertex_self, heq]
  · rw [operate_vertex K v m h]

theorem operate_device (w : Nat) :
    ((operate K v m).dag.vertex w).device = (m.dag.vertex w).device := by
  by_cases h : w = v
  · subst h
    obtain ⟨data, size, heq⟩ := take_inputs_eq (m.dag.in_edges w) m.dag.edge (m.dag.vertex w)
    rw [operate_vertex_self, set_input_vertex_self, heq]
    rfl
  · rw [operate_vertex K v m h]

/-- An edge that does not leave the operation stays. -/
theorem operate_edge_of_not_mem {e : Nat} (h : e ∉ m.dag.out_edges v) :
    (operate K v m).dag.edge e = m.dag.edge e := by
  rw [← (set_input_shape v m).out_edges] at h
  simp [operate, prepare_output_buffer_edge, h]

/-- An edge that leaves the operation carries its output. -/
theorem operate_edge_of_mem {e : Nat} (h : e ∈ m.dag.out_edges v) :
    ((operate K v m).dag.edge e).data_pointer = next_alias m ∧
      ((operate K v m).dag.edge e).data_size =
        ((operate K v m).dag.vertex v).overall_output_size := by
  rw [← (set_input_shape v m).out_edges] at h
  simp [operate, prepare_output_buffer_edge, h, next_alias]

/-- The launch reads the aliases on the in-edges and writes the new alias. -/
theorem operate_args (hin : (m.dag.vertex v).input_data = [])
    (hout : (m.dag.vertex v).output_data = []) (envi_type : Int) :
    (launch_of envi_type ((operate K v m).dag.vertex v)).args =
      (m.dag.in_edges v).map (fun e => (m.dag.edge e).data_pointer) ++ [next_alias m] := by
  have hdata := take_inputs_data (m.dag.in_edges v) m.dag.edge (m.dag.vertex v)
  obtain ⟨data, size, heq⟩ := take_inputs_eq (m.dag.in_edges v) m.dag.edge (m.dag.vertex v)
  rw [heq, hin, List.nil_append] at hdata
  simp only [launch_of, operate_vertex_self, set_input_vertex_self, heq, hout, ← hdata,
    List.nil_append]

end operate

end hero.runtime_layer
