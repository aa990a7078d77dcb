-- The query graph of the runtime layer and its sequential executor: the primitive nodes, the
-- data edges, the alias counter, and the functions from `load_data` to `execute_graph`.
import HeroDB.DataInterface
import Mathlib.Logic.Function.Basic

namespace hero.runtime_layer

/-! ## The data model -/

/-- A primitive node: its task, and what it reads, writes and launches. -/
structure primitive_node where
  mKernelName : String
  additional_parameters : List Int
  input_data : List Int
  output_data : List Int
  input_to_output_ratio : Nat
  overall_output_size : Nat
  no_of_input_required : Nat
  no_of_parameters : Nat
  input_size : Nat
  pID : Nat
  dID : Nat

/-- A node as its constructor leaves it. -/
def primitive_node.fresh (mKernelName : String) : primitive_node :=
  { mKernelName, additional_parameters := [], input_data := [], output_data := []
    input_to_output_ratio := 1, overall_output_size := 0, no_of_input_required := 1
    no_of_parameters := 1, input_size := 1, pID := 0, dID := 0 }

def primitive_node.device (n : primitive_node) : Device := (n.pID, n.dID)

def primitive_node.add_parameter (n : primitive_node) (parameter : Int) : primitive_node :=
  if n.no_of_parameters > n.additional_parameters.length then
    { n with additional_parameters := n.additional_parameters ++ [parameter] }
  else n

/-- An edge: the alias of its data, the size, and the flag that the exchange executor sets
when the data is there. -/
structure data_edge where
  data_pointer : Int
  data_size : Nat
  ready_for_next_step : Bool
  input_ID_source : Int

/-- An edge with its default values, and the given alias or scan key. -/
def data_edge.fresh (data_pointer : Int) : data_edge :=
  { data_pointer, data_size := 1, ready_for_next_step := false, input_ID_source := -1 }

/-- A query graph. A vertex is its number in the vertex vector, and an edge is its number in
the order of the `add_edge` calls. -/
structure query_graph where
  execution_environment : Int
  num_vertices : Nat
  ends : List (Nat × Nat)
  vertex : Nat → primitive_node
  edge : Nat → data_edge

/-- The constructor adds the scan vertex first. -/
def start_vertex : Nat := 0

/-- The constructor adds the display vertex second. -/
def end_vertex : Nat := 1

namespace query_graph

variable (g : query_graph)

def source (e : Nat) : Nat := (g.ends.getD e (0, 0)).1

def target (e : Nat) : Nat := (g.ends.getD e (0, 0)).2

/-- The in-edges of a vertex, in insertion order. -/
def in_edges (v : Nat) : List Nat :=
  (List.range g.ends.length).filter (fun e => g.target e = v)

/-- The out-edges of a vertex, in insertion order. -/
def out_edges (v : Nat) : List Nat :=
  (List.range g.ends.length).filter (fun e => g.source e = v)

def modify_vertex (v : Nat) (f : primitive_node → primitive_node) : query_graph :=
  { g with vertex := Function.update g.vertex v (f (g.vertex v)) }

def modify_edge (e : Nat) (f : data_edge → data_edge) : query_graph :=
  { g with edge := Function.update g.edge e (f (g.edge e)) }

/-- The graph of the constructor: the scan vertex and the display vertex. -/
def empty : query_graph :=
  { execution_environment := 0, num_vertices := 2, ends := []
    vertex := Function.update (fun _ => primitive_node.fresh "data_display") start_vertex
      { primitive_node.fresh "data_scan" with no_of_input_required := 0 }
    edge := fun _ => data_edge.fresh 0 }

/-- `add_vertex` gives the new vertex the next number. -/
def add_vertex (n : primitive_node) : query_graph :=
  { g with
    num_vertices := g.num_vertices + 1
    vertex := Function.update g.vertex g.num_vertices n }

def add_edge (u v : Nat) (d : data_edge) : query_graph :=
  { g with
    ends := g.ends ++ [(u, v)]
    edge := Function.update g.edge g.ends.length d }

end query_graph

/-- `data_scan`: the columns to load, in the order of their keys. -/
structure ScanMap where
  entries : List (Int × List Word)
  sorted : entries.Pairwise (fun a b => a.1 < b.1)
  int_keys : ∀ c ∈ entries, -2 ^ 31 ≤ c.1 ∧ c.1 < 2 ^ 31

/-- A call of `execute`: what `execute_node` passes to it. -/
structure launch where
  envi_type : Int
  kernel : String
  device : Device
  args : List Int
  params : List Int
  globalSize : Nat
deriving DecidableEq

/-- What a run does, in order: a column of `data_scan` gets an alias, a vertex gets an output
alias, and a vertex is launched. -/
inductive event
  | place (key data_pointer : Int)
  | output (v : Nat) (data_pointer : Int)
  | execute (v : Nat) (l : launch)
deriving DecidableEq

/-- A kernel by its name: from the words of its arguments, its parameters and its global size
to the words that it leaves in its last argument, or `none` for undefined behaviour. The
kernels of the plans write no other argument. -/
abbrev kernel_run := String → List (List Word) → List Int → Nat → Option (List Word)

/-- The OpenCL kernels and the C++ primitives. -/
structure Kernels where
  openCL : kernel_run
  cpp : kernel_run

/-- The graph with the globals that a run changes. `stores` is `none` after undefined behaviour: the
run ends there, and what the rest of the queue would add to `trace` is never done. -/
structure Machine where
  dag : query_graph
  total_data_set_in_device : Nat
  mKernelDictionary : List (String × Device)
  stores : Option Stores
  trace : List event
  results : List (List Word)
  total_result_size : Nat

namespace Machine

variable (m : Machine)

def modify_vertex (v : Nat) (f : primitive_node → primitive_node) : Machine :=
  { m with dag := m.dag.modify_vertex v f }

def modify_edge (e : Nat) (f : data_edge → data_edge) : Machine :=
  { m with dag := m.dag.modify_edge e f }

/-- A loop over edges that changes each one. -/
def modify_edges (es : List Nat) (f : data_edge → data_edge) : Machine :=
  es.foldl (fun m e => m.modify_edge e f) m

def log (ev : event) : Machine := { m with trace := m.trace ++ [ev] }

end Machine

/-! ## The nodes -/

/-- `++total_data_set_in_device`, a `size_t`. -/
def next_counter (n : Nat) : Nat := (n + 1) % 2 ^ 64

/-- The alias is the `int` of the new counter. -/
def get_alias (m : Machine) : Int × Machine :=
  (int_of_size (next_counter m.total_data_set_in_device),
    { m with total_data_set_in_device := next_counter m.total_data_set_in_device })

/-- The alias of the new data, and the machine with the data placed. -/
def place_data (v : Nat) (data : List Word) (m : Machine) : Int × Machine :=
  ((get_alias m).1,
    { (get_alias m).2 with
      stores := m.stores.map (fun st =>
        task_layer.add_data st (get_alias m).1 data (m.dag.vertex v).device)
      dag := m.dag.modify_vertex v (fun n =>
        { n with input_data := n.input_data ++ [(get_alias m).1] }) })

/-- The alias of the output, and the machine with a buffer of zeros for it. The zeros are copied from
an array of `calloc_size` words, so the size is taken to be below 2^32. -/
def prepare_output (v : Nat) (m : Machine) : Int × Machine :=
  ((get_alias m).1,
    { (get_alias m).2 with
      stores := m.stores.map (fun st =>
        task_layer.add_data st (get_alias m).1
          (List.replicate (m.dag.vertex v).input_size 0) (m.dag.vertex v).device)
      dag := m.dag.modify_vertex v (fun n =>
        { n with
          overall_output_size :=
            if n.overall_output_size = 0 then n.input_size else n.overall_output_size
          output_data := n.output_data ++ [(get_alias m).1] }) })

/-- The kernel is built for the device of the node. The build succeeds. -/
def compile_task (v : Nat) (m : Machine) : Machine :=
  { m with mKernelDictionary :=
      ((m.dag.vertex v).mKernelName, (m.dag.vertex v).device) :: m.mKernelDictionary }

/-- `openCL_layer::execute`: each argument is looked up on the device, and a missing one is
undefined behaviour. -/
def execute_openCL (run : kernel_run) (l : launch) (st : Stores) : Option Stores := do
  let buffers ← l.args.mapM (fun a => st.openCL.lookup (a, l.device))
  let out ← l.args.getLast?
  let words ← run l.kernel buffers l.params l.globalSize
  return { st with openCL := st.openCL.insert (out, l.device) words }

/-- `cpp_layer::execute`: each argument is a pointer of the C++ dictionary. -/
def execute_cpp (run : kernel_run) (l : launch) (st : Stores) : Option Stores := do
  let arrays ← l.args.mapM (fun a => st.cpp.lookup a)
  let out ← l.args.getLast?
  let words ← run l.kernel arrays l.params l.globalSize
  return { st with cpp := st.cpp.insert out words }

/-- The call of `execute` that `execute_node` makes. -/
def launch_of (envi_type : Int) (n : primitive_node) : launch :=
  { envi_type, kernel := n.mKernelName, device := n.device, args := n.input_data ++ n.output_data
    params := n.additional_parameters
    globalSize := n.input_size / n.input_to_output_ratio }

/-- A kernel that is not in `mKernelDictionary` is undefined behaviour in OpenCL. The call is in
`trace` also when the run ended before it, which only `stores` tells. -/
def execute_node (K : Kernels) (envi_type : Int) (v : Nat) (m : Machine) : Machine :=
  { m.log (.execute v (launch_of envi_type (m.dag.vertex v))) with
    stores :=
      if envi_type = 0 then
        if ((m.dag.vertex v).mKernelName, (m.dag.vertex v).device) ∈ m.mKernelDictionary then
          m.stores.bind (execute_openCL K.openCL (launch_of envi_type (m.dag.vertex v)))
        else none
      else m.stores.bind (execute_cpp K.cpp (launch_of envi_type (m.dag.vertex v))) }

/-! ## The graph -/

/-- The edge takes the alias and the size of the column whose key it carries. -/
def resolve_edge (key assignedID : Int) (size : Nat) (d : data_edge) : data_edge :=
  if d.data_pointer = key then { d with data_pointer := assignedID, data_size := size } else d

/-- One turn of the loop of `load_data`. -/
def load_column (v : Nat) (m : Machine) (d_ : Int × List Word) : Machine :=
  (((place_data v d_.2 m).2.modify_vertex v (fun n => { n with input_size := d_.2.length })
    ).modify_edges (m.dag.out_edges v) (resolve_edge d_.1 (place_data v d_.2 m).1 d_.2.length)
    ).log (.place d_.1 (place_data v d_.2 m).1)

def load_data (data_scan : ScanMap) (v : Nat) (m : Machine) : Machine :=
  data_scan.entries.foldl (load_column v)
    (m.modify_vertex v (fun n => { n with no_of_input_required := data_scan.entries.length }))

/-- The transfer of one input, when its source is on another device. -/
def transfer_input (m : Machine) (e : Nat) : Option Stores :=
  if (m.dag.vertex (m.dag.source e)).device ≠ (m.dag.vertex (m.dag.target e)).device then
    m.stores.bind (fun st =>
      (openCL_layer.transfer_data openCL_layer.cl_success st.openCL (m.dag.edge e).data_pointer
        (m.dag.vertex (m.dag.source e)).device (m.dag.vertex (m.dag.target e)).device
        (m.dag.edge e).data_size).map (fun d => { st with openCL := d }))
  else m.stores

/-- One input of a node: its alias is appended, and the input size grows to its size. -/
def primitive_node.take_input (n : primitive_node) (d : data_edge) : primitive_node :=
  { n with
    input_data := n.input_data ++ [d.data_pointer]
    input_size := if n.input_size < d.data_size then d.data_size else n.input_size }

/-- One turn of the loop of `set_input`. -/
def set_input_edge (v : Nat) (m : Machine) (e : Nat) : Machine :=
  { m with
    stores := transfer_input m e
    dag := m.dag.modify_vertex v (fun n => n.take_input (m.dag.edge e)) }

def set_input (v : Nat) (m : Machine) : Machine :=
  (m.dag.in_edges v).foldl (set_input_edge v) m

def prepare_output_buffer (v : Nat) (m : Machine) : Machine :=
  ((prepare_output v m).2.modify_edges (m.dag.out_edges v) (fun d =>
    { d with
      data_pointer := (prepare_output v m).1
      data_size := ((prepare_output v m).2.dag.vertex v).overall_output_size })
    ).log (.output v (prepare_output v m).1)

/-- One turn of the loop of `display_result`. The size goes through an `int`. -/
def display_edge (m : Machine) (e : Nat) : Machine :=
  let size := size_of_int (int_of_size (m.dag.edge e).data_size)
  let column := m.stores.bind (fun st =>
    if m.dag.execution_environment = 0 then
      openCL_layer.get_data openCL_layer.cl_success st.openCL (m.dag.edge e).data_pointer
        (m.dag.vertex (m.dag.source e)).device size
    else cpp_layer.get_data st.cpp (m.dag.edge e).data_pointer size)
  { m with
    stores := if column.isSome then m.stores else none
    results := m.results ++ column.toList
    total_result_size := size }

def display_result (m : Machine) : Machine :=
  (m.dag.in_edges end_vertex).foldl display_edge m

/-- One turn of the loop of `execute_graph`. -/
def execute_vertex (K : Kernels) (data_scan : ScanMap) (m : Machine) (v : Nat) : Machine :=
  if (m.dag.vertex v).mKernelName = "data_scan" then load_data data_scan v m
  else if (m.dag.vertex v).mKernelName = "data_display" then display_result m
  else execute_node K m.dag.execution_environment v
    (compile_task v (prepare_output_buffer v (set_input v m)))

/-- `execute_graph` on the queue that `form_processing_queue` left. -/
def execute_graph (K : Kernels) (data_scan : ScanMap) (process_queue : List Nat) (m : Machine) :
    Machine :=
  process_queue.foldl (execute_vertex K data_scan) m

/-! ## The graphs that the executors run -/

/-- A vertex other than the scan and the display. -/
def query_graph.IsOp (g : query_graph) (v : Nat) : Prop :=
  v < g.num_vertices ∧ v ≠ start_vertex ∧ v ≠ end_vertex

/-- A query graph: the scan has no in-edges, the display has no out-edges, and only these two
carry the names `data_scan` and `data_display`. -/
structure IsQuery (g : query_graph) : Prop where
  two_le : 2 ≤ g.num_vertices
  scan_name : (g.vertex start_vertex).mKernelName = "data_scan"
  display_name : (g.vertex end_vertex).mKernelName = "data_display"
  op_name : ∀ v, g.IsOp v → (g.vertex v).mKernelName ≠ "data_scan" ∧
    (g.vertex v).mKernelName ≠ "data_display"
  ends_lt : ∀ e ∈ g.ends, e.1 < g.num_vertices ∧ e.2 < g.num_vertices
  scan_first : ∀ e ∈ g.ends, e.2 ≠ start_vertex
  display_last : ∀ e ∈ g.ends, e.1 ≠ end_vertex

/-- A topological order of the graph, the queue that `tps_flatten` forms: every vertex once,
and the source of each edge before its target. -/
structure IsTopological (g : query_graph) (order : List Nat) : Prop where
  perm : order.Perm (List.range g.num_vertices)
  forward : ∀ e ∈ g.ends, order.idxOf e.1 < order.idxOf e.2

/-- No node has taken an input or made an output. -/
def FreshNodes (g : query_graph) : Prop :=
  ∀ v, g.IsOp v → (g.vertex v).input_data = [] ∧ (g.vertex v).output_data = []

/-- The machine before a run. -/
def Machine.before (g : query_graph) (counter : Nat) (st : Stores) : Machine :=
  { dag := g, total_data_set_in_device := counter, mKernelDictionary := [], stores := some st
    trace := [], results := [], total_result_size := 0 }

end hero.runtime_layer
