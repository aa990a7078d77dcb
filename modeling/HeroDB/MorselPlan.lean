-- The plans of the data-parallel executor: operations, exchange edges, the names of buffers and
-- the graph of selections and logical operations that the executor runs.
import Mathlib.Algebra.Order.Ring.Int
import Mathlib.Data.List.Basic

namespace hero.data_parallelism

/-! ## Operations -/

/-- The rows of one morsel. -/
def ng_morsel_size : Nat := 1024

/-- The values of a `size_t`. -/
def SIZE : Nat := 2 ^ 64

abbrev Name := List Char

structure Operation_Type where
  name : Name
  no_of_args : Nat
  kernel_local_chunk_size : Nat := 32
  is_normal_to_bitmap_result : Bool := false
  is_bitmap_to_normal_result : Bool := false

def ng_selection_greater_than : Operation_Type where
  name := "selection_block_greater_than".toList
  no_of_args := 2
  is_normal_to_bitmap_result := true

def ng_selection_less_than : Operation_Type where
  name := "selection_block_less_than".toList
  no_of_args := 2
  is_normal_to_bitmap_result := true

def ng_logical_and : Operation_Type where
  name := "logical_block_and".toList
  no_of_args := 3
  kernel_local_chunk_size := 1

/-- The counters are shared by the transfer thread, the processing thread and the helper. -/
structure Operation_ where
  operationType : Operation_Type
  name : Name := []
  input_arg_names : List Name := []
  result_name : Name := []
  fetched_until : Nat := 0
  processed_until : Nat := 0
  rear_fetched_until : Nat := 0
  rear_processed_until : Nat := 0
  data_size : Nat := 0

/-- A node that no device has taken has the device index -1. -/
structure Operation_Node where
  is_initialized : Bool := false
  _operation : Operation_
  executionDevice : Int := -1

structure Exchange_Edge where
  input_data_name : Name := []
  fetched_data_name : Name := []
  input_EOD : Bool := false
  is_virtual_vertex : Bool := false
  input_device_index : Int := -1
  consumer_device_index : Int := -1
  is_work_shared : Bool := false
  processed_until : Nat := 0
  fetched_until : Nat := 0
  rear_fetched_until : Nat := 0
  rear_processed_until : Nat := 0
  data_size : Nat := 0

/-- A selection on a column, which has as many rows as the constructor of its table was given:
an `int`. -/
def create_selection_operation (operation_type : Operation_Type) (noOfRows : Nat) : Operation_ :=
  { operationType := operation_type, data_size := noOfRows }

/-! ## Sizes -/

/-- A `size_t` that is passed as an `int`. -/
def to_int (offset : Nat) : Int := (offset : Int).bmod (2 ^ 32)

/-- An `int` that is converted to a `size_t`. -/
def to_size (i : Int) : Nat := (i % 2 ^ 64).toNat

/-- The difference of two `size_t`. -/
def size_sub (a b : Nat) : Nat := (a + (SIZE - b)) % SIZE

def size_add (a b : Nat) : Nat := (a + b) % SIZE

def compute_result_size (operation : Operation_) : Nat :=
  if operation.operationType.is_bitmap_to_normal_result then operation.data_size * 32 % SIZE
  else if operation.operationType.is_normal_to_bitmap_result then operation.data_size / 32
  else operation.data_size

/-- The parameter `offset` is an `int`; a product that leaves the `int`s is undefined in the
source, and no operation of the executor has the flag that leads to it. -/
def get_result_buffer_offset (operation : Operation_) (offset : Nat) : Nat :=
  if operation.operationType.is_bitmap_to_normal_result then to_size (to_int offset * 32)
  else if operation.operationType.is_normal_to_bitmap_result then
    to_size ((to_int offset).tdiv 32)
  else to_size (to_int offset)

/-! ## Names of buffers -/

inductive Device_Type
  | CPU
  | GPU
deriving DecidableEq

def Device_Type.name : Device_Type → Name
  | CPU => "CPU".toList
  | GPU => "GPU".toList

def to_string : Int → Name
  | .ofNat n => Nat.toDigits 10 n
  | .negSucc n => '-' :: Nat.toDigits 10 (n + 1)

def get_operation_alias_name (ng_operation_counter : Nat) : Name :=
  "op_".toList ++ to_string ng_operation_counter

def get_result_buffer_name (device_type : Device_Type) (operation_name : Name) : Name :=
  "result_".toList ++ operation_name ++ "_".toList ++ device_type.name

def get_input_buffer_name (device_type : Device_Type) (operation_name : Name)
    (input_param_index : Nat) : Name :=
  "input_".toList ++ operation_name ++ "_".toList ++ device_type.name ++ "_p_".toList ++
    to_string input_param_index

/-- `replace(12, 3, ..)` throws when the name has less than 12 characters. -/
def get_input_buffer_name_for_device_replication (device_type : Device_Type) (buffer_name : Name) :
    Option Name :=
  if buffer_name.length < 12 then none
  else some (buffer_name.take 12 ++ device_type.name ++ buffer_name.drop 15)

def compute_alias_name_for_offset (name : Name) (offset : Nat) : Name :=
  name ++ "_".toList ++ to_string (to_int offset)

/-! ## The execution graph -/

/-- The graph: its nodes by vertex, and its edges, with their ends, in the order of creation. -/
structure QueryPlan where
  nodes : List Operation_Node
  ends : List (Nat × Nat)
  edges : List Exchange_Edge

/-- What `findVertexDetails` finds: the edges into a vertex, and the last edge out of it. -/
structure VertexInfo where
  current_node : Nat
  incoming_edges : List Nat
  outgoing_edge : Option Nat

namespace QueryPlan

variable (p : QueryPlan)

def source (e : Nat) : Nat := (p.ends.getD e (0, 0)).1

def target (e : Nat) : Nat := (p.ends.getD e (0, 0)).2

def findVertexDetails (vertex : Nat) : VertexInfo where
  current_node := vertex
  incoming_edges := (List.range p.ends.length).filter (fun e => p.target e = vertex)
  outgoing_edge := ((List.range p.ends.length).filter (fun e => p.source e = vertex)).getLast?

end QueryPlan

def create_edge (data_size : Nat) (is_virtual : Bool) : Exchange_Edge :=
  { data_size := data_size, rear_fetched_until := data_size, is_virtual_vertex := is_virtual }

/-- The counter of the names counts on from the selections to the logical operations. -/
def create_node (operation : Operation_) (ng_operation_counter : Nat) : Operation_Node :=
  { _operation := { operation with name := get_operation_alias_name ng_operation_counter } }

def create_logical_node (operationType : Operation_Type) (ng_operation_counter : Nat) :
    Operation_Node :=
  create_node { operationType := operationType } ng_operation_counter

/-- Vertex 0 is the virtual vertex, which has no operation: the operation of its node here is one
that nothing reads. -/
def virtual_vertex : Operation_Node := { _operation := { operationType := ng_logical_and } }

def selection_vertex (i : Nat) : Nat := i + 1

def logical_vertex (number_of_selections i : Nat) : Nat := number_of_selections + 1 + i

/-- The two edges into a logical vertex. The left one comes from the first selection or from the
logical vertex before; the node of that one has the data size 0. -/
def logical_edges (ng_selections : List Operation_) (i : Nat) :
    List ((Nat × Nat) × Exchange_Edge) :=
  let n := ng_selections.length
  let size (j : Nat) : Nat := (ng_selections[j]?.map (·.data_size)).getD 0
  [if i = 0 then ((selection_vertex 0, logical_vertex n 0), create_edge (size 0) false)
    else ((logical_vertex n (i - 1), logical_vertex n i), create_edge 0 false),
   ((selection_vertex (i + 1), logical_vertex n i), create_edge (size (i + 1)) false)]

/-- One vertex for each selection, fed by the virtual vertex, and a chain of one logical vertex
less. It exits with less than two selections. -/
def create_execution_graph (ng_selections : List Operation_) : Option QueryPlan :=
  let n := ng_selections.length
  if n < 2 then none
  else
    let virtual_edges := ng_selections.mapIdx (fun i operation =>
      ((0, selection_vertex i), create_edge operation.data_size true))
    let edges := virtual_edges ++ (List.range (n - 1)).flatMap (logical_edges ng_selections)
    some
      { nodes := virtual_vertex :: ng_selections.mapIdx (fun i operation => create_node operation i)
          ++ (List.range (n - 1)).map (fun i => create_logical_node ng_logical_and (n + i))
        ends := edges.map (·.1)
        edges := edges.map (·.2) }

/-- What `create_bfs_execution_pipeline` pushes. The search from the first selection meets the
logical vertices one after the other; it never meets the other selections, which keep the time 0
of the first one, and the sort leaves open in which order it puts them. -/
def IsPipeline (number_of_selections : Nat) (ng_processing_queue : List Nat) : Prop :=
  ∃ selections : List Nat,
    selections.Perm ((List.range number_of_selections).map selection_vertex) ∧
    ng_processing_queue = selections ++
      (List.range (number_of_selections - 1)).map (logical_vertex number_of_selections)

/-! ## Sizes and names -/

theorem size_add_eq {a b : Nat} (h : a + b < SIZE) : size_add a b = a + b := by
  unfold size_add
  exact Nat.mod_eq_of_lt h

theorem size_sub_eq {a b : Nat} (hb : b ≤ a) (ha : a < SIZE) : size_sub a b = a - b := by
  unfold size_sub
  have hsum : a + (SIZE - b) = a - b + SIZE := by omega
  rw [hsum, Nat.add_mod_right]
  exact Nat.mod_eq_of_lt (by omega)

theorem result_chars : "result_".toList = ['r', 'e', 's', 'u', 'l', 't', '_'] := by decide

theorem input_chars : "input_".toList = ['i', 'n', 'p', 'u', 't', '_'] := by decide

theorem op_chars : "op_".toList = ['o', 'p', '_'] := by decide

theorem underscore_chars : "_".toList = ['_'] := by decide

theorem to_string_nat (n : Nat) : to_string n = Nat.toDigits 10 n := rfl

/-- The name of a result buffer is long enough to put the type of another device in it. -/
theorem length_result_name (t : Device_Type) (n : Nat) :
    12 ≤ (get_result_buffer_name t (get_operation_alias_name n)).length := by
  have hdigits : 0 < (Nat.toDigits 10 n).length := Nat.length_toDigits_pos
  have htype : t.name.length = 3 := by cases t <;> decide
  unfold get_result_buffer_name get_operation_alias_name
  rw [to_string_nat, result_chars, op_chars, underscore_chars]
  simp only [List.length_append, List.length_cons, List.length_nil, htype]
  omega

theorem replicated_of_length {t : Device_Type} {name : Name} (h : 12 ≤ name.length) :
    get_input_buffer_name_for_device_replication t name =
      some (name.take 12 ++ t.name ++ name.drop 15) :=
  if_neg (Nat.not_lt.mpr h)

theorem result_ne_input (t t' : Device_Type) (name name' : Name) (i : Nat) :
    get_result_buffer_name t name ≠ get_input_buffer_name t' name' i := by
  unfold get_result_buffer_name get_input_buffer_name
  rw [result_chars, input_chars]
  simp

theorem replicated_ne_input (t t' t'' : Device_Type) (name name' : Name) (i : Nat) :
    (get_result_buffer_name t name).take 12 ++ t'.name ++ (get_result_buffer_name t name).drop 15 ≠
      get_input_buffer_name t'' name' i := by
  unfold get_result_buffer_name get_input_buffer_name
  rw [result_chars, input_chars]
  simp

end hero.data_parallelism
