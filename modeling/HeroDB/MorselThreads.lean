-- The threads of the data-parallel executor: for each device a thread that takes vertices, for each
-- vertex a transfer thread and the processing loop, and the loop in which the device of a consumer
-- helps the producer. A run is any interleaving of their reads and writes of what they share.
import Mathlib.Logic.Function.Basic
import HeroDB.MorselPlan
import HeroDB.Lib.Transition

namespace hero.data_parallelism

/-! ## What the threads share -/

/-- The log: a kernel that a device executed for a vertex at an offset, and a morsel that the
transfer thread of a vertex copied over an in-edge from the memory of another device. -/
inductive Event
  | execute (vertex device_index offset : Nat)
  | copy (vertex edge offset : Nat)
deriving DecidableEq

/-- The data dictionary holds the names of the buffers and sub-buffers of each device. -/
structure Memory where
  node : Nat → Operation_Node
  edge : Nat → Exchange_Edge
  data_dictionary : List (Name × Nat)
  trace : List Event

namespace Memory

variable (s : Memory)

def operation (v : Nat) : Operation_ := (s.node v)._operation

def modify_node (v : Nat) (f : Operation_Node → Operation_Node) : Memory :=
  { s with node := Function.update s.node v (f (s.node v)) }

def modify_operation (v : Nat) (f : Operation_ → Operation_) : Memory :=
  s.modify_node v (fun n => { n with _operation := f n._operation })

def modify_edge (e : Nat) (f : Exchange_Edge → Exchange_Edge) : Memory :=
  { s with edge := Function.update s.edge e (f (s.edge e)) }

def log (event : Event) : Memory := { s with trace := s.trace ++ [event] }

/-- `is_buffer_present`. -/
def present (alias_ : Name) (device_index : Nat) : Prop := (alias_, device_index) ∈ s.data_dictionary

instance (alias_ : Name) (device_index : Nat) : Decidable (s.present alias_ device_index) :=
  inferInstanceAs (Decidable ((alias_, device_index) ∈ s.data_dictionary))

/-- It exits when the buffer is present, unless it is told not to. -/
def create_buffer (alias_ : Name) (device_index : Nat) (is_throw_error_if_buffer_present : Bool) :
    Option Memory :=
  if s.present alias_ device_index then
    if is_throw_error_if_buffer_present then none else some s
  else some { s with data_dictionary := (alias_, device_index) :: s.data_dictionary }

/-- An old sub-buffer of the name gives way to the new one. It exits when the buffer is absent. -/
def create_sub_buffer (buffer_alias : Name) (device_index offset : Nat) : Option Memory :=
  if s.present buffer_alias device_index then
    let key := (compute_alias_name_for_offset buffer_alias offset, device_index)
    some { s with data_dictionary := key :: s.data_dictionary.erase key }
  else none

/-- `copy_data_from_device_memory` exits when the source buffer is absent, and
`copy_data_from_memory` has no source buffer. -/
def source_present (e : Nat) : Prop :=
  (s.edge e).is_virtual_vertex = true ∨
    ∃ device_index : Nat, (s.edge e).input_device_index = device_index ∧
      s.present (s.edge e).input_data_name device_index

instance (e : Nat) : Decidable (s.source_present e) :=
  decidable_of_iff ((s.edge e).is_virtual_vertex = true ∨
      (0 ≤ (s.edge e).input_device_index ∧
        s.present (s.edge e).input_data_name (s.edge e).input_device_index.toNat)) <| by
    refine or_congr_right ⟨fun ⟨hpos, hmem⟩ => ⟨_, (Int.toNat_of_nonneg hpos).symm, hmem⟩, ?_⟩
    rintro ⟨d, hd, hmem⟩
    rw [hd]
    exact ⟨Int.natCast_nonneg d, hmem⟩

end Memory

/-! ## The memory after a write -/

namespace Memory

variable (s : Memory)

def with_buffer (key : Name × Nat) : Memory :=
  { s with data_dictionary := key :: s.data_dictionary }

/-- A new sub-buffer in the dictionary. -/
def with_key (key : Name × Nat) : Memory :=
  { s with data_dictionary := key :: s.data_dictionary.erase key }

@[simp] theorem node_modify_self (v : Nat) (f : Operation_Node → Operation_Node) :
    (s.modify_node v f).node v = f (s.node v) := Function.update_self ..

@[simp] theorem edge_modify_node (v : Nat) (f : Operation_Node → Operation_Node) :
    (s.modify_node v f).edge = s.edge := rfl

@[simp] theorem dictionary_modify_node (v : Nat) (f : Operation_Node → Operation_Node) :
    (s.modify_node v f).data_dictionary = s.data_dictionary := rfl

@[simp] theorem trace_modify_node (v : Nat) (f : Operation_Node → Operation_Node) :
    (s.modify_node v f).trace = s.trace := rfl

@[simp] theorem operation_modify_self (v : Nat) (f : Operation_ → Operation_) :
    (s.modify_operation v f).operation v = f (s.operation v) := by
  simp [operation, modify_operation]

@[simp] theorem initialized_modify_operation (v : Nat) (f : Operation_ → Operation_) :
    ((s.modify_operation v f).node v).is_initialized = (s.node v).is_initialized := by
  simp [modify_operation]

@[simp] theorem device_modify_operation (v : Nat) (f : Operation_ → Operation_) :
    ((s.modify_operation v f).node v).executionDevice = (s.node v).executionDevice := by
  simp [modify_operation]

@[simp] theorem edge_modify_operation (v : Nat) (f : Operation_ → Operation_) :
    (s.modify_operation v f).edge = s.edge := rfl

@[simp] theorem dictionary_modify_operation (v : Nat) (f : Operation_ → Operation_) :
    (s.modify_operation v f).data_dictionary = s.data_dictionary := rfl

@[simp] theorem trace_modify_operation (v : Nat) (f : Operation_ → Operation_) :
    (s.modify_operation v f).trace = s.trace := rfl

@[simp] theorem edge_modify_self (e : Nat) (f : Exchange_Edge → Exchange_Edge) :
    (s.modify_edge e f).edge e = f (s.edge e) := Function.update_self ..

theorem edge_modify_ne {e e' : Nat} (h : e' ≠ e) (f : Exchange_Edge → Exchange_Edge) :
    (s.modify_edge e f).edge e' = s.edge e' := Function.update_of_ne h ..

@[simp] theorem node_modify_edge (e : Nat) (f : Exchange_Edge → Exchange_Edge) :
    (s.modify_edge e f).node = s.node := rfl

@[simp] theorem operation_modify_edge (e v : Nat) (f : Exchange_Edge → Exchange_Edge) :
    (s.modify_edge e f).operation v = s.operation v := rfl

@[simp] theorem dictionary_modify_edge (e : Nat) (f : Exchange_Edge → Exchange_Edge) :
    (s.modify_edge e f).data_dictionary = s.data_dictionary := rfl

@[simp] theorem trace_modify_edge (e : Nat) (f : Exchange_Edge → Exchange_Edge) :
    (s.modify_edge e f).trace = s.trace := rfl

@[simp] theorem present_modify_operation (v : Nat) (f : Operation_ → Operation_) (name : Name)
    (d : Nat) : (s.modify_operation v f).present name d ↔ s.present name d := Iff.rfl

@[simp] theorem present_modify_edge (e : Nat) (f : Exchange_Edge → Exchange_Edge) (name : Name)
    (d : Nat) : (s.modify_edge e f).present name d ↔ s.present name d := Iff.rfl

@[simp] theorem present_modify_node (v : Nat) (f : Operation_Node → Operation_Node) (name : Name)
    (d : Nat) : (s.modify_node v f).present name d ↔ s.present name d := Iff.rfl

@[simp] theorem present_log (event : Event) (name : Name) (d : Nat) :
    (s.log event).present name d ↔ s.present name d := Iff.rfl

@[simp] theorem operation_with_buffer (key : Name × Nat) (v : Nat) :
    (s.with_buffer key).operation v = s.operation v := rfl

@[simp] theorem node_with_buffer (key : Name × Nat) : (s.with_buffer key).node = s.node := rfl

@[simp] theorem edge_with_buffer (key : Name × Nat) : (s.with_buffer key).edge = s.edge := rfl

@[simp] theorem trace_with_buffer (key : Name × Nat) : (s.with_buffer key).trace = s.trace := rfl

@[simp] theorem operation_with_key (key : Name × Nat) (v : Nat) :
    (s.with_key key).operation v = s.operation v := rfl

@[simp] theorem node_with_key (key : Name × Nat) : (s.with_key key).node = s.node := rfl

@[simp] theorem edge_with_key (key : Name × Nat) : (s.with_key key).edge = s.edge := rfl

@[simp] theorem trace_with_key (key : Name × Nat) : (s.with_key key).trace = s.trace := rfl

variable {s}

theorem create_buffer_new {name : Name} {d : Nat} (h : ¬ s.present name d) (throws : Bool) :
    s.create_buffer name d throws = some (s.with_buffer (name, d)) :=
  if_neg h

theorem present_with_buffer (key : Name × Nat) (name : Name) (d : Nat) :
    (s.with_buffer key).present name d ↔ (name, d) = key ∨ s.present name d :=
  List.mem_cons

theorem create_sub_buffer_eq {name : Name} {d : Nat} (h : s.present name d) (offset : Nat) :
    s.create_sub_buffer name d offset =
      some (s.with_key (compute_alias_name_for_offset name offset, d)) :=
  if_pos h

theorem present_with_key (key : Name × Nat) (name : Name) (d : Nat) :
    (s.with_key key).present name d ↔ (name, d) = key ∨ s.present name d := by
  unfold present with_key
  by_cases h : (name, d) = key
  · simp [h]
  · simp [h, List.mem_erase_of_ne h]

end Memory

/-! ## The transfer thread -/

/-- Where `transfer_data` is, with its locals: `max` is `max_data_size`. -/
inductive TransferPc
  | unborn
  | start
  | put_device
  | put_name
  | put_size
  | input (i max : Nat)
  | size (i max : Nat)
  | raise (i max : Nat)
  | consumer (i max : Nat)
  | put_rear_processed (max : Nat)
  | put_rear_fetched (max : Nat)
  | put_initialized (max : Nat)
  | loop (offset max : Nat)
  | edge (offset i max : Nat)
  | copy (offset i max : Nat)
  | fetched (offset i max : Nat)
  | advance (offset max : Nat)
  | finished (max : Nat)
deriving DecidableEq

section Threads

variable (device_type : Nat → Device_Type) (info : VertexInfo) (device_index : Nat)

/-- The name of the buffer of an input that is not on the device. -/
def input_name (i e : Nat) (s : Memory) : Option Name :=
  if (s.edge e).is_virtual_vertex then
    some (get_input_buffer_name (device_type device_index) (s.operation info.current_node).name i)
  else
    get_input_buffer_name_for_device_replication (device_type device_index)
      (s.edge e).input_data_name

/-- The buffer of an input. On the device of the producer it is the result buffer itself, and the
edge is marked as fetched; elsewhere it is a new buffer, or that of the helper. -/
def prepare_input (i e : Nat) (s : Memory) : Option Memory :=
  let v := info.current_node
  if (s.node v).executionDevice = (s.edge e).input_device_index then
    some ((s.modify_edge e (fun d => { d with
        fetched_data_name := d.input_data_name
        fetched_until := d.data_size
        rear_processed_until := d.data_size })).modify_operation v
      (fun o => { o with input_arg_names := o.input_arg_names ++ [(s.edge e).input_data_name] }))
  else do
    let input_buffer_name ← input_name device_type info device_index i e s
    let s := (s.modify_edge e (fun d => { d with fetched_data_name := input_buffer_name }))
      |>.modify_operation v
        (fun o => { o with input_arg_names := o.input_arg_names ++ [input_buffer_name] })
    s.create_buffer input_buffer_name device_index (!(s.edge e).is_work_shared)

/-- One turn of the inner loop of the transfer, up to the copy: an edge whose data is all there is
left alone, and a sub-buffer that the helper already made counts as fetched. -/
def open_morsel (offset i max e : Nat) (s : Memory) : Option (TransferPc × Memory) :=
  let v := info.current_node
  if (s.edge e).fetched_until < (s.edge e).data_size ∧
      (s.node v).executionDevice ≠ (s.edge e).input_device_index then do
    let name ← (s.operation v).input_arg_names[i]?
    if (s.edge e).is_work_shared = true ∧
        s.present (compute_alias_name_for_offset name offset) device_index then
      some (.fetched offset i max, s)
    else
      let s ← s.create_sub_buffer name device_index offset
      some (.copy offset i max, s)
  else some (.edge offset (i + 1) max, s)

/-- One step of `transfer_data`, or `none` where the program exits. -/
def transfer_data (pc : TransferPc) (s : Memory) : Option (TransferPc × Memory) :=
  let v := info.current_node
  let result_buffer_name := get_result_buffer_name (device_type device_index) (s.operation v).name
  match pc with
  | .start => do
    let s ← s.create_buffer result_buffer_name device_index true
    some (if info.outgoing_edge.isSome then .put_device else .input 0 0,
      s.modify_operation v (fun o => { o with result_name := result_buffer_name }))
  | .put_device => do
    let out ← info.outgoing_edge
    some (.put_name, s.modify_edge out (fun d => { d with input_device_index := device_index }))
  | .put_name => do
    let out ← info.outgoing_edge
    some (.put_size, s.modify_edge out (fun d => { d with input_data_name := result_buffer_name }))
  | .put_size => do
    let out ← info.outgoing_edge
    some (.input 0 0, s.modify_edge out
      (fun d => { d with data_size := compute_result_size (s.operation v) }))
  | .input i max =>
    match info.incoming_edges[i]? with
    | none => some (.put_rear_processed max, s)
    | some e => do
      let s ← prepare_input device_type info device_index i e s
      some (.size i max, s)
  | .size i max => do
    let e ← info.incoming_edges[i]?
    some (if max < (s.edge e).data_size then .raise i max else .consumer i max, s)
  | .raise i _ => do
    let e ← info.incoming_edges[i]?
    some (.consumer i (s.edge e).data_size, s)
  | .consumer i max => do
    let e ← info.incoming_edges[i]?
    some (.input (i + 1) max,
      s.modify_edge e (fun d => { d with consumer_device_index := device_index }))
  | .put_rear_processed max =>
    some (.put_rear_fetched max,
      s.modify_operation v (fun o => { o with rear_processed_until := max }))
  | .put_rear_fetched max =>
    some (.put_initialized max,
      s.modify_operation v (fun o => { o with rear_fetched_until := max }))
  | .put_initialized max =>
    some (.loop 0 max, s.modify_node v (fun n => { n with is_initialized := true }))
  | .loop offset max =>
    if offset < (s.operation v).rear_fetched_until then some (.edge offset 0 max, s)
    else some (.finished max, s)
  | .edge offset i max =>
    match info.incoming_edges[i]? with
    | none => some (.advance offset max, s)
    | some e => open_morsel info device_index offset i max e s
  | .copy offset i max => do
    let e ← info.incoming_edges[i]?
    if s.source_present e then
      some (.fetched offset i max,
        if (s.edge e).is_virtual_vertex then s else s.log (.copy v e offset))
    else none
  | .fetched offset i max => do
    let e ← info.incoming_edges[i]?
    some (.edge offset (i + 1) max,
      s.modify_edge e (fun d => { d with fetched_until := size_add offset ng_morsel_size }))
  | .advance offset max =>
    let offset := size_add offset ng_morsel_size
    some (.loop offset max, s.modify_operation v (fun o => { o with fetched_until := offset }))
  | .unborn | .finished _ => none

/-! ## The processing loop -/

/-- Where `process_data` is, with its locals: `created` is `is_sub_buffer_created`. -/
inductive ProcessPc
  | unborn
  | wait
  | loop (offset : Nat) (created : Bool)
  | sub_buffer (offset : Nat)
  | test (offset i : Nat)
  | execute (offset : Nat)
  | put_processed (offset : Nat)
  | put_edge (offset : Nat)
  | put_EOD
  | finished
deriving DecidableEq

/-- One step of `process_data`. It spins until the vertex is initialised, and it tests a morsel
again until each argument has its sub-buffer and the transfer has passed the offset. -/
def process_data (pc : ProcessPc) (s : Memory) : Option (ProcessPc × Memory) :=
  let v := info.current_node
  match pc with
  | .wait => some (if (s.node v).is_initialized then .loop 0 false else .wait, s)
  | .loop offset created =>
    if offset < (s.operation v).rear_processed_until then
      some (if created then .test offset 0 else .sub_buffer offset, s)
    else some (if info.outgoing_edge.isSome then .put_EOD else .finished, s)
  | .sub_buffer offset => do
    let s ← s.create_sub_buffer (s.operation v).result_name device_index
      (get_result_buffer_offset (s.operation v) offset)
    some (.test offset 0, s)
  | .test offset i =>
    if i < (s.operation v).operationType.no_of_args - 1 then do
      let name ← (s.operation v).input_arg_names[i]?
      if s.present (compute_alias_name_for_offset name offset) device_index ∧
          offset < (s.operation v).fetched_until then
        some (.test offset (i + 1), s)
      else some (.loop offset true, s)
    else some (.execute offset, s)
  | .execute offset => some (.put_processed offset, s.log (.execute v device_index offset))
  | .put_processed offset =>
    some (if info.outgoing_edge.isSome then .put_edge offset
        else .loop (size_add offset ng_morsel_size) false,
      s.modify_operation v
        (fun o => { o with processed_until := size_add offset ng_morsel_size }))
  | .put_edge offset => do
    let out ← info.outgoing_edge
    some (.loop (size_add offset ng_morsel_size) false,
      s.modify_edge out
        (fun d => { d with processed_until := size_add offset ng_morsel_size }))
  | .put_EOD => do
    let out ← info.outgoing_edge
    some (.finished, s.modify_edge out (fun d => { d with input_EOD := true }))
  | .unborn | .finished => none

/-! ## The helper -/

/-- Where `work_sharing_transfer_and_process_data` is; `front` holds the value of `fetched_until`
that the test of its loop has read. -/
inductive HelperPc
  | unborn
  | wait
  | input (i : Nat)
  | result
  | put_shared
  | loop
  | front (fetched_until : Nat)
  | take
  | copy (i : Nat)
  | sub_buffer
  | execute
  | put_edge
  | put_rear
  | finished
deriving DecidableEq

/-- The name of the buffer in which the helper puts its results. -/
def shared_result_name (s : Memory) : Option Name := do
  let out ← info.outgoing_edge
  get_input_buffer_name_for_device_replication (device_type device_index)
    (s.edge out).input_data_name

/-- One step of `work_sharing_transfer_and_process_data`; `info` is the vertex that it helps. The
test of the loop reads the two counters one after the other. No other thread writes
`rear_fetched_until` while the helper runs, so that it can be read and lowered in one step. -/
def work_sharing_transfer_and_process_data (pc : HelperPc) (s : Memory) :
    Option (HelperPc × Memory) :=
  let v := info.current_node
  let rear := (s.operation v).rear_fetched_until
  match pc with
  | .wait => some (if (s.node v).is_initialized then .input 0 else .wait, s)
  | .input i =>
    match info.incoming_edges[i]? with
    | none => some (.result, s)
    | some e => do
      let s ← s.create_buffer (s.edge e).fetched_data_name device_index true
      some (.input (i + 1), s)
  | .result => do
    let result_buffer_name ← shared_result_name device_type info device_index s
    let s ← s.create_buffer result_buffer_name device_index true
    some (.put_shared, s)
  | .put_shared => do
    let out ← info.outgoing_edge
    some (.loop, s.modify_edge out (fun d => { d with is_work_shared := true }))
  | .loop => some (.front (s.operation v).fetched_until, s)
  | .front fetched_until =>
    some (if fetched_until < size_sub rear ng_morsel_size then .take else .finished, s)
  | .take =>
    some (.copy 0, s.modify_operation v
      (fun o => { o with rear_fetched_until := size_sub rear ng_morsel_size }))
  | .copy i =>
    match info.incoming_edges[i]? with
    | none => some (.sub_buffer, s)
    | some e => do
      let name ← (s.operation v).input_arg_names[i]?
      let s ← s.create_sub_buffer name device_index rear
      if s.source_present e then some (.copy (i + 1), s) else none
  | .sub_buffer => do
    let result_buffer_name ← shared_result_name device_type info device_index s
    let s ← s.create_sub_buffer result_buffer_name device_index
      (get_result_buffer_offset (s.operation v) rear)
    some (.execute, s)
  | .execute => some (.put_edge, s.log (.execute v device_index rear))
  | .put_edge => do
    let out ← info.outgoing_edge
    some (.put_rear, s.modify_edge out (fun d => { d with
      rear_processed_until := get_result_buffer_offset (s.operation v) rear }))
  | .put_rear =>
    some (.loop, s.modify_operation v (fun o => { o with rear_processed_until := rear }))
  | .unborn | .finished => none

end Threads

/-! ## The device threads -/

/-- Where `thread_processing` is, with the other threads that it runs: in `share` it runs the helper
of the source of the in-edge `i`, and in `run` the transfer thread and the processing loop. -/
inductive DevicePc
  | pop
  | edge (v i : Nat)
  | share (v i : Nat) (helper : HelperPc)
  | size (v i : Nat)
  | run (v : Nat) (transfer : TransferPc) (process : ProcessPc)
  | finished
deriving DecidableEq

/-- What does not change during a run: the graph, the number and the types of the devices, and
whether work is shared. -/
structure Setup where
  plan : QueryPlan
  ng_total_no_of_devices : Nat
  device_type : Nat → Device_Type
  ng_is_work_sharing_enabled : Bool

structure State where
  memory : Memory
  ng_processing_queue : List Nat
  device : Nat → DevicePc

/-- A step of the thread of a device, or of the transfer thread that it started. -/
inductive Move
  | device (device_index : Nat)
  | transfer (device_index : Nat)
deriving DecidableEq

namespace Setup

variable (c : Setup)

/-- A turn of the loop over the in-edges starts: the work of a source on another device that has
not ended is shared. -/
def visit_edge (v i : Nat) (s : Memory) : DevicePc :=
  match (c.plan.findVertexDetails v).incoming_edges[i]? with
  | none => .run v .start .wait
  | some e =>
    if (s.edge e).is_virtual_vertex = false ∧ (s.edge e).input_EOD = false ∧
        c.ng_is_work_sharing_enabled = true then .share v i .wait
    else .size v i

/-- A vertex without a data size takes that of its in-edge. -/
def take_size (v e : Nat) (s : Memory) : Memory :=
  if (s.operation v).data_size = 0 then
    s.modify_operation v (fun o => { o with
      data_size := (s.edge e).data_size
      rear_processed_until := (s.edge e).data_size })
  else s

/-- One step of `thread_processing`, of its helper loop or of its processing loop. -/
def thread_processing (device_index : Nat) (s : State) : Option State :=
  let go (pc : DevicePc) (m : Memory) : State :=
    { s with memory := m, device := Function.update s.device device_index pc }
  match s.device device_index with
  | .pop =>
    match s.ng_processing_queue with
    | [] => some (go .finished s.memory)
    | v :: rest =>
      some { go (.edge v 0) (s.memory.modify_node v
          (fun n => { n with executionDevice := device_index })) with ng_processing_queue := rest }
  | .edge v i => some (go (c.visit_edge v i s.memory) s.memory)
  | .share v i .finished => some (go (.size v i) s.memory)
  | .share v i helper => do
    let e ← (c.plan.findVertexDetails v).incoming_edges[i]?
    let (helper, m) ← work_sharing_transfer_and_process_data c.device_type
      (c.plan.findVertexDetails (c.plan.source e)) device_index helper s.memory
    some (go (.share v i helper) m)
  | .size v i => do
    let e ← (c.plan.findVertexDetails v).incoming_edges[i]?
    some (go (.edge v (i + 1)) (take_size v e s.memory))
  | .run _ (.finished _) .finished => some (go .pop s.memory)
  | .run v transfer process => do
    let (process, m) ← process_data (c.plan.findVertexDetails v) device_index process s.memory
    some (go (.run v transfer process) m)
  | .finished => none

/-- One step of the transfer thread of a device. -/
def transfer_thread (device_index : Nat) (s : State) : Option State :=
  match s.device device_index with
  | .run v transfer process => do
    let (transfer, m) ← transfer_data c.device_type (c.plan.findVertexDetails v) device_index
      transfer s.memory
    some { s with
      memory := m
      device := Function.update s.device device_index (.run v transfer process) }
  | _ => none

/-- A step of a thread, or `none` when the thread is blocked or the program exits. -/
def step (s : State) : Move → Option State
  | .device d => if d < c.ng_total_no_of_devices then c.thread_processing d s else none
  | .transfer d => if d < c.ng_total_no_of_devices then c.transfer_thread d s else none

/-- Before the devices start: the nodes and edges as they were created, and no buffers. -/
def start_memory : Memory where
  node := fun v => c.plan.nodes.getD v virtual_vertex
  edge := fun e => c.plan.edges.getD e {}
  data_dictionary := []
  trace := []

def start (ng_processing_queue : List Nat) : State where
  memory := c.start_memory
  ng_processing_queue := ng_processing_queue
  device := fun _ => .pop

/-- The executor on a queue. -/
def executor (ng_processing_queue : List Nat) : transition.System State Move where
  init := fun s => s = c.start ng_processing_queue
  step := c.step

end Setup

end hero.data_parallelism
