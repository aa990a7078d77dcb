-- The exchange executor: one device thread and one worker thread for each device, a shared queue
-- of vertices, and the flags, the mutex and the condition variable of each device. A run is any
-- interleaving of the steps of the threads.
import HeroDB.GraphSteps
import HeroDB.Lib.Transition

namespace hero.morsel_driven

open runtime_layer

/-! ## The states -/

/-- The two threads of a device: `process_in_device` and `process_op`. -/
inductive Thread
  | device
  | worker
deriving DecidableEq

/-- Where `process_in_device` is. The flag `last` tells the handshake after the loop from the
one in the loop. -/
inductive DevicePc
  | spawn
  | test_empty
  | pop
  | set_device
  | spin (rest : List Nat) (input_set : Bool)
  | size_input
  | set_input
  | prepare_output
  | stop
  | lock_ready (last : Bool)
  | set_ready (last : Bool)
  | notify (last : Bool)
  | lock_wait (last : Bool)
  | test_processed (last : Bool)
  | asleep (last notified : Bool)
  | unlock_wait (last : Bool)
  | clear_processed
  | join
  | finished
deriving DecidableEq

inductive WorkerPc
  | unborn
  | lock
  | test_ready
  | asleep (notified : Bool)
  | clear_ready
  | test_stop
  | compile
  | execute
  | complete
  | flag (rest : List Nat)
  | set_processed (last : Bool)
  | unlock (last : Bool)
  | notify (last : Bool)
  | finished
deriving DecidableEq

structure Lane where
  device : DevicePc
  worker : WorkerPc
  ready : Bool
  processed : Bool
  process_vertex : Nat
  m : Option Thread
deriving DecidableEq

/-- What all threads share. The two logs are of the model: which worker started which vertex, and
which vertices came back from `execute_node`. -/
structure Shared where
  machine : Machine
  ex_processing_queue : List Nat
  started : List (Nat × Nat)
  completed : List Nat

structure State (n : Nat) where
  shared : Shared
  lane : Fin n → Lane

/-- The steps of the threads. A sleeper can also wake up without a notification. -/
inductive Action (n : Nat)
  | run (i : Fin n) (t : Thread)
  | spurious (i : Fin n) (t : Thread)

/-- The vertex that tells a worker to stop. -/
def INT_MAX : Nat := 2147483647

/-! ## The start -/

/-- `push`: a full queue, with its capacity of 20, takes no more. -/
def push (queue : List Nat) (v : Nat) : List Nat :=
  if queue.length < 20 then queue ++ [v] else queue

def set_ready_for_next_step (d : data_edge) : data_edge :=
  { d with input_ID_source := d.data_pointer, ready_for_next_step := true }

def form_turn (data_scan : ScanMap) (s : Machine × List Nat) (v_ : Nat) : Machine × List Nat :=
  if (s.1.dag.vertex v_).mKernelName = "data_scan" then
    ((load_data data_scan v_ s.1).modify_edges ((load_data data_scan v_ s.1).dag.out_edges v_)
      set_ready_for_next_step, s.2)
  else if (s.1.dag.vertex v_).mKernelName = "data_display" then s
  else (s.1, push s.2 v_)

def form_lockfree_processing_queue (data_scan : ScanMap) (process_queue : List Nat) (m : Machine) :
    Machine × List Nat :=
  process_queue.foldl (form_turn data_scan) (m, [])

/-! ## The steps of a device thread -/

namespace Lane

variable (l : Lane)

/-- `notify_one` by the device: the worker is the only thread that can sleep then. -/
def notify_worker : Lane :=
  if l.worker = .asleep false then { l with worker := .asleep true } else l

def notify_device : Lane :=
  match l.device with
  | .asleep last _ => { l with device := .asleep last true }
  | _ => l

end Lane

def data_size_of_input (g : query_graph) (v : Nat) : Nat :=
  (g.in_edges v).foldl (fun size e => if size < (g.edge e).data_size then (g.edge e).data_size
    else size) 0

def set_device (dev : Device) (n : primitive_node) : primitive_node :=
  { n with pID := dev.1, dID := dev.2 }

/-- One step of `process_in_device` on a device, or `none` when the thread is blocked. -/
def device_step (dev : Device) (s : Shared) (l : Lane) : Option (Shared × Lane) :=
  match l.device with
  | .spawn => some (s, { l with device := .test_empty, worker := .lock })
  | .test_empty =>
    if s.ex_processing_queue = [] then some (s, { l with device := .stop })
    else some (s, { l with device := .pop })
  | .pop =>
    -- A pop from an empty queue fails, and the vertex stays the one of the last turn.
    match s.ex_processing_queue with
    | [] => some (s, { l with device := .set_device })
    | v :: rest =>
      some ({ s with ex_processing_queue := rest },
        { l with process_vertex := v, device := .set_device })
  | .set_device =>
    some ({ s with machine := s.machine.modify_vertex l.process_vertex (set_device dev) },
      { l with device := .spin (s.machine.dag.in_edges l.process_vertex) true })
  | .spin [] true => some (s, { l with device := .size_input })
  | .spin [] false =>
    some (s, { l with device := .spin (s.machine.dag.in_edges l.process_vertex) true })
  | .spin (e :: rest) input_set =>
    some (s, { l with
      device := .spin rest (input_set && (s.machine.dag.edge e).ready_for_next_step) })
  | .size_input =>
    some ({ s with machine := s.machine.modify_vertex l.process_vertex (fun n =>
        { n with input_size := data_size_of_input s.machine.dag l.process_vertex }) },
      { l with device := .set_input })
  | .set_input =>
    some ({ s with machine := runtime_layer.set_input l.process_vertex s.machine },
      { l with device := .prepare_output })
  | .prepare_output =>
    some ({ s with machine := prepare_output_buffer l.process_vertex s.machine },
      { l with device := .lock_ready false })
  | .stop => some (s, { l with process_vertex := INT_MAX, device := .lock_ready true })
  | .lock_ready last =>
    if l.m = none then some (s, { l with m := some .device, device := .set_ready last }) else none
  | .set_ready last => some (s, { l with ready := true, m := none, device := .notify last })
  | .notify last => some (s, { l.notify_worker with device := .lock_wait last })
  | .lock_wait last =>
    if l.m = none then some (s, { l with m := some .device, device := .test_processed last })
    else none
  | .test_processed last =>
    if l.processed then some (s, { l with device := .unlock_wait last })
    else some (s, { l with m := none, device := .asleep last false })
  | .asleep last true =>
    if l.m = none then some (s, { l with m := some .device, device := .test_processed last })
    else none
  | .asleep _ false => none
  | .unlock_wait false => some (s, { l with m := none, device := .clear_processed })
  | .unlock_wait true => some (s, { l with m := none, device := .join })
  | .clear_processed => some (s, { l with processed := false, device := .test_empty })
  | .join => if l.worker = .finished then some (s, { l with device := .finished }) else none
  | .finished => none

/-! ## The steps of a worker thread -/

/-- One step of `process_op` on device `i`, or `none` when the thread is blocked. -/
def worker_step (K : Kernels) (i : Nat) (s : Shared) (l : Lane) : Option (Shared × Lane) :=
  match l.worker with
  | .unborn => none
  | .lock =>
    if l.m = none then some (s, { l with m := some .worker, worker := .test_ready }) else none
  | .test_ready =>
    if l.ready then some (s, { l with worker := .clear_ready })
    else some (s, { l with m := none, worker := .asleep false })
  | .asleep true =>
    if l.m = none then some (s, { l with m := some .worker, worker := .test_ready }) else none
  | .asleep false => none
  | .clear_ready => some (s, { l with ready := false, worker := .test_stop })
  | .test_stop =>
    if l.process_vertex = INT_MAX then some (s, { l with worker := .set_processed true })
    else some (s, { l with worker := .compile })
  | .compile =>
    some ({ s with machine := compile_task l.process_vertex s.machine },
      { l with worker := .execute })
  | .execute =>
    some ({ s with
        machine := execute_node K 0 l.process_vertex s.machine
        started := s.started ++ [(i, l.process_vertex)] },
      { l with worker := .complete })
  | .complete =>
    some ({ s with completed := s.completed ++ [l.process_vertex] },
      { l with worker := .flag (s.machine.dag.out_edges l.process_vertex) })
  | .flag [] => some (s, { l with worker := .set_processed false })
  | .flag (e :: rest) =>
    some ({ s with machine := s.machine.modify_edge e (fun d =>
        { d with ready_for_next_step := true }) },
      { l with worker := .flag rest })
  | .set_processed last => some (s, { l with processed := true, worker := .unlock last })
  | .unlock last => some (s, { l with m := none, worker := .notify last })
  | .notify false => some (s, { l.notify_device with worker := .lock })
  | .notify true => some (s, { l.notify_device with worker := .finished })
  | .finished => none

/-! ## The system -/

/-- A sleeper wakes up without a notification, and takes the mutex again. -/
def spurious_step (t : Thread) (l : Lane) : Option Lane :=
  if l.m = none then
    match t, l.device, l.worker with
    | .device, .asleep last _, _ => some { l with m := some .device, device := .test_processed last }
    | .worker, _, .asleep _ => some { l with m := some .worker, worker := .test_ready }
    | _, _, _ => none
  else none

def State.put {n : Nat} (s : State n) (i : Fin n) (r : Shared × Lane) : State n :=
  { shared := r.1, lane := Function.update s.lane i r.2 }

/-- One step of the system. `drive` is the device of each device thread. -/
def step {n : Nat} (K : Kernels) (drive : Fin n → Device) (s : State n) :
    Action n → Option (State n)
  | .run i .device => (device_step (drive i) s.shared (s.lane i)).map (s.put i)
  | .run i .worker => (worker_step K i s.shared (s.lane i)).map (s.put i)
  | .spurious i t => (spurious_step t (s.lane i)).map (fun l => s.put i (s.shared, l))

/-- A query for the exchange executor: the graph, the columns, the topological order, and the
alias counter and the stores at the start. -/
structure Query where
  dag : query_graph
  data_scan : ScanMap
  process_queue : List Nat
  counter : Nat
  stores : Stores

def Query.start (q : Query) : Shared :=
  let r := form_lockfree_processing_queue q.data_scan q.process_queue
    (.before q.dag q.counter q.stores)
  { machine := r.1, ex_processing_queue := r.2, started := [], completed := [] }

/-- A device before its thread runs. The entry of `process_vertex` is not initialised. -/
def Lane.start (process_vertex : Nat) : Lane :=
  { device := .spawn, worker := .unborn, ready := false, processed := false, process_vertex
    m := none }

def exchange (K : Kernels) (q : Query) {n : Nat} (drive : Fin n → Device) :
    transition.System (State n) (Action n) where
  init s := s.shared = q.start ∧
    ∀ i, ∃ v, v < q.dag.num_vertices ∧ s.lane i = Lane.start v
  step := step K drive

end hero.morsel_driven
