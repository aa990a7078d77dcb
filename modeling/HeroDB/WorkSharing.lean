-- Work sharing on one selection: its transfer thread, its processing loop and one helper. What each
-- of them knows, and how the three together refine two workers that meet in the middle of a range.
import HeroDB.MorselThreads
import HeroDB.Lib.FrontAndRear

namespace hero.data_parallelism

open front_and_rear (Meeting)

/-! ## The system -/

/-- A selection over `k` morsels, its edges, the device that runs it and the device of its
consumer, which helps. -/
structure Selection where
  operationType : Operation_Type
  ng_operation_counter : Nat
  vertex : Nat
  column_edge : Nat
  out_edge : Nat
  owner : Nat
  helper : Nat
  device_type : Nat → Device_Type
  k : Nat
  one_input : operationType.no_of_args = 2
  edges_apart : column_edge ≠ out_edge
  devices_apart : owner ≠ helper
  one_le : 1 ≤ k
  fits : k * ng_morsel_size < SIZE

/-- The three threads, and what they share. -/
structure Threads where
  memory : Memory
  transfer : TransferPc
  process : ProcessPc
  helper : HelperPc

inductive Actor
  | transfer
  | process
  | helper
deriving DecidableEq

def Threads.finished (s : Threads) : Prop :=
  (∃ max, s.transfer = .finished max) ∧ s.process = .finished ∧ s.helper = .finished

namespace Selection

variable (c : Selection)

def data_size : Nat := c.k * ng_morsel_size

def info : VertexInfo where
  current_node := c.vertex
  incoming_edges := [c.column_edge]
  outgoing_edge := some c.out_edge

def node : Operation_Node :=
  create_node (create_selection_operation c.operationType c.data_size) c.ng_operation_counter

def name : Name := get_operation_alias_name c.ng_operation_counter

/-- The buffer of the column on the device of the owner. -/
def column_name : Name := get_input_buffer_name (c.device_type c.owner) c.name 0

def result_name : Name := get_result_buffer_name (c.device_type c.owner) c.name

/-- The buffer of the results on the device of the helper. -/
def shared_name : Name :=
  c.result_name.take 12 ++ (c.device_type c.helper).name ++ c.result_name.drop 15

def step (s : Threads) : Actor → Option Threads
  | .transfer => (transfer_data c.device_type c.info c.owner s.transfer s.memory).map
      (fun r => { s with transfer := r.1, memory := r.2 })
  | .process => (process_data c.info c.owner s.process s.memory).map
      (fun r => { s with process := r.1, memory := r.2 })
  | .helper => (work_sharing_transfer_and_process_data c.device_type c.info c.helper s.helper
      s.memory).map (fun r => { s with helper := r.1, memory := r.2 })

/-- The device of the owner has taken the selection: nothing of it was fetched or executed, and
none of its buffers are there. -/
structure Starts (s : Threads) : Prop where
  transfer : s.transfer = .start
  process : s.process = .wait
  helper : s.helper = .wait
  node : s.memory.node c.vertex = { c.node with executionDevice := c.owner }
  column : s.memory.edge c.column_edge = create_edge c.data_size true
  fresh : ∀ name ∈ [c.column_name, c.result_name, c.shared_name], ∀ d ∈ [c.owner, c.helper],
    ¬ s.memory.present name d
  unexecuted : ∀ d offset, .execute c.vertex d offset ∉ s.memory.trace

def sharing : transition.System Threads Actor where
  init := c.Starts
  step := c.step

end Selection

/-! ## What the threads know

A step of one thread leaves what the others rely on as it was. -/

/-- A node without its counters, and an edge without its fetch counter. -/
def Operation_Node.fixed (n : Operation_Node) : Operation_Node :=
  { n with _operation := { n._operation with
    fetched_until := 0
    processed_until := 0
    rear_fetched_until := 0
    rear_processed_until := 0 } }

def Exchange_Edge.fixed (d : Exchange_Edge) : Exchange_Edge := { d with fetched_until := 0 }

namespace Selection

variable (c : Selection)

/-- What no thread changes. -/
structure Base (m : Memory) : Prop where
  operationType : (m.operation c.vertex).operationType = c.operationType
  name : (m.operation c.vertex).name = c.name
  device : (m.node c.vertex).executionDevice = c.owner
  column_size : (m.edge c.column_edge).data_size = c.data_size
  column_virtual : (m.edge c.column_edge).is_virtual_vertex = true
  column_device : (m.edge c.column_edge).input_device_index = -1
  column_shared : (m.edge c.column_edge).is_work_shared = false

/-- What the transfer thread has put in place when it sets `is_initialized`. -/
structure Prepared (m : Memory) : Prop where
  initialized : (m.node c.vertex).is_initialized = true
  args : (m.operation c.vertex).input_arg_names = [c.column_name]
  result : (m.operation c.vertex).result_name = c.result_name
  fetched_name : (m.edge c.column_edge).fetched_data_name = c.column_name
  out_name : (m.edge c.out_edge).input_data_name = c.result_name
  column_present : m.present c.column_name c.owner
  result_present : m.present c.result_name c.owner

/-- A step on a device changes counters, and adds buffers of that device. -/
structure Keeps (d : Nat) (m m' : Memory) : Prop where
  node : (m'.node c.vertex).fixed = (m.node c.vertex).fixed
  column : (m'.edge c.column_edge).fixed = (m.edge c.column_edge).fixed
  out_name : (m'.edge c.out_edge).input_data_name = (m.edge c.out_edge).input_data_name
  grows : ∀ name d', m.present name d' → m'.present name d'
  here : ∀ name d', d' ≠ d → m'.present name d' → m.present name d'

variable {c} {m m' : Memory} {d : Nat}

theorem Base.keeps (h : c.Base m) (hk : c.Keeps d m m') : c.Base m' where
  operationType := (congrArg (·._operation.operationType) hk.node).trans h.operationType
  name := (congrArg (·._operation.name) hk.node).trans h.name
  device := (congrArg (·.executionDevice) hk.node).trans h.device
  column_size := (congrArg (·.data_size) hk.column).trans h.column_size
  column_virtual := (congrArg (·.is_virtual_vertex) hk.column).trans h.column_virtual
  column_device := (congrArg (·.input_device_index) hk.column).trans h.column_device
  column_shared := (congrArg (·.is_work_shared) hk.column).trans h.column_shared

theorem Base.modify_operation (h : c.Base m) {f : Operation_ → Operation_}
    (htype : ∀ o, (f o).operationType = o.operationType) (hname : ∀ o, (f o).name = o.name) :
    c.Base (m.modify_operation c.vertex f) :=
  { h with
    operationType := by simp [htype, h.operationType]
    name := by simp [hname, h.name]
    device := by simp [h.device] }

theorem Base.modify_out (h : c.Base m) (f : Exchange_Edge → Exchange_Edge) :
    c.Base (m.modify_edge c.out_edge f) := by
  have hsame := Memory.edge_modify_ne m c.edges_apart f
  obtain ⟨htype, hname, hdevice, hsize, hvirtual, hindex, hshared⟩ := h
  exact ⟨htype, hname, hdevice, by rw [hsame]; exact hsize, by rw [hsame]; exact hvirtual,
    by rw [hsame]; exact hindex, by rw [hsame]; exact hshared⟩

theorem Base.modify_column (h : c.Base m) {f : Exchange_Edge → Exchange_Edge}
    (hf : ∀ e, f e = { e with
      fetched_data_name := (f e).fetched_data_name
      consumer_device_index := (f e).consumer_device_index }) :
    c.Base (m.modify_edge c.column_edge f) := by
  have hcolumn := (Memory.edge_modify_self m c.column_edge f).trans (hf _)
  obtain ⟨htype, hname, hdevice, hsize, hvirtual, hindex, hshared⟩ := h
  exact ⟨htype, hname, hdevice, by rw [hcolumn]; exact hsize, by rw [hcolumn]; exact hvirtual,
    by rw [hcolumn]; exact hindex, by rw [hcolumn]; exact hshared⟩

theorem Base.with_buffer (h : c.Base m) (key : Name × Nat) : c.Base (m.with_buffer key) :=
  ⟨h.operationType, h.name, h.device, h.column_size, h.column_virtual, h.column_device,
    h.column_shared⟩

theorem Prepared.keeps (h : c.Prepared m) (hk : c.Keeps d m m') : c.Prepared m' where
  initialized := (congrArg (·.is_initialized) hk.node).trans h.initialized
  args := (congrArg (·._operation.input_arg_names) hk.node).trans h.args
  result := (congrArg (·._operation.result_name) hk.node).trans h.result
  fetched_name := (congrArg (·.fetched_data_name) hk.column).trans h.fetched_name
  out_name := hk.out_name.trans h.out_name
  column_present := hk.grows _ _ h.column_present
  result_present := hk.grows _ _ h.result_present

theorem Keeps.refl : c.Keeps d m m :=
  ⟨rfl, rfl, rfl, fun _ _ h => h, fun _ _ _ h => h⟩

theorem keeps_operation {f : Operation_ → Operation_}
    (hf : ∀ n : Operation_Node, { n with _operation := f n._operation }.fixed = n.fixed) :
    c.Keeps d m (m.modify_operation c.vertex f) := by
  refine ⟨?_, rfl, rfl, fun _ _ h => h, fun _ _ _ h => h⟩
  unfold Memory.modify_operation
  rw [Memory.node_modify_self]
  exact hf _

theorem keeps_column {f : Exchange_Edge → Exchange_Edge} (hf : ∀ e, (f e).fixed = e.fixed) :
    c.Keeps d m (m.modify_edge c.column_edge f) := by
  refine ⟨rfl, ?_, ?_, fun _ _ h => h, fun _ _ _ h => h⟩
  · rw [Memory.edge_modify_self]
    exact hf _
  · rw [Memory.edge_modify_ne _ c.edges_apart.symm]

theorem keeps_out {f : Exchange_Edge → Exchange_Edge}
    (hf : ∀ e, (f e).input_data_name = e.input_data_name) :
    c.Keeps d m (m.modify_edge c.out_edge f) := by
  refine ⟨rfl, ?_, ?_, fun _ _ h => h, fun _ _ _ h => h⟩
  · rw [Memory.edge_modify_ne _ c.edges_apart]
  · rw [Memory.edge_modify_self]
    exact hf _

theorem keeps_log (event : Event) : c.Keeps d m (m.log event) :=
  ⟨rfl, rfl, rfl, fun _ _ h => h, fun _ _ _ h => h⟩

theorem keeps_buffer (name : Name) : c.Keeps d m (m.with_buffer (name, d)) := by
  refine ⟨rfl, rfl, rfl, fun name' d' h => ?_, fun name' d' hd h => ?_⟩
  · exact (Memory.present_with_buffer _ _ _).mpr (.inr h)
  · rcases (Memory.present_with_buffer _ _ _).mp h with heq | h
    · exact absurd (congrArg Prod.snd heq) hd
    · exact h

theorem keeps_key (name : Name) : c.Keeps d m (m.with_key (name, d)) := by
  refine ⟨rfl, rfl, rfl, fun name' d' h => ?_, fun name' d' hd h => ?_⟩
  · exact (Memory.present_with_key _ _ _).mpr (.inr h)
  · rcases (Memory.present_with_key _ _ _).mp h with heq | h
    · exact absurd (congrArg Prod.snd heq) hd
    · exact h

/-! ## Where the threads are -/

variable (c)

/-- Before `is_initialized` is set nothing has happened to the data. -/
structure Unstarted (m : Memory) (a : Meeting) : Prop where
  start : a = .start c.k
  uninitialized : (m.node c.vertex).is_initialized = false
  unfetched : (m.edge c.column_edge).fetched_until = 0

/-- The result buffer is there, and the column has no buffer. -/
structure Named (m : Memory) : Prop where
  args : (m.operation c.vertex).input_arg_names = []
  result : (m.operation c.vertex).result_name = c.result_name
  result_present : m.present c.result_name c.owner
  column_absent : ¬ m.present c.column_name c.owner

/-- The buffer of the column is there too. -/
structure Opened (m : Memory) : Prop where
  args : (m.operation c.vertex).input_arg_names = [c.column_name]
  result : (m.operation c.vertex).result_name = c.result_name
  fetched_name : (m.edge c.column_edge).fetched_data_name = c.column_name
  out_name : (m.edge c.out_edge).input_data_name = c.result_name
  column_present : m.present c.column_name c.owner
  result_present : m.present c.result_name c.owner

/-- The transfer of the morsel at `offset` has started, and the fetch counter of the edge is
`fetched`. -/
structure Moving (m : Memory) (a : Meeting) (offset fetched : Nat) : Prop where
  prepared : c.Prepared m
  offset : offset = ng_morsel_size * a.front
  fetched : (m.edge c.column_edge).fetched_until = fetched
  claimed : a.claimed = true

/-- What holds where the transfer thread is. -/
def TransferOk (m : Memory) (a : Meeting) : TransferPc → Prop
  | .start => c.Unstarted m a ∧ (m.operation c.vertex).input_arg_names = [] ∧
      ¬ m.present c.result_name c.owner ∧ ¬ m.present c.column_name c.owner
  | .put_device => c.Unstarted m a ∧ c.Named m
  | .put_name => c.Unstarted m a ∧ c.Named m
  | .put_size => c.Unstarted m a ∧ c.Named m ∧
      (m.edge c.out_edge).input_data_name = c.result_name
  | .input 0 max => c.Unstarted m a ∧ c.Named m ∧
      (m.edge c.out_edge).input_data_name = c.result_name ∧ max = 0
  | .size 0 max => c.Unstarted m a ∧ c.Opened m ∧ max = 0
  | .raise 0 _ => c.Unstarted m a ∧ c.Opened m
  | .consumer 0 max => c.Unstarted m a ∧ c.Opened m ∧ max = c.data_size
  | .input 1 max => c.Unstarted m a ∧ c.Opened m ∧ max = c.data_size
  | .put_rear_processed max => c.Unstarted m a ∧ c.Opened m ∧ max = c.data_size
  | .put_rear_fetched max => c.Unstarted m a ∧ c.Opened m ∧ max = c.data_size ∧
      (m.operation c.vertex).rear_processed_until = c.data_size
  | .put_initialized max => c.Unstarted m a ∧ c.Opened m ∧ max = c.data_size ∧
      (m.operation c.vertex).rear_processed_until = c.data_size ∧
      (m.operation c.vertex).rear_fetched_until = c.data_size
  | .loop offset _ => c.Prepared m ∧ offset = ng_morsel_size * a.front ∧
      (m.edge c.column_edge).fetched_until = offset ∧ a.claimed = false
  | .edge offset 0 _ => c.Moving m a offset offset
  | .copy offset 0 _ => c.Moving m a offset offset ∧
      m.present (compute_alias_name_for_offset c.column_name offset) c.owner
  | .fetched offset 0 _ => c.Moving m a offset offset ∧
      m.present (compute_alias_name_for_offset c.column_name offset) c.owner
  | .edge offset 1 _ => c.Moving m a offset (offset + ng_morsel_size) ∧
      m.present (compute_alias_name_for_offset c.column_name offset) c.owner
  | .advance offset _ => c.Moving m a offset (offset + ng_morsel_size) ∧
      m.present (compute_alias_name_for_offset c.column_name offset) c.owner
  | .finished _ => c.Prepared m ∧ a.rear ≤ a.front ∧ a.claimed = false
  | _ => False

/-- What holds where the processing loop is. -/
def ProcessOk (m : Memory) (a : Meeting) : ProcessPc → Prop
  | .wait => a.done = 0
  | .loop offset _ => c.Prepared m ∧ offset = ng_morsel_size * a.done
  | .sub_buffer offset => c.Prepared m ∧ offset = ng_morsel_size * a.done
  | .test offset i => c.Prepared m ∧ offset = ng_morsel_size * a.done ∧ i ≤ 1 ∧
      (0 < i → a.done < a.front)
  | .execute offset => c.Prepared m ∧ offset = ng_morsel_size * a.done ∧ a.done < a.front
  | .put_processed offset => c.Prepared m ∧ offset = ng_morsel_size * a.done ∧ a.done < a.front
  | .put_edge offset => c.Prepared m ∧ offset + ng_morsel_size = ng_morsel_size * a.done
  | .put_EOD => c.Prepared m ∧ a.handed ≤ a.done
  | .finished => c.Prepared m ∧ a.handed ≤ a.done
  | .unborn => False

/-- What holds where the helper is. -/
def HelperOk (m : Memory) (a : Meeting) : HelperPc → Prop
  | .wait => a.helper = .idle ∧ ¬ m.present c.column_name c.helper ∧
      ¬ m.present c.shared_name c.helper
  | .input 0 => c.Prepared m ∧ a.helper = .idle ∧ ¬ m.present c.column_name c.helper ∧
      ¬ m.present c.shared_name c.helper
  | .input 1 => c.Prepared m ∧ a.helper = .idle ∧ m.present c.column_name c.helper ∧
      ¬ m.present c.shared_name c.helper
  | .result => c.Prepared m ∧ a.helper = .idle ∧ m.present c.column_name c.helper ∧
      ¬ m.present c.shared_name c.helper
  | .put_shared | .loop => c.Prepared m ∧ a.helper = .idle ∧ m.present c.column_name c.helper ∧
      m.present c.shared_name c.helper
  | .front f => c.Prepared m ∧ (∃ i, f = ng_morsel_size * i ∧ a.helper = .saw i) ∧
      m.present c.column_name c.helper ∧ m.present c.shared_name c.helper
  | .take => c.Prepared m ∧ a.helper = .claims ∧ m.present c.column_name c.helper ∧
      m.present c.shared_name c.helper
  | .copy 0 | .copy 1 | .sub_buffer | .execute | .put_edge | .put_rear =>
      c.Prepared m ∧ a.helper = .holds ∧ m.present c.column_name c.helper ∧
      m.present c.shared_name c.helper
  | .finished => c.Prepared m ∧ a.helper = .stopped
  | _ => False

end Selection

/-- An executed morsel whose counter is not yet published. -/
def ProcessPc.ran : ProcessPc → Nat
  | .put_processed _ => 1
  | _ => 0

def HelperPc.ran : HelperPc → Nat
  | .put_edge | .put_rear => 1
  | _ => 0

namespace Selection

variable (c : Selection)

/-- The three threads are where the two workers of a meeting are; a unit of the counters of the
meeting is a morsel. -/
structure Refines (s : Threads) (a : Meeting) : Prop where
  base : c.Base s.memory
  fetched : (s.memory.operation c.vertex).fetched_until = ng_morsel_size * a.front
  processed : (s.memory.operation c.vertex).processed_until = ng_morsel_size * a.done
  rear : (s.memory.node c.vertex).is_initialized = true →
    (s.memory.operation c.vertex).rear_fetched_until = ng_morsel_size * a.rear ∧
    (s.memory.operation c.vertex).rear_processed_until = ng_morsel_size * a.handed
  sub_buffers : ∀ i < a.front,
    s.memory.present (compute_alias_name_for_offset c.column_name (ng_morsel_size * i)) c.owner
  transfer : c.TransferOk s.memory a s.transfer
  process : c.ProcessOk s.memory a s.process
  helper : c.HelperOk s.memory a s.helper
  owner_log : ∀ offset, .execute c.vertex c.owner offset ∈ s.memory.trace ↔
    ∃ i, i < a.done + s.process.ran ∧ offset = ng_morsel_size * i
  helper_log : ∀ offset, .execute c.vertex c.helper offset ∈ s.memory.trace ↔
    ∃ i, i < c.k ∧ a.handed ≤ i + s.helper.ran ∧ offset = ng_morsel_size * i

variable {c} {m m' : Memory} {a b : Meeting} {s : Threads} {d : Nat}

theorem Unstarted.not_prepared (h : c.Unstarted m a)
    (hinit : (m.node c.vertex).is_initialized = true) : False := by
  rw [h.uninitialized] at hinit
  cases hinit

/-- The other threads leave the transfer thread where it is, once it has set `is_initialized`. -/
theorem TransferOk.keeps {pc : TransferPc} (h : c.TransferOk m a pc) (hk : c.Keeps d m m')
    (hinit : (m.node c.vertex).is_initialized = true)
    (hcolumn : (m'.edge c.column_edge).fetched_until = (m.edge c.column_edge).fetched_until)
    (hfront : b.front = a.front) (hclaimed : b.claimed = a.claimed) (hrear : b.rear ≤ a.rear) :
    c.TransferOk m' b pc := by
  have hmoving : ∀ {offset fetched}, c.Moving m a offset fetched → c.Moving m' b offset fetched := by
    intro offset fetched hmov
    exact ⟨hmov.prepared.keeps hk, by rw [hfront]; exact hmov.offset,
      hcolumn.trans hmov.fetched, hclaimed.trans hmov.claimed⟩
  unfold TransferOk at h ⊢
  split at h
  case h_13 =>
    obtain ⟨hp, hoff, hfetched, hcl⟩ := h
    exact ⟨hp.keeps hk, by rw [hfront]; exact hoff, hcolumn.trans hfetched, hclaimed.trans hcl⟩
  case h_14 => exact hmoving h
  case h_19 =>
    obtain ⟨hp, hle, hcl⟩ := h
    exact ⟨hp.keeps hk, by rw [hfront]; exact Nat.le_trans hrear hle, hclaimed.trans hcl⟩
  case h_20 => exact h.elim
  all_goals first
    | exact (h.1.not_prepared hinit).elim
    | exact ⟨hmoving h.1, hk.grows _ _ h.2⟩

theorem ProcessOk.keeps {pc : ProcessPc} (h : c.ProcessOk m a pc) (hk : c.Keeps d m m')
    (hdone : b.done = a.done) (hfront : a.front ≤ b.front) (hhanded : b.handed ≤ a.handed) :
    c.ProcessOk m' b pc := by
  cases pc with
  | unborn => exact h
  | wait => exact hdone.trans h
  | loop offset created => exact ⟨h.1.keeps hk, by rw [hdone]; exact h.2⟩
  | sub_buffer offset => exact ⟨h.1.keeps hk, by rw [hdone]; exact h.2⟩
  | test offset i =>
    obtain ⟨hp, hoff, hi, hlt⟩ := h
    exact ⟨hp.keeps hk, by rw [hdone]; exact hoff, hi,
      fun hi => by rw [hdone]; exact Nat.lt_of_lt_of_le (hlt hi) hfront⟩
  | execute offset =>
    obtain ⟨hp, hoff, hlt⟩ := h
    exact ⟨hp.keeps hk, by rw [hdone]; exact hoff,
      by rw [hdone]; exact Nat.lt_of_lt_of_le hlt hfront⟩
  | put_processed offset =>
    obtain ⟨hp, hoff, hlt⟩ := h
    exact ⟨hp.keeps hk, by rw [hdone]; exact hoff,
      by rw [hdone]; exact Nat.lt_of_lt_of_le hlt hfront⟩
  | put_edge offset => exact ⟨h.1.keeps hk, by rw [hdone]; exact h.2⟩
  | put_EOD => exact ⟨h.1.keeps hk, by rw [hdone]; exact Nat.le_trans hhanded h.2⟩
  | finished => exact ⟨h.1.keeps hk, by rw [hdone]; exact Nat.le_trans hhanded h.2⟩

theorem HelperOk.keeps {pc : HelperPc} (h : c.HelperOk m a pc) (hk : c.Keeps d m m')
    (hd : c.helper ≠ d) (hhelper : b.helper = a.helper) : c.HelperOk m' b pc := by
  have habsent : ∀ name, ¬ m.present name c.helper → ¬ m'.present name c.helper :=
    fun name hn hp => hn (hk.here _ _ hd hp)
  unfold HelperOk at h ⊢
  rw [hhelper]
  split at h
  case h_1 => exact ⟨h.1, habsent _ h.2.1, habsent _ h.2.2⟩
  case h_2 => exact ⟨h.1.keeps hk, h.2.1, habsent _ h.2.2.1, habsent _ h.2.2.2⟩
  case h_3 => exact ⟨h.1.keeps hk, h.2.1, hk.grows _ _ h.2.2.1, habsent _ h.2.2.2⟩
  case h_4 => exact ⟨h.1.keeps hk, h.2.1, hk.grows _ _ h.2.2.1, habsent _ h.2.2.2⟩
  case h_15 => exact ⟨h.1.keeps hk, h.2⟩
  case h_16 => exact h.elim
  all_goals exact ⟨h.1.keeps hk, h.2.1, hk.grows _ _ h.2.2.1, hk.grows _ _ h.2.2.2⟩

end Selection

/-! ## The work that is left -/

/-- An upper bound on the steps that a thread still takes, its waiting not counted. -/
def TransferPc.work (k : Nat) : TransferPc → Nat
  | .unborn => 0
  | .start => 6 * k + 13
  | .put_device => 6 * k + 12
  | .put_name => 6 * k + 11
  | .put_size => 6 * k + 10
  | .input i _ => 6 * k + 9 - 4 * i
  | .size _ _ => 6 * k + 8
  | .raise _ _ => 6 * k + 7
  | .consumer _ _ => 6 * k + 6
  | .put_rear_processed _ => 6 * k + 4
  | .put_rear_fetched _ => 6 * k + 3
  | .put_initialized _ => 6 * k + 2
  | .loop offset _ => 6 * (k - offset / ng_morsel_size) + 1
  | .edge offset i _ => 6 * (k - offset / ng_morsel_size) - 3 * i
  | .copy offset _ _ => 6 * (k - offset / ng_morsel_size) - 1
  | .fetched offset _ _ => 6 * (k - offset / ng_morsel_size) - 2
  | .advance offset _ => 6 * (k - offset / ng_morsel_size) - 4
  | .finished _ => 0

def ProcessPc.work (k : Nat) : ProcessPc → Nat
  | .unborn => 0
  | .wait => 6 * k + 3
  | .loop offset _ => 6 * (k - offset / ng_morsel_size) + 2
  | .sub_buffer offset => 6 * (k - offset / ng_morsel_size) + 2
  | .test offset i => 6 * (k - offset / ng_morsel_size) + 2 - i
  | .execute offset => 6 * (k - offset / ng_morsel_size)
  | .put_processed offset => 6 * (k - offset / ng_morsel_size) - 1
  | .put_edge offset => 6 * (k - offset / ng_morsel_size) - 2
  | .put_EOD => 1
  | .finished => 0

def HelperPc.work (k rear : Nat) : HelperPc → Nat
  | .unborn => 0
  | .wait => 9 * k + 8
  | .input i => 9 * k + 7 - i
  | .result => 9 * k + 5
  | .put_shared => 9 * k + 4
  | .loop => 9 * rear + 2
  | .front _ => 9 * rear + 1
  | .take => 9 * rear
  | .copy i => 9 * rear + 8 - i
  | .sub_buffer => 9 * rear + 6
  | .execute => 9 * rear + 5
  | .put_edge => 9 * rear + 4
  | .put_rear => 9 * rear + 3
  | .finished => 0

/-- A rear counter that stays as it is, is set to the data size, or goes down by one morsel and
does not fall below one. -/
def Lowers (data_size x x' : Nat) : Prop :=
  x' = x ∨ (ng_morsel_size ≤ x' ∧ (x' = data_size ∨ x' + ng_morsel_size = x))

namespace Selection

variable (c : Selection)

def work (s : Threads) : Nat :=
  s.transfer.work c.k + s.process.work c.k +
    s.helper.work c.k ((s.memory.operation c.vertex).rear_fetched_until / ng_morsel_size)

/-- A step of the threads is a step of the meeting, or none. -/
structure Simulates (s t : Threads) (a b : Meeting) : Prop where
  refines : c.Refines t b
  step : b = a ∨ front_and_rear.Step a b
  rear_fetched : Lowers c.data_size (s.memory.operation c.vertex).rear_fetched_until
    (t.memory.operation c.vertex).rear_fetched_until
  rear_processed : Lowers c.data_size (s.memory.operation c.vertex).rear_processed_until
    (t.memory.operation c.vertex).rear_processed_until

end Selection

end hero.data_parallelism
