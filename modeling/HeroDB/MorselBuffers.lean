-- The sizes of the buffers of the data-parallel executor: which buffers and sub-buffers its threads
-- register, and the words that the work items of a launch address in its arguments.
import HeroDB.BufferNames
import HeroDB.MorselThreads
import HeroDB.PrintedRows

namespace hero.data_parallelism

/-! ## What a launch addresses -/

/-- The work items of a launch on one morsel. -/
def work_items (t : Operation_Type) : Nat := ng_morsel_size / t.kernel_local_chunk_size

/-- The words that they address in argument `i`: a selection reads a block of 32 words of its column
for each word of its bitmap. -/
def words_addressed (t : Operation_Type) (i : Nat) : Nat :=
  if t.is_normal_to_bitmap_result ∧ i = 0 then 32 * work_items t else work_items t

section kernels

variable {data bitmap input data2 : List Word} {c1 : Word}

open kernels in
theorem selection_bits_isSome (test : Word → Bool) {gid : Nat} :
    (selection_bits test data gid).isSome ↔ 32 * (gid + 1) ≤ data.length := by
  unfold selection_bits block_pos
  rw [loops.goes_well_iff (fun _ => True) (fun i => 32 * gid + i < data.length)
    (fun bm i _ => by simp [Option.isSome_map]) (fun _ _ _ _ _ => trivial) trivial]
  constructor
  · intro h
    have hlast := h 31 (List.mem_range.mpr (by omega))
    omega
  · intro h i hi
    rw [List.mem_range] at hi
    omega

theorem store_isSome {gid : Nat} {x : Word} :
    (kernels.store bitmap gid x).isSome ↔ gid < bitmap.length := by
  unfold kernels.store
  split
  · simp [*]
  · simp [*]

open kernels in
theorem selection_addresses (test : Word → Bool) (t : Operation_Type)
    (ht : t.is_normal_to_bitmap_result = true) (hitems : 0 < work_items t) :
    (∀ gid < work_items t, ((selection_bits test data gid).bind (store bitmap gid)).isSome) ↔
      words_addressed t 0 ≤ data.length ∧ words_addressed t 1 ≤ bitmap.length := by
  have hone : ∀ gid, ((selection_bits test data gid).bind (store bitmap gid)).isSome ↔
      32 * (gid + 1) ≤ data.length ∧ gid < bitmap.length := by
    intro gid
    rw [← selection_bits_isSome test]
    cases selection_bits test data gid with
    | none => simp
    | some bm => simp [store_isSome]
  have hdata : words_addressed t 0 = 32 * work_items t := if_pos ⟨ht, rfl⟩
  have hbitmap : words_addressed t 1 = work_items t := if_neg (by simp)
  rw [hdata, hbitmap]
  simp only [hone]
  constructor
  · intro h
    have hlast := h (work_items t - 1) (by omega)
    omega
  · intro h gid hgid
    omega

/-- The work items of a selection stay in buffers of these sizes, and of no smaller ones. -/
theorem greater_than_addresses :
    (∀ gid < work_items ng_selection_greater_than,
        (selection_block_greater_than data c1 bitmap gid).isSome) ↔
      words_addressed ng_selection_greater_than 0 ≤ data.length ∧
        words_addressed ng_selection_greater_than 1 ≤ bitmap.length :=
  selection_addresses (fun x => c1 < x) ng_selection_greater_than rfl (by decide)

theorem less_than_addresses :
    (∀ gid < work_items ng_selection_less_than,
        (selection_block_less_than data c1 bitmap gid).isSome) ↔
      words_addressed ng_selection_less_than 0 ≤ data.length ∧
        words_addressed ng_selection_less_than 1 ≤ bitmap.length :=
  selection_addresses (fun x => x < c1) ng_selection_less_than rfl (by decide)

theorem logical_and_addresses :
    (∀ gid < work_items ng_logical_and, (logical_block_and input data2 bitmap gid).isSome) ↔
      words_addressed ng_logical_and 0 ≤ input.length ∧
        words_addressed ng_logical_and 1 ≤ data2.length ∧
        words_addressed ng_logical_and 2 ≤ bitmap.length := by
  have hone : ∀ gid, (logical_block_and input data2 bitmap gid).isSome ↔
      gid < input.length ∧ gid < data2.length ∧ gid < bitmap.length := by
    intro gid
    unfold logical_block_and kernels.word_of_two
    have hinput : input[gid]?.isSome ↔ gid < input.length := by simp
    have hdata2 : data2[gid]?.isSome ↔ gid < data2.length := by simp
    rw [← hinput, ← hdata2]
    cases input[gid]? with
    | none => simp
    | some a =>
      cases data2[gid]? with
      | none => simp
      | some b => simp [store_isSome]
  have hwords : ∀ i, words_addressed ng_logical_and i = work_items ng_logical_and := by
    intro i
    have hnot : ¬(ng_logical_and.is_normal_to_bitmap_result = true ∧ i = 0) :=
      fun h => Bool.false_ne_true h.1
    unfold words_addressed
    rw [if_neg hnot]
  have hpos : 0 < work_items ng_logical_and := by decide
  simp only [hone, hwords]
  constructor
  · intro h
    have hlast := h (work_items ng_logical_and - 1) (by omega)
    omega
  · intro h gid hgid
    omega

end kernels

/-! ## What the threads register -/

/-- A key of the data dictionary, with the words of the buffer or of the region that it names. -/
abbrev Registration := (Name × Nat) × Nat

/-- A key is erased when a new sub-buffer takes it, so that the last registration counts. -/
def registered (log : List Registration) (key : Name × Nat) : Option Nat :=
  (log.filter (fun r => r.1 = key)).getLast?.map (·.2)

def compute_result_morsel_size (operation : Operation_) : Nat :=
  if operation.operationType.is_bitmap_to_normal_result then ng_morsel_size * 32
  else if operation.operationType.is_normal_to_bitmap_result then ng_morsel_size / 32
  else ng_morsel_size

section registrations

variable (device_type : Nat → Device_Type) (info : VertexInfo) (device_index : Nat)

/-- `create_buffer` registers a name that is not there. -/
def new_buffer (s : Memory) (name : Name) (words : Nat) : Option Registration :=
  if s.present name device_index then none else some ((name, device_index), words)

/-- What the step of `transfer_data` at `pc` registers. -/
def transfer_registers (pc : TransferPc) (s : Memory) : Option Registration :=
  let v := info.current_node
  match pc with
  | .start =>
    new_buffer device_index s
      (get_result_buffer_name (device_type device_index) (s.operation v).name)
      (compute_result_size (s.operation v))
  | .input i _ => do
    let e ← info.incoming_edges[i]?
    if (s.node v).executionDevice = (s.edge e).input_device_index then none
    else
      let name ← input_name device_type info device_index i e s
      new_buffer device_index s name (s.operation v).data_size
  | .edge offset i _ => do
    let e ← info.incoming_edges[i]?
    if (s.edge e).fetched_until < (s.edge e).data_size ∧
        (s.node v).executionDevice ≠ (s.edge e).input_device_index then
      let name ← (s.operation v).input_arg_names[i]?
      if (s.edge e).is_work_shared = true ∧
          s.present (compute_alias_name_for_offset name offset) device_index then none
      else some ((compute_alias_name_for_offset name offset, device_index), ng_morsel_size)
    else none
  | _ => none

/-- What the step of `process_data` at `pc` registers. -/
def process_registers (pc : ProcessPc) (s : Memory) : Option Registration :=
  let operation := s.operation info.current_node
  match pc with
  | .sub_buffer offset =>
    some ((compute_alias_name_for_offset operation.result_name
      (get_result_buffer_offset operation offset), device_index),
      compute_result_morsel_size operation)
  | _ => none

/-- What the step of `work_sharing_transfer_and_process_data` at `pc` registers. -/
def helper_registers (pc : HelperPc) (s : Memory) : Option Registration :=
  let operation := s.operation info.current_node
  match pc with
  | .input i => do
    let e ← info.incoming_edges[i]?
    new_buffer device_index s (s.edge e).fetched_data_name (s.edge e).data_size
  | .result => do
    let name ← shared_result_name device_type info device_index s
    new_buffer device_index s name (compute_result_size operation)
  | .copy i => do
    let _ ← info.incoming_edges[i]?
    let name ← operation.input_arg_names[i]?
    some ((compute_alias_name_for_offset name operation.rear_fetched_until, device_index),
      ng_morsel_size)
  | .sub_buffer => do
    let name ← shared_result_name device_type info device_index s
    some ((compute_alias_name_for_offset name
      (get_result_buffer_offset operation operation.rear_fetched_until), device_index),
      compute_result_morsel_size operation)
  | _ => none

end registrations

namespace Setup

variable (c : Setup)

/-- What a step registers. -/
def registers (s : State) : Move → Option Registration
  | .device d =>
    match s.device d with
    | .share v i helper => do
      let e ← (c.plan.findVertexDetails v).incoming_edges[i]?
      helper_registers c.device_type (c.plan.findVertexDetails (c.plan.source e)) d helper s.memory
    | .run v _ process => process_registers (c.plan.findVertexDetails v) d process s.memory
    | _ => none
  | .transfer d =>
    match s.device d with
    | .run v transfer _ =>
      transfer_registers c.device_type (c.plan.findVertexDetails v) d transfer s.memory
    | _ => none

/-- The executor with the log of its registrations. -/
def sized (ng_processing_queue : List Nat) : transition.System (State × List Registration) Move :=
  (c.executor ng_processing_queue).watched c.registers

end Setup

/-- The alias of argument `i` of a launch on the morsel at `offset`: the result comes last. -/
def argument_alias (operation : Operation_) (offset i : Nat) : Option Name :=
  if i < operation.operationType.no_of_args - 1 then
    operation.input_arg_names[i]?.map (fun name => compute_alias_name_for_offset name offset)
  else some (compute_alias_name_for_offset operation.result_name
    (get_result_buffer_offset operation offset))

/-- When `process_data` calls `execute`, each argument has a sub-buffer on the device that holds the
words that the work items address. -/
def LaunchesFit (s : State) (log : List Registration) : Prop :=
  ∀ d v transfer offset, s.device d = .run v transfer (.execute offset) →
    ∀ i < (s.memory.operation v).operationType.no_of_args, ∃ name words,
      argument_alias (s.memory.operation v) offset i = some name ∧
        registered log (name, d) = some words ∧
        words_addressed (s.memory.operation v).operationType i ≤ words

/-- The condition on a step: no device sets up an operation with the bitmap of a selection that it
has executed itself, and no helper registers a sub-buffer for the bits of a selection at a multiple
of the words of a morsel. -/
def Setup.Apart (c : Setup) (s : State) : Move → Prop
  | .transfer d =>
    match s.device d with
    | .run v (.input i _) _ => ∀ e, (c.plan.findVertexDetails v).incoming_edges[i]? = some e →
        (s.memory.edge e).is_virtual_vertex = false →
        (s.memory.operation (c.plan.source e)).operationType.is_normal_to_bitmap_result = true →
        (s.memory.node (c.plan.source e)).executionDevice ≠ d
    | _ => True
  | .device d =>
    match s.device d with
    | .share v i .sub_buffer => ∀ e, (c.plan.findVertexDetails v).incoming_edges[i]? = some e →
        (s.memory.operation (c.plan.source e)).operationType.is_normal_to_bitmap_result = true →
        ¬ng_morsel_size ∣ get_result_buffer_offset (s.memory.operation (c.plan.source e))
          (s.memory.operation (c.plan.source e)).rear_fetched_until
    | _ => True

end hero.data_parallelism
