-- What each step of the data-parallel executor can do to the counters of the operations, to the
-- sizes on the edges and to the log.
import HeroDB.MorselThreads

namespace hero.data_parallelism

/-! ## The counters of a node -/

/-- What the threads of other vertices can see of a node. -/
@[ext]
structure Core where
  is_initialized : Bool
  operationType : Operation_Type
  data_size : Nat
  processed_until : Nat
  rear_fetched_until : Nat
  rear_processed_until : Nat

def Operation_Node.core (n : Operation_Node) : Core where
  is_initialized := n.is_initialized
  operationType := n._operation.operationType
  data_size := n._operation.data_size
  processed_until := n._operation.processed_until
  rear_fetched_until := n._operation.rear_fetched_until
  rear_processed_until := n._operation.rear_processed_until

/-- The one write of a step to the core of its node. -/
def TransferPc.writes (pc : TransferPc) (k : Core) : Core :=
  match pc with
  | .put_rear_processed max => { k with rear_processed_until := max }
  | .put_rear_fetched max => { k with rear_fetched_until := max }
  | .put_initialized _ => { k with is_initialized := true }
  | _ => k

def ProcessPc.writes (pc : ProcessPc) (k : Core) : Core :=
  match pc with
  | .put_processed offset => { k with processed_until := size_add offset ng_morsel_size }
  | _ => k

def HelperPc.writes (pc : HelperPc) (k : Core) : Core :=
  match pc with
  | .take => { k with rear_fetched_until := size_sub k.rear_fetched_until ng_morsel_size }
  | .put_rear => { k with rear_processed_until := k.rear_fetched_until }
  | _ => k

/-- The step of a thread of the vertex `v`: one write to its node, and edges whose kind stays and
whose data size stays or is a result size of the vertex. -/
structure Effect (v : Nat) (writes : Core → Core) (m m' : Memory) : Prop where
  node : (m'.node v).core = writes (m.node v).core
  others : ∀ u, u ≠ v → (m'.node u).core = (m.node u).core
  kinds : ∀ e, (m'.edge e).is_virtual_vertex = (m.edge e).is_virtual_vertex
  sizes : ∀ e, (m'.edge e).data_size = (m.edge e).data_size ∨
    (m'.edge e).data_size = compute_result_size (m.operation v)

namespace Memory

variable (m : Memory)

theorem core_modify_operation (v u : Nat) {f : Operation_ → Operation_} {writes : Core → Core}
    (hf : ∀ n : Operation_Node, { n with _operation := f n._operation }.core = writes n.core) :
    ((m.modify_operation v f).node u).core =
      if u = v then writes (m.node v).core else (m.node u).core := by
  unfold modify_operation modify_node
  by_cases h : u = v
  · subst h
    rw [if_pos rfl]
    simp only [Function.update_self]
    exact hf _
  · rw [if_neg h]
    simp only [Function.update_of_ne h]

end Memory

variable {v : Nat} {m m' m'' : Memory}

theorem Effect.refl : Effect v id m m :=
  ⟨rfl, fun _ _ => rfl, fun _ => rfl, fun _ => .inl rfl⟩

/-- A write to the operation of the vertex. -/
theorem effect_operation {f : Operation_ → Operation_} {writes : Core → Core}
    (hf : ∀ n : Operation_Node, { n with _operation := f n._operation }.core = writes n.core) :
    Effect v writes m (m.modify_operation v f) := by
  refine ⟨?_, fun u hu => ?_, fun _ => rfl, fun _ => .inl rfl⟩
  · rw [m.core_modify_operation v v hf, if_pos rfl]
  · rw [m.core_modify_operation v u hf, if_neg hu]

/-- A write to an edge that keeps its kind and its size. -/
theorem effect_edge (e : Nat) {f : Exchange_Edge → Exchange_Edge}
    (hkind : ∀ d, (f d).is_virtual_vertex = d.is_virtual_vertex)
    (hsize : ∀ d, (f d).data_size = d.data_size) : Effect v id m (m.modify_edge e f) := by
  refine ⟨rfl, fun _ _ => rfl, fun e' => ?_, fun e' => .inl ?_⟩
  · by_cases h : e' = e
    · subst h
      rw [Memory.edge_modify_self]
      exact hkind _
    · rw [Memory.edge_modify_ne _ h]
  · by_cases h : e' = e
    · subst h
      rw [Memory.edge_modify_self]
      exact hsize _
    · rw [Memory.edge_modify_ne _ h]

theorem effect_initialized : Effect v (fun k => { k with is_initialized := true }) m
    (m.modify_node v (fun n => { n with is_initialized := true })) := by
  refine ⟨?_, fun u hu => ?_, fun _ => rfl, fun _ => .inl rfl⟩
  · rw [Memory.node_modify_self]
    rfl
  · simp only [Memory.modify_node, Function.update_of_ne hu]

/-- The write of the result size to the out-edge. -/
theorem effect_result_size (e : Nat) : Effect v id m (m.modify_edge e
    (fun d => { d with data_size := compute_result_size (m.operation v) })) := by
  refine ⟨rfl, fun _ _ => rfl, fun e' => ?_, fun e' => ?_⟩
  · by_cases h : e' = e
    · subst h
      simp
    · rw [Memory.edge_modify_ne _ h]
  · by_cases h : e' = e
    · subst h
      simp
    · rw [Memory.edge_modify_ne _ h]
      exact .inl rfl

/-- Steps that write nothing to the node, before or after another one. -/
theorem Effect.after {writes : Core → Core} (h : Effect v id m m') (h' : Effect v writes m' m'')
    (hresult : compute_result_size (m'.operation v) = compute_result_size (m.operation v)) :
    Effect v writes m m'' := by
  refine ⟨?_, fun u hu => (h'.others u hu).trans (h.others u hu),
    fun e => (h'.kinds e).trans (h.kinds e), fun e => ?_⟩
  · rw [h'.node, h.node]
    rfl
  · rcases h'.sizes e with hsize | hsize
    · rw [hsize]
      exact h.sizes e
    · rw [hsize, hresult]
      exact .inr rfl

/-- A change of the buffers or of the log. -/
theorem effect_of_same {writes : Core → Core} (h : Effect v writes m m')
    (hnode : m''.node = m'.node) (hedge : m''.edge = m'.edge) : Effect v writes m m'' := by
  obtain ⟨hv, hothers, hkinds, hsizes⟩ := h
  exact ⟨by rw [hnode]; exact hv, by rw [hnode]; exact hothers, by rw [hedge]; exact hkinds,
    by rw [hedge]; exact hsizes⟩

theorem create_buffer_same {name : Name} {d : Nat} {throws : Bool}
    (h : m.create_buffer name d throws = some m') :
    m'.node = m.node ∧ m'.edge = m.edge ∧ m'.trace = m.trace := by
  unfold Memory.create_buffer at h
  split at h
  · split at h
    · cases h
    · cases h
      exact ⟨rfl, rfl, rfl⟩
  · cases h
    exact ⟨rfl, rfl, rfl⟩

theorem create_sub_buffer_same {name : Name} {d offset : Nat}
    (h : m.create_sub_buffer name d offset = some m') :
    m'.node = m.node ∧ m'.edge = m.edge ∧ m'.trace = m.trace := by
  unfold Memory.create_sub_buffer at h
  split at h
  · cases h
    exact ⟨rfl, rfl, rfl⟩
  · cases h

/-! ## The transfer thread -/

/-- The transfer thread has set `is_initialized`. -/
def TransferPc.ready : TransferPc → Bool
  | .loop _ _ | .edge _ _ _ | .copy _ _ _ | .fetched _ _ _ | .advance _ _ | .finished _ => true
  | _ => false

/-- The largest size of an in-edge so far. -/
def TransferPc.largest : TransferPc → Nat
  | .input _ max | .size _ max | .raise _ max | .consumer _ max | .put_rear_processed max
  | .put_rear_fetched max | .put_initialized max | .loop _ max | .edge _ _ max | .copy _ _ max
  | .fetched _ _ max | .advance _ max | .finished max => max
  | _ => 0

/-- What a step of the transfer thread does: one write, a log entry when it copies, and the setup
goes through its three last steps in their order. -/
structure TransferStep (info : VertexInfo) (pc pc' : TransferPc) (m m' : Memory) : Prop where
  effect : Effect info.current_node pc.writes m m'
  trace : m'.trace = m.trace ∨ ∃ offset i max e, pc = .copy offset i max ∧
    info.incoming_edges[i]? = some e ∧ (m.edge e).is_virtual_vertex = false ∧
    m'.trace = m.trace ++ [.copy info.current_node e offset]
  processed : ∀ max, pc' = .put_rear_fetched max → pc = .put_rear_processed max
  fetched : ∀ max, pc' = .put_initialized max → pc = .put_rear_fetched max
  ready : pc'.ready = true ↔ pc.ready = true ∨ ∃ max, pc = .put_initialized max
  largest : pc'.largest ≤ pc.largest ∨ ∃ e, pc'.largest = (m.edge e).data_size

variable {device_type : Nat → Device_Type} {info : VertexInfo} {d : Nat}

theorem prepare_input_effect {i e : Nat}
    (h : prepare_input device_type info d i e m = some m') :
    Effect info.current_node id m m' ∧ m'.trace = m.trace := by
  simp only [prepare_input] at h
  split at h
  · cases h
    refine ⟨Effect.after ?_ (effect_operation ?_) rfl, rfl⟩
    · exact effect_edge e (fun _ => rfl) (fun _ => rfl)
    · exact fun _ => rfl
  · simp only [Option.bind_eq_bind, Option.bind_eq_some_iff] at h
    obtain ⟨name, -, hbuffer⟩ := h
    obtain ⟨hnode, hedge, htrace⟩ := create_buffer_same hbuffer
    refine ⟨effect_of_same ?_ hnode hedge, htrace⟩
    refine Effect.after ?_ (effect_operation ?_) rfl
    · exact effect_edge e (fun _ => rfl) (fun _ => rfl)
    · exact fun _ => rfl

theorem open_morsel_effect {offset i max e : Nat} {pc : TransferPc}
    (h : open_morsel info d offset i max e m = some (pc, m')) :
    Effect info.current_node id m m' ∧ m'.trace = m.trace ∧ pc.ready = true ∧ pc.largest = max := by
  simp only [open_morsel] at h
  split at h
  · simp only [Option.bind_eq_bind, Option.bind_eq_some_iff] at h
    obtain ⟨name, -, h⟩ := h
    split at h
    · cases h
      exact ⟨.refl, rfl, rfl, rfl⟩
    · simp only [Option.bind_eq_some_iff] at h
      obtain ⟨m₁, hsub, h⟩ := h
      cases h
      obtain ⟨hnode, hedge, htrace⟩ := create_sub_buffer_same hsub
      exact ⟨effect_of_same .refl hnode hedge, htrace, rfl, rfl⟩
  · cases h
    exact ⟨.refl, rfl, rfl, rfl⟩

theorem transfer_step {pc pc' : TransferPc}
    (h : transfer_data device_type info d pc m = some (pc', m')) :
    TransferStep info pc pc' m m' := by
  cases pc with
  | unborn => cases h
  | start =>
    simp only [transfer_data, Option.bind_eq_bind, Option.bind_eq_some_iff] at h
    obtain ⟨m₁, hbuffer, h⟩ := h
    cases h
    obtain ⟨hnode, hedge, htrace⟩ := create_buffer_same hbuffer
    have hsame : Effect info.current_node id m m₁ := effect_of_same .refl hnode hedge
    have hop : m₁.operation = m.operation := by unfold Memory.operation; rw [hnode]
    refine ⟨hsame.after (effect_operation (fun _ => rfl)) (by rw [hop]), .inl htrace, ?_, ?_, ?_,
      .inl ?_⟩
    · intro max hpc
      split at hpc <;> cases hpc
    · intro max hpc
      split at hpc <;> cases hpc
    · split <;> simp [TransferPc.ready]
    · split <;> exact Nat.le_refl _
  | put_device =>
    simp only [transfer_data, Option.bind_eq_bind, Option.bind_eq_some_iff] at h
    obtain ⟨out, -, h⟩ := h
    cases h
    exact ⟨effect_edge out (fun _ => rfl) (fun _ => rfl), .inl rfl, by simp, by simp,
      by simp [TransferPc.ready], .inl (Nat.le_refl _)⟩
  | put_name =>
    simp only [transfer_data, Option.bind_eq_bind, Option.bind_eq_some_iff] at h
    obtain ⟨out, -, h⟩ := h
    cases h
    exact ⟨effect_edge out (fun _ => rfl) (fun _ => rfl), .inl rfl, by simp, by simp,
      by simp [TransferPc.ready], .inl (Nat.le_refl _)⟩
  | put_size =>
    simp only [transfer_data, Option.bind_eq_bind, Option.bind_eq_some_iff] at h
    obtain ⟨out, -, h⟩ := h
    cases h
    exact ⟨effect_result_size out, .inl rfl, by simp, by simp, by simp [TransferPc.ready],
        .inl (Nat.le_refl _)⟩
  | input i max =>
    simp only [transfer_data] at h
    split at h
    · cases h
      exact ⟨.refl, .inl rfl, by simp, by simp, by simp [TransferPc.ready],
        .inl (Nat.le_refl _)⟩
    · simp only [Option.bind_eq_bind, Option.bind_eq_some_iff] at h
      obtain ⟨m₁, hinput, h⟩ := h
      cases h
      obtain ⟨heffect, htrace⟩ := prepare_input_effect hinput
      exact ⟨heffect, .inl htrace, by simp, by simp, by simp [TransferPc.ready],
        .inl (Nat.le_refl _)⟩
  | size i max =>
    simp only [transfer_data, Option.bind_eq_bind, Option.bind_eq_some_iff] at h
    obtain ⟨e, -, h⟩ := h
    split at h
    · cases h
      exact ⟨.refl, .inl rfl, by simp, by simp, by simp [TransferPc.ready],
        .inl (Nat.le_refl _)⟩
    · cases h
      exact ⟨.refl, .inl rfl, by simp, by simp, by simp [TransferPc.ready],
        .inl (Nat.le_refl _)⟩
  | raise i max =>
    simp only [transfer_data, Option.bind_eq_bind, Option.bind_eq_some_iff] at h
    obtain ⟨e, -, h⟩ := h
    cases h
    exact ⟨.refl, .inl rfl, by simp, by simp, by simp [TransferPc.ready], .inr ⟨e, rfl⟩⟩
  | consumer i max =>
    simp only [transfer_data, Option.bind_eq_bind, Option.bind_eq_some_iff] at h
    obtain ⟨e, -, h⟩ := h
    cases h
    exact ⟨effect_edge e (fun _ => rfl) (fun _ => rfl), .inl rfl, by simp, by simp,
      by simp [TransferPc.ready], .inl (Nat.le_refl _)⟩
  | put_rear_processed max =>
    cases h
    exact ⟨effect_operation (fun _ => rfl), .inl rfl, by simp, by simp, by simp [TransferPc.ready],
        .inl (Nat.le_refl _)⟩
  | put_rear_fetched max =>
    cases h
    exact ⟨effect_operation (fun _ => rfl), .inl rfl, by simp, by simp, by simp [TransferPc.ready],
        .inl (Nat.le_refl _)⟩
  | put_initialized max =>
    cases h
    exact ⟨effect_initialized, .inl rfl, by simp, by simp, by simp [TransferPc.ready],
        .inl (Nat.le_refl _)⟩
  | loop offset max =>
    simp only [transfer_data] at h
    split at h
    · cases h
      exact ⟨.refl, .inl rfl, by simp, by simp, by simp [TransferPc.ready],
        .inl (Nat.le_refl _)⟩
    · cases h
      exact ⟨.refl, .inl rfl, by simp, by simp, by simp [TransferPc.ready],
        .inl (Nat.le_refl _)⟩
  | edge offset i max =>
    simp only [transfer_data] at h
    split at h
    · cases h
      exact ⟨.refl, .inl rfl, by simp, by simp, by simp [TransferPc.ready],
        .inl (Nat.le_refl _)⟩
    · obtain ⟨heffect, htrace, hready, hmax⟩ := open_morsel_effect h
      refine ⟨heffect, .inl htrace, fun _ hpc => ?_, fun _ hpc => ?_, iff_of_true hready (.inl rfl),
        .inl (Nat.le_of_eq hmax)⟩
      · rw [hpc] at hready
        cases hready
      · rw [hpc] at hready
        cases hready
  | copy offset i max =>
    simp only [transfer_data, Option.bind_eq_bind, Option.bind_eq_some_iff] at h
    obtain ⟨e, he, h⟩ := h
    split at h
    · cases h
      refine ⟨?_, ?_, by simp, by simp, by simp [TransferPc.ready],
        .inl (Nat.le_refl _)⟩
      · split
        · exact .refl
        · exact effect_of_same .refl rfl rfl
      · split
        · exact .inl rfl
        · rename_i hvirtual
          exact .inr ⟨offset, i, max, e, rfl, he, by simpa using hvirtual, rfl⟩
    · cases h
  | fetched offset i max =>
    simp only [transfer_data, Option.bind_eq_bind, Option.bind_eq_some_iff] at h
    obtain ⟨e, -, h⟩ := h
    cases h
    exact ⟨effect_edge e (fun _ => rfl) (fun _ => rfl), .inl rfl, by simp, by simp,
      by simp [TransferPc.ready], .inl (Nat.le_refl _)⟩
  | advance offset max =>
    cases h
    exact ⟨effect_operation (fun _ => rfl), .inl rfl, by simp, by simp, by simp [TransferPc.ready],
        .inl (Nat.le_refl _)⟩
  | finished max => cases h

/-! ## The processing loop and the helper -/

/-- The rows up to which the processing loop has executed the morsels. -/
def ProcessPc.reached : ProcessPc → Nat
  | .loop offset _ | .sub_buffer offset | .test offset _ | .execute offset => offset
  | .put_processed offset | .put_edge offset => size_add offset ng_morsel_size
  | _ => 0

/-- What a step of the processing loop does: one write, and a log entry when it executes. -/
structure ProcessStep (info : VertexInfo) (d : Nat) (pc pc' : ProcessPc) (m m' : Memory) : Prop where
  effect : Effect info.current_node pc.writes m m'
  trace : m'.trace = m.trace ∧ (pc'.reached = 0 ∨ pc'.reached = pc.reached) ∨
    ∃ offset, pc = .execute offset ∧ pc' = .put_processed offset ∧
      m'.trace = m.trace ++ [.execute info.current_node d offset]

theorem process_step {pc pc' : ProcessPc} (h : process_data info d pc m = some (pc', m')) :
    ProcessStep info d pc pc' m m' := by
  cases pc with
  | unborn => cases h
  | wait =>
    cases h
    refine ⟨.refl, .inl ⟨rfl, .inl ?_⟩⟩
    split <;> rfl
  | loop offset created =>
    simp only [process_data] at h
    split at h
    · cases h
      refine ⟨.refl, .inl ⟨rfl, .inr ?_⟩⟩
      split <;> rfl
    · cases h
      refine ⟨.refl, .inl ⟨rfl, .inl ?_⟩⟩
      split <;> rfl
  | sub_buffer offset =>
    simp only [process_data, Option.bind_eq_bind, Option.bind_eq_some_iff] at h
    obtain ⟨m₁, hsub, h⟩ := h
    cases h
    obtain ⟨hnode, hedge, htrace⟩ := create_sub_buffer_same hsub
    exact ⟨effect_of_same .refl hnode hedge, .inl ⟨htrace, .inr rfl⟩⟩
  | test offset i =>
    simp only [process_data] at h
    split at h
    · simp only [Option.bind_eq_bind, Option.bind_eq_some_iff] at h
      obtain ⟨name, -, h⟩ := h
      split at h
      · cases h
        exact ⟨.refl, .inl ⟨rfl, .inr rfl⟩⟩
      · cases h
        exact ⟨.refl, .inl ⟨rfl, .inr rfl⟩⟩
    · cases h
      exact ⟨.refl, .inl ⟨rfl, .inr rfl⟩⟩
  | execute offset =>
    cases h
    exact ⟨effect_of_same .refl rfl rfl, .inr ⟨offset, rfl, rfl, rfl⟩⟩
  | put_processed offset =>
    cases h
    refine ⟨effect_operation (fun _ => rfl), .inl ⟨rfl, .inr ?_⟩⟩
    split <;> rfl
  | put_edge offset =>
    simp only [process_data, Option.bind_eq_bind, Option.bind_eq_some_iff] at h
    obtain ⟨out, -, h⟩ := h
    cases h
    exact ⟨effect_edge out (fun _ => rfl) (fun _ => rfl), .inl ⟨rfl, .inr rfl⟩⟩
  | put_EOD =>
    simp only [process_data, Option.bind_eq_bind, Option.bind_eq_some_iff] at h
    obtain ⟨out, -, h⟩ := h
    cases h
    exact ⟨effect_edge out (fun _ => rfl) (fun _ => rfl), .inl ⟨rfl, .inl rfl⟩⟩
  | finished => cases h

/-- The helper has lowered the rear and not yet executed the morsel. -/
def HelperPc.lowered : HelperPc → Bool
  | .copy _ | .sub_buffer | .execute => true
  | _ => false

/-- The helper has executed the morsel and not yet published it. -/
def HelperPc.executed : HelperPc → Bool
  | .put_edge | .put_rear => true
  | _ => false

/-- What a step of the helper does. It starts with an initialised vertex, and it lowers the rear,
executes the morsel there and publishes it in this order. -/
structure HelperStep (info : VertexInfo) (d : Nat) (pc pc' : HelperPc) (m m' : Memory) : Prop where
  effect : Effect info.current_node pc.writes m m'
  trace : m'.trace = m.trace ∧ pc ≠ .execute ∨ pc = .execute ∧
    m'.trace = m.trace ++ [.execute info.current_node d
      (m.operation info.current_node).rear_fetched_until]
  starts : pc = .wait → pc' = .wait ∨ (m.node info.current_node).is_initialized = true
  goes_on : pc' = .wait → pc = .wait
  lowered : pc'.lowered = true ↔ pc = .take ∨ pc.lowered = true ∧ pc ≠ .execute
  executed : pc'.executed = true ↔ pc = .execute ∨ pc = .put_edge

theorem helper_step {pc pc' : HelperPc}
    (h : work_sharing_transfer_and_process_data device_type info d pc m = some (pc', m')) :
    HelperStep info d pc pc' m m' := by
  cases pc with
  | unborn => cases h
  | wait =>
    cases h
    refine ⟨.refl, .inl ⟨rfl, by simp⟩, fun _ => ?_, fun _ => rfl, ?_, ?_⟩
    · split
      · rename_i hinit
        exact .inr hinit
      · exact .inl rfl
    · split <;> simp [HelperPc.lowered]
    · split <;> simp [HelperPc.executed]
  | input i =>
    simp only [work_sharing_transfer_and_process_data] at h
    split at h
    · cases h
      exact ⟨.refl, .inl ⟨rfl, by simp⟩, by simp, by simp, by simp [HelperPc.lowered],
        by simp [HelperPc.executed]⟩
    · simp only [Option.bind_eq_bind, Option.bind_eq_some_iff] at h
      obtain ⟨m₁, hbuffer, h⟩ := h
      cases h
      obtain ⟨hnode, hedge, htrace⟩ := create_buffer_same hbuffer
      exact ⟨effect_of_same .refl hnode hedge, .inl ⟨htrace, by simp⟩, by simp, by simp,
        by simp [HelperPc.lowered], by simp [HelperPc.executed]⟩
  | result =>
    simp only [work_sharing_transfer_and_process_data, Option.bind_eq_bind,
      Option.bind_eq_some_iff] at h
    obtain ⟨name, -, m₁, hbuffer, h⟩ := h
    cases h
    obtain ⟨hnode, hedge, htrace⟩ := create_buffer_same hbuffer
    exact ⟨effect_of_same .refl hnode hedge, .inl ⟨htrace, by simp⟩, by simp, by simp,
      by simp [HelperPc.lowered], by simp [HelperPc.executed]⟩
  | put_shared =>
    simp only [work_sharing_transfer_and_process_data, Option.bind_eq_bind,
      Option.bind_eq_some_iff] at h
    obtain ⟨out, -, h⟩ := h
    cases h
    exact ⟨effect_edge out (fun _ => rfl) (fun _ => rfl), .inl ⟨rfl, by simp⟩, by simp, by simp,
      by simp [HelperPc.lowered], by simp [HelperPc.executed]⟩
  | loop =>
    cases h
    exact ⟨.refl, .inl ⟨rfl, by simp⟩, by simp, by simp, by simp [HelperPc.lowered],
      by simp [HelperPc.executed]⟩
  | front f =>
    simp only [work_sharing_transfer_and_process_data] at h
    split at h
    · cases h
      exact ⟨.refl, .inl ⟨rfl, by simp⟩, by simp, by simp, by simp [HelperPc.lowered],
        by simp [HelperPc.executed]⟩
    · cases h
      exact ⟨.refl, .inl ⟨rfl, by simp⟩, by simp, by simp, by simp [HelperPc.lowered],
        by simp [HelperPc.executed]⟩
  | take =>
    cases h
    refine ⟨?_, .inl ⟨rfl, by simp⟩, by simp, by simp, by simp [HelperPc.lowered],
      by simp [HelperPc.executed]⟩
    refine ⟨?_, fun u hu => ?_, fun _ => rfl, fun _ => .inl rfl⟩
    · simp only [Memory.modify_operation, Memory.node_modify_self]
      rfl
    · simp only [Memory.modify_operation, Memory.modify_node, Function.update_of_ne hu]
  | copy i =>
    simp only [work_sharing_transfer_and_process_data] at h
    split at h
    · cases h
      exact ⟨.refl, .inl ⟨rfl, by simp⟩, by simp, by simp, by simp [HelperPc.lowered],
        by simp [HelperPc.executed]⟩
    · simp only [Option.bind_eq_bind, Option.bind_eq_some_iff] at h
      obtain ⟨name, -, m₁, hsub, h⟩ := h
      split at h
      · cases h
        obtain ⟨hnode, hedge, htrace⟩ := create_sub_buffer_same hsub
        exact ⟨effect_of_same .refl hnode hedge, .inl ⟨htrace, by simp⟩, by simp, by simp,
          by simp [HelperPc.lowered], by simp [HelperPc.executed]⟩
      · cases h
  | sub_buffer =>
    simp only [work_sharing_transfer_and_process_data, Option.bind_eq_bind,
      Option.bind_eq_some_iff] at h
    obtain ⟨name, -, m₁, hsub, h⟩ := h
    cases h
    obtain ⟨hnode, hedge, htrace⟩ := create_sub_buffer_same hsub
    exact ⟨effect_of_same .refl hnode hedge, .inl ⟨htrace, by simp⟩, by simp, by simp,
      by simp [HelperPc.lowered], by simp [HelperPc.executed]⟩
  | execute =>
    cases h
    exact ⟨effect_of_same .refl rfl rfl, .inr ⟨rfl, rfl⟩, by simp, by simp,
      by simp [HelperPc.lowered], by simp [HelperPc.executed]⟩
  | put_edge =>
    simp only [work_sharing_transfer_and_process_data, Option.bind_eq_bind,
      Option.bind_eq_some_iff] at h
    obtain ⟨out, -, h⟩ := h
    cases h
    exact ⟨effect_edge out (fun _ => rfl) (fun _ => rfl), .inl ⟨rfl, by simp⟩, by simp, by simp,
      by simp [HelperPc.lowered], by simp [HelperPc.executed]⟩
  | put_rear =>
    cases h
    refine ⟨?_, .inl ⟨rfl, by simp⟩, by simp, by simp, by simp [HelperPc.lowered],
      by simp [HelperPc.executed]⟩
    refine ⟨?_, fun u hu => ?_, fun _ => rfl, fun _ => .inl rfl⟩
    · simp only [Memory.modify_operation, Memory.node_modify_self]
      rfl
    · simp only [Memory.modify_operation, Memory.modify_node, Function.update_of_ne hu]
  | finished => cases h

/-! ## The steps of the executor -/

/-- A device goes on to `pc`, and the memory is `m`. -/
def State.put (s : State) (d : Nat) (pc : DevicePc) (m : Memory) : State :=
  { s with memory := m, device := Function.update s.device d pc }

@[simp] theorem put_memory (s : State) (d : Nat) (pc : DevicePc) (m : Memory) :
    (s.put d pc m).memory = m := rfl

@[simp] theorem put_device_self (s : State) (d : Nat) (pc : DevicePc) (m : Memory) :
    (s.put d pc m).device d = pc := Function.update_self ..

theorem put_device_ne (s : State) {d d' : Nat} (h : d' ≠ d) (pc : DevicePc) (m : Memory) :
    (s.put d pc m).device d' = s.device d' := Function.update_of_ne h ..

/-- Which thread takes a step, and what its function gives. -/
inductive Ran (c : Setup) (s : State) : Move → State → Prop
  | stops (d : Nat) : s.device d = .pop → Ran c s (.device d) (s.put d .finished s.memory)
  | pops (d v : Nat) (rest : List Nat) : s.device d = .pop → s.ng_processing_queue = v :: rest →
      Ran c s (.device d) { s.put d (.edge v 0) (s.memory.modify_node v
        (fun n => { n with executionDevice := d })) with ng_processing_queue := rest }
  | visits (d v i : Nat) : s.device d = .edge v i →
      Ran c s (.device d) (s.put d (c.visit_edge v i s.memory) s.memory)
  | helped (d v i : Nat) : s.device d = .share v i .finished →
      Ran c s (.device d) (s.put d (.size v i) s.memory)
  | sizes (d v i e : Nat) : s.device d = .size v i →
      Ran c s (.device d) (s.put d (.edge v (i + 1)) (Setup.take_size v e s.memory))
  | joins (d v max : Nat) : s.device d = .run v (.finished max) .finished →
      Ran c s (.device d) (s.put d .pop s.memory)
  | helps (d v i e : Nat) (helper helper' : HelperPc) (m : Memory) :
      s.device d = .share v i helper → (c.plan.findVertexDetails v).incoming_edges[i]? = some e →
      work_sharing_transfer_and_process_data c.device_type
        (c.plan.findVertexDetails (c.plan.source e)) d helper s.memory = some (helper', m) →
      Ran c s (.device d) (s.put d (.share v i helper') m)
  | processes (d v : Nat) (transfer : TransferPc) (process process' : ProcessPc) (m : Memory) :
      s.device d = .run v transfer process →
      process_data (c.plan.findVertexDetails v) d process s.memory = some (process', m) →
      Ran c s (.device d) (s.put d (.run v transfer process') m)
  | transfers (d v : Nat) (transfer transfer' : TransferPc) (process : ProcessPc) (m : Memory) :
      s.device d = .run v transfer process →
      transfer_data c.device_type (c.plan.findVertexDetails v) d transfer s.memory =
        some (transfer', m) →
      Ran c s (.transfer d) (s.put d (.run v transfer' process) m)

theorem ran_of_step {c : Setup} {s s' : State} {move : Move} (h : c.step s move = some s') :
    Ran c s move s' := by
  cases move with
  | device d =>
    simp only [Setup.step] at h
    split at h
    · unfold Setup.thread_processing at h
      simp only at h
      split at h
      case h_1 hpc =>
        split at h
        · cases h
          exact .stops d hpc
        · rename_i v rest hqueue
          cases h
          exact .pops d v rest hpc hqueue
      case h_2 v i hpc =>
        cases h
        exact .visits d v i hpc
      case h_3 v i hpc =>
        cases h
        exact .helped d v i hpc
      case h_4 v i helper _ hpc =>
        simp only [Option.bind_eq_bind, Option.bind_eq_some_iff] at h
        obtain ⟨e, he, ⟨helper', m⟩, hhelp, h⟩ := h
        cases h
        exact .helps d v i e helper helper' m hpc he hhelp
      case h_5 v i hpc =>
        simp only [Option.bind_eq_bind, Option.bind_eq_some_iff] at h
        obtain ⟨e, -, h⟩ := h
        cases h
        exact .sizes d v i e hpc
      case h_6 v max hpc =>
        cases h
        exact .joins d v max hpc
      case h_7 v transfer process _ hpc =>
        simp only [Option.bind_eq_bind, Option.bind_eq_some_iff] at h
        obtain ⟨⟨process', m⟩, hprocess, h⟩ := h
        cases h
        exact .processes d v transfer process process' m hpc hprocess
      case h_8 hpc => cases h
    · cases h
  | transfer d =>
    simp only [Setup.step] at h
    split at h
    · unfold Setup.transfer_thread at h
      split at h
      · rename_i v transfer process hpc
        simp only [Option.bind_eq_bind, Option.bind_eq_some_iff] at h
        obtain ⟨⟨transfer', m⟩, htransfer, h⟩ := h
        cases h
        exact .transfers d v transfer transfer' process m hpc htransfer
      · cases h
    · cases h

/-- What a step of the executor can be. -/
inductive Stepped (c : Setup) (s : State) : Move → State → Prop
  | stops (d : Nat) : s.device d = .pop → Stepped c s (.device d) (s.put d .finished s.memory)
  | pops (d v : Nat) (rest : List Nat) : s.device d = .pop → s.ng_processing_queue = v :: rest →
      Stepped c s (.device d) { s.put d (.edge v 0) (s.memory.modify_node v
        (fun n => { n with executionDevice := d })) with ng_processing_queue := rest }
  | visits (d v i : Nat) : s.device d = .edge v i →
      Stepped c s (.device d) (s.put d (c.visit_edge v i s.memory) s.memory)
  | helped (d v i : Nat) : s.device d = .share v i .finished →
      Stepped c s (.device d) (s.put d (.size v i) s.memory)
  | sizes (d v i e : Nat) : s.device d = .size v i →
      Stepped c s (.device d) (s.put d (.edge v (i + 1)) (Setup.take_size v e s.memory))
  | joins (d v max : Nat) : s.device d = .run v (.finished max) .finished →
      Stepped c s (.device d) (s.put d .pop s.memory)
  | helps (d v i e : Nat) (helper helper' : HelperPc) (m : Memory) :
      s.device d = .share v i helper → (c.plan.findVertexDetails v).incoming_edges[i]? = some e →
      HelperStep (c.plan.findVertexDetails (c.plan.source e)) d helper helper' s.memory m →
      Stepped c s (.device d) (s.put d (.share v i helper') m)
  | processes (d v : Nat) (transfer : TransferPc) (process process' : ProcessPc) (m : Memory) :
      s.device d = .run v transfer process →
      ProcessStep (c.plan.findVertexDetails v) d process process' s.memory m →
      Stepped c s (.device d) (s.put d (.run v transfer process') m)
  | transfers (d v : Nat) (transfer transfer' : TransferPc) (process : ProcessPc) (m : Memory) :
      s.device d = .run v transfer process →
      TransferStep (c.plan.findVertexDetails v) transfer transfer' s.memory m →
      Stepped c s (.transfer d) (s.put d (.run v transfer' process) m)

theorem step_cases {c : Setup} {s s' : State} {move : Move} (h : c.step s move = some s') :
    Stepped c s move s' := by
  cases ran_of_step h with
  | stops d hpc => exact .stops d hpc
  | pops d v rest hpc hqueue => exact .pops d v rest hpc hqueue
  | visits d v i hpc => exact .visits d v i hpc
  | helped d v i hpc => exact .helped d v i hpc
  | sizes d v i e hpc => exact .sizes d v i e hpc
  | joins d v max hpc => exact .joins d v max hpc
  | helps d v i e helper helper' m hpc he hhelp =>
    exact .helps d v i e helper helper' m hpc he (helper_step hhelp)
  | processes d v transfer process process' m hpc hprocess =>
    exact .processes d v transfer process process' m hpc (process_step hprocess)
  | transfers d v transfer transfer' process m hpc htransfer =>
    exact .transfers d v transfer transfer' process m hpc (transfer_step htransfer)

end hero.data_parallelism
