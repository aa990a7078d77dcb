-- Which buffers the arguments of an operation name in every run of the data-parallel executor: its
-- own input buffers, and the result buffers of its producers or their replicas.
import HeroDB.MorselNames
import HeroDB.MorselRears
import HeroDB.PipelineOrder

namespace hero.data_parallelism

/-! ## The plan -/

section plan

variable {c : Setup} {selections : List Operation_} {queue : List Nat} {v e : Nat}

/-- What the names rest on before the devices start: each vertex of the queue is named after its
number and comes behind those that feed it. -/
structure Numbered (c : Setup) (queue : List Nat) : Prop where
  nodup : queue.Nodup
  kind : ∀ v, Kind (c.start_memory.operation v).operationType
  name : ∀ v ∈ queue, 0 < v ∧
    (c.start_memory.operation v).name = get_operation_alias_name (v - 1)
  input_arg_names : ∀ v, (c.start_memory.operation v).input_arg_names = []
  edge : ∀ e, (c.start_memory.edge e).input_data_name = [] ∧
    (c.start_memory.edge e).fetched_data_name = []
  real : ∀ e < c.plan.ends.length, c.plan.source e ∈ queue →
    (c.start_memory.edge e).is_virtual_vertex = false
  order : ∀ e < c.plan.ends.length, (c.start_memory.edge e).is_virtual_vertex = false →
    c.plan.source e ∈ queue ∧ queue.idxOf (c.plan.source e) < queue.idxOf (c.plan.target e)

/-- An edge from the virtual vertex, or one into a logical vertex. -/
theorem session_edge_cases (h : c.IsSession selections queue) (he : e < c.plan.ends.length) :
    ((c.start_memory.edge e).is_virtual_vertex = true ∧ c.plan.source e = 0) ∨
      (c.start_memory.edge e).is_virtual_vertex = false ∧
        ∃ i < selections.length - 1, c.plan.source e ∈ feeders selections.length i ∧
          c.plan.target e = logical_vertex selections.length i := by
  obtain ⟨-, edges, hedges, hends, hplan⟩ := session_plan h
  rw [hends, List.length_map] at he
  have hedge : c.start_memory.edge e = edges[e].2 := by
    unfold Setup.start_memory
    simp only
    rw [hplan, List.getD_eq_getElem?_getD, List.getElem?_map, List.getElem?_eq_getElem he]
    rfl
  have hpair : (c.plan.source e, c.plan.target e) = edges[e].1 := by
    unfold QueryPlan.source QueryPlan.target
    rw [hends, List.getD_eq_getElem?_getD, List.getElem?_map, List.getElem?_eq_getElem he]
    rfl
  have hmem : edges[e] ∈ edges := List.getElem_mem he
  generalize edges[e] = x at hedge hpair hmem
  rw [hedge]
  rw [hedges, List.mem_append, List.mem_mapIdx, List.mem_flatMap] at hmem
  rcases hmem with ⟨i, hi, rfl⟩ | ⟨i, hi, hmem⟩
  · exact .inl ⟨rfl, (Prod.mk.inj hpair).1⟩
  · rw [List.mem_range] at hi
    right
    unfold logical_edges at hmem
    rw [List.mem_cons, List.mem_singleton] at hmem
    unfold feeders
    rcases hmem with rfl | rfl
    · split at hpair
      · rename_i hzero
        subst hzero
        obtain ⟨hsource, htarget⟩ := Prod.mk.inj hpair
        refine ⟨rfl, 0, hi, ?_, htarget⟩
        rw [hsource]
        exact List.mem_cons_self
      · rename_i hpos
        obtain ⟨hsource, htarget⟩ := Prod.mk.inj hpair
        refine ⟨?_, i, hi, ?_, htarget⟩
        · rw [if_neg hpos]
          rfl
        · rw [if_neg hpos, hsource]
          exact List.mem_cons_self
    · obtain ⟨hsource, htarget⟩ := Prod.mk.inj hpair
      refine ⟨rfl, i, hi, ?_, htarget⟩
      rw [hsource]
      exact List.mem_cons_of_mem _ (List.mem_singleton_self _)

theorem session_names (h : c.IsSession selections queue) :
    ∀ v ∈ queue, 0 < v ∧ (c.start_memory.operation v).name = get_operation_alias_name (v - 1) := by
  intro v hv
  obtain ⟨hnodes, -⟩ := session_plan h
  unfold Memory.operation Setup.start_memory
  simp only
  rw [(queue_perm h.queue).mem_iff, List.mem_append, List.mem_map, List.mem_map] at hv
  rw [hnodes]
  rcases hv with ⟨i, hi, rfl⟩ | ⟨i, hi, rfl⟩
  · rw [List.mem_range] at hi
    refine ⟨Nat.succ_pos i, ?_⟩
    rw [List.getD_eq_getElem?_getD, selection_vertex, List.getElem?_append_left (by simp; omega)]
    simp only [List.getElem?_cons_succ, List.getElem?_mapIdx, List.getElem?_eq_getElem hi,
      Option.map_some, Option.getD_some]
    rfl
  · rw [List.mem_range] at hi
    refine ⟨by unfold logical_vertex; omega, ?_⟩
    rw [List.getD_eq_getElem?_getD, logical_vertex, List.getElem?_append_right (by simp)]
    simp only [List.length_cons, List.length_mapIdx, Nat.add_sub_cancel_left, List.getElem?_map,
      List.getElem?_range hi, Option.map_some, Option.getD_some]
    have hindex : selections.length + 1 + i - 1 = selections.length + i := by omega
    rw [hindex]
    rfl

/-- A node starts without arguments. -/
theorem session_no_arguments (h : c.IsSession selections queue) (v : Nat) :
    (c.start_memory.operation v).input_arg_names = [] := by
  obtain ⟨hnodes, -⟩ := session_plan h
  unfold Memory.operation Setup.start_memory
  rcases getD_cases c.plan.nodes v virtual_vertex with hmem | heq
  · simp only
    rw [hnodes, List.cons_append, List.mem_cons, List.mem_append, List.mem_mapIdx,
      List.mem_map, ← List.cons_append, ← hnodes] at hmem
    rcases hmem with heq | ⟨i, hi, heq⟩ | ⟨i, -, heq⟩
    · rw [heq]
      rfl
    · rw [← heq]
      obtain ⟨t, rows, -, -, heq⟩ := h.columns _ (List.getElem_mem hi)
      rw [heq]
      rfl
    · rw [← heq]
      rfl
  · simp only [heq]
    rfl

theorem session_edge_names (h : c.IsSession selections queue) (e : Nat) :
    (c.start_memory.edge e).input_data_name = [] ∧
      (c.start_memory.edge e).fetched_data_name = [] := by
  obtain ⟨-, edges, hedges, -, hplan⟩ := session_plan h
  unfold Setup.start_memory
  rcases getD_cases c.plan.edges e {} with hmem | heq
  · simp only
    rw [hplan, List.mem_map] at hmem
    obtain ⟨x, hx, heq⟩ := hmem
    rw [← hplan] at heq
    rw [← heq]
    rw [hedges, List.mem_append, List.mem_mapIdx, List.mem_flatMap] at hx
    rcases hx with ⟨i, hi, rfl⟩ | ⟨i, -, hx⟩
    · exact ⟨rfl, rfl⟩
    · simp only [logical_edges, List.mem_cons, List.not_mem_nil, or_false] at hx
      rcases hx with rfl | rfl
      · split <;> exact ⟨rfl, rfl⟩
      · exact ⟨rfl, rfl⟩
  · simp only [heq, and_self]

theorem session_numbered (h : c.IsSession selections queue) : Numbered c queue where
  nodup := pipeline_nodup h.queue
  kind v := (session_nodes h v).1
  name := session_names h
  input_arg_names := session_no_arguments h
  edge := session_edge_names h
  real e he hsource := by
    rcases session_edge_cases h he with ⟨-, hzero⟩ | ⟨hreal, -⟩
    · rw [hzero] at hsource
      exact absurd hsource (virtual_not_mem h.queue)
    · exact hreal
  order e he hreal := by
    rcases session_edge_cases h he with ⟨hvirtual, -⟩ | ⟨-, i, hi, hfeeds, htarget⟩
    · rw [hreal] at hvirtual
      cases hvirtual
    · have hfirst := feeders_first h.queue hi hfeeds
      rw [htarget]
      refine ⟨List.idxOf_lt_length_iff.mp ?_, hfirst⟩
      exact Nat.lt_of_lt_of_le hfirst List.idxOf_le_length

end plan

/-! ## What a step does to the names -/

variable {c : Setup} {queue : List Nat} {s s' : State} {move : Move}

/-- What a step can do to the names: only a device that takes a vertex puts itself in its node, and
only the transfer thread of a vertex names its buffers and those of its edges. -/
structure Renames (c : Setup) (s : State) (move : Move) (s' : State) : Prop where
  queue : s'.ng_processing_queue <:+ s.ng_processing_queue
  name : ∀ u, (s'.memory.operation u).name = (s.memory.operation u).name
  operationType : ∀ u,
    (s'.memory.operation u).operationType = (s.memory.operation u).operationType
  executionDevice : ∀ u, u ∉ s.ng_processing_queue →
    (s'.memory.node u).executionDevice = (s.memory.node u).executionDevice
  result_name : ∀ u, (∀ d process, s.device d ≠ .run u .start process) →
    (s'.memory.operation u).result_name = (s.memory.operation u).result_name
  input_arg_names : ∀ u,
    (s'.memory.operation u).input_arg_names = (s.memory.operation u).input_arg_names ∨
    ∃ d i max process e name, move = .transfer d ∧ s.device d = .run u (.input i max) process ∧
      (c.plan.findVertexDetails u).incoming_edges[i]? = some e ∧
      (s'.memory.operation u).input_arg_names = (s.memory.operation u).input_arg_names ++ [name] ∧
      ((s.memory.node u).executionDevice = (s.memory.edge e).input_device_index ∧
          name = (s.memory.edge e).input_data_name ∨
        (s.memory.node u).executionDevice ≠ (s.memory.edge e).input_device_index ∧
          input_name c.device_type (c.plan.findVertexDetails u) d i e s.memory = some name)
  is_virtual_vertex : ∀ e,
    (s'.memory.edge e).is_virtual_vertex = (s.memory.edge e).is_virtual_vertex
  input_data_name : ∀ e,
    (s'.memory.edge e).input_data_name = (s.memory.edge e).input_data_name ∨
    ∃ d v, (s.device d).vertex = some v ∧ (c.plan.findVertexDetails v).outgoing_edge = some e ∧
      (s'.memory.edge e).input_data_name =
        get_result_buffer_name (c.device_type d) (s.memory.operation v).name
  fetched_data_name : ∀ e,
    (s'.memory.edge e).fetched_data_name = (s.memory.edge e).fetched_data_name ∨
    (s'.memory.edge e).fetched_data_name = (s.memory.edge e).input_data_name ∨
    ∃ d v i, (s.device d).vertex = some v ∧
      input_name c.device_type (c.plan.findVertexDetails v) d i e s.memory =
        some (s'.memory.edge e).fetched_data_name
  dictionary : Grows s.memory s'.memory (c.registers s move)

/-- A step that keeps the names and takes no vertex. -/
theorem renames_of_kept (h : Kept s.memory s'.memory)
    (hqueue : s'.ng_processing_queue = s.ng_processing_queue)
    (hgrows : Grows s.memory s'.memory (c.registers s move)) : Renames c s move s' where
  queue := by rw [hqueue]
  name u := congrArg NodeTags.name (h.node u)
  operationType u := congrArg NodeTags.operationType (h.node u)
  executionDevice u _ := congrArg NodeTags.executionDevice (h.node u)
  result_name u _ := congrArg NodeTags.result_name (h.node u)
  input_arg_names u := .inl (congrArg NodeTags.input_arg_names (h.node u))
  is_virtual_vertex e := congrArg EdgeTags.is_virtual_vertex (h.edge e)
  input_data_name e := .inl (congrArg EdgeTags.input_data_name (h.edge e))
  fetched_data_name e := .inl (congrArg EdgeTags.fetched_data_name (h.edge e))
  dictionary := hgrows

theorem take_size_kept (v e : Nat) (m : Memory) : Kept m (Setup.take_size v e m) := by
  unfold Setup.take_size
  split
  · exact kept_operation (fun _ => rfl)
  · exact .refl

theorem take_size_dictionary (v e : Nat) (m : Memory) :
    (Setup.take_size v e m).data_dictionary = m.data_dictionary := by
  unfold Setup.take_size
  split <;> rfl

/-- A device takes the first vertex of the queue. -/
theorem renames_of_pop {d v : Nat} {rest : List Nat} (hpc : s.device d = .pop)
    (hqueue : s.ng_processing_queue = v :: rest) : Renames c s (.device d)
      { s.put d (.edge v 0) (s.memory.modify_node v
        (fun n => { n with executionDevice := d })) with ng_processing_queue := rest } := by
  have hoperation : ∀ u, (s.memory.modify_node v
      (fun n => { n with executionDevice := d })).operation u = s.memory.operation u := by
    intro u
    unfold Memory.operation Memory.modify_node
    by_cases hu : u = v
    · subst hu
      simp only [Function.update_self]
    · simp only [Function.update_of_ne hu]
  refine ⟨?_, fun u => congrArg Operation_.name (hoperation u),
    fun u => congrArg Operation_.operationType (hoperation u), fun u hu => ?_,
    fun u _ => congrArg Operation_.result_name (hoperation u),
    fun u => .inl (congrArg Operation_.input_arg_names (hoperation u)), fun _ => rfl,
    fun _ => .inl rfl, fun _ => .inl rfl, ?_⟩
  · rw [hqueue]
    exact List.suffix_cons v rest
  · rw [hqueue, List.mem_cons, not_or] at hu
    simp only [put_memory, Memory.modify_node, Function.update_of_ne hu.1]
  · simp only [Setup.registers, hpc]
    exact grows_of_same rfl

theorem renames_of_transfer {d v : Nat} {transfer transfer' : TransferPc} {process : ProcessPc}
    {m : Memory} (hpc : s.device d = .run v transfer process)
    (h : TransferNames c.device_type (c.plan.findVertexDetails v) d transfer transfer' s.memory m) :
    Renames c s (.transfer d) (s.put d (.run v transfer' process) m) where
  queue := List.suffix_refl _
  name := h.name
  operationType := h.operationType
  executionDevice u _ := h.executionDevice u
  result_name u hu := by
    refine (h.result_name u).trans (if_neg ?_)
    rintro ⟨rfl, rfl⟩
    exact hu d process hpc
  input_arg_names u := by
    rcases h.input_arg_names u with hsame | ⟨rfl, i, max, e, name, rfl, he, hnames, hname⟩
    · exact .inl hsame
    · exact .inr ⟨d, i, max, process, e, name, rfl, hpc, he, hnames, hname⟩
  is_virtual_vertex := h.is_virtual_vertex
  input_data_name e := (h.input_data_name e).imp_right
    (fun ⟨hout, hname⟩ => ⟨d, v, by rw [hpc]; rfl, hout, hname⟩)
  fetched_data_name e := (h.fetched_data_name e).imp_right (Or.imp_right
    (fun ⟨i, hname⟩ => ⟨d, v, i, by rw [hpc]; rfl, hname⟩))
  dictionary := by
    simp only [Setup.registers, hpc]
    exact h.dictionary

theorem renames_of_step (hstep : c.step s move = some s') : Renames c s move s' := by
  cases ran_of_step hstep with
  | stops d hpc =>
    refine renames_of_kept .refl rfl ?_
    simp only [Setup.registers, hpc]
    exact grows_of_same rfl
  | pops d v rest hpc hqueue => exact renames_of_pop hpc hqueue
  | visits d v i hpc =>
    refine renames_of_kept .refl rfl ?_
    simp only [Setup.registers, hpc]
    exact grows_of_same rfl
  | helped d v i hpc =>
    refine renames_of_kept .refl rfl ?_
    simp only [Setup.registers, hpc, helper_registers, Option.bind_eq_bind, Option.bind_fun_none]
    exact grows_of_same rfl
  | sizes d v i e hpc =>
    refine renames_of_kept (take_size_kept v e s.memory) rfl ?_
    simp only [Setup.registers, hpc]
    exact grows_of_same (take_size_dictionary v e s.memory)
  | joins d v max hpc =>
    refine renames_of_kept .refl rfl ?_
    simp only [Setup.registers, hpc, process_registers]
    exact grows_of_same rfl
  | helps d v i e helper helper' m hpc he hhelp =>
    obtain ⟨hkept, hgrows⟩ := helper_names hhelp
    refine renames_of_kept hkept rfl ?_
    simp only [Setup.registers, hpc, he, Option.bind_eq_bind, Option.bind_some]
    exact hgrows
  | processes d v transfer process process' m hpc hprocess =>
    obtain ⟨hkept, hgrows⟩ := process_names hprocess
    refine renames_of_kept hkept rfl ?_
    simp only [Setup.registers, hpc]
    exact hgrows
  | transfers d v transfer transfer' process m hpc htransfer =>
    exact renames_of_transfer hpc (transfer_names htransfer)

/-! ## The names of the arguments -/

/-- The result of the operation is made of bits. -/
def Setup.Bits (c : Setup) (v : Nat) : Prop :=
  (c.start_memory.operation v).operationType.is_normal_to_bitmap_result = true

/-- A device has taken the vertex. -/
def Taken (queue : List Nat) (s : State) (v : Nat) : Prop := v ∈ queue ∧ v ∉ s.ng_processing_queue

/-- What `v` can have as an argument: a buffer for a column, or the result buffer of a producer or
its replica. A producer of bits is on another device. -/
inductive ArgumentName (c : Setup) (queue : List Nat) (s : State) (v : Nat) : Name → Prop
  | empty : ArgumentName c queue s v []
  | input (t : Device_Type) (k i : Nat) :
      ArgumentName c queue s v (get_input_buffer_name t (get_operation_alias_name k) i)
  | result (w : Nat) (t : Device_Type) : Taken queue s w →
      (c.Bits w → (s.memory.node w).executionDevice ≠ (s.memory.node v).executionDevice) →
      ArgumentName c queue s v (get_result_buffer_name t (get_operation_alias_name (w - 1)))
  | replica (w : Nat) (t t' : Device_Type) (name : Name) : Taken queue s w →
      (c.Bits w → (s.memory.node w).executionDevice ≠ (s.memory.node v).executionDevice) →
      replica_name t t' (w - 1) = some name → ArgumentName c queue s v name

/-- What the names say in every run. -/
structure Named (c : Setup) (queue : List Nat) (s : State) : Prop where
  suffix : s.ng_processing_queue <:+ queue
  name : ∀ v ∈ queue, (s.memory.operation v).name = get_operation_alias_name (v - 1)
  operationType : ∀ v,
    (s.memory.operation v).operationType = (c.start_memory.operation v).operationType
  is_virtual_vertex : ∀ e,
    (s.memory.edge e).is_virtual_vertex = (c.start_memory.edge e).is_virtual_vertex
  held : ∀ d v, (s.device d).vertex = some v →
    v ∈ queue ∧ (s.memory.node v).executionDevice = d
  input_data_name : ∀ e, (s.memory.edge e).input_data_name = [] ∨
    e < c.plan.ends.length ∧ c.plan.source e ∈ queue ∧
      ∃ t, (s.memory.edge e).input_data_name =
        get_result_buffer_name t (get_operation_alias_name (c.plan.source e - 1))
  fetched_data_name : ∀ e, BufferName (s.memory.edge e).fetched_data_name
  input_arg_names : ∀ v, ∀ name ∈ (s.memory.operation v).input_arg_names,
    Taken queue s v ∧ ArgumentName c queue s v name

/-- A vertex before a taken one is taken. -/
theorem taken_before (hnodup : queue.Nodup) (hsuffix : s.ng_processing_queue <:+ queue) {u v : Nat}
    (hv : Taken queue s v) (hu : u ∈ queue) (hlt : queue.idxOf u < queue.idxOf v) :
    Taken queue s u := by
  refine ⟨hu, fun hmem => ?_⟩
  obtain ⟨taken, rfl⟩ := hsuffix
  have hfirst : v ∈ taken := (List.mem_append.mp hv.1).resolve_right hv.2
  rw [List.idxOf_append_of_mem hfirst] at hlt
  have hlast : u ∉ taken := fun habsurd => (List.nodup_append.mp hnodup).2.2 u habsurd u hmem rfl
  rw [List.idxOf_append_of_notMem hlast] at hlt
  have hbound := List.idxOf_lt_length_of_mem hfirst
  omega

theorem mem_outgoing_edge {v e : Nat} (he : (c.plan.findVertexDetails v).outgoing_edge = some e) :
    e < c.plan.ends.length ∧ c.plan.source e = v := by
  have hmem := List.mem_of_getLast? he
  rw [List.mem_filter, List.mem_range, decide_eq_true_iff] at hmem
  exact hmem

theorem Named.taken (h : Named c queue s) (howned : Owned s) {d v : Nat}
    (hv : (s.device d).vertex = some v) : Taken queue s v :=
  ⟨(h.held d v hv).1, howned.taken d v hv⟩

theorem Named.data_name (h : Named c queue s) (e : Nat) :
    BufferName (s.memory.edge e).input_data_name := by
  rcases h.input_data_name e with hempty | ⟨-, -, t, hname⟩
  · rw [hempty]
    exact .empty
  · rw [hname]
    exact .result t _

/-- The replica of a name on an edge is one of the result buffer of its source. -/
theorem Named.replicated (h : Named c queue s) {t : Device_Type} {e : Nat} {name : Name}
    (hname : get_input_buffer_name_for_device_replication t (s.memory.edge e).input_data_name =
      some name) :
    c.plan.source e ∈ queue ∧ ∃ t', replica_name t' t (c.plan.source e - 1) = some name := by
  rcases h.input_data_name e with hempty | ⟨-, hsource, t', hresult⟩
  · rw [hempty] at hname
    cases hname
  · rw [hresult] at hname
    exact ⟨hsource, t', hname⟩

/-- What `input_name` gives. -/
theorem Named.input_cases (h : Named c queue s) {d v i e : Nat} {name : Name} (hv : v ∈ queue)
    (hname : input_name c.device_type (c.plan.findVertexDetails v) d i e s.memory = some name) :
    name = get_input_buffer_name (c.device_type d) (get_operation_alias_name (v - 1)) i ∨
      (s.memory.edge e).is_virtual_vertex = false ∧ c.plan.source e ∈ queue ∧
        ∃ t, replica_name t (c.device_type d) (c.plan.source e - 1) = some name := by
  unfold input_name at hname
  split at hname
  · left
    have hself : (c.plan.findVertexDetails v).current_node = v := rfl
    rw [hself, h.name v hv, Option.some.injEq] at hname
    exact hname.symm
  · rename_i hreal
    exact .inr ⟨Bool.eq_false_iff.mpr hreal, h.replicated hname⟩

theorem Named.input_buffer (h : Named c queue s) {d v i e : Nat} {name : Name} (hv : v ∈ queue)
    (hname : input_name c.device_type (c.plan.findVertexDetails v) d i e s.memory =
      some name) : BufferName name := by
  rcases h.input_cases hv hname with rfl | ⟨-, -, t, hreplica⟩
  · exact .input ..
  · exact .replica hreplica

theorem Taken.after (hrenames : Renames c s move s') {v : Nat} (h : Taken queue s v) :
    Taken queue s' v :=
  ⟨h.1, fun hmem => h.2 (hrenames.queue.mem hmem)⟩

theorem ArgumentName.after (hrenames : Renames c s move s') {v : Nat} {name : Name}
    (hv : Taken queue s v) (h : ArgumentName c queue s v name) : ArgumentName c queue s' v name := by
  have hdevice : ∀ w, Taken queue s w →
      (s'.memory.node w).executionDevice = (s.memory.node w).executionDevice :=
    fun w hw => hrenames.executionDevice w hw.2
  cases h with
  | empty => exact .empty
  | input t k i => exact .input t k i
  | result w t hw hbits =>
    refine .result w t (hw.after hrenames) ?_
    rwa [hdevice w hw, hdevice v hv]
  | replica w t t' name hw hbits hname =>
    refine .replica w t t' name (hw.after hrenames) ?_ hname
    rwa [hdevice w hw, hdevice v hv]

/-- A step keeps the vertex of a device, or the device takes one from the queue. -/
theorem held_of_step (hstep : c.step s move = some s') {d v : Nat}
    (hv : (s'.device d).vertex = some v) : (s.device d).vertex = some v ∨
      v ∈ s.ng_processing_queue ∧ (s'.memory.node v).executionDevice = d := by
  have hput : ∀ {d' : Nat} {pc : DevicePc} {m : Memory}, ((s.put d' pc m).device d).vertex = some v →
      (∀ u, pc.vertex = some u → (s.device d').vertex = some u) → (s.device d).vertex = some v := by
    intro d' pc m hheld hpc
    by_cases hd : d = d'
    · subst hd
      rw [put_device_self] at hheld
      exact hpc v hheld
    · rwa [put_device_ne s hd] at hheld
  cases ran_of_step hstep with
  | stops d' hpc => exact .inl (hput hv (fun u hu => by cases hu))
  | pops d' w rest hpc hqueue =>
    by_cases hd : d = d'
    · subst hd
      simp only [put_device_self, DevicePc.vertex, Option.some.injEq] at hv
      subst hv
      right
      rw [hqueue]
      refine ⟨List.mem_cons_self, ?_⟩
      simp only [put_memory, Memory.node_modify_self]
    · simp only [put_device_ne s hd] at hv
      exact .inl hv
  | visits d' w i hpc =>
    refine .inl (hput hv fun u hu => ?_)
    rw [(visit_edge_vertex w i s.memory).1] at hu
    rw [hpc]
    exact hu
  | helped d' w i hpc => exact .inl (hput hv (fun u hu => by rw [hpc]; exact hu))
  | sizes d' w i e hpc => exact .inl (hput hv (fun u hu => by rw [hpc]; exact hu))
  | joins d' w max hpc => exact .inl (hput hv (fun u hu => by cases hu))
  | helps d' w i e helper helper' m hpc => exact .inl (hput hv (fun u hu => by rw [hpc]; exact hu))
  | processes d' w transfer process process' m hpc =>
    exact .inl (hput hv (fun u hu => by rw [hpc]; exact hu))
  | transfers d' w transfer transfer' process m hpc =>
    exact .inl (hput hv (fun u hu => by rw [hpc]; exact hu))

/-- The name that the setup of an input appends is one that the vertex can have. -/
theorem Named.prepared (h : Named c queue s) (hnumbered : Numbered c queue) (howned : Owned s)
    {d u i max e : Nat} {process : ProcessPc} {name : Name} (hapart : c.Apart s (.transfer d))
    (hpc : s.device d = .run u (.input i max) process)
    (he : (c.plan.findVertexDetails u).incoming_edges[i]? = some e)
    (hname : (s.memory.node u).executionDevice = (s.memory.edge e).input_device_index ∧
        name = (s.memory.edge e).input_data_name ∨
      (s.memory.node u).executionDevice ≠ (s.memory.edge e).input_device_index ∧
        input_name c.device_type (c.plan.findVertexDetails u) d i e s.memory = some name) :
    ArgumentName c queue s u name := by
  have hheld : (s.device d).vertex = some u := by rw [hpc]; rfl
  have hu : Taken queue s u := h.taken howned hheld
  obtain ⟨hlt, htarget⟩ := mem_incoming_edges he
  have hsource : (s.memory.edge e).is_virtual_vertex = false →
      Taken queue s (c.plan.source e) ∧ (c.Bits (c.plan.source e) →
        (s.memory.node (c.plan.source e)).executionDevice ≠ (s.memory.node u).executionDevice) := by
    intro hreal
    have hvirtual := hreal
    rw [h.is_virtual_vertex e] at hvirtual
    obtain ⟨hmem, hfirst⟩ := hnumbered.order e hlt hvirtual
    rw [htarget] at hfirst
    refine ⟨taken_before hnumbered.nodup h.suffix hu hmem hfirst, fun hbits => ?_⟩
    rw [(h.held d u hheld).2]
    unfold Setup.Apart at hapart
    simp only [hpc] at hapart
    refine hapart e he hreal ?_
    rw [h.operationType]
    exact hbits
  rcases hname with ⟨-, rfl⟩ | ⟨-, hinput⟩
  · rcases h.input_data_name e with hempty | ⟨-, hmem, t, hresult⟩
    · rw [hempty]
      exact .empty
    · have hreal : (s.memory.edge e).is_virtual_vertex = false := by
        rw [h.is_virtual_vertex e]
        exact hnumbered.real e hlt hmem
      obtain ⟨htaken, hbits⟩ := hsource hreal
      rw [hresult]
      exact .result _ t htaken hbits
  · rcases h.input_cases hu.1 hinput with rfl | ⟨hreal, -, t, hreplica⟩
    · exact .input ..
    · obtain ⟨htaken, hbits⟩ := hsource hreal
      exact .replica _ t _ name htaken hbits hreplica

theorem named_step (h : Named c queue s) (hnumbered : Numbered c queue) (howned : Owned s)
    (hapart : c.Apart s move) (hstep : c.step s move = some s') : Named c queue s' := by
  have hrenames := renames_of_step hstep
  refine ⟨hrenames.queue.trans h.suffix, fun v hv => (hrenames.name v).trans (h.name v hv),
    fun v => (hrenames.operationType v).trans (h.operationType v),
    fun e => (hrenames.is_virtual_vertex e).trans (h.is_virtual_vertex e), fun d v hv => ?_,
    fun e => ?_, fun e => ?_, fun v name hname => ?_⟩
  · rcases held_of_step hstep hv with hheld | ⟨hmem, hdevice⟩
    · rw [hrenames.executionDevice v (howned.taken d v hheld)]
      exact h.held d v hheld
    · exact ⟨h.suffix.mem hmem, hdevice⟩
  · rcases hrenames.input_data_name e with hsame | ⟨d, v, hheld, hout, hname⟩
    · rw [hsame]
      exact h.input_data_name e
    · obtain ⟨hlt, hsource⟩ := mem_outgoing_edge hout
      have hv := (h.held d v hheld).1
      rw [hname, h.name v hv, hsource]
      exact .inr ⟨hlt, hv, _, rfl⟩
  · rcases hrenames.fetched_data_name e with hsame | hsame | ⟨d, v, i, hheld, hname⟩
    · rw [hsame]
      exact h.fetched_data_name e
    · rw [hsame]
      exact h.data_name e
    · exact h.input_buffer (h.held d v hheld).1 hname
  · have hold : name ∈ (s.memory.operation v).input_arg_names →
        Taken queue s' v ∧ ArgumentName c queue s' v name := by
      intro hmem
      obtain ⟨htaken, hargument⟩ := h.input_arg_names v name hmem
      exact ⟨htaken.after hrenames, hargument.after hrenames htaken⟩
    rcases hrenames.input_arg_names v with hsame | hadded
    · rw [hsame] at hname
      exact hold hname
    · obtain ⟨d, i, max, process, e, input, rfl, hpc, he, hnames, hinput⟩ := hadded
      rw [hnames, List.mem_append, List.mem_singleton] at hname
      rcases hname with hmem | rfl
      · exact hold hmem
      · have htaken : Taken queue s v := h.taken howned (d := d) (by rw [hpc]; rfl)
        have hargument := h.prepared hnumbered howned hapart hpc he hinput
        exact ⟨htaken.after hrenames, hargument.after hrenames htaken⟩

theorem named_start (hnumbered : Numbered c queue) : Named c queue (c.start queue) where
  suffix := List.suffix_refl queue
  name v hv := (hnumbered.name v hv).2
  operationType _ := rfl
  is_virtual_vertex _ := rfl
  held d v hv := by cases hv
  input_data_name e := .inl (hnumbered.edge e).1
  fetched_data_name e := by
    rw [show ((c.start queue).memory.edge e).fetched_data_name = [] from (hnumbered.edge e).2]
    exact .empty
  input_arg_names v name hname := by
    rw [show ((c.start queue).memory.operation v).input_arg_names = [] from
      hnumbered.input_arg_names v] at hname
    cases hname

end hero.data_parallelism
