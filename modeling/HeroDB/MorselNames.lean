-- The names in the data dictionary: a sub-buffer is named after its buffer and its offset, and no
-- buffer has the name of a sub-buffer. What each step does to the names and to the dictionary.
import HeroDB.MorselBuffers
import HeroDB.MorselEffects

namespace hero.data_parallelism

/-! ## Aliases -/

section aliases

variable {name name' : Name} {offset offset' : Nat} {c : Char}

theorem to_string_chars {i : Int} (h : c ∈ to_string i) : c.isDigit ∨ c = '-' := by
  cases i with
  | ofNat n => exact .inl (digit_of_mem h)
  | negSucc n =>
    rcases List.mem_cons.mp h with rfl | h
    · exact .inr rfl
    · exact .inl (digit_of_mem h)

theorem underscore_not_mem (i : Int) : '_' ∉ to_string i := by
  intro h
  rcases to_string_chars h with hdigit | habsurd
  · exact absurd hdigit (by decide)
  · exact absurd habsurd (by decide)

theorem to_string_inj {i j : Int} (h : to_string i = to_string j) : i = j := by
  cases i with
  | ofNat m =>
    cases j with
    | ofNat n => rw [toDigits_inj.mp h]
    | negSucc n =>
      have hminus : '-' ∈ Nat.toDigits 10 m := by
        change Nat.toDigits 10 m = '-' :: _ at h
        rw [h]
        exact List.mem_cons_self
      exact absurd (digit_of_mem hminus) (by decide)
  | negSucc m =>
    cases j with
    | ofNat n =>
      have hminus : '-' ∈ Nat.toDigits 10 n := by
        change '-' :: _ = Nat.toDigits 10 n at h
        rw [← h]
        exact List.mem_cons_self
      exact absurd (digit_of_mem hminus) (by decide)
    | negSucc n =>
      have hdigits := toDigits_inj.mp (List.cons.inj h).2
      rw [Nat.succ.inj hdigits]

theorem alias_eq (name : Name) (offset : Nat) :
    compute_alias_name_for_offset name offset = name ++ '_' :: to_string (to_int offset) := by
  unfold compute_alias_name_for_offset
  rw [underscore_chars, List.append_assoc, List.singleton_append]

/-- A text is split at its last underscore in one way. -/
theorem split_at_underscore {text text' digits digits' : Name} (h : '_' ∉ digits)
    (h' : '_' ∉ digits') (heq : text ++ '_' :: digits = text' ++ '_' :: digits') :
    text = text' ∧ digits = digits' := by
  rcases List.append_eq_append_iff.mp heq with ⟨more, rfl, hrest⟩ | ⟨more, rfl, hrest⟩
  · cases more with
    | nil => exact ⟨(List.append_nil _).symm, (List.cons.inj hrest).2⟩
    | cons x more =>
      have hmem : '_' ∈ digits := by
        rw [(List.cons.inj hrest).2]
        exact List.mem_append_right _ List.mem_cons_self
      exact absurd hmem h
  · cases more with
    | nil => exact ⟨List.append_nil _, (List.cons.inj hrest).2.symm⟩
    | cons x more =>
      have hmem : '_' ∈ digits' := by
        rw [(List.cons.inj hrest).2]
        exact List.mem_append_right _ List.mem_cons_self
      exact absurd hmem h'

theorem alias_inj
    (h : compute_alias_name_for_offset name offset = compute_alias_name_for_offset name' offset') :
    name = name' ∧ to_int offset = to_int offset' := by
  rw [alias_eq, alias_eq] at h
  obtain ⟨hname, hoffset⟩ := split_at_underscore (underscore_not_mem _) (underscore_not_mem _) h
  exact ⟨hname, to_string_inj hoffset⟩

/-- Offsets with one text are multiples of the morsel size together. -/
theorem morsel_dvd_of_to_int (h : to_int offset = to_int offset') (hdvd : ng_morsel_size ∣ offset) :
    ng_morsel_size ∣ offset' := by
  have hmod : (offset : Int) % 2 ^ 32 = (offset' : Int) % 2 ^ 32 := by
    have hoffset : to_int offset % 2 ^ 32 = (offset : Int) % 2 ^ 32 := Int.bmod_emod ..
    have hoffset' : to_int offset' % 2 ^ 32 = (offset' : Int) % 2 ^ 32 := Int.bmod_emod ..
    rw [← hoffset, ← hoffset', h]
  unfold ng_morsel_size at *
  omega

end aliases

/-! ## The names of the buffers -/

/-- The names that the executor gives to buffers; an edge starts without a name. -/
inductive BufferName : Name → Prop
  | empty : BufferName []
  | result (t : Device_Type) (k : Nat) :
      BufferName (get_result_buffer_name t (get_operation_alias_name k))
  | replica {t t' : Device_Type} {k : Nat} {name : Name} :
      replica_name t t' k = some name → BufferName name
  | input (t : Device_Type) (k i : Nat) :
      BufferName (get_input_buffer_name t (get_operation_alias_name k) i)

section buffer_names

variable {name name' : Name} {t t' t'' : Device_Type} {k l : Nat}

theorem result_tail_last (t : Device_Type) (k : Nat) : (result_tail t k).getLast? = some 'U' := by
  unfold result_tail
  rw [List.getLast?_append]
  cases t <;> rfl

theorem result_name_last (t : Device_Type) (k : Nat) :
    (get_result_buffer_name t (get_operation_alias_name k)).getLast? = some 'U' := by
  rw [result_name_eq, List.getLast?_append, result_tail_last]
  rfl

theorem replica_name_last (h : replica_name t t' k = some name) : name.getLast? = some 'U' := by
  rw [replica_name_eq, Option.some.injEq] at h
  rw [← h, List.getLast?_append, List.getLast?_append, List.getLast?_append, List.getLast?_drop,
    result_tail_last]
  split
  · cases t' <;> rfl
  · rfl

theorem input_name_eq (t : Device_Type) (k i : Nat) : ∃ text,
    get_input_buffer_name t (get_operation_alias_name k) i = text ++ 'p' :: '_' :: to_string i := by
  refine ⟨"input_".toList ++ get_operation_alias_name k ++ "_".toList ++ t.name ++ ['_'], ?_⟩
  have hparam : "_p_".toList = ['_', 'p', '_'] := by decide
  unfold get_input_buffer_name
  rw [hparam]
  simp only [List.append_assoc, List.cons_append, List.nil_append]

/-- The name of a buffer is empty, ends with the type of a device, or with the number of an input. -/
theorem BufferName.ends (h : BufferName name) :
    name = [] ∨ name.getLast? = some 'U' ∨
      ∃ text, ∃ i : Nat, name = text ++ 'p' :: '_' :: to_string i := by
  cases h with
  | empty => exact .inl rfl
  | result t k => exact .inr (.inl (result_name_last t k))
  | replica h => exact .inr (.inl (replica_name_last h))
  | input t k i =>
    obtain ⟨text, heq⟩ := input_name_eq t k i
    exact .inr (.inr ⟨text, i, heq⟩)

theorem last_of_number (text : Name) (i : Int) :
    ∃ c, (text ++ '_' :: to_string i).getLast? = some c ∧ (c.isDigit ∨ c = '-') := by
  have hne : to_string i ≠ [] := by
    cases i with
    | ofNat n => exact Nat.toDigits_ne_nil
    | negSucc n => exact List.cons_ne_nil _ _
  refine ⟨(to_string i).getLast hne, ?_, to_string_chars (List.getLast_mem hne)⟩
  rw [List.getLast?_append, List.getLast?_cons, List.getLast?_eq_getLast_of_ne_nil hne]
  rfl

/-- No buffer has the name of a sub-buffer. -/
theorem alias_ne_buffer (h : BufferName name) (h' : BufferName name') (offset : Nat) :
    compute_alias_name_for_offset name offset ≠ name' := by
  intro heq
  rw [alias_eq] at heq
  obtain ⟨c, hlast, hc⟩ := last_of_number name (to_int offset)
  rcases h'.ends with rfl | hU | ⟨text, i, rfl⟩
  · exact absurd heq (by simp)
  · rw [heq, hU, Option.some.injEq] at hlast
    rw [← hlast] at hc
    exact absurd hc (by decide)
  · have hsplit : text ++ 'p' :: '_' :: to_string i = (text ++ ['p']) ++ '_' :: to_string i := by
      simp
    rw [hsplit] at heq
    obtain ⟨rfl, -⟩ := split_at_underscore (underscore_not_mem _) (underscore_not_mem _) heq
    have hp : (text ++ ['p']).getLast? = some 'p' := List.getLast?_concat
    rcases h.ends with hnil | hU | ⟨text', j, heq'⟩
    · exact absurd hnil (by simp)
    · rw [hp] at hU
      exact absurd hU (by decide)
    · obtain ⟨c', hlast', hc'⟩ := last_of_number (text' ++ ['p']) j
      rw [List.append_assoc, List.singleton_append, ← heq', hp, Option.some.injEq] at hlast'
      rw [← hlast'] at hc'
      exact absurd hc' (by decide)

theorem result_name_inj (h : get_result_buffer_name t (get_operation_alias_name k) =
    get_result_buffer_name t' (get_operation_alias_name l)) : k = l := by
  rw [result_name_eq, result_name_eq, List.append_cancel_left_eq] at h
  unfold result_tail at h
  have hnot : ∀ t : Device_Type, '_' ∉ t.name := by
    intro t
    cases t <;> decide
  exact toDigits_inj.mp (split_at_underscore (hnot t) (hnot t') h).1

/-- A replica that has the name of a result buffer is one of the same operation. -/
theorem replica_of_result (h : replica_name t t' k =
    some (get_result_buffer_name t'' (get_operation_alias_name l))) : k = l := by
  by_cases hk : k < 10
  · rw [replica_name_of_lt hk, Option.some.injEq] at h
    exact result_name_inj h
  · exact absurd h (replica_ne_result (by omega))

end buffer_names

/-! ## What the steps do to the names -/

/-- What the names of buffers depend on in a node. -/
@[ext]
structure NodeTags where
  name : Name
  operationType : Operation_Type
  executionDevice : Int
  result_name : Name
  input_arg_names : List Name

def Operation_Node.tags (n : Operation_Node) : NodeTags where
  name := n._operation.name
  operationType := n._operation.operationType
  executionDevice := n.executionDevice
  result_name := n._operation.result_name
  input_arg_names := n._operation.input_arg_names

/-- What the names of buffers depend on in an edge. -/
@[ext]
structure EdgeTags where
  is_virtual_vertex : Bool
  input_data_name : Name
  fetched_data_name : Name

def Exchange_Edge.tags (d : Exchange_Edge) : EdgeTags where
  is_virtual_vertex := d.is_virtual_vertex
  input_data_name := d.input_data_name
  fetched_data_name := d.fetched_data_name

/-- A step that keeps the names. -/
structure Kept (m m' : Memory) : Prop where
  node : ∀ u, (m'.node u).tags = (m.node u).tags
  edge : ∀ e, (m'.edge e).tags = (m.edge e).tags

/-- The dictionary grows by what is registered. -/
def Grows (m m' : Memory) (r : Option Registration) : Prop :=
  ∀ key, key ∈ m'.data_dictionary ↔ key ∈ m.data_dictionary ∨ ∃ words, r = some (key, words)

section threads

variable {m m' m'' : Memory} {r : Option Registration} {name : Name} {v d e offset : Nat}

theorem Kept.refl : Kept m m := ⟨fun _ => rfl, fun _ => rfl⟩

theorem Kept.trans (h : Kept m m') (h' : Kept m' m'') : Kept m m'' :=
  ⟨fun u => (h'.node u).trans (h.node u), fun e => (h'.edge e).trans (h.edge e)⟩

theorem kept_of_same (hnode : m'.node = m.node) (hedge : m'.edge = m.edge) : Kept m m' :=
  ⟨fun u => by rw [hnode], fun e => by rw [hedge]⟩

/-- A write to an operation keeps each name that it keeps in the node of that operation. -/
theorem node_tag_modify {α : Type} {f : Operation_ → Operation_} (tag : NodeTags → α)
    (hf : ∀ n : Operation_Node, tag { n with _operation := f n._operation }.tags = tag n.tags)
    (u : Nat) : tag ((m.modify_operation v f).node u).tags = tag (m.node u).tags := by
  unfold Memory.modify_operation Memory.modify_node
  by_cases hu : u = v
  · subst hu
    simp only [Function.update_self]
    exact hf _
  · simp only [Function.update_of_ne hu]

theorem edge_tag_modify {α : Type} {f : Exchange_Edge → Exchange_Edge} (tag : EdgeTags → α)
    (hf : ∀ d, tag (f d).tags = tag d.tags) (e' : Nat) :
    tag ((m.modify_edge e f).edge e').tags = tag (m.edge e').tags := by
  by_cases he : e' = e
  · subst he
    rw [Memory.edge_modify_self]
    exact hf _
  · rw [Memory.edge_modify_ne _ he]

theorem kept_operation {f : Operation_ → Operation_}
    (hf : ∀ n : Operation_Node, { n with _operation := f n._operation }.tags = n.tags) :
    Kept m (m.modify_operation v f) :=
  ⟨node_tag_modify id hf, fun _ => rfl⟩

theorem kept_edge {f : Exchange_Edge → Exchange_Edge} (hf : ∀ d, (f d).tags = d.tags) :
    Kept m (m.modify_edge e f) :=
  ⟨fun _ => rfl, edge_tag_modify id hf⟩

theorem kept_rear_fetched_until (rear : Nat) :
    Kept m (m.modify_operation v (fun o => { o with rear_fetched_until := rear })) :=
  kept_operation (fun _ => rfl)

theorem kept_operation_fetched_until (offset : Nat) :
    Kept m (m.modify_operation v (fun o => { o with fetched_until := offset })) :=
  kept_operation (fun _ => rfl)

theorem kept_fetched_until (offset : Nat) :
    Kept m (m.modify_edge e (fun d => { d with fetched_until := offset })) :=
  kept_edge (fun _ => rfl)

theorem grows_of_same (h : m'.data_dictionary = m.data_dictionary) : Grows m m' none := by
  intro key
  simp [h]

theorem Grows.after (h : Grows m' m'' r) (hsame : m'.data_dictionary = m.data_dictionary) :
    Grows m m'' r := by
  intro key
  rw [h key, hsame]

theorem create_buffer_grows {throws : Bool} (words : Nat)
    (h : m.create_buffer name d throws = some m') :
    Kept m m' ∧ Grows m m' (new_buffer d m name words) := by
  obtain ⟨hnode, hedge, -⟩ := create_buffer_same h
  refine ⟨kept_of_same hnode hedge, fun key => ?_⟩
  unfold Memory.create_buffer at h
  unfold new_buffer
  split at h
  · rename_i hpresent
    split at h
    · cases h
    · cases h
      simp [hpresent]
  · rename_i hnew
    cases h
    rw [if_neg hnew, List.mem_cons]
    simp only [Option.some.injEq, Prod.mk.injEq]
    constructor
    · rintro (rfl | hold)
      · exact .inr ⟨words, rfl, rfl⟩
      · exact .inl hold
    · rintro (hold | ⟨words', rfl, -⟩)
      · exact .inr hold
      · exact .inl rfl

theorem create_sub_buffer_grows (words : Nat) (h : m.create_sub_buffer name d offset = some m') :
    Kept m m' ∧ Grows m m' (some ((compute_alias_name_for_offset name offset, d), words)) := by
  obtain ⟨hnode, hedge, -⟩ := create_sub_buffer_same h
  refine ⟨kept_of_same hnode hedge, fun key => ?_⟩
  unfold Memory.create_sub_buffer at h
  split at h
  · cases h
    rw [List.mem_cons]
    simp only [Option.some.injEq, Prod.mk.injEq]
    by_cases hkey : key = (compute_alias_name_for_offset name offset, d)
    · subst hkey
      simp
    · rw [List.mem_erase_of_ne hkey]
      constructor
      · rintro (habsurd | hold)
        · exact absurd habsurd hkey
        · exact .inl hold
      · rintro (hold | ⟨words', heq, -⟩)
        · exact .inr hold
        · exact absurd heq.symm hkey
  · cases h

variable {device_type : Nat → Device_Type} {info : VertexInfo}

theorem process_names {pc pc' : ProcessPc} (h : process_data info d pc m = some (pc', m')) :
    Kept m m' ∧ Grows m m' (process_registers info d pc m) := by
  cases pc with
  | unborn => cases h
  | wait =>
    cases h
    exact ⟨.refl, grows_of_same rfl⟩
  | loop offset created =>
    simp only [process_data] at h
    split at h <;> cases h <;> exact ⟨.refl, grows_of_same rfl⟩
  | sub_buffer offset =>
    simp only [process_data, Option.bind_eq_bind, Option.bind_eq_some_iff] at h
    obtain ⟨m₁, hsub, h⟩ := h
    cases h
    exact create_sub_buffer_grows _ hsub
  | test offset i =>
    simp only [process_data] at h
    split at h
    · simp only [Option.bind_eq_bind, Option.bind_eq_some_iff] at h
      obtain ⟨name, -, h⟩ := h
      split at h <;> cases h <;> exact ⟨.refl, grows_of_same rfl⟩
    · cases h
      exact ⟨.refl, grows_of_same rfl⟩
  | execute offset =>
    cases h
    exact ⟨kept_of_same rfl rfl, grows_of_same rfl⟩
  | put_processed offset =>
    cases h
    refine ⟨kept_operation ?_, grows_of_same (Memory.dictionary_modify_operation ..)⟩
    simp only [Operation_Node.tags, implies_true]
  | put_edge offset =>
    simp only [process_data, Option.bind_eq_bind, Option.bind_eq_some_iff] at h
    obtain ⟨out, -, h⟩ := h
    cases h
    refine ⟨kept_edge ?_, grows_of_same (Memory.dictionary_modify_edge ..)⟩
    simp only [Exchange_Edge.tags, implies_true]
  | put_EOD =>
    simp only [process_data, Option.bind_eq_bind, Option.bind_eq_some_iff] at h
    obtain ⟨out, -, h⟩ := h
    cases h
    exact ⟨kept_edge (fun _ => rfl), grows_of_same rfl⟩
  | finished => cases h

theorem helper_names {pc pc' : HelperPc}
    (h : work_sharing_transfer_and_process_data device_type info d pc m = some (pc', m')) :
    Kept m m' ∧ Grows m m' (helper_registers device_type info d pc m) := by
  cases pc with
  | unborn => cases h
  | wait =>
    cases h
    exact ⟨.refl, grows_of_same rfl⟩
  | input i =>
    simp only [work_sharing_transfer_and_process_data] at h
    simp only [helper_registers, Option.bind_eq_bind]
    split at h
    · rename_i hnone
      cases h
      rw [hnone]
      exact ⟨.refl, grows_of_same rfl⟩
    · rename_i e he
      simp only [Option.bind_eq_bind, Option.bind_eq_some_iff] at h
      obtain ⟨m₁, hbuffer, h⟩ := h
      cases h
      rw [he, Option.bind_some]
      exact create_buffer_grows _ hbuffer
  | result =>
    simp only [work_sharing_transfer_and_process_data, Option.bind_eq_bind,
      Option.bind_eq_some_iff] at h
    obtain ⟨name, hname, m₁, hbuffer, h⟩ := h
    cases h
    simp only [helper_registers, Option.bind_eq_bind, hname, Option.bind_some]
    exact create_buffer_grows _ hbuffer
  | put_shared =>
    simp only [work_sharing_transfer_and_process_data, Option.bind_eq_bind,
      Option.bind_eq_some_iff] at h
    obtain ⟨out, -, h⟩ := h
    cases h
    exact ⟨kept_edge (fun _ => rfl), grows_of_same rfl⟩
  | loop =>
    cases h
    exact ⟨.refl, grows_of_same rfl⟩
  | front f =>
    simp only [work_sharing_transfer_and_process_data] at h
    split at h <;> cases h <;> exact ⟨.refl, grows_of_same rfl⟩
  | take =>
    simp only [work_sharing_transfer_and_process_data, Option.some.injEq, Prod.mk.injEq] at h
    obtain ⟨-, rfl⟩ := h
    exact ⟨kept_rear_fetched_until _, grows_of_same (Memory.dictionary_modify_operation ..)⟩
  | copy i =>
    simp only [work_sharing_transfer_and_process_data] at h
    simp only [helper_registers, Option.bind_eq_bind]
    split at h
    · rename_i hnone
      cases h
      rw [hnone]
      exact ⟨.refl, grows_of_same rfl⟩
    · rename_i e he
      simp only [Option.bind_eq_bind, Option.bind_eq_some_iff] at h
      obtain ⟨name, hname, m₁, hsub, h⟩ := h
      split at h
      · cases h
        rw [he, Option.bind_some, hname, Option.bind_some]
        exact create_sub_buffer_grows _ hsub
      · cases h
  | sub_buffer =>
    simp only [work_sharing_transfer_and_process_data, Option.bind_eq_bind,
      Option.bind_eq_some_iff] at h
    obtain ⟨name, hname, m₁, hsub, h⟩ := h
    cases h
    simp only [helper_registers, Option.bind_eq_bind, hname, Option.bind_some]
    exact create_sub_buffer_grows _ hsub
  | execute =>
    cases h
    exact ⟨kept_of_same rfl rfl, grows_of_same rfl⟩
  | put_edge =>
    simp only [work_sharing_transfer_and_process_data, Option.bind_eq_bind,
      Option.bind_eq_some_iff] at h
    obtain ⟨out, -, h⟩ := h
    cases h
    refine ⟨kept_edge ?_, grows_of_same (Memory.dictionary_modify_edge ..)⟩
    simp only [Exchange_Edge.tags, implies_true]
  | put_rear =>
    cases h
    exact ⟨kept_operation (fun _ => rfl), grows_of_same rfl⟩
  | finished => cases h

/-- What a step of the transfer thread does to the names: its start names the result buffer, and
each input gets the name of the result buffer of its producer or of a buffer of its own. -/
structure TransferNames (device_type : Nat → Device_Type) (info : VertexInfo) (d : Nat)
    (pc pc' : TransferPc) (m m' : Memory) : Prop where
  name : ∀ u, (m'.operation u).name = (m.operation u).name
  operationType : ∀ u, (m'.operation u).operationType = (m.operation u).operationType
  executionDevice : ∀ u, (m'.node u).executionDevice = (m.node u).executionDevice
  result_name : ∀ u, (m'.operation u).result_name =
    if u = info.current_node ∧ pc = .start then
      get_result_buffer_name (device_type d) (m.operation info.current_node).name
    else (m.operation u).result_name
  input_arg_names : ∀ u, (m'.operation u).input_arg_names = (m.operation u).input_arg_names ∨
    u = info.current_node ∧ ∃ i max e name, pc = .input i max ∧
      info.incoming_edges[i]? = some e ∧
      (m'.operation u).input_arg_names = (m.operation u).input_arg_names ++ [name] ∧
      ((m.node u).executionDevice = (m.edge e).input_device_index ∧
          name = (m.edge e).input_data_name ∨
        (m.node u).executionDevice ≠ (m.edge e).input_device_index ∧
          input_name device_type info d i e m = some name)
  is_virtual_vertex : ∀ e, (m'.edge e).is_virtual_vertex = (m.edge e).is_virtual_vertex
  input_data_name : ∀ e, (m'.edge e).input_data_name = (m.edge e).input_data_name ∨
    info.outgoing_edge = some e ∧ (m'.edge e).input_data_name =
      get_result_buffer_name (device_type d) (m.operation info.current_node).name
  fetched_data_name : ∀ e, (m'.edge e).fetched_data_name = (m.edge e).fetched_data_name ∨
    (m'.edge e).fetched_data_name = (m.edge e).input_data_name ∨
    ∃ i, input_name device_type info d i e m = some (m'.edge e).fetched_data_name
  dictionary : Grows m m' (transfer_registers device_type info d pc m)
  leaves : pc' ≠ .start

theorem transfer_kept {pc pc' : TransferPc} (h : Kept m m') (hpc : pc ≠ .start)
    (hgrows : Grows m m' (transfer_registers device_type info d pc m)) (hleaves : pc' ≠ .start) :
    TransferNames device_type info d pc pc' m m' where
  name u := congrArg NodeTags.name (h.node u)
  operationType u := congrArg NodeTags.operationType (h.node u)
  executionDevice u := congrArg NodeTags.executionDevice (h.node u)
  result_name u := by
    rw [if_neg (fun habsurd => hpc habsurd.2)]
    exact congrArg NodeTags.result_name (h.node u)
  input_arg_names u := .inl (congrArg NodeTags.input_arg_names (h.node u))
  is_virtual_vertex e := congrArg EdgeTags.is_virtual_vertex (h.edge e)
  input_data_name e := .inl (congrArg EdgeTags.input_data_name (h.edge e))
  fetched_data_name e := .inl (congrArg EdgeTags.fetched_data_name (h.edge e))
  dictionary := hgrows
  leaves := hleaves

theorem open_morsel_names {i max : Nat} {pc : TransferPc} (he : info.incoming_edges[i]? = some e)
    (h : open_morsel info d offset i max e m = some (pc, m')) :
    TransferNames device_type info d (.edge offset i max) pc m m' := by
  simp only [open_morsel] at h
  split at h
  · rename_i hopen
    simp only [Option.bind_eq_bind, Option.bind_eq_some_iff] at h
    obtain ⟨name, hname, h⟩ := h
    have hregisters : transfer_registers device_type info d (.edge offset i max) m =
        if (m.edge e).is_work_shared = true ∧
            m.present (compute_alias_name_for_offset name offset) d then none
        else some ((compute_alias_name_for_offset name offset, d), ng_morsel_size) := by
      simp only [transfer_registers, he, Option.bind_eq_bind, Option.bind_some, if_pos hopen, hname]
    split at h
    · rename_i hshared
      cases h
      refine transfer_kept .refl (by simp) ?_ (by simp)
      rw [hregisters, if_pos hshared]
      exact grows_of_same rfl
    · rename_i hshared
      simp only [Option.bind_eq_some_iff] at h
      obtain ⟨m₁, hsub, h⟩ := h
      cases h
      obtain ⟨hkept, hgrows⟩ := create_sub_buffer_grows ng_morsel_size hsub
      refine transfer_kept hkept (by simp) ?_ (by simp)
      rw [hregisters, if_neg hshared]
      exact hgrows
  · rename_i hclosed
    cases h
    refine transfer_kept .refl (by simp) ?_ (by simp)
    simp only [transfer_registers, he, Option.bind_eq_bind, Option.bind_some, if_neg hclosed]
    exact grows_of_same rfl

/-- A write of a name to an edge, and the name of an argument. -/
theorem input_names {i max : Nat} {pc : TransferPc} {f : Exchange_Edge → Exchange_Edge}
    {input : Name} (hm' : Kept ((m.modify_edge e f).modify_operation info.current_node
      (fun o => { o with input_arg_names := o.input_arg_names ++ [input] })) m')
    (he : info.incoming_edges[i]? = some e)
    (hf : ∀ d, (f d).tags = { d.tags with fetched_data_name := (f d).fetched_data_name })
    (hfetched : (f (m.edge e)).fetched_data_name = (m.edge e).input_data_name ∨
      input_name device_type info d i e m = some (f (m.edge e)).fetched_data_name)
    (hinput : (m.node info.current_node).executionDevice = (m.edge e).input_device_index ∧
        input = (m.edge e).input_data_name ∨
      (m.node info.current_node).executionDevice ≠ (m.edge e).input_device_index ∧
        input_name device_type info d i e m = some input)
    (hgrows : Grows m m' (transfer_registers device_type info d (.input i max) m))
    (hleaves : pc ≠ .start) :
    TransferNames device_type info d (.input i max) pc m m' := by
  have hnode : ∀ {α : Type} (tag : NodeTags → α),
      (∀ t names, tag { t with input_arg_names := names } = tag t) →
      ∀ u, tag (m'.node u).tags = tag (m.node u).tags := by
    intro α tag htag u
    rw [hm'.node u]
    exact node_tag_modify tag (fun n => htag n.tags _) u
  have hedge : ∀ {α : Type} (tag : EdgeTags → α),
      (∀ t name, tag { t with fetched_data_name := name } = tag t) →
      ∀ e', tag (m'.edge e').tags = tag (m.edge e').tags := by
    intro α tag htag e'
    rw [hm'.edge e']
    refine edge_tag_modify tag (fun d => ?_) e'
    rw [hf]
    exact htag _ _
  refine ⟨hnode NodeTags.name (fun _ _ => rfl), hnode NodeTags.operationType (fun _ _ => rfl),
    hnode NodeTags.executionDevice (fun _ _ => rfl), fun u => ?_, fun u => ?_,
    hedge EdgeTags.is_virtual_vertex (fun _ _ => rfl),
    fun e' => .inl (hedge EdgeTags.input_data_name (fun _ _ => rfl) e'), fun e' => ?_, hgrows,
    hleaves⟩
  · rw [if_neg (by simp)]
    exact hnode NodeTags.result_name (fun _ _ => rfl) u
  · have hnames := congrArg NodeTags.input_arg_names (hm'.node u)
    by_cases hu : u = info.current_node
    · subst hu
      refine .inr ⟨rfl, i, max, e, input, rfl, he, hnames.trans ?_, hinput⟩
      exact congrArg Operation_.input_arg_names (Memory.operation_modify_self ..)
    · refine .inl (hnames.trans ?_)
      unfold Memory.modify_operation Memory.modify_node
      simp only [Function.update_of_ne hu]
      rfl
  · have hname := congrArg EdgeTags.fetched_data_name (hm'.edge e')
    rw [Memory.edge_modify_operation] at hname
    by_cases he' : e' = e
    · subst he'
      rw [Memory.edge_modify_self] at hname
      rcases hfetched with hsame | hnew
      · exact .inr (.inl (hname.trans hsame))
      · refine .inr (.inr ⟨i, hnew.trans ?_⟩)
        exact congrArg some hname.symm
    · rw [Memory.edge_modify_ne _ he'] at hname
      exact .inl hname

theorem prepare_input_names {i max : Nat} {pc : TransferPc} (he : info.incoming_edges[i]? = some e)
    (h : prepare_input device_type info d i e m = some m') (hleaves : pc ≠ .start) :
    TransferNames device_type info d (.input i max) pc m m' := by
  simp only [prepare_input] at h
  split at h
  · rename_i hsame
    cases h
    refine input_names .refl he (fun _ => rfl) (.inl rfl) (.inl ⟨hsame, rfl⟩) ?_ hleaves
    simp only [transfer_registers, he, Option.bind_eq_bind, Option.bind_some, if_pos hsame]
    exact grows_of_same rfl
  · rename_i hother
    simp only [Option.bind_eq_bind, Option.bind_eq_some_iff] at h
    obtain ⟨name, hname, hbuffer⟩ := h
    obtain ⟨hkept, hgrows⟩ :=
      create_buffer_grows (m.operation info.current_node).data_size hbuffer
    refine input_names hkept he (fun _ => rfl) (.inr hname) (.inr ⟨hother, hname⟩) ?_ hleaves
    simp only [transfer_registers, he, Option.bind_eq_bind, Option.bind_some, if_neg hother, hname]
    exact hgrows.after rfl

/-- The name of the result buffer goes to the out-edge. -/
theorem put_name_names {out : Nat} {pc' : TransferPc} {name : Name}
    (hname : name = get_result_buffer_name (device_type d) (m.operation info.current_node).name)
    (hout : info.outgoing_edge = some out) (hleaves : pc' ≠ .start) :
    TransferNames device_type info d .put_name pc' m
      (m.modify_edge out (fun edge => { edge with input_data_name := name })) := by
  have hedge : ∀ {α : Type} (tag : EdgeTags → α),
      (∀ t name, tag { t with input_data_name := name } = tag t) → ∀ e, tag ((m.modify_edge out
        (fun edge => { edge with input_data_name := name })).edge e).tags = tag (m.edge e).tags :=
    fun tag htag => edge_tag_modify tag (fun edge => htag edge.tags name)
  refine ⟨fun _ => rfl, fun _ => rfl, fun _ => rfl, fun u => ?_, fun u => .inl rfl,
    hedge EdgeTags.is_virtual_vertex (fun _ _ => rfl), fun e => ?_,
    fun e => .inl (hedge EdgeTags.fetched_data_name (fun _ _ => rfl) e),
    grows_of_same (Memory.dictionary_modify_edge ..), hleaves⟩
  · rw [if_neg (by simp)]
    rfl
  · by_cases he : e = out
    · subst he
      rw [Memory.edge_modify_self]
      exact .inr ⟨hout, hname⟩
    · rw [Memory.edge_modify_ne _ he]
      exact .inl rfl

theorem start_names {pc : TransferPc} {m₁ : Memory} {name : Name}
    (hname : name = get_result_buffer_name (device_type d) (m.operation info.current_node).name)
    (hbuffer : m.create_buffer name d true = some m₁) (hleaves : pc ≠ .start) :
    TransferNames device_type info d .start pc m
      (m₁.modify_operation info.current_node (fun o => { o with result_name := name })) := by
  obtain ⟨hkept, hgrows⟩ :=
    create_buffer_grows (compute_result_size (m.operation info.current_node)) hbuffer
  have hnode : ∀ {α : Type} (tag : NodeTags → α),
      (∀ t name, tag { t with result_name := name } = tag t) →
      ∀ u, tag ((m₁.modify_operation info.current_node
        (fun o => { o with result_name := name })).node u).tags = tag (m.node u).tags := by
    intro α tag htag u
    rw [← hkept.node u]
    exact node_tag_modify tag (fun n => htag n.tags name) u
  refine ⟨hnode NodeTags.name (fun _ _ => rfl), hnode NodeTags.operationType (fun _ _ => rfl),
    hnode NodeTags.executionDevice (fun _ _ => rfl), fun u => ?_,
    fun u => .inl (hnode NodeTags.input_arg_names (fun _ _ => rfl) u),
    fun e => congrArg EdgeTags.is_virtual_vertex (hkept.edge e),
    fun e => .inl (congrArg EdgeTags.input_data_name (hkept.edge e)),
    fun e => .inl (congrArg EdgeTags.fetched_data_name (hkept.edge e)), ?_, hleaves⟩
  · by_cases hu : u = info.current_node
    · subst hu
      rw [if_pos ⟨rfl, rfl⟩, Memory.operation_modify_self]
      exact hname
    · rw [if_neg (fun habsurd => hu habsurd.1)]
      refine Eq.trans ?_ (congrArg NodeTags.result_name (hkept.node u))
      unfold Memory.modify_operation Memory.modify_node Memory.operation
      simp only [Function.update_of_ne hu]
      rfl
  · rw [hname] at hgrows
    exact hgrows

theorem transfer_names {pc pc' : TransferPc}
    (h : transfer_data device_type info d pc m = some (pc', m')) :
    TransferNames device_type info d pc pc' m m' := by
  cases pc with
  | unborn => cases h
  | start =>
    simp only [transfer_data, Option.bind_eq_bind, Option.bind_eq_some_iff] at h
    obtain ⟨m₁, hbuffer, h⟩ := h
    cases h
    refine start_names rfl hbuffer ?_
    split <;> simp
  | put_device =>
    simp only [transfer_data, Option.bind_eq_bind, Option.bind_eq_some_iff] at h
    obtain ⟨out, -, h⟩ := h
    cases h
    exact transfer_kept (kept_edge (fun _ => rfl)) (by simp) (grows_of_same rfl) (by simp)
  | put_name =>
    simp only [transfer_data, Option.bind_eq_bind, Option.bind_eq_some_iff] at h
    obtain ⟨out, hout, h⟩ := h
    cases h
    exact put_name_names rfl hout (by simp)
  | put_size =>
    simp only [transfer_data, Option.bind_eq_bind, Option.bind_eq_some_iff] at h
    obtain ⟨out, -, h⟩ := h
    cases h
    refine transfer_kept (kept_edge ?_) (by simp) (grows_of_same rfl) (by simp)
    simp only [Exchange_Edge.tags, implies_true]
  | input i max =>
    simp only [transfer_data] at h
    split at h
    · rename_i hnone
      cases h
      refine transfer_kept .refl (by simp) ?_ (by simp)
      simp only [transfer_registers, hnone, Option.bind_eq_bind, Option.bind_none]
      exact grows_of_same rfl
    · rename_i e he
      simp only [Option.bind_eq_bind, Option.bind_eq_some_iff] at h
      obtain ⟨m₁, hinput, h⟩ := h
      cases h
      exact prepare_input_names he hinput (by simp)
  | size i max =>
    simp only [transfer_data, Option.bind_eq_bind, Option.bind_eq_some_iff] at h
    obtain ⟨e, -, h⟩ := h
    cases h
    refine transfer_kept .refl (by simp) (grows_of_same rfl) ?_
    split <;> simp
  | raise i max =>
    simp only [transfer_data, Option.bind_eq_bind, Option.bind_eq_some_iff] at h
    obtain ⟨e, -, h⟩ := h
    cases h
    exact transfer_kept .refl (by simp) (grows_of_same rfl) (by simp)
  | consumer i max =>
    simp only [transfer_data, Option.bind_eq_bind, Option.bind_eq_some_iff] at h
    obtain ⟨e, -, h⟩ := h
    cases h
    exact transfer_kept (kept_edge (fun _ => rfl)) (by simp) (grows_of_same rfl) (by simp)
  | put_rear_processed max =>
    cases h
    exact transfer_kept (kept_operation (fun _ => rfl)) (by simp) (grows_of_same rfl) (by simp)
  | put_rear_fetched max =>
    cases h
    exact transfer_kept (kept_operation (fun _ => rfl)) (by simp) (grows_of_same rfl) (by simp)
  | put_initialized max =>
    cases h
    refine transfer_kept ⟨fun u => ?_, fun _ => rfl⟩ (by simp) (grows_of_same rfl) (by simp)
    unfold Memory.modify_node
    by_cases hu : u = info.current_node
    · subst hu
      simp only [Function.update_self]
      rfl
    · simp only [Function.update_of_ne hu]
  | loop offset max =>
    simp only [transfer_data] at h
    split at h <;> cases h <;>
      exact transfer_kept .refl (by simp) (grows_of_same rfl) (by simp)
  | edge offset i max =>
    simp only [transfer_data] at h
    split at h
    · rename_i hnone
      cases h
      refine transfer_kept .refl (by simp) ?_ (by simp)
      simp only [transfer_registers, hnone, Option.bind_eq_bind, Option.bind_none]
      exact grows_of_same rfl
    · rename_i e he
      exact open_morsel_names he h
  | copy offset i max =>
    simp only [transfer_data, Option.bind_eq_bind, Option.bind_eq_some_iff] at h
    obtain ⟨e, -, h⟩ := h
    split at h
    · cases h
      refine transfer_kept ?_ (by simp) ?_ (by simp)
      · split
        · exact .refl
        · exact kept_of_same rfl rfl
      · split
        · exact grows_of_same rfl
        · exact grows_of_same rfl
    · cases h
  | fetched offset i max =>
    simp only [transfer_data, Option.bind_eq_bind, Option.bind_eq_some_iff] at h
    obtain ⟨e, -, h⟩ := h
    cases h
    exact transfer_kept (kept_fetched_until _) (by simp)
      (grows_of_same (Memory.dictionary_modify_edge ..)) (by simp)
  | advance offset max =>
    simp only [transfer_data, Option.some.injEq, Prod.mk.injEq] at h
    obtain ⟨rfl, rfl⟩ := h
    exact transfer_kept (kept_operation_fetched_until _) (by simp)
      (grows_of_same (Memory.dictionary_modify_operation ..)) (by simp)
  | finished max => cases h

end threads

end hero.data_parallelism
