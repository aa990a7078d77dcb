-- The C++ environment: `execute_graph` on the graph of a plan with the other environment. The buffers
-- of the devices still travel, but the primitives work on the pointers of the aliases, so that the run
-- shows the meaning of the graph with the primitives in the place of the kernels.
import HeroDB.KernelRuns
import HeroDB.PrintedResults

namespace hero.runtime_layer

/-! ## Two machines side by side -/

/-- Two machines with the same aliases, and with the same nodes and edges of the operations. -/
structure Mirrors (m m' : Machine) : Prop where
  ends : m'.dag.ends = m.dag.ends
  edge : m'.dag.edge = m.dag.edge
  vertex : ∀ v, v ≠ start_vertex → m'.dag.vertex v = m.dag.vertex v
  device : ∀ v, (m'.dag.vertex v).device = (m.dag.vertex v).device
  counter : m'.total_data_set_in_device = m.total_data_set_in_device

/-- Both dictionaries of the devices have the same keys. -/
def SameKeys (s s' : Stores) : Prop := ∀ key, key ∈ s'.openCL ↔ key ∈ s.openCL

section mirrors

variable {m m' : Machine} {s s' t : Stores} {v : Nat}

theorem Mirrors.in_edges (h : Mirrors m m') (v : Nat) : m'.dag.in_edges v = m.dag.in_edges v := by
  unfold query_graph.in_edges query_graph.target
  rw [h.ends]

theorem Mirrors.out_edges (h : Mirrors m m') (v : Nat) :
    m'.dag.out_edges v = m.dag.out_edges v := by
  unfold query_graph.out_edges query_graph.source
  rw [h.ends]

theorem Mirrors.source (h : Mirrors m m') (e : Nat) : m'.dag.source e = m.dag.source e := by
  unfold query_graph.source
  rw [h.ends]

theorem Mirrors.target (h : Mirrors m m') (e : Nat) : m'.dag.target e = m.dag.target e := by
  unfold query_graph.target
  rw [h.ends]

theorem Mirrors.next_alias (h : Mirrors m m') : next_alias m' = next_alias m := by
  unfold runtime_layer.next_alias
  rw [h.counter]

/-- The turn of the scan. -/
theorem Mirrors.load_data (h : Mirrors m m') (data_scan : ScanMap) :
    Mirrors (load_data data_scan start_vertex m) (load_data data_scan start_vertex m') where
  ends := by rw [(load_data_shape _ _ m').ends, (load_data_shape _ _ m).ends, h.ends]
  edge := by
    funext e
    rw [load_data_edge, load_data_edge, h.out_edges, h.counter, h.edge]
  vertex v hv := by rw [load_data_vertex _ _ _ hv, load_data_vertex _ _ _ hv, h.vertex v hv]
  device v := by rw [load_data_device, load_data_device, h.device]
  counter := by rw [load_data_counter, load_data_counter, h.counter]

/-- The loop over some inputs of an operation. -/
theorem Mirrors.take_inputs (h : Mirrors m m') (hv : v ≠ start_vertex) (es : List Nat) :
    Mirrors (es.foldl (set_input_edge v) m) (es.foldl (set_input_edge v) m') := by
  have hdevice := set_input_edges_device v es m
  have hdevice' := set_input_edges_device v es m'
  obtain ⟨stores, heq⟩ := set_input_edges_eq v es m
  obtain ⟨stores', heq'⟩ := set_input_edges_eq v es m'
  rw [heq] at hdevice ⊢
  rw [heq'] at hdevice' ⊢
  refine ⟨h.ends, h.edge, ?_, fun w => ?_, h.counter⟩
  · intro w hw
    by_cases hwv : w = v
    · rw [hwv]
      simp only [query_graph.modify_vertex, Function.update_self, h.edge, h.vertex v hv]
    · simp only [query_graph.modify_vertex_vertex_ne _ _ hwv, h.vertex w hw]
  · rw [hdevice, hdevice', h.device]

theorem Mirrors.set_input (h : Mirrors m m') (hv : v ≠ start_vertex) :
    Mirrors (set_input v m) (set_input v m') := by
  unfold runtime_layer.set_input
  rw [h.in_edges]
  exact h.take_inputs hv _

/-- The turn of an operation. -/
theorem Mirrors.operate (h : Mirrors m m') (K K' : Kernels) (hv : v ≠ start_vertex) :
    Mirrors (operate K v m) (operate K' v m') where
  ends := by rw [(operate_shape K' v m').ends, (operate_shape K v m).ends, h.ends]
  edge := by
    have hset := h.set_input hv
    funext e
    simp only [runtime_layer.operate, execute_node_dag, compile_task_dag,
      prepare_output_buffer_edge, prepare_output_buffer_vertex_self, hset.out_edges, hset.edge,
      hset.vertex v hv, hset.next_alias]
  vertex w hw := by
    by_cases hwv : w = v
    · rw [hwv, operate_vertex_self, operate_vertex_self, (h.set_input hv).vertex v hv, h.next_alias]
    · rw [operate_vertex _ _ _ hwv, operate_vertex _ _ _ hwv, h.vertex w hw]
  device w := by rw [operate_device, operate_device, h.device]
  counter := by rw [operate_counter, operate_counter, h.counter]

/-- The turn of the display. -/
theorem Mirrors.display_result (h : Mirrors m m') :
    Mirrors (display_result m) (display_result m') where
  ends := by rw [display_result_dag, display_result_dag, h.ends]
  edge := by rw [display_result_dag, display_result_dag, h.edge]
  vertex v hv := by rw [display_result_dag, display_result_dag, h.vertex v hv]
  device v := by rw [display_result_dag, display_result_dag, h.device]
  counter := by rw [display_result_counter, display_result_counter, h.counter]

/-! ## The keys of the devices -/

theorem mem_add_data {d : openCL_layer.DataDictionary} {a : Int} {words : List Word} {dev : Device}
    {key : Int × Device} :
    key ∈ (openCL_layer.add_data openCL_layer.cl_success d a words dev).2 ↔
      key = (a, dev) ∨ key ∈ d := by
  simp only [openCL_layer.add_data, openCL_layer.cl_success, Bool.and_self, if_true]
  split
  · rename_i hmem
    constructor
    · exact .inr
    · rintro (rfl | h)
      · exact hmem
      · exact h
  · exact AList.mem_insert d

theorem SameKeys.add_data (h : SameKeys s s') (a : Int) (words words' : List Word) (dev : Device) :
    SameKeys (task_layer.add_data s a words dev) (task_layer.add_data s' a words' dev) := by
  intro key
  unfold task_layer.add_data
  rw [mem_add_data, mem_add_data, h key]

/-- A transfer that finds its buffer in one store finds it in the other. -/
theorem SameKeys.transfer_data (h : SameKeys s s') {a : Int} {src tar : Device} {n : Nat}
    {d : openCL_layer.DataDictionary}
    (hd : openCL_layer.transfer_data openCL_layer.cl_success s.openCL a src tar n = some d) :
    ∃ d', openCL_layer.transfer_data openCL_layer.cl_success s'.openCL a src tar n = some d' ∧
      SameKeys { s with openCL := d } { s' with openCL := d' } := by
  unfold openCL_layer.transfer_data at hd ⊢
  rw [Option.map_eq_some_iff] at hd
  obtain ⟨words, hwords, hd⟩ := hd
  have hthere : (a, src) ∈ s'.openCL := by
    rw [h]
    apply openCL_layer.get_data_isSome.mp
    rw [hwords, Option.isSome_some]
  obtain ⟨words', hwords'⟩ := Option.isSome_iff_exists.mp
    ((openCL_layer.get_data_isSome (o := openCL_layer.cl_success) (n := n)).mpr hthere)
  refine ⟨_, by rw [hwords', Option.map_some], ?_⟩
  intro key
  rw [← hd]
  simp only [openCL_layer.delete_data, AList.mem_erase, mem_add_data, h key]

/-- The columns of the scan. -/
theorem load_columns_keys (v : Nat) (cs : List (Int × List Word))
    (hcounter : m'.total_data_set_in_device = m.total_data_set_in_device)
    (hdevice : (m'.dag.vertex v).device = (m.dag.vertex v).device)
    (hs : m.stores = some s) (hs' : m'.stores = some s') (hkeys : SameKeys s s') :
    ∃ t t', (cs.foldl (load_column v) m).stores = some t ∧
      (cs.foldl (load_column v) m').stores = some t' ∧ SameKeys t t' := by
  induction cs generalizing m m' s s' with
  | nil => exact ⟨s, s', hs, hs', hkeys⟩
  | cons c rest ih =>
    have hstores : ∀ {m : Machine} {s : Stores}, m.stores = some s →
        (load_column v m c).stores = some (task_layer.add_data s
          (int_of_size (next_counter m.total_data_set_in_device)) c.2 (m.dag.vertex v).device) := by
      intro m s hs
      rw [load_column_stores, hs, Option.map_some]
    have hturn := hkeys.add_data (int_of_size (next_counter m.total_data_set_in_device)) c.2 c.2
      (m.dag.vertex v).device
    have hstores' := hstores hs'
    rw [hcounter, hdevice] at hstores'
    exact ih (by rw [load_column_counter, load_column_counter, hcounter])
      (by rw [load_column_device, load_column_device, hdevice]) (hstores hs) hstores' hturn

theorem Mirrors.load_data_keys (h : Mirrors m m') (data_scan : ScanMap) (v : Nat)
    (hs : m.stores = some s) (hs' : m'.stores = some s') (hkeys : SameKeys s s') :
    ∃ t t', (runtime_layer.load_data data_scan v m).stores = some t ∧
      (runtime_layer.load_data data_scan v m').stores = some t' ∧ SameKeys t t' := by
  refine load_columns_keys v data_scan.entries ?_ ?_ hs hs' hkeys
  · exact h.counter
  · have hdevice := h.device v
    simpa [Machine.modify_vertex, primitive_node.device] using hdevice

/-- A launch writes into a buffer that is there. -/
theorem execute_openCL_keys {run : kernel_run} {l : launch} (h : execute_openCL run l s = some t) :
    SameKeys s t := by
  unfold execute_openCL at h
  obtain ⟨buffers, hbuffers, h⟩ := Option.bind_eq_some_iff.mp h
  obtain ⟨out, hout, h⟩ := Option.bind_eq_some_iff.mp h
  obtain ⟨words, -, h⟩ := Option.bind_eq_some_iff.mp h
  have hall := mapM_isSome_iff.mp (Option.isSome_iff_exists.mpr ⟨buffers, hbuffers⟩)
  have hthere : (out, l.device) ∈ s.openCL :=
    AList.lookup_isSome.mp (hall out (List.mem_of_getLast? hout))
  intro key
  rw [← Option.some.inj h, AList.mem_insert]
  constructor
  · rintro (rfl | hkey)
    · exact hthere
    · exact hkey
  · exact .inr

/-- The turn of an operation makes a buffer for its output, and no other. -/
theorem operate_keys {K : Kernels} (henv : m.dag.execution_environment = 0)
    (hset : (runtime_layer.set_input v m).stores = some s)
    (ht : (runtime_layer.operate K v m).stores = some t) :
    SameKeys (task_layer.add_data s (runtime_layer.next_alias m)
      (List.replicate ((runtime_layer.set_input v m).dag.vertex v).input_size 0)
        (m.dag.vertex v).device) t := by
  have halias : runtime_layer.next_alias (runtime_layer.set_input v m) =
      runtime_layer.next_alias m := by simp [runtime_layer.next_alias]
  have hdevice : ((runtime_layer.set_input v m).dag.vertex v).device = (m.dag.vertex v).device :=
    set_input_edges_device v _ m v
  rw [operate_stores K v m henv, prepare_output_buffer_stores, hset, Option.map_some, halias,
    hdevice, Option.bind_some] at ht
  exact execute_openCL_keys ht

/-- The display leaves the stores as they are. -/
theorem display_edges_stores (es : List Nat) (h : (es.foldl display_edge m).stores = some t) :
    m.stores = some t := by
  induction es generalizing m with
  | nil => exact h
  | cons e rest ih =>
    have hstep := ih h
    unfold display_edge at hstep
    dsimp only at hstep
    generalize (m.stores.bind fun st => _) = column at hstep
    split at hstep
    · exact hstep
    · cases hstep

/-- The transfer of an input. -/
theorem Mirrors.transfer_input (h : Mirrors m m') (hs : m.stores = some s)
    (hs' : m'.stores = some s') (hkeys : SameKeys s s') {e : Nat}
    (ht : transfer_input m e = some t) :
    ∃ t', transfer_input m' e = some t' ∧ SameKeys t t' ∧ t'.cpp = s'.cpp := by
  unfold runtime_layer.transfer_input at ht ⊢
  rw [h.source, h.target, h.device, h.device, h.edge]
  split at ht
  · rename_i haway
    rw [hs, Option.bind_some, Option.map_eq_some_iff] at ht
    obtain ⟨d, hd, rfl⟩ := ht
    obtain ⟨d', hd', hsame⟩ := hkeys.transfer_data hd
    refine ⟨_, by rw [if_pos haway, hs', Option.bind_some, hd', Option.map_some], hsame, rfl⟩
  · rename_i hhome
    rw [hs] at ht
    refine ⟨s', by rw [if_neg hhome, hs'], ?_, rfl⟩
    rw [← Option.some.inj ht]
    exact hkeys

theorem stores_of_transfer {e : Nat} (h : transfer_input m e = some t) :
    ∃ s, m.stores = some s := by
  unfold runtime_layer.transfer_input at h
  split at h
  · obtain ⟨s, hs, -⟩ := Option.bind_eq_some_iff.mp h
    exact ⟨s, hs⟩
  · exact ⟨t, h⟩

/-- The loop of `set_input`. -/
theorem Mirrors.set_input_edges (h : Mirrors m m') (hv : v ≠ start_vertex) (es : List Nat)
    (hs : m.stores = some s) (hs' : m'.stores = some s') (hkeys : SameKeys s s')
    (ht : (es.foldl (set_input_edge v) m).stores = some t) :
    ∃ t', (es.foldl (set_input_edge v) m').stores = some t' ∧ SameKeys t t' ∧ t'.cpp = s'.cpp := by
  induction es using List.reverseRecOn generalizing t with
  | nil =>
    refine ⟨s', hs', ?_, rfl⟩
    rw [← Option.some.inj (hs.symm.trans ht)]
    exact hkeys
  | append_singleton es e ih =>
    have hstep : ∀ m : Machine, ((es ++ [e]).foldl (set_input_edge v) m).stores =
        runtime_layer.transfer_input (es.foldl (set_input_edge v) m) e := by
      intro m
      simp [set_input_edge]
    rw [hstep] at ht ⊢
    obtain ⟨t₁, ht₁⟩ := stores_of_transfer ht
    obtain ⟨t₁', ht₁', hkeys₁, hcpp₁⟩ := ih ht₁
    obtain ⟨t', ht', hkeys', hcpp'⟩ :=
      (h.take_inputs hv es).transfer_input ht₁ ht₁' hkeys₁ ht
    exact ⟨t', ht', hkeys', hcpp'.trans hcpp₁⟩

end mirrors

/-! ## The pointers -/

section pointers

variable {K : Kernels} {m : Machine} {s : Stores} {v : Nat}

/-- The words behind the pointer of an alias. -/
def behind (s : Stores) (a : Int) : Option (List Word) := s.cpp.lookup a

/-- A primitive that finds its pointers, the last one the output. -/
theorem execute_cpp_eq {run : kernel_run} {l : launch} {ins : List Int} {out : Int}
    {arrays : List (List Word)} (hargs : l.args = ins ++ [out])
    (harrays : l.args.mapM (fun a => behind s a) = some arrays) :
    execute_cpp run l s = (run l.kernel arrays l.params l.globalSize).map (fun words =>
      { s with cpp := s.cpp.insert out words }) := by
  have hlast : l.args.getLast? = some out := by simp [hargs]
  unfold behind at harrays
  unfold execute_cpp
  rw [harrays, hlast]
  simp only [Option.bind_eq_bind, Option.bind_some, Option.pure_def]
  cases run l.kernel arrays l.params l.globalSize <;> rfl

/-- In the C++ environment the turn of an operation runs its primitive. -/
theorem operate_stores_cpp (henv : m.dag.execution_environment ≠ 0) :
    (operate K v m).stores =
      (prepare_output_buffer v (set_input v m)).stores.bind (execute_cpp K.cpp
        (launch_of m.dag.execution_environment ((operate K v m).dag.vertex v))) := by
  unfold operate execute_node
  rw [if_neg henv]
  rfl

/-- The turn of an operation whose inputs have pointers: what its primitive writes is behind the new
alias, and every other pointer is as it was. -/
theorem operate_runs_cpp (array : Nat → List Word) {words : List Word}
    (henv : m.dag.execution_environment ≠ 0)
    (hin : (m.dag.vertex v).input_data = []) (hout : (m.dag.vertex v).output_data = [])
    (hset : (set_input v m).stores = some s)
    (harrays : ∀ e ∈ m.dag.in_edges v,
      (m.dag.edge e).data_pointer ≠ next_alias m ∧
        behind s (m.dag.edge e).data_pointer = some (array e))
    (hwords : K.cpp ((set_input v m).dag.vertex v).mKernelName
      ((m.dag.in_edges v).map array ++
        [List.replicate ((set_input v m).dag.vertex v).input_size 0])
      ((set_input v m).dag.vertex v).additional_parameters
      (((set_input v m).dag.vertex v).input_size /
        ((set_input v m).dag.vertex v).input_to_output_ratio) = some words) :
    ∃ s', (operate K v m).stores = some s' ∧
      s'.openCL = (task_layer.add_data s (next_alias m)
        (List.replicate ((set_input v m).dag.vertex v).input_size 0)
          (m.dag.vertex v).device).openCL ∧
      ∀ a, behind s' a = if a = next_alias m then some words else behind s a := by
  have hargs := operate_args K v m hin hout m.dag.execution_environment
  have halias : next_alias (set_input v m) = next_alias m := by simp [next_alias]
  have hdevice : ((set_input v m).dag.vertex v).device = (m.dag.vertex v).device :=
    set_input_edges_device v _ m v
  generalize hs1 : task_layer.add_data s (next_alias m)
    (List.replicate ((set_input v m).dag.vertex v).input_size 0) (m.dag.vertex v).device = s1
  have hprepared : (prepare_output_buffer v (set_input v m)).stores = some s1 := by
    rw [prepare_output_buffer_stores, hset, Option.map_some, halias, hdevice, hs1]
  have hzeros : behind s1 (next_alias m) =
      some (List.replicate ((set_input v m).dag.vertex v).input_size 0) := by
    rw [← hs1]
    exact AList.lookup_insert _
  have hframe : ∀ a, a ≠ next_alias m → behind s1 a = behind s a := by
    intro a ha
    rw [← hs1]
    exact AList.lookup_insert_ne ha
  have hinputs : ((m.dag.in_edges v).map (fun e => (m.dag.edge e).data_pointer)).mapM
      (fun a => behind s1 a) = some ((m.dag.in_edges v).map array) := by
    apply mapM_lookup_map
    intro e he
    rw [hframe _ (harrays e he).1, (harrays e he).2]
  have hall : (launch_of m.dag.execution_environment ((operate K v m).dag.vertex v)).args.mapM
      (fun a => behind s1 a) = some ((m.dag.in_edges v).map array ++
        [List.replicate ((set_input v m).dag.vertex v).input_size 0]) := by
    rw [hargs, List.mapM_append, hinputs]
    simp [hzeros]
  have hstores : (operate K v m).stores =
      some { s1 with cpp := s1.cpp.insert (next_alias m) words } := by
    rw [operate_stores_cpp henv, hprepared, Option.bind_some, execute_cpp_eq hargs hall]
    simp only [launch_of, operate_vertex_self]
    rw [hwords, Option.map_some]
  refine ⟨_, hstores, rfl, ?_⟩
  intro a
  split
  · rename_i ha
    rw [ha]
    exact AList.lookup_insert _
  · rename_i ha
    exact (AList.lookup_insert_ne ha).trans (hframe a ha)

/-- The columns of `load_data`, each behind its alias. -/
theorem load_columns_cpp (v : Nat) (cs : List (Int × List Word)) (m : Machine) (s : Stores)
    (hs : m.stores = some s)
    (hinj : ∀ i < cs.length, ∀ j < cs.length, column_alias m.total_data_set_in_device i =
      column_alias m.total_data_set_in_device j → i = j) :
    ∃ s', (cs.foldl (load_column v) m).stores = some s' ∧
      (∀ j c, cs[j]? = some c →
        behind s' (column_alias m.total_data_set_in_device j) = some c.2) ∧
      ∀ a, (∀ j < cs.length, a ≠ column_alias m.total_data_set_in_device j) →
        behind s' a = behind s a := by
  induction cs generalizing m s with
  | nil => exact ⟨s, hs, fun j c hj => by simp at hj, fun _ _ => rfl⟩
  | cons c rest ih =>
    have hzero := column_alias_zero m.total_data_set_in_device
    have hsucc := column_alias_succ m.total_data_set_in_device
    obtain ⟨s', hs', hat, hframe⟩ := ih (load_column v m c)
      (task_layer.add_data s (column_alias m.total_data_set_in_device 0) c.2
        (m.dag.vertex v).device)
      (by rw [load_column_stores, hs, hzero, Option.map_some])
      (by
        intro i hi j hj heq
        rw [load_column_counter, hsucc, hsucc] at heq
        have hij := hinj (i + 1) (by simpa using hi) (j + 1) (by simpa using hj) heq
        omega)
    simp only [load_column_counter, hsucc] at hat hframe
    refine ⟨s', hs', ?_, ?_⟩
    · intro j c' hj
      cases j with
      | zero =>
        obtain rfl : c = c' := by simpa using hj
        rw [hframe _ (fun j hj heq => ?_)]
        · exact AList.lookup_insert _
        · have hindex := hinj 0 (by simp) (j + 1) (by simpa using hj) heq
          omega
      | succ j => exact hat j c' (by simpa using hj)
    · intro a ha
      rw [hframe a (fun j hj => ha (j + 1) (by simpa using hj))]
      exact AList.lookup_insert_ne (ha 0 (by simp))

theorem load_data_cpp (data_scan : ScanMap) (v : Nat) (hs : m.stores = some s)
    (hinj : ∀ i < data_scan.entries.length, ∀ j < data_scan.entries.length,
      column_alias m.total_data_set_in_device i = column_alias m.total_data_set_in_device j →
        i = j) :
    ∃ s', (load_data data_scan v m).stores = some s' ∧
      (∀ j c, data_scan.entries[j]? = some c →
        behind s' (column_alias m.total_data_set_in_device j) = some c.2) ∧
      ∀ a, (∀ j < data_scan.entries.length, a ≠ column_alias m.total_data_set_in_device j) →
        behind s' a = behind s a :=
  load_columns_cpp v data_scan.entries (m.modify_vertex v (fun n =>
    { n with no_of_input_required := data_scan.entries.length })) s hs hinj

/-- The columns that the display copies. -/
theorem display_edges_cpp (es : List Nat) (array : Nat → List Word) (hs : m.stores = some s)
    (henv : m.dag.execution_environment ≠ 0)
    (hat : ∀ e ∈ es, behind s (m.dag.edge e).data_pointer = some (array e))
    (hlong : ∀ e ∈ es,
      size_of_int (int_of_size (m.dag.edge e).data_size) ≤ (array e).length) :
    (es.foldl display_edge m).stores = some s ∧
      (es.foldl display_edge m).results = m.results ++ es.map (fun e =>
        (array e).takeD (size_of_int (int_of_size (m.dag.edge e).data_size)) 0) := by
  induction es generalizing m with
  | nil => exact ⟨hs, by simp⟩
  | cons e rest ih =>
    have hhere := hlong e List.mem_cons_self
    have hcolumn : cpp_layer.get_data s.cpp (m.dag.edge e).data_pointer
        (size_of_int (int_of_size (m.dag.edge e).data_size)) =
          some ((array e).takeD (size_of_int (int_of_size (m.dag.edge e).data_size)) 0) := by
      have hlook : s.cpp.lookup (m.dag.edge e).data_pointer = some (array e) :=
        hat e List.mem_cons_self
      rw [cpp_layer.get_data, hlook, Option.bind_some, if_pos hhere,
        List.takeD_eq_take _ hhere]
    have hstores : (display_edge m e).stores = some s := by
      simp only [display_edge, if_neg henv, hs, Option.bind_some, hcolumn, Option.isSome_some,
        if_true]
    have hresults : (display_edge m e).results = m.results ++
        [(array e).takeD (size_of_int (int_of_size (m.dag.edge e).data_size)) 0] := by
      simp only [display_edge, if_neg henv, hs, Option.bind_some, hcolumn, Option.toList_some]
    obtain ⟨hend, hrest⟩ := @ih (display_edge m e) hstores henv
      (fun e' he' => hat e' (List.mem_cons_of_mem _ he'))
      (fun e' he' => hlong e' (List.mem_cons_of_mem _ he'))
    refine ⟨hend, ?_⟩
    rw [List.foldl_cons, hrest, hresults, List.append_assoc]
    rfl

end pointers

/-! ## The run -/

/-- The primitives in the place of the kernels. -/
def Kernels.primitives (K : Kernels) : Kernels := { K with openCL := K.cpp }

namespace Plan

/-- The graph in the C++ environment. -/
def in_cpp (p : Plan) : query_graph := { p.dag with execution_environment := 1 }

/-- The machine in the C++ environment after the turns of some vertices. -/
def cpp_run (K : Kernels) (p : Plan) (pre : List Nat) : Machine :=
  after K p.in_cpp p.data_scan p.counter p.st pre

/-- The copies of the display stay inside of what they copy. -/
def ShownWhole (f : String → List (List Word) → List Int → Nat → List Word) (p : Plan) : Prop :=
  ∀ e ∈ p.dag.in_edges end_vertex,
    size_of_int (int_of_size (p.edge_meaning f e).data_size) ≤ (p.edge_meaning f e).words.length

/-- After the turns of some vertices the C++ run mirrors the run with total kernels, every column and
every output is behind its alias, and so is what the display has copied. -/
structure InCpp (K : Kernels) (p : Plan) (pre : List Nat) (s' : Stores) : Prop where
  mirrors : Mirrors (p.run K.primitives.words pre) (p.cpp_run K pre)
  stores : (p.cpp_run K pre).stores = some s'
  keys : ∀ s, (p.run K.primitives.words pre).stores = some s → SameKeys s s'
  columns : start_vertex ∈ pre → ∀ j c, p.data_scan.entries[j]? = some c →
    behind s' (p.column j) = some c.2
  words : ∀ u ∈ pre, p.dag.IsOp u →
    behind s' (p.output u) = some (p.meaning K.primitives.words u).words
  results : (p.cpp_run K pre).results =
    if end_vertex ∈ pre then p.shown K.primitives.words else []

section cpp

variable {K : Kernels} {p : Plan} {pre post : List Nat} {v e : Nat} {s s' : Stores}

theorem in_cpp_query (p : Plan) : IsQuery p.in_cpp :=
  ⟨p.query.two_le, p.query.scan_name, p.query.display_name, p.query.op_name, p.query.ends_lt,
    p.query.scan_first, p.query.display_last⟩

theorem wired_cpp (K : Kernels) (hsplit : p.order = pre ++ post) :
    Wired K p.in_cpp p.data_scan p.counter p.st p.order pre (p.cpp_run K pre) :=
  wired_after K p.st p.in_cpp_query ⟨p.topological.perm, p.topological.forward⟩ p.small pre post
    hsplit

theorem cpp_run_snoc (K : Kernels) (hsplit : p.order = pre ++ v :: post) :
    (v = start_vertex ∧ p.cpp_run K (pre ++ [v]) = load_data p.data_scan v (p.cpp_run K pre)) ∨
      (v = end_vertex ∧ p.cpp_run K (pre ++ [v]) = display_result (p.cpp_run K pre)) ∨
      (p.dag.IsOp v ∧ p.cpp_run K (pre ++ [v]) = operate K v (p.cpp_run K pre)) := by
  have hlt : v < p.dag.num_vertices := (p.topological.mem_iff v).mp (by simp [hsplit])
  have hturn : p.cpp_run K (pre ++ [v]) =
      execute_vertex K p.data_scan (p.cpp_run K pre) v := after_snoc pre v
  have hcases := execute_vertex_cases K p.data_scan p.in_cpp_query hlt
    ((wired_cpp K hsplit).name_eq v)
  rw [hturn]
  exact hcases

theorem cpp_run_scan (K : Kernels) (hsplit : p.order = pre ++ start_vertex :: post) :
    p.cpp_run K (pre ++ [start_vertex]) =
      load_data p.data_scan start_vertex (p.cpp_run K pre) := by
  rcases cpp_run_snoc K hsplit with ⟨-, hrun⟩ | ⟨he, -⟩ | ⟨hop, -⟩
  · exact hrun
  · exact absurd he (by decide)
  · exact absurd rfl hop.2.1

theorem cpp_run_operation (K : Kernels) (hsplit : p.order = pre ++ v :: post)
    (hop : p.dag.IsOp v) : p.cpp_run K (pre ++ [v]) = operate K v (p.cpp_run K pre) := by
  rcases cpp_run_snoc K hsplit with ⟨hs, -⟩ | ⟨he, -⟩ | ⟨-, hrun⟩
  · exact absurd hs hop.2.1
  · exact absurd he hop.2.2
  · exact hrun

theorem cpp_run_display (K : Kernels) (hsplit : p.order = pre ++ end_vertex :: post) :
    p.cpp_run K (pre ++ [end_vertex]) = display_result (p.cpp_run K pre) := by
  rcases cpp_run_snoc K hsplit with ⟨hs, -⟩ | ⟨-, hrun⟩ | ⟨hop, -⟩
  · exact absurd hs (by decide)
  · exact hrun
  · exact absurd rfl hop.2.2

/-- What an edge brings is behind its alias once its source had its turn. -/
theorem InCpp.edge (h : p.InCpp K pre s') (hfinds : p.FindsColumns)
    (hlt : e < p.dag.ends.length) (hsource : p.dag.source e ∈ pre) :
    behind s' (p.pointer e) = some (p.edge_meaning K.primitives.words e).words := by
  by_cases hs : p.dag.source e = start_vertex
  · obtain ⟨j, c, hj, hwords, hpointer⟩ :=
      pointer_eq_column (f := K.primitives.words) hfinds hlt hs
    rw [hs] at hsource
    rw [hpointer, hwords, h.columns hsource j c hj]
  · have hpointer : p.pointer e = p.output (p.dag.source e) := by
      rw [pointer, edge_alias, if_neg hs]
      rfl
    rw [hpointer, h.words _ hsource (p.query.source_isOp hlt hs), edge_meaning, edge_flow, if_neg hs]

/-- No input of an operation has the alias of its output. -/
theorem pointer_ne_output (hfinds : p.FindsColumns) (hsplit : p.order = pre ++ v :: post)
    (hop : p.dag.IsOp v) (he : e ∈ p.dag.in_edges v) : p.pointer e ≠ p.output v := by
  have hlt := (p.dag.mem_in_edges.mp he).1
  by_cases hs : p.dag.source e = start_vertex
  · obtain ⟨j, c, hj, -, hpointer⟩ := pointer_eq_column (f := fun _ _ _ _ => []) hfinds hlt hs
    rw [hpointer]
    exact (out_alias_ne_column p.data_scan p.counter p.topological p.start_mem p.small hop
      (List.getElem?_eq_some_iff.mp hj).1).symm
  · have hpointer : p.pointer e = p.output (p.dag.source e) := by
      rw [pointer, edge_alias, if_neg hs]
      rfl
    rw [hpointer]
    intro heq
    have hsame := out_alias_inj p.data_scan p.counter p.topological (p.query.source_isOp hlt hs) hop
      heq
    apply p.topological.not_mem_prefix hsplit
    rw [← hsame]
    exact p.topological.sources_done hsplit he

/-! ## The turns -/

theorem in_cpp_start (K : Kernels) (p : Plan) : p.InCpp K [] p.st where
  mirrors := ⟨rfl, rfl, fun _ _ => rfl, fun _ => rfl, rfl⟩
  stores := rfl
  keys := by
    intro s hs
    have hst : p.st = s := Option.some.inj hs
    rw [hst]
    exact fun _ => Iff.rfl
  columns := fun h => by cases h
  words := fun _ h => by cases h
  results := rfl

/-- The turn of the scan. -/
theorem in_cpp_scan (hsplit : p.order = pre ++ start_vertex :: post)
    (hs : (p.run K.primitives.words pre).stores = some s) (h : p.InCpp K pre s') :
    ∃ t', p.InCpp K (pre ++ [start_vertex]) t' := by
  have hw := wired_cpp K hsplit
  have hat := counter_at_eq p.data_scan p.counter p.topological hsplit
  rw [← hw.counter_eq] at hat
  have hrun := run_scan K.primitives.words hsplit
  have hrun' := cpp_run_scan K hsplit
  obtain ⟨t', ht', hcolumns, hframe⟩ :=
    load_data_cpp p.data_scan start_vertex h.stores (fun i hi j hj heq => by
      rw [← hat] at heq
      exact column_inj hi hj heq)
  obtain ⟨t, u', ht, hu', hkeys⟩ :=
    h.mirrors.load_data_keys p.data_scan start_vertex hs h.stores (h.keys s hs)
  obtain rfl : u' = t' := Option.some.inj (hu'.symm.trans ht')
  rw [← hat] at hcolumns hframe
  refine ⟨u', ?_, ?_, ?_, ?_, ?_, ?_⟩
  · rw [hrun, hrun']
    exact h.mirrors.load_data p.data_scan
  · rw [hrun', ht']
  · intro t₁ ht₁
    rw [hrun, ht, Option.some.injEq] at ht₁
    rw [← ht₁]
    exact hkeys
  · exact fun _ => hcolumns
  · intro u hu hop
    have hmem : u ∈ pre := by simpa [hop.2.1] using hu
    rw [hframe (p.output u) fun j hj => out_alias_ne_column p.data_scan p.counter p.topological
      p.start_mem p.small hop hj]
    exact h.words u hmem hop
  · have hne : end_vertex ≠ start_vertex := by decide
    rw [hrun', load_data_results, h.results]
    simp [hne]

/-- The node at its launch is that of the other run. -/
theorem InCpp.launched (h : p.InCpp K pre s') (hd : p.Defined K.primitives)
    (hsplit : p.order = pre ++ v :: post) (hop : p.dag.IsOp v)
    (hcomputed : p.Computed K.primitives.words pre s) :
    K.cpp ((set_input v (p.cpp_run K pre)).dag.vertex v).mKernelName
      ((p.dag.in_edges v).map (fun e => (p.edge_meaning K.primitives.words e).words) ++
        [List.replicate ((set_input v (p.cpp_run K pre)).dag.vertex v).input_size 0])
      ((set_input v (p.cpp_run K pre)).dag.vertex v).additional_parameters
      (((set_input v (p.cpp_run K pre)).dag.vertex v).input_size /
        ((set_input v (p.cpp_run K pre)).dag.vertex v).input_to_output_ratio) =
          some (p.meaning K.primitives.words v).words := by
  obtain ⟨data, hnode⟩ := node_at_launch hcomputed hsplit
  obtain ⟨words, hwords⟩ := hd v hop
  have hmeaning := primitive_node.flow_words hwords
  rw [← meaning_eq hop.1] at hmeaning
  rw [(h.mirrors.set_input hop.2.1).vertex v hop.2.1, hnode, hmeaning]
  unfold primitive_node.launched at hwords
  rw [List.map_map] at hwords
  exact hwords

/-- The turn of an operation. -/
theorem in_cpp_operation (hl : p.LosesNothing K.primitives.words) (hd : p.Defined K.primitives)
    (hsplit : p.order = pre ++ v :: post) (hop : p.dag.IsOp v)
    (hcomputed : p.Computed K.primitives.words pre s) (h : p.InCpp K pre s') :
    ∃ t', p.InCpp K (pre ++ [v]) t' := by
  have hw := wired_cpp K hsplit
  have hvertex := hw.vertex_eq v (p.topological.not_mem_prefix hsplit)
  have hrun := run_operation K.primitives.words hsplit hop
  have hrun' := cpp_run_operation K hsplit hop
  have halias : next_alias (p.cpp_run K pre) = p.output v :=
    h.mirrors.next_alias.trans (output_eq _ hsplit hop)
  have hedges : (p.cpp_run K pre).dag.in_edges v = p.dag.in_edges v := hw.shape.in_edges v
  -- The inputs travel as in the other run, and the pointers stay.
  obtain ⟨s₁, hs₁, -, -⟩ := inputs_ready hl hsplit hop hcomputed
  have hinputs := h.mirrors.set_input_edges hop.2.1 ((p.cpp_run K pre).dag.in_edges v)
    hcomputed.good.stores h.stores (h.keys s hcomputed.good.stores) (t := s₁) (by
      rw [h.mirrors.in_edges]
      exact hs₁)
  obtain ⟨s₁', hs₁', hkeys₁, hcpp₁⟩ := hinputs
  have hset : (set_input v (p.cpp_run K pre)).stores = some s₁' := hs₁'
  obtain ⟨t', ht', hopenCL, hbehind⟩ := operate_runs_cpp (K := K) (v := v)
    (fun e => (p.edge_meaning K.primitives.words e).words)
    (by rw [hw.shape.execution_environment]; exact Int.one_ne_zero)
    (by rw [hvertex]; exact (p.fresh v hop).1) (by rw [hvertex]; exact (p.fresh v hop).2) hset
    (by
      intro e he
      rw [hedges] at he
      have hpointer : ((p.cpp_run K pre).dag.edge e).data_pointer = p.pointer e := by
        rw [h.mirrors.edge]
        exact (edge_at_turn _ hsplit he).1
      rw [hpointer, halias]
      refine ⟨pointer_ne_output hl.finds hsplit hop he, ?_⟩
      rw [behind, hcpp₁]
      exact h.edge hl.finds (p.dag.mem_in_edges.mp he).1 (p.topological.sources_done hsplit he))
    (by
      rw [hedges]
      exact h.launched hd hsplit hop hcomputed)
  rw [halias] at hbehind
  refine ⟨t', ?_, ?_, ?_, ?_, ?_, ?_⟩
  · rw [hrun, hrun']
    exact h.mirrors.operate _ _ hop.2.1
  · rw [hrun', ht']
  · intro t ht key
    rw [hrun] at ht
    have hkeys := operate_keys ((wired _ hsplit).shape.execution_environment.trans p.environment)
      hs₁ ht
    have hboth := hkeys₁.add_data (next_alias (p.run K.primitives.words pre))
      (List.replicate ((set_input v (p.run K.primitives.words pre)).dag.vertex v).input_size 0)
      (List.replicate ((set_input v (p.cpp_run K pre)).dag.vertex v).input_size 0)
      ((p.run K.primitives.words pre).dag.vertex v).device
    rw [hopenCL, h.mirrors.next_alias, h.mirrors.device, hkeys key]
    exact hboth key
  · intro hstart j c hj
    have hstart' : start_vertex ∈ pre := by simpa [hop.2.1.symm] using hstart
    have hne : p.column j ≠ p.output v := (out_alias_ne_column p.data_scan p.counter p.topological
      p.start_mem p.small hop (List.getElem?_eq_some_iff.mp hj).1).symm
    rw [hbehind, if_neg hne, behind, hcpp₁]
    exact h.columns hstart' j c hj
  · intro u hu hop'
    rw [hbehind]
    by_cases huv : u = v
    · rw [huv, if_pos rfl]
    · have hmem : u ∈ pre := by simpa [huv] using hu
      have hne : p.output u ≠ p.output v := fun heq =>
        huv (out_alias_inj p.data_scan p.counter p.topological hop' hop heq)
      rw [if_neg hne, behind, hcpp₁]
      exact h.words u hmem hop'
  · rw [hrun', operate_results, h.results]
    simp [hop.2.2.symm]

/-- The turn of the display. -/
theorem in_cpp_display (hl : p.LosesNothing K.primitives.words)
    (hlong : p.ShownWhole K.primitives.words) (hsplit : p.order = pre ++ end_vertex :: post)
    (hcomputed : p.Computed K.primitives.words pre s) (h : p.InCpp K pre s') :
    ∃ t', p.InCpp K (pre ++ [end_vertex]) t' := by
  have hw := wired_cpp K hsplit
  have hrun := run_display K.primitives.words hsplit
  have hrun' := cpp_run_display K hsplit
  have hedge : ∀ e ∈ p.dag.in_edges end_vertex,
      ((p.cpp_run K pre).dag.edge e).data_pointer = p.pointer e ∧
        ((p.cpp_run K pre).dag.edge e).data_size =
          (p.edge_meaning K.primitives.words e).data_size := by
    intro e he
    rw [h.mirrors.edge]
    exact ⟨(edge_at_turn _ hsplit he).1, hcomputed.sizes e (p.dag.mem_in_edges.mp he).1
      (p.topological.sources_done hsplit he)⟩
  obtain ⟨hstores, hresults⟩ := display_edges_cpp (m := p.cpp_run K pre)
    (p.dag.in_edges end_vertex)
    (fun e => (p.edge_meaning K.primitives.words e).words) h.stores
    (by rw [hw.shape.execution_environment]; exact Int.one_ne_zero)
    (by
      intro e he
      rw [(hedge e he).1]
      exact h.edge hl.finds (p.dag.mem_in_edges.mp he).1 (p.topological.sources_done hsplit he))
    (by
      intro e he
      rw [(hedge e he).2]
      exact hlong e he)
  have hdisplay : display_result (p.cpp_run K pre) =
      (p.dag.in_edges end_vertex).foldl display_edge (p.cpp_run K pre) := by
    rw [display_result, hw.shape.in_edges]
    rfl
  refine ⟨s', ?_, ?_, ?_, ?_, ?_, ?_⟩
  · rw [hrun, hrun']
    exact h.mirrors.display_result
  · rw [hrun', hdisplay, hstores]
  · intro t ht
    rw [hrun] at ht
    exact h.keys t (display_edges_stores _ ht)
  · intro hstart
    rcases List.mem_append.mp hstart with hmem | hmem
    · exact h.columns hmem
    · exact absurd (List.mem_singleton.mp hmem) (by decide)
  · exact fun u hu hop => h.words u (by simpa [hop.2.2] using hu) hop
  · rw [hrun', hdisplay, hresults, h.results, if_neg (p.topological.not_mem_prefix hsplit),
      if_pos (by simp), List.nil_append, shown]
    refine List.map_congr_left fun e he => ?_
    rw [(hedge e he).2]

/-- Every prefix of the C++ run. -/
theorem in_cpp_after (hl : p.LosesNothing K.primitives.words) (hd : p.Defined K.primitives)
    (hlong : p.ShownWhole K.primitives.words) (pre post : List Nat)
    (hsplit : p.order = pre ++ post) : ∃ s', p.InCpp K pre s' := by
  induction pre using List.reverseRecOn generalizing post with
  | nil => exact ⟨p.st, in_cpp_start K p⟩
  | append_singleton pre v ih =>
    have hsplit' : p.order = pre ++ v :: post := by simpa using hsplit
    obtain ⟨s, hcomputed⟩ := computed_after hl pre (v :: post) hsplit'
    obtain ⟨s', h⟩ := ih (v :: post) hsplit'
    rcases run_snoc K.primitives.words hsplit' with ⟨rfl, -⟩ | ⟨rfl, -⟩ | ⟨hop, -⟩
    · exact in_cpp_scan hsplit' hcomputed.good.stores h
    · exact in_cpp_display hl hlong hsplit' hcomputed h
    · exact in_cpp_operation hl hd hsplit' hop hcomputed h

/-- In the C++ environment a plan shows its meaning with the primitives, and what each operation
computed is behind its alias. -/
theorem execute_graph_in_cpp (K : Kernels) (p : Plan) (hl : p.LosesNothing K.primitives.words)
    (hd : p.Defined K.primitives) (hlong : p.ShownWhole K.primitives.words) :
    ∃ s, (execute_graph K p.data_scan p.order (.before p.in_cpp p.counter p.st)).stores = some s ∧
      (execute_graph K p.data_scan p.order (.before p.in_cpp p.counter p.st)).results =
        p.shown K.primitives.words ∧
      ∀ v, p.dag.IsOp v → behind s (p.output v) = some (p.meaning K.primitives.words v).words := by
  obtain ⟨s, h⟩ := in_cpp_after hl hd hlong p.order [] (List.append_nil _).symm
  have hend : end_vertex ∈ p.order := (p.topological.mem_iff _).mpr p.query.two_le
  exact ⟨s, h.stores, h.results.trans (if_pos hend),
    fun v hop => h.words v ((p.topological.mem_iff v).mpr hop.1) hop⟩

end cpp

/-! ## Both environments -/

section both

variable {K : Kernels} {p : Plan}

/-- The primitives write on the meaning of the inputs what the kernels do. -/
def WritesAlike (K : Kernels) (p : Plan) : Prop :=
  ∀ v, p.dag.IsOp v →
    (p.dag.vertex v).launched K.primitives ((p.dag.in_edges v).map (p.edge_meaning K.words)) =
      (p.dag.vertex v).launched K ((p.dag.in_edges v).map (p.edge_meaning K.words))

theorem flow_congr {K K' : Kernels} {n : primitive_node} {inputs : List Flow}
    (h : n.launched K' inputs = n.launched K inputs) :
    n.flow K'.words inputs = n.flow K.words inputs := by
  unfold primitive_node.launched at h
  unfold primitive_node.flow Kernels.words
  simp only [h]

/-- Then every operation means the same with the primitives. -/
theorem meaning_of_primitives (h : p.WritesAlike K) :
    ∀ v ∈ p.order, p.dag.IsOp v → p.meaning K.primitives.words v = p.meaning K.words v := by
  have hordered : dataflow.Ordered (network K.words p.dag p.data_scan) p.order :=
    topological_ordered p.topological
  refine hordered.induction ?_
  intro v hv hinputs hop
  have hedges : (p.dag.in_edges v).map (p.edge_meaning K.primitives.words) =
      (p.dag.in_edges v).map (p.edge_meaning K.words) := by
    refine List.map_congr_left fun e he => ?_
    unfold edge_meaning edge_flow
    split
    · rfl
    · rename_i hs
      exact hinputs _ (List.mem_map_of_mem he)
        (p.query.source_isOp (p.dag.mem_in_edges.mp he).1 hs)
  rw [meaning_eq hop.1, meaning_eq hop.1, hedges]
  exact flow_congr (h v hop)

theorem edge_meaning_of_primitives (h : p.WritesAlike K) {e : Nat} (he : e < p.dag.ends.length) :
    p.edge_meaning K.primitives.words e = p.edge_meaning K.words e := by
  unfold edge_meaning edge_flow
  split
  · rfl
  · rename_i hs
    have hop := p.query.source_isOp he hs
    exact meaning_of_primitives h _ ((p.topological.mem_iff _).mpr hop.1) hop

/-- Where the primitives write what the kernels do, both environments show the same, and leave the
same words in the output of every operation that no edge took away. -/
theorem the_environments_agree (K : Kernels) (p : Plan) (hl : p.LosesNothing K.words)
    (hd : p.Defined K) (hlong : p.ShownWhole K.words) (hsame : p.WritesAlike K) :
    ∃ s s', (execute_graph K p.data_scan p.order (.before p.dag p.counter p.st)).stores = some s ∧
      (execute_graph K p.data_scan p.order (.before p.in_cpp p.counter p.st)).stores = some s' ∧
      (execute_graph K p.data_scan p.order (.before p.in_cpp p.counter p.st)).results =
        (execute_graph K p.data_scan p.order (.before p.dag p.counter p.st)).results ∧
      ∀ v, p.dag.IsOp v → (∀ e ∈ p.reads p.order, p.Remote e → p.pointer e ≠ p.output v) →
        behind s' (p.output v) = look s (p.output v) (p.device v) := by
  have hreads : ∀ e ∈ p.reads p.order, e < p.dag.ends.length := by
    intro e he
    obtain ⟨-, v, -, -, -, hedge⟩ := mem_reads he
    exact (p.dag.mem_in_edges.mp hedge).1
  have hl' : p.LosesNothing K.primitives.words := by
    refine ⟨hl.finds, hl.unshared, hl.shown, fun e he => ?_⟩
    rw [edge_meaning_of_primitives hsame (hreads e he)]
    exact hl.whole e he
  have hinputs : ∀ v, (p.dag.in_edges v).map (p.edge_meaning K.primitives.words) =
      (p.dag.in_edges v).map (p.edge_meaning K.words) := by
    intro v
    refine List.map_congr_left fun e he => ?_
    exact edge_meaning_of_primitives hsame (p.dag.mem_in_edges.mp he).1
  have hd' : p.Defined K.primitives := by
    intro v hop
    rw [hinputs, hsame v hop]
    exact hd v hop
  have hlong' : p.ShownWhole K.primitives.words := by
    intro e he
    rw [edge_meaning_of_primitives hsame (p.dag.mem_in_edges.mp he).1]
    exact hlong e he
  have hshown : p.shown K.primitives.words = p.shown K.words := by
    unfold shown
    refine List.map_congr_left fun e he => ?_
    rw [edge_meaning_of_primitives hsame (p.dag.mem_in_edges.mp he).1]
  obtain ⟨s, hs, hresults, hkept⟩ := execute_graph_of_defined hl hd
  obtain ⟨s', hs', hresults', hkept'⟩ := execute_graph_in_cpp K p hl' hd' hlong'
  refine ⟨s, s', hs, hs', ?_, ?_⟩
  · rw [hresults', hresults, hshown]
  · intro v hop hfree
    rw [hkept' v hop, hkept v hop hfree,
      meaning_of_primitives hsame v ((p.topological.mem_iff v).mpr hop.1) hop]

end both

end Plan

/-- The filter on two devices, and with its primitives. -/
theorem the_filter_agrees_in_both_environments :
    ∃ s s', (execute_graph (.total first_input) filter_on_two.data_scan filter_on_two.order
        (.before filter_on_two.dag filter_on_two.counter filter_on_two.st)).stores = some s ∧
      (execute_graph (.total first_input) filter_on_two.data_scan filter_on_two.order
        (.before filter_on_two.in_cpp filter_on_two.counter filter_on_two.st)).stores = some s' ∧
      (execute_graph (.total first_input) filter_on_two.data_scan filter_on_two.order
        (.before filter_on_two.in_cpp filter_on_two.counter filter_on_two.st)).results =
          (execute_graph (.total first_input) filter_on_two.data_scan filter_on_two.order
            (.before filter_on_two.dag filter_on_two.counter filter_on_two.st)).results ∧
      ∀ v, filter_on_two.dag.IsOp v →
        (∀ e ∈ filter_on_two.reads filter_on_two.order, filter_on_two.Remote e →
          filter_on_two.pointer e ≠ filter_on_two.output v) →
        behind s' (filter_on_two.output v) =
          look s (filter_on_two.output v) (filter_on_two.device v) := by
  have hlong : filter_on_two.ShownWhole first_input := by
    unfold Plan.ShownWhole
    decide +kernel
  exact Plan.the_environments_agree (.total first_input) filter_on_two
    filter_on_two_loses_nothing (fun _ _ => ⟨_, rfl⟩) hlong (fun _ _ => rfl)

end hero.runtime_layer
