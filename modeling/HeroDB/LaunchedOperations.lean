-- The law of the launches: in a run of `execute_graph` every operation is launched once, on the
-- buffers that its sources got, if and only if each operation finds these buffers at its turn.
import HeroDB.HashJoinPlan
import HeroDB.Placement

namespace hero.runtime_layer

/-! ## The property -/

section property

variable (m : Machine) (v : Nat)

/-- The two ends of an edge are on different devices. -/
def Machine.Remote (e : Nat) : Prop :=
  (m.dag.vertex (m.dag.source e)).device ≠ (m.dag.vertex (m.dag.target e)).device

instance Machine.decidableRemote (e : Nat) : Decidable (m.Remote e) :=
  inferInstanceAs (Decidable (_ ≠ _))

/-- Where the transfer of an edge looks for its buffer. -/
def Machine.source_key (e : Nat) : Int × Device :=
  ((m.dag.edge e).data_pointer, (m.dag.vertex (m.dag.source e)).device)

/-- The call of `execute` at the turn of an operation. -/
def call_at_turn : launch :=
  launch_of m.dag.execution_environment
    ((prepare_output_buffer v (set_input v m)).dag.vertex v)

/-- The turn of an operation gets to its launch, which finds a buffer or an array for each
argument. -/
def Launched : Prop :=
  ∃ s, (prepare_output_buffer v (set_input v m)).stores = some s ∧
    ∀ a ∈ (call_at_turn m v).args,
      if m.dag.execution_environment = 0 then (a, (call_at_turn m v).device) ∈ s.openCL
      else a ∈ s.cpp

/-- At the turn of an operation each input from another device has its buffer there, no two of these
inputs are one buffer, and every other input is on the device of the operation or comes there with
one of these. In C++ each input has its array. -/
structure FindsInputs (s : Stores) : Prop where
  brought : ∀ e ∈ m.dag.in_edges v, m.Remote e → m.source_key e ∈ s.openCL
  once : (m.dag.in_edges v).Pairwise (fun e e' =>
    m.Remote e → m.Remote e' → m.source_key e ≠ m.source_key e')
  here : ∀ e ∈ m.dag.in_edges v,
    if m.dag.execution_environment = 0 then
      ((m.dag.edge e).data_pointer, (m.dag.vertex v).device) ∈ s.openCL ∨
        ∃ e' ∈ m.dag.in_edges v, m.Remote e' ∧
          (m.dag.edge e').data_pointer = (m.dag.edge e).data_pointer
    else (m.dag.edge e).data_pointer ∈ s.cpp

end property

/-! ## The inputs -/

section inputs

variable {v e : Nat} {es : List Nat} {m : Machine} {s s' : Stores}

theorem set_input_edge_device (v : Nat) (m : Machine) (e u : Nat) :
    ((set_input_edge v m e).dag.vertex u).device = (m.dag.vertex u).device :=
  set_input_edges_device v [e] m u

theorem set_input_edge_remote (v : Nat) (m : Machine) (e e' : Nat) :
    (set_input_edge v m e).Remote e' ↔ m.Remote e' := by
  unfold Machine.Remote
  rw [set_input_edge_device, set_input_edge_device]
  rfl

theorem set_input_edge_source_key (v : Nat) (m : Machine) (e e' : Nat) :
    (set_input_edge v m e).source_key e' = m.source_key e' := by
  unfold Machine.source_key
  rw [set_input_edge_device]
  rfl

/-- The entries after a transfer that gets through. -/
theorem mem_transfer_data {d d' : openCL_layer.DataDictionary} {_name : Int} {src tar : Device}
    {n : Nat} (h : openCL_layer.transfer_data openCL_layer.cl_success d _name src tar n = some d')
    (key : Int × Device) :
    key ∈ d' ↔ key ≠ (_name, src) ∧ (key = (_name, tar) ∨ key ∈ d) := by
  unfold openCL_layer.transfer_data at h
  obtain ⟨words, -, rfl⟩ := Option.map_eq_some_iff.mp h
  rw [openCL_layer.delete_data, AList.mem_erase]
  by_cases hold : (_name, tar) ∈ d
  · have hadd : (openCL_layer.add_data openCL_layer.cl_success d _name words tar).2 = d := by
      simp [openCL_layer.add_data, openCL_layer.cl_success, hold]
    rw [hadd]
    constructor
    · exact fun hmem => ⟨hmem.1, .inr hmem.2⟩
    · rintro ⟨hne, rfl | hmem⟩
      · exact ⟨hne, hold⟩
      · exact ⟨hne, hmem⟩
  · simp [openCL_layer.add_data, openCL_layer.cl_success, hold, AList.mem_insert]

/-- The step of one input: on one device the stores stay. Otherwise the buffer has to be on the
device of the source, and its entry goes to the device of the target. -/
theorem set_input_edge_stores (v e : Nat) (hs : m.stores = some s) :
    (¬ m.Remote e → (set_input_edge v m e).stores = some s) ∧
      (m.Remote e → m.source_key e ∉ s.openCL → (set_input_edge v m e).stores = none) ∧
      (m.Remote e → m.source_key e ∈ s.openCL →
        ∃ s', (set_input_edge v m e).stores = some s' ∧ s'.cpp = s.cpp ∧
          ∀ key, key ∈ s'.openCL ↔ key ≠ m.source_key e ∧
            (key = ((m.dag.edge e).data_pointer, (m.dag.vertex (m.dag.target e)).device) ∨
              key ∈ s.openCL)) := by
  have hstores : (set_input_edge v m e).stores = transfer_input m e := rfl
  rw [hstores]
  unfold transfer_input Machine.Remote
  refine ⟨fun hlocal => ?_, fun hremote hmiss => ?_, fun hremote hmem => ?_⟩
  · rw [if_neg hlocal, hs]
  · rw [if_pos hremote, hs, Option.bind_some, openCL_layer.transfer_data_none hmiss]
    rfl
  · rw [if_pos hremote, hs, Option.bind_some]
    have hsome : (openCL_layer.transfer_data openCL_layer.cl_success s.openCL
        (m.dag.edge e).data_pointer (m.dag.vertex (m.dag.source e)).device
        (m.dag.vertex (m.dag.target e)).device (m.dag.edge e).data_size).isSome := by
      rw [openCL_layer.transfer_data, Option.isSome_map]
      exact openCL_layer.get_data_isSome.mpr hmem
    obtain ⟨d, hd⟩ := Option.isSome_iff_exists.mp hsome
    exact ⟨{ s with openCL := d }, by rw [hd, Option.map_some], rfl, mem_transfer_data hd⟩

/-- The loop of `set_input` gets through if and only if each input from another device has its buffer
there and none of these is wanted twice. -/
theorem set_input_edges_get_through_iff (hs : m.stores = some s)
    (htarget : ∀ e ∈ es, m.dag.target e = v) :
    (es.foldl (set_input_edge v) m).stores ≠ none ↔
      (∀ e ∈ es, m.Remote e → m.source_key e ∈ s.openCL) ∧
        es.Pairwise (fun e e' => m.Remote e → m.Remote e' → m.source_key e ≠ m.source_key e') := by
  induction es generalizing m s with
  | nil => simp [hs]
  | cons e rest ih =>
    obtain ⟨hstay, hmiss, hmove⟩ := set_input_edge_stores v e hs
    have hih := fun s₁ h₁ => @ih (set_input_edge v m e) s₁ h₁
      (fun e' he' => htarget e' (List.mem_cons_of_mem _ he'))
    simp only [set_input_edge_remote, set_input_edge_source_key] at hih
    rw [List.foldl_cons, List.forall_mem_cons, List.pairwise_cons]
    by_cases hremote : m.Remote e
    · by_cases hmem : m.source_key e ∈ s.openCL
      · obtain ⟨s₁, hs₁, -, hkeys⟩ := hmove hremote hmem
        -- Nothing that comes to the device of the node is taken away from it.
        have hkey : ∀ e' ∈ rest, m.Remote e' → (m.source_key e' ∈ s₁.openCL ↔
            m.source_key e ≠ m.source_key e' ∧ m.source_key e' ∈ s.openCL) := by
          intro e' he' hremote'
          rw [hkeys, ne_comm]
          refine and_congr_right (fun _ => or_iff_right (fun heq => hremote' ?_))
          rw [htarget e' (List.mem_cons_of_mem _ he'), ← htarget e List.mem_cons_self]
          exact congrArg Prod.snd heq
        rw [hih s₁ hs₁]
        constructor
        · rintro ⟨hall, hpair⟩
          refine ⟨⟨fun _ => hmem, fun e' he' hr => ((hkey e' he' hr).mp (hall e' he' hr)).2⟩, ?_,
            hpair⟩
          exact fun e' he' _ hr => ((hkey e' he' hr).mp (hall e' he' hr)).1
        · rintro ⟨⟨-, hall⟩, hfirst, hpair⟩
          exact ⟨fun e' he' hr => (hkey e' he' hr).mpr ⟨hfirst e' he' hremote hr, hall e' he' hr⟩,
            hpair⟩
      · rw [set_input_edges_stuck rest (hmiss hremote hmem)]
        exact iff_of_false (by simp) (fun h => hmem (h.1.1 hremote))
    · rw [hih s (hstay hremote)]
      simp [hremote]

/-- What the loop leaves on the device of the node: what was there, and what it brought. -/
theorem set_input_edges_leave (hs : m.stores = some s) (htarget : ∀ e ∈ es, m.dag.target e = v)
    (h : (es.foldl (set_input_edge v) m).stores = some s') :
    s'.cpp = s.cpp ∧ ∀ a, (a, (m.dag.vertex v).device) ∈ s'.openCL ↔
      (a, (m.dag.vertex v).device) ∈ s.openCL ∨
        ∃ e ∈ es, m.Remote e ∧ (m.dag.edge e).data_pointer = a := by
  induction es generalizing m s with
  | nil =>
    obtain rfl : s = s' := Option.some.inj (hs.symm.trans h)
    simp
  | cons e rest ih =>
    obtain ⟨hstay, hmiss, hmove⟩ := set_input_edge_stores v e hs
    have hih := fun s₁ h₁ => @ih (set_input_edge v m e) s₁ h₁
      (fun e' he' => htarget e' (List.mem_cons_of_mem _ he')) h
    have hedge : (set_input_edge v m e).dag.edge = m.dag.edge := rfl
    simp only [set_input_edge_remote, set_input_edge_device, hedge] at hih
    by_cases hremote : m.Remote e
    · by_cases hmem : m.source_key e ∈ s.openCL
      · obtain ⟨s₁, hs₁, hcpp, hkeys⟩ := hmove hremote hmem
        obtain ⟨hcpp', hleft⟩ := hih s₁ hs₁
        refine ⟨hcpp'.trans hcpp, fun a => ?_⟩
        have hne : (a, (m.dag.vertex v).device) ≠ m.source_key e := by
          intro heq
          apply hremote
          rw [htarget e List.mem_cons_self]
          exact (congrArg Prod.snd heq).symm
        rw [hleft, hkeys, htarget e List.mem_cons_self]
        simp only [ne_eq, hne, not_false_eq_true, true_and, Prod.mk.injEq, and_true,
          List.mem_cons, exists_eq_or_imp, hremote]
        rw [or_assoc, or_left_comm, eq_comm]
      · rw [List.foldl_cons, set_input_edges_stuck rest (hmiss hremote hmem)] at h
        cases h
    · obtain ⟨hcpp', hleft⟩ := hih s (hstay hremote)
      refine ⟨hcpp', fun a => ?_⟩
      rw [hleft]
      simp [hremote]

end inputs

/-! ## One turn -/

section turn

variable {v : Nat} {m : Machine}

theorem mem_add_data_openCL {st : Stores} {_alias : Int} {data : List Word} {dev : Device}
    {key : Int × Device} :
    key ∈ (task_layer.add_data st _alias data dev).openCL ↔
      key = (_alias, dev) ∨ key ∈ st.openCL := by
  simp only [task_layer.add_data, openCL_layer.add_data, openCL_layer.cl_success, Bool.and_self,
    if_true]
  split
  · rename_i hold
    exact ⟨.inr, fun h => h.elim (fun heq => heq ▸ hold) id⟩
  · exact AList.mem_insert _

theorem mem_add_data_cpp {st : Stores} {_alias a : Int} {data : List Word} {dev : Device} :
    a ∈ (task_layer.add_data st _alias data dev).cpp ↔ a = _alias ∨ a ∈ st.cpp :=
  AList.mem_insert _

/-- A fresh operation gets to its launch if `set_input` gets through and leaves each input where the
launch looks for it: its own buffer is always there. -/
theorem launched_iff_inputs_left (hin : (m.dag.vertex v).input_data = [])
    (hout : (m.dag.vertex v).output_data = [])
    (hnew : ∀ e ∈ m.dag.in_edges v, (m.dag.edge e).data_pointer ≠ next_alias m) :
    Launched m v ↔ ∃ s, (set_input v m).stores = some s ∧ ∀ e ∈ m.dag.in_edges v,
      if m.dag.execution_environment = 0 then
        ((m.dag.edge e).data_pointer, (m.dag.vertex v).device) ∈ s.openCL
      else (m.dag.edge e).data_pointer ∈ s.cpp := by
  have hargs : (call_at_turn m v).args =
      (m.dag.in_edges v).map (fun e => (m.dag.edge e).data_pointer) ++ [next_alias m] :=
    operate_args ⟨fun _ _ _ _ => none, fun _ _ _ _ => none⟩ v m hin hout _
  have hdevice : (call_at_turn m v).device = (m.dag.vertex v).device :=
    operate_device ⟨fun _ _ _ _ => none, fun _ _ _ _ => none⟩ v m v
  have hsetdevice : ((set_input v m).dag.vertex v).device = (m.dag.vertex v).device :=
    set_input_edges_device v _ m v
  have halias : next_alias (set_input v m) = next_alias m := by simp [next_alias]
  unfold Launched
  rw [hargs, hdevice, prepare_output_buffer_stores, halias, hsetdevice]
  simp only [Option.map_eq_some_iff]
  constructor
  · rintro ⟨_, ⟨s, hs, rfl⟩, hfound⟩
    refine ⟨s, hs, fun e he => ?_⟩
    have harg := hfound _ (List.mem_append_left _ (List.mem_map.mpr ⟨e, he, rfl⟩))
    split
    · rw [if_pos (by assumption), mem_add_data_openCL] at harg
      exact harg.resolve_left (fun heq => hnew e he (Prod.mk.inj heq).1)
    · rw [if_neg (by assumption), mem_add_data_cpp] at harg
      exact harg.resolve_left (hnew e he)
  · rintro ⟨s, hs, hleft⟩
    refine ⟨_, ⟨s, hs, rfl⟩, fun a ha => ?_⟩
    rw [mem_add_data_openCL, mem_add_data_cpp]
    rcases List.mem_append.mp ha with ha | ha
    · obtain ⟨e, he, rfl⟩ := List.mem_map.mp ha
      have hthere := hleft e he
      split
      · rw [if_pos (by assumption)] at hthere
        exact .inr hthere
      · rw [if_neg (by assumption)] at hthere
        exact .inr hthere
    · rw [List.mem_singleton.mp ha]
      simp

/-- A fresh operation gets to its launch, and the launch finds its arguments, if and only if the run
got to its turn and the inputs were there. -/
theorem launched_iff (hin : (m.dag.vertex v).input_data = [])
    (hout : (m.dag.vertex v).output_data = [])
    (hnew : ∀ e ∈ m.dag.in_edges v, (m.dag.edge e).data_pointer ≠ next_alias m) :
    Launched m v ↔ ∃ s, m.stores = some s ∧ FindsInputs m v s := by
  rw [launched_iff_inputs_left hin hout hnew]
  have htarget : ∀ e ∈ m.dag.in_edges v, m.dag.target e = v :=
    fun e he => (m.dag.mem_in_edges.mp he).2
  have hstuck : m.stores = none → (set_input v m).stores = none :=
    fun hnone => set_input_edges_stuck _ hnone
  constructor
  · rintro ⟨s', hs', hleft⟩
    obtain ⟨s, hs⟩ : ∃ s, m.stores = some s := by
      cases hm : m.stores with
      | none => rw [hstuck hm] at hs'; cases hs'
      | some s => exact ⟨s, rfl⟩
    obtain ⟨hbrought, honce⟩ :=
      (set_input_edges_get_through_iff hs htarget).mp (fun hnone => by
        rw [set_input, hnone] at hs'
        cases hs')
    obtain ⟨hcpp, hthere⟩ := set_input_edges_leave hs htarget hs'
    refine ⟨s, hs, hbrought, honce, fun e he => ?_⟩
    have hfound := hleft e he
    rwa [hthere, hcpp] at hfound
  · rintro ⟨s, hs, hfinds⟩
    have hthrough := (set_input_edges_get_through_iff hs htarget).mpr
      ⟨hfinds.brought, hfinds.once⟩
    obtain ⟨s', hs'⟩ := Option.ne_none_iff_exists'.mp hthrough
    obtain ⟨hcpp, hthere⟩ := set_input_edges_leave hs htarget hs'
    refine ⟨s', hs', fun e he => ?_⟩
    rw [hthere, hcpp]
    exact hfinds.here e he

end turn

/-! ## The runs -/

/-- The alias on an in-edge is one of a column or of an operation that had its turn. -/
theorem edge_alias_ne_out_alias {K : Kernels} {g : query_graph} {data_scan : ScanMap}
    {counter : Nat} {st : Stores} {order pre post : List Nat} {v e : Nat} (hq : IsQuery g)
    (htop : IsTopological g order)
    (hsmall : counter + data_scan.entries.length + g.num_vertices < 2 ^ 31)
    (hload : ∀ pre post, order = pre ++ start_vertex :: post →
      LoadsOwnColumns data_scan (after K g data_scan counter st pre))
    (hsplit : order = pre ++ v :: post) (hop : g.IsOp v) (he : e ∈ g.in_edges v) :
    edge_alias g data_scan counter order e ≠ out_alias data_scan counter order v := by
  have hfeeds := edge_alias_feeds hq htop hsmall hload hsplit he
  unfold Feeds at hfeeds
  intro heq
  rw [heq] at hfeeds
  split at hfeeds
  · obtain ⟨-, hplaced⟩ := mem_turns_place.mp hfeeds
    obtain ⟨j, c, hj, hcolumn⟩ := mem_placed.mp hplaced
    exact out_alias_ne_column data_scan counter htop (htop.start_mem hq) hsmall hop
      (List.getElem?_eq_some_iff.mp hj).1 (event.place.inj hcolumn).2
  · obtain ⟨hsource, hs, hend, halias⟩ := mem_turns_output.mp hfeeds
    have hsplit' : g.source e < g.num_vertices :=
      (htop.mem_iff _).mp (by rw [hsplit]; exact List.mem_append_left _ hsource)
    have hsame := out_alias_inj data_scan counter htop hop ⟨hsplit', hs, hend⟩ halias
    exact htop.not_mem_prefix hsplit (hsame ▸ hsource)

/-- In a run whose columns are resolved, every operation gets to its launch, once and on the buffers
that its sources got, if and only if every operation has its turn in a state where it finds them. -/
theorem every_operation_is_launched_iff (K : Kernels) (g : query_graph) (data_scan : ScanMap)
    (counter : Nat) (st : Stores) (order : List Nat) (hq : IsQuery g) (hfresh : FreshNodes g)
    (htop : IsTopological g order)
    (hsmall : counter + data_scan.entries.length + g.num_vertices < 2 ^ 31)
    (hload : ∀ pre post, order = pre ++ start_vertex :: post →
      LoadsOwnColumns data_scan (execute_graph K data_scan pre (.before g counter st))) :
    (WiredRun g (execute_graph K data_scan order (.before g counter st)).trace ∧
        ∀ pre v post, order = pre ++ v :: post → g.IsOp v →
          Launched (execute_graph K data_scan pre (.before g counter st)) v) ↔
      ∀ pre v post, order = pre ++ v :: post → g.IsOp v →
        ∃ s, (execute_graph K data_scan pre (.before g counter st)).stores = some s ∧
          FindsInputs (execute_graph K data_scan pre (.before g counter st)) v s := by
  have hwired := wired_run K g data_scan counter st order hq hfresh htop hsmall hload
  rw [and_iff_right hwired]
  refine forall_congr' fun pre => forall_congr' fun v => forall_congr' fun post => ?_
  refine forall_congr' fun hsplit => forall_congr' fun hop => ?_
  have hw := wired_after K st hq htop hsmall pre (v :: post) hsplit
  have hv := hw.vertex_eq v (htop.not_mem_prefix hsplit)
  rw [← after]
  refine launched_iff ?_ ?_ ?_
  · rw [hv]
    exact (hfresh v hop).1
  · rw [hv]
    exact (hfresh v hop).2
  · intro e he
    rw [hw.shape.in_edges] at he
    rw [(next_alias_eq htop hsplit hop hsmall hw).2]
    exact (hw.carries e (g.mem_in_edges.mp he).1 (htop.sources_done hsplit he)).trans_ne
      (edge_alias_ne_out_alias hq htop hsmall hload hsplit hop he)

/-- The plan of the hash join on one device, with kernels that write zeros. -/
theorem the_hash_join_is_launched_on_its_inputs :
    WiredRun (tests.query_hashJoin_graph 2 1)
        (execute_graph (.total fun _ _ _ _ => [0, 0]) (tests.query_hashJoin_scan [5, 7] [7])
          tests.query_hashJoin_queue (.before (tests.query_hashJoin_graph 2 1) 0 ⟨∅, ∅⟩)).trace ∧
      ∀ pre v post, tests.query_hashJoin_queue = pre ++ v :: post →
        (tests.query_hashJoin_graph 2 1).IsOp v →
          Launched (execute_graph (.total fun _ _ _ _ => [0, 0])
            (tests.query_hashJoin_scan [5, 7] [7]) pre
            (.before (tests.query_hashJoin_graph 2 1) 0 ⟨∅, ∅⟩)) v := by
  have htop := tests.query_hashJoin_queue_is_topological 2 1
  refine (every_operation_is_launched_iff _ _ _ 0 _ _ (tests.query_hashJoin_is_a_query 2 1)
    (tests.query_hashJoin_nodes_are_fresh 2 1) htop (by decide) ?_).mpr ?_
  · intro pre post hsplit
    obtain rfl := htop.takeWhile_eq hsplit
    exact fun e he => by revert e; decide
  · intro pre v post hsplit hop
    obtain rfl := htop.takeWhile_eq hsplit
    rcases (tests.query_hashJoin_isOp 2 1).mp hop with rfl | rfl
    · exact ⟨_, rfl, by decide, by decide, by decide⟩
    · exact ⟨_, rfl, by decide, by decide, by decide⟩

/-- The column with two readers: the columns are resolved, but the run ends in `set_input` of `mate1`,
which is never launched. -/
theorem the_second_reader_of_a_column_is_not_launched :
    (∀ pre post, query_6_plan.order = pre ++ start_vertex :: post →
      LoadsOwnColumns query_6_plan.data_scan
        (execute_graph (.total fun _ buffers _ _ => buffers.headD []) query_6_plan.data_scan pre
          (.before query_6_plan.dag query_6_plan.counter query_6_plan.st))) ∧
    ¬ (WiredRun query_6_plan.dag
        (execute_graph (.total fun _ buffers _ _ => buffers.headD []) query_6_plan.data_scan
          query_6_plan.order
          (.before query_6_plan.dag query_6_plan.counter query_6_plan.st)).trace ∧
      ∀ pre v post, query_6_plan.order = pre ++ v :: post → query_6_plan.dag.IsOp v →
        Launched (execute_graph (.total fun _ buffers _ _ => buffers.headD [])
          query_6_plan.data_scan pre
          (.before query_6_plan.dag query_6_plan.counter query_6_plan.st)) v) := by
  constructor
  · intro pre post hsplit
    obtain rfl := query_6_plan.topological.takeWhile_eq hsplit
    exact fun e he => by revert e; decide
  · rintro ⟨-, hlaunched⟩
    obtain ⟨s, hs, -⟩ := hlaunched [start_vertex, 2] 3 [end_vertex] rfl
      (query_6_discount_isOp.mpr (.inr rfl))
    have hnone : (prepare_output_buffer 3 (set_input 3
        (execute_graph (.total fun _ buffers _ _ => buffers.headD []) query_6_plan.data_scan
          [start_vertex, 2]
          (.before query_6_plan.dag query_6_plan.counter query_6_plan.st)))).stores.isSome =
            false := by decide +kernel
    rw [hs] at hnone
    cases hnone

end hero.runtime_layer
