-- Kernels that may fail. Where every launch is defined on the words that its inputs mean, the run is
-- the one with total kernels, and so it computes the meaning of the graph.
import HeroDB.Dataflow

namespace hero.runtime_layer

/-- What the kernels write, and nothing where they are undefined. -/
def Kernels.words (K : Kernels) (kernel : String) (buffers : List (List Word)) (params : List Int)
    (globalSize : Nat) : List Word :=
  (K.openCL kernel buffers params globalSize).getD []

def primitive_node.launched (K : Kernels) (n : primitive_node) (inputs : List Flow) :
    Option (List Word) :=
  K.openCL n.mKernelName (inputs.map Flow.words ++ [List.replicate (n.size_for inputs) 0])
    n.additional_parameters (n.size_for inputs / n.input_to_output_ratio)

theorem primitive_node.flow_words {K : Kernels} {n : primitive_node} {inputs : List Flow}
    {words : List Word} (h : n.launched K inputs = some words) :
    (n.flow K.words inputs).words = words := by
  unfold primitive_node.launched at h
  unfold primitive_node.flow Kernels.words
  simp only [h, Option.getD_some]

/-- A launch finds the buffers of its inputs, and behind them a buffer of zeros. -/
theorem launch_buffers (K : Kernels) (v : Nat) (m : Machine) {buffers : List (List Word)}
    {s : Stores} (hin : (m.dag.vertex v).input_data = []) (hout : (m.dag.vertex v).output_data = [])
    (hset : (set_input v m).stores = some s)
    (hbuffers : ((m.dag.in_edges v).map (fun e => (m.dag.edge e).data_pointer)).mapM (fun a =>
      look s a (m.dag.vertex v).device) = some buffers)
    (hnew : look s (next_alias m) (m.dag.vertex v).device = none) :
    ∃ s', (prepare_output_buffer v (set_input v m)).stores = some s' ∧
      (launch_of 0 ((operate K v m).dag.vertex v)).args.mapM (fun a =>
        look s' a (launch_of 0 ((operate K v m).dag.vertex v)).device) =
          some (buffers ++ [List.replicate ((set_input v m).dag.vertex v).input_size 0]) := by
  have hdevice : (launch_of 0 ((operate K v m).dag.vertex v)).device = (m.dag.vertex v).device :=
    operate_device K v m v
  have hsetdevice : ((set_input v m).dag.vertex v).device = (m.dag.vertex v).device :=
    set_input_edges_device v _ m v
  have halias : next_alias (set_input v m) = next_alias m := by simp [next_alias]
  have hprepared : (prepare_output_buffer v (set_input v m)).stores =
      some (task_layer.add_data s (next_alias m)
        (List.replicate ((set_input v m).dag.vertex v).input_size 0) (m.dag.vertex v).device) := by
    rw [prepare_output_buffer_stores, hset, Option.map_some, halias, hsetdevice]
  generalize hs' : task_layer.add_data s (next_alias m)
    (List.replicate ((set_input v m).dag.vertex v).input_size 0) (m.dag.vertex v).device = s'
    at hprepared
  have hmore : ∀ a x, look s a (m.dag.vertex v).device = some x →
      look s' a (m.dag.vertex v).device = some x := by
    intro a x hx
    rw [← hx, ← hs']
    apply openCL_layer.lookup_add_data_ne
    intro heq
    rw [(Prod.mk.inj heq).1, hnew] at hx
    cases hx
  have hzeros : look s' (next_alias m) (m.dag.vertex v).device =
      some (List.replicate ((set_input v m).dag.vertex v).input_size 0) := by
    rw [← hs']
    exact openCL_layer.lookup_add_data_new (AList.lookup_eq_none.mp hnew)
  refine ⟨s', hprepared, ?_⟩
  rw [hdevice, operate_args K v m hin hout 0, List.mapM_append, mapM_lookup_mono hbuffers hmore]
  simp [hzeros]

/-- Two kernels that leave the same words on the buffers of an operation run it alike. -/
theorem operate_congr (K K' : Kernels) (v : Nat) (m : Machine) {buffers : List (List Word)}
    {s : Stores} (henv : m.dag.execution_environment = 0)
    (hin : (m.dag.vertex v).input_data = []) (hout : (m.dag.vertex v).output_data = [])
    (hset : (set_input v m).stores = some s)
    (hbuffers : ((m.dag.in_edges v).map (fun e => (m.dag.edge e).data_pointer)).mapM (fun a =>
      look s a (m.dag.vertex v).device) = some buffers)
    (hnew : look s (next_alias m) (m.dag.vertex v).device = none)
    (hwords : kernel_words K buffers ((set_input v m).dag.vertex v) =
      kernel_words K' buffers ((set_input v m).dag.vertex v)) :
    operate K v m = operate K' v m := by
  have hnode : (operate K v m).dag.vertex v = (operate K' v m).dag.vertex v := rfl
  obtain ⟨s', hs', hall⟩ := launch_buffers K v m hin hout hset hbuffers hnew
  have hstores : (operate K v m).stores = (operate K' v m).stores := by
    have hargs := operate_args K v m hin hout 0
    rw [operate_stores K v m henv, operate_stores K' v m henv, ← hnode, hs', Option.bind_some,
      Option.bind_some, execute_openCL_eq hargs hall, execute_openCL_eq hargs hall]
    congr 1
    simp only [launch_of, operate_vertex_self]
    exact hwords
  have hrest : operate K v m = { operate K' v m with stores := (operate K v m).stores } := rfl
  rw [hrest, hstores]

namespace Plan

variable {K : Kernels} {p : Plan} {pre post : List Nat} {v : Nat}

/-- Every launch is defined on the words that its inputs mean. -/
def Defined (K : Kernels) (p : Plan) : Prop :=
  ∀ v, p.dag.IsOp v → ∃ words,
    (p.dag.vertex v).launched K ((p.dag.in_edges v).map (p.edge_meaning K.words)) = some words

theorem operate_defined (hl : p.LosesNothing K.words) (hd : p.Defined K)
    (hsplit : p.order = pre ++ v :: post) (hop : p.dag.IsOp v) {s : Stores}
    (h : p.Computed K.words pre s) :
    operate K v (p.run K.words pre) = operate (.total K.words) v (p.run K.words pre) := by
  have hw := wired K.words hsplit
  have hvertex := hw.vertex_eq v (p.topological.not_mem_prefix hsplit)
  have hdevice : ((p.run K.words pre).dag.vertex v).device = p.device v := hw.device_eq v
  have hpointers : ((p.run K.words pre).dag.in_edges v).map (fun e =>
      ((p.run K.words pre).dag.edge e).data_pointer) = (p.dag.in_edges v).map p.pointer := by
    rw [hw.shape.in_edges]
    apply List.map_congr_left
    exact fun e he => (edge_at_turn K.words hsplit he).1
  obtain ⟨s', hs', hinputs, hnew⟩ := inputs_ready hl hsplit hop h
  obtain ⟨data, hnode⟩ := node_at_launch h hsplit
  obtain ⟨words, hwords⟩ := hd v hop
  have hbuffers : (((p.run K.words pre).dag.in_edges v).map (fun e =>
      ((p.run K.words pre).dag.edge e).data_pointer)).mapM (fun a =>
        look s' a ((p.run K.words pre).dag.vertex v).device) =
          some ((p.dag.in_edges v).map (fun e => (p.edge_meaning K.words e).words)) := by
    rw [hpointers, hdevice]
    exact mapM_lookup_map hinputs
  refine operate_congr K (.total K.words) v (p.run K.words pre)
    (hw.shape.execution_environment.trans p.environment)
    (by rw [hvertex]; exact (p.fresh v hop).1) (by rw [hvertex]; exact (p.fresh v hop).2) hs'
    hbuffers (by rw [output_eq K.words hsplit hop]; exact hnew _) ?_
  unfold primitive_node.launched at hwords
  rw [List.map_map] at hwords
  have hlaunch : K.openCL (p.dag.vertex v).mKernelName
      ((p.dag.in_edges v).map (fun e => (p.edge_meaning K.words e).words) ++
        [List.replicate ((p.dag.vertex v).size_for
          ((p.dag.in_edges v).map (p.edge_meaning K.words))) 0])
      (p.dag.vertex v).additional_parameters
      ((p.dag.vertex v).size_for ((p.dag.in_edges v).map (p.edge_meaning K.words)) /
        (p.dag.vertex v).input_to_output_ratio) = some words := hwords
  rw [hnode]
  simp only [kernel_words, Kernels.total, Kernels.words, hlaunch, Option.getD_some]

/-- Every prefix of the run is the one with total kernels. -/
theorem after_defined (hl : p.LosesNothing K.words) (hd : p.Defined K) (pre post : List Nat)
    (hsplit : p.order = pre ++ post) :
    after K p.dag p.data_scan p.counter p.st pre = p.run K.words pre := by
  induction pre using List.reverseRecOn generalizing post with
  | nil => rfl
  | append_singleton pre v ih =>
    have hsplit' : p.order = pre ++ v :: post := by simpa using hsplit
    have hlt : v < p.dag.num_vertices := (p.topological.mem_iff v).mp (by simp [hsplit'])
    obtain ⟨s, h⟩ := computed_after hl pre (v :: post) hsplit'
    rw [after_snoc, ih (v :: post) hsplit']
    have hcases := execute_vertex_cases K p.data_scan p.query hlt ((wired K.words hsplit').name_eq v)
    rcases run_snoc K.words hsplit' with ⟨rfl, hrun⟩ | ⟨rfl, hrun⟩ | ⟨hop, hrun⟩
    · rcases hcases with ⟨-, hturn⟩ | ⟨he, -⟩ | ⟨hop, -⟩
      · rw [hturn, hrun]
      · exact absurd he (by decide)
      · exact absurd rfl hop.2.1
    · rcases hcases with ⟨hs, -⟩ | ⟨-, hturn⟩ | ⟨hop, -⟩
      · exact absurd hs (by decide)
      · rw [hturn, hrun]
      · exact absurd rfl hop.2.2
    · rcases hcases with ⟨hs, -⟩ | ⟨he, -⟩ | ⟨-, hturn⟩
      · exact absurd hs hop.2.1
      · exact absurd he hop.2.2
      · rw [hturn, hrun]
        exact operate_defined hl hd hsplit' hop h

/-- A plan that loses nothing and whose launches are defined shows its meaning. What an operation
computed is still in its buffer, if no edge took it away. -/
theorem execute_graph_of_defined (hl : p.LosesNothing K.words) (hd : p.Defined K) :
    ∃ s, (execute_graph K p.data_scan p.order (.before p.dag p.counter p.st)).stores = some s ∧
      (execute_graph K p.data_scan p.order (.before p.dag p.counter p.st)).results =
        p.shown K.words ∧
      ∀ v, p.dag.IsOp v → (∀ e ∈ p.reads p.order, p.Remote e → p.pointer e ≠ p.output v) →
        look s (p.output v) (p.device v) = some (p.meaning K.words v).words := by
  obtain ⟨s, h⟩ := computed_after hl p.order [] (List.append_nil _).symm
  have hrun : execute_graph K p.data_scan p.order (.before p.dag p.counter p.st) =
      p.run K.words p.order := after_defined hl hd p.order [] (List.append_nil _).symm
  rw [hrun]
  refine ⟨s, h.good.stores, h.results_eq, ?_⟩
  intro v hop hfree
  have hmem := (p.topological.mem_iff v).mpr hop.1
  have hstored : p.Stored K.words p.order (p.output v) (p.device v) (p.meaning K.words v).words :=
    .inr ⟨v, hmem, hop, rfl, rfl, h.words v hmem hop⟩
  have hat := h.good.kept.home _ _ _ hstored hfree (p.device v)
  rwa [if_pos rfl] at hat

end Plan

end hero.runtime_layer
