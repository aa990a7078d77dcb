-- The hash join end to end: what the plan of `query_hashJoin` leaves in the result of `hashP`, in
-- every order of the work items, and for which columns that is the join.
import HeroDB.HashBuild
import HeroDB.HashProbe
import HeroDB.JoinGeometry
import HeroDB.StoreSteps
import HeroDB.Wiring

namespace hero.tests

open runtime_layer kernels linear_probing

/-! ## The query -/

/-- The array that the query makes of a vector. The length goes through an `int`, and a new array of
a negative length throws. -/
def array_of (v : List Word) : Option (List Word) :=
  if 0 ≤ int_of_size v.length then some (v.take (int_of_size v.length).toNat) else none

/-- The OpenCL kernels of an execution. -/
def join_kernels (x : Execution) : Kernels :=
  { openCL := run_kernel x, cpp := fun _ _ _ _ => none }

/-- `query_hashJoin` in a new process. -/
def query_hashJoin (x : Execution) (a b : List Word) : Option Machine := do
  let ar ← array_of a
  let ar2 ← array_of b
  return execute_graph (join_kernels x) (query_hashJoin_scan ar ar2) query_hashJoin_queue
    (.before (query_hashJoin_graph ar.length ar2.length) 0 ⟨∅, ∅⟩)

/-- Each probe row has a position of the build table with its value, if it is a build row, and -1 if
it is not. -/
def Joined (a b build result : List Word) : Prop :=
  ∀ (i : Nat) (y : Word), b[i]? = some y → ∃ p, result[i]? = some p ∧
    (y ∈ a → build[p.toNat]? = some y) ∧ (y ∉ a → p = BitVec.allOnes 32)

/-- In every execution the query ends without undefined behaviour, and the output of `hashP` joins
the vectors by the output of `hashB`. -/
def JoinCorrect (a b : List Word) : Prop :=
  ∀ x, ∃ m s build result, query_hashJoin x a b = some m ∧ m.stores = some s ∧
    look s (m.dag.edge 2).data_pointer (m.dag.vertex s2).device = some build ∧
    look s (m.dag.edge 3).data_pointer (m.dag.vertex s3).device = some result ∧
    Joined a b build result

/-! ## The run of the plan -/

section run

variable (x : Execution) (ar ar2 : List Word)

/-- The machine after the turns of some vertices. -/
def joining (pre : List Nat) : Machine :=
  after (join_kernels x) (query_hashJoin_graph ar.length ar2.length) (query_hashJoin_scan ar ar2) 0
    ⟨∅, ∅⟩ pre

/-- The launch of `hashB`: the table that it builds. -/
def build_table : Option (List Word) :=
  kernel_words (join_kernels x) [ar] (hashB_with_input ar.length)

/-- The launch of `hashP` on a table. -/
def probe_result (table : List Word) : Option (List Word) :=
  kernel_words (join_kernels x) [ar2, table] (hashP_with_inputs ar.length ar2.length)

theorem joining_wired (pre post : List Nat) (hsplit : query_hashJoin_queue = pre ++ post) :
    Wired (join_kernels x) (query_hashJoin_graph ar.length ar2.length)
      (query_hashJoin_scan ar ar2) 0 ⟨∅, ∅⟩ query_hashJoin_queue pre (joining x ar ar2 pre) :=
  wired_after _ _ (query_hashJoin_is_a_query _ _) (query_hashJoin_queue_is_topological _ _)
    (by rw [query_hashJoin_num_vertices]; exact (by decide : 0 + 2 + 4 < 2 ^ 31)) pre post hsplit

theorem joining_snoc (pre post : List Nat) {v : Nat}
    (hsplit : query_hashJoin_queue = pre ++ v :: post) :
    (v = start_vertex ∧ joining x ar ar2 (pre ++ [v]) =
        load_data (query_hashJoin_scan ar ar2) v (joining x ar ar2 pre)) ∨
      (v = end_vertex ∧ joining x ar ar2 (pre ++ [v]) = display_result (joining x ar ar2 pre)) ∨
      ((query_hashJoin_graph ar.length ar2.length).IsOp v ∧ joining x ar ar2 (pre ++ [v]) =
        operate (join_kernels x) v (joining x ar ar2 pre)) := by
  have hw := joining_wired x ar ar2 _ _ hsplit
  have hlt := ((query_hashJoin_queue_is_topological ar.length ar2.length).mem_iff v).mp
    (by simp [hsplit])
  unfold joining
  rw [after_snoc]
  exact execute_vertex_cases _ _ (query_hashJoin_is_a_query _ _) hlt (hw.name_eq v)

/-- The machine after the scan, after `hashB` and after `hashP`. -/
def scanned : Machine := joining x ar ar2 [start_vertex]

def built : Machine := joining x ar ar2 ([start_vertex] ++ [s2])

def probed : Machine := joining x ar ar2 (([start_vertex] ++ [s2]) ++ [s3])

theorem scanned_eq : scanned x ar ar2 = load_data (query_hashJoin_scan ar ar2) start_vertex
    (joining x ar ar2 []) := by
  rcases joining_snoc x ar ar2 [] [s2, s3, end_vertex] rfl with
    ⟨-, hscan⟩ | ⟨he, -⟩ | ⟨hop, -⟩
  · exact hscan
  · exact absurd he (by decide)
  · exact absurd rfl hop.2.1

theorem built_eq : built x ar ar2 = operate (join_kernels x) s2 (scanned x ar ar2) := by
  rcases joining_snoc x ar ar2 [start_vertex] [s3, end_vertex] rfl with
    ⟨hs, -⟩ | ⟨he, -⟩ | ⟨-, hop⟩
  · exact absurd hs (by decide)
  · exact absurd he (by decide)
  · exact hop

theorem probed_eq : probed x ar ar2 = operate (join_kernels x) s3 (built x ar ar2) := by
  rcases joining_snoc x ar ar2 ([start_vertex] ++ [s2]) [end_vertex] rfl with
    ⟨hs, -⟩ | ⟨he, -⟩ | ⟨-, hop⟩
  · exact absurd hs (by decide)
  · exact absurd he (by decide)
  · exact hop

theorem joining_end : joining x ar ar2 query_hashJoin_queue =
    display_result (probed x ar ar2) := by
  rcases joining_snoc x ar ar2 (([start_vertex] ++ [s2]) ++ [s3]) [] rfl with
    ⟨hs, -⟩ | ⟨-, he⟩ | ⟨hop, -⟩
  · exact absurd hs (by decide)
  · exact he
  · exact absurd rfl hop.2.2

/-! ### The aliases and the sizes -/

theorem scanned_wired : Wired (join_kernels x) (query_hashJoin_graph ar.length ar2.length)
    (query_hashJoin_scan ar ar2) 0 ⟨∅, ∅⟩ query_hashJoin_queue [start_vertex]
    (scanned x ar ar2) := joining_wired x ar ar2 _ [s2, s3, end_vertex] rfl

theorem built_wired : Wired (join_kernels x) (query_hashJoin_graph ar.length ar2.length)
    (query_hashJoin_scan ar ar2) 0 ⟨∅, ∅⟩ query_hashJoin_queue ([start_vertex] ++ [s2])
    (built x ar ar2) := joining_wired x ar ar2 _ [s3, end_vertex] rfl

theorem probed_wired : Wired (join_kernels x) (query_hashJoin_graph ar.length ar2.length)
    (query_hashJoin_scan ar ar2) 0 ⟨∅, ∅⟩ query_hashJoin_queue (([start_vertex] ++ [s2]) ++ [s3])
    (probed x ar ar2) := joining_wired x ar ar2 _ [end_vertex] rfl

theorem scanned_alias : next_alias (scanned x ar ar2) = 3 := by
  have hcounter := (scanned_wired x ar ar2).counter_eq
  have htwo : ((scanned x ar ar2).total_data_set_in_device) = 2 := by
    rw [hcounter]
    rfl
  rw [next_alias, htwo]
  decide

theorem built_alias : next_alias (built x ar ar2) = 4 := by
  have hcounter := (built_wired x ar ar2).counter_eq
  have hthree : ((built x ar ar2).total_data_set_in_device) = 3 := by
    rw [hcounter]
    rfl
  rw [next_alias, hthree]
  decide

/-- An edge of the scan goes through the loop of `load_data`. -/
theorem scanned_edge {e : Nat} (he : e ∈ [0, 1]) : (scanned x ar ar2).dag.edge e =
    resolved 0 [(1, ar), (2, ar2)]
      ((query_hashJoin_graph ar.length ar2.length).edge e) := by
  have hw := joining_wired x ar ar2 [] query_hashJoin_queue rfl
  have hout : e ∈ (joining x ar ar2 []).dag.out_edges start_vertex := by
    rw [hw.shape.out_edges]
    exact he
  rw [scanned_eq, load_data_edge, if_pos hout, hw.edge_eq e List.not_mem_nil, hw.counter_eq]
  rfl

theorem scanned_edge_0 : (scanned x ar ar2).dag.edge 0 =
    { data_edge.fresh 1 with data_size := ar.length } := by
  have hedge : (query_hashJoin_graph ar.length ar2.length).edge 0 = data_edge.fresh 1 := rfl
  have halias : int_of_size (next_counter 0) = 1 := by decide
  rw [scanned_edge x ar ar2 (by decide), hedge]
  simp [resolved, resolve_edge, data_edge.fresh, halias]

theorem scanned_edge_1 : (scanned x ar ar2).dag.edge 1 =
    { data_edge.fresh 2 with data_size := ar2.length } := by
  have hedge : (query_hashJoin_graph ar.length ar2.length).edge 1 = data_edge.fresh 2 := rfl
  have halias : int_of_size (next_counter (next_counter 0)) = 2 := by decide
  rw [scanned_edge x ar ar2 (by decide), hedge]
  simp [resolved, resolve_edge, data_edge.fresh, halias]

/-- `hashB` after `set_input`. -/
theorem scanned_hashB :
    (set_input s2 (scanned x ar ar2)).dag.vertex s2 = hashB_with_input ar.length := by
  have hw := scanned_wired x ar ar2
  have hin : (query_hashJoin_graph ar.length ar2.length).in_edges s2 = [0] := rfl
  rw [set_input_vertex_self, hw.shape.in_edges, hw.vertex_eq s2 (by decide), hin,
    query_hashJoin_vertex_s2]
  simp only [List.foldl_cons, List.foldl_nil, scanned_edge_0]
  rfl

theorem built_edge_1 : (built x ar ar2).dag.edge 1 =
    { data_edge.fresh 2 with data_size := ar2.length } := by
  have hout : 1 ∉ (scanned x ar ar2).dag.out_edges s2 := by
    rw [(scanned_wired x ar ar2).shape.out_edges]
    exact (by decide : 1 ∉ [2])
  rw [built_eq, operate_edge_of_not_mem _ _ _ hout, scanned_edge_1]

theorem built_edge_2 : ((built x ar ar2).dag.edge 2).data_pointer = 3 ∧
    ((built x ar ar2).dag.edge 2).data_size = hashB_output_size ar.length := by
  have hout : 2 ∈ (scanned x ar ar2).dag.out_edges s2 := by
    rw [(scanned_wired x ar ar2).shape.out_edges]
    exact (by decide : 2 ∈ [2])
  obtain ⟨hpointer, hsize⟩ := operate_edge_of_mem (join_kernels x) s2 _ hout
  rw [built_eq, hpointer, hsize, scanned_alias, operate_vertex_self, scanned_hashB]
  exact ⟨rfl, rfl⟩

/-- `hashP` after `set_input`: the node with its inputs, for its kernel. -/
theorem built_hashP (buffers : List (List Word)) :
    kernel_words (join_kernels x) buffers ((set_input s3 (built x ar ar2)).dag.vertex s3) =
      kernel_words (join_kernels x) buffers (hashP_with_inputs ar.length ar2.length) := by
  have hw := built_wired x ar ar2
  have hin : (query_hashJoin_graph ar.length ar2.length).in_edges s3 = [1, 2] := rfl
  obtain ⟨-, hsize⟩ := built_edge_2 x ar ar2
  rw [set_input_vertex_self, hw.shape.in_edges, hw.vertex_eq s3 (by decide), hin,
    query_hashJoin_vertex_s3]
  simp only [List.foldl_cons, List.foldl_nil, built_edge_1, kernel_words,
    primitive_node.take_input, hashP_with_inputs, hsize]

theorem probed_edge_2 : ((probed x ar ar2).dag.edge 2).data_pointer = 3 := by
  have hout : 2 ∉ (built x ar ar2).dag.out_edges s3 := by
    rw [(built_wired x ar ar2).shape.out_edges]
    exact (by decide : 2 ∉ [3])
  rw [probed_eq, operate_edge_of_not_mem _ _ _ hout]
  exact (built_edge_2 x ar ar2).1

theorem probed_edge_3 : ((probed x ar ar2).dag.edge 3).data_pointer = 4 := by
  have hout : 3 ∈ (built x ar ar2).dag.out_edges s3 := by
    rw [(built_wired x ar ar2).shape.out_edges]
    exact (by decide : 3 ∈ [3])
  rw [probed_eq, (operate_edge_of_mem (join_kernels x) s3 _ hout).1, built_alias]

/-! ### The stores -/

theorem query_hashJoin_device (c1 c2 : Int) (v : Nat) :
    ((query_hashJoin_graph c1 c2).vertex v).device = (0, 0) := by
  simp only [query_hashJoin_graph, query_graph.add_edge, query_graph.add_vertex,
    query_graph.empty, Function.update_apply]
  split
  · rfl
  · split
    · rfl
    · split <;> rfl

/-- The scan puts the columns under the aliases 1 and 2. -/
theorem scanned_stores : ∃ s, (scanned x ar ar2).stores = some s ∧
    look s 1 (0, 0) = some ar ∧ look s 2 (0, 0) = some ar2 ∧
    ∀ a dev, a ≠ 1 → a ≠ 2 → look s a dev = none := by
  have halias : ∀ j < 2, column_alias 0 j = (j + 1 : Nat) := by
    intro j hj
    rw [column_alias_small (by omega), Nat.zero_add]
  have hempty : ∀ a dev, look ⟨∅, ∅⟩ a dev = none := fun a dev => AList.lookup_empty (a, dev)
  generalize hm : (joining x ar ar2 []).modify_vertex start_vertex (fun n =>
    { n with no_of_input_required := (query_hashJoin_scan ar ar2).entries.length }) = m
  have hstores : m.stores = some ⟨∅, ∅⟩ := by rw [← hm]; rfl
  have hcounter : m.total_data_set_in_device = 0 := by rw [← hm]; rfl
  have hdevice : (m.dag.vertex start_vertex).device = (0, 0) := by rw [← hm]; rfl
  obtain ⟨s, hs, hat, hframe⟩ := load_columns_look start_vertex [(1, ar), (2, ar2)] m _ hstores
    (fun j _ dev => hempty _ dev) (by
      intro i hi j hj heq
      rw [hcounter, halias i hi, halias j hj] at heq
      omega)
  rw [hcounter] at hat hframe
  rw [hdevice] at hat
  refine ⟨s, ?_, ?_, ?_, ?_⟩
  · rw [scanned_eq, load_data, hm]
    exact hs
  · have hone := hat 0 (1, ar) rfl (0, 0)
    rwa [halias 0 (by omega), if_pos rfl] at hone
  · have htwo := hat 1 (2, ar2) rfl (0, 0)
    rwa [halias 1 (by omega), if_pos rfl] at htwo
  · intro a dev h1 h2
    rw [hframe a dev ?_, hempty]
    intro j hj
    rw [halias j hj]
    have hcases : j = 0 ∨ j = 1 := by
      have hlt : j < 2 := hj
      omega
    rcases hcases with rfl | rfl
    · exact h1
    · exact h2

/-- All edges of the plan are on one device. -/
theorem set_input_stores {pre : List Nat} {m : Machine} (v : Nat)
    (hw : Wired (join_kernels x) (query_hashJoin_graph ar.length ar2.length)
      (query_hashJoin_scan ar ar2) 0 ⟨∅, ∅⟩ query_hashJoin_queue pre m) :
    (set_input v m).stores = m.stores := by
  unfold set_input
  apply set_input_edges_local
  intro e _
  rw [hw.device_eq, hw.device_eq, query_hashJoin_device, query_hashJoin_device]

/-- The turn of `hashB`. -/
theorem built_stores : (build_table x ar = none → (built x ar ar2).stores = none) ∧
    ∀ table, build_table x ar = some table → ∃ s, (built x ar ar2).stores = some s ∧
      look s 2 (0, 0) = some ar2 ∧ look s 3 (0, 0) = some table ∧
      look s 4 (0, 0) = none := by
  have hw := scanned_wired x ar ar2
  obtain ⟨s, hs, hone, htwo, hother⟩ := scanned_stores x ar ar2
  have hin : (query_hashJoin_graph ar.length ar2.length).in_edges s2 = [0] := rfl
  have hvertex := hw.vertex_eq s2 (by decide)
  rw [query_hashJoin_vertex_s2] at hvertex
  have hdevice : ((scanned x ar ar2).dag.vertex s2).device = (0, 0) := by rw [hvertex]; rfl
  obtain ⟨hstuck, hruns⟩ := operate_runs (join_kernels x) s2 (scanned x ar ar2) [ar] (s := s)
    hw.shape.execution_environment (by rw [hvertex]; rfl) (by rw [hvertex]; rfl)
    (by rw [set_input_stores x ar ar2 s2 hw, hs])
    (by
      have hpointer : (data_edge.fresh 1).data_pointer = 1 := rfl
      rw [hw.shape.in_edges, hin, hdevice]
      simp [scanned_edge_0, hpointer, hone])
    (by rw [scanned_alias]; exact hother 3 _ (by decide) (by decide))
  rw [scanned_hashB, scanned_alias, hdevice, ← built_eq] at hruns
  rw [scanned_hashB, ← built_eq] at hstuck
  refine ⟨hstuck, ?_⟩
  intro table htable
  obtain ⟨s', hs', hlook⟩ := hruns table htable
  refine ⟨s', hs', ?_, ?_, ?_⟩
  · rw [hlook, if_neg (by decide), htwo]
  · rw [hlook, if_pos rfl]
  · rw [hlook, if_neg (by decide)]
    exact hother 4 _ (by decide) (by decide)

/-- The turn of `hashP`. -/
theorem probed_stores {table : List Word} (htable : build_table x ar = some table) :
    (probe_result x ar ar2 table = none → (probed x ar ar2).stores = none) ∧
      ∀ result, probe_result x ar ar2 table = some result →
        ∃ s, (probed x ar ar2).stores = some s ∧ look s 3 (0, 0) = some table ∧
          look s 4 (0, 0) = some result := by
  have hw := built_wired x ar ar2
  obtain ⟨s, hs, htwo, hthree, hfour⟩ := (built_stores x ar ar2).2 table htable
  have hin : (query_hashJoin_graph ar.length ar2.length).in_edges s3 = [1, 2] := rfl
  have hvertex := hw.vertex_eq s3 (by decide)
  rw [query_hashJoin_vertex_s3] at hvertex
  have hdevice : ((built x ar ar2).dag.vertex s3).device = (0, 0) := by rw [hvertex]; rfl
  obtain ⟨hstuck, hruns⟩ := operate_runs (join_kernels x) s3 (built x ar ar2) [ar2, table]
    (s := s) hw.shape.execution_environment (by rw [hvertex]; rfl)
    (by rw [hvertex]; rfl) (by rw [set_input_stores x ar ar2 s3 hw, hs])
    (by
      have hpointer : (data_edge.fresh 2).data_pointer = 2 := rfl
      rw [hw.shape.in_edges, hin, hdevice]
      simp [built_edge_1, (built_edge_2 x ar ar2).1, hpointer, htwo, hthree])
    (by rw [built_alias, hdevice]; exact hfour)
  rw [built_hashP, built_alias, hdevice, ← probed_eq] at hruns
  rw [built_hashP, ← probed_eq] at hstuck
  refine ⟨hstuck, ?_⟩
  intro result hresult
  obtain ⟨s', hs', hlook⟩ := hruns result hresult
  refine ⟨s', hs', ?_, ?_⟩
  · rw [hlook, if_neg (by decide), hthree]
  · rw [hlook, if_pos rfl]

/-- The display finds the output of `hashP`. -/
theorem displayed_stores {s : Stores} {result : List Word} (hs : (probed x ar ar2).stores = some s)
    (hresult : look s 4 (0, 0) = some result) :
    (joining x ar ar2 query_hashJoin_queue).stores = some s := by
  have hw := probed_wired x ar ar2
  have hin : (query_hashJoin_graph ar.length ar2.length).in_edges end_vertex = [3] := rfl
  rw [joining_end, display_result, hw.shape.in_edges, hin]
  apply (display_edges_look [3] _ s hs hw.shape.execution_environment).1
  intro e he
  rw [List.mem_singleton.mp he, probed_edge_3, hw.device_eq, query_hashJoin_device,
    ← AList.lookup_isSome]
  unfold look at hresult
  rw [hresult]
  rfl

/-- The query goes well exactly when both launches do, and then it leaves their outputs. -/
theorem join_run :
    (∀ table result, build_table x ar = some table → probe_result x ar ar2 table = some result →
      ∃ s, (joining x ar ar2 query_hashJoin_queue).stores = some s ∧
        look s ((joining x ar ar2 query_hashJoin_queue).dag.edge 2).data_pointer
          ((joining x ar ar2 query_hashJoin_queue).dag.vertex s2).device = some table ∧
        look s ((joining x ar ar2 query_hashJoin_queue).dag.edge 3).data_pointer
          ((joining x ar ar2 query_hashJoin_queue).dag.vertex s3).device = some result) ∧
    ((joining x ar ar2 query_hashJoin_queue).stores ≠ none →
      ∃ table result, build_table x ar = some table ∧
        probe_result x ar ar2 table = some result) := by
  have hdag : (joining x ar ar2 query_hashJoin_queue).dag = (probed x ar ar2).dag := by
    rw [joining_end, display_result_dag]
  constructor
  · intro table result htable hresult
    obtain ⟨s, hs, hthree, hfour⟩ := (probed_stores x ar ar2 htable).2 result hresult
    have hw := probed_wired x ar ar2
    refine ⟨s, displayed_stores x ar ar2 hs hfour, ?_, ?_⟩
    · rw [hdag, probed_edge_2, hw.device_eq, query_hashJoin_device, hthree]
    · rw [hdag, probed_edge_3, hw.device_eq, query_hashJoin_device, hfour]
  · intro hsome
    have hprobed : (probed x ar ar2).stores ≠ none := by
      intro hnone
      rw [joining_end] at hsome
      exact hsome (display_edges_stuck _ hnone)
    cases htable : build_table x ar with
    | none =>
      have hbuilt := (built_stores x ar ar2).1 htable
      rw [probed_eq] at hprobed
      exact absurd (operate_stuck hbuilt) hprobed
    | some table =>
      cases hresult : probe_result x ar ar2 table with
      | none => exact absurd ((probed_stores x ar ar2 htable).1 hresult) hprobed
      | some result => exact ⟨table, result, rfl, hresult⟩

end run

/-! ## The launches -/

/-- How many rows the launch of `hashB` reads. -/
def read_rows (S : Nat) : Nat := S / 96 * hashB_globalSize S

/-- How many positions the launch of `hashP` visits. -/
def looked_up (S P : Nat) : Nat := P / 64 * hashP_globalSize S P

section launches

variable {x : Execution} {ar ar2 table result : List Word}

/-- The launch of `hashB` stays in the build column for fewer than 3168 rows, and for no more. -/
theorem read_rows_le_iff (S : Nat) : read_rows S ≤ S + 1 ↔ S < 3168 := by
  unfold read_rows
  rw [hashB_globalSize_eq]
  have hitems : max 1 S / 32 = S / 32 := by omega
  have hslice : S / 96 = S / 32 / 3 := by rw [Nat.div_div_eq_div_mul]
  rw [hitems, hslice]
  constructor
  · intro h
    by_contra hlarge
    have hmore : 33 * (S / 32) ≤ S / 32 / 3 * (S / 32) := Nat.mul_le_mul_right _ (by omega)
    omega
  · intro h
    have hless : S / 32 / 3 * (S / 32) ≤ 32 * (S / 32) := Nat.mul_le_mul_right _ (by omega)
    omega

theorem read_rows_le {S : Nat} (h : S < 3168) : read_rows S ≤ S := by
  unfold read_rows
  rw [hashB_globalSize_eq]
  have hless : S / 96 * (max 1 S / 32) ≤ 32 * (max 1 S / 32) :=
    Nat.mul_le_mul_right _ (by omega)
  rcases Nat.eq_zero_or_pos S with rfl | hpos
  · omega
  · omega

theorem parameter_eq {params : List Int} {i n : Nat} (hn : n < 2 ^ 31)
    (h : params.getD i 0 = (n : Int)) : parameter params i = n := by
  unfold parameter
  rw [h, BitVec.ofInt_natCast, BitVec.toNat_ofNat]
  omega

/-- The launch of `hashB`, work item by work item. -/
theorem build_table_eq (hS : ar.length < 2 ^ 31) : build_table x ar =
    ((x.order "hashBuild" (hashB_globalSize ar.length)).foldlM
      (hashBuild (ar ++ [x.spare "hashBuild" 0]) ar.length)
      (List.replicate (hashB_output_size ar.length) 0 ++ [x.spare "hashBuild" 1])).map
        (·.take (hashB_output_size ar.length)) := by
  have hparams : (hashB_with_input ar.length).additional_parameters = [(ar.length : Int)] := rfl
  have hrun : build_table x ar = ((x.order "hashBuild" (hashB_globalSize ar.length)).foldlM
      (hashBuild (ar ++ [x.spare "hashBuild" 0])
        (parameter (hashB_with_input ar.length).additional_parameters 0))
      (List.replicate (hashB_output_size ar.length) 0 ++ [x.spare "hashBuild" 1])).map
        (·.take (List.replicate (hashB_output_size ar.length) (0 : Word)).length) := rfl
  rw [hrun, hparams, parameter_eq hS rfl, List.length_replicate]

/-- The launch of `hashP`, work item by work item. -/
theorem probe_result_eq (hS : ar.length < 2 ^ 31) (hP : ar2.length < 2 ^ 31) :
    probe_result x ar ar2 table =
      ((x.order "hashProbe" (hashP_globalSize ar.length ar2.length)).foldlM
        (hashProbe (ar2 ++ [x.spare "hashProbe" 0]) (table ++ [x.spare "hashProbe" 1]) ar.length
          ar2.length)
        (List.replicate (max (max 1 ar2.length) ar.length) 0 ++ [x.spare "hashProbe" 2])).map
          (·.take (max (max 1 ar2.length) ar.length)) := by
  have hparams : (hashP_with_inputs ar.length ar2.length).additional_parameters =
      [(ar.length : Int), (ar2.length : Int)] := rfl
  have hrun : probe_result x ar ar2 table =
      ((x.order "hashProbe" (hashP_globalSize ar.length ar2.length)).foldlM
        (hashProbe (ar2 ++ [x.spare "hashProbe" 0]) (table ++ [x.spare "hashProbe" 1])
          (parameter (hashP_with_inputs ar.length ar2.length).additional_parameters 0)
          (parameter (hashP_with_inputs ar.length ar2.length).additional_parameters 1))
        (List.replicate (hashP_with_inputs ar.length ar2.length).input_size 0 ++
          [x.spare "hashProbe" 2])).map
          (·.take (List.replicate (hashP_with_inputs ar.length ar2.length).input_size
            (0 : Word)).length) := rfl
  rw [hrun, hparams, parameter_eq hS rfl, parameter_eq hP rfl, List.length_replicate,
    hashP_input_size_eq]

/-- A slot of a buffer of zeros. -/
theorem zeros_getElem? {n i : Nat} (w : Word) (h : i < n) :
    (List.replicate n (0 : Word) ++ [w])[i]? = some 0 := by
  rw [List.getElem?_append_left (by simpa using h), List.getElem?_replicate, if_pos h]

theorem column_getElem? {i : Nat} (w : Word) (h : i < ar.length) : (ar ++ [w])[i]? = ar[i]? :=
  List.getElem?_append_left h

/-! ### `hashB` -/

/-- The launch is undefined for 3168 rows and more. -/
theorem table_small (hS : ar.length < 2 ^ 31) (h : build_table x ar = some table) :
    ar.length < 3168 := by
  rw [build_table_eq hS, Option.map_eq_some_iff] at h
  obtain ⟨T, hT, -⟩ := h
  rw [← read_rows_le_iff]
  by_contra hlarge
  -- The last row of the last work item is not in the buffer.
  have hitems : 0 < hashB_globalSize ar.length := by
    apply Nat.pos_of_ne_zero
    intro hzero
    rw [read_rows, hzero, Nat.mul_zero] at hlarge
    omega
  have hslice : 0 < ar.length / 96 := by
    apply Nat.pos_of_ne_zero
    intro hzero
    rw [read_rows, hzero, Nat.zero_mul] at hlarge
    omega
  have hmem : hashB_globalSize ar.length - 1 ∈
      x.order "hashBuild" (hashB_globalSize ar.length) := by
    rw [(x.perm _ _).mem_iff, List.mem_range]
    omega
  obtain ⟨s1, s2, hitem⟩ := loops.every_turn hT hmem
  have hread := hashBuild_reads hitem (i := ar.length / 96 - 1) (by omega)
  have hmul : ar.length / 96 * (hashB_globalSize ar.length - 1) + ar.length / 96 =
      read_rows ar.length := by
    rw [← Nat.mul_succ, Nat.succ_eq_add_one, Nat.sub_add_cancel hitems]
    rfl
  rw [inpOffset, List.length_append, List.length_singleton] at hread
  omega

/-- The first slot of the table. -/
theorem table_first (hpos : ∀ y ∈ ar, ¬ free y) (hS : ar.length < 2 ^ 31)
    (h : build_table x ar = some table) :
    table[0]? = some (first_row ar ar.length (ar.length / 96)) := by
  have hsmall := table_small hS h
  have hread := read_rows_le hsmall
  rw [build_table_eq hS, Option.map_eq_some_iff] at h
  obtain ⟨T, hT, rfl⟩ := h
  have hsize := hashB_output_size_eq ar.length
  have htake : (ar ++ [x.spare "hashBuild" 0]).take (ar.length / 96) =
      ar.take (ar.length / 96) := List.take_append_of_le_length (by omega)
  have hfirst := launch_first (N := hashB_globalSize ar.length)
    (by unfold read_rows at hread; omega) (x.perm _ _)
    (by rw [hashB_globalSize_eq]; omega)
    (by
      rw [htake]
      exact fun y hy => hpos y (List.mem_of_mem_take hy))
    (zeros_getElem? _ (by omega)) hT
  rw [List.getElem?_take_of_lt (by omega), hfirst, first_row, htake]
  rfl

/-- A slot of the table is free, or it has a row that the launch reads. -/
theorem table_drawn (hS : ar.length < 2 ^ 31) (h : build_table x ar = some table) {t : Nat}
    {y : Word} (hy : table[t]? = some y) : free y ∨ y ∈ ar.take (read_rows ar.length) := by
  have hsmall := table_small hS h
  have hread := read_rows_le hsmall
  rw [build_table_eq hS, Option.map_eq_some_iff] at h
  obtain ⟨T, hT, rfl⟩ := h
  rw [List.getElem?_take] at hy
  split at hy
  case isFalse => cases hy
  case isTrue ht =>
    have hdrawn := launch_drawn (N := hashB_globalSize ar.length)
      (by unfold read_rows at hread; omega)
      (fun gid hgid => List.mem_range.mp ((x.perm _ _).mem_iff.mp hgid)) hT t
    rcases hdrawn with hsame | ⟨k, hk, z, hz, hz'⟩
    · rw [hy, zeros_getElem? _ ht, Option.some.injEq] at hsame
      rw [hsame]
      exact .inl rfl
    · right
      have hk' : k < read_rows ar.length := hk
      rw [hy, Option.some.injEq] at hz'
      rw [column_getElem? _ (by omega)] at hz
      rw [hz']
      apply List.mem_of_getElem? (i := k)
      rw [List.getElem?_take_of_lt hk', hz]

/-- When the slices fit, the table has every row that the launch reads. -/
theorem table_kept (x : Execution) (hpos : ∀ y ∈ ar, ¬ free y) (hsmall : ar.length < 3168)
    (hfits : SlicesFit ar ar.length (hashB_globalSize ar.length)) :
    ∃ table, build_table x ar = some table ∧ ar.length ≤ table.length ∧
      ∀ y ∈ ar.take (read_rows ar.length), ∃ t < ar.length, table[t]? = some y := by
  have hread := read_rows_le hsmall
  have hsize := hashB_output_size_eq ar.length
  have hrows : ∀ gid < hashB_globalSize ar.length,
      item_rows (ar ++ [x.spare "hashBuild" 0]) ar.length gid = item_rows ar ar.length gid := by
    intro gid hgid
    apply slice_congr
    intro t ht
    have hlt : inpOffset ar.length gid + t < read_rows ar.length := slot_lt hgid ht
    exact column_getElem? _ (by omega)
  obtain ⟨T, hT, hlen, hkept⟩ := launch_keeps (ar ++ [x.spare "hashBuild" 0])
    (List.replicate (hashB_output_size ar.length) 0 ++ [x.spare "hashBuild" 1])
    (N := hashB_globalSize ar.length) hread (by omega) (by simp)
    (by
      intro k hk y hy
      rw [column_getElem? _ hk] at hy
      exact hpos y (List.mem_of_getElem? hy))
    (by
      intro gid hgid u hu
      rw [hrows gid hgid]
      exact hfits gid hgid u hu)
    (x.perm "hashBuild" _)
    (by rw [List.length_append, List.length_replicate, List.length_singleton]; omega)
    (fun t ht => zeros_getElem? _ (by omega))
  rw [List.length_append, List.length_replicate, List.length_singleton] at hlen
  refine ⟨T.take (hashB_output_size ar.length), ?_, ?_, ?_⟩
  · rw [build_table_eq (by omega), hT, Option.map_some]
  · rw [List.length_take]
    omega
  · intro y hy
    obtain ⟨k, hk⟩ := List.mem_iff_getElem?.mp hy
    rw [List.getElem?_take] at hk
    split at hk
    case isFalse => cases hk
    case isTrue hlt =>
      obtain ⟨t, ht, hget⟩ := hkept k hlt y (by rw [column_getElem? _ (by omega), hk])
      exact ⟨t, ht, by rw [List.getElem?_take_of_lt (by omega), hget]⟩

/-! ### `hashP` -/

/-- The launch reads the probe column up to the last position that it visits. -/
theorem result_reads (hS : ar.length < 2 ^ 31) (hP : ar2.length < 2 ^ 31) (hpos : 0 < ar.length)
    (h : probe_result x ar ar2 table = some result) :
    looked_up ar.length ar2.length ≤ ar2.length + 1 := by
  rw [probe_result_eq hS hP, Option.map_eq_some_iff] at h
  obtain ⟨T, hT, -⟩ := h
  by_contra hlarge
  have hvisit : ar2.length + 1 < ar2.length / 64 * hashP_globalSize ar.length ar2.length := by
    unfold looked_up at hlarge
    omega
  have hread := probe_launch_reads hpos (x.perm _ _) hT hvisit
  rw [List.length_append, List.length_singleton] at hread
  omega

theorem result_length_le (hS : ar.length < 2 ^ 31) (hP : ar2.length < 2 ^ 31)
    (h : probe_result x ar ar2 table = some result) :
    result.length ≤ max (max 1 ar2.length) ar.length := by
  rw [probe_result_eq hS hP, Option.map_eq_some_iff] at h
  obtain ⟨T, -, rfl⟩ := h
  exact List.length_take_le _ _

/-- The launch leaves the zeros at the positions that it does not visit. -/
theorem result_frame (hS : ar.length < 2 ^ 31) (hP : ar2.length < 2 ^ 31)
    (h : probe_result x ar ar2 table = some result) {i : Nat}
    (hi : ar.length = 0 ∨ looked_up ar.length ar2.length ≤ i)
    (hlt : i < max (max 1 ar2.length) ar.length) : result[i]? = some 0 := by
  rw [probe_result_eq hS hP, Option.map_eq_some_iff] at h
  obtain ⟨T, hT, rfl⟩ := h
  rw [List.getElem?_take_of_lt hlt, probe_launch_frame (x.perm _ _) hT hi, zeros_getElem? _ hlt]

/-- When it stays in the probe column, the launch looks up every position that it visits. -/
theorem result_found (x : Execution) (ar : List Word) (hS : ar.length < 2 ^ 31)
    (hP : ar2.length < 2 ^ 31)
    (hpos : 0 < ar.length) (htable : ar.length ≤ table.length)
    (hread : looked_up ar.length ar2.length ≤ ar2.length + 1) :
    ∃ result, probe_result x ar ar2 table = some result ∧
      ∀ i y, i < looked_up ar.length ar2.length → ar2[i]? = some y →
        result[i]? = some (position (table.take ar.length) y) := by
  have hbuffer : (table ++ [x.spare "hashProbe" 1]).take ar.length = table.take ar.length :=
    List.take_append_of_le_length htable
  obtain ⟨T, hT, hfound⟩ := probe_launch_finds (ar2 ++ [x.spare "hashProbe" 0])
    (table ++ [x.spare "hashProbe" 1])
    (List.replicate (max (max 1 ar2.length) ar.length) 0 ++ [x.spare "hashProbe" 2]) ar2.length
    hpos (by rw [List.length_append]; omega)
    (x.perm "hashProbe" (hashP_globalSize ar.length ar2.length))
    (by rw [List.length_append, List.length_singleton]; exact hread)
    (by
      rw [List.length_append, List.length_replicate, List.length_singleton]
      unfold looked_up at hread
      omega)
  refine ⟨_, by rw [probe_result_eq hS hP, hT, Option.map_some], ?_⟩
  intro i y hi hy
  have hlt := (List.getElem?_eq_some_iff.mp hy).1
  rw [List.getElem?_take_of_lt (by omega), ← hbuffer]
  exact hfound i y hi (by rw [column_getElem? _ hlt, hy])

end launches

/-! ## The law -/

/-- The rows of the array that the query makes of a vector. -/
def row_count (v : List Word) : Nat := (int_of_size v.length).toNat

/-- The launches stay in the columns, the probe rows that are looked up and occur in the build vector
occur among the rows that are read, and the other probe rows are the row of the first slot, where
their zeros point. -/
structure JoinReaches (a b : List Word) : Prop where
  build_rows : 0 < int_of_size a.length ∧ int_of_size a.length < 3168
  probe_rows : b.length < 2 ^ 31
  probe_read : looked_up (row_count a) b.length ≤ b.length + 1
  read : ∀ (i : Nat) (y : Word), i < looked_up (row_count a) b.length → b[i]? = some y → y ∈ a →
    y ∈ a.take (read_rows (row_count a))
  first : ∀ (i : Nat) (y : Word), looked_up (row_count a) b.length ≤ i → b[i]? = some y →
    y = first_row a (row_count a) (row_count a / 96)

/-- The rows of each slice of the build column fit its cells. -/
def BuildFits (a : List Word) : Prop :=
  SlicesFit a (row_count a) (hashB_globalSize (row_count a))

section law

variable {x : Execution} {a b ar ar2 v : List Word} {m : Machine}

theorem array_of_eq (h : array_of v = some ar) :
    0 ≤ int_of_size v.length ∧ ar = v.take (row_count v) ∧ ar.length = row_count v ∧
      row_count v < 2 ^ 31 := by
  unfold array_of at h
  split at h
  case isFalse => cases h
  case isTrue hle =>
    rw [Option.some.injEq] at h
    have hbound : row_count v ≤ v.length ∧ row_count v < 2 ^ 31 := by
      unfold row_count int_of_size
      rw [Int.bmod_def]
      split <;> omega
    refine ⟨hle, h.symm, ?_, hbound.2⟩
    rw [← h, List.length_take]
    exact Nat.min_eq_left hbound.1

theorem array_of_small (h : v.length < 2 ^ 31) : array_of v = some v ∧ row_count v = v.length := by
  unfold array_of row_count
  rw [int_of_size_eq h]
  simp

/-- The query makes the arrays and runs the plan on them. -/
theorem query_hashJoin_some_iff : query_hashJoin x a b = some m ↔
    ∃ ar ar2, array_of a = some ar ∧ array_of b = some ar2 ∧
      joining x ar ar2 query_hashJoin_queue = m := by
  unfold query_hashJoin joining after
  simp only [Option.bind_eq_bind, Option.bind_eq_some_iff, Option.pure_def, Option.some.injEq]
  constructor
  · rintro ⟨ar, har, ar2, har2, hm⟩
    exact ⟨ar, ar2, har, har2, hm⟩
  · rintro ⟨ar, ar2, har, har2, hm⟩
    exact ⟨ar, har, ar2, har2, hm⟩

/-- The query joins when the launches of each execution do. -/
theorem joinCorrect_iff : JoinCorrect a b ↔ ∀ x, ∃ ar ar2 table result,
    array_of a = some ar ∧ array_of b = some ar2 ∧ build_table x ar = some table ∧
      probe_result x ar ar2 table = some result ∧ Joined a b table result := by
  constructor
  · intro h x
    obtain ⟨m, s, build, result, hm, hs, hbuild, hresult, hjoined⟩ := h x
    obtain ⟨ar, ar2, har, har2, rfl⟩ := query_hashJoin_some_iff.mp hm
    obtain ⟨hruns, hran⟩ := join_run x ar ar2
    obtain ⟨table, words, htable, hwords⟩ := hran (by rw [hs]; simp)
    obtain ⟨s', hs', htwo, hthree⟩ := hruns table words htable hwords
    rw [hs, Option.some.injEq] at hs'
    rw [← hs', hbuild, Option.some.injEq] at htwo
    rw [← hs', hresult, Option.some.injEq] at hthree
    rw [← htwo] at htable hwords
    rw [← hthree] at hwords
    exact ⟨ar, ar2, build, result, har, har2, htable, hwords, hjoined⟩
  · intro h x
    obtain ⟨ar, ar2, table, result, har, har2, htable, hresult, hjoined⟩ := h x
    obtain ⟨s, hs, htwo, hthree⟩ := (join_run x ar ar2).1 table result htable hresult
    exact ⟨_, s, table, result, query_hashJoin_some_iff.mpr ⟨ar, ar2, har, har2, rfl⟩, hs, htwo,
      hthree, hjoined⟩

theorem not_free_of_pos {y : Word} (h : 0 < y.toInt) : ¬ free y := by
  intro hfree
  rw [BitVec.eq_of_toNat_eq (y := 0) hfree] at h
  exact absurd h (by decide)

/-- A row of the build column is one of the build vector. -/
theorem first_row_take {S n : Nat} (h : n ≤ S) : first_row (a.take S) S n = first_row a S n := by
  unfold first_row
  rw [List.take_take, Nat.min_eq_left h]

theorem first_row_mem {S n : Nat} (h : ¬ free (first_row a S n)) : first_row a S n ∈ a := by
  unfold first_row at h ⊢
  cases hfind : (a.take n).find? (fun x => home S x = 0) with
  | none =>
    rw [hfind] at h
    exact absurd rfl h
  | some y => exact List.mem_of_mem_take (List.mem_of_find?_eq_some hfind)

/-- A probe row that is not looked up keeps its zero, so it is the row of the first slot. -/
theorem not_looked_up {table result : List Word} (hpos : ∀ y ∈ ar, ¬ free y)
    (hS : ar.length < 2 ^ 31) (hP : ar2.length < 2 ^ 31) (htable : build_table x ar = some table)
    (hresult : probe_result x ar ar2 table = some result) (hjoined : Joined a b table result)
    {i : Nat} {y : Word} (hy : b[i]? = some y) (hlen : b.length ≤ ar2.length)
    (hi : ar.length = 0 ∨ looked_up ar.length ar2.length ≤ i) :
    y = first_row ar ar.length (ar.length / 96) := by
  have hlt := (List.getElem?_eq_some_iff.mp hy).1
  obtain ⟨p, hp, hmem, hnot⟩ := hjoined i y hy
  rw [result_frame hS hP hresult hi (by omega), Option.some.injEq] at hp
  by_cases hya : y ∈ a
  · have hslot := hmem hya
    rw [← hp] at hslot
    have hfirst := table_first hpos hS htable
    have hzero : (0 : Word).toNat = 0 := rfl
    rw [hzero, hfirst, Option.some.injEq] at hslot
    exact hslot.symm
  · have hbad := hnot hya
    rw [← hp] at hbad
    exact absurd hbad (by decide)

/-- What the join needs in every case. -/
theorem join_reaches (ha : ∀ y ∈ a, 0 < y.toInt) (hb : ∀ y ∈ b, 0 < y.toInt) (hne : b ≠ [])
    (h : JoinCorrect a b) : JoinReaches a b := by
  let x : Execution := ⟨fun _ n => List.range n, fun _ _ => .refl _, fun _ _ => 0⟩
  obtain ⟨ar, ar2, table, result, har, har2, htable, hresult, hjoined⟩ := joinCorrect_iff.mp h x
  obtain ⟨hle, har', hlen, hS⟩ := array_of_eq har
  obtain ⟨hle2, -, hlen2, hP⟩ := array_of_eq har2
  rw [← hlen] at hS
  rw [← hlen2] at hP
  have hposar : ∀ y ∈ ar, ¬ free y := by
    intro y hy
    rw [har'] at hy
    exact not_free_of_pos (ha y (List.mem_of_mem_take hy))
  have hsmall := table_small hS htable
  -- Every probe row has a result, so no row of the probe vector was cut off.
  have hrows : b.length < 2 ^ 31 := by
    have hlast : b[b.length - 1]? = some (b.getLast hne) := by
      rw [List.getLast_eq_getElem hne, List.getElem?_eq_getElem]
    obtain ⟨p, hp, -⟩ := hjoined _ _ hlast
    have hlt := (List.getElem?_eq_some_iff.mp hp).1
    have hmax := result_length_le hS hP hresult
    omega
  obtain ⟨hb2, hcount⟩ := array_of_small hrows
  rw [hb2, Option.some.injEq] at har2
  subst har2
  have hnonempty : 0 < ar.length := by
    apply Nat.pos_of_ne_zero
    intro hzero
    have hhead : b[0]? = some (b.head hne) := by
      rw [List.head_eq_getElem hne, List.getElem?_eq_getElem]
    have hfirst := not_looked_up hposar hS hP htable hresult hjoined hhead (Nat.le_refl _)
      (.inl hzero)
    have hnil : ar = [] := List.length_eq_zero_iff.mp hzero
    apply not_free_of_pos (hb _ (List.head_mem hne))
    rw [hfirst, hnil]
    rfl
  refine ⟨?_, hrows, ?_, ?_, ?_⟩
  · rw [row_count] at hlen
    omega
  · rw [← hlen]
    exact result_reads hS hP hnonempty hresult
  · intro i y hi hy hya
    obtain ⟨p, -, hmem, -⟩ := hjoined i y hy
    rcases table_drawn hS htable (hmem hya) with hfree | hread
    · exact absurd hfree (not_free_of_pos (ha y hya))
    · rw [har', List.length_take, List.take_take] at hread
      rw [hlen] at hsmall
      have hcut : min (row_count a) a.length = row_count a := by
        rw [← List.length_take, ← har', hlen]
      rw [hcut, Nat.min_eq_left (read_rows_le hsmall)] at hread
      exact hread
  · intro i y hi hy
    rw [← hlen] at hi
    rw [not_looked_up hposar hS hP htable hresult hjoined hy (Nat.le_refl _) (.inr hi), hlen, har',
      first_row_take (Nat.div_le_self _ _)]

/-- When the slices fit, what the launches reach is joined. -/
theorem join_correct (ha : ∀ y ∈ a, 0 < y.toInt) (hb : ∀ y ∈ b, 0 < y.toInt)
    (hfits : BuildFits a) (h : JoinReaches a b) : JoinCorrect a b := by
  obtain ⟨⟨hlo, hhi⟩, hrows, hprobe, hread, hfirst⟩ := h
  rw [joinCorrect_iff]
  intro x
  obtain ⟨hb2, -⟩ := array_of_small hrows
  have har : array_of a = some (a.take (row_count a)) := by
    unfold array_of
    rw [if_pos (Int.le_of_lt hlo)]
    rfl
  obtain ⟨-, -, hlen, -⟩ := array_of_eq har
  have hsmall : row_count a < 3168 := by
    unfold row_count
    omega
  have hnonempty : 0 < row_count a := by
    unfold row_count
    omega
  have hpos : ∀ y ∈ a.take (row_count a), ¬ free y :=
    fun y hy => not_free_of_pos (ha y (List.mem_of_mem_take hy))
  have hslices : SlicesFit (a.take (row_count a)) (row_count a)
      (hashB_globalSize (row_count a)) := by
    intro gid hgid u hu
    have hrow : item_rows (a.take (row_count a)) (row_count a) gid =
        item_rows a (row_count a) gid := by
      apply slice_congr
      intro t ht
      have hlt : inpOffset (row_count a) gid + t < read_rows (row_count a) := slot_lt hgid ht
      have hle := read_rows_le hsmall
      exact List.getElem?_take_of_lt (by omega)
    rw [hrow]
    exact hfits gid hgid u hu
  obtain ⟨table, htable, htablelen, hkept⟩ := table_kept x hpos (by rw [hlen]; exact hsmall)
    (by rw [hlen]; exact hslices)
  obtain ⟨result, hresult, hfound⟩ := result_found x (a.take (row_count a))
    (by omega) hrows (by omega) htablelen (by rw [hlen]; exact hprobe)
  rw [hlen] at hkept hfound htablelen
  rw [List.take_take, Nat.min_eq_left (read_rows_le hsmall)] at hkept
  refine ⟨_, b, table, result, har, hb2, htable, hresult, ?_⟩
  intro i y hy
  have hlt := (List.getElem?_eq_some_iff.mp hy).1
  rcases Nat.lt_or_ge i (looked_up (row_count a) b.length) with hi | hi
  · -- A position that is looked up.
    refine ⟨_, hfound i y hi hy, ?_, ?_⟩
    · intro hya
      obtain ⟨t, ht, hslot⟩ := hkept y (hread i y hi hy hya)
      have hmem : y ∈ table.take (row_count a) := by
        apply List.mem_of_getElem? (i := t)
        rw [List.getElem?_take_of_lt ht, hslot]
      have hidx := List.idxOf_lt_length_of_mem hmem
      rw [List.length_take] at hidx
      have hword : (position (table.take (row_count a)) y).toNat =
          (table.take (row_count a)).idxOf y := by
        rw [position, if_pos hmem, BitVec.toNat_ofNat]
        omega
      rw [hword, ← List.getElem?_take_of_lt (l := table) (j := row_count a) (by omega)]
      exact List.getElem?_idxOf hmem
    · intro hya
      unfold position
      apply if_neg
      intro hmem
      obtain ⟨t, ht⟩ := List.mem_iff_getElem?.mp (List.mem_of_mem_take hmem)
      rcases table_drawn (by omega) htable ht with hfree | hrow
      · exact not_free_of_pos (hb y (List.mem_of_getElem? hy)) hfree
      · exact hya (List.mem_of_mem_take (List.mem_of_mem_take hrow))
  · -- A position that keeps its zero.
    have hrow := hfirst i y hi hy
    have hya : y ∈ a := by
      rw [hrow]
      apply first_row_mem
      rw [← hrow]
      exact not_free_of_pos (hb y (List.mem_of_getElem? hy))
    refine ⟨0, ?_, fun _ => ?_, fun hnot => absurd hya hnot⟩
    · apply result_frame (by omega) hrows hresult ?_ (by omega)
      rw [hlen]
      exact .inr hi
    · have hslot := table_first hpos (by omega) htable
      rw [hlen, first_row_take (Nat.div_le_self _ _), ← hrow] at hslot
      exact hslot

/-- The hash join is correct only if the launches reach the rows and stay in the columns. When the
slices of the build column fit, that is enough. -/
theorem the_hash_join_is_correct_iff_its_launches_reach_the_rows (ha : ∀ y ∈ a, 0 < y.toInt)
    (hb : ∀ y ∈ b, 0 < y.toInt) (hne : b ≠ []) :
    (JoinCorrect a b → JoinReaches a b) ∧
      (BuildFits a → (JoinCorrect a b ↔ JoinReaches a b)) :=
  ⟨join_reaches ha hb hne,
    fun hfits => ⟨join_reaches ha hb hne, join_correct ha hb hfits⟩⟩

end law

/-! ## Two joins -/

/-- A build vector of 96 rows: three work items, of one row each. -/
def small_a : List Word := 5 :: List.replicate 95 7

/-- A probe vector of 64 rows: three positions are looked up. -/
def small_b : List Word := [7, 9, 5] ++ List.replicate 61 5

theorem small_vectors_are_reached : JoinReaches small_a small_b := by
  have hsize : looked_up (row_count small_a) small_b.length = 3 := by decide +kernel
  have hread : read_rows (row_count small_a) = 3 := by decide +kernel
  have hfirst : first_row small_a (row_count small_a) (row_count small_a / 96) = 5 := by
    decide +kernel
  refine ⟨by decide +kernel, by decide, by rw [hsize]; decide, ?_, ?_⟩
  · rw [hsize, hread]
    intro i y hi hy hya
    rcases (by omega : i = 0 ∨ i = 1 ∨ i = 2) with rfl | rfl | rfl
    all_goals
      obtain rfl := Option.some.inj hy
      revert hya
      decide
  · rw [hsize, hfirst]
    intro i y hi hy
    unfold small_b at hy
    rw [List.getElem?_append_right hi, List.getElem?_replicate] at hy
    split at hy
    · exact (Option.some.inj hy).symm
    · cases hy

theorem small_a_pos : ∀ y ∈ small_a, 0 < y.toInt := by
  intro y hy
  have hcases : y = 5 ∨ y = 7 := by simpa [small_a] using hy
  rcases hcases with rfl | rfl <;> decide

theorem small_b_pos : ∀ y ∈ small_b, 0 < y.toInt := by
  intro y hy
  have hcases : y = 7 ∨ y = 9 ∨ y = 5 := by simpa [small_b] using hy
  rcases hcases with rfl | rfl | rfl <;> decide

theorem small_a_fits : BuildFits small_a := by
  unfold BuildFits SlicesFit
  decide +kernel

theorem a_small_hash_join_is_correct : JoinCorrect small_a small_b :=
  ((the_hash_join_is_correct_iff_its_launches_reach_the_rows small_a_pos small_b_pos
    (by decide)).2 small_a_fits).mpr small_vectors_are_reached

/-- The build vector of `main`. -/
def main_a : List Word := (List.range 3072).map (fun i => BitVec.ofNat 32 (i + 1))

/-- The probe vector of `main`. -/
def main_b : List Word := (List.range 2048).map (fun i => BitVec.ofNat 32 (2 * (i + 1)))

theorem ofNat_pos {n : Nat} (h : 0 < n) (hn : n < 2 ^ 31) : 0 < (BitVec.ofNat 32 n).toInt := by
  rw [BitVec.toInt_ofNat', Int.bmod_def]
  split <;> omega

/-- The vectors of `main`: the work items of `hashP` read 3072 positions of 2048. -/
theorem the_vectors_of_main_are_not_joined :
    (∀ y ∈ main_a, 0 < y.toInt) ∧ (∀ y ∈ main_b, 0 < y.toInt) ∧
      ¬ JoinCorrect main_a main_b := by
  have ha : ∀ y ∈ main_a, 0 < y.toInt := by
    intro y hy
    obtain ⟨i, hi, rfl⟩ := List.mem_map.mp hy
    rw [List.mem_range] at hi
    exact ofNat_pos (by omega) (by omega)
  have hb : ∀ y ∈ main_b, 0 < y.toInt := by
    intro y hy
    obtain ⟨i, hi, rfl⟩ := List.mem_map.mp hy
    rw [List.mem_range] at hi
    exact ofNat_pos (by omega) (by omega)
  refine ⟨ha, hb, ?_⟩
  intro h
  have hlen : main_b.length = 2048 := by rw [main_b, List.length_map, List.length_range]
  have hne : main_b ≠ [] := by
    intro hnil
    rw [hnil] at hlen
    cases hlen
  have hread := (join_reaches ha hb hne h).probe_read
  have hcount : row_count main_a = 3072 := by
    rw [row_count, main_a, List.length_map, List.length_range]
    decide
  rw [hcount, hlen] at hread
  exact absurd hread (by decide)

end hero.tests
