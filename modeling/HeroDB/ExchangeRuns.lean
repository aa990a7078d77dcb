-- The runs of the exchange executor: where they start, what every step leaves as it is, and the
-- invariants of the graph, the queue and the handshakes in every reachable state.
import HeroDB.Handshake
import HeroDB.HashJoinPlan
import HeroDB.Wiring
import Mathlib.Data.List.Infix

namespace hero.morsel_driven

open runtime_layer query_graph transition

/-! ## The start -/

/-- A query that the exchange executor can run: a graph whose edges are not ready, a topological
order, and at most 20 operations. -/
structure Query.Runnable (q : Query) : Prop where
  query : IsQuery q.dag
  topological : IsTopological q.dag q.process_queue
  flags : ∀ e, (q.dag.edge e).ready_for_next_step = false
  fits : q.dag.num_vertices ≤ 22

/-- The operations of a query, in the order of the queue. -/
def Query.operations (q : Query) : List Nat :=
  q.process_queue.filter (fun v => v ≠ start_vertex ∧ v ≠ end_vertex)

section start

variable {q : Query}

theorem Query.Runnable.mem_operations (h : q.Runnable) {v : Nat} :
    v ∈ q.operations ↔ q.dag.IsOp v := by
  unfold Query.operations IsOp
  rw [List.mem_filter, h.topological.mem_iff]
  simp

theorem Query.Runnable.operations_nodup (h : q.Runnable) : q.operations.Nodup :=
  h.topological.nodup.filter _

/-- The two special vertices leave room for 20 operations. -/
theorem Query.Runnable.operations_length (h : q.Runnable) : q.operations.length ≤ 20 := by
  have htwo := h.query.two_le
  have hsub : (start_vertex :: end_vertex :: q.operations).Nodup := by
    have hop := fun v => h.mem_operations (v := v)
    rw [List.nodup_cons, List.nodup_cons]
    refine ⟨?_, ?_, h.operations_nodup⟩
    · simp [Query.operations, start_vertex, end_vertex]
    · simp [Query.operations]
  have hmem : ∀ v ∈ start_vertex :: end_vertex :: q.operations, v ∈ q.process_queue := by
    intro v hv
    rw [h.topological.mem_iff]
    simp only [List.mem_cons, h.mem_operations] at hv
    rcases hv with rfl | rfl | hop
    · rw [start_vertex]; omega
    · rw [end_vertex]; omega
    · exact hop.1
  have hle := hsub.length_le_of_subset hmem
  have hlen : q.process_queue.length = q.dag.num_vertices := by
    rw [h.topological.perm.length_eq, List.length_range]
  have hfits := h.fits
  simp only [List.length_cons] at hle
  omega

theorem Query.Runnable.le_INT_MAX (h : q.Runnable) : q.dag.num_vertices ≤ INT_MAX := by
  have hfits := h.fits
  rw [INT_MAX]
  omega

/-- The machine after the scan: its columns are loaded and its out-edges are ready. -/
def Query.loaded (q : Query) : Machine :=
  (load_data q.data_scan start_vertex (.before q.dag q.counter q.stores)).modify_edges
    (q.dag.out_edges start_vertex) set_ready_for_next_step

theorem loaded_shape (q : Query) : SameShape q.dag q.loaded.dag := by
  have hload := load_data_shape q.data_scan start_vertex (.before q.dag q.counter q.stores)
  exact hload.trans (Machine.modify_edges_shape _ _ _)

theorem loaded_name (q : Query) (v : Nat) :
    (q.loaded.dag.vertex v).mKernelName = (q.dag.vertex v).mKernelName := by
  rw [Query.loaded, Machine.modify_edges_vertex, load_data_name]
  rfl

theorem resolved_flag (counter : Nat) (cs : List (Int × List Word)) (d : data_edge) :
    (resolved counter cs d).ready_for_next_step = d.ready_for_next_step := by
  induction cs generalizing counter d with
  | nil => rfl
  | cons c rest ih =>
    rw [resolved, ih, resolve_edge]
    split <;> rfl

theorem loaded_flag (h : q.Runnable) (e : Nat) :
    (q.loaded.dag.edge e).ready_for_next_step = true ↔ e ∈ q.dag.out_edges start_vertex := by
  rw [Query.loaded, Machine.modify_edges_edge _ _ (q.dag.out_edges_nodup _)]
  by_cases he : e ∈ q.dag.out_edges start_vertex
  · simp [he, set_ready_for_next_step]
  · have hflag : ((Machine.before q.dag q.counter q.stores).dag.edge e).ready_for_next_step
        = false := h.flags e
    rw [if_neg he, load_data_edge]
    split
    · rw [resolved_flag, hflag]
      simp [he]
    · rw [hflag]
      simp [he]

/-- The loop of `form_lockfree_processing_queue`, up to any place of the topological order. -/
theorem form_prefix (h : q.Runnable) (pre post : List Nat) (hsplit : q.process_queue = pre ++ post) :
    form_lockfree_processing_queue q.data_scan pre (.before q.dag q.counter q.stores) =
      (if start_vertex ∈ pre then q.loaded else .before q.dag q.counter q.stores,
        pre.filter (fun v => v ≠ start_vertex ∧ v ≠ end_vertex)) := by
  induction pre using List.reverseRecOn generalizing post with
  | nil => simp [form_lockfree_processing_queue]
  | append_singleton pre v ih =>
    have hsplit' : q.process_queue = pre ++ v :: post := by simpa using hsplit
    have hlt : v < q.dag.num_vertices := (h.topological.mem_iff v).mp (by simp [hsplit'])
    have hfresh := h.topological.not_mem_prefix hsplit'
    have hname : ((if start_vertex ∈ pre then q.loaded
        else Machine.before q.dag q.counter q.stores).dag.vertex v).mKernelName =
        (q.dag.vertex v).mKernelName := by
      split
      · exact loaded_name q v
      · rfl
    rw [form_lockfree_processing_queue, List.foldl_append, List.foldl_cons, List.foldl_nil,
      ← form_lockfree_processing_queue, ih _ hsplit', form_turn, hname]
    by_cases hs : v = start_vertex
    · subst hs
      rw [if_pos h.query.scan_name, if_neg hfresh]
      have hload := (load_data_shape q.data_scan start_vertex
        (.before q.dag q.counter q.stores)).out_edges start_vertex
      simp only [hload, List.filter_append, List.mem_append, List.mem_singleton, or_true, if_true]
      simp [Query.loaded, Machine.before]
    · by_cases he : v = end_vertex
      · subst he
        rw [if_neg (by rw [h.query.display_name]; decide), if_pos h.query.display_name]
        simp [List.filter_append, Ne.symm hs]
      · have hop : q.dag.IsOp v := ⟨hlt, hs, he⟩
        rw [if_neg (h.query.op_name v hop).1, if_neg (h.query.op_name v hop).2]
        have hroom : (pre.filter (fun v => v ≠ start_vertex ∧ v ≠ end_vertex)).length < 20 := by
          have hlen := h.operations_length
          rw [Query.operations, hsplit', List.filter_append, List.length_append,
            List.filter_cons_of_pos (by simp [hs, he]), List.length_cons] at hlen
          omega
        simp only [push, hroom, if_true, List.filter_append, List.mem_append, List.mem_singleton,
          Ne.symm hs, or_false]
        simp [hs, he]

/-- The shared data at the start: the scan is loaded, and the queue holds the operations. -/
theorem start_eq (h : q.Runnable) :
    q.start = { machine := q.loaded, ex_processing_queue := q.operations, started := []
                completed := [] } := by
  have hform := form_prefix h q.process_queue [] (by simp)
  rw [if_pos (h.topological.start_mem h.query)] at hform
  unfold Query.start
  rw [hform]
  rfl

end start

/-! ## The moves -/

/-- What one step can do to the shared data and to one device. -/
inductive Move (K : Kernels) (dev : Device) (i : Nat) (s : Shared) (l : Lane) :
    Shared → Lane → Prop
  | device {s' : Shared} {l' : Lane} (h : DeviceMove dev s l s' l') : Move K dev i s l s' l'
  | worker {s' : Shared} {l' : Lane} (h : WorkerMove K i s l s' l') : Move K dev i s l s' l'
  | spurious {t : Thread} {l' : Lane} (h : spurious_step t l = some l') : Move K dev i s l s l'

section step

variable {n : Nat} {K : Kernels} {drive : Fin n → Device} {s t : State n} {i : Fin n}

theorem step_device (h : step K drive s (.run i .device) = some t) :
    ∃ s' l', t = s.put i (s', l') ∧ DeviceMove (drive i) s.shared (s.lane i) s' l' := by
  simp only [step, Option.map_eq_some_iff] at h
  obtain ⟨⟨s', l'⟩, hstep, rfl⟩ := h
  exact ⟨s', l', rfl, device_move hstep⟩

theorem step_worker (h : step K drive s (.run i .worker) = some t) :
    ∃ s' l', t = s.put i (s', l') ∧ WorkerMove K i s.shared (s.lane i) s' l' := by
  simp only [step, Option.map_eq_some_iff] at h
  obtain ⟨⟨s', l'⟩, hstep, rfl⟩ := h
  exact ⟨s', l', rfl, worker_move hstep⟩

/-- A step of the system is a move of one device. -/
theorem step_move {a : Action n} (h : step K drive s a = some t) :
    ∃ i s' l', t = s.put i (s', l') ∧ Move K (drive i) i s.shared (s.lane i) s' l' := by
  cases a with
  | run i thread =>
    cases thread with
    | device =>
      obtain ⟨s', l', rfl, hmove⟩ := step_device h
      exact ⟨i, s', l', rfl, .device hmove⟩
    | worker =>
      obtain ⟨s', l', rfl, hmove⟩ := step_worker h
      exact ⟨i, s', l', rfl, .worker hmove⟩
  | spurious i thread =>
    simp only [step, Option.map_eq_some_iff] at h
    obtain ⟨l', hstep, rfl⟩ := h
    exact ⟨i, s.shared, l', rfl, .spurious hstep⟩

end step

section put

variable {n : Nat} (s : State n) (i : Fin n) (r : Shared × Lane)

@[simp] theorem put_shared : (s.put i r).shared = r.1 := rfl

@[simp] theorem put_lane_self : (s.put i r).lane i = r.2 := by simp [State.put]

theorem put_lane_ne {j : Fin n} (h : j ≠ i) : (s.put i r).lane j = s.lane j := by
  simp [State.put, h]

/-- A property of every lane, after a move of one. -/
theorem put_forall {P : Fin n → Lane → Prop} (hi : P i r.2) (hj : ∀ j, j ≠ i → P j (s.lane j))
    (j : Fin n) : P j ((s.put i r).lane j) := by
  by_cases h : j = i
  · subst h
    rw [put_lane_self]
    exact hi
  · rw [put_lane_ne s i r h]
    exact hj j h

end put

section frame

variable {K : Kernels} {dev : Device} {i : Nat} {s s' : Shared} {l l' : Lane}

theorem device_move_shape (h : DeviceMove dev s l s' l') :
    SameShape s.machine.dag s'.machine.dag := by
  cases h with
  | set_input _ => exact set_input_shape _ _
  | prepare_output _ => exact prepare_output_buffer_shape _ _
  | _ => exact ⟨rfl, rfl, rfl⟩

theorem device_move_flag (h : DeviceMove dev s l s' l') (e : Nat) :
    (s'.machine.dag.edge e).ready_for_next_step = (s.machine.dag.edge e).ready_for_next_step := by
  cases h with
  | set_input _ => simp
  | prepare_output _ =>
    rw [prepare_output_buffer_edge]
    split <;> rfl
  | _ => rfl

theorem device_move_logs (h : DeviceMove dev s l s' l') :
    s'.started = s.started ∧ s'.completed = s.completed := by
  cases h <;> exact ⟨rfl, rfl⟩

theorem worker_move_shape (h : WorkerMove K i s l s' l') :
    SameShape s.machine.dag s'.machine.dag := by
  cases h <;> exact ⟨rfl, rfl, rfl⟩

theorem worker_move_queue (h : WorkerMove K i s l s' l') :
    s'.ex_processing_queue = s.ex_processing_queue := by
  cases h <;> rfl

theorem move_shape (h : Move K dev i s l s' l') : SameShape s.machine.dag s'.machine.dag := by
  cases h with
  | device h => exact device_move_shape h
  | worker h => exact worker_move_shape h
  | spurious _ => exact .refl _

/-- Vertices only leave the queue, at its front. -/
theorem move_queue (h : Move K dev i s l s' l') :
    s'.ex_processing_queue <:+ s.ex_processing_queue := by
  cases h with
  | device h =>
    cases h with
    | pop v rest _ hq =>
      rw [hq]
      exact List.suffix_cons v rest
    | _ => exact List.suffix_rfl
  | worker h => rw [worker_move_queue h]
  | spurious _ => exact List.suffix_rfl

end frame

/-! ## The base invariant -/

/-- What holds in every reachable state: the graph has its shape, the queue holds operations, and
each device is in order. -/
structure Base (q : Query) {n : Nat} (s : State n) : Prop where
  shape : SameShape q.dag s.shared.machine.dag
  queue : s.shared.ex_processing_queue <:+ q.operations
  lanes : ∀ i, LaneOk q.dag.num_vertices (s.lane i)

section base

variable {K : Kernels} {q : Query} {n : Nat} {drive : Fin n → Device} {s t : State n}

theorem base_init (h : q.Runnable) (hs : (exchange K q drive).init s) : Base q s := by
  obtain ⟨hshared, hlanes⟩ := hs
  rw [start_eq h] at hshared
  refine ⟨by rw [hshared]; exact loaded_shape q, by rw [hshared], ?_⟩
  intro i
  obtain ⟨v, hv, hlane⟩ := hlanes i
  rw [hlane]
  exact laneOk_start hv

theorem Base.queue_lt (h : q.Runnable) (hb : Base q s) :
    ∀ v ∈ s.shared.ex_processing_queue, v < q.dag.num_vertices :=
  fun _ hv => (h.mem_operations.mp (hb.queue.subset hv)).1

theorem base_step {a : Action n} (h : q.Runnable) (hb : Base q s)
    (hstep : step K drive s a = some t) : Base q t := by
  obtain ⟨i, s', l', rfl, hmove⟩ := step_move hstep
  refine ⟨hb.shape.trans (move_shape hmove), (move_queue hmove).trans hb.queue, ?_⟩
  refine put_forall s i (s', l') ?_ (fun j _ => hb.lanes j)
  cases hmove with
  | device hm => exact laneOk_device (hb.queue_lt h) hm (hb.lanes i)
  | worker hm => exact laneOk_worker h.le_INT_MAX hm (hb.lanes i)
  | spurious hm => exact laneOk_spurious hm (hb.lanes i)

end base

/-! ## The plan of the hash join -/

/-- The plan of the hash join, for the exchange executor. -/
def query_hashJoin : Query :=
  { dag := tests.query_hashJoin_graph 2 1, data_scan := tests.query_hashJoin_scan [5, 7] [7]
    process_queue := tests.query_hashJoin_queue, counter := 0, stores := ⟨∅, ∅⟩ }

theorem query_hashJoin_is_runnable : query_hashJoin.Runnable where
  query := tests.query_hashJoin_is_a_query 2 1
  topological := tests.query_hashJoin_queue_is_topological 2 1
  flags := by
    intro e
    simp only [query_hashJoin, tests.query_hashJoin_graph, query_graph.add_edge,
      query_graph.add_vertex, query_graph.empty, Function.update_apply]
    split <;> (try split) <;> (try split) <;> (try split) <;> rfl
  fits := by
    rw [query_hashJoin, tests.query_hashJoin_num_vertices]
    omega

/-- The state before any thread runs, with the same vertex in each entry of `process_vertex`. -/
def Query.initial (q : Query) (n v : Nat) : State n :=
  { shared := q.start, lane := fun _ => Lane.start v }

theorem initial_init {K : Kernels} {q : Query} {n v : Nat} {drive : Fin n → Device}
    (hv : v < q.dag.num_vertices) : (exchange K q drive).init (q.initial n v) :=
  ⟨rfl, fun _ => ⟨v, hv, rfl⟩⟩

end hero.morsel_driven
