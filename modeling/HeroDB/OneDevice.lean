-- The law of the single device: whatever the schedule, the exchange executor on one device issues
-- the launches of the sequential executor, in the same order.
import HeroDB.ExchangeTurns
import HeroDB.Progress

namespace hero.morsel_driven

open runtime_layer query_graph transition

/-! ## The run on one device -/

/-- The machine while the device thread has the vertex, from the machine at the pop. -/
def at_device (dev : Device) (v : Nat) (m : Machine) : DevicePc → Machine
  | .set_device => m
  | .spin _ _ | .size_input => moved dev v m
  | .set_input => sized dev v m
  | .prepare_output => runtime_layer.set_input v (sized dev v m)
  | _ => prepared dev v m

/-- The machine while the worker has the vertex. -/
def AtWorker (K : Kernels) (dev : Device) (v : Nat) (m : Machine) (machine : Machine) :
    WorkerPc → Prop
  | .execute => machine = compile_task v (prepared dev v m)
  | .complete => machine = executed K dev v m
  | .flag rest => ∃ flagged, (prepared dev v m).dag.out_edges v = flagged ++ rest ∧
      machine = (executed K dev v m).modify_edges flagged set_flag
  | _ => machine = prepared dev v m

/-- Where a run on one device is: between two vertices, or with a vertex in the hands of the device
thread or of the worker. -/
inductive OneRun (K : Kernels) (dev : Device) (q : Query) (s : Shared) (l : Lane) : Prop
  | idle (done rest : List Nat) (hops : q.operations = done ++ rest) (hl : l.busy = false)
      (hq : s.ex_processing_queue = rest) (hm : s.machine = turns K dev q done)
  | prepares (done rest : List Nat) (hops : q.operations = done ++ l.process_vertex :: rest)
      (hl : l.device.carries = true) (hq : s.ex_processing_queue = rest)
      (hm : s.machine = at_device dev l.process_vertex (turns K dev q done) l.device)
  | works (done rest : List Nat) (hops : q.operations = done ++ l.process_vertex :: rest)
      (hl : l.device.gave = true) (hw : l.ready = true ∨ l.worker.busy = true)
      (hq : s.ex_processing_queue = rest)
      (hm : AtWorker K dev l.process_vertex (turns K dev q done) s.machine l.worker)

section run

variable {K : Kernels} {dev : Device} {q : Query} {i N : Nat} {s s' : Shared} {l l' : Lane}

theorem stage_of_carries {d : DevicePc} (h : d.carries = true) : d.stage = .prepares := by
  cases d with
  | lock_ready _ | set_ready _ | set_device | spin _ _ | size_input | set_input | prepare_output =>
    rfl
  | _ => cases h

theorem stage_of_gave {d : DevicePc} (h : d.gave = true) : d.stage = .waits ∧ d.last = false := by
  cases d with
  | notify last | lock_wait last | test_processed last | asleep last _ =>
    refine ⟨rfl, ?_⟩
    simpa [DevicePc.gave, DevicePc.last] using h
  | _ => cases h

/-- While the worker runs a vertex, the device is busy. -/
theorem busy_of_runs (hok : LaneOk N l) (hw : l.worker.runs = true) : l.busy = true := by
  obtain ⟨hstage, hlast, -⟩ := hok.of_runs hw
  have hgave : l.device.gave = true := by
    cases hd : l.device with
    | notify last | lock_wait last | test_processed last | asleep last _ =>
      rw [hd] at hlast
      simpa [DevicePc.gave, DevicePc.last] using hlast
    | _ => simp [hd, DevicePc.stage] at hstage
  have hbusy : l.worker.busy = true := by
    cases hwpc : l.worker with
    | compile | execute | complete | flag _ => rfl
    | _ => simp [hwpc, WorkerPc.runs] at hw
  simp [Lane.busy, hgave, hbusy]

/-- A step between two vertices. -/
theorem one_run_idle (hN : N ≤ INT_MAX) (hok : LaneOk N l) (hmove : Move K dev i s l s' l')
    (hpop : l.device = .pop → s.ex_processing_queue ≠ []) {done rest : List Nat}
    (hops : q.operations = done ++ rest) (hl : l.busy = false) (hq : s.ex_processing_queue = rest)
    (hm : s.machine = turns K dev q done) : OneRun K dev q s' l' := by
  cases hmove with
  | device hmv =>
    by_cases hd : l.device = .pop
    · cases hmv with
      | pop v rest' _ hq' =>
        refine .prepares done rest' ?_ rfl rfl hm
        rw [hops, ← hq, hq']
      | pop_fails _ hq' => exact absurd hq' (hpop hd)
      | _ => simp [*] at hd
    · have hbusy := busy_device_eq hok hmv hd
      cases hmv with
      | pop _ _ hd' _ => exact absurd hd' hd
      | set_device hd' | size_input hd' | set_input hd' | prepare_output hd' =>
        simp [Lane.busy, hd', DevicePc.carries] at hl
      | _ => exact .idle done rest hops (hbusy.trans hl) hq hm
  | worker hmv =>
    have hruns : l.worker.runs = false := by
      cases hw : l.worker.runs with
      | false => rfl
      | true => simp [busy_of_runs hok hw] at hl
    have hbusy := (busy_worker hN hok hmv (by rintro hw; simp [hw, WorkerPc.runs] at hruns)).1
    cases hmv with
    | compile hw | execute hw | complete hw | flag _ _ hw => simp [hw, WorkerPc.runs] at hruns
    | _ => exact .idle done rest hops (hbusy.trans hl) hq hm
  | spurious hmv => exact .idle done rest hops ((busy_spurious hmv).1.trans hl) hq hm

/-- A step while the device thread has the vertex. -/
theorem one_run_prepares (hok : LaneOk N l) (hmove : Move K dev i s l s' l')
    {done rest : List Nat} (hops : q.operations = done ++ l.process_vertex :: rest)
    (hl : l.device.carries = true) (hq : s.ex_processing_queue = rest)
    (hm : s.machine = at_device dev l.process_vertex (turns K dev q done) l.device) :
    OneRun K dev q s' l' := by
  obtain ⟨hwaits, hr, -⟩ := hok.phase.of_prepares (stage_of_carries hl)
  cases hmove with
  | device hmv =>
    cases hmv with
    | set_device hd =>
      rw [hd] at hm
      exact .prepares done rest hops rfl hq (congrArg (moved dev _) hm)
    | read _ _ _ hd | read_again hd | all_read hd =>
      rw [hd] at hm
      exact .prepares done rest hops rfl hq hm
    | size_input hd =>
      rw [hd] at hm
      refine .prepares done rest hops rfl hq ?_
      simp only [hm, at_device]
      rfl
    | set_input hd =>
      rw [hd] at hm
      exact .prepares done rest hops rfl hq (congrArg (runtime_layer.set_input _) hm)
    | prepare_output hd =>
      rw [hd] at hm
      exact .prepares done rest hops rfl hq (congrArg (prepare_output_buffer _) hm)
    | lock_ready last hd _ =>
      rw [hd] at hm hl
      exact .prepares done rest hops hl hq hm
    | set_ready last hd =>
      rw [hd] at hm hl
      refine .works done rest hops hl (.inl rfl) hq ?_
      cases hw : l.worker with
      | lock | test_ready | asleep _ | notify _ => exact hm
      | _ => simp [hw, WorkerPc.waits] at hwaits
    | _ => simp [DevicePc.carries, *] at hl
  | worker hmv =>
    cases hmv with
    | lock | sleep | wake => exact .prepares done rest hops hl hq hm
    | see_ready _ hr' => simp [hr] at hr'
    | notify hw =>
      unfold Lane.notify_device
      split
      case h_1 last notified hd => simp [hd, DevicePc.carries] at hl
      case h_2 => exact .prepares done rest hops hl hq hm
    | _ => simp [WorkerPc.waits, *] at hwaits
  | spurious hmv =>
    obtain ⟨-, hcase⟩ := spurious_move hmv
    rcases hcase with ⟨last, notified, hd, rfl⟩ | ⟨notified, hw, rfl⟩
    · simp [hd, DevicePc.carries] at hl
    · exact .prepares done rest hops hl hq hm

/-- The worker sets one more flag. -/
theorem modify_edges_concat (m : Machine) (es : List Nat) (e : Nat) (f : data_edge → data_edge) :
    m.modify_edges (es ++ [e]) f = (m.modify_edges es f).modify_edge e f := by
  simp [Machine.modify_edges]

/-- A step while the worker has the vertex. -/
theorem one_run_works (hok : LaneOk N l) (hmove : Move K dev i s l s' l')
    {done rest : List Nat} (hops : q.operations = done ++ l.process_vertex :: rest)
    (hl : l.device.gave = true) (hw : l.ready = true ∨ l.worker.busy = true)
    (hq : s.ex_processing_queue = rest)
    (hm : AtWorker K dev l.process_vertex (turns K dev q done) s.machine l.worker)
    (hN : l.process_vertex ≠ INT_MAX) : OneRun K dev q s' l' := by
  cases hmove with
  | device hmv =>
    cases hmv with
    | notify last hd =>
      rw [hd] at hl
      unfold Lane.notify_worker
      split
      case isTrue ha =>
        rw [ha] at hm hw
        exact .works done rest hops hl (hw.imp_right (fun h => by cases h)) hq hm
      case isFalse => exact .works done rest hops hl hw hq hm
    | lock_wait last hd _ | sleep last hd _ | wake last hd _ =>
      rw [hd] at hl
      exact .works done rest hops hl hw hq hm
    | see_processed last hd hp =>
      obtain ⟨hr, hdone⟩ := hok.of_processed hp
      simp [hr, WorkerPc.not_busy_of_done hdone] at hw
    | _ => simp [DevicePc.gave, *] at hl
  | worker hmv =>
    cases hmv with
    | lock hpc _ | see_ready hpc _ | wake hpc _ =>
      rw [hpc] at hm hw
      exact .works done rest hops hl (hw.imp_right (fun h => by cases h)) hq hm
    | sleep hpc hr => simp [hpc, hr, WorkerPc.busy] at hw
    | clear_ready hpc | see_vertex hpc _ =>
      rw [hpc] at hm
      exact .works done rest hops hl (.inr rfl) hq hm
    | see_stop _ hv => exact absurd hv hN
    | compile hpc =>
      rw [hpc] at hm
      refine .works done rest hops hl (.inr rfl) hq ?_
      simp only [AtWorker] at hm ⊢
      rw [hm]
    | execute hpc =>
      rw [hpc] at hm
      refine .works done rest hops hl (.inr rfl) hq ?_
      simp only [AtWorker] at hm ⊢
      rw [hm]
      rfl
    | complete hpc =>
      rw [hpc] at hm
      refine .works done rest hops hl (.inr rfl) hq ?_
      simp only [AtWorker] at hm ⊢
      exact ⟨[], by rw [hm, executed_dag, List.nil_append], hm⟩
    | flag e rest' hpc =>
      rw [hpc] at hm
      refine .works done rest hops hl (.inr rfl) hq ?_
      simp only [AtWorker] at hm ⊢
      obtain ⟨flagged, hout, hm⟩ := hm
      refine ⟨flagged ++ [e], by simpa using hout, ?_⟩
      rw [hm, modify_edges_concat]
      rfl
    | all_flagged hpc =>
      rw [hpc] at hm
      obtain ⟨flagged, hout, hm⟩ := hm
      refine .idle (done ++ [l.process_vertex]) rest (by simpa using hops) ?_ hq ?_
      · have hr := (hok.of_runs (by rw [hpc]; rfl)).2.2.1
        have hstage := (stage_of_gave hl).1
        have hcarries : l.device.carries = false := by
          cases hc : l.device.carries with
          | false => rfl
          | true => simp [stage_of_carries hc] at hstage
        simp [Lane.busy, hcarries, hr, WorkerPc.busy]
      · rw [turns_concat, exchange_vertex, hout, List.append_nil]
        exact hm
    | set_processed _ hpc | unlock _ hpc =>
      obtain ⟨hr, -⟩ : l.ready = false ∧ True := by
        cases hok.phase with
        | given _ hw' => simp [hpc, WorkerPc.waits] at hw'
        | _ _ _ hr => exact ⟨hr, trivial⟩
      simp [hpc, hr, WorkerPc.busy] at hw
    | notify hpc | notify_last hpc =>
      rw [hpc] at hm hw
      unfold Lane.notify_device
      split
      case h_1 last notified hd =>
        rw [hd] at hl
        exact .works done rest hops hl (hw.imp_right (fun h => by cases h)) hq hm
      case h_2 => exact .works done rest hops hl (hw.imp_right (fun h => by cases h)) hq hm
  | spurious hmv =>
    obtain ⟨-, hcase⟩ := spurious_move hmv
    rcases hcase with ⟨last, notified, hd, rfl⟩ | ⟨notified, hpc, rfl⟩
    · rw [hd] at hl
      exact .works done rest hops hl hw hq hm
    · rw [hpc] at hm hw
      exact .works done rest hops hl (hw.imp_right (fun h => by cases h)) hq hm

theorem one_run_step (hN : N ≤ INT_MAX) (hok : LaneOk N l) (hmove : Move K dev i s l s' l')
    (hpop : l.device = .pop → s.ex_processing_queue ≠ []) (h : OneRun K dev q s l) :
    OneRun K dev q s' l' := by
  cases h with
  | idle done rest hops hl hq hm => exact one_run_idle hN hok hmove hpop hops hl hq hm
  | prepares done rest hops hl hq hm => exact one_run_prepares hok hmove hops hl hq hm
  | works done rest hops hl hw hq hm =>
    have hlast := (stage_of_gave hl).2
    refine one_run_works hok hmove hops hl hw hq hm ?_
    intro hv
    simp [(hok.last_iff hN).mpr hv] at hlast

end run

/-! ## The law -/

/-- What holds in every reachable state of one device. -/
structure Alone (K : Kernels) (dev : Device) (q : Query) (s : State 1) : Prop where
  base : Base q s
  ready : ReadyToPop s
  drained : (s.lane 0).device.quits = true → s.shared.ex_processing_queue = []
  run : OneRun K dev q s.shared (s.lane 0)

section law

variable {K : Kernels} {q : Query} {drive : Fin 1 → Device} {s t : State 1}

theorem alone_init (h : q.Runnable) (hs : (exchange K q drive).init s) :
    Alone K (drive 0) q s := by
  have hbase := base_init h hs
  have hready := ready_to_pop_init hs
  obtain ⟨hshared, hlanes⟩ := hs
  obtain ⟨v, -, hlane⟩ := hlanes 0
  rw [start_eq h] at hshared
  refine ⟨hbase, hready, ?_, ?_⟩
  · intro hquits
    rw [hlane] at hquits
    cases hquits
  · refine .idle [] q.operations rfl ?_ (by rw [hshared]) (by rw [hshared, turns_nil])
    rw [hlane]
    rfl

theorem alone_step {a : Action 1} (h : q.Runnable) (hs : Alone K (drive 0) q s)
    (hstep : step K drive s a = some t) : Alone K (drive 0) q t := by
  have hbase := base_step h hs.base hstep
  have hready := ready_to_pop_step hs.ready hstep
  obtain ⟨i, s', l', rfl, hmove⟩ := step_move hstep
  obtain rfl : i = 0 := Subsingleton.elim i 0
  refine ⟨hbase, hready, ?_, ?_⟩
  · rw [put_lane_self]
    exact drained_move hmove hs.drained
  · rw [put_lane_self]
    exact one_run_step h.le_INT_MAX (hs.base.lanes 0) hmove (hs.ready 0) hs.run

theorem alone_reachable (h : q.Runnable) (hr : (exchange K q drive).Reachable t) :
    Alone K (drive 0) q t :=
  hr.invariant (fun _ => alone_init h) (fun _ _ _ hs hstep => alone_step h hs hstep)

/-- Between two steps, the launches are those of the turns so far, or one more. -/
theorem launches_of_one_run {dev : Device} {s : Shared} {l : Lane} (h : OneRun K dev q s l) :
    launches s.machine.trace <+: launches (turns K dev q q.operations).trace := by
  cases h with
  | idle done rest hops _ _ hm =>
    rw [hm, hops]
    exact turns_launches_upto K dev q done rest
  | prepares done rest hops _ _ hm =>
    have hsame : launches s.machine.trace = launches (turns K dev q done).trace := by
      rw [hm]
      unfold at_device
      split
      · rfl
      · rfl
      · rfl
      · rfl
      · rw [set_input_trace]
        rfl
      · exact prepared_launches _ _ _
    rw [hsame, hops]
    exact turns_launches_upto K dev q done _
  | works done rest hops _ _ _ hm =>
    have hbefore : launches (prepared dev l.process_vertex (turns K dev q done)).trace <+:
        launches (turns K dev q q.operations).trace := by
      rw [prepared_launches, hops]
      exact turns_launches_upto K dev q done _
    have hafter : launches (executed K dev l.process_vertex (turns K dev q done)).trace <+:
        launches (turns K dev q q.operations).trace := by
      have hturn := turns_launches_upto K dev q (done ++ [l.process_vertex]) rest
      rw [List.append_assoc, List.singleton_append, ← hops, turns_concat, exchange_vertex,
        Machine.modify_edges_trace] at hturn
      exact hturn
    unfold AtWorker at hm
    split at hm
    · rw [hm, compile_task_trace]
      exact hbefore
    · rw [hm]
      exact hafter
    · obtain ⟨flagged, -, hm⟩ := hm
      rw [hm, Machine.modify_edges_trace]
      exact hafter
    · rw [hm]
      exact hbefore

/-- On one device, the launches of every reachable state are a prefix of the launches of
`execute_graph`, and they are all of them when the device thread has returned. -/
theorem one_device_issues_the_sequential_launches (h : q.OnOneDevice (drive 0))
    (hr : (exchange K q drive).Reachable t) :
    launches t.shared.machine.trace <+:
        launches (execute_graph K q.data_scan q.process_queue
          (.before q.dag q.counter q.stores)).trace ∧
      (t.Joined → launches t.shared.machine.trace =
        launches (execute_graph K q.data_scan q.process_queue
          (.before q.dag q.counter q.stores)).trace) := by
  have halone := alone_reachable h.runnable hr
  rw [← turns_launches K h]
  refine ⟨launches_of_one_run halone.run, fun hjoin => ?_⟩
  have hqueue := halone.drained (by rw [hjoin 0]; rfl)
  cases halone.run with
  | idle done rest hops _ hq hm =>
    rw [hq] at hqueue
    rw [hm, hops, hqueue, List.append_nil]
  | prepares _ _ _ hl => simp [hjoin 0, DevicePc.carries] at hl
  | works _ _ _ hl => simp [hjoin 0, DevicePc.gave] at hl

end law

/-- The hash join is such a query. -/
theorem query_hashJoin_on_one_device : query_hashJoin.OnOneDevice (0, 0) where
  runnable := query_hashJoin_is_runnable
  environment := rfl
  device := by
    intro v hv
    rcases (tests.query_hashJoin_isOp 2 1).mp hv with rfl | rfl
    · rfl
    · rfl
  input_size := by
    intro v hv
    rcases (tests.query_hashJoin_isOp 2 1).mp hv with rfl | rfl
    · rfl
    · rfl
  has_input := by
    intro v hv
    rcases (tests.query_hashJoin_isOp 2 1).mp hv with rfl | rfl
    · decide
    · decide
  data_size := by
    intro e
    simp only [query_hashJoin, tests.query_hashJoin_graph, query_graph.add_edge,
      query_graph.add_vertex, query_graph.empty, Function.update_apply]
    split <;> (try split) <;> (try split) <;> (try split) <;> decide
  columns := by decide

/-- The hash join on one device makes two launches, those of the sequential executor. -/
theorem the_hash_join_issues_the_sequential_launches :
    ∃ t : State 1, t.Joined ∧ (launches t.shared.machine.trace).length = 2 ∧
      launches t.shared.machine.trace =
        launches (execute_graph no_kernels query_hashJoin.data_scan query_hashJoin.process_queue
          (.before query_hashJoin.dag query_hashJoin.counter query_hashJoin.stores)).trace := by
  have hrun : ((exchange no_kernels query_hashJoin (fun _ : Fin 1 => (0, 0))).exec
      (query_hashJoin.initial 1 0) (alone 0)).map
        (fun t => ((launches t.shared.machine.trace).length, (t.lane 0).device)) =
      some (2, .finished) := by
    decide +kernel
  rw [Option.map_eq_some_iff] at hrun
  obtain ⟨t, hexec, ht⟩ := hrun
  obtain ⟨hlength, hdevice⟩ := Prod.mk.inj ht
  have hjoin : t.Joined := by
    intro i
    rw [Subsingleton.elim i 0]
    exact hdevice
  have hreach : (exchange no_kernels query_hashJoin (fun _ : Fin 1 => (0, 0))).Reachable t :=
    ⟨_, initial_init (by decide), System.run_of_exec hexec⟩
  exact ⟨t, hjoin, hlength,
    (one_device_issues_the_sequential_launches query_hashJoin_on_one_device hreach).2 hjoin⟩

end hero.morsel_driven
