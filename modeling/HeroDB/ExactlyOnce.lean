-- The law of exactly-once scheduling: every operation is in the queue, with one device, or
-- executed, as long as no pop fails. A failed pop runs the vertex of the last turn again.
import HeroDB.ExchangeRuns
import Mathlib.Algebra.BigOperators.Fin
import Mathlib.Tactic.FinCases

namespace hero.morsel_driven

open runtime_layer transition

/-! ## The property -/

/-- Every operation was executed once, by one worker, and no other vertex was executed. -/
structure ExactlyOnce (q : Query) {n : Nat} (s : State n) : Prop where
  operations : ∀ v, q.dag.IsOp v →
    ∃ i : Fin n, s.shared.started.filter (fun e => e.2 = v) = [(i.val, v)]
  others : ∀ v i, ¬ q.dag.IsOp v → (i, v) ∉ s.shared.started

/-- All device threads have returned, so `execute_exchange_graph` can join them. -/
def State.Joined {n : Nat} (s : State n) : Prop := ∀ i, (s.lane i).device = .finished

/-- A device thread that pops finds a vertex in the queue. -/
def PopFindsAVertex {n : Nat} (s : State n) (a : Action n) : Prop :=
  ∀ i, a = .run i .device → (s.lane i).device = .pop → s.shared.ex_processing_queue ≠ []

/-! ## The account of the vertices -/

/-- The device thread has a vertex that it took from the queue. -/
def DevicePc.carries : DevicePc → Bool
  | .set_device | .spin _ _ | .size_input | .set_input | .prepare_output => true
  | .lock_ready last | .set_ready last => !last
  | _ => false

/-- The device thread gave its worker a vertex that it took from the queue. -/
def DevicePc.gave : DevicePc → Bool
  | .notify last | .lock_wait last | .test_processed last | .asleep last _ => !last
  | _ => false

/-- The worker has the vertex, and has not started it. -/
def WorkerPc.carries : WorkerPc → Bool
  | .test_stop | .compile | .execute => true
  | _ => false

/-- The device has a vertex that was taken from the queue and not started. -/
def Lane.carries (l : Lane) : Bool :=
  l.device.carries || (l.device.gave && (l.ready || l.worker.carries))

/-- How often a vertex is with a device. -/
def Lane.held (v : Nat) (l : Lane) : Nat :=
  if l.carries = true ∧ l.process_vertex = v then 1 else 0

/-- A device that has left its loop saw an empty queue. -/
def DevicePc.quits : DevicePc → Bool
  | .stop => true
  | d => d.last

/-- Every operation is once in the queue, with a device, or in the log of the workers. -/
structure Account (q : Query) {n : Nat} (s : State n) : Prop where
  conserved : ∀ v, s.shared.ex_processing_queue.count v + ∑ i, (s.lane i).held v +
    (s.shared.started.map Prod.snd).count v = q.operations.count v
  drained : ∀ i, (s.lane i).device.quits = true → s.shared.ex_processing_queue = []
  workers : ∀ e ∈ s.shared.started, e.1 < n

theorem sum_put {n : Nat} (s : State n) (i : Fin n) (r : Shared × Lane) (f : Lane → Nat) :
    ∑ j, f ((s.put i r).lane j) + f (s.lane i) = ∑ j, f (s.lane j) + f r.2 := by
  have hput : (fun j => f ((s.put i r).lane j)) =
      Function.update (fun j => f (s.lane j)) i (f r.2) := by
    funext j
    by_cases h : j = i
    · subst h
      simp
    · simp [put_lane_ne s i r h, h]
  rw [hput, Finset.sum_update_of_mem (Finset.mem_univ i),
    Finset.sum_eq_add_sum_sdiff_singleton_of_mem (Finset.mem_univ i)]
  omega

/-! ## One step -/

section step

variable {K : Kernels} {dev : Device} {i N : Nat} {s s' : Shared} {l l' : Lane}

theorem held_congr {v : Nat} (hc : l'.carries = l.carries)
    (hv : l'.process_vertex = l.process_vertex) : l'.held v = l.held v := by
  unfold Lane.held
  rw [hc, hv]

theorem held_of_not_carries {v : Nat} (h : l.carries = false) : l.held v = 0 := by
  simp [Lane.held, h]

theorem held_of_carries {v : Nat} (h : l.carries = true) :
    l.held v = [l.process_vertex].count v := by
  simp [Lane.held, h, List.count_singleton]

/-- A worker that is done with a vertex has started it. -/
theorem WorkerPc.carries_of_done {last : Bool} {w : WorkerPc} (h : w.done last = true) :
    w.carries = false := by
  cases w with
  | test_stop | compile | execute => cases h
  | _ => rfl

/-- A move of the device thread other than a pop takes no vertex and loses none. -/
theorem held_device (hok : LaneOk N l) (hmove : DeviceMove dev s l s' l')
    (hpop : l.device ≠ .pop) (v : Nat) : l'.held v = l.held v := by
  cases hmove with
  | pop v rest hd _ => exact absurd hd hpop
  | pop_fails hd _ => exact absurd hd hpop
  | stop hd =>
    rw [held_of_not_carries rfl,
      held_of_not_carries (by simp [Lane.carries, hd, DevicePc.carries, DevicePc.gave])]
  | notify last hd =>
    unfold Lane.notify_worker
    by_cases hw : l.worker = .asleep false
    · rw [if_pos hw]
      refine held_congr ?_ rfl
      simp [Lane.carries, hd, hw, DevicePc.carries, DevicePc.gave, WorkerPc.carries]
    · rw [if_neg hw]
      exact held_congr (by simp [Lane.carries, hd, DevicePc.carries, DevicePc.gave]) rfl
  | see_processed last hd hp =>
    obtain ⟨hr, hw⟩ := hok.of_processed hp
    refine held_congr ?_ rfl
    simp [Lane.carries, hd, hr, WorkerPc.carries_of_done hw, DevicePc.carries, DevicePc.gave]
  | set_ready last hd =>
    refine held_congr ?_ rfl
    simp [Lane.carries, hd, DevicePc.carries, DevicePc.gave]
  | _ =>
    refine held_congr ?_ rfl
    simp [Lane.carries, DevicePc.carries, DevicePc.gave, *]

theorem carries_of_last {d : DevicePc} (h : d.last = true) :
    d.carries = false ∧ d.gave = false := by
  cases d with
  | lock_ready last | set_ready last | notify last | lock_wait last | test_processed last
  | asleep last _ =>
    have hlast : last = true := h
    subst hlast
    exact ⟨rfl, rfl⟩
  | unlock_wait _ | join | finished => exact ⟨rfl, rfl⟩
  | _ => cases h

/-- A move of the worker thread other than a launch takes no vertex and loses none. -/
theorem held_worker (hN : N ≤ INT_MAX) (hok : LaneOk N l) (hmove : WorkerMove K i s l s' l')
    (hexec : l.worker ≠ .execute) (v : Nat) : l'.held v = l.held v := by
  cases hmove with
  | execute hw => exact absurd hw hexec
  | clear_ready hw =>
    have hr : l.ready = true := by
      cases hok.phase with
      | given _ _ hr => exact hr
      | _ _ hw' => simp [hw, WorkerPc.waits, WorkerPc.works, WorkerPc.done] at hw'
    refine held_congr ?_ rfl
    simp [Lane.carries, hr, WorkerPc.carries]
  | see_stop hw hv =>
    -- The sentinel was not taken from the queue.
    have hcarries := carries_of_last ((hok.last_iff hN).mpr hv)
    refine held_congr ?_ rfl
    simp [Lane.carries, hcarries]
  | notify hw =>
    unfold Lane.notify_device
    split
    case h_1 last notified hd =>
      refine held_congr ?_ rfl
      simp [Lane.carries, hd, hw, DevicePc.carries, DevicePc.gave, WorkerPc.carries]
    case h_2 => exact held_congr (by simp [Lane.carries, hw, WorkerPc.carries]) rfl
  | notify_last hw =>
    unfold Lane.notify_device
    split
    case h_1 last notified hd =>
      refine held_congr ?_ rfl
      simp [Lane.carries, hd, hw, DevicePc.carries, DevicePc.gave, WorkerPc.carries]
    case h_2 => exact held_congr (by simp [Lane.carries, hw, WorkerPc.carries]) rfl
  | _ =>
    refine held_congr ?_ rfl
    simp [Lane.carries, WorkerPc.carries, *]

/-- A device that starts a vertex has it before, and does not have it after. -/
theorem held_execute (hok : LaneOk N l) (hw : l.worker = .execute) (v : Nat) :
    l.held v = [l.process_vertex].count v ∧ { l with worker := .complete }.held v = 0 := by
  obtain ⟨hstage, hlast, hr, -⟩ := hok.of_runs (by rw [hw]; rfl)
  have hgave : l.device.gave = true ∧ l.device.carries = false := by
    cases hd : l.device with
    | notify last | lock_wait last | test_processed last | asleep last _ =>
      rw [hd] at hlast
      simpa [DevicePc.gave, DevicePc.carries, DevicePc.last] using hlast
    | _ => simp [hd, DevicePc.stage] at hstage
  refine ⟨held_of_carries ?_, held_of_not_carries ?_⟩
  · simp [Lane.carries, hgave, hw, WorkerPc.carries]
  · simp [Lane.carries, hgave, hr, WorkerPc.carries]

/-- A device thread leaves its loop only when the queue is empty. -/
theorem drained_move (hmove : Move K dev i s l s' l')
    (h : l.device.quits = true → s.ex_processing_queue = []) :
    l'.device.quits = true → s'.ex_processing_queue = [] := by
  cases hmove with
  | device hm =>
    cases hm with
    | see_empty _ hq => exact fun _ => hq
    | stop hd | unlock_last hd | join hd _ => exact fun _ => h (by rw [hd]; rfl)
    | lock_ready last hd _ | set_ready last hd | lock_wait last hd _ | see_processed last hd _
    | sleep last hd _ | wake last hd _ =>
      exact fun hquits => h (by rw [hd]; exact hquits)
    | notify last hd => exact fun hquits => h (by rw [hd]; exact hquits)
    | _ => exact fun hquits => by cases hquits
  | worker hm =>
    rw [worker_move_queue hm]
    intro hquits
    apply h
    cases hm with
    | notify _ | notify_last _ =>
      unfold Lane.notify_device at hquits
      split at hquits
      case h_1 last notified hd => rw [hd]; exact hquits
      case h_2 => exact hquits
    | _ => exact hquits
  | spurious hm =>
    intro hquits
    apply h
    obtain ⟨-, hcase⟩ := spurious_move hm
    rcases hcase with ⟨last, notified, hd, rfl⟩ | ⟨notified, hw, rfl⟩
    · rw [hd]
      exact hquits
    · exact hquits

theorem held_spurious {th : Thread} (hm : spurious_step th l = some l') (v : Nat) :
    l'.held v = l.held v := by
  obtain ⟨-, hcase⟩ := spurious_move hm
  rcases hcase with ⟨last, notified, hd, rfl⟩ | ⟨notified, hw, rfl⟩
  · exact held_congr (by simp [Lane.carries, hd, DevicePc.carries, DevicePc.gave]) rfl
  · exact held_congr (by simp [Lane.carries, hw, WorkerPc.carries]) rfl

end step

/-! ## The law -/

section law

variable {K : Kernels} {q : Query} {n : Nat} {drive : Fin n → Device} {s t : State n}

theorem account_init (h : q.Runnable) (hs : (exchange K q drive).init s) : Account q s := by
  obtain ⟨hshared, hlanes⟩ := hs
  rw [start_eq h] at hshared
  have hheld : ∀ i v, (s.lane i).held v = 0 := by
    intro i v
    obtain ⟨w, -, hlane⟩ := hlanes i
    rw [hlane]
    exact held_of_not_carries rfl
  refine ⟨?_, ?_, ?_⟩
  · intro v
    simp [hshared, hheld]
  · intro i hquits
    obtain ⟨w, -, hlane⟩ := hlanes i
    rw [hlane] at hquits
    cases hquits
  · intro e he
    rw [hshared] at he
    cases he

/-- A move keeps the account when it takes from the queue and the devices what it gives. -/
theorem account_put {i : Fin n} {s' : Shared} {l' : Lane} (ha : Account q s)
    (hmove : Move K (drive i) i s.shared (s.lane i) s' l')
    (hcount : ∀ v, s'.ex_processing_queue.count v + l'.held v + (s'.started.map Prod.snd).count v =
      s.shared.ex_processing_queue.count v + (s.lane i).held v +
        (s.shared.started.map Prod.snd).count v)
    (hworkers : ∀ e ∈ s'.started, e.1 < n) : Account q (s.put i (s', l')) := by
  refine ⟨?_, ?_, hworkers⟩
  · intro v
    have hsum : ∑ j, ((s.put i (s', l')).lane j).held v + (s.lane i).held v =
        ∑ j, (s.lane j).held v + l'.held v := sum_put s i (s', l') (Lane.held v)
    have hcons := ha.conserved v
    have hc := hcount v
    simp only [put_shared]
    omega
  · refine put_forall (P := fun _ l => l.device.quits = true → s'.ex_processing_queue = []) s i
      (s', l') (drained_move hmove (ha.drained i)) ?_
    intro j _ hquits
    have hempty := ha.drained j hquits
    have hsuffix := move_queue hmove
    rw [hempty] at hsuffix
    exact List.suffix_nil.mp hsuffix

theorem account_step {a : Action n} (h : q.Runnable) (hb : Base q s) (ha : Account q s)
    (hok : PopFindsAVertex s a) (hstep : step K drive s a = some t) : Account q t := by
  have hN : q.dag.num_vertices ≤ INT_MAX := h.le_INT_MAX
  cases a with
  | run i thread =>
    cases thread with
    | device =>
      obtain ⟨s', l', rfl, hmove⟩ := step_device hstep
      have hlog := (device_move_logs hmove).1
      have hm : Move K (drive i) i s.shared (s.lane i) s' l' := .device hmove
      refine account_put ha hm ?_ (by rw [hlog]; exact ha.workers)
      intro v
      by_cases hpop : (s.lane i).device = .pop
      · cases hmove with
        | pop w rest hd hq =>
          have hheld : (s.lane i).held v = 0 :=
            held_of_not_carries (by simp [Lane.carries, hd, DevicePc.carries, DevicePc.gave])
          rw [hq, hheld, held_of_carries rfl]
          simp only [List.count_cons, List.count_nil]
          omega
        | pop_fails _ hq => exact absurd hq (hok i rfl hpop)
        | _ => simp [*] at hpop
      · have hqueue : s'.ex_processing_queue = s.shared.ex_processing_queue := by
          cases hmove with
          | pop w rest hd _ => exact absurd hd hpop
          | _ => rfl
        rw [held_device (hb.lanes i) hmove hpop, hlog, hqueue]
    | worker =>
      obtain ⟨s', l', rfl, hmove⟩ := step_worker hstep
      have hm : Move K (drive i) i s.shared (s.lane i) s' l' := .worker hmove
      have hqueue := worker_move_queue hmove
      by_cases hexec : (s.lane i).worker = .execute
      · cases hmove with
        | execute hw =>
          refine account_put ha hm ?_ ?_
          · intro v
            obtain ⟨hbefore, hafter⟩ := held_execute (hb.lanes i) hw v
            rw [hbefore, hafter, List.map_append, List.count_append]
            simp only [List.map_cons, List.map_nil]
            omega
          · intro e he
            rcases List.mem_append.mp he with he | he
            · exact ha.workers e he
            · rw [List.mem_singleton.mp he]
              exact i.isLt
        | _ => simp [*] at hexec
      · have hlog : s'.started = s.shared.started := by
          cases hmove with
          | execute hw => exact absurd hw hexec
          | _ => rfl
        refine account_put ha hm ?_ (by rw [hlog]; exact ha.workers)
        intro v
        rw [held_worker hN (hb.lanes i) hmove hexec, hlog, hqueue]
  | spurious i thread =>
    simp only [step, Option.map_eq_some_iff] at hstep
    obtain ⟨l', hspur, rfl⟩ := hstep
    have hm : Move K (drive i) i s.shared (s.lane i) s.shared l' := .spurious hspur
    refine account_put ha hm ?_ ha.workers
    intro v
    rw [held_spurious hspur]

/-- In a run without a failed pop, on at least one device, every operation is executed exactly
once by the time the device threads have returned, and nothing else is. -/
theorem every_operation_is_executed_exactly_once (h : q.Runnable) (hn : 0 < n)
    (hr : (exchange K q drive).ReachableBy PopFindsAVertex t) (hjoin : t.Joined) :
    ExactlyOnce q t := by
  obtain ⟨-, ha⟩ := hr.invariant (I := fun s => Base q s ∧ Account q s)
    (fun _ hs => ⟨base_init h hs, account_init h hs⟩)
    (fun _ _ _ hs hok hstep => ⟨base_step h hs.1 hstep, account_step h hs.1 hs.2 hok hstep⟩)
  have hqueue : t.shared.ex_processing_queue = [] := ha.drained ⟨0, hn⟩ (by rw [hjoin]; rfl)
  have hheld : ∀ i v, (t.lane i).held v = 0 :=
    fun i v => held_of_not_carries (by simp [Lane.carries, hjoin i, DevicePc.carries, DevicePc.gave])
  have hcount : ∀ v, (t.shared.started.map Prod.snd).count v = q.operations.count v := by
    intro v
    have hcons := ha.conserved v
    simpa [hqueue, hheld] using hcons
  refine ⟨?_, ?_⟩
  · intro v hop
    have hone : (t.shared.started.filter (fun e => e.2 = v)).length = 1 := by
      have hc := hcount v
      rw [List.count_eq_one_of_mem h.operations_nodup (h.mem_operations.mpr hop), List.count,
        List.countP_map, List.countP_eq_length_filter] at hc
      exact hc
    obtain ⟨⟨i, w⟩, he⟩ := List.length_eq_one_iff.mp hone
    have hmem : (i, w) ∈ t.shared.started.filter (fun e => e.2 = v) := by simp [he]
    rw [List.mem_filter] at hmem
    obtain rfl : w = v := by simpa using hmem.2
    exact ⟨⟨i, ha.workers _ hmem.1⟩, he⟩
  · intro v i hop hmem
    have hc := hcount v
    rw [List.count_eq_zero_of_not_mem (fun hv => hop (h.mem_operations.mp hv)),
      List.count_eq_zero] at hc
    exact hc (List.mem_map_of_mem (f := Prod.snd) hmem)

end law

/-! ## One device -/

/-- A device thread that is about to pop has a vertex to pop. -/
def ReadyToPop {n : Nat} (s : State n) : Prop :=
  ∀ i, (s.lane i).device = .pop → s.shared.ex_processing_queue ≠ []

section one

variable {K : Kernels} {q : Query} {drive : Fin 1 → Device} {s t : State 1}

theorem ready_to_pop_init (hs : (exchange K q drive).init s) : ReadyToPop s := by
  intro i hd
  obtain ⟨v, -, hlane⟩ := hs.2 i
  rw [hlane] at hd
  cases hd

/-- Nobody else pops between the test and the pop. -/
theorem ready_to_pop_step {a : Action 1} (h : ReadyToPop s)
    (hstep : step K drive s a = some t) : ReadyToPop t := by
  obtain ⟨i, s', l', rfl, hmove⟩ := step_move hstep
  refine put_forall (P := fun _ l => l.device = .pop → s'.ex_processing_queue ≠ []) s i (s', l')
    ?_ (fun j hj => absurd (Subsingleton.elim j i) hj)
  intro hd
  cases hmove with
  | device hm =>
    cases hm with
    | see_vertex _ hq => exact hq
    | _ => cases hd
  | worker hm =>
    rw [worker_move_queue hm]
    apply h i
    cases hm with
    | notify _ | notify_last _ =>
      unfold Lane.notify_device at hd
      split at hd
      case h_1 => cases hd
      case h_2 => exact hd
    | _ => exact hd
  | spurious hm =>
    obtain ⟨-, hcase⟩ := spurious_move hm
    rcases hcase with ⟨last, notified, -, rfl⟩ | ⟨notified, -, rfl⟩
    · cases hd
    · exact h i hd

/-- On one device, no pop fails. -/
theorem one_device_pops_a_vertex (hr : (exchange K q drive).Reachable t) :
    (exchange K q drive).ReachableBy PopFindsAVertex t :=
  hr.by_invariant (I := ReadyToPop) (fun _ => ready_to_pop_init)
    (fun _ _ _ h hstep => ready_to_pop_step h hstep) (fun _ _ h i _ hd => h i hd)

end one

/-! ## Two runs of the hash join -/

/-- Kernels that are never run to an end. -/
def no_kernels : Kernels := ⟨fun _ _ _ _ => none, fun _ _ _ _ => none⟩

/-- The steps of a device with a vertex: the spin loop reads that many flags. -/
def turn {n : Nat} (i : Fin n) (reads : Nat) : List (Action n) :=
  List.replicate (8 + reads) (.run i .device) ++ List.replicate 12 (.run i .worker) ++
    List.replicate 4 (.run i .device)

/-- The steps of a device from the empty queue to the join. -/
def leave {n : Nat} (i : Fin n) : List (Action n) :=
  List.replicate 5 (.run i .device) ++ List.replicate 7 (.run i .worker) ++
    List.replicate 4 (.run i .device)

/-- The steps of a device that has the hash join for itself, from the start to the join. -/
def alone {n : Nat} (i : Fin n) : List (Action n) :=
  List.replicate 3 (.run i .device) ++ turn i 1 ++ List.replicate 2 (.run i .device) ++
    turn i 2 ++ leave i

/-- The hash join on one device executes both operations once. -/
theorem the_hash_join_is_executed_once :
    ∃ t : State 1, t.shared.started = [(0, tests.s2), (0, tests.s3)] ∧
      ExactlyOnce query_hashJoin t := by
  have hrun : ((exchange no_kernels query_hashJoin (fun _ : Fin 1 => (0, 0))).exec
      (query_hashJoin.initial 1 0) (alone 0)).map (fun t => (t.shared.started, (t.lane 0).device)) =
      some ([(0, tests.s2), (0, tests.s3)], .finished) := by
    decide +kernel
  rw [Option.map_eq_some_iff] at hrun
  obtain ⟨t, hexec, ht⟩ := hrun
  obtain ⟨hstarted, hdevice⟩ := Prod.mk.inj ht
  have hreach : (exchange no_kernels query_hashJoin (fun _ : Fin 1 => (0, 0))).Reachable t :=
    ⟨_, initial_init (by decide), System.run_of_exec hexec⟩
  refine ⟨t, hstarted, every_operation_is_executed_exactly_once query_hashJoin_is_runnable
    (by decide) (one_device_pops_a_vertex hreach) ?_⟩
  intro i
  rw [Subsingleton.elim i 0]
  exact hdevice

/-- Device 0 runs the build, sees the probe in the queue, and loses it to device 1. -/
def lost_race : List (Action 2) :=
  List.replicate 3 (.run 0 .device) ++ turn 0 1 ++ [.run 0 .device] ++
    List.replicate 3 (.run 1 .device) ++ [.run 0 .device] ++ turn 0 1 ++ leave 0 ++
    turn 1 2 ++ leave 1

/-- The pop of device 0 fails, and it runs the build a second time. -/
theorem a_lost_race_executes_a_vertex_twice :
    query_hashJoin.Runnable ∧ ∃ t : State 2,
      (exchange no_kernels query_hashJoin (fun i : Fin 2 => (0, i.val))).Reachable t ∧
        t.Joined ∧ t.shared.started = [(0, tests.s2), (0, tests.s2), (1, tests.s3)] ∧
        ¬ ExactlyOnce query_hashJoin t := by
  refine ⟨query_hashJoin_is_runnable, ?_⟩
  have hrun : ((exchange no_kernels query_hashJoin (fun i : Fin 2 => (0, i.val))).exec
      (query_hashJoin.initial 2 0) lost_race).map
        (fun t => (t.shared.started, (t.lane 0).device, (t.lane 1).device)) =
      some ([(0, tests.s2), (0, tests.s2), (1, tests.s3)], .finished, .finished) := by
    decide +kernel
  rw [Option.map_eq_some_iff] at hrun
  obtain ⟨t, hexec, ht⟩ := hrun
  simp only [Prod.mk.injEq] at ht
  obtain ⟨hstarted, hfirst, hsecond⟩ := ht
  refine ⟨t, ⟨_, initial_init (by decide), System.run_of_exec hexec⟩, ?_, hstarted, ?_⟩
  · intro i
    fin_cases i
    · exact hfirst
    · exact hsecond
  · intro hone
    obtain ⟨i, hi⟩ := hone.operations tests.s2 (query_hashJoin_is_runnable.mem_operations.mp
      (by decide))
    have hlen := congrArg List.length hi
    rw [hstarted] at hlen
    exact absurd hlen (by simp [tests.s2, tests.s3])

end hero.morsel_driven
