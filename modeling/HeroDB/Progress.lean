-- The law of progress: in every reachable state with an unfinished thread, some thread can take a
-- useful step. A thread that tests a false predicate under its mutex can be in the way of it for
-- one step.
import HeroDB.ExactlyOnce

namespace hero.morsel_driven

open runtime_layer query_graph transition

/-! ## The property -/

/-- A step of one of the two threads of a device. -/
def lane_step (K : Kernels) (dev : Device) (i : Nat) (s : Shared) (l : Lane) :
    Thread → Option (Shared × Lane)
  | .device => device_step dev s l
  | .worker => worker_step K i s l

/-- The next step of the thread is not one that the thread can repeat for ever: it reads flags only
when all of them are set, and it locks, wakes up or tests for a wait only when the predicate is
true. -/
def Lane.Useful (g : query_graph) (l : Lane) : Thread → Prop
  | .device =>
    match l.device with
    | .spin _ _ => ∀ e ∈ g.in_edges l.process_vertex, (g.edge e).ready_for_next_step = true
    | .lock_wait _ | .test_processed _ | .asleep _ _ => l.processed = true
    | _ => True
  | .worker =>
    match l.worker with
    | .lock | .test_ready | .asleep _ => l.ready = true
    | _ => True

/-- The thread holds the mutex, and its next step is to go to sleep on a false predicate. -/
def Lane.GoesToSleep (l : Lane) : Thread → Prop
  | .device => (∃ last, l.device = .test_processed last) ∧ l.processed = false ∧ l.m = some .device
  | .worker => l.worker = .test_ready ∧ l.ready = false ∧ l.m = some .worker

/-- Some thread has not finished. -/
def State.Unfinished {n : Nat} (s : State n) : Prop :=
  ∃ i, (s.lane i).device ≠ .finished ∨ (s.lane i).worker ≠ .finished

def Advances {n : Nat} (K : Kernels) (drive : Fin n → Device) (s : State n) : Prop :=
  ∃ i th t, (s.lane i).Useful s.shared.machine.dag th ∧ step K drive s (.run i th) = some t

def Lane.Spins (g : query_graph) (l : Lane) : Prop :=
  (∃ rest input_set, l.device = .spin rest input_set) ∧
    ∃ e ∈ g.in_edges l.process_vertex, (g.edge e).ready_for_next_step = false

/-! ## The steps of one device -/

/-- A step of the device thread that waits for something. -/
def DevicePc.guarded : DevicePc → Bool
  | .lock_ready _ | .lock_wait _ | .asleep _ _ | .join | .finished => true
  | _ => false

/-- A step of the worker thread that waits for something. -/
def WorkerPc.guarded : WorkerPc → Bool
  | .unborn | .lock | .asleep _ | .finished => true
  | _ => false

theorem WorkerPc.tests_of_waits {w : WorkerPc} (hw : w.waits = true) (hh : w.holds = true) :
    w = .test_ready := by
  cases w with
  | test_ready => rfl
  | _ => simp [WorkerPc.waits, WorkerPc.holds] at hw hh

theorem WorkerPc.tests_of_done {w : WorkerPc} {last : Bool} (hw : w.done last = true)
    (hh : w.holds = true) : (∃ b, w = .unlock b) ∨ w = .test_ready := by
  cases w with
  | unlock b => exact .inl ⟨b, rfl⟩
  | test_ready => exact .inr rfl
  | _ => simp [WorkerPc.done, WorkerPc.holds] at hw hh

section lane

variable {K : Kernels} {dev : Device} {i N : Nat} {s : Shared} {l : Lane}

theorem device_step_of_unguarded (dev : Device) (s : Shared) (h : l.device.guarded = false) :
    ∃ r, device_step dev s l = some r := by
  unfold device_step
  cases hd : l.device with
  | lock_ready _ | lock_wait _ | asleep _ _ | join | finished => simp [hd, DevicePc.guarded] at h
  | test_empty | test_processed _ =>
    simp only
    split
    · exact ⟨_, rfl⟩
    · exact ⟨_, rfl⟩
  | pop =>
    simp only
    cases s.ex_processing_queue with
    | nil => exact ⟨_, rfl⟩
    | cons v rest => exact ⟨_, rfl⟩
  | spin rest input_set =>
    cases rest with
    | nil =>
      cases input_set with
      | true => exact ⟨_, rfl⟩
      | false => exact ⟨_, rfl⟩
    | cons e rest => exact ⟨_, rfl⟩
  | unlock_wait last =>
    cases last with
    | true => exact ⟨_, rfl⟩
    | false => exact ⟨_, rfl⟩
  | _ => exact ⟨_, rfl⟩

theorem worker_step_of_unguarded (K : Kernels) (i : Nat) (s : Shared)
    (h : l.worker.guarded = false) :
    ∃ r, worker_step K i s l = some r := by
  unfold worker_step
  cases hw : l.worker with
  | unborn | lock | asleep _ | finished => simp [hw, WorkerPc.guarded] at h
  | test_ready | test_stop =>
    simp only
    split
    · exact ⟨_, rfl⟩
    · exact ⟨_, rfl⟩
  | flag rest =>
    cases rest with
    | nil => exact ⟨_, rfl⟩
    | cons e rest => exact ⟨_, rfl⟩
  | notify last =>
    cases last with
    | true => exact ⟨_, rfl⟩
    | false => exact ⟨_, rfl⟩
  | _ => exact ⟨_, rfl⟩

def LaneAdvances (K : Kernels) (dev : Device) (i : Nat) (s : Shared) (l : Lane) : Prop :=
  ∃ th r, l.Useful s.machine.dag th ∧ lane_step K dev i s l th = some r

/-- One of the two threads can take a useful step, when the other has gone to sleep. -/
def LaneAdvancesAfterSleep (K : Kernels) (dev : Device) (i : Nat) (s : Shared) (l : Lane) : Prop :=
  ∃ th r, l.GoesToSleep th ∧ lane_step K dev i s l th = some r ∧ LaneAdvances K dev i r.1 r.2

theorem device_advances (hu : l.Useful s.machine.dag .device) (h : l.device.guarded = false) :
    LaneAdvances K dev i s l := by
  obtain ⟨r, hr⟩ := device_step_of_unguarded dev s h
  exact ⟨.device, r, hu, hr⟩

theorem worker_advances (hu : l.Useful s.machine.dag .worker) (h : l.worker.guarded = false) :
    LaneAdvances K dev i s l := by
  obtain ⟨r, hr⟩ := worker_step_of_unguarded K i s h
  exact ⟨.worker, r, hu, hr⟩

theorem worker_useful (h : ∀ b, l.worker ≠ .lock ∧ l.worker ≠ .test_ready ∧ l.worker ≠ .asleep b) :
    l.Useful s.machine.dag .worker := by
  unfold Lane.Useful
  cases hw : l.worker with
  | lock => exact absurd hw (h true).1
  | test_ready => exact absurd hw (h true).2.1
  | asleep b => exact absurd hw (h b).2.2
  | _ => trivial

theorem LaneOk.worker_holds (hok : LaneOk N l) (hm : l.m ≠ none) (hd : l.device.holds = false) :
    l.worker.holds = true ∧ l.m = some .worker := by
  have howner := hok.owner
  cases hw : l.worker.holds with
  | true => exact ⟨rfl, by simpa [hd, hw] using howner⟩
  | false => exact absurd (by simpa [hd, hw] using howner) hm

/-- A worker that tests a false predicate goes to sleep. The device thread can then take the mutex. -/
theorem advances_after_worker_sleeps {pc : DevicePc} (hd : l.device = pc)
    (hpc : (∃ last, pc = .lock_ready last) ∨
      l.processed = true ∧ ((∃ last, pc = .lock_wait last) ∨ ∃ last, pc = .asleep last true))
    (hw : l.worker = .test_ready) (hr : l.ready = false) (hm : l.m = some .worker) :
    LaneAdvancesAfterSleep K dev i s l := by
  refine ⟨.worker, (s, { l with m := none, worker := .asleep false }), ⟨hw, hr, hm⟩, ?_, .device, ?_⟩
  · simp [lane_step, worker_step, hw, hr]
  · subst hd
    rcases hpc with ⟨last, hd⟩ | ⟨hp, ⟨last, hd⟩ | ⟨last, hd⟩⟩
    · exact ⟨_, by simp [Lane.Useful, hd], by simp [lane_step, device_step, hd]; rfl⟩
    · exact ⟨_, by simp [Lane.Useful, hd, hp], by simp [lane_step, device_step, hd]; rfl⟩
    · exact ⟨_, by simp [Lane.Useful, hd, hp], by simp [lane_step, device_step, hd]; rfl⟩

/-- A device thread that tests a false predicate goes to sleep. The worker can then take the
mutex. -/
theorem advances_after_device_sleeps {last : Bool} (hd : l.device = .test_processed last)
    (hp : l.processed = false) (hm : l.m = some .device) (hr : l.ready = true)
    (hw : l.worker = .lock ∨ l.worker = .asleep true) : LaneAdvancesAfterSleep K dev i s l := by
  refine ⟨.device, (s, { l with m := none, device := .asleep last false }), ⟨⟨last, hd⟩, hp, hm⟩, ?_,
    .worker, ?_⟩
  · simp [lane_step, device_step, hd, hp]
  · rcases hw with hw | hw
    · exact ⟨_, by simp [Lane.Useful, hw, hr], by simp [lane_step, worker_step, hw]; rfl⟩
    · exact ⟨_, by simp [Lane.Useful, hw, hr], by simp [lane_step, worker_step, hw]; rfl⟩

/-! ## The phases -/

/-- A device thread that prepares a vertex advances, unless it spins on an unset flag. -/
theorem prepared_advances (hok : LaneOk N l) (hd : l.device.stage = .prepares)
    (hw : l.worker.waits = true) (hr : l.ready = false) :
    LaneAdvances K dev i s l ∨ LaneAdvancesAfterSleep K dev i s l ∨ l.Spins s.machine.dag := by
  cases hpc : l.device with
  | lock_ready last =>
    by_cases hm : l.m = none
    · left
      exact ⟨.device, _, by simp [Lane.Useful, hpc], by simp [lane_step, device_step, hpc, hm]; rfl⟩
    · right; left
      obtain ⟨hholds, howner⟩ := hok.worker_holds hm (by rw [hpc]; rfl)
      exact advances_after_worker_sleeps hpc (.inl ⟨last, rfl⟩)
        (WorkerPc.tests_of_waits hw hholds) hr howner
  | spin rest input_set =>
    by_cases hall : ∀ e ∈ s.machine.dag.in_edges l.process_vertex,
        (s.machine.dag.edge e).ready_for_next_step = true
    · left
      exact device_advances (by simpa [Lane.Useful, hpc] using hall) (by rw [hpc]; rfl)
    · right; right
      simp only [not_forall, Bool.not_eq_true] at hall
      obtain ⟨e, he, hflag⟩ := hall
      exact ⟨⟨rest, input_set, hpc⟩, e, he, hflag⟩
  | test_empty | pop | set_device | size_input | set_input | prepare_output | stop | set_ready _ =>
    left
    exact device_advances (by simp [Lane.Useful, hpc]) (by rw [hpc]; rfl)
  | _ => simp [hpc, DevicePc.stage] at hd

/-- A worker that was given a vertex advances, or its device thread is about to notify it. -/
theorem given_advances (hok : LaneOk N l) (hd : l.device.stage = .waits)
    (hw : l.worker.waits = true ∨ l.worker = .clear_ready) (hr : l.ready = true)
    (hp : l.processed = false)
    (wakes : l.worker = .asleep false → ∃ last, l.device = .notify last) :
    LaneAdvances K dev i s l ∨ LaneAdvancesAfterSleep K dev i s l := by
  have hblocked : l.worker = .lock ∨ l.worker = .asleep true → l.m ≠ none →
      LaneAdvancesAfterSleep K dev i s l := by
    intro hpc hm
    have howner := hok.owner
    have hfree : l.worker.holds = false := by rcases hpc with hpc | hpc <;> rw [hpc] <;> rfl
    cases hdev : l.device with
    | test_processed last =>
      exact advances_after_device_sleeps hdev hp (by rw [howner, hdev]; rfl) hr hpc
    | notify _ | lock_wait _ | asleep _ _ =>
      exact absurd (by simpa [hdev, hfree, DevicePc.holds] using howner) hm
    | _ => simp [hdev, DevicePc.stage] at hd
  cases hpc : l.worker with
  | lock =>
    by_cases hm : l.m = none
    · left
      exact ⟨.worker, _, by simp [Lane.Useful, hpc, hr],
        by simp [lane_step, worker_step, hpc, hm]; rfl⟩
    · exact .inr (hblocked (.inl hpc) hm)
  | asleep notified =>
    cases notified with
    | false =>
      obtain ⟨last, hdev⟩ := wakes hpc
      exact .inl (device_advances (by simp [Lane.Useful, hdev]) (by rw [hdev]; rfl))
    | true =>
      by_cases hm : l.m = none
      · left
        exact ⟨.worker, _, by simp [Lane.Useful, hpc, hr],
          by simp [lane_step, worker_step, hpc, hm]; rfl⟩
      · exact .inr (hblocked (.inr hpc) hm)
  | test_ready => exact .inl (worker_advances (by simp [Lane.Useful, hpc, hr]) (by rw [hpc]; rfl))
  | notify _ | clear_ready =>
    exact .inl (worker_advances (by simp [Lane.Useful, hpc]) (by rw [hpc]; rfl))
  | _ => simp [hpc, WorkerPc.waits] at hw

/-- A device thread whose vertex was processed advances, or its worker is about to unlock or to
notify it, or both have finished. -/
theorem returned_advances (hok : LaneOk N l)
    (hd : l.device.stage = .waits ∨ l.device.stage = .returns)
    (hw : l.worker.done l.device.last = true) (hr : l.ready = false) (hp : l.processed = true)
    (wakes : ∀ last, l.device = .asleep last false →
      ∃ b, l.worker = .unlock b ∨ l.worker = .notify b) :
    (l.device = .finished ∧ l.worker = .finished) ∨ LaneAdvances K dev i s l ∨
      LaneAdvancesAfterSleep K dev i s l := by
  have hworker : ∀ b, l.worker = .unlock b ∨ l.worker = .notify b → LaneAdvances K dev i s l := by
    intro b hpc
    rcases hpc with hpc | hpc
    · exact worker_advances (by simp [Lane.Useful, hpc]) (by rw [hpc]; rfl)
    · exact worker_advances (by simp [Lane.Useful, hpc]) (by rw [hpc]; rfl)
  -- A device thread that waits for the mutex gets it after a worker that tests a false predicate.
  have hblocked : ∀ pc, l.device = pc → pc.holds = false →
      ((∃ last, pc = .lock_wait last) ∨ ∃ last, pc = .asleep last true) → l.m ≠ none →
      LaneAdvances K dev i s l ∨ LaneAdvancesAfterSleep K dev i s l := by
    intro pc hpc hholds hpcs hm
    obtain ⟨hwholds, howner⟩ := hok.worker_holds hm (by rw [hpc]; exact hholds)
    rcases WorkerPc.tests_of_done hw hwholds with ⟨b, hb⟩ | htest
    · exact .inl (hworker b (.inl hb))
    · exact .inr (advances_after_worker_sleeps hpc (.inr ⟨hp, hpcs⟩) htest hr howner)
  cases hpc : l.device with
  | notify _ => exact .inr (.inl (device_advances (by simp [Lane.Useful, hpc]) (by rw [hpc]; rfl)))
  | test_processed _ =>
    exact .inr (.inl (device_advances (by simp [Lane.Useful, hpc, hp]) (by rw [hpc]; rfl)))
  | unlock_wait _ | clear_processed =>
    exact .inr (.inl (device_advances (by simp [Lane.Useful, hpc]) (by rw [hpc]; rfl)))
  | lock_wait last =>
    by_cases hm : l.m = none
    · right; left
      exact ⟨.device, _, by simp [Lane.Useful, hpc, hp],
        by simp [lane_step, device_step, hpc, hm]; rfl⟩
    · exact .inr (hblocked _ hpc rfl (.inl ⟨last, rfl⟩) hm)
  | asleep last notified =>
    cases notified with
    | false =>
      obtain ⟨b, hb⟩ := wakes last hpc
      exact .inr (.inl (hworker b hb))
    | true =>
      by_cases hm : l.m = none
      · right; left
        exact ⟨.device, _, by simp [Lane.Useful, hpc, hp],
          by simp [lane_step, device_step, hpc, hm]; rfl⟩
      · exact .inr (hblocked _ hpc rfl (.inr ⟨last, rfl⟩) hm)
  | join | finished =>
    rw [hpc] at hw
    cases hwpc : l.worker with
    | unlock b => exact .inr (.inl (hworker b (.inl hwpc)))
    | notify b => exact .inr (.inl (hworker b (.inr hwpc)))
    | finished =>
      first
        | exact .inl ⟨rfl, rfl⟩
        | exact .inr (.inl ⟨.device, _, by simp [Lane.Useful, hpc],
            by simp [lane_step, device_step, hpc, hwpc]; rfl⟩)
    | _ => simp [hwpc, WorkerPc.done, DevicePc.last] at hw
  | _ => rcases hd with hd | hd <;> simp [hpc, DevicePc.stage] at hd

/-- The two threads of a device have finished, or one of them advances, or the device thread spins
on an unset flag. -/
theorem lane_advances (K : Kernels) (dev : Device) (i : Nat) (s : Shared) (hok : LaneOk N l) :
    (l.device = .finished ∧ l.worker = .finished) ∨ LaneAdvances K dev i s l ∨
      LaneAdvancesAfterSleep K dev i s l ∨ l.Spins s.machine.dag := by
  cases hok.phase with
  | born hd _ _ _ =>
    cases hpc : l.device with
    | spawn =>
      exact .inr (.inl (device_advances (by simp [Lane.Useful, hpc]) (by rw [hpc]; rfl)))
    | _ => simp [hpc, DevicePc.stage] at hd
  | prepared hd hw hr _ => exact .inr (prepared_advances hok hd hw hr)
  | given hd hw hr hp wakes =>
    rcases given_advances hok hd hw hr hp wakes with h | h
    · exact .inr (.inl h)
    · exact .inr (.inr (.inl h))
  | taken _ hw _ _ =>
    have hpc : ∀ b, l.worker ≠ .lock ∧ l.worker ≠ .test_ready ∧ l.worker ≠ .asleep b := by
      intro b
      refine ⟨?_, ?_, ?_⟩ <;> intro hpc <;> simp [hpc, WorkerPc.works] at hw
    have hguard : l.worker.guarded = false := by
      cases hwpc : l.worker with
      | unborn | lock | asleep _ | finished => simp [hwpc, WorkerPc.works] at hw
      | _ => rfl
    exact .inr (.inl (worker_advances (worker_useful hpc) hguard))
  | returned hd hw hr hp wakes _ =>
    rcases returned_advances hok hd hw hr hp wakes with h | h | h
    · exact .inl h
    · exact .inr (.inl h)
    · exact .inr (.inr (.inl h))

end lane

/-! ## The vertices that are on their way -/

/-- The worker has the vertex, and has not set the flags of all its out-edges. -/
def WorkerPc.busy : WorkerPc → Bool
  | .test_stop | .compile | .execute | .complete | .flag _ => true
  | _ => false

/-- The device has its vertex from the queue, and has not set the flags of all its out-edges. -/
def Lane.busy (l : Lane) : Bool :=
  l.device.carries || (l.device.gave && (l.ready || l.worker.busy))

/-- The device thread has a vertex, and waits for its inputs. -/
def DevicePc.seeks : DevicePc → Bool
  | .set_device | .spin _ _ => true
  | _ => false

/-- What keeps the executor going: every vertex is in the queue, or with a device, or the flags of
its out-edges are set, and a device waits only for vertices that left the queue before its own. -/
structure Live (q : Query) {n : Nat} (s : State n) : Prop where
  scanned : ∀ e ∈ q.dag.out_edges start_vertex,
    (s.shared.machine.dag.edge e).ready_for_next_step = true
  covered : ∀ v, q.dag.IsOp v → v ∈ s.shared.ex_processing_queue ∨
    (∃ j, (s.lane j).busy = true ∧ (s.lane j).process_vertex = v) ∨
    ∀ e ∈ q.dag.out_edges v, (s.shared.machine.dag.edge e).ready_for_next_step = true
  flagging : ∀ i rest, (s.lane i).worker = .flag rest →
    ∀ e ∈ q.dag.out_edges (s.lane i).process_vertex, e ∉ rest →
      (s.shared.machine.dag.edge e).ready_for_next_step = true
  ordered : ∀ i, (s.lane i).device.seeks = true → ∀ v ∈ s.shared.ex_processing_queue,
    q.process_queue.idxOf (s.lane i).process_vertex < q.process_queue.idxOf v

section moves

variable {K : Kernels} {dev : Device} {i N : Nat} {s s' : Shared} {l l' : Lane}

theorem move_flag (h : Move K dev i s l s' l') {e : Nat}
    (he : (s.machine.dag.edge e).ready_for_next_step = true) :
    (s'.machine.dag.edge e).ready_for_next_step = true := by
  cases h with
  | device hm =>
    rw [device_move_flag hm]
    exact he
  | worker hm =>
    cases hm with
    | flag e' rest _ =>
      by_cases heq : e = e'
      · subst heq
        simp [Machine.modify_edge, query_graph.modify_edge]
      · simpa [Machine.modify_edge, query_graph.modify_edge, heq] using he
    | _ => exact he
  | spurious _ => exact he

theorem WorkerPc.not_busy_of_done {last : Bool} {w : WorkerPc} (h : w.done last = true) :
    w.busy = false := by
  cases w with
  | test_stop | compile | execute | complete | flag _ => cases h
  | _ => rfl

/-- A step of the device thread other than a pop leaves a device as busy as it was. -/
theorem busy_device_eq (hok : LaneOk N l) (hmove : DeviceMove dev s l s' l')
    (hpop : l.device ≠ .pop) : l'.busy = l.busy := by
  cases hmove with
  | pop _ _ hd _ | pop_fails hd _ => exact absurd hd hpop
  | stop hd => simp [Lane.busy, hd, DevicePc.carries, DevicePc.gave]
  | notify last hd =>
    unfold Lane.notify_worker
    split
    case isTrue hw => simp [Lane.busy, hd, hw, DevicePc.carries, DevicePc.gave, WorkerPc.busy]
    case isFalse => simp [Lane.busy, hd, DevicePc.carries, DevicePc.gave]
  | see_processed last hd hp =>
    obtain ⟨hr, hw⟩ := hok.of_processed hp
    simp [Lane.busy, hd, hr, WorkerPc.not_busy_of_done hw, DevicePc.carries, DevicePc.gave]
  | set_ready last hd => simp [Lane.busy, hd, DevicePc.carries, DevicePc.gave]
  | _ => simp [Lane.busy, DevicePc.carries, DevicePc.gave, *]

theorem busy_device (hok : LaneOk N l) (hmove : DeviceMove dev s l s' l') (h : l.busy = true) :
    l'.busy = true ∧ l'.process_vertex = l.process_vertex := by
  have hpop : l.device ≠ .pop := by
    intro hd
    simp [Lane.busy, hd, DevicePc.carries, DevicePc.gave] at h
  refine ⟨(busy_device_eq hok hmove hpop).trans h, ?_⟩
  cases hmove with
  | pop _ _ hd _ => exact absurd hd hpop
  | stop hd => simp [Lane.busy, hd, DevicePc.carries, DevicePc.gave] at h
  | notify last hd => simp
  | _ => rfl

/-- A step of the worker other than the one after the last flag leaves a device as busy as it was,
with the same vertex. -/
theorem busy_worker (hN : N ≤ INT_MAX) (hok : LaneOk N l) (hmove : WorkerMove K i s l s' l')
    (hflag : l.worker ≠ .flag []) :
    l'.busy = l.busy ∧ l'.process_vertex = l.process_vertex := by
  cases hmove with
  | all_flagged hw => exact absurd hw hflag
  | see_stop hw hv =>
    have hcarries := carries_of_last ((hok.last_iff hN).mpr hv)
    exact ⟨by simp [Lane.busy, hcarries], rfl⟩
  | clear_ready hw =>
    have hr : l.ready = true := by
      cases hok.phase with
      | given _ _ hr => exact hr
      | _ _ hw' => simp [hw, WorkerPc.waits, WorkerPc.works, WorkerPc.done] at hw'
    exact ⟨by simp [Lane.busy, hr, WorkerPc.busy], rfl⟩
  | notify hw | notify_last hw =>
    unfold Lane.notify_device
    split
    case h_1 last notified hd =>
      exact ⟨by simp [Lane.busy, hd, hw, DevicePc.carries, DevicePc.gave, WorkerPc.busy], rfl⟩
    case h_2 => exact ⟨by simp [Lane.busy, hw, WorkerPc.busy], rfl⟩
  | _ => exact ⟨by simp [Lane.busy, WorkerPc.busy, *], rfl⟩

theorem busy_spurious {th : Thread} (hm : spurious_step th l = some l') :
    l'.busy = l.busy ∧ l'.process_vertex = l.process_vertex := by
  obtain ⟨-, hcase⟩ := spurious_move hm
  rcases hcase with ⟨last, notified, hd, rfl⟩ | ⟨notified, hw, rfl⟩
  · exact ⟨by simp [Lane.busy, hd, DevicePc.carries, DevicePc.gave], rfl⟩
  · exact ⟨by simp [Lane.busy, hw, WorkerPc.busy], rfl⟩

/-- A device that is busy stays busy with its vertex, up to the last flag. -/
theorem busy_move (hN : N ≤ INT_MAX) (hok : LaneOk N l) (hmove : Move K dev i s l s' l')
    (h : l.busy = true) :
    l.worker = .flag [] ∨ l'.busy = true ∧ l'.process_vertex = l.process_vertex := by
  cases hmove with
  | device hm => exact .inr (busy_device hok hm h)
  | worker hm =>
    by_cases hflag : l.worker = .flag []
    · exact .inl hflag
    · obtain ⟨hbusy, hv⟩ := busy_worker hN hok hm hflag
      exact .inr ⟨hbusy.trans h, hv⟩
  | spurious hm =>
    obtain ⟨hbusy, hv⟩ := busy_spurious hm
    exact .inr ⟨hbusy.trans h, hv⟩

/-- A vertex that leaves the queue is with the device that popped it. -/
theorem popped_move (hmove : Move K dev i s l s' l') {v : Nat} (hv : v ∈ s.ex_processing_queue) :
    v ∈ s'.ex_processing_queue ∨ l'.busy = true ∧ l'.process_vertex = v := by
  cases hmove with
  | device hm =>
    cases hm with
    | pop w rest _ hq =>
      rw [hq, List.mem_cons] at hv
      rcases hv with rfl | hv
      · exact .inr ⟨rfl, rfl⟩
      · exact .inl hv
    | _ => exact .inl hv
  | worker hm => exact .inl (by rw [worker_move_queue hm]; exact hv)
  | spurious _ => exact .inl hv

/-- The flags that a worker has set on its way through the out-edges. -/
theorem flagging_move {g : query_graph} (hok : LaneOk N l) (hshape : SameShape g s.machine.dag)
    (hmove : Move K dev i s l s' l')
    (h : ∀ rest, l.worker = .flag rest → ∀ e ∈ g.out_edges l.process_vertex, e ∉ rest →
      (s.machine.dag.edge e).ready_for_next_step = true) :
    ∀ rest, l'.worker = .flag rest → ∀ e ∈ g.out_edges l'.process_vertex, e ∉ rest →
      (s'.machine.dag.edge e).ready_for_next_step = true := by
  intro rest hw e he hrest
  cases hmove with
  | device hm =>
    rw [device_move_flag hm]
    cases hm with
    | pop _ _ hd _ | stop hd =>
      have hwaits := (hok.phase.of_prepares (by rw [hd]; rfl)).1
      have hw' : l.worker = .flag rest := hw
      simp [hw', WorkerPc.waits] at hwaits
    | spawn _ => cases hw
    | notify last hd =>
      unfold Lane.notify_worker at hw he
      split at hw
      · cases hw
      · rename_i hne
        rw [if_neg hne] at he
        exact h rest hw e he hrest
    | _ => exact h rest hw e he hrest
  | worker hm =>
    cases hm with
    | complete _ =>
      cases hw
      rw [hshape.out_edges] at hrest
      exact absurd he hrest
    | flag e' rest' hf =>
      cases hw
      by_cases heq : e = e'
      · subst heq
        simp [Machine.modify_edge, query_graph.modify_edge]
      · have hflag := h _ hf e he (by simp [heq, hrest])
        simpa [Machine.modify_edge, query_graph.modify_edge, heq] using hflag
    | _ => cases hw
  | spurious hm =>
    obtain ⟨-, hcase⟩ := spurious_move hm
    rcases hcase with ⟨last, notified, hd, rfl⟩ | ⟨notified, hw', rfl⟩
    · exact h rest hw e he hrest
    · cases hw

theorem pairwise_idxOf {order : List Nat} (h : order.Nodup) :
    order.Pairwise (fun a b => order.idxOf a < order.idxOf b) := by
  rw [List.pairwise_iff_getElem]
  intro j k hj hk hlt
  rw [h.idxOf_getElem j hj, h.idxOf_getElem k hk]
  exact hlt

/-- A device thread waits only for vertices that left the queue before its own. -/
theorem ordered_move {order queue : List Nat} (hsub : queue.Sublist order) (hnd : order.Nodup)
    (hqueue : s.ex_processing_queue <:+ queue) (hmove : Move K dev i s l s' l')
    (h : l.device.seeks = true → ∀ v ∈ s.ex_processing_queue,
      order.idxOf l.process_vertex < order.idxOf v) :
    l'.device.seeks = true → ∀ v ∈ s'.ex_processing_queue,
      order.idxOf l'.process_vertex < order.idxOf v := by
  intro hseeks v hv
  have hmem := (move_queue hmove).subset hv
  cases hmove with
  | device hm =>
    cases hm with
    | pop w rest _ hq =>
      have hpair : (w :: rest).Pairwise (fun a b => order.idxOf a < order.idxOf b) := by
        rw [← hq]
        exact (pairwise_idxOf hnd).sublist (hqueue.sublist.trans hsub)
      exact (List.pairwise_cons.mp hpair).1 v hv
    | pop_fails _ hq =>
      rw [hq] at hmem
      cases hmem
    | set_device hd | read_again hd => exact h (by rw [hd]; rfl) v hmem
    | read e rest input_set hd => exact h (by rw [hd]; rfl) v hmem
    | _ => cases hseeks
  | worker hm =>
    cases hm with
    | notify _ | notify_last _ =>
      unfold Lane.notify_device at hseeks
      split at hseeks
      case h_1 => cases hseeks
      case h_2 =>
        have hlt := h hseeks v hmem
        simpa using hlt
    | _ => exact h hseeks v hmem
  | spurious hm =>
    obtain ⟨-, hcase⟩ := spurious_move hm
    rcases hcase with ⟨last, notified, hd, rfl⟩ | ⟨notified, hw, rfl⟩
    · cases hseeks
    · exact h hseeks v hmem

end moves

/-! ## The law -/

section law

variable {K : Kernels} {q : Query} {n : Nat} {drive : Fin n → Device} {s t : State n}

theorem live_init (h : q.Runnable) (hs : (exchange K q drive).init s) : Live q s := by
  obtain ⟨hshared, hlanes⟩ := hs
  rw [start_eq h] at hshared
  refine ⟨?_, ?_, ?_, ?_⟩
  · intro e he
    rw [hshared, loaded_flag h]
    exact he
  · intro v hop
    left
    rw [hshared]
    exact h.mem_operations.mpr hop
  · intro i rest hw
    obtain ⟨v, -, hlane⟩ := hlanes i
    rw [hlane] at hw
    cases hw
  · intro i hseeks
    obtain ⟨v, -, hlane⟩ := hlanes i
    rw [hlane] at hseeks
    cases hseeks

theorem live_step {a : Action n} (h : q.Runnable) (hb : Base q s) (hl : Live q s)
    (hstep : step K drive s a = some t) : Live q t := by
  obtain ⟨i, s', l', rfl, hmove⟩ := step_move hstep
  refine ⟨?_, ?_, ?_, ?_⟩
  · exact fun e he => move_flag hmove (hl.scanned e he)
  · intro v hop
    rcases hl.covered v hop with hqueue | ⟨j, hbusy, hv⟩ | hflags
    · rcases popped_move hmove hqueue with hqueue' | hbusy
      · exact .inl hqueue'
      · exact .inr (.inl ⟨i, by rw [put_lane_self]; exact hbusy⟩)
    · by_cases hij : j = i
      · subst hij
        rcases busy_move h.le_INT_MAX (hb.lanes j) hmove hbusy with hw | ⟨hbusy', hv'⟩
        · -- The last flag is set.
          right; right
          intro e he
          exact move_flag hmove (hl.flagging j [] hw e (by rw [hv]; exact he) List.not_mem_nil)
        · exact .inr (.inl ⟨j, by rw [put_lane_self]; exact ⟨hbusy', hv'.trans hv⟩⟩)
      · exact .inr (.inl ⟨j, by rw [put_lane_ne s i (s', l') hij]; exact ⟨hbusy, hv⟩⟩)
    · exact .inr (.inr (fun e he => move_flag hmove (hflags e he)))
  · refine put_forall (P := fun _ l => ∀ rest, l.worker = .flag rest →
      ∀ e ∈ q.dag.out_edges l.process_vertex, e ∉ rest →
        (s'.machine.dag.edge e).ready_for_next_step = true) s i (s', l')
      (flagging_move (hb.lanes i) hb.shape hmove (hl.flagging i)) ?_
    exact fun j _ rest hw e he hrest => move_flag hmove (hl.flagging j rest hw e he hrest)
  · refine put_forall (P := fun _ l => l.device.seeks = true → ∀ v ∈ s'.ex_processing_queue,
      q.process_queue.idxOf l.process_vertex < q.process_queue.idxOf v) s i (s', l')
      (ordered_move (List.filter_sublist) h.topological.nodup hb.queue hmove (hl.ordered i)) ?_
    exact fun j _ hseeks v hv => hl.ordered j hseeks v ((move_queue hmove).subset hv)

theorem live_reachable (h : q.Runnable) (hr : (exchange K q drive).Reachable s) :
    Base q s ∧ Live q s :=
  hr.invariant (I := fun s => Base q s ∧ Live q s)
    (fun _ hs => ⟨base_init h hs, live_init h hs⟩)
    (fun _ _ _ hs hstep => ⟨base_step h hs.1 hstep, live_step h hs.1 hs.2 hstep⟩)

/-- A thread of the system can take a useful step, at once or when a thread has gone to sleep. -/
def AdvancesSoon (K : Kernels) (drive : Fin n → Device) (s : State n) : Prop :=
  Advances K drive s ∨
    ∃ i th t, (s.lane i).GoesToSleep th ∧ step K drive s (.run i th) = some t ∧ Advances K drive t

theorem step_of_lane_step {i : Fin n} {th : Thread} {r : Shared × Lane}
    (h : lane_step K (drive i) i s.shared (s.lane i) th = some r) :
    step K drive s (.run i th) = some (s.put i r) := by
  cases th with
  | device =>
    have hstep : device_step (drive i) s.shared (s.lane i) = some r := h
    simp [step, hstep]
  | worker =>
    have hstep : worker_step K i s.shared (s.lane i) = some r := h
    simp [step, hstep]

theorem advances_of_lane {i : Fin n} (h : LaneAdvances K (drive i) i s.shared (s.lane i)) :
    Advances K drive s := by
  obtain ⟨th, r, huseful, hstep⟩ := h
  exact ⟨i, th, _, huseful, step_of_lane_step hstep⟩

theorem advances_soon_of_lane {i : Fin n}
    (h : LaneAdvancesAfterSleep K (drive i) i s.shared (s.lane i)) : AdvancesSoon K drive s := by
  obtain ⟨th, r, hsleep, hstep, hafter⟩ := h
  right
  refine ⟨i, th, s.put i r, hsleep, step_of_lane_step hstep, ?_⟩
  exact advances_of_lane (i := i) (by rw [put_lane_self]; exact hafter)

/-- A device that spins leads to a device that advances: some source of its inputs is with another
device, whose vertex comes first in the order. -/
theorem advances_of_spinning (h : q.Runnable) (hb : Base q s) (hl : Live q s) (i : Fin n)
    (hspin : (s.lane i).Spins s.shared.machine.dag) : AdvancesSoon K drive s := by
  induction hk : q.process_queue.idxOf (s.lane i).process_vertex using Nat.strong_induction_on
    generalizing i with
  | _ k ih =>
    obtain ⟨⟨rest, input_set, hpc⟩, e, he, hflag⟩ := hspin
    rw [hb.shape.in_edges, mem_in_edges] at he
    obtain ⟨hlt, htarget⟩ := he
    have hends := q.dag.ends_mem hlt
    have hfirst := h.topological.forward _ hends
    have hout : e ∈ q.dag.out_edges (q.dag.source e) := q.dag.mem_out_edges.mpr ⟨hlt, rfl⟩
    have hunset : ¬ (s.shared.machine.dag.edge e).ready_for_next_step = true := by simp [hflag]
    have hop : q.dag.IsOp (q.dag.source e) := by
      apply h.query.source_isOp hlt
      intro hstart
      exact hunset (hl.scanned e (by rw [← hstart]; exact hout))
    rcases hl.covered _ hop with hqueue | ⟨j, hbusy, hv⟩ | hflags
    · have hbefore := hl.ordered i (by rw [hpc]; rfl) _ hqueue
      rw [← htarget] at hbefore
      exact absurd hbefore (Nat.lt_asymm hfirst)
    · rcases lane_advances K (drive j) j s.shared (hb.lanes j) with
        ⟨hd, -⟩ | hadv | hsleep | hspin'
      · simp [Lane.busy, hd, DevicePc.carries, DevicePc.gave] at hbusy
      · exact .inl (advances_of_lane hadv)
      · exact advances_soon_of_lane hsleep
      · refine ih _ ?_ j hspin' rfl
        rw [hv, ← hk, ← htarget]
        exact hfirst
    · exact absurd (hflags e hout) hunset

/-- In every reachable state with an unfinished thread, some thread can take a useful step, at once
or right after a thread that holds its mutex has gone to sleep on a false predicate. -/
theorem an_unfinished_executor_advances (h : q.Runnable) (hr : (exchange K q drive).Reachable s)
    (hun : s.Unfinished) : AdvancesSoon K drive s := by
  obtain ⟨hb, hl⟩ := live_reachable h hr
  obtain ⟨i, hi⟩ := hun
  rcases lane_advances K (drive i) i s.shared (hb.lanes i) with
    ⟨hd, hw⟩ | hadv | hsleep | hspin
  · rcases hi with hi | hi
    · exact absurd hd hi
    · exact absurd hw hi
  · exact .inl (advances_of_lane hadv)
  · exact advances_soon_of_lane hsleep
  · exact advances_of_spinning h hb hl i hspin

end law

/-! ## A wake-up in the way -/

/-- The worker of a device goes to sleep, the device thread prepares a vertex, and then the worker
wakes up without a notification. -/
def woken_early {n : Nat} (i : Fin n) : List (Action n) :=
  [.run i .device, .run i .worker, .run i .worker] ++ List.replicate 8 (.run i .device) ++
    [.spurious i .worker]

/-- The state after these steps: the device thread waits for the mutex, and the worker holds it and
sees that nothing is ready. -/
theorem woken_early_state : ∃ s : State 1,
    (exchange no_kernels query_hashJoin (fun _ : Fin 1 => (0, 0))).Reachable s ∧
      s.lane 0 = { device := .lock_ready false, worker := .test_ready, ready := false
                   processed := false, process_vertex := tests.s2, m := some .worker } := by
  have hrun : ((exchange no_kernels query_hashJoin (fun _ : Fin 1 => (0, 0))).exec
      (query_hashJoin.initial 1 0) (woken_early 0)).map (fun s => s.lane 0) =
      some { device := .lock_ready false, worker := .test_ready, ready := false
             processed := false, process_vertex := tests.s2, m := some .worker } := by
    decide +kernel
  rw [Option.map_eq_some_iff] at hrun
  obtain ⟨s, hexec, hs⟩ := hrun
  exact ⟨s, ⟨_, initial_init (by decide), System.run_of_exec hexec⟩, hs⟩

/-- There the only step of any thread is to go back to sleep on a false predicate. -/
theorem a_woken_worker_can_only_go_back_to_sleep :
    query_hashJoin.Runnable ∧ ∃ s : State 1,
      (exchange no_kernels query_hashJoin (fun _ : Fin 1 => (0, 0))).Reachable s ∧ s.Unfinished ∧
        ∀ a t, step no_kernels (fun _ : Fin 1 => (0, 0)) s a = some t →
          a = .run 0 .worker ∧ (s.lane 0).GoesToSleep .worker := by
  obtain ⟨s, hreach, hs⟩ := woken_early_state
  refine ⟨query_hashJoin_is_runnable, s, hreach, ⟨0, .inl (by rw [hs]; simp)⟩, ?_⟩
  intro a t hstep
  have hsleep : (s.lane 0).GoesToSleep .worker := by rw [hs]; exact ⟨rfl, rfl, rfl⟩
  cases a with
  | run i th =>
    rw [Subsingleton.elim i 0] at hstep ⊢
    cases th with
    | device => simp [step, device_step, hs] at hstep
    | worker => exact ⟨rfl, hsleep⟩
  | spurious i th =>
    rw [Subsingleton.elim i 0] at hstep
    simp [step, spurious_step, hs] at hstep

/-- The worker frees the mutex, and then the hash join goes on. -/
theorem the_woken_hash_join_advances : ∃ s : State 1,
    (s.lane 0).GoesToSleep .worker ∧
      AdvancesSoon no_kernels (fun _ : Fin 1 => (0, 0)) s := by
  obtain ⟨s, hreach, hs⟩ := woken_early_state
  refine ⟨s, by rw [hs]; exact ⟨rfl, rfl, rfl⟩, ?_⟩
  exact an_unfinished_executor_advances query_hashJoin_is_runnable hreach
    ⟨0, .inl (by rw [hs]; simp)⟩

end hero.morsel_driven
