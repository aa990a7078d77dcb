-- The law of the hand-over between the two threads of a device: the log of what they do is made of
-- rounds, one for each vertex, and a round that has begun can always come to its end.
import HeroDB.Progress

namespace hero.morsel_driven

open runtime_layer query_graph transition

/-! ## The log of a device -/

/-- What the two threads of a device do with `process_vertex`, each with the vertex it holds. -/
inductive Event
  | wrote (v : Nat)
  | gave (v : Nat)
  | observed (v : Nat)
  | compiled (v : Nat)
  | started (v : Nat)
  | completed (v : Nat)
  | stopped (v : Nat)
  | answered (v : Nat)
  | left (v : Nat)
deriving DecidableEq

/-- The device thread writes `process_vertex`, sets `ready`, and leaves its wait. -/
def device_event (s : Shared) (l : Lane) : Option Event :=
  match l.device with
  | .pop => s.ex_processing_queue.head?.map .wrote
  | .stop => some (.wrote INT_MAX)
  | .set_ready _ => some (.gave l.process_vertex)
  | .test_processed _ => if l.processed then some (.left l.process_vertex) else none
  | _ => none

/-- The worker observes `ready`, compiles and executes or takes the branch that ends it, and sets
`processed`. -/
def worker_event (l : Lane) : Option Event :=
  match l.worker with
  | .test_ready => if l.ready then some (.observed l.process_vertex) else none
  | .test_stop => if l.process_vertex = INT_MAX then some (.stopped l.process_vertex) else none
  | .compile => some (.compiled l.process_vertex)
  | .execute => some (.started l.process_vertex)
  | .complete => some (.completed l.process_vertex)
  | .set_processed _ => some (.answered l.process_vertex)
  | _ => none

/-- What a step does on device `i`. -/
def State.event {n : Nat} (i : Fin n) (s : State n) : Action n → Option Event
  | .run j .device => if j = i then device_event s.shared (s.lane i) else none
  | .run j .worker => if j = i then worker_event (s.lane i) else none
  | .spurious _ _ => none

/-- The threads of the devices, on any graph of fewer than `INT_MAX` vertices and any queue of its
vertices. -/
def device_threads (K : Kernels) {n : Nat} (drive : Fin n → Device) :
    System (State n) (Action n) where
  init s := s.shared.machine.dag.num_vertices < INT_MAX ∧
    (∀ v ∈ s.shared.ex_processing_queue, v < s.shared.machine.dag.num_vertices) ∧
    ∀ i, ∃ v, v < s.shared.machine.dag.num_vertices ∧ s.lane i = Lane.start v
  step := step K drive

/-! ## The law -/

def work (v : Nat) : List Event :=
  if v = INT_MAX then [.stopped v] else [.compiled v, .started v, .completed v]

def hand_over (v : Nat) : List Event :=
  .gave v :: .observed v :: (work v ++ [.answered v, .left v])

/-- One round: the vertices that the device thread wrote, and the one that it handed over. -/
structure Round where
  writes : List Nat
  v : Nat

def Round.log (r : Round) : List Event := r.writes.map .wrote ++ hand_over r.v

/-- The worker is between its observation of `ready` and its setting of `processed`. -/
def WorkerPc.has_vertex : WorkerPc → Bool
  | .clear_ready | .test_stop | .compile | .execute | .complete | .flag _ | .set_processed _ => true
  | _ => false

def Action.of {n : Nat} (i : Fin n) : Action n → Prop
  | .run j _ => j = i
  | .spurious _ _ => False

/-- The law of the hand-over. The log is made of rounds, of which the last may have come to any
place, no step of any thread changes the vertex that the worker has, and the two threads of the
device can bring the last round to its end. -/
structure HandsOver (K : Kernels) {n : Nat} (drive : Fin n → Device) (i : Fin n) (s : State n)
    (log : List Event) : Prop where
  rounds : ∃ (rs : List Round) (writes : List Nat), (∀ r ∈ rs, r.v ≠ INT_MAX) ∧
    log <+: rs.flatMap Round.log ++ Round.log ⟨writes, INT_MAX⟩
  kept : (s.lane i).worker.has_vertex = true → ∀ a t, step K drive s a = some t →
    (t.lane i).process_vertex = (s.lane i).process_vertex
  answered : ∃ t log', ((device_threads K drive).watched (State.event i)).Run
      (fun _ a => a.of i) (s, log) (t, log') ∧
    ∃ (rs : List Round) (writes : List Nat), log' = rs.flatMap Round.log ++ writes.map .wrote ∧
      (.stopped INT_MAX ∈ log' → (t.lane i).worker = .finished)

/-! ## How far a round has come -/

/-- What a worker has done with its vertex, before it sets `processed`. -/
def WorkerPc.progress (v : Nat) : WorkerPc → List Event
  | .clear_ready | .test_stop | .compile => [.observed v]
  | .execute => [.observed v, .compiled v]
  | .complete => [.observed v, .compiled v, .started v]
  | .flag _ | .set_processed false => [.observed v, .compiled v, .started v, .completed v]
  | .set_processed true => [.observed v, .stopped v]
  | _ => []

/-- What the two threads have done with the vertex of the last hand-over. -/
def Lane.progress (l : Lane) : List Event :=
  match l.device.stage with
  | .born | .prepares => []
  | .waits =>
    .gave l.process_vertex ::
      (if l.processed then .observed l.process_vertex ::
        (work l.process_vertex ++ [.answered l.process_vertex])
      else l.worker.progress l.process_vertex)
  | .returns => if l.device.last then hand_over l.process_vertex else []

/-- The log is that of whole rounds, of the writes since then, and of the last hand-over. -/
def Logged (l : Lane) (log : List Event) : Prop :=
  ∃ (rs : List Round) (writes : List Nat), (∀ r ∈ rs, r.v ≠ INT_MAX) ∧
    log = rs.flatMap Round.log ++ writes.map .wrote ++ l.progress

section progress

variable {N : Nat} {l l' : Lane} {log : List Event} {dev : Device} {s s' : Shared} {K : Kernels}
  {i : Nat}

theorem progress_of_prepares (hd : l.device.stage = .prepares) : l.progress = [] := by
  rw [Lane.progress, hd]

theorem progress_of_waits (hd : l.device.stage = .waits) :
    l.progress = .gave l.process_vertex ::
      (if l.processed then .observed l.process_vertex ::
        (work l.process_vertex ++ [.answered l.process_vertex])
      else l.worker.progress l.process_vertex) := by
  rw [Lane.progress, hd]

theorem progress_of_returns (hd : l.device.stage = .returns) :
    l.progress = if l.device.last then hand_over l.process_vertex else [] := by
  rw [Lane.progress, hd]

/-- A step that the log does not see, and that leaves the round where it is. -/
theorem Logged.silent {e : Option Event} (h : Logged l log) (he : e = none)
    (hp : l'.progress = l.progress) : Logged l' (log ++ e.toList) := by
  obtain ⟨rs, writes, hrs, rfl⟩ := h
  rw [he, Option.toList_none, List.append_nil]
  exact ⟨rs, writes, hrs, by rw [hp]⟩

/-- A step of the preparation of a vertex. -/
theorem Logged.prepare {e : Option Event} (h : Logged l log) (he : e = none)
    (hd : l.device.stage = .prepares) (hd' : l'.device.stage = .prepares) :
    Logged l' (log ++ e.toList) :=
  h.silent he (by rw [progress_of_prepares hd, progress_of_prepares hd'])

theorem Logged.grows {e : Event} (h : Logged l log) (hp : l'.progress = l.progress ++ [e]) :
    Logged l' (log ++ [e]) := by
  obtain ⟨rs, writes, hrs, rfl⟩ := h
  exact ⟨rs, writes, hrs, by rw [hp, List.append_assoc]⟩

theorem Logged.write {v : Nat} (h : Logged l log) (hp : l.progress = []) (hp' : l'.progress = []) :
    Logged l' (log ++ [.wrote v]) := by
  obtain ⟨rs, writes, hrs, rfl⟩ := h
  refine ⟨rs, writes ++ [v], hrs, ?_⟩
  rw [hp, hp', List.map_append]
  simp

/-- The device thread leaves its wait: the round is whole. -/
theorem Logged.leave {v : Nat} (h : Logged l log) (hv : v ≠ INT_MAX)
    (hp : l.progress ++ [.left v] = hand_over v) (hp' : l'.progress = []) :
    Logged l' (log ++ [.left v]) := by
  obtain ⟨rs, writes, hrs, rfl⟩ := h
  refine ⟨rs ++ [⟨writes, v⟩], [], ?_, ?_⟩
  · intro r hr
    rcases List.mem_append.mp hr with hr | hr
    · exact hrs r hr
    · rw [List.mem_singleton.mp hr]
      exact hv
  · rw [hp', List.append_assoc, hp, List.flatMap_append, List.flatMap_singleton, Round.log]
    simp

/-! ## The steps of the device thread -/

theorem progress_wait {l' : Lane} (hd : l.device.stage = .waits) (hd' : l'.device.stage = .waits)
    (hv : l'.process_vertex = l.process_vertex) (hp : l'.processed = l.processed)
    (hw : l'.worker.progress l.process_vertex = l.worker.progress l.process_vertex) :
    l'.progress = l.progress := by
  rw [progress_of_waits hd, progress_of_waits hd', hv, hp, hw]

theorem progress_of_worker_waits {w : WorkerPc} (v : Nat) (hw : w.waits = true) :
    w.progress v = [] := by
  cases w with
  | lock | test_ready | asleep _ => rfl
  | notify last => rfl
  | _ => cases hw

theorem notify_worker_progress (l : Lane) (v : Nat) :
    l.notify_worker.worker.progress v = l.worker.progress v := by
  unfold Lane.notify_worker
  split
  · rename_i ha
    rw [ha]
    rfl
  · rfl

/-- A step of the device thread keeps the log. -/
theorem logged_device (hN : N ≤ INT_MAX) (hok : LaneOk N l) (hmove : DeviceMove dev s l s' l')
    (h : Logged l log) : Logged l' (log ++ (device_event s l).toList) := by
  cases hmove with
  | spawn hd =>
    exact h.silent (by rw [device_event, hd]) (by rw [Lane.progress, Lane.progress, hd]; rfl)
  | see_empty hd _ | see_vertex hd _ =>
    exact h.prepare (by rw [device_event, hd]) (by rw [hd]; rfl) rfl
  | pop_fails hd hq =>
    exact h.prepare (by rw [device_event, hd, hq]; rfl) (by rw [hd]; rfl) rfl
  | pop v rest hd hq =>
    rw [device_event, hd, hq]
    exact h.write (progress_of_prepares (by rw [hd]; rfl)) (progress_of_prepares rfl)
  | stop hd =>
    rw [device_event, hd]
    exact h.write (progress_of_prepares (by rw [hd]; rfl)) (progress_of_prepares rfl)
  | set_device hd | read_again hd | all_read hd | size_input hd | set_input hd
  | prepare_output hd =>
    exact h.prepare (by rw [device_event, hd]) (by rw [hd]; rfl) rfl
  | read e rest input_set hd =>
    exact h.prepare (by rw [device_event, hd]) (by rw [hd]; rfl) rfl
  | lock_ready last hd _ =>
    exact h.prepare (by rw [device_event, hd]) (by rw [hd]; rfl) rfl
  | set_ready last hd =>
    obtain ⟨hwaits, -, hp⟩ := hok.phase.of_prepares (by rw [hd]; rfl)
    have hnone := @progress_of_prepares l (by rw [hd]; rfl)
    rw [device_event, hd]
    refine h.grows ?_
    rw [hnone, progress_of_waits rfl]
    simp [hp, progress_of_worker_waits _ hwaits]
  | notify last hd =>
    refine h.silent (by rw [device_event, hd]) (progress_wait (by rw [hd]; rfl) rfl
      (notify_worker_process_vertex l) ?_ (notify_worker_progress l _))
    unfold Lane.notify_worker
    split <;> rfl
  | lock_wait last hd _ | wake last hd _ =>
    exact h.silent (by rw [device_event, hd]) (progress_wait (by rw [hd]; rfl) rfl rfl rfl rfl)
  | sleep last hd hp =>
    exact h.silent (by simp [device_event, hd, hp])
      (progress_wait (by rw [hd]; rfl) rfl rfl rfl rfl)
  | see_processed last hd hp =>
    have hwhole : l.progress ++ [.left l.process_vertex] = hand_over l.process_vertex := by
      rw [progress_of_waits (by rw [hd]; rfl), if_pos hp, hand_over]
      simp
    have hevent : device_event s l = some (.left l.process_vertex) := by
      simp [device_event, hd, hp]
    have hvertex := hok.vertex
    rw [hd] at hvertex
    rw [hevent]
    cases last with
    | false =>
      have hlt : l.process_vertex < N := hvertex
      exact h.leave (by omega) hwhole (progress_of_returns rfl)
    | true =>
      refine h.grows ?_
      rw [hwhole]
      exact progress_of_returns rfl
  | unlock_wait hd | unlock_last hd | clear_processed hd =>
    exact h.silent (by rw [device_event, hd]) (by rw [Lane.progress, Lane.progress, hd]; rfl)
  | join hd _ =>
    exact h.silent (by rw [device_event, hd]) (by rw [Lane.progress, Lane.progress, hd]; rfl)

/-! ## The steps of the worker thread -/

theorem progress_worker {pc : WorkerPc} (ready : Bool) (m : Option Thread)
    (h : pc.progress l.process_vertex = l.worker.progress l.process_vertex) :
    ({ l with worker := pc, ready, m } : Lane).progress = l.progress := by
  unfold Lane.progress
  rw [h]

/-- The worker does one more thing with the vertex. -/
theorem progress_worker_grows {pc : WorkerPc} {e : Event} (hd : l.device.stage = .waits)
    (hp : l.processed = false)
    (h : pc.progress l.process_vertex = l.worker.progress l.process_vertex ++ [e]) :
    ({ l with worker := pc } : Lane).progress = l.progress ++ [e] := by
  have hnow := progress_of_waits hd
  have hnext := @progress_of_waits { l with worker := pc } hd
  rw [hnow, hnext]
  simp [hp, h]

theorem WorkerPc.of_has_vertex {w : WorkerPc} (h : w.has_vertex = true) :
    w.waits = false ∧ w ≠ .unborn ∧ ∀ last, w.done last = false := by
  cases w with
  | clear_ready | test_stop | compile | execute | complete | flag _ | set_processed _ =>
    exact ⟨rfl, by simp, fun _ => rfl⟩
  | _ => cases h

/-- A worker that has a vertex and has cleared `ready` works for a device thread that waits. -/
theorem LaneOk.of_works (hok : LaneOk N l) (hw : l.worker.has_vertex = true)
    (hclear : l.worker ≠ .clear_ready) : l.device.stage = .waits ∧
      l.worker.works l.device.last = true ∧ l.processed = false := by
  obtain ⟨hwaits, hborn, hdone⟩ := WorkerPc.of_has_vertex hw
  cases hok.phase with
  | taken hd hw' _ hp => exact ⟨hd, hw', hp⟩
  | born _ hw' => exact absurd hw' hborn
  | prepared _ hw' => simp [hwaits] at hw'
  | given _ hw' => simp [hwaits, hclear] at hw'
  | returned _ hw' => simp [hdone] at hw'

/-- A step of the worker thread keeps the log. -/
theorem logged_worker (hN : N ≤ INT_MAX) (hok : LaneOk N l) (hmove : WorkerMove K i s l s' l')
    (h : Logged l log) : Logged l' (log ++ (worker_event l).toList) := by
  cases hmove with
  | lock hw _ | wake hw _ =>
    exact h.silent (by rw [worker_event, hw]) (progress_worker l.ready _ (by rw [hw]; rfl))
  | sleep hw hr =>
    exact h.silent (by simp [worker_event, hw, hr]) (progress_worker l.ready _ (by rw [hw]; rfl))
  | see_ready hw hr =>
    have hevent : worker_event l = some (.observed l.process_vertex) := by
      simp [worker_event, hw, hr]
    rw [hevent]
    cases hok.phase with
    | given hd _ _ hp => exact h.grows (progress_worker_grows hd hp (by rw [hw]; rfl))
    | _ _ _ hr' => simp [hr'] at hr
  | clear_ready hw =>
    exact h.silent (by rw [worker_event, hw]) (progress_worker false l.m (by rw [hw]; rfl))
  | see_stop hw hv =>
    obtain ⟨hd, -, hp⟩ := hok.of_works (by rw [hw]; rfl) (by simp [hw])
    have hevent : worker_event l = some (.stopped l.process_vertex) := by
      simp [worker_event, hw, hv]
    rw [hevent]
    exact h.grows (progress_worker_grows hd hp (by rw [hw]; rfl))
  | see_vertex hw hv =>
    exact h.silent (by simp [worker_event, hw, hv])
      (progress_worker l.ready l.m (by rw [hw]; rfl))
  | compile hw | execute hw | complete hw =>
    obtain ⟨hd, -, hp⟩ := hok.of_works (by rw [hw]; rfl) (by simp [hw])
    rw [worker_event, hw]
    exact h.grows (progress_worker_grows hd hp (by rw [hw]; rfl))
  | flag e rest hw =>
    exact h.silent (by rw [worker_event, hw]) (progress_worker l.ready l.m (by rw [hw]; rfl))
  | all_flagged hw =>
    exact h.silent (by rw [worker_event, hw]) (progress_worker l.ready l.m (by rw [hw]; rfl))
  | set_processed last hw =>
    obtain ⟨hd, hworks, hp⟩ := hok.of_works (by rw [hw]; rfl) (by simp [hw])
    have hlast : last = l.device.last := by
      rw [hw] at hworks
      simpa [WorkerPc.works] using hworks
    rw [worker_event, hw]
    refine h.grows ?_
    have hnow := progress_of_waits hd
    have hnext := @progress_of_waits { l with processed := true, worker := .unlock last } hd
    rw [hnow, hnext, hw, hp]
    have hdone : (WorkerPc.set_processed last).progress l.process_vertex =
        .observed l.process_vertex :: work l.process_vertex := by
      have hiff := hok.last_iff hN
      rw [← hlast] at hiff
      cases last with
      | true => simp [WorkerPc.progress, work, hiff.mp rfl]
      | false =>
        have hv : l.process_vertex ≠ INT_MAX := fun hv => by simpa using hiff.mpr hv
        simp [WorkerPc.progress, work, hv]
    simp [hdone]
  | unlock last hw =>
    exact h.silent (by rw [worker_event, hw]) (progress_worker l.ready none (by rw [hw]; rfl))
  | notify hw | notify_last hw =>
    obtain ⟨pc, heq, hstage, -, hlast, -, -⟩ := notify_device_eq l
    rw [heq]
    refine h.silent (by rw [worker_event, hw]) ?_
    unfold Lane.progress
    simp only [hstage, hlast, hw]
    rfl

theorem logged_spurious {t : Thread} (hstep : spurious_step t l = some l') (h : Logged l log) :
    Logged l' log := by
  obtain ⟨-, hcase⟩ := spurious_move hstep
  have hnone : log = log ++ (none : Option Event).toList := by simp
  rw [hnone]
  rcases hcase with ⟨last, notified, hd, rfl⟩ | ⟨notified, hw, rfl⟩
  · exact h.silent rfl (progress_wait (by rw [hd]; rfl) rfl rfl rfl rfl)
  · exact h.silent rfl (progress_worker l.ready _ (by rw [hw]; rfl))

/-! ## The rounds of a log -/

/-- A worker deals with its vertex as the vertex says. -/
theorem worker_progress_begins {last : Bool} {v : Nat} {w : WorkerPc}
    (hw : w.works last = true ∨ w.waits = true ∨ w = .clear_ready)
    (hlast : last = true ↔ v = INT_MAX) : w.progress v <+: .observed v :: work v := by
  have hvertex : last = false → work v = [.compiled v, .started v, .completed v] := by
    intro hfalse
    have hv : v ≠ INT_MAX := fun hv => by simp [hlast.mpr hv] at hfalse
    rw [work, if_neg hv]
  rcases hw with hw | hw | rfl
  · cases w with
    | test_stop => exact ⟨work v, rfl⟩
    | compile | execute | complete | flag _ =>
      rw [hvertex (by simpa [WorkerPc.works] using hw)]
      simp [WorkerPc.progress]
    | set_processed b =>
      obtain rfl : b = last := by simpa [WorkerPc.works] using hw
      cases b with
      | true => simp [WorkerPc.progress, work, hlast.mp rfl]
      | false => simp [WorkerPc.progress, hvertex rfl]
    | _ => cases hw
  · rw [progress_of_worker_waits v hw]
    exact List.nil_prefix
  · exact ⟨work v, rfl⟩

theorem progress_begins (hN : N ≤ INT_MAX) (hok : LaneOk N l) :
    l.progress <+: hand_over l.process_vertex := by
  have hworker (hd : l.device.stage = .waits) (hp : l.processed = false)
      (hw : l.worker.works l.device.last = true ∨ l.worker.waits = true ∨ l.worker = .clear_ready) :
      l.progress <+: hand_over l.process_vertex := by
    rw [progress_of_waits hd, hp, hand_over]
    have hprefix := worker_progress_begins hw (hok.last_iff hN)
    refine List.cons_prefix_cons.mpr ⟨rfl, hprefix.trans ?_⟩
    exact List.cons_prefix_cons.mpr ⟨rfl, List.prefix_append _ _⟩
  cases hok.phase with
  | born hd =>
    rw [Lane.progress, hd]
    exact List.nil_prefix
  | prepared hd =>
    rw [progress_of_prepares hd]
    exact List.nil_prefix
  | given hd hw _ hp => exact hworker hd hp (Or.inr hw)
  | taken hd hw _ hp => exact hworker hd hp (Or.inl hw)
  | returned hd _ _ hp =>
    rcases hd with hd | hd
    · rw [progress_of_waits hd, if_pos hp, hand_over]
      simp
    · rw [progress_of_returns hd]
      split
      · exact List.prefix_rfl
      · exact List.nil_prefix

theorem Logged.rounds (hN : N ≤ INT_MAX) (hok : LaneOk N l) (h : Logged l log) :
    ∃ (rs : List Round) (writes : List Nat), (∀ r ∈ rs, r.v ≠ INT_MAX) ∧
      log <+: rs.flatMap Round.log ++ Round.log ⟨writes, INT_MAX⟩ := by
  obtain ⟨rs, writes, hrs, rfl⟩ := h
  have hprefix : rs.flatMap Round.log ++ writes.map .wrote ++ l.progress <+:
      rs.flatMap Round.log ++ Round.log ⟨writes, l.process_vertex⟩ := by
    rw [List.append_assoc, Round.log]
    exact (List.prefix_append_right_inj _).mpr
      ((List.prefix_append_right_inj _).mpr (progress_begins hN hok))
  by_cases hv : l.process_vertex = INT_MAX
  · rw [hv] at hprefix
    exact ⟨rs, writes, hrs, hprefix⟩
  · refine ⟨rs ++ [⟨writes, l.process_vertex⟩], [], ?_, ?_⟩
    · intro r hr
      rcases List.mem_append.mp hr with hr | hr
      · exact hrs r hr
      · rw [List.mem_singleton.mp hr]
        exact hv
    · rw [List.flatMap_append, List.flatMap_singleton]
      exact hprefix.trans (List.prefix_append _ _)

/-! ## The vertex that the worker has -/

/-- A move of a device keeps the vertex that its worker has. -/
theorem vertex_kept (hok : LaneOk N l) (hw : l.worker.has_vertex = true)
    (hmove : Move K dev i s l s' l') : l'.process_vertex = l.process_vertex := by
  have hbusy : l.device.stage ≠ .prepares := by
    intro hd
    have hwaits := (hok.phase.of_prepares hd).1
    rw [(WorkerPc.of_has_vertex hw).1] at hwaits
    cases hwaits
  cases hmove with
  | device hm =>
    cases hm with
    | pop _ _ hd _ | stop hd =>
      rw [hd] at hbusy
      exact absurd rfl hbusy
    | notify last _ => exact notify_worker_process_vertex l
    | _ => rfl
  | worker hm =>
    cases hm with
    | notify _ | notify_last _ => exact notify_device_process_vertex l
    | _ => rfl
  | spurious hm =>
    obtain ⟨-, hcase⟩ := spurious_move hm
    rcases hcase with ⟨last, notified, -, rfl⟩ | ⟨notified, -, rfl⟩
    · rfl
    · rfl

end progress

/-! ## The end of a round -/

/-- The steps of the device thread that are left before it leaves its wait, or, as long as its
vertex is not processed, before it sleeps. -/
def DevicePc.ahead (processed : Bool) : DevicePc → Nat
  | .notify _ => if processed then 3 else 2
  | .test_processed _ => 1
  | .lock_wait _ | .asleep _ _ => if processed then 2 else 0
  | _ => 0

/-- The steps of the worker that are left before it sets `processed`, for a vertex with so many
out-edges. -/
def WorkerPc.todo (edges : Nat) : WorkerPc → Nat
  | .notify _ => 10 + edges
  | .lock | .asleep _ => 9 + edges
  | .test_ready => 8 + edges
  | .clear_ready => 7 + edges
  | .test_stop => 6 + edges
  | .compile => 5 + edges
  | .execute => 4 + edges
  | .complete => 3 + edges
  | .flag rest => 2 + rest.length
  | .set_processed _ => 1
  | _ => 0

/-- The steps of the worker that are left before it lets its device thread go on. -/
def WorkerPc.rest : WorkerPc → Nat
  | .unlock _ => 2
  | .notify _ | .test_ready => 1
  | _ => 0

/-- The steps that are left before the device thread leaves its wait. -/
def Lane.ahead (g : query_graph) (l : Lane) : Nat :=
  if l.processed then l.device.ahead true + l.worker.rest
  else 6 + l.device.ahead false + l.worker.todo (g.out_edges l.process_vertex).length

/-- A step of one of the two threads brings the round nearer to its end. -/
def Nears (K : Kernels) (dev : Device) (i : Nat) (s : Shared) (l : Lane) : Prop :=
  ∃ th s' l', lane_step K dev i s l th = some (s', l') ∧
    (l'.device.stage = .returns ∨ l'.device.stage = .waits ∧
      l'.ahead s'.machine.dag < l.ahead s.machine.dag)

section ahead

variable {N : Nat} {l : Lane} {dev : Device} {s : Shared} {K : Kernels} {i : Nat}

/-- A device thread that waits and has neither to notify nor the mutex. -/
theorem DevicePc.resting {d : DevicePc} (hd : d.stage = .waits) (hnotify : ∀ last, d ≠ .notify last)
    (htest : ∀ last, d ≠ .test_processed last) :
    (∃ last, d = .lock_wait last) ∨ ∃ last notified, d = .asleep last notified := by
  cases d with
  | lock_wait last => exact Or.inl ⟨last, rfl⟩
  | asleep last notified => exact Or.inr ⟨last, notified, rfl⟩
  | notify last => exact absurd rfl (hnotify last)
  | test_processed last => exact absurd rfl (htest last)
  | _ => cases hd

theorem notify_worker_ahead (l : Lane) (edges : Nat) :
    l.notify_worker.worker.todo edges = l.worker.todo edges ∧
      l.notify_worker.worker.rest = l.worker.rest ∧
      l.notify_worker.processed = l.processed := by
  unfold Lane.notify_worker
  split
  · rename_i ha
    rw [ha]
    exact ⟨rfl, rfl, rfl⟩
  · exact ⟨rfl, rfl, rfl⟩

theorem nears_by_notify {last : Bool} (hd : l.device = .notify last) : Nears K dev i s l := by
  refine ⟨.device, s, { l.notify_worker with device := .lock_wait last },
    by rw [lane_step, device_step, hd], Or.inr ⟨rfl, ?_⟩⟩
  obtain ⟨htodo, hrest, hp⟩ :=
    notify_worker_ahead l (s.machine.dag.out_edges l.process_vertex).length
  unfold Lane.ahead
  simp only [hd, hp, hrest, notify_worker_process_vertex, htodo, DevicePc.ahead]
  split <;> simp

theorem nears_by_test {last : Bool} (hd : l.device = .test_processed last) : Nears K dev i s l := by
  by_cases hp : l.processed = true
  · exact ⟨.device, s, { l with device := .unlock_wait last },
      by rw [lane_step, device_step, hd]; simp [hp], Or.inl rfl⟩
  · refine ⟨.device, s, { l with m := none, device := .asleep last false },
      by rw [lane_step, device_step, hd]; simp [hp], Or.inr ⟨rfl, ?_⟩⟩
    unfold Lane.ahead
    simp [hd, hp, DevicePc.ahead]

theorem nears_by_worker {pc : WorkerPc} {ready : Bool} {m : Option Thread} {s' : Shared}
    (hd : l.device.stage = .waits) (hp : l.processed = false)
    (hstep : worker_step K i s l = some (s', { l with worker := pc, ready, m }))
    (hshape : s'.machine.dag.out_edges l.process_vertex =
      s.machine.dag.out_edges l.process_vertex)
    (hless : pc.todo (s.machine.dag.out_edges l.process_vertex).length <
      l.worker.todo (s.machine.dag.out_edges l.process_vertex).length) : Nears K dev i s l := by
  refine ⟨.worker, s', { l with worker := pc, ready, m }, hstep, Or.inr ⟨hd, ?_⟩⟩
  unfold Lane.ahead
  simp only [hp, hshape]
  simpa using hless

/-- The worker notifies a device thread that waits, and goes on. -/
theorem notify_device_ahead (l : Lane) (processed : Bool) (hd : l.device.stage = .waits) :
    l.notify_device.device.stage = .waits ∧
      l.notify_device.device.ahead processed = l.device.ahead processed ∧
      l.notify_device.processed = l.processed := by
  unfold Lane.notify_device
  split
  · rename_i hasleep
    rw [hasleep]
    exact ⟨rfl, rfl, rfl⟩
  · exact ⟨hd, rfl, rfl⟩

/-- A worker that has a vertex, or is to get one, goes on when its device thread neither has the
mutex nor has to notify it. -/
theorem pending_nears (hok : LaneOk N l) (hd : l.device.stage = .waits) (hp : l.processed = false)
    (hfree : l.device.holds = false) (hnotify : ∀ last, l.device ≠ .notify last) :
    Nears K dev i s l := by
  have hfreem (hw : l.worker.holds = false) : l.m = none := by
    rw [hok.owner, hfree, hw]
    rfl
  cases hok.phase with
  | born hd' => simp [hd] at hd'
  | prepared hd' => simp [hd] at hd'
  | returned _ _ _ hp' => simp [hp] at hp'
  | given _ hw hr _ wakes =>
    cases hpc : l.worker with
    | lock =>
      have hm := hfreem (by rw [hpc]; rfl)
      exact nears_by_worker hd hp (by rw [worker_step, hpc]; exact if_pos hm) rfl
        (by rw [hpc]; simp [WorkerPc.todo])
    | test_ready =>
      exact nears_by_worker hd hp (by rw [worker_step, hpc]; exact if_pos hr) rfl
        (by rw [hpc]; simp [WorkerPc.todo])
    | asleep notified =>
      cases notified with
      | false =>
        obtain ⟨last, hlast⟩ := wakes hpc
        exact absurd hlast (hnotify last)
      | true =>
        have hm := hfreem (by rw [hpc]; rfl)
        exact nears_by_worker hd hp (by rw [worker_step, hpc]; exact if_pos hm) rfl
          (by rw [hpc]; simp [WorkerPc.todo])
    | notify last =>
      rw [hpc] at hw
      cases last with
      | true => simp [WorkerPc.waits] at hw
      | false =>
        obtain ⟨hstage, hahead, hp'⟩ := notify_device_ahead l false hd
        refine ⟨.worker, s, { l.notify_device with worker := .lock },
          by rw [lane_step, worker_step, hpc], Or.inr ⟨hstage, ?_⟩⟩
        unfold Lane.ahead
        simp [hpc, hp, hp', hahead, WorkerPc.todo]
    | clear_ready =>
      exact nears_by_worker hd hp (by rw [worker_step, hpc]) (by rfl)
        (by rw [hpc]; simp [WorkerPc.todo])
    | _ => simp [hpc, WorkerPc.waits] at hw
  | taken _ hw =>
    cases hpc : l.worker with
    | test_stop =>
      by_cases hv : l.process_vertex = INT_MAX
      · exact nears_by_worker hd hp (by rw [worker_step, hpc]; exact if_pos hv) rfl
          (by rw [hpc, WorkerPc.todo, WorkerPc.todo]; omega)
      · exact nears_by_worker hd hp (by rw [worker_step, hpc]; exact if_neg hv) rfl
          (by rw [hpc]; simp [WorkerPc.todo])
    | compile =>
      exact nears_by_worker hd hp (by rw [worker_step, hpc]) (by rfl)
        (by rw [hpc]; simp [WorkerPc.todo])
    | execute =>
      exact nears_by_worker hd hp (by rw [worker_step, hpc]) (by rfl)
        (by rw [hpc]; simp [WorkerPc.todo])
    | complete =>
      exact nears_by_worker hd hp (by rw [worker_step, hpc]) (by rfl)
        (by rw [hpc]; simp [WorkerPc.todo])
    | flag rest =>
      cases rest with
      | nil =>
        exact nears_by_worker hd hp (by rw [worker_step, hpc]) (by rfl)
          (by rw [hpc]; simp [WorkerPc.todo])
      | cons e rest =>
        exact nears_by_worker hd hp (by rw [worker_step, hpc]) (by rfl)
          (by rw [hpc]; simp [WorkerPc.todo])
    | set_processed last =>
      refine ⟨.worker, s, { l with processed := true, worker := .unlock last },
        by rw [lane_step, worker_step, hpc], Or.inr ⟨hd, ?_⟩⟩
      have hdevice : l.device.ahead true ≤ 3 := by
        cases l.device with
        | _ => simp [DevicePc.ahead]
      unfold Lane.ahead
      simp only [hp, hpc, WorkerPc.todo, WorkerPc.rest]
      simp
      omega
    | _ => simp [hpc, WorkerPc.works] at hw

/-- A worker that has processed a vertex lets its device thread go on. -/
theorem returned_nears (hok : LaneOk N l) (hd : l.device.stage = .waits) (hp : l.processed = true)
    (hnotify : ∀ last, l.device ≠ .notify last) (htest : ∀ last, l.device ≠ .test_processed last) :
    Nears K dev i s l := by
  have hrest := DevicePc.resting hd hnotify htest
  have hfree : l.device.holds = false := by
    rcases hrest with ⟨last, hpc⟩ | ⟨last, notified, hpc⟩ <;> rw [hpc] <;> rfl
  cases hok.phase with
  | returned _ hw hr _ wakes _ =>
    by_cases hholds : l.worker.holds = true
    · rcases WorkerPc.tests_of_done hw hholds with ⟨b, hpc⟩ | hpc
      · refine ⟨.worker, s, { l with m := none, worker := .notify b },
          by rw [lane_step, worker_step, hpc], Or.inr ⟨hd, ?_⟩⟩
        unfold Lane.ahead
        simp [hp, hpc, WorkerPc.rest]
      · refine ⟨.worker, s, { l with m := none, worker := .asleep false },
          by rw [lane_step, worker_step, hpc]; simp [hr], Or.inr ⟨hd, ?_⟩⟩
        unfold Lane.ahead
        simp [hp, hpc, WorkerPc.rest]
    · have hm : l.m = none := by
        rw [hok.owner, hfree, Bool.eq_false_iff.mpr hholds]
        rfl
      rcases hrest with ⟨last, hpc⟩ | ⟨last, notified, hpc⟩
      · refine ⟨.device, s, { l with m := some .device, device := .test_processed last },
          by rw [lane_step, device_step, hpc]; simp [hm], Or.inr ⟨rfl, ?_⟩⟩
        unfold Lane.ahead
        simp [hp, hpc, DevicePc.ahead]
      · cases notified with
        | true =>
          refine ⟨.device, s, { l with m := some .device, device := .test_processed last },
            by rw [lane_step, device_step, hpc]; simp [hm], Or.inr ⟨rfl, ?_⟩⟩
          unfold Lane.ahead
          simp [hp, hpc, DevicePc.ahead]
        | false =>
          obtain ⟨hstage, hahead, hp'⟩ := notify_device_ahead l true hd
          obtain ⟨b, hb | hb⟩ := wakes last hpc
          · rw [hb] at hholds
            exact absurd rfl hholds
          · cases b with
            | false =>
              refine ⟨.worker, s, { l.notify_device with worker := .lock },
                by rw [lane_step, worker_step, hb], Or.inr ⟨hstage, ?_⟩⟩
              unfold Lane.ahead
              simp [hp, hp', hb, hahead, WorkerPc.rest]
            | true =>
              refine ⟨.worker, s, { l.notify_device with worker := .finished },
                by rw [lane_step, worker_step, hb], Or.inr ⟨hstage, ?_⟩⟩
              unfold Lane.ahead
              simp [hp, hp', hb, hahead, WorkerPc.rest]
  | _ _ _ _ hp' => simp [hp] at hp'

theorem nears (hok : LaneOk N l) (hd : l.device.stage = .waits) : Nears K dev i s l := by
  by_cases hnotify : ∃ last, l.device = .notify last
  · obtain ⟨last, hlast⟩ := hnotify
    exact nears_by_notify hlast
  · by_cases htest : ∃ last, l.device = .test_processed last
    · obtain ⟨last, hlast⟩ := htest
      exact nears_by_test hlast
    · have hnotify' : ∀ last, l.device ≠ .notify last := fun last h => hnotify ⟨last, h⟩
      have htest' : ∀ last, l.device ≠ .test_processed last := fun last h => htest ⟨last, h⟩
      cases hp : l.processed with
      | true => exact returned_nears hok hd hp hnotify' htest'
      | false =>
        refine pending_nears hok hd hp ?_ hnotify'
        rcases DevicePc.resting hd hnotify' htest' with ⟨last, hpc⟩ | ⟨last, notified, hpc⟩ <;>
          rw [hpc] <;> rfl

end ahead

/-! ## The runs -/

/-- What holds in every state of a run: the graph is small, the queue holds its vertices, and each
device is in order. -/
structure InOrder {n : Nat} (s : State n) : Prop where
  small : s.shared.machine.dag.num_vertices < INT_MAX
  queue : ∀ v ∈ s.shared.ex_processing_queue, v < s.shared.machine.dag.num_vertices
  lanes : ∀ i, LaneOk s.shared.machine.dag.num_vertices (s.lane i)

section runs

variable {K : Kernels} {n : Nat} {drive : Fin n → Device} {s t : State n} {i : Fin n}
  {log : List Event}

theorem inOrder_init (h : (device_threads K drive).init s) : InOrder s := by
  obtain ⟨hsmall, hqueue, hlanes⟩ := h
  refine ⟨hsmall, hqueue, fun i => ?_⟩
  obtain ⟨v, hv, hlane⟩ := hlanes i
  rw [hlane]
  exact laneOk_start hv

theorem inOrder_step {a : Action n} (h : InOrder s) (hstep : step K drive s a = some t) :
    InOrder t := by
  obtain ⟨i, s', l', rfl, hmove⟩ := step_move hstep
  have hsame : s'.machine.dag.num_vertices = s.shared.machine.dag.num_vertices :=
    (move_shape hmove).num_vertices
  have hsub := (move_queue hmove).subset
  refine ⟨?_, ?_, ?_⟩
  · rw [put_shared, hsame]
    exact h.small
  · intro v hv
    rw [put_shared, hsame]
    exact h.queue v (hsub hv)
  · intro j
    rw [put_shared, hsame]
    refine put_forall s i (s', l') ?_ (fun j _ => h.lanes j) j
    cases hmove with
    | device hm => exact laneOk_device h.queue hm (h.lanes i)
    | worker hm => exact laneOk_worker (Nat.le_of_lt h.small) hm (h.lanes i)
    | spurious hm => exact laneOk_spurious hm (h.lanes i)

theorem logged_init (h : (device_threads K drive).init s) : Logged (s.lane i) [] := by
  obtain ⟨v, -, hlane⟩ := h.2.2 i
  rw [hlane]
  exact ⟨[], [], by simp, rfl⟩

theorem logged_step {a : Action n} (h : InOrder s) (hlog : Logged (s.lane i) log)
    (hstep : step K drive s a = some t) : Logged (t.lane i) (log ++ (s.event i a).toList) := by
  have hN := Nat.le_of_lt h.small
  have helsewhere (hnone : s.event i a = none) (hlane : t.lane i = s.lane i) :
      Logged (t.lane i) (log ++ (s.event i a).toList) := by
    rw [hnone, hlane, Option.toList_none, List.append_nil]
    exact hlog
  cases a with
  | run j thread =>
    by_cases hj : j = i
    · subst hj
      cases thread with
      | device =>
        obtain ⟨s', l', rfl, hmove⟩ := step_device hstep
        rw [put_lane_self, State.event, if_pos rfl]
        exact logged_device hN (h.lanes j) hmove hlog
      | worker =>
        obtain ⟨s', l', rfl, hmove⟩ := step_worker hstep
        rw [put_lane_self, State.event, if_pos rfl]
        exact logged_worker hN (h.lanes j) hmove hlog
    · cases thread with
      | device =>
        obtain ⟨s', l', rfl, -⟩ := step_device hstep
        exact helsewhere (by rw [State.event, if_neg hj]) (put_lane_ne s j _ (Ne.symm hj))
      | worker =>
        obtain ⟨s', l', rfl, -⟩ := step_worker hstep
        exact helsewhere (by rw [State.event, if_neg hj]) (put_lane_ne s j _ (Ne.symm hj))
  | spurious j thread =>
    simp only [step, Option.map_eq_some_iff] at hstep
    obtain ⟨l', hmove, rfl⟩ := hstep
    rw [State.event, Option.toList_none, List.append_nil]
    by_cases hj : j = i
    · subst hj
      rw [put_lane_self]
      exact logged_spurious hmove hlog
    · rw [put_lane_ne s j _ (Ne.symm hj)]
      exact hlog

/-- A step of a thread of the device, on the log. -/
theorem watched_of_step {th : Thread} (hstep : step K drive s (.run i th) = some t) :
    ((device_threads K drive).watched (State.event i)).step (s, log) (.run i th) =
      some (t, log ++ (s.event i (.run i th)).toList) := by
  have hsystem : (device_threads K drive).step s (.run i th) = some t := hstep
  simp [System.watched, hsystem]

theorem round_ends (h : InOrder s) (hlog : Logged (s.lane i) log) :
    ∃ t log', ((device_threads K drive).watched (State.event i)).Run (fun _ a => a.of i)
        (s, log) (t, log') ∧
      InOrder t ∧ Logged (t.lane i) log' ∧ (t.lane i).device.stage ≠ .waits := by
  induction hk : (s.lane i).ahead s.shared.machine.dag using Nat.strong_induction_on
    generalizing s log with
  | _ k ih =>
    by_cases hd : (s.lane i).device.stage = .waits
    · obtain ⟨th, s', l', hlane, hnext⟩ :=
        @nears _ (s.lane i) (drive i) s.shared K i (h.lanes i) hd
      have hstep := step_of_lane_step hlane
      have hlog' := logged_step h hlog hstep
      have hwatched := @watched_of_step _ _ _ _ _ _ log _ hstep
      have hof : (Action.run i th).of i := rfl
      rcases hnext with hreturns | ⟨hwaits, hless⟩
      · refine ⟨_, _, .snoc .refl hof hwatched, inOrder_step h hstep, hlog', ?_⟩
        rw [put_lane_self, hreturns]
        simp
      · obtain ⟨t, log', hrun, hend⟩ := ih _ (by
          rw [put_lane_self, put_shared, ← hk]
          exact hless) (inOrder_step h hstep) hlog' rfl
        exact ⟨t, log', .head hof hwatched hrun, hend⟩
    · exact ⟨s, log, .refl, h, hlog, hd⟩

theorem not_stopped {rs : List Round} {writes : List Nat} (hrs : ∀ r ∈ rs, r.v ≠ INT_MAX) :
    .stopped INT_MAX ∉ rs.flatMap Round.log ++ writes.map .wrote := by
  intro hmem
  rcases List.mem_append.mp hmem with hmem | hmem
  · obtain ⟨r, hr, hlog⟩ := List.mem_flatMap.mp hmem
    have hv := hrs r hr
    simp [Round.log, hand_over, work, hv] at hlog
  · simp at hmem

/-- A worker that has answered the sentinel exits. -/
theorem worker_exits (h : InOrder s) (hd : (s.lane i).device.stage = .returns)
    (hlast : (s.lane i).device.last = true) :
    ∃ t, ((device_threads K drive).watched (State.event i)).Run (fun _ a => a.of i)
        (s, log) (t, log) ∧ (t.lane i).worker = .finished := by
  have hdone : (s.lane i).worker = .finished ∨ (s.lane i).worker = .notify true := by
    cases (h.lanes i).phase with
    | returned _ hw _ _ _ free =>
      rw [hlast] at hw
      cases hpc : (s.lane i).worker with
      | finished => exact Or.inl rfl
      | unlock b => exact absurd hpc (free hd b)
      | notify b =>
        cases b with
        | true => exact Or.inr rfl
        | false => simp [hpc, WorkerPc.done] at hw
      | _ => simp [hpc, WorkerPc.done] at hw
    | _ hd' => simp [hd] at hd'
  rcases hdone with hw | hw
  · exact ⟨s, .refl, hw⟩
  · have hlane : lane_step K (drive i) i s.shared (s.lane i) .worker =
        some (s.shared, { (s.lane i).notify_device with worker := .finished }) := by
      rw [lane_step, worker_step, hw]
    have hwatched := @watched_of_step _ _ _ _ _ _ log _ (step_of_lane_step hlane)
    have hof : (Action.run i .worker).of i := rfl
    have hevent : s.event i (.run i .worker) = none := by
      rw [State.event, if_pos rfl, worker_event, hw]
    rw [hevent, Option.toList_none, List.append_nil] at hwatched
    refine ⟨_, .snoc .refl hof hwatched, ?_⟩
    rw [put_lane_self]

/-- The end of the last round: its answer, and for the sentinel the exit of the worker. -/
theorem round_answered (h : InOrder s) (hlog : Logged (s.lane i) log) :
    ∃ t log', ((device_threads K drive).watched (State.event i)).Run (fun _ a => a.of i)
        (s, log) (t, log') ∧
      ∃ (rs : List Round) (writes : List Nat), log' = rs.flatMap Round.log ++ writes.map .wrote ∧
        (.stopped INT_MAX ∈ log' → (t.lane i).worker = .finished) := by
  obtain ⟨t, log', hrun, horder, hlog', hends⟩ := @round_ends K n drive s i log h hlog
  obtain ⟨rs, writes, hrs, heq⟩ := id hlog'
  by_cases hlast : (t.lane i).device.stage = .returns ∧ (t.lane i).device.last = true
  · obtain ⟨u, hexit, hfinished⟩ := @worker_exits K n drive t i log' horder hlast.1 hlast.2
    refine ⟨u, log', hrun.trans hexit, rs ++ [⟨writes, (t.lane i).process_vertex⟩], [], ?_,
      fun _ => hfinished⟩
    rw [heq, progress_of_returns hlast.1, if_pos hlast.2, List.flatMap_append,
      List.flatMap_singleton, Round.log]
    simp
  · have hnone : (t.lane i).progress = [] := by
      unfold Lane.progress
      cases hstage : (t.lane i).device.stage with
      | born => rfl
      | prepares => rfl
      | waits => exact absurd hstage hends
      | returns => exact if_neg (fun hl => hlast ⟨hstage, hl⟩)
    rw [hnone, List.append_nil] at heq
    refine ⟨t, log', hrun, rs, writes, heq, fun hstopped => ?_⟩
    rw [heq] at hstopped
    exact absurd hstopped (not_stopped hrs)

/-- In every run of the threads, on every device, each hand-over is answered by one compile and one
execution of the vertex that was handed over, or for the sentinel by the exit of the worker, the
vertex stays the same until then, and the device thread leaves its wait behind it. -/
theorem every_hand_over_is_answered (K : Kernels) {n : Nat} (drive : Fin n → Device) (i : Fin n)
    (s : State n) (log : List Event)
    (h : ((device_threads K drive).watched (State.event i)).Reachable (s, log)) :
    HandsOver K drive i s log := by
  have hboth : InOrder s ∧ Logged (s.lane i) log := by
    refine System.Reachable.invariant (I := fun t => InOrder t.1 ∧ Logged (t.1.lane i) t.2) h ?_ ?_
    · rintro ⟨s, log⟩ ⟨hinit, hlog⟩
      obtain rfl : log = [] := hlog
      exact ⟨inOrder_init hinit, logged_init hinit⟩
    · rintro ⟨s, log⟩ a ⟨t, log'⟩ ⟨horder, hlog⟩ hstep
      obtain ⟨hsystem, hlog'⟩ := System.watched_step hstep
      obtain rfl : log' = log ++ (s.event i a).toList := hlog'
      exact ⟨inOrder_step horder hsystem, logged_step horder hlog hsystem⟩
  obtain ⟨horder, hlog⟩ := hboth
  refine ⟨hlog.rounds (Nat.le_of_lt horder.small) (horder.lanes i), fun hw a t hstep => ?_,
    round_answered horder hlog⟩
  obtain ⟨j, s', l', rfl, hmove⟩ := step_move hstep
  by_cases hj : i = j
  · subst hj
    rw [put_lane_self]
    exact vertex_kept (horder.lanes i) hw hmove
  · rw [put_lane_ne s j _ hj]

end runs

/-- The log of a device that has the hash join for itself: the build, the probe and the sentinel. -/
theorem the_hash_join_is_handed_over : ∃ s : State 1,
    HandsOver no_kernels (fun _ : Fin 1 => (0, 0)) 0 s
      ([⟨[tests.s2], tests.s2⟩, ⟨[tests.s3], tests.s3⟩, ⟨[INT_MAX], INT_MAX⟩].flatMap Round.log) := by
  have hrun : (((device_threads no_kernels (fun _ : Fin 1 => (0, 0))).watched
      (State.event 0)).exec (query_hashJoin.initial 1 0, []) (alone 0)).map (fun t => t.2) =
      some ([⟨[tests.s2], tests.s2⟩, ⟨[tests.s3], tests.s3⟩,
        ⟨[INT_MAX], INT_MAX⟩].flatMap Round.log) := by
    decide +kernel
  rw [Option.map_eq_some_iff] at hrun
  obtain ⟨⟨s, log⟩, hexec, hlog⟩ := hrun
  obtain rfl : log = _ := hlog
  have hstart : (device_threads no_kernels (fun _ : Fin 1 => (0, 0))).init
      (query_hashJoin.initial 1 0) :=
    ⟨by decide +kernel, by decide +kernel, fun _ => ⟨0, by decide +kernel, rfl⟩⟩
  exact ⟨s, every_hand_over_is_answered no_kernels _ 0 s _
    ⟨_, ⟨hstart, rfl⟩, System.run_of_exec hexec⟩⟩

end hero.morsel_driven
