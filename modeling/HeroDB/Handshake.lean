-- The handshake of the two threads of a device: what one step of each thread can do, and the
-- invariant of the flags, the mutex and the condition variable that both keep.
import HeroDB.Exchange

namespace hero.morsel_driven

open runtime_layer

/-! ## What a step can do -/

/-- What one step of a device thread can do. -/
inductive DeviceMove (dev : Device) (s : Shared) (l : Lane) : Shared → Lane → Prop
  | spawn (h : l.device = .spawn) :
    DeviceMove dev s l s { l with device := .test_empty, worker := .lock }
  | see_empty (h : l.device = .test_empty) (hq : s.ex_processing_queue = []) :
    DeviceMove dev s l s { l with device := .stop }
  | see_vertex (h : l.device = .test_empty) (hq : s.ex_processing_queue ≠ []) :
    DeviceMove dev s l s { l with device := .pop }
  | pop_fails (h : l.device = .pop) (hq : s.ex_processing_queue = []) :
    DeviceMove dev s l s { l with device := .set_device }
  | pop (v : Nat) (rest : List Nat) (h : l.device = .pop)
      (hq : s.ex_processing_queue = v :: rest) :
    DeviceMove dev s l { s with ex_processing_queue := rest }
      { l with process_vertex := v, device := .set_device }
  | set_device (h : l.device = .set_device) :
    DeviceMove dev s l
      { s with machine := s.machine.modify_vertex l.process_vertex (set_device dev) }
      { l with device := .spin (s.machine.dag.in_edges l.process_vertex) true }
  | read (e : Nat) (rest : List Nat) (input_set : Bool) (h : l.device = .spin (e :: rest) input_set) :
    DeviceMove dev s l s
      { l with device := .spin rest (input_set && (s.machine.dag.edge e).ready_for_next_step) }
  | read_again (h : l.device = .spin [] false) :
    DeviceMove dev s l s
      { l with device := .spin (s.machine.dag.in_edges l.process_vertex) true }
  | all_read (h : l.device = .spin [] true) :
    DeviceMove dev s l s { l with device := .size_input }
  | size_input (h : l.device = .size_input) :
    DeviceMove dev s l
      { s with machine := s.machine.modify_vertex l.process_vertex (fun n =>
          { n with input_size := data_size_of_input s.machine.dag l.process_vertex }) }
      { l with device := .set_input }
  | set_input (h : l.device = .set_input) :
    DeviceMove dev s l
      { s with machine := runtime_layer.set_input l.process_vertex s.machine }
      { l with device := .prepare_output }
  | prepare_output (h : l.device = .prepare_output) :
    DeviceMove dev s l
      { s with machine := prepare_output_buffer l.process_vertex s.machine }
      { l with device := .lock_ready false }
  | stop (h : l.device = .stop) :
    DeviceMove dev s l s { l with process_vertex := INT_MAX, device := .lock_ready true }
  | lock_ready (last : Bool) (h : l.device = .lock_ready last) (hm : l.m = none) :
    DeviceMove dev s l s { l with m := some .device, device := .set_ready last }
  | set_ready (last : Bool) (h : l.device = .set_ready last) :
    DeviceMove dev s l s { l with ready := true, m := none, device := .notify last }
  | notify (last : Bool) (h : l.device = .notify last) :
    DeviceMove dev s l s { l.notify_worker with device := .lock_wait last }
  | lock_wait (last : Bool) (h : l.device = .lock_wait last) (hm : l.m = none) :
    DeviceMove dev s l s { l with m := some .device, device := .test_processed last }
  | see_processed (last : Bool) (h : l.device = .test_processed last) (hp : l.processed = true) :
    DeviceMove dev s l s { l with device := .unlock_wait last }
  | sleep (last : Bool) (h : l.device = .test_processed last) (hp : l.processed = false) :
    DeviceMove dev s l s { l with m := none, device := .asleep last false }
  | wake (last : Bool) (h : l.device = .asleep last true) (hm : l.m = none) :
    DeviceMove dev s l s { l with m := some .device, device := .test_processed last }
  | unlock_wait (h : l.device = .unlock_wait false) :
    DeviceMove dev s l s { l with m := none, device := .clear_processed }
  | unlock_last (h : l.device = .unlock_wait true) :
    DeviceMove dev s l s { l with m := none, device := .join }
  | clear_processed (h : l.device = .clear_processed) :
    DeviceMove dev s l s { l with processed := false, device := .test_empty }
  | join (h : l.device = .join) (hw : l.worker = .finished) :
    DeviceMove dev s l s { l with device := .finished }

/-- The moves of a device thread are all that `device_step` does. -/
theorem device_move {dev : Device} {s s' : Shared} {l l' : Lane}
    (h : device_step dev s l = some (s', l')) : DeviceMove dev s l s' l' := by
  unfold device_step at h
  split at h
  all_goals try split at h
  all_goals simp only [Option.some.injEq, Prod.mk.injEq, reduceCtorEq] at h
  all_goals obtain ⟨rfl, rfl⟩ := h
  all_goals first
    | exact .spawn ‹_›
    | exact .see_empty ‹_› ‹_›
    | exact .see_vertex ‹_› ‹_›
    | exact .pop_fails ‹_› ‹_›
    | exact .pop _ _ ‹_› ‹_›
    | exact .set_device ‹_›
    | exact .all_read ‹_›
    | exact .read_again ‹_›
    | exact .read _ _ _ ‹_›
    | exact .size_input ‹_›
    | exact .set_input ‹_›
    | exact .prepare_output ‹_›
    | exact .stop ‹_›
    | exact .lock_ready _ ‹_› ‹_›
    | exact .set_ready _ ‹_›
    | exact .notify _ ‹_›
    | exact .lock_wait _ ‹_› ‹_›
    | exact .see_processed _ ‹_› ‹_›
    | exact .sleep _ ‹_› (Bool.eq_false_iff.mpr ‹_›)
    | exact .wake _ ‹_› ‹_›
    | exact .unlock_wait ‹_›
    | exact .unlock_last ‹_›
    | exact .clear_processed ‹_›
    | exact .join ‹_› ‹_›

/-- What one step of a worker thread can do. -/
inductive WorkerMove (K : Kernels) (i : Nat) (s : Shared) (l : Lane) : Shared → Lane → Prop
  | lock (h : l.worker = .lock) (hm : l.m = none) :
    WorkerMove K i s l s { l with m := some .worker, worker := .test_ready }
  | see_ready (h : l.worker = .test_ready) (hr : l.ready = true) :
    WorkerMove K i s l s { l with worker := .clear_ready }
  | sleep (h : l.worker = .test_ready) (hr : l.ready = false) :
    WorkerMove K i s l s { l with m := none, worker := .asleep false }
  | wake (h : l.worker = .asleep true) (hm : l.m = none) :
    WorkerMove K i s l s { l with m := some .worker, worker := .test_ready }
  | clear_ready (h : l.worker = .clear_ready) :
    WorkerMove K i s l s { l with ready := false, worker := .test_stop }
  | see_stop (h : l.worker = .test_stop) (hv : l.process_vertex = INT_MAX) :
    WorkerMove K i s l s { l with worker := .set_processed true }
  | see_vertex (h : l.worker = .test_stop) (hv : l.process_vertex ≠ INT_MAX) :
    WorkerMove K i s l s { l with worker := .compile }
  | compile (h : l.worker = .compile) :
    WorkerMove K i s l { s with machine := compile_task l.process_vertex s.machine }
      { l with worker := .execute }
  | execute (h : l.worker = .execute) :
    WorkerMove K i s l
      { s with
        machine := execute_node K 0 l.process_vertex s.machine
        started := s.started ++ [(i, l.process_vertex)] }
      { l with worker := .complete }
  | complete (h : l.worker = .complete) :
    WorkerMove K i s l { s with completed := s.completed ++ [l.process_vertex] }
      { l with worker := .flag (s.machine.dag.out_edges l.process_vertex) }
  | flag (e : Nat) (rest : List Nat) (h : l.worker = .flag (e :: rest)) :
    WorkerMove K i s l
      { s with machine := s.machine.modify_edge e (fun d =>
          { d with ready_for_next_step := true }) }
      { l with worker := .flag rest }
  | all_flagged (h : l.worker = .flag []) :
    WorkerMove K i s l s { l with worker := .set_processed false }
  | set_processed (last : Bool) (h : l.worker = .set_processed last) :
    WorkerMove K i s l s { l with processed := true, worker := .unlock last }
  | unlock (last : Bool) (h : l.worker = .unlock last) :
    WorkerMove K i s l s { l with m := none, worker := .notify last }
  | notify (h : l.worker = .notify false) :
    WorkerMove K i s l s { l.notify_device with worker := .lock }
  | notify_last (h : l.worker = .notify true) :
    WorkerMove K i s l s { l.notify_device with worker := .finished }

/-- The moves of a worker thread are all that `worker_step` does. -/
theorem worker_move {K : Kernels} {i : Nat} {s s' : Shared} {l l' : Lane}
    (h : worker_step K i s l = some (s', l')) : WorkerMove K i s l s' l' := by
  unfold worker_step at h
  split at h
  all_goals try split at h
  all_goals simp only [Option.some.injEq, Prod.mk.injEq, reduceCtorEq] at h
  all_goals obtain ⟨rfl, rfl⟩ := h
  all_goals first
    | exact .lock ‹_› ‹_›
    | exact .see_ready ‹_› ‹_›
    | exact .sleep ‹_› (Bool.eq_false_iff.mpr ‹_›)
    | exact .wake ‹_› ‹_›
    | exact .clear_ready ‹_›
    | exact .see_stop ‹_› ‹_›
    | exact .see_vertex ‹_› ‹_›
    | exact .compile ‹_›
    | exact .execute ‹_›
    | exact .complete ‹_›
    | exact .all_flagged ‹_›
    | exact .flag _ _ ‹_›
    | exact .set_processed _ ‹_›
    | exact .unlock _ ‹_›
    | exact .notify ‹_›
    | exact .notify_last ‹_›

/-- A wake-up without a notification takes a sleeper back to its test. -/
theorem spurious_move {t : Thread} {l l' : Lane} (h : spurious_step t l = some l') :
    l.m = none ∧
      ((∃ last notified, l.device = .asleep last notified ∧
          l' = { l with m := some .device, device := .test_processed last }) ∨
        (∃ notified, l.worker = .asleep notified ∧
          l' = { l with m := some .worker, worker := .test_ready })) := by
  unfold spurious_step at h
  split at h
  case isFalse => cases h
  case isTrue hm =>
    refine ⟨hm, ?_⟩
    split at h
    · left
      exact ⟨_, _, ‹_›, by simpa using h.symm⟩
    · right
      exact ⟨_, ‹_›, by simpa using h.symm⟩
    · cases h

/-! ## The invariant of one device -/

/-- The device thread has the mutex. -/
def DevicePc.holds : DevicePc → Bool
  | .set_ready _ | .test_processed _ | .unlock_wait _ => true
  | _ => false

/-- The handshake after the loop. -/
def DevicePc.last : DevicePc → Bool
  | .lock_ready last | .set_ready last | .notify last | .lock_wait last | .test_processed last
  | .asleep last _ | .unlock_wait last => last
  | .join | .finished => true
  | _ => false

/-- Who has the vertex of a device: nobody yet, the device thread, its worker, or the device
thread again. -/
inductive Stage
  | born
  | prepares
  | waits
  | returns
deriving DecidableEq

def DevicePc.stage : DevicePc → Stage
  | .spawn => .born
  | .test_empty | .pop | .set_device | .spin _ _ | .size_input | .set_input | .prepare_output
  | .stop | .lock_ready _ | .set_ready _ => .prepares
  | .notify _ | .lock_wait _ | .test_processed _ | .asleep _ _ => .waits
  | .unlock_wait _ | .clear_processed | .join | .finished => .returns

/-- The worker thread has the mutex. -/
def WorkerPc.holds : WorkerPc → Bool
  | .test_ready | .clear_ready | .test_stop | .compile | .execute | .complete | .flag _
  | .set_processed _ | .unlock _ => true
  | _ => false

/-- The worker thread has no vertex. -/
def WorkerPc.waits : WorkerPc → Bool
  | .lock | .test_ready | .asleep _ | .notify false => true
  | _ => false

/-- The worker thread has the vertex of its device. -/
def WorkerPc.works (last : Bool) : WorkerPc → Bool
  | .test_stop => true
  | .compile | .execute | .complete | .flag _ => !last
  | .set_processed b => b == last
  | _ => false

/-- The worker thread is done with the vertex of its device. -/
def WorkerPc.done (last : Bool) : WorkerPc → Bool
  | .unlock b => b == last
  | .notify true | .finished => last
  | .lock | .test_ready | .asleep _ | .notify false => !last
  | _ => false

/-- The worker thread runs the vertex of its device. -/
def WorkerPc.runs : WorkerPc → Bool
  | .compile | .execute | .complete | .flag _ => true
  | _ => false

/-- Where a vertex is between the two threads of a device. A worker that sleeps on a ready vertex
will get a notification, and so will a device thread that sleeps on a processed one. -/
inductive Phase (l : Lane) : Prop
  | born (hd : l.device.stage = .born) (hw : l.worker = .unborn) (hr : l.ready = false)
      (hp : l.processed = false)
  | prepared (hd : l.device.stage = .prepares) (hw : l.worker.waits = true) (hr : l.ready = false)
      (hp : l.processed = false)
  | given (hd : l.device.stage = .waits) (hw : l.worker.waits = true ∨ l.worker = .clear_ready)
      (hr : l.ready = true) (hp : l.processed = false)
      (wakes : l.worker = .asleep false → ∃ last, l.device = .notify last)
  | taken (hd : l.device.stage = .waits) (hw : l.worker.works l.device.last = true)
      (hr : l.ready = false) (hp : l.processed = false)
  | returned (hd : l.device.stage = .waits ∨ l.device.stage = .returns)
      (hw : l.worker.done l.device.last = true) (hr : l.ready = false) (hp : l.processed = true)
      (wakes : ∀ last, l.device = .asleep last false →
        ∃ b, l.worker = .unlock b ∨ l.worker = .notify b)
      (free : l.device.stage = .returns → ∀ b, l.worker ≠ .unlock b)

/-- The invariant of one device: the mutex has the owner that the two threads show, the vertex is
below `N` in the loop and `INT_MAX` after it, and the flags fit the phase. -/
structure LaneOk (N : Nat) (l : Lane) : Prop where
  owner : l.m = if l.device.holds then some .device else if l.worker.holds then some .worker
    else none
  exclusive : l.device.holds = true → l.worker.holds = false
  vertex : if l.device.last then l.process_vertex = INT_MAX else l.process_vertex < N
  phase : Phase l

theorem laneOk_start {N v : Nat} (h : v < N) : LaneOk N (Lane.start v) where
  owner := rfl
  exclusive := fun _ => rfl
  vertex := h
  phase := .born rfl rfl rfl rfl

section lane

variable {N : Nat} {l : Lane}

theorem Phase.of_prepares (h : Phase l) (hd : l.device.stage = .prepares) :
    l.worker.waits = true ∧ l.ready = false ∧ l.processed = false := by
  cases h with
  | prepared _ hw hr hp => exact ⟨hw, hr, hp⟩
  | returned hd' => rcases hd' with hd' | hd' <;> simp [hd'] at hd
  | _ hd' => simp [hd'] at hd

/-- A free mutex is held by neither thread. -/
theorem LaneOk.free (h : LaneOk N l) (hm : l.m = none) :
    l.device.holds = false ∧ l.worker.holds = false := by
  have howner := h.owner
  rw [hm] at howner
  cases hd : l.device.holds with
  | true => simp [hd] at howner
  | false =>
    cases hw : l.worker.holds with
    | true => simp [hd, hw] at howner
    | false => exact ⟨rfl, rfl⟩

theorem LaneOk.processed_of_returns (h : LaneOk N l) (hd : l.device.stage = .returns) :
    l.processed = true := by
  cases h.phase with
  | returned _ _ _ hp => exact hp
  | _ hd' => simp [hd'] at hd

theorem WorkerPc.holds_of_works {last : Bool} {w : WorkerPc} (h : w.works last = true) :
    w.holds = true := by
  cases w <;> first | rfl | cases h

/-- The sentinel is the vertex only in the handshake after the loop. -/
theorem LaneOk.last_iff (h : LaneOk N l) (hN : N ≤ INT_MAX) :
    l.device.last = true ↔ l.process_vertex = INT_MAX := by
  have hvertex := h.vertex
  cases hlast : l.device.last with
  | true => simpa [hlast] using hvertex
  | false =>
    simp only [hlast, Bool.false_eq_true, if_false] at hvertex
    simp only [Bool.false_eq_true, false_iff]
    omega

theorem LaneOk.of_processed (h : LaneOk N l) (hp : l.processed = true) :
    l.ready = false ∧ l.worker.done l.device.last = true := by
  cases h.phase with
  | returned _ hw hr _ => exact ⟨hr, hw⟩
  | _ _ _ _ hp' => simp [hp'] at hp

theorem WorkerPc.of_runs {w : WorkerPc} (h : w.runs = true) :
    w.waits = false ∧ w ≠ .clear_ready ∧ w ≠ .unborn ∧
      ∀ last, w.done last = false ∧ w.works last = !last := by
  cases w with
  | compile | execute | complete | flag _ =>
    exact ⟨rfl, by simp, by simp, fun _ => ⟨rfl, rfl⟩⟩
  | _ => cases h

/-- While the worker runs a vertex, its device thread waits in the loop. -/
theorem LaneOk.of_runs (h : LaneOk N l) (hw : l.worker.runs = true) :
    l.device.stage = .waits ∧ l.device.last = false ∧ l.ready = false ∧ l.processed = false := by
  obtain ⟨hwaits, hclear, hborn, hdone⟩ := WorkerPc.of_runs hw
  cases h.phase with
  | taken hd hw' hr hp =>
    rw [(hdone _).2] at hw'
    exact ⟨hd, by simpa using hw', hr, hp⟩
  | born _ hw' => exact absurd hw' hborn
  | prepared _ hw' => simp [hwaits] at hw'
  | given _ hw' => simp [hwaits, hclear] at hw'
  | returned _ hw' => simp [(hdone _).1] at hw'

/-- A worker that is done with a vertex and has unlocked waits for the next one. -/
theorem WorkerPc.waits_of_done {w : WorkerPc} (h : w.done false = true)
    (hfree : ∀ b, w ≠ .unlock b) : w.waits = true := by
  cases w with
  | unlock b => exact absurd rfl (hfree b)
  | notify last =>
    cases last with
    | false => rfl
    | true => cases h
  | _ => first | rfl | cases h

/-! ## The steps of the device thread -/

theorem laneOk_spawn (h : LaneOk N l) (hd : l.device = .spawn) :
    LaneOk N { l with device := .test_empty, worker := .lock } := by
  obtain ⟨howner, -, hvertex, hphase⟩ := h
  rw [hd] at hvertex
  cases hphase with
  | born _ hw hr hp =>
    refine ⟨?_, (fun h => by cases h), hvertex, .prepared rfl rfl hr hp⟩
    simpa [hd, hw, DevicePc.holds, WorkerPc.holds] using howner
  | returned hd' => rcases hd' with hd' | hd' <;> simp [hd, DevicePc.stage] at hd'
  | _ hd' => simp [hd, DevicePc.stage] at hd'

/-- A step of the preparation of a vertex. -/
theorem laneOk_prepare {v : Nat} {pc : DevicePc} (h : LaneOk N l)
    (hd : l.device.stage = .prepares) (hh : l.device.holds = false) (hd' : pc.stage = .prepares)
    (hh' : pc.holds = false) (hv : if pc.last then v = INT_MAX else v < N) :
    LaneOk N { l with device := pc, process_vertex := v } := by
  obtain ⟨howner, -, -, hphase⟩ := h
  obtain ⟨hw, hr, hp⟩ := hphase.of_prepares hd
  refine ⟨?_, fun h => by simp [hh'] at h, hv, .prepared hd' hw hr hp⟩
  simpa [hh, hh'] using howner

/-- A step of the preparation that keeps the vertex. -/
theorem laneOk_prepare_same {pc : DevicePc} (h : LaneOk N l)
    (hd : l.device.stage = .prepares) (hh : l.device.holds = false) (hd' : pc.stage = .prepares)
    (hh' : pc.holds = false) (hlast : pc.last = l.device.last) :
    LaneOk N { l with device := pc } :=
  laneOk_prepare h hd hh hd' hh' (by rw [hlast]; exact h.vertex)

theorem laneOk_lock_ready {last : Bool} (h : LaneOk N l) (hd : l.device = .lock_ready last)
    (hm : l.m = none) : LaneOk N { l with m := some .device, device := .set_ready last } := by
  obtain ⟨-, hw⟩ := h.free hm
  obtain ⟨-, -, hvertex, hphase⟩ := h
  rw [hd] at hvertex
  obtain ⟨hwaits, hr, hp⟩ := hphase.of_prepares (by rw [hd]; rfl)
  exact ⟨rfl, fun _ => hw, hvertex, .prepared rfl hwaits hr hp⟩

theorem laneOk_set_ready {last : Bool} (h : LaneOk N l) (hd : l.device = .set_ready last) :
    LaneOk N { l with ready := true, m := none, device := .notify last } := by
  obtain ⟨-, hexcl, hvertex, hphase⟩ := h
  have hw := hexcl (by rw [hd]; rfl)
  rw [hd] at hvertex
  obtain ⟨hwaits, -, hp⟩ := hphase.of_prepares (by rw [hd]; rfl)
  refine ⟨?_, (fun h => by cases h), hvertex, .given rfl (.inl hwaits) rfl hp ?_⟩
  · simp [hw, DevicePc.holds]
  · exact fun _ => ⟨last, rfl⟩

/-- The device thread moves on while it waits for its worker: it locks, it goes to sleep, or it
wakes up. -/
theorem laneOk_wait {pc : DevicePc} {m' : Option Thread} (h : LaneOk N l)
    (hd : l.device.stage = .waits) (hd' : pc.stage = .waits) (hlast : pc.last = l.device.last)
    (hnotify : ∀ last, l.device ≠ .notify last) (hfree : l.worker.holds = false)
    (hm' : m' = if pc.holds then some .device else none)
    (hsleep : ∀ last, pc = .asleep last false → l.processed = false) :
    LaneOk N { l with m := m', device := pc } := by
  obtain ⟨-, -, hvertex, hphase⟩ := h
  refine ⟨by simp [hm', hfree], fun _ => hfree, by simpa [hlast] using hvertex, ?_⟩
  cases hphase with
  | given _ hw hr hp wakes =>
    refine .given hd' hw hr hp ?_
    intro ha
    obtain ⟨last, he⟩ := wakes ha
    exact absurd he (hnotify last)
  | taken _ hw => simp [WorkerPc.holds_of_works hw] at hfree
  | returned _ hw hr hp _ _ =>
    refine .returned (.inl hd') (by simpa [hlast] using hw) hr hp ?_ ?_
    · intro last he
      simp [hsleep last he] at hp
    · intro he
      simp [hd'] at he
  | _ hd'' => simp [hd''] at hd

theorem laneOk_notify {last : Bool} (h : LaneOk N l) (hd : l.device = .notify last) :
    LaneOk N { l.notify_worker with device := .lock_wait last } := by
  obtain ⟨howner, -, hvertex, hphase⟩ := h
  rw [hd] at hvertex howner
  unfold Lane.notify_worker
  by_cases ha : l.worker = .asleep false
  · rw [if_pos ha]
    refine ⟨by simpa [ha, DevicePc.holds, WorkerPc.holds] using howner, (fun h => by cases h),
      hvertex, ?_⟩
    cases hphase with
    | given _ _ hr hp => exact .given rfl (.inl rfl) hr hp (fun h => by simp at h)
    | taken _ hw => simp [ha, WorkerPc.works] at hw
    | returned _ hw hr hp =>
      refine .returned (.inl rfl) ?_ hr hp (fun _ h => by cases h) (fun h => by cases h)
      simpa [ha, hd, DevicePc.last, WorkerPc.done] using hw
    | _ hd' => simp [hd, DevicePc.stage] at hd'
  · rw [if_neg ha]
    refine ⟨by simpa [DevicePc.holds] using howner, (fun h => by cases h), hvertex, ?_⟩
    cases hphase with
    | given _ hw hr hp => exact .given rfl hw hr hp (fun h => absurd h ha)
    | taken _ hw hr hp => exact .taken rfl (by simpa [hd, DevicePc.last] using hw) hr hp
    | returned _ hw hr hp =>
      refine .returned (.inl rfl) ?_ hr hp (fun _ h => by cases h) (fun h => by cases h)
      simpa [hd, DevicePc.last] using hw
    | _ hd' => simp [hd, DevicePc.stage] at hd'

/-- The device thread moves on after its worker is done. -/
theorem laneOk_return {pc : DevicePc} {m' : Option Thread} (h : LaneOk N l)
    (hp : l.processed = true) (hfree : l.worker.holds = false) (hd' : pc.stage = .returns)
    (hlast : pc.last = l.device.last) (hm' : m' = if pc.holds then some .device else none) :
    LaneOk N { l with m := m', device := pc } := by
  obtain ⟨-, -, hvertex, hphase⟩ := h
  refine ⟨by simp [hm', hfree], fun _ => hfree, by simpa [hlast] using hvertex, ?_⟩
  cases hphase with
  | returned _ hw hr =>
    refine .returned (.inr hd') (by simpa [hlast] using hw) hr hp ?_ ?_
    · rintro last rfl
      cases hd'
    · intro _ b he
      have hunlock : l.worker = .unlock b := he
      rw [hunlock] at hfree
      cases hfree
  | _ _ _ _ hp' => simp [hp'] at hp

theorem laneOk_clear_processed (h : LaneOk N l) (hd : l.device = .clear_processed) :
    LaneOk N { l with processed := false, device := .test_empty } := by
  obtain ⟨howner, hexcl, hvertex, hphase⟩ := h
  rw [hd] at howner hvertex
  refine ⟨by simpa [DevicePc.holds] using howner, (fun h => by cases h), hvertex, ?_⟩
  cases hphase with
  | returned _ hw hr _ _ free =>
    refine .prepared rfl ?_ hr rfl
    exact WorkerPc.waits_of_done (by simpa [hd, DevicePc.last] using hw) (free (by rw [hd]; rfl))
  | _ hd' => simp [hd, DevicePc.stage] at hd'

/-- A step of the device thread keeps the invariant. -/
theorem laneOk_device {dev : Device} {s s' : Shared} {l' : Lane}
    (hq : ∀ v ∈ s.ex_processing_queue, v < N) (hmove : DeviceMove dev s l s' l')
    (h : LaneOk N l) : LaneOk N l' := by
  cases hmove with
  | spawn hd => exact laneOk_spawn h hd
  | see_empty hd _ =>
    exact laneOk_prepare_same h (by rw [hd]; rfl) (by rw [hd]; rfl) rfl rfl (by rw [hd]; rfl)
  | see_vertex hd _ =>
    exact laneOk_prepare_same h (by rw [hd]; rfl) (by rw [hd]; rfl) rfl rfl (by rw [hd]; rfl)
  | pop_fails hd _ =>
    exact laneOk_prepare_same h (by rw [hd]; rfl) (by rw [hd]; rfl) rfl rfl (by rw [hd]; rfl)
  | pop v rest hd he =>
    exact laneOk_prepare h (by rw [hd]; rfl) (by rw [hd]; rfl) rfl rfl
      (hq v (by rw [he]; exact List.mem_cons_self))
  | set_device hd =>
    exact laneOk_prepare_same h (by rw [hd]; rfl) (by rw [hd]; rfl) rfl rfl (by rw [hd]; rfl)
  | read e rest input_set hd =>
    exact laneOk_prepare_same h (by rw [hd]; rfl) (by rw [hd]; rfl) rfl rfl (by rw [hd]; rfl)
  | read_again hd =>
    exact laneOk_prepare_same h (by rw [hd]; rfl) (by rw [hd]; rfl) rfl rfl (by rw [hd]; rfl)
  | all_read hd =>
    exact laneOk_prepare_same h (by rw [hd]; rfl) (by rw [hd]; rfl) rfl rfl (by rw [hd]; rfl)
  | size_input hd =>
    exact laneOk_prepare_same h (by rw [hd]; rfl) (by rw [hd]; rfl) rfl rfl (by rw [hd]; rfl)
  | set_input hd =>
    exact laneOk_prepare_same h (by rw [hd]; rfl) (by rw [hd]; rfl) rfl rfl (by rw [hd]; rfl)
  | prepare_output hd =>
    exact laneOk_prepare_same h (by rw [hd]; rfl) (by rw [hd]; rfl) rfl rfl (by rw [hd]; rfl)
  | stop hd => exact laneOk_prepare h (by rw [hd]; rfl) (by rw [hd]; rfl) rfl rfl rfl
  | lock_ready last hd hm => exact laneOk_lock_ready h hd hm
  | set_ready last hd => exact laneOk_set_ready h hd
  | notify last hd => exact laneOk_notify h hd
  | lock_wait last hd hm =>
    exact laneOk_wait h (by rw [hd]; rfl) rfl (by rw [hd]; rfl) (by simp [hd]) (h.free hm).2 rfl
      (fun _ h => by cases h)
  | see_processed last hd hp =>
    have hw := h.exclusive (by rw [hd]; rfl)
    have hm : l.m = some .device := by rw [h.owner, hd]; rfl
    exact laneOk_return h hp hw rfl (by rw [hd]; rfl) hm
  | sleep last hd hp =>
    exact laneOk_wait h (by rw [hd]; rfl) rfl (by rw [hd]; rfl) (by simp [hd])
      (h.exclusive (by rw [hd]; rfl)) rfl (fun _ _ => hp)
  | wake last hd hm =>
    exact laneOk_wait h (by rw [hd]; rfl) rfl (by rw [hd]; rfl) (by simp [hd]) (h.free hm).2 rfl
      (fun _ h => by cases h)
  | unlock_wait hd =>
    exact laneOk_return h (h.processed_of_returns (by rw [hd]; rfl))
      (h.exclusive (by rw [hd]; rfl)) rfl (by rw [hd]; rfl) rfl
  | unlock_last hd =>
    exact laneOk_return h (h.processed_of_returns (by rw [hd]; rfl))
      (h.exclusive (by rw [hd]; rfl)) rfl (by rw [hd]; rfl) rfl
  | clear_processed hd => exact laneOk_clear_processed h hd
  | join hd hw =>
    have hm : l.m = none := by rw [h.owner, hd, hw]; rfl
    exact laneOk_return h (h.processed_of_returns (by rw [hd]; rfl)) (by rw [hw]; rfl) rfl
      (by rw [hd]; rfl) hm

/-! ## The steps of the worker thread -/

/-- The worker moves on while it has no vertex: it locks, it goes to sleep, or it wakes up. -/
theorem laneOk_idle {pc : WorkerPc} {m' : Option Thread} (h : LaneOk N l)
    (hw : l.worker = .lock ∨ l.worker = .test_ready ∨ ∃ b, l.worker = .asleep b)
    (hw' : pc = .test_ready ∨ pc = .asleep false) (hfree : l.device.holds = false)
    (hm' : m' = if pc.holds then some .worker else none)
    (hsleep : pc = .asleep false → l.ready = false) :
    LaneOk N { l with m := m', worker := pc } := by
  obtain ⟨-, -, hvertex, hphase⟩ := h
  refine ⟨by simp [hm', hfree], fun h => by simp [hfree] at h, hvertex, ?_⟩
  have hwaits : pc.waits = true := by rcases hw' with rfl | rfl <;> rfl
  have hdone : ∀ last, l.worker.done last = true → pc.done last = true := by
    intro last hdone
    rcases hw with hw | hw | ⟨b, hw⟩ <;> rw [hw] at hdone <;> rcases hw' with rfl | rfl <;>
      exact hdone
  cases hphase with
  | born _ hw'' => rcases hw with hw | hw | ⟨b, hw⟩ <;> simp [hw] at hw''
  | prepared hd _ hr hp => exact .prepared hd hwaits hr hp
  | given hd _ hr hp =>
    refine .given hd (.inl hwaits) hr hp ?_
    intro ha
    simp [hsleep ha] at hr
  | taken _ hw'' => rcases hw with hw | hw | ⟨b, hw⟩ <;> simp [hw, WorkerPc.works] at hw''
  | returned hd hw'' hr hp wakes _ =>
    refine .returned hd (hdone _ hw'') hr hp ?_ ?_
    · intro last hd'
      obtain ⟨b, hb⟩ := wakes last hd'
      rcases hw with hw | hw | ⟨b, hw⟩ <;> simp [hw] at hb
    · intro _ b
      rcases hw' with rfl | rfl <;> simp

/-- A free device thread, when the worker holds the mutex. -/
theorem LaneOk.device_free (h : LaneOk N l) (hw : l.worker.holds = true) :
    l.device.holds = false := by
  cases hd : l.device.holds with
  | false => rfl
  | true => simp [h.exclusive hd] at hw

theorem laneOk_see_ready (h : LaneOk N l) (hw : l.worker = .test_ready) (hr : l.ready = true) :
    LaneOk N { l with worker := .clear_ready } := by
  have hfree := h.device_free (by rw [hw]; rfl)
  obtain ⟨howner, -, hvertex, hphase⟩ := h
  rw [hw] at howner
  refine ⟨howner, fun h => by simp [hfree] at h, hvertex, ?_⟩
  cases hphase with
  | given hd _ hr hp => exact .given hd (.inr rfl) hr hp (fun h => by simp at h)
  | _ _ _ hr' => simp [hr'] at hr

theorem laneOk_clear_ready (h : LaneOk N l) (hw : l.worker = .clear_ready) :
    LaneOk N { l with ready := false, worker := .test_stop } := by
  have hfree := h.device_free (by rw [hw]; rfl)
  obtain ⟨howner, -, hvertex, hphase⟩ := h
  rw [hw] at howner
  refine ⟨howner, fun h => by simp [hfree] at h, hvertex, ?_⟩
  cases hphase with
  | given hd _ _ hp => exact .taken hd rfl rfl hp
  | _ _ hw' => simp [hw, WorkerPc.waits, WorkerPc.works, WorkerPc.done] at hw'

/-- The worker moves on with the vertex of its device. -/
theorem laneOk_work {pc : WorkerPc} (h : LaneOk N l) (hw : l.worker.holds = true)
    (hworks : ∀ last, l.worker.works last = true → last = l.device.last → pc.works last = true)
    (hnot : l.worker.waits = false ∧ l.worker ≠ .clear_ready)
    (hdone : ∀ last, l.worker.done last = false) : LaneOk N { l with worker := pc } := by
  have hfree := h.device_free hw
  obtain ⟨howner, -, hvertex, hphase⟩ := h
  cases hphase with
  | taken hd hw' hr hp =>
    have hpc := hworks _ hw' rfl
    refine ⟨?_, fun h => by simp [hfree] at h, hvertex, .taken hd hpc hr hp⟩
    simpa [hfree, hw, WorkerPc.holds_of_works hpc] using howner
  | born _ hw' => simp [hw', WorkerPc.holds] at hw
  | prepared _ hw' => simp [hnot.1] at hw'
  | given _ hw' => simp [hnot.1, hnot.2] at hw'
  | returned _ hw' => simp [hdone] at hw'

theorem laneOk_set_processed {last : Bool} (h : LaneOk N l) (hw : l.worker = .set_processed last) :
    LaneOk N { l with processed := true, worker := .unlock last } := by
  have hfree := h.device_free (by rw [hw]; rfl)
  obtain ⟨howner, -, hvertex, hphase⟩ := h
  rw [hw] at howner
  refine ⟨howner, fun h => by simp [hfree] at h, hvertex, ?_⟩
  cases hphase with
  | taken hd hw' hr _ =>
    rw [hw] at hw'
    refine .returned (.inl hd) hw' hr rfl (fun _ _ => ⟨last, .inl rfl⟩) ?_
    intro hd'
    simp [hd] at hd'
  | _ _ hw' => simp [hw, WorkerPc.waits, WorkerPc.done] at hw'

theorem laneOk_unlock {last : Bool} (h : LaneOk N l) (hw : l.worker = .unlock last) :
    LaneOk N { l with m := none, worker := .notify last } := by
  have hfree := h.device_free (by rw [hw]; rfl)
  obtain ⟨-, -, hvertex, hphase⟩ := h
  refine ⟨by simp [hfree, WorkerPc.holds], fun h => by simp [hfree] at h, hvertex, ?_⟩
  cases hphase with
  | returned hd hw' hr hp =>
    refine .returned hd ?_ hr hp (fun _ _ => ⟨last, .inr rfl⟩) (fun _ _ h => by cases h)
    rw [hw] at hw'
    simp only [WorkerPc.done, beq_iff_eq] at hw'
    cases last <;> simp [← hw', WorkerPc.done]
  | _ _ hw' => simp [hw, WorkerPc.waits, WorkerPc.works] at hw'

@[simp] theorem notify_worker_process_vertex (l : Lane) :
    l.notify_worker.process_vertex = l.process_vertex := by
  unfold Lane.notify_worker
  split <;> rfl

@[simp] theorem notify_device_process_vertex (l : Lane) :
    l.notify_device.process_vertex = l.process_vertex := by
  unfold Lane.notify_device
  split <;> rfl

/-- A notification changes only a device thread that sleeps. -/
theorem notify_device_eq (l : Lane) : ∃ pc : DevicePc, l.notify_device = { l with device := pc } ∧
    pc.stage = l.device.stage ∧ pc.holds = l.device.holds ∧ pc.last = l.device.last ∧
    (∀ last, pc ≠ .asleep last false) ∧ (∀ last, l.device = .notify last → pc = .notify last) := by
  unfold Lane.notify_device
  split
  case h_1 last notified hd =>
    exact ⟨.asleep last true, rfl, by rw [hd]; rfl, by rw [hd]; rfl, by rw [hd]; rfl, by simp,
      by simp [hd]⟩
  case h_2 hd =>
    exact ⟨l.device, rfl, rfl, rfl, rfl, fun last => hd last false, fun _ h => h⟩

/-- The end of a turn of the worker. -/
theorem laneOk_notify_device {last : Bool} {pc : WorkerPc} (h : LaneOk N l)
    (hw : l.worker = .notify last) (hpc : pc.holds = false) (hwaits : last = false → pc.waits = true)
    (hdone : pc.done last = true) (hsleep : pc ≠ .asleep false) (hunlock : ∀ b, pc ≠ .unlock b) :
    LaneOk N { l.notify_device with worker := pc } := by
  obtain ⟨dpc, heq, hstage, hholds, hlast, hawake, hnotify⟩ := notify_device_eq l
  obtain ⟨howner, -, hvertex, hphase⟩ := h
  rw [heq]
  refine ⟨?_, fun _ => hpc, by simpa [hlast] using hvertex, ?_⟩
  · have hfree : (WorkerPc.notify last).holds = false := rfl
    rw [hw, hfree] at howner
    simpa [hpc, hholds] using howner
  · cases hphase with
    | born _ hw' => simp [hw] at hw'
    | prepared hd hw' hr hp =>
      rw [hw] at hw'
      cases last with
      | false => exact .prepared (hstage.trans hd) (hwaits rfl) hr hp
      | true => cases hw'
    | given hd hw' hr hp =>
      rcases hw' with hw' | hw'
      · rw [hw] at hw'
        cases last with
        | false =>
          exact .given (hstage.trans hd) (.inl (hwaits rfl)) hr hp (fun h => absurd h hsleep)
        | true => cases hw'
      · simp [hw] at hw'
    | taken _ hw' => simp [hw, WorkerPc.works] at hw'
    | returned hd hw' hr hp =>
      have hsame : l.device.last = last := by
        rw [hw] at hw'
        revert hw'
        cases last <;> cases l.device.last <;> simp [WorkerPc.done]
      refine .returned (by simpa [hstage] using hd) (by simpa [hlast, hsame] using hdone) hr hp ?_ ?_
      · exact fun last he => absurd he (hawake last)
      · exact fun _ => hunlock

/-- A step of the worker thread keeps the invariant. -/
theorem laneOk_worker {K : Kernels} {i : Nat} {s s' : Shared} {l' : Lane} (hN : N ≤ INT_MAX)
    (hmove : WorkerMove K i s l s' l') (h : LaneOk N l) : LaneOk N l' := by
  cases hmove with
  | lock hw hm => exact laneOk_idle h (.inl hw) (.inl rfl) (h.free hm).1 rfl (fun h => by cases h)
  | see_ready hw hr => exact laneOk_see_ready h hw hr
  | sleep hw hr =>
    exact laneOk_idle h (.inr (.inl hw)) (.inr rfl) (h.device_free (by rw [hw]; rfl)) rfl
      (fun _ => hr)
  | wake hw hm =>
    exact laneOk_idle h (.inr (.inr ⟨_, hw⟩)) (.inl rfl) (h.free hm).1 rfl (fun h => by cases h)
  | clear_ready hw => exact laneOk_clear_ready h hw
  | see_stop hw hv =>
    refine laneOk_work h (by rw [hw]; rfl) ?_ (by simp [hw, WorkerPc.waits])
      (by simp [hw, WorkerPc.done])
    rintro last - rfl
    rw [(h.last_iff hN).mpr hv]
    rfl
  | see_vertex hw hv =>
    refine laneOk_work h (by rw [hw]; rfl) ?_ (by simp [hw, WorkerPc.waits])
      (by simp [hw, WorkerPc.done])
    rintro last - rfl
    have hlast : l.device.last = false := Bool.eq_false_iff.mpr (mt (h.last_iff hN).mp hv)
    rw [hlast]
    rfl
  | compile hw =>
    exact laneOk_work h (by rw [hw]; rfl) (fun _ h _ => by rw [hw] at h; exact h)
      (by simp [hw, WorkerPc.waits]) (by simp [hw, WorkerPc.done])
  | execute hw =>
    exact laneOk_work h (by rw [hw]; rfl) (fun _ h _ => by rw [hw] at h; exact h)
      (by simp [hw, WorkerPc.waits]) (by simp [hw, WorkerPc.done])
  | complete hw =>
    exact laneOk_work h (by rw [hw]; rfl) (fun _ h _ => by rw [hw] at h; exact h)
      (by simp [hw, WorkerPc.waits]) (by simp [hw, WorkerPc.done])
  | flag e rest hw =>
    exact laneOk_work h (by rw [hw]; rfl) (fun _ h _ => by rw [hw] at h; exact h)
      (by simp [hw, WorkerPc.waits]) (by simp [hw, WorkerPc.done])
  | all_flagged hw =>
    refine laneOk_work h (by rw [hw]; rfl) ?_ (by simp [hw, WorkerPc.waits])
      (by simp [hw, WorkerPc.done])
    intro last hlast _
    rw [hw] at hlast
    cases last with
    | false => rfl
    | true => cases hlast
  | set_processed last hw => exact laneOk_set_processed h hw
  | unlock last hw => exact laneOk_unlock h hw
  | notify hw =>
    exact laneOk_notify_device h hw rfl (fun _ => rfl) rfl (by simp) (by simp)
  | notify_last hw =>
    exact laneOk_notify_device h hw rfl (fun h => by cases h) rfl (by simp) (by simp)

/-- A wake-up without a notification keeps the invariant. -/
theorem laneOk_spurious {t : Thread} {l' : Lane} (hstep : spurious_step t l = some l')
    (h : LaneOk N l) : LaneOk N l' := by
  obtain ⟨hm, hcase⟩ := spurious_move hstep
  rcases hcase with ⟨last, notified, hd, rfl⟩ | ⟨notified, hw, rfl⟩
  · exact laneOk_wait h (by rw [hd]; rfl) rfl (by rw [hd]; rfl) (by simp [hd]) (h.free hm).2 rfl
      (fun _ h => by cases h)
  · exact laneOk_idle h (.inr (.inr ⟨_, hw⟩)) (.inl rfl) (h.free hm).1 rfl (fun h => by cases h)

end lane

end hero.morsel_driven
