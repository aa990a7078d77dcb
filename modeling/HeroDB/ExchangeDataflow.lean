-- The law of the data in the exchange executor: in every run in which no pop fails, every launch
-- finds the words that its inputs mean, whatever devices the threads took the operations to, and
-- the sequential executor computes the same words.
import HeroDB.Dependency
import HeroDB.ExactlyOnce
import HeroDB.ExchangeMachine
import Mathlib.Algebra.Order.BigOperators.Group.Finset

namespace hero.morsel_driven

open runtime_layer query_graph transition dataflow

/-! ## The invariant -/

/-- How far the vertex that a device carries has come. -/
def Lane.turn (l : Lane) : Turn :=
  match l.device with
  | .set_device => .queued
  | .spin _ _ | .size_input => .moved
  | .set_input => .sized
  | .prepare_output => .taken
  | .lock_ready _ | .set_ready _ => .prepared
  | _ => if l.worker = .execute then .compiled else .prepared

/-- The marks of the vertices fit the queue, the devices and the logs. -/
structure Marked (mark : Nat → Turn) {n : Nat} (s : State n) : Prop where
  queue : ∀ v ∈ s.shared.ex_processing_queue, mark v = .queued
  lanes : ∀ i, (s.lane i).carries = true → mark (s.lane i).process_vertex = (s.lane i).turn
  started : ∀ e ∈ s.shared.started, mark e.2 = .executed
  completed : ∀ v ∈ s.shared.completed, mark v = .executed
  completing : ∀ i, (s.lane i).worker = .complete → mark (s.lane i).process_vertex = .executed

/-- What holds in every state of a run without a failed pop. -/
structure Running (f : String → List (List Word) → List Int → Nat → List Word) (q : Query) {n : Nat}
    (s : State n) : Prop where
  base : Base q s
  safe : Safe q s
  account : Account q s
  data : ∃ mark out, Marked mark s ∧ Computes f q mark out s.shared.machine

theorem turn_ne_executed (l : Lane) : l.turn ≠ .executed := by
  unfold Lane.turn
  split
  all_goals try split
  all_goals decide

/-! ## The marks -/

section marks

variable {q : Query} {n : Nat} {s : State n} {i : Fin n} {mark : Nat → Turn} {s' : Shared} {l' : Lane}
variable {t : Turn} {v : Nat}

/-- Nobody else has a vertex that a device carries. -/
theorem Account.alone (h : q.Runnable) (ha : Account q s) (hc : (s.lane i).carries = true) :
    q.dag.IsOp (s.lane i).process_vertex ∧
      (s.lane i).process_vertex ∉ s.shared.ex_processing_queue ∧
      ∀ j, j ≠ i → (s.lane j).carries = true →
        (s.lane j).process_vertex ≠ (s.lane i).process_vertex := by
  have hcons := ha.conserved (s.lane i).process_vertex
  have hheld : (s.lane i).held (s.lane i).process_vertex = 1 := by simp [Lane.held, hc]
  have hsum : ∑ j, (s.lane j).held (s.lane i).process_vertex =
      (s.lane i).held (s.lane i).process_vertex +
        ∑ j ∈ Finset.univ.erase i, (s.lane j).held (s.lane i).process_vertex :=
    (Finset.add_sum_erase _ _ (Finset.mem_univ i)).symm
  have hone := List.nodup_iff_count_le_one.mp h.operations_nodup (s.lane i).process_vertex
  refine ⟨h.mem_operations.mp (List.count_pos_iff.mp (by omega)), ?_, ?_⟩
  · rw [← List.count_eq_zero]
    omega
  · intro j hj hcj heq
    have hheldj : (s.lane j).held (s.lane i).process_vertex = 1 := by simp [Lane.held, hcj, heq]
    have hle : (s.lane j).held (s.lane i).process_vertex ≤
        ∑ j ∈ Finset.univ.erase i, (s.lane j).held (s.lane i).process_vertex :=
      Finset.single_le_sum (f := fun j => (s.lane j).held (s.lane i).process_vertex)
        (fun _ _ => Nat.zero_le _) (Finset.mem_erase.mpr ⟨hj, Finset.mem_univ j⟩)
    omega

/-- A move that keeps the marks. -/
theorem Marked.quiet (hm : Marked mark s)
    (hqueue : s'.ex_processing_queue <:+ s.shared.ex_processing_queue)
    (hstarted : s'.started = s.shared.started)
    (hcompleted : ∀ v ∈ s'.completed, mark v = .executed)
    (hlane : l'.carries = true → mark l'.process_vertex = l'.turn)
    (hcompleting : l'.worker = .complete → mark l'.process_vertex = .executed) :
    Marked mark (s.put i (s', l')) where
  queue v hv := hm.queue v (hqueue.subset hv)
  lanes := put_forall (P := fun _ l => l.carries = true → mark l.process_vertex = l.turn) s i _
    hlane (fun j _ => hm.lanes j)
  started e he := hm.started e (hstarted ▸ he)
  completed := hcompleted
  completing := put_forall
    (P := fun _ l => l.worker = .complete → mark l.process_vertex = .executed) s i _
    hcompleting (fun j _ => hm.completing j)

/-- A move that takes the vertex of a device one mark further. -/
theorem Marked.advance (h : q.Runnable) (ha : Account q s) (hm : Marked mark s)
    (hc : (s.lane i).carries = true) (hv : v = (s.lane i).process_vertex)
    (hqueue : s'.ex_processing_queue = s.shared.ex_processing_queue)
    (hstarted : ∀ e ∈ s'.started, e ∈ s.shared.started ∨ (e.2 = v ∧ t = .executed))
    (hcompleted : s'.completed = s.shared.completed)
    (hlane : l'.process_vertex = v ∧ (l'.carries = true → t = l'.turn))
    (hcompleting : l'.worker = .complete → t = .executed) :
    Marked (Function.update mark v t) (s.put i (s', l')) := by
  subst hv
  obtain ⟨-, hnot, hother⟩ := ha.alone h hc
  have hmark := hm.lanes i hc
  have hne : ∀ w, mark w = .executed → w ≠ (s.lane i).process_vertex := by
    rintro w hw rfl
    exact turn_ne_executed _ (hmark.symm.trans hw)
  refine ⟨?_, ?_, ?_, ?_, ?_⟩
  · intro w hw
    rw [put_shared, hqueue] at hw
    rw [Function.update_of_ne (by rintro rfl; exact hnot hw)]
    exact hm.queue w hw
  · refine put_forall (P := fun _ l => l.carries = true →
      Function.update mark (s.lane i).process_vertex t l.process_vertex = l.turn) s i _ ?_ ?_
    · intro hcarries
      rw [hlane.1, Function.update_self]
      exact hlane.2 hcarries
    · intro j hj hcj
      rw [Function.update_of_ne (hother j hj hcj)]
      exact hm.lanes j hcj
  · intro e he
    rcases hstarted e he with hmem | ⟨heq, ht⟩
    · rw [Function.update_of_ne (hne _ (hm.started e hmem))]
      exact hm.started e hmem
    · rw [heq, Function.update_self, ht]
  · intro w hw
    rw [put_shared, hcompleted] at hw
    rw [Function.update_of_ne (hne _ (hm.completed w hw))]
    exact hm.completed w hw
  · refine put_forall (P := fun _ l => l.worker = .complete →
      Function.update mark (s.lane i).process_vertex t l.process_vertex = .executed) s i _ ?_ ?_
    · intro hcomplete
      rw [hlane.1, Function.update_self]
      exact hcompleting hcomplete
    · intro j hj hcomplete
      have hexec := hm.completing j hcomplete
      rw [Function.update_of_ne (hne _ hexec)]
      exact hexec

end marks

/-! ## The moves that keep the machine -/

section quiet

variable {K : Kernels} {dev : Device} {i N : Nat} {s s' : Shared} {l l' : Lane}

/-- The vertex of a device is where it was, if the device still carries it. -/
structure Stays (l l' : Lane) : Prop where
  carries : l'.carries = true →
    l.carries = true ∧ l'.process_vertex = l.process_vertex ∧ l'.turn = l.turn
  completing : l'.worker = .complete → l.worker = .complete ∧ l'.process_vertex = l.process_vertex

theorem Stays.of_lane (hc : l'.carries = true → l.carries = true)
    (ht : l'.carries = true → l'.turn = l.turn) (hw : l'.worker = .complete → l.worker = .complete)
    (hv : l'.process_vertex = l.process_vertex) : Stays l l' :=
  ⟨fun h => ⟨hc h, hv, ht h⟩, fun h => ⟨hw h, hv⟩⟩

/-- A device thread between its vertices. -/
theorem Stays.of_idle (hc : l'.carries = false) (hw : l'.worker ≠ .complete) : Stays l l' :=
  ⟨fun h => absurd (hc.symm.trans h) (by decide), fun h => absurd h hw⟩

theorem not_complete_of_prepares (hok : LaneOk N l) (hd : l.device.stage = .prepares) :
    l.worker ≠ .complete ∧ l.worker ≠ .execute := by
  have hwaits := (hok.phase.of_prepares hd).1
  constructor
  · intro hw
    rw [hw] at hwaits
    cases hwaits
  · intro hw
    rw [hw] at hwaits
    cases hwaits

/-- A move of the device thread that keeps the machine and does not pop. -/
theorem stays_device (hok : LaneOk N l) (hmove : DeviceMove dev s l s' l')
    (hpop : l.device ≠ .pop) (hsame : s'.machine = s.machine)
    (hset : l.device ≠ .set_device ∧ l.device ≠ .size_input ∧ l.device ≠ .set_input ∧
      l.device ≠ .prepare_output) : Stays l l' := by
  cases hmove with
  | pop v rest hd _ => exact absurd hd hpop
  | pop_fails hd _ => exact absurd hd hpop
  | set_device hd => exact absurd hd hset.1
  | size_input hd => exact absurd hd hset.2.1
  | set_input hd => exact absurd hd hset.2.2.1
  | prepare_output hd => exact absurd hd hset.2.2.2
  | stop hd =>
    have hw := (not_complete_of_prepares hok (by rw [hd]; rfl)).1
    exact .of_idle (by simp [Lane.carries, DevicePc.carries, DevicePc.gave]) hw
  | notify last hd =>
    unfold Lane.notify_worker
    by_cases hw : l.worker = .asleep false
    · rw [if_pos hw]
      refine .of_lane ?_ ?_ ?_ rfl
      · simp [Lane.carries, hd, hw, DevicePc.carries, DevicePc.gave, WorkerPc.carries]
      · simp [Lane.turn, hd, hw]
      · simp
    · rw [if_neg hw]
      refine .of_lane ?_ ?_ id rfl
      · simp [Lane.carries, hd, DevicePc.carries, DevicePc.gave]
      · simp [Lane.turn, hd]
  | set_ready last hd =>
    have hw := (not_complete_of_prepares hok (by rw [hd]; rfl)).2
    refine .of_lane ?_ ?_ id rfl
    · simp [Lane.carries, hd, DevicePc.carries, DevicePc.gave]
    · simp [Lane.turn, hd, hw]
  | spawn hd => exact .of_idle (by simp [Lane.carries, DevicePc.carries, DevicePc.gave]) (by simp)
  | _ =>
    refine .of_lane ?_ ?_ id rfl
    · simp [Lane.carries, DevicePc.carries, DevicePc.gave, *]
    · simp [Lane.turn, Lane.carries, DevicePc.carries, DevicePc.gave, *]

/-- A notification does not change what the device thread carries. -/
theorem stays_notify {pc : WorkerPc} (hold : l.worker.carries = false) (hpc : pc.carries = false)
    (hpc' : pc ≠ .complete) (hw : l.worker ≠ .execute) (hw' : pc ≠ .execute) :
    Stays l { l.notify_device with worker := pc } := by
  unfold Lane.notify_device
  split
  case h_1 last notified hd =>
    refine .of_lane ?_ ?_ (fun h => absurd h hpc') rfl
    · simp [Lane.carries, hd, DevicePc.carries, DevicePc.gave, hold, hpc]
    · simp [Lane.turn, hd, hw, hw']
  case h_2 =>
    refine .of_lane ?_ ?_ (fun h => absurd h hpc') rfl
    · simp [Lane.carries, hold, hpc]
    · intro _
      unfold Lane.turn
      simp only [hw, hw', if_false]

/-- A move of the worker that neither builds, launches nor completes a vertex. -/
theorem stays_worker (hok : LaneOk N l) (hmove : WorkerMove K i s l s' l')
    (hset : l.worker ≠ .compile ∧ l.worker ≠ .execute ∧ l.worker ≠ .complete) : Stays l l' := by
  cases hmove with
  | compile hw => exact absurd hw hset.1
  | execute hw => exact absurd hw hset.2.1
  | complete hw => exact absurd hw hset.2.2
  | clear_ready hw =>
    have hr : l.ready = true := by
      cases hok.phase with
      | given _ _ hr => exact hr
      | _ _ hw' => simp [hw, WorkerPc.waits, WorkerPc.works, WorkerPc.done] at hw'
    refine .of_lane ?_ ?_ (by simp) rfl
    · simp [Lane.carries, hr, WorkerPc.carries]
    · intro _
      unfold Lane.turn
      simp [hw]
  | notify hw =>
    exact stays_notify (by rw [hw]; rfl) rfl (by decide) (by rw [hw]; decide) (by decide)
  | notify_last hw =>
    exact stays_notify (by rw [hw]; rfl) rfl (by decide) (by rw [hw]; decide) (by decide)
  | see_stop hw =>
    refine .of_lane ?_ ?_ (by simp) rfl
    · simp only [Lane.carries, WorkerPc.carries, hw, Bool.or_false, Bool.or_true, Bool.and_true,
        Bool.or_eq_true, Bool.and_eq_true]
      exact fun hc => hc.imp_right And.left
    · intro _
      unfold Lane.turn
      simp [hw]
  | _ =>
    refine .of_lane ?_ ?_ (by simp) rfl
    · simp [Lane.carries, WorkerPc.carries, *]
    · intro _
      unfold Lane.turn
      simp [*]

theorem stays_spurious {th : Thread} (hm : spurious_step th l = some l') : Stays l l' := by
  obtain ⟨-, hcase⟩ := spurious_move hm
  rcases hcase with ⟨last, notified, hd, rfl⟩ | ⟨notified, hw, rfl⟩
  · refine .of_lane ?_ ?_ id rfl
    · simp [Lane.carries, hd, DevicePc.carries, DevicePc.gave]
    · simp [Lane.turn, hd]
  · refine .of_lane ?_ ?_ (by simp) rfl
    · simp [Lane.carries, hw, WorkerPc.carries]
    · intro _
      unfold Lane.turn
      simp [hw]

end quiet

/-! ## One step -/

section step

variable {f : String → List (List Word) → List Int → Nat → List Word} {q : Query} {n : Nat}
variable {drive : Fin n → Device} {s t : State n} {i : Fin n} {s' : Shared} {l' : Lane}
variable {mark : Nat → Turn} {out : Nat → Int}

/-- The inputs of a vertex whose device thread has left the spin loop are complete. -/
theorem Marked.ready (hm : Marked mark s) (hs : Safe q s)
    (hknows : (s.lane i).device.knows = true) :
    ∀ e ∈ q.dag.in_edges (s.lane i).process_vertex, Done mark (q.dag.source e) :=
  fun e he => ((hs.lanes i).known hknows e he).imp_right (hm.completed _)

/-- A move that keeps the machine, up to a flag, keeps the marks. -/
theorem Marked.stays (hm : Marked mark s) (hstays : Stays (s.lane i) l')
    (hqueue : s'.ex_processing_queue <:+ s.shared.ex_processing_queue)
    (hstarted : s'.started = s.shared.started) (hcompleted : s'.completed = s.shared.completed) :
    Marked mark (s.put i (s', l')) := by
  refine hm.quiet hqueue hstarted (by rw [hcompleted]; exact hm.completed) ?_ ?_
  · intro hc
    obtain ⟨hcarries, hv, ht⟩ := hstays.carries hc
    rw [hv, ht]
    exact hm.lanes i hcarries
  · intro hw
    obtain ⟨hworker, hv⟩ := hstays.completing hw
    rw [hv]
    exact hm.completing i hworker

/-- A step of the device thread. -/
theorem data_device (h : q.Exchangeable f) (hb : Base q s) (hs : Safe q s) (ha : Account q s)
    (hm : Marked mark s) (hd : Computes f q mark out s.shared.machine)
    (hok : (s.lane i).device = .pop → s.shared.ex_processing_queue ≠ [])
    (hmove : DeviceMove (drive i) s.shared (s.lane i) s' l') :
    ∃ mark' out', Marked mark' (s.put i (s', l')) ∧ Computes f q mark' out' s'.machine := by
  have hstays := stays_device (hb.lanes i) hmove
  have hprepares : (s.lane i).device.stage = .prepares →
      (s.lane i).worker ≠ .complete := fun hstage => (not_complete_of_prepares (hb.lanes i) hstage).1
  have hcarries : (s.lane i).device.carries = true → (s.lane i).carries = true :=
    fun hdevice => by rw [Lane.carries, hdevice, Bool.true_or]
  cases hmove with
  | pop_fails hpc hq => exact absurd hq (hok hpc)
  | pop v rest hpc hq =>
    refine ⟨mark, out, ?_, hd⟩
    have hqueue : rest <:+ s.shared.ex_processing_queue := hq ▸ List.suffix_cons v rest
    refine hm.quiet hqueue rfl hm.completed ?_ ?_
    · intro _
      exact hm.queue v (by rw [hq]; exact List.mem_cons_self)
    · exact fun hw => absurd hw (hprepares (by rw [hpc]; rfl))
  | set_device hpc =>
    have hc := hcarries (by rw [hpc]; rfl)
    have hmark := hm.lanes i hc
    have hop := (ha.alone h.runnable hc).1
    rw [Lane.turn, hpc] at hmark
    refine ⟨_, out, hm.advance h.runnable ha hc rfl rfl (fun _ he => .inl he) rfl ⟨rfl, ?_⟩ ?_,
      hd.move hop hmark (drive i)⟩
    · exact fun _ => rfl
    · exact fun hw => absurd hw (hprepares (by rw [hpc]; rfl))
  | size_input hpc =>
    have hc := hcarries (by rw [hpc]; rfl)
    have hmark := hm.lanes i hc
    have hop := (ha.alone h.runnable hc).1
    rw [Lane.turn, hpc] at hmark
    refine ⟨_, out, hm.advance h.runnable ha hc rfl rfl (fun _ he => .inl he) rfl ⟨rfl, ?_⟩ ?_,
      hd.measure hop hmark (hm.ready hs (by rw [hpc]; rfl))⟩
    · exact fun _ => rfl
    · exact fun hw => absurd hw (hprepares (by rw [hpc]; rfl))
  | set_input hpc =>
    have hc := hcarries (by rw [hpc]; rfl)
    have hmark := hm.lanes i hc
    have hop := (ha.alone h.runnable hc).1
    rw [Lane.turn, hpc] at hmark
    refine ⟨_, out, hm.advance h.runnable ha hc rfl rfl (fun _ he => .inl he) rfl ⟨rfl, ?_⟩ ?_,
      hd.take h hop hmark (hm.ready hs (by rw [hpc]; rfl))⟩
    · exact fun _ => rfl
    · exact fun hw => absurd hw (hprepares (by rw [hpc]; rfl))
  | prepare_output hpc =>
    have hc := hcarries (by rw [hpc]; rfl)
    have hmark := hm.lanes i hc
    have hop := (ha.alone h.runnable hc).1
    rw [Lane.turn, hpc] at hmark
    refine ⟨_, _, hm.advance h.runnable ha hc rfl rfl (fun _ he => .inl he) rfl ⟨rfl, ?_⟩ ?_,
      hd.prepare h hop hmark⟩
    · exact fun _ => rfl
    · exact fun hw => absurd hw (hprepares (by rw [hpc]; rfl))
  | _ =>
    refine ⟨mark, out, hm.stays (hstays ?_ rfl ?_) List.suffix_rfl rfl rfl, hd⟩
    · clear hstays
      simp [*]
    · clear hstays
      simp [*]

/-- A worker that builds or launches a vertex carries it, with the mark that its place shows. -/
theorem carries_of_launch (hok : LaneOk q.dag.num_vertices (s.lane i))
    (hw : (s.lane i).worker = .compile ∨ (s.lane i).worker = .execute) :
    (s.lane i).carries = true ∧
      (s.lane i).turn = if (s.lane i).worker = .execute then .compiled else .prepared := by
  have hruns : (s.lane i).worker.runs = true ∧ (s.lane i).worker.carries = true := by
    rcases hw with hw | hw
    · rw [hw]
      exact ⟨rfl, rfl⟩
    · rw [hw]
      exact ⟨rfl, rfl⟩
  obtain ⟨hstage, hlast, -⟩ := hok.of_runs hruns.1
  unfold Lane.carries Lane.turn
  rw [hruns.2]
  cases hd : (s.lane i).device with
  | notify last | lock_wait last | test_processed last | asleep last _ =>
    rw [hd] at hlast
    have hfalse : last = false := hlast
    subst hfalse
    exact ⟨by simp [DevicePc.gave], rfl⟩
  | _ =>
    rw [hd] at hstage
    cases hstage

/-- A step of the worker. -/
theorem data_worker (h : q.Exchangeable f) (hb : Base q s) (ha : Account q s)
    (hm : Marked mark s) (hd : Computes f q mark out s.shared.machine)
    (hmove : WorkerMove (.total f) i s.shared (s.lane i) s' l') :
    ∃ mark' out', Marked mark' (s.put i (s', l')) ∧ Computes f q mark' out' s'.machine := by
  have hstays := stays_worker (hb.lanes i) hmove
  cases hmove with
  | compile hw =>
    obtain ⟨hc, hturn⟩ := carries_of_launch (hb.lanes i) (.inl hw)
    have hmark := hm.lanes i hc
    have hop := (ha.alone h.runnable hc).1
    rw [hturn, if_neg (by rw [hw]; decide)] at hmark
    refine ⟨_, out, hm.advance h.runnable ha hc rfl rfl (fun _ he => .inl he) rfl ⟨rfl, ?_⟩
      (by simp), hd.compile hop hmark⟩
    · intro _
      obtain ⟨hstage, -⟩ := (hb.lanes i).of_runs (by rw [hw]; rfl)
      unfold Lane.turn
      cases hdevice : (s.lane i).device with
      | notify _ | lock_wait _ | test_processed _ | asleep _ _ => simp
      | _ =>
        rw [hdevice] at hstage
        cases hstage
  | execute hw =>
    obtain ⟨hc, hturn⟩ := carries_of_launch (hb.lanes i) (.inr hw)
    have hmark := hm.lanes i hc
    have hop := (ha.alone h.runnable hc).1
    rw [hturn, if_pos hw] at hmark
    refine ⟨_, out, hm.advance h.runnable ha hc rfl rfl ?_ rfl ⟨rfl, ?_⟩ (fun _ => rfl),
      hd.execute h hop hmark⟩
    · intro e he
      rcases List.mem_append.mp he with he | he
      · exact .inl he
      · rw [List.mem_singleton.mp he]
        exact .inr ⟨rfl, rfl⟩
    · intro hcarries
      obtain ⟨-, -, hr, -⟩ := (hb.lanes i).of_runs (by rw [hw]; rfl)
      have hzero := (held_execute (hb.lanes i) hw (s.lane i).process_vertex).2
      simp [Lane.held, hcarries] at hzero
  | complete hw =>
    refine ⟨mark, out, hm.quiet List.suffix_rfl rfl ?_ ?_ (by simp), hd⟩
    · intro v hv
      rcases List.mem_append.mp hv with hv | hv
      · exact hm.completed v hv
      · rw [List.mem_singleton.mp hv]
        exact hm.completing i hw
    · -- The worker is past the launch, so its device carries nothing.
      intro hcarries
      obtain ⟨hstage, hlast, hr, -⟩ := (hb.lanes i).of_runs (by rw [hw]; rfl)
      have hdevice : (s.lane i).device.carries = false := by
        cases hdevice : (s.lane i).device with
        | notify _ | lock_wait _ | test_processed _ | asleep _ _ => rfl
        | _ =>
          rw [hdevice] at hstage
          cases hstage
      simp [Lane.carries, hdevice, hr, WorkerPc.carries] at hcarries
  | flag e rest hw =>
    refine ⟨mark, out, hm.stays (hstays ?_) List.suffix_rfl rfl rfl, hd.flag e⟩
    rw [hw]
    simp
  | _ =>
    refine ⟨mark, out, hm.stays (hstays ?_) List.suffix_rfl rfl rfl, hd⟩
    clear hstays
    simp [*]

/-- A step of any thread that does not pop from an empty queue. -/
theorem running_step {a : Action n} (h : q.Exchangeable f) (hr : Running f q s)
    (hok : PopFindsAVertex s a) (hstep : step (.total f) drive s a = some t) : Running f q t := by
  have hbase := base_step h.runnable hr.base hstep
  have hsafe := safe_step hr.base hr.safe hstep
  have haccount := account_step h.runnable hr.base hr.account hok hstep
  refine ⟨hbase, hsafe, haccount, ?_⟩
  obtain ⟨mark, out, hm, hd⟩ := hr.data
  cases a with
  | run i thread =>
    cases thread with
    | device =>
      obtain ⟨s', l', rfl, hmove⟩ := step_device hstep
      exact data_device h hr.base hr.safe hr.account hm hd (hok i rfl) hmove
    | worker =>
      obtain ⟨s', l', rfl, hmove⟩ := step_worker hstep
      exact data_worker h hr.base hr.account hm hd hmove
  | spurious i thread =>
    simp only [step, Option.map_eq_some_iff] at hstep
    obtain ⟨l', hspur, rfl⟩ := hstep
    exact ⟨mark, out, hm.stays (stays_spurious hspur) List.suffix_rfl rfl rfl, hd⟩

theorem running_init (h : q.Exchangeable f) (hs : (exchange (.total f) q drive).init s) :
    Running f q s := by
  refine ⟨base_init h.runnable hs, safe_init h.runnable hs, account_init h.runnable hs,
    fun _ => .queued, fun _ => 0, ?_, ?_⟩
  · obtain ⟨hshared, hlanes⟩ := hs
    rw [start_eq h.runnable] at hshared
    refine ⟨fun _ _ => rfl, ?_, ?_, ?_, ?_⟩
    · intro i hc
      obtain ⟨v, -, hlane⟩ := hlanes i
      rw [hlane] at hc
      cases hc
    · intro e he
      rw [hshared] at he
      cases he
    · intro v hv
      rw [hshared] at hv
      cases hv
    · intro i hw
      obtain ⟨v, -, hlane⟩ := hlanes i
      rw [hlane] at hw
      cases hw
  · rw [hs.1, start_eq h.runnable]
    exact computes_loaded h

theorem running_of_reachable (h : q.Exchangeable f)
    (hr : (exchange (.total f) q drive).ReachableBy PopFindsAVertex t) : Running f q t :=
  hr.invariant (fun _ hs => running_init h hs)
    (fun _ _ _ hs hok hstep => running_step h hs hok hstep)

end step

/-! ## The laws -/

section laws

variable {f : String → List (List Word) → List Int → Nat → List Word} {q : Query} {n : Nat}
variable {drive : Fin n → Device} {t : State n} {mark : Nat → Turn} {out : Nat → Int} {v : Nat}

/-- In every state of a run without a failed pop, nothing went wrong so far, and a worker that is
about to launch a vertex finds the words that its inputs mean on the device of the vertex. -/
theorem every_launch_finds_its_inputs (h : q.Exchangeable f)
    (hr : (exchange (.total f) q drive).ReachableBy PopFindsAVertex t) :
    ∃ st, t.shared.machine.stores = some st ∧
      ∀ i, (t.lane i).worker = .execute → ∀ e ∈ q.dag.in_edges (t.lane i).process_vertex,
        look st (t.shared.machine.dag.edge e).data_pointer
            (t.shared.machine.dag.vertex (t.lane i).process_vertex).device =
          some (q.edge_meaning f e).words := by
  have hrun := running_of_reachable h hr
  obtain ⟨mark, out, hm, hd⟩ := hrun.data
  obtain ⟨st, hst, hplace⟩ := hd.stores
  refine ⟨st, hst, fun i hw e he => ?_⟩
  obtain ⟨hc, hturn⟩ := carries_of_launch (hrun.base.lanes i) (.inr hw)
  have hop := (hrun.account.alone h.runnable hc).1
  have hmark := hm.lanes i hc
  rw [hturn, if_pos hw] at hmark
  have hin : (mark (t.lane i).process_vertex).has_inputs = true := by rw [hmark]; rfl
  have hsource := (hd.ready _ hop hin e he).imp_right
    (fun hexec => show (mark _).has_output = true by rw [hexec]; rfl)
  rw [(hd.edge e (q.dag.mem_in_edges.mp he).1 hsource).1]
  exact hplace.taken _ hop hin e he

/-- When the device threads have returned, every operation was executed. -/
theorem executed_of_joined (h : q.Runnable) (hn : 0 < n) (ha : Account q t) (hm : Marked mark t)
    (hjoin : t.Joined) (hop : q.dag.IsOp v) : mark v = .executed := by
  have hqueue : t.shared.ex_processing_queue = [] := ha.drained ⟨0, hn⟩ (by rw [hjoin]; rfl)
  have hheld : ∀ i, (t.lane i).held v = 0 := fun i => held_of_not_carries
    (by simp [Lane.carries, hjoin i, DevicePc.carries, DevicePc.gave])
  have hcons := ha.conserved v
  have hone := List.count_eq_one_of_mem h.operations_nodup (h.mem_operations.mpr hop)
  have hpos : 0 < (t.shared.started.map Prod.snd).count v := by
    simp only [hqueue, hheld, hone, List.count_nil, Finset.sum_const_zero] at hcons
    omega
  obtain ⟨e, he, rfl⟩ := List.mem_map.mp (List.count_pos_iff.mp hpos)
  exact hm.started e he

/-- What a run without a failed pop leaves of an operation whose output goes into no other: its
buffer, which its out-edges name, with the words of its meaning. -/
structure Leaves (f : String → List (List Word) → List Int → Nat → List Word) (q : Query)
    (m : Machine) (st : Stores) (v : Nat) (words : Option (List Word)) : Prop where
  buffer : ∃ a, (m.dag.vertex v).output_data = [a] ∧ look st a (m.dag.vertex v).device = words ∧
    ∀ e ∈ q.dag.out_edges v, (m.dag.edge e).data_pointer = a ∧
      (m.dag.edge e).data_size = (q.meaning f v).data_size

theorem leaves_of_executed (hd : Computes f q mark out t.shared.machine) {st : Stores}
    (hplace : InPlace f q mark out t.shared.machine st) (hop : q.dag.IsOp v)
    (hexec : mark v = .executed)
    (hlast : ∀ e ∈ q.dag.out_edges v, ¬ q.dag.IsOp (q.dag.target e)) :
    Leaves f q t.shared.machine st v (some (q.meaning f v).words) := by
  have hnode := hd.node v hop
  rw [hexec] at hnode
  refine ⟨out v, ?_, hplace.unread v hop hexec hlast, ?_⟩
  · rw [hnode]
    rfl
  · intro e he
    obtain ⟨hlt, hs⟩ := q.dag.mem_out_edges.mp he
    have hstart : q.dag.source e ≠ start_vertex := by
      rw [hs]
      exact hop.2.1
    have hmeaning : q.edge_meaning f e = q.meaning f v := by
      rw [Query.edge_meaning, edge_flow, if_neg hstart, hs]
    obtain ⟨hpointer, hsize⟩ := hd.edge e hlt (.inr (by rw [hs, hexec]; rfl))
    rw [pointer_of_op hstart, hs] at hpointer
    rw [hmeaning] at hsize
    exact ⟨hpointer, hsize⟩

/-- When the device threads have returned, every operation whose output goes into no other has left
the words of its meaning in its buffer, whatever devices took part in which order. -/
theorem the_exchange_leaves_the_meaning (h : q.Exchangeable f) (hn : 0 < n)
    (hr : (exchange (.total f) q drive).ReachableBy PopFindsAVertex t) (hjoin : t.Joined) :
    ∃ st, t.shared.machine.stores = some st ∧
      ∀ v, q.dag.IsOp v → (∀ e ∈ q.dag.out_edges v, ¬ q.dag.IsOp (q.dag.target e)) →
        Leaves f q t.shared.machine st v (some (q.meaning f v).words) := by
  have hrun := running_of_reachable h hr
  obtain ⟨mark, out, hm, hd⟩ := hrun.data
  obtain ⟨st, hst, hplace⟩ := hd.stores
  refine ⟨st, hst, fun v hop hlast => ?_⟩
  exact leaves_of_executed hd hplace hop
    (executed_of_joined h.runnable hn hrun.account hm hjoin hop) hlast

end laws

/-! ## The two executors -/

/-- The query of the exchange executor with the graph, the columns and the state of a plan. -/
def planned (p : Plan) : Query :=
  { dag := p.dag, data_scan := p.data_scan, process_queue := p.order, counter := p.counter
    stores := p.st }

section executors

variable {f : String → List (List Word) → List Int → Nat → List Word} {p : Plan} {n : Nat}
variable {drive : Fin n → Device} {t : State n} {v : Nat}

theorem foldl_max_start (l : List Nat) (f : Nat → Nat) (n : Nat) :
    l.foldl (fun n e => max n (f e)) n = max n (l.foldl (fun n e => max n (f e)) 0) := by
  induction l generalizing n with
  | nil => simp
  | cons e rest ih =>
    rw [List.foldl_cons, List.foldl_cons, ih, ih (max 0 (f e))]
    omega

/-- When every operation gets as many rows as its node has at least, the exchange executor, which
forgets the latter, gives it the same meaning. -/
theorem meaning_of_planned (h : (planned p).Exchangeable f)
    (hfull : ∀ v, p.dag.IsOp v → (p.dag.vertex v).input_size ≤ (planned p).size f v)
    (hop : p.dag.IsOp v) : (planned p).meaning f v = p.meaning f v := by
  have hordered : Ordered (network f p.dag p.data_scan) p.order := topological_ordered p.topological
  suffices hall : ∀ v ∈ p.order, p.dag.IsOp v → (planned p).meaning f v = p.meaning f v from
    hall v ((p.topological.mem_iff v).mpr hop.1) hop
  refine hordered.induction fun v _ hinputs hop => ?_
  have hedge : ∀ e ∈ p.dag.in_edges v, (planned p).edge_meaning f e = p.edge_meaning f e := by
    intro e he
    unfold Query.edge_meaning Plan.edge_meaning edge_flow
    by_cases hs : p.dag.source e = start_vertex
    · exact (if_pos hs).trans (if_pos hs).symm
    · refine (if_neg hs).trans (Eq.trans ?_ (if_neg hs).symm)
      exact hinputs _ (List.mem_map_of_mem he)
        (p.query.source_isOp (p.dag.mem_in_edges.mp he).1 hs)
  have hsize : (p.dag.vertex v).size_for ((p.dag.in_edges v).map (p.edge_meaning f)) =
      (planned p).size f v := by
    rw [primitive_node.size_for, List.foldl_map, foldl_max_start]
    have hsame : (p.dag.in_edges v).foldl (fun size e => max size (p.edge_meaning f e).data_size) 0 =
        (planned p).size f v := foldl_max_congr (fun e he => by rw [hedge e he]) 0
    rw [hsame]
    exact Nat.max_eq_right (hfull v hop)
  have hmap : (p.dag.in_edges v).map ((planned p).edge_meaning f) =
      (p.dag.in_edges v).map (p.edge_meaning f) := List.map_congr_left hedge
  have hmeasured := exchange_meaning_eq h hop.1
  have hmeasured_size := size_eq f (planned p) v
  dsimp only [planned] at hmeasured hmeasured_size hmap hsize
  rw [hmap] at hmeasured hmeasured_size
  rw [Plan.meaning_eq hop.1]
  refine hmeasured.trans ?_
  rw [primitive_node.flow, hmeasured_size, primitive_node.flow, hsize]
  rfl

/-- The two executors compute the same words: when the device threads have returned, every operation
whose output goes into no other has left in its buffer the words that it writes in the sequential
run. -/
theorem the_exchange_leaves_what_execute_graph_writes (h : (planned p).Exchangeable f)
    (hl : p.LosesNothing f)
    (hfull : ∀ v, p.dag.IsOp v → (p.dag.vertex v).input_size ≤ (planned p).size f v) (hn : 0 < n)
    (hr : (exchange (.total f) (planned p) drive).ReachableBy PopFindsAVertex t)
    (hjoin : t.Joined) :
    ∃ st, t.shared.machine.stores = some st ∧
      ∀ v, p.dag.IsOp v → (∀ e ∈ p.dag.out_edges v, ¬ p.dag.IsOp (p.dag.target e)) →
        Leaves f (planned p) t.shared.machine st v (p.written f v) := by
  have hrun := running_of_reachable h hr
  obtain ⟨mark, out, hm, hd⟩ := hrun.data
  obtain ⟨st, hst, hplace⟩ := hd.stores
  obtain ⟨s, hcomputed⟩ := Plan.computed_after hl p.order [] (List.append_nil _).symm
  refine ⟨st, hst, fun v hop hlast => ?_⟩
  rw [hcomputed.words v ((p.topological.mem_iff v).mpr hop.1) hop, ← meaning_of_planned h hfull hop]
  exact leaves_of_executed hd hplace hop
    (executed_of_joined h.runnable hn hrun.account hm hjoin hop) hlast

end executors

/-! ## The filter on two devices -/

/-- A device thread that pops sees a vertex in the queue. -/
def pop_finds_a_vertex {n : Nat} (s : State n) : Action n → Bool
  | .run i .device => (s.lane i).device ≠ .pop || s.shared.ex_processing_queue ≠ []
  | _ => true

theorem pop_of_test {n : Nat} (s : State n) (a : Action n) (h : pop_finds_a_vertex s a = true) :
    PopFindsAVertex s a := by
  rintro i rfl hd
  simpa [pop_finds_a_vertex, hd] using h

/-- The two selections run on two devices, and the conjunction on the first. -/
def shared_filter {n : Nat} (i j : Fin n) : List (Action n) :=
  List.replicate 3 (.run i .device) ++ List.replicate 3 (.run j .device) ++ turn j 1 ++ turn i 1 ++
    List.replicate 2 (.run i .device) ++ turn i 2 ++ leave j ++ leave i

/-- The filter is safe on any devices. -/
theorem filter_is_exchangeable : (planned filter_on_two).Exchangeable first_input := by
  have hends : (planned filter_on_two).dag.ends.length = 5 := rfl
  refine ⟨⟨filter_graph_query 1, filter_on_two.topological, ?_, by decide⟩, filter_on_two.fresh,
    by decide, filter_on_two.old, ?_, ?_, ?_⟩
  · intro e
    simp only [planned, filter_on_two, filter_plan, filter_graph, query_graph.add_edge,
      query_graph.add_vertex, query_graph.empty, Function.update_apply]
    split <;> (try split) <;> (try split) <;> (try split) <;> (try split) <;> rfl
  · intro e hlt hs
    have hfinds : filter_on_two.FindsColumns := filter_plan_finds _ _ _
    exact hfinds e hlt hs
  · have hall : ∀ e < 5, ∀ e' < 5, (filter_graph 1).source e = (filter_graph 1).source e' →
        ((filter_graph 1).source e = start_vertex →
          ((filter_graph 1).edge e).data_pointer = ((filter_graph 1).edge e').data_pointer) →
            e = e' := by decide
    rw [hends]
    exact fun e he e' he' _ _ => hall e he e' he'
  · have hall : ∀ e < 5, ((planned filter_on_two).edge_meaning first_input e).words.length =
        ((planned filter_on_two).edge_meaning first_input e).data_size := by decide +kernel
    rw [hends]
    exact fun e he _ => hall e he

/-- A run of the filter on two devices, up to the state after some steps. -/
theorem filter_reaches {as : List (Action 2)} {t : State 2}
    (h : (exchange (.total first_input) (planned filter_on_two)
      (fun i : Fin 2 => (0, i.val))).exec_tested pop_finds_a_vertex
        ((planned filter_on_two).initial 2 0) as = some t) :
    (exchange (.total first_input) (planned filter_on_two)
      (fun i : Fin 2 => (0, i.val))).ReachableBy PopFindsAVertex t :=
  ⟨_, initial_init (by decide), System.run_of_exec_tested pop_of_test h⟩

/-- The steps up to the launch of the conjunction. -/
def up_to_the_conjunction {n : Nat} (i j : Fin n) : List (Action n) :=
  List.replicate 3 (.run i .device) ++ List.replicate 3 (.run j .device) ++ turn j 1 ++ turn i 1 ++
    List.replicate 2 (.run i .device) ++ List.replicate 10 (.run i .device) ++
      List.replicate 5 (.run i .worker)

/-- The launch of the conjunction, whose inputs two devices have written. -/
theorem the_conjunction_finds_its_inputs : ∃ t : State 2,
    (t.lane 0).worker = .execute ∧ (t.lane 0).process_vertex = 4 ∧
      ∃ st, t.shared.machine.stores = some st ∧
        ∀ i, (t.lane i).worker = .execute →
          ∀ e ∈ (planned filter_on_two).dag.in_edges (t.lane i).process_vertex,
            look st (t.shared.machine.dag.edge e).data_pointer
                (t.shared.machine.dag.vertex (t.lane i).process_vertex).device =
              some ((planned filter_on_two).edge_meaning first_input e).words := by
  have hrun : ((exchange (.total first_input) (planned filter_on_two)
      (fun i : Fin 2 => (0, i.val))).exec_tested pop_finds_a_vertex
        ((planned filter_on_two).initial 2 0) (up_to_the_conjunction 0 1)).map
          (fun t => ((t.lane 0).worker, (t.lane 0).process_vertex)) = some (.execute, 4) := by
    decide +kernel
  rw [Option.map_eq_some_iff] at hrun
  obtain ⟨t, hexec, ht⟩ := hrun
  obtain ⟨hworker, hvertex⟩ := Prod.mk.inj ht
  exact ⟨t, hworker, hvertex,
    every_launch_finds_its_inputs filter_is_exchangeable (filter_reaches hexec)⟩

/-- The whole run. -/
theorem shared_filter_joins : ∃ t : State 2,
    (exchange (.total first_input) (planned filter_on_two)
      (fun i : Fin 2 => (0, i.val))).ReachableBy PopFindsAVertex t ∧ t.Joined := by
  have hrun : ((exchange (.total first_input) (planned filter_on_two)
      (fun i : Fin 2 => (0, i.val))).exec_tested pop_finds_a_vertex
        ((planned filter_on_two).initial 2 0) (shared_filter 0 1)).map
          (fun t => ((t.lane 0).device, (t.lane 1).device)) = some (.finished, .finished) := by
    decide +kernel
  rw [Option.map_eq_some_iff] at hrun
  obtain ⟨t, hexec, ht⟩ := hrun
  obtain ⟨hfirst, hsecond⟩ := Prod.mk.inj ht
  refine ⟨t, filter_reaches hexec, fun i => ?_⟩
  fin_cases i
  · exact hfirst
  · exact hsecond

theorem the_filter_leaves_its_meaning : ∃ t : State 2, t.Joined ∧
    ∃ st, t.shared.machine.stores = some st ∧
      ∀ v, (planned filter_on_two).dag.IsOp v →
        (∀ e ∈ (planned filter_on_two).dag.out_edges v,
          ¬ (planned filter_on_two).dag.IsOp ((planned filter_on_two).dag.target e)) →
        Leaves first_input (planned filter_on_two) t.shared.machine st v
          (some ((planned filter_on_two).meaning first_input v).words) := by
  obtain ⟨t, hreach, hjoin⟩ := shared_filter_joins
  exact ⟨t, hjoin,
    the_exchange_leaves_the_meaning filter_is_exchangeable (by decide) hreach hjoin⟩

theorem the_filter_leaves_what_it_writes_in_order : ∃ t : State 2, t.Joined ∧
    ∃ st, t.shared.machine.stores = some st ∧
      ∀ v, filter_on_two.dag.IsOp v →
        (∀ e ∈ filter_on_two.dag.out_edges v, ¬ filter_on_two.dag.IsOp (filter_on_two.dag.target e)) →
        Leaves first_input (planned filter_on_two) t.shared.machine st v
          (filter_on_two.written first_input v) := by
  obtain ⟨t, hreach, hjoin⟩ := shared_filter_joins
  refine ⟨t, hjoin, the_exchange_leaves_what_execute_graph_writes filter_is_exchangeable
    filter_on_two_loses_nothing ?_ (by decide) hreach hjoin⟩
  intro v hop
  rcases filter_graph_isOp.mp hop with rfl | rfl | rfl
  · decide +kernel
  · decide +kernel
  · decide +kernel

end hero.morsel_driven
