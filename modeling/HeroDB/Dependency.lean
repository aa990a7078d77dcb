-- The laws of dependencies in the exchange executor: a flag of an edge is set only after its
-- source was executed, so a worker never starts a vertex before the sources of its inputs.
import HeroDB.ExchangeRuns

namespace hero.morsel_driven

open runtime_layer query_graph transition

/-! ## The invariant -/

/-- The source of the edge is the scan, or it came back from `execute_node`. -/
def Told (g : query_graph) (completed : List Nat) (e : Nat) : Prop :=
  g.source e = start_vertex ∨ g.source e ∈ completed

/-- The device thread has left the spin loop with its vertex, and has not got the vertex back. -/
def DevicePc.knows : DevicePc → Bool
  | .size_input | .set_input | .prepare_output => true
  | .lock_ready last | .set_ready last | .notify last | .lock_wait last | .test_processed last
  | .asleep last _ => !last
  | _ => false

theorem knows_of_waits {d : DevicePc} (hstage : d.stage = .waits) (hlast : d.last = false) :
    d.knows = true := by
  cases d with
  | notify last | lock_wait last | test_processed last | asleep last _ =>
    simpa [DevicePc.knows, DevicePc.last] using hlast
  | _ => cases hstage

/-- What a device knows: the edges that the spin loop found set are told, all in-edges are told
after the loop, and the worker sets flags only on out-edges of a vertex that it executed. -/
structure LaneSafe (g : query_graph) (completed : List Nat) (l : Lane) : Prop where
  seen : ∀ rest, l.device = .spin rest true →
    ∀ e ∈ g.in_edges l.process_vertex, e ∉ rest → Told g completed e
  known : l.device.knows = true → ∀ e ∈ g.in_edges l.process_vertex, Told g completed e
  flagging : ∀ rest, l.worker = .flag rest →
    l.process_vertex ∈ completed ∧ ∀ e ∈ rest, g.source e = l.process_vertex

/-- Every flag that is set is told, every device is safe, and the columns are loaded. -/
structure Safe (q : Query) {n : Nat} (s : State n) : Prop where
  flags : ∀ e < q.dag.ends.length,
    (s.shared.machine.dag.edge e).ready_for_next_step = true → Told q.dag s.shared.completed e
  lanes : ∀ i, LaneSafe q.dag s.shared.completed (s.lane i)
  columns : placed q.counter q.data_scan.entries <+: s.shared.machine.trace

theorem Told.mono {g : query_graph} {completed completed' : List Nat} {e : Nat}
    (h : Told g completed e) (hsub : completed ⊆ completed') : Told g completed' e :=
  h.imp_right (fun hmem => hsub hmem)

theorem LaneSafe.mono {g : query_graph} {completed completed' : List Nat} {l : Lane}
    (h : LaneSafe g completed l) (hsub : completed ⊆ completed') : LaneSafe g completed' l where
  seen rest hd e he hrest := (h.seen rest hd e he hrest).mono hsub
  known hd e he := (h.known hd e he).mono hsub
  flagging rest hw := ⟨hsub (h.flagging rest hw).1, (h.flagging rest hw).2⟩

/-! ## One step -/

section step

variable {K : Kernels} {dev : Device} {i : Nat} {g : query_graph} {s s' : Shared} {l l' : Lane}

theorem move_trace (h : Move K dev i s l s' l') : s.machine.trace <+: s'.machine.trace := by
  cases h with
  | device h =>
    cases h with
    | set_input _ => rw [set_input_trace]
    | prepare_output _ =>
      rw [prepare_output_buffer_trace]
      exact List.prefix_append _ _
    | _ => exact List.prefix_rfl
  | worker h =>
    cases h with
    | execute _ => exact List.prefix_append _ _
    | _ => exact List.prefix_rfl
  | spurious _ => exact List.prefix_rfl

theorem move_completed (h : Move K dev i s l s' l') : s.completed ⊆ s'.completed := by
  cases h with
  | device h =>
    rw [(device_move_logs h).2]
    exact List.Subset.refl _
  | worker h =>
    cases h with
    | complete _ => exact List.subset_append_left _ _
    | _ => exact List.Subset.refl _
  | spurious _ => exact List.Subset.refl _

/-- A worker that waits for a vertex sets no flags. -/
theorem not_flag_of_prepares {N : Nat} (hok : LaneOk N l) (hd : l.device.stage = .prepares)
    (rest : List Nat) : l.worker ≠ .flag rest := by
  intro hw
  have hwaits := (hok.phase.of_prepares hd).1
  rw [hw] at hwaits
  cases hwaits

/-- The device thread keeps its vertex and stays past the spin loop. -/
theorem laneSafe_known {pc : DevicePc} (h : LaneSafe g s.completed l)
    (hknows : pc.knows = true → l.device.knows = true) (hspin : ∀ rest, pc ≠ .spin rest true)
    {ready processed : Bool} {m' : Option Thread} :
    LaneSafe g s.completed { l with device := pc, ready, processed, m := m' } where
  seen rest hd := absurd hd (hspin rest)
  known hd := h.known (hknows hd)
  flagging := h.flagging

theorem laneSafe_device {N : Nat} (hok : LaneOk N l) (hshape : SameShape g s.machine.dag)
    (hflags : ∀ e < g.ends.length, (s.machine.dag.edge e).ready_for_next_step = true →
      Told g s.completed e)
    (hmove : DeviceMove dev s l s' l') (h : LaneSafe g s.completed l) :
    LaneSafe g s.completed l' := by
  cases hmove with
  | spawn _ => exact ⟨(fun _ h => by cases h), (fun h => by cases h), (fun _ h => by cases h)⟩
  | pop v rest hd _ =>
    refine ⟨(fun _ h => by cases h), (fun h => by cases h), fun rest hw => ?_⟩
    exact absurd hw (not_flag_of_prepares hok (by rw [hd]; rfl) rest)
  | stop hd =>
    refine ⟨(fun _ h => by cases h), (fun h => by cases h), fun rest hw => ?_⟩
    exact absurd hw (not_flag_of_prepares hok (by rw [hd]; rfl) rest)
  | set_device _ =>
    refine ⟨?_, (fun h => by cases h), h.flagging⟩
    intro rest hd e he hrest
    cases hd
    rw [hshape.in_edges] at hrest
    exact absurd he hrest
  | read e rest input_set hd =>
    refine ⟨?_, (fun h => by cases h), h.flagging⟩
    intro rest' hd' e' he' hrest'
    simp only [DevicePc.spin.injEq, Bool.and_eq_true] at hd'
    obtain ⟨rfl, rfl, hflag⟩ := hd'
    by_cases heq : e' = e
    · subst heq
      exact hflags e' (g.mem_in_edges.mp he').1 hflag
    · exact h.seen _ hd e' he' (by simp [heq, hrest'])
  | read_again _ =>
    refine ⟨?_, (fun h => by cases h), h.flagging⟩
    intro rest hd e he hrest
    cases hd
    rw [hshape.in_edges] at hrest
    exact absurd he hrest
  | all_read hd =>
    refine ⟨(fun _ h => by cases h), fun _ e he => ?_, h.flagging⟩
    exact h.seen [] hd e he List.not_mem_nil
  | notify last hd =>
    refine ⟨(fun _ h => by cases h), ?_, ?_⟩
    · intro hk e
      unfold Lane.notify_worker
      split <;> exact h.known (by rw [hd]; exact hk) e
    · intro rest
      unfold Lane.notify_worker
      split
      · exact fun hw => by cases hw
      · exact h.flagging rest
  | see_empty hd _ => exact laneSafe_known h (fun h => by cases h) (by simp)
  | see_vertex hd _ => exact laneSafe_known h (fun h => by cases h) (by simp)
  | pop_fails hd _ => exact laneSafe_known h (fun h => by cases h) (by simp)
  | size_input hd => exact laneSafe_known h (fun _ => by rw [hd]; rfl) (by simp)
  | set_input hd => exact laneSafe_known h (fun _ => by rw [hd]; rfl) (by simp)
  | prepare_output hd => exact laneSafe_known h (fun _ => by rw [hd]; rfl) (by simp)
  | lock_ready last hd _ => exact laneSafe_known h (fun hk => by rw [hd]; exact hk) (by simp)
  | set_ready last hd => exact laneSafe_known h (fun hk => by rw [hd]; exact hk) (by simp)
  | lock_wait last hd _ => exact laneSafe_known h (fun hk => by rw [hd]; exact hk) (by simp)
  | sleep last hd _ => exact laneSafe_known h (fun hk => by rw [hd]; exact hk) (by simp)
  | wake last hd _ => exact laneSafe_known h (fun hk => by rw [hd]; exact hk) (by simp)
  | see_processed last hd _ => exact laneSafe_known h (fun h => by cases h) (by simp)
  | unlock_wait hd => exact laneSafe_known h (fun h => by cases h) (by simp)
  | unlock_last hd => exact laneSafe_known h (fun h => by cases h) (by simp)
  | clear_processed hd => exact laneSafe_known h (fun h => by cases h) (by simp)
  | join hd _ => exact laneSafe_known h (fun h => by cases h) (by simp)

/-- The worker moves on and sets no flags. -/
theorem laneSafe_quiet {pc : WorkerPc} (h : LaneSafe g s.completed l) (hw : ∀ rest, pc ≠ .flag rest)
    {ready processed : Bool} {m' : Option Thread} :
    LaneSafe g s.completed { l with worker := pc, ready, processed, m := m' } where
  seen := h.seen
  known := h.known
  flagging rest hf := absurd hf (hw rest)

/-- A notification does not change what the device thread knows. -/
theorem laneSafe_notify {pc : WorkerPc} (h : LaneSafe g s.completed l)
    (hw : ∀ rest, pc ≠ .flag rest) :
    LaneSafe g s.completed { l.notify_device with worker := pc } := by
  unfold Lane.notify_device
  split
  case h_1 last notified hd =>
    exact ⟨(fun _ h => by cases h), fun hk => h.known (by rw [hd]; exact hk),
      fun rest hf => absurd hf (hw rest)⟩
  case h_2 => exact ⟨h.seen, h.known, fun rest hf => absurd hf (hw rest)⟩

theorem laneSafe_worker (hshape : SameShape g s.machine.dag)
    (hmove : WorkerMove K i s l s' l') (h : LaneSafe g s.completed l) :
    LaneSafe g s'.completed l' := by
  cases hmove with
  | complete hw =>
    have hmono := h.mono (List.subset_append_left s.completed [l.process_vertex])
    refine ⟨hmono.seen, hmono.known, ?_⟩
    intro rest hf
    cases hf
    refine ⟨by simp, fun e he => ?_⟩
    rw [hshape.out_edges] at he
    exact (g.mem_out_edges.mp he).2
  | flag e rest hw =>
    refine ⟨h.seen, h.known, ?_⟩
    intro rest' hf
    cases hf
    obtain ⟨hmem, hsrc⟩ := h.flagging _ hw
    exact ⟨hmem, fun e' he' => hsrc e' (List.mem_cons_of_mem _ he')⟩
  | notify hw => exact laneSafe_notify h (by simp)
  | notify_last hw => exact laneSafe_notify h (by simp)
  | _ => exact laneSafe_quiet h (by simp)

/-- A step keeps every flag that is set told. -/
theorem flags_told (hmove : Move K dev i s l s' l') (h : LaneSafe g s.completed l)
    (hflags : ∀ e < g.ends.length, (s.machine.dag.edge e).ready_for_next_step = true →
      Told g s.completed e) :
    ∀ e < g.ends.length, (s'.machine.dag.edge e).ready_for_next_step = true →
      Told g s'.completed e := by
  intro e hlt hset
  refine Told.mono ?_ (move_completed hmove)
  cases hmove with
  | device hm =>
    rw [device_move_flag hm] at hset
    exact hflags e hlt hset
  | worker hm =>
    cases hm with
    | flag e' rest hw =>
      by_cases heq : e = e'
      · subst heq
        obtain ⟨hmem, hsrc⟩ := h.flagging _ hw
        right
        rw [hsrc e List.mem_cons_self]
        exact hmem
      · simp only [Machine.modify_edge, query_graph.modify_edge, Function.update_of_ne heq] at hset
        exact hflags e hlt hset
    | _ => exact hflags e hlt hset
  | spurious _ => exact hflags e hlt hset

end step

/-! ## The law -/

section law

variable {K : Kernels} {q : Query} {n : Nat} {drive : Fin n → Device} {s t : State n}

theorem safe_init (h : q.Runnable) (hs : (exchange K q drive).init s) : Safe q s := by
  obtain ⟨hshared, hlanes⟩ := hs
  rw [start_eq h] at hshared
  refine ⟨?_, ?_, ?_⟩
  · intro e hlt hset
    rw [hshared, loaded_flag h, mem_out_edges] at hset
    exact .inl hset.2
  · intro i
    obtain ⟨v, -, hlane⟩ := hlanes i
    rw [hlane]
    exact ⟨(fun _ h => by cases h), (fun h => by cases h), (fun _ h => by cases h)⟩
  · rw [hshared, Query.loaded, Machine.modify_edges_trace, load_data_trace]
    exact List.prefix_rfl

theorem safe_step {a : Action n} (hb : Base q s) (hs : Safe q s)
    (hstep : step K drive s a = some t) : Safe q t := by
  obtain ⟨i, s', l', rfl, hmove⟩ := step_move hstep
  refine ⟨flags_told hmove (hs.lanes i) hs.flags, ?_, hs.columns.trans (move_trace hmove)⟩
  refine put_forall s i (s', l') ?_ (fun j _ => (hs.lanes j).mono (move_completed hmove))
  cases hmove with
  | device hm =>
    rw [put_shared, (device_move_logs hm).2]
    exact laneSafe_device (hb.lanes i) hb.shape hs.flags hm (hs.lanes i)
  | worker hm => exact laneSafe_worker hb.shape hm (hs.lanes i)
  | spurious hm =>
    obtain ⟨-, hcase⟩ := spurious_move hm
    rcases hcase with ⟨last, notified, hd, rfl⟩ | ⟨notified, hw, rfl⟩
    · exact laneSafe_known (hs.lanes i) (fun hk => by rw [hd]; exact hk) (by simp)
    · exact laneSafe_quiet (hs.lanes i) (by simp)

/-- In every reachable state, a worker that is about to execute a vertex does so after the
sources of its in-edges: each one is the scan, whose columns are loaded, or was executed. -/
theorem a_vertex_is_executed_after_its_sources (h : q.Runnable)
    (hr : (exchange K q drive).Reachable s) (i : Fin n) (hexec : (s.lane i).worker = .execute) :
    ∀ e ∈ q.dag.in_edges (s.lane i).process_vertex,
      (q.dag.source e = start_vertex ∧
        placed q.counter q.data_scan.entries <+: s.shared.machine.trace) ∨
      q.dag.source e ∈ s.shared.completed := by
  obtain ⟨hb, hs⟩ : Base q s ∧ Safe q s := hr.invariant (I := fun s => Base q s ∧ Safe q s)
    (fun _ hs => ⟨base_init h hs, safe_init h hs⟩)
    (fun _ _ _ hs hstep => ⟨base_step h hs.1 hstep, safe_step hs.1 hs.2 hstep⟩)
  have hknows : (s.lane i).device.knows = true := by
    obtain ⟨hstage, hlast, -⟩ := (hb.lanes i).of_runs (by rw [hexec]; rfl)
    exact knows_of_waits hstage hlast
  intro e he
  rcases (hs.lanes i).known hknows e he with hstart | hmem
  · exact .inl ⟨hstart, hs.columns⟩
  · exact .inr hmem

end law

/-- The steps of a device up to its second launch: it takes a vertex and wakes its worker, which
executes it, and then a second one. -/
def two_launches {n : Nat} (i : Fin n) : List (Action n) :=
  List.replicate 12 (.run i .device) ++ List.replicate 14 (.run i .worker) ++
    List.replicate 16 (.run i .device) ++ List.replicate 5 (.run i .worker)

/-- The second launch of the hash join comes after the scan and the first launch. -/
theorem hashP_is_executed_after_hashB :
    ∃ s : State 1, (s.lane 0).worker = .execute ∧ (s.lane 0).process_vertex = tests.s3 ∧
      ∀ e ∈ query_hashJoin.dag.in_edges (s.lane 0).process_vertex,
        (query_hashJoin.dag.source e = start_vertex ∧
          placed query_hashJoin.counter query_hashJoin.data_scan.entries <+:
            s.shared.machine.trace) ∨
        query_hashJoin.dag.source e ∈ s.shared.completed := by
  have hrun : ((exchange ⟨fun _ _ _ _ => some [0, 0], fun _ _ _ _ => none⟩ query_hashJoin
      (fun _ : Fin 1 => (0, 0))).exec (query_hashJoin.initial 1 0) (two_launches 0)).map
        (fun s => ((s.lane 0).worker, (s.lane 0).process_vertex)) =
      some (.execute, tests.s3) := by
    decide +kernel
  rw [Option.map_eq_some_iff] at hrun
  obtain ⟨s, hexec, hs⟩ := hrun
  obtain ⟨hworker, hvertex⟩ := Prod.mk.inj hs
  have hreach : (exchange ⟨fun _ _ _ _ => some [0, 0], fun _ _ _ _ => none⟩ query_hashJoin
      (fun _ : Fin 1 => (0, 0))).Reachable s :=
    ⟨_, initial_init (by decide), System.run_of_exec hexec⟩
  exact ⟨s, hworker, hvertex,
    a_vertex_is_executed_after_its_sources query_hashJoin_is_runnable hreach 0 hworker⟩

end hero.morsel_driven
