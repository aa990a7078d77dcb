-- Do the consumers of the data-parallel executor read only produced words? The transfer thread of a
-- consumer does not look at the progress of its producer. When it waits for it, every copy is sound.
import HeroDB.MorselRears

namespace hero.data_parallelism

open hero.transition

variable {c : Setup} {s s' : State} {move : Move}

/-! ## The log -/

/-- Every copy is sound, and its producer was initialised. -/
structure Sound (c : Setup) (s : State) : Prop where
  reads : c.ReadsProduced s
  initialized : ∀ (i : Nat) v e offset, s.memory.trace[i]? = some (Event.copy v e offset) →
    s.memory.initialized (c.plan.source e)

/-- The type and the size of an initialised vertex stay. -/
theorem initialized_kept (howned : Owned s) (h : Moved c s move s') {u : Nat}
    (hu : s.memory.initialized u) :
    (s'.memory.operation u).operationType = (s.memory.operation u).operationType ∧
    (s'.memory.operation u).data_size = (s.memory.operation u).data_size := by
  cases h with
  | quiet d pc _ hquiet =>
    exact ⟨congrArg Core.operationType (hquiet.core u), congrArg Core.data_size (hquiet.core u)⟩
  | sizes d v i e hpc =>
    have hne : u ≠ v := by
      intro hv
      subst hv
      obtain ⟨transfer, process, hrun, -⟩ := howned.late d u (by rw [hpc]; rfl) hu
      rw [hpc] at hrun
      cases hrun
    have hcore := take_size_core v e u s.memory hne
    exact ⟨congrArg Core.operationType hcore, congrArg Core.data_size hcore⟩
  | helps d v i e helper helper' m hpc he hhelp =>
    exact ⟨hhelp.effect.keeps Core.operationType (HelperPc.writes_type helper) u,
      hhelp.effect.keeps Core.data_size (HelperPc.writes_size helper) u⟩
  | processes d v transfer process process' m hpc hprocess =>
    exact ⟨hprocess.effect.keeps Core.operationType (ProcessPc.writes_type process) u,
      hprocess.effect.keeps Core.data_size (ProcessPc.writes_size process) u⟩
  | transfers d v transfer transfer' process m hpc htransfer =>
    exact ⟨htransfer.effect.keeps Core.operationType (TransferPc.writes_type transfer) u,
      htransfer.effect.keeps Core.data_size (TransferPc.writes_size transfer) u⟩

/-- A step keeps what the copies before it read; it adds at most one event. -/
theorem sound_append (h : Sound c s) (howned : Owned s) (hmoved : Moved c s move s')
    {events : List Event} (htrace : s'.memory.trace = s.memory.trace ++ events)
    (hnew : ∀ v e offset, Event.copy v e offset ∈ events → events = [.copy v e offset] ∧
      s.memory.initialized (c.plan.source e) ∧
      ∀ word, offset ≤ word → word < offset + ng_morsel_size →
        word < compute_result_size (s.memory.operation (c.plan.source e)) →
        Produced s.memory.trace (s.memory.operation (c.plan.source e)).operationType
          (c.plan.source e) word) : Sound c s' := by
  have hevent : ∀ (i : Nat) v e offset, s'.memory.trace[i]? = some (Event.copy v e offset) →
      s.memory.initialized (c.plan.source e) ∧
      ∀ word, offset ≤ word → word < offset + ng_morsel_size →
        word < compute_result_size (s.memory.operation (c.plan.source e)) →
        Produced (s'.memory.trace.take i) (s.memory.operation (c.plan.source e)).operationType
          (c.plan.source e) word := by
    intro i v e offset hi
    rw [htrace] at hi ⊢
    by_cases hlt : i < s.memory.trace.length
    · rw [List.getElem?_append_left hlt] at hi
      rw [List.take_append_of_le_length (Nat.le_of_lt hlt)]
      exact ⟨h.initialized i v e offset hi, h.reads i v e offset hi⟩
    · rw [List.getElem?_append_right (Nat.not_lt.mp hlt)] at hi
      obtain ⟨hone, hinit, hwords⟩ := hnew v e offset (List.mem_of_getElem? hi)
      have hlast : i = s.memory.trace.length := by
        rw [hone] at hi
        have hbound := (List.getElem?_eq_some_iff.mp hi).1
        rw [List.length_singleton] at hbound
        omega
      refine ⟨hinit, fun word hfrom hto hsize => ?_⟩
      rw [hlast, List.take_left]
      exact hwords word hfrom hto hsize
  refine ⟨fun i v e offset hi => ?_, fun i v e offset hi => ?_⟩
  · obtain ⟨hinit, hwords⟩ := hevent i v e offset hi
    obtain ⟨htype, hsize⟩ := initialized_kept howned hmoved hinit
    rw [compute_result_size_eq, htype, hsize, ← compute_result_size_eq]
    exact hwords
  · exact initialized_mono hmoved (hevent i v e offset hi).1

/-- A copy that waits for the progress of the producer reads produced words. -/
theorem published_produced (hbounded : Bounded c s) (hfronts : Fronts s) (hrears : Rears c s)
    {e offset : Nat} (h : c.Published e offset s.memory) {word : Nat} (hfrom : offset ≤ word)
    (hto : word < offset + ng_morsel_size)
    (hsize : word < compute_result_size (s.memory.operation (c.plan.source e))) :
    Produced s.memory.trace (s.memory.operation (c.plan.source e)).operationType
      (c.plan.source e) word := by
  obtain ⟨hinit, hcovers⟩ := h
  rcases hcovers word hfrom hto hsize with hfront | hrear
  · refine hfronts.published _ word hfront (Nat.lt_of_lt_of_le hsize ?_)
    rw [compute_result_size_eq]
    exact result_until_mono (hbounded.kind _) (Nat.le_of_lt (hbounded.size _))
  · exact (hrears _ hinit).words word hrear hsize

theorem sound_step (h : Sound c s) (howned : Owned s) (hbounded : Bounded c s)
    (hfronts : Fronts s) (hrears : Rears c s) (hwaits : c.Waits s move)
    (hstep : c.step s move = some s') : Sound c s' := by
  have hmoved := moved_of_stepped (step_cases hstep)
  cases hmoved with
  | quiet d pc _ hquiet =>
    exact sound_append h howned (.quiet d pc s' hquiet)
      (by rw [hquiet.trace, List.append_nil]) (by simp)
  | sizes d v i e hpc =>
    exact sound_append h howned (.sizes d v i e hpc)
      (by rw [put_memory, take_size_trace, List.append_nil]) (by simp)
  | helps d v i e helper helper' m hpc he hhelp =>
    have hmoved : Moved c s _ _ := .helps d v i e helper helper' m hpc he hhelp
    rcases hhelp.trace with ⟨htrace, -⟩ | ⟨-, htrace⟩
    · exact sound_append h howned hmoved (htrace.trans (List.append_nil _).symm) (by simp)
    · exact sound_append h howned hmoved htrace (by simp)
  | processes d v transfer process process' m hpc hprocess =>
    have hmoved : Moved c s _ _ := .processes d v transfer process process' m hpc hprocess
    rcases hprocess.trace with ⟨htrace, -⟩ | ⟨offset, -, -, htrace⟩
    · exact sound_append h howned hmoved (htrace.trans (List.append_nil _).symm) (by simp)
    · exact sound_append h howned hmoved htrace (by simp)
  | transfers d v transfer transfer' process m hpc htransfer =>
    have hmoved : Moved c s _ _ := .transfers d v transfer transfer' process m hpc htransfer
    rcases htransfer.trace with htrace | ⟨offset, i, max, e, rfl, he, hkind, htrace⟩
    · exact sound_append h howned hmoved (htrace.trans (List.append_nil _).symm) (by simp)
    · have hpublished : c.Published e offset s.memory := by
        unfold Setup.Waits at hwaits
        simp only [hpc] at hwaits
        exact hwaits e he hkind
      refine sound_append h howned hmoved htrace (fun v' e' offset' hmem => ?_)
      cases List.mem_singleton.mp hmem
      refine ⟨rfl, hpublished.1, fun word hfrom hto hsize => ?_⟩
      exact published_produced hbounded hfronts hrears hpublished hfrom hto hsize

/-! ## Every run -/

/-- What holds in every state of a run in which the consumers wait. -/
structure Safe (c : Setup) (s : State) : Prop where
  owned : Owned s
  bounded : Bounded c s
  fronts : Fronts s
  sharing : Sharing c s
  prepared : Prepared s
  rears : Rears c s
  sound : Sound c s

theorem safe_step (h : Safe c s) (hplain : Plain c) (hwaits : c.Waits s move)
    (hstep : c.step s move = some s') : Safe c s' where
  owned := owned_step h.owned hstep
  bounded := bounded_step h.bounded hstep
  fronts := fronts_step h.fronts h.bounded hstep
  sharing := sharing_step h.sharing h.bounded hstep
  prepared := prepared_step h.prepared h.owned h.sharing hwaits hstep
  rears := rears_step h.rears hplain h.owned h.bounded h.sharing h.prepared hstep
  sound := sound_step h.sound h.owned h.bounded h.fronts h.rears hwaits hstep

theorem safe_start (hplain : Plain c) {queue : List Nat} (hqueue : queue.Nodup) :
    Safe c (c.start queue) where
  owned := owned_start hplain hqueue
  bounded := bounded_start hplain queue
  fronts := fronts_start hplain queue
  sharing := ⟨by simp [Setup.start], by simp [Setup.start]⟩
  prepared := ⟨by simp [Setup.start], by simp [Setup.start]⟩
  rears := by
    intro u hu
    unfold Memory.initialized at hu
    rw [show ((c.start queue).memory.node u).is_initialized = false from
      (hplain.node u).2.2.1] at hu
    cases hu
  sound := ⟨(fun i v e offset hi => by cases hi), (fun i v e offset hi => by cases hi)⟩

namespace Setup

/-- When each copy from another device waits until the published progress of the producer covers
its morsel, and no vertex is set up with less input than its data size, the consumers read only
produced words: in every interleaving of the devices, the transfer threads and the helpers, with
work sharing or without. -/
theorem consumers_that_wait_read_produced_words (c : Setup) {selections : List Operation_}
    {queue : List Nat} (hsession : c.IsSession selections queue) {s : State}
    (h : (c.executor queue).ReachableBy c.Waits s) : c.ReadsProduced s := by
  have hplain := session_plain hsession
  have hsafe : Safe c s := by
    refine h.invariant (fun t ht => ?_) (fun t move t' hsafe hwaits hstep => ?_)
    · rw [show t = c.start queue from ht]
      exact safe_start hplain (pipeline_nodup hsession.queue)
    · exact safe_step hsafe hplain hwaits hstep
  exact hsafe.sound.reads

end Setup

/-! ## Two devices -/

/-- Two selections on the columns of one table. -/
def two_selections (noOfRows : Nat) : List Operation_ :=
  [create_selection_operation ng_selection_greater_than noOfRows,
    create_selection_operation ng_selection_less_than noOfRows]

/-- A CPU and a GPU without work sharing. -/
def two_devices (noOfRows : Nat) : Setup where
  plan := (create_execution_graph (two_selections noOfRows)).getD ⟨[], [], []⟩
  ng_total_no_of_devices := 2
  device_type := fun d => if d = 0 then .CPU else .GPU
  ng_is_work_sharing_enabled := false

theorem two_devices_session {noOfRows : Nat} (h : noOfRows < 2 ^ 31) :
    (two_devices noOfRows).IsSession (two_selections noOfRows) [1, 2, 3] := by
  refine ⟨fun o ho => ?_, rfl, [1, 2], List.Perm.refl _, rfl⟩
  simp only [two_selections, List.mem_cons, List.not_mem_nil, or_false] at ho
  rcases ho with rfl | rfl
  · exact ⟨_, noOfRows, .inl rfl, h, rfl⟩
  · exact ⟨_, noOfRows, .inr rfl, h, rfl⟩

/-- The producer of each copy has published the words of the morsel, as far as there are so many. -/
def Setup.morsel_published (c : Setup) (s : State) : Move → Bool
  | .device _ => true
  | .transfer d =>
    match s.device d with
    | .run v (.copy offset i _) _ =>
      match (c.plan.findVertexDetails v).incoming_edges[i]? with
      | none => true
      | some e =>
        let producer := s.memory.operation (c.plan.source e)
        (s.memory.edge e).is_virtual_vertex ||
          ((s.memory.node (c.plan.source e)).is_initialized &&
            decide (min (offset + ng_morsel_size) (compute_result_size producer) ≤
              result_until producer.operationType producer.processed_until))
    | .run v (.put_rear_processed max) _ => decide ((s.memory.operation v).data_size ≤ max)
    | _ => true

theorem waits_of_morsel_published (c : Setup) (s : State) (move : Move)
    (h : c.morsel_published s move = true) : c.Waits s move := by
  cases move with
  | device d => trivial
  | transfer d =>
    simp only [Setup.morsel_published] at h
    simp only [Setup.Waits]
    split
    · rename_i v offset i max process hpc
      intro e he hreal
      simp only [hpc, he, hreal, Bool.false_or, Bool.and_eq_true, decide_eq_true_eq] at h
      exact ⟨h.1, fun word _ hmorsel hword =>
        .inl (Nat.lt_of_lt_of_le (Nat.lt_min.mpr ⟨hmorsel, hword⟩) h.2)⟩
    · rename_i v max process hpc
      simpa only [hpc, decide_eq_true_eq] using h
    · trivial

/-- The first device is done with its selection and ready to copy from the second one. It copies a
morsel when the second device has executed 32 of its own, and the rest when that is done. -/
def waiting_moves : List Move :=
  List.replicate 4 (.device 0) ++ List.replicate 211 (.transfer 0) ++
  List.replicate 234 (.device 0) ++ List.replicate 4 (.device 1) ++
  List.replicate 4 (.transfer 1) ++ List.replicate 7 (.device 0) ++
  List.replicate 15 (.transfer 0) ++ List.replicate 207 (.transfer 1) ++
  List.replicate 227 (.device 1) ++ List.replicate 7 (.transfer 0) ++
  List.replicate 7 (.device 1) ++ [.transfer 0]

theorem two_devices_that_wait : ∃ s,
    ((two_devices 33792).executor [1, 2, 3]).ReachableBy (two_devices 33792).Waits s ∧
    Event.copy 3 3 0 ∈ s.memory.trace ∧ Event.copy 3 3 1024 ∈ s.memory.trace ∧
    (two_devices 33792).ReadsProduced s := by
  have hrun : (((two_devices 33792).executor [1, 2, 3]).exec_tested
      (two_devices 33792).morsel_published ((two_devices 33792).start [1, 2, 3]) waiting_moves).map
      (fun s => decide (Event.copy 3 3 0 ∈ s.memory.trace ∧
        Event.copy 3 3 1024 ∈ s.memory.trace)) = some true := by
    decide +kernel
  rw [Option.map_eq_some_iff] at hrun
  obtain ⟨s, hexec, hcopies⟩ := hrun
  obtain ⟨hfirst, hlater⟩ := of_decide_eq_true hcopies
  have hreach : ((two_devices 33792).executor [1, 2, 3]).ReachableBy (two_devices 33792).Waits s :=
    ⟨_, rfl, System.run_of_exec_tested (waits_of_morsel_published _) hexec⟩
  exact ⟨s, hreach, hfirst, hlater,
    (two_devices 33792).consumers_that_wait_read_produced_words
      (two_devices_session (by decide)) hreach⟩

/-- The second device prepares its selection, and the first one, which is done with its own, copies
the result. -/
def hasty_moves : List Move :=
  List.replicate 4 (.device 0) ++ List.replicate 205 (.transfer 0) ++
  List.replicate 227 (.device 0) ++ List.replicate 4 (.device 1) ++
  List.replicate 4 (.transfer 1) ++ List.replicate 7 (.device 0) ++
  List.replicate 18 (.transfer 0)

/-- The log of the run ends with a copy from the second selection, which no device has executed. -/
def copies_too_soon (s : State) : Bool :=
  decide (s.memory.trace[32]? = some (.copy 3 3 0)) &&
  (s.memory.trace.take 32).all (fun event =>
    match event with
    | .execute v _ _ => decide (v ≠ 2)
    | .copy _ _ _ => true) &&
  decide (0 < compute_result_size (s.memory.operation 2))

theorem a_consumer_copies_before_the_producer_executes : ∃ (c : Setup) (selections : List Operation_)
    (queue : List Nat) (s : State), c.IsSession selections queue ∧
      (c.executor queue).Reachable s ∧ ¬ c.ReadsProduced s := by
  have hrun : (((two_devices 32768).executor [1, 2, 3]).exec ((two_devices 32768).start [1, 2, 3])
      hasty_moves).map copies_too_soon = some true := by
    decide +kernel
  rw [Option.map_eq_some_iff] at hrun
  obtain ⟨s, hexec, hsoon⟩ := hrun
  simp only [copies_too_soon, Bool.and_eq_true, decide_eq_true_eq] at hsoon
  obtain ⟨⟨hcopy, hnone⟩, hword⟩ := hsoon
  refine ⟨two_devices 32768, two_selections 32768, [1, 2, 3], s, two_devices_session (by decide),
    ⟨_, rfl, System.run_of_exec hexec⟩, fun hreads => ?_⟩
  obtain ⟨d, offset, hmem, -⟩ := hreads 32 3 3 0 hcopy 0 (Nat.le_refl 0) (by decide) hword
  have hnot := List.all_eq_true.mp hnone _ hmem
  simp only [decide_eq_true_eq] at hnot
  exact hnot rfl

end hero.data_parallelism
