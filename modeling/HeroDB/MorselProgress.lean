-- What the counters of an operation say in every run of the data-parallel executor: who owns a
-- vertex, and which words the published counters cover.
import HeroDB.MorselConsumers

namespace hero.data_parallelism

variable {c : Setup} {s s' : State} {move : Move}

/-! ## Owners -/

/-- The vertex that a device has taken. -/
def DevicePc.vertex : DevicePc → Option Nat
  | .edge v _ | .share v _ _ | .size v _ | .run v _ _ => some v
  | .pop | .finished => none

def Memory.initialized (m : Memory) (v : Nat) : Prop := (m.node v).is_initialized = true

/-- A vertex is in the queue, or one device has it, or it is done; once it is initialised, only a
transfer thread that is past the setup has it. -/
structure Owned (s : State) : Prop where
  queue_nodup : s.ng_processing_queue.Nodup
  taken : ∀ d v, (s.device d).vertex = some v → v ∉ s.ng_processing_queue
  apart : ∀ d d' v, (s.device d).vertex = some v → (s.device d').vertex = some v → d = d'
  done : ∀ v, s.memory.initialized v → v ∉ s.ng_processing_queue
  late : ∀ d v, (s.device d).vertex = some v → s.memory.initialized v →
    ∃ transfer process, s.device d = .run v transfer process ∧ transfer.ready = true
  early : ∀ d v transfer process, s.device d = .run v transfer process →
    transfer.ready = true → s.memory.initialized v

/-- A step of a device that keeps its vertex, or gives it up. -/
theorem owned_put (h : Owned s) {d : Nat} {pc : DevicePc} {m : Memory}
    (hvertex : ∀ v, pc.vertex = some v → (s.device d).vertex = some v)
    (hmono : ∀ u, s.memory.initialized u → m.initialized u)
    (hnew : ∀ u, m.initialized u → s.memory.initialized u ∨ (s.device d).vertex = some u)
    (hlate : ∀ v, pc.vertex = some v → m.initialized v →
      ∃ transfer process, pc = .run v transfer process ∧ transfer.ready = true)
    (hearly : ∀ v transfer process, pc = .run v transfer process → transfer.ready = true →
      m.initialized v) : Owned (s.put d pc m) := by
  have hheld : ∀ d' v, ((s.put d pc m).device d').vertex = some v → (s.device d').vertex = some v := by
    intro d' v hv
    by_cases hd : d' = d
    · subst hd
      rw [put_device_self] at hv
      exact hvertex v hv
    · rwa [put_device_ne s hd] at hv
  refine ⟨h.queue_nodup, fun d' v hv => h.taken d' v (hheld d' v hv),
    fun d' d'' v hv hv' => h.apart d' d'' v (hheld d' v hv) (hheld d'' v hv'), fun v hv => ?_,
    fun d' v hv hinit => ?_, fun d' v transfer process hpc hready => ?_⟩
  · rcases hnew v hv with hold | hold
    · exact h.done v hold
    · exact h.taken d v hold
  · by_cases hd : d' = d
    · subst hd
      rw [put_device_self] at hv ⊢
      exact hlate v hv hinit
    · rw [put_device_ne s hd] at hv ⊢
      rcases hnew v hinit with hold | hold
      · exact h.late d' v hv hold
      · exact absurd (h.apart d' d v hv hold) hd
  · by_cases hd : d' = d
    · subst hd
      rw [put_device_self] at hpc
      exact hearly v transfer process hpc hready
    · rw [put_device_ne s hd] at hpc
      exact hmono v (h.early d' v transfer process hpc hready)

/-- What a step does not write stays, in its own node and in the others. -/
theorem Effect.keeps {α : Type} (g : Core → α) {v : Nat} {writes : Core → Core} {m m' : Memory}
    (h : Effect v writes m m') (hg : ∀ k, g (writes k) = g k) (u : Nat) :
    g (m'.node u).core = g (m.node u).core := by
  by_cases hu : u = v
  · subst hu
    rw [h.node, hg]
  · rw [h.others u hu]

theorem initialized_eq {m m' : Memory} {u : Nat}
    (h : (m'.node u).core.is_initialized = (m.node u).core.is_initialized) :
    m'.initialized u ↔ m.initialized u := by
  unfold Memory.initialized
  rw [show (m'.node u).is_initialized = (m.node u).is_initialized from h]

/-- A step that does not set `is_initialized`. -/
theorem Effect.initialized {v u : Nat} {writes : Core → Core} {m m' : Memory}
    (h : Effect v writes m m') (hwrites : ∀ k, (writes k).is_initialized = k.is_initialized) :
    m'.initialized u ↔ m.initialized u :=
  initialized_eq (h.keeps Core.is_initialized hwrites u)

theorem HelperPc.writes_initialized (pc : HelperPc) (k : Core) :
    (pc.writes k).is_initialized = k.is_initialized := by
  unfold HelperPc.writes
  split <;> rfl

theorem ProcessPc.writes_initialized (pc : ProcessPc) (k : Core) :
    (pc.writes k).is_initialized = k.is_initialized := by
  unfold ProcessPc.writes
  split <;> rfl

/-- The transfer thread initialises its vertex in one step. -/
theorem transfer_initialized {pc : TransferPc} {v : Nat} {m m' : Memory}
    (h : Effect v pc.writes m m') :
    (∀ max, pc ≠ .put_initialized max) ∧ (∀ u, m'.initialized u ↔ m.initialized u) ∨
    (∃ max, pc = .put_initialized max) ∧ ∀ u, m'.initialized u ↔ u = v ∨ m.initialized u := by
  by_cases hput : ∃ max, pc = .put_initialized max
  · obtain ⟨max, rfl⟩ := hput
    refine .inr ⟨⟨max, rfl⟩, fun u => ?_⟩
    by_cases hu : u = v
    · subst hu
      exact iff_of_true (congrArg Core.is_initialized h.node) (.inl rfl)
    · rw [initialized_eq (congrArg Core.is_initialized (h.others u hu)), or_iff_right hu]
  · rw [not_exists] at hput
    refine .inl ⟨hput, fun u => h.initialized fun k => ?_⟩
    unfold TransferPc.writes
    split
    · rfl
    · rfl
    · rename_i max
      exact absurd rfl (hput max)
    · rfl

/-- Apart from the data size and the rear of the vertex, `take_size` keeps what is in the nodes. -/
theorem take_size_keeps {α : Type} (g : Core → α) (v e : Nat) (m : Memory)
    (hg : ∀ k size, g { k with data_size := size, rear_processed_until := size } = g k) (u : Nat) :
    g ((Setup.take_size v e m).node u).core = g (m.node u).core := by
  unfold Setup.take_size
  split
  · by_cases hu : u = v
    · subst hu
      rw [Memory.modify_operation, Memory.node_modify_self]
      exact hg (m.node u).core (m.edge e).data_size
    · simp only [Memory.modify_operation, Memory.modify_node, Function.update_of_ne hu]
  · rfl

theorem take_size_core (v e u : Nat) (m : Memory) (h : u ≠ v) :
    ((Setup.take_size v e m).node u).core = (m.node u).core := by
  unfold Setup.take_size
  split
  · simp only [Memory.modify_operation, Memory.modify_node, Function.update_of_ne h]
  · rfl

theorem take_size_initialized (v e u : Nat) (m : Memory) :
    (Setup.take_size v e m).initialized u ↔ m.initialized u :=
  initialized_eq (take_size_keeps Core.is_initialized v e m (fun _ _ => rfl) u)

theorem pop_core (d v u : Nat) (m : Memory) :
    ((m.modify_node v (fun n => { n with executionDevice := d })).node u).core =
      (m.node u).core := by
  unfold Memory.modify_node
  by_cases h : u = v
  · subst h
    simp only [Function.update_self]
    rfl
  · simp only [Function.update_of_ne h]

theorem visit_edge_vertex (v i : Nat) (m : Memory) :
    (c.visit_edge v i m).vertex = some v ∧
      ∀ w transfer process, c.visit_edge v i m = .run w transfer process → transfer = .start := by
  unfold Setup.visit_edge
  split
  · exact ⟨rfl, fun _ _ _ hpc => by cases hpc; rfl⟩
  · split
    · exact ⟨rfl, fun _ _ _ hpc => by cases hpc⟩
    · exact ⟨rfl, fun _ _ _ hpc => by cases hpc⟩

/-- A device that prepares a vertex has one that is not initialised. -/
theorem Owned.uninitialized (h : Owned s) {d v : Nat} (hv : (s.device d).vertex = some v)
    (hpc : ∀ transfer process, s.device d = .run v transfer process → transfer.ready = false) :
    ¬ s.memory.initialized v := by
  intro hinit
  obtain ⟨transfer, process, hrun, hready⟩ := h.late d v hv hinit
  rw [hpc transfer process hrun] at hready
  cases hready

/-- A device takes the first vertex of the queue. -/
theorem owned_pop (h : Owned s) {d v : Nat} {rest : List Nat}
    (hqueue : s.ng_processing_queue = v :: rest) :
    Owned { s.put d (.edge v 0) (s.memory.modify_node v
      (fun n => { n with executionDevice := d })) with ng_processing_queue := rest } := by
  have hnodup := h.queue_nodup
  rw [hqueue, List.nodup_cons] at hnodup
  have hsame : ∀ u, (s.memory.modify_node v
      (fun n => { n with executionDevice := d })).initialized u ↔ s.memory.initialized u :=
    fun u => initialized_eq (congrArg Core.is_initialized (pop_core d v u s.memory))
  have hmem : ∀ u, u ∉ s.ng_processing_queue → u ∉ rest ∧ u ≠ v := by
    intro u hu
    rw [hqueue, List.mem_cons, not_or] at hu
    exact ⟨hu.2, hu.1⟩
  have hother : ∀ d' u, d' ≠ d → ((s.put d (.edge v 0) (s.memory.modify_node v
      (fun n => { n with executionDevice := d }))).device d').vertex = some u →
      (s.device d').vertex = some u := by
    intro d' u hd hu
    rwa [put_device_ne s hd] at hu
  refine ⟨hnodup.2, fun d' u hu => ?_, fun d' d'' u hu hu' => ?_, fun u hu => ?_,
    fun d' u hu hinit => ?_, fun d' u transfer process hrun hready => ?_⟩
  · by_cases hd : d' = d
    · subst hd
      simp only [put_device_self, DevicePc.vertex, Option.some.injEq] at hu
      exact hu ▸ hnodup.1
    · exact (hmem u (h.taken d' u (hother d' u hd hu))).1
  · by_cases hd : d' = d <;> by_cases hd' : d'' = d
    · rw [hd, hd']
    · subst hd
      simp only [put_device_self, DevicePc.vertex, Option.some.injEq] at hu
      exact absurd hu.symm (hmem u (h.taken d'' u (hother d'' u hd' hu'))).2
    · subst hd'
      simp only [put_device_self, DevicePc.vertex, Option.some.injEq] at hu'
      exact absurd hu'.symm (hmem u (h.taken d' u (hother d' u hd hu))).2
    · exact h.apart d' d'' u (hother d' u hd hu) (hother d'' u hd' hu')
  · exact (hmem u (h.done u ((hsame u).mp hu))).1
  · by_cases hd : d' = d
    · subst hd
      simp only [put_device_self, DevicePc.vertex, Option.some.injEq] at hu
      subst hu
      exact absurd rfl (hmem v (h.done v ((hsame v).mp hinit))).2
    · simp only [put_device_ne s hd]
      exact h.late d' u (hother d' u hd hu) ((hsame u).mp hinit)
  · by_cases hd : d' = d
    · subst hd
      simp only [put_device_self] at hrun
      cases hrun
    · simp only [put_device_ne s hd] at hrun
      exact (hsame u).mpr (h.early d' u transfer process hrun hready)

theorem owned_step (h : Owned s) (hstep : c.step s move = some s') : Owned s' := by
  cases step_cases hstep with
  | stops d hpc =>
    exact owned_put h (fun v hv => by cases hv) (fun _ hu => hu) (fun _ hu => .inl hu)
      (fun v hv => by cases hv) (fun v _ _ hv => by cases hv)
  | pops d v rest _ hqueue => exact owned_pop h hqueue
  | visits d v i hpc =>
    obtain ⟨hvertex, hstart⟩ := visit_edge_vertex (c := c) v i s.memory
    have hheld : (s.device d).vertex = some v := by rw [hpc]; rfl
    refine owned_put h (fun u hu => ?_) (fun _ hu => hu) (fun _ hu => .inl hu) (fun u hu hinit => ?_)
      (fun u transfer process hrun hready => ?_)
    · rw [hvertex] at hu
      rw [hheld, hu]
    · rw [hvertex, Option.some.injEq] at hu
      subst hu
      exact absurd hinit (h.uninitialized hheld (fun _ _ hrun => by rw [hpc] at hrun; cases hrun))
    · rw [hstart u transfer process hrun] at hready
      cases hready
  | helped d v i hpc =>
    have hheld : (s.device d).vertex = some v := by rw [hpc]; rfl
    refine owned_put h (fun u hu => by rw [hheld]; exact hu) (fun _ hu => hu) (fun _ hu => .inl hu)
      (fun u hu hinit => ?_) (fun u transfer process hrun hready => by cases hrun)
    rw [DevicePc.vertex, Option.some.injEq] at hu
    subst hu
    exact absurd hinit (h.uninitialized hheld (fun _ _ hrun => by rw [hpc] at hrun; cases hrun))
  | sizes d v i e hpc =>
    have hheld : (s.device d).vertex = some v := by rw [hpc]; rfl
    have hsame := take_size_initialized v e
    refine owned_put h (fun u hu => by rw [hheld]; exact hu) (fun u hu => (hsame u _).mpr hu)
      (fun u hu => .inl ((hsame u _).mp hu)) (fun u hu hinit => ?_)
      (fun u transfer process hrun hready => by cases hrun)
    rw [DevicePc.vertex, Option.some.injEq] at hu
    subst hu
    exact absurd ((hsame v _).mp hinit)
      (h.uninitialized hheld (fun _ _ hrun => by rw [hpc] at hrun; cases hrun))
  | joins d v max hpc =>
    exact owned_put h (fun v hv => by cases hv) (fun _ hu => hu) (fun _ hu => .inl hu)
      (fun v hv => by cases hv) (fun v _ _ hv => by cases hv)
  | helps d v i e helper helper' m hpc he hhelp =>
    have hheld : (s.device d).vertex = some v := by rw [hpc]; rfl
    have hsame : ∀ u, m.initialized u ↔ s.memory.initialized u :=
      fun u => hhelp.effect.initialized (HelperPc.writes_initialized helper)
    refine owned_put h (fun u hu => by rw [hheld]; exact hu) (fun u hu => (hsame u).mpr hu)
      (fun u hu => .inl ((hsame u).mp hu)) (fun u hu hinit => ?_)
      (fun u transfer process hrun hready => by cases hrun)
    rw [DevicePc.vertex, Option.some.injEq] at hu
    subst hu
    exact absurd ((hsame v).mp hinit)
      (h.uninitialized hheld (fun _ _ hrun => by rw [hpc] at hrun; cases hrun))
  | processes d v transfer process process' m hpc hproc =>
    have hheld : (s.device d).vertex = some v := by rw [hpc]; rfl
    have hsame : ∀ u, m.initialized u ↔ s.memory.initialized u :=
      fun u => hproc.effect.initialized (ProcessPc.writes_initialized process)
    refine owned_put h (fun u hu => by rw [hheld]; exact hu) (fun u hu => (hsame u).mpr hu)
      (fun u hu => .inl ((hsame u).mp hu)) (fun u hu hinit => ?_)
      (fun u transfer' process'' hrun hready => ?_)
    · rw [DevicePc.vertex, Option.some.injEq] at hu
      subst hu
      obtain ⟨t, p, hrun, hready⟩ := h.late d v hheld ((hsame v).mp hinit)
      rw [hpc] at hrun
      cases hrun
      exact ⟨_, _, rfl, hready⟩
    · cases hrun
      exact (hsame v).mpr (h.early d v _ _ hpc hready)
  | transfers d v transfer transfer' process m hpc htrans =>
    have hheld : (s.device d).vertex = some v := by rw [hpc]; rfl
    have hready := htrans.ready
    rcases transfer_initialized htrans.effect with ⟨hput, hsame⟩ | ⟨hput, hsame⟩
    · have hiff : transfer'.ready = true ↔ transfer.ready = true :=
        hready.trans (or_iff_left fun ⟨max, hmax⟩ => hput max hmax)
      refine owned_put h (fun u hu => by rw [hheld]; exact hu) (fun u hu => (hsame u).mpr hu)
        (fun u hu => .inl ((hsame u).mp hu)) (fun u hu hinit => ?_)
        (fun u transfer'' process' hrun hnow => ?_)
      · rw [DevicePc.vertex, Option.some.injEq] at hu
        subst hu
        obtain ⟨t, p, hrun, hwas⟩ := h.late d v hheld ((hsame v).mp hinit)
        rw [hpc] at hrun
        cases hrun
        exact ⟨_, _, rfl, hiff.mpr hwas⟩
      · cases hrun
        exact (hsame v).mpr (h.early d v _ _ hpc (hiff.mp hnow))
    · refine owned_put h (fun u hu => by rw [hheld]; exact hu) (fun u hu => (hsame u).mpr (.inr hu))
        (fun u hu => ?_) (fun u hu hinit => ?_) (fun u transfer'' process' hrun hnow => ?_)
      · rcases (hsame u).mp hu with rfl | hold
        · exact .inr hheld
        · exact .inl hold
      · rw [DevicePc.vertex, Option.some.injEq] at hu
        subst hu
        exact ⟨_, _, rfl, hready.mpr (.inr hput)⟩
      · cases hrun
        exact (hsame v).mpr (.inl rfl)

theorem owned_start (hplain : Plain c) {queue : List Nat} (hqueue : queue.Nodup) :
    Owned (c.start queue) := by
  have hnone (v : Nat) : ¬ (c.start queue).memory.initialized v := by
    unfold Memory.initialized
    rw [show ((c.start queue).memory.node v).is_initialized = false from (hplain.node v).2.2.1]
    exact Bool.false_ne_true
  refine ⟨hqueue, fun d v hv => ?_, fun d d' v hv => ?_, fun v hv => absurd hv (hnone v),
    fun d v _ hv => absurd hv (hnone v), fun d v transfer process hrun => ?_⟩
  · cases hv
  · cases hv
  · cases hrun

/-! ## Steps that change no counter -/

/-- The device helps with an operation whose rear it has lowered and not yet published. -/
def Setup.busy (c : Setup) : DevicePc → Option (Nat × HelperPc)
  | .share v i helper =>
    if helper.lowered || helper.executed then
      (c.plan.findVertexDetails v).incoming_edges[i]?.map (fun e => (c.plan.source e, helper))
    else none
  | _ => none

/-- A device goes on, and neither the counters nor the log change. It enters its helper at the wait,
over an edge that is not virtual, and the processing of a vertex at its start. -/
structure Quiet (c : Setup) (s s' : State) (d : Nat) (pc : DevicePc) : Prop where
  device : s'.device = Function.update s.device d pc
  core : ∀ u, (s'.memory.node u).core = (s.memory.node u).core
  edge : s'.memory.edge = s.memory.edge
  trace : s'.memory.trace = s.memory.trace
  was_free : c.busy (s.device d) = none
  is_free : c.busy pc = none
  runs : ∀ v transfer process, pc = .run v transfer process → transfer = .start ∧ process = .wait
  shares : ∀ v i helper, pc = .share v i helper → helper = .wait ∧
    ∀ e, (c.plan.findVertexDetails v).incoming_edges[i]? = some e →
      (s.memory.edge e).is_virtual_vertex = false

/-- The steps by what they change. -/
inductive Moved (c : Setup) (s : State) : Move → State → Prop
  | quiet (d : Nat) (pc : DevicePc) (s' : State) : Quiet c s s' d pc →
      Moved c s (.device d) s'
  | sizes (d v i e : Nat) : s.device d = .size v i →
      Moved c s (.device d) (s.put d (.edge v (i + 1)) (Setup.take_size v e s.memory))
  | helps (d v i e : Nat) (helper helper' : HelperPc) (m : Memory) :
      s.device d = .share v i helper → (c.plan.findVertexDetails v).incoming_edges[i]? = some e →
      HelperStep (c.plan.findVertexDetails (c.plan.source e)) d helper helper' s.memory m →
      Moved c s (.device d) (s.put d (.share v i helper') m)
  | processes (d v : Nat) (transfer : TransferPc) (process process' : ProcessPc) (m : Memory) :
      s.device d = .run v transfer process →
      ProcessStep (c.plan.findVertexDetails v) d process process' s.memory m →
      Moved c s (.device d) (s.put d (.run v transfer process') m)
  | transfers (d v : Nat) (transfer transfer' : TransferPc) (process : ProcessPc) (m : Memory) :
      s.device d = .run v transfer process →
      TransferStep (c.plan.findVertexDetails v) transfer transfer' s.memory m →
      Moved c s (.transfer d) (s.put d (.run v transfer' process) m)

theorem quiet_put {d : Nat} {pc : DevicePc} (hwas : c.busy (s.device d) = none)
    (his : c.busy pc = none) (hruns : ∀ v transfer process, pc ≠ .run v transfer process)
    (hshares : ∀ v i helper, pc ≠ .share v i helper) : Quiet c s (s.put d pc s.memory) d pc :=
  ⟨rfl, fun _ => rfl, rfl, rfl, hwas, his, fun _ _ _ h => absurd h (hruns _ _ _),
    fun _ _ _ h => absurd h (hshares _ _ _)⟩

theorem moved_of_stepped (h : Stepped c s move s') :
    Moved c s move s' := by
  cases h with
  | stops d hpc => exact .quiet d _ _ (quiet_put (by rw [hpc]; rfl) rfl (by simp) (by simp))
  | pops d v rest hpc hqueue =>
    refine .quiet d (.edge v 0) _ ⟨rfl, fun u => pop_core d v u s.memory, rfl, rfl, ?_, rfl, by simp,
      by simp⟩
    rw [hpc]
    rfl
  | visits d v i hpc =>
    refine .quiet d (c.visit_edge v i s.memory) _ ?_
    have hwas : c.busy (s.device d) = none := by rw [hpc]; rfl
    unfold Setup.visit_edge
    split
    · exact ⟨rfl, fun _ => rfl, rfl, rfl, hwas, rfl,
        fun _ _ _ hrun => by cases hrun; exact ⟨rfl, rfl⟩, by simp⟩
    · rename_i e he
      split
      · rename_i hshared
        refine ⟨rfl, fun _ => rfl, rfl, rfl, hwas, rfl, by simp, fun v' i' helper hpc' => ?_⟩
        cases hpc'
        refine ⟨rfl, fun e' he' => ?_⟩
        rw [he] at he'
        cases he'
        exact hshared.1
      · exact quiet_put hwas rfl (by simp) (by simp)
  | helped d v i hpc => exact .quiet d _ _ (quiet_put (by rw [hpc]; rfl) rfl (by simp) (by simp))
  | sizes d v i e hpc => exact .sizes d v i e hpc
  | joins d v max hpc => exact .quiet d _ _ (quiet_put (by rw [hpc]; rfl) rfl (by simp) (by simp))
  | helps d v i e helper helper' m hpc he hhelp =>
    exact .helps d v i e helper helper' m hpc he hhelp
  | processes d v transfer process process' m hpc hprocess =>
    exact .processes d v transfer process process' m hpc hprocess
  | transfers d v transfer transfer' process m hpc htransfer =>
    exact .transfers d v transfer transfer' process m hpc htransfer

/-! ## Bounds -/

/-- The operations and the edges keep their kinds, and no size leaves the rows of a table. -/
structure Bounded (c : Setup) (s : State) : Prop where
  kind : ∀ v, Kind (s.memory.operation v).operationType
  size : ∀ v, (s.memory.operation v).data_size < 2 ^ 31
  edge : ∀ e, (s.memory.edge e).data_size < 2 ^ 31
  virtual : ∀ e, (s.memory.edge e).is_virtual_vertex = (c.start_memory.edge e).is_virtual_vertex
  largest : ∀ d v transfer process, s.device d = .run v transfer process →
    transfer.largest < 2 ^ 31

theorem result_until_le {t : Operation_Type} (ht : Kind t) (n : Nat) : result_until t n ≤ n := by
  rcases ht with rfl | rfl | rfl
  · exact Nat.div_le_self n 32
  · exact Nat.div_le_self n 32
  · exact Nat.le_refl n

theorem TransferPc.writes_type (pc : TransferPc) (k : Core) :
    (pc.writes k).operationType = k.operationType := by
  unfold TransferPc.writes
  split <;> rfl

theorem TransferPc.writes_size (pc : TransferPc) (k : Core) :
    (pc.writes k).data_size = k.data_size := by
  unfold TransferPc.writes
  split <;> rfl

theorem ProcessPc.writes_type (pc : ProcessPc) (k : Core) :
    (pc.writes k).operationType = k.operationType := by
  unfold ProcessPc.writes
  split <;> rfl

theorem ProcessPc.writes_size (pc : ProcessPc) (k : Core) :
    (pc.writes k).data_size = k.data_size := by
  unfold ProcessPc.writes
  split <;> rfl

theorem HelperPc.writes_type (pc : HelperPc) (k : Core) :
    (pc.writes k).operationType = k.operationType := by
  unfold HelperPc.writes
  split <;> rfl

theorem HelperPc.writes_size (pc : HelperPc) (k : Core) :
    (pc.writes k).data_size = k.data_size := by
  unfold HelperPc.writes
  split <;> rfl

/-- A step of a thread of the vertex `v` keeps the bounds. -/
theorem bounded_effect (h : Bounded c s) {d v : Nat} {pc : DevicePc} {writes : Core → Core}
    {m : Memory} (heffect : Effect v writes s.memory m)
    (htype : ∀ k, (writes k).operationType = k.operationType)
    (hsize : ∀ k, (writes k).data_size = k.data_size)
    (hlargest : ∀ u transfer process, pc = .run u transfer process → transfer.largest < 2 ^ 31) :
    Bounded c (s.put d pc m) := by
  have htypes := heffect.keeps Core.operationType htype
  have hsizes := heffect.keeps Core.data_size hsize
  refine ⟨fun u => ?_, fun u => ?_, fun e => ?_, fun e => (heffect.kinds e).trans (h.virtual e),
    fun d' u transfer process hrun => ?_⟩
  · have hkind := h.kind u
    rwa [show (s.memory.operation u).operationType = (m.operation u).operationType from
      (htypes u).symm] at hkind
  · exact Nat.lt_of_le_of_lt (Nat.le_of_eq (hsizes u)) (h.size u)
  · rcases heffect.sizes e with heq | heq
    · exact Nat.lt_of_le_of_lt (Nat.le_of_eq heq) (h.edge e)
    · rw [compute_result_size_eq] at heq
      have hle := result_until_le (h.kind v) (s.memory.operation v).data_size
      have hlt := h.size v
      simp only [put_memory]
      omega
  · by_cases hd : d' = d
    · subst hd
      rw [put_device_self] at hrun
      exact hlargest u transfer process hrun
    · rw [put_device_ne s hd] at hrun
      exact h.largest d' u transfer process hrun

theorem take_size_edge (v e : Nat) (m : Memory) : (Setup.take_size v e m).edge = m.edge := by
  unfold Setup.take_size
  split <;> rfl

theorem take_size_trace (v e : Nat) (m : Memory) : (Setup.take_size v e m).trace = m.trace := by
  unfold Setup.take_size
  split <;> rfl

theorem bounded_take_size (h : Bounded c s) (d v i e : Nat) :
    Bounded c (s.put d (.edge v (i + 1)) (Setup.take_size v e s.memory)) := by
  refine ⟨fun u => ?_, fun u => ?_, fun e' => ?_, fun e' => ?_, fun d' u transfer process hrun => ?_⟩
  · have htype := take_size_keeps Core.operationType v e s.memory (fun _ _ => rfl) u
    have hkind := h.kind u
    rwa [show (s.memory.operation u).operationType =
      ((Setup.take_size v e s.memory).operation u).operationType from htype.symm] at hkind
  · simp only [put_memory]
    unfold Setup.take_size
    split
    · by_cases hu : u = v
      · subst hu
        rw [Memory.operation_modify_self]
        exact h.edge e
      · simp only [Memory.operation, Memory.modify_operation, Memory.modify_node,
          Function.update_of_ne hu]
        exact h.size u
    · exact h.size u
  · simp only [put_memory, take_size_edge]
    exact h.edge e'
  · simp only [put_memory, take_size_edge]
    exact h.virtual e'
  · by_cases hd : d' = d
    · subst hd
      rw [put_device_self] at hrun
      cases hrun
    · rw [put_device_ne s hd] at hrun
      exact h.largest d' u transfer process hrun

theorem bounded_quiet (h : Bounded c s) {d : Nat} {pc : DevicePc} (hquiet : Quiet c s s' d pc) :
    Bounded c s' := by
  have htype (u : Nat) : (s'.memory.operation u).operationType =
      (s.memory.operation u).operationType := congrArg Core.operationType (hquiet.core u)
  have hsize (u : Nat) : (s'.memory.operation u).data_size =
      (s.memory.operation u).data_size := congrArg Core.data_size (hquiet.core u)
  refine ⟨fun u => ?_, fun u => ?_, fun e => ?_, fun e => ?_, fun d' u transfer process hrun => ?_⟩
  · rw [htype]
    exact h.kind u
  · rw [hsize]
    exact h.size u
  · rw [hquiet.edge]
    exact h.edge e
  · rw [hquiet.edge]
    exact h.virtual e
  · rw [hquiet.device] at hrun
    by_cases hd : d' = d
    · subst hd
      rw [Function.update_self] at hrun
      rw [(hquiet.runs u transfer process hrun).1]
      exact Nat.two_pow_pos 31
    · rw [Function.update_of_ne hd] at hrun
      exact h.largest d' u transfer process hrun

theorem bounded_step (h : Bounded c s) (hstep : c.step s move = some s') : Bounded c s' := by
  cases moved_of_stepped (step_cases hstep) with
  | quiet d pc _ hquiet => exact bounded_quiet h hquiet
  | sizes d v i e hpc => exact bounded_take_size h d v i e
  | helps d v i e helper helper' m hpc he hhelp =>
    exact bounded_effect h hhelp.effect (HelperPc.writes_type helper) (HelperPc.writes_size helper)
      (by simp)
  | processes d v transfer process process' m hpc hprocess =>
    refine bounded_effect h hprocess.effect (ProcessPc.writes_type process)
      (ProcessPc.writes_size process) (fun u transfer' process'' hrun => ?_)
    cases hrun
    exact h.largest d v transfer process hpc
  | transfers d v transfer transfer' process m hpc htransfer =>
    refine bounded_effect h htransfer.effect (TransferPc.writes_type transfer)
      (TransferPc.writes_size transfer) (fun u transfer'' process' hrun => ?_)
    cases hrun
    rcases htransfer.largest with hle | ⟨e, heq⟩
    · exact Nat.lt_of_le_of_lt hle (h.largest d v transfer process hpc)
    · rw [heq]
      exact h.edge e

theorem bounded_start (hplain : Plain c) (queue : List Nat) : Bounded c (c.start queue) := by
  refine ⟨fun v => (hplain.node v).1, fun v => (hplain.node v).2.1, hplain.edge, fun _ => rfl,
    fun d v transfer process hrun => ?_⟩
  cases hrun

end hero.data_parallelism
