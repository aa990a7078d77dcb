-- The progress that a vertex publishes: in every run of the data-parallel executor the words below
-- its front and from its rear on are produced.
import HeroDB.MorselProgress

namespace hero.data_parallelism

variable {c : Setup} {s s' : State} {move : Move}

/-! ## The words below the front -/

/-- The words of the rows below `offset` are produced; a table has less than 2^31 rows. -/
def Memory.Front (m : Memory) (u offset : Nat) : Prop :=
  ∀ word < result_until (m.operation u).operationType offset,
    word < result_until (m.operation u).operationType (2 ^ 31) →
    Produced m.trace (m.operation u).operationType u word

/-- What the processing loop has executed, and what it has published of it. -/
structure Fronts (s : State) : Prop where
  published : ∀ u, s.memory.Front u (s.memory.operation u).processed_until
  reached : ∀ d v transfer process, s.device d = .run v transfer process →
    s.memory.Front v process.reached

theorem Produced.grow {trace trace' : List Event} {t : Operation_Type} {u word : Nat}
    (hgrow : trace <+: trace') (h : Produced trace t u word) : Produced trace' t u word := by
  obtain ⟨d, offset, hmem, hwrites⟩ := h
  exact ⟨d, offset, hgrow.subset hmem, hwrites⟩

theorem Memory.Front.mono {m m' : Memory} {u offset : Nat} (h : m.Front u offset)
    (htype : (m'.node u).core.operationType = (m.node u).core.operationType)
    (htrace : m.trace <+: m'.trace) : m'.Front u offset := by
  have hop : (m'.operation u).operationType = (m.operation u).operationType := htype
  unfold Memory.Front
  rw [hop]
  exact fun word hword hfit => (h word hword hfit).grow htrace

theorem front_zero {m : Memory} {u : Nat} (ht : Kind (m.operation u).operationType) :
    m.Front u 0 := by
  intro word hword
  have hle := result_until_le ht 0
  omega

/-- The launch on the morsel at the front moves it on. -/
theorem front_executed {m m' : Memory} {u d offset : Nat} (h : m.Front u offset)
    (ht : Kind (m.operation u).operationType)
    (htype : (m'.node u).core.operationType = (m.node u).core.operationType)
    (htrace : m'.trace = m.trace ++ [.execute u d offset]) :
    m'.Front u (size_add offset ng_morsel_size) := by
  have hop : (m'.operation u).operationType = (m.operation u).operationType := htype
  have hold := h.mono htype (by rw [htrace]; exact List.prefix_append ..)
  intro word hword hfit
  by_cases hbelow : word < result_until (m'.operation u).operationType offset
  · exact hold word hbelow hfit
  · rw [hop] at hword hfit hbelow ⊢
    have hwrap : size_add offset ng_morsel_size ≤ offset + ng_morsel_size := Nat.mod_le _ _
    have hnext := Nat.lt_of_lt_of_le hword (result_until_mono ht hwrap)
    have hoffset := lt_of_result_until ht (Nat.not_lt.mp hbelow) hfit
    refine ⟨d, offset, ?_, writes_of ht hoffset (Nat.not_lt.mp hbelow) hnext⟩
    rw [htrace]
    exact List.mem_append_right _ (List.mem_singleton_self _)

/-- A step that writes neither the types nor the published front, and leaves the processing loops
where they are or starts one. -/
theorem fronts_frame (h : Fronts s) (hbounded : Bounded c s')
    (htype : ∀ u, (s'.memory.node u).core.operationType = (s.memory.node u).core.operationType)
    (hprocessed : ∀ u, (s'.memory.node u).core.processed_until =
      (s.memory.node u).core.processed_until)
    (htrace : s.memory.trace <+: s'.memory.trace)
    (hruns : ∀ d v transfer process, s'.device d = .run v transfer process →
      process.reached = 0 ∨ ∃ transfer', s.device d = .run v transfer' process) : Fronts s' := by
  refine ⟨fun u => ?_, fun d v transfer process hrun => ?_⟩
  · rw [show (s'.memory.operation u).processed_until = (s.memory.operation u).processed_until from
      hprocessed u]
    exact (h.published u).mono (htype u) htrace
  · rcases hruns d v transfer process hrun with hzero | ⟨transfer', hwas⟩
    · rw [hzero]
      exact front_zero (hbounded.kind v)
    · exact (h.reached d v transfer' process hwas).mono (htype v) htrace

theorem TransferPc.writes_processed (pc : TransferPc) (k : Core) :
    (pc.writes k).processed_until = k.processed_until := by
  unfold TransferPc.writes
  split <;> rfl

theorem HelperPc.writes_processed (pc : HelperPc) (k : Core) :
    (pc.writes k).processed_until = k.processed_until := by
  unfold HelperPc.writes
  split <;> rfl

theorem same_grows {trace trace' : List Event} (h : trace' = trace) : trace <+: trace' :=
  ⟨[], by rw [List.append_nil, h]⟩

theorem TransferStep.grows {info : VertexInfo} {pc pc' : TransferPc} {m m' : Memory}
    (h : TransferStep info pc pc' m m') : m.trace <+: m'.trace := by
  rcases h.trace with heq | ⟨_, _, _, _, _, _, _, heq⟩
  · exact same_grows heq
  · rw [heq]
    exact List.prefix_append ..

theorem ProcessStep.grows {info : VertexInfo} {d : Nat} {pc pc' : ProcessPc} {m m' : Memory}
    (h : ProcessStep info d pc pc' m m') : m.trace <+: m'.trace := by
  rcases h.trace with ⟨heq, -⟩ | ⟨_, _, _, heq⟩
  · exact same_grows heq
  · rw [heq]
    exact List.prefix_append ..

theorem HelperStep.grows {info : VertexInfo} {d : Nat} {pc pc' : HelperPc} {m m' : Memory}
    (h : HelperStep info d pc pc' m m') : m.trace <+: m'.trace := by
  rcases h.trace with ⟨heq, -⟩ | ⟨_, heq⟩
  · exact same_grows heq
  · rw [heq]
    exact List.prefix_append ..

/-- The processing loop publishes what it has executed. -/
theorem fronts_processes (h : Fronts s) (hbounded : Bounded c s) {d v : Nat}
    {transfer : TransferPc} {process process' : ProcessPc} {m : Memory}
    (hpc : s.device d = .run v transfer process)
    (hprocess : ProcessStep (c.plan.findVertexDetails v) d process process' s.memory m) :
    Fronts (s.put d (.run v transfer process') m) := by
  have htype := hprocess.effect.keeps Core.operationType (ProcessPc.writes_type process)
  have hreached := h.reached d v transfer process hpc
  refine ⟨fun u => ?_, fun d' u transfer' process'' hrun => ?_⟩
  · have hold := (h.published u).mono (htype u) hprocess.grows
    by_cases hu : u = v
    · subst hu
      have hwritten := congrArg Core.processed_until hprocess.effect.node
      by_cases hput : ∃ offset, process = .put_processed offset
      · obtain ⟨offset, rfl⟩ := hput
        rw [show ((s.put d (.run u transfer process') m).memory.operation u).processed_until =
          size_add offset ng_morsel_size from hwritten]
        exact hreached.mono (htype u) hprocess.grows
      · have hkept : (m.operation u).processed_until =
            (s.memory.operation u).processed_until := by
          refine hwritten.trans ?_
          unfold ProcessPc.writes
          split
          · exact absurd ⟨_, rfl⟩ hput
          · rfl
        rwa [← hkept] at hold
    · have hkept : (m.operation u).processed_until = (s.memory.operation u).processed_until :=
        congrArg Core.processed_until (hprocess.effect.others u hu)
      rwa [← hkept] at hold
  · by_cases hd : d' = d
    · subst hd
      rw [put_device_self] at hrun
      cases hrun
      rcases hprocess.trace with ⟨htrace, hzero | hsame⟩ | ⟨offset, rfl, rfl, htrace⟩
      · rw [hzero]
        have hkind : Kind (m.operation v).operationType := by
          rw [show (m.operation v).operationType = (s.memory.operation v).operationType from htype v]
          exact hbounded.kind v
        exact front_zero hkind
      · rw [hsame]
        exact hreached.mono (htype v) hprocess.grows
      · exact front_executed hreached (hbounded.kind v) (htype v) htrace
    · rw [put_device_ne s hd] at hrun
      exact (h.reached d' u transfer' process'' hrun).mono (htype u) hprocess.grows

theorem fronts_step (h : Fronts s) (hbounded : Bounded c s) (hstep : c.step s move = some s') :
    Fronts s' := by
  have hbounded' := bounded_step hbounded hstep
  cases moved_of_stepped (step_cases hstep) with
  | quiet d pc _ hquiet =>
    refine fronts_frame h hbounded' (fun u => congrArg Core.operationType (hquiet.core u))
      (fun u => congrArg Core.processed_until (hquiet.core u)) (same_grows hquiet.trace)
      (fun d' v transfer process hrun => ?_)
    rw [hquiet.device] at hrun
    by_cases hd : d' = d
    · subst hd
      rw [Function.update_self] at hrun
      rw [(hquiet.runs v transfer process hrun).2]
      exact .inl rfl
    · rw [Function.update_of_ne hd] at hrun
      exact .inr ⟨transfer, hrun⟩
  | sizes d v i e hpc =>
    refine fronts_frame h hbounded' (take_size_keeps Core.operationType v e _ (fun _ _ => rfl))
      (take_size_keeps Core.processed_until v e _ (fun _ _ => rfl))
      (same_grows (take_size_trace v e s.memory))
      (fun d' u transfer process hrun => ?_)
    by_cases hd : d' = d
    · subst hd
      rw [put_device_self] at hrun
      cases hrun
    · rw [put_device_ne s hd] at hrun
      exact .inr ⟨transfer, hrun⟩
  | helps d v i e helper helper' m hpc he hhelp =>
    refine fronts_frame h hbounded' (hhelp.effect.keeps _ (HelperPc.writes_type helper))
      (hhelp.effect.keeps _ (HelperPc.writes_processed helper)) hhelp.grows
      (fun d' u transfer process hrun => ?_)
    by_cases hd : d' = d
    · subst hd
      rw [put_device_self] at hrun
      cases hrun
    · rw [put_device_ne s hd] at hrun
      exact .inr ⟨transfer, hrun⟩
  | processes d v transfer process process' m hpc hprocess =>
    exact fronts_processes h hbounded hpc hprocess
  | transfers d v transfer transfer' process m hpc htransfer =>
    refine fronts_frame h hbounded' (htransfer.effect.keeps _ (TransferPc.writes_type transfer))
      (htransfer.effect.keeps _ (TransferPc.writes_processed transfer)) htransfer.grows
      (fun d' u transfer'' process' hrun => ?_)
    by_cases hd : d' = d
    · subst hd
      rw [put_device_self] at hrun
      cases hrun
      exact .inr ⟨transfer, hpc⟩
    · rw [put_device_ne s hd] at hrun
      exact .inr ⟨transfer'', hrun⟩

theorem fronts_start (hplain : Plain c) (queue : List Nat) : Fronts (c.start queue) := by
  refine ⟨fun u => ?_, fun d v transfer process hrun => ?_⟩
  · rw [show ((c.start queue).memory.operation u).processed_until = 0 from (hplain.node u).2.2.2]
    exact front_zero (hplain.node u).1
  · cases hrun

/-! ## The helpers -/

/-- A helper works over an edge that is not virtual, and past its wait the source is initialised. -/
structure Sharing (c : Setup) (s : State) : Prop where
  real : ∀ d v i helper e, s.device d = .share v i helper →
    (c.plan.findVertexDetails v).incoming_edges[i]? = some e →
    (c.start_memory.edge e).is_virtual_vertex = false
  started : ∀ d v i helper e, s.device d = .share v i helper →
    (c.plan.findVertexDetails v).incoming_edges[i]? = some e → helper ≠ .wait →
    s.memory.initialized (c.plan.source e)

theorem initialized_mono (h : Moved c s move s') {u : Nat} (hu : s.memory.initialized u) :
    s'.memory.initialized u := by
  cases h with
  | quiet d pc _ hquiet =>
    exact (initialized_eq (congrArg Core.is_initialized (hquiet.core u))).mpr hu
  | sizes d v i e hpc => exact (take_size_initialized v e u _).mpr hu
  | helps d v i e helper helper' m hpc he hhelp =>
    exact (hhelp.effect.initialized (HelperPc.writes_initialized helper)).mpr hu
  | processes d v transfer process process' m hpc hprocess =>
    exact (hprocess.effect.initialized (ProcessPc.writes_initialized process)).mpr hu
  | transfers d v transfer transfer' process m hpc htransfer =>
    rcases transfer_initialized htransfer.effect with ⟨-, hsame⟩ | ⟨-, hsame⟩
    · exact (hsame u).mpr hu
    · exact (hsame u).mpr (.inr hu)

/-- A device that leaves no helper, and enters one only at its wait. -/
theorem sharing_frame (h : Sharing c s) (hmoved : Moved c s move s')
    (hshares : ∀ d v i helper, s'.device d = .share v i helper →
      s.device d = .share v i helper ∨ helper = .wait ∧
        ∀ e, (c.plan.findVertexDetails v).incoming_edges[i]? = some e →
          (c.start_memory.edge e).is_virtual_vertex = false) : Sharing c s' := by
  refine ⟨fun d v i helper e hpc he => ?_, fun d v i helper e hpc he hwait => ?_⟩
  · rcases hshares d v i helper hpc with hwas | ⟨-, hreal⟩
    · exact h.real d v i helper e hwas he
    · exact hreal e he
  · rcases hshares d v i helper hpc with hwas | ⟨hnow, -⟩
    · exact initialized_mono hmoved (h.started d v i helper e hwas he hwait)
    · exact absurd hnow hwait

/-- The other devices, after a step of the device `d` to a place that is no helper. -/
theorem share_of_put {d d' v i : Nat} {pc : DevicePc} {m : Memory} {helper : HelperPc}
    (hpc : ∀ v i helper, pc ≠ .share v i helper)
    (h : (s.put d pc m).device d' = .share v i helper) : s.device d' = .share v i helper := by
  by_cases hd : d' = d
  · subst hd
    rw [put_device_self] at h
    exact absurd h (hpc v i helper)
  · rwa [put_device_ne s hd] at h

theorem sharing_step (h : Sharing c s) (hbounded : Bounded c s)
    (hstep : c.step s move = some s') : Sharing c s' := by
  have hmoved := moved_of_stepped (step_cases hstep)
  cases hmoved with
  | quiet d pc _ hquiet =>
    refine sharing_frame h (.quiet d pc s' hquiet) (fun d' v i helper hpc => ?_)
    rw [hquiet.device] at hpc
    by_cases hd : d' = d
    · subst hd
      rw [Function.update_self] at hpc
      obtain ⟨hwait, hreal⟩ := hquiet.shares v i helper hpc
      exact .inr ⟨hwait, fun e he => hbounded.virtual e ▸ hreal e he⟩
    · rw [Function.update_of_ne hd] at hpc
      exact .inl hpc
  | sizes d v i e hpc =>
    exact sharing_frame h (.sizes d v i e hpc) (fun _ _ _ _ hpc => .inl (share_of_put (by simp) hpc))
  | processes d v transfer process process' m hpc hprocess =>
    exact sharing_frame h (.processes d v transfer process process' m hpc hprocess)
      (fun _ _ _ _ hpc => .inl (share_of_put (by simp) hpc))
  | transfers d v transfer transfer' process m hpc htransfer =>
    exact sharing_frame h (.transfers d v transfer transfer' process m hpc htransfer)
      (fun _ _ _ _ hpc => .inl (share_of_put (by simp) hpc))
  | helps d v i e helper helper' m hpc he hhelp =>
    have hmono (u : Nat) (hu : s.memory.initialized u) : m.initialized u :=
      initialized_mono (.helps d v i e helper helper' m hpc he hhelp) hu
    refine ⟨fun d' v' i' h' e' hpc' he' => ?_, fun d' v' i' h' e' hpc' he' hwait => ?_⟩
    · by_cases hd : d' = d
      · subst hd
        rw [put_device_self] at hpc'
        cases hpc'
        exact h.real d' v i helper e' hpc he'
      · rw [put_device_ne s hd] at hpc'
        exact h.real d' v' i' h' e' hpc' he'
    · by_cases hd : d' = d
      · subst hd
        rw [put_device_self] at hpc'
        cases hpc'
        rw [he] at he'
        cases he'
        by_cases hwas : helper = .wait
        · rcases hhelp.starts hwas with hnow | hinit
          · exact absurd hnow hwait
          · exact hmono _ hinit
        · exact hmono _ (h.started d' v i helper e hpc he hwas)
      · rw [put_device_ne s hd] at hpc'
        exact hmono _ (h.started d' v' i' h' e' hpc' he' hwait)

/-! ## The setup of a vertex -/

/-- The rears that the setup writes before it marks the vertex as initialised. -/
structure Prepared (s : State) : Prop where
  processed : ∀ d v max process, s.device d = .run v (.put_rear_fetched max) process →
    (s.memory.operation v).rear_processed_until = max ∧ (s.memory.operation v).data_size ≤ max
  fetched : ∀ d v max process, s.device d = .run v (.put_initialized max) process →
    (s.memory.operation v).rear_processed_until = max ∧
    (s.memory.operation v).rear_fetched_until = max ∧ (s.memory.operation v).data_size ≤ max

/-- The data size of an operation with its two rears. -/
def Core.extent (k : Core) : Nat × Nat × Nat :=
  (k.data_size, k.rear_fetched_until, k.rear_processed_until)

theorem extent_eq {m m' : Memory} {u : Nat}
    (h : (m'.node u).core.extent = (m.node u).core.extent) :
    (m'.operation u).data_size = (m.operation u).data_size ∧
    (m'.operation u).rear_fetched_until = (m.operation u).rear_fetched_until ∧
    (m'.operation u).rear_processed_until = (m.operation u).rear_processed_until := by
  unfold Core.extent at h
  obtain ⟨hsize, hrears⟩ := Prod.mk.inj h
  obtain ⟨hfetched, hprocessed⟩ := Prod.mk.inj hrears
  exact ⟨hsize, hfetched, hprocessed⟩

theorem ProcessPc.writes_extent (pc : ProcessPc) (k : Core) : (pc.writes k).extent = k.extent := by
  unfold ProcessPc.writes
  split
  · simp only [Core.extent]
  · rfl

/-- A step that keeps the extent of each vertex in its setup. -/
theorem prepared_frame (h : Prepared s) (howned : Owned s)
    (hextent : ∀ d v transfer process, s.device d = .run v transfer process →
      ¬ s.memory.initialized v → (s'.memory.node v).core.extent = (s.memory.node v).core.extent)
    (hruns : ∀ d v transfer process, s'.device d = .run v transfer process → transfer = .start ∨
      ∃ process', s.device d = .run v transfer process') : Prepared s' := by
  have hold : ∀ d v transfer process, s'.device d = .run v transfer process →
      transfer ≠ .start → transfer.ready = false →
      (∃ process', s.device d = .run v transfer process') ∧
        (s'.memory.node v).core.extent = (s.memory.node v).core.extent := by
    intro d v transfer process hrun hstart hready
    rcases hruns d v transfer process hrun with heq | ⟨process', hwas⟩
    · exact absurd heq hstart
    · refine ⟨⟨process', hwas⟩, hextent d v transfer process' hwas ?_⟩
      have hheld : (s.device d).vertex = some v := by rw [hwas]; rfl
      refine howned.uninitialized hheld (fun transfer' process'' hrun' => ?_)
      rw [hwas] at hrun'
      cases hrun'
      exact hready
  refine ⟨fun d v max process hrun => ?_, fun d v max process hrun => ?_⟩
  · obtain ⟨⟨process', hwas⟩, hextent⟩ := hold d v _ process hrun (by simp) rfl
    obtain ⟨hsize, -, hprocessed⟩ := extent_eq hextent
    rw [hsize, hprocessed]
    exact h.processed d v max process' hwas
  · obtain ⟨⟨process', hwas⟩, hextent⟩ := hold d v _ process hrun (by simp) rfl
    obtain ⟨hsize, hfetched, hprocessed⟩ := extent_eq hextent
    rw [hsize, hfetched, hprocessed]
    exact h.fetched d v max process' hwas

/-- The helper leaves a vertex that is not initialised alone. -/
theorem helps_core (h : Sharing c s) {d v i e : Nat} {helper helper' : HelperPc} {m : Memory}
    (hpc : s.device d = .share v i helper)
    (he : (c.plan.findVertexDetails v).incoming_edges[i]? = some e)
    (hhelp : HelperStep (c.plan.findVertexDetails (c.plan.source e)) d helper helper' s.memory m)
    {u : Nat} (hu : ¬ s.memory.initialized u) : (m.node u).core = (s.memory.node u).core := by
  by_cases hsource : u = c.plan.source e
  · subst hsource
    have hwait : helper = .wait := by
      by_contra hne
      exact hu (h.started d v i helper e hpc he hne)
    subst hwait
    exact hhelp.effect.node
  · exact hhelp.effect.others u hsource

/-- The setup of a vertex writes both rears, to a value that is at least its data size. -/
theorem prepared_transfers (h : Prepared s) (howned : Owned s) {d v : Nat}
    {transfer transfer' : TransferPc} {process : ProcessPc} {m : Memory}
    (hpc : s.device d = .run v transfer process)
    (htransfer : TransferStep (c.plan.findVertexDetails v) transfer transfer' s.memory m)
    (hwaits : c.Waits s (.transfer d)) : Prepared (s.put d (.run v transfer' process) m) := by
  have hnode := htransfer.effect.node
  have hothers : ∀ d' u transfer'' process', d' ≠ d →
      s.device d' = .run u transfer'' process' →
      (m.node u).core.extent = (s.memory.node u).core.extent := by
    intro d' u transfer'' process' hd hrun
    refine congrArg Core.extent (htransfer.effect.others u fun hu => hd ?_)
    have hu' : u = v := hu
    subst hu'
    exact howned.apart d' d u (by rw [hrun]; rfl) (by rw [hpc]; rfl)
  refine ⟨fun d' u max process' hrun => ?_, fun d' u max process' hrun => ?_⟩
  · by_cases hd : d' = d
    · subst hd
      rw [put_device_self] at hrun
      cases hrun
      have hwas := htransfer.processed max rfl
      subst hwas
      have hle : (s.memory.operation v).data_size ≤ max := by
        unfold Setup.Waits at hwaits
        simp only [hpc] at hwaits
        exact hwaits
      exact ⟨congrArg Core.rear_processed_until hnode,
        Nat.le_trans (Nat.le_of_eq (congrArg Core.data_size hnode)) hle⟩
    · rw [put_device_ne s hd] at hrun
      obtain ⟨hsize, -, hprocessed⟩ := extent_eq (hothers d' u _ process' hd hrun)
      rw [put_memory, hsize, hprocessed]
      exact h.processed d' u max process' hrun
  · by_cases hd : d' = d
    · subst hd
      rw [put_device_self] at hrun
      cases hrun
      have hwas := htransfer.fetched max rfl
      subst hwas
      obtain ⟨hprocessed, hle⟩ := h.processed d' v max process hpc
      exact ⟨(congrArg Core.rear_processed_until hnode).trans hprocessed,
        congrArg Core.rear_fetched_until hnode,
        Nat.le_trans (Nat.le_of_eq (congrArg Core.data_size hnode)) hle⟩
    · rw [put_device_ne s hd] at hrun
      obtain ⟨hsize, hfetched, hprocessed⟩ := extent_eq (hothers d' u _ process' hd hrun)
      rw [put_memory, hsize, hfetched, hprocessed]
      exact h.fetched d' u max process' hrun

/-- The other devices, after a step of the device `d` to a place where no vertex runs. -/
theorem run_of_put {d d' v : Nat} {pc : DevicePc} {m : Memory} {transfer : TransferPc}
    {process : ProcessPc} (hpc : ∀ v transfer process, pc ≠ .run v transfer process)
    (h : (s.put d pc m).device d' = .run v transfer process) :
    s.device d' = .run v transfer process := by
  by_cases hd : d' = d
  · subst hd
    rw [put_device_self] at h
    exact absurd h (hpc v transfer process)
  · rwa [put_device_ne s hd] at h

theorem prepared_step (h : Prepared s) (howned : Owned s) (hsharing : Sharing c s)
    (hwaits : c.Waits s move) (hstep : c.step s move = some s') : Prepared s' := by
  cases moved_of_stepped (step_cases hstep) with
  | quiet d pc _ hquiet =>
    refine prepared_frame h howned
      (fun _ v _ _ _ _ => congrArg Core.extent (hquiet.core v))
      (fun d' v transfer process hrun => ?_)
    rw [hquiet.device] at hrun
    by_cases hd : d' = d
    · subst hd
      rw [Function.update_self] at hrun
      exact .inl (hquiet.runs v transfer process hrun).1
    · rw [Function.update_of_ne hd] at hrun
      exact .inr ⟨process, hrun⟩
  | sizes d v i e hpc =>
    refine prepared_frame h howned (fun d' u transfer process hrun _ => ?_)
      (fun _ _ _ process hrun => .inr ⟨process, run_of_put (by simp) hrun⟩)
    have hne : u ≠ v := by
      intro hu
      subst hu
      have hd := howned.apart d' d u (by rw [hrun]; rfl) (by rw [hpc]; rfl)
      subst hd
      rw [hpc] at hrun
      cases hrun
    exact congrArg Core.extent (take_size_core v e u _ hne)
  | helps d v i e helper helper' m hpc he hhelp =>
    exact prepared_frame h howned
      (fun _ _ _ _ _ hu => congrArg Core.extent (helps_core hsharing hpc he hhelp hu))
      (fun _ _ _ process hrun => .inr ⟨process, run_of_put (by simp) hrun⟩)
  | processes d v transfer process process' m hpc hprocess =>
    refine prepared_frame h howned
      (fun _ u _ _ _ _ => hprocess.effect.keeps Core.extent (ProcessPc.writes_extent process) u)
      (fun d' u transfer' process'' hrun => ?_)
    by_cases hd : d' = d
    · subst hd
      rw [put_device_self] at hrun
      cases hrun
      exact .inr ⟨process, hpc⟩
    · rw [put_device_ne s hd] at hrun
      exact .inr ⟨process'', hrun⟩
  | transfers d v transfer transfer' process m hpc htransfer =>
    exact prepared_transfers h howned hpc htransfer hwaits

end hero.data_parallelism
