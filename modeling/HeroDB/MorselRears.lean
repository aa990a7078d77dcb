-- The rear of a vertex: a helper lowers it, executes the morsel there and publishes it. In every run
-- the words from the published rear on are produced.
import HeroDB.MorselFronts

namespace hero.data_parallelism

variable {c : Setup} {s s' : State} {move : Move}

/-! ## The words from the rear on -/

/-- The words of the rows from `offset` on are produced. -/
def Memory.Rear (m : Memory) (u offset : Nat) : Prop :=
  ∀ word, result_until (m.operation u).operationType offset ≤ word →
    word < compute_result_size (m.operation u) →
    Produced m.trace (m.operation u).operationType u word

/-- What the two rears of an initialised vertex say. They are apart only while a helper has lowered
the one and not yet published the other. -/
structure RearOf (c : Setup) (s : State) (u : Nat) : Prop where
  idle : (s.memory.operation u).rear_fetched_until = (s.memory.operation u).rear_processed_until ∨
    ∃ d helper, c.busy (s.device d) = some (u, helper)
  lowered : ∀ d helper, c.busy (s.device d) = some (u, helper) →
    (s.memory.operation u).rear_fetched_until =
      size_sub (s.memory.operation u).rear_processed_until ng_morsel_size
  executed : ∀ d helper, c.busy (s.device d) = some (u, helper) → helper.executed = true →
    ∃ d', .execute u d' (s.memory.operation u).rear_fetched_until ∈ s.memory.trace
  fits : (s.memory.operation u).rear_processed_until < SIZE
  words : s.memory.Rear u (s.memory.operation u).rear_processed_until

def Rears (c : Setup) (s : State) : Prop := ∀ u, s.memory.initialized u → RearOf c s u

theorem Memory.Rear.mono {m m' : Memory} {u offset : Nat} (h : m.Rear u offset)
    (htype : (m'.node u).core.operationType = (m.node u).core.operationType)
    (hsize : (m'.operation u).data_size = (m.operation u).data_size)
    (htrace : m.trace <+: m'.trace) : m'.Rear u offset := by
  have hop : (m'.operation u).operationType = (m.operation u).operationType := htype
  unfold Memory.Rear
  rw [compute_result_size_eq, hop, hsize, ← compute_result_size_eq]
  exact fun word hfrom hto => (h word hfrom hto).grow htrace

/-- The launch on the morsel before the rear moves it down. A rear below one morsel wraps, beyond
the rows of any table. -/
theorem rear_executed {m : Memory} {u d offset : Nat} (h : m.Rear u offset)
    (ht : Kind (m.operation u).operationType) (hsize : (m.operation u).data_size < 2 ^ 31)
    (hfits : offset < SIZE) (hmem : .execute u d (size_sub offset ng_morsel_size) ∈ m.trace) :
    m.Rear u (size_sub offset ng_morsel_size) := by
  intro word hfrom hto
  by_cases hold : result_until (m.operation u).operationType offset ≤ word
  · exact h word hold hto
  · have hbelow := lt_of_result_until ht hfrom hto
    have hrows : size_sub offset ng_morsel_size < 2 ^ 31 := Nat.lt_trans hbelow hsize
    have hle : ng_morsel_size ≤ offset := by
      by_contra hlt
      unfold size_sub SIZE ng_morsel_size at hrows
      unfold ng_morsel_size at hlt
      omega
    have hnext : size_sub offset ng_morsel_size + ng_morsel_size = offset := by
      rw [size_sub_eq hle hfits]
      omega
    refine ⟨d, _, hmem, writes_of ht hrows hfrom ?_⟩
    rw [hnext]
    exact Nat.not_le.mp hold

theorem rear_end {m : Memory} {u max : Nat} (ht : Kind (m.operation u).operationType)
    (hmax : (m.operation u).data_size ≤ max) : m.Rear u max := by
  intro word hfrom hto
  have hmono := result_until_mono ht hmax
  rw [compute_result_size_eq] at hto
  omega

/-! ## The one helper of a vertex -/

theorem busy_some {pc : DevicePc} {u : Nat} {helper : HelperPc}
    (h : c.busy pc = some (u, helper)) : ∃ v i e, pc = .share v i helper ∧
      (c.plan.findVertexDetails v).incoming_edges[i]? = some e ∧ c.plan.source e = u ∧
      (helper.lowered = true ∨ helper.executed = true) := by
  unfold Setup.busy at h
  split at h
  · rename_i v i helper'
    split at h
    · rename_i hbusy
      rw [Option.map_eq_some_iff] at h
      obtain ⟨e, he, heq⟩ := h
      cases heq
      rw [Bool.or_eq_true] at hbusy
      exact ⟨v, i, e, rfl, he, rfl, hbusy⟩
    · cases h
  · cases h

theorem busy_share {v i e : Nat} {helper : HelperPc}
    (he : (c.plan.findVertexDetails v).incoming_edges[i]? = some e) :
    c.busy (.share v i helper) =
      if helper.lowered || helper.executed then some (c.plan.source e, helper) else none := by
  unfold Setup.busy
  simp only [he, Option.map_some]

theorem mem_incoming_edges {v i e : Nat}
    (he : (c.plan.findVertexDetails v).incoming_edges[i]? = some e) :
    e < c.plan.ends.length ∧ c.plan.target e = v := by
  have hmem := List.mem_of_getElem? he
  unfold QueryPlan.findVertexDetails at hmem
  rw [List.mem_filter, List.mem_range, decide_eq_true_iff] at hmem
  exact hmem

/-- Two devices that help the same vertex are one: the vertex has one consumer. -/
theorem one_helper (hplain : Plain c) (howned : Owned s) (hsharing : Sharing c s)
    {d d' v v' i i' e e' : Nat} {helper helper' : HelperPc}
    (hpc : s.device d = .share v i helper) (hpc' : s.device d' = .share v' i' helper')
    (he : (c.plan.findVertexDetails v).incoming_edges[i]? = some e)
    (he' : (c.plan.findVertexDetails v').incoming_edges[i']? = some e')
    (hsource : c.plan.source e = c.plan.source e') : d = d' := by
  obtain ⟨hlt, htarget⟩ := mem_incoming_edges he
  obtain ⟨hlt', htarget'⟩ := mem_incoming_edges he'
  have hsame := hplain.one_consumer e hlt e' hlt' (hsharing.real d v i helper e hpc he)
    (hsharing.real d' v' i' helper' e' hpc' he') hsource
  subst hsame
  have hvertex : v = v' := htarget.symm.trans htarget'
  subst hvertex
  exact howned.apart d d' v (by rw [hpc]; rfl) (by rw [hpc']; rfl)

theorem busy_initialized (hsharing : Sharing c s) {d u : Nat} {helper : HelperPc}
    (h : c.busy (s.device d) = some (u, helper)) : s.memory.initialized u := by
  obtain ⟨v, i, e, hpc, he, rfl, hbusy⟩ := busy_some h
  refine hsharing.started d v i helper e hpc he fun hwait => ?_
  subst hwait
  rcases hbusy with hbusy | hbusy <;> cases hbusy

/-- A step that keeps the extent of the vertex and its helper. -/
theorem rear_frame {u : Nat} (h : RearOf c s u)
    (htype : (s'.memory.node u).core.operationType = (s.memory.node u).core.operationType)
    (hextent : (s'.memory.node u).core.extent = (s.memory.node u).core.extent)
    (htrace : s.memory.trace <+: s'.memory.trace)
    (hbusy : ∀ d helper, c.busy (s'.device d) = some (u, helper) ↔
      c.busy (s.device d) = some (u, helper)) : RearOf c s' u := by
  obtain ⟨hsize, hfetched, hprocessed⟩ := extent_eq hextent
  refine ⟨?_, fun d helper hd => ?_, fun d helper hd hexecuted => ?_, ?_, ?_⟩
  · rw [hfetched, hprocessed]
    refine h.idle.imp_right ?_
    rintro ⟨d, helper, hd⟩
    exact ⟨d, helper, (hbusy d helper).mpr hd⟩
  · rw [hfetched, hprocessed]
    exact h.lowered d helper ((hbusy d helper).mp hd)
  · rw [hfetched]
    obtain ⟨d', hmem⟩ := h.executed d helper ((hbusy d helper).mp hd) hexecuted
    exact ⟨d', htrace.subset hmem⟩
  · rw [hprocessed]
    exact h.fits
  · rw [hprocessed]
    exact h.words.mono htype hsize htrace

/-- A step of a device that helps neither before nor after it. -/
theorem busy_put {d : Nat} {pc : DevicePc} {m : Memory} (hwas : c.busy (s.device d) = none)
    (his : c.busy pc = none) (d' : Nat) :
    c.busy ((s.put d pc m).device d') = c.busy (s.device d') := by
  by_cases hd : d' = d
  · subst hd
    rw [put_device_self, his, hwas]
  · rw [put_device_ne s hd]

/-! ## The steps of the helper -/

/-- While a device helps a vertex, no other device does. -/
theorem helper_alone (hplain : Plain c) (howned : Owned s) (hsharing : Sharing c s)
    {d v i e : Nat} {helper : HelperPc} (hpc : s.device d = .share v i helper)
    (he : (c.plan.findVertexDetails v).incoming_edges[i]? = some e) {d' : Nat} {helper' : HelperPc}
    (h : c.busy (s.device d') = some (c.plan.source e, helper')) :
    d' = d ∧ helper' = helper ∧ (helper.lowered = true ∨ helper.executed = true) := by
  obtain ⟨v', i', e', hpc', he', hsource, hbusy⟩ := busy_some h
  have hd := one_helper hplain howned hsharing hpc' hpc he' he hsource
  subst hd
  rw [hpc] at hpc'
  cases hpc'
  exact ⟨rfl, rfl, hbusy⟩

theorem helper_alone_put (hplain : Plain c) (howned : Owned s) (hsharing : Sharing c s)
    {d v i e : Nat} {helper helper' : HelperPc} {m : Memory} (hpc : s.device d = .share v i helper)
    (he : (c.plan.findVertexDetails v).incoming_edges[i]? = some e) {d' : Nat}
    {helper'' : HelperPc} (h : c.busy ((s.put d (.share v i helper') m).device d') =
      some (c.plan.source e, helper'')) :
    d' = d ∧ helper'' = helper' ∧ (helper'.lowered = true ∨ helper'.executed = true) := by
  by_cases hd : d' = d
  · subst hd
    rw [put_device_self] at h
    obtain ⟨v', i', e', hpc', -, -, hbusy⟩ := busy_some h
    cases hpc'
    exact ⟨rfl, rfl, hbusy⟩
  · rw [put_device_ne s hd] at h
    exact absurd (helper_alone hplain howned hsharing hpc he h).1 hd

section Helper

variable {d v i e : Nat} {helper helper' : HelperPc} {m : Memory}

/-- A helper that is not busy finds the two rears of its vertex equal. -/
theorem rears_equal (h : Rears c s) (hplain : Plain c) (howned : Owned s) (hsharing : Sharing c s)
    (hpc : s.device d = .share v i helper)
    (he : (c.plan.findVertexDetails v).incoming_edges[i]? = some e)
    (hinit : s.memory.initialized (c.plan.source e)) (hlowered : helper.lowered = false)
    (hexecuted : helper.executed = false) :
    (s.memory.operation (c.plan.source e)).rear_fetched_until =
      (s.memory.operation (c.plan.source e)).rear_processed_until := by
  rcases (h _ hinit).idle with heq | ⟨d', helper'', hbusy⟩
  · exact heq
  · obtain ⟨-, -, hbusy | hbusy⟩ := helper_alone hplain howned hsharing hpc he hbusy
    · rw [hlowered] at hbusy
      cases hbusy
    · rw [hexecuted] at hbusy
      cases hbusy

theorem rear_takes (h : Rears c s) (hplain : Plain c) (howned : Owned s) (hsharing : Sharing c s)
    (hpc : s.device d = .share v i .take)
    (he : (c.plan.findVertexDetails v).incoming_edges[i]? = some e)
    (hhelp : HelperStep (c.plan.findVertexDetails (c.plan.source e)) d .take helper' s.memory m)
    (hinit : s.memory.initialized (c.plan.source e)) :
    RearOf c (s.put d (.share v i helper') m) (c.plan.source e) := by
  have hrear := h _ hinit
  have hequal := rears_equal h hplain howned hsharing hpc he hinit rfl rfl
  have hnode := hhelp.effect.node
  have htype := hhelp.effect.keeps Core.operationType (HelperPc.writes_type .take) (c.plan.source e)
  have hsize : (m.operation (c.plan.source e)).data_size =
      (s.memory.operation (c.plan.source e)).data_size := congrArg Core.data_size hnode
  have hprocessed : (m.operation (c.plan.source e)).rear_processed_until =
      (s.memory.operation (c.plan.source e)).rear_processed_until :=
    congrArg Core.rear_processed_until hnode
  have hfetched : (m.operation (c.plan.source e)).rear_fetched_until =
      size_sub (s.memory.operation (c.plan.source e)).rear_fetched_until ng_morsel_size :=
    congrArg Core.rear_fetched_until hnode
  have hlowered : helper'.lowered = true := hhelp.lowered.mpr (.inl rfl)
  refine ⟨.inr ⟨d, helper', ?_⟩, fun _ _ _ => ?_, fun d' helper'' hd hexecuted => ?_, ?_, ?_⟩
  · rw [put_device_self, busy_share he, if_pos (by rw [hlowered]; rfl)]
  · rw [put_memory, hfetched, hprocessed, hequal]
  · obtain ⟨-, rfl, -⟩ := helper_alone_put hplain howned hsharing hpc he hd
    rcases hhelp.executed.mp hexecuted with hwas | hwas <;> cases hwas
  · rw [put_memory, hprocessed]
    exact hrear.fits
  · rw [put_memory, hprocessed]
    exact hrear.words.mono htype hsize hhelp.grows

theorem rear_publishes (h : Rears c s) (hplain : Plain c) (howned : Owned s)
    (hbounded : Bounded c s) (hsharing : Sharing c s) (hpc : s.device d = .share v i .put_rear)
    (he : (c.plan.findVertexDetails v).incoming_edges[i]? = some e)
    (hhelp : HelperStep (c.plan.findVertexDetails (c.plan.source e)) d .put_rear helper'
      s.memory m) (hinit : s.memory.initialized (c.plan.source e)) :
    RearOf c (s.put d (.share v i helper') m) (c.plan.source e) := by
  have hrear := h _ hinit
  have hnode := hhelp.effect.node
  have htype := hhelp.effect.keeps Core.operationType (HelperPc.writes_type .put_rear)
    (c.plan.source e)
  have hbusy : c.busy (s.device d) = some (c.plan.source e, .put_rear) := by
    rw [hpc, busy_share he]
    rfl
  have hlow := hrear.lowered d .put_rear hbusy
  obtain ⟨d', hmem⟩ := hrear.executed d .put_rear hbusy rfl
  have hsize : (m.operation (c.plan.source e)).data_size =
      (s.memory.operation (c.plan.source e)).data_size := congrArg Core.data_size hnode
  have hfetched : (m.operation (c.plan.source e)).rear_fetched_until =
      (s.memory.operation (c.plan.source e)).rear_fetched_until :=
    congrArg Core.rear_fetched_until hnode
  have hprocessed : (m.operation (c.plan.source e)).rear_processed_until =
      (s.memory.operation (c.plan.source e)).rear_fetched_until :=
    congrArg Core.rear_processed_until hnode
  have hfree : ∀ d' helper'', c.busy ((s.put d (.share v i helper') m).device d') ≠
      some (c.plan.source e, helper'') := by
    intro d' helper'' hd
    obtain ⟨-, -, hlowered | hexecuted⟩ := helper_alone_put hplain howned hsharing hpc he hd
    · rcases hhelp.lowered.mp hlowered with hwas | ⟨hwas, -⟩ <;> cases hwas
    · rcases hhelp.executed.mp hexecuted with hwas | hwas <;> cases hwas
  rw [hlow] at hmem
  refine ⟨.inl ?_, fun d' helper'' hd => absurd hd (hfree d' helper''),
    fun d' helper'' hd => absurd hd (hfree d' helper''), ?_, ?_⟩
  · rw [put_memory, hfetched, hprocessed]
  · rw [put_memory, hprocessed, hlow]
    exact Nat.mod_lt _ (Nat.two_pow_pos 64)
  · rw [put_memory, hprocessed, hlow]
    have hwords := rear_executed hrear.words (hbounded.kind _) (hbounded.size _) hrear.fits hmem
    exact hwords.mono htype hsize hhelp.grows

/-- The other steps of the helper write no counter of the vertex. -/
theorem rear_stays (h : Rears c s) (hplain : Plain c) (howned : Owned s) (hsharing : Sharing c s)
    (hpc : s.device d = .share v i helper)
    (he : (c.plan.findVertexDetails v).incoming_edges[i]? = some e)
    (hhelp : HelperStep (c.plan.findVertexDetails (c.plan.source e)) d helper helper' s.memory m)
    (hinit : s.memory.initialized (c.plan.source e)) (htake : helper ≠ .take)
    (hput : helper ≠ .put_rear) : RearOf c (s.put d (.share v i helper') m) (c.plan.source e) := by
  have hrear := h _ hinit
  have hnode : (m.node (c.plan.source e)).core = (s.memory.node (c.plan.source e)).core := by
    refine hhelp.effect.node.trans ?_
    unfold HelperPc.writes
    split
    · exact absurd rfl htake
    · exact absurd rfl hput
    · rfl
  obtain ⟨hsize, hfetched, hprocessed⟩ := extent_eq (congrArg Core.extent hnode)
  have hbusy : helper'.lowered = true ∨ helper'.executed = true ↔
      helper.lowered = true ∨ helper.executed = true := by
    rw [hhelp.lowered, hhelp.executed]
    cases helper <;> simp_all [HelperPc.lowered, HelperPc.executed]
  have hwas (hnow : helper'.lowered = true ∨ helper'.executed = true) :
      c.busy (s.device d) = some (c.plan.source e, helper) := by
    rw [hpc, busy_share he, if_pos (by rw [Bool.or_eq_true]; exact hbusy.mp hnow)]
  refine ⟨?_, fun d' helper'' hd => ?_, fun d' helper'' hd hexecuted => ?_, ?_, ?_⟩
  · rw [put_memory, hfetched, hprocessed]
    refine hrear.idle.imp_right ?_
    rintro ⟨d', helper'', hd⟩
    obtain ⟨rfl, rfl, hold⟩ := helper_alone hplain howned hsharing hpc he hd
    refine ⟨d', helper', ?_⟩
    rw [put_device_self, busy_share he, if_pos (by rw [Bool.or_eq_true]; exact hbusy.mpr hold)]
  · obtain ⟨-, rfl, hnow⟩ := helper_alone_put hplain howned hsharing hpc he hd
    rw [put_memory, hfetched, hprocessed]
    exact hrear.lowered d helper (hwas hnow)
  · obtain ⟨-, rfl, hnow⟩ := helper_alone_put hplain howned hsharing hpc he hd
    rw [put_memory, hfetched]
    rcases hhelp.executed.mp hexecuted with rfl | rfl
    · rcases hhelp.trace with ⟨-, hne⟩ | ⟨-, htrace⟩
      · exact absurd rfl hne
      · refine ⟨d, ?_⟩
        rw [htrace]
        exact List.mem_append_right _ (List.mem_singleton_self _)
    · obtain ⟨d'', hmem⟩ := hrear.executed d .put_edge (hwas hnow) rfl
      exact ⟨d'', hhelp.grows.subset hmem⟩
  · rw [put_memory, hprocessed]
    exact hrear.fits
  · rw [put_memory, hprocessed]
    exact hrear.words.mono (congrArg Core.operationType hnode) hsize hhelp.grows

theorem rears_helps (h : Rears c s) (hplain : Plain c) (howned : Owned s) (hbounded : Bounded c s)
    (hsharing : Sharing c s) (hpc : s.device d = .share v i helper)
    (he : (c.plan.findVertexDetails v).incoming_edges[i]? = some e)
    (hhelp : HelperStep (c.plan.findVertexDetails (c.plan.source e)) d helper helper' s.memory m) :
    Rears c (s.put d (.share v i helper') m) := by
  intro u hu
  have hinit : s.memory.initialized u :=
    (hhelp.effect.initialized (HelperPc.writes_initialized helper)).mp hu
  by_cases hsource : u = c.plan.source e
  · subst hsource
    by_cases htake : helper = .take
    · subst htake
      exact rear_takes h hplain howned hsharing hpc he hhelp hinit
    · by_cases hput : helper = .put_rear
      · subst hput
        exact rear_publishes h hplain howned hbounded hsharing hpc he hhelp hinit
      · exact rear_stays h hplain howned hsharing hpc he hhelp hinit htake hput
  · refine rear_frame (h u hinit) (hhelp.effect.keeps Core.operationType
      (HelperPc.writes_type helper) u) (congrArg Core.extent (hhelp.effect.others u hsource))
      hhelp.grows (fun d' helper'' => ?_)
    by_cases hd : d' = d
    · subst hd
      rw [put_device_self, hpc, busy_share he, busy_share he]
      have hne : c.plan.source e ≠ u := fun heq => hsource heq.symm
      split <;> split <;> simp [hne]
    · rw [put_device_ne s hd]

end Helper

/-! ## Every step -/

/-- After the setup the transfer thread leaves the counters of its vertex alone. -/
theorem TransferPc.writes_ready {pc : TransferPc} (h : pc.ready = true) (k : Core) :
    pc.writes k = k := by
  unfold TransferPc.writes
  split
  · cases h
  · cases h
  · cases h
  · rfl

/-- The setup ends with both rears at the end of the data. -/
theorem rears_transfers (h : Rears c s) (howned : Owned s) (hbounded : Bounded c s)
    (hsharing : Sharing c s) (hprepared : Prepared s) {d v : Nat}
    {transfer transfer' : TransferPc} {process : ProcessPc} {m : Memory}
    (hpc : s.device d = .run v transfer process)
    (htransfer : TransferStep (c.plan.findVertexDetails v) transfer transfer' s.memory m) :
    Rears c (s.put d (.run v transfer' process) m) := by
  intro u hu
  have hbusy (d' : Nat) : c.busy ((s.put d (.run v transfer' process) m).device d') =
      c.busy (s.device d') := busy_put (by rw [hpc]; rfl) rfl d'
  have htype := htransfer.effect.keeps Core.operationType (TransferPc.writes_type transfer) u
  by_cases hinit : s.memory.initialized u
  · refine rear_frame (h u hinit) htype (congrArg Core.extent ?_) htransfer.grows
      (fun d' helper => by rw [hbusy])
    by_cases hv : u = v
    · subst hv
      obtain ⟨transfer'', process', hrun, hready⟩ := howned.late d u (by rw [hpc]; rfl) hinit
      rw [hpc] at hrun
      cases hrun
      exact htransfer.effect.node.trans (TransferPc.writes_ready hready _)
    · exact htransfer.effect.others u hv
  · rcases transfer_initialized htransfer.effect with ⟨-, hsame⟩ | ⟨⟨max, rfl⟩, hsame⟩
    · exact absurd ((hsame u).mp hu) hinit
    · have hv : u = v := ((hsame u).mp hu).resolve_right hinit
      subst hv
      obtain ⟨hprocessed, hfetched, hle⟩ := hprepared.fetched d u max process hpc
      have hnode := htransfer.effect.node
      have hfree : ∀ d' helper, c.busy ((s.put d (.run u transfer' process) m).device d') ≠
          some (u, helper) := by
        intro d' helper hd
        rw [hbusy] at hd
        exact hinit (busy_initialized hsharing hd)
      have hsize' : (m.operation u).data_size = (s.memory.operation u).data_size :=
        congrArg Core.data_size hnode
      have hfetched' : (m.operation u).rear_fetched_until = max :=
        (congrArg Core.rear_fetched_until hnode).trans hfetched
      have hprocessed' : (m.operation u).rear_processed_until = max :=
        (congrArg Core.rear_processed_until hnode).trans hprocessed
      refine ⟨.inl (hfetched'.trans hprocessed'.symm), fun d' helper hd => absurd hd (hfree d' helper),
        fun d' helper hd => absurd hd (hfree d' helper), ?_, ?_⟩
      · rw [put_memory, hprocessed']
        have hmax := hbounded.largest d u (.put_initialized max) process hpc
        exact Nat.lt_trans hmax (by decide)
      · rw [put_memory, hprocessed']
        refine rear_end ?_ (by rw [hsize']; exact hle)
        rw [show (m.operation u).operationType = (s.memory.operation u).operationType from htype]
        exact hbounded.kind u

theorem rears_step (h : Rears c s) (hplain : Plain c) (howned : Owned s) (hbounded : Bounded c s)
    (hsharing : Sharing c s) (hprepared : Prepared s) (hstep : c.step s move = some s') :
    Rears c s' := by
  cases moved_of_stepped (step_cases hstep) with
  | quiet d pc _ hquiet =>
    intro u hu
    refine rear_frame (h u ?_) (congrArg Core.operationType (hquiet.core u))
      (congrArg Core.extent (hquiet.core u)) (same_grows hquiet.trace)
      (fun d' helper => ?_)
    · exact (initialized_eq (congrArg Core.is_initialized (hquiet.core u))).mp hu
    · rw [hquiet.device]
      by_cases hd : d' = d
      · subst hd
        rw [Function.update_self, hquiet.is_free, hquiet.was_free]
      · rw [Function.update_of_ne hd]
  | sizes d v i e hpc =>
    intro u hu
    have hinit := (take_size_initialized v e u s.memory).mp hu
    have hne : u ≠ v := by
      intro hv
      subst hv
      obtain ⟨transfer, process, hrun, -⟩ := howned.late d u (by rw [hpc]; rfl) hinit
      rw [hpc] at hrun
      cases hrun
    have hcore := take_size_core v e u s.memory hne
    refine rear_frame (h u hinit) (congrArg Core.operationType hcore) (congrArg Core.extent hcore)
      (same_grows (take_size_trace v e s.memory)) (fun d' helper => ?_)
    rw [busy_put (by rw [hpc]; rfl) rfl]
  | helps d v i e helper helper' m hpc he hhelp =>
    exact rears_helps h hplain howned hbounded hsharing hpc he hhelp
  | processes d v transfer process process' m hpc hprocess =>
    intro u hu
    have hinit := (hprocess.effect.initialized (ProcessPc.writes_initialized process)).mp hu
    refine rear_frame (h u hinit) (hprocess.effect.keeps _ (ProcessPc.writes_type process) u)
      (hprocess.effect.keeps _ (ProcessPc.writes_extent process) u) hprocess.grows
      (fun d' helper => ?_)
    rw [busy_put (by rw [hpc]; rfl) rfl]
  | transfers d v transfer transfer' process m hpc htransfer =>
    exact rears_transfers h howned hbounded hsharing hprepared hpc htransfer

end hero.data_parallelism
