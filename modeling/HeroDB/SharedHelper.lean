-- The steps of the helper of a shared selection: it tests the front counter against the rear, lowers
-- the rear by a morsel, executes that morsel and publishes it.
import HeroDB.SharedTransfer

namespace hero.data_parallelism

open front_and_rear (Meeting)

namespace Selection

variable {c : Selection} {m m' : Memory} {a b : Meeting} {s : Threads}

/-! ## The helper -/

/-- A step of the helper: it writes the rear counters and adds buffers of its own device. -/
theorem Refines.helper_step (h : c.Refines s a) (hp : c.Prepared s.memory) (rear handed : Nat)
    (helper : front_and_rear.Helper) (pc : HelperPc) (m' : Memory)
    (hstep : work_sharing_transfer_and_process_data c.device_type c.info c.helper s.helper s.memory
      = some (pc, m'))
    (hk : c.Keeps c.helper s.memory m') (hcolumn : m'.edge c.column_edge = s.memory.edge c.column_edge)
    (hcounters : m'.operation c.vertex = { s.memory.operation c.vertex with
      rear_fetched_until := ng_morsel_size * rear
      rear_processed_until := ng_morsel_size * handed })
    (hrear : rear ≤ a.rear) (hhanded : handed ≤ a.handed)
    (howner : ∀ offset, .execute c.vertex c.owner offset ∈ m'.trace ↔
      .execute c.vertex c.owner offset ∈ s.memory.trace)
    (hhelper : ∀ offset, .execute c.vertex c.helper offset ∈ m'.trace ↔
      ∃ i, i < c.k ∧ handed ≤ i + pc.ran ∧ offset = ng_morsel_size * i)
    (hpc : c.HelperOk m' { a with rear := rear, handed := handed, helper := helper } pc)
    (hmove : { a with rear := rear, handed := handed, helper := helper } = a ∨
      front_and_rear.Step a { a with rear := rear, handed := handed, helper := helper })
    (hfetched : Lowers c.data_size (ng_morsel_size * a.rear) (ng_morsel_size * rear))
    (hprocessed : Lowers c.data_size (ng_morsel_size * a.handed) (ng_morsel_size * handed))
    (hwork : pc.work c.k rear < s.helper.work c.k a.rear) : Moves s a .helper (c := c) := by
  obtain ⟨hrf, hrp⟩ := h.rear hp.initialized
  refine ⟨{ s with helper := pc, memory := m' },
    { a with rear := rear, handed := handed, helper := helper }, ?_,
    ⟨⟨h.base.keeps hk, ?_, ?_, fun _ => ?_, fun i hi => ?_, ?_, ?_, hpc, ?_, hhelper⟩, hmove,
      ?_, ?_⟩, ?_⟩
  · simp [step, hstep]
  · rw [hcounters]; exact h.fetched
  · rw [hcounters]; exact h.processed
  · rw [hcounters]; exact ⟨rfl, rfl⟩
  · exact hk.grows _ _ (h.sub_buffers i hi)
  · exact h.transfer.keeps hk hp.initialized (by rw [hcolumn]) rfl rfl hrear
  · exact h.process.keeps hk rfl (Nat.le_refl _) hhanded
  · exact fun offset => (howner offset).trans (h.owner_log offset)
  · rw [hrf]; simp only [hcounters]; exact hfetched
  · rw [hrp]; simp only [hcounters]; exact hprocessed
  · unfold work
    rw [hrf]
    simp only [hcounters, morsel_div]
    omega

/-- A step of the helper that leaves the rear counters as they are. -/
theorem Refines.helper_moves_on (h : c.Refines s a) (hp : c.Prepared s.memory)
    (helper : front_and_rear.Helper) (pc : HelperPc) (m' : Memory)
    (hstep : work_sharing_transfer_and_process_data c.device_type c.info c.helper s.helper s.memory
      = some (pc, m'))
    (hk : c.Keeps c.helper s.memory m') (hcolumn : m'.edge c.column_edge = s.memory.edge c.column_edge)
    (hoperation : m'.operation c.vertex = s.memory.operation c.vertex)
    (htrace : m'.trace = s.memory.trace) (hran : pc.ran = s.helper.ran)
    (hpc : c.HelperOk m' { a with helper := helper } pc)
    (hmove : { a with helper := helper } = a ∨ front_and_rear.Step a { a with helper := helper })
    (hwork : pc.work c.k a.rear < s.helper.work c.k a.rear) : Moves s a .helper (c := c) := by
  obtain ⟨hrf, hrp⟩ := h.rear hp.initialized
  refine h.helper_step hp a.rear a.handed helper pc m' hstep hk hcolumn ?_ (Nat.le_refl _)
    (Nat.le_refl _) (fun _ => by rw [htrace]) ?_ hpc hmove (.inl rfl) (.inl rfl) hwork
  · rw [hoperation, ← hrf, ← hrp]
  · rw [htrace, hran]
    exact h.helper_log

theorem shared_name_eq (hp : c.Prepared m) :
    shared_result_name c.device_type c.info c.helper m = some c.shared_name := by
  unfold shared_result_name
  have hlength : 12 ≤ c.result_name.length := length_result_name _ _
  simp only [info, Option.bind_eq_bind, Option.bind_some, hp.out_name]
  exact replicated_of_length hlength

theorem shared_ne_column : c.shared_name ≠ c.column_name := replicated_ne_input _ _ _ _ _ _

theorem helper_waits (h : c.Refines s a) (hpc : s.helper = .wait) :
    Moves s a .helper (c := c) ∨
      (s.memory.node c.vertex).is_initialized = false ∧ c.step s .helper = some s := by
  have hH := h.helper
  rw [hpc] at hH
  obtain ⟨hidle, hcolumn, hshared⟩ := hH
  have hvertex : c.info.current_node = c.vertex := rfl
  cases hinit : (s.memory.node c.vertex).is_initialized with
  | false =>
    refine .inr ⟨rfl, ?_⟩
    simp only [step, work_sharing_transfer_and_process_data, hpc, hvertex, hinit, Option.map_some]
    rw [if_neg (by simp), ← hpc]
  | true =>
    have hp := h.prepared hinit
    refine .inl (h.helper_moves_on hp a.helper (.input 0) _ ?_ .refl rfl rfl rfl
      (by rw [hpc]; rfl) ⟨hp, hidle, hcolumn, hshared⟩ (.inl rfl) ?_)
    · simp [hpc, work_sharing_transfer_and_process_data, hvertex, hinit]
    · simp [hpc, HelperPc.work]

theorem helper_opens (h : c.Refines s a) (hok : front_and_rear.Ok c.k a)
    (hpc : s.helper = .input 0 ∨ s.helper = .input 1 ∨ s.helper = .result ∨
      s.helper = .put_shared) : Moves s a .helper (c := c) := by
  have hH := h.helper
  have hrear := Nat.le_trans hok.rear_le hok.handed_le
  rcases hpc with hpc | hpc | hpc | hpc
  · rw [hpc] at hH
    obtain ⟨hp, hidle, hcolumn, hshared⟩ := hH
    have hedge : c.info.incoming_edges[0]? = some c.column_edge := rfl
    refine h.helper_moves_on hp a.helper (.input 1)
      (s.memory.with_buffer (c.column_name, c.helper)) ?_ (keeps_buffer _) rfl rfl rfl
      (by rw [hpc]; rfl) ⟨hp.keeps (keeps_buffer (d := c.helper) _), hidle, ?_, ?_⟩ (.inl rfl) ?_
    · simp [hpc, work_sharing_transfer_and_process_data, hedge, hp.fetched_name,
        Memory.create_buffer_new hcolumn]
    · simp [Memory.present_with_buffer]
    · simp [Memory.present_with_buffer, hshared, shared_ne_column]
    · simp [hpc, HelperPc.work]
  · rw [hpc] at hH
    obtain ⟨hp, hidle, hcolumn, hshared⟩ := hH
    refine h.helper_moves_on hp a.helper .result _ ?_ .refl rfl rfl rfl
      (by rw [hpc]; rfl) ⟨hp, hidle, hcolumn, hshared⟩ (.inl rfl) ?_
    · simp [hpc, work_sharing_transfer_and_process_data, info]
    · simp [hpc, HelperPc.work]
  · rw [hpc] at hH
    obtain ⟨hp, hidle, hcolumn, hshared⟩ := hH
    refine h.helper_moves_on hp a.helper .put_shared
      (s.memory.with_buffer (c.shared_name, c.helper)) ?_ (keeps_buffer _) rfl rfl rfl
      (by rw [hpc]; rfl) ⟨hp.keeps (keeps_buffer (d := c.helper) _), hidle, ?_, ?_⟩ (.inl rfl) ?_
    · simp [hpc, work_sharing_transfer_and_process_data, shared_name_eq hp,
        Memory.create_buffer_new hshared]
    · exact (keeps_buffer (c := c) _).grows _ _ hcolumn
    · simp [Memory.present_with_buffer]
    · simp [hpc, HelperPc.work]
  · rw [hpc] at hH
    obtain ⟨hp, hidle, hcolumn, hshared⟩ := hH
    have hk : c.Keeps c.helper s.memory (s.memory.modify_edge c.out_edge
        (fun d => { d with is_work_shared := true })) := keeps_out (fun _ => rfl)
    refine h.helper_moves_on hp a.helper .loop _ ?_ hk
      (Memory.edge_modify_ne _ c.edges_apart _) rfl rfl (by rw [hpc]; rfl)
      ⟨hp.keeps hk, hidle, hcolumn, hshared⟩ (.inl rfl) ?_
    · simp [hpc, work_sharing_transfer_and_process_data, info]
    · simp only [hpc, HelperPc.work]
      omega

theorem lowered {rear : Nat} (h : 1 ≤ rear) (hle : rear ≤ c.k) :
    size_sub (ng_morsel_size * rear) ng_morsel_size = ng_morsel_size * (rear - 1) := by
  have hone : ng_morsel_size ≤ ng_morsel_size * rear := Nat.le_mul_of_pos_right _ h
  have hsize : ng_morsel_size * rear ≤ c.data_size := by
    rw [data_size, Nat.mul_comm]
    exact Nat.mul_le_mul_right _ hle
  rw [size_sub_eq hone (Nat.lt_of_le_of_lt hsize c.fits), Nat.mul_sub_one]

/-- The helper reads the front counter and tests it against the rear. -/
theorem helper_tests (h : c.Refines s a) (hok : front_and_rear.Ok c.k a)
    (hpc : s.helper = .loop ∨ ∃ f, s.helper = .front f) : Moves s a .helper (c := c) := by
  have hH := h.helper
  have hvertex : c.info.current_node = c.vertex := rfl
  rcases hpc with hpc | ⟨f, hpc⟩
  · rw [hpc] at hH
    obtain ⟨hp, hidle, hcolumn, hshared⟩ := hH
    refine h.helper_moves_on hp (.saw a.front) (.front (ng_morsel_size * a.front)) _
      ?_ .refl rfl rfl rfl (by rw [hpc]; rfl) ⟨hp, ⟨_, rfl, rfl⟩, hcolumn, hshared⟩
      (.inr (.look hidle)) ?_
    · simp [hpc, work_sharing_transfer_and_process_data, hvertex, h.fetched]
    · simp [hpc, HelperPc.work]
  · rw [hpc] at hH
    obtain ⟨hp, ⟨i, rfl, hsaw⟩, hcolumn, hshared⟩ := hH
    have hrear := (h.rear hp.initialized).1
    have hlow := c.lowered hok.rear_pos (Nat.le_trans hok.rear_le hok.handed_le)
    by_cases hlt : i + 1 < a.rear
    · refine h.helper_moves_on hp .claims .take _ ?_ .refl rfl rfl rfl
        (by rw [hpc]; rfl) ⟨hp, rfl, hcolumn, hshared⟩ (.inr (.decide i hsaw hlt)) ?_
      · simp only [hpc, work_sharing_transfer_and_process_data, hvertex, hrear, hlow]
        rw [if_pos (Nat.mul_lt_mul_of_pos_left (by omega) (by decide))]
      · simp [hpc, HelperPc.work]
    · refine h.helper_moves_on hp .stopped .finished _ ?_ .refl rfl rfl rfl
        (by rw [hpc]; rfl) ⟨hp, rfl⟩ (.inr (.stop i hsaw (Nat.not_lt.mp hlt))) ?_
      · simp only [hpc, work_sharing_transfer_and_process_data, hvertex, hrear, hlow]
        rw [if_neg (Nat.not_lt.mpr (Nat.mul_le_mul_left _ (by omega)))]
      · simp [hpc, HelperPc.work]

/-- The helper lowers the rear by one morsel. -/
theorem helper_takes (h : c.Refines s a) (hok : front_and_rear.Ok c.k a) (hpc : s.helper = .take) :
    Moves s a .helper (c := c) := by
  have hH := h.helper
  rw [hpc] at hH
  obtain ⟨hp, hclaims, hcolumn, hshared⟩ := hH
  have hvertex : c.info.current_node = c.vertex := rfl
  obtain ⟨hrear, hhanded⟩ := h.rear hp.initialized
  have htwo := (hok.claims hclaims).1
  have hlow := c.lowered hok.rear_pos (Nat.le_trans hok.rear_le hok.handed_le)
  have hlog := h.helper_log
  rw [hpc] at hlog
  have hk : c.Keeps c.helper s.memory (s.memory.modify_operation c.vertex
      (fun o => { o with rear_fetched_until := ng_morsel_size * (a.rear - 1) })) :=
    keeps_operation (fun _ => rfl)
  refine h.helper_step hp (a.rear - 1) a.handed .holds
    (.copy 0) _ ?_ hk rfl (by simp [← hhanded]) (Nat.sub_le _ _) (Nat.le_refl _)
    (fun _ => Iff.rfl) hlog ⟨hp.keeps hk, rfl, hcolumn, hshared⟩ (.inr (.take hclaims)) ?_ (.inl rfl)
    ?_
  · simp [hpc, work_sharing_transfer_and_process_data, hvertex, hrear, hlow]
  · refine .inr ⟨Nat.le_mul_of_pos_right _ (Nat.le_sub_one_of_lt htwo), .inr ?_⟩
    rw [← Nat.mul_succ, Nat.succ_eq_add_one, Nat.sub_add_cancel hok.rear_pos]
  · simp only [hpc, HelperPc.work]
    omega

/-- The helper copies the morsel and executes it. -/
theorem helper_works (h : c.Refines s a)
    (hpc : s.helper = .copy 0 ∨ s.helper = .copy 1 ∨ s.helper = .sub_buffer) :
    Moves s a .helper (c := c) := by
  have hH := h.helper
  have hvertex : c.info.current_node = c.vertex := rfl
  rcases hpc with hpc | hpc | hpc
  · rw [hpc] at hH
    obtain ⟨hp, hholds, hcolumn, hshared⟩ := hH
    have hedge : c.info.incoming_edges[0]? = some c.column_edge := rfl
    have hsource : ∀ key, (s.memory.with_key key).source_present c.column_edge :=
      fun key => .inl h.base.column_virtual
    refine h.helper_moves_on hp a.helper (.copy 1) (s.memory.with_key
      (compute_alias_name_for_offset c.column_name
        (s.memory.operation c.vertex).rear_fetched_until, c.helper)) ?_ (keeps_key _) rfl rfl rfl
      (by rw [hpc]; rfl) ⟨hp.keeps (keeps_key (d := c.helper) _), hholds, ?_, ?_⟩ (.inl rfl) ?_
    · simp [hpc, work_sharing_transfer_and_process_data, hvertex, hedge, hp.args,
        Memory.create_sub_buffer_eq hcolumn, hsource]
    · exact (keeps_key (c := c) _).grows _ _ hcolumn
    · exact (keeps_key (c := c) _).grows _ _ hshared
    · simp [hpc, HelperPc.work]
  · rw [hpc] at hH
    obtain ⟨hp, hholds, hcolumn, hshared⟩ := hH
    refine h.helper_moves_on hp a.helper .sub_buffer _ ?_ .refl rfl rfl rfl
      (by rw [hpc]; rfl) ⟨hp, hholds, hcolumn, hshared⟩ (.inl rfl) ?_
    · simp [hpc, work_sharing_transfer_and_process_data, info]
    · simp [hpc, HelperPc.work]
  · rw [hpc] at hH
    obtain ⟨hp, hholds, hcolumn, hshared⟩ := hH
    refine h.helper_moves_on hp a.helper .execute (s.memory.with_key
      (compute_alias_name_for_offset c.shared_name (get_result_buffer_offset
        (s.memory.operation c.vertex) (s.memory.operation c.vertex).rear_fetched_until), c.helper))
      ?_ (keeps_key _) rfl rfl rfl
      (by rw [hpc]; rfl) ⟨hp.keeps (keeps_key (d := c.helper) _), hholds, ?_, ?_⟩ (.inl rfl) ?_
    · simp [hpc, work_sharing_transfer_and_process_data, hvertex, shared_name_eq hp,
        Memory.create_sub_buffer_eq hshared]
    · exact (keeps_key (c := c) _).grows _ _ hcolumn
    · exact (keeps_key (c := c) _).grows _ _ hshared
    · simp [hpc, HelperPc.work]

theorem helper_executes (h : c.Refines s a) (hok : front_and_rear.Ok c.k a)
    (hpc : s.helper = .execute) : Moves s a .helper (c := c) := by
  have hH := h.helper
  rw [hpc] at hH
  obtain ⟨hp, hholds, hcolumn, hshared⟩ := hH
  have hvertex : c.info.current_node = c.vertex := rfl
  obtain ⟨hrear, hhanded⟩ := h.rear hp.initialized
  have hheld := hok.held hholds
  have hle := hok.handed_le
  have hlog := h.helper_log
  rw [hpc] at hlog
  refine h.helper_step hp a.rear a.handed a.helper
    .put_edge (s.memory.log (.execute c.vertex c.helper (ng_morsel_size * a.rear)))
    ?_ (keeps_log _) rfl (by rw [← hrear, ← hhanded]; rfl) (Nat.le_refl _) (Nat.le_refl _)
    (fun o => ?_) (fun o => ?_) ⟨hp.keeps (keeps_log (d := c.helper) _), hholds, hcolumn, hshared⟩
    (.inl rfl) (.inl rfl) (.inl rfl) ?_
  · simp [hpc, work_sharing_transfer_and_process_data, hvertex, hrear]
  · simp [Memory.log, c.devices_apart]
  · simp only [Memory.log, List.mem_append, hlog, List.mem_singleton, Event.execute.injEq,
      true_and, HelperPc.ran, Nat.add_zero]
    constructor
    · rintro (⟨i, hi, hfrom, rfl⟩ | rfl)
      · exact ⟨i, hi, Nat.le_succ_of_le hfrom, rfl⟩
      · exact ⟨a.rear, by omega, Nat.le_of_eq hheld, rfl⟩
    · rintro ⟨i, hi, hfrom, rfl⟩
      by_cases hlt : a.handed ≤ i
      · exact .inl ⟨i, hi, hlt, rfl⟩
      · exact .inr (by congr 1; omega)
  · simp [hpc, HelperPc.work]

/-- The helper publishes what it has executed. -/
theorem helper_publishes (h : c.Refines s a) (hok : front_and_rear.Ok c.k a)
    (hpc : s.helper = .put_edge ∨ s.helper = .put_rear) : Moves s a .helper (c := c) := by
  have hH := h.helper
  have hvertex : c.info.current_node = c.vertex := rfl
  rcases hpc with hpc | hpc
  · rw [hpc] at hH
    obtain ⟨hp, hholds, hcolumn, hshared⟩ := hH
    let rear := get_result_buffer_offset (s.memory.operation c.vertex)
      (s.memory.operation c.vertex).rear_fetched_until
    have hk : c.Keeps c.helper s.memory (s.memory.modify_edge c.out_edge
        (fun d => { d with rear_processed_until := rear })) := keeps_out (fun _ => rfl)
    refine h.helper_moves_on hp a.helper .put_rear _ ?_ hk
      (Memory.edge_modify_ne _ c.edges_apart _) rfl rfl (by rw [hpc]; rfl)
      ⟨hp.keeps hk, hholds, hcolumn, hshared⟩ (.inl rfl) ?_
    · simp [hpc, work_sharing_transfer_and_process_data, info, rear]
    · simp [hpc, HelperPc.work]
  · rw [hpc] at hH
    obtain ⟨hp, hholds, hcolumn, hshared⟩ := hH
    obtain ⟨hrear, hhanded⟩ := h.rear hp.initialized
    have hheld := hok.held hholds
    have hlog := h.helper_log
    rw [hpc] at hlog
    have hk : c.Keeps c.helper s.memory (s.memory.modify_operation c.vertex
        (fun o => { o with rear_processed_until := ng_morsel_size * a.rear })) :=
      keeps_operation (fun _ => rfl)
    refine h.helper_step hp a.rear a.rear .idle .loop _
      ?_ hk rfl (by simp [← hrear]) (Nat.le_refl _) hok.rear_le (fun _ => Iff.rfl) (fun o => ?_)
      ⟨hp.keeps hk, rfl, hcolumn, hshared⟩ (.inr (.hand_over hholds)) (.inl rfl) ?_ ?_
    · simp [hpc, work_sharing_transfer_and_process_data, hvertex, hrear]
    · rw [Memory.trace_modify_operation, hlog, hheld]
      simp only [HelperPc.ran, Nat.add_le_add_iff_right, Nat.add_zero]
    · refine .inr ⟨Nat.le_mul_of_pos_right _ hok.rear_pos, .inr ?_⟩
      rw [hheld, Nat.mul_succ]
    · simp [hpc, HelperPc.work]

/-- The helper has finished, or it waits for the setup, or its next step leaves less work. -/
theorem helper_moves (h : c.Refines s a) (hok : front_and_rear.Ok c.k a) :
    s.helper = .finished ∨ Moves s a .helper (c := c) ∨
      (s.memory.node c.vertex).is_initialized = false ∧ c.step s .helper = some s := by
  have hH := h.helper
  unfold HelperOk at hH
  split at hH
  case h_1 hpc => exact .inr (helper_waits h hpc)
  case h_2 hpc => exact .inr (.inl (helper_opens h hok (.inl hpc)))
  case h_3 hpc => exact .inr (.inl (helper_opens h hok (.inr (.inl hpc))))
  case h_4 hpc => exact .inr (.inl (helper_opens h hok (.inr (.inr (.inl hpc)))))
  case h_5 hpc => exact .inr (.inl (helper_opens h hok (.inr (.inr (.inr hpc)))))
  case h_6 hpc => exact .inr (.inl (helper_tests h hok (.inl hpc)))
  case h_7 hpc => exact .inr (.inl (helper_tests h hok (.inr ⟨_, hpc⟩)))
  case h_8 hpc => exact .inr (.inl (helper_takes h hok hpc))
  case h_9 hpc => exact .inr (.inl (helper_works h (.inl hpc)))
  case h_10 hpc => exact .inr (.inl (helper_works h (.inr (.inl hpc))))
  case h_11 hpc => exact .inr (.inl (helper_works h (.inr (.inr hpc))))
  case h_12 hpc => exact .inr (.inl (helper_executes h hok hpc))
  case h_13 hpc => exact .inr (.inl (helper_publishes h hok (.inl hpc)))
  case h_14 hpc => exact .inr (.inl (helper_publishes h hok (.inr hpc)))
  case h_15 hpc => exact .inl hpc
  case h_16 => exact hH.elim

end Selection

end hero.data_parallelism
