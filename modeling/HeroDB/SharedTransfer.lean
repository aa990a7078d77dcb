-- The steps of the transfer thread of a shared selection: the setup, and the loop over the morsels.
import HeroDB.WorkSharing

namespace hero.data_parallelism

open front_and_rear (Meeting)

namespace Selection

/-! ## The transfer thread -/

variable {c : Selection} {m m' : Memory} {a b : Meeting} {s : Threads}

/-- Until `is_initialized` is set, the processing loop and the helper wait for it. -/
theorem Refines.waiting (h : c.Refines s a) (hu : c.Unstarted s.memory a) :
    s.process = .wait ∧ s.helper = .wait := by
  have hprocess := h.process
  have hhelper := h.helper
  constructor
  · cases hpc : s.process with
    | wait => rfl
    | unborn => rw [hpc] at hprocess; exact hprocess.elim
    | _ => rw [hpc] at hprocess; exact (hu.not_prepared hprocess.1.initialized).elim
  · unfold HelperOk at hhelper
    split at hhelper
    case h_1 hpc => exact hpc
    case h_16 => exact hhelper.elim
    all_goals exact (hu.not_prepared hhelper.1.initialized).elim

/-- The selection is set up: only the transfer thread moves. -/
theorem Refines.prepares (h : c.Refines s a) (hu : c.Unstarted s.memory a) {pc : TransferPc}
    (hbase : c.Base m') (htrace : m'.trace = s.memory.trace)
    (hfetched : (m'.operation c.vertex).fetched_until =
      (s.memory.operation c.vertex).fetched_until)
    (hprocessed : (m'.operation c.vertex).processed_until =
      (s.memory.operation c.vertex).processed_until)
    (hrear : (m'.node c.vertex).is_initialized = true →
      (m'.operation c.vertex).rear_fetched_until = c.data_size ∧
      (m'.operation c.vertex).rear_processed_until = c.data_size)
    (hthere : ∀ name d, d ≠ c.owner → m'.present name d → s.memory.present name d)
    (hpc : c.TransferOk m' a pc) :
    c.Refines { s with transfer := pc, memory := m' } a := by
  obtain ⟨hprocess, hhelper⟩ := h.waiting hu
  have hstart := hu.start
  have hsize : c.data_size = ng_morsel_size * c.k := Nat.mul_comm ..
  refine ⟨hbase, hfetched.trans h.fetched, hprocessed.trans h.processed, fun hinit => ?_,
    fun i hi => ?_, hpc, ?_, ?_, ?_, ?_⟩
  · subst hstart
    exact ⟨(hrear hinit).1.trans hsize, (hrear hinit).2.trans hsize⟩
  · subst hstart
    exact absurd hi (Nat.not_lt_zero i)
  · have hdone := h.process
    simp only [hprocess] at hdone ⊢
    exact hdone
  · have hidle := h.helper
    simp only [hhelper] at hidle ⊢
    obtain ⟨hidle, hcolumn, hshared⟩ := hidle
    exact ⟨hidle, fun hp => hcolumn (hthere _ _ c.devices_apart.symm hp),
      fun hp => hshared (hthere _ _ c.devices_apart.symm hp)⟩
  · rw [htrace]; exact h.owner_log
  · rw [htrace]; exact h.helper_log

/-- The transfer goes on: it writes the fetch counters and adds sub-buffers of the owner. -/
theorem Refines.transfers (h : c.Refines s a) (hp : c.Prepared s.memory) {pc : TransferPc}
    {front : Nat} {claimed : Bool} (hk : c.Keeps c.owner s.memory m')
    (htrace : m'.trace = s.memory.trace)
    (hcounters : m'.operation c.vertex =
      { s.memory.operation c.vertex with fetched_until := ng_morsel_size * front })
    (hfront : a.front ≤ front)
    (hsub : ∀ i < front,
      m'.present (compute_alias_name_for_offset c.column_name (ng_morsel_size * i)) c.owner)
    (hpc : c.TransferOk m' { a with front := front, claimed := claimed } pc) :
    c.Refines { s with transfer := pc, memory := m' }
      { a with front := front, claimed := claimed } where
  base := h.base.keeps hk
  fetched := by rw [hcounters]
  processed := by rw [hcounters]; exact h.processed
  rear := fun _ => by rw [hcounters]; exact h.rear hp.initialized
  sub_buffers := hsub
  transfer := hpc
  process := h.process.keeps hk rfl hfront (Nat.le_refl _)
  helper := h.helper.keeps hk c.devices_apart.symm rfl
  owner_log := by rw [htrace]; exact h.owner_log
  helper_log := by rw [htrace]; exact h.helper_log

theorem step_transfer {pc : TransferPc}
    (h : transfer_data c.device_type c.info c.owner s.transfer s.memory = some (pc, m')) :
    c.step s .transfer = some { s with transfer := pc, memory := m' } := by
  simp [step, h]

/-- The outcome of a step that leaves less work. -/
def Moves (s : Threads) (a : Meeting) (actor : Actor) : Prop :=
  ∃ t b, c.step s actor = some t ∧ c.Simulates s t a b ∧ c.work t < c.work s

/-- A step of the setup. -/
theorem Refines.prepare_step (h : c.Refines s a) (hu : c.Unstarted s.memory a) {pc : TransferPc}
    (hstep : transfer_data c.device_type c.info c.owner s.transfer s.memory = some (pc, m'))
    (hwork : pc.work c.k < s.transfer.work c.k)
    (href : c.Refines { s with transfer := pc, memory := m' } a)
    (hfetched : Lowers c.data_size (s.memory.operation c.vertex).rear_fetched_until
      (m'.operation c.vertex).rear_fetched_until)
    (hprocessed : Lowers c.data_size (s.memory.operation c.vertex).rear_processed_until
      (m'.operation c.vertex).rear_processed_until) : Moves s a .transfer (c := c) := by
  refine ⟨_, a, step_transfer hstep, ⟨href, .inl rfl, hfetched, hprocessed⟩, ?_⟩
  obtain ⟨-, hhelper⟩ := h.waiting hu
  unfold work
  simp only [hhelper, HelperPc.work]
  omega

theorem data_size_pos : ng_morsel_size ≤ c.data_size :=
  Nat.le_mul_of_pos_left _ c.one_le

theorem column_ne_result : c.column_name ≠ c.result_name :=
  (result_ne_input _ _ _ _ _).symm

theorem Unstarted.modify_out (hu : c.Unstarted m a) (f : Exchange_Edge → Exchange_Edge) :
    c.Unstarted (m.modify_edge c.out_edge f) a :=
  ⟨hu.start, hu.uninitialized, by rw [Memory.edge_modify_ne _ c.edges_apart]; exact hu.unfetched⟩

theorem Named.modify_out (hn : c.Named m) (f : Exchange_Edge → Exchange_Edge) :
    c.Named (m.modify_edge c.out_edge f) :=
  ⟨hn.args, hn.result, hn.result_present, hn.column_absent⟩

/-- A write of the setup to the out-edge. -/
theorem Refines.writes_out (h : c.Refines s a) (hu : c.Unstarted s.memory a)
    {f : Exchange_Edge → Exchange_Edge} {pc : TransferPc}
    (hstep : transfer_data c.device_type c.info c.owner s.transfer s.memory =
      some (pc, s.memory.modify_edge c.out_edge f))
    (hwork : pc.work c.k < s.transfer.work c.k)
    (hpc : c.TransferOk (s.memory.modify_edge c.out_edge f) a pc) :
    Moves s a .transfer (c := c) := by
  refine h.prepare_step hu hstep hwork ?_ (.inl rfl) (.inl rfl)
  refine h.prepares hu (h.base.modify_out _) rfl rfl rfl (fun hinit => ?_) (fun _ _ _ hp => hp) hpc
  exact (hu.not_prepared hinit).elim

/-- The setup of the result buffer and of the out-edge. -/
theorem result_is_set_up (h : c.Refines s a) (hpc : s.transfer = .start ∨ s.transfer = .put_device ∨
    s.transfer = .put_name ∨ s.transfer = .put_size) : Moves s a .transfer (c := c) := by
  have hT := h.transfer
  have hname : get_result_buffer_name (c.device_type c.owner) (s.memory.operation c.vertex).name =
      c.result_name := by rw [h.base.name]; rfl
  rcases hpc with hpc | hpc | hpc | hpc
  · rw [hpc] at hT
    obtain ⟨hu, hargs, hresult, hcolumn⟩ := hT
    have hstep : transfer_data c.device_type c.info c.owner s.transfer s.memory =
        some (.put_device, (s.memory.with_buffer (c.result_name, c.owner)).modify_operation c.vertex
          (fun o => { o with result_name := c.result_name })) := by
      simp [hpc, transfer_data, info, hname, Memory.create_buffer_new hresult]
    refine h.prepare_step hu hstep (by simp [hpc, TransferPc.work]) ?_ (.inl (by simp))
      (.inl (by simp))
    refine h.prepares hu ((h.base.with_buffer _).modify_operation (fun _ => rfl) (fun _ => rfl)) rfl
      (by simp) (by simp) (fun hinit => ?_) (keeps_buffer (c := c) _).here ⟨?_, ?_⟩
    · simp [hu.uninitialized] at hinit
    · exact ⟨hu.start, by simp [hu.uninitialized], by simp [hu.unfetched]⟩
    · refine ⟨by simp [hargs], by simp, ?_, ?_⟩
      · simp [Memory.present_with_buffer]
      · simp [Memory.present_with_buffer, hcolumn, column_ne_result]
  · rw [hpc] at hT
    obtain ⟨hu, hn⟩ := hT
    have hstep : transfer_data c.device_type c.info c.owner s.transfer s.memory =
        some (.put_name, s.memory.modify_edge c.out_edge
          (fun d => { d with input_device_index := c.owner })) := by
      simp [hpc, transfer_data, info]
    exact h.writes_out hu hstep (by simp [hpc, TransferPc.work])
      ⟨hu.modify_out _, hn.modify_out _⟩
  · rw [hpc] at hT
    obtain ⟨hu, hn⟩ := hT
    have hstep : transfer_data c.device_type c.info c.owner s.transfer s.memory =
        some (.put_size, s.memory.modify_edge c.out_edge
          (fun d => { d with input_data_name := c.result_name })) := by
      simp [hpc, transfer_data, info, hname]
    exact h.writes_out hu hstep (by simp [hpc, TransferPc.work])
      ⟨hu.modify_out _, hn.modify_out _, by simp⟩
  · rw [hpc] at hT
    obtain ⟨hu, hn, hout⟩ := hT
    have hstep : transfer_data c.device_type c.info c.owner s.transfer s.memory =
        some (.input 0 0, s.memory.modify_edge c.out_edge
          (fun d => { d with data_size := compute_result_size (s.memory.operation c.vertex) })) := by
      simp [hpc, transfer_data, info]
    exact h.writes_out hu hstep (by simp [hpc, TransferPc.work])
      ⟨hu.modify_out _, hn.modify_out _, by simp [hout], rfl⟩

/-- The device of the owner is not that of the virtual vertex. -/
theorem Base.elsewhere (h : c.Base m) :
    (m.node c.vertex).executionDevice ≠ (m.edge c.column_edge).input_device_index := by
  rw [h.device, h.column_device]
  omega

/-- The setup of the buffer of the column. -/
theorem column_is_set_up (h : c.Refines s a) {max : Nat} (hpc : s.transfer = .input 0 max) :
    Moves s a .transfer (c := c) := by
  have hT := h.transfer
  rw [hpc] at hT
  obtain ⟨hu, hn, hout, rfl⟩ := hT
  have hb := h.base
  have hname : input_name c.device_type c.info c.owner 0 c.column_edge s.memory =
      some c.column_name := by
    unfold input_name
    rw [if_pos hb.column_virtual]
    simp only [info, hb.name]
    rfl
  have hstep : transfer_data c.device_type c.info c.owner s.transfer s.memory =
      some (.size 0 0, ((s.memory.modify_edge c.column_edge
          (fun d => { d with fetched_data_name := c.column_name })).modify_operation c.vertex
          (fun o => { o with input_arg_names := o.input_arg_names ++ [c.column_name] })).with_buffer
            (c.column_name, c.owner)) := by
    simp only [hpc, transfer_data]
    have hedge : c.info.incoming_edges[0]? = some c.column_edge := rfl
    have hvertex : c.info.current_node = c.vertex := rfl
    simp only [hedge, prepare_input, hvertex]
    rw [if_neg hb.elsewhere, hname]
    simp only [Option.bind_eq_bind, Option.bind_some]
    rw [Memory.create_buffer_new (by simp [hn.column_absent])]
    rfl
  refine h.prepare_step hu hstep (by simp [hpc, TransferPc.work]) ?_ (.inl (by simp))
    (.inl (by simp))
  refine h.prepares hu ?_ rfl (by simp) (by simp) (fun hinit => ?_)
    (fun name d hd hp => (keeps_buffer (c := c) _).here name d hd hp) ⟨?_, ?_, rfl⟩
  · apply Base.with_buffer
    apply Base.modify_operation
    · exact hb.modify_column (fun _ => rfl)
    · exact fun _ => rfl
    · exact fun _ => rfl
  · simp [hu.uninitialized] at hinit
  · exact ⟨hu.start, by simp [hu.uninitialized], by simp [hu.unfetched]⟩
  · refine ⟨by simp [hn.args], by simp [hn.result], by simp, ?_, ?_, ?_⟩
    · simp [Memory.edge_modify_ne _ c.edges_apart.symm, hout]
    · simp [Memory.present_with_buffer]
    · simp [Memory.present_with_buffer, hn.result_present]

/-- The setup reads the size of the column. -/
theorem size_is_read (h : c.Refines s a) {max : Nat} (hpc : s.transfer = .size 0 max ∨
    s.transfer = .raise 0 max ∨ s.transfer = .consumer 0 max ∨ s.transfer = .input 1 max) :
    Moves s a .transfer (c := c) := by
  have hT := h.transfer
  have hb := h.base
  have hedge : c.info.incoming_edges[0]? = some c.column_edge := rfl
  have hpos := c.data_size_pos
  rcases hpc with hpc | hpc | hpc | hpc
  · rw [hpc] at hT
    obtain ⟨hu, ho, rfl⟩ := hT
    have hstep : transfer_data c.device_type c.info c.owner s.transfer s.memory =
        some (.raise 0 0, s.memory) := by
      have hlt : 0 < c.data_size := Nat.lt_of_lt_of_le (by decide) hpos
      simp [hpc, transfer_data, hedge, hb.column_size, hlt]
    refine h.prepare_step hu hstep (by simp [hpc, TransferPc.work]) ?_ (.inl rfl) (.inl rfl)
    exact h.prepares hu hb rfl rfl rfl (fun hinit => (hu.not_prepared hinit).elim)
      (fun _ _ _ hp => hp) ⟨hu, ho⟩
  · rw [hpc] at hT
    obtain ⟨hu, ho⟩ := hT
    have hstep : transfer_data c.device_type c.info c.owner s.transfer s.memory =
        some (.consumer 0 c.data_size, s.memory) := by
      simp [hpc, transfer_data, hedge, hb.column_size]
    refine h.prepare_step hu hstep (by simp [hpc, TransferPc.work]) ?_ (.inl rfl) (.inl rfl)
    exact h.prepares hu hb rfl rfl rfl (fun hinit => (hu.not_prepared hinit).elim)
      (fun _ _ _ hp => hp) ⟨hu, ho, rfl⟩
  · rw [hpc] at hT
    obtain ⟨hu, ho, hmax⟩ := hT
    have hstep : transfer_data c.device_type c.info c.owner s.transfer s.memory =
        some (.input 1 max, s.memory.modify_edge c.column_edge
          (fun d => { d with consumer_device_index := c.owner })) := by
      simp [hpc, transfer_data, hedge]
    refine h.prepare_step hu hstep (by simp [hpc, TransferPc.work]) ?_ (.inl rfl) (.inl rfl)
    refine h.prepares hu (hb.modify_column (fun _ => rfl)) rfl rfl rfl
      (fun hinit => (hu.not_prepared hinit).elim) (fun _ _ _ hp => hp) ⟨?_, ?_, hmax⟩
    · exact ⟨hu.start, hu.uninitialized, by simp [hu.unfetched]⟩
    · exact ⟨ho.args, ho.result, by simp [ho.fetched_name],
        by rw [Memory.edge_modify_ne _ c.edges_apart.symm]; exact ho.out_name,
        ho.column_present, ho.result_present⟩
  · rw [hpc] at hT
    obtain ⟨hu, ho, hmax⟩ := hT
    have hstep : transfer_data c.device_type c.info c.owner s.transfer s.memory =
        some (.put_rear_processed max, s.memory) := by
      simp [hpc, transfer_data, info]
    refine h.prepare_step hu hstep (by simp [hpc, TransferPc.work]) ?_ (.inl rfl) (.inl rfl)
    exact h.prepares hu hb rfl rfl rfl (fun hinit => (hu.not_prepared hinit).elim)
      (fun _ _ _ hp => hp) ⟨hu, ho, hmax⟩

theorem Unstarted.modify_operation (hu : c.Unstarted m a) (f : Operation_ → Operation_) :
    c.Unstarted (m.modify_operation c.vertex f) a :=
  ⟨hu.start, by simp [hu.uninitialized], hu.unfetched⟩

/-- The setup sets the rear counters, and with `is_initialized` it lets the other threads go. -/
theorem rear_is_set (h : c.Refines s a) {max : Nat} (hpc : s.transfer = .put_rear_processed max ∨
    s.transfer = .put_rear_fetched max ∨ s.transfer = .put_initialized max) :
    Moves s a .transfer (c := c) := by
  have hT := h.transfer
  have hb := h.base
  have hpos := c.data_size_pos
  have hraise : ∀ x, Lowers c.data_size x c.data_size := fun x => .inr ⟨hpos, .inl rfl⟩
  rcases hpc with hpc | hpc | hpc
  · rw [hpc] at hT
    obtain ⟨hu, ho, rfl⟩ := hT
    have hstep : transfer_data c.device_type c.info c.owner s.transfer s.memory =
        some (.put_rear_fetched c.data_size, s.memory.modify_operation c.vertex
          (fun o => { o with rear_processed_until := c.data_size })) := by
      simp [hpc, transfer_data, info]
    refine h.prepare_step hu hstep (by simp [hpc, TransferPc.work]) ?_ (.inl (by simp))
      (by simp [hraise])
    refine h.prepares hu (hb.modify_operation (fun _ => rfl) (fun _ => rfl)) rfl (by simp) (by simp)
      (fun hinit => ?_) (fun _ _ _ hp => hp) ⟨hu.modify_operation _, ?_, rfl, by simp⟩
    · simp [hu.uninitialized] at hinit
    · exact ⟨by simp [ho.args], by simp [ho.result], ho.fetched_name, ho.out_name,
        ho.column_present, ho.result_present⟩
  · rw [hpc] at hT
    obtain ⟨hu, ho, rfl, hrear⟩ := hT
    have hstep : transfer_data c.device_type c.info c.owner s.transfer s.memory =
        some (.put_initialized c.data_size, s.memory.modify_operation c.vertex
          (fun o => { o with rear_fetched_until := c.data_size })) := by
      simp [hpc, transfer_data, info]
    refine h.prepare_step hu hstep (by simp [hpc, TransferPc.work]) ?_ (by simp [hraise])
      (.inl (by simp))
    refine h.prepares hu (hb.modify_operation (fun _ => rfl) (fun _ => rfl)) rfl (by simp) (by simp)
      (fun hinit => ?_) (fun _ _ _ hp => hp)
      ⟨hu.modify_operation _, ?_, rfl, by simp [hrear], by simp⟩
    · simp [hu.uninitialized] at hinit
    · exact ⟨by simp [ho.args], by simp [ho.result], ho.fetched_name, ho.out_name,
        ho.column_present, ho.result_present⟩
  · rw [hpc] at hT
    obtain ⟨hu, ho, -, hprocessed, hfetched⟩ := hT
    have hstep : transfer_data c.device_type c.info c.owner s.transfer s.memory =
        some (.loop 0 max, s.memory.modify_node c.vertex
          (fun n => { n with is_initialized := true })) := by
      simp [hpc, transfer_data, info]
    have hop : (s.memory.modify_node c.vertex
        (fun n => { n with is_initialized := true })).operation c.vertex =
          s.memory.operation c.vertex := by simp [Memory.operation]
    refine h.prepare_step hu hstep (by simp [hpc, TransferPc.work]) ?_ (.inl (by rw [hop]))
      (.inl (by rw [hop]))
    refine h.prepares hu ?_ rfl (by rw [hop]) (by rw [hop]) (fun _ => ?_) (fun _ _ _ hp => hp)
      ⟨?_, ?_, hu.unfetched, ?_⟩
    · exact { hb with
        operationType := by rw [hop]; exact hb.operationType
        name := by rw [hop]; exact hb.name
        device := by simp [hb.device] }
    · rw [hop]; exact ⟨hfetched, hprocessed⟩
    · exact ⟨by simp, by rw [hop]; exact ho.args, by rw [hop]; exact ho.result, ho.fetched_name,
        ho.out_name, ho.column_present, ho.result_present⟩
    · rw [hu.start]; rfl
    · rw [hu.start]; rfl

/-- A step of the transfer after the setup. -/
theorem Refines.transfer_step (h : c.Refines s a) (hp : c.Prepared s.memory) {pc : TransferPc}
    (front : Nat) (claimed : Bool)
    (hstep : transfer_data c.device_type c.info c.owner s.transfer s.memory = some (pc, m'))
    (hk : c.Keeps c.owner s.memory m') (htrace : m'.trace = s.memory.trace)
    (hcounters : m'.operation c.vertex =
      { s.memory.operation c.vertex with fetched_until := ng_morsel_size * front })
    (hfront : a.front ≤ front)
    (hsub : ∀ i < front,
      m'.present (compute_alias_name_for_offset c.column_name (ng_morsel_size * i)) c.owner)
    (hpc : c.TransferOk m' { a with front := front, claimed := claimed } pc)
    (hmove : { a with front := front, claimed := claimed } = a ∨
      front_and_rear.Step a { a with front := front, claimed := claimed })
    (hwork : pc.work c.k < s.transfer.work c.k) : Moves s a .transfer (c := c) := by
  refine ⟨_, _, step_transfer hstep,
    ⟨h.transfers hp hk htrace hcounters hfront hsub hpc, hmove, ?_, ?_⟩, ?_⟩
  · left; simp only [hcounters]
  · left; simp only [hcounters]
  · unfold work
    simp only [hcounters]
    omega

theorem morsels_fit {front : Nat} (h : front < c.k) :
    ng_morsel_size * front + ng_morsel_size ≤ c.data_size ∧ c.data_size < SIZE := by
  refine ⟨?_, c.fits⟩
  unfold data_size
  rw [← Nat.mul_succ, Nat.mul_comm]
  exact Nat.mul_le_mul_right _ h

theorem morsel_div (i : Nat) : ng_morsel_size * i / ng_morsel_size = i :=
  Nat.mul_div_cancel_left i (by decide)

/-- The test of the transfer loop. -/
theorem transfer_tests (h : c.Refines s a) {offset max : Nat} (hpc : s.transfer = .loop offset max) :
    Moves s a .transfer (c := c) := by
  have hT := h.transfer
  rw [hpc] at hT
  obtain ⟨hp, rfl, hfetched, hclaimed⟩ := hT
  have hrear := (h.rear hp.initialized).1
  have hcounters : s.memory.operation c.vertex =
      { s.memory.operation c.vertex with fetched_until := ng_morsel_size * a.front } := by
    rw [← h.fetched]
  by_cases hlt : a.front < a.rear
  · have hstep : transfer_data c.device_type c.info c.owner s.transfer s.memory =
        some (.edge (ng_morsel_size * a.front) 0 max, s.memory) := by
      simp only [hpc, transfer_data]
      apply if_pos
      show _ < (s.memory.operation c.vertex).rear_fetched_until
      rw [hrear]
      exact Nat.mul_lt_mul_of_pos_left hlt (by decide)
    refine h.transfer_step hp a.front true hstep .refl rfl hcounters
      (Nat.le_refl _) h.sub_buffers ?_ (.inr (.claim hclaimed hlt)) ?_
    · exact ⟨hp, rfl, hfetched, rfl⟩
    · simp [hpc, TransferPc.work]
  · have hstep : transfer_data c.device_type c.info c.owner s.transfer s.memory =
        some (.finished max, s.memory) := by
      simp only [hpc, transfer_data]
      apply if_neg
      show ¬ _ < (s.memory.operation c.vertex).rear_fetched_until
      rw [hrear]
      exact Nat.not_lt.mpr (Nat.mul_le_mul_left _ (Nat.not_lt.mp hlt))
    refine h.transfer_step hp a.front a.claimed hstep .refl rfl hcounters
      (Nat.le_refl _) h.sub_buffers ?_ (.inl rfl) ?_
    · exact ⟨hp, Nat.not_lt.mp hlt, hclaimed⟩
    · simp [hpc, TransferPc.work]

/-- The transfer of one morsel, from its sub-buffer to the fetch counter of the edge. -/
theorem transfer_moves_morsel (h : c.Refines s a) (hok : front_and_rear.Ok c.k a)
    {offset max : Nat} (hpc : s.transfer = .edge offset 0 max ∨ s.transfer = .copy offset 0 max ∨
      s.transfer = .fetched offset 0 max) : Moves s a .transfer (c := c) := by
  have hT := h.transfer
  have hb := h.base
  have hedge : c.info.incoming_edges[0]? = some c.column_edge := rfl
  have hcounters : s.memory.operation c.vertex =
      { s.memory.operation c.vertex with fetched_until := ng_morsel_size * a.front } := by
    rw [← h.fetched]
  have hsame : { a with front := a.front, claimed := a.claimed } = a := rfl
  rcases hpc with hpc | hpc | hpc
  · rw [hpc] at hT
    obtain ⟨hp, rfl, hfetched, hclaimed⟩ := hT
    have hfront := (hok.claimed hclaimed).2
    obtain ⟨hfit, hsize⟩ := c.morsels_fit hfront
    have hstep : transfer_data c.device_type c.info c.owner s.transfer s.memory =
        some (.copy (ng_morsel_size * a.front) 0 max, s.memory.with_key
          (compute_alias_name_for_offset c.column_name (ng_morsel_size * a.front), c.owner)) := by
      have hvertex : c.info.current_node = c.vertex := rfl
      have hlt : ng_morsel_size * a.front < c.data_size :=
        Nat.lt_of_lt_of_le (Nat.lt_add_of_pos_right (by decide)) hfit
      simp only [hpc, transfer_data, hedge, open_morsel, hvertex]
      rw [hfetched, hb.column_size, if_pos ⟨hlt, hb.elsewhere⟩, hp.args]
      simp [hb.column_shared, Memory.create_sub_buffer_eq hp.column_present]
    refine h.transfer_step hp a.front a.claimed hstep
      (keeps_key _) rfl (by simpa using hcounters) (Nat.le_refl _) (fun i hi => ?_) ⟨?_, ?_⟩
      (.inl hsame) ?_
    · exact (keeps_key (c := c) _).grows _ _ (h.sub_buffers i hi)
    · exact ⟨hp.keeps (keeps_key _), rfl, hfetched, hclaimed⟩
    · exact (Memory.present_with_key _ _ _).mpr (.inl rfl)
    · simp only [hpc, TransferPc.work, morsel_div]
      omega
  · rw [hpc] at hT
    obtain ⟨hm, hpresent⟩ := hT
    have hfront := (hok.claimed hm.claimed).2
    have hstep : transfer_data c.device_type c.info c.owner s.transfer s.memory =
        some (.fetched offset 0 max, s.memory) := by
      have hsource : s.memory.source_present c.column_edge := .inl hb.column_virtual
      simp [hpc, transfer_data, hedge, hsource, hb.column_virtual]
    refine h.transfer_step hm.prepared a.front a.claimed hstep .refl rfl
      hcounters (Nat.le_refl _) h.sub_buffers ⟨hm, hpresent⟩ (.inl hsame) ?_
    rw [hm.offset, hpc]
    simp only [hm.offset, TransferPc.work, morsel_div]
    omega
  · rw [hpc] at hT
    obtain ⟨hm, hpresent⟩ := hT
    have hfront := (hok.claimed hm.claimed).2
    obtain ⟨hfit, hsize⟩ := c.morsels_fit hfront
    have hadd : size_add offset ng_morsel_size = offset + ng_morsel_size :=
      size_add_eq (by rw [hm.offset]; exact Nat.lt_of_le_of_lt hfit hsize)
    have hstep : transfer_data c.device_type c.info c.owner s.transfer s.memory =
        some (.edge offset 1 max, s.memory.modify_edge c.column_edge
          (fun d => { d with fetched_until := offset + ng_morsel_size })) := by
      simp [hpc, transfer_data, hedge, hadd]
    have hk : c.Keeps c.owner s.memory (s.memory.modify_edge c.column_edge
        (fun d => { d with fetched_until := offset + ng_morsel_size })) :=
      keeps_column (fun _ => rfl)
    refine h.transfer_step hm.prepared a.front a.claimed hstep hk rfl
      hcounters (Nat.le_refl _) h.sub_buffers ⟨?_, hpresent⟩ (.inl hsame) ?_
    · exact ⟨hm.prepared.keeps hk, hm.offset, by simp, hm.claimed⟩
    · rw [hpc]
      simp only [hm.offset, TransferPc.work, morsel_div]
      omega

/-- The transfer publishes its offset. -/
theorem transfer_publishes (h : c.Refines s a) (hok : front_and_rear.Ok c.k a) {offset max : Nat}
    (hpc : s.transfer = .edge offset 1 max ∨ s.transfer = .advance offset max) :
    Moves s a .transfer (c := c) := by
  have hT := h.transfer
  rcases hpc with hpc | hpc
  · rw [hpc] at hT
    obtain ⟨hm, hpresent⟩ := hT
    have hfront := (hok.claimed hm.claimed).2
    have hstep : transfer_data c.device_type c.info c.owner s.transfer s.memory =
        some (.advance offset max, s.memory) := by
      simp [hpc, transfer_data, info]
    refine h.transfer_step hm.prepared a.front a.claimed hstep .refl rfl
      (by rw [← h.fetched]) (Nat.le_refl _) h.sub_buffers ⟨hm, hpresent⟩ (.inl rfl) ?_
    rw [hpc]
    simp only [hm.offset, TransferPc.work, morsel_div]
    omega
  · rw [hpc] at hT
    obtain ⟨hm, hpresent⟩ := hT
    have hfront := (hok.claimed hm.claimed).2
    obtain ⟨hfit, hsize⟩ := c.morsels_fit hfront
    have hadd : size_add offset ng_morsel_size = ng_morsel_size * (a.front + 1) := by
      rw [size_add_eq (by rw [hm.offset]; exact Nat.lt_of_le_of_lt hfit hsize), hm.offset,
        Nat.mul_succ]
    have hstep : transfer_data c.device_type c.info c.owner s.transfer s.memory =
        some (.loop (ng_morsel_size * (a.front + 1)) max, s.memory.modify_operation c.vertex
          (fun o => { o with fetched_until := ng_morsel_size * (a.front + 1) })) := by
      simp [hpc, transfer_data, info, hadd]
    have hk : c.Keeps c.owner s.memory (s.memory.modify_operation c.vertex
        (fun o => { o with fetched_until := ng_morsel_size * (a.front + 1) })) :=
      keeps_operation (fun _ => rfl)
    refine h.transfer_step hm.prepared (a.front + 1) false hstep hk rfl
      (by simp) (Nat.le_succ _) (fun i hi => ?_) ?_ (.inr (.advance hm.claimed)) ?_
    · rcases Nat.lt_succ_iff_lt_or_eq.mp hi with hlt | rfl
      · exact h.sub_buffers i hlt
      · rw [← hm.offset]
        exact hpresent
    · refine ⟨hm.prepared.keeps hk, rfl, ?_, rfl⟩
      rw [Memory.edge_modify_operation, hm.fetched, hm.offset, Nat.mul_succ]
    · rw [hpc]
      simp only [hm.offset, TransferPc.work, morsel_div]
      omega

/-- The transfer thread has finished, or its next step leaves less work. -/
theorem transfer_moves (h : c.Refines s a) (hok : front_and_rear.Ok c.k a) :
    (∃ max, s.transfer = .finished max) ∨ Moves s a .transfer (c := c) := by
  have hT := h.transfer
  unfold TransferOk at hT
  split at hT
  case h_1 hpc => exact .inr (result_is_set_up h (.inl hpc))
  case h_2 hpc => exact .inr (result_is_set_up h (.inr (.inl hpc)))
  case h_3 hpc => exact .inr (result_is_set_up h (.inr (.inr (.inl hpc))))
  case h_4 hpc => exact .inr (result_is_set_up h (.inr (.inr (.inr hpc))))
  case h_5 hpc => exact .inr (column_is_set_up h hpc)
  case h_6 hpc => exact .inr (size_is_read h (.inl hpc))
  case h_7 hpc => exact .inr (size_is_read h (.inr (.inl hpc)))
  case h_8 hpc => exact .inr (size_is_read h (.inr (.inr (.inl hpc))))
  case h_9 hpc => exact .inr (size_is_read h (.inr (.inr (.inr hpc))))
  case h_10 hpc => exact .inr (rear_is_set h (.inl hpc))
  case h_11 hpc => exact .inr (rear_is_set h (.inr (.inl hpc)))
  case h_12 hpc => exact .inr (rear_is_set h (.inr (.inr hpc)))
  case h_13 hpc => exact .inr (transfer_tests h hpc)
  case h_14 hpc => exact .inr (transfer_moves_morsel h hok (.inl hpc))
  case h_15 hpc => exact .inr (transfer_moves_morsel h hok (.inr (.inl hpc)))
  case h_16 hpc => exact .inr (transfer_moves_morsel h hok (.inr (.inr hpc)))
  case h_17 hpc => exact .inr (transfer_publishes h hok (.inl hpc))
  case h_18 hpc => exact .inr (transfer_publishes h hok (.inr hpc))
  case h_19 hpc => exact .inl ⟨_, hpc⟩
  case h_20 => exact hT.elim

/-- The setup is complete when `is_initialized` is set. -/
theorem Refines.prepared (h : c.Refines s a)
    (hinit : (s.memory.node c.vertex).is_initialized = true) : c.Prepared s.memory := by
  have hT := h.transfer
  unfold TransferOk at hT
  split at hT
  case h_13 => exact hT.1
  case h_14 => exact hT.prepared
  case h_15 => exact hT.1.prepared
  case h_16 => exact hT.1.prepared
  case h_17 => exact hT.1.prepared
  case h_18 => exact hT.1.prepared
  case h_19 => exact hT.1
  case h_20 => exact hT.elim
  all_goals exact (hT.1.not_prepared hinit).elim

end Selection

end hero.data_parallelism
