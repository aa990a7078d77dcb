-- The steps of the processing loop of a shared selection. It waits for the transfer, and it advances
-- once the transfer has passed all that the helper left to it.
import HeroDB.SharedTransfer

namespace hero.data_parallelism

open front_and_rear (Meeting)

namespace Selection

variable {c : Selection} {m m' : Memory} {a b : Meeting} {s : Threads}

/-! ## The processing loop -/

/-- The processing loop goes on to `pc`, and the other threads stay where they are. -/
def ProcessGoes (s : Threads) (a b : Meeting) (pc : ProcessPc) : Prop :=
  ∃ t, c.step s .process = some t ∧ c.Simulates s t a b ∧ t.transfer = s.transfer ∧
    t.process = pc ∧ t.helper = s.helper ∧
    c.work t + s.process.work c.k = c.work s + pc.work c.k

/-- A step of the processing loop: it writes `processed_until` and adds sub-buffers of the owner. -/
theorem Refines.process_step (h : c.Refines s a) (hp : c.Prepared s.memory) {pc : ProcessPc}
    (done : Nat) (m' : Memory) (hstep : process_data c.info c.owner s.process s.memory = some (pc, m'))
    (hk : c.Keeps c.owner s.memory m') (hcolumn : m'.edge c.column_edge = s.memory.edge c.column_edge)
    (hcounters : m'.operation c.vertex =
      { s.memory.operation c.vertex with processed_until := ng_morsel_size * done })
    (howner : ∀ offset, .execute c.vertex c.owner offset ∈ m'.trace ↔
      ∃ i, i < done + pc.ran ∧ offset = ng_morsel_size * i)
    (hhelper : ∀ offset, .execute c.vertex c.helper offset ∈ m'.trace ↔
      .execute c.vertex c.helper offset ∈ s.memory.trace)
    (hpc : c.ProcessOk m' { a with done := done } pc)
    (hmove : { a with done := done } = a ∨ front_and_rear.Step a { a with done := done }) :
    ProcessGoes s a { a with done := done } pc (c := c) := by
  refine ⟨{ s with process := pc, memory := m' }, ?_,
    ⟨⟨h.base.keeps hk, ?_, ?_, ?_, ?_, ?_, hpc, ?_, howner, ?_⟩, hmove, ?_, ?_⟩, rfl, rfl, rfl, ?_⟩
  · simp [step, hstep]
  · rw [hcounters]; exact h.fetched
  · rw [hcounters]
  · intro _
    rw [hcounters]
    exact h.rear hp.initialized
  · exact fun i hi => hk.grows _ _ (h.sub_buffers i hi)
  · exact h.transfer.keeps hk hp.initialized (by rw [hcolumn]) rfl rfl (Nat.le_refl _)
  · exact h.helper.keeps hk c.devices_apart.symm rfl
  · exact fun offset => (hhelper offset).trans (h.helper_log offset)
  · left; simp only [hcounters]
  · left; simp only [hcounters]
  · unfold work
    simp only [hcounters]
    omega

/-- A step of the processing loop that only moves on. -/
theorem Refines.process_moves_on (h : c.Refines s a) (hp : c.Prepared s.memory) {pc : ProcessPc}
    (hstep : process_data c.info c.owner s.process s.memory = some (pc, s.memory))
    (hran : pc.ran = s.process.ran) (hpc : c.ProcessOk s.memory a pc) :
    ProcessGoes s a a pc (c := c) :=
  h.process_step hp a.done _ hstep .refl rfl (by rw [← h.processed])
    (by rw [hran]; exact h.owner_log) (fun _ => Iff.rfl) hpc (.inl rfl)

theorem process_waits (h : c.Refines s a) (hpc : s.process = .wait) :
    if (s.memory.node c.vertex).is_initialized then ProcessGoes s a a (.loop 0 false) (c := c)
    else ProcessGoes s a a .wait (c := c) := by
  have hP := h.process
  rw [hpc] at hP
  split
  · rename_i hinit
    have hp := h.prepared hinit
    refine h.process_moves_on hp ?_ (by rw [hpc]; rfl) ⟨hp, ?_⟩
    · simp only [hpc, process_data]
      have hvertex : c.info.current_node = c.vertex := rfl
      rw [hvertex, hinit, if_pos rfl]
    · have hdone : a.done = 0 := hP
      rw [hdone, Nat.mul_zero]
  · rename_i hinit
    refine ⟨s, ?_, ⟨h, .inl rfl, .inl rfl, .inl rfl⟩, rfl, hpc, rfl, by rw [hpc]⟩
    have hvertex : c.info.current_node = c.vertex := rfl
    simp only [step, process_data, hpc, hvertex, if_neg hinit, Option.map_some]
    rw [← hpc]

/-- The test of the processing loop. -/
theorem process_tests (h : c.Refines s a) {offset : Nat} {created : Bool}
    (hpc : s.process = .loop offset created) :
    if a.done < a.handed then
      ProcessGoes s a a (if created then .test offset 0 else .sub_buffer offset) (c := c)
    else ProcessGoes s a a .put_EOD (c := c) := by
  have hP := h.process
  rw [hpc] at hP
  obtain ⟨hp, rfl⟩ := hP
  have hhanded := (h.rear hp.initialized).2
  have hvertex : c.info.current_node = c.vertex := rfl
  split
  · rename_i hlt
    refine h.process_moves_on hp ?_ (by rw [hpc]; cases created <;> rfl) ?_
    · simp only [hpc, process_data, hvertex, hhanded]
      exact if_pos (Nat.mul_lt_mul_of_pos_left hlt (by decide))
    · cases created with
      | false => exact ⟨hp, rfl⟩
      | true => exact ⟨hp, rfl, Nat.zero_le 1, fun hi => absurd hi (Nat.lt_irrefl 0)⟩
  · rename_i hlt
    refine h.process_moves_on hp ?_ (by rw [hpc]; rfl) ⟨hp, Nat.not_lt.mp hlt⟩
    simp only [hpc, process_data, hvertex, hhanded]
    exact if_neg (Nat.not_lt.mpr (Nat.mul_le_mul_left _ (Nat.not_lt.mp hlt)))

/-- The sub-buffer of the results of a morsel. -/
theorem process_opens (h : c.Refines s a) {offset : Nat} (hpc : s.process = .sub_buffer offset) :
    ProcessGoes s a a (.test offset 0) (c := c) := by
  have hP := h.process
  rw [hpc] at hP
  obtain ⟨hp, hoffset⟩ := hP
  have hlog := h.owner_log
  rw [hpc] at hlog
  refine h.process_step hp a.done (s.memory.with_key
    (compute_alias_name_for_offset c.result_name
      (get_result_buffer_offset (s.memory.operation c.vertex) offset), c.owner)) ?_
    (keeps_key _) rfl (by rw [← h.processed]; rfl) hlog (fun _ => Iff.rfl)
    ⟨?_, hoffset, Nat.zero_le 1, ?_⟩
    (.inl rfl)
  · have hvertex : c.info.current_node = c.vertex := rfl
    simp [hpc, process_data, hvertex, hp.result, Memory.create_sub_buffer_eq hp.result_present]
  · exact hp.keeps (keeps_key _)
  · exact fun hi => absurd hi (Nat.lt_irrefl 0)

/-- The availability test: it passes once the transfer has passed the morsel. -/
theorem process_looks (h : c.Refines s a) {offset : Nat} (hpc : s.process = .test offset 0) :
    if a.done < a.front then ProcessGoes s a a (.test offset 1) (c := c)
    else ProcessGoes s a a (.loop offset true) (c := c) := by
  have hP := h.process
  rw [hpc] at hP
  obtain ⟨hp, rfl, -, -⟩ := hP
  have hvertex : c.info.current_node = c.vertex := rfl
  have hargs : 0 < (s.memory.operation c.vertex).operationType.no_of_args - 1 := by
    rw [h.base.operationType, c.one_input]
    decide
  split
  · rename_i hlt
    have hfetched : ng_morsel_size * a.done < ng_morsel_size * a.front :=
      Nat.mul_lt_mul_of_pos_left hlt (by decide)
    refine h.process_moves_on hp ?_ (by rw [hpc]; rfl) ⟨hp, rfl, Nat.le_refl 1, fun _ => hlt⟩
    simp only [hpc, process_data, hvertex]
    rw [if_pos hargs, hp.args, h.fetched]
    simp [h.sub_buffers _ hlt, hfetched]
  · rename_i hlt
    have hfetched : ¬ ng_morsel_size * a.done < ng_morsel_size * a.front :=
      Nat.not_lt.mpr (Nat.mul_le_mul_left _ (Nat.not_lt.mp hlt))
    refine h.process_moves_on hp ?_ (by rw [hpc]; rfl) ⟨hp, rfl⟩
    simp only [hpc, process_data, hvertex]
    rw [if_pos hargs, hp.args, h.fetched]
    simp [hfetched]

/-- The processing loop executes a morsel. -/
theorem process_executes (h : c.Refines s a) {offset : Nat}
    (hpc : s.process = .test offset 1 ∨ s.process = .execute offset) :
    ProcessGoes s a a (if s.process = .test offset 1 then .execute offset else .put_processed offset)
      (c := c) := by
  have hP := h.process
  have hvertex : c.info.current_node = c.vertex := rfl
  rcases hpc with hpc | hpc
  · rw [hpc] at hP
    obtain ⟨hp, hoffset, -, hlt⟩ := hP
    rw [if_pos hpc]
    refine h.process_moves_on hp ?_ (by rw [hpc]; rfl) ⟨hp, hoffset, hlt (Nat.lt_succ_self 0)⟩
    simp only [hpc, process_data, hvertex]
    apply if_neg
    rw [h.base.operationType, c.one_input]
    decide
  · rw [hpc] at hP
    obtain ⟨hp, hoffset, hlt⟩ := hP
    have hlog := h.owner_log
    rw [hpc] at hlog
    rw [if_neg (by rw [hpc]; intro heq; cases heq)]
    refine h.process_step hp a.done
      (s.memory.log (.execute c.vertex c.owner offset)) ?_ (keeps_log _) rfl
      (by rw [← h.processed]; rfl) (fun o => ?_) (fun o => ?_)
      ⟨hp.keeps (keeps_log (d := c.owner) _), hoffset, hlt⟩ (.inl rfl)
    · simp [hpc, process_data, hvertex]
    · simp only [Memory.log, List.mem_append, hlog, List.mem_singleton, Event.execute.injEq,
        true_and, ProcessPc.ran, Nat.add_zero]
      constructor
      · rintro (⟨i, hi, rfl⟩ | rfl)
        · exact ⟨i, Nat.lt_succ_of_lt hi, rfl⟩
        · exact ⟨a.done, Nat.lt_succ_self _, hoffset⟩
      · rintro ⟨i, hi, rfl⟩
        rcases Nat.lt_succ_iff_lt_or_eq.mp hi with hi | rfl
        · exact .inl ⟨i, hi, rfl⟩
        · exact .inr hoffset.symm
    · simp [Memory.log, c.devices_apart.symm]

/-- The processing loop publishes a morsel, and in the end that there are no more. -/
theorem process_publishes (h : c.Refines s a) (hok : front_and_rear.Ok c.k a) {offset : Nat}
    (hpc : s.process = .put_processed offset) :
    ProcessGoes s a { a with done := a.done + 1 } (.put_edge offset) (c := c) := by
  have hP := h.process
  rw [hpc] at hP
  obtain ⟨hp, hoffset, hlt⟩ := hP
  have hlog := h.owner_log
  rw [hpc] at hlog
  have hvertex : c.info.current_node = c.vertex := rfl
  obtain ⟨hfit, hsize⟩ := c.morsels_fit (Nat.lt_of_lt_of_le hlt hok.front_le)
  have hadd : size_add offset ng_morsel_size = ng_morsel_size * (a.done + 1) := by
    rw [size_add_eq (by rw [hoffset]; exact Nat.lt_of_le_of_lt hfit hsize), hoffset, Nat.mul_succ]
  have hk : c.Keeps c.owner s.memory (s.memory.modify_operation c.vertex
      (fun o => { o with processed_until := ng_morsel_size * (a.done + 1) })) :=
    keeps_operation (fun _ => rfl)
  refine h.process_step hp (a.done + 1) _ ?_ hk rfl (by simp) hlog (fun _ => Iff.rfl)
    ⟨hp.keeps hk, ?_⟩ (.inr (.work hlt))
  · simp [hpc, process_data, info, hadd]
  · rw [hoffset, Nat.mul_succ]

theorem process_goes_on (h : c.Refines s a) (hok : front_and_rear.Ok c.k a) {offset : Nat}
    (hpc : s.process = .put_edge offset) :
    ProcessGoes s a a (.loop (offset + ng_morsel_size) false) (c := c) := by
  have hP := h.process
  rw [hpc] at hP
  obtain ⟨hp, hoffset⟩ := hP
  have hlog := h.owner_log
  rw [hpc] at hlog
  have hsum : offset + ng_morsel_size ≤ c.data_size := by
    rw [hoffset, data_size, Nat.mul_comm]
    exact Nat.mul_le_mul_right _ (Nat.le_trans hok.done_le hok.front_le)
  have hadd : size_add offset ng_morsel_size = offset + ng_morsel_size :=
    size_add_eq (Nat.lt_of_le_of_lt hsum c.fits)
  have hk : c.Keeps c.owner s.memory (s.memory.modify_edge c.out_edge
      (fun d => { d with processed_until := offset + ng_morsel_size })) := keeps_out (fun _ => rfl)
  refine h.process_step hp a.done _ ?_ hk (Memory.edge_modify_ne _ c.edges_apart _)
    (by rw [← h.processed]; rfl) hlog (fun _ => Iff.rfl) ⟨hp.keeps hk, hoffset⟩ (.inl rfl)
  simp [hpc, process_data, info, hadd]

theorem process_ends (h : c.Refines s a) (hpc : s.process = .put_EOD) :
    ProcessGoes s a a .finished (c := c) := by
  have hP := h.process
  rw [hpc] at hP
  obtain ⟨hp, hdone⟩ := hP
  have hlog := h.owner_log
  rw [hpc] at hlog
  have hk : c.Keeps c.owner s.memory (s.memory.modify_edge c.out_edge
      (fun d => { d with input_EOD := true })) := keeps_out (fun _ => rfl)
  refine h.process_step hp a.done _ ?_ hk (Memory.edge_modify_ne _ c.edges_apart _)
    (by rw [← h.processed]; rfl) hlog (fun _ => Iff.rfl) ⟨hp.keeps hk, hdone⟩ (.inl rfl)
  simp [hpc, process_data, info]

theorem put_edge_work {offset done k : Nat}
    (hoffset : offset + ng_morsel_size = ng_morsel_size * done) (hdone : done ≤ k) :
    (ProcessPc.loop (offset + ng_morsel_size) false).work k < (ProcessPc.put_edge offset).work k := by
  have hdiv := congrArg (· / ng_morsel_size) hoffset
  simp only [morsel_div, Nat.add_div_right _ (show 0 < ng_morsel_size by decide)] at hdiv
  simp only [ProcessPc.work, hoffset, morsel_div]
  omega

/-- The processing loop has finished, or it has a step that does not add work. -/
theorem process_moves (h : c.Refines s a) (hok : front_and_rear.Ok c.k a) :
    s.process = .finished ∨
      ∃ pc b, ProcessGoes s a b pc (c := c) ∧ pc.work c.k ≤ s.process.work c.k := by
  have hP := h.process
  have hdone : a.done ≤ c.k := Nat.le_trans hok.done_le hok.front_le
  cases hpc : s.process with
  | unborn => rw [hpc] at hP; exact hP.elim
  | wait =>
    have hgo := process_waits h hpc
    split at hgo
    · exact .inr ⟨_, _, hgo, by simp [ProcessPc.work]⟩
    · exact .inr ⟨_, _, hgo, Nat.le_refl _⟩
  | loop offset created =>
    have hgo := process_tests h hpc
    split at hgo
    · refine .inr ⟨_, _, hgo, ?_⟩
      cases created <;> simp [ProcessPc.work]
    · exact .inr ⟨_, _, hgo, by simp [ProcessPc.work]⟩
  | sub_buffer offset => exact .inr ⟨_, _, process_opens h hpc, by simp [ProcessPc.work]⟩
  | test offset i =>
    rw [hpc] at hP
    obtain ⟨-, -, hi, -⟩ := hP
    rcases Nat.le_one_iff_eq_zero_or_eq_one.mp hi with rfl | rfl
    · have hgo := process_looks h hpc
      split at hgo
      · exact .inr ⟨_, _, hgo, by simp [ProcessPc.work]⟩
      · exact .inr ⟨_, _, hgo, by simp [ProcessPc.work]⟩
    · have hgo := process_executes h (.inl hpc)
      rw [if_pos hpc] at hgo
      exact .inr ⟨_, _, hgo, by simp [ProcessPc.work]⟩
  | execute offset =>
    have hgo := process_executes h (.inr hpc)
    rw [if_neg (by rw [hpc]; intro heq; cases heq)] at hgo
    exact .inr ⟨_, _, hgo, by simp [ProcessPc.work]⟩
  | put_processed offset =>
    exact .inr ⟨_, _, process_publishes h hok hpc, by simp only [ProcessPc.work]; omega⟩
  | put_edge offset =>
    rw [hpc] at hP
    exact .inr ⟨_, _, process_goes_on h hok hpc, Nat.le_of_lt (put_edge_work hP.2 hdone)⟩
  | put_EOD => exact .inr ⟨_, _, process_ends h hpc, by simp [ProcessPc.work]⟩
  | finished => exact .inl rfl

variable (c) in
/-- The steps of one thread alone can leave less work. -/
def Advances (actor : Actor) (s : Threads) : Prop :=
  ∃ t, c.sharing.Run (fun _ a => a = actor) s t ∧ c.work t < c.work s

theorem Moves.advances {actor : Actor} (h : Moves s a actor (c := c)) : c.Advances actor s := by
  obtain ⟨t, b, hstep, -, hwork⟩ := h
  exact ⟨t, .snoc .refl rfl hstep, hwork⟩

theorem ProcessGoes.advances {pc : ProcessPc} (h : ProcessGoes s a b pc (c := c))
    (hwork : pc.work c.k < s.process.work c.k) : c.Advances .process s := by
  obtain ⟨t, hstep, -, -, -, -, hsum⟩ := h
  exact ⟨t, .snoc .refl rfl hstep, by omega⟩

/-- A step that does not add work, and after which the processing loop advances. -/
theorem ProcessGoes.advances_after {pc : ProcessPc} (h : ProcessGoes s a b pc (c := c))
    (hwork : pc.work c.k = s.process.work c.k)
    (hafter : ∀ t, c.Refines t b → t.process = pc → c.Advances .process t) :
    c.Advances .process s := by
  obtain ⟨t, hstep, hsim, -, hprocess, -, hsum⟩ := h
  obtain ⟨u, hrun, hless⟩ := hafter t hsim.refines hprocess
  exact ⟨u, .head rfl hstep hrun, by omega⟩

theorem loop_ends (hdone : a.handed ≤ a.done) (h : c.Refines s a) {offset : Nat} {created : Bool}
    (hpc : s.process = .loop offset created) : c.Advances .process s := by
  have hgo := process_tests h hpc
  rw [if_neg (Nat.not_lt.mpr hdone)] at hgo
  exact hgo.advances (by simp [hpc, ProcessPc.work])

/-- A test that fails for good leads to the end of the loop. -/
theorem test_advances (hopen : a.handed ≤ a.front) (h : c.Refines s a) {offset : Nat}
    (hpc : s.process = .test offset 0) : c.Advances .process s := by
  have hgo := process_looks h hpc
  split at hgo
  · exact hgo.advances (by simp [hpc, ProcessPc.work])
  · rename_i hlt
    apply hgo.advances_after
    · simp [hpc, ProcessPc.work]
    · exact fun t ht hloop => loop_ends (Nat.le_trans hopen (Nat.not_lt.mp hlt)) ht hloop

theorem sub_buffer_advances (hopen : a.handed ≤ a.front) (h : c.Refines s a) {offset : Nat}
    (hpc : s.process = .sub_buffer offset) : c.Advances .process s := by
  apply (process_opens h hpc).advances_after
  · simp [hpc, ProcessPc.work]
  · exact fun t ht htest => test_advances hopen ht htest

theorem loop_advances (hopen : a.handed ≤ a.front) (h : c.Refines s a) {offset : Nat}
    {created : Bool} (hpc : s.process = .loop offset created) : c.Advances .process s := by
  by_cases hlt : a.done < a.handed
  · have hgo := process_tests h hpc
    rw [if_pos hlt] at hgo
    cases created with
    | true =>
      apply hgo.advances_after
      · simp [hpc, ProcessPc.work]
      · exact fun t ht htest => test_advances hopen ht htest
    | false =>
      apply hgo.advances_after
      · simp [hpc, ProcessPc.work]
      · exact fun t ht hsub => sub_buffer_advances hopen ht hsub
  · exact loop_ends (Nat.not_lt.mp hlt) h hpc

/-- The processing loop advances once the transfer has passed all that the helper left to it. -/
theorem process_advances (h : c.Refines s a) (hok : front_and_rear.Ok c.k a)
    (hp : c.Prepared s.memory) (hopen : a.handed ≤ a.front) (hne : s.process ≠ .finished) :
    c.Advances .process s := by
  have hP := h.process
  have hfront := hok.front_le
  cases hpc : s.process with
  | unborn => rw [hpc] at hP; exact hP.elim
  | wait =>
    have hgo := process_waits h hpc
    rw [if_pos hp.initialized] at hgo
    exact hgo.advances (by simp [hpc, ProcessPc.work])
  | loop offset created => exact loop_advances hopen h hpc
  | sub_buffer offset => exact sub_buffer_advances hopen h hpc
  | test offset i =>
    rw [hpc] at hP
    obtain ⟨-, -, hi, -⟩ := hP
    rcases Nat.le_one_iff_eq_zero_or_eq_one.mp hi with rfl | rfl
    · exact test_advances hopen h hpc
    · have hgo := process_executes h (.inl hpc)
      rw [if_pos hpc] at hgo
      exact hgo.advances (by simp [hpc, ProcessPc.work])
  | execute offset =>
    rw [hpc] at hP
    obtain ⟨-, hoffset, hlt⟩ := hP
    have hgo := process_executes h (.inr hpc)
    rw [if_neg (by rw [hpc]; intro heq; cases heq)] at hgo
    refine hgo.advances ?_
    simp only [hpc, ProcessPc.work, hoffset, morsel_div]
    omega
  | put_processed offset =>
    rw [hpc] at hP
    obtain ⟨-, hoffset, hlt⟩ := hP
    refine (process_publishes h hok hpc).advances ?_
    simp only [hpc, ProcessPc.work, hoffset, morsel_div]
    omega
  | put_edge offset =>
    rw [hpc] at hP
    refine (process_goes_on h hok hpc).advances ?_
    rw [hpc]
    exact put_edge_work hP.2 (Nat.le_trans hok.done_le hfront)
  | put_EOD => exact (process_ends h hpc).advances (by simp [hpc, ProcessPc.work])
  | finished => exact absurd hpc hne

end Selection

end hero.data_parallelism
