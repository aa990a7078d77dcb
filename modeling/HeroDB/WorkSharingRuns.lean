-- The runs of a shared selection: in every interleaving the morsels are covered, the rear counters
-- stay in their range, and the three threads can finish.
import HeroDB.SharedProcessing
import HeroDB.SharedHelper

namespace hero.data_parallelism

open front_and_rear (Meeting)

namespace Selection

variable {c : Selection} {m m' : Memory} {a b : Meeting} {s : Threads}

/-! ## Runs of the three threads -/

theorem starts_refines (h : c.Starts s) : c.Refines s (.start c.k) := by
  obtain ⟨htransfer, hprocess, hhelper, hnode, hcolumn, hfresh, hunexecuted⟩ := h
  have hop : s.memory.operation c.vertex = c.node._operation := by
    simp [Memory.operation, hnode]
  have habsent : ∀ name ∈ [c.column_name, c.result_name, c.shared_name],
      ¬ s.memory.present name c.owner ∧ ¬ s.memory.present name c.helper :=
    fun name hname => ⟨hfresh name hname _ (by simp), hfresh name hname _ (by simp)⟩
  refine ⟨⟨by rw [hop]; rfl, by rw [hop]; rfl, by rw [hnode], by rw [hcolumn]; rfl,
    by rw [hcolumn]; rfl, by rw [hcolumn]; rfl, by rw [hcolumn]; rfl⟩, by rw [hop]; rfl,
    by rw [hop]; rfl, fun hinit => ?_, fun i hi => absurd hi (Nat.not_lt_zero i), ?_, ?_, ?_,
    fun offset => ?_, fun offset => ?_⟩
  · rw [hnode] at hinit
    cases hinit
  · rw [htransfer]
    exact ⟨⟨rfl, by rw [hnode]; rfl, by rw [hcolumn]; rfl⟩, by rw [hop]; rfl,
      (habsent _ (by simp)).1, (habsent _ (by simp)).1⟩
  · rw [hprocess]
    rfl
  · rw [hhelper]
    exact ⟨rfl, (habsent _ (by simp)).2, (habsent _ (by simp)).2⟩
  · rw [hprocess]
    refine iff_of_false (hunexecuted _ _) ?_
    rintro ⟨i, hi, -⟩
    exact absurd hi (Nat.not_lt_zero i)
  · rw [hhelper]
    refine iff_of_false (hunexecuted _ _) ?_
    rintro ⟨i, hi, hfrom, -⟩
    exact absurd hi (Nat.not_lt.mpr hfrom)

/-- A step of any thread is a step of the meeting and does not add work. -/
theorem step_simulates (h : c.Refines s a) (hok : front_and_rear.Ok c.k a) {actor : Actor}
    {t : Threads} (hstep : c.step s actor = some t) :
    ∃ b, c.Simulates s t a b ∧ c.work t ≤ c.work s := by
  cases actor with
  | transfer =>
    rcases transfer_moves h hok with ⟨max, hpc⟩ | ⟨u, b, hu, hsim, hwork⟩
    · simp [step, hpc, transfer_data] at hstep
    · cases hu.symm.trans hstep
      exact ⟨b, hsim, Nat.le_of_lt hwork⟩
  | process =>
    rcases process_moves h hok with hpc | ⟨pc, b, ⟨u, hu, hsim, -, -, -, hsum⟩, hwork⟩
    · simp [step, hpc, process_data] at hstep
    · cases hu.symm.trans hstep
      exact ⟨b, hsim, by omega⟩
  | helper =>
    rcases helper_moves h hok with hpc | ⟨u, b, hu, hsim, hwork⟩ | ⟨-, hu⟩
    · simp [step, hpc, work_sharing_transfer_and_process_data] at hstep
    · cases hu.symm.trans hstep
      exact ⟨b, hsim, Nat.le_of_lt hwork⟩
    · cases hu.symm.trans hstep
      exact ⟨a, ⟨h, .inl rfl, .inl rfl, .inl rfl⟩, Nat.le_refl _⟩

/-- In every run the three threads are where the two workers of some meeting are. -/
theorem reachable_refines (h : c.sharing.Reachable s) :
    ∃ a, front_and_rear.Ok c.k a ∧ c.Refines s a := by
  refine h.invariant (I := fun s => ∃ a, front_and_rear.Ok c.k a ∧ c.Refines s a) ?_ ?_
  · exact fun s hs => ⟨_, front_and_rear.ok_start c.one_le, starts_refines hs⟩
  · rintro s actor t ⟨a, hok, href⟩ hstep
    obtain ⟨b, hsim, -⟩ := step_simulates href hok hstep
    refine ⟨b, ?_, hsim.refines⟩
    rcases hsim.step with rfl | hmove
    · exact hok
    · exact hok.step hmove

/-- While one of the threads has not finished, some thread advances. -/
theorem unfinished_advances (h : c.Refines s a) (hok : front_and_rear.Ok c.k a)
    (hne : ¬ s.finished) : ∃ actor, c.Advances actor s := by
  rcases transfer_moves h hok with ⟨max, hmax⟩ | hmoves
  · have hT := h.transfer
    rw [hmax] at hT
    obtain ⟨hp, hpassed, -⟩ := hT
    rcases helper_moves h hok with hpc | hmoves | ⟨hinit, -⟩
    · have hH := h.helper
      rw [hpc] at hH
      have hhanded : a.handed = a.rear := hok.free (by rw [hH.2]; simp)
      refine ⟨.process, process_advances h hok hp (by rw [hhanded]; exact hpassed) ?_⟩
      exact fun hprocess => hne ⟨⟨max, hmax⟩, hprocess, hpc⟩
    · exact ⟨.helper, hmoves.advances⟩
    · rw [hp.initialized] at hinit
      cases hinit
  · exact ⟨.transfer, hmoves.advances⟩

/-- From every state of every run the threads can finish. -/
theorem finishes (h : c.sharing.Reachable s) : ∃ t, c.sharing.Reachable t ∧ t.finished := by
  induction hn : c.work s using Nat.strongRecOn generalizing s with
  | ind n ih =>
    by_cases hdone : s.finished
    · exact ⟨s, h, hdone⟩
    · obtain ⟨a, hok, href⟩ := reachable_refines h
      obtain ⟨actor, t, hrun, hless⟩ := unfinished_advances href hok hdone
      obtain ⟨s₀, hs₀, hrun₀⟩ := h
      have ht : c.sharing.Reachable t := by
        refine ⟨s₀, hs₀, ?_⟩
        clear hless hn ih
        induction hrun with
        | refl => exact hrun₀
        | snoc _ _ hstep ih => exact .snoc ih trivial hstep
      exact ih _ (hn ▸ hless) ht rfl

/-- Every morsel was executed, and at most one of them twice. -/
def Covered (c : Selection) (s : Threads) : Prop :=
  let executed (d offset : Nat) : Prop := .execute c.vertex d offset ∈ s.memory.trace
  (∀ offset, ng_morsel_size ∣ offset → offset < c.data_size →
    executed c.owner offset ∨ executed c.helper offset) ∧
  ∀ offset offset', executed c.owner offset → executed c.helper offset →
    executed c.owner offset' → executed c.helper offset' → offset = offset'

theorem finished_covered (h : c.Refines s a) (hok : front_and_rear.Ok c.k a) (hdone : s.finished) :
    c.Covered s := by
  obtain ⟨-, hprocess, hhelper⟩ := hdone
  have hP := h.process
  have hH := h.helper
  have howner := h.owner_log
  have hlog := h.helper_log
  rw [hprocess] at hP howner
  rw [hhelper] at hH hlog
  have hfree : a.helper ≠ .holds := by rw [hH.2]; simp
  constructor
  · rintro offset ⟨i, rfl⟩ hlt
    have hi : i < c.k := by
      rw [data_size, Nat.mul_comm] at hlt
      exact Nat.lt_of_mul_lt_mul_right hlt
    rcases front_and_rear.covered hP.2 i with hfront | hrear
    · exact .inl ((howner _).mpr ⟨i, hfront, rfl⟩)
    · exact .inr ((hlog _).mpr ⟨i, hi, hrear, rfl⟩)
  · have hrear : ∀ offset, .execute c.vertex c.owner offset ∈ s.memory.trace →
        .execute c.vertex c.helper offset ∈ s.memory.trace → offset = ng_morsel_size * a.rear := by
      intro offset hown hhelp
      obtain ⟨i, hi, rfl⟩ := (howner _).mp hown
      obtain ⟨j, -, hj, heq⟩ := (hlog _).mp hhelp
      have hij : i = j := Nat.eq_of_mul_eq_mul_left (by decide) heq
      rw [hok.both hfree hi (by rw [hij]; exact hj)]
    exact fun offset offset' h1 h2 h3 h4 => (hrear _ h1 h2).trans (hrear _ h3 h4).symm

end Selection

/-- The first selection of the test plan, over 2^16 rows. -/
def first_selection : Selection where
  operationType := ng_selection_greater_than
  ng_operation_counter := 0
  vertex := 1
  column_edge := 0
  out_edge := 3
  owner := 0
  helper := 1
  device_type := fun d => if d = 0 then .CPU else .GPU
  k := 64
  one_input := rfl
  edges_apart := by decide
  devices_apart := by decide
  one_le := by decide
  fits := by decide

def first_selection_start : Threads where
  memory :=
    { node := fun _ => { first_selection.node with executionDevice := 0 }
      edge := fun _ => create_edge first_selection.data_size true
      data_dictionary := []
      trace := [] }
  transfer := .start
  process := .wait
  helper := .wait

theorem first_selection_starts : first_selection.sharing.Reachable first_selection_start := by
  refine ⟨_, ⟨rfl, rfl, rfl, rfl, rfl, fun _ _ _ _ hp => ?_, fun _ _ hp => ?_⟩, .refl⟩
  · cases hp
  · cases hp

end hero.data_parallelism
