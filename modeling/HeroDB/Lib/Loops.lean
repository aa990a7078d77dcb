-- Loops that may go wrong: `foldlM` in `Option`, with the rules for what a loop that goes well has
-- done, and for a loop that goes well.
import Mathlib.Data.List.Basic
import Mathlib.Data.List.Induction

namespace hero.loops

universe u v

variable {α : Type u} {σ : Type v} {f : σ → α → Option σ} {s s' : σ} {l : List α}

theorem foldlM_snoc (l : List α) (x : α) (s : σ) :
    (l ++ [x]).foldlM f s = (l.foldlM f s).bind (fun s1 => f s1 x) := by
  rw [List.foldlM_append]
  cases l.foldlM f s with
  | none => rfl
  | some s1 =>
    simp only [Option.bind_eq_bind, Option.bind_some, List.foldlM_cons, List.foldlM_nil]
    cases f s1 x <;> rfl

theorem not_before {pre post : List α} {x : α} (hnodup : l.Nodup) (hl : l = pre ++ x :: post) :
    x ∉ pre := by
  rw [hl, List.nodup_append] at hnodup
  exact fun hmem => hnodup.2.2 x hmem x List.mem_cons_self rfl

/-- What every turn keeps, a loop that goes well keeps. -/
theorem keeps (Inv : List α → σ → Prop)
    (hstep : ∀ pre x post s1 s2, l = pre ++ x :: post → Inv pre s1 → f s1 x = some s2 →
      Inv (pre ++ [x]) s2)
    (hrun : l.foldlM f s = some s') (h : Inv [] s) : Inv l s' := by
  have hall : ∀ pre post, l = pre ++ post → ∀ s1, pre.foldlM f s = some s1 → Inv pre s1 := by
    intro pre
    induction pre using List.reverseRecOn with
    | nil =>
      intro post _ s1 hs1
      rw [List.foldlM_nil, Option.pure_def, Option.some.injEq] at hs1
      rwa [← hs1]
    | append_singleton pre x ih =>
      intro post hl s2 hs2
      rw [foldlM_snoc, Option.bind_eq_some_iff] at hs2
      obtain ⟨s1, hs1, hx⟩ := hs2
      have hl' : l = pre ++ x :: post := by simpa using hl
      exact hstep pre x post s1 s2 hl' (ih (x :: post) hl' s1 hs1) hx
  exact hall l [] (List.append_nil l).symm s' hrun

/-- A loop goes well if every turn does, as long as the invariant holds. -/
theorem goes_well (l : List α) (f : σ → α → Option σ) (s : σ) (Inv : List α → σ → Prop)
    (hstep : ∀ pre x post s1, l = pre ++ x :: post → Inv pre s1 →
      ∃ s2, f s1 x = some s2 ∧ Inv (pre ++ [x]) s2)
    (h : Inv [] s) : ∃ s', l.foldlM f s = some s' ∧ Inv l s' := by
  have hall : ∀ pre post, l = pre ++ post → ∃ s1, pre.foldlM f s = some s1 ∧ Inv pre s1 := by
    intro pre
    induction pre using List.reverseRecOn with
    | nil => exact fun _ _ => ⟨s, rfl, h⟩
    | append_singleton pre x ih =>
      intro post hl
      have hl' : l = pre ++ x :: post := by simpa using hl
      obtain ⟨s1, hs1, hinv⟩ := ih (x :: post) hl'
      obtain ⟨s2, hs2, hinv'⟩ := hstep pre x post s1 hl' hinv
      exact ⟨s2, by rw [foldlM_snoc, hs1, Option.bind_some, hs2], hinv'⟩
  exact hall l [] (List.append_nil l).symm

/-- In a loop that goes well, every turn does. -/
theorem every_turn (hrun : l.foldlM f s = some s') {x : α} (hx : x ∈ l) :
    ∃ s1 s2, f s1 x = some s2 := by
  induction l generalizing s with
  | nil => cases hx
  | cons y rest ih =>
    rw [List.foldlM_cons, Option.bind_eq_bind, Option.bind_eq_some_iff] at hrun
    obtain ⟨s1, hy, hrest⟩ := hrun
    rcases List.mem_cons.mp hx with rfl | hx
    · exact ⟨s, s1, hy⟩
    · exact ih hrest hx

/-- A loop whose turns keep an invariant, and go well or not by their element alone, goes well if
and only if each element does. -/
theorem goes_well_iff (Inv : σ → Prop) (P : α → Prop)
    (hturn : ∀ s1 x, Inv s1 → ((f s1 x).isSome ↔ P x))
    (hkeep : ∀ s1 x s2, Inv s1 → f s1 x = some s2 → Inv s2) (h : Inv s) :
    (l.foldlM f s).isSome ↔ ∀ x ∈ l, P x := by
  induction l generalizing s with
  | nil => simp
  | cons x rest ih =>
    rw [List.foldlM_cons, Option.bind_eq_bind, List.forall_mem_cons]
    cases hx : f s x with
    | none =>
      have hnot : ¬ P x := by
        rw [← hturn s x h, hx]
        simp
      simp [hnot]
    | some s2 =>
      have hyes : P x := by
        rw [← hturn s x h, hx]
        rfl
      rw [Option.bind_some, ih (hkeep s x s2 h hx), and_iff_right hyes]

theorem foldlM_flatMap {γ : Type u} (items : List γ) (turns : γ → List α) (s : σ) :
    (items.flatMap turns).foldlM f s =
      items.foldlM (fun s1 item => (turns item).foldlM f s1) s := by
  induction items generalizing s with
  | nil => rfl
  | cons item rest ih =>
    rw [List.flatMap_cons, List.foldlM_append, List.foldlM_cons]
    simp only [ih]

theorem foldlM_congr {g : σ → α → Option σ} (h : ∀ x ∈ l, ∀ s, f s x = g s x) :
    l.foldlM f s = l.foldlM g s := by
  induction l generalizing s with
  | nil => rfl
  | cons x rest ih =>
    rw [List.foldlM_cons, List.foldlM_cons, h x List.mem_cons_self]
    congr 1
    funext s1
    exact ih (fun y hy => h y (List.mem_cons_of_mem x hy))

/-- A loop whose turn at `i` sets the cell `i`: in the end the cells of its turns have their values,
and the others are as before. -/
theorem sets_cells {β : Type v} (cells : List β) (turns : List Nat) (value : Nat → β)
    (f : List β → Nat → Option (List β))
    (hf : ∀ i ∈ turns, ∀ cells', cells'.length = cells.length →
      f cells' i = some (cells'.set i (value i))) :
    ∃ cells', turns.foldlM f cells = some cells' ∧ cells'.length = cells.length ∧
      ∀ i < cells.length, cells'[i]? = if i ∈ turns then some (value i) else cells[i]? := by
  refine goes_well turns f cells (fun pre cells' => cells'.length = cells.length ∧
    ∀ i < cells.length, cells'[i]? = if i ∈ pre then some (value i) else cells[i]?) ?_
    ⟨rfl, fun i _ => by simp⟩
  rintro pre i post cells1 hl ⟨hlen, hcells⟩
  have hmem : i ∈ turns := by simp [hl]
  refine ⟨_, hf i hmem cells1 hlen, by rw [List.length_set, hlen], ?_⟩
  intro k hk
  by_cases hik : i = k
  · subst hik
    rw [List.getElem?_set_self (by omega), if_pos (by simp)]
  · rw [List.getElem?_set_ne hik, hcells k hk]
    simp [Ne.symm hik]

theorem range_split {n i : Nat} {pre post : List Nat} (h : List.range n = pre ++ i :: post) :
    pre = List.range i ∧ i < n := by
  have hlen : pre.length < n := by
    have := congrArg List.length h
    simp only [List.length_range, List.length_append, List.length_cons] at this
    omega
  have hi : i = pre.length := by
    have hget := congrArg (fun l => l[pre.length]?) h
    simpa [hlen] using hget.symm
  refine ⟨?_, by omega⟩
  have htake := congrArg (List.take pre.length) h
  rw [List.take_left, List.take_range, Nat.min_eq_left (Nat.le_of_lt hlen)] at htake
  rw [← htake, hi]

end hero.loops
