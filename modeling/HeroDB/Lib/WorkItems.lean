-- Work items that share a memory: each item has a state of its own, and the items take their turns
-- in any order. A law of a launch comes from what one turn does to its item and to the others.
import HeroDB.Lib.Transition
import Mathlib.Algebra.BigOperators.Group.List.Basic
import Mathlib.Data.List.Basic

namespace hero.work_items

open transition

universe u v w

/-- A launch on its way: the memory, and the state of every item. -/
structure Launch (ρ : Type u) (μ : Type v) where
  memory : μ
  items : List ρ

section launch

variable {ρ : Type u} {μ : Type v} (turn : Nat → ρ → μ → Option (ρ × μ))

/-- A launch of `N` items. A turn that is not defined is not taken. -/
def launch (init : μ → Prop) (start : ρ) (N : Nat) : System (Launch ρ μ) Nat where
  init s := init s.memory ∧ s.items = List.replicate N start
  step s gid := (s.items[gid]?).bind (fun r =>
    (turn gid r s.memory).map (fun next => ⟨next.2, s.items.set gid next.1⟩))

variable {turn} {init : μ → Prop} {start : ρ} {N gid : Nat} {s t : Launch ρ μ}

/-- What a step does. -/
theorem step_cases (h : (launch turn init start N).step s gid = some t) :
    ∃ r r', s.items[gid]? = some r ∧ turn gid r s.memory = some (r', t.memory) ∧
      t.items = s.items.set gid r' := by
  simp only [launch, Option.bind_eq_some_iff, Option.map_eq_some_iff] at h
  obtain ⟨r, hr, ⟨r', m⟩, hturn, rfl⟩ := h
  exact ⟨r, r', hr, hturn, rfl⟩

theorem step_eq (init : μ → Prop) (start : ρ) (N : Nat) {r r' : ρ} {m : μ}
    (hr : s.items[gid]? = some r)
    (hturn : turn gid r s.memory = some (r', m)) :
    (launch turn init start N).step s gid = some ⟨m, s.items.set gid r'⟩ := by
  simp only [launch, hr, Option.bind_some, hturn, Option.map_some]

/-- What holds of the memory and of every item. -/
def Holds (I : μ → Prop) (L : Nat → ρ → μ → Prop) (N : Nat) (s : Launch ρ μ) : Prop :=
  I s.memory ∧ s.items.length = N ∧ ∀ gid r, s.items[gid]? = some r → L gid r s.memory

/-- A turn of an item keeps what holds of the memory and of the item, and it does not disturb what
holds of another item. -/
def Stable (turn : Nat → ρ → μ → Option (ρ × μ)) (I : μ → Prop) (L : Nat → ρ → μ → Prop)
    (N : Nat) : Prop :=
  ∀ gid r m r' m', gid < N → I m → L gid r m → turn gid r m = some (r', m') →
    I m' ∧ L gid r' m' ∧ ∀ other r'', other ≠ gid → L other r'' m → L other r'' m'

theorem Holds.step {I : μ → Prop} {L : Nat → ρ → μ → Prop} (hstable : Stable turn I L N)
    (hs : Holds I L N s) (h : (launch turn init start N).step s gid = some t) : Holds I L N t := by
  obtain ⟨hI, hlen, hL⟩ := hs
  obtain ⟨r, r', hr, hturn, hitems⟩ := step_cases h
  have hgid := (List.getElem?_eq_some_iff.mp hr).1
  obtain ⟨hI', hown, hothers⟩ := hstable gid r _ r' _ (by omega) hI (hL gid r hr) hturn
  refine ⟨hI', by rw [hitems, List.length_set, hlen], ?_⟩
  intro other r'' hr''
  by_cases hsame : gid = other
  · subst hsame
    rw [hitems, List.getElem?_set_self hgid, Option.some.injEq] at hr''
    rwa [← hr'']
  · rw [hitems, List.getElem?_set_ne hsame] at hr''
    exact hothers other r'' (Ne.symm hsame) (hL other r'' hr'')

/-- The rule for an invariant of a launch. -/
theorem holds_of_reachable {I : μ → Prop} {L : Nat → ρ → μ → Prop} (hstable : Stable turn I L N)
    (hI : ∀ m, init m → I m) (hL : ∀ m gid, init m → gid < N → L gid start m)
    (h : (launch turn init start N).Reachable s) : Holds I L N s := by
  refine h.invariant ?_ (fun _ _ _ hs hstep => hs.step hstable hstep)
  rintro s ⟨hinit, hitems⟩
  refine ⟨hI _ hinit, by rw [hitems, List.length_replicate], ?_⟩
  intro gid r hr
  rw [hitems, List.getElem?_replicate] at hr
  split at hr
  case isTrue hgid =>
    rw [Option.some.injEq] at hr
    rw [← hr]
    exact hL _ _ hinit hgid
  case isFalse => cases hr

/-- A turn of an item, when the item has its turns one after the other. -/
theorem own_turn {ok : Launch ρ μ → Nat → Prop} (hok : ∀ s, ok s gid) {r r' : ρ} {m m' : μ}
    {items : List ρ} (hgid : gid < items.length)
    (h : (launch turn init start N).Run ok s ⟨m, items.set gid r⟩)
    (hturn : turn gid r m = some (r', m')) :
    (launch turn init start N).Run ok s ⟨m', items.set gid r'⟩ := by
  have hstep : (launch turn init start N).step ⟨m, items.set gid r⟩ gid =
      some ⟨m', (items.set gid r).set gid r'⟩ :=
    step_eq init start N (List.getElem?_set_self hgid) hturn
  rw [List.set_set] at hstep
  exact .snoc h (hok _) hstep

end launch

/-! ## Shares of the items -/

section total

variable {ρ : Type u} {μ : Type v} {A : Type w} [AddCommMonoid A]
variable {turn : Nat → ρ → μ → Option (ρ × μ)} {init : μ → Prop} {start : ρ} {N gid : Nat}
variable {s t : Launch ρ μ} {I : μ → Prop} {L : Nat → ρ → μ → Prop}

/-- The shares of all items, added up. -/
def total (share : Nat → ρ → A) (items : List ρ) : A := (items.mapIdx share).sum

theorem total_set (share : Nat → ρ → A) {items : List ρ} {r r' : ρ} (hr : items[gid]? = some r) (d : A)
    (h : share gid r' = share gid r + d) :
    total share (items.set gid r') = total share items + d := by
  unfold total
  have hshare : (items.mapIdx share)[gid]? = some (share gid r) := by
    rw [List.getElem?_mapIdx, hr, Option.map_some]
  obtain ⟨hlt, hget⟩ := List.getElem?_eq_some_iff.mp hshare
  rw [List.mapIdx_set, List.sum_set, if_pos hlt, h]
  conv_rhs => rw [← List.take_append_drop gid (items.mapIdx share), List.drop_eq_getElem_cons hlt,
    List.sum_append, List.sum_cons, hget]
  simp only [add_assoc, add_comm d]

/-- The rule for a quantity that is changed by the turns as the shares of the items are. -/
theorem total_of_reachable (hstable : Stable turn I L N) (hI : ∀ m, init m → I m)
    (hL : ∀ m gid, init m → gid < N → L gid start m) (q : μ → A) (share : Nat → ρ → A)
    (hinit : ∀ m, init m → q m = total share (List.replicate N start))
    (hturn : ∀ gid r m r' m', gid < N → L gid r m → I m → turn gid r m = some (r', m') →
      ∃ d, share gid r' = share gid r + d ∧ q m' = q m + d)
    (h : (launch turn init start N).Reachable s) : q s.memory = total share s.items := by
  have hboth := h.invariant (I := fun s => Holds I L N s ∧ q s.memory = total share s.items) ?_ ?_
  · exact hboth.2
  · rintro s ⟨hm, hitems⟩
    refine ⟨holds_of_reachable hstable hI hL ⟨s, ⟨hm, hitems⟩, .refl⟩, ?_⟩
    rw [hinit _ hm, hitems]
  · rintro s gid t ⟨hs, hq⟩ hstep
    refine ⟨hs.step hstable hstep, ?_⟩
    obtain ⟨r, r', hr, hrun, hitems⟩ := step_cases hstep
    have hgid : gid < N := by
      rw [← hs.2.1]
      exact (List.getElem?_eq_some_iff.mp hr).1
    obtain ⟨d, hd, hqd⟩ := hturn gid r _ r' _ hgid (hs.2.2 gid r hr) hs.1 hrun
    rw [hitems, total_set share hr d hd, hqd, hq]

end total

/-! ## The end of a launch -/

section finish

variable {ρ : Type u} {μ : Type v} {turn : Nat → ρ → μ → Option (ρ × μ)} {init : μ → Prop}
variable {start : ρ} {N gid : Nat} {s t : Launch ρ μ}

theorem total_lt (left : Nat → ρ → Nat) {items : List ρ} {r r' : ρ} (hr : items[gid]? = some r)
    (h : left gid r' < left gid r) : total left (items.set gid r') < total left items := by
  obtain ⟨hlt, hget⟩ := List.getElem?_eq_some_iff.mp hr
  have hback : total left ((items.set gid r').set gid r) =
      total left (items.set gid r') + (left gid r - left gid r') :=
    total_set left (List.getElem?_set_self hlt) _ (by omega)
  rw [List.set_set, ← hget, List.set_getElem_self, hget] at hback
  omega

/-- When each turn leaves less to do, a run has at most as many steps as there was to do. -/
theorem steps_le (left : Nat → ρ → Nat)
    (hleft : ∀ gid r m r' m', turn gid r m = some (r', m') → left gid r' < left gid r)
    {gids : List Nat} (h : (launch turn init start N).exec s gids = some t) :
    gids.length + total left t.items ≤ total left s.items := by
  induction gids generalizing s with
  | nil =>
    rw [System.exec, Option.some.injEq] at h
    exact Nat.le_of_eq (by rw [h, List.length_nil, Nat.zero_add])
  | cons gid rest ih =>
    rw [System.exec, Option.bind_eq_some_iff] at h
    obtain ⟨s1, hs1, hrest⟩ := h
    obtain ⟨r, r', hr, hturn, hitems⟩ := step_cases hs1
    have hlt := total_lt left hr (hleft gid r _ r' _ hturn)
    rw [← hitems] at hlt
    have hrun := ih hrest
    rw [List.length_cons]
    omega

/-- When each turn leaves less to do, and an item that is not done has a turn, a launch comes to an
end. -/
theorem finishes {I : μ → Prop} {L : Nat → ρ → μ → Prop} (hstable : Stable turn I L N)
    (left : Nat → ρ → Nat)
    (hleft : ∀ gid r m r' m', turn gid r m = some (r', m') → left gid r' < left gid r)
    (done : ρ → Prop) (hmoves : ∀ gid r m, gid < N → I m → L gid r m → ¬ done r →
      ∃ next, turn gid r m = some next)
    (h : Holds I L N s) :
    ∃ t, (launch turn init start N).Run (fun _ _ => True) s t ∧ ∀ r ∈ t.items, done r := by
  induction hn : total left s.items using Nat.strongRecOn generalizing s with
  | ind n ih =>
    by_cases hdone : ∀ r ∈ s.items, done r
    · exact ⟨s, .refl, hdone⟩
    · simp only [not_forall] at hdone
      obtain ⟨r, hmem, hopen⟩ := hdone
      obtain ⟨gid, hr⟩ := List.mem_iff_getElem?.mp hmem
      have hgid : gid < N := by
        rw [← h.2.1]
        exact (List.getElem?_eq_some_iff.mp hr).1
      obtain ⟨⟨r', m⟩, hturn⟩ := hmoves gid r s.memory hgid h.1 (h.2.2 gid r hr) hopen
      have hstep := step_eq init start N hr hturn
      have hlt := total_lt left hr (hleft gid r _ r' _ hturn)
      obtain ⟨t, hrun, hend⟩ := ih _ (by rwa [← hn]) (h.step hstable hstep) rfl
      exact ⟨t, .head trivial hstep hrun, hend⟩

end finish

end hero.work_items
