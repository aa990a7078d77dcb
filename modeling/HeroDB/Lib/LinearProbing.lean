-- Linear probing: every key is in the first cell from its home on that was free when it came, and
-- the keys fit when no end of the table is the home of too many of them.
import Mathlib.Data.List.Basic
import Mathlib.Data.List.Perm.Basic
import Mathlib.Data.List.TakeDrop

namespace hero.linear_probing

universe u

section table

variable {β : Type u} (vacant : β → Prop) [DecidablePred vacant] (home : β → Nat)

def stored (cells : List β) : List β := cells.filter (fun x => ¬ vacant x)

def Full (cells : List β) (lo hi : Nat) : Prop :=
  ∀ t, lo ≤ t → t < hi → ∃ x, cells[t]? = some x ∧ ¬ vacant x

/-- The cells hold these keys, and between the home of a key and its cell no cell is free. -/
structure Probed (cells keys : List β) : Prop where
  holds : (stored vacant cells).Perm keys
  full : ∀ s x, cells[s]? = some x → ¬ vacant x → home x ≤ s ∧ Full vacant cells (home x) s

/-- How many keys have their home at `u` or behind it. -/
def behind (u : Nat) (keys : List β) : Nat := keys.countP (fun x => u ≤ home x)

end table

section laws

variable {β : Type u} {vacant : β → Prop} {home : β → Nat}
variable {cells keys : List β} {x y : β} {lo hi s : Nat}

theorem Full.set (h : Full vacant cells lo hi) (hx : ¬ vacant x) (s : Nat) :
    Full vacant (cells.set s x) lo hi := by
  intro t hlo hhi
  obtain ⟨z, hz, hfull⟩ := h t hlo hhi
  by_cases hst : s = t
  · subst hst
    exact ⟨x, List.getElem?_set_self (List.getElem?_eq_some_iff.mp hz).1, hx⟩
  · exact ⟨z, by rw [List.getElem?_set_ne hst, hz], hfull⟩

/-- The probe that starts at a cell stops at the first free cell, or at the end of the table. -/
theorem first_free (vacant : β → Prop) (cells : List β)
    (hlo : lo ≤ cells.length) :
    ∃ s, lo ≤ s ∧ s ≤ cells.length ∧ Full vacant cells lo s ∧
      (s < cells.length → ∃ y, cells[s]? = some y ∧ vacant y) := by
  induction hn : cells.length - lo generalizing lo with
  | zero =>
    refine ⟨lo, Nat.le_refl lo, hlo, ?_, ?_⟩
    · intro t h1 h2
      omega
    · intro hlt
      omega
  | succ n ih =>
    have hlt : lo < cells.length := by omega
    by_cases hfree : vacant cells[lo]
    · refine ⟨lo, Nat.le_refl lo, hlo, ?_, fun _ => ⟨_, List.getElem?_eq_getElem hlt, hfree⟩⟩
      intro t h1 h2
      omega
    · obtain ⟨s, hs, hle, hfull, hend⟩ := @ih (lo + 1) (by omega) (by omega)
      refine ⟨s, by omega, hle, ?_, hend⟩
      intro t h1 h2
      rcases Nat.eq_or_lt_of_le h1 with rfl | h1
      · exact ⟨_, List.getElem?_eq_getElem hlt, hfree⟩
      · exact hfull t h1 h2

theorem Full.start (h : Full vacant cells lo hi) (hlo : lo ≤ hi) (hhi : hi ≤ cells.length) :
    ∃ u ≤ lo, Full vacant cells u hi ∧ (u = 0 ∨ ∃ y, cells[u - 1]? = some y ∧ vacant y) := by
  induction lo with
  | zero => exact ⟨0, Nat.le_refl 0, h, .inl rfl⟩
  | succ lo ih =>
    have hlt : lo < cells.length := by omega
    by_cases hfree : vacant cells[lo]
    · exact ⟨lo + 1, Nat.le_refl _, h, .inr ⟨_, List.getElem?_eq_getElem hlt, hfree⟩⟩
    · obtain ⟨u, hu, hfull, hstart⟩ := ih (by
        intro t h1 h2
        rcases Nat.eq_or_lt_of_le h1 with rfl | h1
        · exact ⟨_, List.getElem?_eq_getElem hlt, hfree⟩
        · exact h t h1 h2) (by omega)
      exact ⟨u, by omega, hfull, hstart⟩

variable [DecidablePred vacant]

/-- A row of cells whose keys all pass a test has at most as many cells as keys that pass. -/
theorem row_le_countP (p : β → Bool) (lo : Nat) (hhi : hi ≤ cells.length)
    (h : ∀ t, lo ≤ t → t < hi → ∃ x, cells[t]? = some x ∧ ¬ vacant x ∧ p x = true) :
    hi - lo ≤ (stored vacant cells).countP p := by
  have hall : ∀ x ∈ (cells.take hi).drop lo, (p x && !decide (vacant x)) = true := by
    intro x hx
    obtain ⟨t, ht⟩ := List.mem_iff_getElem?.mp hx
    rw [List.getElem?_drop, List.getElem?_take] at ht
    split at ht
    · obtain ⟨z, hz, hfull, hp⟩ := h (lo + t) (by omega) (by omega)
      rw [hz, Option.some.injEq] at ht
      rw [← ht]
      simp [hp, hfull]
    · cases ht
  have hlen : ((cells.take hi).drop lo).length = hi - lo := by simp [hhi]
  have hsub : ((cells.take hi).drop lo).Sublist cells :=
    (List.drop_sublist _ _).trans (List.take_sublist _ _)
  unfold stored
  calc hi - lo = ((cells.take hi).drop lo).countP (fun x => p x && !decide (vacant x)) := by
        rw [List.countP_eq_length.mpr hall, hlen]
    _ ≤ cells.countP (fun x => p x && !decide (vacant x)) := hsub.countP_le
    _ = (cells.filter (fun x => ¬ vacant x)).countP p := by
        rw [List.countP_filter]
        simp

namespace Probed

theorem empty (h : ∀ y ∈ cells, vacant y) : Probed vacant home cells [] := by
  refine ⟨?_, ?_⟩
  · rw [List.perm_nil, stored, List.filter_eq_nil_iff]
    intro y hy
    simpa using h y hy
  · intro s x hs hx
    exact absurd (h x (List.mem_of_getElem? hs)) hx

theorem probe_le (h : Probed vacant home cells keys) (hfull : Full vacant cells lo s)
    (hs : s ≤ cells.length) : s - lo ≤ keys.length := by
  have hrow := row_le_countP (fun _ => true) lo hs (by
    intro t h1 h2
    obtain ⟨x, hx, hfull⟩ := hfull t h1 h2
    exact ⟨x, hx, hfull, rfl⟩)
  rw [h.holds.countP_eq] at hrow
  exact Nat.le_trans hrow List.countP_le_length

/-- A probe does not run off the table, if no end of the table is the home of more keys than it has
cells, the new key counted. -/
theorem probe_lt (h : Probed vacant home cells keys) (hfull : Full vacant cells (home x) s)
    (hs : home x ≤ s) (hle : s ≤ cells.length)
    (hfits : ∀ u ≤ home x, behind home u (keys ++ [x]) + u ≤ cells.length) :
    s < cells.length := by
  obtain ⟨u, hu, hrun, hstart⟩ := hfull.start hs hle
  have hrow := row_le_countP (fun y => u ≤ home y) u hle (by
    intro t h1 h2
    obtain ⟨y, hy, hkey⟩ := hrun t h1 h2
    refine ⟨y, hy, hkey, ?_⟩
    rw [decide_eq_true_eq]
    obtain ⟨-, hback⟩ := h.full t y hy hkey
    rcases hstart with rfl | ⟨z, hz, hfree⟩
    · exact Nat.zero_le _
    · -- The free cell before the row is not between a home and its key.
      by_contra hlt
      obtain ⟨z', hz', hkey'⟩ := hback (u - 1) (by omega) (by omega)
      rw [hz, Option.some.injEq] at hz'
      rw [← hz'] at hkey'
      exact hkey' hfree)
  rw [h.holds.countP_eq] at hrow
  have hbound := hfits u hu
  have hmore : behind home u (keys ++ [x]) = keys.countP (fun y => u ≤ home y) + 1 := by
    simp [behind, List.countP_append, hu]
  omega

/-- A new key goes into the first free cell. -/
theorem insert (h : Probed vacant home cells keys) (hx : ¬ vacant x) (hs : home x ≤ s)
    (hfull : Full vacant cells (home x) s) (hy : cells[s]? = some y) (hfree : vacant y) :
    Probed vacant home (cells.set s x) (keys ++ [x]) := by
  obtain ⟨hlt, hget⟩ := List.getElem?_eq_some_iff.mp hy
  refine ⟨?_, ?_⟩
  · have hcells : stored vacant cells =
        stored vacant (cells.take s) ++ stored vacant (cells.drop (s + 1)) := by
      conv_lhs => rw [← List.take_append_drop s cells, List.drop_eq_getElem_cons hlt, hget]
      simp [stored, hfree]
    have hset : stored vacant (cells.set s x) =
        stored vacant (cells.take s) ++ x :: stored vacant (cells.drop (s + 1)) := by
      rw [List.set_eq_take_append_cons_drop, if_pos hlt]
      simp [stored, hx]
    have hholds := h.holds
    rw [hcells] at hholds
    rw [hset]
    exact List.perm_middle.trans
      ((hholds.cons x).trans (List.perm_append_singleton x keys).symm)
  · intro t z hz hkey
    by_cases hst : s = t
    · subst hst
      rw [List.getElem?_set_self hlt, Option.some.injEq] at hz
      rw [← hz]
      exact ⟨hs, hfull.set hx s⟩
    · rw [List.getElem?_set_ne hst] at hz
      obtain ⟨hle, hback⟩ := h.full t z hz hkey
      exact ⟨hle, hback.set hx s⟩

theorem place (h : Probed vacant home cells keys) (hx : ¬ vacant x)
    (hfits : ∀ u ≤ home x, behind home u (keys ++ [x]) + u ≤ cells.length) :
    ∃ s y, home x ≤ s ∧ s < cells.length ∧ s - home x ≤ keys.length ∧
      Full vacant cells (home x) s ∧ cells[s]? = some y ∧ vacant y ∧
      Probed vacant home (cells.set s x) (keys ++ [x]) := by
  have hhome : home x ≤ cells.length := by
    have := hfits (home x) (Nat.le_refl _)
    omega
  obtain ⟨s, hs, hle, hfull, hend⟩ := first_free vacant cells hhome
  have hlt := h.probe_lt hfull hs hle hfits
  obtain ⟨y, hy, hfree⟩ := hend hlt
  exact ⟨s, y, hs, hlt, h.probe_le hfull hle, hfull, hy, hfree, h.insert hx hs hfull hy hfree⟩

/-- Keys that are in the table fit: no end of it is the home of more keys than it has cells. -/
theorem fits (h : Probed vacant home cells keys) {u : Nat} (hu : u ≤ cells.length) :
    behind home u keys + u ≤ cells.length := by
  unfold behind
  rw [← h.holds.countP_eq]
  -- A key with its home at `u` or behind it is not in a cell before `u`.
  have hbefore : (stored vacant (cells.take u)).countP (fun x => u ≤ home x) = 0 := by
    rw [List.countP_eq_zero]
    intro x hx hle
    obtain ⟨hmem, hkey⟩ := List.mem_filter.mp hx
    obtain ⟨s, hs⟩ := List.mem_iff_getElem?.mp hmem
    rw [List.getElem?_take] at hs
    split at hs
    · have hback := (h.full s x hs (by simpa using hkey)).1
      rw [decide_eq_true_eq] at hle
      omega
    · cases hs
  have hbehind : (stored vacant (cells.drop u)).countP (fun x => u ≤ home x) ≤
      cells.length - u := by
    rw [← List.length_drop]
    exact Nat.le_trans List.countP_le_length (List.length_filter_le _ _)
  have hsplit : stored vacant cells =
      stored vacant (cells.take u) ++ stored vacant (cells.drop u) := by
    rw [stored, stored, stored, ← List.filter_append, List.take_append_drop]
  rw [hsplit, List.countP_append]
  omega

end Probed

end laws

end hero.linear_probing
