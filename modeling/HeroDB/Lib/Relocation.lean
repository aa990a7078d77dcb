-- Relocation: a store holds each item at one place. A trip takes an item from its home to a goal
-- and leaves nothing behind, so only the last trip of an item may go away from its home.
import Mathlib.Data.List.Basic

namespace hero.relocation

universe u

/-- What a trip is: the item it takes, whether it leaves the home of the item, where it goes, and
what arrives there. -/
structure Trips (α δ β ε : Type u) where
  item : ε → α
  away : ε → Prop
  goal : ε → δ
  cargo : ε → β → β

variable {α δ β ε : Type u} [DecidableEq δ]

/-- Where everything is after some trips. An item that was never stored has the entries of `old`,
an item that took no trip away is at its home, and an item that took one is at the goal. -/
structure Kept (T : Trips α δ β ε) (old : α → δ → Option β) (Stored : α → δ → β → Prop)
    (es : List ε) (s : α → δ → Option β) : Prop where
  strange : ∀ a d, (∀ h w, ¬ Stored a h w) → s a d = old a d
  home : ∀ a h w, Stored a h w → (∀ e ∈ es, T.away e → T.item e ≠ a) →
    ∀ d, s a d = if d = h then some w else none
  moved : ∀ a h w e, Stored a h w → e ∈ es → T.away e → T.item e = a →
    ∀ d, s a d = if d = T.goal e then some (T.cargo e w) else none

namespace Kept

variable {T : Trips α δ β ε} {old s s' : α → δ → Option β} {Stored Stored' : α → δ → β → Prop}
variable {es : List ε} {e : ε} {a : α} {src : δ} {w : β}

theorem start (hnone : ∀ a h w, ¬ Stored a h w) (hs : ∀ a d, s a d = old a d) :
    Kept T old Stored [] s where
  strange := fun a d _ => hs a d
  home := fun a h w hw => absurd hw (hnone a h w)
  moved := fun a h w _ hw => absurd hw (hnone a h w)

/-- A trip that stays at home changes nothing. -/
theorem stay (h : Kept T old Stored es s) (he : ¬ T.away e) : Kept T old Stored (es ++ [e]) s := by
  refine ⟨h.strange, ?_, ?_⟩
  · intro a src w hw hfree
    apply h.home a src w hw
    exact fun e' he' => hfree e' (List.mem_append_left _ he')
  · intro a src w e' hw he' haway
    apply h.moved a src w e' hw ?_ haway
    rcases List.mem_append.mp he' with hmem | hmem
    · exact hmem
    · rw [List.mem_singleton] at hmem
      subst hmem
      exact absurd haway he

/-- The first trip of an item away from its home. -/
theorem move (h : Kept T old Stored es s) (haway : T.away e) (hw : Stored (T.item e) src w)
    (hone : ∀ src' w', Stored (T.item e) src' w' → w' = w)
    (hfirst : ∀ e' ∈ es, T.away e' → T.item e' ≠ T.item e) (hgoal : T.goal e ≠ src)
    (hat : s' (T.item e) (T.goal e) = some (T.cargo e w)) (hleft : s' (T.item e) src = none)
    (hframe : ∀ a d, (a, d) ≠ (T.item e, src) → (a, d) ≠ (T.item e, T.goal e) → s' a d = s a d) :
    Kept T old Stored (es ++ [e]) s' := by
  have hother : ∀ a d, a ≠ T.item e → s' a d = s a d := by
    intro a d ha
    apply hframe
    · exact fun heq => ha (Prod.mk.inj heq).1
    · exact fun heq => ha (Prod.mk.inj heq).1
  refine ⟨?_, ?_, ?_⟩
  · intro a d hnone
    have ha : a ≠ T.item e := by
      rintro rfl
      exact hnone src w hw
    rw [hother a d ha]
    exact h.strange a d hnone
  · intro a src' w' hw' hfree d
    have hmem : ∀ e' ∈ es, T.away e' → T.item e' ≠ a :=
      fun e' he' => hfree e' (List.mem_append_left _ he')
    by_cases ha : a = T.item e
    · exact absurd ha.symm (hfree e (by simp) haway)
    · rw [hother a d ha]
      exact h.home a src' w' hw' hmem d
  · intro a src' w' e' hw' he' haway' ha d
    subst ha
    rcases List.mem_append.mp he' with hmem | hmem
    · rw [hother _ d (hfirst e' hmem haway')]
      exact h.moved _ src' w' e' hw' hmem haway' rfl d
    · rw [List.mem_singleton] at hmem
      subst hmem
      rw [hone src' w' hw']
      by_cases hd : d = T.goal e'
      · rw [hd, hat, if_pos rfl]
      · rw [if_neg hd]
        by_cases hsrc : d = src
        · rw [hsrc]
          exact hleft
        · rw [hframe _ d (by simpa using hsrc) (by simpa using hd), h.home _ src w hw hfirst d,
            if_neg hsrc]

theorem store {New : α → δ → β → Prop} (h : Kept T old Stored es s)
    (hnew : ∀ a h w, Stored' a h w ↔ Stored a h w ∨ New a h w)
    (hfresh : ∀ a h w h' w', New a h w → ¬ Stored a h' w')
    (hes : ∀ a h w, New a h w → ∀ e ∈ es, T.away e → T.item e ≠ a)
    (hat : ∀ a h w, New a h w → ∀ d, s' a d = if d = h then some w else none)
    (hframe : ∀ a d, (∀ h w, ¬ New a h w) → s' a d = s a d) : Kept T old Stored' es s' := by
  have hother : ∀ a h w, Stored a h w → ∀ d, s' a d = s a d := by
    intro a h w hw d
    apply hframe
    exact fun h' w' hw' => hfresh a h' w' h w hw' hw
  refine ⟨?_, ?_, ?_⟩
  · intro a d hnone
    rw [hframe a d (fun src w hw => hnone src w ((hnew _ _ _).mpr (.inr hw)))]
    exact h.strange a d (fun src w hw => hnone src w ((hnew _ _ _).mpr (.inl hw)))
  · intro a src w hw hfree d
    rcases (hnew _ _ _).mp hw with hw | hw
    · rw [hother a src w hw]
      exact h.home a src w hw hfree d
    · exact hat a src w hw d
  · intro a src w e hw he haway ha d
    rcases (hnew _ _ _).mp hw with hw | hw
    · rw [hother a src w hw]
      exact h.moved a src w e hw he haway ha d
    · exact absurd ha (hes a src w hw e he haway)

/-- After a trip away from its home, an item is not at its home. -/
theorem lost (h : Kept T old Stored es s) (hw : Stored a src w) (he : e ∈ es) (haway : T.away e)
    (ha : T.item e = a) (hgoal : T.goal e ≠ src) : s a src = none := by
  rw [h.moved a src w e hw he haway ha, if_neg (Ne.symm hgoal)]

end Kept

end hero.relocation
