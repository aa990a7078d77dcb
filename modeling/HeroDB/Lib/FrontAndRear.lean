-- Two workers share a range of items. The owner takes them from the front, one after the other, and
-- a helper from the rear. No lock guards the middle: the helper reads the front counter, tests it
-- against the rear and lowers the rear in three steps.
import Mathlib.Logic.Basic

namespace hero.front_and_rear

/-! ## The steps -/

/-- Where the helper is: it has read the front counter, it is about to lower the rear, or it has
lowered the rear and works on that item. -/
inductive Helper
  | idle
  | saw (front : Nat)
  | claims
  | holds
  | stopped

/-- The owner has taken the items below `front` and worked off those below `done`; `claimed` says
that it is about to take the item at the front. The helper has handed over the items from
`handed` on. -/
structure Meeting where
  front : Nat
  claimed : Bool
  done : Nat
  rear : Nat
  handed : Nat
  helper : Helper

/-- Nothing is taken of `k` items. -/
def Meeting.start (k : Nat) : Meeting where
  front := 0
  claimed := false
  done := 0
  rear := k
  handed := k
  helper := .idle

/-- A step of the owner or of the helper. -/
inductive Step (a : Meeting) : Meeting → Prop
  | claim : a.claimed = false → a.front < a.rear → Step a { a with claimed := true }
  | advance : a.claimed = true → Step a { a with front := a.front + 1, claimed := false }
  | work : a.done < a.front → Step a { a with done := a.done + 1 }
  | look : a.helper = .idle → Step a { a with helper := .saw a.front }
  | decide (front : Nat) : a.helper = .saw front → front + 1 < a.rear →
      Step a { a with helper := .claims }
  | stop (front : Nat) : a.helper = .saw front → a.rear ≤ front + 1 →
      Step a { a with helper := .stopped }
  | take : a.helper = .claims → Step a { a with rear := a.rear - 1, helper := .holds }
  | hand_over : a.helper = .holds → Step a { a with handed := a.rear, helper := .idle }

/-! ## Where the two can meet -/

/-- While the helper is about to lower the rear, the owner has not passed it. -/
def Meeting.Apart (a : Meeting) : Prop :=
  2 ≤ a.rear ∧ a.front ≤ a.rear ∧ (a.claimed = true → a.front < a.rear)

/-- The owner passes the rear by one item at most, and the helper leaves the first item alone. -/
structure Ok (k : Nat) (a : Meeting) : Prop where
  rear_pos : 1 ≤ a.rear
  rear_le : a.rear ≤ a.handed
  handed_le : a.handed ≤ k
  front_le : a.front ≤ k
  done_le : a.done ≤ a.front
  passed : a.front ≤ a.rear + 1
  claimed : a.claimed = true → a.front ≤ a.rear ∧ a.front < k
  saw : ∀ front, a.helper = .saw front → front + 1 < a.rear → a.Apart
  claims : a.helper = .claims → a.Apart
  held : a.helper = .holds → a.handed = a.rear + 1
  free : a.helper ≠ .holds → a.handed = a.rear

theorem ok_start {k : Nat} (h : 1 ≤ k) : Ok k (.start k) where
  rear_pos := h
  rear_le := Nat.le_refl k
  handed_le := Nat.le_refl k
  front_le := Nat.zero_le k
  done_le := Nat.le_refl 0
  passed := Nat.zero_le (k + 1)
  claimed := fun hc => by cases hc
  saw := fun _ hs => by cases hs
  claims := fun hc => by cases hc
  held := fun hh => by cases hh
  free := fun _ => rfl

theorem Ok.claim {k : Nat} {a : Meeting} (h : Ok k a) (hlt : a.front < a.rear) :
    Ok k { a with claimed := true } :=
  { h with
    claimed := fun _ => ⟨Nat.le_of_lt hlt, Nat.lt_of_lt_of_le hlt (Nat.le_trans h.rear_le h.handed_le)⟩
    saw := fun f hs hf => ⟨(h.saw f hs hf).1, Nat.le_of_lt hlt, fun _ => hlt⟩
    claims := fun hc => ⟨(h.claims hc).1, Nat.le_of_lt hlt, fun _ => hlt⟩ }

/-- The owner takes an item only when it was in front of the rear, so that it is still apart from a
helper that is about to lower the rear. -/
theorem Ok.advance {k : Nat} {a : Meeting} (h : Ok k a) (hc : a.claimed = true) :
    Ok k { a with front := a.front + 1, claimed := false } :=
  { h with
    front_le := (h.claimed hc).2
    done_le := Nat.le_succ_of_le h.done_le
    passed := Nat.succ_le_succ (h.claimed hc).1
    claimed := fun hf => by cases hf
    saw := fun f hs hf => ⟨(h.saw f hs hf).1, (h.saw f hs hf).2.2 hc, fun hf => by cases hf⟩
    claims := fun hcl => ⟨(h.claims hcl).1, (h.claims hcl).2.2 hc, fun hf => by cases hf⟩ }

/-- What the helper reads is the front of that moment, so a test that will succeed finds the owner
apart from the rear. -/
theorem Ok.look {k : Nat} {a : Meeting} (h : Ok k a) (hidle : a.helper = .idle) :
    Ok k { a with helper := .saw a.front } :=
  { h with
    saw := fun f hs hf => by
      cases hs
      have hf' : a.front + 1 < a.rear := hf
      exact ⟨Nat.lt_of_le_of_lt (Nat.succ_le_succ (Nat.zero_le a.front)) hf',
        Nat.le_of_lt (Nat.lt_of_succ_lt hf'), fun _ => Nat.lt_of_succ_lt hf'⟩
    claims := fun hc => by cases hc
    held := fun hh => by cases hh
    free := fun _ => h.free (by simp [hidle]) }

theorem Ok.decide {k : Nat} {a : Meeting} (h : Ok k a) {front : Nat} (hs : a.helper = .saw front)
    (hlt : front + 1 < a.rear) : Ok k { a with helper := .claims } :=
  { h with
    saw := fun _ hs' => by cases hs'
    claims := fun _ => h.saw front hs hlt
    held := fun hh => by cases hh
    free := fun _ => h.free (by simp [hs]) }

theorem Ok.stop {k : Nat} {a : Meeting} (h : Ok k a) {front : Nat} (hs : a.helper = .saw front) :
    Ok k { a with helper := .stopped } :=
  { h with
    saw := fun _ hs' => by cases hs'
    claims := fun hc => by cases hc
    held := fun hh => by cases hh
    free := fun _ => h.free (by simp [hs]) }

/-- The owner may have taken the item at the rear when the helper lowers the rear to it: this is
the one item that both can work off. -/
theorem Ok.take {k : Nat} {a : Meeting} (h : Ok k a) (hc : a.helper = .claims) :
    Ok k { a with rear := a.rear - 1, helper := .holds } := by
  obtain ⟨htwo, hle, hlt⟩ := h.claims hc
  have hsame : a.handed = a.rear := h.free (by simp [hc])
  have hone : a.rear - 1 + 1 = a.rear := Nat.sub_add_cancel h.rear_pos
  exact { h with
    rear_pos := Nat.le_sub_one_of_lt htwo
    rear_le := Nat.le_trans (Nat.sub_le _ _) h.rear_le
    passed := by rw [hone]; exact hle
    claimed := fun hcl => ⟨Nat.le_sub_one_of_lt (hlt hcl), (h.claimed hcl).2⟩
    saw := fun _ hs => by cases hs
    claims := fun hc' => by cases hc'
    held := fun _ => by rw [hone]; exact hsame
    free := fun hne => absurd rfl hne }

theorem Ok.hand_over {k : Nat} {a : Meeting} (h : Ok k a) :
    Ok k { a with handed := a.rear, helper := .idle } :=
  { h with
    rear_le := Nat.le_refl _
    handed_le := Nat.le_trans h.rear_le h.handed_le
    saw := fun _ hs => by cases hs
    claims := fun hc => by cases hc
    held := fun hh => by cases hh
    free := fun _ => rfl }

/-- No step of the owner or of the helper breaks the bounds. -/
theorem Ok.step {k : Nat} {a b : Meeting} (h : Ok k a) (hstep : Step a b) : Ok k b := by
  cases hstep with
  | claim _ hlt => exact h.claim hlt
  | advance hc => exact h.advance hc
  | work hlt => exact { h with done_le := hlt }
  | look hidle => exact h.look hidle
  | decide f hs hlt => exact h.decide hs hlt
  | stop f hs _ => exact h.stop hs
  | take hc => exact h.take hc
  | hand_over _ => exact h.hand_over

/-! ## What the two have done together -/

/-- Once the owner has worked up to what the helper handed over, every item was worked off. -/
theorem covered {a : Meeting} (hmet : a.handed ≤ a.done) (i : Nat) :
    i < a.done ∨ a.handed ≤ i := by
  omega

/-- Only the item at the rear can be worked off by both. -/
theorem Ok.both {k : Nat} {a : Meeting} (h : Ok k a) (hfree : a.helper ≠ .holds) {i : Nat}
    (howner : i < a.done) (hhelper : a.handed ≤ i) : i = a.rear := by
  have hsame := h.free hfree
  have hdone := h.done_le
  have hpassed := h.passed
  omega

end hero.front_and_rear
