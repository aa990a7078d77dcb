-- Dataflow: each vertex computes its value from the values of its inputs. An order that puts the inputs
-- of every vertex before it solves these equations, and there is only one solution.
import Mathlib.Data.List.Induction
import Mathlib.Logic.Function.Basic

namespace hero.dataflow

universe u v

/-- What each vertex reads, and what it computes from the values of all vertices. It looks at the
values of its inputs alone. -/
structure Network (V : Type u) (β : Type v) where
  inputs : V → List V
  compute : V → (V → β) → β
  reads : ∀ v f g, (∀ u ∈ inputs v, f u = g u) → compute v f = compute v g

variable {V : Type u} {β : Type v}

/-- Every vertex of the order comes once, and behind its inputs. -/
structure Ordered (N : Network V β) (order : List V) : Prop where
  nodup : order.Nodup
  behind : ∀ pre v post, order = pre ++ v :: post → ∀ u ∈ N.inputs v, u ∈ pre

/-- The values of these vertices are what they compute. -/
def Solves (N : Network V β) (order : List V) (value : V → β) : Prop :=
  ∀ v ∈ order, value v = N.compute v value

section order

variable {N : Network V β} {order : List V} {value value' : V → β}

/-- What holds of a vertex whenever it holds of its inputs holds of the whole order. -/
theorem Ordered.induction {P : V → Prop} (h : Ordered N order)
    (hstep : ∀ v ∈ order, (∀ u ∈ N.inputs v, P u) → P v) : ∀ v ∈ order, P v := by
  suffices hprefix : ∀ pre post, order = pre ++ post → ∀ v ∈ pre, P v from
    hprefix order [] (List.append_nil _).symm
  intro pre
  induction pre using List.reverseRecOn with
  | nil => exact fun _ _ _ hv => absurd hv List.not_mem_nil
  | append_singleton pre v ih =>
    intro post hsplit w hw
    have hsplit' : order = pre ++ v :: post := by simpa using hsplit
    have hbefore := ih (v :: post) hsplit'
    rcases List.mem_append.mp hw with hw | hw
    · exact hbefore w hw
    · rw [List.mem_singleton.mp hw]
      refine hstep v (by simp [hsplit']) (fun u hu => ?_)
      exact hbefore u (h.behind pre v post hsplit' u hu)

/-- The equations have one solution. -/
theorem Ordered.unique (h : Ordered N order) (hv : Solves N order value)
    (hv' : Solves N order value') : ∀ v ∈ order, value v = value' v := by
  refine h.induction fun v hmem hinputs => ?_
  rw [hv v hmem, hv' v hmem]
  exact N.reads v value value' hinputs

theorem Ordered.concat {pre : List V} {v : V} (h : Ordered N (pre ++ [v])) : Ordered N pre := by
  refine ⟨(List.nodup_append.mp h.nodup).1, fun p w q hsplit => h.behind p w (q ++ [v]) ?_⟩
  rw [hsplit, List.append_assoc, List.cons_append]

end order

/-! ## Evaluation -/

variable [DecidableEq V]

/-- The values after the vertices of an order have computed theirs, one after the other. -/
def evaluate (N : Network V β) (start : β) (order : List V) : V → β :=
  order.foldl (fun value v => Function.update value v (N.compute v value)) (fun _ => start)

section evaluate

variable {N : Network V β} {start : β} {order : List V} {v : V}

theorem evaluate_concat (pre : List V) :
    evaluate N start (pre ++ [v]) =
      Function.update (evaluate N start pre) v (N.compute v (evaluate N start pre)) := by
  rw [evaluate, List.foldl_append, List.foldl_cons, List.foldl_nil, ← evaluate]

/-- The evaluation solves the equations: a later vertex changes nothing that an earlier one read. -/
theorem Ordered.evaluate_solves (h : Ordered N order) : Solves N order (evaluate N start order) := by
  induction order using List.reverseRecOn with
  | nil => exact fun _ hv => absurd hv List.not_mem_nil
  | append_singleton pre v ih =>
    obtain ⟨-, -, hfresh⟩ := List.nodup_append.mp h.nodup
    have hnew : v ∉ pre := fun hmem => hfresh v hmem v (List.mem_singleton_self v) rfl
    have hkeeps : ∀ w ∈ pre, evaluate N start (pre ++ [v]) w = evaluate N start pre w := by
      intro w hw
      have hne : w ≠ v := fun heq => hnew (heq ▸ hw)
      rw [evaluate_concat, Function.update_of_ne hne]
    have hsame : ∀ w, (∀ u ∈ N.inputs w, u ∈ pre) →
        N.compute w (evaluate N start (pre ++ [v])) = N.compute w (evaluate N start pre) :=
      fun w hw => N.reads w _ _ (fun u hu => hkeeps u (hw u hu))
    intro w hw
    rcases List.mem_append.mp hw with hw | hw
    · obtain ⟨p, q, hsplit⟩ := List.append_of_mem hw
      rw [hkeeps w hw, hsame w, ih h.concat w hw]
      intro u hu
      have hu' := h.concat.behind p w q hsplit u hu
      rw [hsplit]
      exact List.mem_append_left _ hu'
    · rw [List.mem_singleton.mp hw, hsame v (h.behind pre v [] rfl), evaluate_concat,
        Function.update_self]

end evaluate

end hero.dataflow
