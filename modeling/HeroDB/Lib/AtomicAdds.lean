-- Atomic adds to the cells of a shared array: the adds commute, so what they leave depends on what
-- lands on each cell and not on the order.
import HeroDB.Lib.Loops
import Mathlib.Algebra.BigOperators.Group.List.Basic

namespace hero.atomic_adds

universe u v

section adds

variable {A : Type u} [AddCommMonoid A] {ι : Type v}

/-- An add to a cell. Past the end of the array it is undefined. -/
def atomic_add (cells : List A) (p : Nat) (a : A) : Option (List A) :=
  (cells[p]?).map (fun x => cells.set p (x + a))

/-- What the adds of a list bring to a cell. -/
def landed (slot : ι → Nat) (amount : ι → A) (adds : List ι) (p : Nat) : A :=
  ((adds.filter (fun i => slot i = p)).map amount).sum

variable {slot : ι → Nat} {amount : ι → A} {adds adds' : List ι} {cells : List A}

@[simp] theorem landed_nil (slot : ι → Nat) (amount : ι → A) (p : Nat) :
    landed slot amount [] p = 0 := rfl

theorem landed_cons (slot : ι → Nat) (amount : ι → A) (i : ι) (adds : List ι) (p : Nat) :
    landed slot amount (i :: adds) p =
      (if slot i = p then amount i else 0) + landed slot amount adds p := by
  unfold landed
  by_cases h : slot i = p
  · simp [h]
  · simp [h]

theorem landed_perm (slot : ι → Nat) (amount : ι → A) (h : adds.Perm adds') (p : Nat) :
    landed slot amount adds p = landed slot amount adds' p :=
  ((h.filter _).map amount).sum_eq

/-- Adds that all go to the first cell. -/
theorem landed_at_one_cell (amount : ι → A) (adds : List ι) :
    landed (fun _ => 0) amount adds 0 = (adds.map amount).sum := by
  unfold landed
  simp

/-- Adds that are all inside of the array go well, and each cell gets what lands on it. -/
theorem adds_eq (h : ∀ i ∈ adds, slot i < cells.length) :
    adds.foldlM (fun cells i => atomic_add cells (slot i) (amount i)) cells =
      some (cells.mapIdx (fun p x => x + landed slot amount adds p)) := by
  induction adds generalizing cells with
  | nil =>
    rw [List.foldlM_nil, Option.pure_def, Option.some.injEq]
    apply List.ext_getElem?
    intro p
    simp [List.getElem?_mapIdx]
  | cons i rest ih =>
    have hi : slot i < cells.length := h i List.mem_cons_self
    rw [List.foldlM_cons, atomic_add, List.getElem?_eq_getElem hi, Option.map_some]
    rw [Option.bind_eq_bind, Option.bind_some, ih (by
      intro j hj
      rw [List.length_set]
      exact h j (List.mem_cons_of_mem i hj))]
    congr 1
    apply List.ext_getElem?
    intro p
    rw [List.getElem?_mapIdx, List.getElem?_mapIdx]
    by_cases hp : slot i = p
    · rw [landed_cons, if_pos hp, ← hp, List.getElem?_set_self hi, List.getElem?_eq_getElem hi]
      simp [add_assoc]
    · rw [landed_cons, if_neg hp, List.getElem?_set_ne hp, zero_add]

/-- Adds in two orders leave the same array. -/
theorem adds_perm (h : adds.Perm adds') (hin : ∀ i ∈ adds', slot i < cells.length) :
    adds.foldlM (fun cells i => atomic_add cells (slot i) (amount i)) cells =
      some (cells.mapIdx (fun p x => x + landed slot amount adds' p)) := by
  rw [adds_eq (fun i hi => hin i (h.mem_iff.mp hi))]
  simp only [landed_perm slot amount h]

/-- A loop that sums up words. -/
theorem sum_loop {value : ι → Option A} (word : ι → A) (h : ∀ i ∈ adds, value i = some (word i))
    (agg : A) : adds.foldlM (fun agg i => (value i).map (fun x => agg + x)) agg =
      some (agg + (adds.map word).sum) := by
  induction adds generalizing agg with
  | nil => simp
  | cons i rest ih =>
    rw [List.foldlM_cons, h i List.mem_cons_self, Option.map_some, Option.bind_eq_bind,
      Option.bind_some, ih (fun j hj => h j (List.mem_cons_of_mem i hj)), List.map_cons,
      List.sum_cons, add_assoc]

end adds

end hero.atomic_adds
