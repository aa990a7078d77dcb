-- Iterators over an ordered map: the loop from the first key to the end meets each key once, in
-- order, and an iterator can be advanced as long as its key is in the map.
import Mathlib.Data.List.AList
import Mathlib.Data.List.Induction
import Mathlib.Data.List.Sort

namespace hero.map_iterators

universe u v

variable {κ : Type u} {β : Type v} [LinearOrder κ]

/-! ## Positions -/

def keys_in_order (m : AList (fun _ : κ => β)) : List κ := m.keys.insertionSort (· ≤ ·)

/-- The iterator at the start of a map. `none` is the end. -/
def first (m : AList (fun _ : κ => β)) : Option κ := (keys_in_order m).head?

/-- The iterator behind the one at the key. -/
def next (m : AList (fun _ : κ => β)) (k : κ) : Option κ := (keys_in_order m).find? (k < ·)

/-- `++` on the iterator at the key; without an element it has no result. -/
def advance (m : AList (fun _ : κ => β)) (k : κ) : Option (Option κ) :=
  if k ∈ m then some (next m k) else none

section order

variable {m : AList (fun _ : κ => β)} {k : κ}

theorem mem_keys_in_order : k ∈ keys_in_order m ↔ k ∈ m := by
  unfold keys_in_order
  rw [List.mem_insertionSort, AList.mem_keys]

theorem keys_in_order_pairwise (m : AList (fun _ : κ => β)) :
    (keys_in_order m).Pairwise (· < ·) := by
  have hle : (keys_in_order m).Pairwise (· ≤ ·) := List.sortedLE_insertionSort.pairwise
  have hne : (keys_in_order m).Pairwise (· ≠ ·) := by
    unfold keys_in_order
    exact (List.perm_insertionSort _ _).nodup_iff.mpr m.keys_nodup
  exact (hle.and hne).imp fun ⟨hle, hne⟩ => lt_of_le_of_ne hle hne

theorem keys_in_order_perm (m : AList (fun _ : κ => β)) : (keys_in_order m).Perm m.keys :=
  List.perm_insertionSort _ _

theorem first_eq_none : first m = none ↔ m = ∅ := by
  unfold first
  rw [List.head?_eq_none_iff, ← List.length_eq_zero_iff, (keys_in_order_perm m).length_eq]
  constructor
  · intro h
    apply AList.ext
    exact List.map_eq_nil_iff.mp (List.length_eq_zero_iff.mp h)
  · rintro rfl
    rfl

theorem first_mem (h : first m = some k) : k ∈ m :=
  mem_keys_in_order.mp (List.mem_of_head? h)

theorem next_mem {j : κ} (h : next m k = some j) : j ∈ m :=
  mem_keys_in_order.mp (List.mem_of_find?_eq_some h)

/-- Behind a key comes the one that follows it in the order. -/
theorem next_of_split {pre rest : List κ} (h : keys_in_order m = pre ++ k :: rest) :
    next m k = rest.head? := by
  have hsorted := keys_in_order_pairwise m
  rw [h, List.pairwise_append, List.pairwise_cons] at hsorted
  obtain ⟨-, ⟨hrest, -⟩, hpre⟩ := hsorted
  have hnone : pre.find? (k < ·) = none := by
    rw [List.find?_eq_none]
    intro j hj
    simpa using le_of_lt (hpre j hj k List.mem_cons_self)
  unfold next
  rw [h, List.find?_append, hnone, Option.none_or, List.find?_cons_of_neg (by simp)]
  cases rest with
  | nil => rfl
  | cons j rest => exact List.find?_cons_of_pos (by simpa using hrest j List.mem_cons_self)

/-- The rule of a loop from the start: a property of the keys that it has met and of its position
holds at every position, up to the end, when it goes on from each key that is met. -/
theorem loop_rule {P : List κ → Option κ → Prop} {met rest : List κ}
    (hsplit : keys_in_order m = met ++ rest) (hfirst : P [] (first m))
    (hnext : ∀ pre, ∀ k ∈ met, k ∈ m → P pre (some k) → P (pre ++ [k]) (next m k)) :
    P met rest.head? := by
  induction met using List.reverseRecOn generalizing rest with
  | nil =>
    unfold first at hfirst
    rwa [hsplit, List.nil_append] at hfirst
  | append_singleton pre k ih =>
    rw [List.append_assoc, List.singleton_append] at hsplit
    have hmem : k ∈ m := by
      rw [← mem_keys_in_order, hsplit]
      exact List.mem_append_right _ List.mem_cons_self
    rw [← next_of_split hsplit]
    refine hnext pre k (List.mem_append_right _ List.mem_cons_self) hmem (ih hsplit ?_)
    exact fun pre' j hj => hnext pre' j (List.mem_append_left _ hj)

/-- The loop meets all keys before the end. -/
theorem loop_to_end {P : List κ → Option κ → Prop} (hfirst : P [] (first m))
    (hnext : ∀ pre, ∀ k ∈ m, P pre (some k) → P (pre ++ [k]) (next m k)) :
    P (keys_in_order m) none :=
  loop_rule (List.append_nil _).symm hfirst (fun pre k _ => hnext pre k)

/-- The loop reaches each key of the map, if it goes on from the smaller ones. -/
theorem loop_to_key {P : Option κ → Prop} (hk : k ∈ m) (hfirst : P (first m))
    (hnext : ∀ j ∈ m, j < k → P (some j) → P (next m j)) : P (some k) := by
  obtain ⟨pre, rest, hsplit⟩ := List.append_of_mem (mem_keys_in_order.mpr hk)
  have hsorted := keys_in_order_pairwise m
  rw [hsplit, List.pairwise_append] at hsorted
  have hrule := loop_rule (P := fun _ it => P it) hsplit hfirst
    (fun _ j hj hmem => hnext j hmem (hsorted.2.2 j hj k List.mem_cons_self))
  exact hrule

end order

/-! ## Entries -/

section entries

variable [DecidableEq κ] {m : AList (fun _ : κ => β)} {k : κ} {b : β}

/-- What a loop over the map meets. -/
def in_order (m : AList (fun _ : κ => β)) : List (κ × β) :=
  (keys_in_order m).filterMap (fun k => (m.lookup k).map (fun b => (k, b)))

theorem mem_in_order : (k, b) ∈ in_order m ↔ m.lookup k = some b := by
  unfold in_order
  rw [List.mem_filterMap]
  constructor
  · rintro ⟨j, -, hj⟩
    obtain ⟨c, hc, heq⟩ := Option.map_eq_some_iff.mp hj
    obtain ⟨rfl, rfl⟩ := Prod.mk.inj heq
    exact hc
  · intro h
    refine ⟨k, mem_keys_in_order.mpr ?_, by rw [h]; rfl⟩
    rw [← AList.lookup_isSome, h]
    rfl

/-- The values that a loop over the map meets are those of its entries. -/
theorem values_in_order_perm (m : AList (fun _ : κ => β)) :
    ((keys_in_order m).filterMap m.lookup).Perm (m.entries.map (·.2)) := by
  have hvalues : m.keys.filterMap m.lookup = m.entries.map (·.2) := by
    unfold AList.keys List.keys
    rw [List.filterMap_map, ← List.filterMap_eq_map]
    refine List.filterMap_congr fun e he => ?_
    exact AList.mem_lookup_iff.mpr he
  rw [← hvalues]
  exact (keys_in_order_perm m).filterMap _

end entries

end hero.map_iterators
