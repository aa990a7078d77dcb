-- Chains of cells on a heap: cells are allocated, written and freed, and a chain leads from a
-- pointer through cells to the null pointer. A freed cell never comes back.
import Mathlib.Data.List.Nodup
import Mathlib.Logic.Function.Basic

namespace hero.heap_chains

universe u

/-- A heap: what the cells hold that are there. No cell from `fresh` on was allocated so far. -/
structure Heap (α : Type u) where
  cell : Nat → Option α
  fresh : Nat
  unallocated : ∀ p, fresh ≤ p → cell p = none

namespace Heap

variable {α : Type u} (h : Heap α)

def empty : Heap α := ⟨fun _ => none, 0, fun _ _ => rfl⟩

/-- A new cell, at the address `fresh`. -/
def alloc (a : α) : Heap α where
  cell := Function.update h.cell h.fresh (some a)
  fresh := h.fresh + 1
  unallocated := by
    intro p hp
    rw [Function.update_of_ne (by omega)]
    exact h.unallocated p (by omega)

/-- A cell that is there gets a new content. -/
def modify (p : Nat) (f : α → α) : Heap α where
  cell := Function.update h.cell p ((h.cell p).map f)
  fresh := h.fresh
  unallocated := by
    intro q hq
    by_cases hpq : q = p
    · rw [hpq, Function.update_self, ← hpq, h.unallocated q hq]
      rfl
    · rw [Function.update_of_ne hpq]
      exact h.unallocated q hq

def free (p : Nat) : Heap α where
  cell := Function.update h.cell p none
  fresh := h.fresh
  unallocated := by
    intro q hq
    by_cases hpq : q = p
    · rw [hpq, Function.update_self]
    · rw [Function.update_of_ne hpq]
      exact h.unallocated q hq

variable {h} {p q : Nat} {a : α} {f : α → α}

theorem lt_fresh (hp : h.cell p = some a) : p < h.fresh := by
  by_contra hle
  rw [h.unallocated p (by omega)] at hp
  cases hp

@[simp] theorem cell_alloc_self : (h.alloc a).cell h.fresh = some a := Function.update_self ..

theorem cell_alloc_ne (hp : p ≠ h.fresh) : (h.alloc a).cell p = h.cell p :=
  Function.update_of_ne hp ..

@[simp] theorem cell_modify_self : (h.modify p f).cell p = (h.cell p).map f :=
  Function.update_self ..

theorem cell_modify_ne (hq : q ≠ p) : (h.modify p f).cell q = h.cell q :=
  Function.update_of_ne hq ..

@[simp] theorem cell_free_self : (h.free p).cell p = none := Function.update_self ..

theorem cell_free_ne (hq : q ≠ p) : (h.free p).cell q = h.cell q := Function.update_of_ne hq ..

end Heap

/-! ## Segments -/

section segments

variable {α : Type u} (next : α → Option Nat)

/-- The cells from one pointer to another, with their addresses. -/
def Segment (h : Heap α) : Option Nat → List (Nat × α) → Option Nat → Prop
  | p, [], q => p = q
  | p, c :: rest, q => p = some c.1 ∧ h.cell c.1 = some c.2 ∧ Segment h (next c.2) rest q

/-- The cells from a pointer to the null pointer. -/
def Chain (h : Heap α) (p : Option Nat) (cells : List (Nat × α)) : Prop :=
  Segment next h p cells none

variable {next} {h h' : Heap α} {p q : Option Nat} {xs ys : List (Nat × α)} {c : Nat × α}

theorem segment_append :
    Segment next h p (xs ++ ys) q ↔ ∃ r, Segment next h p xs r ∧ Segment next h r ys q := by
  induction xs generalizing p with
  | nil => simp [Segment]
  | cons c rest ih => simp [Segment, ih, and_assoc]

theorem segment_snoc :
    Segment next h p (xs ++ [c]) q ↔
      Segment next h p xs (some c.1) ∧ h.cell c.1 = some c.2 ∧ next c.2 = q := by
  rw [segment_append]
  constructor
  · rintro ⟨r, hxs, rfl, hcell, hnext⟩
    exact ⟨hxs, hcell, hnext⟩
  · rintro ⟨hxs, hcell, hnext⟩
    exact ⟨_, hxs, rfl, hcell, hnext⟩

theorem Segment.cell_eq (hs : Segment next h p xs q) (hc : c ∈ xs) : h.cell c.1 = some c.2 := by
  induction xs generalizing p with
  | nil => cases hc
  | cons d rest ih =>
    obtain ⟨-, hcell, hrest⟩ := hs
    rcases List.mem_cons.mp hc with rfl | hc
    · exact hcell
    · exact ih hrest hc

/-- A segment stays when its cells stay. -/
theorem Segment.frame (hs : Segment next h p xs q) (hsame : ∀ c ∈ xs, h'.cell c.1 = h.cell c.1) :
    Segment next h' p xs q := by
  induction xs generalizing p with
  | nil => exact hs
  | cons c rest ih =>
    obtain ⟨hp, hcell, hrest⟩ := hs
    refine ⟨hp, ?_, ih hrest (fun d hd => hsame d (List.mem_cons_of_mem _ hd))⟩
    rw [hsame c List.mem_cons_self, hcell]

/-- A pointer has one chain at most. -/
theorem Chain.unique (hxs : Chain next h p xs) (hys : Chain next h p ys) : xs = ys := by
  induction xs generalizing p ys with
  | nil =>
    cases ys with
    | nil => rfl
    | cons d rest =>
      have hp : p = none := hxs
      rw [hp] at hys
      cases hys.1
  | cons c xs ih =>
    obtain ⟨hp, hcell, hrest⟩ := hxs
    cases ys with
    | nil =>
      have hp' : p = none := hys
      rw [hp'] at hp
      cases hp
    | cons d ys =>
      obtain ⟨hp', hcell', hrest'⟩ := hys
      obtain ⟨l, a⟩ := c
      obtain ⟨l', a'⟩ := d
      obtain rfl : l = l' := Option.some.inj (hp.symm.trans hp')
      obtain rfl : a = a' := Option.some.inj (hcell.symm.trans hcell')
      rw [ih hrest hrest']

/-- A chain comes to each of its cells once. -/
theorem Chain.nodup (hxs : Chain next h p xs) : (xs.map Prod.fst).Nodup := by
  induction xs generalizing p with
  | nil => exact List.nodup_nil
  | cons c rest ih =>
    obtain ⟨-, hcell, hrest⟩ := hxs
    refine List.nodup_cons.mpr ⟨fun hmem => ?_, ih hrest⟩
    -- From a second visit on the chain would be as long as from the first one.
    obtain ⟨d, hd, hsame⟩ := List.mem_map.mp hmem
    obtain ⟨us, vs, rfl⟩ := List.append_of_mem hd
    obtain ⟨r, -, rfl, hcell', hvs⟩ := segment_append.mp hrest
    have hdata : d.2 = c.2 := Option.some.inj (hcell'.symm.trans (hsame ▸ hcell))
    rw [hdata] at hvs
    have hchain : Chain next h (next c.2) (us ++ d :: vs) := hrest
    have hlength := congrArg List.length (hchain.unique hvs)
    simp only [List.length_append, List.length_cons] at hlength
    omega

theorem Chain.cell_eq (hxs : Chain next h p xs) (hc : c ∈ xs) : h.cell c.1 = some c.2 :=
  Segment.cell_eq hxs hc

theorem Chain.ne_fresh (hxs : Chain next h p xs) (hc : c ∈ xs) : c.1 ≠ h.fresh :=
  Nat.ne_of_lt (Heap.lt_fresh (hxs.cell_eq hc))

theorem Chain.frame (hxs : Chain next h p xs) (hsame : ∀ c ∈ xs, h'.cell c.1 = h.cell c.1) :
    Chain next h' p xs :=
  Segment.frame hxs hsame

end segments

end hero.heap_chains
