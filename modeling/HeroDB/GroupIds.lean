-- The group ids of `query_1`: the loop that scatters the sorted rows pushes one entry for each key
-- column that it looks at, not one for each row.
import HeroDB.DataInterface
import Mathlib.Data.List.Chain

namespace hero.tests

/-! ## The scatter loop -/

/-- A row of `sort_by_value`: the two key columns `l_returnflag` and `l_linestatus`, and the four
columns that go along. -/
structure sort_row where
  first : List Word
  second : List Word
  two_keys : first.length = 2
  four_columns : second.length = 4

/-- The loop over the key columns of two neighbours. It pushes from both branches, and breaks from
one. -/
def scatter_columns : List Word → List Word → List Word → List Word
  | a :: first_val, b :: second_val, ag_key =>
    if a ≠ b then ag_key ++ [ag_key.getLastD 0 + 1]
    else scatter_columns first_val second_val (ag_key ++ [ag_key.getLastD 0])
  | _, _, ag_key => ag_key

structure scatter_state where
  first_val : List Word
  ag_key : List Word
  q : List Word

def scatter_turn (s : scatter_state) (r : sort_row) : scatter_state :=
  { first_val := r.first
    ag_key := scatter_columns s.first_val r.first s.ag_key
    q := s.q ++ [r.second.getD 1 0] }

def scatter (r : sort_row) (rest : List sort_row) : scatter_state :=
  rest.foldl scatter_turn { first_val := r.first, ag_key := [0], q := [r.second.getD 1 0] }

/-! ## The law -/

/-- The ids number the groups: one for each row, from 0 on, and a new one where a key changes. -/
structure NumbersTheGroups (rows : List sort_row) (ag_key : List Word) : Prop where
  one_each : ag_key.length = rows.length
  from_zero : ag_key[0]? = some 0
  next : ∀ i a b, rows[i]? = some a → rows[i + 1]? = some b → ∃ k, ag_key[i]? = some k ∧
    ag_key[i + 1]? = some (if a.first = b.first then k else k + 1)

def FlagsChange (first_val : List Word) (rest : List sort_row) : Prop :=
  (first_val :: rest.map sort_row.first).IsChain (fun a b => a.head? ≠ b.head?)

section scatter

variable {first_val ag_key : List Word} {r : sort_row} {rest : List sort_row} {s : scatter_state}

/-- Two rows with different return flags give one entry, and two with the same flag give two. -/
theorem scatter_columns_eq (hfirst : first_val.length = 2) (r : sort_row) (ag_key : List Word) :
    (first_val.head? ≠ r.first.head? →
      scatter_columns first_val r.first ag_key = ag_key ++ [ag_key.getLastD 0 + 1]) ∧
    (first_val.head? = r.first.head? →
      (scatter_columns first_val r.first ag_key).length = ag_key.length + 2) := by
  obtain ⟨a, a', rfl⟩ := List.length_eq_two.mp hfirst
  obtain ⟨b, b', hr⟩ := List.length_eq_two.mp r.two_keys
  rw [hr]
  constructor
  · intro hne
    have hab : a ≠ b := fun h => hne (by rw [h, List.head?_cons, List.head?_cons])
    rw [scatter_columns, if_pos hab]
  · intro heq
    have hab : ¬ a ≠ b := by simpa using heq
    rw [scatter_columns, if_neg hab, scatter_columns]
    split
    · simp
    · rw [scatter_columns]
      · simp
      · simp

/-- The loop pushes at least one entry for each row, and just one when the flags change. -/
theorem scatter_length (hfirst : s.first_val.length = 2) :
    s.ag_key.length + rest.length ≤ (rest.foldl scatter_turn s).ag_key.length ∧
      ((rest.foldl scatter_turn s).ag_key.length = s.ag_key.length + rest.length →
        FlagsChange s.first_val rest) := by
  induction rest generalizing s with
  | nil => exact ⟨Nat.le_refl _, fun _ => List.isChain_singleton _⟩
  | cons r rest ih =>
    obtain ⟨hle, hchain⟩ := @ih (scatter_turn s r) r.two_keys
    obtain ⟨hne, heq⟩ := scatter_columns_eq hfirst r s.ag_key
    rw [List.foldl_cons, List.length_cons]
    have hkeys : (scatter_turn s r).ag_key = scatter_columns s.first_val r.first s.ag_key := rfl
    rw [hkeys] at hle hchain
    by_cases hsame : s.first_val.head? = r.first.head?
    · rw [heq hsame] at hle
      exact ⟨by omega, fun h => by omega⟩
    · rw [hne hsame, List.length_append, List.length_singleton] at hle hchain
      refine ⟨by omega, fun h => ?_⟩
      exact List.isChain_cons_cons.mpr ⟨hsame, hchain (by omega)⟩

/-- When the flags change, each row gets the id behind that of the row before. -/
theorem scatter_counts (hfirst : s.first_val.length = 2) (h : FlagsChange s.first_val rest) :
    (rest.foldl scatter_turn s).ag_key =
      s.ag_key ++ (List.range rest.length).map (fun i =>
        s.ag_key.getLastD 0 + BitVec.ofNat 32 (i + 1)) := by
  induction rest generalizing s with
  | nil => simp
  | cons r rest ih =>
    obtain ⟨hsame, hrest⟩ := List.isChain_cons_cons.mp h
    rw [List.foldl_cons, @ih (scatter_turn s r) r.two_keys hrest]
    have hkeys : (scatter_turn s r).ag_key = s.ag_key ++ [s.ag_key.getLastD 0 + 1] :=
      (scatter_columns_eq hfirst r s.ag_key).1 hsame
    rw [hkeys, List.length_cons, List.range_succ_eq_map, List.map_cons, List.map_map,
      List.append_assoc, List.singleton_append]
    congr 2
    refine List.map_congr_left fun i _ => ?_
    have hlast : (s.ag_key ++ [s.ag_key.getLastD 0 + 1]).getLastD 0 = s.ag_key.getLastD 0 + 1 := by
      simp
    have hnext : BitVec.ofNat 32 (i.succ + 1) = 1 + BitVec.ofNat 32 (i + 1) := by
      rw [Nat.succ_eq_add_one, Nat.add_comm (i + 1) 1, BitVec.ofNat_add]
      rfl
    rw [Function.comp_apply, hlast, hnext, BitVec.add_assoc]

theorem scatter_eq (h : FlagsChange r.first rest) :
    (scatter r rest).ag_key = (List.range (rest.length + 1)).map (BitVec.ofNat 32) := by
  rw [scatter, scatter_counts r.two_keys h, List.range_succ_eq_map, List.map_cons, List.map_map]
  simp [Function.comp_def]

theorem flags_differ (h : FlagsChange r.first rest) {i : Nat} {a b : sort_row}
    (ha : (r :: rest)[i]? = some a) (hb : (r :: rest)[i + 1]? = some b) : a.first ≠ b.first := by
  obtain ⟨hlt, rfl⟩ := List.getElem?_eq_some_iff.mp ha
  obtain ⟨hlt', rfl⟩ := List.getElem?_eq_some_iff.mp hb
  have hfirsts : ((r :: rest).map sort_row.first).IsChain (fun a b => a.head? ≠ b.head?) := h
  have hchain := (List.isChain_map sort_row.first).mp hfirsts
  intro heq
  exact List.isChain_iff_getElem.mp hchain i hlt' (congrArg List.head? heq)

/-- The loop numbers the groups if and only if the return flag changes from each row to the next:
two rows with the same flag give two entries. -/
theorem the_scatter_loop_numbers_the_groups_iff (r : sort_row) (rest : List sort_row) :
    NumbersTheGroups (r :: rest) (scatter r rest).ag_key ↔ FlagsChange r.first rest := by
  constructor
  · intro h
    have hlength := h.one_each
    rw [List.length_cons, Nat.add_comm] at hlength
    exact (@scatter_length rest ⟨r.first, [0], [r.second.getD 1 0]⟩ r.two_keys).2 hlength
  · intro h
    have hkeys := scatter_eq h
    refine ⟨?_, ?_, ?_⟩
    · rw [hkeys, List.length_map, List.length_range, List.length_cons]
    · rw [hkeys, List.range_succ_eq_map, List.map_cons, List.getElem?_cons_zero]
      rfl
    · intro i a b ha hb
      have hlt := (List.getElem?_eq_some_iff.mp hb).1
      rw [List.length_cons] at hlt
      refine ⟨BitVec.ofNat 32 i, ?_, ?_⟩
      · rw [hkeys, List.getElem?_map, List.getElem?_range (by omega), Option.map_some]
      · rw [hkeys, List.getElem?_map, List.getElem?_range hlt, Option.map_some,
          if_neg (flags_differ h ha hb), BitVec.ofNat_add]
        rfl

end scatter

/-- Two rows of one group: three entries, although the rows are sorted. -/
theorem two_rows_of_one_group_get_three_ids :
    ¬ NumbersTheGroups
      [⟨[65, 70], [0, 17, 0, 0], rfl, rfl⟩, ⟨[65, 70], [0, 36, 0, 0], rfl, rfl⟩]
      (scatter ⟨[65, 70], [0, 17, 0, 0], rfl, rfl⟩ [⟨[65, 70], [0, 36, 0, 0], rfl, rfl⟩]).ag_key := by
  intro h
  exact absurd h.one_each (by decide)

end hero.tests
