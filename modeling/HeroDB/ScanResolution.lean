-- The laws of `load_data`: which alias each out-edge of the scan carries after it. Scan keys
-- and aliases share one field of the edge, so a fresh alias can be taken for a later key.
import HeroDB.GraphSteps
import Mathlib.Data.List.Basic

namespace hero.runtime_layer

/-! ## The aliases of the columns -/

/-- The alias of column `j` when `load_data` starts with this counter. -/
def column_alias (counter j : Nat) : Int := int_of_size (next_counter^[j + 1] counter)

theorem next_counter_iterate (counter n : Nat) :
    next_counter^[n + 1] counter = (counter + (n + 1)) % 2 ^ 64 := by
  induction n with
  | zero => simp [next_counter]
  | succ n ih =>
    rw [Function.iterate_succ_apply', ih, next_counter]
    omega

theorem column_alias_eq (counter j : Nat) :
    column_alias counter j = Int.bmod (counter + (j + 1)) (2 ^ 32) := by
  unfold column_alias int_of_size
  simp only [next_counter_iterate, Int.bmod_def]
  omega

theorem column_alias_small {counter j : Nat} (h : counter + j + 1 < 2 ^ 31) :
    column_alias counter j = (counter + j + 1 : Nat) := by
  rw [column_alias_eq, Int.bmod_def]
  split <;> omega

theorem column_alias_zero (counter : Nat) :
    column_alias counter 0 = int_of_size (next_counter counter) := by simp [column_alias]

theorem column_alias_succ (counter j : Nat) :
    column_alias (next_counter counter) j = column_alias counter (j + 1) := by
  rw [column_alias, column_alias, ← Function.iterate_succ_apply]

theorem column_alias_shift (counter i n : Nat) :
    column_alias (next_counter^[n] counter) i = column_alias counter (i + n) := by
  induction n generalizing counter with
  | zero => simp
  | succ n ih =>
    rw [Function.iterate_succ_apply, ih, column_alias_succ]
    simp only [Nat.add_assoc]

/-- Two columns of one map never get one alias. -/
theorem column_alias_inj {counter i j : Nat} (h : i < j) (hj : j < 2 ^ 32) :
    column_alias counter i ≠ column_alias counter j := by
  rw [column_alias_eq, column_alias_eq]
  intro he
  simp only [Int.bmod_def] at he
  omega

/-- A strictly sorted list of integers fits its range. -/
theorem length_le_of_sorted {lo hi : Int} (l : List (Int × List Word))
    (hs : l.Pairwise (fun a b => a.1 < b.1)) (hr : ∀ c ∈ l, lo ≤ c.1 ∧ c.1 < hi)
    (hlo : lo ≤ hi) : (l.length : Int) ≤ hi - lo := by
  induction l generalizing lo with
  | nil => simp; omega
  | cons c rest ih =>
    rw [List.pairwise_cons] at hs
    have hc := hr c List.mem_cons_self
    have htail : ∀ x ∈ rest, c.1 + 1 ≤ x.1 ∧ x.1 < hi := by
      intro x hx
      have := hs.1 x hx
      exact ⟨by omega, (hr x (List.mem_cons_of_mem _ hx)).2⟩
    have hrest := ih hs.2 htail (by omega)
    simp only [List.length_cons]
    omega

theorem ScanMap.length_le (data_scan : ScanMap) : data_scan.entries.length ≤ 2 ^ 32 := by
  have h := length_le_of_sorted data_scan.entries data_scan.sorted data_scan.int_keys (by omega)
  omega

/-- A key names one column. -/
theorem ScanMap.key_inj (data_scan : ScanMap) {i j : Nat} {c d : Int × List Word}
    (hi : data_scan.entries[i]? = some c) (hj : data_scan.entries[j]? = some d)
    (h : c.1 = d.1) : i = j := by
  obtain ⟨hi', rfl⟩ := List.getElem?_eq_some_iff.mp hi
  obtain ⟨hj', rfl⟩ := List.getElem?_eq_some_iff.mp hj
  have hs := List.pairwise_iff_getElem.mp data_scan.sorted
  rcases Nat.lt_trichotomy i j with hlt | heq | hgt
  · have := hs i j hi' hj' hlt; omega
  · exact heq
  · have := hs j i hj' hi' hgt; omega

/-! ## One edge through the loop -/

theorem resolved_of_not_key (counter : Nat) (cs : List (Int × List Word)) (d : data_edge)
    (h : ∀ c ∈ cs, c.1 ≠ d.data_pointer) : resolved counter cs d = d := by
  induction cs generalizing counter with
  | nil => rfl
  | cons c rest ih =>
    have hc : d.data_pointer ≠ c.1 := fun he => h c List.mem_cons_self he.symm
    rw [resolved, resolve_edge, if_neg hc]
    exact ih _ (fun x hx => h x (List.mem_cons_of_mem _ hx))

/-- An edge that carries a key leaves the loop with the alias and the size of some column. -/
theorem resolved_of_key (counter : Nat) (cs : List (Int × List Word)) (d : data_edge)
    (h : ∃ c ∈ cs, c.1 = d.data_pointer) :
    ∃ j c, cs[j]? = some c ∧ (resolved counter cs d).data_pointer = column_alias counter j ∧
      (resolved counter cs d).data_size = c.2.length := by
  induction cs generalizing counter d with
  | nil => simp at h
  | cons c rest ih =>
    rw [resolved]
    generalize hd : resolve_edge c.1 (int_of_size (next_counter counter)) c.2.length d = d'
    by_cases hkey : ∃ x ∈ rest, x.1 = d'.data_pointer
    · obtain ⟨j, x, hj, he, hsize⟩ := ih (next_counter counter) d' hkey
      exact ⟨j + 1, x, by simpa using hj, by rw [he, column_alias_succ], hsize⟩
    · rw [resolved_of_not_key _ _ _ (fun x hx he => hkey ⟨x, hx, he⟩)]
      refine ⟨0, c, rfl, ?_⟩
      obtain ⟨x, hx, he⟩ := h
      by_cases hc : d.data_pointer = c.1
      · constructor
        · rw [← hd, resolve_edge, if_pos hc, column_alias_zero]
        · rw [← hd, resolve_edge, if_pos hc]
      · rw [resolve_edge, if_neg hc] at hd
        rcases List.mem_cons.mp hx with rfl | hx
        · exact absurd he.symm hc
        · exact absurd ⟨x, hx, hd ▸ he⟩ hkey

/-- The edge of column `j`, just after the turn of that column. -/
theorem resolved_split (counter : Nat) (cs : List (Int × List Word)) (d : data_edge) (j : Nat)
    (c : Int × List Word) (hj : cs[j]? = some c) (hd : d.data_pointer = c.1)
    (hinj : ∀ i < j, ∀ x, cs[i]? = some x → x.1 ≠ c.1) :
    resolved counter cs d = resolved (next_counter^[j + 1] counter) (cs.drop (j + 1))
      { d with data_pointer := column_alias counter j, data_size := c.2.length } := by
  induction cs generalizing counter j with
  | nil => simp at hj
  | cons x rest ih =>
    cases j with
    | zero =>
      simp only [List.getElem?_cons_zero, Option.some.injEq] at hj
      subst hj
      rw [resolved, resolve_edge, if_pos hd, column_alias_zero]
      simp
    | succ j =>
      have hx : d.data_pointer ≠ x.1 := by
        have := hinj 0 (by omega) x rfl
        rw [hd]; exact this.symm
      rw [resolved, resolve_edge, if_neg hx, ih _ j (by simpa using hj)]
      · rw [column_alias_succ, ← Function.iterate_succ_apply, List.drop_succ_cons]
      · intro i hi y hy
        exact hinj (i + 1) (by omega) y (by simpa using hy)

/-! ## The law -/

/-- What a caller needs from `load_data`: an out-edge that carried the key of column `j`
carries the alias under which column `j` was placed and the size of that column, and every
other out-edge is unchanged. -/
def ScanResolved (data_scan : ScanMap) (v : Nat) (m : Machine) : Prop :=
  ∀ e ∈ m.dag.out_edges v,
    (∀ (j : Nat) (c : Int × List Word), data_scan.entries[j]? = some c →
      (m.dag.edge e).data_pointer = c.1 →
        ∃ assignedID,
          (load_data data_scan v m).trace[m.trace.length + j]? =
            some (.place c.1 assignedID) ∧
          (load_data data_scan v m).dag.edge e =
            { m.dag.edge e with data_pointer := assignedID, data_size := c.2.length }) ∧
    ((∀ c ∈ data_scan.entries, c.1 ≠ (m.dag.edge e).data_pointer) →
      (load_data data_scan v m).dag.edge e = m.dag.edge e)

/-- No column that an out-edge names gets an alias that is the key of a later column. -/
def NoAliasIsALaterKey (data_scan : ScanMap) (v : Nat) (m : Machine) : Prop :=
  ∀ e ∈ m.dag.out_edges v, ∀ (j : Nat) (c : Int × List Word), data_scan.entries[j]? = some c →
    (m.dag.edge e).data_pointer = c.1 →
      ∀ x ∈ data_scan.entries.drop (j + 1), x.1 ≠ column_alias m.total_data_set_in_device j

/-- The alias of column `j` is the one that `place_data` logs for it. -/
theorem placed_getElem (counter : Nat) (cs : List (Int × List Word)) (j : Nat) :
    (placed counter cs)[j]? =
      (cs[j]?).map (fun c => event.place c.1 (column_alias counter j)) := by
  induction cs generalizing counter j with
  | nil => simp [placed]
  | cons c rest ih =>
    cases j with
    | zero => simp [placed, column_alias_zero]
    | succ j => simp only [placed, List.getElem?_cons_succ, ih, column_alias_succ]

/-- The log of `load_data` holds the alias of each column. -/
theorem load_data_logs (data_scan : ScanMap) (v : Nat) (m : Machine) {j : Nat}
    {c : Int × List Word} (hj : data_scan.entries[j]? = some c) :
    (load_data data_scan v m).trace[m.trace.length + j]? =
      some (.place c.1 (column_alias m.total_data_set_in_device j)) := by
  rw [load_data_trace, List.getElem?_append_right (by omega), Nat.add_sub_cancel_left,
    placed_getElem, hj, Option.map_some]

/-- `load_data` resolves the out-edges of the scan if and only if no column that an out-edge
names gets the key of a later column as its alias. Otherwise the loop takes the edge again at
the later key, and the edge ends with the alias of another column. -/
theorem the_scan_is_resolved_iff_no_alias_is_a_later_key (data_scan : ScanMap) (v : Nat)
    (m : Machine) : ScanResolved data_scan v m ↔ NoAliasIsALaterKey data_scan v m := by
  have hsplit : ∀ e ∈ m.dag.out_edges v, ∀ (j : Nat) (c : Int × List Word),
      data_scan.entries[j]? = some c → (m.dag.edge e).data_pointer = c.1 →
      (load_data data_scan v m).dag.edge e =
        resolved (next_counter^[j + 1] m.total_data_set_in_device)
          (data_scan.entries.drop (j + 1))
          { m.dag.edge e with
            data_pointer := column_alias m.total_data_set_in_device j
            data_size := c.2.length } := by
    intro e he j c hj hd
    rw [load_data_edge, if_pos he]
    apply resolved_split _ _ _ _ _ hj hd
    intro i hi x hx hxc
    have := data_scan.key_inj hx hj hxc
    omega
  constructor
  · intro h e he j c hj hd x hx hxa
    obtain ⟨assignedID, hlog, hres⟩ := (h e he).1 j c hj hd
    rw [load_data_logs data_scan v m hj, Option.some.injEq, event.place.injEq] at hlog
    rw [hsplit e he j c hj hd, ← hlog.2] at hres
    -- The later key takes the edge again, so it ends with the alias of a later column.
    obtain ⟨i, y, hi, hlast, -⟩ := resolved_of_key (next_counter^[j + 1] m.total_data_set_in_device)
      (data_scan.entries.drop (j + 1))
      { m.dag.edge e with
        data_pointer := column_alias m.total_data_set_in_device j
        data_size := c.2.length } ⟨x, hx, by simp only [hxa]⟩
    simp only [hres, column_alias_shift] at hlast
    have hbound := (List.getElem?_eq_some_iff.mp hi).1
    rw [List.length_drop] at hbound
    have hlen := data_scan.length_le
    exact column_alias_inj (by omega) (by omega) hlast
  · intro h e he
    refine ⟨?_, ?_⟩
    · intro j c hj hd
      refine ⟨_, load_data_logs data_scan v m hj, ?_⟩
      rw [hsplit e he j c hj hd]
      apply resolved_of_not_key
      simpa using h e he j c hj hd
    · intro hnone
      rw [load_data_edge, if_pos he]
      exact resolved_of_not_key _ _ _ hnone

/-- The columns of the second graph of `query_1`, with the keys 1 to 15. -/
def query_1_scan : ScanMap where
  entries := (List.range 15).map (fun i => ((i : Int) + 1, List.replicate 32 0))
  sorted := by decide
  int_keys := by decide

/-- The scan and `agg1` of that graph, with the edge of key 1. -/
def query_1_agg : query_graph :=
  (query_graph.empty.add_vertex (primitive_node.fresh "ordered_aggregate_sum_block")).add_edge
    start_vertex 2 (data_edge.fresh 1)

/-- After the first graph of `query_1` the counter is 14. The edge of key 1 then gets alias 15,
which is the key of the last column, and it leaves the loop with alias 29. -/
theorem the_second_graph_of_query_1_is_not_resolved :
    ¬ ScanResolved query_1_scan start_vertex
      (Machine.before query_1_agg 14 ⟨∅, ∅⟩) := by
  intro h
  obtain ⟨assignedID, hlog, hedge⟩ := (h 0 (by decide)).1 0 (1, List.replicate 32 0) rfl rfl
  rw [load_data_logs _ _ _ rfl, Option.some.injEq, event.place.injEq] at hlog
  rw [← hlog.2] at hedge
  exact absurd (congrArg data_edge.data_pointer hedge) (by decide)

end hero.runtime_layer
