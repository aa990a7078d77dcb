-- What the second graph of `query_1` returns when its scan edges are resolved: each node has the
-- values of all groups in its buffer, and the display fetches all but the last of them.
import HeroDB.Aggregation
import HeroDB.GroupSums
import HeroDB.StoreSteps

namespace hero.tests

open runtime_layer atomic_adds

/-! ## The group ids -/

namespace grouped_rows

variable (r : grouped_rows)

/-- The id of a row, as a number. -/
def id (i : Nat) : Nat := (r.ag_key.getD i 0).toNat

variable {r} {i j : Nat}

theorem id_zero : r.id 0 = 0 := by
  obtain ⟨l, hl⟩ := List.head?_eq_some_iff.mp r.from_zero
  rw [id, hl]
  rfl

/-- From one row to the next the id stays or grows by one. -/
theorem id_next (h : i + 1 < r.ag_key.length) :
    r.id (i + 1) = r.id i ∨ r.id (i + 1) = r.id i + 1 := by
  have hi : i < r.ag_key.length := by omega
  have hnonneg : ∀ k ∈ r.ag_key, 0 ≤ k.toInt := by
    obtain ⟨l, hl⟩ := List.head?_eq_some_iff.mp r.from_zero
    have hchain := r.no_gaps
    rw [hl] at hchain ⊢
    exact first_le hchain
  have hstep := List.isChain_iff_getElem.mp r.no_gaps i h
  have hthis := hnonneg _ (List.getElem_mem hi)
  have hnext := hnonneg _ (List.getElem_mem h)
  have hlt := r.ag_key[i].isLt
  have hlt' := r.ag_key[i + 1].isLt
  rw [id, id, List.getD_eq_getElem?_getD, List.getD_eq_getElem?_getD, List.getElem?_eq_getElem hi,
    List.getElem?_eq_getElem h, Option.getD_some, Option.getD_some]
  rw [BitVec.toInt_eq_toNat_cond] at hthis hnext hstep
  rw [BitVec.toInt_eq_toNat_cond] at hstep
  split at hthis <;> split at hnext <;> omega

/-- The ids grow. -/
theorem id_mono (h : i ≤ j) (hj : j < r.ag_key.length) : r.id i ≤ r.id j := by
  induction j, h using Nat.le_induction with
  | base => exact Nat.le_refl _
  | succ j hij ih =>
    have hle := ih (by omega)
    rcases id_next hj with hnext | hnext <;> omega

theorem id_le (h : i < r.ag_key.length) : r.id i ≤ i := by
  induction i with
  | zero => rw [id_zero]
  | succ i ih =>
    have hle := ih (by omega)
    rcases id_next h with hnext | hnext <;> omega

theorem last_id_eq (r : grouped_rows) : r.last_id.toNat = r.id (r.ag_key.length - 1) := by
  rw [last_id, id, List.getLastD_eq_getLast?, List.getLast?_eq_getElem?,
    List.getD_eq_getElem?_getD]

theorem id_lt_groups (h : i < r.ag_key.length) : r.id i < r.groups := by
  have hmono := @id_mono r i (r.ag_key.length - 1) (by omega) (by omega)
  rw [groups, last_id_eq]
  omega

theorem groups_le (r : grouped_rows) : r.groups ≤ 32 * r.W := by
  have hblocks := r.blocks
  have hkeys := r.keys
  have hle := @id_le r (r.ag_key.length - 1) (by omega)
  rw [groups, last_id_eq]
  omega

/-- The buffer of a node: the values of the groups, and zeros behind them. -/
def padded (r : grouped_rows) (values : List Word) : List Word :=
  values ++ List.replicate (32 * r.W - values.length) 0

/-- A sum of words, as a number. -/
theorem sum_of_words (f : Nat → Word) (rows : List Nat) :
    (rows.map f).sum = BitVec.ofNat 32 (rows.map (fun i => (f i).toNat)).sum := by
  induction rows with
  | nil => rfl
  | cons i rest ih =>
    rw [List.map_cons, List.sum_cons, ih, List.map_cons, List.sum_cons, BitVec.ofNat_add,
      BitVec.ofNat_toNat, BitVec.setWidth_eq]

/-- What lands on the cells of the groups, and on no cell behind them. -/
theorem landed_groups (r : grouped_rows) (amount : Nat → Word) :
    (List.replicate (32 * r.W) (0 : Word)).mapIdx (fun p x =>
        x + landed r.id amount (List.range (32 * r.W)) p) =
      r.padded ((List.range r.groups).map (fun g =>
        BitVec.ofNat 32 ((r.group_rows g).map (fun i => (amount i).toNat)).sum)) := by
  have hgroups := r.groups_le
  apply List.ext_getElem?
  intro p
  rw [List.getElem?_mapIdx, padded, List.length_map, List.length_range]
  rcases Nat.lt_or_ge p r.groups with hp | hp
  · rw [List.getElem?_replicate_of_lt (by omega), Option.map_some, zero_add,
      List.getElem?_append_left (by simpa using hp), List.getElem?_map, List.getElem?_range hp,
      Option.map_some, landed, sum_of_words, group_rows, r.keys]
    rfl
  · rw [List.getElem?_append_right (by simpa using hp), List.length_map, List.length_range,
      List.getElem?_replicate, List.getElem?_replicate]
    by_cases hlt : p < 32 * r.W
    · have hnone : (List.range (32 * r.W)).filter (fun i => r.id i = p) = [] := by
        rw [List.filter_eq_nil_iff]
        intro i hi
        have hid := @id_lt_groups r i (by rw [r.keys]; exact List.mem_range.mp hi)
        simp only [decide_eq_true_eq]
        omega
      rw [if_pos hlt, if_pos (by omega), Option.map_some, landed, hnone, List.map_nil,
        List.sum_nil, zero_add]
    · rw [if_neg hlt, if_neg (by omega), Option.map_none]

variable {items : List Nat}

/-- Adds for all rows, in any order, fill the buffer of a node. -/
theorem adds_fill (r : grouped_rows) (amount : Nat → Word)
    (horder : items.Perm (List.range (32 * r.W)))
    {kernel : List Word → Nat → Option (List Word)}
    (hkernel : ∀ gid < 32 * r.W, ∀ result,
      kernel result gid = atomic_add result (r.id gid) (amount gid)) :
    items.foldlM kernel (List.replicate (32 * r.W) 0) =
      some (r.padded ((List.range r.groups).map (fun g =>
        BitVec.ofNat 32 ((r.group_rows g).map (fun i => (amount i).toNat)).sum))) := by
  rw [← landed_groups, ← adds_perm horder]
  · apply loops.foldlM_congr
    intro gid hgid result
    exact hkernel gid (List.mem_range.mp (horder.mem_iff.mp hgid)) result
  · intro i hi
    have hlt := List.mem_range.mp hi
    have hle := @id_le r i (by rw [r.keys]; exact hlt)
    rw [List.length_replicate]
    omega

theorem sum_launch (r : grouped_rows) (horder : items.Perm (List.range (32 * r.W))) :
    items.foldlM (kernels.ordered_aggregate_sum_block r.ag_key r.q) (List.replicate (32 * r.W) 0) =
      some (r.padded r.group_sums) := by
  apply adds_fill r (fun i => r.q.getD i 0) horder
  intro gid hgid result
  rw [kernels.ordered_aggregate_sum_block,
    aggregation.getD_eq r.ag_key (by rw [r.keys]; exact hgid), Option.bind_some,
    aggregation.getD_eq r.q (by rw [r.quantities]; exact hgid), Option.bind_some]
  rfl

/-- Each of the columns has a value for each group. -/
theorem length_of_every_group (r : grouped_rows) {values : List Word} (h : values ∈ r.every_group) :
    values.length = r.groups := by
  simp only [every_group, List.mem_cons, List.not_mem_nil, or_false] at h
  rcases h with rfl | rfl | rfl | rfl | rfl | rfl | rfl | rfl
  all_goals exact (List.length_map _).trans List.length_range

theorem count_launch (r : grouped_rows) (horder : items.Perm (List.range (32 * r.W))) :
    items.foldlM (kernels.ordered_aggregate_count_block r.ag_key) (List.replicate (32 * r.W) 0) =
      some (r.padded r.group_counts) := by
  have hones : ∀ g, ((r.group_rows g).map (fun _ => (1 : Word).toNat)).sum =
      (r.group_rows g).length := by
    intro g
    simp
  rw [adds_fill r (fun _ => 1) horder]
  · simp only [hones]
    rfl
  · intro gid hgid result
    rw [kernels.ordered_aggregate_count_block,
      aggregation.getD_eq r.ag_key (by rw [r.keys]; exact hgid), Option.bind_some]
    rfl

end grouped_rows

/-! ## The aliases -/

namespace aggregation_run

variable (x : aggregation_run)

/-- The alias of the column that an edge of the scan reads. -/
def column (e : Nat) : Int :=
  column_alias (counter_at (q_1_scan x.rows) x.counter x.process_queue start_vertex) e

/-- The words of that column. -/
def data (e : Nat) : List Word := ((q_1_scan x.rows).entries.getD e (0, [])).2

/-- The alias of the output of a node. -/
def output (v : Nat) : Int := out_alias (q_1_scan x.rows) x.counter x.process_queue v

/-- The values of a node. -/
def values (v : Nat) : List Word := if v = 3 then x.rows.group_counts else x.rows.group_sums

end aggregation_run

/-- The start of a run whose scan edges are resolved: every edge gets the alias of the column whose
key it carries, and the aliases of the run are new and fit an `int`. -/
structure Resolved (x : aggregation_run) : Prop where
  small : x.counter + 25 < 2 ^ 31
  old : ∀ key ∈ x.st.openCL, key.1 ≤ x.counter
  resolved : ∀ e < 15,
    edge_alias x.graph (q_1_scan x.rows) x.counter x.process_queue e = x.column e

section aliases

variable {x : aggregation_run} {v w e : Nat} {pre post : List Nat}

theorem small_run (hsmall : x.counter + 25 < 2 ^ 31) :
    x.counter + (q_1_scan x.rows).entries.length + x.graph.num_vertices < 2 ^ 31 := by
  have hlength : (q_1_scan x.rows).entries.length = 15 := rfl
  rw [hlength, aggregation_run.graph, q_1_num_vertices]
  exact hsmall

theorem aggregation_run.start_mem (x : aggregation_run) : start_vertex ∈ x.process_queue :=
  x.topological.start_mem x.is_a_query

theorem column_eq (hsmall : x.counter + 25 < 2 ^ 31) (he : e < 15) : x.column e =
    (counter_at (q_1_scan x.rows) x.counter x.process_queue start_vertex + e + 1 : Nat) :=
  column_alias_at _ _ x.topological x.start_mem (small_run hsmall) he

theorem column_inj (h : Resolved x) {e' : Nat} (he : e < 15) (he' : e' < 15)
    (heq : x.column e = x.column e') : e = e' := by
  rw [column_eq h.small he, column_eq h.small he'] at heq
  omega

theorem output_ne_column (h : Resolved x) (hop : x.graph.IsOp v) (he : e < 15) :
    x.output v ≠ x.column e :=
  out_alias_ne_column _ _ x.topological x.start_mem (small_run h.small) hop he

theorem output_inj (hv : x.graph.IsOp v) (hw : x.graph.IsOp w) (heq : x.output v = x.output w) :
    v = w :=
  out_alias_inj _ _ x.topological hv hw heq

theorem counter_lt_column (hsmall : x.counter + 25 < 2 ^ 31) (he : e < 15) :
    (x.counter : Int) < x.column e := by
  rw [column_eq hsmall he, counter_at]
  omega

theorem counter_lt_output (x : aggregation_run) (v : Nat) : (x.counter : Int) < x.output v := by
  rw [aggregation_run.output, out_alias, counter_at]
  omega

/-! ## The tables of the graph -/

/-- The first edge into an operation. -/
def first_input (v : Nat) : Nat := if v = 2 then 0 else if v = 3 then 2 else 2 * v - 5

/-- The edges into an operation. -/
def inputs (v : Nat) : List Nat :=
  if v = 3 then [first_input v] else [first_input v, first_input v + 1]

theorem in_edges_eq (hop : x.graph.IsOp v) : x.graph.in_edges v = inputs v := by
  obtain ⟨hlow, hhigh⟩ := (q_1_isOp _ _).mp hop
  have hall : ∀ v < 10, 2 ≤ v → (List.range 23).filter (fun e =>
      ((q_1_edges.map Prod.fst).getD e (0, 0)).2 = v) = inputs v := by decide
  have hends : x.graph.ends = q_1_edges.map Prod.fst := q_1_ends _ _
  unfold query_graph.in_edges query_graph.target
  rw [hends]
  exact hall v hhigh hlow

theorem in_edges_end (x : aggregation_run) :
    x.graph.in_edges end_vertex = [15, 16, 17, 18, 19, 20, 21, 22] := by
  have hends : x.graph.ends = q_1_edges.map Prod.fst := q_1_ends _ _
  unfold query_graph.in_edges query_graph.target
  rw [hends]
  decide

/-- The columns that an operation reads. -/
theorem data_eq (hop : x.graph.IsOp v) : x.data (first_input v) = x.rows.ag_key ∧
    (v ≠ 3 → x.data (first_input v + 1) = x.rows.q) := by
  obtain ⟨hlow, hhigh⟩ := (q_1_isOp _ _).mp hop
  rw [← aligned_eq x.rows.keys, ← aligned_eq x.rows.quantities]
  obtain rfl | rfl | rfl | rfl | rfl | rfl | rfl | rfl :
      v = 2 ∨ v = 3 ∨ v = 4 ∨ v = 5 ∨ v = 6 ∨ v = 7 ∨ v = 8 ∨ v = 9 := by omega
  case inr.inl => exact ⟨rfl, fun h => absurd rfl h⟩
  all_goals exact ⟨rfl, fun _ => rfl⟩

/-- The edges of the scan go into the operations. -/
theorem mem_inputs (hop : x.graph.IsOp v) (he : e ∈ inputs v) :
    e < 15 ∧ x.graph.source e = start_vertex ∧ x.graph.target e = v := by
  rw [← in_edges_eq hop] at he
  obtain ⟨hlt, htarget⟩ := x.graph.mem_in_edges.mp he
  have hs := (x.source_at hlt).mpr (by rw [htarget]; exact hop.2.2)
  refine ⟨?_, hs, htarget⟩
  by_contra hge
  have hends : x.graph.ends = q_1_edges.map Prod.fst := q_1_ends _ _
  have hall : ∀ e < 23, 15 ≤ e → ((q_1_edges.map Prod.fst).getD e (0, 0)).1 ≠ start_vertex := by
    decide
  unfold query_graph.source at hs
  rw [hends] at hs hlt
  exact hall e hlt (by omega) hs

theorem inputs_nodup (v : Nat) : (inputs v).Nodup := by
  unfold inputs
  split <;> simp

/-- The values of the nodes, in the order of the edges into the display. -/
theorem shown_values (x : aggregation_run) :
    (x.graph.in_edges end_vertex).map (fun e => x.values (x.graph.source e)) =
      x.rows.every_group := by
  have hends : x.graph.ends = q_1_edges.map Prod.fst := q_1_ends _ _
  have hall : [15, 16, 17, 18, 19, 20, 21, 22].map (fun e =>
      ((q_1_edges.map Prod.fst).getD e (0, 0)).1) = [2, 3, 4, 5, 6, 7, 8, 9] := by decide
  have hsources : [15, 16, 17, 18, 19, 20, 21, 22].map x.graph.source =
      [2, 3, 4, 5, 6, 7, 8, 9] := by
    unfold query_graph.source
    rw [hends]
    exact hall
  have hmap : (x.graph.in_edges end_vertex).map (fun e => x.values (x.graph.source e)) =
      ([15, 16, 17, 18, 19, 20, 21, 22].map x.graph.source).map x.values := by
    rw [in_edges_end, List.map_map, Function.comp_def]
  rw [hmap, hsources]
  simp [aggregation_run.values, grouped_rows.every_group]

theorem data_length (x : aggregation_run) (he : e < 15) : (x.data e).length = 32 * x.rows.W := by
  have hlt : e < (q_1_scan x.rows).entries.length := he
  apply q_1_columns x.rows
  rw [List.getD_eq_getElem?_getD, List.getElem?_eq_getElem hlt, Option.getD_some]
  exact List.getElem_mem hlt

end aliases

/-! ## The buffers of a run -/

/-- What the turns of some vertices have stored: a column that is still to be read is on the device
of the scan, a node that had its turn has the values of all groups in its buffer, and the aliases to
come are new. -/
structure Buffers (x : aggregation_run) (pre : List Nat) (s : Stores) : Prop where
  columns : start_vertex ∈ pre → ∀ e < 15, x.graph.target e ∉ pre → ∀ dev,
    look s (x.column e) dev =
      if dev = (x.graph.vertex start_vertex).device then some (x.data e) else none
  outputs : ∀ v ∈ pre, x.graph.IsOp v →
    look s (x.output v) x.target_device = some (x.rows.padded (x.values v))
  new_columns : start_vertex ∉ pre → ∀ e < 15, ∀ dev, look s (x.column e) dev = none
  new_outputs : ∀ v, v ∉ pre → x.graph.IsOp v → ∀ dev, look s (x.output v) dev = none

section run

variable {x : aggregation_run} {pre post : List Nat} {v e : Nat} {s : Stores}
variable {items : List (List Word) → Nat → List Nat}

theorem buffers_before (h : Resolved x) : Buffers x [] x.st := by
  have hnew : ∀ a : Int, (x.counter : Int) < a → ∀ dev, look x.st a dev = none := by
    intro a ha dev
    apply AList.lookup_eq_none.mpr
    intro hmem
    have hle := h.old (a, dev) hmem
    omega
  refine ⟨?_, ?_, ?_, ?_⟩
  · intro hs
    cases hs
  · intro v hv
    cases hv
  · exact fun _ e he dev => hnew _ (counter_lt_column h.small he) dev
  · exact fun v _ _ dev => hnew _ (counter_lt_output x v) dev

theorem aggregation_run.wired (K : Kernels) (hsmall : x.counter + 25 < 2 ^ 31)
    (hsplit : x.process_queue = pre ++ post) :
    Wired K x.graph (q_1_scan x.rows) x.counter x.st x.process_queue pre (x.run K pre) :=
  wired_after K x.st x.is_a_query x.topological (small_run hsmall) pre post hsplit

/-- The turn of the scan. -/
theorem buffers_load {K : Kernels} (h : Resolved x)
    (hsplit : x.process_queue = pre ++ start_vertex :: post)
    (hstores : (x.run K pre).stores = some s) (hb : Buffers x pre s) :
    ∃ s', (load_data (q_1_scan x.rows) start_vertex (x.run K pre)).stores = some s' ∧
      Buffers x (pre ++ [start_vertex]) s' := by
  have hw := x.wired K h.small hsplit
  have hstart := x.topological.not_mem_prefix hsplit
  have halias : ∀ j,
      column_alias (x.run K pre).total_data_set_in_device j = x.column j := by
    intro j
    rw [hw.counter_eq, ← counter_at_eq _ _ x.topological hsplit, aggregation_run.column]
  obtain ⟨s', hs', hat, hframe⟩ := load_data_look (q_1_scan x.rows) start_vertex (x.run K pre) s
    hstores
    (by
      intro j hj dev
      rw [halias]
      exact hb.new_columns hstart j hj dev)
    (by
      intro i hi j hj heq
      rw [halias, halias] at heq
      exact column_inj h hi hj heq)
  rw [hw.device_eq] at hat
  simp only [halias] at hat hframe
  have hop : ∀ v, x.graph.IsOp v → ∀ dev, look s' (x.output v) dev = look s (x.output v) dev :=
    fun v hop dev => hframe _ dev (fun j hj => output_ne_column h hop hj)
  refine ⟨s', hs', ?_, ?_, ?_, ?_⟩
  · intro _ e he _ dev
    have hlt : e < (q_1_scan x.rows).entries.length := he
    have hc := List.getElem?_eq_getElem hlt
    rw [hat e _ hc dev, aggregation_run.data, List.getD_eq_getElem?_getD, hc, Option.getD_some]
  · intro v hv hop'
    rw [hop v hop']
    exact hb.outputs v (by simpa [hop'.2.1] using hv) hop'
  · intro hnot
    exact absurd (by simp) hnot
  · intro v hv hop' dev
    rw [hop v hop']
    exact hb.new_outputs v (fun hmem => hv (List.mem_append_left _ hmem)) hop' dev

/-- All operations are on the target device. -/
theorem device_eq (hop : x.graph.IsOp v) : (x.graph.vertex v).device = x.target_device := by
  have hvertex : x.graph.vertex v = _ := q_1_vertex _ _ hop
  rw [hvertex]
  rfl

/-- The inputs of an operation at its turn. -/
theorem inputs_at {K : Kernels} (h : Resolved x) (hsplit : x.process_queue = pre ++ v :: post)
    (hop : x.graph.IsOp v) (he : e ∈ inputs v) :
    ((x.run K pre).dag.edge e).data_pointer = x.column e ∧
      ((x.run K pre).dag.edge e).data_size = 32 * x.rows.W := by
  obtain ⟨hlt, hs, htarget⟩ := mem_inputs hop he
  have hedge := he
  rw [← in_edges_eq hop] at hedge
  have hends := (x.graph.mem_in_edges.mp hedge).1
  have hdone : x.graph.source e ∈ pre := x.topological.sources_done hsplit hedge
  constructor
  · rw [(x.wired K h.small hsplit).carries e hends hdone, h.resolved e hlt]
  · rw [hs] at hdone
    exact (offers_after K x pre (v :: post) hsplit).columns e hends hs hdone

/-- The kernel of an operation leaves the values of all groups. -/
theorem kernel_fills (horder : ∀ buffers n, (items buffers n).Perm (List.range n))
    (hop : x.graph.IsOp v) {n : primitive_node} (hname : n.mKernelName = (q_1_task v).1)
    (hsize : n.input_size = 32 * x.rows.W) (hratio : n.input_to_output_ratio = 1) :
    kernel_words (aggregation_kernels items) ((inputs v).map x.data) n =
      some (x.rows.padded (x.values v)) := by
  obtain ⟨hkeys, hquantities⟩ := data_eq hop
  unfold kernel_words
  rw [hname, hsize, hratio, Nat.div_one]
  by_cases hthree : v = 3
  · rw [inputs, q_1_task, aggregation_run.values, if_pos hthree, if_pos hthree, if_pos hthree,
      List.map_singleton, hkeys]
    exact grouped_rows.count_launch x.rows (horder _ _)
  · rw [inputs, q_1_task, aggregation_run.values, if_neg hthree, if_neg hthree, if_neg hthree,
      List.map_cons, List.map_singleton, hkeys, hquantities hthree]
    exact grouped_rows.sum_launch x.rows (horder _ _)

/-- The transfers of an operation: its columns are on its device, and all other buffers are where
they were. -/
theorem buffers_inputs {K : Kernels} (h : Resolved x) (hsplit : x.process_queue = pre ++ v :: post)
    (hop : x.graph.IsOp v) (hstores : (x.run K pre).stores = some s) (hb : Buffers x pre s) :
    ∃ s', (set_input v (x.run K pre)).stores = some s' ∧
      (∀ e ∈ inputs v, look s' (x.column e) x.target_device = some (x.data e)) ∧
      ∀ a dev, (∀ e ∈ inputs v, a ≠ x.column e) → look s' a dev = look s a dev := by
  have hw := x.wired K h.small hsplit
  have hin : ∀ e ∈ inputs v, ((x.run K pre).dag.edge e).data_pointer = x.column e ∧
      ((x.run K pre).dag.edge e).data_size = 32 * x.rows.W :=
    fun e he => inputs_at h hsplit hop he
  obtain ⟨s', hs', hthere, hframe⟩ := @set_input_edges_look _ s v (inputs v) x.data hstores
    (by
      rw [List.map_congr_left (fun e he => (hin e he).1)]
      apply List.Nodup.map_on _ (inputs_nodup v)
      intro e he e' he' heq
      exact column_inj h (mem_inputs hop he).1 (mem_inputs hop he').1 heq)
    (by
      intro e he
      rw [data_length x (mem_inputs hop he).1, (hin e he).2])
    (by
      intro e he dev
      obtain ⟨hlt, hs, htarget⟩ := mem_inputs hop he
      have hstart : start_vertex ∈ pre := by
        rw [← hs]
        rw [← in_edges_eq hop] at he
        exact x.topological.sources_done hsplit he
      have hlater : x.graph.target e ∉ pre := by
        rw [htarget]
        exact x.topological.not_mem_prefix hsplit
      rw [(hin e he).1, hw.shape.source, hs, hw.device_eq]
      exact hb.columns hstart e hlt hlater dev)
  refine ⟨s', ?_, ?_, ?_⟩
  · rw [set_input, hw.shape.in_edges, in_edges_eq hop]
    exact hs'
  · intro e he
    have hlook := hthere e he
    rw [(hin e he).1, hw.shape.target, (mem_inputs hop he).2.2, hw.device_eq, device_eq hop]
      at hlook
    exact hlook
  · intro a dev ha
    apply hframe
    intro e he
    rw [(hin e he).1]
    exact ha e he

/-- The turn of an operation. -/
theorem buffers_operate (horder : ∀ buffers n, (items buffers n).Perm (List.range n))
    (h : Resolved x) (hsplit : x.process_queue = pre ++ v :: post) (hop : x.graph.IsOp v)
    (hstores : (x.run (aggregation_kernels items) pre).stores = some s) (hb : Buffers x pre s) :
    ∃ s', (operate (aggregation_kernels items) v (x.run (aggregation_kernels items) pre)).stores =
        some s' ∧ Buffers x (pre ++ [v]) s' := by
  have hw := x.wired (aggregation_kernels items) h.small hsplit
  have hoffers := offers_after (aggregation_kernels items) x pre (v :: post) hsplit
  have hv := x.topological.not_mem_prefix hsplit
  obtain ⟨s₁, hs₁, hthere, hframe⟩ := buffers_inputs h hsplit hop hstores hb
  have halias : next_alias (x.run (aggregation_kernels items) pre) = x.output v :=
    (next_alias_eq x.topological hsplit hop (small_run h.small) hw).2
  have hin : ∀ e ∈ inputs v,
      ((x.run (aggregation_kernels items) pre).dag.edge e).data_pointer = x.column e :=
    fun e he => (inputs_at h hsplit hop he).1
  have hvertex := hoffers.vertex_at hsplit hop
  have hrows := (hoffers.rows_at hsplit hop).2
  have hin_edges : (x.run (aggregation_kernels items) pre).dag.in_edges v = inputs v := by
    rw [hw.shape.in_edges, in_edges_eq hop]
  generalize hm : x.run (aggregation_kernels items) pre = m at *
  have hdevice : (m.dag.vertex v).device = x.target_device := by
    rw [hvertex]
    rfl
  have hnew : ∀ w, w ∉ pre → x.graph.IsOp w → ∀ dev, look s₁ (x.output w) dev = none := by
    intro w hw' hop' dev
    rw [hframe _ _ (fun e he => output_ne_column h hop' (mem_inputs hop he).1)]
    exact hb.new_outputs w hw' hop' dev
  -- The launch.
  obtain ⟨data, size, htaken⟩ := take_inputs_eq (m.dag.in_edges v) m.dag.edge (m.dag.vertex v)
  have hnode := set_input_vertex_self v m
  have hsize := take_inputs_size (m.dag.in_edges v) m.dag.edge (m.dag.vertex v)
  rw [htaken, hvertex] at hnode hsize
  have hwords : kernel_words (aggregation_kernels items) ((inputs v).map x.data)
      ((set_input v m).dag.vertex v) = some (x.rows.padded (x.values v)) := by
    apply kernel_fills horder hop
    · rw [hnode]
      rfl
    · rw [hnode]
      exact hsize.trans hrows
    · rw [hnode]
      rfl
  obtain ⟨-, hruns⟩ := operate_runs (aggregation_kernels items) v m ((inputs v).map x.data)
    (s := s₁) (hw.shape.execution_environment) (by rw [hvertex]; rfl) (by rw [hvertex]; rfl) hs₁
    (by
      rw [hin_edges, List.map_congr_left hin, hdevice]
      exact mapM_lookup_map hthere)
    (by
      rw [halias]
      exact hnew v hv hop _)
  obtain ⟨s', hs', hlook⟩ := hruns _ hwords
  rw [halias, hdevice] at hlook
  have hother : ∀ a dev, a ≠ x.output v → look s' a dev = look s₁ a dev := by
    intro a dev ha
    rw [hlook, if_neg (fun heq => ha (Prod.mk.inj heq).1)]
  refine ⟨s', hs', ?_, ?_, ?_, ?_⟩
  · intro hstart e he hlater dev
    rw [List.mem_append, List.mem_singleton, not_or] at hlater
    rw [hother _ _ (output_ne_column h hop he).symm, hframe]
    · exact hb.columns (by simpa [Ne.symm hop.2.1] using hstart) e he hlater.1 dev
    · intro e' he' heq
      obtain ⟨hlt, -, htarget⟩ := mem_inputs hop he'
      rw [column_inj h he hlt heq] at hlater
      exact hlater.2 htarget
  · intro w hw' hop'
    rcases List.mem_append.mp hw' with hw' | hw'
    · rw [hother, hframe]
      · exact hb.outputs w hw' hop'
      · exact fun e he => output_ne_column h hop' (mem_inputs hop he).1
      · intro heq
        rw [output_inj hop' hop heq] at hw'
        exact hv hw'
    · rw [List.mem_singleton.mp hw', hlook, if_pos rfl]
  · intro hstart e he dev
    rw [hother _ _ (output_ne_column h hop he).symm, hframe]
    · exact hb.new_columns (fun hmem => hstart (List.mem_append_left _ hmem)) e he dev
    · intro e' he'
      have hedge := he'
      rw [← in_edges_eq hop] at hedge
      have hdone : x.graph.source e' ∈ pre := x.topological.sources_done hsplit hedge
      rw [(mem_inputs hop he').2.1] at hdone
      exact absurd (List.mem_append_left _ hdone) hstart
  · intro w hw' hop' dev
    rw [List.mem_append, List.mem_singleton, not_or] at hw'
    rw [hother _ _ (fun heq => hw'.2 (output_inj hop' hop heq))]
    exact hnew w hw'.1 hop' dev

/-- The columns that the display fetches, one for each node. -/
def front (r : grouped_rows) : List (List Word) :=
  r.every_group.map (fun values => (r.padded values).takeD r.fetched 0)

/-- The turn of the display: it fetches the front of the buffer of each node. -/
theorem buffers_display {K : Kernels} (h : Resolved x)
    (hsplit : x.process_queue = pre ++ end_vertex :: post)
    (hstores : (x.run K pre).stores = some s) (hb : Buffers x pre s) :
    (display_result (x.run K pre)).stores = some s ∧ Buffers x (pre ++ [end_vertex]) s ∧
      (display_result (x.run K pre)).results = (x.run K pre).results ++ front x.rows := by
  have hw := x.wired K h.small hsplit
  have hoffers := offers_after K x pre (end_vertex :: post) hsplit
  have hsource : ∀ e ∈ x.graph.in_edges end_vertex, e < x.graph.ends.length ∧
      x.graph.source e ∈ pre ∧ x.graph.source e ≠ start_vertex ∧
        x.graph.IsOp (x.graph.source e) := by
    intro e he
    obtain ⟨hlt, htarget⟩ := x.graph.mem_in_edges.mp he
    have hs : x.graph.source e ≠ start_vertex := fun hs => (x.source_at hlt).mp hs htarget
    exact ⟨hlt, x.topological.sources_done hsplit he, hs, x.is_a_query.source_isOp hlt hs⟩
  have hat : ∀ e ∈ x.graph.in_edges end_vertex,
      look s ((x.run K pre).dag.edge e).data_pointer
        ((x.run K pre).dag.vertex ((x.run K pre).dag.source e)).device =
          some (x.rows.padded (x.values (x.graph.source e))) := by
    intro e he
    obtain ⟨hlt, hdone, hs, hop⟩ := hsource e he
    rw [hw.carries e hlt hdone, hw.shape.source, hw.device_eq, device_eq hop, edge_alias, if_neg hs]
    exact hb.outputs _ hdone hop
  have hmem : ∀ {a : Int} {dev : Device} {words : List Word}, look s a dev = some words →
      (a, dev) ∈ s.openCL := by
    intro a dev words hlook
    rw [← AList.lookup_isSome, ← look, hlook]
    rfl
  have henv : (x.run K pre).dag.execution_environment = 0 := hw.shape.execution_environment
  refine ⟨?_, ?_, ?_⟩
  · rw [display_result, hw.shape.in_edges]
    apply (display_edges_look _ _ s hstores henv).1
    exact fun e he => hmem (hat e he)
  · refine ⟨?_, ?_, ?_, ?_⟩
    · intro hstart e he hlater
      exact hb.columns (by simpa [start_vertex, end_vertex] using hstart) e he
        (fun hmem => hlater (List.mem_append_left _ hmem))
    · intro v hv hop
      exact hb.outputs v (by simpa [hop.2.2] using hv) hop
    · exact fun hstart => hb.new_columns (fun hmem => hstart (List.mem_append_left _ hmem))
    · exact fun v hv => hb.new_outputs v (fun hmem => hv (List.mem_append_left _ hmem))
  · have hcolumns : (x.graph.in_edges end_vertex).map (fun e =>
        (x.rows.padded (x.values (x.graph.source e))).takeD
          (size_of_int (int_of_size ((x.run K pre).dag.edge e).data_size)) 0) = front x.rows := by
      rw [front, ← shown_values, List.map_map]
      apply List.map_congr_left
      intro e he
      obtain ⟨hlt, hdone, hs, -⟩ := hsource e he
      rw [hoffers.outputs e hlt hs hdone, Function.comp_apply, grouped_rows.fetched]
    rw [display_result, hw.shape.in_edges, display_edges_columns _ hstores henv hat, hcolumns]

/-- Every prefix of the queue leaves its buffers, and the display has its columns. -/
theorem buffers_after (horder : ∀ buffers n, (items buffers n).Perm (List.range n))
    (h : Resolved x) (pre post : List Nat) (hsplit : x.process_queue = pre ++ post) :
    (∃ s, (x.run (aggregation_kernels items) pre).stores = some s ∧ Buffers x pre s) ∧
      (x.run (aggregation_kernels items) pre).results =
        if end_vertex ∈ pre then front x.rows else [] := by
  induction pre using List.reverseRecOn generalizing post with
  | nil => exact ⟨⟨x.st, rfl, buffers_before h⟩, rfl⟩
  | append_singleton pre v ih =>
    have hsplit' : x.process_queue = pre ++ v :: post := by simpa using hsplit
    obtain ⟨⟨s, hstores, hb⟩, hresults⟩ := ih (v :: post) hsplit'
    have hw := x.wired (aggregation_kernels items) h.small hsplit'
    have hv : v < x.graph.num_vertices := (x.topological.mem_iff v).mp (by simp [hsplit'])
    have hturn : x.run (aggregation_kernels items) (pre ++ [v]) =
        execute_vertex (aggregation_kernels items) (q_1_scan x.rows)
          (x.run (aggregation_kernels items) pre) v := after_snoc pre v
    rw [hturn]
    rcases execute_vertex_cases (aggregation_kernels items) (q_1_scan x.rows) x.is_a_query hv
      (hw.name_eq v) with ⟨rfl, he⟩ | ⟨rfl, he⟩ | ⟨hop, he⟩
    · rw [he]
      refine ⟨buffers_load h hsplit' hstores hb, ?_⟩
      have hmem : end_vertex ∈ pre ++ [start_vertex] ↔ end_vertex ∈ pre := by
        simp [start_vertex, end_vertex]
      rw [load_data_results, hresults, if_congr hmem rfl rfl]
    · obtain ⟨hstores', hb', hshown⟩ := buffers_display h hsplit' hstores hb
      rw [he]
      refine ⟨⟨s, hstores', hb'⟩, ?_⟩
      rw [hshown, hresults, if_neg (x.topological.not_mem_prefix hsplit'), if_pos (by simp)]
      rfl
    · rw [he]
      refine ⟨buffers_operate horder h hsplit' hop hstores hb, ?_⟩
      have hmem : end_vertex ∈ pre ++ [v] ↔ end_vertex ∈ pre := by simp [Ne.symm hop.2.2]
      rw [operate_results, hresults, if_congr hmem rfl rfl]

/-- Whatever the device, the order of the vertices and the order of the work items: the graph
returns the front of the values of each node. -/
theorem query_1_returns_the_front (horder : ∀ buffers n, (items buffers n).Perm (List.range n))
    (h : Resolved x) : x.results (aggregation_kernels items) = front x.rows := by
  have hend : end_vertex ∈ x.process_queue := by
    rw [x.topological.mem_iff, q_1_num_vertices]
    decide
  have hresults := (buffers_after horder h x.process_queue [] (List.append_nil _).symm).2
  rw [if_pos hend] at hresults
  exact hresults

/-- With more than one group, all nodes lose the last one. -/
theorem query_1_loses_the_last_group
    (horder : ∀ buffers n, (items buffers n).Perm (List.range n)) (h : Resolved x)
    (hmany : 1 < x.rows.groups) :
    x.results (aggregation_kernels items) = x.rows.every_group.map List.dropLast := by
  rw [query_1_returns_the_front horder h, front]
  apply List.map_congr_left
  intro values hvalues
  have hlength := x.rows.length_of_every_group hvalues
  have hgroups : x.rows.groups = x.rows.last_id.toNat + 1 := rfl
  rw [x.rows.fetched_eq (by omega), List.dropLast_eq_take, hlength, hgroups, Nat.add_sub_cancel,
    grouped_rows.padded, List.takeD_eq_take _ (by rw [List.length_append]; omega),
    List.take_append_of_le_length (by omega)]

/-- With one group, all nodes have zeros behind it, up to the number of rows. -/
theorem query_1_pads_the_only_group
    (horder : ∀ buffers n, (items buffers n).Perm (List.range n)) (h : Resolved x)
    (hone : x.rows.groups = 1) (hrows : 32 * x.rows.W < 2 ^ 31) :
    x.results (aggregation_kernels items) = x.rows.every_group.map x.rows.padded := by
  rw [query_1_returns_the_front horder h, front]
  apply List.map_congr_left
  intro values hvalues
  have hlength := x.rows.length_of_every_group hvalues
  have hblocks := x.rows.blocks
  have hgroups : x.rows.groups = x.rows.last_id.toNat + 1 := rfl
  have hpadded : (x.rows.padded values).length = 32 * x.rows.W := by
    rw [grouped_rows.padded, List.length_append, List.length_replicate]
    omega
  have hfetched : x.rows.fetched = 32 * x.rows.W := by
    rw [x.rows.fetched_of_one (by omega), int_of_size_eq hrows]
    unfold size_of_int
    omega
  rw [hfetched, List.takeD_eq_take _ (by omega), ← hpadded, List.take_length]

end run

end hero.tests
