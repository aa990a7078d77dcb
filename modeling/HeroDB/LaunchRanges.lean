-- Do the launches of `execute_graph` stay inside of their arrays? Each launch has the size of the
-- longest input, and each array the size of its own column or producer.
import HeroDB.LaunchSizes
import HeroDB.PrimitiveRanges

namespace hero.runtime_layer

open cpp_layer (Primitive)

/-! ## The arrays behind the aliases -/

/-- The length of the array that an event puts under an alias: a column, or the output that
`prepare_output` allocates for the input size of the node. -/
def event.array_size (data_scan : ScanMap) (dag : query_graph) (data_pointer : Int) :
    event → Option Nat
  | .place key a =>
    if a = data_pointer then
      (data_scan.entries.find? (fun c => c.1 = key)).map (fun c => c.2.length)
    else none
  | .output v a => if a = data_pointer then some (calloc_size (dag.vertex v).input_size) else none
  | .execute _ _ => none

/-- The length of the array that the C++ dictionary has for an alias: that of the last entry. -/
def array_size (data_scan : ScanMap) (dag : query_graph) (trace : List event) (data_pointer : Int) :
    Option Nat :=
  trace.reverse.findSome? (event.array_size data_scan dag data_pointer)

/-- Each launch of the C++ layer finds its arrays, and on arrays of these lengths, whatever words
they hold, its primitive reads and writes only inside of them. -/
def LaunchesInside (data_scan : ScanMap) (m : Machine) : Prop :=
  ∀ before v l after, m.trace = before ++ .execute v l :: after → l.envi_type ≠ 0 →
    ∃ lengths : List Nat,
      l.args.map (array_size data_scan m.dag before) = lengths.map some ∧
      ∀ arrays : List (List Word), arrays.map List.length = lengths →
        (cpp_layer.execute l.kernel arrays l.params l.globalSize).isSome

/-! ## The graphs of the primitives -/

/-- A node of a primitive, with its ratio, its parameters and the default sizes. -/
structure primitive_node.Runs (n : primitive_node) (k : Primitive) : Prop where
  kernel : n.mKernelName = k.name
  ratio : n.input_to_output_ratio = k.ratio
  parameters : k.no_of_parameters ≤ n.additional_parameters.length
  input_size : n.input_size = 1
  output_size : n.overall_output_size = 0

/-- The name of a node says which primitive it runs. -/
theorem primitive_node.Runs.unique {n : primitive_node} {k k' : Primitive} (h : n.Runs k)
    (h' : n.Runs k') : k = k' := by
  have hname := h.kernel.symm.trans h'.kernel
  rw [← Option.some.injEq, ← cpp_layer.mKernelDictionary_name, ← cpp_layer.mKernelDictionary_name,
    hname]

/-- A graph of primitives for the C++ environment, whose scan edges carry keys of `data_scan`. -/
structure IsPrimitiveGraph (g : query_graph) (data_scan : ScanMap) : Prop where
  query : IsQuery g
  fresh : FreshNodes g
  environment : g.execution_environment = 1
  primitives : ∀ v, g.IsOp v → ∃ k, (g.vertex v).Runs k
  keys : ∀ e < g.ends.length, g.source e = start_vertex →
    ∃ c ∈ data_scan.entries, c.1 = (g.edge e).data_pointer

section lengths

variable (g : query_graph) (data_scan : ScanMap) (counter : Nat) (order : List Nat)

/-- The length of the array that an in-edge brings. -/
def edge_length (e : Nat) : Nat :=
  if g.source e = start_vertex then column_size g data_scan counter order e
  else calloc_size (rows g data_scan counter order (g.source e))

/-- The lengths of the arguments of an operation: its in-edges, and its output last. -/
def arg_lengths (v : Nat) : List Nat :=
  (g.in_edges v).map (edge_length g data_scan counter order) ++
    [calloc_size (rows g data_scan counter order v)]

end lengths

/-! ## The log of a run -/

/-- The array of an alias, when all events that put one under it put one of this length. -/
theorem array_size_eq {data_scan : ScanMap} {dag : query_graph} {trace : List event}
    {data_pointer : Int} {ev : event} {n : Nat} (hmem : ev ∈ trace)
    (hev : ev.array_size data_scan dag data_pointer = some n)
    (hall : ∀ ev' ∈ trace, ∀ n', ev'.array_size data_scan dag data_pointer = some n' → n' = n) :
    array_size data_scan dag trace data_pointer = some n := by
  unfold array_size
  cases h : trace.reverse.findSome? (event.array_size data_scan dag data_pointer) with
  | none =>
    rw [List.findSome?_eq_none_iff] at h
    rw [h ev (List.mem_reverse.mpr hmem)] at hev
    cases hev
  | some n' =>
    obtain ⟨ev', hmem', hev'⟩ := List.exists_of_findSome?_eq_some h
    rw [hall ev' (List.mem_reverse.mp hmem') n' hev']

/-- The column of a key. -/
theorem ScanMap.find_key (data_scan : ScanMap) {j : Nat} {c : Int × List Word}
    (hj : data_scan.entries[j]? = some c) :
    data_scan.entries.find? (fun x => x.1 = c.1) = some c := by
  cases h : data_scan.entries.find? (fun x => x.1 = c.1) with
  | none =>
    rw [List.find?_eq_none] at h
    exact absurd (decide_eq_true rfl) (h c (List.mem_of_getElem? hj))
  | some x =>
    have hkey : x.1 = c.1 := by simpa using List.find?_some h
    obtain ⟨i, hi⟩ := List.mem_iff_getElem?.mp (List.mem_of_find?_eq_some h)
    have hsame := data_scan.key_inj hi hj hkey
    subst hsame
    rw [← hi, hj]

section log

variable {K : Kernels} {g : query_graph} {data_scan : ScanMap} {counter : Nat} {st : Stores}
variable {order pre post : List Nat} {v : Nat}

/-- The one launch among the events of a turn. -/
theorem turn_launch_split {w : Nat} {before after : List event} {l : launch}
    (h : turn_events K g data_scan counter st order w = before ++ .execute v l :: after) :
    w = v ∧ v ≠ start_vertex ∧ v ≠ end_vertex ∧
      before = [.output v (out_alias data_scan counter order v)] ∧
      l = turn_launch K g data_scan counter st order v := by
  have hmem : event.execute v l ∈ turn_events K g data_scan counter st order w := by
    rw [h]
    simp
  unfold turn_events at h hmem
  split at h
  · rename_i hs
    rw [if_pos hs] at hmem
    obtain ⟨j, c, -, hev⟩ := mem_placed.mp hmem
    cases hev
  · split at h
    · simp at h
    · rename_i hs he
      cases before with
      | nil => cases h
      | cons x before =>
        rw [List.cons_append, List.cons.injEq] at h
        obtain ⟨rfl, h⟩ := h
        cases before with
        | nil =>
          cases h
          exact ⟨rfl, hs, he, rfl, rfl⟩
        | cons y before => simp at h

/-- A launch in the log is that of the turn of an operation. -/
theorem launch_split {turns : List Nat} {before after : List event} {l : launch}
    (h : turns.flatMap (turn_events K g data_scan counter st order) =
      before ++ .execute v l :: after) :
    ∃ p q, turns = p ++ v :: q ∧ v ≠ start_vertex ∧ v ≠ end_vertex ∧
      before = p.flatMap (turn_events K g data_scan counter st order) ++
        [.output v (out_alias data_scan counter order v)] ∧
      l = turn_launch K g data_scan counter st order v := by
  induction turns generalizing before with
  | nil => simp at h
  | cons w rest ih =>
    rw [List.flatMap_cons, List.append_eq_append_iff] at h
    rcases h with ⟨mid, rfl, hrest⟩ | ⟨mid, hturn, hafter⟩
    · obtain ⟨p, q, rfl, hs, he, rfl, rfl⟩ := ih hrest
      exact ⟨w :: p, q, rfl, hs, he, by simp, rfl⟩
    · cases mid with
      | nil =>
        obtain ⟨p, q, -, -, -, hbefore, -⟩ := @ih [] hafter.symm
        simp at hbefore
      | cons ev mid =>
        rw [List.cons_append, List.cons.injEq] at hafter
        obtain ⟨rfl, -⟩ := hafter
        obtain ⟨rfl, hs, he, rfl, rfl⟩ := turn_launch_split hturn
        exact ⟨[], rest, rfl, hs, he, rfl, rfl⟩

/-- The size of an output. -/
theorem output_array_size {u : Nat} (htop : IsTopological g order) (hu : g.IsOp u)
    (hsmall : counter + data_scan.entries.length + g.num_vertices < 2 ^ 31)
    {m : Machine} (hsized : Sized g data_scan counter order order m) {before : List event}
    (hsub : ∀ ev ∈ before, ev ∈ order.flatMap (turn_events K g data_scan counter st order))
    (hmem : .output u (out_alias data_scan counter order u) ∈ before) :
    array_size data_scan m.dag before (out_alias data_scan counter order u) =
      some (calloc_size (rows g data_scan counter order u)) := by
  have hnode := hsized.nodes u ((htop.mem_iff u).mpr hu.1) hu
  refine array_size_eq hmem ?_ (fun ev hev n hn => ?_)
  · simp only [event.array_size, if_true, hnode]
  · cases ev with
    | place key a =>
      simp only [event.array_size] at hn
      split at hn
      · rename_i heq
        obtain ⟨hstart, hplaced⟩ := mem_turns_place.mp (hsub _ hev)
        obtain ⟨j, c, hj, he⟩ := mem_placed.mp hplaced
        obtain ⟨-, ha⟩ := event.place.inj he
        have hlt := (List.getElem?_eq_some_iff.mp hj).1
        exact absurd (heq.symm.trans ha)
          (out_alias_ne_column data_scan counter htop hstart hsmall hu hlt)
      · cases hn
    | output w a =>
      simp only [event.array_size] at hn
      split at hn
      · rename_i heq
        obtain ⟨hw, hs, he, ha⟩ := mem_turns_output.mp (hsub _ hev)
        have hw' : g.IsOp w := ⟨(htop.mem_iff w).mp hw, hs, he⟩
        have hsame := out_alias_inj data_scan counter htop hw' hu (ha.symm.trans heq)
        rw [hsame, hnode] at hn
        exact (Option.some.inj hn).symm
      · cases hn
    | execute w l => cases hn

/-- The size of a column. -/
theorem column_array_size (htop : IsTopological g order) (hq : IsQuery g)
    (hsmall : counter + data_scan.entries.length + g.num_vertices < 2 ^ 31)
    {dag : query_graph} {before : List event} {j : Nat} {c : Int × List Word}
    (hj : data_scan.entries[j]? = some c)
    (hsub : ∀ ev ∈ before, ev ∈ order.flatMap (turn_events K g data_scan counter st order))
    (hmem : .place c.1 (column_alias (counter_at data_scan counter order start_vertex) j) ∈ before) :
    array_size data_scan dag before
      (column_alias (counter_at data_scan counter order start_vertex) j) = some c.2.length := by
  have hstart := htop.start_mem hq
  have hlt := (List.getElem?_eq_some_iff.mp hj).1
  refine array_size_eq hmem ?_ (fun ev hev n hn => ?_)
  · simp only [event.array_size, if_true, data_scan.find_key hj, Option.map_some]
  · cases ev with
    | place key a =>
      simp only [event.array_size] at hn
      split at hn
      · rename_i heq
        obtain ⟨-, hplaced⟩ := mem_turns_place.mp (hsub _ hev)
        obtain ⟨i, d, hi, he⟩ := mem_placed.mp hplaced
        obtain ⟨rfl, ha⟩ := event.place.inj he
        have hlt' := (List.getElem?_eq_some_iff.mp hi).1
        have hsame : i = j := by
          have hboth := ha.symm.trans heq
          rw [column_alias_at data_scan counter htop hstart hsmall hlt,
            column_alias_at data_scan counter htop hstart hsmall hlt'] at hboth
          omega
        subst hsame
        rw [hj] at hi
        cases hi
        rw [data_scan.find_key hj, Option.map_some] at hn
        exact (Option.some.inj hn).symm
      · cases hn
    | output w a =>
      simp only [event.array_size] at hn
      split at hn
      · rename_i heq
        obtain ⟨hw, hs, he, ha⟩ := mem_turns_output.mp (hsub _ hev)
        exact absurd (ha.symm.trans heq) (out_alias_ne_column data_scan counter htop hstart hsmall
          ⟨(htop.mem_iff w).mp hw, hs, he⟩ hlt)
      · cases hn
    | execute w l => cases hn

/-- At the turn of an operation each of its arguments has its array. -/
theorem turn_launch_lengths (hg : IsPrimitiveGraph g data_scan) (htop : IsTopological g order)
    (hsmall : counter + data_scan.entries.length + g.num_vertices < 2 ^ 31)
    (hsplit : order = pre ++ v :: post) (hop : g.IsOp v) {m : Machine}
    (hsized : Sized g data_scan counter order order m) :
    (turn_launch K g data_scan counter st order v).args.map (array_size data_scan m.dag
        (pre.flatMap (turn_events K g data_scan counter st order) ++
          [.output v (out_alias data_scan counter order v)])) =
      (arg_lengths g data_scan counter order v).map some := by
  have hsub : ∀ ev ∈ pre.flatMap (turn_events K g data_scan counter st order) ++
      [.output v (out_alias data_scan counter order v)],
      ev ∈ order.flatMap (turn_events K g data_scan counter st order) := by
    intro ev hev
    rw [List.mem_flatMap]
    rcases List.mem_append.mp hev with hev | hev
    · obtain ⟨u, hu, hev⟩ := List.mem_flatMap.mp hev
      exact ⟨u, by rw [hsplit]; exact List.mem_append_left _ hu, hev⟩
    · refine ⟨v, (htop.mem_iff v).mpr hop.1, ?_⟩
      rw [List.mem_singleton.mp hev]
      simp [turn_events, hop.2.1, hop.2.2]
  rw [turn_launch_args hg.query hg.fresh htop hsmall hsplit hop, arg_lengths, List.map_append,
    List.map_append, List.map_map, List.map_map]
  congr 1
  · refine List.map_congr_left (fun e he => ?_)
    have hdone := htop.sources_done hsplit he
    obtain ⟨hlt, -⟩ := g.mem_in_edges.mp he
    simp only [Function.comp_apply]
    by_cases hs : g.source e = start_vertex
    · obtain ⟨j, c, hj, hptr, hsize⟩ := resolved_of_key
        (counter_at data_scan counter order start_vertex) data_scan.entries (g.edge e)
        (hg.keys e hlt hs)
      rw [edge_alias, if_pos hs, hptr, edge_length, if_pos hs, column_size, hsize]
      refine column_array_size htop hg.query hsmall hj hsub (List.mem_append_left _ ?_)
      exact mem_turns_place.mpr ⟨hs ▸ hdone, mem_placed.mpr ⟨j, c, hj, rfl⟩⟩
    · have hsource := hg.query.source_isOp hlt hs
      rw [edge_alias, if_neg hs, edge_length, if_neg hs]
      refine output_array_size htop hsource hsmall hsized hsub (List.mem_append_left _ ?_)
      exact mem_turns_output.mpr ⟨hdone, hs, hsource.2.2, rfl⟩
  · simp only [List.map_cons, List.map_nil]
    rw [output_array_size htop hop hsmall hsized hsub (by simp)]

/-- A call on arrays of these lengths, whatever words they hold. -/
theorem execute_inside_iff {n : primitive_node} {k : Primitive} (hruns : n.Runs k)
    (lengths : List Nat) (size : Nat) :
    (∀ arrays : List (List Word), arrays.map List.length = lengths →
      (cpp_layer.execute n.mKernelName arrays n.additional_parameters size).isSome) ↔
      k.Fits lengths size := by
  have hcall (arrays : List (List Word)) :
      (cpp_layer.execute n.mKernelName arrays n.additional_parameters size).isSome ↔
        k.Fits (arrays.map List.length) size := by
    rw [cpp_layer.execute, hruns.kernel, cpp_layer.mKernelDictionary_name, Option.bind_some]
    exact k.call_isSome arrays _ size (by rw [List.length_map]; exact hruns.parameters)
  constructor
  · intro h
    have hzeros : (lengths.map (fun n => List.replicate n (0 : Word))).map List.length = lengths := by
      simp [Function.comp_def]
    have hfits := (hcall _).mp (h _ hzeros)
    rwa [hzeros] at hfits
  · rintro hfits arrays rfl
    exact (hcall arrays).mpr hfits

theorem IsPrimitiveGraph.default_sizes (hg : IsPrimitiveGraph g data_scan) : DefaultSizes g := by
  intro v hop
  obtain ⟨k, hruns⟩ := hg.primitives v hop
  exact ⟨hruns.input_size, hruns.output_size⟩

/-- The launch of an operation, on arrays that are as long as its arguments. -/
theorem turn_launch_inside_iff (hg : IsPrimitiveGraph g data_scan) (htop : IsTopological g order)
    (hsmall : counter + data_scan.entries.length + g.num_vertices < 2 ^ 31)
    (hsplit : order = pre ++ v :: post) (hop : g.IsOp v) {k : Primitive}
    (hruns : (g.vertex v).Runs k) :
    (∀ arrays : List (List Word),
      arrays.map List.length = arg_lengths g data_scan counter order v →
      (cpp_layer.execute (turn_launch K g data_scan counter st order v).kernel arrays
        (turn_launch K g data_scan counter st order v).params
        (turn_launch K g data_scan counter st order v).globalSize).isSome) ↔
      k.Fits (arg_lengths g data_scan counter order v)
        (rows g data_scan counter order v / k.ratio) := by
  obtain ⟨hkernel, hparams, hsize⟩ :=
    turn_launch_eq K st hg.query hg.default_sizes htop hsmall hsplit hop
  rw [hkernel, hparams, hsize, hruns.ratio]
  exact execute_inside_iff hruns _ _

/-- The log of a run up to the launch of an operation. -/
theorem trace_split (hq : IsQuery g) (htop : IsTopological g order)
    (hsmall : counter + data_scan.entries.length + g.num_vertices < 2 ^ 31)
    (hsplit : order = pre ++ v :: post) (hop : g.IsOp v) :
    (execute_graph K data_scan order (.before g counter st)).trace =
      (pre.flatMap (turn_events K g data_scan counter st order) ++
        [.output v (out_alias data_scan counter order v)]) ++
      .execute v (turn_launch K g data_scan counter st order v) ::
        post.flatMap (turn_events K g data_scan counter st order) := by
  have htrace := (wired_after K st hq htop hsmall order [] (by simp)).trace_eq
  rw [after] at htrace
  rw [htrace]
  conv_lhs => arg 2; rw [hsplit]
  simp [turn_events, hop.2.1, hop.2.2]

/-- When the launches stay inside of their arrays, those of an operation fit its loop. -/
theorem fits_of_inside (hg : IsPrimitiveGraph g data_scan) (htop : IsTopological g order)
    (hsmall : counter + data_scan.entries.length + g.num_vertices < 2 ^ 31)
    (h : LaunchesInside data_scan (execute_graph K data_scan order (.before g counter st)))
    (hop : g.IsOp v) {k : Primitive} (hruns : (g.vertex v).Runs k) :
    k.Fits (arg_lengths g data_scan counter order v)
      (rows g data_scan counter order v / k.ratio) := by
  obtain ⟨pre, post, hsplit⟩ := List.append_of_mem ((htop.mem_iff v).mpr hop.1)
  have hsized := sized_after K st hg.query hg.default_sizes htop hsmall order [] (by simp)
  rw [after] at hsized
  have henv : (turn_launch K g data_scan counter st order v).envi_type ≠ 0 := by
    rw [turn_launch, launch_of, hg.environment]
    exact one_ne_zero
  obtain ⟨lengths, hargs, hinside⟩ := h _ v _ _ (trace_split hg.query htop hsmall hsplit hop) henv
  rw [turn_launch_lengths hg htop hsmall hsplit hop hsized] at hargs
  have hlengths := (List.map_injective_iff.mpr (Option.some_injective Nat)) hargs
  rw [← hlengths] at hinside
  exact (turn_launch_inside_iff hg htop hsmall hsplit hop hruns).mp hinside

/-- When the arrays of each operation fit its loop, the launches stay inside of them. -/
theorem inside_of_fits (hg : IsPrimitiveGraph g data_scan) (htop : IsTopological g order)
    (hsmall : counter + data_scan.entries.length + g.num_vertices < 2 ^ 31)
    (h : ∀ v k, g.IsOp v → (g.vertex v).Runs k →
      k.Fits (arg_lengths g data_scan counter order v)
        (rows g data_scan counter order v / k.ratio)) :
    LaunchesInside data_scan (execute_graph K data_scan order (.before g counter st)) := by
  intro before v l after' hlog _
  have htrace := (wired_after K st hg.query htop hsmall order [] (by simp)).trace_eq
  have hsized := sized_after K st hg.query hg.default_sizes htop hsmall order [] (by simp)
  rw [after] at htrace hsized
  rw [htrace] at hlog
  obtain ⟨pre, post, hsplit, hs, he, rfl, rfl⟩ := launch_split hlog
  have hop : g.IsOp v := ⟨(htop.mem_iff v).mp (by simp [hsplit]), hs, he⟩
  obtain ⟨k, hruns⟩ := hg.primitives v hop
  exact ⟨_, turn_launch_lengths hg htop hsmall hsplit hop hsized,
    (turn_launch_inside_iff hg htop hsmall hsplit hop hruns).mpr (h v k hop hruns)⟩

end log

/-- The launches of a graph of primitives stay inside of their arrays if and only if, at each
operation, the arrays are long enough for a loop of its size: the longest column that reaches the
operation, divided by its ratio. -/
theorem launches_stay_inside_iff (K : Kernels) (g : query_graph) (data_scan : ScanMap)
    (counter : Nat) (st : Stores) (order : List Nat) (hg : IsPrimitiveGraph g data_scan)
    (htop : IsTopological g order)
    (hsmall : counter + data_scan.entries.length + g.num_vertices < 2 ^ 31) :
    LaunchesInside data_scan (execute_graph K data_scan order (.before g counter st)) ↔
      ∀ v k, g.IsOp v → (g.vertex v).Runs k →
        k.Fits (arg_lengths g data_scan counter order v)
          (rows g data_scan counter order v / k.ratio) :=
  ⟨fun h _ _ hop hruns => fits_of_inside hg htop hsmall h hop hruns, inside_of_fits hg htop hsmall⟩

/-! ## The columns of one table -/

section table

variable {g : query_graph} {data_scan : ScanMap} {counter : Nat} {order pre post : List Nat}
variable {v n : Nat}

theorem Reaches.is_column {e : Nat} (h : Reaches g e v) :
    e < g.ends.length ∧ g.source e = start_vertex := by
  induction h with
  | scan hlt hs => exact ⟨hlt, hs⟩
  | through e' _ _ ih => exact ih

/-- When every operation has an input, each of them is reached by a column. -/
theorem reached (hq : IsQuery g) (htop : IsTopological g order)
    (hinput : ∀ v, g.IsOp v → g.in_edges v ≠ []) (hsplit : order = pre ++ v :: post)
    (hop : g.IsOp v) : ∃ e, Reaches g e v := by
  induction hlength : pre.length using Nat.strong_induction_on generalizing pre post v with
  | _ length ih =>
    subst hlength
    obtain ⟨e, he⟩ := List.exists_mem_of_ne_nil _ (hinput v hop)
    obtain ⟨hlt, rfl⟩ := g.mem_in_edges.mp he
    by_cases hs : g.source e = start_vertex
    · exact ⟨e, .scan e hlt hs⟩
    · obtain ⟨p, q, rfl⟩ := List.append_of_mem (htop.sources_done hsplit he)
      have hsplit' : order = p ++ g.source e :: (q ++ g.target e :: post) := by simpa using hsplit
      have hsource := hq.source_isOp hlt hs
      obtain ⟨e', hreaches⟩ := ih p.length (by simp) hsplit' hsource rfl
      exact ⟨e', .through e' e hreaches hlt⟩

/-- A scan edge carries a column of the table. -/
theorem column_size_of_table (hg : IsPrimitiveGraph g data_scan)
    (htable : ∀ c ∈ data_scan.entries, c.2.length = n) {e : Nat} (hlt : e < g.ends.length)
    (hs : g.source e = start_vertex) : column_size g data_scan counter order e = n := by
  obtain ⟨j, c, hj, -, hsize⟩ := resolved_of_key (counter_at data_scan counter order start_vertex)
    data_scan.entries (g.edge e) (hg.keys e hlt hs)
  rw [column_size, hsize, htable c (List.mem_of_getElem? hj)]

/-- Each operation has the size of the table. -/
theorem rows_of_table (hg : IsPrimitiveGraph g data_scan) (htop : IsTopological g order)
    (hinput : ∀ v, g.IsOp v → g.in_edges v ≠ []) (hpos : 0 < n)
    (htable : ∀ c ∈ data_scan.entries, c.2.length = n) (hop : g.IsOp v) :
    rows g data_scan counter order v = n := by
  obtain ⟨pre, post, hsplit⟩ := List.append_of_mem ((htop.mem_iff v).mpr hop.1)
  obtain ⟨e, hreaches⟩ := reached hg.query htop hinput hsplit hop
  have hcolumn {e : Nat} (h : Reaches g e v) : column_size g data_scan counter order e = n :=
    column_size_of_table hg htable h.is_column.1 h.is_column.2
  obtain ⟨hmem, hupper⟩ := @rows_is_longest g data_scan counter order v hg.query htop hop.1
  have hle := hupper (.inr ⟨e, hreaches, rfl⟩)
  rw [hcolumn hreaches] at hle
  rcases hmem with hone | ⟨e', hreaches', heq⟩
  · omega
  · rw [heq, hcolumn hreaches']

/-- Each argument has the length of the table. -/
theorem arg_lengths_of_table (hg : IsPrimitiveGraph g data_scan) (htop : IsTopological g order)
    (hinput : ∀ v, g.IsOp v → g.in_edges v ≠ []) (hpos : 0 < n) (hn : n < 2 ^ 32)
    (htable : ∀ c ∈ data_scan.entries, c.2.length = n) (hop : g.IsOp v) :
    arg_lengths g data_scan counter order v = List.replicate ((g.in_edges v).length + 1) n := by
  have hcalloc : calloc_size n = n := Nat.mod_eq_of_lt hn
  rw [List.eq_replicate_iff]
  refine ⟨by simp [arg_lengths], fun length hmem => ?_⟩
  rcases List.mem_append.mp hmem with hin | hout
  · obtain ⟨e, he, rfl⟩ := List.mem_map.mp hin
    obtain ⟨hlt, -⟩ := g.mem_in_edges.mp he
    unfold edge_length
    split
    · rename_i hs
      exact column_size_of_table hg htable hlt hs
    · rename_i hs
      have hends := g.ends_mem hlt
      rw [rows_of_table hg htop hinput hpos htable
        ⟨(hg.query.ends_lt _ hends).1, hs, hg.query.display_last _ hends⟩, hcalloc]
  · rw [List.mem_singleton.mp hout, rows_of_table hg htop hinput hpos htable hop, hcalloc]

/-- Arrays of one length fit the loop over their rows. -/
theorem fits_of_table {k : Primitive} {inputs : Nat} (hinputs : k.no_of_inputs ≤ inputs)
    (hn : n < 2 ^ 31) : k.Fits (List.replicate (inputs + 1) n) (n / k.ratio) := by
  have hget (i : Nat) (hi : i < inputs + 1) : (List.replicate (inputs + 1) n).getD i 0 = n := by
    rw [List.getD_eq_getElem?_getD, List.getElem?_replicate_of_lt hi, Option.getD_some]
  have hone := k.no_of_inputs_pos
  have h0 := hget 0 (by omega)
  have h1 := hget 1 (by omega)
  have h2 (htwo : 2 ≤ inputs) := hget 2 (by omega)
  have hblock : n / 32 ≤ 2 ^ 26 ∧ 32 * (n / 32) ≤ n ∧ n / 32 ≤ n := by omega
  cases k with
  | selection_between_block | selection_less_than_block | selection_greater_than_block =>
    rw [Primitive.Fits, h0, h1]
    exact hblock
  | logical_block | logical_block_or | arith_sum | arith_mul =>
    rw [Primitive.Fits, h0, h1, h2 hinputs, Primitive.ratio, Nat.div_one]
    exact ⟨hn, Nat.le_refl n, Nat.le_refl n, Nat.le_refl n⟩
  | materialize =>
    rw [Primitive.Fits, h0, h1, h2 hinputs]
    exact ⟨hblock.1, hblock.2.1, hblock.2.2, hblock.2.1⟩
  | aggregate_block =>
    rw [Primitive.Fits, h0, h1]
    exact ⟨hblock.1, hblock.2.1, Nat.le_trans (Nat.min_le_left _ 1) hblock.2.2⟩

/-- Over the columns of one table, the launches stay inside of their arrays. -/
theorem launches_of_one_table_stay_inside (K : Kernels) (st : Stores)
    (hg : IsPrimitiveGraph g data_scan) (htop : IsTopological g order)
    (hsmall : counter + data_scan.entries.length + g.num_vertices < 2 ^ 31)
    (hinputs : ∀ v k, g.IsOp v → (g.vertex v).Runs k → k.no_of_inputs ≤ (g.in_edges v).length)
    (hpos : 0 < n) (hn : n < 2 ^ 31) (htable : ∀ c ∈ data_scan.entries, c.2.length = n) :
    LaunchesInside data_scan (execute_graph K data_scan order (.before g counter st)) := by
  have hinput : ∀ v, g.IsOp v → g.in_edges v ≠ [] := by
    intro v hop hnil
    obtain ⟨k, hruns⟩ := hg.primitives v hop
    have hle := hinputs v k hop hruns
    rw [hnil, List.length_nil] at hle
    exact absurd k.no_of_inputs_pos (Nat.not_lt.mpr hle)
  refine inside_of_fits hg htop hsmall (fun v k hop hruns => ?_)
  rw [arg_lengths_of_table hg htop hinput hpos (by omega) htable hop,
    rows_of_table hg htop hinput hpos htable hop]
  exact fits_of_table (hinputs v k hop hruns) hn

end table

/-! ## A product of two columns -/

/-- The plan of one product: `arith_mul` reads the columns of the keys 1 and 2. -/
def product_graph : query_graph :=
  { (((query_graph.empty.add_vertex
      { primitive_node.fresh "arith_mul" with no_of_input_required := 2 }).add_edge
    start_vertex 2 (data_edge.fresh 1)).add_edge
    start_vertex 2 (data_edge.fresh 2)).add_edge
    2 end_vertex (data_edge.fresh 0) with execution_environment := 1 }

theorem product_columns_sorted (a b : List Word) :
    [((1 : Int), a), (2, b)].Pairwise (fun c d => c.1 < d.1) :=
  List.pairwise_pair.mpr (Int.lt_succ 1)

theorem product_keys_are_ints (a b : List Word) :
    ∀ c ∈ [((1 : Int), a), (2, b)], -2 ^ 31 ≤ c.1 ∧ c.1 < 2 ^ 31 := by
  intro c hc
  rcases List.mem_pair.mp hc with rfl | rfl <;> simp only <;> omega

def product_scan (a b : List Word) : ScanMap where
  entries := [(1, a), (2, b)]
  sorted := product_columns_sorted a b
  int_keys := product_keys_are_ints a b

/-- The words that a call of a primitive leaves in its last argument. -/
def primitive_run : kernel_run := fun kernel arrays params size =>
  (cpp_layer.execute kernel arrays params size).bind List.getLast?

/-- The topological order of the plan. -/
def product_queue : List Nat := [start_vertex, 2, end_vertex]

theorem product_graph_isOp {v : Nat} : product_graph.IsOp v ↔ v = 2 := by
  have hthree : product_graph.num_vertices = 3 := rfl
  unfold query_graph.IsOp
  rw [hthree, start_vertex, end_vertex]
  omega

theorem product_graph_runs : (product_graph.vertex 2).Runs .arith_mul where
  kernel := rfl
  ratio := rfl
  parameters := Nat.zero_le 0
  input_size := rfl
  output_size := rfl

theorem product_graph_is_primitive (a b : List Word) :
    IsPrimitiveGraph product_graph (product_scan a b) where
  query :=
    { two_le := by decide
      scan_name := rfl
      display_name := rfl
      op_name := by
        intro v hop
        rw [product_graph_isOp.mp hop, product_graph_runs.kernel]
        simp [Primitive.name]
      ends_lt := by decide
      scan_first := by decide
      display_last := by decide }
  fresh := by
    intro v hop
    rw [product_graph_isOp.mp hop]
    exact ⟨rfl, rfl⟩
  environment := rfl
  primitives := by
    intro v hop
    rw [product_graph_isOp.mp hop]
    exact ⟨.arith_mul, product_graph_runs⟩
  keys := by
    intro e he hs
    have hthree : product_graph.ends.length = 3 := rfl
    rw [hthree] at he
    have hcases : e = 0 ∨ e = 1 ∨ e = 2 := by omega
    rcases hcases with rfl | rfl | rfl
    · exact ⟨(1, a), by simp [product_scan], rfl⟩
    · exact ⟨(2, b), by simp [product_scan], rfl⟩
    · exact absurd hs (by decide)

theorem product_queue_is_topological : IsTopological product_graph product_queue where
  perm := by decide
  forward := by decide

/-- The two columns have the same length. -/
theorem two_columns_of_one_length :
    LaunchesInside (product_scan [3, 5] [7, 11])
      (execute_graph ⟨primitive_run, primitive_run⟩ (product_scan [3, 5] [7, 11]) product_queue
        (.before product_graph 0 ⟨∅, ∅⟩)) := by
  refine (launches_stay_inside_iff _ product_graph _ 0 ⟨∅, ∅⟩ product_queue
    (product_graph_is_primitive _ _) product_queue_is_topological (by decide)).mpr ?_
  intro v k hop hruns
  rw [product_graph_isOp.mp hop] at hruns ⊢
  rw [← product_graph_runs.unique hruns]
  have hlengths : arg_lengths product_graph (product_scan [3, 5] [7, 11]) 0 product_queue 2 =
      [2, 2, 2] := by decide
  have hrows : rows product_graph (product_scan [3, 5] [7, 11]) 0 product_queue 2 = 2 := by decide
  rw [hlengths, hrows]
  exact ⟨by decide, by decide, by decide, by decide⟩

/-- A column of two words by one of one word: the loop has two turns, and the second one reads
behind the shorter column. -/
theorem a_launch_reads_behind_the_shorter_column :
    IsPrimitiveGraph product_graph (product_scan [3, 5] [7]) ∧
      IsTopological product_graph product_queue ∧
      ¬ LaunchesInside (product_scan [3, 5] [7])
        (execute_graph ⟨primitive_run, primitive_run⟩ (product_scan [3, 5] [7]) product_queue
          (.before product_graph 0 ⟨∅, ∅⟩)) := by
  have hg := product_graph_is_primitive [3, 5] [7]
  have htop := product_queue_is_topological
  refine ⟨hg, htop, fun hinside => ?_⟩
  have hfits := fits_of_inside hg htop (by decide) hinside (product_graph_isOp.mpr rfl)
    product_graph_runs
  have hlengths : arg_lengths product_graph (product_scan [3, 5] [7]) 0 product_queue 2 =
      [2, 1, 2] := by decide
  have hrows : rows product_graph (product_scan [3, 5] [7]) 0 product_queue 2 = 2 := by decide
  rw [hlengths, hrows] at hfits
  exact absurd hfits.2.2.1 (by decide)

end hero.runtime_layer
