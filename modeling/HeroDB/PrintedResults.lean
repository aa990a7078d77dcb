-- The results that `print_result` prints: the columns that `display_result` has fetched since
-- `results` was cleared, over any sequence of runs.
import HeroDB.GraphSteps
import Mathlib.Data.List.TakeDrop

namespace hero.runtime_layer

/-! ## Printing -/

/-- One line: element `i` of each column. Behind its column, or behind the last `int`, the access is
undefined behaviour. -/
def print_line (results : List (List Word)) (i : Nat) : Option (List Word) :=
  results.mapM (fun result_column => if i < 2 ^ 31 then result_column[i]? else none)

/-- The lines, and the number of values below them. -/
def print_result (m : Machine) : Option (List (List Word) × Nat) :=
  ((List.range m.total_result_size).mapM (print_line m.results)).map
    (fun lines => (lines, m.total_result_size))

/-! ## Sequences of runs -/

inductive Action
  | execute_graph (g : query_graph) (K : Kernels) (data_scan : ScanMap) (process_queue : List Nat)
  | clear_results

def Machine.act (m : Machine) : Action → Machine
  | .execute_graph g K data_scan process_queue =>
    execute_graph K data_scan process_queue { m with dag := g }
  | .clear_results => { m with results := [] }

/-- The globals after some runs. -/
def Machine.acts (m : Machine) (actions : List Action) : Machine := actions.foldl Machine.act m

/-- The sizes of the result edges, as `display_result` passes them on. -/
def display_sizes (m : Machine) : List Nat :=
  (m.dag.in_edges end_vertex).map (fun e => size_of_int (int_of_size (m.dag.edge e).data_size))

/-- The sizes of the result edges that the turn of a vertex displays. -/
def vertex_sizes (m : Machine) (v : Nat) : List Nat :=
  if (m.dag.vertex v).mKernelName = "data_scan" then []
  else if (m.dag.vertex v).mKernelName = "data_display" then display_sizes m
  else []

/-- The sizes of the result edges that a run displays. -/
def run_sizes (K : Kernels) (data_scan : ScanMap) : List Nat → Machine → List Nat
  | [], _ => []
  | v :: rest, m => vertex_sizes m v ++ run_sizes K data_scan rest (execute_vertex K data_scan m v)

/-- The sizes of the result edges that were displayed since `results` was cleared. -/
def sizes_after (m : Machine) (sizes : List Nat) : Action → List Nat
  | .execute_graph g K data_scan process_queue =>
    sizes ++ run_sizes K data_scan process_queue { m with dag := g }
  | .clear_results => []

def displayed_sizes : Machine → List Nat → List Action → List Nat
  | _, sizes, [] => sizes
  | m, sizes, a :: rest => displayed_sizes (m.act a) (sizes_after m sizes a) rest

/-! ## What print_result reads -/

theorem mapM_isSome_iff {α β : Type} {f : α → Option β} {l : List α} :
    (l.mapM f).isSome ↔ ∀ x ∈ l, (f x).isSome := by
  induction l with
  | nil => simp
  | cons x rest ih =>
    rw [List.mapM_cons, List.forall_mem_cons, ← ih]
    cases f x with
    | none => simp
    | some y => cases rest.mapM f <;> simp

theorem print_line_isSome_iff {results : List (List Word)} {i : Nat} :
    (print_line results i).isSome ↔ ∀ column ∈ results, i < 2 ^ 31 ∧ i < column.length := by
  rw [print_line, mapM_isSome_iff]
  refine forall₂_congr fun column _ => ?_
  split
  · rename_i hint
    simp only [hint, true_and, isSome_getElem?]
  · rename_i hint
    simp only [hint, false_and, Option.isSome_none, Bool.false_eq_true]

theorem print_result_isSome_iff {m : Machine} :
    (print_result m).isSome ↔
      ∀ column ∈ m.results, m.total_result_size ≤ 2 ^ 31 ∧ m.total_result_size ≤ column.length := by
  rw [print_result, Option.isSome_map, mapM_isSome_iff]
  simp only [List.mem_range, print_line_isSome_iff]
  constructor
  · intro h column hcolumn
    rcases Nat.eq_zero_or_pos m.total_result_size with hzero | hpos
    · omega
    · have hlast := h (m.total_result_size - 1) (by omega) column hcolumn
      omega
  · intro h i hi column hcolumn
    have hall := h column hcolumn
    omega

/-! ## One turn -/

/-- The columns have these sizes, and the last one is the global size. -/
structure Shows (m : Machine) (sizes : List Nat) : Prop where
  columns : m.results.map List.length = sizes
  last : ∀ n ∈ sizes.getLast?, m.total_result_size = n

section turns

variable {K : Kernels} {data_scan : ScanMap} {v e : Nat} {m : Machine} {sizes : List Nat}

/-- A turn that changes neither the results nor their size. -/
theorem Shows.frame {m' : Machine} (h : Shows m sizes) (hresults : m'.results = m.results)
    (hsize : m'.total_result_size = m.total_result_size) : Shows m' sizes :=
  ⟨by rw [hresults, h.columns], fun n hn => by rw [hsize, h.last n hn]⟩

/-- A turn that adds a column and takes its size. -/
theorem Shows.snoc {m' : Machine} {column : List Word} {size : Nat} (h : Shows m sizes)
    (hresults : m'.results = m.results ++ [column]) (hlength : column.length = size)
    (hsize : m'.total_result_size = size) : Shows m' (sizes ++ [size]) := by
  constructor
  · rw [hresults, List.map_append, h.columns, List.map_singleton, hlength]
  · intro n hn
    rw [List.getLast?_concat, Option.mem_some_iff] at hn
    rw [hsize, hn]

theorem get_data_length {o : openCL_layer.cl_outcome} {d : openCL_layer.DataDictionary} {name : Int}
    {dev : Device} {size : Nat} {column : List Word}
    (h : openCL_layer.get_data o d name dev size = some column) : column.length = size := by
  obtain ⟨buffer, -, rfl⟩ := Option.map_eq_some_iff.mp h
  split
  · exact List.takeD_length ..
  · exact List.length_replicate

theorem cpp_get_data_length {d : cpp_layer.DataDictionary} {name : Int} {size : Nat}
    {column : List Word} (h : cpp_layer.get_data d name size = some column) :
    column.length = size := by
  obtain ⟨array, -, h⟩ := Option.bind_eq_some_iff.mp h
  split at h
  · obtain rfl := Option.some.inj h
    rw [List.length_take]
    omega
  · cases h

/-- The size of a result edge. -/
def result_size (m : Machine) (e : Nat) : Nat := size_of_int (int_of_size (m.dag.edge e).data_size)

/-- The column that a result edge fetches. -/
def fetched_column (m : Machine) (e : Nat) : Option (List Word) :=
  m.stores.bind (fun st =>
    if m.dag.execution_environment = 0 then
      openCL_layer.get_data openCL_layer.cl_success st.openCL (m.dag.edge e).data_pointer
        (m.dag.vertex (m.dag.source e)).device (result_size m e)
    else cpp_layer.get_data st.cpp (m.dag.edge e).data_pointer (result_size m e))

theorem display_edge_stores : (display_edge m e).stores =
    if (fetched_column m e).isSome then m.stores else none := rfl

theorem display_edge_results :
    (display_edge m e).results = m.results ++ (fetched_column m e).toList := rfl

theorem display_edge_size : (display_edge m e).total_result_size = result_size m e := by
  simp only [display_edge, result_size]

theorem fetched_length {column : List Word} (h : fetched_column m e = some column) :
    column.length = result_size m e := by
  obtain ⟨st, -, hget⟩ := Option.bind_eq_some_iff.mp h
  split at hget
  · exact get_data_length hget
  · exact cpp_get_data_length hget

/-- The turn of one result edge, unless it is undefined. -/
theorem display_edge_shows (h : m.stores.isSome → Shows m sizes)
    (hstores : (display_edge m e).stores.isSome) :
    m.stores.isSome ∧ Shows (display_edge m e) (sizes ++ [result_size m e]) := by
  rw [display_edge_stores] at hstores
  cases hcolumn : fetched_column m e with
  | none =>
    rw [hcolumn] at hstores
    cases hstores
  | some column =>
    have hs : m.stores.isSome := by simpa [hcolumn] using hstores
    have hresults : (display_edge m e).results = m.results ++ [column] := by
      rw [display_edge_results, hcolumn, Option.toList_some]
    exact ⟨hs, (h hs).snoc hresults (fetched_length hcolumn) display_edge_size⟩

/-- The loop of `display_result`. -/
theorem display_edges_shows (es : List Nat) (h : m.stores.isSome → Shows m sizes)
    (hstores : (es.foldl display_edge m).stores.isSome) :
    m.stores.isSome ∧ Shows (es.foldl display_edge m)
      (sizes ++ es.map (result_size m)) := by
  induction es generalizing m sizes with
  | nil => exact ⟨hstores, by simpa using h hstores⟩
  | cons e rest ih =>
    rw [List.foldl_cons] at hstores ⊢
    have hedge : (display_edge m e).stores.isSome → _ := fun hs => (display_edge_shows h hs).2
    obtain ⟨hs, hshows⟩ := ih hedge hstores
    refine ⟨(display_edge_shows h hs).1, ?_⟩
    rw [List.append_assoc] at hshows
    exact hshows

@[simp] theorem modify_edges_total (es : List Nat) (f : data_edge → data_edge) :
    (m.modify_edges es f).total_result_size = m.total_result_size := by
  obtain ⟨edge, h⟩ := Machine.modify_edges_eq m es f
  rw [h]

theorem load_column_total (c : Int × List Word) :
    (load_column v m c).total_result_size = m.total_result_size := by
  simp [load_column, Machine.log, Machine.modify_vertex, place_data, get_alias]

theorem load_data_total : (load_data data_scan v m).total_result_size = m.total_result_size := by
  have hcolumns : ∀ (cs : List (Int × List Word)) (m : Machine),
      (cs.foldl (load_column v) m).total_result_size = m.total_result_size := by
    intro cs
    induction cs with
    | nil => exact fun _ => rfl
    | cons c rest ih =>
      intro m
      rw [List.foldl_cons, ih, load_column_total]
  exact hcolumns _ _

theorem load_data_defined (hstores : (load_data data_scan v m).stores.isSome) : m.stores.isSome := by
  have hcolumns : ∀ (cs : List (Int × List Word)) (m : Machine),
      (cs.foldl (load_column v) m).stores.isSome → m.stores.isSome := by
    intro cs
    induction cs with
    | nil => exact fun _ h => h
    | cons c rest ih =>
      intro m h
      have hcolumn := ih _ h
      rwa [load_column_stores, Option.isSome_map] at hcolumn
  exact hcolumns data_scan.entries (m.modify_vertex v _) hstores

theorem set_input_defined (hstores : (set_input v m).stores.isSome) : m.stores.isSome := by
  have hedges : ∀ (es : List Nat) (m : Machine),
      (es.foldl (set_input_edge v) m).stores.isSome → m.stores.isSome := by
    intro es
    induction es with
    | nil => exact fun _ h => h
    | cons e rest ih =>
      intro m h
      have hedge := ih _ h
      simp only [set_input_edge, transfer_input] at hedge
      cases hs : m.stores with
      | none => simp [hs] at hedge
      | some st => rfl
  exact hedges _ _ hstores

theorem operate_total : (operate K v m).total_result_size = m.total_result_size := by
  obtain ⟨stores, h⟩ := set_input_edges_eq v (m.dag.in_edges v) m
  have hset : (set_input v m).total_result_size = m.total_result_size := by rw [set_input, h]
  rw [← hset]
  simp [operate, execute_node, compile_task, prepare_output_buffer, prepare_output, get_alias,
    Machine.log]

theorem operate_defined (hstores : (operate K v m).stores.isSome) : m.stores.isSome := by
  refine set_input_defined (v := v) ?_
  have hbuffer : (prepare_output_buffer v (set_input v m)).stores.isSome := by
    rw [operate, execute_node] at hstores
    cases hs : (prepare_output_buffer v (set_input v m)).stores with
    | none => simp [hs] at hstores
    | some st => rfl
  rwa [prepare_output_buffer_stores, Option.isSome_map] at hbuffer

/-- One turn of the loop of `execute_graph`, unless it is undefined. -/
theorem execute_vertex_shows (h : m.stores.isSome → Shows m sizes)
    (hstores : (execute_vertex K data_scan m v).stores.isSome) :
    m.stores.isSome ∧
      Shows (execute_vertex K data_scan m v) (sizes ++ vertex_sizes m v) := by
  unfold execute_vertex at hstores ⊢
  unfold vertex_sizes
  split at hstores
  · rename_i hscan
    have hs := load_data_defined hstores
    rw [if_pos hscan, if_pos hscan, List.append_nil]
    exact ⟨hs, (h hs).frame (load_data_results ..) load_data_total⟩
  · rename_i hscan
    rw [if_neg hscan, if_neg hscan]
    split at hstores
    · rename_i hdisplay
      rw [if_pos hdisplay, if_pos hdisplay]
      exact display_edges_shows _ h hstores
    · rename_i hdisplay
      have hs := operate_defined hstores
      rw [if_neg hdisplay, if_neg hdisplay, List.append_nil]
      exact ⟨hs, (h hs).frame (operate_results ..) operate_total⟩

/-- The loop of `execute_graph`. -/
theorem execute_graph_shows (process_queue : List Nat) (h : m.stores.isSome → Shows m sizes)
    (hstores : (execute_graph K data_scan process_queue m).stores.isSome) :
    m.stores.isSome ∧ Shows (execute_graph K data_scan process_queue m)
      (sizes ++ run_sizes K data_scan process_queue m) := by
  induction process_queue generalizing m sizes with
  | nil =>
    rw [run_sizes, List.append_nil]
    exact ⟨hstores, h hstores⟩
  | cons v rest ih =>
    have hturn : (execute_vertex K data_scan m v).stores.isSome → _ := fun hs =>
      (execute_vertex_shows h hs).2
    obtain ⟨hs, hshows⟩ := ih hturn hstores
    refine ⟨(execute_vertex_shows h hs).1, ?_⟩
    rw [List.append_assoc] at hshows
    exact hshows

end turns

/-! ## Every sequence of runs -/

section histories

variable {m : Machine} {sizes : List Nat}

theorem act_shows (a : Action) (h : m.stores.isSome → Shows m sizes)
    (hstores : (m.act a).stores.isSome) :
    m.stores.isSome ∧ Shows (m.act a) (sizes_after m sizes a) := by
  cases a with
  | execute_graph g K data_scan process_queue =>
    have hbefore : ({ m with dag := g } : Machine).stores.isSome →
        Shows { m with dag := g } sizes := fun hs => (h hs).frame rfl rfl
    exact execute_graph_shows process_queue hbefore hstores
  | clear_results =>
    refine ⟨hstores, rfl, ?_⟩
    intro n hn
    cases hn

theorem acts_show (actions : List Action) (h : m.stores.isSome → Shows m sizes)
    (hstores : (m.acts actions).stores.isSome) :
    Shows (m.acts actions) (displayed_sizes m sizes actions) := by
  induction actions generalizing m sizes with
  | nil => exact h hstores
  | cons a rest ih => exact ih (fun hs => (act_shows a h hs).2) hstores

/-- The columns are long enough for the last size that was displayed. -/
theorem Shows.print_iff (h : Shows m sizes) :
    (print_result m).isSome ↔
      ∀ last ∈ sizes.getLast?, last ≤ 2 ^ 31 ∧ ∀ n ∈ sizes, last ≤ n := by
  rw [print_result_isSome_iff]
  have hlength : ∀ n, n ∈ sizes ↔ ∃ column ∈ m.results, column.length = n := fun n => by
    rw [← h.columns, List.mem_map]
  constructor
  · intro hprint last hlast
    rw [← h.last last hlast]
    obtain ⟨column, hcolumn, -⟩ := (hlength last).mp (List.mem_of_getLast? hlast)
    refine ⟨(hprint column hcolumn).1, fun n hn => ?_⟩
    obtain ⟨column, hcolumn, rfl⟩ := (hlength n).mp hn
    exact (hprint column hcolumn).2
  · intro hsizes column hcolumn
    have hmem := (hlength column.length).mpr ⟨column, hcolumn, rfl⟩
    obtain ⟨last, hlast⟩ : ∃ last, last ∈ sizes.getLast? :=
      Option.ne_none_iff_exists'.mp (fun hnone => by
        rw [List.getLast?_eq_none_iff] at hnone
        rw [hnone] at hmem
        cases hmem)
    rw [h.last last hlast]
    exact ⟨(hsizes last hlast).1, (hsizes last hlast).2 _ hmem⟩

end histories

/-- After any sequence of runs without undefined behaviour, `print_result` stays within the fetched
columns if and only if the last size that was displayed is the smallest one since `results` was
cleared, and an `int`. -/
theorem prints_fetched_results_iff (g : query_graph) (counter : Nat) (st : Stores)
    (actions : List Action)
    (hdefined : ((Machine.before g counter st).acts actions).stores.isSome) :
    (print_result ((Machine.before g counter st).acts actions)).isSome ↔
      ∀ last ∈ (displayed_sizes (Machine.before g counter st) [] actions).getLast?,
        last ≤ 2 ^ 31 ∧
          ∀ n ∈ displayed_sizes (Machine.before g counter st) [] actions, last ≤ n :=
  (acts_show actions (fun _ => ⟨rfl, fun _ hn => by cases hn⟩) hdefined).print_iff

/-! ## Two result edges -/

/-- A scan of two columns, each with an edge to the display. -/
def two_results_graph : query_graph :=
  (query_graph.empty.add_edge start_vertex end_vertex (data_edge.fresh 1)).add_edge
    start_vertex end_vertex (data_edge.fresh 2)

def two_columns (second : List Word) : ScanMap where
  entries := [(1, [7]), (2, second)]
  sorted := by simp
  int_keys := by simp

def no_kernels : Kernels := ⟨fun _ _ _ _ => none, fun _ _ _ _ => none⟩

def two_results (second : List Word) : List Action :=
  [.execute_graph two_results_graph no_kernels (two_columns second) [start_vertex, end_vertex]]

theorem equal_results_are_printed_iff :
    (print_result ((Machine.before two_results_graph 0 ⟨∅, ∅⟩).acts (two_results [8]))).isSome ↔
      ∀ last ∈ (displayed_sizes (Machine.before two_results_graph 0 ⟨∅, ∅⟩) []
          (two_results [8])).getLast?,
        last ≤ 2 ^ 31 ∧
          ∀ n ∈ displayed_sizes (Machine.before two_results_graph 0 ⟨∅, ∅⟩) [] (two_results [8]),
            last ≤ n :=
  prints_fetched_results_iff two_results_graph 0 ⟨∅, ∅⟩ (two_results [8]) (by decide)

/-- The second column is longer, and the first one is read behind its end. -/
theorem a_short_result_is_read_behind_its_end :
    ((Machine.before two_results_graph 0 ⟨∅, ∅⟩).acts (two_results [8, 9])).stores.isSome ∧
      ¬(print_result ((Machine.before two_results_graph 0 ⟨∅, ∅⟩).acts
        (two_results [8, 9]))).isSome := by
  decide

end hero.runtime_layer
