-- The sizes of a run of `execute_graph`: how many words each edge brings, and the input size that
-- each operation has at its launch.
import HeroDB.Wiring
import Mathlib.Order.Bounds.Basic

namespace hero.runtime_layer

/-! ## Sizes by the graph -/

section sizes

variable (g : query_graph) (data_scan : ScanMap) (counter : Nat) (order : List Nat)

/-- The size of the column that `load_data` leaves on an out-edge of the scan. -/
def column_size (e : Nat) : Nat :=
  (resolved (counter_at data_scan counter order start_vertex) data_scan.entries (g.edge e)).data_size

/-- The size of an operation, for graphs in which no path to it is longer than the fuel: the largest
size that its in-edges bring, and at least 1. -/
def rows_within : Nat → Nat → Nat
  | 0, _ => 1
  | fuel + 1, v => (g.in_edges v).foldl (fun n e => max n
      (if g.source e = start_vertex then column_size g data_scan counter order e
        else rows_within fuel (g.source e))) 1

def rows (v : Nat) : Nat := rows_within g data_scan counter order g.num_vertices v

/-- The size that an edge brings: of a column, or of the operation at its source. -/
def edge_size (e : Nat) : Nat :=
  if g.source e = start_vertex then column_size g data_scan counter order e
  else rows g data_scan counter order (g.source e)

/-- A column on an out-edge of the scan reaches a vertex. -/
inductive Reaches : Nat → Nat → Prop
  | scan (e : Nat) : e < g.ends.length → g.source e = start_vertex → Reaches e (g.target e)
  | through (e e' : Nat) : Reaches e (g.source e') → e' < g.ends.length → Reaches e (g.target e')

end sizes

section graph

variable {g : query_graph} {data_scan : ScanMap} {counter : Nat} {order pre post : List Nat}
variable {v : Nat}

theorem foldl_max_congr {l : List Nat} {f f' : Nat → Nat} (h : ∀ e ∈ l, f e = f' e) (n : Nat) :
    l.foldl (fun n e => max n (f e)) n = l.foldl (fun n e => max n (f' e)) n := by
  induction l generalizing n with
  | nil => rfl
  | cons e rest ih =>
    rw [List.foldl_cons, List.foldl_cons, h e List.mem_cons_self]
    exact ih (fun e' he' => h e' (List.mem_cons_of_mem e he')) _

/-- More fuel than vertices before it changes nothing: the sources come earlier in the order. -/
theorem rows_within_eq (htop : IsTopological g order) (hsplit : order = pre ++ v :: post)
    {fuel fuel' : Nat} (hfuel : pre.length < fuel) (hfuel' : pre.length < fuel') :
    rows_within g data_scan counter order fuel v =
      rows_within g data_scan counter order fuel' v := by
  induction fuel generalizing fuel' v pre post with
  | zero => omega
  | succ fuel ih =>
    obtain ⟨fuel', rfl⟩ : ∃ k, fuel' = k + 1 := ⟨fuel' - 1, by omega⟩
    unfold rows_within
    refine foldl_max_congr (fun e he => ?_) 1
    split
    · rfl
    · obtain ⟨p, q, rfl⟩ := List.append_of_mem (htop.sources_done hsplit he)
      have hsplit' : order = p ++ g.source e :: (q ++ v :: post) := by simpa using hsplit
      rw [List.length_append, List.length_cons] at hfuel hfuel'
      exact ih hsplit' (by omega) (by omega)

theorem rows_eq (htop : IsTopological g order) (hsplit : order = pre ++ v :: post) :
    rows g data_scan counter order v =
      (g.in_edges v).foldl (fun n e => max n (edge_size g data_scan counter order e)) 1 := by
  have hlength : order.length = g.num_vertices := by
    rw [htop.perm.length_eq, List.length_range]
  have hbound : pre.length < g.num_vertices := by
    rw [← hlength, hsplit, List.length_append, List.length_cons]
    omega
  have hfuel : rows g data_scan counter order v =
      rows_within g data_scan counter order (g.num_vertices + 1) v :=
    rows_within_eq htop hsplit hbound (by omega)
  rw [hfuel, rows_within]
  rfl

theorem le_foldl_max (l : List Nat) (f : Nat → Nat) (n : Nat) :
    n ≤ l.foldl (fun n e => max n (f e)) n ∧
      ∀ e ∈ l, f e ≤ l.foldl (fun n e => max n (f e)) n := by
  induction l generalizing n with
  | nil => exact ⟨Nat.le_refl n, by simp⟩
  | cons e rest ih =>
    rw [List.foldl_cons]
    obtain ⟨hstart, hrest⟩ := ih (max n (f e))
    refine ⟨by omega, fun e' he' => ?_⟩
    rcases List.mem_cons.mp he' with rfl | he'
    · omega
    · exact hrest e' he'

theorem foldl_max_eq (l : List Nat) (f : Nat → Nat) (n : Nat) :
    l.foldl (fun n e => max n (f e)) n = n ∨ ∃ e ∈ l, l.foldl (fun n e => max n (f e)) n = f e := by
  induction l generalizing n with
  | nil => exact .inl rfl
  | cons e rest ih =>
    rw [List.foldl_cons]
    rcases ih (max n (f e)) with heq | ⟨e', he', heq⟩
    · rcases Nat.le_total n (f e) with hle | hle
      · exact .inr ⟨e, List.mem_cons_self, by rw [heq, Nat.max_eq_right hle]⟩
      · exact .inl (by rw [heq, Nat.max_eq_left hle])
    · exact .inr ⟨e', List.mem_cons_of_mem e he', heq⟩

theorem Reaches.ne_start {e : Nat} (h : Reaches g e v) (hq : IsQuery g) : v ≠ start_vertex := by
  cases h with
  | scan he hs => exact hq.scan_first _ (g.ends_mem he)
  | through e' hsource he' => exact hq.scan_first _ (g.ends_mem he')

/-- The size of an operation is that of the longest column that reaches it, and at least 1. -/
theorem rows_is_longest (hq : IsQuery g) (htop : IsTopological g order) (hv : v < g.num_vertices) :
    IsGreatest {n | n = 1 ∨ ∃ e, Reaches g e v ∧ n = column_size g data_scan counter order e}
      (rows g data_scan counter order v) := by
  obtain ⟨pre, post, hsplit⟩ := List.append_of_mem ((htop.mem_iff v).mpr hv)
  constructor
  · induction hlength : pre.length using Nat.strong_induction_on generalizing pre post v with
    | _ n ih =>
      subst hlength
      rw [Set.mem_ofPred_eq, rows_eq htop hsplit]
      rcases foldl_max_eq (g.in_edges v) (edge_size g data_scan counter order) 1
        with heq | ⟨e, he, heq⟩
      · exact .inl heq
      · rw [heq]
        obtain ⟨hlt, rfl⟩ := g.mem_in_edges.mp he
        unfold edge_size
        split
        · rename_i hs
          exact .inr ⟨e, .scan e hlt hs, rfl⟩
        · rename_i hs
          obtain ⟨p, q, rfl⟩ := List.append_of_mem (htop.sources_done hsplit he)
          have hsplit' : order = p ++ g.source e :: (q ++ g.target e :: post) := by
            simpa using hsplit
          have hsource := ih p.length (by simp) (hq.ends_lt _ (g.ends_mem hlt)).1 p _ hsplit' rfl
          refine hsource.imp_right ?_
          rintro ⟨e', hreaches, hsize⟩
          exact ⟨e', .through e' e hreaches hlt, hsize⟩
  · have hin (e : Nat) (he : e < g.ends.length) : edge_size g data_scan counter order e ≤
        rows g data_scan counter order (g.target e) := by
      have htarget := (htop.mem_iff _).mpr (hq.ends_lt _ (g.ends_mem he)).2
      obtain ⟨p, q, hsplit'⟩ := List.append_of_mem htarget
      rw [rows_eq htop hsplit']
      exact (le_foldl_max _ _ 1).2 e (g.mem_in_edges.mpr ⟨he, rfl⟩)
    rintro n (rfl | ⟨e, hreaches, rfl⟩)
    · rw [rows_eq htop hsplit]
      exact (le_foldl_max _ _ 1).1
    · clear hsplit hv
      induction hreaches with
      | scan he hs =>
        have hle := hin e he
        rwa [edge_size, if_pos hs] at hle
      | through e' hsource he' ih =>
        have hle := hin e' he'
        rw [edge_size, if_neg (hsource.ne_start hq)] at hle
        exact Nat.le_trans ih hle

/-! ## The sizes of a run -/

/-- A node that has taken no input yet, and whose output size is left at its default. -/
def DefaultSizes (g : query_graph) : Prop :=
  ∀ v, g.IsOp v → (g.vertex v).input_size = 1 ∧ (g.vertex v).overall_output_size = 0

/-- What the turns of a prefix have left in the nodes and on the edges. -/
structure Sized (g : query_graph) (data_scan : ScanMap) (counter : Nat) (order pre : List Nat)
    (m : Machine) : Prop where
  nodes : ∀ v ∈ pre, g.IsOp v →
    (m.dag.vertex v).input_size = rows g data_scan counter order v
  edges : ∀ e < g.ends.length, g.source e ∈ pre →
    (m.dag.edge e).data_size = edge_size g data_scan counter order e

theorem take_inputs_size (es : List Nat) (edge : Nat → data_edge) (n : primitive_node) :
    (es.foldl (fun n e => n.take_input (edge e)) n).input_size =
      es.foldl (fun size e => max size (edge e).data_size) n.input_size := by
  induction es generalizing n with
  | nil => rfl
  | cons e rest ih =>
    rw [List.foldl_cons, List.foldl_cons, ih]
    congr 1
    unfold primitive_node.take_input
    simp only
    split <;> omega

/-- The input size of an operation grows to the sizes on its in-edges. -/
theorem operate_input_size (K : Kernels) (v : Nat) (m : Machine) :
    ((operate K v m).dag.vertex v).input_size =
      (m.dag.in_edges v).foldl (fun size e => max size (m.dag.edge e).data_size)
        (m.dag.vertex v).input_size := by
  rw [operate_vertex_self, set_input_vertex_self]
  exact take_inputs_size (m.dag.in_edges v) m.dag.edge (m.dag.vertex v)

/-- An operation that asks for no output size gets its input size. -/
theorem operate_output_size (K : Kernels) (v : Nat) (m : Machine) :
    ((operate K v m).dag.vertex v).overall_output_size =
      if (m.dag.vertex v).overall_output_size = 0 then ((operate K v m).dag.vertex v).input_size
      else (m.dag.vertex v).overall_output_size := by
  obtain ⟨data, size, heq⟩ := take_inputs_eq (m.dag.in_edges v) m.dag.edge (m.dag.vertex v)
  rw [operate_vertex_self, set_input_vertex_self, heq]

/-- An operation whose in-edges are sized: its input size, and the size that its out-edges get. -/
theorem operate_size {K : Kernels} {m : Machine} {size : Nat}
    (hdefault : (m.dag.vertex v).input_size = 1) (hout : (m.dag.vertex v).overall_output_size = 0)
    (hsize : (m.dag.in_edges v).foldl (fun n e => max n (m.dag.edge e).data_size) 1 = size) :
    ((operate K v m).dag.vertex v).input_size = size ∧
      ((operate K v m).dag.vertex v).overall_output_size = size := by
  have hinput : ((operate K v m).dag.vertex v).input_size = size := by
    rw [operate_input_size, hdefault, hsize]
  exact ⟨hinput, by rw [operate_output_size, if_pos hout, hinput]⟩

variable {K : Kernels} {st : Stores} {m : Machine}

theorem sized_load (htop : IsTopological g order) (hsplit : order = pre ++ start_vertex :: post)
    (hw : Wired K g data_scan counter st order pre m) (h : Sized g data_scan counter order pre m) :
    Sized g data_scan counter order (pre ++ [start_vertex]) (load_data data_scan start_vertex m) := by
  have hat := counter_at_eq data_scan counter htop hsplit
  rw [← hw.counter_eq] at hat
  refine ⟨fun v hv hop => ?_, fun e hlt he => ?_⟩
  · rw [load_data_vertex _ _ m hop.2.1]
    exact h.nodes v (by simpa [hop.2.1] using hv) hop
  · have hout : e ∈ m.dag.out_edges start_vertex ↔ g.source e = start_vertex := by
      rw [hw.shape.out_edges, query_graph.mem_out_edges, and_iff_right hlt]
    rw [load_data_edge]
    by_cases hs : g.source e = start_vertex
    · have hfresh := hw.edge_eq e (by rw [hs]; exact htop.not_mem_prefix hsplit)
      rw [if_pos (hout.mpr hs), edge_size, if_pos hs, column_size, hat, hfresh]
    · rw [if_neg (fun hmem => hs (hout.mp hmem))]
      exact h.edges e hlt (by simpa [hs] using he)

theorem sized_display (hq : IsQuery g) (h : Sized g data_scan counter order pre m) :
    Sized g data_scan counter order (pre ++ [end_vertex]) (display_result m) := by
  refine ⟨fun v hv hop => ?_, fun e hlt he => ?_⟩
  · rw [display_result_dag]
    exact h.nodes v (by simpa [hop.2.2] using hv) hop
  · have hs : g.source e ≠ end_vertex := hq.display_last _ (g.ends_mem hlt)
    rw [display_result_dag]
    exact h.edges e hlt (by simpa [hs] using he)

theorem sized_operate (hdefault : DefaultSizes g) (htop : IsTopological g order)
    (hsplit : order = pre ++ v :: post) (hop : g.IsOp v)
    (hw : Wired K g data_scan counter st order pre m) (h : Sized g data_scan counter order pre m) :
    Sized g data_scan counter order (pre ++ [v]) (operate K v m) := by
  have hv := htop.not_mem_prefix hsplit
  have hsize : (m.dag.in_edges v).foldl (fun n e => max n (m.dag.edge e).data_size) 1 =
      rows g data_scan counter order v := by
    rw [rows_eq htop hsplit, hw.shape.in_edges]
    refine foldl_max_congr (fun e he => ?_) 1
    exact h.edges e (g.mem_in_edges.mp he).1 (htop.sources_done hsplit he)
  obtain ⟨hnode, hout⟩ := operate_size (K := K) (by rw [hw.vertex_eq v hv]; exact (hdefault v hop).1)
    (by rw [hw.vertex_eq v hv]; exact (hdefault v hop).2) hsize
  refine ⟨fun w hmem hop' => ?_, fun e hlt he => ?_⟩
  · by_cases hwv : w = v
    · rw [hwv]
      exact hnode
    · rw [operate_vertex K v m hwv]
      exact h.nodes w (by simpa [hwv] using hmem) hop'
  · have hmem : e ∈ m.dag.out_edges v ↔ g.source e = v := by
      rw [hw.shape.out_edges, query_graph.mem_out_edges, and_iff_right hlt]
    by_cases hs : g.source e = v
    · rw [(operate_edge_of_mem K v m (hmem.mpr hs)).2, hout, edge_size, hs, if_neg hop.2.1]
    · rw [operate_edge_of_not_mem K v m (fun hin => hs (hmem.mp hin))]
      exact h.edges e hlt (by simpa [hs] using he)

/-- Every prefix of a topological order leaves the graph sized. -/
theorem sized_after (K : Kernels) (st : Stores) (hq : IsQuery g) (hdefault : DefaultSizes g)
    (htop : IsTopological g order)
    (hsmall : counter + data_scan.entries.length + g.num_vertices < 2 ^ 31)
    (pre post : List Nat) (hsplit : order = pre ++ post) :
    Sized g data_scan counter order pre (after K g data_scan counter st pre) := by
  induction pre using List.reverseRecOn generalizing post with
  | nil => exact ⟨by simp, by simp⟩
  | append_singleton pre v ih =>
    have hsplit' : order = pre ++ v :: post := by simpa using hsplit
    have hsized := ih (v :: post) hsplit'
    have hw := wired_after K st hq htop hsmall pre (v :: post) hsplit'
    have hv : v < g.num_vertices := (htop.mem_iff v).mp (by simp [hsplit'])
    rw [after_snoc]
    rcases execute_vertex_cases K data_scan hq hv (hw.name_eq v)
      with ⟨rfl, he⟩ | ⟨rfl, he⟩ | ⟨hop, he⟩
    · rw [he]
      exact sized_load htop hsplit' hw hsized
    · rw [he]
      exact sized_display hq hsized
    · rw [he]
      exact sized_operate hdefault htop hsplit' hop hw hsized

/-- The ratio and the parameters of a node stay. -/
theorem operate_keeps (K : Kernels) (v : Nat) (m : Machine) :
    ((operate K v m).dag.vertex v).input_to_output_ratio =
        (m.dag.vertex v).input_to_output_ratio ∧
      ((operate K v m).dag.vertex v).additional_parameters =
        (m.dag.vertex v).additional_parameters := by
  obtain ⟨data, taken, heq⟩ := take_inputs_eq (m.dag.in_edges v) m.dag.edge (m.dag.vertex v)
  rw [operate_vertex_self, set_input_vertex_self, heq]
  exact ⟨rfl, rfl⟩

/-- The launch at the turn of an operation: its kernel and parameters are those of the node, and its
size is that of the operation, divided by the ratio. -/
theorem turn_launch_eq (K : Kernels) (st : Stores) (hq : IsQuery g) (hdefault : DefaultSizes g)
    (htop : IsTopological g order)
    (hsmall : counter + data_scan.entries.length + g.num_vertices < 2 ^ 31)
    (hsplit : order = pre ++ v :: post) (hop : g.IsOp v) :
    (turn_launch K g data_scan counter st order v).kernel = (g.vertex v).mKernelName ∧
      (turn_launch K g data_scan counter st order v).params =
        (g.vertex v).additional_parameters ∧
      (turn_launch K g data_scan counter st order v).globalSize =
        rows g data_scan counter order v / (g.vertex v).input_to_output_ratio := by
  have hw := wired_after K st hq htop hsmall pre (v :: post) hsplit
  have hsized := sized_operate (K := K) hdefault htop hsplit hop hw
    (sized_after K st hq hdefault htop hsmall pre (v :: post) hsplit)
  have hsize := hsized.nodes v (by simp) hop
  have hfresh := hw.vertex_eq v (htop.not_mem_prefix hsplit)
  obtain ⟨hratio, hparams⟩ := operate_keeps K v (after K g data_scan counter st pre)
  rw [turn_launch, htop.takeWhile_eq hsplit]
  refine ⟨?_, ?_, ?_⟩
  · simp only [launch_of]
    rw [operate_name, hw.name_eq]
  · simp only [launch_of]
    rw [hparams, hfresh]
  · simp only [launch_of]
    rw [hsize, hratio, hfresh]

end graph

end hero.runtime_layer
