-- The machine of the exchange executor while the turns of many operations interleave: how far each
-- turn has come, and what the nodes, the edges and the buffers are then.
import HeroDB.Dataflow
import HeroDB.ExchangeTurns

namespace hero.morsel_driven

open runtime_layer query_graph dataflow

/-! ## The meaning -/

/-- `transfer_op` measures the inputs of a node from 0, whatever input size the node had. -/
def measured (g : query_graph) : query_graph :=
  { g with vertex := fun v => { g.vertex v with input_size := 0 } }

namespace Query

variable (f : String → List (List Word) → List Int → Nat → List Word) (q : Query)

/-- What an operation computes. -/
def meaning (v : Nat) : Flow :=
  evaluate (network f (measured q.dag) q.data_scan) ⟨[], 0⟩ q.process_queue v

def edge_meaning (e : Nat) : Flow := edge_flow q.dag q.data_scan (q.meaning f) e

/-- The input size of an operation. -/
def size (v : Nat) : Nat :=
  (q.dag.in_edges v).foldl (fun size e => max size (q.edge_meaning f e).data_size) 0

/-- The alias that the load gives to an edge from the scan. -/
def column (e : Nat) : Int :=
  (resolved q.counter q.data_scan.entries (q.dag.edge e)).data_pointer

/-- A query whose data is safe on any devices: every edge from the scan finds its column, no buffer
goes into two operations, and every edge into an operation brings as many words as its size says. -/
structure Exchangeable : Prop where
  runnable : q.Runnable
  fresh : FreshNodes q.dag
  small : q.counter + q.data_scan.entries.length + q.dag.num_vertices < 2 ^ 31
  old : ∀ key, key ∈ q.stores.openCL → key.1 ≤ q.counter
  finds : ∀ e < q.dag.ends.length, q.dag.source e = start_vertex →
    ∃ j c, q.data_scan.entries[j]? = some c ∧ (q.dag.edge e).data_pointer = c.1 ∧
      ∀ c' ∈ q.data_scan.entries.drop (j + 1), c'.1 ≠ column_alias q.counter j
  unshared : ∀ e < q.dag.ends.length, ∀ e' < q.dag.ends.length, q.dag.IsOp (q.dag.target e) →
    q.dag.IsOp (q.dag.target e') → q.dag.source e = q.dag.source e' →
    (q.dag.source e = start_vertex → (q.dag.edge e).data_pointer = (q.dag.edge e').data_pointer) →
      e = e'
  whole : ∀ e < q.dag.ends.length, q.dag.IsOp (q.dag.target e) →
    (q.edge_meaning f e).words.length = (q.edge_meaning f e).data_size

end Query

/-! ## The turns -/

/-- How far the turn of an operation has come. -/
inductive Turn
  | queued
  | moved
  | sized
  | taken
  | prepared
  | compiled
  | executed
deriving DecidableEq

namespace Turn

/-- The inputs are on the device. -/
def has_inputs : Turn → Bool
  | .taken | .prepared | .compiled | .executed => true
  | _ => false

/-- The output has its alias. -/
def has_output : Turn → Bool
  | .prepared | .compiled | .executed => true
  | _ => false

/-- A node on its way through its turn. -/
def node (n : primitive_node) (dev : Device) (size : Nat) (inputs : List Int) (out : Int) :
    Turn → primitive_node
  | .queued => n
  | .moved => set_device dev n
  | .sized => { set_device dev n with input_size := size }
  | .taken => { set_device dev n with input_size := size, input_data := inputs }
  | .prepared | .compiled | .executed =>
    { set_device dev n with
      input_size := size
      input_data := inputs
      overall_output_size := if n.overall_output_size = 0 then size else n.overall_output_size
      output_data := [out] }

theorem has_inputs_of_has_output {t : Turn} (h : t.has_output = true) : t.has_inputs = true := by
  cases t <;> first | rfl | cases h

/-- A node without inputs has no input aliases, and one without output no output alias. -/
theorem node_congr {n : primitive_node} {dev : Device} {size : Nat} {inputs inputs' : List Int}
    {out out' : Int} {t : Turn} (hin : t.has_inputs = true → inputs' = inputs)
    (hout : t.has_output = true → out' = out) :
    node n dev size inputs' out' t = node n dev size inputs out t := by
  cases t with
  | queued | moved | sized => rfl
  | taken => rw [node, hin rfl, node]
  | prepared | compiled | executed => rw [node, hin rfl, hout rfl, node]

end Turn

section invariant

variable (f : String → List (List Word) → List Int → Nat → List Word) (q : Query)
variable (mark : Nat → Turn) (out : Nat → Int)

/-- The output of the vertex is complete: a column, or what an operation has written. -/
def Done (v : Nat) : Prop := v = start_vertex ∨ mark v = .executed

/-- The alias on an edge whose source has its output. -/
def Query.pointer (e : Nat) : Int :=
  if q.dag.source e = start_vertex then q.column e else out (q.dag.source e)

/-- Where the buffers are: with their writers, until an operation takes them as its inputs. -/
structure InPlace (m : Machine) (s : Stores) : Prop where
  waiting : ∀ e < q.dag.ends.length, q.dag.IsOp (q.dag.target e) → Done mark (q.dag.source e) →
    (mark (q.dag.target e)).has_inputs = false → ∀ dev, look s (q.pointer out e) dev =
      if dev = (m.dag.vertex (q.dag.source e)).device then some (q.edge_meaning f e).words else none
  taken : ∀ v, q.dag.IsOp v → (mark v).has_inputs = true → ∀ e ∈ q.dag.in_edges v,
    look s (q.pointer out e) (m.dag.vertex v).device = some (q.edge_meaning f e).words
  prepared : ∀ v, q.dag.IsOp v → (mark v).has_output = true → mark v ≠ .executed →
    ∀ dev, look s (out v) dev =
      if dev = (m.dag.vertex v).device then some (List.replicate (q.size f v) 0) else none
  unread : ∀ v, q.dag.IsOp v → mark v = .executed →
    (∀ e ∈ q.dag.out_edges v, ¬ q.dag.IsOp (q.dag.target e)) →
      look s (out v) (m.dag.vertex v).device = some (q.meaning f v).words
  new : ∀ a, (m.total_data_set_in_device : Int) < a → ∀ dev, look s a dev = none

/-- The machine while the turns of the operations are at their marks. -/
structure Computes (m : Machine) : Prop where
  shape : SameShape q.dag m.dag
  counter : m.total_data_set_in_device = q.counter + q.data_scan.entries.length +
    (q.operations.filter (fun v => (mark v).has_output)).length
  node : ∀ v, q.dag.IsOp v → m.dag.vertex v =
    (mark v).node (q.dag.vertex v) (m.dag.vertex v).device (q.size f v)
      ((q.dag.in_edges v).map (q.pointer out)) (out v)
  edge : ∀ e < q.dag.ends.length,
    q.dag.source e = start_vertex ∨ (mark (q.dag.source e)).has_output = true →
      (m.dag.edge e).data_pointer = q.pointer out e ∧
        (m.dag.edge e).data_size = (q.edge_meaning f e).data_size
  alias_new : ∀ v, q.dag.IsOp v → (mark v).has_output = true →
    (q.counter + q.data_scan.entries.length : Nat) < out v ∧
      out v ≤ (m.total_data_set_in_device : Int)
  alias_inj : ∀ v w, q.dag.IsOp v → q.dag.IsOp w → (mark v).has_output = true →
    (mark w).has_output = true → out v = out w → v = w
  ready : ∀ v, q.dag.IsOp v → (mark v).has_inputs = true →
    ∀ e ∈ q.dag.in_edges v, Done mark (q.dag.source e)
  built : ∀ v, q.dag.IsOp v → mark v = .compiled →
    ((m.dag.vertex v).mKernelName, (m.dag.vertex v).device) ∈ m.mKernelDictionary
  stores : ∃ s, m.stores = some s ∧ InPlace f q mark out m s

end invariant

/-! ## The aliases -/

section aliases

variable {f : String → List (List Word) → List Int → Nat → List Word} {q : Query}
variable {mark : Nat → Turn} {out : Nat → Int} {m : Machine} {e e' v w : Nat}

/-- The alias and the size of the column of an edge. -/
theorem resolved_column (h : q.Exchangeable f) (hlt : e < q.dag.ends.length)
    (hs : q.dag.source e = start_vertex) :
    ∃ j c, q.data_scan.entries[j]? = some c ∧ (q.dag.edge e).data_pointer = c.1 ∧
      q.edge_meaning f e = ⟨c.2, c.2.length⟩ ∧
      resolved q.counter q.data_scan.entries (q.dag.edge e) =
        { q.dag.edge e with data_pointer := column_alias q.counter j, data_size := c.2.length } := by
  obtain ⟨j, c, hj, hkey, hlater⟩ := h.finds e hlt hs
  refine ⟨j, c, hj, hkey, ?_, ?_⟩
  · rw [Query.edge_meaning, edge_flow, if_pos hs, hkey, column_flow_eq hj]
  · rw [resolved_of_passed hj hkey hlater]

theorem column_eq (h : q.Exchangeable f) (hlt : e < q.dag.ends.length)
    (hs : q.dag.source e = start_vertex) :
    ∃ j c, q.data_scan.entries[j]? = some c ∧ (q.dag.edge e).data_pointer = c.1 ∧
      (q.edge_meaning f e).words = c.2 ∧ q.column e = (q.counter + j + 1 : Nat) := by
  obtain ⟨j, c, hj, hkey, hmeaning, hresolved⟩ := resolved_column h hlt hs
  have hlen := (List.getElem?_eq_some_iff.mp hj).1
  have hsmall := h.small
  refine ⟨j, c, hj, hkey, by rw [hmeaning], ?_⟩
  rw [Query.column, hresolved]
  dsimp only
  exact column_alias_small (by omega)

theorem column_le (h : q.Exchangeable f) (hlt : e < q.dag.ends.length)
    (hs : q.dag.source e = start_vertex) :
    (q.counter : Int) < q.column e ∧
      q.column e ≤ (q.counter + q.data_scan.entries.length : Nat) := by
  obtain ⟨j, c, hj, -, -, hcolumn⟩ := column_eq h hlt hs
  have hlen := (List.getElem?_eq_some_iff.mp hj).1
  omega

/-- Two edges from the scan with one alias have one key. -/
theorem column_key (h : q.Exchangeable f) (hlt : e < q.dag.ends.length)
    (hlt' : e' < q.dag.ends.length) (hs : q.dag.source e = start_vertex)
    (hs' : q.dag.source e' = start_vertex) (heq : q.column e = q.column e') :
    (q.dag.edge e).data_pointer = (q.dag.edge e').data_pointer := by
  obtain ⟨j, c, hj, hkey, -, hcolumn⟩ := column_eq h hlt hs
  obtain ⟨j', c', hj', hkey', -, hcolumn'⟩ := column_eq h hlt' hs'
  obtain rfl : j = j' := by omega
  rw [hj, Option.some.injEq] at hj'
  rw [hkey, hkey', hj']

theorem pointer_of_start (hs : q.dag.source e = start_vertex) : q.pointer out e = q.column e :=
  if_pos hs

theorem pointer_of_op (hs : q.dag.source e ≠ start_vertex) :
    q.pointer out e = out (q.dag.source e) := if_neg hs

/-- The source of an edge is the scan or an operation. -/
theorem source_cases (h : q.Exchangeable f) (hlt : e < q.dag.ends.length) :
    q.dag.source e = start_vertex ∨
      (q.dag.source e ≠ start_vertex ∧ q.dag.IsOp (q.dag.source e)) := by
  by_cases hs : q.dag.source e = start_vertex
  · exact .inl hs
  · exact .inr ⟨hs, h.runnable.query.source_isOp hlt hs⟩

/-- An alias on an edge whose source is done is the alias of no other operation. -/
theorem pointer_ne_out (h : q.Exchangeable f) (hm : Computes f q mark out m)
    (hlt : e < q.dag.ends.length) (hdone : Done mark (q.dag.source e)) (hop : q.dag.IsOp v)
    (hout : (mark v).has_output = true) (hne : q.dag.source e ≠ v) :
    q.pointer out e ≠ out v := by
  intro heq
  rcases source_cases h hlt with hs | ⟨hs, hsource⟩
  · rw [pointer_of_start hs] at heq
    have hle := (column_le h hlt hs).2
    have hnew := (hm.alias_new v hop hout).1
    omega
  · rw [pointer_of_op hs] at heq
    have hexec := hdone.resolve_left hs
    exact hne (hm.alias_inj _ v hsource hop (by rw [hexec]; rfl) hout heq)

/-- Two edges into operations whose sources are done do not share an alias. -/
theorem pointer_inj (h : q.Exchangeable f) (hm : Computes f q mark out m)
    (hlt : e < q.dag.ends.length) (hlt' : e' < q.dag.ends.length)
    (hop : q.dag.IsOp (q.dag.target e)) (hop' : q.dag.IsOp (q.dag.target e'))
    (hdone : Done mark (q.dag.source e)) (hdone' : Done mark (q.dag.source e'))
    (heq : q.pointer out e = q.pointer out e') : e = e' := by
  rcases source_cases h hlt' with hs' | ⟨hs', hsource'⟩
  · by_cases hs : q.dag.source e = start_vertex
    · rw [pointer_of_start hs, pointer_of_start hs'] at heq
      exact h.unshared e hlt e' hlt' hop hop' (hs.trans hs'.symm)
        (fun _ => column_key h hlt hlt' hs hs' heq)
    · -- An output is never a column.
      have hsource := h.runnable.query.source_isOp hlt hs
      have hexec := hdone.resolve_left hs
      rw [pointer_of_op hs] at heq
      refine absurd heq.symm (pointer_ne_out h hm hlt' hdone' hsource (by rw [hexec]; rfl) ?_)
      rw [hs']
      exact hsource.2.1.symm
  · have hexec' := hdone'.resolve_left hs'
    by_cases hsame : q.dag.source e = q.dag.source e'
    · exact h.unshared e hlt e' hlt' hop hop' hsame (fun hs => absurd (hsame ▸ hs) hs')
    · rw [pointer_of_op hs'] at heq
      exact absurd heq (pointer_ne_out h hm hlt hdone hsource' (by rw [hexec']; rfl) hsame)

theorem pointer_le (h : q.Exchangeable f) (hm : Computes f q mark out m)
    (hlt : e < q.dag.ends.length) (hdone : Done mark (q.dag.source e)) :
    q.pointer out e ≤ (m.total_data_set_in_device : Int) := by
  rcases source_cases h hlt with hs | ⟨hs, hsource⟩
  · have hle := (column_le h hlt hs).2
    have hcounter := hm.counter
    rw [pointer_of_start hs]
    omega
  · have hexec := hdone.resolve_left hs
    rw [pointer_of_op hs]
    exact (hm.alias_new _ hsource (by rw [hexec]; rfl)).2

end aliases

/-! ## The sizes -/

section sizes

variable {f : String → List (List Word) → List Int → Nat → List Word} {q : Query} {e v : Nat}

theorem exchange_meaning_eq (h : q.Exchangeable f) (hv : v < q.dag.num_vertices) :
    q.meaning f v = ((measured q.dag).vertex v).flow f
      ((q.dag.in_edges v).map (q.edge_meaning f)) := by
  have htop : IsTopological (measured q.dag) q.process_queue :=
    ⟨h.runnable.topological.perm, h.runnable.topological.forward⟩
  exact (topological_ordered htop).evaluate_solves v ((htop.mem_iff v).mpr hv)

theorem size_eq (f : String → List (List Word) → List Int → Nat → List Word) (q : Query) (v : Nat) :
    ((measured q.dag).vertex v).size_for ((q.dag.in_edges v).map (q.edge_meaning f)) =
      q.size f v := by
  rw [primitive_node.size_for, List.foldl_map]
  rfl

/-- The size that an operation puts on its out-edges. -/
theorem output_size_eq (h : q.Exchangeable f) (hv : v < q.dag.num_vertices) :
    (q.meaning f v).data_size =
      if (q.dag.vertex v).overall_output_size = 0 then q.size f v
      else (q.dag.vertex v).overall_output_size := by
  rw [exchange_meaning_eq h hv, ← size_eq]
  rfl

/-- The words that the kernel of an operation writes. -/
theorem output_words_eq (h : q.Exchangeable f) (hv : v < q.dag.num_vertices) :
    (q.meaning f v).words =
      f (q.dag.vertex v).mKernelName
        ((q.dag.in_edges v).map (fun e => (q.edge_meaning f e).words) ++
          [List.replicate (q.size f v) 0])
        (q.dag.vertex v).additional_parameters
        (q.size f v / (q.dag.vertex v).input_to_output_ratio) := by
  rw [exchange_meaning_eq h hv, ← size_eq, primitive_node.flow, List.map_map]
  rfl

/-- One more vertex of a list has the property. -/
theorem filter_one_more {l : List Nat} (hl : l.Nodup) (hv : v ∈ l) {P Q : Nat → Bool}
    (hP : P v = false) (hQ : Q v = true) (hsame : ∀ w, w ≠ v → Q w = P w) :
    (l.filter Q).length = (l.filter P).length + 1 := by
  induction l with
  | nil => cases hv
  | cons w rest ih =>
    obtain ⟨hw, hrest⟩ := List.nodup_cons.mp hl
    by_cases heq : w = v
    · subst heq
      have htail : rest.filter Q = rest.filter P := by
        refine List.filter_congr fun u hu => hsame u ?_
        rintro rfl
        exact hw hu
      rw [List.filter_cons_of_pos hQ, List.filter_cons_of_neg (by simp [hP]), htail,
        List.length_cons]
    · have htail := ih hrest ((List.mem_cons.mp hv).resolve_left (Ne.symm heq))
      rw [List.filter_cons, List.filter_cons, hsame w heq]
      split
      · rw [List.length_cons, List.length_cons, htail]
      · exact htail

end sizes

/-! ## The load -/

section load

variable {f : String → List (List Word) → List Int → Nat → List Word} {q : Query}

theorem loaded_counter (h : q.Exchangeable f) :
    q.loaded.total_data_set_in_device = q.counter + q.data_scan.entries.length := by
  have hsmall := h.small
  rw [Query.loaded, Machine.modify_edges_counter, load_data_counter]
  dsimp only [Machine.before]
  cases hlen : q.data_scan.entries.length with
  | zero => rfl
  | succ n =>
    rw [next_counter_iterate]
    omega

theorem loaded_device (q : Query) (w : Nat) :
    (q.loaded.dag.vertex w).device = (q.dag.vertex w).device := by
  rw [Query.loaded, Machine.modify_edges_vertex, load_data_device]
  rfl

/-- The columns after the load, each on the device of the scan. -/
theorem loaded_columns (h : q.Exchangeable f) :
    ∃ s, q.loaded.stores = some s ∧
      (∀ j c, q.data_scan.entries[j]? = some c → ∀ dev,
        look s (q.counter + j + 1 : Nat) dev =
          if dev = (q.dag.vertex start_vertex).device then some c.2 else none) ∧
      ∀ a : Int, (q.counter + q.data_scan.entries.length : Nat) < a → ∀ dev, look s a dev = none := by
  have hsmall := h.small
  have halias : ∀ j < q.data_scan.entries.length,
      column_alias q.counter j = (q.counter + j + 1 : Nat) := by
    intro j hj
    exact column_alias_small (by omega)
  have hnone : ∀ a : Int, (q.counter : Int) < a → ∀ dev, look q.stores a dev = none := by
    intro a ha dev
    refine AList.lookup_eq_none.mpr fun hmem => ?_
    have hle : a ≤ q.counter := h.old _ hmem
    omega
  obtain ⟨s, hs, hat, hframe⟩ := load_data_look q.data_scan start_vertex
    (.before q.dag q.counter q.stores) q.stores rfl
    (by
      intro j hj dev
      dsimp only [Machine.before]
      rw [halias j hj]
      exact hnone _ (by omega) dev)
    (by
      intro i hi j hj heq
      dsimp only [Machine.before] at heq
      rw [halias i hi, halias j hj] at heq
      omega)
  dsimp only [Machine.before] at hat hframe
  refine ⟨s, ?_, ?_, ?_⟩
  · rw [Query.loaded, Machine.modify_edges_stores]
    exact hs
  · intro j c hj dev
    rw [← halias j (List.getElem?_eq_some_iff.mp hj).1]
    exact hat j c hj dev
  · intro a ha dev
    rw [hframe a dev ?_]
    · exact hnone a (by omega) dev
    · intro j hj
      rw [halias j hj]
      omega

/-- After the load no operation has begun its turn. -/
theorem computes_loaded (h : q.Exchangeable f) :
    Computes f q (fun _ => .queued) (fun _ => 0) q.loaded := by
  obtain ⟨s, hs, hcolumns, hnew⟩ := loaded_columns h
  have hcounter := loaded_counter h
  refine ⟨loaded_shape q, ?_, ?_, ?_, ?_, ?_, ?_, ?_, s, hs, ?_, ?_, ?_, ?_, ?_⟩
  · rw [hcounter]
    simp [Turn.has_output]
  · intro v hop
    rw [Query.loaded, Machine.modify_edges_vertex, load_data_vertex _ _ _ hop.2.1]
    rfl
  · rintro e hlt (hs | hout)
    · obtain ⟨j, c, -, -, hmeaning, hresolved⟩ := resolved_column h hlt hs
      have hmem : e ∈ q.dag.out_edges start_vertex := q.dag.mem_out_edges.mpr ⟨hlt, hs⟩
      have hload : (load_data q.data_scan start_vertex
          (.before q.dag q.counter q.stores)).dag.edge e =
            resolved q.counter q.data_scan.entries (q.dag.edge e) :=
        (load_data_edge _ _ _ e).trans (if_pos hmem)
      rw [Query.loaded, Machine.modify_edges_edge _ _ (q.dag.out_edges_nodup _), if_pos hmem, hload,
        pointer_of_start hs, Query.column, hmeaning]
      refine ⟨rfl, ?_⟩
      dsimp only [set_ready_for_next_step, Machine.before]
      rw [hresolved]
    · cases hout
  · intro v _ hout
    cases hout
  · intro v _ _ _ hout
    cases hout
  · intro v _ hin
    cases hin
  · intro v _ hmark
    cases hmark
  · intro e hlt _ hsource _ dev
    have hstart := hsource.resolve_right (by simp)
    obtain ⟨j, c, hj, -, hwords, hcolumn⟩ := column_eq h hlt hstart
    rw [pointer_of_start hstart, hcolumn, hwords, hstart, loaded_device]
    exact hcolumns j c hj dev
  · intro v _ hin
    cases hin
  · intro v _ hout
    cases hout
  · intro v _ hmark
    cases hmark
  · intro a ha dev
    rw [hcounter] at ha
    exact hnew a ha dev

end load

/-! ## The steps of the device thread -/

section device

variable {f : String → List (List Word) → List Int → Nat → List Word} {q : Query}
variable {mark : Nat → Turn} {out : Nat → Int} {m : Machine} {e v w : Nat} {t : Turn}

/-- A new mark at one vertex, for a property that the old mark has as well. -/
theorem mark_iff (mark : Nat → Turn) (v : Nat) (t : Turn) (P : Turn → Prop) (h : P t ↔ P (mark v))
    (w : Nat) : P (Function.update mark v t w) ↔ P (mark w) := by
  by_cases hw : w = v
  · rw [hw, Function.update_self, h]
  · rw [Function.update_of_ne hw]

theorem done_iff (mark : Nat → Turn) (v : Nat) (t : Turn) (hv : mark v ≠ .executed)
    (ht : t ≠ .executed) (w : Nat) : Done (Function.update mark v t) w ↔ Done mark w := by
  unfold Done
  rw [mark_iff mark v t (fun t => t = .executed) (iff_of_false ht hv)]

theorem done_executed_iff (hw : w ≠ v) :
    Done (Function.update mark v .executed) w ↔ Done mark w := by
  unfold Done
  rw [Function.update_of_ne hw]

/-- A vertex that is done is none that is still to be executed. -/
theorem Done.ne (hw : Done mark w) (hop : q.dag.IsOp v) (hv : mark v ≠ .executed) : w ≠ v := by
  rintro rfl
  rcases hw with hw | hw
  · exact hop.2.1 hw
  · exact hv hw

theorem ne_of_mark (hv : mark v = t) (hw : mark w ≠ t) : w ≠ v := by
  rintro rfl
  exact hw hv

/-- No operation gets its alias: the aliases stay as they are. -/
theorem Computes.aliases_stay {mark' : Nat → Turn} (hm : Computes f q mark out m) (m' : Machine)
    (houtput : ∀ w, (mark' w).has_output = true ↔ (mark w).has_output = true)
    (hcounter : m'.total_data_set_in_device = m.total_data_set_in_device) :
    m'.total_data_set_in_device = q.counter + q.data_scan.entries.length +
        (q.operations.filter (fun w => (mark' w).has_output)).length ∧
      (∀ w, q.dag.IsOp w → (mark' w).has_output = true →
        (q.counter + q.data_scan.entries.length : Nat) < out w ∧
          out w ≤ (m'.total_data_set_in_device : Int)) ∧
      ∀ w w', q.dag.IsOp w → q.dag.IsOp w' → (mark' w).has_output = true →
        (mark' w').has_output = true → out w = out w' → w = w' := by
  have hsame : (fun w => (mark' w).has_output) = fun w => (mark w).has_output := by
    funext w
    rw [Bool.eq_iff_iff]
    exact houtput w
  refine ⟨?_, fun w hw hwout => ?_, fun w w' hw hw' hwout hwout' => ?_⟩
  · rw [hcounter, hsame]
    exact hm.counter
  · rw [hcounter]
    exact hm.alias_new w hw ((houtput w).mp hwout)
  · exact hm.alias_inj w w' hw hw' ((houtput w).mp hwout) ((houtput w').mp hwout')

/-- The node of a vertex changes while it has no inputs: its buffers and edges stay. -/
theorem Computes.early {m' : Machine} (hm : Computes f q mark out m) (hop : q.dag.IsOp v)
    (hv : (mark v).has_inputs = false) (ht : t.has_inputs = false) (g : primitive_node → primitive_node)
    (hm' : m' = m.modify_vertex v g)
    (hnode : g (m.dag.vertex v) = t.node (q.dag.vertex v) (g (m.dag.vertex v)).device (q.size f v)
      ((q.dag.in_edges v).map (q.pointer out)) (out v)) :
    Computes f q (Function.update mark v t) out m' := by
  subst hm'
  have hexec : mark v ≠ .executed := fun heq => by simp [heq, Turn.has_inputs] at hv
  have hexec' : t ≠ .executed := fun heq => by simp [heq, Turn.has_inputs] at ht
  have hcompiled : mark v ≠ .compiled := fun heq => by simp [heq, Turn.has_inputs] at hv
  have hcompiled' : t ≠ .compiled := fun heq => by simp [heq, Turn.has_inputs] at ht
  have hout : (mark v).has_output ≠ true := fun heq => by
    simp [Turn.has_inputs_of_has_output heq] at hv
  have hout' : t.has_output ≠ true := fun heq => by
    simp [Turn.has_inputs_of_has_output heq] at ht
  have hdone := done_iff mark v t hexec hexec'
  have hinputs := mark_iff mark v t (fun t => t.has_inputs = true) (by simp [hv, ht])
  have houtput := mark_iff mark v t (fun t => t.has_output = true) (iff_of_false hout' hout)
  have hexecuted := mark_iff mark v t (fun t => t = .executed) (iff_of_false hexec' hexec)
  have hbuilt := mark_iff mark v t (fun t => t = .compiled) (iff_of_false hcompiled' hcompiled)
  have hvertex : ∀ w, w ≠ v → (m.modify_vertex v g).dag.vertex w = m.dag.vertex w := by
    intro w hw
    simp [Machine.modify_vertex, modify_vertex_vertex_ne _ _ hw]
  have hne : ∀ w, (mark w).has_inputs = true → w ≠ v := by
    rintro w hw rfl
    rw [hv] at hw
    cases hw
  obtain ⟨s, hs, hplace⟩ := hm.stores
  obtain ⟨hcounter, hnew, hinj⟩ := hm.aliases_stay (m.modify_vertex v g) houtput rfl
  refine ⟨hm.shape.trans ⟨rfl, rfl, rfl⟩, hcounter, ?_, ?_, hnew, hinj, ?_, ?_, s, hs, ?_, ?_, ?_,
    ?_, hplace.new⟩
  · intro w hw
    by_cases hwv : w = v
    · subst hwv
      simp only [Machine.modify_vertex, modify_vertex_vertex_self, Function.update_self]
      exact hnode
    · rw [hvertex w hwv, Function.update_of_ne hwv]
      exact hm.node w hw
  · intro e hlt hsource
    rw [houtput] at hsource
    exact hm.edge e hlt hsource
  · intro w hw hwin e he
    rw [hdone]
    exact hm.ready w hw ((hinputs w).mp hwin) e he
  · intro w hw hmark
    have hmark' := (hbuilt w).mp hmark
    rw [hvertex w (hne w (by rw [hmark']; rfl))]
    exact hm.built w hw hmark'
  · intro e hlt hop' hsource hwin dev
    rw [hdone] at hsource
    have hwin' : (mark (q.dag.target e)).has_inputs = false := by
      rw [Bool.eq_false_iff] at hwin ⊢
      rwa [ne_eq, ← hinputs]
    rw [hvertex _ (hsource.ne hop hexec)]
    exact hplace.waiting e hlt hop' hsource hwin' dev
  · intro w hw hwin e he
    rw [hvertex w (hne w ((hinputs w).mp hwin))]
    exact hplace.taken w hw ((hinputs w).mp hwin) e he
  · intro w hw hwout hwexec
    have hwout' := (houtput w).mp hwout
    rw [hvertex w (hne w (Turn.has_inputs_of_has_output hwout'))]
    exact hplace.prepared w hw hwout' (fun heq => hwexec ((hexecuted w).mpr heq))
  · intro w hw hwexec
    have hwexec' := (hexecuted w).mp hwexec
    rw [hvertex w (hne w (by rw [hwexec']; rfl))]
    exact hplace.unread w hw hwexec'

/-- `transfer_op` puts the vertex on the device of its thread. -/
theorem Computes.move (hm : Computes f q mark out m) (hop : q.dag.IsOp v) (hv : mark v = .queued)
    (dev : Device) :
    Computes f q (Function.update mark v .moved) out (m.modify_vertex v (set_device dev)) := by
  refine hm.early hop (by rw [hv]; rfl) rfl (set_device dev) rfl ?_
  have hnode := hm.node v hop
  rw [hv] at hnode
  rw [hnode]
  rfl

/-- `transfer_op` measures the inputs. -/
theorem Computes.measure (hm : Computes f q mark out m) (hop : q.dag.IsOp v)
    (hv : mark v = .moved) (hready : ∀ e ∈ q.dag.in_edges v, Done mark (q.dag.source e)) :
    Computes f q (Function.update mark v .sized) out
      (m.modify_vertex v (fun n => { n with input_size := data_size_of_input m.dag v })) := by
  refine hm.early hop (by rw [hv]; rfl) rfl _ rfl ?_
  have hsize : data_size_of_input m.dag v = q.size f v := by
    rw [data_size_of_input_eq, hm.shape.in_edges]
    refine foldl_max_congr (fun e he => ?_) 0
    refine (hm.edge e (q.dag.mem_in_edges.mp he).1 ?_).2
    exact (hready e he).imp_right (fun hexec => by rw [hexec]; rfl)
  have hnode := hm.node v hop
  rw [hv] at hnode
  rw [hsize, hnode]
  rfl

theorem set_input_device (v : Nat) (m : Machine) (u : Nat) :
    ((runtime_layer.set_input v m).dag.vertex u).device = (m.dag.vertex u).device :=
  set_input_edges_device v _ m u

/-- The node after `set_input`. -/
theorem Computes.taken_node (h : q.Exchangeable f) (hm : Computes f q mark out m)
    (hop : q.dag.IsOp v) (hv : mark v = .sized)
    (hready : ∀ e ∈ q.dag.in_edges v, Done mark (q.dag.source e)) :
    (runtime_layer.set_input v m).dag.vertex v =
      Turn.node (q.dag.vertex v) (m.dag.vertex v).device (q.size f v)
        ((q.dag.in_edges v).map (q.pointer out)) (out v) .taken := by
  have hedge : ∀ e ∈ q.dag.in_edges v, (m.dag.edge e).data_pointer = q.pointer out e ∧
      (m.dag.edge e).data_size = (q.edge_meaning f e).data_size := by
    intro e he
    refine hm.edge e (q.dag.mem_in_edges.mp he).1 ?_
    exact (hready e he).imp_right (fun hexec => by rw [hexec]; rfl)
  have hlargest : largest m.dag.edge (q.dag.in_edges v) 0 = q.size f v :=
    foldl_max_congr (fun e he => (hedge e he).2) 0
  have hpointers : (q.dag.in_edges v).map (fun e => (m.dag.edge e).data_pointer) =
      (q.dag.in_edges v).map (q.pointer out) :=
    List.map_congr_left (fun e he => (hedge e he).1)
  have hnode := hm.node v hop
  rw [hv] at hnode
  rw [set_input_vertex_self, hm.shape.in_edges, take_inputs_node, largest_eq, hlargest, hpointers]
  generalize (m.dag.vertex v).device = dev at hnode ⊢
  rw [hnode]
  simp [Turn.node, set_device, (h.fresh v hop).1]

/-- The buffers after `set_input`. -/
theorem Computes.take_buffers (h : q.Exchangeable f) (hm : Computes f q mark out m)
    (hop : q.dag.IsOp v) (hv : mark v = .sized)
    (hready : ∀ e ∈ q.dag.in_edges v, Done mark (q.dag.source e)) {s : Stores}
    (hs : m.stores = some s) (hplace : InPlace f q mark out m s) :
    ∃ s', (runtime_layer.set_input v m).stores = some s' ∧
      (∀ e ∈ q.dag.in_edges v,
        look s' (q.pointer out e) (m.dag.vertex v).device = some (q.edge_meaning f e).words) ∧
      ∀ a dev, (∀ e ∈ q.dag.in_edges v, a ≠ q.pointer out e) → look s' a dev = look s a dev := by
  have hedge : ∀ e ∈ q.dag.in_edges v, (m.dag.edge e).data_pointer = q.pointer out e ∧
      (m.dag.edge e).data_size = (q.edge_meaning f e).data_size := by
    intro e he
    refine hm.edge e (q.dag.mem_in_edges.mp he).1 ?_
    exact (hready e he).imp_right (fun hexec => by rw [hexec]; rfl)
  have hin : ∀ e ∈ q.dag.in_edges v, e < q.dag.ends.length ∧ q.dag.target e = v :=
    fun e he => q.dag.mem_in_edges.mp he
  have hown : ((q.dag.in_edges v).map (fun e => (m.dag.edge e).data_pointer)).Nodup := by
    refine (List.nodup_range.filter _).map_on (fun e he e' he' heq => ?_)
    obtain ⟨hlt, htarget⟩ := hin e he
    obtain ⟨hlt', htarget'⟩ := hin e' he'
    rw [(hedge e he).1, (hedge e' he').1] at heq
    exact pointer_inj h hm hlt hlt' (by rw [htarget]; exact hop) (by rw [htarget']; exact hop)
      (hready e he) (hready e' he') heq
  obtain ⟨s', hs', hbuffers, hframe⟩ := set_input_edges_look v
    (fun e => (q.edge_meaning f e).words) hs hown
    (by
      intro e he
      obtain ⟨hlt, htarget⟩ := hin e he
      rw [(hedge e he).2]
      exact h.whole e hlt (by rw [htarget]; exact hop))
    (by
      intro e he dev
      obtain ⟨hlt, htarget⟩ := hin e he
      rw [(hedge e he).1, hm.shape.source]
      exact hplace.waiting e hlt (by rw [htarget]; exact hop) (hready e he)
        (by rw [htarget, hv]; rfl) dev)
  refine ⟨s', ?_, ?_, ?_⟩
  · rw [runtime_layer.set_input, hm.shape.in_edges]
    exact hs'
  · intro e he
    have hbuffer := hbuffers e he
    rwa [(hedge e he).1, hm.shape.target, (hin e he).2] at hbuffer
  · intro a dev ha
    refine hframe a dev (fun e he => ?_)
    rw [(hedge e he).1]
    exact ha e he

/-- The inputs are where `set_input` puts them, and the other buffers stay. -/
theorem Computes.buffers_taken (h : q.Exchangeable f) (hm : Computes f q mark out m)
    (hop : q.dag.IsOp v) (hv : mark v = .sized)
    (hready : ∀ e ∈ q.dag.in_edges v, Done mark (q.dag.source e)) {s s' : Stores}
    (hplace : InPlace f q mark out m s)
    (hbuffers : ∀ e ∈ q.dag.in_edges v,
      look s' (q.pointer out e) (m.dag.vertex v).device = some (q.edge_meaning f e).words)
    (hframe : ∀ a dev, (∀ e ∈ q.dag.in_edges v, a ≠ q.pointer out e) →
      look s' a dev = look s a dev) :
    InPlace f q (Function.update mark v .taken) out (runtime_layer.set_input v m) s' := by
  have hdone := done_iff mark v .taken (by rw [hv]; decide) (by decide)
  have houtput := mark_iff mark v .taken (fun t => t.has_output = true) (by rw [hv]; decide)
  have hexecuted := mark_iff mark v .taken (fun t => t = .executed) (by rw [hv]; decide)
  have hdevice := set_input_device v m
  -- An input of another vertex is none of these inputs.
  have hother : ∀ e' < q.dag.ends.length, q.dag.IsOp (q.dag.target e') → q.dag.target e' ≠ v →
      Done mark (q.dag.source e') → ∀ e ∈ q.dag.in_edges v, q.pointer out e' ≠ q.pointer out e := by
    intro e' hlt' hop' hne hdone' e he heq
    obtain ⟨hlt, htarget⟩ := q.dag.mem_in_edges.mp he
    refine hne ?_
    rw [pointer_inj h hm hlt' hlt hop' (by rw [htarget]; exact hop) hdone' (hready e he) heq]
    exact htarget
  refine ⟨?_, ?_, ?_, ?_, ?_⟩
  · intro e hlt hop' hsource hwin dev
    rw [hdone] at hsource
    have hne : q.dag.target e ≠ v := by
      intro heq
      rw [heq, Function.update_self] at hwin
      cases hwin
    rw [Function.update_of_ne hne] at hwin
    rw [hdevice, hframe _ dev (hother e hlt hop' hne hsource)]
    exact hplace.waiting e hlt hop' hsource hwin dev
  · intro w hw hwin e he
    rw [hdevice]
    by_cases hwv : w = v
    · subst hwv
      exact hbuffers e he
    · rw [Function.update_of_ne hwv] at hwin
      obtain ⟨hlt, htarget⟩ := q.dag.mem_in_edges.mp he
      rw [hframe _ _ (hother e hlt (by rw [htarget]; exact hw) (by rw [htarget]; exact hwv)
        (hm.ready w hw hwin e he))]
      exact hplace.taken w hw hwin e he
  · intro w hw hwout hwexec dev
    have hwout' := (houtput w).mp hwout
    have hwexec' : mark w ≠ .executed := fun heq => hwexec ((hexecuted w).mpr heq)
    rw [hdevice, hframe _ dev ?_]
    · exact hplace.prepared w hw hwout' hwexec' dev
    · intro e he heq
      refine pointer_ne_out h hm (q.dag.mem_in_edges.mp he).1 (hready e he) hw hwout' ?_ heq.symm
      intro hsource
      rcases hready e he with hs | hs
      · exact hw.2.1 (hsource.symm.trans hs)
      · exact hwexec' (hsource ▸ hs)
  · intro w hw hwexec hlast
    have hwexec' := (hexecuted w).mp hwexec
    rw [hdevice, hframe _ _ ?_]
    · exact hplace.unread w hw hwexec' hlast
    · intro e he heq
      obtain ⟨hlt, htarget⟩ := q.dag.mem_in_edges.mp he
      refine pointer_ne_out h hm hlt (hready e he) hw (by rw [hwexec']; rfl) ?_ heq.symm
      intro hsource
      refine hlast e (q.dag.mem_out_edges.mpr ⟨hlt, hsource⟩) ?_
      rw [htarget]
      exact hop
  · intro a ha dev
    rw [set_input_counter] at ha
    rw [hframe a dev ?_]
    · exact hplace.new a ha dev
    · intro e he heq
      have hle := pointer_le h hm (q.dag.mem_in_edges.mp he).1 (hready e he)
      omega

/-- `transfer_op` takes the inputs to the device. -/
theorem Computes.take (h : q.Exchangeable f) (hm : Computes f q mark out m) (hop : q.dag.IsOp v)
    (hv : mark v = .sized) (hready : ∀ e ∈ q.dag.in_edges v, Done mark (q.dag.source e)) :
    Computes f q (Function.update mark v .taken) out (runtime_layer.set_input v m) := by
  obtain ⟨s, hs, hplace⟩ := hm.stores
  obtain ⟨s', hs', hbuffers, hframe⟩ := hm.take_buffers h hop hv hready hs hplace
  have hdone := done_iff mark v .taken (by rw [hv]; decide) (by decide)
  have houtput := mark_iff mark v .taken (fun t => t.has_output = true) (by rw [hv]; decide)
  have hbuilt := mark_iff mark v .taken (fun t => t = .compiled) (by rw [hv]; decide)
  obtain ⟨stores, hrest⟩ := set_input_edges_eq v (m.dag.in_edges v) m
  have hkernels : (runtime_layer.set_input v m).mKernelDictionary = m.mKernelDictionary := by
    rw [runtime_layer.set_input, hrest]
  obtain ⟨hcounter, hnew, hinj⟩ := hm.aliases_stay _ houtput (set_input_counter v m)
  refine ⟨hm.shape.trans (set_input_shape v m), hcounter, ?_, ?_, hnew, hinj, ?_, ?_, s', hs',
    hm.buffers_taken h hop hv hready hplace hbuffers hframe⟩
  · intro w hw
    rw [set_input_device]
    by_cases hwv : w = v
    · subst hwv
      rw [Function.update_self]
      exact hm.taken_node h hop hv hready
    · rw [set_input_vertex v m hwv, Function.update_of_ne hwv]
      exact hm.node w hw
  · intro e hlt hsource
    rw [houtput] at hsource
    rw [set_input_edge_data]
    exact hm.edge e hlt hsource
  · intro w hw hwin e he
    rw [hdone]
    by_cases hwv : w = v
    · subst hwv
      exact hready e he
    · rw [Function.update_of_ne hwv] at hwin
      exact hm.ready w hw hwin e he
  · intro w hw hmark
    have hmark' := (hbuilt w).mp hmark
    have hwv : w ≠ v := ne_of_mark hv (by rw [hmark']; decide)
    rw [set_input_vertex v m hwv, hkernels]
    exact hm.built w hw hmark'

/-- The counter leaves room for the alias of one more operation. -/
theorem Computes.room (h : q.Exchangeable f) (hm : Computes f q mark out m) (hop : q.dag.IsOp v)
    (hv : (mark v).has_output = false) :
    next_alias m = (m.total_data_set_in_device + 1 : Nat) ∧
      next_counter m.total_data_set_in_device = m.total_data_set_in_device + 1 := by
  have hlt : (q.operations.filter (fun w => (mark w).has_output)).length <
      q.operations.length := by
    refine List.length_filter_lt_length_iff_exists.mpr ⟨v, h.runnable.mem_operations.mpr hop, ?_⟩
    simp [hv]
  have hoperations : q.operations.length ≤ q.dag.num_vertices := by
    refine (List.length_filter_le _ _).trans ?_
    rw [h.runnable.topological.perm.length_eq, List.length_range]
  have hcounter := hm.counter
  have hsmall := h.small
  have hbound : m.total_data_set_in_device + 1 < 2 ^ 31 := by omega
  refine ⟨?_, ?_⟩
  · rw [next_alias, ← column_alias_zero]
    exact column_alias_small hbound
  · rw [next_counter]
    omega

/-- The edges after `prepare_output_buffer`. -/
theorem Computes.prepared_edge (h : q.Exchangeable f) (hm : Computes f q mark out m)
    (hop : q.dag.IsOp v) (hv : mark v = .taken) (hlt : e < q.dag.ends.length)
    (hs : q.dag.source e = v) :
    ((prepare_output_buffer v m).dag.edge e).data_pointer = next_alias m ∧
      ((prepare_output_buffer v m).dag.edge e).data_size = (q.edge_meaning f e).data_size := by
  have hmem : e ∈ m.dag.out_edges v := by
    rw [hm.shape.out_edges, mem_out_edges]
    exact ⟨hlt, hs⟩
  have hmeaning : q.edge_meaning f e = q.meaning f v := by
    rw [Query.edge_meaning, edge_flow, hs, if_neg hop.2.1]
  have hnode := hm.node v hop
  rw [hv] at hnode
  rw [prepare_output_buffer_edge, if_pos hmem, prepare_output_buffer_vertex_self, hmeaning,
    output_size_eq h hop.1]
  generalize (m.dag.vertex v).device = dev at hnode
  generalize next_alias m = a
  rw [hnode]
  exact ⟨rfl, rfl⟩

/-! The output gets its alias and its buffer. -/

theorem prepare_output_buffer_device (v : Nat) (m : Machine) (w : Nat) :
    ((prepare_output_buffer v m).dag.vertex w).device = (m.dag.vertex w).device := by
  by_cases hw : w = v
  · subst hw
    rw [prepare_output_buffer_vertex_self]
    rfl
  · rw [prepare_output_buffer_vertex _ _ hw]

theorem pointer_update (out : Nat → Int) (a : Int) (hs : q.dag.source e ≠ v) :
    q.pointer (Function.update out v a) e = q.pointer out e := by
  unfold Query.pointer
  rw [Function.update_of_ne hs]

theorem Computes.pointers_update (hm : Computes f q mark out m) (hop : q.dag.IsOp v)
    (hv : mark v ≠ .executed) (a : Int) (hw : q.dag.IsOp w) (hwin : (mark w).has_inputs = true) :
    (q.dag.in_edges w).map (q.pointer (Function.update out v a)) =
      (q.dag.in_edges w).map (q.pointer out) :=
  List.map_congr_left fun e he => pointer_update out a ((hm.ready w hw hwin e he).ne hop hv)

/-- The next alias is larger than all aliases before. -/
theorem Computes.aliases_prepared (h : q.Exchangeable f) (hm : Computes f q mark out m)
    (hop : q.dag.IsOp v) (hv : mark v = .taken) :
    (∀ w, q.dag.IsOp w → (Function.update mark v .prepared w).has_output = true →
        (q.counter + q.data_scan.entries.length : Nat) <
            Function.update out v (next_alias m) w ∧
          Function.update out v (next_alias m) w ≤
            ((prepare_output_buffer v m).total_data_set_in_device : Int)) ∧
      ∀ w w', q.dag.IsOp w → q.dag.IsOp w' →
        (Function.update mark v .prepared w).has_output = true →
        (Function.update mark v .prepared w').has_output = true →
          Function.update out v (next_alias m) w = Function.update out v (next_alias m) w' →
            w = w' := by
  obtain ⟨halias, hnext⟩ := hm.room h hop (by rw [hv]; rfl)
  have hcounter := hm.counter
  refine ⟨fun w hw hwout => ?_, fun w w' hw hw' hwout hwout' heq => ?_⟩
  · rw [prepare_output_buffer_counter, hnext]
    by_cases hwv : w = v
    · subst hwv
      rw [Function.update_self, halias]
      omega
    · rw [Function.update_of_ne hwv] at hwout ⊢
      have hnew := hm.alias_new w hw hwout
      omega
  · by_cases hwv : w = v
    · by_cases hwv' : w' = v
      · rw [hwv, hwv']
      · subst hwv
        rw [Function.update_of_ne hwv'] at hwout' heq
        rw [Function.update_self] at heq
        have hnew := (hm.alias_new w' hw' hwout').2
        omega
    · rw [Function.update_of_ne hwv] at hwout heq
      by_cases hwv' : w' = v
      · subst hwv'
        rw [Function.update_self] at heq
        have hnew := (hm.alias_new w hw hwout).2
        omega
      · rw [Function.update_of_ne hwv'] at hwout' heq
        exact hm.alias_inj w w' hw hw' hwout hwout' heq

/-- The output is a buffer of zeros, and the buffers behind the older aliases stay. -/
theorem Computes.buffers_prepared (h : q.Exchangeable f) (hm : Computes f q mark out m)
    (hop : q.dag.IsOp v) (hv : mark v = .taken) {s : Stores} (hplace : InPlace f q mark out m s) :
    InPlace f q (Function.update mark v .prepared) (Function.update out v (next_alias m))
      (prepare_output_buffer v m)
      (task_layer.add_data s (next_alias m) (List.replicate (m.dag.vertex v).input_size 0)
        (m.dag.vertex v).device) := by
  obtain ⟨halias, hnext⟩ := hm.room h hop (by rw [hv]; rfl)
  have hexec : mark v ≠ .executed := by rw [hv]; decide
  have hdone := done_iff mark v .prepared hexec (by decide)
  have hinputs := mark_iff mark v .prepared (fun t => t.has_inputs = true) (by rw [hv]; decide)
  have hexecuted := mark_iff mark v .prepared (fun t => t = .executed) (by rw [hv]; decide)
  have hdevice := prepare_output_buffer_device v m
  have hframe : ∀ zeros a dev, a ≤ (m.total_data_set_in_device : Int) →
      look (task_layer.add_data s (next_alias m) zeros (m.dag.vertex v).device) a dev =
        look s a dev := by
    intro zeros a dev ha
    apply openCL_layer.lookup_add_data_ne
    intro heq
    have hsame := (Prod.mk.inj heq).1
    omega
  refine ⟨?_, ?_, ?_, ?_, ?_⟩
  · intro e hlt hop' hsource hwin dev
    rw [hdone] at hsource
    rw [hdevice, pointer_update _ _ (hsource.ne hop hexec),
      hframe _ _ dev (pointer_le h hm hlt hsource)]
    refine hplace.waiting e hlt hop' hsource ?_ dev
    rw [Bool.eq_false_iff] at hwin ⊢
    rwa [ne_eq, ← hinputs]
  · intro w hw hwin e he
    have hwin' := (hinputs w).mp hwin
    have hsource := hm.ready w hw hwin' e he
    rw [hdevice, pointer_update _ _ (hsource.ne hop hexec),
      hframe _ _ _ (pointer_le h hm (q.dag.mem_in_edges.mp he).1 hsource)]
    exact hplace.taken w hw hwin' e he
  · intro w hw hwout hwexec dev
    rw [hdevice]
    by_cases hwv : w = v
    · subst hwv
      have hnode := hm.node w hw
      have hsize : (m.dag.vertex w).input_size = q.size f w := by
        rw [hv] at hnode
        rw [hnode]
        rfl
      rw [Function.update_self, hsize]
      have hnone := hplace.new (next_alias m) (by omega)
      by_cases hdev : dev = (m.dag.vertex w).device
      · rw [hdev, if_pos rfl]
        exact openCL_layer.lookup_add_data_new (AList.lookup_eq_none.mp (hnone _))
      · rw [if_neg hdev]
        refine Eq.trans ?_ (hnone dev)
        apply openCL_layer.lookup_add_data_ne
        exact fun heq => hdev (Prod.mk.inj heq).2
    · rw [Function.update_of_ne hwv] at hwout hwexec ⊢
      rw [hframe _ _ dev (hm.alias_new w hw hwout).2]
      exact hplace.prepared w hw hwout hwexec dev
  · intro w hw hwexec hlast
    have hwexec' := (hexecuted w).mp hwexec
    have hwv : w ≠ v := ne_of_mark hv (by rw [hwexec']; decide)
    rw [hdevice, Function.update_of_ne hwv,
      hframe _ _ _ (hm.alias_new w hw (by rw [hwexec']; rfl)).2]
    exact hplace.unread w hw hwexec' hlast
  · intro a ha dev
    rw [prepare_output_buffer_counter, hnext] at ha
    refine Eq.trans ?_ (hplace.new a (by omega) dev)
    apply openCL_layer.lookup_add_data_ne
    intro heq
    have hsame := (Prod.mk.inj heq).1
    omega

/-- `transfer_op` gives the output its alias and its buffer. -/
theorem Computes.prepare (h : q.Exchangeable f) (hm : Computes f q mark out m) (hop : q.dag.IsOp v)
    (hv : mark v = .taken) :
    Computes f q (Function.update mark v .prepared) (Function.update out v (next_alias m))
      (prepare_output_buffer v m) := by
  obtain ⟨s, hs, hplace⟩ := hm.stores
  obtain ⟨-, hnext⟩ := hm.room h hop (by rw [hv]; rfl)
  obtain ⟨hnew, hinj⟩ := hm.aliases_prepared h hop hv
  have hexec : mark v ≠ .executed := by rw [hv]; decide
  have hdone := done_iff mark v .prepared hexec (by decide)
  have hinputs := mark_iff mark v .prepared (fun t => t.has_inputs = true) (by rw [hv]; decide)
  have hbuilt := mark_iff mark v .prepared (fun t => t = .compiled) (by rw [hv]; decide)
  refine ⟨hm.shape.trans (prepare_output_buffer_shape v m), ?_, ?_, ?_, hnew, hinj, ?_, ?_, _,
    by rw [prepare_output_buffer_stores, hs, Option.map_some], hm.buffers_prepared h hop hv hplace⟩
  · have hfilter := filter_one_more h.runnable.operations_nodup (h.runnable.mem_operations.mpr hop)
      (P := fun w => (mark w).has_output)
      (Q := fun w => (Function.update mark v .prepared w).has_output)
      (by simp [hv, Turn.has_output]) (by simp [Turn.has_output])
      (fun w hw => by simp only [Function.update_of_ne hw])
    rw [hfilter, prepare_output_buffer_counter, hnext, hm.counter]
    omega
  · intro w hw
    rw [prepare_output_buffer_device]
    have hnode := hm.node w hw
    by_cases hwv : w = v
    · subst hwv
      rw [prepare_output_buffer_vertex_self, Function.update_self, Function.update_self,
        hm.pointers_update hop hexec _ hw (by rw [hv]; rfl)]
      rw [hv] at hnode
      generalize (m.dag.vertex w).device = dev at hnode ⊢
      rw [hnode]
      simp [Turn.node, set_device, (h.fresh w hop).2]
    · rw [prepare_output_buffer_vertex _ _ hwv, Function.update_of_ne hwv,
        Function.update_of_ne hwv]
      refine hnode.trans (Turn.node_congr ?_ (fun _ => rfl)).symm
      exact hm.pointers_update hop hexec _ hw
  · intro e hlt hsource
    by_cases hsv : q.dag.source e = v
    · have hop' : q.dag.source e ≠ start_vertex := fun hstart => hop.2.1 (hsv.symm.trans hstart)
      obtain ⟨hpoint, hsize⟩ := hm.prepared_edge h hop hv hlt hsv
      rw [pointer_of_op hop', hsv, Function.update_self]
      exact ⟨hpoint, hsize⟩
    · have hmem : e ∉ m.dag.out_edges v := by
        rw [hm.shape.out_edges, mem_out_edges]
        exact fun hout => hsv hout.2
      rw [Function.update_of_ne hsv] at hsource
      rw [prepare_output_buffer_edge, if_neg hmem, pointer_update _ _ hsv]
      exact hm.edge e hlt hsource
  · intro w hw hwin e he
    rw [hdone]
    exact hm.ready w hw ((hinputs w).mp hwin) e he
  · intro w hw hmark
    have hmark' := (hbuilt w).mp hmark
    have hwv : w ≠ v := ne_of_mark hv (by rw [hmark']; decide)
    have hkernels : (prepare_output_buffer v m).mKernelDictionary = m.mKernelDictionary := by
      simp [prepare_output_buffer, prepare_output, get_alias, Machine.log]
    rw [prepare_output_buffer_vertex _ _ hwv, hkernels]
    exact hm.built w hw hmark'

end device

/-! ## The steps of the worker -/

section worker

variable {f : String → List (List Word) → List Int → Nat → List Word} {q : Query}
variable {mark : Nat → Turn} {out : Nat → Int} {m : Machine} {e v w : Nat} {s : Stores}

/-- The worker builds the kernel. -/
theorem Computes.compile (hm : Computes f q mark out m) (hop : q.dag.IsOp v)
    (hv : mark v = .prepared) :
    Computes f q (Function.update mark v .compiled) out (compile_task v m) := by
  obtain ⟨s, hs, hplace⟩ := hm.stores
  have hdone := done_iff mark v .compiled (by rw [hv]; decide) (by decide)
  have hinputs := mark_iff mark v .compiled (fun t => t.has_inputs = true) (by rw [hv]; decide)
  have houtput := mark_iff mark v .compiled (fun t => t.has_output = true) (by rw [hv]; decide)
  have hexecuted := mark_iff mark v .compiled (fun t => t = .executed) (by rw [hv]; decide)
  obtain ⟨hcounter, hnew, hinj⟩ := hm.aliases_stay (compile_task v m) houtput rfl
  refine ⟨hm.shape, hcounter, ?_, ?_, hnew, hinj, ?_, ?_, s, hs, ?_, ?_, ?_, ?_, hplace.new⟩
  · intro w hw
    have hnode := hm.node w hw
    by_cases hwv : w = v
    · subst hwv
      rw [hv] at hnode
      rw [Function.update_self]
      exact hnode
    · rw [Function.update_of_ne hwv]
      exact hnode
  · intro e hlt hsource
    rw [houtput] at hsource
    exact hm.edge e hlt hsource
  · intro w hw hwin e he
    rw [hdone]
    exact hm.ready w hw ((hinputs w).mp hwin) e he
  · intro w hw hmark
    by_cases hwv : w = v
    · subst hwv
      exact List.mem_cons_self
    · rw [Function.update_of_ne hwv] at hmark
      exact List.mem_cons_of_mem _ (hm.built w hw hmark)
  · intro e hlt hop' hsource hwin dev
    rw [hdone] at hsource
    refine hplace.waiting e hlt hop' hsource ?_ dev
    rw [Bool.eq_false_iff] at hwin ⊢
    rwa [ne_eq, ← hinputs]
  · intro w hw hwin e he
    exact hplace.taken w hw ((hinputs w).mp hwin) e he
  · intro w hw hwout hwexec
    exact hplace.prepared w hw ((houtput w).mp hwout) (fun heq => hwexec ((hexecuted w).mpr heq))
  · intro w hw hwexec
    exact hplace.unread w hw ((hexecuted w).mp hwexec)

/-- The stores after a kernel has written its output. -/
def filled (s : Stores) (a : Int) (dev : Device) (words : List Word) : Stores :=
  { s with openCL := s.openCL.insert (a, dev) words }

theorem look_filled_self (s : Stores) (a : Int) (dev : Device) (words : List Word) :
    look (filled s a dev words) a dev = some words := AList.lookup_insert _

theorem look_filled_ne {a a' : Int} {dev dev' : Device} {words : List Word}
    (h : (a', dev') ≠ (a, dev)) : look (filled s a dev words) a' dev' = look s a' dev' :=
  AList.lookup_insert_ne h

/-- The kernel of a vertex finds its inputs and writes the words of the meaning. -/
theorem Computes.launch (h : q.Exchangeable f) (hm : Computes f q mark out m) (hop : q.dag.IsOp v)
    (hv : mark v = .compiled) (hplace : InPlace f q mark out m s) :
    execute_openCL (Kernels.total f).openCL (launch_of 0 (m.dag.vertex v)) s =
      some (filled s (out v) (m.dag.vertex v).device (q.meaning f v).words) := by
  have hnode := hm.node v hop
  rw [hv] at hnode
  have hargs : (launch_of 0 (m.dag.vertex v)).args =
      (q.dag.in_edges v).map (q.pointer out) ++ [out v] := by
    rw [hnode]
    rfl
  have hinputs : ((q.dag.in_edges v).map (q.pointer out)).mapM (fun a =>
      look s a (m.dag.vertex v).device) =
        some ((q.dag.in_edges v).map (fun e => (q.edge_meaning f e).words)) :=
    mapM_lookup_map (hplace.taken v hop (by rw [hv]; rfl))
  have hzeros := hplace.prepared v hop (by rw [hv]; rfl) (by rw [hv]; decide)
    (m.dag.vertex v).device
  rw [if_pos rfl] at hzeros
  have hbuffers : (launch_of 0 (m.dag.vertex v)).args.mapM (fun a =>
      look s a (launch_of 0 (m.dag.vertex v)).device) =
        some ((q.dag.in_edges v).map (fun e => (q.edge_meaning f e).words) ++
          [List.replicate (q.size f v) 0]) := by
    have hdevice : (launch_of 0 (m.dag.vertex v)).device = (m.dag.vertex v).device := rfl
    rw [hdevice, hargs, List.mapM_append, hinputs]
    simp [hzeros]
  have hwords : (launch_of 0 (m.dag.vertex v)).kernel = (q.dag.vertex v).mKernelName ∧
      (launch_of 0 (m.dag.vertex v)).params = (q.dag.vertex v).additional_parameters ∧
      (launch_of 0 (m.dag.vertex v)).globalSize =
        q.size f v / (q.dag.vertex v).input_to_output_ratio := by
    rw [hnode]
    exact ⟨rfl, rfl, rfl⟩
  rw [execute_openCL_eq hargs hbuffers, hwords.1, hwords.2.1, hwords.2.2,
    output_words_eq h hop.1]
  rfl

/-- The output holds the words of the meaning, and the other buffers stay. -/
theorem Computes.buffers_executed (h : q.Exchangeable f) (hm : Computes f q mark out m)
    (hop : q.dag.IsOp v) (hv : mark v = .compiled) (hplace : InPlace f q mark out m s)
    {m' : Machine} (hdag : m'.dag = m.dag)
    (hcounter : m'.total_data_set_in_device = m.total_data_set_in_device) :
    InPlace f q (Function.update mark v .executed) out m'
      (filled s (out v) (m.dag.vertex v).device (q.meaning f v).words) := by
  have hinputs := mark_iff mark v .executed (fun t => t.has_inputs = true) (by rw [hv]; decide)
  have hexec : mark v ≠ .executed := by rw [hv]; decide
  have hvout : (mark v).has_output = true := by rw [hv]; rfl
  have hself := look_filled_self s (out v) (m.dag.vertex v).device (q.meaning f v).words
  have hframe : ∀ a dev, (a, dev) ≠ (out v, (m.dag.vertex v).device) →
      look (filled s (out v) (m.dag.vertex v).device (q.meaning f v).words) a dev = look s a dev :=
    fun a dev hne => look_filled_ne hne
  have hother : ∀ a dev, a ≠ out v → (a, dev) ≠ (out v, (m.dag.vertex v).device) :=
    fun a dev ha heq => ha (Prod.mk.inj heq).1
  generalize filled s (out v) (m.dag.vertex v).device (q.meaning f v).words = s' at *
  refine ⟨?_, ?_, ?_, ?_, ?_⟩
  · intro e hlt hop' hsource hwin dev
    have hwin' : (mark (q.dag.target e)).has_inputs = false := by
      rw [Bool.eq_false_iff] at hwin ⊢
      rwa [ne_eq, ← hinputs]
    rw [hdag]
    by_cases hsv : q.dag.source e = v
    · -- The output that has just become complete.
      have hstart : q.dag.source e ≠ start_vertex := fun hs => hop.2.1 (hsv.symm.trans hs)
      have hmeaning : q.edge_meaning f e = q.meaning f v := by
        rw [Query.edge_meaning, edge_flow, if_neg hstart, hsv]
      have hbuffer := hplace.prepared v hop hvout hexec dev
      rw [pointer_of_op hstart, hsv, hmeaning]
      by_cases hdev : dev = (m.dag.vertex v).device
      · rw [hdev, if_pos rfl]
        exact hself
      · rw [if_neg hdev] at hbuffer ⊢
        rw [hframe _ _ (fun heq => hdev (Prod.mk.inj heq).2)]
        exact hbuffer
    · have hsource' := (done_executed_iff hsv).mp hsource
      rw [hframe _ _ (hother _ dev (pointer_ne_out h hm hlt hsource' hop hvout hsv))]
      exact hplace.waiting e hlt hop' hsource' hwin' dev
  · intro w hw hwin e he
    have hwin' := (hinputs w).mp hwin
    have hsource := hm.ready w hw hwin' e he
    rw [hdag, hframe _ _ (hother _ _ (pointer_ne_out h hm (q.dag.mem_in_edges.mp he).1 hsource hop
      hvout (hsource.ne hop hexec)))]
    exact hplace.taken w hw hwin' e he
  · intro w hw hwout hwexec dev
    have hwv : w ≠ v := by
      rintro rfl
      rw [Function.update_self] at hwexec
      exact hwexec rfl
    rw [Function.update_of_ne hwv] at hwout hwexec
    rw [hdag, hframe _ _ (hother _ dev (fun heq => hwv (hm.alias_inj w v hw hop hwout hvout heq)))]
    exact hplace.prepared w hw hwout hwexec dev
  · intro w hw hwexec hlast
    rw [hdag]
    by_cases hwv : w = v
    · subst hwv
      exact hself
    · rw [Function.update_of_ne hwv] at hwexec
      have hwout : (mark w).has_output = true := by rw [hwexec]; rfl
      rw [hframe _ _ (hother _ _ (fun heq => hwv (hm.alias_inj w v hw hop hwout hvout heq)))]
      exact hplace.unread w hw hwexec hlast
  · intro a ha dev
    rw [hcounter] at ha
    have hle := (hm.alias_new v hop hvout).2
    rw [hframe a dev (hother a dev (by omega))]
    exact hplace.new a ha dev

/-- The worker executes the vertex: its output is complete. -/
theorem Computes.execute (h : q.Exchangeable f) (hm : Computes f q mark out m) (hop : q.dag.IsOp v)
    (hv : mark v = .compiled) :
    Computes f q (Function.update mark v .executed) out (execute_node (.total f) 0 v m) := by
  obtain ⟨s, hs, hplace⟩ := hm.stores
  have hinputs := mark_iff mark v .executed (fun t => t.has_inputs = true) (by rw [hv]; decide)
  have houtput := mark_iff mark v .executed (fun t => t.has_output = true) (by rw [hv]; decide)
  have hstores : (execute_node (.total f) 0 v m).stores =
      some (filled s (out v) (m.dag.vertex v).device (q.meaning f v).words) := by
    rw [← hm.launch h hop hv hplace]
    simp only [execute_node, Machine.log, if_true, if_pos (hm.built v hop hv), hs, Option.bind_some]
  obtain ⟨hcounter, hnew, hinj⟩ :=
    hm.aliases_stay (execute_node (.total f) 0 v m) houtput rfl
  refine ⟨hm.shape, hcounter, ?_, ?_, hnew, hinj, ?_, ?_, _, hstores,
    hm.buffers_executed h hop hv hplace rfl rfl⟩
  · intro w hw
    have hnode := hm.node w hw
    by_cases hwv : w = v
    · subst hwv
      rw [hv] at hnode
      rw [Function.update_self]
      exact hnode
    · rw [Function.update_of_ne hwv]
      exact hnode
  · intro e hlt hsource
    rw [houtput] at hsource
    exact hm.edge e hlt hsource
  · intro w hw hwin e he
    have hsource := hm.ready w hw ((hinputs w).mp hwin) e he
    exact (done_executed_iff (hsource.ne hop (by rw [hv]; decide))).mpr hsource
  · intro w hw hmark
    have hwv : w ≠ v := by
      rintro rfl
      rw [Function.update_self] at hmark
      cases hmark
    rw [Function.update_of_ne hwv] at hmark
    exact hm.built w hw hmark

/-- The worker sets a flag: no alias and no size changes. -/
theorem Computes.flag (hm : Computes f q mark out m) (e : Nat) :
    Computes f q mark out (m.modify_edge e (fun d => { d with ready_for_next_step := true })) := by
  obtain ⟨s, hs, hplace⟩ := hm.stores
  refine ⟨hm.shape.trans ⟨rfl, rfl, rfl⟩, hm.counter, hm.node, ?_, hm.alias_new, hm.alias_inj,
    hm.ready, hm.built, s, hs, hplace.waiting, hplace.taken, hplace.prepared, hplace.unread,
    hplace.new⟩
  intro e' hlt hsource
  have hedge := hm.edge e' hlt hsource
  simp only [Machine.modify_edge, query_graph.modify_edge, Function.update_apply]
  split
  · rename_i heq
    subst heq
    exact hedge
  · exact hedge

end worker

end hero.morsel_driven
