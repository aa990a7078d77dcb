-- The law of data placement: when `execute_graph` launches a vertex, its inputs are on its device
-- if and only if no buffer is taken to another device by one edge and read through a later one.
import HeroDB.Lib.Relocation
import HeroDB.StoreSteps
import HeroDB.Wiring
import Mathlib.Data.List.TakeDrop

namespace hero.runtime_layer

open query_graph (SameShape)
open relocation (Trips Kept)

/-! ## The property -/

/-- Kernels without undefined behaviour: `f` is what they write. -/
def Kernels.total (f : String → List (List Word) → List Int → Nat → List Word) : Kernels where
  openCL kernel buffers params globalSize := some (f kernel buffers params globalSize)
  cpp kernel arrays params globalSize := some (f kernel arrays params globalSize)

/-- A query for `execute_graph` in OpenCL: a new graph with any devices, the columns, a topological
order, the alias counter, and the buffers that earlier graphs left. -/
structure Plan where
  dag : query_graph
  data_scan : ScanMap
  order : List Nat
  counter : Nat
  st : Stores
  query : IsQuery dag
  fresh : FreshNodes dag
  topological : IsTopological dag order
  small : counter + data_scan.entries.length + dag.num_vertices < 2 ^ 31
  environment : dag.execution_environment = 0
  old : ∀ key, key ∈ st.openCL → key.1 ≤ counter

namespace Plan

variable (f : String → List (List Word) → List Int → Nat → List Word) (p : Plan)

def device (v : Nat) : Device := (p.dag.vertex v).device

/-- The machine after the turns of some vertices. -/
def run (pre : List Nat) : Machine := after (.total f) p.dag p.data_scan p.counter p.st pre

/-- The machine at the turn of a vertex. -/
def at_turn (v : Nat) : Machine := p.run f (p.order.takeWhile (· ≠ v))

/-- The stores when a vertex is launched. -/
def stores_at_launch (v : Nat) : Option Stores :=
  (prepare_output_buffer v (set_input v (p.at_turn f v))).stores

/-- What the source of an edge wrote under an alias: the column that `load_data` placed, or the
words that the source left in its buffer. -/
def Wrote (e : Nat) (data_pointer : Int) (words : List Word) : Prop :=
  if p.dag.source e = start_vertex then
    ∃ c ∈ p.data_scan.entries,
      .place c.1 data_pointer ∈ (p.at_turn f (p.dag.target e)).trace ∧ words = c.2
  else
    (operate (.total f) (p.dag.source e) (p.at_turn f (p.dag.source e))).stores.bind (fun s =>
      s.openCL.lookup (data_pointer, p.device (p.dag.source e))) = some words

/-- The buffer has what the source of the edge wrote, up to the size on the edge. -/
def InputInPlace (s : Stores) (v e : Nat) : Prop :=
  ∃ words buffer, p.Wrote f e ((p.at_turn f v).dag.edge e).data_pointer words ∧
    s.openCL.lookup (((p.at_turn f v).dag.edge e).data_pointer, p.device v) = some buffer ∧
    buffer.takeD ((p.at_turn f v).dag.edge e).data_size 0 =
      words.takeD ((p.at_turn f v).dag.edge e).data_size 0

/-- When the vertex is launched, nothing went wrong so far, and each input alias has a buffer on the
device of the vertex, with the values of its source. -/
def InputsInPlace (v : Nat) : Prop :=
  ∃ s, p.stores_at_launch f v = some s ∧ ∀ e ∈ p.dag.in_edges v, p.InputInPlace f s v e

/-- Every operation finds its inputs in place. -/
def Placed : Prop := ∀ v, p.dag.IsOp v → p.InputsInPlace f v

/-! ## The condition -/

/-- The alias that an edge carries at the turn of its target. -/
def pointer (e : Nat) : Int := edge_alias p.dag p.data_scan p.counter p.order e

def output (v : Nat) : Int := out_alias p.data_scan p.counter p.order v

def column (j : Nat) : Int :=
  column_alias (counter_at p.data_scan p.counter p.order start_vertex) j

/-- The two ends of the edge are on different devices. -/
def Remote (e : Nat) : Prop := p.device (p.dag.source e) ≠ p.device (p.dag.target e)

/-- The edges that the turns of some vertices read with `set_input`, in order. -/
def reads (pre : List Nat) : List Nat := (pre.filter (· ≠ end_vertex)).flatMap p.dag.in_edges

/-- The first edge takes no buffer away from the second. -/
def Spares (e e' : Nat) : Prop := p.pointer e = p.pointer e' → ¬ p.Remote e

/-- The turns of some vertices put a buffer for the alias on the device. -/
def Home (pre : List Nat) (a : Int) (dev : Device) : Prop :=
  (start_vertex ∈ pre ∧ dev = p.device start_vertex ∧
      ∃ j < p.data_scan.entries.length, a = p.column j) ∨
    ∃ u ∈ pre, p.dag.IsOp u ∧ a = p.output u ∧ dev = p.device u

/-- After the turns of some vertices the alias has a buffer on the device: an edge took it there, or
no edge took it away. -/
def Present (pre : List Nat) (a : Int) (dev : Device) : Prop :=
  (∃ e ∈ p.reads pre, p.Remote e ∧ p.pointer e = a ∧ p.device (p.dag.target e) = dev) ∨
    ((∀ e ∈ p.reads pre, p.Remote e → p.pointer e ≠ a) ∧
      (p.Home pre a dev ∨ (a, dev) ∈ p.st.openCL))

/-- Every edge from the scan to an operation carries the alias of a column, no edge takes a buffer
away from a later edge, and a display between operations finds the buffers that it reads. -/
structure KeepsPlaces : Prop where
  resolved : ∀ e ∈ p.reads p.order, p.dag.source e = start_vertex →
    ∃ j < p.data_scan.entries.length, p.pointer e = p.column j
  unshared : (p.reads p.order).Pairwise p.Spares
  shown : ∀ pre post, p.order = pre ++ end_vertex :: post → (∃ v ∈ post, p.dag.IsOp v) →
    ∀ e ∈ p.dag.in_edges end_vertex, p.Present pre (p.pointer e) (p.device (p.dag.source e))

end Plan

/-! ## The buffers -/

namespace Plan

section buffers

variable (f : String → List (List Word) → List Int → Nat → List Word) (p : Plan)

/-- The size on an edge at the turn of its target. -/
def size (e : Nat) : Nat := ((p.at_turn f (p.dag.target e)).dag.edge e).data_size

/-- The transfers of `set_input`, as trips of the buffers. -/
def trips : Trips Int Device (List Word) Nat where
  item := p.pointer
  away := p.Remote
  goal e := p.device (p.dag.target e)
  cargo e words := words.takeD (p.size f e) 0

/-- What an operation left in its buffer. -/
def written (u : Nat) : Option (List Word) :=
  (operate (.total f) u (p.at_turn f u)).stores.bind (fun s => look s (p.output u) (p.device u))

/-- The columns, with the aliases and the device that the turn of the scan gives them. -/
def Column (a : Int) (dev : Device) (words : List Word) : Prop :=
  dev = p.device start_vertex ∧
    ∃ j c, p.data_scan.entries[j]? = some c ∧ a = p.column j ∧ words = c.2

/-- The output of an operation, with its alias and its device. -/
def Output (u : Nat) (a : Int) (dev : Device) (words : List Word) : Prop :=
  a = p.output u ∧ dev = p.device u ∧ p.written f u = some words

/-- What the turns of some vertices stored: the columns, and the outputs of operations. -/
def Stored (pre : List Nat) (a : Int) (dev : Device) (words : List Word) : Prop :=
  (start_vertex ∈ pre ∧ p.Column a dev words) ∨
    ∃ u ∈ pre, p.dag.IsOp u ∧ p.Output f u a dev words

/-- After the turns of some vertices nothing went wrong, every buffer is where the edges read so far
have left it and none was taken from a later edge, every operation has written its output, and every
edge read so far had a buffer. -/
structure Good (pre : List Nat) (s : Stores) : Prop where
  stores : (p.run f pre).stores = some s
  kept : Kept (p.trips f) (look p.st) (p.Stored f pre) (p.reads pre) (look s)
  unshared : (p.reads pre).Pairwise p.Spares
  wrote : ∀ u ∈ pre, p.dag.IsOp u → ∃ words, p.written f u = some words
  known : ∀ e ∈ p.reads pre, ∃ words,
    p.Stored f pre (p.pointer e) (p.device (p.dag.source e)) words

end buffers

section facts

variable {f : String → List (List Word) → List Int → Nat → List Word} {p : Plan}
variable {pre post : List Nat} {v e : Nat} {a : Int} {dev dev' : Device} {words words' : List Word}

theorem start_mem (p : Plan) : start_vertex ∈ p.order := p.topological.start_mem p.query

theorem wired (f : String → List (List Word) → List Int → Nat → List Word)
    (hsplit : p.order = pre ++ post) :
    Wired (.total f) p.dag p.data_scan p.counter p.st p.order pre (p.run f pre) :=
  wired_after _ p.st p.query p.topological p.small pre post hsplit

theorem at_turn_eq (f : String → List (List Word) → List Int → Nat → List Word)
    (hsplit : p.order = pre ++ v :: post) : p.at_turn f v = p.run f pre := by
  rw [at_turn, p.topological.takeWhile_eq hsplit]

theorem run_snoc (f : String → List (List Word) → List Int → Nat → List Word)
    (hsplit : p.order = pre ++ v :: post) :
    (v = start_vertex ∧ p.run f (pre ++ [v]) = load_data p.data_scan v (p.run f pre)) ∨
      (v = end_vertex ∧ p.run f (pre ++ [v]) = display_result (p.run f pre)) ∨
      (p.dag.IsOp v ∧ p.run f (pre ++ [v]) = operate (.total f) v (p.run f pre)) := by
  have hlt : v < p.dag.num_vertices := (p.topological.mem_iff v).mp (by simp [hsplit])
  have hturn : p.run f (pre ++ [v]) =
      execute_vertex (.total f) p.data_scan (p.run f pre) v := after_snoc pre v
  rw [hturn]
  exact execute_vertex_cases _ p.data_scan p.query hlt ((wired f hsplit).name_eq v)

theorem counter_lt_output (p : Plan) (u : Nat) : p.counter < p.output u := by
  unfold output out_alias counter_at
  omega

theorem counter_lt_column {j : Nat} (hj : j < p.data_scan.entries.length) :
    p.counter < p.column j := by
  unfold column
  rw [column_alias_at p.data_scan p.counter p.topological p.start_mem p.small hj]
  unfold counter_at
  omega

theorem column_inj {i j : Nat} (hi : i < p.data_scan.entries.length)
    (hj : j < p.data_scan.entries.length) (heq : p.column i = p.column j) : i = j := by
  unfold column at heq
  rw [column_alias_at p.data_scan p.counter p.topological p.start_mem p.small hi,
    column_alias_at p.data_scan p.counter p.topological p.start_mem p.small hj] at heq
  omega

/-- An alias of this run was never used before. -/
theorem look_new (h : p.counter < a) (dev : Device) : look p.st a dev = none := by
  apply AList.lookup_eq_none.mpr
  intro hmem
  have hle : a ≤ p.counter := p.old _ hmem
  omega

theorem Column.lt (h : p.Column a dev words) : p.counter < a := by
  obtain ⟨-, j, c, hj, ha, -⟩ := h
  rw [ha]
  exact counter_lt_column (List.getElem?_eq_some_iff.mp hj).1

theorem Stored.lt (h : p.Stored f pre a dev words) : p.counter < a := by
  rcases h with ⟨-, hcol⟩ | ⟨u, -, -, rfl, -, -⟩
  · exact hcol.lt
  · exact counter_lt_output p u

theorem Column.ne_output (h : p.Column a dev words) {u : Nat} (hop : p.dag.IsOp u) :
    a ≠ p.output u := by
  obtain ⟨-, j, c, hj, ha, -⟩ := h
  rw [ha]
  exact (out_alias_ne_column p.data_scan p.counter p.topological p.start_mem p.small hop
    (List.getElem?_eq_some_iff.mp hj).1).symm

theorem Column.unique (h : p.Column a dev words) (h' : p.Column a dev' words') :
    dev = dev' ∧ words = words' := by
  obtain ⟨hdev, i, c, hi, ha, hwords⟩ := h
  obtain ⟨hdev', j, c', hj, ha', hwords'⟩ := h'
  have hij : i = j := column_inj (List.getElem?_eq_some_iff.mp hi).1
    (List.getElem?_eq_some_iff.mp hj).1 (ha.symm.trans ha')
  rw [hij, hj, Option.some.injEq] at hi
  exact ⟨hdev.trans hdev'.symm, by rw [hwords, hwords', hi]⟩

theorem Output.unique {u : Nat} (h : p.Output f u a dev words) (h' : p.Output f u a dev' words') :
    dev = dev' ∧ words = words' := by
  obtain ⟨-, rfl, hw⟩ := h
  obtain ⟨-, rfl, hw'⟩ := h'
  rw [hw] at hw'
  exact ⟨rfl, Option.some.inj hw'⟩

/-- An alias is stored once. -/
theorem Stored.unique (h : p.Stored f pre a dev words) (h' : p.Stored f pre a dev' words') :
    dev = dev' ∧ words = words' := by
  rcases h with ⟨-, hcol⟩ | ⟨u, -, hop, hout⟩
  · rcases h' with ⟨-, hcol'⟩ | ⟨u', -, hop', hout'⟩
    · exact hcol.unique hcol'
    · exact absurd hout'.1 (hcol.ne_output hop')
  · rcases h' with ⟨-, hcol'⟩ | ⟨u', -, hop', hout'⟩
    · exact absurd hout.1 (hcol'.ne_output hop)
    · obtain rfl := out_alias_inj p.data_scan p.counter p.topological hop hop'
        (hout.1.symm.trans hout'.1)
      exact hout.unique hout'

theorem reads_snoc (p : Plan) (pre : List Nat) (hv : v ≠ end_vertex) :
    p.reads (pre ++ [v]) = p.reads pre ++ p.dag.in_edges v := by
  unfold reads
  simp [List.filter_append, hv]

theorem reads_end (p : Plan) (pre : List Nat) : p.reads (pre ++ [end_vertex]) = p.reads pre := by
  unfold reads
  simp [List.filter_append]

theorem in_edges_start (p : Plan) : p.dag.in_edges start_vertex = [] := by
  rw [List.eq_nil_iff_forall_not_mem]
  intro e he
  obtain ⟨hlt, htarget⟩ := p.dag.mem_in_edges.mp he
  exact p.query.scan_first _ (p.dag.ends_mem hlt) htarget

/-- At the turn of its target an edge carries its alias and its size. -/
theorem edge_at_turn (f : String → List (List Word) → List Int → Nat → List Word)
    (hsplit : p.order = pre ++ v :: post) (he : e ∈ p.dag.in_edges v) :
    ((p.run f pre).dag.edge e).data_pointer = p.pointer e ∧
      ((p.run f pre).dag.edge e).data_size = p.size f e := by
  obtain ⟨hlt, htarget⟩ := p.dag.mem_in_edges.mp he
  refine ⟨(wired f hsplit).carries e hlt (p.topological.sources_done hsplit he), ?_⟩
  rw [size, htarget, at_turn_eq f hsplit]

end facts

/-! ## The inputs of an operation -/

section inputs

variable {f : String → List (List Word) → List Int → Nat → List Word} {p : Plan}
variable {pre post es : List Nat} {v e : Nat} {s : Stores} {words : List Word}

/-- The loop of `set_input` changes no edge, no device and no end. -/
theorem inputs_frame (f : String → List (List Word) → List Int → Nat → List Word)
    (hsplit : p.order = pre ++ v :: post) (es : List Nat) :
    (es.foldl (set_input_edge v) (p.run f pre)).dag.edge = (p.run f pre).dag.edge ∧
      (∀ u, ((es.foldl (set_input_edge v) (p.run f pre)).dag.vertex u).device = p.device u) ∧
      SameShape p.dag (es.foldl (set_input_edge v) (p.run f pre)).dag := by
  have hw := wired f hsplit
  have hdevice := set_input_edges_device v es (p.run f pre)
  obtain ⟨stores, heq⟩ := set_input_edges_eq v es (p.run f pre)
  rw [heq] at hdevice ⊢
  exact ⟨rfl, fun u => (hdevice u).trans (hw.device_eq u), hw.shape.trans ⟨rfl, rfl, rfl⟩⟩

/-- What `set_input` does to the stores for one edge. -/
theorem transfer_eq (f : String → List (List Word) → List Int → Nat → List Word)
    (hsplit : p.order = pre ++ v :: post) (he : e ∈ p.dag.in_edges v) (es : List Nat) :
    (¬ p.Remote e → transfer_input (es.foldl (set_input_edge v) (p.run f pre)) e =
        (es.foldl (set_input_edge v) (p.run f pre)).stores) ∧
      (p.Remote e → transfer_input (es.foldl (set_input_edge v) (p.run f pre)) e =
        (es.foldl (set_input_edge v) (p.run f pre)).stores.bind (fun s =>
          (openCL_layer.transfer_data openCL_layer.cl_success s.openCL (p.pointer e)
            (p.device (p.dag.source e)) (p.device (p.dag.target e)) (p.size f e)).map
              (fun d => { s with openCL := d }))) := by
  obtain ⟨hedge, hdevice, hshape⟩ := inputs_frame f hsplit es
  obtain ⟨hpointer, hsize⟩ := edge_at_turn f hsplit he
  unfold transfer_input
  rw [hshape.source, hshape.target, hdevice, hdevice, hedge, hpointer, hsize]
  refine ⟨fun hlocal => if_neg hlocal, fun hremote => if_pos hremote⟩

/-- The first edge that takes a buffer away. -/
theorem take_first (hkept : Kept (p.trips f) (look p.st) (p.Stored f pre) es (look s))
    (hw : p.Stored f pre (p.pointer e) (p.device (p.dag.source e)) words) (hremote : p.Remote e)
    (hfirst : ∀ e' ∈ es, p.Spares e' e) :
    ∃ d, openCL_layer.transfer_data openCL_layer.cl_success s.openCL (p.pointer e)
        (p.device (p.dag.source e)) (p.device (p.dag.target e)) (p.size f e) = some d ∧
      Kept (p.trips f) (look p.st) (p.Stored f pre) (es ++ [e]) (look { s with openCL := d }) := by
  have hfree : ∀ e' ∈ es, (p.trips f).away e' → (p.trips f).item e' ≠ p.pointer e :=
    fun e' he' haway heq => hfirst e' he' heq haway
  have hhome := hkept.home _ _ _ hw hfree
  have hsrc : s.openCL.lookup (p.pointer e, p.device (p.dag.source e)) = some words := by
    simpa [look] using hhome (p.device (p.dag.source e))
  have htar : (p.pointer e, p.device (p.dag.target e)) ∉ s.openCL := by
    apply AList.lookup_eq_none.mp
    have hnone := hhome (p.device (p.dag.target e))
    rwa [if_neg (Ne.symm hremote)] at hnone
  obtain ⟨d, hd, hat, hleft, hframe⟩ := openCL_layer.transfer_data_moves hsrc htar hremote
  refine ⟨d, hd, ?_⟩
  apply hkept.move (e := e) hremote hw (fun _ _ hw' => (Stored.unique hw' hw).2) hfree
    (Ne.symm hremote) hat hleft
  intro a dev hne hne'
  exact hframe (a, dev) hne hne'

/-- An edge whose buffer was taken away by an earlier edge. -/
theorem take_lost (hkept : Kept (p.trips f) (look p.st) (p.Stored f pre) es (look s))
    (hw : p.Stored f pre (p.pointer e) (p.device (p.dag.source e)) words) {e' : Nat}
    (he' : e' ∈ es) {words' : List Word}
    (hw' : p.Stored f pre (p.pointer e') (p.device (p.dag.source e')) words')
    (hshare : ¬ p.Spares e' e) : look s (p.pointer e) (p.device (p.dag.source e)) = none := by
  unfold Spares at hshare
  push Not at hshare
  obtain ⟨heq, hremote⟩ := hshare
  apply hkept.lost hw he' hremote heq
  intro hgoal
  rw [heq] at hw'
  have hsame := (Stored.unique hw' hw).1
  exact hremote (hsame.trans hgoal.symm)

/-- The loop of `set_input`, edge by edge: either every buffer that goes to another device was at
its source, or an edge asks for a buffer that an earlier edge took. -/
theorem inputs_run (hsplit : p.order = pre ++ v :: post) (hgood : p.Good f pre s)
    (hknown : ∀ e ∈ p.dag.in_edges v, ∃ words,
      p.Stored f pre (p.pointer e) (p.device (p.dag.source e)) words)
    (es rest : List Nat) (hes : p.dag.in_edges v = es ++ rest) :
    (∃ s', (es.foldl (set_input_edge v) (p.run f pre)).stores = some s' ∧
        Kept (p.trips f) (look p.st) (p.Stored f pre) (p.reads pre ++ es) (look s') ∧
        (p.reads pre ++ es).Pairwise (fun e e' => p.Remote e' → p.Spares e e')) ∨
      ((es.foldl (set_input_edge v) (p.run f pre)).stores = none ∧
        ¬ (p.reads pre ++ es).Pairwise p.Spares) := by
  induction es using List.reverseRecOn generalizing rest with
  | nil =>
    left
    rw [List.append_nil]
    refine ⟨s, hgood.stores, hgood.kept, ?_⟩
    apply hgood.unshared.imp
    exact fun hspares _ => hspares
  | append_singleton es e ih =>
    have hes' : p.dag.in_edges v = es ++ e :: rest := by simpa using hes
    have he : e ∈ p.dag.in_edges v := by simp [hes']
    obtain ⟨hlocal, hremote⟩ := transfer_eq f hsplit he es
    have hstep : ((es ++ [e]).foldl (set_input_edge v) (p.run f pre)).stores =
        transfer_input (es.foldl (set_input_edge v) (p.run f pre)) e := by
      simp [set_input_edge]
    have hpair : ∀ {R : Nat → Nat → Prop}, (p.reads pre ++ (es ++ [e])).Pairwise R ↔
        (p.reads pre ++ es).Pairwise R ∧ ∀ e' ∈ p.reads pre ++ es, R e' e := by
      intro R
      rw [← List.append_assoc, List.pairwise_append]
      simp
    rw [hstep, hpair, hpair]
    rcases ih (e :: rest) hes' with ⟨s', hs', hkept, hfirst⟩ | ⟨hnone, hshare⟩
    · obtain ⟨words, hw⟩ := hknown e he
      by_cases haway : p.Remote e
      · rw [hremote haway, hs', Option.bind_some]
        by_cases hall : ∀ e' ∈ p.reads pre ++ es, p.Spares e' e
        · left
          obtain ⟨d, hd, hkept'⟩ := take_first hkept hw haway hall
          refine ⟨_, by rw [hd, Option.map_some], ?_, hfirst, fun e' he' _ => hall e' he'⟩
          rw [← List.append_assoc]
          exact hkept'
        · right
          refine ⟨?_, fun hpairs => hall hpairs.2⟩
          push Not at hall
          obtain ⟨e', he', hshare⟩ := hall
          have hw' : ∃ words', p.Stored f pre (p.pointer e') (p.device (p.dag.source e')) words' := by
            rcases List.mem_append.mp he' with hmem | hmem
            · exact hgood.known e' hmem
            · exact hknown e' (by simp [hes', hmem])
          obtain ⟨words', hw'⟩ := hw'
          have hlost := take_lost hkept hw he' hw' hshare
          rw [openCL_layer.transfer_data_none (AList.lookup_eq_none.mp hlost), Option.map_none]
      · left
        refine ⟨s', by rw [hlocal haway, hs'], ?_, hfirst, fun e' _ hremote' => absurd hremote' haway⟩
        rw [← List.append_assoc]
        exact hkept.stay haway
    · right
      refine ⟨?_, fun hpairs => hshare hpairs.1⟩
      by_cases haway : p.Remote e
      · rw [hremote haway, hnone, Option.bind_none]
      · rw [hlocal haway, hnone]

end inputs

/-! ## The launch of an operation -/

section launch

variable {f : String → List (List Word) → List Int → Nat → List Word} {p : Plan}
variable {pre post : List Nat} {v e : Nat} {s : Stores} {words : List Word}

/-- The output alias of an operation is not stored before its turn. -/
theorem output_is_new (hsplit : p.order = pre ++ v :: post) (hop : p.dag.IsOp v) {a : Int}
    {dev : Device} (h : p.Stored f pre a dev words) : a ≠ p.output v := by
  rcases h with ⟨-, hcol⟩ | ⟨u, hu, hop', hout⟩
  · exact hcol.ne_output hop
  · intro ha
    obtain rfl : u = v := out_alias_inj p.data_scan p.counter p.topological hop' hop
      (hout.1.symm.trans ha)
    exact p.topological.not_mem_prefix hsplit hu

theorem output_eq (f : String → List (List Word) → List Int → Nat → List Word)
    (hsplit : p.order = pre ++ v :: post) (hop : p.dag.IsOp v) :
    next_alias (p.run f pre) = p.output v :=
  (next_alias_eq p.topological hsplit hop p.small (wired f hsplit)).2

/-- The stores at the launch: those after `set_input`, with a buffer for the output. -/
theorem stores_at_launch_eq (f : String → List (List Word) → List Int → Nat → List Word)
    (hsplit : p.order = pre ++ v :: post) (hop : p.dag.IsOp v) :
    ∃ zeros, p.stores_at_launch f v =
      ((p.dag.in_edges v).foldl (set_input_edge v) (p.run f pre)).stores.map (fun s =>
        task_layer.add_data s (p.output v) zeros (p.device v)) := by
  obtain ⟨-, hdevice, -⟩ := inputs_frame f hsplit (p.dag.in_edges v)
  have hedges := (wired f hsplit).shape.in_edges v
  have halias : next_alias (set_input v (p.run f pre)) = p.output v := by
    rw [← output_eq f hsplit hop, next_alias, set_input_counter, next_alias]
  have hset : set_input v (p.run f pre) =
      (p.dag.in_edges v).foldl (set_input_edge v) (p.run f pre) := by rw [set_input, hedges]
  rw [stores_at_launch, at_turn_eq f hsplit, prepare_output_buffer_stores, halias, hset, hdevice]
  exact ⟨_, rfl⟩

/-- The new buffer changes no other. -/
theorem look_add_data (s : Stores) (dev : Device) (zeros : List Word) {a : Int}
    (hne : a ≠ p.output v) :
    look (task_layer.add_data s (p.output v) zeros (p.device v)) a dev = look s a dev := by
  apply openCL_layer.lookup_add_data_ne
  exact fun heq => hne (Prod.mk.inj heq).1

/-- What an operation wrote, for an edge out of it. -/
theorem wrote_output (hs : p.dag.source e ≠ start_vertex) :
    p.Wrote f e (p.pointer e) words ↔
      p.Output f (p.dag.source e) (p.pointer e) (p.device (p.dag.source e)) words := by
  have hpointer : p.pointer e = p.output (p.dag.source e) := by
    unfold pointer edge_alias
    rw [if_neg hs]
    rfl
  unfold Wrote Output written
  rw [if_neg hs, hpointer]
  exact ⟨fun h => ⟨rfl, rfl, h⟩, fun h => h.2.2⟩

/-- What `load_data` placed, for an edge out of the scan. -/
theorem wrote_column (hsplit : p.order = pre ++ v :: post) (he : e ∈ p.dag.in_edges v)
    (hs : p.dag.source e = start_vertex) :
    p.Wrote f e (p.pointer e) words ↔ p.Column (p.pointer e) (p.device start_vertex) words := by
  obtain ⟨-, htarget⟩ := p.dag.mem_in_edges.mp he
  have hmem := p.topological.sources_done hsplit he
  rw [hs] at hmem
  unfold Wrote Column
  rw [if_pos hs, htarget, at_turn_eq f hsplit, (wired f hsplit).trace_eq]
  constructor
  · rintro ⟨c, hc, hplace, hwords⟩
    obtain ⟨-, hplace⟩ := mem_turns_place.mp hplace
    obtain ⟨j, c', hj, heq⟩ := mem_placed.mp hplace
    obtain ⟨hkey, halias⟩ := event.place.inj heq
    obtain ⟨i, hi⟩ := List.mem_iff_getElem?.mp hc
    have hij := p.data_scan.key_inj hi hj hkey
    rw [hij, hj, Option.some.injEq] at hi
    exact ⟨rfl, j, c', hj, halias, by rw [hwords, hi]⟩
  · rintro ⟨-, j, c, hj, halias, hwords⟩
    refine ⟨c, List.mem_of_getElem? hj, ?_, hwords⟩
    exact mem_turns_place.mpr ⟨hmem, mem_placed.mpr ⟨j, c, hj, by rw [halias]; rfl⟩⟩

/-- What the source of an edge wrote is stored. -/
theorem wrote_stored (hsplit : p.order = pre ++ v :: post) (he : e ∈ p.dag.in_edges v)
    (h : p.Wrote f e (p.pointer e) words) :
    p.Stored f pre (p.pointer e) (p.device (p.dag.source e)) words := by
  have hmem := p.topological.sources_done hsplit he
  obtain ⟨hlt, -⟩ := p.dag.mem_in_edges.mp he
  have hends := p.dag.ends_mem hlt
  by_cases hs : p.dag.source e = start_vertex
  · left
    rw [hs] at hmem ⊢
    exact ⟨hmem, (wrote_column hsplit he hs).mp h⟩
  · right
    refine ⟨p.dag.source e, hmem, ?_, (wrote_output hs).mp h⟩
    exact ⟨(p.query.ends_lt _ hends).1, hs, p.query.display_last _ hends⟩

/-- The edge carries the alias of a column, if it comes from the scan. -/
def Resolved (p : Plan) (e : Nat) : Prop :=
  p.dag.source e = start_vertex → ∃ j < p.data_scan.entries.length, p.pointer e = p.column j

/-- The source of an edge that is resolved wrote something. -/
theorem wrote_of_resolved (hsplit : p.order = pre ++ v :: post) (hgood : p.Good f pre s)
    (he : e ∈ p.dag.in_edges v) (hres : p.Resolved e) :
    ∃ words, p.Wrote f e (p.pointer e) words := by
  obtain ⟨hlt, -⟩ := p.dag.mem_in_edges.mp he
  by_cases hs : p.dag.source e = start_vertex
  · obtain ⟨j, hj, hpointer⟩ := hres hs
    refine ⟨p.data_scan.entries[j].2, (wrote_column hsplit he hs).mpr ?_⟩
    exact ⟨rfl, j, _, List.getElem?_eq_getElem hj, hpointer, rfl⟩
  · have hop := p.query.source_isOp hlt hs
    obtain ⟨words, hwords⟩ := hgood.wrote _ (p.topological.sources_done hsplit he) hop
    refine ⟨words, (wrote_output hs).mpr ⟨?_, rfl, hwords⟩⟩
    unfold pointer edge_alias
    rw [if_neg hs]
    rfl

/-- Of two edges into one vertex, a local one is not after a remote one with its alias. -/
theorem spares_of_local {e' : Nat} {words' : List Word} (he : e ∈ p.dag.in_edges v)
    (he' : e' ∈ p.dag.in_edges v)
    (hw : p.Stored f pre (p.pointer e) (p.device (p.dag.source e)) words)
    (hw' : p.Stored f pre (p.pointer e') (p.device (p.dag.source e')) words')
    (hlocal : ¬ p.Remote e) : p.Spares e' e := by
  intro heq
  rw [heq] at hw'
  have hsame := (Stored.unique hw' hw).1
  unfold Remote at hlocal ⊢
  rwa [hsame, (p.dag.mem_in_edges.mp he').2, ← (p.dag.mem_in_edges.mp he).2]

/-- The buffer of an input after `set_input`, when no earlier edge took it away. -/
theorem input_there (hkept : Kept (p.trips f) (look p.st) (p.Stored f pre)
      (p.reads pre ++ p.dag.in_edges v) (look s))
    (hknown : ∀ e ∈ p.dag.in_edges v, ∃ words,
      p.Stored f pre (p.pointer e) (p.device (p.dag.source e)) words)
    (hshare : (p.reads pre ++ p.dag.in_edges v).Pairwise p.Spares) (he : e ∈ p.dag.in_edges v)
    (hw : p.Stored f pre (p.pointer e) (p.device (p.dag.source e)) words) :
    ∃ buffer, look s (p.pointer e) (p.device v) = some buffer ∧
      buffer.takeD (p.size f e) 0 = words.takeD (p.size f e) 0 := by
  have htarget := (p.dag.mem_in_edges.mp he).2
  by_cases haway : p.Remote e
  · refine ⟨words.takeD (p.size f e) 0, ?_, ?_⟩
    · have hat := hkept.moved _ _ _ e hw (List.mem_append_right _ he) haway rfl (p.device v)
      rwa [if_pos (by rw [← htarget]; rfl)] at hat
    · have hlen : (words.takeD (p.size f e) 0).length = p.size f e := List.takeD_length _ _ _
      rw [List.takeD_eq_take _ (le_of_eq hlen.symm), List.take_of_length_le (le_of_eq hlen)]
  · refine ⟨words, ?_, rfl⟩
    have hfree : ∀ e' ∈ p.reads pre ++ p.dag.in_edges v, (p.trips f).away e' →
        (p.trips f).item e' ≠ p.pointer e := by
      intro e' he' haway' heq
      rcases List.mem_append.mp he' with hmem | hmem
      · exact (List.pairwise_append.mp hshare).2.2 e' hmem e he heq haway'
      · obtain ⟨words', hw'⟩ := hknown e' hmem
        exact spares_of_local he hmem hw hw' haway heq haway'
    have hat := hkept.home _ _ _ hw hfree (p.device v)
    have hhome : p.device v = p.device (p.dag.source e) := by
      rw [← htarget]
      exact (not_not.mp haway).symm
    rwa [if_pos hhome] at hat

/-- The inputs of an operation are in place exactly when its edges from the scan are resolved and no
edge up to its turn takes a buffer away from a later one. -/
theorem in_place_iff (hsplit : p.order = pre ++ v :: post) (hop : p.dag.IsOp v)
    (hgood : p.Good f pre s) :
    p.InputsInPlace f v ↔ (∀ e ∈ p.dag.in_edges v, p.Resolved e) ∧
      (p.reads pre ++ p.dag.in_edges v).Pairwise p.Spares := by
  obtain ⟨zeros, hlaunch⟩ := stores_at_launch_eq f hsplit hop
  unfold InputsInPlace InputInPlace
  rw [hlaunch, at_turn_eq f hsplit]
  constructor
  · rintro ⟨s2, hs2, hinputs⟩
    rw [Option.map_eq_some_iff] at hs2
    obtain ⟨s1, hs1, rfl⟩ := hs2
    have hwrote : ∀ e ∈ p.dag.in_edges v, ∃ words, p.Wrote f e (p.pointer e) words := by
      intro e he
      obtain ⟨words, buffer, hw, -⟩ := hinputs e he
      exact ⟨words, by rwa [(edge_at_turn f hsplit he).1] at hw⟩
    have hknown : ∀ e ∈ p.dag.in_edges v, ∃ words,
        p.Stored f pre (p.pointer e) (p.device (p.dag.source e)) words := by
      intro e he
      obtain ⟨words, hw⟩ := hwrote e he
      exact ⟨words, wrote_stored hsplit he hw⟩
    refine ⟨?_, ?_⟩
    · intro e he hs
      obtain ⟨words, hw⟩ := hwrote e he
      obtain ⟨-, j, c, hj, hpointer, -⟩ := (wrote_column hsplit he hs).mp hw
      exact ⟨j, (List.getElem?_eq_some_iff.mp hj).1, hpointer⟩
    · rcases inputs_run hsplit hgood hknown _ [] (List.append_nil _).symm with
        ⟨s', hs', hkept, hremote⟩ | ⟨hnone, -⟩
      · rw [hs1] at hs'
        obtain rfl := Option.some.inj hs'
        rw [List.pairwise_append] at hremote ⊢
        obtain ⟨-, hinside, hacross⟩ := hremote
        refine ⟨hgood.unshared, ?_, ?_⟩
        · apply hinside.imp_of_mem
          intro e' e he' he hspares
          by_cases haway : p.Remote e
          · exact hspares haway
          · obtain ⟨words, hw⟩ := hknown e he
            obtain ⟨words', hw'⟩ := hknown e' he'
            exact spares_of_local he he' hw hw' haway
        · intro e' he' e he
          by_cases haway : p.Remote e
          · exact hacross e' he' e he haway
          · -- A local edge finds its buffer at home.
            by_contra hshare
            obtain ⟨words, hw⟩ := hknown e he
            obtain ⟨words', hw'⟩ := hgood.known e' he'
            have hlost := take_lost hkept hw (List.mem_append_left _ he') hw' hshare
            obtain ⟨_, buffer, -, hbuffer, -⟩ := hinputs e he
            rw [(edge_at_turn f hsplit he).1] at hbuffer
            have hlook := look_add_data s1 (p.device v) zeros
              (output_is_new hsplit hop hw)
            have hhome : p.device v = p.device (p.dag.source e) := by
              rw [← (p.dag.mem_in_edges.mp he).2]
              exact (not_not.mp haway).symm
            rw [← hhome] at hlost
            rw [hlost] at hlook
            exact absurd (hlook.symm.trans hbuffer) (by simp)
      · rw [hnone] at hs1
        cases hs1
  · rintro ⟨hres, hshare⟩
    have hwrote := fun e he => wrote_of_resolved (f := f) hsplit hgood he (hres e he)
    have hknown : ∀ e ∈ p.dag.in_edges v, ∃ words,
        p.Stored f pre (p.pointer e) (p.device (p.dag.source e)) words := by
      intro e he
      obtain ⟨words, hw⟩ := hwrote e he
      exact ⟨words, wrote_stored hsplit he hw⟩
    rcases inputs_run hsplit hgood hknown _ [] (List.append_nil _).symm with
      ⟨s', hs', hkept, -⟩ | ⟨-, hnot⟩
    · refine ⟨_, by rw [hs', Option.map_some], ?_⟩
      intro e he
      obtain ⟨words, hw⟩ := hwrote e he
      have hstored := wrote_stored hsplit he hw
      obtain ⟨buffer, hbuffer, hsame⟩ := input_there hkept hknown hshare he hstored
      obtain ⟨hpointer, hsize⟩ := edge_at_turn f hsplit he
      rw [hpointer, hsize]
      refine ⟨words, buffer, hw, ?_, hsame⟩
      exact (look_add_data _ _ _ (output_is_new hsplit hop hstored)).trans hbuffer
    · exact absurd hshare hnot

end launch

/-! ## The turns -/

section turns

variable {f : String → List (List Word) → List Int → Nat → List Word} {p : Plan}
variable {pre post : List Nat} {v : Nat} {s : Stores}

/-- Later turns keep what is stored. -/
theorem Stored.mono {a : Int} {dev : Device} {words : List Word}
    (h : p.Stored f pre a dev words) (v : Nat) : p.Stored f (pre ++ [v]) a dev words := by
  rcases h with ⟨hs, hcol⟩ | ⟨u, hu, hop, hout⟩
  · exact .inl ⟨List.mem_append_left _ hs, hcol⟩
  · exact .inr ⟨u, List.mem_append_left _ hu, hop, hout⟩

theorem stored_operation (hop : p.dag.IsOp v) (a : Int) (dev : Device) (words : List Word) :
    p.Stored f (pre ++ [v]) a dev words ↔
      p.Stored f pre a dev words ∨ p.Output f v a dev words := by
  constructor
  · rintro (⟨hs, hcol⟩ | ⟨u, hu, hop', hout⟩)
    · rcases List.mem_append.mp hs with hs | hs
      · exact .inl (.inl ⟨hs, hcol⟩)
      · exact absurd (List.mem_singleton.mp hs).symm hop.2.1
    · rcases List.mem_append.mp hu with hu | hu
      · exact .inl (.inr ⟨u, hu, hop', hout⟩)
      · rw [List.mem_singleton.mp hu] at hout
        exact .inr hout
  · rintro (hstored | hout)
    · exact hstored.mono v
    · exact .inr ⟨v, by simp, hop, hout⟩

/-- The stores after `set_input` of an operation whose inputs are in place: each of its edges has a
buffer there, and its output has none. -/
theorem inputs_there (hsplit : p.order = pre ++ v :: post) (hop : p.dag.IsOp v)
    (hgood : p.Good f pre s) (hknown : ∀ e ∈ p.dag.in_edges v, ∃ words,
      p.Stored f pre (p.pointer e) (p.device (p.dag.source e)) words)
    (hshare : (p.reads pre ++ p.dag.in_edges v).Pairwise p.Spares) :
    ∃ s', (set_input v (p.run f pre)).stores = some s' ∧
      Kept (p.trips f) (look p.st) (p.Stored f pre) (p.reads pre ++ p.dag.in_edges v) (look s') ∧
      (∀ e ∈ p.dag.in_edges v, ∃ buffer, look s' (p.pointer e) (p.device v) = some buffer) ∧
      ∀ dev, look s' (p.output v) dev = none := by
  rcases inputs_run hsplit hgood hknown _ [] (List.append_nil _).symm with
    ⟨s', hs', hkept, -⟩ | ⟨-, hnot⟩
  case inr => exact absurd hshare hnot
  refine ⟨s', ?_, hkept, ?_, ?_⟩
  · rw [set_input, (wired f hsplit).shape.in_edges, hs']
  · intro e he
    obtain ⟨words, hw⟩ := hknown e he
    obtain ⟨buffer, hbuffer, -⟩ := input_there hkept hknown hshare he hw
    exact ⟨buffer, hbuffer⟩
  · intro dev
    rw [hkept.strange _ dev (fun _ _ hstored => output_is_new hsplit hop hstored rfl)]
    exact look_new (counter_lt_output p v) dev

/-- The turn of an operation whose inputs are in place: it fills the new buffer. -/
theorem operation_runs (hsplit : p.order = pre ++ v :: post) (hop : p.dag.IsOp v) {s' : Stores}
    (hset : (set_input v (p.run f pre)).stores = some s')
    (hbuffers : ∀ e ∈ p.dag.in_edges v, ∃ buffer, look s' (p.pointer e) (p.device v) = some buffer)
    (hnew : ∀ dev, look s' (p.output v) dev = none) :
    ∃ words s'', (operate (.total f) v (p.run f pre)).stores = some s'' ∧
      ∀ a dev, look s'' a dev =
        if (a, dev) = (p.output v, p.device v) then some words else look s' a dev := by
  have hw := wired f hsplit
  have hvertex := hw.vertex_eq v (p.topological.not_mem_prefix hsplit)
  have hdevice : ((p.run f pre).dag.vertex v).device = p.device v := hw.device_eq v
  have hpointers : ((p.run f pre).dag.in_edges v).map (fun e =>
      ((p.run f pre).dag.edge e).data_pointer) = (p.dag.in_edges v).map p.pointer := by
    rw [hw.shape.in_edges]
    apply List.map_congr_left
    exact fun e he => (edge_at_turn f hsplit he).1
  choose! buffer hbuffer using hbuffers
  have hall : ((p.dag.in_edges v).map p.pointer).mapM (fun a => look s' a (p.device v)) =
      some ((p.dag.in_edges v).map buffer) := mapM_lookup_map hbuffer
  obtain ⟨-, hruns⟩ := operate_runs (.total f) v (p.run f pre) _ (s := s')
    (hw.shape.execution_environment.trans p.environment)
    (by rw [hvertex]; exact (p.fresh v hop).1) (by rw [hvertex]; exact (p.fresh v hop).2) hset
    (by rw [hpointers, hdevice]; exact hall)
    (by rw [output_eq f hsplit hop]; exact hnew _)
  rw [hdevice, output_eq f hsplit hop] at hruns
  obtain ⟨s'', hs'', hlook⟩ := hruns _ rfl
  exact ⟨_, s'', hs'', hlook⟩

/-- The turn of an operation whose inputs are in place. -/
theorem good_operation (hsplit : p.order = pre ++ v :: post) (hop : p.dag.IsOp v)
    (hgood : p.Good f pre s) (hplace : p.InputsInPlace f v) : ∃ s', p.Good f (pre ++ [v]) s' := by
  obtain ⟨hres, hshare⟩ := (in_place_iff hsplit hop hgood).mp hplace
  have hreads := reads_snoc p pre hop.2.2
  have hknown : ∀ e ∈ p.reads pre ++ p.dag.in_edges v, ∃ words,
      p.Stored f pre (p.pointer e) (p.device (p.dag.source e)) words := by
    intro e he
    rcases List.mem_append.mp he with he | he
    · exact hgood.known e he
    · obtain ⟨words, hwords⟩ := wrote_of_resolved hsplit hgood he (hres e he)
      exact ⟨words, wrote_stored hsplit he hwords⟩
  obtain ⟨s1, hs1, hkept, hbuffers, hnew⟩ := inputs_there hsplit hop hgood
    (fun e he => hknown e (List.mem_append_right _ he)) hshare
  obtain ⟨words, s2, hs2, hlook⟩ := operation_runs hsplit hop hs1 hbuffers hnew
  have hrun : p.run f (pre ++ [v]) = operate (.total f) v (p.run f pre) := by
    rcases run_snoc f hsplit with ⟨hs, -⟩ | ⟨he, -⟩ | ⟨-, hrun⟩
    · exact absurd hs hop.2.1
    · exact absurd he hop.2.2
    · exact hrun
  have hwritten : p.written f v = some words := by
    rw [written, at_turn_eq f hsplit, hs2, Option.bind_some, hlook, if_pos rfl]
  refine ⟨s2, by rw [hrun, hs2], ?_, by rw [hreads]; exact hshare, ?_, ?_⟩
  · rw [hreads]
    refine hkept.store (stored_operation hop) ?_ ?_ ?_ ?_
    · rintro a dev words' dev' words'' ⟨rfl, -⟩ hstored
      exact output_is_new hsplit hop hstored rfl
    · rintro a dev words' ⟨rfl, -⟩ e he - heq
      obtain ⟨words', hstored⟩ := hknown e he
      exact output_is_new hsplit hop hstored heq
    · rintro a dev words' ⟨rfl, rfl, hwords⟩ d
      rw [hwritten] at hwords
      rw [hlook, hnew d, hwords]
      simp
    · intro a dev hnot
      have hne : (a, dev) ≠ (p.output v, p.device v) := by
        intro heq
        obtain ⟨ha, hdev⟩ := Prod.mk.inj heq
        exact hnot dev words ⟨ha, hdev, hwritten⟩
      rw [hlook, if_neg hne]
  · intro u hu hop'
    rcases List.mem_append.mp hu with hu | hu
    · exact hgood.wrote u hu hop'
    · rw [List.mem_singleton.mp hu]
      exact ⟨words, hwritten⟩
  · intro e he
    rw [hreads] at he
    obtain ⟨words', hstored⟩ := hknown e he
    exact ⟨words', hstored.mono v⟩

theorem stored_scan (a : Int) (dev : Device) (words : List Word) :
    p.Stored f (pre ++ [start_vertex]) a dev words ↔
      p.Stored f pre a dev words ∨ p.Column a dev words := by
  constructor
  · rintro (⟨-, hcol⟩ | ⟨u, hu, hop, hout⟩)
    · exact .inr hcol
    · rcases List.mem_append.mp hu with hu | hu
      · exact .inl (.inr ⟨u, hu, hop, hout⟩)
      · exact absurd (List.mem_singleton.mp hu) hop.2.1
  · rintro (hstored | hcol)
    · exact hstored.mono _
    · exact .inl ⟨by simp, hcol⟩

/-- The aliases of the columns are not stored before the turn of the scan. -/
theorem column_is_new (hstart : start_vertex ∉ pre) {a : Int} {dev dev' : Device}
    {words words' : List Word} (hcol : p.Column a dev words) :
    ¬ p.Stored f pre a dev' words' := by
  rintro (⟨hs, -⟩ | ⟨u, -, hop, hout⟩)
  · exact hstart hs
  · exact hcol.ne_output hop hout.1

/-- The turn of the scan. -/
theorem good_scan (hsplit : p.order = pre ++ start_vertex :: post) (hgood : p.Good f pre s) :
    ∃ s', p.Good f (pre ++ [start_vertex]) s' := by
  have hw := wired f hsplit
  have hstart := p.topological.not_mem_prefix hsplit
  have hreads : p.reads (pre ++ [start_vertex]) = p.reads pre := by
    rw [reads_snoc _ _ (by decide), in_edges_start, List.append_nil]
  have hcounter : (p.run f pre).total_data_set_in_device =
      counter_at p.data_scan p.counter p.order start_vertex := by
    rw [hw.counter_eq, counter_at_eq p.data_scan p.counter p.topological hsplit]
  have hrun : p.run f (pre ++ [start_vertex]) =
      load_data p.data_scan start_vertex (p.run f pre) := by
    rcases run_snoc f hsplit with ⟨-, hrun⟩ | ⟨he, -⟩ | ⟨hop, -⟩
    · exact hrun
    · exact absurd he (by decide)
    · exact absurd rfl hop.2.1
  have hdevice : ((p.run f pre).dag.vertex start_vertex).device = p.device start_vertex :=
    hw.device_eq start_vertex
  obtain ⟨s', hs', hat, hframe⟩ := load_data_look p.data_scan start_vertex (p.run f pre) s
    hgood.stores
    (by
      intro j hj dev
      have hcol : p.Column (p.column j) (p.device start_vertex) p.data_scan.entries[j].2 :=
        ⟨rfl, j, _, List.getElem?_eq_getElem hj, rfl, rfl⟩
      have hlook := hgood.kept.strange (p.column j) dev (fun _ _ => column_is_new hstart hcol)
      rw [look_new (counter_lt_column hj)] at hlook
      rw [hcounter]
      exact hlook)
    (by
      intro i hi j hj heq
      rw [hcounter] at heq
      exact column_inj (p := p) hi hj heq)
  have halias : ∀ j, column_alias (p.run f pre).total_data_set_in_device j = p.column j := by
    intro j
    rw [hcounter, column]
  rw [hdevice] at hat
  simp only [halias] at hat hframe
  refine ⟨s', by rw [hrun]; exact hs', ?_, by rw [hreads]; exact hgood.unshared, ?_, ?_⟩
  · rw [hreads]
    refine hgood.kept.store stored_scan ?_ ?_ ?_ ?_
    · exact fun a dev words dev' words' hcol => column_is_new hstart hcol
    · intro a dev words hcol e he _ heq
      obtain ⟨words', hstored⟩ := hgood.known e he
      have hpointer : p.pointer e = a := heq
      rw [hpointer] at hstored
      exact column_is_new hstart hcol hstored
    · rintro a dev words ⟨hdev, j, c, hj, ha, hwords⟩ d
      rw [ha, hdev, hwords]
      exact hat j c hj d
    · intro a dev hnot
      apply hframe
      intro j hj ha
      exact hnot _ _ ⟨rfl, j, _, List.getElem?_eq_getElem hj, ha, rfl⟩
  · intro u hu hop
    rcases List.mem_append.mp hu with hu | hu
    · exact hgood.wrote u hu hop
    · exact absurd (List.mem_singleton.mp hu) hop.2.1
  · intro e he
    rw [hreads] at he
    obtain ⟨words, hstored⟩ := hgood.known e he
    exact ⟨words, hstored.mono _⟩

/-- After some turns, the device has a buffer for an alias exactly when `Present` says so. -/
theorem present_iff (hgood : p.Good f pre s) (a : Int) (dev : Device) :
    (a, dev) ∈ s.openCL ↔ p.Present pre a dev := by
  have hhome : p.Home pre a dev ↔ ∃ words, p.Stored f pre a dev words := by
    constructor
    · rintro (⟨hs, hdev, j, hj, ha⟩ | ⟨u, hu, hop, ha, hdev⟩)
      · exact ⟨_, .inl ⟨hs, hdev, j, _, List.getElem?_eq_getElem hj, ha, rfl⟩⟩
      · obtain ⟨words, hwords⟩ := hgood.wrote u hu hop
        exact ⟨words, .inr ⟨u, hu, hop, ha, hdev, hwords⟩⟩
    · rintro ⟨words, ⟨hs, hdev, j, c, hj, ha, -⟩ | ⟨u, hu, hop, ha, hdev, -⟩⟩
      · exact .inl ⟨hs, hdev, j, (List.getElem?_eq_some_iff.mp hj).1, ha⟩
      · exact .inr ⟨u, hu, hop, ha, hdev⟩
  have hlook : (a, dev) ∈ s.openCL ↔ look s a dev ≠ none := by
    rw [look, Ne, AList.lookup_eq_none, not_not]
  rw [hlook]
  unfold Present
  rw [hhome]
  by_cases hstored : ∃ dev' words, p.Stored f pre a dev' words
  · obtain ⟨dev', words, hw⟩ := hstored
    have hold : (a, dev) ∉ p.st.openCL := AList.lookup_eq_none.mp (look_new hw.lt dev)
    by_cases hfree : ∀ e ∈ p.reads pre, p.Remote e → p.pointer e ≠ a
    · -- At home.
      rw [hgood.kept.home a dev' words hw hfree dev]
      constructor
      · intro hsome
        right
        refine ⟨hfree, .inl ⟨words, ?_⟩⟩
        by_cases hdev : dev = dev'
        · rw [hdev]
          exact hw
        · exact absurd (if_neg hdev) hsome
      · rintro (⟨e, he, hremote, ha, -⟩ | ⟨-, ⟨words', hw'⟩ | hmem⟩)
        · exact absurd ha (hfree e he hremote)
        · rw [if_pos (Stored.unique hw' hw).1]
          simp
        · exact absurd hmem hold
    · -- Taken to another device.
      push Not at hfree
      obtain ⟨e, he, hremote, ha⟩ := hfree
      rw [hgood.kept.moved a dev' words e hw he hremote ha dev]
      constructor
      · intro hsome
        left
        refine ⟨e, he, hremote, ha, ?_⟩
        by_contra hdev
        exact hsome (if_neg (Ne.symm hdev))
      · rintro (⟨e', he', hremote', ha', hdev⟩ | ⟨hfree, -⟩)
        · have hsame := hgood.kept.moved a dev' words e hw he hremote ha dev
          rw [hgood.kept.moved a dev' words e' hw he' hremote' ha' dev] at hsame
          have hgoal : dev = (p.trips f).goal e' := hdev.symm
          rw [← hsame, if_pos hgoal]
          simp
        · exact absurd ha (hfree e he hremote)
  · -- An alias of an earlier graph, or of none.
    push Not at hstored
    have hnone : ∀ e ∈ p.reads pre, p.pointer e ≠ a := by
      intro e he ha
      obtain ⟨words, hw⟩ := hgood.known e he
      rw [ha] at hw
      exact hstored _ _ hw
    rw [hgood.kept.strange a dev hstored, look, Ne, AList.lookup_eq_none, not_not]
    constructor
    · exact fun hmem => .inr ⟨fun e he _ => hnone e he, .inr hmem⟩
    · rintro (⟨e, he, -, ha, -⟩ | ⟨-, ⟨words, hw⟩ | hmem⟩)
      · exact absurd ha (hnone e he)
      · exact absurd hw (hstored _ _)
      · exact hmem

theorem stored_display (a : Int) (dev : Device) (words : List Word) :
    p.Stored f (pre ++ [end_vertex]) a dev words ↔ p.Stored f pre a dev words := by
  constructor
  · rintro (⟨hs, hcol⟩ | ⟨u, hu, hop, hout⟩)
    · rcases List.mem_append.mp hs with hs | hs
      · exact .inl ⟨hs, hcol⟩
      · exact absurd (List.mem_singleton.mp hs) (by decide)
    · rcases List.mem_append.mp hu with hu | hu
      · exact .inr ⟨u, hu, hop, hout⟩
      · exact absurd (List.mem_singleton.mp hu) hop.2.2
  · exact fun hstored => hstored.mono _

/-- The turn of the display: it goes well exactly when the buffers that it reads are there. -/
theorem good_display (hsplit : p.order = pre ++ end_vertex :: post) (hgood : p.Good f pre s) :
    ((∀ e ∈ p.dag.in_edges end_vertex,
        p.Present pre (p.pointer e) (p.device (p.dag.source e))) →
      ∃ s', p.Good f (pre ++ [end_vertex]) s') ∧
    ((p.run f (pre ++ [end_vertex])).stores ≠ none →
      ∀ e ∈ p.dag.in_edges end_vertex,
        p.Present pre (p.pointer e) (p.device (p.dag.source e))) := by
  have hw := wired f hsplit
  have hrun : p.run f (pre ++ [end_vertex]) = display_result (p.run f pre) := by
    rcases run_snoc f hsplit with ⟨hs, -⟩ | ⟨-, hrun⟩ | ⟨hop, -⟩
    · exact absurd hs (by decide)
    · exact hrun
    · exact absurd rfl hop.2.2
  have hkeys : ∀ e ∈ p.dag.in_edges end_vertex,
      (((p.run f pre).dag.edge e).data_pointer,
        ((p.run f pre).dag.vertex ((p.run f pre).dag.source e)).device) =
      (p.pointer e, p.device (p.dag.source e)) := by
    intro e he
    rw [(edge_at_turn f hsplit he).1, hw.shape.source, hw.device_eq]
    rfl
  obtain ⟨hall, hsome⟩ := display_edges_look (p.dag.in_edges end_vertex) (p.run f pre) s
    hgood.stores (hw.shape.execution_environment.trans p.environment)
  have hresult : display_result (p.run f pre) =
      (p.dag.in_edges end_vertex).foldl display_edge (p.run f pre) := by
    rw [display_result, hw.shape.in_edges]
  rw [hrun, hresult]
  constructor
  · intro hpresent
    refine ⟨s, ?_, ?_, ?_, ?_, ?_⟩
    · rw [hrun, hresult]
      apply hall
      intro e he
      rw [hkeys e he, present_iff hgood]
      exact hpresent e he
    · rw [reads_end]
      refine ⟨?_, ?_, ?_⟩
      · intro a dev hnone
        exact hgood.kept.strange a dev (fun dev' words hstored =>
          hnone dev' words ((stored_display a dev' words).mpr hstored))
      · intro a dev words hstored
        exact hgood.kept.home a dev words ((stored_display a dev words).mp hstored)
      · intro a dev words e hstored
        exact hgood.kept.moved a dev words e ((stored_display a dev words).mp hstored)
    · rw [reads_end]
      exact hgood.unshared
    · intro u hu hop
      rcases List.mem_append.mp hu with hu | hu
      · exact hgood.wrote u hu hop
      · exact absurd (List.mem_singleton.mp hu) hop.2.2
    · intro e he
      rw [reads_end] at he
      obtain ⟨words, hstored⟩ := hgood.known e he
      exact ⟨words, hstored.mono _⟩
  · intro hstores e he
    rw [← present_iff hgood, ← hkeys e he]
    exact hsome hstores e he

end turns

/-! ## The law -/

section law

variable {f : String → List (List Word) → List Int → Nat → List Word} {p : Plan}
variable {pre post : List Nat} {v : Nat}

theorem good_start (f : String → List (List Word) → List Int → Nat → List Word) (p : Plan) :
    p.Good f [] p.st := by
  refine ⟨rfl, Kept.start ?_ (fun _ _ => rfl), List.Pairwise.nil, ?_, ?_⟩
  · rintro a dev words (⟨hs, -⟩ | ⟨u, hu, -⟩)
    · cases hs
    · cases hu
  · intro u hu
    cases hu
  · intro e he
    cases he

/-- As long as an operation is to come, the run is good: if every operation finds its inputs in place
after a good run, and every display between operations finds its buffers. -/
theorem good_before
    (hops : ∀ pre v post s, p.order = pre ++ v :: post → p.dag.IsOp v → p.Good f pre s →
      p.InputsInPlace f v)
    (hshown : ∀ pre post s, p.order = pre ++ end_vertex :: post → (∃ v ∈ post, p.dag.IsOp v) →
      p.Good f pre s →
        ∀ e ∈ p.dag.in_edges end_vertex, p.Present pre (p.pointer e) (p.device (p.dag.source e)))
    (pre post : List Nat) (hsplit : p.order = pre ++ post) (hlater : ∃ v ∈ post, p.dag.IsOp v) :
    ∃ s, p.Good f pre s := by
  induction pre using List.reverseRecOn generalizing post with
  | nil => exact ⟨p.st, good_start f p⟩
  | append_singleton pre v ih =>
    have hsplit' : p.order = pre ++ v :: post := by simpa using hsplit
    obtain ⟨u, hu, hop⟩ := hlater
    obtain ⟨s, hgood⟩ := ih (v :: post) hsplit' ⟨u, List.mem_cons_of_mem _ hu, hop⟩
    rcases run_snoc f hsplit' with ⟨rfl, -⟩ | ⟨rfl, -⟩ | ⟨hop', -⟩
    · exact good_scan hsplit' hgood
    · exact (good_display hsplit' hgood).1 (hshown pre post s hsplit' ⟨u, hu, hop⟩ hgood)
    · exact good_operation hsplit' hop' hgood (hops pre v post s hsplit' hop' hgood)

/-- Undefined behaviour before an operation is there at its launch. -/
theorem launch_stuck (hsplit : p.order = pre ++ post) (hv : v ∈ post) (hop : p.dag.IsOp v)
    (hnone : (p.run f pre).stores = none) : ¬ p.InputsInPlace f v := by
  rintro ⟨s, hs, -⟩
  obtain ⟨mid, rest, rfl⟩ := List.append_of_mem hv
  have hsplit' : p.order = (pre ++ mid) ++ v :: rest := by rw [hsplit, List.append_assoc]
  have hstuck : (p.run f (pre ++ mid)).stores = none := by
    unfold run after execute_graph
    rw [List.foldl_append]
    exact execute_graph_stuck mid hnone
  obtain ⟨zeros, hlaunch⟩ := stores_at_launch_eq f hsplit' hop
  rw [hlaunch, set_input_edges_stuck _ hstuck] at hs
  cases hs

/-- An edge that the run reads with `set_input` goes into an operation. -/
theorem mem_reads {e : Nat} (h : e ∈ p.reads p.order) :
    ∃ pre v post, p.order = pre ++ v :: post ∧ p.dag.IsOp v ∧ e ∈ p.dag.in_edges v := by
  unfold reads at h
  obtain ⟨v, hv, he⟩ := List.mem_flatMap.mp h
  obtain ⟨hmem, hend⟩ := List.mem_filter.mp hv
  obtain ⟨pre, post, hsplit⟩ := List.append_of_mem hmem
  refine ⟨pre, v, post, hsplit, ⟨(p.topological.mem_iff v).mp hmem, ?_, by simpa using hend⟩, he⟩
  rintro rfl
  rw [in_edges_start] at he
  cases he

/-- What is read before and at the turn of a vertex comes first in what the whole run reads. -/
theorem reads_split (hsplit : p.order = pre ++ v :: post) (hv : v ≠ end_vertex) :
    (p.reads pre ++ p.dag.in_edges v).Sublist (p.reads p.order) := by
  rw [← reads_snoc _ _ hv, hsplit, List.append_cons pre v post]
  unfold reads
  rw [List.filter_append (pre ++ [v]), List.flatMap_append]
  exact List.sublist_append_left _ _

end law

end Plan

/-! ## A column with two readers -/

/-- The part of `query_6` that reads `l_discount`: the selection `sel2` and the node `mate1` read one
column, and both are on the second device of the first platform. -/
def query_6_discount : query_graph :=
  let on_target (n : primitive_node) : primitive_node :=
    { n with input_to_output_ratio := 32, pID := 0, dID := 1 }
  (((((query_graph.empty.add_vertex (on_target (primitive_node.fresh "selection_between_block"))
    ).add_vertex (on_target (primitive_node.fresh "materialize"))
    ).add_edge start_vertex 2 (data_edge.fresh 2)
    ).add_edge start_vertex 3 (data_edge.fresh 2)
    ).add_edge 2 3 (data_edge.fresh 0)
    ).add_edge 3 end_vertex (data_edge.fresh 0)

theorem query_6_discount_isOp {v : Nat} : query_6_discount.IsOp v ↔ v = 2 ∨ v = 3 := by
  have hfour : query_6_discount.num_vertices = 4 := rfl
  unfold query_graph.IsOp
  rw [hfour, start_vertex, end_vertex]
  omega

/-- The run of these two nodes in a new process. -/
def query_6_plan : Plan where
  dag := query_6_discount
  data_scan :=
    { entries := [(2, List.replicate 32 5)]
      sorted := by simp
      int_keys := by simp }
  order := [start_vertex, 2, 3, end_vertex]
  counter := 0
  st := ⟨∅, ∅⟩
  query :=
    { two_le := by decide
      scan_name := rfl
      display_name := rfl
      op_name := by
        intro v hop
        rcases query_6_discount_isOp.mp hop with rfl | rfl
        · decide
        · decide
      ends_lt := by decide
      scan_first := by decide
      display_last := by decide }
  fresh := by
    intro v hop
    rcases query_6_discount_isOp.mp hop with rfl | rfl
    · exact ⟨rfl, rfl⟩
    · exact ⟨rfl, rfl⟩
  topological :=
    { perm := by decide
      forward := by decide }
  small := by decide
  environment := rfl
  old := by
    intro key hkey
    cases hkey

end hero.runtime_layer
