-- `query_6` end to end: whatever the order of its operations and of the work items of each launch, it
-- shows the products of the rows that pass its selections, and it leaves their sum in a buffer that
-- nothing fetches.
import HeroDB.BlockNodes
import HeroDB.DateCasts
import HeroDB.QueryPlans

namespace hero.tests.query_6

open runtime_layer filter

/-! ## The plan -/

/-- The columns of `lineitem` that the query reads, without the rows behind the last whole block. -/
structure lineitem_rows where
  W : Nat
  l_shipdate : List Word
  l_discount : List Word
  l_quantity : List Word
  l_extendedprice : List Word
  blocks : 1 ≤ W
  shipdates : l_shipdate.length = 32 * W
  discounts : l_discount.length = 32 * W
  quantities : l_quantity.length = 32 * W
  prices : l_extendedprice.length = 32 * W
  int_size : 32 * W < 2 ^ 31

/-- `data_scan` -/
def scan (x : lineitem_rows) : ScanMap where
  entries := [(1, x.l_shipdate), (2, x.l_discount), (3, x.l_quantity), (4, x.l_extendedprice)]
  sorted := by simp
  int_keys := by simp

/-- The parameter that a date gives. -/
def date_parameter (s : String) : Int :=
  ((types.Date.castString s.toList).toOption.getD 0).toInt

/-- The parameter that a number gives, an `int` of the 64 bits. -/
def numeric_parameter (s : String) : Int :=
  (((types.Numeric.castString 2 s.toList).toOption.getD 0).setWidth 32).toInt

def c1 : Int := date_parameter "1994-01-01"

def c2 : Int := date_parameter "1995-01-01"

def c3 : Int := numeric_parameter "0.05"

def c4 : Int := numeric_parameter "0.07"

def c5 : Int := 24

/-- A node with its kernel, its ratio, the numbers of its inputs and parameters, and its device. -/
def node (mKernelName : String) (input_to_output_ratio no_of_input_required no_of_parameters : Nat)
    (target_device : Device) : primitive_node :=
  { primitive_node.fresh mKernelName with
    input_to_output_ratio, no_of_input_required, no_of_parameters
    pID := target_device.1, dID := target_device.2 }

def sel1 (target_device : Device) : primitive_node :=
  ((node "selection_between_block" 32 1 2 target_device).add_parameter c1).add_parameter c2

def sel2 (target_device : Device) : primitive_node :=
  ((node "selection_between_block" 32 1 2 target_device).add_parameter c3).add_parameter c4

def sel3 (target_device : Device) : primitive_node :=
  (node "selection_less_than_block" 32 1 1 target_device).add_parameter c5

def log1 (target_device : Device) : primitive_node :=
  node "logical_block" 1 2 0 target_device

def log2 (target_device : Device) : primitive_node :=
  node "logical_block" 1 2 0 target_device

/-- The output has as many rows as `l_linestatus`, in whole blocks. -/
def mate1 (rows : Nat) (target_device : Device) : primitive_node :=
  { node "materialize" 32 2 0 target_device with overall_output_size := rows }

def mate2 (rows : Nat) (target_device : Device) : primitive_node :=
  { node "materialize" 32 2 0 target_device with overall_output_size := rows }

def arith (target_device : Device) : primitive_node :=
  node "arith_mul" 1 2 0 target_device

def agg (target_device : Device) : primitive_node :=
  { node "aggregate_block" 32 1 0 target_device with overall_output_size := 1 }

/-- The nodes, with the vertices `s1`, `s2`, `s3`, `l1`, `l2`, `m1`, `m2`, `a` and `ag` from 2 to 10. -/
def nodes (rows : Nat) (target_device : Device) : List primitive_node :=
  [sel1 target_device, sel2 target_device, sel3 target_device, log1 target_device,
    log2 target_device, mate1 rows target_device, mate2 rows target_device, arith target_device,
    agg target_device]

/-- The edges in the order of the `add_edge` calls: the scan edges with the keys of their columns. -/
def edges : List ((Nat × Nat) × data_edge) :=
  [((start_vertex, 2), .fresh 1), ((start_vertex, 3), .fresh 2), ((start_vertex, 4), .fresh 3),
    ((start_vertex, 7), .fresh 2), ((start_vertex, 8), .fresh 4), ((2, 5), .fresh 0),
    ((4, 5), .fresh 0), ((5, 6), .fresh 0), ((3, 6), .fresh 0), ((6, 7), .fresh 0),
    ((6, 8), .fresh 0), ((7, 9), .fresh 0), ((8, 9), .fresh 0), ((9, 10), .fresh 0),
    ((9, end_vertex), .fresh 0)]

def q_ (rows : Nat) (target_device : Device) : query_graph :=
  graph_of (nodes rows target_device) edges

/-- What is free when the query is executed: the rows, a topological order, the alias counter, and the
buffers of earlier graphs. The device is that of the scan, and no alias is the key of a later
column. -/
structure run where
  rows : lineitem_rows
  process_queue : List Nat
  counter : Nat
  st : Stores
  topological : IsTopological (q_ (32 * rows.W) (0, 0)) process_queue
  apart : counter = 0 ∨ 4 ≤ counter
  small : counter + 15 < 2 ^ 31
  old : ∀ key, key ∈ st.openCL → key.1 ≤ counter

namespace lineitem_rows

variable (x : lineitem_rows)

def shipdate (r : Nat) : Word := x.l_shipdate.getD r 0

def discount (r : Nat) : Word := x.l_discount.getD r 0

def quantity (r : Nat) : Word := x.l_quantity.getD r 0

def extendedprice (r : Nat) : Word := x.l_extendedprice.getD r 0

/-- The rows that pass the selections, when the kernels compare these values of the words. Of two
bounds only the second counts, as a lower one. -/
def passes (value : Word → Int) (r : Nat) : Bool :=
  (c2 < value (x.shipdate r) && value (x.quantity r) < c5) && c4 < value (x.discount r)

/-- A product for each row that passes, and a zero for each other row. -/
def product (value : Word → Int) (r : Nat) : Word :=
  if x.passes value r then x.discount r * x.extendedprice r else 0

def products (value : Word → Int) : List Word := (List.range (32 * x.W)).map (x.product value)

/-- The answer of the query, modulo 2^32. -/
def revenue (value : Word → Int) : Word :=
  BitVec.ofNat 32 (((List.range (32 * x.W)).filter (x.passes value)).map (fun r =>
    (x.discount r).toNat * (x.extendedprice r).toNat)).sum

variable {value : Word → Int}

theorem product_of_masked (r : Nat) :
    (if x.passes value r then x.discount r else 0) *
      (if x.passes value r then x.extendedprice r else 0) = x.product value r := by
  unfold product
  by_cases hp : x.passes value r
  · rw [if_pos hp, if_pos hp, if_pos hp]
  · rw [if_neg hp, if_neg hp, if_neg hp, mul_zero]

theorem sum_of_products :
    ((List.range (32 * x.W)).map (x.product value)).sum = x.revenue value := by
  unfold revenue
  rw [← sum_of_satisfied]
  simp only [product_of_masked]

end lineitem_rows

/-! ## The bounds -/

/-- The bounds for the dates. -/
theorem c2_bound : 0 ≤ c1 ∧ c1 ≤ c2 ∧ c2 < 2 ^ 31 := by
  decide +kernel

/-- The bounds for the discounts. -/
theorem c4_bound : 0 ≤ c3 ∧ c3 ≤ c4 ∧ c4 < 2 ^ 31 := by
  decide +kernel

/-- A word as an `unsigned int`. -/
def unsigned (w : Word) : Int := w.toNat

theorem word_at_unsigned {params : List Int} {i : Nat} {c : Int} (h : params.getD i 0 = c)
    (hnonneg : 0 ≤ c) (hlt : c < 2 ^ 31) : unsigned (word_at params i) = c := by
  rw [unsigned, word_at, h, BitVec.toNat_ofInt]
  omega

/-- Both comparisons of `selection_between_block` ask for larger values. -/
theorem above_both {a b : Int} (hnonneg : 0 ≤ a) (hle : a ≤ b) (hlt : b < 2 ^ 31) (w : Word) :
    (decide (word_at [a, b] 0 ≤ w) && decide (word_at [a, b] 1 < w)) = decide (b < unsigned w) := by
  have hfirst : unsigned (word_at [a, b] 0) = a := word_at_unsigned rfl hnonneg (by omega)
  have hsecond : unsigned (word_at [a, b] 1) = b := word_at_unsigned rfl (by omega) hlt
  unfold unsigned at *
  rw [← Bool.decide_and, decide_eq_decide, BitVec.le_def, BitVec.lt_def]
  omega

theorem below_bound (w : Word) : decide (w < word_at [c5] 0) = decide (unsigned w < c5) := by
  have hbound : unsigned (word_at [c5] 0) = c5 := word_at_unsigned rfl (by decide) (by decide)
  unfold unsigned at *
  rw [decide_eq_decide, BitVec.lt_def]
  omega

/-! ## The graph -/

section graph

variable (rows : Nat) (target_device : Device)

theorem kernel_names : (nodes rows target_device).map primitive_node.mKernelName =
    ["selection_between_block", "selection_between_block", "selection_less_than_block",
      "logical_block", "logical_block", "materialize", "materialize", "arith_mul",
      "aggregate_block"] := rfl

theorem nodes_length : (nodes rows target_device).length = 9 := rfl

theorem q_is_a_query : IsQuery (q_ rows target_device) := by
  apply graph_of_query
  · rw [kernel_names]
    decide
  · rw [nodes_length]
    decide
  · decide
  · decide

theorem q_fresh : FreshNodes (q_ rows target_device) := by
  apply graph_of_fresh
  intro n hn
  simp only [nodes, List.mem_cons, List.not_mem_nil, or_false] at hn
  rcases hn with rfl | rfl | rfl | rfl | rfl | rfl | rfl | rfl | rfl
  all_goals exact ⟨rfl, rfl⟩

end graph

/-- The run as a plan. -/
def run.plan (x : run) : Plan where
  dag := q_ (32 * x.rows.W) (0, 0)
  data_scan := scan x.rows
  order := x.process_queue
  counter := x.counter
  st := x.st
  query := q_is_a_query _ _
  fresh := q_fresh _ _
  topological := x.topological
  small := by
    have hnum : (q_ (32 * x.rows.W) (0, 0)).num_vertices = 11 := graph_of_num_vertices
    have hscan : (scan x.rows).entries.length = 4 := rfl
    have hsmall := x.small
    omega
  environment := graph_of_environment
  old := x.old

section plan

variable (x : run)

theorem plan_ends : x.plan.dag.ends = edges.map Prod.fst := graph_of_ends

theorem plan_num_vertices : x.plan.dag.num_vertices = 11 := graph_of_num_vertices

/-- The inputs of each vertex, in the order in which its kernel takes them. -/
theorem plan_in_edges {v : Nat} (hv : v < 11) : x.plan.dag.in_edges v =
    [[], [14], [0], [1], [2], [5, 6], [7, 8], [3, 9], [4, 10], [11, 12], [13]].getD v [] := by
  have hall : ∀ v < 11, (List.range edges.length).filter (fun e =>
      ((edges.map Prod.fst).getD e (0, 0)).2 = v) =
        [[], [14], [0], [1], [2], [5, 6], [7, 8], [3, 9], [4, 10], [11, 12], [13]].getD v [] := by
    decide
  exact graph_of_in_edges.trans (hall v hv)

theorem plan_fed : ∀ v < x.plan.dag.num_vertices, v ≠ start_vertex → x.plan.dag.in_edges v ≠ [] := by
  have hall : ∀ v < 11, v ≠ start_vertex →
      [[], [14], [0], [1], [2], [5, 6], [7, 8], [3, 9], [4, 10], [11, 12], [13]].getD v [] ≠ [] := by
    decide
  intro v hv hne
  rw [plan_num_vertices] at hv
  rw [plan_in_edges x hv]
  exact hall v hv hne

theorem plan_edge {e : Nat} {d : (Nat × Nat) × data_edge} (h : edges[e]? = some d) :
    x.plan.dag.edge e = d.2 := graph_of_edge h

theorem plan_vertex {i : Nat} {n : primitive_node}
    (h : (nodes (32 * x.rows.W) (0, 0))[i]? = some n) : x.plan.dag.vertex (2 + i) = n :=
  graph_of_vertex h

/-- The scan edges, and the position of the column that each one reads. -/
theorem plan_scan_edge {e : Nat} (he : e < 5) :
    x.plan.dag.source e = start_vertex ∧
      ∃ c, x.plan.data_scan.entries[[0, 1, 2, 1, 3].getD e 0]? = some c ∧
        (x.plan.dag.edge e).data_pointer = c.1 := by
  have hsource : ∀ e < 5, ((edges.map Prod.fst).getD e (0, 0)).1 = start_vertex := by decide
  refine ⟨graph_of_source.trans (hsource e he), ?_⟩
  obtain rfl | rfl | rfl | rfl | rfl : e = 0 ∨ e = 1 ∨ e = 2 ∨ e = 3 ∨ e = 4 := by omega
  all_goals
    refine ⟨_, rfl, ?_⟩
    rw [plan_edge x (Eq.refl (some _))]
    rfl

theorem plan_finds : x.plan.FindsColumns := by
  refine Plan.findsColumns_of_apart (plan_fed x) ?_ ?_
  · intro e he hs
    have hfive : e < 5 := by
      by_contra hge
      have hall : ∀ e < edges.length, 5 ≤ e → ((edges.map Prod.fst).getD e (0, 0)).1 ≠
          start_vertex := by decide
      rw [plan_ends, List.length_map] at he
      exact hall e he (by omega) (graph_of_source.symm.trans hs)
    obtain ⟨-, c, hc, hkey⟩ := plan_scan_edge x hfive
    exact ⟨_, c, hc, hkey⟩
  · intro i j c hij hj heq
    have hkeys : c.1 = (j + 1 : Nat) ∧ j < 4 := by
      have hlt : j < 4 := (List.getElem?_eq_some_iff.mp hj).1
      obtain rfl | rfl | rfl | rfl : j = 0 ∨ j = 1 ∨ j = 2 ∨ j = 3 := by omega
      all_goals
        obtain rfl := Option.some.inj hj
        exact ⟨rfl, hlt⟩
    have hcounter : x.plan.counter = x.counter := rfl
    have hapart := x.apart
    omega

theorem plan_device {v : Nat} (hv : v < 11) : x.plan.device v = (0, 0) := by
  have hnodes : ∀ n ∈ nodes (32 * x.rows.W) (0, 0), n.device = (0, 0) := by
    intro n hn
    simp only [nodes, List.mem_cons, List.not_mem_nil, or_false] at hn
    rcases hn with rfl | rfl | rfl | rfl | rfl | rfl | rfl | rfl | rfl
    all_goals rfl
  have hlt : v < 2 + (nodes (32 * x.rows.W) (0, 0)).length := by
    rw [nodes_length]
    exact hv
  exact graph_of_device hnodes hlt

theorem plan_source_lt {e : Nat} (he : e < x.plan.dag.ends.length) : x.plan.dag.source e < 11 := by
  have hmem := x.plan.dag.ends_mem he
  have hlt := (x.plan.query.ends_lt _ hmem).1
  have hnum := plan_num_vertices x
  omega

theorem plan_target_lt {e : Nat} (he : e < x.plan.dag.ends.length) : x.plan.dag.target e < 11 := by
  have hmem := x.plan.dag.ends_mem he
  have hlt := (x.plan.query.ends_lt _ hmem).2
  have hnum := plan_num_vertices x
  omega

theorem plan_local {e : Nat} (he : e < x.plan.dag.ends.length) : ¬ x.plan.Remote e := by
  have hs := plan_device x (plan_source_lt x he)
  have ht := plan_device x (plan_target_lt x he)
  unfold Plan.Remote
  rw [hs, ht]
  exact fun h => h rfl

theorem ag_is_op : x.plan.dag.IsOp 10 := by
  have hnum := plan_num_vertices x
  exact ⟨by omega, by decide, by decide⟩

theorem plan_loses_nothing (f : String → List (List Word) → List Int → Nat → List Word) :
    x.plan.LosesNothing f := by
  apply Plan.losesNothing_of_one_device (plan_finds x)
  intro e he
  obtain ⟨-, v, -, -, -, hedge⟩ := Plan.mem_reads he
  exact plan_local x (x.plan.dag.mem_in_edges.mp hedge).1

/-! ## The meaning of its vertices -/

/-- The edges of the operations. -/
theorem plan_source {e : Nat} (he : e < 15) : x.plan.dag.source e =
    [0, 0, 0, 0, 0, 2, 4, 5, 3, 6, 6, 7, 8, 9, 9].getD e 0 := by
  have hall : ∀ e < 15, ((edges.map Prod.fst).getD e (0, 0)).1 =
      [0, 0, 0, 0, 0, 2, 4, 5, 3, 6, 6, 7, 8, 9, 9].getD e 0 := by decide
  exact graph_of_source.trans (hall e he)

end plan

section meaning

variable {K : Kernels} {between : Int → Int → Word → Bool} {below : Int → Word → Bool}
variable {masked : Nat → Word → Word} {value : Word → Int} (x : run)

/-- The rows that pass the tests of the kernels. -/
def tested (between : Int → Int → Word → Bool) (below : Int → Word → Bool) (rows : lineitem_rows)
    (r : Nat) : Bool :=
  (between c1 c2 (rows.shipdate r) && below c5 (rows.quantity r)) && between c3 c4 (rows.discount r)

/-- A column of the scan on its edge. -/
theorem column_means {e : Nat} {c : Int × List Word} {g : Nat → Word} (he : e < 5)
    (hc : (scan x.rows).entries[[0, 1, 2, 1, 3].getD e 0]? = some c)
    (hlen : c.2.length = 32 * x.rows.W) (hg : (fun r => c.2.getD r 0) = g) :
    IsColumn x.rows.W g (x.plan.edge_meaning K.words e) := by
  obtain ⟨hsource, c', hc', hkey⟩ := plan_scan_edge x he
  obtain rfl : c' = c := Option.some.inj (hc'.symm.trans hc)
  rw [← hg]
  exact isColumn_of_scan hsource hc' hkey hlen

theorem shipdate_column : IsColumn x.rows.W x.rows.shipdate (x.plan.edge_meaning K.words 0) :=
  column_means x (by decide) rfl x.rows.shipdates rfl

theorem quantity_column : IsColumn x.rows.W x.rows.quantity (x.plan.edge_meaning K.words 2) :=
  column_means x (by decide) rfl x.rows.quantities rfl

/-- Two edges bring the discounts. -/
theorem discount_column :
    IsColumn x.rows.W x.rows.discount (x.plan.edge_meaning K.words 1) ∧
      IsColumn x.rows.W x.rows.discount (x.plan.edge_meaning K.words 3) :=
  ⟨column_means x (by decide) rfl x.rows.discounts rfl,
    column_means x (by decide) rfl x.rows.discounts rfl⟩

theorem extendedprice_column :
    IsColumn x.rows.W x.rows.extendedprice (x.plan.edge_meaning K.words 4) :=
  column_means x (by decide) rfl x.rows.prices rfl

/-- A node of the plan on its vertex. -/
theorem node_means {v i : Nat} {n : primitive_node} {inputs : List Flow} {P : Flow → Prop}
    (h : Makes K n inputs P) (hnode : (nodes (32 * x.rows.W) (0, 0))[i]? = some n) (hv : v = 2 + i)
    (hinputs : ([[], [14], [0], [1], [2], [5, 6], [7, 8], [3, 9], [4, 10], [11, 12], [13]].getD v
      []).map (x.plan.edge_meaning K.words) = inputs) : Means K x.plan v P := by
  have hi : i < 9 := (List.getElem?_eq_some_iff.mp hnode).1
  have hlt : v < 11 := by omega
  have hnum := plan_num_vertices x
  refine h.means (by omega) ?_ (plan_in_edges x hlt) hinputs
  rw [hv]
  exact plan_vertex x hnode

/-- An edge from an operation. -/
theorem edge_means {e v : Nat} {P : Flow → Prop} (h : Means K x.plan v P) (he : e < 15)
    (hv : [0, 0, 0, 0, 0, 2, 4, 5, 3, 6, 6, 7, 8, 9, 9].getD e 0 = v) (hne : v ≠ start_vertex) :
    P (x.plan.edge_meaning K.words e) :=
  h.edge ((plan_source x he).trans hv) hne

/-- A node that reads rows: its kernel and its ratio. -/
theorem block_node {ratio : Nat} {n : primitive_node} (hratio : n.input_to_output_ratio = ratio)
    (hsize : n.input_size = 1) : BlockNode x.rows.W ratio n.mKernelName n where
  name := rfl
  ratio := hratio
  starts := by
    have hblocks := x.rows.blocks
    omega

variable (hK : Serves K x.rows.W between below masked)
include hK

theorem s1_means : Means K x.plan 2
    (IsBitmap x.rows.W (fun r => between c1 c2 (x.rows.shipdate r))) := by
  have hcol := shipdate_column (K := K) x
  have hmakes := selection_makes (block_node x (n := sel1 (0, 0)) rfl rfl) (.inl rfl)
    (hK.selection_between_block _ c1 c2 hcol.length) hcol
  exact node_means (i := 0) x hmakes rfl rfl rfl

theorem s2_means : Means K x.plan 3
    (IsBitmap x.rows.W (fun r => between c3 c4 (x.rows.discount r))) := by
  have hcol := (discount_column (K := K) x).1
  have hmakes := selection_makes (block_node x (n := sel2 (0, 0)) rfl rfl) (.inl rfl)
    (hK.selection_between_block _ c3 c4 hcol.length) hcol
  exact node_means (i := 1) x hmakes rfl rfl rfl

theorem s3_means : Means K x.plan 4
    (IsBitmap x.rows.W (fun r => below c5 (x.rows.quantity r))) := by
  have hcol := quantity_column (K := K) x
  have hmakes := selection_makes (block_node x (n := sel3 (0, 0)) rfl rfl) (.inl rfl)
    (hK.selection_less_than_block _ c5 hcol.length) hcol
  exact node_means (i := 2) x hmakes rfl rfl rfl

theorem l1_means : Means K x.plan 5 (IsBitmap x.rows.W (fun r =>
    between c1 c2 (x.rows.shipdate r) && below c5 (x.rows.quantity r))) := by
  have hfirst := edge_means (e := 5) x (s1_means x hK) (by decide) rfl (by decide)
  have hsecond := edge_means (e := 6) x (s3_means x hK) (by decide) rfl (by decide)
  have hmakes := logical_makes (block_node x (n := log1 (0, 0)) rfl rfl) (.inl rfl)
    (hK.logical_block _ _ hfirst.length hsecond.length) hfirst hsecond
  exact node_means (i := 3) x hmakes rfl rfl rfl

theorem l2_means : Means K x.plan 6 (IsBitmap x.rows.W (tested between below x.rows)) := by
  have hfirst := edge_means (e := 7) x (l1_means x hK) (by decide) rfl (by decide)
  have hsecond := edge_means (e := 8) x (s2_means x hK) (by decide) rfl (by decide)
  have hmakes := logical_makes (block_node x (n := log2 (0, 0)) rfl rfl) (.inl rfl)
    (hK.logical_block _ _ hfirst.length hsecond.length) hfirst hsecond
  exact node_means (i := 4) x hmakes rfl rfl rfl

theorem m1_means : Means K x.plan 7 (IsColumn x.rows.W (fun r =>
    if tested between below x.rows r then masked r (x.rows.discount r) else 0)) := by
  have hcol := (discount_column (K := K) x).2
  have hbitmap := edge_means (e := 9) x (l2_means x hK) (by decide) rfl (by decide)
  have hsizes : ∀ fl ∈ [x.plan.edge_meaning K.words 3, x.plan.edge_meaning K.words 9],
      fl.data_size = 32 * x.rows.W := by simp [hcol.size, hbitmap.size]
  have hmakes := blocks_make (block_node x (n := mate1 (32 * x.rows.W) (0, 0)) rfl rfl) (.inr rfl)
    (by simp) hsizes (hK.materialize _ _ _ hcol.length hbitmap.marks)
    (fun r hr => by rw [hcol.getD hr])
  exact node_means (i := 5) x hmakes rfl rfl rfl

theorem m2_means : Means K x.plan 8 (IsColumn x.rows.W (fun r =>
    if tested between below x.rows r then masked r (x.rows.extendedprice r) else 0)) := by
  have hcol := extendedprice_column (K := K) x
  have hbitmap := edge_means (e := 10) x (l2_means x hK) (by decide) rfl (by decide)
  have hsizes : ∀ fl ∈ [x.plan.edge_meaning K.words 4, x.plan.edge_meaning K.words 10],
      fl.data_size = 32 * x.rows.W := by simp [hcol.size, hbitmap.size]
  have hmakes := blocks_make (block_node x (n := mate2 (32 * x.rows.W) (0, 0)) rfl rfl) (.inr rfl)
    (by simp) hsizes (hK.materialize _ _ _ hcol.length hbitmap.marks)
    (fun r hr => by rw [hcol.getD hr])
  exact node_means (i := 6) x hmakes rfl rfl rfl

theorem a_means : Means K x.plan 9 (IsColumn x.rows.W (fun r =>
    (if tested between below x.rows r then masked r (x.rows.discount r) else 0) *
      (if tested between below x.rows r then masked r (x.rows.extendedprice r) else 0))) := by
  have hfirst := edge_means (e := 11) x (m1_means x hK) (by decide) rfl (by decide)
  have hsecond := edge_means (e := 12) x (m2_means x hK) (by decide) rfl (by decide)
  have hmakes := arith_mul_makes (block_node x (n := arith (0, 0)) rfl rfl) (.inl rfl)
    (hK.arith_mul _ _ hfirst.length hsecond.length) hfirst hsecond
  exact node_means (i := 7) x hmakes rfl rfl rfl

/-! ## The products and their sum -/

variable (htested : ∀ r < 32 * x.rows.W, tested between below x.rows r = x.rows.passes value r)
variable (hmasked : ∀ r u w, masked r u * masked r w = u * w)
include htested hmasked

theorem a_products : Means K x.plan 9 (IsColumn x.rows.W (x.rows.product value)) := by
  refine (a_means x hK).imp fun fl hcol => hcol.congr fun r hr => ?_
  rw [htested r hr, ← x.rows.product_of_masked r]
  by_cases hp : x.rows.passes value r
  · rw [if_pos hp, if_pos hp, if_pos hp, if_pos hp, hmasked]
  · rw [if_neg hp, if_neg hp, if_neg hp, if_neg hp]

theorem ag_means : Means K x.plan 10 (fun fl => fl.words[0]? = some (x.rows.revenue value)) := by
  have hproducts := edge_means (e := 13) x (a_products x hK htested hmasked) (by decide) rfl
    (by decide)
  have hmakes := aggregate_block_makes (block_node x (n := agg (0, 0)) rfl rfl) x.rows.blocks
    (hK.aggregate_block _ hproducts.length) hproducts
  rw [x.rows.sum_of_products] at hmakes
  exact node_means (i := 8) x hmakes rfl rfl rfl

/-- Every launch of the query is defined. -/
theorem plan_defined : x.plan.Defined K := by
  intro v hop
  have hnum := plan_num_vertices x
  have hlt := hop.1
  have hstart : v ≠ 0 := hop.2.1
  have hend : v ≠ 1 := hop.2.2
  have hcases : v = 2 ∨ v = 3 ∨ v = 4 ∨ v = 5 ∨ v = 6 ∨ v = 7 ∨ v = 8 ∨ v = 9 ∨ v = 10 := by
    omega
  rcases hcases with rfl | rfl | rfl | rfl | rfl | rfl | rfl | rfl | rfl
  · exact (s1_means x hK).launched
  · exact (s2_means x hK).launched
  · exact (s3_means x hK).launched
  · exact (l1_means x hK).launched
  · exact (l2_means x hK).launched
  · exact (m1_means x hK).launched
  · exact (m2_means x hK).launched
  · exact (a_means x hK).launched
  · exact (ag_means x hK htested hmasked).launched

/-- The display fetches the output of `arith`. -/
theorem shown_column : x.plan.dag.in_edges end_vertex = [14] ∧
    IsColumn x.rows.W (x.rows.product value) (x.plan.edge_meaning K.words 14) ∧
      size_of_int (int_of_size (x.plan.edge_meaning K.words 14).data_size) = 32 * x.rows.W := by
  have hcol := edge_means (e := 14) x (a_products x hK htested hmasked) (by decide) rfl (by decide)
  have hlt := x.rows.int_size
  refine ⟨plan_in_edges x (by decide), hcol, ?_⟩
  rw [hcol.size, int_of_size_eq hlt, size_of_int]
  omega

theorem shown_products : x.plan.shown K.words = [x.rows.products value] := by
  obtain ⟨hedges, hcol, hsize⟩ := shown_column x hK htested hmasked
  rw [Plan.shown, hedges, List.map_singleton, hsize,
    List.takeD_eq_take _ (Nat.le_of_eq hcol.length.symm), ← hcol.length, List.take_length,
    hcol.words]
  rfl

/-- The run on the devices, with kernels that serve it. -/
theorem openCL_run : ∃ s,
    (execute_graph K (scan x.rows) x.process_queue
      (.before (q_ (32 * x.rows.W) (0, 0)) x.counter x.st)).stores = some s ∧
    (execute_graph K (scan x.rows) x.process_queue
      (.before (q_ (32 * x.rows.W) (0, 0)) x.counter x.st)).results = [x.rows.products value] ∧
    ∃ words, look s (out_alias (scan x.rows) x.counter x.process_queue 10) (0, 0) = some words ∧
      words[0]? = some (x.rows.revenue value) := by
  obtain ⟨s, hs, hresults, hkept⟩ := Plan.execute_graph_of_defined (plan_loses_nothing x _)
    (plan_defined x hK htested hmasked)
  refine ⟨s, hs, hresults.trans (shown_products x hK htested hmasked), ?_⟩
  have hfree : ∀ e ∈ x.plan.reads x.plan.order, x.plan.Remote e →
      x.plan.pointer e ≠ x.plan.output 10 := by
    intro e he haway
    obtain ⟨-, v, -, -, -, hedge⟩ := Plan.mem_reads he
    exact absurd haway (plan_local x (x.plan.dag.mem_in_edges.mp hedge).1)
  have hbuffer := hkept 10 (ag_is_op x) hfree
  rw [plan_device x (by decide)] at hbuffer
  exact ⟨_, hbuffer, (ag_means x hK htested hmasked).meaning⟩

end meaning

/-! ## The query on the devices -/

section openCL

variable {items : String → List (List Word) → Nat → List Nat}

/-- The tests of the `.cl` files select the rows that pass as `unsigned int`s. -/
theorem tested_by_kernels (rows : lineitem_rows) (r : Nat) :
    tested (fun c d w => word_at [c, d] 0 ≤ w && word_at [c, d] 1 < w)
      (fun c w => w < word_at [c] 0) rows r = rows.passes unsigned r := by
  obtain ⟨hc1, hc12, hc2⟩ := c2_bound
  obtain ⟨hc3, hc34, hc4⟩ := c4_bound
  unfold tested lineitem_rows.passes
  dsimp only
  rw [above_both hc1 hc12 hc2, above_both hc3 hc34 hc4, below_bound]

/-- Whatever the order of the operations and of the work items of each launch, the query gets through
and shows the products. Their sum is left in the buffer of the aggregation. -/
theorem query_6_shows_the_products
    (horder : ∀ kernel buffers n, (items kernel buffers n).Perm (List.range n)) (cpp : kernel_run)
    (x : run) :
    ∃ s, (execute_graph ⟨block_kernels items, cpp⟩ (scan x.rows) x.process_queue
        (.before (q_ (32 * x.rows.W) (0, 0)) x.counter x.st)).stores = some s ∧
      (execute_graph ⟨block_kernels items, cpp⟩ (scan x.rows) x.process_queue
        (.before (q_ (32 * x.rows.W) (0, 0)) x.counter x.st)).results =
          [x.rows.products unsigned] ∧
      ∃ words, look s (out_alias (scan x.rows) x.counter x.process_queue 10) (0, 0) = some words ∧
        words[0]? = some (x.rows.revenue unsigned) :=
  openCL_run x (block_kernels_serve horder cpp x.rows.W) (fun r _ => tested_by_kernels x.rows r)
    (fun _ _ _ => rfl)

end openCL

/-- A machine without buffers has none of an earlier graph. -/
theorem no_old_buffers : ∀ key, key ∈ (⟨∅, ∅⟩ : Stores).openCL → key.1 ≤ 0 :=
  fun key hkey => absurd hkey (AList.notMem_empty key)

/-- A block of rows that pass, on a machine without buffers. -/
def one_block : run where
  rows :=
    { W := 1
      l_shipdate := List.replicate 32 2449720
      l_discount := List.replicate 32 8
      l_quantity := List.replicate 32 3
      l_extendedprice := List.replicate 32 100
      blocks := Nat.one_pos
      shipdates := List.length_replicate
      discounts := List.length_replicate
      quantities := List.length_replicate
      prices := List.length_replicate
      int_size := by decide }
  process_queue := [0, 4, 3, 2, 5, 6, 8, 7, 9, 1, 10]
  counter := 0
  st := ⟨∅, ∅⟩
  topological :=
    { perm := by
        rw [q_, graph_of_num_vertices, nodes_length]
        decide
      forward := by
        rw [q_, graph_of_ends]
        decide }
  apart := .inl rfl
  small := by decide
  old := no_old_buffers

/-- The rows are added up from the last to the first. -/
theorem query_6_shows_one_block :
    ∃ s, (execute_graph ⟨block_kernels (fun _ _ n => (List.range n).reverse), fun _ _ _ _ => none⟩
        (scan one_block.rows) one_block.process_queue
        (.before (q_ (32 * one_block.rows.W) (0, 0)) one_block.counter one_block.st)).stores =
          some s ∧
      (execute_graph ⟨block_kernels (fun _ _ n => (List.range n).reverse), fun _ _ _ _ => none⟩
        (scan one_block.rows) one_block.process_queue
        (.before (q_ (32 * one_block.rows.W) (0, 0)) one_block.counter one_block.st)).results =
          [one_block.rows.products unsigned] ∧
      ∃ words, look s (out_alias (scan one_block.rows) one_block.counter one_block.process_queue 10)
          (0, 0) = some words ∧
        words[0]? = some (one_block.rows.revenue unsigned) :=
  query_6_shows_the_products (fun _ _ _ => List.reverse_perm _) _ one_block

end hero.tests.query_6
