-- The nodes of a filter as parts of a query graph: on columns of whole blocks a selection makes the
-- bitmap of its test, and so on up to the sum, whatever the order of the work items of each launch.
import HeroDB.FilterPipeline
import HeroDB.KernelRuns

namespace hero.filter

open kernels runtime_layer

/-- A parameter as the kernels read it. -/
def word_at (params : List Int) (i : Nat) : Word := BitVec.ofInt 32 (params.getD i 0)

/-- The `.cl` files of a filter, with the work items of each launch in some order. -/
def block_kernels (items : String → List (List Word) → Nat → List Nat) : kernel_run :=
  fun kernel buffers params globalSize =>
    match kernel, buffers with
    | "selection_between_block", [data, bitmap] =>
      (items kernel buffers globalSize).foldlM
        (selection_between_block data (word_at params 0) (word_at params 1)) bitmap
    | "selection_less_than_block", [data, bitmap] =>
      (items kernel buffers globalSize).foldlM
        (selection_less_than_block data (word_at params 0)) bitmap
    | "selection_greater_than_block", [data, bitmap] =>
      (items kernel buffers globalSize).foldlM
        (selection_greater_than_block data (word_at params 0)) bitmap
    | "logical_block", [input, data2, bitmap] =>
      (items kernel buffers globalSize).foldlM (logical_block input data2) bitmap
    | "materialize", [input, bitmap, result] =>
      (items kernel buffers globalSize).foldlM (materialize input bitmap) result
    | "arith_mul", [input, data2, res] =>
      (items kernel buffers globalSize).foldlM (arith_mul input data2) res
    | "aggregate_block", [input, result] =>
      (items kernel buffers globalSize).foldlM (aggregate_block input) result
    | _, _ => none

/-- A launch on a new buffer does the turns of its items in some order. -/
def Runs (K : Kernels) (kernel : String) (inputs : List (List Word)) (params : List Int)
    (rows globalSize : Nat) (item : List Word → Nat → Option (List Word)) : Prop :=
  ∃ order : List Nat, order.Perm (List.range globalSize) ∧
    K.openCL kernel (inputs ++ [List.replicate rows 0]) params globalSize =
      order.foldlM item (List.replicate rows 0)

/-- An item of a selection. -/
def selects (test : Word → Bool) (data bitmap : List Word) (gid : Nat) : Option (List Word) :=
  (selection_bits test data gid).bind (kernels.store bitmap gid)

/-- An item that stores a word for each row of its block. -/
def stores_block (value : Nat → Word) (result : List Word) (gid : Nat) : Option (List Word) :=
  (List.range 32).foldlM (fun result i =>
    kernels.store result (32 * gid + i) (value (32 * gid + i))) result

/-- What an edge brings is a bitmap of `W` blocks, in a buffer with a word for each row. -/
structure IsBitmap (W : Nat) (p : Nat → Bool) (fl : Flow) : Prop where
  size : fl.data_size = 32 * W
  length : fl.words.length = 32 * W
  marks : Marks W p fl.words

/-- What an edge brings is a column with a word for each row. -/
structure IsColumn (W : Nat) (g : Nat → Word) (fl : Flow) : Prop where
  size : fl.data_size = 32 * W
  words : fl.words = (List.range (32 * W)).map g

/-- A node whose launch is defined on its inputs, and what it makes of them. -/
def Makes (K : Kernels) (n : primitive_node) (inputs : List Flow) (P : Flow → Prop) : Prop :=
  (∃ words, n.launched K inputs = some words) ∧ P (n.flow K.words inputs)

/-- A node as the queries set it up: an item for each `ratio` rows, and no more rows than its inputs
bring. -/
structure BlockNode (W ratio : Nat) (kernel : String) (n : primitive_node) : Prop where
  name : n.mKernelName = kernel
  ratio : n.input_to_output_ratio = ratio
  starts : n.input_size ≤ 32 * W

/-- The node asks for an output for each row, or leaves the size to its inputs. -/
def RowsOut (W : Nat) (n : primitive_node) : Prop :=
  n.overall_output_size = 0 ∨ n.overall_output_size = 32 * W

section nodes

variable {items : String → List (List Word) → Nat → List Nat} {W ratio : Nat} {kernel : String}
variable {n : primitive_node} {inputs : List Flow} {fl fl' : Flow} {p q : Nat → Bool}
variable {g g' : Nat → Word} {words : List Word}

theorem IsColumn.length (h : IsColumn W g fl) : fl.words.length = 32 * W := by
  rw [h.words, List.length_map, List.length_range]

theorem IsColumn.congr (h : IsColumn W g fl) (hg : ∀ r < 32 * W, g r = g' r) :
    IsColumn W g' fl := by
  refine ⟨h.size, h.words.trans (List.map_congr_left fun r hr => ?_)⟩
  exact hg r (List.mem_range.mp hr)

theorem IsColumn.getD (h : IsColumn W g fl) {r : Nat} (hr : r < 32 * W) :
    fl.words.getD r 0 = g r := by
  rw [h.words, List.getD_eq_getElem?_getD, List.getElem?_map, List.getElem?_range hr,
    Option.map_some, Option.getD_some]

theorem IsColumn.row (h : IsColumn W g fl) {r : Nat} (hr : r < 32 * W) :
    fl.words[r]? = some (g r) := by
  rw [h.words, List.getElem?_map, List.getElem?_range hr, Option.map_some]

/-- A buffer with a word for each row is a column. -/
theorem isColumn_of_cells (hsize : fl.data_size = 32 * W) (hlen : fl.words.length = 32 * W)
    (hcells : ∀ r < 32 * W, fl.words[r]? = some (g r)) : IsColumn W g fl := by
  refine ⟨hsize, List.ext_getElem? fun r => ?_⟩
  by_cases hr : r < 32 * W
  · rw [hcells r hr, List.getElem?_map, List.getElem?_range hr, Option.map_some]
  · rw [List.getElem?_eq_none (by omega), List.getElem?_eq_none]
    rw [List.length_map, List.length_range]
    omega

theorem size_for_rows (hstarts : n.input_size ≤ 32 * W) (hne : inputs ≠ [])
    (hsize : ∀ fl ∈ inputs, fl.data_size = 32 * W) : n.size_for inputs = 32 * W := by
  have hall : ∀ (inputs : List Flow) (m : Nat), m ≤ 32 * W → inputs ≠ [] →
      (∀ fl ∈ inputs, fl.data_size = 32 * W) →
        inputs.foldl (fun size d => max size d.data_size) m = 32 * W := by
    intro inputs
    induction inputs with
    | nil => exact fun _ _ hne _ => absurd rfl hne
    | cons fl rest ih =>
      intro m hm _ hsize
      rw [List.foldl_cons, hsize fl List.mem_cons_self, Nat.max_eq_right hm]
      by_cases hrest : rest = []
      · rw [hrest, List.foldl_nil]
      · exact ih _ (Nat.le_refl _) hrest (fun fl' h => hsize fl' (List.mem_cons_of_mem _ h))
  exact hall inputs n.input_size hstarts hne hsize

variable {K : Kernels}

/-- A node at work on rows: its launch, and what the launch makes of its inputs. -/
theorem makes_of_launch (hn : BlockNode W ratio kernel n) (hne : inputs ≠ [])
    (hsize : ∀ fl ∈ inputs, fl.data_size = 32 * W)
    (hlaunch : K.openCL kernel (inputs.map Flow.words ++ [List.replicate (32 * W) 0])
      n.additional_parameters (32 * W / ratio) = some words) {P : Flow → Prop}
    (hP : P ⟨words, if n.overall_output_size = 0 then 32 * W else n.overall_output_size⟩) :
    Makes K n inputs P := by
  have hrows := size_for_rows hn.starts hne hsize
  have hlaunched : n.launched K inputs = some words := by
    unfold primitive_node.launched
    rw [hrows, hn.name, hn.ratio, hlaunch]
  refine ⟨⟨words, hlaunched⟩, ?_⟩
  have hwords := primitive_node.flow_words hlaunched
  have hflow : n.flow K.words inputs =
      ⟨(n.flow K.words inputs).words,
        if n.overall_output_size = 0 then 32 * W else n.overall_output_size⟩ := by
    rw [← hrows]
    rfl
  rw [hflow, hwords]
  exact hP

theorem RowsOut.size (h : RowsOut W n) :
    (if n.overall_output_size = 0 then 32 * W else n.overall_output_size) = 32 * W := by
  rcases h with h | h
  · rw [if_pos h]
  · rw [h, ite_self]

/-- A launch that stores words keeps the length of its buffer. -/
theorem launch_length {items cells : Nat} (x : Launching items cells)
    {kernel : List Word → Nat → Option (List Word)} {T : List Word}
    (hkernel : ∀ s gid s', kernel s gid = some s' → s'.length = s.length)
    (hrun : x.launch kernel = some T) : T.length = x.before.length := by
  apply loops.keeps (fun _ s => s.length = x.before.length) _ hrun rfl
  intro _ gid _ s s' _ hs h
  exact (hkernel s gid s' h).trans hs

theorem store_length {s s' : List Word} {i : Nat} {x : Word} (h : kernels.store s i x = some s') :
    s'.length = s.length := by
  unfold kernels.store at h
  split at h
  · rw [← Option.some.inj h, List.length_set]
  · cases h

theorem word_of_two_length {op : Word → Word → Word} {input data2 s s' : List Word} {gid : Nat}
    (h : word_of_two op input data2 s gid = some s') : s'.length = s.length := by
  unfold word_of_two at h
  rw [Option.bind_eq_some_iff] at h
  obtain ⟨u, -, h⟩ := h
  rw [Option.bind_eq_some_iff] at h
  obtain ⟨w, -, h⟩ := h
  exact store_length h

theorem stores_block_length {value : Nat → Word} {s s' : List Word} {gid : Nat}
    (h : stores_block value s gid = some s') : s'.length = s.length := by
  apply loops.keeps (fun _ t => t.length = s.length) _ h rfl
  intro _ i _ t t' _ ht hturn
  exact (store_length hturn).trans ht

theorem Marks.congr {bitmap : List Word} (h : Marks W p bitmap) (hpq : ∀ r < 32 * W, p r = q r) :
    Marks W q bitmap := by
  intro j hj
  obtain ⟨bm, hbm, hbits⟩ := h j hj
  refine ⟨bm, hbm, fun i hi => ?_⟩
  rw [hbits i hi, hpq _ (by omega)]

/-- A launch on a buffer of zeros. -/
theorem Runs.launching {params : List Int} {buffers : List (List Word)} {rows globalSize : Nat}
    {item : List Word → Nat → Option (List Word)}
    (h : Runs K kernel buffers params rows globalSize item) {cells : Nat} (hroom : cells ≤ rows) :
    ∃ e : Launching globalSize cells, e.before = List.replicate rows 0 ∧
      K.openCL kernel (buffers ++ [List.replicate rows 0]) params globalSize = e.launch item := by
  obtain ⟨order, hperm, hrun⟩ := h
  exact ⟨⟨order, List.replicate rows 0, hperm, by rwa [List.length_replicate]⟩, rfl, hrun⟩

/-- A selection makes the bitmap of its test. -/
theorem selection_makes (hn : BlockNode W 32 kernel n) (hout : RowsOut W n) {test : Word → Bool}
    (hruns : Runs K kernel [fl.words] n.additional_parameters (32 * W) W (selects test fl.words))
    (hcol : IsColumn W g fl) : Makes K n [fl] (IsBitmap W (fun r => test (g r))) := by
  have hdiv : 32 * W / 32 = W := by omega
  obtain ⟨e, hbefore, hrun⟩ := hruns.launching (show W ≤ 32 * W by omega)
  obtain ⟨bitmap, hbitmap, hmarks⟩ := launch_selection test hcol.length e
  have hlen := launch_length e (fun s gid s' h => by
    rw [Option.bind_eq_some_iff] at h
    obtain ⟨bm, -, h⟩ := h
    exact store_length h) hbitmap
  rw [hbefore, List.length_replicate] at hlen
  refine makes_of_launch hn (by simp) (by simp [hcol.size]) (by rw [hdiv]; exact hrun.trans hbitmap)
    ⟨hout.size, hlen, hmarks.congr fun r hr => ?_⟩
  rw [List.getD_eq_getElem?_getD, hcol.row hr, Option.getD_some]

/-- A logical node makes the bitmap of the rows that it puts together. -/
theorem logical_makes (hn : BlockNode W 1 "logical_block" n) (hout : RowsOut W n)
    (hruns : Runs K "logical_block" [fl.words, fl'.words] n.additional_parameters (32 * W) (32 * W)
      (logical_block fl.words fl'.words))
    (ha : IsBitmap W p fl) (hb : IsBitmap W q fl') :
    Makes K n [fl, fl'] (IsBitmap W (fun r => p r && q r)) := by
  have hword : ∀ {fl : Flow} {p : Nat → Bool}, IsBitmap W p fl → ∀ j < 32 * W,
      fl.words[j]? = some (fl.words.getD j 0) := by
    intro fl p h j hj
    rw [List.getD_eq_getElem?_getD, List.getElem?_eq_getElem (by rw [h.length]; exact hj),
      Option.getD_some]
  obtain ⟨e, hbefore, hrun⟩ := hruns.launching (Nat.le_refl _)
  obtain ⟨T, hT, -, hcells⟩ := launch_words e (logical_block fl.words fl'.words)
    (fun j => fl.words.getD j 0 &&& fl'.words.getD j 0) (by
      intro gid hgid result
      unfold logical_block word_of_two
      rw [hword ha gid hgid, Option.bind_some, hword hb gid hgid, Option.bind_some])
  have hlen := launch_length e (fun _ _ _ => word_of_two_length) hT
  rw [hbefore, List.length_replicate] at hlen
  refine makes_of_launch hn (by simp) (by simp [ha.size, hb.size])
    (by rw [Nat.div_one]; exact hrun.trans hT) ⟨hout.size, hlen, fun j hj => ?_⟩
  obtain ⟨u, hu, hubits⟩ := ha.marks j hj
  obtain ⟨w, hw, hwbits⟩ := hb.marks j hj
  refine ⟨_, hcells j (by omega), fun i hi => ?_⟩
  rw [List.getD_eq_getElem?_getD, hu, Option.getD_some, List.getD_eq_getElem?_getD, hw,
    Option.getD_some, BitVec.getLsbD_and, hubits i hi, hwbits i hi]

/-- A node that stores whole blocks makes a column. -/
theorem blocks_make (hn : BlockNode W 32 kernel n) (hout : RowsOut W n) (hne : inputs ≠ [])
    (hsize : ∀ fl ∈ inputs, fl.data_size = 32 * W) {value : Nat → Word}
    (hruns : Runs K kernel (inputs.map Flow.words) n.additional_parameters (32 * W) W
      (stores_block value))
    (hvalue : ∀ r < 32 * W, value r = g r) : Makes K n inputs (IsColumn W g) := by
  have hdiv : 32 * W / 32 = W := by omega
  obtain ⟨e, hbefore, hrun⟩ := hruns.launching (Nat.le_refl (32 * W))
  obtain ⟨T, hT, -, hcells⟩ := launch_blocks e (stores_block value) value (fun _ _ _ => rfl)
  have hlen := launch_length e (fun s gid s' h => stores_block_length h) hT
  rw [hbefore, List.length_replicate] at hlen
  refine makes_of_launch hn hne hsize (by rw [hdiv]; exact hrun.trans hT)
    (isColumn_of_cells hout.size hlen fun r hr => ?_)
  rw [hcells r hr, hvalue r hr]

/-- A product of two columns. -/
theorem arith_mul_makes (hn : BlockNode W 1 "arith_mul" n) (hout : RowsOut W n)
    (hruns : Runs K "arith_mul" [fl.words, fl'.words] n.additional_parameters (32 * W) (32 * W)
      (arith_mul fl.words fl'.words))
    (hx : IsColumn W g fl) (hy : IsColumn W g' fl') :
    Makes K n [fl, fl'] (IsColumn W (fun r => g r * g' r)) := by
  obtain ⟨e, hbefore, hrun⟩ := hruns.launching (Nat.le_refl _)
  obtain ⟨T, hT, -, hcells⟩ := launch_arith_mul (fun r hr => hx.row hr) (fun r hr => hy.row hr) e
  have hlen := launch_length e (fun _ _ _ => word_of_two_length) hT
  rw [hbefore, List.length_replicate] at hlen
  exact makes_of_launch hn (by simp) (by simp [hx.size, hy.size])
    (by rw [Nat.div_one]; exact hrun.trans hT) (isColumn_of_cells hout.size hlen hcells)

/-- The sum of a column, in the first word of the output. -/
theorem aggregate_block_makes (hn : BlockNode W 32 "aggregate_block" n) (hW : 1 ≤ W)
    (hruns : Runs K "aggregate_block" [fl.words] n.additional_parameters (32 * W) W
      (aggregate_block fl.words))
    (hcol : IsColumn W g fl) :
    Makes K n [fl] (fun fl => fl.words[0]? = some ((List.range (32 * W)).map g).sum) := by
  have hdiv : 32 * W / 32 = W := by omega
  obtain ⟨e, hbefore, hrun⟩ := hruns.launching (show 1 ≤ 32 * W by omega)
  obtain ⟨T, hT, hsum⟩ := launch_aggregate_block (Nat.le_of_eq hcol.length.symm)
    (fun r hr => hcol.row hr) e (fun w hw => by
      rw [hbefore] at hw
      exact List.eq_of_mem_replicate hw)
  exact makes_of_launch hn (by simp) (by simp [hcol.size]) (by rw [hdiv]; exact hrun.trans hT) hsum

end nodes

/-! ## The kernels of a filter -/

/-- Kernels that a filter on `W` blocks can run on, with the tests of their selections, and with what
they leave of a row that is selected. -/
structure Serves (K : Kernels) (W : Nat) (between : Int → Int → Word → Bool)
    (below : Int → Word → Bool) (masked : Nat → Word → Word) : Prop where
  selection_between_block : ∀ data c d, data.length = 32 * W →
    Runs K "selection_between_block" [data] [c, d] (32 * W) W (selects (between c d) data)
  selection_less_than_block : ∀ data c, data.length = 32 * W →
    Runs K "selection_less_than_block" [data] [c] (32 * W) W (selects (below c) data)
  logical_block : ∀ a b, a.length = 32 * W → b.length = 32 * W →
    Runs K "logical_block" [a, b] [] (32 * W) (32 * W) (kernels.logical_block a b)
  materialize : ∀ input bitmap p, input.length = 32 * W → Marks W p bitmap →
    Runs K "materialize" [input, bitmap] [] (32 * W) W
      (stores_block (fun r => if p r then masked r (input.getD r 0) else 0))
  arith_mul : ∀ a b, a.length = 32 * W → b.length = 32 * W →
    Runs K "arith_mul" [a, b] [] (32 * W) (32 * W) (kernels.arith_mul a b)
  aggregate_block : ∀ data, data.length = 32 * W →
    Runs K "aggregate_block" [data] [] (32 * W) W (kernels.aggregate_block data)

theorem materialize_eq {W gid : Nat} {p : Nat → Bool} {input bitmap : List Word}
    (hinput : input.length = 32 * W) (hbitmap : Marks W p bitmap) (hgid : gid < W)
    (result : List Word) :
    materialize input bitmap result gid =
      stores_block (fun r => if p r then input.getD r 0 else 0) result gid := by
  obtain ⟨bm, hbm, hbits⟩ := hbitmap gid hgid
  unfold materialize stores_block
  apply loops.foldlM_congr
  intro i hi s
  have hlt := List.mem_range.mp hi
  have hrow : input[block_pos gid + i]? = some (input.getD (32 * gid + i) 0) :=
    aggregation.getD_eq input (by
      unfold block_pos
      omega)
  rw [hbm, Option.bind_some, hrow, Option.bind_some, cut_bit bm hlt, hbits i hlt]
  unfold block_pos
  dsimp only
  by_cases hp : p (32 * gid + i)
  · rw [if_pos hp, if_pos hp, one_mul]
  · rw [if_neg hp, if_neg hp, zero_mul]

/-- The `.cl` files compare without a sign, and leave the rows as they are. -/
theorem block_kernels_serve {items : String → List (List Word) → Nat → List Nat}
    (horder : ∀ kernel buffers n, (items kernel buffers n).Perm (List.range n)) (cpp : kernel_run)
    (W : Nat) :
    Serves ⟨block_kernels items, cpp⟩ W (fun c d w => word_at [c, d] 0 ≤ w && word_at [c, d] 1 < w)
      (fun c w => w < word_at [c] 0) (fun _ w => w) where
  selection_between_block _ _ _ _ := ⟨_, horder _ _ _, rfl⟩
  selection_less_than_block _ _ _ := ⟨_, horder _ _ _, rfl⟩
  logical_block _ _ _ _ := ⟨_, horder _ _ _, rfl⟩
  materialize input bitmap p hinput hbitmap := by
    refine ⟨_, horder "materialize" [input, bitmap, List.replicate (32 * W) 0] W, ?_⟩
    apply loops.foldlM_congr
    intro gid hgid result
    exact materialize_eq hinput hbitmap (List.mem_range.mp ((horder _ _ _).mem_iff.mp hgid)) result
  arith_mul _ _ _ _ := ⟨_, horder _ _ _, rfl⟩
  aggregate_block _ _ := ⟨_, horder _ _ _, rfl⟩

/-! ## The meaning of a vertex -/

/-- The launch of a vertex on what its inputs mean is defined, and the vertex means something of a
kind. -/
structure Means (K : Kernels) (p : Plan) (v : Nat) (P : Flow → Prop) : Prop where
  launched : ∃ words,
    (p.dag.vertex v).launched K ((p.dag.in_edges v).map (p.edge_meaning K.words)) = some words
  meaning : P (p.meaning K.words v)

section meaning

variable {K : Kernels} {p : Plan} {v e : Nat} {inputs : List Flow} {P : Flow → Prop}

/-- A vertex means what its node makes of its inputs. -/
theorem Makes.means {n : primitive_node} {es : List Nat} (h : Makes K n inputs P)
    (hv : v < p.dag.num_vertices) (hnode : p.dag.vertex v = n) (hedges : p.dag.in_edges v = es)
    (hinputs : es.map (p.edge_meaning K.words) = inputs) : Means K p v P := by
  obtain ⟨hlaunched, hmeaning⟩ := h
  constructor
  · rw [hnode, hedges, hinputs]
    exact hlaunched
  · rw [Plan.meaning_eq hv, hnode, hedges, hinputs]
    exact hmeaning

theorem Means.imp (h : Means K p v P) {Q : Flow → Prop} (hPQ : ∀ fl, P fl → Q fl) :
    Means K p v Q := ⟨h.launched, hPQ _ h.meaning⟩

/-- An edge from an operation brings what the operation means. -/
theorem Means.edge (h : Means K p v P) (hsource : p.dag.source e = v) (hne : v ≠ start_vertex) :
    P (p.edge_meaning K.words e) := by
  rw [Plan.edge_meaning, edge_flow, if_neg (by rw [hsource]; exact hne), hsource]
  exact h.meaning

/-- An edge from the scan brings its column. -/
theorem isColumn_of_scan {W j : Nat} {c : Int × List Word} (hsource : p.dag.source e = start_vertex)
    (hc : p.data_scan.entries[j]? = some c) (hkey : (p.dag.edge e).data_pointer = c.1)
    (hlen : c.2.length = 32 * W) :
    IsColumn W (fun r => c.2.getD r 0) (p.edge_meaning K.words e) := by
  rw [Plan.edge_meaning, edge_flow, if_pos hsource, hkey, column_flow_eq hc]
  apply isColumn_of_cells hlen hlen
  intro r hr
  rw [List.getD_eq_getElem?_getD, List.getElem?_eq_getElem (by rw [hlen]; exact hr),
    Option.getD_some]

end meaning

end hero.filter
