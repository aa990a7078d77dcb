-- The plan of `query_hashJoin`: the build node reads the build column, and the probe node reads
-- the probe column and then the output of the build node.
import HeroDB.QueryGraph

namespace hero.tests

open runtime_layer

/-- `hashB`, with the number of build rows as its parameter. -/
def hashB (c1 : Int) : primitive_node :=
  { (primitive_node.fresh "hashBuild").add_parameter c1 with input_to_output_ratio := 32 }

/-- `hashP`, with the numbers of build and probe rows as its parameters. -/
def hashP (c1 c2 : Int) : primitive_node :=
  { ({ primitive_node.fresh "hashProbe" with
        no_of_input_required := 2, no_of_parameters := 2 }.add_parameter c1).add_parameter c2 with
    input_to_output_ratio := 32 }

/-- The vertex of `hashB`. -/
def s2 : Nat := 2

/-- The vertex of `hashP`. -/
def s3 : Nat := 3

/-- The graph of the plan. -/
def query_hashJoin_graph (c1 c2 : Int) : query_graph :=
  ((((((query_graph.empty.add_vertex (hashB c1)).add_vertex (hashP c1 c2)).add_edge
    start_vertex s2 (data_edge.fresh 1)).add_edge
    start_vertex s3 (data_edge.fresh 2)).add_edge
    s2 s3 (data_edge.fresh 0)).add_edge
    s3 end_vertex (data_edge.fresh 0))

/-- The scan map of the plan: the build column under key 1, the probe column under key 2. -/
def query_hashJoin_scan (a b : List Word) : ScanMap where
  entries := [(1, a), (2, b)]
  sorted := by simp
  int_keys := by simp

/-- The topological order of the plan. -/
def query_hashJoin_queue : List Nat := [start_vertex, s2, s3, end_vertex]

section plan

variable (c1 c2 : Int)

@[simp] theorem hashB_name : (hashB c1).mKernelName = "hashBuild" := rfl

@[simp] theorem hashP_name : (hashP c1 c2).mKernelName = "hashProbe" := rfl

theorem query_hashJoin_num_vertices : (query_hashJoin_graph c1 c2).num_vertices = 4 := rfl

theorem query_hashJoin_ends :
    (query_hashJoin_graph c1 c2).ends =
      [(start_vertex, s2), (start_vertex, s3), (s2, s3), (s3, end_vertex)] := rfl

theorem query_hashJoin_vertex_s2 : (query_hashJoin_graph c1 c2).vertex s2 = hashB c1 := rfl

theorem query_hashJoin_vertex_s3 : (query_hashJoin_graph c1 c2).vertex s3 = hashP c1 c2 := rfl

theorem query_hashJoin_isOp {v : Nat} : (query_hashJoin_graph c1 c2).IsOp v ↔ v = s2 ∨ v = s3 := by
  unfold query_graph.IsOp
  rw [query_hashJoin_num_vertices, start_vertex, end_vertex, s2, s3]
  omega

theorem query_hashJoin_is_a_query : IsQuery (query_hashJoin_graph c1 c2) where
  two_le := by rw [query_hashJoin_num_vertices]; omega
  scan_name := rfl
  display_name := rfl
  op_name := by
    intro v hv
    rcases (query_hashJoin_isOp c1 c2).mp hv with rfl | rfl
    · simp [query_hashJoin_vertex_s2]
    · simp [query_hashJoin_vertex_s3]
  ends_lt := by
    rw [query_hashJoin_ends, query_hashJoin_num_vertices]
    decide
  scan_first := by
    rw [query_hashJoin_ends]
    decide
  display_last := by
    rw [query_hashJoin_ends]
    decide

theorem query_hashJoin_nodes_are_fresh : FreshNodes (query_hashJoin_graph c1 c2) := by
  intro v hv
  rcases (query_hashJoin_isOp c1 c2).mp hv with rfl | rfl
  · exact ⟨rfl, rfl⟩
  · exact ⟨rfl, rfl⟩

theorem query_hashJoin_queue_is_topological :
    IsTopological (query_hashJoin_graph c1 c2) query_hashJoin_queue where
  perm := by
    rw [query_hashJoin_num_vertices]
    decide
  forward := by
    rw [query_hashJoin_ends]
    decide

end plan

end hero.tests
