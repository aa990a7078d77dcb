-- The launch geometry of the hash join: how many work items the plan launches for its sizes, and
-- when their slices cut the inputs exactly.
import HeroDB.HashJoinPlan
import HeroDB.HashKernels

namespace hero.tests

open runtime_layer kernels

/-! ## The sizes of the launches -/

/-- `hashB` with its input, a build column of `S` rows. -/
def hashB_with_input (S : Nat) : primitive_node :=
  (hashB S).take_input { data_edge.fresh 1 with data_size := S }

/-- The size of the output of `hashB`, which its out-edge carries. -/
def hashB_output_size (S : Nat) : Nat := (hashB_with_input S).input_size

/-- `hashP` with its inputs, a probe column of `P` rows and the output of `hashB`. -/
def hashP_with_inputs (S P : Nat) : primitive_node :=
  ((hashP S P).take_input { data_edge.fresh 2 with data_size := P }).take_input
    { data_edge.fresh 0 with data_size := hashB_output_size S }

/-- The work items that `execute_node` launches for `hashB`. -/
def hashB_globalSize (S : Nat) : Nat := (launch_of 0 (hashB_with_input S)).globalSize

/-- The work items that `execute_node` launches for `hashP`. -/
def hashP_globalSize (S P : Nat) : Nat := (launch_of 0 (hashP_with_inputs S P)).globalSize

theorem hashB_output_size_eq (S : Nat) : hashB_output_size S = max 1 S := by
  unfold hashB_output_size hashB_with_input primitive_node.take_input
  simp only [hashB, primitive_node.fresh, primitive_node.add_parameter,
    List.length_nil, gt_iff_lt, Nat.lt_add_one, if_true]
  split <;> omega

theorem hashB_globalSize_eq (S : Nat) : hashB_globalSize S = max 1 S / 32 := by
  rw [← hashB_output_size_eq]
  rfl

theorem hashP_input_size_eq (S P : Nat) :
    (hashP_with_inputs S P).input_size = max (max 1 P) S := by
  unfold hashP_with_inputs primitive_node.take_input
  rw [hashB_output_size_eq]
  simp only [hashP, primitive_node.fresh, primitive_node.add_parameter,
    List.length_nil, List.nil_append, List.length_cons, gt_iff_lt, Nat.zero_lt_two, if_true,
    Nat.lt_add_one, zero_add]
  split <;> split <;> omega

theorem hashP_globalSize_eq (S P : Nat) : hashP_globalSize S P = max (max 1 P) S / 32 := by
  rw [← hashP_input_size_eq]
  rfl

/-! ## The law -/

/-- The visits cut `[0, size)` exactly: each position once, and no other. -/
def Partitions (visits : List Nat) (size : Nat) : Prop := visits.Perm (List.range size)

/-- The items of both launches cut their inputs exactly. -/
def JoinGeometry (S P : Nat) : Prop :=
  Partitions (hashBuild_visits (hashB_globalSize S) S) S ∧
    Partitions (hashProbe_visits (hashP_globalSize S P) P) P

/-- The sizes for which the geometry is right. -/
def good_sizes : List (Nat × Nat) :=
  [(0, 0), (0, 2048), (0, 2080), (3072, 0), (3072, 96), (3104, 0), (3104, 97), (3136, 0),
    (3136, 98)]

theorem partitions_range_iff {m n : Nat} : Partitions (List.range m) n ↔ m = n := by
  constructor
  · intro h
    simpa using h.length_eq
  · rintro rfl
    exact .refl _

/-- Slices of a `k`-th of the items, `S / 32` times, give `S` rows only when a slice has 32 rows:
a longer one overshoots and a shorter one stays short. -/
theorem slices_iff (k S : Nat) :
    S / 32 / k * (S / 32) = S ↔ S = 0 ∨ (S % 32 = 0 ∧ S / 32 / k = 32) := by
  have hdiv := Nat.div_add_mod S 32
  have hmod := Nat.mod_lt S (show 0 < 32 by decide)
  have hle : S / 32 / k ≤ S / 32 := Nat.div_le_self _ _
  generalize S / 32 = n at *
  generalize n / k = c at *
  constructor
  · intro h
    rcases Nat.lt_trichotomy c 32 with hlt | rfl | hgt
    · have hle31 : c * n ≤ 31 * n := Nat.mul_le_mul_right n (by omega)
      omega
    · omega
    · have hge33 : 33 * n ≤ c * n := Nat.mul_le_mul_right n hgt
      omega
  · rintro (rfl | ⟨hzero, rfl⟩)
    · have hn : n = 0 := by omega
      rw [hn, Nat.mul_zero]
    · omega

theorem build_slices_iff (S : Nat) :
    S / 96 * (max 1 S / 32) = S ↔ S = 0 ∨ S = 3072 ∨ S = 3104 ∨ S = 3136 := by
  have hitems : max 1 S / 32 = S / 32 := by omega
  have hslice : S / 96 = S / 32 / 3 := by rw [Nat.div_div_eq_div_mul]
  rw [hitems, hslice, slices_iff]
  omega

theorem probe_slices_iff (P : Nat) :
    P / 64 * (max 1 P / 32) = P ↔ P = 0 ∨ P = 2048 ∨ P = 2080 := by
  have hitems : max 1 P / 32 = P / 32 := by omega
  have hslice : P / 64 = P / 32 / 2 := by rw [Nat.div_div_eq_div_mul]
  rw [hitems, hslice, slices_iff]
  omega

/-- With a build column of this length, the probe items are as many as for the build column. -/
theorem probe_slices_of_build {S : Nat} (hS : S = 3072 ∨ S = 3104 ∨ S = 3136) (P : Nat) :
    P / 64 * (max (max 1 P) S / 32) = P ↔ P = 0 ∨ P = S / 32 := by
  rcases Nat.lt_or_ge S P with hlt | hge
  · have hmax : max (max 1 P) S = max 1 P := by omega
    rw [hmax, probe_slices_iff]
    omega
  · have hmax : max (max 1 P) S = S := by omega
    rw [hmax]
    rcases hS with rfl | rfl | rfl
    · omega
    · omega
    · omega

/-- The plan launches the right items for nine pairs of sizes, and for no other pair. -/
theorem the_join_items_partition_the_inputs_iff (S P : Nat) :
    JoinGeometry S P ↔ (S, P) ∈ good_sizes := by
  unfold JoinGeometry
  rw [hashBuild_visits_eq, hashProbe_visits_eq, partitions_range_iff, partitions_range_iff,
    hashB_globalSize_eq, hashP_globalSize_eq, build_slices_iff]
  constructor
  · rintro ⟨rfl | hS, hP⟩
    · rw [Nat.max_zero, probe_slices_iff] at hP
      rcases hP with rfl | rfl | rfl
      · decide
      · decide
      · decide
    · rw [probe_slices_of_build hS] at hP
      rcases hS with rfl | rfl | rfl
      · rcases hP with rfl | rfl <;> decide
      · rcases hP with rfl | rfl <;> decide
      · rcases hP with rfl | rfl <;> decide
  · intro h
    have hgood : ∀ q ∈ good_sizes, (q.1 = 0 ∨ q.1 = 3072 ∨ q.1 = 3104 ∨ q.1 = 3136) ∧
        q.2 / 64 * (max (max 1 q.2) q.1 / 32) = q.2 := by decide
    exact hgood _ h

/-- The sizes of `main`: 96 probe items of 32 rows visit 3072 positions of 2048. -/
theorem main_visits_positions_outside_the_probe_column : ¬ JoinGeometry 3072 2048 := by
  intro h
  have hlen := h.2.length_eq
  rw [hashProbe_visits_eq, hashP_globalSize_eq, List.length_range, List.length_range] at hlen
  exact absurd hlen (by decide)

end hero.tests
