-- The tasks, and the predefined ones: one for each file of the kernel directory, in the order of
-- `readdir`, and the plans that pick their kernels by the position in that order.
import HeroDB.DataInterface
import Mathlib.Data.List.Nodup
import Mathlib.Data.List.Basic

namespace hero.task_layer

/-! ## The tasks -/

abbrev Name := List Char

structure kernelPack where
  mPId : Nat
  mDId : Nat
  mKernelName : Name
  mKernelSrc : Name
  mCmdArgs : Name

/-- The data of a task: an alias, and the words at its location. -/
structure dataPack where
  _alias : Int
  CPUlocation : List Word

structure task where
  pID : Nat := 0
  dID : Nat := 0
  task_kernel : kernelPack
  task_data : List dataPack := []
  data_size : Nat := 0
  additional_parameters : List Int := []
  intent : Nat := 1

def task.set_platform_device (t : task) (p d : Nat) : task :=
  { t with pID := p, dID := d, task_kernel := { t.task_kernel with mPId := p, mDId := d } }

namespace predefined

/-- `s.substr(0, s.find_last_of("."))` -/
def stem (s : Name) : Name :=
  match s.reverse.dropWhile (· ≠ '.') with
  | _ :: rest => rest.reverse
  | [] => s

/-- The kernel of a directory entry. -/
def kernel_of (d_name : Name) : Option Name :=
  if (stem d_name).length = 1 ∨ (stem d_name).length = 0 then none else some (stem d_name)

/-- The kernels of a directory, from its entries in the order of `readdir`. -/
def setupKernelNames (directory : List Name) : List Name := directory.filterMap kernel_of

/-- What the environment of `initialize_tasks` provides: the files, and the default device. -/
structure Settings where
  readFile : Name → Name
  KERNEL_ROOT_DIR : Name
  default_platform : Nat
  default_device : Nat

def initialize_tasks (e : Settings) (directory : List Name) : List task :=
  (setupKernelNames directory).map (fun k =>
    ({ task_kernel :=
        { mPId := 0, mDId := 0, mKernelName := k
          mKernelSrc := e.readFile (e.KERNEL_ROOT_DIR ++ k ++ ".cl".toList)
          mCmdArgs := [] } } : task).set_platform_device e.default_platform e.default_device)

/-! ## The plans -/

/-- The kernel of `tasks[i]`. Behind the last task the access is undefined behaviour. -/
def kernel_at (tasks : List task) (i : Nat) : Option Name :=
  (tasks[i]?).map (fun t => t.task_kernel.mKernelName)

/-- The kernels of the nodes of `query_hashJoin`. -/
structure hashJoin_kernels where
  hashB : Name
  hashP : Name
deriving DecidableEq

def query_hashJoin (tasks : List task) : Option hashJoin_kernels := do
  let hashB ← kernel_at tasks 12
  let hashP ← kernel_at tasks 3
  return { hashB, hashP }

/-- The kernels of the nodes of `query_6`. -/
structure query_6_kernels where
  sel1 : Name
  sel2 : Name
  sel3 : Name
  log1 : Name
  log2 : Name
  mate1 : Name
  mate2 : Name
  arith : Name
  agg : Name
deriving DecidableEq

def query_6 (tasks : List task) : Option query_6_kernels := do
  let sel1 ← kernel_at tasks 1
  let sel2 ← kernel_at tasks 1
  let sel3 ← kernel_at tasks 8
  let log1 ← kernel_at tasks 4
  let log2 ← kernel_at tasks 4
  let mate1 ← kernel_at tasks 3
  let mate2 ← kernel_at tasks 3
  let arith ← kernel_at tasks 11
  let agg ← kernel_at tasks 6
  return { sel1, sel2, sel3, log1, log2, mate1, mate2, arith, agg }

/-- Two orders of a directory give both plans the same kernels, those that they are meant to have. -/
def SamePlans (e : Settings) (order order' : List Name) : Prop :=
  ∃ join filter,
    query_hashJoin (initialize_tasks e order) = some join ∧
    query_hashJoin (initialize_tasks e order') = some join ∧
    query_6 (initialize_tasks e order) = some filter ∧
    query_6 (initialize_tasks e order') = some filter ∧
    join.hashB = "hashBuild".toList ∧ join.hashP = "hashProbe".toList ∧
    filter.mate1 = "materialize".toList ∧ filter.mate2 = "materialize".toList

/-! ## Kernels by position -/

section positions

variable {e : Settings} {order order' : List Name} {i : Nat}

/-- A plan gets the kernel of the file at a position. -/
theorem kernel_at_eq : kernel_at (initialize_tasks e order) i = (setupKernelNames order)[i]? := by
  rw [kernel_at, initialize_tasks, List.getElem?_map, Option.map_map]
  exact Option.map_id_apply

theorem query_hashJoin_eq_some {join : hashJoin_kernels} :
    query_hashJoin (initialize_tasks e order) = some join ↔
      (setupKernelNames order)[12]? = some join.hashB ∧
        (setupKernelNames order)[3]? = some join.hashP := by
  obtain ⟨hashB, hashP⟩ := join
  rw [query_hashJoin, kernel_at_eq, kernel_at_eq]
  cases (setupKernelNames order)[12]? <;> cases (setupKernelNames order)[3]? <;> simp

/-- The kernel that both nodes of `query_6` take which materialize. -/
theorem query_6_mate {filter : query_6_kernels}
    (h : query_6 (initialize_tasks e order) = some filter) :
    (setupKernelNames order)[3]? = some filter.mate1 := by
  simp only [query_6, kernel_at_eq, Option.bind_eq_bind, Option.bind_eq_some_iff,
    Option.pure_def, Option.some.injEq] at h
  obtain ⟨_, -, _, -, _, -, _, -, _, -, mate1, hmate1, _, -, _, -, _, -, rfl⟩ := h
  exact hmate1

/-- Two orders give the hash join the same kernels if and only if they agree at two positions. -/
theorem same_hashJoin_iff {join : hashJoin_kernels}
    (h : query_hashJoin (initialize_tasks e order) = some join) :
    query_hashJoin (initialize_tasks e order') = some join ↔
      (setupKernelNames order')[12]? = (setupKernelNames order)[12]? ∧
        (setupKernelNames order')[3]? = (setupKernelNames order)[3]? := by
  obtain ⟨hbuild, hprobe⟩ := query_hashJoin_eq_some.mp h
  rw [query_hashJoin_eq_some, hbuild, hprobe]

/-- No order gives both plans their kernels: the probe and the materialization are one position. -/
theorem one_position (e : Settings) (order : List Name) {join : hashJoin_kernels}
    {filter : query_6_kernels} (hjoin : query_hashJoin (initialize_tasks e order) = some join)
    (hfilter : query_6 (initialize_tasks e order) = some filter) : join.hashP = filter.mate1 := by
  have hprobe := (query_hashJoin_eq_some.mp hjoin).2
  rw [query_6_mate hfilter] at hprobe
  exact (Option.some.inj hprobe).symm

end positions

theorem names_apart : "hashProbe".toList ≠ "materialize".toList := by decide

/-- No two orders of any directory give the plans of both queries the kernels they are meant to
have. -/
theorem no_orders_give_the_plans (e : Settings) (order order' : List Name) :
    ¬SamePlans e order order' := by
  rintro ⟨join, filter, hjoin, -, hfilter, -, -, hprobe, hmate, -⟩
  have hsame := one_position e order hjoin hfilter
  rw [hprobe, hmate] at hsame
  exact names_apart hsame

/-- The kernel directory of the repository, in the order of the names. -/
def kernel_files : List Name :=
  [".", "..", "aggregate_block.cl", "arith_mul.cl", "arith_sum.cl", "hashBuild.cl", "hashProbe.cl",
    "logical_block.cl", "logical_block_or.cl", "materialize.cl", "ordered_aggregate_count_block.cl",
    "ordered_aggregate_sum_block.cl", "partial_prefix_sum.cl", "selection_between_block.cl",
    "selection_greater_than_block.cl", "selection_less_than_block.cl"].map String.toList

def settings : Settings := ⟨fun _ => [], "kernels/".toList, 0, 0⟩

/-- In that order the probe is the kernel that builds, and in the reversed one a prefix sum. -/
theorem two_orders_differ : ¬SamePlans settings kernel_files kernel_files.reverse := by
  rintro ⟨join, filter, hjoin, hreversed, -⟩
  have hprobe := ((same_hashJoin_iff hjoin).mp hreversed).2
  exact absurd hprobe (by decide)

end predefined

end hero.task_layer
