-- The two kernels of the hash join, `hashBuild.cl` and `hashProbe.cl`: what one work item reads
-- and writes, and a launch as its work items in some order.
import HeroDB.QueryGraph

namespace hero.kernels

open runtime_layer (kernel_run)

/-! ## Buffers -/

/-- A store to a buffer. Past its end it is undefined behaviour. -/
def store (buffer : List Word) (i : Nat) (x : Word) : Option (List Word) :=
  if i < buffer.length then some (buffer.set i x) else none

/-- A size as the `unsigned int` parameter of a kernel has it. -/
def uint (n : Nat) : Nat := n % 2 ^ 32

/-! ## `hashBuild` -/

/-- `inpOffset`, and also `outOffset`, of a work item. -/
def inpOffset (inputArrSize gid : Nat) : Nat := inputArrSize / 96 * gid

/-- The loop over `j`: from slot `hf` on, `n` slots are tried. A slot with a word above zero is
taken. -/
def build_slot (x : Word) : Nat → Nat → List Word → Option (List Word)
  | 0, _, result => some result
  | n + 1, hf, result =>
    (result[hf]?).bind (fun r =>
      if 0 < r.toNat then build_slot x n (uint (hf + 1)) result else store result hf x)

def build_row (input : List Word) (inputArrSize gid : Nat) (result : List Word) (i : Nat) :
    Option (List Word) :=
  (input[inpOffset inputArrSize gid + i]?).bind (fun x =>
    build_slot x (inputArrSize / 96)
      (uint (x.toNat % (inputArrSize / 96) + inpOffset inputArrSize gid)) result)

/-- One work item of `hashBuild`. The size is a parameter of the launch, so it is below `2 ^ 32`. -/
def hashBuild (input : List Word) (inputArrSize : Nat) (result : List Word) (gid : Nat) :
    Option (List Word) :=
  (List.range (inputArrSize / 96)).foldlM (build_row input inputArrSize gid) result

/-! ## `hashProbe` -/

/-- The loop over `j`: `n` turns are left, and the next one is at `j`. -/
def probe_slot (inpProbe inpBuild : List Word) (buildArrSize pos : Nat) :
    Nat → Nat → List Word → Option (List Word)
  | 0, _, result => some result
  | n + 1, j, result =>
    (inpBuild[j]?).bind (fun w =>
      (inpProbe[pos]?).bind (fun x =>
        if w = x then store result pos (BitVec.ofNat 32 j)
        else if j < buildArrSize - 1 then
          probe_slot inpProbe inpBuild buildArrSize pos n (j + 1) result
        else store result pos (BitVec.allOnes 32)))

def probeOffset (probeArrSize gid : Nat) : Nat := probeArrSize / 64 * gid

def probe_row (inpProbe inpBuild : List Word) (buildArrSize probeArrSize gid : Nat)
    (result : List Word) (i : Nat) : Option (List Word) :=
  probe_slot inpProbe inpBuild buildArrSize (i + probeOffset probeArrSize gid) buildArrSize 0
    result

/-- One work item of `hashProbe`. Both sizes are parameters of the launch, so they are below
`2 ^ 32`. -/
def hashProbe (inpProbe inpBuild : List Word) (buildArrSize probeArrSize : Nat)
    (result : List Word) (gid : Nat) : Option (List Word) :=
  (List.range (probeArrSize / 64)).foldlM
    (probe_row inpProbe inpBuild buildArrSize probeArrSize gid) result

/-! ## Launches -/

/-- What OpenCL is free to choose: the order of the work items of a launch, and the word behind
each argument. `add_data` allocates one word more than it writes. -/
structure Execution where
  order : String → Nat → List Nat
  perm : ∀ kernel n, (order kernel n).Perm (List.range n)
  spare : String → Nat → Word

def Execution.buffer (x : Execution) (kernel : String) (arg : Nat) (data : List Word) :
    List Word :=
  data ++ [x.spare kernel arg]

/-- A parameter as the kernel reads it. -/
def parameter (params : List Int) (i : Nat) : Nat := (BitVec.ofInt 32 (params.getD i 0)).toNat

/-- The launches of the two kernels. The word behind the result is dropped again. -/
def run_kernel (x : Execution) : kernel_run := fun kernel buffers params globalSize =>
  match kernel, buffers with
  | "hashBuild", [input, result] =>
    ((x.order kernel globalSize).foldlM
      (hashBuild (x.buffer kernel 0 input) (parameter params 0))
      (x.buffer kernel 1 result)).map (·.take result.length)
  | "hashProbe", [inpProbe, inpBuild, result] =>
    ((x.order kernel globalSize).foldlM
      (hashProbe (x.buffer kernel 0 inpProbe) (x.buffer kernel 1 inpBuild) (parameter params 0)
        (parameter params 1))
      (x.buffer kernel 2 result)).map (·.take result.length)
  | _, _ => none

/-! ## The positions that a launch visits -/

/-- The positions that the items of a `hashBuild` launch read, item by item. -/
def hashBuild_visits (globalSize inputArrSize : Nat) : List Nat :=
  (List.range globalSize).flatMap (fun gid =>
    (List.range (inputArrSize / 96)).map (fun i => inpOffset inputArrSize gid + i))

def hashProbe_visits (globalSize probeArrSize : Nat) : List Nat :=
  (List.range globalSize).flatMap (fun gid =>
    (List.range (probeArrSize / 64)).map (fun i => i + probeOffset probeArrSize gid))

theorem slices_eq_range (c n : Nat) :
    (List.range n).flatMap (fun g => (List.range c).map (fun i => c * g + i)) =
      List.range (c * n) := by
  induction n with
  | zero => rfl
  | succ n ih =>
    rw [List.range_succ, List.flatMap_append, ih, Nat.mul_succ, List.range_add]
    simp

theorem hashBuild_visits_eq (globalSize inputArrSize : Nat) :
    hashBuild_visits globalSize inputArrSize = List.range (inputArrSize / 96 * globalSize) :=
  slices_eq_range _ _

theorem hashProbe_visits_eq (globalSize probeArrSize : Nat) :
    hashProbe_visits globalSize probeArrSize = List.range (probeArrSize / 64 * globalSize) := by
  unfold hashProbe_visits probeOffset
  simp only [Nat.add_comm _ (probeArrSize / 64 * _)]
  exact slices_eq_range _ _

end hero.kernels
