-- The laws of `hashProbe`: every position that a work item visits gets the first slot of the build
-- table with its row, whatever the order of the work items, and no other position is written.
import HeroDB.Lib.Loops
import HeroDB.HashKernels

namespace hero.kernels

open loops

/-- What a probe row gets: its first position in the build table, or -1. -/
def position (inpBuild : List Word) (x : Word) : Word :=
  if x ∈ inpBuild then BitVec.ofNat 32 (inpBuild.idxOf x) else BitVec.allOnes 32

def probe_at (inpProbe inpBuild : List Word) (buildArrSize : Nat) (result : List Word) (pos : Nat) :
    Option (List Word) :=
  probe_slot inpProbe inpBuild buildArrSize pos buildArrSize 0 result

/-- The positions that the work items of a launch visit, in the order of the items. -/
def visits (order : List Nat) (probeArrSize : Nat) : List Nat :=
  order.flatMap (fun gid =>
    (List.range (probeArrSize / 64)).map (fun i => i + probeOffset probeArrSize gid))

section probe

variable {inpProbe inpBuild result T : List Word} {buildArrSize probeArrSize N n j pos : Nat}
variable {order : List Nat} {x : Word}

/-- The loop over `j` looks for the row in the rest of the table. -/
theorem probe_slot_finds (hn : 0 < n) (hj : j + n = buildArrSize)
    (hbuild : buildArrSize ≤ inpBuild.length) (hx : inpProbe[pos]? = some x)
    (hpos : pos < result.length) :
    probe_slot inpProbe inpBuild buildArrSize pos n j result =
      some (result.set pos (if x ∈ (inpBuild.take buildArrSize).drop j then
        BitVec.ofNat 32 (j + ((inpBuild.take buildArrSize).drop j).idxOf x)
        else BitVec.allOnes 32)) := by
  induction n generalizing j with
  | zero => omega
  | succ n ih =>
    have hlen : (inpBuild.take buildArrSize).length = buildArrSize := by
      rw [List.length_take]
      omega
    have hlt : j < (inpBuild.take buildArrSize).length := by omega
    have hget : inpBuild[j]? = some (inpBuild.take buildArrSize)[j] := by
      rw [List.getElem_take, List.getElem?_eq_getElem]
    rw [probe_slot, hget, Option.bind_some, hx, Option.bind_some, List.drop_eq_getElem_cons hlt]
    generalize (inpBuild.take buildArrSize)[j] = w
    by_cases hw : w = x
    · subst hw
      rw [if_pos rfl, store, if_pos hpos, if_pos List.mem_cons_self, List.idxOf_cons_self,
        Nat.add_zero]
    · rw [if_neg hw]
      by_cases hlast : j < buildArrSize - 1
      · rw [if_pos hlast, ih (by omega) (by omega), List.idxOf_cons_ne _ hw]
        have hmem : x ∈ w :: (inpBuild.take buildArrSize).drop (j + 1) ↔
            x ∈ (inpBuild.take buildArrSize).drop (j + 1) := by
          simp [List.mem_cons, Ne.symm hw]
        simp only [hmem, Nat.succ_eq_add_one, Nat.add_assoc, Nat.add_comm 1]
      · have hnil : (inpBuild.take buildArrSize).drop (j + 1) = [] :=
          List.drop_eq_nil_of_le (by omega)
        rw [if_neg hlast, hnil, if_neg (by simp [Ne.symm hw]), store, if_pos hpos]

theorem probe_at_eq (hsize : 0 < buildArrSize) (hbuild : buildArrSize ≤ inpBuild.length)
    (hx : inpProbe[pos]? = some x) (hpos : pos < result.length) :
    probe_at inpProbe inpBuild buildArrSize result pos =
      some (result.set pos (position (inpBuild.take buildArrSize) x)) := by
  rw [probe_at, probe_slot_finds hsize (Nat.zero_add _) hbuild hx hpos]
  simp [position]

/-- A turn at a position writes nothing but that position, and nothing at all without a table. -/
theorem probe_slot_sets
    (h : probe_slot inpProbe inpBuild buildArrSize pos n j result = some T) :
    T = result ∨ (0 < n ∧ ∃ w, T = result.set pos w) := by
  induction n generalizing j with
  | zero =>
    rw [probe_slot, Option.some.injEq] at h
    exact .inl h.symm
  | succ n ih =>
    have hstore : ∀ w, store result pos w = some T → T = result.set pos w := by
      intro w hw
      unfold store at hw
      split at hw
      · exact (Option.some.inj hw).symm
      · cases hw
    rw [probe_slot, Option.bind_eq_some_iff] at h
    obtain ⟨w, -, hw⟩ := h
    rw [Option.bind_eq_some_iff] at hw
    obtain ⟨x, -, hx⟩ := hw
    split at hx
    · exact .inr ⟨Nat.succ_pos n, _, hstore _ hx⟩
    · split at hx
      · rcases ih hx with hsame | ⟨-, hset⟩
        · exact .inl hsame
        · exact .inr ⟨Nat.succ_pos n, hset⟩
      · exact .inr ⟨Nat.succ_pos n, _, hstore _ hx⟩

theorem probe_at_reads (hsize : 0 < buildArrSize)
    (h : probe_at inpProbe inpBuild buildArrSize result pos = some T) : pos < inpProbe.length := by
  unfold probe_at at h
  obtain ⟨n, rfl⟩ := Nat.exists_eq_succ_of_ne_zero (Nat.ne_of_gt hsize)
  rw [Nat.succ_eq_add_one, probe_slot, Option.bind_eq_some_iff] at h
  obtain ⟨w, -, hw⟩ := h
  rw [Option.bind_eq_some_iff] at hw
  obtain ⟨x, hx, -⟩ := hw
  exact (List.getElem?_eq_some_iff.mp hx).1

/-- A launch is one loop over the positions that its items visit. -/
theorem probe_launch_eq (inpProbe inpBuild : List Word) (buildArrSize probeArrSize : Nat)
    (order : List Nat) (result : List Word) :
    order.foldlM (hashProbe inpProbe inpBuild buildArrSize probeArrSize) result =
      (visits order probeArrSize).foldlM (probe_at inpProbe inpBuild buildArrSize) result := by
  unfold visits
  rw [foldlM_flatMap]
  congr 1
  funext result gid
  rw [List.foldlM_map]
  rfl

theorem mem_visits (horder : order.Perm (List.range N)) :
    pos ∈ visits order probeArrSize ↔ pos < probeArrSize / 64 * N := by
  rw [← List.mem_range, ← hashProbe_visits_eq]
  unfold visits hashProbe_visits
  rw [List.mem_flatMap, List.mem_flatMap]
  simp only [horder.mem_iff]

theorem probe_launch_finds (inpProbe inpBuild result : List Word) (probeArrSize : Nat)
    (hsize : 0 < buildArrSize) (hbuild : buildArrSize ≤ inpBuild.length)
    (horder : order.Perm (List.range N)) (hprobe : probeArrSize / 64 * N ≤ inpProbe.length)
    (hresult : probeArrSize / 64 * N ≤ result.length) :
    ∃ T, order.foldlM (hashProbe inpProbe inpBuild buildArrSize probeArrSize) result = some T ∧
      ∀ t x, t < probeArrSize / 64 * N → inpProbe[t]? = some x →
        T[t]? = some (position (inpBuild.take buildArrSize) x) := by
  rw [probe_launch_eq]
  obtain ⟨T, hrun, -, hfound⟩ := goes_well (visits order probeArrSize)
    (probe_at inpProbe inpBuild buildArrSize) result
    (fun pre T => T.length = result.length ∧ ∀ t ∈ pre, ∀ x, inpProbe[t]? = some x →
      T[t]? = some (position (inpBuild.take buildArrSize) x)) (by
      rintro pre pos post T1 hl ⟨hlen, hfound⟩
      have hpos : pos < probeArrSize / 64 * N := (mem_visits horder).mp (by simp [hl])
      have hx : inpProbe[pos]? = some inpProbe[pos] := List.getElem?_eq_getElem (by omega)
      refine ⟨_, probe_at_eq hsize hbuild hx (by omega), by rw [List.length_set, hlen], ?_⟩
      intro t ht x hx'
      by_cases htp : pos = t
      · subst htp
        rw [hx, Option.some.injEq] at hx'
        rw [List.getElem?_set_self (by omega), hx']
      · rw [List.getElem?_set_ne htp]
        rcases List.mem_append.mp ht with ht | ht
        · exact hfound t ht x hx'
        · exact absurd (List.mem_singleton.mp ht).symm htp)
    ⟨rfl, fun t ht => by cases ht⟩
  exact ⟨T, hrun, fun t x ht hx => hfound t ((mem_visits horder).mpr ht) x hx⟩

theorem probe_launch_reads (hsize : 0 < buildArrSize) (horder : order.Perm (List.range N))
    (h : order.foldlM (hashProbe inpProbe inpBuild buildArrSize probeArrSize) result = some T)
    (hpos : pos < probeArrSize / 64 * N) : pos < inpProbe.length := by
  rw [probe_launch_eq] at h
  obtain ⟨T1, T2, hturn⟩ := every_turn h ((mem_visits horder).mpr hpos)
  exact probe_at_reads hsize hturn

/-- A launch leaves the positions that it does not visit, and without a table every position. -/
theorem probe_launch_frame (horder : order.Perm (List.range N))
    (h : order.foldlM (hashProbe inpProbe inpBuild buildArrSize probeArrSize) result = some T)
    (hpos : buildArrSize = 0 ∨ probeArrSize / 64 * N ≤ pos) : T[pos]? = result[pos]? := by
  rw [probe_launch_eq] at h
  refine keeps (fun _ T => T[pos]? = result[pos]?) ?_ h rfl
  intro pre t post T1 T2 hl hsame hturn
  have ht : t < probeArrSize / 64 * N := (mem_visits horder).mp (by simp [hl])
  rcases probe_slot_sets hturn with rfl | ⟨hsize, w, rfl⟩
  · exact hsame
  · rw [List.getElem?_set_ne (by omega), hsame]

theorem position_exact (hsize : inpBuild.length < 2 ^ 32 - 1) (x : Word) :
    (∀ j, inpBuild[j]? = some x → (∀ k < j, inpBuild[k]? ≠ some x) →
      (position inpBuild x).toNat = j) ∧
    (x ∉ inpBuild → position inpBuild x = 0xFFFFFFFF) := by
  unfold position
  constructor
  · intro j hj hfirst
    have hmem : x ∈ inpBuild := List.mem_of_getElem? hj
    have hlt : inpBuild.idxOf x < inpBuild.length := List.idxOf_lt_length_of_mem hmem
    have hat : inpBuild[inpBuild.idxOf x]? = some x := by
      rw [List.getElem?_eq_getElem hlt, List.getElem_idxOf]
    have hidx : inpBuild.idxOf x = j := by
      rcases Nat.lt_trichotomy (inpBuild.idxOf x) j with h | h | h
      · exact absurd hat (hfirst _ h)
      · exact h
      · -- The index is the first one, so no earlier cell has the row.
        obtain ⟨hjlt, hjx⟩ := List.getElem?_eq_some_iff.mp hj
        have hnot := List.not_of_lt_findIdx h
        rw [hjx] at hnot
        simp at hnot
    rw [if_pos hmem, hidx, BitVec.toNat_ofNat, Nat.mod_eq_of_lt (by omega)]
  · intro hmem
    rw [if_neg hmem]
    rfl

/-- A launch for whole arrays, whose sizes the kernel gets as `unsigned int`s: it reads and writes
inside its buffers, each of the first positions gets the first row of the build table that is equal
to it, or -1, and the others stay. -/
def FindsEqualRows (inpProbe inpBuild result : List Word) (order : List Nat) : Prop :=
  ∃ T, order.foldlM
      (hashProbe inpProbe inpBuild (uint inpBuild.length) (uint inpProbe.length)) result = some T ∧
    (∀ i x, i < 64 * (inpProbe.length / 64) → inpProbe[i]? = some x →
      ∃ w, T[i]? = some w ∧
        (∀ j, inpBuild[j]? = some x → (∀ k < j, inpBuild[k]? ≠ some x) → w.toNat = j) ∧
        (x ∉ inpBuild → w = 0xFFFFFFFF)) ∧
    ∀ i, 64 * (inpProbe.length / 64) ≤ i → T[i]? = result[i]?

/-- Whatever the order of the 64 items, a launch finds the equal rows of every probe array whose size
is an `unsigned int`. -/
theorem hashProbe_finds_the_first_equal_row (horder : order.Perm (List.range 64))
    (hpos : 1 ≤ inpBuild.length) (hsize : inpBuild.length < 2 ^ 32 - 1)
    (hprobe : inpProbe.length < 2 ^ 32) (hresult : 64 * (inpProbe.length / 64) ≤ result.length) :
    FindsEqualRows inpProbe inpBuild result order := by
  have hbuildsize : uint inpBuild.length = inpBuild.length := Nat.mod_eq_of_lt (by omega)
  have hprobesize : uint inpProbe.length = inpProbe.length := Nat.mod_eq_of_lt hprobe
  unfold FindsEqualRows
  rw [hbuildsize, hprobesize]
  obtain ⟨T, hrun, hfound⟩ := probe_launch_finds inpProbe inpBuild result inpProbe.length hpos
    (Nat.le_refl _) horder (by omega) (by omega)
  refine ⟨T, hrun, ?_, ?_⟩
  · intro i x hi hx
    have hcell := hfound i x (by omega) hx
    rw [List.take_length] at hcell
    obtain ⟨hfirst, hnone⟩ := position_exact hsize x
    exact ⟨_, hcell, hfirst, hnone⟩
  · intro i hi
    exact probe_launch_frame horder hrun (.inr (by omega))

end probe

theorem hashProbe_finds_the_first_of_two_equal_rows :
    FindsEqualRows (List.replicate 64 5) [3, 5, 5] (List.replicate 64 0) (List.range 64) :=
  hashProbe_finds_the_first_equal_row (List.Perm.refl _) (by decide) (by decide)
    (by rw [List.length_replicate]; decide)
    (Nat.le_of_eq (by rw [List.length_replicate, List.length_replicate]))

/-- 2^32 rows: the size that the kernel gets is 0, and no row is looked up. -/
theorem hashProbe_looks_up_no_row_of_two_to_the_32 :
    ¬ FindsEqualRows (List.replicate (2 ^ 32) 5) [5] (List.replicate (2 ^ 32) 7) (List.range 64) := by
  rintro ⟨T, hrun, hfound, -⟩
  rw [List.length_replicate] at hrun hfound
  have hsize : uint (2 ^ 32) / 64 * 64 = 0 := rfl
  have hfirst : ∀ n : Nat, 0 < n → ∀ w : Word, (List.replicate n w)[0]? = some w :=
    fun n hn w => List.getElem?_replicate_of_lt hn
  have hsame : T[0]? = (List.replicate (2 ^ 32) (7 : Word))[0]? :=
    probe_launch_frame (List.Perm.refl _) hrun (.inr (by rw [hsize]))
  obtain ⟨w, hw, hfirstrow, -⟩ := hfound 0 5 (by omega) (hfirst _ (by omega) 5)
  rw [hsame, hfirst _ (by omega) 7, Option.some.injEq] at hw
  have hzero := hfirstrow 0 rfl (fun k hk => absurd hk (Nat.not_lt_zero k))
  rw [← hw] at hzero
  exact absurd hzero (by decide)

end hero.kernels
