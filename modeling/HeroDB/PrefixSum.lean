-- The two-level prefix sum of `partial_prefix_sum.cl`: the running sums of the blocks, and the
-- offsets that the items add up for all later blocks, with the items interleaved in any way.
import HeroDB.Lib.AtomicAdds
import HeroDB.Lib.WorkItems
import HeroDB.HashKernels
import Mathlib.Data.BitVec

namespace hero.kernels

open atomic_adds transition work_items

/-! ## One access at a time -/

/-- The two output arrays. -/
structure prefix_arrays where
  partial_sums : List Word
  offset_arr : List Word

/-- Where a work item is: at its start, at the test of the first loop, between the load of the sum
before and the store, behind the first loop, at the test of the second loop, or at its end. -/
inductive prefix_pc
  | start
  | block (i : Nat)
  | sum (i : Nat) (mPrevIndexVal : Word)
  | last
  | offset (k : Nat) (mLastOffsetVal : Word)
  | done
deriving DecidableEq

/-- The first position of the block of an item. -/
def mIndex (gid : Nat) : Nat := uint (uint gid * 32)

/-- The position behind the block of an item. -/
def mIndexLast (gid : Nat) : Nat := uint (mIndex gid + 32)

/-- What is stored at a position. Position 0 gets its own number, which is 0. -/
def running_sum (boundaries : List Word) (i : Nat) (mPrevIndexVal : Word) : Option Word :=
  if i = 0 then some 0
  else (boundaries[i]?).map (fun b => (if b = 0 then 1 else 0) + mPrevIndexVal)

/-- The next turn of a work item of a launch of `G` items. -/
def prefix_turn (boundaries : List Word) (G gid : Nat) :
    prefix_pc → prefix_arrays → Option (prefix_pc × prefix_arrays)
  | .start, m => some (.block (mIndex gid), m)
  | .block i, m =>
    if i < mIndexLast gid then
      if i = mIndex gid then some (.sum i 0, m)
      else (m.partial_sums[i - 1]?).map (fun v => (.sum i v, m))
    else some (.last, m)
  | .sum i mPrevIndexVal, m =>
    (running_sum boundaries i mPrevIndexVal).bind (fun v =>
      (store m.partial_sums i v).map (fun sums => (.block (i + 1), { m with partial_sums := sums })))
  | .last, m =>
    (m.partial_sums[mIndexLast gid - 1]?).map (fun v => (.offset (uint gid) v, m))
  | .offset k mLastOffsetVal, m =>
    if k < G then
      (atomic_add m.offset_arr k mLastOffsetVal).map (fun offsets =>
        (.offset (k + 1) mLastOffsetVal, { m with offset_arr := offsets }))
    else some (.done, m)
  | .done, _ => none

/-- A launch on an offset array of zeros, one for each item. -/
def summing (boundaries : List Word) (G : Nat) : System (Launch prefix_pc prefix_arrays) Nat :=
  launch (prefix_turn boundaries G)
    (fun m => m.offset_arr = List.replicate G 0 ∧ 32 * G ≤ m.partial_sums.length) .start G

/-! ## What there is to count -/

/-- The positions with a zero in a part of the boundaries, position 0 apart. -/
def zeros (boundaries : List Word) (lo n : Nat) : Nat :=
  (List.range' lo n).countP (fun k => 1 ≤ k ∧ boundaries[k]? = some 0)

section zeros

variable {boundaries : List Word} {lo m n i : Nat}

theorem zeros_add (boundaries : List Word) (lo m n : Nat) :
    zeros boundaries lo (m + n) = zeros boundaries lo m + zeros boundaries (lo + m) n := by
  unfold zeros
  rw [← List.range'_append_1, List.countP_append]

theorem zeros_le (boundaries : List Word) (lo n : Nat) : zeros boundaries lo n ≤ n := by
  unfold zeros
  calc (List.range' lo n).countP _ ≤ (List.range' lo n).length := List.countP_le_length
    _ = n := List.length_range'

theorem zeros_one (boundaries : List Word) (i : Nat) :
    zeros boundaries i 1 = if 1 ≤ i ∧ boundaries[i]? = some 0 then 1 else 0 := by
  unfold zeros
  by_cases h : 1 ≤ i ∧ boundaries[i]? = some 0
  · simp [h]
  · rw [if_neg h]
    simpa [List.range'_one] using h

/-- The sum at a position, from the sum before it in its block. -/
theorem running_sum_eq (hi : i < boundaries.length) (hstart : i = 0 → lo = 0 ∧ n = 0)
    (hpos : lo + n = i) :
    running_sum boundaries i (BitVec.ofNat 32 (zeros boundaries lo n)) =
      some (BitVec.ofNat 32 (zeros boundaries lo (n + 1))) := by
  rw [zeros_add, hpos, zeros_one]
  unfold running_sum
  by_cases h0 : i = 0
  · obtain ⟨rfl, rfl⟩ := hstart h0
    rw [if_pos h0, if_neg (by omega)]
    rfl
  · rw [if_neg h0, List.getElem?_eq_getElem hi, Option.map_some, BitVec.ofNat_add,
      BitVec.add_comm]
    by_cases hzero : boundaries[i] = 0
    · rw [if_pos hzero, if_pos ⟨by omega, by rw [hzero]⟩]
      rfl
    · have hnot : ¬ (1 ≤ i ∧ some boundaries[i] = some 0) := by
        rw [Option.some.injEq]
        exact fun h => hzero h.2
      rw [if_neg hzero, if_neg hnot]
      rfl

end zeros

/-! ## The invariant -/

/-- The first `n` sums of the block of an item are there. -/
def Summed (boundaries : List Word) (gid n : Nat) (m : prefix_arrays) : Prop :=
  ∀ r < n, m.partial_sums[32 * gid + r]? =
    some (BitVec.ofNat 32 (zeros boundaries (32 * gid) (r + 1)))

/-- The sum of the block of an item. -/
def block_zeros (boundaries : List Word) (gid : Nat) : Word :=
  BitVec.ofNat 32 (zeros boundaries (32 * gid) 32)

/-- What an item knows. -/
def Knows (boundaries : List Word) (gid : Nat) : prefix_pc → prefix_arrays → Prop
  | .start, _ => True
  | .block i, m => ∃ n ≤ 32, i = 32 * gid + n ∧ Summed boundaries gid n m
  | .sum i v, m => ∃ n < 32, i = 32 * gid + n ∧
    v = BitVec.ofNat 32 (zeros boundaries (32 * gid) n) ∧ Summed boundaries gid n m
  | .last, m => Summed boundaries gid 32 m
  | .offset k v, m => gid ≤ k ∧ v = block_zeros boundaries gid ∧ Summed boundaries gid 32 m
  | .done, m => Summed boundaries gid 32 m

/-- The arrays are long enough. -/
def Rooms (G : Nat) (m : prefix_arrays) : Prop :=
  32 * G ≤ m.partial_sums.length ∧ m.offset_arr.length = G

section turns

variable {boundaries : List Word} {G gid n k : Nat} {pc pc' : prefix_pc} {m m' : prefix_arrays}
variable {s t : Launch prefix_pc prefix_arrays}

theorem mIndex_eq (hsize : 32 * G < 2 ^ 31) (hgid : gid < G) : mIndex gid = 32 * gid := by
  unfold mIndex uint
  omega

theorem mIndexLast_eq (hsize : 32 * G < 2 ^ 31) (hgid : gid < G) :
    mIndexLast gid = 32 * gid + 32 := by
  unfold mIndexLast
  rw [mIndex_eq hsize hgid]
  unfold uint
  omega

/-- What an item does in a turn, as long as it knows what it should. -/
theorem prefix_turn_spec (hsize : 32 * G < 2 ^ 31) (hlen : boundaries.length = 32 * G)
    (hgid : gid < G) (hm : Rooms G m) (hk : Knows boundaries gid pc m) (hpc : pc ≠ .done) :
    ∃ pc' m', prefix_turn boundaries G gid pc m = some (pc', m') ∧ Rooms G m' ∧
      Knows boundaries gid pc' m' ∧
      ((m'.partial_sums = m.partial_sums) ∨ ∃ n < 32,
        m'.partial_sums = m.partial_sums.set (32 * gid + n)
          (BitVec.ofNat 32 (zeros boundaries (32 * gid) (n + 1)))) ∧
      (m'.offset_arr = m.offset_arr ∨ ∃ k v, pc = .offset k v ∧
        atomic_add m.offset_arr k v = some m'.offset_arr) := by
  obtain ⟨hsums, hoffsets⟩ := hm
  have hfirst := mIndex_eq hsize hgid
  have hlast := mIndexLast_eq hsize hgid
  cases pc with
  | start =>
    exact ⟨_, _, rfl, ⟨hsums, hoffsets⟩, ⟨0, by omega, hfirst, fun r hr => by omega⟩, .inl rfl,
      .inl rfl⟩
  | block i =>
    obtain ⟨n, hn, hi, hsummed⟩ := hk
    simp only [prefix_turn]
    rw [hlast]
    split
    case isTrue hlt =>
      rw [hfirst]
      split
      case isTrue hstart =>
        obtain rfl : n = 0 := by omega
        exact ⟨_, _, rfl, ⟨hsums, hoffsets⟩, ⟨0, by omega, hi, rfl, hsummed⟩, .inl rfl, .inl rfl⟩
      case isFalse hstart =>
        have hprev := hsummed (n - 1) (by omega)
        have hplace : 32 * gid + (n - 1) = i - 1 := by omega
        have hcount : n - 1 + 1 = n := by omega
        rw [hplace, hcount] at hprev
        rw [hprev, Option.map_some]
        exact ⟨_, _, rfl, ⟨hsums, hoffsets⟩, ⟨n, by omega, hi, rfl, hsummed⟩, .inl rfl, .inl rfl⟩
    case isFalse hge =>
      obtain rfl : n = 32 := by omega
      exact ⟨_, _, rfl, ⟨hsums, hoffsets⟩, hsummed, .inl rfl, .inl rfl⟩
  | sum i v =>
    obtain ⟨n, hn, hi, hv, hsummed⟩ := hk
    simp only [prefix_turn]
    rw [hv, running_sum_eq (by omega) (by omega) hi.symm, Option.bind_some, store,
      if_pos (by omega), Option.map_some]
    refine ⟨_, _, rfl, ⟨by rw [List.length_set]; exact hsums, hoffsets⟩,
      ⟨n + 1, by omega, by omega, ?_⟩, .inr ⟨n, hn, by rw [hi]⟩, .inl rfl⟩
    intro r hr
    rw [hi]
    by_cases hrn : r = n
    · rw [hrn, List.getElem?_set_self (by omega)]
    · rw [List.getElem?_set_ne (by omega)]
      exact hsummed r (by omega)
  | last =>
    have hend := hk 31 (by omega)
    simp only [prefix_turn]
    rw [hlast]
    have hplace : 32 * gid + 32 - 1 = 32 * gid + 31 := by omega
    rw [hplace, hend, Option.map_some]
    refine ⟨_, _, rfl, ⟨hsums, hoffsets⟩, ⟨?_, rfl, hk⟩, .inl rfl, .inl rfl⟩
    rw [uint]
    omega
  | offset k v =>
    obtain ⟨hle, hv, hsummed⟩ := hk
    simp only [prefix_turn]
    split
    case isTrue hlt =>
      have hcell : m.offset_arr[k]? = some m.offset_arr[k] := List.getElem?_eq_getElem (by omega)
      rw [atomic_add, hcell, Option.map_some, Option.map_some]
      refine ⟨_, _, rfl, ⟨hsums, by rw [List.length_set]; exact hoffsets⟩,
        ⟨by omega, hv, hsummed⟩, .inl rfl, .inr ⟨k, v, rfl, ?_⟩⟩
      rw [atomic_add, hcell, Option.map_some]
    case isFalse hge =>
      exact ⟨_, _, rfl, ⟨hsums, hoffsets⟩, hsummed, .inl rfl, .inl rfl⟩
  | done => exact absurd rfl hpc

theorem Summed.keep (h : Summed boundaries gid n m) {other : Nat} (hne : gid ≠ other) {n' : Nat}
    (hn' : n' < 32) (hn : n ≤ 32) {w : Word}
    (hset : m'.partial_sums = m.partial_sums.set (32 * other + n') w) :
    Summed boundaries gid n m' := by
  intro r hr
  rw [hset, List.getElem?_set_ne (by omega)]
  exact h r hr

/-- What an item knows stays true when another item has a turn. -/
theorem Knows.keep (h : Knows boundaries gid pc m) {other : Nat} (hne : gid ≠ other)
    (hsums : m'.partial_sums = m.partial_sums ∨ ∃ n < 32,
      m'.partial_sums = m.partial_sums.set (32 * other + n)
        (BitVec.ofNat 32 (zeros boundaries (32 * other) (n + 1)))) :
    Knows boundaries gid pc m' := by
  have hkeep : ∀ n ≤ 32, Summed boundaries gid n m → Summed boundaries gid n m' := by
    intro n hn hsummed
    rcases hsums with hsame | ⟨n', hn', hset⟩
    · intro r hr
      rw [hsame]
      exact hsummed r hr
    · exact hsummed.keep hne hn' hn hset
  cases pc with
  | start => trivial
  | block i =>
    obtain ⟨n, hn, hi, hsummed⟩ := h
    exact ⟨n, hn, hi, hkeep n hn hsummed⟩
  | sum i v =>
    obtain ⟨n, hn, hi, hv, hsummed⟩ := h
    exact ⟨n, hn, hi, hv, hkeep n (by omega) hsummed⟩
  | last => exact hkeep 32 (Nat.le_refl 32) h
  | offset k v => exact ⟨h.1, h.2.1, hkeep 32 (Nat.le_refl 32) h.2.2⟩
  | done => exact hkeep 32 (Nat.le_refl 32) h

theorem prefix_turn_stable (hsize : 32 * G < 2 ^ 31) (hlen : boundaries.length = 32 * G) :
    Stable (prefix_turn boundaries G) (Rooms G) (Knows boundaries) G := by
  intro gid pc m pc' m' hgid hm hk h
  have hpc : pc ≠ .done := by
    rintro rfl
    cases h
  obtain ⟨pc'', m'', hrun, hm', hk', hsums, -⟩ := prefix_turn_spec hsize hlen hgid hm hk hpc
  rw [h, Option.some.injEq, Prod.mk.injEq] at hrun
  rw [← hrun.1] at hk'
  rw [← hrun.2] at hm' hk' hsums
  exact ⟨hm', hk', fun other _ hne hother => hother.keep hne hsums⟩

/-- What an item has added to an offset so far. -/
def given (boundaries : List Word) (k gid : Nat) : prefix_pc → Word
  | .offset next _ => if gid ≤ k ∧ k < next then block_zeros boundaries gid else 0
  | .done => if gid ≤ k then block_zeros boundaries gid else 0
  | _ => 0

/-- A turn changes an offset by what its item gives to it. -/
theorem prefix_turn_gives (hsize : 32 * G < 2 ^ 31) (hgid : gid < G) (hk : k < G)
    (hknows : Knows boundaries gid pc m)
    (h : prefix_turn boundaries G gid pc m = some (pc', m')) :
    ∃ d, given boundaries k gid pc' = given boundaries k gid pc + d ∧
      m'.offset_arr.getD k 0 = m.offset_arr.getD k 0 + d := by
  cases pc with
  | start =>
    simp only [prefix_turn, Option.some.injEq, Prod.mk.injEq] at h
    obtain ⟨rfl, rfl⟩ := h
    exact ⟨0, rfl, (add_zero _).symm⟩
  | block i =>
    simp only [prefix_turn] at h
    split at h
    · split at h
      · simp only [Option.some.injEq, Prod.mk.injEq] at h
        obtain ⟨rfl, rfl⟩ := h
        exact ⟨0, rfl, (add_zero _).symm⟩
      · simp only [Option.map_eq_some_iff, Prod.mk.injEq] at h
        obtain ⟨v, -, rfl, rfl⟩ := h
        exact ⟨0, rfl, (add_zero _).symm⟩
    · simp only [Option.some.injEq, Prod.mk.injEq] at h
      obtain ⟨rfl, rfl⟩ := h
      exact ⟨0, rfl, (add_zero _).symm⟩
  | sum i v =>
    simp only [prefix_turn, Option.bind_eq_some_iff, Option.map_eq_some_iff, Prod.mk.injEq] at h
    obtain ⟨w, -, sums, -, rfl, rfl⟩ := h
    exact ⟨0, rfl, (add_zero _).symm⟩
  | last =>
    simp only [prefix_turn, Option.map_eq_some_iff, Prod.mk.injEq] at h
    obtain ⟨v, -, rfl, rfl⟩ := h
    refine ⟨0, ?_, (add_zero _).symm⟩
    have hown : uint gid = gid := Nat.mod_eq_of_lt (by omega)
    simp only [given]
    rw [hown, if_neg (by omega), add_zero]
  | offset next v =>
    obtain ⟨hle, hv, -⟩ := hknows
    simp only [prefix_turn] at h
    split at h
    case isTrue hnext =>
      simp only [Option.map_eq_some_iff, Prod.mk.injEq] at h
      obtain ⟨offsets, hadd, rfl, rfl⟩ := h
      unfold atomic_add at hadd
      rw [Option.map_eq_some_iff] at hadd
      obtain ⟨x, hx, rfl⟩ := hadd
      obtain ⟨hlt, hget⟩ := List.getElem?_eq_some_iff.mp hx
      simp only [given]
      by_cases hkn : next = k
      · subst hkn
        refine ⟨v, ?_, ?_⟩
        · rw [if_pos (by omega), if_neg (by omega), zero_add, hv]
        · rw [List.getD_eq_getElem?_getD, List.getElem?_set_self hlt, List.getD_eq_getElem?_getD, hx,
            Option.getD_some, Option.getD_some]
      · refine ⟨0, ?_, ?_⟩
        · rw [add_zero]
          by_cases hgiven : gid ≤ k ∧ k < next
          · rw [if_pos hgiven, if_pos (by omega)]
          · rw [if_neg hgiven, if_neg (by omega)]
        · rw [List.getD_eq_getElem?_getD, List.getElem?_set_ne hkn, ← List.getD_eq_getElem?_getD,
            add_zero]
    case isFalse hend =>
      simp only [Option.some.injEq, Prod.mk.injEq] at h
      obtain ⟨rfl, rfl⟩ := h
      refine ⟨0, ?_, (add_zero _).symm⟩
      simp only [given]
      rw [add_zero]
      by_cases hgiven : gid ≤ k
      · rw [if_pos hgiven, if_pos (by omega)]
      · rw [if_neg hgiven, if_neg (by omega)]
  | done => cases h

/-- What an item has still to do, at most. -/
def left (G gid : Nat) : prefix_pc → Nat
  | .start => 3 * (mIndexLast gid - mIndex gid) + G + 4
  | .block i => 3 * (mIndexLast gid - i) + G + 3
  | .sum i _ => 3 * (mIndexLast gid - (i + 1)) + G + 4
  | .last => G + 2
  | .offset k _ => G - k + 1
  | .done => 0

theorem left_lt (h : prefix_turn boundaries G gid pc m = some (pc', m')) :
    left G gid pc' < left G gid pc := by
  cases pc with
  | start =>
    simp only [prefix_turn, Option.some.injEq, Prod.mk.injEq] at h
    rw [← h.1, left, left]
    omega
  | block i =>
    simp only [prefix_turn] at h
    split at h
    · split at h
      · simp only [Option.some.injEq, Prod.mk.injEq] at h
        rw [← h.1, left, left]
        omega
      · simp only [Option.map_eq_some_iff, Prod.mk.injEq] at h
        obtain ⟨v, -, hpc, -⟩ := h
        rw [← hpc, left, left]
        omega
    · simp only [Option.some.injEq, Prod.mk.injEq] at h
      rw [← h.1, left, left]
      omega
  | sum i v =>
    simp only [prefix_turn, Option.bind_eq_some_iff, Option.map_eq_some_iff, Prod.mk.injEq] at h
    obtain ⟨w, -, sums, -, hpc, -⟩ := h
    rw [← hpc, left, left]
    omega
  | last =>
    simp only [prefix_turn, Option.map_eq_some_iff, Prod.mk.injEq] at h
    obtain ⟨v, -, hpc, -⟩ := h
    rw [← hpc, left, left]
    omega
  | offset k v =>
    simp only [prefix_turn] at h
    split at h
    · simp only [Option.map_eq_some_iff, Prod.mk.injEq] at h
      obtain ⟨offsets, -, hpc, -⟩ := h
      rw [← hpc, left, left]
      omega
    · simp only [Option.some.injEq, Prod.mk.injEq] at h
      rw [← h.1, left, left]
      omega
  | done => cases h

/-! ## The law -/

theorem summing_start (m : prefix_arrays)
    (h : m.offset_arr = List.replicate G 0 ∧ 32 * G ≤ m.partial_sums.length) : Rooms G m :=
  ⟨h.2, by rw [h.1, List.length_replicate]⟩

theorem summing_holds (hsize : 32 * G < 2 ^ 31) (hlen : boundaries.length = 32 * G)
    (h : (summing boundaries G).Reachable s) : Holds (Rooms G) (Knows boundaries) G s := by
  unfold summing at h
  refine holds_of_reachable (prefix_turn_stable hsize hlen) summing_start ?_ h
  intro m gid _ _
  trivial

/-- An offset is what the items have given to it so far. -/
theorem offset_total (hsize : 32 * G < 2 ^ 31) (hlen : boundaries.length = 32 * G) (hk : k < G)
    (h : (summing boundaries G).Reachable s) :
    s.memory.offset_arr.getD k 0 = total (given boundaries k) s.items := by
  unfold summing at h
  refine total_of_reachable (prefix_turn_stable hsize hlen) summing_start ?_
    (fun m => m.offset_arr.getD k 0) (given boundaries k) ?_ ?_ h
  · intro m gid _ _
    trivial
  · intro m hm
    have hnone : (List.replicate G prefix_pc.start).mapIdx (given boundaries k) =
        List.replicate G 0 := by
      apply List.ext_getElem?
      intro i
      rw [List.getElem?_mapIdx, List.getElem?_replicate, List.getElem?_replicate]
      split <;> rfl
    rw [total, hnone, hm.1, List.sum_replicate, nsmul_zero, List.getD_eq_getElem?_getD,
      List.getElem?_replicate, if_pos hk]
    rfl
  · intro gid pc m pc' m' hgid hknows _ hturn
    exact prefix_turn_gives hsize hgid hk hknows hturn

/-- What all items give to an offset: the zeros of all blocks up to it. -/
theorem blocks_total (boundaries : List Word) (k n : Nat) :
    ((List.range n).map (fun gid => if gid ≤ k then block_zeros boundaries gid else 0)).sum =
      BitVec.ofNat 32 (zeros boundaries 0 (32 * min n (k + 1))) := by
  induction n with
  | zero => simp [zeros]
  | succ n ih =>
    rw [List.range_succ, List.map_append, List.sum_append, ih, List.map_singleton,
      List.sum_singleton]
    by_cases hn : n ≤ k
    · have hmin : 32 * min (n + 1) (k + 1) = 32 * min n (k + 1) + 32 := by omega
      have hlo : 0 + 32 * min n (k + 1) = 32 * n := by omega
      rw [if_pos hn, hmin, zeros_add, BitVec.ofNat_add, hlo, block_zeros]
    · have hmin : min (n + 1) (k + 1) = min n (k + 1) := by omega
      rw [if_neg hn, hmin, add_zero]

/-- When all items are done, an offset has the zeros of all blocks up to it. -/
theorem offset_at_the_end (hsize : 32 * G < 2 ^ 31) (hlen : boundaries.length = 32 * G) (hk : k < G)
    (h : (summing boundaries G).Reachable s) (hdone : ∀ pc ∈ s.items, pc = .done) :
    s.memory.offset_arr[k]? = some (BitVec.ofNat 32 (zeros boundaries 0 (32 * (k + 1)))) := by
  obtain ⟨hrooms, hitems, -⟩ := summing_holds hsize hlen h
  have hgiven : s.items.mapIdx (given boundaries k) =
      (List.range G).map (fun gid => if gid ≤ k then block_zeros boundaries gid else 0) := by
    rw [List.eq_replicate_of_mem hdone, hitems]
    apply List.ext_getElem?
    intro i
    rw [List.getElem?_mapIdx, List.getElem?_map, List.getElem?_replicate]
    by_cases hi : i < G
    · rw [if_pos hi, List.getElem?_range hi]
      rfl
    · rw [if_neg hi, List.getElem?_eq_none (by simpa using hi)]
      rfl
  have hall := offset_total hsize hlen hk h
  have hmin : min G (k + 1) = k + 1 := by omega
  rw [total, hgiven, blocks_total, hmin] at hall
  rw [← hall, List.getD_eq_getElem?_getD, List.getElem?_eq_getElem (by rw [hrooms.2]; exact hk)]
  rfl

/-- The zeros of the blocks before, and the zeros of the block so far. -/
theorem sums_count (hsize : 32 * G < 2 ^ 31) {g r : Nat} (hg : g < G) (hr : r < 32) :
    (BitVec.ofNat 32 (zeros boundaries (32 * g) (r + 1)) +
        BitVec.ofNat 32 (zeros boundaries 0 (32 * g))).toInt =
      (List.range (32 * g + r + 1)).countP (fun k => 1 ≤ k ∧ boundaries[k]? = some 0) := by
  have hsum : zeros boundaries (32 * g) (r + 1) + zeros boundaries 0 (32 * g) =
      (List.range (32 * g + r + 1)).countP (fun k => 1 ≤ k ∧ boundaries[k]? = some 0) := by
    have hsplit := zeros_add boundaries 0 (32 * g) (r + 1)
    rw [Nat.zero_add, ← Nat.add_assoc] at hsplit
    rw [Nat.add_comm, ← hsplit, zeros, List.range_eq_range']
  have hle := zeros_le boundaries (32 * g) (r + 1)
  have hle' := zeros_le boundaries 0 (32 * g)
  rw [← BitVec.ofNat_add, hsum, BitVec.toInt_ofNat']
  exact int_of_size_eq (by omega)

/-- However the items are interleaved, the launch comes to an end after at most so many turns, and
then each sum of a block and the offset before its block together count the zeros up to its
position. -/
theorem the_two_level_prefix_sum_counts_the_zeros (hsize : 32 * G < 2 ^ 31)
    (hlen : boundaries.length = 32 * G) (h : (summing boundaries G).Reachable s) :
    (∃ n, ∀ gids t, (summing boundaries G).exec s gids = some t → gids.length ≤ n) ∧
    (∃ t, (summing boundaries G).Run (fun _ _ => True) s t ∧ ∀ pc ∈ t.items, pc = .done) ∧
    ((∀ pc ∈ s.items, pc = .done) → ∀ g < G, ∀ r < 32, ∃ w o,
      s.memory.partial_sums[32 * g + r]? = some w ∧
      (if 0 < g then s.memory.offset_arr[g - 1]? else some 0) = some o ∧
      (w + o).toInt =
        (List.range (32 * g + r + 1)).countP (fun k => 1 ≤ k ∧ boundaries[k]? = some 0)) := by
  have hholds := summing_holds hsize hlen h
  refine ⟨⟨total (left G) s.items, ?_⟩, ?_, ?_⟩
  · intro gids t hrun
    have hle := steps_le (left G) (fun _ _ _ _ _ hturn => left_lt hturn) hrun
    omega
  · refine finishes (prefix_turn_stable hsize hlen) (left G)
      (fun _ _ _ _ _ hturn => left_lt hturn) (fun pc => pc = .done) ?_ hholds
    intro gid pc m hgid hm hk hpc
    obtain ⟨pc', m', hturn, -⟩ := prefix_turn_spec hsize hlen hgid hm hk hpc
    exact ⟨_, hturn⟩
  · intro hdone g hg r hr
    obtain ⟨-, hitems, hknows⟩ := hholds
    have hpc : s.items[g]? = some .done := by
      rw [List.eq_replicate_of_mem hdone, hitems, List.getElem?_replicate, if_pos hg]
    have hsum := hknows g .done hpc r hr
    refine ⟨_, BitVec.ofNat 32 (zeros boundaries 0 (32 * g)), hsum, ?_, sums_count hsize hg hr⟩
    by_cases hpos : 0 < g
    · have hprev : g - 1 + 1 = g := by omega
      have hoffset := offset_at_the_end hsize hlen (k := g - 1) (by omega) h hdone
      rw [if_pos hpos, hoffset, hprev]
    · obtain rfl : g = 0 := by omega
      rfl

end turns

/-- Two blocks of zeros: some run ends, and its sums count the positions from 1 on. -/
theorem two_blocks_of_zeros_are_counted :
    ∃ t, (summing (List.replicate (32 * 2) 0) 2).Reachable t ∧ (∀ pc ∈ t.items, pc = .done) ∧
      ∀ g < 2, ∀ r < 32, ∃ w o : Word, t.memory.partial_sums[32 * g + r]? = some w ∧
        (if 0 < g then t.memory.offset_arr[g - 1]? else some 0) = some o ∧
        (w + o).toInt = (List.range (32 * g + r + 1)).countP
          (fun k => 1 ≤ k ∧ (List.replicate (32 * 2) (0 : Word))[k]? = some 0) := by
  have hsize : 32 * 2 < 2 ^ 31 := by omega
  have hinit : (summing (List.replicate (32 * 2) 0) 2).init
      ⟨⟨List.replicate 64 5, List.replicate 2 0⟩, List.replicate 2 .start⟩ := by
    refine ⟨⟨rfl, ?_⟩, rfl⟩
    rw [List.length_replicate]
  obtain ⟨t, hrun, hdone⟩ := (the_two_level_prefix_sum_counts_the_zeros hsize
    List.length_replicate ⟨_, hinit, .refl⟩).2.1
  have hreach : (summing (List.replicate (32 * 2) 0) 2).Reachable t := ⟨_, hinit, hrun⟩
  exact ⟨t, hreach, hdone, (the_two_level_prefix_sum_counts_the_zeros hsize
    List.length_replicate hreach).2.2 hdone⟩

end hero.kernels
