-- The laws of `hashBuild`: what any launch leaves in the table, and when a launch keeps every row
-- that it reads, whatever the order of its work items.
import HeroDB.Lib.LinearProbing
import HeroDB.Lib.Loops
import HeroDB.HashKernels

namespace hero.kernels

open linear_probing loops

/-! ## One slot and one row -/

/-- The slot of a row in the slice of its work item. -/
def home (inputArrSize : Nat) (x : Word) : Nat := x.toNat % (inputArrSize / 96)

/-- A slot that `hashBuild` takes for free. -/
def free (x : Word) : Prop := x.toNat = 0

instance : DecidablePred free := fun x => inferInstanceAs (Decidable (x.toNat = 0))

section slot

variable {x : Word} {input result result' : List Word} {inputArrSize gid i n hf s : Nat}

theorem uint_small (h : n < 2 ^ 32) : uint n = n := Nat.mod_eq_of_lt h

/-- The loop over `j` leaves the table as it is, or sets a slot from `hf` on. -/
theorem build_slot_sets (hsmall : hf + n ≤ 2 ^ 32)
    (h : build_slot x n hf result = some result') :
    result' = result ∨ ∃ s, hf ≤ s ∧ result' = result.set s x := by
  induction n generalizing hf with
  | zero =>
    rw [build_slot, Option.some.injEq] at h
    exact .inl h.symm
  | succ n ih =>
    rw [build_slot, Option.bind_eq_some_iff] at h
    obtain ⟨r, -, hr⟩ := h
    split at hr
    · cases n with
      | zero =>
        rw [build_slot, Option.some.injEq] at hr
        exact .inl hr.symm
      | succ n =>
        rw [uint_small (by omega)] at hr
        rcases ih (by omega) hr with hsame | ⟨s, hs, hset⟩
        · exact .inl hsame
        · exact .inr ⟨s, by omega, hset⟩
    · unfold store at hr
      split at hr
      · rw [Option.some.injEq] at hr
        exact .inr ⟨hf, Nat.le_refl hf, hr.symm⟩
      · cases hr

/-- The first slot that the loop over `j` tries: it is free and gets the word, or it stays. -/
theorem build_slot_first (hn : 0 < n) (hsmall : hf + n ≤ 2 ^ 32)
    (h : build_slot x n hf result = some result') :
    ∃ r, result[hf]? = some r ∧
      result'[hf]? = some (if free r then x else r) := by
  cases n with
  | zero => omega
  | succ n =>
    rw [build_slot, Option.bind_eq_some_iff] at h
    obtain ⟨r, hget, hr⟩ := h
    refine ⟨r, hget, ?_⟩
    split at hr
    case isTrue hpos =>
      rw [if_neg (by unfold free; omega)]
      cases n with
      | zero =>
        rw [build_slot, Option.some.injEq] at hr
        rw [← hr, hget]
      | succ n =>
        rw [uint_small (by omega)] at hr
        rcases build_slot_sets (by omega) hr with rfl | ⟨s, hs, rfl⟩
        · exact hget
        · rw [List.getElem?_set_ne (by omega), hget]
    case isFalse hzero =>
      rw [if_pos (by unfold free; omega)]
      unfold store at hr
      split at hr
      case isTrue hlt =>
        rw [Option.some.injEq] at hr
        rw [← hr, List.getElem?_set_self hlt]
      case isFalse => cases hr

/-- The loop over `j` takes the first free slot, if that is one of its `n` slots. -/
theorem build_slot_takes (hs : hf ≤ s) (hn : s - hf < n) (hsmall : s < 2 ^ 32)
    (hfull : Full free result hf s) {y : Word} (hy : result[s]? = some y) (hfree : free y) :
    build_slot x n hf result = some (result.set s x) := by
  induction n generalizing hf with
  | zero => omega
  | succ n ih =>
    rw [build_slot]
    rcases Nat.eq_or_lt_of_le hs with rfl | hlt
    · have hlen := (List.getElem?_eq_some_iff.mp hy).1
      have hzero : ¬ 0 < y.toNat := by
        unfold free at hfree
        omega
      rw [hy, Option.bind_some, if_neg hzero, store, if_pos hlen]
    · obtain ⟨r, hr, hpos⟩ := hfull hf (Nat.le_refl hf) hlt
      have htaken : 0 < r.toNat := Nat.pos_of_ne_zero hpos
      rw [hr, Option.bind_some, if_pos htaken, uint_small (by omega)]
      apply ih (by omega) (by omega)
      exact fun t h1 h2 => hfull t (by omega) h2

end slot

/-! ## Any launch -/

section launch

variable {input result T : List Word} {inputArrSize N : Nat} {order : List Nat}

/-- The work item reads its slice of the input. -/
theorem hashBuild_reads {gid : Nat} (h : hashBuild input inputArrSize result gid = some T) {i : Nat}
    (hi : i < inputArrSize / 96) : inpOffset inputArrSize gid + i < input.length := by
  obtain ⟨s1, s2, hrow⟩ := every_turn h (List.mem_range.mpr hi)
  unfold build_row at hrow
  rw [Option.bind_eq_some_iff] at hrow
  obtain ⟨x, hx, -⟩ := hrow
  exact (List.getElem?_eq_some_iff.mp hx).1

/-- The slices of the work items end where the last one does. -/
theorem slot_lt {gid i : Nat} (hgid : gid < N) (hi : i < inputArrSize / 96) :
    inpOffset inputArrSize gid + i < inputArrSize / 96 * N := by
  unfold inpOffset
  have hle : inputArrSize / 96 * (gid + 1) ≤ inputArrSize / 96 * N :=
    Nat.mul_le_mul_left _ hgid
  rw [Nat.mul_succ] at hle
  omega

theorem home_lt (inputArrSize : Nat) (x : Word) (h : 0 < inputArrSize / 96) :
    home inputArrSize x < inputArrSize / 96 := Nat.mod_lt _ h

/-- A turn of the loop over `i`, when no slot number wraps. -/
theorem build_row_eq {gid i : Nat} {x : Word} (hsmall : inputArrSize / 96 * N < 2 ^ 32)
    (hgid : gid < N) (hi : i < inputArrSize / 96)
    (hx : input[inpOffset inputArrSize gid + i]? = some x) :
    build_row input inputArrSize gid result i =
      build_slot x (inputArrSize / 96) (inpOffset inputArrSize gid + home inputArrSize x)
        result := by
  have hlt := slot_lt hgid (home_lt inputArrSize x (by omega))
  unfold build_row
  rw [hx, Option.bind_some, Nat.add_comm (x.toNat % _)]
  unfold home at hlt ⊢
  rw [uint_small (by omega)]

/-- What a turn of the loop over `i` does. -/
theorem build_row_cases {gid i : Nat} (hsmall : inputArrSize / 96 * N < 2 ^ 31)
    (hgid : gid < N) (hi : i < inputArrSize / 96)
    (h : build_row input inputArrSize gid result i = some T) :
    ∃ x, input[inpOffset inputArrSize gid + i]? = some x ∧
      (T = result ∨ ∃ s, inpOffset inputArrSize gid + home inputArrSize x ≤ s ∧
        T = result.set s x) ∧
      ∃ r, result[inpOffset inputArrSize gid + home inputArrSize x]? = some r ∧
        T[inpOffset inputArrSize gid + home inputArrSize x]? = some (if free r then x else r) := by
  have hrow := h
  unfold build_row at hrow
  rw [Option.bind_eq_some_iff] at hrow
  obtain ⟨x, hx, -⟩ := hrow
  rw [build_row_eq (by omega) hgid hi hx] at h
  have hlt := slot_lt hgid (home_lt inputArrSize x (by omega))
  have hle : inputArrSize / 96 ≤ inputArrSize / 96 * N := Nat.le_mul_of_pos_right _ (by omega)
  exact ⟨x, hx, build_slot_sets (by omega) h, build_slot_first (by omega) (by omega) h⟩

/-- A slot has what it had before the launch, or one of the rows that the work items read. -/
def Drawn (input result : List Word) (rows : Nat) (T : List Word) : Prop :=
  ∀ t : Nat, T[t]? = result[t]? ∨ ∃ k < rows, ∃ x, input[k]? = some x ∧ T[t]? = some x

theorem Drawn.set {rows k : Nat} {x : Word} (h : Drawn input result rows T) (hk : k < rows)
    (hx : input[k]? = some x) (s : Nat) : Drawn input result rows (T.set s x) := by
  intro t
  rw [List.getElem?_set]
  split
  case isTrue hst =>
    subst hst
    split
    case isTrue => exact .inr ⟨k, hk, x, hx, rfl⟩
    case isFalse hlt =>
      have hnone : T[s]? = none := List.getElem?_eq_none (by omega)
      rw [← hnone]
      exact h s
  case isFalse => exact h t

/-- Whatever the order, a launch puts nothing but rows into the table. -/
theorem launch_drawn (hsmall : inputArrSize / 96 * N < 2 ^ 31) (horder : ∀ gid ∈ order, gid < N)
    (h : order.foldlM (hashBuild input inputArrSize) result = some T) :
    Drawn input result (inputArrSize / 96 * N) T := by
  refine keeps (fun _ T => Drawn input result (inputArrSize / 96 * N) T) ?_ h
    (fun t => .inl rfl)
  intro pre gid post T1 T2 hl hdrawn hitem
  have hgid : gid < N := horder gid (by simp [hl])
  refine keeps (fun _ T => Drawn input result (inputArrSize / 96 * N) T) ?_ hitem hdrawn
  intro _ i _ T3 T4 hrange hdrawn' hrow
  obtain ⟨-, hi⟩ := range_split hrange
  obtain ⟨x, hx, rfl | ⟨s, -, rfl⟩, -⟩ := build_row_cases hsmall hgid hi hrow
  · exact hdrawn'
  · exact hdrawn'.set (slot_lt hgid hi) hx s

/-! ## The first slot -/

/-- The row that the first slot gets: the first row of work item 0 with its home there. -/
def first_row (input : List Word) (inputArrSize n : Nat) : Word :=
  ((input.take n).find? (fun x => home inputArrSize x = 0)).getD 0

theorem first_row_succ (inputArrSize : Nat) {n : Nat} {x : Word} (hx : input[n]? = some x)
    (hpos : ∀ y ∈ input.take n, ¬ free y) :
    first_row input inputArrSize (n + 1) =
      if free (first_row input inputArrSize n) ∧ home inputArrSize x = 0 then x
      else first_row input inputArrSize n := by
  unfold first_row
  rw [List.take_add_one, hx, Option.toList_some, List.find?_append]
  cases hfind : (input.take n).find? (fun x => home inputArrSize x = 0) with
  | some y =>
    have hy := hpos y (List.mem_of_find?_eq_some hfind)
    simp [hy]
  | none =>
    by_cases hhome : home inputArrSize x = 0
    · simp [hhome, free]
    · simp [hhome]

/-- Work item 0, row by row, at the first slot. -/
theorem item_first (hsmall : inputArrSize / 96 * N < 2 ^ 31) (hN : 0 < N)
    (hpos : ∀ y ∈ input.take (inputArrSize / 96), ¬ free y) (hzero : result[0]? = some 0)
    (h : hashBuild input inputArrSize result 0 = some T) :
    T[0]? = some (first_row input inputArrSize (inputArrSize / 96)) := by
  have hrun := keeps
    (fun pre T => T[0]? = some (first_row input inputArrSize pre.length)) (by
      intro pre i post T1 T2 hrange hfirst hrow
      obtain ⟨rfl, hi⟩ := range_split hrange
      rw [List.length_range] at hfirst
      obtain ⟨x, hx, hset, r, hr, hr'⟩ := build_row_cases hsmall hN hi hrow
      have hoff : inpOffset inputArrSize 0 = 0 := Nat.mul_zero _
      rw [hoff, Nat.zero_add] at hx hset hr hr'
      have hstep := first_row_succ inputArrSize hx
        (fun y hy => hpos y (List.take_subset_take_left _ (Nat.le_of_lt hi) hy))
      simp only [List.length_append, List.length_range, List.length_cons, List.length_nil]
      rw [hstep]
      by_cases hhome : home inputArrSize x = 0
      · rw [hhome] at hr hr'
        rw [hfirst, Option.some.injEq] at hr
        rw [hr', hr]
        simp [hhome]
      · rw [if_neg (fun hand => hhome hand.2), ← hfirst]
        rcases hset with rfl | ⟨s, hs, rfl⟩
        · rfl
        · exact List.getElem?_set_ne (by omega)) h
    (by simpa [first_row] using hzero)
  simpa using hrun

/-- The other work items do not reach the first slot. -/
theorem item_others {gid : Nat} (hsmall : inputArrSize / 96 * N < 2 ^ 31) (hgid : gid < N)
    (hne : gid ≠ 0) (h : hashBuild input inputArrSize result gid = some T) :
    T[0]? = result[0]? := by
  refine keeps (fun _ T => T[0]? = result[0]?) ?_ h rfl
  intro _ i _ T1 T2 hrange hsame hrow
  obtain ⟨-, hi⟩ := range_split hrange
  obtain ⟨x, -, rfl | ⟨s, hs, rfl⟩, -⟩ := build_row_cases hsmall hgid hi hrow
  · exact hsame
  · have hoff : 0 < inpOffset inputArrSize gid :=
      Nat.mul_pos (by omega) (Nat.pos_of_ne_zero hne)
    rw [List.getElem?_set_ne (by omega), hsame]

/-- Whatever the order, the first slot gets the same row. -/
theorem launch_first (hsmall : inputArrSize / 96 * N < 2 ^ 31)
    (horder : order.Perm (List.range N)) (hN : N = 0 → inputArrSize / 96 = 0)
    (hpos : ∀ y ∈ input.take (inputArrSize / 96), ¬ free y) (hzero : result[0]? = some 0)
    (h : order.foldlM (hashBuild input inputArrSize) result = some T) :
    T[0]? = some (first_row input inputArrSize (inputArrSize / 96)) := by
  have hnodup : order.Nodup := horder.nodup_iff.mpr List.nodup_range
  have hrun := keeps (fun pre T => T[0]? =
      some (if 0 ∈ pre then first_row input inputArrSize (inputArrSize / 96) else 0)) (by
    intro pre gid post T1 T2 hl hfirst hitem
    have hgid : gid < N := List.mem_range.mp (horder.mem_iff.mp (by simp [hl]))
    by_cases h0 : gid = 0
    · subst h0
      have hnot : 0 ∉ pre := not_before hnodup hl
      rw [if_neg hnot] at hfirst
      rw [item_first hsmall hgid hpos hfirst hitem, if_pos (by simp)]
    · rw [item_others hsmall hgid h0 hitem, hfirst]
      simp [Ne.symm h0]) h (by simpa using hzero)
  rw [hrun]
  by_cases hmem : 0 ∈ order
  · rw [if_pos hmem]
  · have hnone : N = 0 := by
      rw [horder.mem_iff, List.mem_range] at hmem
      omega
    rw [if_neg hmem, hN hnone]
    rfl

end launch

/-! ## A launch that keeps every row -/

/-- The cells of an interval of the table. -/
def slice (T : List Word) (lo room : Nat) : List Word := (T.drop lo).take room

/-- The rows that a work item reads. -/
def item_rows (input : List Word) (inputArrSize gid : Nat) : List Word :=
  slice input (inpOffset inputArrSize gid) (inputArrSize / 96)

/-- The cells that a work item can use for itself: those before the slice of the next item, and up
to the end of the table for the last item. -/
def room (inputArrSize N gid : Nat) : Nat :=
  if gid + 1 < N then inputArrSize / 96 else inputArrSize - inpOffset inputArrSize gid

/-- No work item has more rows for an end of its cells than there are cells in it. -/
def SlicesFit (input : List Word) (inputArrSize N : Nat) : Prop :=
  ∀ gid < N, ∀ u < inputArrSize / 96,
    behind (home inputArrSize) u (item_rows input inputArrSize gid) + u ≤ room inputArrSize N gid

section slices

variable {input result T : List Word} {inputArrSize N lo n s t : Nat} {x : Word}

theorem slice_getElem? : (slice T lo n)[t]? = if t < n then T[lo + t]? else none := by
  unfold slice
  rw [List.getElem?_take, List.getElem?_drop]

theorem slice_length (T : List Word) (lo n : Nat) (h : lo + n ≤ T.length) :
    (slice T lo n).length = n := by
  unfold slice
  rw [List.length_take, List.length_drop]
  omega

theorem slice_set (T : List Word) (lo n s : Nat) (x : Word) :
    slice (T.set (lo + s) x) lo n = (slice T lo n).set s x := by
  unfold slice
  rw [List.drop_set, if_neg (by omega), Nat.add_sub_cancel_left, List.take_set]

theorem slice_congr (h : ∀ t < n, T[lo + t]? = result[lo + t]?) :
    slice T lo n = slice result lo n := by
  apply List.ext_getElem?
  intro t
  rw [slice_getElem?, slice_getElem?]
  split
  case isTrue hlt => exact h t hlt
  case isFalse => rfl

/-- The cells of two work items are apart. -/
theorem rooms_apart (inputArrSize : Nat) {gid gid' : Nat} (hN : gid' < N) (hlt : gid < gid') :
    inpOffset inputArrSize gid + room inputArrSize N gid ≤ inpOffset inputArrSize gid' := by
  unfold room inpOffset
  rw [if_pos (by omega), ← Nat.mul_succ]
  exact Nat.mul_le_mul_left _ hlt

/-- The cells of a work item are in the table. -/
theorem room_le {gid : Nat} (hin : inputArrSize / 96 * N ≤ inputArrSize) (hgid : gid < N) :
    inpOffset inputArrSize gid + room inputArrSize N gid ≤ inputArrSize := by
  have hle : inputArrSize / 96 * (gid + 1) ≤ inputArrSize / 96 * N := Nat.mul_le_mul_left _ hgid
  rw [Nat.mul_succ] at hle
  unfold room inpOffset
  split
  · omega
  · omega

/-- A work item whose cells are free puts all its rows into them, and nothing into others. -/
theorem item_keeps (hin : inputArrSize / 96 * N ≤ inputArrSize) (hsize : inputArrSize < 2 ^ 32)
    (hinput : inputArrSize ≤ input.length)
    (hpos : ∀ k < inputArrSize, ∀ x, input[k]? = some x → ¬ free x)
    (hfits : SlicesFit input inputArrSize N) {gid : Nat} (hgid : gid < N)
    (hlen : inputArrSize ≤ result.length)
    (hfree : Probed free (home inputArrSize)
      (slice result (inpOffset inputArrSize gid) (room inputArrSize N gid)) []) :
    ∃ T, hashBuild input inputArrSize result gid = some T ∧ T.length = result.length ∧
      Probed free (home inputArrSize)
        (slice T (inpOffset inputArrSize gid) (room inputArrSize N gid))
        (item_rows input inputArrSize gid) ∧
      ∀ t, t < inpOffset inputArrSize gid ∨
          inpOffset inputArrSize gid + room inputArrSize N gid ≤ t → T[t]? = result[t]? := by
  have hroom := room_le hin hgid
  obtain ⟨T, hrun, hlen', hprobed, hframe⟩ := goes_well (List.range (inputArrSize / 96))
    (build_row input inputArrSize gid) result
    (fun pre T => T.length = result.length ∧
      Probed free (home inputArrSize)
        (slice T (inpOffset inputArrSize gid) (room inputArrSize N gid))
        ((item_rows input inputArrSize gid).take pre.length) ∧
      ∀ t, t < inpOffset inputArrSize gid ∨
          inpOffset inputArrSize gid + room inputArrSize N gid ≤ t → T[t]? = result[t]?) (by
      rintro pre i post T1 hrange ⟨hlen1, hprobed, hframe⟩
      obtain ⟨rfl, hi⟩ := range_split hrange
      rw [List.length_range] at hprobed
      have hread := slot_lt hgid hi
      obtain ⟨x, hx⟩ : ∃ x, input[inpOffset inputArrSize gid + i]? = some x :=
        ⟨_, List.getElem?_eq_getElem (by omega)⟩
      have hrow : (item_rows input inputArrSize gid)[i]? = some x := by
        rw [item_rows, slice_getElem?, if_pos hi, hx]
      have hnext : (item_rows input inputArrSize gid).take (i + 1) =
          (item_rows input inputArrSize gid).take i ++ [x] := by
        rw [List.take_add_one, hrow, Option.toList_some]
      have hxpos := hpos _ (by omega) x hx
      have hhome := home_lt inputArrSize x (by omega)
      have hcells := slice_length T1 (inpOffset inputArrSize gid)
        (room inputArrSize N gid) (by omega)
      -- The rows so far and this one fit, since all rows of the item do.
      obtain ⟨s, y, hs, hslt, hsteps, hfull, hy, hyfree, hprobed'⟩ := hprobed.place hxpos (by
        intro u hu
        have hall := hfits gid hgid u (by omega)
        have hpart : behind (home inputArrSize) u
              ((item_rows input inputArrSize gid).take i ++ [x]) ≤
            behind (home inputArrSize) u (item_rows input inputArrSize gid) := by
          rw [← hnext]
          exact (List.take_sublist _ _).countP_le
        omega)
      have hbefore : ((item_rows input inputArrSize gid).take i).length ≤ i :=
        List.length_take_le _ _
      have hcell : ∀ {t z}, (slice T1 (inpOffset inputArrSize gid)
          (room inputArrSize N gid))[t]? = some z → T1[inpOffset inputArrSize gid + t]? = some z := by
        intro t z hz
        rw [slice_getElem?] at hz
        split at hz
        · exact hz
        · cases hz
      refine ⟨T1.set (inpOffset inputArrSize gid + s) x, ?_, ?_, ?_, ?_⟩
      · rw [build_row_eq (by omega) hgid hi hx]
        apply build_slot_takes (y := y) (by omega) (by omega) (by omega) ?_ (hcell hy) hyfree
        intro t h1 h2
        obtain ⟨z, hz, hzpos⟩ := hfull (t - inpOffset inputArrSize gid) (by omega) (by omega)
        refine ⟨z, ?_, hzpos⟩
        have hz' := hcell hz
        rwa [Nat.add_sub_cancel' (by omega)] at hz'
      · rw [List.length_set, hlen1]
      · rw [slice_set, List.length_append, List.length_range, List.length_singleton, hnext]
        exact hprobed'
      · intro t ht
        rw [List.getElem?_set_ne (by omega)]
        exact hframe t ht)
    ⟨rfl, by simpa using hfree, fun t _ => rfl⟩
  refine ⟨T, hrun, hlen', ?_, hframe⟩
  have hall : (item_rows input inputArrSize gid).take (List.range (inputArrSize / 96)).length =
      item_rows input inputArrSize gid := by
    apply List.take_of_length_le
    rw [List.length_range]
    exact List.length_take_le _ _
  rwa [hall] at hprobed

/-- When the slices fit, work items that are launched once each, in any order, put their rows into
their own cells and leave the cells of the other items free. -/
theorem items_keep (input result : List Word) {order : List Nat}
    (hin : inputArrSize / 96 * N ≤ inputArrSize)
    (hsize : inputArrSize < 2 ^ 32) (hinput : inputArrSize ≤ input.length)
    (hpos : ∀ k < inputArrSize, ∀ x, input[k]? = some x → ¬ free x)
    (hfits : SlicesFit input inputArrSize N) (hnodup : order.Nodup) (horder : ∀ gid ∈ order, gid < N)
    (hlen : inputArrSize ≤ result.length) (hzeros : ∀ t < inputArrSize, result[t]? = some 0) :
    ∃ T, order.foldlM (hashBuild input inputArrSize) result = some T ∧ T.length = result.length ∧
      (∀ t, inputArrSize ≤ t → T[t]? = result[t]?) ∧
      ∀ gid < N, Probed free (home inputArrSize)
        (slice T (inpOffset inputArrSize gid) (room inputArrSize N gid))
        (if gid ∈ order then item_rows input inputArrSize gid else []) := by
  refine goes_well order (hashBuild input inputArrSize) result
    (fun pre T => T.length = result.length ∧ (∀ t, inputArrSize ≤ t → T[t]? = result[t]?) ∧
      ∀ gid < N, Probed free (home inputArrSize)
        (slice T (inpOffset inputArrSize gid) (room inputArrSize N gid))
        (if gid ∈ pre then item_rows input inputArrSize gid else [])) ?_ ?_
  · rintro pre gid post T1 hl ⟨hlen1, hbeyond, hprobed⟩
    have hgid : gid < N := horder gid (by simp [hl])
    have hnot : gid ∉ pre := not_before hnodup hl
    have hfree := hprobed gid hgid
    rw [if_neg hnot] at hfree
    obtain ⟨T2, hitem, hlen2, hprobed2, hframe⟩ :=
      item_keeps hin hsize hinput hpos hfits hgid (by omega) hfree
    have hroom := room_le hin hgid
    refine ⟨T2, hitem, by omega, ?_, ?_⟩
    · intro t ht
      rw [hframe t (.inr (by omega)), hbeyond t ht]
    · intro gid' hgid'
      rcases Nat.lt_trichotomy gid' gid with hlt | rfl | hgt
      · have hapart := rooms_apart inputArrSize hgid hlt
        rw [slice_congr (fun t ht => hframe _ (.inl (by omega)))]
        simpa [Nat.ne_of_lt hlt] using hprobed gid' hgid'
      · simpa using hprobed2
      · have hapart := rooms_apart inputArrSize hgid' hgt
        rw [slice_congr (fun t ht => hframe _ (.inr (by omega)))]
        simpa [Nat.ne_of_gt hgt] using hprobed gid' hgid'
  · refine ⟨rfl, fun t _ => rfl, fun gid hgid => ?_⟩
    apply Probed.empty
    intro y hy
    obtain ⟨t, ht⟩ := List.mem_iff_getElem?.mp hy
    have hroom := room_le hin hgid
    rw [slice_getElem?] at ht
    split at ht
    · rw [hzeros _ (by omega), Option.some.injEq] at ht
      rw [← ht]
      rfl
    · cases ht

/-- When the slices fit, a launch puts every row of its slices into the table, in any order of the
work items, and stays in the table. -/
theorem launch_keeps (input result : List Word) {order : List Nat}
    (hin : inputArrSize / 96 * N ≤ inputArrSize)
    (hsize : inputArrSize < 2 ^ 32) (hinput : inputArrSize ≤ input.length)
    (hpos : ∀ k < inputArrSize, ∀ x, input[k]? = some x → ¬ free x)
    (hfits : SlicesFit input inputArrSize N) (horder : order.Perm (List.range N))
    (hlen : inputArrSize ≤ result.length) (hzeros : ∀ t < inputArrSize, result[t]? = some 0) :
    ∃ T, order.foldlM (hashBuild input inputArrSize) result = some T ∧ T.length = result.length ∧
      ∀ k < inputArrSize / 96 * N, ∀ x, input[k]? = some x → ∃ t < inputArrSize, T[t]? = some x := by
  obtain ⟨T, hrun, hlength, -, hprobed⟩ := items_keep input result hin hsize hinput hpos hfits
    (horder.nodup_iff.mpr List.nodup_range)
    (fun gid hgid => List.mem_range.mp (horder.mem_iff.mp hgid)) hlen hzeros
  refine ⟨T, hrun, hlength, ?_⟩
  intro k hk x hx
  have hc : 0 < inputArrSize / 96 := by
    by_contra hzero
    rw [Nat.eq_zero_of_not_pos hzero, Nat.zero_mul] at hk
    omega
  -- The work item of the row, and its place in the slice.
  have hgid : k / (inputArrSize / 96) < N := Nat.div_lt_of_lt_mul hk
  have hsplit := Nat.div_add_mod k (inputArrSize / 96)
  have hmod := Nat.mod_lt k hc
  have hmem := hprobed _ hgid
  rw [if_pos (horder.mem_iff.mpr (List.mem_range.mpr hgid))] at hmem
  have hrow : x ∈ item_rows input inputArrSize (k / (inputArrSize / 96)) := by
    apply List.mem_iff_getElem?.mpr
    refine ⟨k % (inputArrSize / 96), ?_⟩
    rw [item_rows, slice_getElem?, if_pos hmod, inpOffset, hsplit, hx]
  have hcell := (List.mem_filter.mp (hmem.holds.mem_iff.mpr hrow)).1
  obtain ⟨t, ht⟩ := List.mem_iff_getElem?.mp hcell
  have hroom := room_le hin hgid
  rw [slice_getElem?] at ht
  split at ht
  · exact ⟨_, by omega, ht⟩
  · cases ht

end slices

end hero.kernels
