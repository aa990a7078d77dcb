-- `hashBuild` as the 96 work items that it is written for: a launch loses no key and every item
-- stays in its slice exactly when no slice has more keys for one of its ends than it has slots there.
import HeroDB.HashBuild

namespace hero.kernels

open linear_probing loops

/-! ## What a launch should do -/

/-- The item has written only slots of its slice. A key is not zero and is only put where a zero
was, so a slot that was written has another word than before. -/
def StaysInSlice (c gid : Nat) (before after : List Word) : Prop :=
  ∀ t, ¬ (gid * c ≤ t ∧ t < (gid + 1) * c) → after[t]? = before[t]?

/-- The launch goes well, each key is as often in the table as in the input, and each item stays in
its slice. The size that the kernel gets is an `unsigned int`. -/
def LosesNothing (c : Nat) (input result : List Word) (order : List Nat) : Prop :=
  ∃ T, order.foldlM (hashBuild input (uint (96 * c))) result = some T ∧
    (∀ x, ¬ free x → T.count x = input.count x) ∧
    ∀ pre gid post T1 T2, order = pre ++ gid :: post →
      pre.foldlM (hashBuild input (uint (96 * c))) result = some T1 →
      hashBuild input (uint (96 * c)) T1 gid = some T2 → StaysInSlice c gid T1 T2

/-! ## Where a word goes -/

section slot

variable {x : Word} {input result result' T : List Word} {inputArrSize gid i n hf : Nat}

theorem uint_lt (n : Nat) : uint n < 2 ^ 32 := Nat.mod_lt n (by decide)

/-- The loop over `j` leaves the table as it is, or sets the first free one of its slots. The
number of a slot wraps. -/
theorem build_slot_probes (hsmall : hf < 2 ^ 32) (h : build_slot x n hf result = some result') :
    result' = result ∨ ∃ k < n, (∃ y, result[uint (hf + k)]? = some y ∧ free y) ∧
      (∀ j < k, ∃ z, result[uint (hf + j)]? = some z ∧ ¬ free z) ∧
      result' = result.set (uint (hf + k)) x := by
  induction n generalizing hf with
  | zero =>
    rw [build_slot, Option.some.injEq] at h
    exact .inl h.symm
  | succ n ih =>
    rw [build_slot, Option.bind_eq_some_iff] at h
    obtain ⟨r, hget, hr⟩ := h
    split at hr
    case isTrue hpos =>
      have hwrap : ∀ k, uint (uint (hf + 1) + k) = uint (hf + (k + 1)) := by
        intro k
        unfold uint
        omega
      rcases ih (uint_lt _) hr with hsame | ⟨k, hk, hfree, hfull, hset⟩
      · exact .inl hsame
      · refine .inr ⟨k + 1, by omega, ?_, ?_, ?_⟩
        · rwa [hwrap] at hfree
        · intro j hj
          cases j with
          | zero =>
            refine ⟨r, ?_, ?_⟩
            · rw [Nat.add_zero, uint_small hsmall, hget]
            · unfold free
              omega
          | succ j =>
            rw [← hwrap]
            exact hfull j (by omega)
        · rwa [hwrap] at hset
    case isFalse hzero =>
      unfold store at hr
      split at hr
      · rw [Option.some.injEq] at hr
        refine .inr ⟨0, by omega, ?_, ?_, ?_⟩
        · rw [Nat.add_zero, uint_small hsmall]
          refine ⟨r, hget, ?_⟩
          unfold free
          omega
        · intro j hj
          omega
        · rw [Nat.add_zero, uint_small hsmall, hr]
      · cases hr

/-- What a turn of the loop over `i` does, for slots of any number. -/
theorem build_row_probes (h : build_row input inputArrSize gid result i = some T) :
    ∃ x, input[inpOffset inputArrSize gid + i]? = some x ∧
      (T = result ∨ ∃ k < inputArrSize / 96,
        (∃ y, result[uint (uint (home inputArrSize x + inpOffset inputArrSize gid) + k)]? = some y ∧
          free y) ∧
        (∀ j < k, ∃ z,
          result[uint (uint (home inputArrSize x + inpOffset inputArrSize gid) + j)]? = some z ∧
            ¬ free z) ∧
        T = result.set (uint (uint (home inputArrSize x + inpOffset inputArrSize gid) + k)) x) := by
  unfold build_row at h
  rw [Option.bind_eq_some_iff] at h
  obtain ⟨x, hx, hslot⟩ := h
  exact ⟨x, hx, build_slot_probes (uint_lt _) hslot⟩

end slot

/-! ## A launch that loses nothing -/

section loses_nothing

variable {input result T : List Word} {order : List Nat} {inputArrSize c gid : Nat}

theorem stored_row_le {i : Nat} (h : build_row input inputArrSize gid result i = some T) :
    (stored free T).length ≤ (stored free result).length + 1 := by
  obtain ⟨x, -, rfl | ⟨k, -, ⟨y, hy, hfree⟩, -, rfl⟩⟩ := build_row_probes h
  · omega
  · obtain ⟨hlt, hget⟩ := List.getElem?_eq_some_iff.mp hy
    simp only [stored, ← List.countP_eq_length_filter]
    rw [List.countP_set hlt]
    split <;> split <;> omega

/-- A launch fills at most as many slots as its items have rows. -/
theorem stored_launch_le (h : order.foldlM (hashBuild input inputArrSize) result = some T) :
    (stored free T).length ≤ (stored free result).length + order.length * (inputArrSize / 96) := by
  refine keeps (fun pre T => (stored free T).length ≤
    (stored free result).length + pre.length * (inputArrSize / 96)) ?_ h (by simp)
  intro pre gid post T1 T2 hl hle hitem
  have hturns := keeps (fun pre T => (stored free T).length ≤
    (stored free T1).length + pre.length) (by
      intro pre i post T3 T4 hrange hle hrow
      have hone := stored_row_le hrow
      rw [List.length_append, List.length_singleton]
      omega) hitem (by simp)
  rw [List.length_range] at hturns
  rw [List.length_append, List.length_singleton, Nat.add_mul]
  omega

/-- An item that stays in its slice, and finds it free, puts a part of its rows there, and none
before its home. -/
theorem item_in_slice (hsize : inputArrSize < 2 ^ 32) (hgid : gid < 96)
    (hpos : ∀ x ∈ input, ¬ free x)
    (hfree : Probed free (home inputArrSize)
      (slice result (inpOffset inputArrSize gid) (inputArrSize / 96)) [])
    (hrun : hashBuild input inputArrSize result gid = some T)
    (hstays : ∀ t, ¬ (inpOffset inputArrSize gid ≤ t ∧
      t < inpOffset inputArrSize gid + inputArrSize / 96) → T[t]? = result[t]?) :
    ∃ placed, placed.Sublist (item_rows input inputArrSize gid) ∧
      Probed free (home inputArrSize)
        (slice T (inpOffset inputArrSize gid) (inputArrSize / 96)) placed := by
  -- So far the item has stayed in its slice, or it has filled a slot outside for good.
  have hinv := keeps (fun pre T1 =>
    ((∀ t, ¬ (inpOffset inputArrSize gid ≤ t ∧
        t < inpOffset inputArrSize gid + inputArrSize / 96) → T1[t]? = result[t]?) ∧
      ∃ placed, placed.Sublist ((item_rows input inputArrSize gid).take pre.length) ∧
        Probed free (home inputArrSize)
          (slice T1 (inpOffset inputArrSize gid) (inputArrSize / 96)) placed) ∨
    (∃ t y z, ¬ (inpOffset inputArrSize gid ≤ t ∧
        t < inpOffset inputArrSize gid + inputArrSize / 96) ∧
      result[t]? = some y ∧ free y ∧ T1[t]? = some z ∧ ¬ free z)) (by
    intro pre i post T1 T2 hrange hinv hrow
    obtain ⟨rfl, hi⟩ := range_split hrange
    rw [List.length_range] at hinv
    rw [List.length_append, List.length_range, List.length_singleton]
    obtain ⟨x, hx, hset⟩ := build_row_probes hrow
    have hkey : ¬ free x := hpos x (List.mem_of_getElem? hx)
    have hhome := home_lt inputArrSize x (by omega)
    have hlt := slot_lt hgid hhome
    rcases hinv with ⟨hout, placed, hsub, hprobed⟩ | ⟨t, y, z, ht, hy, hyfree, hz, hzfull⟩
    · have hmore : ((item_rows input inputArrSize gid).take i).Sublist
          ((item_rows input inputArrSize gid).take (i + 1)) :=
        List.take_sublist_take_left (Nat.le_succ i)
      rcases hset with rfl | ⟨k, hk, ⟨y, hy, hyfree⟩, hfull, rfl⟩
      · exact .inl ⟨hout, placed, hsub.trans hmore, hprobed⟩
      · have hbase : uint (home inputArrSize x + inpOffset inputArrSize gid) =
            home inputArrSize x + inpOffset inputArrSize gid := uint_small (by omega)
        rw [hbase] at hy hfull ⊢
        have hylt := (List.getElem?_eq_some_iff.mp hy).1
        by_cases hin : inpOffset inputArrSize gid ≤
            uint (home inputArrSize x + inpOffset inputArrSize gid + k) ∧
          uint (home inputArrSize x + inpOffset inputArrSize gid + k) <
            inpOffset inputArrSize gid + inputArrSize / 96
        · -- A number that wrapped is not in the slice again.
          have hnowrap : home inputArrSize x + inpOffset inputArrSize gid + k < 2 ^ 32 := by
            unfold uint at hin
            omega
          rw [uint_small hnowrap] at hin hy ⊢
          refine .inl ⟨?_, placed ++ [x], ?_, ?_⟩
          · intro t ht
            rw [List.getElem?_set_ne (by omega), hout t ht]
          · have hrowi : (item_rows input inputArrSize gid)[i]? = some x := by
              rw [item_rows, slice_getElem?, if_pos hi, hx]
            rw [List.take_add_one, hrowi, Option.toList_some]
            exact hsub.append (List.Sublist.refl _)
          · have hplace : home inputArrSize x + inpOffset inputArrSize gid + k =
                inpOffset inputArrSize gid + (home inputArrSize x + k) := by omega
            rw [hplace] at hin hy ⊢
            rw [slice_set]
            refine hprobed.insert (y := y) hkey (Nat.le_add_right _ _) ?_ ?_ hyfree
            · intro t h1 h2
              obtain ⟨z, hz, hzfull⟩ := hfull (t - home inputArrSize x) (by omega)
              rw [uint_small (by omega)] at hz
              refine ⟨z, ?_, hzfull⟩
              rw [slice_getElem?, if_pos (by omega), ← hz]
              congr 1
              omega
            · rw [slice_getElem?, if_pos (by omega), hy]
        · refine .inr ⟨_, y, x, hin, ?_, hyfree, List.getElem?_set_self hylt, hkey⟩
          rw [← hout _ hin, hy]
    · refine .inr ⟨t, y, ?_⟩
      rcases hset with rfl | ⟨k, hk, ⟨y', hy', hyfree'⟩, -, rfl⟩
      · exact ⟨z, ht, hy, hyfree, hz, hzfull⟩
      · refine ⟨z, ht, hy, hyfree, ?_, hzfull⟩
        rw [List.getElem?_set_ne, hz]
        intro heq
        rw [heq, hz, Option.some.injEq] at hy'
        rw [hy'] at hzfull
        exact hzfull hyfree') hrun
    (.inl ⟨fun t _ => rfl, [], List.nil_sublist _, hfree⟩)
  rcases hinv with ⟨-, placed, hsub, hprobed⟩ | ⟨t, y, z, ht, hy, hyfree, hz, hzfull⟩
  · refine ⟨placed, hsub.trans (List.take_sublist _ _), hprobed⟩
  · rw [hstays t ht, hy, Option.some.injEq] at hz
    rw [← hz] at hzfull
    exact absurd hyfree hzfull

theorem room_slices (hgid : gid < 96) : room (96 * c) 96 gid = c := by
  unfold room inpOffset
  split
  · omega
  · obtain rfl : gid = 95 := by omega
    omega

theorem inpOffset_slices (c gid : Nat) : inpOffset (96 * c) gid = gid * c := by
  unfold inpOffset
  rw [Nat.mul_div_cancel_left c (by omega), Nat.mul_comm]

theorem zeros_getElem? (hzeros : ∀ w ∈ result, w = 0) {t : Nat} (ht : t < result.length) :
    result[t]? = some 0 := by
  rw [List.getElem?_eq_getElem ht, hzeros _ (List.getElem_mem ht)]

theorem zeros_free (hzeros : ∀ w ∈ result, w = 0) {lo n : Nat} : ∀ w ∈ slice result lo n, free w := by
  intro w hw
  rw [hzeros w (List.mem_of_mem_drop (List.mem_of_mem_take hw))]
  rfl

/-- The table holds the input when each key is in it as often. -/
theorem stored_perm (hpos : ∀ x ∈ input, ¬ free x)
    (hcount : ∀ x, ¬ free x → T.count x = input.count x) :
    (stored free T).Perm input := by
  rw [List.perm_iff_count]
  intro x
  by_cases hx : free x
  · have hinput : x ∉ input := fun hmem => hpos x hmem hx
    have hstored : x ∉ stored free T := by
      intro hmem
      simpa [hx] using (List.mem_filter.mp hmem).2
    rw [List.count_eq_zero_of_not_mem hinput, List.count_eq_zero_of_not_mem hstored]
  · rw [stored, List.count_filter (by simpa using hx), hcount x hx]

/-- When every item stays in its slice, each slice gets a part of its rows. -/
theorem launch_in_slices (hsize : 96 * c < 2 ^ 32) (hpos : ∀ x ∈ input, ¬ free x)
    (hzeros : ∀ w ∈ result, w = 0) (horder : order.Perm (List.range 96))
    (hrun : order.foldlM (hashBuild input (96 * c)) result = some T)
    (hstays : ∀ pre gid post T1 T2, order = pre ++ gid :: post →
      pre.foldlM (hashBuild input (96 * c)) result = some T1 →
      hashBuild input (96 * c) T1 gid = some T2 → StaysInSlice c gid T1 T2) :
    (∀ t, 96 * c ≤ t → T[t]? = result[t]?) ∧
      ∀ gid < 96, ∃ placed, placed.Sublist (item_rows input (96 * c) gid) ∧
        Probed free (home (96 * c)) (slice T (gid * c) c) placed := by
  have hnodup : order.Nodup := horder.nodup_iff.mpr List.nodup_range
  have hinv := keeps (fun pre T =>
    pre.foldlM (hashBuild input (96 * c)) result = some T ∧
    (∀ t, 96 * c ≤ t → T[t]? = result[t]?) ∧
    ∀ gid < 96, ∃ placed, placed.Sublist (item_rows input (96 * c) gid) ∧
      (gid ∉ pre → placed = []) ∧
      Probed free (home (96 * c)) (slice T (gid * c) c) placed) (by
    rintro pre gid post T1 T2 hl ⟨hT1, hbeyond, hslices⟩ hitem
    have hgid : gid < 96 := List.mem_range.mp (horder.mem_iff.mp (by simp [hl]))
    have hnot : gid ∉ pre := not_before hnodup hl
    have hown := hstays pre gid post T1 T2 hl hT1 hitem
    have hend : (gid + 1) * c ≤ 96 * c := Nat.mul_le_mul_right c hgid
    refine ⟨by rw [foldlM_snoc, hT1, Option.bind_some, hitem], ?_, ?_⟩
    · intro t ht
      rw [hown t (by omega), hbeyond t ht]
    · intro gid' hgid'
      obtain ⟨placed, hsub, hempty, hprobed⟩ := hslices gid' hgid'
      by_cases hsame : gid' = gid
      · subst hsame
        rw [hempty hnot] at hprobed
        have hcells := inpOffset_slices c gid'
        have hrows : 96 * c / 96 = c := Nat.mul_div_cancel_left c (by omega)
        obtain ⟨placed', hsub', hprobed'⟩ := item_in_slice hsize hgid hpos
          (by rwa [hcells, hrows]) hitem (by
            intro t ht
            rw [hcells, hrows, ← Nat.succ_mul] at ht
            exact hown t ht)
        rw [hcells, hrows] at hprobed'
        exact ⟨placed', hsub', fun hmem => absurd (by simp) hmem, hprobed'⟩
      · refine ⟨placed, hsub, fun hmem => hempty (fun hpre => hmem (by simp [hpre])), ?_⟩
        -- The slices of two items are apart.
        have hkept : slice T2 (gid' * c) c = slice T1 (gid' * c) c := by
          apply slice_congr
          intro t ht
          apply hown
          rcases Nat.lt_or_gt_of_ne hsame with hlt | hgt
          · have hle : (gid' + 1) * c ≤ gid * c := Nat.mul_le_mul_right c hlt
            rw [Nat.succ_mul] at hle
            omega
          · have hle : (gid + 1) * c ≤ gid' * c := Nat.mul_le_mul_right c hgt
            omega
        rwa [hkept]) hrun
    ⟨rfl, fun t _ => rfl, fun gid _ =>
      ⟨[], List.nil_sublist _, fun _ => rfl, Probed.empty (zeros_free hzeros)⟩⟩
  refine ⟨hinv.2.1, fun gid hgid => ?_⟩
  obtain ⟨placed, hsub, -, hprobed⟩ := hinv.2.2 gid hgid
  exact ⟨placed, hsub, hprobed⟩

theorem fits_of_loses_nothing (hinput : input.length = 96 * c) (hpos : ∀ x ∈ input, ¬ free x)
    (hzeros : ∀ w ∈ result, w = 0) (horder : order.Perm (List.range 96))
    (h : LosesNothing c input result order) : 96 * c < 2 ^ 32 ∧ SlicesFit input (96 * c) 96 := by
  obtain ⟨T, hrun, hcount, hstays⟩ := h
  have hperm := stored_perm hpos hcount
  have hlength := hperm.length_eq
  have hsize : 96 * c < 2 ^ 32 := by
    have hle := stored_launch_le hrun
    have hnone : stored free result = [] := by
      rw [stored, List.filter_eq_nil_iff]
      intro w hw
      rw [hzeros w hw]
      decide
    rw [hnone, horder.length_eq, List.length_range, List.length_nil] at hle
    unfold uint at hle
    omega
  rw [uint_small hsize] at hrun hstays
  refine ⟨hsize, ?_⟩
  obtain ⟨hbeyond, hslices⟩ := launch_in_slices hsize hpos hzeros horder hrun hstays
  -- All keys are in the slices, so no slot of a slice is free.
  have hT : 96 * c ≤ T.length := by
    rw [← hinput, ← hlength]
    exact List.length_filter_le _ _
  have hafter : stored free (T.drop (96 * c)) = [] := by
    rw [stored, List.filter_eq_nil_iff]
    intro w hw
    obtain ⟨t, ht⟩ := List.mem_iff_getElem?.mp hw
    rw [List.getElem?_drop, hbeyond _ (Nat.le_add_right _ _)] at ht
    rw [hzeros w (List.mem_of_getElem? ht)]
    decide
  have hfull : ∀ w ∈ T.take (96 * c), ¬ free w := by
    have hsplit : stored free T = stored free (T.take (96 * c)) ++ stored free (T.drop (96 * c)) := by
      rw [stored, stored, stored, ← List.filter_append, List.take_append_drop]
    rw [hsplit, hafter, List.append_nil, hinput] at hlength
    have hall := List.length_filter_eq_length_iff.mp
      (hlength.trans (by rw [List.length_take, Nat.min_eq_left hT]) :
        ((T.take (96 * c)).filter (fun w => ¬ free w)).length = (T.take (96 * c)).length)
    intro w hw
    simpa using hall w hw
  intro gid hgid u hu
  obtain ⟨placed, hsub, hprobed⟩ := hslices gid hgid
  have hend : gid * c + c ≤ 96 * c := by
    rw [← Nat.succ_mul]
    exact Nat.mul_le_mul_right c hgid
  have hcells := slice_length T (gid * c) c (by omega)
  have hrows : (item_rows input (96 * c) gid).length = c := by
    rw [item_rows, inpOffset_slices, Nat.mul_div_cancel_left c (by omega)]
    exact slice_length input (gid * c) c (by omega)
  have hslice : stored free (slice T (gid * c) c) = slice T (gid * c) c := by
    rw [stored, List.filter_eq_self]
    intro w hw
    obtain ⟨t, ht⟩ := List.mem_iff_getElem?.mp hw
    rw [slice_getElem?] at ht
    split at ht
    · have hmem : w ∈ T.take (96 * c) := by
        apply List.mem_iff_getElem?.mpr
        refine ⟨gid * c + t, ?_⟩
        rw [List.getElem?_take, if_pos (by omega), ht]
      simpa using hfull w hmem
    · cases ht
  have hall : placed = item_rows input (96 * c) gid := by
    apply hsub.eq_of_length
    rw [← hprobed.holds.length_eq, hslice, hcells, hrows]
  rw [hall] at hprobed
  have hfits := hprobed.fits (u := u) (by omega)
  rw [hcells] at hfits
  rwa [room_slices hgid]

theorem take_slices (T : List Word) (c n : Nat) :
    T.take (n * c) = (List.range n).flatMap (fun gid => slice T (gid * c) c) := by
  induction n with
  | zero => simp
  | succ n ih =>
    rw [List.range_succ, List.flatMap_append, ← ih, Nat.succ_mul, List.take_add]
    simp [slice]

/-- A slice that holds its rows has each key as often as the input has it there. -/
theorem count_slice {x : Word} (hx : ¬ free x)
    (h : Probed free (home (96 * c)) (slice T (gid * c) c) (slice input (gid * c) c)) :
    (slice T (gid * c) c).count x = (slice input (gid * c) c).count x := by
  rw [← h.holds.count_eq, stored, List.count_filter (by simpa using hx)]

/-- Keys that fit in their slices are all in the table after a launch, and no item leaves its
slice. -/
theorem loses_nothing_of_fits (hinput : input.length = 96 * c) (hpos : ∀ x ∈ input, ¬ free x)
    (hzeros : ∀ w ∈ result, w = 0) (hlen : 96 * c ≤ result.length)
    (horder : order.Perm (List.range 96)) (hsize : 96 * c < 2 ^ 32)
    (hfits : SlicesFit input (96 * c) 96) : LosesNothing c input result order := by
  have hrows : 96 * c / 96 = c := Nat.mul_div_cancel_left c (by omega)
  have hnodup : order.Nodup := horder.nodup_iff.mpr List.nodup_range
  have hbound : ∀ gid ∈ order, gid < 96 :=
    fun gid hgid => List.mem_range.mp (horder.mem_iff.mp hgid)
  have hkeys : ∀ k < 96 * c, ∀ x, input[k]? = some x → ¬ free x :=
    fun k _ x hx => hpos x (List.mem_of_getElem? hx)
  have hcells : ∀ t < 96 * c, result[t]? = some 0 :=
    fun t ht => zeros_getElem? hzeros (by omega)
  unfold LosesNothing
  rw [uint_small hsize]
  obtain ⟨T, hrun, hlength, hbeyond, hprobed⟩ := items_keep input result (by omega) hsize
    (by omega) hkeys hfits hnodup hbound hlen hcells
  refine ⟨T, hrun, ?_, ?_⟩
  · intro x hx
    have hafter : (T.drop (96 * c)).count x = 0 := by
      rw [List.count_eq_zero]
      intro hmem
      obtain ⟨t, ht⟩ := List.mem_iff_getElem?.mp hmem
      rw [List.getElem?_drop, hbeyond _ (Nat.le_add_right _ _)] at ht
      rw [hzeros x (List.mem_of_getElem? ht)] at hx
      exact hx rfl
    have hall : input.take (96 * c) = input := List.take_of_length_le (by omega)
    rw [← List.take_append_drop (96 * c) T, List.count_append, hafter, Nat.add_zero, ← hall,
      take_slices, take_slices, List.count_flatMap, List.count_flatMap]
    congr 1
    apply List.map_congr_left
    intro gid hmem
    have hgid := List.mem_range.mp hmem
    have hslice := hprobed gid hgid
    rw [if_pos (horder.mem_iff.mpr hmem), room_slices hgid, item_rows, inpOffset_slices,
      hrows] at hslice
    exact count_slice hx hslice
  · intro pre gid post T1 T2 hl hT1 hitem
    have hgid : gid < 96 := hbound gid (by simp [hl])
    have hnot : gid ∉ pre := not_before hnodup hl
    rw [hl, List.nodup_append] at hnodup
    obtain ⟨T1', hrun1, hlen1, -, hprobed1⟩ := items_keep input result (by omega) hsize (by omega)
      hkeys hfits hnodup.1 (fun gid hmem => hbound gid (by simp [hl, hmem])) hlen hcells
    rw [hT1, Option.some.injEq] at hrun1
    rw [← hrun1] at hprobed1 hlen1
    have hfree := hprobed1 gid hgid
    rw [if_neg hnot] at hfree
    obtain ⟨T2', hitem', -, -, hframe⟩ := item_keeps (by omega) hsize (by omega) hkeys hfits hgid
      (by omega) hfree
    rw [hitem, Option.some.injEq] at hitem'
    intro t ht
    rw [hitem']
    apply hframe
    rw [room_slices hgid, inpOffset_slices]
    rw [Nat.succ_mul] at ht
    omega

/-- Whatever the order of the 96 items, a launch on non-zero keys loses nothing exactly when their
number is an `unsigned int` and the keys of every slice fit in it. -/
theorem hashBuild_loses_nothing_exactly_when_the_slices_fit (hinput : input.length = 96 * c)
    (hpos : ∀ x ∈ input, x ≠ 0) (hzeros : ∀ w ∈ result, w = 0) (hlen : 96 * c ≤ result.length)
    (horder : order.Perm (List.range 96)) :
    LosesNothing c input result order ↔ 96 * c < 2 ^ 32 ∧ SlicesFit input (96 * c) 96 := by
  have hkeys : ∀ x ∈ input, ¬ free x := by
    intro x hx hfree
    exact hpos x hx (BitVec.eq_of_toNat_eq hfree)
  constructor
  · exact fits_of_loses_nothing hinput hkeys hzeros horder
  · rintro ⟨hsize, hfits⟩
    exact loses_nothing_of_fits hinput hkeys hzeros hlen horder hsize hfits

end loses_nothing

/-- 192 times the key 2, in slices of two: both keys of a slice have its first slot as their home, and
the second one goes on to the next slot. -/
theorem hashBuild_loses_nothing_of_two_equal_keys_for_each_item :
    LosesNothing 2 (List.replicate 192 2) (List.replicate 192 0) (List.range 96) := by
  refine (hashBuild_loses_nothing_exactly_when_the_slices_fit List.length_replicate
    (fun x hx => by rw [List.eq_of_mem_replicate hx]; decide)
    (fun _ hw => List.eq_of_mem_replicate hw) (Nat.le_of_eq List.length_replicate.symm)
    (List.Perm.refl _)).mpr ⟨by omega, fun gid hgid u hu => ?_⟩
  have htwo : min (96 * 2 / 96) (192 - 2 * gid) = 2 := by omega
  have hends : ∀ u < 2, behind (home (96 * 2)) u (List.replicate 2 2) + u ≤ 2 := by decide
  rw [room_slices hgid, item_rows, inpOffset_slices, slice, List.drop_replicate,
    List.take_replicate, Nat.mul_comm gid 2, htwo]
  exact hends u hu

/-- 192 times the key 1, in slices of two: both keys of a slice have its last slot as their home. -/
theorem hashBuild_loses_a_key_with_its_home_at_the_end_of_a_slice :
    ¬ LosesNothing 2 (List.replicate 192 1) (List.replicate 192 0) (List.range 96) := by
  intro h
  obtain ⟨-, hfits⟩ := fits_of_loses_nothing List.length_replicate (by
    intro x hx
    rw [List.eq_of_mem_replicate hx]
    decide) (fun _ hw => List.eq_of_mem_replicate hw) (List.Perm.refl _) h
  have hend := hfits 0 (by omega) 1 (by omega)
  rw [room_slices (by omega), item_rows, inpOffset_slices, slice, List.drop_replicate,
    List.take_replicate] at hend
  exact absurd hend (by decide)

end hero.kernels
