-- `hashBuild` load by load and store by store: the items of a launch share the table, and between
-- the load of a slot and the store to it the other items take their turns.
import HeroDB.Lib.WorkItems
import HeroDB.HashBuild

namespace hero.kernels

open linear_probing loops transition work_items

/-! ## One access at a time -/

/-- Where a work item of `hashBuild` is: at the test of the loop over `i`, at the test of the loop
over `j`, between the load of a zero and the store, or behind its last row. -/
inductive build_pc
  | row (i : Nat)
  | slot (i hf j : Nat)
  | put (i hf : Nat)
  | done
deriving DecidableEq

/-- The next turn of a work item. An access outside of its buffer is undefined behaviour. -/
def build_turn (input : List Word) (inputArrSize gid : Nat) :
    build_pc → List Word → Option (build_pc × List Word)
  | .row i, result =>
    if i < inputArrSize / 96 then
      (input[inpOffset inputArrSize gid + i]?).map (fun x =>
        (.slot i (uint (x.toNat % (inputArrSize / 96) + inpOffset inputArrSize gid)) 0, result))
    else some (.done, result)
  | .slot i hf j, result =>
    if j < inputArrSize / 96 then
      (result[hf]?).map (fun r =>
        (if 0 < r.toNat then .slot i (uint (hf + 1)) (j + 1) else .put i hf, result))
    else some (.row (i + 1), result)
  | .put i hf, result =>
    (input[inpOffset inputArrSize gid + i]?).bind (fun x =>
      (store result hf x).map (fun result' => (.row (i + 1), result')))
  | .done, _ => none

def building (input : List Word) (inputArrSize N : Nat) : System (Launch build_pc (List Word)) Nat :=
  launch (build_turn input inputArrSize) (fun result => ∀ w ∈ result, w = 0) (.row 0) N

/-! ## The invariant -/

/-- No slot that an item can try has a number that wraps. -/
def IndicesFit (input : List Word) (inputArrSize N : Nat) : Prop :=
  ∀ gid < N, ∀ i < inputArrSize / 96, ∀ x, input[inpOffset inputArrSize gid + i]? = some x →
    ∀ j < inputArrSize / 96, inpOffset inputArrSize gid + home inputArrSize x + j < 2 ^ 32

/-- The key of a slot is a row of an item, and the slots from its home to it are full. -/
def Reached (input : List Word) (inputArrSize N : Nat) (result : List Word) (p : Nat) (x : Word) :
    Prop :=
  ∃ gid < N, ∃ i < inputArrSize / 96, input[inpOffset inputArrSize gid + i]? = some x ∧
    inpOffset inputArrSize gid + home inputArrSize x ≤ p ∧
    p < inpOffset inputArrSize gid + home inputArrSize x + inputArrSize / 96 ∧
    Full free result (inpOffset inputArrSize gid + home inputArrSize x) p

/-- Every key of the table has reached its slot. -/
def AllReached (input : List Word) (inputArrSize N : Nat) (result : List Word) : Prop :=
  ∀ p x, result[p]? = some x → ¬ free x → Reached input inputArrSize N result p x

/-- What an item knows in the loop over `j`: the slots that it has passed are full. -/
def Passed (input : List Word) (inputArrSize gid : Nat) : build_pc → List Word → Prop
  | .slot i hf j, result => ∃ x, i < inputArrSize / 96 ∧
    input[inpOffset inputArrSize gid + i]? = some x ∧
    hf = uint (inpOffset inputArrSize gid + home inputArrSize x + j) ∧
    Full free result (inpOffset inputArrSize gid + home inputArrSize x)
      (inpOffset inputArrSize gid + home inputArrSize x + j)
  | .put i hf, result => ∃ x j, i < inputArrSize / 96 ∧
    input[inpOffset inputArrSize gid + i]? = some x ∧ j < inputArrSize / 96 ∧
    hf = inpOffset inputArrSize gid + home inputArrSize x + j ∧
    Full free result (inpOffset inputArrSize gid + home inputArrSize x) hf
  | .row _, _ => True
  | .done, _ => True

section turns

variable {input result result' : List Word} {inputArrSize N gid : Nat} {pc pc' : build_pc}
variable {s t : Launch build_pc (List Word)}

/-- A turn writes at most one slot, and a key goes into it. -/
theorem build_turn_writes (hpos : ∀ x ∈ input, ¬ free x)
    (h : build_turn input inputArrSize gid pc result = some (pc', result')) :
    result' = result ∨ ∃ i hf x, pc = .put i hf ∧ ¬ free x ∧
      input[inpOffset inputArrSize gid + i]? = some x ∧ hf < result.length ∧
      result' = result.set hf x := by
  cases pc with
  | row i =>
    simp only [build_turn] at h
    split at h
    · rw [Option.map_eq_some_iff] at h
      obtain ⟨x, -, heq⟩ := h
      rw [Prod.mk.injEq] at heq
      exact .inl heq.2.symm
    · rw [Option.some.injEq, Prod.mk.injEq] at h
      exact .inl h.2.symm
  | slot i hf j =>
    simp only [build_turn] at h
    split at h
    · rw [Option.map_eq_some_iff] at h
      obtain ⟨x, -, heq⟩ := h
      rw [Prod.mk.injEq] at heq
      exact .inl heq.2.symm
    · rw [Option.some.injEq, Prod.mk.injEq] at h
      exact .inl h.2.symm
  | put i hf =>
    simp only [build_turn, Option.bind_eq_some_iff, Option.map_eq_some_iff] at h
    obtain ⟨x, hx, r, hstore, heq⟩ := h
    unfold store at hstore
    split at hstore
    case isTrue hlt =>
      rw [Option.some.injEq] at hstore
      rw [Prod.mk.injEq] at heq
      refine .inr ⟨i, hf, x, rfl, hpos x (List.mem_of_getElem? hx), hx, hlt, ?_⟩
      rw [← heq.2, hstore]
    case isFalse => cases hstore
  | done => cases h

theorem build_turn_full (hpos : ∀ x ∈ input, ¬ free x)
    (h : build_turn input inputArrSize gid pc result = some (pc', result')) {lo hi : Nat}
    (hfull : Full free result lo hi) : Full free result' lo hi := by
  rcases build_turn_writes hpos h with rfl | ⟨i, hf, x, -, hx, -, -, rfl⟩
  · exact hfull
  · exact hfull.set hx hf

theorem Reached.keep (hpos : ∀ x ∈ input, ¬ free x)
    (h : build_turn input inputArrSize gid pc result = some (pc', result')) {p : Nat} {x : Word}
    (hx : Reached input inputArrSize N result p x) : Reached input inputArrSize N result' p x := by
  obtain ⟨g, hg, i, hi, hin, hlo, hhi, hfull⟩ := hx
  exact ⟨g, hg, i, hi, hin, hlo, hhi, build_turn_full hpos h hfull⟩

theorem Passed.keep (hpos : ∀ x ∈ input, ¬ free x)
    (h : build_turn input inputArrSize gid pc result = some (pc', result')) {other : Nat}
    {pc'' : build_pc} (hp : Passed input inputArrSize other pc'' result) :
    Passed input inputArrSize other pc'' result' := by
  cases pc'' with
  | row i => trivial
  | slot i hf j =>
    obtain ⟨x, hi, hx, hhf, hfull⟩ := hp
    exact ⟨x, hi, hx, hhf, build_turn_full hpos h hfull⟩
  | put i hf =>
    obtain ⟨x, j, hi, hx, hj, hhf, hfull⟩ := hp
    exact ⟨x, j, hi, hx, hj, hhf, build_turn_full hpos h hfull⟩
  | done => trivial

theorem Passed.turn (hfit : IndicesFit input inputArrSize N)
    (hgid : gid < N) (hp : Passed input inputArrSize gid pc result)
    (h : build_turn input inputArrSize gid pc result = some (pc', result')) :
    Passed input inputArrSize gid pc' result' := by
  cases pc with
  | row i =>
    simp only [build_turn] at h
    split at h
    case isTrue hi =>
      rw [Option.map_eq_some_iff] at h
      obtain ⟨x, hx, heq⟩ := h
      rw [Prod.mk.injEq] at heq
      rw [← heq.1]
      refine ⟨x, hi, hx, ?_, ?_⟩
      · rw [Nat.add_zero, Nat.add_comm]
        rfl
      · intro t h1 h2
        omega
    case isFalse =>
      rw [Option.some.injEq, Prod.mk.injEq] at h
      rw [← h.1]
      trivial
  | slot i hf j =>
    obtain ⟨x, hi, hx, hhf, hfull⟩ := hp
    simp only [build_turn] at h
    split at h
    case isTrue hj =>
      rw [Option.map_eq_some_iff] at h
      obtain ⟨r, hr, heq⟩ := h
      rw [Prod.mk.injEq] at heq
      obtain ⟨hpc, rfl⟩ := heq
      have hsmall := hfit gid hgid i hi x hx j hj
      rw [uint_small hsmall] at hhf
      rw [← hpc]
      split
      case isTrue htaken =>
        refine ⟨x, hi, hx, by rw [hhf]; rfl, ?_⟩
        intro t h1 h2
        rcases Nat.lt_or_ge t (inpOffset inputArrSize gid + home inputArrSize x + j) with hlt | hge
        · exact hfull t h1 hlt
        · have ht : t = hf := by omega
          rw [ht]
          refine ⟨r, hr, ?_⟩
          unfold free
          omega
      case isFalse => exact ⟨x, j, hi, hx, hj, hhf, by rwa [hhf]⟩
    case isFalse =>
      rw [Option.some.injEq, Prod.mk.injEq] at h
      rw [← h.1]
      trivial
  | put i hf =>
    simp only [build_turn, Option.bind_eq_some_iff, Option.map_eq_some_iff] at h
    obtain ⟨x, -, T, -, heq⟩ := h
    rw [Prod.mk.injEq] at heq
    rw [← heq.1]
    trivial
  | done => cases h

theorem AllReached.turn (hpos : ∀ x ∈ input, ¬ free x) (hgid : gid < N)
    (hall : AllReached input inputArrSize N result)
    (hp : Passed input inputArrSize gid pc result)
    (h : build_turn input inputArrSize gid pc result = some (pc', result')) :
    AllReached input inputArrSize N result' := by
  intro p x hx hkey
  rcases build_turn_writes hpos h with rfl | ⟨i, hf, y, rfl, hy, hyin, hlt, hset⟩
  · exact hall p x hx hkey
  · by_cases hsame : hf = p
    · -- The slot of the store: its item has passed the slots before it.
      subst hsame
      rw [hset, List.getElem?_set_self hlt, Option.some.injEq] at hx
      rw [← hx]
      obtain ⟨z, j, hi, hz, hj, hhf, hfull⟩ := hp
      rw [hyin, Option.some.injEq] at hz
      rw [← hz] at hhf hfull
      exact ⟨gid, hgid, i, hi, hyin, by omega, by omega, build_turn_full hpos h hfull⟩
    · rw [hset, List.getElem?_set_ne hsame] at hx
      exact (hall p x hx hkey).keep hpos h

theorem build_turn_stable (hpos : ∀ x ∈ input, ¬ free x) (hfit : IndicesFit input inputArrSize N) :
    Stable (build_turn input inputArrSize) (AllReached input inputArrSize N)
      (Passed input inputArrSize) N := by
  intro gid pc result pc' result' hgid hall hp h
  exact ⟨hall.turn hpos hgid hp h, hp.turn hfit hgid h, fun _ _ _ hother => hother.keep hpos h⟩

theorem building_holds (hpos : ∀ x ∈ input, ¬ free x) (hfit : IndicesFit input inputArrSize N)
    (h : (building input inputArrSize N).Reachable s) :
    Holds (AllReached input inputArrSize N) (Passed input inputArrSize) N s := by
  unfold building at h
  refine holds_of_reachable (build_turn_stable hpos hfit) ?_ ?_ h
  · intro result hzeros p x hx hkey
    rw [hzeros x (List.mem_of_getElem? hx)] at hkey
    exact absurd rfl hkey
  · intro result gid _ _
    trivial

theorem building_full (hpos : ∀ x ∈ input, ¬ free x)
    (h : (building input inputArrSize N).Run (fun _ _ => True) s t) {lo hi : Nat}
    (hfull : Full free s.memory lo hi) : Full free t.memory lo hi := by
  refine h.keeps (I := fun u => Full free u.memory lo hi) hfull ?_
  intro u gid v hu _ hstep
  obtain ⟨pc, pc', -, hturn, -⟩ := step_cases hstep
  exact build_turn_full hpos hturn hu

/-- Whatever the order of the loads and stores of the items, each key in the table is a row of an
item, it is at most a slice behind its home with no zero in between, and no slot gets a zero
again. -/
theorem every_key_of_the_table_was_probed_for (hpos : ∀ x ∈ input, x ≠ 0)
    (hfit : IndicesFit input inputArrSize N)
    (h : (building input inputArrSize N).Reachable s) :
    (∀ (p : Nat) x, s.memory[p]? = some x → x ≠ 0 →
      ∃ gid < N, ∃ i < inputArrSize / 96, input[gid * (inputArrSize / 96) + i]? = some x ∧
        x.toNat % (inputArrSize / 96) + gid * (inputArrSize / 96) ≤ p ∧
        p < x.toNat % (inputArrSize / 96) + gid * (inputArrSize / 96) + inputArrSize / 96 ∧
        ∀ q, x.toNat % (inputArrSize / 96) + gid * (inputArrSize / 96) ≤ q → q < p →
          ∃ y, s.memory[q]? = some y ∧ y ≠ 0) ∧
    ∀ t, (building input inputArrSize N).Run (fun _ _ => True) s t →
      ∀ (p : Nat) x, s.memory[p]? = some x → x ≠ 0 → ∃ y, t.memory[p]? = some y ∧ y ≠ 0 := by
  have hfree : ∀ x : Word, ¬ free x ↔ x ≠ 0 := by
    intro x
    unfold free
    rw [not_iff_not]
    exact ⟨fun hx => BitVec.eq_of_toNat_eq hx, fun hx => by rw [hx]; rfl⟩
  have hkeys : ∀ x ∈ input, ¬ free x := fun x hx => (hfree x).mpr (hpos x hx)
  constructor
  · intro p x hx hkey
    obtain ⟨gid, hgid, i, hi, hin, hlo, hhi, hfull⟩ :=
      (building_holds hkeys hfit h).1 p x hx ((hfree x).mpr hkey)
    have hoff : inpOffset inputArrSize gid = gid * (inputArrSize / 96) := Nat.mul_comm _ _
    unfold home at hlo hhi hfull
    rw [hoff, Nat.add_comm (gid * _)] at hlo hhi hfull
    refine ⟨gid, hgid, i, hi, by rw [← hoff, hin], hlo, hhi, ?_⟩
    intro q h1 h2
    obtain ⟨y, hy, hykey⟩ := hfull q h1 h2
    exact ⟨y, hy, (hfree y).mp hykey⟩
  · intro t hrun p x hx hkey
    have hslot : Full free s.memory p (p + 1) := by
      intro q h1 h2
      obtain rfl : q = p := by omega
      exact ⟨x, hx, (hfree x).mpr hkey⟩
    obtain ⟨y, hy, hykey⟩ := building_full hkeys hrun hslot p (Nat.le_refl p) (Nat.lt_succ_self p)
    exact ⟨y, hy, (hfree y).mp hykey⟩

/-- Slots of items whose slices, and one slice more, are numbers of an `unsigned int`. -/
theorem IndicesFit.of_size (input : List Word) (h : inputArrSize / 96 * (N + 1) ≤ 2 ^ 32) :
    IndicesFit input inputArrSize N := by
  intro gid hgid i hi x _ j hj
  have hlt := slot_lt hgid (home_lt inputArrSize x (by omega))
  rw [Nat.mul_succ] at h
  omega

/-- In a table that is long enough, an item that is not done has a turn. -/
theorem an_item_has_a_turn (hpos : ∀ x ∈ input, ¬ free x) (hfit : IndicesFit input inputArrSize N)
    (hinput : inputArrSize / 96 * N ≤ input.length)
    (hlen : inputArrSize / 96 * (N + 1) ≤ s.memory.length)
    (h : (building input inputArrSize N).Reachable s) (hpc : s.items[gid]? = some pc)
    (hdone : pc ≠ .done) : ∃ t, (building input inputArrSize N).step s gid = some t := by
  obtain ⟨-, hitems, hpassed⟩ := building_holds hpos hfit h
  have hgid : gid < N := by
    rw [← hitems]
    exact (List.getElem?_eq_some_iff.mp hpc).1
  rw [Nat.mul_succ] at hlen
  suffices hturn : ∃ pc' T, build_turn input inputArrSize gid pc s.memory = some (pc', T) by
    obtain ⟨pc', T, hturn⟩ := hturn
    exact ⟨_, step_eq _ _ _ hpc hturn⟩
  have hp := hpassed gid pc hpc
  cases pc with
  | row i =>
    by_cases hi : i < inputArrSize / 96
    · have hread := slot_lt hgid hi
      obtain ⟨x, hx⟩ : ∃ x, input[inpOffset inputArrSize gid + i]? = some x :=
        ⟨_, List.getElem?_eq_getElem (by omega)⟩
      exact ⟨_, _, by rw [build_turn, if_pos hi, hx, Option.map_some]⟩
    · exact ⟨_, _, by rw [build_turn, if_neg hi]⟩
  | slot i hf j =>
    obtain ⟨x, hi, hx, hhf, -⟩ := hp
    by_cases hj : j < inputArrSize / 96
    · have hlt := slot_lt hgid (home_lt inputArrSize x (by omega))
      rw [uint_small (hfit gid hgid i hi x hx j hj)] at hhf
      obtain ⟨r, hr⟩ : ∃ r, s.memory[hf]? = some r := ⟨_, List.getElem?_eq_getElem (by omega)⟩
      exact ⟨_, _, by rw [build_turn, if_pos hj, hr, Option.map_some]⟩
    · exact ⟨_, _, by rw [build_turn, if_neg hj]⟩
  | put i hf =>
    obtain ⟨x, j, hi, hx, hj, hhf, -⟩ := hp
    have hlt := slot_lt hgid (home_lt inputArrSize x (by omega))
    exact ⟨_, _, by rw [build_turn, hx, Option.bind_some, store, if_pos (by omega), Option.map_some]⟩
  | done => exact absurd rfl hdone

end turns

/-! ## Items one after the other -/

section alone

variable {input result T : List Word} {inputArrSize N gid : Nat} {items : List build_pc}
variable {s : Launch build_pc (List Word)}

/-- The loop over `j`, turn by turn. -/
theorem build_slot_turns (hgid : gid < items.length) {x : Word} {i hf j n : Nat}
    (hj : j + n = inputArrSize / 96) (hx : input[inpOffset inputArrSize gid + i]? = some x)
    (hrun : (building input inputArrSize N).Run (fun _ _ => True) s
      ⟨result, items.set gid (.slot i hf j)⟩)
    (h : build_slot x n hf result = some T) :
    (building input inputArrSize N).Run (fun _ _ => True) s ⟨T, items.set gid (.row (i + 1))⟩ := by
  induction n generalizing hf j with
  | zero =>
    rw [build_slot, Option.some.injEq] at h
    rw [← h]
    refine own_turn (fun _ => trivial) hgid hrun ?_
    rw [build_turn, if_neg (by omega)]
  | succ n ih =>
    rw [build_slot, Option.bind_eq_some_iff] at h
    obtain ⟨r, hr, hslot⟩ := h
    have hload : build_turn input inputArrSize gid (.slot i hf j) result =
        some (if 0 < r.toNat then .slot i (uint (hf + 1)) (j + 1) else .put i hf, result) := by
      rw [build_turn, if_pos (by omega), hr, Option.map_some]
    have hnext := own_turn (fun _ => trivial) hgid hrun hload
    split at hslot
    case isTrue htaken =>
      rw [if_pos htaken] at hnext
      exact ih (by omega) hnext hslot
    case isFalse hzero =>
      rw [if_neg hzero] at hnext
      refine own_turn (fun _ => trivial) hgid hnext ?_
      rw [build_turn, hx, Option.bind_some, hslot, Option.map_some]

theorem hashBuild_turns (hgid : gid < items.length)
    (hrun : (building input inputArrSize N).Run (fun _ _ => True) s ⟨result, items.set gid (.row 0)⟩)
    (h : hashBuild input inputArrSize result gid = some T) :
    (building input inputArrSize N).Run (fun _ _ => True) s ⟨T, items.set gid .done⟩ := by
  have hrows := keeps (fun pre T => (building input inputArrSize N).Run (fun _ _ => True) s
    ⟨T, items.set gid (.row pre.length)⟩) (by
      intro pre i post T1 T2 hrange hturns hrow
      obtain ⟨rfl, hi⟩ := range_split hrange
      rw [List.length_range] at hturns
      rw [List.length_append, List.length_range, List.length_singleton]
      unfold build_row at hrow
      rw [Option.bind_eq_some_iff] at hrow
      obtain ⟨x, hx, hslot⟩ := hrow
      refine build_slot_turns hgid (Nat.zero_add _) hx ?_ hslot
      refine own_turn (fun _ => trivial) hgid hturns ?_
      rw [build_turn, if_pos hi, hx, Option.map_some]) h hrun
  rw [List.length_range] at hrows
  refine own_turn (fun _ => trivial) hgid hrows ?_
  rw [build_turn, if_neg (Nat.lt_irrefl _)]

/-- A launch whose items run one after the other is one of the runs. -/
theorem a_launch_of_hashBuild_is_a_run {order : List Nat} (horder : order.Perm (List.range N))
    (hzeros : ∀ w ∈ result, w = 0)
    (h : order.foldlM (hashBuild input inputArrSize) result = some T) :
    (building input inputArrSize N).Reachable ⟨T, List.replicate N .done⟩ := by
  have hnodup : order.Nodup := horder.nodup_iff.mpr List.nodup_range
  have hinv := keeps (fun pre T => ∃ items : List build_pc, items.length = N ∧
    (∀ gid < N, items[gid]? = some (if gid ∈ pre then .done else .row 0)) ∧
    (building input inputArrSize N).Run (fun _ _ => True) ⟨result, List.replicate N (.row 0)⟩
      ⟨T, items⟩) (by
    rintro pre gid post T1 T2 hl ⟨items, hlen, hpcs, hrun⟩ hitem
    have hgid : gid < N := List.mem_range.mp (horder.mem_iff.mp (by simp [hl]))
    have hnot : gid ∉ pre := not_before hnodup hl
    have hpc := hpcs gid hgid
    rw [if_neg hnot] at hpc
    obtain ⟨hlt, hget⟩ := List.getElem?_eq_some_iff.mp hpc
    have hsame : items.set gid (.row 0) = items := by rw [← hget, List.set_getElem_self]
    refine ⟨items.set gid .done, by rw [List.length_set, hlen], ?_, ?_⟩
    · intro gid' hgid'
      by_cases heq : gid = gid'
      · subst heq
        rw [List.getElem?_set_self hlt, if_pos (by simp)]
      · rw [List.getElem?_set_ne heq, hpcs gid' hgid']
        simp [Ne.symm heq]
    · exact hashBuild_turns hlt (by rwa [hsame]) hitem) h
    ⟨List.replicate N (.row 0), List.length_replicate, by
      intro gid hgid
      rw [List.getElem?_replicate, if_pos hgid]
      simp, .refl⟩
  obtain ⟨items, hlen, hpcs, hrun⟩ := hinv
  have hdone : items = List.replicate N .done := by
    apply List.ext_getElem?
    intro gid
    rcases Nat.lt_or_ge gid N with hgid | hgid
    · rw [hpcs gid hgid, if_pos (horder.mem_iff.mpr (List.mem_range.mpr hgid)),
        List.getElem?_replicate, if_pos hgid]
    · rw [List.getElem?_eq_none (by omega), List.getElem?_replicate, if_neg (by omega)]
  rw [hdone] at hrun
  exact ⟨_, ⟨hzeros, rfl⟩, hrun⟩

end alone

/-- Two items that put their keys into the same slot: the second store overwrites the first. -/
theorem every_key_was_probed_for_after_a_lost_key :
    (∀ (p : Nat) x, ([0, 1, 2, 0, 0, 0] : List Word)[p]? = some x → x ≠ 0 →
      ∃ gid < 2, ∃ i < 192 / 96, ([1, 1, 2, 2] : List Word)[gid * (192 / 96) + i]? = some x ∧
        x.toNat % (192 / 96) + gid * (192 / 96) ≤ p ∧
        p < x.toNat % (192 / 96) + gid * (192 / 96) + 192 / 96 ∧
        ∀ q, x.toNat % (192 / 96) + gid * (192 / 96) ≤ q → q < p →
          ∃ y, ([0, 1, 2, 0, 0, 0] : List Word)[q]? = some y ∧ y ≠ 0) ∧
    ∀ t, (building [1, 1, 2, 2] 192 2).Run (fun _ _ => True)
        ⟨[0, 1, 2, 0, 0, 0], [.row 2, .row 1]⟩ t →
      ∀ (p : Nat) x, ([0, 1, 2, 0, 0, 0] : List Word)[p]? = some x → x ≠ 0 →
        ∃ y, t.memory[p]? = some y ∧ y ≠ 0 := by
  have hrun : (building [1, 1, 2, 2] 192 2).exec
      ⟨List.replicate 6 0, List.replicate 2 (.row 0)⟩ [0, 0, 0, 0, 0, 1, 1, 0, 0, 1] =
        some ⟨[0, 1, 2, 0, 0, 0], [.row 2, .row 1]⟩ := by rfl
  have hreach : (building [1, 1, 2, 2] 192 2).Reachable
      ⟨[0, 1, 2, 0, 0, 0], [.row 2, .row 1]⟩ :=
    ⟨_, ⟨fun _ hw => List.eq_of_mem_replicate hw, rfl⟩, System.run_of_exec hrun⟩
  exact every_key_of_the_table_was_probed_for (by simp) (IndicesFit.of_size _ (by omega)) hreach

end hero.kernels
