-- Clearing the data dictionaries, with the iterators of their loops. `clear_data` of the OpenCL layer
-- advances an iterator whose element `delete_data` has erased; that of the C++ layer does not.
import Mathlib.Data.Prod.Lex
import HeroDB.DataInterface
import HeroDB.Lib.MapIterators
import HeroDB.Lib.Transition

namespace hero.openCL_layer

open map_iterators transition System

section buffers

variable (cl_device_id cl_mem : Type)

/-- The keys of `mDataDictionary`. Pairs are ordered by their first components and then by their
second ones, the addresses of the devices. -/
abbrev data_key : Type := Int ×ₗ cl_device_id

/-- `mDataDictionary` as the loops see it: the handle of each buffer. -/
abbrev Buffers [LinearOrder cl_device_id] : Type := AList (fun _ : data_key cl_device_id => cl_mem)

/-- The dictionary, and the buffers that `clReleaseMemObject` was called with. -/
structure DataState [LinearOrder cl_device_id] where
  mDataDictionary : Buffers cl_device_id cl_mem
  released : List cl_mem

end buffers

variable {cl_device_id cl_mem : Type} [LinearOrder cl_device_id]

/-! ## The loop of `delete_data` -/

/-- Where `delete_data` is, with its iterator. -/
inductive DeletePc (cl_device_id : Type)
  | count
  | release
  | test (_iter : Option (data_key cl_device_id))
  | compare (_iter : data_key cl_device_id)
  | erase (_iter : data_key cl_device_id)
  | advance (_iter : data_key cl_device_id)
  | returned

/-- One step of `delete_data`. It has no result where the code uses an iterator without an
element. -/
def delete_data_step (_name : Int) (_source : cl_device_id) (pc : DeletePc cl_device_id)
    (s : DataState cl_device_id cl_mem) :
    Option (DeletePc cl_device_id × DataState cl_device_id cl_mem) :=
  let key := toLex (_name, _source)
  match pc with
  | .count => some (if key ∈ s.mDataDictionary then .release else .returned, s)
  | .release => (s.mDataDictionary.lookup key).map (fun buffer =>
      (.test (first s.mDataDictionary), { s with released := s.released ++ [buffer] }))
  | .test none => some (.returned, s)
  | .test (some _iter) => some (.compare _iter, s)
  | .compare _iter =>
    if _iter ∈ s.mDataDictionary then
      some (if _iter = key then .erase _iter else .advance _iter, s)
    else none
  | .erase _iter =>
    if _iter ∈ s.mDataDictionary then
      some (.returned, { s with mDataDictionary := s.mDataDictionary.erase _iter })
    else none
  | .advance _iter => (advance s.mDataDictionary _iter).map (fun _iter => (.test _iter, s))
  | .returned => none

def deleting (_name : Int) (_source : cl_device_id) (s : DataState cl_device_id cl_mem) :
    System (DeletePc cl_device_id × DataState cl_device_id cl_mem) Unit where
  init t := t = (.count, s)
  step t _ := delete_data_step _name _source t.1 t.2

/-- The call releases the buffer of the key and erases its entry. -/
theorem delete_data_erases {_name : Int} {_source : cl_device_id} {buffer : cl_mem}
    {s : DataState cl_device_id cl_mem}
    (h : s.mDataDictionary.lookup (toLex (_name, _source)) = some buffer) :
    (deleting _name _source s).Run (fun _ _ => True) (.count, s)
      (.returned, ⟨s.mDataDictionary.erase (toLex (_name, _source)), s.released ++ [buffer]⟩) := by
  have hmem : toLex (_name, _source) ∈ s.mDataDictionary := by
    rw [← AList.lookup_isSome, h]
    rfl
  have hrelease : (deleting _name _source s).Run (fun _ _ => True) (.count, s) (.release, s) := by
    apply run_on .refl
    simp only [deleting, delete_data_step, if_pos hmem]
  have hfound : (deleting _name _source s).Run (fun _ _ => True) (.count, s)
      (.test (some (toLex (_name, _source))), ⟨s.mDataDictionary, s.released ++ [buffer]⟩) := by
    -- the inner loop passes the smaller keys and stops at the one that it looks for
    refine loop_to_key (P := fun it => (deleting _name _source s).Run (fun _ _ => True)
      (.count, s) (.test it, ⟨s.mDataDictionary, s.released ++ [buffer]⟩)) hmem ?_ ?_
    · apply run_on hrelease
      simp only [deleting, delete_data_step, h, Option.map_some]
    · intro k hk hlt hrun
      have hcompare : (deleting _name _source s).Run (fun _ _ => True) (.count, s)
          (.advance k, ⟨s.mDataDictionary, s.released ++ [buffer]⟩) := by
        apply run_on (run_on hrun rfl)
        simp only [deleting, delete_data_step, if_pos hk, if_neg (ne_of_lt hlt)]
      apply run_on hcompare
      simp only [deleting, delete_data_step, advance, if_pos hk, Option.map_some]
  have herase : (deleting _name _source s).Run (fun _ _ => True) (.count, s)
      (.erase (toLex (_name, _source)), ⟨s.mDataDictionary, s.released ++ [buffer]⟩) := by
    apply run_on (run_on hfound rfl)
    simp only [deleting, delete_data_step, if_pos hmem, if_true]
  apply run_on herase
  simp only [deleting, delete_data_step, if_pos hmem]

theorem delete_data_of_absent {_name : Int} {_source : cl_device_id}
    {s : DataState cl_device_id cl_mem} (h : toLex (_name, _source) ∉ s.mDataDictionary) :
    (deleting _name _source s).Run (fun _ _ => True) (.count, s) (.returned, s) := by
  apply run_on .refl
  simp only [deleting, delete_data_step, if_neg h]

/-- The dictionary of the stores, whose devices are ordered by their platforms, and that of the
loops. -/
def Agree (d : DataDictionary) (m : Buffers (Nat ×ₗ Nat) (List Word)) : Prop :=
  ∀ _name dev, m.lookup (toLex (_name, toLex dev)) = d.lookup (_name, dev)

/-- The loop of `delete_data` does what the stores say of it. -/
theorem delete_data_refines {d : DataDictionary} {s : DataState (Nat ×ₗ Nat) (List Word)}
    (h : Agree d s.mDataDictionary) (_name : Int) (_source : Device) :
    ∃ s', (deleting _name (toLex _source) s).Run (fun _ _ => True) (.count, s) (.returned, s') ∧
      Agree (delete_data d _name _source) s'.mDataDictionary := by
  unfold delete_data
  cases hlook : s.mDataDictionary.lookup (toLex (_name, toLex _source)) with
  | none =>
    refine ⟨s, delete_data_of_absent (AList.lookup_eq_none.mp hlook), fun _name' dev => ?_⟩
    by_cases hkey : (_name', dev) = (_name, _source)
    · cases hkey
      rw [hlook, AList.lookup_erase]
    · rw [AList.lookup_erase_ne hkey]
      exact h _name' dev
  | some buffer =>
    refine ⟨_, delete_data_erases hlook, fun _name' dev => ?_⟩
    by_cases hkey : (_name', dev) = (_name, _source)
    · cases hkey
      rw [AList.lookup_erase, AList.lookup_erase]
    · have hkey' : toLex (_name', toLex dev) ≠ toLex (_name, toLex _source) := hkey
      rw [AList.lookup_erase_ne hkey, AList.lookup_erase_ne hkey']
      exact h _name' dev

/-! ## The loop of `clear_data` -/

/-- Where `clear_data` is, with its iterator, and with the call of `delete_data` that it waits
for. -/
inductive ClearPc (cl_device_id : Type)
  | test (_iter : Option (data_key cl_device_id))
  | delete (_iter : data_key cl_device_id) (_name : Int) (_source : cl_device_id)
      (pc : DeletePc cl_device_id)
  | advance (_iter : data_key cl_device_id)
  | clear
  | finished

def clear_data_step (pc : ClearPc cl_device_id) (s : DataState cl_device_id cl_mem) :
    Option (ClearPc cl_device_id × DataState cl_device_id cl_mem) :=
  match pc with
  | .test none => some (.clear, s)
  | .test (some _iter) =>
    if _iter ∈ s.mDataDictionary then
      some (.delete _iter (ofLex _iter).1 (ofLex _iter).2 .count, s)
    else none
  | .delete _iter _ _ .returned => some (.advance _iter, s)
  | .delete _iter _name _source pc =>
    (delete_data_step _name _source pc s).map (fun t => (.delete _iter _name _source t.1, t.2))
  | .advance _iter => (advance s.mDataDictionary _iter).map (fun _iter => (.test _iter, s))
  | .clear => some (.finished, { s with mDataDictionary := ∅ })
  | .finished => none

/-- A call of `clear_data` on a dictionary. -/
def clear_data (d : Buffers cl_device_id cl_mem) :
    System (ClearPc cl_device_id × DataState cl_device_id cl_mem) Unit where
  init t := t = (.test (first d), ⟨d, []⟩)
  step t _ := clear_data_step t.1 t.2

def ClearPc.advances : ClearPc cl_device_id → Option (data_key cl_device_id)
  | .advance _iter | .delete _ _ _ (.advance _iter) => some _iter
  | _ => none

/-- The call ends, it has released each buffer once and left the dictionary empty, and it never
advances an iterator whose element is gone. -/
structure ClearsOnce (d : Buffers cl_device_id cl_mem) : Prop where
  ends : ∃ s : DataState cl_device_id cl_mem, (clear_data d).Reachable (.finished, s) ∧
    s.released.Perm (d.entries.map (·.2)) ∧ s.mDataDictionary = ∅
  valid : ∀ pc s, (clear_data d).Reachable (pc, s) →
    ∀ _iter, pc.advances = some _iter → _iter ∈ s.mDataDictionary

variable {d : Buffers cl_device_id cl_mem}

theorem delete_run {_iter : data_key cl_device_id} {_name : Int} {_source : cl_device_id}
    {s : DataState cl_device_id cl_mem} {t u : DeletePc cl_device_id × DataState cl_device_id cl_mem}
    (h : (deleting _name _source s).Run (fun _ _ => True) t u) :
    (clear_data d).Run (fun _ _ => True) (.delete _iter _name _source t.1, t.2)
      (.delete _iter _name _source u.1, u.2) := by
  induction h with
  | refl => exact .refl
  | @snoc u v a _ _ hstep ih =>
    obtain ⟨pc, x⟩ := u
    apply run_on ih
    change delete_data_step _name _source pc x = some v at hstep
    change clear_data_step (.delete _iter _name _source pc) x = _
    cases pc with
    | returned => cases hstep
    | _ => simp only [clear_data_step, hstep, Option.map_some]

/-- The first turn of the loop erases the element of its iterator. -/
theorem clear_data_erases (hd : d ≠ ∅) : ∃ _iter buffer, _iter ∈ d ∧
    (clear_data d).Reachable (.advance _iter, ⟨d.erase _iter, [buffer]⟩) := by
  obtain ⟨k, hk⟩ := Option.ne_none_iff_exists'.mp (fun hnone => hd (first_eq_none.mp hnone))
  have hmem : k ∈ d := first_mem hk
  obtain ⟨buffer, hbuffer⟩ := Option.isSome_iff_exists.mp (AList.lookup_isSome.mpr hmem)
  refine ⟨k, buffer, hmem, (.test (first d), ⟨d, []⟩), rfl, ?_⟩
  have hcall : (clear_data d).Run (fun _ _ => True) (.test (first d), ⟨d, []⟩)
      (.delete k (ofLex k).1 (ofLex k).2 .count, ⟨d, []⟩) := by
    apply run_on .refl
    simp only [clear_data, clear_data_step, hk, if_pos hmem]
  have hreturned : (clear_data d).Run (fun _ _ => True) (.test (first d), ⟨d, []⟩)
      (.delete k (ofLex k).1 (ofLex k).2 .returned, ⟨d.erase k, [buffer]⟩) :=
    hcall.trans (delete_run (delete_data_erases (s := ⟨d, []⟩) hbuffer))
  exact run_on hreturned rfl

theorem clear_data_of_empty : ClearsOnce (∅ : Buffers cl_device_id cl_mem) := by
  have hfirst : first (∅ : Buffers cl_device_id cl_mem) = none := first_eq_none.mpr rfl
  refine ⟨⟨⟨∅, []⟩, ⟨(.test (first ∅), ⟨∅, []⟩), rfl, ?_⟩, .refl _, rfl⟩, fun pc s h => ?_⟩
  · rw [hfirst]
    exact run_on (run_on .refl rfl) rfl
  · suffices hpc : pc = .test none ∨ pc = .clear ∨ pc = .finished by
      rintro k hk
      rcases hpc with rfl | rfl | rfl <;> cases hk
    refine h.invariant (I := fun t => t.1 = .test none ∨ t.1 = .clear ∨ t.1 = .finished) ?_ ?_
    · rintro t rfl
      exact .inl (congrArg ClearPc.test hfirst)
    · rintro ⟨pc, s⟩ a u (rfl | rfl | rfl) hstep
      · cases hstep
        exact .inr (.inl rfl)
      · cases hstep
        exact .inr (.inr rfl)
      · cases hstep

/-- `clear_data` keeps its iterator valid if and only if there is nothing to clear: each element
is erased before the iterator goes on from it. -/
theorem clears_once_iff (d : Buffers cl_device_id cl_mem) : ClearsOnce d ↔ d = ∅ := by
  constructor
  · intro h
    by_contra hd
    obtain ⟨k, buffer, -, hreach⟩ := clear_data_erases hd
    have hmem : k ∈ d.erase k := h.valid (.advance k) _ hreach k rfl
    exact (AList.mem_erase.mp hmem).1 rfl
  · rintro rfl
    exact clear_data_of_empty

theorem one_buffer_is_not_cleared :
    ¬ClearsOnce (AList.singleton (toLex (1, 0)) 7 : Buffers Nat Nat) := by
  intro h
  have hsome : (AList.singleton (toLex (1, 0)) 7 : Buffers Nat Nat) ≠ ∅ := by
    intro habsurd
    cases congrArg AList.entries habsurd
  obtain ⟨k, buffer, -, hreach⟩ := clear_data_erases hsome
  have hmem := h.valid (.advance k) _ hreach k rfl
  exact (AList.mem_erase.mp hmem).1 rfl

end hero.openCL_layer

namespace hero.cpp_layer

open map_iterators transition System

/-! ## The C++ layer -/

/-- Where `clear_data` of the C++ layer is, with its iterator. -/
inductive ClearPc
  | test (_iter : Option Int)
  | delete (_iter : Int)
  | advance (_iter : Int)
  | clear
  | finished

/-- The dictionary with its pointers, and the pointers that were deleted. -/
structure DataState (pointer : Type) where
  mDataDictionary : AList (fun _ : Int => pointer)
  deleted : List pointer

variable {pointer : Type}

def clear_data_step (pc : ClearPc) (s : DataState pointer) :
    Option (ClearPc × DataState pointer) :=
  match pc with
  | .test none => some (.clear, s)
  | .test (some _iter) => some (.delete _iter, s)
  | .delete _iter => (s.mDataDictionary.lookup _iter).map (fun data =>
      (.advance _iter, { s with deleted := s.deleted ++ [data] }))
  | .advance _iter => (advance s.mDataDictionary _iter).map (fun _iter => (.test _iter, s))
  | .clear => some (.finished, { s with mDataDictionary := ∅ })
  | .finished => none

def clear_data (d : AList (fun _ : Int => pointer)) : System (ClearPc × DataState pointer) Unit where
  init t := t = (.test (first d), ⟨d, []⟩)
  step t _ := clear_data_step t.1 t.2

def ClearPc.at : ClearPc → Option Int
  | .test _iter => _iter
  | .delete _iter | .advance _iter => some _iter
  | _ => none

variable {d : AList (fun _ : Int => pointer)}

/-- The loop erases nothing, so that its iterator stays valid. -/
theorem iterator_stays {t : ClearPc × DataState pointer} (h : (clear_data d).Reachable t) :
    ∀ _iter, t.1.at = some _iter → _iter ∈ t.2.mDataDictionary := by
  refine h.invariant (I := fun t => ∀ k, t.1.at = some k → k ∈ t.2.mDataDictionary) ?_ ?_
  · rintro t rfl k hk
    exact first_mem hk
  · rintro ⟨pc, s⟩ a u hvalid hstep k hk
    change clear_data_step pc s = some u at hstep
    cases pc with
    | test it =>
      cases it with
      | none =>
        cases hstep
        cases hk
      | some j =>
        cases hstep
        exact hvalid k hk
    | delete j =>
      obtain ⟨data, -, rfl⟩ := Option.map_eq_some_iff.mp hstep
      exact hvalid k hk
    | advance j =>
      obtain ⟨it, hit, rfl⟩ := Option.map_eq_some_iff.mp hstep
      unfold advance at hit
      split at hit
      · cases hit
        exact next_mem hk
      · cases hit
    | clear =>
      cases hstep
      cases hk
    | finished => cases hstep

/-- The loop of the C++ layer, which leaves the entries to `map::clear`, releases each array once
and keeps its iterator valid, whatever the dictionary holds. -/
theorem clear_data_releases_once (d : AList (fun _ : Int => pointer)) :
    (∃ s : DataState pointer, (clear_data d).Reachable (.finished, s) ∧
      s.deleted.Perm (d.entries.map (·.2)) ∧ s.mDataDictionary = ∅) ∧
    ∀ pc s, (clear_data d).Reachable (pc, s) →
      ∀ _iter, pc = .advance _iter → _iter ∈ s.mDataDictionary := by
  refine ⟨⟨⟨∅, (keys_in_order d).filterMap d.lookup⟩, ⟨(.test (first d), ⟨d, []⟩), rfl, ?_⟩, ?_,
    rfl⟩, fun pc s h k hk => iterator_stays h k (by rw [hk]; rfl)⟩
  · have hloop : (clear_data d).Run (fun _ _ => True) (.test (first d), ⟨d, []⟩)
        (.test none, ⟨d, (keys_in_order d).filterMap d.lookup⟩) := by
      refine loop_to_end (P := fun met it => (clear_data d).Run (fun _ _ => True)
        (.test (first d), ⟨d, []⟩) (.test it, ⟨d, met.filterMap d.lookup⟩)) .refl ?_
      intro met k hk hrun
      obtain ⟨data, hdata⟩ := Option.isSome_iff_exists.mp (AList.lookup_isSome.mpr hk)
      have hone : [k].filterMap (fun k => d.lookup k) = [data] := by
        simp only [List.filterMap_cons, hdata, List.filterMap_nil]
      have hdelete : (clear_data d).Run (fun _ _ => True) (.test (first d), ⟨d, []⟩)
          (.advance k, ⟨d, (met ++ [k]).filterMap d.lookup⟩) := by
        apply run_on (run_on hrun rfl)
        simp only [clear_data, clear_data_step, hdata, Option.map_some, List.filterMap_append, hone]
      apply run_on hdelete
      simp only [clear_data, clear_data_step, advance, if_pos hk, Option.map_some]
    exact run_on (run_on hloop rfl) rfl
  · exact values_in_order_perm d

end hero.cpp_layer
