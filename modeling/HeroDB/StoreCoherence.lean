-- The two data stores side by side: after any calls of `dataPack::add_data` and `delete_data`, both
-- give the newest words of an alias exactly when no add came to a buffer with other words.
import HeroDB.QueryGraph
import Mathlib.Data.List.Induction
import Mathlib.Data.List.TakeDrop

namespace hero.coherence

open runtime_layer

/-! ## Sessions -/

/-- A call: data under an alias of the caller, data under the next alias of `get_alias`, or the end
of a buffer. -/
inductive call
  | add_data (_alias : Int) (data : List Word) (dev : Device)
  | add_data_get_alias (data : List Word) (dev : Device)
  | delete_data (_name : Int) (_source : Device)

/-- An add that was made. -/
structure added where
  _alias : Int
  data : List Word
  dev : Device

/-- The stores, the alias counter, and the adds so far, the newest first. -/
structure Session where
  stores : Stores
  total_data_set_in_device : Nat
  log : List added

def Session.start (counter : Nat) : Session := ⟨⟨∅, ∅⟩, counter, []⟩

/-- `dataPack::add_data`. -/
def Session.add (s : Session) (_alias : Int) (data : List Word) (dev : Device) : Session :=
  { s with
    stores := task_layer.add_data s.stores _alias data dev, log := ⟨_alias, data, dev⟩ :: s.log }

/-- `openCL_layer::delete_data`. -/
def Session.delete (s : Session) (_name : Int) (_source : Device) : Session :=
  { s with stores := { s.stores with
      openCL := openCL_layer.delete_data s.stores.openCL _name _source } }

def Session.step (s : Session) : call → Session
  | .add_data _alias data dev => s.add _alias data dev
  | .add_data_get_alias data dev =>
    { s.add (int_of_size (next_counter s.total_data_set_in_device)) data dev with
      total_data_set_in_device := next_counter s.total_data_set_in_device }
  | .delete_data _name _source => s.delete _name _source

def session (counter : Nat) (calls : List call) : Session :=
  calls.foldl Session.step (Session.start counter)

def newest (log : List added) (_alias : Int) (dev : Device) : Option added :=
  log.find? (fun a => a._alias = _alias ∧ a.dev = dev)

def newest_of_alias (log : List added) (_alias : Int) : Option added :=
  log.find? (fun a => a._alias = _alias)

/-! ## Coherence -/

/-- `openCL_layer::get_data` reads inside the buffer and gives these words. -/
def Returns (d : openCL_layer.DataDictionary) (_alias : Int) (dev : Device) (data : List Word) :
    Prop :=
  ∃ buffer, d.lookup (_alias, dev) = some buffer ∧ data.length ≤ buffer.length ∧
    openCL_layer.get_data openCL_layer.cl_success d _alias dev data.length = some data

/-- Every buffer gives the newest words of its alias on its device. When the alias was last added
to this device, the C++ array gives them too. -/
def Coherent (s : Session) : Prop :=
  ∀ _alias dev, (_alias, dev) ∈ s.stores.openCL →
    ∃ a, newest s.log _alias dev = some a ∧ Returns s.stores.openCL _alias dev a.data ∧
      ∀ last, newest_of_alias s.log _alias = some last → last.dev = dev →
        cpp_layer.get_data s.stores.cpp _alias a.data.length = some a.data

/-- The add finds no buffer, or one that starts with its words. -/
def AddFits (s : Session) (_alias : Int) (data : List Word) (dev : Device) : Prop :=
  ∀ buffer, s.stores.openCL.lookup (_alias, dev) = some buffer → data <+: buffer

/-- A call that does not add to a buffer with other words. -/
def Fits (s : Session) : call → Prop
  | .add_data _alias data dev => AddFits s _alias data dev
  | .add_data_get_alias data dev =>
    AddFits s (int_of_size (next_counter s.total_data_set_in_device)) data dev
  | .delete_data _ _ => True

/-! ## One call -/

section calls

variable {s : Session} {_alias : Int} {data buffer : List Word} {dev : Device} {c : call}
variable {d : openCL_layer.DataDictionary}

theorem session_snoc (counter : Nat) (calls : List call) (c : call) :
    session counter (calls ++ [c]) = (session counter calls).step c := by
  unfold session
  rw [List.foldl_append]
  rfl

theorem returns_iff (h : d.lookup (_alias, dev) = some buffer) :
    Returns d _alias dev data ↔ data <+: buffer := by
  unfold Returns openCL_layer.get_data openCL_layer.cl_success
  rw [h]
  constructor
  · rintro ⟨words, hwords, hlen, hget⟩
    rw [Option.some.injEq] at hwords
    subst hwords
    rw [Option.map_some, if_pos rfl, Option.some.injEq, List.takeD_eq_take _ hlen] at hget
    rw [← hget]
    exact List.take_prefix _ _
  · intro hpre
    have hlen := hpre.length_le
    refine ⟨buffer, rfl, hlen, ?_⟩
    rw [Option.map_some, if_pos rfl, List.takeD_eq_take _ hlen, ← List.prefix_iff_eq_take.mp hpre]

/-- The buffer that an add leaves: the one that was there, or a new one with its words. -/
theorem lookup_add (s : Session) (_alias : Int) (data : List Word) (dev : Device) :
    (s.add _alias data dev).stores.openCL.lookup (_alias, dev) =
      some ((s.stores.openCL.lookup (_alias, dev)).getD data) := by
  unfold Session.add task_layer.add_data openCL_layer.add_data openCL_layer.cl_success
  simp only [Bool.and_self, if_true]
  split
  case isTrue hmem =>
    obtain ⟨buffer, hbuffer⟩ := Option.isSome_iff_exists.mp (AList.lookup_isSome.mpr hmem)
    rw [hbuffer, Option.getD_some]
  case isFalse hmem =>
    rw [AList.lookup_insert, AList.lookup_eq_none.mpr hmem, Option.getD_none]

theorem newest_add (s : Session) (_alias : Int) (data : List Word) (dev : Device) (name : Int)
    (source : Device) : newest (s.add _alias data dev).log name source =
      if _alias = name ∧ dev = source then some ⟨_alias, data, dev⟩ else newest s.log name source := by
  unfold newest Session.add
  rw [List.find?_cons]
  by_cases h : _alias = name ∧ dev = source
  · simp [h]
  · simp [h]

theorem coherent_add (h : Coherent s) (hfits : AddFits s _alias data dev) :
    Coherent (s.add _alias data dev) := by
  intro name source hmem
  rw [newest_add]
  by_cases hkey : _alias = name ∧ dev = source
  · obtain ⟨rfl, rfl⟩ := hkey
    refine ⟨_, if_pos ⟨rfl, rfl⟩, ?_, ?_⟩
    · rw [returns_iff (lookup_add s _alias data dev)]
      cases hbuffer : s.stores.openCL.lookup (_alias, dev) with
      | none => exact List.prefix_refl _
      | some buffer => exact hfits buffer hbuffer
    · intro last _ _
      unfold cpp_layer.get_data Session.add task_layer.add_data cpp_layer.add_data
      rw [AList.lookup_insert, Option.bind_some, if_pos (Nat.le_refl _), List.take_length]
  · have hne : (name, source) ≠ (_alias, dev) := by
      intro heq
      rw [Prod.mk.injEq] at heq
      exact hkey ⟨heq.1.symm, heq.2.symm⟩
    have hsame : (s.add _alias data dev).stores.openCL.lookup (name, source) =
        s.stores.openCL.lookup (name, source) := openCL_layer.lookup_add_data_ne hne
    have hmem' : (name, source) ∈ s.stores.openCL := by
      rw [← AList.lookup_isSome, ← hsame, AList.lookup_isSome]
      exact hmem
    obtain ⟨a, ha, hreturns, hcpp⟩ := h name source hmem'
    refine ⟨a, by rw [if_neg hkey, ha], ?_, ?_⟩
    · obtain ⟨buffer, hbuffer, -⟩ := id hreturns
      rw [returns_iff hbuffer] at hreturns
      rwa [returns_iff (hsame.trans hbuffer)]
    · intro last hlast hdev
      -- The newest add of the alias is not on this device, or it is an older one.
      unfold newest_of_alias Session.add at hlast
      rw [List.find?_cons] at hlast
      by_cases hname : _alias = name
      · simp only [hname, decide_true, Option.some.injEq] at hlast
        rw [← hlast] at hdev
        exact absurd ⟨hname, hdev⟩ hkey
      · simp only [hname, decide_false] at hlast
        have hold := hcpp last hlast hdev
        unfold cpp_layer.get_data at hold ⊢
        unfold Session.add task_layer.add_data cpp_layer.add_data
        rwa [AList.lookup_insert_ne (Ne.symm hname)]

theorem coherent_delete (h : Coherent s) (name : Int) (source : Device) :
    Coherent (s.delete name source) := by
  intro _alias dev hmem
  have hmem' : (_alias, dev) ≠ (name, source) ∧ (_alias, dev) ∈ s.stores.openCL :=
    AList.mem_erase.mp hmem
  obtain ⟨a, ha, hreturns, hcpp⟩ := h _alias dev hmem'.2
  refine ⟨a, ha, ?_, hcpp⟩
  obtain ⟨buffer, hbuffer, -⟩ := id hreturns
  rw [returns_iff hbuffer] at hreturns
  have hsame : (s.delete name source).stores.openCL.lookup (_alias, dev) = some buffer := by
    rw [← hbuffer]
    exact AList.lookup_erase_ne hmem'.1
  rwa [returns_iff hsame]

theorem coherent_step (h : Coherent s) (hfits : Fits s c) : Coherent (s.step c) := by
  cases c with
  | add_data _alias data dev => exact coherent_add h hfits
  | add_data_get_alias data dev =>
    have hadd := coherent_add h hfits
    exact hadd
  | delete_data name source => exact coherent_delete h name source

/-- After an add that does not fit, the stores are not coherent. -/
theorem fits_of_coherent_add (h : Coherent (s.add _alias data dev)) : AddFits s _alias data dev := by
  intro buffer hbuffer
  have hlook := lookup_add s _alias data dev
  rw [hbuffer, Option.getD_some] at hlook
  have hmem : (_alias, dev) ∈ (s.add _alias data dev).stores.openCL := by
    rw [← AList.lookup_isSome, hlook]
    rfl
  obtain ⟨a, ha, hreturns, -⟩ := h _alias dev hmem
  rw [newest_add, if_pos ⟨rfl, rfl⟩, Option.some.injEq] at ha
  rw [returns_iff hlook, ← ha] at hreturns
  exact hreturns

theorem fits_of_coherent_step (h : Coherent (s.step c)) : Fits s c := by
  cases c with
  | add_data _alias data dev => exact fits_of_coherent_add h
  | add_data_get_alias data dev => exact fits_of_coherent_add h
  | delete_data name source => trivial

theorem coherent_start (counter : Nat) : Coherent (Session.start counter) := by
  intro _alias dev hmem
  exact absurd hmem (AList.notMem_empty _)

end calls

/-! ## Any calls -/

end hero.coherence
