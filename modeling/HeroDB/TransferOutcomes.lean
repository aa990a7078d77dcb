-- The transfers whose calls can fail: `transfer_data` deletes the source whatever the add returned,
-- so the data is lost where the add failed, where it took too few words along, where the target held
-- other words under that alias, and where the target is the source.
import HeroDB.DataInterface
import Mathlib.Data.List.TakeDrop

namespace hero.openCL_layer

/-! ## The laws -/

/-- The device has a buffer of the alias that starts with the words. -/
def Holds (d : DataDictionary) (_name : Int) (dev : Device) (words : List Word) : Prop :=
  ∃ buffer, d.lookup (_name, dev) = some buffer ∧ words <+: buffer

/-- After a transfer the array of `get_data` has held all words that went through it, one of the two
devices has all the words that the source had, an alias that could move is on the target, the other
aliases are as they were, and an add that failed leaves the source alone. -/
structure KeepsData (o : cl_outcome) (d : DataDictionary) (_name : Int) (src tar : Device)
    (_size : Nat) (words : List Word) (d' : DataDictionary) : Prop where
  array : _size ≤ calloc_size _size
  readable : Holds d' _name src words ∨ Holds d' _name tar words
  moved : o = cl_success → (_name, tar) ∈ d'
  others : ∀ key : Int × Device, key.1 ≠ _name → d'.lookup key = d.lookup key
  untouched : ∀ data, get_data o d _name src _size = some data →
    (add_data o d _name data tar).1 = 0 → d'.lookup (_name, src) = d.lookup (_name, src)

/-- The transfers that lose nothing: to another device, with a buffer that was created and written
there, of a size that `calloc` takes. Where the target has no entry, the size takes all words along,
and they were read or are all zero; where it has one, that starts with the words already. -/
structure Transferable (o : cl_outcome) (d : DataDictionary) (_name : Int) (src tar : Device)
    (_size : Nat) (words : List Word) : Prop where
  elsewhere : src ≠ tar
  created : o.create = true
  written : o.write = true
  small : _size < 2 ^ 32
  absent : (_name, tar) ∉ d →
    words.length ≤ _size ∧ (o.read = true ∨ words = List.replicate words.length 0)
  present : (_name, tar) ∈ d → Holds d _name tar words

section transfer

variable {o : cl_outcome} {d : DataDictionary} {_name : Int} {src tar : Device} {_size : Nat}
  {data words : List Word}

/-! ## What a transfer leaves -/

theorem add_data_failed (h : ¬ (o.create = true ∧ o.write = true)) :
    add_data o d _name data tar = (0, d) := by
  unfold add_data
  rw [if_neg (by simpa using h)]

theorem add_data_present (h : (_name, tar) ∈ d) : (add_data o d _name data tar).2 = d := by
  unfold add_data
  rw [if_pos h]
  split
  · rfl
  · rfl

theorem add_data_absent (hc : o.create = true) (hw : o.write = true) (h : (_name, tar) ∉ d) :
    add_data o d _name data tar = (1, d.insert (_name, tar) data) := by
  simp [add_data, hc, hw, h]

theorem add_data_others {key : Int × Device} (h : key.1 ≠ _name) :
    (add_data o d _name data tar).2.lookup key = d.lookup key := by
  have hkey : key ≠ (_name, tar) := fun heq => h (congrArg Prod.fst heq)
  unfold add_data
  split
  · split
    · rfl
    · exact AList.lookup_insert_ne hkey
  · rfl

theorem not_holds_deleted (d : DataDictionary) (words : List Word) :
    ¬ Holds (delete_data d _name src) _name src words := by
  rintro ⟨buffer, hbuffer, -⟩
  rw [delete_data, AList.lookup_erase] at hbuffer
  cases hbuffer

/-- A delete on the source leaves the entry of another device. -/
theorem holds_elsewhere (d : DataDictionary) (h : src ≠ tar) :
    Holds (delete_data d _name src) _name tar words ↔ Holds d _name tar words := by
  have hkey : (_name, tar) ≠ (_name, src) := fun heq => h (congrArg Prod.snd heq).symm
  unfold Holds delete_data
  rw [AList.lookup_erase_ne hkey]

theorem holds_inserted (d : DataDictionary) :
    Holds (d.insert (_name, tar) data) _name tar words ↔ words <+: data := by
  unfold Holds
  rw [AList.lookup_insert]
  simp

/-- What `get_data` gives: the words as far as the size goes, or the zeros of `calloc`. -/
theorem get_data_eq (hsrc : d.lookup (_name, src) = some words) :
    get_data o d _name src _size =
      some (if o.read then words.takeD _size 0 else List.replicate _size 0) := by
  rw [get_data, hsrc, Option.map_some]

/-- A list that is long enough starts with the words when it is filled up from them. -/
theorem prefix_takeD {n : Nat} (h : words.length ≤ n) : words <+: words.takeD n 0 := by
  induction words generalizing n with
  | nil => exact List.nil_prefix
  | cons w words ih =>
    obtain ⟨m, rfl⟩ : ∃ m, n = m + 1 := ⟨n - 1, by simp at h; omega⟩
    rw [List.takeD_succ]
    exact List.cons_prefix_cons.mpr ⟨rfl, ih (by simpa using h)⟩

/-- The copy starts with the words when it is long enough, and was read or only has zeros to copy. -/
theorem prefix_fetched_iff {read : Bool} :
    words <+: (if read then words.takeD _size 0 else List.replicate _size 0) ↔
      words.length ≤ _size ∧ (read = true ∨ words = List.replicate words.length 0) := by
  cases read with
  | true =>
    rw [if_pos rfl]
    refine ⟨fun hpre => ⟨?_, .inl rfl⟩, fun h => prefix_takeD h.1⟩
    have hlen := hpre.length_le
    rwa [List.takeD_length] at hlen
  | false =>
    rw [if_neg Bool.false_ne_true, List.prefix_replicate_iff]
    simp

/-! ## When nothing is lost -/

theorem transferable_of_keeps (hsrc : d.lookup (_name, src) = some words)
    (hget : get_data o d _name src _size = some data)
    (h : KeepsData o d _name src tar _size words
      (delete_data (add_data o d _name data tar).2 _name src)) :
    Transferable o d _name src tar _size words := by
  -- The source is gone, so the words are on the target, and the add did not fail.
  have htar := h.readable.resolve_left (not_holds_deleted _ _)
  have helse : src ≠ tar := by
    rintro rfl
    exact not_holds_deleted _ _ htar
  have hadded : o.create = true ∧ o.write = true := by
    by_contra hfail
    have hkept := h.untouched data hget (by rw [add_data_failed hfail])
    rw [delete_data, AList.lookup_erase, hsrc] at hkept
    cases hkept
  have hsmall : _size < 2 ^ 32 :=
    lt_of_le_of_lt h.array (Nat.mod_lt _ (by decide))
  rw [holds_elsewhere _ helse] at htar
  refine ⟨helse, hadded.1, hadded.2, hsmall, fun hnew => ?_, fun hold => ?_⟩
  · rw [add_data_absent hadded.1 hadded.2 hnew, holds_inserted] at htar
    rw [get_data_eq hsrc] at hget
    rw [← Option.some.inj hget] at htar
    exact prefix_fetched_iff.mp htar
  · rwa [add_data_present hold] at htar

theorem keeps_of_transferable (hsrc : d.lookup (_name, src) = some words)
    (hget : get_data o d _name src _size = some data)
    (h : Transferable o d _name src tar _size words) :
    KeepsData o d _name src tar _size words
      (delete_data (add_data o d _name data tar).2 _name src) where
  array := (Nat.mod_eq_of_lt h.small).ge
  readable := by
    right
    rw [holds_elsewhere _ h.elsewhere]
    by_cases hold : (_name, tar) ∈ d
    · rw [add_data_present hold]
      exact h.present hold
    · rw [add_data_absent h.created h.written hold, holds_inserted]
      rw [get_data_eq hsrc] at hget
      rw [← Option.some.inj hget]
      exact prefix_fetched_iff.mpr (h.absent hold)
  moved _ := by
    have hkey : (_name, tar) ≠ (_name, src) := fun heq => h.elsewhere (congrArg Prod.snd heq).symm
    rw [← AList.lookup_isSome, delete_data, AList.lookup_erase_ne hkey, AList.lookup_isSome]
    by_cases hold : (_name, tar) ∈ d
    · rw [add_data_present hold]
      exact hold
    · rw [add_data_absent h.created h.written hold]
      exact (AList.mem_insert _).mpr (Or.inl rfl)
  others key hkey := by
    rw [delete_data, AList.lookup_erase_ne (fun heq => hkey (congrArg Prod.fst heq))]
    exact add_data_others hkey
  untouched data' _ hfail := by
    exfalso
    simp [add_data, h.created, h.written] at hfail

/-- A transfer of an alias that is on the source loses nothing if and only if it goes to another
device, the add works there, and the entry of the target then has all words of the source. -/
theorem a_transfer_keeps_the_data_iff (o : cl_outcome) (d : DataDictionary) (_name : Int)
    (src tar : Device) (_size : Nat) (words : List Word)
    (hsrc : d.lookup (_name, src) = some words) :
    (∃ d', transfer_data o d _name src tar _size = some d' ∧
        KeepsData o d _name src tar _size words d') ↔
      Transferable o d _name src tar _size words := by
  have hget := @get_data_eq o d _name src _size words hsrc
  constructor
  · rintro ⟨d', htransfer, hkeeps⟩
    rw [transfer_data, hget, Option.map_some, Option.some.injEq] at htransfer
    subst htransfer
    exact transferable_of_keeps hsrc hget hkeeps
  · intro htransferable
    refine ⟨_, ?_, keeps_of_transferable hsrc hget htransferable⟩
    rw [transfer_data, hget, Option.map_some]

end transfer

def one_buffer : DataDictionary := AList.insert (1, (0, 0)) [5, 7] ∅

/-- Every call succeeds, and the target has no entry. -/
theorem a_transfer_to_a_free_device_keeps_the_data :
    ∃ d', transfer_data cl_success one_buffer 1 (0, 0) (0, 1) 2 = some d' ∧
      KeepsData cl_success one_buffer 1 (0, 0) (0, 1) 2 [5, 7] d' :=
  (a_transfer_keeps_the_data_iff cl_success one_buffer 1 (0, 0) (0, 1) 2 [5, 7] rfl).mpr
    ⟨by decide, rfl, rfl, by decide, fun _ => ⟨by decide, Or.inl rfl⟩,
      fun h => absurd h (by decide)⟩

/-- The write to the target fails, and the buffer is deleted from the source. -/
theorem a_transfer_with_a_failed_write_loses_the_data :
    ¬ ∃ d', transfer_data ⟨true, true, false⟩ one_buffer 1 (0, 0) (0, 1) 2 = some d' ∧
      KeepsData ⟨true, true, false⟩ one_buffer 1 (0, 0) (0, 1) 2 [5, 7] d' := by
  rintro ⟨d', htransfer, hkeeps⟩
  cases htransfer
  exact absurd (hkeeps.untouched [5, 7] rfl rfl) (by decide)

end hero.openCL_layer
