-- The two data stores: the OpenCL dictionary holds a buffer for an alias on a device, and the
-- C++ dictionary holds an array for an alias. `dataPack::add_data` writes both.
import Mathlib.Algebra.Order.Ring.Int
import Mathlib.Data.List.AList

namespace hero

/-- A 32-bit word: an `unsigned int` of the kernels, and an `int` of the columns. -/
abbrev Word := BitVec 32

/-- A device: the index of its platform, and its index in that platform. -/
abbrev Device := Nat × Nat

/-- A size read as an `int`. -/
def int_of_size (n : Nat) : Int := Int.bmod n (2 ^ 32)

/-- An `int` read as a `size_t`. -/
def size_of_int (x : Int) : Nat := (x % 2 ^ 64).toNat

theorem int_of_size_eq {n : Nat} (h : n < 2 ^ 31) : int_of_size n = n := by
  unfold int_of_size
  rw [Int.bmod_def]
  split <;> omega

/-- The words that `calloc((unsigned int) n, sizeof(unsigned int))` gives: from 2^32 on, fewer. -/
def calloc_size (n : Nat) : Nat := n % 2 ^ 32

namespace openCL_layer

/-- What the buffer calls of one request return: `true` for `CL_SUCCESS`. A read can only succeed
inside of its buffer, which has one word more than its data. -/
structure cl_outcome where
  create : Bool
  read : Bool
  write : Bool

/-- Every buffer call succeeds: no buffer is too large for its device, and no read is longer than its
buffer. -/
def cl_success : cl_outcome := ⟨true, true, true⟩

/-- `mDataDictionary`, with the words that each buffer holds. -/
abbrev DataDictionary := AList (fun _ : Int × Device => List Word)

def delete_data (d : DataDictionary) (_name : Int) (_source : Device) : DataDictionary :=
  d.erase (_name, _source)

/-- The entry goes in with `map::insert`, so an entry that is already there stays. -/
def add_data (o : cl_outcome) (d : DataDictionary) (_alias : Int) (_data : List Word)
    (dev : Device) : Nat × DataDictionary :=
  if o.create && o.write then
    (1, if (_alias, dev) ∈ d then d else d.insert (_alias, dev) _data)
  else
    (0, d)

/-- Without an entry, the code reads through the end iterator of the map, which is undefined
behaviour: `none`. When the read fails, as one that is longer than the buffer does, the zeros of
`calloc` stay. A read that is taken to succeed finds zeros behind the words of the buffer. -/
def get_data (o : cl_outcome) (d : DataDictionary) (_name : Int) (dev : Device)
    (_dataSize : Nat) : Option (List Word) :=
  (d.lookup (_name, dev)).map (fun buffer =>
    if o.read then buffer.takeD _dataSize 0 else List.replicate _dataSize 0)

/-- The data goes to the target and leaves the source. The status of the add is ignored. -/
def transfer_data (o : cl_outcome) (d : DataDictionary) (_name : Int) (src tar : Device)
    (_size : Nat) : Option DataDictionary :=
  (get_data o d _name src _size).map (fun _m_result =>
    delete_data (add_data o d _name _m_result tar).2 _name src)

end openCL_layer

namespace cpp_layer

/-- `mDataDictionary` of the C++ layer, with the words behind each pointer. -/
abbrev DataDictionary := AList (fun _ : Int => List Word)

def add_data (d : DataDictionary) (_alias : Int) (_data : List Word) : DataDictionary :=
  d.insert _alias _data

/-- The copy reads `_dataSize` words behind the pointer: past the array, or through the null
pointer of a missing alias, it is undefined behaviour. -/
def get_data (d : DataDictionary) (_name : Int) (_dataSize : Nat) : Option (List Word) :=
  (d.lookup _name).bind (fun array =>
    if _dataSize ≤ array.length then some (array.take _dataSize) else none)

end cpp_layer

/-- Both dictionaries. -/
structure Stores where
  openCL : openCL_layer.DataDictionary
  cpp : cpp_layer.DataDictionary

namespace task_layer

/-- `dataPack::add_data`, with buffer calls that succeed. -/
def add_data (st : Stores) (_alias : Int) (data : List Word) (dev : Device) : Stores :=
  { openCL := (openCL_layer.add_data openCL_layer.cl_success st.openCL _alias data dev).2
    cpp := cpp_layer.add_data st.cpp _alias data }

end task_layer

/-! ## What the calls do to one entry -/

namespace openCL_layer

theorem lookup_add_data_new {d : DataDictionary} {_alias : Int} {data : List Word} {dev : Device}
    (h : (_alias, dev) ∉ d) :
    (add_data cl_success d _alias data dev).2.lookup (_alias, dev) = some data := by
  simp only [add_data, cl_success, Bool.and_self, if_true, h, if_false]
  exact AList.lookup_insert d

theorem lookup_add_data_ne {d : DataDictionary} {_alias : Int} {data : List Word} {dev : Device}
    {key : Int × Device} (h : key ≠ (_alias, dev)) :
    (add_data cl_success d _alias data dev).2.lookup key = d.lookup key := by
  simp only [add_data, cl_success, Bool.and_self, if_true]
  split
  · rfl
  · exact AList.lookup_insert_ne h

theorem get_data_isSome {o : cl_outcome} {d : DataDictionary} {_name : Int} {dev : Device}
    {n : Nat} : (get_data o d _name dev n).isSome ↔ (_name, dev) ∈ d := by
  simp [get_data, AList.lookup_isSome]

/-- A transfer of a missing buffer is undefined. -/
theorem transfer_data_none {o : cl_outcome} {d : DataDictionary} {_name : Int} {src tar : Device}
    {n : Nat} (h : (_name, src) ∉ d) : transfer_data o d _name src tar n = none := by
  have hlook : d.lookup (_name, src) = none := AList.lookup_eq_none.mpr h
  simp [transfer_data, get_data, hlook]

/-- What a transfer of a buffer leaves, when the target has no buffer of that alias: the words
at the target, nothing at the source, and every other entry as it was. -/
theorem transfer_data_moves {d : DataDictionary} {_name : Int} {src tar : Device} {n : Nat}
    {words : List Word} (hsrc : d.lookup (_name, src) = some words) (htar : (_name, tar) ∉ d)
    (hne : src ≠ tar) :
    ∃ d', transfer_data cl_success d _name src tar n = some d' ∧
      d'.lookup (_name, tar) = some (words.takeD n 0) ∧ d'.lookup (_name, src) = none ∧
      ∀ key, key ≠ (_name, src) → key ≠ (_name, tar) → d'.lookup key = d.lookup key := by
  have hget : get_data cl_success d _name src n = some (words.takeD n 0) := by
    simp [get_data, hsrc, cl_success]
  refine ⟨delete_data (add_data cl_success d _name (words.takeD n 0) tar).2 _name src,
    by rw [transfer_data, hget]; rfl, ?_, ?_, ?_⟩
  · rw [delete_data, AList.lookup_erase_ne (by simp [Ne.symm hne])]
    exact lookup_add_data_new htar
  · exact AList.lookup_erase _ _
  · intro key h1 h2
    rw [delete_data, AList.lookup_erase_ne h1]
    exact lookup_add_data_ne h2

end openCL_layer

end hero
