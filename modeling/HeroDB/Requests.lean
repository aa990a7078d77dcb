-- The requests to the OpenCL layer: `add_kernel`, `add_data`, `delete_data` and `execute`, in any
-- order. The range checks let an id through that is one past the end, and `execute` reads the
-- entries that it looks up without a test, so a request is served when it avoids both.
import HeroDB.DataInterface

namespace hero.openCL_layer

/-! ## The globals -/

/-- The handles of OpenCL are opaque. -/
abbrev cl_device_id := Nat
abbrev cl_kernel := Nat
abbrev cl_mem := Nat

/-- What the requests read and write. Each platform has the list of its devices. -/
structure Globals where
  mPlatFormList : List (List cl_device_id)
  mKernelDictionary : AList (fun _ : String × cl_device_id => cl_kernel)
  mDataDictionary : AList (fun _ : Int × cl_device_id => cl_mem)

def Globals.start (mPlatFormList : List (List cl_device_id)) : Globals := ⟨mPlatFormList, ∅, ∅⟩

/-- A `size_t` read as a `short`. -/
def short_of_size (n : Nat) : Int := Int.bmod n 65536

/-! ## The requests -/

/-- The errors that go to `cerr`. -/
inductive Report
  | no_platforms
  | invalid_request
  | kernel_building (_kernelName : String)
  | creating_buffer (_alias : Int)
  | write_buffers (_alias : Int)
  | kernel_arguments (_kernelName : String) (_arg : Int)
  | parameter_arguments (_kernelName : String) (index : Int)
  | execution (_kernelName : String)
deriving DecidableEq

/-- What `clEnqueueNDRangeKernel` starts: the kernel, with the arguments and the parameters set. -/
structure Launch where
  kernel : cl_kernel
  arguments : List cl_mem
  parameters : List Int
  globalSize : Nat
  localSize : Option Nat
deriving DecidableEq

inductive Answer
  | done
  | reported (r : Report)
  | launched (l : Launch)
deriving DecidableEq

structure request where
  _platformId : Int
  _deviceId : Int
  _kernelName : String
  _args : List Int
  _param : List Int
  _globalSize : Nat
  _localSize : Nat

/-- What the OpenCL calls of `execute` return: `true` for `CL_SUCCESS`. -/
structure execute_outcome where
  set_argument : Nat → Bool
  set_parameter : Nat → Bool
  enqueue : Bool

/-- The check of `add_kernel` and `execute`, and the device behind it. An index out of range is
undefined, `none`, and a refused request is `some none`. -/
def find_device (mPlatFormList : List (List cl_device_id)) (_platformId _deviceId : Int) :
    Option (Option cl_device_id) :=
  if size_of_int _platformId ≤ mPlatFormList.length then
    mPlatFormList[size_of_int _platformId]?.bind (fun mDeviceList =>
      if size_of_int _deviceId ≤ mDeviceList.length then
        mDeviceList[size_of_int _deviceId]?.bind (fun _m_device => some (some _m_device))
      else some none)
  else some none

def delete_kernel (g : Globals) (_kernel_name : String) (_device : cl_device_id) : Globals :=
  { g with mKernelDictionary := g.mKernelDictionary.erase (_kernel_name, _device) }

/-- `add_kernel`, with the kernel that `build_kernel` gives, or `none` for `NULL`. -/
def add_kernel (g : Globals) (_platformId _deviceId : Int) (_kernelName : String)
    (_m_cl_kernel : Option cl_kernel) : Option (Globals × Answer) :=
  (find_device g.mPlatFormList _platformId _deviceId).map (fun device =>
    match device with
    | none => (g, .reported .invalid_request)
    | some _m_device =>
      -- A kernel of that name leaves before the new one is built.
      let g' := if (_kernelName, _m_device) ∈ g.mKernelDictionary then
        delete_kernel g _kernelName _m_device else g
      match _m_cl_kernel with
      | none => (g', .reported (.kernel_building _kernelName))
      | some kernel =>
        ({ g' with
            mKernelDictionary := g'.mKernelDictionary.insert (_kernelName, _m_device) kernel },
          .done))

/-- The device of `add_data`, which checks no id. -/
def index_device (mPlatFormList : List (List cl_device_id)) (_platformId _deviceId : Int) :
    Option cl_device_id :=
  mPlatFormList[size_of_int _platformId]?.bind (fun mDeviceList =>
    mDeviceList[size_of_int _deviceId]?)

/-- `add_data`, with the buffer that `clCreateBuffer` gives, and the return of the write. The entry
goes in with `map::insert`, so an entry that is already there stays. -/
def add_buffer (g : Globals) (_alias _platformId _deviceId : Int) (_m_data_buffer : Option cl_mem)
    (written : Bool) : Option (Globals × Answer) :=
  if g.mPlatFormList = [] then some (g, .reported .no_platforms)
  else
    (index_device g.mPlatFormList _platformId _deviceId).map (fun _m_dev =>
      match _m_data_buffer with
      | none => (g, .reported (.creating_buffer _alias))
      | some buffer =>
        if written then
          ({ g with mDataDictionary :=
              if (_alias, _m_dev) ∈ g.mDataDictionary then g.mDataDictionary
              else g.mDataDictionary.insert (_alias, _m_dev) buffer }, .done)
        else (g, .reported (.write_buffers _alias)))

def delete_buffer (g : Globals) (_name : Int) (_source : cl_device_id) : Globals :=
  { g with mDataDictionary := g.mDataDictionary.erase (_name, _source) }

/-- The loop over the arguments. A missing entry is read through the end iterator: `none`. -/
def set_arguments (g : Globals) (_m_device : cl_device_id) (_kernelName : String)
    (set_argument : Nat → Bool) : Nat → List Int → Option (Except Report (List cl_mem))
  | _, [] => some (.ok [])
  | i, _arg :: _args =>
    (g.mDataDictionary.lookup (_arg, _m_device)).bind (fun _m_argument_buffer =>
      if set_argument i then
        (set_arguments g _m_device _kernelName set_argument (i + 1) _args).map
          (Except.map (_m_argument_buffer :: ·))
      else some (.error (.kernel_arguments _kernelName _arg)))

/-- The loop over the parameters, which stand behind the arguments. -/
def set_parameters (_kernelName : String) (_m_args_size : Int) (set_parameter : Nat → Bool) :
    Nat → List Int → Except Report (List Int)
  | _, [] => .ok []
  | i, param :: _param =>
    if set_parameter i then
      (set_parameters _kernelName _m_args_size set_parameter (i + 1) _param).map (param :: ·)
    else .error (.parameter_arguments _kernelName (i + _m_args_size))

def request.set_args (r : request) : List Int :=
  r._args.take (short_of_size r._args.length).toNat

/-- The parameters that the loop comes to. Their number is a `short` as well. -/
def request.set_params (r : request) : List Int :=
  r._param.take (short_of_size r._param.length).toNat

/-- `execute` behind the loop over the arguments. -/
def launch_with (kernel : cl_kernel) (r : request) (o : execute_outcome)
    (set : Except Report (List cl_mem)) : Except Report Launch :=
  set.bind (fun arguments =>
    (set_parameters r._kernelName (short_of_size r._args.length) o.set_parameter 0
        r.set_params).bind (fun parameters =>
      if o.enqueue then
        .ok { kernel, arguments, parameters, globalSize := r._globalSize
              localSize := if r._localSize = 1 then none else some r._localSize }
      else .error (.execution r._kernelName)))

/-- `execute` behind its check. Each way on reads the kernel through its iterator before it
returns. -/
def execute_on (g : Globals) (_m_device : cl_device_id) (r : request) (o : execute_outcome) :
    Option (Except Report Launch) :=
  (g.mKernelDictionary.lookup (r._kernelName, _m_device)).bind (fun kernel =>
    (set_arguments g _m_device r._kernelName o.set_argument 0 r.set_args).map
      (launch_with kernel r o))

def Answer.of : Except Report Launch → Answer
  | .ok l => .launched l
  | .error e => .reported e

def execute (g : Globals) (r : request) (o : execute_outcome) : Option Answer :=
  (find_device g.mPlatFormList r._platformId r._deviceId).bind (fun device =>
    match device with
    | none => some (.reported .invalid_request)
    | some _m_device => (execute_on g _m_device r o).map Answer.of)

inductive Call
  | add_kernel (_platformId _deviceId : Int) (_kernelName : String) (built : Option cl_kernel)
  | add_data (_alias _platformId _deviceId : Int) (created : Option cl_mem) (written : Bool)
  | delete_data (_name : Int) (_source : cl_device_id)
  | execute (r : request) (o : execute_outcome)

/-- One call. Undefined behaviour is `none`. -/
def call (g : Globals) : Call → Option (Globals × Answer)
  | .add_kernel p d name built => add_kernel g p d name built
  | .add_data a p d created written => add_buffer g a p d created written
  | .delete_data name source => some (delete_buffer g name source, .done)
  | .execute r o => (execute g r o).map (fun answer => (g, answer))

/-! ## The laws -/

structure execute_outcome.Succeeds (o : execute_outcome) (r : request) : Prop where
  arguments : ∀ i < r.set_args.length, o.set_argument i = true
  parameters : ∀ i < r.set_params.length, o.set_parameter i = true
  launch : o.enqueue = true

section laws

variable (env : List (List cl_device_id))

/-- What a call makes of the kernel that is registered under a name for a device. -/
def kernel_after (name : String) (dev : cl_device_id) (kernel : Option cl_kernel) :
    Call → Option cl_kernel
  | .add_kernel p d _kernelName built =>
    if _kernelName = name ∧ index_device env p d = some dev then built else kernel
  | _ => kernel

/-- What a call makes of the buffer that is registered under an alias for a device. -/
def buffer_after (name : Int) (dev : cl_device_id) (buffer : Option cl_mem) :
    Call → Option cl_mem
  | .add_data _alias p d created written =>
    if _alias = name ∧ index_device env p d = some dev ∧ written = true then buffer.or created
    else buffer
  | .delete_data _name _source => if _name = name ∧ _source = dev then none else buffer
  | _ => buffer

def registered_kernel (calls : List Call) (name : String) (dev : cl_device_id) :
    Option cl_kernel :=
  calls.foldl (kernel_after env name dev) none

def registered_buffer (calls : List Call) (name : Int) (dev : cl_device_id) : Option cl_mem :=
  calls.foldl (buffer_after env name dev) none

/-- A launch with the handles that the calls before it registered for the device of the request:
the kernel of that name, and the buffer of each argument. -/
def LaunchesRegistered (before : List Call) (r : request) (l : Launch) : Prop :=
  ∃ dev, index_device env r._platformId r._deviceId = some dev ∧
    registered_kernel env before r._kernelName dev = some l.kernel ∧
    r._args.map (fun _arg => registered_buffer env before _arg dev) = l.arguments.map some

/-- An `execute` launches with the registered handles or reports an error, and no other call
launches anything. -/
def Validated (before : List Call) (c : Call) (answer : Answer) : Prop :=
  match c with
  | .execute r _ => (∃ e, answer = .reported e) ∨
      ∃ l, answer = .launched l ∧ LaunchesRegistered env before r l
  | _ => ∀ l, answer ≠ .launched l

/-- Every call of a run is defined, and its answer obeys the law. -/
def RunValidated (before : List Call) (g : Globals) : List Call → Prop
  | [] => True
  | c :: calls => ∃ g' answer, call g c = some (g', answer) ∧ Validated env before c answer ∧
      RunValidated (before ++ [c]) g' calls

/-- No id is one past the end, which the check lets through. -/
def NotPastEnd (_platformId _deviceId : Int) : Prop :=
  size_of_int _platformId ≠ env.length ∧ ∀ mDeviceList,
    env[size_of_int _platformId]? = some mDeviceList → size_of_int _deviceId ≠ mDeviceList.length

/-- What `execute` needs of the calls before it: the kernel and each argument up to the first that
OpenCL refuses, and, for a launch, a number of arguments that fits a `short`. -/
structure Prepared (before : List Call) (dev : cl_device_id) (r : request) (o : execute_outcome) :
    Prop where
  kernel : (registered_kernel env before r._kernelName dev).isSome
  buffers : ∀ i _arg, r.set_args[i]? = some _arg → (∀ j < i, o.set_argument j = true) →
    (registered_buffer env before _arg dev).isSome
  fits : o.Succeeds r → r._args.length < 32768

/-- The calls that are served. -/
def Served (before : List Call) : Call → Prop
  | .add_kernel p d _ _ => NotPastEnd env p d
  | .add_data _ p d _ _ => env = [] ∨ (index_device env p d).isSome
  | .delete_data _ _ => True
  | .execute r o => NotPastEnd env r._platformId r._deviceId ∧
      ∀ dev, index_device env r._platformId r._deviceId = some dev → Prepared env before dev r o

def RunServed (before : List Call) : List Call → Prop
  | [] => True
  | c :: calls => Served env before c ∧ RunServed (before ++ [c]) calls

/-- The dictionaries hold what the calls registered. -/
structure Tracks (before : List Call) (g : Globals) : Prop where
  platforms : g.mPlatFormList = env
  kernels : ∀ name dev,
    g.mKernelDictionary.lookup (name, dev) = registered_kernel env before name dev
  buffers : ∀ name dev,
    g.mDataDictionary.lookup (name, dev) = registered_buffer env before name dev

end laws

section calls

variable {env : List (List cl_device_id)} {before : List Call} {g g' : Globals} {p d : Int}

/-! ## The check of the ids -/

/-- The check is off by one: it fails to refuse the index just behind a list. -/
theorem check_index {α β : Type} (l : List α) (n : Nat) (f : α → Option (Option β)) :
    (if n ≤ l.length then l[n]?.bind f else some none) =
      if n = l.length then none else l[n]?.elim (some none) f := by
  rcases Nat.lt_trichotomy n l.length with hlt | heq | hgt
  · rw [if_pos (by omega), if_neg (by omega), List.getElem?_eq_getElem hlt]
    rfl
  · rw [if_pos (by omega), if_pos heq, List.getElem?_eq_none (by omega)]
    rfl
  · rw [if_neg (by omega), if_neg (by omega), List.getElem?_eq_none (by omega)]
    rfl

/-- What passes the check, or is refused by it, is the device of the ids. -/
theorem find_device_eq (h : NotPastEnd env p d) :
    find_device env p d = some (index_device env p d) := by
  unfold find_device index_device
  rw [check_index, if_neg h.1]
  cases hlist : env[size_of_int p]? with
  | none => rfl
  | some mDeviceList =>
    rw [Option.elim_some, check_index, if_neg (h.2 _ hlist), Option.bind_some]
    cases mDeviceList[size_of_int d]? with
    | none => rfl
    | some dev => rfl

theorem find_device_past_end (h : ¬ NotPastEnd env p d) : find_device env p d = none := by
  unfold find_device
  rw [check_index]
  by_cases hp : size_of_int p = env.length
  · rw [if_pos hp]
  · rw [if_neg hp]
    have hlist : ∃ mDeviceList, env[size_of_int p]? = some mDeviceList ∧
        size_of_int d = mDeviceList.length := by
      by_contra hnone
      exact h ⟨hp, fun l hl hd => hnone ⟨l, hl, hd⟩⟩
    obtain ⟨mDeviceList, hl, hd⟩ := hlist
    rw [hl, Option.elim_some, check_index, if_pos hd]

/-! ## The loops of one launch -/

theorem all_from_succ {succeeds : Nat → Bool} {i n : Nat} :
    (∀ j < n + 1, succeeds (i + j) = true) ↔
      succeeds i = true ∧ ∀ j < n, succeeds (i + 1 + j) = true := by
  rw [Nat.forall_lt_succ_left]
  simp only [Nat.add_zero, Nat.add_assoc, Nat.add_comm 1]

/-- The loop over the arguments is defined if and only if each one that it comes to has a
buffer. -/
theorem set_arguments_isSome_iff {dev : cl_device_id} {_kernelName : String}
    {set_argument : Nat → Bool} {i : Nat} {_args : List Int} :
    (set_arguments g dev _kernelName set_argument i _args).isSome ↔
      ∀ k _arg, _args[k]? = some _arg → (∀ j < k, set_argument (i + j) = true) →
        (g.mDataDictionary.lookup (_arg, dev)).isSome := by
  induction _args generalizing i with
  | nil => simp [set_arguments]
  | cons _arg _args ih =>
    rw [set_arguments]
    cases hbuffer : g.mDataDictionary.lookup (_arg, dev) with
    | none =>
      refine ⟨fun h => (by cases h), fun h => ?_⟩
      have hfirst := h 0 _arg rfl (fun j hj => absurd hj (Nat.not_lt_zero j))
      rw [hbuffer] at hfirst
      cases hfirst
    | some buffer =>
      rw [Option.bind_some]
      by_cases hset : set_argument i = true
      · rw [if_pos hset, Option.isSome_map, ih]
        constructor
        · rintro h (_ | k) a ha hj
          · cases ha
            rw [hbuffer]
            rfl
          · exact h k a ha (all_from_succ.mp hj).2
        · intro h k a ha hj
          exact h (k + 1) a ha (all_from_succ.mpr ⟨hset, hj⟩)
      · rw [if_neg hset]
        refine ⟨fun _ => ?_, fun _ => rfl⟩
        rintro (_ | k) a ha hj
        · cases ha
          rw [hbuffer]
          rfl
        · exact absurd (hj 0 (by omega)) hset

theorem set_arguments_ok {dev : cl_device_id} {_kernelName : String} {set_argument : Nat → Bool}
    {i : Nat} {_args : List Int} {arguments : List cl_mem}
    (h : set_arguments g dev _kernelName set_argument i _args = some (.ok arguments)) :
    _args.map (fun _arg => g.mDataDictionary.lookup (_arg, dev)) = arguments.map some ∧
      ∀ j < _args.length, set_argument (i + j) = true := by
  induction _args generalizing i arguments with
  | nil =>
    cases h
    exact ⟨rfl, fun j hj => absurd hj (Nat.not_lt_zero j)⟩
  | cons _arg _args ih =>
    rw [set_arguments] at h
    obtain ⟨buffer, hbuffer, hrest⟩ := Option.bind_eq_some_iff.mp h
    by_cases hset : set_argument i = true
    · rw [if_pos hset] at hrest
      obtain ⟨set, hloop, hset'⟩ := Option.map_eq_some_iff.mp hrest
      cases set with
      | error e => cases hset'
      | ok rest =>
        cases hset'
        obtain ⟨hbuffers, hbehind⟩ := ih hloop
        rw [List.map_cons, List.map_cons, hbuffer, hbuffers, List.length_cons]
        exact ⟨rfl, all_from_succ.mpr ⟨hset, hbehind⟩⟩
    · rw [if_neg hset] at hrest
      cases hrest

theorem set_arguments_succeeds {dev : cl_device_id} {_kernelName : String}
    {set_argument : Nat → Bool} {i : Nat} {_args : List Int} {set : Except Report (List cl_mem)}
    (h : set_arguments g dev _kernelName set_argument i _args = some set)
    (hall : ∀ j < _args.length, set_argument (i + j) = true) : ∃ arguments, set = .ok arguments := by
  induction _args generalizing i set with
  | nil =>
    cases h
    exact ⟨[], rfl⟩
  | cons _arg _args ih =>
    rw [set_arguments] at h
    obtain ⟨buffer, -, hrest⟩ := Option.bind_eq_some_iff.mp h
    rw [List.length_cons] at hall
    obtain ⟨hset, hbehind⟩ := all_from_succ.mp hall
    rw [if_pos hset] at hrest
    obtain ⟨set', hloop, rfl⟩ := Option.map_eq_some_iff.mp hrest
    obtain ⟨rest, rfl⟩ := ih hloop hbehind
    exact ⟨buffer :: rest, rfl⟩

/-- The loop over the parameters comes through if and only if OpenCL takes each. -/
theorem set_parameters_ok_iff {_kernelName : String} {_m_args_size : Int}
    {set_parameter : Nat → Bool} {i : Nat} {_param : List Int} :
    (∃ parameters, set_parameters _kernelName _m_args_size set_parameter i _param =
      .ok parameters) ↔ ∀ j < _param.length, set_parameter (i + j) = true := by
  induction _param generalizing i with
  | nil => exact ⟨fun _ j hj => absurd hj (Nat.not_lt_zero j), fun _ => ⟨[], rfl⟩⟩
  | cons param _param ih =>
    rw [set_parameters, List.length_cons, all_from_succ, ← ih]
    by_cases hset : set_parameter i = true
    · rw [if_pos hset]
      constructor
      · rintro ⟨parameters, h⟩
        cases hrest : set_parameters _kernelName _m_args_size set_parameter (i + 1) _param with
        | error e =>
          rw [hrest] at h
          cases h
        | ok rest => exact ⟨hset, rest, rfl⟩
      · rintro ⟨-, rest, hrest⟩
        rw [hrest]
        exact ⟨param :: rest, rfl⟩
    · rw [if_neg hset]
      exact ⟨fun ⟨_, h⟩ => (by cases h), fun h => absurd h.1 hset⟩

variable {r : request} {o : execute_outcome} {dev : cl_device_id}

theorem set_args_length_iff : r.set_args.length = r._args.length ↔ r._args.length < 32768 := by
  unfold request.set_args short_of_size
  rw [List.length_take, Int.bmod_def]
  split <;> omega

theorem execute_on_isSome_iff :
    (execute_on g dev r o).isSome ↔ (g.mKernelDictionary.lookup (r._kernelName, dev)).isSome ∧
      (set_arguments g dev r._kernelName o.set_argument 0 r.set_args).isSome := by
  unfold execute_on
  cases g.mKernelDictionary.lookup (r._kernelName, dev) with
  | none => simp
  | some kernel =>
    rw [Option.bind_some, Option.isSome_map, Option.isSome_some]
    simp only [true_and]

theorem bind_eq_ok {α β : Type} {x : Except Report α} {f : α → Except Report β} {b : β}
    (h : x.bind f = .ok b) : ∃ a, x = .ok a ∧ f a = .ok b := by
  cases x with
  | error e => cases h
  | ok a => exact ⟨a, rfl, h⟩

/-- A launch has the kernel that was found and the arguments that were set, and its calls all
succeeded. -/
theorem launch_with_ok {kernel : cl_kernel} {set : Except Report (List cl_mem)} {l : Launch}
    (h : launch_with kernel r o set = .ok l) : set = .ok l.arguments ∧ l.kernel = kernel ∧
      (∀ j < r.set_params.length, o.set_parameter j = true) ∧ o.enqueue = true := by
  obtain ⟨arguments, rfl, hrest⟩ := bind_eq_ok h
  obtain ⟨parameters, hparameters, hlast⟩ := bind_eq_ok hrest
  by_cases ho : o.enqueue = true
  · rw [if_pos ho] at hlast
    obtain rfl := Except.ok.inj hlast
    refine ⟨rfl, rfl, fun j hj => ?_, ho⟩
    have hset := set_parameters_ok_iff.mp ⟨parameters, hparameters⟩ j hj
    rwa [Nat.zero_add] at hset
  · rw [if_neg ho] at hlast
    cases hlast

theorem launch_with_succeeds (kernel : cl_kernel) (arguments : List cl_mem) (hall : o.Succeeds r) :
    ∃ l, launch_with kernel r o (.ok arguments) = .ok l := by
  obtain ⟨parameters, hparameters⟩ := (@set_parameters_ok_iff r._kernelName
    (short_of_size r._args.length) o.set_parameter 0 r.set_params).mpr (fun j hj => by
      rw [Nat.zero_add]
      exact hall.parameters j hj)
  unfold launch_with
  rw [Except.bind, hparameters, Except.bind, if_pos hall.launch]
  exact ⟨_, rfl⟩

/-- A launch has the handles of the two dictionaries, and its calls all succeeded. -/
theorem execute_on_launch {l : Launch} (h : execute_on g dev r o = some (.ok l)) :
    g.mKernelDictionary.lookup (r._kernelName, dev) = some l.kernel ∧
      r.set_args.map (fun _arg => g.mDataDictionary.lookup (_arg, dev)) =
        l.arguments.map some ∧ o.Succeeds r := by
  unfold execute_on at h
  obtain ⟨kernel, hkernel, hloop⟩ := Option.bind_eq_some_iff.mp h
  obtain ⟨set, hset, hlaunch⟩ := Option.map_eq_some_iff.mp hloop
  obtain ⟨rfl, rfl, hparameters, henqueue⟩ := launch_with_ok hlaunch
  obtain ⟨hbuffers, harguments⟩ := set_arguments_ok hset
  refine ⟨hkernel, hbuffers, fun j hj => ?_, hparameters, henqueue⟩
  have hset' := harguments j hj
  rwa [Nat.zero_add] at hset'

theorem execute_on_succeeds {e : Except Report Launch} (h : execute_on g dev r o = some e)
    (hall : o.Succeeds r) : ∃ l, e = .ok l := by
  unfold execute_on at h
  obtain ⟨kernel, -, hloop⟩ := Option.bind_eq_some_iff.mp h
  obtain ⟨set, hset, rfl⟩ := Option.map_eq_some_iff.mp hloop
  obtain ⟨arguments, rfl⟩ := set_arguments_succeeds hset (fun j hj => by
    rw [Nat.zero_add]
    exact hall.arguments j hj)
  exact launch_with_succeeds kernel arguments hall

/-! ## The dictionaries hold what the calls registered -/

theorem tracks_start (env : List (List cl_device_id)) : Tracks env [] (.start env) :=
  ⟨rfl, fun _ _ => rfl, fun _ _ => rfl⟩

theorem lookup_deleted (g : Globals) (_kernelName name : String) (_m_device dev : cl_device_id) :
    (if (_kernelName, _m_device) ∈ g.mKernelDictionary then delete_kernel g _kernelName _m_device
      else g).mKernelDictionary.lookup (name, dev) =
      if _kernelName = name ∧ _m_device = dev then none
      else g.mKernelDictionary.lookup (name, dev) := by
  by_cases hkey : _kernelName = name ∧ _m_device = dev
  · obtain ⟨rfl, rfl⟩ := hkey
    rw [if_pos (And.intro rfl rfl)]
    split
    · exact AList.lookup_erase _ _
    · next hmem => exact AList.lookup_eq_none.mpr hmem
  · rw [if_neg hkey]
    split
    · refine AList.lookup_erase_ne fun heq => hkey ?_
      cases heq
      exact ⟨rfl, rfl⟩
    · rfl

theorem lookup_map_insert (buffers : AList (fun _ : Int × cl_device_id => cl_mem))
    (key key' : Int × cl_device_id) (buffer : cl_mem) :
    (if key ∈ buffers then buffers else buffers.insert key buffer).lookup key' =
      if key = key' then (buffers.lookup key').or (some buffer) else buffers.lookup key' := by
  by_cases hmem : key ∈ buffers
  · rw [if_pos hmem]
    by_cases hkey : key = key'
    · subst hkey
      obtain ⟨old, hold⟩ := Option.isSome_iff_exists.mp (AList.lookup_isSome.mpr hmem)
      rw [if_pos rfl, hold, Option.some_or]
    · rw [if_neg hkey]
  · rw [if_neg hmem]
    by_cases hkey : key = key'
    · subst hkey
      rw [if_pos rfl, AList.lookup_insert, AList.lookup_eq_none.mpr hmem, Option.none_or]
    · rw [if_neg hkey, AList.lookup_insert_ne (Ne.symm hkey)]

/-- `add_kernel` comes back when its ids are not past the end, and launches nothing. -/
theorem add_kernel_eq (ht : Tracks env before g) (hids : NotPastEnd env p d)
    (_kernelName : String) (built : Option cl_kernel) :
    ∃ g' answer, add_kernel g p d _kernelName built = some (g', answer) ∧
      (∀ l, answer ≠ .launched l) ∧ g'.mPlatFormList = env ∧
      g'.mDataDictionary = g.mDataDictionary ∧
      ∀ name dev, g'.mKernelDictionary.lookup (name, dev) =
        if _kernelName = name ∧ index_device env p d = some dev then built
        else g.mKernelDictionary.lookup (name, dev) := by
  unfold add_kernel
  rw [ht.platforms, find_device_eq hids]
  cases index_device env p d with
  | none => exact ⟨g, _, rfl, by simp, ht.platforms, rfl, by simp⟩
  | some _m_device =>
    cases built with
    | none =>
      refine ⟨_, _, rfl, by simp, ?_, ?_, fun name dev => ?_⟩
      · split
        · exact ht.platforms
        · exact ht.platforms
      · split
        · rfl
        · rfl
      · rw [lookup_deleted]
        simp
    | some kernel =>
      refine ⟨_, _, rfl, by simp, ?_, ?_, fun name dev => ?_⟩
      · dsimp only
        split
        · exact ht.platforms
        · exact ht.platforms
      · dsimp only
        split
        · rfl
        · rfl
      · by_cases hkey : _kernelName = name ∧ _m_device = dev
        · obtain ⟨rfl, rfl⟩ := hkey
          rw [AList.lookup_insert, if_pos ⟨rfl, rfl⟩]
        · have hne : (name, dev) ≠ (_kernelName, _m_device) := by
            intro heq
            cases heq
            exact hkey ⟨rfl, rfl⟩
          rw [AList.lookup_insert_ne hne, lookup_deleted, if_neg hkey]
          simp [hkey]

/-- `add_data` comes back when its ids are those of a device, and launches nothing. -/
theorem add_buffer_eq (ht : Tracks env before g) (_alias : Int) (created : Option cl_mem)
    (written : Bool) (hids : env = [] ∨ (index_device env p d).isSome) :
    ∃ g' answer, add_buffer g _alias p d created written = some (g', answer) ∧
      (∀ l, answer ≠ .launched l) ∧ g'.mPlatFormList = env ∧
      g'.mKernelDictionary = g.mKernelDictionary ∧
      ∀ name dev, g'.mDataDictionary.lookup (name, dev) =
        if _alias = name ∧ index_device env p d = some dev ∧ written = true then
          (g.mDataDictionary.lookup (name, dev)).or created
        else g.mDataDictionary.lookup (name, dev) := by
  unfold add_buffer
  rw [ht.platforms]
  by_cases hempty : env = []
  · rw [if_pos hempty]
    subst hempty
    exact ⟨g, _, rfl, by simp, ht.platforms, rfl, by simp [index_device]⟩
  · rw [if_neg hempty]
    obtain ⟨_m_dev, hdev⟩ := Option.isSome_iff_exists.mp (hids.resolve_left hempty)
    rw [hdev]
    cases created with
    | none => exact ⟨g, _, rfl, by simp, ht.platforms, rfl, by simp⟩
    | some buffer =>
      cases written with
      | false => exact ⟨g, _, rfl, by simp, ht.platforms, rfl, by simp⟩
      | true =>
        refine ⟨_, _, rfl, by simp, rfl, rfl, fun name dev => ?_⟩
        rw [lookup_map_insert]
        simp

/-- A defined call keeps the dictionaries what the calls registered. -/
theorem tracks_call {c : Call} {answer : Answer} (ht : Tracks env before g)
    (hcall : call g c = some (g', answer)) (hserved : Served env before c) :
    Tracks env (before ++ [c]) g' := by
  have hkernel : ∀ name dev, registered_kernel env (before ++ [c]) name dev =
      kernel_after env name dev (registered_kernel env before name dev) c := by
    intro name dev
    rw [registered_kernel, List.foldl_append]
    rfl
  have hbuffer : ∀ name dev, registered_buffer env (before ++ [c]) name dev =
      buffer_after env name dev (registered_buffer env before name dev) c := by
    intro name dev
    rw [registered_buffer, List.foldl_append]
    rfl
  cases c with
  | add_kernel p d _kernelName built =>
    obtain ⟨g'', answer', hsome, -, hplatforms, hdata, hkernels⟩ :=
      add_kernel_eq ht hserved _kernelName built
    rw [call, hsome] at hcall
    cases hcall
    refine ⟨hplatforms, fun name dev => ?_, fun name dev => ?_⟩
    · rw [hkernel, hkernels, ht.kernels]
      rfl
    · rw [hbuffer, hdata, ht.buffers]
      rfl
  | add_data _alias p d created written =>
    obtain ⟨g'', answer', hsome, -, hplatforms, hkernels, hdata⟩ :=
      add_buffer_eq ht _alias created written hserved
    rw [call, hsome] at hcall
    cases hcall
    refine ⟨hplatforms, fun name dev => ?_, fun name dev => ?_⟩
    · rw [hkernel, hkernels, ht.kernels]
      rfl
    · rw [hbuffer, hdata, ht.buffers]
      rfl
  | delete_data _name _source =>
    cases hcall
    refine ⟨ht.platforms, fun name dev => ?_, fun name dev => ?_⟩
    · rw [hkernel]
      exact ht.kernels name dev
    · rw [hbuffer, ← ht.buffers, buffer_after, delete_buffer]
      by_cases hkey : _name = name ∧ _source = dev
      · obtain ⟨rfl, rfl⟩ := hkey
        rw [if_pos ⟨rfl, rfl⟩]
        exact AList.lookup_erase _ _
      · rw [if_neg hkey]
        refine AList.lookup_erase_ne fun heq => hkey ?_
        cases heq
        exact ⟨rfl, rfl⟩
  | execute r o =>
    rw [call] at hcall
    obtain ⟨a, -, heq⟩ := Option.map_eq_some_iff.mp hcall
    cases heq
    refine ⟨ht.platforms, fun name dev => ?_, fun name dev => ?_⟩
    · rw [hkernel]
      exact ht.kernels name dev
    · rw [hbuffer]
      exact ht.buffers name dev

/-! ## The requests that are served -/

/-- Behind the check, a request is defined and launches what is registered if and only if the
calls before it prepared it. -/
theorem execute_on_iff (ht : Tracks env before g)
    (hdev : index_device env r._platformId r._deviceId = some dev) :
    (∃ e, execute_on g dev r o = some e ∧ ∀ l, e = .ok l → LaunchesRegistered env before r l) ↔
      Prepared env before dev r o := by
  constructor
  · rintro ⟨e, hsome, hlaunch⟩
    obtain ⟨hkernel, hset⟩ := execute_on_isSome_iff.mp (Option.isSome_iff_exists.mpr ⟨e, hsome⟩)
    rw [ht.kernels] at hkernel
    refine ⟨hkernel, fun i _arg harg hbefore => ?_, fun hall => ?_⟩
    · rw [← ht.buffers]
      refine set_arguments_isSome_iff.mp hset i _arg harg fun j hj => ?_
      rw [Nat.zero_add]
      exact hbefore j hj
    · obtain ⟨l, rfl⟩ := execute_on_succeeds hsome hall
      obtain ⟨dev', -, -, hargs⟩ := hlaunch l rfl
      have hlength := congrArg List.length (hargs.trans (execute_on_launch hsome).2.1.symm)
      rw [List.length_map, List.length_map] at hlength
      exact set_args_length_iff.mp hlength.symm
  · intro h
    have hset : (set_arguments g dev r._kernelName o.set_argument 0 r.set_args).isSome := by
      refine set_arguments_isSome_iff.mpr fun i _arg harg hbefore => ?_
      rw [ht.buffers]
      refine h.buffers i _arg harg fun j hj => ?_
      have hj' := hbefore j hj
      rwa [Nat.zero_add] at hj'
    have hkernel := h.kernel
    rw [← ht.kernels] at hkernel
    obtain ⟨e, he⟩ := Option.isSome_iff_exists.mp (execute_on_isSome_iff.mpr ⟨hkernel, hset⟩)
    refine ⟨e, he, ?_⟩
    rintro l rfl
    obtain ⟨hlaunched, hbuffers, hall⟩ := execute_on_launch he
    have hwhole : r.set_args = r._args :=
      List.take_of_length_le (by
        have hlength := set_args_length_iff.mpr (h.fits hall)
        rw [request.set_args, List.length_take] at hlength
        omega)
    rw [hwhole] at hbuffers
    simp only [ht.buffers] at hbuffers
    rw [ht.kernels] at hlaunched
    exact ⟨dev, hdev, hlaunched, hbuffers⟩

theorem validated_execute_iff {e : Except Report Launch} :
    Validated env before (.execute r o) (.of e) ↔
      ∀ l, e = .ok l → LaunchesRegistered env before r l := by
  unfold Validated
  cases e with
  | error e => simp [Answer.of]
  | ok l => simp [Answer.of]

/-- A call is defined and obeys the law if and only if it is served. -/
theorem call_validated_iff (ht : Tracks env before g) (c : Call) :
    (∃ g' answer, call g c = some (g', answer) ∧ Validated env before c answer) ↔
      Served env before c := by
  cases c with
  | add_kernel p d _kernelName built =>
    constructor
    · rintro ⟨g', answer, hsome, -⟩
      by_contra hids
      rw [call, add_kernel, ht.platforms, find_device_past_end hids] at hsome
      cases hsome
    · intro hids
      obtain ⟨g', answer, hsome, hnone, -⟩ := add_kernel_eq ht hids _kernelName built
      exact ⟨g', answer, hsome, hnone⟩
  | add_data _alias p d created written =>
    constructor
    · rintro ⟨g', answer, hsome, -⟩
      by_contra hids
      obtain ⟨hempty, hdev⟩ := not_or.mp hids
      rw [call, add_buffer, ht.platforms, if_neg hempty,
        Option.not_isSome_iff_eq_none.mp hdev] at hsome
      cases hsome
    · intro hids
      obtain ⟨g', answer, hsome, hnone, -⟩ := add_buffer_eq ht _alias created written hids
      exact ⟨g', answer, hsome, hnone⟩
  | delete_data _name _source =>
    refine ⟨fun _ => trivial, fun _ => ⟨_, _, rfl, fun l h => ?_⟩⟩
    cases h
  | execute r o =>
    rw [call, execute, ht.platforms]
    by_cases hids : NotPastEnd env r._platformId r._deviceId
    · rw [find_device_eq hids, Option.bind_some]
      cases hdev : index_device env r._platformId r._deviceId with
      | none =>
        refine ⟨fun _ => ⟨hids, fun dev h => ?_⟩, fun _ => ⟨g, _, rfl, Or.inl ⟨_, rfl⟩⟩⟩
        rw [hdev] at h
        cases h
      | some dev =>
        constructor
        · rintro ⟨g', answer, hsome, hvalid⟩
          obtain ⟨a, ha, heq⟩ := Option.map_eq_some_iff.mp hsome
          obtain ⟨e, he, rfl⟩ := Option.map_eq_some_iff.mp ha
          cases heq
          refine ⟨hids, fun dev' hdev' => ?_⟩
          obtain rfl := Option.some.inj (hdev.symm.trans hdev')
          exact (execute_on_iff ht hdev).mp ⟨e, he, validated_execute_iff.mp hvalid⟩
        · rintro ⟨-, hprepared⟩
          obtain ⟨e, he, hlaunch⟩ := (execute_on_iff ht hdev).mpr (hprepared dev hdev)
          refine ⟨g, .of e, ?_, validated_execute_iff.mpr hlaunch⟩
          dsimp only
          rw [he]
          rfl
    · rw [find_device_past_end hids]
      refine ⟨?_, fun h => absurd h.1 hids⟩
      rintro ⟨g', answer, hsome, -⟩
      cases hsome

/-- The law of a run, from any state that holds what was registered. -/
theorem run_validated_iff (ht : Tracks env before g) (calls : List Call) :
    RunValidated env before g calls ↔ RunServed env before calls := by
  induction calls generalizing before g with
  | nil => exact Iff.rfl
  | cons c calls ih =>
    constructor
    · rintro ⟨g', answer, hsome, hvalid, hrest⟩
      have hserved := (call_validated_iff ht c).mp ⟨g', answer, hsome, hvalid⟩
      exact ⟨hserved, (ih (tracks_call ht hsome hserved)).mp hrest⟩
    · rintro ⟨hserved, hrest⟩
      obtain ⟨g', answer, hsome, hvalid⟩ := (call_validated_iff ht c).mpr hserved
      exact ⟨g', answer, hsome, hvalid, (ih (tracks_call ht hsome hserved)).mpr hrest⟩

/-- In a run of calls from the start of the process, every call is defined and every `execute`
launches with the handles registered for its device or reports an error, if and only if every call
is served. -/
theorem the_requests_are_validated_iff (env : List (List cl_device_id)) (calls : List Call) :
    RunValidated env [] (.start env) calls ↔ RunServed env [] calls :=
  run_validated_iff (tracks_start env) calls

end calls

/-- On one platform with one device, a request for platform 1 passes the check and reads behind the
list of platforms. -/
theorem a_request_behind_the_last_platform_is_not_refused :
    ¬ RunValidated [[7]] [] (.start [[7]])
      [.execute ⟨1, 0, "map", [], [], 1, 1⟩ ⟨fun _ => true, fun _ => true, true⟩] := by
  rintro ⟨g', answer, hsome, -⟩
  have hundefined : find_device [[7]] 1 0 = none := by decide
  rw [call, execute, Globals.start, hundefined] at hsome
  cases hsome

end hero.openCL_layer
