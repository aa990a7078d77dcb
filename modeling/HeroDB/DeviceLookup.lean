-- Looking devices up by their names and back. `get_device_name` compares the platform twice and the
-- device never, so that it gives one name for all devices of a platform.
import HeroDB.Environment
import Mathlib.Data.String.Basic
import HeroDB.Lib.MapIterators

namespace hero.openCL_layer

open map_iterators

/-- The loop returns the first name, in the order of the names, whose entry passes the test. Without
one the function ends without a `return`, which is undefined behaviour. -/
def get_device_name (env : Environment) (PID _DID : Nat) : Option String :=
  ((in_order env.mDevices).find? (fun d => d.2.1 == PID && d.2.1 == PID)).map (·.1)

/-- It exits when there is no entry of the name. -/
def get_id (env : Environment) (_dev_name : String) : Option Device := env.mDevices.lookup _dev_name

/-- The name of each enumerated device leads to the device, and the device of each name to the
name. -/
structure RoundTrips (ps : List platforms) (env : Environment) : Prop where
  of_device : ∀ dev ∈ physical ps, (get_device_name env dev.1 dev.2).bind (get_id env) = some dev
  of_name : ∀ name ∈ env.mDevices,
    (get_id env name).bind (fun dev => get_device_name env dev.1 dev.2) = some name

/-! ## Names and devices -/

/-- The names are those of the enumerated devices, and each of these has one. -/
structure OneNameEach (ps : List platforms) (env : Environment) : Prop where
  named : ∀ dev ∈ physical ps, ∃ name, env.mDevices.lookup name = some dev
  enumerated : ∀ name dev, env.mDevices.lookup name = some dev → dev ∈ physical ps
  one_name : ∀ name name' dev, env.mDevices.lookup name = some dev →
    env.mDevices.lookup name' = some dev → name = name'

section lookup

variable {env : Environment} {ps : List platforms} {PID DID : Nat} {name : String} {dev : Device}

/-- The name that the loop returns is one of a device of the platform. -/
theorem get_device_name_some (h : get_device_name env PID DID = some name) :
    ∃ d, env.mDevices.lookup name = some (PID, d) := by
  obtain ⟨⟨found, p, d⟩, hfind, rfl⟩ := Option.map_eq_some_iff.mp h
  have htest := List.find?_some hfind
  simp only [Bool.and_self, beq_iff_eq] at htest
  subst htest
  exact ⟨d, mem_in_order.mp (List.mem_of_find?_eq_some hfind)⟩

theorem get_device_name_isSome (h : env.mDevices.lookup name = some dev) :
    ∃ name', get_device_name env dev.1 dev.2 = some name' := by
  have hsome : ((in_order env.mDevices).find?
      (fun d => d.2.1 == dev.1 && d.2.1 == dev.1)).isSome := by
    rw [List.find?_isSome]
    exact ⟨(name, dev), mem_in_order.mpr h, by simp⟩
  obtain ⟨d, hd⟩ := Option.isSome_iff_exists.mp hsome
  exact ⟨d.1, by rw [get_device_name, hd]; rfl⟩

theorem mem_physical : dev ∈ physical ps ↔
    ∃ p, ps[dev.1]? = some p ∧ dev.2 < p.device_local_count := by
  obtain ⟨i, j⟩ := dev
  unfold physical
  rw [List.mem_flatMap]
  constructor
  · rintro ⟨⟨p, n⟩, hp, hdev⟩
    rw [List.mem_map] at hdev
    obtain ⟨k, hk, heq⟩ := hdev
    cases heq
    exact ⟨p, List.mem_zipIdx_iff_getElem?.mp hp, List.mem_range.mp hk⟩
  · rintro ⟨p, hp, hj⟩
    exact ⟨(p, i), List.mem_zipIdx_iff_getElem?.mpr hp,
      List.mem_map.mpr ⟨j, List.mem_range.mpr hj, rfl⟩⟩

/-- With at most one device on each platform, the platform tells the device. -/
theorem same_device (h : ∀ p ∈ ps, p.device_local_count ≤ 1) {d d' : Nat}
    (hd : (PID, d) ∈ physical ps) (hd' : (PID, d') ∈ physical ps) : d = d' := by
  obtain ⟨p, hp, hlt⟩ := mem_physical.mp hd
  obtain ⟨p', hp', hlt'⟩ := mem_physical.mp hd'
  rw [hp, Option.some.injEq] at hp'
  subst hp'
  have hone := h p (List.mem_of_getElem? hp)
  simp only at hlt hlt'
  omega

/-- The lookups are inverse to each other if and only if no platform has two devices, whatever the
names are and in whatever order they stand. -/
theorem round_trips_of_one_name_each (hnames : OneNameEach ps env) :
    RoundTrips ps env ↔ ∀ p ∈ ps, p.device_local_count ≤ 1 := by
  constructor
  · intro h p hp
    by_contra hmany
    obtain ⟨i, hi⟩ := List.mem_iff_getElem?.mp hp
    have hfirst := h.of_device (i, 0) (mem_physical.mpr ⟨p, hi, by omega⟩)
    have hsecond := h.of_device (i, 1) (mem_physical.mpr ⟨p, hi, by omega⟩)
    -- the index of the device plays no part in the search
    have hsame : get_device_name env i 0 = get_device_name env i 1 := rfl
    simp only at hfirst hsecond
    rw [hsame, hsecond] at hfirst
    cases hfirst
  · intro hone
    refine ⟨fun dev hdev => ?_, fun name hname => ?_⟩
    · obtain ⟨name, hname⟩ := hnames.named dev hdev
      obtain ⟨found, hfound⟩ := get_device_name_isSome hname
      obtain ⟨d, hd⟩ := get_device_name_some hfound
      have heq : d = dev.2 := same_device hone (hnames.enumerated found _ hd) hdev
      rw [hfound, Option.bind_some, get_id, hd, heq]
    · obtain ⟨dev, hdev⟩ := Option.isSome_iff_exists.mp (AList.lookup_isSome.mpr hname)
      obtain ⟨found, hfound⟩ := get_device_name_isSome hdev
      obtain ⟨d, hd⟩ := get_device_name_some hfound
      have heq : d = dev.2 :=
        same_device hone (hnames.enumerated found _ hd) (hnames.enumerated name dev hdev)
      rw [get_id, hdev, Option.bind_some, hfound]
      rw [heq] at hd
      exact congrArg some (hnames.one_name found name dev hd hdev)

end lookup

/-! ## The names of the enumeration -/

section enumeration

variable {ps : List platforms}

theorem register_only (ds : List (String × Device)) (env : Environment) {name : String}
    {dev : Device} (h : (ds.foldl register env).mDevices.lookup name = some dev) :
    env.mDevices.lookup name = some dev ∨ (name, dev) ∈ ds := by
  induction ds generalizing env with
  | nil => exact .inl h
  | cons d rest ih =>
    rcases ih (register env d) h with hold | hrest
    · unfold register at hold
      split at hold
      · exact .inl hold
      · by_cases hname : name = d.1
        · subst hname
          rw [AList.lookup_insert, Option.some.injEq] at hold
          subst hold
          exact .inr List.mem_cons_self
        · rw [AList.lookup_insert_ne hname] at hold
          exact .inl hold
    · exact .inr (List.mem_cons_of_mem d hrest)

theorem mem_register (env : Environment) (d : String × Device) :
    d.1 ∈ (register env d).mDevices := by
  unfold register
  split
  · assumption
  · exact AList.mem_insert _ |>.mpr (.inl rfl)

/-- Each name of the enumeration is in the map, whether or not the names differ. -/
theorem registers_mem (ds : List (String × Device)) (env : Environment) :
    ∀ d ∈ ds, d.1 ∈ (ds.foldl register env).mDevices := by
  induction ds generalizing env with
  | nil => exact fun d hd => absurd hd List.not_mem_nil
  | cons c rest ih =>
    intro d hd
    rcases List.mem_cons.mp hd with rfl | hd
    · obtain ⟨dev, hdev⟩ := Option.isSome_iff_exists.mp
        (AList.lookup_isSome.mpr (mem_register env d))
      rw [← AList.lookup_isSome, List.foldl_cons, register_keeps rest _ hdev]
      rfl
    · exact ih (register env c) d hd

/-- The names that are there already keep the map as it is. -/
theorem registers_again (ds : List (String × Device)) (env : Environment)
    (h : ∀ d ∈ ds, d.1 ∈ env.mDevices) : (ds.foldl register env).mDevices = env.mDevices := by
  induction ds generalizing env with
  | nil => rfl
  | cons d rest ih =>
    have hsame : (register env d).mDevices = env.mDevices := by
      unfold register
      rw [if_pos (h d List.mem_cons_self)]
    rw [List.foldl_cons, ih (register env d), hsame]
    intro x hx
    rw [hsame]
    exact h x (List.mem_cons_of_mem d hx)

/-- Further calls leave the map of the first one. -/
theorem initialized_once (ps : List platforms) (calls : Nat) :
    (initialize_openCL ps (calls + 1)).mDevices = (initialize_openCL ps 1).mDevices := by
  induction calls with
  | zero => rfl
  | succ n ih =>
    unfold initialize_openCL at ih ⊢
    rw [Function.iterate_succ_apply', setup_environment_eq, registers_again, ih]
    rw [ih, Function.iterate_one, setup_environment_eq]
    exact registers_mem (enumerated ps) .empty

/-- With names that differ, the map holds the enumeration. -/
theorem lookup_initialized {calls : Nat} (hcalls : 0 < calls)
    (hdistinct : ((enumerated ps).map Prod.fst).Nodup) {name : String} {dev : Device} :
    (initialize_openCL ps calls).mDevices.lookup name = some dev ↔ (name, dev) ∈ enumerated ps := by
  obtain ⟨n, rfl⟩ := Nat.exists_eq_add_of_lt hcalls
  rw [Nat.zero_add, initialized_once, initialize_openCL, Function.iterate_one,
    setup_environment_eq]
  constructor
  · intro h
    exact (register_only _ _ h).resolve_left (by simp [Environment.empty])
  · intro h
    exact register_lookup _ _ hdistinct (fun d _ hmem => by simp [Environment.empty] at hmem)
      (name, dev) h

theorem one_name_each {calls : Nat} (hcalls : 0 < calls)
    (hdistinct : ((enumerated ps).map Prod.fst).Nodup) :
    OneNameEach ps (initialize_openCL ps calls) := by
  refine ⟨fun dev hdev => ?_, fun name dev h => ?_, fun name name' dev h h' => ?_⟩
  · rw [← enumerated_physical, List.mem_map] at hdev
    obtain ⟨⟨name, d⟩, hmem, rfl⟩ := hdev
    exact ⟨name, (lookup_initialized hcalls hdistinct).mpr hmem⟩
  · rw [← enumerated_physical]
    exact List.mem_map_of_mem ((lookup_initialized hcalls hdistinct).mp h)
  · have hnodup : ((enumerated ps).map Prod.snd).Nodup := by
      rw [enumerated_physical]
      exact physical_nodup ps
    have hpair := List.inj_on_of_nodup_map hnodup ((lookup_initialized hcalls hdistinct).mp h)
      ((lookup_initialized hcalls hdistinct).mp h') rfl
    exact congrArg Prod.fst hpair

end enumeration

/-! ## The law -/

/-- After the enumeration of devices whose names differ, the two lookups are inverse to each other
if and only if no platform has two devices. -/
theorem device_lookup_round_trips_iff (ps : List platforms) {calls : Nat} (hcalls : 0 < calls)
    (hdistinct : ((enumerated ps).map Prod.fst).Nodup) :
    RoundTrips ps (initialize_openCL ps calls) ↔ ∀ p ∈ ps, p.device_local_count ≤ 1 :=
  round_trips_of_one_name_each (one_name_each hcalls hdistinct)

/-- A CPU and a GPU. -/
theorem a_cpu_and_a_gpu_round_trip :
    RoundTrips [⟨"Intel CPU", 1⟩, ⟨"NVIDIA CUDA", 1⟩]
      (initialize_openCL [⟨"Intel CPU", 1⟩, ⟨"NVIDIA CUDA", 1⟩] 1) := by
  refine (device_lookup_round_trips_iff _ Nat.one_pos ?_).mpr ?_
  · rw [enumerated_names_nodup_iff]
    refine List.pairwise_pair.mpr fun _ _ => ?_
    decide
  · intro p hp
    simp only [List.mem_cons, List.not_mem_nil, or_false] at hp
    rcases hp with rfl | rfl <;> exact Nat.le_refl 1

/-- A platform with two GPUs, whose names are `GPU_1` and `GPU_12`. -/
theorem two_gpus_share_a_name :
    ((enumerated [⟨"NVIDIA CUDA", 2⟩]).map Prod.fst).Nodup ∧
      ¬RoundTrips [⟨"NVIDIA CUDA", 2⟩] (initialize_openCL [⟨"NVIDIA CUDA", 2⟩] 1) := by
  have hdistinct : ((enumerated [⟨"NVIDIA CUDA", 2⟩]).map Prod.fst).Nodup := by
    rw [enumerated_names_nodup_iff]
    exact List.pairwise_singleton _ _
  refine ⟨hdistinct, fun h => ?_⟩
  have hone := (round_trips_of_one_name_each (one_name_each Nat.one_pos hdistinct)).mp h
    ⟨"NVIDIA CUDA", 2⟩ List.mem_cons_self
  exact absurd hone (by decide)

end hero.openCL_layer
