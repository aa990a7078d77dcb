-- The device names of `setup_environment`: what the enumeration puts into `mDeviceNames` and
-- `mDevices`, and when the names tell the devices apart.
import HeroDB.DataInterface
import Mathlib.Data.List.Infix
import Mathlib.Data.List.Nodup
import Mathlib.Logic.Function.Iterate

namespace hero.openCL_layer

/-! ## The enumeration -/

/-- A platform: its name, and how many devices it has. -/
structure platforms where
  mPlatformName : String
  device_local_count : Nat

/-- The name of the platform contains `CPU`. -/
def platforms.is_CPU (p : platforms) : Bool :=
  decide ("CPU".toList <:+: p.mPlatformName.toList)

/-- The key that the names of the devices of a platform start with. -/
def platforms.key (p : platforms) : String := if p.is_CPU then "CPU_" else "GPU_"

/-- The globals that map names to devices. -/
structure Environment where
  mDevices : AList (fun _ : String => Device)
  mDeviceNames : List String

/-- The globals of a new process. -/
def Environment.empty : Environment := ⟨∅, []⟩

/-- `map::insert` and `push_back` of one name. The map keeps an entry that is already there. -/
def register (env : Environment) (d : String × Device) : Environment :=
  { mDevices := if d.1 ∈ env.mDevices then env.mDevices else env.mDevices.insert d.1 d.2
    mDeviceNames := env.mDeviceNames ++ [d.1] }

/-- One turn of the loop over the devices of platform `i`. The key goes on to the next turn. -/
def add_device (i : Nat) (s : String × Environment) (j : Nat) : String × Environment :=
  (s.1 ++ toString (j + 1), register s.2 (s.1 ++ toString (j + 1), (i, j)))

/-- One turn of the loop over the platforms. -/
def add_platform (env : Environment) (p : platforms × Nat) : Environment :=
  ((List.range p.1.device_local_count).foldl (add_device p.2) (p.1.key, env)).2

def setup_environment (ps : List platforms) (env : Environment) : Environment :=
  ps.zipIdx.foldl add_platform env

/-- The globals after some calls of `initialize_openCL`. -/
def initialize_openCL (ps : List platforms) (calls : Nat) : Environment :=
  (setup_environment ps)^[calls] .empty

/-- The device that thread `i` of the exchange graph drives, `mDevices[mDeviceNames[i]]`. The
operator makes a new entry for a missing name. -/
def drive (env : Environment) (i : Nat) : Option Device :=
  env.mDeviceNames[i]?.map (fun name => (env.mDevices.lookup name).getD (0, 0))

/-- The devices, in the order of the enumeration. -/
def physical (ps : List platforms) : List Device :=
  ps.zipIdx.flatMap (fun p => (List.range p.1.device_local_count).map (fun j => (p.2, j)))

/-! ## The names -/

/-- The key after the turns of `n` devices. -/
def key_after (start : String) : Nat → String
  | 0 => start
  | n + 1 => key_after start n ++ toString (n + 1)

/-- The names of the devices of one platform. -/
def platforms.names (p : platforms) : List String :=
  (List.range p.device_local_count).map (fun j => key_after p.key (j + 1))

/-- The devices with their names, in the order of the enumeration. -/
def enumerated (ps : List platforms) : List (String × Device) :=
  ps.zipIdx.flatMap (fun p =>
    (List.range p.1.device_local_count).map (fun j => (key_after p.1.key (j + 1), (p.2, j))))

theorem key_after_strictMono (start : String) :
    StrictMono (fun n => (key_after start n).length) := by
  apply strictMono_nat_of_lt_succ
  intro n
  have hpos : 0 < (toString (n + 1)).length := Nat.length_repr_pos
  simp only [key_after, String.length_append]
  omega

theorem key_after_inj (start : String) {m n : Nat} (h : key_after start m = key_after start n) :
    m = n :=
  (key_after_strictMono start).injective (congrArg String.length h)

theorem key_after_starts (start : String) (n : Nat) :
    ∃ rest, key_after start n = start ++ rest := by
  induction n with
  | zero => exact ⟨"", by simp [key_after]⟩
  | succ n ih =>
    obtain ⟨rest, h⟩ := ih
    exact ⟨rest ++ toString (n + 1), by rw [key_after, h, String.append_assoc]⟩

/-- A name tells which of the two keys it starts with. -/
theorem key_of_key_after {p q : platforms} {m n : Nat}
    (h : key_after p.key m = key_after q.key n) : p.is_CPU = q.is_CPU := by
  obtain ⟨s, hs⟩ := key_after_starts p.key m
  obtain ⟨t, ht⟩ := key_after_starts q.key n
  rw [hs, ht] at h
  have hlist := congrArg String.toList h
  unfold platforms.key at hlist
  cases hp : p.is_CPU with
  | true =>
    cases hq : q.is_CPU with
    | true => rfl
    | false => simp [hp, hq] at hlist
  | false =>
    cases hq : q.is_CPU with
    | true => simp [hp, hq] at hlist
    | false => rfl

theorem names_nodup (p : platforms) : p.names.Nodup := by
  apply List.nodup_range.map
  intro i j h
  exact Nat.succ_injective (key_after_inj p.key h)

/-- Two platforms share a name when they have devices and keys of one kind, and only then. -/
theorem names_disjoint_iff (p q : platforms) :
    p.names.Disjoint q.names ↔
      (0 < p.device_local_count → 0 < q.device_local_count → p.is_CPU ≠ q.is_CPU) := by
  constructor
  · intro h hp hq hkind
    have hkey : p.key = q.key := by rw [platforms.key, platforms.key, hkind]
    refine h (a := key_after p.key 1) ?_ ?_
    · exact List.mem_map.mpr ⟨0, List.mem_range.mpr hp, rfl⟩
    · exact List.mem_map.mpr ⟨0, List.mem_range.mpr hq, by rw [hkey]⟩
  · intro h name hp hq
    obtain ⟨i, hi, rfl⟩ := List.mem_map.mp hp
    obtain ⟨j, hj, he⟩ := List.mem_map.mp hq
    rw [List.mem_range] at hi hj
    exact h (by omega) (by omega) (key_of_key_after he).symm

/-! ## The enumeration, name by name -/

theorem device_loop (i : Nat) (start : String) (env : Environment) (n : Nat) :
    (List.range n).foldl (add_device i) (start, env) =
      (key_after start n,
        ((List.range n).map (fun j => (key_after start (j + 1), (i, j)))).foldl register env) := by
  induction n with
  | zero => rfl
  | succ n ih =>
    rw [List.range_succ, List.foldl_append, ih, List.map_append, List.foldl_append]
    rfl

/-- The loops register the enumerated devices, one after the other. -/
theorem setup_environment_eq (ps : List platforms) (env : Environment) :
    setup_environment ps env = (enumerated ps).foldl register env := by
  unfold setup_environment enumerated
  rw [List.foldl_flatMap]
  congr 1
  funext env p
  rw [add_platform, device_loop]

theorem register_names (ds : List (String × Device)) (env : Environment) :
    (ds.foldl register env).mDeviceNames = env.mDeviceNames ++ ds.map Prod.fst := by
  induction ds generalizing env with
  | nil => simp
  | cons d rest ih =>
    rw [List.foldl_cons, ih]
    simp [register]

/-- A name that is there keeps its device. -/
theorem register_keeps (ds : List (String × Device)) (env : Environment) {name : String}
    {dev : Device} (h : env.mDevices.lookup name = some dev) :
    (ds.foldl register env).mDevices.lookup name = some dev := by
  induction ds generalizing env with
  | nil => exact h
  | cons d rest ih =>
    apply ih
    unfold register
    by_cases hmem : d.1 ∈ env.mDevices
    · simpa [hmem] using h
    · have hne : name ≠ d.1 := by
        rintro rfl
        rw [AList.lookup_eq_none.mpr hmem] at h
        cases h
      simpa [hmem, AList.lookup_insert_ne hne] using h

/-- New names that differ get their own devices. -/
theorem register_lookup (ds : List (String × Device)) (env : Environment)
    (hnd : (ds.map Prod.fst).Nodup) (hnew : ∀ d ∈ ds, d.1 ∉ env.mDevices) :
    ∀ d ∈ ds, (ds.foldl register env).mDevices.lookup d.1 = some d.2 := by
  induction ds generalizing env with
  | nil => exact fun d hd => absurd hd List.not_mem_nil
  | cons c rest ih =>
    rw [List.map_cons, List.nodup_cons] at hnd
    intro d hd
    rcases List.mem_cons.mp hd with rfl | hd
    · have hfresh := hnew d List.mem_cons_self
      rw [List.foldl_cons]
      apply register_keeps
      simp only [register, hfresh, if_false, AList.lookup_insert]
    · apply ih _ hnd.2 _ d hd
      intro x hx hmem
      have hxc : x.1 ≠ c.1 := fun he => hnd.1 (he ▸ List.mem_map_of_mem hx)
      unfold register at hmem
      split at hmem
      · exact hnew x (List.mem_cons_of_mem _ hx) hmem
      · rcases AList.mem_insert _ |>.mp hmem with he | hold
        · exact hxc he
        · exact hnew x (List.mem_cons_of_mem _ hx) hold

theorem enumerated_physical (ps : List platforms) :
    (enumerated ps).map Prod.snd = physical ps := by
  unfold enumerated physical
  rw [List.map_flatMap]
  simp only [List.map_map, Function.comp_def]

theorem enumerated_names (ps : List platforms) :
    (enumerated ps).map Prod.fst = ps.flatMap platforms.names := by
  have hfst : ps.zipIdx.map Prod.fst = ps := List.zipIdx_map_fst 0 ps
  conv_rhs => rw [← hfst]
  unfold enumerated platforms.names
  rw [List.map_flatMap, List.flatMap_map]
  simp only [List.map_map, Function.comp_def]

theorem physical_length (ps : List platforms) : (physical ps).length = (enumerated ps).length := by
  rw [← enumerated_physical, List.length_map]

/-- The enumeration meets each device once. -/
theorem physical_nodup (ps : List platforms) : (physical ps).Nodup := by
  unfold physical
  rw [List.nodup_flatMap]
  constructor
  · intro p _
    apply List.nodup_range.map
    intro i j h
    exact (Prod.mk.inj h).2
  · rw [List.pairwise_iff_getElem]
    intro m n hm hn hlt dev hp hq
    simp only [List.getElem_zipIdx, List.mem_map] at hp hq
    obtain ⟨i, _, rfl⟩ := hp
    obtain ⟨j, _, he⟩ := hq
    have := (Prod.mk.inj he).1
    omega

theorem initialize_openCL_length (ps : List platforms) (calls : Nat) :
    (initialize_openCL ps calls).mDeviceNames.length = calls * (physical ps).length := by
  induction calls with
  | zero => simp [initialize_openCL, Environment.empty]
  | succ n ih =>
    rw [initialize_openCL, Function.iterate_succ_apply', setup_environment_eq, register_names,
      List.length_append, ← initialize_openCL, ih, List.length_map, physical_length,
      Nat.add_mul, Nat.one_mul]

/-! ## The law -/

/-- What the callers need from the names: they differ, there is one for each device, the name
at the place of a device leads to it, and the threads of the exchange graph drive different
devices. -/
structure NamesTheDevices (ps : List platforms) (env : Environment) : Prop where
  distinct : env.mDeviceNames.Nodup
  one_each : env.mDeviceNames.length = (physical ps).length
  named : ∀ (k : Nat) (dev : Device), (physical ps)[k]? = some dev →
    ∃ name, env.mDeviceNames[k]? = some name ∧ env.mDevices.lookup name = some dev
  threads_differ : ∀ (k l : Nat) (dev : Device),
    drive env k = some dev → drive env l = some dev → k = l

/-- Of two platforms with devices, one is a CPU platform and one is not. -/
def KindsDiffer (ps : List platforms) : Prop :=
  ps.Pairwise (fun p q =>
    0 < p.device_local_count → 0 < q.device_local_count → p.is_CPU ≠ q.is_CPU)

theorem enumerated_names_nodup_iff (ps : List platforms) :
    ((enumerated ps).map Prod.fst).Nodup ↔ KindsDiffer ps := by
  rw [enumerated_names, List.nodup_flatMap, KindsDiffer]
  simp only [names_nodup, implies_true, true_and]
  exact List.Pairwise.iff (fun p q => names_disjoint_iff p q)

/-- One enumeration whose names differ names the devices. -/
theorem names_the_devices (ps : List platforms) (h : KindsDiffer ps) :
    NamesTheDevices ps (initialize_openCL ps 1) := by
  have hnd := (enumerated_names_nodup_iff ps).mpr h
  have henv : initialize_openCL ps 1 = (enumerated ps).foldl register .empty :=
    setup_environment_eq ps .empty
  have hnames : (initialize_openCL ps 1).mDeviceNames = (enumerated ps).map Prod.fst := by
    rw [henv, register_names]
    rfl
  have hlookup : ∀ d ∈ enumerated ps,
      (initialize_openCL ps 1).mDevices.lookup d.1 = some d.2 := by
    rw [henv]
    exact register_lookup _ _ hnd (fun d _ hmem => by simp [Environment.empty] at hmem)
  have hdrive : ∀ k dev, drive (initialize_openCL ps 1) k = some dev →
      (physical ps)[k]? = some dev := by
    intro k dev hk
    rw [drive, hnames, List.getElem?_map, Option.map_map, Option.map_eq_some_iff] at hk
    obtain ⟨d, hd, he⟩ := hk
    rw [Function.comp_apply, hlookup d (List.mem_of_getElem? hd), Option.getD_some] at he
    rw [← enumerated_physical, List.getElem?_map, hd, ← he]
    rfl
  refine ⟨hnames ▸ hnd, ?_, ?_, ?_⟩
  · rw [hnames, List.length_map, physical_length]
  · intro k dev hk
    rw [← enumerated_physical, List.getElem?_map, Option.map_eq_some_iff] at hk
    obtain ⟨d, hd, rfl⟩ := hk
    exact ⟨d.1, by rw [hnames, List.getElem?_map, hd]; rfl, hlookup d (List.mem_of_getElem? hd)⟩
  · intro k l dev hk hl
    have hk' := hdrive k dev hk
    have hlt := (List.getElem?_eq_some_iff.mp hk').1
    exact (List.getElem?_inj hlt (physical_nodup ps)).mp (hk'.trans (hdrive l dev hl).symm)

/-- The names tell the devices apart if and only if there are no devices, or there was one
enumeration and no two platforms with devices are of one kind. A second enumeration appends all
names again, and two platforms of one kind start with the same name. -/
theorem names_tell_the_devices_apart_iff (ps : List platforms) (calls : Nat) :
    NamesTheDevices ps (initialize_openCL ps calls) ↔
      physical ps = [] ∨ (calls = 1 ∧ KindsDiffer ps) := by
  constructor
  · intro h
    by_cases hnone : physical ps = []
    · exact .inl hnone
    · right
      have hpos : 0 < (physical ps).length := List.length_pos_iff.mpr hnone
      have hlen := h.one_each
      rw [initialize_openCL_length] at hlen
      have hone : calls = 1 := Nat.eq_of_mul_eq_mul_right hpos (by rw [hlen, Nat.one_mul])
      subst hone
      have hnd := h.distinct
      rw [initialize_openCL, Function.iterate_one, setup_environment_eq, register_names] at hnd
      exact ⟨rfl, (enumerated_names_nodup_iff ps).mp (by simpa [Environment.empty] using hnd)⟩
  · rintro (hnone | ⟨rfl, hkinds⟩)
    · have hlen := initialize_openCL_length ps calls
      rw [hnone, List.length_nil, Nat.mul_zero, List.length_eq_zero_iff] at hlen
      refine ⟨by rw [hlen]; exact List.nodup_nil, by rw [hlen, hnone]; rfl, ?_, ?_⟩
      · intro k dev hk
        simp [hnone] at hk
      · intro k l dev hk
        simp [drive, hlen] at hk
    · exact names_the_devices ps hkinds

/-- Two queries in one process, on a machine with one GPU: the name `GPU_1` is there twice. -/
theorem a_second_initialisation_repeats_the_names :
    ¬ NamesTheDevices [⟨"NVIDIA CUDA", 1⟩] (initialize_openCL [⟨"NVIDIA CUDA", 1⟩] 2) := by
  intro h
  have hlen := h.one_each
  rw [initialize_openCL_length] at hlen
  exact absurd hlen (by decide)

end hero.openCL_layer
