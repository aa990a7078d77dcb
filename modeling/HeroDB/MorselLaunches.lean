-- Do the sub-buffers of the data-parallel executor hold the words that its launches address? A
-- selection registers the bits of a morsel under the alias under which an operation on the same
-- device looks for a whole morsel of words.
import HeroDB.MorselArguments
import HeroDB.MorselReads

namespace hero.data_parallelism

open hero.transition

/-! ## What the processing loop has found -/

namespace Memory

variable (m : Memory) (v d offset : Nat)

/-- The sub-buffer for the results of the morsel is there. -/
def has_result : Prop :=
  m.present (compute_alias_name_for_offset (m.operation v).result_name
    (get_result_buffer_offset (m.operation v) offset)) d

/-- The sub-buffer of argument `j` for the morsel is there. -/
def has_argument (j : Nat) : Prop :=
  ∃ name, (m.operation v).input_arg_names[j]? = some name ∧
    m.present (compute_alias_name_for_offset name offset) d

end Memory

/-- What the processing loop has found of the morsel at its offset. -/
def Found (m : Memory) (v d : Nat) : ProcessPc → Prop
  | .loop offset created => ng_morsel_size ∣ offset ∧ (created = true → m.has_result v d offset)
  | .sub_buffer offset | .put_processed offset | .put_edge offset => ng_morsel_size ∣ offset
  | .test offset i => ng_morsel_size ∣ offset ∧ m.has_result v d offset ∧
      ∀ j < i, m.has_argument v d offset j
  | .execute offset => ng_morsel_size ∣ offset ∧ m.has_result v d offset ∧
      ∀ j < (m.operation v).operationType.no_of_args - 1, m.has_argument v d offset j
  | _ => True

section found

variable {m m' : Memory} {v d offset : Nat}

/-- What is found stays, as long as the names stay and no key is lost. -/
theorem found_kept {pc : ProcessPc}
    (htype : (m'.operation v).operationType = (m.operation v).operationType)
    (hresult : (m'.operation v).result_name = (m.operation v).result_name)
    (hargs : (m'.operation v).input_arg_names = (m.operation v).input_arg_names)
    (hkeys : ∀ key ∈ m.data_dictionary, key ∈ m'.data_dictionary) (h : Found m v d pc) :
    Found m' v d pc := by
  have hoffset : ∀ offset, get_result_buffer_offset (m'.operation v) offset =
      get_result_buffer_offset (m.operation v) offset := by
    intro offset
    unfold get_result_buffer_offset
    rw [htype]
  have hhas : ∀ offset, m.has_result v d offset → m'.has_result v d offset := by
    intro offset hpresent
    unfold Memory.has_result
    rw [hresult, hoffset]
    exact hkeys _ hpresent
  have hargument : ∀ offset j, m.has_argument v d offset j → m'.has_argument v d offset j := by
    rintro offset j ⟨name, hname, hpresent⟩
    refine ⟨name, ?_, hkeys _ hpresent⟩
    rw [hargs]
    exact hname
  cases pc with
  | loop offset created => exact ⟨h.1, fun hcreated => hhas offset (h.2 hcreated)⟩
  | test offset i => exact ⟨h.1, hhas offset h.2.1, fun j hj => hargument offset j (h.2.2 j hj)⟩
  | execute offset =>
    refine ⟨h.1, hhas offset h.2.1, fun j hj => hargument offset j (h.2.2 j ?_)⟩
    rw [← htype]
    exact hj
  | sub_buffer offset => exact h
  | put_processed offset => exact h
  | put_edge offset => exact h
  | unborn => trivial
  | wait => trivial
  | put_EOD => trivial
  | finished => trivial

theorem next_morsel_dvd (h : ng_morsel_size ∣ offset) :
    ng_morsel_size ∣ size_add offset ng_morsel_size := by
  unfold size_add SIZE
  unfold ng_morsel_size at *
  omega

/-- The processing loop goes on from morsel to morsel, and it launches after it has found a
sub-buffer for the results and one for each argument. -/
theorem found_step {c : Setup} {pc pc' : ProcessPc}
    (hstep : process_data (c.plan.findVertexDetails v) d pc m = some (pc', m'))
    (h : Found m v d pc) : Found m' v d pc' := by
  cases pc with
  | unborn => cases hstep
  | wait =>
    cases hstep
    split
    · exact ⟨Nat.dvd_zero _, fun hcreated => by cases hcreated⟩
    · trivial
  | loop offset created =>
    obtain ⟨hdvd, hcreated⟩ := h
    simp only [process_data] at hstep
    split at hstep
    · cases hstep
      split
      · rename_i hyes
        exact ⟨hdvd, hcreated hyes, fun j hj => absurd hj (Nat.not_lt_zero j)⟩
      · exact hdvd
    · cases hstep
      split <;> trivial
  | sub_buffer offset =>
    simp only [process_data, Option.bind_eq_bind, Option.bind_eq_some_iff] at hstep
    obtain ⟨m₁, hsub, hstep⟩ := hstep
    cases hstep
    unfold Memory.create_sub_buffer at hsub
    split at hsub
    · cases hsub
      exact ⟨h, List.mem_cons_self, fun j hj => absurd hj (Nat.not_lt_zero j)⟩
    · cases hsub
  | test offset i =>
    obtain ⟨hdvd, hresult, hargs⟩ := h
    simp only [process_data] at hstep
    split at hstep
    · simp only [Option.bind_eq_bind, Option.bind_eq_some_iff] at hstep
      obtain ⟨name, hname, hstep⟩ := hstep
      split at hstep
      · rename_i hpresent
        cases hstep
        refine ⟨hdvd, hresult, fun j hj => ?_⟩
        rcases Nat.lt_succ_iff_lt_or_eq.mp hj with hlt | rfl
        · exact hargs j hlt
        · exact ⟨name, hname, hpresent.1⟩
      · cases hstep
        exact ⟨hdvd, fun _ => hresult⟩
    · rename_i hlast
      cases hstep
      exact ⟨hdvd, hresult, fun j hj => hargs j (Nat.lt_of_lt_of_le hj (Nat.not_lt.mp hlast))⟩
  | execute offset =>
    cases hstep
    exact h.1
  | put_processed offset =>
    simp only [process_data, Option.some.injEq, Prod.mk.injEq] at hstep
    obtain ⟨rfl, -⟩ := hstep
    split
    · exact h
    · exact ⟨next_morsel_dvd h, fun hcreated => by cases hcreated⟩
  | put_edge offset =>
    simp only [process_data, Option.bind_eq_bind, Option.bind_eq_some_iff] at hstep
    obtain ⟨out, -, hstep⟩ := hstep
    simp only [Option.some.injEq, Prod.mk.injEq] at hstep
    obtain ⟨rfl, -⟩ := hstep
    exact ⟨next_morsel_dvd h, fun hcreated => by cases hcreated⟩
  | put_EOD =>
    simp only [process_data, Option.bind_eq_bind, Option.bind_eq_some_iff] at hstep
    obtain ⟨out, -, hstep⟩ := hstep
    cases hstep
    trivial
  | finished => cases hstep

end found

/-! ## The threads of a vertex -/

variable {c : Setup} {queue : List Nat} {s s' : State} {move : Move}

/-- The transfer thread names the result buffer first, and the processing loop starts after the
setup. -/
structure Launching (c : Setup) (m : Memory) (d v : Nat) (transfer : TransferPc)
    (process : ProcessPc) : Prop where
  named : transfer ≠ .start → (m.operation v).result_name =
    get_result_buffer_name (c.device_type d) (get_operation_alias_name (v - 1))
  waits : process = .wait ∨ transfer.ready = true
  found : Found m v d process

def AllLaunching (c : Setup) (s : State) : Prop :=
  ∀ d v transfer process, s.device d = .run v transfer process →
    Launching c s.memory d v transfer process

/-- A step keeps what holds of the threads of a vertex: the names that they use are set. -/
theorem Launching.after {d v : Nat} {transfer : TransferPc} {process : ProcessPc}
    (h : Launching c s.memory d v transfer process) (howned : Owned s)
    (hrenames : Renames c s move s') (hpc : s.device d = .run v transfer process) :
    Launching c s'.memory d v transfer process := by
  have hsame : ∀ {d' : Nat} {transfer' : TransferPc} {process' : ProcessPc},
      s.device d' = .run v transfer' process' → transfer' = transfer := by
    intro d' transfer' process' hpc'
    have hd : d' = d := howned.apart d' d v (by rw [hpc']; rfl) (by rw [hpc]; rfl)
    subst hd
    rw [hpc] at hpc'
    cases hpc'
    rfl
  have hresult : transfer ≠ .start →
      (s'.memory.operation v).result_name = (s.memory.operation v).result_name :=
    fun hstarted => hrenames.result_name v (fun d' process' hpc' => hstarted (hsame hpc').symm)
  refine ⟨fun hstarted => (hresult hstarted).trans (h.named hstarted), h.waits, ?_⟩
  rcases h.waits with rfl | hready
  · trivial
  · have hargs : (s'.memory.operation v).input_arg_names = (s.memory.operation v).input_arg_names := by
      rcases hrenames.input_arg_names v with hkept | ⟨d', i, max, process', e, name, -, hpc', -⟩
      · exact hkept
      · rw [← hsame hpc'] at hready
        cases hready
    refine found_kept (hrenames.operationType v) (hresult ?_) hargs
      (fun key hkey => (hrenames.dictionary key).mpr (.inl hkey)) h.found
    rintro rfl
    cases hready

theorem run_put_cases {d d' v : Nat} {pc : DevicePc} {m : Memory} {transfer : TransferPc}
    {process : ProcessPc} (h : (s.put d pc m).device d' = .run v transfer process) :
    s.device d' = .run v transfer process ∨ d' = d ∧ pc = .run v transfer process := by
  by_cases hd : d' = d
  · subst hd
    rw [put_device_self] at h
    exact .inr ⟨rfl, h⟩
  · rw [put_device_ne s hd] at h
    exact .inl h

theorem launching_step (h : AllLaunching c s) (hnamed : Named c queue s) (howned : Owned s)
    (hstep : c.step s move = some s') : AllLaunching c s' := by
  have hrenames := renames_of_step hstep
  intro d v transfer process hpc
  have hkept : s.device d = .run v transfer process → Launching c s'.memory d v transfer process :=
    fun hold => (h d v transfer process hold).after howned hrenames hold
  cases ran_of_step hstep with
  | stops d' _ => exact hkept (run_of_put (by simp) hpc)
  | pops d' w rest _ _ =>
    by_cases hd : d = d'
    · subst hd
      simp only [put_device_self] at hpc
      cases hpc
    · simp only [put_device_ne s hd] at hpc
      exact hkept hpc
  | visits d' w i _ =>
    rcases run_put_cases hpc with hold | ⟨-, hnew⟩
    · exact hkept hold
    · unfold Setup.visit_edge at hnew
      split at hnew
      · cases hnew
        exact ⟨fun hstarted => absurd rfl hstarted, .inl rfl, trivial⟩
      · split at hnew <;> cases hnew
  | helped d' w i _ => exact hkept (run_of_put (by simp) hpc)
  | sizes d' w i e _ => exact hkept (run_of_put (by simp) hpc)
  | joins d' w max _ => exact hkept (run_of_put (by simp) hpc)
  | helps d' w i e helper helper' m _ _ _ => exact hkept (run_of_put (by simp) hpc)
  | processes d' w transfer' process' process'' m hold hprocess =>
    rcases run_put_cases hpc with hsame | ⟨rfl, hnew⟩
    · exact hkept hsame
    · cases hnew
      have hbefore := h d v transfer process' hold
      refine ⟨(hbefore.after howned hrenames hold).named, ?_, found_step hprocess hbefore.found⟩
      rcases hbefore.waits with rfl | hready
      · cases hprocess
        split
        · rename_i hinit
          obtain ⟨_, _, hrun, hready⟩ := howned.late d v (by rw [hold]; rfl) hinit
          rw [hold] at hrun
          cases hrun
          exact .inr hready
        · exact .inl rfl
      · exact .inr hready
  | transfers d' w transfer' transfer'' process' m hold htransfer =>
    rcases run_put_cases hpc with hsame | ⟨rfl, hnew⟩
    · exact hkept hsame
    · cases hnew
      have hafter := (h d v transfer' process hold).after howned hrenames hold
      have hnames := transfer_names htransfer
      refine ⟨fun _ => ?_, ?_, hafter.found⟩
      · by_cases hstart : transfer' = .start
        · refine (hnames.result_name v).trans ?_
          rw [if_pos ⟨rfl, hstart⟩]
          exact congrArg _ (hnamed.name v (hnamed.held d v (by rw [hold]; rfl)).1)
        · exact hafter.named hstart
      · exact hafter.waits.imp_right fun hready => (transfer_step htransfer).ready.mpr (.inl hready)

/-! ## The registrations -/

/-- What the threads register: buffers, sub-buffers of a whole morsel, and those for bits. The bits
of a result buffer are on the device of its operation, and those that a helper leaves for the
consumer are at no multiple of the morsel size. -/
inductive Entry (c : Setup) (queue : List Nat) (s : State) : Registration → Prop
  | buffer (name : Name) (d words : Nat) : BufferName name → Entry c queue s ((name, d), words)
  | morsel (name : Name) (offset d words : Nat) : ng_morsel_size ≤ words →
      Entry c queue s ((compute_alias_name_for_offset name offset, d), words)
  | shared_bits (name : Name) (offset d : Nat) : ¬ng_morsel_size ∣ offset →
      Entry c queue s ((compute_alias_name_for_offset name offset, d), ng_morsel_size / 32)
  | bits (u : Nat) (t : Device_Type) (offset d : Nat) : c.Bits u → Taken queue s u →
      (s.memory.node u).executionDevice = d →
      Entry c queue s ((compute_alias_name_for_offset
        (get_result_buffer_name t (get_operation_alias_name (u - 1))) offset, d),
        ng_morsel_size / 32)

theorem Entry.after (hrenames : Renames c s move s') {r : Registration} (h : Entry c queue s r) :
    Entry c queue s' r := by
  cases h with
  | buffer name d words hname => exact .buffer name d words hname
  | morsel name offset d words hwords => exact .morsel name offset d words hwords
  | shared_bits name offset d hoffset => exact .shared_bits name offset d hoffset
  | bits u t offset d hbits hu hdevice =>
    refine .bits u t offset d hbits (hu.after hrenames) ?_
    rw [hrenames.executionDevice u hu.2]
    exact hdevice

theorem Named.bits_of (h : Named c queue s) (hnumbered : Numbered c queue) (v : Nat) :
    c.Bits v ∧ compute_result_morsel_size (s.memory.operation v) = ng_morsel_size / 32 ∨
      ¬c.Bits v ∧ compute_result_morsel_size (s.memory.operation v) = ng_morsel_size := by
  have hkind := hnumbered.kind v
  unfold compute_result_morsel_size Setup.Bits
  rw [h.operationType v]
  rcases hkind with heq | heq | heq
  · rw [heq]
    exact .inl ⟨rfl, rfl⟩
  · rw [heq]
    exact .inl ⟨rfl, rfl⟩
  · rw [heq]
    exact .inr ⟨Bool.false_ne_true, rfl⟩

theorem new_buffer_some {m : Memory} {name : Name} {d words : Nat} {r : Registration}
    (h : new_buffer d m name words = some r) : r = ((name, d), words) := by
  unfold new_buffer at h
  split at h
  · cases h
  · exact (Option.some.inj h).symm

theorem Named.transfer_entry (h : Named c queue s) {d v : Nat} {pc : TransferPc}
    (hv : v ∈ queue) {r : Registration}
    (hr : transfer_registers c.device_type (c.plan.findVertexDetails v) d pc s.memory = some r) :
    Entry c queue s r := by
  cases pc with
  | start =>
    obtain rfl := new_buffer_some hr
    refine .buffer _ _ _ ?_
    have hname : (s.memory.operation (c.plan.findVertexDetails v).current_node).name =
        get_operation_alias_name (v - 1) := h.name v hv
    rw [hname]
    exact .result _ _
  | input i max =>
    simp only [transfer_registers, Option.bind_eq_bind, Option.bind_eq_some_iff] at hr
    obtain ⟨e, -, hr⟩ := hr
    split at hr
    · cases hr
    · obtain ⟨name, hname, hr⟩ := Option.bind_eq_some_iff.mp hr
      obtain rfl := new_buffer_some hr
      exact .buffer _ _ _ (h.input_buffer hv hname)
  | edge offset i max =>
    simp only [transfer_registers, Option.bind_eq_bind, Option.bind_eq_some_iff] at hr
    obtain ⟨e, -, hr⟩ := hr
    split at hr
    · obtain ⟨name, -, hr⟩ := Option.bind_eq_some_iff.mp hr
      split at hr
      · cases hr
      · cases hr
        exact .morsel _ _ _ _ (Nat.le_refl _)
    · cases hr
  | _ => cases hr

theorem Named.process_entry (h : Named c queue s) (hnumbered : Numbered c queue) (howned : Owned s)
    {d v : Nat} {transfer : TransferPc} {pc : ProcessPc} (hpc : s.device d = .run v transfer pc)
    (hlaunching : Launching c s.memory d v transfer pc) {r : Registration}
    (hr : process_registers (c.plan.findVertexDetails v) d pc s.memory = some r) :
    Entry c queue s r := by
  cases pc with
  | sub_buffer offset =>
    have hheld : (s.device d).vertex = some v := by rw [hpc]; rfl
    have hstarted : transfer ≠ .start := by
      rintro rfl
      rcases hlaunching.waits with habsurd | habsurd <;> cases habsurd
    simp only [process_registers, Option.some.injEq] at hr
    rw [← hr]
    rcases h.bits_of hnumbered v with ⟨hbits, hsize⟩ | ⟨-, hsize⟩
    · have hself : (c.plan.findVertexDetails v).current_node = v := rfl
      rw [hself, hsize, hlaunching.named hstarted]
      exact .bits v _ _ d hbits (h.taken howned hheld) (h.held d v hheld).2
    · exact .morsel _ _ _ _ (Nat.le_of_eq hsize.symm)
  | _ => cases hr

theorem Named.helper_entry (h : Named c queue s) (hnumbered : Numbered c queue) {d u : Nat}
    {pc : HelperPc}
    (hapart : pc = .sub_buffer → c.Bits u → ¬ng_morsel_size ∣
      get_result_buffer_offset (s.memory.operation u) (s.memory.operation u).rear_fetched_until)
    {r : Registration} (hr : helper_registers c.device_type (c.plan.findVertexDetails u) d pc
      s.memory = some r) : Entry c queue s r := by
  cases pc with
  | input i =>
    simp only [helper_registers, Option.bind_eq_bind, Option.bind_eq_some_iff] at hr
    obtain ⟨e, -, hr⟩ := hr
    obtain rfl := new_buffer_some hr
    exact .buffer _ _ _ (h.fetched_data_name e)
  | result =>
    simp only [helper_registers, shared_result_name, Option.bind_eq_bind,
      Option.bind_eq_some_iff] at hr
    obtain ⟨name, ⟨out, -, hname⟩, hr⟩ := hr
    obtain rfl := new_buffer_some hr
    obtain ⟨-, t, hreplica⟩ := h.replicated hname
    exact .buffer _ _ _ (.replica hreplica)
  | copy i =>
    simp only [helper_registers, Option.bind_eq_bind, Option.bind_eq_some_iff] at hr
    obtain ⟨e, -, name, -, hr⟩ := hr
    cases hr
    exact .morsel _ _ _ _ (Nat.le_refl _)
  | sub_buffer =>
    simp only [helper_registers, Option.bind_eq_bind, Option.bind_eq_some_iff,
      Option.some.injEq] at hr
    obtain ⟨name, -, hr⟩ := hr
    rw [← hr]
    rcases h.bits_of hnumbered u with ⟨hbits, hsize⟩ | ⟨-, hsize⟩
    · have hself : (c.plan.findVertexDetails u).current_node = u := rfl
      rw [hself, hsize]
      exact .shared_bits _ _ d (hapart rfl hbits)
    · exact .morsel _ _ _ _ (Nat.le_of_eq hsize.symm)
  | _ => cases hr

theorem Named.entry (h : Named c queue s) (hnumbered : Numbered c queue) (howned : Owned s)
    (hlaunching : AllLaunching c s) (hapart : c.Apart s move) {r : Registration}
    (hr : c.registers s move = some r) : Entry c queue s r := by
  cases move with
  | device d =>
    simp only [Setup.registers] at hr
    split at hr
    · rename_i v i pc hpc
      simp only [Option.bind_eq_bind, Option.bind_eq_some_iff] at hr
      obtain ⟨e, he, hr⟩ := hr
      refine h.helper_entry hnumbered (fun hsub hbits => ?_) hr
      subst hsub
      unfold Setup.Apart at hapart
      simp only [hpc] at hapart
      refine hapart e he ?_
      rw [h.operationType]
      exact hbits
    · rename_i v transfer pc hpc
      exact h.process_entry hnumbered howned hpc (hlaunching d v transfer pc hpc) hr
    · cases hr
  | transfer d =>
    simp only [Setup.registers] at hr
    split at hr
    · rename_i v pc process hpc
      exact h.transfer_entry (h.held d v (by rw [hpc]; rfl)).1 hr
    · cases hr

/-- The log holds what the threads register, and it has each key of the dictionary. -/
structure Logged (c : Setup) (queue : List Nat) (s : State) (log : List Registration) : Prop where
  entries : ∀ r ∈ log, Entry c queue s r
  keys : ∀ key ∈ s.memory.data_dictionary, ∃ words, (key, words) ∈ log

theorem logged_step {log : List Registration} (h : Logged c queue s log)
    (hnamed : Named c queue s) (hnumbered : Numbered c queue) (howned : Owned s)
    (hlaunching : AllLaunching c s) (hapart : c.Apart s move) (hstep : c.step s move = some s') :
    Logged c queue s' (log ++ (c.registers s move).toList) := by
  have hrenames := renames_of_step hstep
  refine ⟨fun r hr => ?_, fun key hkey => ?_⟩
  · rw [List.mem_append, Option.mem_toList] at hr
    rcases hr with hold | hnew
    · exact (h.entries r hold).after hrenames
    · exact (hnamed.entry hnumbered howned hlaunching hapart hnew).after hrenames
  · rcases (hrenames.dictionary key).mp hkey with hold | ⟨words, hnew⟩
    · obtain ⟨words, hmem⟩ := h.keys key hold
      exact ⟨words, List.mem_append_left _ hmem⟩
    · refine ⟨words, List.mem_append_right _ ?_⟩
      rw [Option.mem_toList]
      exact hnew

theorem registered_some {log : List Registration} {key : Name × Nat} {words : Nat}
    (h : (key, words) ∈ log) : ∃ words, registered log key = some words ∧ (key, words) ∈ log := by
  have hfound : (key, words) ∈ log.filter (fun r => r.1 = key) := by
    rw [List.mem_filter, decide_eq_true_iff]
    exact ⟨h, rfl⟩
  have hlast := List.getLast_mem (List.ne_nil_of_mem hfound)
  have hsome := List.getLast?_eq_some_getLast (List.ne_nil_of_mem hfound)
  generalize (log.filter (fun r => r.1 = key)).getLast _ = r at hlast hsome
  rw [List.mem_filter, decide_eq_true_iff] at hlast
  obtain ⟨hmem, rfl⟩ := hlast
  refine ⟨r.2, ?_, hmem⟩
  unfold registered
  rw [hsome]
  rfl

/-! ## The words of the sub-buffers -/

section words

variable {v d offset words : Nat} {name : Name}

theorem ArgumentName.buffer (h : ArgumentName c queue s v name) : BufferName name := by
  cases h with
  | empty => exact .empty
  | input t k i => exact .input t k i
  | result w t _ _ => exact .result t _
  | replica w t t' _ _ _ hreplica => exact .replica hreplica

/-- Vertices of the queue with one number in their names are one. -/
theorem Numbered.same (hnumbered : Numbered c queue) {u w : Nat} (hu : Taken queue s u)
    (hw : Taken queue s w) (h : u - 1 = w - 1) : u = w := by
  have hu := (hnumbered.name u hu.1).1
  have hw := (hnumbered.name w hw.1).1
  omega

/-- No argument of a vertex is a result buffer with bits that its own device wrote. -/
theorem ArgumentName.ne_bits (hnumbered : Numbered c queue) {u : Nat} {t : Device_Type}
    (hu : Taken queue s u) (hbits : c.Bits u)
    (hdevice : (s.memory.node u).executionDevice = (s.memory.node v).executionDevice)
    (h : ArgumentName c queue s v name) :
    name ≠ get_result_buffer_name t (get_operation_alias_name (u - 1)) := by
  intro heq
  cases h with
  | empty =>
    have hlast := result_name_last t (u - 1)
    rw [← heq] at hlast
    cases hlast
  | input t' k i => exact result_ne_input _ _ _ _ _ heq.symm
  | result w t' hw hapart =>
    obtain rfl := hnumbered.same hw hu (result_name_inj heq)
    exact hapart hbits hdevice
  | replica w t' t'' _ hw hapart hreplica =>
    rw [heq] at hreplica
    obtain rfl := hnumbered.same hw hu (replica_of_result hreplica)
    exact hapart hbits hdevice

/-- The sub-buffer of an argument holds a whole morsel of words. -/
theorem Entry.argument_words (hnumbered : Numbered c queue)
    (h : Entry c queue s ((compute_alias_name_for_offset name offset, d), words))
    (hname : ArgumentName c queue s v name) (hdevice : (s.memory.node v).executionDevice = d)
    (hdvd : ng_morsel_size ∣ offset) : ng_morsel_size ≤ words := by
  generalize hkey : ((compute_alias_name_for_offset name offset, d), words) = r at h
  cases h with
  | buffer name' d' words' hbuffer =>
    simp only [Prod.mk.injEq] at hkey
    exact absurd hkey.1.1 (alias_ne_buffer hname.buffer hbuffer offset)
  | morsel name' offset' d' words' hwords =>
    rw [(Prod.mk.inj hkey).2]
    exact hwords
  | shared_bits name' offset' d' hoffset =>
    simp only [Prod.mk.injEq] at hkey
    exact absurd (morsel_dvd_of_to_int (alias_inj hkey.1.1).2 hdvd) hoffset
  | bits u t offset' d' hbits hu hdevice' =>
    simp only [Prod.mk.injEq] at hkey
    obtain ⟨⟨halias, rfl⟩, -⟩ := hkey
    exact absurd (alias_inj halias).1
      (hname.ne_bits hnumbered hu hbits (hdevice'.trans hdevice.symm))

/-- The sub-buffer of a result holds the bits of a morsel, or a whole morsel of words. -/
theorem Entry.result_words (hnumbered : Numbered c queue) {t : Device_Type} (hv : Taken queue s v)
    (h : Entry c queue s ((compute_alias_name_for_offset
      (get_result_buffer_name t (get_operation_alias_name (v - 1))) offset, d), words)) :
    ng_morsel_size / 32 ≤ words ∧ (¬c.Bits v → ng_morsel_size ∣ offset → ng_morsel_size ≤ words) := by
  generalize hkey : ((compute_alias_name_for_offset
      (get_result_buffer_name t (get_operation_alias_name (v - 1))) offset, d), words) = r at h
  cases h with
  | buffer name' d' words' hbuffer =>
    simp only [Prod.mk.injEq] at hkey
    exact absurd hkey.1.1 (alias_ne_buffer (.result t (v - 1)) hbuffer offset)
  | morsel name' offset' d' words' hwords =>
    rw [(Prod.mk.inj hkey).2]
    exact ⟨Nat.le_trans (Nat.div_le_self _ 32) hwords, fun _ _ => hwords⟩
  | shared_bits name' offset' d' hoffset =>
    simp only [Prod.mk.injEq] at hkey
    refine ⟨Nat.le_of_eq hkey.2.symm, fun _ hdvd => ?_⟩
    exact absurd (morsel_dvd_of_to_int (alias_inj hkey.1.1).2 hdvd) hoffset
  | bits u t' offset' d' hbits hu _ =>
    simp only [Prod.mk.injEq] at hkey
    refine ⟨Nat.le_of_eq hkey.2.symm, fun hwords _ => ?_⟩
    obtain rfl := hnumbered.same hv hu (result_name_inj (alias_inj hkey.1.1).1)
    exact absurd hbits hwords

theorem words_addressed_le {t : Operation_Type} (ht : Kind t) (i : Nat) :
    words_addressed t i ≤ ng_morsel_size := by
  unfold words_addressed work_items
  rcases ht with rfl | rfl | rfl
  · split <;> decide
  · split <;> decide
  · rw [if_neg (fun habsurd => Bool.false_ne_true habsurd.1)]
    decide

/-- A selection writes the bits of a morsel. -/
theorem result_words_addressed {t : Operation_Type} (ht : Kind t)
    (hbits : t.is_normal_to_bitmap_result = true) :
    words_addressed t (t.no_of_args - 1) = ng_morsel_size / 32 := by
  rcases ht with rfl | rfl | rfl
  · rfl
  · rfl
  · cases hbits

theorem morsel_dvd_result_offset {operation : Operation_} (ht : Kind operation.operationType)
    (hbits : ¬operation.operationType.is_normal_to_bitmap_result = true)
    (hdvd : ng_morsel_size ∣ offset) :
    ng_morsel_size ∣ get_result_buffer_offset operation offset := by
  have hmod : to_int offset % 2 ^ 32 = (offset : Int) % 2 ^ 32 := Int.bmod_emod ..
  have hnormal : ¬operation.operationType.is_bitmap_to_normal_result = true := by
    rcases ht with heq | heq | heq <;> rw [heq] <;> exact Bool.false_ne_true
  unfold get_result_buffer_offset to_size
  rw [if_neg hnormal, if_neg hbits]
  unfold ng_morsel_size at *
  omega

end words

/-! ## Every run -/

/-- What holds in every state of a run in which selections and their consumers stay apart. -/
structure Sized (c : Setup) (queue : List Nat) (s : State) (log : List Registration) : Prop where
  owned : Owned s
  named : Named c queue s
  launching : AllLaunching c s
  logged : Logged c queue s log

theorem sized_step {log : List Registration} (h : Sized c queue s log)
    (hnumbered : Numbered c queue) (hapart : c.Apart s move) (hstep : c.step s move = some s') :
    Sized c queue s' (log ++ (c.registers s move).toList) where
  owned := owned_step h.owned hstep
  named := named_step h.named hnumbered h.owned hapart hstep
  launching := launching_step h.launching h.named h.owned hstep
  logged := logged_step h.logged h.named hnumbered h.owned h.launching hapart hstep

theorem sized_start (hplain : Plain c) (hnumbered : Numbered c queue) :
    Sized c queue (c.start queue) [] where
  owned := owned_start hplain hnumbered.nodup
  named := named_start hnumbered
  launching d v transfer process hpc := by cases hpc
  logged := ⟨(fun r hr => by cases hr), (fun key hkey => by cases hkey)⟩

theorem Sized.fits {log : List Registration} (h : Sized c queue s log)
    (hnumbered : Numbered c queue) : LaunchesFit s log := by
  intro d v transfer offset hpc i hi
  have hheld : (s.device d).vertex = some v := by rw [hpc]; rfl
  have hkind : Kind (s.memory.operation v).operationType := by
    rw [h.named.operationType v]
    exact hnumbered.kind v
  obtain ⟨hnames, hwaits, hdvd, hresult, hargs⟩ := h.launching d v transfer _ hpc
  unfold argument_alias
  split
  · rename_i hlt
    obtain ⟨name, hname, hpresent⟩ := hargs i hlt
    obtain ⟨last, hlogged⟩ := h.logged.keys _ hpresent
    obtain ⟨words, hwords, hmem⟩ := registered_some hlogged
    refine ⟨_, words, by rw [hname]; rfl, hwords, ?_⟩
    have hargument := (h.named.input_arg_names v name (List.mem_of_getElem? hname)).2
    exact (words_addressed_le hkind i).trans ((h.logged.entries _ hmem).argument_words hnumbered
      hargument (h.named.held d v hheld).2 hdvd)
  · rename_i hge
    have hlast : i = (s.memory.operation v).operationType.no_of_args - 1 := by omega
    have hstarted : transfer ≠ .start := by
      rintro rfl
      rcases hwaits with habsurd | habsurd <;> cases habsurd
    obtain ⟨last, hlogged⟩ := h.logged.keys _ hresult
    obtain ⟨words, hwords, hmem⟩ := registered_some hlogged
    refine ⟨_, words, rfl, hwords, ?_⟩
    rw [hnames hstarted] at hmem
    obtain ⟨hbits, hmorsel⟩ := (h.logged.entries _ hmem).result_words hnumbered
      (h.named.taken h.owned hheld)
    by_cases hselection :
        (s.memory.operation v).operationType.is_normal_to_bitmap_result = true
    · rw [hlast, result_words_addressed hkind hselection]
      exact hbits
    · refine (words_addressed_le hkind i).trans (hmorsel ?_ ?_)
      · unfold Setup.Bits
        rw [← h.named.operationType v]
        exact hselection
      · exact morsel_dvd_result_offset hkind hselection hdvd

namespace Setup

/-- In every interleaving in which no device consumes the bits of a selection that it has executed
itself, and no helper leaves bits where the consumer looks for a morsel, each launch finds a
sub-buffer of the words that it addresses for each of its arguments. -/
theorem launches_that_stay_apart_fit (c : Setup) {selections : List Operation_} {queue : List Nat}
    (hsession : c.IsSession selections queue) {t : State × List Registration}
    (h : (c.sized queue).ReachableBy (fun t move => c.Apart t.1 move) t) :
    LaunchesFit t.1 t.2 := by
  have hnumbered := session_numbered hsession
  have hsized : Sized c queue t.1 t.2 := by
    refine h.invariant (I := fun t => Sized c queue t.1 t.2) (fun t ht => ?_)
      (fun t move t' hsized hapart hstep => ?_)
    · obtain ⟨hstart, hlog⟩ := ht
      rw [show t.1 = c.start queue from hstart, hlog]
      exact sized_start (session_plain hsession) hnumbered
    · obtain ⟨hmove, hlog⟩ := System.watched_step hstep
      rw [hlog]
      exact sized_step hsized hnumbered hapart hmove
  exact hsized.fits hnumbered

end Setup

/-! ## Two devices -/

/-- No step sets up a vertex with a result of its own device, and no helper registers results. -/
def Setup.all_apart (c : Setup) (s : State) : Move → Bool
  | .transfer d =>
    match s.device d with
    | .run v (.input i _) _ =>
      match (c.plan.findVertexDetails v).incoming_edges[i]? with
      | none => true
      | some e => (s.memory.edge e).is_virtual_vertex ||
          decide ((s.memory.node (c.plan.source e)).executionDevice ≠ d)
    | _ => true
  | .device d =>
    match s.device d with
    | .share _ _ .sub_buffer => false
    | _ => true

theorem apart_of_all_apart (c : Setup) (s : State) (move : Move) (h : c.all_apart s move = true) :
    c.Apart s move := by
  cases move with
  | device d =>
    simp only [Setup.all_apart] at h
    simp only [Setup.Apart]
    split
    · rename_i v i hpc
      simp only [hpc] at h
      cases h
    · trivial
  | transfer d =>
    simp only [Setup.all_apart] at h
    simp only [Setup.Apart]
    split
    · rename_i v i max process hpc
      intro e he hreal _
      simpa only [hpc, he, hreal, Bool.false_or, decide_eq_true_eq] using h
    · trivial

theorem reachable_of_all_apart (c : Setup) {queue : List Nat} {moves : List Move}
    {t : State × List Registration} (h : (c.sized queue).exec_tested
      (fun t move => c.all_apart t.1 move) (c.start queue, []) moves = some t) :
    (c.sized queue).ReachableBy (fun t move => c.Apart t.1 move) t :=
  ⟨(c.start queue, []), ⟨rfl, rfl⟩,
    System.run_of_exec_tested
      (fun (t : State × List Registration) move => apart_of_all_apart c t.1 move) h⟩

/-- The second device takes both selections, and the first one takes the logical vertex. -/
def distant_moves : List Move :=
  List.replicate 4 (.device 1) ++ List.replicate 205 (.transfer 1) ++
  List.replicate 232 (.device 1) ++ List.replicate 205 (.transfer 1) ++
  List.replicate 227 (.device 1) ++ List.replicate 6 (.device 0) ++
  List.replicate 21 (.transfer 0) ++ List.replicate 6 (.device 0)

theorem two_devices_that_stay_apart : ∃ t, ((two_devices 32768).sized [1, 2, 3]).ReachableBy
      (fun t move => (two_devices 32768).Apart t.1 move) t ∧
    t.1.device 0 = .run 3 (.loop 1024 1024) (.execute 0) ∧ LaunchesFit t.1 t.2 := by
  have hrun : (((two_devices 32768).sized [1, 2, 3]).exec_tested
      (fun t move => (two_devices 32768).all_apart t.1 move)
      ((two_devices 32768).start [1, 2, 3], []) distant_moves).map
      (fun t => decide (t.1.device 0 = .run 3 (.loop 1024 1024) (.execute 0))) = some true := by
    decide +kernel
  rw [Option.map_eq_some_iff] at hrun
  obtain ⟨t, hexec, hlaunch⟩ := hrun
  have hreach := reachable_of_all_apart _ hexec
  exact ⟨t, hreach, of_decide_eq_true hlaunch,
    (two_devices 32768).launches_that_stay_apart_fit (two_devices_session (by decide)) hreach⟩

/-- The first device launches the logical vertex after a selection of its own. -/
def near_moves : List Move :=
  hasty_moves ++ List.replicate 2 (.transfer 0) ++ List.replicate 6 (.device 0)

/-- The first argument of a launch has fewer words than the launch addresses. -/
def finds_bits (t : State × List Registration) : Bool :=
  match t.1.device 0 with
  | .run v _ (.execute offset) =>
    let operation := t.1.memory.operation v
    decide (0 < operation.operationType.no_of_args) &&
    decide ((argument_alias operation offset 0).bind (fun name => registered t.2 (name, 0)) =
      some 32) &&
    decide (words_addressed operation.operationType 0 = 1024)
  | _ => false

theorem a_selection_registers_the_bits_of_a_morsel : ∃ (c : Setup) (selections : List Operation_)
    (queue : List Nat) (t : State × List Registration), c.IsSession selections queue ∧
      (∀ o ∈ selections, 32 * ng_morsel_size ∣ o.data_size) ∧
      (c.sized queue).Reachable t ∧ ¬LaunchesFit t.1 t.2 := by
  have hrun : (((two_devices 32768).sized [1, 2, 3]).exec
      ((two_devices 32768).start [1, 2, 3], []) near_moves).map finds_bits = some true := by
    decide +kernel
  rw [Option.map_eq_some_iff] at hrun
  obtain ⟨t, hexec, hbits⟩ := hrun
  refine ⟨two_devices 32768, two_selections 32768, [1, 2, 3], t, two_devices_session (by decide),
    by decide, ⟨((two_devices 32768).start [1, 2, 3], []), ⟨rfl, rfl⟩, System.run_of_exec hexec⟩, fun hfit => ?_⟩
  unfold finds_bits at hbits
  split at hbits
  · rename_i v transfer offset hpc
    simp only [Bool.and_eq_true, decide_eq_true_eq] at hbits
    obtain ⟨⟨hargs, hwords⟩, haddressed⟩ := hbits
    obtain ⟨name, words, hname, hregistered, hle⟩ := hfit 0 v transfer offset hpc 0 hargs
    rw [hname, Option.bind_some, hregistered, Option.some.injEq] at hwords
    omega
  · cases hbits

end hero.data_parallelism
