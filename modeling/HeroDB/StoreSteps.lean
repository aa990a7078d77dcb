-- What the steps of the graph do to the stores: undefined behaviour stays, the columns and the
-- outputs get their buffers, and the display reads the buffers of its edges.
import HeroDB.ScanResolution
import Mathlib.Data.List.TakeDrop

namespace hero.runtime_layer

/-- The buffer of an alias on a device. -/
def look (s : Stores) (a : Int) (dev : Device) : Option (List Word) := s.openCL.lookup (a, dev)

/-! ## Undefined behaviour stays -/

section stuck

variable {K : Kernels} {data_scan : ScanMap} {v : Nat} {m : Machine}

theorem set_input_edges_stuck (es : List Nat) (h : m.stores = none) :
    (es.foldl (set_input_edge v) m).stores = none := by
  induction es generalizing m with
  | nil => exact h
  | cons e rest ih =>
    apply ih
    simp [set_input_edge, transfer_input, h]

theorem load_columns_stuck (cs : List (Int × List Word)) (h : m.stores = none) :
    (cs.foldl (load_column v) m).stores = none := by
  induction cs generalizing m with
  | nil => exact h
  | cons c rest ih =>
    apply ih
    rw [load_column_stores, h, Option.map_none]

theorem display_edges_stuck (es : List Nat) (h : m.stores = none) :
    (es.foldl display_edge m).stores = none := by
  induction es generalizing m with
  | nil => exact h
  | cons e rest ih =>
    apply ih
    simp [display_edge, h]

theorem operate_stuck (h : m.stores = none) : (operate K v m).stores = none := by
  have hinput : (set_input v m).stores = none := set_input_edges_stuck _ h
  simp [operate, execute_node, prepare_output_buffer_stores, hinput, Machine.log]

theorem execute_vertex_stuck (h : m.stores = none) :
    (execute_vertex K data_scan m v).stores = none := by
  unfold execute_vertex
  split
  · exact load_columns_stuck _ h
  · split
    · exact display_edges_stuck _ h
    · exact operate_stuck h

theorem execute_graph_stuck (vs : List Nat) (h : m.stores = none) :
    (execute_graph K data_scan vs m).stores = none := by
  induction vs generalizing m with
  | nil => exact h
  | cons v rest ih => exact ih (execute_vertex_stuck h)

end stuck

/-! ## The turn of an operation -/

section operation

/-- The buffers of a list of inputs. -/
theorem mapM_lookup_map {α : Type} {look : Int → Option α} {es : List Nat} {pointer : Nat → Int}
    {buffer : Nat → α} (h : ∀ e ∈ es, look (pointer e) = some (buffer e)) :
    (es.map pointer).mapM look = some (es.map buffer) := by
  induction es with
  | nil => rfl
  | cons e rest ih =>
    have hrest := ih (fun e' he' => h e' (List.mem_cons_of_mem _ he'))
    simp [List.mapM_cons, h e List.mem_cons_self, hrest]

/-- A larger store finds what a smaller one does. -/
theorem mapM_lookup_mono {α : Type} {look look' : Int → Option α} {as : List Int} {xs : List α}
    (h : as.mapM look = some xs) (hmore : ∀ a x, look a = some x → look' a = some x) :
    as.mapM look' = some xs := by
  induction as generalizing xs with
  | nil => exact h
  | cons a rest ih =>
    rw [List.mapM_cons, Option.bind_eq_bind, Option.bind_eq_some_iff] at h
    obtain ⟨x, hx, hrest⟩ := h
    rw [Option.bind_eq_bind, Option.bind_eq_some_iff] at hrest
    obtain ⟨ys, hys, hxs⟩ := hrest
    rw [← hxs]
    simp [List.mapM_cons, hmore a x hx, ih hys]

/-- A kernel that finds its buffers, the last one the output. -/
theorem execute_openCL_eq {run : kernel_run} {l : launch} {st : Stores} {ins : List Int}
    {out : Int} {buffers : List (List Word)} (hargs : l.args = ins ++ [out])
    (hbuffers : l.args.mapM (fun a => look st a l.device) = some buffers) :
    execute_openCL run l st = (run l.kernel buffers l.params l.globalSize).map (fun words =>
      { st with openCL := st.openCL.insert (out, l.device) words }) := by
  unfold look at hbuffers
  have hlast : l.args.getLast? = some out := by simp [hargs]
  unfold execute_openCL
  rw [hbuffers, hlast]
  simp only [Option.bind_eq_bind, Option.bind_some, Option.pure_def]
  cases run l.kernel buffers l.params l.globalSize <;> rfl

/-- The loop of `set_input` keeps the devices. -/
theorem set_input_edges_device (v : Nat) (es : List Nat) (m : Machine) (u : Nat) :
    ((es.foldl (set_input_edge v) m).dag.vertex u).device = (m.dag.vertex u).device := by
  obtain ⟨stores, heq⟩ := set_input_edges_eq v es m
  rw [heq]
  by_cases hu : u = v
  · subst hu
    simp
  · simp only [query_graph.modify_vertex_vertex_ne _ _ hu]

/-- Edges on one device leave the stores. -/
theorem set_input_edges_local {v : Nat} {es : List Nat} {m : Machine}
    (h : ∀ e ∈ es, (m.dag.vertex (m.dag.source e)).device =
      (m.dag.vertex (m.dag.target e)).device) :
    (es.foldl (set_input_edge v) m).stores = m.stores := by
  induction es generalizing m with
  | nil => rfl
  | cons e rest ih =>
    have hstep : (set_input_edge v m e).stores = m.stores := by
      unfold set_input_edge transfer_input
      rw [if_neg (not_not.mpr (h e List.mem_cons_self))]
    have hdevice := set_input_edges_device v [e] m
    rw [List.foldl_cons, ih, hstep]
    intro e' he'
    have hsame := h e' (List.mem_cons_of_mem _ he')
    rw [List.foldl_cons, List.foldl_nil] at hdevice
    rw [hdevice, hdevice]
    exact hsame

/-- The turn of an operation runs its kernel on the stores at the launch. -/
theorem operate_stores (K : Kernels) (v : Nat) (m : Machine)
    (henv : m.dag.execution_environment = 0) :
    (operate K v m).stores =
      (prepare_output_buffer v (set_input v m)).stores.bind
        (execute_openCL K.openCL (launch_of 0 ((operate K v m).dag.vertex v))) := by
  unfold operate execute_node
  rw [henv, if_pos rfl, if_pos (by simp [compile_task])]
  rfl

/-- What the kernel of an operation leaves, from the buffers of its inputs and the node after
`set_input`. -/
def kernel_words (K : Kernels) (buffers : List (List Word)) (n : primitive_node) :
    Option (List Word) :=
  K.openCL n.mKernelName (buffers ++ [List.replicate n.input_size 0]) n.additional_parameters
    (n.input_size / n.input_to_output_ratio)

/-- The turn of an operation whose inputs have buffers: it is undefined if the kernel is, and
otherwise the words of the kernel are in the new buffer, and every other buffer is as it was. -/
theorem operate_runs (K : Kernels) (v : Nat) (m : Machine) (buffers : List (List Word))
    {s : Stores} (henv : m.dag.execution_environment = 0)
    (hin : (m.dag.vertex v).input_data = []) (hout : (m.dag.vertex v).output_data = [])
    (hset : (set_input v m).stores = some s)
    (hbuffers : ((m.dag.in_edges v).map (fun e => (m.dag.edge e).data_pointer)).mapM (fun a =>
      look s a (m.dag.vertex v).device) = some buffers)
    (hnew : look s (next_alias m) (m.dag.vertex v).device = none) :
    (kernel_words K buffers ((set_input v m).dag.vertex v) = none →
        (operate K v m).stores = none) ∧
      ∀ words, kernel_words K buffers ((set_input v m).dag.vertex v) = some words →
        ∃ s', (operate K v m).stores = some s' ∧ ∀ a dev, look s' a dev =
          if (a, dev) = (next_alias m, (m.dag.vertex v).device) then some words
          else look s a dev := by
  have hdevice : (launch_of 0 ((operate K v m).dag.vertex v)).device = (m.dag.vertex v).device :=
    operate_device K v m v
  have hsetdevice : ((set_input v m).dag.vertex v).device = (m.dag.vertex v).device :=
    set_input_edges_device v _ m v
  have halias : next_alias (set_input v m) = next_alias m := by simp [next_alias]
  have hargs := operate_args K v m hin hout 0
  -- The stores at the launch.
  generalize hs1 : task_layer.add_data s (next_alias m)
    (List.replicate ((set_input v m).dag.vertex v).input_size 0) (m.dag.vertex v).device = s1
  have hprepared : (prepare_output_buffer v (set_input v m)).stores = some s1 := by
    rw [prepare_output_buffer_stores, hset, Option.map_some, halias, hsetdevice, hs1]
  have hframe : ∀ a dev, (a, dev) ≠ (next_alias m, (m.dag.vertex v).device) →
      look s1 a dev = look s a dev := by
    intro a dev hne
    rw [← hs1]
    exact openCL_layer.lookup_add_data_ne hne
  have hzeros : look s1 (next_alias m) (m.dag.vertex v).device =
      some (List.replicate ((set_input v m).dag.vertex v).input_size 0) := by
    rw [← hs1]
    exact openCL_layer.lookup_add_data_new (AList.lookup_eq_none.mp hnew)
  have hmore : ∀ a x, look s a (m.dag.vertex v).device = some x →
      look s1 a (m.dag.vertex v).device = some x := by
    intro a x hx
    rw [hframe a _ ?_, hx]
    intro heq
    rw [(Prod.mk.inj heq).1, hnew] at hx
    cases hx
  have hall : (launch_of 0 ((operate K v m).dag.vertex v)).args.mapM (fun a =>
      look s1 a (launch_of 0 ((operate K v m).dag.vertex v)).device) =
        some (buffers ++ [List.replicate ((set_input v m).dag.vertex v).input_size 0]) := by
    rw [hdevice, hargs, List.mapM_append, mapM_lookup_mono hbuffers hmore]
    simp [hzeros]
  have hstores : (operate K v m).stores =
      (kernel_words K buffers ((set_input v m).dag.vertex v)).map (fun words =>
        { s1 with openCL := s1.openCL.insert (next_alias m, (m.dag.vertex v).device) words }) := by
    rw [operate_stores K v m henv, hprepared, Option.bind_some, execute_openCL_eq hargs hall,
      hdevice]
    simp only [launch_of, operate_vertex_self, kernel_words]
  rw [hstores]
  refine ⟨fun hnone => by rw [hnone, Option.map_none], ?_⟩
  intro words hwords
  refine ⟨_, by rw [hwords, Option.map_some], ?_⟩
  intro a dev
  by_cases heq : (a, dev) = (next_alias m, (m.dag.vertex v).device)
  · rw [if_pos heq, look, heq]
    exact AList.lookup_insert _
  · rw [if_neg heq, ← hframe a dev heq]
    exact AList.lookup_insert_ne heq

end operation

/-! ## The scan and the display -/

section ends

/-- The columns of `load_data`, each under its alias on the device of the scan. -/
theorem load_columns_look (v : Nat) (cs : List (Int × List Word)) (m : Machine) (s : Stores)
    (hs : m.stores = some s)
    (hfresh : ∀ j < cs.length, ∀ dev,
      look s (column_alias m.total_data_set_in_device j) dev = none)
    (hinj : ∀ i < cs.length, ∀ j < cs.length, column_alias m.total_data_set_in_device i =
      column_alias m.total_data_set_in_device j → i = j) :
    ∃ s', (cs.foldl (load_column v) m).stores = some s' ∧
      (∀ j c, cs[j]? = some c → ∀ dev,
        look s' (column_alias m.total_data_set_in_device j) dev =
          if dev = (m.dag.vertex v).device then some c.2 else none) ∧
      ∀ a dev, (∀ j < cs.length, a ≠ column_alias m.total_data_set_in_device j) →
        look s' a dev = look s a dev := by
  induction cs generalizing m s with
  | nil => exact ⟨s, hs, fun j c hj => by simp at hj, fun _ _ _ => rfl⟩
  | cons c rest ih =>
    -- The first column, and then the others with the next counter.
    have hzero := column_alias_zero m.total_data_set_in_device
    have hsucc := column_alias_succ m.total_data_set_in_device
    have hother : ∀ a dev, a ≠ column_alias m.total_data_set_in_device 0 →
        look (task_layer.add_data s (column_alias m.total_data_set_in_device 0) c.2
          (m.dag.vertex v).device) a dev = look s a dev := by
      intro a dev ha
      apply openCL_layer.lookup_add_data_ne
      exact fun heq => ha (Prod.mk.inj heq).1
    have hne : ∀ j < rest.length, column_alias m.total_data_set_in_device (j + 1) ≠
        column_alias m.total_data_set_in_device 0 := by
      intro j hj heq
      have hzero := hinj (j + 1) (by simpa using hj) 0 (by simp) heq
      omega
    obtain ⟨s', hs', hat, hframe⟩ := ih (load_column v m c)
      (task_layer.add_data s (column_alias m.total_data_set_in_device 0) c.2
        (m.dag.vertex v).device)
      (by rw [load_column_stores, hs, hzero, Option.map_some])
      (by
        intro j hj dev
        rw [load_column_counter, hsucc, hother _ dev (hne j hj)]
        exact hfresh (j + 1) (by simpa using hj) dev)
      (by
        intro i hi j hj heq
        rw [load_column_counter, hsucc, hsucc] at heq
        have hij := hinj (i + 1) (by simpa using hi) (j + 1) (by simpa using hj) heq
        omega)
    simp only [load_column_counter, hsucc, load_column_device] at hat hframe
    refine ⟨s', hs', ?_, ?_⟩
    · intro j c' hj dev
      cases j with
      | zero =>
        obtain rfl : c = c' := by simpa using hj
        rw [hframe _ dev (fun j hj => (hne j hj).symm)]
        by_cases hdev : dev = (m.dag.vertex v).device
        · rw [hdev, if_pos rfl]
          apply openCL_layer.lookup_add_data_new
          exact AList.lookup_eq_none.mp (hfresh 0 (by simp) _)
        · rw [if_neg hdev]
          refine Eq.trans ?_ (hfresh 0 (by simp) dev)
          apply openCL_layer.lookup_add_data_ne
          exact fun heq => hdev (Prod.mk.inj heq).2
      | succ j => exact hat j c' (by simpa using hj) dev
    · intro a dev ha
      rw [hframe a dev (fun j hj => ha (j + 1) (by simpa using hj)), hother a dev (ha 0 (by simp))]

/-- The turn of the scan: each column is under its alias on the device of the scan, and every other
alias is as it was. -/
theorem load_data_look (data_scan : ScanMap) (v : Nat) (m : Machine) (s : Stores)
    (hs : m.stores = some s)
    (hfresh : ∀ j < data_scan.entries.length, ∀ dev,
      look s (column_alias m.total_data_set_in_device j) dev = none)
    (hinj : ∀ i < data_scan.entries.length, ∀ j < data_scan.entries.length,
      column_alias m.total_data_set_in_device i = column_alias m.total_data_set_in_device j →
        i = j) :
    ∃ s', (load_data data_scan v m).stores = some s' ∧
      (∀ j c, data_scan.entries[j]? = some c → ∀ dev,
        look s' (column_alias m.total_data_set_in_device j) dev =
          if dev = (m.dag.vertex v).device then some c.2 else none) ∧
      ∀ a dev,
        (∀ j < data_scan.entries.length, a ≠ column_alias m.total_data_set_in_device j) →
          look s' a dev = look s a dev := by
  have hlook := load_columns_look v data_scan.entries (m.modify_vertex v (fun n =>
    { n with no_of_input_required := data_scan.entries.length })) s hs hfresh hinj
  have hdevice : ((m.modify_vertex v (fun n =>
      { n with no_of_input_required := data_scan.entries.length })).dag.vertex v).device =
        (m.dag.vertex v).device := by
    simp [Machine.modify_vertex, primitive_node.device]
  rw [hdevice] at hlook
  exact hlook

/-- The display reads a buffer for each of its edges. -/
theorem display_edges_look (es : List Nat) (m : Machine) (s : Stores) (hs : m.stores = some s)
    (henv : m.dag.execution_environment = 0) :
    ((∀ e ∈ es, ((m.dag.edge e).data_pointer, (m.dag.vertex (m.dag.source e)).device) ∈ s.openCL) →
        (es.foldl display_edge m).stores = some s) ∧
      ((es.foldl display_edge m).stores ≠ none →
        ∀ e ∈ es, ((m.dag.edge e).data_pointer, (m.dag.vertex (m.dag.source e)).device)
          ∈ s.openCL) := by
  induction es generalizing m with
  | nil => exact ⟨fun _ => hs, fun _ e he => by cases he⟩
  | cons e rest ih =>
    have hdag : (display_edge m e).dag = m.dag := rfl
    have hstep : (display_edge m e).stores =
        if ((m.dag.edge e).data_pointer, (m.dag.vertex (m.dag.source e)).device) ∈ s.openCL
          then some s else none := by
      simp only [display_edge, henv, hs, Option.bind_some, if_true, openCL_layer.get_data_isSome]
    by_cases hmem : ((m.dag.edge e).data_pointer, (m.dag.vertex (m.dag.source e)).device) ∈ s.openCL
    · rw [if_pos hmem] at hstep
      have hrest := ih (display_edge m e) hstep (by rw [hdag]; exact henv)
      rw [hdag] at hrest
      refine ⟨fun hall => hrest.1 (fun e' he' => hall e' (List.mem_cons_of_mem _ he')), ?_⟩
      intro hsome e' he'
      rcases List.mem_cons.mp he' with rfl | he'
      · exact hmem
      · exact hrest.2 hsome e' he'
    · rw [if_neg hmem] at hstep
      refine ⟨fun hall => absurd (hall e List.mem_cons_self) hmem, fun hsome => ?_⟩
      exact absurd (display_edges_stuck rest hstep) hsome

end ends

/-! ## The inputs and the display -/

section buffers

variable {m : Machine} {s : Stores}

/-- The transfer of an input whose buffer is on the device of its source alone. -/
theorem transfer_input_look {e : Nat} {words : List Word} (hs : m.stores = some s)
    (hsize : words.length = (m.dag.edge e).data_size)
    (hat : ∀ dev, look s (m.dag.edge e).data_pointer dev =
      if dev = (m.dag.vertex (m.dag.source e)).device then some words else none) :
    ∃ s', transfer_input m e = some s' ∧
      look s' (m.dag.edge e).data_pointer (m.dag.vertex (m.dag.target e)).device = some words ∧
      ∀ a dev, a ≠ (m.dag.edge e).data_pointer → look s' a dev = look s a dev := by
  unfold transfer_input
  split
  · rename_i hne
    have hsource : s.openCL.lookup
        ((m.dag.edge e).data_pointer, (m.dag.vertex (m.dag.source e)).device) = some words :=
      (hat _).trans (if_pos rfl)
    have htarget :
        ((m.dag.edge e).data_pointer, (m.dag.vertex (m.dag.target e)).device) ∉ s.openCL :=
      AList.lookup_eq_none.mp ((hat _).trans (if_neg (Ne.symm hne)))
    obtain ⟨d, hd, hthere, -, hframe⟩ :=
      openCL_layer.transfer_data_moves (n := (m.dag.edge e).data_size) hsource htarget hne
    refine ⟨{ s with openCL := d }, ?_, ?_, ?_⟩
    · rw [hs, Option.bind_some, hd, Option.map_some]
    · rw [look, hthere, ← hsize, List.takeD_eq_take _ (Nat.le_refl _), List.take_length]
    · intro a dev ha
      exact hframe (a, dev) (fun heq => ha (Prod.mk.inj heq).1) (fun heq => ha (Prod.mk.inj heq).1)
  · rename_i hsame
    rw [not_not] at hsame
    exact ⟨s, hs, by rw [hat, hsame, if_pos rfl], fun _ _ _ => rfl⟩

/-- The loop of `set_input`, when each input has an alias of its own and a buffer on the device of
its source alone. -/
theorem set_input_edges_look (v : Nat) {es : List Nat} (words : Nat → List Word)
    (hs : m.stores = some s) (hown : (es.map (fun e => (m.dag.edge e).data_pointer)).Nodup)
    (hsize : ∀ e ∈ es, (words e).length = (m.dag.edge e).data_size)
    (hat : ∀ e ∈ es, ∀ dev, look s (m.dag.edge e).data_pointer dev =
      if dev = (m.dag.vertex (m.dag.source e)).device then some (words e) else none) :
    ∃ s', (es.foldl (set_input_edge v) m).stores = some s' ∧
      (∀ e ∈ es, look s' (m.dag.edge e).data_pointer (m.dag.vertex (m.dag.target e)).device =
        some (words e)) ∧
      ∀ a dev, (∀ e ∈ es, a ≠ (m.dag.edge e).data_pointer) → look s' a dev = look s a dev := by
  induction es generalizing m s with
  | nil => exact ⟨s, hs, fun e he => (by cases he), fun _ _ _ => rfl⟩
  | cons e rest ih =>
    obtain ⟨hnew, hrest⟩ := List.nodup_cons.mp hown
    have hne : ∀ e' ∈ rest, (m.dag.edge e').data_pointer ≠ (m.dag.edge e).data_pointer := by
      intro e' he' heq
      exact hnew (List.mem_map.mpr ⟨e', he', heq⟩)
    obtain ⟨s₁, hs₁, hthere, hframe⟩ := transfer_input_look hs
      (hsize e List.mem_cons_self) (hat e List.mem_cons_self)
    have hdevice : ∀ u, ((set_input_edge v m e).dag.vertex u).device = (m.dag.vertex u).device :=
      set_input_edges_device v [e] m
    obtain ⟨s', hs', hbuffers, hframe'⟩ := @ih (set_input_edge v m e) s₁ hs₁ hrest
      (fun e' he' => hsize e' (List.mem_cons_of_mem _ he')) (by
        intro e' he' dev
        rw [hdevice]
        exact (hframe _ dev (hne e' he')).trans (hat e' (List.mem_cons_of_mem _ he') dev))
    refine ⟨s', hs', ?_, ?_⟩
    · intro e' he'
      rcases List.mem_cons.mp he' with rfl | he'
      · exact (hframe' _ _ (fun e'' he'' => (hne e'' he'').symm)).trans hthere
      · rw [← hdevice]
        exact hbuffers e' he'
    · intro a dev ha
      exact (hframe' a dev (fun e' he' => ha e' (List.mem_cons_of_mem _ he'))).trans
        (hframe a dev (ha e List.mem_cons_self))

/-- The columns that the display fetches, when each of its edges has a buffer. -/
theorem display_edges_columns {es : List Nat} (buffer : Nat → List Word) (hs : m.stores = some s)
    (henv : m.dag.execution_environment = 0)
    (hat : ∀ e ∈ es, look s (m.dag.edge e).data_pointer (m.dag.vertex (m.dag.source e)).device =
      some (buffer e)) :
    (es.foldl display_edge m).results = m.results ++ es.map (fun e =>
      (buffer e).takeD (size_of_int (int_of_size (m.dag.edge e).data_size)) 0) := by
  induction es generalizing m with
  | nil => simp
  | cons e rest ih =>
    have hlook : s.openCL.lookup
        ((m.dag.edge e).data_pointer, (m.dag.vertex (m.dag.source e)).device) = some (buffer e) :=
      hat e List.mem_cons_self
    have hstores : (display_edge m e).stores = some s := by
      simp [display_edge, henv, hs, openCL_layer.get_data, hlook]
    have hresults : (display_edge m e).results = m.results ++
        [(buffer e).takeD (size_of_int (int_of_size (m.dag.edge e).data_size)) 0] := by
      simp [display_edge, henv, hs, openCL_layer.get_data, hlook, openCL_layer.cl_success]
    have hrest := @ih (display_edge m e) hstores henv
      (fun e' he' => hat e' (List.mem_cons_of_mem _ he'))
    rw [List.foldl_cons, hrest, hresults, List.append_assoc]
    rfl

end buffers

end hero.runtime_layer
