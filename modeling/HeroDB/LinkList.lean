-- The linked list of the hash table: `addNode`, `deleteNode` and `printLinkList` on a heap of nodes.
-- The list is a list of values as long as no call deletes the value at its head.
import HeroDB.DataInterface
import HeroDB.Lib.HeapChains
import Mathlib.Data.List.Induction

namespace hero.hashing

open heap_chains (Heap Chain Segment segment_append segment_snoc)

/-! ## The list -/

structure node where
  data : Word
  next : Option Nat

structure LinkList where
  head : Option Nat := none
  current : Option Nat := none
  temp : Option Nat := none

/-- The nodes and a list. A call that touches a freed node is undefined: it gives `none`, and so
does a loop that has run out of its `fuel`. -/
structure State where
  nodes : Heap node
  list : LinkList

def State.start : State := ⟨Heap.empty, {}⟩

/-- `while (current->next != NULL) current = current->next;` -/
def last_node (nodes : Heap node) : Nat → Nat → Option Nat
  | 0, _ => none
  | fuel + 1, current => do
    let n ← nodes.cell current
    match n.next with
    | none => some current
    | some next => last_node nodes fuel next

def LinkList.addNode (fuel : Nat) (addData : Word) (s : State) : Option State :=
  let n := s.nodes.fresh
  let nodes := s.nodes.alloc { data := addData, next := none }
  match s.list.head with
  | some head => do
    let current ← last_node nodes fuel head
    some
      { nodes := nodes.modify current (fun node => { node with next := some n })
        list := { s.list with current := some current } }
  | none => some { nodes := nodes, list := { s.list with head := some n } }

/-- The loop of `deleteNode`: `temp` and `current` behind it. -/
def search (nodes : Heap node) (deleteData : Word) :
    Nat → Option Nat → Option Nat → Option (Option Nat × Option Nat)
  | 0, _, _ => none
  | _ + 1, temp, none => some (temp, none)
  | fuel + 1, temp, some current => do
    let n ← nodes.cell current
    if n.data = deleteData then some (temp, some current)
    else search nodes deleteData fuel (some current) n.next

/-- For the first node, `temp` is that node itself: the new link goes into the node that is freed
next, and `head` stays. -/
def LinkList.deleteNode (fuel : Nat) (deleteData : Word) (s : State) : Option State := do
  let (temp, current) ← search s.nodes deleteData fuel s.list.head s.list.head
  match current with
  | none => some { s with list := { s.list with temp := temp, current := none } }
  | some delPointer => do
    let n ← s.nodes.cell delPointer
    let temp ← temp
    let _ ← s.nodes.cell temp
    some
      { nodes := (s.nodes.modify temp (fun node => { node with next := n.next })).free delPointer
        list := { s.list with temp := some temp, current := n.next } }

/-- The values that the loop of `printLinkList` prints from a pointer on. -/
def print_from (nodes : Heap node) : Nat → Option Nat → Option (List Word)
  | 0, _ => none
  | _ + 1, none => some []
  | fuel + 1, some current => do
    let n ← nodes.cell current
    let rest ← print_from nodes fuel n.next
    some (n.data :: rest)

def LinkList.printLinkList (fuel : Nat) (s : State) : Option (List Word × State) := do
  let data ← print_from s.nodes fuel s.list.head
  some (data, { s with list := { s.list with current := none } })

/-! ## Sequences of calls -/

inductive Call
  | addNode (addData : Word)
  | deleteNode (deleteData : Word)
deriving DecidableEq

def call (fuel : Nat) (s : State) : Call → Option State
  | .addNode addData => LinkList.addNode fuel addData s
  | .deleteNode deleteData => LinkList.deleteNode fuel deleteData s

/-- A list that starts empty, after some calls. -/
def after (fuel : Nat) (calls : List Call) : Option State := calls.foldlM (call fuel) State.start

/-- The reference list after a call. -/
def specified (values : List Word) : Call → List Word
  | .addNode addData => values ++ [addData]
  | .deleteNode deleteData => values.erase deleteData

/-- The reference list after some calls. -/
def reference (calls : List Call) : List Word := calls.foldl specified []

/-- The calls come to their end, and so does a traversal after them, which yields the values of the
reference list. -/
def RefinesAList (calls : List Call) : Prop :=
  ∃ fuel s, after fuel calls = some s ∧
    (LinkList.printLinkList fuel s).map Prod.fst = some (reference calls)

/-- No call deletes the value that is the first one of the list. -/
def SparesTheHead (calls : List Call) : Prop :=
  ∀ pre deleteData post, calls = pre ++ .deleteNode deleteData :: post →
    (reference pre).head? ≠ some deleteData

/-! ## The loops -/

section loops

variable {nodes : Heap node} {p q temp : Option Nat} {cells : List (Nat × node)} {c : Nat × node}
variable {fuel : Nat} {x : Word}

theorem last_node_eq (h : Chain node.next nodes p (cells ++ [c])) (hfuel : cells.length < fuel) :
    p.bind (last_node nodes fuel) = some c.1 := by
  induction cells generalizing p fuel with
  | nil =>
    obtain ⟨fuel, rfl⟩ : ∃ n, fuel = n + 1 := ⟨fuel - 1, by omega⟩
    obtain ⟨rfl, hcell, hnext⟩ := h
    have hlast : c.2.next = none := hnext
    simp [last_node, hcell, hlast]
  | cons d rest ih =>
    obtain ⟨fuel, rfl⟩ : ∃ n, fuel = n + 1 := ⟨fuel - 1, by omega⟩
    obtain ⟨rfl, hcell, hrest⟩ := h
    have hbehind := ih hrest (by simpa using hfuel)
    obtain ⟨next, hnext, hlast⟩ := Option.bind_eq_some_iff.mp hbehind
    simp [last_node, hcell, hnext, hlast]

/-- The search passes the nodes that hold other values. -/
theorem search_pass (temp : Option Nat) (fuel : Nat) {cells' : List (Nat × node)}
    (h : Segment node.next nodes p cells' q) (hne : ∀ d ∈ cells', d.2.data ≠ x) :
    search nodes x (cells'.length + fuel) temp p =
      search nodes x fuel (if cells' = [] then temp else cells'.getLast?.map Prod.fst) q := by
  induction cells' generalizing p temp with
  | nil =>
    obtain rfl : p = q := h
    simp
  | cons d rest ih =>
    obtain ⟨rfl, hcell, hrest⟩ := h
    have hfuel : (d :: rest).length + fuel = rest.length + fuel + 1 := by
      rw [List.length_cons]
      omega
    have hd := hne d List.mem_cons_self
    rw [hfuel, search]
    simp only [hcell, Option.bind_eq_bind, Option.bind_some, hd, if_false]
    rw [ih _ hrest (fun d' hd' => hne d' (List.mem_cons_of_mem _ hd'))]
    cases rest with
    | nil => simp
    | cons d' rest' => simp [List.getLast?_cons_cons]

theorem print_from_eq (h : Chain node.next nodes p cells) (hfuel : cells.length < fuel) :
    print_from nodes fuel p = some (cells.map (fun d => d.2.data)) := by
  induction cells generalizing p fuel with
  | nil =>
    obtain ⟨fuel, rfl⟩ : ∃ n, fuel = n + 1 := ⟨fuel - 1, by omega⟩
    obtain rfl : p = none := h
    rfl
  | cons d rest ih =>
    obtain ⟨fuel, rfl⟩ : ∃ n, fuel = n + 1 := ⟨fuel - 1, by omega⟩
    obtain ⟨rfl, hcell, hrest⟩ := h
    simp [print_from, hcell, ih hrest (by simpa using hfuel)]

end loops

/-! ## One call -/

/-- The values of a chain. -/
def values (cells : List (Nat × node)) : List Word := cells.map (fun c => c.2.data)

/-- The nodes from `head` on. -/
def Holds (s : State) (cells : List (Nat × node)) : Prop :=
  Chain node.next s.nodes s.list.head cells

/-- The node that `head` points to was freed. -/
def Dangles (s : State) : Prop :=
  ∃ head, s.list.head = some head ∧ s.nodes.cell head = none ∧ head < s.nodes.fresh

section calls

variable {s s' : State} {cells : List (Nat × node)} {fuel : Nat} {x : Word}

/-- A chain stays when a node behind it is allocated. -/
theorem chain_alloc {nodes : Heap node} {p : Option Nat} {n : node}
    (h : Chain node.next nodes p cells) : Chain node.next (nodes.alloc n) p cells :=
  h.frame (fun _ hc => Heap.cell_alloc_ne (h.ne_fresh hc))

/-- The new node is the last one. No node but the one before it is written. -/
theorem addNode_keeps (h : Holds s cells) (hfuel : cells.length < fuel) (x : Word) :
    ∃ s' cells', LinkList.addNode fuel x s = some s' ∧ Holds s' cells' ∧
      values cells' = values cells ++ [x] ∧
      cells'.map Prod.fst = cells.map Prod.fst ++ [s.nodes.fresh] ∧
      ∀ p, p ∉ cells'.map Prod.fst → s'.nodes.cell p = s.nodes.cell p := by
  have hall : Chain node.next (s.nodes.alloc ⟨x, none⟩) s.list.head cells := chain_alloc h
  rcases List.eq_nil_or_concat cells with rfl | ⟨rest, last, rfl⟩
  · -- The list is empty: the new node is the first one.
    have hhead : s.list.head = none := h
    refine ⟨_, [(s.nodes.fresh, ⟨x, none⟩)], by rw [LinkList.addNode, hhead], ?_, rfl, rfl, ?_⟩
    · exact ⟨rfl, Heap.cell_alloc_self, rfl⟩
    · intro p hp
      exact Heap.cell_alloc_ne (by simpa using hp)
  · -- The last node gets the link.
    rw [List.concat_eq_append] at h hall hfuel ⊢
    rw [List.length_append, List.length_singleton] at hfuel
    have hlast := last_node_eq hall (by omega : rest.length < fuel)
    obtain ⟨head, hhead, hlast⟩ := Option.bind_eq_some_iff.mp hlast
    obtain ⟨hrest, hcell, -⟩ := segment_snoc.mp hall
    have hnodup := hall.nodup
    rw [List.map_append, List.nodup_append] at hnodup
    have hapart : ∀ c ∈ rest, c.1 ≠ last.1 := fun c hc =>
      hnodup.2.2 c.1 (List.mem_map_of_mem hc) last.1 (by simp)
    have hfresh : s.nodes.fresh ≠ last.1 := (h.ne_fresh (by simp)).symm
    refine ⟨_, rest ++ [(last.1, { last.2 with next := some s.nodes.fresh })] ++
      [(s.nodes.fresh, ⟨x, none⟩)], by simp only [LinkList.addNode, hhead, hlast]; rfl, ?_, ?_, ?_,
      ?_⟩
    · refine segment_snoc.mpr ⟨segment_snoc.mpr ⟨?_, ?_, rfl⟩, ?_, rfl⟩
      · rw [hhead] at hrest
        exact hrest.frame (fun c hc => Heap.cell_modify_ne (hapart c hc))
      · rw [Heap.cell_modify_self, hcell]
        rfl
      · rw [Heap.cell_modify_ne hfresh, Heap.cell_alloc_self]
    · simp [values]
    · simp
    · intro p hp
      simp only [List.map_append, List.map_cons, List.map_nil, List.mem_append, List.mem_singleton,
        not_or] at hp
      rw [Heap.cell_modify_ne hp.1.2, Heap.cell_alloc_ne hp.2]

/-- A deletion of a value that is not there. -/
theorem deleteNode_absent (h : Holds s cells) (hfuel : cells.length < fuel)
    (habsent : x ∉ values cells) :
    ∃ s', LinkList.deleteNode fuel x s = some s' ∧ Holds s' cells := by
  have hne : ∀ c ∈ cells, c.2.data ≠ x := fun c hc heq =>
    habsent (List.mem_map.mpr ⟨c, hc, heq⟩)
  obtain ⟨more, rfl⟩ : ∃ more, fuel = cells.length + (more + 1) := ⟨fuel - cells.length - 1, by omega⟩
  have hsearch := search_pass s.list.head (more + 1) h hne
  rw [search] at hsearch
  exact ⟨{ s with list := { s.list with
      temp := if cells = [] then s.list.head else cells.getLast?.map Prod.fst, current := none } },
    by simp [LinkList.deleteNode, hsearch], h⟩

/-- A deletion of a value behind the first node. -/
theorem deleteNode_behind {us vs : List (Nat × node)} {k c : Nat × node}
    (h : Holds s (us ++ [k] ++ c :: vs)) (hfuel : us.length + 2 < fuel)
    (hne : ∀ d ∈ us ++ [k], d.2.data ≠ x) (hx : c.2.data = x) :
    ∃ s', LinkList.deleteNode fuel x s = some s' ∧
      Holds s' (us ++ [(k.1, { k.2 with next := c.2.next })] ++ vs) := by
  obtain ⟨more, rfl⟩ : ∃ more, fuel = (us ++ [k]).length + (more + 1) :=
    ⟨fuel - us.length - 2, by rw [List.length_append, List.length_singleton]; omega⟩
  obtain ⟨r, hbefore, rfl, hcell, hbehind⟩ := segment_append.mp h
  obtain ⟨hus, hk, hnext⟩ := segment_snoc.mp hbefore
  have hsearch := search_pass s.list.head (more + 1) hbefore hne
  rw [search, if_neg (by simp)] at hsearch
  simp only [hcell, Option.bind_eq_bind, Option.bind_some, hx, if_true] at hsearch
  have hnodup := Chain.nodup h
  simp only [List.map_append, List.map_cons, List.map_nil] at hnodup
  have hkc : k.1 ≠ c.1 := by grind
  have hk' : s.nodes.cell k.1 = some k.2 := hk
  have hlast : (us ++ [k]).getLast?.map Prod.fst = some k.1 := by simp
  rw [hlast] at hsearch
  let nodes := (s.nodes.modify k.1 (fun node => { node with next := c.2.next })).free c.1
  have hframe : ∀ d ∈ us ++ vs, nodes.cell d.1 = s.nodes.cell d.1 := by
    intro d hd
    have hmem := List.mem_map_of_mem (f := Prod.fst) hd
    rw [List.map_append] at hmem
    have hdk : d.1 ≠ k.1 := by grind
    have hdc : d.1 ≠ c.1 := by grind
    rw [Heap.cell_free_ne hdc, Heap.cell_modify_ne hdk]
  refine ⟨⟨nodes, { s.list with temp := some k.1, current := c.2.next }⟩, ?_, ?_⟩
  · simp only [LinkList.deleteNode, hsearch, hcell, hk', Option.bind_eq_bind, Option.bind_some, nodes]
  · refine segment_append.mpr ⟨c.2.next, segment_snoc.mpr ⟨?_, ?_, rfl⟩, ?_⟩
    · exact hus.frame (fun d hd => hframe d (List.mem_append_left _ hd))
    · rw [Heap.cell_free_ne hkc, Heap.cell_modify_self, hk']
      rfl
    · exact Segment.frame hbehind (fun d hd => hframe d (List.mem_append_right _ hd))

/-- A deletion of the first value: the first node is freed, and `head` stays. -/
theorem deleteNode_head {vs : List (Nat × node)} {c : Nat × node} (h : Holds s (c :: vs))
    (hx : c.2.data = x) (hs : LinkList.deleteNode fuel x s = some s') : Dangles s' := by
  obtain ⟨hhead, hcell, -⟩ := h
  cases fuel with
  | zero => cases hs
  | succ fuel =>
    simp only [LinkList.deleteNode, hhead, search, hcell, hx, Option.bind_eq_bind, Option.bind_some,
      if_true, Option.some.injEq] at hs
    subst hs
    exact ⟨c.1, rfl, Heap.cell_free_self, Heap.lt_fresh (h := s.nodes) hcell⟩

/-! ## A dangling head -/

theorem last_node_dead {nodes : Heap node} {p : Nat} (h : nodes.cell p = none) :
    last_node nodes fuel p = none := by
  cases fuel with
  | zero => rfl
  | succ fuel => simp [last_node, h]

/-- No call comes to its end on a dangling head. -/
theorem dangles_call (h : Dangles s) (c : Call) : call fuel s c = none := by
  obtain ⟨head, hhead, hdead, hfresh⟩ := h
  cases c with
  | addNode x =>
    have hdead' : (s.nodes.alloc { data := x, next := none }).cell head = none := by
      rw [Heap.cell_alloc_ne (Nat.ne_of_lt hfresh), hdead]
    simp [call, LinkList.addNode, hhead, last_node_dead hdead']
  | deleteNode x =>
    cases fuel with
    | zero => simp [call, LinkList.deleteNode, search]
    | succ fuel => simp [call, LinkList.deleteNode, search, hhead, hdead]

theorem dangles_print (h : Dangles s) : LinkList.printLinkList fuel s = none := by
  obtain ⟨head, hhead, hdead, hfresh⟩ := h
  cases fuel with
  | zero => simp [LinkList.printLinkList, print_from]
  | succ fuel => simp [LinkList.printLinkList, print_from, hhead, hdead]

/-- A call that spares the head does to the list what it does to the reference list. -/
theorem call_keeps (h : Holds s cells) (hfuel : cells.length < fuel) (c : Call)
    (hspares : ∀ x, c = .deleteNode x → (values cells).head? ≠ some x) :
    ∃ s' cells', call fuel s c = some s' ∧ Holds s' cells' ∧
      values cells' = specified (values cells) c := by
  cases c with
  | addNode x =>
    obtain ⟨s', cells', hs, h', hvalues, -⟩ := addNode_keeps h hfuel x
    exact ⟨s', cells', hs, h', hvalues⟩
  | deleteNode x =>
    by_cases hmem : x ∈ values cells
    · obtain ⟨before, behind, hbefore, hsplit, herase⟩ := List.exists_erase_eq hmem
      obtain ⟨front, tail, rfl, rfl, htail⟩ := List.map_eq_append_iff.mp hsplit
      obtain ⟨c, vs, rfl, hx, rfl⟩ := List.map_eq_cons_iff.mp htail
      have hne : ∀ d ∈ front, d.2.data ≠ x := fun d hd hdx =>
        hbefore (List.mem_map.mpr ⟨d, hd, hdx⟩)
      rcases List.eq_nil_or_concat front with rfl | ⟨us, k, rfl⟩
      · exact absurd (congrArg some hx) (hspares x rfl)
      · rw [List.concat_eq_append] at h hfuel hne herase ⊢
        have hroom : us.length + 2 < fuel := by
          simp only [List.length_append, List.length_cons] at hfuel
          omega
        obtain ⟨s', hs, h'⟩ := deleteNode_behind h hroom hne hx
        refine ⟨s', _, hs, h', ?_⟩
        rw [specified, herase]
        simp [values]
    · obtain ⟨s', hs, h'⟩ := deleteNode_absent h hfuel hmem
      refine ⟨s', cells, hs, h', ?_⟩
      rw [specified, List.erase_of_not_mem hmem]

/-! ## Fuel -/

theorem last_node_more {nodes : Heap node} {p q : Nat} (h : last_node nodes fuel p = some q) :
    last_node nodes (fuel + 1) p = some q := by
  induction fuel generalizing p with
  | zero => cases h
  | succ fuel ih =>
    rw [last_node] at h ⊢
    obtain ⟨n, hn, h⟩ := Option.bind_eq_some_iff.mp h
    refine Option.bind_eq_some_iff.mpr ⟨n, hn, ?_⟩
    cases hnext : n.next with
    | none => simpa [hnext] using h
    | some next =>
      rw [hnext] at h
      exact ih h

theorem search_more {nodes : Heap node} {temp p : Option Nat} {r : Option Nat × Option Nat}
    (h : search nodes x fuel temp p = some r) : search nodes x (fuel + 1) temp p = some r := by
  induction fuel generalizing temp p with
  | zero => cases h
  | succ fuel ih =>
    cases p with
    | none => exact h
    | some current =>
      rw [search] at h ⊢
      obtain ⟨n, hn, h⟩ := Option.bind_eq_some_iff.mp h
      refine Option.bind_eq_some_iff.mpr ⟨n, hn, ?_⟩
      split at h
      · rwa [if_pos ‹_›]
      · rw [if_neg ‹_›]
        exact ih h

theorem call_more {c : Call} (h : call fuel s c = some s') : call (fuel + 1) s c = some s' := by
  cases c with
  | addNode x =>
    simp only [call, LinkList.addNode] at h ⊢
    cases hhead : s.list.head with
    | none => rwa [hhead] at h
    | some head =>
      rw [hhead] at h
      obtain ⟨current, hlast, h⟩ := Option.bind_eq_some_iff.mp h
      exact Option.bind_eq_some_iff.mpr ⟨current, last_node_more hlast, h⟩
  | deleteNode x =>
    obtain ⟨r, hr, h⟩ := Option.bind_eq_some_iff.mp h
    exact Option.bind_eq_some_iff.mpr ⟨r, search_more hr, h⟩

end calls

/-! ## Every sequence of calls -/

section runs

variable {fuel : Nat} {s : State} {pre calls : List Call} {c : Call}

theorem after_snoc : after fuel (pre ++ [c]) = (after fuel pre).bind (fun s => call fuel s c) := by
  simp [after, List.foldlM_append]

theorem reference_snoc : reference (pre ++ [c]) = specified (reference pre) c := by
  simp [reference]

theorem reference_length (calls : List Call) : (reference calls).length ≤ calls.length := by
  induction calls using List.reverseRecOn with
  | nil => exact le_rfl
  | append_singleton pre c ih =>
    rw [reference_snoc, List.length_append, List.length_singleton]
    cases c with
    | addNode x => simpa [specified] using ih
    | deleteNode x =>
      have := List.length_erase_le (a := x) (l := reference pre)
      rw [specified]
      omega

theorem after_more (h : after fuel calls = some s) : after (fuel + 1) calls = some s := by
  induction calls using List.reverseRecOn generalizing s with
  | nil => exact h
  | append_singleton pre c ih =>
    rw [after_snoc] at h ⊢
    obtain ⟨s', hs', h⟩ := Option.bind_eq_some_iff.mp h
    exact Option.bind_eq_some_iff.mpr ⟨s', ih hs', call_more h⟩

theorem spares_snoc : SparesTheHead (pre ++ [c]) ↔
    SparesTheHead pre ∧ ∀ x, c = .deleteNode x → (reference pre).head? ≠ some x := by
  constructor
  · intro h
    refine ⟨fun before x behind hpre => ?_, fun x hc => h pre x [] (by rw [hc])⟩
    exact h before x (behind ++ [c]) (by rw [hpre]; simp)
  · rintro ⟨hpre, hlast⟩ before x behind hcalls
    rcases List.eq_nil_or_concat behind with rfl | ⟨behind, last, rfl⟩
    · obtain ⟨rfl, hc⟩ := List.append_inj' hcalls rfl
      exact hlast x (List.cons.inj hc).1
    · rw [List.concat_eq_append, ← List.cons_append, ← List.append_assoc] at hcalls
      exact hpre before x behind (List.append_inj' hcalls rfl).1

/-- While no call deletes the head, the nodes hold the values of the reference list. -/
theorem after_holds (hspares : SparesTheHead calls) (hfuel : calls.length < fuel) :
    ∃ s cells, after fuel calls = some s ∧ Holds s cells ∧ values cells = reference calls := by
  induction calls using List.reverseRecOn with
  | nil => exact ⟨State.start, [], rfl, rfl, rfl⟩
  | append_singleton pre c ih =>
    rw [List.length_append, List.length_singleton] at hfuel
    obtain ⟨hpre, hlast⟩ := spares_snoc.mp hspares
    obtain ⟨s, cells, hs, h, hvalues⟩ := ih hpre (by omega)
    have hlength : cells.length ≤ pre.length := by
      have := reference_length pre
      rwa [← hvalues, values, List.length_map] at this
    obtain ⟨s', cells', hs', h', hvalues'⟩ := call_keeps h (by omega : cells.length < fuel) c
      (by rwa [hvalues])
    refine ⟨s', cells', ?_, h', ?_⟩
    · rw [after_snoc, hs]
      exact hs'
    · rw [reference_snoc, hvalues', hvalues]

/-- From the deletion of the head on, no call comes to its end. -/
theorem after_dangles (hspares : ¬SparesTheHead calls) (hfuel : calls.length < fuel)
    (hs : after fuel calls = some s) : Dangles s := by
  induction calls using List.reverseRecOn generalizing s with
  | nil => exact absurd (fun before x behind h => by simp at h) hspares
  | append_singleton pre c ih =>
    rw [List.length_append, List.length_singleton] at hfuel
    rw [after_snoc] at hs
    obtain ⟨s', hs', hcall⟩ := Option.bind_eq_some_iff.mp hs
    by_cases hpre : SparesTheHead pre
    · -- The last call is the deletion.
      obtain ⟨x, rfl, hhead⟩ : ∃ x, c = .deleteNode x ∧ (reference pre).head? = some x := by
        by_contra hno
        push Not at hno
        exact hspares (spares_snoc.mpr ⟨hpre, hno⟩)
      obtain ⟨s'', cells, hs'', h, hvalues⟩ := after_holds hpre (by omega : pre.length < fuel)
      obtain rfl : s' = s'' := Option.some.inj (hs'.symm.trans hs'')
      rw [← hvalues, values] at hhead
      cases cells with
      | nil => cases hhead
      | cons first rest => exact deleteNode_head h (Option.some.inj hhead) hcall
    · have hdangles := ih hpre (by omega) hs'
      rw [dangles_call hdangles] at hcall
      cases hcall

end runs

theorem spares_of_refines {calls : List Call} (h : RefinesAList calls) : SparesTheHead calls := by
  obtain ⟨fuel, s, hs, hprint⟩ := h
  by_contra hspares
  have hmore : ∀ k, after (fuel + k) calls = some s := by
    intro k
    induction k with
    | zero => exact hs
    | succ k ih => exact after_more ih
  have hdangles := after_dangles hspares (by omega : calls.length < fuel + (calls.length + 1))
    (hmore _)
  rw [dangles_print hdangles] at hprint
  cases hprint

theorem refines_of_spares {calls : List Call} (hspares : SparesTheHead calls) :
    RefinesAList calls := by
  have hlength := reference_length calls
  obtain ⟨s, cells, hs, h, hvalues⟩ := after_holds hspares (Nat.lt_succ_self calls.length)
  have hcells : cells.length < calls.length + 1 := by
    rw [← hvalues, values, List.length_map] at hlength
    omega
  refine ⟨calls.length + 1, s, hs, ?_⟩
  rw [LinkList.printLinkList, print_from_eq h hcells, ← hvalues]
  rfl

/-- A list that starts empty does what the reference list does in exactly the sequences of calls
that never delete the value at the head: that deletion frees the node `head` points to. -/
theorem refines_a_list_iff (calls : List Call) : RefinesAList calls ↔ SparesTheHead calls :=
  ⟨spares_of_refines, refines_of_spares⟩

/-- The only value of a list is deleted. -/
theorem head_deleted : ¬RefinesAList [.addNode 1, .deleteNode 1] := fun h =>
  spares_of_refines h [.addNode 1] 1 [] rfl rfl

end hero.hashing
