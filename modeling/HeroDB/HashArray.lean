-- The chained hash build: `createArray` and `createTableJoin` put the elements of a vector into the
-- 1024 lists of `myArray`. Neither returns, whatever the vector is, and their loop keeps every
-- tuple of a vector of 1024 elements without a negative remainder.
import HeroDB.LinkList

namespace hero.hashing

open heap_chains (Heap Chain)

/-! ## The build -/

inductive Fault
  | out_of_range
  | undefined
deriving DecidableEq

/-- The nodes and the buckets. -/
structure Table where
  nodes : Heap node
  myArray : Vector LinkList 1024

def Table.start : Table := ⟨Heap.empty, Vector.replicate 1024 {}⟩

/-- `data.at(i)` -/
def element_at (data : List Word) (i : Nat) : Except Fault Word :=
  match data[i]? with
  | some element => .ok element
  | none => .error .out_of_range

/-- `(key - 1) % vectorSize` on `int`s, where an overflow and a division by zero are undefined. -/
def hashFunction (key : Word) (vector : List Word) : Except Fault Int :=
  let vectorSize := int_of_size vector.length
  let number := key.toInt - 1
  if number < -2 ^ 31 ∨ vectorSize = 0 ∨ (number = -2 ^ 31 ∧ vectorSize = -1) then
    .error .undefined
  else
    .ok (number.tmod vectorSize)

/-- `myArray[hashValue].addNode(element)` -/
def add_to_bucket (fuel : Nat) (hashValue : Int) (element : Word) (t : Table) :
    Except Fault Table :=
  if h : 0 ≤ hashValue ∧ hashValue.toNat < 1024 then
    match LinkList.addNode fuel element ⟨t.nodes, t.myArray[hashValue.toNat]⟩ with
    | some s => .ok ⟨s.nodes, t.myArray.set hashValue.toNat s.list⟩
    | none => .error .undefined
  else
    .error .undefined

/-- The loop `for (LinkList elem : myArray) elem.printLinkList();`: it walks on copies. -/
def print_buckets (fuel : Nat) (t : Table) : Except Fault Unit :=
  if t.myArray.all (fun elem => (LinkList.printLinkList fuel ⟨t.nodes, elem⟩).isSome) then
    .ok ()
  else
    .error .undefined

/-- One turn of the loop of the build. -/
def turn (fuel : Nat) (data : List Word) (t : Table) (i : Nat) : Except Fault Table := do
  let element ← element_at data i
  let hashValue ← hashFunction element data
  let t ← if hashValue ≠ -1 then add_to_bucket fuel hashValue element t else .ok t
  print_buckets fuel t
  return t

def turns (fuel : Nat) (data : List Word) (n : Nat) (t : Table) : Except Fault Table :=
  (List.range n).foldlM (turn fuel data) t

/-- The build: 1024 turns, then `return myArray[1024]`, which is behind the array. -/
def build (fuel : Nat) (data : List Word) (t : Table) : Except Fault (LinkList × Table) := do
  let t ← turns fuel data 1024 t
  match t.myArray[1024]? with
  | some elem => return (elem, t)
  | none => throw .undefined

def createArray : Nat → List Word → Table → Except Fault (LinkList × Table) := build

/-- As `createArray`, with one `Hashing` for all turns: `hashFunction` writes it before it reads
it. -/
def createTableJoin : Nat → List Word → Table → Except Fault (LinkList × Table) := build

/-! ## What a build has to leave -/

def Table.bucket (fuel : Nat) (t : Table) (b : Fin 1024) : Option (List Word) :=
  print_from t.nodes fuel t.myArray[b].head

/-- Each element is in its bucket, in the order of the vector, and nothing else is. -/
def HasEveryTuple (fuel : Nat) (data : List Word) (t : Table) : Prop :=
  (∀ x ∈ data, ∃ b : Fin 1024, hashFunction x data = .ok b) ∧
  ∀ b : Fin 1024, t.bucket fuel b = some (data.filter (fun x => hashFunction x data = .ok b))

/-- With `fuel` enough, a build from empty buckets returns, with every tuple in its bucket. -/
def KeepsEveryTuple (build : Nat → List Word → Table → Except Fault (LinkList × Table))
    (data : List Word) : Prop :=
  ∃ enough, ∀ fuel ≥ enough, ∃ elem t,
    build fuel data Table.start = .ok (elem, t) ∧ HasEveryTuple fuel data t

/-- What the loop alone has to do for it. -/
def LoopKeepsEveryTuple (data : List Word) : Prop :=
  ∃ enough, ∀ fuel ≥ enough, ∃ t,
    turns fuel data 1024 Table.start = .ok t ∧ HasEveryTuple fuel data t

/-! ## The turns -/

/-- The nodes of each bucket. No node is in two of them. -/
structure Bucketed (t : Table) (cells : Fin 1024 → List (Nat × node)) : Prop where
  chain : ∀ b, Chain node.next t.nodes t.myArray[b].head (cells b)
  apart : ∀ b b' p, p ∈ (cells b).map Prod.fst → p ∈ (cells b').map Prod.fst → b = b'

section turns

variable {fuel n : Nat} {data : List Word} {t t' : Table} {cells : Fin 1024 → List (Nat × node)}
variable {x : Word} {h : Int}

theorem bucketed_start : Bucketed Table.start (fun _ => []) := by
  refine ⟨fun b => ?_, fun b b' p hp => by cases hp⟩
  simp [Chain, heap_chains.Segment, Table.start]

theorem bucketed_bucket (hb : Bucketed t cells) (hfuel : ∀ b, (cells b).length < fuel)
    (b : Fin 1024) : t.bucket fuel b = some (values (cells b)) :=
  print_from_eq (hb.chain b) (hfuel b)

theorem print_buckets_ok (hb : Bucketed t cells) (hfuel : ∀ b, (cells b).length < fuel) :
    print_buckets fuel t = .ok () := by
  have hall : t.myArray.all (fun elem => (LinkList.printLinkList fuel ⟨t.nodes, elem⟩).isSome) := by
    rw [Vector.all_eq_true]
    intro i hi
    have hbucket := bucketed_bucket hb hfuel ⟨i, hi⟩
    rw [Table.bucket] at hbucket
    have hprint : print_from t.nodes fuel t.myArray[i].head = some _ := hbucket
    simp [LinkList.printLinkList, hprint]
  rw [print_buckets, if_pos hall]

/-- An element comes to the end of its bucket, and the other buckets stay. -/
theorem add_to_bucket_keeps (hb : Bucketed t cells) (b : Fin 1024)
    (hfuel : (cells b).length < fuel) (x : Word) :
    ∃ t' cells', add_to_bucket fuel b x t = .ok t' ∧
      Bucketed t' (Function.update cells b cells') ∧ values cells' = values (cells b) ++ [x] := by
  have hchain : Holds ⟨t.nodes, t.myArray[b]⟩ (cells b) := hb.chain b
  obtain ⟨s, cells', hs, h', hvalues, haddresses, hframe⟩ := addNode_keeps hchain hfuel x
  refine ⟨⟨s.nodes, t.myArray.set b s.list⟩, cells', ?_, ⟨fun b' => ?_, ?_⟩, hvalues⟩
  · have hrange : 0 ≤ ((b : Nat) : Int) ∧ ((b : Nat) : Int).toNat < 1024 := ⟨by omega, by simp⟩
    simp only [Fin.getElem_fin] at hs
    simp [add_to_bucket, hs]
  · by_cases hbb : b' = b
    · subst hbb
      rw [Function.update_self]
      have hself : (t.myArray.set b' s.list)[b'] = s.list := by simp
      rw [hself]
      exact h'
    · rw [Function.update_of_ne hbb]
      have hother : (t.myArray.set b s.list)[b'] = t.myArray[b'] := by
        simp [Vector.getElem_set_ne, Ne.symm (Fin.val_ne_of_ne hbb)]
      rw [hother]
      refine (hb.chain b').frame (fun c hc => hframe c.1 ?_)
      have hmem := List.mem_map_of_mem (f := Prod.fst) hc
      rw [haddresses, List.mem_append, List.mem_singleton, not_or]
      exact ⟨fun hown => hbb (hb.apart b' b c.1 hmem hown), (hb.chain b').ne_fresh hc⟩
  · -- An address is one of before, or the new one, which is in no other bucket.
    have hwhere : ∀ b' p, p ∈ (Function.update cells b cells' b').map Prod.fst →
        p ∈ (cells b').map Prod.fst ∨ b' = b ∧ p = t.nodes.fresh := by
      intro b' p hp
      by_cases hbb : b' = b
      · subst hbb
        rw [Function.update_self, haddresses, List.mem_append, List.mem_singleton] at hp
        exact hp.imp_right (fun hfresh => ⟨rfl, hfresh⟩)
      · rw [Function.update_of_ne hbb] at hp
        exact .inl hp
    have hold : ∀ b', t.nodes.fresh ∉ (cells b').map Prod.fst := by
      intro b' hmem
      obtain ⟨c, hc, heq⟩ := List.mem_map.mp hmem
      exact (hb.chain b').ne_fresh hc heq
    intro b₁ b₂ p h₁ h₂
    rcases hwhere b₁ p h₁ with hp₁ | ⟨rfl, rfl⟩ <;> rcases hwhere b₂ _ h₂ with hp₂ | ⟨rfl, hp₂⟩
    · exact hb.apart b₁ b₂ p hp₁ hp₂
    · exact absurd (hp₂ ▸ hp₁) (hold b₁)
    · exact absurd hp₂ (hold b₂)
    · rfl

/-- The elements of the first `n` turns are in their buckets. -/
def Filled (data : List Word) (n : Nat) (cells : Fin 1024 → List (Nat × node)) : Prop :=
  ∀ b, values (cells b) = (data.take n).filter (fun x => hashFunction x data = .ok (b : Int))

theorem filled_length (hf : Filled data n cells) (b : Fin 1024) : (cells b).length ≤ n := by
  have hlength := congrArg List.length (hf b)
  rw [values, List.length_map] at hlength
  rw [hlength]
  exact (List.length_filter_le _ _).trans (List.length_take_le _ _)

theorem turns_succ :
    turns fuel data (n + 1) t = turns fuel data n t >>= fun t => turn fuel data t n := by
  simp [turns, List.range_succ, List.foldlM_append]

/-- One turn whose element has a bucket, or is skipped. -/
theorem turn_keeps (hb : Bucketed t cells) (hf : Filled data n cells) (hfuel : n + 1 < fuel)
    (hx : data[n]? = some x) (hh : hashFunction x data = .ok h) (hrange : -1 ≤ h ∧ h < 1024) :
    ∃ t' cells', turn fuel data t n = .ok t' ∧ Bucketed t' cells' ∧ Filled data (n + 1) cells' := by
  have hlength := filled_length hf
  have htake : data.take (n + 1) = data.take n ++ [x] := by
    rw [List.take_add_one, hx]
    rfl
  have hat : element_at data n = .ok x := by rw [element_at, hx]
  by_cases hskip : h = -1
  · -- A skipped element is in no bucket.
    refine ⟨t, cells, ?_, hb, fun b => ?_⟩
    · have hprint := print_buckets_ok hb (fun b => (by have := hlength b; omega : _ < fuel))
      simp [turn, hat, hh, hskip, hprint, bind, Except.bind, pure, Except.pure]
    · rw [htake, List.filter_append, hf b]
      have hne : ¬((-1 : Int) = ((b : Nat) : Int)) := by omega
      simp [hh, hskip, hne]
  · obtain ⟨b, rfl⟩ : ∃ b : Fin 1024, h = ((b : Nat) : Int) :=
      ⟨⟨h.toNat, by omega⟩, by simp; omega⟩
    have hroom : (cells b).length < fuel := by
      have := hlength b
      omega
    obtain ⟨t', cells', hadd, hb', hvalues⟩ := add_to_bucket_keeps hb b hroom x
    have hf' : Filled data (n + 1) (Function.update cells b cells') := by
      intro b'
      rw [htake, List.filter_append, ← hf b']
      by_cases hbb : b' = b
      · subst hbb
        rw [Function.update_self, hvalues]
        simp [hh]
      · rw [Function.update_of_ne hbb]
        have hne : ¬(((b : Nat) : Int) = ((b' : Nat) : Int)) := by
          intro heq
          exact hbb (Fin.ext (by omega))
        simp [hh, hne]
    refine ⟨t', _, ?_, hb', hf'⟩
    have hprint := print_buckets_ok hb' (fun b => (by have := filled_length hf' b; omega : _ < fuel))
    simp [turn, hat, hh, hskip, hadd, hprint, bind, Except.bind, pure, Except.pure]

/-- The elements of the first `n` turns are there, and each has a bucket or is skipped. -/
def Turnable (data : List Word) (n : Nat) : Prop :=
  ∀ i < n, ∃ x h, data[i]? = some x ∧ hashFunction x data = .ok h ∧ -1 ≤ h ∧ h < 1024

theorem turns_keep (hturn : Turnable data n) (hfuel : n < fuel) :
    ∃ t cells, turns fuel data n Table.start = .ok t ∧ Bucketed t cells ∧ Filled data n cells := by
  induction n with
  | zero => exact ⟨Table.start, _, rfl, bucketed_start, fun b => by simp [values]⟩
  | succ n ih =>
    obtain ⟨t, cells, ht, hb, hf⟩ := ih (fun i hi => hturn i (by omega)) (by omega)
    obtain ⟨x, h, hx, hh, hrange⟩ := hturn n (Nat.lt_succ_self n)
    obtain ⟨t', cells', ht', hb', hf'⟩ := turn_keeps hb hf hfuel hx hh hrange
    refine ⟨t', cells', ?_, hb', hf'⟩
    rw [turns_succ, ht]
    exact ht'

/-- A turn that comes to its end has an element, with a bucket or the mark of a skipped one. -/
theorem turn_ok (ht : turn fuel data t n = .ok t') :
    ∃ x h, data[n]? = some x ∧ hashFunction x data = .ok h ∧ -1 ≤ h ∧ h < 1024 := by
  rw [turn, element_at] at ht
  cases hx : data[n]? with
  | none => simp [hx, bind, Except.bind] at ht
  | some x =>
    simp only [hx, bind, Except.bind] at ht
    cases hh : hashFunction x data with
    | error fault => simp [hh] at ht
    | ok h =>
      refine ⟨x, h, rfl, hh, ?_⟩
      simp only [hh] at ht
      by_cases hskip : h = -1
      · omega
      · simp only [if_pos hskip, add_to_bucket] at ht
        by_cases hrange : 0 ≤ h ∧ h.toNat < 1024
        · omega
        · rw [dif_neg hrange] at ht
          cases ht

theorem turns_ok (ht : turns fuel data n t = .ok t') : Turnable data n := by
  induction n generalizing t' with
  | zero => exact fun i hi => absurd hi (Nat.not_lt_zero i)
  | succ n ih =>
    rw [turns_succ] at ht
    cases hbefore : turns fuel data n t with
    | error fault => simp [hbefore, bind, Except.bind] at ht
    | ok t₁ =>
      simp only [hbefore, bind, Except.bind] at ht
      intro i hi
      rcases Nat.lt_succ_iff_lt_or_eq.mp hi with hi | rfl
      · exact ih hbefore i hi
      · exact turn_ok ht

end turns

/-! ## Every vector -/

section vectors

variable {data : List Word} {x : Word}

/-- No build returns: there is no `myArray[1024]`. -/
theorem build_faults (fuel : Nat) (data : List Word) (t : Table) :
    ∃ fault, build fuel data t = .error fault := by
  rw [build]
  cases turns fuel data 1024 t with
  | error fault => exact ⟨fault, rfl⟩
  | ok t => exact ⟨.undefined, by simp [bind, Except.bind, throw, throwThe, MonadExceptOf.throw]⟩

theorem build_keeps_none (data : List Word) : ¬KeepsEveryTuple build data := by
  rintro ⟨enough, hkeeps⟩
  obtain ⟨elem, t, hbuild, -⟩ := hkeeps enough le_rfl
  obtain ⟨fault, hfault⟩ := build_faults enough data Table.start
  rw [hfault] at hbuild
  cases hbuild

/-- Neither build keeps the tuples of any vector. -/
theorem builds_keep_none (data : List Word) :
    ¬KeepsEveryTuple createArray data ∧ ¬KeepsEveryTuple createTableJoin data :=
  ⟨build_keeps_none data, build_keeps_none data⟩

/-- A vector of one element. -/
theorem one_tuple : ¬KeepsEveryTuple createArray [1] := build_keeps_none [1]

/-- On 1024 elements the hash value is a remainder of 1024. -/
theorem hashFunction_eq (hlength : data.length = 1024) (hx : x.toInt ≠ -2 ^ 31) :
    hashFunction x data = .ok ((x.toInt - 1).tmod 1024) := by
  have hsize : int_of_size data.length = 1024 := by
    rw [hlength]
    decide
  have hlow := x.le_toInt
  rw [hashFunction, hsize, if_neg (by omega)]

theorem remainder_nonneg_iff {x : Int} :
    0 ≤ (x - 1).tmod 1024 ↔ 1 ≤ x ∨ (1024 : Int) ∣ x - 1 := by
  constructor
  · intro h
    by_contra hno
    rw [not_or] at hno
    have hneg : (x - 1).tmod 1024 = -((1 - x).tmod 1024) := by
      rw [← Int.neg_tmod, Int.neg_sub]
    have hrest := Int.tmod_nonneg 1024 (by omega : 0 ≤ 1 - x)
    have hzero : (x - 1).tmod 1024 = 0 := by omega
    exact hno.2 (Int.dvd_of_tmod_eq_zero hzero)
  · rintro (hpos | hdvd)
    · exact Int.tmod_nonneg 1024 (by omega)
    · rw [Int.tmod_eq_zero_of_dvd hdvd]

/-- When each element has a bucket, and the first `n` elements fill the buckets, there are no
others. -/
theorem length_le_of_filled {n : Nat} {p : Fin 1024 → Word → Bool}
    (hevery : ∀ x ∈ data, ∃ b, p b x)
    (hsame : ∀ b, (data.take n).filter (p b) = data.filter (p b)) : data.length ≤ n := by
  by_contra hlong
  obtain ⟨x, hx⟩ := List.exists_mem_of_ne_nil (data.drop n)
    (by rw [ne_eq, List.drop_eq_nil_iff]; omega)
  obtain ⟨b, hb⟩ := hevery x (List.mem_of_mem_drop hx)
  have hsplit := hsame b
  nth_rewrite 2 [← List.take_append_drop n data] at hsplit
  rw [List.filter_append, List.self_eq_append_right] at hsplit
  exact List.filter_eq_nil_iff.mp hsplit x hx hb

/-- A loop that keeps every tuple turns as often as the vector has elements. -/
theorem length_of_loop_keeps (h : LoopKeepsEveryTuple data) : data.length = 1024 := by
  obtain ⟨enough, hkeeps⟩ := h
  obtain ⟨t, ht, hevery, hbuckets⟩ := hkeeps (enough + 1025) (by omega)
  have hturn := turns_ok ht
  obtain ⟨t', cells, ht', hb, hf⟩ := turns_keep hturn (by omega : 1024 < enough + 1025)
  obtain rfl : t = t' := Except.ok.inj (ht.symm.trans ht')
  have hfuel : ∀ b, (cells b).length < enough + 1025 := fun b => by
    have := filled_length hf b
    omega
  have hhigh : data.length ≤ 1024 := by
    refine length_le_of_filled (p := fun b x => decide (hashFunction x data = .ok (b : Int)))
      (fun x hx => ?_) (fun b => ?_)
    · obtain ⟨b, hbucket⟩ := hevery x hx
      exact ⟨b, decide_eq_true hbucket⟩
    · have hsame := (bucketed_bucket hb hfuel b).symm.trans (hbuckets b)
      rwa [Option.some.injEq, hf b] at hsame
  obtain ⟨x, h, hx, -⟩ := hturn 1023 (by omega)
  obtain ⟨hlow, -⟩ := List.getElem?_eq_some_iff.mp hx
  omega

/-- The loop keeps every tuple of exactly the vectors of 1024 elements whose remainders are not
negative. -/
theorem loop_keeps_iff : LoopKeepsEveryTuple data ↔
    data.length = 1024 ∧ ∀ x ∈ data, 1 ≤ x.toInt ∨ (1024 : Int) ∣ x.toInt - 1 := by
  constructor
  · intro h
    have hlength := length_of_loop_keeps h
    refine ⟨hlength, fun x hx => ?_⟩
    obtain ⟨enough, hkeeps⟩ := h
    obtain ⟨t, -, hevery, -⟩ := hkeeps enough le_rfl
    obtain ⟨b, hbucket⟩ := hevery x hx
    by_cases hmin : x.toInt = -2 ^ 31
    · rw [hashFunction, if_pos (.inl (by omega))] at hbucket
      cases hbucket
    · rw [hashFunction_eq hlength hmin] at hbucket
      have heq : (x.toInt - 1).tmod 1024 = (b : Int) := Except.ok.inj hbucket
      exact remainder_nonneg_iff.mp (by omega)
  · rintro ⟨hlength, hremainder⟩
    have hhash : ∀ x ∈ data, ∃ b : Fin 1024, hashFunction x data = .ok (b : Int) := by
      intro x hx
      have hlow := remainder_nonneg_iff.mpr (hremainder x hx)
      have hhigh := Int.tmod_lt_of_pos (x.toInt - 1) (by omega : (0 : Int) < 1024)
      refine ⟨⟨((x.toInt - 1).tmod 1024).toNat, by omega⟩, ?_⟩
      rw [hashFunction_eq hlength]
      · simp [Int.toNat_of_nonneg hlow]
      · intro hmin
        have := hremainder x hx
        omega
    have hturn : Turnable data 1024 := by
      intro i hi
      obtain ⟨b, hb⟩ := hhash _ (List.getElem_mem (by omega : i < data.length))
      exact ⟨_, _, List.getElem?_eq_getElem _, hb, by omega, by omega⟩
    refine ⟨1025, fun fuel hfuel => ?_⟩
    obtain ⟨t, cells, ht, hb, hf⟩ := turns_keep hturn (by omega : 1024 < fuel)
    refine ⟨t, ht, hhash, fun b => ?_⟩
    have hroom : ∀ b, (cells b).length < fuel := fun b => by
      have := filled_length hf b
      omega
    rw [bucketed_bucket hb hroom b, hf b, List.take_of_length_le (by omega)]

end vectors

end hero.hashing
