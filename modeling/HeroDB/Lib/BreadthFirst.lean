-- Breadth-first search: the vertices in the order of their discovery, each with the path on which it
-- was discovered. That path is the least one to the vertex, shorter paths first, and paths of one
-- length by the order of the edges.
import Mathlib.Data.List.Shortlex
import Mathlib.Data.List.Nodup
import Mathlib.Data.List.Perm.Subperm
import Mathlib.Order.Basic

namespace hero.breadth_first

universe u

section

variable {V E : Type u} [DecidableEq V] (out : V → List E) (target : E → V)

/-- The loop over the out-edges of a vertex: a target that was not found yet is found. -/
def visit (found : List V) (v : V) : List V :=
  (out v).foldl (fun found e => if target e ∈ found then found else found ++ [target e]) found

/-- The vertices that are found when the first `n` of them have been visited. -/
def search (start : V) : Nat → List V
  | 0 => [start]
  | n + 1 =>
    match (search start n)[n]? with
    | some v => visit out target (search start n) v
    | none => search start n

/-- A path: its edges lead from the start to a vertex. -/
inductive Path (start : V) : List E → V → Prop
  | nil : Path start [] start
  | snoc {p : List E} {v : V} {e : E} : Path start p v → e ∈ out v → Path start (p ++ [e]) (target e)

/-! ## Trails -/

/-- A vertex with the path on which it was discovered. -/
abbrev Trail (V E : Type u) := V × List E

def visit_trail (found : List (Trail V E)) (t : Trail V E) : List (Trail V E) :=
  (out t.1).foldl (fun found e =>
    if target e ∈ found.map Prod.fst then found else found ++ [(target e, t.2 ++ [e])]) found

def trails (start : V) : Nat → List (Trail V E)
  | 0 => [(start, [])]
  | n + 1 =>
    match (trails start n)[n]? with
    | some t => visit_trail out target (trails start n) t
    | none => trails start n

variable {out target} {start : V} {n : Nat}

theorem visit_trail_fst (found : List (Trail V E)) (t : Trail V E) :
    (visit_trail out target found t).map Prod.fst = visit out target (found.map Prod.fst) t.1 := by
  unfold visit_trail visit
  induction out t.1 generalizing found with
  | nil => rfl
  | cons e rest ih =>
    rw [List.foldl_cons, List.foldl_cons, ih]
    congr 1
    split
    · rfl
    · rw [List.map_append]
      rfl

/-- The search finds the vertices of the trails. -/
theorem trails_fst : (trails out target start n).map Prod.fst = search out target start n := by
  induction n with
  | zero => rfl
  | succ n ih =>
    rw [trails, search, ← ih, List.getElem?_map]
    cases (trails out target start n)[n]? with
    | none => rfl
    | some t => exact visit_trail_fst _ t

end

/-! ## The order of paths -/

section order

variable {E : Type u} [LinearOrder E] {p q r : List E} {e f : E}

/-- The order of paths. -/
abbrev Earlier (p q : List E) : Prop := List.Shortlex (· < ·) p q

theorem Earlier.trans (hpq : Earlier p q) (hqr : Earlier q r) : Earlier p r := by
  rw [Earlier, List.shortlex_def] at hpq hqr ⊢
  rcases hpq with hpq | ⟨hpq, hlex⟩ <;> rcases hqr with hqr | ⟨hqr, hlex'⟩
  · exact .inl (by omega)
  · exact .inl (by omega)
  · exact .inl (by omega)
  · exact .inr ⟨by omega, lt_trans (a := p) (b := q) (c := r) hlex hlex'⟩

theorem Earlier.irrefl (p : List E) : ¬Earlier p p := fun h => asymm_of _ h h

theorem earlier_of_edge (h : e < f) : Earlier (p ++ [e]) (p ++ [f]) :=
  List.Shortlex.append_left ((List.shortlex_singleton_iff e f).mpr h) p

/-- A path that is earlier stays so, whatever edges the two go on with. -/
theorem Earlier.snoc (h : Earlier p q) (e f : E) : Earlier (p ++ [e]) (q ++ [f]) := by
  rw [Earlier, List.shortlex_def] at h ⊢
  simp only [List.length_append, List.length_singleton]
  rcases h with hlt | ⟨heq, hlex⟩
  · exact .inl (by omega)
  · refine .inr ⟨by omega, ?_⟩
    induction hlex with
    | nil => cases heq
    | cons _ ih => exact .cons (ih (by simpa using heq))
    | rel h => exact .rel h

end order

/-! ## The least paths -/

section least

variable {V E : Type u} [DecidableEq V] [LinearOrder E] {out : V → List E} {target : E → V}
variable {start : V} {n : Nat} {ts ts' : List (Trail V E)} {u : Trail V E} {pre es : List E} {e : E}

variable (out target start) in
/-- The trails when `n` of them have been visited. -/
structure Explored (n : Nat) (ts : List (Trail V E)) : Prop where
  first : (start, []) ∈ ts
  path : ∀ t ∈ ts, Path out target start t.2 t.1
  nodup : (ts.map Prod.fst).Nodup
  sorted : ts.Pairwise (fun a b => Earlier a.2 b.2)
  grown : ∀ t ∈ ts, t.2 = [] ∨ ∃ u ∈ ts.take n, ∃ e ∈ out u.1, t.2 = u.2 ++ [e]
  done : ∀ u ∈ ts.take n, ∀ e ∈ out u.1, ∃ t ∈ ts, t.1 = target e ∧
    (t.2 = u.2 ++ [e] ∨ Earlier t.2 (u.2 ++ [e]))

variable (out target start) in
/-- The trails while `u` is visited, with the edges `pre` behind and `es` ahead. -/
structure Visiting (ts : List (Trail V E)) (u : Trail V E) (pre es : List E)
    (ts' : List (Trail V E)) : Prop where
  keeps : ts <+: ts'
  path : ∀ t ∈ ts', Path out target start t.2 t.1
  nodup : (ts'.map Prod.fst).Nodup
  sorted : ts'.Pairwise (fun a b => Earlier a.2 b.2)
  grown : ∀ t ∈ ts', t ∈ ts ∨ ∃ e ∈ pre, t.2 = u.2 ++ [e]
  below : ∀ t ∈ ts', ∀ e ∈ es, Earlier t.2 (u.2 ++ [e])
  done : ∀ e ∈ pre, ∃ t ∈ ts', t.1 = target e ∧ (t.2 = u.2 ++ [e] ∨ Earlier t.2 (u.2 ++ [e]))

theorem visiting_edge (h : Visiting out target start ts u pre (e :: es) ts')
    (hu : Path out target start u.2 u.1) (he : e ∈ out u.1) (hes : ∀ f ∈ es, e < f) :
    Visiting out target start ts u (pre ++ [e]) es
      (if target e ∈ ts'.map Prod.fst then ts' else ts' ++ [(target e, u.2 ++ [e])]) := by
  split
  · rename_i hfound
    obtain ⟨t, ht, htarget⟩ := List.mem_map.mp hfound
    refine ⟨h.keeps, h.path, h.nodup, h.sorted, fun t ht => ?_, fun t ht f hf => ?_, fun f hf => ?_⟩
    · exact (h.grown t ht).imp_right (fun ⟨f, hf, heq⟩ => ⟨f, List.mem_append_left _ hf, heq⟩)
    · exact h.below t ht f (List.mem_cons_of_mem _ hf)
    · rcases List.mem_append.mp hf with hf | hf
      · exact h.done f hf
      · obtain rfl := List.mem_singleton.mp hf
        exact ⟨t, ht, htarget, .inr (h.below t ht f List.mem_cons_self)⟩
  · rename_i hnew
    refine ⟨h.keeps.trans (List.prefix_append _ _), fun t ht => ?_, ?_, ?_, fun t ht => ?_,
      fun t ht f hf => ?_, fun f hf => ?_⟩
    · rcases List.mem_append.mp ht with ht | ht
      · exact h.path t ht
      · obtain rfl := List.mem_singleton.mp ht
        exact hu.snoc he
    · rw [List.map_append, List.nodup_append]
      refine ⟨h.nodup, List.nodup_singleton _, ?_⟩
      rintro v hv w hw rfl
      obtain rfl := List.mem_singleton.mp hw
      exact hnew hv
    · rw [List.pairwise_append]
      refine ⟨h.sorted, List.pairwise_singleton _ _, fun t ht w hw => ?_⟩
      obtain rfl := List.mem_singleton.mp hw
      exact h.below t ht e List.mem_cons_self
    · rcases List.mem_append.mp ht with ht | ht
      · exact (h.grown t ht).imp_right (fun ⟨f, hf, heq⟩ => ⟨f, List.mem_append_left _ hf, heq⟩)
      · obtain rfl := List.mem_singleton.mp ht
        exact .inr ⟨e, by simp, rfl⟩
    · rcases List.mem_append.mp ht with ht | ht
      · exact h.below t ht f (List.mem_cons_of_mem _ hf)
      · obtain rfl := List.mem_singleton.mp ht
        exact earlier_of_edge (hes f hf)
    · rcases List.mem_append.mp hf with hf | hf
      · obtain ⟨t, ht, hdone⟩ := h.done f hf
        exact ⟨t, List.mem_append_left _ ht, hdone⟩
      · obtain rfl := List.mem_singleton.mp hf
        exact ⟨_, List.mem_append_right _ List.mem_cons_self, rfl, .inl rfl⟩

/-- The whole loop over the out-edges. -/
theorem visiting_edges (h : Visiting out target start ts u pre es ts')
    (hu : Path out target start u.2 u.1) (hout : ∀ e ∈ es, e ∈ out u.1)
    (hsorted : es.Pairwise (· < ·)) :
    Visiting out target start ts u (pre ++ es) []
      (es.foldl (fun found e =>
        if target e ∈ found.map Prod.fst then found else found ++ [(target e, u.2 ++ [e])]) ts') := by
  induction es generalizing pre ts' with
  | nil => rwa [List.append_nil]
  | cons e rest ih =>
    obtain ⟨hless, hrest⟩ := List.pairwise_cons.mp hsorted
    have hedge := visiting_edge h hu (hout e List.mem_cons_self) hless
    have hloop := ih hedge (fun f hf => hout f (List.mem_cons_of_mem _ hf)) hrest
    rwa [List.append_assoc] at hloop

omit [DecidableEq V] in
theorem explored_start : Explored out target start 0 [(start, [])] := by
  refine ⟨by simp, fun t ht => ?_, by simp, by simp, fun t ht => ?_, fun u hu => by cases hu⟩
  · obtain rfl := List.mem_singleton.mp ht
    exact .nil
  · obtain rfl := List.mem_singleton.mp ht
    exact .inl rfl

omit [DecidableEq V] in
/-- The paths so far are earlier than those that the next trail goes on to. -/
theorem Explored.below (h : Explored out target start n ts) (hu : ts[n]? = some u) :
    ∀ t ∈ ts, ∀ e, Earlier t.2 (u.2 ++ [e]) := by
  intro t ht e
  rcases h.grown t ht with hnil | ⟨w, hw, f, -, heq⟩
  · rw [hnil]
    exact List.Shortlex.of_length_lt (by simp)
  · obtain ⟨hn, rfl⟩ := List.getElem?_eq_some_iff.mp hu
    obtain ⟨i, hi, rfl⟩ := List.mem_take_iff_getElem.mp hw
    rw [heq]
    exact (List.pairwise_iff_getElem.mp h.sorted i n (by omega) hn (by omega)).snoc f e

theorem explored_visit (hsorted : ∀ v, (out v).Pairwise (· < ·))
    (h : Explored out target start n ts) (hu : ts[n]? = some u) :
    Explored out target start (n + 1) (visit_trail out target ts u) := by
  obtain ⟨hn, hget⟩ := List.getElem?_eq_some_iff.mp hu
  have hmem : u ∈ ts := List.mem_of_getElem? hu
  have hbegin : Visiting out target start ts u [] (out u.1) ts :=
    ⟨List.prefix_refl _, h.path, h.nodup, h.sorted, fun t ht => .inl ht,
      fun t ht e _ => h.below hu t ht e, fun e he => by cases he⟩
  have hvisit := visiting_edges hbegin (h.path u hmem) (fun e he => he) (hsorted u.1)
  rw [List.nil_append] at hvisit
  change Visiting out target start ts u (out u.1) [] (visit_trail out target ts u) at hvisit
  have htake : (visit_trail out target ts u).take (n + 1) = ts.take n ++ [u] := by
    obtain ⟨rest, hrest⟩ := hvisit.keeps
    rw [← hrest, List.take_append_of_le_length hn, List.take_add_one, hu]
    rfl
  have hold : ∀ t ∈ ts, t ∈ visit_trail out target ts u := fun t ht => hvisit.keeps.subset ht
  refine ⟨hold _ h.first, hvisit.path, hvisit.nodup, hvisit.sorted, fun t ht => ?_,
    fun w hw e he => ?_⟩
  · rw [htake]
    rcases hvisit.grown t ht with ht | ⟨e, he, heq⟩
    · exact (h.grown t ht).imp_right (fun ⟨w, hw, rest⟩ => ⟨w, List.mem_append_left _ hw, rest⟩)
    · exact .inr ⟨u, by simp, e, he, heq⟩
  · rw [htake] at hw
    rcases List.mem_append.mp hw with hw | hw
    · obtain ⟨t, ht, hdone⟩ := h.done w hw e he
      exact ⟨t, hold t ht, hdone⟩
    · obtain rfl := List.mem_singleton.mp hw
      exact hvisit.done e he

theorem explored (hsorted : ∀ v, (out v).Pairwise (· < ·)) (start : V) (n : Nat) :
    Explored out target start n (trails out target start n) := by
  induction n with
  | zero => exact explored_start
  | succ n ih =>
    rw [trails]
    cases hu : (trails out target start n)[n]? with
    | some u => exact explored_visit hsorted ih hu
    | none =>
      -- All trails were visited before.
      have htake : ∀ m, n ≤ m → (trails out target start n).take m = trails out target start n :=
        fun m hm => List.take_of_length_le (by rw [List.getElem?_eq_none_iff] at hu; omega)
      obtain ⟨first, path, nodup, sorted, grown, done⟩ := ih
      rw [htake n le_rfl] at grown done
      refine ⟨first, path, nodup, sorted, ?_, ?_⟩
      · rwa [htake (n + 1) (by omega)]
      · rwa [htake (n + 1) (by omega)]

omit [DecidableEq V] in
/-- When all trails were visited, each path ends at a vertex whose trail is no later. -/
theorem Explored.least (h : Explored out target start n ts) (hall : ts.length ≤ n) {p : List E}
    {v : V} (hp : Path out target start p v) : ∃ t ∈ ts, t.1 = v ∧ (t.2 = p ∨ Earlier t.2 p) := by
  have htake : ts.take n = ts := List.take_of_length_le hall
  induction hp with
  | nil => exact ⟨_, h.first, rfl, .inl rfl⟩
  | @snoc p v e _ he ih =>
    obtain ⟨t, ht, rfl, hle⟩ := ih
    obtain ⟨w, hw, htarget, hdone⟩ := h.done t (by rwa [htake]) e he
    refine ⟨w, hw, htarget, ?_⟩
    rcases hle with rfl | hless
    · exact hdone
    · rcases hdone with heq | hdone
      · exact .inr (heq ▸ hless.snoc e e)
      · exact .inr (hdone.trans (hless.snoc e e))

omit [DecidableEq V] in
/-- Vertices on paths stay within a closed list, and so do the trails. -/
theorem Explored.length_le (h : Explored out target start n ts) {vertices : List V}
    (hstart : start ∈ vertices) (hclosed : ∀ v ∈ vertices, ∀ e ∈ out v, target e ∈ vertices) :
    ts.length ≤ vertices.length := by
  have hpath : ∀ {p v}, Path out target start p v → v ∈ vertices := by
    intro p v hp
    induction hp with
    | nil => exact hstart
    | snoc _ he ih => exact hclosed _ ih _ he
  have hsubset : ts.map Prod.fst ⊆ vertices := by
    intro v hv
    obtain ⟨t, ht, rfl⟩ := List.mem_map.mp hv
    exact hpath (h.path t ht)
  have hlength := (h.nodup.subperm hsubset).length_le
  rwa [List.length_map] at hlength

end least

/-! ## The order of discovery -/

section discovery

variable {V E : Type u} [DecidableEq V] [LinearOrder E] (out : V → List E) (target : E → V)

/-- The search, with as many visits as there are vertices. -/
def breadth_first_search (vertices : List V) (start : V) : List V :=
  search out target start vertices.length

/-- A path to `u` is earlier than every path to `v`. -/
def Before (start u v : V) : Prop :=
  ∃ p, Path out target start p u ∧ ∀ q, Path out target start q v → Earlier p q

variable {out target} {vertices : List V} {start u v : V}

theorem search_nodup (hsorted : ∀ v, (out v).Pairwise (· < ·)) :
    (breadth_first_search out target vertices start).Nodup := by
  rw [breadth_first_search, ← trails_fst]
  exact (explored hsorted start _).nodup

/-- The search finds what a path leads to. -/
theorem mem_search_iff (hsorted : ∀ v, (out v).Pairwise (· < ·)) (hstart : start ∈ vertices)
    (hclosed : ∀ v ∈ vertices, ∀ e ∈ out v, target e ∈ vertices) :
    v ∈ breadth_first_search out target vertices start ↔ ∃ p, Path out target start p v := by
  have h : Explored out target start vertices.length (trails out target start vertices.length) :=
    explored hsorted start vertices.length
  rw [breadth_first_search, ← trails_fst, List.mem_map]
  constructor
  · rintro ⟨t, ht, rfl⟩
    exact ⟨t.2, h.path t ht⟩
  · rintro ⟨p, hp⟩
    obtain ⟨t, ht, htarget, -⟩ := h.least (h.length_le hstart hclosed) hp
    exact ⟨t, ht, htarget⟩

/-- The search finds one vertex before another if and only if the least path to it is earlier. -/
theorem idxOf_lt_iff (hsorted : ∀ v, (out v).Pairwise (· < ·)) (hstart : start ∈ vertices)
    (hclosed : ∀ v ∈ vertices, ∀ e ∈ out v, target e ∈ vertices)
    (hu : ∃ p, Path out target start p u) (hv : ∃ p, Path out target start p v) :
    (breadth_first_search out target vertices start).idxOf u <
        (breadth_first_search out target vertices start).idxOf v ↔
      Before out target start u v := by
  have h : Explored out target start vertices.length (trails out target start vertices.length) :=
    explored hsorted start vertices.length
  have hlength := h.length_le hstart hclosed
  rw [breadth_first_search, ← trails_fst]
  generalize trails out target start vertices.length = ts at h hlength ⊢
  obtain ⟨p₀, hp₀⟩ := hu
  obtain ⟨t, ht, rfl, -⟩ := h.least hlength hp₀
  obtain ⟨q₀, hq₀⟩ := hv
  obtain ⟨w, hw, rfl, -⟩ := h.least hlength hq₀
  obtain ⟨i, hi, rfl⟩ := List.getElem_of_mem ht
  obtain ⟨j, hj, rfl⟩ := List.getElem_of_mem hw
  have hplace : ∀ k (hk : k < ts.length), (ts.map Prod.fst).idxOf ts[k].1 = k := by
    intro k hk
    have hk' : k < (ts.map Prod.fst).length := by rwa [List.length_map]
    have hfst : (ts.map Prod.fst)[k] = ts[k].1 := List.getElem_map ..
    rw [← hfst, h.nodup.idxOf_getElem]
  rw [hplace i hi, hplace j hj]
  have hearlier := List.pairwise_iff_getElem.mp h.sorted
  constructor
  · intro hij
    refine ⟨_, h.path _ ht, fun q hq => ?_⟩
    obtain ⟨x, hx, hsame, hle⟩ := h.least hlength hq
    -- The trail of a vertex is the only one.
    obtain ⟨k, hk, rfl⟩ := List.getElem_of_mem hx
    have hkj : k = j := by rw [← hplace k hk, hsame, hplace j hj]
    subst hkj
    rcases hle with heq | hless
    · exact heq ▸ hearlier i k hi hk hij
    · exact (hearlier i k hi hk hij).trans hless
  · rintro ⟨p, hp, hall⟩
    obtain ⟨x, hx, hsame, hle⟩ := h.least hlength hp
    obtain ⟨k, hk, rfl⟩ := List.getElem_of_mem hx
    have hki : k = i := by rw [← hplace k hk, hsame, hplace i hi]
    subst hki
    have hless : Earlier ts[k].2 ts[j].2 := by
      rcases hle with heq | hle
      · exact heq ▸ hall _ (h.path _ hw)
      · exact hle.trans (hall _ (h.path _ hw))
    rcases Nat.lt_trichotomy k j with hlt | rfl | hgt
    · exact hlt
    · exact absurd hless (Earlier.irrefl _)
    · exact absurd (hless.trans (hearlier j k hj hk hgt)) (Earlier.irrefl _)

end discovery

/-! ## The times of discovery -/

section times

variable {V : Type u} [DecidableEq V] {found vertices order : List V}

/-- The time of a vertex: its place in the order of discovery, and 0 if it was not found. -/
def time (found : List V) (v : V) : Nat :=
  if v ∈ found then found.idxOf v else 0

/-- The vertices sorted by their times, in any order where these are equal. -/
structure SortedByTime (found vertices order : List V) : Prop where
  perm : order.Perm vertices
  sorted : order.Pairwise (fun u v => time found u ≤ time found v)

theorem time_getElem (hnodup : found.Nodup) {i : Nat} (hi : i < found.length) :
    time found found[i] = i := by
  rw [time, if_pos (List.getElem_mem hi), hnodup.idxOf_getElem]

theorem found_sorted (hnodup : found.Nodup) :
    found.Pairwise (fun u v => time found u ≤ time found v) := by
  rw [List.pairwise_iff_getElem]
  intro i j hi hj hij
  rw [time_getElem hnodup hi, time_getElem hnodup hj]
  exact hij.le

theorem time_inj (hnodup : found.Nodup) {u v : V} (hu : u ∈ found) (hv : v ∈ found)
    (h : time found u = time found v) : u = v := by
  obtain ⟨i, hi, rfl⟩ := List.getElem_of_mem hu
  obtain ⟨j, hj, rfl⟩ := List.getElem_of_mem hv
  rw [time_getElem hnodup hi, time_getElem hnodup hj] at h
  subst h
  rfl

/-- When all vertices were found, the sort leaves the order of discovery. -/
theorem SortedByTime.eq_found (h : SortedByTime found vertices order) (hnodup : found.Nodup)
    (hall : found.Perm vertices) : order = found := by
  refine (h.perm.trans hall.symm).eq_of_pairwise (fun u v hu hv huv hvu => ?_) h.sorted
    (found_sorted hnodup)
  exact time_inj hnodup ((h.perm.trans hall.symm).mem_iff.mp hu) hv (le_antisymm huv hvu)

end times

end hero.breadth_first
