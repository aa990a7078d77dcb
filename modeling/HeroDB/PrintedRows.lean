-- The bitmaps of the selections of the data-parallel executor and the text that `print_data` makes
-- of one: it lists the rows that satisfy every selection.
import HeroDB.Bitmaps
import HeroDB.BufferNames

namespace hero.data_parallelism

open kernels loops filter aggregation

/-! ## The kernels -/

def selection_block_greater_than (data : List Word) (c1 : Word) (bitmap : List Word) (gid : Nat) :
    Option (List Word) :=
  (selection_bits (fun x => c1 < x) data gid).bind (store bitmap gid)

def selection_block_less_than (data : List Word) (c1 : Word) (bitmap : List Word) (gid : Nat) :
    Option (List Word) :=
  (selection_bits (fun x => x < c1) data gid).bind (store bitmap gid)

def logical_block_and : List Word → List Word → List Word → Nat → Option (List Word) :=
  word_of_two (· &&& ·)

inductive BlockSelection
  | selection_block_greater_than (data : List Word) (c1 : Word)
  | selection_block_less_than (data : List Word) (c1 : Word)

def BlockSelection.data : BlockSelection → List Word
  | .selection_block_greater_than data _ => data
  | .selection_block_less_than data _ => data

/-- Whether a row satisfies a selection. -/
def BlockSelection.satisfied : BlockSelection → Nat → Bool
  | .selection_block_greater_than data c1, r => (data[r]?).any (fun x => c1 < x)
  | .selection_block_less_than data c1, r => (data[r]?).any (fun x => x < c1)

def BlockSelection.kernel : BlockSelection → List Word → Nat → Option (List Word)
  | .selection_block_greater_than data c1 => data_parallelism.selection_block_greater_than data c1
  | .selection_block_less_than data c1 => data_parallelism.selection_block_less_than data c1

/-- Selections, combined in any way. -/
inductive Combination
  | selection (s : BlockSelection)
  | logical_block_and (input data2 : Combination)

def Combination.selections : Combination → List BlockSelection
  | .selection s => [s]
  | .logical_block_and p q => p.selections ++ q.selections

/-- The bitmap of a combination. Each node has a launch of its own, found by the path to it. -/
def Combination.bitmap {W : Nat} : Combination → (List Bool → Launching W W) → Option (List Word)
  | .selection s, x => (x []).launch s.kernel
  | .logical_block_and p q, x =>
    (p.bitmap (fun path => x (false :: path))).bind (fun a =>
      (q.bitmap (fun path => x (true :: path))).bind (fun b =>
        (x []).launch (data_parallelism.logical_block_and a b)))

/-! ## The text -/

/-- The stream of `print_data`, and its `int count`. -/
structure Listing where
  stream : Name := []
  count : Int := 1

/-- One entry, with an end of line behind each twentieth one. -/
def Listing.put (s : Listing) (number : Int) (separator : Name) : Option Listing :=
  (cpp_layer.int_next s.count).map (fun count =>
    { stream := s.stream ++ to_string number ++ separator ++
        (if s.count.tmod 20 = 0 then ['\n'] else [])
      count })

/-- The rows of one word. -/
def Listing.put_bits (s : Listing) (i : Int) (x : Word) : Option Listing :=
  (List.range 32).foldlM (fun (s : Listing) (j : Nat) =>
    if x.getLsbD j then s.put (Int.bmod (i * 32 + j) (2 ^ 32)) [' '] else some s) s

/-- The text of a buffer with the words `result`. -/
def print_data (result : List Word) (data_size : Nat) (flag_bits : Bool) : Option Name :=
  (cpp_layer.for_int data_size (fun s i => (cpp_layer.load result i).bind (fun x =>
    if flag_bits then s.put_bits i x else s.put x.toInt [' ', ' '])) ({} : Listing)).map
      Listing.stream

/-- The numbers in a text. -/
def listed (text : Name) : List Nat :=
  ((text.splitOnP (fun c => !c.isDigit)).filter (fun digits => digits ≠ [])).map
    (fun digits => Nat.ofDigitChars 10 digits 0)

/-! ## The numbers of a text -/

section texts

variable {n count : Nat} {rest : Name} {s : Listing} {rows : List Nat}

theorem listed_separator {c : Char} (h : ¬c.isDigit) : listed (c :: rest) = listed rest := by
  have hsep : (!c.isDigit) = true := by simpa using h
  rw [listed, List.splitOnP_cons_eq_if_modifyHead, if_pos hsep]
  rfl

theorem listed_number : listed (Nat.toDigits 10 n ++ ' ' :: rest) = n :: listed rest := by
  have hdigits : ∀ c ∈ Nat.toDigits 10 n, (!Char.isDigit c) = false := by
    intro c hc
    simpa using digit_of_mem hc
  have hsplit := List.splitOnP_append_cons_of_forall_mem (p := fun c => !Char.isDigit c) hdigits ' '
    (by decide) rest
  rw [listed, hsplit, List.filter_cons_of_pos (by simp [Nat.toDigits_ne_nil]), List.map_cons,
    Nat.ofDigitChars_ten_toDigits]
  rfl

/-- What stands behind a number that is the `count`-th one. -/
def line_end (count : Nat) : Name := if count % 20 = 0 then ['\n'] else []

/-- The text of some numbers, the first of which is the `count`-th one. -/
def render : Nat → List Nat → Name
  | _, [] => []
  | count, n :: rest => Nat.toDigits 10 n ++ ' ' :: (line_end count ++ render (count + 1) rest)

theorem listed_line_end : listed (line_end count ++ rest) = listed rest := by
  unfold line_end
  split
  · exact listed_separator (by decide)
  · rfl

theorem listed_render : listed (render count rows) = rows := by
  induction rows generalizing count with
  | nil => rfl
  | cons n rest ih => rw [render, listed_number, listed_line_end, ih]

theorem render_snoc :
    render count (rows ++ [n]) =
      render count rows ++ Nat.toDigits 10 n ++ [' '] ++ line_end (count + rows.length) := by
  induction rows generalizing count with
  | nil => simp [render]
  | cons m rest ih =>
    have hcount : count + 1 + rest.length = count + (m :: rest).length := by
      rw [List.length_cons]
      omega
    simp [render, ih, hcount]

/-- The stream holds these rows, and there are few enough for the count. -/
def Lists (s : Listing) (rows : List Nat) : Prop :=
  s.stream = render 1 rows ∧ s.count = rows.length + 1

theorem put_lists (h : Lists s rows) (hfew : rows.length + 1 < 2 ^ 31 - 1) (hn : n < 2 ^ 31) :
    ∃ s', s.put (Int.bmod n (2 ^ 32)) [' '] = some s' ∧ Lists s' (rows ++ [n]) := by
  obtain ⟨hstream, hcount⟩ := h
  have hnumber : Int.bmod n (2 ^ 32) = n := Int.bmod_eq_of_le (by omega) (by omega)
  have hnext : cpp_layer.int_next s.count = some ((rows.length : Int) + 1 + 1) := by
    rw [cpp_layer.int_next, hcount, if_pos (by omega)]
  have hline : (if s.count.tmod 20 = 0 then ['\n'] else []) = line_end (1 + rows.length) := by
    have hcast : s.count = ((1 + rows.length : Nat) : Int) := by rw [hcount]; omega
    have hmod : ((1 + rows.length : Nat) : Int).tmod 20 = ((1 + rows.length) % 20 : Nat) := rfl
    rw [hcast, hmod, line_end]
    exact if_congr (by omega) rfl rfl
  refine ⟨_, by rw [Listing.put, hnext, Option.map_some], ?_, ?_⟩
  · rw [render_snoc, hnumber, hstream, hline, to_string_nat]
  · rw [List.length_append, List.length_singleton, Nat.cast_add, Nat.cast_one]

/-! ## The rows of a bitmap -/

/-- The rows of one word, after `k` of its bits. -/
theorem put_bits_lists {p : Nat → Bool} {x : Word} {i k : Nat}
    (hbits : ∀ j < 32, x.getLsbD j = p (32 * i + j)) (hi : 32 * (i + 1) < 2 ^ 31) (hk : k ≤ 32)
    (h : Lists s ((List.range (32 * i)).filter p)) :
    ∃ s', (List.range k).foldlM (fun (s : Listing) (j : Nat) =>
        if x.getLsbD j then s.put (Int.bmod (i * 32 + j) (2 ^ 32)) [' '] else some s) s = some s' ∧
      Lists s' ((List.range (32 * i + k)).filter p) := by
  induction k with
  | zero => exact ⟨s, rfl, h⟩
  | succ k ih =>
    obtain ⟨s1, hs1, hbefore⟩ := ih (by omega)
    rw [List.range_succ, foldlM_snoc, hs1, Option.bind_some, ← Nat.add_assoc, List.range_succ,
      List.filter_append, hbits k (by omega)]
    by_cases hp : p (32 * i + k)
    · have hfew : ((List.range (32 * i + k)).filter p).length ≤ 32 * i + k := by
        have := List.length_filter_le p (List.range (32 * i + k))
        rwa [List.length_range] at this
      have hrow : (i : Int) * 32 + k = ((32 * i + k : Nat) : Int) := by omega
      rw [if_pos hp, hrow, List.filter_cons_of_pos hp, List.filter_nil]
      exact put_lists hbefore (by omega) (by omega)
    · rw [if_neg hp, List.filter_cons_of_neg hp, List.filter_nil, List.append_nil]
      exact ⟨s1, rfl, hbefore⟩

/-- The text of a bitmap lists the rows that it marks. -/
theorem print_data_rows {W : Nat} {p : Nat → Bool} {bitmap : List Word} (hW : 32 * W < 2 ^ 31)
    (hmarks : Marks W p bitmap) :
    ∃ text, print_data bitmap W true = some text ∧ listed text = (List.range (32 * W)).filter p := by
  have hloop : ∀ i ≤ W, ∃ s, (List.range i).foldlM (fun s (i : Nat) =>
      (cpp_layer.load bitmap i).bind (fun x => Listing.put_bits s i x)) ({} : Listing) = some s ∧
      Lists s ((List.range (32 * i)).filter p) := by
    intro i
    induction i with
    | zero => exact fun _ => ⟨{}, rfl, rfl, rfl⟩
    | succ i ih =>
      intro hi
      obtain ⟨s, hs, hlists⟩ := ih (by omega)
      obtain ⟨x, hx, hbits⟩ := hmarks i hi
      obtain ⟨s', hs', hlists'⟩ := put_bits_lists (k := 32) hbits (by omega) le_rfl hlists
      refine ⟨s', ?_, hlists'⟩
      rw [List.range_succ, foldlM_snoc, hs, Option.bind_some, load_nat, hx, Option.bind_some]
      exact hs'
  obtain ⟨s, hs, hstream, -⟩ := hloop W le_rfl
  refine ⟨s.stream, ?_, by rw [hstream, listed_render]⟩
  simp only [print_data, if_true]
  rw [cpp_layer.for_int_eq _ _ _ (by omega), hs]
  rfl

end texts

/-! ## The bitmaps -/

section bitmaps

variable {W : Nat}

theorem marks_congr {p q : Nat → Bool} {bitmap : List Word} (h : Marks W p bitmap)
    (hsame : ∀ r < 32 * W, p r = q r) : Marks W q bitmap := by
  intro j hj
  obtain ⟨x, hx, hbits⟩ := h j hj
  exact ⟨x, hx, fun i hi => by rw [hbits i hi, hsame _ (by omega)]⟩

theorem any_eq (test : Word → Bool) {data : List Word} {r : Nat} (hr : r < data.length) :
    test (data.getD r 0) = (data[r]?).any test := by
  rw [List.getD_eq_getElem?_getD, List.getElem?_eq_getElem hr]
  rfl

theorem selection_marks (s : BlockSelection) (hdata : s.data.length = 32 * W) (e : Launching W W) :
    ∃ bitmap, e.launch s.kernel = some bitmap ∧ Marks W s.satisfied bitmap := by
  cases s with
  | selection_block_greater_than data c1 =>
    obtain ⟨bitmap, hrun, hmarks⟩ := launch_selection (fun x => c1 < x) hdata e
    exact ⟨bitmap, hrun, marks_congr hmarks (fun r hr => any_eq (fun x => c1 < x) (hdata ▸ hr))⟩
  | selection_block_less_than data c1 =>
    obtain ⟨bitmap, hrun, hmarks⟩ := launch_selection (fun x => x < c1) hdata e
    exact ⟨bitmap, hrun, marks_congr hmarks (fun r hr => any_eq (fun x => x < c1) (hdata ▸ hr))⟩

/-- Whatever the launches, a combination marks the rows that satisfy all of its selections. -/
theorem combination_marks (p : Combination)
    (hcolumns : ∀ s ∈ p.selections, s.data.length = 32 * W) (e : List Bool → Launching W W) :
    ∃ bitmap, p.bitmap e = some bitmap ∧
      Marks W (fun r => p.selections.all (fun s => s.satisfied r)) bitmap := by
  induction p generalizing e with
  | selection s =>
    obtain ⟨bitmap, hrun, hmarks⟩ := selection_marks s (hcolumns s List.mem_cons_self) (e [])
    exact ⟨bitmap, hrun, by simpa [Combination.selections] using hmarks⟩
  | logical_block_and p q hp hq =>
    obtain ⟨a, ha, hamarks⟩ := hp (fun s hs => hcolumns s (List.mem_append_left _ hs))
      (fun path => e (false :: path))
    obtain ⟨b, hb, hbmarks⟩ := hq (fun s hs => hcolumns s (List.mem_append_right _ hs))
      (fun path => e (true :: path))
    obtain ⟨T, hT, hmarks⟩ := launch_logical (· &&& ·) and
      (fun u w i => BitVec.getLsbD_and) hamarks hbmarks (e [])
    refine ⟨T, ?_, marks_congr hmarks (fun r _ => (List.all_append).symm)⟩
    rw [Combination.bitmap, ha, Option.bind_some, hb, Option.bind_some]
    exact hT

end bitmaps

/-- Selections combined with `logical_block_and` in any way, each launch with its items in any
order: the text of their bitmap lists the rows that satisfy all of them, once each and in increasing
order. -/
theorem the_printed_rows_are_the_selected_rows {W : Nat} (p : Combination)
    (hcolumns : ∀ s ∈ p.selections, s.data.length = 32 * W) (hW : 32 * W < 2 ^ 31)
    (e : List Bool → Launching W W) :
    ∃ bitmap text, p.bitmap e = some bitmap ∧ print_data bitmap W true = some text ∧
      (listed text).Pairwise (· < ·) ∧
      ∀ r, r ∈ listed text ↔ r < 32 * W ∧ ∀ s ∈ p.selections, s.satisfied r := by
  obtain ⟨bitmap, hrun, hmarks⟩ := combination_marks p hcolumns e
  obtain ⟨text, htext, hlisted⟩ := print_data_rows hW hmarks
  refine ⟨bitmap, text, hrun, htext, ?_, ?_⟩
  · rw [hlisted]
    exact List.pairwise_lt_range.filter _
  · intro r
    rw [hlisted, List.mem_filter, List.mem_range, List.all_eq_true]

/-- One block of rows, each of which is its own number, and the rows between 3 and 6. -/
def between : Combination :=
  .logical_block_and
    (.selection (.selection_block_greater_than ((List.range 32).map (BitVec.ofNat 32)) 3))
    (.selection (.selection_block_less_than ((List.range 32).map (BitVec.ofNat 32)) 6))

theorem the_rows_between_are_printed :
    ∃ bitmap text, between.bitmap (fun _ => (⟨[0], [0], by decide, by decide⟩ : Launching 1 1)) =
        some bitmap ∧ print_data bitmap 1 true = some text ∧
      (listed text).Pairwise (· < ·) ∧
      ∀ r, r ∈ listed text ↔ r < 32 * 1 ∧ ∀ s ∈ between.selections, s.satisfied r :=
  the_printed_rows_are_the_selected_rows between (by decide) (by decide) _

end hero.data_parallelism
