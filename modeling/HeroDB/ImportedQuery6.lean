-- `query_6` on imported columns. A number of `lineitem` has eight bytes, but the query reads `int`s:
-- row `k` of the numbers stands in the places `2k` and `2k + 1`, so that it meets the date of row `2k`.
import HeroDB.DatabaseImport
import HeroDB.Query6

namespace hero.tests.query_6

open runtime_layer filter benchmark little_endian

/-! ## The answer -/

/-- A sum over places in pairs, where the second ones do not count. -/
theorem sum_of_pairs {p : Nat → Bool} (f : Nat → Nat) {m : Nat}
    (hodd : ∀ k < m, p (2 * k + 1) = false) :
    (((List.range (2 * m)).filter p).map f).sum =
      (((List.range m).filter fun k => p (2 * k)).map fun k => f (2 * k)).sum := by
  induction m with
  | zero => rfl
  | succ m ih =>
    have hlast := hodd m (Nat.lt_succ_self m)
    have hpair : 2 * (m + 1) = 2 * m + 1 + 1 := by omega
    rw [hpair, List.range_succ, List.range_succ, List.range_succ, List.filter_append,
      List.filter_append, List.filter_append, List.map_append, List.map_append, List.map_append,
      List.sum_append, List.sum_append, List.sum_append, ih fun k hk => hodd k (by omega),
      List.filter_singleton, List.filter_singleton, List.filter_singleton, hlast]
    cases p (2 * m) <;> rfl

section answer

variable (dates : List (BitVec 32)) (discounts quantities prices : List (BitVec 64))

/-- Row `k` of the numbers counts if it passes with the date of row `2k`. -/
def counts (k : Nat) : Bool :=
  (c2 < ((dates.getD (2 * k) 0).toNat : Int) && ((quantities.getD k 0).toNat : Int) < c5) &&
    c4 < ((discounts.getD k 0).toNat : Int)

/-- What the query adds up on `W` blocks. -/
def answer (W : Nat) : Nat :=
  (((List.range (16 * W)).filter (counts dates discounts quantities)).map fun k =>
    (discounts.getD k 0).toNat * (prices.getD k 0).toNat).sum

-- Of 32 rows that pass, 16 are added up.
example : answer (List.replicate 32 2451149) (List.replicate 32 8) (List.replicate 32 10)
    (List.replicate 32 10000) 1 = 16 * (8 * 10000) := by
  decide +kernel

end answer

/-! ## The columns of the scan -/

/-- What the query puts into `data_scan` for a column: `get_size` less its remainder by 32, and as many
`int`s behind the pointer of `get_data`. -/
def scan_column (tpch : Database) (TPCHcol : String) : Option (List Word) := do
  let data ← (get_data tpch "lineitem" TPCHcol).toOption
  let size ← (get_size tpch "lineitem" TPCHcol).toOption
  (List.range (size_of_int (size - size.tmod 32))).mapM fun r =>
    (int_at data r).map (BitVec.ofInt 32)

/-- The rows that the query scans in a database. `l_linestatus` gives only its size. -/
structure Scans (tpch : Database) (x : lineitem_rows) : Prop where
  shipdates : scan_column tpch "l_shipdate" = some x.l_shipdate
  discounts : scan_column tpch "l_discount" = some x.l_discount
  quantities : scan_column tpch "l_quantity" = some x.l_quantity
  prices : scan_column tpch "l_extendedprice" = some x.l_extendedprice
  rows : ∃ size, get_size tpch "lineitem" "l_linestatus" = .ok size ∧
    size_of_int (size - size.tmod 32) = 32 * x.W

section columns

variable {tpch : Database} {TPCHcol : String} {c : Column}

theorem whole_blocks {n : Nat} (hless : n < 2 ^ 31) :
    size_of_int (int_of_size n - (int_of_size n).tmod 32) = 32 * (n / 32) := by
  have hwhole : (n : Int) - (n : Int).tmod 32 = (32 * (n / 32) : Nat) := by
    rw [Int.tmod_eq_emod_of_nonneg (Int.natCast_nonneg n)]
    omega
  rw [int_of_size_eq hless, hwhole, size_of_int]
  omega

theorem scan_column_of {data : List Byte} {size : Int}
    (hdata : get_data tpch "lineitem" TPCHcol = .ok data)
    (hsize : get_size tpch "lineitem" TPCHcol = .ok size) :
    scan_column tpch TPCHcol = (List.range (size_of_int (size - size.tmod 32))).mapM fun r =>
      (int_at data r).map (BitVec.ofInt 32) := by
  rw [scan_column, hdata, hsize]
  rfl

theorem scan_column_eq (himport : Imported tpch "lineitem" TPCHcol c)
    (hless : c.values.length < 2 ^ 31) (word : Nat → Word)
    (hword : ∀ r < c.values.length,
      (int_at c.writeBinary r).map (BitVec.ofInt 32) = some (word r)) :
    scan_column tpch TPCHcol =
      some ((List.range (32 * (c.values.length / 32))).map word) := by
  have hdata : get_data tpch "lineitem" TPCHcol = .ok c.writeBinary := by
    rw [get_data, himport, readBinary_writeBinary]
    rfl
  have hsize : get_size tpch "lineitem" TPCHcol = .ok (int_of_size c.values.length) := by
    rw [get_size, himport, readBinary_writeBinary]
    rfl
  rw [scan_column_of hdata hsize, whole_blocks hless]
  have hwords : ∀ r ∈ List.range (32 * (c.values.length / 32)),
      (int_at c.writeBinary r).map (BitVec.ofInt 32) = some (word r) := by
    intro r hr
    rw [List.mem_range] at hr
    exact hword r (by omega)
  generalize List.range (32 * (c.values.length / 32)) = places at hwords
  induction places with
  | nil => rfl
  | cons r rest ih =>
    obtain ⟨hhere, hrest⟩ := List.forall_mem_cons.mp hwords
    simp [List.mapM_cons, hhere, ih hrest]

theorem word_of_dates (dates : List (BitVec 32)) {r : Nat} (hr : r < dates.length) :
    (int_at (Column.Date dates).writeBinary r).map (BitVec.ofInt 32) =
      some (dates.getD r 0) := by
  have hint := int_at_words dates r
  rw [Column.writeBinary, hint, List.getElem?_map, List.getD_eq_getElem?_getD,
    List.getElem?_eq_getElem hr]
  simp

/-- A number of eight bytes in the places of two `int`s. -/
def halved (numbers : List (BitVec 64)) (r : Nat) : Word :=
  if r % 2 = 0 then (numbers.getD (r / 2) 0).setWidth 32 else 0

theorem word_of_numerics {numbers : List (BitVec 64)} (hsmall : ∀ v ∈ numbers, v.toNat < 2 ^ 31)
    {r : Nat} (hr : r < numbers.length) :
    (int_at (Column.Numeric_12_2 numbers).writeBinary r).map (BitVec.ofInt 32) =
      some (halved numbers r) := by
  have hnumber : ∀ v ∈ numbers, v.toInt = v.toNat := by
    intro v hv
    have hless := hsmall v hv
    exact BitVec.toInt_eq_toNat_of_lt (by omega)
  have hfits : (Column.Numeric_12_2 numbers).Fits := by
    intro value hvalue
    obtain ⟨v, hv, rfl⟩ := List.mem_map.mp hvalue
    have hless := hsmall v hv
    rw [hnumber v hv]
    omega
  have hplace : r / 2 < numbers.length := by omega
  have hmem := hnumber _ (List.getElem_mem hplace)
  rw [Column.writeBinary, int_at_numerics hfits, List.getElem?_map,
    List.getElem?_eq_getElem hplace, Option.map_some, Option.map_some, hmem, halved,
    List.getD_eq_getElem?_getD, List.getElem?_eq_getElem hplace, Option.getD_some]
  split
  · rw [Option.map_some, BitVec.ofInt_natCast, BitVec.ofNat_toNat]
  · rw [sign, if_neg (by omega)]
    rfl

end columns

/-! ## The query on the columns -/

section loaded

variable (dates : List (BitVec 32)) (discounts quantities prices : List (BitVec 64)) {W : Nat}

/-- The rows that the query scans in these columns. -/
def scanned_rows (blocks : 1 ≤ W) (int_size : 32 * W < 2 ^ 31) : lineitem_rows where
  W := W
  l_shipdate := (List.range (32 * W)).map fun r => dates.getD r 0
  l_discount := (List.range (32 * W)).map (halved discounts)
  l_quantity := (List.range (32 * W)).map (halved quantities)
  l_extendedprice := (List.range (32 * W)).map (halved prices)
  blocks := blocks
  shipdates := (List.length_map _).trans List.length_range
  discounts := (List.length_map _).trans List.length_range
  quantities := (List.length_map _).trans List.length_range
  prices := (List.length_map _).trans List.length_range
  int_size := int_size

theorem getD_map_range {f : Nat → Word} {n r : Nat} (hr : r < n) :
    ((List.range n).map f).getD r 0 = f r := by
  rw [List.getD_eq_getElem?_getD, List.getElem?_map, List.getElem?_range hr]
  rfl

theorem halved_even {numbers : List (BitVec 64)} (hsmall : ∀ v ∈ numbers, v.toNat < 2 ^ 31)
    (k : Nat) : (halved numbers (2 * k)).toNat = (numbers.getD k 0).toNat := by
  have hless : (numbers.getD k 0).toNat < 2 ^ 31 := by
    rw [List.getD_eq_getElem?_getD]
    cases hk : numbers[k]? with
    | none => decide
    | some v => exact hsmall v (List.mem_of_getElem? hk)
  have hplace : 2 * k / 2 = k := by omega
  rw [halved, if_pos (by omega), hplace, BitVec.toNat_setWidth, Nat.mod_eq_of_lt (by omega)]

theorem halved_odd (numbers : List (BitVec 64)) (k : Nat) : halved numbers (2 * k + 1) = 0 :=
  if_neg (by omega)

variable {dates discounts quantities prices}

/-- The sum that the query leaves is the answer. -/
theorem scanned_revenue (blocks : 1 ≤ W) (int_size : 32 * W < 2 ^ 31)
    (hdiscounts : ∀ v ∈ discounts, v.toNat < 2 ^ 31)
    (hquantities : ∀ v ∈ quantities, v.toNat < 2 ^ 31)
    (hprices : ∀ v ∈ prices, v.toNat < 2 ^ 31) :
    (scanned_rows dates discounts quantities prices blocks int_size).revenue unsigned =
      BitVec.ofNat 32 (answer dates discounts quantities prices W) := by
  obtain ⟨hc3, hc34, -⟩ := c4_bound
  generalize hx : scanned_rows dates discounts quantities prices blocks int_size = x
  have hW : x.W = W := by rw [← hx]; rfl
  have hshipdate : ∀ r < 32 * W, x.shipdate r = dates.getD r 0 := fun r hr => by
    rw [← hx]
    exact getD_map_range hr
  have hdiscount : ∀ r < 32 * W, x.discount r = halved discounts r := fun r hr => by
    rw [← hx]
    exact getD_map_range hr
  have hquantity : ∀ r < 32 * W, x.quantity r = halved quantities r := fun r hr => by
    rw [← hx]
    exact getD_map_range hr
  have hprice : ∀ r < 32 * W, x.extendedprice r = halved prices r := fun r hr => by
    rw [← hx]
    exact getD_map_range hr
  -- The upper half of a discount passes no test.
  have hodd : ∀ k < 16 * W, x.passes unsigned (2 * k + 1) = false := by
    intro k hk
    have hzero : ¬c4 < unsigned 0 := by
      have hunsigned : unsigned 0 = 0 := rfl
      omega
    rw [lineitem_rows.passes, hdiscount _ (by omega), halved_odd, decide_eq_false hzero,
      Bool.and_false]
  have heven : ∀ k < 16 * W, x.passes unsigned (2 * k) = counts dates discounts quantities k := by
    intro k hk
    rw [lineitem_rows.passes, hshipdate _ (by omega), hdiscount _ (by omega),
      hquantity _ (by omega), unsigned, unsigned, unsigned, halved_even hdiscounts,
      halved_even hquantities, counts]
  have hpairs : 32 * W = 2 * (16 * W) := by omega
  rw [lineitem_rows.revenue, hW, hpairs, sum_of_pairs _ hodd, answer]
  have hfilter : (List.range (16 * W)).filter (fun k => x.passes unsigned (2 * k)) =
      (List.range (16 * W)).filter (counts dates discounts quantities) :=
    List.filter_congr fun k hk => heven k (List.mem_range.mp hk)
  rw [hfilter]
  congr 2
  refine List.map_congr_left fun k hk => ?_
  have hless := List.mem_range.mp (List.mem_filter.mp hk).1
  rw [hdiscount _ (by omega), hprice _ (by omega), halved_even hdiscounts, halved_even hprices]

end loaded

/-- A database gives the query at most one choice of rows. -/
theorem Scans.unique {tpch : Database} {x x' : lineitem_rows} (h : Scans tpch x)
    (h' : Scans tpch x') : x = x' := by
  obtain ⟨size, hsize, hrows⟩ := h.rows
  obtain ⟨size', hsize', hrows'⟩ := h'.rows
  obtain rfl := Except.ok.inj (hsize.symm.trans hsize')
  have hW : x.W = x'.W := by omega
  have hshipdates := Option.some.inj (h.shipdates.symm.trans h'.shipdates)
  have hdiscounts := Option.some.inj (h.discounts.symm.trans h'.discounts)
  have hquantities := Option.some.inj (h.quantities.symm.trans h'.quantities)
  have hprices := Option.some.inj (h.prices.symm.trans h'.prices)
  cases x
  cases x'
  dsimp only at hW hshipdates hdiscounts hquantities hprices
  subst hW hshipdates hdiscounts hquantities hprices
  rfl

section text

variable {schema : List Table} {files : Files} {tpch : Database}
  {cols : List (String × AlgebraType)} {rows : List (List Value)} {unset : Nat → Byte}
  {dates : List (BitVec 32)} {discounts quantities prices : List (BitVec 64)}

/-- The columns of the query in the rows of `lineitem`. -/
structure QueryColumns (cols : List (String × AlgebraType)) (rows : List (List Value))
    (dates : List (BitVec 32)) (discounts quantities prices : List (BitVec 64)) : Prop where
  l_shipdate : ∃ i : Nat, cols[i]? = some ("l_shipdate", .Date) ∧ column rows i = dates.map .Date
  l_discount : ∃ i : Nat, cols[i]? = some ("l_discount", .Numeric 12 2) ∧
    column rows i = discounts.map .Numeric
  l_quantity : ∃ i : Nat, cols[i]? = some ("l_quantity", .Numeric 12 2) ∧
    column rows i = quantities.map .Numeric
  l_extendedprice : ∃ i : Nat, cols[i]? = some ("l_extendedprice", .Numeric 12 2) ∧
    column rows i = prices.map .Numeric

/-- The columns that the query reads, with the types of TPC-H. -/
def query_columns : List (String × AlgebraType) :=
  [("l_shipdate", .Date), ("l_discount", .Numeric 12 2), ("l_quantity", .Numeric 12 2),
    ("l_extendedprice", .Numeric 12 2), ("l_linestatus", .Char 1)]

theorem query_columns_of_typed (hcols : ∀ col ∈ query_columns, col ∈ cols)
    (htyped : Typed rows cols 0) : ∃ dates discounts quantities prices,
      QueryColumns cols rows dates discounts quantities prices := by
  have hnumeric : ∀ name, (name, AlgebraType.Numeric 12 2) ∈ cols → ∃ (numbers : List (BitVec 64))
      (i : Nat), cols[i]? = some (name, .Numeric 12 2) ∧ column rows i = numbers.map .Numeric := by
    intro name hname
    obtain ⟨i, hi⟩ := List.mem_iff_getElem?.mp hname
    obtain ⟨numbers, hnumbers⟩ :=
      column_made .Numeric (types.Numeric.castString 2) hi htyped rfl (fun _ => rfl)
    exact ⟨numbers, i, hi, hnumbers⟩
  obtain ⟨d, hd⟩ := List.mem_iff_getElem?.mp (hcols ("l_shipdate", .Date) (by simp [query_columns]))
  obtain ⟨dates, hdates⟩ := column_made .Date types.Date.castString hd htyped rfl (fun _ => rfl)
  obtain ⟨discounts, hdiscounts⟩ := hnumeric "l_discount" (hcols _ (by simp [query_columns]))
  obtain ⟨quantities, hquantities⟩ := hnumeric "l_quantity" (hcols _ (by simp [query_columns]))
  obtain ⟨prices, hprices⟩ := hnumeric "l_extendedprice" (hcols _ (by simp [query_columns]))
  exact ⟨dates, discounts, quantities, prices, ⟨d, hd, hdates⟩, hdiscounts, hquantities, hprices⟩

/-- The query scans the rows of the columns, in whole blocks. -/
theorem scans_of_loaded
    (hrelation : tpch.lookup "lineitem" = some (loaded unset cols "lineitem" rows).1)
    (hnames : (cols.map (·.1)).Nodup) (hcols : ∀ col ∈ query_columns, col ∈ cols)
    (htyped : Typed rows cols 0) (h : QueryColumns cols rows dates discounts quantities prices)
    (hblock : 32 ≤ rows.length) (hless : rows.length < 2 ^ 31)
    (hdiscounts : ∀ v ∈ discounts, v.toNat < 2 ^ 31)
    (hquantities : ∀ v ∈ quantities, v.toNat < 2 ^ 31)
    (hprices : ∀ v ∈ prices, v.toNat < 2 ^ 31) :
    ∃ (blocks : 1 ≤ rows.length / 32) (int_size : 32 * (rows.length / 32) < 2 ^ 31),
      Scans tpch (scanned_rows dates discounts quantities prices blocks int_size) := by
  have hlength : ∀ {i : Nat} {name : String} {type : AlgebraType} {c : Column},
      cols[i]? = some (name, type) → column rows i = c.elements → c.values.length = rows.length := by
    intro i name type c hcol helements
    obtain ⟨hrows, -, -⟩ := htyped i (name, type) hcol
    rwa [Nat.zero_add, helements, length_elements] at hrows
  have hnumeric : ∀ {name : String} {numbers : List (BitVec 64)},
      (∃ i : Nat, cols[i]? = some (name, .Numeric 12 2) ∧ column rows i = numbers.map .Numeric) →
      (∀ v ∈ numbers, v.toNat < 2 ^ 31) → scan_column tpch name =
        some ((List.range (32 * (rows.length / 32))).map (halved numbers)) := by
    rintro name numbers ⟨i, hcol, helements⟩ hsmall
    have hrows := hlength (c := .Numeric_12_2 numbers) hcol helements
    have himport := imported_of_loaded hrelation hnames hcol htyped
      (c := .Numeric_12_2 numbers) helements
    have hcount : (Column.Numeric_12_2 numbers).values.length = numbers.length := List.length_map _
    have hscan := scan_column_eq himport (by omega) (halved numbers) fun r hr =>
      word_of_numerics hsmall (by omega)
    rwa [hrows] at hscan
  refine ⟨by omega, by omega, ?_, hnumeric h.l_discount hdiscounts,
    hnumeric h.l_quantity hquantities, hnumeric h.l_extendedprice hprices, ?_⟩
  · obtain ⟨i, hcol, helements⟩ := h.l_shipdate
    have hrows := hlength (c := .Date dates) hcol helements
    have himport := imported_of_loaded hrelation hnames hcol htyped (c := .Date dates) helements
    have hcount : (Column.Date dates).values.length = dates.length := List.length_map _
    have hscan := scan_column_eq himport (by omega) (fun r => dates.getD r 0) fun r hr =>
      word_of_dates dates (by omega)
    rwa [hrows] at hscan
  · obtain ⟨i, hcol⟩ := List.mem_iff_getElem?.mp
      (hcols ("l_linestatus", .Char 1) (by simp [query_columns]))
    exact ⟨_, size_of_loaded hrelation hnames hcol, whole_blocks hless⟩

variable {items : String → List (List Word) → Nat → List Nat}

/-- From the text to the answer: after a start that got through, in any run of starts and edits, the
query scans rows of a text that the table had, and leaves the answer on them. It multiplies the numbers
of a row `k` that passes with the date of row `2k`; the numbers of the second half of the rows count
for nothing. -/
theorem query_6_answers_on_the_text (unset : Nat → Byte) (hdistinct : Distinct schema)
    (events : List Event) (hnew : ∀ path, files.columns path = none)
    (hout : .ok tpch ∈ outcomes unset schema events files) (hlineitem : ("lineitem", cols) ∈ schema)
    (hcols : ∀ col ∈ query_columns, col ∈ cols)
    (horder : ∀ kernel buffers n, (items kernel buffers n).Perm (List.range n)) (cpp : kernel_run) :
    ∃ text rows dates discounts quantities prices, Appears "lineitem" events files text ∧
      parse_table (cols.map (·.2)) text = .ok rows ∧
      QueryColumns cols rows dates discounts quantities prices ∧
      (32 ≤ rows.length → rows.length < 2 ^ 31 →
        (∀ v ∈ discounts ++ (quantities ++ prices), v.toNat < 2 ^ 31) →
        (∃ x, Scans tpch x) ∧ ∀ x : run, Scans tpch x.rows → ∃ s,
          (execute_graph ⟨block_kernels items, cpp⟩ (scan x.rows) x.process_queue
            (.before (q_ (32 * x.rows.W) (0, 0)) x.counter x.st)).stores = some s ∧
          ∃ words,
            look s (out_alias (scan x.rows) x.counter x.process_queue 10) (0, 0) = some words ∧
            words[0]? = some (BitVec.ofNat 32
              (answer dates discounts quantities prices (rows.length / 32)))) := by
  obtain ⟨rows, rfl, hfrom⟩ := database_of_start unset hdistinct events hnew hout
  obtain ⟨htyped, text, happears, hparse⟩ := hfrom _ hlineitem
  have hrelation := lookup_database unset rows hdistinct.names hlineitem
  obtain ⟨dates, discounts, quantities, prices, hcolumns⟩ := query_columns_of_typed hcols htyped
  refine ⟨text, rows "lineitem", dates, discounts, quantities, prices, happears, hparse, hcolumns,
    fun hblock hless hsmall => ?_⟩
  rw [List.forall_mem_append, List.forall_mem_append] at hsmall
  obtain ⟨hdiscounts, hquantities, hprices⟩ := hsmall
  obtain ⟨blocks, int_size, hscans⟩ := scans_of_loaded hrelation (hdistinct.columns _ hlineitem).2
    hcols htyped hcolumns hblock hless hdiscounts hquantities hprices
  refine ⟨⟨_, hscans⟩, fun x hx => ?_⟩
  obtain ⟨s, hs, -, words, hwords, hrevenue⟩ := openCL_run x
    (block_kernels_serve horder cpp x.rows.W) (fun r _ => tested_by_kernels x.rows r)
    (fun _ _ _ => rfl)
  rw [hx.unique hscans, scanned_revenue blocks int_size hdiscounts hquantities hprices] at hrevenue
  exact ⟨s, hs, words, hwords, hrevenue⟩

end text

/-- A database with the columns of the query. -/
def query_schema : List Table := [("lineitem", query_columns)]

theorem query_schema_distinct : Distinct query_schema where
  columns := by decide
  names := by decide
  paths := by decide

/-- A directory with a block of rows that pass. -/
def one_block_text : Files where
  cached := false
  tables := fun _ => some (List.replicate 32 "1998-12-01|0.08|0.10|100.00|O|\n".toList).flatten
  columns := fun _ => none

set_option maxRecDepth 20000 in
theorem one_block_outcomes :
    outcomes (fun _ => 0) query_schema [.start, .start] one_block_text =
      [.error "Could not create dir 'cached': ",
        .ok (database (fun _ => 0) query_schema fun _ => List.replicate 32
          [.Date 2451149, .Numeric 8, .Numeric 10, .Numeric 10000, .Char_1 'O'])] := by
  rfl

theorem query_6_answers_on_one_block :
    ∃ text rows dates discounts quantities prices,
      Appears "lineitem" [.start, .start] one_block_text text ∧
      parse_table (query_columns.map (·.2)) text = .ok rows ∧
      QueryColumns query_columns rows dates discounts quantities prices ∧
      (32 ≤ rows.length → rows.length < 2 ^ 31 →
        (∀ v ∈ discounts ++ (quantities ++ prices), v.toNat < 2 ^ 31) →
        (∃ x, Scans (database (fun _ => 0) query_schema fun _ => List.replicate 32
          [.Date 2451149, .Numeric 8, .Numeric 10, .Numeric 10000, .Char_1 'O']) x) ∧
        ∀ x : run, Scans (database (fun _ => 0) query_schema fun _ => List.replicate 32
          [.Date 2451149, .Numeric 8, .Numeric 10, .Numeric 10000, .Char_1 'O']) x.rows → ∃ s,
          (execute_graph ⟨block_kernels (fun _ _ n => (List.range n).reverse), fun _ _ _ _ => none⟩
            (scan x.rows) x.process_queue
            (.before (q_ (32 * x.rows.W) (0, 0)) x.counter x.st)).stores = some s ∧
          ∃ words,
            look s (out_alias (scan x.rows) x.counter x.process_queue 10) (0, 0) = some words ∧
            words[0]? = some (BitVec.ofNat 32
              (answer dates discounts quantities prices (rows.length / 32)))) :=
  query_6_answers_on_the_text (fun _ => 0) query_schema_distinct [.start, .start] (fun _ => rfl)
    (by rw [one_block_outcomes]; exact List.mem_cons_of_mem _ (List.mem_cons_self ..))
    (List.mem_cons_self ..) (fun _ h => h) (fun _ _ _ => List.reverse_perm _) _

end hero.tests.query_6
