-- The import of a TPC-H table: the first import parses its text and writes a file for every column,
-- and the imports after it read these files.
import HeroDB.ColumnAccess
import HeroDB.TableText
import Mathlib.Data.Set.List

namespace hero.benchmark

open little_endian types

/-! ## Files -/

/-- The directory of a database: whether it has a directory `cached`, the texts of the tables, and the
files of the columns. -/
structure Files where
  cached : Bool
  tables : String → Option (List Char)
  columns : String → Option (List Byte)

def RTType.sizeof : RTType → Nat
  | .Integer => 4
  | .Numeric_12_2 => 8
  | .Numeric_18_2 => 8
  | .Date => 4
  | .Char 1 => 1
  | .Char size => size + 1
  | .Varchar size => size + 1

/-- The bytes of an element. A string leaves the bytes behind its end as they were, here `unset`. -/
def Value.bytes (unset : Nat → Byte) : Value → List Byte
  | Integer value => little_endian.bytes 4 value.toNat
  | Numeric value => little_endian.bytes 8 value.toNat
  | Date value => little_endian.bytes 4 value.toNat
  | Char_1 value => little_endian.bytes 1 value.toNat
  | Text maxLen value => BitVec.ofNat 8 value.length ::
      ((value.map fun c => BitVec.ofNat 8 c.toNat) ++ (List.range (maxLen - value.length)).map unset)

/-- `Vector<T>::writeBinary`. No space is allocated for no elements, and a longer file keeps its end. -/
def writeBinary (path : String) (data : List Byte) (files : Files) : Except String Unit × Files :=
  let old := (files.columns path).getD []
  if data = [] then
    (.error "posix_fallocate",
      { files with columns := fun p => if p = path then some old else files.columns p })
  else
    (.ok (), { files with columns := fun p =>
      if p = path then some (data ++ old.drop data.length) else files.columns p })

/-! ## The relation -/

/-- `Relation::insert` -/
def Relation.insert (r : Relation) (name : String) : Relation :=
  if (r.attributes.lookup name).isSome then r
  else { r with attributes := r.attributes ++ [(name, ⟨⟨[], 0⟩, name⟩)] }

/-- The vector of one attribute is another one. -/
def Relation.assign (r : Relation) (key : String) (data : DataVector) : Relation :=
  { r with attributes := r.attributes.map fun (k, a) => (k, if k = key then { a with data_ := data } else a) }

section table

variable (unset : Nat → Byte) (cols : List (String × AlgebraType)) (fileName : String)

def path_of (name : String) : String := fileName ++ "_" ++ name

/-- `readBinary` of a column: the relation with it, and its size. A file of no elements cannot be
mapped. -/
def read_column (r : Relation) (col : String × AlgebraType) (files : Files) :
    Except String (Relation × Nat) := do
  let rt_type ← algebraToRTType col.2
  let _ ← r.attribute col.1
  match files.columns (path_of fileName col.1) with
  | none => .error "open"
  | some file =>
    let data := readBinary rt_type.sizeof file
    if data.count = 0 then .error "mmap" else return (r.assign col.1 data, data.count)

/-- The loop that loads the files: the size so far, and how often it changed. -/
def read_columns (files : Files) :
    List (String × AlgebraType) → Relation → Nat → Nat → Except String (Relation × Nat)
  | [], r, size, diffs =>
    if diffs > 1 then .error ("Columns of " ++ fileName ++ " differ in size.") else .ok (r, size)
  | col :: cols, r, oldSize, diffs => do
    let (r, size) ← read_column fileName r col files
    read_columns files cols r size (diffs + if oldSize ≠ size then 1 else 0)

/-- The elements of the column `i`. -/
def column (rows : List (List Value)) (i : Nat) : List Value := rows.filterMap fun row => row[i]?

/-- The loop that writes the files. -/
def write_columns (rows : List (List Value)) :
    List (String × AlgebraType) → Nat → Files → Except String Unit × Files
  | [], _, files => (.ok (), files)
  | col :: cols, i, files =>
    match algebraToRTType col.2 with
    | .error e => (.error e, files)
    | .ok _ =>
      match writeBinary (path_of fileName col.1) ((column rows i).flatMap (Value.bytes unset)) files with
      | (.error e, files) => (.error e, files)
      | (.ok (), files) => write_columns rows cols (i + 1) files

/-- The part of `parseColumns` for columns that are not all mapped. -/
def parse_columns (files : Files) : Except String Unit × Files :=
  match files.tables fileName with
  | none => (.error "csv file not found: ", files)
  | some text =>
    match parse_table (cols.map (·.2)) text with
    | .error e => (.error e, files)
    | .ok rows => write_columns unset fileName rows cols 0 files

/-- `parseColumns`, with the number of tuples. The result of `mkdir` is taken for the opposite: where
it creates the directory, `parseColumns` fails. -/
def parseColumns (r : Relation) (files : Files) : Except String (Relation × Nat) × Files :=
  let r := cols.foldl (fun r col => r.insert col.1) r
  if files.cached = false then
    (.error "Could not create dir 'cached': ", { files with cached := true })
  else
    let allColumnsMMaped := cols.all fun col => (files.columns (path_of fileName col.1)).isSome
    match if allColumnsMMaped then (.ok (), files) else parse_columns unset cols fileName files with
    | (.error e, files) => (.error e, files)
    | (.ok (), files) => (read_columns fileName files cols r 0 0, files)

end table

/-! ## Elements and their bytes -/

section elements

variable {unset : Nat → Byte} {type : AlgebraType} {rt_type : RTType} {value : Value}
  {types : List AlgebraType} {rows : List (List Value)}

theorem sizeof_pos (rt_type : RTType) : 0 < rt_type.sizeof := by
  unfold RTType.sizeof
  split <;> omega

/-- An element has as many bytes as its type. -/
theorem length_bytes_of_read (h : ReadAs type value) (htype : algebraToRTType type = .ok rt_type) :
    (value.bytes unset).length = rt_type.sizeof := by
  have htext : ∀ {maxLen str}, castText maxLen str = .ok value →
      (value.bytes unset).length = maxLen + 1 := by
    intro maxLen str hcast
    unfold castText at hcast
    split at hcast
    · obtain rfl := Except.ok.inj hcast
      simp only [Value.bytes, List.length_cons, List.length_append, List.length_map, List.length_range]
      omega
    · exact absurd hcast (by simp)
  obtain ⟨rt_type', str, htype', -, hcast⟩ := h
  obtain rfl := Except.ok.inj (htype.symm.trans htype')
  unfold castString at hcast
  split at hcast
  · obtain ⟨v, -, hv⟩ := bind_ok_iff.mp hcast
    obtain rfl := Except.ok.inj hv
    exact length_bytes
  · obtain ⟨v, -, hv⟩ := bind_ok_iff.mp hcast
    obtain rfl := Except.ok.inj hv
    exact length_bytes
  · obtain ⟨v, -, hv⟩ := bind_ok_iff.mp hcast
    obtain rfl := Except.ok.inj hv
    exact length_bytes
  · obtain ⟨v, -, hv⟩ := bind_ok_iff.mp hcast
    obtain rfl := Except.ok.inj hv
    exact length_bytes
  · obtain rfl := Except.ok.inj hcast
    exact length_bytes
  · rename_i size hsize
    have hsizeof : (RTType.Char size).sizeof = size + 1 := by
      unfold RTType.sizeof
      split <;> simp_all
    rw [hsizeof, htext hcast]
  · exact htext hcast

/-- A column has an element for every row, read by its type. -/
theorem column_of_rows (hrows : ∀ row ∈ rows, List.Forall₂ ReadAs types row) {i : Nat}
    (htype : types[i]? = some type) :
    (column rows i).length = rows.length ∧ ∀ value ∈ column rows i, ReadAs type value := by
  induction rows with
  | nil => exact ⟨rfl, by simp [column]⟩
  | cons row rows ih =>
    obtain ⟨hrow, hrest⟩ := List.forall_mem_cons.mp hrows
    obtain ⟨hlength, hread⟩ := ih hrest
    obtain ⟨hi, hget⟩ := List.getElem?_eq_some_iff.mp htype
    have hi' : i < row.length := by
      rw [← hrow.length_eq]
      exact hi
    have hvalue : ReadAs type row[i] := by
      rw [← hget]
      exact hrow.get hi hi'
    have hcons : column (row :: rows) i = row[i] :: column rows i := by
      simp [column, List.getElem?_eq_getElem hi']
    rw [hcons]
    exact ⟨by rw [List.length_cons, List.length_cons, hlength],
      List.forall_mem_cons.mpr ⟨hvalue, hread⟩⟩

theorem length_flatMap_bytes (unset : Nat → Byte) {values : List Value}
    (hread : ∀ value ∈ values, ReadAs type value) (htype : algebraToRTType type = .ok rt_type) :
    (values.flatMap (Value.bytes unset)).length = rt_type.sizeof * values.length := by
  induction values with
  | nil => rfl
  | cons value values ih =>
    obtain ⟨hvalue, hrest⟩ := List.forall_mem_cons.mp hread
    rw [List.flatMap_cons, List.length_append, ih hrest, length_bytes_of_read hvalue htype,
      List.length_cons]
    ring

/-- The file of a column is read as its elements. -/
theorem readBinary_column (unset : Nat → Byte) {values : List Value}
    (hread : ∀ value ∈ values, ReadAs type value)
    (htype : algebraToRTType type = .ok rt_type) :
    readBinary rt_type.sizeof (values.flatMap (Value.bytes unset)) =
      ⟨values.flatMap (Value.bytes unset), values.length⟩ := by
  have hlength := length_flatMap_bytes unset hread htype
  have hcount : (values.flatMap (Value.bytes unset)).length / rt_type.sizeof = values.length := by
    rw [hlength, Nat.mul_div_cancel_left _ (sizeof_pos rt_type)]
  rw [readBinary, hcount, List.take_of_length_le]
  rw [hlength, Nat.mul_comm]

end elements

/-! ## Reading the files -/

/-- The column `i` in memory. -/
def loaded_data (unset : Nat → Byte) (rows : List (List Value)) (i : Nat) : DataVector :=
  ⟨(column rows i).flatMap (Value.bytes unset), rows.length⟩

/-- The attributes of columns whose files were read, from the column `i` on. -/
def loaded_attributes (unset : Nat → Byte) (rows : List (List Value)) :
    List (String × AlgebraType) → Nat → List (String × Attribute)
  | [], _ => []
  | col :: cols, i =>
    (col.1, ⟨loaded_data unset rows i, col.1⟩) :: loaded_attributes unset rows cols (i + 1)

/-- The attributes of columns whose files were not read. -/
def empty_attributes (cols : List (String × AlgebraType)) : List (String × Attribute) :=
  cols.map fun col => (col.1, ⟨⟨[], 0⟩, col.1⟩)

section reading

variable {unset : Nat → Byte} {cols : List (String × AlgebraType)} {fileName : String}
  {rows : List (List Value)} {files : Files} {r : Relation} {front : List (String × Attribute)}

theorem lookup_of_not_mem {name : String} {attributes : List (String × Attribute)}
    (h : name ∉ attributes.map (·.1)) : attributes.lookup name = none := by
  rw [List.lookup_eq_none_iff]
  intro p hp
  rw [bne_iff_ne]
  rintro rfl
  exact h (List.mem_map_of_mem hp)

theorem lookup_append_cons {name : String} {a : Attribute} {rest : List (String × Attribute)}
    (h : name ∉ front.map (·.1)) : (front ++ (name, a) :: rest).lookup name = some a := by
  rw [List.lookup_append, lookup_of_not_mem h]
  simp

/-- The columns are inserted one behind the other. -/
theorem insert_columns (hnames : (cols.map (·.1)).Nodup)
    (hnew : ∀ col ∈ cols, col.1 ∉ r.attributes.map (·.1)) :
    cols.foldl (fun r col => r.insert col.1) r =
      { r with attributes := r.attributes ++ empty_attributes cols } := by
  induction cols generalizing r with
  | nil => simp [empty_attributes]
  | cons col cols ih =>
    rw [List.map_cons, List.nodup_cons] at hnames
    obtain ⟨hfirst, hrest⟩ := List.forall_mem_cons.mp hnew
    have hinsert : r.insert col.1 =
        { r with attributes := r.attributes ++ [(col.1, ⟨⟨[], 0⟩, col.1⟩)] } := by
      unfold Relation.insert
      rw [lookup_of_not_mem hfirst, if_neg (by simp)]
    rw [List.foldl_cons, hinsert, ih hnames.2]
    · simp [empty_attributes]
    · intro c hc
      have hne : c.1 ≠ col.1 := fun h => hnames.1 (h ▸ List.mem_map_of_mem hc)
      simp [hrest c hc, hne]

/-- A vector that is read into the first of the columns that are left. -/
theorem assign_first {col : String × AlgebraType} (data : DataVector)
    (hattributes : r.attributes = front ++ empty_attributes (col :: cols))
    (hfront : col.1 ∉ front.map (·.1)) (hnames : ((col :: cols).map (·.1)).Nodup) :
    r.assign col.1 data =
      { r with attributes := (front ++ [(col.1, ⟨data, col.1⟩)]) ++ empty_attributes cols } := by
  have hkeep : ∀ attributes : List (String × Attribute), col.1 ∉ attributes.map (·.1) →
      attributes.map (fun (k, a) => (k, if k = col.1 then { a with data_ := data } else a)) =
        attributes := by
    intro attributes h
    conv_rhs => rw [← List.map_id attributes]
    apply List.map_congr_left
    rintro ⟨k, a⟩ hk
    have hne : k ≠ col.1 := fun heq => h (heq ▸ List.mem_map_of_mem hk)
    simp [hne]
  have hrest : col.1 ∉ (empty_attributes cols).map (·.1) := by
    rw [List.map_cons, List.nodup_cons] at hnames
    simpa [empty_attributes, Function.comp_def] using hnames.1
  unfold Relation.assign
  rw [hattributes]
  have hsplit :
      empty_attributes (col :: cols) = (col.1, ⟨⟨[], 0⟩, col.1⟩) :: empty_attributes cols := rfl
  rw [hsplit, List.map_append, List.map_cons, hkeep front hfront, hkeep _ hrest]
  simp

/-- The files of the columns from `i` on hold their elements. -/
def Hold (unset : Nat → Byte) (fileName : String) (rows : List (List Value))
    (cols : List (String × AlgebraType)) (i : Nat) (files : Files) : Prop :=
  ∀ k col, cols[k]? = some col → files.columns (path_of fileName col.1) =
    some ((column rows (i + k)).flatMap (Value.bytes unset))

/-- The columns from `i` on have known types, and elements of them in every row. -/
def Typed (rows : List (List Value)) (cols : List (String × AlgebraType)) (i : Nat) : Prop :=
  ∀ k col, cols[k]? = some col → (column rows (i + k)).length = rows.length ∧
    (∃ rt_type, algebraToRTType col.2 = .ok rt_type) ∧
    ∀ value ∈ column rows (i + k), ReadAs col.2 value

theorem hold_cons {col : String × AlgebraType} {i : Nat}
    (h : Hold unset fileName rows (col :: cols) i files) :
    files.columns (path_of fileName col.1) = some ((column rows i).flatMap (Value.bytes unset)) ∧
      Hold unset fileName rows cols (i + 1) files := by
  refine ⟨h 0 col rfl, fun k c hc => ?_⟩
  have hk := h (k + 1) c hc
  rwa [Nat.add_comm k 1, ← Nat.add_assoc] at hk

theorem typed_cons {col : String × AlgebraType} {i : Nat} (h : Typed rows (col :: cols) i) :
    ((column rows i).length = rows.length ∧ (∃ rt_type, algebraToRTType col.2 = .ok rt_type) ∧
      ∀ value ∈ column rows i, ReadAs col.2 value) ∧ Typed rows cols (i + 1) := by
  refine ⟨h 0 col rfl, fun k c hc => ?_⟩
  have hk := h (k + 1) c hc
  rwa [Nat.add_comm k 1, ← Nat.add_assoc] at hk

/-- Files that hold the columns are read into the relation, and the size changes only once. -/
theorem read_columns_of_hold (front : List (String × Attribute)) {size diffs i : Nat} (hrows : rows ≠ [])
    (hhold : Hold unset fileName rows cols i files) (htyped : Typed rows cols i)
    (hnames : (cols.map (·.1)).Nodup) (hfront : ∀ col ∈ cols, col.1 ∉ front.map (·.1))
    (hattributes : r.attributes = front ++ empty_attributes cols)
    (hsize : size = 0 ∧ diffs = 0 ∧ cols ≠ [] ∨ size = rows.length ∧ diffs = 1) :
    read_columns fileName files cols r size diffs =
      .ok ({ r with attributes := front ++ loaded_attributes unset rows cols i }, rows.length) := by
  have hlength : rows.length ≠ 0 := by simpa using hrows
  induction cols generalizing r size diffs i front with
  | nil =>
    rcases hsize with ⟨-, -, hne⟩ | ⟨rfl, rfl⟩
    · exact absurd rfl hne
    · unfold read_columns loaded_attributes
      rw [if_neg (by omega)]
      obtain ⟨attributes, name⟩ := r
      dsimp only at hattributes
      rw [hattributes, empty_attributes, List.map_nil]
  | cons col cols ih =>
    obtain ⟨hfile, hhold⟩ := hold_cons hhold
    obtain ⟨⟨hcolumn, ⟨rt_type, htype⟩, hread⟩, htyped⟩ := typed_cons htyped
    obtain ⟨hfirst, hrest⟩ := List.forall_mem_cons.mp hfront
    have hnames' := hnames
    rw [List.map_cons, List.nodup_cons] at hnames
    have hattribute : r.attribute col.1 = .ok ⟨⟨[], 0⟩, col.1⟩ := by
      unfold Relation.attribute
      rw [hattributes, empty_attributes, List.map_cons, lookup_append_cons hfirst]
    have hbinary := readBinary_column unset hread htype
    rw [hcolumn] at hbinary
    have hone : read_column fileName r col files =
        .ok (r.assign col.1 (loaded_data unset rows i), rows.length) := by
      unfold read_column
      rw [htype, hattribute, hfile]
      simp only [hbinary, if_neg hlength, bind, Except.bind]
      rfl
    have hnext : diffs + (if size ≠ rows.length then 1 else 0) = 1 := by
      rcases hsize with ⟨rfl, rfl, -⟩ | ⟨rfl, rfl⟩
      · rw [if_pos (by omega)]
      · rw [if_neg (by simp)]
    have hfront' : ∀ c ∈ cols,
        c.1 ∉ (front ++ [(col.1, (⟨loaded_data unset rows i, col.1⟩ : Attribute))]).map (·.1) := by
      intro c hc
      have hne : c.1 ≠ col.1 := fun h => hnames.1 (h ▸ List.mem_map_of_mem hc)
      simpa [hne] using hrest c hc
    unfold read_columns
    rw [hone, assign_first _ hattributes hfirst hnames']
    simp only [bind, Except.bind, hnext]
    rw [ih _ hhold htyped hnames.2 hfront' rfl (.inr ⟨rfl, rfl⟩)]
    simp [loaded_attributes]

end reading

/-! ## Writing the files -/

section writing

variable {unset : Nat → Byte} {cols : List (String × AlgebraType)} {fileName : String}
  {rows : List (List Value)} {files : Files}

theorem path_of_injective {name name' : String} (h : path_of fileName name = path_of fileName name') :
    name = name' := by
  unfold path_of at h
  exact (String.append_right_inj _).mp h

/-- The files that are there have no elements. -/
def Untouched (fileName : String) (cols : List (String × AlgebraType)) (files : Files) : Prop :=
  ∀ col ∈ cols, ∀ file, files.columns (path_of fileName col.1) = some file → file = []

/-- Over a file without elements, the file is the column. -/
theorem writeBinary_first {path : String} {data : List Byte} (hne : data ≠ [])
    (hold : ∀ file, files.columns path = some file → file = []) :
    writeBinary path data files =
      (.ok (), { files with columns := fun p =>
        if p = path then some data else files.columns p }) := by
  have hempty : (files.columns path).getD [] = [] := by
    cases hfile : files.columns path with
    | none => rfl
    | some file => exact hold file hfile
  unfold writeBinary
  dsimp only
  rw [if_neg hne, hempty, List.drop_nil, List.append_nil]

theorem column_bytes_ne_nil (unset : Nat → Byte) {type : AlgebraType} {rt_type : RTType} {i : Nat}
    (hrows : rows ≠ []) (hcolumn : (column rows i).length = rows.length)
    (hread : ∀ v ∈ column rows i, ReadAs type v) (htype : algebraToRTType type = .ok rt_type) :
    (column rows i).flatMap (Value.bytes unset) ≠ [] := by
  intro hnil
  have hlength := length_flatMap_bytes unset hread htype
  have hpos := sizeof_pos rt_type
  have hrow : 0 < rows.length := List.length_pos_iff.mpr hrows
  rw [hnil, hcolumn, List.length_nil] at hlength
  exact absurd hlength.symm (Nat.mul_pos hpos hrow).ne'

/-- Over files without elements, all columns are written. -/
theorem write_columns_typed (unset : Nat → Byte) {i : Nat} (hrows : rows ≠ [])
    (htyped : Typed rows cols i)
    (hnames : (cols.map (·.1)).Nodup) (huntouched : Untouched fileName cols files) :
    ∃ files', write_columns unset fileName rows cols i files = (.ok (), files') ∧
      files'.cached = files.cached ∧ files'.tables = files.tables ∧
      Hold unset fileName rows cols i files' ∧
      ∀ path, path ∉ cols.map (fun col => path_of fileName col.1) →
        files'.columns path = files.columns path := by
  induction cols generalizing files i with
  | nil => exact ⟨files, rfl, rfl, rfl, fun k col hk => absurd hk (by simp), fun _ _ => rfl⟩
  | cons col cols ih =>
    obtain ⟨⟨hcolumn, ⟨rt_type, htype⟩, hread⟩, htyped⟩ := typed_cons htyped
    obtain ⟨hfirst, hrest⟩ := List.forall_mem_cons.mp huntouched
    rw [List.map_cons, List.nodup_cons] at hnames
    have hne := column_bytes_ne_nil unset hrows hcolumn hread htype
    generalize hdata : (column rows i).flatMap (Value.bytes unset) = data at hne
    generalize hpath : path_of fileName col.1 = path at *
    have hbinary := writeBinary_first hne hfirst
    have hother : ∀ c ∈ cols, path_of fileName c.1 ≠ path := fun c hc h =>
      hnames.1 (path_of_injective (h.trans hpath.symm) ▸ List.mem_map_of_mem hc)
    have huntouched' : Untouched fileName cols
        { files with columns := fun p => if p = path then some data else files.columns p } := by
      intro c hc file hfile
      dsimp only at hfile
      rw [if_neg (hother c hc)] at hfile
      exact hrest c hc file hfile
    obtain ⟨files', hwrite, hcached, htables, hhold, hframe⟩ := ih htyped hnames.2 huntouched'
    refine ⟨files', ?_, hcached, htables, ?_, ?_⟩
    · unfold write_columns
      simp only [htype, hdata, hpath, hbinary]
      exact hwrite
    · intro k c hk
      cases k with
      | zero =>
        obtain rfl := Option.some.inj hk
        have hnot : path ∉ cols.map (fun c => path_of fileName c.1) := by
          intro hmem
          obtain ⟨c, hc, heq⟩ := List.mem_map.mp hmem
          exact hother c hc heq
        rw [hpath, hframe _ hnot, Nat.add_zero, hdata]
        exact if_pos rfl
      | succ k =>
        rw [Nat.add_comm k 1, ← Nat.add_assoc]
        exact hhold k c hk
    · intro other hnot
      rw [List.map_cons, List.mem_cons, not_or, hpath] at hnot
      rw [hframe other hnot.2]
      exact if_neg hnot.1

end writing

/-! ## One import -/

section one_import

variable (unset : Nat → Byte) (cols : List (String × AlgebraType)) (fileName : String)

/-- The relation of the rows, and their number. -/
def loaded (rows : List (List Value)) : Relation × Nat :=
  ({ name := fileName, attributes := loaded_attributes unset rows cols 0 }, rows.length)

/-- The import of a start of the program, into a new database. -/
def import_table (files : Files) : Except String (Relation × Nat) × Files :=
  parseColumns unset cols fileName { name := fileName } files

/-- The files are those of the rows. -/
structure Loaded (rows : List (List Value)) (files : Files) : Prop where
  cached : files.cached = true
  not_empty : rows ≠ []
  typed : Typed rows cols 0
  hold : Hold unset fileName rows cols 0 files

variable {unset cols fileName} {rows : List (List Value)} {files : Files}

theorem insert_all (hnames : (cols.map (·.1)).Nodup) :
    cols.foldl (fun (r : Relation) col => r.insert col.1) { name := fileName } =
      { name := fileName, attributes := empty_attributes cols } := by
  rw [insert_columns hnames (by simp)]
  rfl

theorem read_loaded (hcols : cols ≠ []) (hnames : (cols.map (·.1)).Nodup)
    (h : Loaded unset cols fileName rows files) :
    read_columns fileName files cols { name := fileName, attributes := empty_attributes cols } 0 0 =
      .ok (loaded unset cols fileName rows) :=
  read_columns_of_hold [] h.not_empty h.hold h.typed hnames (by simp) rfl (.inl ⟨rfl, rfl, hcols⟩)

/-- The files of the rows are not written again, whatever the table is. -/
theorem import_of_loaded (hcols : cols ≠ []) (hnames : (cols.map (·.1)).Nodup)
    (h : Loaded unset cols fileName rows files) :
    import_table unset cols fileName files = (.ok (loaded unset cols fileName rows), files) := by
  have hall : cols.all (fun col => (files.columns (path_of fileName col.1)).isSome) = true := by
    rw [List.all_eq_true]
    intro col hcol
    obtain ⟨k, hk⟩ := List.getElem?_of_mem hcol
    rw [h.hold k col hk]
    rfl
  unfold import_table parseColumns
  rw [insert_all hnames, if_neg (by simp [h.cached])]
  simp only [hall, if_true, read_loaded hcols hnames h]

/-- Nothing is read from files without elements. -/
theorem read_untouched (cols : List (String × AlgebraType)) (r : Relation) {col : String × AlgebraType}
    (hfile : ∀ file, files.columns (path_of fileName col.1) = some file → file = []) :
    ∃ e, read_columns fileName files (col :: cols) r 0 0 = .error e := by
  have hone : ∃ e, read_column fileName r col files = .error e := by
    unfold read_column
    cases algebraToRTType col.2 with
    | error e => exact ⟨e, rfl⟩
    | ok rt_type =>
      cases r.attribute col.1 with
      | error e => exact ⟨e, rfl⟩
      | ok a =>
        simp only [bind, Except.bind]
        cases hcolumn : files.columns (path_of fileName col.1) with
        | none => exact ⟨_, rfl⟩
        | some file =>
          obtain rfl := hfile file hcolumn
          have hcount : (readBinary rt_type.sizeof []).count = 0 := Nat.zero_div _
          exact ⟨_, if_pos hcount⟩
  obtain ⟨e, he⟩ := hone
  refine ⟨e, ?_⟩
  unfold read_columns
  rw [he]
  rfl

theorem typed_of_rows (hrows : rows ≠ []) {text : List Char}
    (h : parse_table (cols.map (·.2)) text = .ok rows) : Typed rows cols 0 := by
  intro k col hk
  have htype : (cols.map (·.2))[k]? = some col.2 := by
    rw [List.getElem?_map, hk]
    rfl
  obtain ⟨hlength, hread⟩ := column_of_rows (rows_read h) htype
  rw [Nat.zero_add]
  refine ⟨hlength, ?_, hread⟩
  obtain ⟨value, hvalue⟩ : ∃ value, value ∈ column rows k := by
    apply List.exists_mem_of_length_pos
    rw [hlength]
    exact List.length_pos_iff.mpr hrows
  obtain ⟨rt_type, -, hrt_type, -⟩ := hread value hvalue
  exact ⟨rt_type, hrt_type⟩

/-- An import changes the files of its own columns only, and removes no directory. -/
structure Apart (fileName : String) (cols : List (String × AlgebraType)) (files files' : Files) :
    Prop where
  tables : files'.tables = files.tables
  cached : files.cached = true → files'.cached = true
  columns : ∀ path, path ∉ cols.map (fun col => path_of fileName col.1) →
    files'.columns path = files.columns path

theorem apart_refl (files : Files) : Apart fileName cols files files := ⟨rfl, id, fun _ _ => rfl⟩

/-- A table without rows leaves no elements in the files. -/
theorem write_no_rows (unset : Nat → Byte) {col : String × AlgebraType}
    (huntouched : Untouched fileName (col :: cols) files) :
    ∃ e files', write_columns unset fileName [] (col :: cols) 0 files = (.error e, files') ∧
      Untouched fileName (col :: cols) files' ∧ Apart fileName (col :: cols) files files' := by
  unfold write_columns
  cases algebraToRTType col.2 with
  | error e => exact ⟨e, files, rfl, huntouched, apart_refl files⟩
  | ok rt_type =>
    refine ⟨_, _, rfl, ?_, ⟨rfl, id, ?_⟩⟩
    · intro c hc file hfile
      dsimp only at hfile
      split at hfile
      · obtain rfl := Option.some.inj hfile
        cases hold : files.columns (path_of fileName col.1) with
        | none => rfl
        | some old => exact huntouched col (List.mem_cons_self ..) old hold
      · exact huntouched c hc file hfile
    · intro path hpath
      rw [List.map_cons, List.mem_cons, not_or] at hpath
      exact if_neg hpath.1

/-- As long as the files have no elements, an import fails and leaves them so, or it loads the rows of
the table. -/
theorem import_of_untouched (unset : Nat → Byte) (hcols : cols ≠ []) (hnames : (cols.map (·.1)).Nodup)
    (h : Untouched fileName cols files) :
    ∃ out files', import_table unset cols fileName files = (out, files') ∧
      Apart fileName cols files files' ∧
      ((∃ e, out = .error e) ∧ Untouched fileName cols files' ∨
        ∃ text rows, files.tables fileName = some text ∧
          parse_table (cols.map (·.2)) text = .ok rows ∧ Loaded unset cols fileName rows files' ∧
          out = .ok (loaded unset cols fileName rows)) := by
  obtain ⟨col, cols, rfl⟩ := List.exists_cons_of_ne_nil hcols
  unfold import_table parseColumns
  rw [insert_all hnames]
  by_cases hcached : files.cached = false
  · rw [if_pos hcached]
    exact ⟨_, _, rfl, ⟨rfl, fun _ => rfl, fun _ _ => rfl⟩, .inl ⟨⟨_, rfl⟩, h⟩⟩
  rw [if_neg hcached]
  by_cases hall : (col :: cols).all (fun col => (files.columns (path_of fileName col.1)).isSome) = true
  · obtain ⟨e, he⟩ := read_untouched cols
      { name := fileName, attributes := empty_attributes (col :: cols) }
      (h col (List.mem_cons_self ..))
    simp only [hall, if_true, he]
    exact ⟨_, _, rfl, apart_refl files, .inl ⟨⟨_, rfl⟩, h⟩⟩
  simp only [if_neg hall]
  unfold parse_columns
  cases htext : files.tables fileName with
  | none => exact ⟨_, _, rfl, apart_refl files, .inl ⟨⟨_, rfl⟩, h⟩⟩
  | some text =>
    cases hparse : parse_table ((col :: cols).map (·.2)) text with
    | error e =>
      simp only [hparse]
      exact ⟨_, _, rfl, apart_refl files, .inl ⟨⟨_, rfl⟩, h⟩⟩
    | ok rows =>
      simp only [hparse]
      cases rows with
      | nil =>
        obtain ⟨e, files', hwrite, huntouched, hapart⟩ := write_no_rows unset h
        rw [hwrite]
        exact ⟨_, _, rfl, hapart, .inl ⟨⟨_, rfl⟩, huntouched⟩⟩
      | cons row rows =>
        have hne := List.cons_ne_nil row rows
        have htyped := typed_of_rows hne hparse
        obtain ⟨files', hwrite, hcached', htables, hhold, hframe⟩ :=
          write_columns_typed unset hne htyped hnames h
        have hloaded : Loaded unset (col :: cols) fileName (row :: rows) files' := by
          refine ⟨?_, hne, htyped, hhold⟩
          rw [hcached']
          simpa using hcached
        rw [hwrite]
        have hapart : Apart fileName (col :: cols) files files' :=
          ⟨htables, fun h => hcached'.trans h, hframe⟩
        refine ⟨_, files', rfl, hapart, .inr ⟨text, row :: rows, rfl, hparse, hloaded, ?_⟩⟩
        simp only [read_loaded hcols hnames hloaded]

end one_import

/-! ## What the queries read -/

section queries

variable {unset : Nat → Byte} {cols : List (String × AlgebraType)} {fileName : String}
  {rows : List (List Value)} {files : Files}

theorem attribute_of_loaded (unset : Nat → Byte) (rows : List (List Value)) (i : Nat) {k : Nat}
    {col : String × AlgebraType} (hnames : (cols.map (·.1)).Nodup) (hcol : cols[k]? = some col) :
    (loaded_attributes unset rows cols i).lookup col.1 =
      some ⟨loaded_data unset rows (i + k), col.1⟩ := by
  induction cols generalizing i k with
  | nil => exact absurd hcol (by simp)
  | cons c cols ih =>
    rw [List.map_cons, List.nodup_cons] at hnames
    unfold loaded_attributes
    cases k with
    | zero =>
      obtain rfl := Option.some.inj hcol
      rw [List.lookup_cons_self]
      rfl
    | succ k =>
      have hmem : col ∈ cols := List.mem_of_getElem? hcol
      have hne : col.1 ≠ c.1 := fun h => hnames.1 (h ▸ List.mem_map_of_mem hmem)
      rw [List.lookup_cons, beq_false_of_ne hne, ih _ hnames.2 hcol, Nat.add_assoc,
        Nat.add_comm 1]

/-- The elements of a column that the queries scan. -/
def Column.elements : Column → List Value
  | Integer rows => rows.map .Integer
  | Date rows => rows.map .Date
  | Numeric_12_2 rows => rows.map .Numeric
  | Char_1 rows => rows.map fun b => .Char_1 (Char.ofNat b.toNat)

theorem writeBinary_elements (unset : Nat → Byte) (c : Column) :
    c.writeBinary = c.elements.flatMap (Value.bytes unset) := by
  cases c with
  | Integer rows => simp [Column.writeBinary, Column.elements, row_bytes, List.flatMap_map, Value.bytes]
  | Date rows => simp [Column.writeBinary, Column.elements, row_bytes, List.flatMap_map, Value.bytes]
  | Numeric_12_2 rows =>
    simp [Column.writeBinary, Column.elements, row_bytes, List.flatMap_map, Value.bytes]
  | Char_1 rows =>
    have hbyte : ∀ b : Byte, (Char.ofNat b.toNat).toNat = b.toNat := by
      intro b
      have hless := b.isLt
      have hvalid : b.toNat.isValidChar := .inl (by omega)
      rw [Char.ofNat, dif_pos hvalid]
      rfl
    simp [Column.writeBinary, Column.elements, row_bytes, List.flatMap_map, Value.bytes, hbyte]

theorem length_elements (c : Column) : c.elements.length = c.values.length := by
  cases c <;> simp [Column.elements, Column.values]

/-- The column of a loaded relation is an imported one. -/
theorem imported_of_loaded {tpch : Database} {i : Nat} {name : String} {type : AlgebraType}
    {c : Column} (hrelation : tpch.lookup fileName = some (loaded unset cols fileName rows).1)
    (hnames : (cols.map (·.1)).Nodup) (hcol : cols[i]? = some (name, type))
    (htyped : Typed rows cols 0) (helements : column rows i = c.elements) :
    Imported tpch fileName name c := by
  obtain ⟨hlength, -, -⟩ := htyped i (name, type) hcol
  rw [Nat.zero_add, helements, length_elements] at hlength
  have hlookup := attribute_of_loaded unset rows 0 hnames hcol
  rw [Nat.zero_add] at hlookup
  unfold Imported Database.relation Relation.attribute
  rw [hrelation, Option.getD_some, loaded, hlookup, readBinary_writeBinary,
    writeBinary_elements unset, ← helements, loaded_data, hlength]

/-- `get_size` of any column is the number of the rows. -/
theorem size_of_loaded {tpch : Database} {i : Nat} {name : String} {type : AlgebraType}
    (hrelation : tpch.lookup fileName = some (loaded unset cols fileName rows).1)
    (hnames : (cols.map (·.1)).Nodup) (hcol : cols[i]? = some (name, type)) :
    get_size tpch fileName name = .ok (int_of_size rows.length) := by
  have hlookup := attribute_of_loaded unset rows 0 hnames hcol
  unfold get_size Database.relation Relation.attribute
  rw [hrelation, Option.getD_some, loaded, hlookup]
  rfl

/-- A column whose values are read by one cast is made of what the cast reads. -/
theorem column_made {i w : Nat} {name : String} {type : AlgebraType} {rt_type : RTType}
    (make : BitVec w → Value) (cast : List Char → Except String (BitVec w))
    (hcol : cols[i]? = some (name, type)) (htyped : Typed rows cols 0)
    (htype : algebraToRTType type = .ok rt_type)
    (hmake : ∀ str, castString rt_type str = do return make (← cast str)) :
    ∃ vs : List (BitVec w), column rows i = vs.map make := by
  obtain ⟨-, -, hread⟩ := htyped i (name, type) hcol
  rw [Nat.zero_add] at hread
  have hrange : column rows i ∈ Set.range (List.map make) := by
    rw [Set.range_list_map]
    intro value hmem
    obtain ⟨rt_type', str, htype', -, hcast⟩ := hread value hmem
    obtain rfl := Except.ok.inj (htype.symm.trans htype')
    rw [hmake] at hcast
    obtain ⟨v, -, hv⟩ := bind_ok_iff.mp hcast
    exact ⟨v, Except.ok.inj hv⟩
  obtain ⟨vs, hvs⟩ := hrange
  exact ⟨vs, hvs.symm⟩

/-- A column of Integers, or of Dates, is one that the queries scan as it is. -/
theorem scanned_column {i : Nat} {name : String} {type : AlgebraType}
    (hcol : cols[i]? = some (name, type)) (htyped : Typed rows cols 0)
    (htype : type = .Integer ∨ type = .Date) :
    ∃ c : Column, column rows i = c.elements ∧ c.Fits ∧ c.ReadsAsInts := by
  have hfits : ∀ v : BitVec 32, -2 ^ 31 ≤ v.toInt ∧ v.toInt < 2 ^ 31 := fun v =>
    ⟨v.le_toInt, v.toInt_lt⟩
  rcases htype with rfl | rfl
  · obtain ⟨vs, hvs⟩ := column_made .Integer Integer.castString hcol htyped rfl (fun _ => rfl)
    refine ⟨.Integer vs, hvs, ?_, trivial⟩
    simpa [Column.Fits, Column.values] using fun v _ => hfits v
  · obtain ⟨vs, hvs⟩ := column_made .Date Date.castString hcol htyped rfl (fun _ => rfl)
    refine ⟨.Date vs, hvs, ?_, trivial⟩
    simpa [Column.Fits, Column.values] using fun v _ => hfits v

end queries

end hero.benchmark
