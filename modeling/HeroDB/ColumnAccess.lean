-- The columns of the TPC-H relations: their files, and the `int`s that `get_data` finds in them.
import HeroDB.DataInterface
import HeroDB.Lib.LittleEndian

namespace hero.benchmark

open little_endian

/-! ## Columns and their files -/

/-- The columns that the queries scan, with the values of their elements. -/
inductive Column
  | Integer (rows : List (BitVec 32))
  | Date (rows : List (BitVec 32))
  | Numeric_12_2 (rows : List (BitVec 64))
  | Char_1 (rows : List (BitVec 8))

/-- `sizeof(T)` -/
def Column.sizeof : Column → Nat
  | Integer _ => 4
  | Date _ => 4
  | Numeric_12_2 _ => 8
  | Char_1 _ => 1

/-- The stored values, row by row. -/
def Column.values : Column → List Int
  | Integer rows => rows.map BitVec.toInt
  | Date rows => rows.map BitVec.toInt
  | Numeric_12_2 rows => rows.map BitVec.toInt
  | Char_1 rows => rows.map BitVec.toInt

/-- What `Vector<T>::writeBinary` writes. -/
def Column.writeBinary : Column → List Byte
  | Integer rows => row_bytes 4 (rows.map BitVec.toNat)
  | Date rows => row_bytes 4 (rows.map BitVec.toNat)
  | Numeric_12_2 rows => row_bytes 8 (rows.map BitVec.toNat)
  | Char_1 rows => row_bytes 1 (rows.map BitVec.toNat)

/-- `runtime::Vector`: the mapped memory, and the number of elements in it. -/
structure DataVector where
  data_ : List Byte
  count : Nat

/-- `Vector<T>::readBinary` of a file. -/
def readBinary (sizeof : Nat) (file : List Byte) : DataVector where
  count := file.length / sizeof
  data_ := file.take (file.length / sizeof * sizeof)

/-! ## Relations -/

structure Attribute where
  data_ : DataVector
  name : String

structure Relation where
  attributes : List (String × Attribute) := []
  name : String := ""

def Relation.attribute (r : Relation) (key : String) : Except String Attribute :=
  match r.attributes.lookup key with
  | some a => .ok a
  | none => .error ("Unknown attribute " ++ key ++ " in relation " ++ r.name)

abbrev Database := List (String × Relation)

/-- `operator[]` of an `unordered_map`: an absent relation is an empty one. -/
def Database.relation (tpch : Database) (key : String) : Relation := (tpch.lookup key).getD {}

/-- The memory behind the `int*` that `get_data` returns. -/
def get_data (tpch : Database) (TPCHtable TPCHcol : String) : Except String (List Byte) := do
  let a ← (tpch.relation TPCHtable).attribute TPCHcol
  return a.data_.data_

def get_size (tpch : Database) (TPCHtable TPCHcol : String) : Except String Int := do
  let a ← (tpch.relation TPCHtable).attribute TPCHcol
  return int_of_size a.data_.count

/-- The `int` number `r` behind a pointer to some memory, where it lies inside of it. -/
def int_at (memory : List Byte) (r : Nat) : Option Int :=
  (bytes_at 4 memory r).map (fun b => (BitVec.ofNat 32 (number b)).toInt)

/-! ## What the queries rely on -/

/-- The column was imported under this name. -/
def Imported (tpch : Database) (TPCHtable TPCHcol : String) (c : Column) : Prop :=
  (tpch.relation TPCHtable).attribute TPCHcol =
    .ok ⟨readBinary c.sizeof c.writeBinary, TPCHcol⟩

/-- The values fit in an `int`. -/
def Column.Fits (c : Column) : Prop := ∀ v ∈ c.values, -2 ^ 31 ≤ v ∧ v < 2 ^ 31

/-- The `int`s behind the pointer are the rows of the column, as many as `get_size` says. -/
def ReturnsColumn (tpch : Database) (TPCHtable TPCHcol : String) (c : Column) : Prop :=
  ∃ data size, get_data tpch TPCHtable TPCHcol = .ok data ∧
    get_size tpch TPCHtable TPCHcol = .ok size ∧
    ∀ r : Nat, (r : Int) < size → ∃ v, int_at data r = some v ∧ c.values[r]? = some v

/-- The rows that `get_size` lets a query read. -/
def Column.visible (c : Column) : Nat := (int_of_size c.values.length).toNat

/-- The upper part of a value. -/
def sign (v : Int) : Int := if v < 0 then -1 else 0

/-- Columns of another width than an `int` have to go on with the sign of their first row. -/
def Column.ReadsAsInts (c : Column) : Prop :=
  match c with
  | .Integer _ | .Date _ => True
  | .Numeric_12_2 _ =>
    ∀ r, 1 ≤ r → r < c.visible → c.values[r]? = (c.values[0]?).map sign
  | .Char_1 _ =>
    c.visible = 0 ∨ (4 * c.visible ≤ c.values.length ∧
      ∀ i, 1 ≤ i → i < 4 * c.visible → c.values[i]? = (c.values[0]?).map sign)

/-! ## Reading with another width -/

section spread

variable {α : Type} {s : α → α} {k : Nat}

/-- A sequence is made of its own elements, each followed by its sign, if and only if it goes on
with the sign of the first one. -/
theorem spread_iff (hs : ∀ x, s (s x) = s x) (hk : 2 ≤ k) (a : Nat → α) (n : Nat) :
    (∀ i < n, a i = if i % k = 0 then a (i / k) else s (a (i / k))) ↔
      ∀ i, 1 ≤ i → i < n → a i = s (a 0) := by
  have hless : ∀ i, 1 ≤ i → i / k < i := fun i hi => Nat.div_lt_self hi (by omega)
  constructor
  · intro h i
    induction i using Nat.strong_induction_on with
    | _ i ih =>
      intro hi hn
      rw [h i hn]
      have hq := hless i hi
      rcases Nat.eq_zero_or_pos (i / k) with hzero | hpos
      · -- The first row: `i` is one of its upper parts.
        have hmod : i % k ≠ 0 := by
          intro hmod
          have := Nat.div_add_mod i k
          rw [hzero, hmod] at this
          omega
        rw [if_neg hmod, hzero]
      · have hrow := ih (i / k) hq hpos (by omega)
        rw [hrow, hs]
        exact ite_self _
  · intro h i hn
    rcases Nat.eq_zero_or_pos i with rfl | hi
    · simp
    · have hq := hless i hi
      have hrow : s (a (i / k)) = s (a 0) := by
        rcases Nat.eq_zero_or_pos (i / k) with hzero | hpos
        · rw [hzero]
        · rw [h (i / k) hpos (by omega), hs]
      by_cases hmod : i % k = 0
      · have hpos : 1 ≤ i / k := by
          rcases Nat.eq_zero_or_pos (i / k) with hzero | hpos
          · have := Nat.div_add_mod i k
            rw [hzero, hmod] at this
            omega
          · exact hpos
        rw [if_pos hmod, h i hi hn, h (i / k) hpos (by omega)]
      · rw [if_neg hmod, hrow, h i hi hn]

end spread

/-! ## The `int`s of a column -/

section columns

variable {tpch : Database} {TPCHtable TPCHcol : String} {c : Column} {r : Nat}

theorem length_writeBinary (c : Column) : c.writeBinary.length = c.sizeof * c.values.length := by
  cases c <;> simp [Column.writeBinary, Column.sizeof, Column.values]

/-- The memory of an imported column is its file, and its elements are its rows. -/
theorem readBinary_writeBinary (c : Column) :
    readBinary c.sizeof c.writeBinary = ⟨c.writeBinary, c.values.length⟩ := by
  have hsize : 0 < c.sizeof := by cases c <;> simp [Column.sizeof]
  have hcount : c.writeBinary.length / c.sizeof = c.values.length := by
    rw [length_writeBinary, Nat.mul_div_cancel_left _ hsize]
  rw [readBinary, hcount, List.take_of_length_le]
  rw [length_writeBinary, Nat.mul_comm]

/-- There are no more visible rows than rows. -/
theorem visible_le (c : Column) : c.visible ≤ c.values.length := by
  have hle : int_of_size c.values.length ≤ c.values.length := by
    unfold int_of_size
    rw [Int.bmod_def]
    omega
  unfold Column.visible
  omega

theorem returns_column_iff_ints (himport : Imported tpch TPCHtable TPCHcol c) :
    ReturnsColumn tpch TPCHtable TPCHcol c ↔
      ∀ r < c.visible, int_at c.writeBinary r = c.values[r]? := by
  have hdata : get_data tpch TPCHtable TPCHcol = .ok c.writeBinary := by
    rw [get_data, himport, readBinary_writeBinary]
    rfl
  have hsize : get_size tpch TPCHtable TPCHcol = .ok (int_of_size c.values.length) := by
    rw [get_size, himport, readBinary_writeBinary]
    rfl
  have hvisible := visible_le c
  constructor
  · rintro ⟨data, size, hdata', hsize', hrows⟩ r hr
    obtain rfl := Except.ok.inj (hdata.symm.trans hdata')
    obtain rfl := Except.ok.inj (hsize.symm.trans hsize')
    obtain ⟨v, hint, hvalue⟩ := hrows r (by unfold Column.visible at hr; omega)
    rw [hint, hvalue]
  · intro hrows
    refine ⟨_, _, hdata, hsize, fun r hr => ?_⟩
    have hr' : r < c.visible := by unfold Column.visible; omega
    have hsome := hrows r hr'
    rw [List.getElem?_eq_getElem (by omega)] at hsome ⊢
    exact ⟨_, hsome, rfl⟩

theorem int_of_word (x : BitVec 32) : (BitVec.ofNat 32 (number (bytes 4 x.toNat))).toInt = x.toInt := by
  have hpow : (256 : Nat) ^ 4 = 2 ^ 32 := by norm_num
  rw [number_bytes, hpow, Nat.mod_eq_of_lt x.isLt, BitVec.ofNat_toNat, BitVec.setWidth_eq]

/-- The `int`s of a column of `int`s. -/
theorem int_at_words (rows : List (BitVec 32)) (r : Nat) :
    int_at (row_bytes 4 (rows.map BitVec.toNat)) r = (rows.map BitVec.toInt)[r]? := by
  rw [int_at, bytes_at_row (by omega), List.getElem?_map, List.getElem?_map, Option.map_map,
    Option.map_map]
  congr 1
  funext x
  exact int_of_word x

/-- A row of a Numeric column as two `int`s. -/
theorem bytes_of_numeric (n : Nat) :
    bytes 8 n = bytes 4 n ++ bytes 4 (n / 2 ^ 32) := by
  have hpow : (256 : Nat) ^ 4 = 2 ^ 32 := by norm_num
  rw [← hpow, ← bytes_add]

theorem row_bytes_of_numerics (rows : List Nat) :
    row_bytes 8 rows = row_bytes 4 (rows.flatMap (fun n => [n, n / 2 ^ 32])) := by
  induction rows with
  | nil => rfl
  | cons n rest ih =>
    rw [row_bytes_cons, ih, bytes_of_numeric, List.flatMap_cons, List.cons_append, List.singleton_append,
      row_bytes_cons, row_bytes_cons, List.append_assoc]

theorem getElem_halves {α β : Type} (low high : α → β) (rows : List α) (r : Nat) :
    (rows.flatMap (fun v => [low v, high v]))[r]? =
      if r % 2 = 0 then (rows[r / 2]?).map low else (rows[r / 2]?).map high := by
  induction rows generalizing r with
  | nil => simp
  | cons v rest ih =>
    match r with
    | 0 => rfl
    | 1 => rfl
    | r + 2 =>
      rw [List.flatMap_cons, Nat.add_div_right r (by omega), Nat.add_mod_right]
      exact ih r

/-- The lower half of a value within an `int` is the value, and the upper half its sign. -/
theorem halves_of_numeric (v : BitVec 64) (hlow : -2 ^ 31 ≤ v.toInt) (hhigh : v.toInt < 2 ^ 31) :
    (BitVec.ofNat 32 (number (bytes 4 v.toNat))).toInt = v.toInt ∧
      (BitVec.ofNat 32 (number (bytes 4 (v.toNat / 2 ^ 32)))).toInt = sign v.toInt := by
  have hpow : (256 : Nat) ^ 4 = 2 ^ 32 := by norm_num
  have hlt := v.isLt
  rw [number_bytes, number_bytes, hpow]
  rw [BitVec.toInt_eq_toNat_cond] at hlow hhigh ⊢
  rw [BitVec.toInt_eq_toNat_cond, BitVec.toInt_eq_toNat_cond, BitVec.toNat_ofNat, BitVec.toNat_ofNat]
  unfold sign
  by_cases hpos : 2 * v.toNat < 2 ^ 64
  · rw [if_pos hpos] at hlow hhigh ⊢
    exact ⟨by split <;> omega, by split <;> split <;> omega⟩
  · rw [if_neg hpos] at hlow hhigh ⊢
    exact ⟨by split <;> omega, by split <;> split <;> omega⟩

/-- The `int`s of a Numeric column: each row, and behind it the row's sign. -/
theorem int_at_numerics {rows : List (BitVec 64)} (hfits : (Column.Numeric_12_2 rows).Fits)
    (r : Nat) :
    int_at (row_bytes 8 (rows.map BitVec.toNat)) r =
      if r % 2 = 0 then (rows.map BitVec.toInt)[r / 2]?
      else ((rows.map BitVec.toInt)[r / 2]?).map sign := by
  have hrow : ∀ v ∈ rows, -2 ^ 31 ≤ v.toInt ∧ v.toInt < 2 ^ 31 := fun v hv =>
    hfits v.toInt (List.mem_map_of_mem hv)
  rw [int_at, row_bytes_of_numerics, bytes_at_row (by omega), List.flatMap_map, getElem_halves,
    List.getElem?_map]
  cases hv : rows[r / 2]? with
  | none => split <;> rfl
  | some v =>
    obtain ⟨hlow, hhigh⟩ := halves_of_numeric v (hrow v (List.mem_of_getElem? hv)).1
      (hrow v (List.mem_of_getElem? hv)).2
    split
    · exact congrArg some hlow
    · exact congrArg some hhigh

/-! ## Columns of bytes -/

theorem row_bytes_of_chars (rows : List Byte) : row_bytes 1 (rows.map BitVec.toNat) = rows := by
  induction rows with
  | nil => rfl
  | cons b rest ih =>
    rw [List.map_cons, row_bytes_cons, ih]
    simp [bytes]

theorem bytes_at_chars {rows : List Byte} (hr : 4 * r + 4 ≤ rows.length) :
    bytes_at 4 rows r = some [rows[4 * r], rows[4 * r + 1], rows[4 * r + 2], rows[4 * r + 3]] := by
  rw [bytes_at, if_pos hr, List.drop_eq_getElem_cons (by omega), List.drop_eq_getElem_cons (by omega),
    List.drop_eq_getElem_cons (by omega), List.drop_eq_getElem_cons (by omega)]
  rfl

theorem toInt_of_byte (b : Byte) :
    b.toNat < 128 ∧ b.toInt = b.toNat ∨ 128 ≤ b.toNat ∧ b.toNat < 256 ∧ b.toInt = b.toNat - 256 := by
  have hlt := b.isLt
  rw [BitVec.toInt_eq_toNat_cond]
  split <;> omega

theorem toInt_of_number {n : Nat} (h : n < 2 ^ 32) :
    n < 2 ^ 31 ∧ (BitVec.ofNat 32 n).toInt = n ∨
      2 ^ 31 ≤ n ∧ (BitVec.ofNat 32 n).toInt = n - 2 ^ 32 := by
  rw [BitVec.toInt_eq_toNat_cond, BitVec.toNat_ofNat, Nat.mod_eq_of_lt h]
  split <;> omega

/-- Four bytes are the value of the byte `c` if and only if the first one is `c`, and the others its
sign. -/
theorem int_of_bytes_iff (b₀ b₁ b₂ b₃ c : Byte) :
    (BitVec.ofNat 32 (number [b₀, b₁, b₂, b₃])).toInt = c.toInt ↔
      b₀.toInt = c.toInt ∧ b₁.toInt = sign c.toInt ∧ b₂.toInt = sign c.toInt ∧
        b₃.toInt = sign c.toInt := by
  have h₀ := toInt_of_byte b₀
  have h₁ := toInt_of_byte b₁
  have h₂ := toInt_of_byte b₂
  have h₃ := toInt_of_byte b₃
  have hc := toInt_of_byte c
  have hnumber : number [b₀, b₁, b₂, b₃] =
      b₀.toNat + 256 * (b₁.toNat + 256 * (b₂.toNat + 256 * b₃.toNat)) := by simp [number]
  have hword := toInt_of_number (n := number [b₀, b₁, b₂, b₃]) (by omega)
  by_cases hneg : c.toInt < 0
  · rw [sign, if_pos hneg]
    constructor <;> intro h <;> omega
  · rw [sign, if_neg hneg]
    constructor <;> intro h <;> omega

/-- An `int` of a Char column, read from four of its rows. -/
theorem int_at_chars_iff {rows : List Byte} (hr : r < rows.length) :
    int_at rows r = (rows.map BitVec.toInt)[r]? ↔
      4 * r + 4 ≤ rows.length ∧ ∀ i, 4 * r ≤ i → i < 4 * r + 4 →
        (rows.map BitVec.toInt)[i]? =
          if i % 4 = 0 then (rows.map BitVec.toInt)[i / 4]?
          else ((rows.map BitVec.toInt)[i / 4]?).map sign := by
  by_cases hroom : 4 * r + 4 ≤ rows.length
  · have hvalue : ∀ i (hi : i < rows.length), (rows.map BitVec.toInt)[i]? = some rows[i].toInt :=
      fun i hi => by rw [List.getElem?_map, List.getElem?_eq_getElem hi]; rfl
    have hrest : ∀ k, 0 < k → k < 4 → ¬(4 * r + k) % 4 = 0 ∧ (4 * r + k) / 4 = r := by omega
    rw [int_at, bytes_at_chars hroom, hvalue r hr, Option.map_some, Option.some.injEq,
      int_of_bytes_iff]
    constructor
    · rintro ⟨h₀, h₁, h₂, h₃⟩
      refine ⟨hroom, fun i hlow hhigh => ?_⟩
      obtain ⟨k, rfl⟩ : ∃ k, i = 4 * r + k := ⟨i - 4 * r, by omega⟩
      rcases Nat.eq_zero_or_pos k with rfl | hk
      · rw [Nat.add_zero, if_pos (by omega), Nat.mul_div_cancel_left _ (by omega),
          hvalue _ (by omega), hvalue r hr]
        exact congrArg some h₀
      · obtain ⟨hmod, hdiv⟩ := hrest k hk (by omega)
        rw [if_neg hmod, hdiv, hvalue _ (by omega), hvalue r hr]
        obtain rfl | rfl | rfl : k = 1 ∨ k = 2 ∨ k = 3 := by omega
        · exact congrArg some h₁
        · exact congrArg some h₂
        · exact congrArg some h₃
    · rintro ⟨-, hall⟩
      have hsign : ∀ k (hk : 0 < k) (hk' : k < 4), rows[4 * r + k].toInt = sign rows[r].toInt := by
        intro k hk hk'
        obtain ⟨hmod, hdiv⟩ := hrest k hk hk'
        have hk := hall (4 * r + k) (by omega) (by omega)
        rw [if_neg hmod, hdiv, hvalue _ (by omega), hvalue r hr] at hk
        exact Option.some.inj hk
      refine ⟨?_, hsign 1 (by omega) (by omega), hsign 2 (by omega) (by omega),
        hsign 3 (by omega) (by omega)⟩
      have hfirst := hall (4 * r) le_rfl (by omega)
      rw [if_pos (by omega), Nat.mul_div_cancel_left _ (by omega), hvalue _ (by omega), hvalue r hr]
        at hfirst
      exact Option.some.inj hfirst
  · have hnone : bytes_at 4 rows r = none := if_neg hroom
    rw [int_at, hnone]
    simp [hr, hroom]

theorem sign_sign (v : Option Int) : (v.map sign).map sign = v.map sign := by
  cases v with
  | none => rfl
  | some v =>
    unfold sign
    simp only [Option.map_some, Option.some.injEq]
    split <;> rfl

/-- The `int`s of a column are its rows if and only if it reads as `int`s. -/
theorem ints_iff (hfits : c.Fits) :
    (∀ r < c.visible, int_at c.writeBinary r = c.values[r]?) ↔ c.ReadsAsInts := by
  have hvisible := visible_le c
  cases c with
  | Integer rows => exact iff_of_true (fun r _ => int_at_words rows r) trivial
  | Date rows => exact iff_of_true (fun r _ => int_at_words rows r) trivial
  | Numeric_12_2 rows =>
    have hints := int_at_numerics hfits
    simp only [Column.ReadsAsInts, Column.writeBinary, Column.values]
    generalize (Column.Numeric_12_2 rows).visible = n
    rw [← spread_iff sign_sign (by omega : 2 ≤ 2) (fun i => (rows.map BitVec.toInt)[i]?)]
    exact forall₂_congr fun r _ => by rw [hints, eq_comm]
  | Char_1 rows =>
    have hlength : (Column.Char_1 rows).values.length = rows.length := List.length_map ..
    rw [hlength] at hvisible
    simp only [Column.ReadsAsInts, Column.writeBinary, Column.values, row_bytes_of_chars,
      List.length_map]
    generalize (Column.Char_1 rows).visible = n at hvisible ⊢
    rw [← spread_iff sign_sign (by omega : 2 ≤ 4) (fun i => (rows.map BitVec.toInt)[i]?)]
    have hint : ∀ r < n, _ := fun r hr => @int_at_chars_iff r rows (by omega)
    constructor
    · intro h
      rcases Nat.eq_zero_or_pos n with hzero | hpos
      · exact .inl hzero
      · obtain ⟨hroom, -⟩ := (hint (n - 1) (by omega)).mp (h (n - 1) (by omega))
        refine .inr ⟨by omega, fun i hi => ?_⟩
        exact ((hint (i / 4) (by omega)).mp (h (i / 4) (by omega))).2 i (by omega) (by omega)
    · rintro (rfl | ⟨hroom, hall⟩) r hr
      · omega
      · exact (hint r hr).mpr ⟨by omega, fun i _ hi => hall i (by omega)⟩

end columns

/-- A query reads the rows of an imported column through `get_data` if and only if the column is one
of `int`s, or goes on with the sign of its first row. -/
theorem returns_column_iff {tpch : Database} {TPCHtable TPCHcol : String} {c : Column}
    (himport : Imported tpch TPCHtable TPCHcol c) (hfits : c.Fits) :
    ReturnsColumn tpch TPCHtable TPCHcol c ↔ c.ReadsAsInts :=
  (returns_column_iff_ints himport).trans (ints_iff hfits)

/-- A database with one column. -/
def one_column (TPCHtable TPCHcol : String) (c : Column) : Database :=
  [(TPCHtable, { attributes := [(TPCHcol, ⟨readBinary c.sizeof c.writeBinary, TPCHcol⟩)]
                 name := TPCHtable })]

theorem one_column_imported (TPCHtable TPCHcol : String) (c : Column) :
    Imported (one_column TPCHtable TPCHcol c) TPCHtable TPCHcol c := by
  simp [Imported, one_column, Database.relation, Relation.attribute]

/-- Two quantities, 17.00 and 36.00. -/
def l_quantity : Column := .Numeric_12_2 [1700, 3600]

theorem quantities_read_as_ints_iff :
    ReturnsColumn (one_column "lineitem" "l_quantity" l_quantity) "lineitem" "l_quantity"
      l_quantity ↔ l_quantity.ReadsAsInts :=
  returns_column_iff (one_column_imported ..) (by simp [Column.Fits, l_quantity, Column.values])

/-- The second quantity is read as 0. -/
theorem quantities_are_not_returned :
    ¬ReturnsColumn (one_column "lineitem" "l_quantity" l_quantity) "lineitem" "l_quantity"
      l_quantity := by
  rw [returns_column_iff_ints (one_column_imported ..)]
  intro h
  exact absurd (h 1 (by decide)) (by decide)

end hero.benchmark
