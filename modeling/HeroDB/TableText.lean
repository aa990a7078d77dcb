-- The text of a TPC-H table: lines of fields that end with a bar, how `parse` reads them by the types
-- of the columns, and how their values are written.
import HeroDB.DateCasts

namespace hero.benchmark

open decimals calendar types

/-! ## Types of columns -/

/-- `algebra::Type` -/
inductive AlgebraType
  | Integer
  | BigInt
  | Date
  | Numeric (size precision : Nat)
  | Char (size : Nat)
  | Varchar (size : Nat)

inductive RTType
  | Integer
  | Numeric_12_2
  | Numeric_18_2
  | Date
  | Char (size : Nat)
  | Varchar (size : Nat)

def algebraToRTType : AlgebraType → Except String RTType
  | .Integer => .ok .Integer
  | .Numeric size precision =>
    if size = 12 ∧ precision = 2 then .ok .Numeric_12_2
    else if size = 18 ∧ precision = 2 then .ok .Numeric_18_2
    else .error "Unknown Numeric precision"
  | .Char size =>
    if size ∈ [1, 6, 7, 9, 10, 11, 12, 15, 18, 22, 25] then .ok (.Char size)
    else .error "Unknown Char size"
  | .Varchar size =>
    if size ∈ [11, 12, 22, 23, 25, 40, 44, 55, 79, 101, 117, 152, 199] then .ok (.Varchar size)
    else .error ("Unknown Varchar size" ++ toString size)
  | .Date => .ok .Date
  | .BigInt => .error "Unknown type"

/-! ## Values -/

inductive Value
  | Integer (value : BitVec 32)
  | Numeric (value : BitVec 64)
  | Date (value : BitVec 32)
  | Char_1 (value : Char)
  | Text (maxLen : Nat) (value : List Char)

/-- `castString` of a string of at most `maxLen` characters. -/
def castText (maxLen : Nat) (str : List Char) : Except String Value :=
  if str.length ≤ maxLen then .ok (.Text maxLen str) else .error "assert(strLen <= maxLen)"

/-- `castString` of a field; the bar behind the field follows it in memory. -/
def castString : RTType → List Char → Except String Value
  | .Integer, str => return .Integer (← Integer.castString str)
  | .Numeric_12_2, str => return .Numeric (← Numeric.castString 2 str)
  | .Numeric_18_2, str => return .Numeric (← Numeric.castString 2 str)
  | .Date, str => return .Date (← Date.castString str)
  -- The first character, which is the bar if the field is empty.
  | .Char 1, str => .ok (.Char_1 (str.headD '|'))
  | .Char size, str => castText size (str.dropWhile (· == ' '))
  | .Varchar size, str => castText size str

/-- `operator<<` -/
def Value.print : Value → Option (List Char)
  | Integer value => some (types.Integer.print value)
  | Numeric value => types.Numeric.print 2 value
  | Date value => some (types.Date.print value)
  | Char_1 value => some (if value = ' ' then [] else [value])
  | Text _ value => some value

/-! ## Lines -/

/-- The text up to the first bar, and what follows it: `find_first_of('|', begin)`. -/
def field : List Char → Option (List Char × List Char)
  | [] => none
  | c :: rest => if c = '|' then some ([], rest) else (field rest).map fun (str, rest) => (c :: str, rest)

/-- `castString` of a field that no bar ends: `end` is `npos` as an `unsigned`, and the size is nearly
2^32. A `Char<1>` takes its character all the same, if only the zero behind the line; the other strings
are too long, and the numbers and dates look for blanks at the end. -/
def castEndless : RTType → List Char → Except String Value
  | .Char 1, start => .ok (.Char_1 (start.headD '\x00'))
  | .Char _, _ => .error "assert(strLen <= maxLen)"
  | .Varchar _, _ => .error "assert(strLen <= maxLen)"
  | _, _ => .error "reads behind the line"

/-- The value of the field from `start` on, and where the next field starts: behind the bar, or
without one at the beginning of the line, since `end + 1` is 0. Every position in a line is an
`unsigned`. -/
def parse (type : AlgebraType) (line start : List Char) : Except String (Value × List Char) := do
  let rt_type ← algebraToRTType type
  match field start with
  | some (str, rest) => return (← castString rt_type str, rest)
  | none => return (← castEndless rt_type start, line)

/-- The loop over the columns; what follows the last of their fields is not read. -/
def parse_fields (line : List Char) : List AlgebraType → List Char → Except String (List Value)
  | [], _ => .ok []
  | type :: types, start => do
    let (value, rest) ← parse type line start
    return value :: (← parse_fields line types rest)

def parse_line (types : List AlgebraType) (line : List Char) : Except String (List Value) :=
  parse_fields line types line

/-- `getline`, until there is no more line. -/
def getlines : List Char → List (List Char)
  | [] => []
  | c :: rest =>
    if c = '\n' then [] :: getlines rest
    else match getlines rest with
      | [] => [[c]]
      | line :: lines => (c :: line) :: lines

/-- The rows of a table. -/
def parse_table (types : List AlgebraType) (text : List Char) : Except String (List (List Value)) :=
  (getlines text).mapM (parse_line types)

/-! ## Written tables -/

/-- The fields of one line. -/
def line_text : List (List Char) → List Char
  | [] => []
  | str :: fields => str ++ '|' :: line_text fields

def table_text (rows : List (List (List Char))) : List Char :=
  rows.flatMap fun fields => line_text fields ++ ['\n']

/-- A field can be told from what surrounds it. -/
def Separate (str : List Char) : Prop := '|' ∉ str ∧ '\n' ∉ str

section lines

variable {str rest line : List Char} {fields : List (List Char)} {rows : List (List (List Char))}

theorem field_eq (h : '|' ∉ str) (rest : List Char) : field (str ++ '|' :: rest) = some (str, rest) := by
  induction str with
  | nil => rw [List.nil_append, field, if_pos rfl]
  | cons c str ih =>
    rw [List.mem_cons, not_or] at h
    rw [List.cons_append, field, if_neg (fun hc => h.1 hc.symm), ih h.2]
    rfl

theorem getlines_line (h : '\n' ∉ line) (rest : List Char) :
    getlines (line ++ '\n' :: rest) = line :: getlines rest := by
  induction line with
  | nil => rw [List.nil_append, getlines, if_pos rfl]
  | cons c line ih =>
    rw [List.mem_cons, not_or] at h
    rw [List.cons_append, getlines, if_neg (fun hc => h.1 hc.symm), ih h.2]

theorem newline_not_mem (h : ∀ str ∈ fields, Separate str) : '\n' ∉ line_text fields := by
  induction fields with
  | nil => exact List.not_mem_nil
  | cons str fields ih =>
    have hstr := h str (List.mem_cons_self ..)
    have hfields := ih fun s hs => h s (List.mem_cons_of_mem _ hs)
    unfold line_text
    simp [hstr.2, hfields]

theorem getlines_table (h : ∀ fields ∈ rows, ∀ str ∈ fields, Separate str) :
    getlines (table_text rows) = rows.map line_text := by
  induction rows with
  | nil => rfl
  | cons fields rows ih =>
    have hline := newline_not_mem (h fields (List.mem_cons_self ..))
    have hrows := ih fun f hf => h f (List.mem_cons_of_mem _ hf)
    unfold table_text at hrows ⊢
    rw [List.flatMap_cons, List.append_assoc, List.singleton_append, getlines_line hline, hrows,
      List.map_cons]

end lines

/-! ## Values that are written and read again -/

/-- The values that are told apart from what surrounds them: there is text for all Numerics but the
smallest, a blank is written as nothing, and the bar is what an empty field leaves. -/
def Value.Written : Value → Prop
  | Numeric value => value ≠ BitVec.intMin 64
  | Char_1 value => value ≠ ' ' ∧ value ≠ '|'
  | _ => True

section values

variable {str : List Char} {value : Value}

theorem separate_of_digits (h : Digits str) : Separate str :=
  ⟨not_mem_of_digits h rfl, not_mem_of_digits h rfl⟩

theorem separate_append {front : List Char} (hfront : Separate front) (h : Separate str) :
    Separate (front ++ str) :=
  ⟨fun hmem => (List.mem_append.mp hmem).elim hfront.1 h.1,
    fun hmem => (List.mem_append.mp hmem).elim hfront.2 h.2⟩

theorem separate_cons {c : Char} (hbar : c ≠ '|') (hline : c ≠ '\n') (h : Separate str) :
    Separate (c :: str) :=
  ⟨fun hmem => (List.mem_cons.mp hmem).elim (fun hc => hbar hc.symm) h.1,
    fun hmem => (List.mem_cons.mp hmem).elim (fun hc => hline hc.symm) h.2⟩

theorem separate_integer (value : BitVec 32) : Separate (types.Integer.print value) := by
  have hdigits := separate_of_digits (digits_toDigits value.toInt.natAbs)
  unfold types.Integer.print
  split
  · exact separate_cons (by decide) (by decide) hdigits
  · exact hdigits

theorem separate_decimal (d : Decimal) : Separate d.text := by
  have hsign : Separate d.sign.text := by
    cases d.sign <;> simp [Sign.text, Separate]
  have hwhole := separate_of_digits d.whole_digits
  refine separate_append hsign (separate_append hwhole ?_)
  cases hf : d.fraction with
  | none => simp [Separate]
  | some f =>
    have hfraction := separate_of_digits (d.fraction_digits f hf)
    exact separate_cons (by decide) (by decide) hfraction

theorem separate_date (year month day : Nat) : Separate (date_text year month day) := by
  have hfield : ∀ k n, Separate (zero_padded k n) := fun k n =>
    separate_of_digits (digits_zero_padded k n)
  unfold date_text
  exact separate_append (hfield 4 year) (separate_cons (by decide) (by decide)
    (separate_append (hfield 2 month) (separate_cons (by decide) (by decide) (hfield 2 day))))

/-- A Numeric of two places is written, and read from what is written. -/
theorem numeric_again {value : BitVec 64} (h : value ≠ BitVec.intMin 64) :
    ∃ text, types.Numeric.print 2 value = some text ∧ Separate text ∧
      types.Numeric.castString 2 text = .ok value := by
  obtain ⟨text, htext⟩ : ∃ text, types.Numeric.print 2 value = some text := by
    have hplaces := Nat.mod_lt value.toInt.natAbs (by decide : 0 < 10 ^ 2)
    have hnone : ¬ (value = BitVec.intMin 64 ∨ 2 > 18 ∨
        2 ^ 63 ≤ 10 * (value.toInt.natAbs % 10 ^ 2)) := by
      rintro (hmin | hprecision | hlong)
      · exact h hmin
      · omega
      · omega
    unfold types.Numeric.print
    rw [if_neg hnone]
    split <;> exact ⟨_, rfl⟩
  have hwhole : (written 2 value).whole.length ≤ 18 := by
    rw [length_whole_iff]
    intro hzero
    omega
  have hcast := (castString_written (by omega : 2 ≤ 18) value 0 0).mpr hwhole
  simp only [blanks, List.replicate_zero, List.nil_append, List.append_nil] at hcast
  refine ⟨text, htext, ?_, ?_⟩
  · rw [print_eq htext]
    exact separate_decimal _
  · rw [print_eq htext]
    exact hcast

/-- The text of a Date that was read is read as the same one. -/
theorem date_again {value : BitVec 32} (h : types.Date.castString str = .ok value) :
    Separate (types.Date.print value) ∧
      types.Date.castString (types.Date.print value) = .ok value := by
  obtain ⟨f, hrange, rfl⟩ := castString_iff_fields.mp h
  obtain ⟨d, hyear, hnumber, -⟩ := day_in_range hrange
  have hless : d.year ≤ 9999 := by
    rw [hyear]
    exact hrange.1
  have hcast := castString_date_text (Day.in_range hless) 0 0
  simp only [blanks, List.replicate_zero, List.nil_append, List.append_nil] at hcast
  rw [← hnumber, print_number hless]
  exact ⟨separate_date _ _ _, hcast⟩

theorem text_again {maxLen : Nat} (hstr : Separate str) (h : castText maxLen str = .ok value) :
    value = .Text maxLen str ∧ ∃ text, value.print = some text ∧ Separate text ∧ text = str := by
  unfold castText at h
  split at h
  · obtain rfl := Except.ok.inj h
    exact ⟨rfl, str, rfl, hstr, rfl⟩
  · exact absurd h (by simp)

theorem castString_char {size : Nat} (hsize : size = 1 → False) (str : List Char) :
    castString (.Char size) str = castText size (str.dropWhile (· == ' ')) := by
  unfold castString
  split <;> simp_all

/-- A value that was read from a field is written, and read from what is written. -/
theorem read_again (rt_type : RTType) (hstr : Separate str) (h : castString rt_type str = .ok value)
    (hwritten : value.Written) :
    ∃ text, value.print = some text ∧ Separate text ∧ castString rt_type text = .ok value := by
  unfold castString at h
  split at h
  · -- Integer
    obtain ⟨v, -, hv⟩ := bind_ok_iff.mp h
    obtain rfl := Except.ok.inj hv
    have hcast := castString_print v 0 0
    simp only [blanks, List.replicate_zero, List.nil_append, List.append_nil] at hcast
    exact ⟨_, rfl, separate_integer v, bind_ok_iff.mpr ⟨v, hcast, rfl⟩⟩
  · -- Numeric_12_2
    obtain ⟨v, -, hv⟩ := bind_ok_iff.mp h
    obtain rfl := Except.ok.inj hv
    obtain ⟨text, htext, hseparate, hcast⟩ := numeric_again hwritten
    exact ⟨text, htext, hseparate, bind_ok_iff.mpr ⟨v, hcast, rfl⟩⟩
  · -- Numeric_18_2
    obtain ⟨v, -, hv⟩ := bind_ok_iff.mp h
    obtain rfl := Except.ok.inj hv
    obtain ⟨text, htext, hseparate, hcast⟩ := numeric_again hwritten
    exact ⟨text, htext, hseparate, bind_ok_iff.mpr ⟨v, hcast, rfl⟩⟩
  · -- Date
    obtain ⟨v, hread, hv⟩ := bind_ok_iff.mp h
    obtain rfl := Except.ok.inj hv
    obtain ⟨hseparate, hcast⟩ := date_again hread
    exact ⟨_, rfl, hseparate, bind_ok_iff.mpr ⟨v, hcast, rfl⟩⟩
  · -- Char_1
    obtain rfl := Except.ok.inj h
    obtain ⟨hblank, hbar⟩ := hwritten
    cases str with
    | nil => exact absurd rfl hbar
    | cons c rest =>
      have hline : c ≠ '\n' := fun hc => hstr.2 (hc ▸ List.mem_cons_self ..)
      have hone : (Value.Char_1 c).print = some [c] := congrArg some (if_neg hblank)
      exact ⟨[c], hone, separate_cons hbar hline (by simp [Separate]), rfl⟩
  · -- Char
    rename_i size hsize
    have hdrop : Separate (str.dropWhile (· == ' ')) :=
      ⟨fun hmem => hstr.1 ((List.dropWhile_sublist _).subset hmem),
        fun hmem => hstr.2 ((List.dropWhile_sublist _).subset hmem)⟩
    obtain ⟨rfl, text, htext, hseparate, rfl⟩ := text_again hdrop h
    refine ⟨_, htext, hseparate, ?_⟩
    rw [castString_char hsize, List.dropWhile_idempotent]
    exact h
  · -- Varchar
    obtain ⟨rfl, text, htext, hseparate, rfl⟩ := text_again hstr h
    exact ⟨_, htext, hseparate, h⟩

end values

section tables

variable {types : List AlgebraType} {line text : List Char} {values : List Value}
  {rows : List (List Value)}

/-- The value was read from a field of a column of this type. -/
def ReadAs (type : AlgebraType) (value : Value) : Prop :=
  ∃ rt_type str, algebraToRTType type = .ok rt_type ∧ Separate str ∧ castString rt_type str = .ok value

theorem mapM_ok_iff {α β : Type} {f : α → Except String β} {xs : List α} {ys : List β} :
    xs.mapM f = .ok ys ↔ List.Forall₂ (fun x y => f x = .ok y) xs ys := by
  induction xs generalizing ys with
  | nil =>
    rw [List.mapM_nil, List.forall₂_nil_left_iff]
    exact ⟨fun h => (Except.ok.inj h).symm, fun h => by rw [h]; rfl⟩
  | cons x xs ih =>
    rw [List.mapM_cons, bind_ok_iff, List.forall₂_cons_left_iff]
    constructor
    · rintro ⟨y, hy, hrest⟩
      obtain ⟨rest, hxs, hlast⟩ := bind_ok_iff.mp hrest
      obtain rfl := Except.ok.inj hlast
      exact ⟨y, rest, hy, ih.mp hxs, rfl⟩
    · rintro ⟨y, rest, hy, hxs, rfl⟩
      exact ⟨y, hy, bind_ok_iff.mpr ⟨rest, ih.mpr hxs, rfl⟩⟩

theorem field_some {str rest : List Char} (h : field line = some (str, rest)) :
    '|' ∉ str ∧ line = str ++ '|' :: rest := by
  induction line generalizing str with
  | nil => exact absurd h (by simp [field])
  | cons c line ih =>
    rw [field] at h
    split at h
    · rename_i hc
      obtain ⟨rfl, rfl⟩ := Prod.mk.inj (Option.some.inj h)
      exact ⟨List.not_mem_nil, by rw [hc, List.nil_append]⟩
    · rename_i hc
      obtain ⟨⟨str', rest'⟩, hfield, hcons⟩ := Option.map_eq_some_iff.mp h
      obtain ⟨rfl, rfl⟩ := Prod.mk.inj hcons
      obtain ⟨hbar, rfl⟩ := ih hfield
      refine ⟨?_, rfl⟩
      rw [List.mem_cons, not_or]
      exact ⟨fun hb => hc hb.symm, hbar⟩

theorem field_none (h : field line = none) : '|' ∉ line := by
  induction line with
  | nil => exact List.not_mem_nil
  | cons c line ih =>
    rw [field] at h
    split at h
    · exact absurd h (by simp)
    · rename_i hc
      rw [List.mem_cons, not_or]
      exact ⟨fun hb => hc hb.symm, ih (Option.map_eq_none_iff.mp h)⟩

/-- A character that was read without a bar behind it could have been read with one. -/
theorem readAs_endless {type : AlgebraType} {rt_type : RTType} {start : List Char} {value : Value}
    (htype : algebraToRTType type = .ok rt_type) (hstart : Separate start)
    (h : castEndless rt_type start = .ok value) : ReadAs type value := by
  unfold castEndless at h
  split at h
  · obtain rfl := Except.ok.inj h
    refine ⟨.Char 1, [start.headD '\x00'], htype, ?_, rfl⟩
    cases start with
    | nil => exact separate_cons (by decide) (by decide) hstart
    | cons c rest =>
      exact separate_cons (fun hc => hstart.1 (hc ▸ List.mem_cons_self ..))
        (fun hc => hstart.2 (hc ▸ List.mem_cons_self ..)) (by simp [Separate])
  · exact absurd h (by simp)
  · exact absurd h (by simp)
  · exact absurd h (by simp)

/-- The value of a field was read as one of its column, and the next field starts inside of the line
too. -/
theorem parse_ok {type : AlgebraType} {start rest : List Char} {value : Value}
    (h : parse type line start = .ok (value, rest)) (hline : '\n' ∉ line) (hstart : '\n' ∉ start) :
    ReadAs type value ∧ '\n' ∉ rest := by
  obtain ⟨rt_type, htype, hfield⟩ := bind_ok_iff.mp h
  split at hfield
  · rename_i str rest' hbar
    obtain ⟨v, hcast, hpair⟩ := bind_ok_iff.mp hfield
    obtain ⟨rfl, rfl⟩ := Prod.mk.inj (Except.ok.inj hpair)
    obtain ⟨hnobar, rfl⟩ := field_some hbar
    rw [List.mem_append, not_or, List.mem_cons, not_or] at hstart
    exact ⟨⟨rt_type, str, htype, ⟨hnobar, hstart.1⟩, hcast⟩, hstart.2.2⟩
  · rename_i hnone
    obtain ⟨v, hcast, hpair⟩ := bind_ok_iff.mp hfield
    obtain ⟨rfl, rfl⟩ := Prod.mk.inj (Except.ok.inj hpair)
    exact ⟨readAs_endless htype ⟨field_none hnone, hstart⟩ hcast, hline⟩

/-- The values of a line were read from its fields. -/
theorem parse_fields_ok {start : List Char} (h : parse_fields line types start = .ok values)
    (hline : '\n' ∉ line) (hstart : '\n' ∉ start) : List.Forall₂ ReadAs types values := by
  induction types generalizing start values with
  | nil =>
    obtain rfl := Except.ok.inj h
    exact .nil
  | cons type types ih =>
    obtain ⟨⟨value, rest⟩, hparse, htail⟩ := bind_ok_iff.mp h
    obtain ⟨values', hrest, hcons⟩ := bind_ok_iff.mp htail
    obtain rfl := Except.ok.inj hcons
    obtain ⟨hread, hnext⟩ := parse_ok hparse hline hstart
    exact .cons hread (ih hrest hnext)

/-- A line of values that were read is written, and read from what is written. -/
theorem line_again (h : List.Forall₂ ReadAs types values) (hwritten : ∀ v ∈ values, v.Written) :
    ∃ fields, values.mapM Value.print = some fields ∧ (∀ str ∈ fields, Separate str) ∧
      ∀ line, parse_fields line types (line_text fields) = .ok values := by
  induction h with
  | nil => exact ⟨[], rfl, by simp, fun _ => rfl⟩
  | @cons type value types values hread _ ih =>
    obtain ⟨rt_type, str, htype, hstr, hcast⟩ := hread
    obtain ⟨field, hprint, hseparate, hagain⟩ :=
      read_again rt_type hstr hcast (hwritten value (List.mem_cons_self ..))
    obtain ⟨fields, hfields, hall, hline⟩ := ih fun v hv => hwritten v (List.mem_cons_of_mem _ hv)
    refine ⟨field :: fields, ?_, ?_, ?_⟩
    · rw [List.mapM_cons, hprint, hfields]
      rfl
    · exact List.forall_mem_cons.mpr ⟨hseparate, hall⟩
    · intro line
      have hparse : parse type line (line_text (field :: fields)) =
          .ok (value, line_text fields) := by
        rw [line_text, parse, field_eq hseparate.1]
        exact bind_ok_iff.mpr ⟨rt_type, htype, bind_ok_iff.mpr ⟨value, hagain, rfl⟩⟩
      exact bind_ok_iff.mpr ⟨_, hparse, bind_ok_iff.mpr ⟨values, hline line, rfl⟩⟩

theorem newline_not_mem_lines (text : List Char) : ∀ line ∈ getlines text, '\n' ∉ line := by
  induction text with
  | nil => simp [getlines]
  | cons c text ih =>
    rw [getlines]
    split
    · exact List.forall_mem_cons.mpr ⟨List.not_mem_nil, ih⟩
    · rename_i hc
      cases hlines : getlines text with
      | nil => simpa using fun h => hc h.symm
      | cons line lines =>
        rw [hlines] at ih
        obtain ⟨hline, hrest⟩ := List.forall_mem_cons.mp ih
        refine List.forall_mem_cons.mpr ⟨?_, hrest⟩
        rw [List.mem_cons, not_or]
        exact ⟨fun h => hc h.symm, hline⟩

/-- Every row of a table was read from its line. -/
theorem rows_read (h : parse_table types text = .ok rows) :
    ∀ row ∈ rows, List.Forall₂ ReadAs types row := by
  have hlines := newline_not_mem_lines text
  unfold parse_table at h
  rw [mapM_ok_iff] at h
  generalize getlines text = lines at h hlines
  induction h with
  | nil => simp
  | cons hline _ ih =>
    obtain ⟨hfirst, hrest⟩ := List.forall_mem_cons.mp hlines
    exact List.forall_mem_cons.mpr ⟨parse_fields_ok hline hfirst hfirst, ih hrest⟩

end tables

/-- A table that was parsed from any text is parsed to the same rows when it is written with
`operator<<`, if its values are the ones that are told apart. -/
theorem parse_table_again {types : List AlgebraType} {text : List Char} {rows : List (List Value)}
    (h : parse_table types text = .ok rows) (hwritten : ∀ row ∈ rows, ∀ v ∈ row, v.Written) :
    ∃ fields, rows.mapM (fun row => row.mapM Value.print) = some fields ∧
      parse_table types (table_text fields) = .ok rows := by
  have hread := rows_read h
  obtain ⟨fields, hprint, hseparate, hlines⟩ : ∃ fields : List (List (List Char)),
      rows.mapM (fun row => row.mapM Value.print) = some fields ∧
      (∀ row ∈ fields, ∀ str ∈ row, Separate str) ∧
      List.Forall₂ (fun line row => parse_line types line = .ok row) (fields.map line_text) rows := by
    clear h
    induction rows with
    | nil => exact ⟨[], rfl, by simp, .nil⟩
    | cons row rows ih =>
      obtain ⟨hrow, hrows⟩ := List.forall_mem_cons.mp hread
      obtain ⟨hfirst, hrest⟩ := List.forall_mem_cons.mp hwritten
      obtain ⟨line, hprint, hseparate, hparse⟩ := line_again hrow hfirst
      obtain ⟨lines, hprints, hall, hlines⟩ := ih hrest hrows
      refine ⟨line :: lines, ?_, List.forall_mem_cons.mpr ⟨hseparate, hall⟩, .cons (hparse _) hlines⟩
      rw [List.mapM_cons, hprint, hprints]
      rfl
  refine ⟨fields, hprint, ?_⟩
  unfold parse_table
  rw [getlines_table hseparate, mapM_ok_iff]
  exact hlines

/-- A line without its last bar. -/
theorem a_line_is_parsed_again :
    ∃ fields, [[Value.Integer 7, .Char_1 'N']].mapM (fun row => row.mapM Value.print) = some fields ∧
      parse_table [.Integer, .Char 1] (table_text fields) = .ok [[.Integer 7, .Char_1 'N']] :=
  @parse_table_again _ [' ', '7', '|', 'N'] _ rfl (by simp [Value.Written])

end hero.benchmark
