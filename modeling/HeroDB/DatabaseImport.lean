-- The import of the TPC-H database: what the starts of the program find over the files that the
-- starts before them left.
import HeroDB.TableImport

namespace hero.benchmark

open little_endian types

/-! ## The database -/

/-- A relation with its columns. -/
abbrev Table := String × List (String × AlgebraType)

/-- The relations of TPC-H. -/
def tpch_schema : List Table :=
  [("part",
    [("p_partkey", .Integer), ("p_name", .Varchar 55), ("p_mfgr", .Char 25), ("p_brand", .Char 10),
      ("p_type", .Varchar 25), ("p_size", .Integer), ("p_container", .Char 10),
      ("p_retailprice", .Numeric 12 2), ("p_comment", .Varchar 23)]),
  ("supplier",
    [("s_suppkey", .Integer), ("s_name", .Char 25), ("s_address", .Varchar 40),
      ("s_nationkey", .Integer), ("s_phone", .Char 15), ("s_acctbal", .Numeric 12 2),
      ("s_comment", .Varchar 101)]),
  ("partsupp",
    [("ps_partkey", .Integer), ("ps_suppkey", .Integer), ("ps_availqty", .Integer),
      ("ps_supplycost", .Numeric 12 2), ("ps_comment", .Varchar 199)]),
  ("customer",
    [("c_custkey", .Integer), ("c_name", .Char 25), ("c_address", .Varchar 40),
      ("c_nationkey", .Integer), ("c_phone", .Char 15), ("c_acctbal", .Numeric 12 2),
      ("c_mktsegment", .Char 10), ("c_comment", .Varchar 117)]),
  ("orders",
    [("o_orderkey", .Integer), ("o_custkey", .Integer), ("o_orderstatus", .Char 1),
      ("o_totalprice", .Numeric 12 2), ("o_orderdate", .Date), ("o_orderpriority", .Char 15),
      ("o_clerk", .Char 15), ("o_shippriority", .Integer), ("o_comment", .Varchar 79)]),
  ("lineitem",
    [("l_orderkey", .Integer), ("l_partkey", .Integer), ("l_suppkey", .Integer),
      ("l_linenumber", .Integer), ("l_quantity", .Numeric 12 2), ("l_extendedprice", .Numeric 12 2),
      ("l_discount", .Numeric 12 2), ("l_tax", .Numeric 12 2), ("l_returnflag", .Char 1),
      ("l_linestatus", .Char 1), ("l_shipdate", .Date), ("l_commitdate", .Date),
      ("l_receiptdate", .Date), ("l_shipinstruct", .Char 25), ("l_shipmode", .Char 10),
      ("l_comment", .Varchar 44)]),
  ("nation",
    [("n_nationkey", .Integer), ("n_name", .Char 25), ("n_regionkey", .Integer),
      ("n_comment", .Varchar 152)]),
  ("region",
    [("r_regionkey", .Integer), ("r_name", .Char 25), ("r_comment", .Varchar 152)])]

section database

variable (unset : Nat → Byte)

/-- `importTPCH` over the relations: the first import that fails ends it. -/
def importTPCH : List Table → Files → Except String Database × Files
  | [], files => (.ok [], files)
  | (fileName, cols) :: schema, files =>
    match import_table unset cols fileName files with
    | (.error e, files) => (.error e, files)
    | (.ok (r, _), files) =>
      match importTPCH schema files with
      | (.error e, files) => (.error e, files)
      | (.ok tpch, files) => (.ok ((fileName, r) :: tpch), files)

/-- What happens to the directory: the program starts and imports the database, or the text of a table
is changed or removed. -/
inductive Event
  | start
  | edit (fileName : String) (text : Option (List Char))

/-- What the starts of a run find, one after the other. -/
def outcomes (schema : List Table) : List Event → Files → List (Except String Database)
  | [], _ => []
  | .start :: events, files =>
    let (out, files) := importTPCH unset schema files
    out :: outcomes schema events files
  | .edit fileName text :: events, files =>
    outcomes schema events
      { files with tables := fun t => if t = fileName then text else files.tables t }

end database

/-! ## Relations whose files are apart -/

/-- The files of a relation. -/
def paths (t : Table) : List String := t.2.map fun col => path_of t.1 col.1

/-- Every relation has columns with names of their own, and no two of them share a file or a name. -/
structure Distinct (schema : List Table) : Prop where
  columns : ∀ t ∈ schema, t.2 ≠ [] ∧ (t.2.map (·.1)).Nodup
  names : (schema.map (·.1)).Nodup
  paths : schema.Pairwise fun t t' => ∀ path ∈ paths t, path ∉ paths t'

theorem tpch_schema_distinct : Distinct tpch_schema where
  columns := by decide
  names := by decide
  paths := by decide +kernel

section keeping

variable {unset : Nat → Byte} {schema : List Table} {t : Table} {files files' : Files}
  {state state' : String → Option (List (List Value))}

/-- The files of a relation have no elements, or they are those of the rows that were loaded. -/
def KeptBy (unset : Nat → Byte) (t : Table) (files : Files) : Option (List (List Value)) → Prop
  | none => Untouched t.1 t.2 files
  | some rows => Loaded unset t.2 t.1 rows files

/-- What a change of other files leaves as it was. -/
theorem kept_by_of_frame {rows : Option (List (List Value))} (h : KeptBy unset t files rows)
    (hcached : files.cached = true → files'.cached = true)
    (hcolumns : ∀ path ∈ paths t, files'.columns path = files.columns path) :
    KeptBy unset t files' rows := by
  have hpath : ∀ col ∈ t.2, files'.columns (path_of t.1 col.1) = files.columns (path_of t.1 col.1) :=
    fun col hcol => hcolumns _ (List.mem_map_of_mem hcol)
  cases rows with
  | none =>
    intro col hcol file hfile
    rw [hpath col hcol] at hfile
    exact h col hcol file hfile
  | some rows =>
    refine ⟨hcached h.cached, h.not_empty, h.typed, fun k col hk => ?_⟩
    rw [hpath col (List.mem_of_getElem? hk)]
    exact h.hold k col hk

def Kept (unset : Nat → Byte) (schema : List Table) (files : Files)
    (state : String → Option (List (List Value))) : Prop :=
  ∀ t ∈ schema, KeptBy unset t files (state t.1)

/-- The relations of loaded rows. -/
def database (unset : Nat → Byte) (schema : List Table) (rows : String → List (List Value)) :
    Database :=
  schema.map fun t => (t.1, (loaded unset t.2 t.1 (rows t.1)).1)

/-- What an import of the relations leaves: no other file is changed, what was loaded stays, and what
is loaded now are the rows of a table. -/
structure Imports (unset : Nat → Byte) (schema : List Table) (files files' : Files)
    (state state' : String → Option (List (List Value))) : Prop where
  tables : files'.tables = files.tables
  cached : files.cached = true → files'.cached = true
  columns : ∀ path, (∀ t ∈ schema, path ∉ paths t) → files'.columns path = files.columns path
  kept : Kept unset schema files' state'
  stays : ∀ name, state name ≠ none → state' name = state name
  others : ∀ name, name ∉ schema.map (·.1) → state' name = state name
  rows : ∀ t ∈ schema, ∀ rows, state' t.1 = some rows → state t.1 = some rows ∨
    ∃ text, files.tables t.1 = some text ∧ parse_table (t.2.map (·.2)) text = .ok rows

theorem distinct_cons (h : Distinct (t :: schema)) :
    (t.2 ≠ [] ∧ (t.2.map (·.1)).Nodup) ∧ t.1 ∉ schema.map (·.1) ∧
      (∀ t' ∈ schema, ∀ path ∈ paths t, path ∉ paths t') ∧ Distinct schema := by
  obtain ⟨hcolumns, hnames, hpaths⟩ := h
  obtain ⟨hfirst, hrest⟩ := List.forall_mem_cons.mp hcolumns
  rw [List.map_cons, List.nodup_cons] at hnames
  rw [List.pairwise_cons] at hpaths
  exact ⟨hfirst, hnames.1, hpaths.1, ⟨hrest, hnames.2, hpaths.2⟩⟩

/-- The files of the first relation, and those of the others. -/
theorem kept_cons (hfirst : KeptBy unset t files (state t.1)) (hrest : Kept unset schema files state) :
    Kept unset (t :: schema) files state :=
  List.forall_mem_cons.mpr ⟨hfirst, hrest⟩

/-- What the import of one relation leaves. -/
theorem import_table_keeps (hcols : t.2 ≠ []) (hnames : (t.2.map (·.1)).Nodup)
    {rows : Option (List (List Value))} (hkept : KeptBy unset t files rows) :
    ∃ out files' rows', import_table unset t.2 t.1 files = (out, files') ∧
      Apart t.1 t.2 files files' ∧ KeptBy unset t files' rows' ∧ (rows ≠ none → rows' = rows) ∧
      (∀ new, rows' = some new → rows = some new ∨
        ∃ text, files.tables t.1 = some text ∧ parse_table (t.2.map (·.2)) text = .ok new) ∧
      (rows = none ∧ (∃ e, out = .error e) ∨
        ∃ new, rows' = some new ∧ out = .ok (loaded unset t.2 t.1 new)) := by
  cases rows with
  | some rows =>
    exact ⟨_, files, some rows, import_of_loaded hcols hnames hkept, apart_refl files, hkept,
      fun _ => rfl, fun _ h => .inl h, .inr ⟨rows, rfl, rfl⟩⟩
  | none =>
    obtain ⟨out, files', himport, hapart, hcases⟩ := import_of_untouched unset hcols hnames hkept
    rcases hcases with ⟨herror, huntouched⟩ | ⟨text, new, htext, hparse, hloaded, rfl⟩
    · exact ⟨out, files', none, himport, hapart, huntouched, fun _ => rfl, fun _ h => .inl h,
        .inl ⟨rfl, herror⟩⟩
    · refine ⟨_, files', some new, himport, hapart, hloaded, fun h => absurd rfl h, ?_,
        .inr ⟨new, rfl, rfl⟩⟩
      intro new' hnew
      obtain rfl := Option.some.inj hnew
      exact .inr ⟨text, htext, hparse⟩

/-- The first import changes the state of its relation only. -/
theorem imports_first {rows' : Option (List (List Value))} (hname : t.1 ∉ schema.map (·.1))
    (hpaths : ∀ t' ∈ schema, ∀ path ∈ paths t, path ∉ paths t')
    (hrest : Kept unset schema files state) (hapart : Apart t.1 t.2 files files')
    (hkept : KeptBy unset t files' rows') (hstays : state t.1 ≠ none → rows' = state t.1)
    (hrows : ∀ new, rows' = some new → state t.1 = some new ∨
      ∃ text, files.tables t.1 = some text ∧ parse_table (t.2.map (·.2)) text = .ok new) :
    Imports unset (t :: schema) files files' state (Function.update state t.1 rows') := by
  have hother : ∀ t' ∈ schema, t'.1 ≠ t.1 := fun t' ht' h => hname (h ▸ List.mem_map_of_mem ht')
  have hupdate : ∀ t' ∈ schema, Function.update state t.1 rows' t'.1 = state t'.1 := fun t' ht' =>
    Function.update_of_ne (hother t' ht') _ _
  refine ⟨hapart.tables, hapart.cached, ?_, ?_, ?_, ?_, ?_⟩
  · exact fun path hpath => hapart.columns path (hpath t (List.mem_cons_self ..))
  · refine kept_cons ?_ fun t' ht' => ?_
    · rwa [Function.update_self]
    · rw [hupdate t' ht']
      refine kept_by_of_frame (hrest t' ht') hapart.cached fun path hpath => ?_
      exact hapart.columns path fun hmem => hpaths t' ht' path hmem hpath
  · intro name hne
    by_cases h : name = t.1
    · subst h
      rw [Function.update_self, hstays hne]
    · rw [Function.update_of_ne h]
  · intro name hnot
    rw [List.map_cons, List.mem_cons, not_or] at hnot
    rw [Function.update_of_ne hnot.1]
  · intro t' ht' new hnew
    rcases List.mem_cons.mp ht' with rfl | ht'
    · rw [Function.update_self] at hnew
      exact hrows new hnew
    · rw [hupdate t' ht'] at hnew
      exact .inl hnew

/-- Importing the first relation and then the others. -/
theorem imports_trans {files₁ : Files} {state₁ : String → Option (List (List Value))}
    (hname : t.1 ∉ schema.map (·.1)) (hpaths : ∀ t' ∈ schema, ∀ path ∈ paths t, path ∉ paths t')
    (hfirst : Imports unset (t :: schema) files files₁ state state₁)
    (hsame : ∀ t' ∈ schema, state₁ t'.1 = state t'.1)
    (hthen : Imports unset schema files₁ files' state₁ state') :
    Imports unset (t :: schema) files files' state state' := by
  have hstate : state' t.1 = state₁ t.1 := hthen.others t.1 hname
  refine ⟨hthen.tables.trans hfirst.tables, fun h => hthen.cached (hfirst.cached h), ?_, ?_, ?_, ?_, ?_⟩
  · intro path hpath
    rw [hthen.columns path fun t' ht' => hpath t' (List.mem_cons_of_mem _ ht'), hfirst.columns path hpath]
  · refine kept_cons ?_ hthen.kept
    rw [hstate]
    refine kept_by_of_frame (hfirst.kept t (List.mem_cons_self ..)) hthen.cached fun path hpath => ?_
    exact hthen.columns path fun t' ht' => hpaths t' ht' path hpath
  · intro name hne
    have hkeep := hfirst.stays name hne
    rw [hthen.stays name (by rwa [hkeep]), hkeep]
  · intro name hnot
    have hrest : name ∉ schema.map (·.1) := fun h => hnot (List.mem_cons_of_mem _ h)
    rw [hthen.others name hrest, hfirst.others name hnot]
  · intro t' ht' new hnew
    rcases List.mem_cons.mp ht' with rfl | hmem
    · rw [hstate] at hnew
      exact hfirst.rows _ ht' new hnew
    · have hread := hthen.rows t' hmem new hnew
      rwa [hsame t' hmem, hfirst.tables] at hread

/-- The import of the relations, one after the other. -/
theorem importTPCH_keeps (hdistinct : Distinct schema) (hkept : Kept unset schema files state) :
    ∃ out files' state', importTPCH unset schema files = (out, files') ∧
      Imports unset schema files files' state state' ∧
      ((∃ t ∈ schema, state t.1 = none) ∧ (∃ e, out = .error e) ∨
        ∃ rows : String → List (List Value),
          (∀ t ∈ schema, state' t.1 = some (rows t.1)) ∧ out = .ok (database unset schema rows)) := by
  induction schema generalizing files state with
  | nil =>
    refine ⟨_, files, state, rfl, ⟨rfl, id, fun _ _ => rfl, hkept, fun _ _ => rfl, fun _ _ => rfl, ?_⟩,
      .inr ⟨fun _ => [], ?_, rfl⟩⟩
    · exact fun t ht => absurd ht List.not_mem_nil
    · exact fun t ht => absurd ht List.not_mem_nil
  | cons t schema ih =>
    obtain ⟨⟨hcols, hnames⟩, hname, hpaths, hdistinct⟩ := distinct_cons hdistinct
    obtain ⟨hfirst, hrest⟩ := List.forall_mem_cons.mp hkept
    obtain ⟨out, files₁, rows₁, himport, hapart, hkept₁, hstays, hrows, hcases⟩ :=
      import_table_keeps hcols hnames hfirst
    have hone := imports_first hname hpaths hrest hapart hkept₁ hstays hrows
    have hne : ∀ t' ∈ schema, t'.1 ≠ t.1 := fun t' ht' h => hname (h ▸ List.mem_map_of_mem ht')
    have hsame : ∀ t' ∈ schema, Function.update state t.1 rows₁ t'.1 = state t'.1 := fun t' ht' =>
      Function.update_of_ne (hne t' ht') _ _
    unfold importTPCH
    rw [himport]
    rcases hcases with ⟨hnone, e, rfl⟩ | ⟨new, rfl, rfl⟩
    · exact ⟨_, files₁, _, rfl, hone, .inl ⟨⟨t, List.mem_cons_self .., hnone⟩, e, rfl⟩⟩
    · have hrest₁ : Kept unset schema files₁ (Function.update state t.1 (some new)) := fun t' ht' =>
        hone.kept t' (List.mem_cons_of_mem _ ht')
      obtain ⟨out, files', state', himports, hthen, hresult⟩ := ih hdistinct hrest₁
      have hall := imports_trans hname hpaths hone hsame hthen
      rcases hresult with ⟨⟨t', ht', hnone⟩, e, rfl⟩ | ⟨rows, hrows', rfl⟩
      · rw [hsame t' ht'] at hnone
        refine ⟨_, files', state', ?_, hall, .inl ⟨⟨t', List.mem_cons_of_mem _ ht', hnone⟩, e, rfl⟩⟩
        simp only [himports]
      · have hnew : state' t.1 = some new := by
          rw [hthen.others t.1 hname, Function.update_self]
        have hdatabase : database unset (t :: schema) (Function.update rows t.1 new) =
            (t.1, (loaded unset t.2 t.1 new).1) :: database unset schema rows := by
          unfold database
          rw [List.map_cons, Function.update_self]
          congr 1
          exact List.map_congr_left fun t' ht' => by rw [Function.update_of_ne (hne t' ht')]
        refine ⟨_, files', state', ?_, hall, .inr ⟨Function.update rows t.1 new, ?_, rfl⟩⟩
        · simp only [himports, hdatabase]
        · refine List.forall_mem_cons.mpr ⟨by rw [hnew, Function.update_self], fun t' ht' => ?_⟩
          rw [hrows' t' ht', Function.update_of_ne (hne t' ht')]

end keeping

/-! ## Runs -/

section runs

variable {unset : Nat → Byte} {schema : List Table} {files : Files}
  {state : String → Option (List (List Value))}

/-- The text is one that the table has in the run. -/
def Appears (fileName : String) (events : List Event) (files : Files) (text : List Char) : Prop :=
  files.tables fileName = some text ∨ Event.edit fileName (some text) ∈ events

theorem appears_of_edit {name fileName : String} {edited : Option (List Char)} {events : List Event}
    {text : List Char}
    (h : Appears fileName events
      { files with tables := fun t => if t = name then edited else files.tables t } text) :
    Appears fileName (.edit name edited :: events) files text := by
  rcases h with htext | hedit
  · dsimp only at htext
    split at htext
    · rename_i hname
      rw [htext, hname]
      exact .inr (List.mem_cons_self ..)
    · exact .inl htext
  · exact .inr (List.mem_cons_of_mem _ hedit)

/-- Once all relations are loaded, every start finds them. -/
theorem outcomes_of_complete (hdistinct : Distinct schema) {rows : String → List (List Value)}
    (events : List Event) (hkept : Kept unset schema files state)
    (hcomplete : ∀ t ∈ schema, state t.1 = some (rows t.1)) :
    ∀ out ∈ outcomes unset schema events files, out = .ok (database unset schema rows) := by
  induction events generalizing files state with
  | nil => simp [outcomes]
  | cons event events ih =>
    cases event with
    | edit name text =>
      have hedited : Kept unset schema
          { files with tables := fun t => if t = name then text else files.tables t } state :=
        fun t ht => kept_by_of_frame (hkept t ht) id fun _ _ => rfl
      exact ih hedited hcomplete
    | start =>
      obtain ⟨out, files', state', himport, himports, hresult⟩ := importTPCH_keeps hdistinct hkept
      have hstate : ∀ t ∈ schema, state' t.1 = some (rows t.1) := fun t ht => by
        rw [himports.stays t.1 (by rw [hcomplete t ht]; simp), hcomplete t ht]
      unfold outcomes
      rw [himport]
      refine List.forall_mem_cons.mpr ⟨?_, ih himports.kept hstate⟩
      rcases hresult with ⟨⟨t, ht, hnone⟩, -⟩ | ⟨rows', hrows', rfl⟩
      · exact absurd ((hcomplete t ht).symm.trans hnone) (by simp)
      · have hsame : database unset schema rows' = database unset schema rows := by
          unfold database
          refine List.map_congr_left fun t ht => ?_
          rw [Option.some.inj ((hrows' t ht).symm.trans (hstate t ht))]
        exact congrArg Except.ok hsame

/-- Where the rows of a relation come from: they were loaded, or they are those of a text. -/
def From (state : String → Option (List (List Value))) (events : List Event) (files : Files)
    (t : Table) (rows : List (List Value)) : Prop :=
  state t.1 = some rows ∨
    ∃ text, Appears t.1 events files text ∧ parse_table (t.2.map (·.2)) text = .ok rows

/-- The starts of a run fail until one loads all relations. -/
theorem outcomes_of_kept (hdistinct : Distinct schema) (events : List Event)
    (hkept : Kept unset schema files state) :
    ∃ failed rest, outcomes unset schema events files = failed ++ rest ∧
      (∀ out ∈ failed, ∃ e, out = .error e) ∧
      (rest = [] ∨ ∃ rows : String → List (List Value),
        (∀ t ∈ schema, From state events files t (rows t.1) ∧ Typed (rows t.1) t.2 0) ∧
        ∀ out ∈ rest, out = .ok (database unset schema rows)) := by
  induction events generalizing files state with
  | nil => exact ⟨[], [], rfl, by simp, .inl rfl⟩
  | cons event events ih =>
    cases event with
    | edit name text =>
      have hedited : Kept unset schema
          { files with tables := fun t => if t = name then text else files.tables t } state :=
        fun t ht => kept_by_of_frame (hkept t ht) id fun _ _ => rfl
      obtain ⟨failed, rest, hout, hfailed, hrest⟩ := ih hedited
      refine ⟨failed, rest, hout, hfailed, hrest.imp id ?_⟩
      rintro ⟨rows, hfrom, hall⟩
      refine ⟨rows, fun t ht => ⟨(hfrom t ht).1.imp id ?_, (hfrom t ht).2⟩, hall⟩
      rintro ⟨text', happears, hparse⟩
      exact ⟨text', appears_of_edit happears, hparse⟩
    | start =>
      obtain ⟨out, files', state', himport, himports, hresult⟩ := importTPCH_keeps hdistinct hkept
      -- What the start itself loaded is in a text that the table has now.
      have hnow : ∀ t ∈ schema, ∀ rows, state' t.1 = some rows →
          From state (.start :: events) files t rows := fun t ht rows hrows =>
        (himports.rows t ht rows hrows).imp id fun ⟨text, htext, hparse⟩ => ⟨text, .inl htext, hparse⟩
      unfold outcomes
      rw [himport]
      rcases hresult with ⟨-, e, rfl⟩ | ⟨rows, hrows, rfl⟩
      · obtain ⟨failed, rest, hout, hfailed, hrest⟩ := ih himports.kept
        refine ⟨.error e :: failed, rest, congrArg _ hout,
          List.forall_mem_cons.mpr ⟨⟨e, rfl⟩, hfailed⟩, hrest.imp id ?_⟩
        rintro ⟨rows, hfrom, hall⟩
        refine ⟨rows, fun t ht => ⟨?_, (hfrom t ht).2⟩, hall⟩
        rcases (hfrom t ht).1 with hloaded | ⟨text, happears, hparse⟩
        · exact hnow t ht _ hloaded
        · refine .inr ⟨text, ?_, hparse⟩
          unfold Appears at happears ⊢
          rw [himports.tables] at happears
          exact happears.imp id (List.mem_cons_of_mem _)
      · have hcomplete := outcomes_of_complete hdistinct events himports.kept hrows
        refine ⟨[], _, rfl, by simp, .inr ⟨rows, fun t ht => ⟨hnow t ht _ (hrows t ht), ?_⟩,
          List.forall_mem_cons.mpr ⟨rfl, hcomplete⟩⟩⟩
        have hloaded := himports.kept t ht
        rw [hrows t ht] at hloaded
        exact hloaded.typed

/-- In a directory without `cached`, the first start fails. -/
theorem first_outcome (unset : Nat → Byte) (hschema : schema ≠ []) (events : List Event)
    (hcached : files.cached = false) :
    ∀ out ∈ (outcomes unset schema events files).head?, ∃ e, out = .error e := by
  induction events generalizing files with
  | nil => simp [outcomes]
  | cons event events ih =>
    cases event with
    | edit name text => exact ih hcached
    | start =>
      obtain ⟨⟨fileName, cols⟩, schema, rfl⟩ := List.exists_cons_of_ne_nil hschema
      have himport : import_table unset cols fileName files =
          (.error "Could not create dir 'cached': ", { files with cached := true }) := by
        unfold import_table parseColumns
        exact if_pos hcached
      unfold outcomes importTPCH
      rw [himport]
      intro out hout
      exact ⟨_, (Option.some.inj hout).symm⟩

end runs

section results

variable {schema : List Table} {files : Files}

/-- A relation is found under its name. -/
theorem lookup_database (unset : Nat → Byte) (rows : String → List (List Value)) {t : Table}
    (hnames : (schema.map (·.1)).Nodup) (ht : t ∈ schema) :
    (database unset schema rows).lookup t.1 = some (loaded unset t.2 t.1 (rows t.1)).1 := by
  induction schema with
  | nil => exact absurd ht List.not_mem_nil
  | cons t' schema ih =>
    rw [List.map_cons, List.nodup_cons] at hnames
    unfold database
    rw [List.map_cons]
    rcases List.mem_cons.mp ht with rfl | hmem
    · exact List.lookup_cons_self
    · have hne : t.1 ≠ t'.1 := fun h => hnames.1 (h ▸ List.mem_map_of_mem hmem)
      rw [List.lookup_cons, beq_false_of_ne hne]
      exact ih hnames.2 hmem

theorem kept_of_new (unset : Nat → Byte) (schema : List Table)
    (hnew : ∀ path, files.columns path = none) : Kept unset schema files fun _ => none :=
  fun _ _ _ _ _ hfile => absurd ((hnew _).symm.trans hfile) (by simp)

/-- In every run over a directory without column files, the starts fail until one gets through, the
first one if there is no directory `cached`; from then on all of them find the same relations, the
rows that were parsed from texts of the tables, whatever becomes of the tables. -/
theorem the_first_import_decides (unset : Nat → Byte) (hdistinct : Distinct schema)
    (hschema : schema ≠ []) (events : List Event) (hnew : ∀ path, files.columns path = none) :
    ∃ failed rest, outcomes unset schema events files = failed ++ rest ∧
      (∀ out ∈ failed, ∃ e, out = .error e) ∧
      (files.cached = false → rest ≠ [] → failed ≠ []) ∧
      (rest = [] ∨ ∃ rows : String → List (List Value),
        (∀ t ∈ schema, ∃ text, Appears t.1 events files text ∧
          parse_table (t.2.map (·.2)) text = .ok (rows t.1)) ∧
        ∀ out ∈ rest, out = .ok (database unset schema rows)) := by
  obtain ⟨failed, rest, hout, hfailed, hrest⟩ :=
    outcomes_of_kept hdistinct events (kept_of_new unset schema hnew)
  refine ⟨failed, rest, hout, hfailed, ?_, hrest.imp id ?_⟩
  · rintro hcached hne rfl
    rcases hrest with rfl | ⟨rows, -, hall⟩
    · exact hne rfl
    · obtain ⟨out, rest, rfl⟩ := List.exists_cons_of_ne_nil hne
      have hfirst := first_outcome unset hschema events hcached
      rw [hout] at hfirst
      obtain ⟨e, he⟩ := hfirst out rfl
      have hok := hall out (List.mem_cons_self ..)
      rw [he] at hok
      exact absurd hok (by simp)
  · rintro ⟨rows, hfrom, hall⟩
    refine ⟨rows, fun t ht => ?_, hall⟩
    rcases (hfrom t ht).1 with h | h
    · exact absurd h (by simp)
    · exact h

/-- The relations that a start finds are rows of texts that the tables had. -/
theorem database_of_start (unset : Nat → Byte) (hdistinct : Distinct schema) (events : List Event)
    (hnew : ∀ path, files.columns path = none) {tpch : Database}
    (hout : .ok tpch ∈ outcomes unset schema events files) :
    ∃ rows : String → List (List Value), tpch = database unset schema rows ∧
      ∀ t ∈ schema, Typed (rows t.1) t.2 0 ∧ ∃ text, Appears t.1 events files text ∧
        parse_table (t.2.map (·.2)) text = .ok (rows t.1) := by
  obtain ⟨failed, rest, hall, hfailed, hrest⟩ :=
    outcomes_of_kept hdistinct events (kept_of_new unset schema hnew)
  rw [hall, List.mem_append] at hout
  have hmem : .ok tpch ∈ rest := by
    rcases hout with h | h
    · obtain ⟨e, he⟩ := hfailed _ h
      exact absurd he (by simp)
    · exact h
  rcases hrest with rfl | ⟨rows, hfrom, hrows⟩
  · exact absurd hmem List.not_mem_nil
  · exact ⟨rows, Except.ok.inj (hrows _ hmem), fun t ht =>
      ⟨(hfrom t ht).2, ((hfrom t ht).1).resolve_left (by simp)⟩⟩

/-- What a query reads from an Integer or a Date column after a start that got through, in any run, are
the rows of a text that the table had. -/
theorem the_queries_read_the_tables (unset : Nat → Byte) (hdistinct : Distinct schema)
    (events : List Event) (hnew : ∀ path, files.columns path = none) {tpch : Database}
    (hout : .ok tpch ∈ outcomes unset schema events files) :
    ∀ t ∈ schema, ∃ text rows, Appears t.1 events files text ∧
      parse_table (t.2.map (·.2)) text = .ok rows ∧
      ∀ i name type, t.2[i]? = some (name, type) → type = .Integer ∨ type = .Date →
        ∃ c : Column, column rows i = c.elements ∧ ReturnsColumn tpch t.1 name c := by
  obtain ⟨rows, rfl, hfrom⟩ := database_of_start unset hdistinct events hnew hout
  intro t ht
  obtain ⟨htyped, text, happears, hparse⟩ := hfrom t ht
  have hrelation := lookup_database unset rows hdistinct.names ht
  refine ⟨text, rows t.1, happears, hparse, fun i name type hcol htype => ?_⟩
  obtain ⟨c, helements, hfits, hints⟩ := scanned_column hcol htyped htype
  have himported := imported_of_loaded hrelation (hdistinct.columns t ht).2 hcol htyped helements
  exact ⟨c, helements, (returns_column_iff_ints himported).mpr ((ints_iff hfits).mpr hints)⟩

end results

/-- A directory with one nation and no other table. -/
def one_nation : Files where
  cached := false
  tables := fun t => if t = "nation" then some ['7', '|', 'N', '|', '\n'] else none
  columns := fun _ => none

theorem tpch_is_decided_once :
    ∃ failed rest, outcomes (fun _ => 0) tpch_schema [.start, .start] one_nation = failed ++ rest ∧
      (∀ out ∈ failed, ∃ e, out = .error e) ∧
      (one_nation.cached = false → rest ≠ [] → failed ≠ []) ∧
      (rest = [] ∨ ∃ rows : String → List (List Value),
        (∀ t ∈ tpch_schema, ∃ text, Appears t.1 [.start, .start] one_nation text ∧
          parse_table (t.2.map (·.2)) text = .ok (rows t.1)) ∧
        ∀ out ∈ rest, out = .ok (database (fun _ => 0) tpch_schema rows)) :=
  the_first_import_decides (fun _ => 0) tpch_schema_distinct (by simp [tpch_schema]) [.start, .start]
    (fun _ => rfl)

/-- A database of nations. -/
def nations : List Table := [("nation", [("n_nationkey", .Integer), ("n_flag", .Char 1)])]

theorem nations_distinct : Distinct nations where
  columns := by decide
  names := by decide
  paths := by decide

theorem one_nation_outcomes :
    outcomes (fun _ => 0) nations [.start, .start] one_nation =
      [.error "Could not create dir 'cached': ",
        .ok (database (fun _ => 0) nations fun _ => [[.Integer 7, .Char_1 'N']])] := by
  rfl

theorem the_nation_is_read :
    ∃ text rows, Appears "nation" [.start, .start] one_nation text ∧
      parse_table [.Integer, .Char 1] text = .ok rows ∧
      ∀ i name type, [("n_nationkey", .Integer), ("n_flag", .Char 1)][i]? = some (name, type) →
        type = AlgebraType.Integer ∨ type = .Date →
        ∃ c : Column, column rows i = c.elements ∧ ReturnsColumn
          (database (fun _ => 0) nations fun _ => [[.Integer 7, .Char_1 'N']]) "nation" name c :=
  the_queries_read_the_tables (fun _ => 0) nations_distinct [.start, .start] (fun _ => rfl)
    (by rw [one_nation_outcomes]; exact List.mem_cons_of_mem _ (List.mem_cons_self ..))
    ("nation", [("n_nationkey", .Integer), ("n_flag", .Char 1)]) (List.mem_cons_self ..)

end hero.benchmark
