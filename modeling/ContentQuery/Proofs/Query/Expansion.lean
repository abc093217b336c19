import ContentQuery.Proofs.Query.FulltextEntries
import ContentQuery.Proofs.Query.ListLiterals

/-!
# What a SELECT list stands for

A SELECT list stands for the fields of its pieces, one piece after the other: a wildcard for the
columns of its table, any other piece for one field.  The records of base fields that come with it
tell which table aliases the pieces are about, and which of them have an entry that goes by the name
of a base field.  It is the name that counts and not the column: an alias gives the name to any
field, and takes it from any other.
-/

namespace ContentQuery

namespace Query

/-! ## Result names on record -/

/-- An entry of the table alias goes by the name. -/
def HasResultName (q : Query) (a name : String) : Prop :=
  ∃ f ∈ q.select, f.tableAlias = a ∧ f.resultName = name

/-- The records of base fields tell exactly which of them are result names. -/
structure NamesNoted (q : Query) : Prop where
  uid : ∀ a, (q.baseFieldsOf a).uid = true ↔ q.HasResultName a "uid"
  pid : ∀ a, (q.baseFieldsOf a).pid = true ↔ q.HasResultName a "pid"

variable {q : Query}

theorem baseFieldsOf_touchBaseFields (q : Query) (a b : String) :
    (q.touchBaseFields a).baseFieldsOf b = q.baseFieldsOf b := by
  by_cases hb : b = a
  · subst hb
    simp [baseFieldsOf, touchBaseFields, OrderedMap.insertNew, OrderedMap.get?_upsert]
  · simp [baseFieldsOf, touchBaseFields, OrderedMap.insertNew, OrderedMap.get?_upsert, hb]

theorem baseFieldsOf_addField (q : Query) (f : SelectField) (b : String) :
    (SelectList.addField q f).baseFieldsOf b =
      if b = f.tableAlias then (q.baseFieldsOf b).note f.resultName else q.baseFieldsOf b := by
  by_cases hb : b = f.tableAlias
  · subst hb
    simp [baseFieldsOf, baseFields_addField, noteResultName, OrderedMap.get?_upsert]
  · simp [baseFieldsOf, baseFields_addField, noteResultName, OrderedMap.get?_upsert, hb]

theorem hasResultName_addField {f : SelectField} {a name : String} :
    (SelectList.addField q f).HasResultName a name ↔
      q.HasResultName a name ∨ a = f.tableAlias ∧ f.resultName = name := by
  simp only [HasResultName, select_addField, List.mem_append, List.mem_singleton]
  constructor
  · rintro ⟨g, hg | rfl, rfl, hname⟩
    · exact .inl ⟨g, hg, rfl, hname⟩
    · exact .inr ⟨rfl, hname⟩
  · rintro (⟨g, hg, hplace⟩ | ⟨rfl, hname⟩)
    · exact ⟨g, .inl hg, hplace⟩
    · exact ⟨f, .inr rfl, rfl, hname⟩

theorem NamesNoted.addField (hq : q.NamesNoted) (f : SelectField) :
    (SelectList.addField q f).NamesNoted := by
  -- The record of the entry's own table takes in its name, and the others stay.
  constructor <;> intro a
  case uid =>
    by_cases ha : a = f.tableAlias
    · simp [baseFieldsOf_addField, hasResultName_addField, ha, BaseFields.note, hq.uid]
    · simp [baseFieldsOf_addField, hasResultName_addField, ha, hq.uid]
  case pid =>
    by_cases ha : a = f.tableAlias
    · simp [baseFieldsOf_addField, hasResultName_addField, ha, BaseFields.note, hq.pid]
    · simp [baseFieldsOf_addField, hasResultName_addField, ha, hq.pid]

theorem NamesNoted.enter (hq : q.NamesNoted) (s : Selection) : (q.enter s).NamesNoted := by
  have hstart : ∀ q : Query, q.NamesNoted → (q.touchBaseFields s.tableAlias).NamesNoted := by
    intro q hq
    constructor <;> intro a
    case uid =>
      rw [baseFieldsOf_touchBaseFields]
      exact hq.uid a
    case pid =>
      rw [baseFieldsOf_touchBaseFields]
      exact hq.pid a
  -- A placeholder is no entry, so the records are the same with it and without it.
  have hsame : ∀ placeholders, ({ q with placeholders } : Query).NamesNoted :=
    fun _ => ⟨hq.uid, hq.pid⟩
  rw [Query.enter_eq]
  exact List.foldlRecOn (motive := NamesNoted) s.fields _ (hstart _ (hsame _))
    fun _ hq f _ => hq.addField f

theorem namesNoted_of_empty (hselect : q.select = []) (hbase : q.baseFields = ∅) :
    q.NamesNoted := by
  constructor <;> intro a <;> simp [baseFieldsOf, HasResultName, hselect, hbase] <;> rfl

end Query

namespace SelectList

variable {schema : Schema} {q q' : Query} {calls : Nat} {spec : FieldSpec} {text : List Char}

/-! ## What a piece is about -/

/-- The table alias that a piece is about: the one that it names, or else the main one. -/
def aliasOf (q : Query) (spec : FieldSpec) : String :=
  if spec.isWildcard then wildcardAlias q spec.expression
  else if spec.isCall then q.mainAlias
  else q.tableAliasOf spec

/-- A fulltext entry changes its field and nothing else. -/
theorem fields_selectionOf (f : SelectField) :
    (selectionOf f).tableAlias = f.tableAlias ∧
      (selectionOf f).fields =
        [{ f with field := ((if f.isCall then none else fulltextIndex? f.field).map
            ("fulltext." ++ ·)).getD f.field }] := by
  unfold selectionOf
  cases (if f.isCall then none else fulltextIndex? f.field) <;> exact ⟨rfl, rfl⟩

theorem tableAlias_fieldOf (hplain : spec.isWildcard = false) :
    (fieldOf q calls spec).tableAlias = aliasOf q spec := by
  cases hcall : spec.isCall with
  | true => simp [fieldOf, aliasOf, hplain, hcall]
  | false =>
      rcases Query.fieldOf_column hcall q calls with ⟨table, hfield⟩
      simp [hfield, aliasOf, hplain, hcall]

/-- All fields of a piece are under the alias that it is about. -/
theorem alias_selection (schema : Schema) (q : Query) (calls : Nat) (spec : FieldSpec) :
    (selection schema q calls spec).tableAlias = aliasOf q spec ∧
      ∀ f ∈ (selection schema q calls spec).fields, f.tableAlias = aliasOf q spec := by
  cases hwildcard : spec.isWildcard with
  | true => simp [selection, aliasOf, hwildcard, columnsUnder]
  | false =>
      have halias : (fieldOf q calls spec).tableAlias = aliasOf q spec :=
        tableAlias_fieldOf hwildcard
      rcases fields_selectionOf (fieldOf q calls spec) with ⟨hplace, hfields⟩
      simp [selection, hwildcard, hfields, hplace, halias]

/-! ## Wildcards -/

theorem append_of_stripTrailing? {tail s r : String} (h : Text.stripTrailing? tail s = some r) :
    s = r ++ tail := by
  rcases Option.map_eq_some_iff.1 h with ⟨front, hfront, rfl⟩
  apply String.toList_inj.1
  simpa using Chars.append_of_stripTrailing? hfront

/-- A wildcard is a star by itself or behind a table alias, and no call. -/
theorem wildcard_of_split {specs : List FieldSpec} (h : split text = .ok specs)
    (hspec : spec ∈ specs) (hwildcard : spec.isWildcard = true) :
    spec.isCall = false ∧ (spec.expression = "*" ∨ ∃ a, spec.expression = a ++ ".*") := by
  -- Every piece is cut out of the text by its places.
  have hcut : ∃ (p : Piece) (stop : Nat), spec = p.spec text stop := by
    unfold split at h
    simp only at h
    split at h
    · cases h
    · split at h
      · cases h
      · split at h
        · cases h
        · cases h
          have hmem := (List.mem_filter.1 hspec).1
          rw [fst_specsFrom] at hmem
          rcases List.mem_map.1 hmem with ⟨piece, _, rfl⟩
          exact ⟨piece.1, piece.2, rfl⟩
  rcases hcut with ⟨p, stop, rfl⟩
  simp only [Piece.spec, Bool.and_eq_true, Bool.or_eq_true, Bool.not_eq_true', beq_iff_eq]
    at hwildcard ⊢
  rcases hwildcard with ⟨⟨_, hcall⟩, hstar | hstar⟩
  · refine ⟨hcall, .inl ?_⟩
    rw [hstar]
  · rcases Option.isSome_iff_exists.1 hstar with ⟨front, hfront⟩
    refine ⟨hcall, .inr ⟨String.ofList front, ?_⟩⟩
    rw [Chars.append_of_stripTrailing? hfront]
    simp

theorem wildcardAlias_star (q : Query) : wildcardAlias q "*" = q.mainAlias := by
  have hnone : Text.stripTrailing? ".*" "*" = none := by decide +kernel
  simp [wildcardAlias, hnone]

theorem wildcardAlias_behind (q : Query) (a : String) :
    wildcardAlias q (a ++ ".*") = Text.trim a := by
  have hstrip : Text.stripTrailing? ".*" (a ++ ".*") = some a := by
    unfold Text.stripTrailing? Chars.stripTrailing?
    rw [String.toList_append, List.reverse_append, Chars.stripLeading?_append]
    simp
  simp [wildcardAlias, hstrip]

/-! ## Piece by piece -/

/-- What a piece stands for; `rank` counts the calls up to it. -/
structure Expands (schema : Schema) (q : Query) (rank : Nat) (spec : FieldSpec) (s : Selection) :
    Prop where
  about : s.tableAlias = aliasOf q spec
  /-- A star stands for the columns of the main table, or of the table in front of it, in the order
  of the schema. -/
  wildcard : spec.isWildcard = true →
    (spec.expression = "*" ∧ s.tableAlias = q.mainAlias ∨
        ∃ a, spec.expression = a ++ ".*" ∧ s.tableAlias = Text.trim a) ∧
      s.fields = (schema.columns (q.tableOf s.tableAlias)).map fun column =>
        { table := q.tableOf s.tableAlias, tableAlias := s.tableAlias, field := column,
          aliasName := none, isCall := false }
  /-- A call without an alias is named by its rank. -/
  call : spec.isWildcard = false → spec.isCall = true →
    s.fields =
      [{ table := q.mainTable, tableAlias := q.mainAlias, field := spec.expression,
         aliasName := some (spec.aliasName.getD ("function_" ++ Text.decimal rank)),
         isCall := true }]
  /-- Any other piece names a column, or a fulltext index in place of one. -/
  column : spec.isWildcard = false → spec.isCall = false →
    s.fields =
      [{ table := if (Text.splitOnce? '.' spec.expression).isSome then q.tableOf s.tableAlias
           else q.mainTable
         tableAlias := s.tableAlias
         field := ((fulltextIndex? (Query.columnOf spec)).map ("fulltext." ++ ·)).getD
           (Query.columnOf spec)
         aliasName := spec.aliasName
         isCall := false }]

theorem expands_selection {specs : List FieldSpec} (hsplit : split text = .ok specs)
    (hspec : spec ∈ specs) (schema : Schema) (q : Query) (rank : Nat) :
    Expands schema q rank spec (selection schema q rank spec) := by
  have halias := (alias_selection schema q rank spec).1
  constructor
  case about => exact halias
  case wildcard =>
    intro hwildcard
    have hself : (selection schema q rank spec).tableAlias = wildcardAlias q spec.expression := by
      simp [selection, hwildcard]
    refine ⟨?_, by simp [selection, hwildcard, columnsUnder]⟩
    rcases (wildcard_of_split hsplit hspec hwildcard).2 with hstar | ⟨a, hstar⟩
    · exact .inl ⟨hstar, by simp [hself, hstar, wildcardAlias_star]⟩
    · exact .inr ⟨a, hstar, by simp [hself, hstar, wildcardAlias_behind]⟩
  case call =>
    intro hplain hcall
    simp [selection, hplain, fieldOf, hcall, selectionOf]
  case column =>
    intro hplain hcall
    have hself : selection schema q rank spec = selectionOf (fieldOf q rank spec) := by
      simp [selection, hplain]
    -- In front of a dot stands the alias; without a dot it is the main one.
    have hfield : fieldOf q rank spec =
        { table := if (Text.splitOnce? '.' spec.expression).isSome then
            q.tableOf (q.tableAliasOf spec) else q.mainTable
          tableAlias := q.tableAliasOf spec
          field := Query.columnOf spec
          aliasName := spec.aliasName
          isCall := false } := by
      unfold fieldOf Query.tableAliasOf Query.columnOf
      cases Text.splitOnce? '.' spec.expression <;> simp [hcall]
    rw [hself, (fields_selectionOf _).1, (fields_selectionOf _).2, hfield]
    simp

/-- The number of calls up to a place in a list. -/
def rankAt (specs : List FieldSpec) (i : Nat) : Nat :=
  (specs.take (i + 1)).countP (·.isCall)

/-- Where no wildcard is a call, each piece selects what it selects by its rank. -/
theorem getElem?_selections (schema : Schema) (q : Query) {specs : List FieldSpec}
    (hcalls : ∀ spec ∈ specs, spec.isWildcard = true → spec.isCall = false) (calls i : Nat) :
    (selections schema q calls specs)[i]? =
      specs[i]?.map fun spec => selection schema q (calls + rankAt specs i) spec := by
  induction specs generalizing calls i with
  | nil => rfl
  | cons spec specs ih =>
      -- A wildcard is no call, so the calls counted so far are those among the pieces in front.
      have hcount : callsUpTo calls spec = calls + if spec.isCall then 1 else 0 := by
        have hspec := hcalls spec (by simp)
        unfold callsUpTo
        cases hwildcard : spec.isWildcard <;> cases hcall : spec.isCall <;> simp_all
      cases i with
      | zero => simp [selections, hcount, rankAt, List.countP_cons]
      | succ i =>
          have hrest := ih (fun s hs => hcalls s (by simp [hs])) (callsUpTo calls spec) i
          have hrank : callsUpTo calls spec + rankAt specs i = calls + rankAt (spec :: specs) (i + 1) := by
            simp only [hcount, rankAt, List.take_succ_cons, List.countP_cons]
            omega
          simpa [selections, hrank] using hrest

theorem length_selections (schema : Schema) (q : Query) (specs : List FieldSpec) (calls : Nat) :
    (selections schema q calls specs).length = specs.length := by
  induction specs generalizing calls with
  | nil => rfl
  | cons spec specs ih => simp [selections, ih]

/-! ## Records of the pieces -/

/-- Fields under an alias with a record bring no further record. -/
theorem keys_foldl_note {a : String} {fields : List SelectField} {m : OrderedMap String BaseFields}
    (hfields : ∀ f ∈ fields, f.tableAlias = a) (hm : a ∈ m.keys) :
    (fields.foldl (fun m f => m.upsert f.tableAlias fun old =>
      (old.getD default).note f.resultName) m).keys = m.keys := by
  induction fields generalizing m with
  | nil => rfl
  | cons f fields ih =>
      have hone : (m.upsert f.tableAlias fun old =>
          (old.getD default).note f.resultName).keys = m.keys := by
        simp [OrderedMap.keys_upsert, hfields f (by simp), hm]
      rw [List.foldl_cons, ih (fun g hg => hfields g (by simp [hg])) (hone ▸ hm), hone]

/-- A selection whose fields are all under its alias has a record for that one. -/
theorem mem_baseFields_enter {s : Selection} (hs : ∀ f ∈ s.fields, f.tableAlias = s.tableAlias)
    {a : String} :
    a ∈ (q.enter s).baseFields.keys ↔ a ∈ q.baseFields.keys ∨ a = s.tableAlias := by
  -- The record is started before the fields, so none of them brings another one.
  have hstart : s.tableAlias ∈ (q.baseFields.insertNew s.tableAlias default).keys :=
    OrderedMap.mem_keys_upsert.2 (.inr rfl)
  have hkeys := keys_foldl_note hs hstart
  simp only [baseFields_enter, noteAll, hkeys]
  exact OrderedMap.mem_keys_upsert

theorem mem_baseFields_foldl_enter {selected : List Selection}
    (hselected : ∀ s ∈ selected, ∀ f ∈ s.fields, f.tableAlias = s.tableAlias) {a : String} :
    a ∈ (selected.foldl Query.enter q).baseFields.keys ↔
      a ∈ q.baseFields.keys ∨ ∃ s ∈ selected, s.tableAlias = a := by
  induction selected generalizing q with
  | nil => simp
  | cons s selected ih =>
      have hone := mem_baseFields_enter (q := q) (hselected s (by simp)) (a := a)
      have hrest := ih (q := q.enter s) fun s' hs' => hselected s' (by simp [hs'])
      calc a ∈ ((s :: selected).foldl Query.enter q).baseFields.keys
          ↔ (a ∈ q.baseFields.keys ∨ a = s.tableAlias) ∨ ∃ s' ∈ selected, s'.tableAlias = a :=
            hrest.trans (or_congr_left hone)
        _ ↔ a ∈ q.baseFields.keys ∨ ∃ s' ∈ s :: selected, s'.tableAlias = a := by
            simp [or_assoc, eq_comm]

theorem selections_aligned (schema : Schema) (q : Query) (calls : Nat) (specs : List FieldSpec) :
    ∀ s ∈ selections schema q calls specs, ∀ f ∈ s.fields, f.tableAlias = s.tableAlias := by
  intro s hs f hf
  rcases mem_selections hs with ⟨spec, _, n, rfl⟩
  exact ((alias_selection schema q n spec).2 f hf).trans (alias_selection schema q n spec).1.symm

theorem exists_selection_iff {specs : List FieldSpec} {a : String} :
    (∃ s ∈ selections schema q calls specs, s.tableAlias = a) ↔
      ∃ spec ∈ specs, aliasOf q spec = a := by
  induction specs generalizing calls with
  | nil => simp [selections]
  | cons spec specs ih =>
      simp only [selections, List.mem_cons, exists_eq_or_imp, ih,
        (alias_selection schema q _ spec).1]

/-- A list that was read into a query without fields leaves a record for each table alias that a piece
is about, and the records tell the result names. -/
theorem records_of_list {schema : Schema} {text : List Char} {q q' : Query}
    (hselect : q.select = []) (hbase : q.baseFields = ∅)
    (h : parse schema text q = (q', .ok ())) :
    q'.NamesNoted ∧ ∃ specs, split (splitDistinct text).2 = .ok specs ∧
      ∀ a, a ∈ q'.baseFields.keys ↔ ∃ spec ∈ specs, aliasOf q spec = a := by
  rcases parse_eq_ok_iff.1 h with ⟨_, specs, hsplit, rfl⟩
  refine ⟨?_, specs, hsplit, fun a => ?_⟩
  · -- The records are right as long as nothing is selected, and every selection keeps them right.
    exact List.foldlRecOn (motive := Query.NamesNoted) _ _
      (Query.namesNoted_of_empty hselect hbase) fun _ hq s _ => hq.enter s
  · have hkeys := mem_baseFields_foldl_enter (a := a)
      (q := { q with distinct := q.distinct || (splitDistinct text).1 })
      (selections_aligned schema q 0 specs)
    simpa [hbase, exists_selection_iff] using hkeys

/-! ## Lists -/

/-- A list that was read into a query without fields stands, piece by piece, for the fields of the
query.  There is a record of base fields for each table alias that a piece is about, and the record
tells which of them is the name of an entry: its alias, or else its field. -/
theorem expansion_of_list {schema : Schema} {text : List Char} {q q' : Query}
    (hselect : q.select = []) (hbase : q.baseFields = ∅)
    (h : parse schema text q = (q', .ok ())) :
    ∃ (specs : List FieldSpec) (selected : List Selection),
      split (splitDistinct text).2 = .ok specs ∧ selected.length = specs.length ∧
      (∀ i spec, specs[i]? = some spec →
        ∃ s, selected[i]? = some s ∧ Expands schema q (rankAt specs i) spec s) ∧
      q'.select = selected.flatMap Selection.fields ∧
      q'.distinct = (q.distinct || (splitDistinct text).1) ∧
      (∀ a, a ∈ q'.baseFields.keys ↔ ∃ spec ∈ specs, aliasOf q spec = a) ∧
      (∀ a, (q'.baseFieldsOf a).uid = true ↔
        ∃ f ∈ q'.select, f.tableAlias = a ∧ f.aliasName.getD f.field = "uid") ∧
      (∀ a, (q'.baseFieldsOf a).pid = true ↔
        ∃ f ∈ q'.select, f.tableAlias = a ∧ f.aliasName.getD f.field = "pid") := by
  rcases records_of_list hselect hbase h with ⟨hnoted, specs, hsplit, hkeys⟩
  have hread : q' = (selections schema q 0 specs).foldl Query.enter
      { q with distinct := q.distinct || (splitDistinct text).1 } := by
    rcases parse_eq_ok_iff.1 h with ⟨_, specs', hsplit', hq'⟩
    cases hsplit.symm.trans hsplit'
    exact hq'
  refine ⟨specs, selections schema q 0 specs, hsplit, length_selections schema q specs 0, ?_, ?_, ?_,
    hkeys, hnoted.uid, hnoted.pid⟩
  · intro i spec hspec
    have hcalls : ∀ spec ∈ specs, spec.isWildcard = true → spec.isCall = false :=
      fun spec hspec hwildcard => (wildcard_of_split hsplit hspec hwildcard).1
    refine ⟨selection schema q (rankAt specs i) spec, ?_, ?_⟩
    · simp [getElem?_selections schema q hcalls 0 i, hspec]
    · exact expands_selection hsplit (List.mem_of_getElem? hspec) schema q _
  · rw [hread, select_foldl_enter, hselect, List.nil_append]
  · rw [hread, distinct_foldl_enter]

/-- A schema with pages, and news that have a body. -/
def newsSchema : Schema :=
  { Schema.empty with
    columns := fun table => if table = "news" then ["uid", "pid", "body"] else ["uid", "title"] }

/-- Pages joined with their news, before anything is selected. -/
def newsTables : Query :=
  (Query.setMainTable {} ⟨"pages", "pages"⟩).addJoin (.bare .inner ⟨"news", "n"⟩)

/-- A list with a wildcard, two calls and a fulltext entry. -/
def newsList : List Char :=
  "n.*, COUNT(*) AS pid, MAX(n.uid), fulltext:NAME AS score".toList

/-- The second call has no alias of its own and is named by its rank. -/
theorem expansion_of_newsList :
    newsTables.select = [] ∧ newsTables.baseFields = ∅ ∧
      (parse newsSchema newsList newsTables).2 = .ok () ∧
      ∃ selected : List Selection,
        (parse newsSchema newsList newsTables).1.select = selected.flatMap Selection.fields ∧
        selected.length = 4 ∧
        (∃ s, selected[2]? = some s ∧ s.fields =
          [{ table := "pages", tableAlias := "pages", field := "MAX(n.uid)",
             aliasName := some "function_2", isCall := true }]) ∧
        ((parse newsSchema newsList newsTables).1.baseFieldsOf "pages").pid = true := by
  have hok : (parse newsSchema newsList newsTables).2 = .ok () := by decide +kernel
  have hpieces : (split (splitDistinct newsList).2).toOption.map (fun specs =>
      (specs.length, specs[2]?, rankAt specs 2)) =
        some (4, some { expression := "MAX(n.uid)", aliasName := none, isCall := true,
                        isWildcard := false }, 2) := by
    decide +kernel
  have hcount : ∃ f ∈ (parse newsSchema newsList newsTables).1.select,
      f.tableAlias = "pages" ∧ f.aliasName.getD f.field = "pid" := by
    decide +kernel
  rcases expansion_of_list (q := newsTables) rfl rfl (Prod.ext rfl hok) with
    ⟨specs, selected, hsplit, hlength, hexpands, hselect, _, _, _, hpid⟩
  rw [hsplit] at hpieces
  simp only [Except.toOption, Option.map_some, Option.some.injEq, Prod.mk.injEq] at hpieces
  rcases hpieces with ⟨hfour, hthird, hrank⟩
  rcases hexpands 2 _ hthird with ⟨s, hs, hexpand⟩
  refine ⟨rfl, rfl, hok, selected, hselect, hlength.trans hfour, ⟨s, hs, ?_⟩,
    (hpid "pages").2 hcount⟩
  rw [hexpand.call rfl rfl, hrank]
  decide +kernel

end SelectList

/-! ## Statements -/

namespace Query

open SelectList (aliasOf)

/-- The records of a statement that was read tell the result names, and there is one for each table
alias that a piece of its SELECT list is about. -/
theorem records_of_parse {schema : Schema} {text : String} {q : Query}
    (h : parse schema text = .ok q) :
    q.NamesNoted ∧
      ∃ list rest specs, splitStatement text.toList = .ok (list, rest) ∧
        SelectList.split (SelectList.splitDistinct list).2 = .ok specs ∧
        ∀ a, a ∈ q.baseFields.keys ↔ ∃ spec ∈ specs, aliasOf q spec = a := by
  rcases parse_eq_ok_iff.1 h with ⟨list, rest, q₀, q₁, hstatement, htables, hclauses, hlist⟩
  -- Neither the tables nor the clauses select anything.
  have hrecords := listRecords_of_clauses htables hclauses
  simp only [listRecords, Prod.mk.injEq] at hrecords
  rcases hrecords with ⟨_, hselect, _, hbase, _⟩
  rcases SelectList.records_of_list hselect hbase hlist with ⟨hnoted, specs, hsplit, hkeys⟩
  have hmain : q.mainAlias = q₁.mainAlias := by
    have hsame := congrArg Query.mainAlias (withoutList_parse hlist)
    simpa only [withoutList] using hsame
  have halias : aliasOf q = aliasOf q₁ := by
    funext spec
    simp only [aliasOf, SelectList.wildcardAlias, tableAliasOf, hmain]
  refine ⟨hnoted, list, rest, specs, hstatement, hsplit, ?_⟩
  simpa only [halias] using hkeys

end Query
end ContentQuery
