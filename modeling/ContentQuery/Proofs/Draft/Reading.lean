import ContentQuery.Draft.Analysis
import ContentQuery.Proofs.Draft.Operations

/-!
# Drafts that were read

A draft that was read holds the query of its text, final SELECT list aside, and has selected fields
for exactly the tables with an entry in that SELECT list.
-/

namespace ContentQuery
namespace Draft

/-- The draft has selected fields for exactly the tables with an entry in the SELECT list. -/
def TablesSelected (d : Draft) : Prop :=
  ∀ a, a ∈ d.tables.keys ↔ ∃ f ∈ d.query.select, f.tableAlias = a

/-! ## Selected fields -/

theorem mem_tables_noteField {d : Draft} {table a : String} {field : DraftField} {b : String} :
    b ∈ (d.noteField table a field).tables.keys ↔ b ∈ d.tables.keys ∨ b = a :=
  OrderedMap.mem_keys_upsert

theorem mem_tables_selectExtra {d : Draft} {table a field b : String} :
    b ∈ (d.selectExtra table a field).tables.keys ↔ b ∈ d.tables.keys ∨ b = a :=
  OrderedMap.mem_keys_upsert

theorem tablesSelected_analyze (q : Query) : (ofQuery q).analyze.TablesSelected := by
  -- Each entry of the SELECT list notes one field, under the alias of its table.
  have hfold : ∀ (fields : List SelectField) (d : Draft) (b : String),
      b ∈ (fields.foldl analyzeField d).tables.keys ↔
        b ∈ d.tables.keys ∨ ∃ f ∈ fields, f.tableAlias = b := by
    intro fields
    induction fields with
    | nil => simp
    | cons f fields ih =>
        intro d b
        have hone : b ∈ (d.analyzeField f).tables.keys ↔ b ∈ d.tables.keys ∨ b = f.tableAlias :=
          mem_tables_noteField
        rw [List.foldl_cons, ih, hone, or_assoc]
        simp [eq_comm]
  intro b
  have hkeys := hfold q.select (ofQuery q) b
  have hempty : (ofQuery q).tables.keys = [] := rfl
  rw [hempty] at hkeys
  simp only [List.not_mem_nil, false_or] at hkeys
  exact hkeys

/-- Base fields are added for tables that have a record of them and columns. -/
theorem addBaseField_cases (p : Platform) (a field : String) (present : Bool) (d : Draft) :
    addBaseField p a field present d = d ∨
      (p.schema.columns (d.query.tableOf a) ≠ [] ∧
        addBaseField p a field present d = d.selectExtra (d.query.tableOf a) a field) := by
  unfold addBaseField
  simp only
  split
  · next h =>
      simp only [Bool.and_eq_true, decide_eq_true_eq] at h
      exact .inr ⟨List.ne_nil_of_mem h.2, rfl⟩
  · exact .inl rfl

/-- A base field of an alias with a record keeps the query, and selects from no further table. -/
theorem addBaseField_keeps {p : Platform} {d d' : Draft} (hbase : d.query.BaseFieldsKept p.schema)
    {a : String} (ha : a ∈ d.query.baseFields.keys) (field : String) (present : Bool)
    (h : d'.TablesSelected ∧ d'.query.body = d.query.body) :
    (addBaseField p a field present d').TablesSelected ∧
      (addBaseField p a field present d').query.body = d.query.body := by
  obtain ⟨htables, hbody⟩ := h
  rcases addBaseField_cases p a field present d' with h | ⟨hcolumns, h⟩
  · rw [h]
    exact ⟨htables, hbody⟩
  · -- The alias has an entry in the SELECT list already, since its table has columns.
    have htableOf : d'.query.tableOf = d.query.tableOf := by
      rw [← Query.tableOf_body, hbody, Query.tableOf_body]
    have hselect : d'.query.select = d.query.select := by
      show d'.query.body.select = d.query.body.select
      rw [hbody]
    rw [htableOf] at hcolumns
    rw [h]
    refine ⟨fun b => ?_, hbody⟩
    rw [mem_tables_selectExtra, htables b]
    constructor
    · rintro (hb | rfl)
      · exact hb
      · show ∃ f ∈ d'.query.select, f.tableAlias = b
        rw [hselect]
        exact (hbase b ha).resolve_right hcolumns
    · exact .inl

theorem addBaseFields_keeps (p : Platform) {d : Draft} (hd : d.TablesSelected)
    (hbase : d.query.BaseFieldsKept p.schema) :
    (addBaseFields p d).TablesSelected ∧ (addBaseFields p d).query.body = d.query.body := by
  refine List.foldlRecOn (motive := fun d' : Draft => d'.TablesSelected ∧
    d'.query.body = d.query.body) _ _ ⟨hd, rfl⟩ fun d' h e he => ?_
  have ha : e.1 ∈ d.query.baseFields.keys := List.mem_map.2 ⟨e, he, rfl⟩
  have huid := addBaseField_keeps hbase ha "uid" e.2.uid h
  exact addBaseField_keeps hbase ha "pid" e.2.pid huid

/-! ## Reading -/

@[simp] theorem query_warnDuplicates (d : Draft) : d.warnDuplicates.1.query = d.query := by
  unfold warnDuplicates
  split <;> rfl

@[simp] theorem tables_warnDuplicates (d : Draft) : d.warnDuplicates.1.tables = d.tables := by
  unfold warnDuplicates
  split <;> rfl

/-- A query with the fields of its SELECT list, and with the base fields of its tables unless it is
DISTINCT. -/
def completed (p : Platform) (q : Query) : Draft :=
  if q.distinct then (ofQuery q).analyze else addBaseFields p (ofQuery q).analyze

theorem parse_of_error {p : Platform} {text : String} {e : QueryError}
    (h : Query.parse p.schema (prepareText text) = .error e) (d : Draft) :
    d.parse p text = (d, .error e) := by
  simp only [parse, h]

/-- A text that can be read is refused if it is DISTINCT without a `uid`, or else completed and
searched for duplicates. -/
theorem parse_of_read {p : Platform} {text : String} {q : Query}
    (h : Query.parse p.schema (prepareText text) = .ok q) (d : Draft) :
    d.parse p text =
      if q.distinct && !(ofQuery q).analyze.selectsMainUid then
        ((ofQuery q).analyze, .error .missingUid)
      else ((completed p q).warnDuplicates.1, .ok (completed p q).warnDuplicates.2) := by
  unfold parse
  rw [h]
  rfl

/-- A text that is accepted was read and completed. -/
theorem exists_of_accepted {p : Platform} {text warning : String} {d d' : Draft}
    (h : d.parse p text = (d', .ok warning)) :
    ∃ q, Query.parse p.schema (prepareText text) = .ok q ∧
      (completed p q).warnDuplicates = (d', warning) := by
  cases hq : Query.parse p.schema (prepareText text) with
  | error e =>
      rw [parse_of_error hq] at h
      cases h
  | ok q =>
      rw [parse_of_read hq] at h
      refine ⟨q, rfl, ?_⟩
      split at h
      · cases h
      · cases h
        rfl

theorem completed_keeps {p : Platform} {q : Query} (hbase : q.BaseFieldsKept p.schema) :
    (completed p q).TablesSelected ∧ (completed p q).query.body = q.body := by
  have hanalyzed := tablesSelected_analyze q
  have hbody : (ofQuery q).analyze.query.body = q.body := rfl
  unfold completed
  split
  · exact ⟨hanalyzed, hbody⟩
  · have hkept := addBaseFields_keeps p hanalyzed fun a ha => hbase a ha
    exact ⟨hkept.1, hkept.2.trans hbody⟩

/-- A draft that was read holds the query of its text. -/
theorem of_parse {p : Platform} {text warning : String} {d d' : Draft}
    (h : d.parse p text = (d', .ok warning)) :
    ∃ q, Query.parse p.schema (prepareText text) = .ok q ∧ d'.query.body = q.body ∧
      d'.TablesSelected := by
  rcases exists_of_accepted h with ⟨q, hq, hcompleted⟩
  have hkept := completed_keeps (p := p) fun a ha => Query.baseFieldsKept_of_parse hq a ha
  -- The warning changes neither the query nor the tables.
  obtain rfl : (completed p q).warnDuplicates.1 = d' := congrArg Prod.fst hcompleted
  refine ⟨q, hq, ?_, ?_⟩
  · rw [query_warnDuplicates]
    exact hkept.2
  · rw [TablesSelected, query_warnDuplicates, tables_warnDuplicates]
    exact hkept.1

/-- The records of a draft that was read agree with its tables and joins. -/
theorem wellKept_of_parse {p : Platform} {text warning : String} {d d' : Draft}
    (h : d.parse p text = (d', .ok warning)) : d'.query.WellKept := by
  rcases of_parse h with ⟨q, hq, hbody, _⟩
  have hrecords : d'.query.body.aliasRecords = q.body.aliasRecords :=
    congrArg Query.aliasRecords hbody
  exact (Query.wellKept_of_parse hq).congr hrecords

end Draft

/-! ## An example -/

/-- A small site, for examples: pages, and news in several versions that may be hidden. -/
def Catalog.site : Catalog where
  tables := .ofList
    [("pages", { columns := .ofList [("uid", none), ("pid", none), ("title", none)] }),
      ("news",
        { columns := .ofList [("uid", none), ("pid", none), ("body", none)]
          control := { disabled := some "hidden", versioned := true } })]

namespace Draft

/-- A listing of pages with a field of their news. -/
def newsDraft : Draft :=
  (({} : Draft).parse (Catalog.site.platform (.atTime 0) {})
    "SELECT title, n.body FROM pages INNER JOIN news AS n ON n.pid = pages.uid").1

theorem parse_newsDraft :
    ({} : Draft).parse (Catalog.site.platform (.atTime 0) {})
        "SELECT title, n.body FROM pages INNER JOIN news AS n ON n.pid = pages.uid" =
      (newsDraft, .ok "") := by
  refine Prod.ext (by rw [newsDraft]) ?_
  decide +kernel

end Draft
end ContentQuery
