import Mathlib.Data.List.Perm.Subperm
import ContentQuery.Proofs.Draft.Reachable

/-!
# Selected fields and their records

A selected field is written down three times: as an entry of the SELECT list, among the fields of its
table, and as the origin of its result column.  Whoever selects a field writes all three, so a draft
that was read is filled by a list of entries, and every later step adds entries at the end.
-/

namespace ContentQuery

/-! ## Entries -/

/-- A selected field with everything that is written down of it. -/
structure ListEntry where
  /-- The entry of the SELECT list. -/
  text : String
  /-- The result column. -/
  column : String
  isCall : Bool
  origin : FieldOrigin
deriving DecidableEq, Repr

namespace ListEntry

/-- What is written down of an entry that was read. -/
def written (mainAlias : String) (f : SelectField) : ListEntry :=
  let column := Draft.resultColumn mainAlias f
  { text := Draft.entryText mainAlias f
    column := column.1
    isCall := f.isCall
    origin := Draft.originOf f column.2 }

/-- What is written down of a column under a result column. -/
def ofColumn (table a field column : String) : ListEntry :=
  { text := if field = column then a ++ "." ++ field else a ++ "." ++ field ++ " AS " ++ column
    column
    isCall := false
    origin := .plain table a field }

/-- A column under its usual result column. -/
def usual (mainAlias table a field : String) : ListEntry :=
  ofColumn table a field (if mainAlias == a then field else a ++ "$" ++ field)

/-- The table alias and the field that an entry selects. -/
def place (e : ListEntry) : String × String :=
  (e.origin.tableAlias, e.origin.field)

/-- The text names the result column: behind AS, or as a field of the main table. -/
def Titled (mainAlias : String) (e : ListEntry) : Prop :=
  (∃ x, e.text = x ++ " AS " ++ e.column) ∨ e.text = mainAlias ++ "." ++ e.column

theorem prefixed_ne (a field : String) : field ≠ a ++ "$" ++ field := by
  intro h
  have hlength := congrArg String.length h
  simp only [String.length_append] at hlength
  have hone : "$".length = 1 := rfl
  omega

/-- A column in front of which its table stands is never its own result column. -/
theorem titled_prefixed (mainAlias table a field : String) :
    (ofColumn table a field (a ++ "$" ++ field)).Titled mainAlias := by
  refine .inl ⟨a ++ "." ++ field, ?_⟩
  rw [ofColumn, if_neg (prefixed_ne a field)]

theorem titled_usual (mainAlias table a field : String) :
    (usual mainAlias table a field).Titled mainAlias := by
  unfold usual
  split
  · next ha =>
      rw [beq_iff_eq] at ha
      subst ha
      exact .inr (if_pos rfl)
  · exact titled_prefixed mainAlias table a field

/-- A column that is selected on top of those that were read: like a base field, or to sort by. -/
inductive Extra (mainAlias : String) : ListEntry → Prop
  | usual (table a field : String) : Extra mainAlias (.usual mainAlias table a field)
  | sorted (table a field : String) : Extra mainAlias (.ofColumn table a field (a ++ "$" ++ field))

theorem Extra.titled {mainAlias : String} {e : ListEntry} (h : e.Extra mainAlias) :
    e.Titled mainAlias := by
  cases h with
  | usual table a field => exact titled_usual mainAlias table a field
  | sorted table a field => exact titled_prefixed mainAlias table a field

theorem titled_written {mainAlias : String} {f : SelectField}
    (hcall : f.isCall = true → f.aliasName.isSome = true) :
    (written mainAlias f).Titled mainAlias := by
  by_cases hnamed : f.tableAlias ≠ mainAlias ∨ f.aliasName.isSome = true
  · exact .inl ⟨f.expression, by simp only [written, Draft.entryText, if_pos hnamed]⟩
  · have htext : Draft.entryText mainAlias f = f.expression := if_neg hnamed
    rw [not_or, ne_eq, Decidable.not_not] at hnamed
    have hcolumn : f.isCall ≠ true := fun h => hnamed.2 (hcall h)
    have halias : f.aliasName = none := Option.not_isSome_iff_eq_none.1 hnamed.2
    refine .inr ?_
    simp [written, htext, SelectField.expression, hcolumn, Draft.resultColumn, halias, hnamed.1]

theorem place_written (mainAlias : String) (f : SelectField) :
    (written mainAlias f).place = (f.tableAlias, f.field) := by
  simp only [place, written, Draft.originOf]
  split <;> rfl

end ListEntry

/-! ## Lists of entries -/

namespace Query

/-- The entry of a base field, where a table has it and the query does not. -/
def baseEntry (schema : Schema) (q : Query) (a field : String) (present : Bool) : List ListEntry :=
  if !present && field ∈ schema.columns (q.tableOf a) then
    [.usual q.mainAlias (q.tableOf a) a field]
  else []

/-- The entries of the base fields of every table. -/
def baseEntries (schema : Schema) (q : Query) : List ListEntry :=
  q.baseFields.entries.flatMap fun e =>
    q.baseEntry schema e.1 "uid" e.2.uid ++ q.baseEntry schema e.1 "pid" e.2.pid

/-- What is written down of a query when it is read. -/
def listed (schema : Schema) (q : Query) : List ListEntry :=
  q.select.map (.written q.mainAlias) ++ if q.distinct then [] else q.baseEntries schema

theorem mem_baseEntry {schema : Schema} {q : Query} {a field : String} {present : Bool}
    {e : ListEntry} :
    e ∈ q.baseEntry schema a field present ↔
      present = false ∧ field ∈ schema.columns (q.tableOf a) ∧
        e = .usual q.mainAlias (q.tableOf a) a field := by
  unfold baseEntry
  cases present <;> by_cases hcolumn : field ∈ schema.columns (q.tableOf a) <;> simp [hcolumn]

/-- What is written down is a field of the query, or a base field of a table. -/
theorem mem_listed_cases {schema : Schema} {q : Query} {e : ListEntry} (he : e ∈ q.listed schema) :
    (∃ f ∈ q.select, e = .written q.mainAlias f) ∨
      ∃ a ∈ q.baseFields.keys, ∃ field, (field = "uid" ∨ field = "pid") ∧
        e = .usual q.mainAlias (q.tableOf a) a field := by
  rcases List.mem_append.1 he with he | he
  · rcases List.mem_map.1 he with ⟨f, hf, rfl⟩
    exact .inl ⟨f, hf, rfl⟩
  · split at he
    · cases he
    · rcases List.mem_flatMap.1 he with ⟨base, hbase, he⟩
      refine .inr ⟨base.1, List.mem_map_of_mem hbase, ?_⟩
      rcases List.mem_append.1 he with he | he
      · exact ⟨"uid", .inl rfl, (mem_baseEntry.1 he).2.2⟩
      · exact ⟨"pid", .inr rfl, (mem_baseEntry.1 he).2.2⟩

theorem titled_listed {q : Query} (hq : q.CallsNamed) (schema : Schema) :
    ∀ e ∈ q.listed schema, e.Titled q.mainAlias := by
  intro e he
  rcases mem_listed_cases he with ⟨f, hf, rfl⟩ | ⟨a, _, field, _, rfl⟩
  · exact ListEntry.titled_written (hq f hf)
  · exact ListEntry.titled_usual _ _ _ _

end Query

namespace Draft

/-! ## Filling -/

/-- Writes an entry down. -/
def enter (d : Draft) (e : ListEntry) : Draft :=
  { d.noteField e.origin.table e.origin.tableAlias { name := e.origin.field, isCall := e.isCall } with
    query := { d.query with selectList := d.query.selectList ++ [e.text] }
    origins := d.origins.insert e.column e.origin }

def enterAll (entries : List ListEntry) (d : Draft) : Draft :=
  entries.foldl enter d

/-- Everything that is written down of the selected fields. -/
def selection (d : Draft) :
    List String × OrderedMap String DraftTable × OrderedMap String FieldOrigin :=
  (d.query.selectList, d.tables, d.origins)

/-- The number of fields noted, over all tables. -/
def fieldCount (d : Draft) : Nat :=
  d.tables.total (·.fields.length)

theorem selection_enter {d d' : Draft} (h : d'.selection = d.selection) (e : ListEntry) :
    (d'.enter e).selection = (d.enter e).selection := by
  simp only [selection, Prod.mk.injEq] at h
  rcases h with ⟨hlist, htables, horigins⟩
  simp only [selection, enter, noteField, hlist, htables, horigins]

theorem selection_enterAll {d d' : Draft} (h : d'.selection = d.selection)
    (entries : List ListEntry) : (d'.enterAll entries).selection = (d.enterAll entries).selection := by
  induction entries generalizing d d' with
  | nil => exact h
  | cons e entries ih => exact ih (selection_enter h e)

theorem enterAll_append (d : Draft) (es es' : List ListEntry) :
    d.enterAll (es ++ es') = (d.enterAll es).enterAll es' :=
  List.foldl_append

/-! ### What is written down -/

theorem selectList_enterAll (entries : List ListEntry) (d : Draft) :
    (d.enterAll entries).query.selectList = d.query.selectList ++ entries.map (·.text) := by
  induction entries generalizing d with
  | nil => exact (List.append_nil _).symm
  | cons e entries ih =>
      have hone : (d.enter e).query.selectList = d.query.selectList ++ [e.text] := rfl
      rw [enterAll, List.foldl_cons, ← enterAll, ih, hone, List.append_assoc]
      rfl

theorem fieldCount_enterAll (entries : List ListEntry) (d : Draft) :
    (d.enterAll entries).fieldCount = d.fieldCount + entries.length := by
  induction entries generalizing d with
  | nil => rfl
  | cons e entries ih =>
      have hone : (d.enter e).fieldCount = d.fieldCount + 1 :=
        OrderedMap.total_upsert rfl (fun v => List.length_append) d.tables
      rw [enterAll, List.foldl_cons, ← enterAll, ih, hone, List.length_cons]
      omega

theorem hasField_enterAll (entries : List ListEntry) (d : Draft) (a name : String) :
    (d.enterAll entries).hasField a name = true ↔
      d.hasField a name = true ∨ ∃ e ∈ entries, e.place = (a, name) := by
  induction entries generalizing d with
  | nil => simp [enterAll]
  | cons e entries ih =>
      have hone : (d.enter e).hasField a name = true ↔
          d.hasField a name = true ∨ e.place = (a, name) := by
        rw [ListEntry.place, Prod.mk.injEq, @eq_comm _ e.origin.tableAlias]
        exact d.hasField_noteField e.origin.table e.origin.tableAlias
          { name := e.origin.field, isCall := e.isCall } a name
      rw [enterAll, List.foldl_cons, ← enterAll, ih, hone, or_assoc]
      simp

theorem origins_enterAll (entries : List ListEntry) (d : Draft) :
    (d.enterAll entries).origins =
      (entries.map fun e => (e.column, e.origin)).foldl (fun m e => m.insert e.1 e.2) d.origins := by
  rw [List.foldl_map]
  induction entries generalizing d with
  | nil => rfl
  | cons e entries ih => exact ih (d.enter e)

/-! ## Filled drafts -/

/-- The draft is filled by the entries. -/
def Lists (d : Draft) (entries : List ListEntry) : Prop :=
  d.selection = (({} : Draft).enterAll entries).selection

namespace Lists

variable {d : Draft} {entries : List ListEntry}

theorem selectList (h : d.Lists entries) : d.query.selectList = entries.map (·.text) := by
  have hlist := congrArg Prod.fst h
  rwa [selection, selection, selectList_enterAll] at hlist

theorem tables (h : d.Lists entries) : d.tables = (({} : Draft).enterAll entries).tables :=
  congrArg (fun s => s.2.1) h

theorem fieldCount (h : d.Lists entries) : d.fieldCount = entries.length := by
  have hcount := fieldCount_enterAll entries {}
  rw [Draft.fieldCount, ← h.tables, ← Draft.fieldCount] at hcount
  exact hcount.trans (Nat.zero_add _)

theorem hasField (h : d.Lists entries) {a name : String} :
    d.hasField a name = true ↔ ∃ e ∈ entries, e.place = (a, name) := by
  have hfield := hasField_enterAll entries {} a name
  rw [Draft.hasField, ← h.tables, ← Draft.hasField] at hfield
  rw [hfield]
  exact or_iff_right (by simp [Draft.hasField])

/-- Of the entries with one result column the last one counts. -/
theorem origins (h : d.Lists entries) :
    d.origins = .ofList (entries.map fun e => (e.column, e.origin)) :=
  (congrArg (fun s => s.2.2) h).trans (origins_enterAll entries {})

theorem mem_origins_keys (h : d.Lists entries) {column : String} :
    column ∈ d.origins.keys ↔ column ∈ entries.map (·.column) := by
  rw [h.origins, OrderedMap.mem_keys_ofList, List.map_map]
  rfl

/-- The result columns differ exactly where each entry has an origin of its own. -/
theorem nodup_iff (h : d.Lists entries) :
    (entries.map (·.column)).Nodup ↔ d.origins.entries.length = d.query.selectList.length := by
  have hcount : d.origins.entries.length = d.query.selectList.length ↔
      d.origins.keys.length = (entries.map (·.column)).length := by
    rw [h.selectList, OrderedMap.keys, List.length_map, List.length_map, List.length_map]
  have hsubperm := List.subperm_of_subset d.origins.nodup fun _ => h.mem_origins_keys.1
  rw [hcount]
  constructor
  · intro hnodup
    have hsuperperm := List.subperm_of_subset hnodup fun _ => h.mem_origins_keys.2
    exact Nat.le_antisymm hsubperm.length_le hsuperperm.length_le
  · intro hlength
    exact (hsubperm.perm_of_length_le (Nat.le_of_eq hlength.symm)).nodup_iff.1 d.origins.nodup

end Lists

/-! ## Steps -/

/-- The later draft is filled like the earlier one and by the entries behind that. -/
def Selects (d d' : Draft) (entries : List ListEntry) : Prop :=
  d'.selection = (d.enterAll entries).selection

theorem Selects.trans {a b c : Draft} {es es' : List ListEntry} (h : a.Selects b es)
    (h' : b.Selects c es') : a.Selects c (es ++ es') := by
  rw [Selects, enterAll_append]
  exact Eq.trans h' (selection_enterAll h es')

theorem Lists.append {d d' : Draft} {es es' : List ListEntry} (h : d.Lists es)
    (h' : d.Selects d' es') : d'.Lists (es ++ es') :=
  Selects.trans h h'

theorem Selects.selectList {d d' : Draft} {es : List ListEntry} (h : d.Selects d' es) :
    d'.query.selectList = d.query.selectList ++ es.map (·.text) :=
  (congrArg Prod.fst h).trans (selectList_enterAll es d)

theorem Selects.hasField {d d' : Draft} {es : List ListEntry} (h : d.Selects d' es)
    {a name : String} :
    d'.hasField a name = true ↔ d.hasField a name = true ∨ ∃ e ∈ es, e.place = (a, name) := by
  have htables : d'.tables = (d.enterAll es).tables := congrArg (fun s => s.2.1) h
  rw [Draft.hasField, htables]
  exact hasField_enterAll es d a name

theorem selectList_addCondition (q : Query) (text : String) :
    (q.addCondition text).selectList = q.selectList := by
  unfold Query.addCondition
  simp only
  split <;> rfl

theorem selection_attach (d : Draft) (a condition : String) :
    (d.attach a condition).selection = d.selection := by
  rcases Query.attach_frame d.query ⟨a, condition⟩ with ⟨conditions, joins, hattached⟩
  rw [attach_eq, hattached]
  rfl

theorem selection_resolve (d : Draft) (name component : String) :
    (d.resolve name component).1.selection = d.selection := by
  rcases d.resolve_cases name component with
    ⟨_, _, h⟩ | ⟨_, _, h⟩ | ⟨_, _, _, h⟩ | ⟨_, _, _, _, h⟩ <;> rw [h] <;> rfl

theorem selection_fillPlaceholder (d : Draft) (target : ConditionTarget) (text : String) :
    (d.fillPlaceholder target text).selection = d.selection := by
  unfold Draft.fillPlaceholder
  split <;> rfl

/-- Filters and id lists select nothing. -/
theorem FilterStep.selection {d d' : Draft} (h : FilterStep d d') : d'.selection = d.selection := by
  cases h with
  | attach a condition => exact selection_attach d a condition
  | warn title message => rfl
  | notify title message => rfl
  | resolve name component => exact selection_resolve d name component
  | fillPlaceholder target text => exact selection_fillPlaceholder d target text
  | addCondition text => simp only [Draft.selection, selectList_addCondition]
  | addOrder texts fields => rfl

theorem FilterSteps.selection {d d' : Draft} (h : FilterSteps d d') :
    d'.selection = d.selection := by
  induction h with
  | refl => rfl
  | tail _ hstep ih => rw [hstep.selection, ih]

/-- A rule adds no field, or one that was not selected. -/
theorem RuleStep.selects {d d' : Draft} (h : RuleStep d d') :
    d.Selects d' [] ∨ ∃ table a field, d.hasField a field = false ∧
      d.Selects d' [.usual d.query.mainAlias table a field] := by
  cases h with
  | attach a condition => exact .inl (selection_attach d a condition)
  | warn title message => exact .inl rfl
  | setOverlay table needed => exact .inl rfl
  | setVersionOverlay table needed => exact .inl rfl
  | selectExtra table a field hnew => exact .inr ⟨table, a, field, hnew, rfl⟩

theorem Step.extras {d d' : Draft} (h : Step d d') :
    ∃ entries, d.Selects d' entries ∧ ∀ e ∈ entries, e.Extra d.query.mainAlias := by
  cases h with
  | rule h =>
      rcases h.selects with h | ⟨table, a, field, _, h⟩
      · exact ⟨[], h, by simp⟩
      · exact ⟨_, h, by simpa using .usual table a field⟩
  | notify title message => exact ⟨[], rfl, by simp⟩
  | resolve name component => exact ⟨[], selection_resolve d name component, by simp⟩
  | fillPlaceholder target text => exact ⟨[], selection_fillPlaceholder d target text, by simp⟩
  | addCondition text => exact ⟨[], (FilterStep.addCondition d text).selection, by simp⟩
  | addOrder texts fields => exact ⟨[], rfl, by simp⟩
  | setOrderFields fields _ => exact ⟨[], rfl, by simp⟩
  | selectForSorting c =>
      exact ⟨[.ofColumn c.table c.aliasName c.field _], rfl,
        by simpa using .sorted c.table c.aliasName c.field⟩
  | setSorting inDatabase => exact ⟨[], rfl, by simp⟩

theorem Steps.extras {d d' : Draft} (h : Steps d d') :
    ∃ entries, d.Selects d' entries ∧ ∀ e ∈ entries, e.Extra d.query.mainAlias := by
  induction h with
  | refl => exact ⟨[], rfl, by simp⟩
  | tail hsteps hstep ih =>
      rcases ih with ⟨es, hselects, hextra⟩
      rcases hstep.extras with ⟨es', hselects', hextra'⟩
      have hmain := Steps.mainAlias hsteps
      refine ⟨es ++ es', hselects.trans hselects', fun e he => ?_⟩
      rcases List.mem_append.1 he with he | he
      · exact hextra e he
      · exact hmain ▸ hextra' e he

theorem Steps.selects {d d' : Draft} (h : Steps d d') :
    ∃ entries, d.Selects d' entries ∧ ∀ e ∈ entries, e.Titled d.query.mainAlias := by
  rcases h.extras with ⟨entries, hselects, hextra⟩
  exact ⟨entries, hselects, fun e he => (hextra e he).titled⟩

/-! ## Completing -/

/-- Only wanted entries are added on the way from `d` to `d'`, each of them for a field of its own that
was not selected before. -/
structure Completes (Wanted : ListEntry → Prop) (d d' : Draft) : Prop where
  steps : RuleSteps d d'
  selects : ∃ added, d.Selects d' added ∧ (added.map (·.place)).Nodup ∧
    ∀ e ∈ added, d.hasField e.place.1 e.place.2 = false ∧ Wanted e

namespace Completes

variable {Wanted : ListEntry → Prop} {d d' : Draft}

theorem of_selection (hsteps : RuleSteps d d') (h : d'.selection = d.selection) :
    Completes Wanted d d' :=
  ⟨hsteps, [], h, List.nodup_nil, by simp⟩

theorem refl (d : Draft) : Completes Wanted d d :=
  .of_selection .refl rfl

/-- What is done beside the selection does not matter. -/
theorem congr {d'' : Draft} (h : Completes Wanted d d') (hsteps : RuleSteps d d'')
    (hselection : d''.selection = d'.selection) : Completes Wanted d d'' := by
  rcases h.selects with ⟨added, hselects, hadded⟩
  exact ⟨hsteps, added, hselection.trans hselects, hadded⟩

theorem selectExtra {table a field : String} (hnew : d.hasField a field = false)
    (hwanted : Wanted (.usual d.query.mainAlias table a field)) :
    Completes Wanted d (d.selectExtra table a field) := by
  refine ⟨(RuleStep.selectExtra d table a field hnew).single,
    [.usual d.query.mainAlias table a field], rfl, by simp, ?_⟩
  intro e he
  rw [List.mem_singleton] at he
  subst he
  exact ⟨hnew, hwanted⟩

theorem trans {a b c : Draft} (h : Completes Wanted a b) (h' : Completes Wanted b c) :
    Completes Wanted a c := by
  rcases h.selects with ⟨added, hselects, hnodup, hadded⟩
  rcases h'.selects with ⟨added', hselects', hnodup', hadded'⟩
  refine ⟨h.steps.trans h'.steps, added ++ added', hselects.trans hselects', ?_, ?_⟩
  · rw [List.map_append, List.nodup_append]
    refine ⟨hnodup, hnodup', fun place hplace place' hplace' hsame => ?_⟩
    -- What the first part selected is there for the second one.
    rcases List.mem_map.1 hplace with ⟨e, he, rfl⟩
    rcases List.mem_map.1 hplace' with ⟨e', he', rfl⟩
    have hthere : b.hasField e.place.1 e.place.2 = true := hselects.hasField.2 (.inr ⟨e, he, rfl⟩)
    have hnew := (hadded' e' he').1
    rw [← hsame, hthere] at hnew
    cases hnew
  · intro e he
    rcases List.mem_append.1 he with he | he
    · exact hadded e he
    · rcases hadded' e he with ⟨hnew, hwanted⟩
      refine ⟨?_, hwanted⟩
      -- A field that was there at first would still be there.
      apply Bool.eq_false_iff.2
      intro hthere
      rw [h.steps.steps.grows.fields _ _ hthere] at hnew
      cases hnew

/-- The turns of a loop need be judged only where the loop can be. -/
theorem foldl {α : Type} {f : Draft → α → Draft} {xs : List α}
    (hturn : ∀ {d' : Draft}, RuleSteps d d' → ∀ x ∈ xs, Completes Wanted d' (f d' x)) :
    Completes Wanted d (xs.foldl f d) := by
  induction xs generalizing d with
  | nil => exact .refl d
  | cons x xs ih =>
      have hfirst := hturn .refl x List.mem_cons_self
      have hrest : Completes Wanted (f d x) (xs.foldl f (f d x)) := by
        apply ih
        intro d' hsteps y hy
        exact hturn (hfirst.steps.trans hsteps) y (List.mem_cons_of_mem x hy)
      exact hfirst.trans hrest

theorem addMissing {table a : String} {columns selected : List String}
    (hwanted : ∀ column ∈ columns, column ∉ selected →
      Wanted (.usual d.query.mainAlias table a column)) :
    Completes Wanted d (d.addMissing table a columns selected) := by
  apply Completes.foldl
  intro d' hsteps column hcolumn
  split
  · exact .refl d'
  · next hmissing =>
      rw [not_or, Bool.not_eq_true] at hmissing
      apply Completes.selectExtra hmissing.2
      rw [hsteps.steps.mainAlias]
      exact hwanted column hcolumn hmissing.1

end Completes

/-- The rules add nothing but columns under their usual result columns. -/
theorem RuleSteps.completes {d d' : Draft} (h : RuleSteps d d') :
    Completes (fun e => ∃ table a field, e = .usual d.query.mainAlias table a field) d d' := by
  induction h with
  | refl => exact .refl d
  | tail hsteps hstep ih =>
      apply ih.trans
      rw [← Steps.mainAlias (RuleSteps.steps hsteps)]
      cases hstep with
      | attach a condition =>
          exact .of_selection (RuleStep.attach _ a condition).single (selection_attach _ a condition)
      | warn title message => exact .of_selection (RuleStep.warn _ title message).single rfl
      | setOverlay table needed => exact .of_selection (RuleStep.setOverlay _ table needed).single rfl
      | setVersionOverlay table needed =>
          exact .of_selection (RuleStep.setVersionOverlay _ table needed).single rfl
      | selectExtra table a field hnew => exact .selectExtra hnew ⟨table, a, field, rfl⟩

/-! ## Reading -/

/-- An entry that is analyzed is written down, its text aside. -/
theorem analyzeField_eq (d : Draft) (f : SelectField) :
    ((d.analyzeField f).tables, (d.analyzeField f).origins) =
      ((d.enter (.written d.query.mainAlias f)).tables,
        (d.enter (.written d.query.mainAlias f)).origins) := by
  have horigin : ∀ place, (originOf f place).table = f.table ∧
      (originOf f place).tableAlias = f.tableAlias ∧ (originOf f place).field = f.field := by
    intro place
    cases place <;> exact ⟨rfl, rfl, rfl⟩
  rcases horigin (resultColumn d.query.mainAlias f).2 with ⟨htable, halias, hfield⟩
  simp only [enter, ListEntry.written, noteField, htable, halias, hfield]
  rfl

theorem lists_analyze (q : Query) :
    (ofQuery q).analyze.Lists (q.select.map (.written q.mainAlias)) := by
  -- Analysis notes origins and tables only, as entering the written entries does.
  have hfold : ∀ (fields : List SelectField) (d d' : Draft),
      (d.tables, d.origins) = (d'.tables, d'.origins) →
        ((fields.foldl analyzeField d).tables, (fields.foldl analyzeField d).origins) =
          ((d'.enterAll (fields.map (.written d.query.mainAlias))).tables,
            (d'.enterAll (fields.map (.written d.query.mainAlias))).origins) := by
    intro fields
    induction fields with
    | nil => exact fun _ _ h => h
    | cons f fields ih =>
        intro d d' h
        refine ih (d.analyzeField f) _ ((analyzeField_eq d f).trans ?_)
        simp only [Prod.mk.injEq] at h
        simp only [enter, noteField, h.1, h.2]
  have hrecords := hfold q.select (ofQuery q) {} rfl
  have hlist : (ofQuery q).analyze.query.selectList =
      (({} : Draft).enterAll (q.select.map (.written q.mainAlias))).query.selectList := by
    rw [selectList_enterAll, List.map_map]
    rfl
  exact Prod.ext hlist hrecords

theorem selects_addBaseField (p : Platform) (a field : String) (present : Bool) (d : Draft) :
    d.Selects (addBaseField p a field present d) (d.query.baseEntry p.schema a field present) := by
  unfold addBaseField Query.baseEntry
  simp only
  split <;> rfl

/-- Both base fields of one table.  What is selected depends on the query, which grows on the way. -/
theorem selects_addBaseField_both (p : Platform) (base : String × BaseFields) (d : Draft) :
    d.Selects
      (addBaseField p base.1 "pid" base.2.pid (addBaseField p base.1 "uid" base.2.uid d))
      (d.query.baseEntry p.schema base.1 "uid" base.2.uid ++
        d.query.baseEntry p.schema base.1 "pid" base.2.pid) := by
  have hgrows := grows_addBaseField p base.1 "uid" base.2.uid d
  have hentry := hgrows.query.kept (·.baseEntry p.schema) fun _ => rfl
  have huid := selects_addBaseField p base.1 "uid" base.2.uid d
  have hpid := selects_addBaseField p base.1 "pid" base.2.pid
    (addBaseField p base.1 "uid" base.2.uid d)
  rw [hentry] at hpid
  exact huid.trans hpid

theorem selects_addBaseFields (p : Platform) (d : Draft) :
    d.Selects (addBaseFields p d) (d.query.baseEntries p.schema) := by
  unfold addBaseFields Query.baseEntries
  generalize d.query.baseFields.entries = bases
  induction bases generalizing d with
  | nil => rfl
  | cons base bases ih =>
      have hgrows := (grows_addBaseField p base.1 "uid" base.2.uid d).trans
        (grows_addBaseField p base.1 "pid" base.2.pid _)
      have hentry := hgrows.query.kept (·.baseEntry p.schema) fun _ => rfl
      have hrest := ih
        (addBaseField p base.1 "pid" base.2.pid (addBaseField p base.1 "uid" base.2.uid d))
      rw [hentry] at hrest
      exact (selects_addBaseField_both p base d).trans hrest

theorem selection_warnDuplicates (d : Draft) : d.warnDuplicates.1.selection = d.selection := by
  unfold warnDuplicates
  split <;> rfl

/-- A text that was read fills the draft with its entries, and with those of the base fields unless the
query is DISTINCT. -/
theorem lists_of_parse {p : Platform} {text : String} {q : Query}
    (h : Query.parse p.schema (prepareText text) = .ok q) (d₀ : Draft) :
    (d₀.parse p text).1.Lists (q.listed p.schema) ∧
      (d₀.parse p text).1.query.mainAlias = q.mainAlias := by
  have hanalyzed := lists_analyze q
  -- A distinct list, refused or not, is analyzed but not completed.
  have hbase := hanalyzed.append (selects_addBaseFields p (ofQuery q).analyze)
  rw [parse_of_read h]
  split
  · next hrefused =>
      rw [Bool.and_eq_true] at hrefused
      rw [Query.listed, if_pos hrefused.1, List.append_nil]
      exact ⟨hanalyzed, rfl⟩
  · rw [Lists, selection_warnDuplicates, query_warnDuplicates, completed]
    by_cases hdistinct : q.distinct = true
    · rw [if_pos hdistinct, Query.listed, if_pos hdistinct, List.append_nil]
      exact ⟨hanalyzed, rfl⟩
    · rw [if_neg hdistinct, Query.listed, if_neg hdistinct]
      exact ⟨hbase, (grows_addBaseFields p _).query.kept Query.mainAlias fun _ => rfl⟩

/-- After an accepted text the draft is filled by the entries of its own query. -/
theorem lists_of_accepted {p : Platform} {text warning : String} {d₀ d : Draft}
    (h : d₀.parse p text = (d, .ok warning)) : d.Lists (d.query.listed p.schema) := by
  rcases of_parse h with ⟨q, hq, hbody, _⟩
  have hlisted : d.query.listed p.schema = q.listed p.schema :=
    (congrArg (fun q : Query => q.listed p.schema) hbody :)
  have hlists := (lists_of_parse hq d₀).1
  rwa [h, ← hlisted] at hlists

end Draft
end ContentQuery
