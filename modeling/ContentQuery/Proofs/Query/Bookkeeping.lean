import Mathlib.Data.List.Basic
import ContentQuery.Proofs.Chars.Names
import ContentQuery.Proofs.OrderedMap
import ContentQuery.Query.Parser

/-!
# What a query that was read knows about itself

Next to its clauses a query keeps records: which table an alias stands for, which aliases are
joined, which base fields are selected.  The invariants below say that the records of every query
that was read agree with its clauses.
-/

namespace ContentQuery

instance decidableEqExcept {ε α : Type} [DecidableEq ε] [DecidableEq α] :
    DecidableEq (Except ε α)
  | .ok a, .ok b => decidable_of_iff (a = b) (by simp)
  | .error e, .error f => decidable_of_iff (e = f) (by simp)
  | .ok _, .error _ => .isFalse (by simp)
  | .error _, .ok _ => .isFalse (by simp)

/-- What no turn of a fold changes is left by the fold. -/
theorem foldl_kept {σ α β : Type} (get : σ → β) {f : σ → α → σ}
    (h : ∀ s x, get (f s x) = get s) (xs : List α) (s : σ) : get (xs.foldl f s) = get s :=
  calc get (xs.foldl f s)
      = xs.foldl (fun b _ => b) (get s) := (List.foldl_hom get fun s x => (h s x).symm).symm
    _ = get s := List.foldl_fixed xs

namespace Query

/-! ## The steps of reading -/

theorem bind_eq_ok {ε α β : Type} {x : Except ε α} {f : α → Except ε β} {b : β} :
    x >>= f = .ok b ↔ ∃ a, x = .ok a ∧ f a = .ok b := by
  cases x with
  | error e => simp [bind, Except.bind]
  | ok a => simp [bind, Except.bind]

/-- A query that was read went through the four stages of reading. -/
theorem parse_eq_ok_iff {schema : Schema} {text : String} {q : Query} :
    parse schema text = .ok q ↔
      ∃ list rest q₀ q₁, splitStatement text.toList = .ok (list, rest) ∧
        ofTables (tablesText (Segment.ofText rest)) = .ok q₀ ∧
        (Segment.ofText rest).foldlM addClause q₀ = .ok q₁ ∧
        SelectList.parse schema list q₁ = (q, .ok ()) := by
  unfold parse
  simp only [bind_eq_ok, Prod.exists]
  constructor
  · rintro ⟨list, rest, hsplit, q₀, htables, q₁, hclauses, h⟩
    refine ⟨list, rest, q₀, q₁, hsplit, htables, hclauses, ?_⟩
    -- The SELECT list is read for its effect on the query; its error is thrown again.
    cases hlist : SelectList.parse schema list q₁ with
    | mk q₂ outcome =>
        rw [hlist] at h
        cases outcome with
        | error e => simp [throw, throwThe, MonadExceptOf.throw] at h
        | ok _ =>
            simp only [pure, Except.pure, Except.ok.injEq] at h
            rw [h]
  · rintro ⟨list, rest, q₀, q₁, hsplit, htables, hclauses, hlist⟩
    refine ⟨list, rest, hsplit, q₀, htables, q₁, hclauses, ?_⟩
    rw [hlist]
    rfl

/-- The join that a clause names. -/
def joinOf? (segment : Segment) : Option Join :=
  match segment.clause with
  | .join kind => some (.ofText kind segment.text)
  | _ => none

/-- What one clause does: it adds the join that it names, and else it adds a condition or sets what
has no record. -/
theorem addClause_cases {q q' : Query} {segment : Segment} (h : addClause q segment = .ok q') :
    (∃ kind, joinOf? segment = some (.ofText kind segment.text) ∧
        q' = q.addJoin (.ofText kind segment.text)) ∨
      joinOf? segment = none ∧ (q' = q.addCondition (String.ofList segment.text) ∨
        ∃ groupBy orderBy orderFields limit offset,
          q' = { q with groupBy, orderBy, orderFields, limit, offset }) := by
  rcases segment with ⟨clause, text⟩
  -- Whatever a clause does not set is given back as it was.
  cases clause with
  | source =>
      simp only [addClause, Except.ok.injEq] at h
      exact .inr ⟨rfl, .inr ⟨q.groupBy, q.orderBy, q.orderFields, q.limit, q.offset, h.symm⟩⟩
  | join kind =>
      simp only [addClause, Except.ok.injEq] at h
      exact .inl ⟨kind, rfl, h.symm⟩
  | condition =>
      simp only [addClause, Except.ok.injEq] at h
      exact .inr ⟨rfl, .inl h.symm⟩
  | groupBy =>
      simp only [addClause, Except.ok.injEq] at h
      exact .inr ⟨rfl, .inr ⟨_, q.orderBy, q.orderFields, q.limit, q.offset, h.symm⟩⟩
  | orderBy =>
      simp only [addClause, Except.ok.injEq] at h
      exact .inr ⟨rfl, .inr ⟨q.groupBy, _, _, q.limit, q.offset, h.symm⟩⟩
  | limit =>
      rcases bind_eq_ok.1 h with ⟨⟨limit, offset⟩, _, h⟩
      simp only [pure, Except.pure, Except.ok.injEq] at h
      exact .inr ⟨rfl, .inr ⟨q.groupBy, q.orderBy, q.orderFields, _, _, h.symm⟩⟩
  | offset =>
      rcases bind_eq_ok.1 h with ⟨offset, _, h⟩
      simp only [pure, Except.pure, Except.ok.injEq] at h
      exact .inr ⟨rfl, .inr ⟨q.groupBy, q.orderBy, q.orderFields, q.limit, _, h.symm⟩⟩

/-- A property that every clause preserves holds behind all of them. -/
theorem foldlM_addClause {P : Query → Prop} {segments : List Segment}
    (hstep : ∀ segment ∈ segments, ∀ q q', P q → addClause q segment = .ok q' → P q')
    {q q' : Query} (hq : P q) (h : segments.foldlM addClause q = .ok q') : P q' := by
  induction segments generalizing q with
  | nil =>
      cases h
      exact hq
  | cons segment segments ih =>
      rw [List.foldlM_cons, bind_eq_ok] at h
      rcases h with ⟨q₁, hone, hrest⟩
      exact ih (fun s hs => hstep s (by simp [hs])) (hstep segment (by simp) q q₁ hq hone) hrest

end Query

/-! ## Aliases -/

/-- The records on aliases agree with the tables and joins of a query. -/
structure Query.WellKept (q : Query) : Prop where
  main : q.mainAlias = q.source.aliasName
  keyed : ∀ {a join}, q.joins.get? a = some join → join.aliasName = a
  aliases : q.subtableAliases = q.joins.keys
  joined : ∀ {a join}, q.joins.get? a = some join → q.table? a = some join.table
  mainTable : q.mainAlias ∉ q.joins.keys → q.table? q.mainAlias = some q.source.table
  covered : ∀ {a}, a ∈ q.tableOfAlias.keys ↔ a = q.mainAlias ∨ a ∈ q.joins.keys
  trimmed : ∀ {a}, a ∈ q.tableOfAlias.keys → Text.trim a = a

namespace Query

/-- The parts of a query that the records are about, and the records. -/
def aliasRecords (q : Query) :
    TableRef × String × OrderedMap String Join × OrderedMap String String × List String :=
  (q.source, q.mainAlias, q.joins, q.tableOfAlias, q.subtableAliases)

/-- Whatever leaves tables, joins and records keeps them in agreement. -/
theorem WellKept.congr {q q' : Query} (hq : q.WellKept)
    (h : q'.aliasRecords = q.aliasRecords) : q'.WellKept := by
  simp only [aliasRecords, Prod.mk.injEq] at h
  rcases h with ⟨hsource, hmain, hjoins, htables, haliases⟩
  have htable : ∀ a, q'.table? a = q.table? a := fun a => by rw [table?, htables, table?]
  constructor
  case main => rw [hmain, hsource, hq.main]
  case keyed =>
    rw [hjoins]
    exact hq.keyed
  case aliases => rw [haliases, hjoins, hq.aliases]
  case joined =>
    intro a join
    rw [hjoins, htable]
    exact hq.joined
  case mainTable =>
    rw [hmain, hjoins, htable, hsource]
    exact hq.mainTable
  case covered =>
    rw [htables, hmain, hjoins]
    exact hq.covered
  case trimmed =>
    rw [htables]
    exact hq.trimmed

/-! ### Trimmed aliases -/

theorem text_trim_ofList (s : List Char) :
    Text.trim (String.ofList s) = String.ofList (Chars.trim s) := by
  rw [Text.trim, String.toList_ofList]

theorem splitAtKeyword_trimmed (word : Keyword) (text : List Char) :
    Chars.trim (Scan.splitAtKeyword word text).1 = (Scan.splitAtKeyword word text).1 ∧
      ∀ right ∈ (Scan.splitAtKeyword word text).2, Chars.trim right = right := by
  unfold Scan.splitAtKeyword
  split
  · refine ⟨Chars.trim_trim _, ?_⟩
    rintro right hright
    cases hright
    exact Chars.trim_trim _
  · exact ⟨Chars.trim_trim _, by simp⟩

theorem trim_aliasName_ofText (text : List Char) :
    Text.trim (TableRef.ofText text).aliasName = (TableRef.ofText text).aliasName := by
  have hsides := splitAtKeyword_trimmed .as text
  unfold TableRef.ofText
  simp only
  split
  · next c cs hright => rw [text_trim_ofList, hsides.2 _ hright]
  · rw [text_trim_ofList, hsides.1]

theorem trim_aliasName_join (kind : JoinKind) (text : List Char) :
    Text.trim (Join.ofText kind text).aliasName = (Join.ofText kind text).aliasName := by
  unfold Join.ofText
  simp only
  split <;> exact trim_aliasName_ofText _

/-! ### Every stage keeps the records -/

theorem wellKept_setMainTable {ref : TableRef} (href : Text.trim ref.aliasName = ref.aliasName) :
    (setMainTable {} ref).WellKept := by
  have hkeys : (setMainTable {} ref).tableOfAlias.keys = [ref.aliasName] :=
    OrderedMap.keys_insert ∅ ref.aliasName ref.table
  constructor
  case main => rfl
  case keyed =>
    intro a join h
    simp [setMainTable] at h
  case aliases => rfl
  case joined =>
    intro a join h
    simp [setMainTable] at h
  case mainTable =>
    intro _
    show (OrderedMap.insert ∅ ref.aliasName ref.table).get? ref.aliasName = some ref.table
    rw [OrderedMap.get?_insert, if_pos rfl]
  case covered =>
    intro a
    rw [hkeys]
    simp [setMainTable]
  case trimmed =>
    intro a ha
    rw [hkeys, List.mem_singleton] at ha
    rw [ha, href]

/-- A further join overwrites the records of its alias together. -/
theorem WellKept.addJoin {q : Query} (hq : q.WellKept) {join : Join}
    (hjoin : Text.trim join.aliasName = join.aliasName) : (q.addJoin join).WellKept := by
  have hkeys : (q.addJoin join).joins.keys =
      if join.aliasName ∈ q.joins.keys then q.joins.keys
      else q.joins.keys ++ [join.aliasName] :=
    OrderedMap.keys_insert q.joins join.aliasName join
  have hget : ∀ a, (q.addJoin join).joins.get? a =
      if a = join.aliasName then some join else q.joins.get? a :=
    fun a => OrderedMap.get?_insert q.joins join.aliasName a join
  have htable : ∀ a, (q.addJoin join).table? a =
      if a = join.aliasName then some join.table else q.table? a :=
    fun a => OrderedMap.get?_insert q.tableOfAlias join.aliasName a join.table
  have hmem : ∀ a, a ∈ (q.addJoin join).joins.keys ↔ a ∈ q.joins.keys ∨ a = join.aliasName :=
    fun a => OrderedMap.mem_keys_upsert
  have htables : ∀ a, a ∈ (q.addJoin join).tableOfAlias.keys ↔
      a ∈ q.tableOfAlias.keys ∨ a = join.aliasName :=
    fun a => OrderedMap.mem_keys_upsert
  -- Under its alias the new join is found, under any other one what was there before.
  constructor
  case main => exact hq.main
  case keyed =>
    intro a j hj
    rw [hget] at hj
    split at hj
    · next ha =>
        cases hj
        exact ha.symm
    · exact hq.keyed hj
  case aliases =>
    rw [hkeys]
    simp only [Query.addJoin, hq.aliases]
  case joined =>
    intro a j hj
    rw [hget] at hj
    rw [htable]
    split at hj
    · next ha =>
        cases hj
        rw [if_pos ha]
    · next ha =>
        rw [if_neg ha]
        exact hq.joined hj
  case mainTable =>
    intro hmain
    rw [hmem, not_or] at hmain
    have hmain' : (q.addJoin join).mainAlias = q.mainAlias := rfl
    rw [htable, if_neg hmain.2]
    exact hq.mainTable hmain.1
  case covered =>
    intro a
    have hmain : (q.addJoin join).mainAlias = q.mainAlias := rfl
    rw [htables, hmem, hmain, hq.covered, or_assoc]
  case trimmed =>
    intro a ha
    rcases (htables a).1 ha with ha | rfl
    · exact hq.trimmed ha
    · exact hjoin

theorem WellKept.addCondition {q : Query} (hq : q.WellKept) (text : String) :
    (q.addCondition text).WellKept := by
  unfold Query.addCondition
  simp only
  split
  · exact hq
  · exact hq.congr rfl

theorem wellKept_ofTables {text : List Char} {q : Query} (h : ofTables text = .ok q) :
    q.WellKept := by
  -- The first table is the main one, the others are joined without a condition.
  unfold ofTables at h
  cases hparts : Scan.splitTopLevel ',' text with
  | nil => simp [hparts] at h
  | cons part parts =>
      rw [hparts] at h
      cases h
      refine List.foldlRecOn (motive := WellKept) _ _
        (wellKept_setMainTable (trim_aliasName_ofText part)) fun q hq ref href => ?_
      rcases List.mem_map.1 href with ⟨part, _, rfl⟩
      exact hq.addJoin (trim_aliasName_ofText part)

theorem WellKept.addClause {q q' : Query} {segment : Segment} (hq : q.WellKept)
    (h : addClause q segment = .ok q') : q'.WellKept := by
  rcases addClause_cases h with
    ⟨kind, _, h⟩ | ⟨_, h | ⟨groupBy, orderBy, orderFields, limit, offset, h⟩⟩
  · rw [h]
    exact hq.addJoin (trim_aliasName_join _ _)
  · rw [h]
    exact hq.addCondition _
  · rw [h]
    exact hq.congr rfl

theorem wellKept_of_clauses {text : List Char} {segments : List Segment} {q₀ q₁ : Query}
    (htables : ofTables text = .ok q₀) (hclauses : segments.foldlM addClause q₀ = .ok q₁) :
    q₁.WellKept :=
  foldlM_addClause (fun _ _ _ _ hq hone => hq.addClause hone) (wellKept_ofTables htables) hclauses

/-! ## SELECT lists -/

/-- A query without everything that its SELECT list adds. -/
def withoutList (q : Query) : Query :=
  { q with
    distinct := false
    select := []
    baseFields := ∅
    fieldAliases := ∅
    aliasExpressions := ∅
    placeholders := ∅ }

theorem tableOf_withoutList (q : Query) (a : String) : q.withoutList.tableOf a = q.tableOf a :=
  rfl

theorem tableOf_congr {q q' : Query} (h : q'.withoutList = q.withoutList) (a : String) :
    q'.tableOf a = q.tableOf a := by
  rw [← tableOf_withoutList q', h, tableOf_withoutList]

section AddField

variable (q : Query) (f : SelectField)

/-- A field is appended to the selection, and recorded under its name and its alias. -/
theorem addField_eq :
    SelectList.addField q f =
      { q with
        select := q.select ++ [f]
        baseFields := (q.noteResultName f.tableAlias f.resultName).baseFields
        fieldAliases := f.aliasName.elim q.fieldAliases fun aliasName =>
          q.fieldAliases.upsert f.tableAlias fun old => (old.getD ∅).insert f.field aliasName
        aliasExpressions := f.aliasName.elim q.aliasExpressions fun aliasName =>
          q.aliasExpressions.insert aliasName f.expression } := by
  unfold SelectList.addField
  cases f.aliasName <;> rfl

theorem withoutList_addField : (SelectList.addField q f).withoutList = q.withoutList := by
  rw [addField_eq]
  rfl

theorem select_addField : (SelectList.addField q f).select = q.select ++ [f] := by
  rw [addField_eq]

theorem distinct_addField : (SelectList.addField q f).distinct = q.distinct := by
  rw [addField_eq]

theorem placeholders_addField : (SelectList.addField q f).placeholders = q.placeholders := by
  rw [addField_eq]

theorem baseFields_addField :
    (SelectList.addField q f).baseFields =
      (q.noteResultName f.tableAlias f.resultName).baseFields := by
  rw [addField_eq]

theorem aliasExpressions_addField :
    (SelectList.addField q f).aliasExpressions = f.aliasName.elim q.aliasExpressions fun aliasName =>
      q.aliasExpressions.insert aliasName f.expression := by
  rw [addField_eq]

end AddField

/-- Adding fields appends them to the selection and changes nothing but the records on fields. -/
theorem foldl_addField (fields : List SelectField) (q : Query) :
    (fields.foldl SelectList.addField q).withoutList = q.withoutList ∧
      (fields.foldl SelectList.addField q).select = q.select ++ fields ∧
      (fields.foldl SelectList.addField q).distinct = q.distinct ∧
      (fields.foldl SelectList.addField q).placeholders = q.placeholders := by
  induction fields generalizing q with
  | nil => simp
  | cons f fs ih =>
      rcases ih (SelectList.addField q f) with ⟨hwithout, hselect, hdistinct, hplaceholders⟩
      refine ⟨hwithout.trans (withoutList_addField q f), ?_,
        hdistinct.trans (distinct_addField q f), hplaceholders.trans (placeholders_addField q f)⟩
      rw [List.foldl_cons, hselect, select_addField]
      simp

/-- What one column of a wildcard adds. -/
def addColumn (table aliasName : String) (q : Query) (column : String) : Query :=
  let q := q.noteResultName aliasName column
  { q with
    select := q.select ++
      [{ table, tableAlias := aliasName, field := column, aliasName := none, isCall := false }] }

theorem withoutList_addColumns (table aliasName : String) (columns : List String) (q : Query) :
    (columns.foldl (addColumn table aliasName) q).withoutList = q.withoutList := by
  induction columns generalizing q with
  | nil => rfl
  | cons column columns ih => exact ih _

theorem withoutList_expandWildcard (schema : Schema) (q : Query) (expression : String) :
    (SelectList.expandWildcard schema q expression).withoutList = q.withoutList :=
  withoutList_addColumns _ _ _ _

theorem isCall_registerFulltext (q : Query) (f : SelectField) :
    (SelectList.registerFulltext q f).2.isCall = f.isCall := by
  unfold SelectList.registerFulltext
  split <;> rfl

/-- A call without an alias gets one. -/
theorem aliasName_fieldOf {q : Query} {calls : Nat} {spec : FieldSpec}
    (hcall : (SelectList.fieldOf q calls spec).isCall = true) :
    (SelectList.fieldOf q calls spec).aliasName.isSome = true := by
  unfold SelectList.fieldOf at hcall ⊢
  by_cases hspec : spec.isCall = true
  · simp [hspec]
  · rw [if_neg hspec] at hcall
    split at hcall <;> cases hcall

/-- A fulltext entry comes with a placeholder, and nothing else of the query changes. -/
theorem exists_registerFulltext (q : Query) (f : SelectField) :
    ∃ placeholders, (SelectList.registerFulltext q f).1 = { q with placeholders } := by
  unfold SelectList.registerFulltext
  split
  · exact ⟨_, rfl⟩
  · exact ⟨q.placeholders, rfl⟩

/-- An entry either expands a wildcard or adds one field, possibly with a fulltext placeholder.  A
function call always has an alias. -/
theorem resolve_cases (schema : Schema) (state : Nat × Query) (spec : FieldSpec) :
    (SelectList.resolve schema state spec).2 =
        SelectList.expandWildcard schema state.2 spec.expression ∨
      ∃ placeholders f, (f.isCall = true → f.aliasName.isSome = true) ∧
        (SelectList.resolve schema state spec).2 =
          SelectList.addField { state.2 with placeholders } f := by
  rcases state with ⟨calls, q⟩
  by_cases hwildcard : spec.isWildcard = true
  · exact .inl (by simp [SelectList.resolve, hwildcard])
  · simp only [SelectList.resolve, if_neg hwildcard]
    generalize (if spec.isCall = true then calls + 1 else calls) = count
    -- A call is added as it is, a column may be a fulltext placeholder.
    by_cases hcall : (SelectList.fieldOf q count spec).isCall = true
    · rw [if_pos hcall]
      exact .inr ⟨q.placeholders, _, fun _ => aliasName_fieldOf hcall, rfl⟩
    · rw [if_neg hcall]
      rcases exists_registerFulltext q (SelectList.fieldOf q count spec) with ⟨placeholders, hq⟩
      refine .inr ⟨placeholders, _, fun h => ?_, by rw [← hq]⟩
      rw [isCall_registerFulltext] at h
      exact absurd h hcall

theorem withoutList_resolve (schema : Schema) (state : Nat × Query) (spec : FieldSpec) :
    (SelectList.resolve schema state spec).2.withoutList = state.2.withoutList := by
  rcases resolve_cases schema state spec with h | ⟨placeholders, f, _, h⟩
  · rw [h, withoutList_expandWildcard]
  · rw [h, withoutList_addField]
    rfl

theorem withoutList_resolveAll (schema : Schema) (specs : List FieldSpec) (state : Nat × Query) :
    (specs.foldl (SelectList.resolve schema) state).2.withoutList = state.2.withoutList := by
  induction specs generalizing state with
  | nil => rfl
  | cons spec specs ih => rw [List.foldl_cons, ih, withoutList_resolve]

/-- A SELECT list that was read is the fold of its entries. -/
theorem exists_specs_of_parse {schema : Schema} {text : List Char} {q q' : Query}
    (h : SelectList.parse schema text q = (q', .ok ())) :
    ∃ (specs : List FieldSpec) (distinct : Bool),
      q' = (specs.foldl (SelectList.resolve schema)
        (0, { q with distinct := q.distinct || distinct })).2 := by
  unfold SelectList.parse at h
  simp only at h
  split at h
  · simp at h
  · split at h
    · next specs _ =>
        cases h
        exact ⟨specs, _, rfl⟩
    · simp at h

theorem withoutList_parse {schema : Schema} {text : List Char} {q q' : Query}
    (h : SelectList.parse schema text q = (q', .ok ())) : q'.withoutList = q.withoutList := by
  rcases exists_specs_of_parse h with ⟨specs, distinct, rfl⟩
  exact withoutList_resolveAll schema specs _

/-- The records of every query that was read agree with its tables and joins. -/
theorem wellKept_of_parse {schema : Schema} {text : String} {q : Query}
    (h : parse schema text = .ok q) : q.WellKept := by
  rcases parse_eq_ok_iff.1 h with ⟨list, rest, q₀, q₁, _, htables, hclauses, hlist⟩
  have hrecords : q.withoutList.aliasRecords = q₁.withoutList.aliasRecords :=
    congrArg aliasRecords (withoutList_parse hlist)
  exact (wellKept_of_clauses htables hclauses).congr hrecords

/-! ## Base fields -/

/-- A table with a record of base fields has an entry in the SELECT list, unless a wildcard found
no column of it. -/
def BaseFieldsKept (schema : Schema) (q : Query) : Prop :=
  ∀ a ∈ q.baseFields.keys,
    (∃ f ∈ q.select, f.tableAlias = a) ∨ schema.columns (q.tableOf a) = []

/-- An entry of the SELECT list that comes with a record of its table keeps the records. -/
theorem BaseFieldsKept.select {schema : Schema} {q q' : Query} {f : SelectField}
    (hq : BaseFieldsKept schema q)
    (hkeys : ∀ a ∈ q'.baseFields.keys, a ∈ q.baseFields.keys ∨ a = f.tableAlias)
    (hselect : q'.select = q.select ++ [f]) (hsame : q'.withoutList = q.withoutList) :
    BaseFieldsKept schema q' := by
  intro a ha
  rw [tableOf_congr hsame, hselect]
  rcases hkeys a ha with ha | rfl
  · rcases hq a ha with ⟨g, hg, hga⟩ | hcolumns
    · exact .inl ⟨g, by simp [hg], hga⟩
    · exact .inr hcolumns
  · exact .inl ⟨f, by simp, rfl⟩

theorem mem_baseFields_addField {q : Query} {f : SelectField} {a : String} :
    a ∈ (SelectList.addField q f).baseFields.keys ↔ a ∈ q.baseFields.keys ∨ a = f.tableAlias := by
  rw [baseFields_addField]
  exact OrderedMap.mem_keys_upsert

theorem baseFieldsKept_addField {schema : Schema} {q : Query} (hq : BaseFieldsKept schema q)
    (f : SelectField) : BaseFieldsKept schema (SelectList.addField q f) :=
  hq.select (fun _ => mem_baseFields_addField.1) (select_addField q f) (withoutList_addField q f)

theorem baseFieldsKept_addColumns {schema : Schema} (table aliasName : String)
    (columns : List String) {q : Query} (hq : BaseFieldsKept schema q) :
    BaseFieldsKept schema (columns.foldl (addColumn table aliasName) q) := by
  refine List.foldlRecOn columns _ hq fun q hq column _ => hq.select
    (f := { table, tableAlias := aliasName, field := column, aliasName := none, isCall := false })
    ?_ rfl rfl
  exact fun a ha => OrderedMap.mem_keys_upsert.1 ha

/-- The columns of a table come with a record of its alias. -/
theorem baseFieldsKept_columns {schema : Schema} {q : Query} (hq : BaseFieldsKept schema q)
    (aliasName : String) :
    BaseFieldsKept schema
      ((schema.columns (q.tableOf aliasName)).foldl (addColumn (q.tableOf aliasName) aliasName)
        (q.touchBaseFields aliasName)) := by
  have htouch : ∀ a ∈ (q.touchBaseFields aliasName).baseFields.keys,
      a ∈ q.baseFields.keys ∨ a = aliasName :=
    fun a ha => OrderedMap.mem_keys_upsert.1 ha
  cases hcolumns : schema.columns (q.tableOf aliasName) with
  | nil =>
      intro a ha
      rcases htouch a ha with ha | rfl
      · exact hq a ha
      · exact .inr hcolumns
  | cons column columns =>
      -- The first column brings the entry that the new record asks for.
      refine baseFieldsKept_addColumns _ _ columns (hq.select
        (f := { table := q.tableOf aliasName, tableAlias := aliasName, field := column,
                aliasName := none, isCall := false }) ?_ rfl rfl)
      intro a ha
      rcases OrderedMap.mem_keys_upsert.1 ha with ha | rfl
      · exact htouch a ha
      · exact .inr rfl

theorem baseFieldsKept_expandWildcard {schema : Schema} {q : Query}
    (hq : BaseFieldsKept schema q) (expression : String) :
    BaseFieldsKept schema (SelectList.expandWildcard schema q expression) :=
  baseFieldsKept_columns hq _

/-- The parts of a query that only its SELECT list fills. -/
def listRecords (q : Query) :
    Bool × List SelectField × List String × OrderedMap String BaseFields ×
      OrderedMap String (OrderedMap String String) × OrderedMap String String ×
      OrderedMap String String :=
  (q.distinct, q.select, q.selectList, q.baseFields, q.fieldAliases, q.aliasExpressions,
    q.placeholders)

/-- No table or clause brings anything of a SELECT list. -/
theorem listRecords_of_clauses {text : List Char} {segments : List Segment} {q₀ q₁ : Query}
    (htables : ofTables text = .ok q₀) (hclauses : segments.foldlM addClause q₀ = .ok q₁) :
    q₁.listRecords = ({} : Query).listRecords := by
  have h₀ : q₀.listRecords = ({} : Query).listRecords := by
    unfold ofTables at htables
    split at htables
    · simp at htables
    · cases htables
      exact foldl_kept listRecords (f := fun q ref => q.addJoin (.bare .inner ref))
        (fun _ _ => rfl) _ _
  -- None of the things that a clause may do is about fields.
  refine foldlM_addClause (P := fun q => q.listRecords = ({} : Query).listRecords) ?_ h₀ hclauses
  intro segment _ q q' hq h
  rcases addClause_cases h with
    ⟨kind, _, h⟩ | ⟨_, h | ⟨groupBy, orderBy, orderFields, limit, offset, h⟩⟩
  · rw [h]
    exact hq
  · rw [h]
    unfold Query.addCondition
    simp only
    split <;> exact hq
  · rw [h]
    exact hq

/-- What fields and wildcards preserve holds of a query that was read, if it holds of every query
without anything of a SELECT list. -/
theorem parse_induction {schema : Schema} {P : Query → Prop}
    (hfield : ∀ (q : Query) placeholders f, (f.isCall = true → f.aliasName.isSome = true) → P q →
      P (SelectList.addField { q with placeholders } f))
    (hwildcard : ∀ (q : Query) expression, P q → P (SelectList.expandWildcard schema q expression))
    (hstart : ∀ q : Query, q.listRecords.2 = ({} : Query).listRecords.2 → P q)
    {text : String} {q : Query} (h : parse schema text = .ok q) : P q := by
  rcases parse_eq_ok_iff.1 h with ⟨list, rest, q₀, q₁, _, htables, hclauses, hlist⟩
  rcases exists_specs_of_parse hlist with ⟨specs, distinct, rfl⟩
  have hrecords : q₁.listRecords.2 = ({} : Query).listRecords.2 :=
    congrArg Prod.snd (listRecords_of_clauses htables hclauses)
  refine List.foldlRecOn (motive := fun state : Nat × Query => P state.2) specs _
    (hstart _ hrecords) fun state hstate spec _ => ?_
  rcases resolve_cases schema state spec with h | ⟨placeholders, f, hnamed, h⟩
  · rw [h]
    exact hwildcard state.2 spec.expression hstate
  · rw [h]
    exact hfield state.2 placeholders f hnamed hstate

theorem baseFieldsKept_of_parse {schema : Schema} {text : String} {q : Query}
    (h : parse schema text = .ok q) : BaseFieldsKept schema q := by
  refine parse_induction (P := BaseFieldsKept schema)
    (fun q placeholders f _ hq => baseFieldsKept_addField ?_ f)
    (fun _ expression hq => baseFieldsKept_expandWildcard hq expression) ?_ h
  · exact hq
  · intro q hrecords a ha
    simp only [listRecords, Prod.mk.injEq] at hrecords
    rw [hrecords.2.2.1] at ha
    simp at ha

/-- Every entry of the SELECT list has a record of the base fields of its table. -/
def EntriesNoted (q : Query) : Prop :=
  ∀ f ∈ q.select, f.tableAlias ∈ q.baseFields.keys

/-- An entry that comes with the record of its table has one, and the others keep theirs. -/
theorem EntriesNoted.select {q q' : Query} {f : SelectField} (hq : q.EntriesNoted)
    (hkeys : ∀ a, a ∈ q'.baseFields.keys ↔ a ∈ q.baseFields.keys ∨ a = f.tableAlias)
    (hselect : q'.select = q.select ++ [f]) : q'.EntriesNoted := by
  intro g hg
  rw [hselect, List.mem_append, List.mem_singleton] at hg
  rw [hkeys]
  rcases hg with hg | rfl
  · exact .inl (hq g hg)
  · exact .inr rfl

theorem entriesNoted_expandWildcard (schema : Schema) {q : Query} (hq : q.EntriesNoted)
    (expression : String) : (SelectList.expandWildcard schema q expression).EntriesNoted := by
  -- The record is started before the first column.
  have htouched : ∀ aliasName, (q.touchBaseFields aliasName).EntriesNoted :=
    fun aliasName f hf => OrderedMap.mem_keys_upsert.2 (.inl (hq f hf))
  refine List.foldlRecOn (motive := EntriesNoted) _ _ (htouched _) fun q hq column _ => ?_
  exact hq.select (fun _ => OrderedMap.mem_keys_upsert) rfl

theorem entriesNoted_of_parse {schema : Schema} {text : String} {q : Query}
    (h : parse schema text = .ok q) : q.EntriesNoted := by
  refine parse_induction (P := EntriesNoted) (fun q placeholders f _ hq => ?_)
    (fun _ expression hq => entriesNoted_expandWildcard schema hq expression) ?_ h
  · have hsame : ({ q with placeholders } : Query).EntriesNoted := hq
    exact hsame.select (fun _ => mem_baseFields_addField) (select_addField _ f)
  · intro q hrecords f hf
    simp only [listRecords, Prod.mk.injEq] at hrecords
    rw [hrecords.1] at hf
    simp at hf

/-- Every function call in the SELECT list has an alias. -/
def CallsNamed (q : Query) : Prop :=
  ∀ f ∈ q.select, f.isCall = true → f.aliasName.isSome = true

theorem CallsNamed.select {q q' : Query} {f : SelectField} (hq : q.CallsNamed)
    (hf : f.isCall = true → f.aliasName.isSome = true) (hselect : q'.select = q.select ++ [f]) :
    q'.CallsNamed := by
  intro g hg
  rw [hselect, List.mem_append, List.mem_singleton] at hg
  rcases hg with hg | rfl
  · exact hq g hg
  · exact hf

theorem callsNamed_of_parse {schema : Schema} {text : String} {q : Query}
    (h : parse schema text = .ok q) : q.CallsNamed := by
  refine parse_induction (P := CallsNamed) (fun q placeholders f hnamed hq => ?_)
    (fun q expression hq => ?_) ?_ h
  · have hsame : ({ q with placeholders } : Query).CallsNamed := hq
    exact hsame.select hnamed (select_addField _ f)
  · -- The columns of a wildcard are no calls.
    refine List.foldlRecOn (motive := CallsNamed) _ _ hq fun q hq column _ => ?_
    exact hq.select (by simp) rfl
  · intro q hrecords f hf
    simp only [listRecords, Prod.mk.injEq] at hrecords
    rw [hrecords.1] at hf
    simp at hf

/-! ## Aliases of fields -/

/-- The alias of the last entry that selects a field under one. -/
def lastAlias? (q : Query) (a field : String) : Option String :=
  ((q.select.filter fun f => f.tableAlias = a ∧ f.field = field).filterMap (·.aliasName)).getLast?

theorem mem_of_lastAlias? {q : Query} {a field name : String}
    (h : q.lastAlias? a field = some name) :
    ∃ f ∈ q.select, f.tableAlias = a ∧ f.field = field ∧ f.aliasName = some name := by
  rcases List.mem_filterMap.1 (List.mem_of_getLast? h) with ⟨f, hf, hname⟩
  rw [List.mem_filter, decide_eq_true_eq] at hf
  exact ⟨f, hf.1, hf.2.1, hf.2.2, hname⟩

theorem lastAlias?_eq_none_iff {q : Query} {a field : String} :
    q.lastAlias? a field = none ↔
      ∀ f ∈ q.select, f.tableAlias = a → f.field = field → f.aliasName = none := by
  rw [lastAlias?, List.getLast?_eq_none_iff, List.filterMap_eq_nil_iff]
  simp

theorem lastAlias?_append {q q' : Query} {f : SelectField} (h : q'.select = q.select ++ [f])
    (a field : String) :
    q'.lastAlias? a field =
      if f.tableAlias = a ∧ f.field = field then f.aliasName.or (q.lastAlias? a field)
      else q.lastAlias? a field := by
  rw [lastAlias?, h, List.filter_append, List.filterMap_append, lastAlias?]
  split
  · next hplace =>
      have hone : [f].filter (fun f => f.tableAlias = a ∧ f.field = field) = [f] :=
        List.filter_cons_of_pos (decide_eq_true hplace)
      rw [hone]
      cases haliasName : f.aliasName <;> simp [haliasName]
  · next hplace =>
      have hnone : [f].filter (fun f => f.tableAlias = a ∧ f.field = field) = [] :=
        List.filter_cons_of_neg (by simpa using hplace)
      rw [hnone, List.filterMap_nil, List.append_nil]

theorem fieldAlias?_addField (q : Query) (f : SelectField) (a field : String) :
    (SelectList.addField q f).fieldAlias? a field =
      if f.tableAlias = a ∧ f.field = field then f.aliasName.or (q.fieldAlias? a field)
      else q.fieldAlias? a field := by
  rw [addField_eq]
  cases f.aliasName with
  | none => exact (ite_self _).symm
  | some aliasName =>
      simp only [fieldAlias?, Option.elim_some, Option.some_or, OrderedMap.get?_upsert]
      by_cases ha : f.tableAlias = a
      · subst ha
        cases q.fieldAliases.get? f.tableAlias <;>
          simp [OrderedMap.get?_insert, @eq_comm _ field]
      · simp [ha, Ne.symm ha]

/-- The alias on record for a field is that of the last entry that selects it under one. -/
theorem fieldAlias?_of_parse {schema : Schema} {text : String} {q : Query}
    (h : parse schema text = .ok q) : q.fieldAlias? = q.lastAlias? := by
  refine parse_induction (P := fun q => q.fieldAlias? = q.lastAlias?)
    (fun q placeholders f _ hq => ?_) (fun q expression hq => ?_) ?_ h
  · have hsame : ({ q with placeholders } : Query).fieldAlias? =
        ({ q with placeholders } : Query).lastAlias? := hq
    funext a field
    rw [fieldAlias?_addField, lastAlias?_append (select_addField _ f), hsame]
  · -- The columns of a wildcard carry no alias.
    refine List.foldlRecOn (motive := fun q : Query => q.fieldAlias? = q.lastAlias?) _ _ hq
      fun q hq column _ => ?_
    funext a field
    rw [lastAlias?_append rfl, Option.none_or, ite_self]
    exact congrFun (congrFun hq a) field
  · intro q hrecords
    simp only [listRecords, Prod.mk.injEq] at hrecords
    funext a field
    rw [lastAlias?, hrecords.1, fieldAlias?, hrecords.2.2.2.1]
    rfl

end Query
end ContentQuery
