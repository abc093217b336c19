import ContentQuery.Proofs.Query.Bookkeeping

/-!
# What a SELECT list adds

Each piece of a SELECT list makes a selection: the fields that it adds, the table alias it is about,
and perhaps a fulltext placeholder.  A selection depends on the tables of the query and on the
number of calls up to it, and on nothing that the pieces before it have added.  So reading a list is
to make its selections, and then to enter them one after the other.
-/

namespace ContentQuery

/-! ## Records of base fields -/

theorem OrderedMap.upsertEntries_twice {α β : Type} [DecidableEq α] (k : α)
    {f g : Option β → β} (h : ∀ old, f (some (g old)) = f old) (es : List (α × β)) :
    upsertEntries k f (upsertEntries k g es) = upsertEntries k f es := by
  induction es with
  | nil => simp [upsertEntries, h]
  | cons e es ih =>
      rcases e with ⟨a, b⟩
      by_cases ha : a = k
      · simp [upsertEntries, ha, h]
      · simp [upsertEntries, ha, ih]

namespace Query

/-- A record need not be started before a name is noted in it. -/
theorem noteResultName_touchBaseFields (q : Query) (aliasName name : String) :
    (q.touchBaseFields aliasName).noteResultName aliasName name =
      q.noteResultName aliasName name := by
  unfold noteResultName touchBaseFields
  congr 1
  exact OrderedMap.eq_of_entries (OrderedMap.upsertEntries_twice aliasName (fun _ => rfl) _)

end Query

/-! ## Selections -/

/-- What one piece of a SELECT list adds to a query. -/
structure Selection where
  tableAlias : String
  fields : List SelectField
  placeholder? : Option String
deriving DecidableEq, Repr

/-- Adds the fields of a selection to a query, with the record of its table and its placeholder. -/
def Query.enter (q : Query) (s : Selection) : Query :=
  let q := match s.placeholder? with
    | some key => { q with placeholders := q.placeholders.insert key "1" }
    | none => q
  s.fields.foldl SelectList.addField (q.touchBaseFields s.tableAlias)

theorem Query.enter_eq (q : Query) (s : Selection) :
    q.enter s = s.fields.foldl SelectList.addField
      (touchBaseFields
        { q with
          placeholders := s.placeholder?.elim q.placeholders fun key =>
            q.placeholders.insert key "1" }
        s.tableAlias) := by
  unfold enter
  cases s.placeholder? <;> rfl

namespace SelectList

/-- The alias whose columns a wildcard stands for. -/
def wildcardAlias (q : Query) (expression : String) : String :=
  match Text.stripTrailing? ".*" expression with
  | some aliasName => Text.trim aliasName
  | none => q.mainAlias

/-- The columns of a table, selected under one of its aliases. -/
def columnsUnder (schema : Schema) (table aliasName : String) : List SelectField :=
  (schema.columns table).map fun column =>
    { table, tableAlias := aliasName, field := column, aliasName := none, isCall := false }

/-- A field by itself, or in place of a fulltext entry with the placeholder for it. -/
def selectionOf (f : SelectField) : Selection :=
  match (if f.isCall then none else fulltextIndex? f.field) with
  | some index =>
      { tableAlias := f.tableAlias, fields := [{ f with field := "fulltext." ++ index }]
        placeholder? := some (placeholderKey f.tableAlias index) }
  | none => { tableAlias := f.tableAlias, fields := [f], placeholder? := none }

/-- What a piece selects; `calls` counts the calls up to it. -/
def selection (schema : Schema) (q : Query) (calls : Nat) (spec : FieldSpec) : Selection :=
  if spec.isWildcard then
    let aliasName := wildcardAlias q spec.expression
    { tableAlias := aliasName, fields := columnsUnder schema (q.tableOf aliasName) aliasName
      placeholder? := none }
  else selectionOf (fieldOf q calls spec)

/-- The number of calls up to a piece, if there are `calls` before it. -/
def callsUpTo (calls : Nat) (spec : FieldSpec) : Nat :=
  if !spec.isWildcard && spec.isCall then calls + 1 else calls

/-- What the pieces of a list select, if there are `calls` calls before them. -/
def selections (schema : Schema) (q : Query) : (calls : Nat) → List FieldSpec → List Selection
  | _, [] => []
  | calls, spec :: specs =>
      selection schema q (callsUpTo calls spec) spec ::
        selections schema q (callsUpTo calls spec) specs

variable {schema : Schema} {q q' : Query} {calls : Nat}

/-! ## Entering -/

theorem addField_touchBaseFields (q : Query) (f : SelectField) :
    addField (q.touchBaseFields f.tableAlias) f = addField q f := by
  unfold addField
  rw [Query.noteResultName_touchBaseFields]

theorem enter_columns (schema : Schema) (q : Query) (table aliasName : String) :
    q.enter { tableAlias := aliasName, fields := columnsUnder schema table aliasName,
              placeholder? := none } =
      (schema.columns table).foldl (Query.addColumn table aliasName)
        (q.touchBaseFields aliasName) := by
  rw [Query.enter, columnsUnder, List.foldl_map]
  rfl

theorem enter_selectionOf (q : Query) (f : SelectField) :
    q.enter (selectionOf f) =
      if f.isCall then addField q f
      else addField (registerFulltext q f).1 (registerFulltext q f).2 := by
  by_cases hcall : f.isCall = true
  · rw [selectionOf, if_pos hcall, if_pos hcall]
    exact addField_touchBaseFields q f
  · rw [selectionOf, if_neg hcall, if_neg hcall, registerFulltext]
    cases fulltextIndex? f.field with
    | none => exact addField_touchBaseFields q f
    | some index => exact addField_touchBaseFields _ { f with field := "fulltext." ++ index }

/-- Resolving a piece is to enter its selection. -/
theorem resolve_eq_enter (schema : Schema) (q : Query) (calls : Nat) (spec : FieldSpec) :
    resolve schema (calls, q) spec =
      (callsUpTo calls spec, q.enter (selection schema q (callsUpTo calls spec) spec)) := by
  unfold resolve selection callsUpTo
  cases hwildcard : spec.isWildcard with
  | true =>
      simp only [if_true, Bool.not_true, Bool.false_and, Bool.false_eq_true, if_false]
      rw [enter_columns]
      rfl
  | false =>
      simp only [Bool.false_eq_true, if_false, Bool.not_false, Bool.true_and]
      generalize fieldOf q (if spec.isCall = true then calls + 1 else calls) spec = f
      rw [enter_selectionOf]
      by_cases hcall : f.isCall = true
      · rw [if_pos hcall, if_pos hcall]
      · rw [if_neg hcall, if_neg hcall]

/-- A selection depends on the tables of the query only. -/
theorem selection_congr (h : q'.withoutList = q.withoutList) :
    selection schema q' = selection schema q := by
  have hself : ∀ q : Query, selection schema q.withoutList = selection schema q := fun _ => rfl
  rw [← hself q', h, hself]

theorem withoutList_enter (q : Query) (s : Selection) :
    (q.enter s).withoutList = q.withoutList := by
  rw [Query.enter_eq, (Query.foldl_addField s.fields _).1]
  rfl

theorem withoutList_foldl_enter (selected : List Selection) (q : Query) :
    (selected.foldl Query.enter q).withoutList = q.withoutList :=
  foldl_kept Query.withoutList withoutList_enter selected q

theorem foldl_resolve (specs : List FieldSpec) (calls : Nat)
    (h : q'.withoutList = q.withoutList) :
    (specs.foldl (resolve schema) (calls, q')).2 =
      (selections schema q calls specs).foldl Query.enter q' := by
  induction specs generalizing calls q' with
  | nil => rfl
  | cons spec specs ih =>
      rw [List.foldl_cons, resolve_eq_enter, selection_congr h, selections, List.foldl_cons]
      exact ih _ ((withoutList_enter _ _).trans h)

theorem select_enter (q : Query) (s : Selection) : (q.enter s).select = q.select ++ s.fields := by
  rw [Query.enter_eq, (Query.foldl_addField s.fields _).2.1]
  rfl

theorem select_foldl_enter (selected : List Selection) (q : Query) :
    (selected.foldl Query.enter q).select = q.select ++ selected.flatMap Selection.fields := by
  induction selected generalizing q with
  | nil => simp
  | cons s selected ih =>
      rw [List.foldl_cons, ih, select_enter, List.flatMap_cons, List.append_assoc]

/-- What a selection makes of the records of base fields. -/
def noteAll (s : Selection) (m : OrderedMap String BaseFields) : OrderedMap String BaseFields :=
  s.fields.foldl
    (fun m f => m.upsert f.tableAlias fun old => (old.getD default).note f.resultName)
    (m.insertNew s.tableAlias default)

theorem baseFields_enter (q : Query) (s : Selection) :
    (q.enter s).baseFields = noteAll s q.baseFields := by
  have hone : ∀ (q : Query) (f : SelectField),
      q.baseFields.upsert f.tableAlias (fun old => (old.getD default).note f.resultName) =
        (addField q f).baseFields := fun q f => (Query.baseFields_addField q f).symm
  rw [Query.enter_eq]
  exact (List.foldl_hom Query.baseFields hone).symm

theorem baseFields_foldl_enter (selected : List Selection) (q : Query) :
    (selected.foldl Query.enter q).baseFields =
      selected.foldl (fun m s => noteAll s m) q.baseFields :=
  (List.foldl_hom Query.baseFields fun q s => (baseFields_enter q s).symm).symm

theorem distinct_foldl_enter (selected : List Selection) (q : Query) :
    (selected.foldl Query.enter q).distinct = q.distinct := by
  refine foldl_kept Query.distinct (fun q s => ?_) selected q
  rw [Query.enter_eq, (Query.foldl_addField s.fields _).2.2.1]
  rfl

/-- A selection registers its placeholder, if it has one. -/
theorem placeholders_enter (q : Query) (s : Selection) :
    (q.enter s).placeholders =
      s.placeholder?.elim q.placeholders fun key => q.placeholders.insert key "1" := by
  rw [Query.enter_eq, (Query.foldl_addField s.fields _).2.2.2]
  rfl

/-! ## Lists -/

/-- A list is read by entering what its pieces select. -/
theorem parse_eq_ok_iff {text : List Char} :
    parse schema text q = (q', .ok ()) ↔
      (splitDistinct text).2 ≠ [] ∧ ∃ specs, split (splitDistinct text).2 = .ok specs ∧
        q' = (selections schema q 0 specs).foldl Query.enter
          { q with distinct := q.distinct || (splitDistinct text).1 } := by
  have hentered : ∀ specs : List FieldSpec,
      (specs.foldl (resolve schema)
          (0, { q with distinct := q.distinct || (splitDistinct text).1 })).2 =
        (selections schema q 0 specs).foldl Query.enter
          { q with distinct := q.distinct || (splitDistinct text).1 } :=
    fun specs => foldl_resolve specs 0 (by rfl)
  unfold parse
  simp only
  cases hempty : (splitDistinct text).2.isEmpty with
  | true => simp [List.isEmpty_iff.1 hempty]
  | false =>
      have hne : (splitDistinct text).2 ≠ [] := by
        intro hnil
        rw [hnil] at hempty
        cases hempty
      cases hsplit : split (splitDistinct text).2 with
      | error e => simp
      | ok specs => simp [hne, hentered, eq_comm]

/-- What is selected behind a piece is counted on from it. -/
theorem selections_append (schema : Schema) (q : Query) (specs more : List FieldSpec)
    (calls : Nat) :
    selections schema q calls (specs ++ more) =
      selections schema q calls specs ++
        selections schema q (specs.foldl callsUpTo calls) more := by
  induction specs generalizing calls with
  | nil => rfl
  | cons spec specs ih =>
      rw [List.cons_append, selections, selections, ih, List.cons_append, List.foldl_cons]

theorem mem_selections {specs : List FieldSpec} {s : Selection}
    (h : s ∈ selections schema q calls specs) :
    ∃ spec ∈ specs, ∃ n, s = selection schema q n spec := by
  induction specs generalizing calls with
  | nil => cases h
  | cons spec specs ih =>
      rw [selections, List.mem_cons] at h
      rcases h with rfl | h
      · exact ⟨spec, by simp, _, rfl⟩
      · rcases ih h with ⟨spec', hspec', n, rfl⟩
        exact ⟨spec', by simp [hspec'], n, rfl⟩

end SelectList
end ContentQuery
