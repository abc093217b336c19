import ContentQuery.Proofs.Draft.Aliases
import ContentQuery.Proofs.Draft.FilterGroups

/-!
# Fields that a filter asks for

The field of a group is looked up among the aliases of the SELECT list before it is taken for a
column.  The aliases are on record without the tables of their entries, and a later entry takes the
place of an earlier one.  So a group may be about the entry of another table than the one it names:
of the last entry that carries the alias.
-/

namespace ContentQuery
namespace Query

/-! ## Aliases of the SELECT list -/

/-- The last entry that carries an alias. -/
def carrier? (q : Query) (name : String) : Option SelectField :=
  (q.select.filter fun f => f.aliasName == some name).getLast?

/-- The record of an alias is the expression of the last entry that carries it. -/
def AliasesKept (q : Query) : Prop :=
  ∀ name, q.aliasExpressions.get? name = (q.carrier? name).map SelectField.expression

theorem mem_of_carrier? {q : Query} {name : String} {f : SelectField}
    (h : q.carrier? name = some f) : f ∈ q.select ∧ f.aliasName = some name := by
  have hmem := List.mem_of_getLast? h
  rw [List.mem_filter, beq_iff_eq] at hmem
  exact hmem

theorem carrier?_eq_none_iff {q : Query} {name : String} :
    q.carrier? name = none ↔ ∀ f ∈ q.select, f.aliasName ≠ some name := by
  rw [carrier?, List.getLast?_eq_none_iff, List.filter_eq_nil_iff]
  simp

theorem carrier?_append {q q' : Query} {f : SelectField} (h : q'.select = q.select ++ [f])
    (name : String) :
    q'.carrier? name = if f.aliasName = some name then some f else q.carrier? name := by
  rw [carrier?, h, List.filter_append, carrier?]
  split
  · next hname => rw [List.filter_cons_of_pos (by simp [hname]), List.filter_nil,
      List.getLast?_concat]
  · next hname => rw [List.filter_cons_of_neg (by simp [hname]), List.filter_nil, List.append_nil]

theorem AliasesKept.addField {q : Query} (hq : q.AliasesKept) (f : SelectField) :
    (SelectList.addField q f).AliasesKept := by
  intro name
  rw [carrier?_append (select_addField q f)]
  have hrest := hq name
  rw [aliasExpressions_addField]
  -- A field without an alias carries no name; one with an alias takes that name over.
  cases halias : f.aliasName with
  | none =>
      simp only [reduceCtorEq, if_false]
      exact hrest
  | some aliasName =>
      simp only [Option.some.injEq, Option.elim_some]
      rw [OrderedMap.get?_insert]
      by_cases hname : aliasName = name
      · rw [if_pos hname, if_pos hname.symm, Option.map_some]
      · rw [if_neg hname, if_neg (Ne.symm hname)]
        exact hrest

/-- The columns of a wildcard carry no alias. -/
theorem AliasesKept.expandWildcard {q : Query} (hq : q.AliasesKept) (schema : Schema)
    (expression : String) : (SelectList.expandWildcard schema q expression).AliasesKept := by
  refine List.foldlRecOn (motive := AliasesKept) _ _ hq fun q hq column _ name => ?_
  rw [carrier?_append rfl]
  exact hq name

theorem aliasesKept_of_parse {schema : Schema} {text : String} {q : Query}
    (h : parse schema text = .ok q) : q.AliasesKept := by
  refine parse_induction (P := AliasesKept) (fun q placeholders f _ hq => ?_)
    (fun q expression hq => hq.expandWildcard schema expression) ?_ h
  · have hsame : ({ q with placeholders } : Query).AliasesKept := hq
    exact hsame.addField f
  · intro q hrecords name
    simp only [listRecords, Prod.mk.injEq] at hrecords
    rw [carrier?, hrecords.1, hrecords.2.2.2.2.1]
    rfl

theorem Grows.aliasesKept {q q' : Query} (h : q.Grows q') (hq : q.AliasesKept) :
    q'.AliasesKept := by
  have hexpressions := h.kept Query.aliasExpressions fun _ => rfl
  have hcarrier := h.kept carrier? fun _ => rfl
  intro name
  rw [hexpressions, hcarrier]
  exact hq name

end Query

namespace Draft

/-- In every use the aliases of the SELECT list are on record. -/
theorem aliasesKept_actAll (p : Platform) (actions : List Action) :
    (actAll p actions {}).query.AliasesKept :=
  actAll_induction (P := fun d => d.query.AliasesKept) (fun h => h.query.aliasesKept)
    Query.aliasesKept_of_parse id (fun hd _ _ => hd) (fun _ => rfl) actions

/-! ## The field of a group -/

/-- An expression is about a column of an alias: it is the column, or an entry of the SELECT list
that belongs to the alias and carries the name. -/
def Concerns (q : Query) (a name expression : String) : Prop :=
  expression = a ++ "." ++ name ∨
    ∃ f ∈ q.select, f.tableAlias = a ∧ f.aliasName = some name ∧ expression = f.expression

instance (q : Query) (a name expression : String) : Decidable (Concerns q a name expression) :=
  inferInstanceAs (Decidable (_ ∨ _))

theorem groupField_eq {q : Query} (hq : q.AliasesKept) (a name : String) :
    groupField q a name =
      ((q.carrier? name).map SelectField.expression).getD (a ++ "." ++ name) := by
  rw [groupField, hq name]

/-- What the field of a group stands for on an alias. -/
inductive StandsFor (q : Query) (a name : String) : String → Prop
  | column (h : ∀ f ∈ q.select, f.aliasName ≠ some name) : StandsFor q a name (a ++ "." ++ name)
  | entry (f : SelectField) (h : q.carrier? name = some f) : StandsFor q a name f.expression

theorem standsFor_groupField {q : Query} (hq : q.AliasesKept) (a name : String) :
    StandsFor q a name (groupField q a name) := by
  rw [groupField_eq hq]
  cases hcarrier : q.carrier? name with
  | none => exact .column (Query.carrier?_eq_none_iff.1 hcarrier)
  | some f => exact .entry f hcarrier

/-- A column concerns itself, and the last entry that carries the name concerns the table it belongs
to. -/
theorem StandsFor.concerns_or {q : Query} {a name expression : String}
    (h : StandsFor q a name expression) :
    Concerns q a name expression ∨
      ∃ f, q.carrier? name = some f ∧ f.tableAlias ≠ a ∧ expression = f.expression := by
  cases h with
  | column _ => exact .inl (.inl rfl)
  | entry f hcarrier =>
      rcases Query.mem_of_carrier? hcarrier with ⟨hmem, hname⟩
      by_cases ha : f.tableAlias = a
      · exact .inl (.inr ⟨f, hmem, ha, hname, rfl⟩)
      · exact .inr ⟨f, hcarrier, ha, rfl⟩

/-- At any moment of a filter, the conditions of a group on an alias are all about one expression.
If no entry of the SELECT list carries the name of the field, it is the column; else it is the last
entry that does, which concerns the alias if it belongs there. -/
theorem groupField_of_use (p : Platform) (actions : List Action) {d : Draft}
    (hd : FilterSteps (actAll p actions {}) d) {g : FilterGroup} {a : String}
    (halias : d.groupAlias? g = some a) :
    ∃ expression, StandsFor d.query a g.field expression ∧
      (∀ collected index, ∃ fragments,
        fragments = g.conditions.filterMap
            (fragment? p { field := expression, table := d.query.tableOf a, aliasName := a }) ∧
          (addGroup p (d, collected) (g, index)).2 =
            if fragments = [] then collected
            else collected.upsert (groupClause d.query a g) fun texts =>
              texts.getD [] ++ [groupText fragments]) ∧
      (Concerns d.query a g.field expression ∨
        ∃ f, d.query.carrier? g.field = some f ∧ f.tableAlias ≠ a ∧ expression = f.expression) := by
  have hkept : d.query.AliasesKept :=
    hd.steps.grows.query.aliasesKept (aliasesKept_actAll p actions)
  have hstands := standsFor_groupField hkept a g.field
  refine ⟨_, hstands, fun collected index => ⟨groupFragments p d a g, rfl, ?_⟩,
    hstands.concerns_or⟩
  rw [addGroup_of_known p halias]

/-- Asked for the bodies of the news, a filter of the listing is about them. -/
theorem groupField_of_newsDraft :
    let p := Catalog.site.platform (.atTime 0) {}
    let g : FilterGroup :=
      { table := "news", field := "body"
        conditions := [⟨.comparison .equal, .single "x", false⟩] }
    newsDraft.groupAlias? g = some "n" ∧
      ∃ expression, StandsFor newsDraft.query "n" "body" expression ∧
        Concerns newsDraft.query "n" "body" expression ∧
        (addGroup p (newsDraft, ∅) (g, 0)).2.entries = [("n", ["((n.body = 'x'))"])] := by
  intro p g
  have hread : newsDraft.groupAlias? g = some "n" ∧ newsDraft.query.carrier? "body" = none ∧
      newsDraft.query.tableOf "n" = "news" := by
    decide +kernel
  rcases hread with ⟨halias, hnone, htable⟩
  have hsteps : FilterSteps (actAll p
      [.parse "SELECT title, n.body FROM pages INNER JOIN news AS n ON n.pid = pages.uid"] {})
        newsDraft := by
    rw [actAll_newsDraft]
  rcases groupField_of_use p _ hsteps halias with ⟨expression, hstands, hgroups, hconcerns⟩
  refine ⟨halias, expression, hstands, ?_, ?_⟩
  · rcases hconcerns with hconcerns | ⟨f, hcarrier, _⟩
    · exact hconcerns
    · rw [hnone] at hcarrier
      cases hcarrier
  · cases hstands with
    | entry f hcarrier =>
        rw [hnone] at hcarrier
        cases hcarrier
    | column _ =>
        rcases hgroups ∅ 0 with ⟨fragments, hfragments, hadded⟩
        have hone : fragments = ["n.body = 'x'"] := by
          rw [hfragments, htable]
          decide +kernel
        rw [hadded, hone]
        rfl

/-- The pages have a title, but the bodies of the news carry that name: a filter on the titles of
the pages restricts the bodies, in the WHERE clause of the pages. -/
theorem title_asks_for_body :
    let p := Catalog.site.platform (.atTime 0) {}
    let d := actAll p
      [.parse "SELECT uid, n.body AS title FROM pages INNER JOIN news AS n ON n.pid = pages.uid"] {}
    let g : FilterGroup :=
      { table := "pages"
        field := "title"
        conditions := [⟨.comparison .equal, .single "Home", false⟩] }
    d.groupAlias? g = some "pages" ∧
      ¬ Concerns d.query "pages" "title" (groupField d.query "pages" "title") ∧
      (d.addFilter p { groups := [g] }).query.conditions = ["((n.body = 'Home'))"] := by
  decide +kernel

end Draft
end ContentQuery
