import ContentQuery.Proofs.Draft.FilterFields
import ContentQuery.Proofs.Draft.SortColumns

/-!
# Who sorts

In another language than the default one the caller sorts if an order field asks for it, or if it says
nothing and stands for text that is overlaid.  What an order field stands for is looked up by the name
of its column, among the result columns of all tables.  Where that is the column that SQL takes it for,
and no text of a table with a mere language flag is sorted by, the decision is the right one.
-/

namespace ContentQuery

open Draft (orderColumn isUnsortable)

namespace Query

/-- The column that SQL takes an order field for: that of the alias in front of the dot, else that of
the entry which carries the name, else that of the main table.  Neither calls nor scores are columns. -/
def columnNamed? (q : Query) (text : String) : Option (String × String) :=
  let place := orderColumn q.mainAlias text
  if isUnsortable place.2 || !isPlain place.2 then none
  else if (Text.splitOnce? '.' text).isSome then
    if place.1 ∈ q.tableOfAlias.keys then some place else none
  else match q.carrier? place.2 with
    | some f =>
        if f.isCall || q.placeholders.contains f.expression then none
        else some (f.tableAlias, f.field)
    | none => some place

theorem sortable_of_columnNamed? {q : Query} {text : String} {place : String × String}
    (h : q.columnNamed? text = some place) :
    isUnsortable (orderColumn q.mainAlias text).2 = false := by
  rw [← Bool.not_eq_true]
  intro hunsortable
  simp [columnNamed?, hunsortable] at h

end Query

namespace Draft

variable {p : Platform} {d : Draft}

/-! ## One order field -/

/-- The caller must sort by a column: the order field says so, or it says nothing and the column holds
text that is overlaid. -/
def NeedsCaller (p : Platform) (q : Query) (engine : Option OrderEngine)
    (place : String × String) : Prop :=
  engine = some .provider ∨
    engine = none ∧ (p.policy.languageStorage (q.tableOf place.1)).usesOverlays = true ∧
      p.schema.isTextColumn (q.tableOf place.1) place.2 = true

/-- Nobody says who sorts by a column, and it holds text of a table that only flags its languages. -/
def FlaggedText (p : Platform) (q : Query) (engine : Option OrderEngine)
    (place : String × String) : Prop :=
  engine = none ∧ p.policy.languageStorage (q.tableOf place.1) ≠ .none ∧
    (p.policy.languageStorage (q.tableOf place.1)).usesOverlays = false ∧
      p.schema.isTextColumn (q.tableOf place.1) place.2 = true

instance (p : Platform) (q : Query) (engine : Option OrderEngine) (place : String × String) :
    Decidable (NeedsCaller p q engine place) :=
  inferInstanceAs (Decidable (_ ∨ _))

instance (p : Platform) (q : Query) (engine : Option OrderEngine) (place : String × String) :
    Decidable (FlaggedText p q engine place) :=
  inferInstanceAs (Decidable (_ ∧ _))

theorem mustSortByCaller_iff {q : Query} {engine : Option OrderEngine} {place : String × String} :
    mustSortByCaller p engine (q.tableOf place.1) place.2 = true ↔
      NeedsCaller p q engine place ∨ FlaggedText p q engine place := by
  unfold mustSortByCaller NeedsCaller FlaggedText
  cases engine with
  | some engine => cases engine <;> simp
  | none =>
      -- Only a table without languages never counts.
      cases p.policy.languageStorage (q.tableOf place.1) <;> simp [LanguageStorage.usesOverlays]

/-- Who sorts by an order field is decided at the place that it is looked up at. -/
theorem byCaller_iff {f : OrderField} :
    (decideOrder p d f).byCaller = true ↔
      isUnsortable (d.writtenPlace f).2 = false ∧
        (NeedsCaller p d.query f.engine (d.sortPlace f) ∨
          FlaggedText p d.query f.engine (d.sortPlace f)) := by
  cases hsortable : isUnsortable (d.writtenPlace f).2 with
  | true => simp [decideOrder_unsortable hsortable]
  | false => simp only [decideOrder_sortable hsortable, mustSortByCaller_iff, true_and]

/-! ## All order fields -/

theorem caller_iff (hlanguage : p.context.language ≠ 0) (d : Draft) :
    (d.build p).1.sortsInDatabase = false ↔
      ∃ f ∈ d.query.orderFields, (decideOrder p d f).byCaller = true := by
  have hdecided : (d.build p).1.sortsInDatabase = !(d.decisions p).any (·.byCaller) :=
    sortsInDatabase_decideOrdering hlanguage d
  rw [hdecided, Bool.not_eq_false', decisions, List.any_map, List.any_eq_true]
  rfl

/-- In every use in another language, the caller sorts exactly if it must by what an order field is
looked up as, or if that is text of a table that only flags its languages.  A column is looked up right
exactly if the result column that it is looked up by, where there is one, comes from it.  If there is no
text of flagging tables, and each order field that is no call is looked up as the column that SQL takes
it for, the caller sorts exactly if it must by such a column. -/
theorem sorting_of_use {p : Platform} (hlanguage : p.context.language ≠ 0) (actions : List Action) :
    let d := actAll p actions {}
    let after := (d.build p).1
    (after.sortsInDatabase = false ↔
      ∃ f ∈ d.query.orderFields, isUnsortable (d.writtenPlace f).2 = false ∧
        (NeedsCaller p d.query f.engine (d.sortPlace f) ∨
          FlaggedText p d.query f.engine (d.sortPlace f))) ∧
    (∀ f ∈ d.query.orderFields, d.query.columnNamed? f.field = some (d.writtenPlace f) →
      (d.query.columnNamed? f.field = some (d.sortPlace f) ↔
        (∀ origin ∈ d.origins.get? (d.sortName f),
          (origin.tableAlias, origin.field) = d.writtenPlace f) ∧
        (d.origins.contains (d.sortName f) = false → d.sortName f = (d.writtenPlace f).2))) ∧
    ((∀ f ∈ d.query.orderFields, isUnsortable (d.writtenPlace f).2 = false →
        d.query.columnNamed? f.field = some (d.sortPlace f) ∧
          ¬ FlaggedText p d.query f.engine (d.sortPlace f)) →
      (after.sortsInDatabase = false ↔
        ∃ f ∈ d.query.orderFields, ∃ place, d.query.columnNamed? f.field = some place ∧
          NeedsCaller p d.query f.engine place)) := by
  intro d after
  have hcaller : after.sortsInDatabase = false ↔
      ∃ f ∈ d.query.orderFields, isUnsortable (d.writtenPlace f).2 = false ∧
        (NeedsCaller p d.query f.engine (d.sortPlace f) ∨
          FlaggedText p d.query f.engine (d.sortPlace f)) := by
    simpa only [byCaller_iff] using caller_iff hlanguage d
  refine ⟨hcaller, fun f _ hcolumn => ?_, fun hright => ?_⟩
  · rw [hcolumn, Option.some.injEq, eq_comm]
    exact sortPlace_eq_iff
  · rw [hcaller]
    constructor
    · rintro ⟨f, hf, hsortable, hneeds⟩
      -- With every column resolved and none flagged, the caller sorts for reasons of its own only.
      rcases hright f hf hsortable with ⟨hcolumn, hnoflag⟩
      exact ⟨f, hf, d.sortPlace f, hcolumn, hneeds.resolve_right hnoflag⟩
    · rintro ⟨f, hf, place, hcolumn, hneeds⟩
      have hsortable : isUnsortable (d.writtenPlace f).2 = false :=
        Query.sortable_of_columnNamed? hcolumn
      have hplace : place = d.sortPlace f :=
        Option.some.inj (hcolumn.symm.trans (hright f hf hsortable).1)
      exact ⟨f, hf, hsortable, .inl (hplace ▸ hneeds)⟩

/-- Content that is ordered by its body is sorted by the caller. -/
theorem sorting_of_content :
    secondLanguage.context.language ≠ 0 ∧
      (bodyFirst.build secondLanguage).1.sortsInDatabase = false := by
  have hlanguage : secondLanguage.context.language ≠ 0 := by decide
  have huse := sorting_of_use hlanguage [.parse (contentText "bodytext, p.subtitle")]
  rw [← contentOrderedBy, ← bodyFirst] at huse
  have hread : ascending "bodytext" ∈ bodyFirst.query.orderFields ∧
      bodyFirst.query.columnNamed? "bodytext" = some ("content", "bodytext") ∧
      NeedsCaller secondLanguage bodyFirst.query none ("content", "bodytext") ∧
      ∀ f ∈ bodyFirst.query.orderFields, isUnsortable (bodyFirst.writtenPlace f).2 = false →
        bodyFirst.query.columnNamed? f.field = some (bodyFirst.sortPlace f) ∧
          ¬ FlaggedText secondLanguage bodyFirst.query f.engine (bodyFirst.sortPlace f) := by
    decide +kernel
  rcases hread with ⟨hfield, hcolumn, hneeds, hright⟩
  exact ⟨hlanguage, (huse.2.2 hright).2 ⟨_, hfield, _, hcolumn, hneeds⟩⟩

/-- The title of a page hides that of the content: the database sorts by the title of the content, which
is overlaid.  The title of the content hides that of a page: the caller sorts by the title of the page,
which is not.  And the caller sorts by the titles of events, which are not overlaid either. -/
theorem sorting_misjudged :
    let read (text : String) : Draft := actAll secondLanguage [.parse text] {}
    let hidden := read "SELECT title FROM pages, content AS c ORDER BY c.title"
    let shown := read "SELECT title FROM content, pages AS p ORDER BY p.title"
    let flagged := read "SELECT title FROM event ORDER BY title"
    (hidden.query.orderFields = [ascending "c.title"] ∧
        hidden.query.columnNamed? "c.title" = some ("c", "title") ∧
        NeedsCaller secondLanguage hidden.query none ("c", "title") ∧
        (hidden.build secondLanguage).1.sortsInDatabase = true) ∧
      (shown.query.orderFields = [ascending "p.title"] ∧
        shown.query.columnNamed? "p.title" = some ("p", "title") ∧
        ¬ NeedsCaller secondLanguage shown.query none ("p", "title") ∧
        (shown.build secondLanguage).1.sortsInDatabase = false) ∧
      (flagged.query.orderFields = [ascending "title"] ∧
        flagged.query.columnNamed? "title" = some ("event", "title") ∧
        ¬ NeedsCaller secondLanguage flagged.query none ("event", "title") ∧
        (flagged.build secondLanguage).1.sortsInDatabase = false) := by
  decide +kernel

end Draft
end ContentQuery
