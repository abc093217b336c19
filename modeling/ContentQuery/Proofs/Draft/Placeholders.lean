import ContentQuery.Proofs.Draft.History
import ContentQuery.Proofs.Draft.Selections
import ContentQuery.Proofs.Query.Placeholders

/-!
# Placeholders in use

In every use the statement selects the entries of the draft, each filled in on its own.  An entry
whose expression is the key of a placeholder shows the text of the placeholder and keeps its name, and
any other entry stays.

This is so only for texts without the keys of other placeholders.  A search for such a key is
rewritten where it is selected, but not where it restricts the rows.
-/

namespace ContentQuery

open SelectList (placeholderKey)

/-! ## What an entry says -/

namespace ListEntry

/-- What an entry selects: a column of its table, or the text of a call. -/
def expression (e : ListEntry) : String :=
  if e.isCall then e.origin.field else e.origin.tableAlias ++ "." ++ e.origin.field

/-- What stands behind the expression: the result column, or nothing. -/
def naming (e : ListEntry) : String :=
  if e.text = e.expression then "" else " AS " ++ e.column

def Spelled (e : ListEntry) : Prop :=
  e.text = e.expression ++ e.naming

instance (e : ListEntry) : Decidable e.Spelled :=
  inferInstanceAs (Decidable (_ = _))

theorem spelled_of_text {e : ListEntry}
    (h : e.text = e.expression ∨ e.text = e.expression ++ " AS " ++ e.column) : e.Spelled := by
  unfold Spelled naming
  split
  · next hplain => rw [String.append_empty, hplain]
  · next hnamed => rw [h.resolve_left hnamed, String.append_assoc]

theorem spelled_ofColumn (table a field column : String) :
    (ofColumn table a field column).Spelled := by
  apply spelled_of_text
  unfold ofColumn
  split
  · exact .inl rfl
  · exact .inr rfl

theorem Extra.spelled {mainAlias : String} {e : ListEntry} (h : e.Extra mainAlias) : e.Spelled := by
  cases h with
  | usual table a field => exact spelled_ofColumn table a field _
  | sorted table a field => exact spelled_ofColumn table a field _

theorem expression_written (mainAlias : String) (f : SelectField) :
    (written mainAlias f).expression = f.expression := by
  have hplace := place_written mainAlias f
  simp only [place, Prod.mk.injEq] at hplace
  have hcall : (written mainAlias f).isCall = f.isCall := rfl
  rw [expression, hcall, hplace.1, hplace.2, SelectField.expression]

theorem spelled_written (mainAlias : String) (f : SelectField) : (written mainAlias f).Spelled := by
  apply spelled_of_text
  rw [expression_written]
  simp only [written, Draft.entryText]
  split
  · exact .inr rfl
  · exact .inl rfl

/-! ## Filling in an entry -/

/-- The entry with the text of its placeholder, if it has one. -/
def filled (q : Query) (e : ListEntry) : String :=
  (q.placeholders.get? e.expression).getD e.expression ++ e.naming

/-- No key stands in the entry but its own, and none that is replaced later in the text for that. -/
structure Clear (q : Query) (e : ListEntry) : Prop where
  column : ∀ key ∈ q.placeholders.keys, ¬ Text.Occurs key e.column
  other : q.placeholders.get? e.expression = none →
    ∀ key ∈ q.placeholders.keys, ¬ Text.Occurs key e.expression
  value : ∀ value ∈ q.placeholders.get? e.expression, ∀ x ∈ q.placeholders.entries,
    x.1 ≠ e.expression → Query.placeholderBefore (e.expression, value) x = true →
      ¬ Text.Occurs x.1 value

theorem Clear.fillIn_expression {q : Query} (hq : q.PlaceholdersNamed) {e : ListEntry}
    (h : e.Clear q) :
    q.fillIn e.expression = (q.placeholders.get? e.expression).getD e.expression := by
  cases hvalue : q.placeholders.get? e.expression with
  | none => exact Query.fillIn_of_clear hq (h.other hvalue)
  | some value =>
      exact Query.fillIn_key hq (OrderedMap.get?_eq_some_iff.1 hvalue) (h.value value hvalue)

theorem Clear.fillIn_text {q : Query} (hq : q.PlaceholdersNamed) (hsolid : q.PlaceholdersSolid)
    {e : ListEntry} (h : e.Clear q) (hspelled : e.Spelled) : q.fillIn e.text = e.filled q := by
  have hexpression := h.fillIn_expression hq
  by_cases hplain : e.text = e.expression
  · rw [filled, naming, if_pos hplain, String.append_empty, hplain, hexpression]
  · have hcolumn : q.fillIn e.column = e.column := Query.fillIn_of_clear hq h.column
    calc q.fillIn e.text
        = q.fillIn (e.expression ++ " AS " ++ e.column) := by
          rw [hspelled, naming, if_neg hplain, String.append_assoc]
      _ = q.fillIn e.expression ++ " AS " ++ q.fillIn e.column :=
          Query.fillIn_named hq hsolid e.expression e.column
      _ = e.filled q := by
          rw [hexpression, hcolumn, filled, naming, if_neg hplain, String.append_assoc]

end ListEntry

namespace Query

theorem spelled_listed {schema : Schema} {q : Query} : ∀ e ∈ q.listed schema, e.Spelled := by
  intro e he
  rcases mem_listed_cases he with ⟨f, _, rfl⟩ | ⟨a, _, field, _, rfl⟩
  · exact ListEntry.spelled_written q.mainAlias f
  · exact ListEntry.spelled_ofColumn _ _ _ _

end Query

namespace Draft

/-! ## Lists in use -/

/-- The SELECT list is spelled out: it has an entry for every field of the query, each entry is spelled
out, and the placeholders are those of tables and indexes. -/
structure SpelledOut (d : Draft) : Prop where
  entries : ∃ entries, d.Lists entries ∧ ∀ e ∈ entries, e.Spelled
  complete : d.query.select.length ≤ d.query.selectList.length
  named : d.query.PlaceholdersNamed

theorem Grows.complete {d d' : Draft} (h : d.Grows d')
    (hd : d.query.select.length ≤ d.query.selectList.length) :
    d'.query.select.length ≤ d'.query.selectList.length := by
  have hselect := h.query.kept Query.select fun _ => rfl
  rw [hselect]
  exact hd.trans h.query.selectList.length_le

theorem SpelledOut.steps {d d' : Draft} (hd : d.SpelledOut) (h : Steps d d') : d'.SpelledOut := by
  rcases hd.entries with ⟨entries, hlists, hspelled⟩
  rcases h.extras with ⟨added, hselects, hextra⟩
  refine ⟨⟨entries ++ added, hlists.append hselects, fun e he => ?_⟩, h.grows.complete hd.complete,
    hd.named.grows h.grows.query.placeholders⟩
  rcases List.mem_append.1 he with he | he
  · exact hspelled e he
  · exact (hextra e he).spelled

theorem SpelledOut.parse {p : Platform} {d : Draft} (hd : d.SpelledOut) (text : String) :
    (d.parse p text).1.SpelledOut := by
  cases hq : Query.parse p.schema (prepareText text) with
  | error e => rwa [parse_of_error hq d]
  | ok q =>
      have hgrows := grows_parse hq d
      have hlength : (ofQuery q).analyze.query.selectList.length = q.select.length :=
        List.length_map _
      refine ⟨⟨_, (lists_of_parse hq d).1, Query.spelled_listed⟩,
        hgrows.complete (Nat.le_of_eq hlength.symm), ?_⟩
      exact (Query.placeholdersNamed_of_parse hq).grows hgrows.query.placeholders

theorem Reachable.spelledOut {p : Platform} {d : Draft} (h : Reachable p d) : d.SpelledOut := by
  induction h with
  | fresh => exact ⟨⟨[], rfl, by simp⟩, Nat.le_refl 0, by simp [Query.PlaceholdersNamed]⟩
  | parse text _ ih => exact ih.parse text
  | serve request _ ih => exact ih.steps (steps_serve p _ request)
  | setLimit limit _ ih => exact ⟨ih.entries, ih.complete, ih.named⟩
  | setOffset offset _ ih => exact ⟨ih.entries, ih.complete, ih.named⟩

theorem SpelledOut.selectText {d : Draft} (hd : d.SpelledOut) {entries : List ListEntry}
    (hlists : d.Lists entries) :
    d.query.selectText = d.query.fillIn (Text.join ", " (entries.map (·.text))) := by
  rw [← hlists.selectList, Query.selectText, Query.fillIn]
  cases hempty : d.query.selectList with
  | cons text texts => rfl
  | nil =>
      -- Without final entries there are no fields to be written in their place.
      have hselect : d.query.select = [] := by
        have hcomplete := hd.complete
        rw [hempty] at hcomplete
        exact List.length_eq_zero_iff.1 (Nat.le_zero.1 hcomplete)
      rw [hselect]
      rfl

/-- In every use the entries of the draft are spelled out, and the statement selects them as they are
filled in, whatever the order in which the placeholders were registered.  If no key has a blank or a
comma, each entry is filled in on its own; and as long as it has no other key, it shows the text of its
placeholder, or stays if it has none. -/
theorem placeholders_of_use {p : Platform} {d : Draft} (hd : Reachable p d) :
    (∀ m : OrderedMap String String, m.entries.Perm d.query.placeholders.entries →
      { d.query with placeholders := m }.selectText = d.query.selectText) ∧
    (∃ entries, d.Lists entries ∧ ∀ e ∈ entries, e.Spelled) ∧
    (d.query.PlaceholdersSolid → ∀ entries, d.Lists entries → (∀ e ∈ entries, e.Spelled) →
      d.query.selectText = Text.join ", " (entries.map fun e => d.query.fillIn e.text) ∧
        ∀ e ∈ entries, e.Clear d.query → d.query.fillIn e.text = e.filled d.query) := by
  have hwritten := hd.spelledOut
  refine ⟨?_, hwritten.entries, ?_⟩
  · intro m hm
    simp only [Query.selectText, Query.placeholderOrder_of_perm hm]
  · intro hsolid entries hlists hspelled
    refine ⟨?_, fun e he hclear => hclear.fillIn_text hwritten.named hsolid (hspelled e he)⟩
    rw [hwritten.selectText hlists, Query.fillIn_join hwritten.named hsolid, List.map_map]
    rfl

/-- A site whose pages can be searched by their bodies and by their titles. -/
def twiceSearchedSite : Platform :=
  let pages : TableSchema :=
    { columns := .ofList [("uid", none), ("pid", none), ("title", none), ("body", none)]
      indexes := .ofList [("BODY", ["body"]), ("NAME", ["title"])] }
  let catalog : Catalog := { tables := .ofList [("pages", pages)] }
  catalog.platform (.atTime 0) {}

/-- Pages with two scores, of which the first is searched for a text. -/
def searchedFor (text : String) : Draft :=
  let search : FilterGroup := { field := "relevance", conditions := [⟨.fulltext, .single text, false⟩] }
  serveAll twiceSearchedSite [.operation (.filter { groups := [search] })]
    (({} : Draft).parse twiceSearchedSite
      "SELECT uid, fulltext:BODY AS relevance, fulltext:NAME AS match FROM pages").1

/-- The entries of that draft, whatever is searched for. -/
def scoreEntries : List ListEntry :=
  let score (index name : String) : ListEntry := .written "pages"
    { table := "pages", tableAlias := "pages", field := "fulltext." ++ index
      aliasName := some name, isCall := false }
  [.usual "pages" "pages" "pages" "uid", score "BODY" "relevance", score "NAME" "match",
    .usual "pages" "pages" "pages" "pid"]

theorem reachable_searchedFor (text : String) :
    Reachable twiceSearchedSite (searchedFor text) := by
  unfold searchedFor
  exact (Reachable.fresh.parse _).serveAll _

/-- A search for a plain word shows its score, and the other score stays 1. -/
theorem placeholders_of_foox :
    Reachable twiceSearchedSite (searchedFor "foox") ∧
      (searchedFor "foox").query.selectText =
        "pages.uid, (MATCH(pages.body) AGAINST('foox' IN BOOLEAN MODE)) AS relevance, " ++
          "1 AS match, pages.pid" := by
  have hreached := reachable_searchedFor "foox"
  have hread : (searchedFor "foox").selection = (({} : Draft).enterAll scoreEntries).selection ∧
      (searchedFor "foox").query.placeholders = .ofList
        [("pages.fulltext.BODY", "(MATCH(pages.body) AGAINST('foox' IN BOOLEAN MODE))"),
          ("pages.fulltext.NAME", "1")] := by
    decide +kernel
  rcases hread with ⟨hlists, hplaceholders⟩
  generalize searchedFor "foox" = d at *
  have hsolid : d.query.PlaceholdersSolid := by
    unfold Query.PlaceholdersSolid
    rw [hplaceholders]
    decide +kernel
  have hclear : ∀ e ∈ scoreEntries, e.Clear d.query := by
    intro e he
    constructor <;> (rw [hplaceholders]; revert e; decide +kernel)
  rcases placeholders_of_use hreached with ⟨_, _, hfill⟩
  rcases hfill hsolid scoreEntries hlists (by decide) with ⟨htext, hentries⟩
  refine ⟨hreached, ?_⟩
  calc d.query.selectText
      = Text.join ", " (scoreEntries.map fun e => d.query.fillIn e.text) := htext
    _ = Text.join ", " (scoreEntries.map (·.filled d.query)) :=
        congrArg _ (List.map_congr_left fun e he => hentries e he (hclear e he))
    _ = _ := by
        simp only [ListEntry.filled, hplaceholders]
        decide +kernel

/-- A search for the key of the other score is rewritten where it is selected: the rows are searched
for the phrase, and scored by another one. -/
theorem searchedKey_rewritten :
    let d := searchedFor "\"pages.fulltext.NAME\""
    let search := "(MATCH(pages.body) AGAINST('\\\"pages.fulltext.NAME\\\"' IN BOOLEAN MODE))"
    Reachable twiceSearchedSite d ∧ d.Lists scoreEntries ∧ (∀ e ∈ scoreEntries, e.Spelled) ∧
      d.query.conditions = ["(" ++ search ++ ")"] ∧
      scoreEntries.map (·.filled d.query) =
        ["pages.uid", search ++ " AS relevance", "1 AS match", "pages.pid"] ∧
      d.query.selectText =
        "pages.uid, (MATCH(pages.body) AGAINST('\\\"1\\\"' IN BOOLEAN MODE)) AS relevance, " ++
          "1 AS match, pages.pid" := by
  intro d search
  have hreached : Reachable twiceSearchedSite d := reachable_searchedFor _
  have hread : d.selection = (({} : Draft).enterAll scoreEntries).selection ∧
      d.query.placeholders = .ofList [("pages.fulltext.BODY", search), ("pages.fulltext.NAME", "1")] ∧
      d.query.conditions = ["(" ++ search ++ ")"] := by
    decide +kernel
  rcases hread with ⟨hlists, hplaceholders, hconditions⟩
  generalize d = d at *
  refine ⟨hreached, hlists, by decide, hconditions, ?_, ?_⟩
  · simp only [ListEntry.filled, hplaceholders]
    decide +kernel
  · have hspelled := hreached.spelledOut
    have hsolid : d.query.PlaceholdersSolid := by
      unfold Query.PlaceholdersSolid
      rw [hplaceholders]
      decide +kernel
    have horder : d.query.placeholders.entries.Pairwise fun a b =>
        Query.placeholderBefore a b = true := by
      rw [hplaceholders]
      decide +kernel
    simp only [hspelled.selectText hlists, Query.fillIn_join hspelled.named hsolid, List.map_map,
      Function.comp_def, Query.fillIn_of_pairwise horder, hplaceholders]
    decide +kernel

end Draft
end ContentQuery
