import Mathlib.Data.List.Nodup
import ContentQuery.Proofs.Draft.Aliases
import ContentQuery.Proofs.Draft.DistinctLists

/-!
# Columns to sort by

Where the caller sorts, the columns to sort by are selected: each place that an order field is written
with, unless it is selected already or a result column has the name of its column.

All order fields are looked at before anything is selected, and a call is told by the text behind its
first dot.  So a place that is written twice is selected twice, and a call is taken for a column if it
opens in front of a dot.  And a result column counts whatever table it is from: a column that goes by
the name of another one is never selected.
-/

namespace ContentQuery

namespace Query

/-! ## Fields under an alias -/

/-- A field that is on record under an alias is selected under it. -/
def FieldAliasesKept (q : Query) : Prop :=
  ∀ a field name, q.fieldAlias? a field = some name →
    ∃ f ∈ q.select, f.tableAlias = a ∧ f.field = field ∧ f.aliasName = some name

theorem fieldAliasesKept_of_parse {schema : Schema} {text : String} {q : Query}
    (h : parse schema text = .ok q) : q.FieldAliasesKept := by
  intro a field name hrecord
  rw [fieldAlias?_of_parse h] at hrecord
  exact mem_of_lastAlias? hrecord

/-- A name without a parenthesis, a comma or a blank. -/
def isPlain (name : String) : Bool :=
  name.toList.all fun c => !(c == '(' || c == ')' || c == ',' || Chars.isBlank c)

/-- A column of a table of the query. -/
def HasColumn (q : Query) (place : String × String) : Prop :=
  place.1 ∈ q.tableOfAlias.keys ∧ isPlain place.2 = true

instance (q : Query) (place : String × String) : Decidable (q.HasColumn place) :=
  inferInstanceAs (Decidable (_ ∧ _))

end Query

namespace Draft

variable {p : Platform} {d : Draft}

/-! ## Traced drafts -/

/-- Every result column comes from a selected field, and so does every alias on record. -/
structure Traced (d : Draft) : Prop where
  consistent : d.Consistent
  aliased : ∀ a field name, d.query.fieldAlias? a field = some name → d.hasField a field = true

theorem Grows.traced {d d' : Draft} (h : d.Grows d') (hd : d.Traced) : d'.Traced := by
  refine ⟨h.consistent hd.consistent, fun a field name halias => ?_⟩
  have hsame := h.query.kept (·.fieldAlias? a field) fun _ => rfl
  exact h.fields a field (hd.aliased a field name (hsame ▸ halias))

theorem traced_analyze_ofQuery {schema : Schema} {text : String} {q : Query}
    (h : Query.parse schema text = .ok q) : (ofQuery q).analyze.Traced := by
  refine ⟨consistent_analyze (consistent_ofQuery q), fun a field name halias => ?_⟩
  rcases Query.fieldAliasesKept_of_parse h a field name halias with ⟨f, hf, rfl, rfl, _⟩
  exact (lists_analyze q).hasField.2
    ⟨.written q.mainAlias f, List.mem_map_of_mem hf, ListEntry.place_written _ f⟩

theorem Traced.analyze (hd : d.Traced) : d.analyze.Traced := by
  refine ⟨consistent_analyze hd.consistent, fun a field name halias => ?_⟩
  exact (grows_foldl grows_analyzeField d.query.select d).fields a field
    (hd.aliased a field name halias)

/-- Records other than those of the aliases do not matter. -/
theorem Traced.setQuery (hd : d.Traced) {q : Query} (haliases : q.fieldAliases = d.query.fieldAliases)
    (htables : q.tableOfAlias = d.query.tableOfAlias) : Traced { d with query := q } := by
  refine ⟨⟨hd.consistent.origins, ?_⟩, fun a field name halias => ?_⟩
  · intro e he
    rw [htables]
    exact hd.consistent.answers e he
  · rw [Query.fieldAlias?, haliases] at halias
    exact hd.aliased a field name halias

theorem traced_actAll (p : Platform) (actions : List Action) : (actAll p actions {}).Traced := by
  refine actAll_induction_analyzed Grows.traced traced_analyze_ofQuery Traced.analyze
    (fun hd _ _ => hd.setQuery rfl rfl) ?_ actions
  refine ⟨consistent_ofQuery {}, fun a field name halias => ?_⟩
  simp [Query.fieldAlias?] at halias

/-! ## Missing columns -/

/-- The place that an order field is written with. -/
def writtenPlace (d : Draft) (f : OrderField) : String × String :=
  orderColumn d.query.mainAlias f.field

/-- A field that is selected under no alias is looked up by its own name. -/
theorem sortName_of_none {f : OrderField} (halias : d.selectedAs f = none) :
    d.sortName f = (d.writtenPlace f).2 := by
  simp only [sortName, halias, Option.getD_none, writtenPlace]

/-- An order field is looked up right exactly if the result column that it is looked up by comes from
it, or there is none and it goes by its own name. -/
theorem sortPlace_eq_iff {f : OrderField} :
    d.sortPlace f = d.writtenPlace f ↔
      (∀ origin ∈ d.origins.get? (d.sortName f),
        (origin.tableAlias, origin.field) = d.writtenPlace f) ∧
      (d.origins.contains (d.sortName f) = false → d.sortName f = (d.writtenPlace f).2) := by
  unfold sortPlace OrderedMap.contains
  cases d.origins.get? (d.sortName f) with
  | none => simp [writtenPlace, Prod.ext_iff]
  | some origin => simp

/-- A place that is missing for sorting: it is not selected, and no result column has its name. -/
def Lacks (d : Draft) (place : String × String) : Bool :=
  !isUnsortable place.2 && !d.origins.contains place.2 && !d.hasField place.1 place.2

theorem lacks_iff {place : String × String} :
    d.Lacks place = true ↔ isUnsortable place.2 = false ∧ d.origins.contains place.2 = false ∧
      d.hasField place.1 place.2 = false := by
  simp [Lacks, and_assoc]

/-- The column of a place, to sort by. -/
def columnAt (d : Draft) (place : String × String) : SortColumn :=
  { table := d.query.tableOf place.1, aliasName := place.1, field := place.2 }

/-- What is missing for an order field is the place that it is written with. -/
theorem Traced.missing_eq (hd : d.Traced) (f : OrderField) :
    (decideOrder p d f).missing =
      if d.Lacks (d.writtenPlace f) then some (d.columnAt (d.writtenPlace f)) else none := by
  cases hsortable : isUnsortable (d.writtenPlace f).2 with
  | true =>
      have hfull : d.Lacks (d.writtenPlace f) = false := by simp [Lacks, hsortable]
      simp [decideOrder_unsortable hsortable, hfull]
  | false =>
      simp only [decideOrder_sortable hsortable]
      cases halias : d.selectedAs f with
      | some name =>
          -- Nothing is missing for a field under an alias: it is selected.
          have hfield := hd.aliased _ _ name halias
          have hfull : d.Lacks (d.writtenPlace f) = false := by simp [Lacks, writtenPlace, hfield]
          simp [hfull]
      | none =>
          have hname := sortName_of_none halias
          cases horigin : d.origins.get? (d.writtenPlace f).2 with
          | some origin =>
              -- A result column of that name comes from a selected field.
              have hfield := hd.consistent.origins _ (OrderedMap.get?_eq_some_iff.1 horigin)
              have hfull : d.Lacks (d.writtenPlace f) = false := by
                simp [Lacks, OrderedMap.contains, horigin]
              simp [hfull, sortPlace, hname, horigin, hfield]
          | none =>
              have hplace : d.sortPlace f = d.writtenPlace f :=
                sortPlace_eq_iff.2 ⟨by simp [hname, horigin], fun _ => hname⟩
              simp only [hplace, Option.isSome_none, Bool.or_false, Lacks, hsortable,
                OrderedMap.contains, horigin]
              cases d.hasField (d.writtenPlace f).1 (d.writtenPlace f).2 <;> rfl

def writtenPlaces (d : Draft) : List (String × String) :=
  d.query.orderFields.map d.writtenPlace

/-- The places that are selected for sorting: the missing ones, if the caller sorts. -/
def addedPlaces (p : Platform) (d : Draft) : List (String × String) :=
  if (d.decideOrdering p).sortsInDatabase then [] else d.writtenPlaces.filter d.Lacks

theorem mem_addedPlaces {place : String × String} :
    place ∈ d.addedPlaces p ↔
      (d.decideOrdering p).sortsInDatabase = false ∧ place ∈ d.writtenPlaces ∧
        d.Lacks place = true := by
  unfold addedPlaces
  cases (d.decideOrdering p).sortsInDatabase <;> simp

/-- A place is added as often as it is written. -/
theorem count_addedPlaces {place : String × String} (h : place ∈ d.addedPlaces p) :
    (d.addedPlaces p).count place = d.writtenPlaces.count place := by
  rcases mem_addedPlaces.1 h with ⟨hcaller, _, hlacks⟩
  simp only [addedPlaces, hcaller, Bool.false_eq_true, if_false]
  exact List.count_filter hlacks

theorem Traced.filterMap_missing (hd : d.Traced) :
    (d.decisions p).filterMap (·.missing) = (d.writtenPlaces.filter d.Lacks).map d.columnAt := by
  unfold decisions writtenPlaces
  induction d.query.orderFields with
  | nil => rfl
  | cons f fields ih =>
      simp only [List.map_cons, List.filterMap_cons, hd.missing_eq, ih]
      cases hlacks : d.Lacks (d.writtenPlace f) with
      | true => simp [hlacks]
      | false => simp [hlacks]

/-! ## Selecting for sorting -/

/-- The decision on the ordering selects the missing places, each as often as it is written. -/
theorem Traced.selects_decideOrdering (hd : d.Traced) (p : Platform) :
    d.Selects (d.decideOrdering p)
      ((d.addedPlaces p).map fun place => (d.columnAt place).entry) := by
  by_cases hlanguage : p.context.language = 0
  · have hstart : d.decideOrdering p = { d with sortsInDatabase := true } := by
      simp [decideOrdering, hlanguage]
    rw [addedPlaces, hstart]
    rfl
  · have hcolumns : d.sortColumns p = (d.addedPlaces p).map d.columnAt := by
      rw [sortColumns, addedPlaces, sortsInDatabase_decideOrdering hlanguage, hd.filterMap_missing]
      cases (d.decisions p).any (·.byCaller) <;> rfl
    have hselects := selects_selectForSorting (d.sortColumns p)
      (d.setOrderFields ((d.decisions p).map (·.field)))
    rw [hcolumns, List.map_map] at hselects
    rw [decideOrdering_eq hlanguage, hcolumns]
    -- The order fields are no matter of the selection.
    have hsame : (d.setOrderFields ((d.decisions p).map (·.field))).selection = d.selection := rfl
    exact Eq.trans hselects (selection_enterAll hsame _)

/-- The caller sorts by what was selected before, and by what is added. -/
theorem Traced.hasField_decideOrdering (hd : d.Traced) (p : Platform) {place : String × String} :
    (d.decideOrdering p).hasField place.1 place.2 = true ↔
      d.hasField place.1 place.2 = true ∨ place ∈ d.addedPlaces p := by
  rw [(hd.selects_decideOrdering p).hasField]
  refine or_congr_right ⟨?_, fun hplace => ⟨_, List.mem_map_of_mem hplace, rfl⟩⟩
  rintro ⟨e, he, hplace⟩
  rcases List.mem_map.1 he with ⟨place', hplace', rfl⟩
  have hsame : place' = place := hplace
  exact hsame ▸ hplace'

/-- The text that selects a place for sorting. -/
def sortText (place : String × String) : String :=
  place.1 ++ "." ++ place.2 ++ " AS " ++ (place.1 ++ "$" ++ place.2)

theorem text_columnAt (d : Draft) (place : String × String) :
    (d.columnAt place).entry.text = sortText place := by
  have hcolumn : place.2 ≠ (d.columnAt place).resultColumn := ListEntry.prefixed_ne place.1 place.2
  rw [SortColumn.entry, ListEntry.ofColumn]
  exact if_neg hcolumn

/-- A dot and a dollar in the same place tell where a name ends. -/
theorem eq_of_marked {A B F G : List Char} (hdot : A ++ '.' :: F = B ++ '.' :: G)
    (hdollar : A ++ '$' :: F = B ++ '$' :: G) : A = B ∧ F = G := by
  -- The first place where a mark stands ends both aliases: no character is the dot and the dollar.
  induction A generalizing B with
  | nil =>
      cases B with
      | nil => exact ⟨rfl, (List.cons.inj hdot).2⟩
      | cons b B =>
          have hb : '.' = b := (List.cons.inj hdot).1
          have hb' : '$' = b := (List.cons.inj hdollar).1
          simp [← hb] at hb'
  | cons a A ih =>
      cases B with
      | nil =>
          have ha : a = '.' := (List.cons.inj hdot).1
          have ha' : a = '$' := (List.cons.inj hdollar).1
          simp [ha] at ha'
      | cons b B =>
          rcases List.cons.inj hdot with ⟨hab, hdot⟩
          rcases ih hdot (List.cons.inj hdollar).2 with ⟨hA, hF⟩
          exact ⟨by rw [hab, hA], hF⟩

/-- Different places are selected by different texts. -/
theorem sortText_injective : Function.Injective sortText := by
  rintro ⟨a, f⟩ ⟨b, g⟩ h
  have hchars := congrArg String.toList h
  simp only [sortText, String.toList_append, List.append_assoc] at hchars
  -- The two halves of a text are equally long, so equal texts split at the same place.
  have hlength := congrArg List.length hchars
  simp only [List.length_append] at hlength
  have hsplit : (a.toList ++ (".".toList ++ f.toList)) ++ (" AS ".toList ++
      (a.toList ++ ("$".toList ++ f.toList))) =
        (b.toList ++ (".".toList ++ g.toList)) ++ (" AS ".toList ++
          (b.toList ++ ("$".toList ++ g.toList))) := by
    simpa only [List.append_assoc] using hchars
  rcases List.append_inj hsplit (by simp only [List.length_append]; omega) with ⟨hdot, hrest⟩
  rcases eq_of_marked hdot (List.append_cancel_left hrest) with ⟨ha, hf⟩
  exact Prod.ext (String.toList_inj.1 ha) (String.toList_inj.1 hf)

/-! ## The list after a decision -/

theorem Traced.selectList_decideOrdering (hd : d.Traced) (p : Platform) :
    (d.decideOrdering p).query.selectList =
      d.query.selectList ++ (d.addedPlaces p).map sortText := by
  have htexts : ((d.addedPlaces p).map fun place => (d.columnAt place).entry).map (·.text) =
      (d.addedPlaces p).map sortText := by
    rw [List.map_map]
    exact List.map_congr_left fun place _ => text_columnAt d place
  rw [← htexts]
  exact (hd.selects_decideOrdering p).selectList

/-- Whatever the order fields are, the decision on the ordering appends the missing places: those that
a sortable order field is written with, and that are neither selected nor named by a result column, if
the caller sorts.  No entry is appended twice exactly if each of these places is written once, and all
of them are columns of tables of the query if all sortable order fields are. -/
theorem sortColumns_of_use (p : Platform) (actions : List Action) (fields : List OrderField) :
    let d := (actAll p actions {}).setOrderFields fields
    let after := d.decideOrdering p
    let added := d.addedPlaces p
    after.query.selectList = d.query.selectList ++ added.map sortText ∧
      (∀ place, place ∈ added ↔
        after.sortsInDatabase = false ∧ place ∈ d.writtenPlaces ∧ isUnsortable place.2 = false ∧
          d.origins.contains place.2 = false ∧ d.hasField place.1 place.2 = false) ∧
      ((added.map sortText).Nodup ↔ ∀ place ∈ added, d.writtenPlaces.count place = 1) ∧
      ((∀ place ∈ d.writtenPlaces, isUnsortable place.2 = false → d.query.HasColumn place) →
        ∀ place ∈ added, d.query.HasColumn place) := by
  intro d after added
  have hd : d.Traced := (traced_actAll p actions).setQuery rfl rfl
  refine ⟨hd.selectList_decideOrdering p, fun place => ?_, ?_, fun hcolumns place hplace => ?_⟩
  · simp only [added, mem_addedPlaces, lacks_iff, after]
  · rw [List.nodup_map_iff sortText_injective, List.nodup_iff_count_eq_one]
    exact forall₂_congr fun place hplace => by rw [count_addedPlaces hplace]
  · rcases mem_addedPlaces.1 hplace with ⟨_, hwritten, hlacks⟩
    exact hcolumns place hwritten (lacks_iff.1 hlacks).1

/-- Pages, content on them in several languages, and events in one language each. -/
def Catalog.multilingual : Catalog where
  tables := .ofList
    [("pages",
        { columns := .ofList [("uid", none), ("pid", none), ("title", none), ("subtitle", none)] }),
      ("content",
        { columns := .ofList [("uid", none), ("pid", none), ("title", none), ("bodytext", none)]
          control := { language := some "sys_language_uid", languageParent := some "l18n_parent" } }),
      ("event",
        { columns := .ofList [("uid", none), ("pid", none), ("title", none)]
          control := { language := some "sys_language_uid" } })]

/-- The multilingual site, asked for its second language. -/
def secondLanguage : Platform :=
  Catalog.multilingual.platform { RequestContext.atTime 0 with language := 1 } {}

/-- Content and pages in the given order. -/
def contentText (order : String) : String :=
  "SELECT title FROM content, pages AS p ORDER BY " ++ order

def contentOrderedBy (order : String) : Draft :=
  actAll secondLanguage [.parse (contentText order)] {}

/-- An ascending order field of which nobody says who sorts by it. -/
def ascending (field : String) : OrderField :=
  { field, direction := "ASC", engine := none, aliasName := none }

/-- Content to be sorted by its body and by a column of its page. -/
def sortedContent : Draft :=
  (contentOrderedBy "uid").setOrderFields [ascending "bodytext", ascending "p.subtitle"]

/-- Both columns are selected for sorting, once each. -/
theorem sortColumns_of_content :
    (sortedContent.decideOrdering secondLanguage).query.selectList =
        sortedContent.query.selectList ++
          ["content.bodytext AS content$bodytext", "p.subtitle AS p$subtitle"] ∧
      sortedContent.query.HasColumn ("content", "bodytext") ∧
      sortedContent.query.HasColumn ("p", "subtitle") := by
  have hread : sortedContent.addedPlaces secondLanguage =
        [("content", "bodytext"), ("p", "subtitle")] ∧
      ∀ place ∈ sortedContent.writtenPlaces, isUnsortable place.2 = false →
        sortedContent.query.HasColumn place := by
    decide +kernel
  rcases hread with ⟨hplaces, hcolumns⟩
  have huse := sortColumns_of_use secondLanguage [.parse (contentText "uid")]
    [ascending "bodytext", ascending "p.subtitle"]
  rw [← contentOrderedBy, ← sortedContent] at huse
  rcases huse with ⟨hlist, _, _, hadded⟩
  have hnew := hadded hcolumns
  rw [hplaces] at hlist hnew
  exact ⟨hlist, hnew _ (by simp), hnew _ (by simp)⟩

/-- The body is selected twice where it is written twice, and a call is selected as a column of a table
that the query does not have. -/
theorem sortColumns_repeated :
    let twice := contentOrderedBy "bodytext, bodytext"
    let call := contentOrderedBy "bodytext, FIELD(p.uid, 3)"
    (twice.decideOrdering secondLanguage).query.selectList = twice.query.selectList ++
        ["content.bodytext AS content$bodytext", "content.bodytext AS content$bodytext"] ∧
      (call.decideOrdering secondLanguage).query.selectList = call.query.selectList ++
        ["content.bodytext AS content$bodytext", "FIELD(p.uid, 3) AS FIELD(p$uid, 3)"] ∧
      call.query.tableOfAlias.keys = ["content", "p"] ∧
      ¬ call.query.HasColumn ("FIELD(p", "uid, 3)") := by
  decide +kernel

/-! ## What the caller can sort by -/

/-- In every use, if the caller sorts, the column that an order field is written with is selected
exactly if it was before or no result column has its name.  So the caller can sort by it if the result
column of that name, where there is one, comes from it. -/
theorem sortable_of_use (p : Platform) (actions : List Action) :
    let d := actAll p actions {}
    let after := (d.build p).1
    after.sortsInDatabase = false →
      ∀ f ∈ d.query.orderFields, isUnsortable (d.writtenPlace f).2 = false →
        (after.hasField (d.writtenPlace f).1 (d.writtenPlace f).2 = true ↔
          d.hasField (d.writtenPlace f).1 (d.writtenPlace f).2 = true ∨
            d.origins.contains (d.writtenPlace f).2 = false) ∧
        ((∀ origin ∈ d.origins.get? (d.writtenPlace f).2,
            (origin.tableAlias, origin.field) = d.writtenPlace f) →
          after.hasField (d.writtenPlace f).1 (d.writtenPlace f).2 = true) := by
  intro d after hcaller f hf hsortable
  have hd : d.Traced := traced_actAll p actions
  generalize hplace : d.writtenPlace f = place at *
  have hwritten : place ∈ d.writtenPlaces := List.mem_map.2 ⟨f, hf, hplace⟩
  -- If the caller sorts, the columns to sort by are added where they lack and their names are free.
  have hadded : place ∈ d.addedPlaces p ↔
      d.origins.contains place.2 = false ∧ d.hasField place.1 place.2 = false := by
    have hcaller' : (d.decideOrdering p).sortsInDatabase = false := hcaller
    simp only [mem_addedPlaces, lacks_iff, hcaller', hwritten, hsortable, true_and]
  have hafter : after.hasField place.1 place.2 = true ↔
      d.hasField place.1 place.2 = true ∨ d.origins.contains place.2 = false := by
    calc after.hasField place.1 place.2 = true
        ↔ d.hasField place.1 place.2 = true ∨ place ∈ d.addedPlaces p :=
          hd.hasField_decideOrdering p
      _ ↔ d.hasField place.1 place.2 = true ∨ d.origins.contains place.2 = false := by
          rw [hadded]
          cases d.hasField place.1 place.2 <;> simp
  refine ⟨hafter, fun hown => hafter.2 ?_⟩
  cases horigin : d.origins.get? place.2 with
  | none => exact .inr (by rw [OrderedMap.contains, horigin]; rfl)
  | some origin =>
      have hselected := hd.consistent.origins _ (OrderedMap.get?_eq_some_iff.1 horigin)
      have hsame := hown origin horigin
      exact .inl (by rw [← hsame]; exact hselected)

/-- Content in the order of its body and of a column of the page. -/
def bodyFirst : Draft :=
  contentOrderedBy "bodytext, p.subtitle"

/-- The caller can sort by both. -/
theorem sortable_of_content :
    (bodyFirst.build secondLanguage).1.sortsInDatabase = false ∧
      ∀ place ∈ [("content", "bodytext"), ("p", "subtitle")],
        (bodyFirst.build secondLanguage).1.hasField place.1 place.2 = true := by
  have huse := sortable_of_use secondLanguage [.parse (contentText "bodytext, p.subtitle")]
  rw [← contentOrderedBy, ← bodyFirst] at huse
  have hread : (bodyFirst.build secondLanguage).1.sortsInDatabase = false ∧
      bodyFirst.query.orderFields = [ascending "bodytext", ascending "p.subtitle"] ∧
      bodyFirst.writtenPlace (ascending "bodytext") = ("content", "bodytext") ∧
      bodyFirst.writtenPlace (ascending "p.subtitle") = ("p", "subtitle") ∧
      bodyFirst.origins.contains "bodytext" = false ∧
      bodyFirst.origins.contains "subtitle" = false := by
    decide +kernel
  rcases hread with ⟨hcaller, hfields, hcontent, hpage, hbody, hsubtitle⟩
  have hfirst := huse hcaller (ascending "bodytext") (by simp [hfields])
  have hsecond := huse hcaller (ascending "p.subtitle") (by simp [hfields])
  rw [hcontent] at hfirst
  rw [hpage] at hsecond
  refine ⟨hcaller, ?_⟩
  simp only [List.forall_mem_cons, List.not_mem_nil, false_implies, implies_true, and_true]
  exact ⟨(hfirst (by decide)).1.2 (.inr hbody), (hsecond (by decide)).1.2 (.inr hsubtitle)⟩

/-- The titles of the pages are never selected where the content has a title too. -/
theorem pageTitle_unselected :
    let d := contentOrderedBy "bodytext, p.title"
    let after := (d.build secondLanguage).1
    after.sortsInDatabase = false ∧ d.query.HasColumn ("p", "title") ∧
      d.query.orderFields = [ascending "bodytext", ascending "p.title"] ∧
      after.hasField "p" "title" = false ∧
      after.query.selectList =
        ["content.title", "content.uid", "content.pid", "content.bodytext AS content$bodytext"] := by
  decide +kernel

end Draft
end ContentQuery
