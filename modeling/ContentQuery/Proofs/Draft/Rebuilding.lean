import ContentQuery.Proofs.Draft.Reachable

/-!
# Building once more

Building rewrites the order fields: a field whose column is selected under an alias goes by the alias
from then on.  When the draft is built again, the alias is read like any order field.  So building
again changes nothing if each alias leads back to the place that it stands for, and if no order field
goes by the name of a result column that is added for sorting.

This is not so for a field of a join under an alias: its result column has the alias of the join in
front, so the bare alias is taken for a field of the main table.
-/

namespace ContentQuery
namespace Draft

/-! ## One order field -/

variable {p : Platform} {d d' : Draft} {f : OrderField}

/-- The alias under which the column of an order field is selected. -/
def selectedAs (d : Draft) (f : OrderField) : Option String :=
  d.query.fieldAlias? (orderColumn d.query.mainAlias f.field).1
    (orderColumn d.query.mainAlias f.field).2

/-- The name by which an order field is looked up among the result columns. -/
def sortName (d : Draft) (f : OrderField) : String :=
  (d.selectedAs f).getD (orderColumn d.query.mainAlias f.field).2

/-- The table alias and the field that an order field stands for. -/
def sortPlace (d : Draft) (f : OrderField) : String × String :=
  match d.origins.get? (d.sortName f) with
  | some origin => (origin.tableAlias, origin.field)
  | none => ((orderColumn d.query.mainAlias f.field).1, d.sortName f)

def renamed (d : Draft) (f : OrderField) : OrderField :=
  match d.selectedAs f with
  | some name =>
      { f with field := name, aliasName := some (orderColumn d.query.mainAlias f.field).2 }
  | none => f

theorem decideOrder_unsortable
    (h : isUnsortable (orderColumn d.query.mainAlias f.field).2 = true) :
    decideOrder p d f = { field := f, byCaller := false, missing := none } := by
  simp only [decideOrder, h, if_true]

theorem decideOrder_sortable
    (h : isUnsortable (orderColumn d.query.mainAlias f.field).2 = false) :
    decideOrder p d f =
      { field := d.renamed f
        byCaller :=
          mustSortByCaller p f.engine (d.query.tableOf (d.sortPlace f).1) (d.sortPlace f).2
        missing :=
          if d.hasField (d.sortPlace f).1 (d.sortPlace f).2 || (d.selectedAs f).isSome then none
          else
            some
              { table := d.query.tableOf (d.sortPlace f).1
                aliasName := (d.sortPlace f).1
                field := (d.sortPlace f).2 } } := by
  simp only [decideOrder, h, Bool.false_eq_true, if_false, sortPlace, sortName]
  rfl

/-- The alias that an order field goes by after building is read as the same place: it is the plain
name of a result column, and no field that is selected under another alias. -/
def Lasting (d : Draft) (f : OrderField) : Prop :=
  isUnsortable (orderColumn d.query.mainAlias f.field).2 = false →
    ∀ name ∈ d.selectedAs f,
      orderColumn d.query.mainAlias name = (d.query.mainAlias, name) ∧
        isUnsortable name = false ∧ d.origins.contains name = true ∧
        ∀ other ∈ d.query.fieldAlias? d.query.mainAlias name,
          other = name ∧ (orderColumn d.query.mainAlias f.field).2 = name

instance (d : Draft) (f : OrderField) : Decidable (d.Lasting f) := by
  unfold Lasting
  infer_instance

/-- A decision on an order field made once more, in a later draft: it is the same, and a column that is
missing now was missing before. -/
structure OrderDecision.Confirms (again first : OrderDecision) (later : Draft) : Prop where
  field : again.field = first.field
  byCaller : again.byCaller = first.byCaller
  missing : ∀ c ∈ again.missing, c ∈ first.missing ∧ later.hasField c.aliasName c.field = false

namespace Grows

variable {name : String}

/-- The parts of the query that a decision reads stay. -/
theorem orderRecords (h : d.Grows d') :
    d'.query.mainAlias = d.query.mainAlias ∧ d'.query.fieldAliases = d.query.fieldAliases ∧
      d'.query.tableOf = d.query.tableOf :=
  ⟨h.query.kept Query.mainAlias fun _ => rfl, h.query.kept Query.fieldAliases fun _ => rfl,
    h.query.kept Query.tableOf fun _ => rfl⟩

theorem selectedAs_eq (h : d.Grows d') (f : OrderField) : d'.selectedAs f = d.selectedAs f := by
  rw [selectedAs, h.orderRecords.1, Query.fieldAlias?, h.orderRecords.2.1]
  rfl

/-- A field that keeps its name stands for the same place. -/
theorem confirms_kept (h : d.Grows d')
    (hsortable : isUnsortable (orderColumn d.query.mainAlias f.field).2 = false)
    (halias : d.selectedAs f = none)
    (hsame : d'.origins.get? (d.sortName f) = d.origins.get? (d.sortName f)) :
    (decideOrder p d' f).Confirms (decideOrder p d f) d' := by
  rcases h.orderRecords with ⟨hmain, _, htable⟩
  -- Name, place and renaming are as they were; only a missing column may be selected by now.
  have hname : d'.sortName f = d.sortName f := by
    rw [sortName, h.selectedAs_eq, hmain, sortName]
  have hplace : d'.sortPlace f = d.sortPlace f := by
    rw [sortPlace, hname, hsame, hmain, sortPlace]
  have hrenamed : d'.renamed f = d.renamed f := by
    rw [renamed, h.selectedAs_eq, hmain, renamed]
  rw [decideOrder_sortable hsortable, decideOrder_sortable (by rwa [hmain]), hplace, hrenamed, htable,
    h.selectedAs_eq, halias]
  refine ⟨rfl, rfl, ?_⟩
  simp only [Option.isSome_none, Bool.or_false]
  intro c hc
  split at hc
  · cases hc
  · next hmissing =>
      have hbefore : d.hasField (d.sortPlace f).1 (d.sortPlace f).2 = false := by
        rw [Bool.eq_false_iff]
        exact fun hfield => hmissing (h.fields _ _ hfield)
      cases hc
      simp [hbefore, hmissing]

/-- A field that goes by an alias is looked up as a column of the main table, and found again. -/
theorem confirms_renamed (h : d.Grows d') (hd : d.Consistent)
    (hsortable : isUnsortable (orderColumn d.query.mainAlias f.field).2 = false)
    (hf : d.Lasting f) (halias : d.selectedAs f = some name)
    (hsame : d'.origins.get? name = d.origins.get? name) :
    (decideOrder p d' (d.renamed f)).Confirms (decideOrder p d f) d' := by
  rcases h.orderRecords with ⟨hmain, haliases, htable⟩
  rcases hf hsortable name halias with ⟨hcolumn, hplain, hcontained, hother⟩
  rcases Option.isSome_iff_exists.1 hcontained with ⟨origin, horigin⟩
  have hrenamed : d.renamed f = { f with
      field := name, aliasName := some (orderColumn d.query.mainAlias f.field).2 } := by
    rw [renamed, halias]
  have hread : orderColumn d'.query.mainAlias (d.renamed f).field = (d.query.mainAlias, name) := by
    rw [hrenamed, hmain, hcolumn]
  have hagain : d'.selectedAs (d.renamed f) = d.query.fieldAlias? d.query.mainAlias name := by
    rw [selectedAs, hread, Query.fieldAlias?, haliases]
    rfl
  have hplace : d.sortPlace f = (origin.tableAlias, origin.field) := by
    rw [sortPlace, sortName, halias, Option.getD_some, horigin]
  have hplaceAgain : d'.sortPlace (d.renamed f) = d.sortPlace f := by
    have hname : d'.sortName (d.renamed f) = name := by
      rw [sortName, hagain, hread]
      cases hsecond : d.query.fieldAlias? d.query.mainAlias name with
      | none => rfl
      | some other => exact (hother other hsecond).1
    rw [sortPlace, hname, hsame, horigin, hplace]
  -- Where the alias is a field under an alias itself, it is under its own name.
  have hrenamedAgain : d'.renamed (d.renamed f) = d.renamed f := by
    rw [renamed, hagain, hread]
    cases hsecond : d.query.fieldAlias? d.query.mainAlias name with
    | none => rfl
    | some other =>
        rcases hother other hsecond with ⟨hname, hsource⟩
        rw [hrenamed, hname, hsource]
  have hselected : d'.hasField (d.sortPlace f).1 (d.sortPlace f).2 = true := by
    rw [hplace]
    exact h.fields _ _ (hd.origins (name, origin) (OrderedMap.get?_eq_some_iff.1 horigin))
  have hengine : (d.renamed f).engine = f.engine := by rw [hrenamed]
  rw [decideOrder_sortable hsortable, decideOrder_sortable (by rwa [hread]), hplaceAgain,
    hrenamedAgain, htable, hengine, hselected]
  refine ⟨rfl, rfl, ?_⟩
  simp

/-- The decision on a lasting order field is confirmed, whatever the draft gains, if the result column
that the field goes by is still the same. -/
theorem confirms (h : d.Grows d') (hd : d.Consistent) (hf : d.Lasting f)
    (hsame : d'.origins.get? (d.sortName f) = d.origins.get? (d.sortName f)) :
    (decideOrder p d' (decideOrder p d f).field).Confirms (decideOrder p d f) d' := by
  cases hsortable : isUnsortable (orderColumn d.query.mainAlias f.field).2 with
  | true =>
      have hmain := h.orderRecords.1
      rw [decideOrder_unsortable hsortable, decideOrder_unsortable (by rwa [hmain])]
      exact ⟨rfl, rfl, by simp⟩
  | false =>
      have hfield : (decideOrder p d f).field = d.renamed f := by
        rw [decideOrder_sortable hsortable]
      rw [hfield]
      -- A column without an alias is decided on as before; one with an alias is renamed to it.
      cases halias : d.selectedAs f with
      | none =>
          have hrenamed : d.renamed f = f := by rw [renamed, halias]
          rw [hrenamed]
          exact h.confirms_kept hsortable halias hsame
      | some name =>
          rw [sortName, halias] at hsame
          exact h.confirms_renamed hd hsortable hf halias hsame

end Grows

/-! ## All order fields -/

/-- The result column under which a column is selected for sorting. -/
def SortColumn.resultColumn (c : SortColumn) : String :=
  c.aliasName ++ "$" ++ c.field

def decisions (p : Platform) (d : Draft) : List OrderDecision :=
  d.query.orderFields.map (decideOrder p d)

/-- The columns that are selected for sorting: the missing ones, if the caller sorts. -/
def sortColumns (p : Platform) (d : Draft) : List SortColumn :=
  if (d.decisions p).any (·.byCaller) then (d.decisions p).filterMap (·.missing) else []

def selectForSorting (d : Draft) (columns : List SortColumn) : Draft :=
  columns.foldl (fun d c => d.select c.table c.aliasName c.field c.resultColumn) d

def setOrderFields (d : Draft) (fields : List OrderField) : Draft :=
  { d with query := { d.query with orderFields := fields } }

def setSorting (d : Draft) (inDatabase : Bool) : Draft :=
  { d with sortsInDatabase := inDatabase }

/-- A setting that selecting a column does not touch may be set after the selection as well. -/
theorem selectForSorting_comm {f : Draft → Draft}
    (hf : ∀ (d : Draft) (c : SortColumn),
      (f d).select c.table c.aliasName c.field c.resultColumn =
        f (d.select c.table c.aliasName c.field c.resultColumn))
    (columns : List SortColumn) (d : Draft) :
    (f d).selectForSorting columns = f (d.selectForSorting columns) := by
  induction columns generalizing d with
  | nil => rfl
  | cons c columns ih =>
      calc (f d).selectForSorting (c :: columns)
          = ((f d).select c.table c.aliasName c.field c.resultColumn).selectForSorting columns := rfl
        _ = (f (d.select c.table c.aliasName c.field c.resultColumn)).selectForSorting columns := by
              rw [hf]
        _ = f (d.selectForSorting (c :: columns)) := ih _

theorem orderFields_selectForSorting (columns : List SortColumn) (d : Draft) :
    (d.selectForSorting columns).query.orderFields = d.query.orderFields := by
  induction columns generalizing d with
  | nil => rfl
  | cons c columns ih => exact ih (d.select c.table c.aliasName c.field c.resultColumn)

/-- Other result columns stay as they are. -/
theorem origins_selectForSorting {name : String} (columns : List SortColumn) (d : Draft)
    (h : ∀ c ∈ columns, name ≠ c.resultColumn) :
    (d.selectForSorting columns).origins.get? name = d.origins.get? name := by
  induction columns generalizing d with
  | nil => rfl
  | cons c columns ih =>
      have hone : (d.select c.table c.aliasName c.field c.resultColumn).origins.get? name =
          d.origins.get? name := by
        show (d.origins.insert c.resultColumn _).get? name = _
        rw [OrderedMap.get?_insert, if_neg (h c (by simp))]
      exact (ih _ fun c' hc' => h c' (by simp [hc'])).trans hone

theorem grows_selectForSorting (columns : List SortColumn) (d : Draft) :
    d.Grows (d.selectForSorting columns) :=
  grows_foldl (fun d (c : SortColumn) => d.grows_select c.table c.aliasName c.field c.resultColumn)
    columns d

theorem hasField_selectForSorting {c : SortColumn} (columns : List SortColumn) (d : Draft)
    (hc : c ∈ columns) :
    (d.selectForSorting columns).hasField c.aliasName c.field = true := by
  induction columns generalizing d with
  | nil => simp at hc
  | cons c' columns ih =>
      rcases List.mem_cons.1 hc with rfl | hc
      · refine (grows_selectForSorting columns _).fields _ _ ?_
        have hnoted := d.hasField_noteField c.table c.aliasName { name := c.field, isCall := false }
          c.aliasName c.field
        exact hnoted.2 (.inr ⟨rfl, rfl⟩)
      · exact ih _ hc

/-- The decision on the ordering: the order fields are renamed, the columns to sort by selected. -/
theorem decideOrdering_eq (hlanguage : p.context.language ≠ 0) (d : Draft) :
    d.decideOrdering p =
      ((d.setOrderFields ((d.decisions p).map (·.field))).selectForSorting
        (d.sortColumns p)).setSorting (!(d.decisions p).any (·.byCaller)) := by
  have hdecisions : d.query.orderFields.map (decideOrder p { d with sortsInDatabase := true }) =
      d.decisions p := rfl
  have hlanguage' : (p.context.language == 0) = false := by simpa using hlanguage
  unfold decideOrdering
  simp only [hlanguage', Bool.or_false, hdecisions]
  cases hfields : d.query.orderFields with
  | nil =>
      have hnone : d.decisions p = [] := by rw [decisions, hfields, List.map_nil]
      have hsame : d.setOrderFields [] = d := by rw [setOrderFields, ← hfields]
      simp only [sortColumns, hnone, List.map_nil, hsame]
      rfl
  | cons f fields =>
      simp only [List.isEmpty_cons, Bool.false_eq_true, if_false]
      cases hcaller : (d.decisions p).any (·.byCaller) with
      | true =>
          simp only [if_true, sortColumns, hcaller]
          -- Selecting columns does not look at the flag, so it may be set before or behind.
          show ((((d.setOrderFields _).setSorting true).selectForSorting _).setSorting false) = _
          rw [selectForSorting_comm (f := (setSorting · true)) fun _ _ => rfl]
          rfl
      | false =>
          simp only [Bool.false_eq_true, if_false, sortColumns, hcaller]
          rfl

/-! ### What a decision leaves -/

section Decided

variable (hlanguage : p.context.language ≠ 0)

include hlanguage

theorem orderFields_decideOrdering (d : Draft) :
    (d.decideOrdering p).query.orderFields = (d.decisions p).map (·.field) := by
  rw [decideOrdering_eq hlanguage]
  exact orderFields_selectForSorting (d.sortColumns p) _

theorem sortsInDatabase_decideOrdering (d : Draft) :
    (d.decideOrdering p).sortsInDatabase = !(d.decisions p).any (·.byCaller) := by
  rw [decideOrdering_eq hlanguage, setSorting]

theorem hasField_decideOrdering {c : SortColumn} (hc : c ∈ d.sortColumns p) :
    (d.decideOrdering p).hasField c.aliasName c.field = true := by
  rw [decideOrdering_eq hlanguage]
  exact hasField_selectForSorting (d.sortColumns p) _ hc

theorem origins_decideOrdering {name : String}
    (h : ∀ c ∈ d.sortColumns p, name ≠ c.resultColumn) :
    (d.decideOrdering p).origins.get? name = d.origins.get? name := by
  rw [decideOrdering_eq hlanguage]
  exact origins_selectForSorting (d.sortColumns p) _ h

/-- A second decision is about the fields that the first one left. -/
theorem decisions_decideOrdering (d : Draft) :
    (d.decideOrdering p).decisions p =
      d.query.orderFields.map fun f => decideOrder p (d.decideOrdering p) (decideOrder p d f).field := by
  simp only [decisions, orderFields_decideOrdering hlanguage, List.map_map, Function.comp_def]

end Decided

/-! ## Building twice -/

/-- The order fields are decided on in the same way once more. -/
structure OrderLasts (p : Platform) (d : Draft) : Prop where
  lasting : ∀ f ∈ d.query.orderFields, d.Lasting f
  /-- None goes by the name of a result column that is added for sorting. -/
  apart : ∀ f ∈ d.query.orderFields, ∀ c ∈ d.sortColumns p, d.sortName f ≠ c.resultColumn

section Again

variable (hlanguage : p.context.language ≠ 0) (hd : d.Consistent) (hl : d.OrderLasts p)

include hlanguage hd hl

theorem confirms_decideOrdering (hf : f ∈ d.query.orderFields) :
    (decideOrder p (d.decideOrdering p) (decideOrder p d f).field).Confirms (decideOrder p d f)
      (d.decideOrdering p) := by
  have horigin := origins_decideOrdering hlanguage (hl.apart f hf)
  exact (d.grows_decideOrdering p).confirms hd (hl.lasting f hf) horigin

/-- What is confirmed of every decision is the same for all of them. -/
theorem map_decisions_again {α : Type} (r : OrderDecision → α)
    (hr : ∀ again first later, OrderDecision.Confirms again first later → r again = r first) :
    ((d.decideOrdering p).decisions p).map r = (d.decisions p).map r := by
  rw [decisions_decideOrdering hlanguage, decisions, List.map_map, List.map_map]
  apply List.map_congr_left
  intro f hf
  exact hr _ _ _ (confirms_decideOrdering hlanguage hd hl hf)

theorem byCaller_again :
    ((d.decideOrdering p).decisions p).any (·.byCaller) = (d.decisions p).any (·.byCaller) := by
  have hmap := map_decisions_again hlanguage hd hl (·.byCaller) fun _ _ _ h => h.byCaller
  simpa only [List.any_map, Function.id_comp] using congrArg (·.any id) hmap

/-- A column that is missing once more was missing before, and so was selected. -/
theorem sortColumns_again : (d.decideOrdering p).sortColumns p = [] := by
  rw [sortColumns, byCaller_again hlanguage hd hl]
  split
  · next hcaller =>
      rw [decisions_decideOrdering hlanguage, List.filterMap_eq_nil_iff]
      intro decision hdecision
      rcases List.mem_map.1 hdecision with ⟨f, hf, rfl⟩
      rw [Option.eq_none_iff_forall_not_mem]
      intro c hc
      -- What a second decision misses, the first one missed too, and it is selected by now.
      rcases (confirms_decideOrdering hlanguage hd hl hf).missing c hc with ⟨hmissing, hunselected⟩
      have hcolumn : c ∈ d.sortColumns p := by
        rw [sortColumns, if_pos hcaller]
        exact List.mem_filterMap.2 ⟨_, List.mem_map.2 ⟨f, hf, rfl⟩, hmissing⟩
      rw [hasField_decideOrdering hlanguage hcolumn] at hunselected
      cases hunselected
  · rfl

theorem decideOrdering_again : (d.decideOrdering p).decideOrdering p = d.decideOrdering p := by
  have hfields := map_decisions_again hlanguage hd hl (·.field) fun _ _ _ h => h.field
  -- Nothing is left to rename or to select.
  rw [decideOrdering_eq hlanguage (d.decideOrdering p), hfields, byCaller_again hlanguage hd hl,
    sortColumns_again hlanguage hd hl, ← orderFields_decideOrdering hlanguage d,
    ← sortsInDatabase_decideOrdering hlanguage d]
  rfl

end Again

/-- A count that is set does not change the decision. -/
theorem decideOrdering_setLimit (p : Platform) (d : Draft) (limit : Nat) :
    (d.setLimit limit).decideOrdering p = (d.decideOrdering p).setLimit limit := by
  by_cases hlanguage : p.context.language = 0
  · simp only [decideOrdering, hlanguage, beq_self_eq_true, Bool.or_true, if_true]
    rfl
  · have hdecisions : (d.setLimit limit).decisions p = d.decisions p := rfl
    have hcolumns : (d.setLimit limit).sortColumns p = d.sortColumns p := by
      rw [sortColumns, hdecisions, sortColumns]
    have hselected := selectForSorting_comm (f := (setLimit · limit)) (fun _ _ => rfl)
      (d.sortColumns p) (d.setOrderFields ((d.decisions p).map (·.field)))
    rw [decideOrdering_eq hlanguage, decideOrdering_eq hlanguage, hdecisions, hcolumns]
    exact congrArg (setSorting · _) hselected

/-- Building twice gives one statement and leaves the draft, and so the statement for one row is the
checked one with its limit replaced: in the default language for every draft, in another one where
the order fields last. -/
theorem build_again (p : Platform) :
    (∀ d : Draft, Reachable p d → (p.context.language ≠ 0 → d.OrderLasts p) →
      (d.build p).1.build p = d.build p) ∧
    ∀ (d₀ d : Draft) (text warning : String), d₀.parse p text = (d, .ok warning) →
      (p.context.language ≠ 0 → d.OrderLasts p) →
        ∃ (q : Query) (inDatabase : Bool), (d₀.check p text).2 = .ok
          { query := q.render inDatabase
            validationQuery := { q with limit := some 1 }.render inDatabase
            warning } := by
  -- For the default language nothing is decided on; otherwise a second decision changes nothing.
  have htwice : ∀ d : Draft, Reachable p d → (p.context.language ≠ 0 → d.OrderLasts p) →
      (d.decideOrdering p).decideOrdering p = d.decideOrdering p := by
    intro d hd hl
    by_cases hlanguage : p.context.language = 0
    · simp only [decideOrdering, hlanguage, beq_self_eq_true, Bool.or_true, if_true]
    · exact decideOrdering_again hlanguage hd.consistent (hl hlanguage)
  constructor
  · intro d hd hl
    rw [build, build, htwice d hd hl]
  · intro d₀ d text warning hparse hl
    refine ⟨(d.decideOrdering p).query, (d.decideOrdering p).sortsInDatabase, ?_⟩
    simp only [check, hparse, build, decideOrdering_setLimit, htwice d (.of_parse hparse) hl]
    rfl

end Draft

/-! ## Examples -/

/-- Pages in one language, and translated content on them. -/
def Catalog.bilingual : Catalog where
  tables := .ofList
    [("pages", { columns := .ofList [("uid", none), ("pid", none), ("title", none)] }),
      ("content",
        { columns := .ofList [("uid", none), ("pid", none), ("header", none), ("bodytext", none)]
          control :=
            { language := some "sys_language_uid", languageParent := some "l18n_parent" } })]

namespace Draft

/-- The bilingual site, asked for its second language. -/
def translatedSite : Platform :=
  Catalog.bilingual.platform { RequestContext.atTime 0 with language := 1 } {}

/-- Content under headlines of its own, sorted by the caller. -/
def headlineText : String :=
  "SELECT uid, header AS headline FROM content ORDER BY header, bodytext LIMIT 20"

/-- Content with the title of its page, sorted by the title. -/
def pageTitleText : String :=
  "SELECT uid, p.title AS headline FROM content INNER JOIN pages AS p ON p.uid = content.pid " ++
    "ORDER BY p.title"

/-- The listing under headlines is built again as it is, and for one row. -/
theorem build_again_headlines :
    let d := (({} : Draft).parse translatedSite headlineText).1
    (d.build translatedSite).1.build translatedSite = d.build translatedSite ∧
      ∃ (q : Query) (inDatabase : Bool), (({} : Draft).check translatedSite headlineText).2 = .ok
        { query := q.render inDatabase
          validationQuery := { q with limit := some 1 }.render inDatabase
          warning := "" } := by
  have hparse : ({} : Draft).parse translatedSite headlineText =
      ((({} : Draft).parse translatedSite headlineText).1, .ok "") := by
    refine Prod.ext rfl ?_
    decide +kernel
  have hlasts : (({} : Draft).parse translatedSite headlineText).1.OrderLasts translatedSite :=
    ⟨by decide +kernel, by decide +kernel⟩
  exact ⟨(build_again translatedSite).1 _ (Reachable.fresh.parse headlineText) fun _ => hlasts,
    (build_again translatedSite).2 {} _ headlineText "" hparse fun _ => hlasts⟩

/-- The title is selected under an alias of a join.  Built again, the alias is taken for a translated
column of the content: the column is selected and the database does not sort any more. -/
theorem pageTitle_unsorted_again :
    (({} : Draft).check translatedSite pageTitleText).2 = .ok
      { query := "SELECT content.uid, p.title AS p$headline, content.pid, p.uid AS p$uid, " ++
          "p.pid AS p$pid FROM content AS content INNER JOIN pages AS p ON p.uid = content.pid " ++
          "ORDER BY p.title"
        validationQuery := "SELECT content.uid, p.title AS p$headline, content.pid, p.uid AS p$uid, " ++
          "p.pid AS p$pid, content.headline AS content$headline FROM content AS content " ++
          "INNER JOIN pages AS p ON p.uid = content.pid LIMIT 1"
        warning := "" } := by
  decide +kernel

end Draft
end ContentQuery
