import ContentQuery.Proofs.Draft.Rebuilding
import ContentQuery.Proofs.Draft.Selections

/-!
# SELECT lists of DISTINCT queries

A column that is added to the SELECT list of a DISTINCT query changes which rows are the same.  So
base fields and the columns for language overlays are left out of such a query.  Not so the columns
that the preview of a workspace asks for, and those that the caller is to sort by: the list stays as
it was written exactly if it has them already.
-/

namespace ContentQuery

/-! ## What a preview asks for -/

namespace Catalog

/-- The columns that an overlay with versions needs. -/
def workspaceColumns : List String :=
  ["uid", "pid", "t3ver_state"]

/-- A versioned table is previewed by rules that are always available. -/
theorem previewRules_of_versioned {catalog : Catalog} {table : String}
    (h : catalog.isVersioned table = true) (context : RequestContext) (settings : Settings)
    (a : String) (selected : List String) :
    ∃ condition, Draft.previewRules (catalog.platform context settings) table a selected =
      .ok (complete selected workspaceColumns, condition) := by
  have hcondition : ∃ condition, catalog.versionCondition table a
      (settings.directVersions.contains a) context = .ok condition := by
    unfold versionCondition
    cases settings.directVersions.contains a <;> simp [h]
  rcases hcondition with ⟨condition, hcondition⟩
  refine ⟨condition, ?_⟩
  simp only [Draft.previewRules, platform, toPolicy, versionColumns, hcondition, h]
  rfl

end Catalog

namespace Draft

variable {p : Platform}

/-! ## Lists that stay -/

/-- With the list all records of the selected fields stay. -/
theorem Steps.selection_eq {d d' : Draft} (h : Steps d d')
    (hlist : d'.query.selectList = d.query.selectList) : d'.selection = d.selection := by
  rcases h.selects with ⟨entries, hselects, _⟩
  have htexts := congrArg Prod.fst hselects
  rw [selection, selection, selectList_enterAll, hlist] at htexts
  have hnone : entries = [] := List.map_eq_nil_iff.1 (List.self_eq_append_right.1 htexts)
  rwa [hnone] at hselects

/-- What stays all the way stays on each part of it: no step takes anything out of the list. -/
theorem Steps.selectList_trans_iff {a b c : Draft} (h : Steps a b) (h' : Steps b c) :
    c.query.selectList = a.query.selectList ↔
      b.query.selectList = a.query.selectList ∧ c.query.selectList = b.query.selectList := by
  constructor
  · intro hlist
    have hprefix : b.query.selectList <+: a.query.selectList := hlist ▸ h'.grows.query.selectList
    have hfirst : a.query.selectList = b.query.selectList :=
      h.grows.query.selectList.eq_of_length_le hprefix.length_le
    exact ⟨hfirst.symm, hlist.trans hfirst⟩
  · rintro ⟨hfirst, hsecond⟩
    exact hsecond.trans hfirst

/-- A fold keeps the list exactly if the list lacks nothing for any of its turns, where what a turn
asks for depends only on what is selected. -/
theorem selectList_foldl_iff {α : Type} {f : Draft → α → Draft} (Has : Draft → α → Prop)
    (hturn : ∀ d x, Steps d (f d x))
    (hone : ∀ d x, (f d x).query.selectList = d.query.selectList ↔ Has d x)
    (hsame : ∀ {d d' : Draft}, Steps d d' → d'.selection = d.selection → ∀ x, Has d' x ↔ Has d x)
    (xs : List α) (d : Draft) :
    (xs.foldl f d).query.selectList = d.query.selectList ↔ ∀ x ∈ xs, Has d x := by
  induction xs generalizing d with
  | nil => simp
  | cons x xs ih =>
      have hrest : Steps (f d x) (xs.foldl f (f d x)) := reflTransGen_foldl id hturn xs (f d x)
      rw [List.foldl_cons, (hturn d x).selectList_trans_iff hrest, ih, hone, List.forall_mem_cons]
      refine and_congr_right fun hx => ?_
      have hselection := (hturn d x).selection_eq ((hone d x).2 hx)
      exact forall₂_congr fun y _ => hsame (hturn d x) hselection y

theorem tables_congr {d d' : Draft} (h : d'.selection = d.selection) : d'.tables = d.tables :=
  congrArg (fun s => s.2.1) h

theorem hasField_congr {d d' : Draft} (h : d'.selection = d.selection) (a name : String) :
    d'.hasField a name = d.hasField a name := by
  rw [hasField, tables_congr h, hasField]

/-! ## Workspaces -/

theorem selectList_addMissing_iff (table a : String) (columns selected : List String) (d : Draft) :
    (d.addMissing table a columns selected).query.selectList = d.query.selectList ↔
      ∀ column ∈ columns, column ∈ selected ∨ d.hasField a column = true := by
  refine selectList_foldl_iff
    (fun d column => column ∈ selected ∨ d.hasField a column = true)
    (fun d column => RuleSteps.steps (ruleSteps_addMissing d table a [column] selected))
    (fun d column => ?_) (fun _ hselection column => ?_) columns d
  · rw [addMissing, List.foldl_cons, List.foldl_nil]
    split
    · next hpresent => simp [hpresent]
    · next hmissing =>
        have hlonger : (d.selectExtra table a column).query.selectList ≠ d.query.selectList := by
          simp [selectExtra, select, noteField]
        exact iff_of_false hlonger hmissing
  · rw [hasField_congr hselection]

/-- The columns that the preview of a workspace asks for; none where the rules are not available. -/
def previewColumns (p : Platform) (table a : String) (selected : List String) : List String :=
  match previewRules p table a selected with
  | .ok (columns, _) => columns
  | .error _ => []

/-- Where a workspace is previewed, the columns that the preview asks for in a versioned table are
selected. -/
def HasVersionColumns (p : Platform) (d : Draft) (entry : String × List String) : Prop :=
  p.context.preview = true → p.policy.isVersioned (d.query.tableOf entry.1) = true →
    ∀ column ∈ previewColumns p (d.query.tableOf entry.1) entry.1 entry.2,
      column ∈ entry.2 ∨ d.hasField entry.1 column = true

instance (p : Platform) (d : Draft) (entry : String × List String) :
    Decidable (HasVersionColumns p d entry) := by
  unfold HasVersionColumns
  infer_instance

theorem hasVersionColumns_congr {d d' : Draft} (h : Steps d d')
    (hselection : d'.selection = d.selection) (entry : String × List String) :
    HasVersionColumns p d' entry ↔ HasVersionColumns p d entry := by
  simp only [HasVersionColumns, h.tableOf, hasField_congr hselection]

theorem mem_complete {selected required : List String} {column : String} :
    column ∈ Catalog.complete selected required ↔ column ∈ selected ∨ column ∈ required := by
  unfold Catalog.complete
  induction required generalizing selected with
  | nil => simp
  | cons c required ih =>
      rw [List.foldl_cons, ih, List.mem_cons]
      split
      · next hpresent =>
          constructor
          · rintro (h | h)
            · exact .inl h
            · exact .inr (.inr h)
          · rintro (h | rfl | h)
            · exact .inl h
            · exact .inl hpresent
            · exact .inr h
      · rw [List.mem_append, List.mem_singleton, or_assoc]

/-- A catalog asks for three columns of a versioned table. -/
theorem hasVersionColumns_catalog (catalog : Catalog) (context : RequestContext)
    (settings : Settings) (d : Draft) (a : String) (selected : List String) :
    HasVersionColumns (catalog.platform context settings) d (a, selected) ↔
      (context.preview = true → catalog.isVersioned (d.query.tableOf a) = true →
        ∀ column ∈ ["uid", "pid", "t3ver_state"],
          column ∈ selected ∨ d.hasField a column = true) := by
  have hcolumns : catalog.isVersioned (d.query.tableOf a) = true →
      previewColumns (catalog.platform context settings) (d.query.tableOf a) a selected =
        Catalog.complete selected ["uid", "pid", "t3ver_state"] := by
    intro hversioned
    rcases Catalog.previewRules_of_versioned hversioned context settings a selected with
      ⟨condition, hrules⟩
    rw [previewColumns, hrules]
    rfl
  refine imp_congr_right fun _ => imp_congr_right fun hversioned => ?_
  rw [hcolumns hversioned]
  -- What is selected already need not be asked for.
  constructor
  · exact fun h column hcolumn => h column (mem_complete.2 (.inr hcolumn))
  · intro h column hcolumn
    rcases mem_complete.1 hcolumn with hselected | hrequired
    · exact .inl hselected
    · exact h column hrequired

theorem hasField_setVersionOverlay (d : Draft) (table : String) (needed : Bool) (a name : String) :
    (d.setVersionOverlay table needed).hasField a name = d.hasField a name :=
  rfl

theorem selectList_attach (d : Draft) (a condition : String) :
    (d.attach a condition).query.selectList = d.query.selectList :=
  congrArg Prod.fst (selection_attach d a condition)

theorem selectList_addVersioningOf_iff (d : Draft) (entry : String × List String) :
    (addVersioningOf p d entry).query.selectList = d.query.selectList ↔
      HasVersionColumns p d entry := by
  rcases entry with ⟨a, selected⟩
  unfold addVersioningOf HasVersionColumns previewColumns
  simp only
  cases hversioned : p.policy.isVersioned (d.query.tableOf a) with
  | false => simp
  | true =>
      cases hpreview : p.context.preview with
      | false => simp [selectList_attach]
      | true =>
          cases hrules : previewRules p (d.query.tableOf a) a selected with
          | error e => simp [selectList_attach]
          | ok rules =>
              have hmissing := selectList_addMissing_iff (d.query.tableOf a) a rules.1 selected
                (d.setVersionOverlay (d.query.tableOf a) false)
              simp only [query_setVersionOverlay, hasField_setVersionOverlay] at hmissing
              simpa [selectList_attach] using hmissing

theorem selection_addVisibility (p : Platform) (d : Draft) :
    (d.addVisibility p).selection = d.selection := by
  have hone : ∀ (d : Draft) (ref : TableRef),
      (addVisibilityOf p d ref).selection = d.selection := by
    intro d ref
    unfold addVisibilityOf
    split
    · exact selection_attach d _ _
    · rfl
  unfold addVisibility
  split
  · rfl
  · exact foldl_kept Draft.selection hone _ d
  · exact foldl_kept Draft.selection hone _ d

/-- The rules of the platform keep the list of a DISTINCT query exactly if it has the columns that a
preview asks for: neither visibility nor language selects anything there. -/
theorem selectList_addMechanisms_iff {d : Draft} (hdistinct : d.query.distinct = true) :
    (d.addMechanisms p).query.selectList = d.query.selectList ↔
      ∀ entry ∈ d.selectedColumns.entries, HasVersionColumns p d entry := by
  have hsteps : Steps d (d.addVisibility p) := RuleSteps.steps (ruleSteps_addVisibility p d)
  have hselection := selection_addVisibility p d
  have hlist : (d.addVisibility p).query.selectList = d.query.selectList :=
    congrArg Prod.fst hselection
  have hcolumns : (d.addVisibility p).selectedColumns = d.selectedColumns := by
    rw [selectedColumns, tables_congr hselection, selectedColumns]
  -- A distinct list skips the language columns, and visibility adds none: versioning is left.
  have hlanguage : (d.addVisibility p).addLanguage p d.selectedColumns = d.addVisibility p := by
    have hstill := hsteps.distinct.trans hdistinct
    simp [addLanguage, hstill]
  unfold addMechanisms
  simp only [hcolumns, hlanguage]
  rw [← hlist]
  unfold addVersioning
  rw [selectList_foldl_iff (HasVersionColumns p)
    (fun d entry => RuleSteps.steps (ruleSteps_addVersioningOf p d entry))
    selectList_addVersioningOf_iff hasVersionColumns_congr]
  exact forall₂_congr fun entry _ => hasVersionColumns_congr hsteps hselection entry

/-! ## Sorting -/

/-- What is written down of a column to sort by. -/
def SortColumn.entry (c : SortColumn) : ListEntry :=
  .ofColumn c.table c.aliasName c.field c.resultColumn

theorem selects_selectForSorting (columns : List SortColumn) (d : Draft) :
    d.Selects (d.selectForSorting columns) (columns.map SortColumn.entry) := by
  induction columns generalizing d with
  | nil => rfl
  | cons c columns ih =>
      have hone : d.Selects (d.select c.table c.aliasName c.field c.resultColumn) [c.entry] := rfl
      exact hone.trans (ih _)

theorem length_selectForSorting (columns : List SortColumn) (d : Draft) :
    (d.selectForSorting columns).query.selectList.length =
      d.query.selectList.length + columns.length := by
  simp only [(selects_selectForSorting columns d).selectList, List.length_append, List.length_map]

/-- The decision on the ordering keeps the list exactly if the caller need not sort, or sorts by
selected columns. -/
theorem selectList_decideOrdering_iff (d : Draft) :
    (d.decideOrdering p).query.selectList = d.query.selectList ↔
      (p.context.language ≠ 0 → d.sortColumns p = []) := by
  by_cases hlanguage : p.context.language = 0
  · simp [decideOrdering, hlanguage]
  · have hlist : (d.decideOrdering p).query.selectList =
        ((d.setOrderFields ((d.decisions p).map (·.field))).selectForSorting
          (d.sortColumns p)).query.selectList := by
      rw [decideOrdering_eq hlanguage]
      rfl
    have hlength := length_selectForSorting (d.sortColumns p)
      (d.setOrderFields ((d.decisions p).map (·.field)))
    rw [← hlist] at hlength
    constructor
    · intro hstays _
      rw [hstays] at hlength
      exact List.eq_nil_of_length_eq_zero (Nat.add_left_cancel hlength).symm
    · intro hnone
      rw [hlist, hnone hlanguage]
      rfl

/-! ## Requests -/

/-- A request finds every column that it asks for in a DISTINCT query. -/
def HasColumns (p : Platform) (d : Draft) : Request → Prop
  | .operation .mechanisms => ∀ entry ∈ d.selectedColumns.entries, HasVersionColumns p d entry
  | .build => p.context.language ≠ 0 → d.sortColumns p = []
  | .operation (.filter _) | .operation (.idList _) | .resolve _ _ => True

/-- Each request of a run finds its columns, in the draft that it meets. -/
def AllHaveColumns (p : Platform) : List Request → Draft → Prop
  | [], _ => True
  | request :: requests, d =>
      HasColumns p d request ∧ AllHaveColumns p requests (serve p d request)

instance decidableHasColumns (p : Platform) (d : Draft) :
    (request : Request) → Decidable (HasColumns p d request)
  | .operation .mechanisms =>
      inferInstanceAs (Decidable (∀ entry ∈ d.selectedColumns.entries, HasVersionColumns p d entry))
  | .build => inferInstanceAs (Decidable (p.context.language ≠ 0 → d.sortColumns p = []))
  | .operation (.filter _) | .operation (.idList _) | .resolve _ _ =>
      inferInstanceAs (Decidable True)

instance decidableAllHaveColumns (p : Platform) :
    (requests : List Request) → (d : Draft) → Decidable (AllHaveColumns p requests d)
  | [], _ => inferInstanceAs (Decidable True)
  | _ :: requests, _ =>
      have := decidableAllHaveColumns p requests
      inferInstanceAs (Decidable (_ ∧ _))

/-- One request keeps the list of a DISTINCT query exactly if it finds its columns there. -/
theorem selectList_serve_iff {d : Draft} (hdistinct : d.query.distinct = true) (request : Request) :
    (serve p d request).query.selectList = d.query.selectList ↔ HasColumns p d request := by
  have hquiet : ∀ {d' : Draft}, d'.selection = d.selection →
      (d'.query.selectList = d.query.selectList ↔ True) :=
    fun h => iff_true_intro (congrArg Prod.fst h)
  cases request with
  | operation operation =>
      cases operation with
      | mechanisms => exact selectList_addMechanisms_iff hdistinct
      | filter filter => exact hquiet (filterSteps_addFilter p filter d).selection
      | idList text => exact hquiet (filterSteps_addIdList text d).selection
  | resolve name component => exact hquiet (selection_resolve d name component)
  | build => exact selectList_decideOrdering_iff d

theorem selectList_serveAll_iff {d : Draft} (hdistinct : d.query.distinct = true)
    (requests : List Request) :
    (serveAll p requests d).query.selectList = d.query.selectList ↔
      AllHaveColumns p requests d := by
  induction requests generalizing d with
  | nil => simp [serveAll, AllHaveColumns]
  | cons request requests ih =>
      have hone := steps_serve p d request
      have hrest := steps_serveAll p requests (serve p d request)
      calc (serveAll p (request :: requests) d).query.selectList = d.query.selectList
          ↔ (serve p d request).query.selectList = d.query.selectList ∧
              (serveAll p requests (serve p d request)).query.selectList =
                (serve p d request).query.selectList := hone.selectList_trans_iff hrest
        _ ↔ AllHaveColumns p (request :: requests) d :=
              and_congr (selectList_serve_iff hdistinct request)
                (ih (hone.distinct.trans hdistinct))

/-- In the default language and without a preview nothing is asked for. -/
theorem allHaveColumns_of_live (hlanguage : p.context.language = 0)
    (hlive : p.context.preview = false) (requests : List Request) (d : Draft) :
    AllHaveColumns p requests d := by
  induction requests generalizing d with
  | nil => trivial
  | cons request requests ih =>
      refine ⟨?_, ih _⟩
      cases request with
      | operation operation =>
          cases operation with
          | mechanisms =>
              intro entry _ hpreview
              rw [hlive] at hpreview
              cases hpreview
          | filter filter => trivial
          | idList text => trivial
      | resolve name component => trivial
      | build => exact fun h => absurd hlanguage h

/-! ## Reading -/

/-- No base field comes to a DISTINCT query. -/
theorem query_parse_of_distinct {text : String} {q : Query}
    (h : Query.parse p.schema (prepareText text) = .ok q) (hdistinct : q.distinct = true)
    (d : Draft) : (d.parse p text).1.query = (ofQuery q).analyze.query := by
  rw [parse_of_read h]
  split
  · rfl
  · rw [query_warnDuplicates, completed, if_pos hdistinct]

/-- The list of a DISTINCT query is the written one after reading.  It stays so in a run exactly if
each request finds the columns that it asks for; in the default language and without a preview none
asks for any. -/
theorem distinctList_of_use {text : String} {q : Query}
    (h : Query.parse p.schema (prepareText text) = .ok q) (hdistinct : q.distinct = true)
    (d₀ : Draft) :
    let d := (d₀.parse p text).1
    d.query.selectList = q.select.map (entryText q.mainAlias) ∧
      (∀ requests, (serveAll p requests d).query.selectList = d.query.selectList ↔
        AllHaveColumns p requests d) ∧
      (p.context.language = 0 → p.context.preview = false →
        ∀ requests, (serveAll p requests d).query.selectList = d.query.selectList) := by
  intro d
  have hquery := query_parse_of_distinct h hdistinct d₀
  have hlist : d.query.selectList = q.select.map (entryText q.mainAlias) := by
    rw [hquery]
    rfl
  have hstill : d.query.distinct = true := by
    rw [hquery]
    exact hdistinct
  have hrun := fun requests => selectList_serveAll_iff (p := p) hstill requests
  refine ⟨hlist, hrun, fun hlanguage hlive requests => ?_⟩
  exact (hrun requests).2 (allHaveColumns_of_live hlanguage hlive requests d)

/-- The site while a workspace is previewed, in another language than the default one. -/
def previewedSite : Platform :=
  Catalog.site.platform { RequestContext.atTime 0 with language := 1, preview := true } {}

/-- News with the columns of their versions, each once. -/
def versionsText : String :=
  "SELECT DISTINCT uid, pid, t3ver_state FROM news"

/-- The list has what the preview asks for. -/
theorem distinctList_of_versions :
    (serveAll previewedSite [.operation .mechanisms, .operation (.idList "1,2")]
        (({} : Draft).parse previewedSite versionsText).1).query.selectList =
      (({} : Draft).parse previewedSite versionsText).1.query.selectList := by
  have hread : Query.parse previewedSite.schema (prepareText versionsText) =
      .ok ((Query.parse previewedSite.schema (prepareText versionsText)).toOption.getD {}) := by
    decide +kernel
  have hdistinct : ((Query.parse previewedSite.schema (prepareText versionsText)).toOption.getD
      {}).distinct = true := by decide +kernel
  have hcolumns : AllHaveColumns previewedSite [.operation .mechanisms, .operation (.idList "1,2")]
      (({} : Draft).parse previewedSite versionsText).1 := by decide +kernel
  exact ((distinctList_of_use hread hdistinct {}).2.1 _).2 hcolumns

/-- Neither list has what is asked for: the preview adds three columns to the bodies of the news, a
`uid` beside the given one among them, and the headers are sorted by a column that comes along. -/
theorem distinctLists_widened :
    let bodies := ({} : Draft).parse previewedSite "SELECT DISTINCT body AS uid FROM news"
    let headers := ({} : Draft).parse translatedSite
      "SELECT DISTINCT uid, header FROM content ORDER BY bodytext"
    bodies.2 = .ok "" ∧ bodies.1.query.distinct = true ∧
      bodies.1.query.selectList = ["news.body AS uid"] ∧
      (serve previewedSite bodies.1 (.operation .mechanisms)).query.selectList =
        ["news.body AS uid", "news.uid", "news.pid", "news.t3ver_state"] ∧
      headers.2 = .ok "" ∧ headers.1.query.distinct = true ∧
      headers.1.query.selectList = ["content.uid", "content.header"] ∧
      (serve translatedSite headers.1 .build).query.selectList =
        ["content.uid", "content.header", "content.bodytext AS content$bodytext"] := by
  decide +kernel

end Draft
end ContentQuery
