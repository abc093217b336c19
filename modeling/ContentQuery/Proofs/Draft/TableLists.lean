import ContentQuery.Proofs.Draft.Aliases
import ContentQuery.Proofs.Draft.Origins

/-!
# Lists of tables in the settings

Five of the settings list tables.  Each list knows a table by one key alone: tables without overlays
are listed under their own names, and for the other four lists the alias counts.  The rules of the
platform meet each table as if the lists whose key it is held every table, and the others none.  So
two settings that agree on the keys of a query complete it to the same statement.
-/

namespace ContentQuery

/-! ## Lists and keys -/

/-- The settings that list tables. -/
inductive RuleList where
  | time
  | disabled
  | group
  | overlays
  | versions
deriving DecidableEq, Repr

/-- The name that a table goes by in a list. -/
def RuleList.key (l : RuleList) (ref : TableRef) : String :=
  match l with
  | overlays => ref.table
  | time | disabled | group | versions => ref.aliasName

/-- The name that a table does not go by in a list. -/
def RuleList.otherName (l : RuleList) (ref : TableRef) : String :=
  match l with
  | overlays => ref.aliasName
  | time | disabled | group | versions => ref.table

namespace Settings

variable (s : Settings) (ref : TableRef) (l : RuleList)

def tableList : RuleList → TableList
  | .time => s.ignoreTime
  | .disabled => s.ignoreDisabled
  | .group => s.ignoreGroup
  | .overlays => s.skipOverlays
  | .versions => s.directVersions

/-- Whether a list counts: those of visibility fields do in the partial mode only. -/
def heeds : RuleList → Bool
  | .time | .disabled | .group => s.visibility = .partialIgnore
  | .overlays | .versions => true

def withLists (lists : RuleList → TableList) : Settings :=
  { s with
    ignoreTime := lists .time
    ignoreDisabled := lists .disabled
    ignoreGroup := lists .group
    skipOverlays := lists .overlays
    directVersions := lists .versions }

/-- The settings as one table meets them, if `listed` tells in which lists it stands: a list
where it stands, and that counts, holds every table, and any other list none. -/
def narrowed (listed : RuleList → Bool) : Settings :=
  s.withLists fun l => if s.heeds l && listed l then .all else .none

/-- A table stands in the lists that hold its key. -/
def byKey : Settings :=
  s.narrowed fun l => (s.tableList l).contains (l.key ref)

/-- A table stands in the lists that hold its name or its alias. -/
def byEitherName : Settings :=
  s.narrowed fun l =>
    (s.tableList l).contains ref.aliasName || (s.tableList l).contains ref.table

/-- Every list that counts, and holds the name or the alias of a table, holds its key. -/
def ListsKeys : Prop :=
  ∀ l, s.heeds l = true →
    (s.tableList l).contains ref.aliasName = true ∨ (s.tableList l).contains ref.table = true →
      (s.tableList l).contains (l.key ref) = true

@[simp] theorem tableList_withLists (lists : RuleList → TableList) :
    (s.withLists lists).tableList l = lists l := by
  cases l <;> rfl

theorem contains_narrowed (listed : RuleList → Bool) (name : String) :
    ((s.narrowed listed).tableList l).contains name = (s.heeds l && listed l) := by
  rw [narrowed, tableList_withLists]
  cases s.heeds l && listed l <;> rfl

theorem contains_byKey (name : String) :
    ((s.byKey ref).tableList l).contains name =
      (s.heeds l && (s.tableList l).contains (l.key ref)) :=
  s.contains_narrowed l _ name

@[simp] theorem visibility_byKey : (s.byKey ref).visibility = s.visibility :=
  rfl

@[simp] theorem ignoreLanguage_byKey : (s.byKey ref).ignoreLanguage = s.ignoreLanguage :=
  rfl

@[simp] theorem heeds_byKey : (s.byKey ref).heeds l = s.heeds l := by
  cases l <;> rfl

/-- A second look at the lists finds nothing else. -/
@[simp] theorem byKey_byKey : (s.byKey ref).byKey ref = s.byKey ref := by
  have hlisted : ∀ l, ((s.byKey ref).heeds l &&
      ((s.byKey ref).tableList l).contains (l.key ref)) =
        (s.heeds l && (s.tableList l).contains (l.key ref)) := by
    intro l
    rw [contains_byKey, heeds_byKey, ← Bool.and_assoc, Bool.and_self]
  rw [byKey, narrowed]
  simp only [hlisted]
  rfl

/-- What a table does not see of the settings does not matter to it. -/
theorem congr_of_byKey {α : Type} {ref : TableRef} {s s' : Settings} (f : Settings → α)
    (hf : ∀ s, f (s.byKey ref) = f s) (h : s.byKey ref = s'.byKey ref) : f s = f s' := by
  rw [← hf s, h, hf s']

/-- Where the lists hold the keys of a table, its two names are as good as the key. -/
theorem byEitherName_eq_byKey {s : Settings} {ref : TableRef} (h : s.ListsKeys ref) :
    s.byEitherName ref = s.byKey ref := by
  have hlisted : ∀ l, (s.heeds l && ((s.tableList l).contains ref.aliasName ||
      (s.tableList l).contains ref.table)) =
        (s.heeds l && (s.tableList l).contains (l.key ref)) := by
    intro l
    -- A list is keyed by one of the two names, so a key that it lists is one of them.
    have hkey : (s.tableList l).contains (l.key ref) = true →
        (s.tableList l).contains ref.aliasName = true ∨
          (s.tableList l).contains ref.table = true := by
      cases l with
      | overlays => exact .inr
      | time | disabled | group | versions => exact .inl
    cases hheeds : s.heeds l with
    | false => rfl
    | true =>
        rw [Bool.true_and, Bool.true_and, Bool.eq_iff_iff, Bool.or_eq_true]
        exact ⟨h l hheeds, hkey⟩
  simp only [byEitherName, byKey, narrowed, hlisted]

/-! ## What the rules ask -/

/-- The visibility fields of a table that are left out are those of the lists with its key. -/
@[simp] theorem ignoredFields_byKey :
    (s.byKey ref).ignoredFields ref.aliasName = s.ignoredFields ref.aliasName := by
  have hlisted := fun l => s.contains_byKey ref l ref.aliasName
  unfold ignoredFields
  rw [visibility_byKey]
  cases hmode : s.visibility with
  | none => rfl
  | all => rfl
  | partialIgnore =>
      have htime := hlisted .time
      have hdisabled := hlisted .disabled
      have hgroup := hlisted .group
      simp only [tableList, heeds, hmode, RuleList.key, decide_true, Bool.true_and]
        at htime hdisabled hgroup
      simp only [htime, hdisabled, hgroup]

@[simp] theorem skipOverlays_byKey :
    (s.byKey ref).skipOverlays.contains ref.table = s.skipOverlays.contains ref.table :=
  s.contains_byKey ref .overlays ref.table

@[simp] theorem directVersions_byKey :
    (s.byKey ref).directVersions.contains ref.aliasName =
      s.directVersions.contains ref.aliasName :=
  s.contains_byKey ref .versions ref.aliasName

end Settings

/-- The platform under other settings. -/
def Platform.under (p : Platform) (s : Settings) : Platform :=
  { p with settings := s }

namespace Draft

/-! ## Each table under its own settings -/

/-- A name in the query, with the table behind it. -/
def refOf (d : Draft) (a : String) : TableRef :=
  ⟨d.query.tableOf a, a⟩

/-- The tables that the rules are applied to: those of the query, and those with selected fields. -/
def ruledTables (d : Draft) : List TableRef :=
  d.tableRefs ++ d.selectedColumns.keys.map d.refOf

/-! The rules of one table under some settings, and under those that a function gives for it. -/

section Own

variable (p : Platform) (s : Settings) (settings : TableRef → Settings)

def addVisibilityUnder (d : Draft) (ref : TableRef) : Draft :=
  match s.visibility with
  | .all => d
  | .none | .partialIgnore => addVisibilityOf (p.under s) d ref

def addLanguageUnder (d : Draft) (entry : String × List String) : Draft :=
  if s.ignoreLanguage || d.query.distinct then d else addLanguageOf (p.under s) d entry

def addVersioningUnder (d : Draft) (entry : String × List String) : Draft :=
  addVersioningOf (p.under s) d entry

def addOwnVisibility (d : Draft) (ref : TableRef) : Draft :=
  addVisibilityUnder p (settings ref) d ref

def addOwnLanguage (d : Draft) (entry : String × List String) : Draft :=
  addLanguageUnder p (settings (d.refOf entry.1)) d entry

def addOwnVersioning (d : Draft) (entry : String × List String) : Draft :=
  addVersioningUnder p (settings (d.refOf entry.1)) d entry

/-- Adds what the platform requires, with settings of its own for each table. -/
def addOwnMechanisms (d : Draft) : Draft :=
  let visible := d.tableRefs.foldl (addOwnVisibility p settings) d
  let translated := d.selectedColumns.entries.foldl (addOwnLanguage p settings) visible
  d.selectedColumns.entries.foldl (addOwnVersioning p settings) translated

theorem ruleSteps_addOwnVisibility (d : Draft) (ref : TableRef) :
    RuleSteps d (addOwnVisibility p settings d ref) := by
  unfold addOwnVisibility addVisibilityUnder
  split
  · exact .refl
  · exact ruleSteps_addVisibilityOf _ d ref
  · exact ruleSteps_addVisibilityOf _ d ref

theorem ruleSteps_addOwnLanguage (d : Draft) (entry : String × List String) :
    RuleSteps d (addOwnLanguage p settings d entry) := by
  unfold addOwnLanguage addLanguageUnder
  split
  · exact .refl
  · exact ruleSteps_addLanguageOf _ d entry

theorem ruleSteps_addOwnVersioning (d : Draft) (entry : String × List String) :
    RuleSteps d (addOwnVersioning p settings d entry) :=
  ruleSteps_addVersioningOf _ d entry

end Own

/-- Two loops over the same list agree if their turns agree on the drafts that come up. -/
theorem foldl_congr_of_ruleSteps {α : Type} {f g : Draft → α → Draft}
    (hsteps : ∀ d x, RuleSteps d (f d x)) {xs : List α} {d : Draft}
    (h : ∀ d', RuleSteps d d' → ∀ x ∈ xs, f d' x = g d' x) : xs.foldl f d = xs.foldl g d := by
  induction xs generalizing d with
  | nil => rfl
  | cons x xs ih =>
      have hturn : f d x = g d x := h d .refl x List.mem_cons_self
      rw [List.foldl_cons, List.foldl_cons, ← hturn]
      exact ih fun d' hd' y hy =>
        h d' ((hsteps d x).trans hd') y (List.mem_cons_of_mem x hy)

theorem RuleSteps.refOf {d d' : Draft} (h : RuleSteps d d') (a : String) :
    d'.refOf a = d.refOf a := by
  rw [Draft.refOf, h.steps.tableOf, Draft.refOf]

variable (p : Platform) (d : Draft)

theorem addOwnVisibility_self :
    d.tableRefs.foldl (addOwnVisibility p fun _ => p.settings) d = d.addVisibility p := by
  unfold addVisibility addOwnVisibility addVisibilityUnder
  dsimp only
  cases p.settings.visibility with
  | all => exact List.foldl_fixed _
  | none | partialIgnore => rfl

theorem addOwnLanguage_self (selected : OrderedMap String (List String)) :
    selected.entries.foldl (addOwnLanguage p fun _ => p.settings) d = d.addLanguage p selected := by
  -- DISTINCT is asked for before the loop there, and here in every turn of it.
  have hturn : ∀ d', RuleSteps d d' → ∀ entry ∈ selected.entries,
      addOwnLanguage p (fun _ => p.settings) d' entry =
        if p.settings.ignoreLanguage || d.query.distinct then d'
        else addLanguageOf p d' entry := by
    intro d' hd' entry _
    simp only [addOwnLanguage, addLanguageUnder, hd'.steps.distinct, Platform.under]
  rw [foldl_congr_of_ruleSteps (ruleSteps_addOwnLanguage p _) hturn]
  unfold addLanguage
  cases p.settings.ignoreLanguage || d.query.distinct with
  | true => simp only [if_true, List.foldl_fixed]
  | false => rfl

/-- Under the settings of the platform for every table, its rules are added as ever. -/
theorem addOwnMechanisms_self :
    d.addOwnMechanisms p (fun _ => p.settings) = d.addMechanisms p := by
  unfold addOwnMechanisms addMechanisms
  simp only [addOwnVisibility_self, addOwnLanguage_self, selectedColumns_addVisibility]
  rfl

/-! ## Keys decide -/

variable {p d} {settings settings' : TableRef → Settings}

theorem addVisibilityUnder_byKey (s : Settings) (d : Draft) (ref : TableRef) :
    addVisibilityUnder p (s.byKey ref) d ref = addVisibilityUnder p s d ref := by
  simp only [addVisibilityUnder, addVisibilityOf, Platform.under, Settings.visibility_byKey,
    Settings.ignoredFields_byKey]

theorem addLanguageUnder_byKey (s : Settings) (d : Draft) (entry : String × List String) :
    addLanguageUnder p (s.byKey (d.refOf entry.1)) d entry = addLanguageUnder p s d entry := by
  have hskip := s.skipOverlays_byKey (d.refOf entry.1)
  rw [show (d.refOf entry.1).table = d.query.tableOf entry.1 from rfl] at hskip
  simp only [addLanguageUnder, addLanguageOf, Platform.under, Settings.ignoreLanguage_byKey, hskip]
  rfl

theorem addVersioningUnder_byKey (s : Settings) (d : Draft) (entry : String × List String) :
    addVersioningUnder p (s.byKey (d.refOf entry.1)) d entry = addVersioningUnder p s d entry := by
  have hdirect := s.directVersions_byKey (d.refOf entry.1)
  rw [show (d.refOf entry.1).aliasName = entry.1 from rfl] at hdirect
  simp only [addVersioningUnder, addVersioningOf, previewRules, Platform.under, hdirect]
  rfl

/-- Settings in which the lists hold the same keys of the tables of a query have one outcome. -/
theorem addOwnMechanisms_congr
    (h : ∀ ref ∈ d.ruledTables, (settings ref).byKey ref = (settings' ref).byKey ref) :
    d.addOwnMechanisms p settings = d.addOwnMechanisms p settings' := by
  -- The rules keep the table behind every alias, so the keys are those of the draft at the start.
  have hselected : ∀ d', RuleSteps d d' → ∀ entry ∈ d.selectedColumns.entries,
      (settings (d'.refOf entry.1)).byKey (d'.refOf entry.1) =
        (settings' (d'.refOf entry.1)).byKey (d'.refOf entry.1) := by
    intro d' hd' entry hentry
    rw [hd'.refOf]
    exact h _ (List.mem_append_right _ (List.mem_map_of_mem (OrderedMap.mem_keys_of_mem hentry)))
  have hvisible : d.tableRefs.foldl (addOwnVisibility p settings) d =
      d.tableRefs.foldl (addOwnVisibility p settings') d :=
    foldl_congr_of_ruleSteps (ruleSteps_addOwnVisibility p settings) fun d' _ ref href =>
      Settings.congr_of_byKey (addVisibilityUnder p · d' ref) (addVisibilityUnder_byKey · d' ref)
        (h ref (List.mem_append_left _ href))
  unfold addOwnMechanisms
  simp only [← hvisible]
  have hsteps : RuleSteps d (d.tableRefs.foldl (addOwnVisibility p settings) d) :=
    reflTransGen_foldl id (ruleSteps_addOwnVisibility p settings) _ d
  generalize d.tableRefs.foldl (addOwnVisibility p settings) d = visible at hsteps ⊢
  have hlanguage : d.selectedColumns.entries.foldl (addOwnLanguage p settings) visible =
      d.selectedColumns.entries.foldl (addOwnLanguage p settings') visible :=
    foldl_congr_of_ruleSteps (ruleSteps_addOwnLanguage p settings) fun d' hd' entry hentry =>
      Settings.congr_of_byKey (addLanguageUnder p · d' entry) (addLanguageUnder_byKey · d' entry)
        (hselected d' (hsteps.trans hd') entry hentry)
  rw [← hlanguage]
  have hsteps' := hsteps.trans (reflTransGen_foldl id (ruleSteps_addOwnLanguage p settings)
    d.selectedColumns.entries visible)
  exact foldl_congr_of_ruleSteps (ruleSteps_addOwnVersioning p settings) fun d' hd' entry hentry =>
    Settings.congr_of_byKey (addVersioningUnder p · d' entry)
      (addVersioningUnder_byKey · d' entry)
      (hselected d' (hsteps'.trans hd') entry hentry)

/-- The rules treat a table as if the lists with its key held every table, and the others none. -/
theorem addMechanisms_eq_byKey (p : Platform) (d : Draft) :
    d.addMechanisms p = d.addOwnMechanisms p p.settings.byKey := by
  rw [← addOwnMechanisms_self]
  exact addOwnMechanisms_congr fun ref _ => (p.settings.byKey_byKey ref).symm

/-- The ordering does not depend on the settings. -/
@[simp] theorem build_under (p : Platform) (s : Settings) (d : Draft) :
    d.build (p.under s) = d.build p :=
  rfl

/-- Under two settings in which the lists hold the same keys, a query is completed alike. -/
theorem addMechanisms_congr {s s' : Settings}
    (h : ∀ ref ∈ d.ruledTables, s.byKey ref = s'.byKey ref) :
    d.addMechanisms (p.under s) = d.addMechanisms (p.under s') :=
  calc d.addMechanisms (p.under s)
      = d.addOwnMechanisms p fun _ => s := (addOwnMechanisms_self (p.under s) d).symm
    _ = d.addOwnMechanisms p fun _ => s' := addOwnMechanisms_congr h
    _ = d.addMechanisms (p.under s') := addOwnMechanisms_self (p.under s') d

/-! ## The tables of a query -/

/-- The main table and the joins are all tables of a query. -/
theorem InOrder.refOf_mem_tableRefs (hd : d.InOrder) {a : String}
    (ha : a ∈ d.query.tableOfAlias.keys) : d.refOf a ∈ d.tableRefs := by
  rcases hd.wellKept.covered.1 ha with rfl | hjoined
  · rw [tableRefs, hd.wellKept.mainTable_eq]
    exact List.mem_cons_self
  · rcases OrderedMap.exists_of_mem_keys hjoined with ⟨join, hmem⟩
    have hjoin := OrderedMap.get?_eq_some_iff.2 hmem
    have href : d.refOf a = ⟨join.table, join.aliasName⟩ := by
      rw [refOf, Query.tableOf, hd.wellKept.joined hjoin, hd.wellKept.keyed hjoin, Option.getD_some]
    rw [href]
    exact List.mem_cons_of_mem _ (List.mem_map_of_mem (List.mem_map_of_mem hmem))

/-- Whatever table the rules are applied to, it is the one behind its alias. -/
theorem InOrder.eq_refOf (hd : d.InOrder) {ref : TableRef} (href : ref ∈ d.ruledTables) :
    ref = d.refOf ref.aliasName := by
  rcases List.mem_append.1 href with href | href
  · rcases List.mem_cons.1 href with rfl | hjoined
    · rw [refOf, hd.wellKept.mainTable_eq]
    · rcases List.mem_map.1 hjoined with ⟨join, hvalue, rfl⟩
      rcases List.mem_map.1 hvalue with ⟨⟨a, _⟩, hmem, rfl⟩
      have hjoin := OrderedMap.get?_eq_some_iff.2 hmem
      rw [refOf, hd.wellKept.keyed hjoin, Query.tableOf, hd.wellKept.joined hjoin, Option.getD_some]
  · rcases List.mem_map.1 href with ⟨a, _, rfl⟩
    rfl

/-- In every use of an accepted text a list takes effect on a table of the query if and only if it
holds the key of the table, whether or not it holds the other name: the table is treated as if the
list held every table, and otherwise as if it held none.  So settings that agree on these keys lead
to the same statement.  Where each list that holds either name of a table holds the key as well, the
lists work by both names. -/
theorem tableLists_of_use {p : Platform} {text : String} {q : Query}
    (h : Query.parse p.schema text = .ok q) (actions : List Action) :
    let d := actAll p actions (ofQuery q)
    ((∀ a ∈ d.query.tableOfAlias.keys, d.refOf a ∈ d.ruledTables) ∧
      ∀ ref ∈ d.ruledTables, ref = d.refOf ref.aliasName) ∧
    d.addMechanisms p = d.addOwnMechanisms p p.settings.byKey ∧
    (∀ s : Settings, (∀ ref ∈ d.ruledTables, s.byKey ref = p.settings.byKey ref) →
      (d.addMechanisms (p.under s)).build (p.under s) = (d.addMechanisms p).build p) ∧
    ((∀ ref ∈ d.ruledTables, p.settings.ListsKeys ref) →
      d.addMechanisms p = d.addOwnMechanisms p p.settings.byEitherName) := by
  intro d
  have hd : d.InOrder := (inOrder_ofQuery h).actAll actions
  refine ⟨⟨fun a ha => ?_, fun ref href => hd.eq_refOf href⟩, addMechanisms_eq_byKey p d, ?_, ?_⟩
  · exact List.mem_append_left _ (hd.refOf_mem_tableRefs ha)
  · intro s hs
    have hrules : d.addMechanisms (p.under s) = d.addMechanisms p := addMechanisms_congr hs
    rw [hrules, build_under]
  · intro hlists
    rw [← addOwnMechanisms_self]
    refine addOwnMechanisms_congr fun ref href => ?_
    rw [Settings.byEitherName_eq_byKey (hlists ref href), Settings.byKey_byKey]

/-- The listing of pages and their news, without overlays for the news and with hidden ones: further
names on the lists change nothing, since no table of the query has them as its key. -/
theorem tableLists_of_listingQuery :
    let s : Settings :=
      { visibility := .partialIgnore, ignoreDisabled := .tables ["n"]
        skipOverlays := .tables ["news"] }
    let s' : Settings :=
      { visibility := .partialIgnore, ignoreTime := .tables ["news"]
        ignoreDisabled := .tables ["n", "news"], skipOverlays := .tables ["n", "news"]
        directVersions := .tables ["news"] }
    let p := Catalog.site.platform (.atTime 0) s
    let d := actAll p [.analyze, .addBaseFields] (ofQuery listingQuery)
    d.addMechanisms p = d.addOwnMechanisms p s.byKey ∧
      (d.addMechanisms (p.under s')).build (p.under s') = (d.addMechanisms p).build p ∧
      d.addMechanisms p = d.addOwnMechanisms p s.byEitherName := by
  intro s s' p d
  have hparse : Query.parse p.schema
      "SELECT title, n.body FROM pages INNER JOIN news AS n ON n.pid = pages.uid" =
        .ok listingQuery := by
    decide +kernel
  have hall := tableLists_of_use hparse [.analyze, .addBaseFields]
  have htables : d.ruledTables =
      [⟨"pages", "pages"⟩, ⟨"news", "n"⟩, ⟨"pages", "pages"⟩, ⟨"news", "n"⟩] := by decide +kernel
  have hagree : ∀ ref ∈ d.ruledTables, s'.byKey ref = s.byKey ref := by
    rw [htables]
    decide +kernel
  have hkeys : ∀ ref ∈ d.ruledTables, s.ListsKeys ref := by
    rw [htables]
    intro ref href l
    simp only [List.mem_cons, List.not_mem_nil, or_false] at href
    rcases href with rfl | rfl | rfl | rfl <;> cases l <;> decide
  exact ⟨hall.2.1, hall.2.2.1 s' hagree, hall.2.2.2 hkeys⟩

/-! ## The other name -/

/-- News with the control columns that a list is about. -/
def archive (l : RuleList) : Catalog where
  tables := .ofList
    [("news",
      { columns := .ofList [("uid", none), ("pid", none), ("body", none)]
        control := match l with
          | .time => { startTime := some "start" }
          | .disabled => { disabled := some "hidden" }
          | .group => { group := some "readers" }
          | .overlays => { language := some "language", languageParent := some "parent" }
          | .versions => { versioned := true } })]

/-- A preview of the archive for visitors without a group. -/
def archivePreview (l : RuleList) : Platform :=
  (archive l).platform { RequestContext.atTime 0 with preview := true, userGroups := [] } {}

/-- The news under an alias. -/
def archiveDraft (l : RuleList) : Draft :=
  (({} : Draft).parse (archivePreview l) "SELECT body FROM news AS n").1

/-- The settings with one name on one list, and nothing on the others. -/
def listing (l : RuleList) (name : String) : Settings :=
  ({ visibility := .partialIgnore } : Settings).withLists fun l' =>
    if l' = l then .tables [name] else .none

/-- The statement for the news with one name on one list. -/
def archiveStatement (l : RuleList) (name : String) : String :=
  let p := (archivePreview l).under (listing l name)
  (((archiveDraft l).addMechanisms p).build p).2

/-- The statement if the list takes effect on the news. -/
def effectiveStatement : RuleList → String
  | .time | .disabled | .group | .overlays => "SELECT n.body, n.uid, n.pid FROM news AS n"
  | .versions =>
      "SELECT n.body, n.uid, n.pid, n.t3ver_state FROM news AS n WHERE " ++
        "((n.t3ver_wsid=0 OR n.t3ver_wsid=0) AND n.pid<>-1) AND (n.t3ver_wsid IN (0,0))"

/-- The list takes effect on the news by its key, and passes over them under their other name, as
under a name that no table has, though the alias is the only one of the table.  By either name it
would do what it does by the key. -/
structure PassesOver (l : RuleList) (key other : String) : Prop where
  accepted : (({} : Draft).parse (archivePreview l) "SELECT body FROM news AS n").2 = .ok ""
  aliases : (archiveDraft l).query.tableOfAlias.entries = [("n", "news")]
  effective : archiveStatement l key = effectiveStatement l
  differs : archiveStatement l other ≠ effectiveStatement l
  unlisted : archiveStatement l other = archiveStatement l "pages"
  byEitherName :
    (archiveDraft l).addOwnMechanisms (archivePreview l) (listing l other).byEitherName =
      (archiveDraft l).addMechanisms ((archivePreview l).under (listing l key))

theorem passesOver (l : RuleList) :
    PassesOver l (l.key ⟨"news", "n"⟩) (l.otherName ⟨"news", "n"⟩) := by
  have hread : (({} : Draft).parse (archivePreview l) "SELECT body FROM news AS n").2 = .ok "" ∧
      (archiveDraft l).query.tableOfAlias.entries = [("n", "news")] ∧
      (archiveDraft l).ruledTables = [⟨"news", "n"⟩, ⟨"news", "n"⟩] := by
    cases l <;> decide +kernel
  rcases hread with ⟨haccepted, haliases, htables⟩
  have heffect : archiveStatement l (l.key ⟨"news", "n"⟩) = effectiveStatement l ∧
      archiveStatement l "pages" ≠ effectiveStatement l := by
    cases l <;> decide +kernel
  -- Two statements are computed; that other settings lead to one of them follows from the keys.
  generalize hkey : l.key ⟨"news", "n"⟩ = key at heffect ⊢
  generalize hother : l.otherName ⟨"news", "n"⟩ = other
  have hunlisted : ∀ ref ∈ (archiveDraft l).ruledTables,
      (listing l other).byKey ref = (listing l "pages").byKey ref := by
    rw [htables, ← hother]
    cases l <;> decide +kernel
  have hlisted : ∀ ref ∈ (archiveDraft l).ruledTables,
      ((listing l other).byEitherName ref).byKey ref = (listing l key).byKey ref := by
    rw [htables, ← hother, ← hkey]
    cases l <;> decide +kernel
  have hsame : archiveStatement l other = archiveStatement l "pages" := by
    rw [archiveStatement, archiveStatement, addMechanisms_congr hunlisted, build_under, build_under]
  constructor
  case accepted => exact haccepted
  case aliases => exact haliases
  case effective => exact heffect.1
  case differs => exact fun h => heffect.2 (hsame.symm.trans h)
  case unlisted => exact hsame
  case byEitherName =>
    rw [addOwnMechanisms_congr hlisted]
    exact addOwnMechanisms_self ((archivePreview l).under (listing l key)) (archiveDraft l)

/-- Each of the lists has one name by which it passes over the news. -/
theorem otherName_without_effect :
    PassesOver .time "n" "news" ∧ PassesOver .disabled "n" "news" ∧ PassesOver .group "n" "news" ∧
      PassesOver .overlays "news" "n" ∧ PassesOver .versions "n" "news" :=
  ⟨passesOver .time, passesOver .disabled, passesOver .group, passesOver .overlays,
    passesOver .versions⟩

end Draft
end ContentQuery
