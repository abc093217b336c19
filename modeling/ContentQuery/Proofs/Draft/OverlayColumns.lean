import ContentQuery.Proofs.Draft.DistinctLists

/-!
# Columns for overlays

Whoever overlays another language or a version needs some columns of every record.  The rules of the
platform select the ones that are missing: first those for languages, then those for workspaces, alias
by alias, and both from the columns that were selected before them.  All that is needed is there
afterwards, and nothing is selected twice or without need.

`Completes` bounds what a part of the rules may select and is closed under composition, so it goes from
one column to all rules.  What one turn of a loop provides and no turn takes back is there behind the
loop (`foldl_provides`).
-/

namespace ContentQuery

/-! ## What a catalog asks for -/

namespace Catalog

variable {catalog : Catalog} {table : String}

/-- The columns that an overlay with another language needs. -/
def languageColumns (catalog : Catalog) (table : String) : List String :=
  ["uid", "pid"] ++
    if catalog.languageStorage table = .sameTable then
      ((catalog.table? table).bind (·.control.language)).toList
    else []

theorem exists_table_of_usesOverlays (h : (catalog.languageStorage table).usesOverlays = true) :
    ∃ schema, catalog.table? table = some schema := by
  cases hschema : catalog.table? table with
  | none => simp [languageStorage, hschema, LanguageStorage.usesOverlays] at h
  | some schema => exact ⟨schema, rfl⟩

/-- Where records are overlaid, the catalog completes the columns that are selected. -/
theorem overlayColumns_of_usesOverlays (h : (catalog.languageStorage table).usesOverlays = true)
    (selected : List String) :
    catalog.overlayColumns table selected =
      .ok (complete selected (catalog.languageColumns table)) := by
  rcases exists_table_of_usesOverlays h with ⟨schema, hschema⟩
  have hcontrol : catalog.control table = .ok schema.control := by simp [control, hschema]
  unfold overlayColumns languageColumns
  rw [hcontrol, hschema]
  cases hstorage : catalog.languageStorage table with
  | sameTable => rfl
  | foreignTable => rfl
  | none => simp [hstorage, LanguageStorage.usesOverlays] at h
  | languageFlag field => simp [hstorage, LanguageStorage.usesOverlays] at h

/-- A table with all languages has the two columns that its language condition is made of. -/
theorem languageCondition_of_sameTable (h : catalog.languageStorage table = .sameTable)
    (a : String) (context : RequestContext) :
    ∃ condition, catalog.languageCondition table a context = .ok condition := by
  have hoverlays : (catalog.languageStorage table).usesOverlays = true := by
    simp [h, LanguageStorage.usesOverlays]
  rcases exists_table_of_usesOverlays hoverlays with ⟨schema, hschema⟩
  have hcontrol : catalog.control table = .ok schema.control := by simp [control, hschema]
  unfold languageStorage at h
  rw [hschema] at h
  simp only at h
  unfold languageCondition
  rw [hcontrol]
  split at h
  · cases h
  · next language pointer hlanguage hpointer _ =>
      simp only [hlanguage, hpointer, bind, Except.bind]
      split
      · exact ⟨_, rfl⟩
      · exact ⟨_, rfl⟩
  · cases h
  · cases h

end Catalog

namespace Draft

/-! ## What is needed -/

/-- Records of the table are to be overlaid with another language. -/
def OverlaysLanguage (p : Platform) (q : Query) (table : String) : Prop :=
  p.settings.ignoreLanguage = false ∧ q.distinct = false ∧
    p.settings.skipOverlays.contains table = false ∧
    (p.policy.languageStorage table).usesOverlays = true

/-- Records of the table are to be overlaid with versions. -/
def OverlaysVersions (p : Platform) (table : String) : Prop :=
  p.context.preview = true ∧ p.policy.isVersioned table = true

theorem overlaysLanguage_congr {p : Platform} {d d' : Draft} (h : RuleSteps d d') {table : String} :
    OverlaysLanguage p d'.query table ↔ OverlaysLanguage p d.query table := by
  rw [OverlaysLanguage, h.steps.distinct, OverlaysLanguage]

section Needs

variable (catalog : Catalog) (context : RequestContext) (settings : Settings)

/-- A column of an alias is needed for the language or for the workspace. -/
def NeedsColumn (q : Query) (a column : String) : Prop :=
  (OverlaysLanguage (catalog.platform context settings) q (q.tableOf a) ∧
      column ∈ catalog.languageColumns (q.tableOf a)) ∨
    (OverlaysVersions (catalog.platform context settings) (q.tableOf a) ∧
      column ∈ Catalog.workspaceColumns)

end Needs

/-! ## Nothing is left out -/

/-- What one turn of a loop provides and no turn takes back is there behind the loop. -/
theorem foldl_provides {α : Type} {f : Draft → α → Draft} {P : Draft → Prop} {d : Draft} {x : α}
    (hsteps : ∀ d x, RuleSteps d (f d x))
    (hprovides : ∀ d', RuleSteps d d' → P (f d' x))
    (hkeeps : ∀ d', RuleSteps d d' → ∀ y, P d' → P (f d' y))
    {xs : List α} (hx : x ∈ xs) : P (xs.foldl f d) := by
  -- What the entry provides survives the entries behind it; those in front only prepare it.
  have hrest : ∀ (ys : List α) (d' : Draft), RuleSteps d d' → P d' → P (ys.foldl f d') := by
    intro ys
    induction ys with
    | nil => exact fun _ _ h => h
    | cons y ys ih =>
        intro d' hd' hp
        exact ih (f d' y) (hd'.trans (hsteps d' y)) (hkeeps d' hd' y hp)
  rcases List.append_of_mem hx with ⟨front, behind, rfl⟩
  rw [List.foldl_append, List.foldl_cons]
  have hfront : RuleSteps d (front.foldl f d) := reflTransGen_foldl id hsteps front d
  apply hrest
  · exact hfront.trans (hsteps _ x)
  · exact hprovides _ hfront

/-- The columns of an alias are all selected. -/
def HasColumnsOf (d : Draft) (a : String) (columns : List String) : Prop :=
  ∀ column ∈ columns, d.hasField a column = true

theorem RuleSteps.hasColumnsOf {d d' : Draft} (h : RuleSteps d d') {a : String}
    {columns : List String} (hcolumns : d.HasColumnsOf a columns) : d'.HasColumnsOf a columns :=
  fun column hcolumn => h.steps.grows.fields a column (hcolumns column hcolumn)

theorem hasColumnsOf_addMissing {d : Draft} {table a : String} {columns selected : List String}
    (hselected : d.HasColumnsOf a selected) :
    (d.addMissing table a columns selected).HasColumnsOf a columns := by
  have hone : ∀ d column, RuleSteps d (d.addMissing table a [column] selected) :=
    fun d column => ruleSteps_addMissing d table a [column] selected
  intro column hcolumn
  refine foldl_provides (P := fun d => d.hasField a column = true) hone ?_ ?_ hcolumn
  · intro d' hsteps
    have hthere := RuleSteps.hasColumnsOf hsteps hselected
    simp only [Draft.addMissing, List.foldl_cons, List.foldl_nil]
    split
    · next hpresent => exact hpresent.elim (hthere column) id
    · exact (hasField_noteField _ _ _ _ _ _).2 (.inr ⟨rfl, rfl⟩)
  · intro d' _ other hfield
    exact (hone d' other).steps.grows.fields a column hfield

/-! ### Marks -/

/-- The tables that are marked for overlays. -/
def marks (d : Draft) : OrderedMap String Bool × OrderedMap String Bool :=
  (d.overlays, d.versionOverlays)

theorem marks_attach (d : Draft) (a condition : String) : (d.attach a condition).marks = d.marks := by
  rw [attach_eq]
  rfl

theorem marks_addMissing (d : Draft) (table a : String) (columns selected : List String) :
    (d.addMissing table a columns selected).marks = d.marks := by
  unfold addMissing
  induction columns generalizing d with
  | nil => rfl
  | cons column columns ih =>
      rw [List.foldl_cons, ih]
      split <;> rfl

@[simp]
theorem overlays_attach (d : Draft) (a condition : String) :
    (d.attach a condition).overlays = d.overlays :=
  congrArg Prod.fst (marks_attach d a condition)

@[simp]
theorem versionOverlays_attach (d : Draft) (a condition : String) :
    (d.attach a condition).versionOverlays = d.versionOverlays :=
  congrArg Prod.snd (marks_attach d a condition)

@[simp]
theorem overlays_addMissing (d : Draft) (table a : String) (columns selected : List String) :
    (d.addMissing table a columns selected).overlays = d.overlays :=
  congrArg Prod.fst (marks_addMissing d table a columns selected)

@[simp]
theorem versionOverlays_addMissing (d : Draft) (table a : String)
    (columns selected : List String) :
    (d.addMissing table a columns selected).versionOverlays = d.versionOverlays :=
  congrArg Prod.snd (marks_addMissing d table a columns selected)

@[simp]
theorem overlays_setVersionOverlay (d : Draft) (table : String) (needed : Bool) :
    (d.setVersionOverlay table needed).overlays = d.overlays := rfl

theorem get?_setOverlay_of_ne {table other : String} (h : other ≠ table) (d : Draft)
    (needed : Bool) : (d.setOverlay table needed).overlays.get? other = d.overlays.get? other := by
  simp [setOverlay, OrderedMap.get?_insert, h]

theorem get?_setVersionOverlay_of_ne {table other : String} (h : other ≠ table) (d : Draft)
    (needed : Bool) :
    (d.setVersionOverlay table needed).versionOverlays.get? other =
      d.versionOverlays.get? other := by
  simp [setVersionOverlay, OrderedMap.get?_insert, h]

/-- The columns of an alias are selected, and its table is marked for overlays. -/
def Ready (marksOf : Draft → OrderedMap String Bool) (table a : String) (columns : List String)
    (d : Draft) : Prop :=
  d.HasColumnsOf a columns ∧ (marksOf d).get? table = some true

/-- Behind a loop over aliases all is ready for one of them, if its own turn selects the columns, the
turns of its table set the mark, and the other turns leave the mark alone. -/
theorem ready_foldl {turn : Draft → String × List String → Draft}
    {marksOf : Draft → OrderedMap String Bool} {d : Draft} {a : String}
    {selected columns : List String} {entries : List (String × List String)}
    (hsteps : ∀ d entry, RuleSteps d (turn d entry))
    (hcolumns : ∀ d', RuleSteps d d' → (turn d' (a, selected)).HasColumnsOf a columns)
    (hmarked : ∀ d', RuleSteps d d' → ∀ entry : String × List String,
      d'.query.tableOf entry.1 = d.query.tableOf a →
        (marksOf (turn d' entry)).get? (d.query.tableOf a) = some true)
    (hother : ∀ (d' : Draft) (entry : String × List String) (table : String),
      table ≠ d'.query.tableOf entry.1 →
        (marksOf (turn d' entry)).get? table = (marksOf d').get? table)
    (hentry : (a, selected) ∈ entries) :
    Ready marksOf (d.query.tableOf a) a columns (entries.foldl turn d) := by
  apply foldl_provides hsteps ?_ ?_ hentry
  · intro d' hd'
    have htable : d'.query.tableOf a = d.query.tableOf a := by rw [hd'.steps.tableOf]
    exact ⟨hcolumns d' hd', hmarked d' hd' (a, selected) htable⟩
  · intro d' hd' entry hready
    refine ⟨(hsteps d' entry).hasColumnsOf hready.1, ?_⟩
    -- Two aliases may stand for one table, and then both of them need the overlay.
    by_cases hsame : d'.query.tableOf entry.1 = d.query.tableOf a
    · exact hmarked d' hd' entry hsame
    · calc (marksOf (turn d' entry)).get? (d.query.tableOf a)
          = (marksOf d').get? (d.query.tableOf a) := hother d' entry _ (Ne.symm hsame)
        _ = some true := hready.2

/-! ## Languages -/

section Catalog

variable {catalog : Catalog} {context : RequestContext} {settings : Settings}
variable {Wanted : ListEntry → Prop} {d : Draft}

/-- A table whose records are overlaid gets the columns for it and is marked, also where a condition
on its language follows. -/
theorem addLanguageOf_of_overlays {a : String}
    (h : OverlaysLanguage (catalog.platform context settings) d.query (d.query.tableOf a))
    (selected : List String) :
    let d' := addLanguageOf (catalog.platform context settings) d (a, selected)
    let columns := Catalog.complete selected (catalog.languageColumns (d.query.tableOf a))
    d'.selection = (d.addMissing (d.query.tableOf a) a columns selected).selection ∧
      d'.overlays = d.overlays.insert (d.query.tableOf a) true := by
  rcases h with ⟨_, _, hskip, hoverlays⟩
  intro d' columns
  have hcolumns : (catalog.platform context settings).policy.overlayColumns (d.query.tableOf a)
      selected = .ok columns := Catalog.overlayColumns_of_usesOverlays hoverlays selected
  -- Of the four kinds of storage only the two with overlays are left.
  have hoverlay : d' = d.addLanguageOverlay (catalog.platform context settings) (d.query.tableOf a)
      a selected (catalog.languageStorage (d.query.tableOf a)) := by
    have hstorage : (catalog.platform context settings).policy.languageStorage
      (d.query.tableOf a) = catalog.languageStorage (d.query.tableOf a) := rfl
    simp only [d', addLanguageOf, hskip, Bool.false_eq_true, if_false]
    rw [hstorage] at hoverlays ⊢
    generalize catalog.languageStorage (d.query.tableOf a) = storage at hoverlays ⊢
    cases storage with
    | none => cases hoverlays
    | languageFlag field => cases hoverlays
    | sameTable => rfl
    | foreignTable => rfl
  have hmarked : ((d.addMissing (d.query.tableOf a) a columns selected).setOverlay
      (d.query.tableOf a) true).overlays = d.overlays.insert (d.query.tableOf a) true := by
    rw [setOverlay, overlays_addMissing]
  rw [hoverlay, addLanguageOverlay, hcolumns]
  simp only
  split
  · next hsame =>
      rcases Catalog.languageCondition_of_sameTable hsame a context with ⟨condition, hcondition⟩
      have hgiven : (catalog.platform context settings).policy.languageCondition
        (d.query.tableOf a) a (catalog.platform context settings).context = .ok condition :=
        hcondition
      rw [hgiven]
      exact ⟨selection_attach _ a condition, (overlays_attach _ a condition).trans hmarked⟩
  · exact ⟨rfl, hmarked⟩

/-- Any other table keeps its mark. -/
theorem overlays_addLanguageOf_of_ne {p : Platform} {entry : String × List String} {table : String}
    (h : table ≠ d.query.tableOf entry.1) :
    (addLanguageOf p d entry).overlays.get? table = d.overlays.get? table := by
  unfold addLanguageOf addLanguageOverlay
  simp only
  split
  · exact get?_setOverlay_of_ne h d false
  · split
    · rfl
    · rw [overlays_attach]
    · split
      · exact get?_setOverlay_of_ne h d false
      · -- The mark is set, and taken back where the condition cannot be had.
        split
        · split
          · rw [overlays_attach, get?_setOverlay_of_ne h, overlays_addMissing]
          · rw [get?_setOverlay_of_ne h, get?_setOverlay_of_ne h, overlays_addMissing]
        · rw [get?_setOverlay_of_ne h, overlays_addMissing]

/-- Where records are not overlaid, nothing is selected. -/
theorem selection_addLanguageOf {p : Platform} {entry : String × List String}
    (h : p.settings.skipOverlays.contains (d.query.tableOf entry.1) = false →
      (p.policy.languageStorage (d.query.tableOf entry.1)).usesOverlays = false) :
    (addLanguageOf p d entry).selection = d.selection := by
  unfold addLanguageOf
  simp only
  split
  · rfl
  · next hskip =>
      have hnone := h (Bool.not_eq_true _ ▸ hskip)
      split
      · rfl
      · exact selection_attach d _ _
      · next mode hplain hflag =>
          -- Only the two kinds with overlays are left.
          exfalso
          generalize p.policy.languageStorage (d.query.tableOf entry.1) = storage at hnone hplain hflag
          cases storage with
          | none => exact hplain rfl
          | languageFlag field => exact hflag field rfl
          | sameTable => cases hnone
          | foreignTable => cases hnone

theorem completes_addLanguageOf {entry : String × List String}
    (hlanguage : settings.ignoreLanguage = false) (hdistinct : d.query.distinct = false)
    (hwanted : OverlaysLanguage (catalog.platform context settings) d.query
        (d.query.tableOf entry.1) →
      ∀ column ∈ catalog.languageColumns (d.query.tableOf entry.1),
        Wanted (.usual d.query.mainAlias (d.query.tableOf entry.1) entry.1 column)) :
    Completes Wanted d (addLanguageOf (catalog.platform context settings) d entry) := by
  have hsteps := ruleSteps_addLanguageOf (catalog.platform context settings) d entry
  by_cases hoverlays : OverlaysLanguage (catalog.platform context settings) d.query
      (d.query.tableOf entry.1)
  · refine (Completes.addMissing fun column hcolumn hmissing => ?_).congr hsteps
      (addLanguageOf_of_overlays hoverlays entry.2).1
    exact hwanted hoverlays column ((mem_complete.1 hcolumn).resolve_left hmissing)
  · refine .of_selection hsteps (selection_addLanguageOf fun hskip => ?_)
    apply Bool.eq_false_iff.2
    exact fun huses => hoverlays ⟨hlanguage, hdistinct, hskip, huses⟩

theorem completes_addLanguage {selected : OrderedMap String (List String)}
    (hwanted : ∀ entry ∈ selected.entries,
      OverlaysLanguage (catalog.platform context settings) d.query (d.query.tableOf entry.1) →
        ∀ column ∈ catalog.languageColumns (d.query.tableOf entry.1),
          Wanted (.usual d.query.mainAlias (d.query.tableOf entry.1) entry.1 column)) :
    Completes Wanted d (d.addLanguage (catalog.platform context settings) selected) := by
  unfold addLanguage
  split
  · exact .refl d
  · next happlies =>
      rw [Bool.or_eq_true, not_or, Bool.not_eq_true, Bool.not_eq_true] at happlies
      apply Completes.foldl
      intro d' hsteps entry hentry
      have hdistinct : d'.query.distinct = false := hsteps.steps.distinct.trans happlies.2
      apply completes_addLanguageOf happlies.1 hdistinct
      rw [overlaysLanguage_congr hsteps, hsteps.steps.tableOf, hsteps.steps.mainAlias]
      exact hwanted entry hentry

/-- Behind the language rules a table with overlays has its columns and its mark. -/
theorem ready_addLanguage {a : String} {columns : List String}
    {selected : OrderedMap String (List String)} (hentry : (a, columns) ∈ selected.entries)
    (hcolumns : d.HasColumnsOf a columns)
    (h : OverlaysLanguage (catalog.platform context settings) d.query (d.query.tableOf a)) :
    Ready Draft.overlays (d.query.tableOf a) a (catalog.languageColumns (d.query.tableOf a))
      (d.addLanguage (catalog.platform context settings) selected) := by
  have happlies : ¬((catalog.platform context settings).settings.ignoreLanguage ||
      d.query.distinct) = true := by
    rw [h.1, h.2.1]
    exact Bool.false_ne_true
  have hturn : ∀ d', RuleSteps d d' → ∀ entry : String × List String,
      d'.query.tableOf entry.1 = d.query.tableOf a →
        OverlaysLanguage (catalog.platform context settings) d'.query
          (d'.query.tableOf entry.1) := by
    intro d' hd' entry htable
    rw [htable]
    exact (overlaysLanguage_congr hd').2 h
  rw [addLanguage, if_neg happlies]
  -- Its own turn brings the columns, any turn of its table the mark, and the others leave both.
  apply ready_foldl (ruleSteps_addLanguageOf _) ?_ ?_ ?_ hentry
  · intro d' hd'
    have htable : d'.query.tableOf a = d.query.tableOf a := by rw [hd'.steps.tableOf]
    have hselection := (addLanguageOf_of_overlays (hturn d' hd' (a, columns) htable) columns).1
    rw [htable] at hselection
    intro column hcolumn
    rw [hasField_congr hselection]
    exact hasColumnsOf_addMissing (hd'.hasColumnsOf hcolumns) column
      (mem_complete.2 (.inr hcolumn))
  · intro d' hd' entry htable
    rw [(addLanguageOf_of_overlays (hturn d' hd' entry htable) entry.2).2, htable]
    simp [OrderedMap.get?_insert]
  · exact fun d' entry table hother => overlays_addLanguageOf_of_ne hother

/-! ## Workspaces -/

/-- A table whose versions are overlaid gets the columns for it and is marked. -/
theorem addVersioningOf_of_overlays {a : String}
    (h : OverlaysVersions (catalog.platform context settings) (d.query.tableOf a))
    (selected : List String) :
    let d' := addVersioningOf (catalog.platform context settings) d (a, selected)
    let columns := Catalog.complete selected Catalog.workspaceColumns
    d'.selection = (d.setVersionOverlay (d.query.tableOf a) false
        |>.addMissing (d.query.tableOf a) a columns selected).selection ∧
      d'.versionOverlays.get? (d.query.tableOf a) = some true := by
  rcases h with ⟨hpreview, hversioned⟩
  intro d' columns
  rcases Catalog.previewRules_of_versioned hversioned context settings a selected with
    ⟨condition, hrules⟩
  have heq : d' = ((d.setVersionOverlay (d.query.tableOf a) false
      |>.addMissing (d.query.tableOf a) a columns selected).setVersionOverlay
        (d.query.tableOf a) true).attach a condition := by
    simp only [d', addVersioningOf, hpreview, hversioned, hrules, Bool.not_true, Bool.false_eq_true,
      if_false, columns]
  rw [heq, versionOverlays_attach]
  constructor
  · exact selection_attach _ a condition
  · simp [setVersionOverlay, OrderedMap.get?_insert]

/-- The marks for languages stay. -/
theorem overlays_addVersioningOf (p : Platform) (d : Draft) (entry : String × List String) :
    (addVersioningOf p d entry).overlays = d.overlays := by
  unfold addVersioningOf
  simp only
  split
  · rfl
  · split
    · exact overlays_attach _ _ _
    · split
      · simp
      · exact overlays_attach _ _ _

/-- Any other table keeps its mark for versions. -/
theorem versionOverlays_addVersioningOf_of_ne {p : Platform} {entry : String × List String}
    {table : String} (h : table ≠ d.query.tableOf entry.1) :
    (addVersioningOf p d entry).versionOverlays.get? table = d.versionOverlays.get? table := by
  unfold addVersioningOf
  simp only
  split
  · exact get?_setVersionOverlay_of_ne h d false
  · split
    · rw [versionOverlays_attach, get?_setVersionOverlay_of_ne h]
    · split
      · rw [versionOverlays_attach, get?_setVersionOverlay_of_ne h, versionOverlays_addMissing,
          get?_setVersionOverlay_of_ne h]
      · rw [versionOverlays_attach]
        exact get?_setVersionOverlay_of_ne h d false

/-- Where versions are not overlaid, nothing is selected. -/
theorem selection_addVersioningOf {p : Platform} {entry : String × List String}
    (h : ¬OverlaysVersions p (d.query.tableOf entry.1)) :
    (addVersioningOf p d entry).selection = d.selection := by
  unfold addVersioningOf
  simp only
  split
  · rfl
  · next hversioned =>
      split
      · exact selection_attach _ _ _
      · next hpreview =>
          rw [Bool.not_eq_true, Bool.not_eq_false'] at hversioned hpreview
          exact absurd ⟨hpreview, hversioned⟩ h

theorem completes_addVersioningOf {entry : String × List String}
    (hwanted : OverlaysVersions (catalog.platform context settings) (d.query.tableOf entry.1) →
      ∀ column ∈ Catalog.workspaceColumns,
        Wanted (.usual d.query.mainAlias (d.query.tableOf entry.1) entry.1 column)) :
    Completes Wanted d (addVersioningOf (catalog.platform context settings) d entry) := by
  have hsteps := ruleSteps_addVersioningOf (catalog.platform context settings) d entry
  by_cases hoverlays : OverlaysVersions (catalog.platform context settings) (d.query.tableOf entry.1)
  · have hunmarked : Completes Wanted d (d.setVersionOverlay (d.query.tableOf entry.1) false) :=
      .of_selection (RuleStep.setVersionOverlay d _ false).single rfl
    have hcolumns : Completes Wanted (d.setVersionOverlay (d.query.tableOf entry.1) false)
        ((d.setVersionOverlay (d.query.tableOf entry.1) false).addMissing (d.query.tableOf entry.1)
          entry.1 (Catalog.complete entry.2 Catalog.workspaceColumns) entry.2) :=
      .addMissing fun column hcolumn hmissing =>
        hwanted hoverlays column ((mem_complete.1 hcolumn).resolve_left hmissing)
    exact (hunmarked.trans hcolumns).congr hsteps
      (addVersioningOf_of_overlays hoverlays entry.2).1
  · exact .of_selection hsteps (selection_addVersioningOf hoverlays)

theorem completes_addVersioning {selected : OrderedMap String (List String)}
    (hwanted : ∀ entry ∈ selected.entries,
      OverlaysVersions (catalog.platform context settings) (d.query.tableOf entry.1) →
        ∀ column ∈ Catalog.workspaceColumns,
          Wanted (.usual d.query.mainAlias (d.query.tableOf entry.1) entry.1 column)) :
    Completes Wanted d (d.addVersioning (catalog.platform context settings) selected) := by
  apply Completes.foldl
  intro d' hsteps entry hentry
  apply completes_addVersioningOf
  rw [hsteps.steps.tableOf, hsteps.steps.mainAlias]
  exact hwanted entry hentry

/-- Behind the rules for workspaces a table with versions to overlay has its columns and its mark. -/
theorem ready_addVersioning {a : String} {columns : List String}
    {selected : OrderedMap String (List String)} (hentry : (a, columns) ∈ selected.entries)
    (hcolumns : d.HasColumnsOf a columns)
    (h : OverlaysVersions (catalog.platform context settings) (d.query.tableOf a)) :
    Ready Draft.versionOverlays (d.query.tableOf a) a Catalog.workspaceColumns
      (d.addVersioning (catalog.platform context settings) selected) := by
  apply ready_foldl (ruleSteps_addVersioningOf _) ?_ ?_ ?_ hentry
  · intro d' hd'
    have htable : d'.query.tableOf a = d.query.tableOf a := by rw [hd'.steps.tableOf]
    rw [← htable] at h
    have hunmarked : (d'.setVersionOverlay (d'.query.tableOf a) false).HasColumnsOf a columns :=
      hd'.hasColumnsOf hcolumns
    -- The entry completes its own columns by the ones of the workspaces.
    intro column hcolumn
    rw [hasField_congr (addVersioningOf_of_overlays h columns).1]
    exact hasColumnsOf_addMissing hunmarked column (mem_complete.2 (.inr hcolumn))
  · intro d' hd' entry htable
    rw [← htable] at h ⊢
    exact (addVersioningOf_of_overlays h entry.2).2
  · exact fun d' entry table hother => versionOverlays_addVersioningOf_of_ne hother

theorem overlays_addVersioning {p : Platform} (selected : OrderedMap String (List String)) :
    (d.addVersioning p selected).overlays = d.overlays := by
  unfold addVersioning
  generalize selected.entries = entries
  induction entries generalizing d with
  | nil => rfl
  | cons entry entries ih => rw [List.foldl_cons, ih, overlays_addVersioningOf]

end Catalog

/-! ## All rules -/

theorem keys_selectedColumns (d : Draft) : d.selectedColumns.keys = d.tables.keys :=
  OrderedMap.keys_mapValues _ _

/-- The columns that are known before the rules are selected. -/
theorem hasColumnsOf_selectedColumns {d : Draft} {a : String} {columns : List String}
    (h : (a, columns) ∈ d.selectedColumns.entries) : d.HasColumnsOf a columns := by
  rcases List.mem_map.1 h with ⟨⟨b, t⟩, hmem, heq⟩
  simp only [Prod.mk.injEq] at heq
  rcases heq with ⟨rfl, rfl⟩
  intro column hcolumn
  rcases List.mem_map.1 hcolumn with ⟨field, hfield, rfl⟩
  have hthere : field ∈ t.fields := (List.mem_filter.1 hfield).1
  rw [hasField, OrderedMap.get?_eq_some_iff.2 hmem]
  exact List.any_eq_true.2 ⟨field, hthere, beq_self_eq_true _⟩

/-- Only what overlays need is selected by the rules. -/
theorem completes_addMechanisms (catalog : Catalog) (context : RequestContext)
    (settings : Settings) (d : Draft) :
    Completes (fun e => ∃ a ∈ d.tables.keys, ∃ column,
        e = .usual d.query.mainAlias (d.query.tableOf a) a column ∧
          NeedsColumn catalog context settings d.query a column)
      d (d.addMechanisms (catalog.platform context settings)) := by
  let d₁ := d.addVisibility (catalog.platform context settings)
  let d₂ := d₁.addLanguage (catalog.platform context settings) d₁.selectedColumns
  have hvisible : RuleSteps d d₁ := ruleSteps_addVisibility _ d
  have hlanguage : RuleSteps d d₂ := hvisible.trans (ruleSteps_addLanguage _ d₁ d₁.selectedColumns)
  have hselection : d₁.selection = d.selection := selection_addVisibility _ d
  have hkeys : ∀ entry ∈ d₁.selectedColumns.entries, entry.1 ∈ d.tables.keys := by
    intro entry hentry
    rw [← tables_congr hselection, ← keys_selectedColumns]
    exact OrderedMap.mem_keys_of_mem hentry
  -- Visibility leaves the selection alone; the other two each add the columns they need.
  unfold addMechanisms
  refine ((Completes.of_selection hvisible hselection).trans (completes_addLanguage ?_)).trans
    (completes_addVersioning ?_)
  · rw [hvisible.steps.tableOf, hvisible.steps.mainAlias]
    intro entry hentry hoverlays column hcolumn
    rw [overlaysLanguage_congr hvisible] at hoverlays
    exact ⟨entry.1, hkeys entry hentry, column, rfl, .inl ⟨hoverlays, hcolumn⟩⟩
  · rw [hlanguage.steps.tableOf, hlanguage.steps.mainAlias]
    intro entry hentry hoverlays column hcolumn
    exact ⟨entry.1, hkeys entry hentry, column, rfl, .inr ⟨hoverlays, hcolumn⟩⟩

/-- Every alias with selected fields has what the overlays of its table need after the rules of the
platform, and the table is marked for them.  The rules select nothing else: what they add is needed,
was not selected before, and is added once. -/
theorem overlayColumns_of_mechanisms (catalog : Catalog) (context : RequestContext)
    (settings : Settings) (d : Draft) :
    let p := catalog.platform context settings
    let d' := d.addMechanisms p
    (∀ a ∈ d.tables.keys,
      (OverlaysLanguage p d.query (d.query.tableOf a) →
        d'.HasColumnsOf a (catalog.languageColumns (d.query.tableOf a)) ∧
          d'.needsLanguageOverlay (d.query.tableOf a) = true) ∧
      (OverlaysVersions p (d.query.tableOf a) →
        d'.HasColumnsOf a Catalog.workspaceColumns ∧
          d'.needsVersionOverlay (d.query.tableOf a) = true)) ∧
    ∃ added, d.Selects d' added ∧ (added.map (·.place)).Nodup ∧
      ∀ e ∈ added, ∃ a ∈ d.tables.keys, ∃ column,
        e = .usual d.query.mainAlias (d.query.tableOf a) a column ∧
          d.hasField a column = false ∧ NeedsColumn catalog context settings d.query a column := by
  intro p d'
  constructor
  · intro a ha
    have hvisible := ruleSteps_addVisibility p d
    let d₁ := d.addVisibility p
    let d₂ := d₁.addLanguage p d₁.selectedColumns
    have hlanguage : RuleSteps d₁ d₂ := ruleSteps_addLanguage p d₁ d₁.selectedColumns
    have hversions : RuleSteps d₂ d' := reflTransGen_foldl id (ruleSteps_addVersioningOf p) _ d₂
    have htable : d₁.query.tableOf a = d.query.tableOf a := by rw [hvisible.steps.tableOf]
    have htable' : d₂.query.tableOf a = d.query.tableOf a := by rw [hlanguage.steps.tableOf, htable]
    -- Both phases go by the columns that were known before them.
    have hknown : a ∈ d₁.selectedColumns.keys := by
      rw [keys_selectedColumns, tables_congr (selection_addVisibility p d)]
      exact ha
    rcases OrderedMap.exists_of_mem_keys hknown with ⟨columns, hentry⟩
    have hcolumns := hasColumnsOf_selectedColumns hentry
    constructor
    · intro hoverlays
      have hoverlays' := (overlaysLanguage_congr hvisible).2 hoverlays
      rw [← htable] at hoverlays' ⊢
      have hready := ready_addLanguage hentry hcolumns hoverlays'
      refine ⟨hversions.hasColumnsOf hready.1, ?_⟩
      have hmarks : d'.overlays = d₂.overlays := overlays_addVersioning d₁.selectedColumns
      rw [needsLanguageOverlay, hmarks, hready.2]
      rfl
    · intro hoverlays
      rw [← htable'] at hoverlays ⊢
      have hready := ready_addVersioning hentry (hlanguage.hasColumnsOf hcolumns) hoverlays
      refine ⟨hready.1, ?_⟩
      have hmark : d'.versionOverlays.get? (d₂.query.tableOf a) = some true := hready.2
      rw [needsVersionOverlay, hmark]
      rfl
  · rcases (completes_addMechanisms catalog context settings d).selects with
      ⟨added, hselects, hnodup, hadded⟩
    refine ⟨added, hselects, hnodup, fun e he => ?_⟩
    rcases hadded e he with ⟨hnew, a, ha, column, rfl, hneeded⟩
    exact ⟨a, ha, column, rfl, hnew, hneeded⟩

/-- Pages, and news in several languages and versions. -/
def newsroom : Catalog where
  tables := .ofList
    [("pages", { columns := .ofList [("uid", none), ("pid", none), ("title", none)] }),
      ("news",
        { columns := .ofList [("uid", none), ("pid", none), ("body", none), ("source", none)]
          control :=
            { language := some "language", languageParent := some "parent", versioned := true } })]

/-- A workspace of the newsroom, previewed in another language than the default one. -/
def newsroomPreview : Platform :=
  newsroom.platform { RequestContext.atTime 0 with language := 1, preview := true } {}

/-- News with the news that they come from: two aliases of one table. -/
def sourcesText : String :=
  "SELECT body, s.body FROM news LEFT JOIN news AS s"

/-- Both aliases of the news have the columns for both overlays. -/
theorem overlayColumns_of_sources :
    let d := (({} : Draft).parse newsroomPreview sourcesText).1
    let d' := d.addMechanisms newsroomPreview
    (({} : Draft).parse newsroomPreview sourcesText).2 = .ok "" ∧
      (∀ a ∈ ["news", "s"], d'.HasColumnsOf a ["uid", "pid", "language"] ∧
        d'.HasColumnsOf a ["uid", "pid", "t3ver_state"]) ∧
      d'.needsLanguageOverlay "news" = true ∧ d'.needsVersionOverlay "news" = true := by
  intro d d'
  have hall := (overlayColumns_of_mechanisms newsroom newsroomPreview.context {} d).1
  have hread : (({} : Draft).parse newsroomPreview sourcesText).2 = .ok "" ∧
      d.query.distinct = false ∧
      ∀ a ∈ ["news", "s"], a ∈ d.tables.keys ∧ d.query.tableOf a = "news" := by
    decide +kernel
  rcases hread with ⟨hok, hdistinct, htables⟩
  have hlanguage : OverlaysLanguage newsroomPreview d.query "news" :=
    ⟨by decide +kernel, hdistinct, by decide +kernel, by decide +kernel⟩
  have hversions : OverlaysVersions newsroomPreview "news" :=
    ⟨by decide +kernel, by decide +kernel⟩
  have hcolumns : newsroom.languageColumns "news" = ["uid", "pid", "language"] := by decide +kernel
  have hboth : ∀ a ∈ ["news", "s"],
      (d'.HasColumnsOf a ["uid", "pid", "language"] ∧ d'.needsLanguageOverlay "news" = true) ∧
        d'.HasColumnsOf a ["uid", "pid", "t3ver_state"] ∧ d'.needsVersionOverlay "news" = true := by
    intro a ha
    rcases htables a ha with ⟨hselected, htable⟩
    have hready := hall a hselected
    rw [htable, hcolumns] at hready
    exact ⟨hready.1 hlanguage, hready.2 hversions⟩
  refine ⟨hok, fun a ha => ⟨(hboth a ha).1.1, (hboth a ha).2.1⟩, ?_⟩
  exact ⟨(hboth "news" List.mem_cons_self).1.2, (hboth "news" List.mem_cons_self).2.2⟩

end Draft
end ContentQuery
