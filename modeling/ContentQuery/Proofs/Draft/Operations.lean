import ContentQuery.Platform.Catalog
import ContentQuery.Proofs.Draft.Attachments

/-!
# Operations on a draft

The rules of the platform, a filter and an id list each attach a list of conditions that can be
read off the draft.  Apart from these conditions an operation changes the final SELECT list, the
ordering and the fulltext placeholders, and nothing else of the query.
-/

namespace ContentQuery
namespace Query

/-- A query without the parts that an operation changes freely. -/
def body (q : Query) : Query :=
  { q with selectList := [], orderBy := [], orderFields := [], placeholders := ∅ }

theorem body_attach (q : Query) (t : Attachment) : (q.attach t).body = q.body.attach t := by
  have hmain : q.body.isMainAlias t.aliasName = q.isMainAlias t.aliasName := rfl
  have haliases : q.body.subtableAliases = q.subtableAliases := rfl
  simp only [attach_eq, hmain, haliases]
  split
  · rfl
  · split
    · simp only [body]
    · split
      · simp only [body]
      · rfl

theorem body_attachAll (q : Query) (ts : List Attachment) :
    (q.attachAll ts).body = q.body.attachAll ts := by
  induction ts generalizing q with
  | nil => rfl
  | cons t ts ih => rw [attachAll_cons, ih, body_attach, ← attachAll_cons]

theorem conditions_body (q : Query) : q.body.conditions = q.conditions :=
  rfl

theorem joins_body (q : Query) : q.body.joins = q.joins :=
  rfl

theorem tableOf_body (q : Query) : q.body.tableOf = q.tableOf :=
  rfl

end Query

namespace Draft

/-! ## Steps that attach nothing -/

@[simp] theorem query_warn (d : Draft) (title message : String) :
    (d.warn title message).query = d.query :=
  rfl

@[simp] theorem query_notify (d : Draft) (title message : String) :
    (d.notify title message).query = d.query :=
  rfl

@[simp] theorem query_noteField (d : Draft) (table a : String) (field : DraftField) :
    (d.noteField table a field).query = d.query :=
  rfl

@[simp] theorem body_select (d : Draft) (table a field column : String) :
    (d.select table a field column).query.body = d.query.body :=
  rfl

@[simp] theorem body_selectExtra (d : Draft) (table a field : String) :
    (d.selectExtra table a field).query.body = d.query.body :=
  rfl

@[simp] theorem query_setOverlay (d : Draft) (table : String) (needed : Bool) :
    (d.setOverlay table needed).query = d.query :=
  rfl

@[simp] theorem query_setVersionOverlay (d : Draft) (table : String) (needed : Bool) :
    (d.setVersionOverlay table needed).query = d.query :=
  rfl

@[simp] theorem body_addMissing (d : Draft) (table a : String) (columns selected : List String) :
    (d.addMissing table a columns selected).query.body = d.query.body := by
  unfold addMissing
  induction columns generalizing d with
  | nil => rfl
  | cons column columns ih =>
      rw [List.foldl_cons, ih]
      split <;> simp

/-- What becomes of a draft that is asked for a name: it remembers the name, or knows it as an alias,
or does not know it, or guesses an alias of the table and says so. -/
theorem resolve_cases (d : Draft) (name component : String) :
    (∃ a, d.resolved.get? name = some a ∧ d.resolve name component = (d, .ok a)) ∨
    (d.resolved.get? name = none ∧ name ∈ d.query.tableOfAlias.keys ∧
      d.resolve name component =
        ({ d with resolved := d.resolved.insert name name }, .ok name)) ∨
    (d.resolved.get? name = none ∧ name ∉ d.query.tableOfAlias.keys ∧
      aliasOfTable? d.query name = none ∧
      d.resolve name component = (d, .error (.unknownTable name component))) ∨
    (∃ a, d.resolved.get? name = none ∧ name ∉ d.query.tableOfAlias.keys ∧
      aliasOfTable? d.query name = some a ∧
      d.resolve name component =
        ({ d.warn "Unreliable alias match" ("Potentially unreliable match of table " ++ name ++
            " from component " ++ component) with
          resolved := d.resolved.insert name a }, .ok a)) := by
  unfold resolve
  split
  · next a hknown => exact .inl ⟨a, hknown, rfl⟩
  · next hnew =>
      split
      · next hname => exact .inr (.inl ⟨hnew, OrderedMap.contains_iff.1 hname, rfl⟩)
      · next hname =>
          have hother := mt OrderedMap.contains_iff.2 hname
          split
          · next htable => exact .inr (.inr (.inl ⟨hnew, hother, htable, rfl⟩))
          · next a htable => exact .inr (.inr (.inr ⟨a, hnew, hother, htable, rfl⟩))

@[simp] theorem query_resolve (d : Draft) (name component : String) :
    (d.resolve name component).1.query = d.query := by
  rcases d.resolve_cases name component with
    ⟨_, _, h⟩ | ⟨_, _, h⟩ | ⟨_, _, _, h⟩ | ⟨_, _, _, _, h⟩ <;> rw [h]
  rfl

theorem query_of_resolve {d d' : Draft} {name component : String} {answer : Except QueryError String}
    (h : d.resolve name component = (d', answer)) : d'.query = d.query := by
  have hquery := d.query_resolve name component
  rwa [h] at hquery

@[simp] theorem body_fillPlaceholder (d : Draft) (target : ConditionTarget) (text : String) :
    (d.fillPlaceholder target text).query.body = d.query.body := by
  unfold fillPlaceholder
  split <;> rfl

/-! ## Steps that attach -/

/-- Attaching changes nothing but the query. -/
theorem attach_eq (d : Draft) (a condition : String) :
    d.attach a condition = { d with query := d.query.attach ⟨a, condition⟩ } := by
  unfold attach Query.attach
  split
  · rfl
  · split <;> rfl

theorem query_attach (d : Draft) (a condition : String) :
    (d.attach a condition).query = d.query.attach ⟨a, condition⟩ := by
  rw [attach_eq]

/-- The draft `d'` comes from `d` by attaching conditions. -/
def Attaches (d d' : Draft) (ts : List Attachment) : Prop :=
  d'.query.body = (d.query.attachAll ts).body

theorem Attaches.refl_of {d d' : Draft} (h : d'.query.body = d.query.body) : Attaches d d' [] :=
  h

theorem Attaches.trans {d d' d'' : Draft} {s t : List Attachment} (h : Attaches d d' s)
    (h' : Attaches d' d'' t) : Attaches d d'' (s ++ t) := by
  rw [Attaches, h', Query.body_attachAll, h, Query.attachAll_append, ← Query.body_attachAll]

theorem attaches_attach {d d' : Draft} (h : d'.query.body = d.query.body) (a condition : String) :
    Attaches d (d'.attach a condition) [⟨a, condition⟩] := by
  rw [Attaches, query_attach]
  have hone := Query.body_attachAll d'.query [⟨a, condition⟩]
  rw [h, ← Query.body_attachAll] at hone
  exact hone

/-- Attaching conditions leaves all that `body` keeps, conditions and joins aside. -/
theorem Attaches.kept {d d' : Draft} {ts : List Attachment} (h : Attaches d d' ts) {α : Type}
    (f : Query → α) (hbody : ∀ q : Query, f q.body = f q)
    (hframe : ∀ (q : Query) conditions joins, f { q with conditions, joins } = f q) :
    f d'.query = f d.query := by
  rcases Query.attachAll_frame d.query ts with ⟨conditions, joins, hattached⟩
  calc f d'.query
      = f d'.query.body := (hbody d'.query).symm
    _ = f (d.query.attachAll ts).body := congrArg f h
    _ = f (d.query.attachAll ts) := hbody _
    _ = f d.query := by rw [hattached, hframe]

theorem Attaches.tableOf {d d' : Draft} {ts : List Attachment} (h : Attaches d d' ts) :
    d'.query.tableOf = d.query.tableOf :=
  h.kept Query.tableOf (fun _ => rfl) fun _ _ _ => rfl

theorem Attaches.mainAlias {d d' : Draft} {ts : List Attachment} (h : Attaches d d' ts) :
    d'.query.mainAlias = d.query.mainAlias :=
  h.kept Query.mainAlias (fun _ => rfl) fun _ _ _ => rfl

theorem Attaches.distinct {d d' : Draft} {ts : List Attachment} (h : Attaches d d' ts) :
    d'.query.distinct = d.query.distinct :=
  h.kept Query.distinct (fun _ => rfl) fun _ _ _ => rfl

/-- A fold whose steps attach what depends on the tables alone. -/
theorem attaches_foldl {α : Type} {f : Draft → α → Draft}
    {g : (String → String) → α → List Attachment}
    (hstep : ∀ d x, Attaches d (f d x) (g d.query.tableOf x)) (xs : List α) (d : Draft) :
    Attaches d (xs.foldl f d) (xs.flatMap (g d.query.tableOf)) := by
  induction xs generalizing d with
  | nil => exact .refl_of rfl
  | cons x xs ih =>
      have hrest := ih (f d x)
      rw [(hstep d x).tableOf] at hrest
      exact (hstep d x).trans hrest

/-! ## The rules of the platform -/

end Draft

/-- The platform whose schema and policy are those of a catalog. -/
def Catalog.platform (catalog : Catalog) (context : RequestContext) (settings : Settings) :
    Platform where
  schema := catalog.toSchema
  policy := catalog.toPolicy
  context := context
  settings := settings

namespace Draft

/-- The visibility condition of a table, written for its alias. -/
def visibilityOf (p : Platform) (ref : TableRef) : List Attachment :=
  match p.policy.visibility ref.table (p.context.showHidden ref.table)
      (p.settings.ignoredFields ref.aliasName) p.context with
  | .ok condition =>
      [⟨ref.aliasName,
        if ref.aliasName = ref.table then condition
        else Rename.tableToAlias condition ref.table ref.aliasName⟩]
  | .error _ => []

def visibilityConditions (p : Platform) (d : Draft) : List Attachment :=
  match p.settings.visibility with
  | .all => []
  | .none | .partialIgnore => d.tableRefs.flatMap (visibilityOf p)

/-- The condition on the language of a table with selected fields. -/
def languageOf (p : Platform) (tableOf : String → String) (entry : String × List String) :
    List Attachment :=
  let table := tableOf entry.1
  if p.settings.skipOverlays.contains table then []
  else match p.policy.languageStorage table with
    | .none | .foreignTable => []
    | .languageFlag field =>
        [⟨entry.1,
          entry.1 ++ "." ++ field ++ " IN (" ++ Text.decimal p.context.language ++ ", -1)"⟩]
    | .sameTable =>
        match p.policy.overlayColumns table entry.2,
            p.policy.languageCondition table entry.1 p.context with
        | .ok _, .ok condition => [⟨entry.1, condition⟩]
        | _, _ => []

def languageConditions (p : Platform) (d : Draft) (selected : OrderedMap String (List String)) :
    List Attachment :=
  if p.settings.ignoreLanguage || d.query.distinct then []
  else selected.entries.flatMap (languageOf p d.query.tableOf)

/-- The condition on the workspace of a table with selected fields. -/
def versioningOf (p : Platform) (tableOf : String → String) (entry : String × List String) :
    List Attachment :=
  let table := tableOf entry.1
  if !p.policy.isVersioned table then []
  else if !p.context.preview then [⟨entry.1, liveCondition entry.1⟩]
  else match previewRules p table entry.1 entry.2 with
    | .ok (_, condition) => [⟨entry.1, condition⟩]
    | .error _ => [⟨entry.1, liveCondition entry.1⟩]

def versioningConditions (p : Platform) (d : Draft) (selected : OrderedMap String (List String)) :
    List Attachment :=
  selected.entries.flatMap (versioningOf p d.query.tableOf)

variable {p : Platform} {tableOf : String → String} {entry : String × List String} {t : Attachment}

theorem aliasName_of_mem_visibilityOf {ref : TableRef} (ht : t ∈ visibilityOf p ref) :
    t.aliasName = ref.aliasName := by
  unfold visibilityOf at ht
  split at ht
  · rw [List.mem_singleton] at ht
    rw [ht]
  · simp at ht

/-- A condition on the language comes from a language column, or from the policy for overlays in the
table itself. -/
theorem mem_languageOf_cases (ht : t ∈ languageOf p tableOf entry) :
    (∃ field, p.policy.languageStorage (tableOf entry.1) = .languageFlag field ∧
      t = ⟨entry.1,
        entry.1 ++ "." ++ field ++ " IN (" ++ Text.decimal p.context.language ++ ", -1)"⟩) ∨
    ∃ condition,
      p.policy.languageCondition (tableOf entry.1) entry.1 p.context = .ok condition ∧
        t = ⟨entry.1, condition⟩ := by
  unfold languageOf at ht
  simp only at ht
  split at ht
  · cases ht
  · split at ht
    · cases ht
    · cases ht
    · next field hmode => exact .inl ⟨field, hmode, List.mem_singleton.1 ht⟩
    · split at ht
      · next condition _ hcondition => exact .inr ⟨condition, hcondition, List.mem_singleton.1 ht⟩
      · cases ht

/-- A condition on the workspace is that for live records, or the preview gives one. -/
theorem mem_versioningOf_cases (ht : t ∈ versioningOf p tableOf entry) :
    t = ⟨entry.1, liveCondition entry.1⟩ ∨
    ∃ condition,
      p.policy.versionCondition (tableOf entry.1) entry.1
        (p.settings.directVersions.contains entry.1) p.context = .ok condition ∧
          t = ⟨entry.1, condition⟩ := by
  unfold versioningOf at ht
  simp only at ht
  split at ht
  · cases ht
  · split at ht
    · exact .inl (List.mem_singleton.1 ht)
    · split at ht
      · next columns condition hrules =>
          rcases Query.bind_eq_ok.1 hrules with ⟨_, _, hrest⟩
          rcases Query.bind_eq_ok.1 hrest with ⟨condition', hcondition, hpair⟩
          cases hpair
          exact .inr ⟨condition, hcondition, List.mem_singleton.1 ht⟩
      · exact .inl (List.mem_singleton.1 ht)

theorem aliasName_of_mem_languageOf (ht : t ∈ languageOf p tableOf entry) :
    t.aliasName = entry.1 := by
  rcases mem_languageOf_cases ht with ⟨_, _, rfl⟩ | ⟨_, _, rfl⟩ <;> rfl

theorem aliasName_of_mem_versioningOf (ht : t ∈ versioningOf p tableOf entry) :
    t.aliasName = entry.1 := by
  rcases mem_versioningOf_cases ht with rfl | ⟨_, _, rfl⟩ <;> rfl

theorem attaches_addVisibilityOf (p : Platform) (d : Draft) (ref : TableRef) :
    Attaches d (addVisibilityOf p d ref) (visibilityOf p ref) := by
  unfold addVisibilityOf visibilityOf
  cases p.policy.visibility ref.table (p.context.showHidden ref.table)
      (p.settings.ignoredFields ref.aliasName) p.context with
  | error e => exact .refl_of rfl
  | ok condition => exact attaches_attach rfl _ _

theorem attaches_addVisibility (p : Platform) (d : Draft) :
    Attaches d (d.addVisibility p) (visibilityConditions p d) := by
  have hrefs := attaches_foldl (g := fun _ => visibilityOf p) (attaches_addVisibilityOf p)
    d.tableRefs d
  unfold addVisibility visibilityConditions
  cases p.settings.visibility with
  | all => exact .refl_of rfl
  | none => exact hrefs
  | partialIgnore => exact hrefs

/-- Overlays select further columns; only those in the table itself come with a condition. -/
theorem attaches_addLanguageOverlay (p : Platform) (d : Draft) (table a : String)
    (columns : List String) (mode : LanguageStorage) :
    Attaches d (d.addLanguageOverlay p table a columns mode)
      (if mode = .sameTable then
        match p.policy.overlayColumns table columns,
            p.policy.languageCondition table a p.context with
          | .ok _, .ok condition => [⟨a, condition⟩]
          | _, _ => []
      else []) := by
  unfold addLanguageOverlay
  cases p.policy.overlayColumns table columns with
  | error e =>
      simp only [ite_self]
      exact .refl_of rfl
  | ok overlay =>
      simp only
      split
      · cases p.policy.languageCondition table a p.context with
        | error e => exact .refl_of (by simp)
        | ok condition => exact attaches_attach (by simp) a condition
      · exact .refl_of (by simp)

theorem attaches_addLanguageOf (p : Platform) (d : Draft) (entry : String × List String) :
    Attaches d (addLanguageOf p d entry) (languageOf p d.query.tableOf entry) := by
  rcases entry with ⟨a, columns⟩
  unfold addLanguageOf languageOf
  simp only
  split
  · exact .refl_of rfl
  · cases p.policy.languageStorage (d.query.tableOf a) with
    | none => exact .refl_of rfl
    | languageFlag field => exact attaches_attach rfl _ _
    | foreignTable => exact attaches_addLanguageOverlay p d _ a columns .foreignTable
    | sameTable => exact attaches_addLanguageOverlay p d _ a columns .sameTable

theorem attaches_addLanguage (p : Platform) (d : Draft)
    (selected : OrderedMap String (List String)) :
    Attaches d (d.addLanguage p selected) (languageConditions p d selected) := by
  unfold addLanguage languageConditions
  split
  · exact .refl_of rfl
  · exact attaches_foldl (attaches_addLanguageOf p) selected.entries d

theorem attaches_addVersioningOf (p : Platform) (d : Draft) (entry : String × List String) :
    Attaches d (addVersioningOf p d entry) (versioningOf p d.query.tableOf entry) := by
  rcases entry with ⟨a, columns⟩
  unfold addVersioningOf versioningOf
  simp only
  split
  · exact .refl_of rfl
  · split
    · exact attaches_attach rfl _ _
    · -- Where the preview rules fail the condition for live records is attached.
      cases previewRules p (d.query.tableOf a) a columns with
      | error e => exact attaches_attach rfl _ _
      | ok rules => exact attaches_attach (by simp) _ _

theorem attaches_addVersioning (p : Platform) (d : Draft)
    (selected : OrderedMap String (List String)) :
    Attaches d (d.addVersioning p selected) (versioningConditions p d selected) :=
  attaches_foldl (attaches_addVersioningOf p) selected.entries d

/-- All conditions that the platform requires, in the order in which they are attached. -/
def mechanismConditions (p : Platform) (d : Draft) : List Attachment :=
  visibilityConditions p d ++ languageConditions p d d.selectedColumns ++
    versioningConditions p d d.selectedColumns

theorem tables_attach (d : Draft) (a condition : String) :
    (d.attach a condition).tables = d.tables := by
  rw [attach_eq]

theorem selectedColumns_addVisibility (p : Platform) (d : Draft) :
    (d.addVisibility p).selectedColumns = d.selectedColumns := by
  -- Selected columns are read off the tables of the draft, and attaching selects nothing.
  have hstep : ∀ (d : Draft) (ref : TableRef), (addVisibilityOf p d ref).tables = d.tables := by
    intro d ref
    unfold addVisibilityOf
    split
    · exact tables_attach d _ _
    · rfl
  have htables : (d.addVisibility p).tables = d.tables := by
    unfold addVisibility
    split
    · rfl
    · exact foldl_kept Draft.tables hstep _ d
    · exact foldl_kept Draft.tables hstep _ d
  rw [selectedColumns, htables, selectedColumns]

theorem attaches_addMechanisms (p : Platform) (d : Draft) :
    Attaches d (d.addMechanisms p) (mechanismConditions p d) := by
  have hvisible := attaches_addVisibility p d
  have hlanguage := attaches_addLanguage p (d.addVisibility p) d.selectedColumns
  have hversion := attaches_addVersioning p ((d.addVisibility p).addLanguage p d.selectedColumns)
    d.selectedColumns
  -- What a stage attaches depends on tables and DISTINCT, which the stages before leave.
  have hlanguages : languageConditions p (d.addVisibility p) d.selectedColumns =
      languageConditions p d d.selectedColumns := by
    rw [languageConditions, hvisible.tableOf, hvisible.distinct, languageConditions]
  have hversions : versioningConditions p ((d.addVisibility p).addLanguage p d.selectedColumns)
      d.selectedColumns = versioningConditions p d d.selectedColumns := by
    rw [versioningConditions, hlanguage.tableOf, hvisible.tableOf, versioningConditions]
  rw [hlanguages] at hlanguage
  rw [hversions] at hversion
  have hall := (hvisible.trans hlanguage).trans hversion
  unfold addMechanisms
  simp only [selectedColumns_addVisibility]
  exact hall

/-! ## Filters and id lists -/

/-- The groups of a filter by alias, and the fragment of SQL for the WHERE clause. -/
def filterConditions (p : Platform) (filter : Filter) (d : Draft) : List Attachment :=
  ((filter.groups.zipIdx.foldl (addGroup p) (d, ∅)).2.entries.map fun e =>
    ⟨e.1, Text.join (" " ++ filter.operator.word ++ " ") e.2⟩) ++
    [⟨d.query.mainAlias, filter.rawSql⟩]

/-- The ids of a list by alias. -/
def idListConditions (text : String) (d : Draft) : List Attachment :=
  ((Text.items ',' text).foldl addItem (d, ∅)).2.entries.map fun e =>
    ⟨e.1, e.1 ++ ".uid IN (" ++ Text.join "," (e.2.map Text.decimal) ++ ")"⟩

/-- What becomes of a draft when a condition is added to the text of its group. -/
theorem addGroupCondition_cases (p : Platform) (target : ConditionTarget)
    (state : Draft × String) (c : Condition) :
    (addGroupCondition p target state c).1 = state.1 ∨
    (∃ message,
      (addGroupCondition p target state c).1 = state.1.warn "Condition ignored" message) ∨
    ∃ text, (addGroupCondition p target state c).1 = state.1.fillPlaceholder target text := by
  rcases state with ⟨d, text⟩
  unfold addGroupCondition
  simp only
  split
  · exact .inl rfl
  · split
    · next e _ => exact .inr (.inl ⟨e.message, rfl⟩)
    · split
      · exact .inl rfl
      · split
        · exact .inr (.inr ⟨_, rfl⟩)
        · exact .inl rfl

theorem body_addGroup (p : Platform) (state : Draft × Collected) (item : FilterGroup × Nat) :
    (addGroup p state item).1.query.body = state.1.query.body := by
  rcases state with ⟨d, collected⟩
  rcases item with ⟨group, index⟩
  -- A condition of the group only collects text and fills placeholders.
  have hone : ∀ (target : ConditionTarget) (state : Draft × String) (c : Condition),
      (addGroupCondition p target state c).1.query.body = state.1.query.body := by
    intro target state c
    rcases addGroupCondition_cases p target state c with h | ⟨_, h⟩ | ⟨_, h⟩ <;> rw [h]
    · rfl
    · exact body_fillPlaceholder _ _ _
  have hfold : ∀ (target : ConditionTarget) (cs : List Condition) (state : Draft × String),
      (cs.foldl (addGroupCondition p target) state).1.query.body = state.1.query.body :=
    fun target => foldl_kept (fun state : Draft × _ => state.1.query.body) (hone target)
  unfold addGroup
  simp only
  split
  · rfl
  · split
    · next d' _ hasked => rw [query_notify, query_of_resolve hasked]
    · next d' a hasked =>
        split
        · rw [hfold, query_of_resolve hasked]
        · rw [hfold, query_of_resolve hasked]

theorem body_addFilterOrder (d : Draft) (order : FilterOrder) :
    (addFilterOrder d order).query.body = d.query.body := by
  unfold addFilterOrder
  split
  · rfl
  · simp only
    split
    · next d' _ hasked => rw [query_notify, query_of_resolve hasked]
    · next d' a hasked =>
        rw [query_of_resolve hasked]
        rfl

theorem body_addItem (state : Draft × CollectedIds) (item : String) :
    (addItem state item).1.query.body = state.1.query.body := by
  rcases state with ⟨d, ids⟩
  unfold addItem
  simp only
  split
  · rfl
  · split
    · rfl
    · split
      · next d' a hasked => rw [query_of_resolve hasked]
      · next d' _ hasked => rw [query_notify, query_of_resolve hasked]

theorem attaches_foldl_attach {α : Type} (f : α → Attachment) (xs : List α) (d : Draft) :
    Attaches d (xs.foldl (fun d x => d.attach (f x).aliasName (f x).condition) d) (xs.map f) := by
  rw [List.map_eq_flatMap]
  exact attaches_foldl (g := fun _ x => [f x]) (fun d x => attaches_attach rfl _ _) xs d

theorem attaches_addFilter (p : Platform) (filter : Filter) (d : Draft) :
    Attaches d (d.addFilter p filter) (filterConditions p filter d) := by
  have hgroups := foldl_kept (fun state : Draft × _ => state.1.query.body) (body_addGroup p)
    filter.groups.zipIdx (d, ∅)
  have horders := foldl_kept (fun d : Draft => d.query.body) body_addFilterOrder
  unfold addFilter filterConditions
  cases hstate : filter.groups.zipIdx.foldl (addGroup p) (d, ∅) with
  | mk d₁ collected =>
      rw [hstate] at hgroups
      have hcollected := (Attaches.refl_of hgroups).trans (attaches_foldl_attach
        (fun e : String × List String =>
          ⟨e.1, Text.join (" " ++ filter.operator.word ++ " ") e.2⟩) collected.entries d₁)
      generalize hd₂ : collected.entries.foldl (fun d e =>
        d.attach e.1 (Text.join (" " ++ filter.operator.word ++ " ") e.2)) d₁ = d₂
      simp only [hd₂, List.nil_append] at hcollected ⊢
      -- The fragment of SQL is a condition on the main table, whatever its alias is.
      have hraw : Attaches d₂ { d₂ with query := d₂.query.addCondition filter.rawSql }
          [⟨d.query.mainAlias, filter.rawSql⟩] := by
        have hmain : d₂.query.isMainAlias d.query.mainAlias = true := by
          rw [Query.isMainAlias, hcollected.mainAlias, beq_self_eq_true]
        have hattach := attaches_attach (d := d₂) rfl d.query.mainAlias filter.rawSql
        rw [attach, if_pos hmain] at hattach
        exact hattach
      have hall := (hcollected.trans hraw).trans (.refl_of (horders filter.orders _))
      rw [List.append_nil] at hall
      exact hall

theorem attaches_addIdList (text : String) (d : Draft) :
    Attaches d (d.addIdList text) (idListConditions text d) := by
  have hitems := foldl_kept (fun state : Draft × _ => state.1.query.body) body_addItem
    (Text.items ',' text) (d, ∅)
  unfold addIdList idListConditions
  cases hstate : (Text.items ',' text).foldl addItem (d, ∅) with
  | mk d₁ ids =>
      rw [hstate] at hitems
      exact (Attaches.refl_of hitems).trans (attaches_foldl_attach
        (fun e : String × List Nat =>
          ⟨e.1, e.1 ++ ".uid IN (" ++ Text.join "," (e.2.map Text.decimal) ++ ")"⟩)
        ids.entries d₁)

/-! ## Runs -/

/-- What may be asked of a draft between reading and building. -/
inductive Operation where
  | mechanisms
  | filter (filter : Filter)
  | idList (text : String)

def perform (p : Platform) (d : Draft) : Operation → Draft
  | .mechanisms => d.addMechanisms p
  | .filter filter => d.addFilter p filter
  | .idList text => d.addIdList text

/-- The conditions that an operation attaches. -/
def operationConditions (p : Platform) (d : Draft) : Operation → List Attachment
  | .mechanisms => mechanismConditions p d
  | .filter filter => filterConditions p filter d
  | .idList text => idListConditions text d

def run (p : Platform) (operations : List Operation) (d : Draft) : Draft :=
  operations.foldl (perform p) d

/-- The conditions that a run attaches, each operation at the draft that it finds. -/
def runConditions (p : Platform) : List Operation → Draft → List Attachment
  | [], _ => []
  | operation :: operations, d =>
      operationConditions p d operation ++ runConditions p operations (perform p d operation)

theorem attaches_perform (p : Platform) (d : Draft) (operation : Operation) :
    Attaches d (perform p d operation) (operationConditions p d operation) := by
  cases operation with
  | mechanisms => exact attaches_addMechanisms p d
  | filter filter => exact attaches_addFilter p filter d
  | idList text => exact attaches_addIdList text d

/-- A run attaches the conditions of its operations one after the other. -/
theorem attaches_run (p : Platform) (operations : List Operation) (d : Draft) :
    Attaches d (run p operations d) (runConditions p operations d) := by
  induction operations generalizing d with
  | nil => exact .refl_of rfl
  | cons operation operations ih => exact (attaches_perform p d operation).trans (ih _)

/-! ## The clauses afterwards -/

theorem Attaches.conditions {d d' : Draft} {ts : List Attachment} (h : Attaches d d' ts) :
    d'.query.conditions = d.query.conditions ++ Attachment.on ts d.query.mainAlias := by
  rw [← Query.conditions_attachAll, ← Query.conditions_body, h, Query.conditions_body]

theorem Attaches.joins {d d' : Draft} {ts : List Attachment} (h : Attaches d d' ts)
    (hd : d.query.subtableAliases = d.query.joins.keys) :
    d'.query.joins.entries =
      d.query.joins.entries.map fun e => (e.1, e.2.restrict (d.query.joinConditions ts e.1)) := by
  rw [← Query.joins_attachAll hd, ← Query.joins_body, h, Query.joins_body]

theorem Attaches.subtableAliases {d d' : Draft} {ts : List Attachment} (h : Attaches d d' ts)
    (hd : d.query.subtableAliases = d.query.joins.keys) :
    d'.query.subtableAliases = d'.query.joins.keys := by
  have haliases : d'.query.subtableAliases = d.query.subtableAliases :=
    h.kept Query.subtableAliases (fun _ => rfl) fun _ _ _ => rfl
  have hkeys : d'.query.joins.keys = d.query.joins.keys := by
    rw [OrderedMap.keys, h.joins hd]
    simp [OrderedMap.keys]
  rw [haliases, hkeys, hd]

theorem Attaches.join {d d' : Draft} {ts : List Attachment} (h : Attaches d d' ts)
    (hd : d.query.subtableAliases = d.query.joins.keys) {a : String} {join : Join}
    (ha : d.query.joins.get? a = some join) :
    d'.query.joins.get? a = some (join.restrict (d.query.joinConditions ts a)) := by
  rw [OrderedMap.get?_eq_some_iff, h.joins hd]
  exact List.mem_map.2 ⟨(a, join), OrderedMap.get?_eq_some_iff.1 ha, rfl⟩

end Draft
end ContentQuery
