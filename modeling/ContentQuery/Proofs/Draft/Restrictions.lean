import ContentQuery.Proofs.Draft.Reachable
import ContentQuery.Proofs.Draft.Visibility
import ContentQuery.Proofs.Platform.Closed
import ContentQuery.Proofs.Query.Accepted

/-!
# Closed restrictions

In a draft whose tables have ordinary names, all that is attached is closed: the conditions of a
catalog, those of a filter whatever its values are, and those of an id list whatever it holds.

The names that a filter or an id list may bring in are looked up in the draft, so what a draft knows
of its tables has to be ordinary as well, and stays so along a run.
-/

namespace ContentQuery

open Scan (Closed Ordinary)
open Text (NameLike)

/-! ## Conditions put together -/

theorem Join.closed_conjoin {on c : String} (hon : Scan.Closed on.toList)
    (hc : Scan.Closed c.toList) : Scan.Closed (conjoin on c).toList := by
  unfold conjoin
  split
  · rw [String.append_assoc, String.empty_append, ← String.append_assoc]
    exact (Text.neutral_parenthesized hc).closed
  · have htext : on ++ " AND " ++ "(" ++ c ++ ")" = on ++ (" AND " ++ ("(" ++ c ++ ")")) := by
      simp only [String.append_assoc]
    rw [htext]
    exact Text.closed_append hon
      (Text.neutral_append (Scan.neutral_ordinary (by decide)) (Text.neutral_parenthesized hc))

theorem Join.closed_conjoinAll {on : String} {cs : List String} (hon : Scan.Closed on.toList)
    (hcs : ∀ c ∈ cs, Scan.Closed c.toList) : Scan.Closed (conjoinAll on cs).toList := by
  induction cs generalizing on with
  | nil => exact hon
  | cons c cs ih =>
      exact ih (closed_conjoin hon (hcs c (by simp))) fun d hd => hcs d (by simp [hd])

theorem Attachment.closed_on {ts : List Attachment} {a : String}
    (hts : ∀ t ∈ ts, t.aliasName = a → Closed t.condition.toList) :
    ∀ c ∈ on ts a, Closed c.toList := by
  intro c hc
  rcases List.mem_filterMap.1 hc with ⟨t, ht, hkept⟩
  split at hkept
  · next hboth =>
      cases hkept
      rw [Text.trim, String.toList_ofList, Scan.closed_trim_iff]
      exact hts t ht hboth.1
  · cases hkept

/-- A filter that brings in nothing but values: its SQL is closed, and its fields are made of name
characters. -/
structure Filter.Plain (filter : Filter) : Prop where
  rawSql : Closed filter.rawSql.toList
  fields : ∀ group ∈ filter.groups, NameLike group.field

namespace Draft

/-! ## Names that a draft knows -/

/-- Tables and aliases of the draft are made of name characters, and so are the answers it
remembers; the expressions with an alias are closed. -/
structure Named (d : Draft) : Prop where
  refs : ∀ ref ∈ d.tableRefs, NameLike ref.table ∧ NameLike ref.aliasName
  tables : ∀ e ∈ d.query.tableOfAlias.entries, NameLike e.1 ∧ NameLike e.2
  expressions : ∀ e ∈ d.query.aliasExpressions.entries, Closed e.2.toList
  resolved : ∀ e ∈ d.resolved.entries, NameLike e.2

theorem main_mem_tableRefs (d : Draft) :
    ⟨d.query.mainTable, d.query.mainAlias⟩ ∈ d.tableRefs := by
  simp [tableRefs]

theorem join_mem_tableRefs {d : Draft} {a : String} {join : Join}
    (h : (a, join) ∈ d.query.joins.entries) : ⟨join.table, join.aliasName⟩ ∈ d.tableRefs := by
  rw [tableRefs, List.mem_cons, List.mem_map]
  exact .inr ⟨join, List.mem_map.2 ⟨(a, join), h, rfl⟩, rfl⟩

theorem Named.mainAlias {d : Draft} (hd : d.Named) : NameLike d.query.mainAlias :=
  (hd.refs _ d.main_mem_tableRefs).2

theorem Named.tableOf {d : Draft} (hd : d.Named) {a : String} (ha : NameLike a) :
    NameLike (d.query.tableOf a) := by
  unfold Query.tableOf Query.table?
  cases htable : d.query.tableOfAlias.get? a with
  | none => exact ha
  | some table => exact (hd.tables (a, table) (OrderedMap.get?_eq_some_iff.1 htable)).2

/-- A draft that grows keeps its names, and finds no others. -/
theorem Grows.named {d d' : Draft} (h : d.Grows d') (hd : d.Named) : d'.Named := by
  have hmain := h.query.kept (fun q => (⟨q.mainTable, q.mainAlias⟩ : TableRef)) fun _ => rfl
  have hexpressions := h.query.kept Query.aliasExpressions fun _ => rfl
  refine ⟨?_, ?_, ?_, ?_⟩
  · intro ref href
    rw [tableRefs, List.mem_cons] at href
    rcases href with rfl | href
    · rw [hmain]
      exact hd.refs _ d.main_mem_tableRefs
    · -- The join was there before, with the same table under the same alias.
      rcases List.mem_map.1 href with ⟨_, hvalue, rfl⟩
      rcases List.mem_map.1 hvalue with ⟨e, he, rfl⟩
      rcases h.query.exists_join (OrderedMap.get?_eq_some_iff.2 he) with ⟨join, hjoin, hgrows⟩
      rw [hgrows.table, hgrows.aliasName]
      exact hd.refs _ (join_mem_tableRefs (OrderedMap.get?_eq_some_iff.1 hjoin))
  · rw [h.tableOfAlias]
    exact hd.tables
  · rw [hexpressions]
    exact hd.expressions
  · rcases h.resolved with ⟨found, hfound, haliases⟩
    intro e he
    rw [hfound, List.mem_append] at he
    rcases he with he | he
    · exact hd.resolved e he
    · rcases OrderedMap.exists_of_mem_keys (haliases e he) with ⟨table, htable⟩
      exact (hd.tables _ htable).1

theorem Named.resolve {d d' : Draft} (hd : d.Named) {name component a : String}
    (h : d.resolve name component = (d', .ok a)) : d'.Named ∧ NameLike a := by
  have hgrows := d.grows_resolve name component
  rw [h] at hgrows
  exact ⟨hgrows.named hd, (hgrows.named hd).resolved _ (resolved_of_resolve h)⟩

/-! ## Conditions of a catalog -/

section Catalog

variable {catalog : Catalog} {context : RequestContext} {settings : Settings} {t : Attachment}

theorem closed_of_mem_visibilityOf (hcatalog : catalog.Named) {ref : TableRef}
    (htable : NameLike ref.table) (halias : NameLike ref.aliasName)
    (ht : t ∈ visibilityOf (catalog.platform context settings) ref) :
    Closed t.condition.toList := by
  unfold visibilityOf at ht
  split at ht
  · next condition hcondition =>
      have hclosed : Closed condition.toList := Catalog.closed_visibility hcatalog htable hcondition
      rw [List.mem_singleton.1 ht]
      simp only
      split
      · exact hclosed
      · exact Rename.closed_tableToAlias hclosed htable halias
  · simp at ht

/-- The rules of the platform attach closed conditions to every alias that is a name. -/
theorem closed_of_mem_mechanismConditions {d : Draft} (hcatalog : catalog.Named) (hd : d.Named)
    (ht : t ∈ mechanismConditions (catalog.platform context settings) d)
    (ha : NameLike t.aliasName) : Closed t.condition.toList := by
  unfold mechanismConditions at ht
  rw [List.append_assoc, List.mem_append] at ht
  rcases ht with ht | ht
  · have href : ∃ ref ∈ d.tableRefs, t ∈ visibilityOf (catalog.platform context settings) ref := by
      unfold visibilityConditions at ht
      split at ht
      · simp at ht
      · exact List.mem_flatMap.1 ht
      · exact List.mem_flatMap.1 ht
    rcases href with ⟨ref, href, ht⟩
    exact closed_of_mem_visibilityOf hcatalog (hd.refs ref href).1 (hd.refs ref href).2 ht
  · exact (shaped_of_mem_later ht).closed hcatalog ha

end Catalog

/-! ## Conditions of a filter -/

section Filter

variable {catalog : Catalog} {context : RequestContext} {settings : Settings} {d : Draft}

theorem closed_groupField (hd : d.Named) {a field : String} (ha : NameLike a)
    (hfield : NameLike field) : Closed (groupField d.query a field).toList := by
  unfold groupField
  cases hexpression : d.query.aliasExpressions.get? field with
  | some expression => exact hd.expressions _ (OrderedMap.get?_eq_some_iff.1 hexpression)
  | none =>
      have h := Text.closed_column ha hfield (w := "") Scan.neutral_nil
      simpa using h

/-- One condition after the other, the text of a group stays closed. -/
theorem closed_addGroupConditions {target : ConditionTarget} (hfield : Closed target.field.toList)
    (hcolumns : ∀ e ∈ (catalog.toSchema.fulltextIndexes target.table).entries, Ordinary e.2.toList)
    (halias : Ordinary target.aliasName.toList) (conditions : List Condition)
    {state : Draft × String} (hstate : Closed state.2.toList) :
    Closed (conditions.foldl (addGroupCondition (catalog.platform context settings) target)
      state).2.toList := by
  induction conditions generalizing state with
  | nil => exact hstate
  | cons c conditions ih =>
      refine ih ?_
      rcases state with ⟨d, text⟩
      unfold addGroupCondition
      simp only
      split
      · exact hstate
      · split
        · exact hstate
        · next fragment hfragment =>
            split
            · exact hstate
            · have hclosed := Condition.closed_compile hfield hcolumns halias hfragment
              exact Join.closed_conjoin hstate hclosed

/-- All conditions collected so far are closed. -/
def CollectedClosed (collected : Collected) : Prop :=
  ∀ e ∈ collected.entries, ∀ text ∈ e.2, Closed text.toList

theorem CollectedClosed.add {collected : Collected} (h : CollectedClosed collected) (a : String)
    {text : String} (htext : Closed text.toList) :
    CollectedClosed (collected.upsert a fun texts => texts.getD [] ++ [text]) := by
  intro e he t ht
  rcases OrderedMap.mem_entries_upsert he with he | rfl
  · exact h e he t ht
  · rcases List.mem_append.1 ht with ht | ht
    · cases hold : collected.get? a with
      | none => simp [hold] at ht
      | some texts =>
          rw [hold] at ht
          exact h (a, texts) (OrderedMap.get?_eq_some_iff.1 hold) t ht
    · rw [List.mem_singleton.1 ht]
      exact htext

theorem closed_addGroup (hcatalog : catalog.Named) {collected : Collected} (hd : d.Named)
    (hcollected : CollectedClosed collected) {item : FilterGroup × Nat}
    (hfield : NameLike item.1.field) :
    CollectedClosed (addGroup (catalog.platform context settings) (d, collected) item).2 := by
  rcases item with ⟨group, index⟩
  unfold addGroup
  simp only
  split
  · exact hcollected
  · split
    · exact hcollected
    · next d' a hresolve =>
        rcases hd.resolve hresolve with ⟨hd', ha⟩
        split
        · exact hcollected
        · -- The conditions of the group, in parentheses, come under one alias.
          refine hcollected.add _ (Text.neutral_parenthesized ?_).closed
          apply closed_addGroupConditions
          · exact closed_groupField hd' ha hfield
          · exact Catalog.ordinary_fulltextIndexes hcatalog (hd'.tableOf ha)
          · exact ha.ordinary
          · exact Scan.closed_nil

theorem closed_of_mem_filterConditions (hcatalog : catalog.Named) (hd : d.Named) {filter : Filter}
    (hfilter : filter.Plain) {t : Attachment}
    (ht : t ∈ filterConditions (catalog.platform context settings) filter d) :
    Closed t.condition.toList := by
  have hcollected : CollectedClosed (filter.groups.zipIdx.foldl
      (addGroup (catalog.platform context settings)) (d, ∅)).2 := by
    have hempty : CollectedClosed ∅ := fun e he => by cases he
    -- The draft keeps its names along the groups, so all that is collected is closed.
    refine (List.foldlRecOn (motive := fun state : Draft × Collected => state.1.Named ∧
      CollectedClosed state.2) _ _ ⟨hd, hempty⟩ fun state hstate item hitem => ⟨?_, ?_⟩).2
    · exact (filterSteps_addGroup _ state item).steps.grows.named hstate.1
    · exact closed_addGroup hcatalog hstate.1 hstate.2
        (hfilter.fields _ (List.fst_mem_of_mem_zipIdx hitem))
  unfold filterConditions at ht
  rcases List.mem_append.1 ht with ht | ht
  · rcases List.mem_map.1 ht with ⟨e, he, rfl⟩
    have hjoiner : Ordinary (" " ++ filter.operator.word ++ " ").toList ∧
        " " ++ filter.operator.word ++ " " ≠ "" := by
      cases filter.operator <;> decide
    exact Text.closed_join hjoiner.1 hjoiner.2 (hcollected e he)
  · rw [List.mem_singleton.1 ht]
    exact hfilter.rawSql

end Filter

/-! ## Conditions of an id list -/

theorem named_addItem {d : Draft} {ids : CollectedIds} (hd : d.Named)
    (hids : ∀ e ∈ ids.entries, NameLike e.1) (item : String) :
    ∀ e ∈ (addItem (d, ids) item).2.entries, NameLike e.1 := by
  -- A uid is collected under the main alias or under the alias that its table resolves to.
  have hcollect : ∀ (a : String) (f : Option (List Nat) → List Nat), NameLike a →
      ∀ e ∈ (ids.upsert a f).entries, NameLike e.1 := by
    intro a f ha e he
    rcases OrderedMap.mem_entries_upsert he with he | rfl
    · exact hids e he
    · exact ha
  unfold addItem
  simp only
  split
  · exact hids
  · split
    · exact hcollect _ _ hd.mainAlias
    · split
      · next hresolve => exact hcollect _ _ (hd.resolve hresolve).2
      · exact hids

theorem closed_of_mem_idListConditions {d : Draft} (hd : d.Named) {text : String} {t : Attachment}
    (ht : t ∈ idListConditions text d) : Closed t.condition.toList := by
  have hids := (List.foldlRecOn (motive := fun state : Draft × CollectedIds => state.1.Named ∧
    ∀ e ∈ state.2.entries, NameLike e.1) (Text.items ',' text) addItem (b := (d, ∅))
      ⟨hd, fun e he => by cases he⟩ fun state hstate item _ =>
        ⟨(filterSteps_addItem state item).steps.grows.named hstate.1,
          named_addItem hstate.1 hstate.2 item⟩).2
  unfold idListConditions at ht
  rcases List.mem_map.1 ht with ⟨e, he, rfl⟩
  have ha : NameLike e.1 := hids e he
  -- A collected list consists of digits and commas, whatever the item was written like.
  have hnumbers : Ordinary (Text.join "," (e.2.map Text.decimal)).toList := by
    refine Text.ordinary_join (by decide) fun number hnumber => ?_
    rcases List.mem_map.1 hnumber with ⟨n, _, rfl⟩
    exact Text.ordinary_decimal n
  have htext : e.1 ++ ".uid IN (" ++ Text.join "," (e.2.map Text.decimal) ++ ")" =
      e.1 ++ "." ++ "uid" ++ (" IN " ++ ("(" ++ Text.join "," (e.2.map Text.decimal) ++ ")")) := by
    rw [← String.toList_inj]
    simp
  rw [htext]
  exact Text.closed_column ha (by decide) (Text.neutral_append (Scan.neutral_ordinary (by decide))
    (Text.neutral_parenthesized (Scan.closed_ordinary hnumbers)))

/-! ## Runs -/

/-- Filters are plain; the other operations bring in values only. -/
def Operation.Plain : Operation → Prop
  | .mechanisms => True
  | .filter f => f.Plain
  | .idList _ => True

variable {catalog : Catalog} {context : RequestContext} {settings : Settings}

theorem closed_of_mem_operationConditions (hcatalog : catalog.Named) {d : Draft} (hd : d.Named)
    {operation : Operation} (hplain : operation.Plain) :
    ∀ t ∈ operationConditions (catalog.platform context settings) d operation,
      NameLike t.aliasName → Closed t.condition.toList := by
  intro t ht ha
  cases operation with
  | mechanisms => exact closed_of_mem_mechanismConditions hcatalog hd ht ha
  | filter filter => exact closed_of_mem_filterConditions hcatalog hd hplain ht
  | idList text => exact closed_of_mem_idListConditions hd ht

/-- Along a run the draft keeps its names, so every operation attaches closed conditions. -/
theorem closed_of_mem_runConditions (hcatalog : catalog.Named) {operations : List Operation}
    (hplain : ∀ operation ∈ operations, operation.Plain) {d : Draft} (hd : d.Named) :
    ∀ t ∈ runConditions (catalog.platform context settings) operations d,
      NameLike t.aliasName → Closed t.condition.toList := by
  induction operations generalizing d with
  | nil => simp [runConditions]
  | cons operation operations ih =>
      intro t ht
      rw [runConditions, List.mem_append] at ht
      rcases ht with ht | ht
      · exact closed_of_mem_operationConditions hcatalog hd (hplain operation (by simp)) t ht
      · exact ih (fun o ho => hplain o (by simp [ho]))
          ((steps_perform _ d operation).grows.named hd) t ht

/-! ## Reading -/

/-- A draft that was read knows the names of its tables only. -/
theorem named_of_parse {p : Platform} {text warning : String} {d d' : Draft}
    (h : d.parse p text = (d', .ok warning))
    (hrefs : ∀ ref ∈ d'.tableRefs, NameLike ref.table ∧ NameLike ref.aliasName) : d'.Named := by
  have hkept := wellKept_of_parse h
  have hmain := hrefs _ d'.main_mem_tableRefs
  -- Every alias on record is that of the main table or of a join, both of which are references.
  have htables : ∀ e ∈ d'.query.tableOfAlias.entries, NameLike e.1 ∧ NameLike e.2 := by
    rintro ⟨a, table⟩ he
    have htable : d'.query.table? a = some table := OrderedMap.get?_eq_some_iff.2 he
    rcases hkept.covered.1 (OrderedMap.mem_keys_of_mem he) with rfl | ha
    · rw [Query.mainTable, htable] at hmain
      exact ⟨hmain.2, hmain.1⟩
    · rcases OrderedMap.exists_of_mem_keys ha with ⟨join, hentry⟩
      have hjoin := OrderedMap.get?_eq_some_iff.2 hentry
      have href := hrefs _ (join_mem_tableRefs hentry)
      rw [hkept.joined hjoin, Option.some.injEq] at htable
      rw [hkept.keyed hjoin, htable] at href
      exact ⟨href.2, href.1⟩
  refine ⟨hrefs, htables, ?_, ?_⟩
  · rcases of_parse h with ⟨q, hq, hbody, _⟩
    have hexpressions : d'.query.aliasExpressions = q.aliasExpressions := by
      show d'.query.body.aliasExpressions = _
      rw [hbody]
      rfl
    have hname : d'.query.mainAlias = q.mainAlias := by
      show d'.query.body.mainAlias = _
      rw [hbody]
      rfl
    rw [hexpressions]
    exact (Query.entriesClosed_of_parse hq).aliases
      (hname ▸ Scan.closed_ordinary hmain.2.ordinary)
  · intro e he
    rcases OrderedMap.exists_of_mem_keys ((Reachable.of_parse h).consistent.answers e he) with
      ⟨table, hentry⟩
    exact (htables _ hentry).1

end Draft
end ContentQuery
