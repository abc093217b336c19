import ContentQuery.Proofs.Draft.Reading

/-!
# Which tables get a workspace condition

The workspace rules go through the tables with selected fields, not through the tables of the FROM
clause.  So a versioned table gets its condition exactly if the SELECT list has an entry for it; the
condition then stands once, in the clause of its alias.
-/

namespace ContentQuery

/-! ## The rule of one table -/

/-- The condition on the version of the records behind an alias: live records, unless a workspace is
previewed. -/
def Catalog.workspaceRule (catalog : Catalog) (context : RequestContext) (settings : Settings)
    (table a : String) : Except PolicyError String :=
  if context.preview then
    catalog.versionCondition table a (settings.directVersions.contains a) context
  else .ok (Draft.liveCondition a)

namespace Draft

variable {catalog : Catalog} {context : RequestContext} {settings : Settings}

theorem toList_trimmed {a : String} (ha : Text.trim a = a) : Chars.trim a.toList = a.toList := by
  have h := congrArg String.toList ha
  rwa [Text.trim, String.toList_ofList] at h

/-- A text behind a trimmed alias is trimmed if it ends in a parenthesis or a quote. -/
theorem trim_rule {rule : String} {c d : Char} (hc : Chars.isBlank c = false)
    (hhead : rule.toList.head? = some d) (hd : Chars.isBlank d = false)
    (hlast : rule.toList.getLast? = some c) : Text.trim rule = rule ∧ rule ≠ "" := by
  have htrim : Chars.trim rule.toList = rule.toList := by
    refine Chars.trim_eq_self ?_ ?_
    · intro b hb
      rw [hhead, Option.mem_some_iff] at hb
      rwa [← hb]
    · intro b hb
      rw [hlast, Option.mem_some_iff] at hb
      rwa [← hb]
  refine ⟨by rw [Text.trim, htrim, String.ofList_toList], ?_⟩
  rintro rfl
  simp at hhead

/-- A text that starts with a trimmed alias and a dot starts with no blank. -/
theorem exists_head_qualified {a : String} (ha : Text.trim a = a) (rest : List Char) :
    ∃ d, (a.toList ++ '.' :: rest).head? = some d ∧ Chars.isBlank d = false := by
  have htrim := toList_trimmed ha
  cases hlist : a.toList with
  | nil => exact ⟨'.', rfl, by decide⟩
  | cons d ds =>
      refine ⟨d, rfl, Chars.head_trim (s := a.toList) d ?_⟩
      rw [htrim, hlist]
      rfl

/-- The rule of a versioned table exists, is trimmed and says something. -/
theorem workspaceRule_ok (context : RequestContext) (settings : Settings) {table a : String}
    (ha : Text.trim a = a) (hversioned : catalog.isVersioned table = true) :
    ∃ rule, catalog.workspaceRule context settings table a = .ok rule ∧
      Text.trim rule = rule ∧ rule ≠ "" := by
  have hparen : (")".toList).getLast? = some ')' := by decide
  have hquote : (".t3ver_oid = '0'".toList).getLast? = some '\'' := by decide
  unfold Catalog.workspaceRule
  -- Each of the three texts is told by its first and its last character.
  cases hpreview : context.preview with
  | false =>
      rcases exists_head_qualified ha "t3ver_oid = '0'".toList with ⟨d, hhead, hd⟩
      refine ⟨liveCondition a, rfl, trim_rule (c := '\'') (by decide) ?_ hd ?_⟩
      · rw [liveCondition, String.toList_append]
        exact hhead
      · rw [liveCondition, String.toList_append, List.getLast?_append, hquote, Option.some_or]
  | true =>
      unfold Catalog.versionCondition
      cases hdirect : settings.directVersions.contains a with
      | true =>
          obtain ⟨d, hhead, hd⟩ := exists_head_qualified ha
            ("t3ver_wsid IN (0,".toList ++ (Text.decimal context.workspace).toList ++ ")".toList)
          refine ⟨_, by simp [hversioned]; rfl, trim_rule (c := ')') (by decide) ?_ hd ?_⟩
          · simpa using hhead
          · simp only [String.toList_append, List.getLast?_append, hparen, Option.some_or]
      | false =>
          refine ⟨_, by simp [hversioned]; rfl,
            trim_rule (c := ')') (d := '(') (by decide) ?_ (by decide) ?_⟩
          · simp [Text.join]
          · simp only [Text.join, String.toList_append, List.getLast?_append, hparen, Option.some_or]

/-! ## The conditions of all tables -/

variable {tableOf : String → String}

theorem versioningOf_unversioned {entry : String × List String}
    (h : catalog.isVersioned (tableOf entry.1) = false) :
    versioningOf (catalog.platform context settings) tableOf entry = [] := by
  have hpolicy : (catalog.platform context settings).policy.isVersioned (tableOf entry.1) = false :=
    h
  simp [versioningOf, hpolicy]

/-- The workspace stage attaches the rule of a versioned table, and nothing else. -/
theorem versioningOf_versioned {entry : String × List String} {rule : String}
    (h : catalog.isVersioned (tableOf entry.1) = true)
    (hrule : catalog.workspaceRule context settings (tableOf entry.1) entry.1 = .ok rule) :
    versioningOf (catalog.platform context settings) tableOf entry = [⟨entry.1, rule⟩] := by
  have hpolicy : (catalog.platform context settings).policy.isVersioned (tableOf entry.1) = true :=
    h
  unfold Catalog.workspaceRule at hrule
  unfold versioningOf
  simp only [hpolicy]
  cases hpreview : context.preview with
  | false =>
      simp only [hpreview, Bool.false_eq_true, if_false] at hrule
      cases hrule
      simp [Catalog.platform, hpreview]
  | true =>
      -- The columns are complete for a versioned table, so the preview rules do not fail.
      simp only [hpreview, if_true] at hrule
      have hcolumns : catalog.versionColumns (tableOf entry.1) entry.2 =
          .ok (Catalog.complete entry.2 ["uid", "pid", "t3ver_state"]) := by
        simp [Catalog.versionColumns, h]
      have hrules : previewRules (catalog.platform context settings) (tableOf entry.1) entry.1
          entry.2 = .ok (Catalog.complete entry.2 ["uid", "pid", "t3ver_state"], rule) := by
        simp only [previewRules, Catalog.platform, Catalog.toPolicy, hcolumns, hrule]
        rfl
      rw [hrules]
      simp [Catalog.platform, hpreview]

/-- The conditions `rules` of an alias are the rule of its table, once, if the table is versioned and
has selected fields; else there are none. -/
def OwesRule (catalog : Catalog) (context : RequestContext) (settings : Settings)
    (table a : String) (selected : Prop) (rules : List String) : Prop :=
  (catalog.isVersioned table = true ∧ selected →
      ∃ rule, catalog.workspaceRule context settings table a = .ok rule ∧ rules = [rule]) ∧
    (¬ (catalog.isVersioned table = true ∧ selected) → rules = [])

/-- The stage attaches one condition for an alias with selected fields, and none otherwise. -/
theorem owesRule_versioningConditions (catalog : Catalog) (context : RequestContext)
    (settings : Settings) (d : Draft) (selected : OrderedMap String (List String)) {a : String}
    (ha : Text.trim a = a) :
    OwesRule catalog context settings (d.query.tableOf a) a (a ∈ selected.keys)
      (Attachment.on
        (versioningConditions (catalog.platform context settings) d selected) a) := by
  -- The stage asks for the conditions entry by entry; only that of the alias counts here.
  have hother : ∀ e ∈ selected.entries, e.1 ≠ a → Attachment.on
      (versioningOf (catalog.platform context settings) d.query.tableOf e) a = [] := by
    intro e _ he
    refine Attachment.on_eq_nil fun t ht => ?_
    rw [aliasName_of_mem_versioningOf ht]
    exact he
  rw [versioningConditions, Attachment.on_flatMap, OrderedMap.flatMap_entries hother]
  constructor
  · rintro ⟨hversioned, hkey⟩
    rcases OrderedMap.exists_of_mem_keys hkey with ⟨columns, hcolumns⟩
    rcases workspaceRule_ok context settings ha hversioned with ⟨rule, hrule, htrim, hne⟩
    refine ⟨rule, hrule, ?_⟩
    rw [OrderedMap.get?_eq_some_iff.2 hcolumns, Option.map_some, Option.getD_some,
      versioningOf_versioned hversioned hrule, Attachment.on_singleton htrim hne]
  · intro hnone
    cases hget : selected.get? a with
    | none => rfl
    | some columns =>
        have hkey := OrderedMap.mem_keys_of_mem (OrderedMap.get?_eq_some_iff.1 hget)
        have hunversioned : catalog.isVersioned (d.query.tableOf a) = false := by
          cases h : catalog.isVersioned (d.query.tableOf a) with
          | false => rfl
          | true => exact absurd ⟨h, hkey⟩ hnone
        rw [Option.map_some, Option.getD_some, versioningOf_unversioned hunversioned]
        rfl

/-- After reading, the workspace stage adds the rule of a versioned table once to the clause of its
alias if the SELECT list has an entry for the alias, and adds nothing otherwise.  A join under the
alias of the main table gets nothing in its ON clause. -/
theorem workspaceRule_iff_selected {text warning : String} {d₀ d : Draft} {a : String}
    (hparse : d₀.parse (catalog.platform context settings) text = (d, .ok warning))
    (ha : a = d.query.mainAlias ∨ a ∈ d.query.joins.keys) :
    let p := catalog.platform context settings
    let before := ((d.addVisibility p).addLanguage p d.selectedColumns).query
    let after := (d.addMechanisms p).query
    ∃ rules : List String,
      OwesRule catalog context settings (d.query.tableOf a) a
          (∃ f ∈ d.query.select, f.tableAlias = a) rules ∧
        (a = d.query.mainAlias → after.conditions = before.conditions ++ rules) ∧
        ∀ join, before.joins.get? a = some join →
          after.joins.get? a =
            some (if a = d.query.mainAlias then join else join.restrict rules) := by
  intro p before after
  have hkept := wellKept_of_parse hparse
  rcases of_parse hparse with ⟨q, _, hbody, htables⟩
  -- The stages before touch neither the aliases nor the selected fields.
  let d₁ := (d.addVisibility p).addLanguage p d.selectedColumns
  have hbefore := (attaches_addVisibility p d).trans
    (attaches_addLanguage p (d.addVisibility p) d.selectedColumns)
  have haliases : d₁.query.subtableAliases = d₁.query.joins.keys :=
    hbefore.subtableAliases hkept.aliases
  have htableOf : d₁.query.tableOf = d.query.tableOf := hbefore.tableOf
  have hmain : d₁.query.mainAlias = d.query.mainAlias := hbefore.mainAlias
  have hversions : Attaches d₁ (d.addMechanisms p)
      (versioningConditions p d₁ d.selectedColumns) := by
    have h := attaches_addVersioning p d₁ d.selectedColumns
    unfold addMechanisms
    simp only [selectedColumns_addVisibility]
    exact h
  have hselected : a ∈ d.selectedColumns.keys ↔ ∃ f ∈ d.query.select, f.tableAlias = a := by
    rw [selectedColumns, OrderedMap.keys_mapValues]
    exact htables a
  have howes := owesRule_versioningConditions catalog context settings d₁ d.selectedColumns
    (hkept.trimmed (hkept.covered.2 ha))
  rw [htableOf, hselected] at howes
  refine ⟨_, howes, ?_, ?_⟩
  · intro hself
    rw [hself, ← hmain]
    exact hversions.conditions
  · intro join hjoin
    rw [hversions.join haliases hjoin, Query.joinConditions, Query.isMainAlias, hmain]
    by_cases hself : a = d.query.mainAlias
    · simp [hself]
    · have hne : d.query.mainAlias ≠ a := fun h => hself h.symm
      simp [hself, hne, p]

/-- The rule of a table whose fields are selected. -/
theorem workspaceRule_newsDraft :
    let p := Catalog.site.platform (.atTime 0) {}
    let before := ((newsDraft.addVisibility p).addLanguage p newsDraft.selectedColumns).query
    let after := (newsDraft.addMechanisms p).query
    ∃ rules : List String,
      OwesRule Catalog.site (.atTime 0) {} (newsDraft.query.tableOf "n") "n"
          (∃ f ∈ newsDraft.query.select, f.tableAlias = "n") rules ∧
        ("n" = newsDraft.query.mainAlias → after.conditions = before.conditions ++ rules) ∧
        ∀ join, before.joins.get? "n" = some join →
          after.joins.get? "n" =
            some (if "n" = newsDraft.query.mainAlias then join else join.restrict rules) := by
  have hjoin : "n" ∈ newsDraft.query.joins.keys := by decide +kernel
  exact workspaceRule_iff_selected parse_newsDraft (.inr hjoin)

/-- The listing without the field of the news. -/
def titlesDraft : Draft × Except QueryError String :=
  ({} : Draft).parse (Catalog.site.platform (.atTime 0) {})
    "SELECT title FROM pages INNER JOIN news AS n ON n.pid = pages.uid"

/-- A versioned table without selected fields stays open to every version: its ON clause has the
visibility condition, but no condition for live records. -/
theorem titlesDraft_lacks_workspaceRule :
    titlesDraft.2 = .ok "" ∧ Catalog.site.isVersioned "news" = true ∧
      Catalog.site.workspaceRule (.atTime 0) {} "news" "n" = .ok "n.t3ver_oid = '0'" ∧
      ((titlesDraft.1.addMechanisms (Catalog.site.platform (.atTime 0) {})).query.joins.get? "n").map
          (·.on) =
        some "n.pid = pages.uid AND (n.t3ver_state<=0 AND n.pid<>-1 AND n.hidden=0)" := by
  decide +kernel

end Draft
end ContentQuery
