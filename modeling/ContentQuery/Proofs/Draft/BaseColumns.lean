import ContentQuery.Proofs.Draft.ResultColumns
import ContentQuery.Proofs.Query.Expansion

/-!
# Base fields

Whoever reads the rows finds the base fields of a table under their usual result columns.  While the
list is read, the records of base fields go by result names; later the result columns are named by
another rule.  Both agree on the base fields, since no dot is part of their names: an entry that goes
by the name of a base field has its usual result column, and any other base field that the table has
is added under that.
-/

namespace ContentQuery

namespace ListEntry

/-- An entry that goes by a name without a dot has the usual result column of that name. -/
theorem column_of_resultName {mainAlias name : String} {f : SelectField}
    (hname : f.resultName = name) (hdot : Text.splitOnce? '.' name = none) :
    (written mainAlias f).column = usualColumn mainAlias (f.tableAlias, name) := by
  subst hname
  unfold written usualColumn Draft.resultColumn SelectField.resultName
  cases halias : f.aliasName with
  | none =>
      by_cases hmain : f.tableAlias = mainAlias
      · simp [hmain]
      · simp [hmain, Ne.symm hmain]
  | some aliasName =>
      -- An alias without a dot is read as a bare column, so nothing is split off it.
      have hplain : Text.splitOnce? '.' aliasName = none := by
        simpa [SelectField.resultName, halias] using hdot
      by_cases hmain : f.tableAlias = mainAlias
      · simp [hmain, hplain]
      · simp [hmain, Ne.symm hmain, hplain]

end ListEntry

namespace Query

variable {schema : Schema} {q : Query} {a field : String}

/-- A base field that the step for base fields adds: a field of the table that no entry goes by the
name of. -/
structure LacksBase (schema : Schema) (q : Query) (a field : String) : Prop where
  recorded : a ∈ q.baseFields.keys
  base : field = "uid" ∨ field = "pid"
  described : field ∈ schema.columns (q.tableOf a)
  unnamed : ¬ q.HasResultName a field

/-- Exactly the base fields that are lacking are added. -/
theorem mem_baseEntries_iff (hq : q.NamesNoted) {e : ListEntry} :
    e ∈ q.baseEntries schema ↔
      ∃ a field, LacksBase schema q a field ∧ e = .usual q.mainAlias (q.tableOf a) a field := by
  have hrecord : ∀ {base : String × BaseFields}, base ∈ q.baseFields.entries →
      q.baseFieldsOf base.1 = base.2 := by
    intro base hbase
    have hget : q.baseFields.get? base.1 = some base.2 := OrderedMap.get?_eq_some_iff.2 hbase
    simp [baseFieldsOf, hget]
  -- The record of an alias says which of the two names an entry goes by already.
  constructor
  · intro he
    rcases List.mem_flatMap.1 he with ⟨base, hbase, he⟩
    have hkey : base.1 ∈ q.baseFields.keys := List.mem_map_of_mem hbase
    rcases List.mem_append.1 he with he | he
    · rcases mem_baseEntry.1 he with ⟨hpresent, hcolumn, rfl⟩
      refine ⟨base.1, "uid", ⟨hkey, .inl rfl, hcolumn, ?_⟩, rfl⟩
      simp [← hq.uid, hrecord hbase, hpresent]
    · rcases mem_baseEntry.1 he with ⟨hpresent, hcolumn, rfl⟩
      refine ⟨base.1, "pid", ⟨hkey, .inr rfl, hcolumn, ?_⟩, rfl⟩
      simp [← hq.pid, hrecord hbase, hpresent]
  · rintro ⟨a, field, hlacks, rfl⟩
    rcases OrderedMap.exists_of_mem_keys hlacks.recorded with ⟨present, hbase⟩
    have hpresent := hrecord hbase
    refine List.mem_flatMap.2 ⟨(a, present), hbase, List.mem_append.2 ?_⟩
    rcases hlacks.base with rfl | rfl
    · have hunnamed := hlacks.unnamed
      rw [← hq.uid, hpresent, Bool.not_eq_true] at hunnamed
      exact .inl (mem_baseEntry.2 ⟨hunnamed, hlacks.described, rfl⟩)
    · have hunnamed := hlacks.unnamed
      rw [← hq.pid, hpresent, Bool.not_eq_true] at hunnamed
      exact .inr (mem_baseEntry.2 ⟨hunnamed, hlacks.described, rfl⟩)

/-- No base field is added twice. -/
theorem nodup_baseEntries (schema : Schema) (q : Query) :
    ((q.baseEntries schema).map (·.place)).Nodup := by
  have hentry : ∀ (a field : String) (present : Bool),
      ((q.baseEntry schema a field present).map (·.place)).Nodup := by
    intro a field present
    unfold baseEntry
    split <;> simp
  have hplace : ∀ {a field : String} {present : Bool} {place : String × String},
      place ∈ (q.baseEntry schema a field present).map (·.place) → place = (a, field) := by
    intro a field present place h
    rcases List.mem_map.1 h with ⟨e, he, rfl⟩
    rcases mem_baseEntry.1 he with ⟨_, _, rfl⟩
    rfl
  unfold baseEntries
  rw [List.map_flatMap, List.nodup_flatMap]
  constructor
  · -- The two base fields of one table differ.
    intro base _
    rw [List.map_append, List.nodup_append]
    refine ⟨hentry _ _ _, hentry _ _ _, fun place h place' h' => ?_⟩
    simp [hplace h, hplace h']
  · -- Different tables stand under different aliases.
    have hkeys := List.pairwise_map.1 q.baseFields.nodup
    refine hkeys.imp fun {base base'} hne => ?_
    intro place h h'
    have haliases : ∀ {base : String × BaseFields}, place ∈ (q.baseEntry schema base.1 "uid"
        base.2.uid ++ q.baseEntry schema base.1 "pid" base.2.pid).map (·.place) →
          place.1 = base.1 := by
      intro base h
      rw [List.map_append, List.mem_append] at h
      rcases h with h | h <;> rw [hplace h]
    exact hne ((haliases h).symm.trans (haliases h'))

/-- A base field of a table with a record is listed under its usual result column: it was written,
or it is added. -/
theorem usualColumn_listed (hq : q.NamesNoted) (hdistinct : q.distinct = false)
    (ha : a ∈ q.baseFields.keys) (hbase : field = "uid" ∨ field = "pid")
    (hcolumn : field ∈ schema.columns (q.tableOf a)) :
    ListEntry.usualColumn q.mainAlias (a, field) ∈ (q.listed schema).map (·.column) := by
  have hdot : Text.splitOnce? '.' field = none := by
    rcases hbase with rfl | rfl <;> decide +kernel
  simp only [listed, hdistinct, Bool.false_eq_true, if_false, List.map_append, List.mem_append]
  by_cases hnamed : q.HasResultName a field
  · rcases hnamed with ⟨f, hf, rfl, hname⟩
    refine .inl (List.mem_map.2 ⟨.written q.mainAlias f, List.mem_map_of_mem hf, ?_⟩)
    exact ListEntry.column_of_resultName hname hdot
  · refine .inr (List.mem_map.2 ⟨.usual q.mainAlias (q.tableOf a) a field, ?_, rfl⟩)
    exact (mem_baseEntries_iff hq).2 ⟨a, field, ⟨ha, hbase, hcolumn, hnamed⟩, rfl⟩

end Query

namespace Draft

/-- A query that is not DISTINCT is read into its entries, then come the base fields, then the
warning. -/
theorem parse_of_not_distinct {p : Platform} {text warning : String} {d₀ d : Draft}
    (h : d₀.parse p text = (d, .ok warning)) (hdistinct : d.query.distinct = false) :
    ∃ q, Query.parse p.schema (prepareText text) = .ok q ∧ q.distinct = false ∧
      d = (addBaseFields p (ofQuery q).analyze).warnDuplicates.1 := by
  rcases of_parse h with ⟨q, hq, hbody, _⟩
  have hsame : q.distinct = false := by
    have hquery : d.query.distinct = q.distinct := (congrArg Query.distinct hbody :)
    exact hquery.symm.trans hdistinct
  refine ⟨q, hq, hsame, ?_⟩
  have hdraft := congrArg Prod.fst h
  simpa [parse_of_read hq, completed, hsame] using hdraft.symm

/-- In a query that is not DISTINCT, every table alias that a piece of the SELECT list is about has
the base fields of its table under their usual result columns.  The step for base fields adds those
that the table has and that no entry goes by the name of, each once. -/
theorem baseFields_of_parse {p : Platform} {text warning : String} {d₀ d : Draft}
    (h : d₀.parse p text = (d, .ok warning)) (hdistinct : d.query.distinct = false) :
    ∃ q list rest specs added, Query.parse p.schema (prepareText text) = .ok q ∧
      Query.splitStatement (prepareText text).toList = .ok (list, rest) ∧
      SelectList.split (SelectList.splitDistinct list).2 = .ok specs ∧
      (∀ spec ∈ specs, ∀ a, a = SelectList.aliasOf q spec →
        ∀ field ∈ ["uid", "pid"], field ∈ p.schema.columns (q.tableOf a) →
          (if a = q.mainAlias then field else a ++ "$" ++ field) ∈ d.origins.keys) ∧
      d = (addBaseFields p (ofQuery q).analyze).warnDuplicates.1 ∧
      (ofQuery q).analyze.Selects (addBaseFields p (ofQuery q).analyze) added ∧
      (added.map (·.place)).Nodup ∧
      ∀ e, e ∈ added ↔ ∃ spec ∈ specs, ∃ field ∈ ["uid", "pid"],
        e = .usual q.mainAlias (q.tableOf (SelectList.aliasOf q spec))
          (SelectList.aliasOf q spec) field ∧
        field ∈ p.schema.columns (q.tableOf (SelectList.aliasOf q spec)) ∧
        ¬ ∃ f ∈ q.select, f.tableAlias = SelectList.aliasOf q spec ∧ f.resultName = field := by
  rcases parse_of_not_distinct h hdistinct with ⟨q, hq, hplain, hread⟩
  rcases Query.records_of_parse hq with ⟨hnoted, list, rest, specs, hstatement, hsplit, hkeys⟩
  have hlists : d.Lists (q.listed p.schema) := by
    have hparsed := (lists_of_parse hq d₀).1
    rwa [h] at hparsed
  refine ⟨q, list, rest, specs, q.baseEntries p.schema, hq, hstatement, hsplit, ?_, hread,
    selects_addBaseFields p (ofQuery q).analyze, Query.nodup_baseEntries p.schema q, ?_⟩
  · rintro spec hspec a rfl field hfield hcolumn
    -- The list of the parsed query already has this entry, whether written or added.
    have hbase : field = "uid" ∨ field = "pid" := by simpa using hfield
    have hlisted := Query.usualColumn_listed hnoted hplain ((hkeys _).2 ⟨spec, hspec, rfl⟩) hbase
      hcolumn
    have husual := hlists.mem_origins_keys.2 hlisted
    by_cases hmain : SelectList.aliasOf q spec = q.mainAlias
    · simpa [ListEntry.usualColumn, hmain] using husual
    · simpa [ListEntry.usualColumn, hmain, Ne.symm hmain] using husual
  · intro e
    rw [Query.mem_baseEntries_iff hnoted]
    constructor
    · rintro ⟨a, field, hlacks, rfl⟩
      rcases (hkeys a).1 hlacks.recorded with ⟨spec, hspec, rfl⟩
      exact ⟨spec, hspec, field, by simpa using hlacks.base, rfl, hlacks.described, hlacks.unnamed⟩
    · rintro ⟨spec, hspec, field, hfield, rfl, hcolumn, hunnamed⟩
      exact ⟨_, field, ⟨(hkeys _).2 ⟨spec, hspec, rfl⟩, by simpa using hfield, hcolumn, hunnamed⟩,
        rfl⟩

/-- Pages by their titles, which go by the name of a base field, and their news. -/
def titledUidText : String :=
  "SELECT title AS uid, n.* FROM pages INNER JOIN news AS n"

/-- The `uid` of a page is its title, its `pid` is added, and the news have both of their own. -/
theorem baseFields_of_titledUid :
    let d := (({} : Draft).parse (Catalog.site.platform (.atTime 0) {}) titledUidText).1
    ({} : Draft).parse (Catalog.site.platform (.atTime 0) {}) titledUidText = (d, .ok "") ∧
      d.query.distinct = false ∧
      ∀ column ∈ ["uid", "pid", "n$uid", "n$pid"], column ∈ d.origins.keys := by
  intro d
  have h : ({} : Draft).parse (Catalog.site.platform (.atTime 0) {}) titledUidText = (d, .ok "") :=
    Prod.ext rfl (by decide +kernel)
  have hdistinct : d.query.distinct = false := by decide +kernel
  rcases baseFields_of_parse h hdistinct with
    ⟨q, list, rest, specs, _, hq, hstatement, hsplit, hcolumns, _⟩
  change Query.parse Catalog.site.toSchema (prepareText titledUidText) = .ok q at hq
  -- What the theorem asks of the text is computed: its pieces, and the tables behind their aliases.
  have hpieces : ((Query.splitStatement (prepareText titledUidText).toList).toOption.bind fun s =>
      (SelectList.split (SelectList.splitDistinct s.1).2).toOption) =
        some [⟨"title", some "uid", false, false⟩, ⟨"n.*", none, false, true⟩] := by
    decide +kernel
  have haliases : (Query.parse Catalog.site.toSchema (prepareText titledUidText)).toOption.map
      (fun q => (SelectList.aliasOf q ⟨"title", some "uid", false, false⟩,
        SelectList.aliasOf q ⟨"n.*", none, false, true⟩, q.mainAlias, q.tableOf "pages",
        q.tableOf "n")) = some ("pages", "n", "pages", "pages", "news") := by
    decide +kernel
  simp only [hstatement, hsplit, Except.toOption, Option.bind_some, Option.some.injEq] at hpieces
  simp only [hq, Except.toOption, Option.map_some, Option.some.injEq, Prod.mk.injEq] at haliases
  rcases haliases with ⟨htitle, hnews, hmain, hpages, hn⟩
  subst hpieces
  have hbase : ∀ field ∈ ["uid", "pid"], ∀ table ∈ ["pages", "news"],
      field ∈ Catalog.site.toSchema.columns table := by decide +kernel
  have hpage : ∀ field ∈ ["uid", "pid"], field ∈ d.origins.keys := by
    intro field hfield
    have hcolumn := hcolumns _ List.mem_cons_self "pages" htitle.symm field hfield
    rw [hpages, hmain, if_pos rfl] at hcolumn
    exact hcolumn (hbase field hfield "pages" (by decide))
  have hjoined : ∀ field ∈ ["uid", "pid"], "n" ++ "$" ++ field ∈ d.origins.keys := by
    intro field hfield
    have hcolumn := hcolumns _ (List.mem_cons_of_mem _ List.mem_cons_self) "n" hnews.symm field hfield
    rw [hn, hmain, if_neg (by decide)] at hcolumn
    exact hcolumn (hbase field hfield "news" (by decide))
  refine ⟨h, hdistinct, fun column hcolumn => ?_⟩
  simp only [List.mem_cons, List.not_mem_nil, or_false] at hcolumn
  rcases hcolumn with rfl | rfl | rfl | rfl
  · exact hpage "uid" (by decide)
  · exact hpage "pid" (by decide)
  · exact hjoined "uid" (by decide)
  · exact hjoined "pid" (by decide)

end Draft
end ContentQuery
