import ContentQuery.Proofs.Query.Expansion
import ContentQuery.Proofs.Draft.Selections

/-!
# Origins of result columns

The origin of a result column is put together from two records: that of the entry which has the
column, and the alias under which the field of the entry is selected.  Of the second there is one for
each field of a table alias.  So where a field is selected more than once, all of its result columns
are answered with the alias of the last entry that has one.  The rest of an answer is about the entry
itself.
-/

namespace ContentQuery

namespace Query

/-! ## Entries and their records -/

/-- Where all entries of a field agree on the alias, it is the one on record. -/
theorem lastAlias?_of_agree {q : Query} {f : SelectField} (hf : f ∈ q.select)
    (hagree : ∀ g ∈ q.select, g.tableAlias = f.tableAlias → g.field = f.field →
      g.aliasName = f.aliasName) :
    q.lastAlias? f.tableAlias f.field = f.aliasName := by
  cases hlast : q.lastAlias? f.tableAlias f.field with
  | none => exact (lastAlias?_eq_none_iff.1 hlast f hf rfl rfl).symm
  | some name =>
      rcases mem_of_lastAlias? hlast with ⟨g, hg, halias, hfield, hname⟩
      rw [← hname, hagree g hg halias hfield]

/-- Whether it was joined or not, the main table is that of its alias. -/
theorem WellKept.mainTable_eq {q : Query} (hq : q.WellKept) :
    q.mainTable = q.tableOf q.mainAlias := by
  have hknown : q.mainAlias ∈ q.tableOfAlias.keys := hq.covered.2 (.inl rfl)
  rcases OrderedMap.exists_of_mem_keys hknown with ⟨table, hmem⟩
  have htable : q.table? q.mainAlias = some table := OrderedMap.get?_eq_some_iff.2 hmem
  rw [Query.mainTable, tableOf, htable, Option.getD_some, Option.getD_some]

/-- Each entry of a SELECT list that was read comes from the table of its alias. -/
theorem table_of_parse {schema : Schema} {text : String} {q : Query}
    (h : parse schema text = .ok q) : ∀ f ∈ q.select, f.table = q.tableOf f.tableAlias := by
  rcases parse_eq_ok_iff.1 h with ⟨list, rest, q₀, q₁, _, htables, hclauses, hlist⟩
  have hmain : q₁.mainTable = q₁.tableOf q₁.mainAlias :=
    (wellKept_of_clauses htables hclauses).mainTable_eq
  have hrecords := listRecords_of_clauses htables hclauses
  simp only [listRecords, Prod.mk.injEq] at hrecords
  have htable : ∀ a, q.tableOf a = q₁.tableOf a := tableOf_congr (withoutList_parse hlist)
  rcases SelectList.parse_eq_ok_iff.1 hlist with ⟨_, specs, _, rfl⟩
  intro f hf
  rw [SelectList.select_foldl_enter, hrecords.2.1, List.nil_append, List.mem_flatMap] at hf
  rcases hf with ⟨s, hs, hf⟩
  rcases SelectList.mem_selections hs with ⟨spec, _, calls, rfl⟩
  rw [htable]
  unfold SelectList.selection at hf
  split at hf
  · rcases List.mem_map.1 hf with ⟨column, _, rfl⟩
    rfl
  · rw [(SelectList.fields_selectionOf _).2, List.mem_singleton] at hf
    subst hf
    -- A call and a column without a table belong to the main one.
    unfold SelectList.fieldOf
    split
    · exact hmain
    · split
      · rfl
      · exact hmain

end Query

/-! ## Origins of entries -/

/-- An alias without its table part. -/
def bareAlias (aliasName : String) : String :=
  ((Text.splitOnce? '.' aliasName).map Prod.snd).getD aliasName

namespace SelectField

/-- The table and the field to which the alias of an entry assigns the value.  An alias with a dot
names both, another one renames a field of the main table; without an alias, and on a join, the value
stays where it comes from. -/
def target (mainAlias : String) (f : SelectField) : String × String :=
  match f.aliasName with
  | none => (f.tableAlias, f.field)
  | some aliasName =>
      (Text.splitOnce? '.' aliasName).getD
        (f.tableAlias, if f.tableAlias = mainAlias then aliasName else f.field)

/-- The origin of an entry whose field goes by an alias. -/
def originAs (mainAlias : String) (f : SelectField) (aliasName : Option String) : FieldOrigin :=
  { table := f.table
    tableAlias := f.tableAlias
    field := f.field
    mapping :=
      { table := (f.target mainAlias).1
        field := (f.target mainAlias).2
        aliasName := aliasName.map bareAlias } }

end SelectField

/-- The origin of an entry is that of its field without an alias. -/
theorem ListEntry.origin_written (mainAlias : String) (f : SelectField) :
    (ListEntry.written mainAlias f).origin = f.originAs mainAlias none := by
  unfold ListEntry.written Draft.resultColumn SelectField.originAs SelectField.target
  cases f.aliasName with
  | none => rfl
  | some aliasName =>
      cases hsplit : Text.splitOnce? '.' aliasName with
      | some place => simp [hsplit, Draft.originOf, FieldOrigin.plain]
      | none =>
          by_cases hmain : f.tableAlias = mainAlias <;>
            simp [hsplit, hmain, Draft.originOf, FieldOrigin.plain]

namespace Draft

/-- A result column that no later entry has is answered with the origin of its entry, the field of
which goes by the alias on record. -/
theorem Lists.origin?_written {d : Draft} {entries before after : List ListEntry}
    {mainAlias : String} {f : SelectField} (h : d.Lists entries)
    (hentries : entries = before ++ .written mainAlias f :: after)
    (hlast : (resultColumn mainAlias f).1 ∉ after.map (·.column)) :
    d.origin? (resultColumn mainAlias f).1 =
      some (f.originAs mainAlias (d.query.fieldAlias? f.tableAlias f.field)) := by
  have hget : d.origins.get? (resultColumn mainAlias f).1 = some (f.originAs mainAlias none) := by
    rw [h.origins, OrderedMap.get?_ofList_eq_some_iff, hentries, ← ListEntry.origin_written]
    refine ⟨_, _, List.map_append.trans (congrArg _ List.map_cons), ?_⟩
    simpa using hlast
  rw [origin?, hget, Option.map_some]
  cases hrecord : d.query.fieldAlias? f.tableAlias f.field <;>
    simp [SelectField.originAs, bareAlias, hrecord]

/-- After an accepted text, a result column that no later entry has is answered with the table, the
alias and the field of its entry, and with the place to which the alias of the entry assigns the
value.  The alias in the answer is that of the last entry that selects the same field under one: it
is the alias of the entry itself exactly if these agree but for the table part, as they do where all
entries of the field have the same alias. -/
theorem origins_of_parse {p : Platform} {text warning : String} {d₀ d : Draft}
    (h : d₀.parse p text = (d, .ok warning)) :
    ∀ f ∈ d.query.select, f.table = d.query.tableOf f.tableAlias ∧
      ∀ before after,
        d.query.listed p.schema = before ++ .written d.query.mainAlias f :: after →
        (resultColumn d.query.mainAlias f).1 ∉ after.map (·.column) →
        let last := d.query.lastAlias? f.tableAlias f.field
        let answer := d.origin? (resultColumn d.query.mainAlias f).1
        answer = some (f.originAs d.query.mainAlias last) ∧
          (answer = some (f.originAs d.query.mainAlias f.aliasName) ↔
            last.map bareAlias = f.aliasName.map bareAlias) ∧
          ((∀ g ∈ d.query.select, g.tableAlias = f.tableAlias → g.field = f.field →
              g.aliasName = f.aliasName) →
            answer = some (f.originAs d.query.mainAlias f.aliasName)) := by
  rcases of_parse h with ⟨q, hq, hbody, _⟩
  have hselect : d.query.select = q.select := (congrArg Query.select hbody :)
  have htable : d.query.tableOf = q.tableOf := (congrArg Query.tableOf hbody :)
  have hrecord : d.query.fieldAlias? = q.fieldAlias? := (congrArg Query.fieldAlias? hbody :)
  have hlastAlias : d.query.lastAlias? = q.lastAlias? := (congrArg Query.lastAlias? hbody :)
  intro f hf
  refine ⟨?_, ?_⟩
  · rw [htable]
    exact Query.table_of_parse hq f (hselect ▸ hf)
  intro before after hentries hlast last answer
  -- The origin is written with the alias last recorded for the field, not with its own.
  have hanswer : answer = some (f.originAs d.query.mainAlias last) := by
    have hkept : d.query.fieldAlias? f.tableAlias f.field = last := by
      rw [hrecord, Query.fieldAlias?_of_parse hq, ← hlastAlias]
    rw [← hkept]
    exact (lists_of_accepted h).origin?_written hentries hlast
  have hexact : answer = some (f.originAs d.query.mainAlias f.aliasName) ↔
      last.map bareAlias = f.aliasName.map bareAlias := by
    rw [hanswer]
    simp [SelectField.originAs]
  refine ⟨hanswer, hexact, fun hagree => hexact.2 ?_⟩
  exact congrArg (Option.map bareAlias) (Query.lastAlias?_of_agree hf hagree)

/-- A story is told under another name of its own, and moves to a table of its own. -/
theorem origins_of_story :
    let p := Catalog.site.platform (.atTime 0) {}
    let read := ({} : Draft).parse p
      "SELECT title, n.body AS story.text FROM pages INNER JOIN news AS n ON n.pid = pages.uid"
    let d := read.1
    let f : SelectField :=
      { table := "news", tableAlias := "n", field := "body", aliasName := some "story.text",
        isCall := false }
    read = (d, .ok "") ∧ f ∈ d.query.select ∧ d.query.tableOf "n" = "news" ∧
      d.origin? "story$text" =
        some { table := "news", tableAlias := "n", field := "body"
               mapping := { table := "story", field := "text", aliasName := some "text" } } := by
  intro p read d f
  -- The draft is evaluated once for all that is read off it.
  have hread : read.2 = .ok "" ∧ f ∈ d.query.select ∧
      d.query.listed p.schema =
        (d.query.listed p.schema).take 1 ++
          .written d.query.mainAlias f :: (d.query.listed p.schema).drop 2 ∧
      (resultColumn d.query.mainAlias f).1 ∉
        ((d.query.listed p.schema).drop 2).map (·.column) ∧
      (∀ g ∈ d.query.select, g.tableAlias = f.tableAlias → g.field = f.field →
        g.aliasName = f.aliasName) ∧
      (resultColumn d.query.mainAlias f).1 = "story$text" ∧
      f.originAs d.query.mainAlias f.aliasName =
        { table := "news", tableAlias := "n", field := "body"
          mapping := { table := "story", field := "text", aliasName := some "text" } } := by
    decide +kernel
  rcases hread with ⟨haccepted, hmem, hentries, hlast, honly, hcolumn, horigin⟩
  have hparse : read = (d, .ok "") :=
    (Prod.eta read).symm.trans (congrArg (Prod.mk d) haccepted)
  rcases origins_of_parse hparse f hmem with ⟨htable, hanswer⟩
  have hown := (hanswer _ _ hentries hlast).2.2 honly
  rw [hcolumn, horigin] at hown
  exact ⟨hparse, hmem, htable.symm, hown⟩

/-- The title is selected by itself and under a headline: by itself it is answered with that
headline, which is the alias of the other entry. -/
theorem title_goes_by_headline :
    let p := Catalog.site.platform (.atTime 0) {}
    let read := ({} : Draft).parse p "SELECT title, title AS headline FROM pages"
    let title : SelectField :=
      { table := "pages", tableAlias := "pages", field := "title", aliasName := none,
        isCall := false }
    let entries := read.1.query.listed p.schema
    read.2.isOk = true ∧ title ∈ read.1.query.select ∧
      (resultColumn "pages" title).1 = "title" ∧ (entries.map (·.column)).count "title" = 1 ∧
      read.1.origin? "title" ≠ some (title.originAs "pages" none) ∧
      read.1.origin? "title" = some (title.originAs "pages" (some "headline")) := by
  decide +kernel

end Draft
end ContentQuery
