import Mathlib.Data.List.Nodup
import ContentQuery.Proofs.Draft.Rebuilding
import ContentQuery.Proofs.Draft.Selections

/-!
# Result columns

Every selected field has a result column with an origin.  The rules of the platform ask for columns by
field, and a field that is not selected gets its usual result column.  That column may be taken: an
alias in the query gives any name to any field.  So the result columns stay apart exactly where no
added column goes by the name of an alias.
-/

namespace ContentQuery

/-! ## Usual names -/

namespace ListEntry

/-- The usual result column of a field: the field in the main table, else behind the table alias. -/
def usualColumn (mainAlias : String) (place : String × String) : String :=
  if mainAlias == place.1 then place.2 else place.1 ++ "$" ++ place.2

/-- The mark between a table alias and a field is no part of either. -/
def Plain (place : String × String) : Prop :=
  '$' ∉ place.1.toList ∧ '$' ∉ place.2.toList

theorem splitOnce?_prefixed {place : String × String} (hplain : Plain place) :
    Chars.splitOnce? '$' (place.1 ++ "$" ++ place.2).toList =
      some (place.1.toList, place.2.toList) := by
  have htext : (place.1 ++ "$" ++ place.2).toList = place.1.toList ++ '$' :: place.2.toList := by
    simp
  rw [htext, Chars.splitOnce?_append hplain.1]

theorem splitOnce?_plain {field : String} (hplain : '$' ∉ field.toList) :
    Chars.splitOnce? '$' field.toList = none := by
  generalize field.toList = text at hplain
  induction text with
  | nil => rfl
  | cons c cs ih =>
      rw [List.mem_cons, not_or] at hplain
      have hc : c ≠ '$' := fun h => hplain.1 h.symm
      simp [Chars.splitOnce?, hc, ih hplain.2]

/-- Fields without the mark have different usual names. -/
theorem usualColumn_inj {mainAlias : String} {a b : String × String} (ha : Plain a) (hb : Plain b)
    (h : usualColumn mainAlias a = usualColumn mainAlias b) : a = b := by
  have hcut := congrArg (fun s => Chars.splitOnce? '$' s.toList) h
  unfold usualColumn at h hcut
  -- A field of the main table has no mark in its name, any other one has its alias before the first.
  by_cases hmain : (mainAlias == a.1) = true
  · rw [if_pos hmain] at h hcut
    by_cases hmain' : (mainAlias == b.1) = true
    · rw [if_pos hmain'] at h
      rw [beq_iff_eq] at hmain hmain'
      exact Prod.ext (hmain.symm.trans hmain') h
    · rw [if_neg hmain'] at hcut
      simp only [splitOnce?_plain ha.2, splitOnce?_prefixed hb] at hcut
      cases hcut
  · rw [if_neg hmain] at h hcut
    by_cases hmain' : (mainAlias == b.1) = true
    · rw [if_pos hmain'] at hcut
      simp only [splitOnce?_plain hb.2, splitOnce?_prefixed ha] at hcut
      cases hcut
    · rw [if_neg hmain'] at hcut
      simp only [splitOnce?_prefixed ha, splitOnce?_prefixed hb, Option.some.injEq, Prod.mk.injEq]
        at hcut
      exact Prod.ext (String.toList_inj.1 hcut.1) (String.toList_inj.1 hcut.2)

/-- An entry without an alias is named as usual. -/
theorem column_written {mainAlias : String} {f : SelectField} (halias : f.aliasName = none) :
    (written mainAlias f).column = usualColumn mainAlias (written mainAlias f).place := by
  rw [place_written, usualColumn]
  simp only [written, Draft.resultColumn, halias]
  by_cases hmain : f.tableAlias = mainAlias
  · simp [hmain]
  · have hother : mainAlias ≠ f.tableAlias := fun h => hmain h.symm
    simp [hmain, hother]

end ListEntry

/-- An entry of a query that was read is named as usual, or by an alias of the query. -/
theorem Query.column_listed {schema : Schema} {q : Query} {e : ListEntry}
    (he : e ∈ q.listed schema) :
    e.column = ListEntry.usualColumn q.mainAlias e.place ∨
      ∃ f ∈ q.select, f.aliasName.isSome = true ∧ e = .written q.mainAlias f := by
  rcases mem_listed_cases he with ⟨f, hf, rfl⟩ | ⟨a, _, field, _, rfl⟩
  · cases halias : f.aliasName with
    | none => exact .inl (ListEntry.column_written halias)
    | some name => exact .inr ⟨f, hf, by simp [halias], rfl⟩
  · exact .inl rfl

namespace Draft

/-! ## Registered fields -/

/-- Along every run after reading, each field that the query selects is written in the SELECT list,
noted for its table and has a result column.  As many entries are written as fields are noted, every
origin is that of a noted field, and every entry names a result column with an origin. -/
theorem fields_registered {p : Platform} {text : String} {q : Query}
    (h : Query.parse p.schema (prepareText text) = .ok q) (d₀ : Draft) (requests : List Request) :
    let d := serveAll p requests (d₀.parse p text).1
    (∀ f ∈ q.select, entryText q.mainAlias f ∈ d.query.selectList ∧
      d.hasField f.tableAlias f.field = true ∧ (resultColumn q.mainAlias f).1 ∈ d.origins.keys) ∧
      d.query.selectList.length = d.tables.total (·.fields.length) ∧
      (∀ e ∈ d.origins.entries, ∃ t, d.tables.get? e.2.tableAlias = some t ∧
        t.hasField e.2.field = true) ∧
      ∀ entry ∈ d.query.selectList, ∃ column ∈ d.origins.keys,
        (∃ x, entry = x ++ " AS " ++ column) ∨ entry = d.query.mainAlias ++ "." ++ column := by
  intro d
  rcases lists_of_parse h d₀ with ⟨hread, hmain⟩
  have hsteps := steps_serveAll p requests (d₀.parse p text).1
  rcases Steps.selects hsteps with ⟨added, hselects, hadded⟩
  have hlists : d.Lists (q.listed p.schema ++ added) := hread.append hselects
  have hmain' : d.query.mainAlias = q.mainAlias :=
    ((Steps.grows hsteps).query.kept Query.mainAlias fun _ => rfl).trans hmain
  -- A run only appends entries, so all four facts are read off the one list of them.
  refine ⟨?_, ?_, ?_, ?_⟩
  · intro f hf
    have hmem : ListEntry.written q.mainAlias f ∈ q.listed p.schema ++ added :=
      List.mem_append_left _ (List.mem_append_left _ (List.mem_map_of_mem hf))
    refine ⟨?_, hlists.hasField.2 ⟨_, hmem, ListEntry.place_written _ f⟩, ?_⟩
    · rw [hlists.selectList]
      exact List.mem_map.2 ⟨_, hmem, rfl⟩
    · rw [hlists.mem_origins_keys]
      exact List.mem_map.2 ⟨_, hmem, rfl⟩
  · rw [hlists.selectList, List.length_map]
    exact hlists.fieldCount.symm
  · intro e he
    have hmem : e ∈ (q.listed p.schema ++ added).map fun e => (e.column, e.origin) := by
      rw [hlists.origins] at he
      exact OrderedMap.mem_of_mem_ofList he
    rcases List.mem_map.1 hmem with ⟨e', he', rfl⟩
    exact (Option.any_eq_true _ _).1 (hlists.hasField.2 ⟨e', he', rfl⟩)
  · intro entry hentry
    rw [hlists.selectList] at hentry
    rcases List.mem_map.1 hentry with ⟨e, he, rfl⟩
    refine ⟨e.column, hlists.mem_origins_keys.2 (List.mem_map_of_mem he), ?_⟩
    rw [hmain']
    rcases List.mem_append.1 he with he | he
    · exact Query.titled_listed (Query.callsNamed_of_parse h) p.schema e he
    · exact hmain ▸ hadded e he

/-- Headers sorted by the translated text below them. -/
def sortedText : String :=
  "SELECT header FROM content ORDER BY bodytext"

/-- The sorted headers, with the columns that the overlay and the sorting ask for. -/
theorem fields_registered_sorted :
    let d := serveAll translatedSite [.operation .mechanisms, .build]
      (({} : Draft).parse translatedSite sortedText).1
    d.query.selectList.length = 5 ∧ d.tables.total (·.fields.length) = 5 ∧
      ∀ entry ∈ d.query.selectList, ∃ column ∈ d.origins.keys,
        (∃ x, entry = x ++ " AS " ++ column) ∨ entry = d.query.mainAlias ++ "." ++ column := by
  have hcount : (serveAll translatedSite [.operation .mechanisms, .build]
      (({} : Draft).parse translatedSite sortedText).1).query.selectList.length = 5 := by
    decide +kernel
  have hread : (Query.parse translatedSite.schema (prepareText sortedText)).isOk = true := by
    decide +kernel
  cases hparse : Query.parse translatedSite.schema (prepareText sortedText) with
  | error e =>
      rw [hparse] at hread
      cases hread
  | ok q =>
      have h := fields_registered hparse {} [.operation .mechanisms, .build]
      generalize serveAll translatedSite [.operation .mechanisms, .build]
        (({} : Draft).parse translatedSite sortedText).1 = d at h hcount ⊢
      exact ⟨hcount, h.2.1.symm.trans hcount, h.2.2.2⟩

/-! ## Added columns -/

/-- Columns that are added to the entries: each under its usual name, and none that has an entry. -/
structure Completion (mainAlias : String) (entries added : List ListEntry) : Prop where
  usual : ∀ e ∈ added, ∃ table a field, e = .usual mainAlias table a field
  fresh : ∀ e ∈ added, ∀ e' ∈ entries, e'.place ≠ e.place
  once : (added.map (·.place)).Nodup

variable {d d' : Draft} {entries added : List ListEntry} {mainAlias : String}

/-- The rules complete the entries of a draft. -/
theorem RuleSteps.completion (h : RuleSteps d d') (hd : d.Lists entries) :
    ∃ added, d'.Lists (entries ++ added) ∧ Completion d.query.mainAlias entries added := by
  rcases h.completes.selects with ⟨added, hselects, honce, hadded⟩
  refine ⟨added, hd.append hselects, fun e he => (hadded e he).2, ?_, honce⟩
  -- The place of a new column has no entry.
  intro e he e' he' hsame
  have hthere : d.hasField e.place.1 e.place.2 = true := hd.hasField.2 ⟨e', he', hsame⟩
  rw [(hadded e he).1] at hthere
  cases hthere

namespace Completion

theorem column (h : Completion mainAlias entries added) {e : ListEntry} (he : e ∈ added) :
    e.column = ListEntry.usualColumn mainAlias e.place := by
  rcases h.usual e he with ⟨table, a, field, rfl⟩
  rfl

/-- Without the mark in their names no two added columns are named alike. -/
theorem nodup (h : Completion mainAlias entries added)
    (hplain : ∀ e ∈ added, ListEntry.Plain e.place) : (added.map (·.column)).Nodup := by
  have hcolumns : added.map (·.column) =
      (added.map (·.place)).map (ListEntry.usualColumn mainAlias) := by
    rw [List.map_map]
    exact List.map_congr_left fun e he => h.column he
  rw [hcolumns]
  refine List.Nodup.map_on ?_ h.once
  intro a ha b hb
  rcases List.mem_map.1 ha with ⟨e, he, rfl⟩
  rcases List.mem_map.1 hb with ⟨e', he', rfl⟩
  exact ListEntry.usualColumn_inj (hplain e he) (hplain e' he')

/-- The earlier origins are kept exactly where no added column has the name of an earlier entry: the
origin of an added column is another place. -/
theorem origins_kept_iff (h : Completion mainAlias entries added) (hd : d.Lists entries)
    (hd' : d'.Lists (entries ++ added)) :
    (∀ column ∈ d.origins.keys, d'.origins.get? column = d.origins.get? column) ↔
      ∀ e ∈ added, e.column ∉ entries.map (·.column) := by
  let origins (es : List ListEntry) := es.map fun e => (e.column, e.origin)
  have hget : ∀ column, d'.origins.get? column =
      ((OrderedMap.ofList (origins added)).get? column).or (d.origins.get? column) := by
    intro column
    rw [hd'.origins, hd.origins, List.map_append, OrderedMap.get?_ofList_append]
  constructor
  · intro hkept e he hmem
    rcases OrderedMap.exists_of_mem_keys (m := d.origins) (hd.mem_origins_keys.2 hmem) with
      ⟨origin, horigin⟩
    have hbefore := OrderedMap.get?_eq_some_iff.2 horigin
    rw [hd.origins] at horigin
    rcases List.mem_map.1 (OrderedMap.mem_of_mem_ofList horigin) with ⟨e', he', heq'⟩
    -- The result column has the origin of an added entry now.
    have hkey : e.column ∈ (OrderedMap.ofList (origins added)).keys :=
      OrderedMap.mem_keys_ofList.2 (List.mem_map.2 ⟨_, List.mem_map_of_mem he, rfl⟩)
    rcases OrderedMap.exists_of_mem_keys hkey with ⟨origin', horigin'⟩
    rcases List.mem_map.1 (OrderedMap.mem_of_mem_ofList horigin') with ⟨e'', he'', heq''⟩
    have hsame := hkept e.column (hd.mem_origins_keys.2 hmem)
    rw [hget, OrderedMap.get?_eq_some_iff.2 horigin', hbefore, Option.some_or] at hsame
    simp only [Prod.mk.injEq] at heq' heq''
    refine h.fresh e'' he'' e' he' ?_
    rw [ListEntry.place, ListEntry.place, heq'.2, heq''.2, Option.some.inj hsame]
  · intro hapart column hcolumn
    have hnone : (OrderedMap.ofList (origins added)).get? column = none := by
      rw [OrderedMap.get?_eq_none_iff, OrderedMap.mem_keys_ofList]
      intro hmem
      rcases List.mem_map.1 hmem with ⟨_, hpair, rfl⟩
      rcases List.mem_map.1 hpair with ⟨e, he, rfl⟩
      exact hapart e he (hd.mem_origins_keys.1 hcolumn)
    rw [hget, hnone, Option.none_or]

/-- Without the mark in the names an added column can only have the name of an alias. -/
theorem apart_iff {schema : Schema} {q : Query}
    (h : Completion q.mainAlias (q.listed schema) added)
    (hplain : ∀ e ∈ q.listed schema ++ added,
      e.column = ListEntry.usualColumn q.mainAlias e.place → ListEntry.Plain e.place) :
    (∀ e ∈ added, e.column ∉ (q.listed schema).map (·.column)) ↔
      ∀ e ∈ added, ∀ f ∈ q.select, f.aliasName.isSome = true →
        (resultColumn q.mainAlias f).1 ≠ e.column := by
  constructor
  · intro hapart e he f hf _ heq
    refine hapart e he (List.mem_map.2 ⟨.written q.mainAlias f, ?_, heq⟩)
    exact List.mem_append_left _ (List.mem_map_of_mem hf)
  · intro haliases e he hmem
    rcases List.mem_map.1 hmem with ⟨e', he', heq⟩
    rcases Query.column_listed he' with husual | ⟨f, hf, halias, rfl⟩
    · -- Of two usual names the places are the same.
      have hnames : ListEntry.usualColumn q.mainAlias e'.place =
          ListEntry.usualColumn q.mainAlias e.place := by
        rw [← husual, ← h.column he, heq]
      exact h.fresh e he e' he' (ListEntry.usualColumn_inj (hplain e' (by simp [he']) husual)
        (hplain e (by simp [he]) (h.column he)) hnames)
    · exact haliases e he f hf halias heq

end Completion

/-! ## The rules of the platform -/

/-- After reading, the rules of the platform add columns of fields that are not selected, under their
usual names.  Names that differ stay different exactly where the added ones differ from each other and
from them, and origins are kept exactly where the added names are new.  Unless a mark that stands between
an alias and a field is part of a name, this fails only for a column that goes by an alias of the
query. -/
theorem resultNames_of_mechanisms {p : Platform} {text warning : String} {d₀ d : Draft}
    (haccepted : d₀.parse p text = (d, .ok warning))
    (hnames : ((d.query.listed p.schema).map (·.column)).Nodup) :
    let entries := d.query.listed p.schema
    ∃ added, d.Lists entries ∧ (d.addMechanisms p).Lists (entries ++ added) ∧
      Completion d.query.mainAlias entries added ∧
      (∀ e ∈ entries ++ added, e.Titled d.query.mainAlias) ∧
      (((entries ++ added).map (·.column)).Nodup ↔
        (added.map (·.column)).Nodup ∧ ∀ e ∈ added, e.column ∉ entries.map (·.column)) ∧
      ((∀ column ∈ d.origins.keys,
          (d.addMechanisms p).origins.get? column = d.origins.get? column) ↔
        ∀ e ∈ added, e.column ∉ entries.map (·.column)) ∧
      ((∀ e ∈ entries ++ added,
          e.column = ListEntry.usualColumn d.query.mainAlias e.place → ListEntry.Plain e.place) →
        (added.map (·.column)).Nodup ∧
          ((∀ e ∈ added, e.column ∉ entries.map (·.column)) ↔
            ∀ e ∈ added, ∀ f ∈ d.query.select, f.aliasName.isSome = true →
              (resultColumn d.query.mainAlias f).1 ≠ e.column)) := by
  intro entries
  rcases of_parse haccepted with ⟨q, hq, hbody, _⟩
  have hmain : d.query.mainAlias = q.mainAlias := (congrArg Query.mainAlias hbody :)
  have hentries : entries = q.listed p.schema :=
    (congrArg (fun q : Query => q.listed p.schema) hbody :)
  have hread : d.Lists entries := by
    have hlists := (lists_of_parse hq d₀).1
    rwa [haccepted, ← hentries] at hlists
  rcases RuleSteps.completion (ruleSteps_addMechanisms p d) hread with ⟨added, hlists, hadded⟩
  refine ⟨added, hread, hlists, hadded, ?_, ?_, hadded.origins_kept_iff hread hlists, ?_⟩
  · intro e he
    rcases List.mem_append.1 he with he | he
    · rw [hmain]
      exact Query.titled_listed (Query.callsNamed_of_parse hq) p.schema e (hentries ▸ he)
    · rcases hadded.usual e he with ⟨table, a, field, rfl⟩
      exact ListEntry.titled_usual _ _ _ _
  · -- The read names differ by assumption, so only the added ones can bring a repetition.
    rw [List.map_append, List.nodup_append]
    constructor
    · rintro ⟨_, hadded', hapart⟩
      refine ⟨hadded', fun e he hmem => ?_⟩
      exact hapart e.column hmem e.column (List.mem_map_of_mem he) rfl
    · rintro ⟨hadded', hapart⟩
      refine ⟨hnames, hadded', ?_⟩
      rintro column hcolumn column' hcolumn' rfl
      rcases List.mem_map.1 hcolumn' with ⟨e, he, rfl⟩
      exact hapart e he hcolumn
  · intro hplain
    exact ⟨hadded.nodup fun e he => hplain e (by simp [he]) (hadded.column he),
      hadded.apart_iff hplain⟩

/-- The bilingual site in its first language. -/
def firstLanguage : Platform :=
  Catalog.bilingual.platform (.atTime 0) {}

/-- Content under headlines: the columns for the overlay get names of their own. -/
theorem resultNames_of_headlines :
    let d := (({} : Draft).parse firstLanguage "SELECT header AS headline FROM content").1
    ∃ added,
      (d.addMechanisms firstLanguage).Lists (d.query.listed firstLanguage.schema ++ added) ∧
      ((d.query.listed firstLanguage.schema ++ added).map (·.column)).Nodup ∧
      ∀ column ∈ d.origins.keys,
        (d.addMechanisms firstLanguage).origins.get? column = d.origins.get? column := by
  intro d
  have hparse : ({} : Draft).parse firstLanguage "SELECT header AS headline FROM content" =
      (d, .ok "") := by
    refine Prod.ext rfl ?_
    decide +kernel
  have hnames : ((d.query.listed firstLanguage.schema).map (·.column)).Nodup := by decide +kernel
  have hcount : (d.addMechanisms firstLanguage).origins.entries.length =
      (d.addMechanisms firstLanguage).query.selectList.length := by
    decide +kernel
  rcases resultNames_of_mechanisms hparse hnames with ⟨added, _, hlists, _, _, hnodup, hkept, _⟩
  have hdifferent := hlists.nodup_iff.2 hcount
  exact ⟨added, hlists, hdifferent, hkept.2 (hnodup.1 hdifferent).2⟩

/-- A header that goes by the name of the uid: the overlay asks for the uid, whose name is taken. -/
theorem overlayColumn_takes_alias :
    let read := ({} : Draft).parse firstLanguage "SELECT header AS uid FROM content"
    let after := read.1.addMechanisms firstLanguage
    read.2 = .ok "" ∧ read.1.query.distinct = false ∧
      (read.1.query.listed firstLanguage.schema).map (·.column) = ["uid", "pid"] ∧
      after.query.selectList =
        ["content.header AS uid", "content.pid", "content.uid", "content.sys_language_uid"] ∧
      (read.1.origins.get? "uid").map (·.field) = some "header" ∧
      (after.origins.get? "uid").map (·.field) = some "uid" := by
  decide +kernel

end Draft
end ContentQuery
