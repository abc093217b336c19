import ContentQuery.Proofs.Draft.Reachable

/-!
# Aliases in use

From an accepted text on, whatever is done with a draft: what it knows of its aliases agrees with its
tables and joins, and every entry of the SELECT list has a record of base fields.  So an alias that
the draft answered with has a clause of its own, and no condition on it is dropped.

The actions are all that a caller may do, the steps of reading and building on their own included.
-/

namespace ContentQuery
namespace Query

/-! ## Records that stay -/

/-- A query that grows keeps its aliases and the tables behind them. -/
theorem Grows.wellKept {q q' : Query} (h : q.Grows q') (hq : q.WellKept) : q'.WellKept := by
  have hmain := h.kept Query.mainAlias fun _ => rfl
  have hsource := h.kept Query.source fun _ => rfl
  have htables := h.kept Query.tableOfAlias fun _ => rfl
  have htable := h.kept Query.table? fun _ => rfl
  have haliases := h.kept Query.subtableAliases fun _ => rfl
  constructor
  case main => rw [hmain, hsource, hq.main]
  case keyed =>
    intro a join' hjoin'
    rcases h.exists_join hjoin' with ⟨join, hjoin, hgrows⟩
    rw [hgrows.aliasName, hq.keyed hjoin]
  case aliases => rw [haliases, h.joinKeys, hq.aliases]
  case joined =>
    intro a join' hjoin'
    rcases h.exists_join hjoin' with ⟨join, hjoin, hgrows⟩
    rw [htable, hgrows.table, hq.joined hjoin]
  case mainTable =>
    rw [hmain, h.joinKeys, htable, hsource]
    exact hq.mainTable
  case covered =>
    rw [htables, hmain, h.joinKeys]
    exact hq.covered
  case trimmed =>
    rw [htables]
    exact hq.trimmed

theorem Grows.entriesNoted {q q' : Query} (h : q.Grows q') (hq : q.EntriesNoted) :
    q'.EntriesNoted := by
  have hselect := h.kept Query.select fun _ => rfl
  have hbase := h.kept Query.baseFields fun _ => rfl
  rw [EntriesNoted, hselect, hbase]
  exact hq

/-! ## Conditions that arrive -/

/-- A condition that says something stands at the end of the clause of its alias afterwards: of WHERE
for the main alias, of the ON clause for a join. -/
def Receives (q q' : Query) (t : Attachment) : Prop :=
  t.aliasName = q.mainAlias ∧ q'.conditions = q.conditions ++ [Text.trim t.condition] ∨
    ∃ join, q.joins.get? t.aliasName = some join ∧
      q'.joins.get? t.aliasName = some (join.restrict [Text.trim t.condition])

/-- Every alias with a table has a clause. -/
theorem WellKept.receives {q : Query} (hq : q.WellKept) {t : Attachment}
    (ha : t.aliasName ∈ q.tableOfAlias.keys) (hcondition : Text.trim t.condition ≠ "") :
    q.Receives (q.attach t) t := by
  rw [attach_eq, if_neg hcondition]
  by_cases hmain : t.aliasName = q.mainAlias
  · have hself : q.isMainAlias t.aliasName = true := beq_iff_eq.2 hmain.symm
    rw [if_pos hself]
    exact .inl ⟨hmain, rfl⟩
  · have hother : ¬ q.isMainAlias t.aliasName = true := fun hself => hmain (beq_iff_eq.1 hself).symm
    have hjoined : t.aliasName ∈ q.joins.keys := (hq.covered.1 ha).resolve_left hmain
    rw [if_neg hother, if_pos (hq.aliases ▸ hjoined)]
    rcases OrderedMap.exists_of_mem_keys hjoined with ⟨join, hmem⟩
    have hjoin := OrderedMap.get?_eq_some_iff.2 hmem
    refine .inr ⟨join, hjoin, ?_⟩
    rw [OrderedMap.get?_modify, if_pos rfl, hjoin, Option.map_some]

end Query

namespace Draft

/-! ## Actions -/

/-- Everything that a caller may do with a draft. -/
inductive Action where
  | parse (text : String)
  | check (text : String)
  | analyze
  | addBaseFields
  | request (request : Request)
  | setLimit (limit : Nat)
  | setOffset (offset : Nat)

def act (p : Platform) (d : Draft) : Action → Draft
  | .parse text => (d.parse p text).1
  | .check text => (d.check p text).1
  | .analyze => d.analyze
  | .addBaseFields => Draft.addBaseFields p d
  | .request request => serve p d request
  | .setLimit limit => d.setLimit limit
  | .setOffset offset => d.setOffset offset

def actAll (p : Platform) (actions : List Action) (d : Draft) : Draft :=
  actions.foldl (act p) d

theorem actAll_newsDraft :
    actAll (Catalog.site.platform (.atTime 0) {})
        [.parse "SELECT title, n.body FROM pages INNER JOIN news AS n ON n.pid = pages.uid"] {} =
      newsDraft := by
  rw [actAll, List.foldl_cons, List.foldl_nil, act, parse_newsDraft]

section Induction

variable {p : Platform} {P : Draft → Prop}
  (hgrows : ∀ {d d' : Draft}, d.Grows d' → P d → P d')

section Analyzed

variable
  (hread : ∀ {text : String} {q : Query}, Query.parse p.schema text = .ok q →
    P (ofQuery q).analyze)
  (hanalyze : ∀ {d : Draft}, P d → P d.analyze)
  (hcounts : ∀ {d : Draft}, P d → ∀ limit offset,
    P { d with query := { d.query with limit, offset } })

include hgrows hread hanalyze hcounts

/-- What holds of every query that is read and analyzed, and is kept where a draft grows, where its
entries are registered and where its counts are set, is kept by every action. -/
theorem act_induction_analyzed {d : Draft} (hd : P d) (action : Action) : P (act p d action) := by
  have hbuild : ∀ {d : Draft}, P d → P (d.build p).1 := fun {d} hd =>
    hgrows (d.grows_decideOrdering p) hd
  -- A text that is accepted takes the place of the query, any other one leaves it.
  have hparse : ∀ text, P (d.parse p text).1 := by
    intro text
    cases hq : Query.parse p.schema (prepareText text) with
    | error e =>
        rw [parse_of_error hq]
        exact hd
    | ok q => exact hgrows (grows_parse hq d) (hread hq)
  cases action with
  | parse text => exact hparse text
  | check text =>
      have hread := hparse text
      simp only [Draft.act, Draft.check]
      -- A refused text ends the check; else the draft is built, for one row as well.
      split
      · next heq =>
          rw [heq] at hread
          exact hread
      · next heq =>
          rw [heq] at hread
          exact hbuild (hcounts (hbuild hread) (some 1) _)
  | analyze => exact hanalyze hd
  | addBaseFields => exact hgrows (grows_addBaseFields p d) hd
  | request request => exact hgrows (grows_serve p d request) hd
  | setLimit limit => exact hcounts hd (some limit) _
  | setOffset offset => exact hcounts hd _ (some offset)

theorem actAll_induction_analyzed {d : Draft} (hd : P d) (actions : List Action) :
    P (actAll p actions d) := by
  induction actions generalizing d with
  | nil => exact hd
  | cons action actions ih =>
      exact ih (act_induction_analyzed hgrows hread hanalyze hcounts hd action)

end Analyzed

variable
  (hread : ∀ {text : String} {q : Query}, Query.parse p.schema text = .ok q → P (ofQuery q))
  (hanalyze : ∀ {d : Draft}, P d → P d.analyze)
  (hcounts : ∀ {d : Draft}, P d → ∀ limit offset,
    P { d with query := { d.query with limit, offset } })

include hgrows hread hanalyze hcounts

/-- What holds of every query that is read, and is kept by the analysis too. -/
theorem act_induction {d : Draft} (hd : P d) (action : Action) : P (act p d action) :=
  act_induction_analyzed hgrows (fun hq => hanalyze (hread hq)) hanalyze hcounts hd action

theorem actAll_induction {d : Draft} (hd : P d) (actions : List Action) : P (actAll p actions d) :=
  actAll_induction_analyzed hgrows (fun hq => hanalyze (hread hq)) hanalyze hcounts hd actions

end Induction

/-- The query of a draft keeps its records, and what the draft found out fits the query. -/
structure InOrder (d : Draft) : Prop where
  wellKept : d.query.WellKept
  entriesNoted : d.query.EntriesNoted
  consistent : d.Consistent

theorem Grows.inOrder {d d' : Draft} (h : d.Grows d') (hd : d.InOrder) : d'.InOrder :=
  ⟨h.query.wellKept hd.wellKept, h.query.entriesNoted hd.entriesNoted, h.consistent hd.consistent⟩

theorem inOrder_ofQuery {schema : Schema} {text : String} {q : Query}
    (h : Query.parse schema text = .ok q) : (ofQuery q).InOrder :=
  ⟨Query.wellKept_of_parse h, Query.entriesNoted_of_parse h, consistent_ofQuery q⟩

theorem InOrder.analyze {d : Draft} (hd : d.InOrder) : d.analyze.InOrder :=
  ⟨hd.wellKept.congr rfl, hd.entriesNoted, consistent_analyze hd.consistent⟩

theorem InOrder.setCounts {d : Draft} (hd : d.InOrder) (limit offset : Option Nat) :
    InOrder { d with query := { d.query with limit, offset } } :=
  ⟨hd.wellKept.congr rfl, hd.entriesNoted, hd.consistent.origins, hd.consistent.answers⟩

theorem InOrder.act {p : Platform} {d : Draft} (hd : d.InOrder) (action : Action) :
    (act p d action).InOrder :=
  act_induction Grows.inOrder inOrder_ofQuery InOrder.analyze InOrder.setCounts hd action

theorem InOrder.actAll {p : Platform} {d : Draft} (hd : d.InOrder) (actions : List Action) :
    (actAll p actions d).InOrder :=
  actAll_induction Grows.inOrder inOrder_ofQuery InOrder.analyze InOrder.setCounts hd actions

/-! ## Answers -/

/-- An answer is an alias of the query. -/
theorem Consistent.mem_of_resolve {d d' : Draft} (hd : d.Consistent) {name component a : String}
    (h : d.resolve name component = (d', .ok a)) : a ∈ d'.query.tableOfAlias.keys := by
  have hgrows := d.grows_resolve name component
  rw [h] at hgrows
  exact (hgrows.consistent hd).answers _ (resolved_of_resolve h)

/-- In every use of an accepted text the records of aliases and base fields are kept, and a condition
on an alias that was answered with reaches the clause of that alias, at once or after more requests. -/
theorem aliases_of_use {p : Platform} {text : String} {q : Query}
    (h : Query.parse p.schema text = .ok q) (actions : List Action) :
    let d := actAll p actions (ofQuery q)
    d.query.WellKept ∧ d.query.EntriesNoted ∧
      ∀ name component d' a, d.resolve name component = (d', .ok a) →
        ∀ (requests : List Request) (condition : String), Text.trim condition ≠ "" →
          let later := serveAll p requests d'
          later.query.Receives (later.attach a condition).query ⟨a, condition⟩ := by
  intro d
  have hd : d.InOrder := (inOrder_ofQuery h).actAll actions
  refine ⟨hd.wellKept, hd.entriesNoted, ?_⟩
  intro name component d' a hresolve requests condition hcondition later
  have hfound := d.grows_resolve name component
  rw [hresolve] at hfound
  have hlater := grows_serveAll p requests d'
  -- The alias is still one of the query when the condition is attached.
  have ha : a ∈ later.query.tableOfAlias.keys := by
    rw [hlater.tableOfAlias]
    exact hd.consistent.mem_of_resolve hresolve
  rw [query_attach]
  exact (hlater.inOrder (hfound.inOrder hd)).wellKept.receives ha hcondition

/-- The query behind the listing of pages and their news. -/
def listingQuery : Query :=
  (Query.parse Catalog.site.toSchema
    "SELECT title, n.body FROM pages INNER JOIN news AS n ON n.pid = pages.uid").toOption.getD {}

/-- The listing, completed by the platform: asked for the news it answers with their alias, and a
condition on the alias reaches the ON clause, also after the statement was built. -/
theorem aliases_of_listingQuery :
    let p := Catalog.site.platform (.atTime 0) {}
    let d := actAll p [.analyze, .addBaseFields, .request (.operation .mechanisms)]
      (ofQuery listingQuery)
    let later := serveAll p [.build] (d.resolve "news" "list").1
    d.query.WellKept ∧ d.query.EntriesNoted ∧ (d.resolve "news" "list").2 = .ok "n" ∧
      later.query.Receives (later.attach "n" "n.uid > 0").query ⟨"n", "n.uid > 0"⟩ := by
  intro p d later
  have hparse : Query.parse p.schema
      "SELECT title, n.body FROM pages INNER JOIN news AS n ON n.pid = pages.uid" =
        .ok listingQuery := by
    decide +kernel
  have hanswer : (d.resolve "news" "list").2 = .ok "n" := by decide +kernel
  have hresolve : d.resolve "news" "list" = ((d.resolve "news" "list").1, .ok "n") := by
    rw [← hanswer]
  have huse := aliases_of_use hparse [.analyze, .addBaseFields, .request (.operation .mechanisms)]
  exact ⟨huse.1, huse.2.1, hanswer,
    huse.2.2 "news" "list" _ "n" hresolve [.build] "n.uid > 0" (by decide)⟩

end Draft
end ContentQuery
