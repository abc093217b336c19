import ContentQuery.Proofs.Query.Bookkeeping

/-!
# The tables that a statement names

A statement names its tables in the list behind FROM and behind the JOIN keywords.  The first of the
list is the main table, every other one is joined under its alias.  A join under an alias that was
used before takes the place of the earlier one, and a join under the alias of the main table is
taken for it.  So every table is kept exactly where all aliases differ.
-/

namespace ContentQuery
namespace Query

/-! ## Named tables -/

/-- The clauses of a statement behind SELECT; a text that is no statement has none. -/
def clausesOf (text : String) : List Segment :=
  match splitStatement text.toList with
  | .ok (_, rest) => Segment.ofText rest
  | .error _ => []

/-- The tables in the list behind FROM. -/
def namedTables (text : String) : List TableRef :=
  (Scan.splitTopLevel ',' (tablesText (clausesOf text))).map TableRef.ofText

/-- The joins of a text in its order: the tables behind the first one of the list, which are inner
joins without a condition, and the JOIN clauses. -/
def namedJoins (text : String) : List Join :=
  (namedTables text).tail.map (.bare .inner) ++ (clausesOf text).filterMap joinOf?

/-! ## Joins in a row -/

theorem aliasRecords_addJoin {q q' : Query} (h : q'.aliasRecords = q.aliasRecords) (join : Join) :
    (q'.addJoin join).aliasRecords = (q.addJoin join).aliasRecords := by
  simp only [aliasRecords, Prod.mk.injEq] at h
  rcases h with ⟨hsource, hmain, hjoins, htables, haliases⟩
  simp only [aliasRecords, addJoin, hsource, hmain, hjoins, htables, haliases]

theorem aliasRecords_foldl_addJoin {q q' : Query} (h : q'.aliasRecords = q.aliasRecords)
    (joins : List Join) :
    (joins.foldl addJoin q').aliasRecords = (joins.foldl addJoin q).aliasRecords := by
  induction joins generalizing q q' with
  | nil => exact h
  | cons join joins ih => exact ih (aliasRecords_addJoin h join)

/-- Joins are added under their aliases, with the tables behind them; of the rest only the list of
aliases changes. -/
theorem exists_foldl_addJoin (joins : List Join) (q₀ : Query) :
    ∃ subtables, joins.foldl addJoin q₀ =
      { q₀ with
        joins := joins.foldl (fun m join => m.insert join.aliasName join) q₀.joins
        tableOfAlias :=
          joins.foldl (fun m join => m.insert join.aliasName join.table) q₀.tableOfAlias
        subtableAliases := subtables } := by
  induction joins generalizing q₀ with
  | nil => exact ⟨q₀.subtableAliases, rfl⟩
  | cons join joins ih => exact ih (q₀.addJoin join)

/-! ## Reading -/

/-- To the aliases and tables of a query a clause adds the join that it names, if it names one. -/
theorem aliasRecords_addClause {q q' : Query} {segment : Segment}
    (h : addClause q segment = .ok q') :
    q'.aliasRecords = ((joinOf? segment).toList.foldl addJoin q).aliasRecords := by
  rcases addClause_cases h with
    ⟨kind, hjoin, h⟩ | ⟨hnone, h | ⟨groupBy, orderBy, orderFields, limit, offset, h⟩⟩
  · rw [h, hjoin]
    rfl
  · rw [h, hnone, addCondition]
    split <;> rfl
  · rw [h, hnone]
    rfl

theorem aliasRecords_clauses {segments : List Segment} {q q' : Query}
    (h : segments.foldlM addClause q = .ok q') :
    q'.aliasRecords = ((segments.filterMap joinOf?).foldl addJoin q).aliasRecords := by
  induction segments generalizing q with
  | nil =>
      cases h
      rfl
  | cons segment segments ih =>
      rw [List.foldlM_cons, bind_eq_ok] at h
      rcases h with ⟨q₁, hone, hrest⟩
      -- The joins of the other clauses are added to the same aliases and tables.
      have hsame := aliasRecords_foldl_addJoin (aliasRecords_addClause hone)
        (segments.filterMap joinOf?)
      rw [ih hrest, hsame, ← List.foldl_append]
      cases hjoin : joinOf? segment <;> simp [hjoin]

/-- The aliases and tables of a query that was read are those of its main table and of the joins
that the text names. -/
theorem aliasRecords_of_parse {schema : Schema} {text : String} {q : Query}
    (h : parse schema text = .ok q) :
    ∃ main, (namedTables text).head? = some main ∧
      q.aliasRecords = ((namedJoins text).foldl addJoin (setMainTable {} main)).aliasRecords := by
  rcases parse_eq_ok_iff.1 h with ⟨list, rest, q₀, q₁, hsplit, htables, hclauses, hlist⟩
  have hsegments : clausesOf text = Segment.ofText rest := by simp only [clausesOf, hsplit]
  have hlisted : q.withoutList.aliasRecords = q₁.withoutList.aliasRecords :=
    congrArg aliasRecords (withoutList_parse hlist)
  unfold ofTables at htables
  split at htables
  · cases htables
  · next main others hnamed =>
      rw [← hsegments] at hnamed hclauses
      cases htables
      have hothers : others.foldl (fun q ref => q.addJoin (.bare .inner ref)) (setMainTable {} main) =
          (others.map (.bare .inner)).foldl addJoin (setMainTable {} main) :=
        List.foldl_map.symm
      refine ⟨main, by rw [namedTables, hnamed, List.head?_cons], ?_⟩
      calc q.aliasRecords
          = q₁.aliasRecords := hlisted
        _ = (((clausesOf text).filterMap joinOf?).foldl addJoin
              ((others.map (.bare .inner)).foldl addJoin (setMainTable {} main))).aliasRecords := by
            rw [aliasRecords_clauses hclauses, hothers]
        _ = ((namedJoins text).foldl addJoin (setMainTable {} main)).aliasRecords := by
            rw [← List.foldl_append, namedJoins, namedTables, hnamed, List.tail_cons]

/-- Which tables of an accepted text are kept.  The joins under one alias are the last of them, at
the place of the first; no join is lost exactly where their aliases differ, and none is taken for the
main table exactly where the alias of that table differs from them. -/
theorem tables_of_parse {schema : Schema} {text : String} {q : Query}
    (h : parse schema text = .ok q) :
    (namedTables text).head? = some q.source ∧
      q.joins = .ofList ((namedJoins text).map fun join => (join.aliasName, join)) ∧
      q.tableOfAlias = .ofList ((q.source.aliasName, q.source.table) ::
        (namedJoins text).map fun join => (join.aliasName, join.table)) ∧
      (q.joins.entries = (namedJoins text).map (fun join => (join.aliasName, join)) ↔
        ((namedJoins text).map (·.aliasName)).Nodup) ∧
      ((∀ a ∈ q.joins.keys, q.isMainAlias a = false) ↔
        q.source.aliasName ∉ (namedJoins text).map (·.aliasName)) ∧
      (q.source.aliasName ∉ (namedJoins text).map (·.aliasName) → q.mainTable = q.source.table) := by
  rcases aliasRecords_of_parse h with ⟨main, hmain, hrecords⟩
  rcases exists_foldl_addJoin (namedJoins text) (setMainTable {} main) with ⟨subtables, hfold⟩
  rw [hfold] at hrecords
  simp only [aliasRecords, Prod.mk.injEq] at hrecords
  rcases hrecords with ⟨hsource, hself, hjoins, htables, -⟩
  have hjoins' : q.joins = .ofList ((namedJoins text).map fun join => (join.aliasName, join)) := by
    rw [hjoins, OrderedMap.ofList, List.foldl_map]
    rfl
  have hkeys : ∀ a, a ∈ q.joins.keys ↔ a ∈ (namedJoins text).map (·.aliasName) := by
    intro a
    rw [hjoins', OrderedMap.mem_keys_ofList, List.map_map]
    rfl
  have hkept := wellKept_of_parse h
  refine ⟨hsource ▸ hmain, hjoins', ?_, ?_, ?_, ?_⟩
  · rw [htables, hsource, OrderedMap.ofList, List.foldl_cons, List.foldl_map]
    rfl
  · rw [hjoins', OrderedMap.entries_ofList_iff, List.map_map]
    rfl
  · simp only [isMainAlias, beq_eq_false_iff_ne, hkept.main, hkeys]
    exact ⟨fun hall hmem => hall _ hmem rfl, fun hnew a ha heq => hnew (heq ▸ ha)⟩
  · intro hnew
    rw [← hkeys, ← hkept.main] at hnew
    rw [mainTable, hkept.mainTable hnew, Option.getD_some]

/-- Pages with the news and the content elements on them. -/
def overview : String :=
  "SELECT title FROM pages, news AS n LEFT JOIN content AS c ON c.pid = pages.uid"

theorem tables_of_overview :
    ∃ q, parse .empty overview = .ok q ∧
      (namedJoins overview).map (·.aliasName) = ["n", "c"] ∧
      q.joins.entries = (namedJoins overview).map (fun join => (join.aliasName, join)) ∧
      (∀ a ∈ q.joins.keys, q.isMainAlias a = false) ∧ q.mainTable = q.source.table := by
  have hmain : (parse .empty overview).toOption.map (·.source.aliasName) = some "pages" := by
    decide +kernel
  have hjoins : (namedJoins overview).map (·.aliasName) = ["n", "c"] := by decide +kernel
  cases hparse : parse .empty overview with
  | error e => simp [hparse, Except.toOption] at hmain
  | ok q =>
      rw [hparse, Except.toOption, Option.map_some, Option.some.injEq] at hmain
      have h := tables_of_parse hparse
      rw [hjoins, hmain] at h
      have hdistinct := h.2.2.2
      exact ⟨q, rfl, hjoins, hdistinct.1.2 (by decide), hdistinct.2.1.2 (by decide),
        hdistinct.2.2 (by decide)⟩

/-- Of two tables under one alias the first is lost, without a complaint. -/
theorem repeatedAlias_loses_table :
    let text := "SELECT title FROM pages, news AS x, content AS x"
    (namedTables text).map (·.table) = ["pages", "news", "content"] ∧
      (parse .empty text).toOption.map (·.joins.entries) =
        some [("x", .bare .inner ⟨"content", "x"⟩)] := by
  decide +kernel

/-- A join under the alias of the main table takes its name. -/
example :
    (parse .empty "SELECT title FROM pages, news AS pages").toOption.map
        (fun q => (q.mainTable, q.source.table)) = some ("news", "pages") := by
  decide +kernel

end Query
end ContentQuery
