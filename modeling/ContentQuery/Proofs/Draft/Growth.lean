import ContentQuery.Proofs.Draft.Steps

/-!
# Nothing is lost

Whatever is asked of a draft after reading, what its query held before is still there: conditions,
final SELECT entries, orderings and diagnostics are only added to at the end, an ON text is only
continued, and the rest of the query stays.

The relation is on drafts as they are and does not ask where a draft comes from, so it holds along
every run.
-/

namespace ContentQuery

/-! ## Growing joins -/

namespace Join

/-- The join, with its ON text continued. -/
structure Grows (join join' : Join) : Prop where
  kind : join'.kind = join.kind
  table : join'.table = join.table
  aliasName : join'.aliasName = join.aliasName
  rowLimit : join'.rowLimit = join.rowLimit
  on : join.on.toList <+: join'.on.toList

theorem Grows.refl (join : Join) : join.Grows join :=
  ⟨rfl, rfl, rfl, rfl, List.prefix_rfl⟩

theorem Grows.trans {a b c : Join} (h : a.Grows b) (h' : b.Grows c) : a.Grows c where
  kind := h'.kind.trans h.kind
  table := h'.table.trans h.table
  aliasName := h'.aliasName.trans h.aliasName
  rowLimit := h'.rowLimit.trans h.rowLimit
  on := h.on.trans h'.on

theorem prefix_conjoin (on condition : String) : on.toList <+: (conjoin on condition).toList := by
  unfold conjoin
  by_cases hempty : on.isEmpty = true
  · have hon : on = "" := by simpa using hempty
    simp [hon]
  · rw [if_neg hempty]
    simp only [String.toList_append, List.append_assoc]
    exact List.prefix_append _ _

theorem grows_restrict (join : Join) (condition : String) :
    join.Grows (join.restrict [condition]) :=
  ⟨rfl, rfl, rfl, rfl, prefix_conjoin join.on condition⟩

end Join

/-! ## Growing queries -/

namespace Query

/-- The query without the parts that may grow. -/
def fixed (q : Query) : Query :=
  { q with
    conditions := [], joins := ∅, selectList := [], orderBy := [], orderFields := [],
    placeholders := ∅ }

/-- Nothing of the query is lost in `q'`. -/
structure Grows (q q' : Query) : Prop where
  conditions : q.conditions <+: q'.conditions
  selectList : q.selectList <+: q'.selectList
  orderBy : q.orderBy <+: q'.orderBy
  orderFields : q.orderFields.length ≤ q'.orderFields.length
  /-- The joins keep their aliases and the order of them. -/
  joinKeys : q'.joins.keys = q.joins.keys
  joins : ∀ a join, q.joins.get? a = some join →
    ∃ join', q'.joins.get? a = some join' ∧ join.Grows join'
  placeholders : q'.placeholders.keys = q.placeholders.keys
  /-- Everything else is as it was. -/
  fixed : q'.fixed = q.fixed

theorem Grows.refl (q : Query) : q.Grows q where
  conditions := List.prefix_rfl
  selectList := List.prefix_rfl
  orderBy := List.prefix_rfl
  orderFields := Nat.le_refl _
  joinKeys := rfl
  joins := fun _ join h => ⟨join, h, .refl join⟩
  placeholders := rfl
  fixed := rfl

theorem Grows.trans {a b c : Query} (h : a.Grows b) (h' : b.Grows c) : a.Grows c where
  conditions := h.conditions.trans h'.conditions
  selectList := h.selectList.trans h'.selectList
  orderBy := h.orderBy.trans h'.orderBy
  orderFields := Nat.le_trans h.orderFields h'.orderFields
  joinKeys := h'.joinKeys.trans h.joinKeys
  joins := by
    intro name join hjoin
    rcases h.joins name join hjoin with ⟨join', hjoin', hgrows⟩
    rcases h'.joins name join' hjoin' with ⟨join'', hjoin'', hgrows'⟩
    exact ⟨join'', hjoin'', hgrows.trans hgrows'⟩
  placeholders := h'.placeholders.trans h.placeholders
  fixed := h'.fixed.trans h.fixed

/-- Whatever does not depend on the growing parts of a query is kept. -/
theorem Grows.kept {α : Type} {q q' : Query} (h : q.Grows q') (r : Query → α)
    (hr : ∀ q : Query, r q.fixed = r q) : r q' = r q :=
  calc r q'
      = r q'.fixed := (hr q').symm
    _ = r q.fixed := by rw [h.fixed]
    _ = r q := hr q

/-- A join of a query that has grown was there before. -/
theorem Grows.exists_join {q q' : Query} (h : q.Grows q') {a : String} {join' : Join}
    (hjoin' : q'.joins.get? a = some join') :
    ∃ join, q.joins.get? a = some join ∧ join.Grows join' := by
  have ha : a ∈ q.joins.keys :=
    h.joinKeys ▸ OrderedMap.mem_keys_of_mem (OrderedMap.get?_eq_some_iff.1 hjoin')
  rcases OrderedMap.exists_of_mem_keys ha with ⟨join, hmem⟩
  have hjoin := OrderedMap.get?_eq_some_iff.2 hmem
  rcases h.joins a join hjoin with ⟨join'', hjoin'', hgrows⟩
  rw [hjoin', Option.some.injEq] at hjoin''
  subst hjoin''
  exact ⟨join, hjoin, hgrows⟩

theorem grows_addCondition (q : Query) (text : String) : q.Grows (q.addCondition text) := by
  unfold addCondition
  simp only
  split
  · exact .refl q
  · exact { Grows.refl q with conditions := List.prefix_append _ _ }

theorem grows_attach (q : Query) (t : Attachment) : q.Grows (q.attach t) := by
  rw [attach_eq]
  split
  · exact .refl q
  · split
    · exact { Grows.refl q with conditions := List.prefix_append _ _ }
    · split
      · refine { Grows.refl q with joinKeys := OrderedMap.keys_modify _ _ _, joins := ?_ }
        -- The join under the alias gets the condition, and any other one stays.
        intro a join hjoin
        rw [OrderedMap.get?_modify]
        by_cases ha : a = t.aliasName
        · rw [if_pos ha, hjoin]
          exact ⟨_, rfl, join.grows_restrict _⟩
        · rw [if_neg ha]
          exact ⟨join, hjoin, .refl join⟩
      · exact .refl q

end Query

namespace Draft

/-! ## Growing drafts -/

/-- Nothing of the draft's query and no diagnostic is lost in `d'`, nor an answer on an alias or a
selected field. -/
structure Grows (d d' : Draft) : Prop where
  query : d.query.Grows d'.query
  diagnostics : d.diagnostics <+: d'.diagnostics
  /-- New answers are aliases of the query. -/
  resolved : ∃ found, d'.resolved.entries = d.resolved.entries ++ found ∧
    ∀ e ∈ found, e.2 ∈ d.query.tableOfAlias.keys
  fields : ∀ a name, d.hasField a name = true → d'.hasField a name = true
  /-- New result columns come from selected fields. -/
  origins : ∀ e ∈ d'.origins.entries,
    e ∈ d.origins.entries ∨ d'.hasField e.2.tableAlias e.2.field = true

/-- What a draft holds beside its query and the overlays. -/
def records (d : Draft) :
    List Diagnostic × OrderedMap String String × OrderedMap String DraftTable ×
      OrderedMap String FieldOrigin :=
  (d.diagnostics, d.resolved, d.tables, d.origins)

/-- A step that keeps these records is judged by the query alone. -/
theorem Grows.of_query {d d' : Draft} (hquery : d.query.Grows d'.query)
    (hrecords : d'.records = d.records) : d.Grows d' := by
  simp only [records, Prod.mk.injEq] at hrecords
  rcases hrecords with ⟨hdiagnostics, hresolved, htables, horigins⟩
  refine ⟨hquery, hdiagnostics ▸ List.prefix_rfl, ⟨[], ?_, by simp⟩, ?_, ?_⟩
  · rw [hresolved, List.append_nil]
  · intro a name h
    rwa [hasField, htables]
  · rw [horigins]
    exact fun e he => .inl he

theorem Grows.refl (d : Draft) : d.Grows d :=
  .of_query (.refl d.query) rfl

theorem Grows.tableOfAlias {d d' : Draft} (h : d.Grows d') :
    d'.query.tableOfAlias = d.query.tableOfAlias :=
  h.query.kept Query.tableOfAlias fun _ => rfl

theorem Grows.trans {a b c : Draft} (h : a.Grows b) (h' : b.Grows c) : a.Grows c := by
  rcases h.resolved with ⟨found, hfound, haliases⟩
  rcases h'.resolved with ⟨found', hfound', haliases'⟩
  refine ⟨h.query.trans h'.query, h.diagnostics.trans h'.diagnostics, ⟨found ++ found', ?_, ?_⟩,
    fun a name hname => h'.fields a name (h.fields a name hname), ?_⟩
  · rw [hfound', hfound, List.append_assoc]
  · intro e he
    rcases List.mem_append.1 he with he | he
    · exact haliases e he
    · rw [← h.tableOfAlias]
      exact haliases' e he
  · intro e he
    rcases h'.origins e he with he | he
    · rcases h.origins e he with he | he
      · exact .inl he
      · exact .inr (h'.fields _ _ he)
    · exact .inr he

theorem Grows.set_query {d : Draft} {q : Query} (h : d.query.Grows q) :
    d.Grows { d with query := q } :=
  .of_query h rfl

theorem grows_foldl {α : Type} {f : Draft → α → Draft} (hstep : ∀ (d : Draft) x, d.Grows (f d x))
    (xs : List α) (d : Draft) : d.Grows (xs.foldl f d) := by
  induction xs generalizing d with
  | nil => exact .refl d
  | cons x xs ih => exact (hstep d x).trans (ih (f d x))

/-! ## Single steps -/

theorem grows_warn (d : Draft) (title message : String) : d.Grows (d.warn title message) :=
  { Grows.refl d with diagnostics := List.prefix_append _ _ }

theorem grows_notify (d : Draft) (title message : String) : d.Grows (d.notify title message) :=
  { Grows.refl d with diagnostics := List.prefix_append _ _ }

theorem grows_attach (d : Draft) (a condition : String) : d.Grows (d.attach a condition) := by
  have hquery := d.query.grows_attach ⟨a, condition⟩
  rw [← query_attach] at hquery
  apply Grows.of_query hquery
  rw [attach_eq]
  rfl

theorem hasField_noteField (d : Draft) (table a : String) (field : DraftField) (b name : String) :
    (d.noteField table a field).hasField b name = true ↔
      d.hasField b name = true ∨ b = a ∧ field.name = name := by
  unfold hasField noteField
  rw [OrderedMap.get?_upsert]
  by_cases hb : b = a
  · subst hb
    cases hold : d.tables.get? b <;> simp [DraftTable.hasField]
  · simp [hb]

/-- A field is noted, and a result column that comes from it. -/
theorem grows_noteColumn (d : Draft) (table : String) (field : DraftField) (column : String)
    (origin : FieldOrigin) (hfield : origin.field = field.name) :
    d.Grows { d.noteField table origin.tableAlias field with
      origins := d.origins.insert column origin } := by
  have hnoted := d.hasField_noteField table origin.tableAlias field
  refine { Grows.refl d with fields := ?_, origins := ?_ }
  · exact fun b name h => (hnoted b name).2 (.inl h)
  · intro e he
    rcases OrderedMap.mem_entries_insert he with he | rfl
    · exact .inl he
    · exact .inr ((hnoted _ _).2 (.inr ⟨rfl, hfield.symm⟩))

theorem grows_select (d : Draft) (table a field column : String) :
    d.Grows (d.select table a field column) := by
  generalize hlist : d.query.selectList ++ [if field = column then a ++ "." ++ field
    else a ++ "." ++ field ++ " AS " ++ column] = list
  have hprefix : d.query.selectList <+: list := hlist ▸ List.prefix_append _ _
  have hquery : d.Grows { d with query := { d.query with selectList := list } } :=
    .set_query { Query.Grows.refl d.query with selectList := hprefix }
  have hcolumn := grows_noteColumn { d with query := { d.query with selectList := list } } table
    { name := field, isCall := false } column (.plain table a field) rfl
  subst hlist
  exact hquery.trans hcolumn

theorem grows_setOverlay (d : Draft) (table : String) (needed : Bool) :
    d.Grows (d.setOverlay table needed) :=
  .of_query (.refl d.query) rfl

theorem grows_setVersionOverlay (d : Draft) (table : String) (needed : Bool) :
    d.Grows (d.setVersionOverlay table needed) :=
  .of_query (.refl d.query) rfl

/-- A name that was not asked for before is answered with an alias of the query. -/
theorem grows_resolve (d : Draft) (name component : String) :
    d.Grows (d.resolve name component).1 := by
  have hadded : d.resolved.get? name = none → ∀ a ∈ d.query.tableOfAlias.keys,
      ∃ found, (d.resolved.insert name a).entries = d.resolved.entries ++ found ∧
        ∀ e ∈ found, e.2 ∈ d.query.tableOfAlias.keys := by
    intro hnew a ha
    have hentries := OrderedMap.entries_insert_of_not_mem (v := a)
      (OrderedMap.get?_eq_none_iff.1 hnew)
    refine ⟨_, hentries, ?_⟩
    simpa using ha
  -- Known already, an alias itself, unknown, or the table of an alias: the second and the last
  -- record an answer.
  rcases d.resolve_cases name component with
    ⟨a, _, h⟩ | ⟨hnew, hname, h⟩ | ⟨_, _, _, h⟩ | ⟨a, hnew, _, htable, h⟩ <;> rw [h]
  · exact .refl d
  · exact { Grows.refl d with resolved := hadded hnew name hname }
  · exact .refl d
  · rcases Option.map_eq_some_iff.1 htable with ⟨e, hfound, rfl⟩
    have hmem : e.1 ∈ d.query.tableOfAlias.keys :=
      List.mem_map.2 ⟨e, List.mem_of_find?_eq_some hfound, rfl⟩
    exact { Grows.refl d with
      diagnostics := List.prefix_append _ _
      resolved := hadded hnew e.1 hmem }

/-- An answer is remembered. -/
theorem resolved_of_resolve {d d' : Draft} {name component a : String}
    (h : d.resolve name component = (d', .ok a)) : (name, a) ∈ d'.resolved.entries := by
  have hadded : ∀ b, (name, b) ∈ (d.resolved.insert name b).entries := fun b =>
    OrderedMap.get?_eq_some_iff.1 (by simp [OrderedMap.get?_insert])
  rcases d.resolve_cases name component with
    ⟨b, hknown, hb⟩ | ⟨_, _, hb⟩ | ⟨_, _, _, hb⟩ | ⟨b, _, _, _, hb⟩ <;> cases hb.symm.trans h
  · exact OrderedMap.get?_eq_some_iff.1 hknown
  · exact hadded name
  · exact hadded a

theorem grows_fillPlaceholder (d : Draft) (target : ConditionTarget) (text : String) :
    d.Grows (d.fillPlaceholder target text) := by
  unfold fillPlaceholder
  split
  · exact .of_query
      { Query.Grows.refl d.query with placeholders := OrderedMap.keys_modify _ _ _ } rfl
  · exact .refl d

/-! ## Requests -/

theorem RuleStep.grows {d d' : Draft} (h : RuleStep d d') : d.Grows d' := by
  cases h with
  | attach a condition => exact d.grows_attach a condition
  | warn title message => exact d.grows_warn title message
  | setOverlay table needed => exact d.grows_setOverlay table needed
  | setVersionOverlay table needed => exact d.grows_setVersionOverlay table needed
  | selectExtra table a field _ => exact d.grows_select table a field _

theorem Step.grows {d d' : Draft} (h : Step d d') : d.Grows d' := by
  cases h with
  | rule h => exact h.grows
  | notify title message => exact d.grows_notify title message
  | resolve name component => exact d.grows_resolve name component
  | fillPlaceholder target text => exact d.grows_fillPlaceholder target text
  | addCondition text => exact .set_query (d.query.grows_addCondition text)
  | addOrder texts fields =>
      exact .set_query { Query.Grows.refl d.query with
        orderBy := List.prefix_append _ _
        orderFields := by simp }
  | setOrderFields fields hlength =>
      exact .set_query { Query.Grows.refl d.query with orderFields := Nat.le_of_eq hlength.symm }
  | selectForSorting c => exact d.grows_select c.table c.aliasName c.field _
  | setSorting inDatabase => exact .of_query (.refl d.query) rfl

theorem Steps.grows {d d' : Draft} (h : Steps d d') : d.Grows d' := by
  induction h with
  | refl => exact .refl d
  | tail _ hstep ih => exact ih.trans hstep.grows

theorem Steps.mainAlias {d d' : Draft} (h : Steps d d') : d'.query.mainAlias = d.query.mainAlias :=
  h.grows.query.kept Query.mainAlias fun _ => rfl

theorem Steps.tableOf {d d' : Draft} (h : Steps d d') : d'.query.tableOf = d.query.tableOf :=
  h.grows.query.kept Query.tableOf fun _ => rfl

theorem Steps.distinct {d d' : Draft} (h : Steps d d') : d'.query.distinct = d.query.distinct :=
  h.grows.query.kept Query.distinct fun _ => rfl

theorem grows_decideOrdering (p : Platform) (d : Draft) : d.Grows (d.decideOrdering p) :=
  (steps_decideOrdering p d).grows

theorem grows_serve (p : Platform) (d : Draft) (request : Request) : d.Grows (serve p d request) :=
  (steps_serve p d request).grows

/-- No run of requests loses anything that the query held or a diagnostic. -/
theorem grows_serveAll (p : Platform) (requests : List Request) (d : Draft) :
    d.Grows (serveAll p requests d) :=
  (steps_serveAll p requests d).grows

end Draft
end ContentQuery
