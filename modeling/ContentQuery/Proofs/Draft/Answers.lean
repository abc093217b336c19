import ContentQuery.Proofs.Draft.Filters
import ContentQuery.Proofs.Draft.History
import ContentQuery.Proofs.Query.Selections

/-!
# Answers that are remembered

A draft remembers the alias that it answered a name with.  What it remembers is what its query says,
so it answers as if it had never been asked before.  Only a warning tells the first time from a later
one: a name of a table, not of an alias, is warned about once from each text that is read on.

The invariant is `Remembers`: the names that were asked for, with the answers of the query.  `Asks`
says which names a step adds to them.
-/

namespace ContentQuery

/-- The alias that a name stands for: the name itself, or else the first alias of a table of that
name. -/
def Query.aliasFor? (q : Query) (name : String) : Option String :=
  if name ∈ q.tableOfAlias.keys then some name
  else (q.tableOfAlias.entries.find? fun e => e.2 == name).map Prod.fst

namespace Draft

/-! ## What is remembered -/

/-- What a draft remembers are the answers of its query to some names. -/
def Remembers (d : Draft) (names : List String) : Prop :=
  ∀ name, d.resolved.get? name = if name ∈ names then d.query.aliasFor? name else none

variable {d d' d'' : Draft} {names names' : List String} {name : String}

theorem remembers_of_clear (h : d.resolved = ∅) : d.Remembers [] := by
  intro name
  rw [h, OrderedMap.get?_empty, if_neg List.not_mem_nil]

/-- Nothing that is remembered changes an answer. -/
theorem Remembers.answer?_eq (h : d.Remembers names) (name : String) :
    d.answer? name = d.query.aliasFor? name := by
  have hfresh : (if d.query.tableOfAlias.contains name then some name
      else aliasOfTable? d.query name) = d.query.aliasFor? name := by
    simp only [Query.aliasFor?, aliasOfTable?, OrderedMap.contains_iff]
  rw [answer?, hfresh, h name]
  split
  · exact Option.or_self
  · exact Option.none_or

/-- The warning about a name that is not an alias. -/
def doubt (name component : String) : Diagnostic where
  severity := .warning
  title := "Unreliable alias match"
  message := "Potentially unreliable match of table " ++ name ++ " from component " ++ component

/-- The warnings that an answer comes with, by the names that were asked for before. -/
def doubts (q : Query) (names : List String) (name component : String) : List Diagnostic :=
  if name ∈ q.tableOfAlias.keys ∨ name ∈ names then [] else [doubt name component]

theorem doubts_of_known {q : Query} (h : name ∈ q.tableOfAlias.keys ∨ name ∈ names)
    (component : String) : doubts q names name component = [] :=
  if_pos h

theorem doubts_of_new {q : Query} (halias : name ∉ q.tableOfAlias.keys) (hnew : name ∉ names)
    (component : String) : doubts q names name component = [doubt name component] :=
  if_neg (not_or.2 ⟨halias, hnew⟩)

/-- A draft that remembers answers gives those of its query. -/
theorem Remembers.resolve_eq (h : d.Remembers names) (name component : String) :
    d.resolve name component =
      match d.query.aliasFor? name with
      | none => (d, .error (.unknownTable name component))
      | some a =>
          ({ d with
              resolved := d.resolved.insert name a
              diagnostics := d.diagnostics ++ doubts d.query names name component }, .ok a) := by
  cases hfound : d.query.aliasFor? name with
  | none => exact resolve_of_none ((h.answer?_eq name).trans hfound) component
  | some a =>
      by_cases hknown : name ∈ names
      · -- The answer was given before; written down once more, it stays where it is.
        have hget : d.resolved.get? name = some a := by
          rw [h name, if_pos hknown, hfound]
        simp only [resolve, hget, OrderedMap.insert_of_get? hget, doubts_of_known (.inr hknown),
          List.append_nil]
      · have hget : d.resolved.get? name = none := by
          rw [h name, if_neg hknown]
        by_cases halias : name ∈ d.query.tableOfAlias.keys
        · obtain rfl : name = a := by
            rwa [Query.aliasFor?, if_pos halias, Option.some.injEq] at hfound
          simp only [resolve, hget, OrderedMap.contains_iff.2 halias, if_true,
            doubts_of_known (.inl halias), List.append_nil]
        · have hother : ¬ d.query.tableOfAlias.contains name = true :=
            mt OrderedMap.contains_iff.1 halias
          have htable : aliasOfTable? d.query name = some a := by
            rwa [Query.aliasFor?, if_neg halias] at hfound
          simp only [resolve, hget, if_neg hother, htable, doubts_of_new halias hknown]
          rfl

/-! ## Steps that ask -/

/-- From `d` to `d'` some names are asked for. -/
def Asks (d d' : Draft) (names : List String) : Prop :=
  ∀ before, d.Remembers before → d'.Remembers (before ++ names)

theorem Asks.trans (h : Asks d d' names) (h' : Asks d' d'' names') :
    Asks d d'' (names ++ names') := by
  intro before hbefore
  have hafter := h' _ (h before hbefore)
  rwa [List.append_assoc] at hafter

/-- A step that neither reads nor writes an answer. -/
theorem Asks.of_kept (hresolved : d'.resolved = d.resolved)
    (htables : d'.query.tableOfAlias = d.query.tableOfAlias) : Asks d d' [] := by
  intro before hbefore name
  rw [hresolved, hbefore name, List.append_nil, Query.aliasFor?, Query.aliasFor?, htables]

theorem Asks.refl (d : Draft) : Asks d d [] :=
  .of_kept rfl rfl

theorem Asks.of_grows (h : d.Grows d') (hresolved : d'.resolved = d.resolved) : Asks d d' [] :=
  .of_kept hresolved h.tableOfAlias

/-- A name that has an answer is remembered with it; one that has none is remembered with none. -/
theorem asks_resolve (d : Draft) (name component : String) :
    Asks d (d.resolve name component).1 [name] := by
  intro before hbefore other
  rw [hbefore.resolve_eq]
  cases hfound : d.query.aliasFor? name with
  | none =>
      rw [hbefore other]
      by_cases hother : other = name
      · simp [hother, hfound]
      · simp [hother]
  | some a =>
      by_cases hother : other = name
      · simp [hother, OrderedMap.get?_insert, hfound]
      · simp [hother, OrderedMap.get?_insert, hbefore other]

/-- What a filter asks for depends on the main alias alone, which none of its steps changes. -/
theorem FilterSteps.mainAlias (h : FilterSteps d d') : d'.query.mainAlias = d.query.mainAlias :=
  h.steps.mainAlias

/-- A fold whose turns ask for what the main alias decides. -/
theorem asks_foldl {α σ : Type} {f : σ → α → σ} (draft : σ → Draft)
    (part : Query → α → List String)
    (hpart : ∀ {q q' : Query}, q'.mainAlias = q.mainAlias → part q' = part q)
    (hsteps : ∀ s x, FilterSteps (draft s) (draft (f s x)))
    (hturn : ∀ s x, Asks (draft s) (draft (f s x)) (part (draft s).query x)) (xs : List α) (s : σ) :
    Asks (draft s) (draft (xs.foldl f s)) (xs.flatMap (part (draft s).query)) := by
  induction xs generalizing s with
  | nil => exact .refl _
  | cons x xs ih =>
      -- The main alias stays, so the names of the later turns are known before the first one.
      have hrest := ih (f s x)
      rw [hpart (hsteps s x).mainAlias] at hrest
      exact (hturn s x).trans hrest

/-! ### Steps that keep what is remembered -/

@[simp] theorem resolved_attach (d : Draft) (a condition : String) :
    (d.attach a condition).resolved = d.resolved := by
  rw [attach_eq]

@[simp] theorem resolved_fillPlaceholder (d : Draft) (target : ConditionTarget) (text : String) :
    (d.fillPlaceholder target text).resolved = d.resolved := by
  unfold fillPlaceholder
  split <;> rfl

theorem resolved_addGroupCondition (p : Platform) (target : ConditionTarget)
    (state : Draft × String) (c : Condition) :
    (addGroupCondition p target state c).1.resolved = state.1.resolved := by
  rcases addGroupCondition_cases p target state c with h | ⟨_, h⟩ | ⟨_, h⟩ <;> rw [h]
  · rfl
  · exact resolved_fillPlaceholder _ _ _

theorem RuleStep.resolved_eq {d d' : Draft} (h : RuleStep d d') : d'.resolved = d.resolved := by
  cases h with
  | attach a condition => exact d.resolved_attach a condition
  | warn | setOverlay | setVersionOverlay | selectExtra => rfl

theorem RuleSteps.resolved_eq {d d' : Draft} (h : RuleSteps d d') : d'.resolved = d.resolved := by
  induction h with
  | refl => rfl
  | tail _ hstep ih => exact hstep.resolved_eq.trans ih

theorem resolved_decideOrdering (p : Platform) (d : Draft) :
    (d.decideOrdering p).resolved = d.resolved := by
  let selectOne (d : Draft) (c : SortColumn) : Draft :=
    d.select c.table c.aliasName c.field (c.aliasName ++ "$" ++ c.field)
  have hselected : ∀ (columns : List SortColumn) (d : Draft),
      (columns.foldl selectOne d).resolved = d.resolved :=
    foldl_kept Draft.resolved (f := selectOne) fun _ _ => rfl
  unfold decideOrdering
  simp only
  split
  · rfl
  · split
    · exact hselected _ _
    · rfl

theorem resolved_analyze (d : Draft) : d.analyze.resolved = d.resolved :=
  foldl_kept Draft.resolved (f := analyzeField) (fun _ _ => rfl) d.query.select d

theorem resolved_addBaseFields (p : Platform) (d : Draft) :
    (addBaseFields p d).resolved = d.resolved := by
  have hfield : ∀ a field present (d : Draft),
      (addBaseField p a field present d).resolved = d.resolved := by
    intro a field present d
    unfold addBaseField
    simp only
    split <;> rfl
  exact foldl_kept Draft.resolved (fun d e => by rw [hfield, hfield]) _ d

/-! ### Filters -/

/-- The names that a group of a filter asks for. -/
def groupNames (q : Query) (g : FilterGroup) : List String :=
  if g.void then [] else [filterTable q g.table]

/-- The names that an ordering of a filter asks for. -/
def orderNames (q : Query) (order : FilterOrder) : List String :=
  if order.isRandom then [] else [filterTable q order.table]

theorem groupNames_congr {q q' : Query} (h : q'.mainAlias = q.mainAlias) :
    groupNames q' = groupNames q := by
  funext g
  simp only [groupNames, filterTable, h]

theorem orderNames_congr {q q' : Query} (h : q'.mainAlias = q.mainAlias) :
    orderNames q' = orderNames q := by
  funext order
  simp only [orderNames, filterTable, h]

theorem asks_addGroup (p : Platform) (state : Draft × Collected) (item : FilterGroup × Nat) :
    Asks state.1 (addGroup p state item).1 (groupNames state.1.query item.1) := by
  rcases state with ⟨d, collected⟩
  rcases item with ⟨g, index⟩
  simp only [groupNames]
  have hasked := d.asks_resolve (filterTable d.query g.table) (groupComponent index g)
  cases halias : d.groupAlias? g with
  | none =>
      rw [addGroup_of_none p halias]
      cases hvoid : g.void with
      | true => exact .refl d
      | false =>
          rw [resolve_of_none (answer?_of_groupAlias? halias hvoid)] at hasked
          exact hasked.trans (.of_kept rfl rfl)
  | some a =>
      have hvoid := (groupAlias?_eq_some_iff.1 halias).1
      rw [addGroup_of_known p halias, hvoid]
      -- The conditions of the group come after the question, and ask for nothing.
      refine hasked.trans (.of_grows ?_ ?_)
      · exact (FilterSteps.steps (reflTransGen_foldl Prod.fst
          (filterSteps_addGroupCondition p _) g.conditions (_, ""))).grows
      · exact foldl_kept (fun s : Draft × String => s.1.resolved)
          (resolved_addGroupCondition p _) g.conditions (_, "")

theorem asks_addFilterOrder (d : Draft) (order : FilterOrder) :
    Asks d (addFilterOrder d order) (orderNames d.query order) := by
  unfold addFilterOrder orderNames
  split
  · exact .of_kept rfl rfl
  · have hasked := d.asks_resolve (filterTable d.query order.table)
      ("Order clause - " ++ filterTable d.query order.table ++ " - " ++ order.field ++ " - " ++
        order.direction)
    simp only
    split
    · next heq =>
        rw [heq] at hasked
        exact hasked.trans (.of_kept rfl rfl)
    · next heq =>
        rw [heq] at hasked
        exact hasked.trans (.of_kept rfl rfl)

/-- Conditions are attached without a question. -/
theorem asks_foldl_attach {α : Type} (f : α → Attachment) (xs : List α) (d : Draft) :
    Asks d (xs.foldl (fun d x => d.attach (f x).aliasName (f x).condition) d) [] := by
  let attachOne (d : Draft) (x : α) : Draft := d.attach (f x).aliasName (f x).condition
  have hgrows : d.Grows (xs.foldl attachOne d) :=
    grows_foldl (fun d x => d.grows_attach (f x).aliasName (f x).condition) xs d
  have hkept : (xs.foldl attachOne d).resolved = d.resolved :=
    foldl_kept Draft.resolved (f := attachOne) (fun d x => d.resolved_attach _ _) xs d
  exact .of_grows hgrows hkept

/-- The names that a filter asks for: those of its groups, then those of its orderings. -/
def filterNames (q : Query) (filter : Filter) : List String :=
  filter.groups.flatMap (groupNames q) ++ filter.orders.flatMap (orderNames q)

/-- The conditions of a filter ask for the names of its groups. -/
theorem asks_addConditions (p : Platform) (d : Draft) (filter : Filter) :
    Asks d (d.addConditions p filter) (filter.groups.flatMap (groupNames d.query)) := by
  have hgroups := asks_foldl Prod.fst (fun q item => groupNames q item.1)
    (fun h => by rw [groupNames_congr h]) (filterSteps_addGroup p) (asks_addGroup p)
    filter.groups.zipIdx (d, ∅)
  rw [flatMap_zipIdx] at hgroups
  generalize hstate : filter.groups.zipIdx.foldl (addGroup p) (d, ∅) = state at hgroups
  -- Only the groups ask for tables; attaching what they collected and the raw text do not.
  have hattached : Asks state.1 (attachCollected filter state) [] :=
    asks_foldl_attach (fun e : String × List String =>
      ⟨e.1, Text.join (" " ++ filter.operator.word ++ " ") e.2⟩) state.2.entries state.1
  have hraw : Asks (attachCollected filter state) (d.addConditions p filter) [] := by
    rw [addConditions, hstate]
    exact .of_grows (.set_query (Query.grows_addCondition _ filter.rawSql)) rfl
  have hall := (hgroups.trans hattached).trans hraw
  rwa [List.append_nil, List.append_nil] at hall

theorem asks_addFilter (p : Platform) (filter : Filter) (d : Draft) :
    Asks d (d.addFilter p filter) (filterNames d.query filter) := by
  have hmain : (d.addConditions p filter).query.mainAlias = d.query.mainAlias :=
    (sameNames_addConditions p d filter).of_fixed Query.mainAlias fun _ => rfl
  have horders := asks_foldl id orderNames orderNames_congr filterSteps_addFilterOrder
    asks_addFilterOrder filter.orders (d.addConditions p filter)
  simp only [id, orderNames_congr hmain] at horders
  rw [addFilter_eq]
  exact (asks_addConditions p d filter).trans horders

/-! ### Id lists -/

/-- The name that an item of an id list asks for. -/
def itemNames (item : String) : List String :=
  match splitItem item with
  | (some table, uid) => if (Text.word? uid).isSome then [table] else []
  | (none, _) => []

theorem asks_addItem (state : Draft × CollectedIds) (item : String) :
    Asks state.1 (addItem state item).1 (itemNames item) := by
  rcases state with ⟨d, ids⟩
  unfold addItem itemNames
  rcases splitItem item with ⟨table?, uid⟩
  cases hword : Text.word? uid with
  | none =>
      have hnone : Asks d (d.notify "Id ignored"
          ("An item from the id list is not a valid uid: " ++ item)) [] := .of_kept rfl rfl
      cases table? <;> simpa [hword] using hnone
  | some n =>
      cases table? with
      | none => simpa [hword] using Asks.refl d
      | some table =>
          have hasked := d.asks_resolve table ("Id list - " ++ item)
          simp only [hword, Option.isSome_some, if_true]
          split
          · next heq =>
              rw [heq] at hasked
              exact hasked
          · next heq =>
              rw [heq] at hasked
              exact hasked.trans (.of_kept rfl rfl)

theorem asks_addIdList (text : String) (d : Draft) :
    Asks d (d.addIdList text) ((Text.items ',' text).flatMap itemNames) := by
  have hitems : Asks d ((Text.items ',' text).foldl addItem (d, ∅)).1
      ((Text.items ',' text).flatMap itemNames) :=
    asks_foldl Prod.fst (fun _ => itemNames) (fun _ => rfl) filterSteps_addItem asks_addItem
      (Text.items ',' text) (d, ∅)
  unfold addIdList
  simp only
  generalize (Text.items ',' text).foldl addItem (d, ∅) = state at hitems ⊢
  have hattached := asks_foldl_attach (fun e : String × List Nat =>
    ⟨e.1, e.1 ++ ".uid IN (" ++ Text.join "," (e.2.map Text.decimal) ++ ")"⟩)
    state.2.entries state.1
  have hall := hitems.trans hattached
  rwa [List.append_nil] at hall

/-! ### Requests -/

/-- The names that an operation asks for. -/
def Operation.asked (q : Query) : Operation → List String
  | .mechanisms => []
  | .filter spec => filterNames q spec
  | .idList text => (Text.items ',' text).flatMap itemNames

/-- The names that a request asks for. -/
def Request.asked (q : Query) : Request → List String
  | .operation op => op.asked q
  | .resolve name _ => [name]
  | .build => []

theorem asks_serve (p : Platform) (d : Draft) (request : Request) :
    Asks d (serve p d request) (request.asked d.query) := by
  cases request with
  | operation operation =>
      cases operation with
      | mechanisms =>
          exact .of_grows (grows_serve p d (.operation .mechanisms))
            (ruleSteps_addMechanisms p d).resolved_eq
      | filter filter => exact asks_addFilter p filter d
      | idList text => exact asks_addIdList text d
  | resolve name component => exact d.asks_resolve name component
  | build => exact .of_grows (d.grows_decideOrdering p) (d.resolved_decideOrdering p)

/-! ## Histories -/

/-- The names that an action asks for. -/
def Action.asked (q : Query) : Action → List String
  | .request r => r.asked q
  | .parse _ | .check _ | .analyze | .addBaseFields | .setLimit _ | .setOffset _ => []

theorem resolved_warnDuplicates (d : Draft) : d.warnDuplicates.1.resolved = d.resolved := by
  unfold warnDuplicates
  split <;> rfl

theorem resolved_parse {p : Platform} {text : String} {q : Query}
    (h : Query.parse p.schema (prepareText text) = .ok q) (d : Draft) :
    (d.parse p text).1.resolved = ∅ := by
  have hclear : (ofQuery q).analyze.resolved = ∅ := resolved_analyze (ofQuery q)
  rw [parse_of_read h]
  split
  · exact hclear
  · rw [resolved_warnDuplicates, completed]
    split
    · exact hclear
    · rw [resolved_addBaseFields]
      exact hclear

/-- Nothing was asked of a text that is read on. -/
theorem remembers_of_reads {p : Platform} {action : Action} (h : action.reads p = true)
    (d : Draft) : (act p d action).Remembers [] := by
  have hread : ∀ text, (Query.parse p.schema (prepareText text)).isOk = true →
      (d.parse p text).1.resolved = ∅ := by
    intro text hok
    cases hq : Query.parse p.schema (prepareText text) with
    | error e => simp [hq, Except.isOk, Except.toBool] at hok
    | ok q => exact resolved_parse hq d
  apply remembers_of_clear
  cases action with
  | parse text =>
      simp only [Action.reads, Action.text?, Option.any_some] at h
      simp only [act]
      exact hread text h
  | check text =>
      simp only [Action.reads, Action.text?, Option.any_some] at h
      have hclear := hread text h
      have hbuild : ∀ d : Draft, (d.build p).1.resolved = d.resolved := resolved_decideOrdering p
      have hlimit : ∀ (d : Draft) limit, (d.setLimit limit).resolved = d.resolved :=
        fun _ _ => rfl
      -- A check builds twice behind reading, and building asks for no name.
      simp only [act, check]
      split
      · next heq =>
          rw [heq] at hclear
          exact hclear
      · next heq =>
          rw [heq] at hclear
          rw [hbuild, hlimit, hbuild]
          exact hclear
  | analyze | addBaseFields | request _ | setLimit _ | setOffset _ =>
      simp [Action.reads, Action.text?] at h

theorem asks_act {p : Platform} {action : Action} (h : action.reads p = false) (d : Draft) :
    Asks d (act p d action) (action.asked d.query) := by
  -- A text that is not read leaves the draft alone, and it asks for nothing.
  have hrefused : ∀ text, action.text? = some text → act p d action = d := by
    intro text htext
    refine act_of_fails ?_ d
    simp only [Action.reads, Action.fails, htext, Option.any_some] at h ⊢
    rw [h, Bool.not_false]
  cases action with
  | parse text =>
      rw [hrefused text rfl]
      exact .refl d
  | check text =>
      rw [hrefused text rfl]
      exact .refl d
  | analyze => exact .of_kept (resolved_analyze d) rfl
  | addBaseFields => exact .of_grows (grows_addBaseFields p d) (resolved_addBaseFields p d)
  | request request => exact asks_serve p d request
  | setLimit limit => exact .of_kept rfl rfl
  | setOffset offset => exact .of_kept rfl rfl

/-- The names that were asked for since the last text that was read on, after `names` before. -/
def askedFrom (p : Platform) : List Action → Draft → List String → List String
  | [], _, names => names
  | action :: actions, d, names =>
      askedFrom p actions (act p d action)
        (if action.reads p then [] else names ++ action.asked d.query)

/-- What is remembered after a history are the answers to the names that were asked for. -/
theorem remembers_actAll (p : Platform) (actions : List Action) (h : d.Remembers names) :
    (actAll p actions d).Remembers (askedFrom p actions d names) := by
  induction actions generalizing d names with
  | nil => exact h
  | cons action actions ih =>
      -- A text that is read on forgets all names, any other action adds those that it asks for.
      cases hreads : action.reads p with
      | true =>
          rw [askedFrom, hreads, if_pos rfl]
          exact ih (remembers_of_reads hreads d)
      | false =>
          rw [askedFrom, hreads, if_neg Bool.false_ne_true]
          exact ih (asks_act hreads d names h)

/-- The names that a fresh draft was asked for since the last text that was read on. -/
def asked (p : Platform) (actions : List Action) : List String :=
  askedFrom p actions {} []

/-! ## Answers -/

/-- In every use a draft answers with the alias that its query has for a name, whatever it answered
before, and refuses a name without one.  A name that is no alias is warned about if it was not asked
for since the last text that was read on; nothing else is reported, and nothing but the answer is
remembered. -/
theorem answers_of_use (p : Platform) (actions : List Action) (name component : String) :
    let d := actAll p actions {}
    d.resolve name component =
      match d.query.aliasFor? name with
      | none => (d, .error (.unknownTable name component))
      | some a =>
          ({ d with
              resolved := d.resolved.insert name a
              diagnostics := d.diagnostics ++
                if name ∈ d.query.tableOfAlias.keys ∨ name ∈ asked p actions then []
                else [doubt name component] }, .ok a) :=
  (remembers_actAll p actions (remembers_of_clear rfl)).resolve_eq name component

/-- The news are asked for by the name of their table; then a text comes that cannot be read.  Asked
for again after it, they are answered without a warning. -/
theorem refusedText_remembered :
    let p := Catalog.site.platform (.atTime 0) {}
    let before := actAll p
      [.parse "SELECT title, n.body FROM pages INNER JOIN news AS n ON n.pid = pages.uid",
        .request (.resolve "news" "list")] {}
    let d := actAll p [.parse "SELECT title"] before
    (Action.parse "SELECT title").fails p = true ∧
      "news" ∉ d.query.tableOfAlias.keys ∧ d.query.aliasFor? "news" = some "n" ∧
      d.resolve "news" "filter" = (d, .ok "n") := by
  decide +kernel

end Draft
end ContentQuery
