import ContentQuery.Proofs.Draft.Aliases
import ContentQuery.Proofs.Draft.FilterGroups

/-!
# What a filter leaves out

A filter is applied group by group.  What cannot be applied is left out with a diagnostic, and the
rest of the filter does what it would do without it: the same conditions reach the same clauses, the
same placeholders are filled, and the rows are ordered in the same way.

The groups that go to one clause become one condition there, combined by the operator of the filter.
-/

namespace ContentQuery
namespace Draft

/-! ## Drafts without their diagnostics -/

/-- The draft without its diagnostics. -/
def muted (d : Draft) : Draft :=
  { d with diagnostics := [] }

theorem eq_of_muted {d d' : Draft} (h : d'.muted = d.muted) :
    d' = { d with diagnostics := d'.diagnostics } :=
  calc d'
      = { d'.muted with diagnostics := d'.diagnostics } := rfl
    _ = { d.muted with diagnostics := d'.diagnostics } := by rw [h]

theorem muted_notify (d : Draft) (title message : String) :
    (d.notify title message).muted = d.muted :=
  rfl

section Congruence

variable {d d' : Draft}

theorem muted_attach (h : d'.muted = d.muted) (a condition : String) :
    (d'.attach a condition).muted = (d.attach a condition).muted := by
  rw [eq_of_muted h]
  rw [attach_eq, attach_eq]
  rfl

theorem muted_fillPlaceholder (h : d'.muted = d.muted) (target : ConditionTarget) (text : String) :
    (d'.fillPlaceholder target text).muted = (d.fillPlaceholder target text).muted := by
  rw [eq_of_muted h]
  unfold fillPlaceholder
  split <;> rfl

/-- What is remembered does not depend on who asks. -/
theorem muted_resolve (h : d'.muted = d.muted) (name component component' : String) :
    (d'.resolve name component').1.muted = (d.resolve name component).1.muted := by
  rw [eq_of_muted h]
  unfold resolve
  simp only
  cases d.resolved.get? name with
  | some a => rfl
  | none =>
      cases d.query.tableOfAlias.contains name with
      | true => rfl
      | false => cases aliasOfTable? d.query name <;> rfl

theorem answer?_of_muted (h : d'.muted = d.muted) : d'.answer? = d.answer? := by
  rw [eq_of_muted h]
  rfl

theorem query_of_muted (h : d'.muted = d.muted) : d'.query = d.query := by
  rw [eq_of_muted h]

theorem muted_setQuery (h : d'.muted = d.muted) {q q' : Query} (hq : q' = q) :
    ({ d' with query := q' } : Draft).muted = ({ d with query := q } : Draft).muted := by
  rw [eq_of_muted h, hq]
  rfl

theorem muted_foldl {α : Type} {f : Draft → α → Draft}
    (hstep : ∀ {d d' : Draft} x, d'.muted = d.muted → (f d' x).muted = (f d x).muted) (xs : List α)
    (h : d'.muted = d.muted) : (xs.foldl f d').muted = (xs.foldl f d).muted := by
  induction xs generalizing d d' with
  | nil => exact h
  | cons x xs ih => exact ih (hstep x h)

end Congruence

/-! ## Orderings -/

/-- An ordering that is to stay: it is random, or its table is known. -/
def keepsOrder (d : Draft) (order : FilterOrder) : Bool :=
  order.isRandom || (d.answer? (filterTable d.query order.table)).isSome

/-- What is reported of an ordering. -/
def orderReport? (d : Draft) (order : FilterOrder) : Option Diagnostic :=
  if d.keepsOrder order then none
  else
    some
      { severity := .notice
        title := "Ordering ignored"
        message := "The ordering clause did not apply to a table used in the query." }

/-- Orders a draft by a column of a known table. -/
def orderBy (d : Draft) (a : String) (order : FilterOrder) : Draft :=
  { d with query :=
    { d.query with
      orderBy := d.query.orderBy ++ [a ++ "." ++ order.field ++ " " ++ order.direction]
      orderFields := d.query.orderFields ++
        [{ field := a ++ "." ++ order.field, direction := order.direction, engine := order.engine,
           aliasName := none }] } }

theorem addFilterOrder_of_known {d : Draft} {order : FilterOrder} {a : String}
    (hcolumn : order.isRandom = false) (h : d.answer? (filterTable d.query order.table) = some a) :
    ∃ component, addFilterOrder d order =
      (d.resolve (filterTable d.query order.table) component).1.orderBy a order := by
  refine ⟨"Order clause - " ++ filterTable d.query order.table ++ " - " ++ order.field ++ " - " ++
    order.direction, ?_⟩
  simp only [addFilterOrder, hcolumn, Bool.false_eq_true, if_false]
  rw [resolve_of_some h]
  rfl

theorem addFilterOrder_of_not_keepsOrder {d : Draft} {order : FilterOrder}
    (h : d.keepsOrder order = false) :
    addFilterOrder d order =
      d.notify "Ordering ignored"
        "The ordering clause did not apply to a table used in the query." := by
  rw [keepsOrder, Bool.or_eq_false_iff, Option.isSome_eq_false_iff, Option.isNone_iff_eq_none] at h
  simp [addFilterOrder, h.1, resolve_of_none h.2]

/-- An ordering that stays adds to the order, perhaps after asking for its table. -/
theorem addFilterOrder_of_keepsOrder {d : Draft} {order : FilterOrder}
    (h : d.keepsOrder order = true) :
    ∃ asked orderBy orderFields,
      (asked = d ∨ ∃ name component, asked = (d.resolve name component).1) ∧
        addFilterOrder d order =
          { asked with query := { asked.query with orderBy, orderFields } } := by
  cases hrandom : order.isRandom with
  | true =>
      refine ⟨d, d.query.orderBy ++ ["RAND()"], d.query.orderFields, .inl rfl, ?_⟩
      simp only [addFilterOrder, hrandom, if_true]
  | false =>
      rw [keepsOrder, hrandom, Bool.false_or] at h
      rcases Option.isSome_iff_exists.1 h with ⟨a, ha⟩
      rcases addFilterOrder_of_known hrandom ha with ⟨component, horder⟩
      exact ⟨_, _, _, .inr ⟨_, component, rfl⟩, horder⟩

theorem muted_orderBy {d d' : Draft} (h : d'.muted = d.muted) (a : String) (order : FilterOrder) :
    (d'.orderBy a order).muted = (d.orderBy a order).muted := by
  rw [eq_of_muted h]
  rfl

theorem SameNames.keepsOrder {d d' : Draft} (h : d.SameNames d') :
    d'.keepsOrder = d.keepsOrder := by
  funext order
  rw [Draft.keepsOrder, h.answers, h.filterTable, Draft.keepsOrder]

theorem SameNames.orderReport? {d d' : Draft} (h : d.SameNames d') :
    d'.orderReport? = d.orderReport? := by
  funext order
  rw [Draft.orderReport?, h.keepsOrder, Draft.orderReport?]

theorem muted_addFilterOrder {d d' : Draft} (h : d'.muted = d.muted) (order : FilterOrder) :
    (addFilterOrder d' order).muted = (addFilterOrder d order).muted := by
  have hanswer := answer?_of_muted h
  have hquery := query_of_muted h
  -- Names are answered alike, so both drafts take the same branch; only the reports differ.
  cases hrandom : order.isRandom with
  | true =>
      rw [eq_of_muted h]
      simp only [addFilterOrder, hrandom, if_true, muted]
  | false =>
      cases hfound : d.answer? (filterTable d.query order.table) with
      | none =>
          have hdropped : d.keepsOrder order = false := by simp [keepsOrder, hrandom, hfound]
          have hdropped' : d'.keepsOrder order = false := by
            simp [keepsOrder, hrandom, hanswer, hquery, hfound]
          rw [addFilterOrder_of_not_keepsOrder hdropped, addFilterOrder_of_not_keepsOrder hdropped']
          exact h
      | some a =>
          have hfound' : d'.answer? (filterTable d'.query order.table) = some a := by
            rw [hanswer, hquery, hfound]
          rcases addFilterOrder_of_known hrandom hfound with ⟨component, horder⟩
          rcases addFilterOrder_of_known hrandom hfound' with ⟨component', horder'⟩
          have hasked := muted_resolve h (filterTable d.query order.table) component component'
          rw [horder, horder', hquery]
          exact muted_orderBy hasked a order

/-- Orderings on unknown tables may be left out. -/
theorem muted_addFilterOrders {d d' : Draft} (h : d'.muted = d.muted) (orders : List FilterOrder) :
    ((orders.filter d.keepsOrder).foldl addFilterOrder d').muted =
      (orders.foldl addFilterOrder d).muted := by
  induction orders generalizing d d' with
  | nil => exact h
  | cons order orders ih =>
      have hnames := (filterSteps_addFilterOrder d order).sameNames.keepsOrder
      rw [List.foldl_cons]
      cases hkeeps : d.keepsOrder order with
      | true =>
          rw [List.filter_cons_of_pos hkeeps, List.foldl_cons, ← hnames]
          exact ih (muted_addFilterOrder h order)
      | false =>
          rw [List.filter_cons_of_neg (by simp [hkeeps]), ← hnames]
          refine ih ?_
          rw [h, addFilterOrder_of_not_keepsOrder hkeeps, muted_notify]

/-! ## Groups -/

section Groups

variable (p : Platform)

theorem keepsCondition_of_some {target : ConditionTarget} {c : Condition} {fragment : String}
    (h : fragment? p target c = some fragment) : keepsCondition p target c = true := by
  unfold fragment? at h
  unfold keepsCondition
  cases hcompile : c.compile p.schema p.settings.minWordLength target with
  | error e => simp [hcompile] at h
  | ok text =>
      cases hall : c.value.isAll with
      | true =>
          rw [compile_of_isAll p target hall] at h
          simp at h
      | false => rfl

/-- A condition without a fragment leaves at most a diagnostic. -/
theorem exists_muted_of_none {target : ConditionTarget} {c : Condition}
    (h : fragment? p target c = none) (d : Draft) (text : String) :
    ∃ e, addGroupCondition p target (d, text) c = (e, text) ∧ e.muted = d.muted := by
  refine ⟨_, addGroupCondition_of_none p target h d text, ?_⟩
  cases conditionReport? p target c <;> rfl

/-- Conditions that ask for nothing or cannot be compiled may be left out. -/
theorem muted_addGroupConditions (target : ConditionTarget) (conditions : List Condition)
    {d d' : Draft} (h : d'.muted = d.muted) (text : String) :
    ((conditions.filter (keepsCondition p target)).foldl (addGroupCondition p target)
        (d', text)).1.muted =
      (conditions.foldl (addGroupCondition p target) (d, text)).1.muted := by
  induction conditions generalizing d d' text with
  | nil => exact h
  | cons c conditions ih =>
      rw [List.foldl_cons]
      -- A condition without a fragment leaves at most a report, which does not show in a muted draft.
      cases hfragment : fragment? p target c with
      | none =>
          rcases exists_muted_of_none p hfragment d text with ⟨e, he, hmuted⟩
          rw [he]
          cases hkeeps : keepsCondition p target c with
          | true =>
              rcases exists_muted_of_none p hfragment d' text with ⟨e', he', hmuted'⟩
              rw [List.filter_cons_of_pos hkeeps, List.foldl_cons, he']
              exact ih ((hmuted'.trans h).trans hmuted.symm) text
          | false =>
              rw [List.filter_cons_of_neg (by simp [hkeeps])]
              exact ih (h.trans hmuted.symm) text
      | some fragment =>
          rw [List.filter_cons_of_pos (keepsCondition_of_some p hfragment), List.foldl_cons,
            (addGroupCondition_of_some p target hfragment d text).1,
            (addGroupCondition_of_some p target hfragment d' text).1]
          refine ih ?_ _
          split
          · exact muted_fillPlaceholder h _ _
          · exact h

/-- A group that is to stay, with the conditions that are. -/
def prunedGroup? (d : Draft) (g : FilterGroup) : Option FilterGroup :=
  (d.groupAlias? g).map fun a =>
    { g with conditions := g.conditions.filter (keepsCondition p (groupTarget d.query a g)) }

theorem SameNames.prunedGroup? {d d' : Draft} (h : d.SameNames d') :
    prunedGroup? p d' = prunedGroup? p d := by
  funext g
  rw [Draft.prunedGroup?, h.group.1, h.group.2.1, Draft.prunedGroup?]

/-- Groups that are void or on unknown tables may be left out. -/
theorem muted_addGroups (groups : List FilterGroup) {d d' : Draft} (h : d'.muted = d.muted)
    (collected : Collected) (k k' : Nat) :
    let state := (groups.zipIdx k).foldl (addGroup p) (d, collected)
    let state' := ((groups.filterMap (prunedGroup? p d)).zipIdx k').foldl (addGroup p)
      (d', collected)
    state'.1.muted = state.1.muted ∧ state'.2 = state.2 := by
  induction groups generalizing d d' collected k k' with
  | nil => exact ⟨h, rfl⟩
  | cons g groups ih =>
      have hnames := (filterSteps_addGroup p (d, collected) (g, k)).sameNames.prunedGroup? p
      simp only at hnames
      rw [List.zipIdx_cons, List.foldl_cons, List.filterMap_cons]
      -- The numbers of the groups differ behind one that is left out, but serve for diagnostics only.
      cases halias : d.groupAlias? g with
      | none =>
          rw [addGroup_of_none p halias] at hnames ⊢
          simp only [prunedGroup?, halias, Option.map_none]
          rw [← hnames]
          refine ih ?_ collected (k + 1) k'
          rw [h]
          split <;> rfl
      | some a =>
          let g' : FilterGroup :=
            { g with
              conditions := g.conditions.filter (keepsCondition p (groupTarget d.query a g)) }
          have hquery := query_of_muted h
          have halias' : d'.groupAlias? g' = some a := by
            rw [groupAlias?, answer?_of_muted h, hquery]
            exact halias
          have hfragments : groupFragments p d' a g' = groupFragments p d a g := by
            rw [groupFragments, hquery]
            exact filterMap_keepsCondition p (groupTarget d.query a g) g.conditions
          have hpruned : prunedGroup? p d g = some g' := by
            rw [prunedGroup?, halias, Option.map_some]
          rw [addGroup_of_known p halias] at hnames ⊢
          simp only [hpruned, List.zipIdx_cons, List.foldl_cons]
          rw [addGroup_of_known p halias', hfragments, hquery, ← hnames]
          refine ih ?_ _ (k + 1) (k' + 1)
          exact muted_addGroupConditions p (groupTarget d.query a g) g.conditions
            (muted_resolve h _ _ _) ""

/-! ## Filters -/

/-- A filter without whatever cannot be applied: void groups, groups and orderings on unknown
tables, conditions that ask for nothing or cannot be compiled. -/
def pruned (d : Draft) (filter : Filter) : Filter :=
  { filter with
    groups := filter.groups.filterMap (prunedGroup? p d)
    orders := filter.orders.filter d.keepsOrder }

/-- Attaches what was collected, the conditions of a clause combined. -/
def attachCollected (filter : Filter) (state : Draft × Collected) : Draft :=
  state.2.entries.foldl
    (fun d e => d.attach e.1 (Text.join (" " ++ filter.operator.word ++ " ") e.2)) state.1

/-- A draft with the conditions of a filter. -/
def addConditions (filter : Filter) (d : Draft) : Draft :=
  let attached := attachCollected filter (filter.groups.zipIdx.foldl (addGroup p) (d, ∅))
  { attached with query := attached.query.addCondition filter.rawSql }

/-- The orderings of a filter come after its conditions. -/
theorem addFilter_eq (d : Draft) (filter : Filter) :
    d.addFilter p filter = filter.orders.foldl addFilterOrder (d.addConditions p filter) := by
  unfold addFilter addConditions attachCollected
  rfl

theorem sameNames_addConditions (d : Draft) (filter : Filter) :
    d.SameNames (d.addConditions p filter) := by
  have hsteps := filterSteps_addFilter p { filter with orders := [] } d
  rw [addFilter_eq] at hsteps
  exact hsteps.sameNames

theorem muted_attachCollected {state state' : Draft × Collected}
    (h : state'.1.muted = state.1.muted) (hcollected : state'.2 = state.2) (filter : Filter) :
    (attachCollected filter state').muted = (attachCollected filter state).muted := by
  rw [attachCollected, hcollected, attachCollected]
  exact muted_foldl (fun e h => muted_attach h e.1 _) state.2.entries h

theorem muted_addConditions (d : Draft) (filter : Filter) :
    (d.addConditions p (pruned p d filter)).muted = (d.addConditions p filter).muted := by
  rcases muted_addGroups p filter.groups (rfl : d.muted = d.muted) ∅ 0 0 with ⟨hmuted, hcollected⟩
  have hattached := muted_attachCollected hmuted hcollected filter
  have hquery := query_of_muted hattached
  exact muted_setQuery hattached (congrArg (·.addCondition filter.rawSql) hquery)

/-- What cannot be applied leaves no trace but diagnostics. -/
theorem muted_addFilter (d : Draft) (filter : Filter) :
    (d.addFilter p (pruned p d filter)).muted = (d.addFilter p filter).muted := by
  have horders := muted_addFilterOrders (muted_addConditions p d filter) filter.orders
  rw [(sameNames_addConditions p d filter).keepsOrder] at horders
  rw [addFilter_eq, addFilter_eq p d filter]
  exact horders

end Groups

/-! ## What is reported -/

/-- Whether a diagnostic tells of something that was left out of a filter. -/
def isOmission (r : Diagnostic) : Bool :=
  r.title == "Condition ignored" || r.title == "Ordering ignored"

/-- What was left out of the filters so far. -/
def omissions (d : Draft) : List Diagnostic :=
  d.diagnostics.filter isOmission

theorem omissions_report {severity : Severity} {title message : String}
    (h : isOmission ⟨severity, title, message⟩ = true) (d : Draft) :
    (d.report severity title message).omissions = d.omissions ++ [⟨severity, title, message⟩] := by
  rw [omissions, report, List.filter_append, List.filter_cons_of_pos h]
  rfl

theorem omissions_resolve (d : Draft) (name component : String) :
    (d.resolve name component).1.omissions = d.omissions := by
  rcases d.resolve_cases name component with
    ⟨_, _, h⟩ | ⟨_, _, h⟩ | ⟨_, _, _, h⟩ | ⟨_, _, _, _, h⟩ <;> rw [h]
  · rfl
  · simp [omissions, warn, report, isOmission]

theorem omissions_setQuery (d : Draft) (q : Query) :
    omissions { d with query := q } = d.omissions :=
  rfl

theorem omissions_attach (d : Draft) (a condition : String) :
    (d.attach a condition).omissions = d.omissions := by
  rw [attach_eq, omissions_setQuery]

theorem omissions_fillPlaceholder (d : Draft) (target : ConditionTarget) (text : String) :
    (d.fillPlaceholder target text).omissions = d.omissions := by
  unfold fillPlaceholder
  split
  · exact omissions_setQuery d _
  · rfl

section Reports

variable (p : Platform)

theorem omissions_addGroupCondition (target : ConditionTarget) (state : Draft × String)
    (c : Condition) :
    (addGroupCondition p target state c).1.omissions =
      state.1.omissions ++ (conditionReport? p target c).toList := by
  rcases state with ⟨d, text⟩
  cases hfragment : fragment? p target c with
  | none =>
      rw [addGroupCondition_of_none p target hfragment]
      cases hreport : conditionReport? p target c with
      | none => simp
      | some r =>
          have hr : isOmission r = true := by
            unfold conditionReport? at hreport
            split at hreport
            · cases hreport
            · cases hreport
              rfl
          exact omissions_report hr d
  | some fragment =>
      rcases addGroupCondition_of_some p target hfragment d text with ⟨hadded, hnone⟩
      rw [hadded, hnone, Option.toList_none, List.append_nil]
      split
      · exact omissions_fillPlaceholder d target _
      · rfl

theorem omissions_addGroup (state : Draft × Collected) (item : FilterGroup × Nat) :
    (addGroup p state item).1.omissions = state.1.omissions ++ groupReports p state.1 item.1 := by
  rcases state with ⟨d, collected⟩
  rcases item with ⟨g, index⟩
  cases halias : d.groupAlias? g with
  | none =>
      rw [addGroup_of_none p halias]
      cases hvoid : g.void with
      | true => simp [groupReports, hvoid]
      | false =>
          have hanswer := answer?_of_groupAlias? halias hvoid
          simp only [groupReports, hvoid, Bool.false_eq_true, if_false, hanswer]
          exact omissions_report (by decide) d
  | some a =>
      -- A known group reports per condition; resolving its table is a notice and no omission.
      have hfold := foldl_appends Prod.fst (fun state => state.1.omissions)
        (fun _ c => (conditionReport? p (groupTarget d.query a g) c).toList)
        (filterSteps_addGroupCondition p (groupTarget d.query a g)) (fun _ => rfl)
        (omissions_addGroupCondition p (groupTarget d.query a g)) g.conditions
        ((d.resolve (filterTable d.query g.table) (groupComponent index g)).1, "")
      rw [addGroup_of_known p halias]
      simp only at hfold ⊢
      rcases groupAlias?_eq_some_iff.1 halias with ⟨hvoid, hanswer⟩
      rw [hfold, omissions_resolve, ← List.filterMap_eq_flatMap_toList, groupReports, hvoid,
        if_neg (by simp), hanswer]

theorem omissions_addFilterOrder (d : Draft) (order : FilterOrder) :
    (addFilterOrder d order).omissions = d.omissions ++ (d.orderReport? order).toList := by
  cases hkeeps : d.keepsOrder order with
  | false =>
      rw [addFilterOrder_of_not_keepsOrder hkeeps, orderReport?, hkeeps]
      exact omissions_report (by decide) d
  | true =>
      rcases addFilterOrder_of_keepsOrder hkeeps with ⟨asked, _, _, hasked, horder⟩
      rw [horder, omissions_setQuery, orderReport?, hkeeps, if_pos rfl, Option.toList_none,
        List.append_nil]
      rcases hasked with rfl | ⟨name, component, rfl⟩
      · rfl
      · exact omissions_resolve d name component

theorem omissions_attachCollected (filter : Filter) (state : Draft × Collected) :
    (attachCollected filter state).omissions = state.1.omissions := by
  refine List.foldlRecOn (motive := fun d : Draft => d.omissions = state.1.omissions) _ _ rfl ?_
  intro d hd e _
  rw [omissions_attach, hd]

theorem omissions_addConditions (d : Draft) (filter : Filter) :
    (d.addConditions p filter).omissions =
      d.omissions ++ filter.groups.flatMap (groupReports p d) := by
  have hgroups := foldl_appends Prod.fst (fun state => state.1.omissions)
    (fun d item => groupReports p d item.1) (filterSteps_addGroup p)
    (fun h => by rw [h.groupReports]) (omissions_addGroup p) filter.groups.zipIdx (d, ∅)
  rw [addConditions, omissions_setQuery, omissions_attachCollected, hgroups, flatMap_zipIdx]

/-- Every unknown table and every condition that fails is reported once, in the order of the
filter. -/
theorem omissions_addFilter (d : Draft) (filter : Filter) :
    (d.addFilter p filter).omissions =
      d.omissions ++ filter.groups.flatMap (groupReports p d) ++
        filter.orders.filterMap d.orderReport? := by
  have horders := foldl_appends (f := addFilterOrder) id omissions
    (fun d order => (d.orderReport? order).toList) filterSteps_addFilterOrder
    (fun h => by rw [h.orderReport?]) omissions_addFilterOrder filter.orders
    (d.addConditions p filter)
  rw [addFilter_eq, horders, id, (sameNames_addConditions p d filter).orderReport?,
    omissions_addConditions, ← List.filterMap_eq_flatMap_toList]

end Reports

/-! ## Filters in use -/

/-- Every alias of a draft is that of its main table or of a join, and so is every answer. -/
structure Placed (d : Draft) : Prop where
  joined : d.query.subtableAliases = d.query.joins.keys
  covered : ∀ a ∈ d.query.tableOfAlias.keys, a = d.query.mainAlias ∨ a ∈ d.query.joins.keys
  consistent : d.Consistent

theorem Grows.placed {d d' : Draft} (h : d.Grows d') (hd : d.Placed) : d'.Placed where
  joined := by rw [h.query.joinKeys, h.query.kept Query.subtableAliases fun _ => rfl, hd.joined]
  covered := by
    rw [h.tableOfAlias, h.query.joinKeys, h.query.kept Query.mainAlias fun _ => rfl]
    exact hd.covered
  consistent := h.consistent hd.consistent

theorem placed_actAll (p : Platform) (actions : List Action) : (actAll p actions {}).Placed := by
  refine actAll_induction Grows.placed ?_ ?_ ?_ ?_ actions
  · intro text q hparse
    have hkept := Query.wellKept_of_parse hparse
    exact ⟨hkept.aliases, fun a ha => hkept.covered.1 ha, consistent_ofQuery q⟩
  · exact fun hd => ⟨hd.joined, hd.covered, consistent_analyze hd.consistent⟩
  · exact fun hd _ _ => ⟨hd.joined, hd.covered, hd.consistent.origins, hd.consistent.answers⟩
  · exact ⟨rfl, fun a ha => (List.not_mem_nil ha).elim, consistent_ofQuery {}⟩

/-- A group goes to a clause that there is. -/
theorem Placed.clause_of_fragment {p : Platform} {d : Draft} (hd : d.Placed) {filter : Filter}
    {clause : String} (h : (filterFragment? p d filter clause).isSome) :
    clause = d.query.mainAlias ∨ clause ∈ d.query.joins.keys := by
  unfold filterFragment? at h
  split at h
  · cases h
  · next hne =>
      -- Some group has a text for the clause.
      rcases List.exists_mem_of_ne_nil _ hne with ⟨text, htext⟩
      rcases List.mem_filterMap.1 htext with ⟨g, _, hg⟩
      rcases exists_groupText hg with ⟨a, halias, _, rfl, _⟩
      have hanswer := (groupAlias?_eq_some_iff.1 halias).2
      have hmem := hd.consistent.mem_of_resolve (resolve_of_some hanswer "")
      rw [query_resolve] at hmem
      unfold groupClause
      split
      · exact .inl rfl
      · exact hd.covered a hmem

theorem conditions_addFilter (p : Platform) (d : Draft) (filter : Filter) :
    (d.addFilter p filter).query.conditions =
      d.query.conditions ++ (filterFragment? p d filter d.query.mainAlias).toList ++
        (if Text.trim filter.rawSql = "" then [] else [Text.trim filter.rawSql]) := by
  rw [(attaches_addFilter p filter d).conditions, on_filterConditions, on_self, List.append_assoc]

theorem Placed.joins_addFilter {d : Draft} (hd : d.Placed) (p : Platform) (filter : Filter) :
    (d.addFilter p filter).query.joins.entries =
      d.query.joins.entries.map fun e =>
        (e.1, e.2.restrict (if e.1 = d.query.mainAlias then []
          else (filterFragment? p d filter e.1).toList)) := by
  rw [(attaches_addFilter p filter d).joins hd.joined]
  refine List.map_congr_left fun e _ => ?_
  rw [Query.joinConditions, on_filterConditions]
  by_cases hmain : e.1 = d.query.mainAlias
  · have hself : d.query.isMainAlias e.1 = true := beq_iff_eq.2 hmain.symm
    rw [if_pos hself, if_pos hmain]
  · have hother : ¬ d.query.isMainAlias e.1 = true := fun h => hmain (beq_iff_eq.1 h).symm
    rw [if_neg hother, if_neg hmain,
      Attachment.on_cons_of_ne (t := ⟨d.query.mainAlias, filter.rawSql⟩) (Ne.symm hmain),
      Attachment.on_nil, List.append_nil]

/-- In every use a filter does what it does without all that cannot be applied.  Each clause gets
one condition from the groups that go there and have a fragment, the WHERE clause the raw SQL after
it, and whatever is left out of the filter is reported once. -/
theorem filters_of_use (p : Platform) (actions : List Action) (filter : Filter) :
    let d := actAll p actions {}
    let after := d.addFilter p filter
    after.muted = (d.addFilter p (pruned p d filter)).muted ∧
      after.query.conditions =
        d.query.conditions ++ (filterFragment? p d filter d.query.mainAlias).toList ++
          (if Text.trim filter.rawSql = "" then [] else [Text.trim filter.rawSql]) ∧
      after.query.joins.entries =
        d.query.joins.entries.map (fun e =>
          (e.1, e.2.restrict (if e.1 = d.query.mainAlias then []
            else (filterFragment? p d filter e.1).toList))) ∧
      (∀ clause, (filterFragment? p d filter clause).isSome →
        clause = d.query.mainAlias ∨ clause ∈ d.query.joins.keys) ∧
      after.omissions =
        d.omissions ++ filter.groups.flatMap (groupReports p d) ++
          filter.orders.filterMap d.orderReport? := by
  have hd := placed_actAll p actions
  exact ⟨(muted_addFilter p _ filter).symm, conditions_addFilter p _ filter,
    hd.joins_addFilter p filter, fun _ => hd.clause_of_fragment, omissions_addFilter p _ filter⟩

/-- Pages by title or with news of some text, from a shop that is not there. -/
def newsFilter : Filter :=
  let group := fun table field value =>
    ({ table, field, conditions := [⟨.comparison .equal, .single value, false⟩] } : FilterGroup)
  { groups := [group "" "title" "Home", group "news" "body" "x", group "shop" "name" "y"]
    operator := .or
    rawSql := "pages.pid > 0" }

/-- Each clause gets the condition of its group, and the raw SQL comes behind it. -/
theorem filters_of_newsDraft :
    let after := newsDraft.addFilter (Catalog.site.platform (.atTime 0) {}) newsFilter
    after.query.conditions = ["((pages.title = 'Home'))", "pages.pid > 0"] ∧
      after.query.joins.entries.map (·.2.on) = ["n.pid = pages.uid AND (((n.body = 'x')))"] ∧
      after.omissions.map (·.title) = ["Condition ignored"] := by
  have huse := filters_of_use (Catalog.site.platform (.atTime 0) {})
    [.parse "SELECT title, n.body FROM pages INNER JOIN news AS n ON n.pid = pages.uid"] newsFilter
  simp only [actAll_newsDraft] at huse ⊢
  rw [huse.2.1, huse.2.2.1, huse.2.2.2.2]
  decide +kernel

/-- Two things that are not left out and not reported: a random ordering, although its table is
unknown, and a condition with nothing to compare with, although its group attaches nothing. -/
theorem randomOrder_kept :
    let p := Catalog.site.platform (.atTime 0) {}
    let d := actAll p [.parse "SELECT title FROM pages"] {}
    let order : FilterOrder := { table := "shop", direction := "RAND" }
    let group : FilterGroup :=
      { field := "title"
        conditions := [{ operator := .andGroup, value := .single "", negate := false }] }
    d.answer? "shop" = none ∧
      (d.addFilter p { orders := [order] }).query.orderBy = ["RAND()"] ∧
      (d.addFilter p {}).query.orderBy = [] ∧
      prunedGroup? p d group = some group ∧
      d.groupAlias? group = some "pages" ∧
      (d.addFilter p { groups := [group] }).query.conditions = [] := by
  decide +kernel

end Draft
end ContentQuery
