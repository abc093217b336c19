import ContentQuery.Proofs.Draft.OnClauses
import ContentQuery.Proofs.Draft.Restrictions
import ContentQuery.Proofs.Query.Canonical

/-!
# The WHERE clause after a run

The WHERE clause is written as the conditions in parentheses with AND between them.  Since all of
them are closed, whatever is asked of the draft, the parentheses enclose them: the clause is the
conjunction of its conditions, and no part of a condition is ever back on the top level.
-/

namespace ContentQuery

open Connective (HasOr groups parenthesized furtherCondition)
open Scan (Closed Neutral Settled)
open Text (NameLike)

/-! ## Enclosed conditions -/

namespace Scan

/-- Behind an opening parenthesis a closed text never comes back to the depth before it. -/
theorem Settled.depth_within {d : Nat} {s : Scan} (hs : Settled d s) {u v : List Char}
    (h : Closed (u ++ v)) : d < ((s.step '(').read u).depth := by
  have hstray : (({} : Scan).read u).strayClose = none := by
    have hclosed := (closed_iff_settled.1 h).stray
    rw [read_append] at hclosed
    exact strayClose_of_read hclosed
  have habove := (Above.of_settled hs.step_open.1 hs.step_open.2 rfl).read hstray
  rw [habove.depth]
  omega

end Scan

namespace Query

/-- The conjunction around one of its conditions. -/
theorem conjunction_append (before : List (List Char)) (c : List Char) (after : List (List Char)) :
    conjunction (before ++ c :: after) =
      (before.flatMap fun b => parenthesized b ++ " AND ".toList) ++ parenthesized c ++
        after.flatMap fun a => (furtherCondition a).text := by
  have hnext : ∀ cs : List (List Char), cs.flatMap (fun a => (furtherCondition a).text) =
      cs.flatMap fun a => " AND ".toList ++ parenthesized a := fun _ => rfl
  induction before with
  | nil => rfl
  | cons b before ih =>
      -- What stands behind a condition is AND and the conjunction of the others.
      have hcons : conjunction (b :: (before ++ c :: after)) =
          parenthesized b ++ (" AND ".toList ++ conjunction (before ++ c :: after)) := by
        cases hrest : before ++ c :: after with
        | nil => simp at hrest
        | cons d ds => simp [conjunction, parenthesized]
      rw [List.cons_append, hcons, ih, List.flatMap_cons]
      simp only [List.append_assoc]

end Query

/-- The text is the conjunction of the conditions, each enclosed in parentheses of its own. -/
structure Enclosing (conditions : List (List Char)) (text : List Char) : Prop where
  closed : Closed text
  /-- On the top level there are the conditions with AND between them. -/
  groups : groups text = [conditions.map parenthesized]
  noAlternative : ¬ HasOr text
  /-- The parentheses of a condition open on the top level, and no part of it leads back there. -/
  within : ∀ before c after, conditions = before ++ c :: after →
    ∃ front back, front = before.flatMap (fun b => parenthesized b ++ " AND ".toList) ∧
      text = front ++ parenthesized c ++ back ∧ Settled 0 (({} : Scan).read front) ∧
      ∀ u v, c = u ++ v → 0 < (({} : Scan).read (front ++ '(' :: u)).depth

theorem enclosing_conjunction {conditions : List (List Char)} (hne : conditions ≠ [])
    (h : ∀ c ∈ conditions, Closed c) : Enclosing conditions (Query.conjunction conditions) := by
  have hneutral : ∀ c ∈ conditions, Neutral (parenthesized c) :=
    fun c hc => (h c hc).neutral_parenthesized
  cases conditions with
  | nil => exact absurd rfl hne
  | cons c cs =>
      have hcs : ∀ d ∈ cs, Closed d := fun d hd => h d (by simp [hd])
      have htext : Query.conjunction (c :: cs) =
          parenthesized c ++ cs.flatMap fun d => (furtherCondition d).text := rfl
      rcases Connective.groups_parenthesized (h c (by simp)) with ⟨hclosed, hgroups, hor⟩
      rcases Connective.groups_append hclosed hcs with ⟨hall, hnone⟩
      have hfurther : ∀ d ∈ cs, Neutral (furtherCondition d).text := fun d hd =>
        (Scan.neutral_ordinary (w := " AND ".toList) (by decide)).append (hneutral d (by simp [hd]))
      refine ⟨?_, ?_, ?_, ?_⟩
      · rw [htext]
        exact hclosed.append (Scan.neutral_flatMap hfurther)
      · rw [htext, hall, hgroups]
        rfl
      · rw [htext, hnone]
        exact hor
      · intro before e after hsplit
        -- What stands before the condition leaves the scan on the top level.
        have hfront : Settled 0 (({} : Scan).read
            (before.flatMap fun b => parenthesized b ++ " AND ".toList)) := by
          refine Scan.neutral_flatMap (fun b hb => ?_) Scan.settled_start
          refine (hneutral b ?_).append (Scan.neutral_ordinary (by decide))
          rw [hsplit]
          exact List.mem_append_left _ hb
        refine ⟨_, after.flatMap fun a => (furtherCondition a).text, rfl, ?_, hfront, ?_⟩
        · rw [hsplit, Query.conjunction_append]
        · rintro u v rfl
          have he : Closed (u ++ v) := h _ (hsplit ▸ List.mem_append_right _ (by simp))
          rw [Scan.read_append, Scan.read_cons]
          exact hfront.depth_within he

/-- The texts that restrict a query are closed. -/
structure Query.RestrictionsClosed (q : Query) : Prop where
  conditions : ∀ c ∈ q.conditions, Closed c.toList
  joins : ∀ e ∈ q.joins.entries, Closed e.2.on.toList

theorem Query.whereText_eq {q : Query} (hne : q.conditions ≠ []) :
    ∃ body, q.whereText = " WHERE " ++ body ∧
      body.toList = conjunction (q.conditions.map String.toList) := by
  have hempty : q.conditions.isEmpty = false := by simpa using hne
  refine ⟨_, ?_, toList_conjunction q.conditions⟩
  simp [whereText, hempty]

namespace Draft

variable {catalog : Catalog} {context : RequestContext} {settings : Settings}
  {text warning : String} {d₀ d : Draft} {operations : List Operation}

/-- What the operations attach is closed, so the restrictions stay closed along a run. -/
theorem restrictionsClosed_run (hcatalog : catalog.Named) (hkept : d.query.WellKept) (hnamed : d.Named)
    (hclosed : d.query.RestrictionsClosed) (hplain : ∀ o ∈ operations, o.Plain) :
    (run (catalog.platform context settings) operations d).query.RestrictionsClosed := by
  have hrun := attaches_run (catalog.platform context settings) operations d
  have hadded : ∀ a, NameLike a →
      ∀ c ∈ Attachment.on (runConditions (catalog.platform context settings) operations d) a,
        Closed c.toList := by
    intro a ha
    apply Attachment.closed_on
    intro t ht heq
    exact closed_of_mem_runConditions hcatalog hplain hnamed t ht (heq ▸ ha)
  constructor
  · intro c hc
    rw [hrun.conditions, List.mem_append] at hc
    rcases hc with hc | hc
    · exact hclosed.conditions c hc
    · exact hadded _ hnamed.mainAlias c hc
  · intro final hfinal
    rw [hrun.joins hkept.aliases] at hfinal
    rcases List.mem_map.1 hfinal with ⟨e, he, rfl⟩
    apply Join.closed_conjoinAll (hclosed.joins e he)
    intro c hc
    -- A join is kept under its alias, which is a name.
    have hkeyed : e.2.aliasName = e.1 := hkept.keyed (OrderedMap.get?_eq_some_iff.2 he)
    have hname : NameLike e.2.aliasName := (hnamed.refs _ (join_mem_tableRefs he)).2
    unfold Query.joinConditions at hc
    split at hc
    · cases hc
    · exact hadded e.1 (hkeyed ▸ hname) c hc

/-- If the texts of a query that was read are closed, so are all conditions and ON texts after any
run of operations, whatever values these bring in; and the WHERE clause is the conjunction of its
conditions, each enclosed in its parentheses. -/
theorem whereClause_of_run (hcatalog : catalog.Named)
    (hparse : d₀.parse (catalog.platform context settings) text = (d, .ok warning))
    (hnames : ∀ ref ∈ d.tableRefs, NameLike ref.table ∧ NameLike ref.aliasName)
    (hclosed : d.query.RestrictionsClosed) (hplain : ∀ o ∈ operations, o.Plain) :
    let q := (run (catalog.platform context settings) operations d).query
    q.RestrictionsClosed ∧
      (q.conditions ≠ [] → ∃ body, q.whereText = " WHERE " ++ body ∧
        Enclosing (q.conditions.map String.toList) body.toList) := by
  intro q
  have hrestrictions : q.RestrictionsClosed :=
    restrictionsClosed_run hcatalog (wellKept_of_parse hparse) (named_of_parse hparse hnames) hclosed
      hplain
  refine ⟨hrestrictions, fun hne => ?_⟩
  rcases Query.whereText_eq hne with ⟨body, hwhere, hbody⟩
  refine ⟨body, hwhere, ?_⟩
  rw [hbody]
  -- Each condition is closed on its own, so the conjunction encloses them one by one.
  apply enclosing_conjunction
  · simpa using hne
  · intro c hc
    rcases List.mem_map.1 hc with ⟨c, hmem, rfl⟩
    exact hrestrictions.conditions c hmem

/-- A filter whose value tries to get out of its literal. -/
def hostileFilter : Filter where
  groups :=
    [{ field := "title"
       conditions :=
         [{ operator := .comparison .equal, value := .single "x') OR ('1'='1", negate := false }] }]

/-- The listing of pages and news under the rules of the site, a hostile filter and an id list. -/
theorem whereClause_of_newsDraft :
    let q := (run (Catalog.site.platform (.atTime 0) {})
      [.mechanisms, .filter hostileFilter, .idList "3,n_4,x' OR 1"] newsDraft).query
    q.RestrictionsClosed ∧
      (q.conditions ≠ [] → ∃ body, q.whereText = " WHERE " ++ body ∧
        Enclosing (q.conditions.map String.toList) body.toList) := by
  have hcatalog : Catalog.site.Named := ⟨by decide, by decide⟩
  have hnames : ∀ ref ∈ newsDraft.tableRefs, NameLike ref.table ∧ NameLike ref.aliasName := by
    decide +kernel
  have hclosed : newsDraft.query.RestrictionsClosed := ⟨by decide +kernel, by decide +kernel⟩
  have hplain : ∀ o ∈ [Operation.mechanisms, .filter hostileFilter, .idList "3,n_4,x' OR 1"],
      o.Plain := by
    intro o ho
    simp only [List.mem_cons, List.not_mem_nil, or_false] at ho
    rcases ho with rfl | rfl | rfl
    · trivial
    · exact ⟨Scan.closed_nil, by decide⟩
    · trivial
  exact whereClause_of_run hcatalog parse_newsDraft hnames hclosed hplain

end Draft
end ContentQuery
