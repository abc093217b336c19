import ContentQuery.Proofs.Draft.Operations
import ContentQuery.Proofs.Draft.Reading
import ContentQuery.Proofs.Scan.Connectives

/-!
# ON clauses with conditions attached

A condition is attached to a join in parentheses, behind AND.  The ON text that was written stays as
it is, without parentheses of its own.  So the conditions restrict the last group of its operands
only: they are mandatory for an ON text without a top-level OR, and an OR leaves the other groups as
they were.
-/

namespace ContentQuery

open Connective (HasOr Holds groups extendLast parenthesized furtherCondition)
open Scan (Closed)

namespace Join

/-! ## Texts -/

theorem toList_conjoin {on : String} (hon : on ≠ "") (c : String) :
    (conjoin on c).toList = on.toList ++ (furtherCondition c.toList).text := by
  have hempty : on.isEmpty = false := by simpa [String.isEmpty_iff] using hon
  rw [conjoin, hempty]
  simp [furtherCondition, Scan.Section.text, parenthesized, Connective.and]

theorem conjoin_ne_empty (on c : String) : conjoin on c ≠ "" := by
  intro h
  have hlist := congrArg String.toList h
  simp [conjoin] at hlist

theorem toList_conjoinAll {on : String} (hon : on ≠ "") (cs : List String) :
    (conjoinAll on cs).toList =
      on.toList ++ (cs.map String.toList).flatMap fun c => (furtherCondition c).text := by
  induction cs generalizing on with
  | nil => simp
  | cons c cs ih =>
      rw [conjoinAll_cons, ih (conjoin_ne_empty on c), toList_conjoin hon, List.map_cons,
        List.flatMap_cons, List.append_assoc]

/-! ## Operands -/

/-- The conditions become operands of the last group of the ON text. -/
theorem groups_conjoinAll {on : String} (hon : Closed on.toList) {cs : List String}
    (hcs : ∀ c ∈ cs, Closed c.toList) :
    groups (conjoinAll on cs).toList =
        extendLast (groups on.toList) (cs.map fun c => parenthesized c.toList) ∧
      (HasOr (conjoinAll on cs).toList ↔ HasOr on.toList) := by
  have hwritten : ∀ (on : String) (cs : List String), on ≠ "" → Closed on.toList →
      (∀ c ∈ cs, Closed c.toList) →
      groups (conjoinAll on cs).toList =
          extendLast (groups on.toList) (cs.map fun c => parenthesized c.toList) ∧
        (HasOr (conjoinAll on cs).toList ↔ HasOr on.toList) := by
    intro on cs hne hon hcs
    have hclosed : ∀ c ∈ cs.map String.toList, Closed c := by
      intro _ hc
      rcases List.mem_map.1 hc with ⟨c, hmem, rfl⟩
      exact hcs c hmem
    have happend := Connective.groups_append hon hclosed
    rw [List.map_map] at happend
    rw [toList_conjoinAll hne]
    exact happend
  by_cases hempty : on = ""
  · -- Without an ON text there is nothing to stand in front of AND.
    subst hempty
    cases cs with
    | nil =>
        refine ⟨?_, Iff.rfl⟩
        rw [conjoinAll_nil, String.toList_empty, Connective.groups_nil]
        rfl
    | cons c cs =>
        -- The first condition takes the place of the ON text.
        have hc := hcs c (by simp)
        have hfirst : (conjoin "" c).toList = parenthesized c.toList := by
          simp [conjoin, parenthesized]
        rcases Connective.groups_parenthesized hc with ⟨hclosed, hgroups, hnone⟩
        rw [← hfirst] at hclosed hgroups
        have hrest := hwritten (conjoin "" c) cs (conjoin_ne_empty "" c) hclosed
          fun c' hc' => hcs c' (by simp [hc'])
        rw [hgroups, hfirst] at hrest
        refine ⟨?_, ?_⟩
        · rw [conjoinAll_cons, hrest.1, String.toList_empty, Connective.groups_nil]
          rfl
        · rw [conjoinAll_cons, hrest.2, String.toList_empty]
          exact iff_of_false hnone (by decide)
  · exact hwritten on cs hempty hon hcs

/-- An OR of the ON text stays on the top level, whatever is attached. -/
theorem hasOr_conjoinAll {on : String} (hon : HasOr on.toList) (cs : List String) :
    HasOr (conjoinAll on cs).toList := by
  have hne : on ≠ "" := by
    rintro rfl
    exact absurd hon (by decide)
  cases cs with
  | nil => exact hon
  | cons c cs =>
      rw [toList_conjoinAll hne, List.map_cons, List.flatMap_cons]
      exact Connective.HasOr.append hon (Keyword.ends_cons (by decide) _)

end Join

namespace Draft

/-! ## Runs -/

/-- What the ON text of a join asks after reading, and what it asks with conditions attached. -/
structure Conjoined (v : List Char → Prop) (on : String) (conditions : List String)
    (final : String) : Prop where
  /-- An OR stands on the top level of the final text if the ON text was written with one. -/
  alternative : HasOr final.toList ↔ HasOr on.toList
  /-- The conditions are mandatory for the operands behind the last OR, and for no others. -/
  holds : Holds v final.toList ↔
    (∃ group ∈ (groups on.toList).dropLast, ∀ x ∈ group, v x) ∨
      ((∀ x ∈ (groups on.toList).getLast?.getD [], v x) ∧
        ∀ c ∈ conditions, v (parenthesized c.toList))
  /-- Without OR the final text is the conjunction of the ON text and the conditions. -/
  conjunction : ¬ HasOr on.toList →
    (Holds v final.toList ↔ Holds v on.toList ∧ ∀ c ∈ conditions, v (parenthesized c.toList))

theorem conjoined_conjoinAll (v : List Char → Prop) {on : String} (hon : Closed on.toList)
    {cs : List String} (hcs : ∀ c ∈ cs, Closed c.toList) :
    Conjoined v on cs (Join.conjoinAll on cs) := by
  rcases Join.groups_conjoinAll hon hcs with ⟨hgroups, hor⟩
  have hholds := Connective.holds_of_groups_eq (v := v) hgroups
  simp only [List.forall_mem_map] at hholds
  refine ⟨hor, hholds, ?_⟩
  intro hnone
  rcases Connective.groups_of_not_hasOr hnone with ⟨group, hgroup⟩
  rw [hholds, Holds, hgroup]
  simp

variable {p : Platform} {text warning : String} {d₀ d : Draft} {a : String} {join : Join}

/-- After any run on a draft that was read, the ON clause of a join is its ON text with the attached
conditions in parentheses behind it.  For closed texts the conditions are mandatory unless an OR
stands on the top level of the ON text; then the groups before the last OR go without them. -/
theorem onClause_of_run (hparse : d₀.parse p text = (d, .ok warning))
    (operations : List Operation) (hjoin : d.query.joins.get? a = some join)
    (hon : Closed join.on.toList)
    (hconditions : ∀ c ∈ d.query.joinConditions (runConditions p operations d) a,
      Closed c.toList) :
    ∃ final, (run p operations d).query.joins.get? a = some final ∧
      final = join.restrict (d.query.joinConditions (runConditions p operations d) a) ∧
      ∀ v, Conjoined v join.on (d.query.joinConditions (runConditions p operations d) a)
        final.on := by
  have hkept := wellKept_of_parse hparse
  have hfinal := (attaches_run p operations d).join hkept.aliases hjoin
  exact ⟨_, hfinal, rfl, fun v => conjoined_conjoinAll v hon hconditions⟩

/-- The join of the example and the conditions that the site asks for. -/
theorem onClause_of_newsDraft :
    let p := Catalog.site.platform (.atTime 0) {}
    let join : Join := ⟨.inner, "news", "n", "n.pid = pages.uid", none⟩
    let conditions := newsDraft.query.joinConditions (runConditions p [.mechanisms] newsDraft) "n"
    ∃ final, (run p [.mechanisms] newsDraft).query.joins.get? "n" = some final ∧
      final = join.restrict conditions ∧ ∀ v, Conjoined v join.on conditions final.on := by
  have hjoin : newsDraft.query.joins.get? "n" =
      some ⟨.inner, "news", "n", "n.pid = pages.uid", none⟩ := by decide +kernel
  have hconditions : ∀ c ∈ newsDraft.query.joinConditions
      (runConditions (Catalog.site.platform (.atTime 0) {}) [.mechanisms] newsDraft) "n",
      Closed c.toList := by decide +kernel
  exact onClause_of_run parse_newsDraft [.mechanisms] hjoin (by decide +kernel) hconditions

/-- The listing with news of no page as well. -/
def looseDraft : Draft × Except QueryError String :=
  ({} : Draft).parse (Catalog.site.platform (.atTime 0) {})
    "SELECT title, n.body FROM pages INNER JOIN news AS n ON n.pid = pages.uid OR n.pid = 0"

/-- The ON text is closed and gets its conditions, but its OR stays on the top level: hidden news
come back through the first group. -/
theorem looseDraft_keeps_or :
    looseDraft.2 = .ok "" ∧
      (looseDraft.1.query.joins.get? "n").map (·.on) = some "n.pid = pages.uid OR n.pid = 0" ∧
      Closed "n.pid = pages.uid OR n.pid = 0".toList ∧
      ((run (Catalog.site.platform (.atTime 0) {}) [.mechanisms] looseDraft.1).query.joins.get?
          "n").map (·.on) =
        some ("n.pid = pages.uid OR n.pid = 0 AND (n.t3ver_state<=0 AND n.pid<>-1 AND n.hidden=0)"
          ++ " AND (n.t3ver_oid = '0')") ∧
      HasOr ("n.pid = pages.uid OR n.pid = 0 AND (n.t3ver_state<=0 AND n.pid<>-1 AND n.hidden=0)"
        ++ " AND (n.t3ver_oid = '0')").toList := by
  decide +kernel

end Draft
end ContentQuery
