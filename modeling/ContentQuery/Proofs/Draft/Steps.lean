import Mathlib.Logic.Relation
import ContentQuery.Draft.Build
import ContentQuery.Proofs.Draft.Operations

/-!
# Requests step by step

Whatever is asked of a draft after reading comes down to a few steps: a condition is attached, a
problem is reported, an answer is remembered, an ordering is added, a column is selected.  The steps
are listed here, and each request is cut into them.  What every step keeps is kept by every run.
-/

namespace ContentQuery
namespace Draft

open Relation (ReflTransGen)

/-! ## Steps -/

/-- One step of the rules of the platform. -/
inductive RuleStep : Draft → Draft → Prop
  | attach (d : Draft) (a condition : String) : RuleStep d (d.attach a condition)
  | warn (d : Draft) (title message : String) : RuleStep d (d.warn title message)
  | setOverlay (d : Draft) (table : String) (needed : Bool) : RuleStep d (d.setOverlay table needed)
  | setVersionOverlay (d : Draft) (table : String) (needed : Bool) :
      RuleStep d (d.setVersionOverlay table needed)
  /-- Only a column that is not selected yet is added. -/
  | selectExtra (d : Draft) (table a field : String) (hnew : d.hasField a field = false) :
      RuleStep d (d.selectExtra table a field)

/-- One step of a request. -/
inductive Step : Draft → Draft → Prop
  | rule {d d' : Draft} (h : RuleStep d d') : Step d d'
  | notify (d : Draft) (title message : String) : Step d (d.notify title message)
  | resolve (d : Draft) (name component : String) : Step d (d.resolve name component).1
  | fillPlaceholder (d : Draft) (target : ConditionTarget) (text : String) :
      Step d (d.fillPlaceholder target text)
  | addCondition (d : Draft) (text : String) :
      Step d { d with query := d.query.addCondition text }
  | addOrder (d : Draft) (texts : List String) (fields : List OrderField) :
      Step d
        { d with query :=
          { d.query with
            orderBy := d.query.orderBy ++ texts, orderFields := d.query.orderFields ++ fields } }
  | setOrderFields (d : Draft) (fields : List OrderField)
      (h : fields.length = d.query.orderFields.length) :
      Step d { d with query := { d.query with orderFields := fields } }
  | selectForSorting (d : Draft) (c : SortColumn) :
      Step d (d.select c.table c.aliasName c.field (c.aliasName ++ "$" ++ c.field))
  | setSorting (d : Draft) (inDatabase : Bool) : Step d { d with sortsInDatabase := inDatabase }

/-- One step of a filter or of an id list; no column is selected. -/
inductive FilterStep : Draft → Draft → Prop
  | attach (d : Draft) (a condition : String) : FilterStep d (d.attach a condition)
  | warn (d : Draft) (title message : String) : FilterStep d (d.warn title message)
  | notify (d : Draft) (title message : String) : FilterStep d (d.notify title message)
  | resolve (d : Draft) (name component : String) : FilterStep d (d.resolve name component).1
  | fillPlaceholder (d : Draft) (target : ConditionTarget) (text : String) :
      FilterStep d (d.fillPlaceholder target text)
  | addCondition (d : Draft) (text : String) :
      FilterStep d { d with query := d.query.addCondition text }
  | addOrder (d : Draft) (texts : List String) (fields : List OrderField) :
      FilterStep d
        { d with query :=
          { d.query with
            orderBy := d.query.orderBy ++ texts, orderFields := d.query.orderFields ++ fields } }

abbrev RuleSteps : Draft → Draft → Prop :=
  ReflTransGen RuleStep

abbrev FilterSteps : Draft → Draft → Prop :=
  ReflTransGen FilterStep

abbrev Steps : Draft → Draft → Prop :=
  ReflTransGen Step

theorem RuleSteps.steps {d d' : Draft} (h : RuleSteps d d') : Steps d d' :=
  ReflTransGen.mono (fun _ _ => Step.rule) _ _ h

theorem FilterStep.step {d d' : Draft} (h : FilterStep d d') : Step d d' := by
  cases h with
  | attach a condition => exact .rule (.attach d a condition)
  | warn title message => exact .rule (.warn d title message)
  | notify title message => exact .notify d title message
  | resolve name component => exact .resolve d name component
  | fillPlaceholder target text => exact .fillPlaceholder d target text
  | addCondition text => exact .addCondition d text
  | addOrder texts fields => exact .addOrder d texts fields

theorem FilterSteps.steps {d d' : Draft} (h : FilterSteps d d') : Steps d d' :=
  ReflTransGen.mono (fun _ _ => FilterStep.step) _ _ h

theorem RuleStep.single {d d' : Draft} (h : RuleStep d d') : RuleSteps d d' :=
  ReflTransGen.single h

theorem FilterStep.single {d d' : Draft} (h : FilterStep d d') : FilterSteps d d' :=
  ReflTransGen.single h

theorem Step.single {d d' : Draft} (h : Step d d') : Steps d d' :=
  ReflTransGen.single h

/-- A fold over states that hold a draft takes the steps of its turns. -/
theorem reflTransGen_foldl {r : Draft → Draft → Prop} {α σ : Type} {f : σ → α → σ}
    (draft : σ → Draft) (hturn : ∀ s x, ReflTransGen r (draft s) (draft (f s x))) (xs : List α)
    (s : σ) : ReflTransGen r (draft s) (draft (xs.foldl f s)) := by
  induction xs generalizing s with
  | nil => exact .refl
  | cons x xs ih => exact (hturn s x).trans (ih (f s x))

/-! ## The rules of the platform -/

section Rules

variable (p : Platform)

theorem ruleSteps_addVisibilityOf (d : Draft) (ref : TableRef) :
    RuleSteps d (addVisibilityOf p d ref) := by
  unfold addVisibilityOf
  split
  · exact (RuleStep.attach d _ _).single
  · exact (RuleStep.warn d _ _).single

theorem ruleSteps_addVisibility (d : Draft) : RuleSteps d (d.addVisibility p) := by
  unfold addVisibility
  split
  · exact .refl
  · exact reflTransGen_foldl id (ruleSteps_addVisibilityOf p) _ d
  · exact reflTransGen_foldl id (ruleSteps_addVisibilityOf p) _ d

theorem ruleSteps_addMissing (d : Draft) (table a : String) (columns selected : List String) :
    RuleSteps d (d.addMissing table a columns selected) := by
  refine reflTransGen_foldl id (fun d column => ?_) columns d
  split
  · exact .refl
  · next hnew =>
      rw [not_or, Bool.not_eq_true] at hnew
      exact (RuleStep.selectExtra d table a column hnew.2).single

theorem ruleSteps_addLanguageOverlay (d : Draft) (table a : String) (selected : List String)
    (mode : LanguageStorage) : RuleSteps d (d.addLanguageOverlay p table a selected mode) := by
  unfold addLanguageOverlay
  split
  · exact (RuleStep.setOverlay d table false).single
  · next columns _ =>
      -- The columns for the overlay come first, whether or not a condition follows.
      have hcolumns : RuleSteps d ((d.addMissing table a columns selected).setOverlay table true) :=
        (ruleSteps_addMissing d table a columns selected).tail (.setOverlay _ table true)
      simp only
      split
      · split
        · exact hcolumns.tail (.attach _ _ _)
        · exact hcolumns.tail (.setOverlay _ table false)
      · exact hcolumns

theorem ruleSteps_addLanguageOf (d : Draft) (entry : String × List String) :
    RuleSteps d (addLanguageOf p d entry) := by
  rcases entry with ⟨a, columns⟩
  unfold addLanguageOf
  simp only
  split
  · exact (RuleStep.setOverlay d _ false).single
  · split
    · exact .refl
    · exact (RuleStep.attach d _ _).single
    · exact ruleSteps_addLanguageOverlay p d _ a columns _

theorem ruleSteps_addLanguage (d : Draft) (selected : OrderedMap String (List String)) :
    RuleSteps d (d.addLanguage p selected) := by
  unfold addLanguage
  split
  · exact .refl
  · exact reflTransGen_foldl id (ruleSteps_addLanguageOf p) _ d

theorem ruleSteps_addVersioningOf (d : Draft) (entry : String × List String) :
    RuleSteps d (addVersioningOf p d entry) := by
  rcases entry with ⟨a, columns⟩
  unfold addVersioningOf
  simp only
  have hstart := (RuleStep.setVersionOverlay d (d.query.tableOf a) false).single
  split
  · exact hstart
  · split
    · exact hstart.tail (.attach _ _ _)
    · split
      · exact ((hstart.trans (ruleSteps_addMissing _ _ _ _ _)).tail
          (.setVersionOverlay _ _ true)).tail (.attach _ _ _)
      · exact (hstart.tail (.warn _ _ _)).tail (.attach _ _ _)

theorem ruleSteps_addMechanisms (d : Draft) : RuleSteps d (d.addMechanisms p) := by
  unfold addMechanisms
  exact ((ruleSteps_addVisibility p d).trans (ruleSteps_addLanguage p _ _)).trans
    (reflTransGen_foldl id (ruleSteps_addVersioningOf p) _ _)

end Rules

/-! ## Filters and id lists -/

theorem filterSteps_addGroupCondition (p : Platform) (target : ConditionTarget)
    (state : Draft × String) (c : Condition) :
    FilterSteps state.1 (addGroupCondition p target state c).1 := by
  rcases addGroupCondition_cases p target state c with h | ⟨message, h⟩ | ⟨text, h⟩ <;> rw [h]
  · exact (FilterStep.warn _ _ message).single
  · exact (FilterStep.fillPlaceholder _ target text).single

theorem filterSteps_addGroup (p : Platform) (state : Draft × Collected) (item : FilterGroup × Nat) :
    FilterSteps state.1 (addGroup p state item).1 := by
  rcases state with ⟨d, collected⟩
  rcases item with ⟨group, index⟩
  unfold addGroup
  simp only
  split
  · exact .refl
  · -- Finding the alias comes first, then the conditions of the group one by one.
    have hresolve :=
      FilterStep.resolve d (filterTable d.query group.table) (groupComponent index group)
    split
    · next d' _ heq =>
        rw [heq] at hresolve
        exact hresolve.single.tail (.notify d' _ _)
    · next d' a heq =>
        rw [heq] at hresolve
        have hgroup := fun target => hresolve.single.trans (reflTransGen_foldl Prod.fst
          (filterSteps_addGroupCondition p target) group.conditions (d', ""))
        split <;> exact hgroup _

theorem filterSteps_addFilterOrder (d : Draft) (order : FilterOrder) :
    FilterSteps d (addFilterOrder d order) := by
  unfold addFilterOrder
  split
  · have horder := (FilterStep.addOrder d ["RAND()"] []).single
    rwa [List.append_nil] at horder
  · simp only
    have hresolve := FilterStep.resolve d (filterTable d.query order.table)
      ("Order clause - " ++ filterTable d.query order.table ++ " - " ++ order.field ++ " - " ++
        order.direction)
    split
    · next d' _ heq =>
        rw [heq] at hresolve
        exact hresolve.single.tail (.notify d' _ _)
    · next d' a heq =>
        rw [heq] at hresolve
        exact hresolve.single.tail (.addOrder d' _ _)

theorem filterSteps_addFilter (p : Platform) (filter : Filter) (d : Draft) :
    FilterSteps d (d.addFilter p filter) := by
  have hgroups : FilterSteps d (filter.groups.zipIdx.foldl (addGroup p) (d, ∅)).1 :=
    reflTransGen_foldl Prod.fst (filterSteps_addGroup p) filter.groups.zipIdx (d, ∅)
  unfold addFilter
  cases hstate : filter.groups.zipIdx.foldl (addGroup p) (d, ∅) with
  | mk d' collected =>
      rw [hstate] at hgroups
      let attachOne (d : Draft) (e : String × List String) : Draft :=
        d.attach e.1 (Text.join (" " ++ filter.operator.word ++ " ") e.2)
      have hcollected : FilterSteps d (collected.entries.foldl attachOne d') :=
        hgroups.trans (reflTransGen_foldl (f := attachOne) id
          (fun d e => (FilterStep.attach d e.1 _).single) collected.entries d')
      exact (hcollected.tail (.addCondition _ filter.rawSql)).trans
        (reflTransGen_foldl id filterSteps_addFilterOrder filter.orders _)

theorem filterSteps_addItem (state : Draft × CollectedIds) (item : String) :
    FilterSteps state.1 (addItem state item).1 := by
  rcases state with ⟨d, ids⟩
  unfold addItem
  simp only
  split
  · exact (FilterStep.notify d _ _).single
  · split
    · exact .refl
    · next table _ =>
        have hresolve := FilterStep.resolve d table ("Id list - " ++ item)
        split
        · next d' a heq =>
            rw [heq] at hresolve
            exact hresolve.single
        · next d' _ heq =>
            rw [heq] at hresolve
            exact hresolve.single.tail (.notify d' _ _)

theorem filterSteps_addIdList (text : String) (d : Draft) : FilterSteps d (d.addIdList text) := by
  have hitems : FilterSteps d ((Text.items ',' text).foldl addItem (d, ∅)).1 :=
    reflTransGen_foldl Prod.fst filterSteps_addItem (Text.items ',' text) (d, ∅)
  unfold addIdList
  exact hitems.trans (reflTransGen_foldl id
    (fun d (e : String × List Nat) => (FilterStep.attach d e.1 _).single) _ _)

theorem steps_perform (p : Platform) (d : Draft) (operation : Operation) :
    Steps d (perform p d operation) := by
  cases operation with
  | mechanisms => exact RuleSteps.steps (ruleSteps_addMechanisms p d)
  | filter filter => exact FilterSteps.steps (filterSteps_addFilter p filter d)
  | idList text => exact FilterSteps.steps (filterSteps_addIdList text d)

/-! ## Ordering -/

/-- The order fields are rewritten one by one, and columns to sort by come to the selected ones. -/
theorem steps_decideOrdering (p : Platform) (d : Draft) : Steps d (d.decideOrdering p) := by
  have hstart := (Step.setSorting d true).single
  unfold decideOrdering
  simp only
  split
  · exact hstart
  · generalize hdecisions : d.query.orderFields.map (decideOrder p _) = decisions
    have hlength : (decisions.map (·.field)).length = d.query.orderFields.length := by
      rw [← hdecisions, List.length_map, List.length_map]
    have hrewritten := hstart.tail (.setOrderFields _ (decisions.map (·.field)) hlength)
    split
    · exact (hrewritten.trans (reflTransGen_foldl id
        (fun d c => (Step.selectForSorting d c).single) _ _)).tail (.setSorting _ false)
    · exact hrewritten

/-! ## Runs -/

/-- Everything that may be asked of a draft after reading. -/
inductive Request where
  | operation (operation : Operation)
  /-- To find the alias for a name. -/
  | resolve (name component : String)
  | build

def serve (p : Platform) (d : Draft) : Request → Draft
  | .operation operation => perform p d operation
  | .resolve name component => (d.resolve name component).1
  | .build => (d.build p).1

def serveAll (p : Platform) (requests : List Request) (d : Draft) : Draft :=
  requests.foldl (serve p) d

theorem steps_serve (p : Platform) (d : Draft) (request : Request) : Steps d (serve p d request) := by
  cases request with
  | operation operation => exact steps_perform p d operation
  | resolve name component => exact (Step.resolve d name component).single
  | build => exact steps_decideOrdering p d

theorem steps_serveAll (p : Platform) (requests : List Request) (d : Draft) :
    Steps d (serveAll p requests d) :=
  reflTransGen_foldl id (steps_serve p) requests d

end Draft
end ContentQuery
