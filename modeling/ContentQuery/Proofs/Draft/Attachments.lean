import ContentQuery.Draft.Filter
import ContentQuery.Draft.Mechanisms
import ContentQuery.Proofs.Query.Bookkeeping

/-!
# Conditions attached to a draft

Everything that is done to a draft after reading touches its WHERE and ON clauses through
`Draft.attach` alone.  So each operation is described by the list of the conditions that it attaches,
and the clauses after any run of operations by the lists put one behind the other.

Not covered are the operations that touch no condition: the decision on the ordering and the limits.
-/

namespace ContentQuery

/-- A condition on the table behind an alias. -/
structure Attachment where
  aliasName : String
  condition : String
deriving DecidableEq, Repr

namespace Attachment

/-- The conditions meant for one alias, trimmed, without the blank ones. -/
def on (attachments : List Attachment) (aliasName : String) : List String :=
  attachments.filterMap fun t =>
    if t.aliasName = aliasName ∧ Text.trim t.condition ≠ "" then some (Text.trim t.condition)
    else none

@[simp] theorem on_nil (a : String) : on [] a = [] :=
  rfl

theorem on_append (s t : List Attachment) (a : String) : on (s ++ t) a = on s a ++ on t a :=
  List.filterMap_append

theorem on_flatMap {α : Type} (xs : List α) (f : α → List Attachment) (a : String) :
    on (xs.flatMap f) a = xs.flatMap fun x => on (f x) a := by
  induction xs with
  | nil => rfl
  | cons x xs ih => rw [List.flatMap_cons, on_append, ih, List.flatMap_cons]

theorem on_eq_nil {ts : List Attachment} {a : String} (h : ∀ t ∈ ts, t.aliasName ≠ a) :
    on ts a = [] := by
  rw [on, List.filterMap_eq_nil_iff]
  intro t ht
  rw [if_neg fun hboth => h t ht hboth.1]

theorem on_cons_of_ne {t : Attachment} {a : String} (h : t.aliasName ≠ a)
    (ts : List Attachment) : on (t :: ts) a = on ts a := by
  simp [on, h]

theorem on_cons_of_blank {t : Attachment} (h : Text.trim t.condition = "")
    (a : String) (ts : List Attachment) : on (t :: ts) a = on ts a := by
  simp [on, h]

theorem on_cons_self {t : Attachment} (h : Text.trim t.condition ≠ "") (ts : List Attachment) :
    on (t :: ts) t.aliasName = Text.trim t.condition :: on ts t.aliasName := by
  simp [on, h]

/-- A trimmed condition that says something is attached as it is. -/
theorem on_singleton {a condition : String} (htrim : Text.trim condition = condition)
    (hne : condition ≠ "") : on [⟨a, condition⟩] a = [condition] := by
  have h := on_cons_self (t := ⟨a, condition⟩) (by rwa [htrim]) []
  rwa [htrim] at h

end Attachment

/-! ## ON clauses -/

namespace Join

/-- An ON text with one more condition. -/
def conjoin (on condition : String) : String :=
  (if on.isEmpty then "" else on ++ " AND ") ++ "(" ++ condition ++ ")"

/-- An ON text with several more conditions. -/
def conjoinAll (on : String) (conditions : List String) : String :=
  conditions.foldl conjoin on

@[simp] theorem conjoinAll_nil (on : String) : conjoinAll on [] = on :=
  rfl

theorem conjoinAll_cons (on c : String) (cs : List String) :
    conjoinAll on (c :: cs) = conjoinAll (conjoin on c) cs :=
  rfl

theorem conjoinAll_append (on : String) (cs ds : List String) :
    conjoinAll on (cs ++ ds) = conjoinAll (conjoinAll on cs) ds :=
  List.foldl_append

/-- A join whose ON clause is extended. -/
def restrict (join : Join) (conditions : List String) : Join :=
  { join with on := conjoinAll join.on conditions }

@[simp] theorem restrict_nil (join : Join) : join.restrict [] = join :=
  rfl

end Join

/-! ## Attaching to a query -/

namespace Query

/-- Adds a condition to the clause that belongs to an alias. -/
def attach (q : Query) (t : Attachment) : Query :=
  if q.isMainAlias t.aliasName then q.addCondition t.condition
  else if t.aliasName ∈ q.subtableAliases then q.addJoinCondition t.aliasName t.condition
  else q

def attachAll (q : Query) (attachments : List Attachment) : Query :=
  attachments.foldl attach q

@[simp] theorem attachAll_nil (q : Query) : q.attachAll [] = q :=
  rfl

theorem attachAll_cons (q : Query) (t : Attachment) (ts : List Attachment) :
    q.attachAll (t :: ts) = (q.attach t).attachAll ts :=
  rfl

theorem attachAll_append (q : Query) (s t : List Attachment) :
    q.attachAll (s ++ t) = (q.attachAll s).attachAll t :=
  List.foldl_append

/-- The conditions that reach the ON clause under an alias: those of the main alias go to WHERE. -/
def joinConditions (q : Query) (attachments : List Attachment) (a : String) : List String :=
  if q.isMainAlias a then [] else Attachment.on attachments a

/-- What attaching a condition does, clause by clause. -/
theorem attach_eq (q : Query) (t : Attachment) :
    q.attach t =
      if Text.trim t.condition = "" then q
      else if q.isMainAlias t.aliasName then
        { q with conditions := q.conditions ++ [Text.trim t.condition] }
      else if t.aliasName ∈ q.subtableAliases then
        { q with
          joins := q.joins.modify t.aliasName fun join => join.restrict [Text.trim t.condition] }
      else q := by
  unfold attach addCondition addJoinCondition
  by_cases hblank : Text.trim t.condition = ""
  · simp [hblank]
  · have hempty : (Text.trim t.condition).isEmpty = false := by simpa using hblank
    simp only [if_neg hblank, hempty]
    rfl

/-- Attaching leaves everything but conditions and joins. -/
theorem attach_frame (q : Query) (t : Attachment) :
    ∃ conditions joins, q.attach t = { q with conditions, joins } := by
  rw [attach_eq]
  split
  · exact ⟨q.conditions, q.joins, rfl⟩
  · split
    · exact ⟨_, q.joins, rfl⟩
    · split
      · exact ⟨q.conditions, _, rfl⟩
      · exact ⟨q.conditions, q.joins, rfl⟩

theorem attachAll_frame (q : Query) (ts : List Attachment) :
    ∃ conditions joins, q.attachAll ts = { q with conditions, joins } := by
  induction ts generalizing q with
  | nil => exact ⟨q.conditions, q.joins, rfl⟩
  | cons t ts ih =>
      rcases attach_frame q t with ⟨conditions, joins, ht⟩
      rcases ih (q.attach t) with ⟨conditions', joins', hts⟩
      rw [attachAll_cons, hts, ht]
      exact ⟨conditions', joins', rfl⟩

/-- The WHERE clause gains the conditions of the main alias, in their order. -/
theorem conditions_attachAll (q : Query) (ts : List Attachment) :
    (q.attachAll ts).conditions = q.conditions ++ Attachment.on ts q.mainAlias := by
  induction ts generalizing q with
  | nil => simp
  | cons t ts ih =>
      have hmain : (q.attach t).mainAlias = q.mainAlias := by
        rcases attach_frame q t with ⟨conditions, joins, h⟩
        rw [h]
      rw [attachAll_cons, ih, hmain, attach_eq]
      by_cases hblank : Text.trim t.condition = ""
      · rw [if_pos hblank, Attachment.on_cons_of_blank hblank]
      · rw [if_neg hblank]
        -- A condition for the main alias goes to the end of the clause, any other one elsewhere.
        by_cases ha : q.isMainAlias t.aliasName = true
        · have ht : t.aliasName = q.mainAlias := (beq_iff_eq.1 ha).symm
          have hon := Attachment.on_cons_self hblank ts
          rw [ht] at hon
          rw [if_pos ha, hon]
          simp
        · have ht : t.aliasName ≠ q.mainAlias := by
            rintro ht
            simp [isMainAlias, ht] at ha
          rw [if_neg ha, Attachment.on_cons_of_ne ht]
          split <;> rfl

theorem joinConditions_cons (q : Query) (t : Attachment) (ts : List Attachment) (a : String) :
    q.joinConditions (t :: ts) a = q.joinConditions [t] a ++ q.joinConditions ts a := by
  unfold joinConditions
  split
  · rfl
  · exact Attachment.on_append [t] ts a

/-- One condition reaches the join under its alias, unless the alias is that of the main table. -/
theorem joinConditions_singleton (q : Query) {t : Attachment} (hblank : Text.trim t.condition ≠ "")
    (a : String) :
    q.joinConditions [t] a =
      if q.isMainAlias t.aliasName = false ∧ a = t.aliasName then [Text.trim t.condition] else [] := by
  unfold joinConditions
  by_cases ha : a = t.aliasName
  · rw [ha, Attachment.on_cons_self hblank]
    cases q.isMainAlias t.aliasName <;> simp
  · simp [Attachment.on_cons_of_ne (Ne.symm ha), ha]

/-- Attached, a condition goes to the join under its alias, and every join keeps its place. -/
theorem joins_attach {q : Query} (hq : q.subtableAliases = q.joins.keys) (t : Attachment) :
    (q.attach t).joins.entries =
      q.joins.entries.map fun e => (e.1, e.2.restrict (q.joinConditions [t] e.1)) := by
  rw [attach_eq]
  by_cases hblank : Text.trim t.condition = ""
  · simp [hblank, joinConditions, Attachment.on_cons_of_blank hblank]
  · simp only [if_neg hblank, joinConditions_singleton q hblank]
    cases hmain : q.isMainAlias t.aliasName with
    | true => simp
    | false =>
        have hmap : (q.joins.modify t.aliasName fun join =>
            join.restrict [Text.trim t.condition]).entries =
              q.joins.entries.map fun e => (e.1, e.2.restrict
                (if e.1 = t.aliasName then [Text.trim t.condition] else [])) := by
          rw [OrderedMap.entries_modify]
          refine List.map_congr_left fun e _ => ?_
          split
          · rfl
          · rw [Join.restrict_nil]
        simp only [Bool.false_eq_true, if_false, true_and]
        split
        · exact hmap
        · -- Under an alias without a join nothing is changed.
          next hnot =>
            rw [hq] at hnot
            rw [← hmap, OrderedMap.modify, OrderedMap.get?_eq_none_iff.2 hnot]

/-- Every join keeps its place and gains the conditions of its alias, in their order. -/
theorem joins_attachAll {q : Query} (hq : q.subtableAliases = q.joins.keys)
    (ts : List Attachment) :
    (q.attachAll ts).joins.entries =
      q.joins.entries.map fun e => (e.1, e.2.restrict (q.joinConditions ts e.1)) := by
  induction ts generalizing q with
  | nil =>
      have hid : ∀ e : String × Join, (e.1, e.2.restrict (q.joinConditions [] e.1)) = e := by
        intro e
        simp [joinConditions]
      simp only [attachAll_nil, hid, List.map_id']
  | cons t ts ih =>
      rcases attach_frame q t with ⟨conditions, joins, hframe⟩
      -- The first attachment keeps the main table and the aliases, by which the rest are placed.
      have hmain : (q.attach t).mainAlias = q.mainAlias := by rw [hframe]
      have hconditions : ∀ a, (q.attach t).joinConditions ts a = q.joinConditions ts a := by
        intro a
        simp [joinConditions, isMainAlias, hmain]
      have hkeys : (q.attach t).subtableAliases = (q.attach t).joins.keys := by
        have haliases : (q.attach t).subtableAliases = q.subtableAliases := by rw [hframe]
        rw [haliases, hq]
        simp [OrderedMap.keys, joins_attach hq]
      rw [attachAll_cons, ih hkeys, joins_attach hq, List.map_map]
      refine List.map_congr_left fun e _ => ?_
      simp only [Function.comp_apply, hconditions, q.joinConditions_cons t ts, Join.restrict,
        Join.conjoinAll_append]

end Query
end ContentQuery
