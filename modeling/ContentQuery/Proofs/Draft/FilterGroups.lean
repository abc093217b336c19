import Mathlib.Data.List.Basic
import ContentQuery.Proofs.Draft.Growth
import ContentQuery.Proofs.Draft.OnClauses
import ContentQuery.Proofs.Query.Canonical

/-!
# Groups of a filter

A group of a filter is read with what a draft answers to names and with the fields of its query.  No
step of a filter changes these, so each group says the same wherever it stands: the alias it is
about, the fragments of its conditions, and the one text that it adds for the clause of an alias.

A condition that is left out leaves no trace but a diagnostic.
-/

namespace ContentQuery
namespace Draft

/-! ## Answers -/

/-- The alias that a draft answers with to a name, whoever asks. -/
def answer? (d : Draft) (name : String) : Option String :=
  (d.resolved.get? name).or
    (if d.query.tableOfAlias.contains name then some name else aliasOfTable? d.query name)

theorem resolve_of_none {d : Draft} {name : String} (h : d.answer? name = none)
    (component : String) :
    d.resolve name component = (d, .error (.unknownTable name component)) := by
  rcases d.resolve_cases name component with
    ⟨a, hknown, _⟩ | ⟨hnew, hname, _⟩ | ⟨_, _, _, hasked⟩ | ⟨a, hnew, hother, htable, _⟩
  · simp [answer?, hknown] at h
  · simp [answer?, hnew, OrderedMap.contains_iff, hname] at h
  · exact hasked
  · simp [answer?, hnew, OrderedMap.contains_iff, hother, htable] at h

theorem snd_resolve_of_some {d : Draft} {name a : String} (h : d.answer? name = some a)
    (component : String) : (d.resolve name component).2 = .ok a := by
  rcases d.resolve_cases name component with
    ⟨b, hknown, hasked⟩ | ⟨hnew, hname, hasked⟩ | ⟨hnew, hother, htable, _⟩ |
      ⟨b, hnew, hother, htable, hasked⟩
  · rw [hasked]
    simpa [answer?, hknown] using h
  · rw [hasked]
    simpa [answer?, hnew, OrderedMap.contains_iff, hname] using h
  · simp [answer?, hnew, OrderedMap.contains_iff, hother, htable] at h
  · rw [hasked]
    simpa [answer?, hnew, OrderedMap.contains_iff, hother, htable] using h

/-- A draft gives an answer exactly where it can, and the same one to everybody. -/
theorem resolve_eq_ok_iff {d d' : Draft} {name component a : String} :
    d.resolve name component = (d', .ok a) ↔
      d.answer? name = some a ∧ d' = (d.resolve name component).1 := by
  cases hanswer : d.answer? name with
  | none => simp [resolve_of_none hanswer]
  | some b =>
      have hsnd := snd_resolve_of_some hanswer component
      constructor
      · intro h
        rw [h, Except.ok.injEq] at hsnd
        rw [h, hsnd]
        exact ⟨rfl, rfl⟩
      · rintro ⟨hb, rfl⟩
        rw [Option.some.injEq] at hb
        exact Prod.ext rfl (hb ▸ hsnd)

theorem resolve_of_some {d : Draft} {name a : String} (h : d.answer? name = some a)
    (component : String) :
    d.resolve name component = ((d.resolve name component).1, .ok a) :=
  resolve_eq_ok_iff.2 ⟨h, rfl⟩

/-- Asking changes no answer. -/
theorem answer?_resolve (d : Draft) (name component other : String) :
    (d.resolve name component).1.answer? other = d.answer? other := by
  -- What is remembered is what would be answered again.
  have hremembered : ∀ (d' : Draft) (a : String), d'.query = d.query →
      d'.resolved = d.resolved.insert name a → d.answer? name = some a →
        d'.answer? other = d.answer? other := by
    intro d' a hquery hresolved hanswer
    rw [answer?, hquery, hresolved, OrderedMap.get?_insert]
    by_cases hother : other = name
    · rw [if_pos hother, hother, hanswer, Option.some_or]
    · rw [if_neg hother, answer?]
  rcases d.resolve_cases name component with
    ⟨a, _, hasked⟩ | ⟨hnew, hname, hasked⟩ | ⟨_, _, _, hasked⟩ |
      ⟨a, hnew, hother, htable, hasked⟩ <;> rw [hasked]
  · refine hremembered _ name rfl rfl ?_
    simp [answer?, hnew, OrderedMap.contains_iff, hname]
  · refine hremembered _ a rfl rfl ?_
    simp [answer?, hnew, OrderedMap.contains_iff, hother, htable]

/-- The drafts give the same answers, and their queries have the same tables and fields. -/
structure SameNames (d d' : Draft) : Prop where
  answers : d'.answer? = d.answer?
  query : d'.query.fixed = d.query.fixed

theorem SameNames.refl (d : Draft) : d.SameNames d :=
  ⟨rfl, rfl⟩

theorem SameNames.trans {a b c : Draft} (h : a.SameNames b) (h' : b.SameNames c) : a.SameNames c :=
  ⟨h'.answers.trans h.answers, h'.query.trans h.query⟩

/-- No step of a filter changes a name. -/
theorem FilterStep.sameNames {d d' : Draft} (h : FilterStep d d') : d.SameNames d' := by
  have hfixed := h.step.grows.query.fixed
  have htables : d'.query.tableOfAlias = d.query.tableOfAlias := h.step.grows.tableOfAlias
  have hkept : d'.resolved = d.resolved → d.SameNames d' := by
    refine fun hresolved => ⟨funext fun name => ?_, hfixed⟩
    rw [answer?, aliasOfTable?, hresolved, htables, answer?, aliasOfTable?]
  -- Only a resolution touches the answers, and it records the answer it has just given.
  cases h with
  | attach a condition =>
      exact hkept (by rw [Draft.attach_eq])
  | resolve name component => exact ⟨funext (d.answer?_resolve name component), hfixed⟩
  | fillPlaceholder target text =>
      refine hkept ?_
      unfold Draft.fillPlaceholder
      split <;> rfl
  | warn | notify | addCondition | addOrder => exact hkept rfl

theorem FilterSteps.sameNames {d d' : Draft} (h : FilterSteps d d') : d.SameNames d' := by
  induction h with
  | refl => exact .refl d
  | tail _ hstep ih => exact ih.trans hstep.sameNames

/-- A list to which every turn of a fold appends what the names of the draft decide. -/
theorem foldl_appends {α β σ : Type} {f : σ → α → σ} (draft : σ → Draft) (list : σ → List β)
    (part : Draft → α → List β) (hsteps : ∀ s x, FilterSteps (draft s) (draft (f s x)))
    (hnames : ∀ {d d' : Draft}, d.SameNames d' → part d' = part d)
    (hpart : ∀ s x, list (f s x) = list s ++ part (draft s) x) (xs : List α) (s : σ) :
    list (xs.foldl f s) = list s ++ xs.flatMap (part (draft s)) := by
  induction xs generalizing s with
  | nil => simp
  | cons x xs ih =>
      rw [List.foldl_cons, ih, hpart, hnames (hsteps s x).sameNames, List.flatMap_cons,
        List.append_assoc]

theorem flatMap_zipIdx {α β : Type} (f : α → List β) (xs : List α) :
    xs.zipIdx.flatMap (fun item => f item.1) = xs.flatMap f := by
  conv_rhs => rw [← List.zipIdx_map_fst 0 xs, List.flatMap_map]

/-! ## Conditions of a group -/

section Conditions

variable (p : Platform) (target : ConditionTarget)

/-- The fragment of a condition that restricts something and can be compiled. -/
def fragment? (c : Condition) : Option String :=
  match c.compile p.schema p.settings.minWordLength target with
  | .ok fragment => if fragment.isEmpty then none else some fragment
  | .error _ => none

/-- What is reported of a condition that cannot be compiled. -/
def conditionReport? (c : Condition) : Option Diagnostic :=
  match c.compile p.schema p.settings.minWordLength target with
  | .ok _ => none
  | .error e => some { severity := .warning, title := "Condition ignored", message := e.message }

/-- A condition that is to stay: it asks for something, and it can be compiled. -/
def keepsCondition (c : Condition) : Bool :=
  !c.value.isAll && (c.compile p.schema p.settings.minWordLength target).isOk

/-- A condition that asks for nothing has nothing to be compiled. -/
theorem compile_of_isAll {c : Condition} (h : c.value.isAll = true) :
    c.compile p.schema p.settings.minWordLength target = .ok "" := by
  simp only [Condition.compile, h, if_true]

/-- What a condition adds to the text of its group. -/
theorem addGroupCondition_eq (d : Draft) (text : String) (c : Condition) :
    addGroupCondition p target (d, text) c =
      match c.compile p.schema p.settings.minWordLength target with
      | .error e => (d.warn "Condition ignored" e.message, text)
      | .ok fragment =>
          if fragment.isEmpty then (d, text)
          else
            (if c.operator.isFulltext then d.fillPlaceholder target (Join.conjoin text fragment)
              else d, Join.conjoin text fragment) := by
  unfold addGroupCondition
  cases hall : c.value.isAll with
  | true =>
      rw [compile_of_isAll p target hall]
      rfl
  | false => rfl

theorem addGroupCondition_of_none {c : Condition} (h : fragment? p target c = none) (d : Draft)
    (text : String) :
    addGroupCondition p target (d, text) c =
      ((conditionReport? p target c).elim d fun r => d.report r.severity r.title r.message,
        text) := by
  rw [addGroupCondition_eq]
  unfold fragment? at h
  unfold conditionReport?
  cases hcompile : c.compile p.schema p.settings.minWordLength target with
  | error e => rfl
  | ok fragment =>
      rw [hcompile] at h
      simp only at h ⊢
      split at h
      · next hempty => rw [if_pos hempty, Option.elim_none]
      · cases h

theorem addGroupCondition_of_some {c : Condition} {fragment : String}
    (h : fragment? p target c = some fragment) (d : Draft) (text : String) :
    addGroupCondition p target (d, text) c =
        (if c.operator.isFulltext then d.fillPlaceholder target (Join.conjoin text fragment) else d,
          Join.conjoin text fragment) ∧
      conditionReport? p target c = none := by
  rw [addGroupCondition_eq]
  unfold fragment? at h
  unfold conditionReport?
  cases hcompile : c.compile p.schema p.settings.minWordLength target with
  | error e => simp [hcompile] at h
  | ok fragment' =>
      rw [hcompile] at h
      simp only at h ⊢
      split at h
      · cases h
      · next hempty =>
          cases h
          exact ⟨if_neg hempty, trivial⟩

/-- The text of a group is the conjunction of its fragments. -/
theorem text_addGroupConditions (conditions : List Condition) (d : Draft) (text : String) :
    (conditions.foldl (addGroupCondition p target) (d, text)).2 =
      Join.conjoinAll text (conditions.filterMap (fragment? p target)) := by
  induction conditions generalizing d text with
  | nil => rfl
  | cons c conditions ih =>
      rw [List.foldl_cons, List.filterMap_cons]
      cases hfragment : fragment? p target c with
      | none => rw [addGroupCondition_of_none p target hfragment, ih]
      | some fragment =>
          rw [(addGroupCondition_of_some p target hfragment d text).1, ih, Join.conjoinAll_cons]

/-- A condition that is left out has no fragment. -/
theorem filterMap_keepsCondition (conditions : List Condition) :
    (conditions.filter (keepsCondition p target)).filterMap (fragment? p target) =
      conditions.filterMap (fragment? p target) := by
  rw [List.filterMap_filter]
  refine List.filterMap_congr fun c _ => ?_
  unfold keepsCondition fragment?
  cases hall : c.value.isAll with
  | true => simp [compile_of_isAll p target hall]
  | false =>
      cases hcompile : c.compile p.schema p.settings.minWordLength target with
      | error e => simp [Except.isOk, Except.toBool]
      | ok fragment => simp [Except.isOk, Except.toBool]

end Conditions

/-! ## Groups -/

/-- The alias that a group is about, unless it is there for information only. -/
def groupAlias? (d : Draft) (g : FilterGroup) : Option String :=
  if g.void then none else d.answer? (filterTable d.query g.table)

theorem groupAlias?_eq_some_iff {d : Draft} {g : FilterGroup} {a : String} :
    d.groupAlias? g = some a ↔
      g.void = false ∧ d.answer? (filterTable d.query g.table) = some a := by
  unfold groupAlias?
  cases g.void <;> simp

theorem answer?_of_groupAlias? {d : Draft} {g : FilterGroup} (h : d.groupAlias? g = none)
    (hvoid : g.void = false) : d.answer? (filterTable d.query g.table) = none := by
  rwa [groupAlias?, hvoid, if_neg (by simp)] at h

/-- What the conditions of a group are about on an alias. -/
def groupTarget (q : Query) (a : String) (g : FilterGroup) : ConditionTarget where
  field := groupField q a g.field
  table := q.tableOf a
  aliasName := a

/-- The alias whose clause a group goes to. -/
def groupClause (q : Query) (a : String) (g : FilterGroup) : String :=
  if g.main then q.mainAlias else a

/-- The fragments of a group. -/
def groupFragments (p : Platform) (d : Draft) (a : String) (g : FilterGroup) : List String :=
  g.conditions.filterMap (fragment? p (groupTarget d.query a g))

/-- The condition of a group with these fragments. -/
def groupText (fragments : List String) : String :=
  "(" ++ Text.join " AND " (fragments.map fun f => "(" ++ f ++ ")") ++ ")"

/-- The condition that a group adds to the clause of an alias, if it goes there and has a
fragment. -/
def groupText? (p : Platform) (d : Draft) (clause : String) (g : FilterGroup) : Option String :=
  (d.groupAlias? g).bind fun a =>
    if groupFragments p d a g = [] ∨ groupClause d.query a g ≠ clause then none
    else some (groupText (groupFragments p d a g))

/-- What is reported of a group: that its table is unknown, or the conditions that fail. -/
def groupReports (p : Platform) (d : Draft) (g : FilterGroup) : List Diagnostic :=
  if g.void then []
  else match d.answer? (filterTable d.query g.table) with
    | none =>
        [{ severity := .notice
           title := "Condition ignored"
           message := "The condition did not apply to a table used in the query." }]
    | some a => g.conditions.filterMap (conditionReport? p (groupTarget d.query a g))

theorem SameNames.of_fixed {d d' : Draft} (h : d.SameNames d') {α : Type} (r : Query → α)
    (hr : ∀ q : Query, r q.fixed = r q) : r d'.query = r d.query :=
  calc r d'.query
      = r d'.query.fixed := (hr _).symm
    _ = r d.query.fixed := by rw [h.query]
    _ = r d.query := hr _

theorem SameNames.filterTable {d d' : Draft} (h : d.SameNames d') (table : String) :
    filterTable d'.query table = filterTable d.query table :=
  congrFun (h.of_fixed Draft.filterTable fun _ => rfl) table

/-- What a group says depends on the names alone. -/
theorem SameNames.group {d d' : Draft} (h : d.SameNames d') :
    d'.groupAlias? = d.groupAlias? ∧ groupTarget d'.query = groupTarget d.query ∧
      groupClause d'.query = groupClause d.query :=
  ⟨funext fun g => by
      rw [groupAlias?, groupAlias?, h.answers, h.filterTable g.table],
    h.of_fixed groupTarget fun _ => rfl, h.of_fixed groupClause fun _ => rfl⟩

theorem SameNames.groupFragments {d d' : Draft} (h : d.SameNames d') (p : Platform) :
    groupFragments p d' = groupFragments p d := by
  funext a g
  rw [Draft.groupFragments, h.group.2.1, Draft.groupFragments]

theorem SameNames.groupText? {d d' : Draft} (h : d.SameNames d') (p : Platform) (clause : String) :
    groupText? p d' clause = groupText? p d clause := by
  funext g
  rw [Draft.groupText?, h.group.1, h.group.2.2, h.groupFragments, Draft.groupText?]

theorem SameNames.groupReports {d d' : Draft} (h : d.SameNames d') (p : Platform) :
    groupReports p d' = groupReports p d := by
  funext g
  rw [Draft.groupReports, h.group.2.1, h.answers, h.filterTable g.table, Draft.groupReports]

/-! ### Texts -/

/-- Fragments put one behind the other, each in parentheses. -/
theorem conjoinAll_empty (fragments : List String) :
    Join.conjoinAll "" fragments =
      Text.join " AND " (fragments.map fun f => "(" ++ f ++ ")") := by
  cases fragments with
  | nil => rfl
  | cons f fragments =>
      have hfirst : Join.conjoin "" f = "(" ++ f ++ ")" := by simp [Join.conjoin]
      apply String.toList_injective
      rw [Join.conjoinAll_cons, Join.toList_conjoinAll (Join.conjoin_ne_empty "" f), hfirst,
        List.map_cons, Query.toList_join_cons, List.flatMap_map, List.flatMap_map]
      simp [Connective.furtherCondition, Scan.Section.text, Connective.parenthesized,
        Connective.and]

theorem conjoinAll_empty_eq_empty_iff {fragments : List String} :
    Join.conjoinAll "" fragments = "" ↔ fragments = [] := by
  cases fragments with
  | nil => simp
  | cons f fragments =>
      refine iff_of_false (fun h => ?_) (by simp)
      have hlist := congrArg String.toList h
      rw [Join.conjoinAll_cons, Join.toList_conjoinAll (Join.conjoin_ne_empty "" f)] at hlist
      simp [Join.conjoin] at hlist

/-! ### Adding a group -/

section AddGroup

variable (p : Platform)

/-- A group without an alias is skipped, and reported unless it is there for information only. -/
theorem addGroup_of_none {g : FilterGroup} {d : Draft} (h : d.groupAlias? g = none)
    (collected : Collected) (index : Nat) :
    addGroup p (d, collected) (g, index) =
      (if g.void then d
        else d.notify "Condition ignored"
          "The condition did not apply to a table used in the query.", collected) := by
  cases hvoid : g.void with
  | true => simp [addGroup, hvoid]
  | false => simp [addGroup, hvoid, resolve_of_none (answer?_of_groupAlias? h hvoid)]

/-- A group on a known alias: the alias is asked for, then the conditions are added one by one, and
the text goes to those collected for the clause. -/
theorem addGroup_of_known {g : FilterGroup} {d : Draft} {a : String}
    (h : d.groupAlias? g = some a) (collected : Collected) (index : Nat) :
    let asked := (d.resolve (filterTable d.query g.table) (groupComponent index g)).1
    addGroup p (d, collected) (g, index) =
      ((g.conditions.foldl (addGroupCondition p (groupTarget d.query a g)) (asked, "")).1,
        if groupFragments p d a g = [] then collected
        else collected.upsert (groupClause d.query a g) fun texts =>
          texts.getD [] ++ [groupText (groupFragments p d a g)]) := by
  intro asked
  rcases groupAlias?_eq_some_iff.1 h with ⟨hvoid, hanswer⟩
  have hasked : asked.query = d.query := query_resolve d _ _
  have hresolve : d.resolve (filterTable d.query g.table) (groupComponent index g) =
      (asked, .ok a) := resolve_of_some hanswer _
  have htext := text_addGroupConditions p (groupTarget d.query a g) g.conditions asked ""
  -- The clause is chosen after the conditions, when the main alias is still the same.
  have hnames : asked.SameNames
      (g.conditions.foldl (addGroupCondition p (groupTarget d.query a g)) (asked, "")).1 :=
    FilterSteps.sameNames (reflTransGen_foldl Prod.fst
      (filterSteps_addGroupCondition p (groupTarget d.query a g)) g.conditions (asked, ""))
  have hmain := hnames.of_fixed Query.mainAlias fun _ => rfl
  rw [hasked] at hmain
  rw [addGroup]
  simp only [hvoid, Bool.false_eq_true, if_false, hresolve, hasked]
  rw [← groupTarget]
  generalize g.conditions.foldl (addGroupCondition p (groupTarget d.query a g)) (asked, "") =
    added at htext hmain
  rw [← groupFragments] at htext
  rw [hmain, ← groupClause, htext]
  by_cases hnone : groupFragments p d a g = []
  · rw [if_pos hnone, if_pos (by simp [hnone])]
  · have htext : (Join.conjoinAll "" (groupFragments p d a g)).isEmpty = false := by
      simpa using mt conjoinAll_empty_eq_empty_iff.1 hnone
    rw [if_neg hnone, htext, if_neg (by simp), conjoinAll_empty, groupText]

/-- The conditions collected for a clause. -/
def collectedFor (collected : Collected) (clause : String) : List String :=
  (collected.get? clause).getD []

/-- A group adds to the clause that it goes to what it says. -/
theorem collectedFor_addGroup (state : Draft × Collected) (item : FilterGroup × Nat)
    (clause : String) :
    collectedFor (addGroup p state item).2 clause =
      collectedFor state.2 clause ++ (groupText? p state.1 clause item.1).toList := by
  rcases state with ⟨d, collected⟩
  rcases item with ⟨g, index⟩
  cases halias : d.groupAlias? g with
  | none =>
      rw [addGroup_of_none p halias]
      simp [groupText?, halias]
  | some a =>
      rw [addGroup_of_known p halias]
      simp only [groupText?, halias, Option.bind_some]
      by_cases hnone : groupFragments p d a g = []
      · rw [if_pos hnone, if_pos (.inl hnone), Option.toList_none, List.append_nil]
      · simp only [hnone, if_false, false_or, collectedFor, OrderedMap.get?_upsert]
        by_cases hclause : clause = groupClause d.query a g
        · rw [if_pos hclause, if_neg (by simp [hclause]), hclause]
          rfl
        · rw [if_neg hclause, if_pos fun h => hclause h.symm, Option.toList_none, List.append_nil]

/-- The conditions collected for a clause are those of the groups that go there, in their order. -/
theorem collectedFor_addGroups (groups : List FilterGroup) (d : Draft) (clause : String) :
    collectedFor (groups.zipIdx.foldl (addGroup p) (d, ∅)).2 clause =
      groups.filterMap (groupText? p d clause) := by
  have hfold := foldl_appends (f := addGroup p) Prod.fst (fun state => collectedFor state.2 clause)
    (fun d item => (groupText? p d clause item.1).toList) (filterSteps_addGroup p)
    (fun h => by rw [h.groupText?]) (fun state item => collectedFor_addGroup p state item clause)
    groups.zipIdx (d, ∅)
  rw [hfold, List.filterMap_eq_flatMap_toList]
  exact flatMap_zipIdx (fun g => (groupText? p d clause g).toList) groups

end AddGroup

/-! ### The condition of a clause -/

/-- The condition that a filter adds to the clause of an alias: those of the groups that go there,
combined by the operator of the filter. -/
def filterFragment? (p : Platform) (d : Draft) (filter : Filter) (clause : String) :
    Option String :=
  match filter.groups.filterMap (groupText? p d clause) with
  | [] => none
  | texts => some (Text.join (" " ++ filter.operator.word ++ " ") texts)

theorem exists_groupText {p : Platform} {d : Draft} {clause text : String} {g : FilterGroup}
    (h : groupText? p d clause g = some text) :
    ∃ a, d.groupAlias? g = some a ∧ groupFragments p d a g ≠ [] ∧
      groupClause d.query a g = clause ∧ text = groupText (groupFragments p d a g) := by
  rcases Option.bind_eq_some_iff.1 h with ⟨a, halias, htext⟩
  split at htext
  · cases htext
  · next hsays =>
      rw [not_or, ne_eq, Decidable.not_not] at hsays
      exact ⟨a, halias, hsays.1, hsays.2, (Option.some.inj htext).symm⟩

theorem ends_groupText (fragments : List String) :
    (groupText fragments).toList.head? = some '(' ∧
      (groupText fragments).toList.getLast? = some ')' := by
  have hclose : ")".toList = [')'] := by decide
  refine ⟨by simp [groupText], ?_⟩
  rw [groupText, String.toList_append, hclose, List.getLast?_concat]

/-- Combined conditions begin and end with a parenthesis. -/
theorem ends_join_groupTexts (sep : String) {texts : List String} (hne : texts ≠ [])
    (h : ∀ t ∈ texts, ∃ fragments, t = groupText fragments) :
    (Text.join sep texts).toList.head? = some '(' ∧
      (Text.join sep texts).toList.getLast? = some ')' := by
  induction texts with
  | nil => exact absurd rfl hne
  | cons t texts ih =>
      rcases h t (by simp) with ⟨fragments, rfl⟩
      cases texts with
      | nil => exact ends_groupText fragments
      | cons t' texts =>
          have hrest := ih (by simp) fun t ht => h t (List.mem_cons_of_mem _ ht)
          have hhead := (ends_groupText fragments).1
          refine ⟨by simp [Text.join, hhead], ?_⟩
          rw [Text.join, String.toList_append, List.getLast?_append, hrest.2, Option.some_or]

theorem trim_join_groupTexts (sep : String) {texts : List String} (hne : texts ≠ [])
    (h : ∀ t ∈ texts, ∃ fragments, t = groupText fragments) :
    Text.trim (Text.join sep texts) = Text.join sep texts ∧ Text.join sep texts ≠ "" := by
  rcases ends_join_groupTexts sep hne h with ⟨hhead, hlast⟩
  constructor
  · rw [Text.trim, Chars.trim_eq_self, String.ofList_toList]
    · simpa [hhead] using by decide
    · simpa [hlast] using by decide
  · intro hempty
    simp [hempty] at hhead

/-- A condition arrives unless it is blank. -/
theorem on_self (a condition : String) :
    Attachment.on [⟨a, condition⟩] a =
      if Text.trim condition = "" then [] else [Text.trim condition] := by
  by_cases hblank : Text.trim condition = ""
  · rw [if_pos hblank, Attachment.on_cons_of_blank (t := ⟨a, condition⟩) hblank, Attachment.on_nil]
  · rw [if_neg hblank, Attachment.on_cons_self (t := ⟨a, condition⟩) hblank, Attachment.on_nil]

theorem on_empty (a : String) : Attachment.on [⟨a, ""⟩] a = [] := by
  rw [on_self, if_pos (by decide)]

/-- Of what is attached entry by entry, the one under an alias reaches its clause. -/
theorem on_entries {β : Type} (m : OrderedMap String β) (text : String → β → String) (a : String) :
    Attachment.on (m.entries.map fun e => ⟨e.1, text e.1 e.2⟩) a =
      ((m.get? a).map fun v => Attachment.on [⟨a, text a v⟩] a).getD [] := by
  rw [List.map_eq_flatMap, Attachment.on_flatMap, OrderedMap.flatMap_entries (k := a)]
  exact fun e _ he => Attachment.on_cons_of_ne he []

/-- What is attached to a clause are the conditions collected for it. -/
theorem on_collected (collected : Collected) (sep clause : String) :
    Attachment.on (collected.entries.map fun e => ⟨e.1, Text.join sep e.2⟩) clause =
      Attachment.on [⟨clause, Text.join sep (collectedFor collected clause)⟩] clause := by
  rw [on_entries collected (fun _ texts => Text.join sep texts), collectedFor]
  cases collected.get? clause with
  | none => exact (on_empty clause).symm
  | some texts => rfl

/-- A clause gets one condition from a filter, and the WHERE clause the raw SQL after it. -/
theorem on_filterConditions (p : Platform) (filter : Filter) (d : Draft) (clause : String) :
    Attachment.on (filterConditions p filter d) clause =
      (filterFragment? p d filter clause).toList ++
        Attachment.on [⟨d.query.mainAlias, filter.rawSql⟩] clause := by
  rw [filterConditions, Attachment.on_append, on_collected, collectedFor_addGroups,
    filterFragment?]
  congr 1
  -- The groups of this clause become one text, which is attached unless there are none.
  split
  · next hnone =>
      rw [hnone]
      exact on_empty clause
  · next texts hne =>
      have htexts : ∀ t ∈ filter.groups.filterMap (groupText? p d clause),
          ∃ fragments, t = groupText fragments := by
        intro t ht
        rcases List.mem_filterMap.1 ht with ⟨g, _, hg⟩
        rcases exists_groupText hg with ⟨a, _, _, _, rfl⟩
        exact ⟨_, rfl⟩
      have htrim := trim_join_groupTexts (" " ++ filter.operator.word ++ " ") hne htexts
      exact Attachment.on_singleton htrim.1 htrim.2

end Draft
end ContentQuery
