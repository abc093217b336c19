import ContentQuery.Proofs.Draft.Answers
import ContentQuery.Proofs.Draft.Filters
import ContentQuery.Proofs.Query.Accepted

/-!
# Id lists

An item of an id list stands for one record of one alias, or it is reported once.  The records are
collected by alias in the order of the items, and each alias gets one condition on them: in the WHERE
clause if it is the main alias, in its ON clause else.  A condition holds digits and commas between
its parentheses, whatever the list said.
-/

namespace ContentQuery

/-! ## Items -/

namespace Chars

theorem splitLast?_of_not_mem {sep : Char} {s : List Char} (h : sep ∉ s) :
    splitLast? (· == sep) s = none := by
  induction s with
  | nil => rfl
  | cons c cs ih =>
      rw [List.mem_cons, not_or] at h
      simp [splitLast?, ih h.2, Ne.symm h.1]

/-- The cut is at the separator behind which no other stands. -/
theorem splitLast?_append {sep : Char} {b : List Char} (hb : sep ∉ b) (a : List Char) :
    splitLast? (· == sep) (a ++ sep :: b) = some (a, b) := by
  induction a with
  | nil => simp [splitLast?, splitLast?_of_not_mem hb]
  | cons c cs ih => simp [splitLast?, ih]

theorem exists_last {sep : Char} {s : List Char} (h : sep ∈ s) :
    ∃ a b, s = a ++ sep :: b ∧ sep ∉ b := by
  rcases List.eq_append_cons_of_mem (List.mem_reverse.2 h) with ⟨as, bs, hs, has⟩
  refine ⟨bs.reverse, as.reverse, ?_, by simpa using has⟩
  rw [← List.reverse_reverse s, hs]
  simp

end Chars

namespace Query

/-- An item of an id list is the number of a record of the main table, or the name of a table, an
underscore and a number. -/
inductive Identifies (q : Query) : (item aliasName : String) → (uid : Nat) → Prop
  | main {item : String} {uid : Nat} (hplain : '_' ∉ item.toList)
      (huid : Text.word? item = some uid) : q.Identifies item q.mainAlias uid
  | table {table number a : String} {uid : Nat} (hlast : '_' ∉ number.toList)
      (huid : Text.word? number = some uid) (ha : q.aliasFor? table = some a) :
      q.Identifies (table ++ "_" ++ number) a uid

end Query

namespace Draft

theorem splitItem_of_plain {item : String} (h : '_' ∉ item.toList) :
    splitItem item = (none, item) := by
  simp only [splitItem, Text.splitLast?, Chars.splitLast?_of_not_mem h, Option.map_none]

theorem splitItem_of_named {number : String} (h : '_' ∉ number.toList) (table : String) :
    splitItem (table ++ "_" ++ number) = (some table, number) := by
  have htext : (table ++ "_" ++ number).toList = table.toList ++ '_' :: number.toList := by
    simp
  simp only [splitItem, Text.splitLast?, htext, Chars.splitLast?_append h, Option.map_some,
    String.ofList_toList]

/-- An item has no underscore, or a last one. -/
theorem item_cases (item : String) :
    '_' ∉ item.toList ∨
      ∃ table number, item = table ++ "_" ++ number ∧ '_' ∉ number.toList := by
  by_cases h : '_' ∈ item.toList
  · rcases Chars.exists_last h with ⟨table, number, hitem, hlast⟩
    refine .inr ⟨String.ofList table, String.ofList number, ?_, by simpa using hlast⟩
    rw [← String.toList_inj, hitem]
    simp
  · exact .inl h

section Items

variable (main : String) (find : String → Option String)

/-- The record that an item stands for: its alias and its uid. -/
def itemRecord? (item : String) : Option (String × Nat) :=
  match splitItem item with
  | (none, number) => (Text.word? number).map fun uid => (main, uid)
  | (some table, number) =>
      (Text.word? number).bind fun uid => (find table).map fun a => (a, uid)

/-- What is reported of an item that stands for no record. -/
def itemReport (item : String) : Diagnostic where
  severity := .notice
  title := "Id ignored"
  message :=
    match splitItem item with
    | (some table, number) =>
        if (Text.word? number).isSome then
          "An item from the id list did not apply, because table " ++ table ++
            " is not used in the query."
        else "An item from the id list is not a valid uid: " ++ item
    | (none, _) => "An item from the id list is not a valid uid: " ++ item

/-- The report on an item, if it stands for no record. -/
def itemReport? (item : String) : Option Diagnostic :=
  if (itemRecord? main find item).isSome then none else some (itemReport item)

/-- The uid that an item adds to those of an alias. -/
def uidFor? (a : String) (item : String) : Option Nat :=
  (itemRecord? main find item).bind fun r => if r.1 = a then some r.2 else none

end Items

theorem itemRecord?_eq_some_iff {q : Query} {item a : String} {uid : Nat} :
    itemRecord? q.mainAlias q.aliasFor? item = some (a, uid) ↔ q.Identifies item a uid := by
  constructor
  · intro h
    rcases item_cases item with hplain | ⟨table, number, rfl, hlast⟩
    · rw [itemRecord?, splitItem_of_plain hplain] at h
      rcases Option.map_eq_some_iff.1 h with ⟨n, hn, hrecord⟩
      cases hrecord
      exact .main hplain hn
    · rw [itemRecord?, splitItem_of_named hlast] at h
      rcases Option.bind_eq_some_iff.1 h with ⟨n, hn, hfound⟩
      rcases Option.map_eq_some_iff.1 hfound with ⟨b, hb, hrecord⟩
      cases hrecord
      exact .table hlast hn hb
  · rintro (⟨hplain, huid⟩ | ⟨hlast, huid, ha⟩)
    · simp only [itemRecord?, splitItem_of_plain hplain, huid, Option.map_some]
    · simp only [itemRecord?, splitItem_of_named hlast, huid, ha, Option.bind_some,
        Option.map_some]

/-! ## Collecting -/

section Collecting

variable {d : Draft} {item a : String} {uid : Nat}

/-- An item that stands for a record adds its uid to those of the alias, and nothing is reported but
what an answer comes with. -/
theorem addItem_of_some (h : itemRecord? d.query.mainAlias d.answer? item = some (a, uid))
    (ids : CollectedIds) :
    ∃ asked, (asked = d ∨ ∃ name component, asked = (d.resolve name component).1) ∧
      addItem (d, ids) item = (asked, ids.upsert a fun old => old.getD [] ++ [uid]) := by
  rcases hsplit : splitItem item with ⟨table?, number⟩
  rw [itemRecord?, hsplit] at h
  simp only [addItem, hsplit]
  cases table? with
  | none =>
      rcases Option.map_eq_some_iff.1 h with ⟨n, hn, hrecord⟩
      cases hrecord
      refine ⟨d, .inl rfl, ?_⟩
      rw [hn]
  | some table =>
      rcases Option.bind_eq_some_iff.1 h with ⟨n, hn, hfound⟩
      rcases Option.map_eq_some_iff.1 hfound with ⟨b, hb, hrecord⟩
      cases hrecord
      have hresolve := resolve_of_some hb ("Id list - " ++ item)
      refine ⟨_, .inr ⟨table, "Id list - " ++ item, rfl⟩, ?_⟩
      simp only [hn]
      rw [hresolve]

/-- Any other item is reported, and adds nothing. -/
theorem addItem_of_none (h : itemRecord? d.query.mainAlias d.answer? item = none)
    (ids : CollectedIds) :
    addItem (d, ids) item =
      (d.report (itemReport item).severity (itemReport item).title (itemReport item).message,
        ids) := by
  rcases hsplit : splitItem item with ⟨table?, number⟩
  rw [itemRecord?, hsplit] at h
  simp only [addItem, itemReport, hsplit]
  cases hnumber : Text.word? number with
  | none =>
      cases table? with
      | none => rfl
      | some table =>
          simp only [hnumber, Option.isSome_none, Bool.false_eq_true, if_false]
          rfl
  | some n =>
      cases table? with
      | none => simp [hnumber] at h
      | some table =>
          -- Read as a number, the item can only fail by a table that has no alias.
          have hunknown : d.answer? table = none := by simpa [hnumber] using h
          simp only [resolve_of_none hunknown, hnumber, Option.isSome_some, if_true]
          rfl

end Collecting

/-- The uids collected for an alias. -/
def collectedIds (ids : CollectedIds) (a : String) : List Nat :=
  (ids.get? a).getD []

theorem SameNames.uidFor? {d d' : Draft} (h : d.SameNames d') :
    uidFor? d'.query.mainAlias d'.answer? = uidFor? d.query.mainAlias d.answer? := by
  rw [h.of_fixed Query.mainAlias fun _ => rfl, h.answers]

theorem collectedIds_addItem (state : Draft × CollectedIds) (item a : String) :
    collectedIds (addItem state item).2 a =
      collectedIds state.2 a ++
        (uidFor? state.1.query.mainAlias state.1.answer? a item).toList := by
  rcases state with ⟨d, ids⟩
  cases hrecord : itemRecord? d.query.mainAlias d.answer? item with
  | none =>
      rw [addItem_of_none hrecord]
      simp [uidFor?, hrecord]
  | some r =>
      rcases r with ⟨b, uid⟩
      rcases addItem_of_some hrecord ids with ⟨asked, _, hadded⟩
      simp only [hadded, uidFor?, hrecord, Option.bind_some, collectedIds, OrderedMap.get?_upsert]
      by_cases hb : b = a
      · rw [if_pos hb.symm, if_pos hb, hb]
        rfl
      · rw [if_neg (Ne.symm hb), if_neg hb, Option.toList_none, List.append_nil]

/-- The uids of an alias are those of the items that name it, in their order. -/
theorem collectedIds_addItems (items : List String) (d : Draft) (a : String) :
    collectedIds (items.foldl addItem (d, ∅)).2 a =
      items.filterMap (uidFor? d.query.mainAlias d.answer? a) := by
  have hfold := foldl_appends (f := addItem) Prod.fst (fun state => collectedIds state.2 a)
    (fun d item => (uidFor? d.query.mainAlias d.answer? a item).toList) filterSteps_addItem
    (fun h => by rw [h.uidFor?]) (fun state item => collectedIds_addItem state item a)
    items (d, ∅)
  rw [hfold, List.filterMap_eq_flatMap_toList]
  rfl

/-- An alias is entered with its first uid. -/
theorem ne_nil_of_mem_addItems (items : List String) (d : Draft) :
    ∀ e ∈ (items.foldl addItem (d, ∅)).2.entries, e.2 ≠ [] := by
  refine List.foldlRecOn (motive := fun state : Draft × CollectedIds =>
    ∀ e ∈ state.2.entries, e.2 ≠ []) items addItem (by simp) ?_
  rintro ⟨d, ids⟩ hids item _ e he
  cases hrecord : itemRecord? d.query.mainAlias d.answer? item with
  | none =>
      rw [addItem_of_none hrecord] at he
      exact hids e he
  | some r =>
      rcases addItem_of_some hrecord ids with ⟨asked, _, hadded⟩
      rw [hadded] at he
      rcases OrderedMap.mem_entries_upsert he with he | rfl
      · exact hids e he
      · simp

/-! ## Clauses -/

/-- The condition on the records of an alias. -/
def idClause (a : String) (uids : List Nat) : String :=
  a ++ ".uid IN (" ++ Text.join "," (uids.map Text.decimal) ++ ")"

/-- The condition that a list puts on an alias, if an item names it. -/
def idClause? (main : String) (find : String → Option String) (items : List String) (a : String) :
    Option String :=
  match items.filterMap (uidFor? main find a) with
  | [] => none
  | uids => some (idClause a uids)

theorem trim_idClause {a : String} (ha : Text.trim a = a) (uids : List Nat) :
    Text.trim (idClause a uids) = idClause a uids := by
  have hclose : ")".toList = [')'] := by decide
  have htrim : Chars.trim a.toList = a.toList := by
    rw [← String.ofList_inj, String.ofList_toList]
    exact ha
  rw [Text.trim, Chars.trim_eq_self, String.ofList_toList]
  · -- In front stands the alias, or else the dot behind it.
    intro c hc
    cases hlist : a.toList with
    | nil =>
        simp only [idClause, String.toList_append, hlist, List.nil_append] at hc
        obtain rfl : '.' = c := by simpa using hc
        decide
    | cons b bs =>
        simp only [idClause, String.toList_append, hlist, List.cons_append, List.head?_cons] at hc
        obtain rfl : b = c := Option.some.inj hc
        refine Chars.head_trim (s := a.toList) b ?_
        rw [htrim, hlist]
        rfl
  · intro c hc
    rw [idClause, String.toList_append, hclose, List.getLast?_concat] at hc
    cases hc
    decide

theorem idClause_ne_empty (a : String) (uids : List Nat) : idClause a uids ≠ "" := by
  intro h
  have hlist := congrArg String.toList h
  simp [idClause] at hlist

/-- Between the parentheses there are digits and commas. -/
theorem numbers_of_uids {uids : List Nat} (hne : uids ≠ []) :
    Text.join "," (uids.map Text.decimal) ≠ "" ∧
      ∀ c ∈ (Text.join "," (uids.map Text.decimal)).toList, c.isDigit = true ∨ c = ',' := by
  -- Every digit comes from a uid and every comma from the join; the first uid has a digit.
  have hdecimal : ∀ n, (Text.decimal n).toList = Chars.decimal n := fun n => by
    simp [Text.decimal]
  cases uids with
  | nil => exact absurd rfl hne
  | cons uid uids =>
      rw [List.map_cons, ← String.toList_inj.ne, Query.toList_join_cons]
      constructor
      · intro h
        rw [String.toList_empty, List.append_eq_nil_iff, hdecimal] at h
        exact Chars.decimal_ne_nil uid h.1
      · intro c hc
        rcases List.mem_append.1 hc with hc | hc
        · rw [hdecimal] at hc
          exact .inl (Chars.isDigit_of_mem_decimal hc)
        · rcases List.mem_flatMap.1 hc with ⟨t, ht, hc⟩
          rcases List.mem_map.1 ht with ⟨n, _, rfl⟩
          rcases List.mem_append.1 hc with hc | hc
          · exact .inr (by simpa using hc)
          · rw [hdecimal] at hc
            exact .inl (Chars.isDigit_of_mem_decimal hc)

/-- What is attached to an alias is its condition, if an item names it. -/
theorem on_idListConditions {d : Draft} {text a : String}
    (ha : ∀ item, ∀ uid ∈ uidFor? d.query.mainAlias d.answer? a item, Text.trim a = a) :
    Attachment.on (idListConditions text d) a =
      (idClause? d.query.mainAlias d.answer? (Text.items ',' text) a).toList := by
  have huids := collectedIds_addItems (Text.items ',' text) d a
  have hnonempty := ne_nil_of_mem_addItems (Text.items ',' text) d
  unfold idListConditions
  generalize (Text.items ',' text).foldl addItem (d, ∅) = state at huids hnonempty ⊢
  -- What is attached is read off the uids of the alias; there is an entry exactly if there are some.
  have hattached := on_entries state.2 idClause a
  unfold idClause at hattached
  rw [hattached, idClause?, ← huids, collectedIds]
  cases hget : state.2.get? a with
  | none => rfl
  | some uids =>
      rw [collectedIds, hget, Option.getD_some] at huids
      have hne : uids ≠ [] := hnonempty (a, uids) (OrderedMap.get?_eq_some_iff.1 hget)
      cases uids with
      | nil => exact absurd rfl hne
      | cons uid uids =>
          have hmem : uid ∈ (Text.items ',' text).filterMap
              (uidFor? d.query.mainAlias d.answer? a) := by
            rw [← huids]
            exact List.mem_cons_self
          rcases List.mem_filterMap.1 hmem with ⟨item, _, hitem⟩
          have htrim := trim_idClause (ha item uid hitem) (uid :: uids)
          exact Attachment.on_singleton htrim (idClause_ne_empty a _)

/-! ## Reports -/

/-- The items that were ignored so far, by their reports. -/
def ignoredIds (d : Draft) : List Diagnostic :=
  d.diagnostics.filter (·.title == "Id ignored")

theorem ignoredIds_resolve (d : Draft) (name component : String) :
    (d.resolve name component).1.ignoredIds = d.ignoredIds := by
  rcases d.resolve_cases name component with
    ⟨_, _, h⟩ | ⟨_, _, h⟩ | ⟨_, _, _, h⟩ | ⟨_, _, _, _, h⟩ <;> rw [h]
  · rfl
  · simp [ignoredIds, warn, report]

theorem ignoredIds_attach (d : Draft) (a condition : String) :
    (d.attach a condition).ignoredIds = d.ignoredIds := by
  rw [attach_eq]
  rfl

theorem ignoredIds_addItem (state : Draft × CollectedIds) (item : String) :
    (addItem state item).1.ignoredIds =
      state.1.ignoredIds ++
        (itemReport? state.1.query.mainAlias state.1.answer? item).toList := by
  rcases state with ⟨d, ids⟩
  cases hrecord : itemRecord? d.query.mainAlias d.answer? item with
  | none =>
      rw [addItem_of_none hrecord]
      simp [itemReport?, hrecord, ignoredIds, report, itemReport]
  | some r =>
      rcases addItem_of_some hrecord ids with ⟨asked, hasked, hadded⟩
      have hnone : itemReport? d.query.mainAlias d.answer? item = none := by
        simp [itemReport?, hrecord]
      simp only [hadded, hnone, Option.toList_none, List.append_nil]
      rcases hasked with rfl | ⟨name, component, rfl⟩
      · rfl
      · exact ignoredIds_resolve d name component

/-- Every item that stands for no record is reported once, in the order of the list. -/
theorem ignoredIds_addIdList (text : String) (d : Draft) :
    (d.addIdList text).ignoredIds =
      d.ignoredIds ++
        (Text.items ',' text).filterMap (itemReport? d.query.mainAlias d.answer?) := by
  have hitems := foldl_appends (f := addItem) Prod.fst (fun state => state.1.ignoredIds)
    (fun d item => (itemReport? d.query.mainAlias d.answer? item).toList) filterSteps_addItem
    (fun h => by rw [h.of_fixed Query.mainAlias fun _ => rfl, h.answers]) ignoredIds_addItem
    (Text.items ',' text) (d, ∅)
  rw [← List.filterMap_eq_flatMap_toList] at hitems
  let attachOne (d : Draft) (e : String × List Nat) : Draft := d.attach e.1 (idClause e.1 e.2)
  have hattached : ∀ (d : Draft) (es : List (String × List Nat)),
      (es.foldl attachOne d).ignoredIds = d.ignoredIds := fun d es =>
    foldl_kept ignoredIds (f := attachOne) (fun d e => d.ignoredIds_attach e.1 _) es d
  exact (hattached _ _).trans hitems

/-! ## Id lists in use -/

/-- Every alias is written without blanks around it. -/
def TrimmedAliases (q : Query) : Prop :=
  Text.trim q.mainAlias = q.mainAlias ∧ ∀ a ∈ q.tableOfAlias.keys, Text.trim a = a

theorem trimmedAliases_actAll (p : Platform) (actions : List Action) :
    TrimmedAliases (actAll p actions {}).query := by
  have hgrows : ∀ {d d' : Draft}, d.Grows d' → TrimmedAliases d.query → TrimmedAliases d'.query := by
    intro d d' h hd
    rw [TrimmedAliases, h.query.kept Query.mainAlias fun _ => rfl, h.tableOfAlias]
    exact hd
  refine actAll_induction (P := fun d => TrimmedAliases d.query) hgrows ?_ id
    (fun hd _ _ => hd) ?_ actions
  · intro text q hparse
    have hkept := Query.wellKept_of_parse hparse
    exact ⟨hkept.trimmed (hkept.covered.2 (.inl rfl)), fun a ha => hkept.trimmed ha⟩
  · exact ⟨by decide, fun a ha => (List.not_mem_nil ha).elim⟩

theorem mem_keys_of_aliasFor? {q : Query} {name a : String} (h : q.aliasFor? name = some a) :
    a ∈ q.tableOfAlias.keys := by
  unfold Query.aliasFor? at h
  split at h
  · next hname =>
      cases h
      exact hname
  · rcases Option.map_eq_some_iff.1 h with ⟨e, hfound, rfl⟩
    exact List.mem_map.2 ⟨e, List.mem_of_find?_eq_some hfound, rfl⟩

end Draft

theorem Query.Identifies.alias {q : Query} {item a : String} {uid : Nat}
    (h : q.Identifies item a uid) : a = q.mainAlias ∨ a ∈ q.tableOfAlias.keys := by
  cases h with
  | main => exact .inl rfl
  | table _ _ ha => exact .inr (Draft.mem_keys_of_aliasFor? ha)

namespace Draft

theorem uidFor?_eq_some_iff {q : Query} {item a : String} {uid : Nat} :
    uidFor? q.mainAlias q.aliasFor? a item = some uid ↔ q.Identifies item a uid := by
  rw [uidFor?, Option.bind_eq_some_iff, ← itemRecord?_eq_some_iff]
  constructor
  · rintro ⟨⟨b, n⟩, hrecord, huid⟩
    split at huid
    · next hb =>
        cases hb
        cases huid
        exact hrecord
    · cases huid
  · exact fun hrecord => ⟨(a, uid), hrecord, if_pos rfl⟩

/-- What becomes of an item: it adds one uid to one clause, or it is ignored with one report. -/
inductive ItemFate (q : Query) (item : String) : Prop
  | applied (a : String) (uid : Nat) (hitem : q.Identifies item a uid)
      (hclause : a = q.mainAlias ∨ a ∈ q.joins.keys)
      (hone : ∀ b, uidFor? q.mainAlias q.aliasFor? b item = if b = a then some uid else none)
      (hquiet : itemReport? q.mainAlias q.aliasFor? item = none)
  | ignored (r : Diagnostic) (hitem : ∀ a uid, ¬ q.Identifies item a uid)
      (hnone : ∀ b, uidFor? q.mainAlias q.aliasFor? b item = none)
      (hreport : itemReport? q.mainAlias q.aliasFor? item = some r)
      (hseverity : r.severity = .notice) (htitle : r.title = "Id ignored")

theorem Placed.itemFate {d : Draft} (hd : d.Placed) (item : String) : ItemFate d.query item := by
  cases hrecord : itemRecord? d.query.mainAlias d.query.aliasFor? item with
  | none =>
      refine .ignored (itemReport item) ?_ ?_ ?_ rfl rfl
      · intro a uid hitem
        rw [itemRecord?_eq_some_iff.2 hitem] at hrecord
        cases hrecord
      · intro b
        rw [uidFor?, hrecord, Option.bind_none]
      · rw [itemReport?, hrecord]
        rfl
  | some r =>
      rcases r with ⟨a, uid⟩
      have hitem := itemRecord?_eq_some_iff.1 hrecord
      refine .applied a uid hitem ?_ ?_ ?_
      · rcases hitem.alias with ha | ha
        · exact .inl ha
        · exact hd.covered a ha
      · intro b
        rw [uidFor?, hrecord, Option.bind_some]
        simp only [eq_comm]
      · rw [itemReport?, hrecord]
        rfl

/-- In every use each item of an id list is applied once, to one alias, or ignored with one report.
An alias that is named gets one condition, in the WHERE clause if it is the main alias and in its ON
clause else, with the uids in the order of their items and nothing but digits and commas between its
parentheses. -/
theorem idLists_of_use (p : Platform) (actions : List Action) (text : String) :
    let d := actAll p actions {}
    let after := d.addIdList text
    let items := Text.items ',' text
    let clause? := idClause? d.query.mainAlias d.query.aliasFor? items
    (∀ item ∈ items, ItemFate d.query item) ∧
      after.query.conditions = d.query.conditions ++ (clause? d.query.mainAlias).toList ∧
      after.query.joins.entries = d.query.joins.entries.map (fun e =>
        (e.1, e.2.restrict (if e.1 = d.query.mainAlias then [] else (clause? e.1).toList))) ∧
      after.ignoredIds =
        d.ignoredIds ++ items.filterMap (itemReport? d.query.mainAlias d.query.aliasFor?) ∧
      (∀ a uid item, uidFor? d.query.mainAlias d.query.aliasFor? a item = some uid ↔
        d.query.Identifies item a uid) ∧
      ∀ a condition, clause? a = some condition →
        ∃ numbers, condition = a ++ ".uid IN (" ++ numbers ++ ")" ∧
          numbers = Text.join "," ((items.filterMap
            (uidFor? d.query.mainAlias d.query.aliasFor? a)).map Text.decimal) ∧
          numbers ≠ "" ∧ ∀ c ∈ numbers.toList, c.isDigit = true ∨ c = ',' := by
  intro d after items clause?
  -- Whatever was asked before, an item is resolved as the query says.
  have hd : d.Placed := placed_actAll p actions
  have htrimmed : TrimmedAliases d.query := trimmedAliases_actAll p actions
  have hanswer : d.answer? = d.query.aliasFor? :=
    funext (remembers_actAll p actions (remembers_of_clear rfl)).answer?_eq
  have hon : ∀ a, Attachment.on (idListConditions text d) a = (clause? a).toList := by
    intro a
    have htrim : ∀ item, ∀ uid ∈ uidFor? d.query.mainAlias d.answer? a item,
        Text.trim a = a := by
      intro item uid huid
      rw [hanswer] at huid
      rcases (uidFor?_eq_some_iff.1 huid).alias with rfl | ha
      · exact htrimmed.1
      · exact htrimmed.2 a ha
    rw [on_idListConditions htrim, hanswer]
  have hattached := attaches_addIdList text d
  refine ⟨fun item _ => hd.itemFate item, ?_, ?_, ?_, fun _ _ _ => uidFor?_eq_some_iff, ?_⟩
  · exact hattached.conditions.trans (congrArg (d.query.conditions ++ ·) (hon d.query.mainAlias))
  · rw [hattached.joins hd.joined]
    refine List.map_congr_left fun e _ => ?_
    rw [Query.joinConditions, hon, Query.isMainAlias]
    by_cases hmain : e.1 = d.query.mainAlias
    · rw [if_pos (beq_iff_eq.2 hmain.symm), if_pos hmain]
    · rw [if_neg (mt beq_iff_eq.1 (Ne.symm hmain)), if_neg hmain]
  · rw [← hanswer]
    exact ignoredIds_addIdList text d
  · intro a condition hclause
    simp only [clause?, idClause?] at hclause
    split at hclause
    · cases hclause
    · next hne =>
        cases hclause
        exact ⟨_, rfl, rfl, numbers_of_uids hne⟩

/-- Of a list for the listing the pages and the news take what is theirs, and three items are
ignored. -/
theorem idLists_of_newsDraft :
    let text := "1, pages_12,news_3,n_+4,news_,shop_5,7;DROP,,1"
    let after := newsDraft.addIdList text
    "news_3" ∈ Text.items ',' text ∧ ItemFate newsDraft.query "news_3" ∧
      (∃ numbers, "pages.uid IN (1,12,1)" = "pages" ++ ".uid IN (" ++ numbers ++ ")" ∧
        numbers ≠ "" ∧ ∀ c ∈ numbers.toList, c.isDigit = true ∨ c = ',') ∧
      after.query.conditions = ["pages.uid IN (1,12,1)"] ∧
      after.query.joins.values.map (·.on) = ["n.pid = pages.uid AND (n.uid IN (3,4))"] ∧
      after.ignoredIds.map (·.message) =
        ["An item from the id list is not a valid uid: news_",
          "An item from the id list did not apply, because table shop is not used in the query.",
          "An item from the id list is not a valid uid: 7;DROP"] := by
  intro text after
  have hread : "news_3" ∈ Text.items ',' text ∧
      idClause? newsDraft.query.mainAlias newsDraft.query.aliasFor? (Text.items ',' text) "pages" =
        some "pages.uid IN (1,12,1)" ∧
      after.query.conditions = ["pages.uid IN (1,12,1)"] ∧
      after.query.joins.values.map (·.on) = ["n.pid = pages.uid AND (n.uid IN (3,4))"] ∧
      after.ignoredIds.map (·.message) =
        ["An item from the id list is not a valid uid: news_",
          "An item from the id list did not apply, because table shop is not used in the query.",
          "An item from the id list is not a valid uid: 7;DROP"] := by
    decide +kernel
  rcases hread with ⟨hmem, hclause, hseen⟩
  have huse := idLists_of_use (Catalog.site.platform (.atTime 0) {})
    [.parse "SELECT title, n.body FROM pages INNER JOIN news AS n ON n.pid = pages.uid"] text
  rw [actAll_newsDraft] at huse
  rcases huse with ⟨hfates, _, _, _, _, hclauses⟩
  rcases hclauses "pages" _ hclause with ⟨numbers, hnumbers, _, hne, hdigits⟩
  exact ⟨hmem, hfates _ hmem, ⟨numbers, hnumbers, hne, hdigits⟩, hseen⟩

end Draft
end ContentQuery
