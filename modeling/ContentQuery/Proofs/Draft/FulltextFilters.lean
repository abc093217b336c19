import ContentQuery.Proofs.Draft.FilterFields
import ContentQuery.Proofs.Draft.Filters
import ContentQuery.Proofs.Query.FulltextEntries

/-!
# Fulltext entries and fulltext filters

A fulltext entry of the SELECT list stands for a constant until a filter searches its index; then it
stands for the search.  The index that is searched is the last part of the field, the entry that is
filled goes by its third part and by the alias of the group.  They agree on an entry where neither
its table alias nor its index has a dot and the group is on that alias.
-/

namespace ContentQuery

open SelectList (placeholderKey)

namespace Draft

/-! ## What a filter fills -/

/-- The placeholder that a fulltext condition on a target fills. -/
def fillKey? (target : ConditionTarget) : Option String :=
  (namedIndex? target.field).map (placeholderKey target.aliasName)

section Fills

variable (p : Platform)

/-- The placeholders that the conditions of a group fill behind the text of those before, each with
its text. -/
def conditionFills (target : ConditionTarget) : String → List Condition → List (String × String)
  | _, [] => []
  | text, c :: cs =>
      match fragment? p target c with
      | none => conditionFills target text cs
      | some fragment =>
          (if c.operator.isFulltext then
            (fillKey? target).toList.map fun key => (key, Join.conjoin text fragment) else []) ++
              conditionFills target (Join.conjoin text fragment) cs

/-- The placeholders that a group fills. -/
def groupFills (d : Draft) (g : FilterGroup) : List (String × String) :=
  match d.groupAlias? g with
  | none => []
  | some a => conditionFills p (groupTarget d.query a g) "" g.conditions

theorem placeholders_fillPlaceholder (d : Draft) (target : ConditionTarget) (text : String) :
    (d.fillPlaceholder target text).query.placeholders =
      d.query.placeholders.assignAll ((fillKey? target).toList.map fun key => (key, text)) := by
  unfold fillPlaceholder fillKey?
  cases namedIndex? target.field <;> rfl

theorem placeholders_addGroupConditions (target : ConditionTarget) (conditions : List Condition)
    (d : Draft) (text : String) :
    (conditions.foldl (addGroupCondition p target) (d, text)).1.query.placeholders =
      d.query.placeholders.assignAll (conditionFills p target text conditions) := by
  induction conditions generalizing d text with
  | nil => rfl
  | cons c cs ih =>
      rw [List.foldl_cons, conditionFills]
      cases hfragment : fragment? p target c with
      | none =>
          rw [addGroupCondition_of_none p target hfragment, ih]
          cases conditionReport? p target c <;> rfl
      | some fragment =>
          rw [(addGroupCondition_of_some p target hfragment d text).1, ih,
            OrderedMap.assignAll_append]
          split
          · rw [placeholders_fillPlaceholder]
          · rfl

theorem SameNames.groupFills {d d' : Draft} (h : d.SameNames d') :
    groupFills p d' = groupFills p d := by
  funext g
  rw [Draft.groupFills, h.group.1, h.group.2.1, Draft.groupFills]

theorem placeholders_addGroup (state : Draft × Collected) (item : FilterGroup × Nat) :
    (addGroup p state item).1.query.placeholders =
      state.1.query.placeholders.assignAll (groupFills p state.1 item.1) := by
  rcases state with ⟨d, collected⟩
  rcases item with ⟨g, index⟩
  unfold groupFills
  cases halias : d.groupAlias? g with
  | none =>
      rw [addGroup_of_none p halias]
      split <;> rfl
  | some a =>
      rw [addGroup_of_known p halias]
      simp only
      rw [placeholders_addGroupConditions, query_resolve]

theorem placeholders_addGroups (items : List (FilterGroup × Nat)) (state : Draft × Collected) :
    (items.foldl (addGroup p) state).1.query.placeholders =
      state.1.query.placeholders.assignAll (items.flatMap fun i => groupFills p state.1 i.1) := by
  induction items generalizing state with
  | nil => rfl
  | cons item items ih =>
      have hnames := (filterSteps_addGroup p state item).sameNames
      rw [List.foldl_cons, ih, placeholders_addGroup, hnames.groupFills, List.flatMap_cons,
        OrderedMap.assignAll_append]

theorem placeholders_attachCollected (filter : Filter) (state : Draft × Collected) :
    (attachCollected filter state).query.placeholders = state.1.query.placeholders := by
  refine List.foldlRecOn
    (motive := fun d : Draft => d.query.placeholders = state.1.query.placeholders) _ _ rfl ?_
  intro d hd e _
  rcases d.query.attach_frame ⟨e.1, Text.join (" " ++ filter.operator.word ++ " ") e.2⟩ with
    ⟨conditions, joins, hattached⟩
  rw [query_attach, hattached]
  exact hd

theorem placeholders_addFilterOrder (d : Draft) (order : FilterOrder) :
    (addFilterOrder d order).query.placeholders = d.query.placeholders := by
  cases hkeeps : d.keepsOrder order with
  | false =>
      rw [addFilterOrder_of_not_keepsOrder hkeeps]
      rfl
  | true =>
      rcases addFilterOrder_of_keepsOrder hkeeps with ⟨asked, _, _, hasked, horder⟩
      have hquery : asked.query = d.query := by
        rcases hasked with rfl | ⟨name, component, rfl⟩
        · rfl
        · exact d.query_resolve name component
      rw [horder, ← hquery]

/-- A filter fills placeholders group by group; the rest of it leaves them. -/
theorem placeholders_addFilter (d : Draft) (filter : Filter) :
    (d.addFilter p filter).query.placeholders =
      d.query.placeholders.assignAll (filter.groups.flatMap (groupFills p d)) := by
  have hadded : (d.addConditions p filter).query.placeholders =
      d.query.placeholders.assignAll (filter.groups.flatMap (groupFills p d)) := by
    -- The raw text goes to the condition of the query, the orders to its list of orders.
    have hraw : ∀ q : Query, (q.addCondition filter.rawSql).placeholders = q.placeholders := by
      intro q
      unfold Query.addCondition
      simp only
      split <;> rfl
    rw [addConditions, hraw, placeholders_attachCollected, placeholders_addGroups,
      flatMap_zipIdx (groupFills p d)]
  rw [addFilter_eq]
  refine List.foldlRecOn (motive := fun d' : Draft => d'.query.placeholders =
    d.query.placeholders.assignAll (filter.groups.flatMap (groupFills p d))) _ _ hadded ?_
  intro d' hd' order _
  rw [placeholders_addFilterOrder, hd']

end Fills

/-! ## Parts of a field -/

/-- The parts of the expression of a fulltext entry. -/
theorem splitOn_placeholderKey (a index : String) :
    Text.splitOn '.' (placeholderKey a index) =
      Text.splitOn '.' a ++ "fulltext" :: Text.splitOn '.' index := by
  have hkey : (placeholderKey a index).toList =
      a.toList ++ '.' :: ("fulltext".toList ++ '.' :: index.toList) := by
    have hmiddle : ".fulltext.".toList = '.' :: ("fulltext".toList ++ ['.']) := by decide
    rw [placeholderKey, String.toList_append, String.toList_append, hmiddle]
    simp
  have hword : '.' ∉ "fulltext".toList := by decide
  rw [Text.splitOn, hkey, List.splitOn_append_cons_self,
    List.splitOn_append_cons_self_of_not_mem hword, List.map_append, List.map_cons,
    String.ofList_toList]
  rfl

theorem splitOn_of_not_mem {s : String} (h : '.' ∉ s.toList) : Text.splitOn '.' s = [s] := by
  rw [Text.splitOn, List.splitOn_eq_singleton h, List.map_cons, String.ofList_toList, List.map_nil]

theorem not_mem_of_mem_parts {s part : String} (h : part ∈ Text.splitOn '.' s) :
    '.' ∉ part.toList := by
  rcases List.mem_map.1 h with ⟨chars, hchars, rfl⟩
  rw [String.toList_ofList]
  exact Chars.not_mem_of_mem_splitOn hchars

theorem splitOn_ne_nil (s : String) : Text.splitOn '.' s ≠ [] := by
  simp [Text.splitOn]

/-- The index that is searched is the last part of the field, however many parts there are. -/
theorem fulltextIndex_eq (target : ConditionTarget) :
    target.fulltextIndex = (Text.splitOn '.' target.field).getLast?.getD target.field := by
  unfold ConditionTarget.fulltextIndex
  simp only
  split
  · next hparts => rw [hparts]; rfl
  · rfl

section Keys

variable {target : ConditionTarget} {a index : String}

/-- The index of an entry is searched exactly if it has no dot. -/
theorem fulltextIndex_eq_iff (h : target.field = placeholderKey a index) :
    target.fulltextIndex = index ↔ '.' ∉ index.toList := by
  have hlast : (Text.splitOn '.' target.field).getLast? = (Text.splitOn '.' index).getLast? := by
    rw [h, splitOn_placeholderKey, List.getLast?_append, List.getLast?_cons_of_ne_nil
      (splitOn_ne_nil index), List.getLast?_eq_some_getLast (splitOn_ne_nil index), Option.some_or]
  rw [fulltextIndex_eq, hlast]
  constructor
  · intro hindex
    rw [List.getLast?_eq_some_getLast (splitOn_ne_nil index), Option.getD_some] at hindex
    have hpart := not_mem_of_mem_parts (List.getLast_mem (splitOn_ne_nil index))
    rwa [hindex] at hpart
  · intro hdot
    rw [splitOn_of_not_mem hdot]
    rfl

theorem placeholderKey_inj {i j : String} (h : placeholderKey a i = placeholderKey a j) :
    i = j := by
  apply String.toList_injective
  have hlist := congrArg String.toList h
  simpa [placeholderKey] using hlist

/-- On its own alias the entry is filled exactly if its index has no dot. -/
theorem fillKey?_eq_iff (h : target.field = placeholderKey a index) (hown : target.aliasName = a)
    (ha : '.' ∉ a.toList) :
    fillKey? target = some (placeholderKey a index) ↔ '.' ∉ index.toList := by
  have hnamed : namedIndex? target.field = (Text.splitOn '.' index).head? := by
    rw [namedIndex?, h, splitOn_placeholderKey, splitOn_of_not_mem ha, List.head?_eq_getElem?]
    rfl
  rw [fillKey?, hnamed, hown, Option.map_eq_some_iff]
  constructor
  · rintro ⟨i, hi, hkey⟩
    rw [placeholderKey_inj hkey] at hi
    exact not_mem_of_mem_parts (List.mem_of_head? hi)
  · intro hdot
    rw [splitOn_of_not_mem hdot]
    exact ⟨index, rfl, rfl⟩

end Keys

/-! ## Groups on fulltext entries -/

/-- A group on an alias names an entry of the SELECT list: the entry is the last one to carry the
name of the field, or no entry does and it is that field of that alias. -/
def Names (q : Query) (a : String) (g : FilterGroup) (f : SelectField) : Prop :=
  q.carrier? g.field = some f ∨
    q.carrier? g.field = none ∧ a = f.tableAlias ∧ g.field = f.field

theorem field_of_names {q : Query} (hq : q.AliasesKept) {a index : String} {g : FilterGroup}
    {f : SelectField} (hentry : q.FulltextEntry f index) (h : Names q a g f) :
    groupField q a g.field = placeholderKey f.tableAlias index := by
  rw [groupField_eq hq]
  rcases h with h | ⟨h, ha, hfield⟩
  · rw [h, Option.map_some, Option.getD_some, hentry.expression]
  · rw [h, Option.map_none, Option.getD_none, ← hentry.expression, ha, hfield,
      SelectField.expression, if_neg (by simp [hentry.column])]

theorem groupText_singleton (fragment : String) :
    groupText [fragment] = "((" ++ fragment ++ "))" := by
  apply String.toList_injective
  simp [groupText, Text.join]

section SingleCondition

variable {p : Platform} {target : ConditionTarget} {c : Condition} {fragment : String}

/-- A fulltext condition is a search in the index of its target. -/
theorem search_of_fragment (hfulltext : c.operator.isFulltext = true)
    (h : fragment? p target c = some fragment) :
    Fulltext.condition p.schema p.settings.minWordLength
      { table := target.table
        aliasName := target.aliasName
        index := target.fulltextIndex
        text := c.value.asText
        natural := c.operator == .fulltextNatural
        negate := c.negate } = .ok fragment := by
  unfold fragment? at h
  have hcompile : c.compile p.schema p.settings.minWordLength target = .ok fragment := by
    split at h
    · next text htext =>
        split at h
        · cases h
        · rw [htext, Option.some.inj h]
    · cases h
  -- A condition that asks for everything compiles to the empty text, which is no fragment.
  have hrestricts : c.value.isAll = false := by
    cases hall : c.value.isAll with
    | false => rfl
    | true =>
        rw [compile_of_isAll p target hall] at h
        simp at h
  unfold Condition.compile at hcompile
  simp only [hrestricts, Bool.false_eq_true, if_false] at hcompile
  cases hoperator : c.operator with
  | fulltext | fulltextNatural => simpa [hoperator] using hcompile
  | oneOf | andGroup | orGroup | like | start | finish | comparison _ =>
      rw [hoperator] at hfulltext
      cases hfulltext

theorem groupFills_of_single {d : Draft} {g : FilterGroup} {a : String}
    (halias : d.groupAlias? g = some a) (hsingle : g.conditions = [c])
    (hfulltext : c.operator.isFulltext = true)
    (h : fragment? p (groupTarget d.query a g) c = some fragment) :
    groupFills p d g =
      (fillKey? (groupTarget d.query a g)).toList.map fun key => (key, "(" ++ fragment ++ ")") := by
  have hfirst : Join.conjoin "" fragment = "(" ++ fragment ++ ")" := by simp [Join.conjoin]
  simp only [groupFills, halias, hsingle, conditionFills, h, hfulltext, if_true, List.append_nil,
    hfirst]

end SingleCondition

/-- In every use, a group with one fulltext condition that names a fulltext entry searches the index
of the entry exactly if the index has no dot.  What it attaches is the search, and the entry stands
for the search afterwards, if no later group takes it, wherever the key of the group is that of the
entry; else the group leaves the entry alone.  On its own alias, if that has no dot, the key is that
of the entry exactly if the index has no dot. -/
theorem fulltext_of_use (p : Platform) (actions : List Action) {f : SelectField} {index : String}
    (hentry : (actAll p actions {}).query.FulltextEntry f index) {g : FilterGroup} {a : String}
    (halias : (actAll p actions {}).groupAlias? g = some a)
    (hnames : Names (actAll p actions {}).query a g f) {c : Condition}
    (hsingle : g.conditions = [c]) (hfulltext : c.operator.isFulltext = true) {fragment : String}
    (hfragment : fragment? p (groupTarget (actAll p actions {}).query a g) c = some fragment) :
    let d := actAll p actions {}
    let target := groupTarget d.query a g
    let key := placeholderKey f.tableAlias index
    Fulltext.condition p.schema p.settings.minWordLength
        { table := d.query.tableOf a
          aliasName := a
          index := target.fulltextIndex
          text := c.value.asText
          natural := c.operator == .fulltextNatural
          negate := c.negate } = .ok fragment ∧
      (target.fulltextIndex = index ↔ '.' ∉ index.toList) ∧
      groupText? p d (groupClause d.query a g) g = some ("((" ++ fragment ++ "))") ∧
      (a = f.tableAlias → '.' ∉ a.toList →
        (fillKey? target = some key ↔ '.' ∉ index.toList)) ∧
      ∀ (filter : Filter) (before later : List FilterGroup),
        filter.groups = before ++ g :: later →
          let after := d.addFilter p filter
          let without := d.addFilter p { filter with groups := before ++ later }
          (fillKey? target = some key → (∀ g' ∈ later, key ∉ (groupFills p d g').map Prod.fst) →
            after.query.placeholders.get? key = some ("(" ++ fragment ++ ")")) ∧
          (fillKey? target ≠ some key →
            after.query.placeholders.get? key = without.query.placeholders.get? key) := by
  have hkept := aliasesKept_actAll p actions
  generalize actAll p actions {} = d at *
  intro d target key
  have hfield : target.field = placeholderKey f.tableAlias index :=
    field_of_names hkept hentry hnames
  have hfills : groupFills p d g =
      (fillKey? target).toList.map fun key => (key, "(" ++ fragment ++ ")") :=
    groupFills_of_single halias hsingle hfulltext hfragment
  refine ⟨search_of_fragment hfulltext hfragment, fulltextIndex_eq_iff hfield, ?_, ?_, ?_⟩
  · have hfragments : groupFragments p d a g = [fragment] := by
      rw [groupFragments, hsingle, List.filterMap_cons_some hfragment, List.filterMap_nil]
    rw [groupText?, halias, Option.bind_some, hfragments, if_neg (by simp), groupText_singleton]
  · rintro rfl hdot
    exact fillKey?_eq_iff hfield rfl hdot
  · intro filter before later hgroups after without
    have hafter := placeholders_addFilter p d filter
    have hwithout := placeholders_addFilter p d { filter with groups := before ++ later }
    rw [hgroups, List.flatMap_append, List.flatMap_cons, hfills] at hafter
    rw [List.flatMap_append] at hwithout
    refine ⟨fun hkey hlater => ?_, fun hkey => ?_⟩
    · -- The last text for the key is that of the group.
      have hothers : key ∉ (later.flatMap (groupFills p d)).map Prod.fst := by
        rw [List.map_flatMap, List.mem_flatMap]
        rintro ⟨g', hg', hmem⟩
        exact hlater g' hg' hmem
      rw [hkey] at hafter
      rw [hafter]
      exact OrderedMap.get?_assignAll_last hentry.registered _ _ hothers
    · rw [hafter, hwithout]
      refine OrderedMap.get?_assignAll_skip _ ?_ _ _
      simpa using hkey

/-- A site whose pages can be searched by their titles, those of another database too. -/
def searchSite : Platform :=
  let pages : TableSchema :=
    { columns := .ofList [("uid", none), ("pid", none), ("title", none)]
      indexes := .ofList [("SEARCH", ["title"])] }
  let catalog : Catalog := { tables := .ofList [("pages", pages), ("db.pages", pages)] }
  catalog.platform (.atTime 0) {}

/-- A search among the scores of the pages. -/
def scoreGroup : FilterGroup :=
  { field := "score", conditions := [⟨.fulltext, .single "foox", false⟩] }

/-- Pages with their score. -/
def scoreDraft : Draft :=
  actAll searchSite [.parse "SELECT uid, fulltext:SEARCH AS score FROM pages"] {}

/-- The score of the pages is the search that restricts them. -/
theorem fulltext_of_score :
    (groupTarget scoreDraft.query "pages" scoreGroup).fulltextIndex = "SEARCH" ∧
      groupText? searchSite scoreDraft "pages" scoreGroup =
        some "((MATCH(pages.title) AGAINST('foox' IN BOOLEAN MODE)))" ∧
      (scoreDraft.addFilter searchSite { groups := [scoreGroup] }).query.placeholders.get?
          "pages.fulltext.SEARCH" =
        some "(MATCH(pages.title) AGAINST('foox' IN BOOLEAN MODE))" := by
  let f : SelectField :=
    { table := "pages", tableAlias := "pages", field := "fulltext.SEARCH"
      aliasName := some "score", isCall := false }
  have hread : f ∈ scoreDraft.query.select ∧
      placeholderKey "pages" "SEARCH" ∈ scoreDraft.query.placeholders.keys ∧
      scoreDraft.groupAlias? scoreGroup = some "pages" ∧
      scoreDraft.query.carrier? "score" = some f ∧
      fragment? searchSite (groupTarget scoreDraft.query "pages" scoreGroup)
          ⟨.fulltext, .single "foox", false⟩ =
        some "MATCH(pages.title) AGAINST('foox' IN BOOLEAN MODE)" := by
    decide +kernel
  rcases hread with ⟨hmem, hregistered, halias, hcarrier, hfragment⟩
  have hentry : scoreDraft.query.FulltextEntry f "SEARCH" := ⟨hmem, rfl, by decide, hregistered⟩
  have hdot : '.' ∉ "SEARCH".toList := by decide
  rcases fulltext_of_use searchSite
    [.parse "SELECT uid, fulltext:SEARCH AS score FROM pages"] hentry halias (.inl hcarrier) rfl rfl
    hfragment with ⟨_, hindex, htext, hkey, hfilter⟩
  rw [← scoreDraft] at hindex htext hkey hfilter
  have hown := (hkey rfl (by decide)).2 hdot
  exact ⟨hindex.2 hdot, htext, (hfilter { groups := [scoreGroup] } [] [] rfl).1 hown (by simp)⟩

/-- For pages of another database the parts of the field are counted wrong: the search restricts the
pages, but their score stays 1. -/
theorem qualifiedScore_unfilled :
    let d := actAll searchSite [.parse "SELECT uid, fulltext:SEARCH AS score FROM db.pages"] {}
    let after := d.addFilter searchSite { groups := [scoreGroup] }
    d.query.placeholders.entries = [("db.pages.fulltext.SEARCH", "1")] ∧
      d.groupAlias? scoreGroup = some "db.pages" ∧
      (groupTarget d.query "db.pages" scoreGroup).fulltextIndex = "SEARCH" ∧
      after.query.conditions = ["((MATCH(db.pages.title) AGAINST('foox' IN BOOLEAN MODE)))"] ∧
      after.query.placeholders.entries = [("db.pages.fulltext.SEARCH", "1")] := by
  decide +kernel

end Draft
end ContentQuery
