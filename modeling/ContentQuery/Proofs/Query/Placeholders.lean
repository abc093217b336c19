import Mathlib.Data.List.Perm.Basic
import Mathlib.Data.List.Sort
import ContentQuery.Proofs.Chars.Replacing
import ContentQuery.Proofs.OrderedMap
import ContentQuery.Proofs.Query.Selections
import ContentQuery.Query.Printer

/-!
# Filling in placeholders

The placeholders of a SELECT list are replaced one after the other in the whole text of the list.
Their order depends on the keys alone.  As long as no key has a blank or a comma, each expression and
each name behind AS is rewritten on its own: a key becomes its text, unless that has a key which is
replaced later, and what has no key stays.
-/

namespace ContentQuery

open SelectList (placeholderKey)

namespace Query

variable {q : Query}

/-! ## The order of replacement -/

theorem placeholderBefore_iff {a b : String × String} :
    placeholderBefore a b = true ↔
      b.1.utf8ByteSize < a.1.utf8ByteSize ∨
        a.1.utf8ByteSize = b.1.utf8ByteSize ∧ a.1 ≤ b.1 := by
  simp [placeholderBefore]

theorem placeholderBefore_trans (a b c : String × String) (h : placeholderBefore a b = true)
    (h' : placeholderBefore b c = true) : placeholderBefore a c = true := by
  rw [placeholderBefore_iff] at h h' ⊢
  rcases h with h | ⟨hsize, hle⟩
  · rcases h' with h' | ⟨hsize', _⟩
    · exact .inl (h'.trans h)
    · exact .inl (hsize' ▸ h)
  · rcases h' with h' | ⟨hsize', hle'⟩
    · exact .inl (hsize ▸ h')
    · exact .inr ⟨hsize.trans hsize', String.le_trans hle hle'⟩

theorem placeholderBefore_total (a b : String × String) :
    (placeholderBefore a b || placeholderBefore b a) = true := by
  rw [Bool.or_eq_true, placeholderBefore_iff, placeholderBefore_iff]
  rcases Nat.lt_trichotomy a.1.utf8ByteSize b.1.utf8ByteSize with h | h | h
  · exact .inr (.inl h)
  · rcases String.le_total a.1 b.1 with hle | hle
    · exact .inl (.inr ⟨h, hle⟩)
    · exact .inr (.inr ⟨h.symm, hle⟩)
  · exact .inl (.inl h)

/-- Only one key can be in front of the other. -/
theorem key_eq_of_placeholderBefore {a b : String × String} (h : placeholderBefore a b = true)
    (h' : placeholderBefore b a = true) : a.1 = b.1 := by
  rw [placeholderBefore_iff] at h h'
  rcases h with h | ⟨hsize, hle⟩
  · rcases h' with h' | ⟨hsize', _⟩
    · exact absurd (h.trans h') (Nat.lt_irrefl _)
    · exact absurd hsize' (Nat.ne_of_lt h)
  · rcases h' with h' | ⟨_, hle'⟩
    · exact absurd hsize.symm (Nat.ne_of_gt h')
    · exact String.le_antisymm hle hle'

theorem perm_placeholderOrder (q : Query) : q.placeholderOrder.Perm q.placeholders.entries :=
  List.mergeSort_perm _ _

theorem pairwise_placeholderOrder (q : Query) :
    q.placeholderOrder.Pairwise fun a b => placeholderBefore a b = true :=
  List.pairwise_mergeSort placeholderBefore_trans placeholderBefore_total _

/-- The placeholders are replaced in one order, however they were registered. -/
theorem placeholderOrder_of_perm {m : OrderedMap String String}
    (h : m.entries.Perm q.placeholders.entries) :
    { q with placeholders := m }.placeholderOrder = q.placeholderOrder := by
  have hall := perm_placeholderOrder { q with placeholders := m }
  have hperm : { q with placeholders := m }.placeholderOrder.Perm q.placeholderOrder :=
    (hall.trans h).trans (perm_placeholderOrder q).symm
  refine hperm.eq_of_pairwise ?_ (pairwise_placeholderOrder _) (pairwise_placeholderOrder q)
  intro a b ha hb hab hba
  -- Two placeholders with one key are the same: the keys of a map differ.
  have hkey := key_eq_of_placeholderBefore hab hba
  have ha' : m.get? a.1 = some a.2 := OrderedMap.get?_eq_some_iff.2 (hall.mem_iff.1 ha)
  have hb' : m.get? b.1 = some b.2 :=
    OrderedMap.get?_eq_some_iff.2 (h.mem_iff.2 ((perm_placeholderOrder q).mem_iff.1 hb))
  rw [hkey, hb', Option.some.injEq] at ha'
  exact Prod.ext hkey ha'.symm

/-- Placeholders that were registered in order are replaced as they stand. -/
theorem placeholderOrder_of_pairwise
    (h : q.placeholders.entries.Pairwise fun a b => placeholderBefore a b = true) :
    q.placeholderOrder = q.placeholders.entries :=
  List.mergeSort_of_pairwise h

/-! ## Filling in a text -/

/-- A text with the placeholders filled in one after the other. -/
def fillIn (q : Query) (text : String) : String :=
  q.placeholderOrder.foldl (fun text e => Text.replaceAll e.1 e.2 text) text

theorem fillIn_of_pairwise
    (h : q.placeholders.entries.Pairwise fun a b => placeholderBefore a b = true) (text : String) :
    q.fillIn text =
      q.placeholders.entries.foldl (fun text e => Text.replaceAll e.1 e.2 text) text := by
  rw [fillIn, placeholderOrder_of_pairwise h]

/-- The keys of the placeholders name a table alias and an index. -/
def PlaceholdersNamed (q : Query) : Prop :=
  ∀ key ∈ q.placeholders.keys, ∃ a index, key = placeholderKey a index

theorem dot_mem_placeholderKey (a index : String) : '.' ∈ (placeholderKey a index).toList := by
  simp [placeholderKey]

theorem placeholderKey_ne_empty (a index : String) : placeholderKey a index ≠ "" := by
  intro h
  have hdot := dot_mem_placeholderKey a index
  simp [h] at hdot

theorem mem_placeholderOrder {e : String × String} :
    e ∈ q.placeholderOrder ↔ e ∈ q.placeholders.entries :=
  (perm_placeholderOrder q).mem_iff

theorem mem_keys_of_mem_order {e : String × String} (h : e ∈ q.placeholderOrder) :
    e.1 ∈ q.placeholders.keys :=
  OrderedMap.mem_keys_of_mem (mem_placeholderOrder.1 h)

theorem PlaceholdersNamed.ne_empty (hq : q.PlaceholdersNamed) {e : String × String}
    (he : e ∈ q.placeholderOrder) : e.1 ≠ "" := by
  rcases hq e.1 (mem_keys_of_mem_order he) with ⟨a, index, hkey⟩
  exact hkey ▸ placeholderKey_ne_empty a index

theorem foldl_replaceAll_of_clear {es : List (String × String)} {text : String}
    (hne : ∀ e ∈ es, e.1 ≠ "") (hclear : ∀ e ∈ es, ¬ Text.Occurs e.1 text) :
    es.foldl (fun text e => Text.replaceAll e.1 e.2 text) text = text := by
  induction es with
  | nil => rfl
  | cons e es ih =>
      have hfirst : Text.replaceAll e.1 e.2 text = text :=
        Text.replaceAll_of_not_occurs (hne e (by simp)) (hclear e (by simp)) e.2
      rw [List.foldl_cons, hfirst]
      exact ih (fun e he => hne e (by simp [he])) (fun e he => hclear e (by simp [he]))

/-- A text without keys stays. -/
theorem fillIn_of_clear (hq : q.PlaceholdersNamed) {text : String}
    (h : ∀ key ∈ q.placeholders.keys, ¬ Text.Occurs key text) : q.fillIn text = text :=
  foldl_replaceAll_of_clear (fun _ he => hq.ne_empty he)
    fun e he => h e.1 (mem_keys_of_mem_order he)

/-- Every key has a dot. -/
theorem fillIn_of_no_dot (hq : q.PlaceholdersNamed) {text : String} (h : '.' ∉ text.toList) :
    q.fillIn text = text := by
  apply fillIn_of_clear hq
  intro key hkey hoccurs
  rcases hq key hkey with ⟨a, index, rfl⟩
  exact h (hoccurs.subset (dot_mem_placeholderKey a index))

/-- A key becomes its text, if that has no key which is replaced later. -/
theorem fillIn_key (hq : q.PlaceholdersNamed) {key value : String}
    (hkey : (key, value) ∈ q.placeholders.entries)
    (hclear : ∀ e ∈ q.placeholders.entries, e.1 ≠ key →
      placeholderBefore (key, value) e = true → ¬ Text.Occurs e.1 value) :
    q.fillIn key = value := by
  rcases List.append_of_mem (mem_placeholderOrder.2 hkey) with ⟨front, behind, horder⟩
  have hmem : ∀ e ∈ front ++ (key, value) :: behind, e ∈ q.placeholderOrder := by
    rw [horder]
    exact fun e he => he
  have hnodup : ((front ++ (key, value) :: behind).map Prod.fst).Nodup := by
    rw [← horder]
    exact ((perm_placeholderOrder q).map Prod.fst).nodup_iff.2 q.placeholders.nodup
  have hsorted := pairwise_placeholderOrder q
  rw [horder, List.pairwise_append] at hsorted
  rw [List.map_append, List.map_cons, List.nodup_append, List.nodup_cons] at hnodup
  -- The keys replaced first are no shorter, so none of them stands in the key.
  have hfront : ∀ e ∈ front, ¬ Text.Occurs e.1 key := by
    intro e he hoccurs
    have hbefore := placeholderBefore_iff.1 (hsorted.2.2 e he (key, value) (by simp))
    rcases hoccurs.eq_or_lt with heq | hshorter
    · exact hnodup.2.2 e.1 (List.mem_map_of_mem he) key (by simp) heq
    · rcases hbefore with hlonger | ⟨hsize, _⟩
      · exact absurd (hshorter.trans hlonger) (Nat.lt_irrefl _)
      · exact absurd hsize (Nat.ne_of_lt hshorter)
  have hbehind : ∀ e ∈ behind, ¬ Text.Occurs e.1 value := by
    intro e he
    have hother : e.1 ≠ key := by
      intro heq
      have hmem : e.1 ∈ behind.map Prod.fst := List.mem_map_of_mem he
      exact hnodup.2.1.1 (heq ▸ hmem)
    have hbefore := (List.pairwise_cons.1 hsorted.2.1).1 e he
    exact hclear e (mem_placeholderOrder.1 (hmem e (by simp [he]))) hother hbefore
  have hne : ∀ e ∈ front ++ (key, value) :: behind, e.1 ≠ "" := fun e he => hq.ne_empty (hmem e he)
  calc q.fillIn key
      = behind.foldl (fun text e => Text.replaceAll e.1 e.2 text)
          (Text.replaceAll key value
            (front.foldl (fun text e => Text.replaceAll e.1 e.2 text) key)) := by
        rw [fillIn, horder, List.foldl_append, List.foldl_cons]
    _ = behind.foldl (fun text e => Text.replaceAll e.1 e.2 text)
          (Text.replaceAll key value key) := by
        rw [foldl_replaceAll_of_clear (fun e he => hne e (by simp [he])) hfront]
    _ = behind.foldl (fun text e => Text.replaceAll e.1 e.2 text) value := by
        rw [Text.replaceAll_self (hne (key, value) (by simp))]
    _ = value := foldl_replaceAll_of_clear (fun e he => hne e (by simp [he])) hbehind

/-! ## Filling in a list -/

/-- No key reaches over a blank or a comma. -/
def PlaceholdersSolid (q : Query) : Prop :=
  ∀ key ∈ q.placeholders.keys, ' ' ∉ key.toList ∧ ',' ∉ key.toList

instance (q : Query) : Decidable q.PlaceholdersSolid :=
  inferInstanceAs (Decidable (∀ key ∈ q.placeholders.keys, _))

/-- Texts around a character that is in no key are filled in one by one. -/
theorem fillIn_append (hq : q.PlaceholdersNamed) (sep : Char)
    (hsep : ∀ key ∈ q.placeholders.keys, sep ∉ key.toList) (u w : String) :
    q.fillIn (u ++ String.singleton sep ++ w) =
      q.fillIn u ++ String.singleton sep ++ q.fillIn w := by
  have hfold : ∀ (es : List (String × String)), (∀ e ∈ es, e ∈ q.placeholderOrder) → ∀ u w,
      es.foldl (fun text e => Text.replaceAll e.1 e.2 text) (u ++ String.singleton sep ++ w) =
        es.foldl (fun text e => Text.replaceAll e.1 e.2 text) u ++ String.singleton sep ++
          es.foldl (fun text e => Text.replaceAll e.1 e.2 text) w := by
    intro es hes
    induction es with
    | nil => exact fun _ _ => rfl
    | cons e es ih =>
        intro u w
        have he := hes e (by simp)
        have hfirst := Text.replaceAll_append (hq.ne_empty he) (hsep e.1 (mem_keys_of_mem_order he))
          e.2 u w
        simp only [List.foldl_cons, hfirst]
        exact ih (fun e he => hes e (by simp [he])) _ _
  exact hfold q.placeholderOrder (fun _ he => he) u w

section Solid

variable (hq : q.PlaceholdersNamed) (hsolid : q.PlaceholdersSolid)

include hq hsolid

/-- The entries of a list are filled in one by one. -/
theorem fillIn_join (texts : List String) :
    q.fillIn (Text.join ", " texts) = Text.join ", " (texts.map q.fillIn) := by
  have hempty : q.fillIn "" = "" := fillIn_of_no_dot hq (by decide)
  have hcut : ∀ u w, q.fillIn (u ++ ", " ++ w) = q.fillIn u ++ ", " ++ q.fillIn w := by
    intro u w
    have hblank := fillIn_append hq ' ' (fun key hkey => (hsolid key hkey).1) "" w
    have hcomma := fillIn_append hq ',' (fun key hkey => (hsolid key hkey).2) u (" " ++ w)
    have hsplit : ", " = String.singleton ',' ++ " " := by decide
    simp only [hempty, String.empty_append, show String.singleton ' ' = " " from rfl] at hblank
    simp only [hsplit, ← String.append_assoc] at hcomma ⊢
    simp only [String.append_assoc] at hcomma ⊢
    rw [hcomma, hblank]
  induction texts with
  | nil => exact hempty
  | cons t texts ih =>
      cases texts with
      | nil => rfl
      | cons t' texts =>
          simp only [List.map_cons, Text.join] at ih ⊢
          rw [hcut, ih]

/-- The expression and the name of an entry are filled in apart. -/
theorem fillIn_named (expression name : String) :
    q.fillIn (expression ++ " AS " ++ name) = q.fillIn expression ++ " AS " ++ q.fillIn name := by
  have hblank := fun u w => fillIn_append hq ' ' (fun key hkey => (hsolid key hkey).1) u w
  have has : q.fillIn "AS" = "AS" := fillIn_of_no_dot hq (by decide)
  have hsplit : " AS " = String.singleton ' ' ++ "AS" ++ String.singleton ' ' := by decide
  have hentry := hblank (expression ++ String.singleton ' ' ++ "AS") name
  rw [hblank expression "AS", has] at hentry
  simpa only [hsplit, String.append_assoc] using hentry

end Solid

/-! ## Registered placeholders -/

/-- Only a fulltext entry registers a placeholder. -/
theorem placeholder?_selection (schema : Schema) (q : Query) (calls : Nat) (spec : FieldSpec) :
    ∀ key ∈ (SelectList.selection schema q calls spec).placeholder?,
      ∃ a index, key = placeholderKey a index := by
  intro key hkey
  unfold SelectList.selection at hkey
  simp only at hkey
  split at hkey
  · cases hkey
  · unfold SelectList.selectionOf at hkey
    split at hkey
    · next index _ =>
        cases hkey
        exact ⟨_, index, rfl⟩
    · cases hkey

theorem PlaceholdersNamed.enter (hq : q.PlaceholdersNamed) {s : Selection}
    (hs : ∀ key ∈ s.placeholder?, ∃ a index, key = placeholderKey a index) :
    (q.enter s).PlaceholdersNamed := by
  intro key hkey
  rw [SelectList.placeholders_enter] at hkey
  cases hplaceholder : s.placeholder? with
  | none =>
      rw [hplaceholder] at hkey
      exact hq key hkey
  | some added =>
      rw [hplaceholder] at hkey
      rcases OrderedMap.mem_keys_upsert.1 hkey with hkey | rfl
      · exact hq key hkey
      · exact hs key hplaceholder

theorem placeholdersNamed_of_parse {schema : Schema} {text : String}
    (h : parse schema text = .ok q) : q.PlaceholdersNamed := by
  rcases parse_eq_ok_iff.1 h with ⟨list, rest, q₀, q₁, _, htables, hclauses, hlist⟩
  rcases SelectList.parse_eq_ok_iff.1 hlist with ⟨_, specs, _, rfl⟩
  have hnone : q₁.placeholders = ∅ :=
    congrArg (fun records => records.2.2.2.2.2.2) (listRecords_of_clauses htables hclauses)
  refine List.foldlRecOn (motive := PlaceholdersNamed) _ _ ?_ ?_
  · intro key hkey
    simp [hnone] at hkey
  · intro q hq s hs
    rcases SelectList.mem_selections hs with ⟨spec, _, calls, rfl⟩
    exact hq.enter (placeholder?_selection schema q₁ calls spec)

theorem PlaceholdersNamed.grows {q' : Query} (hq : q.PlaceholdersNamed)
    (hkeys : q'.placeholders.keys = q.placeholders.keys) : q'.PlaceholdersNamed := by
  unfold PlaceholdersNamed
  rw [hkeys]
  exact hq

end Query
end ContentQuery
