import ContentQuery.Proofs.Query.ListLiterals
import ContentQuery.Proofs.Query.Selections

/-!
# SELECT lists with an exchanged literal

If the body of one literal is exchanged in a SELECT list, one entry of the query has the other
literal in its field or in its alias.  Its table, its mark as a call and the records of base fields
stay, and so does every other entry.

A column is cut into table and field at its first dot, wherever that stands.  So all this is lost
if the first dot stands in the literal or behind it: then the literal is taken for a part of the
name of a table.
-/

namespace ContentQuery

open Scan (Closed Fills isQuote literal)

variable {a b u v : List Char} {c : Char}

/-! ## Exchanged literals -/

/-- The second text is the first one with `l'` in the place of `l`. -/
def Text.Exchanged (l l' : List Char) (s s' : String) : Prop :=
  ∃ left right, s = String.ofList (left ++ (l ++ right)) ∧
    s' = String.ofList (left ++ (l' ++ right))

/-- Two entries that differ in a literal of the field or of the alias. -/
inductive SelectField.Exchanged (l l' : List Char) : SelectField → SelectField → Prop
  | field (f : SelectField) {s s' : String} :
      Text.Exchanged l l' s s' → Exchanged l l' { f with field := s } { f with field := s' }
  | aliasName (f : SelectField) {s s' : String} :
      Text.Exchanged l l' s s' →
        Exchanged l l' { f with aliasName := some s } { f with aliasName := some s' }

/-- Two selections of one field that differ in a literal. -/
structure Selection.Exchanged (l l' : List Char) (s s' : Selection) : Prop where
  tableAlias : s.tableAlias = s'.tableAlias
  fields : ∃ f f', s.fields = [f] ∧ s'.fields = [f'] ∧ f.Exchanged l l' f'
  placeholder? : s.placeholder? = s'.placeholder? ∨
    ∃ key key', s.placeholder? = some key ∧ s'.placeholder? = some key' ∧
      Text.Exchanged l l' key key'

/-- Two lists that agree but for at most one member. -/
inductive OneChanged {α : Type} (R : α → α → Prop) : List α → List α → Prop
  | nowhere (xs : List α) : OneChanged R xs xs
  | within (before : List α) {x x' : α} (after : List α) :
      R x x' → OneChanged R (before ++ x :: after) (before ++ x' :: after)

/-! ## Fields -/

theorem Chars.splitOnce?_eq_none {sep : Char} {s : List Char} (h : sep ∉ s) :
    splitOnce? sep s = none := by
  induction s with
  | nil => rfl
  | cons d ds ih =>
      rw [List.mem_cons, not_or] at h
      rw [splitOnce?, if_neg (Ne.symm h.1), ih h.2]
      rfl

namespace SelectList

variable {schema : Schema} {left right w : List Char}

/-- The first dot of a text with a literal stands in front of the literal, or there is none. -/
def DotBefore (left w right : List Char) : Prop :=
  '.' ∈ left ∨ '.' ∉ w ∧ '.' ∉ right

theorem not_mem_literal (hq : isQuote c = true) (hw : '.' ∉ w) : '.' ∉ literal c w := by
  simp [literal, (Scan.ne_of_isQuote hq (c := '.') (by decide)).symm, hw]

/-- An entry with a literal in its expression is the entry of the text in front of the literal, but
for its field, unless the literal stands in the name of a table. -/
theorem exists_fieldOf_expression (hq : isQuote c = true) (q : Query) (calls : Nat)
    (spec : FieldSpec) (left right : List Char) :
    ∃ front back, ∀ w, spec.isCall = true ∨ DotBefore left w right →
      fieldOf q calls (spec.withExpression (left ++ (literal c w ++ right))) =
        { fieldOf q calls (spec.withExpression left) with
          field := String.ofList (front ++ (literal c w ++ back)) } := by
  by_cases hcall : spec.isCall = true
  · refine ⟨left, right, fun w _ => ?_⟩
    simp only [fieldOf, FieldSpec.withExpression, hcall, if_true]
  · by_cases hdot : '.' ∈ left
    · -- The literal stands in the field.
      obtain ⟨x, y, rfl, hx⟩ := List.eq_append_cons_of_mem hdot
      refine ⟨Chars.trimStart y, Chars.trimEnd right, fun w _ => ?_⟩
      have hself := Chars.splitOnce?_append hx y
      have hlong : Chars.splitOnce? '.' (x ++ '.' :: y ++ (literal c w ++ right)) =
          some (x, y ++ (literal c w ++ right)) := by
        rw [List.append_assoc, List.cons_append, Chars.splitOnce?_append hx]
      simp only [fieldOf, FieldSpec.withExpression, if_neg hcall, Text.splitOnce?, Text.trim,
        String.toList_ofList, hself, hlong, Option.map_some,
        (Scan.solid_literal hq w).trim_around]
    · -- There is no dot at all, whatever stands in the literal.
      refine ⟨left, right, fun w h => ?_⟩
      obtain ⟨hw, hright⟩ := (h.resolve_left hcall).resolve_left hdot
      have hself := Chars.splitOnce?_eq_none hdot
      have hlong : Chars.splitOnce? '.' (left ++ (literal c w ++ right)) = none := by
        refine Chars.splitOnce?_eq_none ?_
        simp [hdot, not_mem_literal hq hw, hright]
      simp only [fieldOf, FieldSpec.withExpression, if_neg hcall, Text.splitOnce?,
        String.toList_ofList, hself, hlong, Option.map_none]

/-- An entry with a literal in its alias is any other entry of its expression but for the alias. -/
theorem fieldOf_withAlias (q : Query) (calls : Nat) (spec : FieldSpec) (text : List Char) :
    fieldOf q calls (spec.withAlias text) =
      { fieldOf q calls spec with aliasName := some (String.ofList text) } := by
  cases hcall : spec.isCall with
  | true => simp only [fieldOf, FieldSpec.withAlias, hcall, if_true, Option.getD_some]
  | false =>
      simp only [fieldOf, FieldSpec.withAlias, hcall, Bool.false_eq_true, if_false]
      cases Text.splitOnce? '.' spec.expression <;> rfl

/-! ## Fulltext entries -/

/-- A fulltext mark stands in front of a literal. -/
theorem exists_fulltextIndex?_literal (hq : isQuote c = true) (front back : List Char) :
    ∃ rest : Option (List Char), ∀ w,
      fulltextIndex? (String.ofList (front ++ (literal c w ++ back))) = rest.map fun rest =>
        String.ofList (Chars.trimStart rest ++ (literal c w ++ Chars.trimEnd back)) := by
  have hmark : ∀ mark ∈ fulltextMarks, c ∉ mark.toList := by
    rcases Scan.isQuote_iff.1 hq with rfl | rfl <;> decide
  refine ⟨fulltextMarks.findSome? fun mark => Chars.stripLeading? mark.toList front, fun w => ?_⟩
  -- A mark has no quote, so it ends in front of the literal or is not there.
  have hstrip : ∀ mark ∈ fulltextMarks,
      Text.stripLeading? mark (String.ofList (front ++ (literal c w ++ back))) =
        (Chars.stripLeading? mark.toList front).map fun rest =>
          String.ofList (rest ++ (literal c w ++ back)) := by
    intro mark hmem
    rw [Text.stripLeading?, String.toList_ofList, literal, List.cons_append,
      Chars.stripLeading?_append_of_not_mem (hmark mark hmem), Option.map_map]
    rfl
  have hfind : (fulltextMarks.findSome? fun mark =>
        Text.stripLeading? mark (String.ofList (front ++ (literal c w ++ back)))) =
      (fulltextMarks.findSome? fun mark => Chars.stripLeading? mark.toList front).map fun rest =>
        String.ofList (rest ++ (literal c w ++ back)) := by
    simp only [fulltextMarks, List.mem_cons, List.not_mem_nil, or_false, forall_eq_or_imp,
      forall_eq] at hstrip
    rw [List.map_findSome?, fulltextMarks, List.findSome?_cons, List.findSome?_cons, hstrip.1,
      hstrip.2]
    rfl
  rw [fulltextIndex?, hfind, Option.map_map]
  congr 1
  funext rest
  rw [Function.comp_apply, Text.trim, String.toList_ofList, (Scan.solid_literal hq w).trim_around]

/-! ## Selections -/

theorem exchanged_prepend {l l' : List Char} {s s' : String} (h : Text.Exchanged l l' s s')
    (front : String) : Text.Exchanged l l' (front ++ s) (front ++ s') := by
  obtain ⟨left, right, rfl, rfl⟩ := h
  have hfront : ∀ text, front ++ String.ofList text = String.ofList (front.toList ++ text) := by
    intro text
    rw [String.ofList_append, String.ofList_toList]
  refine ⟨front.toList ++ left, right, ?_, ?_⟩ <;> rw [hfront, List.append_assoc]

theorem exchanged_selectionOf_field (hq : isQuote c = true) (f : SelectField)
    (front back u v : List Char) :
    Selection.Exchanged (literal c u) (literal c v)
      (selectionOf { f with field := String.ofList (front ++ (literal c u ++ back)) })
      (selectionOf { f with field := String.ofList (front ++ (literal c v ++ back)) }) := by
  have hplain : SelectField.Exchanged (literal c u) (literal c v)
      { f with field := String.ofList (front ++ (literal c u ++ back)) }
      { f with field := String.ofList (front ++ (literal c v ++ back)) } :=
    .field f ⟨front, back, rfl, rfl⟩
  by_cases hcall : f.isCall = true
  · simp only [selectionOf, hcall, if_true]
    exact ⟨rfl, ⟨_, _, rfl, rfl, hcall ▸ hplain⟩, .inl rfl⟩
  · obtain ⟨rest, hrest⟩ := exists_fulltextIndex?_literal hq front back
    simp only [selectionOf, if_neg hcall, hrest]
    cases rest with
    | none => exact ⟨rfl, ⟨_, _, rfl, rfl, hplain⟩, .inl rfl⟩
    | some rest =>
        -- The index is the field behind the mark, and the placeholder ends with it.
        have hindex : Text.Exchanged (literal c u) (literal c v)
            (String.ofList (Chars.trimStart rest ++ (literal c u ++ Chars.trimEnd back)))
            (String.ofList (Chars.trimStart rest ++ (literal c v ++ Chars.trimEnd back))) :=
          ⟨_, _, rfl, rfl⟩
        exact ⟨rfl, ⟨_, _, rfl, rfl, .field f (exchanged_prepend hindex _)⟩,
          .inr ⟨_, _, rfl, rfl, exchanged_prepend hindex _⟩⟩

theorem exchanged_selectionOf_alias {l l' : List Char} {s s' : String} (f : SelectField)
    (h : Text.Exchanged l l' s s') :
    Selection.Exchanged l l' (selectionOf { f with aliasName := some s })
      (selectionOf { f with aliasName := some s' }) := by
  unfold selectionOf
  simp only
  split
  · next index _ =>
      exact ⟨rfl, ⟨_, _, rfl, rfl, .aliasName { f with field := "fulltext." ++ index } h⟩, .inl rfl⟩
  · exact ⟨rfl, ⟨_, _, rfl, rfl, .aliasName f h⟩, .inl rfl⟩

/-- A literal, with one body or the other, that is read as a part of the name of a table: the piece
is a wildcard, or it is no call and its first dot stands in the literal or behind it. -/
inductive InTableName (c : Char) (u v : List Char) : (List Char → FieldSpec) → Prop
  | wildcard (spec : FieldSpec) (left right : List Char) :
      spec.isWildcard = true →
        InTableName c u v fun w => spec.withExpression (left ++ (literal c w ++ right))
  | column (spec : FieldSpec) (left right : List Char) :
      spec.isCall = false → ¬ (DotBefore left u right ∧ DotBefore left v right) →
        InTableName c u v fun w => spec.withExpression (left ++ (literal c w ++ right))

/-- What a piece with a literal selects. -/
theorem selection_around (hq : isQuote c = true) {spec : List Char → FieldSpec}
    (h : FieldSpec.Around c spec) (schema : Schema) (q : Query) (calls : Nat) (u v : List Char) :
    selection schema q calls (spec u) = selection schema q calls (spec v) ∨
      Selection.Exchanged (literal c u) (literal c v) (selection schema q calls (spec u))
        (selection schema q calls (spec v)) ∨
      InTableName c u v spec := by
  cases h with
  | aliasName base left right =>
      cases hwildcard : base.isWildcard with
      | true =>
          -- A wildcard has no use for an alias.
          left
          simp only [selection, FieldSpec.withAlias, hwildcard, if_true]
      | false =>
          right; left
          have hplain : ∀ text, (base.withAlias text).isWildcard = false := fun _ => hwildcard
          simp only [selection, hplain, Bool.false_eq_true, if_false, fieldOf_withAlias]
          exact exchanged_selectionOf_alias _ ⟨left, right, rfl, rfl⟩
  | expression base left right =>
      by_cases hwildcard : base.isWildcard = true
      · exact .inr (.inr (.wildcard base left right hwildcard))
      · by_cases hdots : base.isCall = true ∨ DotBefore left u right ∧ DotBefore left v right
        · obtain ⟨front, back, hfield⟩ := exists_fieldOf_expression hq q calls base left right
          have hplain : ∀ text, ¬ (base.withExpression text).isWildcard = true := fun _ => hwildcard
          have hu := hfield u (hdots.imp_right And.left)
          have hv := hfield v (hdots.imp_right And.right)
          right; left
          simp only [selection, if_neg (hplain _), hu, hv]
          exact exchanged_selectionOf_field hq _ front back u v
        · rw [not_or, Bool.not_eq_true] at hdots
          exact .inr (.inr (.column base left right hdots.1 hdots.2))

/-- Exchanging a literal changes no number of calls. -/
theorem callsUpTo_around {spec : List Char → FieldSpec} (h : FieldSpec.Around c spec)
    (calls : Nat) (u v : List Char) : callsUpTo calls (spec u) = callsUpTo calls (spec v) := by
  cases h <;> rfl

/-! ## Lists -/

/-- A list whose literal, with one body or the other, is read as a part of the name of a table. -/
def NamesTable (c : Char) (list : List Char → List Char) (u v : List Char) : Prop :=
  ∃ before spec after, InTableName c u v spec ∧ ∀ w, Fills c w →
    split (splitDistinct (list w)).2 = .ok (before ++ spec w :: after)

end SelectList

/-- Two queries that were read from lists with one literal exchanged. -/
structure Query.ListExchanged (l l' : List Char) (q p p' : Query) : Prop where
  /-- The entries agree but for the literal in the field or the alias of one of them. -/
  entries : OneChanged (SelectField.Exchanged l l') p.select p'.select
  baseFields : p.baseFields = p'.baseFields
  distinct : p.distinct = p'.distinct
  /-- What is not of the SELECT list is left alone. -/
  rest : p.withoutList = q.withoutList ∧ p'.withoutList = q.withoutList
  /-- All records are those of selections that agree but for the literal. -/
  selections : ∃ distinct selected selected',
    OneChanged (Selection.Exchanged l l') selected selected' ∧
      p = selected.foldl Query.enter { q with distinct } ∧
      p' = selected'.foldl Query.enter { q with distinct }

namespace SelectList

/-- A name with a literal in it is not the name of a base field. -/
theorem note_exchanged (hq : isQuote c = true) {s s' : String}
    (h : Text.Exchanged (literal c u) (literal c v) s s') (record : BaseFields) :
    record.note s = record.note s' := by
  have hnone : ∀ left right w, record.note (String.ofList (left ++ (literal c w ++ right))) =
      record := by
    intro left right w
    have hne : ∀ name : String, c ∉ name.toList →
        (String.ofList (left ++ (literal c w ++ right)) == name) = false := by
      intro name hname
      refine beq_false_of_ne fun heq => hname ?_
      rw [← heq, String.toList_ofList]
      simp [literal]
    have hbase : c ∉ "uid".toList ∧ c ∉ "pid".toList := by
      rcases Scan.isQuote_iff.1 hq with rfl | rfl <;> decide
    rw [BaseFields.note, hne _ hbase.1, hne _ hbase.2, Bool.or_false, Bool.or_false]
  obtain ⟨left, right, rfl, rfl⟩ := h
  rw [hnone, hnone]

theorem noteAll_exchanged (hq : isQuote c = true) {s s' : Selection}
    (h : Selection.Exchanged (literal c u) (literal c v) s s') : noteAll s = noteAll s' := by
  obtain ⟨f, f', hf, hf', hfield⟩ := h.fields
  funext m
  rw [noteAll, noteAll, hf, hf', h.tableAlias]
  simp only [List.foldl_cons, List.foldl_nil]
  cases hfield with
  | field g hs =>
      -- The field is the name unless there is an alias.
      cases g.aliasName with
      | none => simp only [SelectField.resultName, Option.getD_none, note_exchanged hq hs]
      | some name => simp only [SelectField.resultName, Option.getD_some]
  | aliasName g hs =>
      simp only [SelectField.resultName, Option.getD_some, note_exchanged hq hs]

theorem listExchanged_enter (hq : isQuote c = true) {selected selected' : List Selection}
    (h : OneChanged (Selection.Exchanged (literal c u) (literal c v)) selected selected')
    (q : Query) (distinct : Bool) :
    Query.ListExchanged (literal c u) (literal c v) q
      (selected.foldl Query.enter { q with distinct })
      (selected'.foldl Query.enter { q with distinct }) := by
  have hrest : ∀ selected : List Selection,
      (selected.foldl Query.enter { q with distinct }).withoutList = q.withoutList :=
    fun selected => withoutList_foldl_enter selected _
  refine ⟨?_, ?_, ?_, ⟨hrest _, hrest _⟩, ⟨distinct, selected, selected', h, rfl, rfl⟩⟩
  · rw [select_foldl_enter, select_foldl_enter]
    cases h with
    | nowhere => exact .nowhere _
    | within before after hs =>
        obtain ⟨f, f', hf, hf', hfield⟩ := hs.fields
        simp only [List.flatMap_append, List.flatMap_cons, hf, hf', ← List.append_assoc]
        simp only [List.append_assoc, List.singleton_append]
        rw [← List.append_assoc, ← List.append_assoc]
        exact .within _ _ hfield
  · rw [baseFields_foldl_enter, baseFields_foldl_enter]
    cases h with
    | nowhere => rfl
    | within before after hs =>
        simp only [List.foldl_append, List.foldl_cons, noteAll_exchanged hq hs]
  · rw [distinct_foldl_enter, distinct_foldl_enter]

/-- A list that was read is read with any other body of its literal, and the queries agree but for
the literal, unless it is read as a part of the name of a table. -/
theorem exists_parse_exchanged (ha : (({} : Scan).read a).openQuote? = none)
    (hq : isQuote c = true) (hu : Fills c u) (hv : Fills c v) (b : List Char) {schema : Schema}
    {q p : Query} (h : parse schema (a ++ (literal c u ++ b)) q = (p, .ok ())) :
    ∃ p', parse schema (a ++ (literal c v ++ b)) q = (p', .ok ()) ∧
      (q.ListExchanged (literal c u) (literal c v) p p' ∨
        NamesTable c (fun w => a ++ (literal c w ++ b)) u v) := by
  obtain ⟨distinct, a', b', ha', hlist⟩ := exists_splitDistinct_around ha hq b
  obtain ⟨specs, hspecs, hsplit⟩ := exists_split_around ha' hq b'
  rw [parse_eq_ok_iff, hlist u] at h
  obtain ⟨-, read, hread, rfl⟩ := h
  -- The list is closed with every body, since it is closed with one.
  have hclosed : ∀ w, Fills c w → Closed (a' ++ (literal c w ++ b')) := fun w hw =>
    Scan.closed_literal ha' hq hu hw (closed_of_split hread).1
  have hsame : read = specs u := by
    rw [hsplit u hu (hclosed u hu), Except.ok.injEq] at hread
    exact hread.symm
  have hne : ∀ w, a' ++ (literal c w ++ b') ≠ [] := by
    intro w hnil
    have hempty := Scan.isEmpty_around_literal (q := c) a' w b'
    rw [hnil] at hempty
    cases hempty
  have hparse : parse schema (a ++ (literal c v ++ b)) q =
      ((selections schema q 0 (specs v)).foldl Query.enter
        { q with distinct := q.distinct || distinct }, .ok ()) := by
    rw [parse_eq_ok_iff, hlist v]
    exact ⟨hne v, specs v, hsplit v hv (hclosed v hv), rfl⟩
  refine ⟨_, hparse, ?_⟩
  rw [hsame]
  cases hspecs with
  | nowhere specs => exact .inl (listExchanged_enter hq (.nowhere _) q _)
  | @within before spec after hspec =>
      simp only [selections_append, selections]
      rw [callsUpTo_around hspec _ u v]
      rcases selection_around hq hspec schema q
          (callsUpTo (before.foldl callsUpTo 0) (spec v)) u v with hsame | hother | htable
      · rw [hsame]
        exact .inl (listExchanged_enter hq (.nowhere _) q _)
      · exact .inl (listExchanged_enter hq (.within _ _ hother) q _)
      · refine .inr ⟨before, spec, after, htable, fun w hw => ?_⟩
        rw [hlist w]
        exact hsplit w hw (hclosed w hw)

end SelectList
end ContentQuery
