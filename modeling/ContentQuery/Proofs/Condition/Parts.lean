import ContentQuery.Proofs.Condition.Rename
import ContentQuery.Text

/-!
# Conditions made of parts

The conditions of the platform are put together from qualified columns and plain texts.  Each way of
putting them together keeps two facts: the parts are renamed along with the name that qualifies the
columns, and the whole begins and ends with something other than a blank.
-/

namespace ContentQuery

open Chars (IsName Solid)

/-! ## Plain texts between and behind parts -/

namespace Rename

theorem isPlain_append {v w : String} (hv : IsPlain v.toList) (hw : IsPlain w.toList) :
    IsPlain (v ++ w).toList := by
  intro c hc
  rw [String.toList_append, List.mem_append] at hc
  rcases hc with hc | hc
  · exact hv c hc
  · exact hw c hc

/-- A plain text that can stand in front of a part: it ends in no word character, so that a name
may follow. -/
structure Joiner (w : String) : Prop where
  plain : IsPlain w.toList
  ne_nil : w.toList ≠ []
  last : w.toList.getLast?.any Chars.isWordChar = false

theorem not_isWordChar_mark : ∀ c ∈ [' ', '(', ','], Chars.isWordChar c = false := by
  decide +kernel

theorem joiner_of_last {w : String} {c : Char} (hplain : IsPlain w.toList)
    (hlast : w.toList.getLast? = some c) (hc : c ∈ [' ', '(', ',']) : Joiner w := by
  refine ⟨hplain, ?_, ?_⟩
  · intro h
    simp [h] at hlast
  · rw [hlast, Option.any_some]
    exact not_isWordChar_mark c hc

theorem joiner_and : Joiner " AND " :=
  joiner_of_last (by decide) (by decide : _ = some ' ') (by simp)

theorem joiner_or : Joiner " OR " :=
  joiner_of_last (by decide) (by decide : _ = some ' ') (by simp)

theorem joiner_open : Joiner "(" :=
  joiner_of_last (by decide) (by decide : _ = some '(') (by simp)

/-- A plain text that can end a condition. -/
structure Ending (w : String) : Prop where
  plain : IsPlain w.toList
  last : w.toList.getLast?.any (!Chars.isBlank ·) = true

instance (w : String) : Decidable (Ending w) :=
  decidable_of_iff (IsPlain w.toList ∧ w.toList.getLast?.any (!Chars.isBlank ·) = true)
    ⟨fun h => ⟨h.1, h.2⟩, fun h => ⟨h.plain, h.last⟩⟩

theorem getLast_append {v w : String} (hw : w.toList.getLast?.any (!Chars.isBlank ·) = true) :
    (v ++ w).toList.getLast?.any (!Chars.isBlank ·) = true := by
  cases hlast : w.toList.getLast? with
  | none => simp [hlast] at hw
  | some c =>
      rw [hlast] at hw
      rw [String.toList_append, List.getLast?_append, hlast, Option.some_or]
      exact hw

theorem Ending.behind {v w : String} (hw : Ending w) (hv : IsPlain v.toList) : Ending (v ++ w) :=
  ⟨isPlain_append hv hw.plain, getLast_append hw.last⟩

end Rename

/-! ## Numbers in conditions -/

namespace Text

theorem mem_signed {n : Int} {c : Char} (h : c ∈ (signed n).toList) :
    Chars.isNameChar c = true ∨ c = '-' := by
  cases n with
  | ofNat n =>
      rw [signed, decimal, String.toList_ofList] at h
      exact .inl ((Chars.isName_decimal n).2 c h)
  | negSucc n =>
      rw [signed, String.toList_append, List.mem_append] at h
      rcases h with h | h
      · exact .inr (by simpa using h)
      · rw [decimal, String.toList_ofList] at h
        exact .inl ((Chars.isName_decimal (n + 1)).2 c h)

theorem ending_signed (n : Int) : Rename.Ending (signed n) := by
  -- Digits and a sign: no blank among them, no dot and no backquote.
  have hsolid : Solid (signed n).toList := by
    refine Chars.solid_of_all ?_ ?_
    · cases n with
      | ofNat n =>
          rw [signed, decimal, String.toList_ofList]
          exact Chars.decimal_ne_nil n
      | negSucc n => simp [signed]
    · intro c hc
      rcases mem_signed hc with h | rfl
      · exact Chars.isBlank_of_isNameChar h
      · decide
  refine ⟨?_, hsolid.2⟩
  intro c hc
  rcases mem_signed hc with h | rfl
  · refine ⟨?_, ?_⟩ <;> rintro rfl <;> simp [Chars.isNameChar] at h
  · decide

theorem ending_decimal (n : Nat) : Rename.Ending (decimal n) := by
  have hname : IsName (decimal n).toList := by
    rw [decimal, String.toList_ofList]
    exact Chars.isName_decimal n
  exact ⟨Rename.isPlain_of_isName hname, hname.solid.2⟩

end Text

/-! ## Parts -/

namespace Rename

/-- A number between plain texts. -/
theorem ending_around {v w : String} {n : Nat} (hv : IsPlain v.toList) (hw : Ending w) :
    Ending (v ++ Text.decimal n ++ w) :=
  hw.behind (isPlain_append hv (Text.ending_decimal n).plain)

/-- A condition that is renamed along with the name of its columns, and that has something to
say. -/
structure SolidPart (table a p q : String) : Prop where
  part : Part table.toList a.toList p.toList q.toList
  solid : Solid q.toList

variable {table a p q p' q' v w : String}

/-- A part behind plain text. -/
theorem part_after (h : Part table.toList a.toList p.toList q.toList) (hw : Joiner w) :
    Part table.toList a.toList (w ++ p).toList (w ++ q).toList := by
  intro s t hst
  have hplain := (h s t hst).append_plain hw.plain hw.ne_nil hw.last
  simpa using hplain.starting

/-- A part in front of plain text. -/
theorem part_before (h : Part table.toList a.toList p.toList q.toList) (hw : IsPlain w.toList) :
    Part table.toList a.toList (p ++ w).toList (q ++ w).toList := by
  intro s t hst
  have hpart := h _ _ (hst.append_plain hw)
  simpa using hpart

/-- Two parts with plain text between them. -/
theorem SolidPart.append (h : SolidPart table a p q) (h' : SolidPart table a p' q')
    (hw : Joiner w) : SolidPart table a (p ++ w ++ p') (q ++ w ++ q') := by
  constructor
  · intro s t hst
    have hrest := h.part _ _ ((h'.part s t hst).append_plain hw.plain hw.ne_nil hw.last)
    simpa using hrest
  · rw [String.toList_append, String.toList_append, List.append_assoc]
    exact h.solid.append h'.solid _

theorem solid_parenthesized (q : String) : Solid ("(" ++ q ++ ")").toList := by
  constructor
  · simp [Chars.isBlank]
  · have hlast : (")".toList).getLast? = some ')' := by decide
    rw [String.toList_append, List.getLast?_append, hlast, Option.some_or]
    decide

/-- In parentheses even an empty condition says something. -/
theorem solidPart_parenthesized (h : Part table.toList a.toList p.toList q.toList) :
    SolidPart table a ("(" ++ p ++ ")") ("(" ++ q ++ ")") :=
  ⟨part_before (part_after h joiner_open) (by decide), solid_parenthesized q⟩

/-- Conditions that are renamed part by part; each has something to say. -/
inductive Parts (table a : String) : List String → List String → Prop
  | nil : Parts table a [] []
  | cons {p q : String} {ps qs : List String} :
      SolidPart table a p q → Parts table a ps qs → Parts table a (p :: ps) (q :: qs)

variable {ps qs : List String}

theorem Parts.join (h : Parts table a ps qs) (hw : Joiner w) :
    Part table.toList a.toList (Text.join w ps).toList (Text.join w qs).toList := by
  induction h with
  | nil => exact fun s t hst => hst.starting
  | @cons p q ps qs hpart hparts ih =>
      cases hparts with
      | nil => exact hpart.part
      | cons hpart' hparts' =>
          -- The text between ends in no word character, so the rest begins a word behind it.
          intro s t hst
          have hrest := ih s t hst
          simp only [Text.join, String.toList_append, List.append_assoc] at hrest ⊢
          exact hpart.part _ _ (hrest.append_plain hw.plain hw.ne_nil hw.last)

theorem Parts.solid_join (h : Parts table a ps qs) (hne : qs ≠ []) (w : String) :
    Solid (Text.join w qs).toList := by
  induction h with
  | nil => exact absurd rfl hne
  | cons hpart hparts ih =>
      cases hparts with
      | nil => exact hpart.solid
      | cons hpart' hparts' =>
          have hrest := ih (by simp)
          rw [Text.join, String.toList_append, String.toList_append, List.append_assoc]
          exact hpart.solid.append hrest w.toList

/-! ## Columns -/

/-- A column qualified by a name. -/
def column (name c : String) : String :=
  name ++ "." ++ c

theorem toList_column (name c : String) :
    (column name c).toList = name.toList ++ '.' :: c.toList := by
  simp [column]

/-- A qualified column with plain text behind it. -/
theorem part_column (table : String) {c : String} (hc : IsName c.toList) (hw : IsPlain w.toList) :
    Part table.toList a.toList (column table c ++ w).toList (column a c ++ w).toList := by
  intro s t hst
  have h := (hst.append_plain hw).qualified (isPlain_of_isName hc)
  simpa [toList_column] using h

theorem solidPart_column (table : String) {c : String} (ha : IsName a.toList)
    (hc : IsName c.toList) (hw : Ending w) :
    SolidPart table a (column table c ++ w) (column a c ++ w) := by
  refine ⟨part_column table hc hw.plain, ?_, getLast_append hw.last⟩
  cases h : a.toList with
  | nil => exact absurd h ha.1
  | cons d ds =>
      have hd := Chars.isBlank_of_isNameChar (ha.2 d (by simp [h]))
      simp [toList_column, h, hd]

/-! ## Conditions made for one alias -/

theorem qualifiedBy_of_part (h : Part table.toList a.toList p.toList q.toList)
    (ha : IsName a.toList) : QualifiedBy a.toList q.toList := by
  have hrenamed := h [] [] free_nil none rfl
  simp only [List.append_nil] at hrenamed
  exact hrenamed.qualifiedBy ha

/-- A condition that is made for an alias from the start. -/
def MadeFor (a condition : String) : Prop :=
  SolidPart a a condition condition

end Rename
end ContentQuery
