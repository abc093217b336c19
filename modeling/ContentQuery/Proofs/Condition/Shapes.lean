import ContentQuery.Proofs.Condition.Closed
import ContentQuery.Proofs.Condition.Parts

/-!
# Shapes of conditions

The conditions of the platform are tests of columns, put together by words and parentheses.  A shape
is such a condition with the name left open that qualifies the columns.

Two facts hold of every shape over good columns, by one induction each: written for a table and
renamed to an alias it is the shape written for the alias, and it is closed.
-/

namespace ContentQuery

open Chars (IsName)
open Rename (Ending IsPlain Joiner MadeFor Part Parts SolidPart column)
open Scan (Closed Inside Neutral Ordinary)
open Text (NameLike)

theorem Text.inside_signed (n : Int) : Inside (Text.signed n).toList := by
  refine Scan.inside_inert fun c hc => ?_
  rcases Text.mem_signed hc with h | rfl
  · exact Scan.isInert_of_isNameChar h
  · decide

/-- A condition whose columns are still to be qualified. -/
inductive Shape where
  /-- A column with text behind it. -/
  | test (column after : String)
  /-- The test for a member of a list column. -/
  | member (value column : String)
  | both (first : Shape) (word : String) (second : Shape)
  | group (inner : Shape)

namespace Shape

/-- The condition on the columns of `name`. -/
def text (name : String) : Shape → String
  | test column after => name ++ "." ++ column ++ after
  | member value column => "FIND_IN_SET('" ++ value ++ "'," ++ (name ++ "." ++ column) ++ ")"
  | both first word second => first.text name ++ word ++ second.text name
  | group inner => "(" ++ inner.text name ++ ")"

/-- Several conditions with a word between neighbours. -/
def chain (word : String) : Shape → List Shape → Shape
  | s, [] => s
  | s, t :: ts => both s word (chain word t ts)

theorem text_chain (name word : String) (s : Shape) (ts : List Shape) :
    (chain word s ts).text name = Text.join word ((s :: ts).map (text name)) := by
  induction ts generalizing s with
  | nil => rfl
  | cons t ts ih =>
      rw [chain, text, ih]
      rfl

/-! ## Texts behind columns -/

/-- What may stand behind a column: it shows no name, and closes what it opens. -/
structure Tail (w : String) : Prop where
  ending : Ending w
  neutral : Neutral w.toList

/-- A text that neither shows a name nor opens anything. -/
def Bare (w : String) : Prop :=
  IsPlain w.toList ∧ Ordinary w.toList

instance (w : String) : Decidable (Bare w) :=
  inferInstanceAs (Decidable (IsPlain w.toList ∧ Ordinary w.toList))

variable {v w : String}

theorem Bare.append (hv : Bare v) (hw : Bare w) : Bare (v ++ w) :=
  ⟨Rename.isPlain_append hv.1 hw.1, Text.ordinary_append hv.2 hw.2⟩

theorem bare_signed (n : Int) : Bare (Text.signed n) :=
  ⟨(Text.ending_signed n).plain, Text.ordinary_signed n⟩

theorem bare_decimal (n : Nat) : Bare (Text.decimal n) :=
  bare_signed n

theorem tail_of_closed
    (h : Ending w ∧ Closed w.toList ∧ ∀ c ∈ w.toList.head?, Scan.isOrdinary c = true) : Tail w :=
  ⟨h.1, Scan.neutral_of_closed h.2.1 h.2.2⟩

/-- A comparison with a number. -/
theorem tail_signed (hv : Bare v) (n : Int) : Tail (v ++ Text.signed n) :=
  ⟨(Text.ending_signed n).behind hv.1, Scan.neutral_ordinary (hv.append (bare_signed n)).2⟩

theorem tail_decimal (hv : Bare v) (n : Nat) : Tail (v ++ Text.decimal n) :=
  tail_signed hv n

/-- A comparison with a number between quotes. -/
theorem tail_literal (n : Nat) : Tail (" = '" ++ Text.decimal n ++ "'") := by
  refine ⟨Rename.ending_around (by decide) (by decide), ?_⟩
  have htext : " = '" ++ Text.decimal n ++ "'" = " = " ++ ("'" ++ Text.decimal n ++ "'") := by
    rw [← String.toList_inj]
    simp
  rw [htext]
  exact Text.neutral_behind (by decide) (by decide) (Text.closed_literal (Text.inside_signed n))

/-- The test for one of several numbers. -/
theorem tail_listed (hv : Bare v) : Tail (" IN (" ++ v ++ ")") := by
  have hending : Ending (" IN (" ++ v ++ ")") :=
    Ending.behind (by decide) (Rename.isPlain_append (by decide) hv.1)
  refine ⟨hending, ?_⟩
  have htext : " IN (" ++ v ++ ")" = " IN " ++ ("(" ++ v ++ ")") := by
    rw [← String.toList_inj]
    simp
  rw [htext]
  exact Text.neutral_append (Scan.neutral_ordinary (by decide))
    (Text.neutral_parenthesized (Scan.closed_ordinary hv.2))

/-! ## Shapes over columns -/

/-- The words between conditions. -/
def connectives : List String :=
  [" AND ", " OR "]

theorem joiner_of_mem {word : String} (h : word ∈ connectives) : Joiner word := by
  simp only [connectives, List.mem_cons, List.not_mem_nil, or_false] at h
  rcases h with rfl | rfl
  · exact Rename.joiner_and
  · exact Rename.joiner_or

/-- The columns are in the list, or names that the platform itself gives; the texts around them show
no name and close what they open. -/
def Over (columns : List String) : Shape → Prop
  | test c after => (c ∈ columns ∨ IsName c.toList) ∧ Tail after
  | member value c =>
      (c ∈ columns ∨ IsName c.toList) ∧ IsPlain value.toList ∧ Inside value.toList
  | both first word second => first.Over columns ∧ word ∈ connectives ∧ second.Over columns
  | group inner => inner.Over columns

variable {columns : List String} {s : Shape} {a : String}

theorem over_chain {word : String} {ts : List Shape} (hword : word ∈ connectives)
    (h : ∀ t ∈ s :: ts, t.Over columns) : (chain word s ts).Over columns := by
  induction ts generalizing s with
  | nil => exact h s (by simp)
  | cons t ts ih => exact ⟨h s (by simp), hword, ih fun u hu => h u (by simp [hu])⟩

/-- The call that tests for a member, renamed along with its column. -/
theorem solidPart_member (table : String) {value c : String} (hc : IsName c.toList)
    (hvalue : IsPlain value.toList) :
    SolidPart table a ((member value c).text table) ((member value c).text a) := by
  have hplain : IsPlain ("FIND_IN_SET('" ++ value ++ "',").toList :=
    Rename.isPlain_append (Rename.isPlain_append (by decide) hvalue) (by decide)
  -- The column stands behind a comma, so a word may begin there.
  have hcomma : ("FIND_IN_SET('" ++ value ++ "',").toList.getLast? = some ',' := by
    have hlast : ("',".toList).getLast? = some ',' := by decide
    rw [String.toList_append, List.getLast?_append, hlast, Option.some_or]
  have hcolumn : Part table.toList a.toList (column table c).toList (column a c).toList := by
    have h : Part table.toList a.toList (column table c ++ "").toList (column a c ++ "").toList :=
      Rename.part_column table hc (by decide)
    simpa using h
  have hopened := Rename.part_after hcolumn (Rename.joiner_of_last hplain hcomma (by simp))
  have hcall := Rename.part_before hopened (w := ")") (by decide)
  refine ⟨hcall, ?_, ?_⟩
  · simp [text, Chars.isBlank]
  · exact Rename.getLast_append (by decide)

/-- Written for a table and renamed to an alias, a shape is what is written for the alias. -/
theorem Over.solidPart (h : s.Over columns) (table : String) (ha : IsName a.toList)
    (hcolumns : ∀ c ∈ columns, IsName c.toList) : SolidPart table a (s.text table) (s.text a) := by
  have hname : ∀ {c : String}, c ∈ columns ∨ IsName c.toList → IsName c.toList :=
    fun hc => hc.elim (hcolumns _) id
  induction s with
  | test c after => exact Rename.solidPart_column table ha (hname h.1) h.2.ending
  | member value c => exact solidPart_member table (hname h.1) h.2.1
  | both first word second ihf ihs => exact (ihf h.1).append (ihs h.2.2) (joiner_of_mem h.2.1)
  | group inner ih => exact Rename.solidPart_parenthesized (ih h).part

/-- A shape is closed under every name and over all columns that are made of name characters. -/
theorem Over.closed (h : s.Over columns) (ha : NameLike a) (hcolumns : ∀ c ∈ columns, NameLike c) :
    Closed (s.text a).toList := by
  have hname : ∀ {c : String}, c ∈ columns ∨ IsName c.toList → NameLike c :=
    fun hc => hc.elim (hcolumns _) fun hc => hc.2
  have hqualified : ∀ {c : String}, c ∈ columns ∨ IsName c.toList →
      Closed (a ++ "." ++ c).toList := by
    intro c hc
    have hclosed := Text.closed_column ha (hname hc) (w := "") Scan.neutral_nil
    simpa using hclosed
  induction s with
  | test c after => exact Text.closed_column ha (hname h.1) h.2.neutral
  | member value c => exact Literal.closed_findInSet h.2.2 (hqualified h.1)
  | both first word second ihf ihs =>
      have hword : Ordinary word.toList ∧ word ≠ "" := by
        have hmem := h.2.1
        simp only [connectives, List.mem_cons, List.not_mem_nil, or_false] at hmem
        rcases hmem with rfl | rfl <;> decide
      rw [text, String.append_assoc]
      exact Text.closed_append (ihf h.1) (Text.neutral_behind hword.1 hword.2 (ihs h.2.2))
  | group inner ih => exact (Text.neutral_parenthesized (ih h)).closed

/-- Several shapes are renamed one by one. -/
theorem parts_of_over {ss : List Shape} (h : ∀ s ∈ ss, s.Over columns) (table : String)
    (ha : IsName a.toList) (hcolumns : ∀ c ∈ columns, IsName c.toList) :
    Parts table a (ss.map (text table)) (ss.map (text a)) := by
  induction ss with
  | nil => exact .nil
  | cons s ss ih =>
      exact .cons ((h s (by simp)).solidPart table ha hcolumns) (ih fun t ht => h t (by simp [ht]))

end Shape
end ContentQuery
