import ContentQuery.Proofs.Query.Bookkeeping
import ContentQuery.Proofs.Query.Written

/-!
# SELECT lists that come back

The entries of a canonical SELECT list, written with commas between them, are read as the same
entries: each piece has its expression, its alias and the mark of a call, and resolving it against
the tables of the query gives the field that was written.
-/

namespace ContentQuery

open Keyword (IsWord Ends isIdentifierChar ends_nil ends_cons head_cons)
open Scan (Closed Settled Above Quiet everywhere everywhere_iff joined isOrdinary)
open Chars (IsName Solid isNameChar)

/-! ## The text of an entry -/

namespace SelectField

/-- The alias behind its keyword, if there is one. -/
def aliasChars (f : SelectField) : List Char :=
  match f.aliasName with
  | some a => ' ' :: (Keyword.as.letters ++ ' ' :: a.toList)
  | none => []

/-- What is to be read from the text of an entry. -/
def spec (f : SelectField) : FieldSpec :=
  { expression := f.expression, aliasName := f.aliasName, isCall := f.isCall, isWildcard := false }

theorem toList_text (f : SelectField) :
    f.text.toList = f.expression.toList ++ f.aliasChars := by
  have has : " AS ".toList = ' ' :: (Keyword.as.letters ++ [' ']) := by decide
  unfold text aliasChars
  cases f.aliasName with
  | none => simp only [List.append_nil]
  | some a =>
      simp only [String.toList_append, has, List.append_assoc, List.cons_append, List.nil_append]

theorem toList_expression {f : SelectField} (hcall : f.isCall = false) :
    f.expression.toList = f.tableAlias.toList ++ '.' :: f.field.toList := by
  have hdot : ".".toList = ['.'] := by decide
  simp only [expression, hcall, Bool.false_eq_true, if_false, String.toList_append, hdot,
    List.append_assoc, List.singleton_append]

end SelectField

/-! ## Inside a piece -/

namespace SelectList

open Chars (trim)

/-- Neither a comma nor AS on the top level. -/
def isInner (s : Scan) (c : Char) (cs : List Char) : Bool :=
  !(s.isTopLevel c && (c == ',' || (Keyword.as.length? s.last (c :: cs)).isSome))

/-- What has been seen of a piece behind a text. -/
def Piece.seeAll (p : Piece) (s : Scan) : List Char → Piece
  | [] => p
  | c :: cs => Piece.seeAll (p.see s c) (s.step c) cs

theorem length?_as_append {r : List Char} (hr : Ends [] r) (last : Option Char)
    (text : List Char) :
    Keyword.as.length? last (text ++ r) = Keyword.as.length? last text := by
  unfold Keyword.length?
  split
  · rfl
  · exact Keyword.spelling?_append (by decide) (by decide) hr text

variable {text : List Char} {p : Piece} {s : Scan}

/-- The inner text of a piece is passed, whatever follows. -/
theorem specsFrom_inner {r : List Char} (hr : Ends [] r) {e : List Char}
    (he : everywhere isInner s e = true) :
    specsFrom text 0 p s (e ++ r) = specsFrom text 0 (p.seeAll s e) (s.read e) r := by
  induction e generalizing p s with
  | nil => rfl
  | cons c cs ih =>
      rw [everywhere, Bool.and_eq_true] at he
      -- Neither the comma nor AS is seen, so the character belongs to the piece.
      have hinner := he.1
      have hcomma : ¬ (c = ',' ∧ s.isTopLevel c = true) := by
        rintro ⟨rfl, htop⟩
        simp [isInner, htop] at hinner
      have has : (if s.isTopLevel c then Keyword.as.length? s.last (c :: (cs ++ r)) else none) =
          none := by
        split
        · next htop =>
            have hboth : ¬ c = ',' ∧ Keyword.as.length? s.last (c :: cs) = none := by
              simpa [isInner, htop] using hinner
            rw [← List.cons_append, length?_as_append hr]
            exact hboth.2
        · rfl
      rw [List.cons_append, specsFrom, if_neg hcomma, has]
      exact ih he.2

/-- AS marks the alias of a piece. -/
theorem specsFrom_as (hs : Settled 0 s) (hlast : s.last.any isIdentifierChar = false)
    {r : List Char} (hr : ∀ c ∈ r.head?, isIdentifierChar c = false) :
    specsFrom text 0 p s (Keyword.as.letters ++ r) =
        specsFrom text 0 { p with aliasWord := some (s.position, s.position + 2) }
          (s.read Keyword.as.letters) r ∧
      Settled 0 (s.read Keyword.as.letters) := by
  have hletters : Keyword.as.letters = ['A', 'S'] := by decide
  have hA : isOrdinary 'A' = true := by decide
  have hS : isOrdinary 'S' = true := by decide
  have houtside := hs.isOutside (Scan.isQuote_of_isOrdinary hA)
  have htop : s.isTopLevel 'A' = true := by simp [Scan.isTopLevel, hs.depth_eq, houtside]
  have hself : Keyword.as.length? s.last ('A' :: 'S' :: r) = some 2 := by
    rw [Keyword.length?_eq _ hlast]
    exact @Keyword.spelling?_self ['A', 'S'] r (by decide) hr
  -- The two letters are passed, which is to say read.
  have hpass : (s.pass 'A').pass 'S' = (s.step 'A').step 'S' := by
    rw [← Scan.step_of_isOrdinary hA houtside, ← Scan.step_of_isOrdinary hS
      (Scan.isOutside_of_plain (hs.mode_step hA) 'S')]
  rw [hletters]
  refine ⟨?_, hs.read (by decide)⟩
  rw [List.cons_append, List.cons_append, List.nil_append, specsFrom, if_neg (by simp), if_pos htop,
    hself]
  show specsFrom text 0 _ ((s.pass 'A').pass 'S') r = _
  rw [hpass]
  rfl

/-! ## What is seen of a piece -/

/-- A parenthesis that opens outside literals. -/
def isOpening (s : Scan) (c : Char) : Bool :=
  c == '(' && s.isOutside c

/-- A star on the top level. -/
def isStar (s : Scan) (c : Char) : Bool :=
  c == '*' && s.isTopLevel c

theorem see_eq (p : Piece) (s : Scan) (c : Char) :
    p.see s c =
      { p with hasCall := p.hasCall || isOpening s c, hasStar := p.hasStar || isStar s c } := by
  by_cases hstar : c = '*'
  · subst hstar
    cases htop : s.isTopLevel '*' <;> simp [Piece.see, isOpening, isStar, htop]
  · by_cases hopen : c = '('
    · subst hopen
      cases houtside : s.isOutside '(' <;> simp [Piece.see, isOpening, isStar, houtside]
    · have hstar' : (c == '*') = false := by simpa using hstar
      have hopen' : (c == '(') = false := by simpa using hopen
      simp [Piece.see, isOpening, isStar, hstar, hopen, hstar', hopen']

/-- A piece has what stands at some place of its text. -/
theorem seeAll_eq (p : Piece) (s : Scan) (e : List Char) :
    p.seeAll s e =
      { p with
        hasCall := p.hasCall || !everywhere (fun s c _ => !isOpening s c) s e
        hasStar := p.hasStar || !everywhere (fun s c _ => !isStar s c) s e } := by
  induction e generalizing p s with
  | nil => simp [Piece.seeAll, everywhere]
  | cons c cs ih =>
      rw [Piece.seeAll, ih, see_eq]
      simp [everywhere, Bool.or_assoc]

theorem everywhere_of_not_mem {q : Scan → Char → Bool} {d : Char}
    (hq : ∀ s c, q s c = true → c = d) {e : List Char} (hd : d ∉ e) (s : Scan) :
    everywhere (fun s c _ => !q s c) s e = true := by
  rw [everywhere_iff]
  rintro before c behind rfl
  cases hc : q (s.read before) c with
  | false => rfl
  | true =>
      have hmem : d ∈ before ++ c :: behind := by simp [hq _ _ hc]
      exact absurd hmem hd

/-- A text without parentheses and stars leaves a piece as it is. -/
theorem seeAll_of_not_mem (p : Piece) (s : Scan) {e : List Char} (hopen : '(' ∉ e)
    (hstar : '*' ∉ e) : p.seeAll s e = p := by
  have h1 := everywhere_of_not_mem (q := isOpening) (d := '(') (by simp [isOpening]) hopen s
  have h2 := everywhere_of_not_mem (q := isStar) (d := '*') (by simp [isStar]) hstar s
  rw [seeAll_eq, h1, h2]
  simp

/-! ## Inner texts -/

/-- Within a name there is no AS. -/
theorem everywhere_isInner_of_last {w : List Char}
    (hw : ∀ c ∈ w, isIdentifierChar c = true) {s : Scan}
    (hlast : s.last.any isIdentifierChar = true) : everywhere isInner s w = true := by
  have hcomma : isIdentifierChar ',' = false := by decide
  induction w generalizing s with
  | nil => rfl
  | cons c cs ih =>
      have hc := hw c (by simp)
      have hne : c ≠ ',' := by
        rintro rfl
        simp [hcomma] at hc
      rw [everywhere, Bool.and_eq_true]
      refine ⟨?_, ih (fun d hd => hw d (by simp [hd])) (by simpa using hc)⟩
      simp [isInner, hne, Keyword.length?_of_any _ hlast]

/-- An identifier that begins with a word other than AS. -/
theorem everywhere_isInner_identifier {name tail : List Char} (hname : IsName name)
    (htail : ∀ c ∈ tail, isIdentifierChar c = true) (hhead : ∀ c ∈ tail.head?, isNameChar c = false)
    (hne : name.map Char.toUpper ≠ Keyword.as.letters) (s : Scan) :
    everywhere isInner s (name ++ tail) = true := by
  cases hcs : name with
  | nil => exact absurd hcs hname.1
  | cons c cs =>
      have hc := hname.2 c (by simp [hcs])
      have hcomma : c ≠ ',' := hname.ne (by simp [hcs]) (by decide)
      have hnone : Keyword.as.length? s.last (c :: (cs ++ tail)) = none := by
        refine Scan.length?_eq_none fun _ => ?_
        have h := @Keyword.spelling?_name name Keyword.as.letters tail hname.2 (by decide) hhead hne
        rwa [hcs] at h
      rw [List.cons_append, everywhere, Bool.and_eq_true]
      refine ⟨by simp [isInner, hcomma, hnone], everywhere_isInner_of_last ?_ ?_⟩
      · intro d hd
        rcases List.mem_append.1 hd with hd | hd
        · exact Chars.isIdentifierChar_of_isNameChar (hname.2 d (by simp [hcs, hd]))
        · exact htail d hd
      · simpa using Chars.isIdentifierChar_of_isNameChar hc

/-- The text of a call. -/
theorem everywhere_isInner_call {e : String} (he : CallText e) {t : Scan} (ht : Above 0 {} t) :
    everywhere isInner t e.toList = true := by
  have hcomma := he.separate
  have hwords := he.lacks
  rw [← Scan.lacksSeparator_beside ht.beside, everywhere_iff] at hcomma
  rw [← Scan.lacksKeywords_beside ht.beside, everywhere_iff] at hwords
  rw [everywhere_iff]
  -- On the top level there is no comma and no AS, below it neither counts.
  intro before c behind heq
  have h1 := hcomma before c behind heq
  have h2 := hwords before c behind heq
  cases htop : (t.read before).isTopLevel c with
  | false => simp [isInner, htop]
  | true =>
      simp only [htop, Bool.and_true, Bool.true_and, List.any_cons, Bool.not_or,
        Bool.and_eq_true, Bool.not_eq_true'] at h1 h2
      simp [isInner, h1, h2.1]

/-! ## Expressions -/

variable {q : Query} {f : SelectField}

theorem ne_as_of_isWord {a : String} (ha : IsWord a) :
    a.toList.map Char.toUpper ≠ Keyword.as.letters := by
  have has : Keyword.as.letters ∈ Keyword.reserved := by decide
  intro h
  exact ha.2 (by rw [h]; exact has)

/-- The characters behind the alias of a table in a column. -/
theorem isIdentifierChar_column {a : String} (ha : IsWord a) :
    ∀ c ∈ '.' :: a.toList, isIdentifierChar c = true ∧ isOrdinary c = true := by
  intro c hc
  rcases List.mem_cons.1 hc with rfl | hc
  · decide
  · have hname := ha.1.2 c hc
    exact ⟨Chars.isIdentifierChar_of_isNameChar hname, Scan.isOrdinary_of_isNameChar hname⟩

theorem not_mem_of_isWord {a : String} (ha : IsWord a) {d : Char} (hd : isNameChar d = false) :
    d ∉ a.toList :=
  fun hmem => ha.1.ne hmem hd rfl

/-- An expression is read as one piece, and as a call if it is one. -/
structure Expression (f : SelectField) : Prop where
  inner : ∀ t, Above 0 {} t → everywhere isInner t f.expression.toList = true
  seen : ∀ t, Above 0 {} t → ∀ start, ∃ star,
    ({ start } : Piece).seeAll t f.expression.toList =
        { start, hasCall := f.isCall, hasStar := star } ∧ (f.isCall = false → star = false)
  settled : ∀ t, Above 0 {} t → Settled 0 (t.read f.expression.toList)
  solid : Solid f.expression.toList

theorem expression_column (hf : f.Canonical q) (hcall : f.isCall = false) : Expression f := by
  rcases hf.column hcall with ⟨halias, hfield, _⟩
  -- Names and a dot: no parenthesis, no star, and nothing that a scan takes notice of.
  have htext := SelectField.toList_expression hcall
  have htail := isIdentifierChar_column hfield
  have hopen : '(' ∉ f.expression.toList := by
    rw [htext]
    simp [not_mem_of_isWord halias (d := '(') (by decide),
      not_mem_of_isWord hfield (d := '(') (by decide)]
  have hstar : '*' ∉ f.expression.toList := by
    rw [htext]
    simp [not_mem_of_isWord halias (d := '*') (by decide),
      not_mem_of_isWord hfield (d := '*') (by decide)]
  have hordinary : ∀ c ∈ f.expression.toList, isOrdinary c = true := by
    rw [htext]
    intro c hc
    rcases List.mem_append.1 hc with hc | hc
    · exact Scan.isOrdinary_of_isNameChar (halias.1.2 c hc)
    · exact (htail c hc).2
  refine ⟨?_, ?_, ?_, ?_⟩
  · intro t _
    rw [htext]
    exact everywhere_isInner_identifier halias.1 (fun c hc => (htail c hc).1)
      (by rintro c hc; cases hc; decide) (ne_as_of_isWord halias) t
  · intro t _ start
    refine ⟨false, ?_, fun _ => rfl⟩
    rw [seeAll_of_not_mem _ _ hopen hstar, hcall]
  · intro t ht
    exact (ht.settled Scan.settled_start).read hordinary
  · rw [htext]
    exact halias.1.solid.append hfield.1.solid ['.']

theorem expression_call (hf : f.Canonical q) (hcall : f.isCall = true) : Expression f := by
  rcases hf.call hcall with ⟨_, _, _, htext⟩
  have hexpression : f.expression = f.field := by simp [SelectField.expression, hcall]
  have hclosed := Scan.closed_iff_settled.1 htext.closed
  refine ⟨?_, ?_, ?_, ?_⟩
  · intro t ht
    rw [hexpression]
    exact everywhere_isInner_call htext ht
  · intro t ht start
    -- The call has its parenthesis wherever the text stands.
    have hopening : everywhere (fun s c _ => !isOpening s c) t f.field.toList = false := by
      rw [Scan.everywhere_beside (s := {}) ?_ ht.beside]
      · exact htext.call
      · intro s t c cs h
        simp only [isOpening, Scan.isOutside_congr h.mode]
    have hseen := seeAll_eq { start } t f.field.toList
    rw [hopening] at hseen
    refine ⟨!everywhere (fun s c _ => !isStar s c) t f.field.toList, ?_, ?_⟩
    · rw [hexpression, hseen, hcall]
      rfl
    · intro h
      rw [hcall] at h
      cases h
  · intro t ht
    rw [hexpression]
    exact (ht.read hclosed.stray).settled hclosed
  · rw [hexpression]
    exact htext.solid

theorem expression_of_canonical (hf : f.Canonical q) : Expression f := by
  cases hcall : f.isCall with
  | false => exact expression_column hf hcall
  | true => exact expression_call hf hcall

/-! ## Pieces -/

theorem slice_eq {b m r : List Char} {start stop : Nat} (htext : text = b ++ (m ++ r))
    (hstart : start = b.length) (hstop : stop = b.length + m.length) :
    Chars.slice text start stop = m := by
  rw [htext, hstart, hstop, Chars.slice, List.take_length_add_append, List.take_left,
    List.drop_left]

theorem specsFrom_blank (cs : List Char) :
    specsFrom text 0 p s (' ' :: cs) = specsFrom text 0 p (s.step ' ') cs := by
  have hsee : p.see s ' ' = p := by simp [Piece.see]
  have has : Keyword.as.length? s.last (' ' :: cs) = none := by
    refine Scan.length?_eq_none fun _ => ?_
    refine Keyword.spelling?_eq_none (by decide) ?_
    rintro c hc
    cases hc
    decide
  rw [specsFrom, if_neg (by simp), has, ite_self, hsee]

/-- A piece from its text: blanks in front of the expression, and perhaps an alias. -/
theorem spec_of_parts {b lead r : List Char} (hlead : ∀ c ∈ lead, Chars.isBlank c = true)
    (hsolid : Solid f.expression.toList) (halias : ∀ a ∈ f.aliasName, IsWord a) {star : Bool}
    (hstar : f.isCall = false → star = false)
    (htext : text = b ++ (lead ++ (f.text.toList ++ r))) {word : Option (Nat × Nat)}
    (hword : word = f.aliasName.map fun _ =>
      (b.length + (lead ++ f.expression.toList).length + 1,
        b.length + (lead ++ f.expression.toList).length + 3)) :
    ({ start := b.length, aliasWord := word, hasCall := f.isCall, hasStar := star } : Piece).spec
        text (b.length + (lead ++ f.text.toList).length) = f.spec := by
  have hexpression : String.ofList f.expression.toList = f.expression := String.ofList_toList
  have hwildcard : (star && !f.isCall) = false := by
    cases hcall : f.isCall with
    | true => simp
    | false => simp [hstar hcall]
  have hletters : Keyword.as.letters = ['A', 'S'] := by decide
  rw [SelectField.toList_text] at htext ⊢
  cases hname : f.aliasName with
  | none =>
      have hnone : f.aliasChars = [] := by simp [SelectField.aliasChars, hname]
      rw [hnone, List.append_nil] at htext ⊢
      have hslice : Chars.slice text b.length
          (b.length + (lead ++ f.expression.toList).length) = lead ++ f.expression.toList :=
        slice_eq (by rw [htext, List.append_assoc]) rfl rfl
      have htrim : Chars.trim (lead ++ f.expression.toList) = f.expression.toList :=
        (Chars.trim_blanks_append hlead _).trans hsolid.trim
      rw [hname] at hword
      subst hword
      simp only [Piece.spec, SelectField.spec, hname, Option.map_none, Option.getD_none, hslice,
        htrim, hexpression, hwildcard, Bool.false_and, List.isEmpty_nil, if_true]
  | some a =>
      have hchars : f.aliasChars = [' ', 'A', 'S'] ++ ' ' :: a.toList := by
        simp [SelectField.aliasChars, hname, hletters]
      have hsolidAlias := (halias a hname).1.solid
      rw [hchars] at htext ⊢
      -- The expression ends at the blank before AS, the alias begins behind AS.
      have hfirst : Chars.slice text b.length
          (b.length + (lead ++ f.expression.toList).length + 1) =
            lead ++ f.expression.toList ++ [' '] := by
        refine @slice_eq text b _ (['A', 'S'] ++ ' ' :: a.toList ++ r) _ _ ?_ rfl ?_
        · simp [htext]
        · simp [Nat.add_assoc]
      have hsecond : Chars.slice text (b.length + (lead ++ f.expression.toList).length + 3)
          (b.length + (lead ++ (f.expression.toList ++ ([' ', 'A', 'S'] ++ ' ' :: a.toList))).length) =
            ' ' :: a.toList := by
        refine @slice_eq text (b ++ (lead ++ (f.expression.toList ++ [' ', 'A', 'S']))) _ r _ _
          ?_ ?_ ?_
        · simp [htext]
        · simp [Nat.add_assoc]
        · simp only [List.length_append, List.length_cons, List.length_nil]
          omega
      have htrim : Chars.trim (lead ++ f.expression.toList ++ [' ']) = f.expression.toList :=
        (Chars.trim_append_space _).trans ((Chars.trim_blanks_append hlead _).trans hsolid.trim)
      have htrimAlias : Chars.trim (' ' :: a.toList) = a.toList := hsolidAlias.trim_space
      have hempty : a.toList.isEmpty = false := by
        cases hcase : a.toList with
        | nil => exact absurd hcase hsolidAlias.ne_nil
        | cons c cs => rfl
      have hofList : String.ofList a.toList = a := String.ofList_toList
      rw [hname] at hword
      subst hword
      simp only [Piece.spec, SelectField.spec, hname, Option.map_some, Option.getD_some, hfirst,
        hsecond, htrim, htrimAlias, hempty, hexpression, hofList, hwildcard, Bool.false_and,
        Bool.false_eq_true, if_false]

/-- Reading the alias of an entry. -/
theorem specsFrom_alias (halias : ∀ a ∈ f.aliasName, IsWord a) (hword : p.aliasWord = none)
    (hs : Settled 0 s) {r : List Char} (hr : Ends [] r) :
    specsFrom text 0 p s (f.aliasChars ++ r) =
        specsFrom text 0
          { p with aliasWord := f.aliasName.map fun _ => (s.position + 1, s.position + 3) }
          (s.read f.aliasChars) r ∧
      Settled 0 (s.read f.aliasChars) := by
  unfold SelectField.aliasChars
  cases hname : f.aliasName with
  | none =>
      refine ⟨?_, hs⟩
      rw [Option.map_none, ← hword]
      rfl
  | some a =>
      -- A blank, AS, a blank, and a name without AS in it.
      have ha := halias a hname
      have hinner : ∀ t, everywhere isInner t a.toList = true := by
        intro t
        have h := @everywhere_isInner_identifier _ [] ha.1 (by simp) (by simp)
          (ne_as_of_isWord ha) t
        rwa [List.append_nil] at h
      have hordinary : ∀ c ∈ ' ' :: a.toList, isOrdinary c = true := by
        intro c hc
        rcases List.mem_cons.1 hc with rfl | hc
        · decide
        · exact Scan.isOrdinary_of_isNameChar (ha.1.2 c hc)
      have hstep : Settled 0 (s.step ' ') := hs.step (by decide)
      have hlast : (s.step ' ').last.any isIdentifierChar = false :=
        Scan.last_any_step (by decide) s
      obtain ⟨has, hsettled⟩ := @specsFrom_as text p (s.step ' ') hstep hlast
        (' ' :: (a.toList ++ r)) (head_cons (by decide) _)
      simp only [Scan.read_cons, Scan.read_append]
      refine ⟨?_, hsettled.read hordinary⟩
      rw [List.cons_append, specsFrom_blank, List.append_assoc, List.cons_append, has,
        specsFrom_blank, specsFrom_inner hr (hinner _), seeAll_of_not_mem _ _
        (not_mem_of_isWord ha (by decide)) (not_mem_of_isWord ha (by decide))]
      rfl

/-- Reading an entry behind at most one blank. -/
theorem specsFrom_field (hf : f.Canonical q) {b lead r : List Char}
    (hlead : lead = [] ∨ lead = [' ']) (hposition : s.position = b.length)
    (hs : Above 0 {} (s.read lead)) (hr : Ends [] r)
    (htext : text = b ++ (lead ++ (f.text.toList ++ r))) :
    ∃ p : Piece,
      specsFrom text 0 { start := b.length } s (lead ++ (f.text.toList ++ r)) =
          specsFrom text 0 p (s.read (lead ++ f.text.toList)) r ∧
        p.spec text (s.read (lead ++ f.text.toList)).position = f.spec ∧
        Settled 0 (s.read (lead ++ f.text.toList)) := by
  have hexpression := expression_of_canonical hf
  rcases hexpression.seen _ hs b.length with ⟨star, hseen, hstar⟩
  have hblank : ∀ c ∈ lead, Chars.isBlank c = true := by
    rcases hlead with rfl | rfl <;> decide
  have hfront : ∀ rest, specsFrom text 0 { start := b.length } s (lead ++ rest) =
      specsFrom text 0 { start := b.length } (s.read lead) rest := by
    rcases hlead with rfl | rfl
    · exact fun _ => rfl
    · exact specsFrom_blank
  have hends : Ends [] (f.aliasChars ++ r) := by
    unfold SelectField.aliasChars
    cases f.aliasName with
    | none => exact hr
    | some a => exact ends_cons (by decide) _
  -- The scan behind the expression, from which the alias is read.
  generalize hu : (s.read lead).read f.expression.toList = u
  have hsettled : Settled 0 u := hu ▸ hexpression.settled _ hs
  obtain ⟨halias, hfinal⟩ := @specsFrom_alias text
    { start := b.length, hasCall := f.isCall, hasStar := star } u f hf.aliasName rfl hsettled r hr
  have hread : s.read (lead ++ f.text.toList) = u.read f.aliasChars := by
    rw [SelectField.toList_text, Scan.read_append, Scan.read_append, hu]
  have hstop : (s.read (lead ++ f.text.toList)).position =
      b.length + (lead ++ f.text.toList).length := by
    rw [Scan.position_read, hposition]
  have hposition_u : u.position = b.length + (lead ++ f.expression.toList).length := by
    rw [← hu, ← Scan.read_append, Scan.position_read, hposition]
  refine ⟨{ start := b.length, aliasWord := f.aliasName.map fun _ => (u.position + 1, u.position + 3),
            hasCall := f.isCall, hasStar := star }, ?_, ?_, ?_⟩
  · rw [hread, ← halias, SelectField.toList_text, List.append_assoc, hfront,
      specsFrom_inner hends (hexpression.inner _ hs), hseen, hu]
  · rw [hstop]
    exact spec_of_parts hblank hexpression.solid hf.aliasName hstar htext (by rw [hposition_u])
  · rw [hread]
    exact hfinal

/-- Reading the entries of a list with commas between them. -/
theorem specsFrom_fields {fields : List SelectField} :
    ∀ (f : SelectField) (b lead : List Char) (s : Scan), f.Canonical q →
      (∀ g ∈ fields, g.Canonical q) → (lead = [] ∨ lead = [' ']) → s.position = b.length →
      Above 0 {} (s.read lead) →
      text = b ++ (lead ++ (f.text.toList ++ fields.flatMap fun g => ',' :: ' ' :: g.text.toList)) →
      ∃ final, specsFrom text 0 { start := b.length } s
          (lead ++ (f.text.toList ++ fields.flatMap fun g => ',' :: ' ' :: g.text.toList)) =
          (f.spec :: fields.map SelectField.spec, final) ∧ Settled 0 final := by
  induction fields with
  | nil =>
      intro f b lead s hf _ hlead hposition hs htext
      rw [List.flatMap_nil] at htext ⊢
      obtain ⟨p, hread, hspec, hsettled⟩ :=
        specsFrom_field hf hlead hposition hs (ends_nil (by simp)) htext
      refine ⟨_, ?_, hsettled⟩
      rw [hread, specsFrom, hspec]
      rfl
  | cons g gs ih =>
      intro f b lead s hf hfields hlead hposition hs htext
      rw [List.flatMap_cons, List.cons_append, List.cons_append] at htext ⊢
      obtain ⟨p, hread, hspec, hsettled⟩ :=
        specsFrom_field hf hlead hposition hs (ends_cons (by decide) _) htext
      generalize hu : s.read (lead ++ f.text.toList) = u at hread hspec hsettled
      have houtside : u.isOutside ',' = true := hsettled.isOutside (by decide)
      have htop : u.isTopLevel ',' = true := by
        simp [Scan.isTopLevel, hsettled.depth_eq, houtside]
      have hstep := hsettled.step (c := ',') (by decide)
      have hstart : u.position + 1 = (b ++ (lead ++ (f.text.toList ++ [',']))).length := by
        rw [← hu, Scan.position_read, hposition]
        simp [Nat.add_assoc]
      -- The next piece begins behind the comma.
      obtain ⟨final, hrest, hfinal⟩ := ih g (b ++ (lead ++ (f.text.toList ++ [',']))) [' ']
        (u.step ',') (hfields g (by simp)) (fun g' hg' => hfields g' (by simp [hg'])) (.inr rfl)
        hstart (Scan.above_of_blank hstep (by decide) (by decide)) (by rw [htext]; simp)
      refine ⟨final, ?_, hfinal⟩
      rw [List.singleton_append] at hrest
      rw [hread, specsFrom, if_pos ⟨rfl, htop⟩, ← Scan.step_of_isOrdinary (by decide) houtside,
        hspec, hstart, hrest]
      rfl

/-- The text of a list of entries gives the entries back. -/
theorem split_joined {fields : List SelectField} (hne : fields ≠ [])
    (hfields : ∀ f ∈ fields, f.Canonical q) :
    split (joined ',' (fields.map (·.text.toList))) = .ok (fields.map SelectField.spec) := by
  cases fields with
  | nil => exact absurd rfl hne
  | cons f fs =>
      have hfresh : Above 0 {} (({} : Scan).read []) := Above.of_settled Scan.settled_start rfl rfl
      obtain ⟨final, hread, hfinal⟩ := specsFrom_fields f [] [] {} (hfields f (by simp))
        (fun g hg => hfields g (List.mem_cons_of_mem f hg)) (.inl rfl) rfl hfresh rfl
      have hjoined : joined ',' ((f :: fs).map (·.text.toList)) =
          f.text.toList ++ fs.flatMap fun g => ',' :: ' ' :: g.text.toList := by
        rw [List.map_cons, joined, List.flatMap_map]
      -- No expression is empty, so no entry is dropped.
      have hnonempty : ((f :: fs).map SelectField.spec).filter
          (fun spec => !spec.expression.isEmpty) = (f :: fs).map SelectField.spec := by
        refine List.filter_eq_self.2 ?_
        intro spec hspec
        rcases List.mem_map.1 hspec with ⟨g, hg, rfl⟩
        have hsolid := (expression_of_canonical (hfields g hg)).solid
        have hne' : g.expression ≠ "" := by
          intro h
          exact hsolid.ne_nil (by rw [h]; rfl)
        simpa [SelectField.spec, String.isEmpty_iff] using hne'
      simp only [List.nil_append, List.length_nil] at hread
      rw [split, hjoined, hread]
      simp only [hfinal.outside, hfinal.stray, hfinal.depth_eq, Option.isSome_none,
        Bool.false_eq_true, if_false, Nat.lt_irrefl, List.map_cons] at hnonempty ⊢
      rw [hnonempty]

/-! ## Resolution -/

/-- Two queries know the same tables under the same aliases. -/
structure SameTables (q q' : Query) : Prop where
  mainAlias : q'.mainAlias = q.mainAlias
  mainTable : q'.mainTable = q.mainTable
  tableOf : ∀ a, q'.tableOf a = q.tableOf a

theorem SameTables.congr {q q₁ q₂ : Query} (h : SameTables q q₁)
    (hsame : q₂.withoutList = q₁.withoutList) : SameTables q q₂ := by
  have halias : q₂.withoutList.mainAlias = q₁.withoutList.mainAlias :=
    congrArg Query.mainAlias hsame
  have hmain : q₂.withoutList.mainTable = q₁.withoutList.mainTable :=
    congrArg Query.mainTable hsame
  exact ⟨halias.trans h.mainAlias, hmain.trans h.mainTable, fun a =>
    (Query.tableOf_congr hsame a).trans (h.tableOf a)⟩

theorem text_trim_of_isWord {a : String} (ha : IsWord a) : Text.trim a = a := by
  rw [Text.trim, ha.1.trim, String.ofList_toList]

theorem fulltextIndex?_of_isWord {a : String} (ha : IsWord a) : fulltextIndex? a = none := by
  -- Every mark of a placeholder has a colon, and no name has one.
  have hmark : ∀ mark ∈ fulltextMarks, ':' ∈ mark.toList := by decide
  have hnone : ∀ mark ∈ fulltextMarks, Text.stripLeading? mark a = none := by
    intro mark hmem
    rw [Text.stripLeading?, Option.map_eq_none_iff]
    cases hstrip : Chars.stripLeading? mark.toList a.toList with
    | none => rfl
    | some rest =>
        have heq := Chars.append_of_stripLeading? hstrip
        refine absurd ?_ (not_mem_of_isWord ha (d := ':') (by decide))
        rw [heq]
        exact List.mem_append_left _ (hmark mark hmem)
  rw [fulltextIndex?, Option.map_eq_none_iff, List.findSome?_eq_none_iff]
  exact hnone

/-- An entry that was written names the field that it was written for. -/
theorem fieldOf_spec {q' : Query} (hf : f.Canonical q) (hq : SameTables q q') (calls : Nat) :
    fieldOf q' calls f.spec = f := by
  -- A call belongs to the main table, a column to the table of its alias.
  cases hcall : f.isCall with
  | true =>
      rcases hf.call hcall with ⟨halias, htable, hname, _⟩
      rcases Option.isSome_iff_exists.1 hname with ⟨name, hname⟩
      have hexpression : f.expression = f.field := by simp [SelectField.expression, hcall]
      simp only [fieldOf, SelectField.spec, hcall, if_true, hname, Option.getD_some, hexpression,
        hq.mainTable, hq.mainAlias, ← halias, ← htable]
      rw [← hcall, ← hname]
  | false =>
      rcases hf.column hcall with ⟨halias, hfield, htable⟩
      have hsplit : Text.splitOnce? '.' f.expression = some (f.tableAlias, f.field) := by
        rw [Text.splitOnce?, SelectField.toList_expression hcall,
          Chars.splitOnce?_append (not_mem_of_isWord halias (by decide))]
        simp only [Option.map_some, String.ofList_toList]
      simp only [fieldOf, SelectField.spec, hcall, Bool.false_eq_true, if_false, hsplit,
        text_trim_of_isWord halias, text_trim_of_isWord hfield, hq.tableOf, ← htable]
      rw [← hcall]

theorem resolve_spec {q' : Query} (hf : f.Canonical q) (hq : SameTables q q') (schema : Schema)
    (calls : Nat) :
    ∃ calls', resolve schema (calls, q') f.spec = (calls', addField q' f) := by
  have hfield := fieldOf_spec hf hq
  have hwild : f.spec.isWildcard = false := rfl
  refine ⟨if f.spec.isCall then calls + 1 else calls, ?_⟩
  simp only [resolve, hwild, Bool.false_eq_true, if_false, hfield]
  cases hcall : f.isCall with
  | true => simp
  | false =>
      rcases hf.column hcall with ⟨_, hname, _⟩
      have hnone := fulltextIndex?_of_isWord hname
      simp [registerFulltext, hnone]

/-- The entries that were written are added one after the other. -/
theorem resolve_specs (schema : Schema) {fields : List SelectField}
    (hfields : ∀ f ∈ fields, f.Canonical q) :
    ∀ (calls : Nat) (q' : Query), SameTables q q' →
      ((fields.map SelectField.spec).foldl (resolve schema) (calls, q')).2 =
        fields.foldl addField q' := by
  induction fields with
  | nil => exact fun _ _ _ => rfl
  | cons f fs ih =>
      intro calls q' hq
      -- Adding a field changes no table, so the next entry meets the same tables.
      rcases resolve_spec (hfields f (by simp)) hq schema calls with ⟨calls', hresolve⟩
      rw [List.map_cons, List.foldl_cons, List.foldl_cons, hresolve]
      exact ih (fun g hg => hfields g (by simp [hg])) calls' _
        (hq.congr (Query.withoutList_addField q' f))

/-! ## Whole lists -/

theorem solid_text (hf : f.Canonical q) : Solid f.text.toList := by
  have hsolid := (expression_of_canonical hf).solid
  rw [SelectField.toList_text]
  unfold SelectField.aliasChars
  cases hname : f.aliasName with
  | none => simpa using hsolid
  | some a =>
      have h := hsolid.append (hf.aliasName a hname).1.solid (' ' :: (Keyword.as.letters ++ [' ']))
      simpa using h

theorem solid_entries (hq : q.Canonical) :
    Solid (joined ',' (q.select.map (·.text.toList))) := by
  refine Scan.solid_joined (by simpa using hq.selected) ?_
  intro _ hpart
  rcases List.mem_map.1 hpart with ⟨f, hf, rfl⟩
  exact solid_text (hq.fields f hf)

theorem lengthAt?_zero (k : Keyword) (text : List Char) :
    k.lengthAt? text 0 = Keyword.spelling? k.letters text :=
  rfl

/-- No entry begins with DISTINCT. -/
theorem spelling?_distinct (hf : f.Canonical q) (rest : List Char) :
    Keyword.spelling? Keyword.distinct.letters (f.text.toList ++ rest) = none := by
  rw [SelectField.toList_text]
  -- A call is canonical only if it does not begin so; a column begins with the alias of its table,
  -- which is no reserved word.
  cases hcall : f.isCall with
  | true =>
      rcases hf.call hcall with ⟨_, _, hname, htext⟩
      rcases Option.isSome_iff_exists.1 hname with ⟨name, hname⟩
      have hexpression : f.expression = f.field := by simp [SelectField.expression, hcall]
      have hends : Ends [] (f.aliasChars ++ rest) := by
        simp only [SelectField.aliasChars, hname]
        exact ends_cons (by decide) _
      have hbegins := htext.begins
      rw [lengthAt?_zero] at hbegins
      rw [List.append_assoc, hexpression,
        Keyword.spelling?_append (by decide) (by decide) hends, hbegins]
  | false =>
      rcases hf.column hcall with ⟨halias, _, _⟩
      have hreserved : Keyword.distinct.letters ∈ Keyword.reserved := by decide
      rw [SelectField.toList_expression hcall, List.append_assoc, List.append_assoc,
        List.cons_append]
      refine Keyword.spelling?_name halias.1.2 (by decide) ?_ ?_
      · rintro c hc
        cases hc
        decide
      · intro h
        exact halias.2 (by rw [h]; exact hreserved)

theorem spelling?_distinct_entries (hq : q.Canonical) :
    Keyword.spelling? Keyword.distinct.letters (joined ',' (q.select.map (·.text.toList))) =
      none := by
  cases hselect : q.select with
  | nil => exact absurd hselect hq.selected
  | cons f fs =>
      rw [List.map_cons, joined]
      exact spelling?_distinct (hq.fields f (by simp [hselect])) _

/-- DISTINCT is read off the list if it was written in front. -/
theorem splitDistinct_listChars (hq : q.Canonical) :
    splitDistinct (' ' :: (q.listChars ++ [' '])) =
      (q.distinct, joined ',' (q.select.map (·.text.toList))) := by
  have hnone := spelling?_distinct_entries hq
  have hsolid := solid_entries hq
  have htrim : ∀ s, Solid s → Chars.trim (' ' :: (s ++ [' '])) = s := fun s hs =>
    (Chars.trim_space_cons _).trans ((Chars.trim_append_space s).trans hs.trim)
  unfold splitDistinct Query.listChars
  simp only [lengthAt?_zero]
  generalize joined ',' (q.select.map (·.text.toList)) = list at hnone hsolid ⊢
  cases q.distinct with
  | true =>
      have hletters : Solid Keyword.distinct.letters := by decide
      have htext : Keyword.distinct.letters ++ [' '] ++ list =
          Keyword.distinct.letters ++ ' ' :: list := by
        rw [List.append_assoc, List.singleton_append]
      have hall : Solid (Keyword.distinct.letters ++ ' ' :: list) := hletters.append hsolid [' ']
      have hself : Keyword.spelling? Keyword.distinct.letters
          (Keyword.distinct.letters ++ ' ' :: list) = some Keyword.distinct.letters.length :=
        Keyword.spelling?_self (by decide) (head_cons (by decide) list)
      have hrest : Chars.trim (' ' :: list) = list := hsolid.trim_space
      simp only [if_true, htext, htrim _ hall, hself, List.drop_left, hrest]
  | false => simp only [Bool.false_eq_true, if_false, List.nil_append, htrim _ hsolid, hnone]

/-- The list of a canonical query is read as its entries. -/
theorem parse_listChars (hq : q.Canonical) (schema : Schema) {q' : Query} (hsame : SameTables q q') :
    parse schema (' ' :: (q.listChars ++ [' '])) q' =
      (q.select.foldl addField { q' with distinct := q'.distinct || q.distinct }, .ok ()) := by
  have htables : SameTables q { q' with distinct := q'.distinct || q.distinct } :=
    ⟨hsame.mainAlias, hsame.mainTable, hsame.tableOf⟩
  have hnonempty : (joined ',' (q.select.map (·.text.toList))).isEmpty = false := by
    cases hcase : joined ',' (q.select.map (·.text.toList)) with
    | nil => exact absurd hcase (solid_entries hq).ne_nil
    | cons c cs => rfl
  rw [parse, splitDistinct_listChars hq]
  simp only [hnonempty, Bool.false_eq_true, if_false, split_joined hq.selected hq.fields,
    resolve_specs schema hq.fields 0 _ htables]

end SelectList
end ContentQuery
