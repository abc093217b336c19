import ContentQuery.Proofs.Query.Entries
import ContentQuery.Proofs.Query.OpaqueLiterals
import ContentQuery.Proofs.Query.SelectList

/-!
# Literals in a SELECT list

A SELECT list is cut at commas and AS outside literals, so what stands in a literal has no say in
how it is cut.  If the body of one literal is exchanged, the list is refused as before, or it gives
the same pieces, but for the literal in the expression or in the alias of one of them.
-/

namespace ContentQuery

open Keyword (Ends isIdentifierChar)
open Scan (Closed Fills Moved behindLiteral isQuote literal staysInside)

variable {a b w : List Char} {q : Char}

theorem Scan.ne_of_isQuote (hq : isQuote q = true) {c : Char} (hc : isQuote c = false) : q ≠ c := by
  rintro rfl
  rw [hq] at hc
  cases hc

namespace SelectList

variable {p : Piece} {s t : Scan} {skip : Nat}

/-! ## Pieces by their places -/

/-- The pieces of a text and where they end, without anything cut out of the text. -/
def piecesFrom : (skip : Nat) → Piece → Scan → List Char → List (Piece × Nat)
  | _, p, s, [] => [(p, s.position)]
  | skip + 1, p, s, c :: cs => piecesFrom skip p (s.pass c) cs
  | 0, p, s, c :: cs =>
      if c = ',' ∧ s.isTopLevel c then
        (p, s.position) :: piecesFrom 0 { start := s.position + 1 } (s.pass c) cs
      else
        match (if s.isTopLevel c then Keyword.as.length? s.last (c :: cs) else none) with
        | some (length + 1) =>
            piecesFrom length
              { p with aliasWord := some (s.position, s.position + (length + 1)) } (s.pass c) cs
        | _ => piecesFrom 0 (p.see s c) (s.step c) cs

theorem fst_specsFrom (text cs : List Char) (skip : Nat) (p : Piece) (s : Scan) :
    (specsFrom text skip p s cs).1 =
      (piecesFrom skip p s cs).map fun piece => piece.1.spec text piece.2 := by
  induction cs generalizing skip p s with
  | nil => cases skip <;> rfl
  | cons c cs ih =>
      cases skip with
      | succ skip => exact ih skip p (s.pass c)
      | zero =>
          rw [specsFrom, piecesFrom]
          split
          · rw [List.map_cons, ← ih]
          · cases (if s.isTopLevel c then Keyword.as.length? s.last (c :: cs) else none) with
            | none => exact ih _ _ _
            | some length => cases length <;> exact ih _ _ _

section Steps

variable {c : Char} {cs : List Char}

/-- A comma on the top level ends the piece, and the next one starts behind it. -/
theorem piecesFrom_comma (htop : s.isTopLevel ',' = true) :
    piecesFrom 0 p s (',' :: cs) =
      (p, s.position) :: piecesFrom 0 { start := s.position + 1 } (s.step ',') cs := by
  have hpass : s.step ',' = s.pass ',' :=
    Scan.step_of_isOrdinary (by decide) (Scan.isTopLevel_iff.1 htop).2
  rw [piecesFrom, if_pos ⟨rfl, htop⟩, hpass]

/-- A character that is no comma and begins no AS belongs to the piece. -/
theorem piecesFrom_cons (hcomma : ¬ (c = ',' ∧ s.isTopLevel c))
    (has : (if s.isTopLevel c then Keyword.as.length? s.last (c :: cs) else none) = none) :
    piecesFrom 0 p s (c :: cs) = piecesFrom 0 (p.see s c) (s.step c) cs := by
  rw [piecesFrom, if_neg hcomma, has]

/-- An AS that is found is all there, and it is passed letter by letter. -/
theorem passing_of_as {length : Nat}
    (has : (if s.isTopLevel c then Keyword.as.length? s.last (c :: cs) else none) = some length) :
    ∃ m, length = m + 1 ∧ m ≤ cs.length ∧ s.step c = s.pass c ∧ Passing m (s.step c) cs := by
  split at has
  · next htop =>
      obtain ⟨m, rfl, hle, hordinary⟩ := wellFormed_as.ordinary_of_length? has
      obtain ⟨hpass, hnext⟩ := Passing.next (Scan.isTopLevel_iff.1 htop).2 hordinary
      exact ⟨m, rfl, by simpa using hle, hpass, hnext⟩
  · cases has

/-- An AS on the top level is noted, and its other letters are skipped. -/
theorem piecesFrom_as {length : Nat} (hcomma : ¬ (c = ',' ∧ s.isTopLevel c))
    (has : (if s.isTopLevel c then Keyword.as.length? s.last (c :: cs) else none) =
      some (length + 1)) :
    piecesFrom 0 p s (c :: cs) =
      piecesFrom length { p with aliasWord := some (s.position, s.position + (length + 1)) }
        (s.step c) cs := by
  obtain ⟨_, _, _, hpass, _⟩ := passing_of_as has
  rw [piecesFrom, if_neg hcomma, has, hpass]

end Steps

/-! ## In front of a literal -/

/-- All places of a piece are within a text of `n` characters. -/
structure Piece.Within (n : Nat) (p : Piece) : Prop where
  start : p.start ≤ n
  aliasWord : ∀ word ∈ p.aliasWord, word.1 ≤ n ∧ word.2 ≤ n

theorem Piece.Within.see {n : Nat} (hp : p.Within n) (s : Scan) (c : Char) :
    (p.see s c).Within n := by
  rw [see_eq]
  exact ⟨hp.start, hp.aliasWord⟩

/-- In front of a text that continues no name, `a` is cut into pieces within `n` and one that goes
on. -/
def CutInFront (n skip : Nat) (p : Piece) (s : Scan) (a : List Char) : Prop :=
  ∃ front last, (∀ piece ∈ front, piece.1.Within n ∧ piece.2 ≤ n) ∧ last.Within n ∧
    ∀ r, Ends [] r → piecesFrom skip p s (a ++ r) = front ++ piecesFrom 0 last (s.read a) r

section Front

variable {n : Nat} {c : Char} {cs : List Char}

theorem CutInFront.cons {skip' : Nat} {p' : Piece} (h : CutInFront n skip' p' (s.step c) cs)
    (hcut : ∀ r, Ends [] r →
      piecesFrom skip p s (c :: (cs ++ r)) = piecesFrom skip' p' (s.step c) (cs ++ r)) :
    CutInFront n skip p s (c :: cs) := by
  obtain ⟨front, last, hfront, hlast, hrest⟩ := h
  exact ⟨front, last, hfront, hlast, fun r hr => (hcut r hr).trans (hrest r hr)⟩

theorem CutInFront.comma (h : CutInFront n 0 { start := s.position + 1 } (s.step ',') cs)
    (htop : s.isTopLevel ',' = true) (hp : p.Within n) (hn : s.position ≤ n) :
    CutInFront n 0 p s (',' :: cs) := by
  obtain ⟨front, last, hfront, hlast, hrest⟩ := h
  refine ⟨(p, s.position) :: front, last, ?_, hlast, fun r hr => ?_⟩
  · exact List.forall_mem_cons.2 ⟨⟨hp, hn⟩, hfront⟩
  · rw [List.cons_append, piecesFrom_comma htop, hrest r hr]
    rfl

/-- A text in front of one that continues no name is cut without regard to that. -/
theorem cutInFront (h : Passing skip s a) (hskip : skip ≤ a.length)
    (hn : s.position + a.length = n) (hp : p.Within n) : CutInFront n skip p s a := by
  -- No AS begins in front and ends behind, so at the end nothing is left to skip.
  induction a generalizing skip p s with
  | nil =>
      have hzero : skip = 0 := by simpa using hskip
      subst hzero
      exact ⟨[], p, by simp, hp, fun r _ => rfl⟩
  | cons c cs ih =>
      have hlength : s.position + (cs.length + 1) = n := by simpa using hn
      have hnext : (s.step c).position + cs.length = n := by
        rw [Scan.position_step]
        omega
      cases skip with
      | succ skip =>
          obtain ⟨hpass, htail⟩ := h.tail
          refine (ih htail (by simpa using hskip) hnext hp).cons fun r _ => ?_
          rw [piecesFrom, ← hpass]
      | zero =>
          have hzero : ∀ {p' : Piece}, p'.Within n → CutInFront n 0 p' (s.step c) cs :=
            fun hp' => ih (passing_zero _ _) (Nat.zero_le _) hnext hp'
          by_cases hcomma : c = ',' ∧ s.isTopLevel c
          · obtain ⟨rfl, htop⟩ := hcomma
            have hstart : ({ start := s.position + 1 } : Piece).Within n :=
              ⟨by show s.position + 1 ≤ n; omega, by simp⟩
            exact (hzero hstart).comma htop hp (by omega)
          · have has : ∀ r, Ends [] r →
                (if s.isTopLevel c then Keyword.as.length? s.last (c :: (cs ++ r)) else none) =
                  if s.isTopLevel c then Keyword.as.length? s.last (c :: cs) else none := by
              intro r hr
              rw [← List.cons_append, length?_as_append hr]
            cases hfound : (if s.isTopLevel c then
                Keyword.as.length? s.last (c :: cs) else none) with
            | none =>
                exact (hzero (hp.see s c)).cons fun r hr =>
                  piecesFrom_cons hcomma ((has r hr).trans hfound)
            | some length =>
                -- The whole word is in front, so its places are.
                obtain ⟨m, rfl, hle, _, htail⟩ := passing_of_as hfound
                have hword : ({ p with aliasWord := some (s.position, s.position + (m + 1)) } :
                    Piece).Within n := by
                  refine ⟨hp.start, ?_⟩
                  rintro word hword
                  cases hword
                  show s.position ≤ n ∧ s.position + (m + 1) ≤ n
                  omega
                exact (ih htail hle hnext hword).cons fun r hr =>
                  piecesFrom_as hcomma ((has r hr).trans hfound)

end Front

/-! ## Within a literal -/

theorem piecesFrom_quote (hq : isQuote q = true) (p : Piece) (s : Scan) (cs : List Char) :
    piecesFrom 0 p s (q :: cs) = piecesFrom 0 p (s.step q) cs := by
  have hnone : Keyword.as.length? s.last (q :: cs) = none := by
    refine Scan.length?_eq_none fun _ => ?_
    rcases wellFormed_as.exists_cons with ⟨letter, letters, hletters, hletter⟩
    rw [hletters]
    exact Keyword.spelling?_eq_none_of_not_isNameChar hletter
      (by simpa using Scan.isNameChar_of_isQuote hq)
  have hsee : p.see s q = p := by
    rw [see_eq, isOpening, isStar, beq_false_of_ne (Scan.ne_of_isQuote hq (c := '(') (by decide)),
      beq_false_of_ne (Scan.ne_of_isQuote hq (c := '*') (by decide))]
    simp
  rw [piecesFrom_cons (fun h => Scan.ne_of_isQuote hq (by decide) h.1) (by rw [hnone, ite_self]),
    hsee]

theorem piecesFrom_inside (h : staysInside s w = true) (p : Piece) (cs : List Char) :
    piecesFrom 0 p s (w ++ cs) = piecesFrom 0 p (s.read w) cs := by
  induction w generalizing s with
  | nil => rfl
  | cons c w ih =>
      rw [Scan.staysInside_cons] at h
      have htop : s.isTopLevel c = false := by simp [Scan.isTopLevel, h.1]
      have hsee : p.see s c = p := by simp [see_eq, isOpening, isStar, htop, h.1]
      rw [List.cons_append, piecesFrom_cons (by simp [htop]) (by simp [htop]), hsee]
      exact ih h.2

/-- A literal leaves a piece as it is. -/
theorem piecesFrom_literal (hs : s.openQuote? = none) (hq : isQuote q = true) (hw : Fills q w)
    (p : Piece) (b : List Char) :
    piecesFrom 0 p s (literal q w ++ b) = piecesFrom 0 p (s.read (literal q w)) b := by
  have hinside : staysInside (s.step q) w = true :=
    (Scan.staysInside_congr (Scan.step_quote hs hq).1 w).trans hw.1
  rw [literal, List.cons_append, piecesFrom_quote hq, List.append_assoc,
    piecesFrom_inside hinside, List.singleton_append, piecesFrom_quote hq, Scan.read_cons,
    Scan.read_append, Scan.read_cons, Scan.read_nil]

/-! ## Behind a literal -/

/-- A piece `n` positions further on. -/
def Piece.shift (n : Nat) (p : Piece) : Piece :=
  { p with start := p.start + n, aliasWord := p.aliasWord.map fun word => (word.1 + n, word.2 + n) }

/-- A piece together with what is seen of it from `n` positions further on. -/
def Piece.extend (p : Piece) (n : Nat) (more : Piece) : Piece :=
  { start := p.start
    aliasWord := (more.shift n).aliasWord.or p.aliasWord
    hasCall := p.hasCall || more.hasCall
    hasStar := p.hasStar || more.hasStar }

@[simp] theorem Piece.start_extend (p more : Piece) (n : Nat) :
    (p.extend n more).start = p.start :=
  rfl

@[simp] theorem Piece.hasCall_extend (p more : Piece) (n : Nat) :
    (p.extend n more).hasCall = (p.hasCall || more.hasCall) :=
  rfl

@[simp] theorem Piece.hasStar_extend (p more : Piece) (n : Nat) :
    (p.extend n more).hasStar = (p.hasStar || more.hasStar) :=
  rfl

/-- A piece that begins where `more` does has all of it. -/
theorem Piece.extend_fresh {n : Nat} (more : Piece) :
    ({ start := more.start + n } : Piece).extend n more = more.shift n := by
  simp [Piece.extend, Piece.shift]

theorem Piece.extend_see {n : Nat} (h : Moved n s t) (more : Piece) (c : Char) :
    (p.extend n more).see t c = p.extend n (more.see s c) := by
  simp only [see_eq, Piece.extend, Piece.shift, isOpening, isStar, Scan.isTopLevel, h.depth,
    Scan.isOutside_congr h.mode, Bool.or_assoc]

/-- From a scan further on the same pieces are found further on, and the first of them continues the
one before it. -/
theorem exists_piecesFrom_moved (b : List Char) (skip : Nat) (more : Piece) (s : Scan) :
    ∃ (last : Piece) (stop : Nat) (rest : List (Piece × Nat)), last.start = more.start ∧
      ∀ (n : Nat) (t : Scan) (p : Piece), Moved n s t →
        piecesFrom skip (p.extend n more) t b =
          (p.extend n last, stop + n) :: rest.map fun piece => (piece.1.shift n, piece.2 + n) := by
  -- `more` is what is seen of the piece on this side; the rest does not depend on `p`.
  induction b generalizing skip more s with
  | nil =>
      refine ⟨more, s.position, [], rfl, fun n t p h => ?_⟩
      have hend : piecesFrom skip (p.extend n more) t [] = [(p.extend n more, t.position)] := by
        cases skip <;> rfl
      rw [hend, h.position, List.map_nil]
  | cons c cs ih =>
      cases skip with
      | succ skip =>
          obtain ⟨last, stop, rest, hstart, hpieces⟩ := ih skip more (s.pass c)
          exact ⟨last, stop, rest, hstart, fun n t p h => hpieces n _ p (h.pass c)⟩
      | zero =>
          have htop : ∀ {n t}, Moved n s t → t.isTopLevel c = s.isTopLevel c :=
            fun h => h.isTopLevel c
          by_cases hcomma : c = ',' ∧ s.isTopLevel c
          · obtain ⟨last, stop, rest, hstart, hpieces⟩ :=
              ih 0 { start := s.position + 1 } (s.pass c)
            refine ⟨more, s.position, (last, stop) :: rest, rfl, fun n t p h => ?_⟩
            -- The piece behind the comma continues nothing.
            have hnew : ({ start := t.position + 1 } : Piece) =
                ({ start := last.start + n } : Piece).extend n { start := s.position + 1 } := by
              have hposition : t.position + 1 = s.position + 1 + n := by
                rw [h.position]
                omega
              rw [hstart, hposition]
              rfl
            rw [piecesFrom, htop h, if_pos hcomma, h.position, List.map_cons,
              ← h.position, hnew, hpieces n _ _ (h.pass c), Piece.extend_fresh]
          · have has : ∀ {n t}, Moved n s t →
                (if t.isTopLevel c then Keyword.as.length? t.last (c :: cs) else none) =
                  if s.isTopLevel c then Keyword.as.length? s.last (c :: cs) else none := by
              intro n t h
              rw [htop h, h.length?]
            by_cases hfound : ∃ length, (if s.isTopLevel c then
                Keyword.as.length? s.last (c :: cs) else none) = some (length + 1)
            · obtain ⟨length, hfound⟩ := hfound
              obtain ⟨last, stop, rest, hstart, hpieces⟩ :=
                ih length { more with aliasWord := some (s.position, s.position + (length + 1)) }
                  (s.pass c)
              refine ⟨last, stop, rest, hstart, fun n t p h => ?_⟩
              rw [← hpieces n _ p (h.pass c), piecesFrom, htop h, if_neg hcomma, ← htop h, has h,
                hfound]
              simp only [Piece.extend, Piece.shift, Option.map_some, Option.some_or, h.position,
                Nat.add_right_comm _ n]
            · obtain ⟨last, stop, rest, hstart, hpieces⟩ := ih 0 (more.see s c) (s.step c)
              refine ⟨last, stop, rest, hstart.trans (by rw [see_eq]), fun n t p h => ?_⟩
              rw [← hpieces n _ p (h.step c), piecesFrom, htop h, if_neg hcomma, ← htop h, has h,
                ← Piece.extend_see h]
              split
              · next length hlength => exact absurd ⟨length, hlength⟩ hfound
              · rfl

end SelectList

/-! ## What a text with a literal ends with -/

theorem Chars.stripLeading?_append_of_not_mem {mark : List Char} {c : Char} (hc : c ∉ mark)
    (s r : List Char) :
    stripLeading? mark (s ++ c :: r) = (stripLeading? mark s).map (· ++ c :: r) := by
  induction mark generalizing s with
  | nil => rfl
  | cons m mark ih =>
      rw [List.mem_cons, not_or] at hc
      cases s with
      | nil => simp [stripLeading?, Ne.symm hc.1]
      | cons d ds =>
          rw [List.cons_append, stripLeading?, stripLeading?, ih hc.2]
          split <;> rfl

theorem Scan.isEmpty_around_literal (left w right : List Char) :
    (left ++ (literal q w ++ right)).isEmpty = false := by
  cases left <;> rfl

theorem Scan.isSome_stripTrailing?_literal {tail : List Char} (hq : q ∉ tail)
    (left w right : List Char) :
    (Chars.stripTrailing? tail (left ++ (literal q w ++ right))).isSome =
      (Chars.stripTrailing? tail right).isSome := by
  have hreverse : (left ++ (literal q w ++ right)).reverse =
      right.reverse ++ q :: (w.reverse ++ q :: left.reverse) := by
    simp [literal]
  rw [Chars.stripTrailing?, hreverse,
    Chars.stripLeading?_append_of_not_mem (by simpa using hq), Chars.stripTrailing?]
  simp only [Option.isSome_map]

/-! ## The pieces around a literal -/

namespace FieldSpec

/-- A piece from its texts and from what was seen of it. -/
def ofTexts (hasCall hasStar : Bool) (expression aliasName : List Char) : FieldSpec where
  expression := String.ofList expression
  aliasName := if aliasName.isEmpty then none else some (String.ofList aliasName)
  isCall := hasCall
  isWildcard := hasStar && !hasCall &&
    (expression == ['*'] || (Chars.stripTrailing? ['.', '*'] expression).isSome)

def withExpression (spec : FieldSpec) (text : List Char) : FieldSpec :=
  { spec with expression := String.ofList text }

def withAlias (spec : FieldSpec) (text : List Char) : FieldSpec :=
  { spec with aliasName := some (String.ofList text) }

/-- A piece with a literal in its expression or in its alias, as what stands in the literal varies:
nothing else of the piece does. -/
inductive Around (q : Char) : (List Char → FieldSpec) → Prop
  | expression (spec : FieldSpec) (left right : List Char) :
      Around q fun w => spec.withExpression (left ++ (literal q w ++ right))
  | aliasName (spec : FieldSpec) (left right : List Char) :
      Around q fun w => spec.withAlias (left ++ (literal q w ++ right))

/-- Whether a piece is a wildcard does not depend on what stands in a literal of its expression. -/
theorem around_expression (hq : isQuote q = true) (hasCall hasStar : Bool)
    (left right aliasName : List Char) :
    Around q fun w => ofTexts hasCall hasStar (left ++ (literal q w ++ right)) aliasName := by
  have hquote : q ∉ ['.', '*'] := by
    simp [Scan.ne_of_isQuote hq (c := '.') (by decide),
      Scan.ne_of_isQuote hq (c := '*') (by decide)]
  have hspec : (fun w => ofTexts hasCall hasStar (left ++ (literal q w ++ right)) aliasName) =
      fun w => ({ ofTexts hasCall hasStar right aliasName with
          isWildcard := hasStar && !hasCall && (Chars.stripTrailing? ['.', '*'] right).isSome } :
        FieldSpec).withExpression (left ++ (literal q w ++ right)) := by
    funext w
    have hstar : (left ++ (literal q w ++ right) == ['*']) = false := by
      refine beq_false_of_ne fun h => ?_
      have hlength := congrArg List.length h
      simp only [List.length_append, Scan.length_literal, List.length_cons, List.length_nil]
        at hlength
      omega
    rw [ofTexts, hstar, Bool.false_or, Scan.isSome_stripTrailing?_literal hquote]
    rfl
  rw [hspec]
  exact .expression _ left right

theorem around_alias (hasCall hasStar : Bool) (expression left right : List Char) :
    Around q fun w => ofTexts hasCall hasStar expression (left ++ (literal q w ++ right)) := by
  have hspec : (fun w => ofTexts hasCall hasStar expression (left ++ (literal q w ++ right))) =
      fun w => (ofTexts hasCall hasStar expression []).withAlias
        (left ++ (literal q w ++ right)) := by
    funext w
    rw [ofTexts, Scan.isEmpty_around_literal]
    rfl
  rw [hspec]
  exact .aliasName _ left right

end FieldSpec

namespace SelectList

/-- Where the expression of a piece ends if the piece ends at `stop`. -/
def Piece.pivot (p : Piece) (stop : Nat) : Nat :=
  (p.aliasWord.map Prod.fst).getD stop

/-- The text behind the AS of a piece. -/
def Piece.aliasText (p : Piece) (text : List Char) (stop : Nat) : List Char :=
  match p.aliasWord with
  | some (_, after) => Chars.trim (Chars.slice text after stop)
  | none => []

theorem Piece.spec_eq (p : Piece) (text : List Char) (stop : Nat) :
    p.spec text stop = .ofTexts p.hasCall p.hasStar
      (Chars.trim (Chars.slice text p.start (p.pivot stop))) (p.aliasText text stop) :=
  rfl

/-- What stands behind a piece is none of it. -/
theorem Piece.spec_append {p : Piece} {n : Nat} (hp : p.Within a.length) (hn : n ≤ a.length)
    (r : List Char) : p.spec (a ++ r) n = p.spec a n := by
  have hpivot : p.pivot n ≤ a.length := by
    unfold Piece.pivot
    cases hword : p.aliasWord with
    | none => exact hn
    | some word => exact (hp.aliasWord word hword).1
  have halias : p.aliasText (a ++ r) n = p.aliasText a n := by
    unfold Piece.aliasText
    cases p.aliasWord with
    | none => rfl
    | some word => simp only [Chars.slice_append_of_le hn]
  rw [Piece.spec_eq, Piece.spec_eq, halias, Chars.slice_append_of_le hpivot]

/-- A piece has the same texts further on. -/
theorem Piece.spec_shift (a b : List Char) (p : Piece) (stop : Nat) :
    (p.shift a.length).spec (a ++ b) (stop + a.length) = p.spec b stop := by
  have hpivot : (p.shift a.length).pivot (stop + a.length) = p.pivot stop + a.length := by
    unfold Piece.pivot Piece.shift
    cases p.aliasWord <;> rfl
  have halias : (p.shift a.length).aliasText (a ++ b) (stop + a.length) = p.aliasText b stop := by
    unfold Piece.aliasText Piece.shift
    cases p.aliasWord with
    | none => rfl
    | some word => simp only [Option.map_some, Chars.slice_append_behind]
  rw [Piece.spec_eq, Piece.spec_eq, halias, hpivot]
  show FieldSpec.ofTexts _ _ (Chars.trim (Chars.slice _ (p.start + _) _)) _ = _
  rw [Chars.slice_append_behind]
  rfl

/-- From a place in front of a literal to one behind it. -/
theorem trim_slice_literal (hq : isQuote q = true) {start : Nat} (h : start ≤ a.length)
    (b w : List Char) (stop : Nat) :
    Chars.trim (Chars.slice (a ++ (literal q w ++ b)) start (stop + (a ++ literal q w).length)) =
      Chars.trimStart (a.drop start) ++ (literal q w ++ Chars.trimEnd (b.take stop)) := by
  have hlength : start ≤ (a ++ literal q w).length := by
    rw [List.length_append]
    omega
  rw [← List.append_assoc, Chars.slice_append_across hlength, List.drop_append_of_le_length h,
    List.append_assoc, (Scan.solid_literal hq w).trim_around]

/-- A piece that begins in front of a literal and ends behind it has the literal in its expression
or in its alias. -/
theorem around_spec {first : Piece} (hfirst : first.Within a.length) (hq : isQuote q = true)
    (last : Piece) (b : List Char) (stop : Nat) :
    FieldSpec.Around q fun w =>
      (first.extend (a ++ literal q w).length last).spec (a ++ (literal q w ++ b))
        (stop + (a ++ literal q w).length) := by
  have hstart := hfirst.start
  simp only [Piece.spec_eq]
  cases hlast : last.aliasWord with
  | some word =>
      -- AS stands behind the literal.
      have hpivot : ∀ w, (first.extend (a ++ literal q w).length last).pivot
          (stop + (a ++ literal q w).length) = word.1 + (a ++ literal q w).length := by
        simp [Piece.pivot, Piece.extend, Piece.shift, hlast]
      have halias : ∀ w, (first.extend (a ++ literal q w).length last).aliasText
          (a ++ (literal q w ++ b)) (stop + (a ++ literal q w).length) =
            Chars.trim (Chars.slice b word.2 stop) := by
        intro w
        rw [← Chars.slice_append_behind (a ++ literal q w), List.append_assoc]
        simp [Piece.aliasText, Piece.extend, Piece.shift, hlast]
      simp only [hpivot, halias, Piece.start_extend, Piece.hasCall_extend, Piece.hasStar_extend,
        trim_slice_literal hq hstart]
      exact FieldSpec.around_expression hq _ _ _ _ _
  | none =>
      cases hword : first.aliasWord with
      | some word =>
          -- AS stands in front of it.
          obtain ⟨hbefore, hafter⟩ := hfirst.aliasWord word hword
          have hpivot : ∀ w, (first.extend (a ++ literal q w).length last).pivot
              (stop + (a ++ literal q w).length) = word.1 := by
            simp [Piece.pivot, Piece.extend, Piece.shift, hlast, hword]
          have halias : ∀ w, (first.extend (a ++ literal q w).length last).aliasText
              (a ++ (literal q w ++ b)) (stop + (a ++ literal q w).length) =
                Chars.trimStart (a.drop word.2) ++
                  (literal q w ++ Chars.trimEnd (b.take stop)) := by
            intro w
            rw [← trim_slice_literal hq hafter]
            simp [Piece.aliasText, Piece.extend, Piece.shift, hlast, hword]
          simp only [hpivot, halias, Piece.start_extend, Piece.hasCall_extend, Piece.hasStar_extend,
            Chars.slice_append_of_le hbefore]
          exact FieldSpec.around_alias _ _ _ _ _
      | none =>
          have hpivot : ∀ w, (first.extend (a ++ literal q w).length last).pivot
              (stop + (a ++ literal q w).length) = stop + (a ++ literal q w).length := by
            simp [Piece.pivot, Piece.extend, Piece.shift, hlast, hword]
          have halias : ∀ w, (first.extend (a ++ literal q w).length last).aliasText
              (a ++ (literal q w ++ b)) (stop + (a ++ literal q w).length) = [] := by
            simp [Piece.aliasText, Piece.extend, Piece.shift, hlast, hword]
          simp only [hpivot, halias, Piece.start_extend, Piece.hasCall_extend, Piece.hasStar_extend,
            trim_slice_literal hq hstart]
          exact FieldSpec.around_expression hq _ _ _ _ _

/-- Cutting a text with a literal gives the same pieces whatever stands in the literal, but for the
one around the literal. -/
theorem exists_specs_around (ha : (({} : Scan).read a).openQuote? = none) (hq : isQuote q = true)
    (b : List Char) :
    ∃ (before : List FieldSpec) (spec : List Char → FieldSpec) (after : List FieldSpec),
      FieldSpec.Around q spec ∧ ∀ w, Fills q w →
        (specsFrom (a ++ (literal q w ++ b)) 0 { start := 0 } {} (a ++ (literal q w ++ b))).1 =
          before ++ spec w :: after := by
  obtain ⟨front, first, hfront, hfirst, hpieces⟩ :=
    cutInFront (p := { start := 0 }) (passing_zero {} a) (Nat.zero_le _)
      (Nat.zero_add _) ⟨Nat.zero_le _, by simp⟩
  -- The piece that is open at the literal goes on behind it.
  obtain ⟨last, stop, rest, -, hrest⟩ :=
    exists_piecesFrom_moved b 0 { start := 0 } (behindLiteral q (({} : Scan).read a))
  refine ⟨front.map fun piece => piece.1.spec a piece.2, _,
    rest.map fun piece => piece.1.spec b piece.2, around_spec hfirst hq last b stop,
    fun w hw => ?_⟩
  have hposition : (({} : Scan).read a).position = a.length := position_read_start a
  have hshifted := Scan.shifted_behindLiteral ha hq hw
  rw [hposition, ← List.length_append] at hshifted
  have hself : first = first.extend (a ++ literal q w).length { start := 0 } := by
    simp [Piece.extend, Piece.shift]
  have hbehind := hrest _ _ first hshifted.moved
  rw [← hself] at hbehind
  rw [fst_specsFrom, hpieces _ (Scan.ends_literal (by simp) hq w b), piecesFrom_literal ha hq hw,
    hbehind, List.map_append, List.map_cons, List.map_map]
  congr 1
  · refine List.map_congr_left fun piece hpiece => ?_
    obtain ⟨hwithin, hle⟩ := hfront piece hpiece
    exact Piece.spec_append hwithin hle _
  · congr 1
    refine List.map_congr_left fun piece _ => ?_
    rw [Function.comp_apply, ← List.append_assoc]
    exact Piece.spec_shift _ b piece.1 piece.2

/-! ## Lists with a literal -/

/-- The pieces of a list with a literal, as what stands in the literal varies: none is left of the
one around the literal if that has no expression. -/
inductive PiecesAround (q : Char) : (List Char → List FieldSpec) → Prop
  | nowhere (specs : List FieldSpec) : PiecesAround q fun _ => specs
  | within (before : List FieldSpec) {spec : List Char → FieldSpec} (after : List FieldSpec) :
      FieldSpec.Around q spec → PiecesAround q fun w => before ++ spec w :: after

/-- The piece around a literal is kept or dropped whatever stands in the literal. -/
theorem piecesAround_filter {spec : List Char → FieldSpec} (h : FieldSpec.Around q spec)
    (before after : List FieldSpec) :
    PiecesAround q fun w => (before ++ spec w :: after).filter fun spec =>
      !spec.expression.isEmpty := by
  have hkept : (∀ w, (spec w).expression.isEmpty = false) ∨
      ∀ w, (spec w).expression.isEmpty = true := by
    cases h with
    | expression spec left right =>
        refine .inl fun w => ?_
        have hchars := Scan.isEmpty_around_literal (q := q) left w right
        simpa [FieldSpec.withExpression] using hchars
    | aliasName spec left right =>
        cases hempty : spec.expression.isEmpty with
        | false => exact .inl fun _ => hempty
        | true => exact .inr fun _ => hempty
  rcases hkept with hkept | hkept
  · simp only [List.filter_append, List.filter_cons, hkept, Bool.not_false, if_true]
    exact .within _ _ h
  · simp only [List.filter_append, List.filter_cons, hkept, Bool.not_true, Bool.false_eq_true,
      if_false]
    exact .nowhere _

theorem exists_split_around (ha : (({} : Scan).read a).openQuote? = none) (hq : isQuote q = true)
    (b : List Char) :
    ∃ specs, PiecesAround q specs ∧ ∀ w, Fills q w → Closed (a ++ (literal q w ++ b)) →
      split (a ++ (literal q w ++ b)) = .ok (specs w) := by
  obtain ⟨before, spec, after, hspec, hspecs⟩ := exists_specs_around ha hq b
  refine ⟨_, piecesAround_filter hspec before after, fun w hw hclosed => ?_⟩
  rw [split_eq_of_closed hclosed, hspecs w hw]

/-- DISTINCT stands in front of the literal, or it does not stand there. -/
theorem exists_splitDistinct_around (ha : (({} : Scan).read a).openQuote? = none)
    (hq : isQuote q = true) (b : List Char) :
    ∃ distinct a' b', (({} : Scan).read a').openQuote? = none ∧
      ∀ w, splitDistinct (a ++ (literal q w ++ b)) = (distinct, a' ++ (literal q w ++ b')) := by
  have hformed : Keyword.distinct.WellFormed := by decide
  have hfront : (({} : Scan).read (Chars.trimStart a)).openQuote? = none :=
    (Scan.openQuote?_trimStart a).trans ha
  have htrim : ∀ w, Chars.trim (a ++ (literal q w ++ b)) =
      Chars.trimStart a ++ (literal q w ++ Chars.trimEnd b) := fun w =>
    (Scan.solid_literal hq w).trim_around a b
  have hword : ∀ w, Keyword.distinct.lengthAt?
      (Chars.trimStart a ++ (literal q w ++ Chars.trimEnd b)) 0 =
        Keyword.distinct.length? none (Chars.trimStart a) := by
    intro w
    rw [Keyword.lengthAt?, List.drop_zero]
    have hends : Keyword.Ends [] (literal q w ++ Chars.trimEnd b) :=
      Scan.ends_literal (fun _ _ => List.not_mem_nil) hq w _
    exact Keyword.spelling?_append hformed.spelled (by decide) hends _
  simp only [splitDistinct, htrim, hword]
  cases hfound : Keyword.distinct.length? none (Chars.trimStart a) with
  | none => exact ⟨false, _, _, hfront, fun _ => rfl⟩
  | some length =>
      have hrest : length ≤ (Chars.trimStart a).length ∧
          Scan.Ordinary ((Chars.trimStart a).take length) := by
        cases htext : Chars.trimStart a with
        | nil =>
            rw [htext] at hfound
            cases hfound
        | cons c cs =>
            rw [htext] at hfound
            rcases hformed.ordinary_of_length? hfound with ⟨_, _, hle, hordinary⟩
            exact ⟨hle, hordinary⟩
      -- Behind DISTINCT the list is trimmed again.
      refine ⟨true, Chars.trimStart ((Chars.trimStart a).drop length),
        Chars.trimEnd (Chars.trimEnd b), ?_, fun w => ?_⟩
      · rw [Scan.openQuote?_trimStart, ← Scan.openQuote?_ordinary_append hrest.2,
          List.take_append_drop, hfront]
      · simp only [List.drop_append_of_le_length hrest.1, (Scan.solid_literal hq w).trim_around]

end SelectList
end ContentQuery
