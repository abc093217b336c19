import ContentQuery.Proofs.Scan.Quiet

/-!
# Lists of texts with separators

Closed texts without a separator of their own, written behind each other with a separator and a
blank between them, come back when the whole is split.
-/

namespace ContentQuery
namespace Scan

open Keyword (Ends)

variable {s t : Scan} {separator : Char}

/-! ## Pieces -/

theorem lacksSeparator_beside (ht : Beside {} t) (text : List Char) :
    everywhere (fun s c _ => !(c == separator && s.isTopLevel c)) t text =
      lacksSeparator separator text := by
  refine everywhere_beside ?_ ht text
  intro s t c cs h
  simp only [h.isTopLevel]

/-- Puts a text in front of the first piece. -/
def prepend (text : List Char) : List (List Char) → List (List Char)
  | [] => [text]
  | piece :: rest => (text ++ piece) :: rest

theorem consHead_prepend (c : Char) (text : List Char) (ps : List (List Char)) :
    consHead c (prepend text ps) = prepend (c :: text) ps := by
  cases ps <;> rfl

theorem pieces_ne_nil (separator : Char) (s : Scan) (text : List Char) :
    pieces separator s text ≠ [] := by
  induction text generalizing s with
  | nil => simp [pieces]
  | cons c cs ih =>
      rw [pieces]
      split
      · simp
      · cases hcs : pieces separator (s.step c) cs <;> simp [consHead]

/-- A text without the separator belongs to one piece. -/
theorem pieces_append {a : List Char} (b : List Char)
    (ha : everywhere (fun s c _ => !(c == separator && s.isTopLevel c)) s a = true) :
    pieces separator s (a ++ b) = prepend a (pieces separator (s.read a) b) := by
  induction a generalizing s with
  | nil =>
      rw [List.nil_append, read_nil]
      cases hb : pieces separator s b with
      | nil => exact absurd hb (pieces_ne_nil separator s b)
      | cons piece rest => rfl
  | cons c cs ih =>
      rw [everywhere, Bool.and_eq_true] at ha
      have hc : ¬ (c = separator ∧ s.isTopLevel c = true) := by
        rintro ⟨rfl, htop⟩
        simp [htop] at ha
      rw [List.cons_append, pieces, if_neg hc, ih ha.2, consHead_prepend, read_cons]

/-- The pieces with the separator between them are the text. -/
theorem intercalate_pieces (separator : Char) (s : Scan) (text : List Char) :
    [separator].intercalate (pieces separator s text) = text := by
  induction text generalizing s with
  | nil => rfl
  | cons c cs ih =>
      rw [pieces]
      split
      · next h =>
          obtain ⟨first, rest, hrest⟩ :=
            List.exists_cons_of_ne_nil (pieces_ne_nil separator (s.pass c) cs)
          have htail := ih (s.pass c)
          rw [hrest] at htail ⊢
          rw [List.intercalate_cons_cons, htail, h.1]
          rfl
      · obtain ⟨first, rest, hrest⟩ :=
          List.exists_cons_of_ne_nil (pieces_ne_nil separator (s.step c) cs)
        have htail := ih (s.step c)
        rw [hrest] at htail ⊢
        rw [← htail]
        cases rest <;> rfl

/-- Where nothing is quoted or in parentheses, every separator cuts. -/
theorem pieces_of_isOrdinary (hs : OnTop s) {text : List Char}
    (htext : ∀ c ∈ text, isOrdinary c = true) : pieces separator s text = text.splitOn separator := by
  induction text generalizing s with
  | nil => rfl
  | cons c cs ih =>
      have hc := htext c (by simp)
      have houtside := hs.right.isOutside hs.outside (isQuote_of_isOrdinary hc)
      -- An ordinary character leaves the scan on top, where every separator counts.
      have htop : s.isTopLevel c = true := by
        simp [isTopLevel, hs.depth, houtside]
      have hcs := ih (hs.step hc).1 fun d hd => htext d (by simp [hd])
      rw [pieces, List.splitOn_cons_eq_if_modifyHead, ← step_of_isOrdinary hc houtside, hcs]
      by_cases hsep : c = separator
      · rw [if_pos ⟨hsep, htop⟩, if_pos (by simpa using hsep)]
      · rw [if_neg (mt And.left hsep), if_neg (by simpa using hsep)]
        obtain ⟨first, rest, hrest⟩ :=
          List.exists_cons_of_ne_nil (List.splitOn_ne_nil separator cs)
        rw [hrest]
        rfl

/-- What went astray before a text has no part in how it is cut. -/
theorem pieces_beside (h : Beside s t) (text : List Char) :
    pieces separator t text = pieces separator s text := by
  induction text generalizing s t with
  | nil => rfl
  | cons c cs ih => rw [pieces, pieces, h.isTopLevel, ih (h.pass c), ih (h.step c)]

theorem pieces_of_lacks {e : List Char} (he : lacksSeparator separator e = true) :
    pieces separator {} e = [e] := by
  have h := pieces_append (s := {}) [] he
  rw [List.append_nil] at h
  rw [h, pieces, prepend, List.append_nil]

/-- Behind a separator a text is cut as one of its own. -/
theorem pieces_append_cons (hseparator : Keyword.isIdentifierChar separator = false) {e : List Char}
    (he : lacksSeparator separator e = true)
    (htop : (({} : Scan).read e).isTopLevel separator = true) (rest : List Char) :
    pieces separator {} (e ++ separator :: rest) = e :: pieces separator {} rest := by
  have hbeside : Beside {} ((({} : Scan).read e).pass separator) :=
    ⟨rfl, (isTopLevel_iff.1 htop).1, by simpa [pass] using hseparator⟩
  rw [pieces_append _ he, pieces, if_pos ⟨rfl, htop⟩, pieces_beside hbeside, prepend,
    List.append_nil]

/-- From any scan, a text is one piece, or a piece with a separator and another text behind it. -/
theorem everywhere_or_exists_piece (separator : Char) (text : List Char) (s : Scan) :
    everywhere (fun s c _ => !(c == separator && s.isTopLevel c)) s text = true ∨
      ∃ e rest, text = e ++ separator :: rest ∧
        everywhere (fun s c _ => !(c == separator && s.isTopLevel c)) s e = true ∧
        (s.read e).isTopLevel separator = true := by
  induction text generalizing s with
  | nil => exact .inl rfl
  | cons c cs ih =>
      by_cases hc : c = separator ∧ s.isTopLevel c = true
      · -- The first separator on top ends the piece, here an empty one.
        obtain ⟨rfl, htop⟩ := hc
        exact .inr ⟨[], cs, rfl, rfl, htop⟩
      · have hhead : (!(c == separator && s.isTopLevel c)) = true := by
          rw [Bool.not_eq_true', ← Bool.not_eq_true, Bool.and_eq_true, beq_iff_eq]
          exact hc
        rcases ih (s.step c) with h | ⟨e, rest, rfl, he, htop⟩
        · exact .inl (by rw [everywhere, hhead, h]; rfl)
        · exact .inr ⟨c :: e, rest, rfl, by rw [everywhere, hhead, he]; rfl, htop⟩

/-- What holds of single pieces, and of a piece in front of a text of which it holds, holds of every
text. -/
theorem pieces_induction {P : List Char → Prop} (separator : Char)
    (single : ∀ e, lacksSeparator separator e = true → P e)
    (cons : ∀ e rest, lacksSeparator separator e = true →
      (({} : Scan).read e).isTopLevel separator = true → P rest → P (e ++ separator :: rest))
    (text : List Char) : P text := by
  induction h : text.length using Nat.strongRecOn generalizing text with
  | _ n ih =>
      rcases everywhere_or_exists_piece separator text {} with hsingle | ⟨e, rest, rfl, he, htop⟩
      · exact single text hsingle
      · refine cons e rest he htop (ih rest.length ?_ rest rfl)
        rw [← h, List.length_append, List.length_cons]
        omega

/-- Texts with a separator and a blank between them. -/
def joined (separator : Char) : List (List Char) → List Char
  | [] => []
  | part :: parts => part ++ parts.flatMap fun q => separator :: ' ' :: q

/-- What is kept where a separator and a blank are put between two texts holds of joined texts. -/
theorem joined_of {P : List Char → Prop} {parts : List (List Char)} (hne : parts ≠ [])
    (happend : ∀ a b, P a → P b → P (a ++ separator :: ' ' :: b)) (hparts : ∀ part ∈ parts, P part) :
    P (joined separator parts) := by
  cases parts with
  | nil => exact absurd rfl hne
  | cons part parts =>
      clear hne
      rw [joined]
      induction parts generalizing part with
      | nil => simpa using hparts part (by simp)
      | cons q qs ih =>
          have hrest := ih q fun p hp => hparts p (List.mem_cons_of_mem _ hp)
          exact happend part _ (hparts part (by simp)) hrest

theorem solid_joined {parts : List (List Char)} (hne : parts ≠ [])
    (hparts : ∀ part ∈ parts, Chars.Solid part) : Chars.Solid (joined separator parts) := by
  refine joined_of hne (fun a b ha hb => ?_) hparts
  simpa using ha.append hb [separator, ' ']

/-- A part of a separated list: closed, without a separator of its own, neither blank nor with
blanks around it. -/
structure Part (separator : Char) (text : List Char) : Prop where
  closed : Closed text
  solid : Chars.Solid text
  lacks : lacksSeparator separator text = true

/-- A character that can separate: it is read as plain text, and is in no name. -/
def Separates (c : Char) : Prop :=
  isOrdinary c = true ∧ Chars.isNameChar c = false ∧ c ≠ ' '

theorem separates_comma : Separates ',' :=
  ⟨by decide, by decide, by decide⟩

/-! ## Keywords in lists -/

variable {words : List Keyword} {pick : Nat → Bool} {later : List Char}

/-- A list of quiet texts is quiet. -/
theorem quiet_joined (hwords : ∀ k ∈ words, k.WellFormed) (hseparator : Separates separator)
    (hends : ∀ text, Ends later (separator :: text)) {parts : List (List Char)}
    (hne : parts ≠ []) (hparts : ∀ part ∈ parts, Quiet words pick later (' ' :: part)) :
    Quiet words pick later (' ' :: joined separator parts) := by
  refine joined_of (P := fun text => Quiet words pick later (' ' :: text)) hne ?_ hparts
  intro a b ha hb
  exact ha.append (hb.cons hwords hseparator.2.1 hseparator.1) (hends _) fun _ h => h

end Scan
end ContentQuery
