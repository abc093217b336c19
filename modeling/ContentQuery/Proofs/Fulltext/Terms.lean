import ContentQuery.Proofs.Fulltext.Groups

/-!
# Tokens and terms

A token of a search string is a run of pieces between spaces.  The terms of a boolean search are the
usable tokens, in their order: those with a group in them, and the words that the index can find.

That this is what the marked text is processed to is shown token by token.
-/

namespace ContentQuery
namespace SearchTerms

open Literal (slashChar)

/-! ## Words -/

/-- The operator in front of a text, if there is one. -/
def operatorOf (text : List Char) : List Char :=
  (text.take 1).filter (· ∈ operators)

/-- A token of plain characters. -/
structure Word where
  operator : List Char
  word : List Char
  wildcard : List Char
deriving DecidableEq, Repr

namespace Word

/-- One operator in front and one wildcard behind are not part of the word. -/
def ofText (text : List Char) : Word :=
  let behind := text.drop (operatorOf text).length
  if behind.getLast? = some '*' then ⟨operatorOf text, behind.dropLast, ['*']⟩
  else ⟨operatorOf text, behind, []⟩

/-- A word that the index can find: one of sufficient length, or with a wildcard. -/
def Findable (minLength : Nat) (w : Word) : Prop :=
  w.word ≠ [] ∧ (w.wildcard ≠ [] ∨ minLength ≤ w.word.length)

instance (minLength : Nat) (w : Word) : Decidable (w.Findable minLength) :=
  inferInstanceAs (Decidable (_ ∧ _))

/-- The term for a word. -/
def term (w : Word) : List Char :=
  w.operator ++ w.word.flatMap slashChar ++ w.wildcard

end Word

/-! ## Tokens -/

/-- The runs of pieces between spaces. -/
def tokens (ps : List Piece) : List (List Piece) :=
  (ps.splitOn (.char ' ')).filter (!·.isEmpty)

/-- A token with a group, or a word that the index can find. -/
def Usable (minLength : Nat) (token : List Piece) : Prop :=
  groupsOf token ≠ [] ∨ (Word.ofText (textOf token)).Findable minLength

instance (minLength : Nat) : DecidablePred (Usable minLength) :=
  fun _ => inferInstanceAs (Decidable (_ ∨ _))

/-- The term for a token. -/
def termOf (token : List Piece) : List Char :=
  if groupsOf token = [] then (Word.ofText (textOf token)).term
  else (textOf token).flatMap slashChar

/-- The terms for the usable tokens. -/
def termsOf (minLength : Nat) (ps : List Piece) : List (List Char) :=
  ((tokens ps).filter (Usable minLength ·)).map termOf

/-! ## The term for a word -/

theorem operatorOf_cons (c : Char) (cs : List Char) :
    operatorOf (c :: cs) = if c ∈ operators then [c] else [] := by
  by_cases hc : c ∈ operators <;> simp [operatorOf, hc]

theorem splitOperator_eq (text : List Char) :
    splitOperator text = (operatorOf text, text.drop (operatorOf text).length) := by
  cases text with
  | nil => rfl
  | cons c cs =>
      rw [splitOperator, operatorOf_cons]
      split <;> rfl

theorem stripTrailing?_wildcard (text : List Char) :
    Chars.stripTrailing? ['*'] text =
      if text.getLast? = some '*' then some text.dropLast else none := by
  rcases List.eq_nil_or_concat text with rfl | ⟨front, last, rfl⟩
  · rfl
  · simp [Chars.stripTrailing?, Chars.stripLeading?, eq_comm]

/-- A text without marks is a word: it is kept exactly if it is findable. -/
theorem term?_of_not_mem {text : List Char} (h : mark ∉ text) (minLength : Nat)
    (groups : List (List Char)) :
    term? minLength groups text =
      if (Word.ofText text).Findable minLength then some (Word.ofText text).term else none := by
  have hbehind : mark ∉ text.drop (operatorOf text).length :=
    fun hmem => h (List.mem_of_mem_drop hmem)
  rw [term?, splitOperator_eq, Word.ofText]
  simp only [if_neg hbehind, stripTrailing?_wildcard]
  -- Both sides ask the same of what is behind the operator.
  generalize text.drop (operatorOf text).length = behind
  by_cases hwildcard : behind.getLast? = some '*'
  · by_cases hempty : behind.dropLast = []
    · simp [hwildcard, hempty, Word.Findable]
    · simp [hwildcard, hempty, Word.Findable, Word.term]
  · by_cases hempty : behind = []
    · simp [hempty, Word.Findable]
    · by_cases hlength : minLength ≤ behind.length
      · simp [hwildcard, hempty, hlength, Word.Findable, Word.term]
      · simp [hwildcard, hempty, hlength, Word.Findable]

/-! ## The term for a token -/

theorem operatorOf_append_drop (text : List Char) :
    operatorOf text ++ text.drop (operatorOf text).length = text := by
  cases text with
  | nil => rfl
  | cons c cs =>
      rw [operatorOf_cons]
      split <;> rfl

theorem slashChar_operator {c : Char} (hc : c ∈ operators) : slashChar c = [c] := by
  revert c
  decide

theorem flatMap_operatorOf (text : List Char) :
    (operatorOf text).flatMap slashChar = operatorOf text := by
  cases text with
  | nil => rfl
  | cons c cs =>
      rw [operatorOf_cons]
      split
      · next hc => simp [slashChar_operator hc]
      · rfl

/-- Operators and wildcards need no slashes, so a word becomes its text with slashes added. -/
theorem Word.term_ofText (text : List Char) : (ofText text).term = text.flatMap slashChar := by
  -- Operator and wildcard need no slash, and between them stands all the rest of the text.
  have hbehind : (ofText text).word ++ (ofText text).wildcard =
      text.drop (operatorOf text).length := by
    rw [ofText]
    split
    · next hwildcard => exact List.dropLast_append_getLast? _ hwildcard
    · exact List.append_nil _
  have hoperator : (ofText text).operator = operatorOf text := by
    rw [ofText]
    split <;> rfl
  have hwildcard : (ofText text).wildcard.flatMap slashChar = (ofText text).wildcard := by
    rw [ofText]
    split <;> rfl
  calc (ofText text).term
    _ = (operatorOf text).flatMap slashChar ++
          ((ofText text).word ++ (ofText text).wildcard).flatMap slashChar := by
        rw [term, hoperator, flatMap_operatorOf, List.flatMap_append, hwildcard, List.append_assoc]
    _ = text.flatMap slashChar := by
        rw [hbehind, ← List.flatMap_append, operatorOf_append_drop]

/-- The term for a token is the text of the token with slashes added. -/
theorem termOf_eq (token : List Piece) : termOf token = (textOf token).flatMap slashChar := by
  unfold termOf
  split
  · exact Word.term_ofText _
  · rfl

theorem marked_of_groupsOf_eq_nil {ps : List Piece} (h : groupsOf ps = []) (count : Nat) :
    marked count ps = textOf ps := by
  induction ps with
  | nil => rfl
  | cons p ps ih =>
      cases p with
      | char c => rw [marked, ih h]; rfl
      | group g => cases h

theorem mark_mem_marked {ps : List Piece} (h : groupsOf ps ≠ []) (count : Nat) :
    mark ∈ marked count ps := by
  induction ps with
  | nil => exact absurd rfl h
  | cons p ps ih =>
      cases p with
      | char c => exact List.mem_cons_of_mem c (ih h)
      | group g => exact List.mem_cons_self

theorem not_mem_textOf {c : Char} {ps : List Piece} (hgroups : groupsOf ps = [])
    (h : Piece.char c ∉ ps) : c ∉ textOf ps := by
  induction ps with
  | nil => exact List.not_mem_nil
  | cons p ps ih =>
      cases p with
      | char d =>
          rw [List.mem_cons, not_or] at h
          have hd : c ≠ d := fun heq => h.1 (heq ▸ rfl)
          exact fun hmem => (List.mem_cons.1 hmem).elim hd (ih hgroups h.2)
      | group g => cases hgroups

section Term

variable {groups : List (List Char)} {count : Nat} {token : List Piece}

/-- With groups in it a token is kept as it is, with slashes added. -/
theorem term?_marked_of_group (hplain : Piece.char mark ∉ token)
    (hgroups : groupsOf token <+: groups.drop count) (h : groupsOf token ≠ []) (minLength : Nat) :
    term? minLength groups (marked count token) = some ((textOf token).flatMap slashChar) := by
  -- Either the operator is all that is in front of the marked text, or there is none.
  have hwhole : splitOperator (marked count token) = ([], marked count token) →
      term? minLength groups (marked count token) = some ((textOf token).flatMap slashChar) := by
    intro hsplit
    simp only [term?, hsplit, if_pos (mark_mem_marked h count), restore_marked hplain hgroups,
      List.nil_append]
  cases token with
  | nil => exact absurd rfl h
  | cons p rest =>
      cases p with
      | group g => exact hwhole rfl
      | char c =>
          by_cases hc : c ∈ operators
          · have hsplit : splitOperator (marked count (.char c :: rest)) =
                ([c], marked count rest) := if_pos hc
            have hrest : Piece.char mark ∉ rest := fun hmem => hplain (List.mem_cons_of_mem _ hmem)
            have htext : textOf (.char c :: rest) = c :: textOf rest := rfl
            have hbehind : groupsOf rest ≠ [] := h
            have hmark : mark ∈ marked count rest := mark_mem_marked hbehind count
            simp only [term?, hsplit, if_pos hmark,
              restore_marked hrest hgroups, htext, List.flatMap_cons, slashChar_operator hc]
          · exact hwhole (if_neg hc)

/-- The marked text of a token becomes the term of the token, if it is usable. -/
theorem term?_marked (hplain : Piece.char mark ∉ token)
    (hgroups : groupsOf token <+: groups.drop count) (minLength : Nat) :
    term? minLength groups (marked count token) =
      if Usable minLength token then some (termOf token) else none := by
  by_cases h : groupsOf token = []
  · have husable : Usable minLength token ↔ (Word.ofText (textOf token)).Findable minLength := by
      simp [Usable, h]
    rw [marked_of_groupsOf_eq_nil h, term?_of_not_mem (not_mem_textOf h hplain), termOf, if_pos h]
    simp only [husable]
  · have husable : Usable minLength token := Or.inl h
    rw [term?_marked_of_group hplain hgroups h, if_pos husable, termOf_eq]

end Term

/-! ## All terms -/

/-- The marked texts of consecutive tokens. -/
def markedAll : (count : Nat) → List (List Piece) → List (List Char)
  | _, [] => []
  | count, token :: rest => marked count token :: markedAll (count + (groupsOf token).length) rest

theorem marked_intercalate (count : Nat) (parts : List (List Piece)) :
    marked count ([Piece.char ' '].intercalate parts) = [' '].intercalate (markedAll count parts) := by
  induction parts generalizing count with
  | nil => rfl
  | cons part rest ih =>
      cases rest with
      | nil => simp [List.intercalate, markedAll]
      | cons next rest =>
          have hrest := ih (count + (groupsOf part).length)
          rw [List.intercalate_cons_cons, List.append_assoc, marked_append, List.singleton_append,
            marked, hrest]
          simp only [markedAll, List.intercalate_cons_cons, List.append_assoc,
            List.singleton_append]

theorem not_mem_marked {ps : List Piece} (h : Piece.char ' ' ∉ ps) (count : Nat) :
    ' ' ∉ marked count ps := by
  induction ps generalizing count with
  | nil => exact List.not_mem_nil
  | cons p ps ih =>
      rw [List.mem_cons, not_or] at h
      cases p with
      | char c =>
          have hc : ' ' ≠ c := fun heq => h.1 (heq ▸ rfl)
          exact fun hmem => (List.mem_cons.1 hmem).elim hc (ih h.2 count)
      | group g =>
          -- A group is replaced by its mark and number, which hold no blank.
          have hmark : ' ' ≠ mark := by decide
          have hdigits : ' ' ∉ Chars.decimal count := by
            intro hmem
            cases Chars.isDigit_of_mem_decimal hmem
          simp only [marked, List.mem_cons, List.mem_append, not_or]
          exact ⟨hmark, hdigits, hmark, ih h.2 (count + 1)⟩

theorem not_mem_markedAll {parts : List (List Piece)} (h : ∀ part ∈ parts, Piece.char ' ' ∉ part)
    (count : Nat) : ∀ text ∈ markedAll count parts, ' ' ∉ text := by
  induction parts generalizing count with
  | nil => exact fun _ hmem => absurd hmem List.not_mem_nil
  | cons part rest ih =>
      rw [List.forall_mem_cons] at h
      rw [markedAll, List.forall_mem_cons]
      exact ⟨not_mem_marked h.1 count, ih h.2 _⟩

/-- Cutting the marked text at spaces cuts the pieces at spaces. -/
theorem splitOn_marked (count : Nat) (ps : List Piece) :
    (marked count ps).splitOn ' ' = markedAll count (ps.splitOn (.char ' ')) := by
  have hparts : ∀ part ∈ ps.splitOn (.char ' '), Piece.char ' ' ∉ part :=
    fun part hpart => Chars.not_mem_of_mem_splitOn hpart
  have hne : markedAll count (ps.splitOn (.char ' ')) ≠ [] := by
    cases h : ps.splitOn (.char ' ') with
    | nil => exact absurd h (List.splitOn_ne_nil _ _)
    | cons part rest => exact List.cons_ne_nil _ _
  calc (marked count ps).splitOn ' '
    _ = (marked count ([Piece.char ' '].intercalate (ps.splitOn (.char ' ')))).splitOn ' ' := by
        rw [List.intercalate_splitOn]
    _ = ([' '].intercalate (markedAll count (ps.splitOn (.char ' ')))).splitOn ' ' := by
        rw [marked_intercalate]
    _ = markedAll count (ps.splitOn (.char ' ')) :=
        List.splitOn_intercalate ' ' (not_mem_markedAll hparts count) hne

theorem marked_isEmpty (count : Nat) (ps : List Piece) :
    (marked count ps).isEmpty = ps.isEmpty := by
  rcases ps with _ | ⟨_ | _, _⟩ <;> rfl

theorem filterMap_markedAll {groups : List (List Char)} {count : Nat} {parts : List (List Piece)}
    (hplain : ∀ part ∈ parts, Piece.char mark ∉ part)
    (hgroups : parts.flatMap groupsOf <+: groups.drop count) (minLength : Nat) :
    ((markedAll count parts).filter (!·.isEmpty)).filterMap (term? minLength groups) =
      ((parts.filter (!·.isEmpty)).filter (Usable minLength ·)).map termOf := by
  induction parts generalizing count with
  | nil => rfl
  | cons part rest ih =>
      rw [List.forall_mem_cons] at hplain
      rw [List.flatMap_cons] at hgroups
      -- Each token takes its groups from the front of those that are left.
      have hpart : groupsOf part <+: groups.drop count :=
        (List.prefix_append _ _).trans hgroups
      have hrest : rest.flatMap groupsOf <+: groups.drop (count + (groupsOf part).length) := by
        obtain ⟨behind, hbehind⟩ := hgroups
        rw [← List.drop_drop, ← hbehind, List.append_assoc, List.drop_left]
        exact List.prefix_append _ _
      rw [markedAll, List.filter_cons, List.filter_cons, marked_isEmpty]
      by_cases hempty : part.isEmpty = true
      · simpa [hempty] using ih hplain.2 hrest
      · have hterm := term?_marked hplain.1 hpart minLength
        by_cases husable : Usable minLength part
        · rw [if_pos husable] at hterm
          simpa [hempty, husable, hterm] using ih hplain.2 hrest
        · rw [if_neg husable] at hterm
          simpa [hempty, husable, hterm] using ih hplain.2 hrest

theorem groupsOf_append (a b : List Piece) : groupsOf (a ++ b) = groupsOf a ++ groupsOf b :=
  List.filterMap_append

/-- Cutting at spaces cuts no group. -/
theorem flatMap_groupsOf_splitOn (ps : List Piece) :
    (ps.splitOn (.char ' ')).flatMap groupsOf = groupsOf ps := by
  have hspace : groupsOf [.char ' '] = [] := rfl
  calc (ps.splitOn (.char ' ')).flatMap groupsOf
    _ = (groupsOf [.char ' ']).intercalate ((ps.splitOn (.char ' ')).map groupsOf) := by
        rw [hspace, Chars.nil_intercalate, List.flatMap_def]
    _ = groupsOf ([Piece.char ' '].intercalate (ps.splitOn (.char ' '))) :=
        (Chars.intercalate_hom rfl groupsOf_append _ _).symm
    _ = groupsOf ps := by rw [List.intercalate_splitOn]

/-- Tokens that are left out have no groups. -/
theorem flatMap_groupsOf_usable (minLength : Nat) (ps : List Piece) :
    ((tokens ps).filter (Usable minLength ·)).flatMap groupsOf = groupsOf ps := by
  rw [← flatMap_groupsOf_splitOn ps, tokens, List.filter_filter]
  -- An empty part is no token, and has no groups either.
  induction ps.splitOn (.char ' ') with
  | nil => rfl
  | cons part rest ih =>
      rw [List.filter_cons, List.flatMap_cons]
      split
      · rw [List.flatMap_cons, ih]
      · next hleft =>
          have hnone : groupsOf part = [] := by
            by_contra hgroups
            have hne : part ≠ [] := fun h => hgroups (h ▸ rfl)
            refine hleft ?_
            simp [Usable, hgroups, hne]
          rw [hnone, List.nil_append, ih]

/-- Without a mark among the plain characters a search is processed to the terms of its tokens. -/
theorem process_eq {search : String} {ps : List Piece} (hcut : Cut search.toList ps)
    (hplain : Piece.char mark ∉ ps) (minLength : Nat) :
    process minLength search = String.ofList ([' '].intercalate (termsOf minLength ps)) := by
  have hpieces : piecesFrom 0 search.toList = ps := hcut.piecesFrom_eq
  have hparts : ∀ part ∈ ps.splitOn (.char ' '), Piece.char mark ∉ part := by
    intro part hpart hmem
    exact hplain ((Chars.isInfix_of_mem_splitOn hpart).subset hmem)
  have hgroups : (ps.splitOn (.char ' ')).flatMap groupsOf <+: (groupsOf ps).drop 0 := by
    simp [flatMap_groupsOf_splitOn]
  rw [process, protectFrom_eq, hpieces]
  simp only [splitOn_marked, filterMap_markedAll hparts hgroups]
  rfl

theorem group_mem_of_mem_groupsOf {g : List Char} {ps : List Piece} (h : g ∈ groupsOf ps) :
    Piece.group g ∈ ps := by
  obtain ⟨p, hp, hg⟩ := List.mem_filterMap.1 h
  cases p with
  | char c => cases hg
  | group g' =>
      cases hg
      exact hp

/-- A group of a token stands in its term from end to end. -/
theorem isInfix_termOf {g : List Char} {token : List Piece} (h : g ∈ groupsOf token) :
    g.flatMap slashChar <:+: termOf token := by
  obtain ⟨front, back, rfl⟩ := List.append_of_mem (group_mem_of_mem_groupsOf h)
  refine ⟨(textOf front).flatMap slashChar, (textOf back).flatMap slashChar, ?_⟩
  rw [termOf_eq]
  simp [textOf, Piece.text]

/-! ## Slashes -/

/-- A text that slashes were added to. -/
def Slashed (s : List Char) : Prop :=
  ∃ text : List Char, s = text.flatMap slashChar

theorem Slashed.append {a b : List Char} (ha : Slashed a) (hb : Slashed b) : Slashed (a ++ b) := by
  obtain ⟨text, rfl⟩ := ha
  obtain ⟨rest, rfl⟩ := hb
  exact ⟨text ++ rest, List.flatMap_append.symm⟩

theorem slashed_intercalate {terms : List (List Char)} (h : ∀ term ∈ terms, Slashed term) :
    Slashed ([' '].intercalate terms) := by
  by_cases hne : terms = []
  · rw [hne]
    exact ⟨[], rfl⟩
  · have hspace : Slashed [' '] := ⟨[' '], rfl⟩
    exact Chars.intercalate_of_append Slashed.append hspace hne h

theorem slashed_of_term? {minLength : Nat} {groups : List (List Char)} {text term : List Char}
    (h : term? minLength groups text = some term) : Slashed term := by
  by_cases hmark : mark ∈ text.drop (operatorOf text).length
  · rw [term?, splitOperator_eq] at h
    simp only [if_pos hmark, Option.some.injEq] at h
    exact h ▸ Slashed.append ⟨_, (flatMap_operatorOf text).symm⟩ ⟨_, rfl⟩
  · -- Behind the operator there is no mark, and the operator is none.
    have htext : mark ∉ text := by
      rw [← operatorOf_append_drop text, List.mem_append, not_or]
      refine ⟨fun hmem => ?_, hmark⟩
      have hoperator := of_decide_eq_true (List.mem_filter.1 hmem).2
      exact absurd hoperator (by decide)
    rw [term?_of_not_mem htext, Word.term_ofText] at h
    split at h
    · exact ⟨text, (Option.some.inj h).symm⟩
    · cases h

/-- Whatever is searched for, marks included: slashes were added to all of the terms. -/
theorem slashed_process (minLength : Nat) (search : String) :
    ∃ text, process minLength search = Literal.addSlashes text := by
  have hterms : Slashed (process minLength search).toList := by
    rw [process]
    simp only [String.toList_ofList]
    refine slashed_intercalate fun term hterm => ?_
    obtain ⟨piece, -, hpiece⟩ := List.mem_filterMap.1 hterm
    exact slashed_of_term? hpiece
  obtain ⟨text, htext⟩ := hterms
  refine ⟨String.ofList text, ?_⟩
  rw [Literal.addSlashes, String.toList_ofList, ← htext, String.ofList_toList]

/-! ## Terms of a search -/

/-- A search string without a mark has one cut into groups and plain characters, and is processed to
the terms of its usable tokens.  Every group is in one of them, as a whole. -/
theorem terms_of_search {search : String} (h : mark ∉ search.toList) (minLength : Nat) :
    ∃ ps, (∀ other, Cut search.toList other ↔ other = ps) ∧
      process minLength search = String.ofList ([' '].intercalate (termsOf minLength ps)) ∧
      ((tokens ps).filter (Usable minLength ·)).flatMap groupsOf = groupsOf ps ∧
      ∀ token ∈ tokens ps, ∀ g ∈ groupsOf token, g.flatMap slashChar <:+: termOf token := by
  have hcut := cut_piecesFrom search.toList
  have hplain : Piece.char mark ∉ piecesFrom 0 search.toList := by
    intro hmem
    rcases hcut.mem_cases hmem with ⟨c, hc, heq⟩ | ⟨g, _, heq⟩
    · cases heq
      exact h hc
    · cases heq
  exact ⟨_, fun _ => cut_iff, process_eq hcut hplain minLength,
    flatMap_groupsOf_usable minLength _, fun _ _ _ hg => isInfix_termOf hg⟩

/-- Adjacent and nested groups, an operator in front of one, short words, and a quote that is never
closed. -/
theorem terms_of_dense_search :
    let search := "+\"it's here\"(a (b) \"c) of -cat* +word ** \"open"
    mark ∉ search.toList ∧
      ∃ ps, (∀ other, Cut search.toList other ↔ other = ps) ∧
        termsOf 4 ps = ["+\\\"it\\'s here\\\"(a (b) \\\"c)".toList, "-cat*".toList,
          "+word".toList, "**".toList, "\\\"open".toList] ∧
        process 4 search = String.ofList ([' '].intercalate (termsOf 4 ps)) ∧
        ((tokens ps).filter (Usable 4 ·)).flatMap groupsOf = groupsOf ps ∧
        ∀ token ∈ tokens ps, ∀ g ∈ groupsOf token, g.flatMap slashChar <:+: termOf token := by
  intro search
  have hmark : mark ∉ search.toList := by decide
  obtain ⟨ps, hcut, hprocess, hgroups, hwhole⟩ := terms_of_search hmark 4
  have hps : ps = piecesFrom 0 search.toList := (cut_iff.1 ((hcut ps).2 rfl))
  refine ⟨hmark, ps, hcut, ?_, hprocess, hgroups, hwhole⟩
  rw [hps]
  decide +kernel

end SearchTerms
end ContentQuery
