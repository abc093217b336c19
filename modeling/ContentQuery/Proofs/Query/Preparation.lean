import Mathlib.Data.List.DropRight
import ContentQuery.Proofs.Chars.Names
import ContentQuery.Query.Parser

/-!
# Preparing a text again

Preparation joins the lines of a text to one statement and takes off the semicolons at its end.
What it leaves has no line feeds, no backquotes and no blanks at its ends, but preparing it again
may still change it: a semicolon is left where blanks stand between several of them, and a comment
marker at the start where only a backquote kept it from being one.  These are the only two ways.
-/

namespace ContentQuery

open Chars (isBlank trim trimEnd dropTrailing)

/-! ## The two halves of preparation -/

/-- A line begins with a comment marker. -/
def isComment (line : List Char) : Bool :=
  ['#'].isPrefixOf line || ['-', '-'].isPrefixOf line

/-- The lines that are kept, trimmed. -/
def keptLines (text : List Char) : List (List Char) :=
  ((Chars.lines text).map trim).filter (!isSkippedLine ·)

/-- The statement in a text, with the semicolons at its end. -/
def statement (text : List Char) : List Char :=
  trim (([' '].intercalate (keptLines text)).filter (· ≠ '`'))

/-- A statement without semicolons and blanks at its end. -/
def withoutEnd (s : List Char) : List Char :=
  trimEnd (dropTrailing (· == ';') s)

theorem prepareText_eq (text : String) :
    prepareText text = String.ofList (withoutEnd (statement text.toList)) :=
  rfl

theorem isSkippedLine_eq (line : List Char) :
    isSkippedLine line = (line.isEmpty || isComment line) :=
  Bool.or_assoc _ _ _

theorem isComment_cons (c : Char) (cs : List Char) :
    isComment (c :: cs) = (c == '#' || (c == '-' && cs.head? == some '-')) := by
  cases cs with
  | nil => simp [isComment, List.isPrefixOf, BEq.comm (a := c)]
  | cons d ds => simp [isComment, List.isPrefixOf, BEq.comm (a := c), BEq.comm (a := d)]

/-- A comment marker does not reach into a text that begins with no part of one. -/
theorem isComment_append (s : List Char) {t : List Char} (ht : ∀ c ∈ t.head?, c ≠ '#' ∧ c ≠ '-') :
    isComment (s ++ t) = isComment s := by
  cases t with
  | nil => rw [List.append_nil]
  | cons d ds =>
      obtain ⟨hhash, hdash⟩ := ht d rfl
      cases s with
      | nil =>
          rw [List.nil_append, isComment_cons]
          simp [hhash, hdash, isComment]
      | cons c cs =>
          rw [List.cons_append, isComment_cons, isComment_cons]
          cases cs with
          | nil => simp [hdash]
          | cons => rfl

/-! ## The end of a statement -/

section End

variable {p : Char → Bool} {s : List Char}

theorem rdropWhile_of_getLast? (h : ∀ c ∈ s.getLast?, p c = false) : s.rdropWhile p = s := by
  rw [List.rdropWhile_eq_self_iff]
  intro hne
  rw [h _ (List.getLast?_eq_some_getLast hne)]
  exact Bool.false_ne_true

theorem rdropWhile_append {t : List Char} (ht : ∀ c ∈ t, p c = true) :
    (s ++ t).rdropWhile p = s.rdropWhile p := by
  have hreverse : ∀ c ∈ t.reverse, p c = true := fun c hc => ht c (List.mem_reverse.1 hc)
  rw [List.rdropWhile, List.rdropWhile, List.reverse_append,
    List.dropWhile_append_of_pos hreverse]

theorem withoutEnd_eq (s : List Char) :
    withoutEnd s = (s.rdropWhile (· == ';')).rdropWhile isBlank :=
  rfl

/-- Of a statement are taken off first semicolons and then blanks. -/
theorem exists_withoutEnd (s : List Char) :
    ∃ blanks semicolons, s = withoutEnd s ++ (blanks ++ semicolons) ∧
      (∀ c ∈ blanks, isBlank c = true) ∧ (∀ c ∈ semicolons, c = ';') ∧
      (withoutEnd s ++ blanks).getLast? ≠ some ';' := by
  have hinner : withoutEnd s ++ (s.rdropWhile (· == ';')).rtakeWhile isBlank =
      s.rdropWhile (· == ';') := List.rdropWhile_append_rtakeWhile
  refine ⟨(s.rdropWhile (· == ';')).rtakeWhile isBlank, s.rtakeWhile (· == ';'), ?_, ?_, ?_, ?_⟩
  · rw [← List.append_assoc, hinner, List.rdropWhile_append_rtakeWhile]
  · exact fun c hc => List.mem_rtakeWhile_imp hc
  · exact fun c hc => by simpa using List.mem_rtakeWhile_imp hc
  · rw [hinner]
    intro hlast
    have hne : s.rdropWhile (· == ';') ≠ [] := by
      intro hnil
      rw [hnil] at hlast
      cases hlast
    refine List.rdropWhile_last_not _ s hne ?_
    rw [List.getLast?_eq_some_getLast hne, Option.some.injEq] at hlast
    rw [hlast]
    rfl

theorem withoutEnd_prefix (s : List Char) : withoutEnd s <+: s := by
  obtain ⟨blanks, semicolons, h, -⟩ := exists_withoutEnd s
  exact ⟨blanks ++ semicolons, h.symm⟩

theorem getLast_withoutEnd : ∀ c ∈ (withoutEnd s).getLast?, isBlank c = false :=
  Chars.getLast_trimEnd

/-- Of a text without blanks at its end something is taken off if it ends in a semicolon. -/
theorem withoutEnd_eq_self_iff (hlast : ∀ c ∈ s.getLast?, isBlank c = false) :
    withoutEnd s = s ↔ s.getLast? ≠ some ';' := by
  constructor
  · intro h hsemicolon
    obtain ⟨blanks, semicolons, hs, -, -, hend⟩ := exists_withoutEnd s
    rw [h] at hs hend
    have hnil : blanks ++ semicolons = [] := List.append_right_eq_self.1 hs.symm
    rw [(List.append_eq_nil_iff.1 hnil).1, List.append_nil] at hend
    exact hend hsemicolon
  · intro h
    have hsemicolon : ∀ c ∈ s.getLast?, (c == ';') = false := by
      rintro c hc
      rw [beq_eq_false_iff_ne]
      rintro rfl
      exact h hc
    rw [withoutEnd_eq, rdropWhile_of_getLast? hsemicolon, rdropWhile_of_getLast? hlast]

/-- Between the semicolons at the end stand blanks. -/
def SpacedSemicolons (s : List Char) : Prop :=
  ∃ front blanks semicolons, s = front ++ ';' :: (blanks ++ semicolons) ∧
    (blanks ≠ [] ∧ ∀ c ∈ blanks, isBlank c = true) ∧
    (semicolons ≠ [] ∧ ∀ c ∈ semicolons, c = ';')

/-- A semicolon is left if blanks stand between semicolons. -/
theorem getLast?_withoutEnd_eq_iff (hlast : ∀ c ∈ s.getLast?, isBlank c = false) :
    (withoutEnd s).getLast? = some ';' ↔ SpacedSemicolons s := by
  constructor
  · intro h
    obtain ⟨blanks, semicolons, hs, hblanks, hsemicolons, hend⟩ := exists_withoutEnd s
    obtain ⟨front, hfront⟩ := List.getLast?_eq_some_iff.1 h
    -- Without blanks behind it the semicolon would have gone with the others.
    have hblanksne : blanks ≠ [] := by
      rintro rfl
      rw [List.append_nil] at hend
      exact hend h
    -- Without semicolons behind them the blanks would have been trimmed.
    have hsemicolonsne : semicolons ≠ [] := by
      rintro rfl
      have hmem := List.getLast_mem hblanksne
      have hfalse := hlast (blanks.getLast hblanksne) (by
        rw [hs, List.append_nil, List.getLast?_append, List.getLast?_eq_some_getLast hblanksne]
        rfl)
      rw [hblanks _ hmem] at hfalse
      cases hfalse
    refine ⟨front, blanks, semicolons, ?_, ⟨hblanksne, hblanks⟩, ⟨hsemicolonsne, hsemicolons⟩⟩
    rw [hfront] at hs
    simpa using hs
  · rintro ⟨front, blanks, semicolons, rfl, ⟨hblanksne, hblanks⟩, -, hsemicolons⟩
    -- The semicolons at the end go, and then the blanks, down to the semicolon in front of them.
    have hsplit : front ++ ';' :: (blanks ++ semicolons) =
        (front ++ [';'] ++ blanks) ++ semicolons := by simp
    have hbefore : (front ++ [';'] ++ blanks).getLast? = blanks.getLast? := by
      rw [List.getLast?_append, List.getLast?_eq_some_getLast hblanksne]
      rfl
    have hinner : ∀ c ∈ (front ++ [';'] ++ blanks).getLast?, (c == ';') = false := by
      rw [hbefore]
      intro c hc
      have hblank := hblanks c (List.mem_of_getLast? hc)
      rw [beq_eq_false_iff_ne]
      rintro rfl
      exact absurd hblank (by decide)
    have hfront : ∀ c ∈ (front ++ [';']).getLast?, isBlank c = false := by
      simp
      decide
    rw [withoutEnd_eq, hsplit, rdropWhile_append (fun c hc => by simp [hsemicolons c hc]),
      rdropWhile_of_getLast? hinner, rdropWhile_append hblanks, rdropWhile_of_getLast? hfront,
      List.getLast?_append]
    rfl

/-- A comment marker at the start is not taken off with the end. -/
theorem isComment_withoutEnd (s : List Char) : isComment (withoutEnd s) = isComment s := by
  obtain ⟨blanks, semicolons, hs, hblanks, hsemicolons, -⟩ := exists_withoutEnd s
  conv => rhs; rw [hs]
  refine (isComment_append (withoutEnd s) ?_).symm
  intro c hc
  have hmem := List.mem_of_mem_head? hc
  constructor
  all_goals
    rintro rfl
    rcases List.mem_append.1 hmem with hmem | hmem
    · exact absurd (hblanks _ hmem) (by decide)
    · exact absurd (hsemicolons _ hmem) (by decide)

end End

/-! ## The statement in a text -/

section Lines

variable {text line : List Char}

theorem mem_of_mem_trim {c : Char} {s : List Char} (h : c ∈ trim s) : c ∈ s :=
  (List.dropWhile_suffix isBlank).subset ((Chars.trimEnd_prefix _).subset h)

/-- A kept line is a part of the text, trimmed, and neither blank nor a comment. -/
theorem exists_of_mem_keptLines (h : line ∈ keptLines text) :
    ∃ raw ∈ text.splitOn '\n', line = trim raw ∧ line ≠ [] ∧ isComment line = false := by
  obtain ⟨hmap, hskip⟩ := List.mem_filter.1 h
  obtain ⟨raw, hraw, rfl⟩ := List.mem_map.1 hmap
  simp only [isSkippedLine_eq, Bool.not_eq_true', Bool.or_eq_false_iff,
    List.isEmpty_eq_false_iff] at hskip
  exact ⟨raw, hraw, rfl, hskip⟩

/-- What stands in no kept line is in the joined lines only if it is a space. -/
theorem not_mem_joined {c : Char} (hc : c ≠ ' ') (h : ∀ line ∈ keptLines text, c ∉ line) :
    c ∉ [' '].intercalate (keptLines text) := by
  by_cases hnil : keptLines text = []
  · rw [hnil]
    exact List.not_mem_nil
  · refine Chars.intercalate_of_append (P := (c ∉ ·)) ?_ (by simpa using hc) hnil h
    intro a b ha hb hmem
    exact (List.mem_append.1 hmem).elim ha hb

theorem filter_backquote {s : List Char} (h : '`' ∉ s) : s.filter (· ≠ '`') = s := by
  rw [List.filter_eq_self]
  intro c hc
  rw [decide_eq_true_eq]
  rintro rfl
  exact h hc

theorem lineFeed_not_mem_statement (text : List Char) : '\n' ∉ statement text := by
  intro hmem
  refine not_mem_joined (by decide) ?_ (List.mem_of_mem_filter (mem_of_mem_trim hmem))
  intro line hline hmem
  obtain ⟨raw, hraw, rfl, -⟩ := exists_of_mem_keptLines hline
  exact Chars.not_mem_of_mem_splitOn hraw (mem_of_mem_trim hmem)

theorem backquote_not_mem_statement (text : List Char) : '`' ∉ statement text := by
  intro hmem
  simpa using (List.mem_filter.1 (mem_of_mem_trim hmem)).2

/-- The blanks at its end do not make a text a comment. -/
theorem isComment_trim {s : List Char} (hhead : ∀ c ∈ s.head?, isBlank c = false) :
    isComment (trim s) = isComment s := by
  have hstart : Chars.trimStart s = s := by
    cases s with
    | nil => rfl
    | cons c cs => exact List.dropWhile_cons_of_neg (by simp [hhead c rfl])
  have hsplit : trim s ++ s.rtakeWhile isBlank = s := by
    rw [trim, hstart]
    exact List.rdropWhile_append_rtakeWhile
  conv => rhs; rw [← hsplit]
  refine (isComment_append (trim s) ?_).symm
  intro c hc
  have hblank := List.mem_rtakeWhile_imp (List.mem_of_mem_head? hc)
  constructor
  all_goals
    rintro rfl
    exact absurd hblank (by decide)

/-- Behind the first line the joined lines go on with a space. -/
theorem exists_joined_cons (first : List Char) (rest : List (List Char)) :
    ∃ behind, [' '].intercalate (first :: rest) = first ++ behind ∧
      ∀ c ∈ behind.head?, c = ' ' := by
  cases rest with
  | nil => exact ⟨[], by simp, by simp⟩
  | cons next rest =>
      refine ⟨' ' :: [' '].intercalate (next :: rest), ?_, by simp⟩
      rw [List.intercalate_cons_cons, List.append_assoc]
      rfl

/-- Without backquotes a statement begins like the first line that is kept. -/
theorem isComment_statement (h : '`' ∉ text) : isComment (statement text) = false := by
  have hjoined : '`' ∉ [' '].intercalate (keptLines text) := by
    refine not_mem_joined (by decide) ?_
    intro line hline hmem
    obtain ⟨raw, hraw, rfl, -⟩ := exists_of_mem_keptLines hline
    exact h ((Chars.isInfix_of_mem_splitOn hraw).subset (mem_of_mem_trim hmem))
  rw [statement, filter_backquote hjoined]
  cases hlines : keptLines text with
  | nil => rfl
  | cons first rest =>
      have hfirst : first ∈ keptLines text := by simp [hlines]
      obtain ⟨raw, -, hraw, hne, hcomment⟩ := exists_of_mem_keptLines hfirst
      obtain ⟨behind, hbehind, hspace⟩ := exists_joined_cons first rest
      have hhead : ∀ c ∈ (first ++ behind).head?, isBlank c = false := by
        intro c hc
        rw [List.head?_append_of_ne_nil _ hne, hraw] at hc
        exact Chars.head_trim c hc
      rw [hbehind, isComment_trim hhead, isComment_append, hcomment]
      intro c hc
      rw [hspace c hc]
      decide

end Lines

/-! ## Preparing again -/

/-- What every prepared text is: one line without backquotes and without blanks at its ends. -/
structure Prepared (s : List Char) : Prop where
  lineFeed : '\n' ∉ s
  backquote : '`' ∉ s
  head : ∀ c ∈ s.head?, isBlank c = false
  last : ∀ c ∈ s.getLast?, isBlank c = false

theorem prepared_prepareText (text : String) : Prepared (prepareText text).toList := by
  have hfront := withoutEnd_prefix (statement text.toList)
  rw [prepareText_eq, String.toList_ofList]
  refine ⟨fun h => ?_, fun h => ?_, fun c hc => ?_, getLast_withoutEnd⟩
  · exact lineFeed_not_mem_statement text.toList (hfront.subset h)
  · exact backquote_not_mem_statement text.toList (hfront.subset h)
  · obtain ⟨behind, hbehind⟩ := hfront
    have hhead : ∀ c ∈ (statement text.toList).head?, isBlank c = false := Chars.head_trim
    refine hhead c ?_
    rw [← hbehind, List.head?_append, Option.mem_def.1 hc]
    rfl

/-- The statement in a prepared text is the text, unless it is dropped as a comment. -/
theorem Prepared.statement_eq {s : List Char} (hs : Prepared s) :
    statement s = if isComment s then [] else s := by
  have hlines : Chars.lines s = [s] := List.splitOn_eq_singleton hs.lineFeed
  -- The text is its only line, and nothing of it is trimmed.
  have hkept : keptLines s = if isSkippedLine s then [] else [s] := by
    rw [keptLines, hlines, List.map_singleton, Chars.trim_eq_self hs.head hs.last,
      List.filter_singleton]
    cases isSkippedLine s <;> rfl
  rw [statement, hkept, isSkippedLine_eq]
  cases hcomment : isComment s with
  | true =>
      rw [Bool.or_true]
      rfl
  | false =>
      cases s with
      | nil => rfl
      | cons c cs =>
          simp only [List.isEmpty_cons, Bool.or_false, Bool.false_eq_true, if_false,
            List.intercalate_singleton, filter_backquote hs.backquote]
          exact Chars.trim_eq_self hs.head hs.last

theorem Prepared.prepareText_eq_iff {text : String} (hs : Prepared text.toList) :
    prepareText text = text ↔
      text.toList.getLast? ≠ some ';' ∧ isComment text.toList = false := by
  rw [prepareText_eq, hs.statement_eq, ← String.toList_inj, String.toList_ofList]
  cases hcomment : isComment text.toList with
  | true =>
      simp only [if_true, Bool.true_eq_false, and_false, iff_false]
      intro h
      rw [← h] at hcomment
      cases hcomment
  | false =>
      simp only [Bool.false_eq_true, if_false, and_true]
      exact withoutEnd_eq_self_iff hs.last

/-- Preparing a text again changes nothing, unless semicolons with blanks between them stand at the
end of its statement, or a comment marker at the start, which only backquotes can have hidden. -/
theorem prepareText_prepareText (text : String) :
    Prepared (prepareText text).toList ∧
    (prepareText (prepareText text) = prepareText text ↔
      ¬SpacedSemicolons (statement text.toList) ∧ isComment (statement text.toList) = false) ∧
    ((prepareText text).toList.getLast? = some ';' ↔ SpacedSemicolons (statement text.toList)) ∧
    isComment (prepareText text).toList = isComment (statement text.toList) ∧
    (isComment (statement text.toList) = false ∨ '`' ∈ text.toList) := by
  have hprepared := prepared_prepareText text
  have hsemicolon : (prepareText text).toList.getLast? = some ';' ↔
      SpacedSemicolons (statement text.toList) := by
    rw [prepareText_eq, String.toList_ofList]
    exact getLast?_withoutEnd_eq_iff Chars.getLast_trim
  have hcomment : isComment (prepareText text).toList = isComment (statement text.toList) := by
    rw [prepareText_eq, String.toList_ofList]
    exact isComment_withoutEnd (statement text.toList)
  refine ⟨hprepared, ?_, hsemicolon, hcomment, ?_⟩
  · rw [hprepared.prepareText_eq_iff, hcomment, Ne, hsemicolon]
  · by_cases h : '`' ∈ text.toList
    · exact .inr h
    · exact .inl (isComment_statement h)

-- A backquote hides the comment marker once.
example : prepareText "`# uid" = "# uid" ∧ prepareText "# uid" = "" := by
  decide +kernel

/-- A blank between two semicolons keeps the first one, and it is taken off when the text is
prepared again. -/
theorem prepareText_twice_changes :
    prepareText "SELECT uid FROM pages ; ;" = "SELECT uid FROM pages ;" ∧
      prepareText (prepareText "SELECT uid FROM pages ; ;") = "SELECT uid FROM pages" ∧
      prepareText (prepareText "SELECT uid FROM pages ; ;") ≠
        prepareText "SELECT uid FROM pages ; ;" := by
  decide +kernel

end ContentQuery
