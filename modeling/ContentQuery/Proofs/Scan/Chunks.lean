import ContentQuery.Proofs.Scan.Quiet

/-!
# Texts cut at keywords

A text is cut at its top-level keywords into chunks, each with the place of the keyword that opens
it.  A section is a keyword with quiet text behind it, as a printer writes it.  Writing sections
behind a text adds their chunks to the chunks of the text, and changes none of those.
-/

namespace ContentQuery
namespace Scan

open Keyword (Ends Lawful Opens Spells isIdentifierChar)
open Chars (isBlank)

variable {words : List Keyword} {later : List Char}

/-! ## Chunks -/

/-- Every keyword counts. -/
def anyWord (_ : Nat) : Bool :=
  true

/-- Cuts a text at tokens; `opener` is the place of the keyword before position `start`. -/
def cutAt (text : List Char) (opener : Option Nat) (start : Nat) :
    List Token → List (Option Nat × List Char)
  | [] => [(opener, Chars.trim (text.drop start))]
  | t :: ts =>
      (opener, Chars.trim (Chars.slice text start t.start)) :: cutAt text (some t.index) t.stop ts

/-- The chunks of a text between its top-level keywords. -/
def chunks (words : List Keyword) (text : List Char) : List (Option Nat × List Char) :=
  cutAt text none 0 (topTokens words anyWord {} text)

theorem chunks_of_quiet {text : List Char} (h : topTokens words anyWord {} text = []) :
    chunks words text = [(none, Chars.trim text)] := by
  rw [chunks, h, cutAt, List.drop_zero]

/-- One more cut behind a text keeps the chunks of the text. -/
theorem cutAt_append {a blanks r : List Char} (hblanks : ∀ c ∈ blanks, isBlank c = true)
    {t : Token} (ht : t.start = a.length + blanks.length) {ts : List Token}
    (hts : ∀ u ∈ ts, u.start ≤ a.length ∧ u.stop ≤ a.length) :
    ∀ (opener : Option Nat) (start : Nat), start ≤ a.length →
      cutAt (a ++ (blanks ++ r)) opener start (ts ++ [t]) =
        cutAt a opener start ts ++
          [(some t.index, Chars.trim ((a ++ (blanks ++ r)).drop t.stop))] := by
  induction ts with
  | nil =>
      intro opener start hstart
      -- The last chunk of `a` ends at the blanks before the new token.
      have hslice : Chars.slice (a ++ (blanks ++ r)) start t.start = a.drop start ++ blanks := by
        rw [Chars.slice, ht, List.take_length_add_append, List.take_left,
          List.drop_append_of_le_length hstart]
      rw [List.nil_append, cutAt, cutAt, cutAt, hslice, Chars.trim_append_blanks hblanks]
      rfl
  | cons u us ih =>
      intro opener start hstart
      rcases hts u (by simp) with ⟨hustart, hustop⟩
      -- An earlier chunk lies within `a`.
      have hslice : Chars.slice (a ++ (blanks ++ r)) start u.start =
          Chars.slice a start u.start := by
        rw [Chars.slice, Chars.slice, List.take_append_of_le_length hustart]
      rw [List.cons_append, cutAt, cutAt, hslice,
        ih (fun v hv => hts v (by simp [hv])) (some u.index) u.stop hustop]
      rfl

/-- A keyword behind blanks gives one more chunk, if the text behind it has no keyword. -/
theorem chunks_spelled (hwords : Lawful words later) {i : Nat} {k : Keyword}
    (hk : Opens words later i k) {a blanks stretch body : List Char}
    (ha : OnTop (({} : Scan).read a)) (hne : blanks ≠ [])
    (hblanks : ∀ c ∈ blanks, isBlank c = true) (hspells : Spells k.letters stretch)
    (hbody : ∀ c ∈ body.head?, isIdentifierChar c = false)
    (hnone : topTokens words anyWord (((({} : Scan).read a).read blanks).read stretch) body = []) :
    chunks words (a ++ (blanks ++ (stretch ++ body))) =
      chunks words a ++ [(some i, Chars.trim body)] := by
  have hbeside := ha.beside_of_blanks hne hblanks
  have htop := ha.read_blanks hblanks
  have hposition : ((({} : Scan).read a).read blanks).position = a.length + blanks.length := by
    rw [position_read, position_read]
    exact congrArg (· + blanks.length) (Nat.zero_add _)
  -- The keyword is the only token behind `a`.
  have htokens : topTokens words anyWord (({} : Scan).read a) (blanks ++ (stretch ++ body)) =
      [⟨i, a.length + blanks.length, a.length + blanks.length + stretch.length, 0⟩] := by
    rw [topTokens_blanks hwords.formed hblanks, topTokens,
      tokensFrom_spelled hwords hk hspells htop.right htop.outside hbeside.bound hbody, hposition,
      htop.depth, List.filter_cons_of_pos rfl]
    exact congrArg _ hnone
  have hbounds : ∀ u ∈ topTokens words anyWord {} a, u.start ≤ a.length ∧ u.stop ≤ a.length := by
    intro u hu
    have hbounds := bounds_of_mem hwords.formed (List.mem_filter.1 hu).1
    have hzero : ({} : Scan).position = 0 := rfl
    omega
  have hdrop : (a ++ (blanks ++ (stretch ++ body))).drop
      (a.length + blanks.length + stretch.length) = body := by
    rw [Nat.add_assoc, List.drop_length_add_append, List.drop_length_add_append, List.drop_left]
  rw [chunks, topTokens_append hwords (ends_spelled hwords hk hne hblanks hspells body), htokens]
  refine (cutAt_append hblanks rfl hbounds none 0 (Nat.zero_le _)).trans ?_
  rw [hdrop]
  rfl

/-! ## Sections -/

/-- A keyword, its place in a list of keywords, and the text behind it. -/
structure Section where
  place : Nat
  word : Keyword
  body : List Char

namespace Section

def text (x : Section) : List Char :=
  ' ' :: (x.word.letters ++ x.body)

/-- A section can be told from the text around it. -/
structure Sound (words : List Keyword) (later : List Char) (x : Section) : Prop where
  opens : Opens words later x.place x.word
  begins : ∀ c ∈ x.body.head?, isIdentifierChar c = false
  quiet : Quiet words anyWord later x.body

end Section

/-- A section behind a text gives one more chunk. -/
theorem chunks_append (hwords : Lawful words later) {a : List Char}
    (ha : Settled 0 (({} : Scan).read a)) {x : Section} (hx : x.Sound words later) :
    chunks words (a ++ x.text) = chunks words a ++ [(some x.place, Chars.trim x.body)] ∧
      Settled 0 (({} : Scan).read (a ++ x.text)) := by
  have hformed := hwords.formed x.word (List.mem_of_getElem? hx.opens.place)
  have hspells := Keyword.spells_self hformed.spelled
  have hkeyword : Settled 0 (((({} : Scan).read a).read [' ']).read x.word.letters) :=
    (ha.step (c := ' ') (by decide)).read (Keyword.isOrdinary_of_spells hformed.spelled hspells)
  -- No keyword stands in the text behind this one, which is quiet.
  have hend : Ends later ([] : List Char) := ⟨by simp, by simp⟩
  obtain ⟨hbody, hsettled⟩ := hx.quiet _ [] hkeyword hend
  rw [List.append_nil] at hbody
  refine ⟨chunks_spelled hwords hx.opens ha.onTop (List.cons_ne_nil _ _) (by decide) hspells
    hx.begins hbody, ?_⟩
  rw [read_append, Section.text, read_cons, read_append]
  exact hsettled

/-- Sections behind a text give a chunk each, in their order. -/
theorem chunks_sections (hwords : Lawful words later) {sections : List Section}
    (hsections : ∀ x ∈ sections, x.Sound words later) {a : List Char}
    (ha : Settled 0 (({} : Scan).read a)) :
    chunks words (a ++ sections.flatMap Section.text) =
        chunks words a ++ sections.map (fun x => (some x.place, Chars.trim x.body)) ∧
      Settled 0 (({} : Scan).read (a ++ sections.flatMap Section.text)) := by
  induction sections generalizing a with
  | nil => simpa using ha
  | cons x xs ih =>
      rcases chunks_append hwords ha (hsections x (by simp)) with ⟨hchunks, hsettled⟩
      rcases ih (fun y hy => hsections y (by simp [hy])) hsettled with ⟨hrest, hfinal⟩
      rw [List.flatMap_cons, ← List.append_assoc]
      refine ⟨?_, hfinal⟩
      rw [hrest, hchunks, List.append_assoc]
      rfl

end Scan
end ContentQuery
