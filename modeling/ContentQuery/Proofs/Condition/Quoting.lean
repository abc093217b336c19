import ContentQuery.Proofs.Condition.Lexemes
import ContentQuery.Proofs.Scan.Literals
import ContentQuery.Proofs.Scan.Occurrences

/-!
# Quoted values

A value is quoted for two readers who do not know of each other: the scan, which has to find the end
of the literal, and the database, which has to find the value in it.  Whatever the value is, a walk
through the literal stops at its end and not before, and the escapes in it are read back as the value,
provided that what follows the literal does not begin with a quote.
-/

namespace ContentQuery
namespace Scan

variable {q : Char} {s : Scan} {w ahead : List Char}

/-! ## Walks past a literal -/

/-- A walk from the start that stops behind a text, outside literals and parentheses, and goes on from
there.  Before that it stops within literals only. -/
structure Passes (text ahead : List Char) (inner : List Stop) (stop : Stop) : Prop where
  walk : strides {} (text ++ ahead) = inner ++ stop :: strides stop.scan ahead
  inside : ∀ p ∈ inner, p.scan.openQuote? ≠ none
  position : stop.scan.position = text.length
  ahead : stop.ahead = ahead
  outside : stop.scan.openQuote? = none
  depth : stop.scan.depth = 0
  stray : stop.scan.strayClose = none

/-- A walk stops behind a quote that is not doubled. -/
theorem strides_closing {c : Char} (hclosing : (s.step c).mode = .closing q)
    (hahead : ahead.head? ≠ some q) :
    strides s (c :: ahead) = ⟨s.step c, ahead⟩ :: strides (s.step c) ahead := by
  cases ahead with
  | nil =>
      unfold strides
      simp [hclosing, strides]
  | cons d ds =>
      have hd : d ≠ q := fun heq => hahead (congrArg some heq)
      rw [strides_cons_cons]
      simp [stopsBefore, hclosing, hd]

/-- A walk through a text that stays within a literal up to its last character, the closing quote. -/
theorem strides_through (hahead : ahead.head? ≠ some q) {c : Char}
    (hinside : staysInside (s.step c) w = true)
    (hclosing : (s.read (c :: w)).mode = .closing q) :
    ∃ inner, strides s (c :: (w ++ ahead)) =
        inner ++ ⟨s.read (c :: w), ahead⟩ :: strides (s.read (c :: w)) ahead ∧
      ∀ p ∈ inner, p.scan.openQuote? ≠ none := by
  induction w generalizing s c with
  | nil => exact ⟨[], strides_closing hclosing hahead, by simp⟩
  | cons d ds ih =>
      rw [staysInside_cons] at hinside
      obtain ⟨inner, hwalk, hinner⟩ := ih hinside.2 hclosing
      by_cases hstop : (s.step c).stopsBefore d = true
      · -- The walk stops before `d`, which is read within the literal.
        have hopen : (s.step c).openQuote? ≠ none := by
          intro hnone
          have houtside := isOutside_iff.2 ⟨hstop, hnone⟩
          simp [hinside.1] at houtside
        refine ⟨⟨s.step c, d :: (ds ++ ahead)⟩ :: inner, ?_, ?_⟩
        · rw [List.cons_append, strides_cons_cons, if_pos hstop, hwalk]
          rfl
        · intro p hp
          rcases List.mem_cons.1 hp with rfl | hp
          · exact hopen
          · exact hinner p hp
      · refine ⟨inner, ?_, hinner⟩
        rw [List.cons_append, strides_cons_cons, if_neg hstop, hwalk]
        rfl

/-- A literal is passed, whatever its body is. -/
theorem exists_passes (hq : isQuote q = true) (hw : Fills q w) (hahead : ahead.head? ≠ some q) :
    ∃ inner stop, Passes (literal q w) ahead inner stop := by
  have hopen : (({} : Scan).step q).mode = .quoted q := (step_quote rfl hq).1
  have hend := shifted_behindLiteral (s := {}) rfl hq hw
  -- The scan is inside the literal until the closing quote has been read.
  have hinside : staysInside (({} : Scan).step q) (w ++ [q]) = true := by
    have hbody := staysInside_congr (s := opened q) (t := ({} : Scan).step q) hopen (w ++ [q])
    rw [hbody, staysInside_append, hw.1, Bool.true_and, staysInside_cons]
    exact ⟨by simp [isOutside, hw.2], rfl⟩
  obtain ⟨inner, hwalk, hinner⟩ := strides_through hahead hinside hend.mode
  refine ⟨inner, ⟨({} : Scan).read (literal q w), ahead⟩, ?_⟩
  exact {
    walk := by simpa [literal] using hwalk
    inside := hinner
    position := hend.position.trans (by simp [behindLiteral])
    ahead := rfl
    outside := by simp [openQuote?, hend.mode, behindLiteral]
    depth := hend.depth
    stray := hend.stray.2 rfl }

end Scan

namespace Literal

open Scan (Body Fills Passes literal)

/-! ## Escapes read back -/

/-- The text that the body of a literal stands for, from a place behind a backslash or not. -/
def decodeFrom? : (escaped : Bool) → List Char → Option (List Char)
  | false, [] => some []
  | true, [] => none
  | false, c :: cs =>
      if c = '\\' then decodeFrom? true cs else (decodeFrom? false cs).map (c :: ·)
  | true, c :: cs => (unescape? c).bind fun d => (decodeFrom? false cs).map (d :: ·)

/-- The text that the body of a literal stands for. -/
def decode? (body : List Char) : Option (List Char) :=
  decodeFrom? false body

theorem StandsFor.decode?_append {w : List Char} {c : Char} (h : StandsFor w c) (rest : List Char) :
    decode? (w ++ rest) = (decode? rest).map (c :: ·) := by
  cases h with
  | plain hc => simp [decode?, decodeFrom?, (not_or.1 hc).1]
  | escape he => simp [decode?, decodeFrom?, he]

variable {escape : Char → List Char}

theorem decode?_flatMap (hescape : ∀ c, StandsFor (escape c) c) (value : List Char) :
    decode? (value.flatMap escape) = some value := by
  induction value with
  | nil => rfl
  | cons c cs ih => rw [List.flatMap_cons, (hescape c).decode?_append, ih, Option.map_some]

/-- No escape leaves a quote that would end the literal. -/
theorem fills_flatMap (hescape : ∀ c, StandsFor (escape c) c) (value : List Char) :
    Fills '\'' (value.flatMap escape) := by
  refine Body.fills (by decide) ?_
  induction value with
  | nil => exact .nil
  | cons c cs ih =>
      have hwritten := hescape c
      rw [List.flatMap_cons]
      generalize escape c = w at hwritten
      cases hwritten with
      | plain hc =>
          rw [not_or, not_or] at hc
          exact .plain hc.2.1 hc.1 ih
      | escape _ => exact .escaped _ ih

/-! ## Both readers -/

/-- A literal that is written for a value: a walk passes it, the escapes in its body are those of the
value, and the database reads it as one literal with the value in it. -/
structure ReadsAs (text body value : String) (ahead : List Char) : Prop where
  passed : ∃ inner stop, Passes text.toList ahead inner stop
  decoded : decode? body.toList = some value.toList
  lexed : lex (text.toList ++ ahead) = (lex ahead).map (.literal value.toList :: ·)

theorem readsAs_of_standsFor (hescape : ∀ c, StandsFor (escape c) c) {text body value : String}
    (hbody : body.toList = value.toList.flatMap escape)
    (htext : text.toList = literal '\'' body.toList) {ahead : List Char}
    (hahead : ahead.head? ≠ some '\'') : ReadsAs text body value ahead where
  passed := by
    rw [htext, hbody]
    exact Scan.exists_passes rfl (fills_flatMap hescape _) hahead
  decoded := by rw [hbody, decode?_flatMap hescape]
  lexed := by
    have hnext : ∀ c ∈ ahead.head?, c ≠ '\'' := by
      rintro c hc rfl
      exact hahead hc
    have hlex := lex_literal (readBack_of_standsFor hescape) hnext value.toList
    rw [htext, hbody]
    simpa [literal] using hlex

/-- A quoted value is passed by the scan and read back by the database, and so is one with slashes
added between quotes, whatever the value is and whatever follows but a quote. -/
theorem quoted_readsAs (value : String) {ahead : List Char} (hahead : ahead.head? ≠ some '\'') :
    ReadsAs (fullQuote value) (quote value) value ahead ∧
      ReadsAs ("'" ++ addSlashes value ++ "'") (addSlashes value) value ahead := by
  constructor
  · exact readsAs_of_standsFor standsFor_quoteChar (by simp [quote])
      (by simp [fullQuote, literal]) hahead
  · exact readsAs_of_standsFor standsFor_slashChar (by simp [addSlashes]) (by simp [literal]) hahead

/-- Quotes and backslashes at both ends, control characters, and a quote of the other kind ahead. -/
theorem quoted_readsAs_edges :
    let value := "\\'C:\x00\n\r\x1A\\\"'\\"
    let ahead := "\" OR (x)".toList
    ahead.head? ≠ some '\'' ∧
      fullQuote value = "'\\\\\\'C:\\0\\n\\r\\Z\\\\\\\"\\'\\\\'" ∧
      ReadsAs (fullQuote value) (quote value) value ahead ∧
      ReadsAs ("'" ++ addSlashes value ++ "'") (addSlashes value) value ahead := by
  intro value ahead
  have hahead : ahead.head? ≠ some '\'' := by decide
  exact ⟨hahead, by decide +kernel, quoted_readsAs value hahead⟩

end Literal
end ContentQuery
