import ContentQuery.Condition.Literal
import ContentQuery.Proofs.Scan.Reading

/-!
# Literals as the database reads them

The database cuts a statement into literals and the characters outside them.  Inside a literal a
backslash and a letter stand for one character, and so does a doubled quote; the literal is what they
stand for.  A text with an open literal or with an unknown escape is not read.

A value that is written as a literal is read back, whatever it is, and the texts around it are read
as if it was not there.
-/

namespace ContentQuery
namespace Literal

open Scan (isQuote)

/-! ## Reading -/

/-- What the database sees of a statement. -/
inductive Lexeme where
  /-- A character outside literals. -/
  | char (c : Char)
  /-- A literal, by the text that it stands for. -/
  | literal (text : List Char)
deriving DecidableEq, Repr

namespace Lexeme

def text? : Lexeme → Option String
  | char _ => none
  | literal text => some (String.ofList text)

/-- The lexeme with nothing in it if it is a literal. -/
def erase : Lexeme → Lexeme
  | char c => char c
  | literal _ => literal []

end Lexeme

/-- The character that stands behind an escape, by the letter after the backslash. -/
def unescape? (c : Char) : Option Char :=
  if c = '0' then some '\x00'
  else if c = 'n' then some '\n'
  else if c = 'r' then some '\r'
  else if c = 'Z' then some '\x1a'
  else if c = '\\' ∨ c = '\'' ∨ c = '"' then some c
  else none

/-- Where a reader stands: outside literals, or in a literal with its quote and the text of it that
was read. -/
inductive Place where
  | plain
  | quoted (quote : Char) (text : List Char)
  | escaped (quote : Char) (text : List Char)
  /-- After a quote that ends the literal unless it is doubled. -/
  | closing (quote : Char) (text : List Char)

/-- The lexemes of a text that begins at a place. -/
def lexFrom : Place → List Char → Option (List Lexeme)
  | .plain, [] => some []
  | .quoted _ _, [] => none
  | .escaped _ _, [] => none
  | .closing _ text, [] => some [.literal text]
  | .plain, c :: cs =>
      if isQuote c then lexFrom (.quoted c []) cs else (lexFrom .plain cs).map (.char c :: ·)
  | .quoted quote text, c :: cs =>
      if c = '\\' then lexFrom (.escaped quote text) cs
      else if c = quote then lexFrom (.closing quote text) cs
      else lexFrom (.quoted quote (text ++ [c])) cs
  | .escaped quote text, c :: cs =>
      (unescape? c).bind fun d => lexFrom (.quoted quote (text ++ [d])) cs
  | .closing quote text, c :: cs =>
      if c = quote then lexFrom (.quoted quote (text ++ [quote])) cs
      else if isQuote c then (lexFrom (.quoted c []) cs).map (.literal text :: ·)
      else (lexFrom .plain cs).map fun rest => .literal text :: .char c :: rest

/-- The lexemes of a statement. -/
def lex (statement : List Char) : Option (List Lexeme) :=
  lexFrom .plain statement

/-! ## Outside literals -/

/-- A text without quotes. -/
def Quoteless (w : List Char) : Prop :=
  ∀ c ∈ w, isQuote c = false

instance (w : List Char) : Decidable (Quoteless w) :=
  inferInstanceAs (Decidable (∀ c ∈ w, isQuote c = false))

theorem Quoteless.append {v w : List Char} (hv : Quoteless v) (hw : Quoteless w) :
    Quoteless (v ++ w) := by
  intro c hc
  rcases List.mem_append.1 hc with hc | hc
  · exact hv c hc
  · exact hw c hc

/-- The characters of a text outside literals. -/
def chars (w : List Char) : List Lexeme :=
  w.map .char

theorem chars_append (v w : List Char) : chars (v ++ w) = chars v ++ chars w :=
  List.map_append

theorem lex_append {w : List Char} (hw : Quoteless w) (rest : List Char) :
    lex (w ++ rest) = (lex rest).map (chars w ++ ·) := by
  induction w with
  | nil => simp [chars]
  | cons c cs ih =>
      have hc : isQuote c = false := hw c List.mem_cons_self
      have hcs := ih fun d hd => hw d (List.mem_cons_of_mem c hd)
      calc lex (c :: cs ++ rest)
          = (lex (cs ++ rest)).map (.char c :: ·) := by simp [lex, lexFrom, hc]
        _ = (lex rest).map (chars (c :: cs) ++ ·) := by
            rw [hcs, Option.map_map]
            rfl

theorem lexFrom_ne_nil {place : Place} (hplace : place ≠ .plain) (s : List Char) :
    lexFrom place s ≠ some [] := by
  -- A literal that is never closed has no lexemes, and one that is closed is one.
  induction s generalizing place with
  | nil => cases place <;> simp_all [lexFrom]
  | cons c cs ih =>
      have hquoted : ∀ quote text, lexFrom (.quoted quote text) cs ≠ some [] :=
        fun _ _ => ih (by simp)
      cases place with
      | plain => exact absurd rfl hplace
      | quoted quote text =>
          rw [lexFrom]
          split
          · exact ih (by simp)
          · split
            · exact ih (by simp)
            · exact hquoted _ _
      | escaped quote text =>
          rw [lexFrom]
          cases unescape? c with
          | none => simp
          | some d => exact hquoted _ _
      | closing quote text =>
          rw [lexFrom]
          split
          · exact hquoted _ _
          · split <;> simp

/-- Only an empty statement has no lexemes. -/
theorem eq_nil_of_lex_eq_nil {s : List Char} (h : lex s = some []) : s = [] := by
  cases s with
  | nil => rfl
  | cons c cs =>
      rw [lex, lexFrom] at h
      split at h
      · exact absurd h (lexFrom_ne_nil (by simp) cs)
      · simp at h

/-! ## Inside literals -/

/-- A letter that is known is read with the backslash before it as one character. -/
theorem lexFrom_escape {quote e d : Char} (h : unescape? e = some d) (text rest : List Char) :
    lexFrom (.quoted quote text) (['\\', e] ++ rest) =
      lexFrom (.quoted quote (text ++ [d])) rest := by
  simp [lexFrom, h]

/-- A character that is none of the special ones is read as it stands. -/
theorem lexFrom_unescaped {quote c : Char} (hquote : isQuote quote = true)
    (hc : ¬ (c = '\\' ∨ c = '\'' ∨ c = '"')) (text rest : List Char) :
    lexFrom (.quoted quote text) ([c] ++ rest) = lexFrom (.quoted quote (text ++ [c])) rest := by
  rw [not_or] at hc
  have hne : c ≠ quote := by
    rintro rfl
    simp [isQuote, not_or.1 hc.2] at hquote
  simp [lexFrom, hc.1, hne]

/-- The ways to write a character in a literal: as it stands, if it is none of the special ones, or by
an escape that is known. -/
inductive StandsFor : List Char → Char → Prop
  | plain {c : Char} : ¬ (c = '\\' ∨ c = '\'' ∨ c = '"') → StandsFor [c] c
  | escape {e c : Char} : unescape? e = some c → StandsFor ['\\', e] c

theorem unescape?_special {c : Char} (h : c = '\\' ∨ c = '\'' ∨ c = '"') :
    unescape? c = some c := by
  rcases h with rfl | rfl | rfl <;> decide

theorem standsFor_quoteChar (c : Char) : StandsFor (quoteChar c) c := by
  unfold quoteChar
  split
  · next h => exact .escape (by simp [unescape?, h])
  · split
    · next h => exact .escape (by simp [unescape?, h])
    · split
      · next h => exact .escape (by simp [unescape?, h])
      · split
        · next h => exact .escape (by simp [unescape?, h])
        · split
          · next h => exact .escape (unescape?_special h)
          · next h => exact .plain h

theorem standsFor_slashChar (c : Char) : StandsFor (slashChar c) c := by
  unfold slashChar
  split
  · next h => exact .escape (by simp [unescape?, h])
  · split
    · next h => exact .escape (unescape?_special h)
    · next h => exact .plain h

/-- Inside a literal an escape is read as the character that was escaped. -/
def ReadBack (escape : Char → List Char) : Prop :=
  ∀ quote : Char, isQuote quote = true → ∀ (text : List Char) (c : Char) (rest : List Char),
    lexFrom (.quoted quote text) (escape c ++ rest) =
      lexFrom (.quoted quote (text ++ [c])) rest

theorem readBack_of_standsFor {escape : Char → List Char}
    (hescape : ∀ c, StandsFor (escape c) c) : ReadBack escape := by
  intro quote hquote text c rest
  have hwritten := hescape c
  generalize escape c = w at hwritten
  cases hwritten with
  | plain hc => exact lexFrom_unescaped hquote hc text rest
  | escape he => exact lexFrom_escape he text rest

theorem readBack_quoteChar : ReadBack quoteChar :=
  readBack_of_standsFor standsFor_quoteChar

theorem readBack_slashChar : ReadBack slashChar :=
  readBack_of_standsFor standsFor_slashChar

variable {escape : Char → List Char}

theorem lexFrom_quoted (hescape : ReadBack escape) {quote : Char} (hquote : isQuote quote = true)
    (value text rest : List Char) :
    lexFrom (.quoted quote text) (value.flatMap escape ++ rest) =
      lexFrom (.quoted quote (text ++ value)) rest := by
  induction value generalizing text with
  | nil => simp
  | cons c cs ih =>
      rw [List.flatMap_cons, List.append_assoc, hescape quote hquote, ih, List.append_assoc,
        List.singleton_append]

/-- A literal ends at a quote that is not doubled. -/
theorem lexFrom_closing {quote : Char} {rest : List Char} (hrest : ∀ c ∈ rest.head?, c ≠ quote)
    (text : List Char) :
    lexFrom (.closing quote text) rest = (lex rest).map (.literal text :: ·) := by
  cases rest with
  | nil => rfl
  | cons c cs =>
      have hc : c ≠ quote := hrest c rfl
      cases hopens : isQuote c <;> simp [lex, lexFrom, hc, hopens, Function.comp_def]

/-- A value between quotes is one literal, if no quote follows. -/
theorem lex_literal (hescape : ReadBack escape) {rest : List Char}
    (hrest : ∀ c ∈ rest.head?, c ≠ '\'') (value : List Char) :
    lex ('\'' :: (value.flatMap escape ++ '\'' :: rest)) =
      (lex rest).map (.literal value :: ·) := by
  calc lex ('\'' :: (value.flatMap escape ++ '\'' :: rest))
      = lexFrom (.quoted '\'' []) (value.flatMap escape ++ '\'' :: rest) := rfl
    _ = lexFrom (.quoted '\'' value) ('\'' :: rest) := lexFrom_quoted hescape rfl _ _ _
    _ = lexFrom (.closing '\'' value) rest := rfl
    _ = (lex rest).map (.literal value :: ·) := lexFrom_closing hrest _

example : lex (fullQuote "it's\n").toList = some [.literal "it's\n".toList] := by
  decide +kernel

/-! ## Texts put together -/

/-- The text is read into the lexemes wherever it stands, if no quote follows. -/
def Lexes (text : List Char) (ls : List Lexeme) : Prop :=
  ∀ rest : List Char, (∀ c ∈ rest.head?, isQuote c = false) →
    lex (text ++ rest) = (lex rest).map (ls ++ ·)

namespace Lexes

variable {a b w : List Char} {ls ls' : List Lexeme}

theorem lex_eq (h : Lexes a ls) : lex a = some ls := by
  have hend := h [] (by simp)
  simpa [lex, lexFrom] using hend

/-- A text behind which no quote follows. -/
theorem append (ha : Lexes a ls) (hb : Lexes b ls') (hhead : ∀ c ∈ b.head?, isQuote c = false) :
    Lexes (a ++ b) (ls ++ ls') := by
  intro rest hrest
  have hbehind : ∀ c ∈ (b ++ rest).head?, isQuote c = false := by
    cases b with
    | nil => exact hrest
    | cons c cs => exact hhead
  rw [List.append_assoc, ha _ hbehind, hb rest hrest, Option.map_map]
  refine Option.map_congr fun rs _ => ?_
  simp

theorem of_quoteless (hw : Quoteless w) : Lexes w (chars w) :=
  fun rest _ => lex_append hw rest

/-- Behind a text without quotes anything may stand. -/
theorem behind (hw : Quoteless w) (ha : Lexes a ls) : Lexes (w ++ a) (chars w ++ ls) := by
  intro rest hrest
  rw [List.append_assoc, lex_append hw, ha rest hrest, Option.map_map]
  refine Option.map_congr fun rs _ => ?_
  simp

theorem of_literal (hescape : ReadBack escape) (value : List Char) :
    Lexes ('\'' :: (value.flatMap escape ++ ['\''])) [.literal value] := by
  intro rest hrest
  have hquote : ∀ c ∈ rest.head?, c ≠ '\'' := by
    rintro c hc rfl
    cases hrest '\'' hc
  simpa using lex_literal hescape hquote value

theorem of_fullQuote (value : String) :
    Lexes (fullQuote value).toList [.literal value.toList] := by
  have htext : (fullQuote value).toList = '\'' :: (value.toList.flatMap quoteChar ++ ['\'']) := by
    simp [fullQuote, quote]
  rw [htext]
  exact of_literal readBack_quoteChar _

theorem of_addSlashes (value : String) :
    Lexes ("'" ++ addSlashes value ++ "'").toList [.literal value.toList] := by
  have htext : ("'" ++ addSlashes value ++ "'").toList =
      '\'' :: (value.toList.flatMap slashChar ++ ['\'']) := by
    simp [addSlashes]
  rw [htext]
  exact of_literal readBack_slashChar _

/-- Texts with a separator without quotes between them. -/
theorem join {sep : String} (hsep : Quoteless sep.toList) (hne : sep ≠ "") {α : Type}
    {text : α → String} {lexemes : α → List Lexeme} {xs : List α}
    (hxs : ∀ x ∈ xs, Lexes (text x).toList (lexemes x)) :
    Lexes (Text.join sep (xs.map text)).toList
      ((chars sep.toList).intercalate (xs.map lexemes)) := by
  induction xs with
  | nil => exact of_quoteless (w := []) (by decide)
  | cons x xs ih =>
      have hx := hxs x List.mem_cons_self
      have hrest := ih fun y hy => hxs y (List.mem_cons_of_mem x hy)
      cases xs with
      | nil => simpa [Text.join] using hx
      | cons y ys =>
          -- The separator keeps a literal from touching what comes next.
          have hhead : ∀ c ∈ (sep.toList ++ (Text.join sep ((y :: ys).map text)).toList).head?,
              isQuote c = false := by
            cases hlist : sep.toList with
            | nil => exact absurd (String.toList_eq_nil_iff.1 hlist) hne
            | cons c cs =>
                rintro d hd
                cases hd
                exact hsep c (by simp [hlist])
          have hall := hx.append (hrest.behind hsep) hhead
          simp only [List.map_cons, Text.join, String.toList_append, List.append_assoc,
            List.intercalate_cons_cons] at hall ⊢
          exact hall

end Lexes

/-! ## Literals alone, and what is around them -/

/-- The texts of the literals, in their order. -/
def texts (ls : List Lexeme) : List String :=
  ls.filterMap Lexeme.text?

/-- What is around the literals. -/
def surroundings (ls : List Lexeme) : List Lexeme :=
  ls.map Lexeme.erase

theorem texts_append (ls ls' : List Lexeme) : texts (ls ++ ls') = texts ls ++ texts ls' :=
  List.filterMap_append

theorem texts_chars (w : List Char) : texts (chars w) = [] := by
  simp [texts, chars, Lexeme.text?]

theorem surroundings_append (ls ls' : List Lexeme) :
    surroundings (ls ++ ls') = surroundings ls ++ surroundings ls' :=
  List.map_append

theorem surroundings_chars (w : List Char) : surroundings (chars w) = chars w := by
  simp [surroundings, chars, Lexeme.erase]

/-- A separator adds no literal. -/
theorem texts_intercalate (w : List Char) (lists : List (List Lexeme)) :
    texts ((chars w).intercalate lists) = lists.flatMap texts := by
  rw [Chars.intercalate_hom rfl texts_append, texts_chars, Chars.nil_intercalate, List.flatMap_def]

theorem surroundings_intercalate (w : List Char) (lists : List (List Lexeme)) :
    surroundings ((chars w).intercalate lists) =
      (chars w).intercalate (lists.map surroundings) := by
  rw [Chars.intercalate_hom rfl surroundings_append, surroundings_chars]

end Literal
end ContentQuery
