import Mathlib.Data.List.Forall2
import Mathlib.Data.List.Infix
import ContentQuery.Proofs.Condition.Values

/-!
# LIKE patterns

The database reads the pattern of a LIKE test as a sequence of wilds: a percent sign stands for any
text, an underscore for any one character, and a backslash takes the wildcard out of the character
behind it.  At the end of a pattern, where it has nothing to escape, it stands for itself.

The pattern of a LIKE condition finds exactly its value, wildcards and quotes in it included, unless
the value has a backslash: backslashes are not escaped for LIKE, so one is lost, or frees the
wildcard behind it.
-/

namespace ContentQuery
namespace Literal

/-! ## Reading and matching -/

/-- A piece of a LIKE pattern. -/
inductive Wild where
  | char (c : Char)
  /-- Any one character. -/
  | one
  /-- Any text. -/
  | many
deriving DecidableEq, Repr

namespace Wild

/-- The piece that a character is when no backslash stands before it. -/
def ofChar (c : Char) : Wild :=
  if c = '%' then many else if c = '_' then one else char c

/-- The shortest text that a piece stands for. -/
def shortest : Wild → List Char
  | char c => [c]
  | one => ['a']
  | many => []

theorem ofChar_of_plain {c : Char} (hc : ¬ (c = '%' ∨ c = '_')) : ofChar c = char c := by
  rw [not_or] at hc
  rw [ofChar, if_neg hc.1, if_neg hc.2]

end Wild

/-- The pieces of a pattern; `escaped` tells that a backslash was read before it. -/
def wildsFrom : (escaped : Bool) → List Char → List Wild
  | false, [] => []
  | true, [] => [.char '\\']
  | true, c :: cs => .char c :: wildsFrom false cs
  | false, c :: cs => if c = '\\' then wildsFrom true cs else .ofChar c :: wildsFrom false cs

/-- The text is one that the pieces stand for. -/
def Matches : List Wild → List Char → Prop
  | [], s => s = []
  | .many :: ws, s => ∃ rest ∈ s.tails, Matches ws rest
  | _ :: _, [] => False
  | .one :: ws, _ :: cs => Matches ws cs
  | .char d :: ws, c :: cs => c = d ∧ Matches ws cs

/-- LIKE, with texts compared exactly. -/
def Likes (s pattern : String) : Prop :=
  Matches (wildsFrom false pattern.toList) s.toList

instance decidableMatches : (ws : List Wild) → (s : List Char) → Decidable (Matches ws s)
  | [], s => inferInstanceAs (Decidable (s = []))
  | .many :: ws, s =>
      have : DecidablePred (Matches ws) := decidableMatches ws
      inferInstanceAs (Decidable (∃ rest ∈ s.tails, Matches ws rest))
  | .one :: _, [] => isFalse id
  | .char _ :: _, [] => isFalse id
  | .one :: ws, _ :: cs => decidableMatches ws cs
  | .char d :: ws, c :: cs =>
      have := decidableMatches ws cs
      inferInstanceAs (Decidable (c = d ∧ Matches ws cs))

instance (s pattern : String) : Decidable (Likes s pattern) :=
  decidableMatches _ _

/-! ## What pieces match -/

theorem matches_many (ws : List Wild) (s : List Char) :
    Matches (.many :: ws) s ↔ ∃ rest, rest <:+ s ∧ Matches ws rest := by
  simp [Matches]

theorem matches_rest (s : List Char) : Matches [.many] s :=
  (matches_many [] s).2 ⟨[], List.nil_suffix, rfl⟩

/-- Characters stand for themselves. -/
theorem matches_chars (v : List Char) (ws : List Wild) (s : List Char) :
    Matches (v.map .char ++ ws) s ↔ ∃ rest, s = v ++ rest ∧ Matches ws rest := by
  induction v generalizing s with
  | nil => simp
  | cons d v ih =>
      cases s with
      | nil => simp [Matches]
      | cons c cs => simp [Matches, ih, and_assoc]

theorem matches_front (v s : List Char) : Matches (v.map .char ++ [.many]) s ↔ v <+: s := by
  rw [matches_chars]
  constructor
  · rintro ⟨rest, rfl, -⟩
    exact List.prefix_append v rest
  · rintro ⟨rest, rfl⟩
    exact ⟨rest, rfl, matches_rest rest⟩

theorem matches_end (v s : List Char) : Matches (.many :: v.map .char) s ↔ v <:+ s := by
  have hexact : ∀ rest : List Char, Matches (v.map .char) rest ↔ rest = v := by
    intro rest
    simpa [Matches] using matches_chars v [] rest
  simp [matches_many, hexact]

theorem matches_anywhere (v s : List Char) :
    Matches (.many :: (v.map .char ++ [.many])) s ↔ v <:+: s := by
  simp only [matches_many, matches_front]
  constructor
  · rintro ⟨rest, hend, hfront⟩
    exact hfront.isInfix.trans hend.isInfix
  · intro h
    obtain ⟨front, back, rfl⟩ := h
    exact ⟨v ++ back, ⟨front, by simp⟩, List.prefix_append v back⟩

/-- Some text is always found: each piece by the shortest text that it stands for. -/
theorem matches_shortest (ws : List Wild) : Matches ws (ws.flatMap Wild.shortest) := by
  induction ws with
  | nil => rfl
  | cons w ws ih =>
      cases w with
      | char c => exact ⟨rfl, ih⟩
      | one => exact ih
      | many => exact (matches_many ws _).2 ⟨_, List.suffix_refl _, ih⟩

/-! ## Escaped values -/

section Escaped

variable {c : Char} {tail : List Char}

/-- An escaped wildcard is a character. -/
theorem wildsFrom_wildcard (hc : c = '%' ∨ c = '_') (rest : List Char) :
    wildsFrom false (likeChar c ++ rest) = .char c :: wildsFrom false rest := by
  simp [likeChar, hc, wildsFrom]

/-- A backslash of the value uses up the one that should escape the wildcard behind it. -/
theorem wildsFrom_freed (hc : c = '%' ∨ c = '_') (rest : List Char) :
    wildsFrom true (likeChar c ++ rest) = .char '\\' :: .ofChar c :: wildsFrom false rest := by
  rcases hc with rfl | rfl <;> simp [likeChar, wildsFrom]

theorem wildsFrom_backslash (rest : List Char) :
    wildsFrom false (likeChar '\\' ++ rest) = wildsFrom true rest := by
  simp [likeChar, wildsFrom]

theorem wildsFrom_plain (hc : ¬ (c = '%' ∨ c = '_')) (hslash : c ≠ '\\') (rest : List Char) :
    wildsFrom false (likeChar c ++ rest) = .char c :: wildsFrom false rest := by
  simp [likeChar, hc, wildsFrom, hslash, Wild.ofChar_of_plain hc]

/-- A backslash of the value is lost in front of any other character. -/
theorem wildsFrom_lost (hc : ¬ (c = '%' ∨ c = '_')) (rest : List Char) :
    wildsFrom true (likeChar c ++ rest) = .char c :: wildsFrom false rest := by
  simp [likeChar, hc, wildsFrom]

/-- The end of a pattern: nothing, or any text. -/
def IsTail (tail : List Char) : Prop :=
  tail = [] ∨ tail = ['%']

/-- Without a backslash the pieces of an escaped value are its characters.  A backslash at the very
end of the pattern does no harm. -/
theorem wildsFrom_escaped {value : List Char} (hvalue : '\\' ∉ (value ++ tail).dropLast) :
    wildsFrom false (value.flatMap likeChar ++ tail) =
      value.map .char ++ wildsFrom false tail := by
  induction value with
  | nil => simp
  | cons c cs ih =>
      rw [List.flatMap_cons, List.append_assoc, List.map_cons, List.cons_append]
      -- A backslash may end the value, where nothing follows that it could escape.
      by_cases hend : cs ++ tail = []
      · obtain ⟨rfl, rfl⟩ := List.append_eq_nil_iff.1 hend
        by_cases hwild : c = '%' ∨ c = '_'
        · exact wildsFrom_wildcard hwild []
        · by_cases hc : c = '\\'
          · rw [hc, List.flatMap_nil, List.append_nil, wildsFrom_backslash]
            rfl
          · exact wildsFrom_plain hwild hc []
      · rw [List.cons_append, List.dropLast_cons_of_ne_nil hend, List.mem_cons, not_or] at hvalue
        have hc : c ≠ '\\' := fun h => hvalue.1 h.symm
        by_cases hwild : c = '%' ∨ c = '_'
        · rw [wildsFrom_wildcard hwild, ih hvalue.2]
        · rw [wildsFrom_plain hwild hc, ih hvalue.2]

/-- A backslash that was read and has not been used. -/
def pending (escaped : Bool) : List Char :=
  if escaped then ['\\'] else []

/-- The shortest text that a pattern finds. -/
def shortestFrom (escaped : Bool) (pattern : List Char) : List Char :=
  (wildsFrom escaped pattern).flatMap Wild.shortest

theorem not_mem_dropLast_cons (hc : c ≠ '\\') {rest : List Char} (h : '\\' ∉ rest.dropLast) :
    '\\' ∉ (c :: rest).dropLast := by
  cases rest with
  | nil => simp
  | cons d ds =>
      rw [List.dropLast_cons_of_ne_nil (List.cons_ne_nil d ds), List.mem_cons, not_or]
      exact ⟨fun h' => hc h'.symm, h⟩

/-- With a backslash pending in front of it a value is not found as it is: a character is lost, or
a wildcard is freed. -/
theorem shortestFrom_pending {cs : List Char}
    (hlength : (shortestFrom false (cs.flatMap likeChar ++ tail)).length ≤ cs.length) :
    let found := shortestFrom true ((c :: cs).flatMap likeChar ++ tail)
    found.length ≤ ('\\' :: c :: cs).length ∧ found ≠ '\\' :: c :: cs := by
  intro found
  by_cases hwild : c = '%' ∨ c = '_'
  · have hfound : found = '\\' :: ((Wild.ofChar c).shortest ++
        shortestFrom false (cs.flatMap likeChar ++ tail)) := by
      simp only [found, shortestFrom, List.flatMap_cons, List.append_assoc,
        wildsFrom_freed hwild]
      rfl
    have hone : (Wild.ofChar c).shortest.length ≤ 1 := by
      rcases hwild with rfl | rfl <;> decide
    rw [hfound]
    constructor
    · simp only [List.length_cons, List.length_append]
      omega
    · intro heq
      have hrest := (List.cons.inj heq).2
      rcases hwild with rfl | rfl
      · -- The percent sign may stand for nothing.
        have hsame := congrArg List.length hrest
        simp only [Wild.ofChar, if_true, Wild.shortest, List.nil_append, List.length_cons] at hsame
        omega
      · have hhead : 'a' = '_' := (List.cons.inj hrest).1
        exact absurd hhead (by decide)
  · have hfound : found = c :: shortestFrom false (cs.flatMap likeChar ++ tail) := by
      simp only [found, shortestFrom, List.flatMap_cons, List.append_assoc, wildsFrom_lost hwild]
      rfl
    rw [hfound]
    refine ⟨Nat.succ_le_succ (Nat.le_succ_of_le hlength), fun heq => ?_⟩
    have hsame := congrArg List.length heq
    simp only [List.length_cons] at hsame
    omega

/-- The shortest text that the pattern of a value finds is no longer than the value, and it is the
value only if there is no backslash in it, but for the very end of the pattern. -/
theorem shortestFrom_escaped (htail : IsTail tail) (value : List Char) (escaped : Bool) :
    let found := shortestFrom escaped (value.flatMap likeChar ++ tail)
    let given := pending escaped ++ value
    found.length ≤ given.length ∧ (found = given → '\\' ∉ (given ++ tail).dropLast) := by
  induction value generalizing escaped with
  | nil => rcases htail with rfl | rfl <;> cases escaped <;> decide
  | cons c cs ih =>
      obtain ⟨hlength, hrest⟩ := ih false
      intro found given
      cases escaped with
      | true =>
          obtain ⟨hle, hne⟩ := shortestFrom_pending (c := c) hlength
          exact ⟨hle, fun heq => absurd heq hne⟩
      | false =>
          by_cases hc : c = '\\'
          · -- The backslash is pending in front of what is behind it.
            subst hc
            have hfound : found = shortestFrom true (cs.flatMap likeChar ++ tail) := by
              simp only [found, shortestFrom, List.flatMap_cons, List.append_assoc,
                wildsFrom_backslash]
            rw [hfound]
            exact ih true
          · have hfound : found = c :: shortestFrom false (cs.flatMap likeChar ++ tail) := by
              by_cases hwild : c = '%' ∨ c = '_'
              · simp only [found, shortestFrom, List.flatMap_cons, List.append_assoc,
                  wildsFrom_wildcard hwild]
                rfl
              · simp only [found, shortestFrom, List.flatMap_cons, List.append_assoc,
                  wildsFrom_plain hwild hc]
                rfl
            rw [hfound]
            exact ⟨Nat.succ_le_succ hlength,
              fun heq => not_mem_dropLast_cons hc (hrest (List.cons.inj heq).2)⟩

end Escaped

end Literal

/-! ## Operators -/

open Literal (Lexeme Lexes Quoteless IsTail Likes chars lex likeChar shortestFrom texts wildsFrom)

namespace Operator

/-- Whether a condition looks for its values in the column. -/
def isLike : Operator → Bool
  | like | start | finish => true
  | _ => false

/-- What stands in front of the value in a pattern. -/
def lead : Operator → List Char
  | start => []
  | _ => ['%']

/-- What stands behind the value in a pattern. -/
def trail : Operator → List Char
  | finish => []
  | _ => ['%']

/-- The pattern for a value. -/
def pattern (op : Operator) (value : String) : String :=
  String.ofList (op.lead ++ (value.toList.flatMap likeChar ++ op.trail))

/-- What an operator looks for: the value anywhere, in front or at the end. -/
def Finds (op : Operator) (value s : String) : Prop :=
  match op with
  | start => value.toList <+: s.toList
  | finish => value.toList <:+ s.toList
  | _ => value.toList <:+: s.toList

instance (op : Operator) (value s : String) : Decidable (op.Finds value s) := by
  unfold Finds
  split <;> infer_instance

/-- The value has no backslash that its pattern takes for an escape: at the end of a pattern there
is nothing to escape. -/
def Verbatim (op : Operator) (value : String) : Prop :=
  match op with
  | finish => '\\' ∉ value.toList.dropLast
  | _ => '\\' ∉ value.toList

instance (op : Operator) (value : String) : Decidable (op.Verbatim value) := by
  unfold Verbatim
  split <;> infer_instance

theorem isTail_trail (op : Operator) : IsTail op.trail := by
  cases op <;> simp [IsTail, trail]

theorem verbatim_iff (op : Operator) (value : String) :
    op.Verbatim value ↔ '\\' ∉ (value.toList ++ op.trail).dropLast := by
  cases op <;> simp [Verbatim, trail]

/-- What is looked for is no shorter than the value. -/
theorem Finds.eq_of_length_le {op : Operator} {value s : String} (h : op.Finds value s)
    (hle : s.toList.length ≤ value.toList.length) : s.toList = value.toList := by
  have hwithin : value.toList <:+: s.toList := by
    cases op with
    | start => exact List.IsPrefix.isInfix h
    | finish => exact List.IsSuffix.isInfix h
    | _ => exact h
  exact (hwithin.eq_of_length_le hle).symm

/-- Pieces in front of a pattern are any text, if there are any. -/
theorem wildsFrom_lead (op : Operator) (rest : List Char) :
    wildsFrom false (op.lead ++ rest) =
      wildsFrom false op.lead ++ wildsFrom false rest := by
  cases op <;> rfl

theorem shortest_lead (op : Operator) :
    (wildsFrom false op.lead).flatMap Literal.Wild.shortest = [] := by
  cases op <;> rfl

/-- A value that is verbatim is found where the operator looks for it. -/
theorem likes_pattern_of_verbatim {op : Operator} (hop : op.isLike = true) {value : String}
    (h : op.Verbatim value) (s : String) : Likes s (op.pattern value) ↔ op.Finds value s := by
  have hwilds := Literal.wildsFrom_escaped ((op.verbatim_iff value).1 h)
  rw [Likes, pattern, String.toList_ofList, wildsFrom_lead, hwilds]
  cases op with
  | like => exact Literal.matches_anywhere _ _
  | start => exact Literal.matches_front _ _
  | finish =>
      have hend : wildsFrom false (trail .finish) = [] := rfl
      rw [hend, List.append_nil]
      exact Literal.matches_end _ _
  | oneOf | andGroup | orGroup | fulltext | fulltextNatural | comparison _ => cases hop

/-- The pattern means what the operator means exactly if the value is verbatim. -/
theorem likes_pattern_iff {op : Operator} (hop : op.isLike = true) (value : String) :
    (∀ s : String, Likes s (op.pattern value) ↔ op.Finds value s) ↔ op.Verbatim value := by
  refine ⟨fun h => ?_, likes_pattern_of_verbatim hop⟩
  -- The shortest text that is found has the value in it, and so it is the value.
  have hfound : Likes (String.ofList (shortestFrom false
      (value.toList.flatMap likeChar ++ op.trail))) (op.pattern value) := by
    have hmatches := Literal.matches_shortest
      (wildsFrom false (op.lead ++ (value.toList.flatMap likeChar ++ op.trail)))
    rw [wildsFrom_lead, List.flatMap_append, shortest_lead, List.nil_append,
      ← wildsFrom_lead] at hmatches
    rw [Likes, pattern, String.toList_ofList, String.toList_ofList]
    exact hmatches
  obtain ⟨hlength, hverbatim⟩ := Literal.shortestFrom_escaped op.isTail_trail value.toList false
  have heq := ((h _).1 hfound).eq_of_length_le (by rwa [String.toList_ofList])
  rw [String.toList_ofList] at heq
  exact (op.verbatim_iff value).2 (hverbatim heq)

end Operator

namespace Condition

variable {field : String}

/-- A condition that looks for patterns in a field, as the database reads it. -/
def likeLexemes (field : String) (negate : Bool) (patterns : List String) : List Lexeme :=
  let tests := (chars " OR ".toList).intercalate
    (patterns.map fun pattern => chars (field ++ " LIKE ").toList ++ [.literal pattern.toList])
  if negate then chars "NOT (".toList ++ tests ++ chars [')'] else tests

theorem likeTest_eq {op : Operator} (hop : op.isLike = true) (field value : String) :
    likeTest field op value = field ++ " LIKE " ++ Literal.fullQuote (op.pattern value) := by
  have hpattern : ∀ front back : String,
      front ++ Literal.escapeLike value ++ back =
        String.ofList (front.toList ++ (value.toList.flatMap likeChar ++ back.toList)) := by
    intro front back
    rw [← String.toList_inj]
    simp [Literal.escapeLike]
  have htest : ∀ pattern : String, pattern = op.pattern value →
      field ++ " LIKE " ++ Literal.fullQuote pattern =
        field ++ " LIKE " ++ Literal.fullQuote (op.pattern value) := by
    rintro _ rfl
    rfl
  -- The three kinds differ in the ends at which the pattern is open.
  cases op with
  | like => exact htest _ (hpattern "%" "%")
  | start =>
      have h := hpattern "" "%"
      rw [String.empty_append] at h
      exact htest _ h
  | finish =>
      have h := hpattern "%" ""
      rw [String.append_empty] at h
      exact htest _ h
  | oneOf | andGroup | orGroup | fulltext | fulltextNatural | comparison _ => cases hop

theorem lexes_likeTest (hfield : Quoteless field.toList) {op : Operator} (hop : op.isLike = true)
    (value : String) :
    Lexes (likeTest field op value).toList
      (chars (field ++ " LIKE ").toList ++ [.literal (op.pattern value).toList]) := by
  have hfront : Quoteless (field ++ " LIKE ").toList := by
    have hlike : Quoteless " LIKE ".toList := by decide
    simpa only [String.toList_append] using hfield.append hlike
  rw [likeTest_eq hop, String.toList_append]
  exact (Lexes.of_fullQuote _).behind hfront

/-- The compiled fragment of a condition that looks for its values. -/
theorem lexes_compile_like {target : ConditionTarget} {c : Condition}
    (hfield : Quoteless target.field.toList) (hoperator : c.operator.isLike = true)
    (hall : c.value.isAll = false) (schema : Schema) (minLength : Nat) :
    ∃ fragment, c.compile schema minLength target = .ok fragment ∧
      Lexes fragment.toList
        (likeLexemes target.field c.negate (c.value.texts.map c.operator.pattern)) := by
  have hor : Quoteless " OR ".toList := by decide
  have htests := Lexes.join hor (by decide)
    fun value (_ : value ∈ c.value.texts) => lexes_likeTest hfield hoperator value
  have hnegated := lexes_negated c.negate htests
  rw [likeLexemes, List.map_map]
  refine ⟨_, ?_, hnegated⟩
  rw [compile, if_neg (by simp [hall])]
  cases hop : c.operator with
  | like | start | finish => rfl
  | oneOf | andGroup | orGroup | fulltext | fulltextNatural | comparison _ =>
      rw [hop] at hoperator
      cases hoperator

/-! ## What a condition finds -/

/-- The database reads a LIKE condition as one test for each value, and the pattern of a value means
that the value is looked for as it is, exactly if it has no backslash that is taken for an escape. -/
theorem patterns_of_compile {target : ConditionTarget} {c : Condition}
    (hfield : Quoteless target.field.toList) (hoperator : c.operator.isLike = true)
    (hall : c.value.isAll = false) (schema : Schema) (minLength : Nat) :
    ∃ fragment patterns, c.compile schema minLength target = .ok fragment ∧
      lex fragment.toList = some (likeLexemes target.field c.negate patterns) ∧
      List.Forall₂ (fun value pattern =>
        (∀ s : String, Likes s pattern ↔ c.operator.Finds value s) ↔ c.operator.Verbatim value)
        c.value.texts patterns := by
  obtain ⟨fragment, hcompile, hlexes⟩ := lexes_compile_like hfield hoperator hall schema minLength
  refine ⟨fragment, _, hcompile, hlexes.lex_eq, ?_⟩
  rw [List.forall₂_map_right_iff, List.forall₂_same]
  exact fun value _ => Operator.likes_pattern_iff hoperator value

/-- A discount that ends in a wildcard, in quotes, or a folder. -/
def discounts : Condition where
  operator := .finish
  value := .list ["50%_", "it's \"half\"", "C:\\temp", "C:\\"]
  negate := true

/-- Wildcards, quotes and a last backslash are found as they are, another backslash is not. -/
theorem patterns_of_discounts :
    let target : ConditionTarget := ⟨"n.title", "news", "n"⟩
    Quoteless target.field.toList ∧ discounts.operator.isLike = true ∧
      discounts.value.isAll = false ∧
      ∃ fragment sale half folder root, discounts.compile .empty 4 target = .ok fragment ∧
        lex fragment.toList = some (likeLexemes "n.title" true [sale, half, folder, root]) ∧
        (∀ s : String, Likes s sale ↔ "50%_".toList <:+ s.toList) ∧
        (∀ s : String, Likes s half ↔ "it's \"half\"".toList <:+ s.toList) ∧
        ¬ (∀ s : String, Likes s folder ↔ "C:\\temp".toList <:+ s.toList) ∧
        (∀ s : String, Likes s root ↔ "C:\\".toList <:+ s.toList) := by
  intro target
  have hfield : Quoteless target.field.toList := by decide
  have hall : discounts.value.isAll = false := by decide
  obtain ⟨fragment, patterns, hcompile, hlex, hmeaning⟩ :=
    patterns_of_compile (c := discounts) hfield rfl hall .empty 4
  change List.Forall₂ _ ["50%_", "it's \"half\"", "C:\\temp", "C:\\"] patterns at hmeaning
  rcases hmeaning with _ | ⟨hsale, _ | ⟨hhalf, _ | ⟨hfolder, _ | ⟨hroot, _ | _⟩⟩⟩⟩
  have hverbatim : ∀ value : String, value ∈ ["50%_", "it's \"half\"", "C:\\"] →
      Operator.finish.Verbatim value := by
    decide
  have hescape : ¬ Operator.finish.Verbatim "C:\\temp" := by decide
  exact ⟨hfield, rfl, hall, fragment, _, _, _, _, hcompile, hlex,
    hsale.2 (hverbatim _ (by decide)), hhalf.2 (hverbatim _ (by decide)),
    fun h => hescape (hfolder.1 h), hroot.2 (hverbatim _ (by decide))⟩

/-- A backslash and a percent sign, wherever they stand. -/
def slashedPercent : Condition where
  operator := .like
  value := .single "\\%"
  negate := false

/-- The wildcard behind a backslash is not escaped: a lone backslash is found, though it has no
percent sign behind it. -/
theorem backslash_frees_wildcard :
    ∃ fragment pattern, slashedPercent.compile .empty 4 ⟨"n.title", "news", "n"⟩ = .ok fragment ∧
      lex fragment.toList = some (likeLexemes "n.title" false [pattern]) ∧
      Likes "\\" pattern ∧ ¬ slashedPercent.operator.Finds "\\%" "\\" := by
  refine ⟨"n.title LIKE '%\\\\\\\\%%'", "%\\\\%%", ?_⟩
  refine ⟨rfl, ?_, ?_, ?_⟩ <;> decide +kernel

end Condition
end ContentQuery
