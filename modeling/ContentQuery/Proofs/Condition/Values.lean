import Mathlib.Data.List.Basic
import ContentQuery.Condition.Compile
import ContentQuery.Proofs.Condition.Lexemes

/-!
# Values in compiled conditions

A condition whose operator compares with whole values is read back by the database: the literals of
its fragment are its values, in their order, and what stands around them is chosen by the field, the
operator, the negation and the places of NULL alone.
-/

namespace ContentQuery

open Literal (Lexeme Lexes Quoteless chars lex texts surroundings)

namespace Operator

/-- Whether a condition compares with each of its values as it is given. -/
def comparesWhole : Operator → Bool
  | oneOf | andGroup | orGroup | comparison _ => true
  | like | start | finish | fulltext | fulltextNatural => false

/-- What stands between the tests of a condition. -/
def separator : Operator → String
  | oneOf => ","
  | andGroup => " AND "
  | _ => " OR "

theorem quoteless_separator (op : Operator) : Quoteless op.separator.toList := by
  cases op <;> simp only [separator] <;> decide

theorem separator_ne_empty (op : Operator) : op.separator ≠ "" := by
  cases op <;> simp [separator]

end Operator

namespace Comparison

theorem quoteless_symbol (c : Comparison) : Quoteless c.symbol.toList := by
  cases c <;> decide

theorem quoteless_nullSymbol (c : Comparison) : Quoteless c.nullSymbol.toList := by
  cases c <;> decide

end Comparison

namespace Condition

/-! ## The values that are compared with -/

/-- The value that a comparison compares with; none is NULL. -/
def comparedValue? (value : String) : Option String :=
  if value = ConditionValue.emptyText then some ""
  else if value = ConditionValue.null then none
  else some value

/-- The values of a condition in their order; none is NULL. -/
def comparedValues (c : Condition) : List (Option String) :=
  match c.operator with
  | .comparison _ => c.value.texts.map comparedValue?
  | _ => c.value.items.map some

/-! ## What the database reads -/

/-- A value as the database reads it. -/
def operand : Option String → List Lexeme
  | some value => [.literal value.toList]
  | none => chars "NULL".toList

theorem texts_operand (value : Option String) : texts (operand value) = value.toList := by
  cases value with
  | none => exact Literal.texts_chars _
  | some value => simp [operand, texts, Lexeme.text?]

theorem surroundings_operand (value : Option String) :
    surroundings (operand value) = operand (value.map fun _ => "") := by
  cases value with
  | none => exact Literal.surroundings_chars _
  | some value => rfl

/-- The test for one value. -/
def test (field : String) (op : Operator) (value : Option String) : List Lexeme :=
  match op with
  | .comparison c =>
      chars (field ++ " " ++ (if value.isSome then c.symbol else c.nullSymbol) ++ " ").toList ++
        operand value
  | .andGroup | .orGroup =>
      chars "FIND_IN_SET(".toList ++ operand value ++ chars ("," ++ field ++ ")").toList
  | _ => operand value

/-- A condition on a field, negated or not, for values that are given. -/
def lexemes (field : String) (op : Operator) (negate : Bool) (values : List (Option String)) :
    List Lexeme :=
  let tests := (chars op.separator.toList).intercalate (values.map (test field op))
  match op with
  | .oneOf =>
      chars (field ++ (if negate then " NOT" else "") ++ " IN (").toList ++ tests ++ chars [')']
  | _ => if negate then chars "NOT (".toList ++ tests ++ chars [')'] else tests

theorem texts_test (field : String) (op : Operator) (value : Option String) :
    texts (test field op value) = value.toList := by
  cases op <;>
    simp only [test, Literal.texts_append, Literal.texts_chars, texts_operand, List.nil_append,
      List.append_nil]

theorem surroundings_test (field : String) (op : Operator) (value : Option String) :
    surroundings (test field op value) = test field op (value.map fun _ => "") := by
  cases op <;>
    simp only [test, Literal.surroundings_append, Literal.surroundings_chars,
      surroundings_operand, Option.isSome_map]

/-- The literals are the values. -/
theorem texts_lexemes (field : String) (op : Operator) (negate : Bool)
    (values : List (Option String)) :
    texts (lexemes field op negate values) = values.filterMap id := by
  have htests : texts ((chars op.separator.toList).intercalate (values.map (test field op))) =
      values.filterMap id := by
    calc texts ((chars op.separator.toList).intercalate (values.map (test field op)))
        = values.flatMap (fun value => texts (test field op value)) := by
          rw [Literal.texts_intercalate, List.flatMap_map]
      _ = values.flatMap Option.toList := List.flatMap_congr fun value _ => texts_test field op value
      _ = values.filterMap id := by
          rw [List.filterMap_eq_flatMap_toList]
          rfl
  cases op <;> cases negate <;>
    simp only [lexemes, Literal.texts_append, Literal.texts_chars, htests, List.nil_append,
      List.append_nil, if_true, Bool.false_eq_true, if_false]

/-- Around the literals there is nothing that comes from a value. -/
theorem surroundings_lexemes (field : String) (op : Operator) (negate : Bool)
    (values : List (Option String)) :
    surroundings (lexemes field op negate values) =
      lexemes field op negate (values.map (·.map fun _ => "")) := by
  have htests : surroundings
      ((chars op.separator.toList).intercalate (values.map (test field op))) =
        (chars op.separator.toList).intercalate
          ((values.map (·.map fun _ => "")).map (test field op)) := by
    rw [Literal.surroundings_intercalate, List.map_map, List.map_map]
    exact congrArg _ (List.map_congr_left fun value _ => surroundings_test field op value)
  cases op <;> cases negate <;>
    simp only [lexemes, Literal.surroundings_append, Literal.surroundings_chars, htests, if_true,
      Bool.false_eq_true, if_false]

/-- Which values are NULL is all that is seen of them from the outside. -/
theorem blanked_eq {values values' : List (Option String)}
    (h : values'.map Option.isSome = values.map Option.isSome) :
    values'.map (·.map fun _ => "") = values.map (·.map fun _ => "") := by
  have hblank : ∀ vs : List (Option String), vs.map (·.map fun _ => "") =
      (vs.map Option.isSome).map fun given => if given then some "" else none := by
    intro vs
    rw [List.map_map]
    refine List.map_congr_left fun value _ => ?_
    cases value <;> rfl
  rw [hblank, hblank, h]

/-! ## The fragments are read so -/

variable {field : String}

/-- A text in parentheses behind one without quotes. -/
theorem lexes_enclosed {front text : String} {ls : List Lexeme} (hfront : Quoteless front.toList)
    (h : Lexes text.toList ls) :
    Lexes (front ++ text ++ ")").toList (chars front.toList ++ ls ++ chars [')']) := by
  have hclosed : Lexes (text.toList ++ ")".toList) (ls ++ chars [')']) :=
    h.append (Lexes.of_quoteless (by decide)) (by decide)
  have hall := hclosed.behind hfront
  simpa only [String.toList_append, List.append_assoc] using hall

theorem lexes_comparisonTest (hfield : Quoteless field.toList) (c : Comparison) (value : String) :
    Lexes (comparisonTest field c value).toList
      (test field (.comparison c) (comparedValue? value)) := by
  have hspace : Quoteless " ".toList := by decide
  have hfront : ∀ symbol : String, Quoteless symbol.toList →
      Quoteless (field ++ " " ++ symbol ++ " ").toList := by
    intro symbol hsymbol
    simpa only [String.toList_append] using ((hfield.append hspace).append hsymbol).append hspace
  have hliteral : ∀ written : String,
      Lexes (field ++ " " ++ c.symbol ++ " " ++ Literal.fullQuote written).toList
        (test field (.comparison c) (some written)) := by
    intro written
    rw [String.toList_append]
    exact (Lexes.of_fullQuote written).behind (hfront _ c.quoteless_symbol)
  unfold comparisonTest comparedValue?
  split
  · -- The empty literal is written as it stands.
    have htext : field ++ " " ++ c.symbol ++ " ''" =
        field ++ " " ++ c.symbol ++ " " ++ Literal.fullQuote "" := by
      rw [← String.toList_inj]
      simp [Literal.fullQuote, Literal.quote]
    rw [htext]
    exact hliteral ""
  · split
    · have hnull : Lexes "NULL".toList (operand none) := Lexes.of_quoteless (by decide)
      have htext : field ++ " " ++ c.nullSymbol ++ " NULL" =
          field ++ " " ++ c.nullSymbol ++ " " ++ "NULL" := by
        rw [← String.toList_inj]
        simp
      rw [htext, String.toList_append]
      exact hnull.behind (hfront _ c.quoteless_nullSymbol)
    · exact hliteral value

theorem lexes_inList (hfield : Quoteless field.toList) (value : String) :
    Lexes (Literal.inList field value).toList
      (chars "FIND_IN_SET(".toList ++ operand (some value) ++
        chars ("," ++ field ++ ")").toList) := by
  have htail : Quoteless ("," ++ field ++ ")").toList := by
    have hcomma : Quoteless ",".toList := by decide
    have hclose : Quoteless ")".toList := by decide
    simpa only [String.toList_append] using (hcomma.append hfield).append hclose
  have hhead : ∀ c ∈ ("," ++ field ++ ")").toList.head?, Scan.isQuote c = false := by
    simp [Scan.isQuote]
  have hliteral : Lexes ((Literal.fullQuote value).toList ++ ("," ++ field ++ ")").toList)
      (operand (some value) ++ chars ("," ++ field ++ ")").toList) :=
    (Lexes.of_fullQuote value).append (Lexes.of_quoteless htail) hhead
  have hall := hliteral.behind (show Quoteless "FIND_IN_SET(".toList by decide)
  have htext : (Literal.inList field value).toList = "FIND_IN_SET(".toList ++
      ((Literal.fullQuote value).toList ++ ("," ++ field ++ ")").toList) := by
    -- The quotes of the value are written with the words around it.
    have hopen : "FIND_IN_SET('".toList = "FIND_IN_SET(".toList ++ "'".toList := by decide
    have hnext : "',".toList = "'".toList ++ ",".toList := by decide
    show ("FIND_IN_SET('" ++ Literal.quote value ++ "'," ++ field ++ ")").toList = _
    simp only [Literal.fullQuote, String.toList_append, hopen, hnext, List.append_assoc]
  rw [htext]
  simpa only [List.append_assoc] using hall

theorem lexes_negated (negate : Bool) {text : String} {ls : List Lexeme}
    (h : Lexes text.toList ls) :
    Lexes (negated negate text).toList
      (if negate then chars "NOT (".toList ++ ls ++ chars [')'] else ls) := by
  cases negate with
  | false => exact h
  | true => exact lexes_enclosed (by decide) h

/-- The tests of a condition, each for one value. -/
theorem lexes_tests (field : String) (op : Operator) {α : Type} {text : α → String}
    (value : α → Option String)
    (htest : ∀ x, Lexes (text x).toList (test field op (value x))) (xs : List α) :
    Lexes (Text.join op.separator (xs.map text)).toList
      ((chars op.separator.toList).intercalate ((xs.map value).map (test field op))) := by
  rw [List.map_map]
  exact Lexes.join op.quoteless_separator op.separator_ne_empty fun x _ => htest x

/-- The compiled fragment of a condition that compares with whole values. -/
theorem lexes_compile {target : ConditionTarget} {c : Condition}
    (hfield : Quoteless target.field.toList) (hoperator : c.operator.comparesWhole = true)
    (hall : c.value.isAll = false) (schema : Schema) (minLength : Nat) :
    ∃ fragment, c.compile schema minLength target = .ok fragment ∧
      Lexes fragment.toList (lexemes target.field c.operator c.negate c.comparedValues) := by
  rcases c with ⟨op, value, negate⟩
  simp only at hoperator hall
  simp only [compile, comparedValues, hall, Bool.false_eq_true, if_false]
  -- IN is negated by a word of its own; the tests of the other operators are negated as a whole.
  cases op with
  | oneOf =>
      refine ⟨_, rfl, ?_⟩
      have htests := lexes_tests target.field .oneOf some Lexes.of_fullQuote value.items
      have hfront : Quoteless
          (target.field ++ (if negate then " NOT" else "") ++ " IN (").toList := by
        have hnot : Quoteless (if negate then " NOT" else "").toList := by
          cases negate <;> decide
        have hin : Quoteless " IN (".toList := by decide
        simpa only [String.toList_append] using (hfield.append hnot).append hin
      exact lexes_enclosed hfront htests
  | andGroup =>
      exact ⟨_, rfl, lexes_negated negate
        (lexes_tests target.field .andGroup some (lexes_inList hfield) value.items)⟩
  | orGroup =>
      exact ⟨_, rfl, lexes_negated negate
        (lexes_tests target.field .orGroup some (lexes_inList hfield) value.items)⟩
  | comparison op =>
      exact ⟨_, rfl, lexes_negated negate
        (lexes_tests target.field (.comparison op) _ (lexes_comparisonTest hfield op) value.texts)⟩
  | like | start | finish | fulltext | fulltextNatural => cases hoperator

/-! ## The values come back -/

/-- The database reads the fragment of a condition with no literal open, and its literals are the
values.  Another condition on the field with the same operator and negation, with as many values and
NULL in the same places, differs in its literals alone. -/
theorem values_of_compile {target : ConditionTarget} {c : Condition}
    (hfield : Quoteless target.field.toList) (hoperator : c.operator.comparesWhole = true)
    (hall : c.value.isAll = false) (schema : Schema) (minLength : Nat) :
    ∃ fragment ls, c.compile schema minLength target = .ok fragment ∧
      lex fragment.toList = some ls ∧
      texts ls = c.comparedValues.filterMap id ∧
      ∀ (schema' : Schema) (minLength' : Nat) (target' : ConditionTarget) (c' : Condition),
        target'.field = target.field → c'.operator = c.operator → c'.negate = c.negate →
        c'.value.isAll = false →
        c'.comparedValues.map Option.isSome = c.comparedValues.map Option.isSome →
        ∃ fragment' ls', c'.compile schema' minLength' target' = .ok fragment' ∧
          lex fragment'.toList = some ls' ∧ surroundings ls' = surroundings ls := by
  obtain ⟨fragment, hcompile, hlexes⟩ := lexes_compile hfield hoperator hall schema minLength
  refine ⟨fragment, _, hcompile, hlexes.lex_eq, texts_lexemes _ _ _ _, ?_⟩
  intro schema' minLength' target' c' hfield' hoperator' hnegate' hall' hplaces
  obtain ⟨fragment', hcompile', hlexes'⟩ :=
    lexes_compile (hfield' ▸ hfield) (hoperator' ▸ hoperator) hall' schema' minLength'
  refine ⟨fragment', _, hcompile', hlexes'.lex_eq, ?_⟩
  rw [surroundings_lexemes, surroundings_lexemes, blanked_eq hplaces, hfield', hoperator', hnegate']

/-- Not one of some names, one of which ends in a backslash. -/
def unlikeNames : Condition where
  operator := .comparison .notEqual
  value := .list ["it's", ConditionValue.emptyText, ConditionValue.null, "a\"\n\x00\\"]
  negate := true

/-- Not one of some plain names, or nothing, or NULL. -/
def unlikePlainNames : Condition where
  operator := .comparison .notEqual
  value := .list ["a", "b", ConditionValue.null, "c"]
  negate := true

/-- Quotes and backslashes come back, and around them the fragment is that of plain names. -/
theorem values_of_unlikeNames :
    let target : ConditionTarget := ⟨"n.title", "news", "n"⟩
    Quoteless target.field.toList ∧ unlikeNames.operator.comparesWhole = true ∧
      unlikeNames.value.isAll = false ∧
      ∃ fragment ls fragment' ls', unlikeNames.compile .empty 4 target = .ok fragment ∧
        lex fragment.toList = some ls ∧ texts ls = ["it's", "", "a\"\n\x00\\"] ∧
        unlikePlainNames.compile .empty 4 target = .ok fragment' ∧
        lex fragment'.toList = some ls' ∧ surroundings ls' = surroundings ls := by
  intro target
  have hfield : Quoteless target.field.toList := by decide
  have hall : unlikeNames.value.isAll = false := by decide
  obtain ⟨fragment, ls, hcompile, hlex, htexts, hsame⟩ :=
    values_of_compile (c := unlikeNames) hfield rfl hall .empty 4
  obtain ⟨fragment', ls', hcompile', hlex', hsurroundings⟩ :=
    hsame .empty 4 target unlikePlainNames rfl rfl rfl (by decide) (by decide)
  have hvalues : unlikeNames.comparedValues.filterMap id = ["it's", "", "a\"\n\x00\\"] := by
    decide
  exact ⟨hfield, rfl, hall, fragment, ls, fragment', ls', hcompile, hlex, htexts.trans hvalues,
    hcompile', hlex', hsurroundings⟩

end Condition
end ContentQuery
