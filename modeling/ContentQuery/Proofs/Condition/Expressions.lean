import ContentQuery.Proofs.Condition.Closed
import ContentQuery.Proofs.Condition.Patterns

/-!
# Compiled conditions as expressions

The fragment of a condition is a test, a chain of tests, a negation of these, or nothing, if nothing
is restricted.  It is none of them where there is no value to test and the parentheses are written
all the same: `IN ()` for a list without members, and `NOT ()`.
-/

namespace ContentQuery
namespace Condition

open Literal (Lexeme Lexes Quoteless chars chars_append lex)
open Scan (Ordinary)

/-! ## Expressions -/

/-- The words between a field and the operand that it is compared with. -/
def relations : List String :=
  ["=", "<>", "!=", ">", ">=", "<", "<=", "IS", "LIKE"]

/-- A test on a field, or a search. -/
inductive IsTest (field : String) : List Lexeme → Prop where
  | comparison {relation : String} {value : Option String} (h : relation ∈ relations) :
      IsTest field (chars (field ++ " " ++ relation ++ " ").toList ++ operand value)
  | member {value : Option String} :
      IsTest field (chars "FIND_IN_SET(".toList ++ operand value ++
        chars ("," ++ field ++ ")").toList)
  | listed {values : List (Option String)} (negate : Bool) (h : values ≠ []) :
      IsTest field (chars (field ++ (if negate then " NOT" else "") ++ " IN (").toList ++
        (chars ",".toList).intercalate (values.map operand) ++ chars [')'])
  | search {columns terms : String} (negate natural : Bool) (h : Ordinary columns.toList) :
      IsTest field (chars ((if negate then "NOT " else "") ++ "MATCH(" ++ columns ++
        ") AGAINST(").toList ++ [.literal terms.toList] ++
        chars ((if natural then "" else " IN BOOLEAN MODE") ++ ")").toList)

/-- A chain of tests, or the negation of an expression. -/
inductive IsExpression (field : String) : List Lexeme → Prop where
  | chain {connective : String} {tests : List (List Lexeme)}
      (hconnective : connective ∈ [" AND ", " OR "]) (hne : tests ≠ [])
      (htests : ∀ test ∈ tests, IsTest field test) :
      IsExpression field ((chars connective.toList).intercalate tests)
  | negation {ls : List Lexeme} (h : IsExpression field ls) :
      IsExpression field (chars "NOT (".toList ++ ls ++ chars [')'])

theorem IsExpression.of_test {field : String} {ls : List Lexeme} (h : IsTest field ls) :
    IsExpression field ls := by
  have hor : " OR " ∈ [" AND ", " OR "] := by simp
  have hchain := IsExpression.chain hor (List.cons_ne_nil ls []) (List.forall_mem_singleton.2 h)
  rwa [List.intercalate_singleton] at hchain

/-- Somewhere outside literals the parentheses of a list or of a negation have nothing in them. -/
def Hollow (ls : List Lexeme) : Prop :=
  ∃ word ∈ ["IN ()", "NOT ()"], chars word.toList <:+: ls

theorem not_hollow_nil : ¬ Hollow [] := by
  rintro ⟨word, hword, hpart⟩
  have hne : ∀ word ∈ ["IN ()", "NOT ()"], chars word.toList ≠ [] := by decide
  exact hne word hword (List.infix_nil.1 hpart)

/-! ## Gaps -/

/-- What was read last, as far as it takes part in empty parentheses behind a space. -/
inductive Gap where
  | other
  | space
  | opened
deriving DecidableEq, Repr

/-- Reading fails at empty parentheses behind a space. -/
def Gap.next? : Gap → Lexeme → Option Gap
  | .opened, .char ')' => none
  | .space, .char '(' => some .opened
  | _, .char ' ' => some .space
  | _, _ => some .other

theorem Gap.foldlM_hollow {word : String} (h : word ∈ ["IN ()", "NOT ()"]) (gap : Gap) :
    (chars word.toList).foldlM next? gap = none := by
  simp only [List.mem_cons, List.not_mem_nil, or_false] at h
  rcases h with rfl | rfl
  · cases gap <;> decide
  · cases gap <;> decide

/-- A parenthesis that is not just opened may be closed. -/
theorem Gap.next?_close {gap : Gap} (h : gap ≠ .opened) :
    gap.next? (.char ')') = some .other := by
  cases gap with
  | other => rfl
  | space => rfl
  | opened => exact absurd rfl h

/-- Wherever they stand, the lexemes are read, and no parenthesis is left open at their end. -/
def Steady (ls : List Lexeme) : Prop :=
  ∀ gap, ∃ gap' ≠ Gap.opened, ls.foldlM Gap.next? gap = some gap'

theorem not_steady_nil : ¬ Steady [] := by
  intro h
  obtain ⟨gap, hne, hgap⟩ := h .opened
  exact hne (Option.some.inj hgap).symm

namespace Steady

variable {ls ls' : List Lexeme}

theorem append (h : Steady ls) (h' : Steady ls') : Steady (ls ++ ls') := by
  intro gap
  obtain ⟨middle, -, hmiddle⟩ := h gap
  obtain ⟨last, hne, hlast⟩ := h' middle
  refine ⟨last, hne, ?_⟩
  rw [List.foldlM_append, hmiddle]
  exact hlast

theorem of_literal (text : List Char) : Steady [.literal text] := by
  intro gap
  refine ⟨.other, by decide, ?_⟩
  cases gap <;> rfl

theorem of_char {c : Char} (hopen : c ≠ '(') (hclose : c ≠ ')') : Steady [.char c] := by
  intro gap
  by_cases hc : c = ' '
  · subst hc
    refine ⟨.space, by decide, ?_⟩
    cases gap <;> rfl
  · refine ⟨.other, by decide, ?_⟩
    -- Only a parenthesis or a blank moves the gap anywhere else.
    have hnext : gap.next? (.char c) = some .other := by
      unfold Gap.next?
      split
      · next heq => cases heq; exact absurd rfl hclose
      · next heq => cases heq; exact absurd rfl hopen
      · next heq => cases heq; exact absurd rfl hc
      · rfl
    rw [List.foldlM_cons, hnext]
    rfl

theorem of_ordinary {w : List Char} (hw : Ordinary w) (hne : w ≠ []) : Steady (chars w) := by
  have hchar : ∀ c, Scan.isOrdinary c = true → Steady [.char c] := by
    intro c hc
    simp only [Scan.isOrdinary, Bool.and_eq_true, bne_iff_ne] at hc
    exact of_char hc.1.2 hc.2
  induction w with
  | nil => exact absurd rfl hne
  | cons c cs ih =>
      rw [Scan.ordinary_cons] at hw
      cases cs with
      | nil => exact hchar c hw.1
      | cons d ds => exact (hchar c hw.1).append (ih hw.2 (List.cons_ne_nil d ds))

/-- Parentheses with something in them. -/
theorem enclosed (h : Steady ls) : Steady (.char '(' :: (ls ++ [.char ')'])) := by
  intro gap
  obtain ⟨first, hfirst⟩ : ∃ first, gap.next? (.char '(') = some first := by
    cases gap with
    | other => exact ⟨.other, rfl⟩
    | space => exact ⟨.opened, rfl⟩
    | opened => exact ⟨.other, rfl⟩
  -- Whatever the parenthesis is opened behind, what stands in it leads away from the opened gap.
  obtain ⟨last, hne, hlast⟩ := h first
  refine ⟨.other, by decide, ?_⟩
  rw [List.foldlM_cons, hfirst]
  simp only [bind, Option.bind, List.foldlM_append, hlast, List.foldlM_cons, Gap.next?_close hne]
  rfl

theorem intercalate {w : List Char} (hw : Steady (chars w)) {lists : List (List Lexeme)}
    (hne : lists ≠ []) (h : ∀ ls ∈ lists, Steady ls) : Steady ((chars w).intercalate lists) :=
  Chars.intercalate_of_append append hw hne h

/-- Empty parentheses are not read. -/
theorem not_hollow (h : Steady ls) : ¬ Hollow ls := by
  rintro ⟨word, hword, front, back, rfl⟩
  -- Reading gets as far as the hollow word at most, wherever it stands.
  obtain ⟨gap, -, hgap⟩ := h .other
  rw [List.foldlM_append, List.foldlM_append] at hgap
  cases hfront : front.foldlM Gap.next? .other with
  | none => simp [hfront] at hgap
  | some middle => simp [hfront, Gap.foldlM_hollow hword] at hgap

end Steady

/-! ## Expressions are not hollow -/

variable {field : String} {ls : List Lexeme}

theorem steady_operand (value : Option String) : Steady (operand value) := by
  cases value with
  | none => exact Steady.of_ordinary (by decide) (by decide)
  | some value => exact Steady.of_literal _

/-- Lexemes in parentheses behind ordinary characters. -/
theorem steady_call {front : List Char} (hfront : Ordinary front) (hne : front ≠ [])
    (h : Steady ls) : Steady (chars (front ++ ['(']) ++ ls ++ chars [')']) := by
  have hcall := (Steady.of_ordinary hfront hne).append h.enclosed
  rw [chars_append]
  simpa [chars] using hcall

/-- The columns of an index may be missing: there is no space before their parentheses. -/
theorem steady_columns {columns : String} (h : Ordinary columns.toList) :
    Steady (chars ("MATCH(" ++ columns ++ ")").toList) := by
  intro gap
  have hname : ∀ gap, (chars "MATCH(".toList).foldlM Gap.next? gap = some .other := by
    intro gap
    cases gap <;> decide
  obtain ⟨last, hne, hlast⟩ : ∃ last ≠ Gap.opened,
      (chars columns.toList).foldlM Gap.next? .other = some last := by
    by_cases hempty : columns.toList = []
    · exact ⟨.other, by decide, by rw [hempty]; rfl⟩
    · exact Steady.of_ordinary h hempty .other
  refine ⟨.other, by decide, ?_⟩
  have hclose : (chars ")".toList).foldlM Gap.next? last = some .other := by
    have hparenthesis : chars ")".toList = [.char ')'] := by decide
    rw [hparenthesis, List.foldlM_cons, Gap.next?_close hne]
    rfl
  rw [String.toList_append, String.toList_append, chars_append, chars_append, List.foldlM_append,
    List.foldlM_append, hname]
  simp only [bind, Option.bind, hlast, hclose]

theorem steady_comparison (hfield : Ordinary field.toList) {relation : String}
    (h : relation ∈ relations) (value : Option String) :
    Steady (chars (field ++ " " ++ relation ++ " ").toList ++ operand value) := by
  have hrelation : Ordinary relation.toList := by
    have hall : ∀ relation ∈ relations, Ordinary relation.toList := by decide
    exact hall relation h
  have hspace : Ordinary " ".toList := by decide
  have hfront : Ordinary (field ++ " " ++ relation ++ " ").toList := by
    simp only [String.toList_append]
    exact ((hfield.append hspace).append hrelation).append hspace
  exact (Steady.of_ordinary hfront (by simp)).append (steady_operand value)

theorem steady_member (hfield : Ordinary field.toList) (value : Option String) :
    Steady (chars "FIND_IN_SET(".toList ++ operand value ++
      chars ("," ++ field ++ ")").toList) := by
  have hcomma : Ordinary ",".toList := by decide
  have hname : Ordinary "FIND_IN_SET".toList := by decide
  have hargument := (steady_operand value).append
    (Steady.of_ordinary (hcomma.append hfield) (by simp))
  have hcall := steady_call hname (by decide) hargument
  -- The closing parenthesis is written with the field.
  have hback : chars ("," ++ field ++ ")").toList =
      chars (",".toList ++ field.toList) ++ chars [')'] := by
    rw [← chars_append]
    simp
  have hfront : "FIND_IN_SET".toList ++ ['('] = "FIND_IN_SET(".toList := by decide
  rw [hfront] at hcall
  rw [hback]
  simpa only [List.append_assoc] using hcall

theorem steady_list (hfield : Ordinary field.toList) (negate : Bool)
    {values : List (Option String)} (h : values ≠ []) :
    Steady (chars (field ++ (if negate then " NOT" else "") ++ " IN (").toList ++
      (chars ",".toList).intercalate (values.map operand) ++ chars [')']) := by
  have hvalues : Steady ((chars ",".toList).intercalate (values.map operand)) := by
    refine Steady.intercalate (Steady.of_ordinary (by decide) (by decide)) (by simpa using h) ?_
    rw [List.forall_mem_map]
    exact fun value _ => steady_operand value
  have hword : Ordinary ((if negate then " NOT" else "") ++ " IN ").toList := by
    cases negate <;> decide
  have hcall := steady_call (hfield.append hword) (by cases negate <;> simp) hvalues
  have hfront : field.toList ++ ((if negate then " NOT" else "") ++ " IN ").toList ++ ['('] =
      (field ++ (if negate then " NOT" else "") ++ " IN (").toList := by
    simp
  rwa [hfront] at hcall

theorem steady_search {columns : String} (h : Ordinary columns.toList) (terms : String)
    (negate natural : Bool) :
    Steady (chars ((if negate then "NOT " else "") ++ "MATCH(" ++ columns ++
      ") AGAINST(").toList ++ [.literal terms.toList] ++
      chars ((if natural then "" else " IN BOOLEAN MODE") ++ ")").toList) := by
  have hname : Ordinary " AGAINST".toList := by decide
  have hterms : Steady ([.literal terms.toList] ++
      chars (if natural then "" else " IN BOOLEAN MODE").toList) := by
    cases natural with
    | true => exact Steady.of_literal _
    | false => exact (Steady.of_literal _).append (Steady.of_ordinary (by decide) (by decide))
  -- A parenthesis is closed and the next one opened without a literal between them.
  have hmatch := (steady_columns h).append (steady_call hname (by decide) hterms)
  have hall : Steady (chars (if negate then "NOT " else "").toList ++
      (chars ("MATCH(" ++ columns ++ ")").toList ++ (chars (" AGAINST".toList ++ ['(']) ++
        ([.literal terms.toList] ++
          chars (if natural then "" else " IN BOOLEAN MODE").toList) ++ chars [')']))) := by
    cases negate with
    | true => exact (Steady.of_ordinary (by decide) (by decide)).append hmatch
    | false => exact hmatch
  simpa [chars] using hall

theorem IsTest.steady (hfield : Ordinary field.toList) {ls : List Lexeme} (h : IsTest field ls) :
    Steady ls := by
  cases h with
  | comparison h => exact steady_comparison hfield h _
  | member => exact steady_member hfield _
  | listed negate h => exact steady_list hfield negate h
  | search negate natural h => exact steady_search h _ negate natural

theorem IsExpression.steady (hfield : Ordinary field.toList) {ls : List Lexeme}
    (h : IsExpression field ls) : Steady ls := by
  induction h with
  | @chain connective tests hconnective hne htests =>
      have hword : ∀ connective ∈ [" AND ", " OR "],
          Ordinary connective.toList ∧ connective.toList ≠ [] := by
        decide
      obtain ⟨hordinary, hsome⟩ := hword connective hconnective
      exact Steady.intercalate (Steady.of_ordinary hordinary hsome) hne
        fun test htest => (htests test htest).steady hfield
  | negation _ ih =>
      have hnot : Ordinary "NOT ".toList := by decide
      exact steady_call hnot (by decide) ih

/-! ## What tests are put together to -/

/-- An expression if there is something to test; otherwise hollow if something encloses the tests,
and nothing if nothing does. -/
structure Formed (field : String) (ls : List Lexeme) (tested enclosed : Prop) : Prop where
  expression : IsExpression field ls ↔ tested
  hollow : Hollow ls ↔ ¬ tested ∧ enclosed
  nothing : ls = [] ↔ ¬ tested ∧ ¬ enclosed

namespace Formed

variable {tested enclosed : Prop}

theorem of_expression (hfield : Ordinary field.toList) (h : IsExpression field ls)
    (htested : tested) : Formed field ls tested enclosed where
  expression := iff_of_true h htested
  hollow := iff_of_false (h.steady hfield).not_hollow fun hnone => hnone.1 htested
  nothing := iff_of_false (fun hnil => not_steady_nil (hnil ▸ h.steady hfield))
    fun hnone => hnone.1 htested

theorem of_hollow (hfield : Ordinary field.toList) (h : Hollow ls) (htested : ¬ tested)
    (henclosed : enclosed) : Formed field ls tested enclosed where
  expression := iff_of_false (fun he => (he.steady hfield).not_hollow h) htested
  hollow := iff_of_true h ⟨htested, henclosed⟩
  nothing := iff_of_false (fun hnil => not_hollow_nil (hnil ▸ h)) fun hnone => hnone.2 henclosed

theorem of_nothing (hfield : Ordinary field.toList) (htested : ¬ tested)
    (henclosed : ¬ enclosed) : Formed field [] tested enclosed where
  expression := iff_of_false (fun he => not_steady_nil (he.steady hfield)) htested
  hollow := iff_of_false not_hollow_nil fun hall => henclosed hall.2
  nothing := iff_of_true rfl ⟨htested, henclosed⟩

end Formed

/-- A chain of tests, in the parentheses of a negation or not. -/
theorem formed_chain (hfield : Ordinary field.toList) {connective : String}
    (hconnective : connective ∈ [" AND ", " OR "]) {tests : List (List Lexeme)}
    (htests : ∀ test ∈ tests, IsTest field test) (negate : Bool) :
    let chain := (chars connective.toList).intercalate tests
    Formed field (if negate then chars "NOT (".toList ++ chain ++ chars [')'] else chain)
      (tests ≠ []) (negate = true) := by
  intro chain
  -- Without a value there is no test to chain, and a negation has nothing to stand in front of.
  by_cases hne : tests = []
  · have htested : ¬ tests ≠ [] := fun h => h hne
    have hchain : chain = [] := by
      simp only [chain, hne]
      rfl
    rw [hchain]
    cases negate with
    | false => exact .of_nothing hfield htested (by simp)
    | true =>
        refine .of_hollow hfield ⟨"NOT ()", by simp, ?_⟩ htested rfl
        exact List.infix_rfl
  · have hexpression : IsExpression field chain := .chain hconnective hne htests
    cases negate with
    | false => exact .of_expression hfield hexpression hne
    | true => exact .of_expression hfield hexpression.negation hne

/-- The parentheses of a list are written with or without values in them. -/
theorem formed_list (hfield : Ordinary field.toList) (negate : Bool)
    (values : List (Option String)) :
    Formed field (lexemes field .oneOf negate values) (values ≠ []) True := by
  by_cases hne : values = []
  · refine .of_hollow hfield ⟨"IN ()", by simp, ?_⟩ (fun h => h hne) trivial
    refine ⟨chars (field ++ (if negate then " NOT " else " ")).toList, [], ?_⟩
    have hopen : chars (field ++ (if negate then " NOT" else "") ++ " IN (").toList =
        chars (field ++ (if negate then " NOT " else " ")).toList ++ chars "IN (".toList := by
      rw [← chars_append]
      cases negate <;> simp
    rw [lexemes, hne]
    simp only [hopen]
    simp [chars]
  · have htest : IsTest field (lexemes field .oneOf negate values) := .listed negate hne
    exact .of_expression hfield (.of_test htest) hne

theorem isTest_test {op : Operator} (hop : op.comparesWhole = true) (hlist : op ≠ .oneOf)
    (value : Option String) : IsTest field (test field op value) := by
  cases op with
  | oneOf => exact absurd rfl hlist
  | andGroup | orGroup => exact .member
  | comparison c =>
      refine .comparison ?_
      generalize value.isSome = given
      cases given <;> cases c <;> decide
  | like | start | finish | fulltext | fulltextNatural => cases hop

theorem formed_lexemes (hfield : Ordinary field.toList) {op : Operator}
    (hop : op.comparesWhole = true) (negate : Bool) (values : List (Option String)) :
    Formed field (lexemes field op negate values) (values ≠ [])
      (op = .oneOf ∨ negate = true) := by
  by_cases hlist : op = .oneOf
  · subst hlist
    have hformed := formed_list hfield negate values
    simpa using hformed
  · have hconnective : op.separator ∈ [" AND ", " OR "] := by
      cases op <;> simp_all [Operator.separator]
    have htests : ∀ ls ∈ values.map (test field op), IsTest field ls := by
      rw [List.forall_mem_map]
      exact fun value _ => isTest_test hop hlist value
    have hchain := formed_chain hfield hconnective htests negate
    have hlexemes : lexemes field op negate values =
        let chain := (chars op.separator.toList).intercalate (values.map (test field op))
        if negate then chars "NOT (".toList ++ chain ++ chars [')'] else chain := by
      cases op <;> first | rfl | exact absurd rfl hlist
    rw [hlexemes]
    simpa [hlist] using hchain

theorem formed_likeLexemes (hfield : Ordinary field.toList) (negate : Bool)
    (patterns : List String) :
    Formed field (likeLexemes field negate patterns) (patterns ≠ []) (negate = true) := by
  have htests : ∀ ls ∈ patterns.map
      fun pattern => chars (field ++ " LIKE ").toList ++ [.literal pattern.toList],
      IsTest field ls := by
    rw [List.forall_mem_map]
    intro pattern _
    have htest : IsTest field (chars (field ++ " " ++ "LIKE" ++ " ").toList ++
        operand (some pattern)) := .comparison (by decide)
    have hlike : field ++ " " ++ "LIKE" ++ " " = field ++ " LIKE " := by
      rw [← String.toList_inj]
      simp
    rwa [hlike] at htest
  have hor : " OR " ∈ [" AND ", " OR "] := by simp
  have hchain := formed_chain hfield hor htests negate
  simpa [likeLexemes] using hchain

/-! ## Searches -/

/-- The terms of a search are one literal, and its columns are ordinary. -/
theorem exists_lexes_search {schema : Schema} {minLength : Nat} {s : Fulltext.Search}
    {fragment : String}
    (hcolumns : ∀ e ∈ (schema.fulltextIndexes s.table).entries, Ordinary e.2.toList)
    (halias : Ordinary s.aliasName.toList)
    (h : Fulltext.condition schema minLength s = .ok fragment) :
    ∃ columns terms : String, Ordinary columns.toList ∧
      Lexes fragment.toList (chars ((if s.negate then "NOT " else "") ++ "MATCH(" ++ columns ++
        ") AGAINST(").toList ++ [.literal terms.toList] ++
        chars ((if s.natural then "" else " IN BOOLEAN MODE") ++ ")").toList) := by
  obtain ⟨columns, text, hfound, rfl⟩ := Fulltext.exists_of_condition h
  have hqualified : Ordinary (Fulltext.qualify columns s.table s.aliasName).toList :=
    Fulltext.ordinary_qualify (hcolumns _ (OrderedMap.get?_eq_some_iff.1 hfound)) halias
  refine ⟨_, text, hqualified, ?_⟩
  -- No quote stands around the literal, so the lexer finds it where it was written.
  have hfront : Quoteless ((if s.negate then "NOT " else "") ++ "MATCH(" ++
      Fulltext.qualify columns s.table s.aliasName ++ ") AGAINST(").toList := by
    have hword : Quoteless ((if s.negate then "NOT " else "") ++ "MATCH(").toList := by
      cases s.negate <;> decide
    have hnext : Quoteless ") AGAINST(".toList := by decide
    have hnames : Quoteless (Fulltext.qualify columns s.table s.aliasName).toList :=
      fun c hc => Scan.isQuote_of_isOrdinary (hqualified c hc)
    simpa only [String.toList_append] using (hword.append hnames).append hnext
  have hback : Quoteless ((if s.natural then "" else " IN BOOLEAN MODE") ++ ")").toList := by
    cases s.natural <;> decide
  have hhead : ∀ c ∈ ((if s.natural then "" else " IN BOOLEAN MODE") ++ ")").toList.head?,
      Scan.isQuote c = false := by
    cases s.natural <;> decide
  have hliteral := (Lexes.of_addSlashes text).append (Lexes.of_quoteless hback) hhead
  have hall := hliteral.behind hfront
  have hfragment : ((if s.negate then "NOT " else "") ++ "MATCH(" ++
      Fulltext.qualify columns s.table s.aliasName ++ ") AGAINST('" ++ Literal.addSlashes text ++
        "'" ++ (if s.natural then "" else " IN BOOLEAN MODE") ++ ")").toList =
      ((if s.negate then "NOT " else "") ++ "MATCH(" ++
        Fulltext.qualify columns s.table s.aliasName ++ ") AGAINST(").toList ++
        (("'" ++ Literal.addSlashes text ++ "'").toList ++
          ((if s.natural then "" else " IN BOOLEAN MODE") ++ ")").toList) := by
    simp
  rw [hfragment]
  simpa only [List.append_assoc] using hall

theorem exists_expression_search {schema : Schema} {minLength : Nat} {s : Fulltext.Search}
    {fragment : String}
    (hcolumns : ∀ e ∈ (schema.fulltextIndexes s.table).entries, Ordinary e.2.toList)
    (halias : Ordinary s.aliasName.toList)
    (h : Fulltext.condition schema minLength s = .ok fragment) (field : String) :
    ∃ ls, lex fragment.toList = some ls ∧ IsExpression field ls := by
  obtain ⟨columns, terms, hordinary, hlexes⟩ := exists_lexes_search hcolumns halias h
  exact ⟨_, hlexes.lex_eq, .of_test (.search s.negate s.natural hordinary)⟩

/-! ## Compiled fragments -/

/-- The values of a condition, each with a test of its own; a search is one test. -/
def tested (c : Condition) : List String :=
  match c.operator with
  | .oneOf | .andGroup | .orGroup => c.value.items
  | .fulltext | .fulltextNatural => [c.value.asText]
  | _ => c.value.texts

/-- There is nothing to test, but parentheses are written around it. -/
def LacksOperand (c : Condition) : Prop :=
  c.value.isAll = false ∧ c.tested = [] ∧ (c.operator = .oneOf ∨ c.negate = true)

instance (c : Condition) : Decidable c.LacksOperand :=
  inferInstanceAs (Decidable (_ ∧ _))

theorem exists_formed {schema : Schema} {minLength : Nat} {target : ConditionTarget}
    {c : Condition} {fragment : String} (hfield : Ordinary target.field.toList)
    (hcolumns : ∀ e ∈ (schema.fulltextIndexes target.table).entries, Ordinary e.2.toList)
    (halias : Ordinary target.aliasName.toList) (hall : c.value.isAll = false)
    (h : c.compile schema minLength target = .ok fragment) :
    ∃ ls, lex fragment.toList = some ls ∧
      Formed target.field ls (c.tested ≠ []) (c.operator = .oneOf ∨ c.negate = true) := by
  have hquoteless : Quoteless target.field.toList :=
    fun d hd => Scan.isQuote_of_isOrdinary (hfield d hd)
  by_cases hwhole : c.operator.comparesWhole = true
  · obtain ⟨fragment', hcompile, hlexes⟩ := lexes_compile hquoteless hwhole hall schema minLength
    cases h.symm.trans hcompile
    refine ⟨_, hlexes.lex_eq, ?_⟩
    have hvalues : c.comparedValues ≠ [] ↔ c.tested ≠ [] := by
      unfold comparedValues tested
      cases hop : c.operator <;> simp_all [Operator.comparesWhole]
    rw [← hvalues]
    exact formed_lexemes hfield hwhole c.negate c.comparedValues
  · by_cases hlike : c.operator.isLike = true
    · obtain ⟨fragment', hcompile, hlexes⟩ :=
        lexes_compile_like hquoteless hlike hall schema minLength
      cases h.symm.trans hcompile
      refine ⟨_, hlexes.lex_eq, ?_⟩
      have hformed := formed_likeLexemes hfield c.negate (c.value.texts.map c.operator.pattern)
      have htested : c.tested = c.value.texts := by
        unfold tested
        cases hop : c.operator <;> simp_all [Operator.isLike]
      have hlist : c.operator ≠ .oneOf := fun hop => by simp [hop, Operator.isLike] at hlike
      simpa [htested, hlist] using hformed
    · -- What is left are the searches, and a search always has its terms to test.
      obtain ⟨ls, hls, hexpression⟩ : ∃ ls, lex fragment.toList = some ls ∧
          IsExpression target.field ls := by
        rw [compile, if_neg (by simp [hall])] at h
        cases hop : c.operator with
        | fulltext | fulltextNatural =>
            simp only [hop] at h
            exact exists_expression_search hcolumns halias h target.field
        | oneOf | andGroup | orGroup | comparison _ => simp [hop, Operator.comparesWhole] at hwhole
        | like | start | finish => simp [hop, Operator.isLike] at hlike
      refine ⟨ls, hls, .of_expression hfield hexpression ?_⟩
      unfold tested
      cases hop : c.operator <;> simp_all [Operator.comparesWhole, Operator.isLike]

/-- The fragment of a condition is an expression if there is something to test.  Otherwise it is
empty, unless it lacks the operand of the parentheses that are written all the same: only then a
list or a negation is hollow. -/
theorem expression_of_compile {schema : Schema} {minLength : Nat} {target : ConditionTarget}
    {c : Condition} {fragment : String} (hfield : Ordinary target.field.toList)
    (hcolumns : ∀ e ∈ (schema.fulltextIndexes target.table).entries, Ordinary e.2.toList)
    (halias : Ordinary target.aliasName.toList)
    (h : c.compile schema minLength target = .ok fragment) :
    ∃ ls, lex fragment.toList = some ls ∧
      (IsExpression target.field ls ↔ c.value.isAll = false ∧ c.tested ≠ []) ∧
      (Hollow ls ↔ c.LacksOperand) ∧
      (fragment = "" ∨ IsExpression target.field ls ↔ ¬ c.LacksOperand) := by
  -- A fragment without lexemes is empty.
  have hempty : ∀ ls, lex fragment.toList = some ls → (fragment = "" ↔ ls = []) := by
    intro ls hls
    constructor
    · rintro rfl
      cases hls
      rfl
    · rintro rfl
      exact String.toList_eq_nil_iff.1 (Literal.eq_nil_of_lex_eq_nil hls)
  by_cases hall : c.value.isAll = true
  · have hnone : ¬ c.LacksOperand := fun hlacks => by simp [hlacks.1] at hall
    have hfragment : fragment = "" := by
      rw [compile, if_pos hall] at h
      exact (Except.ok.inj h).symm
    have hformed : Formed target.field [] False False := .of_nothing hfield id id
    refine ⟨[], by rw [hfragment]; rfl, ?_, ?_, ?_⟩
    · rw [hformed.expression, hall]
      simp
    · rw [hformed.hollow]
      simpa using hnone
    · exact iff_of_true (.inl hfragment) hnone
  · have hall : c.value.isAll = false := by simpa using hall
    obtain ⟨ls, hls, hformed⟩ := exists_formed hfield hcolumns halias hall h
    have hhollow : Hollow ls ↔ c.LacksOperand := by
      rw [hformed.hollow, LacksOperand, not_not]
      simp [hall]
    refine ⟨ls, hls, ?_, hhollow, ?_⟩
    · rw [hformed.expression]
      simp [hall]
    · rw [hempty ls hls, hformed.nothing, hformed.expression, ← hhollow, hformed.hollow]
      tauto

/-- Not both of two tags. -/
def unlessTagged : Condition where
  operator := .andGroup
  value := .single "news, ,'events"
  negate := true

/-- Blank members of the list are left out, and a quote is part of a member. -/
theorem expression_of_unlessTagged :
    let target : ConditionTarget := ⟨"n.tags", "news", "n"⟩
    let fragment := "NOT (FIND_IN_SET('news',n.tags) AND FIND_IN_SET('\\'events',n.tags))"
    Ordinary target.field.toList ∧
      (∀ e ∈ (Schema.empty.fulltextIndexes target.table).entries, Ordinary e.2.toList) ∧
      Ordinary target.aliasName.toList ∧
      unlessTagged.compile .empty 4 target = .ok fragment ∧
      ∃ ls, lex fragment.toList = some ls ∧ IsExpression target.field ls ∧ ¬ Hollow ls := by
  intro target fragment
  have hfield : Ordinary target.field.toList := by decide
  have hcolumns : ∀ e ∈ (Schema.empty.fulltextIndexes target.table).entries,
      Ordinary e.2.toList := by
    decide
  have halias : Ordinary target.aliasName.toList := by decide
  have hcompile : unlessTagged.compile .empty 4 target = .ok fragment := by decide +kernel
  obtain ⟨ls, hls, hexpression, hhollow, -⟩ :=
    expression_of_compile hfield hcolumns halias hcompile
  have htested : unlessTagged.value.isAll = false ∧ unlessTagged.tested ≠ [] := by decide +kernel
  have hlacks : ¬ unlessTagged.LacksOperand := fun h => htested.2 h.2.1
  exact ⟨hfield, hcolumns, halias, hcompile, ls, hls, hexpression.2 htested,
    fun h => hlacks (hhollow.1 h)⟩

/-- One of the members of a list that has only blank ones. -/
def loneComma : Condition where
  operator := .oneOf
  value := .single ","
  negate := false

/-- The parentheses of the list are written without a member in them. -/
theorem hollow_of_loneComma :
    ∃ fragment ls, loneComma.compile .empty 4 ⟨"pages.uid", "pages", "pages"⟩ = .ok fragment ∧
      lex fragment.toList = some ls ∧ fragment ≠ "" ∧ Hollow ls ∧
      ¬ IsExpression "pages.uid" ls := by
  have hollow : Hollow (chars "pages.uid IN ()".toList) :=
    ⟨"IN ()", by simp, chars "pages.uid ".toList, [], by decide⟩
  refine ⟨"pages.uid IN ()", chars "pages.uid IN ()".toList, ?_, ?_, ?_, hollow, ?_⟩
  · decide +kernel
  · decide +kernel
  · decide
  · have hfield : Ordinary "pages.uid".toList := by decide
    exact fun h => (h.steady hfield).not_hollow hollow

end Condition
end ContentQuery
