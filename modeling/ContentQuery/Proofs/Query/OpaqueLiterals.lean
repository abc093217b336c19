import ContentQuery.Proofs.Chars.Names
import ContentQuery.Proofs.Scan.Literals
import ContentQuery.Query.Parser

/-!
# Opaque literals

A statement is cut at keywords outside literals, so what stands in a literal has no say in how it is
cut.  If the body of one literal is exchanged, the cut is refused for the same reason as before, or
gives the same clauses: the literal is exchanged in the one text that has it, and every other text
stays.  A literal in front of SELECT is in none of them.
-/

namespace ContentQuery

open Keyword (Lawful)
open Scan (Fills behindLiteral isQuote literal tokens tokensFrom)

variable {a b w : List Char} {q : Char}

/-! ## Positions in composed text -/

namespace Chars

theorem slice_append_of_le {start stop : Nat} (h : stop ≤ a.length) (b : List Char) :
    slice (a ++ b) start stop = slice a start stop := by
  rw [slice, slice, List.take_append_of_le_length h]

/-- From a position in `a` to a position in `b`. -/
theorem slice_append_across {start : Nat} (h : start ≤ a.length) (b : List Char) (stop : Nat) :
    slice (a ++ b) start (stop + a.length) = a.drop start ++ b.take stop := by
  rw [slice, Nat.add_comm, List.take_length_add_append, List.drop_append_of_le_length h]

theorem drop_append_behind (a b : List Char) (start : Nat) :
    (a ++ b).drop (start + a.length) = b.drop start := by
  rw [Nat.add_comm, List.drop_length_add_append]

theorem slice_append_behind (a b : List Char) (start stop : Nat) :
    slice (a ++ b) (start + a.length) (stop + a.length) = slice b start stop := by
  rw [slice, Nat.add_comm stop, List.take_length_add_append, drop_append_behind, slice]

end Chars

/-! ## Clauses around a literal -/

namespace Segment

/-- Behind `a` a text is cut as it is by itself. -/
theorem cut_behind (a b : List Char) (found : List Token) (clause : Clause) (start : Nat) :
    cut (a ++ b) clause (start + a.length) (found.map (Token.shift a.length)) =
      cut b clause start found := by
  induction found generalizing clause start with
  | nil => rw [List.map_nil, cut, cut, Chars.drop_append_behind]
  | cons token found ih =>
      have hhead : Segment.mk clause
          (Chars.trim (Chars.slice (a ++ b) (start + a.length) (token.start + a.length))) =
            ⟨clause, Chars.trim (Chars.slice b start token.start)⟩ := by
        rw [Chars.slice_append_behind]
      rw [cut, ← hhead, ← ih (.atIndex token.index) token.stop]
      rfl

/-- One clause has the literal, and neither its other text nor any other clause depends on what
stands in the literal. -/
theorem cut_around (hq : isQuote q = true) {front : List Token}
    (hfront : ∀ t ∈ front, t.start ≤ t.stop ∧ t.stop ≤ a.length) (behind : List Token)
    (b : List Char) (clause : Clause) {start : Nat} (hstart : start ≤ a.length) :
    ∃ before here left right after, ∀ w,
      cut (a ++ (literal q w ++ b)) clause start
          (front ++ behind.map (Token.shift (a ++ literal q w).length)) =
        before ++ ⟨here, left ++ (literal q w ++ right)⟩ :: after := by
  -- The literal lies in the clause behind the last keyword in front of it.
  induction front generalizing clause start with
  | nil =>
      cases behind with
      | nil =>
          refine ⟨[], clause, Chars.trimStart (a.drop start), Chars.trimEnd b, [], fun w => ?_⟩
          rw [List.map_nil, List.append_nil, cut, List.drop_append_of_le_length hstart,
            (Scan.solid_literal hq w).trim_around, List.nil_append]
      | cons token behind =>
          refine ⟨[], clause, Chars.trimStart (a.drop start), Chars.trimEnd (b.take token.start),
            cut b (.atIndex token.index) token.stop behind, fun w => ?_⟩
          have hlength : start ≤ (a ++ literal q w).length := by
            rw [List.length_append]
            omega
          rw [← List.append_assoc, List.nil_append, List.map_cons, List.nil_append, cut]
          show ⟨clause, Chars.trim (Chars.slice _ start (token.start + _))⟩ ::
            cut _ _ (token.stop + _) _ = _
          rw [Chars.slice_append_across hlength, cut_behind, List.drop_append_of_le_length hstart,
            List.append_assoc, (Scan.solid_literal hq w).trim_around]
          rfl
  | cons token front ih =>
      obtain ⟨hle, hstop⟩ := hfront token (by simp)
      obtain ⟨before, here, left, right, after, hrest⟩ :=
        ih (fun t ht => hfront t (by simp [ht])) (.atIndex token.index) hstop
      refine ⟨⟨clause, Chars.trim (Chars.slice a start token.start)⟩ :: before, here, left, right,
        after, fun w => ?_⟩
      rw [List.cons_append, cut, hrest w, Chars.slice_append_of_le (by omega), List.cons_append]

theorem ofText_around (ha : (({} : Scan).read a).openQuote? = none) (hq : isQuote q = true)
    (b : List Char) :
    ∃ before here left right after, ∀ w, Fills q w →
      ofText (a ++ (literal q w ++ b)) =
        before ++ ⟨here, left ++ (literal q w ++ right)⟩ :: after := by
  have hwords : Lawful (Clause.openers.map Prod.snd) ['J', 'B'] := by decide
  have hlater : ∀ c, isQuote c = true → c.toUpper ∉ ['J', 'B'] := by
    intro c hc
    rcases Scan.isQuote_iff.1 hc with rfl | rfl <;> decide
  have hfront : ∀ t ∈ (tokens (Clause.openers.map Prod.snd) a).1.filter (·.depth == 0),
      t.start ≤ t.stop ∧ t.stop ≤ a.length := fun t ht =>
    Scan.bounds_of_mem_tokens hwords.formed (List.mem_filter.1 ht).1
  obtain ⟨before, here, left, right, after, haround⟩ := cut_around hq hfront
    ((tokensFrom (Clause.openers.map Prod.snd) 0 (behindLiteral q (({} : Scan).read a)) b).1.filter
      (·.depth == 0)) b .source (Nat.zero_le _)
  refine ⟨before, here, left, right, after, fun w hw => ?_⟩
  rw [ofText, Scan.tokens_around_literal hwords hlater ha hq hw, List.filter_append,
    List.filter_map]
  exact haround w

end Segment

/-! ## The cut of a statement -/

namespace Query

/-- The SELECT at which a statement is cut. -/
def cutSelect (found : List Token) : Option Token :=
  found.find? fun token => token.index == 0 && token.depth == 0

/-- The FROM at which a statement is cut: the last one on the top level, or else the last one. -/
def cutSource (select : Token) (found : List Token) : Option Token :=
  let candidates := found.filter fun token => token.index == 1 && select.stop ≤ token.start
  (candidates.reverse.find? (·.depth == 0)).or candidates.getLast?

/-- The SELECT and the FROM at which a statement is cut. -/
def cutTokens (found : List Token) : Except QueryError (Token × Token) :=
  match cutSelect found with
  | none => .error .missingSelect
  | some select =>
      match cutSource select found with
      | none => .error .missingFrom
      | some source => .ok (select, source)

theorem splitStatement_eq (text : List Char) :
    splitStatement text = (cutTokens (tokens [.select, .source] text).1).map fun cut =>
      (Chars.slice text cut.1.stop cut.2.start, text.drop cut.2.stop) := by
  have hsplit : splitStatement text =
      match cutSelect (tokens [.select, .source] text).1 with
      | none => .error .missingSelect
      | some select =>
          match cutSource select (tokens [.select, .source] text).1 with
          | none => .error .missingFrom
          | some source =>
              .ok (Chars.slice text select.stop source.start, text.drop source.stop) := rfl
  rw [hsplit, cutTokens]
  cases cutSelect (tokens [.select, .source] text).1 with
  | none => rfl
  | some select =>
      cases hsource : cutSource select (tokens [.select, .source] text).1 with
      | none => simp only [hsource, Except.map]
      | some source => simp only [hsource, Except.map]

theorem mem_of_cutSource {found : List Token} {select source : Token}
    (h : cutSource select found = some source) :
    source ∈ found ∧ select.stop ≤ source.start := by
  have hcandidate : source ∈ found.filter fun token =>
      token.index == 1 && select.stop ≤ token.start := by
    rcases Option.or_eq_some_iff.1 h with htop | ⟨-, hlast⟩
    · exact List.mem_reverse.1 (List.mem_of_find?_eq_some htop)
    · exact List.mem_of_getLast? hlast
  rw [List.mem_filter, Bool.and_eq_true, decide_eq_true_eq] at hcandidate
  exact ⟨hcandidate.1, hcandidate.2.2⟩

theorem mem_of_cutTokens {found : List Token} {select source : Token}
    (h : cutTokens found = .ok (select, source)) :
    select ∈ found ∧ source ∈ found ∧ select.stop ≤ source.start := by
  unfold cutTokens at h
  cases hselect : cutSelect found with
  | none => simp [hselect] at h
  | some first =>
      cases hsource : cutSource first found with
      | none => simp [hselect, hsource] at h
      | some last =>
          simp only [hselect, hsource] at h
          cases h
          exact ⟨List.mem_of_find?_eq_some hselect, mem_of_cutSource hsource⟩

section Moved

variable {f : Token → Token} {found : List Token} (hindex : ∀ t, (f t).index = t.index)
  (hdepth : ∀ t, (f t).depth = t.depth)
include hindex hdepth

theorem cutSelect_map : cutSelect (found.map f) = (cutSelect found).map f := by
  rw [cutSelect, List.find?_map, cutSelect]
  simp only [Function.comp_def, hindex, hdepth]

theorem cutSource_map {select : Token}
    (horder : ∀ t ∈ found, (f select).stop ≤ (f t).start ↔ select.stop ≤ t.start) :
    cutSource (f select) (found.map f) = (cutSource select found).map f := by
  have hcandidates :
      (found.map f).filter (fun token => token.index == 1 && (f select).stop ≤ token.start) =
        (found.filter fun token => token.index == 1 && select.stop ≤ token.start).map f := by
    rw [List.filter_map]
    congr 1
    refine List.filter_congr fun t ht => ?_
    simp only [Function.comp_apply, hindex, horder t ht]
  simp only [cutSource, hcandidates, ← List.map_reverse, List.find?_map, List.getLast?_map,
    Function.comp_def, hdepth, Option.map_or]

/-- If the keywords are moved and their order stays, the cut is moved with them. -/
theorem cutTokens_map
    (horder : ∀ t ∈ found, ∀ t' ∈ found, (f t).stop ≤ (f t').start ↔ t.stop ≤ t'.start) :
    cutTokens (found.map f) = (cutTokens found).map fun cut => (f cut.1, f cut.2) := by
  rw [cutTokens, cutSelect_map hindex hdepth, cutTokens]
  cases hselect : cutSelect found with
  | none => rfl
  | some select =>
      have hsource := cutSource_map hindex hdepth
        (horder select (List.mem_of_find?_eq_some hselect))
      simp only [Option.map_some, hsource]
      cases cutSource select found with
      | none => rfl
      | some source => rfl

end Moved

/-! ## SELECT and FROM around a literal -/

theorem lawful_statement : Lawful [Keyword.select, .source] [] := by
  decide

/-- The places of SELECT and FROM if the literal is empty. -/
def emptied (a : List Char) (q : Char) (b : List Char) : List Token :=
  (tokens [.select, .source] (a ++ (literal q [] ++ b))).1

section Around

variable (ha : (({} : Scan).read a).openQuote? = none) (hq : isQuote q = true)
include ha hq

/-- The keyword stands in front of the literal or behind it. -/
theorem mem_emptied {token : Token} (h : token ∈ emptied a q b) :
    token ∈ (tokens [.select, .source] a).1 ∨
      ∃ t : Token, t.start ≤ t.stop ∧ token = t.shift (a ++ literal q []).length := by
  rw [emptied, Scan.tokens_around_literal lawful_statement (by simp) ha hq (Scan.fills_nil q),
    List.mem_append, List.mem_map] at h
  rcases h with h | ⟨t, ht, rfl⟩
  · exact .inl h
  · exact .inr ⟨t, (Scan.bounds_of_mem lawful_statement.formed ht).2.1, rfl⟩

/-- What stands in the literal moves the keywords behind it and leaves them in their order. -/
theorem order_emptied (n : Nat) : ∀ t ∈ emptied a q b, ∀ t' ∈ emptied a q b,
    (t.moveBehind a.length n).stop ≤ (t'.moveBehind a.length n).start ↔ t.stop ≤ t'.start := by
  have hclear : ∀ t ∈ emptied a q b,
      t.start ≤ t.stop ∧ (t.start ≤ a.length → t.stop ≤ a.length) := by
    intro t ht
    rcases mem_emptied ha hq ht with h | ⟨t', hle, rfl⟩
    · have hbounds := Scan.bounds_of_mem_tokens lawful_statement.formed h
      exact ⟨hbounds.1, fun _ => hbounds.2⟩
    · have hlength : (a ++ literal q []).length = a.length + 2 := by simp [literal]
      simp only [Token.shift]
      omega
  intro t ht t' ht'
  obtain ⟨hle, hstop⟩ := hclear t ht
  unfold Token.moveBehind
  split <;> split <;> simp only [Token.shift] <;> omega

/-- The cut is made at the same keywords, whatever stands in the literal. -/
theorem splitStatement_literal (hw : Fills q w) :
    splitStatement (a ++ (literal q w ++ b)) = (cutTokens (emptied a q b)).map fun cut =>
      (Chars.slice (a ++ (literal q w ++ b)) (cut.1.moveBehind a.length w.length).stop
          (cut.2.moveBehind a.length w.length).start,
        (a ++ (literal q w ++ b)).drop (cut.2.moveBehind a.length w.length).stop) := by
  have hindex : ∀ t : Token, (t.moveBehind a.length w.length).index = t.index := by
    intro t
    rw [Token.moveBehind]
    split <;> rfl
  have hdepth : ∀ t : Token, (t.moveBehind a.length w.length).depth = t.depth := by
    intro t
    rw [Token.moveBehind]
    split <;> rfl
  rw [splitStatement_eq, Scan.tokens_literal lawful_statement (by simp) ha hq hw]
  show (cutTokens ((emptied a q b).map _)).map _ = _
  rw [cutTokens_map hindex hdepth (order_emptied ha hq w.length)]
  cases cutTokens (emptied a q b) <;> rfl

/-- A statement with a literal is refused, or the literal stands in front of SELECT, or in the list,
or behind FROM, whatever stands in the literal. -/
theorem splitStatement_around (b : List Char) :
    (∃ e, ∀ w, Fills q w → splitStatement (a ++ (literal q w ++ b)) = .error e) ∨
    (∃ list rest, ∀ w, Fills q w →
      splitStatement (a ++ (literal q w ++ b)) = .ok (list, rest)) ∨
    (∃ left right rest, ∀ w, Fills q w →
      splitStatement (a ++ (literal q w ++ b)) = .ok (left ++ (literal q w ++ right), rest)) ∨
    ∃ list left, (({} : Scan).read left).openQuote? = none ∧ ∀ w, Fills q w →
      splitStatement (a ++ (literal q w ++ b)) = .ok (list, left ++ (literal q w ++ b)) := by
  have hstay := fun {t : Token} (ht : t ∈ (tokens [.select, .source] a).1) (n : Nat) =>
    Scan.moveBehind_of_mem lawful_statement.formed ht n
  have hbounds := fun {t : Token} (ht : t ∈ (tokens [.select, .source] a).1) =>
    Scan.bounds_of_mem_tokens lawful_statement.formed ht
  cases hcut : cutTokens (emptied a q b) with
  | error e =>
      refine .inl ⟨e, fun w hw => ?_⟩
      rw [splitStatement_literal ha hq hw, hcut]
      rfl
  | ok cut =>
      rcases cut with ⟨select, source⟩
      obtain ⟨hselect, hsource, hle⟩ := mem_of_cutTokens hcut
      rcases mem_emptied ha hq hselect with hfirst | ⟨first, -, rfl⟩ <;>
        rcases mem_emptied ha hq hsource with hlast | ⟨last, -, rfl⟩
      · -- Both stand in front of the literal.
        refine .inr (.inr (.inr ⟨Chars.slice a select.stop source.start, a.drop source.stop,
          Scan.openQuote?_behind_token lawful_statement.formed hlast ha, fun w hw => ?_⟩))
        have hlastbounds := hbounds hlast
        rw [splitStatement_literal ha hq hw, hcut]
        show Except.ok (_, _) = _
        rw [hstay hfirst, hstay hlast, Chars.slice_append_of_le (by omega),
          List.drop_append_of_le_length hlastbounds.2]
      · -- The literal stands between them.
        refine .inr (.inr (.inl ⟨a.drop select.stop, b.take last.start, b.drop last.stop,
          fun w hw => ?_⟩))
        have hfirststop := (hbounds hfirst).2
        have hlength : select.stop ≤ (a ++ literal q w).length := by
          rw [List.length_append]
          omega
        rw [splitStatement_literal ha hq hw, hcut, ← List.append_assoc]
        show Except.ok (_, _) = _
        rw [hstay hfirst, Scan.moveBehind_shift]
        show Except.ok (Chars.slice _ _ (last.start + _), List.drop (last.stop + _) _) = _
        rw [Chars.slice_append_across hlength, Chars.drop_append_behind,
          List.drop_append_of_le_length hfirststop, List.append_assoc]
      · -- FROM stands behind SELECT.
        have hlastbounds := hbounds hlast
        simp only [Token.shift, List.length_append, Scan.length_literal] at hle
        omega
      · -- Both stand behind the literal.
        refine .inr (.inl ⟨Chars.slice b first.stop last.start, b.drop last.stop,
          fun w hw => ?_⟩)
        rw [splitStatement_literal ha hq hw, hcut, ← List.append_assoc]
        show Except.ok (_, _) = _
        rw [Scan.moveBehind_shift, Scan.moveBehind_shift]
        show Except.ok (Chars.slice _ (first.stop + _) (last.start + _),
          List.drop (last.stop + _) _) = _
        rw [Chars.slice_append_behind, Chars.drop_append_behind]

end Around

/-! ## Statements with exchanged literals -/

/-- The SELECT list of a statement and its clauses. -/
def statementParts (text : List Char) : Except QueryError (List Char × List Segment) :=
  (splitStatement text).map fun parts => (parts.1, Segment.ofText parts.2)

end Query

/-- The texts agree, but for one text with `l'` in the place of `l`. -/
inductive Exchanged (l l' : List Char) : List (List Char) → List (List Char) → Prop
  | nowhere (texts : List (List Char)) : Exchanged l l' texts texts
  | within (before : List (List Char)) (left right : List Char) (after : List (List Char)) :
      Exchanged l l' (before ++ (left ++ (l ++ right)) :: after)
        (before ++ (left ++ (l' ++ right)) :: after)

/-- Two statements are refused for the same reason, or they have the same sequence of clauses, and
their texts agree but for one with `l'` in the place of `l`. -/
inductive CutAlike (l l' : List Char) :
    Except QueryError (List Char × List Segment) →
      Except QueryError (List Char × List Segment) → Prop
  | refused (e : QueryError) : CutAlike l l' (.error e) (.error e)
  | split {list list' : List Char} {segments segments' : List Segment} :
      segments.map Segment.clause = segments'.map Segment.clause →
        Exchanged l l' (list :: segments.map Segment.text) (list' :: segments'.map Segment.text) →
        CutAlike l l' (.ok (list, segments)) (.ok (list', segments'))

namespace Query

/-- Exchanging the body of a literal changes no reason to refuse a statement, no clause, and no text
but the one that has the literal. -/
theorem literal_opaque {u v : List Char} (ha : (({} : Scan).read a).openQuote? = none)
    (hq : isQuote q = true) (hu : Fills q u) (hv : Fills q v) (b : List Char) :
    CutAlike (literal q u) (literal q v) (statementParts (a ++ (literal q u ++ b)))
      (statementParts (a ++ (literal q v ++ b))) := by
  rcases splitStatement_around ha hq b with
    ⟨e, h⟩ | ⟨list, rest, h⟩ | ⟨left, right, rest, h⟩ | ⟨list, left, hleft, h⟩
  · rw [statementParts, statementParts, h u hu, h v hv]
    exact .refused e
  · rw [statementParts, statementParts, h u hu, h v hv]
    exact .split rfl (.nowhere _)
  · rw [statementParts, statementParts, h u hu, h v hv]
    exact .split rfl (.within [] left right _)
  · -- The text behind FROM is cut once more.
    obtain ⟨before, here, left', right, after, hsegments⟩ := Segment.ofText_around hleft hq b
    rw [statementParts, statementParts, h u hu, h v hv]
    refine .split ?_ ?_
    · simp only [hsegments u hu, hsegments v hv, List.map_append, List.map_cons]
    · simp only [hsegments u hu, hsegments v hv, List.map_append, List.map_cons]
      exact .within (list :: before.map Segment.text) left' right (after.map Segment.text)

/-- A condition whose literal has the words and the quotes of other clauses. -/
theorem literal_opaque_condition :
    let front := "SELECT title FROM pages WHERE title = ".toList
    let plain := literal '\'' "plain".toList
    let telling := literal '\'' "it''s FROM (\\' ORDER BY ".toList
    let behind := " LIMIT 1".toList
    (({} : Scan).read front).openQuote? = none ∧ Fills '\'' "plain".toList ∧
      Fills '\'' "it''s FROM (\\' ORDER BY ".toList ∧
      CutAlike plain telling (statementParts (front ++ (plain ++ behind)))
        (statementParts (front ++ (telling ++ behind))) := by
  intro front plain telling behind
  have hfront : (({} : Scan).read front).openQuote? = none := by decide
  have hplain : Fills '\'' "plain".toList := by decide
  have htelling : Fills '\'' "it''s FROM (\\' ORDER BY ".toList := by decide
  exact ⟨hfront, hplain, htelling, literal_opaque hfront (by decide) hplain htelling behind⟩

end Query
end ContentQuery
