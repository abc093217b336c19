import Mathlib.Data.List.TakeWhile
import ContentQuery.Proofs.Scan.Closed
import ContentQuery.Proofs.Scan.Quiet

/-!
# What stands in a literal

No keyword is found in a literal, and the scan behind it depends on nothing that stands in it but
its length.  So the keywords of a text with a literal are those in front of it and those behind it,
moved by the length of the literal.
-/

namespace ContentQuery

/-- The same keyword, `n` positions further on. -/
def Token.shift (n : Nat) (t : Token) : Token :=
  { t with start := t.start + n, stop := t.stop + n }

/-- The keyword moved by `n` positions if it stands behind the position `p`. -/
def Token.moveBehind (p n : Nat) (t : Token) : Token :=
  if t.start ≤ p then t else t.shift n

namespace Scan

open Keyword (Ends Lawful isIdentifierChar)
open Chars (isBlank isNameChar)

variable {words : List Keyword} {later : List Char} {s t : Scan} {q : Char} {a b w : List Char}

/-! ## Quotes -/

theorem ne_backslash_of_isQuote (hq : isQuote q = true) : q ≠ '\\' := by
  rcases isQuote_iff.1 hq with rfl | rfl <;> decide

theorem isIdentifierChar_of_isQuote (hq : isQuote q = true) : isIdentifierChar q = false := by
  rcases isQuote_iff.1 hq with rfl | rfl <;> decide

theorem isNameChar_of_isQuote (hq : isQuote q = true) : isNameChar q = false := by
  rcases isQuote_iff.1 hq with rfl | rfl <;> decide

theorem isBlank_of_isQuote (hq : isQuote q = true) : isBlank q = false := by
  rcases isQuote_iff.1 hq with rfl | rfl <;> decide

/-! ## Steps in and out -/

/-- Outside literals a quote opens a literal, or opens the last one again. -/
theorem step_quote (hs : s.openQuote? = none) (hq : isQuote q = true) :
    (s.step q).mode = .quoted q ∧ (s.step q).depth = s.depth ∧
      (s.step q).strayClose = s.strayClose := by
  have hplain : (s.stepPlain q).mode = .quoted q ∧ (s.stepPlain q).depth = s.depth ∧
      (s.stepPlain q).strayClose = s.strayClose := by
    rw [stepPlain, if_pos (isQuote_iff.1 hq)]
    exact ⟨rfl, rfl, rfl⟩
  -- Outside of a literal the mode is plain or just behind a closing quote of the other kind.
  show (s.stepMode q).mode = .quoted q ∧ (s.stepMode q).depth = s.depth ∧
    (s.stepMode q).strayClose = s.strayClose
  unfold stepMode
  cases hm : s.mode with
  | plain => exact hplain
  | quoted quote => simp [openQuote?, hm] at hs
  | escaped quote => simp [openQuote?, hm] at hs
  | closing quote =>
      simp only
      split
      · next heq => exact ⟨by rw [heq], rfl, rfl⟩
      · exact hplain

/-! ## Bodies of literals -/

/-- Whether every character of a text stands within a literal. -/
def staysInside (s : Scan) (text : List Char) : Bool :=
  everywhere (fun s c _ => !s.isOutside c) s text

theorem staysInside_cons {c : Char} {cs : List Char} :
    staysInside s (c :: cs) = true ↔
      s.isOutside c = false ∧ staysInside (s.step c) cs = true := by
  rw [staysInside, everywhere, Bool.and_eq_true, Bool.not_eq_true', staysInside]

theorem staysInside_append (s : Scan) (a b : List Char) :
    staysInside s (a ++ b) = (staysInside s a && staysInside (s.read a) b) := by
  induction a generalizing s with
  | nil => rfl
  | cons c cs ih =>
      have hrest := ih (s.step c)
      simp only [staysInside] at hrest ⊢
      rw [List.cons_append, everywhere, everywhere, hrest, Bool.and_assoc, read_cons]

theorem staysInside_congr (h : t.mode = s.mode) (text : List Char) :
    staysInside t text = staysInside s text := by
  induction text generalizing s t with
  | nil => rfl
  | cons c cs ih =>
      have hrest := ih (mode_step_congr h c)
      simp only [staysInside] at hrest ⊢
      rw [everywhere, everywhere, isOutside_congr h, hrest]

theorem read_of_staysInside (h : staysInside s w = true) :
    (s.read w).depth = s.depth ∧ (s.read w).strayClose = s.strayClose := by
  induction w generalizing s with
  | nil => exact ⟨rfl, rfl⟩
  | cons c cs ih =>
      rw [staysInside_cons] at h
      have hrest := ih h.2
      rwa [(step_of_inside h.1).1, (step_of_inside h.1).2] at hrest

/-- A scan behind the quote that opens a literal. -/
def opened (q : Char) : Scan :=
  { mode := .quoted q }

/-- The body of a literal that `q` opens: the scan does not leave the literal before the end, and
the next quote closes it. -/
def Fills (q : Char) (body : List Char) : Prop :=
  staysInside (opened q) body = true ∧ ((opened q).read body).mode = .quoted q

instance (q : Char) (body : List Char) : Decidable (Fills q body) :=
  inferInstanceAs (Decidable (_ ∧ _))

theorem fills_nil (q : Char) : Fills q [] :=
  ⟨rfl, rfl⟩

/-- The literal with a body. -/
def literal (q : Char) (body : List Char) : List Char :=
  q :: (body ++ [q])

theorem length_literal (q : Char) (body : List Char) :
    (literal q body).length = body.length + 2 := by
  simp [literal]

theorem solid_literal (hq : isQuote q = true) (body : List Char) :
    Chars.Solid (literal q body) := by
  have hblank := isBlank_of_isQuote hq
  refine ⟨by simp [literal, hblank], ?_⟩
  rw [literal, ← List.cons_append, List.getLast?_concat]
  simp [hblank]

/-! ## Bodies by their characters -/

/-- Behind a part of a body the rest is a body. -/
theorem Fills.append_iff (ha : Fills q a) : Fills q (a ++ b) ↔ Fills q b := by
  have hmode : ((opened q).read a).mode = (opened q).mode := ha.2
  rw [Fills, staysInside_append, ha.1, Bool.true_and, staysInside_congr hmode, read_append,
    mode_read_congr hmode, Fills]

/-- What may stand in a literal, character by character: its quote is doubled or escaped. -/
inductive Body (q : Char) : List Char → Prop
  | nil : Body q []
  | plain {c : Char} {cs : List Char} : c ≠ q → c ≠ '\\' → Body q cs → Body q (c :: cs)
  | doubled {cs : List Char} : Body q cs → Body q (q :: q :: cs)
  | escaped (c : Char) {cs : List Char} : Body q cs → Body q ('\\' :: c :: cs)

theorem fills_plain {c : Char} (hquote : c ≠ q) (hslash : c ≠ '\\') : Fills q [c] := by
  simp [Fills, opened, staysInside, everywhere, isOutside, step, stepMode, hquote, hslash]

theorem fills_doubled (hslash : q ≠ '\\') : Fills q [q, q] := by
  simp [Fills, opened, staysInside, everywhere, isOutside, step, stepMode, hslash]

theorem fills_escaped (q c : Char) : Fills q ['\\', c] := by
  simp [Fills, opened, staysInside, everywhere, isOutside, step, stepMode]

theorem Body.fills (hslash : q ≠ '\\') (h : Body q w) : Fills q w := by
  induction h with
  | nil => exact fills_nil q
  | plain hquote hc _ ih => exact (fills_plain hquote hc).append_iff.2 ih
  | doubled _ ih => exact (fills_doubled hslash).append_iff.2 ih
  | escaped c _ ih => exact (fills_escaped q c).append_iff.2 ih

theorem Fills.body (hslash : q ≠ '\\') : ∀ {w : List Char}, Fills q w → Body q w
  | [], _ => .nil
  | [c], h => by
      have hmode := h.2
      refine .plain ?_ ?_ .nil
      · rintro rfl
        simp [opened, step, stepMode, hslash] at hmode
      · rintro rfl
        simp [opened, step, stepMode] at hmode
  | c :: d :: cs, h => by
      by_cases hc : c = '\\'
      · subst hc
        exact .escaped d (Fills.body hslash ((fills_escaped q d).append_iff.1 h))
      · by_cases hquote : c = q
        · -- A quote that is not doubled would end the literal.
          have hinside := (staysInside_cons.1 (staysInside_cons.1 h.1).2).1
          have hd : d = q := by
            simpa [hquote, opened, step, stepMode, isOutside, hslash] using hinside
          rw [hquote, hd] at h ⊢
          exact .doubled (Fills.body hslash ((fills_doubled hslash).append_iff.1 h))
        · exact .plain hquote hc (Fills.body hslash ((fills_plain hquote hc).append_iff.1 h))

/-- A scan stays in the literal if every quote is doubled or escaped. -/
theorem fills_iff (hslash : q ≠ '\\') : Fills q w ↔ Body q w :=
  ⟨Fills.body hslash, Body.fills hslash⟩

/-! ## Scans at another place -/

/-- The scan `t` reads on like `s`, from `n` positions further on, whatever closed astray before
them. -/
structure Moved (n : Nat) (s t : Scan) : Prop extends Beside s t where
  position : t.position = s.position + n

namespace Moved

variable {n : Nat}

theorem pass (h : Moved n s t) (c : Char) : Moved n (s.pass c) (t.pass c) where
  toBeside := h.toBeside.pass c
  position := by
    have hposition := h.position
    show t.position + 1 = s.position + 1 + n
    omega

theorem step (h : Moved n s t) (c : Char) : Moved n (s.step c) (t.step c) where
  toBeside := h.toBeside.step c
  position := by
    have hposition := h.position
    show t.position + 1 = s.position + 1 + n
    omega

theorem keyword? (h : Moved n s t) (words : List Keyword) (c : Char) (cs : List Char) :
    Scan.keyword? words t c cs = Scan.keyword? words s c cs := by
  rw [Scan.keyword?, isOutside_congr h.mode, Scan.keyword?]
  split
  · exact Keyword.first?_congr fun k _ => h.length? k (c :: cs)
  · rfl

/-- The same keywords are found, further on. -/
theorem tokensFrom (hwords : ∀ k ∈ words, k.WellFormed) (text : List Char) :
    ∀ (skip : Nat) {s t : Scan}, Moved n s t →
      (Scan.tokensFrom words skip t text).1 =
        (Scan.tokensFrom words skip s text).1.map (Token.shift n) := by
  induction text with
  | nil =>
      intro skip s t _
      cases skip <;> rfl
  | cons c cs ih =>
      intro skip s t h
      cases skip with
      | succ skip => exact ih skip (h.pass c)
      | zero =>
          -- Both scans read the same keyword here or none, so their tokens part only in position.
          have hsame := h.keyword? words c cs
          cases hfound : Scan.keyword? words s c cs with
          | none =>
              rw [tokensFrom_of_none (hsame.trans hfound), tokensFrom_of_none hfound]
              exact ih 0 (h.step c)
          | some found =>
              obtain ⟨i, m, k, rfl, -⟩ := exists_of_keyword? hwords hfound
              have hposition := h.position
              rw [tokensFrom_of_some (hsame.trans hfound), tokensFrom_of_some hfound,
                List.map_cons, ih m (h.pass c), h.depth]
              have hstop : s.position + n + (m + 1) = s.position + (m + 1) + n := by omega
              rw [hposition, hstop]
              rfl

end Moved

/-- Scans further on that agree on whether something closed astray, too. -/
structure Shifted (n : Nat) (s t : Scan) : Prop extends Alike s t where
  position : t.position = s.position + n
  last : t.last = s.last

theorem Shifted.moved {n : Nat} (h : Shifted n s t) : Moved n s t where
  mode := h.mode
  depth := h.depth
  bound := by rw [h.last]
  position := h.position

/-- The scan behind a literal that stands behind `s`, with positions counted from there. -/
def behindLiteral (q : Char) (s : Scan) : Scan :=
  { s with position := 0, last := some q, mode := .closing q }

/-- A literal is read from its quote to its quote. -/
theorem shifted_behindLiteral (hs : s.openQuote? = none) (hq : isQuote q = true)
    (hw : Fills q w) :
    Shifted (s.position + (literal q w).length) (behindLiteral q s) (s.read (literal q w)) := by
  obtain ⟨hmode, hdepth, hstray⟩ := step_quote hs hq
  have hbody : ((s.step q).read w).mode = .quoted q := (mode_read_congr hmode w).trans hw.2
  -- The body leaves depth and stray bracket alone; only its closing quote is read outside it.
  have hinside := read_of_staysInside ((staysInside_congr hmode w).trans hw.1)
  have hslash := ne_backslash_of_isQuote hq
  have hclose : ((s.step q).read w).stepMode q =
      { (s.step q).read w with mode := .closing q } := by
    simp [stepMode, hbody, hslash]
  have hread : s.read (literal q w) =
      { (s.step q).read w with
        mode := .closing q, position := ((s.step q).read w).position + 1, last := some q } := by
    rw [literal, read_cons, read_append, read_cons, read_nil, Scan.step, hclose]
  rw [hread]
  refine ⟨⟨rfl, hinside.1.trans hdepth, ?_⟩, ?_, rfl⟩
  · show ((s.step q).read w).strayClose = none ↔ s.strayClose = none
    rw [hinside.2, hstray]
  · show ((s.step q).read w).position + 1 = 0 + (s.position + (literal q w).length)
    rw [position_read, position_step, length_literal]
    omega

/-! ## Keywords around a literal -/

/-- Within a literal no keyword is found. -/
theorem tokensFrom_inside (h : staysInside s w = true) :
    tokensFrom words 0 s (w ++ b) = tokensFrom words 0 (s.read w) b := by
  induction w generalizing s with
  | nil => rfl
  | cons c cs ih =>
      rw [staysInside_cons] at h
      have hnone : keyword? words s c (cs ++ b) = none := by simp [keyword?, h.1]
      rw [List.cons_append, tokensFrom_of_none hnone, ih h.2, read_cons]

theorem tokensFrom_literal (hwords : ∀ k ∈ words, k.WellFormed) (hs : s.openQuote? = none)
    (hq : isQuote q = true) (hw : Fills q w) :
    tokensFrom words 0 s (literal q w ++ b) = tokensFrom words 0 (s.read (literal q w)) b := by
  have hquote : ∀ (s : Scan) (text : List Char),
      tokensFrom words 0 s (q :: text) = tokensFrom words 0 (s.step q) text := fun s text =>
    tokensFrom_of_none
      (keyword?_eq_none_of_not_isNameChar hwords (isNameChar_of_isQuote hq) s text)
  have hinside : staysInside (s.step q) w = true :=
    (staysInside_congr (step_quote hs hq).1 w).trans hw.1
  rw [literal, List.cons_append, hquote, List.append_assoc, tokensFrom_inside hinside,
    List.singleton_append, hquote, read_cons, read_append, read_cons, read_nil]

/-- What stands behind a text is not continued by the literal. -/
theorem ends_literal (hlater : ∀ c, isQuote c = true → c.toUpper ∉ later) (hq : isQuote q = true)
    (w b : List Char) : Ends later (literal q w ++ b) := by
  refine ⟨Keyword.head_cons (isIdentifierChar_of_isQuote hq) _, ?_⟩
  intro c hc
  rw [literal, List.cons_append, List.dropWhile_cons_of_neg (by simp [isBlank_of_isQuote hq])] at hc
  cases hc
  exact hlater q hq

/-- The keywords around a literal: those in front of it, and those behind it as they are found from
a scan that has not seen what stands in the literal. -/
theorem tokens_around_literal (hwords : Lawful words later)
    (hlater : ∀ c, isQuote c = true → c.toUpper ∉ later)
    (ha : (({} : Scan).read a).openQuote? = none) (hq : isQuote q = true) (hw : Fills q w) :
    (tokens words (a ++ (literal q w ++ b))).1 =
      (tokens words a).1 ++
        (tokensFrom words 0 (behindLiteral q (({} : Scan).read a)) b).1.map
          (Token.shift (a ++ literal q w).length) := by
  have hposition : (({} : Scan).read a).position = a.length := by
    rw [position_read]
    exact Nat.zero_add _
  have hshifted := shifted_behindLiteral ha hq hw
  rw [tokens, tokensFrom_append hwords (ends_literal hlater hq w b),
    tokensFrom_literal hwords.formed ha hq hw, hshifted.moved.tokensFrom hwords.formed, hposition,
    List.length_append]
  rfl

theorem bounds_of_mem_tokens (hwords : ∀ k ∈ words, k.WellFormed) {token : Token}
    (h : token ∈ (tokens words a).1) : token.start ≤ token.stop ∧ token.stop ≤ a.length := by
  have hbounds := (bounds_of_mem hwords h).2
  rwa [Nat.zero_add] at hbounds

theorem moveBehind_of_mem (hwords : ∀ k ∈ words, k.WellFormed) {token : Token}
    (h : token ∈ (tokens words a).1) (n : Nat) : token.moveBehind a.length n = token := by
  have hbounds := bounds_of_mem_tokens hwords h
  exact if_pos (by omega)

theorem moveBehind_shift (q : Char) (a w : List Char) (token : Token) :
    (token.shift (a ++ literal q []).length).moveBehind a.length w.length =
      token.shift (a ++ literal q w).length := by
  have hbehind : ¬ (token.shift (a ++ literal q []).length).start ≤ a.length := by
    show ¬ token.start + (a ++ literal q []).length ≤ a.length
    rw [List.length_append, length_literal]
    omega
  have hlength : (a ++ literal q w).length = (a ++ literal q []).length + w.length := by
    simp only [List.length_append, length_literal, List.length_nil]
    omega
  rw [Token.moveBehind, if_neg hbehind, hlength]
  simp only [Token.shift, Nat.add_assoc]

/-- The keywords of a text with a literal are those of the text with an empty one, moved behind the
literal by what stands in it. -/
theorem tokens_literal (hwords : Lawful words later)
    (hlater : ∀ c, isQuote c = true → c.toUpper ∉ later)
    (ha : (({} : Scan).read a).openQuote? = none) (hq : isQuote q = true) (hw : Fills q w) :
    (tokens words (a ++ (literal q w ++ b))).1 =
      (tokens words (a ++ (literal q [] ++ b))).1.map (Token.moveBehind a.length w.length) := by
  have hfront : (tokens words a).1.map (Token.moveBehind a.length w.length) =
      (tokens words a).1 :=
    (List.map_congr_left fun _ h => moveBehind_of_mem hwords.formed h _).trans (List.map_id _)
  have hbehind : Token.moveBehind a.length w.length ∘ Token.shift (a ++ literal q []).length =
      Token.shift (a ++ literal q w).length :=
    funext (moveBehind_shift q a w)
  rw [tokens_around_literal hwords hlater ha hq hw,
    tokens_around_literal hwords hlater ha hq (fills_nil q), List.map_append, List.map_map,
    hfront, hbehind]

/-! ## Behind a keyword -/

theorem mode_read_of_plain (hs : s.mode = .plain) (hw : Ordinary w) :
    (s.read w).mode = .plain := by
  induction w generalizing s with
  | nil => exact hs
  | cons c cs ih =>
      rw [ordinary_cons] at hw
      exact ih (mode_step_of_isOrdinary hw.1 (isOutside_of_plain hs c)) hw.2

/-- Behind a keyword that was found the scan stands in plain text. -/
theorem mode_behind_token (hwords : ∀ k ∈ words, k.WellFormed) {token : Token}
    (h : token ∈ (tokens words a).1) : (({} : Scan).read (a.take token.stop)).mode = .plain := by
  obtain ⟨before, c, behind, n, htext, -, hstop, -, hordinary, houtside, -⟩ :=
    exists_of_mem_tokens hwords h
  have htake : a.take token.stop = before ++ (c :: behind.take n) := by
    rw [htext, hstop, List.take_length_add_append, List.take_succ_cons]
  rw [List.take_succ_cons] at hordinary
  rw [htake, read_append, read_cons]
  exact mode_read_of_plain (mode_step_of_isOrdinary (hordinary c (by simp)) houtside)
    fun d hd => hordinary d (by simp [hd])

/-- What stands behind a keyword may be read by itself. -/
theorem openQuote?_behind_token (hwords : ∀ k ∈ words, k.WellFormed) {token : Token}
    (h : token ∈ (tokens words a).1) (ha : (({} : Scan).read a).openQuote? = none) :
    (({} : Scan).read (a.drop token.stop)).openQuote? = none := by
  have hread : (({} : Scan).read a) =
      (({} : Scan).read (a.take token.stop)).read (a.drop token.stop) := by
    rw [← read_append, List.take_append_drop]
  rw [hread] at ha
  exact (openQuote?_congr (mode_read_congr (mode_behind_token hwords h).symm _)).trans ha

/-- Behind a keyword on any depth the text may be read by itself, which ends no deeper. -/
theorem onTop_behind_token (hwords : ∀ k ∈ words, k.WellFormed) {token : Token}
    (h : token ∈ (tokens words a).1) (ha : OnTop (({} : Scan).read a)) :
    OnTop (({} : Scan).read (a.drop token.stop)) where
  outside := openQuote?_behind_token hwords h ha.outside
  depth := by
    have hread : ({} : Scan).read a =
        (({} : Scan).read (a.take token.stop)).read (a.drop token.stop) := by
      rw [← read_append, List.take_append_drop]
    have hle := depth_read_le (s := {}) (mode_behind_token hwords h) (Nat.zero_le _)
      (a.drop token.stop)
    rw [← hread, ha.depth] at hle
    exact Nat.le_zero.1 hle
  right := QuotedRight.read (s := {}) trivial _

theorem mode_read_start (hw : Ordinary w) : (({} : Scan).read w).mode = .plain :=
  mode_read_of_plain rfl hw

/-- Ordinary characters in front of a text do not matter for where it ends. -/
theorem openQuote?_ordinary_append (hw : Ordinary w) (a : List Char) :
    (({} : Scan).read (w ++ a)).openQuote? = (({} : Scan).read a).openQuote? := by
  rw [read_append]
  exact openQuote?_congr (mode_read_congr (mode_read_start hw) a)

theorem openQuote?_trimStart (a : List Char) :
    (({} : Scan).read (Chars.trimStart a)).openQuote? = (({} : Scan).read a).openQuote? := by
  have hblanks : Ordinary (a.takeWhile isBlank) := fun c hc =>
    isOrdinary_of_isBlank (List.mem_takeWhile_imp hc)
  have hsplit : a.takeWhile isBlank ++ Chars.trimStart a = a := List.takeWhile_append_dropWhile
  rw [← openQuote?_ordinary_append hblanks, hsplit]

/-! ## Closed texts -/

/-- Whether a text with a literal is closed does not depend on what stands in the literal. -/
theorem closed_literal {u v : List Char} (ha : (({} : Scan).read a).openQuote? = none)
    (hq : isQuote q = true) (hu : Fills q u) (hv : Fills q v)
    (h : Closed (a ++ (literal q u ++ b))) : Closed (a ++ (literal q v ++ b)) := by
  have halike : Alike (({} : Scan).read (a ++ (literal q u ++ b)))
      (({} : Scan).read (a ++ (literal q v ++ b))) := by
    have hboth := (shifted_behindLiteral ha hq hu).toAlike.symm.trans
      (shifted_behindLiteral ha hq hv).toAlike
    simpa only [read_append] using hboth.read b
  rw [closed_iff_settled] at h ⊢
  exact halike.settled h

end Scan
end ContentQuery
