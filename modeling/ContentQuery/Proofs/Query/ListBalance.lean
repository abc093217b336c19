import ContentQuery.Proofs.Query.Entries
import ContentQuery.Proofs.Scan.Literals

/-!
# When a SELECT list is refused

How a text is read is said here without a scan: literals are told apart by their quotes, with doubled
quotes and escapes in them, and what stands outside is a list of characters with gaps.  A SELECT list
is refused for a literal that is open at its end, and else for parentheses outside literals that are
not balanced; the error tells the place.  Every other list is cut into entries.
-/

namespace ContentQuery
namespace Scan

/-! ## Readings -/

/-- How a text is read: the characters outside literals, with `none` for each character of a literal,
and where the literal was opened that is open at the end. -/
structure Reading where
  outside : List (Option Char)
  openAt? : Option Nat
deriving DecidableEq, Repr

/-- What may stand behind the quote of a literal without ending it; a last backslash has nothing left
to escape. -/
def Unended (q : Char) (text : List Char) : Prop :=
  Body q text ∨ ∃ front, Body q front ∧ text = front ++ ['\\']

/-- What may stand behind a quote that opens a literal, if the literal ends. -/
def Ended (q : Char) (text : List Char) : Prop :=
  ∃ body cs, text = body ++ q :: cs ∧ Body q body ∧ ∀ c ∈ cs.head?, c ≠ q

/-- The reading of a text whose first character has the position `n`. -/
inductive Reads : (n : Nat) → List Char → Reading → Prop
  | nil (n : Nat) : Reads n [] ⟨[], none⟩
  | plain {n : Nat} {c : Char} {cs : List Char} {r : Reading} :
      isQuote c = false → Reads (n + 1) cs r → Reads n (c :: cs) ⟨some c :: r.outside, r.openAt?⟩
  /-- A quote ends a literal unless it is doubled. -/
  | literal {n : Nat} {q : Char} {body cs : List Char} {r : Reading} :
      isQuote q = true → Body q body → (∀ c ∈ cs.head?, c ≠ q) →
        Reads (n + (literal q body).length) cs r →
        Reads n (literal q body ++ cs)
          ⟨List.replicate (literal q body).length none ++ r.outside, r.openAt?⟩
  | unended {n : Nat} {q : Char} {text : List Char} :
      isQuote q = true → Unended q text →
        Reads n (q :: text) ⟨List.replicate (text.length + 1) none, some n⟩

theorem Ended.append {q : Char} {front text : List Char}
    (hfront : ∀ {text}, Body q text → Body q (front ++ text)) (h : Ended q text) :
    Ended q (front ++ text) := by
  obtain ⟨body, cs, rfl, hbody, hcs⟩ := h
  exact ⟨front ++ body, cs, (List.append_assoc _ _ _).symm, hfront hbody, hcs⟩

theorem Unended.append {q : Char} {front text : List Char}
    (hfront : ∀ {text}, Body q text → Body q (front ++ text)) (h : Unended q text) :
    Unended q (front ++ text) := by
  rcases h with hbody | ⟨body, hbody, rfl⟩
  · exact .inl (hfront hbody)
  · exact .inr ⟨front ++ body, hfront hbody, (List.append_assoc _ _ _).symm⟩

/-- Behind the quote that opens it a literal ends or stays open. -/
theorem ended_or_unended (q : Char) : ∀ text, Ended q text ∨ Unended q text
  | [] => .inr (.inl .nil)
  | [c] => by
      by_cases hquote : c = q
      · exact .inl ⟨[], [], by rw [hquote]; rfl, .nil, by simp⟩
      · by_cases hslash : c = '\\'
        · exact .inr (.inr ⟨[], .nil, by rw [hslash]; rfl⟩)
        · exact .inr (.inl (.plain hquote hslash .nil))
  | c :: d :: cs => by
      by_cases hslash : c = '\\'
      · rw [hslash]
        have hfront : ∀ {text}, Body q text → Body q (['\\', d] ++ text) := .escaped d
        exact (ended_or_unended q cs).imp (.append hfront) (.append hfront)
      · by_cases hquote : c = q
        · rw [hquote]
          by_cases hdouble : d = q
          · rw [hdouble]
            have hfront : ∀ {text}, Body q text → Body q ([q, q] ++ text) := .doubled
            exact (ended_or_unended q cs).imp (.append hfront) (.append hfront)
          · exact .inl ⟨[], d :: cs, rfl, .nil, by simpa using hdouble⟩
        · have hfront : ∀ {text}, Body q text → Body q ([c] ++ text) := .plain hquote hslash
          exact (ended_or_unended q (d :: cs)).imp (.append hfront) (.append hfront)

/-- Every text has a reading. -/
theorem exists_reads (n : Nat) : ∀ text, ∃ r, Reads n text r
  | [] => ⟨_, .nil n⟩
  | c :: cs => by
      cases hquote : isQuote c with
      | false =>
          obtain ⟨r, hr⟩ := exists_reads (n + 1) cs
          exact ⟨_, .plain hquote hr⟩
      | true =>
          rcases ended_or_unended c cs with ⟨body, rest, hsplit, hbody, hrest⟩ | hunended
          · obtain ⟨r, hr⟩ := exists_reads (n + (literal c body).length) rest
            have htext : c :: cs = literal c body ++ rest := by
              rw [hsplit, literal, List.cons_append, List.append_assoc]
              rfl
            rw [htext]
            exact ⟨_, .literal hquote hbody hrest hr⟩
          · exact ⟨_, .unended hquote hunended⟩
termination_by text => text.length
decreasing_by
  · simp
  · rw [hsplit]
    simp
    omega

/-! ## Readings by a scan -/

variable {s : Scan} {n : Nat} {text w : List Char} {q : Char} {r : Reading}

/-- The characters of a text that a scan takes for characters outside literals. -/
def outsideOf : Scan → List Char → List (Option Char)
  | _, [] => []
  | s, c :: cs =>
      (if s.isOutside c && !isQuote c then some c else none) :: outsideOf (s.step c) cs

theorem outsideOf_inside (h : staysInside s w = true) (b : List Char) :
    outsideOf s (w ++ b) = List.replicate w.length none ++ outsideOf (s.read w) b := by
  induction w generalizing s with
  | nil => rfl
  | cons c cs ih =>
      rw [staysInside_cons] at h
      rw [List.cons_append, outsideOf, h.1, ih h.2]
      rfl

theorem outsideOf_quote (hq : isQuote q = true) (b : List Char) :
    outsideOf s (q :: b) = none :: outsideOf (s.step q) b := by
  simp [outsideOf, hq]

theorem quoteStart_step_inside {c : Char} (hc : s.isOutside c = false) :
    (s.step c).quoteStart = s.quoteStart := by
  rw [step, stepMode_of_inside hc]

/-- Within a literal the scan keeps in mind where the literal was opened. -/
theorem quoteStart_read_inside (h : staysInside s w = true) :
    (s.read w).quoteStart = s.quoteStart := by
  induction w generalizing s with
  | nil => rfl
  | cons c cs ih =>
      rw [staysInside_cons] at h
      rw [read_cons, ih h.2, quoteStart_step_inside h.1]

theorem quoteStart_step_quote (hs : s.isOutside q = true) (hq : isQuote q = true) :
    (s.step q).quoteStart = s.position := by
  rw [step, stepMode_of_isOutside hs, stepPlain, if_pos (isQuote_iff.1 hq)]

/-- Outside literals a parenthesis opens a depth. -/
theorem step_opening (hs : s.isOutside '(' = true) :
    (s.step '(').depth = s.depth + 1 ∧ (s.step '(').strayClose = s.strayClose := by
  rw [step, stepMode_of_isOutside hs]
  exact ⟨rfl, rfl⟩

/-- Outside literals a parenthesis closes a depth, or it is astray; only the first one that is astray
is noted. -/
theorem step_closing (hs : s.isOutside ')' = true) :
    (s.step ')').depth = s.depth - 1 ∧ (s.step ')').strayClose =
      if s.depth = 0 then some (s.strayClose.getD s.position) else s.strayClose := by
  rw [step, stepMode_of_isOutside hs]
  cases hdepth : s.depth <;> simp [stepPlain, hdepth]

/-- A scan in a literal is still in it behind what does not end the literal. -/
theorem read_unended (hslash : q ≠ '\\') (hmode : s.mode = .quoted q) (h : Unended q w) :
    staysInside s w = true ∧ (s.read w).openQuote? = some q := by
  have hbody : ∀ {v}, Body q v → staysInside s v = true ∧ (s.read v).mode = .quoted q := by
    intro v hv
    have hfills := hv.fills hslash
    have hopened : s.mode = (opened q).mode := hmode
    exact ⟨(staysInside_congr hopened v).trans hfills.1, (mode_read_congr hopened v).trans hfills.2⟩
  rcases h with hw | ⟨front, hfront, rfl⟩
  · exact ⟨(hbody hw).1, by simp [openQuote?, (hbody hw).2]⟩
  · obtain ⟨hinside, hquoted⟩ := hbody hfront
    refine ⟨?_, ?_⟩
    · rw [staysInside_append, hinside]
      simp [staysInside, everywhere, isOutside, hquoted]
    · rw [read_append]
      simp [openQuote?, step, stepMode, hquoted]

theorem outsideOf_literal (hs : s.openQuote? = none) (hq : isQuote q = true) (hw : Fills q w)
    (b : List Char) :
    outsideOf s (literal q w ++ b) =
      List.replicate (literal q w).length none ++ outsideOf (s.read (literal q w)) b := by
  have hinside : staysInside (s.step q) w = true :=
    (staysInside_congr (step_quote hs hq).1 w).trans hw.1
  have hlength : (literal q w).length = w.length + 1 + 1 := length_literal q w
  rw [hlength, literal, List.cons_append, outsideOf_quote hq, List.append_assoc,
    outsideOf_inside hinside, List.singleton_append, outsideOf_quote hq, read_cons, read_append,
    List.replicate_succ, List.replicate_succ', List.cons_append, List.append_assoc]
  rfl

theorem mode_step_plain {c : Char} (hs : s.isOutside c = true) (hc : isQuote c = false) :
    (s.step c).mode = .plain := by
  rw [mode_step_of_isOutside hs, hc]
  rfl

/-- What a scan finds is the reading of the text. -/
theorem Reads.eq (h : Reads n text r) (hs : s.openQuote? = none)
    (hhead : ∀ c ∈ text.head?, s.isOutside c = true) (hposition : s.position = n) :
    r.outside = outsideOf s text ∧
      r.openAt? = if (s.read text).openQuote?.isSome then some (s.read text).quoteStart else none := by
  -- A text goes on with a plain character, a whole literal, or a literal that is never closed.
  induction h generalizing s with
  | nil n => simp [outsideOf, hs]
  | @plain n c cs r hc _ ih =>
      have houtside := hhead c rfl
      have hmode := mode_step_plain houtside hc
      have hrest := ih (by simp [openQuote?, hmode]) (fun d _ => isOutside_of_plain hmode d)
        (by rw [position_step, hposition])
      rw [outsideOf, houtside, hc, hrest.1, hrest.2]
      exact ⟨rfl, rfl⟩
  | @literal n q body cs r hq hbody hcs _ ih =>
      have hfills := hbody.fills (ne_backslash_of_isQuote hq)
      have hmode : (s.read (Scan.literal q body)).mode = .closing q :=
        (shifted_behindLiteral hs hq hfills).mode
      have hnext : ∀ c ∈ cs.head?, (s.read (Scan.literal q body)).isOutside c = true := by
        intro c hc
        simpa [isOutside, hmode] using hcs c hc
      have hclosed : (s.read (Scan.literal q body)).openQuote? = none := by
        simp [openQuote?, hmode]
      have hrest := ih hclosed hnext (by rw [position_read, hposition])
      rw [outsideOf_literal hs hq hfills, read_append, hrest.1, hrest.2]
      exact ⟨rfl, rfl⟩
  | @unended n q text hq htext =>
      obtain ⟨hinside, hopen⟩ :=
        read_unended (ne_backslash_of_isQuote hq) (step_quote hs hq).1 htext
      have hstart := quoteStart_step_quote (hhead q rfl) hq
      have houtside := outsideOf_inside hinside []
      rw [List.append_nil, outsideOf, List.append_nil] at houtside
      rw [outsideOf_quote hq, houtside, read_cons, hopen, quoteStart_read_inside hinside, hstart,
        hposition, List.replicate_succ]
      exact ⟨rfl, rfl⟩

/-- A text has exactly one reading, which a fresh scan finds. -/
theorem Reads.eq_start (h : Reads 0 text r) :
    r.outside = outsideOf {} text ∧
      r.openAt? = if (({} : Scan).read text).openQuote?.isSome then
        some (({} : Scan).read text).quoteStart else none :=
  h.eq rfl (fun c _ => isOutside_of_plain rfl c) rfl

theorem Reads.unique {r' : Reading} (h : Reads 0 text r) (h' : Reads 0 text r') : r' = r := by
  rcases r with ⟨outside, openAt⟩
  rcases r' with ⟨outside', openAt'⟩
  have heq := h.eq_start
  have heq' := h'.eq_start
  simp only at heq heq'
  rw [heq.1, heq.2, heq'.1, heq'.2]

/-! ## Balance -/

/-- The opening parentheses among characters outside literals. -/
def openings (outside : List (Option Char)) : Nat :=
  outside.count (some '(')

/-- The closing parentheses among characters outside literals. -/
def closings (outside : List (Option Char)) : Nat :=
  outside.count (some ')')

/-- No beginning of a text has more closing than opening parentheses. -/
def NeverExceeds (outside : List (Option Char)) : Prop :=
  ∀ k, closings (outside.take k) ≤ openings (outside.take k)

/-- Every parenthesis that opens is closed, and only those are. -/
def Balanced (outside : List (Option Char)) : Prop :=
  NeverExceeds outside ∧ closings outside = openings outside

/-- The closing parenthesis at position `n` is the first one at which the closing ones outnumber the
opening ones. -/
structure FirstExcess (outside : List (Option Char)) (n : Nat) : Prop where
  closing : outside[n]? = some (some ')')
  exceeds : openings (outside.take (n + 1)) < closings (outside.take (n + 1))
  before : ∀ k ≤ n, closings (outside.take k) ≤ openings (outside.take k)

variable {m : List (Option Char)} {x : Option Char}

theorem neverExceeds_nil : NeverExceeds [] := by
  intro k
  rw [List.take_nil]
  exact Nat.le_refl _

theorem neverExceeds_snoc_iff :
    NeverExceeds (m ++ [x]) ↔ NeverExceeds m ∧ closings (m ++ [x]) ≤ openings (m ++ [x]) := by
  constructor
  · intro h
    refine ⟨fun k => ?_, ?_⟩
    · by_cases hk : k ≤ m.length
      · have hprefix := h k
        rwa [List.take_append_of_le_length hk] at hprefix
      · have hprefix := h m.length
        rw [List.take_left] at hprefix
        rwa [List.take_of_length_le (by omega)]
    · have hall := h (m ++ [x]).length
      rwa [List.take_length] at hall
  · rintro ⟨hbefore, hall⟩ k
    by_cases hk : k ≤ m.length
    · rw [List.take_append_of_le_length hk]
      exact hbefore k
    · rw [List.take_of_length_le (by rw [List.length_append, List.length_singleton]; omega)]
      exact hall

theorem firstExcess_snoc_iff {n : Nat} :
    FirstExcess (m ++ [x]) n ↔
      FirstExcess m n ∨ n = m.length ∧ x = some ')' ∧ NeverExceeds m ∧
        openings (m ++ [x]) < closings (m ++ [x]) := by
  have hbefore : ∀ {k}, k ≤ m.length → (m ++ [x]).take k = m.take k :=
    fun hk => List.take_append_of_le_length hk
  have hall : (m ++ [x]).take (m.length + 1) = m ++ [x] :=
    List.take_of_length_le (by simp)
  constructor
  · intro h
    have hbound : n < (m ++ [x]).length := (List.getElem?_eq_some_iff.1 h.closing).1
    rw [List.length_append, List.length_singleton] at hbound
    by_cases hn : n < m.length
    · refine .inl ⟨?_, ?_, fun k hk => ?_⟩
      · rw [← h.closing, List.getElem?_append_left hn]
      · rw [← hbefore (show n + 1 ≤ m.length by omega)]
        exact h.exceeds
      · rw [← hbefore (show k ≤ m.length by omega)]
        exact h.before k hk
    · -- The last character is the first excess, so there is none before it.
      have hlast : n = m.length := by omega
      subst hlast
      have hclosing : x = some ')' := by simpa using h.closing
      have hexceeds := h.exceeds
      rw [hall] at hexceeds
      refine .inr ⟨rfl, hclosing, fun k => ?_, hexceeds⟩
      by_cases hk : k ≤ m.length
      · rw [← hbefore hk]
        exact h.before k hk
      · have hwhole := h.before m.length (Nat.le_refl _)
        rw [List.take_left] at hwhole
        rwa [List.take_of_length_le (by omega)]
  · rintro (h | ⟨rfl, rfl, hnever, hexceeds⟩)
    · have hn : n < m.length := (List.getElem?_eq_some_iff.1 h.closing).1
      refine ⟨?_, ?_, fun k hk => ?_⟩
      · rw [List.getElem?_append_left hn, h.closing]
      · rw [hbefore (show n + 1 ≤ m.length by omega)]
        exact h.exceeds
      · rw [hbefore (show k ≤ m.length by omega)]
        exact h.before k hk
    · refine ⟨by simp, by rwa [hall], fun k hk => ?_⟩
      rw [hbefore hk]
      exact hnever k

theorem FirstExcess.not_neverExceeds {n : Nat} (h : FirstExcess m n) : ¬ NeverExceeds m :=
  fun hnever => absurd (hnever (n + 1)) (Nat.not_le.2 h.exceeds)

/-! ## The tally of a scan -/

/-- The scan keeps count of the parentheses in `m`, which it has passed. -/
structure Tallies (m : List (Option Char)) (s : Scan) : Prop where
  stray : ∀ n, s.strayClose = some n ↔ FirstExcess m n
  depth : s.strayClose = none → NeverExceeds m ∧ s.depth + closings m = openings m

theorem tallies_start : Tallies [] {} where
  stray := by
    intro n
    constructor
    · intro h
      cases h
    · intro h
      exact absurd h.closing (by simp)
  depth _ := ⟨neverExceeds_nil, rfl⟩

/-- What is no parenthesis does not count. -/
theorem Tallies.skip {t : Scan} (h : Tallies m s) (hopen : x ≠ some '(') (hclose : x ≠ some ')')
    (hdepth : t.depth = s.depth) (hstray : t.strayClose = s.strayClose) : Tallies (m ++ [x]) t := by
  have hopenings : openings (m ++ [x]) = openings m := by
    simp [openings, List.count_append, hopen]
  have hclosings : closings (m ++ [x]) = closings m := by
    simp [closings, List.count_append, hclose]
  constructor
  case stray =>
    intro n
    rw [hstray, h.stray, firstExcess_snoc_iff]
    simp [hclose]
  case depth =>
    intro hnone
    rw [hstray] at hnone
    obtain ⟨hnever, hsum⟩ := h.depth hnone
    rw [neverExceeds_snoc_iff, hopenings, hclosings, hdepth]
    exact ⟨⟨hnever, by omega⟩, hsum⟩

theorem Tallies.opening {t : Scan} (h : Tallies m s) (hdepth : t.depth = s.depth + 1)
    (hstray : t.strayClose = s.strayClose) : Tallies (m ++ [some '(']) t := by
  have hopenings : openings (m ++ [some '(']) = openings m + 1 := by
    simp [openings, List.count_append]
  have hclosings : closings (m ++ [some '(']) = closings m := by
    simp [closings, List.count_append]
  constructor
  case stray =>
    intro n
    rw [hstray, h.stray, firstExcess_snoc_iff]
    simp
  case depth =>
    intro hnone
    rw [hstray] at hnone
    obtain ⟨hnever, hsum⟩ := h.depth hnone
    rw [neverExceeds_snoc_iff, hopenings, hclosings, hdepth]
    exact ⟨⟨hnever, by omega⟩, by omega⟩

/-- A closing parenthesis closes one, or it is astray, which the scan notes once. -/
theorem Tallies.closing (h : Tallies m s) (hposition : s.position = m.length)
    (hs : s.isOutside ')' = true) : Tallies (m ++ [some ')']) (s.step ')') := by
  have hopenings : openings (m ++ [some ')']) = openings m := by
    simp [openings, List.count_append]
  have hclosings : closings (m ++ [some ')']) = closings m + 1 := by
    simp [closings, List.count_append]
  have hstep := step_closing hs
  have hexcess : ∀ {n}, FirstExcess (m ++ [some ')']) n ↔
      FirstExcess m n ∨ n = m.length ∧ NeverExceeds m ∧ openings m < closings m + 1 := by
    intro n
    rw [firstExcess_snoc_iff, hopenings, hclosings]
    simp
  constructor
  case stray =>
    intro n
    rw [hstep.2, hexcess, ← h.stray]
    cases hstray : s.strayClose with
    | some p =>
        -- An earlier one is the first.
        have hnever : ¬ NeverExceeds m := ((h.stray p).1 hstray).not_neverExceeds
        simp [hnever]
    | none =>
        obtain ⟨hnever, hsum⟩ := h.depth hstray
        by_cases hdepth : s.depth = 0
        · have hlt : openings m < closings m + 1 := by omega
          simp [hdepth, hnever, hlt, hposition, eq_comm]
        · have hlt : ¬ openings m < closings m + 1 := by omega
          simp [hdepth, hlt]
  case depth =>
    intro hnone
    rw [hstep.2] at hnone
    split at hnone
    · cases hnone
    · obtain ⟨hnever, hsum⟩ := h.depth hnone
      rw [neverExceeds_snoc_iff, hopenings, hclosings, hstep.1]
      exact ⟨⟨hnever, by omega⟩, by omega⟩

/-- One character more is counted if it stands outside literals. -/
theorem Tallies.step (h : Tallies m s) (hposition : s.position = m.length) (c : Char) :
    Tallies (m ++ [if s.isOutside c && !isQuote c then some c else none]) (s.step c) := by
  -- Only parentheses outside literals count, and all other characters are skipped.
  cases houtside : s.isOutside c with
  | false =>
      obtain ⟨hdepth, hstray⟩ := step_of_inside houtside
      exact h.skip (by simp) (by simp) hdepth hstray
  | true =>
      cases hquote : isQuote c with
      | true =>
          obtain ⟨-, hdepth, hstray⟩ := step_quote (openQuote?_of_isOutside houtside) hquote
          exact h.skip (by simp) (by simp) hdepth hstray
      | false =>
          rw [Bool.not_false, Bool.and_self, if_pos rfl]
          by_cases hopen : c = '('
          · subst hopen
            exact h.opening (step_opening houtside).1 (step_opening houtside).2
          · by_cases hclose : c = ')'
            · subst hclose
              exact h.closing hposition houtside
            · have hordinary : isOrdinary c = true := by
                have hne : ¬(c = '\'' ∨ c = '"') := by simp [← isQuote_iff, hquote]
                rw [not_or] at hne
                simp [isOrdinary, hne.1, hne.2, hopen, hclose]
              rw [step_of_isOrdinary hordinary houtside]
              exact h.skip (by simpa using hopen) (by simpa using hclose) rfl rfl

/-- Behind a text the scan has counted what stands outside literals in it. -/
theorem Tallies.read (h : Tallies m s) (hposition : s.position = m.length) (text : List Char) :
    Tallies (m ++ outsideOf s text) (s.read text) := by
  induction text generalizing s m with
  | nil => simpa [outsideOf] using h
  | cons c cs ih =>
      have hrest := ih (h.step hposition c) (by simp [hposition])
      rwa [List.append_assoc] at hrest

/-- Parentheses are balanced if the scan ends with none astray and none open. -/
theorem Tallies.balanced_iff (h : Tallies m s) :
    Balanced m ↔ s.strayClose = none ∧ s.depth = 0 := by
  constructor
  · rintro ⟨hnever, hequal⟩
    have hstray : s.strayClose = none := by
      rw [Option.eq_none_iff_forall_ne_some]
      exact fun n hn => ((h.stray n).1 hn).not_neverExceeds hnever
    have hsum := (h.depth hstray).2
    exact ⟨hstray, by omega⟩
  · rintro ⟨hstray, hdepth⟩
    obtain ⟨hnever, hsum⟩ := h.depth hstray
    exact ⟨hnever, by omega⟩

theorem tallies_read (text : List Char) : Tallies (outsideOf {} text) (({} : Scan).read text) :=
  tallies_start.read rfl text

end Scan

/-! ## Lists -/

namespace SelectList

open Scan (Balanced FirstExcess Reading Reads)

/-- A list is refused exactly for a literal that is open at its end, with the place of its quote, or
else for parentheses that are not balanced, with the place of the first closing one too many if there
is one, and the end of the text if not.  Every other list is cut. -/
theorem split_exact (text : List Char) :
    ∃ r : Reading, Reads 0 text r ∧ (∀ r', Reads 0 text r' → r' = r) ∧
      (∀ position, split text = .error (.unterminatedLiteral position) ↔
        r.openAt? = some position) ∧
      (∀ position, split text = .error (.unbalancedParentheses position) ↔
        r.openAt? = none ∧ ¬ Balanced r.outside ∧
          (FirstExcess r.outside position ∨
            (¬ ∃ n, FirstExcess r.outside n) ∧ position = text.length)) ∧
      ((∃ specs, split text = .ok specs) ↔ r.openAt? = none ∧ Balanced r.outside) := by
  obtain ⟨r, hr⟩ := Scan.exists_reads 0 text
  obtain ⟨houtside, hopen⟩ := hr.eq_start
  have htally := Scan.tallies_read text
  rw [← houtside] at htally
  refine ⟨r, hr, fun r' hr' => hr.unique hr', ?_⟩
  simp only [split_eq, hopen, htally.balanced_iff, ← htally.stray]
  cases (({} : Scan).read text).openQuote? with
  | some quote => simp [eq_comm]
  | none =>
      cases (({} : Scan).read text).strayClose with
      | some first => simp [eq_comm]
      | none =>
          -- Nothing is astray, so what is left open decides.
          by_cases hdepth : (({} : Scan).read text).depth = 0
          · simp [hdepth]
          · simp [Nat.pos_of_ne_zero hdepth, hdepth, eq_comm]

end SelectList
end ContentQuery
