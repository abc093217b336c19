import Mathlib.Data.List.TakeWhile
import ContentQuery.Proofs.Scan.Closed
import ContentQuery.Proofs.Scan.Tokens

/-!
# Pieces of a closed text

Everything that is cut out of a closed text at keywords or separators on its top level is closed
again, and so is what remains when blanks or other ordinary characters are taken from its ends.
-/

namespace ContentQuery

namespace Chars

/-- Trimming takes blanks from both ends. -/
theorem exists_blanks (s : List Char) :
    ∃ u v, (∀ c ∈ u, isBlank c = true) ∧ (∀ c ∈ v, isBlank c = true) ∧ s = u ++ (trim s ++ v) := by
  have hend : ∀ r : List Char, ∃ v, (∀ c ∈ v, isBlank c = true) ∧ r = trimEnd r ++ v := by
    intro r
    refine ⟨(r.reverse.takeWhile isBlank).reverse, ?_, ?_⟩
    · intro c hc
      exact List.mem_takeWhile_imp (List.mem_reverse.1 hc)
    · rw [trimEnd, ← List.reverse_append, List.takeWhile_append_dropWhile, List.reverse_reverse]
  rcases hend (trimStart s) with ⟨v, hv, htrim⟩
  refine ⟨s.takeWhile isBlank, v, fun c hc => List.mem_takeWhile_imp hc, hv, ?_⟩
  calc s = s.takeWhile isBlank ++ trimStart s := (List.takeWhile_append_dropWhile).symm
    _ = s.takeWhile isBlank ++ (trim s ++ v) := congrArg _ htrim

/-- A trimmed text does not end in blanks. -/
theorem eq_nil_of_trim_append {s a b : List Char} (h : trim s = a ++ b) (hb : trim b = []) :
    b = [] := by
  obtain ⟨u, v, hu, hv, hsplit⟩ := exists_blanks b
  rw [hb, List.nil_append] at hsplit
  have hblanks : ∀ c ∈ b, isBlank c = true := by
    rw [hsplit]
    exact List.forall_mem_append.2 ⟨hu, hv⟩
  -- A trimmed text does not end in a blank, so blanks can only be a part of it that is empty.
  by_contra hne
  have hmem : b.getLast hne ∈ (trim s).getLast? := by
    rw [h, List.getLast?_append, List.getLast?_eq_some_getLast hne]
    rfl
  have hlast := getLast_trim _ hmem
  rw [hblanks _ (List.getLast_mem hne)] at hlast
  cases hlast

end Chars

namespace Scan

open Chars (isBlank)

variable {d : Nat} {s t : Scan} {a b text w : List Char}

/-! ## Inert texts -/

/-- Characters that mean nothing outside literals, and nothing inside but to end an escape. -/
def isInert (c : Char) : Bool :=
  isOrdinary c && c != '\\'

theorem isInert_of_isNameChar {c : Char} (h : Chars.isNameChar c = true) : isInert c = true := by
  have hslash : c ≠ '\\' := by
    rintro rfl
    exact absurd h (by decide)
  simp [isInert, isOrdinary_of_isNameChar h, hslash]

theorem isInert_of_isBlank {c : Char} (h : isBlank c = true) : isInert c = true := by
  have hslash : c ≠ '\\' := by
    rintro rfl
    exact absurd h (by decide)
  simp [isInert, isOrdinary_of_isBlank h, hslash]

/-- Where a scan stands behind inert characters. -/
def Mode.rest : Mode → Mode
  | .plain | .closing _ => .plain
  | .quoted quote | .escaped quote => .quoted quote

theorem step_inert (hs : s.QuotedRight) {c : Char} (hc : isInert c = true) :
    (s.step c).mode = Mode.rest s.mode ∧ (s.step c).depth = s.depth ∧
      (s.step c).strayClose = s.strayClose := by
  rw [isInert, Bool.and_eq_true, bne_iff_ne] at hc
  -- An inert character is neither a quote nor a backslash, the two that a literal reacts to.
  have hne : ∀ q, isQuote q = true → c ≠ q := by
    rintro q hq rfl
    simp [isQuote_of_isOrdinary hc.1] at hq
  cases hm : s.mode with
  | plain =>
      rw [step_of_isOrdinary hc.1 (by simp [isOutside, hm])]
      exact ⟨rfl, rfl, rfl⟩
  | quoted q =>
      have hq : c ≠ q := hne q (by simpa [QuotedRight, hm] using hs)
      simp [step, stepMode, hm, hc.2, hq, Mode.rest]
  | escaped q => simp [step, stepMode, hm, Mode.rest]
  | closing q =>
      have hq : c ≠ q := hne q (by simpa [QuotedRight, hm] using hs)
      rw [step_of_isOrdinary hc.1 (by simp [isOutside, hm, hq])]
      exact ⟨rfl, rfl, rfl⟩

theorem read_inert (hs : s.QuotedRight) (hw : ∀ c ∈ w, isInert c = true) (hne : w ≠ []) :
    (s.read w).mode = Mode.rest s.mode ∧ (s.read w).depth = s.depth ∧
      (s.read w).strayClose = s.strayClose := by
  -- One character settles the mode, and the ones after it leave it where it rests.
  have hrest : ∀ m, Mode.rest (Mode.rest m) = Mode.rest m := by
    intro m
    cases m <;> rfl
  induction w generalizing s with
  | nil => exact absurd rfl hne
  | cons c cs ih =>
      have hone := step_inert hs (hw c (by simp))
      cases cs with
      | nil => exact hone
      | cons e es =>
          have hmore := ih (hs.step c) (fun d hd => hw d (by simp [hd])) (by simp)
          rw [hone.1, hone.2.1, hone.2.2, hrest] at hmore
          exact hmore

theorem inside_inert (hw : ∀ c ∈ w, isInert c = true) : Inside w := by
  have hchars : Inside (w.flatMap fun c => [c]) := by
    refine inside_flatMap fun c hc => ?_
    refine inside_char ?_ ?_
    · rintro rfl
      exact absurd (hw _ hc) (by decide)
    · rintro rfl
      exact absurd (hw _ hc) (by decide)
  simpa using hchars

/-- One inert text has the effect of any other, unless one of them is empty. -/
theorem Alike.inert (h : Alike s t) (hs : s.QuotedRight) {v : List Char}
    (hv : ∀ c ∈ v, isInert c = true) (hvne : v ≠ []) (hw : ∀ c ∈ w, isInert c = true)
    (hwne : w ≠ []) : Alike (s.read v) (t.read w) := by
  rcases read_inert hs hv hvne with ⟨hvm, hvd, hvs⟩
  rcases read_inert (h.quotedRight hs) hw hwne with ⟨hwm, hwd, hws⟩
  refine ⟨?_, ?_, ?_⟩
  · rw [hvm, hwm, h.mode]
  · rw [hvd, hwd, h.depth]
  · rw [hvs, hws, h.stray]

theorem quotedRight_read (text : List Char) : (({} : Scan).read text).QuotedRight :=
  QuotedRight.read (s := {}) trivial text

theorem Closed.replace_inert {v : List Char} (h : Closed (a ++ (v ++ b)))
    (hv : ∀ c ∈ v, isInert c = true) (hvne : v ≠ []) (hw : ∀ c ∈ w, isInert c = true)
    (hwne : w ≠ []) : Closed (a ++ (w ++ b)) := by
  have hmiddle := (Alike.refl (({} : Scan).read a)).inert (quotedRight_read a) hv hvne hw hwne
  rw [closed_iff_settled, read_append, read_append] at h ⊢
  exact (hmiddle.read b).settled h

/-! ## Ends of texts -/

theorem settled_of_isOutside {c : Char} (hs : s.QuotedRight) (houtside : s.isOutside c = true)
    (hdepth : s.depth = d) (hstray : s.strayClose = none) : Settled d s := by
  refine ⟨?_, hdepth, hstray, hs⟩
  cases hm : s.mode with
  | plain => simp [openQuote?, hm]
  | quoted q => simp [isOutside, hm] at houtside
  | escaped q => simp [isOutside, hm] at houtside
  | closing q => simp [openQuote?, hm]

/-- Ordinary characters cannot settle a scan that was not settled before them. -/
theorem Settled.of_step (hs : s.QuotedRight) {c : Char} (hc : isOrdinary c = true)
    (h : Settled d (s.step c)) : Settled d s := by
  cases houtside : s.isOutside c with
  | true =>
      rw [step_of_isOrdinary hc houtside] at h
      exact settled_of_isOutside hs houtside h.depth_eq h.stray
  | false =>
      -- Only its own quote would lead out of a literal.
      have hout := h.outside
      have hne : ∀ q, isQuote q = true → c ≠ q := by
        rintro q hq rfl
        simp [isQuote_of_isOrdinary hc] at hq
      cases hm : s.mode with
      | plain => simp [Scan.isOutside, hm] at houtside
      | quoted q =>
          have hq : c ≠ q := hne q (by simpa [QuotedRight, hm] using hs)
          by_cases hslash : c = '\\'
          · simp [Scan.step, stepMode, hm, hslash, openQuote?] at hout
          · simp [Scan.step, stepMode, hm, hslash, hq, openQuote?] at hout
      | escaped q => simp [Scan.step, stepMode, hm, openQuote?] at hout
      | closing q =>
          have hq : c ≠ q := hne q (by simpa [QuotedRight, hm] using hs)
          simp [Scan.isOutside, hm, hq] at houtside

theorem Settled.of_read (hs : s.QuotedRight) (hw : Ordinary w)
    (h : Settled d (s.read w)) : Settled d s := by
  induction w generalizing s with
  | nil => exact h
  | cons c cs ih =>
      have hrest := ih (hs.step c) (fun e he => hw e (by simp [he])) h
      exact hrest.of_step hs (hw c (by simp))

/-- Ordinary characters behind a text do not matter. -/
theorem closed_append_iff (hw : Ordinary w) : Closed (a ++ w) ↔ Closed a := by
  constructor
  · intro h
    rw [closed_iff_settled, read_append] at h
    exact closed_iff_settled.2 (h.of_read (quotedRight_read a) hw)
  · exact fun h => h.append (neutral_ordinary hw)

/-- Nor do ordinary characters in front of it. -/
theorem closed_prepend_iff (hw : Ordinary w) : Closed (w ++ a) ↔ Closed a := by
  by_cases hne : w = []
  · simp [hne]
  · have hplain := settled_start.mode_read hw hne
    rw [closed_iff_settled, read_append]
    exact ⟨closed_of_settled (settled_start.read hw) hplain, (settled_start.read hw).read_plain hplain⟩

/-- A closed text that begins with an ordinary character may stand directly behind a literal. -/
theorem neutral_of_closed (h : Closed text) (hhead : ∀ c ∈ text.head?, isOrdinary c = true) :
    Neutral text := by
  cases text with
  | nil => exact neutral_nil
  | cons c cs =>
      have hc : Ordinary [c] := by simpa using hhead
      exact ((closed_prepend_iff hc).1 h).neutral_append hc (by simp)

theorem closed_trim_iff : Closed (Chars.trim text) ↔ Closed text := by
  rcases Chars.exists_blanks text with ⟨u, v, hu, hv, htext⟩
  have hu' : Ordinary u := fun c hc => isOrdinary_of_isBlank (hu c hc)
  have hv' : Ordinary v := fun c hc => isOrdinary_of_isBlank (hv c hc)
  calc Closed (Chars.trim text)
      ↔ Closed (Chars.trim text ++ v) := (closed_append_iff hv').symm
    _ ↔ Closed (u ++ (Chars.trim text ++ v)) := (closed_prepend_iff hu').symm
    _ ↔ Closed text := by rw [← htext]

/-! ## Slices -/

/-- A piece may end at position `n`: outside literals and parentheses. -/
def Stops (text : List Char) (n : Nat) : Prop :=
  Settled 0 (({} : Scan).read (text.take n))

/-- A piece may start at position `n`: nothing there can double a quote. -/
def Starts (text : List Char) (n : Nat) : Prop :=
  Stops text n ∧ (({} : Scan).read (text.take n)).mode = .plain

theorem stops_of_settled (htext : text = a ++ b) (h : Settled 0 (({} : Scan).read a)) :
    Stops text a.length := by
  rw [Stops, htext, List.take_left]
  exact h

theorem starts_zero (text : List Char) : Starts text 0 := by
  refine ⟨?_, ?_⟩
  · rw [Stops, List.take_zero]
    exact settled_start
  · rw [List.take_zero]
    rfl

theorem Closed.stops (h : Closed text) : Stops text text.length := by
  rw [Stops, List.take_length]
  exact closed_iff_settled.1 h

theorem closed_slice {start stop : Nat} (hstart : Starts text start) (hstop : Stops text stop) :
    Closed (Chars.slice text start stop) := by
  by_cases hle : start ≤ stop
  · -- The slice is what is read between the two positions.
    have hsplit : text.take stop = text.take start ++ Chars.slice text start stop := by
      have htake : text.take start = (text.take stop).take start := by
        rw [List.take_take, Nat.min_eq_left hle]
      rw [Chars.slice, htake, List.take_append_drop]
    refine closed_of_settled hstart.1 hstart.2 ?_
    rw [← read_append, ← hsplit]
    exact hstop
  · have hempty : Chars.slice text start stop = [] := by
      rw [Chars.slice, List.drop_eq_nil_iff, List.length_take]
      omega
    rw [hempty]
    exact closed_nil

theorem Closed.drop {start : Nat} (h : Closed text) (hstart : Starts text start) :
    Closed (text.drop start) := by
  have hslice := closed_slice hstart h.stops
  rwa [Chars.slice, List.take_length] at hslice

/-! ## Cuts at keywords -/

variable {words : List Keyword}

/-- What stands in front of a position on the top level of a closed text. -/
theorem Closed.settled_before {c : Char} (h : Closed (a ++ b))
    (houtside : (({} : Scan).read a).isOutside c = true)
    (hdepth : (({} : Scan).read a).depth = 0) : Settled 0 (({} : Scan).read a) := by
  rw [closed_iff_settled, read_append] at h
  exact settled_of_isOutside (quotedRight_read a) houtside hdepth (strayClose_of_read h.stray)

/-- A keyword that is passed on the top level leaves plain text behind. -/
theorem starts_of_keyword {n : Nat} {cs : List Char} (hs : Settled 0 (({} : Scan).read a))
    (htext : text = a ++ cs) (hle : n + 1 ≤ cs.length)
    (hw : Ordinary (cs.take (n + 1))) : Starts text (a.length + (n + 1)) := by
  have htake : text.take (a.length + (n + 1)) = a ++ cs.take (n + 1) := by
    rw [htext, List.take_length_add_append]
  have hne : cs.take (n + 1) ≠ [] := by
    intro hnil
    have hlength := congrArg List.length hnil
    rw [List.length_take, List.length_nil] at hlength
    omega
  refine ⟨?_, ?_⟩
  · rw [Stops, htake, read_append]
    exact hs.read hw
  · rw [htake, read_append]
    exact hs.mode_read hw hne

/-- Around a keyword on the top level pieces may end and start. -/
theorem cut_of_mem_tokens (hwords : ∀ k ∈ words, k.WellFormed) (hclosed : Closed text)
    {token : Token} (htoken : token ∈ (tokens words text).1) (hdepth : token.depth = 0) :
    Stops text token.start ∧ Starts text token.stop := by
  obtain ⟨before, c, behind, n, htext, hstart, hstop, hbound, hordinary, houtside, hdepth'⟩ :=
    exists_of_mem_tokens hwords htoken
  have hsettled : Settled 0 (({} : Scan).read before) := by
    rw [htext] at hclosed
    exact hclosed.settled_before houtside (hdepth'.symm.trans hdepth)
  refine ⟨?_, ?_⟩
  · rw [hstart]
    exact stops_of_settled htext hsettled
  · rw [hstop]
    exact starts_of_keyword hsettled htext hbound hordinary

/-- Both sides of a keyword on the top level are closed. -/
theorem closed_splitAtKeyword {word : Keyword} (hword : word.WellFormed) (h : Closed text) :
    Closed (splitAtKeyword word text).1 ∧ ∀ right ∈ (splitAtKeyword word text).2, Closed right := by
  unfold splitAtKeyword
  split
  · next token hfind =>
      have hdepth : token.depth = 0 := by simpa using List.find?_some hfind
      have hcut := cut_of_mem_tokens (by simpa using hword) h (List.mem_of_find?_eq_some hfind) hdepth
      refine ⟨?_, ?_⟩
      · have hleft : Closed (Chars.slice text 0 token.start) := closed_slice (starts_zero text) hcut.1
        exact closed_trim_iff.2 hleft
      · rintro right hright
        cases hright
        exact closed_trim_iff.2 (h.drop hcut.2)
  · exact ⟨closed_trim_iff.2 h, by simp⟩

/-! ## Cuts at separators -/

/-- The first piece ends settled where it stands, and the pieces behind it are closed. -/
theorem closed_pieces {separator : Char} (hseparator : isOrdinary separator = true) :
    ∀ (text : List Char) (s : Scan), s.QuotedRight → Settled 0 (s.read text) →
      ∃ piece rest, pieces separator s text = piece :: rest ∧ Settled 0 (s.read piece) ∧
        ∀ p ∈ rest, Closed p := by
  intro text
  induction text with
  | nil => exact fun s _ h => ⟨[], [], rfl, h, by simp⟩
  | cons c cs ih =>
      intro s hs h
      rcases ih (s.step c) (hs.step c) h with ⟨piece, rest, hpieces, hsettled, hrest⟩
      rw [pieces]
      split
      · next hcut =>
          rcases hcut with ⟨rfl, htop⟩
          rw [isTopLevel_iff] at htop
          -- The piece behind the separator begins in plain text.
          have hread : (s.read (c :: cs)).strayClose = none := h.stray
          have hstray : s.strayClose = none := strayClose_of_read hread
          have hbefore := settled_of_isOutside hs htop.2 htop.1 hstray
          rw [← step_of_isOrdinary hseparator htop.2, hpieces]
          refine ⟨[], piece :: rest, rfl, hbefore, ?_⟩
          intro p hp
          rcases List.mem_cons.1 hp with rfl | hp
          · exact closed_of_settled (hbefore.step hseparator) (hbefore.mode_step hseparator) hsettled
          · exact hrest p hp
      · rw [hpieces]
        exact ⟨c :: piece, rest, rfl, hsettled, hrest⟩

/-- The parts between separators are closed. -/
theorem closed_of_mem_splitTopLevel {separator : Char} (hseparator : isOrdinary separator = true)
    (h : Closed text) {part : List Char} (hpart : part ∈ splitTopLevel separator text) :
    Closed part := by
  rcases closed_pieces hseparator text {} trivial (closed_iff_settled.1 h) with
    ⟨piece, rest, hpieces, hpiece, hrest⟩
  unfold splitTopLevel at hpart
  rw [hpieces, List.mem_filter, List.mem_map] at hpart
  rcases hpart with ⟨⟨p, hp, rfl⟩, _⟩
  rw [closed_trim_iff]
  rcases List.mem_cons.1 hp with rfl | hp
  · exact closed_iff_settled.2 hpiece
  · exact hrest p hp

end Scan
end ContentQuery
