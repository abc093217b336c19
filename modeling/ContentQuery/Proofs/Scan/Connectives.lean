import ContentQuery.Proofs.Scan.Chunks

/-!
# OR and AND

The operands of a condition, as SQL groups them: AND binds tighter than OR, so the top-level ORs cut
a text into groups, and the ANDs cut a group into operands.  What stands in parentheses or in a
literal is part of an operand.

The AND of BETWEEN is not told apart: it cuts a group like any other.
-/

namespace ContentQuery
namespace Connective

open Scan (chunks anyWord topTokens Closed Settled Section Quiet)
open Keyword (Lawful Opens)

def or : Keyword := ⟨"OR".toList⟩
def and : Keyword := ⟨"AND".toList⟩

/-- The connectives; OR stands at place 0. -/
def words : List Keyword :=
  [or, and]

/-- The keyword OR stands in a text outside literals and parentheses. -/
def HasOr (text : List Char) : Prop :=
  ∃ t ∈ (Scan.tokens words text).1, t.index = 0 ∧ t.depth = 0

instance (text : List Char) : Decidable (HasOr text) :=
  inferInstanceAs (Decidable (∃ t ∈ (Scan.tokens words text).1, t.index = 0 ∧ t.depth = 0))

/-! ## Groups -/

/-- Adds operands to the last group. -/
def extendLast (groups : List (List (List Char))) (operands : List (List Char)) :
    List (List (List Char)) :=
  groups.dropLast ++ [groups.getLast?.getD [] ++ operands]

/-- A blank text is no operand. -/
def operand (text : List Char) : List (List Char) :=
  if text.isEmpty then [] else [text]

/-- A chunk behind OR begins a group, any other one belongs to the last group. -/
def addChunk (groups : List (List (List Char))) (chunk : Option Nat × List Char) :
    List (List (List Char)) :=
  if chunk.1 = some 0 then groups ++ [operand chunk.2] else extendLast groups (operand chunk.2)

/-- The operands between the ANDs, in the groups between the ORs. -/
def groups (text : List Char) : List (List (List Char)) :=
  (chunks words text).foldl addChunk []

/-- Whether a text holds if its operands hold according to `v`: all those of one group do. -/
def Holds (v : List Char → Prop) (text : List Char) : Prop :=
  ∃ group ∈ groups text, ∀ operand ∈ group, v operand

theorem groups_nil : groups [] = [[]] := by
  decide

theorem extendLast_extendLast (gs : List (List (List Char))) (xs ys : List (List Char)) :
    extendLast (extendLast gs xs) ys = extendLast gs (xs ++ ys) := by
  simp [extendLast]

theorem holds_of_groups_eq {v : List Char → Prop} {text : List Char}
    {gs : List (List (List Char))} {operands : List (List Char)}
    (h : groups text = extendLast gs operands) :
    Holds v text ↔
      (∃ group ∈ gs.dropLast, ∀ x ∈ group, v x) ∨
        ((∀ x ∈ gs.getLast?.getD [], v x) ∧ ∀ x ∈ operands, v x) := by
  unfold Holds
  rw [h, extendLast]
  -- The group that makes the text hold is one of those before the last, or the last one.
  constructor
  · rintro ⟨group, hgroup, hall⟩
    rcases List.mem_append.1 hgroup with hgroup | hgroup
    · exact .inl ⟨group, hgroup, hall⟩
    · rw [List.mem_singleton] at hgroup
      subst hgroup
      exact .inr ⟨fun x hx => hall x (List.mem_append_left _ hx),
        fun x hx => hall x (List.mem_append_right _ hx)⟩
  · rintro (⟨group, hgroup, hall⟩ | ⟨hlast, hoperands⟩)
    · exact ⟨group, List.mem_append_left _ hgroup, hall⟩
    · refine ⟨_, List.mem_append_right _ (List.mem_singleton.2 rfl), ?_⟩
      intro x hx
      rcases List.mem_append.1 hx with hx | hx
      · exact hlast x hx
      · exact hoperands x hx

/-! ## OR on the top level -/

theorem openers_cutAt (text : List Char) (tokens : List Token) :
    ∀ (opener : Option Nat) (start : Nat),
      (Scan.cutAt text opener start tokens).map Prod.fst =
        opener :: tokens.map fun t => some t.index := by
  induction tokens with
  | nil => exact fun _ _ => rfl
  | cons t ts ih =>
      intro opener start
      rw [Scan.cutAt, List.map_cons, ih]
      rfl

/-- OR stands on the top level if it opens a chunk. -/
theorem hasOr_iff {text : List Char} :
    HasOr text ↔ some 0 ∈ (chunks words text).map Prod.fst := by
  rw [chunks, openers_cutAt, List.mem_cons, List.mem_map]
  constructor
  · rintro ⟨t, ht, hindex, hdepth⟩
    refine .inr ⟨t, List.mem_filter.2 ⟨ht, by simp [hdepth, anyWord]⟩, by rw [hindex]⟩
  · rintro (h | ⟨t, ht, hindex⟩)
    · cases h
    · rcases List.mem_filter.1 ht with ⟨hmem, hpick⟩
      refine ⟨t, hmem, by simpa using hindex, ?_⟩
      simpa [anyWord] using hpick

theorem groups_ne_nil (text : List Char) : groups text ≠ [] := by
  have hadd : ∀ gs chunk, addChunk gs chunk ≠ [] := by
    intro gs chunk
    unfold addChunk extendLast
    split <;> simp
  have hfold : ∀ (cs : List (Option Nat × List Char)) (gs : List (List (List Char))),
      (cs ≠ [] ∨ gs ≠ []) → cs.foldl addChunk gs ≠ [] := by
    intro cs
    induction cs with
    | nil => exact fun gs h => h.resolve_left fun hne => hne rfl
    | cons c cs ih => exact fun gs _ => ih _ (.inr (hadd gs c))
  -- The chunk before the first keyword is always there.
  refine hfold _ [] (.inl fun hnil => ?_)
  have hmap := congrArg (List.map Prod.fst) hnil
  simp [chunks, openers_cutAt] at hmap

/-- Without OR there is one group. -/
theorem groups_of_not_hasOr {text : List Char} (h : ¬ HasOr text) :
    ∃ group, groups text = [group] := by
  -- Only a chunk behind OR makes a second group.
  have hfold : ∀ (cs : List (Option Nat × List Char)) (gs : List (List (List Char))),
      some 0 ∉ cs.map Prod.fst → gs.length ≤ 1 → (cs.foldl addChunk gs).length ≤ 1 := by
    intro cs
    induction cs with
    | nil => exact fun _ _ hle => hle
    | cons c cs ih =>
        intro gs hnone hle
        simp only [List.map_cons, List.mem_cons, not_or] at hnone
        have hc : c.1 ≠ some 0 := fun heq => hnone.1 heq.symm
        rw [List.foldl_cons, addChunk, if_neg hc]
        refine ih _ hnone.2 ?_
        simp only [extendLast, List.length_append, List.length_dropLast, List.length_singleton]
        omega
  have hle : (groups text).length ≤ 1 :=
    hfold (chunks words text) [] (fun hmem => h (hasOr_iff.2 hmem)) (by simp)
  have hpos : 0 < (groups text).length := List.length_pos_iff.2 (groups_ne_nil text)
  exact List.length_eq_one_iff.1 (by omega)

/-! ## Conditions in parentheses -/

theorem lawful : Lawful words [] := by
  decide

/-- A condition as an operand. -/
def parenthesized (c : List Char) : List Char :=
  '(' :: (c ++ [')'])

/-- A further condition behind AND. -/
def furtherCondition (c : List Char) : Section :=
  ⟨1, and, ' ' :: parenthesized c⟩

variable {c : List Char}

theorem quiet_parenthesized (hc : Closed c) : Quiet words anyWord [] (parenthesized c) :=
  Scan.quiet_parenthesized lawful (by simp) hc

theorem sound_furtherCondition (hc : Closed c) : (furtherCondition c).Sound words [] where
  opens := by
    have h : Opens words [] 1 and := by decide
    exact h
  begins := Keyword.head_cons (by decide) _
  quiet := (quiet_parenthesized hc).cons lawful.formed (by decide) (by decide)

theorem solid_parenthesized (c : List Char) : Chars.Solid (parenthesized c) := by
  have hlast : (parenthesized c).getLast? = some ')' := by
    rw [parenthesized, ← List.cons_append, List.getLast?_append]
    rfl
  refine ⟨?_, by rw [hlast]; decide⟩
  have hhead : (parenthesized c).head? = some '(' := rfl
  rw [hhead]
  decide

/-- A condition in parentheses is closed, and one operand. -/
theorem groups_parenthesized (hc : Closed c) :
    Closed (parenthesized c) ∧ groups (parenthesized c) = [[parenthesized c]] ∧
      ¬ HasOr (parenthesized c) := by
  have hend : Keyword.Ends [] ([] : List Char) := Keyword.ends_nil (by simp)
  rcases quiet_parenthesized hc {} [] Scan.settled_start hend with ⟨htokens, hsettled⟩
  rw [List.append_nil] at htokens
  have hchunks := Scan.chunks_of_quiet htokens
  rw [(solid_parenthesized c).trim] at hchunks
  refine ⟨Scan.closed_iff_settled.2 hsettled, ?_, ?_⟩
  · rw [groups, hchunks]
    rfl
  · rw [hasOr_iff, hchunks]
    simp

/-- Chunks behind AND all go to the last group. -/
theorem foldl_addChunk {gs : List (List (List Char))} (hgs : gs ≠ []) (cs : List (List Char)) :
    (cs.map fun c => (some 1, parenthesized c)).foldl addChunk gs =
      extendLast gs (cs.map parenthesized) := by
  induction cs generalizing gs with
  | nil =>
      rw [List.map_nil, List.map_nil, List.foldl_nil, extendLast,
        List.getLast?_eq_some_getLast hgs, Option.getD_some, List.append_nil,
        List.dropLast_concat_getLast]
  | cons c cs ih =>
      have hadd : addChunk gs (some 1, parenthesized c) = extendLast gs [parenthesized c] := rfl
      rw [List.map_cons, List.foldl_cons, hadd, ih (by simp [extendLast]), extendLast_extendLast]
      rfl

/-- Conditions in parentheses behind a text join its last group, and bring no OR. -/
theorem groups_append {a : List Char} (ha : Closed a) {cs : List (List Char)}
    (hcs : ∀ c ∈ cs, Closed c) :
    groups (a ++ cs.flatMap fun c => (furtherCondition c).text) =
        extendLast (groups a) (cs.map parenthesized) ∧
      (HasOr (a ++ cs.flatMap fun c => (furtherCondition c).text) ↔ HasOr a) := by
  have hsound : ∀ x ∈ cs.map furtherCondition, x.Sound words [] := by
    intro x hx
    rcases List.mem_map.1 hx with ⟨c, hc, rfl⟩
    exact sound_furtherCondition (hcs c hc)
  rcases Scan.chunks_sections lawful hsound (Scan.closed_iff_settled.1 ha) with ⟨hchunks, _⟩
  rw [List.flatMap_map] at hchunks
  -- A condition in parentheses is the whole chunk behind its AND.
  have hplaces : ((cs.map furtherCondition).map fun x => (some x.place, Chars.trim x.body)) =
      cs.map fun c => (some 1, parenthesized c) := by
    rw [List.map_map]
    refine List.map_congr_left fun c _ => ?_
    exact congrArg _ (solid_parenthesized c).trim_space
  rw [hplaces] at hchunks
  constructor
  · rw [groups, hchunks, List.foldl_append]
    exact foldl_addChunk (groups_ne_nil a) cs
  · rw [hasOr_iff, hasOr_iff, hchunks, List.map_append, List.mem_append]
    constructor
    · rintro (h | h)
      · exact h
      · simp at h
    · exact .inl

/-- An OR on the top level stays there, whatever stands behind the text. -/
theorem HasOr.append {a b : List Char} (ha : HasOr a) (hb : Keyword.Ends [] b) :
    HasOr (a ++ b) := by
  rcases ha with ⟨t, ht, hplace⟩
  refine ⟨t, ?_, hplace⟩
  rw [Scan.tokens, Scan.tokensFrom_append lawful hb]
  exact List.mem_append_left _ ht

end Connective
end ContentQuery
