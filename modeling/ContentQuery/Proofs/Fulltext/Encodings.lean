import Mathlib.Data.List.Basic
import ContentQuery.Fulltext.Percent
import ContentQuery.Proofs.Chars.Names

/-!
# Encoded search strings

A text has many encodings in a query string: each byte of its UTF-8 form may be written as an escape
with digits in either case, a space may be a plus sign, and ASCII letters and digits may stand for
themselves.  Whichever is sent, the text is what is searched for, since plus signs are replaced
before escapes are decoded, and escapes before the bytes are read as UTF-8.
-/

namespace ContentQuery
namespace Percent

/-! ## Encodings -/

/-- The digits that may stand for a number below 16. -/
def hexForms (n : Nat) : List Char :=
  [Nat.digitChar n, (Nat.digitChar n).toUpper]

/-- The two digits are those of the byte, each in either case. -/
def IsHex (b : UInt8) (high low : Char) : Prop :=
  high ∈ hexForms (b.toNat / 16) ∧ low ∈ hexForms (b.toNat % 16)

instance (b : UInt8) (high low : Char) : Decidable (IsHex b high low) :=
  inferInstanceAs (Decidable (_ ∧ _))

/-- The ways to write a byte sequence in a query string. -/
inductive Encodes : List UInt8 → List Char → Prop
  | nil : Encodes [] []
  | escape {b : UInt8} {high low : Char} {bs : List UInt8} {e : List Char} :
      IsHex b high low → Encodes bs e → Encodes (b :: bs) ('%' :: high :: low :: e)
  | space {bs : List UInt8} {e : List Char} : Encodes bs e → Encodes (0x20 :: bs) ('+' :: e)
  | plain {c : Char} {bs : List UInt8} {e : List Char} :
      c.isAlphanum = true → Encodes bs e → Encodes (c.toUInt8 :: bs) (c :: e)

theorem Encodes.append {as bs : List UInt8} {d e : List Char} (ha : Encodes as d)
    (hb : Encodes bs e) : Encodes (as ++ bs) (d ++ e) := by
  induction ha with
  | nil => exact hb
  | escape hhex _ ih => exact .escape hhex ih
  | space _ ih => exact .space ih
  | plain hc _ ih => exact .plain hc ih

/-! ## Escapes -/

/-- The bytes of an escape. -/
def escapeBytes (high low : Char) : List UInt8 :=
  [0x25, high.toUInt8, low.toUInt8]

/-- What is taken for granted of a decoder of escapes: `%` and two hexadecimal digits stand for a
byte, and everything else stands for itself. -/
structure DecodesEscapes (percent : List UInt8 → List UInt8) : Prop where
  nil : percent [] = []
  escape {b : UInt8} {high low : Char} {bs : List UInt8} : IsHex b high low →
    percent (escapeBytes high low ++ bs) = b :: percent bs
  other {b : UInt8} {bs : List UInt8} :
    (∀ value high low, IsHex value high low → ¬ escapeBytes high low <+: b :: bs) →
      percent (b :: bs) = b :: percent bs

theorem hexDigit?_of_mem_hexForms {n : Nat} (hn : n < 16) {c : Char} (hc : c ∈ hexForms n) :
    hexDigit? c.toUInt8 = some (UInt8.ofNat n) := by
  have hall : ∀ n < 16, ∀ c ∈ hexForms n, hexDigit? c.toUInt8 = some (UInt8.ofNat n) := by
    decide
  exact hall n hn c hc

theorem exists_mem_hexForms {b digit : UInt8} (h : hexDigit? b = some digit) :
    ∃ n < 16, digit = UInt8.ofNat n ∧ ∃ c ∈ hexForms n, c.toUInt8 = b := by
  have hall : ∀ n < 0x67, hexDigit? (UInt8.ofNat n) = none ∨ ∃ m < 16,
      hexDigit? (UInt8.ofNat n) = some (UInt8.ofNat m) ∧
        UInt8.ofNat n ∈ (hexForms m).map Char.toUInt8 := by
    decide
  -- No digit comes after `f`.
  have hb : b.toNat < 0x67 := by
    by_contra hlarge
    have hnone : hexDigit? b = none := by
      simp only [hexDigit?, UInt8.le_iff_toNat_le, UInt8.reduceToNat]
      rw [if_neg (by omega), if_neg (by omega), if_neg (by omega)]
    rw [hnone] at h
    cases h
  have hread := hall b.toNat hb
  rw [UInt8.ofNat_toNat, h] at hread
  obtain hnone | ⟨n, hn, hdigit, hform⟩ := hread
  · cases hnone
  · exact ⟨n, hn, Option.some.inj hdigit, List.mem_map.1 hform⟩

/-- A byte is its high half times sixteen plus its low half. -/
theorem eq_halves_iff {b : UInt8} {high low : Nat} (hhigh : high < 16) (hlow : low < 16) :
    UInt8.ofNat high * 16 + UInt8.ofNat low = b ↔ high = b.toNat / 16 ∧ low = b.toNat % 16 := by
  have hb : b.toNat < 256 := b.toNat_lt
  have hvalue : (UInt8.ofNat high * 16 + UInt8.ofNat low).toNat = high * 16 + low := by
    simp
    omega
  rw [← UInt8.toNat_inj, hvalue]
  omega

/-- A byte is read after `%` exactly if its two digits stand there. -/
theorem escaped?_eq_some_iff {b : UInt8} {bs : List UInt8} :
    escaped? bs = some b ↔ ∃ high low rest, IsHex b high low ∧
      bs = high.toUInt8 :: low.toUInt8 :: rest := by
  constructor
  · intro h
    match bs, h with
    | first :: second :: rest, h =>
        obtain ⟨digit, hfirst, hrest⟩ := Option.bind_eq_some_iff.1 h
        obtain ⟨digit', hsecond, hvalue⟩ := Option.bind_eq_some_iff.1 hrest
        obtain ⟨n, hn, rfl, high, hhigh, rfl⟩ := exists_mem_hexForms hfirst
        obtain ⟨m, hm, rfl, low, hlow, rfl⟩ := exists_mem_hexForms hsecond
        obtain ⟨rfl, rfl⟩ := (eq_halves_iff hn hm).1 (Option.some.inj hvalue)
        exact ⟨high, low, rest, ⟨hhigh, hlow⟩, rfl⟩
  · rintro ⟨high, low, rest, ⟨hhigh, hlow⟩, rfl⟩
    have hb : b.toNat < 256 := b.toNat_lt
    have hn : b.toNat / 16 < 16 := by omega
    have hm : b.toNat % 16 < 16 := by omega
    have hvalue := (eq_halves_iff hn hm).2 ⟨rfl, rfl⟩
    simp [escaped?, hexDigit?_of_mem_hexForms hn hhigh, hexDigit?_of_mem_hexForms hm hlow, hvalue]

theorem decodesEscapes_decodeFrom : DecodesEscapes (decodeFrom 0) where
  nil := rfl
  escape {b high low bs} hhex := by
    have hread : escaped? (high.toUInt8 :: low.toUInt8 :: bs) = some b :=
      escaped?_eq_some_iff.2 ⟨high, low, bs, hhex, rfl⟩
    simp [escapeBytes, decodeFrom, hread]
  other {b bs} hother := by
    by_cases hb : b = 0x25
    · have hnone : escaped? bs = none := by
        rw [Option.eq_none_iff_forall_ne_some]
        intro value hvalue
        obtain ⟨high, low, rest, hhex, rfl⟩ := escaped?_eq_some_iff.1 hvalue
        exact hother value high low hhex ⟨rest, by rw [hb]; rfl⟩
      simp [decodeFrom, hb, hnone]
    · simp [decodeFrom, hb]

theorem decodeFrom_of_ne {b : UInt8} (hb : b ≠ 0x25) (bs : List UInt8) :
    decodeFrom 0 (b :: bs) = b :: decodeFrom 0 bs := by
  simp [decodeFrom, hb]

/-- There is one decoder of escapes. -/
theorem DecodesEscapes.eq_decodeFrom {percent : List UInt8 → List UInt8}
    (hpercent : DecodesEscapes percent) : percent = decodeFrom 0 := by
  funext bs
  -- An escape takes two more bytes with it, so the induction is on the length.
  induction hn : bs.length using Nat.strongRecOn generalizing bs with
  | ind n ih =>
      cases bs with
      | nil => exact hpercent.nil
      | cons b bs =>
          by_cases hescape : ∃ value high low, IsHex value high low ∧
              escapeBytes high low <+: b :: bs
          · obtain ⟨value, high, low, hhex, rest, hbytes⟩ := hescape
            have hshorter : rest.length < n := by
              rw [← hn, ← hbytes, List.length_append]
              exact Nat.lt_add_of_pos_left (by simp [escapeBytes])
            rw [← hbytes, hpercent.escape hhex, decodesEscapes_decodeFrom.escape hhex,
              ih rest.length hshorter rest rfl]
          · have hother : ∀ value high low, IsHex value high low →
                ¬ escapeBytes high low <+: b :: bs :=
              fun value high low hhex hbytes => hescape ⟨value, high, low, hhex, hbytes⟩
            have hshorter : bs.length < n := by
              rw [← hn]
              exact Nat.lt_succ_self _
            rw [hpercent.other hother, decodesEscapes_decodeFrom.other hother,
              ih bs.length hshorter bs rfl]

/-! ## Bytes of a text -/

theorem toList_loop (bytes : ByteArray) (i : Nat) (seen : List UInt8) :
    ByteArray.toList.loop bytes i seen = seen.reverse ++ bytes.data.toList.drop i := by
  fun_induction ByteArray.toList.loop bytes i seen with
  | case1 i seen hi ih =>
      have hlength : i < bytes.data.toList.length := by simpa using hi
      have hget : bytes.get! i = bytes.data.toList[i] := by
        cases bytes
        exact getElem!_pos _ i hi
      rw [ih, List.drop_eq_getElem_cons hlength, hget]
      simp
  | case2 i seen hi =>
      have hnil : bytes.data.toList.drop i = [] := List.drop_eq_nil_of_le (by simpa using hi)
      simp [hnil]

/-- The UTF-8 form of a text, character by character. -/
theorem toList_toUTF8 (s : String) : s.toUTF8.toList = s.toList.flatMap String.utf8EncodeChar := by
  have hbytes : s.toUTF8 = s.toList.utf8Encode := by
    rw [← String.toByteArray_ofList, String.ofList_toList]
    rfl
  rw [ByteArray.toList, toList_loop, hbytes]
  exact List.toList_data_toByteArray

theorem utf8EncodeChar_ascii {c : Char} (hc : c.toNat < 0x80) :
    String.utf8EncodeChar c = [c.toUInt8] := by
  have hval : c.val.toNat ≤ 127 := Nat.le_of_lt_succ hc
  exact if_pos hval

/-- Encodings of texts put together. -/
theorem Encodes.append_text {s t d e : String} (hs : Encodes s.toUTF8.toList d.toList)
    (ht : Encodes t.toUTF8.toList e.toList) : Encodes (s ++ t).toUTF8.toList (d ++ e).toList := by
  rw [toList_toUTF8] at hs ht ⊢
  simpa using hs.append ht

/-- A text of ASCII characters has one byte for each. -/
theorem toList_toUTF8_ascii {s : String} (hs : ∀ c ∈ s.toList, c.toNat < 0x80) :
    s.toUTF8.toList = s.toList.map Char.toUInt8 := by
  rw [toList_toUTF8]
  generalize s.toList = cs at hs
  induction cs with
  | nil => rfl
  | cons c cs ih =>
      rw [List.forall_mem_cons] at hs
      simp [utf8EncodeChar_ascii hs.1, ih hs.2]

/-! ## Reading UTF-8 -/

/-- The byte that continues a character with six more bits. -/
def continuation (n : Nat) : UInt8 :=
  UInt8.ofNat (n + 0x80)

theorem lead_one {n : Nat} (hn : n < 0x80) : lead (UInt8.ofNat n) = .char (Char.ofNat n) := by
  have hall : ∀ n < 0x80, lead (UInt8.ofNat n) = .char (Char.ofNat n) := by decide
  exact hall n hn

/-- The lead byte of two.  The smaller numbers are those of shorter forms. -/
theorem lead_two {n : Nat} (hlow : 2 ≤ n) (hhigh : n < 32) :
    lead (UInt8.ofNat (n + 0xC0)) = .pending ⟨1, n, 0x80, 0xBF⟩ := by
  have hall : ∀ n < 32, 2 ≤ n → lead (UInt8.ofNat (n + 0xC0)) = .pending ⟨1, n, 0x80, 0xBF⟩ := by
    decide
  exact hall n hhigh hlow

/-- The lead byte of three.  Shorter forms and surrogates are kept out by the next byte. -/
theorem lead_three {n : Nat} (hn : n < 16) :
    lead (UInt8.ofNat (n + 0xE0)) =
      .pending ⟨2, n, if n = 0 then 0xA0 else 0x80, if n = 13 then 0x9F else 0xBF⟩ := by
  have hall : ∀ n < 16, lead (UInt8.ofNat (n + 0xE0)) =
      .pending ⟨2, n, if n = 0 then 0xA0 else 0x80, if n = 13 then 0x9F else 0xBF⟩ := by
    decide
  exact hall n hn

/-- The lead byte of four.  Shorter forms and what is too large are kept out by the next byte. -/
theorem lead_four {n : Nat} (hn : n < 5) :
    lead (UInt8.ofNat (n + 0xF0)) =
      .pending ⟨3, n, if n = 0 then 0x90 else 0x80, if n = 4 then 0x8F else 0xBF⟩ := by
  have hall : ∀ n < 5, lead (UInt8.ofNat (n + 0xF0)) =
      .pending ⟨3, n, if n = 0 then 0x90 else 0x80, if n = 4 then 0x8F else 0xBF⟩ := by
    decide
  exact hall n hn

theorem utf8From_lead {b : UInt8} {p : Pending} (h : lead b = .pending p) (bs : List UInt8) :
    utf8From none (b :: bs) = utf8From (some p) bs := by
  simp [utf8From, h]

section Continuations

variable {p : Pending} {n : Nat}

theorem continues (hlow : p.low.toNat ≤ n + 0x80) (hhigh : n + 0x80 ≤ p.high.toNat) :
    (continuation n).toNat = n + 0x80 ∧ p.low ≤ continuation n ∧ continuation n ≤ p.high := by
  have hsmall : n + 0x80 < 256 := Nat.lt_of_le_of_lt hhigh p.high.toNat_lt
  have hvalue : (continuation n).toNat = n + 0x80 := UInt8.toNat_ofNat_of_lt' hsmall
  refine ⟨hvalue, ?_, ?_⟩
  · rw [UInt8.le_iff_toNat_le, hvalue]
    exact hlow
  · rw [UInt8.le_iff_toNat_le, hvalue]
    exact hhigh

/-- A byte that is not the last one of a character. -/
theorem utf8From_more {more : Nat} (hmore : p.more = more + 2) (hlow : p.low.toNat ≤ n + 0x80)
    (hhigh : n + 0x80 ≤ p.high.toNat) (bs : List UInt8) :
    utf8From (some p) (continuation n :: bs) =
      utf8From (some ⟨more + 1, p.bits * 64 + n, 0x80, 0xBF⟩) bs := by
  obtain ⟨hvalue, hrange⟩ := continues hlow hhigh
  simp [utf8From, hrange, hvalue, hmore]

/-- The last byte of a character. -/
theorem utf8From_last (hmore : p.more = 1) (hlow : p.low.toNat ≤ n + 0x80)
    (hhigh : n + 0x80 ≤ p.high.toNat) (bs : List UInt8) :
    utf8From (some p) (continuation n :: bs) =
      Char.ofNat (p.bits * 64 + n) :: utf8From none bs := by
  obtain ⟨hvalue, hrange⟩ := continues hlow hhigh
  simp [utf8From, hrange, hvalue, hmore]

end Continuations

section Characters

variable {c : Char}

theorem utf8EncodeChar_two (hlow : 0x80 ≤ c.toNat) (hhigh : c.toNat < 0x800) :
    String.utf8EncodeChar c =
      [UInt8.ofNat (c.toNat / 64 + 0xC0), continuation (c.toNat % 64)] := by
  have hbits : c.toNat / 64 % 32 = c.toNat / 64 := Nat.mod_eq_of_lt (by omega)
  calc String.utf8EncodeChar c
      = [UInt8.ofNat (c.toNat / 64 % 32 + 0xC0), continuation (c.toNat % 64)] :=
        (if_neg (Nat.not_le.2 hlow)).trans (if_pos (Nat.le_of_lt_succ hhigh))
    _ = [UInt8.ofNat (c.toNat / 64 + 0xC0), continuation (c.toNat % 64)] := by rw [hbits]

theorem utf8EncodeChar_three (hlow : 0x800 ≤ c.toNat) (hhigh : c.toNat < 0x10000) :
    String.utf8EncodeChar c =
      [UInt8.ofNat (c.toNat / 4096 + 0xE0), continuation (c.toNat / 64 % 64),
        continuation (c.toNat % 64)] := by
  have hbits : c.toNat / 4096 % 16 = c.toNat / 4096 := Nat.mod_eq_of_lt (by omega)
  have hone : ¬ c.toNat ≤ 127 := by omega
  calc String.utf8EncodeChar c
      = [UInt8.ofNat (c.toNat / 4096 % 16 + 0xE0), continuation (c.toNat / 64 % 64),
          continuation (c.toNat % 64)] :=
        (if_neg hone).trans ((if_neg (Nat.not_le.2 hlow)).trans (if_pos (Nat.le_of_lt_succ hhigh)))
    _ = _ := by rw [hbits]

theorem utf8EncodeChar_four (hlow : 0x10000 ≤ c.toNat) (hhigh : c.toNat < 0x110000) :
    String.utf8EncodeChar c =
      [UInt8.ofNat (c.toNat / 262144 + 0xF0), continuation (c.toNat / 4096 % 64),
        continuation (c.toNat / 64 % 64), continuation (c.toNat % 64)] := by
  have hbits : c.toNat / 262144 % 8 = c.toNat / 262144 := Nat.mod_eq_of_lt (by omega)
  have hone : ¬ c.toNat ≤ 127 := by omega
  have htwo : ¬ c.toNat ≤ 2047 := by omega
  calc String.utf8EncodeChar c
      = [UInt8.ofNat (c.toNat / 262144 % 8 + 0xF0), continuation (c.toNat / 4096 % 64),
          continuation (c.toNat / 64 % 64), continuation (c.toNat % 64)] :=
        (if_neg hone).trans ((if_neg htwo).trans (if_neg (Nat.not_le.2 hlow)))
    _ = _ := by rw [hbits]

/-- Six more bits fit a byte that continues a character. -/
theorem continuation_bounds (n : Nat) :
    (0x80 : UInt8).toNat ≤ n % 64 + 0x80 ∧ n % 64 + 0x80 ≤ (0xBF : UInt8).toNat := by
  refine ⟨Nat.le_add_left _ _, ?_⟩
  show n % 64 + 0x80 ≤ 0xBF
  omega

theorem utf8From_two (hlow : 0x80 ≤ c.toNat) (hhigh : c.toNat < 0x800) (bs : List UInt8) :
    utf8From none (String.utf8EncodeChar c ++ bs) = c :: utf8From none bs := by
  have hlead := lead_two (n := c.toNat / 64) (by omega) (by omega)
  have hlast := continuation_bounds c.toNat
  have hchar : c.toNat / 64 * 64 + c.toNat % 64 = c.toNat := by omega
  calc utf8From none (String.utf8EncodeChar c ++ bs)
      = utf8From none (UInt8.ofNat (c.toNat / 64 + 0xC0) ::
          continuation (c.toNat % 64) :: bs) := by rw [utf8EncodeChar_two hlow hhigh]; rfl
    _ = utf8From (some ⟨1, c.toNat / 64, 0x80, 0xBF⟩) (continuation (c.toNat % 64) :: bs) :=
        utf8From_lead hlead _
    _ = Char.ofNat (c.toNat / 64 * 64 + c.toNat % 64) :: utf8From none bs :=
        utf8From_last rfl hlast.1 hlast.2 bs
    _ = c :: utf8From none bs := by rw [hchar, Char.ofNat_toNat]

theorem utf8From_three (hlow : 0x800 ≤ c.toNat) (hhigh : c.toNat < 0x10000) (bs : List UInt8) :
    utf8From none (String.utf8EncodeChar c ++ bs) = c :: utf8From none bs := by
  have hscalar : c.toNat < 0xD800 ∨ (0xDFFF < c.toNat ∧ c.toNat < 0x110000) := c.valid
  have hlead := lead_three (n := c.toNat / 4096) (by omega)
  -- With 0 in the lead byte there are more than eleven bits, with 13 the character is no surrogate.
  have hleast : (if c.toNat / 4096 = 0 then (0xA0 : UInt8) else 0x80).toNat ≤
      c.toNat / 64 % 64 + 0x80 := by
    split
    · show 0xA0 ≤ _
      omega
    · exact Nat.le_add_left _ _
  have hmost : c.toNat / 64 % 64 + 0x80 ≤
      (if c.toNat / 4096 = 13 then (0x9F : UInt8) else 0xBF).toNat := by
    split
    · show _ ≤ 0x9F
      omega
    · exact (continuation_bounds _).2
  have hlast := continuation_bounds c.toNat
  have hchar : (c.toNat / 4096 * 64 + c.toNat / 64 % 64) * 64 + c.toNat % 64 = c.toNat := by omega
  calc utf8From none (String.utf8EncodeChar c ++ bs)
      = utf8From none (UInt8.ofNat (c.toNat / 4096 + 0xE0) :: continuation (c.toNat / 64 % 64) ::
          continuation (c.toNat % 64) :: bs) := by rw [utf8EncodeChar_three hlow hhigh]; rfl
    _ = utf8From (some ⟨1, c.toNat / 4096 * 64 + c.toNat / 64 % 64, 0x80, 0xBF⟩)
          (continuation (c.toNat % 64) :: bs) :=
        (utf8From_lead hlead _).trans (utf8From_more rfl hleast hmost _)
    _ = Char.ofNat ((c.toNat / 4096 * 64 + c.toNat / 64 % 64) * 64 + c.toNat % 64) ::
          utf8From none bs := utf8From_last rfl hlast.1 hlast.2 bs
    _ = c :: utf8From none bs := by rw [hchar, Char.ofNat_toNat]

theorem utf8From_four (hlow : 0x10000 ≤ c.toNat) (hhigh : c.toNat < 0x110000) (bs : List UInt8) :
    utf8From none (String.utf8EncodeChar c ++ bs) = c :: utf8From none bs := by
  have hlead := lead_four (n := c.toNat / 262144) (by omega)
  -- With 0 in the lead byte there are more than sixteen bits, with 4 the character is not too large.
  have hleast : (if c.toNat / 262144 = 0 then (0x90 : UInt8) else 0x80).toNat ≤
      c.toNat / 4096 % 64 + 0x80 := by
    split
    · show 0x90 ≤ _
      omega
    · exact Nat.le_add_left _ _
  have hmost : c.toNat / 4096 % 64 + 0x80 ≤
      (if c.toNat / 262144 = 4 then (0x8F : UInt8) else 0xBF).toNat := by
    split
    · show _ ≤ 0x8F
      omega
    · exact (continuation_bounds _).2
  have hthird := continuation_bounds (c.toNat / 64)
  have hlast := continuation_bounds c.toNat
  have hchar : ((c.toNat / 262144 * 64 + c.toNat / 4096 % 64) * 64 + c.toNat / 64 % 64) * 64 +
      c.toNat % 64 = c.toNat := by
    omega
  calc utf8From none (String.utf8EncodeChar c ++ bs)
      = utf8From none (UInt8.ofNat (c.toNat / 262144 + 0xF0) ::
          continuation (c.toNat / 4096 % 64) :: continuation (c.toNat / 64 % 64) ::
            continuation (c.toNat % 64) :: bs) := by rw [utf8EncodeChar_four hlow hhigh]; rfl
    _ = utf8From (some ⟨2, c.toNat / 262144 * 64 + c.toNat / 4096 % 64, 0x80, 0xBF⟩)
          (continuation (c.toNat / 64 % 64) :: continuation (c.toNat % 64) :: bs) :=
        (utf8From_lead hlead _).trans (utf8From_more rfl hleast hmost _)
    _ = utf8From (some ⟨1, (c.toNat / 262144 * 64 + c.toNat / 4096 % 64) * 64 +
          c.toNat / 64 % 64, 0x80, 0xBF⟩) (continuation (c.toNat % 64) :: bs) :=
        utf8From_more rfl hthird.1 hthird.2 _
    _ = Char.ofNat (((c.toNat / 262144 * 64 + c.toNat / 4096 % 64) * 64 + c.toNat / 64 % 64) * 64 +
          c.toNat % 64) :: utf8From none bs := utf8From_last rfl hlast.1 hlast.2 bs
    _ = c :: utf8From none bs := by rw [hchar, Char.ofNat_toNat]

end Characters

/-- A character is read from its UTF-8 form, whatever follows. -/
theorem utf8From_encodeChar (c : Char) (bs : List UInt8) :
    utf8From none (String.utf8EncodeChar c ++ bs) = c :: utf8From none bs := by
  have hscalar : c.toNat < 0xD800 ∨ (0xDFFF < c.toNat ∧ c.toNat < 0x110000) := c.valid
  by_cases hone : c.toNat < 0x80
  · have hlead : lead c.toUInt8 = .char c := by
      have hchar := lead_one hone
      rwa [Char.ofNat_toNat] at hchar
    simp [utf8EncodeChar_ascii hone, utf8From, hlead]
  · by_cases htwo : c.toNat < 0x800
    · exact utf8From_two (Nat.le_of_not_lt hone) htwo bs
    · by_cases hthree : c.toNat < 0x10000
      · exact utf8From_three (Nat.le_of_not_lt htwo) hthree bs
      · exact utf8From_four (Nat.le_of_not_lt hthree) (by omega) bs

/-- Every text is read from its UTF-8 form. -/
theorem utf8Lossy_toUTF8 (s : String) : utf8Lossy s.toUTF8.toList = s.toList := by
  rw [toList_toUTF8, utf8Lossy]
  induction s.toList with
  | nil => rfl
  | cons c cs ih => rw [List.flatMap_cons, utf8From_encodeChar, ih]

/-! ## Decoding -/

/-- The byte that is seen of a character once plus signs are replaced. -/
def sentByte (c : Char) : UInt8 :=
  (if c = '+' then ' ' else c).toUInt8

/-- Letters and digits are ASCII, and none of them is a sign of the encoding. -/
theorem sentByte_of_isAlphanum {c : Char} (hc : c.isAlphanum = true) :
    c.toNat < 0x80 ∧ sentByte c = c.toUInt8 ∧ c.toUInt8 ≠ 0x25 := by
  have hrange := Chars.isNameChar_toNat (c := c) (by simp [Chars.isNameChar, hc])
  refine ⟨by omega, ?_, ?_⟩
  · have hplus : c ≠ '+' := by
      rintro rfl
      cases hc
    simp [sentByte, hplus]
  · intro hpercent
    have hvalue : c.toNat % 256 = 0x25 := congrArg UInt8.toNat hpercent
    omega

theorem IsHex.sentByte_eq {b : UInt8} {high low : Char} (h : IsHex b high low) :
    (high.toNat < 0x80 ∧ sentByte high = high.toUInt8) ∧
      low.toNat < 0x80 ∧ sentByte low = low.toUInt8 := by
  have hall : ∀ n < 16, ∀ c ∈ hexForms n, c.isAlphanum = true := by decide
  have hb : b.toNat < 256 := b.toNat_lt
  have hhigh := sentByte_of_isAlphanum (hall _ (by omega) high h.1)
  have hlow := sentByte_of_isAlphanum (hall _ (by omega) low h.2)
  exact ⟨⟨hhigh.1, hhigh.2.1⟩, hlow.1, hlow.2.1⟩

section Encoded

variable {bs : List UInt8} {e : List Char}

theorem Encodes.ascii (h : Encodes bs e) : ∀ c ∈ e, c.toNat < 0x80 := by
  induction h with
  | nil => simp
  | escape hhex _ ih =>
      obtain ⟨hhigh, hlow⟩ := hhex.sentByte_eq
      simpa [hhigh.1, hlow.1] using ih
  | space _ ih => simpa using ih
  | plain hc _ ih => simpa [(sentByte_of_isAlphanum hc).1] using ih

/-- Plus signs first, then escapes: an encoding is decoded to the bytes that it is of. -/
theorem Encodes.decodeFrom_eq (h : Encodes bs e) : decodeFrom 0 (e.map sentByte) = bs := by
  induction h with
  | nil => rfl
  | @escape b high low bs e hhex _ ih =>
      obtain ⟨hhigh, hlow⟩ := hhex.sentByte_eq
      calc decodeFrom 0 (('%' :: high :: low :: e).map sentByte)
          = decodeFrom 0 (escapeBytes high low ++ e.map sentByte) := by
            rw [escapeBytes, ← hhigh.2, ← hlow.2]
            rfl
        _ = b :: decodeFrom 0 (e.map sentByte) := decodesEscapes_decodeFrom.escape hhex
        _ = b :: bs := by rw [ih]
  | @space bs e _ ih =>
      calc decodeFrom 0 (('+' :: e).map sentByte)
          = 0x20 :: decodeFrom 0 (e.map sentByte) := decodeFrom_of_ne (by decide) _
        _ = 0x20 :: bs := by rw [ih]
  | @plain c bs e hc _ ih =>
      obtain ⟨-, hbyte, hpercent⟩ := sentByte_of_isAlphanum hc
      calc decodeFrom 0 ((c :: e).map sentByte)
          = decodeFrom 0 (c.toUInt8 :: e.map sentByte) := by rw [← hbyte]; rfl
        _ = c.toUInt8 :: decodeFrom 0 (e.map sentByte) := decodeFrom_of_ne hpercent _
        _ = c.toUInt8 :: bs := by rw [ih]

end Encoded

theorem decodeSearch_eq_of_encodes {s e : String} (h : Encodes s.toUTF8.toList e.toList) :
    decodeSearch e = s := by
  -- An encoded text is all ascii, so its bytes are its characters one by one.
  have hspaces : (plusToSpace e).toList = e.toList.map fun c => if c = '+' then ' ' else c :=
    String.toList_map
  have hascii : ∀ c ∈ (plusToSpace e).toList, c.toNat < 0x80 := by
    intro c hc
    rw [hspaces] at hc
    obtain ⟨d, hd, rfl⟩ := List.mem_map.1 hc
    split
    · decide
    · exact h.ascii d hd
  have hsent : (plusToSpace e).toUTF8.toList = e.toList.map sentByte := by
    rw [toList_toUTF8_ascii hascii, hspaces, List.map_map]
    rfl
  calc decodeSearch e
      = String.ofList (utf8Lossy (decodeFrom 0 (e.toList.map sentByte))) := by
        rw [decodeSearch, hsent]
    _ = String.ofList (utf8Lossy s.toUTF8.toList) := by rw [h.decodeFrom_eq]
    _ = s := by rw [utf8Lossy_toUTF8, String.ofList_toList]

/-! ## What is searched for -/

/-- What a search string is decoded to with a decoder of escapes. -/
def decodeWith (percent : List UInt8 → List UInt8) (s : String) : String :=
  String.ofList (utf8Lossy (percent (plusToSpace s).toUTF8.toList))

/-- Whatever decodes the escapes, and however a text is encoded, the text is what the search string
is decoded to.  A plus sign and a percent sign survive as escapes, whatever is sent around them. -/
theorem decodeSearch_encoded {percent : List UInt8 → List UInt8}
    (hpercent : DecodesEscapes percent) {s t d e : String}
    (hs : Encodes s.toUTF8.toList d.toList) (ht : Encodes t.toUTF8.toList e.toList) :
    decodeSearch = decodeWith percent ∧ decodeSearch d = s ∧
      decodeSearch (d ++ "%2B" ++ e) = s ++ "+" ++ t ∧
      decodeSearch (d ++ "%25" ++ e) = s ++ "%" ++ t := by
  have hplus : Encodes "+".toUTF8.toList "%2B".toList := by
    rw [toList_toUTF8]
    exact .escape (by decide) .nil
  have hsign : Encodes "%".toUTF8.toList "%25".toList := by
    rw [toList_toUTF8]
    exact .escape (by decide) .nil
  refine ⟨?_, decodeSearch_eq_of_encodes hs, ?_, ?_⟩
  · rw [hpercent.eq_decodeFrom]
    rfl
  · exact decodeSearch_eq_of_encodes ((hs.append_text hplus).append_text ht)
  · exact decodeSearch_eq_of_encodes ((hs.append_text hsign).append_text ht)

/-- Characters of one to four bytes, sent with digits in either case. -/
theorem decodeSearch_encoded_mixed :
    DecodesEscapes (decodeFrom 0) ∧ Encodes "é 5".toUTF8.toList "%c3%A9+%35".toList ∧
      Encodes "a本𝄞".toUTF8.toList "a%E6%9c%ac%f0%9D%84%9e".toList ∧
      decodeSearch = decodeWith (decodeFrom 0) ∧ decodeSearch "%c3%A9+%35" = "é 5" ∧
      decodeSearch "%c3%A9+%35%2Ba%E6%9c%ac%f0%9D%84%9e" = "é 5+a本𝄞" ∧
      decodeSearch "%c3%A9+%35%25a%E6%9c%ac%f0%9D%84%9e" = "é 5%a本𝄞" := by
  have hfirst : Encodes [0xC3, 0xA9, 0x20, 0x35]
      ['%', 'c', '3', '%', 'A', '9', '+', '%', '3', '5'] :=
    .escape (by decide) (.escape (by decide)
      (.space (.escape (by decide) .nil)))
  have hsecond : Encodes ['a'.toUInt8, 0xE6, 0x9C, 0xAC, 0xF0, 0x9D, 0x84, 0x9E]
      ['a', '%', 'E', '6', '%', '9', 'c', '%', 'a', 'c', '%', 'f', '0', '%', '9', 'D', '%', '8',
        '4', '%', '9', 'e'] :=
    .plain rfl (.escape (by decide) (.escape (by decide)
      (.escape (by decide) (.escape (by decide)
        (.escape (by decide) (.escape (by decide)
          (.escape (by decide) .nil)))))))
  have hs : Encodes "é 5".toUTF8.toList "%c3%A9+%35".toList := by
    rw [toList_toUTF8]
    exact hfirst
  have ht : Encodes "a本𝄞".toUTF8.toList "a%E6%9c%ac%f0%9D%84%9e".toList := by
    rw [toList_toUTF8]
    exact hsecond
  obtain ⟨hwith, hwhole, hplus, hsign⟩ := decodeSearch_encoded decodesEscapes_decodeFrom hs ht
  exact ⟨decodesEscapes_decodeFrom, hs, ht, hwith, hwhole, hplus, hsign⟩

end Percent
end ContentQuery
