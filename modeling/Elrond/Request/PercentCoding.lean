import Elrond.Lib.Escape
import Elrond.Request.Utf8
import Elrond.Static.Links

/-!
# Percent coding

`percent_decode` runs an index over the bytes of its argument. Here the loop is modelled with its
index and its output (`decodeLoop`): for every input it ends within as many rounds as there are
bytes, never reads behind them, and computes what `percentDecodeBytes` does. The result is described
position by position, by the escapes of `formCoding`. What `url_encode_segment` writes for a byte is
one way to write it in this coding (`spells_encodedBytes`), so every segment is decoded to the text
it was written for.
-/

set_option autoImplicit false

namespace Elrond.Request

open Elrond.Lib Elrond.Http

/-! ## The loop -/

/-- The variables of the loop of `percent_decode`. -/
structure DecodeState where
  i : Nat
  out : Bytes

/-- A round of the loop at an index of the bytes; `none` if it indexes out of bounds. -/
def decodeRound (bytes : Bytes) (st : DecodeState) : Option DecodeState := do
  let b ← bytes[st.i]?
  if b = 0x2B then some ⟨st.i + 1, st.out ++ [0x20]⟩
  else if b = 0x25 ∧ st.i + 2 < bytes.length then do
    let first ← bytes[st.i + 1]?
    let second ← bytes[st.i + 2]?
    match hexDigit first, hexDigit second with
    | some h, some l => some ⟨st.i + 3, st.out ++ [(h <<< 4) ||| l]⟩
    | _, _ => some ⟨st.i + 1, st.out ++ [b]⟩
  else some ⟨st.i + 1, st.out ++ [b]⟩

/-- The loop for at most so many rounds; `none` if it is not over then. -/
def decodeLoop (bytes : Bytes) : Nat → DecodeState → Option Bytes
  | 0, st => if st.i < bytes.length then none else some st.out
  | fuel + 1, st =>
      if st.i < bytes.length then (decodeRound bytes st).bind (decodeLoop bytes fuel)
      else some st.out

/-! ## The coding -/

/-- The byte that two hexadecimal digits denote. -/
def hexByte (h l : UInt8) : Option UInt8 := do
  let a ← Uri.hexValue (Char.ofNat h.toNat)
  let b ← Uri.hexValue (Char.ofNat l.toNat)
  some (UInt8.ofNat (16 * a + b))

/-- `application/x-www-form-urlencoded`: `%` and two hexadecimal digits are the byte they denote, `+`
is a space, and every other byte is itself. -/
def formCoding : Escape.Coding UInt8 UInt8 where
  mark := 0x25
  code := hexByte
  plain b := if b = 0x2B then 0x20 else b
  code_mark_left _ := rfl
  code_mark_right h := by
    rw [hexByte, Option.bind_eq_bind, Option.bind_eq_none_iff]
    intro a _
    rfl

/-! ## Digits -/

theorem le_ofNat_toNat_iff {lo : Char} {b : UInt8} :
    lo ≤ Char.ofNat b.toNat ↔ lo.toNat ≤ b.toNat := by
  have hb : (Char.ofNat b.toNat).val.toNat = b.toNat := toNat_ofNat_byte b
  rw [Char.le_def, UInt32.le_iff_toNat_le, hb]
  rfl

theorem ofNat_toNat_le_iff {hi : Char} {b : UInt8} :
    Char.ofNat b.toNat ≤ hi ↔ b.toNat ≤ hi.toNat := by
  have hb : (Char.ofNat b.toNat).val.toNat = b.toNat := toNat_ofNat_byte b
  rw [Char.le_def, UInt32.le_iff_toNat_le, hb]
  rfl

/-- `hex_digit` computes the value of a hexadecimal digit. -/
theorem hexDigit_eq (b : UInt8) :
    hexDigit b = (Uri.hexValue (Char.ofNat b.toNat)).map UInt8.ofNat := by
  have hsub : ∀ n, n ≤ b.toNat → UInt8.ofNat (b.toNat - n) = b - UInt8.ofNat n := by
    intro n h
    rw [UInt8.ofNat_sub h, UInt8.ofNat_toNat]
  rw [hexDigit, Uri.hexValue, toNat_ofNat_byte]
  simp only [Bool.and_eq_true, decide_eq_true_eq, UInt8.le_iff_toNat_le, le_ofNat_toNat_iff,
    ofNat_toNat_le_iff, UInt8.reduceToNat, Char.reduceToNat]
  split
  · next h =>
    rw [Option.map_some, hsub 48 h.1]
    rfl
  · split
    · next h =>
      rw [Option.map_some, UInt8.ofNat_add, hsub 97 h.1]
      rfl
    · split
      · next h =>
        rw [Option.map_some, UInt8.ofNat_add, hsub 65 h.1]
        rfl
      · rfl

/-- The shift puts the first digit above the second one. -/
theorem hexByte_eq (h l : UInt8) :
    hexByte h l = (hexDigit h).bind fun x => (hexDigit l).map fun y => (x <<< 4) ||| y := by
  rw [hexByte, hexDigit_eq, hexDigit_eq]
  cases hh : Uri.hexValue (Char.ofNat h.toNat) with
  | none => rfl
  | some a =>
      cases hl : Uri.hexValue (Char.ofNat l.toNat) with
      | none => rfl
      | some b =>
          have ha := Uri.hexValue_lt hh
          have hb := Uri.hexValue_lt hl
          have hshift : a <<< 4 % 256 = a <<< 4 := by
            rw [Nat.shiftLeft_eq]
            exact Nat.mod_eq_of_lt (by omega)
          simp only [Option.bind_eq_bind, Option.bind_some, Option.map_some]
          rw [Option.some.injEq, ← UInt8.toNat_inj, UInt8.toNat_or, UInt8.toNat_shiftLeft,
            toNat_ofNat_lt (by omega), toNat_ofNat_lt (by omega), toNat_ofNat_lt (by omega)]
          show 16 * a + b = a <<< 4 % 256 ||| b
          rw [hshift, ← Nat.shiftLeft_add_eq_or_of_lt hb, Nat.shiftLeft_eq]
          omega

/-! ## The loop decodes -/

/-- A round reads the escape at its index, or the single byte. -/
theorem decodeRound_cases {bytes : Bytes} {st : DecodeState} (h : st.i < bytes.length) :
    (∃ x, formCoding.escapeAt bytes st.i = some x ∧
      decodeRound bytes st = some ⟨st.i + 3, st.out ++ [x]⟩) ∨
    (∃ b, bytes[st.i]? = some b ∧ formCoding.escapeAt bytes st.i = none ∧
      decodeRound bytes st = some ⟨st.i + 1, st.out ++ [formCoding.plain b]⟩) := by
  have hb := List.getElem?_eq_getElem h
  generalize bytes[st.i] = b at hb
  by_cases hplus : b = 0x2B
  · subst hplus
    refine Or.inr ⟨0x2B, hb, formCoding.escapeAt_eq_none_of_ne hb (by decide), ?_⟩
    rw [decodeRound, hb]
    rfl
  have hplain : formCoding.plain b = b := if_neg hplus
  by_cases hmark : b = 0x25
  · subst hmark
    by_cases hroom : st.i + 2 < bytes.length
    · have hfirst := List.getElem?_eq_getElem (Nat.lt_of_succ_lt hroom)
      have hsecond := List.getElem?_eq_getElem hroom
      generalize bytes[st.i + 1] = first at hfirst
      generalize bytes[st.i + 2] = second at hsecond
      have hesc : formCoding.escapeAt bytes st.i = hexByte first second :=
        formCoding.escapeAt_of_mark hb hfirst hsecond
      rw [hesc, hexByte_eq, decodeRound, hb, hfirst, hsecond]
      cases hh : hexDigit first with
      | none => exact Or.inr ⟨0x25, rfl, rfl, by simp [hroom, hplain, hh]⟩
      | some x =>
          cases hl : hexDigit second with
          | none => exact Or.inr ⟨0x25, rfl, rfl, by simp [hroom, hplain, hl]⟩
          | some y => exact Or.inl ⟨_, rfl, by simp [hroom, hh, hl]⟩
    -- too close to the end for two digits
    · refine Or.inr ⟨0x25, hb, formCoding.escapeAt_eq_none_of_le (Nat.not_lt.1 hroom), ?_⟩
      rw [decodeRound, hb, hplain]
      simp [hroom]
  · refine Or.inr ⟨b, hb, formCoding.escapeAt_eq_none_of_ne hb hmark, ?_⟩
    rw [decodeRound, hb, hplain]
    simp [hplus, hmark]

/-- Each round brings the index closer to the end, so the loop ends, and it decodes what is left. -/
theorem decodeLoop_eq {bytes : Bytes} {fuel : Nat} {st : DecodeState}
    (hfuel : bytes.length ≤ st.i + fuel) :
    decodeLoop bytes fuel st = some (st.out ++ formCoding.decode (bytes.drop st.i)) := by
  induction fuel generalizing st with
  | zero =>
      rw [Nat.add_zero] at hfuel
      have hend : ¬ st.i < bytes.length := Nat.not_lt.2 hfuel
      rw [decodeLoop, if_neg hend, List.drop_eq_nil_of_le hfuel, formCoding.decode_nil,
        List.append_nil]
  | succ fuel ih =>
      rw [decodeLoop]
      by_cases hlt : st.i < bytes.length
      · rw [if_pos hlt]
        rcases decodeRound_cases hlt with ⟨x, hesc, hround⟩ | ⟨b, hb, hesc, hround⟩
        · have hrest := @ih ⟨st.i + 3, st.out ++ [x]⟩ (by simp only; omega)
          rw [hround, Option.bind_some, hrest, formCoding.decode_escape hesc, List.append_assoc,
            List.singleton_append]
        · have hrest := @ih ⟨st.i + 1, st.out ++ [formCoding.plain b]⟩ (by simp only; omega)
          rw [hround, Option.bind_some, hrest, formCoding.decode_plain hb hesc, List.append_assoc,
            List.singleton_append]
      · have hend := Nat.not_lt.1 hlt
        rw [if_neg hlt, List.drop_eq_nil_of_le hend, formCoding.decode_nil, List.append_nil]

/-- The recursion of `percentDecodeBytes` decodes too. -/
theorem percentDecodeBytes_eq (bytes : Bytes) :
    percentDecodeBytes bytes = formCoding.decode bytes := by
  fun_induction percentDecodeBytes bytes with
  | case1 => exact formCoding.decode_nil.symm
  | case2 rest ih =>
      have hesc : formCoding.escapeAt (0x2B :: rest) 0 = none :=
        formCoding.escapeAt_eq_none_of_ne rfl (by decide)
      rw [ih]
      exact (formCoding.decode_plain (i := 0) rfl hesc).symm
  | case3 h l rest x y hl hh _ ih =>
      have hesc : formCoding.escapeAt (0x25 :: h :: l :: rest) 0 = some ((x <<< 4) ||| y) := by
        rw [formCoding.escapeAt_of_mark rfl rfl rfl]
        show hexByte h l = _
        rw [hexByte_eq, hh, hl]
        rfl
      rw [ih]
      exact (formCoding.decode_escape hesc).symm
  | case4 h l rest hdigits _ ih =>
      have hesc : formCoding.escapeAt (0x25 :: h :: l :: rest) 0 = none := by
        rw [formCoding.escapeAt_of_mark rfl rfl rfl]
        show hexByte h l = _
        rw [hexByte_eq, Option.bind_eq_none_iff]
        intro x hx
        rw [Option.map_eq_none_iff, Option.eq_none_iff_forall_ne_some]
        exact fun y hy => hdigits x y hx hy
      rw [ih]
      exact (formCoding.decode_plain (i := 0) rfl hesc).symm
  | case5 rest hshort _ ih =>
      have hlen : (0x25 :: rest : Bytes).length ≤ 0 + 2 := by
        rcases rest with _ | ⟨h, _ | ⟨l, rest⟩⟩
        · exact Nat.le_add_left 1 1
        · exact Nat.le_refl 2
        · exact (hshort h l rest rfl).elim
      rw [ih]
      exact (formCoding.decode_plain (i := 0) rfl (formCoding.escapeAt_eq_none_of_le hlen)).symm
  | case6 b rest hplus hmark ih =>
      have hplain : formCoding.plain b = b := if_neg hplus
      have hesc : formCoding.escapeAt (b :: rest) 0 = none :=
        formCoding.escapeAt_eq_none_of_ne rfl hmark
      have hdecode := formCoding.decode_plain (i := 0) rfl hesc
      rw [hplain] at hdecode
      rw [ih]
      exact hdecode.symm

/-! ## Positions -/

/-- A plus sign is no hexadecimal digit, so each of them is a space. -/
theorem valueAt_plus {bytes : Bytes} {i : Nat} (h : bytes[i]? = some 0x2B) :
    formCoding.valueAt bytes i = some 0x20 := by
  have hright : ∀ d, hexByte d 0x2B = none := by
    intro d
    rw [hexByte, Option.bind_eq_bind, Option.bind_eq_none_iff]
    intro a _
    rfl
  have hdigit : formCoding.isDigit bytes i = false :=
    formCoding.isDigit_eq_false h (fun _ => rfl) hright
  have hesc : formCoding.escapeAt bytes i = none :=
    formCoding.escapeAt_eq_none_of_ne h (by decide)
  rw [Escape.Coding.valueAt, hdigit, hesc, h]
  rfl

/-- A percent sign without two hexadecimal digits behind it stays. -/
theorem valueAt_percent {bytes : Bytes} {i : Nat} (hmark : bytes[i]? = some 0x25)
    (h : ∀ h l, bytes[i + 1]? = some h → bytes[i + 2]? = some l → hexByte h l = none) :
    formCoding.valueAt bytes i = some 0x25 := by
  apply formCoding.valueAt_of_mark hmark
  rw [Option.eq_none_iff_forall_ne_some]
  intro x hx
  obtain ⟨-, first, second, hfirst, hsecond, hcode⟩ := formCoding.escapeAt_eq_some.1 hx
  exact Option.some_ne_none x (hcode.symm.trans (h first second hfirst hsecond))

/-! ## The encoder -/

/-- The bytes that `url_encode_segment` writes for a byte. -/
def encodedBytes (b : UInt8) : Bytes := (Static.encodeByte b).flatMap String.utf8EncodeChar

theorem utf8Bytes_urlEncodeSegment (s : String) :
    Text.utf8Bytes (Static.urlEncodeSegment s) = (Text.utf8Bytes s).flatMap encodedBytes := by
  rw [Text.utf8Bytes, Static.urlEncodeSegment, String.toList_ofList, List.flatMap_assoc]
  rfl

/-- A digit of `HEX` is one byte with the value of the digit. -/
theorem encodeChar_hexDigit {n : Nat} (h : n < 16) :
    ∃ d : UInt8, String.utf8EncodeChar (Static.hexDigit n) = [d] ∧
      Uri.hexValue (Char.ofNat d.toNat) = some n := by
  have hall : ∀ n < 16,
      String.utf8EncodeChar (Static.hexDigit n) = [UInt8.ofNat (Static.hexDigit n).toNat] ∧
        Uri.hexValue (Char.ofNat (UInt8.ofNat (Static.hexDigit n).toNat).toNat) = some n := by
    decide
  exact ⟨_, hall n h⟩

/-- It writes each byte in the coding that `percent_decode` reads. -/
theorem spells_encodedBytes (b : UInt8) : formCoding.Spells (encodedBytes b) b := by
  rw [encodedBytes, Static.encodeByte]
  split
  -- an unreserved byte is neither a percent sign nor a plus sign
  · next hplain =>
    obtain ⟨hlow, hmark, hplus⟩ := Static.toNat_of_isUnreserved hplain
    have hself : formCoding.plain b = b := if_neg fun heq => hplus (congrArg UInt8.toNat heq)
    have hspells := Escape.Coding.Spells.plain (S := formCoding) b
      fun heq => hmark (congrArg UInt8.toNat heq)
    rw [hself] at hspells
    rwa [List.flatMap_singleton, Static.utf8EncodeChar_low hlow]
  · have hlt := b.toNat_lt
    obtain ⟨h, hbytes, hvalue⟩ := encodeChar_hexDigit (n := b.toNat / 16) (by omega)
    obtain ⟨l, lbytes, lvalue⟩ := encodeChar_hexDigit (n := b.toNat % 16) (by omega)
    have hcode : hexByte h l = some b := by
      rw [hexByte, hvalue, lvalue, Option.bind_eq_bind, Option.bind_some, Option.bind_some,
        Nat.div_add_mod, UInt8.ofNat_toNat]
    rw [List.flatMap_cons, List.flatMap_cons, List.flatMap_singleton, hbytes, lbytes]
    exact .escape h l b hcode

/-! ## The round trip -/

theorem percentDecode_urlEncodeSegment (s : String) :
    percentDecode (Static.urlEncodeSegment s) = s := by
  rw [percentDecode, percentDecodeBytes_eq, utf8Bytes_urlEncodeSegment,
    Escape.Coding.decode_flatMap spells_encodedBytes, fromUtf8Lossy_utf8Bytes]

theorem decodeLoop_eq_filterMap (bytes : Bytes) (extra : Nat) :
    decodeLoop bytes (bytes.length + extra) ⟨0, []⟩ =
      some ((List.range bytes.length).filterMap (formCoding.valueAt bytes)) := by
  have hfuel : bytes.length ≤ 0 + (bytes.length + extra) := by omega
  rw [decodeLoop_eq hfuel, List.nil_append, List.drop_zero, formCoding.decode_eq]

/-- **Percent coding.** Every text is decoded back from the segment it is encoded as. For all bytes
the loop of `percent_decode` ends within as many rounds as there are bytes without indexing out of
bounds, and position by position it decodes each `+` as a space and each `%` before two hexadecimal
digits as the byte they denote, and leaves every other `%` as it is, also one with fewer than two
bytes behind it. The result is read as UTF-8, which loses nothing exactly of valid UTF-8. -/
theorem percent_coding_round_trip :
    (∀ s, percentDecode (Static.urlEncodeSegment s) = s) ∧
    (∀ bytes extra, decodeLoop bytes (bytes.length + extra) ⟨0, []⟩ =
      some ((List.range bytes.length).filterMap (formCoding.valueAt bytes))) ∧
    (∀ (bytes : Bytes) i,
      (bytes[i]? = some 0x2B → formCoding.valueAt bytes i = some 0x20) ∧
      (∀ h l x, bytes[i]? = some 0x25 → bytes[i + 1]? = some h → bytes[i + 2]? = some l →
        hexByte h l = some x → formCoding.valueAt bytes i = some x) ∧
      (bytes[i]? = some 0x25 →
        (∀ h l, bytes[i + 1]? = some h → bytes[i + 2]? = some l → hexByte h l = none) →
        formCoding.valueAt bytes i = some 0x25) ∧
      (bytes[i]? = some 0x25 → bytes.length ≤ i + 2 →
        formCoding.valueAt bytes i = some 0x25)) ∧
    (∀ s, (decodeLoop (Text.utf8Bytes s) (Text.utf8Bytes s).length ⟨0, []⟩).map fromUtf8Lossy =
      some (percentDecode s)) ∧
    ∀ bs, Text.utf8Bytes (fromUtf8Lossy bs) = bs ↔ bs.toByteArray.IsValidUTF8 := by
  refine ⟨percentDecode_urlEncodeSegment, decodeLoop_eq_filterMap, ?_, ?_,
    utf8Bytes_fromUtf8Lossy_iff⟩
  · intro bytes i
    refine ⟨valueAt_plus, ?_, valueAt_percent, ?_⟩
    · intro h l x hmark hh hl hcode
      exact formCoding.valueAt_of_escape ((formCoding.escapeAt_of_mark hmark hh hl).trans hcode)
    · intro hmark hend
      exact formCoding.valueAt_of_mark hmark (formCoding.escapeAt_eq_none_of_le hend)
  · intro s
    have hloop := decodeLoop_eq_filterMap (Text.utf8Bytes s) 0
    rw [Nat.add_zero] at hloop
    rw [hloop, ← formCoding.decode_eq, ← percentDecodeBytes_eq, Option.map_some]
    rfl

/-- A text with a percent sign, a plus sign and a character of two bytes comes back, and an escape
that the end cuts off stays. -/
theorem percent_coding_of_text :
    percentDecode (Static.urlEncodeSegment "50% + \u00E9") = "50% + \u00E9" ∧
      decodeLoop (Text.utf8Bytes "a+%41%4") (Text.utf8Bytes "a+%41%4").length ⟨0, []⟩ =
        some (Text.utf8Bytes "a A%4") := by
  obtain ⟨htrip, hloop, -⟩ := percent_coding_round_trip
  refine ⟨htrip _, (hloop _ 0).trans ?_⟩
  decide

end Elrond.Request
