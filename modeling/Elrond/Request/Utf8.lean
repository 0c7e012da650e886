import Elrond.Request.Context

/-!
# Lossy UTF-8

`String::from_utf8_lossy` on bytes that are UTF-8: each round of the loop reads one encoded character
(`utf8Head_encodeChar`), so the bytes of a text are read as the text (`fromUtf8Lossy_utf8Bytes`).
Nothing is lost exactly if the bytes are valid UTF-8 (`utf8Bytes_fromUtf8Lossy_iff`).
-/

set_option autoImplicit false

namespace Elrond.Request

open Elrond.Lib Elrond.Http

/-! ## Sequences -/

theorem isCont_iff {lo hi b : UInt8} :
    isCont lo hi b = true ↔ lo.toNat ≤ b.toNat ∧ b.toNat ≤ hi.toNat := by
  simp only [isCont, Bool.and_eq_true, decide_eq_true_eq, UInt8.le_iff_toNat_le]

theorem not_isCont_of_lt {lo hi b : UInt8} (h : hi.toNat < b.toNat) :
    ¬ (lo ≤ b && b ≤ hi) = true :=
  fun hcont => absurd (isCont_iff.1 hcont).2 (Nat.not_le.2 h)

theorem not_lt_of_le_toNat {b : UInt8} (h : 0x80 ≤ b.toNat) : ¬ b < 0x80 :=
  UInt8.not_lt.2 (UInt8.le_iff_toNat_le.2 h)

/-- The second byte after a head whose range is narrowed from below, after one head, or from above,
after another. -/
theorem isCont_second {b c first last lo hi : UInt8} (hc : 0x80 ≤ c.toNat ∧ c.toNat ≤ 0xBF)
    (hlow : b.toNat = first.toNat → lo.toNat ≤ c.toNat)
    (hhigh : b.toNat = last.toNat → c.toNat ≤ hi.toNat) {range : UInt8 × UInt8}
    (hrange : range = if b = first then (lo, 0xBF) else if b = last then (0x80, hi) else (0x80, 0xBF)) :
    isCont range.1 range.2 c = true := by
  rw [isCont_iff, hrange]
  split
  · next h => exact ⟨hlow (congrArg UInt8.toNat h), hc.2⟩
  · split
    · next h => exact ⟨hc.1, hhigh (congrArg UInt8.toNat h)⟩
    · exact hc

theorem utf8Head_one {b : UInt8} (hb : b.toNat < 0x80) (rest : Bytes) :
    utf8Head (b :: rest) = (some (Char.ofNat b.toNat), 1) := by
  have hone : b < 0x80 := UInt8.lt_iff_toNat_lt.2 hb
  rw [utf8Head.eq_def]
  exact if_pos hone

theorem utf8Head_two {b c : UInt8} (hb : 0xC2 ≤ b.toNat ∧ b.toNat ≤ 0xDF)
    (hc : 0x80 ≤ c.toNat ∧ c.toNat ≤ 0xBF) (rest : Bytes) :
    utf8Head (b :: c :: rest) = (some (scalarOf (b.toNat % 32) [c]), 2) := by
  have hone : ¬ b < 0x80 := not_lt_of_le_toNat (by omega)
  have htwo : (0xC2 ≤ b && b ≤ 0xDF) = true := isCont_iff.2 hb
  have hcont : isCont 0x80 0xBF c = true := isCont_iff.2 hc
  rw [utf8Head.eq_def]
  simp only [if_neg hone, if_pos htwo, if_pos hcont]

theorem utf8Head_three {b c d : UInt8} (hb : 0xE0 ≤ b.toNat ∧ b.toNat ≤ 0xEF)
    (hc : 0x80 ≤ c.toNat ∧ c.toNat ≤ 0xBF) (hlow : b.toNat = 0xE0 → 0xA0 ≤ c.toNat)
    (hhigh : b.toNat = 0xED → c.toNat ≤ 0x9F) (hd : 0x80 ≤ d.toNat ∧ d.toNat ≤ 0xBF)
    (rest : Bytes) :
    utf8Head (b :: c :: d :: rest) = (some (scalarOf (b.toNat % 16) [c, d]), 3) := by
  have hone : ¬ b < 0x80 := not_lt_of_le_toNat (by omega)
  have htwo : ¬ (0xC2 ≤ b && b ≤ 0xDF) = true := not_isCont_of_lt (Nat.lt_of_lt_of_le (by decide) hb.1)
  have hthree : (0xE0 ≤ b && b ≤ 0xEF) = true := isCont_iff.2 hb
  have hsecond : isCont (secondOfThree b).1 (secondOfThree b).2 c = true :=
    isCont_second hc hlow hhigh rfl
  have hthird : isCont 0x80 0xBF d = true := isCont_iff.2 hd
  rw [utf8Head.eq_def]
  simp only [if_neg hone, if_neg htwo, if_pos hthree, if_pos hsecond, if_pos hthird]

theorem utf8Head_four {b c d e : UInt8} (hb : 0xF0 ≤ b.toNat ∧ b.toNat ≤ 0xF4)
    (hc : 0x80 ≤ c.toNat ∧ c.toNat ≤ 0xBF) (hlow : b.toNat = 0xF0 → 0x90 ≤ c.toNat)
    (hhigh : b.toNat = 0xF4 → c.toNat ≤ 0x8F) (hd : 0x80 ≤ d.toNat ∧ d.toNat ≤ 0xBF)
    (he : 0x80 ≤ e.toNat ∧ e.toNat ≤ 0xBF) (rest : Bytes) :
    utf8Head (b :: c :: d :: e :: rest) = (some (scalarOf (b.toNat % 8) [c, d, e]), 4) := by
  have hone : ¬ b < 0x80 := not_lt_of_le_toNat (by omega)
  have htwo : ¬ (0xC2 ≤ b && b ≤ 0xDF) = true := not_isCont_of_lt (Nat.lt_of_lt_of_le (by decide) hb.1)
  have hthree : ¬ (0xE0 ≤ b && b ≤ 0xEF) = true := not_isCont_of_lt (Nat.lt_of_lt_of_le (by decide) hb.1)
  have hfour : (0xF0 ≤ b && b ≤ 0xF4) = true := isCont_iff.2 hb
  have hsecond : isCont (secondOfFour b).1 (secondOfFour b).2 c = true :=
    isCont_second hc hlow hhigh rfl
  have hthird : isCont 0x80 0xBF d = true := isCont_iff.2 hd
  have hfourth : isCont 0x80 0xBF e = true := isCont_iff.2 he
  rw [utf8Head.eq_def]
  simp only [if_neg hone, if_neg htwo, if_neg hthree, if_pos hfour, if_pos hsecond, if_pos hthird,
    if_pos hfourth]

/-! ## Characters -/

theorem toNat_ofNat_lt {n : Nat} (h : n < 256) : (UInt8.ofNat n).toNat = n :=
  UInt8.toNat_ofNat_of_lt' h

/-- The sequences of two, three and four bytes that encode a number stand for its character. -/
theorem utf8Head_encoded_two {v : Nat} (hlow : 0x7F < v) (hhigh : v ≤ 0x7FF) (rest : Bytes) :
    utf8Head (UInt8.ofNat (v / 64 % 32 + 0xC0) :: UInt8.ofNat (v % 64 + 0x80) :: rest) =
      (some (Char.ofNat v), 2) := by
  have hb := toNat_ofNat_lt (n := v / 64 % 32 + 0xC0) (by omega)
  have hc := toNat_ofNat_lt (n := v % 64 + 0x80) (by omega)
  have hscalar : scalarOf ((UInt8.ofNat (v / 64 % 32 + 0xC0)).toNat % 32)
      [UInt8.ofNat (v % 64 + 0x80)] = Char.ofNat v := by
    simp only [scalarOf, List.foldl_cons, List.foldl_nil, hb, hc]
    congr 1
    omega
  rw [utf8Head_two (by omega) (by omega), hscalar]

theorem utf8Head_encoded_three {v : Nat} (hlow : 0x7FF < v) (hhigh : v ≤ 0xFFFF)
    (hvalid : v < 0xD800 ∨ 0xDFFF < v) (rest : Bytes) :
    utf8Head (UInt8.ofNat (v / 4096 % 16 + 0xE0) :: UInt8.ofNat (v / 64 % 64 + 0x80) ::
        UInt8.ofNat (v % 64 + 0x80) :: rest) =
      (some (Char.ofNat v), 3) := by
  have hb := toNat_ofNat_lt (n := v / 4096 % 16 + 0xE0) (by omega)
  have hc := toNat_ofNat_lt (n := v / 64 % 64 + 0x80) (by omega)
  have hd := toNat_ofNat_lt (n := v % 64 + 0x80) (by omega)
  have hscalar : scalarOf ((UInt8.ofNat (v / 4096 % 16 + 0xE0)).toNat % 16)
      [UInt8.ofNat (v / 64 % 64 + 0x80), UInt8.ofNat (v % 64 + 0x80)] = Char.ofNat v := by
    simp only [scalarOf, List.foldl_cons, List.foldl_nil, hb, hc, hd]
    congr 1
    omega
  -- the second byte tells a short number from an overlong one and a character from a surrogate
  rw [utf8Head_three (by omega) (by omega) (by omega) (by omega) (by omega), hscalar]

theorem utf8Head_encoded_four {v : Nat} (hlow : 0xFFFF < v) (hhigh : v < 0x110000)
    (rest : Bytes) :
    utf8Head (UInt8.ofNat (v / 262144 % 8 + 0xF0) :: UInt8.ofNat (v / 4096 % 64 + 0x80) ::
        UInt8.ofNat (v / 64 % 64 + 0x80) :: UInt8.ofNat (v % 64 + 0x80) :: rest) =
      (some (Char.ofNat v), 4) := by
  have hb := toNat_ofNat_lt (n := v / 262144 % 8 + 0xF0) (by omega)
  have hc := toNat_ofNat_lt (n := v / 4096 % 64 + 0x80) (by omega)
  have hd := toNat_ofNat_lt (n := v / 64 % 64 + 0x80) (by omega)
  have he := toNat_ofNat_lt (n := v % 64 + 0x80) (by omega)
  have hscalar : scalarOf ((UInt8.ofNat (v / 262144 % 8 + 0xF0)).toNat % 8)
      [UInt8.ofNat (v / 4096 % 64 + 0x80), UInt8.ofNat (v / 64 % 64 + 0x80),
        UInt8.ofNat (v % 64 + 0x80)] = Char.ofNat v := by
    simp only [scalarOf, List.foldl_cons, List.foldl_nil, hb, hc, hd, he]
    congr 1
    omega
  rw [utf8Head_four (by omega) (by omega) (by omega) (by omega) (by omega) (by omega), hscalar]

/-- An encoded character is read back, whatever follows it. -/
theorem utf8Head_encodeChar (c : Char) (rest : Bytes) :
    utf8Head (String.utf8EncodeChar c ++ rest) = (some c, (String.utf8EncodeChar c).length) := by
  have hchar : Char.ofNat c.val.toNat = c := Char.ofNat_toNat c
  have hvalid : c.val.toNat < 0xD800 ∨ 0xDFFF < c.val.toNat ∧ c.val.toNat < 0x110000 := c.valid
  rw [String.utf8EncodeChar]
  generalize c.val.toNat = v at hchar hvalid
  rw [← hchar]
  split
  · next hone =>
    have hb := toNat_ofNat_lt (n := v) (by omega)
    rw [List.singleton_append, utf8Head_one (by omega), hb]
    rfl
  · next hone =>
    split
    · next htwo => exact utf8Head_encoded_two (Nat.lt_of_not_le hone) htwo rest
    · next htwo =>
      split
      · next hthree =>
        exact utf8Head_encoded_three (Nat.lt_of_not_le htwo) hthree (by omega) rest
      · next hthree => exact utf8Head_encoded_four (Nat.lt_of_not_le hthree) (by omega) rest

/-! ## Texts -/

/-- The bytes of a text are read as the text. -/
theorem fromUtf8LossyLoop_encode (cs : List Char) (fuel : Nat)
    (hfuel : (cs.flatMap String.utf8EncodeChar).length ≤ fuel) :
    fromUtf8LossyLoop fuel (cs.flatMap String.utf8EncodeChar) = cs := by
  induction cs generalizing fuel with
  | nil => cases fuel <;> rfl
  | cons c cs ih =>
      have hpos : 0 < (String.utf8EncodeChar c).length :=
        List.length_pos_iff.2 String.utf8EncodeChar_ne_nil
      rw [List.flatMap_cons, List.length_append] at hfuel
      have hhead := utf8Head_encodeChar c (cs.flatMap String.utf8EncodeChar)
      obtain ⟨fuel, rfl⟩ : ∃ n, fuel = n + 1 := ⟨fuel - 1, by omega⟩
      have hrest := ih fuel (by omega)
      obtain ⟨b, bs, hbytes⟩ := List.exists_cons_of_length_pos hpos
      rw [List.flatMap_cons]
      rw [hbytes, List.cons_append] at hhead ⊢
      rw [fromUtf8LossyLoop, hhead]
      simp only [Option.getD_some]
      rw [← List.cons_append, List.drop_left, hrest]

theorem fromUtf8Lossy_utf8Bytes (s : String) : fromUtf8Lossy (Text.utf8Bytes s) = s := by
  rw [fromUtf8Lossy, Text.utf8Bytes, fromUtf8LossyLoop_encode _ _ le_rfl, String.ofList_toList]

/-- Nothing is lost exactly of valid UTF-8. -/
theorem utf8Bytes_fromUtf8Lossy_iff (bs : Bytes) :
    Text.utf8Bytes (fromUtf8Lossy bs) = bs ↔ bs.toByteArray.IsValidUTF8 := by
  constructor
  · intro h
    rw [← h]
    exact .intro _ rfl
  · rintro ⟨cs, hcs⟩
    have hbytes : bs = Text.utf8Bytes (String.ofList cs) := by
      rw [Text.utf8Bytes, String.toList_ofList]
      exact List.toByteArray_inj.1 hcs
    rw [hbytes, fromUtf8Lossy_utf8Bytes]

end Elrond.Request
