import Mathlib.Data.List.Basic
import Mathlib.Tactic

/-!
# Base64

The standard alphabet with padding. Three bytes are written as four digits of six bits each; one or
two bytes at the end take two or three digits, and padding for the rest of the group.

The reader is the strict one: padding completes the last group and stands nowhere else, and the bits
of the last digit that no byte takes up are zero. So a list of bytes has one text, and the reader
accepts that one only (`decode_eq_some_iff`).
-/

set_option autoImplicit false

namespace Elrond.Lib.Base64

/-! ## Digits -/

/-- The digits, in the order of their values. -/
def alphabet : List Char :=
  "ABCDEFGHIJKLMNOPQRSTUVWXYZabcdefghijklmnopqrstuvwxyz0123456789+/".toList

/-- What stands for a missing digit. -/
def padding : Char := '='

/-- The digit of a value below 64. -/
def digit (n : Nat) : Char := alphabet[n]?.getD padding

/-- The value of a digit. -/
def value (c : Char) : Option Nat := if c ∈ alphabet then some (alphabet.idxOf c) else none

theorem length_alphabet : alphabet.length = 64 := rfl

theorem nodup_alphabet : alphabet.Nodup := by decide

theorem digit_eq {n : Nat} (h : n < alphabet.length) : digit n = alphabet[n] := by
  rw [digit, List.getElem?_eq_getElem h, Option.getD_some]

theorem digit_mem {n : Nat} (h : n < 64) : digit n ∈ alphabet := by
  rw [digit_eq (h.trans_eq length_alphabet.symm)]
  exact List.getElem_mem _

/-- A digit has a value, and the value its digit. -/
theorem value_eq_some {c : Char} {n : Nat} : value c = some n ↔ n < 64 ∧ c = digit n := by
  rw [value]
  constructor
  · intro h
    split at h
    · next hmem =>
      obtain rfl := Option.some.inj h
      have hlt : alphabet.idxOf c < alphabet.length := List.idxOf_lt_length_of_mem hmem
      refine ⟨hlt, ?_⟩
      rw [digit_eq hlt, List.getElem_idxOf]
    · cases h
  · rintro ⟨hlt, rfl⟩
    rw [if_pos (digit_mem hlt), digit_eq (hlt.trans_eq length_alphabet.symm),
      nodup_alphabet.idxOf_getElem]

theorem value_digit {n : Nat} (h : n < 64) : value (digit n) = some n :=
  value_eq_some.2 ⟨h, rfl⟩

theorem digit_ne_padding {n : Nat} (h : n < 64) : digit n ≠ padding := by
  have hmem := digit_mem h
  intro heq
  rw [heq] at hmem
  revert hmem
  decide

/-! ## Groups -/

/-- The text of a list of bytes. -/
def encode : List UInt8 → List Char
  | [] => []
  | [a] => [digit (a.toNat / 4), digit (a.toNat % 4 * 16), padding, padding]
  | [a, b] =>
      let n := a.toNat * 256 + b.toNat
      [digit (n / 1024), digit (n / 16 % 64), digit (n % 16 * 4), padding]
  | a :: b :: c :: rest =>
      let n := (a.toNat * 256 + b.toNat) * 256 + c.toNat
      digit (n / 262144) :: digit (n / 4096 % 64) :: digit (n / 64 % 64) :: digit (n % 64) ::
        encode rest

/-- The bytes of a last group that padding ends. -/
def decodeLast (p q r : Char) : Option (List UInt8) := do
  let w ← value p
  let x ← value q
  if r = padding then
    if x % 16 = 0 then some [UInt8.ofNat ((w * 64 + x) / 16)] else none
  else do
    let y ← value r
    let n := (w * 64 + x) * 64 + y
    if y % 4 = 0 then some [UInt8.ofNat (n / 1024), UInt8.ofNat (n / 4 % 256)] else none

/-- The three bytes of four digits. -/
def decodeGroup (p q r s : Char) : Option (List UInt8) := do
  let w ← value p
  let x ← value q
  let y ← value r
  let z ← value s
  let n := ((w * 64 + x) * 64 + y) * 64 + z
  some [UInt8.ofNat (n / 65536), UInt8.ofNat (n / 256 % 256), UInt8.ofNat (n % 256)]

/-- The bytes of a text. -/
def decode : List Char → Option (List UInt8)
  | [] => some []
  | p :: q :: r :: s :: rest =>
      if s = padding then if rest = [] then decodeLast p q r else none
      else do
        let group ← decodeGroup p q r s
        let bs ← decode rest
        some (group ++ bs)
  | _ => none

/-- A byte is its number. -/
theorem ofNat_eq {n : Nat} {b : UInt8} (h : n % 256 = b.toNat) : UInt8.ofNat n = b := by
  apply UInt8.toNat_inj.1
  rw [UInt8.toNat_ofNat']
  exact h

theorem decodeLast_one (a : UInt8) :
    decodeLast (digit (a.toNat / 4)) (digit (a.toNat % 4 * 16)) padding = some [a] := by
  have ha := a.toNat_lt
  have hw : a.toNat / 4 < 64 := by omega
  have hx : a.toNat % 4 * 16 < 64 := by omega
  simp only [decodeLast, value_digit hw, value_digit hx, Option.bind_eq_bind, Option.bind_some,
    if_true]
  rw [if_pos (by omega), ofNat_eq (b := a) (by omega)]

theorem decodeLast_two (a b : UInt8) :
    let n := a.toNat * 256 + b.toNat
    decodeLast (digit (n / 1024)) (digit (n / 16 % 64)) (digit (n % 16 * 4)) = some [a, b] := by
  intro n
  have ha := a.toNat_lt
  have hb := b.toNat_lt
  have hw : n / 1024 < 64 := by omega
  have hx : n / 16 % 64 < 64 := by omega
  have hy : n % 16 * 4 < 64 := by omega
  simp only [decodeLast, value_digit hw, value_digit hx, value_digit hy, Option.bind_eq_bind,
    Option.bind_some, if_neg (digit_ne_padding hy)]
  rw [if_pos (by omega), ofNat_eq (b := a) (by omega), ofNat_eq (b := b) (by omega)]

theorem decodeGroup_three (a b c : UInt8) :
    let n := (a.toNat * 256 + b.toNat) * 256 + c.toNat
    decodeGroup (digit (n / 262144)) (digit (n / 4096 % 64)) (digit (n / 64 % 64))
      (digit (n % 64)) = some [a, b, c] := by
  intro n
  have ha := a.toNat_lt
  have hb := b.toNat_lt
  have hc := c.toNat_lt
  have hw : n / 262144 < 64 := by omega
  have hx : n / 4096 % 64 < 64 := by omega
  have hy : n / 64 % 64 < 64 := by omega
  have hz : n % 64 < 64 := by omega
  have hn : ((n / 262144 * 64 + n / 4096 % 64) * 64 + n / 64 % 64) * 64 + n % 64 = n := by omega
  simp only [decodeGroup, value_digit hw, value_digit hx, value_digit hy, value_digit hz,
    Option.bind_eq_bind, Option.bind_some, hn]
  rw [ofNat_eq (b := a) (by omega), ofNat_eq (b := b) (by omega), ofNat_eq (b := c) (by omega)]

/-- What is written is read. -/
theorem decode_encode (bs : List UInt8) : decode (encode bs) = some bs := by
  fun_induction encode bs with
  | case1 => rfl
  | case2 a => rw [decode, if_pos rfl, if_pos rfl, decodeLast_one]
  | case3 a b n => rw [decode, if_pos rfl, if_pos rfl, decodeLast_two]
  | case4 a b c rest n ih =>
      rw [decode, if_neg (digit_ne_padding (Nat.mod_lt _ (by decide))), decodeGroup_three, ih]
      rfl

theorem encode_of_decodeLast {p q r : Char} {bs : List UInt8} (h : decodeLast p q r = some bs) :
    encode bs = [p, q, r, padding] := by
  obtain ⟨w, hw, hrest⟩ := Option.bind_eq_some_iff.1 h
  obtain ⟨x, hx, hlast⟩ := Option.bind_eq_some_iff.1 hrest
  obtain ⟨hw, rfl⟩ := value_eq_some.1 hw
  obtain ⟨hx, rfl⟩ := value_eq_some.1 hx
  split at hlast
  · next hr =>
    split at hlast
    · next hbits =>
      obtain rfl := Option.some.inj hlast
      have ha : (UInt8.ofNat ((w * 64 + x) / 16)).toNat = w * 4 + x / 16 := by
        rw [UInt8.toNat_ofNat']
        omega
      have hfirst : (w * 4 + x / 16) / 4 = w := by omega
      have hsecond : (w * 4 + x / 16) % 4 * 16 = x := by omega
      rw [encode, ha, hfirst, hsecond, hr]
    · cases hlast
  · obtain ⟨y, hy, hbytes⟩ := Option.bind_eq_some_iff.1 hlast
    obtain ⟨hy, rfl⟩ := value_eq_some.1 hy
    simp only at hbytes
    split at hbytes
    · next hbits =>
      obtain rfl := Option.some.inj hbytes
      have hn : (UInt8.ofNat (((w * 64 + x) * 64 + y) / 1024)).toNat * 256 +
          (UInt8.ofNat (((w * 64 + x) * 64 + y) / 4 % 256)).toNat = (w * 64 + x) * 16 + y / 4 := by
        rw [UInt8.toNat_ofNat', UInt8.toNat_ofNat']
        omega
      have hfirst : ((w * 64 + x) * 16 + y / 4) / 1024 = w := by omega
      have hsecond : ((w * 64 + x) * 16 + y / 4) / 16 % 64 = x := by omega
      have hthird : ((w * 64 + x) * 16 + y / 4) % 16 * 4 = y := by omega
      simp only [encode, hn, hfirst, hsecond, hthird]
    · cases hbytes

theorem encode_of_decodeGroup {p q r s : Char} {group : List UInt8}
    (h : decodeGroup p q r s = some group) (rest : List UInt8) :
    encode (group ++ rest) = p :: q :: r :: s :: encode rest := by
  obtain ⟨w, hw, hx⟩ := Option.bind_eq_some_iff.1 h
  obtain ⟨x, hx, hy⟩ := Option.bind_eq_some_iff.1 hx
  obtain ⟨y, hy, hz⟩ := Option.bind_eq_some_iff.1 hy
  obtain ⟨z, hz, hgroup⟩ := Option.bind_eq_some_iff.1 hz
  obtain ⟨hw, rfl⟩ := value_eq_some.1 hw
  obtain ⟨hx, rfl⟩ := value_eq_some.1 hx
  obtain ⟨hy, rfl⟩ := value_eq_some.1 hy
  obtain ⟨hz, rfl⟩ := value_eq_some.1 hz
  obtain rfl := Option.some.inj hgroup
  set n := ((w * 64 + x) * 64 + y) * 64 + z with hn
  have hbytes :
      ((UInt8.ofNat (n / 65536)).toNat * 256 + (UInt8.ofNat (n / 256 % 256)).toNat) * 256 +
        (UInt8.ofNat (n % 256)).toNat = n := by
    rw [UInt8.toNat_ofNat', UInt8.toNat_ofNat', UInt8.toNat_ofNat']
    omega
  have hfirst : n / 262144 = w := by omega
  have hsecond : n / 4096 % 64 = x := by omega
  have hthird : n / 64 % 64 = y := by omega
  have hfourth : n % 64 = z := by omega
  simp only [List.cons_append, List.nil_append, encode, hbytes, hfirst, hsecond, hthird, hfourth]

/-- What is read is written just so. -/
theorem encode_of_decode {cs : List Char} {bs : List UInt8} (h : decode cs = some bs) :
    encode bs = cs := by
  fun_induction decode cs generalizing bs with
  | case1 =>
      obtain rfl := Option.some.inj h
      rfl
  | case2 p q r => exact encode_of_decodeLast h
  | case3 => cases h
  | case4 p q r s rest hs ih =>
      obtain ⟨group, hgroup, h⟩ := Option.bind_eq_some_iff.1 h
      obtain ⟨last, hlast, h⟩ := Option.bind_eq_some_iff.1 h
      obtain rfl := Option.some.inj h
      rw [encode_of_decodeGroup hgroup, ih hlast]
  | case5 => cases h

/-- **One text for each list of bytes.** -/
theorem decode_eq_some_iff {cs : List Char} {bs : List UInt8} :
    decode cs = some bs ↔ cs = encode bs := by
  constructor
  · exact fun h => (encode_of_decode h).symm
  · rintro rfl
    exact decode_encode bs

/-- A text consists of digits and padding. -/
theorem mem_of_mem_encode {bs : List UInt8} {c : Char} (h : c ∈ encode bs) :
    c = padding ∨ c ∈ alphabet := by
  have hdigit : ∀ {n : Nat}, n < 64 → c = digit n → c = padding ∨ c ∈ alphabet := by
    rintro n hn rfl
    exact Or.inr (digit_mem hn)
  fun_induction encode bs with
  | case1 => cases h
  | case2 a =>
      have ha := a.toNat_lt
      simp only [List.mem_cons, List.not_mem_nil, or_false] at h
      rcases h with h | h | h | h
      · exact hdigit (by omega) h
      · exact hdigit (by omega) h
      · exact Or.inl h
      · exact Or.inl h
  | case3 a b n =>
      have ha := a.toNat_lt
      have hb := b.toNat_lt
      simp only [List.mem_cons, List.not_mem_nil, or_false] at h
      rcases h with h | h | h | h
      · exact hdigit (by omega) h
      · exact hdigit (by omega) h
      · exact hdigit (by omega) h
      · exact Or.inl h
  | case4 a b c' rest n ih =>
      have ha := a.toNat_lt
      have hb := b.toNat_lt
      have hc := c'.toNat_lt
      simp only [List.mem_cons] at h
      rcases h with h | h | h | h | h
      · exact hdigit (by omega) h
      · exact hdigit (by omega) h
      · exact hdigit (by omega) h
      · exact hdigit (by omega) h
      · exact ih h

end Elrond.Lib.Base64
