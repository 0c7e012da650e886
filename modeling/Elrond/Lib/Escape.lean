import Mathlib.Data.List.Basic
import Mathlib.Tactic

/-!
# Escapes of two digits

Texts in which a mark with two digits behind it stands for a value, and every other character for a
value of its own. The mark is no digit, so no two escapes overlap, and a text can be read in two
ways: from left to right (`decode`), and position by position, where each escape counts wherever it
stands (`valueAt`). Both read the same (`decode_eq`), and what is written value by value is read back
(`decode_flatMap`).
-/

set_option autoImplicit false

namespace Elrond.Lib.Escape

/-- A mark, what two digits behind it stand for, and what a character stands for otherwise. -/
structure Coding (α β : Type) where
  mark : α
  code : α → α → Option β
  plain : α → β
  code_mark_left : ∀ l, code mark l = none
  code_mark_right : ∀ h, code h mark = none

namespace Coding

variable {α β : Type} [DecidableEq α] (S : Coding α β)

/-- The value of the escape that stands at a position. -/
def escapeAt (cs : List α) (i : Nat) : Option β :=
  if cs[i]? = some S.mark then do
    let h ← cs[i + 1]?
    let l ← cs[i + 2]?
    S.code h l
  else none

/-- The position is that of a digit of an escape. -/
def isDigit (cs : List α) : Nat → Bool
  | 0 => false
  | 1 => (S.escapeAt cs 0).isSome
  | i + 2 => (S.escapeAt cs (i + 1)).isSome || (S.escapeAt cs i).isSome

/-- What a position adds to the values: the value of the escape that starts there, nothing for the
digits of one, and for any other character its own. -/
def valueAt (cs : List α) (i : Nat) : Option β :=
  if S.isDigit cs i then none else (S.escapeAt cs i).or (cs[i]?.map S.plain)

/-- The values of a text, from left to right. -/
def decode : List α → List β
  | [] => []
  | c :: cs =>
      match S.escapeAt (c :: cs) 0 with
      | some x => x :: decode (cs.drop 2)
      | none => S.plain c :: decode cs
termination_by cs => cs.length
decreasing_by
  · simp only [List.length_drop, List.length_cons]
    omega
  · simp

/-! ## Escapes -/

theorem escapeAt_eq_some {cs : List α} {i : Nat} {x : β} :
    S.escapeAt cs i = some x ↔
      cs[i]? = some S.mark ∧
        ∃ h l, cs[i + 1]? = some h ∧ cs[i + 2]? = some l ∧ S.code h l = some x := by
  rw [escapeAt]
  by_cases hmark : cs[i]? = some S.mark
  · simp [hmark, Option.bind_eq_some_iff]
  · simp [hmark]

theorem escapeAt_of_mark {cs : List α} {i : Nat} {h l : α} (hmark : cs[i]? = some S.mark)
    (hh : cs[i + 1]? = some h) (hl : cs[i + 2]? = some l) : S.escapeAt cs i = S.code h l := by
  rw [escapeAt, if_pos hmark, hh, hl]
  rfl

theorem escapeAt_eq_none_of_ne {cs : List α} {i : Nat} {c : α} (hc : cs[i]? = some c)
    (h : c ≠ S.mark) : S.escapeAt cs i = none :=
  if_neg fun heq => h (Option.some.inj (hc.symm.trans heq))

/-- An escape does not depend on what stands before it. -/
theorem escapeAt_drop (cs : List α) (i : Nat) : S.escapeAt (cs.drop i) 0 = S.escapeAt cs i := by
  simp only [escapeAt, List.getElem?_drop, Nat.add_zero]

/-- An escape ends within the text. -/
theorem escapeAt_lt {cs : List α} {i : Nat} {x : β} (h : S.escapeAt cs i = some x) :
    i + 2 < cs.length := by
  obtain ⟨-, h, l, -, hl, -⟩ := S.escapeAt_eq_some.1 h
  exact (List.getElem?_eq_some_iff.1 hl).1

theorem escapeAt_eq_none_of_le {cs : List α} {i : Nat} (h : cs.length ≤ i + 2) :
    S.escapeAt cs i = none := by
  cases hesc : S.escapeAt cs i with
  | none => rfl
  | some x => exact absurd (S.escapeAt_lt hesc) (Nat.not_lt.2 h)

theorem isDigit_iff {cs : List α} {i : Nat} :
    S.isDigit cs i = true ↔
      ∃ j x, (i = j + 1 ∨ i = j + 2) ∧ S.escapeAt cs j = some x := by
  constructor
  · intro h
    rcases i with _ | _ | j
    · cases h
    · obtain ⟨x, hx⟩ := Option.isSome_iff_exists.1 h
      exact ⟨0, x, Or.inl rfl, hx⟩
    · rcases Bool.or_eq_true_iff.1 h with hfirst | hsecond
      · obtain ⟨x, hx⟩ := Option.isSome_iff_exists.1 hfirst
        exact ⟨j + 1, x, Or.inl rfl, hx⟩
      · obtain ⟨x, hx⟩ := Option.isSome_iff_exists.1 hsecond
        exact ⟨j, x, Or.inr rfl, hx⟩
  · rintro ⟨j, x, rfl | rfl, hx⟩
    · cases j with
      | zero => rw [isDigit, hx, Option.isSome_some]
      | succ j => rw [isDigit, hx, Option.isSome_some, Bool.true_or]
    · rw [isDigit, hx, Option.isSome_some, Bool.or_true]

/-- A character that is no digit of the coding is none of an escape. -/
theorem isDigit_eq_false {cs : List α} {i : Nat} {c : α} (hc : cs[i]? = some c)
    (hleft : ∀ l, S.code c l = none) (hright : ∀ h, S.code h c = none) :
    S.isDigit cs i = false := by
  rw [Bool.eq_false_iff]
  intro hdigit
  obtain ⟨j, x, hplace, hx⟩ := S.isDigit_iff.1 hdigit
  obtain ⟨-, h, l, hh, hl, hcode⟩ := S.escapeAt_eq_some.1 hx
  rcases hplace with rfl | rfl
  · obtain rfl := Option.some.inj (hh.symm.trans hc)
    rw [hleft] at hcode
    cases hcode
  · obtain rfl := Option.some.inj (hl.symm.trans hc)
    rw [hright] at hcode
    cases hcode

/-- Behind a position that is no digit and starts no escape stands no digit. -/
theorem isDigit_succ {cs : List α} {i : Nat} (hi : S.isDigit cs i = false)
    (h : S.escapeAt cs i = none) : S.isDigit cs (i + 1) = false := by
  rw [Bool.eq_false_iff] at hi ⊢
  intro hdigit
  obtain ⟨j, x, hplace, hx⟩ := S.isDigit_iff.1 hdigit
  rcases hplace with hj | hj
  · obtain rfl : i = j := Nat.succ.inj hj
    rw [h] at hx
    cases hx
  · obtain rfl : i = j + 1 := Nat.succ.inj hj
    exact hi (S.isDigit_iff.2 ⟨j, x, Or.inl rfl, hx⟩)

/-- No escape overlaps another one. -/
theorem isDigit_behind_escape {cs : List α} {i : Nat} {x : β} (h : S.escapeAt cs i = some x) :
    S.isDigit cs (i + 3) = false := by
  obtain ⟨-, a, b, ha, hb, hcode⟩ := S.escapeAt_eq_some.1 h
  rw [Bool.eq_false_iff]
  intro hdigit
  obtain ⟨j, y, hplace, hy⟩ := S.isDigit_iff.1 hdigit
  have hmark := (S.escapeAt_eq_some.1 hy).1
  rcases hplace with hj | hj
  · obtain rfl : i + 2 = j := Nat.succ.inj hj
    obtain rfl := Option.some.inj (hb.symm.trans hmark)
    rw [S.code_mark_right] at hcode
    cases hcode
  · obtain rfl : i + 1 = j := Nat.succ.inj (Nat.succ.inj hj)
    obtain rfl := Option.some.inj (ha.symm.trans hmark)
    rw [S.code_mark_left] at hcode
    cases hcode

theorem isDigit_mark {cs : List α} {i : Nat} (h : cs[i]? = some S.mark) :
    S.isDigit cs i = false :=
  S.isDigit_eq_false h S.code_mark_left S.code_mark_right

/-- Every escape counts, wherever it stands. -/
theorem valueAt_of_escape {cs : List α} {i : Nat} {x : β} (h : S.escapeAt cs i = some x) :
    S.valueAt cs i = some x := by
  have hdigit := S.isDigit_mark (S.escapeAt_eq_some.1 h).1
  rw [valueAt, hdigit, h]
  rfl

/-- A mark without two digits behind it stands for itself. -/
theorem valueAt_of_mark {cs : List α} {i : Nat} (hmark : cs[i]? = some S.mark)
    (h : S.escapeAt cs i = none) : S.valueAt cs i = some (S.plain S.mark) := by
  rw [valueAt, S.isDigit_mark hmark, h, hmark]
  rfl

/-! ## Decoding -/

theorem decode_nil : S.decode [] = [] := by
  rw [decode]

theorem decode_escape {cs : List α} {i : Nat} {x : β} (h : S.escapeAt cs i = some x) :
    S.decode (cs.drop i) = x :: S.decode (cs.drop (i + 3)) := by
  have hlt : i < cs.length := List.getElem?_eq_some_iff.1 (S.escapeAt_eq_some.1 h).1 |>.1
  rw [← S.escapeAt_drop] at h
  rw [List.drop_eq_getElem_cons hlt] at h ⊢
  rw [decode, h, List.drop_drop]

theorem decode_plain {cs : List α} {i : Nat} {c : α} (hc : cs[i]? = some c)
    (h : S.escapeAt cs i = none) :
    S.decode (cs.drop i) = S.plain c :: S.decode (cs.drop (i + 1)) := by
  obtain ⟨hlt, rfl⟩ := List.getElem?_eq_some_iff.1 hc
  rw [← S.escapeAt_drop] at h
  rw [List.drop_eq_getElem_cons hlt] at h ⊢
  rw [decode, h]

/-- From a position that is none of an escape's digits on, reading from left to right adds what each
position adds. -/
theorem decode_drop {cs : List α} {i : Nat} (hi : S.isDigit cs i = false) :
    S.decode (cs.drop i) = (List.range' i (cs.length - i)).filterMap (S.valueAt cs) := by
  induction hn : cs.length - i using Nat.strong_induction_on generalizing i with
  | _ n ih =>
      cases hc : cs[i]? with
      | none =>
          have hlen := List.getElem?_eq_none_iff.1 hc
          obtain rfl : n = 0 := by omega
          rw [List.drop_eq_nil_of_le hlen, decode_nil]
          rfl
      | some c =>
          have hlt := (List.getElem?_eq_some_iff.1 hc).1
          cases hesc : S.escapeAt cs i with
          | some x =>
              have hroom := S.escapeAt_lt hesc
              obtain ⟨n, rfl⟩ : ∃ m, n = m + 3 := ⟨n - 3, by omega⟩
              -- the two digits add nothing
              have hfirst : S.valueAt cs (i + 1) = none :=
                if_pos (S.isDigit_iff.2 ⟨i, x, Or.inl rfl, hesc⟩)
              have hsecond : S.valueAt cs (i + 1 + 1) = none :=
                if_pos (S.isDigit_iff.2 ⟨i, x, Or.inr rfl, hesc⟩)
              have hrest := ih n (by omega) (S.isDigit_behind_escape hesc) (by omega)
              rw [S.decode_escape hesc, hrest]
              rw [List.range'_succ, List.range'_succ, List.range'_succ]
              rw [List.filterMap_cons_some (S.valueAt_of_escape hesc),
                List.filterMap_cons_none hfirst, List.filterMap_cons_none hsecond]
          | none =>
              obtain ⟨n, rfl⟩ : ∃ m, n = m + 1 := ⟨n - 1, by omega⟩
              have hvalue : S.valueAt cs i = some (S.plain c) := by
                rw [valueAt, hi, hesc, hc]
                rfl
              have hrest := ih n (by omega) (S.isDigit_succ hi hesc) (by omega)
              rw [S.decode_plain hc hesc, hrest, List.range'_succ, List.filterMap_cons_some hvalue]

/-- Reading from left to right adds what each position adds. -/
theorem decode_eq (cs : List α) : S.decode cs = (List.range cs.length).filterMap (S.valueAt cs) := by
  rw [List.range_eq_range']
  exact S.decode_drop (i := 0) rfl

/-! ## Encoding -/

/-- The text is one way to write the value. -/
inductive Spells : List α → β → Prop
  | plain (c : α) (hmark : c ≠ S.mark) : Spells [c] (S.plain c)
  | escape (h l : α) (x : β) (hcode : S.code h l = some x) : Spells [S.mark, h, l] x

variable {S}

/-- A written value is read back, and reading goes on behind it. -/
theorem Spells.decode_append {text : List α} {x : β} (h : S.Spells text x) (rest : List α) :
    S.decode (text ++ rest) = x :: S.decode rest := by
  cases h with
  | plain c hmark =>
      have hesc : S.escapeAt (c :: rest) 0 = none := S.escapeAt_eq_none_of_ne rfl hmark
      exact S.decode_plain (i := 0) rfl hesc
  | escape h l x hcode =>
      have hesc : S.escapeAt (S.mark :: h :: l :: rest) 0 = some x :=
        (S.escapeAt_of_mark rfl rfl rfl).trans hcode
      exact S.decode_escape hesc

/-- What is written value by value is read back. -/
theorem decode_flatMap {write : β → List α} (h : ∀ x, S.Spells (write x) x) (xs : List β) :
    S.decode (xs.flatMap write) = xs := by
  induction xs with
  | nil => exact S.decode_nil
  | cons x xs ih => rw [List.flatMap_cons, (h x).decode_append, ih]

end Coding

end Elrond.Lib.Escape
