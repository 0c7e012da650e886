import Elrond.Http.Fields

/-!
# Content codings with weights

What the members of `Accept-Encoding` mean. A member names a coding and may give it a weight behind
a semicolon, a number from 0 to 1 with at most three decimals. A coding is accepted if a member
names it with a weight above zero; if none names it, the members for `*` decide.

Weights are counted in thousandths. A weight is above zero exactly if it is well formed and has a
digit other than 0 (`weight_pos_iff`).
-/

set_option autoImplicit false

namespace Elrond.Http

open Elrond.Lib

/-! ## Weights -/

/-- A quality value, in thousandths. -/
def qvalue : List Char → Option Nat
  | ['0'] => some 0
  | '0' :: '.' :: ds =>
      if ds.length ≤ 3 ∧ ds.all Text.isAsciiDigit = true then
        some (Text.decimalValue (ds ++ List.replicate (3 - ds.length) '0'))
      else none
  | ['1'] => some 1000
  | '1' :: '.' :: ds => if ds.length ≤ 3 ∧ ds.all (· == '0') = true then some 1000 else none
  | _ => none

/-- The weight that a parameter gives, if it is one. -/
def weight (parameter : String) : Option Nat :=
  match (trimOws parameter).toList with
  | q :: '=' :: cs => if q = 'q' ∨ q = 'Q' then qvalue cs else none
  | _ => none

/-- The digits from 1 to 9. -/
def isNonzeroDigit (c : Char) : Bool := '1' ≤ c && c ≤ '9'

/-- A well-formed weight with a digit other than 0. -/
def HasWeight (parameter : String) : Prop :=
  (weight parameter).isSome = true ∧ ∃ d ∈ (trimOws parameter).toList, isNonzeroDigit d = true

theorem digitValue_pos {c : Char} (h : Text.isAsciiDigit c = true) :
    0 < Text.digitValue c ↔ isNonzeroDigit c = true := by
  simp only [Text.isAsciiDigit, Bool.and_eq_true, decide_eq_true_eq] at h
  have hlow : 48 ≤ c.toNat := h.1
  have hhigh : c.toNat ≤ 57 := h.2
  have hzero : '0'.toNat = 48 := rfl
  simp only [Text.digitValue, isNonzeroDigit, Bool.and_eq_true, decide_eq_true_eq]
  constructor
  · intro hpos
    have hone : 49 ≤ c.toNat := by omega
    exact ⟨hone, hhigh⟩
  · rintro ⟨hone, -⟩
    have hone : 49 ≤ c.toNat := hone
    omega

/-- A number that is read digit by digit is positive as soon as one digit is. -/
theorem foldl_digits_pos {ds : List Char} (h : ds.all Text.isAsciiDigit = true) (n : Nat) :
    0 < ds.foldl (fun n c => 10 * n + Text.digitValue c) n ↔
      0 < n ∨ ∃ d ∈ ds, isNonzeroDigit d = true := by
  induction ds generalizing n with
  | nil => simp
  | cons d ds ih =>
      rw [List.all_cons, Bool.and_eq_true] at h
      have hstep : 0 < 10 * n + Text.digitValue d ↔ 0 < n ∨ isNonzeroDigit d = true := by
        rw [← digitValue_pos h.1]
        omega
      rw [List.foldl_cons, ih h.2, hstep]
      simp only [List.mem_cons, exists_eq_or_imp, or_assoc]

/-- A quality value is positive exactly if it has a digit other than 0. -/
theorem qvalue_pos_iff (cs : List Char) :
    (∃ q, qvalue cs = some q ∧ 0 < q) ↔
      (qvalue cs).isSome = true ∧ ∃ d ∈ cs, isNonzeroDigit d = true := by
  have hzero : isNonzeroDigit '0' = false := by decide
  have hone : isNonzeroDigit '1' = true := by decide
  have hpoint : isNonzeroDigit '.' = false := by decide
  fun_cases qvalue cs with
  | case1 => simp [hzero]
  | case2 ds hds =>
      have hdigits : (ds ++ List.replicate (3 - ds.length) '0').all Text.isAsciiDigit = true := by
        have hzeroDigit : Text.isAsciiDigit '0' = true := by decide
        simp [hds.2, hzeroDigit]
      have hpos := foldl_digits_pos hdigits 0
      -- the zeros that fill the decimals up change nothing
      have hfill : (∃ d ∈ ds ++ List.replicate (3 - ds.length) '0', isNonzeroDigit d = true) ↔
          ∃ d ∈ ds, isNonzeroDigit d = true := by
        constructor
        · rintro ⟨d, hd, hnonzero⟩
          rcases List.mem_append.1 hd with hd | hd
          · exact ⟨d, hd, hnonzero⟩
          · rw [List.eq_of_mem_replicate hd, hzero] at hnonzero
            cases hnonzero
        · rintro ⟨d, hd, hnonzero⟩
          exact ⟨d, List.mem_append_left _ hd, hnonzero⟩
      rw [hfill] at hpos
      simpa [hzero, hpoint, Text.decimalValue] using hpos
  | case3 ds hds => simp
  | case4 => simp [hone]
  | case5 ds hds => simp [hone]
  | case6 ds hds => simp
  | case7 => simp

/-- A parameter gives a positive weight exactly if it is well formed and has a digit other than 0. -/
theorem weight_pos_iff (parameter : String) :
    (∃ q, weight parameter = some q ∧ 0 < q) ↔ HasWeight parameter := by
  have heq : isNonzeroDigit '=' = false := by decide
  rw [HasWeight, weight]
  split
  · next q cs hlist =>
    rw [hlist]
    split
    · next hq =>
      have hletter : isNonzeroDigit q = false := by
        rcases hq with rfl | rfl <;> decide
      simpa [hletter, heq] using qvalue_pos_iff cs
    · simp
  · simp

/-! ## Members -/

/-- The coding that a member names, in lower case. -/
def codingName (m : String) : String :=
  Text.toAsciiLowercase (trimOws ((Text.split ';' m).headD m))

/-- The quality of a member, in thousandths: that of its weight, and the highest one without. -/
def quality (m : String) : Option Nat :=
  match Text.split ';' m with
  | [_] => some 1000
  | [_, parameter] => weight parameter
  | _ => none

/-- A member with parameters that are not a positive weight. -/
def Refuses (m : String) : Prop :=
  ∃ name parameters, Text.split ';' m = name :: parameters ∧ parameters ≠ [] ∧
    ∀ parameter, parameters = [parameter] → ¬ HasWeight parameter

theorem quality_pos_iff (m : String) : (∃ q, quality m = some q ∧ 0 < q) ↔ ¬ Refuses m := by
  obtain ⟨name, parameters, hsplit⟩ : ∃ name parameters, Text.split ';' m = name :: parameters := by
    apply List.exists_cons_of_ne_nil
    rw [Text.split, Ne, List.map_eq_nil_iff]
    exact List.splitOn_ne_nil ';' m.toList
  have hrefuses : Refuses m ↔
      parameters ≠ [] ∧ ∀ parameter, parameters = [parameter] → ¬ HasWeight parameter := by
    constructor
    · rintro ⟨name', parameters', hsplit', h⟩
      obtain ⟨-, rfl⟩ := List.cons.inj (hsplit.symm.trans hsplit')
      exact h
    · intro h
      exact ⟨name, parameters, hsplit, h⟩
  rw [hrefuses, quality, hsplit]
  -- no parameter, one that may be a weight, or too many
  rcases parameters with _ | ⟨parameter, _ | ⟨second, rest⟩⟩
  · simp
  · simp [weight_pos_iff]
  · simp

/-- The members accept a coding: one names it with a quality above zero, or none names it and one
gives `*` a quality above zero. -/
def AcceptsCoding (coding : String) (ms : List String) : Prop :=
  (∃ m ∈ ms, codingName m = coding ∧ ∃ q, quality m = some q ∧ 0 < q) ∨
    (∀ m ∈ ms, codingName m ≠ coding) ∧
      ∃ m ∈ ms, codingName m = "*" ∧ ∃ q, quality m = some q ∧ 0 < q

/-- The members that decide about a coding: those that name it, or else those for `*`. -/
def deciding (coding : String) (ms : List String) : List String :=
  if ms.any fun m => codingName m == coding then ms.filter fun m => codingName m == coding
  else ms.filter fun m => codingName m == "*"

/-- A coding is accepted exactly if one of the deciding members does not refuse it. -/
theorem acceptsCoding_iff (coding : String) (ms : List String) :
    AcceptsCoding coding ms ↔ ∃ m ∈ deciding coding ms, ¬ Refuses m := by
  simp only [AcceptsCoding, quality_pos_iff]
  rw [deciding]
  split
  · next hnamed =>
    obtain ⟨m, hm, hname⟩ := List.any_eq_true.1 hnamed
    have hno : ¬ ∀ m ∈ ms, codingName m ≠ coding := fun h => h m hm (beq_iff_eq.1 hname)
    simp [hno, and_assoc]
  -- nothing names the coding, so the star decides
  · next hnamed =>
    have hall : ∀ m ∈ ms, codingName m ≠ coding := by simpa using hnamed
    constructor
    · rintro (⟨m, hm, hname, -⟩ | ⟨-, m, hm, hstar, h⟩)
      · exact absurd hname (hall m hm)
      · exact ⟨m, List.mem_filter.2 ⟨hm, beq_iff_eq.2 hstar⟩, h⟩
    · rintro ⟨m, hm, h⟩
      obtain ⟨hm, hstar⟩ := List.mem_filter.1 hm
      exact Or.inr ⟨hall, m, hm, beq_iff_eq.1 hstar, h⟩

end Elrond.Http
