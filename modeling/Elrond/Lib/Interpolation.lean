import Mathlib.Data.List.TakeWhile
import Mathlib.Tactic

/-!
# Variable references in a text

The usual syntax of interpolation: `$name`, with the longest non-empty run of ASCII letters, digits
and underscores, and `${name}`, up to the first closing brace. `pieces` reads a text from left to
right as references and single characters, and `substitute` puts a value in the place of every
reference and copies every other character.

A `${` without a closing brace starts no reference. `EveryBraceCloses` says that a text has none. A
text of this kind reads the same in front of a further reference, step by step
(`nextReference_append_none`, `nextReference_append_some`).
-/

set_option autoImplicit false

namespace Elrond.Lib.Interpolation

/-- The characters of a bare name. -/
def isNameChar (c : Char) : Bool := c.isAlphanum || c == '_'

/-- The complete reference at the head of a text, with what follows it. -/
def nextReference : List Char → Option (List Char × List Char)
  | '$' :: '{' :: cs =>
      match cs.dropWhile (· != '}') with
      | _ :: rest => some (cs.takeWhile (· != '}'), rest)
      | [] => none
  | '$' :: cs =>
      if cs.takeWhile isNameChar = [] then none
      else some (cs.takeWhile isNameChar, cs.dropWhile isNameChar)
  | _ => none

theorem nextReference_braced (cs : List Char) :
    nextReference ('$' :: '{' :: cs) =
      match cs.dropWhile (· != '}') with
      | _ :: rest => some (cs.takeWhile (· != '}'), rest)
      | [] => none := rfl

theorem nextReference_bare {cs : List Char} (h : cs.head? ≠ some '{') :
    nextReference ('$' :: cs) =
      if cs.takeWhile isNameChar = [] then none
      else some (cs.takeWhile isNameChar, cs.dropWhile isNameChar) := by
  rw [nextReference.eq_def]
  split
  · next heq =>
    obtain rfl := (List.cons.inj heq).2
    exact absurd rfl h
  · next heq =>
    obtain rfl := (List.cons.inj heq).2
    rfl
  · next hno =>
    exact absurd rfl (hno cs)

theorem nextReference_char {c : Char} (h : c ≠ '$') (cs : List Char) :
    nextReference (c :: cs) = none := by
  rw [nextReference.eq_def]
  split
  · next heq => exact absurd (List.cons.inj heq).1 h
  · next heq => exact absurd (List.cons.inj heq).1 h
  · rfl

/-- A reference takes the dollar sign at least. -/
theorem nextReference_length {cs name rest : List Char}
    (h : nextReference cs = some (name, rest)) : rest.length < cs.length := by
  rw [nextReference.eq_def] at h
  split at h
  · next cs =>
    split at h
    · next brace after hdrop =>
      obtain ⟨-, rfl⟩ := Prod.mk.inj (Option.some.inj h)
      -- a braced name ends at the first closing brace, which is consumed with it
      have hle := (List.dropWhile_suffix (l := cs) (· != '}')).length_le
      rw [hdrop] at hle
      simp only [List.length_cons] at hle ⊢
      omega
    · cases h
  · next cs _ =>
    split at h
    · cases h
    · obtain ⟨-, rfl⟩ := Prod.mk.inj (Option.some.inj h)
      -- a bare name is the longest one, and the dollar sign in front of it is consumed
      have hle := (List.dropWhile_suffix (l := cs) isNameChar).length_le
      simp only [List.length_cons]
      omega
  · cases h

/-- A piece of a text. -/
inductive Piece where
  | char (c : Char)
  | reference (name : List Char)
deriving DecidableEq, Repr

/-- A text from left to right: a reference where one is complete, else a character. -/
def pieces : List Char → List Piece
  | [] => []
  | c :: cs =>
      match _h : nextReference (c :: cs) with
      | some (name, rest) => .reference name :: pieces rest
      | none => .char c :: pieces cs
termination_by cs => cs.length
decreasing_by
  · exact nextReference_length _h
  · simp

/-- The text of a piece. -/
def Piece.fill (value : List Char → List Char) : Piece → List Char
  | .char c => [c]
  | .reference name => value name

/-- Every reference replaced by its value, every other character copied. -/
def substitute (value : List Char → List Char) (cs : List Char) : List Char :=
  (pieces cs).flatMap (Piece.fill value)

theorem pieces_reference {cs name rest : List Char} (h : nextReference cs = some (name, rest)) :
    pieces cs = .reference name :: pieces rest := by
  cases cs with
  | nil => cases h
  | cons c cs =>
      rw [pieces]
      split
      · next heq =>
        rw [h] at heq
        obtain ⟨rfl, rfl⟩ := Prod.mk.inj (Option.some.inj heq)
        rfl
      · next heq =>
        rw [h] at heq
        cases heq

theorem pieces_char {c : Char} {cs : List Char} (h : nextReference (c :: cs) = none) :
    pieces (c :: cs) = .char c :: pieces cs := by
  rw [pieces]
  split
  · next heq =>
    rw [h] at heq
    cases heq
  · rfl

variable (value : List Char → List Char)

@[simp] theorem substitute_nil : substitute value [] = [] := by
  simp [substitute, pieces]

theorem substitute_reference {cs name rest : List Char}
    (h : nextReference cs = some (name, rest)) :
    substitute value cs = value name ++ substitute value rest := by
  rw [substitute, pieces_reference h, List.flatMap_cons]
  rfl

theorem substitute_copied {c : Char} {cs : List Char} (h : nextReference (c :: cs) = none) :
    substitute value (c :: cs) = c :: substitute value cs := by
  rw [substitute, pieces_char h, List.flatMap_cons]
  rfl

theorem substitute_char {c : Char} (h : c ≠ '$') (cs : List Char) :
    substitute value (c :: cs) = c :: substitute value cs :=
  substitute_copied value (nextReference_char h cs)

/-! ## The two forms of a reference -/

theorem nextReference_close {name : List Char} (h : '}' ∉ name) (rest : List Char) :
    nextReference ('$' :: '{' :: (name ++ '}' :: rest)) = some (name, rest) := by
  have hall : ∀ c ∈ name, (c != '}') = true := by
    intro c hc
    rw [bne_iff_ne]
    rintro rfl
    exact h hc
  rw [nextReference_braced, List.dropWhile_append_of_pos hall, List.takeWhile_append_of_pos hall]
  simp

/-- Without a closing brace there is no reference. -/
theorem nextReference_unclosed {cs : List Char} (h : '}' ∉ cs) :
    nextReference ('$' :: '{' :: cs) = none := by
  have hdrop : cs.dropWhile (· != '}') = [] := by
    rw [List.dropWhile_eq_nil_iff]
    intro c hc
    rw [bne_iff_ne]
    rintro rfl
    exact h hc
  rw [nextReference_braced, hdrop]

theorem nextReference_name {name rest : List Char} (hne : name ≠ [])
    (hname : ∀ c ∈ name, isNameChar c = true) (hrest : ∀ c ∈ rest.head?, isNameChar c = false) :
    nextReference ('$' :: (name ++ rest)) = some (name, rest) := by
  have hdrop : rest.dropWhile isNameChar = rest ∧ rest.takeWhile isNameChar = [] := by
    cases rest with
    | nil => simp
    | cons c rest =>
        have hc : isNameChar c = false := hrest c rfl
        simp [hc]
  have hhead : (name ++ rest).head? ≠ some '{' := by
    cases name with
    | nil => exact absurd rfl hne
    | cons c name =>
        have hc := hname c List.mem_cons_self
        rintro heq
        obtain rfl : c = '{' := by simpa using heq
        exact absurd hc (by decide)
  rw [nextReference_bare hhead, List.takeWhile_append_of_pos hname,
    List.dropWhile_append_of_pos hname, hdrop.1, hdrop.2, List.append_nil, if_neg hne]

/-- A reference is of one of the two forms. -/
theorem nextReference_cases {cs name rest : List Char} (h : nextReference cs = some (name, rest)) :
    ('}' ∉ name ∧ cs = '$' :: '{' :: (name ++ '}' :: rest)) ∨
      (name ≠ [] ∧ (∀ c ∈ name, isNameChar c = true) ∧ (∀ c ∈ rest.head?, isNameChar c = false) ∧
        cs = '$' :: (name ++ rest)) := by
  rw [nextReference.eq_def] at h
  split at h
  · next cs =>
    by_cases hclose : '}' ∈ cs
    · obtain ⟨name', rest', rfl, hname'⟩ := List.eq_append_cons_of_mem hclose
      rw [← nextReference_braced, nextReference_close hname'] at h
      obtain ⟨rfl, rfl⟩ := Prod.mk.inj (Option.some.inj h)
      exact Or.inl ⟨hname', rfl⟩
    · rw [← nextReference_braced, nextReference_unclosed hclose] at h
      cases h
  · next cs _ =>
    split at h
    · cases h
    · next hne =>
      obtain ⟨rfl, rfl⟩ := Prod.mk.inj (Option.some.inj h)
      have hhead := List.head?_dropWhile_not isNameChar cs
      refine Or.inr ⟨hne, ?_, ?_, by rw [List.takeWhile_append_dropWhile]⟩
      · exact List.all_eq_true.1 List.all_takeWhile
      · intro c hc
        rw [Option.mem_def] at hc
        simpa [hc] using hhead
  · cases h

/-! ## Closed texts -/

/-- Every `${` of the text has a closing brace behind it. -/
def EveryBraceCloses (cs : List Char) : Prop :=
  ∀ before after, cs = before ++ '$' :: '{' :: after → '}' ∈ after

theorem everyBraceCloses_nil : EveryBraceCloses [] := by
  intro before after h
  simp at h

/-- A character that does not open a brace changes nothing. -/
theorem everyBraceCloses_cons {c : Char} {cs : List Char}
    (h : ¬ (c = '$' ∧ cs.head? = some '{')) :
    EveryBraceCloses (c :: cs) ↔ EveryBraceCloses cs := by
  constructor
  · rintro hcloses before after rfl
    exact hcloses (c :: before) after rfl
  · intro hcloses before after heq
    cases before with
    | nil =>
        obtain ⟨rfl, rfl⟩ := List.cons.inj heq
        exact absurd ⟨rfl, rfl⟩ h
    | cons d before => exact hcloses before after (List.cons.inj heq).2

/-- Nor does a run without a dollar sign. -/
theorem everyBraceCloses_append {a : List Char} (h : '$' ∉ a) (b : List Char) :
    EveryBraceCloses (a ++ b) ↔ EveryBraceCloses b := by
  induction a with
  | nil => exact Iff.rfl
  | cons c a ih =>
      obtain ⟨hc, ha⟩ := not_or.1 (mt List.mem_cons.2 h)
      rw [List.cons_append, everyBraceCloses_cons (fun hboth => hc hboth.1.symm), ih ha]

/-- A complete reference changes nothing either. -/
theorem everyBraceCloses_reference {cs name rest : List Char}
    (h : nextReference cs = some (name, rest)) : EveryBraceCloses cs ↔ EveryBraceCloses rest := by
  rcases nextReference_cases h with ⟨-, rfl⟩ | ⟨hne, hname, -, rfl⟩
  · constructor
    · rintro hcloses before after rfl
      exact hcloses ('$' :: '{' :: (name ++ '}' :: before)) after (by simp)
    · intro hcloses before after heq
      have hsplit : ('$' :: '{' :: name) ++ '}' :: rest = before ++ '$' :: '{' :: after := heq
      rcases List.append_eq_append_iff.1 hsplit with ⟨x, -, hrest⟩ | ⟨x, -, hafter⟩
      -- the brace opens behind the reference
      · cases x with
        | nil => exact absurd (List.cons.inj hrest).1 (by decide)
        | cons d x => exact hcloses x after (List.cons.inj hrest).2
      -- or inside of it, before its closing brace
      · have hmem : '}' ∈ '$' :: '{' :: after := by
          rw [hafter]
          simp
        simpa using hmem
  · have hdollar : '$' ∉ name := fun hmem => absurd (hname '$' hmem) (by decide)
    have hhead : (name ++ rest).head? ≠ some '{' := by
      cases name with
      | nil => exact absurd rfl hne
      | cons c name =>
          intro heq
          obtain rfl : c = '{' := by simpa using heq
          exact absurd (hname '{' List.mem_cons_self) (by decide)
    rw [everyBraceCloses_cons (fun hboth => hhead hboth.2), everyBraceCloses_append hdollar]

/-- A text is empty, starts with a copied character that opens no brace, with a reference, or with
a brace that is never closed. -/
theorem text_cases (cs : List Char) :
    cs = [] ∨
      (∃ c rest, cs = c :: rest ∧ nextReference cs = none ∧
        ¬ (c = '$' ∧ rest.head? = some '{')) ∨
      (∃ name rest, nextReference cs = some (name, rest)) ∨
      ∃ rest, cs = '$' :: '{' :: rest ∧ '}' ∉ rest := by
  cases href : nextReference cs with
  | some r => exact Or.inr (Or.inr (Or.inl ⟨r.1, r.2, rfl⟩))
  | none =>
      cases cs with
      | nil => exact Or.inl rfl
      | cons c rest =>
          -- what is left is copied: either a brace is open here, or the character stands alone
          by_cases hopen : c = '$' ∧ rest.head? = some '{'
          · obtain ⟨rfl, hhead⟩ := hopen
            obtain ⟨rest, rfl⟩ := List.head?_eq_some_iff.1 hhead
            refine Or.inr (Or.inr (Or.inr ⟨rest, rfl, ?_⟩))
            intro hclose
            obtain ⟨name, after, rfl, hname⟩ := List.eq_append_cons_of_mem hclose
            rw [nextReference_close hname] at href
            cases href
          · exact Or.inr (Or.inl ⟨c, rest, rfl, rfl, hopen⟩)

/-- Induction along a text: what stands behind a copied character or a reference is a shorter text,
and a brace that is never closed ends it. -/
@[elab_as_elim]
theorem text_induction {motive : List Char → Prop} (cs : List Char) (nil : motive [])
    (copied : ∀ c rest, nextReference (c :: rest) = none → ¬ (c = '$' ∧ rest.head? = some '{') →
      motive rest → motive (c :: rest))
    (reference : ∀ cs name rest, nextReference cs = some (name, rest) → motive rest → motive cs)
    (unclosed : ∀ rest, '}' ∉ rest → motive ('$' :: '{' :: rest)) : motive cs := by
  induction hn : cs.length using Nat.strong_induction_on generalizing cs with
  | _ n ih =>
      subst hn
      rcases text_cases cs with rfl | ⟨c, rest, rfl, hcopy, hopen⟩ | ⟨name, rest, href⟩ |
          ⟨rest, rfl, hunclosed⟩
      · exact nil
      · exact copied c rest hcopy hopen (ih rest.length (Nat.lt_succ_self _) rest rfl)
      · exact reference cs name rest href (ih rest.length (nextReference_length href) rest rfl)
      · exact unclosed rest hunclosed

/-! ## Texts in front of a reference -/

/-- A copied character stays one in front of a dollar sign. -/
theorem nextReference_append_none {c : Char} {a b : List Char}
    (h : nextReference (c :: a) = none) (hopen : ¬ (c = '$' ∧ a.head? = some '{'))
    (hb : b.head? = some '$') : nextReference (c :: (a ++ b)) = none := by
  by_cases hc : c = '$'
  · subst hc
    have hhead : a.head? ≠ some '{' := fun heq => hopen ⟨rfl, heq⟩
    rw [nextReference_bare hhead] at h
    cases a with
    | nil =>
        obtain ⟨b, rfl⟩ := List.head?_eq_some_iff.1 hb
        rfl
    | cons d a =>
        rw [nextReference_bare (by simpa using hhead)]
        -- a name character behind the dollar sign would have started a name
        have hd : isNameChar d = false := by
          by_contra hd
          rw [Bool.not_eq_false] at hd
          simp [hd] at h
        simp [hd]
  · exact nextReference_char hc _

/-- And a reference stays the same reference. -/
theorem nextReference_append_some {a b name rest : List Char}
    (h : nextReference a = some (name, rest)) (hb : b.head? = some '$') :
    nextReference (a ++ b) = some (name, rest ++ b) := by
  rcases nextReference_cases h with ⟨hname, rfl⟩ | ⟨hne, hname, hend, rfl⟩
  · rw [← nextReference_close hname (rest ++ b)]
    simp
  · rw [List.cons_append, List.append_assoc]
    apply nextReference_name hne hname
    intro c hc
    cases rest with
    | nil =>
        rw [List.nil_append, hb] at hc
        obtain rfl := Option.mem_some_iff.1 hc
        decide
    | cons d rest => exact hend c hc

/-- A reference that is read somewhere in a text is braced and shorter than the text by the dollar
sign and the braces, or it is a run of name characters. -/
theorem mem_pieces_reference {cs name : List Char} (h : .reference name ∈ pieces cs) :
    ('}' ∉ name ∧ name.length + 3 ≤ cs.length) ∨
      (name ≠ [] ∧ ∀ c ∈ name, isNameChar c = true) := by
  induction hn : cs.length using Nat.strong_induction_on generalizing cs with
  | _ n ih =>
      subst hn
      cases cs with
      | nil => simp [pieces] at h
      | cons c cs =>
          cases href : nextReference (c :: cs) with
          | none =>
              rw [pieces_char href] at h
              have hmem : .reference name ∈ pieces cs := by simpa using h
              rcases ih cs.length (by simp) hmem rfl with ⟨hname, hlen⟩ | hbare
              · exact Or.inl ⟨hname, by rw [List.length_cons]; omega⟩
              · exact Or.inr hbare
          | some r =>
              obtain ⟨name', rest⟩ := r
              have hshort := nextReference_length href
              rw [pieces_reference href] at h
              -- the reference is the first piece, or one of the text behind it
              rcases List.mem_cons.1 h with heq | hmem
              · obtain rfl := Piece.reference.inj heq
                rcases nextReference_cases href with ⟨hname, heq⟩ | ⟨hne, hname, -, -⟩
                · refine Or.inl ⟨hname, ?_⟩
                  rw [heq]
                  simp
                · exact Or.inr ⟨hne, hname⟩
              · rcases ih rest.length hshort hmem rfl with ⟨hname, hlen⟩ | hbare
                · exact Or.inl ⟨hname, by omega⟩
                · exact Or.inr hbare

end Elrond.Lib.Interpolation
