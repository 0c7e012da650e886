import Mathlib.Data.List.Basic
import Mathlib.Tactic

/-!
# Quoted strings

A text between two quotes, in which a mark before a character makes it stand for itself. The writer
marks the quote and the mark; the reader takes any marked character. What is written is read up to
its own closing quote, whatever the text was and whatever follows (`read_write`).
-/

set_option autoImplicit false

namespace Elrond.Lib.Quoted

variable {α : Type} [DecidableEq α] (quote mark : α)

/-- The text with a mark before each quote and each mark. -/
def write (cs : List α) : List α :=
  cs.flatMap fun c => if c = mark ∨ c = quote then [mark, c] else [c]

/-- The text up to the closing quote, and what is behind it. -/
def read : List α → Option (List α × List α)
  | [] => none
  | c :: cs =>
      if c = quote then some ([], cs)
      else if c = mark then
        match cs with
        | [] => none
        | d :: ds => (read ds).map fun p => (d :: p.1, p.2)
      else (read cs).map fun p => (c :: p.1, p.2)

variable {quote mark}

/-- Marking the marks, and then the quotes, marks both. -/
theorem flatMap_flatMap_eq_write (h : mark ≠ quote) (cs : List α) :
    (cs.flatMap fun c => if c = mark then [mark, mark] else [c]).flatMap
      (fun c => if c = quote then [mark, quote] else [c]) = write quote mark cs := by
  rw [List.flatMap_assoc, write]
  refine congrArg (List.flatMap · cs) (funext fun c => ?_)
  by_cases hmark : c = mark
  · rw [if_pos hmark, if_pos (Or.inl hmark), hmark]
    simp only [List.flatMap_cons, List.flatMap_nil, if_neg h]
    rfl
  · rw [if_neg hmark, List.flatMap_singleton]
    by_cases hquote : c = quote
    · rw [if_pos hquote, if_pos (Or.inr hquote), hquote]
    · rw [if_neg hquote, if_neg (not_or.2 ⟨hmark, hquote⟩)]

theorem read_quote (rest : List α) : read quote mark (quote :: rest) = some ([], rest) := by
  rw [read.eq_def]
  exact if_pos rfl

theorem read_mark (h : mark ≠ quote) (c : α) (rest : List α) :
    read quote mark (mark :: c :: rest) = (read quote mark rest).map fun p => (c :: p.1, p.2) := by
  rw [read.eq_def]
  simp only [if_neg h, if_true]

theorem read_plain {c : α} (hquote : c ≠ quote) (hmark : c ≠ mark) (rest : List α) :
    read quote mark (c :: rest) = (read quote mark rest).map fun p => (c :: p.1, p.2) := by
  rw [read.eq_def]
  simp only [if_neg hquote, if_neg hmark]

/-- A written character is read, and reading goes on behind it. -/
theorem read_cons (h : mark ≠ quote) (c : α) (cs rest : List α) :
    read quote mark (write quote mark (c :: cs) ++ rest) =
      (read quote mark (write quote mark cs ++ rest)).map fun p => (c :: p.1, p.2) := by
  rw [write, List.flatMap_cons, ← write]
  by_cases hc : c = mark ∨ c = quote
  · rw [if_pos hc]
    exact read_mark h c _
  · rw [if_neg hc]
    rw [not_or] at hc
    exact read_plain hc.2 hc.1 _

/-- **What is written is read.** -/
theorem read_write (h : mark ≠ quote) (cs rest : List α) :
    read quote mark (write quote mark cs ++ quote :: rest) = some (cs, rest) := by
  induction cs with
  | nil => exact read_quote rest
  | cons c cs ih =>
      rw [read_cons h, ih]
      rfl

end Elrond.Lib.Quoted
