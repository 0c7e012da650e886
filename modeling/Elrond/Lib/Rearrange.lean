import Mathlib.Data.List.Perm.Basic
import Elrond.Lib.Fallible

/-!
# Rearranged inputs of a fold

A list is rearranged when its elements are permuted but those with one key keep their order. If the
steps for elements with different keys commute, a fold does not see the difference
(`Rearranged.foldlM_eq`). Steps may fail: only whether a computation fails counts, and its value
when it does not (`Agree`), so two elements that are both refused commute whatever their messages.
-/

set_option autoImplicit false

namespace Elrond.Lib

universe u v

variable {α : Type u} {κ : Type v} [DecidableEq κ] {key : α → κ} {S : Type u}

/-- The second list is the first one rearranged, with the order among the elements of each key
kept. -/
structure Rearranged (key : α → κ) (xs ys : List α) : Prop where
  perm : xs.Perm ys
  order : ∀ k, xs.filter (key · = k) = ys.filter (key · = k)

/-- The first element is found behind elements with other keys only, and the rest is rearranged. -/
theorem Rearranged.cons_inv {x : α} {xs ys : List α} (h : Rearranged key (x :: xs) ys) :
    ∃ pre post, ys = pre ++ x :: post ∧ (∀ y ∈ pre, key y ≠ key x) ∧
      Rearranged key xs (pre ++ post) := by
  have hfilter := h.order (key x)
  rw [List.filter_cons_of_pos (by simp)] at hfilter
  obtain ⟨pre, post, rfl, hpre, hx, hpost⟩ := List.filter_eq_cons_iff.1 hfilter.symm
  have hother : ∀ y ∈ pre, key y ≠ key x := by
    intro y hy
    simpa using hpre y hy
  refine ⟨pre, post, rfl, hother, ?_, ?_⟩
  · exact (h.perm.trans List.perm_middle).cons_inv
  · intro k
    have hk := h.order k
    by_cases heq : key x = k
    · have hnone : pre.filter (key · = k) = [] := by
        rw [List.filter_eq_nil_iff]
        intro y hy
        simpa [← heq] using hother y hy
      simpa [List.filter_append, List.filter_cons, heq, hnone] using hk
    · simpa [List.filter_append, List.filter_cons, heq] using hk

/-- An element moves to the front over elements whose steps commute with its own. -/
theorem foldlM_move {f : S → α → Option S} {x : α} {pre : List α}
    (hcomm : ∀ y ∈ pre, ∀ s, (f s y).bind (f · x) = (f s x).bind (f · y)) (post : List α) (s : S) :
    (pre ++ x :: post).foldlM f s = (x :: (pre ++ post)).foldlM f s := by
  induction pre generalizing s with
  | nil => rfl
  | cons y pre ih =>
      have hrest := ih fun z hz => hcomm z (List.mem_cons_of_mem y hz)
      have hswap := hcomm y List.mem_cons_self s
      calc (y :: pre ++ x :: post).foldlM f s
          = (f s y).bind fun s => (x :: (pre ++ post)).foldlM f s := by
            rw [List.cons_append, List.foldlM_cons]
            exact congrArg _ (funext hrest)
        _ = ((f s y).bind (f · x)).bind fun s => (pre ++ post).foldlM f s := by
            rw [Option.bind_assoc]
            rfl
        _ = ((f s x).bind (f · y)).bind fun s => (pre ++ post).foldlM f s := by
            rw [hswap]
        _ = (x :: (y :: pre ++ post)).foldlM f s := by
            rw [Option.bind_assoc]
            rfl

/-- A fold whose steps commute for elements with different keys does not see a rearrangement. -/
theorem Rearranged.foldlM_eq {f : S → α → Option S}
    (hcomm : ∀ x y, key x ≠ key y → ∀ s, (f s x).bind (f · y) = (f s y).bind (f · x))
    {xs ys : List α} (h : Rearranged key xs ys) (s : S) : xs.foldlM f s = ys.foldlM f s := by
  induction xs generalizing ys s with
  | nil =>
      obtain rfl := List.nil_perm.1 h.perm
      rfl
  | cons x xs ih =>
      obtain ⟨pre, post, rfl, hpre, hrest⟩ := h.cons_inv
      rw [foldlM_move (fun y hy => hcomm y x (hpre y hy)) post s, List.foldlM_cons,
        List.foldlM_cons]
      exact congrArg _ (funext fun s => ih hrest s)

/-- Nor does a fold that may fail, up to the error. -/
theorem Rearranged.foldlM_toOption_eq {ε : Type u} {f : S → α → Except ε S}
    (hcomm : ∀ x y, key x ≠ key y → ∀ s, ((f s x).toOption.bind fun s => (f s y).toOption) =
      (f s y).toOption.bind fun s => (f s x).toOption)
    {xs ys : List α} (h : Rearranged key xs ys) (s : S) :
    (xs.foldlM f s).toOption = (ys.foldlM f s).toOption := by
  rw [toOption_foldlM, toOption_foldlM]
  exact h.foldlM_eq hcomm s

end Elrond.Lib
