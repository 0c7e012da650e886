import Mathlib.Data.Nat.Count
import Mathlib.Tactic

/-!
# Shares of a cycle

A list of shares divides the numbers below its total among its keys: each key owns as many
consecutive numbers as its share says. Over one cycle every key comes up as often as its share
(`count_owner`), and a window of the length of the cycle may start anywhere (`count_window`). The
last key owns only the last numbers (`total_le_of_owner_last`).
-/

set_option autoImplicit false

namespace Elrond.Lib.Shares

universe u

variable {K : Type u}

/-- The length of the cycle. -/
def total (shares : List (K × Nat)) : Nat := (shares.map Prod.snd).sum

/-- The key that owns a number, if the number is below the total. -/
def owner : List (K × Nat) → Nat → Option K
  | [], _ => none
  | (k, w) :: rest, t => if t < w then some k else owner rest (t - w)

@[simp] theorem total_nil : total ([] : List (K × Nat)) = 0 := rfl

@[simp] theorem total_cons (k : K) (w : Nat) (rest : List (K × Nat)) :
    total ((k, w) :: rest) = w + total rest := rfl

theorem total_append (xs ys : List (K × Nat)) : total (xs ++ ys) = total xs + total ys := by
  simp [total]

/-- Every number below the total has an owner, and only keys own numbers. -/
theorem exists_owner {shares : List (K × Nat)} {t : Nat} (h : t < total shares) :
    ∃ k, owner shares t = some k := by
  induction shares generalizing t with
  | nil => exact absurd h (Nat.not_lt_zero t)
  | cons s rest ih =>
      obtain ⟨k, w⟩ := s
      rw [total_cons] at h
      by_cases ht : t < w
      · exact ⟨k, by rw [owner, if_pos ht]⟩
      · rw [owner, if_neg ht]
        exact ih (by omega)

theorem mem_keys_of_owner {shares : List (K × Nat)} {t : Nat} {k : K}
    (h : owner shares t = some k) : k ∈ shares.map Prod.fst := by
  induction shares generalizing t with
  | nil => cases h
  | cons s rest ih =>
      obtain ⟨k', w⟩ := s
      rw [owner] at h
      split at h
      · obtain rfl := Option.some.inj h
        exact List.mem_cons_self
      · exact List.mem_cons_of_mem _ (ih h)

/-- Numbers below the total of a first part belong to that part. -/
theorem owner_append {xs ys : List (K × Nat)} {t : Nat} (h : t < total xs) :
    owner (xs ++ ys) t = owner xs t := by
  induction xs generalizing t with
  | nil => exact absurd h (Nat.not_lt_zero t)
  | cons s xs ih =>
      obtain ⟨k, w⟩ := s
      rw [total_cons] at h
      rw [List.cons_append, owner, owner]
      split
      · rfl
      · exact ih (by omega)

/-- The last key owns no number that an earlier key could own. -/
theorem total_le_of_owner_last {shares : List (K × Nat)} {k : K} {w t : Nat}
    (hnodup : ((shares ++ [(k, w)]).map Prod.fst).Nodup)
    (h : owner (shares ++ [(k, w)]) t = some k) : total shares ≤ t := by
  by_contra hlt
  rw [owner_append (Nat.not_le.1 hlt)] at h
  rw [List.map_append, List.nodup_append] at hnodup
  exact hnodup.2.2 k (mem_keys_of_owner h) k List.mem_cons_self rfl

section Count

variable [DecidableEq K]

theorem count_owner_of_notMem {shares : List (K × Nat)} {k : K} (h : k ∉ shares.map Prod.fst)
    (n : Nat) : Nat.count (fun t => owner shares t = some k) n = 0 := by
  apply Nat.count_iff_forall_not.2
  intro t _ ht
  exact h (mem_keys_of_owner ht)

/-- Over one cycle every key comes up as often as its share says. -/
theorem count_owner {shares : List (K × Nat)} (hnodup : (shares.map Prod.fst).Nodup) {k : K}
    {w : Nat} (h : (k, w) ∈ shares) :
    Nat.count (fun t => owner shares t = some k) (total shares) = w := by
  induction shares with
  | nil => cases h
  | cons s rest ih =>
      obtain ⟨k', w'⟩ := s
      rw [List.map_cons, List.nodup_cons] at hnodup
      -- The numbers below the first share, and the cycle of the rest.
      have htail : Nat.count (fun t => owner ((k', w') :: rest) (w' + t) = some k) (total rest) =
          Nat.count (fun t => owner rest t = some k) (total rest) := by
        have hshift : ∀ t, owner ((k', w') :: rest) (w' + t) = owner rest t := by
          intro t
          rw [owner, if_neg (by omega), Nat.add_sub_cancel_left]
        simp only [hshift]
      rw [total_cons, Nat.count_add, htail]
      rcases List.mem_cons.1 h with heq | hrest
      · obtain ⟨rfl, rfl⟩ := Prod.mk.inj heq
        have hhead : Nat.count (fun t => owner ((k, w) :: rest) t = some k) w = w := by
          apply Nat.count_iff_forall.2
          intro t ht
          rw [owner, if_pos ht]
        rw [hhead, count_owner_of_notMem hnodup.1, Nat.add_zero]
      · have hne : k' ≠ k := by
          rintro rfl
          have hmem : k' ∈ rest.map Prod.fst := List.mem_map_of_mem hrest
          exact hnodup.1 hmem
        have hhead : Nat.count (fun t => owner ((k', w') :: rest) t = some k) w' = 0 := by
          apply Nat.count_iff_forall_not.2
          intro t ht hown
          rw [owner, if_pos ht] at hown
          exact hne (Option.some.inj hown)
        rw [hhead, Nat.zero_add]
        exact ih hnodup.2 hrest

end Count

theorem count_congr {p q : Nat → Prop} [DecidablePred p] [DecidablePred q] {n : Nat}
    (h : ∀ j < n, p j ↔ q j) : Nat.count p n = Nat.count q n := by
  apply le_antisymm
  · exact Nat.count_mono_left fun j hj => (h j hj).1
  · exact Nat.count_mono_left fun j hj => (h j hj).2

/-- A window as long as the period may start anywhere. -/
theorem count_window (p : Nat → Prop) [DecidablePred p] (start n : Nat) :
    Nat.count (fun j => p ((start + j) % n)) n = Nat.count p n := by
  have hperiod : Nat.count (fun j => p ((j + n) % n)) start =
      Nat.count (fun j => p (j % n)) start := by
    simp only [Nat.add_mod_right]
  have hsplit := Nat.count_add (fun j => p (j % n)) start n
  have hsplit' := Nat.count_add' (fun j => p (j % n)) start n
  have hcycle : Nat.count (fun j => p (j % n)) n = Nat.count p n := by
    apply count_congr
    intro j hj
    rw [Nat.mod_eq_of_lt hj]
  omega

/-- Counting over a list of successive values. -/
theorem count_map_range {α : Type u} [BEq α] [LawfulBEq α] [DecidableEq α] (f : Nat → α) (a : α)
    (n : Nat) :
    ((List.range n).map f).count a = Nat.count (fun j => f j = a) n := by
  induction n with
  | zero => rfl
  | succ n ih =>
      rw [List.range_succ, List.map_append, List.count_append, ih, Nat.count_succ]
      congr 1
      by_cases h : f n = a
      · simp [h]
      · simp [h]

end Elrond.Lib.Shares
