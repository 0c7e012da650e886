import Mathlib.Data.List.Basic
import Mathlib.Tactic

/-!
# Making room from the front

A list of weighted elements is made to fit a room by dropping elements from its front (`shed`).
What is left fits, and the last element dropped would not have fitted with it.

If some of the elements do not count in the end, since they are replaced by what the room is made
for, dropping may go on for too long. `ShedMinimal` states that no other element is dropped without
need, and `shedMinimal_iff` when this is so: at no other element do the rest without the replaced
ones fit and the rest with them not.
-/

set_option autoImplicit false

namespace Elrond.Lib

universe u

variable {α : Type u}

/-- The weight of a list. -/
def totalWeight (weight : α → Nat) (xs : List α) : Nat := (xs.map weight).sum

/-- Drop elements from the front until the rest fits: what is dropped and what is left. -/
def shed (weight : α → Nat) (room : Nat) : List α → List α × List α
  | [] => ([], [])
  | x :: xs =>
      if room < totalWeight weight (x :: xs) then
        (x :: (shed weight room xs).1, (shed weight room xs).2)
      else ([], x :: xs)

section

variable {weight : α → Nat} {room : Nat} {xs : List α}

@[simp] theorem totalWeight_nil : totalWeight weight [] = 0 := rfl

@[simp] theorem totalWeight_cons (x : α) (xs : List α) :
    totalWeight weight (x :: xs) = weight x + totalWeight weight xs := by
  simp [totalWeight]

@[simp] theorem totalWeight_append (xs ys : List α) :
    totalWeight weight (xs ++ ys) = totalWeight weight xs + totalWeight weight ys := by
  simp [totalWeight]

theorem totalWeight_le_of_sublist {ys : List α} (h : xs.Sublist ys) :
    totalWeight weight xs ≤ totalWeight weight ys :=
  (h.map weight).sum_le_sum (fun _ _ => Nat.zero_le _)

theorem shed_append (weight : α → Nat) (room : Nat) (xs : List α) :
    (shed weight room xs).1 ++ (shed weight room xs).2 = xs := by
  induction xs with
  | nil => rfl
  | cons x xs ih =>
      rw [shed]
      split
      · exact congrArg (x :: ·) ih
      · rfl

/-- What is left fits. -/
theorem totalWeight_shed_le (weight : α → Nat) (room : Nat) (xs : List α) :
    totalWeight weight (shed weight room xs).2 ≤ room := by
  induction xs with
  | nil => exact Nat.zero_le room
  | cons x xs ih =>
      rw [shed]
      split
      · exact ih
      · next hfits => exact Nat.le_of_not_lt hfits

/-- Nothing is dropped from a list that fits. -/
theorem shed_of_le (h : totalWeight weight xs ≤ room) : shed weight room xs = ([], xs) := by
  cases xs with
  | nil => rfl
  | cons x xs => exact if_neg (Nat.not_lt.2 h)

/-- An element goes exactly if it does not fit with all that come after it; then everything before
it goes. -/
theorem shed_split (weight : α → Nat) (room : Nat) (before : List α) (x : α) (after : List α) :
    shed weight room (before ++ x :: after) =
        (before ++ x :: (shed weight room after).1, (shed weight room after).2) ∧
        room < totalWeight weight (x :: after) ∨
      (∃ front, (shed weight room (before ++ x :: after)).2 = front ++ x :: after) ∧
        totalWeight weight (x :: after) ≤ room := by
  by_cases hfits : totalWeight weight (x :: after) ≤ room
  · refine Or.inr ⟨?_, hfits⟩
    induction before with
    | nil =>
        rw [List.nil_append, shed_of_le hfits]
        exact ⟨[], rfl⟩
    | cons y before ih =>
        rw [List.cons_append, shed]
        split
        · exact ih
        · exact ⟨y :: before, rfl⟩
  · have hroom := Nat.lt_of_not_le hfits
    refine Or.inl ⟨?_, hroom⟩
    induction before with
    | nil =>
        rw [List.nil_append, shed, if_pos hroom]
        rfl
    | cons y before ih =>
        have hmore : room < totalWeight weight (y :: (before ++ x :: after)) := by
          simp only [totalWeight_cons, totalWeight_append] at hroom ⊢
          omega
        rw [List.cons_append, shed, if_pos hmore, ih]
        rfl

/-- An element is left exactly if it fits with all that come after it. -/
theorem mem_shed_iff {x : α} : x ∈ (shed weight room xs).2 ↔
    ∃ before after, xs = before ++ x :: after ∧ totalWeight weight (x :: after) ≤ room := by
  constructor
  · intro h
    obtain ⟨front, after, hleft⟩ := List.append_of_mem h
    refine ⟨(shed weight room xs).1 ++ front, after, ?_, ?_⟩
    · rw [List.append_assoc, ← hleft, shed_append]
    · have hle := totalWeight_shed_le weight room xs
      rw [hleft, totalWeight_append] at hle
      omega
  · rintro ⟨before, after, rfl, hfits⟩
    rcases shed_split weight room before x after with ⟨-, hroom⟩ | ⟨⟨front, hleft⟩, -⟩
    · omega
    · rw [hleft]
      exact List.mem_append_right front List.mem_cons_self

end

/-! ## Elements that are replaced -/

/-- The elements that are not replaced. -/
def others (replaced : α → Bool) (xs : List α) : List α := xs.filter fun x => !replaced x

/-- No other element of `xs` is dropped without need: none if the others fit, and else the last one
dropped does not fit with those left. -/
structure ShedMinimal (weight : α → Nat) (room : Nat) (replaced : α → Bool)
    (xs gone left : List α) : Prop where
  noNeed : totalWeight weight (others replaced xs) ≤ room → others replaced gone = []
  needed : room < totalWeight weight (others replaced xs) →
    ∃ x, (others replaced gone).getLast? = some x ∧
      room < weight x + totalWeight weight (others replaced left)

section

variable {weight : α → Nat} {room : Nat} {replaced : α → Bool} {xs : List α}

theorem others_append (xs ys : List α) :
    others replaced (xs ++ ys) = others replaced xs ++ others replaced ys :=
  List.filter_append xs ys

theorem others_cons {x : α} (h : replaced x = false) (xs : List α) :
    others replaced (x :: xs) = x :: others replaced xs :=
  List.filter_cons_of_pos (by simp [h])

/-- After the last of the others come only elements that are replaced. -/
theorem getLast?_others {x : α} (h : (others replaced xs).getLast? = some x) :
    ∃ front rest, xs = front ++ x :: rest ∧ replaced x = false ∧ others replaced rest = [] := by
  obtain ⟨init, hinit⟩ := List.getLast?_eq_some_iff.1 h
  obtain ⟨front, back, rfl, -, hback⟩ := List.filter_eq_append_iff.1 hinit
  obtain ⟨skipped, rest, rfl, -, hkeep, hrest⟩ := List.filter_eq_cons_iff.1 hback
  refine ⟨front ++ skipped, rest, ?_, ?_, hrest⟩
  · rw [List.append_assoc]
  · simpa using hkeep

/-- Minimality is about the last element dropped. -/
theorem shedMinimal_iff_last :
    ShedMinimal weight room replaced xs (shed weight room xs).1 (shed weight room xs).2 ↔
      ∀ x, (others replaced (shed weight room xs).1).getLast? = some x →
        room < weight x + totalWeight weight (others replaced (shed weight room xs).2) := by
  have happend : others replaced xs =
      others replaced (shed weight room xs).1 ++ others replaced (shed weight room xs).2 := by
    rw [← others_append, shed_append]
  have hleft : totalWeight weight (others replaced (shed weight room xs).2) ≤ room :=
    (totalWeight_le_of_sublist List.filter_sublist).trans (totalWeight_shed_le weight room xs)
  constructor
  · intro h x hx
    by_cases hfits : totalWeight weight (others replaced xs) ≤ room
    · rw [h.noNeed hfits] at hx
      cases hx
    · obtain ⟨y, hy, hroom⟩ := h.needed (Nat.lt_of_not_le hfits)
      rw [hx] at hy
      obtain rfl := Option.some.inj hy
      exact hroom
  · intro h
    constructor
    · intro hfits
      by_contra hne
      obtain ⟨x, hx⟩ := Option.isSome_iff_exists.1 (List.getLast?_isSome.2 hne)
      obtain ⟨init, hinit⟩ := List.getLast?_eq_some_iff.1 hx
      have hroom := h x hx
      rw [happend, hinit] at hfits
      simp only [totalWeight_append, totalWeight_cons, totalWeight_nil] at hfits
      omega
    · intro hroom
      have hne : others replaced (shed weight room xs).1 ≠ [] := by
        intro hnil
        rw [happend, hnil, List.nil_append] at hroom
        omega
      obtain ⟨x, hx⟩ := Option.isSome_iff_exists.1 (List.getLast?_isSome.2 hne)
      exact ⟨x, hx, h x hx⟩

/-- Elements are dropped without need exactly if some other element fits with the others after it,
but not with all that come after it. -/
theorem shedMinimal_iff (weight : α → Nat) (room : Nat) (replaced : α → Bool) (xs : List α) :
    ShedMinimal weight room replaced xs (shed weight room xs).1 (shed weight room xs).2 ↔
      ∀ before x after, xs = before ++ x :: after → replaced x = false →
        totalWeight weight (others replaced (x :: after)) ≤ room →
          totalWeight weight (x :: after) ≤ room := by
  rw [shedMinimal_iff_last]
  constructor
  · intro h before x after hxs hx hfits
    by_contra hroom
    rcases shed_split weight room before x after with ⟨hshed, -⟩ | ⟨-, hle⟩
    swap
    · exact hroom hle
    -- `x` is dropped, and the last one dropped has no more after it than `x` has
    rw [hxs, hshed] at h
    dsimp only at h
    have hgone : others replaced (before ++ x :: (shed weight room after).1) =
        others replaced before ++ x :: others replaced (shed weight room after).1 := by
      rw [others_append, others_cons hx]
    have hafter : others replaced after = others replaced (shed weight room after).1 ++
        others replaced (shed weight room after).2 := by
      rw [← others_append, shed_append]
    rw [others_cons hx, hafter] at hfits
    simp only [totalWeight_cons, totalWeight_append] at hfits
    rcases List.eq_nil_or_concat (others replaced (shed weight room after).1) with
      hnil | ⟨init, last, hlast⟩
    · have hlater := h x (by rw [hgone, hnil]; simp)
      omega
    · have hlater := h last (by
        rw [hgone, hlast, List.concat_eq_append, ← List.cons_append, ← List.append_assoc,
          List.getLast?_concat])
      rw [hlast] at hfits
      simp only [List.concat_eq_append, totalWeight_append, totalWeight_cons,
        totalWeight_nil] at hfits
      omega
  · intro h x hx
    by_contra hroom
    obtain ⟨front, rest, hgone, hx', hrest⟩ := getLast?_others hx
    have hsplit : xs = front ++ x :: (rest ++ (shed weight room xs).2) := by
      calc xs = (shed weight room xs).1 ++ (shed weight room xs).2 :=
            (shed_append weight room xs).symm
        _ = (front ++ x :: rest) ++ (shed weight room xs).2 := by rw [← hgone]
        _ = front ++ x :: (rest ++ (shed weight room xs).2) := by simp
    have hothers : others replaced (x :: (rest ++ (shed weight room xs).2)) =
        x :: others replaced (shed weight room xs).2 := by
      rw [others_cons hx', others_append, hrest, List.nil_append]
    have hle := h _ x _ hsplit hx' (by rw [hothers, totalWeight_cons]; omega)
    rcases shed_split weight room front x
      (rest ++ (shed weight room xs).2) with ⟨-, hlt⟩ | ⟨⟨front', hfront⟩, -⟩
    · omega
    · rw [← hsplit] at hfront
      have hlen := congrArg List.length hfront
      simp only [List.length_append, List.length_cons] at hlen
      omega

end

end Elrond.Lib
