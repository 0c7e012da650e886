import Elrond.Lib.Fallible

/-!
# The foremost element of a list

A choice from a list takes, among the elements with a property, the first one that no other
betters. `Foremost` says so in terms of the list alone. A search from the front finds such an
element when none is better than another (`foremost_of_find?`), and so does a search through the
list sorted by the same order, because the sort is stable (`foremost_of_find?_mergeSort`). The
choice carries over to a list of partners (`Foremost.of_forall₂`) and out of a filtered list
(`Foremost.of_filter`).
-/

set_option autoImplicit false

namespace Elrond.Lib

universe u

variable {α : Type u} {β : Type u} {p : α → Prop} {better : α → α → Prop} {l : List α} {x : α}

/-- `x` has the property, is better than every earlier element that has it, and no later one that
has it is better. -/
def Foremost (p : α → Prop) (better : α → α → Prop) (l : List α) (x : α) : Prop :=
  ∃ before after, l = before ++ x :: after ∧ p x ∧ (∀ y ∈ before, p y → better x y) ∧
    ∀ y ∈ after, p y → ¬ better y x

theorem Foremost.not_none (h : Foremost p better l x) : ¬ ∀ y ∈ l, ¬ p y := by
  obtain ⟨before, after, rfl, hp, -⟩ := h
  intro hnone
  exact hnone x (List.mem_append_right before List.mem_cons_self) hp

/-- There is one foremost element at most. -/
theorem Foremost.unique {y : α} (h : Foremost p better l x) (h' : Foremost p better l y) :
    x = y := by
  obtain ⟨before, after, rfl, hx, hbefore, hafter⟩ := h
  obtain ⟨before', after', heq, hy, hbefore', hafter'⟩ := h'
  -- Either the two stand at one place, or one of them stands before the other.
  rcases List.append_eq_append_iff.1 heq with ⟨mid, rfl, hmid⟩ | ⟨mid, rfl, hmid⟩
  · cases mid with
    | nil => exact (List.cons.inj hmid).1
    | cons z mid =>
        obtain ⟨rfl, rfl⟩ := List.cons.inj hmid
        have hxy := hbefore' x (List.mem_append_right before List.mem_cons_self) hx
        have hno := hafter y (List.mem_append_right mid List.mem_cons_self) hy
        exact absurd hxy hno
  · cases mid with
    | nil => exact (List.cons.inj hmid).1.symm
    | cons z mid =>
        obtain ⟨rfl, rfl⟩ := List.cons.inj hmid
        have hyx := hbefore y (List.mem_append_right before' List.mem_cons_self) hy
        have hno := hafter' x (List.mem_append_right mid List.mem_cons_self) hx
        exact absurd hyx hno

/-- A search from the front finds the first element that has the property. -/
theorem foremost_of_find? {q : α → Bool} (h : l.find? q = some x) :
    Foremost (q · = true) (fun _ _ => False) l x := by
  obtain ⟨hq, before, after, rfl, hbefore⟩ := List.find?_eq_some_iff_append.1 h
  refine ⟨before, after, rfl, hq, ?_, ?_⟩
  · intro y hy hqy
    have hno := hbefore y hy
    rw [hqy] at hno
    exact Bool.noConfusion hno
  · intro y _ _ hfalse
    exact hfalse

/-- An element in front of the list, which the foremost one betters. -/
theorem Foremost.cons {a : α} (h : Foremost p better l x) (ha : p a → better x a) :
    Foremost p better (a :: l) x := by
  obtain ⟨before, after, rfl, hp, hbefore, hafter⟩ := h
  refine ⟨a :: before, after, rfl, hp, ?_, hafter⟩
  intro y hy hpy
  rcases List.mem_cons.1 hy with rfl | hy
  · exact ha hpy
  · exact hbefore y hy hpy

/-- A search through the sorted list finds the foremost element of the list. -/
theorem foremost_of_find?_mergeSort {le : α → α → Bool} {q : α → Bool}
    (trans : ∀ a b c, le a b → le b c → le a c) (total : ∀ a b, le a b || le b a) :
    ∀ {l : List α} {x : α}, (l.mergeSort le).find? q = some x →
      Foremost (q · = true) (fun a b => le b a = false) l x := by
  intro l
  induction l with
  | nil =>
      intro x h
      rw [List.mergeSort_nil] at h
      cases h
  | cons a l ih =>
      intro x h
      obtain ⟨front, back, hcons, hl, hfront⟩ := List.mergeSort_cons trans total a l
      have hsorted := List.pairwise_mergeSort trans total (a :: l)
      rw [hcons] at h hsorted
      rw [hl] at ih
      rw [List.find?_append] at h
      cases hfind : front.find? q with
      -- What is found before `a` is strictly better than `a`.
      | some y =>
          rw [hfind] at h
          obtain rfl := Option.some.inj h
          have hfound : (front ++ back).find? q = some y := by
            rw [List.find?_append, hfind]
            rfl
          apply (ih hfound).cons
          intro _
          simpa using hfront y (List.mem_of_find?_eq_some hfind)
      | none =>
          rw [hfind, Option.none_or] at h
          by_cases hqa : q a = true
          -- Nothing before `a` has the property, and what comes after is no better.
          · rw [List.find?_cons_of_pos hqa] at h
            obtain rfl := Option.some.inj h
            refine ⟨[], l, rfl, hqa, by simp, ?_⟩
            intro y hy hqy hbetter
            have hy' : y ∈ front ++ back := by
              rw [← hl]
              exact List.mem_mergeSort.2 hy
            rcases List.mem_append.1 hy' with hy' | hy'
            · exact absurd hqy (List.find?_eq_none.1 hfind y hy')
            · have hle := (List.pairwise_cons.1 (List.pairwise_append.1 hsorted).2.1).1 y hy'
              rw [hbetter] at hle
              exact Bool.noConfusion hle
          · rw [List.find?_cons_of_neg hqa] at h
            have hfound : (front ++ back).find? q = some x := by
              rw [List.find?_append, hfind, Option.none_or]
              exact h
            exact (ih hfound).cons fun hqz => absurd hqz hqa

/-- The foremost element of a list of partners is the partner of the foremost element. -/
theorem Foremost.of_forall₂ {R : α → β → Prop} {p' : β → Prop} {better' : β → β → Prop}
    {l' : List β} {x' : β} (hl : List.Forall₂ R l l') (hp : ∀ a b, R a b → (p a ↔ p' b))
    (hbetter : ∀ a b a' b', R a b → R a' b' → (better a a' ↔ better' b b'))
    (h : Foremost p' better' l' x') : ∃ x, R x x' ∧ Foremost p better l x := by
  obtain ⟨before', after', rfl, hx', hbefore, hafter⟩ := h
  obtain ⟨before, hbefore₂, rest, hrest, rfl⟩ :
      ∃ before, List.Forall₂ R before before' ∧ ∃ rest, List.Forall₂ R rest (x' :: after') ∧
        l = before ++ rest :=
    ⟨_, List.forall₂_take_append l before' (x' :: after') hl, _,
      List.forall₂_drop_append l before' (x' :: after') hl, (List.take_append_drop _ _).symm⟩
  obtain ⟨x, after, hx, hafter₂, rfl⟩ := List.forall₂_cons_right_iff.1 hrest
  refine ⟨x, hx, before, after, rfl, (hp x x' hx).2 hx', ?_, ?_⟩
  · intro y hy hpy
    obtain ⟨y', hy', hR⟩ := forall₂_exists_right hbefore₂ y hy
    exact (hbetter x x' y y' hx hR).2 (hbefore y' hy' ((hp y y' hR).1 hpy))
  · intro y hy hpy hyx
    obtain ⟨y', hy', hR⟩ := forall₂_exists_right hafter₂ y hy
    exact hafter y' hy' ((hp y y' hR).1 hpy) ((hbetter y y' x x' hR hx).1 hyx)

/-- The foremost element is looked for among those of a kind that all candidates are of. -/
theorem Foremost.of_filter {kind : α → Bool} (hkind : ∀ y, p y → kind y = true)
    (h : Foremost p better (l.filter kind) x) : Foremost p better l x := by
  obtain ⟨before, after, heq, hp, hbefore, hafter⟩ := h
  obtain ⟨front, back, rfl, hfront, hback⟩ := List.filter_eq_append_iff.1 heq
  obtain ⟨skipped, rest, rfl, hskipped, -, hrest⟩ := List.filter_eq_cons_iff.1 hback
  refine ⟨front ++ skipped, rest, by simp, hp, ?_, ?_⟩
  · intro y hy hpy
    rcases List.mem_append.1 hy with hy | hy
    · apply hbefore y _ hpy
      rw [← hfront]
      exact List.mem_filter.2 ⟨hy, hkind y hpy⟩
    · exact absurd (hkind y hpy) (hskipped y hy)
  · intro y hy hpy
    apply hafter y _ hpy
    rw [← hrest]
    exact List.mem_filter.2 ⟨hy, hkind y hpy⟩

/-- No candidate, if there is none among the partners of those of the kind. -/
theorem none_of_forall₂_filter {R : α → β → Prop} {kind : α → Bool} {p' : β → Prop} {l' : List β}
    (hl : List.Forall₂ R (l.filter kind) l') (hp : ∀ a b, R a b → (p a ↔ p' b))
    (hkind : ∀ y, p y → kind y = true) (h : ∀ y ∈ l', ¬ p' y) : ∀ y ∈ l, ¬ p y := by
  intro y hy hpy
  have hfilter : ∃ y ∈ l.filter kind, p y := ⟨y, List.mem_filter.2 ⟨hy, hkind y hpy⟩, hpy⟩
  obtain ⟨y', hy', hpy'⟩ := (exists_iff_of_forall₂ hl hp).1 hfilter
  exact h y' hy' hpy'

end Elrond.Lib
