import Elrond.Lib.HashMap

/-!
# Reconciling running things with a wanted table

The diff a reload makes: walk over the running items, take the wanted entry with the item's key out
of the table, and close the item if there is none; what is left in the table has to be started.

The walk pairs the first item with a key with the entry of the key (`mem_matched`) and leaves the
entries whose key no item has (`lookup_rest`). An item whose key no other item has is closed exactly
if there is no entry for it (`mem_closed`); one whose key an earlier item has finds nothing,
whatever the table held, which is the only way the outcome depends on the order.
-/

set_option autoImplicit false

namespace Elrond.Lib

universe u

variable {K V L : Type u} [DecidableEq K]

/-- The outcome of a diff: the items with the entries taken for them, the items to close, and the
entries left. -/
structure Reconciled (K V L : Type u) where
  matched : List (L × V)
  closed : List L
  rest : HashMap K V

/-- The walk over the running items. -/
def reconcile (key : L → K) : HashMap K V → List L → Reconciled K V L
  | wanted, [] => ⟨[], [], wanted⟩
  | wanted, l :: ls =>
      match wanted.lookup (key l) with
      | some v =>
          let r := reconcile key (wanted.erase (key l)) ls
          { r with matched := (l, v) :: r.matched }
      | none =>
          let r := reconcile key wanted ls
          { r with closed := l :: r.closed }

variable {key : L → K}

theorem reconcile_cons_some {wanted : HashMap K V} {l : L} {ls : List L} {v : V}
    (h : wanted.lookup (key l) = some v) :
    reconcile key wanted (l :: ls) =
      { reconcile key (wanted.erase (key l)) ls with
        matched := (l, v) :: (reconcile key (wanted.erase (key l)) ls).matched } := by
  rw [reconcile, h]

theorem reconcile_cons_none {wanted : HashMap K V} {l : L} {ls : List L}
    (h : wanted.lookup (key l) = none) :
    reconcile key wanted (l :: ls) =
      { reconcile key wanted ls with closed := l :: (reconcile key wanted ls).closed } := by
  rw [reconcile, h]

/-- The entries left are those whose key no item has. -/
theorem lookup_rest (key : L → K) (wanted : HashMap K V) (ls : List L) (k : K) :
    (reconcile key wanted ls).rest.lookup k =
      if k ∈ ls.map key then none else wanted.lookup k := by
  induction ls generalizing wanted with
  | nil => simp [reconcile]
  | cons l ls ih =>
      cases hlookup : wanted.lookup (key l) with
      | some v =>
          rw [reconcile_cons_some hlookup]
          simp only [ih, HashMap.lookup_erase_eq, List.map_cons, List.mem_cons]
          by_cases hk : k = key l
          · simp [hk]
          · simp [hk]
      | none =>
          rw [reconcile_cons_none hlookup]
          simp only [ih, List.map_cons, List.mem_cons]
          by_cases hk : k = key l
          · subst hk
            simp [hlookup]
          · simp [hk]

/-- The first item with a key is paired with the entry of the key, and no other item is. -/
theorem mem_matched {wanted : HashMap K V} {ls : List L} {l : L} {v : V} :
    (l, v) ∈ (reconcile key wanted ls).matched ↔
      ls.find? (fun x => key x = key l) = some l ∧ wanted.lookup (key l) = some v := by
  induction ls generalizing wanted with
  | nil => simp [reconcile]
  | cons x ls ih =>
      by_cases hx : key x = key l
      · rw [List.find?_cons_of_pos (by simpa using hx)]
        cases hlookup : wanted.lookup (key x) with
        | some w =>
            -- The entry is taken by `x`; nothing with this key is paired after it.
            rw [reconcile_cons_some hlookup]
            simp only [List.mem_cons, ih, HashMap.lookup_erase_eq, Prod.mk.injEq, if_pos hx.symm]
            constructor
            · rintro (⟨rfl, rfl⟩ | ⟨-, hv⟩)
              · exact ⟨rfl, hlookup⟩
              · exact absurd hv (by simp)
            · rintro ⟨heq, hv⟩
              obtain rfl := Option.some.inj heq
              exact Or.inl ⟨rfl, Option.some.inj (hv.symm.trans hlookup)⟩
        | none =>
            rw [reconcile_cons_none hlookup, ih, ← hx, hlookup]
            simp
      · rw [List.find?_cons_of_neg (by simpa using hx)]
        have hne : l ≠ x := fun h => hx (h ▸ rfl)
        cases hlookup : wanted.lookup (key x) with
        | some w =>
            rw [reconcile_cons_some hlookup]
            simp only [List.mem_cons, ih, HashMap.lookup_erase_eq, Prod.mk.injEq,
              if_neg (Ne.symm hx), hne, false_and, false_or]
        | none => rw [reconcile_cons_none hlookup, ih]

/-- An item whose key no other item has is closed exactly if there is no entry of its key. -/
theorem mem_closed {wanted : HashMap K V} {ls : List L} {l : L}
    (honce : (ls.map key).count (key l) ≤ 1) :
    l ∈ (reconcile key wanted ls).closed ↔ l ∈ ls ∧ wanted.lookup (key l) = none := by
  induction ls generalizing wanted with
  | nil => simp [reconcile]
  | cons x ls ih =>
      rw [List.map_cons, List.count_cons] at honce
      have hrest : (ls.map key).count (key l) ≤ 1 := by omega
      by_cases hx : key x = key l
      · rw [if_pos (by simpa using hx)] at honce
        have hnone : l ∉ ls := by
          intro hl
          have hpos := List.count_pos_iff.2 (List.mem_map_of_mem hl : key l ∈ ls.map key)
          omega
        cases hlookup : wanted.lookup (key x) with
        | some w =>
            rw [reconcile_cons_some hlookup]
            simp only [List.mem_cons, ih hrest, hnone, false_and, or_false]
            constructor
            · exact False.elim
            · rintro ⟨rfl, hv⟩
              exact absurd (hv.symm.trans hlookup) (by simp)
        | none =>
            rw [reconcile_cons_none hlookup]
            simp only [List.mem_cons, ih hrest, hnone, false_and, or_false]
            constructor
            · rintro rfl
              exact ⟨rfl, hlookup⟩
            · exact fun h => h.1
      · have hne : l ≠ x := fun h => hx (h ▸ rfl)
        cases hlookup : wanted.lookup (key x) with
        | some w =>
            rw [reconcile_cons_some hlookup]
            simp only [List.mem_cons, ih hrest, HashMap.lookup_erase_eq, if_neg (Ne.symm hx), hne,
              false_or]
        | none =>
            rw [reconcile_cons_none hlookup]
            simp only [List.mem_cons, ih hrest, hne, false_or]

/-- The paired items are a selection of the running ones, in their order. -/
theorem matched_sublist (key : L → K) (wanted : HashMap K V) (ls : List L) :
    ((reconcile key wanted ls).matched.map Prod.fst).Sublist ls := by
  induction ls generalizing wanted with
  | nil => simp [reconcile]
  | cons x ls ih =>
      cases hlookup : wanted.lookup (key x) with
      | some w =>
          rw [reconcile_cons_some hlookup]
          exact (ih _).cons_cons x
      | none =>
          rw [reconcile_cons_none hlookup]
          exact (ih _).cons x

end Elrond.Lib
