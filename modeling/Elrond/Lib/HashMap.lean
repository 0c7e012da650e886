import Mathlib.Data.Finmap
import Mathlib.Tactic

/-!
# Hash maps with an arbitrary iteration order

A hash map is an association list with unique keys (`AList`); lookups, insertions and removals are
Mathlib's. The order in which a hash map is iterated is unspecified, so every iteration takes an
`IterOrder`: any function that permutes the stored pairs. Results proved for all orders hold for
the order the host language happens to use.

`sumBy` totals a measure over the stored pairs; the three `sumBy` lemmas are the accounting rules
for insertion and removal.
-/

set_option autoImplicit false

namespace Elrond.Lib

universe u v

/-- A finite map with unique keys. -/
abbrev HashMap (K : Type u) (V : Type v) := AList (fun _ : K => V)

/-- One unspecified iteration order over the elements of type `α`. -/
structure IterOrder (α : Type u) where
  order : List α → List α
  perm : ∀ l, (order l).Perm l

namespace IterOrder

variable {α : Type u}

/-- The order of the representation. -/
def stored : IterOrder α := ⟨id, fun l => List.Perm.refl l⟩

theorem mem_order (o : IterOrder α) {l : List α} {x : α} : x ∈ o.order l ↔ x ∈ l :=
  (o.perm l).mem_iff

end IterOrder

/-- An element whose key no other element has is the first one with it. -/
theorem find?_key {K : Type v} [DecidableEq K] {L : Type u} (key : L → K) {ls : List L} {l : L}
    (honce : (ls.map key).count (key l) ≤ 1) :
    ls.find? (fun x => key x = key l) = some l ↔ l ∈ ls := by
  constructor
  · exact List.mem_of_find?_eq_some
  · intro hl
    obtain ⟨pre, post, rfl⟩ := List.append_of_mem hl
    rw [List.map_append, List.map_cons, List.count_append, List.count_cons_self] at honce
    have hpre : ∀ x ∈ pre, ¬ key x = key l := by
      intro x hx hkey
      have hpos := List.count_pos_iff.2 (hkey ▸ List.mem_map_of_mem hx : key l ∈ pre.map key)
      omega
    have hnone : pre.find? (fun x => decide (key x = key l)) = none := by
      apply List.find?_eq_none.2
      intro x hx
      simpa using hpre x hx
    rw [List.find?_append, hnone, List.find?_cons_of_pos (by simp)]
    rfl

namespace HashMap

variable {K : Type u} {V : Type v}

/-- The stored pairs, in the order of the representation. -/
def toPairs (m : HashMap K V) : List (K × V) := m.entries.map fun e => (e.1, e.2)

/-- The pairs in the order in which one iteration yields them. -/
def iter (m : HashMap K V) (o : IterOrder (K × V)) : List (K × V) := o.order m.toPairs

/-- The total of a measure over all stored pairs. -/
def sumBy (m : HashMap K V) (f : K → V → Nat) : Nat :=
  (m.entries.map fun e => f e.1 e.2).sum

@[simp] theorem sumBy_empty (f : K → V → Nat) : sumBy (∅ : HashMap K V) f = 0 := rfl

theorem length_eq_sumBy (m : HashMap K V) : m.entries.length = sumBy m fun _ _ => 1 := by
  simp [sumBy]

/-- An iteration yields every key once. -/
theorem nodup_keys_iter (m : HashMap K V) (o : IterOrder (K × V)) :
    ((m.iter o).map Prod.fst).Nodup := by
  have hkeys : (m.toPairs.map Prod.fst).Nodup := by
    have h : m.toPairs.map Prod.fst = m.entries.keys := by
      simp [toPairs, List.keys]
    rw [h]
    exact m.nodupKeys
  exact ((o.perm m.toPairs).map Prod.fst).nodup_iff.2 hkeys

variable [DecidableEq K]

theorem mem_toPairs {m : HashMap K V} {k : K} {v : V} :
    (k, v) ∈ m.toPairs ↔ m.lookup k = some v := by
  rw [← Option.mem_def, AList.mem_lookup_iff]
  constructor
  · intro h
    obtain ⟨e, he, heq⟩ := List.mem_map.1 h
    simp only [Prod.mk.injEq] at heq
    obtain ⟨rfl, rfl⟩ := heq
    exact he
  · exact fun h => List.mem_map.2 ⟨_, h, rfl⟩

theorem mem_iter {m : HashMap K V} {o : IterOrder (K × V)} {k : K} {v : V} :
    (k, v) ∈ m.iter o ↔ m.lookup k = some v := by
  rw [iter, o.mem_order, mem_toPairs]

/-- Looking up after an insertion. -/
theorem lookup_insert_eq (m : HashMap K V) (k k' : K) (v : V) :
    (m.insert k v).lookup k' = if k' = k then some v else m.lookup k' := by
  by_cases h : k' = k
  · subst h
    simp
  · simp [h, AList.lookup_insert_ne h]

/-- Looking up after a removal. -/
theorem lookup_erase_eq (m : HashMap K V) (k k' : K) :
    (m.erase k).lookup k' = if k' = k then none else m.lookup k' := by
  by_cases h : k' = k
  · subst h
    simp
  · simp [h, AList.lookup_erase_ne h]

/-- An insertion counts the new pair and everything stored under other keys. -/
theorem sumBy_insert (m : HashMap K V) (f : K → V → Nat) (k : K) (v : V) :
    sumBy (m.insert k v) f = f k v + sumBy (m.erase k) f := by
  unfold sumBy
  rw [AList.entries_insert]
  simp [AList.erase]

/-- The total splits at a stored key. -/
theorem sumBy_of_lookup {m : HashMap K V} {k : K} {v : V} (f : K → V → Nat)
    (h : m.lookup k = some v) : sumBy m f = f k v + sumBy (m.erase k) f := by
  have hmem : (⟨k, v⟩ : Sigma fun _ : K => V) ∈ m.entries := AList.mem_lookup_iff.1 h
  have hperm : m.entries.Perm (⟨k, v⟩ :: m.entries.kerase k) := by
    have hk : k ∈ m.entries.keys := List.mem_keys_of_mem hmem
    obtain ⟨b, l₁, l₂, hnot, hl, her⟩ := List.exists_of_kerase hk
    have hb : b = v := by
      have hbmem : (⟨k, b⟩ : Sigma fun _ : K => V) ∈ m.entries := by rw [hl]; simp
      exact List.NodupKeys.eq_of_mk_mem m.nodupKeys hbmem hmem
    subst hb
    rw [her]
    nth_rewrite 1 [hl]
    exact List.perm_middle
  unfold sumBy
  rw [(hperm.map _).sum_eq]
  simp [AList.erase]

/-- Removing an absent key changes no total. -/
theorem sumBy_erase_of_lookup_none {m : HashMap K V} {k : K} (f : K → V → Nat)
    (h : m.lookup k = none) : sumBy (m.erase k) f = sumBy m f := by
  have hk : k ∉ m.entries.keys := AList.lookup_eq_none.1 h
  unfold sumBy
  simp [AList.erase, List.kerase_of_notMem_keys hk]

/-- An insertion adds one entry to those under other keys. -/
theorem length_insert (m : HashMap K V) (k : K) (v : V) :
    (m.insert k v).entries.length = (m.erase k).entries.length + 1 := by
  rw [length_eq_sumBy, length_eq_sumBy, sumBy_insert, Nat.add_comm]

theorem length_erase_of_lookup {m : HashMap K V} {k : K} {v : V} (h : m.lookup k = some v) :
    (m.erase k).entries.length + 1 = m.entries.length := by
  rw [length_eq_sumBy, length_eq_sumBy, sumBy_of_lookup _ h, Nat.add_comm]

theorem length_erase_of_lookup_none {m : HashMap K V} {k : K} (h : m.lookup k = none) :
    (m.erase k).entries.length = m.entries.length := by
  rw [length_eq_sumBy, length_eq_sumBy, sumBy_erase_of_lookup_none _ h]

/-- A map without the key `k` whose keys all lie in a list with `k` is shorter than the list. -/
theorem length_lt_of_keys_subset {m : HashMap K V} {k : K} (hk : m.lookup k = none) {l : List K}
    (hmem : k ∈ l) (h : ∀ k' v, m.lookup k' = some v → k' ∈ l) : m.entries.length < l.length := by
  have hnodup : (k :: m.keys).Nodup :=
    List.nodup_cons.2 ⟨AList.lookup_eq_none.1 hk, m.keys_nodup⟩
  have hsub : k :: m.keys ⊆ l := by
    intro k' hk'
    rcases List.mem_cons.1 hk' with rfl | hk'
    · exact hmem
    · obtain ⟨v, hv⟩ := Option.isSome_iff_exists.1 (AList.lookup_isSome.2 hk')
      exact h k' v hv
  have hlen := (List.subperm_of_subset hnodup hsub).length_le
  have hkeys : m.keys.length = m.entries.length := List.length_map _
  rw [List.length_cons, hkeys] at hlen
  omega

/-- `entry(k).or_default()`: the stored value, or the given one. -/
def getOr (m : HashMap K V) (k : K) (d : V) : V := (m.lookup k).getD d

/-- Collecting pairs into a map: a later pair replaces an earlier one with the same key. -/
def collect (ps : List (K × V)) : HashMap K V :=
  ps.foldl (fun m p => m.insert p.1 p.2) ∅

theorem lookup_foldl_insert (ps : List (K × V)) (m : HashMap K V) (k : K) :
    (ps.foldl (fun m p => m.insert p.1 p.2) m).lookup k =
      ((ps.reverse.find? fun p => p.1 = k).map Prod.snd).or (m.lookup k) := by
  -- Induction on the pairs: what the rest does not set is what the map holds after the first.
  induction ps generalizing m with
  | nil => simp
  | cons p ps ih =>
      rw [List.foldl_cons, ih, List.reverse_cons, List.find?_append, lookup_insert_eq]
      cases hfind : ps.reverse.find? fun q => decide (q.1 = k) with
      | some q => simp
      | none =>
          by_cases hk : k = p.1
          · subst hk
            simp
          · have hk' : ¬ p.1 = k := fun h => hk h.symm
            simp [hk, hk']

/-- A collected map holds, for each key, the value of the last pair with that key. -/
theorem lookup_collect (ps : List (K × V)) (k : K) :
    (collect ps).lookup k = (ps.reverse.find? fun p => p.1 = k).map Prod.snd := by
  rw [collect, lookup_foldl_insert]
  simp

/-- A collected map holds nothing at the keys of no pair. -/
theorem lookup_collect_eq_none {ps : List (K × V)} {k : K} :
    (collect ps).lookup k = none ↔ k ∉ ps.map Prod.fst := by
  rw [lookup_collect, Option.map_eq_none_iff, List.find?_eq_none]
  constructor
  · intro h hk
    obtain ⟨p, hp, hkey⟩ := List.mem_map.1 hk
    exact absurd (decide_eq_true hkey) (h p (List.mem_reverse.2 hp))
  · intro h p hp hkey
    exact h (List.mem_map.2 ⟨p, List.mem_reverse.1 hp, of_decide_eq_true hkey⟩)

/-- At a key that is given once, a collected map holds the given pair. -/
theorem lookup_collect_of_once {ps : List (K × V)} {k : K} (honce : (ps.map Prod.fst).count k ≤ 1)
    {v : V} : (collect ps).lookup k = some v ↔ (k, v) ∈ ps := by
  have hrev : (ps.reverse.map Prod.fst).count k ≤ 1 := by
    rw [List.map_reverse, List.count_reverse]
    exact honce
  have hfirst : ps.reverse.find? (fun p => p.1 = k) = some (k, v) ↔ (k, v) ∈ ps.reverse :=
    find?_key (l := (k, v)) Prod.fst hrev
  rw [lookup_collect, ← List.mem_reverse, ← hfirst, Option.map_eq_some_iff]
  constructor
  · rintro ⟨p, hp, rfl⟩
    have hkey := List.find?_some hp
    simp only [decide_eq_true_eq] at hkey
    subst hkey
    exact hp
  · intro h
    exact ⟨(k, v), h, rfl⟩

end HashMap

end Elrond.Lib
