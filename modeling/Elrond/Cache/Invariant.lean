import Elrond.Cache.Store

/-!
# Representation invariant of the cache store

`State.Wf` says that the byte count is the sum over all stored variants, that no key has an empty
list and that the variants of a key have distinct signatures. Expiry on `get` and every round of
the eviction loop are the same kind of step, a list of variants losing some of its members with
the count adjusted by their bytes; `wf_shrink` handles that step once. The eviction scan always
finds a target while the count is positive (`evictionTarget_eq_none`), and removing the target
lowers the number of variants, so the loop ends by its own condition (`evictLoop_spec`).
`store_invariant` puts this together for every run of calls.
-/

set_option autoImplicit false

namespace Elrond.Cache

open Elrond.Lib Elrond.Http

/-- The byte count is exact, no key is empty, and signatures are distinct under each key. -/
structure State.Wf (s : State) : Prop where
  total_eq : s.totalBytes = HashMap.sumBy s.entries fun _ vs => bytesOf vs
  nonempty : ∀ k vs, s.entries.lookup k = some vs → vs ≠ []
  distinct : ∀ k vs, s.entries.lookup k = some vs → (vs.map Entry.varySignature).Nodup

/-- The full invariant of a store of `maxBytes` bytes. -/
structure State.Inv (maxBytes : Nat) (s : State) : Prop extends s.Wf where
  total_le : s.totalBytes ≤ maxBytes

/-- No recorded `saturating_sub` takes away more than there is. -/
def NoSaturation (events : List StoreEvent) : Prop :=
  ∀ total amount, StoreEvent.sub total amount ∈ events → amount ≤ total

theorem NoSaturation.append {xs ys : List StoreEvent} (hx : NoSaturation xs)
    (hy : NoSaturation ys) : NoSaturation (xs ++ ys) := by
  intro total amount h
  rcases List.mem_append.1 h with h | h
  · exact hx total amount h
  · exact hy total amount h

/-! ## Bytes of variant lists -/

theorem bytesOf_append (xs ys : List Entry) : bytesOf (xs ++ ys) = bytesOf xs + bytesOf ys := by
  simp [bytesOf]

/-- Expiry splits the bytes of a list. -/
theorem bytesOf_stale_fresh (now : Nat) (vs : List Entry) :
    bytesOf vs = bytesOf (stale now vs) + bytesOf (fresh now vs) := by
  induction vs with
  | nil => rfl
  | cons v vs ih =>
      by_cases hv : v.expiresAt ≤ now
      · have hv' : ¬ now < v.expiresAt := Nat.not_lt.2 hv
        simp only [bytesOf, stale, fresh, List.filter_cons, hv, hv', decide_true, decide_false,
          if_true, Bool.false_eq_true, if_false, List.map_cons, List.sum_cons] at ih ⊢
        omega
      · have hv' : now < v.expiresAt := Nat.not_le.1 hv
        simp only [bytesOf, stale, fresh, List.filter_cons, hv, hv', decide_true, decide_false,
          if_true, Bool.false_eq_true, if_false, List.map_cons, List.sum_cons] at ih ⊢
        omega

/-- Removing the variant with a signature splits the bytes of a list. -/
theorem bytesOf_withoutVariant (sig : String) (vs : List Entry) :
    bytesOf vs =
      ((variantWith sig vs).map entryBytes).getD 0 + bytesOf (withoutVariant sig vs) := by
  induction vs with
  | nil => rfl
  | cons v vs ih =>
      by_cases hv : v.varySignature = sig
      · simp [bytesOf, variantWith, withoutVariant, hv]
      · simp only [bytesOf, variantWith, withoutVariant, List.find?_cons, List.eraseP_cons,
          cond_false, List.map_cons, List.sum_cons, beq_eq_false_iff_ne.2 hv] at ih ⊢
        omega

theorem withoutVariant_sublist (sig : String) (vs : List Entry) :
    (withoutVariant sig vs).Sublist vs :=
  List.eraseP_sublist

theorem length_withoutVariant {sig : String} {vs : List Entry} {v : Entry} (hv : v ∈ vs)
    (hsig : v.varySignature = sig) : (withoutVariant sig vs).length + 1 = vs.length := by
  have hlen := List.length_eraseP_of_mem (p := fun v => v.varySignature == sig) hv (by simp [hsig])
  have hpos := List.length_pos_of_mem hv
  rw [withoutVariant, hlen]
  omega

/-- After the removal no variant with the signature is left, if signatures were distinct. -/
theorem notMem_withoutVariant {sig : String} :
    ∀ {vs : List Entry}, (vs.map Entry.varySignature).Nodup →
      sig ∉ (withoutVariant sig vs).map Entry.varySignature
  | [], _ => by simp [withoutVariant]
  | v :: vs, h => by
      rw [List.map_cons, List.nodup_cons] at h
      by_cases hv : v.varySignature = sig
      · subst hv
        simpa [withoutVariant] using h.1
      · have hrest : sig ∉ (withoutVariant sig vs).map Entry.varySignature :=
          notMem_withoutVariant h.2
        have hcons : withoutVariant sig (v :: vs) = v :: withoutVariant sig vs := by
          simp [withoutVariant, hv]
        rw [hcons, List.map_cons, List.mem_cons, not_or]
        exact ⟨fun h => hv h.symm, hrest⟩

/-! ## One key changes -/

theorem lookup_setVariants (m : HashMap String (List Entry)) (key k : String) (vs : List Entry) :
    (setVariants m key vs).lookup k =
      if k = key then (if vs.isEmpty then none else some vs) else m.lookup k := by
  rw [setVariants]
  cases hvs : vs.isEmpty with
  | true => rw [if_pos rfl, HashMap.lookup_erase_eq, if_pos rfl]
  | false =>
      rw [if_neg Bool.false_ne_true, HashMap.lookup_insert_eq, if_neg Bool.false_ne_true]

/-- A total over all keys after one key changed, for a measure that ignores empty lists. -/
theorem sumBy_setVariants (m : HashMap String (List Entry)) (f : List Entry → Nat)
    (hf : f [] = 0) (key : String) (vs : List Entry) :
    HashMap.sumBy (setVariants m key vs) (fun _ vs => f vs) =
      f vs + HashMap.sumBy (m.erase key) fun _ vs => f vs := by
  rw [setVariants]
  cases hvs : vs.isEmpty with
  | true =>
      rw [if_pos rfl, List.isEmpty_iff.1 hvs, hf, Nat.zero_add]
  | false => rw [if_neg Bool.false_ne_true, HashMap.sumBy_insert]

theorem dropBytes_fst (total dropped : Nat) : (dropBytes total dropped).1 = total - dropped := by
  rw [dropBytes]
  split
  · rfl
  · omega

theorem noSaturation_dropBytes {total dropped : Nat} (h : dropped ≤ total) :
    NoSaturation (dropBytes total dropped).2 := by
  intro a b hab
  rw [dropBytes] at hab
  split at hab
  · simp only [List.mem_cons, StoreEvent.sub.injEq, reduceCtorEq, List.not_mem_nil,
      or_false] at hab
    omega
  · simp at hab

/-- **The removal step.** The variants of one key shrink to a sublist and the count drops by the
bytes that left: the state stays well formed, the subtraction is exact and the count does not
grow. -/
theorem wf_shrink {s : State} (hs : s.Wf) {key : String} {vs vs' : List Entry}
    (hlookup : s.entries.lookup key = some vs) (hsub : vs'.Sublist vs) {dropped : Nat}
    (hbytes : bytesOf vs = dropped + bytesOf vs') :
    (State.mk (setVariants s.entries key vs') (dropBytes s.totalBytes dropped).1).Wf ∧
      dropped ≤ s.totalBytes ∧ (dropBytes s.totalBytes dropped).1 ≤ s.totalBytes := by
  have htotal := hs.total_eq
  rw [HashMap.sumBy_of_lookup _ hlookup] at htotal
  have hle : dropped ≤ s.totalBytes := by omega
  refine ⟨⟨?_, ?_, ?_⟩, hle, ?_⟩
  · show (dropBytes s.totalBytes dropped).1 = _
    rw [dropBytes_fst, sumBy_setVariants _ bytesOf rfl]
    omega
  · intro k ws hk
    rw [lookup_setVariants] at hk
    split at hk
    · split at hk
      · exact absurd hk (by simp)
      · rename_i hne
        obtain rfl := Option.some.inj hk
        simpa using hne
    · exact hs.nonempty k ws hk
  · intro k ws hk
    rw [lookup_setVariants] at hk
    split at hk
    · split at hk
      · exact absurd hk (by simp)
      · obtain rfl := Option.some.inj hk
        exact (hsub.map _).nodup (hs.distinct key vs hlookup)
    · exact hs.distinct k ws hk
  · rw [dropBytes_fst]
    omega

/-! ## The eviction scan -/

/-- All stored variants with their keys, in iteration order. -/
def allVariants (pairs : List (String × List Entry)) : List (String × Entry) :=
  pairs.flatMap fun p => p.2.map fun v => (p.1, v)

theorem mem_allVariants {pairs : List (String × List Entry)} {k : String} {v : Entry} :
    (k, v) ∈ allVariants pairs ↔ ∃ vs, (k, vs) ∈ pairs ∧ v ∈ vs := by
  simp [allVariants]

/-- The nested scan is one scan over all variants. -/
theorem scan_eq (pairs : List (String × List Entry)) (best : Option (String × String × Nat)) :
    pairs.foldl (fun best p => p.2.foldl (scanVariant p.1) best) best =
      (allVariants pairs).foldl (fun best kv => scanVariant kv.1 best kv.2) best := by
  induction pairs generalizing best with
  | nil => rfl
  | cons p pairs ih =>
      have hcons : allVariants (p :: pairs) = (p.2.map fun v => (p.1, v)) ++ allVariants pairs :=
        List.flatMap_cons
      rw [List.foldl_cons, ih, hcons, List.foldl_append, List.foldl_map]

theorem scanVariant_isSome (key : String) (best : Option (String × String × Nat)) (v : Entry) :
    (scanVariant key best v).isSome = true := by
  unfold scanVariant
  split
  · split <;> rfl
  · rfl

/-- A scan that starts with a candidate or sees a variant ends with a candidate. -/
theorem scan_isSome (kvs : List (String × Entry)) (best : Option (String × String × Nat))
    (h : best.isSome = true ∨ kvs ≠ []) :
    (kvs.foldl (fun best kv => scanVariant kv.1 best kv.2) best).isSome = true := by
  induction kvs generalizing best with
  | nil =>
      rcases h with h | h
      · exact h
      · exact absurd rfl h
  | cons kv kvs ih =>
      rw [List.foldl_cons]
      exact ih _ (Or.inl (scanVariant_isSome kv.1 best kv.2))

/-- The candidate of a scan is the one it started with or a variant it saw. -/
theorem scan_origin (kvs : List (String × Entry)) (best : Option (String × String × Nat))
    {k sig : String} {t : Nat}
    (h : kvs.foldl (fun best kv => scanVariant kv.1 best kv.2) best = some (k, sig, t)) :
    best = some (k, sig, t) ∨
      ∃ v, (k, v) ∈ kvs ∧ v.varySignature = sig ∧ v.expiresAt = t := by
  induction kvs generalizing best with
  | nil => exact Or.inl h
  | cons kv kvs ih =>
      rw [List.foldl_cons] at h
      rcases ih _ h with hb | ⟨v, hv, hsig, ht⟩
      · have hnew : scanVariant kv.1 best kv.2 = best ∨
            scanVariant kv.1 best kv.2 = some (kv.1, kv.2.varySignature, kv.2.expiresAt) := by
          unfold scanVariant
          split
          · split
            · exact Or.inl rfl
            · exact Or.inr rfl
          · exact Or.inr rfl
        rcases hnew with hnew | hnew
        · exact Or.inl (hnew ▸ hb)
        · rw [hnew] at hb
          simp only [Option.some.injEq, Prod.mk.injEq] at hb
          obtain ⟨rfl, rfl, rfl⟩ := hb
          exact Or.inr ⟨kv.2, List.mem_cons_self, rfl, rfl⟩
      · exact Or.inr ⟨v, List.mem_cons_of_mem _ hv, hsig, ht⟩

/-- The scan finds nothing only when nothing is stored. -/
theorem evictionTarget_eq_none {pairs : List (String × List Entry)}
    (h : evictionTarget pairs = none) : allVariants pairs = [] := by
  by_contra hne
  have hsome := scan_isSome (allVariants pairs) none (Or.inr hne)
  rw [← scan_eq] at hsome
  rw [evictionTarget, Option.map_eq_none_iff] at h
  rw [h] at hsome
  exact Bool.noConfusion hsome

/-- The target names a stored variant. -/
theorem evictionTarget_mem {pairs : List (String × List Entry)} {k sig : String}
    (h : evictionTarget pairs = some (k, sig)) :
    ∃ vs, (k, vs) ∈ pairs ∧ ∃ v ∈ vs, v.varySignature = sig := by
  obtain ⟨b, hb, heq⟩ := Option.map_eq_some_iff.1 h
  obtain ⟨k', sig', t⟩ := b
  simp only [Prod.mk.injEq] at heq
  obtain ⟨rfl, rfl⟩ := heq
  rw [scan_eq] at hb
  rcases scan_origin _ _ hb with hnone | ⟨v, hv, hsig, -⟩
  · exact absurd hnone (by simp)
  · obtain ⟨vs, hvs, hmem⟩ := mem_allVariants.1 hv
    exact ⟨vs, hvs, v, hmem, hsig⟩

/-! ## The operations keep the invariant -/

/-- `get` keeps the invariant and never saturates. -/
theorem get_inv {maxBytes : Nat} {s : State} (hs : s.Inv maxBytes) (now : Nat) (key : String)
    (req : HeaderMap) :
    (s.get now key req).state.Inv maxBytes ∧ NoSaturation (s.get now key req).events := by
  rw [State.get]
  cases hlookup : s.entries.lookup key with
  | none => exact ⟨hs, by intro a b h; simp at h⟩
  | some vs =>
      obtain ⟨hwf, hle, hless⟩ := wf_shrink hs.toWf hlookup List.filter_sublist
        (bytesOf_stale_fresh now vs)
      refine ⟨⟨hwf, le_trans hless hs.total_le⟩, ?_⟩
      apply NoSaturation.append (noSaturation_dropBytes hle)
      intro a b h
      rw [List.mem_singleton] at h
      split at h <;> exact StoreEvent.noConfusion h

/-- One round of the loop on a stored variant. -/
theorem evictOne_spec {s : State} (hs : s.Wf) {key sig : String} {vs : List Entry}
    (hlookup : s.entries.lookup key = some vs) (hsig : ∃ v ∈ vs, v.varySignature = sig) :
    (s.evictOne key sig).1.Wf ∧
      variantCount (s.evictOne key sig).1.entries + 1 = variantCount s.entries ∧
      NoSaturation (s.evictOne key sig).2 := by
  obtain ⟨v, hv, hvsig⟩ := hsig
  obtain ⟨hwf, hle, -⟩ := wf_shrink hs hlookup (withoutVariant_sublist sig vs)
    (bytesOf_withoutVariant sig vs)
  have hdef : s.evictOne key sig =
      (⟨setVariants s.entries key (withoutVariant sig vs),
        (dropBytes s.totalBytes (((variantWith sig vs).map entryBytes).getD 0)).1⟩,
        (dropBytes s.totalBytes (((variantWith sig vs).map entryBytes).getD 0)).2) := by
    simp only [State.evictOne, hlookup]
  rw [hdef]
  refine ⟨hwf, ?_, noSaturation_dropBytes hle⟩
  have hcount : variantCount (setVariants s.entries key (withoutVariant sig vs)) =
      (withoutVariant sig vs).length + HashMap.sumBy (s.entries.erase key) fun _ vs => vs.length :=
    sumBy_setVariants _ List.length rfl key _
  have hbefore : variantCount s.entries =
      vs.length + HashMap.sumBy (s.entries.erase key) fun _ vs => vs.length :=
    HashMap.sumBy_of_lookup _ hlookup
  have hlen := length_withoutVariant hv hvsig
  show variantCount (setVariants s.entries key (withoutVariant sig vs)) + 1 = _
  omega

/-- With an exact positive count, the scan finds a target. -/
theorem exists_evictionTarget {s : State} (hs : s.Wf) (hpos : 0 < s.totalBytes)
    (o : IterOrder (String × List Entry)) :
    ∃ key sig, evictionTarget (HashMap.iter s.entries o) = some (key, sig) := by
  cases htarget : evictionTarget (HashMap.iter s.entries o) with
  | some t => exact ⟨t.1, t.2, rfl⟩
  | none =>
      exfalso
      have hnone := evictionTarget_eq_none htarget
      have hzero : HashMap.sumBy s.entries (fun _ vs => bytesOf vs) = 0 := by
        apply List.sum_eq_zero
        intro n hn
        obtain ⟨e, he, rfl⟩ := List.mem_map.1 hn
        have hmem : (e.1, e.2) ∈ HashMap.iter s.entries o :=
          HashMap.mem_iter.2 (Option.mem_def.1 (AList.mem_lookup_iff.2 he))
        cases hvs : e.2 with
        | nil => rfl
        | cons v vs =>
            have hv : (e.1, v) ∈ allVariants (HashMap.iter s.entries o) :=
              mem_allVariants.2 ⟨e.2, hmem, by rw [hvs]; exact List.mem_cons_self⟩
            rw [hnone] at hv
            exact absurd hv List.not_mem_nil
      have htotal := hs.total_eq
      omega

/-- **The eviction loop.** With as much fuel as there are variants it ends by its own condition,
in a well-formed state with room for the entry, and never saturates. -/
theorem evictLoop_spec {maxBytes size : Nat} (hsize : size ≤ maxBytes)
    (orders : Nat → IterOrder (String × List Entry)) :
    ∀ (fuel : Nat) (s : State), s.Wf → variantCount s.entries ≤ fuel →
      (evictLoop maxBytes size orders fuel s).1 = .fits ∧
        (evictLoop maxBytes size orders fuel s).2.1.Wf ∧
        (evictLoop maxBytes size orders fuel s).2.1.totalBytes + size ≤ maxBytes ∧
        NoSaturation (evictLoop maxBytes size orders fuel s).2.2 := by
  intro fuel
  induction fuel with
  | zero =>
      intro s hs hcount
      have hfits : ¬ maxBytes < s.totalBytes + size := by
        intro hlt
        obtain ⟨key, sig, htarget⟩ := exists_evictionTarget hs (by omega) (orders 0)
        obtain ⟨vs, hmem, v, hv, -⟩ := evictionTarget_mem htarget
        have hsum : variantCount s.entries = vs.length + _ :=
          HashMap.sumBy_of_lookup _ (HashMap.mem_iter.1 hmem)
        have hpos := List.length_pos_of_mem hv
        omega
      simp only [evictLoop, if_neg hfits]
      exact ⟨trivial, hs, Nat.not_lt.1 hfits, by intro a b h; simp at h⟩
  | succ fuel ih =>
      intro s hs hcount
      by_cases hfull : maxBytes < s.totalBytes + size
      -- The entry alone fits, so a full store has bytes to evict, and a round removes one variant.
      · obtain ⟨key, sig, htarget⟩ := exists_evictionTarget hs (by omega) (orders fuel)
        obtain ⟨vs, hmem, hsig⟩ := evictionTarget_mem htarget
        obtain ⟨hwf, hless, hsat⟩ := evictOne_spec hs (HashMap.mem_iter.1 hmem) hsig
        obtain ⟨hexit, hwf', hroom, hsat'⟩ := ih (s.evictOne key sig).1 hwf (by omega)
        simp only [evictLoop, if_pos hfull, htarget]
        exact ⟨hexit, hwf', hroom, hsat.append hsat'⟩
      · simp only [evictLoop, if_neg hfull]
        exact ⟨trivial, hs, Nat.not_lt.1 hfull, by intro a b h; simp at h⟩

/-- Inserting into a well-formed state with room keeps the invariant and never saturates. -/
theorem insertEntry_spec {maxBytes : Nat} {s : State} (hs : s.Wf) (key : String) (entry : Entry)
    (hroom : s.totalBytes + entryBytes entry ≤ maxBytes) :
    (s.insertEntry key entry).1.Inv maxBytes ∧ NoSaturation (s.insertEntry key entry).2 := by
  have hsplit : s.totalBytes = bytesOf (HashMap.getOr s.entries key []) +
      HashMap.sumBy (s.entries.erase key) fun _ vs => bytesOf vs := by
    rw [hs.total_eq, HashMap.getOr]
    cases hlookup : s.entries.lookup key with
    | none =>
        rw [HashMap.sumBy_erase_of_lookup_none _ hlookup]
        simp [bytesOf]
    | some vs => exact HashMap.sumBy_of_lookup _ hlookup
  have hnodup : ((HashMap.getOr s.entries key []).map Entry.varySignature).Nodup := by
    rw [HashMap.getOr]
    cases hlookup : s.entries.lookup key with
    | none => simp
    | some vs => exact hs.distinct key vs hlookup
  have hbytes := bytesOf_withoutVariant entry.varySignature (HashMap.getOr s.entries key [])
  refine ⟨⟨⟨?_, ?_, ?_⟩, ?_⟩, ?_⟩
  -- The replaced variant leaves the sum and the new entry enters it.
  · simp only [State.insertEntry]
    rw [HashMap.sumBy_insert, bytesOf_append]
    simp only [bytesOf, List.map_cons, List.map_nil, List.sum_cons, List.sum_nil] at hbytes hsplit ⊢
    omega
  · intro k vs hk
    simp only [State.insertEntry] at hk
    rw [HashMap.lookup_insert_eq] at hk
    split at hk
    · obtain rfl := Option.some.inj hk
      simp
    · exact hs.nonempty k vs hk
  · intro k vs hk
    simp only [State.insertEntry] at hk
    rw [HashMap.lookup_insert_eq] at hk
    split at hk
    · obtain rfl := Option.some.inj hk
      -- The new signature is distinct from the rest, since its old variant was removed first.
      rw [List.map_append, List.nodup_append]
      refine ⟨((withoutVariant_sublist _ _).map _).nodup hnodup, by simp, ?_⟩
      intro a ha b hb
      simp only [List.map_cons, List.map_nil, List.mem_singleton] at hb
      subst hb
      rintro rfl
      exact notMem_withoutVariant hnodup ha
    · exact hs.distinct k vs hk
  · simp only [State.insertEntry]
    omega
  · intro a b h
    simp only [State.insertEntry, List.mem_cons, StoreEvent.sub.injEq, reduceCtorEq,
      List.not_mem_nil, or_false] at h
    omega

/-- `put` keeps the invariant, never saturates, and its loop ends by its own condition. -/
theorem put_inv {maxBytes : Nat} {s : State} (hs : s.Inv maxBytes)
    (orders : Nat → IterOrder (String × List Entry)) (key : String) (entry : Entry) :
    (s.put maxBytes orders key entry).state.Inv maxBytes ∧
      NoSaturation (s.put maxBytes orders key entry).events ∧
      ∀ exit, (s.put maxBytes orders key entry).exit = some exit → exit = .fits := by
  rw [State.put]
  by_cases hbig : maxBytes < entryBytes entry
  · rw [if_pos hbig]
    exact ⟨hs, by intro a b h; simp at h, by intro exit h; simp at h⟩
  · rw [if_neg hbig]
    obtain ⟨hexit, hwf, hroom, hsat⟩ := evictLoop_spec (Nat.not_lt.1 hbig) orders
      (variantCount s.entries) s hs.toWf le_rfl
    obtain ⟨hinv, hsat'⟩ := insertEntry_spec hwf key entry hroom
    refine ⟨hinv, hsat.append hsat', ?_⟩
    intro exit h
    rw [← Option.some.inj h]
    exact hexit

/-! ## Every run -/

theorem inv_new (maxBytes : Nat) : State.new.Inv maxBytes where
  total_eq := rfl
  nonempty := by intro k vs h; simp [State.new] at h
  distinct := by intro k vs h; simp [State.new] at h
  total_le := Nat.zero_le _

theorem next_inv {maxBytes : Nat} (s : State) (c : Call) (hs : s.Inv maxBytes) :
    (c.next maxBytes s).Inv maxBytes := by
  cases c with
  | get now key req => exact (get_inv hs now key req).1
  | put orders key entry => exact (put_inv hs orders key entry).1

/-- Every state of a store satisfies the invariant. -/
theorem runCalls_inv (maxBytes : Nat) (calls : List Call) :
    (runCalls maxBytes calls).Inv maxBytes :=
  run_invariant next_inv (inv_new maxBytes) calls

/-- **Representation invariant of the store.** After every run of calls, with any clock readings
and iteration orders, the invariant holds; and a further call never saturates a subtraction and
leaves its eviction loop, if it runs one, by the loop's own condition. -/
theorem store_invariant (maxBytes : Nat) (calls : List Call) :
    (runCalls maxBytes calls).Inv maxBytes ∧
      ∀ c : Call, NoSaturation (c.events maxBytes (runCalls maxBytes calls)) ∧
        ∀ exit, c.exit maxBytes (runCalls maxBytes calls) = some exit → exit = .fits := by
  refine ⟨runCalls_inv maxBytes calls, fun c => ?_⟩
  cases c with
  | get now key req =>
      exact ⟨(get_inv (runCalls_inv maxBytes calls) now key req).2, by intro exit h; cases h⟩
  | put orders key entry => exact (put_inv (runCalls_inv maxBytes calls) orders key entry).2

end Elrond.Cache
