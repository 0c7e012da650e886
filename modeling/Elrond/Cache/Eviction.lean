import Elrond.Cache.Lookup
import Elrond.Lib.Shed

/-!
# Eviction

Which variants a `put` evicts. `evictionOrder` lists the variants of a store in the order in which
they would be evicted: by expiry, and among equals as the iteration orders have them. The eviction
loop drops a beginning of that list, just enough for the rest and the new entry to fit
(`evictLoop_shed`). The loop runs before the variant with the signature of the new entry is
replaced, so that variant is counted although it goes anyway: a `put` that replaces a variant may
evict others for which there was room. `minimalEviction_iff` says exactly when.

The same list says which variants a lookup right after the `put` still finds. The new entry is
added behind them, and a lookup takes the first variant that matches (`newest_found_iff`).
-/

set_option autoImplicit false

namespace Elrond.Cache

open Elrond.Lib Elrond.Http

/-! ## The target of a round -/

/-- No variant that the scan saw expires before the candidate it ends with. -/
theorem scan_le (kvs : List (String × Entry)) (best : Option (String × String × Nat))
    {k sig : String} {t : Nat}
    (h : kvs.foldl (fun best kv => scanVariant kv.1 best kv.2) best = some (k, sig, t)) :
    (∀ b, best = some b → t ≤ b.2.2) ∧ ∀ kv ∈ kvs, t ≤ kv.2.expiresAt := by
  induction kvs generalizing best with
  | nil =>
      rw [List.foldl_nil] at h
      refine ⟨?_, by simp⟩
      rintro b rfl
      obtain rfl := Option.some.inj h
      exact le_rfl
  | cons kv kvs ih =>
      rw [List.foldl_cons] at h
      obtain ⟨hbest, hrest⟩ := ih _ h
      -- the comparison keeps the smaller of the two
      have hnew : t ≤ kv.2.expiresAt ∧ ∀ b, best = some b → t ≤ b.2.2 := by
        cases best with
        | none => exact ⟨hbest _ rfl, by simp⟩
        | some b =>
            obtain ⟨k', sig', t'⟩ := b
            simp only [scanVariant] at hbest
            split at hbest
            · next hle =>
              have ht := hbest _ rfl
              refine ⟨ht.trans hle, ?_⟩
              rintro _ ⟨⟩
              exact ht
            · next hlt =>
              have ht : t ≤ kv.2.expiresAt := hbest _ rfl
              refine ⟨ht, ?_⟩
              rintro _ ⟨⟩
              exact ht.trans (Nat.le_of_lt (Nat.lt_of_not_le hlt))
      refine ⟨hnew.2, ?_⟩
      intro kv' hkv'
      rcases List.mem_cons.1 hkv' with rfl | hkv'
      · exact hnew.1
      · exact hrest kv' hkv'

theorem mem_allVariants_iter {s : State} (hs : s.Wf) (o : IterOrder (String × List Entry))
    {k : String} {v : Entry} :
    (k, v) ∈ allVariants (HashMap.iter s.entries o) ↔ s.variant k v.varySignature = some v := by
  rw [mem_allVariants, State.variant, Option.bind_eq_some_iff]
  constructor
  · rintro ⟨vs, hvs, hv⟩
    have hlookup := HashMap.mem_iter.1 hvs
    exact ⟨vs, hlookup, variantWith_of_mem (hs.distinct k vs hlookup) hv⟩
  · rintro ⟨vs, hlookup, hv⟩
    exact ⟨vs, HashMap.mem_iter.2 hlookup, variantWith_mem hv⟩

/-- One round: its target is a variant that no other expires before, and it takes that variant's
bytes from the count. -/
theorem evictionTarget_spec {s : State} (hs : s.Wf) {o : IterOrder (String × List Entry)}
    {key sig : String} (h : evictionTarget (HashMap.iter s.entries o) = some (key, sig)) :
    ∃ v, s.variant key sig = some v ∧
      (∀ k w, s.variant k w.varySignature = some w → v.expiresAt ≤ w.expiresAt) ∧
      (s.evictOne key sig).1.Wf ∧
      variantCount (s.evictOne key sig).1.entries + 1 = variantCount s.entries ∧
      (s.evictOne key sig).1.totalBytes + entryBytes v = s.totalBytes := by
  obtain ⟨b, hb, heq⟩ := Option.map_eq_some_iff.1 h
  obtain ⟨k', sig', t⟩ := b
  obtain ⟨rfl, rfl⟩ := Prod.mk.inj heq
  rw [scan_eq] at hb
  rcases scan_origin _ _ hb with hnone | ⟨v, hv, rfl, rfl⟩
  · cases hnone
  have hvariant := (mem_allVariants_iter hs o).1 hv
  obtain ⟨vs, hlookup, hvs⟩ := Option.bind_eq_some_iff.1 hvariant
  obtain ⟨hwf, hcount, -⟩ := evictOne_spec hs hlookup ⟨v, variantWith_mem hvs, rfl⟩
  refine ⟨v, hvariant, ?_, hwf, hcount, ?_⟩
  · intro k w hw
    exact (scan_le _ _ hb).2 (k, w) ((mem_allVariants_iter hs o).2 hw)
  · obtain ⟨-, hle, -⟩ := wf_shrink hs hlookup (withoutVariant_sublist v.varySignature vs)
      (bytesOf_withoutVariant v.varySignature vs)
    rw [hvs, Option.map_some, Option.getD_some] at hle
    have htotal : (s.evictOne k' v.varySignature).1.totalBytes =
        s.totalBytes - entryBytes v := by
      simp only [State.evictOne, hlookup, hvs, Option.map_some, Option.getD_some, dropBytes_fst]
    show (s.evictOne k' v.varySignature).1.totalBytes + entryBytes v = s.totalBytes
    omega

/-! ## The order of eviction -/

/-- The variants of a store in the order in which rounds of eviction would take them. -/
def evictionOrder (orders : Nat → IterOrder (String × List Entry)) :
    Nat → State → List (String × Entry)
  | 0, _ => []
  | fuel + 1, s =>
      match evictionTarget (HashMap.iter s.entries (orders fuel)) with
      | none => []
      | some (key, sig) =>
          match s.variant key sig with
          | none => []
          | some v => (key, v) :: evictionOrder orders fuel (s.evictOne key sig).1

/-- The bytes of a variant. -/
def variantBytes (p : String × Entry) : Nat := entryBytes p.2

/-- The list holds the variants of the store, each once. -/
structure Enumerates (l : List (String × Entry)) (s : State) : Prop where
  nodup : l.Nodup
  mem : ∀ k v, (k, v) ∈ l ↔ s.variant k v.varySignature = some v
  total : totalWeight variantBytes l = s.totalBytes

theorem enumerates_nil {s : State} (hs : s.Wf)
    (hempty : ∀ k v, s.variant k v.varySignature ≠ some v)
    (o : IterOrder (String × List Entry)) : Enumerates [] s := by
  refine ⟨List.nodup_nil, ?_, ?_⟩
  · intro k v
    exact iff_of_false List.not_mem_nil (hempty k v)
  · by_contra hne
    have hpos : 0 < s.totalBytes := by
      rw [totalWeight_nil] at hne
      omega
    obtain ⟨key, sig, htarget⟩ := exists_evictionTarget hs hpos o
    obtain ⟨v, hv, -⟩ := evictionTarget_spec hs htarget
    rw [← variant_sig hv] at hv
    exact hempty key v hv

theorem enumerates_cons {s : State} (hs : s.Wf) {key : String} {v : Entry}
    {l : List (String × Entry)} (hv : s.variant key v.varySignature = some v)
    (htotal : (s.evictOne key v.varySignature).1.totalBytes + entryBytes v = s.totalBytes)
    (hl : Enumerates l (s.evictOne key v.varySignature).1) : Enumerates ((key, v) :: l) s := by
  have hmem : ∀ k w, (k, w) ∈ l ↔ s.variant k w.varySignature = some w ∧
      ¬ (k = key ∧ w.varySignature = v.varySignature) := by
    intro k w
    rw [hl.mem, evictOne_variant hs]
  refine ⟨List.nodup_cons.2 ⟨?_, hl.nodup⟩, ?_, ?_⟩
  · intro hin
    exact ((hmem key v).1 hin).2 ⟨rfl, rfl⟩
  · intro k w
    rw [List.mem_cons, hmem]
    constructor
    · rintro (heq | h)
      · obtain ⟨rfl, rfl⟩ := Prod.mk.inj heq
        exact hv
      · exact h.1
    · intro hw
      by_cases hpair : k = key ∧ w.varySignature = v.varySignature
      · obtain ⟨rfl, hsig⟩ := hpair
        rw [hsig, hv] at hw
        obtain rfl := Option.some.inj hw
        exact Or.inl rfl
      · exact Or.inr ⟨hw, hpair⟩
  · rw [totalWeight_cons, hl.total, ← htotal]
    exact Nat.add_comm _ _

theorem variantCount_eq_zero {s : State} (hs : s.Wf) (h : variantCount s.entries = 0) :
    ∀ k v, s.variant k v.varySignature ≠ some v := by
  intro k v hv
  have hin := (mem_allVariants_iter hs IterOrder.stored).2 hv
  cases htarget : evictionTarget (HashMap.iter s.entries IterOrder.stored) with
  | none =>
      rw [evictionTarget_eq_none htarget] at hin
      exact absurd hin List.not_mem_nil
  | some target =>
      obtain ⟨key, sig⟩ := target
      obtain ⟨w, -, -, -, hcount, -⟩ := evictionTarget_spec hs htarget
      omega

/-- A round of the order, as the induction on the fuel sees it. -/
theorem evictionOrder_cases (orders : Nat → IterOrder (String × List Entry)) (fuel : Nat)
    {s : State} (hs : s.Wf) :
    evictionTarget (HashMap.iter s.entries (orders fuel)) = none ∧
        evictionOrder orders (fuel + 1) s = [] ∧
        (∀ k v, s.variant k v.varySignature ≠ some v) ∨
      ∃ key v, evictionTarget (HashMap.iter s.entries (orders fuel)) =
          some (key, v.varySignature) ∧
        evictionOrder orders (fuel + 1) s =
          (key, v) :: evictionOrder orders fuel (s.evictOne key v.varySignature).1 ∧
        s.variant key v.varySignature = some v ∧
        (∀ k w, s.variant k w.varySignature = some w → v.expiresAt ≤ w.expiresAt) ∧
        (s.evictOne key v.varySignature).1.Wf ∧
        variantCount (s.evictOne key v.varySignature).1.entries + 1 = variantCount s.entries ∧
        (s.evictOne key v.varySignature).1.totalBytes + entryBytes v = s.totalBytes := by
  cases htarget : evictionTarget (HashMap.iter s.entries (orders fuel)) with
  | none =>
      refine Or.inl ⟨rfl, by rw [evictionOrder, htarget], ?_⟩
      intro k v hv
      have hin := (mem_allVariants_iter hs (orders fuel)).2 hv
      rw [evictionTarget_eq_none htarget] at hin
      exact absurd hin List.not_mem_nil
  | some target =>
      obtain ⟨key, sig⟩ := target
      obtain ⟨v, hv, hmin, hwf, hcount, htotal⟩ := evictionTarget_spec hs htarget
      obtain rfl := variant_sig hv
      refine Or.inr ⟨key, v, rfl, ?_, hv, hmin, hwf, hcount, htotal⟩
      rw [evictionOrder, htarget]
      simp only [hv]

/-- The order of eviction holds every variant once, and no variant before one that expires
sooner. -/
theorem evictionOrder_spec (orders : Nat → IterOrder (String × List Entry)) :
    ∀ (fuel : Nat) (s : State), s.Wf → variantCount s.entries ≤ fuel →
      Enumerates (evictionOrder orders fuel s) s ∧
        (evictionOrder orders fuel s).Pairwise fun p q => p.2.expiresAt ≤ q.2.expiresAt := by
  intro fuel
  induction fuel with
  | zero =>
      intro s hs hfuel
      exact ⟨enumerates_nil hs (variantCount_eq_zero hs (by omega)) IterOrder.stored,
        List.Pairwise.nil⟩
  | succ fuel ih =>
      intro s hs hfuel
      rcases evictionOrder_cases orders fuel hs with
        ⟨-, horder, hempty⟩ | ⟨key, v, -, horder, hv, hmin, hwf, hcount, htotal⟩
      · rw [horder]
        exact ⟨enumerates_nil hs hempty (orders fuel), List.Pairwise.nil⟩
      · obtain ⟨henum, hpair⟩ := ih (s.evictOne key v.varySignature).1 hwf (by omega)
        rw [horder]
        refine ⟨enumerates_cons hs hv htotal henum, List.Pairwise.cons ?_ hpair⟩
        rintro ⟨k, w⟩ hw
        exact hmin k w ((evictOne_variant hs key v.varySignature k w.varySignature w).1
          ((henum.mem k w).1 hw)).1

/-! ## The eviction loop -/

/-- The variants the rounds of a loop take, in order. -/
def takenBy (rounds : List EvictRound) : List (String × Entry) :=
  rounds.filterMap fun r => (r.before.variant r.key r.sig).map fun v => (r.key, v)

/-- The loop takes a beginning of the order of eviction, just enough for the rest to leave room,
and leaves the rest. -/
theorem evictLoop_shed {maxBytes size : Nat} (hsize : size ≤ maxBytes)
    (orders : Nat → IterOrder (String × List Entry)) :
    ∀ (fuel : Nat) (s : State), s.Wf → variantCount s.entries ≤ fuel →
      takenBy (evictRounds maxBytes size orders fuel s) =
          (shed variantBytes (maxBytes - size) (evictionOrder orders fuel s)).1 ∧
        Enumerates (shed variantBytes (maxBytes - size) (evictionOrder orders fuel s)).2
          (evictLoop maxBytes size orders fuel s).2.1 := by
  intro fuel
  induction fuel with
  | zero =>
      intro s hs hfuel
      exact ⟨rfl, (evictionOrder_spec orders 0 s hs hfuel).1⟩
  | succ fuel ih =>
      intro s hs hfuel
      obtain ⟨henum, -⟩ := evictionOrder_spec orders (fuel + 1) s hs hfuel
      by_cases hfull : maxBytes < s.totalBytes + size
      · rcases evictionOrder_cases orders fuel hs with
          ⟨-, -, hempty⟩ | ⟨key, v, htarget, horder, hv, -, hwf, hcount, -⟩
        -- an empty store has room
        · have hzero := (enumerates_nil hs hempty (orders fuel)).total
          rw [totalWeight_nil] at hzero
          omega
        · obtain ⟨htaken, hleft⟩ := ih (s.evictOne key v.varySignature).1 hwf (by omega)
          have hroom : maxBytes - size < totalWeight variantBytes
              ((key, v) :: evictionOrder orders fuel (s.evictOne key v.varySignature).1) := by
            rw [← horder, henum.total]
            omega
          rw [horder, shed, if_pos hroom]
          simp only [evictRounds, evictLoop, if_pos hfull, htarget]
          refine ⟨?_, hleft⟩
          simp only [takenBy, List.filterMap_cons, hv, Option.map_some]
          exact congrArg ((key, v) :: ·) htaken
      · have hfits : totalWeight variantBytes (evictionOrder orders (fuel + 1) s) ≤
            maxBytes - size := by
          rw [henum.total]
          omega
        rw [shed_of_le hfits]
        simp only [evictRounds, evictLoop, if_neg hfull]
        exact ⟨rfl, henum⟩

/-! ## What a `put` removes -/

/-- The variant has the key and the signature of the entry: it is the one that is replaced. -/
def isPair (key : String) (e : Entry) (p : String × Entry) : Bool :=
  p.1 == key && p.2.varySignature == e.varySignature

/-- The bytes of the variant that an entry replaces. -/
def replacedBytes (s : State) (key : String) (e : Entry) : Nat :=
  ((s.variant key e.varySignature).map entryBytes).getD 0

/-- Another variant than the replaced one is in the first state and not in the second. -/
def Removed (s s' : State) (key : String) (e : Entry) (p : String × Entry) : Prop :=
  s.variant p.1 p.2.varySignature = some p.2 ∧ isPair key e p = false ∧
    s'.variant p.1 p.2.varySignature ≠ some p.2

/-- Another variant than the replaced one is in both states. -/
def Kept (s s' : State) (key : String) (e : Entry) (p : String × Entry) : Prop :=
  s.variant p.1 p.2.varySignature = some p.2 ∧ isPair key e p = false ∧
    s'.variant p.1 p.2.varySignature = some p.2

/-- A `put` evicts in the order of expiry and no other variant than it has to: none if the entry
fits next to all variants it does not replace, and else the last one evicted does not fit
besides. -/
structure MinimalEviction (maxBytes : Nat) (orders : Nat → IterOrder (String × List Entry))
    (s : State) (key : String) (e : Entry) : Prop where
  inOrder : ∀ p q, Removed s (s.put maxBytes orders key e).state key e p →
    Kept s (s.put maxBytes orders key e).state key e q → p.2.expiresAt ≤ q.2.expiresAt
  noNeed : s.totalBytes - replacedBytes s key e + entryBytes e ≤ maxBytes →
    ∀ p, ¬ Removed s (s.put maxBytes orders key e).state key e p
  needed : maxBytes < s.totalBytes - replacedBytes s key e + entryBytes e →
    ∃ p, (others (isPair key e) (takenBy
        (evictRounds maxBytes (entryBytes e) orders (variantCount s.entries) s))).getLast? = some p ∧
      maxBytes < (s.put maxBytes orders key e).state.totalBytes + entryBytes p.2

/-- The variant that the entry replaces is in the way: the entry fits next to some other variant and
those evicted after it, but not with the replaced one besides. -/
def ReplacedInTheWay (maxBytes : Nat) (orders : Nat → IterOrder (String × List Entry))
    (s : State) (key : String) (e : Entry) : Prop :=
  ∃ before p after, evictionOrder orders (variantCount s.entries) s = before ++ p :: after ∧
    isPair key e p = false ∧
    totalWeight variantBytes (others (isPair key e) (p :: after)) + entryBytes e ≤ maxBytes ∧
    maxBytes < totalWeight variantBytes (p :: after) + entryBytes e

theorem isPair_iff {key : String} {e : Entry} {p : String × Entry} :
    isPair key e p = true ↔ p.1 = key ∧ p.2.varySignature = e.varySignature := by
  simp [isPair]

/-- The variants of a store other than the one an entry replaces. -/
theorem Enumerates.others_total {l : List (String × Entry)} {s : State} (h : Enumerates l s)
    (key : String) (e : Entry) :
    totalWeight variantBytes (others (isPair key e) l) + replacedBytes s key e = s.totalBytes := by
  have hsplit : totalWeight variantBytes l = totalWeight variantBytes (others (isPair key e) l) +
      totalWeight variantBytes (l.filter (isPair key e)) := by
    rw [Nat.add_comm, ← totalWeight_append]
    exact ((List.filter_append_perm (isPair key e) l).map variantBytes).sum_eq.symm
  rw [← h.total, hsplit]
  congr 1
  rw [replacedBytes]
  cases hv : s.variant key e.varySignature with
  | none =>
      have hnil : l.filter (isPair key e) = [] := by
        rw [List.filter_eq_nil_iff]
        rintro ⟨k, w⟩ hw hpair
        obtain ⟨rfl, hsig⟩ := isPair_iff.1 hpair
        have hw' := (h.mem k w).1 hw
        rw [hsig, hv] at hw'
        cases hw'
      rw [hnil]
      rfl
  | some o =>
      have hsig := variant_sig hv
      have hone : l.filter (isPair key e) = [(key, o)] := by
        rw [← List.perm_singleton]
        apply (List.perm_ext_iff_of_nodup (h.nodup.filter _) (List.nodup_singleton _)).2
        rintro ⟨k, w⟩
        rw [List.mem_filter, List.mem_singleton, isPair_iff, h.mem]
        constructor
        · rintro ⟨hw, rfl, hwsig⟩
          rw [hwsig, hv] at hw
          rw [Option.some.inj hw]
        · intro heq
          obtain ⟨rfl, rfl⟩ := Prod.mk.inj heq
          exact ⟨by rw [hsig, hv], rfl, hsig⟩
      rw [hone]
      rfl

section Put

variable {maxBytes : Nat} {orders : Nat → IterOrder (String × List Entry)} {s : State}
variable {key : String} {e : Entry}

/-- An accepted `put` is its loop and its insertion. -/
theorem put_state (hfits : entryBytes e ≤ maxBytes) :
    (s.put maxBytes orders key e).state =
      ((evictLoop maxBytes (entryBytes e) orders (variantCount s.entries) s).2.1.insertEntry
        key e).1 := by
  simp only [State.put, if_neg (Nat.not_lt.2 hfits)]

/-- The count after an insertion: the variants that are not replaced, and the entry. -/
theorem insertEntry_total {l : List (String × Entry)} (h : Enumerates l s) :
    (s.insertEntry key e).1.totalBytes =
      totalWeight variantBytes (others (isPair key e) l) + entryBytes e := by
  have hreplaced : ((variantWith e.varySignature (HashMap.getOr s.entries key [])).map
      entryBytes).getD 0 = replacedBytes s key e := by
    rw [replacedBytes, State.variant, HashMap.getOr]
    cases s.entries.lookup key with
    | none => rfl
    | some vs => rfl
  show s.totalBytes - ((variantWith e.varySignature (HashMap.getOr s.entries key [])).map
      entryBytes).getD 0 + entryBytes e = _
  have htotal := h.others_total key e
  rw [hreplaced]
  omega

/-- What a `put` evicts and what it leaves, as a split of the order of eviction. -/
structure PutSplit (maxBytes : Nat) (orders : Nat → IterOrder (String × List Entry)) (s : State)
    (key : String) (e : Entry) (gone left : List (String × Entry)) : Prop where
  shed_eq : shed variantBytes (maxBytes - entryBytes e)
    (evictionOrder orders (variantCount s.entries) s) = (gone, left)
  taken : takenBy (evictRounds maxBytes (entryBytes e) orders (variantCount s.entries) s) = gone
  removed : ∀ p, Removed s (s.put maxBytes orders key e).state key e p ↔
    p ∈ others (isPair key e) gone
  kept : ∀ p, Kept s (s.put maxBytes orders key e).state key e p ↔ p ∈ others (isPair key e) left
  total : (s.put maxBytes orders key e).state.totalBytes =
    totalWeight variantBytes (others (isPair key e) left) + entryBytes e

theorem mem_others {q : String × Entry → Bool} {l : List (String × Entry)} {p : String × Entry} :
    p ∈ others q l ↔ p ∈ l ∧ q p = false := by
  simp [others]

theorem exists_putSplit (hs : s.Wf) (hfits : entryBytes e ≤ maxBytes)
    (orders : Nat → IterOrder (String × List Entry)) (key : String) :
    ∃ gone left, PutSplit maxBytes orders s key e gone left := by
  obtain ⟨henum, -⟩ := evictionOrder_spec orders (variantCount s.entries) s hs le_rfl
  obtain ⟨htaken, hleft⟩ := evictLoop_shed hfits orders (variantCount s.entries) s hs le_rfl
  have happend := shed_append variantBytes (maxBytes - entryBytes e)
    (evictionOrder orders (variantCount s.entries) s)
  generalize hshed : shed variantBytes (maxBytes - entryBytes e)
    (evictionOrder orders (variantCount s.entries) s) = parts at htaken hleft happend
  obtain ⟨gone, left⟩ := parts
  dsimp only at htaken hleft happend
  -- another variant is there after the `put` exactly if the loop left it
  have hthere : ∀ p, isPair key e p = false →
      ((s.put maxBytes orders key e).state.variant p.1 p.2.varySignature = some p.2 ↔
        p ∈ left) := by
    rintro ⟨k, v⟩ hpair
    have hne : ¬ (k = key ∧ v.varySignature = e.varySignature) := by
      intro h
      exact Bool.noConfusion ((isPair_iff.2 h).symm.trans hpair)
    rw [put_variant hs orders key hfits, if_neg hne, hleft.mem]
  have hbefore : ∀ p, s.variant p.1 p.2.varySignature = some p.2 ↔ p ∈ gone ∨ p ∈ left := by
    rintro ⟨k, v⟩
    rw [← henum.mem, ← happend, List.mem_append]
  have hdisjoint : ∀ p, p ∈ gone → p ∉ left := by
    have hnodup := henum.nodup
    rw [← happend] at hnodup
    exact fun p hgone hleft => (List.nodup_append'.1 hnodup).2.2 hgone hleft
  refine ⟨gone, left, hshed, htaken, ?_, ?_, ?_⟩
  · intro p
    rw [mem_others, Removed, hbefore]
    constructor
    · rintro ⟨hin, hpair, hgone⟩
      refine ⟨hin.resolve_right fun hl => hgone ((hthere p hpair).2 hl), hpair⟩
    · rintro ⟨hgone, hpair⟩
      exact ⟨Or.inl hgone, hpair, fun h => hdisjoint p hgone ((hthere p hpair).1 h)⟩
  · intro p
    rw [mem_others, Kept, hbefore]
    constructor
    · rintro ⟨-, hpair, hkept⟩
      exact ⟨(hthere p hpair).1 hkept, hpair⟩
    · rintro ⟨hl, hpair⟩
      exact ⟨Or.inr hl, hpair, (hthere p hpair).2 hl⟩
  · rw [put_state hfits]
    exact insertEntry_total hleft

end Put

/-- The parts of `MinimalEviction` about the number of variants, said of the split. -/
theorem PutSplit.minimal_iff {maxBytes : Nat} {orders : Nat → IterOrder (String × List Entry)}
    {s : State} {key : String} {e : Entry} {gone left : List (String × Entry)} (hs : s.Wf)
    (hfits : entryBytes e ≤ maxBytes) (h : PutSplit maxBytes orders s key e gone left) :
    MinimalEviction maxBytes orders s key e ↔
      ShedMinimal variantBytes (maxBytes - entryBytes e) (isPair key e)
        (evictionOrder orders (variantCount s.entries) s) gone left := by
  obtain ⟨henum, hsorted⟩ := evictionOrder_spec orders (variantCount s.entries) s hs le_rfl
  have htotal := henum.others_total key e
  constructor
  · intro hm
    constructor
    · intro hroom
      have hnone := hm.noNeed (by omega)
      apply List.eq_nil_iff_forall_not_mem.2
      intro p hp
      exact hnone p ((h.removed p).2 hp)
    · intro hroom
      obtain ⟨p, hp, hlast⟩ := hm.needed (by omega)
      rw [h.taken] at hp
      rw [h.total] at hlast
      refine ⟨p, hp, ?_⟩
      show _ < entryBytes p.2 + _
      omega
  · intro hm
    refine ⟨?_, ?_, ?_⟩
    -- the order of eviction is the order of expiry
    · intro p q hp hq
      have happend := shed_append variantBytes (maxBytes - entryBytes e)
        (evictionOrder orders (variantCount s.entries) s)
      rw [h.shed_eq] at happend
      rw [← happend] at hsorted
      exact (List.pairwise_append.1 hsorted).2.2 p (mem_others.1 ((h.removed p).1 hp)).1 q
        (mem_others.1 ((h.kept q).1 hq)).1
    · intro hroom p hp
      have hnil := hm.noNeed (by omega)
      rw [h.removed, hnil] at hp
      exact absurd hp List.not_mem_nil
    · intro hroom
      obtain ⟨p, hp, hlast⟩ := hm.needed (by omega)
      refine ⟨p, by rw [h.taken, hp], ?_⟩
      rw [h.total]
      have hlast' : maxBytes - entryBytes e < entryBytes p.2 +
          totalWeight variantBytes (others (isPair key e) left) := hlast
      omega

/-- **Eviction.** In every reachable store, a `put` that is accepted evicts in the order of expiry
and no more than it has to, exactly if the variant that it replaces is not in the way. -/
theorem minimalEviction_iff (maxBytes : Nat) (calls : List Call)
    (orders : Nat → IterOrder (String × List Entry)) (key : String) (e : Entry)
    (hfits : entryBytes e ≤ maxBytes) :
    MinimalEviction maxBytes orders (runCalls maxBytes calls) key e ↔
      ¬ ReplacedInTheWay maxBytes orders (runCalls maxBytes calls) key e := by
  have hs := (runCalls_inv maxBytes calls).toWf
  generalize runCalls maxBytes calls = s at hs
  obtain ⟨gone, left, hsplit⟩ := exists_putSplit hs hfits orders key
  have hminimal := shedMinimal_iff variantBytes (maxBytes - entryBytes e) (isPair key e)
    (evictionOrder orders (variantCount s.entries) s)
  rw [hsplit.shed_eq] at hminimal
  rw [hsplit.minimal_iff hs hfits, hminimal, ReplacedInTheWay]
  constructor
  · rintro h ⟨before, p, after, horder, hpair, hothers, hall⟩
    have hle := h before p after horder hpair (by omega)
    omega
  · intro h before p after horder hpair hothers
    by_contra hall
    exact h ⟨before, p, after, horder, hpair, by omega, by omega⟩

/-- A response of the given size that does not vary. -/
def sizedEntry (size expiresAt : Nat) : Entry :=
  { status := 200, headers := [], body := List.replicate size 0, expiresAt := expiresAt,
    varyHeaders := [], varySignature := "" }

/-- Two responses stored under two keys, the first of which expires first. -/
def twoPuts : List Call :=
  [.put (fun _ => IterOrder.stored) "a" (sizedEntry 4 1),
    .put (fun _ => IterOrder.stored) "k" (sizedEntry 5 9)]

/-- A store of ten bytes with four bytes under `a` and five under `k`: five bytes that replace those
under `k` would fit next to the four, which are evicted all the same. -/
theorem replacement_evicts_without_need :
    ¬ MinimalEviction 10 (fun _ => IterOrder.stored) (runCalls 10 twoPuts) "k"
      (sizedEntry 5 12) := by
  intro h
  exact h.noNeed (by decide) ("a", sizedEntry 4 1) ⟨by decide, by decide, by decide⟩

/-- The same bytes under a key of their own make room by evicting the four, as they have to. -/
theorem minimalEviction_iff_new :
    entryBytes (sizedEntry 5 12) ≤ 10 ∧
      MinimalEviction 10 (fun _ => IterOrder.stored) (runCalls 10 twoPuts) "b"
        (sizedEntry 5 12) := by
  refine ⟨by decide, (minimalEviction_iff 10 twoPuts (fun _ => IterOrder.stored) "b"
    (sizedEntry 5 12) (by decide)).2 ?_⟩
  rintro ⟨before, p, after, horder, -, hothers, hall⟩
  -- nothing is replaced, so the others are all there are
  have hnone : ∀ q ∈ evictionOrder (fun _ => IterOrder.stored)
      (variantCount (runCalls 10 twoPuts).entries) (runCalls 10 twoPuts),
      isPair "b" (sizedEntry 5 12) q = false := by decide
  have hsame : others (isPair "b" (sizedEntry 5 12)) (p :: after) = p :: after := by
    apply List.filter_eq_self.2
    intro q hq
    rw [hnone q (by rw [horder]; exact List.mem_append_right before hq)]
    rfl
  rw [hsame] at hothers
  omega

/-! ## Lookup after a `put` -/

/-- Another variant of the key hides the entry from the request: it matches the request, has not
expired, and stays, since the entry fits next to it and all that are evicted after it. -/
def Hidden (maxBytes : Nat) (orders : Nat → IterOrder (String × List Entry)) (s : State)
    (key : String) (e : Entry) (req : HeaderMap) (now : Nat) : Prop :=
  ∃ before v after,
    evictionOrder orders (variantCount s.entries) s = before ++ (key, v) :: after ∧
      v.varySignature ≠ e.varySignature ∧ now < v.expiresAt ∧
      buildSignature req v.varyHeaders = v.varySignature ∧
      totalWeight variantBytes ((key, v) :: after) + entryBytes e ≤ maxBytes

theorem found_of_lookup {s : State} {key : String} {vs : List Entry} {now : Nat} {req : HeaderMap}
    (h : s.entries.lookup key = some vs) :
    (s.get now key req).found = findVariant req (fresh now vs) := by
  simp only [State.get, h]

/-- The entry that was just added is found unless a variant before it is. -/
theorem findVariant_concat {now : Nat} {req : HeaderMap} {vs : List Entry} {e : Entry}
    (hsig : e.varySignature = buildSignature req e.varyHeaders) (hnow : now < e.expiresAt)
    (he : e ∉ vs) :
    findVariant req (fresh now (vs ++ [e])) = some e ↔
      ¬ ∃ v ∈ vs, now < v.expiresAt ∧ buildSignature req v.varyHeaders = v.varySignature := by
  have hlast : fresh now [e] = [e] := by simp [fresh, hnow]
  rw [findVariant, fresh, List.filter_append, ← fresh, ← fresh, hlast, List.find?_append]
  cases hfind : (fresh now vs).find? fun v =>
      buildSignature req v.varyHeaders == v.varySignature with
  | some v =>
      obtain ⟨hv, hfresh⟩ := List.mem_filter.1 (List.mem_of_find?_eq_some hfind)
      have hmatch := List.find?_some hfind
      apply iff_of_false
      · intro heq
        obtain rfl := Option.some.inj heq
        exact he hv
      · exact fun h => h ⟨v, hv, by simpa using hfresh, by simpa using hmatch⟩
  | none =>
      apply iff_of_true
      · simp [hsig]
      · rintro ⟨v, hv, hfresh, hmatch⟩
        have hno := List.find?_eq_none.1 hfind v (List.mem_filter.2 ⟨hv, by simpa using hfresh⟩)
        exact hno (by simpa using hmatch)

/-- The variants under a key, absent or not. -/
theorem getOr_spec {s : State} (hs : s.Wf) (key : String) :
    ((HashMap.getOr s.entries key []).map Entry.varySignature).Nodup ∧
      ∀ v, v ∈ HashMap.getOr s.entries key [] ↔ s.variant key v.varySignature = some v := by
  rw [HashMap.getOr]
  cases hlookup : s.entries.lookup key with
  | none =>
      refine ⟨List.nodup_nil, ?_⟩
      intro v
      rw [State.variant, hlookup]
      exact iff_of_false List.not_mem_nil (by simp)
  | some vs =>
      refine ⟨hs.distinct key vs hlookup, ?_⟩
      intro v
      rw [variant_of_lookup hlookup, variantWith_eq_some (hs.distinct key vs hlookup)]
      exact (and_iff_left rfl).symm

/-- **The newest response.** In every reachable store, an entry that a `put` accepts is found by a
lookup with the request it was made for, before it expires, exactly if no other variant of its key
hides it. -/
theorem newest_found_iff (maxBytes : Nat) (calls : List Call)
    (orders : Nat → IterOrder (String × List Entry)) (key : String) (e : Entry) (req : HeaderMap)
    (now : Nat) (hfits : entryBytes e ≤ maxBytes)
    (hsig : e.varySignature = buildSignature req e.varyHeaders) (hnow : now < e.expiresAt) :
    (((runCalls maxBytes calls).put maxBytes orders key e).state.get now key req).found = some e ↔
      ¬ Hidden maxBytes orders (runCalls maxBytes calls) key e req now := by
  have hs := (runCalls_inv maxBytes calls).toWf
  generalize runCalls maxBytes calls = s at hs
  obtain ⟨-, hleft⟩ := evictLoop_shed hfits orders (variantCount s.entries) s hs le_rfl
  obtain ⟨-, hwf, -, -⟩ := evictLoop_spec hfits orders (variantCount s.entries) s hs le_rfl
  rw [put_state hfits]
  generalize (evictLoop maxBytes (entryBytes e) orders (variantCount s.entries) s).2.1 = t
    at hleft hwf
  obtain ⟨hnodup, hmem⟩ := getOr_spec hwf key
  have hlookup : (t.insertEntry key e).1.entries.lookup key =
      some (withoutVariant e.varySignature (HashMap.getOr t.entries key []) ++ [e]) := by
    show (t.entries.insert key _).lookup key = _
    rw [HashMap.lookup_insert_eq, if_pos rfl]
  have hother : e ∉ withoutVariant e.varySignature (HashMap.getOr t.entries key []) :=
    fun h => ((mem_withoutVariant hnodup).1 h).2 rfl
  rw [found_of_lookup hlookup, findVariant_concat hsig hnow hother, not_iff_not]
  -- the other variants of the key that the loop left
  have hstays : ∀ v, v ∈ withoutVariant e.varySignature (HashMap.getOr t.entries key []) ↔
      (∃ before after, evictionOrder orders (variantCount s.entries) s =
          before ++ (key, v) :: after ∧
        totalWeight variantBytes ((key, v) :: after) ≤ maxBytes - entryBytes e) ∧
        v.varySignature ≠ e.varySignature := by
    intro v
    rw [mem_withoutVariant hnodup, hmem, ← hleft.mem, mem_shed_iff]
  constructor
  · rintro ⟨v, hv, hfresh, hmatch⟩
    obtain ⟨⟨before, after, horder, hroom⟩, hne⟩ := (hstays v).1 hv
    exact ⟨before, v, after, horder, hne, hfresh, hmatch, by omega⟩
  · rintro ⟨before, v, after, horder, hne, hfresh, hmatch, hroom⟩
    exact ⟨v, (hstays v).2 ⟨⟨before, after, horder, by omega⟩, hne⟩, hfresh, hmatch⟩

/-- A response to a request without an Accept header, which varies with that header. -/
def acceptEntry : Entry :=
  { status := 200, headers := [], body := [111, 107], expiresAt := 9, varyHeaders := ["accept"],
    varySignature := buildSignature ∅ ["accept"] }

/-- A variant that does not vary hides the response stored after it. -/
theorem older_variant_is_found :
    (((runCalls 64 plainRun).put 64 (fun _ => IterOrder.stored) "k" acceptEntry).state.get 3 "k"
      ∅).found ≠ some acceptEntry := by
  decide

/-- Once that variant has expired, the newer one is found. -/
theorem newest_found_iff_later :
    (((runCalls 64 plainRun).put 64 (fun _ => IterOrder.stored) "k" acceptEntry).state.get 7 "k"
      ∅).found = some acceptEntry := by
  apply (newest_found_iff 64 plainRun (fun _ => IterOrder.stored) "k" acceptEntry ∅ 7 (by decide)
    rfl (by decide)).2
  rintro ⟨before, v, after, horder, -, hfresh, -⟩
  have hold : ∀ p ∈ evictionOrder (fun _ => IterOrder.stored)
      (variantCount (runCalls 64 plainRun).entries) (runCalls 64 plainRun),
      p.2.expiresAt ≤ 7 := by decide
  have hv := hold ("k", v) (by rw [horder]; simp)
  exact absurd hfresh (Nat.not_lt.2 hv)

end Elrond.Cache
