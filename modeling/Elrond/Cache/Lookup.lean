import Elrond.Cache.Vary

/-!
# Lookup as a map of variants

What a store is for: a map from pairs of a cache key and a signature to the entry stored last for
the pair. `State.variant` reads this map off the state. The signatures under a key are distinct,
so every operation is one update of the map: `get` forgets the expired variants of its key, a
round of the eviction loop forgets its target, and an accepted `put` sets the pair of its entry.

A stored variant therefore comes from the last `put` for its pair (`lastStored_of_variant`), and
a variant that is no longer there was removed by one of the three updates
(`variant_or_removed`). `lookup_refines_variants` says what this means for `get`.
-/

set_option autoImplicit false

namespace Elrond.Cache

open Elrond.Lib Elrond.Http

/-- The map the store stands for: the entry stored for a cache key and a signature. -/
def State.variant (s : State) (key sig : String) : Option Entry :=
  (s.entries.lookup key).bind (variantWith sig)

/-! ## One list of variants -/

theorem variantWith_sig {sig : String} {vs : List Entry} {e : Entry}
    (h : variantWith sig vs = some e) : e.varySignature = sig := by
  simpa using List.find?_some h

theorem variantWith_eq_none {sig : String} {vs : List Entry} :
    variantWith sig vs = none ↔ sig ∉ vs.map Entry.varySignature := by
  simp [variantWith, List.find?_eq_none]

/-- With distinct signatures, the variant with a signature is the only one. -/
theorem variantWith_of_mem {vs : List Entry} (hnodup : (vs.map Entry.varySignature).Nodup)
    {e : Entry} (he : e ∈ vs) : variantWith e.varySignature vs = some e := by
  have honce : (vs.map Entry.varySignature).count e.varySignature ≤ 1 :=
    List.nodup_iff_count_le_one.1 hnodup _
  have hfirst := (find?_key Entry.varySignature honce).2 he
  rw [variantWith]
  rw [← hfirst]
  congr 1

theorem variantWith_mem {sig : String} {vs : List Entry} {e : Entry}
    (h : variantWith sig vs = some e) : e ∈ vs :=
  List.mem_of_find?_eq_some h

/-- The variant with a signature, said as membership. -/
theorem variantWith_eq_some {sig : String} {vs : List Entry}
    (hnodup : (vs.map Entry.varySignature).Nodup) {e : Entry} :
    variantWith sig vs = some e ↔ e ∈ vs ∧ e.varySignature = sig := by
  constructor
  · exact fun h => ⟨variantWith_mem h, variantWith_sig h⟩
  · rintro ⟨he, rfl⟩
    exact variantWith_of_mem hnodup he

/-- A sublist has the variant of a signature exactly if it kept it. -/
theorem variantWith_sublist {sig : String} {vs vs' : List Entry}
    (hnodup : (vs.map Entry.varySignature).Nodup) (hsub : vs'.Sublist vs) {e : Entry} :
    variantWith sig vs' = some e ↔ variantWith sig vs = some e ∧ e ∈ vs' := by
  rw [variantWith_eq_some hnodup, variantWith_eq_some ((hsub.map _).nodup hnodup)]
  constructor
  · rintro ⟨he, hsig⟩
    exact ⟨⟨hsub.subset he, hsig⟩, he⟩
  · rintro ⟨⟨-, hsig⟩, he⟩
    exact ⟨he, hsig⟩

theorem mem_withoutVariant {sig : String} {vs : List Entry}
    (hnodup : (vs.map Entry.varySignature).Nodup) {e : Entry} :
    e ∈ withoutVariant sig vs ↔ e ∈ vs ∧ e.varySignature ≠ sig := by
  constructor
  · intro he
    refine ⟨(withoutVariant_sublist sig vs).subset he, ?_⟩
    rintro rfl
    exact notMem_withoutVariant hnodup (List.mem_map_of_mem he)
  · rintro ⟨he, hsig⟩
    exact (List.mem_eraseP_of_neg (by simpa using hsig)).2 he

/-! ## Each operation updates the map -/

theorem variant_setVariants (s : State) (key : String) (vs : List Entry) (total : Nat)
    (k sig : String) :
    (State.mk (setVariants s.entries key vs) total).variant k sig =
      if k = key then variantWith sig vs else s.variant k sig := by
  show ((setVariants s.entries key vs).lookup k).bind (variantWith sig) = _
  rw [lookup_setVariants]
  by_cases hk : k = key
  · rw [if_pos hk, if_pos hk]
    cases vs with
    | nil => rfl
    | cons v vs => rfl
  · rw [if_neg hk, if_neg hk]
    rfl

theorem variant_of_lookup {s : State} {key sig : String} {vs : List Entry}
    (h : s.entries.lookup key = some vs) : s.variant key sig = variantWith sig vs := by
  rw [State.variant, h]
  rfl

/-- `get` forgets the variants of its key that have expired. -/
theorem get_variant {s : State} (hs : s.Wf) (now : Nat) (key : String) (req : HeaderMap)
    (k sig : String) (e : Entry) :
    (s.get now key req).state.variant k sig = some e ↔
      s.variant k sig = some e ∧ (k = key → now < e.expiresAt) := by
  rw [State.get]
  cases hlookup : s.entries.lookup key with
  | none =>
      constructor
      · intro h
        refine ⟨h, ?_⟩
        rintro rfl
        rw [State.variant, hlookup] at h
        cases h
      · exact fun h => h.1
  | some vs =>
      show (State.mk (setVariants s.entries key (fresh now vs)) _).variant k sig = some e ↔ _
      rw [variant_setVariants]
      by_cases hk : k = key
      · subst hk
        rw [if_pos rfl, variant_of_lookup hlookup, fresh,
          variantWith_sublist (hs.distinct k vs hlookup) List.filter_sublist, List.mem_filter,
          decide_eq_true_eq]
        constructor
        · rintro ⟨h, -, hnow⟩
          exact ⟨h, fun _ => hnow⟩
        · rintro ⟨h, hnow⟩
          exact ⟨h, variantWith_mem h, hnow rfl⟩
      · rw [if_neg hk]
        exact ⟨fun h => ⟨h, fun heq => absurd heq hk⟩, fun h => h.1⟩

/-- A round of the eviction loop forgets its target. -/
theorem evictOne_variant {s : State} (hs : s.Wf) (key sig k sig' : String) (e : Entry) :
    (s.evictOne key sig).1.variant k sig' = some e ↔
      s.variant k sig' = some e ∧ ¬ (k = key ∧ sig' = sig) := by
  rw [State.evictOne]
  cases hlookup : s.entries.lookup key with
  | none =>
      constructor
      · intro h
        refine ⟨h, ?_⟩
        rintro ⟨rfl, -⟩
        rw [State.variant, hlookup] at h
        cases h
      · exact fun h => h.1
  | some vs =>
      show (State.mk (setVariants s.entries key (withoutVariant sig vs)) _).variant k sig' =
        some e ↔ _
      rw [variant_setVariants]
      by_cases hk : k = key
      · subst hk
        have hnodup := hs.distinct k vs hlookup
        rw [if_pos rfl, variant_of_lookup hlookup,
          variantWith_sublist hnodup (withoutVariant_sublist sig vs), mem_withoutVariant hnodup]
        constructor
        · rintro ⟨h, -, hne⟩
          exact ⟨h, fun hboth => hne ((variantWith_sig h).trans hboth.2)⟩
        · rintro ⟨h, hne⟩
          exact ⟨h, variantWith_mem h, fun hsig => hne ⟨rfl, (variantWith_sig h).symm.trans hsig⟩⟩
      · rw [if_neg hk]
        exact ⟨fun h => ⟨h, fun hboth => hk hboth.1⟩, fun h => h.1⟩

/-- The insertion at the end of `put` sets the pair of its entry. -/
theorem insertEntry_variant {s : State} (hs : s.Wf) (key : String) (entry : Entry)
    (k sig : String) (e : Entry) :
    (s.insertEntry key entry).1.variant k sig = some e ↔
      if k = key ∧ sig = entry.varySignature then e = entry else s.variant k sig = some e := by
  -- The variants under the key, absent or not.
  have hlist : s.variant key sig = variantWith sig (HashMap.getOr s.entries key []) := by
    rw [State.variant, HashMap.getOr]
    cases s.entries.lookup key with
    | none => rfl
    | some vs => rfl
  have hnodup : ((HashMap.getOr s.entries key []).map Entry.varySignature).Nodup := by
    rw [HashMap.getOr]
    cases hlookup : s.entries.lookup key with
    | none => exact List.nodup_nil
    | some vs => exact hs.distinct key vs hlookup
  show ((s.entries.insert key _).lookup k).bind (variantWith sig) = some e ↔ _
  rw [HashMap.lookup_insert_eq]
  by_cases hk : k = key
  · subst hk
    rw [if_pos rfl, Option.bind_some, hlist]
    rw [variantWith]
    rw [List.find?_append]
    by_cases hsig : sig = entry.varySignature
    -- The old variant of the pair was removed first, so the new one is found.
    · subst hsig
      have hnone : (withoutVariant entry.varySignature (HashMap.getOr s.entries k [])).find?
          (fun v => v.varySignature == entry.varySignature) = none :=
        variantWith_eq_none.2 (notMem_withoutVariant hnodup)
      rw [hnone, if_pos ⟨rfl, rfl⟩]
      simp [eq_comm]
    · have hother : ([entry].find? fun v => v.varySignature == sig) = none := by
        simpa using fun h => hsig h.symm
      rw [hother, Option.or_none, if_neg (fun hboth => hsig hboth.2)]
      rw [← variantWith, variantWith_sublist hnodup (withoutVariant_sublist _ _),
        mem_withoutVariant hnodup]
      refine ⟨fun h => h.1, fun h => ⟨h, variantWith_mem h, ?_⟩⟩
      exact fun heq => hsig ((variantWith_sig h).symm.trans heq)
  · rw [if_neg hk, if_neg (fun hboth => hk hboth.1)]
    rfl

/-! ## The rounds of the eviction loop -/

/-- One round of the eviction loop: the state it starts in and the variant it removes. -/
structure EvictRound where
  before : State
  key : String
  sig : String

/-- The rounds `evictLoop` goes through. -/
def evictRounds (maxBytes size : Nat) (orders : Nat → IterOrder (String × List Entry)) :
    Nat → State → List EvictRound
  | 0, _ => []
  | fuel + 1, s =>
      if maxBytes < s.totalBytes + size then
        match evictionTarget (HashMap.iter s.entries (orders fuel)) with
        | none => []
        | some (key, sig) =>
            ⟨s, key, sig⟩ :: evictRounds maxBytes size orders fuel (s.evictOne key sig).1
      else []

/-- The loop does nothing but its rounds. -/
theorem evictLoop_eq_rounds (maxBytes size : Nat)
    (orders : Nat → IterOrder (String × List Entry)) (fuel : Nat) (s : State) :
    (evictLoop maxBytes size orders fuel s).2.1 =
      (evictRounds maxBytes size orders fuel s).foldl (fun t r => (t.evictOne r.key r.sig).1)
        s := by
  induction fuel generalizing s with
  | zero => rfl
  | succ fuel ih =>
      by_cases hfull : maxBytes < s.totalBytes + size
      · simp only [evictLoop, evictRounds, if_pos hfull]
        cases htarget : evictionTarget (HashMap.iter s.entries (orders fuel)) with
        | none => rfl
        | some target => exact ih _
      · simp only [evictLoop, evictRounds, if_neg hfull]
        rfl

/-- Every round starts in a state without room for the new entry. -/
theorem evictRounds_full {maxBytes size : Nat} {orders : Nat → IterOrder (String × List Entry)}
    {fuel : Nat} {s : State} {r : EvictRound} (h : r ∈ evictRounds maxBytes size orders fuel s) :
    maxBytes < r.before.totalBytes + size := by
  induction fuel generalizing s with
  | zero => cases h
  | succ fuel ih =>
      rw [evictRounds] at h
      split at h
      · rename_i hfull
        split at h
        · cases h
        · rcases List.mem_cons.1 h with rfl | h
          · exact hfull
          · exact ih h
      · cases h

/-- What the loop leaves is what no round removed. -/
theorem evictLoop_variant {maxBytes size : Nat} {orders : Nat → IterOrder (String × List Entry)}
    (fuel : Nat) {s : State} (hs : s.Wf) (k sig : String) (e : Entry) :
    ((evictLoop maxBytes size orders fuel s).2.1.variant k sig = some e →
        s.variant k sig = some e) ∧
      (s.variant k sig = some e →
        (evictLoop maxBytes size orders fuel s).2.1.variant k sig = some e ∨
          ∃ r ∈ evictRounds maxBytes size orders fuel s,
            r.key = k ∧ r.sig = sig ∧ r.before.variant k sig = some e) := by
  rw [evictLoop_eq_rounds]
  induction fuel generalizing s with
  | zero => exact ⟨id, Or.inl⟩
  | succ fuel ih =>
      by_cases hfull : maxBytes < s.totalBytes + size
      · cases htarget : evictionTarget (HashMap.iter s.entries (orders fuel)) with
        | none =>
            simp only [evictRounds, if_pos hfull, htarget]
            exact ⟨id, Or.inl⟩
        | some target =>
            obtain ⟨key, sig'⟩ := target
            obtain ⟨vs, hmem, hsig⟩ := evictionTarget_mem htarget
            obtain ⟨hwf, -, -⟩ := evictOne_spec hs (HashMap.mem_iter.1 hmem) hsig
            obtain ⟨hback, hforth⟩ := ih hwf
            have hone := evictOne_variant hs key sig' k sig e
            simp only [evictRounds, if_pos hfull, htarget, List.foldl_cons]
            refine ⟨fun h => (hone.1 (hback h)).1, fun h => ?_⟩
            -- The first round removes the pair, or a later one does, or it is left.
            by_cases hhit : k = key ∧ sig = sig'
            · obtain ⟨rfl, rfl⟩ := hhit
              exact Or.inr ⟨_, List.mem_cons_self, rfl, rfl, h⟩
            · rcases hforth (hone.2 ⟨h, hhit⟩) with h | ⟨r, hr, hround⟩
              · exact Or.inl h
              · exact Or.inr ⟨r, List.mem_cons_of_mem _ hr, hround⟩
      · simp only [evictRounds, if_neg hfull]
        exact ⟨id, Or.inl⟩

/-! ## What a call does to one variant -/

/-- The call stores an entry for a cache key and a signature: it is a `put` that is not turned
away for its size. -/
def Call.Stores (maxBytes : Nat) (key sig : String) : Call → Prop
  | .get _ _ _ => False
  | .put _ k e => k = key ∧ e.varySignature = sig ∧ entryBytes e ≤ maxBytes

/-- A call in the state `s` removes the entry `e` stored under `key`: it replaces it, it looks the
key up at a time when the entry has expired, or it evicts it in a round that starts without room
for the entry to be stored. -/
inductive Call.Removes (maxBytes : Nat) (s : State) (key : String) (e : Entry) : Call → Prop
  | replaced {c : Call} (h : c.Stores maxBytes key e.varySignature) : Removes maxBytes s key e c
  | expired {now : Nat} {req : HeaderMap} (h : e.expiresAt ≤ now) :
      Removes maxBytes s key e (.get now key req)
  | evicted {orders : Nat → IterOrder (String × List Entry)} {key' : String} {e' : Entry}
      (hfits : entryBytes e' ≤ maxBytes) {r : EvictRound}
      (hround : r ∈ evictRounds maxBytes (entryBytes e') orders (variantCount s.entries) s)
      (hfull : maxBytes < r.before.totalBytes + entryBytes e')
      (hkey : r.key = key) (hsig : r.sig = e.varySignature)
      (hthere : r.before.variant key e.varySignature = some e) :
      Removes maxBytes s key e (.put orders key' e')

theorem variant_sig {s : State} {key sig : String} {e : Entry} (h : s.variant key sig = some e) :
    e.varySignature = sig := by
  obtain ⟨vs, -, hvs⟩ := Option.bind_eq_some_iff.1 h
  exact variantWith_sig hvs

/-- An accepted `put`, taken apart into its loop and its insertion. -/
theorem put_variant {maxBytes : Nat} {s : State} (hs : s.Wf)
    (orders : Nat → IterOrder (String × List Entry)) (key : String) {entry : Entry}
    (hfits : entryBytes entry ≤ maxBytes) (k sig : String) (e : Entry) :
    (s.put maxBytes orders key entry).state.variant k sig = some e ↔
      if k = key ∧ sig = entry.varySignature then e = entry
      else (evictLoop maxBytes (entryBytes entry) orders (variantCount s.entries) s).2.1.variant
        k sig = some e := by
  obtain ⟨-, hwf, -, -⟩ := evictLoop_spec hfits orders (variantCount s.entries) s hs le_rfl
  have hput : (s.put maxBytes orders key entry).state =
      ((evictLoop maxBytes (entryBytes entry) orders
        (variantCount s.entries) s).2.1.insertEntry key entry).1 := by
    simp only [State.put, if_neg (Nat.not_lt.2 hfits)]
  rw [hput, insertEntry_variant hwf]

theorem put_rejected {maxBytes : Nat} {s : State}
    {orders : Nat → IterOrder (String × List Entry)} {key : String} {entry : Entry}
    (hbig : ¬ entryBytes entry ≤ maxBytes) : (s.put maxBytes orders key entry).state = s := by
  simp only [State.put, if_pos (Nat.not_le.1 hbig)]

/-- A variant after a call was stored by the call, or was there before and the call stored
nothing for its pair. -/
theorem variant_next {maxBytes : Nat} {s : State} (hs : s.Wf) (c : Call) {key sig : String}
    {e : Entry} (h : (c.next maxBytes s).variant key sig = some e) :
    (∃ orders, c = .put orders key e ∧ e.varySignature = sig ∧ entryBytes e ≤ maxBytes) ∨
      (s.variant key sig = some e ∧ ¬ c.Stores maxBytes key sig) := by
  cases c with
  | get now k req => exact Or.inr ⟨((get_variant hs now k req key sig e).1 h).1, id⟩
  | put orders k entry =>
      by_cases hfits : entryBytes entry ≤ maxBytes
      · have hput := (put_variant hs orders k hfits key sig e).1 h
        split at hput
        · rename_i hpair
          obtain ⟨rfl, rfl⟩ := hpair
          subst hput
          exact Or.inl ⟨orders, rfl, rfl, hfits⟩
        · rename_i hpair
          refine Or.inr ⟨(evictLoop_variant _ hs key sig e).1 hput, ?_⟩
          rintro ⟨hk, hsig, -⟩
          exact hpair ⟨hk.symm, hsig.symm⟩
      · have hsame : Call.next maxBytes s (.put orders k entry) = s := put_rejected hfits
        rw [hsame] at h
        exact Or.inr ⟨h, fun hst => hfits hst.2.2⟩

/-- A variant before a call is there after it, unless the call removed it. -/
theorem variant_kept {maxBytes : Nat} {s : State} (hs : s.Wf) (c : Call) {key : String}
    {e : Entry} (h : s.variant key e.varySignature = some e) :
    (c.next maxBytes s).variant key e.varySignature = some e ∨ c.Removes maxBytes s key e := by
  cases c with
  | get now k req =>
      by_cases hgone : key = k ∧ e.expiresAt ≤ now
      · obtain ⟨rfl, hexp⟩ := hgone
        exact Or.inr (.expired hexp)
      · refine Or.inl ((get_variant hs now k req key _ e).2 ⟨h, fun hk => ?_⟩)
        exact Nat.lt_of_not_le fun hexp => hgone ⟨hk, hexp⟩
  | put orders k entry =>
      by_cases hfits : entryBytes entry ≤ maxBytes
      · by_cases hpair : key = k ∧ e.varySignature = entry.varySignature
        · exact Or.inr (.replaced ⟨hpair.1.symm, hpair.2.symm, hfits⟩)
        · rcases (evictLoop_variant (variantCount s.entries) hs key e.varySignature e).2 h with
            hleft | ⟨r, hr, hkey, hsig, hthere⟩
          · refine Or.inl ((put_variant hs orders k hfits key _ e).2 ?_)
            rw [if_neg hpair]
            exact hleft
          · exact Or.inr (.evicted hfits hr (evictRounds_full hr) hkey hsig hthere)
      · refine Or.inl ?_
        have hsame : Call.next maxBytes s (.put orders k entry) = s := put_rejected hfits
        rw [hsame]
        exact h

/-! ## Every run -/

theorem runCalls_concat (maxBytes : Nat) (calls : List Call) (c : Call) :
    runCalls maxBytes (calls ++ [c]) = c.next maxBytes (runCalls maxBytes calls) :=
  run_concat _ _ calls c

/-- The last accepted `put` of the run for the key and the signature of `e` stored `e`. -/
def LastStored (maxBytes : Nat) (calls : List Call) (key : String) (e : Entry) : Prop :=
  ∃ pre orders post, calls = pre ++ .put orders key e :: post ∧ entryBytes e ≤ maxBytes ∧
    ∀ c ∈ post, ¬ c.Stores maxBytes key e.varySignature

/-- Every variant was stored by the last accepted `put` for its pair. -/
theorem lastStored_of_variant (maxBytes : Nat) (calls : List Call) {key sig : String} {e : Entry}
    (h : (runCalls maxBytes calls).variant key sig = some e) : LastStored maxBytes calls key e := by
  -- Induction from the end: the last call stored the variant or left it alone.
  induction calls using List.reverseRecOn with
  | nil => cases h
  | append_singleton calls c ih =>
      rw [runCalls_concat] at h
      have hwf := (runCalls_inv maxBytes calls).toWf
      rcases variant_next hwf c h with ⟨orders, rfl, -, hfits⟩ | ⟨hbefore, hother⟩
      · exact ⟨calls, orders, [], rfl, hfits, by simp⟩
      · obtain ⟨pre, orders, post, rfl, hfits, hlast⟩ := ih hbefore
        refine ⟨pre, orders, post ++ [c], by simp, hfits, ?_⟩
        intro d hd
        rcases List.mem_append.1 hd with hd | hd
        · exact hlast d hd
        · obtain rfl := List.mem_singleton.1 hd
          rw [variant_sig hbefore]
          exact hother

/-- A variant of a reachable state stays until a call of the run removes it. -/
theorem variant_or_removed (maxBytes : Nat) (pre post : List Call) {key : String} {e : Entry}
    (h : (runCalls maxBytes pre).variant key e.varySignature = some e) :
    (runCalls maxBytes (pre ++ post)).variant key e.varySignature = some e ∨
      ∃ mid c rest, post = mid ++ c :: rest ∧
        c.Removes maxBytes (runCalls maxBytes (pre ++ mid)) key e := by
  induction post generalizing pre with
  | nil =>
      rw [List.append_nil]
      exact Or.inl h
  | cons c post ih =>
      rcases variant_kept (runCalls_inv maxBytes pre).toWf c h with hkept | hremoved
      · rw [← runCalls_concat] at hkept
        rcases ih (pre ++ [c]) hkept with hend | ⟨mid, d, rest, rfl, hd⟩
        · rw [List.append_assoc] at hend
          exact Or.inl hend
        · rw [List.append_assoc] at hd
          exact Or.inr ⟨c :: mid, d, rest, rfl, hd⟩
      · refine Or.inr ⟨[], c, post, rfl, ?_⟩
        rw [List.append_nil]
        exact hremoved

/-- After an accepted `put` its entry is stored. -/
theorem variant_of_put (maxBytes : Nat) (pre : List Call)
    (orders : Nat → IterOrder (String × List Entry)) (key : String) {e : Entry}
    (hfits : entryBytes e ≤ maxBytes) :
    (runCalls maxBytes (pre ++ [.put orders key e])).variant key e.varySignature = some e := by
  rw [runCalls_concat]
  refine (put_variant (runCalls_inv maxBytes pre).toWf orders key hfits key _ e).2 ?_
  rw [if_pos ⟨rfl, rfl⟩]

/-- A miss leaves no fresh variant of the key that matches the request. -/
theorem get_missed {s : State} {now : Nat} {key sig : String} {req : HeaderMap} {e : Entry}
    (h : (s.get now key req).found = none) (hvariant : s.variant key sig = some e)
    (hmatch : buildSignature req e.varyHeaders = e.varySignature) : e.expiresAt ≤ now := by
  obtain ⟨vs, hlookup, hvs⟩ := Option.bind_eq_some_iff.1 hvariant
  by_contra hfresh
  have hfound : (s.get now key req).found = findVariant req (fresh now vs) := by
    simp only [State.get, hlookup]
  have hmem : e ∈ fresh now vs :=
    List.mem_filter.2 ⟨variantWith_mem hvs, decide_eq_true (Nat.lt_of_not_le hfresh)⟩
  rw [hfound, findVariant, List.find?_eq_none] at h
  exact h e hmem (by simp [hmatch])

/-- **Lookup refines the map of variants.** In every run, a lookup that is answered is answered
with the entry of the last accepted `put` for its pair, which is fresh and matches the request;
and a lookup that is not answered finds every matching entry that was ever accepted under its key
expired, or removed by a later call: replaced, expired at an earlier lookup, or evicted to make
room. -/
theorem lookup_refines_variants (maxBytes : Nat) (calls : List Call) (now : Nat) (key : String)
    (req : HeaderMap) :
    (∀ e, ((runCalls maxBytes calls).get now key req).found = some e →
        LastStored maxBytes calls key e ∧ now < e.expiresAt ∧
          buildSignature req e.varyHeaders = e.varySignature) ∧
      (((runCalls maxBytes calls).get now key req).found = none →
        ∀ pre orders e post, calls = pre ++ .put orders key e :: post →
          entryBytes e ≤ maxBytes → buildSignature req e.varyHeaders = e.varySignature →
            e.expiresAt ≤ now ∨
              ∃ mid c rest, post = mid ++ c :: rest ∧
                c.Removes maxBytes (runCalls maxBytes (pre ++ .put orders key e :: mid)) key
                  e) := by
  have hwf := (runCalls_inv maxBytes calls).toWf
  constructor
  · intro e hfound
    obtain ⟨vs, hlookup, hmem, hfresh, hmatch⟩ := get_found hfound
    have hvariant : (runCalls maxBytes calls).variant key e.varySignature = some e := by
      rw [variant_of_lookup hlookup]
      exact variantWith_of_mem (hwf.distinct key vs hlookup) hmem
    exact ⟨lastStored_of_variant maxBytes calls hvariant, hfresh, hmatch⟩
  · intro hmiss pre orders e post hcalls hfits hmatch
    rw [List.append_cons] at hcalls
    subst hcalls
    have hput := variant_of_put maxBytes pre orders key hfits
    rcases variant_or_removed maxBytes _ post hput with hthere | ⟨mid, c, rest, hpost, hremoved⟩
    · exact Or.inl (get_missed hmiss hthere hmatch)
    · refine Or.inr ⟨mid, c, rest, hpost, ?_⟩
      rw [List.append_cons]
      exact hremoved

/-- A response that does not vary and is fresh until the instant 5. -/
def plainEntry : Entry :=
  { status := 200, headers := [], body := [111, 107], expiresAt := 5, varyHeaders := [],
    varySignature := "" }

/-- A run that stores the plain response. -/
def plainRun : List Call := [.put (fun _ => IterOrder.stored) "k" plainEntry]

/-- A lookup before the instant 5 is answered and one after it is not; both are as the map of
variants says. -/
theorem lookup_refines_variants_plain :
    (LastStored 16 plainRun "k" plainEntry ∧ 3 < plainEntry.expiresAt ∧
        buildSignature ∅ plainEntry.varyHeaders = plainEntry.varySignature) ∧
      (plainEntry.expiresAt ≤ 9 ∨
        ∃ (mid : List Call) (c : Call) (rest : List Call), [] = mid ++ c :: rest ∧
          c.Removes 16 (runCalls 16 ([] ++ .put (fun _ => IterOrder.stored) "k" plainEntry :: mid))
            "k" plainEntry) := by
  constructor
  · exact (lookup_refines_variants 16 plainRun 3 "k" ∅).1 plainEntry rfl
  · exact (lookup_refines_variants 16 plainRun 9 "k" ∅).2 rfl [] _ plainEntry [] rfl (by decide)
      (by decide)

end Elrond.Cache
