import Elrond.Cache.Invariant

/-!
# The cache gauges

`elrond_cache_bytes` and `elrond_cache_entries` are process-wide, while every zone has a store of
its own. A `put` that stores sets both gauges from its own store; a lookup that drops expired
variants leaves them alone. So the gauges tell what all zones hold together exactly as long as no
lookup drops a variant and every storing `put` finds the other zones empty
(`gauges_truthful_iff`).
-/

set_option autoImplicit false

namespace Elrond.Cache

open Elrond.Lib Elrond.Http

/-! ## Zones and gauges -/

/-- A cache zone: a store with its capacity. -/
structure Zone where
  maxBytes : Nat
  state : State := State.new

/-- The bytes a zone holds. -/
def Zone.bytes (z : Zone) : Nat := HashMap.sumBy z.state.entries fun _ vs => bytesOf vs

/-- The entries a zone holds, one for every variant. -/
def Zone.entryCount (z : Zone) : Nat := variantCount z.state.entries

/-- `CACHE_BYTES` and `CACHE_ENTRIES`. -/
structure Gauges where
  cacheBytes : Nat := 0
  cacheEntries : Nat := 0
deriving DecidableEq, Repr

/-- `set_cache_bytes` and `set_cache_entries`; no other call touches the two gauges. -/
def Gauges.observe (g : Gauges) : StoreEvent → Gauges
  | .setBytes bytes => { g with cacheBytes := bytes }
  | .setEntries count => { g with cacheEntries := count }
  | .sub _ _ => g
  | .evict _ => g
  | .hit => g
  | .miss => g

/-- All zones of the process, with the gauges. -/
structure Zones where
  zones : List Zone
  gauges : Gauges := {}

namespace Zones

/-- The state after a call on the zone at a position. -/
def step (z : Zones) (c : Nat × Call) : Zones :=
  match z.zones[c.1]? with
  | none => z
  | some zone =>
      { zones := z.zones.set c.1 { zone with state := c.2.next zone.maxBytes zone.state }
        gauges := (c.2.events zone.maxBytes zone.state).foldl Gauges.observe z.gauges }

def heldBytes (z : Zones) : Nat := (z.zones.map Zone.bytes).sum

def heldEntries (z : Zones) : Nat := (z.zones.map Zone.entryCount).sum

/-- The gauges tell what all zones hold together. -/
def Truthful (z : Zones) : Prop :=
  z.gauges.cacheBytes = z.heldBytes ∧ z.gauges.cacheEntries = z.heldEntries

theorem truthful_mk {zones : List Zone} {gauges : Gauges} :
    Truthful { zones, gauges } ↔
      gauges.cacheBytes = (zones.map Zone.bytes).sum ∧
        gauges.cacheEntries = (zones.map Zone.entryCount).sum :=
  Iff.rfl

/-- The zones as they are configured, with nothing stored. -/
def fresh (capacities : List Nat) : Zones where
  zones := capacities.map fun maxBytes => { maxBytes }

end Zones

/-- What a call must meet: a lookup finds no expired variant under its key, and a `put` is refused
for its size or every other zone is empty. -/
def CountsAll (z : Zones) (c : Nat × Call) : Prop :=
  ∀ zone, z.zones[c.1]? = some zone →
    match c.2 with
    | .get now key _ =>
        ∀ vs, zone.state.entries.lookup key = some vs → ∀ v ∈ vs, now < v.expiresAt
    | .put _ _ entry =>
        zone.maxBytes < entryBytes entry ∨
          ∀ j other, j ≠ c.1 → z.zones[j]? = some other → other.entryCount = 0

/-! ## What the calls do to the gauges -/

/-- The event sets one of the two gauges. -/
def StoreEvent.setsGauge : StoreEvent → Bool
  | .setBytes _ => true
  | .setEntries _ => true
  | _ => false

theorem foldl_observe_silent {events : List StoreEvent} (g : Gauges)
    (h : ∀ e ∈ events, e.setsGauge = false) : events.foldl Gauges.observe g = g := by
  induction events generalizing g with
  | nil => rfl
  | cons e events ih =>
      have he := h e List.mem_cons_self
      have hsame : g.observe e = g := by
        cases e with
        | setBytes bytes => cases he
        | setEntries count => cases he
        | sub total amount => rfl
        | evict bytes => rfl
        | hit => rfl
        | miss => rfl
      rw [List.foldl_cons, hsame]
      exact ih g fun e' he' => h e' (List.mem_cons_of_mem _ he')

theorem dropBytes_silent (total dropped : Nat) :
    ∀ e ∈ (dropBytes total dropped).2, e.setsGauge = false := by
  rw [dropBytes]
  intro e he
  split at he
  · rcases List.mem_cons.1 he with rfl | he
    · rfl
    · rw [List.mem_singleton.1 he]
      rfl
  · cases he

theorem get_silent (s : State) (now : Nat) (key : String) (req : HeaderMap) :
    ∀ e ∈ (s.get now key req).events, e.setsGauge = false := by
  intro e he
  rw [State.get] at he
  cases hlookup : s.entries.lookup key with
  | none =>
      rw [hlookup] at he
      rw [List.mem_singleton.1 he]
      rfl
  | some vs =>
      rw [hlookup] at he
      rcases List.mem_append.1 he with hdrop | hlast
      · exact dropBytes_silent _ _ e hdrop
      · rw [List.mem_singleton] at hlast
        split at hlast
        · rw [hlast]
          rfl
        · rw [hlast]
          rfl

theorem evictOne_silent (s : State) (key sig : String) :
    ∀ e ∈ (s.evictOne key sig).2, e.setsGauge = false := by
  intro e he
  rw [State.evictOne] at he
  cases hlookup : s.entries.lookup key with
  | none =>
      rw [hlookup] at he
      cases he
  | some vs =>
      rw [hlookup] at he
      exact dropBytes_silent _ _ e he

/-- Eviction leaves the gauges alone. -/
theorem evictLoop_silent (maxBytes size : Nat) (orders : Nat → IterOrder (String × List Entry))
    (fuel : Nat) (s : State) :
    ∀ e ∈ (evictLoop maxBytes size orders fuel s).2.2, e.setsGauge = false := by
  induction fuel generalizing s with
  | zero =>
      intro e he
      cases he
  | succ fuel ih =>
      intro e he
      rw [evictLoop] at he
      split at he
      · split at he
        · cases he
        · rename_i key sig htarget
          rcases List.mem_append.1 he with hone | hrest
          · exact evictOne_silent s key sig e hone
          · exact ih _ e hrest
      · cases he

/-- A `put` that stores sets the gauges from the state it leaves. -/
theorem put_gauges {maxBytes : Nat} {entry : Entry} (hsize : ¬ maxBytes < entryBytes entry)
    (s : State) (orders : Nat → IterOrder (String × List Entry)) (key : String) (g : Gauges) :
    (s.put maxBytes orders key entry).events.foldl Gauges.observe g =
      { cacheBytes := (s.put maxBytes orders key entry).state.totalBytes
        cacheEntries := variantCount (s.put maxBytes orders key entry).state.entries } := by
  rw [State.put, if_neg hsize]
  simp only [List.foldl_append]
  rw [foldl_observe_silent g (evictLoop_silent _ _ _ _ _)]
  rfl

/-! ## What the calls do to what is held -/

/-- A lookup takes the expired variants of its key out of the zone. -/
theorem variantCount_get {s : State} {now : Nat} {key : String} {req : HeaderMap}
    {vs : List Entry} (hlookup : s.entries.lookup key = some vs) :
    variantCount (s.get now key req).state.entries + (stale now vs).length =
      variantCount s.entries := by
  have hsplit : vs.length = (stale now vs).length + (fresh now vs).length := by
    rw [stale, fresh, ← List.countP_eq_length_filter, ← List.countP_eq_length_filter,
      List.length_eq_countP_add_countP fun v => decide (v.expiresAt ≤ now)]
    congr 2
    funext v
    rw [decide_eq_decide, decide_eq_true_eq, Nat.not_le]
  have hafter : (s.get now key req).state.entries = setVariants s.entries key (fresh now vs) := by
    rw [State.get, hlookup]
  rw [hafter, variantCount, variantCount, HashMap.sumBy_of_lookup _ hlookup,
    sumBy_setVariants _ List.length rfl]
  omega

/-- A lookup that finds nothing expired takes nothing. -/
theorem get_entries_of_fresh {s : State} {now : Nat} {key : String} {req : HeaderMap}
    (hfresh : ∀ vs, s.entries.lookup key = some vs → ∀ v ∈ vs, now < v.expiresAt)
    (f : List Entry → Nat) (hf : f [] = 0) :
    (HashMap.sumBy (s.get now key req).state.entries fun _ vs => f vs) =
      HashMap.sumBy s.entries fun _ vs => f vs := by
  cases hlookup : s.entries.lookup key with
  | none =>
      have hsame : (s.get now key req).state = s := by
        rw [State.get, hlookup]
      rw [hsame]
  | some vs =>
      have hall : fresh now vs = vs :=
        List.filter_eq_self.2 fun v hv => decide_eq_true (hfresh vs hlookup v hv)
      have hafter : (s.get now key req).state.entries = setVariants s.entries key vs := by
        rw [State.get, hlookup]
        simp only [hall]
      rw [hafter, sumBy_setVariants _ f hf, HashMap.sumBy_of_lookup _ hlookup]

/-- A zone without entries holds no bytes. -/
theorem Zone.bytes_eq_zero {z : Zone} (h : z.entryCount = 0) : z.bytes = 0 := by
  rw [Zone.entryCount, variantCount, HashMap.sumBy, List.sum_eq_zero_iff] at h
  rw [Zone.bytes, HashMap.sumBy, List.sum_eq_zero_iff]
  intro n hn
  obtain ⟨e, he, rfl⟩ := List.mem_map.1 hn
  have hlen : e.2.length = 0 := h _ (List.mem_map.2 ⟨e, he, rfl⟩)
  rw [List.length_eq_zero_iff.1 hlen]
  rfl

/-! ## Totals over all zones -/

section Totals

variable {α : Type} (f : α → Nat)

/-- Replacing one element changes the total by the difference of the two. -/
theorem sum_map_set {l : List α} {i : Nat} {a : α} (b : α) (h : l[i]? = some a) :
    ((l.set i b).map f).sum + f a = (l.map f).sum + f b := by
  induction l generalizing i with
  | nil => simp at h
  | cons x l ih =>
      cases i with
      | zero =>
          rw [List.getElem?_cons_zero, Option.some_inj] at h
          rw [List.set_cons_zero, List.map_cons, List.map_cons, List.sum_cons, List.sum_cons, h]
          omega
      | succ i =>
          rw [List.getElem?_cons_succ] at h
          have htail := ih h
          rw [List.set_cons_succ, List.map_cons, List.map_cons, List.sum_cons, List.sum_cons]
          omega

/-- One element makes up the total exactly if the others add nothing. -/
theorem sum_map_eq_iff {l : List α} {i : Nat} {a : α} (h : l[i]? = some a) :
    (l.map f).sum = f a ↔ ∀ j b, j ≠ i → l[j]? = some b → f b = 0 := by
  induction l generalizing i with
  | nil => simp at h
  | cons x l ih =>
      rw [List.map_cons, List.sum_cons]
      cases i with
      | zero =>
          rw [List.getElem?_cons_zero, Option.some_inj] at h
          rw [h, Nat.add_eq_left, List.sum_eq_zero_iff]
          constructor
          · intro hzero j b hj hb
            cases j with
            | zero => exact absurd rfl hj
            | succ j =>
                rw [List.getElem?_cons_succ] at hb
                exact hzero _ (List.mem_map_of_mem (List.mem_of_getElem? hb))
          · intro hothers n hn
            obtain ⟨b, hb, rfl⟩ := List.mem_map.1 hn
            obtain ⟨j, hj⟩ := List.mem_iff_getElem?.1 hb
            exact hothers (j + 1) b (Nat.succ_ne_zero j) hj
      | succ i =>
          rw [List.getElem?_cons_succ] at h
          have hle : f a ≤ (l.map f).sum :=
            List.single_le_sum (fun _ _ => Nat.zero_le _) _
              (List.mem_map_of_mem (List.mem_of_getElem? h))
          constructor
          · intro hsum j b hj hb
            cases j with
            | zero =>
                obtain rfl := Option.some.inj hb
                omega
            | succ j => exact (ih h).1 (by omega) j b (fun hji => hj (by rw [hji])) hb
          · intro hothers
            have hx : f x = 0 := hothers 0 x (Nat.succ_ne_zero i).symm rfl
            have htail := (ih h).2 fun j b hj hb =>
              hothers (j + 1) b (fun hji => hj (Nat.succ_inj.1 hji)) hb
            omega

end Totals

/-! ## Every call -/

/-- The byte count of every zone is exact. -/
def Zones.Exact (z : Zones) : Prop := ∀ zone ∈ z.zones, zone.state.Inv zone.maxBytes

theorem exact_fresh (capacities : List Nat) : (Zones.fresh capacities).Exact := by
  intro zone hzone
  obtain ⟨maxBytes, -, rfl⟩ := List.mem_map.1 hzone
  exact inv_new maxBytes

theorem exact_step (z : Zones) (c : Nat × Call) (h : z.Exact) : (z.step c).Exact := by
  rw [Zones.step]
  cases hzone : z.zones[c.1]? with
  | none => exact h
  | some zone =>
      intro other hother
      rcases List.mem_or_eq_of_mem_set hother with hold | rfl
      · exact h other hold
      · exact next_inv zone.state c.2 (h zone (List.mem_of_getElem? hzone))

/-- A lookup keeps the gauges true exactly if it finds nothing expired. -/
theorem truthful_get_iff {z : Zones} (hz : z.Truthful) {i : Nat} {zone : Zone}
    (hzone : z.zones[i]? = some zone) (now : Nat) (key : String) (req : HeaderMap) :
    (z.step (i, .get now key req)).Truthful ↔
      ∀ vs, zone.state.entries.lookup key = some vs → ∀ v ∈ vs, now < v.expiresAt := by
  let zone' : Zone := { zone with state := (zone.state.get now key req).state }
  have hstep : z.step (i, .get now key req) =
      { zones := z.zones.set i zone', gauges := z.gauges } := by
    simp only [Zones.step, hzone, Call.next, Call.events]
    rw [foldl_observe_silent _ (get_silent _ _ _ _)]
  rw [hstep, Zones.truthful_mk]
  obtain ⟨hzBytes, hzEntries⟩ := Zones.truthful_mk.1 hz
  have hbytes := sum_map_set Zone.bytes zone' hzone
  have hentries := sum_map_set Zone.entryCount zone' hzone
  constructor
  · rintro ⟨-, hcount⟩ vs hlookup v hv
    have hshrunk : zone'.entryCount + (stale now vs).length = zone.entryCount :=
      variantCount_get hlookup
    have hnone : (stale now vs).length = 0 := by omega
    by_contra hold
    have hmem : v ∈ stale now vs := List.mem_filter.2 ⟨hv, decide_eq_true (Nat.not_lt.1 hold)⟩
    rw [List.length_eq_zero_iff.1 hnone] at hmem
    cases hmem
  · intro hfresh
    have hsameBytes : zone'.bytes = zone.bytes := get_entries_of_fresh hfresh bytesOf rfl
    have hsameCount : zone'.entryCount = zone.entryCount :=
      get_entries_of_fresh hfresh List.length rfl
    exact ⟨by omega, by omega⟩

/-- A `put` that stores leaves true gauges exactly if every other zone is empty. -/
theorem truthful_put_iff {z : Zones} (hexact : z.Exact) {i : Nat} {zone : Zone}
    (hzone : z.zones[i]? = some zone) (orders : Nat → IterOrder (String × List Entry))
    (key : String) {entry : Entry} (hsize : ¬ zone.maxBytes < entryBytes entry) :
    (z.step (i, .put orders key entry)).Truthful ↔
      ∀ j other, j ≠ i → z.zones[j]? = some other → other.entryCount = 0 := by
  let zone' : Zone :=
    { zone with state := (zone.state.put zone.maxBytes orders key entry).state }
  have hstep : z.step (i, .put orders key entry) =
      { zones := z.zones.set i zone'
        gauges := { cacheBytes := zone'.state.totalBytes, cacheEntries := zone'.entryCount } } := by
    simp only [Zones.step, hzone, Call.next, Call.events]
    rw [put_gauges hsize]
    rfl
  have htotal : zone'.state.totalBytes = zone'.bytes :=
    (put_inv (hexact zone (List.mem_of_getElem? hzone)) orders key entry).1.total_eq
  rw [hstep, Zones.truthful_mk]
  have hbytes := sum_map_set Zone.bytes zone' hzone
  have hentries := sum_map_set Zone.entryCount zone' hzone
  constructor
  · rintro ⟨-, hcount⟩
    refine (sum_map_eq_iff Zone.entryCount hzone).1 ?_
    change zone'.entryCount = _ at hcount
    omega
  · intro hempty
    have hcount := (sum_map_eq_iff Zone.entryCount hzone).2 hempty
    have hheld := (sum_map_eq_iff Zone.bytes hzone).2 fun j other hj hother =>
      Zone.bytes_eq_zero (hempty j other hj hother)
    refine ⟨?_, ?_⟩
    · show zone'.state.totalBytes = _
      omega
    · show zone'.entryCount = _
      omega

/-- A call keeps the gauges true exactly if it counts all there is. -/
theorem truthful_step_iff (z : Zones) (c : Nat × Call) (hexact : z.Exact) (hz : z.Truthful) :
    (z.step c).Truthful ↔ CountsAll z c := by
  obtain ⟨i, call⟩ := c
  cases hzone : z.zones[i]? with
  | none =>
      have hsame : z.step (i, call) = z := by
        simp only [Zones.step, hzone]
      have hcounts : CountsAll z (i, call) := by
        intro zone h
        rw [hzone] at h
        cases h
      rw [hsame]
      exact ⟨fun _ => hcounts, fun _ => hz⟩
  | some zone =>
      have hcounts : ∀ {P : Zone → Prop},
          (∀ zone', z.zones[i]? = some zone' → P zone') ↔ P zone := by
        intro P
        rw [hzone]
        exact ⟨fun h => h zone rfl, fun h zone' heq => Option.some.inj heq ▸ h⟩
      rw [CountsAll, hcounts]
      cases call with
      | get now key req => exact truthful_get_iff hz hzone now key req
      | put orders key entry =>
          by_cases hsize : zone.maxBytes < entryBytes entry
          · have hsame : z.step (i, .put orders key entry) =
                { z with zones := z.zones.set i zone } := by
              simp only [Zones.step, hzone, Call.next, Call.events, State.put, if_pos hsize,
                List.foldl_nil]
            obtain ⟨hlt, hget⟩ := List.getElem?_eq_some_iff.1 hzone
            rw [hsame, ← hget, List.set_getElem_self]
            exact ⟨fun _ => Or.inl (hget ▸ hsize), fun _ => hz⟩
          · rw [truthful_put_iff hexact hzone orders key hsize]
            exact ⟨Or.inr, fun h => h.resolve_left hsize⟩

/-- **The cache gauges.** Over any number of zones and every run of lookups and stores, the gauges
tell after every call what all zones hold together, exactly if no lookup of the run finds an
expired variant under its key and every `put` is refused for its size or finds all other zones
empty. -/
theorem gauges_truthful_iff (capacities : List Nat) (calls : List (Nat × Call)) :
    Always Zones.step Zones.Truthful (Zones.fresh capacities) calls ↔
      AllSteps Zones.step CountsAll (Zones.fresh capacities) calls := by
  refine always_iff_allSteps exact_step truthful_step_iff (exact_fresh capacities) ?_ calls
  have hzero : ∀ f : Zone → Nat, (∀ maxBytes, f { maxBytes } = 0) →
      ((Zones.fresh capacities).zones.map f).sum = 0 := by
    intro f hf
    rw [List.sum_eq_zero_iff]
    intro n hn
    obtain ⟨zone, hzone, rfl⟩ := List.mem_map.1 hn
    obtain ⟨maxBytes, -, rfl⟩ := List.mem_map.1 hzone
    exact hf maxBytes
  exact ⟨(hzero Zone.bytes fun _ => rfl).symm, (hzero Zone.entryCount fun _ => rfl).symm⟩

/-- A small entry that expires at an instant. -/
def smallEntry (expiresAt : Nat) : Entry where
  status := 200
  headers := []
  body := [104, 105]
  expiresAt := expiresAt
  varyHeaders := []
  varySignature := ""

/-- An entry is stored and looked up after it has expired: it is gone, and the gauges still count
it. -/
theorem gauges_stale_after_expiry :
    ¬ ∀ (capacities : List Nat) (calls : List (Nat × Call)),
      Always Zones.step Zones.Truthful (Zones.fresh capacities) calls := by
  intro h
  have hend := h [1024]
    [(0, .put (fun _ => .stored) "k" (smallEntry 10)), (0, .get 20 "k" ⟨[]⟩)] _ []
    (List.append_nil _).symm
  exact absurd hend.2 (by decide)

end Elrond.Cache
