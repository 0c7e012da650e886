import Mathlib.Data.List.MinMax
import Elrond.Limit.Conn

/-!
# `limit_req` zones

`LimitReqZone` of `limit.rs`: a map from rendered keys to token buckets. `allow` refills the bucket
of its key for the time since the bucket was last touched, up to the capacity the calling location
asks for, and accepts the request if a whole token is there. A new key in a full zone first evicts
the bucket that was touched least recently.

The token arithmetic is a parameter: `Num` is any type with the operations the code uses, `secs`
is the measured time between two instants. The results of this module hold for the floating point
of the program as well as for exact arithmetic. `now` is the clock reading of the call, which the
code takes before it locks the zone.

Everything `allow` decides is decided by `serve` from the bucket of its key, and every other
bucket is left alone or evicted (`lookup_allow`). So the keys of a run that fit the zone together
do not influence each other (`zone_isolation`).
-/

set_option autoImplicit false

namespace Elrond.Limit

open Elrond.Lib Elrond.Http Elrond.Request

universe u v

/-- `Bucket`. -/
@[ext] structure Bucket (Time : Type u) (Num : Type v) where
  tokens : Num
  last : Time
deriving DecidableEq

/-- `LimitReqZone`: the buckets by key. -/
structure LimitReqZone (Time : Type u) (Num : Type v) where
  keyTemplate : Template
  ratePerSec : Num
  maxEntries : Nat
  buckets : HashMap String (Bucket Time Num)

/-- `LimitReqZone::new`. -/
def LimitReqZone.new {Time : Type u} {Num : Type v} (keyTemplate : Template) (ratePerSec : Num)
    (maxEntries : Nat) : LimitReqZone Time Num :=
  ⟨keyTemplate, ratePerSec, maxEntries, ∅⟩

variable {Time : Type u} {Num : Type v}

/-! ## Eviction -/

namespace LimitReqZone

variable [LinearOrder Time]

/-- The key `allow` evicts before it looks at a key, if it evicts one: the first of the least
recently touched, when the key is new and the zone is full. -/
def evicted (zone : LimitReqZone Time Num) (order : IterOrder (String × Bucket Time Num))
    (key : String) : Option String :=
  if (zone.buckets.lookup key).isNone && zone.maxEntries ≤ zone.buckets.entries.length then
    ((zone.buckets.iter order).argmin fun p => p.2.last).map Prod.fst
  else none

/-- The buckets after the eviction. -/
def afterEviction (zone : LimitReqZone Time Num) (order : IterOrder (String × Bucket Time Num))
    (key : String) : HashMap String (Bucket Time Num) :=
  match zone.evicted order key with
  | some oldest => zone.buckets.erase oldest
  | none => zone.buckets

/-- Evicted is the key of a stored bucket that no stored bucket was touched before. -/
theorem evicted_oldest {zone : LimitReqZone Time Num}
    {order : IterOrder (String × Bucket Time Num)} {key oldest : String}
    (h : zone.evicted order key = some oldest) :
    zone.buckets.lookup key = none ∧
      ∃ b, zone.buckets.lookup oldest = some b ∧
        ∀ k b', zone.buckets.lookup k = some b' → b.last ≤ b'.last := by
  rw [evicted] at h
  split at h
  · rename_i hnew
    rw [Bool.and_eq_true, Option.isNone_iff_eq_none] at hnew
    obtain ⟨p, hp, rfl⟩ := Option.map_eq_some_iff.1 h
    refine ⟨hnew.1, p.2, HashMap.mem_iter.1 (List.argmin_mem hp), ?_⟩
    intro k b' hk
    have hmem : (k, b') ∈ zone.buckets.iter order := HashMap.mem_iter.2 hk
    exact List.le_of_mem_argmin (f := fun p : String × Bucket Time Num => p.2.last) hmem hp
  · cases h

/-- A new key in a full zone that is not empty evicts a bucket. -/
theorem exists_evicted {zone : LimitReqZone Time Num}
    (order : IterOrder (String × Bucket Time Num)) {key : String}
    (hnew : zone.buckets.lookup key = none)
    (hfull : zone.maxEntries ≤ zone.buckets.entries.length)
    (hpos : 0 < zone.buckets.entries.length) : ∃ oldest, zone.evicted order key = some oldest := by
  rw [evicted, hnew, Option.isNone_none, Bool.true_and, if_pos (decide_eq_true hfull)]
  cases hmin : (zone.buckets.iter order).argmin fun p => p.2.last with
  | some p => exact ⟨p.1, rfl⟩
  | none =>
      exfalso
      have hnil : zone.buckets.iter order = [] := List.argmin_eq_none.1 hmin
      have hlen := (order.perm zone.buckets.toPairs).length_eq
      rw [HashMap.iter] at hnil
      rw [hnil, HashMap.toPairs, List.length_map] at hlen
      exact absurd hpos (by rw [← hlen]; exact lt_irrefl 0)

/-- The eviction takes exactly the evicted bucket. -/
theorem lookup_afterEviction (zone : LimitReqZone Time Num)
    (order : IterOrder (String × Bucket Time Num)) (key k : String) :
    (zone.afterEviction order key).lookup k =
      if zone.evicted order key = some k then none else zone.buckets.lookup k := by
  rw [afterEviction]
  cases hev : zone.evicted order key with
  | none => simp
  | some oldest =>
      show (zone.buckets.erase oldest).lookup k = _
      rw [HashMap.lookup_erase_eq]
      simp [eq_comm]

/-- The bucket of the key itself survives the eviction. -/
theorem lookup_afterEviction_self (zone : LimitReqZone Time Num)
    (order : IterOrder (String × Bucket Time Num)) (key : String) :
    (zone.afterEviction order key).lookup key = zone.buckets.lookup key := by
  rw [lookup_afterEviction]
  split
  · rename_i hev
    exact (evicted_oldest hev).1.symm
  · rfl

/-- The stored keys are among `keys`. -/
def KeysIn (keys : List String) (zone : LimitReqZone Time Num) : Prop :=
  ∀ k b, zone.buckets.lookup k = some b → k ∈ keys

/-- A zone with room for all the keys it may see evicts nothing. -/
theorem evicted_eq_none {zone : LimitReqZone Time Num} {keys : List String}
    (hkeys : KeysIn keys zone) (hroom : keys.length ≤ zone.maxEntries)
    (order : IterOrder (String × Bucket Time Num)) {key : String} (hkey : key ∈ keys) :
    zone.evicted order key = none := by
  rw [evicted]
  split
  · rename_i hfull
    rw [Bool.and_eq_true, Option.isNone_iff_eq_none, decide_eq_true_eq] at hfull
    have hlt := HashMap.length_lt_of_keys_subset hfull.1 hkey hkeys
    omega
  · rfl

end LimitReqZone

/-! ## `allow` -/

variable [Add Num] [Sub Num] [Mul Num] [Min Num] [LE Num] [DecidableLE Num] [One Num] [NatCast Num]
  (secs : Time → Time → Num)

/-- The second half of `allow`: refill the bucket of the key, a full one if there is none, and
take a token if there is one. -/
def serve (rate : Num) (now : Time) (burst : UInt32) (bucket : Option (Bucket Time Num)) :
    Bool × Bucket Time Num :=
  let capacity := (burst.toNat : Num) + 1
  let bucket := bucket.getD ⟨capacity, now⟩
  let tokens := min (bucket.tokens + secs bucket.last now * rate) capacity
  if 1 ≤ tokens then (true, ⟨tokens - 1, now⟩) else (false, ⟨tokens, now⟩)

theorem serve_last (rate : Num) (now : Time) (burst : UInt32)
    (bucket : Option (Bucket Time Num)) : (serve secs rate now burst bucket).2.last = now := by
  simp only [serve]
  split
  · rfl
  · rfl

variable [LinearOrder Time]

/-- `LimitReqZone::allow` with the clock reading `now`. -/
def LimitReqZone.allow (zone : LimitReqZone Time Num) (order : IterOrder (String × Bucket Time Num))
    (now : Time) (key : String) (burst : UInt32) : Bool × LimitReqZone Time Num :=
  let buckets := zone.afterEviction order key
  let (accept, bucket) := serve secs zone.ratePerSec now burst (buckets.lookup key)
  (accept, { zone with buckets := buckets.insert key bucket })

/-- `LimitReqApply`: the zone a location refers to, with the burst of the location. -/
structure LimitReqApply (Time : Type u) (Num : Type v) where
  zone : LimitReqZone Time Num
  burst : UInt32

/-- `enforce`: the response to send back on a denial, and the zone afterwards. -/
def enforce (apply : LimitReqApply Time Num) (order : IterOrder (String × Bucket Time Num))
    (now : Time) (ctx : RequestCtx) : Option Response × LimitReqZone Time Num :=
  let key := apply.zone.keyTemplate.render ctx
  match apply.zone.allow secs order now key apply.burst with
  | (true, zone) => (none, zone)
  | (false, zone) => (some denyResponse, zone)

/-! ## One call -/

namespace LimitReqZone

/-- A decision is made from the bucket of the key. -/
theorem allow_fst (zone : LimitReqZone Time Num) (order : IterOrder (String × Bucket Time Num))
    (now : Time) (key : String) (burst : UInt32) :
    (zone.allow secs order now key burst).1 =
      (serve secs zone.ratePerSec now burst (zone.buckets.lookup key)).1 := by
  show (serve secs zone.ratePerSec now burst ((zone.afterEviction order key).lookup key)).1 = _
  rw [lookup_afterEviction_self]

/-- The buckets after a call. -/
theorem lookup_allow (zone : LimitReqZone Time Num)
    (order : IterOrder (String × Bucket Time Num)) (now : Time) (key : String) (burst : UInt32)
    (k : String) :
    (zone.allow secs order now key burst).2.buckets.lookup k =
      if k = key then
        some (serve secs zone.ratePerSec now burst (zone.buckets.lookup key)).2
      else if zone.evicted order key = some k then none
      else zone.buckets.lookup k := by
  show ((zone.afterEviction order key).insert key
    (serve secs zone.ratePerSec now burst ((zone.afterEviction order key).lookup key)).2).lookup k =
      _
  rw [HashMap.lookup_insert_eq, lookup_afterEviction_self, lookup_afterEviction]

/-- A call keeps a zone within its capacity. -/
theorem length_allow (zone : LimitReqZone Time Num)
    (order : IterOrder (String × Bucket Time Num)) (now : Time) (key : String) (burst : UInt32)
    (hpos : 1 ≤ zone.maxEntries) (hcap : zone.buckets.entries.length ≤ zone.maxEntries) :
    (zone.allow secs order now key burst).2.buckets.entries.length ≤ zone.maxEntries := by
  show ((zone.afterEviction order key).insert key _).entries.length ≤ _
  rw [HashMap.length_insert]
  cases hkey : zone.buckets.lookup key with
  -- A present key evicts nothing and is replaced.
  | some b =>
      have hself : (zone.afterEviction order key).lookup key = some b := by
        rw [lookup_afterEviction_self, hkey]
      rw [HashMap.length_erase_of_lookup hself]
      have hnone : zone.evicted order key = none := by
        rw [evicted, hkey]
        rfl
      rw [afterEviction, hnone]
      exact hcap
  | none =>
      have hself : (zone.afterEviction order key).lookup key = none := by
        rw [lookup_afterEviction_self, hkey]
      rw [HashMap.length_erase_of_lookup_none hself]
      by_cases hfull : zone.maxEntries ≤ zone.buckets.entries.length
      · obtain ⟨oldest, hev⟩ := exists_evicted order hkey hfull (by omega)
        obtain ⟨-, b, hb, -⟩ := evicted_oldest hev
        have hlen := HashMap.length_erase_of_lookup hb
        rw [afterEviction, hev]
        show (zone.buckets.erase oldest).entries.length + 1 ≤ _
        omega
      · have hnone : zone.evicted order key = none := by
          rw [evicted, if_neg]
          simp [hfull]
        rw [afterEviction, hnone]
        show zone.buckets.entries.length + 1 ≤ _
        omega

end LimitReqZone

/-! ## Runs of calls -/

/-- One call of `allow`. -/
structure AllowCall (Time : Type u) (Num : Type v) where
  order : IterOrder (String × Bucket Time Num)
  now : Time
  key : String
  burst : UInt32

/-- The last call for a key. -/
def lastCall {Time : Type u} {Num : Type v} (calls : List (AllowCall Time Num)) (key : String) :
    Option (AllowCall Time Num) :=
  calls.reverse.find? fun c => c.key = key

/-- The time of the last call for a key. -/
def lastTouch {Time : Type u} {Num : Type v} (calls : List (AllowCall Time Num)) (key : String) :
    Option Time :=
  (lastCall calls key).map AllowCall.now

theorem lastCall_concat {Time : Type u} {Num : Type v} (calls : List (AllowCall Time Num))
    (c : AllowCall Time Num) (k : String) :
    lastCall (calls ++ [c]) k = if k = c.key then some c else lastCall calls k := by
  rw [lastCall, List.reverse_append, List.reverse_singleton, List.singleton_append,
    List.find?_cons]
  by_cases h : k = c.key
  · simp [h]
  · simp [h, Ne.symm h, lastCall]

namespace LimitReqZone

/-- The zone after a call. -/
def next (zone : LimitReqZone Time Num) (c : AllowCall Time Num) : LimitReqZone Time Num :=
  (zone.allow secs c.order c.now c.key c.burst).2

/-- The answer to a call. -/
def decision (zone : LimitReqZone Time Num) (c : AllowCall Time Num) : Bool :=
  (zone.allow secs c.order c.now c.key c.burst).1

/-- The answers of a run to the calls for one key. -/
def decisionsFor (key : String) : LimitReqZone Time Num → List (AllowCall Time Num) → List Bool
  | _, [] => []
  | zone, c :: cs =>
      if c.key = key then zone.decision secs c :: decisionsFor key (zone.next secs c) cs
      else decisionsFor key (zone.next secs c) cs

/-- All answers of a run. -/
def decisions : LimitReqZone Time Num → List (AllowCall Time Num) → List Bool
  | _, [] => []
  | zone, c :: cs => zone.decision secs c :: decisions (zone.next secs c) cs

theorem decisionsFor_concat (key : String) (zone : LimitReqZone Time Num)
    (calls : List (AllowCall Time Num)) (c : AllowCall Time Num) :
    decisionsFor secs key zone (calls ++ [c]) =
      decisionsFor secs key zone calls ++
        if c.key = key then [(run (next secs) zone calls).decision secs c] else [] := by
  induction calls generalizing zone with
  | nil => rfl
  | cons d calls ih =>
      rw [List.cons_append, decisionsFor, decisionsFor, ih, run_cons]
      split
      · rw [List.cons_append]
      · rfl

/-- A fresh zone after a run of calls. -/
def after (keyTemplate : Template) (rate : Num) (maxEntries : Nat)
    (calls : List (AllowCall Time Num)) : LimitReqZone Time Num :=
  run (next secs) (new keyTemplate rate maxEntries) calls

theorem after_concat (keyTemplate : Template) (rate : Num) (maxEntries : Nat)
    (calls : List (AllowCall Time Num)) (c : AllowCall Time Num) :
    after secs keyTemplate rate maxEntries (calls ++ [c]) =
      (after secs keyTemplate rate maxEntries calls).next secs c :=
  run_concat _ _ calls c

theorem after_maxEntries (keyTemplate : Template) (rate : Num) (maxEntries : Nat)
    (calls : List (AllowCall Time Num)) :
    (after secs keyTemplate rate maxEntries calls).maxEntries = maxEntries := by
  have hstep : ∀ (z : LimitReqZone Time Num) (c : AllowCall Time Num),
      z.maxEntries = maxEntries → (z.next secs c).maxEntries = maxEntries := fun _ _ h => h
  exact run_invariant hstep rfl calls

/-- A zone never outgrows its capacity. -/
theorem length_after (keyTemplate : Template) (rate : Num) {maxEntries : Nat}
    (hpos : 1 ≤ maxEntries) (calls : List (AllowCall Time Num)) :
    (after secs keyTemplate rate maxEntries calls).buckets.entries.length ≤ maxEntries := by
  induction calls using List.reverseRecOn with
  | nil => exact Nat.zero_le _
  | append_singleton calls c ih =>
      have hmax := after_maxEntries secs keyTemplate rate maxEntries calls
      rw [after_concat, next]
      have hlen := length_allow secs (after secs keyTemplate rate maxEntries calls) c.order c.now
        c.key c.burst (by omega) (by omega)
      omega

/-- A bucket remembers the last call for its key. -/
theorem lastTouch_of_lookup (keyTemplate : Template) (rate : Num) (maxEntries : Nat)
    (calls : List (AllowCall Time Num)) {k : String} {b : Bucket Time Num}
    (h : (after secs keyTemplate rate maxEntries calls).buckets.lookup k = some b) :
    lastTouch calls k = some b.last := by
  induction calls using List.reverseRecOn generalizing b with
  | nil => cases h
  | append_singleton calls c ih =>
      rw [after_concat, next, lookup_allow] at h
      rw [lastTouch, lastCall_concat]
      split at h
      · rename_i hk
        obtain rfl := Option.some.inj h
        rw [if_pos hk, serve_last]
        rfl
      · rename_i hk
        rw [if_neg hk]
        split at h
        · cases h
        · exact ih h

/-- A call for a present key leaves all other buckets alone. -/
theorem lookup_next_of_present {zone : LimitReqZone Time Num} {c : AllowCall Time Num}
    {b : Bucket Time Num} (hc : zone.buckets.lookup c.key = some b) {k : String}
    (hk : k ≠ c.key) : (zone.next secs c).buckets.lookup k = zone.buckets.lookup k := by
  rw [next, lookup_allow, if_neg hk]
  split
  · rename_i hev
    rw [(evicted_oldest hev).1] at hc
    cases hc
  · rfl

/-- A call for a new key on a full zone takes one bucket away, one with the oldest touch. -/
theorem exists_evicted_next {zone : LimitReqZone Time Num} {c : AllowCall Time Num}
    (hc : zone.buckets.lookup c.key = none) (hfull : zone.maxEntries ≤ zone.buckets.entries.length)
    (hpos : 1 ≤ zone.buckets.entries.length) :
    ∃ oldest b, zone.buckets.lookup oldest = some b ∧
      (zone.next secs c).buckets.lookup oldest = none ∧
      (∀ k ≠ c.key, k ≠ oldest →
        (zone.next secs c).buckets.lookup k = zone.buckets.lookup k) ∧
      ∀ k b', zone.buckets.lookup k = some b' → b.last ≤ b'.last := by
  obtain ⟨oldest, hev⟩ := exists_evicted c.order hc hfull hpos
  obtain ⟨-, b, hb, hleast⟩ := evicted_oldest hev
  have hne : oldest ≠ c.key := by
    rintro rfl
    rw [hc] at hb
    cases hb
  refine ⟨oldest, b, hb, ?_, ?_, hleast⟩
  · rw [next, lookup_allow, if_neg hne, if_pos hev]
  · intro k hk hother
    rw [next, lookup_allow, if_neg hk, if_neg]
    rw [hev]
    exact fun h => hother (Option.some.inj h).symm

/-! ## Isolation -/

theorem next_keysIn {zone : LimitReqZone Time Num} {keys : List String} (hkeys : KeysIn keys zone)
    {c : AllowCall Time Num} (hc : c.key ∈ keys) : KeysIn keys (zone.next secs c) := by
  intro k b h
  rw [next, lookup_allow] at h
  split at h
  · rename_i hk
    rw [hk]
    exact hc
  · split at h
    · cases h
    · exact hkeys k b h

/-- Two zones that agree on a key answer its calls alike, when one of them sees only these calls
and both have room for all keys. -/
theorem decisionsFor_eq {keys : List String} (key : String) (calls : List (AllowCall Time Num))
    (hcalls : ∀ c ∈ calls, c.key ∈ keys) {zone alone : LimitReqZone Time Num}
    (hzone : KeysIn keys zone) (halone : KeysIn keys alone)
    (hroom : keys.length ≤ zone.maxEntries) (hrate : alone.ratePerSec = zone.ratePerSec)
    (hmax : alone.maxEntries = zone.maxEntries)
    (hagree : alone.buckets.lookup key = zone.buckets.lookup key) :
    decisionsFor secs key zone calls =
      decisions secs alone (calls.filter fun c => c.key = key) := by
  induction calls generalizing zone alone with
  | nil => rfl
  | cons c cs ih =>
      have hc : c.key ∈ keys := hcalls c List.mem_cons_self
      have hrest : ∀ d ∈ cs, d.key ∈ keys := fun d hd => hcalls d (List.mem_cons_of_mem c hd)
      by_cases hk : c.key = key
      · rw [decisionsFor, if_pos hk, List.filter_cons_of_pos (by simpa using hk), decisions]
        congr 1
        · rw [decision, decision, allow_fst, allow_fst, hk, hagree, hrate]
        · apply ih hrest (next_keysIn secs hzone hc) (next_keysIn secs halone hc) hroom hrate hmax
          rw [next, next, lookup_allow, lookup_allow, if_pos hk.symm, if_pos hk.symm, hk, hagree,
            hrate]
      -- A call for another key leaves the bucket of the key alone.
      · rw [decisionsFor, if_neg hk, List.filter_cons_of_neg (by simpa using hk)]
        apply ih hrest (next_keysIn secs hzone hc) halone hroom hrate hmax
        rw [hagree, next, lookup_allow, if_neg (Ne.symm hk), evicted_eq_none hzone hroom c.order hc]
        simp

end LimitReqZone

/-- **Capacity and isolation of `limit_req` zones.** For every arithmetic and every run of calls on
a zone with room for at least one bucket: the zone never holds more buckets than it may; a call for
a present key leaves all other buckets alone; a call for a new key on a full zone takes exactly one
bucket away, one that was touched least recently; and when the run has no more distinct keys than
the zone has room for, the answers for a key are those of a zone that sees only the calls for it. -/
theorem zone_isolation (keyTemplate : Template) (rate : Num) (maxEntries : Nat)
    (hpos : 1 ≤ maxEntries) (calls : List (AllowCall Time Num)) :
    let zone := LimitReqZone.after secs keyTemplate rate maxEntries calls
    zone.buckets.entries.length ≤ maxEntries ∧
      (∀ c b, zone.buckets.lookup c.key = some b →
        ∀ k ≠ c.key, (zone.next secs c).buckets.lookup k = zone.buckets.lookup k) ∧
      (∀ c, zone.buckets.lookup c.key = none → zone.buckets.entries.length = maxEntries →
        ∃ oldest b t, zone.buckets.lookup oldest = some b ∧
          (zone.next secs c).buckets.lookup oldest = none ∧
          (∀ k ≠ c.key, k ≠ oldest →
            (zone.next secs c).buckets.lookup k = zone.buckets.lookup k) ∧
          lastTouch calls oldest = some t ∧
          ∀ k b', zone.buckets.lookup k = some b' →
            ∃ t', lastTouch calls k = some t' ∧ t ≤ t') ∧
      ((calls.map AllowCall.key).dedup.length ≤ maxEntries →
        ∀ key, LimitReqZone.decisionsFor secs key (LimitReqZone.new keyTemplate rate maxEntries)
            calls =
          LimitReqZone.decisions secs (LimitReqZone.new keyTemplate rate maxEntries)
            (calls.filter fun c => c.key = key)) := by
  intro zone
  have hmax : zone.maxEntries = maxEntries :=
    LimitReqZone.after_maxEntries secs keyTemplate rate maxEntries calls
  refine ⟨LimitReqZone.length_after secs keyTemplate rate hpos calls, ?_, ?_, ?_⟩
  · intro c b hc k hk
    exact LimitReqZone.lookup_next_of_present secs hc hk
  · intro c hc hfull
    obtain ⟨oldest, b, hb, hgone, hothers, hleast⟩ :=
      LimitReqZone.exists_evicted_next secs hc (by omega) (by omega)
    -- The instants stored in the buckets are those of the last calls for their keys.
    have htouch := LimitReqZone.lastTouch_of_lookup secs keyTemplate rate maxEntries calls hb
    refine ⟨oldest, b, b.last, hb, hgone, hothers, htouch, ?_⟩
    intro k b' hk
    exact ⟨b'.last, LimitReqZone.lastTouch_of_lookup secs keyTemplate rate maxEntries calls hk,
      hleast k b' hk⟩
  · intro hroom key
    have hempty : LimitReqZone.KeysIn (calls.map AllowCall.key).dedup
        (LimitReqZone.new keyTemplate rate maxEntries : LimitReqZone Time Num) := by
      intro k b h
      cases h
    apply LimitReqZone.decisionsFor_eq secs key calls _ hempty hempty hroom rfl rfl rfl
    intro c hc
    exact List.mem_dedup.2 (List.mem_map_of_mem hc)

/-- Exact seconds between two instants; an earlier instant counts as no time, as in
`Instant::duration_since`. -/
def exactSecs (last now : ℚ) : ℚ := max 0 (now - last)

/-- A call with burst 2. -/
def callAt (now : ℚ) (key : String) : AllowCall ℚ ℚ := ⟨IterOrder.stored, now, key, 2⟩

/-- A zone for one bucket that has seen one key gives its bucket to the next key, and up to then
its answers are those for the one key. -/
theorem zone_isolation_one_bucket :
    (∃ oldest b t,
        (LimitReqZone.after exactSecs ⟨[]⟩ 1 1 [callAt 0 "a", callAt 3 "a"]).buckets.lookup oldest =
            some b ∧
          ((LimitReqZone.after exactSecs ⟨[]⟩ 1 1 [callAt 0 "a", callAt 3 "a"]).next exactSecs
            (callAt 5 "b")).buckets.lookup oldest = none ∧
          lastTouch [callAt 0 "a", callAt 3 "a"] oldest = some t) ∧
      LimitReqZone.decisionsFor exactSecs "a" (LimitReqZone.new ⟨[]⟩ 1 1)
          [callAt 0 "a", callAt 3 "a"] =
        LimitReqZone.decisions exactSecs (LimitReqZone.new ⟨[]⟩ 1 1)
          ([callAt 0 "a", callAt 3 "a"].filter fun c => c.key = "a") := by
  obtain ⟨-, -, hevict, halone⟩ :=
    zone_isolation exactSecs ⟨[]⟩ 1 1 le_rfl [callAt 0 "a", callAt 3 "a"]
  refine ⟨?_, halone (by decide) "a"⟩
  obtain ⟨oldest, b, t, hb, hgone, -, htouch, -⟩ := hevict (callAt 5 "b") rfl rfl
  exact ⟨oldest, b, t, hb, hgone, htouch⟩

end Elrond.Limit
