import Elrond.Lib.HashMap
import Elrond.Lib.Run
import Elrond.Request.Template

/-!
# `limit_conn` zones

`LimitConnZone` of `limit.rs`: a map from rendered keys to the number of requests in flight.
`try_acquire` hands out a guard while the count of the key is below the limit of the calling
location, and dropping the guard lowers the count again. A new key in a full zone first evicts an
entry whose count is zero; which one depends on the iteration order.

What the counts are for is `Accounts`: the count of a key is the number of its live guards. The
two operations keep it (`tryAcquire_accounts`, `dropGuard_accounts`), whatever the limits of the
calls are, so it holds along every run (`conn_accounting`). The mutex of the zone is never
poisoned, since nothing panics while it is held.
-/

set_option autoImplicit false

namespace Elrond.Limit

open Elrond.Lib Elrond.Http Elrond.Request

/-- `LimitConnZone`: the counts by key. -/
structure LimitConnZone where
  keyTemplate : Template
  maxEntries : Nat
  state : HashMap String UInt32

/-- `LimitConnZone::new`. -/
def LimitConnZone.new (keyTemplate : Template) (maxEntries : Nat) : LimitConnZone :=
  ⟨keyTemplate, maxEntries, ∅⟩

/-- `LimitConnGuard`: a live guard counts for its key. -/
structure LimitConnGuard where
  key : String
deriving DecidableEq, Repr

namespace LimitConnZone

/-- The stored count of a key, 0 when absent. -/
def count (zone : LimitConnZone) (key : String) : UInt32 := HashMap.getOr zone.state key 0

/-- The entry `try_acquire` evicts before it looks at a key, if it evicts one: the first entry
with count zero, when the key is new and the zone is full. -/
def evicted (zone : LimitConnZone) (order : IterOrder (String × UInt32)) (key : String) :
    Option String :=
  if (zone.state.lookup key).isNone && zone.maxEntries ≤ zone.state.entries.length then
    ((zone.state.iter order).find? fun p => p.2 == 0).map Prod.fst
  else none

/-- The counts after the eviction. -/
def afterEviction (zone : LimitConnZone) (order : IterOrder (String × UInt32)) (key : String) :
    HashMap String UInt32 :=
  match zone.evicted order key with
  | some dead => zone.state.erase dead
  | none => zone.state

/-- `LimitConnZone::try_acquire`. -/
def tryAcquire (zone : LimitConnZone) (order : IterOrder (String × UInt32)) (key : String)
    (maxConn : UInt32) : Option LimitConnGuard × LimitConnZone :=
  let s := zone.afterEviction order key
  let count := HashMap.getOr s key 0
  if maxConn ≤ count then (none, { zone with state := s.insert key count })
  else (some ⟨key⟩, { zone with state := s.insert key (count + 1) })

/-- `saturating_sub(1)` on a count. -/
def saturatingPred (count : UInt32) : UInt32 := if count = 0 then 0 else count - 1

/-- `LimitConnGuard::drop`. -/
def dropGuard (zone : LimitConnZone) (guard : LimitConnGuard) : LimitConnZone :=
  match zone.state.lookup guard.key with
  | some count => { zone with state := zone.state.insert guard.key (saturatingPred count) }
  | none => zone

end LimitConnZone

/-- `LimitConnApply`: the zone a location refers to, with the limit of the location. -/
structure LimitConnApply where
  zone : LimitConnZone
  maxConn : UInt32

/-- `deny_response`. -/
def denyResponse : Response := text 503 "503 Service Unavailable\n"

/-- `enforce_conn`: the guard or the response to send back, and the zone afterwards. -/
def enforceConn (apply : LimitConnApply) (order : IterOrder (String × UInt32))
    (ctx : RequestCtx) : Except Response LimitConnGuard × LimitConnZone :=
  let key := apply.zone.keyTemplate.render ctx
  match apply.zone.tryAcquire order key apply.maxConn with
  | (some guard, zone) => (.ok guard, zone)
  | (none, zone) => (.error denyResponse, zone)

/-! ## The counts are the live guards -/

/-- The count of every key is the number of its live guards. -/
def Accounts (zone : LimitConnZone) (live : String → Nat) : Prop :=
  ∀ key, (zone.count key).toNat = live key

namespace LimitConnZone

/-- Only an entry with count zero is evicted. -/
theorem count_evicted {zone : LimitConnZone} {order : IterOrder (String × UInt32)}
    {key dead : String} (h : zone.evicted order key = some dead) : zone.count dead = 0 := by
  rw [evicted] at h
  split at h
  · obtain ⟨p, hp, rfl⟩ := Option.map_eq_some_iff.1 h
    have hzero := List.find?_some hp
    have hlookup : zone.state.lookup p.1 = some p.2 :=
      HashMap.mem_iter.1 (List.mem_of_find?_eq_some hp)
    rw [count, HashMap.getOr, hlookup]
    simpa using hzero
  · cases h

/-- The eviction changes no count. -/
theorem getOr_afterEviction (zone : LimitConnZone) (order : IterOrder (String × UInt32))
    (key k : String) : HashMap.getOr (zone.afterEviction order key) k 0 = zone.count k := by
  rw [afterEviction]
  cases hev : zone.evicted order key with
  | none => rfl
  | some dead =>
      show HashMap.getOr (zone.state.erase dead) k 0 = zone.count k
      rw [HashMap.getOr, HashMap.lookup_erase_eq]
      split
      · rename_i hk
        rw [hk, count_evicted hev]
        rfl
      · rfl

/-- A guard is handed out exactly while the count is below the limit. -/
theorem tryAcquire_isSome (zone : LimitConnZone) (order : IterOrder (String × UInt32))
    (key : String) (maxConn : UInt32) :
    (zone.tryAcquire order key maxConn).1.isSome = true ↔
      (zone.count key).toNat < maxConn.toNat := by
  simp only [tryAcquire, getOr_afterEviction]
  split
  · rename_i hfull
    exact ⟨fun h => Bool.noConfusion h, fun h => absurd hfull (Nat.not_le.2 h)⟩
  · rename_i hroom
    exact ⟨fun _ => Nat.not_le.1 hroom, fun _ => rfl⟩

/-- The counts after `try_acquire`: only the one of its key may change, and by one. -/
theorem count_tryAcquire (zone : LimitConnZone) (order : IterOrder (String × UInt32))
    (key : String) (maxConn : UInt32) (k : String) :
    ((zone.tryAcquire order key maxConn).2.count k).toNat =
      (zone.count k).toNat +
        if k = key ∧ (zone.count key).toNat < maxConn.toNat then 1 else 0 := by
  have hinsert : ∀ v, HashMap.getOr ((zone.afterEviction order key).insert key v) k 0 =
      if k = key then v else zone.count k := by
    intro v
    rw [HashMap.getOr, HashMap.lookup_insert_eq]
    split
    · rfl
    · exact getOr_afterEviction zone order key k
  simp only [tryAcquire, getOr_afterEviction]
  split
  · rename_i hfull
    rw [if_neg (fun h => absurd hfull (Nat.not_le.2 h.2)), Nat.add_zero]
    show (HashMap.getOr ((zone.afterEviction order key).insert key _) k 0).toNat = _
    rw [hinsert]
    split
    · rename_i hk
      rw [hk]
    · rfl
  · rename_i hroom
    show (HashMap.getOr ((zone.afterEviction order key).insert key _) k 0).toNat = _
    rw [hinsert]
    split
    · rename_i hk
      -- The count is below a 32-bit limit, so adding one does not wrap.
      have hlt : (zone.count key).toNat < maxConn.toNat := Nat.not_le.1 hroom
      have hmax := maxConn.toNat_lt
      rw [if_pos ⟨hk, hlt⟩, hk, UInt32.toNat_add]
      exact Nat.mod_eq_of_lt (by show (zone.count key).toNat + 1 < 2 ^ 32; omega)
    · rename_i hk
      rw [if_neg (fun h => hk h.1), Nat.add_zero]

theorem toNat_saturatingPred (count : UInt32) :
    (saturatingPred count).toNat = count.toNat - 1 := by
  rw [saturatingPred]
  split
  · rename_i hzero
    rw [hzero]
    rfl
  · rename_i hne
    have hle : (1 : UInt32) ≤ count := by
      rw [UInt32.le_iff_toNat_le]
      have hpos : count.toNat ≠ 0 := fun h => hne (UInt32.toNat_inj.1 h)
      show 1 ≤ count.toNat
      omega
    rw [UInt32.toNat_sub_of_le _ _ hle]
    rfl

/-- The counts after a guard is dropped. -/
theorem count_dropGuard (zone : LimitConnZone) (guard : LimitConnGuard) (k : String) :
    ((zone.dropGuard guard).count k).toNat =
      (zone.count k).toNat - if k = guard.key then 1 else 0 := by
  rw [dropGuard]
  cases hlookup : zone.state.lookup guard.key with
  | none =>
      show (zone.count k).toNat = _
      split
      · rename_i hk
        rw [hk, count, HashMap.getOr, hlookup]
        rfl
      · rfl
  | some c =>
      show (HashMap.getOr (zone.state.insert guard.key (saturatingPred c)) k 0).toNat = _
      rw [HashMap.getOr, HashMap.lookup_insert_eq]
      split
      · rename_i hk
        rw [hk, count, HashMap.getOr, hlookup]
        exact toNat_saturatingPred c
      · rfl

end LimitConnZone

/-- `try_acquire` keeps the accounts: its guard, if it hands one out, is live afterwards. -/
theorem tryAcquire_accounts {zone : LimitConnZone} {live : String → Nat}
    (h : Accounts zone live) (order : IterOrder (String × UInt32)) (key : String)
    (maxConn : UInt32) :
    Accounts (zone.tryAcquire order key maxConn).2
      (fun k => live k + if k = key ∧ live key < maxConn.toNat then 1 else 0) := by
  intro k
  rw [LimitConnZone.count_tryAcquire, h k, h key]

/-- Dropping a live guard keeps the accounts. -/
theorem dropGuard_accounts {zone : LimitConnZone} {live : String → Nat} (h : Accounts zone live)
    (guard : LimitConnGuard) :
    Accounts (zone.dropGuard guard) (fun k => live k - if k = guard.key then 1 else 0) := by
  intro k
  rw [LimitConnZone.count_dropGuard, h k]

/-- With the accounts right, `try_acquire` succeeds exactly while fewer guards than the limit are
live. -/
theorem tryAcquire_isSome_iff {zone : LimitConnZone} {live : String → Nat}
    (h : Accounts zone live) (order : IterOrder (String × UInt32)) (key : String)
    (maxConn : UInt32) :
    (zone.tryAcquire order key maxConn).1.isSome = true ↔ live key < maxConn.toNat := by
  rw [LimitConnZone.tryAcquire_isSome, h key]

/-- A guard is handed out for the key that was asked for. -/
theorem tryAcquire_key {zone : LimitConnZone} {order : IterOrder (String × UInt32)} {key : String}
    {maxConn : UInt32} {guard : LimitConnGuard}
    (h : (zone.tryAcquire order key maxConn).1 = some guard) : guard.key = key := by
  simp only [LimitConnZone.tryAcquire] at h
  split at h
  · cases h
  · cases h
    rfl

/-! ## Runs of acquisitions and drops -/

theorem count_cons_key (k key : String) (keys : List String) :
    (key :: keys).count k = keys.count k + if k = key then 1 else 0 := by
  rw [List.count_cons]
  by_cases h : k = key
  · simp [h]
  · simp [h, Ne.symm h]

/-- A zone with the guards that are live. -/
structure ConnState where
  zone : LimitConnZone
  guards : List LimitConnGuard

/-- What happens to a zone: an acquisition with the limit of the calling location, or the drop of
one of the live guards. -/
inductive ConnEvent where
  | acquire (order : IterOrder (String × UInt32)) (key : String) (maxConn : UInt32)
  | drop (i : Nat)

namespace ConnState

/-- The state after an event; there is nothing to drop past the end of the live guards. -/
def step (st : ConnState) : ConnEvent → ConnState
  | .acquire order key maxConn =>
      let (guard, zone) := st.zone.tryAcquire order key maxConn
      ⟨zone, st.guards ++ guard.toList⟩
  | .drop i =>
      match st.guards[i]? with
      | some guard => ⟨st.zone.dropGuard guard, st.guards.eraseIdx i⟩
      | none => st

/-- The number of live guards of a key. -/
def live (st : ConnState) (key : String) : Nat := (st.guards.map LimitConnGuard.key).count key

/-- The state after a run of events on a fresh zone. -/
def after (keyTemplate : Template) (maxEntries : Nat) (es : List ConnEvent) : ConnState :=
  run step ⟨LimitConnZone.new keyTemplate maxEntries, []⟩ es

/-- One event keeps the accounts. -/
theorem step_accounts (st : ConnState) (e : ConnEvent) (h : Accounts st.zone st.live) :
    Accounts (st.step e).zone (st.step e).live := by
  cases e with
  | acquire order key maxConn =>
      intro k
      have hsome := tryAcquire_isSome_iff h order key maxConn
      show ((st.zone.tryAcquire order key maxConn).2.count k).toNat =
        ((st.guards ++ (st.zone.tryAcquire order key maxConn).1.toList).map _).count k
      rw [tryAcquire_accounts h order key maxConn k, List.map_append, List.count_append]
      show st.live k + _ = st.live k + _
      congr 1
      cases hguard : (st.zone.tryAcquire order key maxConn).1 with
      | none =>
          have hfull : ¬ st.live key < maxConn.toNat := by
            rw [← hsome, hguard]
            exact Bool.false_ne_true
          rw [if_neg (fun hboth => hfull hboth.2)]
          rfl
      | some guard =>
          have hroom : st.live key < maxConn.toNat := by
            rw [← hsome, hguard]
            rfl
          show _ = [guard.key].count k
          rw [tryAcquire_key hguard, count_cons_key]
          simp [hroom]
  | drop i =>
      simp only [step]
      cases hget : st.guards[i]? with
      | none => exact h
      | some guard =>
          intro k
          obtain ⟨hi, hgi⟩ := List.getElem?_eq_some_iff.1 hget
          -- One guard of its key is gone from the list, and none of any other key.
          have hperm : (guard :: st.guards.eraseIdx i).Perm st.guards := by
            rw [← hgi]
            exact List.getElem_cons_eraseIdx_perm hi
          have hlive : st.live k =
              ((st.guards.eraseIdx i).map LimitConnGuard.key).count k +
                if k = guard.key then 1 else 0 := by
            rw [live, ← (hperm.map LimitConnGuard.key).count_eq, List.map_cons,
              count_cons_key]
          show ((st.zone.dropGuard guard).count k).toNat =
            ((st.guards.eraseIdx i).map LimitConnGuard.key).count k
          rw [dropGuard_accounts h guard k]
          show st.live k - (if k = guard.key then 1 else 0) = _
          rw [hlive]
          omega

/-- Along every run the count of every key is the number of its live guards. -/
theorem after_accounts (keyTemplate : Template) (maxEntries : Nat) (es : List ConnEvent) :
    Accounts (after keyTemplate maxEntries es).zone (after keyTemplate maxEntries es).live := by
  have hinit : Accounts (LimitConnZone.new keyTemplate maxEntries)
      (ConnState.mk (LimitConnZone.new keyTemplate maxEntries) []).live := fun _ => rfl
  exact run_invariant (Q := fun st : ConnState => Accounts st.zone st.live) step_accounts hinit es

end ConnState

/-- **Accounting of `limit_conn`.** After every run of acquisitions and drops on a zone, with any
keys, limits and eviction choices: the count of every key is the number of its live guards, an
acquisition succeeds exactly while fewer guards of its key are live than its limit, a key with
live guards is not evicted, and dropping a live guard finds a count above zero. -/
theorem conn_accounting (keyTemplate : Template) (maxEntries : Nat) (es : List ConnEvent) :
    let st := ConnState.after keyTemplate maxEntries es
    (∀ key, (st.zone.count key).toNat = st.live key) ∧
      (∀ order key maxConn,
        (st.zone.tryAcquire order key maxConn).1.isSome = true ↔ st.live key < maxConn.toNat) ∧
      (∀ order key dead, st.zone.evicted order key = some dead → st.live dead = 0) ∧
      ∀ guard ∈ st.guards, ∃ count, st.zone.state.lookup guard.key = some count ∧ 0 < count := by
  intro st
  have haccounts : Accounts st.zone st.live := ConnState.after_accounts keyTemplate maxEntries es
  refine ⟨haccounts, tryAcquire_isSome_iff haccounts, ?_, ?_⟩
  · intro order key dead hev
    rw [← haccounts dead, LimitConnZone.count_evicted hev]
    rfl
  · intro guard hguard
    have hlive : 0 < st.live guard.key := List.count_pos_iff.2 (List.mem_map_of_mem hguard)
    rw [← haccounts guard.key, LimitConnZone.count, HashMap.getOr] at hlive
    cases hlookup : st.zone.state.lookup guard.key with
    | none =>
        rw [hlookup] at hlive
        exact absurd hlive (lt_irrefl 0)
    | some count =>
        rw [hlookup] at hlive
        exact ⟨count, rfl, UInt32.lt_iff_toNat_lt.2 hlive⟩

/-- Two acquisitions for one key in a zone for one entry, then one for a second key. -/
def twoAlice : List ConnEvent :=
  [.acquire IterOrder.stored "alice" 2, .acquire IterOrder.stored "alice" 2,
    .acquire IterOrder.stored "bob" 2, .drop 2]

/-- After the run the third acquisition for the first key fails, and the guards of that key can
still be dropped: the second key did not evict it, and with no live guard it is evicted itself. -/
theorem conn_accounting_twoAlice :
    ¬ (ConnState.after ⟨[]⟩ 1 twoAlice).live "alice" < (2 : UInt32).toNat ∧
      (ConnState.after ⟨[]⟩ 1 twoAlice).live "bob" = 0 ∧
      ∃ count, (ConnState.after ⟨[]⟩ 1 twoAlice).zone.state.lookup "alice" = some count ∧
        0 < count := by
  obtain ⟨-, hacquire, hevict, hdrop⟩ := conn_accounting ⟨[]⟩ 1 twoAlice
  refine ⟨?_, ?_, ?_⟩
  · rw [← hacquire IterOrder.stored "alice" 2]
    decide
  · exact hevict IterOrder.stored "carol" "bob" (by decide)
  · exact hdrop ⟨"alice"⟩ (by decide)

end Elrond.Limit
