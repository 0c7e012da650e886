import Elrond.Limit.Conn

/-!
# `limit_conn` and the delivery of responses

`handle` of `server.rs` and `dispatch` of `http3.rs` take a guard when a request passes the
`limit_conn` gate of its location and drop it at the end of the arm that computed the response.
The connection then delivers the response, whose body may still be streaming from an upstream,
without a guard. A request that passed the gate is therefore first handled, with a guard, and then
delivered, without one; it is gone when its response is delivered or its connection closes.
Several locations may refer to one zone, each with its own limit.

The counts of the zone are the guards of the requests being handled (`step_accounts`). So a
location stays within its limit in exactly the runs in which no request is let in while the
responses still being delivered use up what the guards leave free (`delivery_bounded_iff`).
-/

set_option autoImplicit false

namespace Elrond.Limit

open Elrond.Lib Elrond.Http Elrond.Request

/-- What a request that passed the gate is waiting for: its handler, or the delivery of its
response. -/
inductive RequestPhase where
  | handling
  | delivering
deriving DecidableEq, Repr

/-- A request that passed the gate of a location. -/
structure Admitted where
  location : Nat
  key : String
  phase : RequestPhase
deriving DecidableEq, Repr

/-- A zone and the requests admitted under it that are not finished. -/
structure LoadState where
  zone : LimitConnZone
  requests : List Admitted

/-- What happens at a server: a request of a location reaches the gate, the handler of an admitted
request returns its response (that of the action or of a later gate), a response is delivered
completely, or the connection of a request goes away. -/
inductive LoadEvent where
  | accept (order : IterOrder (String × UInt32)) (location : Nat) (ctx : RequestCtx)
  | respond (i : Nat)
  | delivered (i : Nat)
  | abort (i : Nat)

namespace LoadState

/-- The state after an event; `maxConn` is the limit of each location. -/
def step (maxConn : Nat → UInt32) (st : LoadState) : LoadEvent → LoadState
  | .accept order location ctx =>
      match enforceConn ⟨st.zone, maxConn location⟩ order ctx with
      | (.ok guard, zone) => ⟨zone, st.requests ++ [⟨location, guard.key, .handling⟩]⟩
      | (.error _, zone) => ⟨zone, st.requests⟩
  | .respond i =>
      match st.requests[i]? with
      | some ⟨location, key, .handling⟩ =>
          ⟨st.zone.dropGuard ⟨key⟩, st.requests.set i ⟨location, key, .delivering⟩⟩
      | _ => st
  | .delivered i =>
      match st.requests[i]? with
      | some ⟨_, _, .delivering⟩ => ⟨st.zone, st.requests.eraseIdx i⟩
      | _ => st
  | .abort i =>
      match st.requests[i]? with
      | some ⟨_, key, .handling⟩ => ⟨st.zone.dropGuard ⟨key⟩, st.requests.eraseIdx i⟩
      | some ⟨_, _, .delivering⟩ => ⟨st.zone, st.requests.eraseIdx i⟩
      | none => st

/-- A fresh zone without requests. -/
def init (keyTemplate : Template) (maxEntries : Nat) : LoadState :=
  ⟨LimitConnZone.new keyTemplate maxEntries, []⟩

/-- The live guards of a key: one for every request of the key being handled. -/
def guarded (st : LoadState) (key : String) : Nat :=
  st.requests.countP fun r => r.key = key ∧ r.phase = .handling

/-- The requests of a key on a location that are in a phase. -/
def inPhase (st : LoadState) (phase : RequestPhase) (location : Nat) (key : String) : Nat :=
  st.requests.countP fun r => r.location = location ∧ r.key = key ∧ r.phase = phase

/-- The admitted requests of a key on a location whose response is not completely delivered. -/
def undelivered (st : LoadState) (location : Nat) (key : String) : Nat :=
  st.requests.countP fun r => r.location = location ∧ r.key = key

/-- Every location is within its limit for every key. -/
def WithinLimit (maxConn : Nat → UInt32) (st : LoadState) : Prop :=
  ∀ location key, st.undelivered location key ≤ (maxConn location).toNat

/-- A request that finds fewer live guards of its key than its location allows also finds that
the location's guards of the key and its responses still being delivered are fewer. -/
def NoOverhang (maxConn : Nat → UInt32) (st : LoadState) : LoadEvent → Prop
  | .accept _ location ctx =>
      st.guarded (st.zone.keyTemplate.render ctx) < (maxConn location).toNat →
        st.inPhase .handling location (st.zone.keyTemplate.render ctx) +
          st.inPhase .delivering location (st.zone.keyTemplate.render ctx) <
            (maxConn location).toNat
  | _ => True

/-- A request is undelivered while it is handled and while it is delivered. -/
theorem undelivered_eq (st : LoadState) (location : Nat) (key : String) :
    st.undelivered location key =
      st.inPhase .handling location key + st.inPhase .delivering location key := by
  rw [undelivered, inPhase, inPhase]
  induction st.requests with
  | nil => rfl
  | cons r rest ih =>
      rw [List.countP_cons, List.countP_cons, List.countP_cons, ih]
      cases r.phase with
      | handling =>
          by_cases h : r.location = location ∧ r.key = key
          · simp [h]
            omega
          · simp [h]
      | delivering =>
          by_cases h : r.location = location ∧ r.key = key
          · simp [h]
            omega
          · simp [h]

/-! ## One event -/

/-- A request is admitted exactly while fewer guards of its key are live than the limit of its
location. -/
theorem step_accept (maxConn : Nat → UInt32) (st : LoadState)
    (order : IterOrder (String × UInt32)) (location : Nat) (ctx : RequestCtx)
    (h : Accounts st.zone st.guarded) :
    (st.step maxConn (.accept order location ctx)).zone =
        (st.zone.tryAcquire order (st.zone.keyTemplate.render ctx) (maxConn location)).2 ∧
      (st.step maxConn (.accept order location ctx)).requests =
        st.requests ++
          if st.guarded (st.zone.keyTemplate.render ctx) < (maxConn location).toNat then
            [⟨location, st.zone.keyTemplate.render ctx, .handling⟩]
          else [] := by
  have hsome := tryAcquire_isSome_iff h order (st.zone.keyTemplate.render ctx) (maxConn location)
  simp only [step, enforceConn]
  rcases hacq : st.zone.tryAcquire order (st.zone.keyTemplate.render ctx) (maxConn location) with
    ⟨guard, zone⟩
  rw [hacq] at hsome
  cases guard with
  | none =>
      rw [if_neg (fun hroom => absurd (hsome.2 hroom) Bool.false_ne_true), List.append_nil]
      exact ⟨rfl, rfl⟩
  | some guard =>
      have hkey : guard.key = st.zone.keyTemplate.render ctx := tryAcquire_key (by rw [hacq])
      rw [if_pos (hsome.1 rfl), ← hkey]
      exact ⟨rfl, rfl⟩

/-- What an event does to one admitted request: nothing, its handler returns, or it is gone. A
request that is no longer handled has given its guard back. -/
theorem step_request (maxConn : Nat → UInt32) (st : LoadState) {e : LoadEvent}
    (h : ∀ order location ctx, e ≠ .accept order location ctx) :
    st.step maxConn e = st ∨
      ∃ r rest after, st.requests.Perm (r :: rest) ∧
        (st.step maxConn e).requests.Perm (after ++ rest) ∧
        (after = [] ∨ r.phase = .handling ∧ after = [{ r with phase := .delivering }]) ∧
        (st.step maxConn e).zone =
          if r.phase = .handling then st.zone.dropGuard ⟨r.key⟩ else st.zone := by
  -- The request the event names, and the others.
  have hperm : ∀ {i : Nat} {r : Admitted}, st.requests[i]? = some r →
      st.requests.Perm (r :: st.requests.eraseIdx i) := by
    intro i r hget
    obtain ⟨hi, hr⟩ := List.getElem?_eq_some_iff.1 hget
    rw [← hr]
    exact (List.getElem_cons_eraseIdx_perm hi).symm
  cases e with
  | accept order location ctx => exact absurd rfl (h order location ctx)
  | respond i =>
      simp only [step]
      cases hget : st.requests[i]? with
      | none => exact Or.inl rfl
      | some r =>
          obtain ⟨location, key, phase⟩ := r
          obtain ⟨hi, -⟩ := List.getElem?_eq_some_iff.1 hget
          cases phase with
          | handling =>
              refine Or.inr ⟨_, _, _, hperm hget, ?_, Or.inr ⟨rfl, rfl⟩, rfl⟩
              exact List.set_perm_cons_eraseIdx hi _
          | delivering => exact Or.inl rfl
  | delivered i =>
      simp only [step]
      cases hget : st.requests[i]? with
      | none => exact Or.inl rfl
      | some r =>
          obtain ⟨location, key, phase⟩ := r
          cases phase with
          | handling => exact Or.inl rfl
          | delivering =>
              exact Or.inr ⟨_, _, [], hperm hget, List.Perm.refl _, Or.inl rfl, rfl⟩
  | abort i =>
      simp only [step]
      cases hget : st.requests[i]? with
      | none => exact Or.inl rfl
      | some r =>
          obtain ⟨location, key, phase⟩ := r
          cases phase with
          | handling => exact Or.inr ⟨_, _, [], hperm hget, List.Perm.refl _, Or.inl rfl, rfl⟩
          | delivering => exact Or.inr ⟨_, _, [], hperm hget, List.Perm.refl _, Or.inl rfl, rfl⟩

/-- An arrival keeps the counts of the zone the guards of the requests being handled. -/
theorem accept_accounts (maxConn : Nat → UInt32) (st : LoadState)
    (order : IterOrder (String × UInt32)) (location : Nat) (ctx : RequestCtx)
    (h : Accounts st.zone st.guarded) :
    Accounts (st.step maxConn (.accept order location ctx)).zone
      (st.step maxConn (.accept order location ctx)).guarded := by
  obtain ⟨hzone, hrequests⟩ := step_accept maxConn st order location ctx h
  intro k
  rw [hzone, tryAcquire_accounts h]
  show _ = (st.step maxConn (.accept order location ctx)).requests.countP _
  rw [hrequests, List.countP_append]
  show st.guarded k + _ = st.guarded k + _
  congr 1
  split
  · rename_i hboth
    rw [if_pos hboth.2]
    simp [hboth.1]
  · rename_i hnot
    split
    · rename_i hroom
      have hk : ¬ st.zone.keyTemplate.render ctx = k := fun hk => hnot ⟨hk.symm, hroom⟩
      simp [hk]
    · rfl

/-- So does every other event: a request that is no longer handled has given its guard back. -/
theorem request_accounts (maxConn : Nat → UInt32) (st : LoadState) {e : LoadEvent}
    (hother : ∀ order location ctx, e ≠ .accept order location ctx)
    (h : Accounts st.zone st.guarded) :
    Accounts (st.step maxConn e).zone (st.step maxConn e).guarded := by
  rcases step_request maxConn st hother with hsame | ⟨r, rest, after, hbefore, hafter, hr, hzone⟩
  · rw [hsame]
    exact h
  · intro k
    have hold : st.guarded k =
        rest.countP (fun r => r.key = k ∧ r.phase = .handling) +
          if r.key = k ∧ r.phase = .handling then 1 else 0 := by
      rw [guarded, hbefore.countP_eq, List.countP_cons]
      simp
    have hnew : (st.step maxConn e).guarded k =
        rest.countP (fun r => r.key = k ∧ r.phase = .handling) := by
      rw [guarded, hafter.countP_eq, List.countP_append]
      rcases hr with rfl | ⟨-, rfl⟩
      · simp
      · simp
    rw [hnew, hzone]
    split
    · rename_i hphase
      rw [dropGuard_accounts h]
      show st.guarded k - (if k = r.key then 1 else 0) = _
      rw [hold]
      by_cases hk : k = r.key
      · simp [hk, hphase]
      · simp [hk, Ne.symm hk]
    · rename_i hphase
      rw [h k, hold]
      simp [hphase]

/-- The counts of the zone stay the guards of the requests being handled. -/
theorem step_accounts (maxConn : Nat → UInt32) (st : LoadState) (e : LoadEvent)
    (h : Accounts st.zone st.guarded) :
    Accounts (st.step maxConn e).zone (st.step maxConn e).guarded := by
  by_cases haccept : ∃ order location ctx, e = .accept order location ctx
  · obtain ⟨order, location, ctx, rfl⟩ := haccept
    exact accept_accounts maxConn st order location ctx h
  · apply request_accounts maxConn st _ h
    exact fun order location ctx he => haccept ⟨order, location, ctx, he⟩

/-- An admitted request is one undelivered request more. -/
theorem undelivered_accept (maxConn : Nat → UInt32) (st : LoadState)
    (order : IterOrder (String × UInt32)) (location : Nat) (ctx : RequestCtx)
    (h : Accounts st.zone st.guarded) (l : Nat) (k : String) :
    (st.step maxConn (.accept order location ctx)).undelivered l k =
      st.undelivered l k +
        if st.guarded (st.zone.keyTemplate.render ctx) < (maxConn location).toNat ∧
          location = l ∧ st.zone.keyTemplate.render ctx = k then 1 else 0 := by
  obtain ⟨-, hrequests⟩ := step_accept maxConn st order location ctx h
  rw [undelivered, hrequests, List.countP_append]
  show st.undelivered l k + _ = st.undelivered l k + _
  congr 1
  split
  · rename_i hroom
    by_cases hown : location = l ∧ st.zone.keyTemplate.render ctx = k
    · obtain ⟨rfl, rfl⟩ := hown
      simp [hroom]
    · simp [hroom, hown]
  · rename_i hfull
    simp [hfull]

/-- Events other than an arrival do not add undelivered requests. -/
theorem undelivered_request_le (maxConn : Nat → UInt32) (st : LoadState) {e : LoadEvent}
    (hother : ∀ order location ctx, e ≠ .accept order location ctx) (l : Nat) (k : String) :
    (st.step maxConn e).undelivered l k ≤ st.undelivered l k := by
  rcases step_request maxConn st hother with hsame | ⟨r, rest, after, hbefore, hafter, hr, -⟩
  · rw [hsame]
  · rw [undelivered, undelivered, hbefore.countP_eq, hafter.countP_eq, List.countP_append,
      List.countP_cons]
    rcases hr with rfl | ⟨-, rfl⟩
    · rw [List.countP_nil, Nat.zero_add]
      exact Nat.le_add_right _ _
    · rw [List.countP_singleton]
      simp only
      omega

/-- An event keeps every location within its limit exactly if it lets no request in past the
responses that are still being delivered. -/
theorem step_withinLimit (maxConn : Nat → UInt32) (st : LoadState) (e : LoadEvent)
    (h : Accounts st.zone st.guarded) (hwithin : st.WithinLimit maxConn) :
    (st.step maxConn e).WithinLimit maxConn ↔ st.NoOverhang maxConn e := by
  by_cases haccept : ∃ order location ctx, e = .accept order location ctx
  · obtain ⟨order, location, ctx, rfl⟩ := haccept
    have hcount := undelivered_accept maxConn st order location ctx h
    simp only [NoOverhang, ← undelivered_eq]
    constructor
    · intro hnext hroom
      have hle := hnext location (st.zone.keyTemplate.render ctx)
      rw [hcount, if_pos ⟨hroom, rfl, rfl⟩] at hle
      omega
    · intro hfree l k
      rw [hcount]
      split
      · rename_i hown
        obtain ⟨hroom, rfl, rfl⟩ := hown
        exact hfree hroom
      · exact hwithin l k
  · have hother : ∀ order location ctx, e ≠ .accept order location ctx :=
      fun order location ctx he => haccept ⟨order, location, ctx, he⟩
    have hfree : st.NoOverhang maxConn e := by
      cases e with
      | accept order location ctx => exact absurd rfl (hother order location ctx)
      | respond i => trivial
      | delivered i => trivial
      | abort i => trivial
    refine ⟨fun _ => hfree, fun _ l k => ?_⟩
    exact le_trans (undelivered_request_le maxConn st hother l k) (hwithin l k)

end LoadState

/-- **`limit_conn` and delivery.** In a run on a fresh zone, every location has, at every moment
and for every key, at most as many admitted requests with undelivered responses as its limit
says, exactly if no request is let in while the location's live guards of the key and its
responses of the key still being delivered reach the limit. -/
theorem delivery_bounded_iff (keyTemplate : Template) (maxEntries : Nat) (maxConn : Nat → UInt32)
    (es : List LoadEvent) :
    Always (LoadState.step maxConn) (LoadState.WithinLimit maxConn)
        (LoadState.init keyTemplate maxEntries) es ↔
      AllSteps (LoadState.step maxConn) (LoadState.NoOverhang maxConn)
        (LoadState.init keyTemplate maxEntries) es := by
  apply always_iff_allSteps (I := fun st : LoadState => Accounts st.zone st.guarded)
  · exact LoadState.step_accounts maxConn
  · exact LoadState.step_withinLimit maxConn
  · exact fun _ => rfl
  · exact fun _ _ => Nat.zero_le _

/-- A GET for `/download` from 192.0.2.7. -/
def downloadCtx : RequestCtx where
  peer := ⟨.v4 ⟨192, 0, 2, 7⟩, 40000, 0⟩
  serverName := none
  method := .get
  uri := ⟨none, none, some "/download"⟩
  headers := ∅
  scheme := .http
  userVars := ∅

/-- A client starts a download and, while its body is still streaming, starts a second one. -/
def twoDownloads : List LoadEvent :=
  [.accept IterOrder.stored 0 downloadCtx, .respond 0, .accept IterOrder.stored 0 downloadCtx]

/-- With a limit of one per client address, two downloads of one client are delivered at once. -/
theorem two_downloads_exceed_limit :
    ¬ Always (LoadState.step fun _ => 1) (LoadState.WithinLimit fun _ => 1)
      (LoadState.init (Template.parse "$remote_addr") 16384) twoDownloads := by
  intro h
  have hend := h twoDownloads [] (by simp) 0 "192.0.2.7"
  exact absurd hend (by decide)

end Elrond.Limit
