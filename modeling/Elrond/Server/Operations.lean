import Elrond.App.VirtualHosts
import Elrond.Proxy.Labels
import Elrond.Server.StaticResponses
import Elrond.Stream.Relay
import Elrond.Upstream.Probes

/-!
# Operations on part of their arguments

Four operations of the runtime are defined on part of their arguments only, or may wrap:
`body::text` panics on a status code outside 100..=999, `tokio::time::interval` on a period of zero
and `Instant + Duration` when the seconds leave an `i64`; the sum of `now_ms()` and a `fail_timeout`
is kept in a `u64`.

An `Occasion` is a thing that happens at run time with all that it meets: a request, the start of a
probe task, a probe, a connection or a datagram. Its `operations` are those performed then. They are
read off what the exchange with the upstreams does; `failuresDue` and `exchangeUpshot` say the same
from what the peers answer (`exchangeOperations_inDomain_iff`).
-/

set_option autoImplicit false

namespace Elrond.Server

open Elrond.Lib Elrond.Http Elrond.Request Elrond.Config Elrond.Upstream Elrond.Proxy Elrond.App
  Elrond.Static

/-! ## Operations -/

/-- An operation with its arguments: `body::text`, `tokio::time::interval`, `Instant::now() + ttl`
with the instant it comes to in nanoseconds, and `now_ms() + fail_timeout`. -/
inductive Operation where
  | text (status : Nat)
  | interval (period : Text.Duration)
  | expiry (instant : Nat)
  | cooldown (nowMs : UInt64) (timeout : Text.Duration)
deriving DecidableEq, Repr

/-- The arguments an operation is defined on. -/
def Operation.InDomain : Operation → Prop
  | .text status => 100 ≤ status ∧ status ≤ 999
  | .interval period => period ≠ 0
  | .expiry instant => instant / 10 ^ 9 < 2 ^ 63
  | .cooldown nowMs timeout => nowMs.toNat + Text.asMillis timeout < 2 ^ 64

instance : DecidablePred Operation.InDomain
  | .text status => inferInstanceAs (Decidable (100 ≤ status ∧ status ≤ 999))
  | .interval period => inferInstanceAs (Decidable (period ≠ 0))
  | .expiry instant => inferInstanceAs (Decidable (instant / 10 ^ 9 < 2 ^ 63))
  | .cooldown nowMs timeout =>
      inferInstanceAs (Decidable (nowMs.toNat + Text.asMillis timeout < 2 ^ 64))

/-- A peer that is taken out of rotation stays out until the end of its timeout exactly if the sum
is in its domain; otherwise another time is stored. -/
theorem recordFailure_inDomain_iff (p : Peer) (nowMs : UInt64)
    (h : max p.maxFails 1 ≤ p.consecutiveFailures + 1) :
    (p.recordFailure nowMs).failedUntilMs.toNat = nowMs.toNat + Text.asMillis p.failTimeout ↔
      (Operation.cooldown nowMs p.failTimeout).InDomain := by
  have hmod : (p.recordFailure nowMs).failedUntilMs.toNat =
      (nowMs.toNat + Text.asMillis p.failTimeout) % 2 ^ 64 := by
    simp [Peer.recordFailure, h, UInt64.toNat_add]
  rw [hmod, Operation.InDomain]
  constructor
  · intro heq
    rw [← heq]
    exact Nat.mod_lt _ (by positivity)
  · intro hlt
    exact Nat.mod_eq_of_lt hlt

/-! ## Failures of peers -/

/-- The timeouts of the peers of a balancer. -/
def timeouts (b : Balancer) : List Text.Duration := b.peers.map Peer.failTimeout

theorem timeouts_of_config {b b' : Balancer} (h : balancerConfig b = balancerConfig b') :
    timeouts b = timeouts b' := by
  have hpeers : b.peers.map peerConfig = b'.peers.map peerConfig :=
    congrArg (fun config => config.2.2.1) h
  have hmap := congrArg (List.map UpstreamServer.failTimeout) hpeers
  rw [List.map_map, List.map_map] at hmap
  exact hmap

@[simp] theorem timeouts_apply (f : Interference) (b : Balancer) :
    timeouts (f.apply b) = timeouts b := timeouts_of_config (f.keeps b)

@[simp] theorem timeouts_pickInner (hash : IpAddr → UInt64) (b : Balancer) (nowMs : UInt64)
    (clientIp : IpAddr) (exclude : List String) :
    timeouts (b.pickInner hash nowMs clientIp exclude).2 = timeouts b :=
  congrArg (List.map Peer.failTimeout) (Balancer.pickInner_peers hash b nowMs clientIp exclude)

theorem timeouts_modifyPeer {f : Peer → Peer} (h : ∀ p, (f p).failTimeout = p.failTimeout)
    (b : Balancer) (i : Nat) : timeouts (b.modifyPeer i f) = timeouts b := by
  apply List.ext_getElem?
  intro j
  rw [timeouts, timeouts, List.getElem?_map, List.getElem?_map, Balancer.modifyPeer,
    List.getElem?_modify, Option.map_eq_map, Option.map_map]
  refine Option.map_congr fun p _ => ?_
  by_cases hij : i = j
  · simp [hij, h]
  · simp [hij]

@[simp] theorem timeouts_enter (b : Balancer) (i : Nat) :
    timeouts (b.modifyPeer i Peer.enter) = timeouts b :=
  timeouts_modifyPeer (f := Peer.enter) (fun _ => rfl) b i

@[simp] theorem timeouts_failPeer (b : Balancer) (i : Nat) (doneMs : UInt64) :
    timeouts (failPeer b i doneMs) = timeouts b := by
  have hrecord : ∀ p : Peer, (p.recordFailure doneMs).failTimeout = p.failTimeout := by
    intro p
    rw [Peer.recordFailure]
    split <;> rfl
  rw [failPeer, timeouts_modifyPeer (f := Peer.leave) (fun _ => rfl), timeouts_modifyPeer hrecord]

/-- A call of `record_failure` on the peer at a position, with the balancer that it meets. -/
structure FailureRecord where
  balancer : Balancer
  peer : Nat
  nowMs : UInt64

namespace FailureRecord

/-- The failure is one too many, and its peer is taken out of rotation. -/
def Cools (f : FailureRecord) : Prop :=
  ∃ p, f.balancer.peers[f.peer]? = some p ∧ max p.maxFails 1 ≤ p.consecutiveFailures + 1

/-- The sum that is formed then. -/
def cooldown? (f : FailureRecord) : Option Operation :=
  f.balancer.peers[f.peer]?.bind fun p =>
    if max p.maxFails 1 ≤ p.consecutiveFailures + 1 then some (.cooldown f.nowMs p.failTimeout)
    else none

/-- Of these timeouts, that of the peer fits at the time of a failure too many. -/
def Fits (f : FailureRecord) (timeouts : List Text.Duration) : Prop :=
  f.Cools → ∀ t ∈ timeouts[f.peer]?, f.nowMs.toNat + Text.asMillis t < 2 ^ 64

theorem inDomain_iff (f : FailureRecord) :
    (∀ op ∈ f.cooldown?, op.InDomain) ↔ f.Fits (timeouts f.balancer) := by
  rw [cooldown?, Fits, Cools, timeouts, List.getElem?_map]
  cases f.balancer.peers[f.peer]? with
  | none => simp
  | some p =>
      by_cases hfull : max p.maxFails 1 ≤ p.consecutiveFailures + 1
      · simp [hfull, Operation.InDomain]
      · simp [hfull]

end FailureRecord

/-! ## Exchanges with upstreams -/

/-- The position of the peer that an event records a failure on. -/
def failedPeer? : ProxyEvent → Option Nat
  | .recordFailure peer => some peer
  | _ => none

/-- The instant that is formed for an entry that is stored. -/
def expiry? : ProxyEvent → Option Operation
  | .cachePut _ entry => some (.expiry entry.expiresAt)
  | _ => none

/-- The failures recorded on the given peers one after the other, each with the balancer that it
meets. -/
def failuresOn (env : Env) (clientIp : IpAddr) :
    (done : Nat) → (excluded : List String) → Balancer → List Nat → List FailureRecord
  | _, _, _, [] => []
  | done, excluded, b, i :: rest =>
      let a := env.attempt done
      let picked := ((a.before.apply b).pickInner env.hash a.pickMs clientIp excluded).2
      let met := a.during.apply (picked.modifyPeer i Peer.enter)
      ⟨met, i, a.doneMs⟩ ::
        failuresOn env clientIp (done + 1) (excluded ++ (b.peers[i]?.map Peer.addr).toList)
          (failPeer met i a.doneMs) rest

section Exchanges

variable (env : Env) (s : Settings) (clientPeer : SocketAddr) (ctx : RequestCtx)

/-- The failures that an exchange records. -/
def exchangeFailures (req : Request) (st : ProxyState) : List FailureRecord :=
  failuresOn env ctx.peer.ip 0 [] st.balancer
    ((forward env s req clientPeer ctx st).events.filterMap failedPeer?)

/-- The operations of an exchange. -/
def exchangeOperations (req : Request) (st : ProxyState) : List Operation :=
  (exchangeFailures env s clientPeer ctx req st).filterMap FailureRecord.cooldown? ++
    (forward env s req clientPeer ctx st).events.filterMap expiry?

/-- The failures of the peers when a request is sent to one after the other. -/
def failuresFrom (req : Request) :
    (left done : Nat) → (excluded : List String) → Balancer → List FailureRecord
  | 0, _, _, _ => []
  | left + 1, done, excluded, b =>
      let a := env.attempt done
      match (a.before.apply b).pickInner env.hash a.pickMs ctx.peer.ip excluded with
      | (none, _) => []
      | (some (peer, i), b) =>
          let outbound := outboundRequest env.parseUri peer.addr b.scheme s req clientPeer ctx
          let met := a.during.apply (b.modifyPeer i Peer.enter)
          let failed : List FailureRecord :=
            ⟨met, i, a.doneMs⟩ ::
              failuresFrom req left (done + 1) (excluded ++ [peer.addr]) (failPeer met i a.doneMs)
          match forwardToPeer a s outbound with
          | none => failed
          | some resp => if isServerError resp.status then failed else []

/-- The failures of the peers in an exchange that the cache does not answer. -/
def failuresDue (req : Request) (b : Balancer) : List FailureRecord :=
  let attempts := if retrySafe req.method then min maxAttempts (max b.peers.length 1) else 1
  failuresFrom env s clientPeer ctx (requestSent req) attempts 0 [] b

/-- The peers of a balancer keep their timeouts in an exchange. -/
theorem timeouts_failuresFrom (req : Request) :
    ∀ (left done : Nat) (excluded : List String) (b : Balancer),
      ∀ f ∈ failuresFrom env s clientPeer ctx req left done excluded b,
        timeouts f.balancer = timeouts b := by
  intro left
  induction left with
  | zero => exact fun _ _ _ f hf => absurd hf List.not_mem_nil
  | succ left ih =>
      intro done excluded b
      have hpicked := timeouts_pickInner env.hash ((env.attempt done).before.apply b)
        (env.attempt done).pickMs ctx.peer.ip excluded
      rw [failuresFrom]
      generalize Balancer.pickInner env.hash ((env.attempt done).before.apply b)
        (env.attempt done).pickMs ctx.peer.ip excluded = picked at hpicked ⊢
      obtain ⟨_ | ⟨peer, i⟩, b'⟩ := picked
      · exact fun f hf => absurd hf List.not_mem_nil
      · rw [timeouts_apply] at hpicked
        have hmet : timeouts ((env.attempt done).during.apply (b'.modifyPeer i Peer.enter)) =
            timeouts b := by
          rw [timeouts_apply, timeouts_enter]
          exact hpicked
        -- this failure and those after it
        have hfailed : ∀ f ∈ (⟨(env.attempt done).during.apply (b'.modifyPeer i Peer.enter), i,
              (env.attempt done).doneMs⟩ : FailureRecord) ::
            failuresFrom env s clientPeer ctx req left (done + 1) (excluded ++ [peer.addr])
              (failPeer ((env.attempt done).during.apply (b'.modifyPeer i Peer.enter)) i
                (env.attempt done).doneMs),
            timeouts f.balancer = timeouts b := by
          intro f hf
          rcases List.mem_cons.1 hf with rfl | hf
          · exact hmet
          · rw [ih _ _ _ f hf, timeouts_failPeer, hmet]
        dsimp only
        split
        · exact hfailed
        · split
          · exact hfailed
          · exact fun f hf => absurd hf List.not_mem_nil

theorem failedPeer?_attempt (i : Nat) (client : ClientKind) (outbound : Option Request)
    (rest : List ProxyEvent) :
    (attemptEvents i client outbound ++ failureEvents i ++ rest).filterMap failedPeer? =
      i :: rest.filterMap failedPeer? := by
  cases outbound with
  | none => rfl
  | some q => rfl

/-- A successful attempt records no failure. -/
theorem failedPeer?_answered (i : Nat) (client : ClientKind) (outbound : Option Request)
    (cache : Option ProxyCache) (m : Method) (h : HeaderMap) (resp : Response)
    (store : Cache.State) :
    (attemptEvents i client outbound ++
        ProxyEvent.recordSuccess i :: (maybeCache env cache m ctx h resp store).2.2 ++
        [ProxyEvent.leave i]).filterMap failedPeer? = [] := by
  have hcache : (maybeCache env cache m ctx h resp store).2.2.filterMap failedPeer? = [] := by
    apply List.filterMap_eq_nil_iff.2
    intro e he
    have hother := List.filter_eq_nil_iff.1 (filter_maybeCache env ctx cache m h resp store) e he
    cases e with
    | recordFailure peer => exact absurd rfl hother
    | _ => rfl
  have hopening : (attemptEvents i client outbound).filterMap failedPeer? = [] := by
    cases outbound with
    | none => rfl
    | some q => rfl
  rw [List.filterMap_append, List.filterMap_append, hopening, List.filterMap_cons, hcache]
  rfl

/-- The failures that the retry loop records are those of the peers. -/
theorem failuresOn_retryLoop (parts : Request) :
    ∀ (left done : Nat) (excluded : List String) (last : Option Response) (st : ProxyState),
      failuresOn env ctx.peer.ip done excluded st.balancer
          ((retryLoop env s parts clientPeer ctx left done excluded last st).events.filterMap
            failedPeer?) =
        failuresFrom env s clientPeer ctx (buildRequest parts emptyBody) left done excluded
          st.balancer := by
  intro left
  -- Induction on the attempts left, as both recursions take them.
  induction left with
  | zero => exact fun _ _ _ _ => rfl
  | succ left ih =>
      intro done excluded last st
      rw [retryLoop, failuresFrom]
      cases hpick : Balancer.pickInner env.hash ((env.attempt done).before.apply st.balancer)
        (env.attempt done).pickMs ctx.peer.ip excluded with
      | mk picked b =>
          cases picked with
          | none => rfl
          | some choice =>
              obtain ⟨peer, i⟩ := choice
              have haddr := (picked_addr env ctx hpick).2
              dsimp only
              generalize outboundRequest env.parseUri peer.addr b.scheme s
                (buildRequest parts emptyBody) clientPeer ctx = outbound
              generalize hmet : (env.attempt done).during.apply (b.modifyPeer i Peer.enter) = met
              -- a failed attempt adds its record in front
              have hnext : ∀ last, failuresOn env ctx.peer.ip done excluded st.balancer
                  ((attemptEvents i s.pickClient outbound ++ failureEvents i ++
                    (retryLoop env s parts clientPeer ctx left (done + 1)
                      (excluded ++ [peer.addr]) last
                      { st with balancer := failPeer met i (env.attempt done).doneMs }).events
                    ).filterMap failedPeer?) =
                  ⟨met, i, (env.attempt done).doneMs⟩ ::
                    failuresFrom env s clientPeer ctx (buildRequest parts emptyBody) left (done + 1)
                      (excluded ++ [peer.addr]) (failPeer met i (env.attempt done).doneMs) := by
                intro last
                rw [failedPeer?_attempt, failuresOn, hpick, haddr]
                dsimp only
                rw [hmet]
                exact congrArg _ (ih (done + 1) (excluded ++ [peer.addr]) last
                  { st with balancer := failPeer met i (env.attempt done).doneMs })
              cases forwardToPeer (env.attempt done) s outbound with
              | none => exact hnext last
              | some resp =>
                  dsimp only
                  split
                  · exact hnext (some resp)
                  · rw [failedPeer?_answered env ctx i s.pickClient outbound]
                    rfl

/-- And so are those that the single-shot path records. -/
theorem failuresOn_forwardOnce (req : Request) (st : ProxyState) :
    failuresOn env ctx.peer.ip 0 [] st.balancer
        ((forwardOnceWithIncoming env s req clientPeer ctx st).events.filterMap failedPeer?) =
      failuresFrom env s clientPeer ctx req 1 0 [] st.balancer := by
  rw [forwardOnceWithIncoming, failuresFrom]
  cases hpick : Balancer.pickInner env.hash ((env.attempt 0).before.apply st.balancer)
    (env.attempt 0).pickMs ctx.peer.ip [] with
  | mk picked b =>
      cases picked with
      | none => rfl
      | some choice =>
          obtain ⟨peer, i⟩ := choice
          dsimp only
          generalize outboundRequest env.parseUri peer.addr b.scheme s req clientPeer ctx = outbound
          generalize hmet : (env.attempt 0).during.apply (b.modifyPeer i Peer.enter) = met
          have hfailed : failuresOn env ctx.peer.ip 0 [] st.balancer
              ((attemptEvents i s.pickClient outbound ++ failureEvents i).filterMap failedPeer?) =
              [⟨met, i, (env.attempt 0).doneMs⟩] := by
            rw [← List.append_nil (_ ++ _), failedPeer?_attempt, failuresOn, hpick]
            dsimp only
            rw [hmet]
            rfl
          cases forwardToPeer (env.attempt 0) s outbound with
          | none => exact hfailed
          | some resp =>
              dsimp only
              split
              · exact hfailed
              · cases outbound with
                | none => rfl
                | some q => rfl

/-- The failures that an exchange records are those of the peers, unless the cache answers. -/
theorem exchangeFailures_eq (req : Request) (st : ProxyState)
    (hmiss : (lookupCache env s req ctx st.store).1 = none) :
    exchangeFailures env s clientPeer ctx req st =
      failuresDue env s clientPeer ctx req st.balancer := by
  rw [exchangeFailures, forward_of_missed hmiss, failuresDue, requestSent]
  cases retrySafe req.method with
  | true =>
      exact failuresOn_retryLoop env s clientPeer ctx req _ 0 [] none
        { st with store := (lookupCache env s req ctx st.store).2 }
  | false =>
      exact failuresOn_forwardOnce env s clientPeer ctx req
        { st with store := (lookupCache env s req ctx st.store).2 }

/-- The rules that the responses of an exchange are stored by. -/
def rulesOf : List (List Nat × Text.Duration) := (s.cache.map ProxyCache.validRules).getD []

theorem matchingTtl_of_store {method : Method} {headers : HeaderMap} {status bodyLen : Nat}
    {rules : List (List Nat × Text.Duration)} {ttl : Text.Duration}
    (h : Cache.decideCaching method headers status bodyLen rules = .store ttl) :
    Cache.matchingTtl rules status = some ttl := by
  rw [Cache.decideCaching] at h
  -- every check before the rules ends in a bypass
  repeat' split at h
  all_goals cases h
  assumption

/-- Only answers to `GET` are stored, and only under a rule. -/
theorem get_of_store {method : Method} {headers : HeaderMap} {status bodyLen : Nat}
    {rules : List (List Nat × Text.Duration)} {ttl : Text.Duration}
    (h : Cache.decideCaching method headers status bodyLen rules = .store ttl) :
    method = .get ∧ rules ≠ [] := by
  refine ⟨?_, ?_⟩
  · by_contra hget
    rw [Cache.decideCaching, if_pos hget] at h
    cases h
  · rintro rfl
    have hnone : none = some ttl := matchingTtl_of_store h
    cases hnone

/-- A response that is to be stored is stored. -/
theorem exists_cachePut (pc : ProxyCache) {m : Method} (h : HeaderMap) {resp : Response}
    (store : Cache.State) {ttl : Text.Duration} (hwhole : resp.body.failed = false)
    (hstore : Cache.decideCaching m resp.headers resp.status resp.body.data.length pc.validRules =
      .store ttl) :
    ∃ key entry, entry.expiresAt = env.storeAt + ttl ∧
      .cachePut key entry ∈ (maybeCache env (some pc) m ctx h resp store).2.2 := by
  obtain ⟨entry, hentry, hexpires⟩ : ∃ entry : Cache.Entry,
      Cache.storedEntry m h env.storeAt pc.validRules resp.status resp.headers resp.body.data =
        some entry ∧ entry.expiresAt = env.storeAt + ttl := by
    rw [Cache.storedEntry, hstore]
    exact ⟨_, rfl, rfl⟩
  rcases maybeCache_cases env ctx pc m h resp store with
    ⟨hne, -⟩ | ⟨-, hbroken, -⟩ | ⟨-, -, hnone, -⟩ | ⟨entry', -, -, hentry', hout⟩
  · exact absurd (get_of_store hstore).1 hne
  · rw [hwhole] at hbroken
    cases hbroken
  · rw [hentry] at hnone
    cases hnone
  · obtain rfl := Option.some.inj (hentry.symm.trans hentry')
    rw [hout]
    exact ⟨_, entry, hexpires, List.mem_singleton.2 rfl⟩

/-- The instants of an exchange that the cache does not answer are in the domain exactly if that of
an answer is, where it is stored. -/
theorem expiry_inDomain_iff (req : Request) (st : ProxyState)
    (hmiss : (lookupCache env s req ctx st.store).1 = none) :
    (∀ op ∈ (forward env s req clientPeer ctx st).events.filterMap expiry?, op.InDomain) ↔
      ∀ resp ttl, exchangeUpshot env s req clientPeer ctx st.balancer = .answered resp →
        resp.body.failed = false →
        Cache.decideCaching req.method resp.headers resp.status resp.body.data.length (rulesOf s) =
          .store ttl →
        (env.storeAt + ttl) / 10 ^ 9 < 2 ^ 63 := by
  obtain ⟨store, hconcludes⟩ := forward_concludes env s clientPeer ctx req st hmiss
  constructor
  · intro h resp ttl hanswered hwhole hstore
    obtain ⟨hget, hrules⟩ := get_of_store hstore
    cases hcache : s.cache with
    | none =>
        rw [rulesOf, hcache] at hrules
        exact absurd rfl hrules
    | some pc =>
        rw [rulesOf, hcache] at hstore
        obtain ⟨key, entry, hexpires, hput⟩ :=
          exists_cachePut env ctx pc req.headers store hwhole hstore
        have hcached : (if retrySafe req.method then s.cache else none) = some pc := by
          rw [hget]
          exact hcache
        rw [hcached] at hconcludes
        have hevent := (hconcludes.stored key entry).2 ⟨resp, hanswered, hput⟩
        rw [← hexpires]
        exact h (.expiry entry.expiresAt) (List.mem_filterMap.2 ⟨_, hevent, rfl⟩)
  · intro h op hop
    obtain ⟨e, he, hexpiry⟩ := List.mem_filterMap.1 hop
    cases e with
    | cachePut key entry =>
        obtain rfl := Option.some.inj hexpiry
        obtain ⟨resp, hanswered, hput⟩ := (hconcludes.stored key entry).1 he
        obtain ⟨pc, hcache, hbody, hstored, -⟩ := cachePut_maybeCache env ctx hput
        obtain ⟨ttl, hstore, rfl⟩ := Cache.storedEntry_eq_some hstored
        split at hcache
        · refine h resp ttl hanswered (congrArg Body.failed hbody) ?_
          rw [rulesOf, hcache]
          exact hstore
        · cases hcache
    | _ => cases hexpiry

/-- What the answers of the peers come to fits: the instant at which an answer expires that is
stored by one of the rules, and the end of the cooldown of every peer that fails too often. -/
structure ExchangeFits (req : Request) (b : Balancer) (rules : List (List Nat × Text.Duration))
    (timeouts : List Text.Duration) : Prop where
  lifetime : ∀ resp ttl, exchangeUpshot env s req clientPeer ctx b = .answered resp →
    resp.body.failed = false →
    Cache.decideCaching req.method resp.headers resp.status resp.body.data.length rules =
      .store ttl →
    (env.storeAt + ttl) / 10 ^ 9 < 2 ^ 63
  timeout : ∀ f ∈ failuresDue env s clientPeer ctx req b, f.Fits timeouts

/-- The operations of an exchange are in their domain exactly if the cache answers or what the peers
answer fits. -/
theorem exchangeOperations_inDomain_iff (req : Request) (st : ProxyState) :
    (∀ op ∈ exchangeOperations env s clientPeer ctx req st, op.InDomain) ↔
      ((lookupCache env s req ctx st.store).1 = none →
        ExchangeFits env s clientPeer ctx req st.balancer (rulesOf s) (timeouts st.balancer)) := by
  rw [exchangeOperations, exchangeFailures]
  cases hfound : (lookupCache env s req ctx st.store).1 with
  | some entry =>
      rw [forward_of_found hfound]
      simp [failuresOn]
  | none =>
      rw [← exchangeFailures, exchangeFailures_eq env s clientPeer ctx req st hfound,
        List.forall_mem_append, expiry_inDomain_iff env s clientPeer ctx req st hfound,
        List.forall_mem_filterMap]
      have hrecords : ∀ f ∈ failuresDue env s clientPeer ctx req st.balancer,
          ((∀ op, f.cooldown? = some op → op.InDomain) ↔ f.Fits (timeouts st.balancer)) := by
        intro f hf
        rw [← timeouts_failuresFrom env s clientPeer ctx _ _ _ _ _ f hf]
        exact f.inDomain_iff
      constructor
      · intro h _
        exact ⟨h.2, fun f hf => (hrecords f hf).1 (h.1 f hf)⟩
      · intro h
        exact ⟨fun f hf => (hrecords f hf).2 ((h rfl).timeout f hf), (h rfl).lifetime⟩

end Exchanges

/-! ## Streams and probes -/

section Streams

variable (env : Stream.RelayEnv) (client : SocketAddr) (b : Balancer)

/-- The position of the peer that an event of a relay records a failure on. -/
def relayFailedPeer? : Stream.RelayEvent → Option Nat
  | .recordFailure peer => some peer
  | _ => none

/-- The failure of the peer at a position at the end of a relayed exchange. -/
def relayRecord (i : Nat) : FailureRecord :=
  let picked := (b.pickInner env.hash env.pickMs client.ip []).2
  ⟨env.during.apply (picked.modifyPeer i Peer.enter), i, env.doneMs⟩

/-- The operations of a relayed exchange. -/
def relayOperations (r : Stream.RelayResult) : List Operation :=
  (r.events.filterMap relayFailedPeer?).filterMap fun i => (relayRecord env client b i).cooldown?

/-- If the exchange with the peer that is picked fails, the end of its cooldown fits. -/
def RelayFits (exchange : Nat → Stream.Exchanged) (timeouts : List Text.Duration) : Prop :=
  ∀ i, Stream.pickedFor env client b = some i → (exchange i).success = false →
    (relayRecord env client b i).Fits timeouts

theorem relayOperations_inDomain_iff (exchange : Nat → Stream.Exchanged) :
    (∀ op ∈ relayOperations env client b (Stream.relay env client b exchange), op.InDomain) ↔
      RelayFits env client b exchange (timeouts b) := by
  have hrecord : ∀ i, (∀ op, (relayRecord env client b i).cooldown? = some op → op.InDomain) ↔
      (relayRecord env client b i).Fits (timeouts b) := by
    intro i
    have hmet : timeouts (relayRecord env client b i).balancer = timeouts b := by
      simp [relayRecord]
    rw [← hmet]
    exact (relayRecord env client b i).inDomain_iff
  rw [relayOperations, List.forall_mem_filterMap, List.forall_mem_filterMap]
  constructor
  · intro h i hpicked hfailed
    have hevent := (Stream.recordFailure_mem_relay env client b exchange i).2 ⟨hpicked, hfailed⟩
    exact (hrecord i).1 (h (.recordFailure i) hevent i rfl)
  · intro h e he i hi
    cases e with
    | recordFailure peer =>
        obtain rfl := Option.some.inj hi
        obtain ⟨hpicked, hfailed⟩ :=
          (Stream.recordFailure_mem_relay env client b exchange peer).1 he
        exact (hrecord peer).2 (h peer hpicked hfailed)
    | _ => cases hi

end Streams

/-- The operations at the end of a probe of the peer at a position. -/
def probeOperations (check : HealthCheckCfg) (b : Balancer) (i : Nat) (outcome : ProbeOutcome)
    (nowMs : UInt64) : List Operation :=
  match probeRecord check i outcome nowMs with
  | .failure peer ms => (FailureRecord.mk b peer ms).cooldown?.toList
  | _ => []

theorem probeOperations_inDomain_iff (check : HealthCheckCfg) (b : Balancer) (i : Nat)
    (outcome : ProbeOutcome) (nowMs : UInt64) :
    (∀ op ∈ probeOperations check b i outcome nowMs, op.InDomain) ↔
      (outcome.passed check = false → (FailureRecord.mk b i nowMs).Fits (timeouts b)) := by
  rw [probeOperations, probeRecord]
  cases outcome.passed check with
  | true => simp
  | false =>
      have hrecord := (FailureRecord.mk b i nowMs).inDomain_iff
      simpa using hrecord

/-! ## Occasions -/

/-- What the action of a request meets: the file system in a state, the requests its target was
resolved for before, what other requests have done to the balancer, and an exchange. -/
structure Encounter (σ : Type) where
  files : σ → (q : Access) → q.Answer × σ
  start : σ
  earlier : List RequestCtx
  others : Interference
  exchange : Env
  store : Cache.State

/-- The status that `try_files` answers with by itself, if its loop stops at no path. -/
def triedStatus? : Tried → Option Nat
  | .code status => some status
  | .file _ => none
  | .refused => some 403
  | .nothing => some 404

section Calls

variable {σ : Type} (w : Encounter σ)

/-- Where the loop of `try_files` stops. -/
def Encounter.tried (root : String) (entries : List TryFilesEntry) (ctx : RequestCtx) : Tried :=
  ((tryEntries root ctx entries).run w.files w.start).1

/-- The balancer that a target is resolved to, as the exchange finds it. -/
def Encounter.balancer (target : ProxyTarget) (ctx : RequestCtx) : Option Balancer :=
  (target.resolve (ephemeralAfter target w.earlier) ctx).1.map w.others.apply

/-- The operations of an action. -/
def callOperations : ActionCall → List Operation
  | .ret status _ => [.text status]
  | .files _ _ _ _ _ _ => []
  | .proxy target settings _ request peer ctx =>
      match w.balancer target ctx with
      | some b => exchangeOperations w.exchange settings peer ctx request ⟨b, w.store⟩
      | none => [.text 502]
  | .metrics => []
  | .tryFiles root entries ctx _ _ =>
      if entries.isEmpty then [.text 500]
      else (triedStatus? (w.tried root entries ctx)).toList.map Operation.text

/-- The operations of a request, which only a request that is served gets to. -/
def verdictOperations : Verdict → List Operation
  | .served _ call _ => callOperations w call
  | _ => []

end Calls

/-- What happens at run time: a request over HTTP/1 or HTTP/2 or over HTTP/3, the start of the probe
task of an upstream, a probe of the peer at a position, a connection to a stream listener, or a
datagram. Upstreams and stream listeners are named by their position. -/
inductive Occasion (σ : Type) where
  | request (crates : Crates) (reply : (q : Effect) → q.Answer) (state : ServerState)
      (request : Request) (peer : SocketAddr) (w : Encounter σ)
  | h3Request (crates : Crates) (reply : (q : Effect) → q.Answer) (state : ServerState)
      (method : Method) (uri : Uri) (headers : HeaderMap) (bodyBytes : Bytes) (peer : SocketAddr)
      (w : Encounter σ)
  | startProbes (upstream : Nat) (check : HealthCheckCfg)
  | probe (upstream : Nat) (check : HealthCheckCfg) (b : Balancer) (peer : Nat)
      (outcome : ProbeOutcome) (nowMs : UInt64)
  | connection (listener : Nat) (b : Balancer) (env : Stream.TcpEnv) (client : SocketAddr)
  | datagram (listener : Nat) (b : Balancer) (env : Stream.UdpEnv) (client : SocketAddr)
      (data : Bytes)

namespace Occasion

variable {σ : Type}

/-- The operations performed on an occasion. -/
def operations : Occasion σ → List Operation
  | .request crates reply state req peer w =>
      verdictOperations w ((handleVerdict crates state req peer).value reply)
  | .h3Request crates reply state method uri headers bodyBytes peer w =>
      verdictOperations w
        ((dispatchVerdict crates state method uri headers bodyBytes peer).value reply)
  | .startProbes _ check => [.interval check.interval]
  | .probe _ check b peer outcome nowMs => probeOperations check b peer outcome nowMs
  | .connection _ b env client =>
      relayOperations env.toRelayEnv client b (Stream.handle env client b)
  | .datagram _ b env client data =>
      relayOperations env.toRelayEnv client b (Stream.handleUdp env client data b)

/-- The occasion may come about in a runtime: a request goes to a virtual host of a listener, every
`http` upstream with a health check is probed where it is not `down`, and a balancer has changed in
its counters only. -/
def Occurs (cfg : MainConfig) (rt : Runtime) : Occasion σ → Prop
  | .request _ _ state _ _ _ => ∃ l ∈ rt.listeners, ∃ host, pickState l host = some state
  | .h3Request _ _ state _ _ _ _ _ _ => ∃ l ∈ rt.listeners, ∃ host, pickState l host = some state
  | .startProbes k check =>
      ∃ http up, cfg.http = some http ∧ http.upstreams[k]? = some up ∧ up.healthCheck = some check
  | .probe k check b peer _ _ =>
      ∃ http up, cfg.http = some http ∧ http.upstreams[k]? = some up ∧
        up.healthCheck = some check ∧ balancerConfig b = balancerConfig (namedBalancer up) ∧
        peer ∈ b.probed
  | .connection k b _ _ =>
      ∃ x, rt.streamServers[k]? = some x ∧ x.2.2 = false ∧ balancerConfig b = balancerConfig x.2.1
  | .datagram k b _ _ _ =>
      ∃ x, rt.streamServers[k]? = some x ∧ x.2.2 = true ∧ balancerConfig b = balancerConfig x.2.1

end Occasion

end Elrond.Server
