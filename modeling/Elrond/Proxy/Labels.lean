import Elrond.Proxy.Retry

/-!
# The cache label of a response

A location with a cache tells the client with an `x-cache` line where a response comes from. On the
way of a miss the line is set with `insert`, on the way of a hit it is added to the stored lines
with `append`. So a hit replays the miss exactly when the stored response brought no `x-cache` line
of its own (`hit_replays_miss_iff`).

The line is set by `maybe_cache` alone, which only the first success of the retry loop gets to. The
other exits of `forward` hand a response on as it came. `upshot` says what the peers come to,
without the cache, and with it `forward_labelled_iff` says when a response has the label it is due.
-/

set_option autoImplicit false

namespace Elrond.Proxy

open Elrond.Lib Elrond.Http Elrond.Request Elrond.Upstream Elrond.Config

/-! ## Labels -/

/-- The values of the `x-cache` line. -/
inductive CacheLabel where
  | hit
  | miss
  | bypass
deriving DecidableEq, Repr

/-- The label as it is written. -/
def CacheLabel.text : CacheLabel → String
  | .hit => "HIT"
  | .miss => "MISS"
  | .bypass => "BYPASS"

/-- The response carries one `x-cache` line, and it reads as the label. -/
def Labelled (resp : Response) (label : CacheLabel) : Prop :=
  (resp.headers.getAll "x-cache").map HeaderValue.toStr = [some label.text]

instance (resp : Response) (label : CacheLabel) : Decidable (Labelled resp label) :=
  inferInstanceAs (Decidable (_ = _))

theorem CacheLabel.text_injective {l l' : CacheLabel} (h : l.text = l'.text) : l = l' := by
  cases l <;> cases l' <;> simp_all [CacheLabel.text]

/-- A response carries one label at most. -/
theorem Labelled.unique {resp : Response} {l l' : CacheLabel} (h : Labelled resp l)
    (h' : Labelled resp l') : l = l' := by
  apply CacheLabel.text_injective
  exact Option.some.inj (List.head_eq_of_cons_eq (h.symm.trans h'))

/-- `mark_cache` replaces whatever `x-cache` lines there are. -/
theorem labelled_markCache (resp : Response) (l : CacheLabel) :
    Labelled (markCache resp l.text) l := by
  have hmarked : ∀ v, HeaderValue.fromStr l.text = some v → v.toStr = some l.text →
      Labelled (markCache resp l.text) l := by
    intro v hv hread
    rw [Labelled, markCache, hv]
    show ((resp.headers.insert xCache v).getAll "x-cache").map _ = _
    rw [HeaderMap.getAll_insert, if_pos (by decide), List.map_singleton, hread]
  cases l with
  | hit => exact hmarked _ rfl (by decide)
  | miss => exact hmarked _ rfl (by decide)
  | bypass => exact hmarked _ rfl (by decide)

/-! ## Replays -/

/-- The lines of a response built from a list of lines, one after the other. -/
theorem entries_foldl_append (lines : List (HeaderName × HeaderValue)) (h : HeaderMap) :
    (lines.foldl (fun h e => h.append e.1 e.2) h).entries = h.entries ++ lines := by
  induction lines generalizing h with
  | nil => exact (List.append_nil h.entries).symm
  | cons line lines ih =>
      rw [List.foldl_cons, ih, HeaderMap.append, List.append_assoc, List.singleton_append]

/-- The lines of a hit: those of the entry, then the label. -/
theorem entries_cachedResponse (entry : Cache.Entry) :
    ∃ v, v.toStr = some "HIT" ∧
      (cachedResponse entry).headers = ⟨entry.headers ++ [(xCache, v)]⟩ := by
  refine ⟨_, ?_, congrArg (fun lines => HeaderMap.mk (lines ++ _)) ?_⟩
  rotate_left
  · exact entries_foldl_append entry.headers ∅
  · decide

/-- The lines of another name are those of the entry. -/
theorem getAll_cachedResponse (entry : Cache.Entry) {name : HeaderName} (hname : name ≠ xCache) :
    (cachedResponse entry).headers.getAll name.text =
      (HeaderMap.mk entry.headers).getAll name.text := by
  obtain ⟨v, -, hentries⟩ := entries_cachedResponse entry
  have htext : xCache.text ≠ name.text := fun heq => hname (HeaderName.ext heq.symm)
  rw [hentries, HeaderMap.getAll, List.filter_append, HeaderMap.getAll]
  simp [htext]

/-- The label of a hit stands alone if the entry has no such line. -/
theorem labelled_cachedResponse_iff (entry : Cache.Entry) :
    Labelled (cachedResponse entry) .hit ↔ (HeaderMap.mk entry.headers).getAll "x-cache" = [] := by
  obtain ⟨v, hread, hentries⟩ := entries_cachedResponse entry
  have hlines : (cachedResponse entry).headers.getAll "x-cache" =
      (HeaderMap.mk entry.headers).getAll "x-cache" ++ [v] := by
    rw [hentries, HeaderMap.getAll, List.filter_append, List.map_append]
    rfl
  rw [Labelled, hlines, List.map_append, List.map_singleton, hread]
  constructor
  · intro h
    have hlength := congrArg List.length h
    rw [List.length_append, List.length_map] at hlength
    apply List.eq_nil_of_length_eq_zero
    exact Nat.add_right_cancel hlength
  · intro h
    rw [h]
    rfl

/-- The response to a hit replays the response to the miss before it, but for the label. -/
structure Replays (miss hit : Response) : Prop where
  status : hit.status = miss.status
  body : hit.body = miss.body
  lines : ∀ name : HeaderName, name ≠ xCache →
    hit.headers.getAll name.text = miss.headers.getAll name.text
  miss : Labelled miss .miss
  hit : Labelled hit .hit

/-- **A hit replays the miss.** For every answer to a `GET` that `maybe_cache` stores, the response
to a later hit replays the one the client gets now, exactly when the answer brings no `x-cache` line
of its own: that line is stored with the others, and the label of a hit is added to it. -/
theorem hit_replays_miss_iff (env : Env) (cache : Option ProxyCache) (ctx : RequestCtx)
    (reqHeaders : HeaderMap) (resp : Response) (store : Cache.State) (key : String)
    (entry : Cache.Entry)
    (hput : .cachePut key entry ∈ (maybeCache env cache .get ctx reqHeaders resp store).2.2) :
    Replays (maybeCache env cache .get ctx reqHeaders resp store).1 (cachedResponse entry) ↔
      resp.headers.getAll "x-cache" = [] := by
  have hdelivers := delivers_maybeCache env ctx cache .get reqHeaders resp store
  obtain ⟨pc, -, hbody, hstored, hmiss⟩ := cachePut_maybeCache env ctx hput
  obtain ⟨ttl, -, rfl⟩ := Cache.storedEntry_eq_some hstored
  constructor
  · intro h
    exact (labelled_cachedResponse_iff _).1 h.hit
  · intro hlines
    refine ⟨hdelivers.status.symm, ?_, ?_, ?_, (labelled_cachedResponse_iff _).2 hlines⟩
    · exact hbody.symm.trans (hdelivers.body (congrArg Body.failed hbody)).symm
    · intro name hname
      have htext : Text.toAsciiLowercase name.text ≠ "x-cache" := by
        rw [HeaderName.toAsciiLowercase_text]
        exact fun heq => hname (HeaderName.ext heq)
      rw [getAll_cachedResponse _ hname, hdelivers.headers name.text htext]
    · rw [hmiss]
      exact labelled_markCache resp .miss

/-- A cache that keeps successes for a minute. -/
def pageCache (maxBytes : Nat) : ProxyCache :=
  ⟨⟨"pages", maxBytes⟩, Template.parse "$uri", [([200], Text.fromSecs 60)]⟩

/-- A page without header lines. -/
def barePage : Response := ⟨200, ∅, full (Text.utf8Bytes "page")⟩

/-- What a first request makes of an answer. -/
def firstAnswer (resp : Response) : Response × Cache.State × List ProxyEvent :=
  maybeCache quietEnv (some (pageCache 1024)) .get plainCtx ∅ resp Cache.State.new

/-- An upstream that is a caching proxy itself labels its answer. The client gets `MISS` at first,
and from the store the label of the upstream and `HIT`. -/
theorem upstream_label_stays :
    ∃ key entry, .cachePut key entry ∈ (firstAnswer (markCache barePage "HIT")).2.2 ∧
      Labelled (firstAnswer (markCache barePage "HIT")).1 .miss ∧
      ((cachedResponse entry).headers.getAll "x-cache").map HeaderValue.toStr =
        [some "HIT", some "HIT"] ∧
      ¬ Replays (firstAnswer (markCache barePage "HIT")).1 (cachedResponse entry) := by
  refine ⟨_, _, List.mem_singleton.2 rfl, by decide, by decide, ?_⟩
  intro h
  exact absurd h.hit (by decide)

/-- The page is replayed. -/
theorem hit_replays_miss_iff_page :
    ∃ key entry, .cachePut key entry ∈ (firstAnswer barePage).2.2 ∧
      Replays (firstAnswer barePage).1 (cachedResponse entry) := by
  refine ⟨_, _, List.mem_singleton.2 rfl, ?_⟩
  exact (hit_replays_miss_iff quietEnv _ plainCtx ∅ barePage Cache.State.new _ _
    (List.mem_singleton.2 rfl)).2 rfl

/-! ## What the peers come to -/

/-- What the peers come to: an answer that is no failure, or failures only, with the latest answer
among them. -/
inductive Upshot where
  | answered (resp : Response)
  | failed (last : Option Response)

/-- What the peers come to when a request is sent to one after the other. -/
def upshot (env : Env) (s : Settings) (req : Request) (clientPeer : SocketAddr)
    (ctx : RequestCtx) : (left done : Nat) → (excluded : List String) →
      (last : Option Response) → Balancer → Upshot
  | 0, _, _, last, _ => .failed last
  | left + 1, done, excluded, last, b =>
      let a := env.attempt done
      match (a.before.apply b).pickInner env.hash a.pickMs ctx.peer.ip excluded with
      | (none, _) => .failed last
      | (some (peer, i), b) =>
          let outbound := outboundRequest env.parseUri peer.addr b.scheme s req clientPeer ctx
          let next (last : Option Response) : Upshot :=
            upshot env s req clientPeer ctx left (done + 1) (excluded ++ [peer.addr]) last
              (failPeer (a.during.apply (b.modifyPeer i Peer.enter)) i a.doneMs)
          match forwardToPeer a s outbound with
          | none => next last
          | some resp => if isServerError resp.status then next (some resp) else .answered resp

/-- What the peers come to in an exchange that the cache does not answer. -/
def exchangeUpshot (env : Env) (s : Settings) (req : Request) (clientPeer : SocketAddr)
    (ctx : RequestCtx) (b : Balancer) : Upshot :=
  let attempts := if retrySafe req.method then min maxAttempts (max b.peers.length 1) else 1
  upshot env s (requestSent req) clientPeer ctx attempts 0 [] none b

/-- The result `r` is what a location with the cache makes of the upshot: an answer goes through
`maybe_cache`, and a failure goes out as it came. -/
structure Concludes (env : Env) (cache : Option ProxyCache) (parts : Request) (ctx : RequestCtx)
    (store : Cache.State) (u : Upshot) (r : ProxyResult) : Prop where
  answered : ∀ resp, u = .answered resp →
    r.response = (maybeCache env cache parts.method ctx parts.headers resp store).1
  failed : ∀ last, u = .failed last → r.response = last.getD badGateway
  stored : ∀ key entry, .cachePut key entry ∈ r.events ↔
    ∃ resp, u = .answered resp ∧
      .cachePut key entry ∈ (maybeCache env cache parts.method ctx parts.headers resp store).2.2

section Conclusions

variable {env : Env} {cache : Option ProxyCache} {parts : Request} {ctx : RequestCtx}
  {store : Cache.State}

theorem Concludes.of_failed (last : Option Response) (st : ProxyState) {events : List ProxyEvent}
    (hevents : ∀ key entry, .cachePut key entry ∉ events) :
    Concludes env cache parts ctx store (.failed last) ⟨last.getD badGateway, st, events⟩ where
  answered := by simp
  failed := by
    rintro last' heq
    rw [Upshot.failed.inj heq]
  stored := by
    intro key entry
    simp [hevents key entry]

theorem Concludes.of_answered {resp : Response} {r : ProxyResult}
    (hresponse :
      r.response = (maybeCache env cache parts.method ctx parts.headers resp store).1)
    (hstored : ∀ key entry, .cachePut key entry ∈ r.events ↔
      .cachePut key entry ∈ (maybeCache env cache parts.method ctx parts.headers resp store).2.2) :
    Concludes env cache parts ctx store (.answered resp) r where
  answered := by
    rintro resp' heq
    rw [← Upshot.answered.inj heq]
    exact hresponse
  failed := by simp
  stored := by
    intro key entry
    rw [hstored]
    simp

/-- The events of an attempt before its answer, and those of its failure, store nothing. -/
theorem cachePut_notMem_failed (key : String) (entry : Cache.Entry) (i : Nat)
    (client : ClientKind) (outbound : Option Request) :
    .cachePut key entry ∉ attemptEvents i client outbound ++ failureEvents i := by
  intro hput
  rcases List.mem_append.1 hput with hopen | hfail
  · exact cachePut_notMem_opening key entry i client outbound hopen
  · simp [failureEvents] at hfail

/-- A failed attempt before the others changes nothing. -/
theorem Concludes.cons {u : Upshot} {r : ProxyResult} (h : Concludes env cache parts ctx store u r)
    (i : Nat) (client : ClientKind) (outbound : Option Request) :
    Concludes env cache parts ctx store u
      { r with events := attemptEvents i client outbound ++ failureEvents i ++ r.events } where
  answered := h.answered
  failed := h.failed
  stored := by
    intro key entry
    rw [← h.stored key entry, List.mem_append]
    exact or_iff_right (cachePut_notMem_failed key entry i client outbound)

end Conclusions

section Exchanges

variable (env : Env) (s : Settings) (clientPeer : SocketAddr) (ctx : RequestCtx)

/-- The retry loop concludes what the peers come to. -/
theorem retryLoop_concludes (parts : Request) :
    ∀ (left done : Nat) (excluded : List String) (last : Option Response) (st : ProxyState),
      Concludes env s.cache parts ctx st.store
        (upshot env s (buildRequest parts emptyBody) clientPeer ctx left done excluded last
          st.balancer)
        (retryLoop env s parts clientPeer ctx left done excluded last st) := by
  intro left
  -- Induction on the attempts left, as both recursions take them.
  induction left with
  | zero =>
      intro done excluded last st
      exact Concludes.of_failed last st fun _ _ => List.not_mem_nil
  | succ left ih =>
      intro done excluded last st
      rw [retryLoop, upshot]
      generalize Balancer.pickInner env.hash ((env.attempt done).before.apply st.balancer)
        (env.attempt done).pickMs ctx.peer.ip excluded = picked
      obtain ⟨_ | ⟨peer, i⟩, b⟩ := picked
      · exact Concludes.of_failed last _ fun _ _ => List.not_mem_nil
      · dsimp only
        generalize outboundRequest env.parseUri peer.addr b.scheme s
          (buildRequest parts emptyBody) clientPeer ctx = outbound
        generalize failPeer ((env.attempt done).during.apply (b.modifyPeer i Peer.enter)) i
          (env.attempt done).doneMs = after
        have hnext := fun last => (ih (done + 1) (excluded ++ [peer.addr]) last
          { st with balancer := after }).cons i s.pickClient outbound
        cases forwardToPeer (env.attempt done) s outbound with
        | none => exact hnext last
        | some resp =>
            dsimp only
            split
            · exact hnext (some resp)
            · apply Concludes.of_answered rfl
              intro key entry
              have hopen := cachePut_notMem_opening key entry i s.pickClient outbound
              simp [hopen]

/-- The single-shot path hands what its peer comes to by the cache. -/
theorem forwardOnce_concludes (req : Request) (st : ProxyState) :
    Concludes env none req ctx st.store
      (upshot env s req clientPeer ctx 1 0 [] none st.balancer)
      (forwardOnceWithIncoming env s req clientPeer ctx st) := by
  rw [forwardOnceWithIncoming, upshot]
  generalize Balancer.pickInner env.hash ((env.attempt 0).before.apply st.balancer)
    (env.attempt 0).pickMs ctx.peer.ip [] = picked
  obtain ⟨_ | ⟨peer, i⟩, b⟩ := picked
  · exact Concludes.of_failed none _ fun _ _ => List.not_mem_nil
  · dsimp only
    generalize outboundRequest env.parseUri peer.addr b.scheme s req clientPeer ctx = outbound
    cases forwardToPeer (env.attempt 0) s outbound with
    | none =>
        exact Concludes.of_failed none _ fun key entry =>
          cachePut_notMem_failed key entry i s.pickClient outbound
    | some resp =>
        dsimp only
        split
        · exact Concludes.of_failed (some resp) _ fun key entry =>
            cachePut_notMem_failed key entry i s.pickClient outbound
        · apply Concludes.of_answered rfl
          intro key entry
          have hopen := cachePut_notMem_opening key entry i s.pickClient outbound
          simp [hopen, maybeCache]

/-- An exchange that the cache does not answer concludes what the peers come to; only a request that
may be sent again gets to `maybe_cache`. -/
theorem forward_concludes (req : Request) (st : ProxyState)
    (hmiss : (lookupCache env s req ctx st.store).1 = none) :
    ∃ store, Concludes env (if retrySafe req.method then s.cache else none) req ctx store
      (exchangeUpshot env s req clientPeer ctx st.balancer)
      (forward env s req clientPeer ctx st) := by
  rw [forward_of_missed hmiss]
  generalize (lookupCache env s req ctx st.store).2 = store
  refine ⟨store, ?_⟩
  cases hsafe : retrySafe req.method with
  | true =>
      simp only [exchangeUpshot, requestSent, hsafe, if_true]
      exact retryLoop_concludes env s clientPeer ctx req _ 0 [] none { st with store := store }
  | false =>
      simp only [exchangeUpshot, requestSent, hsafe, Bool.false_eq_true, if_false]
      exact forwardOnce_concludes env s clientPeer ctx req { st with store := store }

end Exchanges

/-! ## The label a response is due -/

/-- The event stores an entry: a `put` that is not turned away for its size. -/
def ProxyEvent.stores (maxBytes : Nat) : ProxyEvent → Bool
  | .cachePut _ entry => Cache.entryBytes entry ≤ maxBytes
  | _ => false

/-- The label a response is due: `HIT` from the store, `MISS` if its request stored it, and `BYPASS`
in every other case. -/
def dueLabel (maxBytes : Nat) (found : Option Cache.Entry) (events : List ProxyEvent) :
    CacheLabel :=
  if found.isSome then .hit
  else if events.any (ProxyEvent.stores maxBytes) then .miss
  else .bypass

/-- The response that goes out with the `x-cache` lines it came with: every failure, every answer on
the single-shot path, and an answer to a `GET` whose body breaks off. -/
def handedOn (m : Method) : Upshot → Option Response
  | .answered resp =>
      if retrySafe m && !(m == .get && resp.body.failed) then none else some resp
  | .failed last => some (last.getD badGateway)

/-- What the peers come to gets the label it is due: what is handed on has it already, and what is
marked as a miss fits the zone. -/
structure UpshotLabelled (env : Env) (c : ProxyCache) (req : Request) (u : Upshot) : Prop where
  handedOn : ∀ resp, handedOn req.method u = some resp → Labelled resp .bypass
  fits : ∀ resp entry, u = .answered resp → resp.body.failed = false →
    Cache.storedEntry req.method req.headers env.storeAt c.validRules resp.status resp.headers
      resp.body.data = some entry →
    Cache.entryBytes entry ≤ c.zone.maxBytes

/-- The response gets the label it is due. A stored one must not have a label of its own. -/
def LabelReached (env : Env) (s : Settings) (c : ProxyCache) (req : Request)
    (clientPeer : SocketAddr) (ctx : RequestCtx) (st : ProxyState) : Prop :=
  match (lookupCache env s req ctx st.store).1 with
  | some entry => (HeaderMap.mk entry.headers).getAll "x-cache" = []
  | none => UpshotLabelled env c req (exchangeUpshot env s req clientPeer ctx st.balancer)

theorem dueLabel_of_stored {maxBytes : Nat} {events : List ProxyEvent} {key : String}
    {entry : Cache.Entry} (hput : .cachePut key entry ∈ events)
    (hfits : Cache.entryBytes entry ≤ maxBytes) : dueLabel maxBytes none events = .miss := by
  have hany : events.any (ProxyEvent.stores maxBytes) = true :=
    List.any_eq_true.2 ⟨_, hput, decide_eq_true hfits⟩
  rw [dueLabel, hany]
  rfl

theorem dueLabel_of_unstored {maxBytes : Nat} {events : List ProxyEvent}
    (h : ∀ key entry, .cachePut key entry ∈ events → maxBytes < Cache.entryBytes entry) :
    dueLabel maxBytes none events = .bypass := by
  have hany : events.any (ProxyEvent.stores maxBytes) = false := by
    rw [List.any_eq_false]
    intro e he
    cases e with
    | cachePut key entry =>
        have hlarge := h key entry he
        simp only [ProxyEvent.stores, decide_eq_true_eq]
        omega
    | _ => exact Bool.false_ne_true
  rw [dueLabel, hany]
  rfl

/-- Only the answer to a `GET` is stored. -/
theorem get_of_storedEntry {method : Method} {req : HeaderMap} {now : Nat}
    {rules : List (List Nat × Text.Duration)} {status : Nat} {headers : HeaderMap} {body : Bytes}
    {e : Cache.Entry} (h : Cache.storedEntry method req now rules status headers body = some e) :
    method = .get := by
  obtain ⟨ttl, hstore, -⟩ := Cache.storedEntry_eq_some h
  by_contra hget
  rw [Cache.decideCaching, if_pos hget] at hstore
  cases hstore

section Exits

variable {env : Env} {c : ProxyCache} {req : Request} {ctx : RequestCtx} {store : Cache.State}
  {u : Upshot} {r : ProxyResult}

/-- The upshot holds nothing that is stored. -/
def Unstored (env : Env) (c : ProxyCache) (req : Request) (u : Upshot) : Prop :=
  ∀ resp entry, u = .answered resp → resp.body.failed = false →
    Cache.storedEntry req.method req.headers env.storeAt c.validRules resp.status resp.headers
      resp.body.data ≠ some entry

/-- A response that is handed on is due a `BYPASS`, which it has or has not. -/
theorem labelled_handedOn_iff {resp : Response} (hu : handedOn req.method u = some resp)
    (hunstored : Unstored env c req u) (hheaders : r.response.headers = resp.headers)
    (hevents : ∀ key entry, .cachePut key entry ∉ r.events) :
    Labelled r.response (dueLabel c.zone.maxBytes none r.events) ↔ UpshotLabelled env c req u := by
  rw [dueLabel_of_unstored fun key entry hput => absurd hput (hevents key entry), Labelled,
    hheaders]
  constructor
  · intro hlabel
    refine ⟨fun resp' hresp => ?_, fun resp' entry heq hwhole hentry => ?_⟩
    · rw [← Option.some.inj (hu.symm.trans hresp)]
      exact hlabel
    · exact absurd hentry (hunstored resp' entry heq hwhole)
  · intro hreached
    exact hreached.handedOn resp hu

/-- A response that is marked `BYPASS` and not stored is labelled. -/
theorem labelled_bypass_iff {resp : Response} (hu : handedOn req.method u = none)
    (hunstored : Unstored env c req u) (hresponse : r.response = markCache resp "BYPASS")
    (hevents : ∀ key entry, .cachePut key entry ∉ r.events) :
    Labelled r.response (dueLabel c.zone.maxBytes none r.events) ↔ UpshotLabelled env c req u := by
  rw [dueLabel_of_unstored fun key entry hput => absurd hput (hevents key entry), hresponse]
  apply iff_of_true (labelled_markCache resp .bypass)
  refine ⟨fun resp' hresp => ?_, fun resp' entry heq hwhole hentry => ?_⟩
  · rw [hu] at hresp
    cases hresp
  · exact absurd hentry (hunstored resp' entry heq hwhole)

/-- A response that is marked `MISS` is labelled if it fits the zone. -/
theorem labelled_miss_iff {resp : Response} {key : String} {entry : Cache.Entry}
    (hu : handedOn req.method (.answered resp) = none) (hwhole : resp.body.failed = false)
    (hentry : Cache.storedEntry req.method req.headers env.storeAt c.validRules resp.status
      resp.headers resp.body.data = some entry)
    (hresponse : r.response = markCache resp "MISS")
    (hevents : ∀ key' entry', .cachePut key' entry' ∈ r.events ↔ key' = key ∧ entry' = entry) :
    Labelled r.response (dueLabel c.zone.maxBytes none r.events) ↔
      UpshotLabelled env c req (.answered resp) := by
  rw [hresponse]
  have hmiss := labelled_markCache resp .miss
  by_cases hfits : Cache.entryBytes entry ≤ c.zone.maxBytes
  · rw [dueLabel_of_stored ((hevents key entry).2 ⟨rfl, rfl⟩) hfits]
    apply iff_of_true hmiss
    refine ⟨fun resp' hresp => ?_, fun resp' entry' heq _ hentry' => ?_⟩
    · rw [hu] at hresp
      cases hresp
    · obtain rfl := Upshot.answered.inj heq
      obtain rfl := Option.some.inj (hentry.symm.trans hentry')
      exact hfits
  · have hdue : dueLabel c.zone.maxBytes none r.events = .bypass := by
      apply dueLabel_of_unstored
      intro key' entry' hput
      obtain ⟨-, rfl⟩ := (hevents key' entry').1 hput
      exact Nat.lt_of_not_le hfits
    rw [hdue]
    apply iff_of_false
    · intro hlabel
      cases hmiss.unique hlabel
    · intro hreached
      exact hfits (hreached.fits resp entry rfl hwhole hentry)

/-- What comes of an answer on the path with retries, by the exits of `maybe_cache`. -/
theorem Concludes.labelled_answered_iff {resp : Response} (hsafe : retrySafe req.method = true)
    (h : Concludes env (some c) req ctx store (.answered resp) r) :
    Labelled r.response (dueLabel c.zone.maxBytes none r.events) ↔
      UpshotLabelled env c req (.answered resp) := by
  have hresponse := h.answered resp rfl
  have hstored : ∀ key entry, .cachePut key entry ∈ r.events ↔
      .cachePut key entry ∈
        (maybeCache env (some c) req.method ctx req.headers resp store).2.2 := by
    intro key entry
    rw [h.stored key entry]
    simp
  rcases maybeCache_cases env ctx c req.method req.headers resp store with
    ⟨hget, hout⟩ | ⟨hget, hbroken, hout⟩ | ⟨hget, hwhole, hnone, hout⟩ |
    ⟨entry, hget, hwhole, hentry, hout⟩
  · rw [hout] at hresponse hstored
    apply labelled_bypass_iff _ _ hresponse
    · intro key entry
      simp [hstored]
    · simp [handedOn, hsafe, hget]
    · intro resp' entry heq _ hentry
      exact hget (get_of_storedEntry hentry)
  · rw [hout] at hresponse hstored
    have hu : handedOn req.method (.answered resp) = some resp := by
      simp [handedOn, hget, hbroken]
    apply labelled_handedOn_iff hu
    · intro resp' entry heq hwhole
      obtain rfl := Upshot.answered.inj heq
      rw [hbroken] at hwhole
      cases hwhole
    · rw [hresponse]
    · intro key entry
      simp [hstored]
  · rw [hout] at hresponse hstored
    apply labelled_bypass_iff _ _ hresponse
    · intro key entry
      simp [hstored]
    · simp [handedOn, hsafe, hwhole]
    · intro resp' entry heq _ hentry
      obtain rfl := Upshot.answered.inj heq
      rw [hnone] at hentry
      cases hentry
  · rw [hout] at hresponse hstored
    apply labelled_miss_iff _ hwhole hentry hresponse
    · intro key' entry'
      rw [hstored, List.mem_singleton, ProxyEvent.cachePut.injEq]
    · simp [handedOn, hsafe, hwhole]

end Exits

/-- A request that is not sent again is never a `GET`, so nothing of it is stored. -/
theorem unstored_of_not_retrySafe {req : Request} (hsafe : retrySafe req.method = false) (env : Env)
    (c : ProxyCache) (u : Upshot) : Unstored env c req u := by
  intro resp entry _ _ hentry
  rw [get_of_storedEntry hentry] at hsafe
  cases hsafe

/-- **Labels of proxied responses.** At a location with a cache, for every request and whatever the
upstreams answer, the response of `forward` carries exactly one `x-cache` line with the label it is
due, exactly when one of these holds: it comes from the store and was stored without such a line; or
it is an answer that `maybe_cache` marks, and it fits the zone if it is stored; or it is handed on
unmarked and carries the single line `BYPASS` by itself. -/
theorem forward_labelled_iff (env : Env) (s : Settings) (c : ProxyCache) (hcache : s.cache = some c)
    (req : Request) (clientPeer : SocketAddr) (ctx : RequestCtx) (st : ProxyState) :
    Labelled (forward env s req clientPeer ctx st).response
        (dueLabel c.zone.maxBytes (lookupCache env s req ctx st.store).1
          (forward env s req clientPeer ctx st).events) ↔
      LabelReached env s c req clientPeer ctx st := by
  rw [LabelReached]
  cases hfound : (lookupCache env s req ctx st.store).1 with
  | some entry =>
      rw [forward_of_found hfound]
      exact labelled_cachedResponse_iff entry
  | none =>
      obtain ⟨store, hconcludes⟩ := forward_concludes env s clientPeer ctx req st hfound
      dsimp only
      generalize forward env s req clientPeer ctx st = r at hconcludes ⊢
      generalize exchangeUpshot env s req clientPeer ctx st.balancer = u at hconcludes ⊢
      cases u with
      | failed last =>
          have hu : handedOn req.method (.failed last) = some (last.getD badGateway) := rfl
          apply labelled_handedOn_iff hu
          · intro resp entry heq
            cases heq
          · rw [hconcludes.failed last rfl]
          · intro key entry
            simp [hconcludes.stored]
      | answered resp =>
          cases hsafe : retrySafe req.method with
          | true =>
              rw [hsafe, if_pos rfl, hcache] at hconcludes
              exact hconcludes.labelled_answered_iff hsafe
          | false =>
              -- The single-shot path answers past the cache.
              rw [hsafe, if_neg Bool.false_ne_true] at hconcludes
              have hu : handedOn req.method (.answered resp) = some resp := by
                simp [handedOn, hsafe]
              apply labelled_handedOn_iff hu
              · exact unstored_of_not_retrySafe hsafe env c _
              · rw [hconcludes.answered resp rfl]
                rfl
              · intro key entry
                simp [hconcludes.stored, maybeCache]

/-- A location whose cache has room for `maxBytes` bytes. -/
def labellingSettings (maxBytes : Nat) : Settings :=
  { plainSettings with cache := some (pageCache maxBytes) }

/-- The exchange of a request with a single peer that answers `204`. -/
def labelledExchange (m : Method) : ProxyResult :=
  forward quietEnv (labellingSettings 1024) (helloRequest m) plainCtx.peer plainCtx
    ⟨directBalancer .http "10.0.0.1:8080", Cache.State.new⟩

/-- A `POST` gets an answer without a label, where it is due a `BYPASS`. -/
theorem post_is_not_labelled :
    (labelledExchange .post).response.status = 204 ∧
      (labelledExchange .post).response.headers.getAll "x-cache" = [] ∧
      dueLabel 1024 (lookupCache quietEnv (labellingSettings 1024) (helloRequest .post) plainCtx
        Cache.State.new).1 (labelledExchange .post).events = .bypass ∧
      ¬ Labelled (labelledExchange .post).response
        (dueLabel 1024 (lookupCache quietEnv (labellingSettings 1024) (helloRequest .post) plainCtx
          Cache.State.new).1 (labelledExchange .post).events) := by
  decide

/-- A `GET` gets an answer that is not stored, and marked so. -/
theorem forward_labelled_iff_get :
    (labelledExchange .get).response.status = 204 ∧
      Labelled (labelledExchange .get).response
        (dueLabel 1024 (lookupCache quietEnv (labellingSettings 1024) (helloRequest .get) plainCtx
          Cache.State.new).1 (labelledExchange .get).events) := by
  refine ⟨by decide, (forward_labelled_iff quietEnv (labellingSettings 1024) (pageCache 1024) rfl
    (helloRequest .get) plainCtx.peer plainCtx _).2 ⟨?_, ?_⟩⟩
  · intro resp hresp
    cases hresp
  · intro resp entry heq _ hentry
    obtain rfl := Upshot.answered.inj heq
    cases hentry

end Elrond.Proxy
