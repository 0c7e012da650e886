import Elrond.Cache.Store
import Elrond.Proxy.Headers
import Elrond.Upstream.Target

/-!
# Forwarding a request

`proxy::forward` with the functions it calls. Methods that may be retried are answered from the
cache or sent to up to three peers, with the request rebuilt from its saved head for each attempt;
every other method is sent once with the client's request as it came.

What the exchange meets is given by an environment: the instants it reads from the clocks, what
other requests do to the balancer and to the cache store meanwhile, and what the upstream answers.
The result holds, besides the response and the state after it, the events of the exchange in order.
Hashing of client addresses and parsing of URIs are the standard library's and the `http` crate's
and stay parameters.
-/

set_option autoImplicit false

namespace Elrond.Proxy

open Elrond.Lib Elrond.Http Elrond.Request Elrond.Upstream Elrond.Config

/-! ## Environment, settings and events -/

/-- The configuration of a peer, which no request changes. -/
def peerConfig (p : Peer) : UpstreamServer :=
  ⟨p.addr, p.weight, p.maxFails, p.failTimeout, p.backup, p.down⟩

/-- The configuration of a balancer, which no request changes. -/
def balancerConfig (b : Balancer) : String × LbMethod × List UpstreamServer × Scheme :=
  (b.name, b.method, b.peers.map peerConfig, b.scheme)

/-- What other requests do to a balancer: its configuration stays. -/
structure Interference where
  apply : Balancer → Balancer
  keeps : ∀ b, balancerConfig (apply b) = balancerConfig b

/-- Nothing happens in between. -/
def Interference.quiet : Interference := ⟨id, fun _ => rfl⟩

/-- What an upstream exchange comes to. -/
inductive Outcome where
  | response (resp : Response)
  | error
  | timedOut

/-- What one attempt meets: other requests before the pick and during the exchange, the clock at
the pick and at its end, and the answer to the request sent under a time limit. -/
structure AttemptEnv where
  before : Interference
  pickMs : UInt64
  answer : Text.Duration → Request → Outcome
  during : Interference
  doneMs : UInt64

/-- What a forwarded request meets. `othersStore` is what other requests do to the cache store
between its lookup and its insertion. -/
structure Env where
  hash : IpAddr → UInt64
  parseUri : String → Option Uri
  attempt : Nat → AttemptEnv
  lookupAt : Nat
  storeAt : Nat
  othersStore : Cache.State → Cache.State
  orders : Nat → IterOrder (String × List Cache.Entry)

/-- `ProxyCache`; the store is named by its zone. -/
structure ProxyCache where
  zone : CacheZone
  keyTemplate : Template
  validRules : List (List Nat × Text.Duration)

/-- The three clients `forward` chooses from. -/
inductive ClientKind where
  | mtls
  | verifying
  | insecure
deriving DecidableEq, Repr

/-- The settings of a proxying location. -/
structure Settings where
  setHeaders : List (HeaderName × Template)
  cache : Option ProxyCache
  readTimeout : Option Text.Duration
  sslVerify : Bool
  mtlsClient : Bool

/-- `DEFAULT_PROXY_READ_TIMEOUT`. -/
def defaultProxyReadTimeout : Text.Duration := Text.fromSecs 60

/-- `MAX_ATTEMPTS`. -/
def maxAttempts : Nat := 3

/-- `pick_client`. -/
def Settings.pickClient (s : Settings) : ClientKind :=
  if s.mtlsClient then .mtls else if s.sslVerify then .verifying else .insecure

/-- The time limit of an exchange. -/
def Settings.effectiveRead (s : Settings) : Text.Duration :=
  s.readTimeout.getD defaultProxyReadTimeout

/-- What an exchange does, in order. Peers are named by their position in the balancer. -/
inductive ProxyEvent where
  | enter (peer : Nat)
  | attempt
  | send (peer : Nat) (client : ClientKind) (request : Request)
  | recordSuccess (peer : Nat)
  | recordFailure (peer : Nat)
  | proxyFailure
  | leave (peer : Nat)
  | cacheBypass
  | cachePut (key : String) (entry : Cache.Entry)

/-- The state an exchange works on. -/
structure ProxyState where
  balancer : Balancer
  store : Cache.State

/-- What an exchange results in. -/
structure ProxyResult where
  response : Response
  state : ProxyState
  events : List ProxyEvent

/-! ## Requests and responses -/

/-- `empty_body`. -/
def emptyBody : Body := ⟨[], false⟩

/-- `build_request`: the saved head with a new body. -/
def buildRequest (original : Request) (body : Body) : Request where
  method := original.method
  uri := original.uri
  version := original.version
  headers := original.headers
  body := body

/-- The request `forward_to_peer` hands to the client, if the upstream URI parses. -/
def outboundRequest (parseUri : String → Option Uri) (addr : String) (scheme : Scheme)
    (s : Settings) (req : Request) (clientPeer : SocketAddr) (ctx : RequestCtx) : Option Request :=
  (parseUri (upstreamUriText scheme addr (req.uri.pathAndQuery.getD "/"))).map fun uri =>
    { req with uri := uri, headers := outboundHeaders req.headers s.setHeaders clientPeer ctx }

/-- `forward_to_peer` under the time limit of the caller: the response, if there is one. -/
def forwardToPeer (env : AttemptEnv) (s : Settings) (outbound : Option Request) : Option Response :=
  outbound.bind fun q =>
    match env.answer s.effectiveRead q with
    | .response resp => some { resp with headers := stripHopByHop resp.headers }
    | .error => none
    | .timedOut => none

/-- The `x-cache` header name. -/
def xCache : HeaderName := ⟨"x-cache", by decide⟩

/-- `mark_cache`. -/
def markCache (resp : Response) (label : String) : Response :=
  match HeaderValue.fromStr label with
  | some v => { resp with headers := resp.headers.insert xCache v }
  | none => resp

/-- `cached_response`. -/
def cachedResponse (entry : Cache.Entry) : Response :=
  let stored := entry.headers.foldl (fun h e => h.append e.1 e.2) (∅ : HeaderMap)
  { status := entry.status
    headers := stored.append xCache ⟨Text.utf8Bytes "HIT", by decide⟩
    body := full entry.body }

/-- `maybe_cache`: the response, the store after it, and the events. -/
def maybeCache (env : Env) (cache : Option ProxyCache) (method : Method) (ctx : RequestCtx)
    (reqHeaders : HeaderMap) (resp : Response) (store : Cache.State) :
    Response × Cache.State × List ProxyEvent :=
  match cache with
  | none => (resp, store, [])
  | some c =>
      if method ≠ .get then (markCache resp "BYPASS", store, [])
      else if resp.body.failed then ({ resp with body := full [] }, store, [])
      else
        let buffered := { resp with body := full resp.body.data }
        match Cache.storedEntry method reqHeaders env.storeAt c.validRules resp.status resp.headers
            resp.body.data with
        | none => (markCache buffered "BYPASS", store, [.cacheBypass])
        | some entry =>
            let key := c.keyTemplate.render ctx
            let put := (env.othersStore store).put c.zone.maxBytes env.orders key entry
            (markCache buffered "MISS", put.state, [.cachePut key entry])

/-- What `maybe_cache` does at a location with a cache. A body that ended normally is the body read
to its end, so the response is marked as it is. -/
theorem maybeCache_cases (env : Env) (ctx : RequestCtx) (pc : ProxyCache) (m : Method)
    (h : HeaderMap) (resp : Response) (store : Cache.State) :
    let out := maybeCache env (some pc) m ctx h resp store
    let entry? := Cache.storedEntry m h env.storeAt pc.validRules resp.status resp.headers
      resp.body.data
    (m ≠ .get ∧ out = (markCache resp "BYPASS", store, [])) ∨
    (m = .get ∧ resp.body.failed = true ∧ out = ({ resp with body := full [] }, store, [])) ∨
    (m = .get ∧ resp.body.failed = false ∧ entry? = none ∧
      out = (markCache resp "BYPASS", store, [.cacheBypass])) ∨
    (∃ entry, m = .get ∧ resp.body.failed = false ∧ entry? = some entry ∧
      out = (markCache resp "MISS",
        ((env.othersStore store).put pc.zone.maxBytes env.orders (pc.keyTemplate.render ctx)
          entry).state,
        [.cachePut (pc.keyTemplate.render ctx) entry])) := by
  dsimp only
  by_cases hget : m = .get
  · subst hget
    cases hbody : resp.body.failed with
    | true =>
        refine .inr (.inl ⟨rfl, rfl, ?_⟩)
        simp [maybeCache, hbody]
    | false =>
        have hbuffered : { resp with body := full resp.body.data } = resp := by
          rw [full, ← hbody]
        cases hentry : Cache.storedEntry .get h env.storeAt pc.validRules resp.status resp.headers
          resp.body.data with
        | none =>
            refine .inr (.inr (.inl ⟨rfl, rfl, rfl, ?_⟩))
            simp [maybeCache, hbody, hentry, hbuffered]
        | some entry =>
            refine .inr (.inr (.inr ⟨entry, rfl, rfl, rfl, ?_⟩))
            simp [maybeCache, hbody, hentry, hbuffered]
  · exact .inl ⟨hget, by simp [maybeCache, hget]⟩

/-! ## Attempts -/

/-- A response that counts as a failure of its peer. -/
def isServerError (status : Nat) : Bool := 500 ≤ status && status < 600

/-- The answer when no peer gave one. -/
def badGateway : Response := text 502 "502 Bad Gateway\n"

/-- The events from the pick to the answer of one attempt. -/
def attemptEvents (peer : Nat) (client : ClientKind) (outbound : Option Request) :
    List ProxyEvent :=
  .enter peer :: .attempt :: (outbound.map fun q => ProxyEvent.send peer client q).toList

/-- The end of a failed attempt: the failure is recorded and the guard dropped. -/
def failPeer (b : Balancer) (peer : Nat) (doneMs : UInt64) : Balancer :=
  (b.modifyPeer peer fun p => p.recordFailure doneMs).modifyPeer peer Peer.leave

/-- The end of a successful attempt. -/
def succeedPeer (b : Balancer) (peer : Nat) : Balancer :=
  (b.modifyPeer peer Peer.recordSuccess).modifyPeer peer Peer.leave

/-- The events of a failed attempt after its answer. -/
def failureEvents (peer : Nat) : List ProxyEvent :=
  [.recordFailure peer, .proxyFailure, .leave peer]

/-- The retry loop of `forward`, with `left` attempts left after `done` ones. -/
def retryLoop (env : Env) (s : Settings) (parts : Request) (clientPeer : SocketAddr)
    (ctx : RequestCtx) : (left done : Nat) → (excluded : List String) →
      (last : Option Response) → ProxyState → ProxyResult
  | 0, _, _, last, st => ⟨last.getD badGateway, st, []⟩
  | left + 1, done, excluded, last, st =>
      let a := env.attempt done
      let b := a.before.apply st.balancer
      match b.pickInner env.hash a.pickMs ctx.peer.ip excluded with
      | (none, b) => ⟨last.getD badGateway, { st with balancer := b }, []⟩
      | (some (peer, i), b) =>
          let req := buildRequest parts emptyBody
          let outbound := outboundRequest env.parseUri peer.addr b.scheme s req clientPeer ctx
          let opening := attemptEvents i s.pickClient outbound
          let b := a.during.apply (b.modifyPeer i Peer.enter)
          -- A failed attempt is recorded and the next peer tried.
          let next (last : Option Response) : ProxyResult :=
            let rest := retryLoop env s parts clientPeer ctx left (done + 1)
              (excluded ++ [peer.addr]) last { st with balancer := failPeer b i a.doneMs }
            { rest with events := opening ++ failureEvents i ++ rest.events }
          match forwardToPeer a s outbound with
          | none => next last
          | some resp =>
              if isServerError resp.status then next (some resp)
              else
                let (resp, store, cacheEvents) :=
                  maybeCache env s.cache parts.method ctx parts.headers resp st.store
                ⟨resp, ⟨succeedPeer b i, store⟩,
                  opening ++ .recordSuccess i :: cacheEvents ++ [.leave i]⟩

/-- `forward_once_with_incoming`. -/
def forwardOnceWithIncoming (env : Env) (s : Settings) (req : Request) (clientPeer : SocketAddr)
    (ctx : RequestCtx) (st : ProxyState) : ProxyResult :=
  let a := env.attempt 0
  let b := a.before.apply st.balancer
  match b.pickInner env.hash a.pickMs ctx.peer.ip [] with
  | (none, b) => ⟨badGateway, { st with balancer := b }, []⟩
  | (some (peer, i), b) =>
      let outbound := outboundRequest env.parseUri peer.addr b.scheme s req clientPeer ctx
      let opening := attemptEvents i s.pickClient outbound
      let b := a.during.apply (b.modifyPeer i Peer.enter)
      match forwardToPeer a s outbound with
      | none =>
          ⟨badGateway, { st with balancer := failPeer b i a.doneMs }, opening ++ failureEvents i⟩
      | some resp =>
          if isServerError resp.status then
            ⟨resp, { st with balancer := failPeer b i a.doneMs }, opening ++ failureEvents i⟩
          else
            ⟨resp, { st with balancer := succeedPeer b i },
              opening ++ [.recordSuccess i, .leave i]⟩

/-- The methods `forward` may send more than once. -/
def retrySafe (m : Method) : Bool :=
  m == .get || m == .head || m == .options || m == .delete

/-- The cache lookup of `forward`: only a `GET` at a location with a cache looks anything up. -/
def lookupCache (env : Env) (s : Settings) (req : Request) (ctx : RequestCtx)
    (store : Cache.State) : Option Cache.Entry × Cache.State :=
  match s.cache with
  | none => (none, store)
  | some c =>
      if req.method = .get then
        let found := store.get env.lookupAt (c.keyTemplate.render ctx) req.headers
        (found.found, found.state)
      else (none, store)

/-- `forward`. -/
def forward (env : Env) (s : Settings) (req : Request) (clientPeer : SocketAddr)
    (ctx : RequestCtx) (st : ProxyState) : ProxyResult :=
  match lookupCache env s req ctx st.store with
  | (some entry, store) => ⟨cachedResponse entry, { st with store := store }, []⟩
  | (none, store) =>
      if retrySafe req.method then
        let max := min maxAttempts (max st.balancer.peers.length 1)
        retryLoop env s req clientPeer ctx max 0 [] none { st with store := store }
      else forwardOnceWithIncoming env s req clientPeer ctx { st with store := store }

section Lookups

variable {env : Env} {s : Settings} {req : Request} {clientPeer : SocketAddr} {ctx : RequestCtx}
  {st : ProxyState}

/-- A request that the cache answers goes to no peer. -/
theorem forward_of_found {entry : Cache.Entry}
    (h : (lookupCache env s req ctx st.store).1 = some entry) :
    forward env s req clientPeer ctx st =
      ⟨cachedResponse entry, { st with store := (lookupCache env s req ctx st.store).2 }, []⟩ := by
  rw [forward]
  generalize lookupCache env s req ctx st.store = looked at h ⊢
  obtain ⟨found, store⟩ := looked
  obtain rfl : found = some entry := h
  rfl

/-- Any other request goes through the retry loop if it may be sent again, else the single-shot
path. -/
theorem forward_of_missed (h : (lookupCache env s req ctx st.store).1 = none) :
    let st' : ProxyState := { st with store := (lookupCache env s req ctx st.store).2 }
    forward env s req clientPeer ctx st =
      if retrySafe req.method then
        retryLoop env s req clientPeer ctx (min maxAttempts (max st.balancer.peers.length 1)) 0 []
          none st'
      else forwardOnceWithIncoming env s req clientPeer ctx st' := by
  dsimp only
  rw [forward]
  generalize lookupCache env s req ctx st.store = looked at h ⊢
  obtain ⟨found, store⟩ := looked
  obtain rfl : found = none := h
  rfl

end Lookups

end Elrond.Proxy
