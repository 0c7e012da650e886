import Elrond.Proxy.Forward

/-!
# The body of a forwarded request

Which body a peer is sent, and whether the `content-length` sent with it is the length of that
body. Every request of the retry path carries the saved head of the client's request and an empty
body (`retryLoop_send`), every request of the single-shot path the client's body
(`forwardOnce_send`). Both carry the `content-length` lines that the location's rules leave of the
client's. Hence `forward_framing_iff`: the request sent has the client's body and a right
`content-length` exactly when the method is not one that is rebuilt with an empty body, or the
client's body is empty, and the lines that are sent denote its length.
-/

set_option autoImplicit false

namespace Elrond.Proxy

open Elrond.Lib Elrond.Http Elrond.Request Elrond.Upstream

/-! ## Requests sent -/

/-- The requests handed to a client, in order. -/
def sentRequests (events : List ProxyEvent) : List Request :=
  events.filterMap fun
    | .send _ _ q => some q
    | _ => none

theorem mem_sentRequests {events : List ProxyEvent} {q : Request} :
    q ∈ sentRequests events ↔ ∃ i c, ProxyEvent.send i c q ∈ events := by
  rw [sentRequests]
  rw [List.mem_filterMap]
  constructor
  · rintro ⟨e, he, hq⟩
    cases e with
    | send i c r =>
        obtain rfl := Option.some.inj hq
        exact ⟨i, c, he⟩
    | _ => exact absurd hq (by simp)
  · rintro ⟨i, c, h⟩
    exact ⟨_, h, rfl⟩

theorem send_mem_attemptEvents {i j : Nat} {c d : ClientKind} {outbound : Option Request}
    {q : Request} (h : ProxyEvent.send i c q ∈ attemptEvents j d outbound) : outbound = some q := by
  cases outbound with
  | none => simp [attemptEvents] at h
  | some r =>
      simp only [attemptEvents, Option.map_some, Option.toList_some, List.mem_cons, reduceCtorEq,
        List.not_mem_nil, or_false, false_or, ProxyEvent.send.injEq] at h
      rw [h.2.2]

theorem send_notMem_failureEvents {i j : Nat} {c : ClientKind} {q : Request} :
    ProxyEvent.send i c q ∉ failureEvents j := by
  simp [failureEvents]

theorem send_notMem_maybeCache {env : Env} {cache : Option ProxyCache} {m : Method}
    {ctx : RequestCtx} {h : HeaderMap} {resp : Response} {store : Cache.State} {i : Nat}
    {c : ClientKind} {q : Request} :
    ProxyEvent.send i c q ∉ (maybeCache env cache m ctx h resp store).2.2 := by
  cases cache with
  | none => exact List.not_mem_nil
  | some pc =>
      rcases maybeCache_cases env ctx pc m h resp store with
        ⟨-, hout⟩ | ⟨-, -, hout⟩ | ⟨-, -, -, hout⟩ | ⟨entry, -, -, -, hout⟩
      · simp [hout]
      · simp [hout]
      · simp [hout]
      · simp [hout]

/-- Every request of the retry loop is made from the saved head and an empty body. -/
theorem retryLoop_send (env : Env) (s : Settings) (parts : Request) (clientPeer : SocketAddr)
    (ctx : RequestCtx) {i : Nat} {c : ClientKind} {q : Request} :
    ∀ (left done : Nat) (excluded : List String) (last : Option Response) (st : ProxyState),
      ProxyEvent.send i c q ∈
          (retryLoop env s parts clientPeer ctx left done excluded last st).events →
        ∃ addr scheme, outboundRequest env.parseUri addr scheme s (buildRequest parts emptyBody)
          clientPeer ctx = some q := by
  intro left
  induction left with
  -- Induction on the attempts left; excluded peers, last response and state vary.
  | zero =>
      intro done excluded last st h
      exact absurd h (by simp [retryLoop])
  | succ left ih =>
      intro done excluded last st h
      rw [retryLoop] at h
      generalize hpick : Balancer.pickInner env.hash ((env.attempt done).before.apply st.balancer)
        (env.attempt done).pickMs ctx.peer.ip excluded = picked at h
      obtain ⟨_ | ⟨peer, j⟩, b⟩ := picked
      · exact absurd h (by simp)
      · dsimp only at h
        generalize hout : outboundRequest env.parseUri peer.addr b.scheme s
          (buildRequest parts emptyBody) clientPeer ctx = outbound at h
        -- A sent request belongs to this attempt or to a later one.
        have hopen : ∀ {d}, ProxyEvent.send i c q ∈ attemptEvents j d outbound →
            ∃ addr scheme, outboundRequest env.parseUri addr scheme s
              (buildRequest parts emptyBody) clientPeer ctx = some q := by
          intro d hmem
          exact ⟨peer.addr, b.scheme, hout.trans (send_mem_attemptEvents hmem)⟩
        have hnext : ∀ {last' st'}, ProxyEvent.send i c q ∈
              attemptEvents j s.pickClient outbound ++ failureEvents j ++
                (retryLoop env s parts clientPeer ctx left (done + 1) (excluded ++ [peer.addr])
                  last' st').events →
            ∃ addr scheme, outboundRequest env.parseUri addr scheme s
              (buildRequest parts emptyBody) clientPeer ctx = some q := by
          intro last' st' hmem
          rcases List.mem_append.1 hmem with hmem | hmem
          · rcases List.mem_append.1 hmem with hmem | hmem
            · exact hopen hmem
            · exact absurd hmem send_notMem_failureEvents
          · exact ih _ _ _ _ hmem
        split at h
        · exact hnext h
        · split at h
          · exact hnext h
          · simp only [List.append_assoc, List.cons_append, List.mem_append, List.mem_cons,
              reduceCtorEq, List.not_mem_nil, or_false, false_or] at h
            rcases h with h | h
            · exact hopen h
            · exact absurd h send_notMem_maybeCache

/-- The request of the single-shot path is made from the client's request. -/
theorem forwardOnce_send {env : Env} {s : Settings} {req : Request} {clientPeer : SocketAddr}
    {ctx : RequestCtx} {st : ProxyState} {i : Nat} {c : ClientKind} {q : Request}
    (h : ProxyEvent.send i c q ∈ (forwardOnceWithIncoming env s req clientPeer ctx st).events) :
    ∃ addr scheme, outboundRequest env.parseUri addr scheme s req clientPeer ctx = some q := by
  rw [forwardOnceWithIncoming] at h
  generalize hpick : Balancer.pickInner env.hash ((env.attempt 0).before.apply st.balancer)
    (env.attempt 0).pickMs ctx.peer.ip [] = picked at h
  obtain ⟨_ | ⟨peer, j⟩, b⟩ := picked
  · exact absurd h (by simp)
  · dsimp only at h
    generalize hout : outboundRequest env.parseUri peer.addr b.scheme s req clientPeer ctx =
      outbound at h
    have hopen : ∀ {d}, ProxyEvent.send i c q ∈ attemptEvents j d outbound →
        ∃ addr scheme, outboundRequest env.parseUri addr scheme s req clientPeer ctx = some q := by
      intro d hmem
      exact ⟨peer.addr, b.scheme, hout.trans (send_mem_attemptEvents hmem)⟩
    split at h
    · rcases List.mem_append.1 h with h | h
      · exact hopen h
      · exact absurd h send_notMem_failureEvents
    · split at h
      · rcases List.mem_append.1 h with h | h
        · exact hopen h
        · exact absurd h send_notMem_failureEvents
      · rcases List.mem_append.1 h with h | h
        · exact hopen h
        · exact absurd h (by simp)

/-- The body every request of an exchange is sent with. -/
def bodySent (req : Request) : Body := if retrySafe req.method then emptyBody else req.body

/-- Every request of an exchange has the body of its path and the client's headers as the
location rewrites them. -/
theorem forward_send {env : Env} {s : Settings} {req : Request} {clientPeer : SocketAddr}
    {ctx : RequestCtx} {st : ProxyState} {q : Request}
    (h : q ∈ sentRequests (forward env s req clientPeer ctx st).events) :
    q.body = bodySent req ∧
      q.headers = outboundHeaders req.headers s.setHeaders clientPeer ctx := by
  obtain ⟨i, c, h⟩ := mem_sentRequests.1 h
  cases hfound : (lookupCache env s req ctx st.store).1 with
  | some entry =>
      rw [forward_of_found hfound] at h
      exact absurd h List.not_mem_nil
  | none =>
      rw [forward_of_missed hfound] at h
      split at h
      -- Retry-safe methods are rebuilt with an empty body, the others sent as they came.
      · rename_i hsafe
        obtain ⟨addr, scheme, hq⟩ := retryLoop_send env s req clientPeer ctx _ _ _ _ _ h
        obtain ⟨uri, -, rfl⟩ := Option.map_eq_some_iff.1 hq
        exact ⟨by rw [bodySent, if_pos hsafe]; rfl, rfl⟩
      · rename_i hsafe
        obtain ⟨addr, scheme, hq⟩ := forwardOnce_send h
        obtain ⟨uri, -, rfl⟩ := Option.map_eq_some_iff.1 hq
        exact ⟨by rw [bodySent, if_neg hsafe], rfl⟩

/-! ## Framing -/

/-- The number a `content-length` line denotes: decimal digits and nothing else. -/
def contentLength (v : HeaderValue) : Option Nat :=
  v.toStr.bind fun s =>
    if !s.toList.isEmpty && s.toList.all Text.isAsciiDigit then some (Text.decimalValue s.toList)
    else none

/-- The request `q` carries the client's body, and every `content-length` it carries is the length
of that body. -/
def WellFramed (client q : Request) : Prop :=
  q.body.data = client.body.data ∧
    ∀ v ∈ q.headers.getAll "content-length", contentLength v = some q.body.data.length

/-- The exchange can be well framed: a request that is rebuilt with an empty body had one, and the
`content-length` lines the location leaves denote the length of the client's body. -/
def Framable (s : Settings) (ctx : RequestCtx) (req : Request) : Prop :=
  (retrySafe req.method = true → req.body.data = []) ∧
    ∀ v ∈ linesAfterRules s.setHeaders ctx "content-length" (req.headers.getAll "content-length"),
      contentLength v = some req.body.data.length

theorem bodySent_data_eq_iff (req : Request) :
    (bodySent req).data = req.body.data ↔ (retrySafe req.method = true → req.body.data = []) := by
  rw [bodySent]
  by_cases hsafe : retrySafe req.method = true
  · rw [if_pos hsafe]
    exact ⟨fun h _ => h.symm, fun h => (h hsafe).symm⟩
  · rw [if_neg hsafe]
    exact ⟨fun _ h => absurd h hsafe, fun _ => rfl⟩

/-- **Framing of forwarded requests.** A request that an exchange sends, in whichever attempt, has
the client's body and a right `content-length` exactly when the exchange can be well framed. -/
theorem forward_framing_iff (env : Env) (s : Settings) (req : Request) (clientPeer : SocketAddr)
    (ctx : RequestCtx) (st : ProxyState) :
    ∀ q ∈ sentRequests (forward env s req clientPeer ctx st).events,
      WellFramed req q ↔ Framable s ctx req := by
  intro q hq
  obtain ⟨hbody, hheaders⟩ := forward_send hq
  rw [WellFramed, Framable, hbody, hheaders, getAll_outboundHeaders_contentLength,
    ← bodySent_data_eq_iff]
  constructor
  · rintro ⟨hdata, hlines⟩
    exact ⟨hdata, hdata ▸ hlines⟩
  · rintro ⟨hdata, hlines⟩
    exact ⟨hdata, hdata.symm ▸ hlines⟩

/-! ## Two requests -/

/-- A quiet environment whose upstream answers `204`. -/
def quietEnv : Env where
  hash := fun _ => 0
  parseUri := fun _ => some ⟨some .http, some "10.0.0.1:8080", some "/items/1"⟩
  attempt := fun _ =>
    { before := Interference.quiet
      pickMs := 0
      answer := fun _ _ => .response ⟨204, ∅, emptyBody⟩
      during := Interference.quiet
      doneMs := 1 }
  lookupAt := 0
  storeAt := 0
  othersStore := id
  orders := fun _ => IterOrder.stored

/-- A location that only proxies. -/
def plainSettings : Settings := ⟨[], none, none, true, false⟩

/-- A request with the body `hello`. -/
def helloRequest (m : Method) : Request where
  method := m
  uri := ⟨none, none, some "/items/1"⟩
  version := .http11
  headers := ⟨[(⟨"content-length", by decide⟩, ⟨[53], by decide⟩)]⟩
  body := full (Text.utf8Bytes "hello")

/-- Its exchange with a single peer. -/
def helloExchange (m : Method) : ProxyResult :=
  forward quietEnv plainSettings (helloRequest m) plainCtx.peer plainCtx
    ⟨directBalancer .http "10.0.0.1:8080", Cache.State.new⟩

/-- A `DELETE` is sent with `content-length: 5` and no body. -/
theorem delete_sent_without_body :
    ∃ q ∈ sentRequests (helloExchange .delete).events, ¬ WellFramed (helloRequest .delete) q := by
  refine ⟨_, List.mem_cons_self, ?_⟩
  intro h
  exact absurd h.1 (by decide)

/-- A `POST` is sent with its body. -/
theorem post_sent_with_body :
    ∃ q ∈ sentRequests (helloExchange .post).events, WellFramed (helloRequest .post) q := by
  have hsent : ∃ q, q ∈ sentRequests (helloExchange .post).events := ⟨_, List.mem_cons_self⟩
  obtain ⟨q, hq⟩ := hsent
  refine ⟨q, hq, (forward_framing_iff _ _ _ _ _ _ q hq).2 ⟨?_, ?_⟩⟩
  · intro h
    exact absurd h (by decide)
  · decide

end Elrond.Proxy
