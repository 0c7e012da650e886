import Elrond.Proxy.Course
import Elrond.Proxy.Framing

/-!
# The retry protocol

Every way through the retry loop of `forward` and through its single-shot path has a course of
attempts (`retryLoop_follows`, `forwardOnce_follows`), whatever the upstreams answer and whatever
other requests do to the balancer in between. So a request that the cache does not answer keeps the
retry protocol (`forward_follows_protocol`).
-/

set_option autoImplicit false

namespace Elrond.Proxy

open Elrond.Lib Elrond.Http Elrond.Request Elrond.Upstream Elrond.Config

/-! ## Every exchange has a course -/

section Exchanges

variable (env : Env) (s : Settings) (clientPeer : SocketAddr) (ctx : RequestCtx)

/-- The picked peer is not excluded, and has its address from the start. -/
theorem picked_addr {b b' : Balancer} {i : Nat} {peer : Peer} {done : Nat}
    {excluded : List String}
    (hpick : Balancer.pickInner env.hash ((env.attempt done).before.apply b)
      (env.attempt done).pickMs ctx.peer.ip excluded = (some (peer, i), b')) :
    peer.addr ∉ excluded ∧ b.peers[i]?.map Peer.addr = some peer.addr := by
  have hmem := Balancer.mem_pool_of_pickInner (congrArg Prod.fst hpick)
  obtain ⟨hget, -, hexclude, -⟩ := Balancer.mem_pool hmem
  refine ⟨hexclude, ?_⟩
  rw [← addr_moveBalancer env.hash b (.others (env.attempt done).before) i]
  show ((env.attempt done).before.apply b).peers[i]?.map Peer.addr = _
  rw [hget]
  rfl

/-- The balancer at the end of an attempt is reached by its moves. -/
theorem run_moves {b b' : Balancer} {picked : Option (Peer × Nat)} {done : Nat}
    {excluded : List String} (a : Attempt)
    (hpick : Balancer.pickInner env.hash ((env.attempt done).before.apply b)
      (env.attempt done).pickMs ctx.peer.ip excluded = (picked, b')) :
    run (moveBalancer env.hash) b (a.moves (env.attempt done) ctx.peer.ip excluded) =
      if a.failed then
        failPeer ((env.attempt done).during.apply (b'.modifyPeer a.peer Peer.enter)) a.peer
          (env.attempt done).doneMs
      else
        succeedPeer ((env.attempt done).during.apply (b'.modifyPeer a.peer Peer.enter)) a.peer := by
  obtain rfl := congrArg Prod.snd hpick
  cases hfailed : a.failed with
  | true =>
      simp only [Attempt.moves, Attempt.opening, Attempt.closing, Attempt.record, hfailed, if_true]
      rfl
  | false =>
      simp only [Attempt.moves, Attempt.opening, Attempt.closing, Attempt.record, hfailed,
        Bool.false_eq_true, if_false]
      rfl

theorem delivers_markCache {cache : Option ProxyCache} (hcache : cache ≠ none) {resp out : Response}
    (label : String) (hstatus : out.status = resp.status) (hheaders : out.headers = resp.headers)
    (hbody : resp.body.failed = false → out.body = resp.body) :
    Delivers cache resp (markCache out label) := by
  rw [markCache]
  split
  · refine ⟨hstatus, fun name hname => ?_, hbody, fun hnone => absurd hnone hcache⟩
    show (out.headers.insert xCache _).getAll name = _
    have hother : ¬ Text.toAsciiLowercase name = xCache.text := hname
    rw [HeaderMap.getAll_insert, if_neg hother, hheaders]
  · exact ⟨hstatus, fun name _ => by rw [hheaders], hbody, fun hnone => absurd hnone hcache⟩

/-- `maybe_cache` returns the response it is given. -/
theorem delivers_maybeCache (cache : Option ProxyCache) (m : Method) (h : HeaderMap)
    (resp : Response) (store : Cache.State) :
    Delivers cache resp (maybeCache env cache m ctx h resp store).1 := by
  cases cache with
  | none => exact ⟨rfl, fun _ _ => rfl, fun _ => rfl, fun _ => rfl⟩
  | some pc =>
      have hsome : some pc ≠ none := by simp
      rcases maybeCache_cases env ctx pc m h resp store with
        ⟨-, hout⟩ | ⟨-, hbroken, hout⟩ | ⟨-, -, -, hout⟩ | ⟨entry, -, -, -, hout⟩
      · rw [hout]
        exact delivers_markCache hsome "BYPASS" rfl rfl fun _ => rfl
      · rw [hout]
        refine ⟨rfl, fun _ _ => rfl, fun hwhole => ?_, fun hnone => absurd hnone hsome⟩
        rw [hwhole] at hbroken
        cases hbroken
      · rw [hout]
        exact delivers_markCache hsome "BYPASS" rfl rfl fun _ => rfl
      · rw [hout]
        exact delivers_markCache hsome "MISS" rfl rfl fun _ => rfl

theorem filter_maybeCache (cache : Option ProxyCache) (m : Method) (h : HeaderMap)
    (resp : Response) (store : Cache.State) :
    (maybeCache env cache m ctx h resp store).2.2.filter ProxyEvent.ofAttempt = [] := by
  cases cache with
  | none => rfl
  | some pc =>
      rcases maybeCache_cases env ctx pc m h resp store with
        ⟨-, hout⟩ | ⟨-, -, hout⟩ | ⟨-, -, -, hout⟩ | ⟨entry, -, -, -, hout⟩
      · rw [hout]
        rfl
      · rw [hout]
        rfl
      · rw [hout]
        rfl
      · rw [hout]
        rfl

/-- What a location with a cache makes of the body of an answer: it reads it to its end, and sends
an empty one if it cannot. -/
def bufferedBody (cache : Option ProxyCache) (m : Method) (body : Body) : Body :=
  if cache.isSome && m == .get && body.failed then full [] else body

theorem body_markCache (resp : Response) (label : String) :
    (markCache resp label).body = resp.body := by
  rw [markCache]
  split <;> rfl

theorem body_maybeCache (cache : Option ProxyCache) (m : Method) (h : HeaderMap)
    (resp : Response) (store : Cache.State) :
    (maybeCache env cache m ctx h resp store).1.body = bufferedBody cache m resp.body := by
  cases cache with
  | none => rfl
  | some pc =>
      rcases maybeCache_cases env ctx pc m h resp store with
        ⟨hget, hout⟩ | ⟨hget, hbroken, hout⟩ | ⟨-, hwhole, -, hout⟩ | ⟨entry, -, hwhole, -, hout⟩
      · rw [hout, body_markCache]
        simp [bufferedBody, hget]
      · rw [hout]
        simp [bufferedBody, hget, hbroken]
      · rw [hout, body_markCache]
        simp [bufferedBody, hwhole]
      · rw [hout, body_markCache]
        simp [bufferedBody, hwhole]

/-- An answer is put into the store only at a location with a cache, for a `GET`, and when its body
ended normally; then the client gets it marked as a miss. -/
theorem cachePut_maybeCache {cache : Option ProxyCache} {m : Method} {h : HeaderMap}
    {resp : Response} {store : Cache.State} {key : String} {entry : Cache.Entry}
    (hput : .cachePut key entry ∈ (maybeCache env cache m ctx h resp store).2.2) :
    ∃ pc, cache = some pc ∧ resp.body = full resp.body.data ∧
      Cache.storedEntry m h env.storeAt pc.validRules resp.status resp.headers resp.body.data =
        some entry ∧
      (maybeCache env cache m ctx h resp store).1 = markCache resp "MISS" := by
  cases cache with
  | none => cases hput
  | some pc =>
      rcases maybeCache_cases env ctx pc m h resp store with
        ⟨-, hout⟩ | ⟨-, -, hout⟩ | ⟨-, -, -, hout⟩ | ⟨stored, -, hwhole, hstored, hout⟩
      · rw [hout] at hput
        cases hput
      · rw [hout] at hput
        cases hput
      · rw [hout] at hput
        cases List.mem_singleton.1 hput
      · rw [hout] at hput
        obtain ⟨-, rfl⟩ := ProxyEvent.cachePut.inj (List.mem_singleton.1 hput)
        exact ⟨pc, rfl, by rw [full, ← hwhole], hstored, congrArg Prod.fst hout⟩

/-- Only bodies that ended normally are stored. -/
theorem body_of_cachePut {cache : Option ProxyCache} {m : Method} {h : HeaderMap}
    {resp : Response} {store : Cache.State} {key : String} {entry : Cache.Entry}
    (hput : .cachePut key entry ∈ (maybeCache env cache m ctx h resp store).2.2) :
    resp.body = full entry.body := by
  obtain ⟨pc, -, hbody, hstored, -⟩ := cachePut_maybeCache env ctx hput
  obtain ⟨ttl, -, rfl⟩ := Cache.storedEntry_eq_some hstored
  exact hbody

/-- Every attempt of the course sends `req` to its address. -/
def SendsOut (env : Env) (s : Settings) (clientPeer : SocketAddr) (ctx : RequestCtx)
    (scheme : Scheme) (req : Request) (c : Course) : Prop :=
  ∀ a ∈ c.attempts, a.sent = outboundRequest env.parseUri a.addr scheme s req clientPeer ctx

/-- The scheme of a balancer stays under the moves before an attempt. -/
theorem scheme_of_pick {b b' : Balancer} {picked : Option (Peer × Nat)} {done : Nat}
    {excluded : List String}
    (hpick : Balancer.pickInner env.hash ((env.attempt done).before.apply b)
      (env.attempt done).pickMs ctx.peer.ip excluded = (picked, b')) : b'.scheme = b.scheme := by
  have hbefore := congrArg (fun config => config.2.2.2) ((env.attempt done).before.keeps b)
  obtain rfl := congrArg Prod.snd hpick
  refine Eq.trans ?_ hbefore
  simp only [Balancer.pickInner]
  split
  · rfl
  · split <;> rfl

/-- The scheme of a balancer stays after a failed attempt. -/
theorem scheme_of_failPeer {b : Balancer} {done : Nat} (i : Nat) (doneMs : UInt64) :
    (failPeer ((env.attempt done).during.apply (b.modifyPeer i Peer.enter)) i doneMs).scheme =
      b.scheme :=
  congrArg (fun config => config.2.2.2)
    ((env.attempt done).during.keeps (b.modifyPeer i Peer.enter))

/-- The exchange hands the body of the answer that ends its course on to the client, and stores no
other body. -/
structure HandsOn (cache : Option ProxyCache) (m : Method) (c : Course) (r : ProxyResult) :
    Prop where
  body : ∀ a resp, c.ending = .answered a → a.answer = some resp →
    r.response.body = bufferedBody cache m resp.body
  stored : ∀ key entry, .cachePut key entry ∈ r.events →
    ∃ a resp, c.ending = .answered a ∧ a.answer = some resp ∧ resp.body = full entry.body

theorem cachePut_notMem_opening (key : String) (entry : Cache.Entry) (i : Nat)
    (client : ClientKind) (outbound : Option Request) :
    .cachePut key entry ∉ attemptEvents i client outbound := by
  cases outbound with
  | none => simp [attemptEvents]
  | some q => simp [attemptEvents]

/-- A failed attempt before a course stores nothing. -/
theorem HandsOn.cons {cache : Option ProxyCache} {m : Method} {c : Course} {r : ProxyResult}
    (h : HandsOn cache m c r) (a : Attempt) (client : ClientKind) :
    HandsOn cache m (c.cons a)
      { r with
        events := attemptEvents a.peer client a.sent ++ failureEvents a.peer ++ r.events } where
  body := h.body
  stored := by
    intro key entry hput
    rcases List.mem_append.1 hput with hown | hrest
    · rcases List.mem_append.1 hown with hopen | hfail
      · exact absurd hopen (cachePut_notMem_opening key entry _ _ _)
      · simp [failureEvents] at hfail
    · exact h.stored key entry hrest

/-- An exchange that ends without an answer and without an event of the cache. -/
theorem HandsOn.of_unanswered {cache : Option ProxyCache} {m : Method} {c : Course}
    {r : ProxyResult} (hend : ∀ a, c.ending ≠ .answered a)
    (hevents : ∀ key entry, .cachePut key entry ∉ r.events) : HandsOn cache m c r where
  body := fun a _ heq => absurd heq (hend a)
  stored := fun key entry hput => absurd hput (hevents key entry)

/-- The first attempt succeeds, and its answer goes through the cache. -/
theorem HandsOn.of_answered {cache : Option ProxyCache} {m : Method} {a : Attempt}
    {resp : Response} {r : ProxyResult} {client : ClientKind} {cacheEvents : List ProxyEvent}
    (hanswer : a.answer = some resp) (hbody : r.response.body = bufferedBody cache m resp.body)
    (hevents : r.events = attemptEvents a.peer client a.sent ++
      .recordSuccess a.peer :: cacheEvents ++ [.leave a.peer])
    (hstored : ∀ key entry, .cachePut key entry ∈ cacheEvents → resp.body = full entry.body) :
    HandsOn cache m ⟨[], .answered a⟩ r where
  body := by
    rintro a' resp' heq hresp
    obtain rfl := Ending.answered.inj heq
    obtain rfl := Option.some.inj (hanswer.symm.trans hresp)
    exact hbody
  stored := by
    intro key entry hput
    refine ⟨a, resp, rfl, hanswer, hstored key entry ?_⟩
    rw [hevents] at hput
    rcases List.mem_append.1 hput with hfirst | hlast
    · rcases List.mem_append.1 hfirst with hopen | hrest
      · exact absurd hopen (cachePut_notMem_opening key entry _ _ _)
      · rcases List.mem_cons.1 hrest with heq | hmem
        · cases heq
        · exact hmem
    · cases List.mem_singleton.1 hlast

/-- The events of a successful attempt, with those of the cache in it. -/
theorem filter_answeredEvents {a : Attempt} (hok : a.failed = false) (client : ClientKind)
    {cacheEvents : List ProxyEvent} (hcache : cacheEvents.filter ProxyEvent.ofAttempt = []) :
    (attemptEvents a.peer client a.sent ++ ProxyEvent.recordSuccess a.peer :: cacheEvents ++
      [ProxyEvent.leave a.peer]).filter ProxyEvent.ofAttempt = a.events client := by
  have hrecord : a.recordEvent = .recordSuccess a.peer := by
    rw [Attempt.recordEvent, hok]
    rfl
  rw [Attempt.events, hrecord, List.filter_append, List.filter_append, List.filter_cons_of_pos rfl,
    hcache]
  cases a.sent with
  | none => rfl
  | some q => rfl

/-- Every run of the retry loop has a course. -/
theorem retryLoop_follows (parts : Request) :
    ∀ (left done : Nat) (excluded : List String) (last : Option Response) (st : ProxyState),
      ∃ c, Follows env s ctx st.balancer left done excluded last c
          (retryLoop env s parts clientPeer ctx left done excluded last st) ∧
        HandsOn s.cache parts.method c
          (retryLoop env s parts clientPeer ctx left done excluded last st) ∧
        SendsOut env s clientPeer ctx st.balancer.scheme (buildRequest parts emptyBody) c := by
  intro left
  induction left with
  -- Induction on the attempts left; excluded peers, last response and state vary.
  | zero =>
      intro done excluded last st
      exact ⟨_, Follows.of_spent st, HandsOn.of_unanswered (by simp) (by simp [retryLoop]),
        fun a ha => absurd ha List.not_mem_nil⟩
  | succ left ih =>
      intro done excluded last st
      rw [retryLoop]
      generalize hpick : Balancer.pickInner env.hash ((env.attempt done).before.apply st.balancer)
        (env.attempt done).pickMs ctx.peer.ip excluded = picked
      obtain ⟨_ | ⟨peer, i⟩, b⟩ := picked
      · have hfollows : Follows env s ctx st.balancer (left + 1) done excluded last
            ⟨[], .noPeer⟩ _ := Follows.of_noPeer (congrArg Prod.fst hpick)
        rw [hpick] at hfollows
        exact ⟨_, hfollows, HandsOn.of_unanswered (by simp) (by simp),
          fun a ha => absurd ha List.not_mem_nil⟩
      · obtain ⟨hfresh, haddr⟩ := picked_addr env ctx hpick
        have hscheme := scheme_of_pick env ctx hpick
        dsimp only
        generalize hout : outboundRequest env.parseUri peer.addr b.scheme s
          (buildRequest parts emptyBody) clientPeer ctx = outbound
        rw [hscheme] at hout
        generalize hanswer : forwardToPeer (env.attempt done) s outbound = answer
        generalize hafter : failPeer ((env.attempt done).during.apply
          (b.modifyPeer i Peer.enter)) i (env.attempt done).doneMs = after
        -- The attempt of this round, and what follows if it fails.
        let a : Attempt := ⟨i, peer.addr, outbound, answer⟩
        have hmoves := run_moves env ctx a hpick
        have hnext : a.failed = true →
            let rest := retryLoop env s parts clientPeer ctx left (done + 1)
              (excluded ++ [peer.addr]) (a.answer.or last) { st with balancer := after }
            let r : ProxyResult :=
              { rest with
                events := attemptEvents i s.pickClient outbound ++ failureEvents i ++
                  rest.events }
            ∃ c, Follows env s ctx st.balancer (left + 1) done excluded last c r ∧
              HandsOn s.cache parts.method c r ∧
              SendsOut env s clientPeer ctx st.balancer.scheme (buildRequest parts emptyBody)
                c := by
          intro hfailed
          rw [if_pos hfailed] at hmoves
          obtain ⟨c, hc, hhands, hsends⟩ := ih (done + 1) (excluded ++ [peer.addr])
            (a.answer.or last) { st with balancer := after }
          refine ⟨c.cons a, Follows.cons hfailed hanswer.symm hfresh haddr ?_,
            hhands.cons a s.pickClient, fun a' ha' => ?_⟩
          · rw [hmoves.trans hafter]
            exact hc
          · rcases List.mem_cons.1 ha' with rfl | ha'
            · exact hout.symm
            · have hafterScheme : after.scheme = st.balancer.scheme := by
                rw [← hafter, scheme_of_failPeer env i (env.attempt done).doneMs, hscheme]
              rw [← hafterScheme]
              exact hsends a' ha'
        cases answer with
        | none => exact hnext rfl
        | some resp =>
            dsimp only
            split
            · rename_i herror
              exact hnext herror
            · rename_i hfine
              have hok : a.failed = false := Bool.eq_false_iff.2 hfine
              rw [if_neg (Bool.eq_false_iff.1 hok)] at hmoves
              refine ⟨_, Follows.of_answered (a := a) rfl hanswer.symm hok hfresh haddr
                (delivers_maybeCache env ctx s.cache parts.method parts.headers resp st.store)
                (filter_answeredEvents hok s.pickClient (filter_maybeCache env ctx _ _ _ _ _))
                hmoves.symm, HandsOn.of_answered (a := a) rfl ?_ rfl ?_, fun a' ha' => ?_⟩
              · exact body_maybeCache env ctx s.cache parts.method parts.headers resp st.store
              · exact fun key entry hput => body_of_cachePut env ctx hput
              · obtain rfl : a' = a := List.mem_singleton.1 ha'
                exact hout.symm

/-- The single-shot path has a course of one attempt at most, and the body goes by the cache. -/
theorem forwardOnce_follows (req : Request) (st : ProxyState) :
    ∃ c, Follows env s ctx st.balancer 1 0 [] none c
        (forwardOnceWithIncoming env s req clientPeer ctx st) ∧
      HandsOn none req.method c (forwardOnceWithIncoming env s req clientPeer ctx st) ∧
      SendsOut env s clientPeer ctx st.balancer.scheme req c := by
  rw [forwardOnceWithIncoming]
  generalize hpick : Balancer.pickInner env.hash ((env.attempt 0).before.apply st.balancer)
    (env.attempt 0).pickMs ctx.peer.ip [] = picked
  obtain ⟨_ | ⟨peer, i⟩, b⟩ := picked
  · have hfollows : Follows env s ctx st.balancer 1 0 [] none ⟨[], .noPeer⟩ _ :=
      Follows.of_noPeer (congrArg Prod.fst hpick)
    rw [hpick] at hfollows
    exact ⟨_, hfollows, HandsOn.of_unanswered (by simp) (by simp),
      fun a ha => absurd ha List.not_mem_nil⟩
  · obtain ⟨hfresh, haddr⟩ := picked_addr env ctx hpick
    have hscheme := scheme_of_pick env ctx hpick
    dsimp only
    generalize hout : outboundRequest env.parseUri peer.addr b.scheme s req clientPeer ctx =
      outbound
    rw [hscheme] at hout
    generalize hanswer : forwardToPeer (env.attempt 0) s outbound = answer
    generalize hafter : failPeer ((env.attempt 0).during.apply
      (b.modifyPeer i Peer.enter)) i (env.attempt 0).doneMs = after
    let a : Attempt := ⟨i, peer.addr, outbound, answer⟩
    have hmoves := run_moves env ctx a hpick
    have hlast : a.failed = true →
        let r : ProxyResult := ⟨a.answer.getD badGateway, { st with balancer := after },
          attemptEvents i s.pickClient outbound ++ failureEvents i⟩
        ∃ c, Follows env s ctx st.balancer 1 0 [] none c r ∧ HandsOn none req.method c r ∧
          SendsOut env s clientPeer ctx st.balancer.scheme req c := by
      intro hfailed
      rw [if_pos hfailed] at hmoves
      have hspent : Follows env s ctx after 0 1 [peer.addr] (a.answer.or none) ⟨[], .spent⟩ _ :=
        Follows.of_spent { st with balancer := after }
      rw [← hmoves.trans hafter] at hspent
      have hcourse := Follows.cons hfailed hanswer.symm hfresh haddr hspent
      rw [List.append_nil, Option.or_none, hmoves.trans hafter] at hcourse
      refine ⟨_, hcourse, HandsOn.of_unanswered (by simp [Course.cons]) fun key entry hput => ?_,
        fun a' ha' => ?_⟩
      · rcases List.mem_append.1 hput with hopen | hfail
        · exact cachePut_notMem_opening key entry _ _ _ hopen
        · simp [failureEvents] at hfail
      · obtain rfl : a' = a := List.mem_singleton.1 ha'
        exact hout.symm
    cases answer with
    | none => exact hlast rfl
    | some resp =>
        dsimp only
        split
        · rename_i herror
          exact hlast herror
        · rename_i hfine
          have hok : a.failed = false := Bool.eq_false_iff.2 hfine
          rw [if_neg (Bool.eq_false_iff.1 hok)] at hmoves
          have hevents := filter_answeredEvents hok s.pickClient List.filter_nil
          rw [List.append_assoc] at hevents
          refine ⟨_, Follows.of_answered (a := a) rfl hanswer.symm hok hfresh haddr
            ⟨rfl, fun _ _ => rfl, fun _ => rfl, fun _ => rfl⟩ hevents hmoves.symm,
            HandsOn.of_answered (a := a) rfl rfl
              (List.append_assoc _ [ProxyEvent.recordSuccess i] [.leave i]).symm
              fun _ _ hput => absurd hput List.not_mem_nil, fun a' ha' => ?_⟩
          obtain rfl : a' = a := List.mem_singleton.1 ha'
          exact hout.symm

end Exchanges

/-! ## The protocol -/

/-- How often a request may be attempted. -/
def attemptLimit (m : Method) (b : Balancer) : Nat :=
  if retrySafe m then min maxAttempts b.peers.length else 1

/-- Without peers there is no attempt. -/
theorem Follows.attempts_eq_nil {env : Env} {s : Settings} {ctx : RequestCtx} {b : Balancer}
    {left done : Nat} {excluded : List String} {last : Option Response} {c : Course}
    {r : ProxyResult} (h : Follows env s ctx b left done excluded last c r) (hb : b.peers = []) :
    c.attempts = [] := by
  apply List.eq_nil_iff_forall_not_mem.2
  intro a ha
  have haddr := h.addressed a ha
  rw [hb] at haddr
  cases haddr

/-- The loop runs once for a balancer without peers, to no effect. -/
theorem Follows.of_max_one {env : Env} {s : Settings} {ctx : RequestCtx} {b : Balancer}
    {n done : Nat} {excluded : List String} {last : Option Response} {c : Course}
    {r : ProxyResult} (hn : 1 ≤ n)
    (h : Follows env s ctx b (min n (max b.peers.length 1)) done excluded last c r) :
    Follows env s ctx b (min n b.peers.length) done excluded last c r := by
  rcases Nat.eq_zero_or_pos b.peers.length with hzero | hpos
  · have hnil := h.attempts_eq_nil (List.eq_nil_of_length_eq_zero hzero)
    refine { h with bounded := ?_, spent := ?_ }
    · rw [hnil]
      exact Nat.zero_le _
    · intro hspent
      have hone := h.spent hspent
      have hfailed : c.failed = [] := (List.append_eq_nil_iff.1 hnil).1
      rw [hzero, hfailed, List.length_nil] at hone
      omega
  · rwa [max_eq_left hpos] at h

/-- The cache buffers the answers to `GET` only, and a `GET` may be retried. -/
theorem HandsOn.of_not_retrySafe {cache : Option ProxyCache} {m : Method} {c : Course}
    {r : ProxyResult} (h : HandsOn none m c r) (hm : retrySafe m = false) :
    HandsOn cache m c r where
  body := by
    have hget : (m == Method.get) = false := by
      rw [beq_eq_false_iff_ne]
      rintro rfl
      cases hm
    intro a resp heq hanswer
    rw [h.body a resp heq hanswer, bufferedBody, bufferedBody, hget]
    simp
  stored := h.stored

/-- The request as an exchange sends it: rebuilt with an empty body if it may be sent again. -/
def requestSent (req : Request) : Request :=
  if retrySafe req.method then buildRequest req emptyBody else req

/-- A request that the cache does not answer has a course of attempts, which ends with the body that
is handed on; every attempt sends the same request. -/
theorem forward_course (env : Env) (s : Settings) (req : Request) (clientPeer : SocketAddr)
    (ctx : RequestCtx) (st : ProxyState)
    (hmiss : (lookupCache env s req ctx st.store).1 = none) :
    ∃ c : Course,
      Follows env s ctx st.balancer (attemptLimit req.method st.balancer) 0 [] none c
        (forward env s req clientPeer ctx st) ∧
      HandsOn s.cache req.method c (forward env s req clientPeer ctx st) ∧
      SendsOut env s clientPeer ctx st.balancer.scheme (requestSent req) c := by
  rw [forward_of_missed hmiss]
  generalize (lookupCache env s req ctx st.store).2 = store
  cases hsafe : retrySafe req.method with
  | true =>
      simp only [attemptLimit, requestSent, hsafe, if_true]
      obtain ⟨c, hc, hhands, hsends⟩ := retryLoop_follows env s clientPeer ctx req
        (min maxAttempts (max st.balancer.peers.length 1)) 0 [] none { st with store := store }
      exact ⟨c, hc.of_max_one (by decide), hhands, hsends⟩
  | false =>
      simp only [attemptLimit, requestSent, hsafe, Bool.false_eq_true, if_false]
      obtain ⟨c, hc, hhands, hsends⟩ :=
        forwardOnce_follows env s clientPeer ctx req { st with store := store }
      exact ⟨c, hc, hhands.of_not_retrySafe hsafe, hsends⟩

/-- **The retry protocol.** A request that the cache does not answer has a course of attempts, not
more than its method and the number of peers allow, on distinct addresses, which goes on only after
a failure and whose first success is returned. Every attempt records one outcome on its peer and
holds it in flight for exactly the time of the exchange. -/
theorem forward_follows_protocol (env : Env) (s : Settings) (req : Request)
    (clientPeer : SocketAddr) (ctx : RequestCtx) (st : ProxyState)
    (hmiss : (lookupCache env s req ctx st.store).1 = none) :
    ∃ c : Course,
      Follows env s ctx st.balancer (attemptLimit req.method st.balancer) 0 [] none c
        (forward env s req clientPeer ctx st) ∧
      InFlightKept env ctx.peer.ip st.balancer c := by
  obtain ⟨c, hc, -⟩ := forward_course env s req clientPeer ctx st hmiss
  exact ⟨c, hc, hc.inFlightKept⟩

/-- An environment in which the first attempt is answered `500`. -/
def flakyEnv : Env :=
  { quietEnv with
    attempt := fun k =>
      { quietEnv.attempt k with
        answer := fun _ _ => .response ⟨if k = 0 then 500 else 204, ∅, emptyBody⟩ } }

/-- The exchange of a `GET` with a primary and a backup there. -/
def failover : ProxyResult :=
  forward flakyEnv plainSettings (helloRequest .get) plainCtx.peer plainCtx
    ⟨primaryAndBackup, Cache.State.new⟩

/-- The primary fails and the backup answers. -/
theorem forward_follows_protocol_failover :
    failover.response.status = 204 ∧ ∃ c : Course, c.attempts.length ≤ 2 ∧
      Follows flakyEnv plainSettings plainCtx primaryAndBackup
        (attemptLimit .get primaryAndBackup) 0 [] none c failover ∧
      InFlightKept flakyEnv plainCtx.peer.ip primaryAndBackup c := by
  obtain ⟨c, hc, hkept⟩ := forward_follows_protocol flakyEnv plainSettings (helloRequest .get)
    plainCtx.peer plainCtx ⟨primaryAndBackup, Cache.State.new⟩ rfl
  exact ⟨by decide, c, hc.bounded, hc, hkept⟩

end Elrond.Proxy
