import Elrond.Lib.Run
import Elrond.Proxy.Forward
import Elrond.Upstream.Health

/-!
# Courses of attempts

What an exchange with the peers of a balancer may do, said without the loops of `forward`: a course
of attempts, all but the last of them failed, and the reason why it ended. `Follows` lists what
holds of the course and of the result; a course is built from its end by putting failed attempts
before it (`Follows.cons`).

The balancer after the exchange is given as a run of moves, those of other requests and those of
this one. The share of this request in the in-flight counters is computed along the run, so nothing
has to be assumed about what the others do to the same counters (`Follows.inFlightKept`).
-/

set_option autoImplicit false

namespace Elrond.Proxy

open Elrond.Lib Elrond.Http Elrond.Request Elrond.Upstream Elrond.Config

/-! ## Attempts and their moves -/

/-- One attempt: its peer by position and by address, the request sent to it, none if the upstream
URI does not parse, and the response it comes to, if any. -/
structure Attempt where
  peer : Nat
  addr : String
  sent : Option Request
  answer : Option Response

/-- A change of the balancer, by other requests or by this one. -/
inductive Move where
  | others (i : Interference)
  | own (e : PeerEvent)

/-- The balancer after a move. -/
def moveBalancer (hash : IpAddr → UInt64) (b : Balancer) : Move → Balancer
  | .others i => i.apply b
  | .own e => b.step hash e

namespace Attempt

/-- The attempt failed: an error, a timeout or a server error. -/
def failed (a : Attempt) : Bool := a.answer.all fun resp => isServerError resp.status

/-- What the attempt records on its peer. -/
def record (a : Attempt) (doneMs : UInt64) : PeerEvent :=
  if a.failed then .failure a.peer doneMs else .success a.peer

/-- The moves from the pick to the end of the exchange. -/
def opening (env : AttemptEnv) (clientIp : IpAddr) (excluded : List String) (a : Attempt) :
    List Move :=
  [.others env.before, .own (.pick env.pickMs clientIp excluded), .own (.enter a.peer),
    .others env.during]

/-- The moves after the exchange: one record and the drop of the guard. -/
def closing (env : AttemptEnv) (a : Attempt) : List Move :=
  [.own (a.record env.doneMs), .own (.leave a.peer)]

/-- The moves of an attempt. -/
def moves (env : AttemptEnv) (clientIp : IpAddr) (excluded : List String) (a : Attempt) :
    List Move :=
  a.opening env clientIp excluded ++ a.closing env

/-- The event of the record. -/
def recordEvent (a : Attempt) : ProxyEvent :=
  if a.failed then .recordFailure a.peer else .recordSuccess a.peer

/-- The events of an attempt on its peer. -/
def events (client : ClientKind) (a : Attempt) : List ProxyEvent :=
  .enter a.peer :: (a.sent.map fun q => ProxyEvent.send a.peer client q).toList ++
    [a.recordEvent, .leave a.peer]

end Attempt

/-- The event is one of an attempt on its peer, not of the metrics or of the cache. -/
def ProxyEvent.ofAttempt : ProxyEvent → Bool
  | .enter _ => true
  | .send _ _ _ => true
  | .recordSuccess _ => true
  | .recordFailure _ => true
  | .leave _ => true
  | _ => false

/-- The moves of attempts in a row, with `done` attempts before them; each excludes the addresses
of those before it. -/
def attemptMoves (env : Env) (clientIp : IpAddr) :
    (done : Nat) → (excluded : List String) → List Attempt → List Move
  | _, _, [] => []
  | done, excluded, a :: as =>
      a.moves (env.attempt done) clientIp excluded ++
        attemptMoves env clientIp (done + 1) (excluded ++ [a.addr]) as

/-! ## Courses -/

/-- Why the attempts end: one succeeded, no peer could be picked, or all allowed ones were made. -/
inductive Ending where
  | answered (a : Attempt)
  | noPeer
  | spent

/-- The attempt that ends the course. -/
def Ending.attempt : Ending → Option Attempt
  | .answered a => some a
  | .noPeer => none
  | .spent => none

/-- The failed attempts and what came after them. -/
structure Course where
  failed : List Attempt
  ending : Ending

namespace Course

/-- All attempts in order. -/
def attempts (c : Course) : List Attempt := c.failed ++ c.ending.attempt.toList

/-- One failed attempt more, before the others. -/
def cons (a : Attempt) (c : Course) : Course := ⟨a :: c.failed, c.ending⟩

/-- The moves of the pick that finds no peer. -/
def lastPick (env : Env) (clientIp : IpAddr) (done : Nat) (excluded : List String) (c : Course) :
    List Move :=
  match c.ending with
  | .noPeer =>
      let a := env.attempt (done + c.failed.length)
      [.others a.before, .own (.pick a.pickMs clientIp (excluded ++ c.failed.map Attempt.addr))]
  | _ => []

/-- The moves of the course. -/
def moves (env : Env) (clientIp : IpAddr) (done : Nat) (excluded : List String) (c : Course) :
    List Move :=
  attemptMoves env clientIp done excluded c.attempts ++ c.lastPick env clientIp done excluded

/-- The latest response of a failed attempt. -/
def lastResponse (c : Course) : Option Response := (c.failed.filterMap Attempt.answer).getLast?

end Course

/-- The response `resp` of a peer reaches the client as `out`: a location with a cache may add an
`x-cache` line, and cuts off a body that it could not read to its end. -/
structure Delivers (cache : Option ProxyCache) (resp out : Response) : Prop where
  status : out.status = resp.status
  headers : ∀ name, Text.toAsciiLowercase name ≠ "x-cache" →
    out.headers.getAll name = resp.headers.getAll name
  body : resp.body.failed = false → out.body = resp.body
  uncached : cache = none → out = resp

/-- The result `r` comes from the course `c`, started on the balancer `b` with at most `left`
attempts, after `done` attempts that excluded some addresses and left the response `last`. -/
structure Follows (env : Env) (s : Settings) (ctx : RequestCtx) (b : Balancer) (left done : Nat)
    (excluded : List String) (last : Option Response) (c : Course) (r : ProxyResult) : Prop where
  /-- There are not too many attempts. -/
  bounded : c.attempts.length ≤ left
  /-- No address is tried twice. -/
  distinct : (c.attempts.map Attempt.addr).Nodup
  fresh : ∀ a ∈ c.attempts, a.addr ∉ excluded
  addressed : ∀ a ∈ c.attempts, b.peers[a.peer]?.map Peer.addr = some a.addr
  /-- An attempt comes to what its peer answers. -/
  answers : ∀ k a, c.attempts[k]? = some a →
    a.answer = forwardToPeer (env.attempt (done + k)) s a.sent
  /-- The course goes on after a failure only, and ends for a reason. -/
  failures : ∀ a ∈ c.failed, a.failed = true
  succeeds : ∀ a, c.ending = .answered a → a.failed = false
  noPeer : c.ending = .noPeer →
    let a := env.attempt (done + c.failed.length)
    let b' := run (moveBalancer env.hash) b (attemptMoves env ctx.peer.ip done excluded c.failed)
    (Balancer.pickInner env.hash (a.before.apply b') a.pickMs ctx.peer.ip
      (excluded ++ c.failed.map Attempt.addr)).1 = none
  spent : c.ending = .spent → c.failed.length = left
  /-- The client gets the response of the successful attempt, else the latest one of a failed
  attempt, else a `502`. -/
  delivered : ∀ a, c.ending = .answered a →
    ∃ resp, a.answer = some resp ∧ Delivers s.cache resp r.response
  fallback : c.ending.attempt = none → r.response = (c.lastResponse.or last).getD badGateway
  /-- Each attempt enters its peer, records one outcome on it and leaves it, before the next. -/
  events : r.events.filter ProxyEvent.ofAttempt = c.attempts.flatMap (Attempt.events s.pickClient)
  balancer : r.state.balancer =
    run (moveBalancer env.hash) b (c.moves env ctx.peer.ip done excluded)

/-! ## The configuration stays -/

theorem addr_onPeer (e : PeerEvent) (i : Nat) (p : Peer) : (e.onPeer i p).addr = p.addr := by
  obtain ⟨_, _, _, h⟩ := e.onPeer_counters i p
  rw [h]

/-- No move changes the address at a position. -/
theorem addr_moveBalancer (hash : IpAddr → UInt64) (b : Balancer) (m : Move) (i : Nat) :
    (moveBalancer hash b m).peers[i]?.map Peer.addr = b.peers[i]?.map Peer.addr := by
  cases m with
  | others f =>
      have hconfig := congrArg (fun c => c.2.2.1) (f.keeps b)
      have hpeer : (f.apply b).peers[i]?.map peerConfig = b.peers[i]?.map peerConfig := by
        rw [← List.getElem?_map, ← List.getElem?_map]
        exact congrArg (fun l => l[i]?) hconfig
      have haddr := congrArg (Option.map UpstreamServer.addr) hpeer
      rw [Option.map_map, Option.map_map] at haddr
      exact haddr
  | own e =>
      show (b.step hash e).peers[i]?.map Peer.addr = _
      rw [Balancer.step_peers, Option.map_map]
      exact Option.map_congr fun p _ => addr_onPeer e i p

theorem addr_run (hash : IpAddr → UInt64) (b : Balancer) (ms : List Move) (i : Nat) :
    (run (moveBalancer hash) b ms).peers[i]?.map Peer.addr = b.peers[i]?.map Peer.addr :=
  run_invariant (Q := fun b' => b'.peers[i]?.map Peer.addr = b.peers[i]?.map Peer.addr)
    (fun b' m h => (addr_moveBalancer hash b' m i).trans h) rfl ms

/-! ## How a course is put together -/

section Courses

variable {env : Env} {s : Settings} {ctx : RequestCtx} {b : Balancer} {left done : Nat}
  {excluded : List String} {last : Option Response} {c : Course} {r : ProxyResult} {a : Attempt}

@[simp] theorem Course.attempts_cons : (c.cons a).attempts = a :: c.attempts := rfl

theorem Course.moves_cons (clientIp : IpAddr) :
    (c.cons a).moves env clientIp done excluded =
      a.moves (env.attempt done) clientIp excluded ++
        c.moves env clientIp (done + 1) (excluded ++ [a.addr]) := by
  have hpick : (c.cons a).lastPick env clientIp done excluded =
      c.lastPick env clientIp (done + 1) (excluded ++ [a.addr]) := by
    obtain ⟨failed, ending⟩ := c
    cases ending with
    | answered a' => rfl
    | spent => rfl
    | noPeer =>
        simp only [Course.lastPick, Course.cons, List.length_cons, List.map_cons,
          List.append_assoc, List.singleton_append, Nat.add_assoc, Nat.add_comm 1]
  rw [Course.moves, Course.moves, Course.attempts_cons, attemptMoves, hpick, List.append_assoc]

theorem Course.lastResponse_cons :
    (c.cons a).lastResponse.or last = c.lastResponse.or (a.answer.or last) := by
  simp only [Course.lastResponse, Course.cons, List.filterMap_cons]
  cases a.answer with
  | none => rfl
  | some resp =>
      rw [List.getLast?_cons]
      cases (c.failed.filterMap Attempt.answer).getLast? with
      | none => rfl
      | some resp' => rfl

/-- The events of a failed attempt. -/
theorem filter_failedEvents (hfailed : a.failed = true) (client : ClientKind) :
    (attemptEvents a.peer client a.sent ++ failureEvents a.peer).filter ProxyEvent.ofAttempt =
      a.events client := by
  rw [Attempt.events, Attempt.recordEvent, if_pos hfailed]
  cases a.sent with
  | none => rfl
  | some q => rfl

/-- Nothing is left to try. -/
theorem Follows.of_spent (st : ProxyState) :
    Follows env s ctx st.balancer 0 done excluded last ⟨[], .spent⟩ ⟨last.getD badGateway, st, []⟩
    where
  bounded := Nat.le_refl 0
  distinct := List.nodup_nil
  fresh := by simp [Course.attempts, Ending.attempt]
  addressed := by simp [Course.attempts, Ending.attempt]
  answers := by simp [Course.attempts, Ending.attempt]
  failures := by simp
  succeeds := by simp
  noPeer := by simp
  spent := fun _ => rfl
  delivered := by simp
  fallback := fun _ => rfl
  events := rfl
  balancer := rfl

/-- No peer can be picked. -/
theorem Follows.of_noPeer {st : ProxyState}
    (hpick : (Balancer.pickInner env.hash ((env.attempt done).before.apply st.balancer)
      (env.attempt done).pickMs ctx.peer.ip excluded).1 = none) :
    Follows env s ctx st.balancer left done excluded last ⟨[], .noPeer⟩
      ⟨last.getD badGateway,
        { st with balancer := (Balancer.pickInner env.hash
          ((env.attempt done).before.apply st.balancer) (env.attempt done).pickMs ctx.peer.ip
          excluded).2 }, []⟩ where
  bounded := Nat.zero_le left
  distinct := List.nodup_nil
  fresh := by simp [Course.attempts, Ending.attempt]
  addressed := by simp [Course.attempts, Ending.attempt]
  answers := by simp [Course.attempts, Ending.attempt]
  failures := by simp
  succeeds := by simp
  noPeer := by
    intro _
    simp only [List.length_nil, Nat.add_zero, List.map_nil, List.append_nil]
    exact hpick
  spent := by simp
  delivered := by simp
  fallback := fun _ => rfl
  events := rfl
  balancer := by
    show _ = moveBalancer env.hash _ (.own (.pick _ _ (excluded ++ [])))
    rw [List.append_nil]
    rfl

/-- The first attempt succeeds. -/
theorem Follows.of_answered {resp : Response} (hanswer : a.answer = some resp)
    (hpeer : a.answer = forwardToPeer (env.attempt done) s a.sent) (hok : a.failed = false)
    (hfresh : a.addr ∉ excluded) (haddr : b.peers[a.peer]?.map Peer.addr = some a.addr)
    (hresponse : Delivers s.cache resp r.response)
    (hevents : r.events.filter ProxyEvent.ofAttempt = a.events s.pickClient)
    (hbalancer : r.state.balancer = run (moveBalancer env.hash) b
      (a.moves (env.attempt done) ctx.peer.ip excluded)) :
    Follows env s ctx b (left + 1) done excluded last ⟨[], .answered a⟩ r where
  bounded := by simp [Course.attempts, Ending.attempt]
  distinct := List.nodup_singleton a.addr
  fresh := by simpa [Course.attempts, Ending.attempt] using hfresh
  addressed := by simpa [Course.attempts, Ending.attempt] using haddr
  answers := by
    intro k a' hk
    obtain ⟨rfl, rfl⟩ : k = 0 ∧ a' = a := by
      cases k with
      | zero => exact ⟨rfl, (Option.some.inj hk).symm⟩
      | succ k => simp [Course.attempts, Ending.attempt] at hk
    exact hpeer
  failures := by simp
  succeeds := by
    rintro a' heq
    obtain rfl := Ending.answered.inj heq
    exact hok
  noPeer := by simp
  spent := by simp
  delivered := by
    rintro a' heq
    obtain rfl := Ending.answered.inj heq
    exact ⟨resp, hanswer, hresponse⟩
  fallback := by simp [Ending.attempt]
  events := by simpa [Course.attempts, Ending.attempt] using hevents
  balancer := by
    rw [hbalancer]
    simp [Course.moves, Course.attempts, Ending.attempt, attemptMoves, Course.lastPick]

/-- A failed attempt before a course. -/
theorem Follows.cons (hfailed : a.failed = true)
    (hpeer : a.answer = forwardToPeer (env.attempt done) s a.sent)
    (hfresh : a.addr ∉ excluded) (haddr : b.peers[a.peer]?.map Peer.addr = some a.addr)
    (h : Follows env s ctx
      (run (moveBalancer env.hash) b (a.moves (env.attempt done) ctx.peer.ip excluded)) left
      (done + 1) (excluded ++ [a.addr]) (a.answer.or last) c r) :
    Follows env s ctx b (left + 1) done excluded last (c.cons a)
      { r with
        events := attemptEvents a.peer s.pickClient a.sent ++ failureEvents a.peer ++
          r.events } where
  bounded := by
    rw [Course.attempts_cons, List.length_cons]
    exact Nat.succ_le_succ h.bounded
  distinct := by
    rw [Course.attempts_cons, List.map_cons, List.nodup_cons]
    refine ⟨fun hmem => ?_, h.distinct⟩
    obtain ⟨a', ha', heq⟩ := List.mem_map.1 hmem
    exact h.fresh a' ha' (by simp [heq])
  fresh := by
    intro a' ha'
    rcases List.mem_cons.1 ha' with rfl | ha'
    · exact hfresh
    · exact fun hmem => h.fresh a' ha' (List.mem_append_left _ hmem)
  addressed := by
    intro a' ha'
    rcases List.mem_cons.1 ha' with rfl | ha'
    · exact haddr
    · exact (addr_run env.hash b _ a'.peer).symm.trans (h.addressed a' ha')
  answers := by
    intro k a' hk
    cases k with
    | zero =>
        obtain rfl := Option.some.inj hk
        exact hpeer
    | succ k =>
        rw [h.answers k a' hk, Nat.add_assoc, Nat.add_comm 1]
  failures := by
    intro a' ha'
    rcases List.mem_cons.1 ha' with rfl | ha'
    · exact hfailed
    · exact h.failures a' ha'
  succeeds := h.succeeds
  noPeer := by
    intro hend
    have hnone := h.noPeer hend
    simp only [Course.cons, List.length_cons, List.map_cons, attemptMoves, run_append]
    simp only [List.append_assoc, List.singleton_append, Nat.add_assoc, Nat.add_comm 1] at hnone
    exact hnone
  spent := fun hend => congrArg (· + 1) (h.spent hend)
  delivered := h.delivered
  fallback := by
    intro hend
    rw [Course.lastResponse_cons]
    exact h.fallback hend
  events := by
    rw [Course.attempts_cons, List.flatMap_cons, List.filter_append, filter_failedEvents hfailed,
      h.events]
  balancer := by
    rw [Course.moves_cons, run_append]
    exact h.balancer

end Courses

/-! ## The share in the in-flight counters -/

/-- The requests in flight at a position. -/
def inFlightAt (b : Balancer) (j : Nat) : UInt32 := (b.peers[j]?.map Peer.inFlight).getD 0

/-- What the moves of this request, among those of others, add to the counter at a position. -/
def ownShare (hash : IpAddr → UInt64) (j : Nat) : Balancer → List Move → UInt32
  | _, [] => 0
  | b, .others i :: ms => ownShare hash j (i.apply b) ms
  | b, .own e :: ms =>
      inFlightAt (b.step hash e) j - inFlightAt b j + ownShare hash j (b.step hash e) ms

/-- One request at the position `i` and none elsewhere. -/
def oneAt (i j : Nat) : UInt32 := if j = i then 1 else 0

theorem ownShare_append (hash : IpAddr → UInt64) (j : Nat) (b : Balancer) (ms ms' : List Move) :
    ownShare hash j b (ms ++ ms') =
      ownShare hash j b ms + ownShare hash j (run (moveBalancer hash) b ms) ms' := by
  induction ms generalizing b with
  | nil => exact (UInt32.zero_add _).symm
  | cons m ms ih =>
      cases m with
      | others i => exact ih (i.apply b)
      | own e =>
          simp only [List.cons_append, ownShare, ih, UInt32.add_assoc, run_cons]
          rfl

/-- What an event adds to the counter at a position that has a peer. -/
def eventShare (j : Nat) : PeerEvent → UInt32
  | .enter i => oneAt i j
  | .leave i => -oneAt i j
  | _ => 0

theorem inFlight_onPeer (e : PeerEvent) (j : Nat) (p : Peer) :
    (e.onPeer j p).inFlight = p.inFlight + eventShare j e := by
  cases e with
  | success i =>
      simp only [PeerEvent.onPeer, eventShare, UInt32.add_zero]
      split <;> rfl
  | failure i nowMs =>
      simp only [PeerEvent.onPeer, eventShare, UInt32.add_zero, Peer.recordFailure]
      split
      · split <;> rfl
      · rfl
  | enter i =>
      by_cases hi : i = j
      · simp [PeerEvent.onPeer, eventShare, oneAt, hi, Peer.enter]
      · simp [PeerEvent.onPeer, eventShare, oneAt, hi, Ne.symm hi]
  | leave i =>
      by_cases hi : i = j
      · simp [PeerEvent.onPeer, eventShare, oneAt, hi, Peer.leave, UInt32.sub_eq_add_neg]
      · simp [PeerEvent.onPeer, eventShare, oneAt, hi, Ne.symm hi]
  | pick nowMs clientIp exclude => exact (UInt32.add_zero _).symm

/-- A position without a peer counts nothing. -/
theorem inFlightAt_of_ge {b : Balancer} {j : Nat} (hj : b.peers.length ≤ j) :
    inFlightAt b j = 0 := by
  rw [inFlightAt, List.getElem?_eq_none hj]
  rfl

theorem length_step_peers (hash : IpAddr → UInt64) (b : Balancer) (e : PeerEvent) :
    (b.step hash e).peers.length = b.peers.length := by
  cases e with
  | success i => exact List.length_modify _ _ _
  | failure i nowMs => exact List.length_modify _ _ _
  | enter i => exact List.length_modify _ _ _
  | leave i => exact List.length_modify _ _ _
  | pick nowMs clientIp exclude =>
      exact congrArg List.length (Balancer.pickInner_peers hash b nowMs clientIp exclude)

theorem inFlightAt_step (hash : IpAddr → UInt64) (b : Balancer) {e : PeerEvent} {j : Nat}
    (hout : b.peers.length ≤ j → eventShare j e = 0) :
    inFlightAt (b.step hash e) j - inFlightAt b j = eventShare j e := by
  rcases Nat.lt_or_ge j b.peers.length with hj | hj
  · simp only [inFlightAt, Balancer.step_peers, List.getElem?_eq_getElem hj, Option.map_some,
      Option.getD_some, inFlight_onPeer]
    rw [UInt32.add_comm, UInt32.add_sub_cancel]
  · have hj' : (b.step hash e).peers.length ≤ j := (length_step_peers hash b e).le.trans hj
    rw [hout hj, inFlightAt_of_ge hj, inFlightAt_of_ge hj', UInt32.sub_self]

/-- No request is counted at a position without a peer. -/
theorem oneAt_of_ge {b : Balancer} {i j : Nat} {addr : String}
    (hi : b.peers[i]?.map Peer.addr = some addr) (hj : b.peers.length ≤ j) : oneAt i j = 0 := by
  rw [oneAt, if_neg]
  rintro rfl
  rw [List.getElem?_eq_none hj] at hi
  cases hi

theorem inFlightAt_enter (hash : IpAddr → UInt64) {b : Balancer} {i : Nat} {addr : String}
    (hi : b.peers[i]?.map Peer.addr = some addr) (j : Nat) :
    inFlightAt (b.step hash (.enter i)) j - inFlightAt b j = oneAt i j :=
  inFlightAt_step hash b fun hj => oneAt_of_ge hi hj

theorem inFlightAt_leave (hash : IpAddr → UInt64) {b : Balancer} {i : Nat} {addr : String}
    (hi : b.peers[i]?.map Peer.addr = some addr) (j : Nat) :
    inFlightAt (b.step hash (.leave i)) j - inFlightAt b j = -oneAt i j :=
  inFlightAt_step hash b fun hj => congrArg Neg.neg (oneAt_of_ge hi hj)

section Shares

variable (env : Env) (clientIp : IpAddr) {b : Balancer}

/-- During its exchange an attempt counts at its peer and nowhere else. -/
theorem ownShare_opening {a : Attempt} (done : Nat) (excluded : List String) (j : Nat)
    (ha : b.peers[a.peer]?.map Peer.addr = some a.addr) :
    ownShare env.hash j b (a.opening (env.attempt done) clientIp excluded) = oneAt a.peer j := by
  have hpick := addr_run env.hash b
    [.others (env.attempt done).before, .own (.pick (env.attempt done).pickMs clientIp excluded)]
    a.peer
  simp only [run_cons, run_nil, moveBalancer] at hpick
  simp only [Attempt.opening, ownShare]
  rw [inFlightAt_step env.hash _ fun _ => rfl, inFlightAt_enter env.hash (hpick.trans ha)]
  simp only [eventShare, UInt32.zero_add, UInt32.add_zero]

/-- The end of an attempt takes its count back. -/
theorem ownShare_closing {a : Attempt} (done j : Nat)
    (ha : b.peers[a.peer]?.map Peer.addr = some a.addr) :
    ownShare env.hash j b (a.closing (env.attempt done)) = -oneAt a.peer j := by
  have hrecord : eventShare j (a.record (env.attempt done).doneMs) = 0 := by
    rw [Attempt.record]
    split <;> rfl
  have hleft := addr_run env.hash b [.own (a.record (env.attempt done).doneMs)] a.peer
  simp only [run_cons, run_nil, moveBalancer] at hleft
  simp only [Attempt.closing, ownShare]
  rw [inFlightAt_step env.hash _ fun _ => hrecord, hrecord,
    inFlightAt_leave env.hash (hleft.trans ha), UInt32.zero_add, UInt32.add_zero]

/-- Between two attempts nothing is counted. -/
theorem ownShare_attemptMoves (as : List Attempt) (j : Nat) :
    ∀ (done : Nat) (excluded : List String) (b : Balancer),
      (∀ a ∈ as, b.peers[a.peer]?.map Peer.addr = some a.addr) →
        ownShare env.hash j b (attemptMoves env clientIp done excluded as) = 0 := by
  induction as with
  | nil => exact fun _ _ _ _ => rfl
  | cons a as ih =>
      intro done excluded b h
      have ha := h a List.mem_cons_self
      have hopen := addr_run env.hash b (a.opening (env.attempt done) clientIp excluded) a.peer
      have hrest : ∀ a' ∈ as, (run (moveBalancer env.hash) b
          (a.moves (env.attempt done) clientIp excluded)).peers[a'.peer]?.map Peer.addr =
            some a'.addr :=
        fun a' ha' => (addr_run env.hash b _ a'.peer).trans (h a' (List.mem_cons_of_mem a ha'))
      rw [attemptMoves, ownShare_append, ih _ _ _ hrest, Attempt.moves, ownShare_append,
        ownShare_opening env clientIp done excluded j ha,
        ownShare_closing env done j (hopen.trans ha)]
      rw [UInt32.add_zero, ← UInt32.sub_eq_add_neg, UInt32.sub_self]

end Shares

/-- The request holds its peer during an exchange, and no peer between the attempts and at the
end. -/
structure InFlightKept (env : Env) (clientIp : IpAddr) (b : Balancer) (c : Course) : Prop where
  raised : ∀ pre a post, c.attempts = pre ++ a :: post → ∀ j,
    ownShare env.hash j b
      (attemptMoves env clientIp 0 [] pre ++
        a.opening (env.attempt pre.length) clientIp (pre.map Attempt.addr)) = oneAt a.peer j
  givenBack : ∀ pre post, c.attempts = pre ++ post → ∀ j,
    ownShare env.hash j b (attemptMoves env clientIp 0 [] pre) = 0
  returned : ∀ j, ownShare env.hash j b (c.moves env clientIp 0 []) = 0

theorem Follows.inFlightKept {env : Env} {s : Settings} {ctx : RequestCtx} {b : Balancer}
    {left : Nat} {last : Option Response} {c : Course} {r : ProxyResult}
    (h : Follows env s ctx b left 0 [] last c r) : InFlightKept env ctx.peer.ip b c where
  raised := by
    intro pre a post heq j
    have hpre : ∀ a' ∈ pre, b.peers[a'.peer]?.map Peer.addr = some a'.addr :=
      fun a' ha' => h.addressed a' (heq ▸ List.mem_append_left _ ha')
    have ha := h.addressed a (heq ▸ List.mem_append_right _ List.mem_cons_self)
    have hnow := (addr_run env.hash b (attemptMoves env ctx.peer.ip 0 [] pre) a.peer).trans ha
    rw [ownShare_append, ownShare_attemptMoves env ctx.peer.ip pre j 0 [] b hpre,
      ownShare_opening env ctx.peer.ip _ _ j hnow, UInt32.zero_add]
  givenBack := by
    intro pre post heq j
    exact ownShare_attemptMoves env ctx.peer.ip pre j 0 [] b fun a' ha' =>
      h.addressed a' (heq ▸ List.mem_append_left _ ha')
  returned := by
    intro j
    rw [Course.moves, ownShare_append,
      ownShare_attemptMoves env ctx.peer.ip _ j 0 [] b h.addressed, UInt32.zero_add]
    rw [Course.lastPick]
    split
    -- A pick that finds no peer enters none.
    · simp only [ownShare]
      rw [inFlightAt_step env.hash _ fun _ => rfl, UInt32.add_zero]
      rfl
    · rfl

end Elrond.Proxy
