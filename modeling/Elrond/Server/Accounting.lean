import Elrond.Server.BrokenBodies

/-!
# Accounting of requests and handshakes

The counters of `metrics.rs` for requests, status classes and TLS handshakes, and the places where
they are raised: the return paths of `handle`, the end of `handle_stream` (`http3.rs`), and the two
accept loops. What is due is counted beside them: a request and a class for every response that goes
out, a success or a failure for every handshake.

The counters show what is due after every step of a run exactly if every step is accountable
(`accounting_iff`): a body that is too large for HTTP/3, a response that breaks off there, a QUIC
handshake that fails and a status outside the five classes are not.
-/

set_option autoImplicit false

namespace Elrond.Server

open Elrond.Lib Elrond.Http Elrond.Request Elrond.Config Elrond.Upstream Elrond.Proxy Elrond.Limit
  Elrond.App

/-! ## Counters -/

/-- The counters of requests and handshakes. -/
inductive Counter where
  | requests
  | responses1xx
  | responses2xx
  | responses3xx
  | responses4xx
  | responses5xx
  | tlsHandshakes
  | tlsHandshakeFailures
deriving DecidableEq, Repr

/-- `record_request`: the counters it raises. -/
def recordRequest (status : Nat) : List Counter :=
  [.requests,
    match status / 100 with
    | 1 => .responses1xx
    | 2 => .responses2xx
    | 3 => .responses3xx
    | 4 => .responses4xx
    | _ => .responses5xx]

/-- The counter of the class of a status, if there is one. -/
def classCounter (status : Nat) : Option Counter :=
  match status / 100 with
  | 1 => some .responses1xx
  | 2 => some .responses2xx
  | 3 => some .responses3xx
  | 4 => some .responses4xx
  | 5 => some .responses5xx
  | _ => none

/-- What is due for a request, by the status of the response that goes out. -/
def dueForRequest : Option Nat → List Counter
  | none => []
  | some status => .requests :: (classCounter status).toList

/-- What is due for a handshake. -/
def dueForHandshake (ok : Bool) : List Counter :=
  if ok then [.tlsHandshakes] else [.tlsHandshakeFailures]

/-- The status belongs to one of the five classes. -/
def Classed (status : Nat) : Prop := 100 ≤ status ∧ status < 600

/-- `record_request` raises what is due exactly for a status of the five classes. -/
theorem recordRequest_perm_iff (status : Nat) :
    (recordRequest status).Perm (dueForRequest (some status)) ↔ Classed status := by
  rw [recordRequest, dueForRequest, List.perm_cons, classCounter, Classed]
  have hdiv : 100 ≤ status ∧ status < 600 ↔ 1 ≤ status / 100 ∧ status / 100 ≤ 5 := by omega
  rw [hdiv]
  generalize status / 100 = hundreds
  rcases hundreds with _ | _ | _ | _ | _ | _ | n
  · simp
  · simp
  · simp
  · simp
  · simp
  · simp
  · simp

/-! ## HTTP/1 and HTTP/2 -/

/-- What `handle` records on the way out that its verdict takes. -/
def recordedFor (verdict : Verdict) (response : Response) : List Counter :=
  match verdict with
  | .tooLarge _ => recordRequest 413
  | .denied ⟨.access, _⟩ => recordRequest 403
  | .denied ⟨_, denied⟩ => recordRequest denied.status
  | .unrouted => recordRequest response.status
  | .served _ _ _ => recordRequest response.status

/-- The status that a verdict comes to. -/
def Verdict.status : Verdict → Nat
  | .tooLarge response => response.status
  | .unrouted => 404
  | .denied denial => denial.response.status
  | .served _ _ response => response.status

/-- The finish of `handle` keeps the status. -/
theorem status_finishHandle (reply : (q : Effect) → q.Answer) (crates : Crates)
    (state : ServerState) (ctx : RequestCtx) (reqHeaders : HeaderMap) (verdict : Verdict) :
    ((finishHandle crates state ctx reqHeaders verdict).value reply).status = verdict.status := by
  cases verdict with
  | tooLarge response => rfl
  | unrouted => rfl
  | denied denial => rfl
  | served loc call response =>
      exact status_sent reply crates state loc call ctx reqHeaders response

section

variable {Time Num : Type} [LinearOrder Time] [Add Num] [Sub Num] [Mul Num] [Min Num] [LE Num]
  [DecidableLE Num] [One Num] [NatCast Num] (secs : Time → Time → Num)

/-- What a request or a stream comes to: the status of the response that goes out, the counters
raised, and the limiters afterwards. -/
structure Handled (Time Num : Type) where
  sent : Option Nat
  recorded : List Counter
  limiters : Limiters Time Num

/-- `handle`, with what it records. -/
def handleCounted (env : Surroundings Time Num) (w : Limiters Time Num) (crates : Crates)
    (state : ServerState) (request : Request) (peer : SocketAddr) : Handled Time Num :=
  let judged := (handleVerdict crates state request peer).run (answer secs env) w
  let finished := (finishHandle crates state
    (requestContext state peer request.method request.uri request.headers) request.headers
    judged.1).run (answer secs env) judged.2
  ⟨some finished.1.status, recordedFor judged.1 finished.1, finished.2⟩

/-- The status sent and the limiters are those of `handle`. -/
theorem handleCounted_eq (env : Surroundings Time Num) (w : Limiters Time Num) (crates : Crates)
    (state : ServerState) (request : Request) (peer : SocketAddr) :
    let r := (handle crates state request peer).run (answer secs env) w
    (handleCounted secs env w crates state request peer).sent = some r.1.status ∧
      (handleCounted secs env w crates state request peer).limiters = r.2 := by
  simp only [handle, Asks.run_bind]
  exact ⟨rfl, rfl⟩

/-- The verdict on a request, as the gates and the action answer. -/
def verdictOn (env : Surroundings Time Num) (w : Limiters Time Num) (crates : Crates)
    (state : ServerState) (request : Request) (peer : SocketAddr) : Verdict :=
  if exceedsBodySize state request.headers then
    .tooLarge (text 413 ("413 Request Entity Too Large (limit " ++
      toString state.clientMaxBodySize ++ " bytes)\n"))
  else
    (routedOutcome secs env w crates state
      (requestContext state peer request.method request.uri request.headers) peer request).1

theorem run_handleVerdict_fst (env : Surroundings Time Num) (w : Limiters Time Num)
    (crates : Crates) (state : ServerState) (request : Request) (peer : SocketAddr) :
    ((handleVerdict crates state request peer).run (answer secs env) w).1 =
      verdictOn secs env w crates state request peer := by
  rw [verdictOn]
  cases hlength : exceedsBodySize state request.headers with
  | true =>
      rw [handleVerdict, if_pos hlength]
      rfl
  | false => rw [run_handleVerdict secs env w crates state request peer hlength]; rfl

/-- The gate of `allow` and `deny` answers `403`. -/
theorem status_of_access {env : Surroundings Time Num} {w : Limiters Time Num} {crates : Crates}
    {loc : LocationRt} {ctx : RequestCtx} {peer : SocketAddr} {headers : HeaderMap}
    {denied : Response}
    (h : firstDenial secs env w crates loc ctx peer headers = some ⟨.access, denied⟩) :
    denied.status = 403 := by
  obtain ⟨g, -, hg⟩ := List.exists_of_findSome?_eq_some h
  obtain ⟨response, hreply, heq⟩ := Option.map_eq_some_iff.1 hg
  obtain ⟨rfl, rfl⟩ := Denial.mk.inj heq
  simp only [gateReply] at hreply
  split at hreply
  · rw [← Option.some.inj hreply]
    rfl
  · cases hreply

/-- On every way out `handle` records the status that it sends, once. -/
theorem recordedFor_eq {env : Surroundings Time Num} {w : Limiters Time Num} {crates : Crates}
    {state : ServerState} {request : Request} {peer : SocketAddr} {response : Response}
    (h : response.status = (verdictOn secs env w crates state request peer).status) :
    recordedFor (verdictOn secs env w crates state request peer) response =
      recordRequest response.status := by
  rw [h]
  rw [verdictOn] at h ⊢
  split
  · rfl
  · rename_i hlength
    rw [if_neg hlength] at h
    rw [routedOutcome] at h ⊢
    cases hroute : route state request.uri.path with
    | none =>
        rw [hroute] at h
        rw [recordedFor, h]
    | some loc =>
        rw [hroute] at h
        simp only [locationVerdict] at h ⊢
        cases hdenied : firstDenial secs env w crates loc
            (requestContext state peer request.method request.uri request.headers) peer
            request.headers with
        | none =>
            rw [hdenied] at h
            rw [recordedFor, h]
        | some d =>
            obtain ⟨gate, denied⟩ := d
            cases gate with
            | access => rw [recordedFor, Verdict.status, status_of_access secs hdenied]
            | limitReq => rfl
            | limitConn => rfl
            | authRequest => rfl
            | authBasic => rfl

/-- `handle` records what is due exactly if the verdict comes to a status of the five classes. -/
theorem handleCounted_perm_iff (env : Surroundings Time Num) (w : Limiters Time Num)
    (crates : Crates) (state : ServerState) (request : Request) (peer : SocketAddr) :
    let h := handleCounted secs env w crates state request peer
    h.recorded.Perm (dueForRequest h.sent) ↔
      Classed (verdictOn secs env w crates state request peer).status := by
  have hverdict := run_handleVerdict_fst secs env w crates state request peer
  have hrun := run_of_no_limit secs
    ((finishHandle_only crates state
      (requestContext state peer request.method request.uri request.headers) request.headers
      (verdictOn secs env w crates state request peer)).mono
      (R := fun q => q.isLimit = false) (by rintro q rfl; rfl))
  intro h
  have hstatus := status_finishHandle env.reply crates state
    (requestContext state peer request.method request.uri request.headers) request.headers
    (verdictOn secs env w crates state request peer)
  simp only [h, handleCounted, hverdict, hrun, recordedFor_eq secs hstatus]
  rw [← hstatus]
  exact recordRequest_perm_iff _

/-! ## HTTP/3 -/

/-- `ABSOLUTE_BODY_CAP`. -/
def absoluteBodyCap : Nat := 32 * 1024 * 1024

/-- How much of a body `handle_stream` reads. -/
def bodyLimit (state : ServerState) : Nat :=
  if state.clientMaxBodySize = 0 then absoluteBodyCap else state.clientMaxBodySize

/-- What comes of reading a body. -/
inductive BodyRead where
  | whole (bytes : Bytes)
  | tooLarge
  | failed
deriving DecidableEq, Repr

/-- The loop of `handle_stream` over the chunks of a body, after which the stream ends or fails. -/
def readBody (limit : Nat) (ends : Bool) : (buf : Bytes) → (chunks : List Bytes) → BodyRead
  | buf, [] => if ends then .whole buf else .failed
  | buf, chunk :: rest =>
      if buf.length + chunk.length > limit then .tooLarge
      else readBody limit ends (buf ++ chunk) rest

/-- A request on an HTTP/3 stream: its head, the chunks of its body and whether it ends, and which
of the operations on the way back succeed. -/
structure H3Stream where
  method : Method
  uri : Uri
  headers : HeaderMap
  chunks : List Bytes
  ends : Bool
  sendsHead : Bool
  sendsData : Bool
  finishes : Bool

/-- The request of a stream once its body is read. -/
def H3Stream.request (stream : H3Stream) (body : Bytes) : Request :=
  ⟨stream.method, stream.uri, .http3, stream.headers, full body⟩

/-- `handle_stream`, with what it records. -/
def handleStream (env : Surroundings Time Num) (w : Limiters Time Num) (crates : Crates)
    (state : ServerState) (stream : H3Stream) (peer : SocketAddr) : Handled Time Num :=
  match readBody (bodyLimit state) stream.ends [] stream.chunks with
  | .failed => ⟨none, [], w⟩
  -- `send_simple`: the response goes out, and nothing is recorded
  | .tooLarge => ⟨if stream.sendsHead then some 413 else none, [], w⟩
  | .whole body =>
      let r := (dispatch crates state stream.method stream.uri stream.headers body peer).run
        (answer secs env) w
      if !stream.sendsHead then ⟨none, [], r.2⟩
      -- an error after the head ends the stream before the request is recorded
      else if !stream.sendsData || !stream.finishes then ⟨some r.1.status, [], r.2⟩
      else ⟨some r.1.status, recordRequest r.1.status, r.2⟩

/-- The verdict of `dispatch` on a request. -/
def verdictOnStream (env : Surroundings Time Num) (w : Limiters Time Num) (crates : Crates)
    (state : ServerState) (request : Request) (peer : SocketAddr) : Verdict :=
  (routedOutcome secs env w crates state
    (requestContext state peer request.method request.uri request.headers) peer
    (rebuilt request)).1

/-- `dispatch` comes to the status of its verdict. -/
theorem status_dispatch (env : Surroundings Time Num) (w : Limiters Time Num) (crates : Crates)
    (state : ServerState) (request : Request) (peer : SocketAddr) :
    ((dispatch crates state request.method request.uri request.headers request.body.data peer).run
        (answer secs env) w).1.status =
      (verdictOnStream secs env w crates state request peer).status := by
  rw [dispatch, run_finish secs env w (finishDispatch_only _),
    run_dispatchVerdict secs env w crates state request peer, verdictOnStream]
  generalize (routedOutcome secs env w crates state
    (requestContext state peer request.method request.uri request.headers) peer
    (rebuilt request)).1 = verdict
  cases verdict with
  | tooLarge response => rfl
  | unrouted => rfl
  | denied denial => rfl
  | served loc call response =>
      simp only [finishDispatch, Asks.value_bind]
      rfl

/-- Either no response goes out on the stream, or one to a whole body goes out to its end, with a
status of the five classes. -/
def StreamAccountable (env : Surroundings Time Num) (w : Limiters Time Num) (crates : Crates)
    (state : ServerState) (stream : H3Stream) (peer : SocketAddr) : Prop :=
  match readBody (bodyLimit state) stream.ends [] stream.chunks with
  | .failed => True
  | .tooLarge => stream.sendsHead = false
  | .whole body =>
      stream.sendsHead = true → stream.sendsData = true ∧ stream.finishes = true ∧
        Classed (verdictOnStream secs env w crates state (stream.request body) peer).status

/-- A response that goes out without a record is not what is due. -/
theorem not_nil_perm_due (status : Nat) :
    ¬ ([] : List Counter).Perm (dueForRequest (some status)) := by
  rw [List.nil_perm]
  exact List.cons_ne_nil _ _

theorem handleStream_perm_iff (env : Surroundings Time Num) (w : Limiters Time Num)
    (crates : Crates) (state : ServerState) (stream : H3Stream) (peer : SocketAddr) :
    let h := handleStream secs env w crates state stream peer
    h.recorded.Perm (dueForRequest h.sent) ↔
      StreamAccountable secs env w crates state stream peer := by
  simp only [handleStream, StreamAccountable]
  cases readBody (bodyLimit state) stream.ends [] stream.chunks with
  | failed => simp [dueForRequest]
  | tooLarge =>
      cases stream.sendsHead with
      | true => simp [dueForRequest]
      | false => simp [dueForRequest]
  | whole body =>
      have hstatus := status_dispatch secs env w crates state (stream.request body) peer
      cases stream.sendsHead with
      | false => simp [dueForRequest]
      | true =>
          cases hdone : stream.sendsData && stream.finishes with
          | true =>
              obtain ⟨hdata, hfinish⟩ := Bool.and_eq_true_iff.1 hdone
              simp only [hdata, hfinish, Bool.not_true, Bool.false_eq_true, if_false, Bool.or_self,
                true_and, forall_const]
              rw [← hstatus]
              exact recordRequest_perm_iff _
          | false =>
              have hbroken : (!stream.sendsData || !stream.finishes) = true := by
                rw [← Bool.not_and, hdone]
                rfl
              simp only [Bool.not_true, Bool.false_eq_true, if_false, hbroken, if_true,
                not_nil_perm_due, forall_const, false_iff]
              rintro ⟨hdata, hfinish, -⟩
              rw [hdata, hfinish] at hdone
              cases hdone

/-! ## Runs -/

/-- What happens on a process that is accounted for. -/
inductive Happening (Time Num : Type) where
  | request (env : Surroundings Time Num) (crates : Crates) (state : ServerState)
      (request : Request) (peer : SocketAddr)
  | stream (env : Surroundings Time Num) (crates : Crates) (state : ServerState)
      (stream : H3Stream) (peer : SocketAddr)
  | tlsHandshake (ok : Bool)
  | quicHandshake (ok : Bool)

/-- What `server::run` records for a TLS handshake. -/
def tlsRecorded (ok : Bool) : List Counter :=
  if ok then [.tlsHandshakes] else [.tlsHandshakeFailures]

/-- What `http3::run` records for a QUIC handshake: a success before the handshake is awaited, and
then a failure if it fails. -/
def quicRecorded (ok : Bool) : List Counter :=
  .tlsHandshakes :: if ok then [] else [.tlsHandshakeFailures]

/-- The counters raised, those that are due, and the limiters afterwards. -/
def Happening.books (w : Limiters Time Num) :
    Happening Time Num → List Counter × List Counter × Limiters Time Num
  | .request env crates state req peer =>
      let h := handleCounted secs env w crates state req peer
      (h.recorded, dueForRequest h.sent, h.limiters)
  | .stream env crates state h3 peer =>
      let h := handleStream secs env w crates state h3 peer
      (h.recorded, dueForRequest h.sent, h.limiters)
  | .tlsHandshake ok => (tlsRecorded ok, dueForHandshake ok, w)
  | .quicHandshake ok => (quicRecorded ok, dueForHandshake ok, w)

/-- The limiters of a process, its counters, and what they should show. -/
structure Ledger (Time Num : Type) where
  limiters : Limiters Time Num
  counters : Counter → Nat
  due : Counter → Nat

/-- Raise counters. -/
def raise (values : Counter → Nat) (raised : List Counter) : Counter → Nat :=
  fun c => values c + raised.count c

/-- One step of a run. -/
def Ledger.step (s : Ledger Time Num) (x : Happening Time Num) : Ledger Time Num :=
  let books := x.books secs s.limiters
  ⟨books.2.2, raise s.counters books.1, raise s.due books.2.1⟩

/-- A process in which nothing has been counted yet. -/
def Ledger.start (w : Limiters Time Num) : Ledger Time Num := ⟨w, fun _ => 0, fun _ => 0⟩

/-- The counters show what is due. -/
def Ledger.Balanced (s : Ledger Time Num) : Prop := s.counters = s.due

/-- What happens is accounted for as it is due. -/
def Accountable (s : Ledger Time Num) : Happening Time Num → Prop
  | .request env crates state request peer =>
      Classed (verdictOn secs env s.limiters crates state request peer).status
  | .stream env crates state stream peer =>
      StreamAccountable secs env s.limiters crates state stream peer
  | .tlsHandshake _ => True
  | .quicHandshake ok => ok = true

/-- Counters raised from the same values are the same exactly if the same was raised. -/
theorem raise_eq_iff (values : Counter → Nat) (raised due : List Counter) :
    raise values raised = raise values due ↔ raised.Perm due := by
  rw [List.perm_iff_count, funext_iff]
  constructor
  · intro h c
    exact Nat.add_left_cancel (h c)
  · intro h c
    exact congrArg (values c + ·) (h c)

theorem books_perm_iff (s : Ledger Time Num) (x : Happening Time Num) :
    (x.books secs s.limiters).1.Perm (x.books secs s.limiters).2.1 ↔ Accountable secs s x := by
  cases x with
  | request env crates state request peer =>
      exact handleCounted_perm_iff secs env s.limiters crates state request peer
  | stream env crates state stream peer =>
      exact handleStream_perm_iff secs env s.limiters crates state stream peer
  | tlsHandshake ok => exact iff_of_true (List.Perm.refl _) trivial
  | quicHandshake ok =>
      cases ok with
      | true => exact iff_of_true (List.Perm.refl _) rfl
      | false =>
          -- one counter too many
          exact iff_of_false (fun h => absurd h.length_eq (by show 2 ≠ 1; omega)) Bool.false_ne_true

/-- A step keeps the books balanced exactly if what happens is accounted for. -/
theorem balanced_step_iff {s : Ledger Time Num} (hs : s.Balanced) (x : Happening Time Num) :
    (s.step secs x).Balanced ↔ Accountable secs s x := by
  rw [Ledger.Balanced, Ledger.step, ← books_perm_iff secs s x, ← raise_eq_iff s.counters]
  dsimp only
  rw [← hs]

/-- **Accounting.** In every run over all protocols, from the start of a process, the counters show
after every step what is due for the responses sent and the handshakes made, exactly if every step
is accountable: a request comes to a status of the five classes; a response on an HTTP/3 stream goes
out to its end, and not because the body is too large; no QUIC handshake fails. -/
theorem accounting_iff (w : Limiters Time Num) (xs : List (Happening Time Num)) :
    Always (Ledger.step secs) Ledger.Balanced (Ledger.start w) xs ↔
      AllSteps (Ledger.step secs) (Accountable secs) (Ledger.start w) xs := by
  apply always_iff_allSteps (I := fun _ => True)
  · exact fun _ _ _ => trivial
  · exact fun s x _ hs => balanced_step_iff secs hs x
  · trivial
  · rfl

end

/-! ## Runs out of balance -/

/-- An upload over HTTP/3 of one byte more than the limit of the server. -/
def largeUpload : H3Stream where
  method := .post
  uri := rootUri
  headers := ∅
  chunks := [List.replicate 1024 0, [0]]
  ends := true
  sendsHead := true
  sendsData := true
  finishes := true

theorem not_always_singleton {x : Happening Nat Nat} (w : Limiters Nat Nat)
    (h : ¬ (Ledger.step wholeSecs (Ledger.start w) x).Balanced) :
    ¬ Always (Ledger.step wholeSecs) Ledger.Balanced (Ledger.start w) [x] := by
  intro halways
  rw [always_cons, always_nil] at halways
  exact h halways.2

/-- An upload over HTTP/3 that is too large is answered and not counted, and a QUIC handshake that
fails is counted as a success too. -/
theorem accounting_out_of_balance :
    (¬ Always (Ledger.step wholeSecs) Ledger.Balanced (Ledger.start freshLimiters)
      [.stream quietSurroundings fixedCrates guardedState largeUpload clientPeer]) ∧
    ¬ Always (Ledger.step wholeSecs) Ledger.Balanced (Ledger.start freshLimiters)
      [.quicHandshake false] := by
  constructor
  · apply not_always_singleton
    intro h
    exact absurd (congrFun h .requests) (by decide +kernel)
  · apply not_always_singleton
    intro h
    exact absurd (congrFun h .tlsHandshakes) (by decide +kernel)

end Elrond.Server
