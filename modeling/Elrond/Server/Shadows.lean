import Elrond.Server.Agreement
import Elrond.Server.Gzip

/-!
# Shadow requests and codings on both protocols

`handle` fires the shadow requests of a location before the authorization and compresses responses;
`dispatch` fires them after the authorization and compresses nothing. So the two protocols differ
exactly where an authorization gate denies a request with mirrors, and where a response is
compressed (`shadows_and_coding_iff`).
-/

set_option autoImplicit false

namespace Elrond.Server

open Elrond.Lib Elrond.Http Elrond.Request Elrond.Config Elrond.Upstream Elrond.Proxy Elrond.Limit
  Elrond.App

/-! ## Shadow requests -/

/-- The shadow request that an effect fires. -/
def Effect.shadow : Effect → Option Request
  | .mirror r => some r
  | _ => none

/-- The shadow requests among the effects asked for. -/
def shadowsOf (asked : List Effect) : List Request := asked.filterMap Effect.shadow

theorem shadowsOf_append (a b : List Effect) : shadowsOf (a ++ b) = shadowsOf a ++ shadowsOf b :=
  List.filterMap_append

section

variable {Time Num : Type} [LinearOrder Time] [Add Num] [Sub Num] [Mul Num] [Min Num] [LE Num]
  [DecidableLE Num] [One Num] [NatCast Num] (secs : Time → Time → Num)

/-- What fires no shadow request leaves no trace among them. -/
theorem shadowsOf_eq_nil {α : Type} {m : Pipeline α} (h : m.Only fun q => q.shadow = none)
    (env : Surroundings Time Num) (w : Limiters Time Num) :
    shadowsOf (m.asked (answer secs env) w) = [] :=
  List.filterMap_eq_nil_iff.2 (h.asked (answer secs env) w)

theorem shadowsOf_fireAll (env : Surroundings Time Num) (w : Limiters Time Num)
    (requests : List Request) :
    shadowsOf ((fireAll requests).asked (answer secs env) w) = requests := by
  induction requests with
  | nil => rfl
  | cons r rest ih =>
      show r :: shadowsOf ((fireAll rest).asked (answer secs env) w) = r :: rest
      rw [ih]

theorem shadow_of_isAction {q : Effect} (h : q.isAction = true) : q.shadow = none := by
  cases q <;> first | rfl | cases h

theorem shadowsOf_authorized (env : Surroundings Time Num) (w : Limiters Time Num)
    (crates : Crates) (loc : LocationRt) (ctx : RequestCtx) (headers : HeaderMap)
    (inside : Pipeline Verdict) :
    shadowsOf ((authorized crates loc ctx headers inside).asked (answer secs env) w) =
      match authDenial env.reply crates loc ctx headers with
      | some _ => []
      | none => shadowsOf (inside.asked (answer secs env) w) := by
  have hstep := shadowsOf_eq_nil secs
    (authRequestStep_only (P := fun q => q.shadow = none) (fun _ => rfl) crates loc ctx headers)
    env w
  have hrun := run_of_no_limit secs
    (authRequestStep_only (P := fun q => q.isLimit = false) (fun _ => rfl) crates loc ctx headers)
    env w
  rw [authorized, Asks.asked_bind, shadowsOf_append, hstep, List.nil_append, hrun, authDenial]
  cases (authRequestStep crates loc ctx headers).value env.reply with
  | error denied => rfl
  | ok _ =>
      cases authBasicStep crates loc headers with
      | error challenge => rfl
      | ok _ => rfl

/-- `handle` fires the shadow requests of the location whatever the authorization says. -/
theorem shadowsOf_handleHeld (env : Surroundings Time Num) (w : Limiters Time Num)
    (crates : Crates) (loc : LocationRt) (ctx : RequestCtx) (peer : SocketAddr)
    (request : Request) :
    shadowsOf ((handleHeld crates loc ctx peer request).asked (answer secs env) w) =
      shadowRequests crates loc ctx request.headers request.method := by
  have hserve : ∀ w', shadowsOf ((serveLocation loc ctx peer request).asked (answer secs env) w') =
      [] := shadowsOf_eq_nil secs
    (serveLocation_only (fun _ => shadow_of_isAction) loc ctx peer request) env
  rw [handleHeld_eq, Asks.asked_bind, shadowsOf_append, shadowsOf_authorized, hserve,
    mirrorDispatch, shadowsOf_fireAll]
  cases authDenial env.reply crates loc ctx request.headers <;> exact List.append_nil _

/-- `dispatch` fires them only if the authorization lets the request pass. -/
theorem shadowsOf_dispatchHeld (env : Surroundings Time Num) (w : Limiters Time Num)
    (crates : Crates) (loc : LocationRt) (ctx : RequestCtx) (peer : SocketAddr)
    (request : Request) :
    shadowsOf ((dispatchHeld crates loc ctx peer request).asked (answer secs env) w) =
      match authDenial env.reply crates loc ctx request.headers with
      | some _ => []
      | none => shadowRequests crates loc ctx request.headers request.method := by
  have hserve : ∀ w', shadowsOf ((serveLocation loc ctx peer request).asked (answer secs env) w') =
      [] := shadowsOf_eq_nil secs
    (serveLocation_only (fun _ => shadow_of_isAction) loc ctx peer request) env
  rw [dispatchHeld_eq, shadowsOf_authorized, Asks.asked_bind, shadowsOf_append, hserve,
    List.append_nil, mirrorDispatch, shadowsOf_fireAll]

theorem shadowsOf_underSlot (env : Surroundings Time Num) (w : Limiters Time Num)
    (loc : LocationRt) (ctx : RequestCtx) {inside : Pipeline Verdict} {shadows : List Request}
    (hinside : ∀ w', shadowsOf (inside.asked (answer secs env) w') = shadows) :
    shadowsOf ((underSlot loc ctx inside).asked (answer secs env) w) =
      match limitConnReply env w loc ctx with
      | some _ => []
      | none => shadows := by
  have hstep := shadowsOf_eq_nil secs
    (limitConnStep_only (P := fun q => q.shadow = none) (fun _ _ _ => rfl) loc ctx) env w
  have hheld : ∀ slot w', shadowsOf ((holding slot inside).asked (answer secs env) w') =
      shadows := by
    intro slot w'
    have hrelease : ∀ w'', shadowsOf ((release slot).asked (answer secs env) w'') = [] :=
      shadowsOf_eq_nil secs (release_only (fun _ _ => rfl) slot) env
    rw [holding, Asks.asked_bind, Asks.asked_bind, shadowsOf_append, shadowsOf_append, hinside,
      hrelease]
    exact List.append_nil _
  rw [underSlot, Asks.asked_bind, shadowsOf_append, hstep, List.nil_append, run_limitConnStep,
    limitConnReply]
  cases loc.limitConn with
  | none => exact hheld none w
  | some l =>
      obtain ⟨zone, maxConn⟩ := l
      simp only [Option.bind_some]
      rcases enforceConnIn env w zone maxConn ctx with ⟨_ | guard, z⟩
      · rfl
      · exact hheld _ _

/-- The limits fire nothing: a denial there fires no shadow request, and otherwise those fired under
the slot are all. -/
theorem shadowsOf_gated (env : Surroundings Time Num) (w : Limiters Time Num) (loc : LocationRt)
    (ctx : RequestCtx) (peer : SocketAddr) {inside : Pipeline Verdict} {shadows : List Request}
    (hinside : ∀ w', shadowsOf (inside.asked (answer secs env) w') = shadows) :
    shadowsOf ((gated loc ctx peer inside).asked (answer secs env) w) =
      match limitDenial secs env w loc ctx peer with
      | some _ => []
      | none => shadows := by
  have hstep := shadowsOf_eq_nil secs
    (limitReqStep_only (P := fun q => q.shadow = none) (fun _ _ _ => rfl) loc ctx) env w
  rw [gated, limitDenial]
  split
  · rfl
  · rw [Asks.asked_bind, shadowsOf_append, hstep, List.nil_append, run_limitReqStep]
    cases limitReqReply secs env w loc ctx with
    | some denied => rfl
    | none =>
        show shadowsOf ((underSlot loc ctx inside).asked (answer secs env)
          (afterLimitReq secs env w loc ctx)) = _
        rw [shadowsOf_underSlot secs env _ loc ctx hinside, limitConnReply_afterLimitReq]
        cases limitConnReply env w loc ctx with
        | some denied => rfl
        | none => rfl

/-! ## Codings -/

/-- The coding of a response: its `Content-Encoding` and `Vary` lines. -/
def codingOf (response : Response) : List HeaderValue × List HeaderValue :=
  (response.headers.getAll "content-encoding", response.headers.getAll "vary")

end

/-- The coding changes exactly if the response is compressed. -/
theorem codingOf_maybeCompress (crates : Crates) (response : Response) (reqHeaders : HeaderMap)
    (gzipEnabled : Bool) (gzipTypes : List String) (maxCollect : Option Nat) (minLength : Nat) :
    codingOf (maybeCompress crates response reqHeaders gzipEnabled gzipTypes maxCollect minLength) =
        codingOf response ↔
      compresses crates response reqHeaders gzipEnabled gzipTypes maxCollect minLength = false := by
  rcases maybeCompress_cases crates minLength response reqHeaders gzipEnabled gzipTypes
    maxCollect with ⟨hno, hout⟩ | ⟨hno, -, hout⟩ | ⟨hyes, -⟩
  · rw [hno, hout]
    exact iff_of_true rfl rfl
  · rw [hno, hout]
    exact iff_of_true rfl rfl
  · have hcoded := (coded_iff crates response reqHeaders gzipEnabled gzipTypes maxCollect
      minLength).2 hyes
    rw [hyes]
    exact iff_of_false (fun hsame => hcoded (congrArg Prod.fst hsame))
      fun h => Bool.noConfusion h

/-! ## The advertisement of HTTP/3 -/

/-- The two maps have the same lines of every name but one. -/
def SameExcept (name : String) (h h' : HeaderMap) : Prop :=
  ∀ b, Text.toAsciiLowercase b ≠ name → h.getAll b = h'.getAll b

theorem SameExcept.insertText {name : String} {h h' : HeaderMap} (hsame : SameExcept name h h')
    (m : HeaderName) (value : String) :
    SameExcept name (insertText h m value) (insertText h' m value) := by
  intro b hb
  simp only [Server.insertText]
  cases HeaderValue.fromStr value with
  | none => exact hsame b hb
  | some v =>
      rw [HeaderMap.getAll_insert, HeaderMap.getAll_insert]
      split
      · rfl
      · exact hsame b hb

theorem SameExcept.applyAddHeaders {name : String} (rules : List (HeaderName × Template))
    (ctx : RequestCtx) {h h' : HeaderMap} (hsame : SameExcept name h h') :
    SameExcept name (applyAddHeaders h rules ctx) (applyAddHeaders h' rules ctx) := by
  induction rules generalizing h h' with
  | nil => exact hsame
  | cons rule rest ih => exact ih (hsame.insertText rule.1 (rule.2.render ctx))

/-- The headers of the location, in a world with fixed answers. -/
def decoratedHeaders (reply : (q : Effect) → q.Answer) (loc : LocationRt) (ctx : RequestCtx)
    (headers : HeaderMap) : HeaderMap :=
  (decorate loc ctx headers).value reply

theorem SameExcept.decoratedHeaders {name : String} (reply : (q : Effect) → q.Answer)
    (loc : LocationRt) (ctx : RequestCtx) {h h' : HeaderMap} (hsame : SameExcept name h h') :
    SameExcept name (decoratedHeaders reply loc ctx h) (decoratedHeaders reply loc ctx h') := by
  have hadded := hsame.applyAddHeaders loc.addHeaders ctx
  simp only [Server.decoratedHeaders, decorate]
  cases loc.expires with
  | none => exact hadded
  | some dur =>
      show SameExcept name (applyExpires _ dur (reply .now)) (applyExpires _ dur (reply .now))
      simp only [applyExpires]
      -- both lines are inserted after the advertisement, on either side alike
      have hcontrol := hadded.insertText cacheControl ("max-age=" ++ toString (dur / 1000000000))
      cases reply .now with
      | none => exact hcontrol
      | some now => exact hcontrol.insertText expiresName _

/-- The advertisement touches no other line. -/
theorem sameExcept_advertise (state : ServerState) (headers : HeaderMap) :
    SameExcept "alt-svc" (advertise state headers) headers := by
  intro b hb
  simp only [advertise]
  split
  · exact getAll_insertText headers altSvc _ hb
  · rfl

/-- What decides about compression, and the coding, do not depend on the advertisement. -/
theorem SameExcept.compresses_eq {h h' : HeaderMap} (hsame : SameExcept "alt-svc" h h')
    (crates : Crates) (response : Response) (reqHeaders : HeaderMap) (gzipEnabled : Bool)
    (gzipTypes : List String) (maxCollect : Option Nat) (minLength : Nat) :
    compresses crates { response with headers := h } reqHeaders gzipEnabled gzipTypes maxCollect
        minLength =
      compresses crates { response with headers := h' } reqHeaders gzipEnabled gzipTypes maxCollect
        minLength := by
  have hget : ∀ b, Text.toAsciiLowercase b ≠ "alt-svc" → h.get b = h'.get b := by
    intro b hb
    rw [HeaderMap.get, HeaderMap.get, hsame b hb]
  simp only [compresses, contentTypeEligible, withinCollect, declaredLength,
    hget "content-encoding" (by decide), hget "content-type" (by decide),
    hget "content-length" (by decide)]

theorem SameExcept.codingOf_eq {h h' : HeaderMap} (hsame : SameExcept "alt-svc" h h')
    (response : Response) :
    codingOf { response with headers := h } = codingOf { response with headers := h' } := by
  simp only [codingOf, hsame "content-encoding" (by decide), hsame "vary" (by decide)]

/-! ## The coding of what goes out -/

/-- The response of the action of a location, with the headers of the location. -/
def decorated (reply : (q : Effect) → q.Answer) (loc : LocationRt) (ctx : RequestCtx)
    (peer : SocketAddr) (request : Request) : Response :=
  let response := (perform (actionCall loc ctx peer request)).value reply
  { response with headers := decoratedHeaders reply loc ctx response.headers }

/-- `handle` compresses what it sends for a request to a location. -/
def handleCompresses (reply : (q : Effect) → q.Answer) (crates : Crates) (state : ServerState)
    (loc : LocationRt) (ctx : RequestCtx) (peer : SocketAddr) (request : Request) : Bool :=
  compresses crates (decorated reply loc ctx peer request) request.headers
    (loc.gzip.getD state.gzip) state.gzipTypes (maxCollectOf loc) state.gzipMinLength

/-- What `handle` sends for the response of an action. -/
theorem value_finishHandle (reply : (q : Effect) → q.Answer) (crates : Crates)
    (state : ServerState) (loc : LocationRt) (call : ActionCall) (ctx : RequestCtx)
    (reqHeaders : HeaderMap) (response : Response) :
    (finishHandle crates state ctx reqHeaders (.served loc call response)).value reply =
      if loc.gzip.getD state.gzip then
        maybeCompress crates
          { response with
            headers := decoratedHeaders reply loc ctx (advertise state response.headers) }
          reqHeaders true state.gzipTypes (maxCollectOf loc) state.gzipMinLength
      else
        { response with
          headers := decoratedHeaders reply loc ctx (advertise state response.headers) } := by
  simp only [finishHandle, Asks.value_bind, decoratedHeaders]
  split <;> rfl

/-- `handle` sends the coding of the decorated response exactly if it does not compress. -/
theorem codingOf_finishHandle (reply : (q : Effect) → q.Answer) (crates : Crates)
    (state : ServerState) (loc : LocationRt) (ctx : RequestCtx) (peer : SocketAddr)
    (request : Request) :
    codingOf ((finishHandle crates state ctx request.headers (.served loc
        (actionCall loc ctx peer request)
        ((perform (actionCall loc ctx peer request)).value reply))).value reply) =
        codingOf (decorated reply loc ctx peer request) ↔
      handleCompresses reply crates state loc ctx peer request = false := by
  -- the advertisement is under the headers of the location and does not touch the coding
  set response := (perform (actionCall loc ctx peer request)).value reply with hresponse
  have hsame := (sameExcept_advertise state response.headers).decoratedHeaders reply loc ctx
  set sent := decoratedHeaders reply loc ctx (advertise state response.headers) with hsent
  have hcoding := hsame.codingOf_eq response
  rw [value_finishHandle, handleCompresses, decorated, ← hresponse, ← hcoding, ← hsent]
  cases hgzip : loc.gzip.getD state.gzip with
  | true =>
      rw [← hsame.compresses_eq]
      exact codingOf_maybeCompress crates _ _ _ _ _ _
  | false => simp [compresses]

/-- No coding at all. -/
def noCoding : List HeaderValue × List HeaderValue := ([], [])

theorem codingOf_text (status : Nat) (body : String) : codingOf (text status body) = noCoding := by
  have h : ∀ b, Text.toAsciiLowercase b ≠ "content-type" →
      (text status body).headers.getAll b = [] := by
    intro b hb
    simp [text, HeaderMap.getAll, HeaderMap.append, HeaderName.contentType, Ne.symm hb,
      EmptyCollection.emptyCollection]
  rw [codingOf, noCoding, h _ (by decide), h _ (by decide)]

theorem codingOf_challengeResponse (realm : String) :
    codingOf (challengeResponse realm) = noCoding := by
  have htext := codingOf_text 401 "401 Unauthorized\n"
  rw [challengeResponse]
  cases HeaderValue.fromStr ("Basic realm=\"" ++ escapeQuoted realm ++ "\"") with
  | none => exact htext
  | some v =>
      have h : ∀ b, Text.toAsciiLowercase b ≠ "www-authenticate" →
          ((text 401 "401 Unauthorized\n").headers.append wwwAuthenticate v).getAll b =
            (text 401 "401 Unauthorized\n").headers.getAll b := by
        intro b hb
        simp [HeaderMap.getAll, HeaderMap.append, wwwAuthenticate, Ne.symm hb]
      rw [← htext]
      simp only [codingOf, h "content-encoding" (by decide), h "vary" (by decide)]

theorem codingOf_authRequest {reply : (q : Effect) → q.Answer} {crates : Crates} {loc : LocationRt}
    {ctx : RequestCtx} {headers : HeaderMap} {response : Response}
    (h : (authRequestStep crates loc ctx headers).value reply = .error response) :
    codingOf response = noCoding := by
  simp only [authRequestStep, authRequestCheck] at h
  split at h
  · split at h
    · cases h
      exact codingOf_text _ _
    · split at h
      · cases h
        exact codingOf_text _ _
      · rename_i uri _
        change authOutcome (reply (.subrequest (authSubrequest uri ctx headers))) = _ at h
        generalize reply (.subrequest (authSubrequest uri ctx headers)) = outcome at h
        cases outcome with
        | response status =>
            simp only [authOutcome] at h
            split at h
            · cases h
            · cases h
              exact codingOf_text _ _
        | failed =>
            cases h
            exact codingOf_text _ _
        | timedOut =>
            cases h
            exact codingOf_text _ _
  · cases h

section

variable {Time Num : Type} [LinearOrder Time] [Add Num] [Sub Num] [Mul Num] [Min Num] [LE Num]
  [DecidableLE Num] [One Num] [NatCast Num] (secs : Time → Time → Num)

/-- No gate sends a coded response. -/
theorem codingOf_gateReply {env : Surroundings Time Num} {w : Limiters Time Num} {crates : Crates}
    {loc : LocationRt} {ctx : RequestCtx} {peer : SocketAddr} {headers : HeaderMap} {g : Gate}
    {response : Response}
    (h : gateReply secs env w crates loc ctx peer headers g = some response) :
    codingOf response = noCoding := by
  cases g with
  | access =>
      simp only [gateReply] at h
      split at h
      · cases h
        exact codingOf_text _ _
      · cases h
  | limitReq =>
      simp only [gateReply] at h
      obtain ⟨l, -, hl⟩ := Option.bind_eq_some_iff.1 h
      simp only [enforceIn, enforce] at hl
      split at hl
      · cases hl
      · cases hl
        exact codingOf_text _ _
  | limitConn =>
      simp only [gateReply] at h
      obtain ⟨l, -, hl⟩ := Option.bind_eq_some_iff.1 h
      simp only [enforceConnIn, enforceConn] at hl
      split at hl
      · cases hl
      · cases hl
        exact codingOf_text _ _
  | authRequest =>
      simp only [gateReply] at h
      cases hvalue : (authRequestStep crates loc ctx headers).value env.reply with
      | ok _ =>
          rw [hvalue] at h
          cases h
      | error denied =>
          rw [hvalue] at h
          cases h
          exact codingOf_authRequest hvalue
  | authBasic =>
      simp only [gateReply, authBasicStep, authCheck] at h
      split at h
      · split at h
        · cases h
        · rename_i auth _ _
          have hresponse : challengeResponse auth.realm = response := Option.some.inj h
          rw [← hresponse]
          exact codingOf_challengeResponse auth.realm
      · cases h

theorem codingOf_firstDenial {env : Surroundings Time Num} {w : Limiters Time Num}
    {crates : Crates} {loc : LocationRt} {ctx : RequestCtx} {peer : SocketAddr}
    {headers : HeaderMap} {d : Denial}
    (h : firstDenial secs env w crates loc ctx peer headers = some d) :
    codingOf d.response = noCoding := by
  obtain ⟨g, -, hg⟩ := List.exists_of_findSome?_eq_some h
  obtain ⟨response, hreply, rfl⟩ := Option.map_eq_some_iff.1 hg
  exact codingOf_gateReply secs hreply

/-! ## The two protocols -/

/-- The same shadow requests are fired and the same coding is sent on both protocols. -/
def SameOnBoth (env : Surroundings Time Num) (w : Limiters Time Num) (crates : Crates)
    (state : ServerState) (request : Request) (peer : SocketAddr) : Prop :=
  let onHandle := handle crates state request peer
  let onDispatch :=
    dispatch crates state request.method request.uri request.headers request.body.data peer
  shadowsOf (onHandle.asked (answer secs env) w) =
      shadowsOf (onDispatch.asked (answer secs env) w) ∧
    codingOf (onHandle.run (answer secs env) w).1 = codingOf (onDispatch.run (answer secs env) w).1

/-- The condition at a location: a request that an authorization gate denies has no shadow requests,
and a request that is served is not compressed. A request that declares too large a body, which
`handle` refuses, is denied in any case, or has neither shadow requests nor a coding. -/
def SameAt (env : Surroundings Time Num) (w : Limiters Time Num) (crates : Crates)
    (state : ServerState) (request : Request) (peer : SocketAddr) (loc : LocationRt) : Prop :=
  let ctx := requestContext state peer request.method request.uri request.headers
  let shadows := shadowRequests crates loc ctx request.headers request.method
  match exceedsBodySize state request.headers,
      firstDenial secs env w crates loc ctx peer request.headers with
  | false, some d => d.gate.rank < Gate.authRequest.rank ∨ shadows = []
  | false, none => handleCompresses env.reply crates state loc ctx peer request = false
  | true, some _ => True
  | true, none => shadows = [] ∧ codingOf (decorated env.reply loc ctx peer request) = noCoding

/-- The finish of a response fires nothing. -/
theorem shadowsOf_finish (env : Surroundings Time Num) (w : Limiters Time Num)
    {finish : Verdict → Pipeline Response} (hfinish : ∀ v, (finish v).Only fun q => q = .now)
    (body : Pipeline Verdict) :
    shadowsOf ((body >>= finish).asked (answer secs env) w) =
      shadowsOf (body.asked (answer secs env) w) := by
  have hquiet : ∀ v w', shadowsOf ((finish v).asked (answer secs env) w') = [] := by
    intro v w'
    refine shadowsOf_eq_nil secs ((hfinish v).mono ?_) env w'
    rintro q rfl
    rfl
  rw [Asks.asked_bind, shadowsOf_append, hquiet, List.append_nil]

/-- The shadow requests of `handle`: those of the location, unless a limit denies the request. -/
theorem shadowsOf_handle (env : Surroundings Time Num) (w : Limiters Time Num) (crates : Crates)
    (state : ServerState) (request : Request) (peer : SocketAddr)
    (hlength : exceedsBodySize state request.headers = false) :
    let ctx := requestContext state peer request.method request.uri request.headers
    shadowsOf ((handle crates state request peer).asked (answer secs env) w) =
      match route state request.uri.path with
      | none => []
      | some loc =>
          match limitDenial secs env w loc ctx peer with
          | some _ => []
          | none => shadowRequests crates loc ctx request.headers request.method := by
  intro ctx
  rw [handle, shadowsOf_finish secs env w (finishHandle_only crates state _ request.headers),
    handleVerdict_eq crates state request peer hlength]
  cases route state request.uri.path with
  | none => rfl
  | some loc =>
      exact shadowsOf_gated secs env w loc ctx peer fun w' =>
        shadowsOf_handleHeld secs env w' crates loc ctx peer request

/-- The shadow requests of `dispatch`: those of the location, unless any gate denies the request. -/
theorem shadowsOf_dispatch (env : Surroundings Time Num) (w : Limiters Time Num) (crates : Crates)
    (state : ServerState) (request : Request) (peer : SocketAddr) :
    let ctx := requestContext state peer request.method request.uri request.headers
    shadowsOf ((dispatch crates state request.method request.uri request.headers request.body.data
        peer).asked (answer secs env) w) =
      match route state request.uri.path with
      | none => []
      | some loc =>
          match firstDenial secs env w crates loc ctx peer request.headers with
          | some _ => []
          | none => shadowRequests crates loc ctx request.headers request.method := by
  intro ctx
  rw [dispatch, shadowsOf_finish secs env w (finishDispatch_only _), dispatchVerdict_eq]
  cases route state request.uri.path with
  | none => rfl
  | some loc =>
      refine (shadowsOf_gated secs env w loc ctx peer fun w' =>
        shadowsOf_dispatchHeld secs env w' crates loc ctx peer (rebuilt request)).trans ?_
      simp only [firstDenial_eq]
      cases limitDenial secs env w loc ctx peer with
      | some d => rfl
      | none => rfl

/-- The coding that `handle` sends for a request that no gate denies is that of its finish; a denial
and a request without a location have none. -/
theorem codingOf_handle (env : Surroundings Time Num) (w : Limiters Time Num) (crates : Crates)
    (state : ServerState) (request : Request) (peer : SocketAddr)
    (hlength : exceedsBodySize state request.headers = false) :
    let ctx := requestContext state peer request.method request.uri request.headers
    codingOf ((handle crates state request peer).run (answer secs env) w).1 =
      match route state request.uri.path with
      | none => noCoding
      | some loc =>
          match firstDenial secs env w crates loc ctx peer request.headers with
          | some _ => noCoding
          | none =>
              codingOf ((finishHandle crates state ctx request.headers (.served loc
                (actionCall loc ctx peer request)
                ((perform (actionCall loc ctx peer request)).value env.reply))).value
                  env.reply) := by
  intro ctx
  rw [handle, run_finish secs env w (finishHandle_only crates state _ request.headers),
    run_handleVerdict secs env w crates state request peer hlength, routedOutcome]
  cases route state request.uri.path with
  | none =>
      refine ((sameExcept_advertise state _).codingOf_eq (text 404 "404 Not Found\n")).trans ?_
      exact codingOf_text _ _
  | some loc =>
      simp only [locationVerdict]
      cases hfirst : firstDenial secs env w crates loc ctx peer request.headers with
      | some d => exact codingOf_firstDenial secs hfirst
      | none => rfl

/-- The coding that `dispatch` sends for a request that no gate denies is that of its response. -/
theorem codingOf_dispatch (env : Surroundings Time Num) (w : Limiters Time Num) (crates : Crates)
    (state : ServerState) (request : Request) (peer : SocketAddr) :
    let ctx := requestContext state peer request.method request.uri request.headers
    codingOf ((dispatch crates state request.method request.uri request.headers request.body.data
        peer).run (answer secs env) w).1 =
      match route state request.uri.path with
      | none => noCoding
      | some loc =>
          match firstDenial secs env w crates loc ctx peer request.headers with
          | some _ => noCoding
          | none => codingOf (decorated env.reply loc ctx peer (rebuilt request)) := by
  intro ctx
  rw [dispatch, run_finish secs env w (finishDispatch_only _),
    run_dispatchVerdict secs env w crates state request peer, routedOutcome, rebuilt_uri]
  cases route state request.uri.path with
  | none => exact codingOf_text _ _
  | some loc =>
      simp only [locationVerdict, show (rebuilt request).headers = request.headers from rfl]
      cases hfirst : firstDenial secs env w crates loc ctx peer request.headers with
      | some d => exact codingOf_firstDenial secs hfirst
      | none =>
          simp only [finishDispatch, Asks.value_bind]
          rfl

/-- A request that declares too large a body is refused without anything else. -/
theorem handle_of_exceeds {state : ServerState} {request : Request}
    (h : exceedsBodySize state request.headers = true) (crates : Crates) (peer : SocketAddr) :
    ∃ body, handle crates state request peer = .done (text 413 body) := by
  rw [handle, handleVerdict, if_pos h]
  exact ⟨_, rfl⟩

/-- A denial by a limit has an earlier place than the authorization. -/
theorem limitDenial_rank {env : Surroundings Time Num} {w : Limiters Time Num} {loc : LocationRt}
    {ctx : RequestCtx} {peer : SocketAddr} {d : Denial}
    (h : limitDenial secs env w loc ctx peer = some d) :
    d.gate.rank < Gate.authRequest.rank := by
  rw [limitDenial] at h
  split at h
  · cases h
    show 0 < 3
    omega
  · split at h
    · cases h
      show 1 < 3
      omega
    · obtain ⟨response, -, rfl⟩ := Option.map_eq_some_iff.1 h
      show 2 < 3
      omega

/-- The action of the location answers alike on both protocols. The call differs only for a proxied
request that is not HTTP/1.1 or whose body breaks off. -/
def AnsweredAlike (reply : (q : Effect) → q.Answer) (state : ServerState) (request : Request)
    (peer : SocketAddr) : Prop :=
  ∀ loc, route state request.uri.path = some loc →
    let ctx := requestContext state peer request.method request.uri request.headers
    (perform (actionCall loc ctx peer (rebuilt request))).value reply =
      (perform (actionCall loc ctx peer request)).value reply

/-- The action answers alike if `dispatch` builds the same request again, or if the location does
not forward it. -/
theorem answeredAlike {reply : (q : Effect) → q.Answer} {state : ServerState} {request : Request}
    {peer : SocketAddr}
    (h : (request.version = .http11 ∧ request.body.failed = false) ∨
      ∀ loc, route state request.uri.path = some loc →
        ∀ target setHeaders cache, loc.action ≠ .proxy target setHeaders cache) :
    AnsweredAlike reply state request peer := by
  intro loc hroute
  rcases h with ⟨hversion, hwhole⟩ | hdirect
  · have hsame : rebuilt request = request := by
      obtain ⟨method, uri, version, headers, data, failed⟩ := request
      obtain rfl : version = .http11 := hversion
      obtain rfl : failed = false := hwhole
      rfl
    simp only [hsame]
  · have hcall : ∀ ctx, actionCall loc ctx peer (rebuilt request) =
        actionCall loc ctx peer request := by
      intro ctx
      simp only [actionCall]
      split
      · rfl
      · rfl
      · rename_i target setHeaders cache haction
        exact absurd haction (hdirect loc hroute target setHeaders cache)
      · rfl
      · rfl
    simp only [hcall]

theorem decorated_rebuilt {reply : (q : Effect) → q.Answer} {state : ServerState}
    {request : Request} {peer : SocketAddr} (halike : AnsweredAlike reply state request peer)
    {loc : LocationRt} (hroute : route state request.uri.path = some loc) :
    let ctx := requestContext state peer request.method request.uri request.headers
    decorated reply loc ctx peer (rebuilt request) = decorated reply loc ctx peer request := by
  intro ctx
  rw [decorated, decorated, halike loc hroute]

/-- A refused request shows nothing on HTTP/1 and HTTP/2. -/
theorem sameOnBoth_of_exceeds (env : Surroundings Time Num) (w : Limiters Time Num)
    (crates : Crates) {state : ServerState} {request : Request} {peer : SocketAddr}
    (halike : AnsweredAlike env.reply state request peer)
    (hlength : exceedsBodySize state request.headers = true) {loc : LocationRt}
    (hroute : route state request.uri.path = some loc) :
    SameOnBoth secs env w crates state request peer ↔
      SameAt secs env w crates state request peer loc := by
  have hshadows := shadowsOf_dispatch secs env w crates state request peer
  have hcoding := codingOf_dispatch secs env w crates state request peer
  obtain ⟨body, hbody⟩ := handle_of_exceeds hlength crates peer
  have hquiet : shadowsOf ((handle crates state request peer).asked (answer secs env) w) = [] := by
    rw [hbody]
    rfl
  have hplain : codingOf ((handle crates state request peer).run (answer secs env) w).1 =
      noCoding := by
    rw [hbody]
    exact codingOf_text 413 body
  simp only [hroute, decorated_rebuilt halike hroute] at hshadows hcoding
  simp only [SameOnBoth, SameAt, hshadows, hcoding, hquiet, hplain, hlength]
  -- `handle` shows nothing, so that the question is what `dispatch` shows
  cases firstDenial secs env w crates loc
      (requestContext state peer request.method request.uri request.headers) peer
      request.headers with
  | some d => simp
  | none => exact and_congr eq_comm eq_comm

/-- The two protocols differ in what an authorization denies and in what is compressed. -/
theorem sameOnBoth_of_within (env : Surroundings Time Num) (w : Limiters Time Num)
    (crates : Crates) {state : ServerState} {request : Request} {peer : SocketAddr}
    (halike : AnsweredAlike env.reply state request peer)
    (hlength : exceedsBodySize state request.headers = false) {loc : LocationRt}
    (hroute : route state request.uri.path = some loc) :
    SameOnBoth secs env w crates state request peer ↔
      SameAt secs env w crates state request peer loc := by
  have hshadows := shadowsOf_dispatch secs env w crates state request peer
  have hcoding := codingOf_dispatch secs env w crates state request peer
  have hshadows' := shadowsOf_handle secs env w crates state request peer hlength
  have hcoding' := codingOf_handle secs env w crates state request peer hlength
  have hfinish := codingOf_finishHandle env.reply crates state loc
    (requestContext state peer request.method request.uri request.headers) peer request
  simp only [hroute, decorated_rebuilt halike hroute, firstDenial_eq] at hshadows hcoding hcoding'
  simp only [hroute] at hshadows'
  simp only [SameOnBoth, SameAt, hshadows, hcoding, hshadows', hcoding', hlength, firstDenial_eq]
  cases hlimit : limitDenial secs env w loc
      (requestContext state peer request.method request.uri request.headers) peer with
  | some d => exact ⟨fun _ => .inl (limitDenial_rank secs hlimit), fun _ => ⟨rfl, rfl⟩⟩
  | none =>
      cases hauth : authDenial env.reply crates loc
          (requestContext state peer request.method request.uri request.headers)
          request.headers with
      | some d =>
          -- denied after `handle` fired its shadow requests, before `dispatch` would
          have hlate := authDenial_rank hauth
          refine ⟨fun h => .inr h.1, fun h => ⟨?_, rfl⟩⟩
          rcases h with hearly | hnone
          · exact absurd hearly (Nat.not_lt.2 hlate)
          · exact hnone
      | none => exact ⟨fun h => hfinish.1 h.2, fun h => ⟨rfl, hfinish.2 h⟩⟩

/-- **Shadow requests and codings are the same on both protocols exactly under the condition.** For
every request whose action answers alike, `handle` and `dispatch` fire the same shadow requests and
send the same coding if and only if the condition holds at the location of the request. -/
theorem shadows_and_coding_iff (env : Surroundings Time Num) (w : Limiters Time Num)
    (crates : Crates) (state : ServerState) (request : Request) (peer : SocketAddr)
    (halike : AnsweredAlike env.reply state request peer) :
    SameOnBoth secs env w crates state request peer ↔
      ∀ loc, route state request.uri.path = some loc →
        SameAt secs env w crates state request peer loc := by
  cases hroute : route state request.uri.path with
  | some loc =>
      simp only [Option.some.injEq, forall_eq']
      cases hlength : exceedsBodySize state request.headers with
      | true => exact sameOnBoth_of_exceeds secs env w crates halike hlength hroute
      | false => exact sameOnBoth_of_within secs env w crates halike hlength hroute
  | none =>
      have hshadows := shadowsOf_dispatch secs env w crates state request peer
      have hcoding := codingOf_dispatch secs env w crates state request peer
      simp only [hroute] at hshadows hcoding
      refine iff_of_true ?_ (fun loc h => by cases h)
      rw [SameOnBoth, hshadows, hcoding]
      cases hlength : exceedsBodySize state request.headers with
      | true =>
          obtain ⟨body, hbody⟩ := handle_of_exceeds hlength crates peer
          rw [hbody]
          exact ⟨rfl, codingOf_text 413 body⟩
      | false =>
          rw [shadowsOf_handle secs env w crates state request peer hlength,
            codingOf_handle secs env w crates state request peer hlength, hroute]
          exact ⟨rfl, rfl⟩

end

/-! ## Where the protocols differ -/

/-- The guarded location with a mirror. -/
def mirroredLocation : LocationRt :=
  { guardedLocation with mirrors := [Template.parse "http://shadow/"] }

/-- A server with that location. -/
def mirroredState : ServerState := { guardedState with prefixLocs := [mirroredLocation] }

/-- A location that returns a text, without any gate. -/
def openLocation : LocationRt :=
  { guardedLocation with
    action := .ret 200 (Template.parse longText)
    auth := none
    limitConn := none }

/-- A server that compresses, with that location. -/
def compressingState : ServerState :=
  { guardedState with gzip := true, prefixLocs := [openLocation] }

/-- The `accept-encoding` header name. -/
def acceptEncoding : HeaderName := ⟨"accept-encoding", by decide⟩

/-- A request for the root of a server. -/
def rootRequest (headers : HeaderMap) : Request := ⟨.get, rootUri, .http11, headers, full []⟩

/-- The headers of a client that accepts gzip. -/
def gzipHeaders : HeaderMap := HeaderMap.append ∅ acceptEncoding gzipValue

/-- Whole seconds between two times. -/
def wholeSecs (last now : Nat) : Nat := now - last

/-- A request that fails `auth_basic` is mirrored by `handle` and not by `dispatch`, and a text is
compressed by `handle` and not by `dispatch`. -/
theorem protocols_differ :
    ¬ SameOnBoth wholeSecs quietSurroundings freshLimiters fixedCrates mirroredState
        (rootRequest ∅) clientPeer ∧
      ¬ SameOnBoth wholeSecs quietSurroundings freshLimiters fixedCrates compressingState
        (rootRequest gzipHeaders) clientPeer := by
  constructor
  · intro h
    have hlength := congrArg List.length h.1
    revert hlength
    decide +kernel
  · intro h
    have hlength := congrArg (fun c => c.1.length) h.2
    revert hlength
    decide +kernel

/-- Without mirrors and compression the protocols are the same. -/
theorem guarded_same_on_both :
    AnsweredAlike quietReply guardedState (rootRequest ∅) clientPeer ∧
      SameOnBoth wholeSecs quietSurroundings freshLimiters fixedCrates guardedState (rootRequest ∅)
        clientPeer := by
  have halike : AnsweredAlike quietReply guardedState (rootRequest ∅) clientPeer :=
    answeredAlike (.inl ⟨rfl, rfl⟩)
  refine ⟨halike, (shadows_and_coding_iff wholeSecs quietSurroundings freshLimiters fixedCrates
    guardedState (rootRequest ∅) clientPeer halike).2 ?_⟩
  intro loc hroute
  have hloc : route guardedState (rootRequest ∅).uri.path = some guardedLocation := rfl
  rw [hloc, Option.some.injEq] at hroute
  subst hroute
  have hlength : exceedsBodySize guardedState (rootRequest ∅).headers = false := by decide +kernel
  rw [SameAt, hlength]
  split
  · exact .inr rfl
  · rfl
  · trivial
  · rename_i h _
    cases h

end Elrond.Server
