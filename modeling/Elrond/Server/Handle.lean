import Elrond.Server.Gates
import Elrond.Static.Format

/-!
# The two request pipelines

`server::handle` serves HTTP/1 and HTTP/2, `http3::dispatch` serves HTTP/3. Each evaluates the maps,
chooses a location, passes the gates of the location and runs its action; then the response gets the
headers of the location and, in `handle`, is compressed (`gzip.rs`).

A `Verdict` says what became of a request before its response is finished: refused for its size,
without a location, denied at a gate, or served by an action with its arguments.
-/

set_option autoImplicit false

namespace Elrond.Server

open Elrond.Lib Elrond.Http Elrond.Request Elrond.Config Elrond.Upstream Elrond.Proxy Elrond.Limit
  Elrond.App

/-! ## Actions -/

/-- An action with the arguments it is run with. -/
inductive ActionCall where
  | ret (status : Nat) (body : String)
  | files (root : String) (kind : StaticKind) (path : String) (headers : HeaderMap)
      (method : Method) (autoindex : Bool)
  | proxy (target : ProxyTarget) (settings : Settings) (client : Option MtlsIdentity)
      (request : Request) (peer : SocketAddr) (ctx : RequestCtx)
  | metrics
  | tryFiles (root : String) (entries : List TryFilesEntry) (ctx : RequestCtx)
      (headers : HeaderMap) (method : Method)

/-- The call of a location for a request. -/
def actionCall (loc : LocationRt) (ctx : RequestCtx) (peer : SocketAddr) (request : Request) :
    ActionCall :=
  match loc.action with
  | .ret status body => .ret status (body.render ctx)
  | .files root kind =>
      .files root kind request.uri.path request.headers request.method loc.autoindex
  | .proxy target setHeaders cache =>
      .proxy target
        { setHeaders := setHeaders
          cache := cache
          readTimeout := loc.proxyReadTimeout
          sslVerify := loc.proxySslVerify
          mtlsClient := loc.proxyClient.isSome }
        loc.proxyClient request peer ctx
  | .metrics => .metrics
  | .tryFiles root entries => .tryFiles root entries ctx request.headers request.method

/-- The media type of the metrics. -/
def metricsType : HeaderValue :=
  ⟨Text.utf8Bytes "text/plain; version=0.0.4; charset=utf-8", by decide⟩

/-- Run an action. -/
def perform : ActionCall → Pipeline Response
  | .ret status body => pure (text status body)
  | .files root kind path headers method autoindex =>
      Asks.question (Effect.serve root kind path headers method autoindex)
  | .proxy target settings client request peer ctx => do
      match ← Asks.question (Effect.resolve target ctx) with
      | some balancer =>
          Asks.question (Effect.forward balancer settings client request peer ctx)
      | none => pure (text 502 "502 Bad Gateway (empty / unresolvable proxy_pass)\n")
  | .metrics => do
      let body ← Asks.question Effect.renderMetrics
      pure
        { status := 200
          headers := HeaderMap.append ∅ HeaderName.contentType metricsType
          body := full (Text.utf8Bytes body) }
  | .tryFiles root entries ctx headers method =>
      Asks.question (Effect.tryFiles root entries ctx headers method)

/-! ## Verdicts -/

/-- The gates of a location, in the order in which they are passed. -/
inductive Gate where
  | access
  | limitReq
  | limitConn
  | authRequest
  | authBasic
deriving DecidableEq, Repr

/-- A denial: the gate, and the response that goes back. -/
structure Denial where
  gate : Gate
  response : Response

/-- What became of a request. -/
inductive Verdict where
  | tooLarge (response : Response)
  | unrouted
  | denied (denial : Denial)
  | served (loc : LocationRt) (call : ActionCall) (response : Response)

/-- The refusal of `allow` and `deny`. -/
def accessDenied (loc : LocationRt) (peer : SocketAddr) : Bool :=
  !loc.accessRules.isEmpty && !accessCheck loc.accessRules peer.ip

/-- The `auth_request` step of a location. -/
def authRequestStep (crates : Crates) (loc : LocationRt) (ctx : RequestCtx) (headers : HeaderMap) :
    Pipeline (Except Response Unit) :=
  match loc.authRequest with
  | some urlTemplate => authRequestCheck crates urlTemplate ctx headers
  | none => pure (.ok ())

/-- The `auth_basic` step of a location. -/
def authBasicStep (crates : Crates) (loc : LocationRt) (headers : HeaderMap) :
    Except Response Unit :=
  match loc.auth with
  | some auth => authCheck crates auth headers
  | none => .ok ()

/-- Run the action of a location. -/
def serveLocation (loc : LocationRt) (ctx : RequestCtx) (peer : SocketAddr) (request : Request) :
    Pipeline Verdict := do
  let call := actionCall loc ctx peer request
  let response ← perform call
  pure (.served loc call response)

/-- The matched branch of `handle` once a slot is held: the shadow requests are fired before the
authorization. -/
def handleHeld (crates : Crates) (loc : LocationRt) (ctx : RequestCtx) (peer : SocketAddr)
    (request : Request) : Pipeline Verdict := do
  mirrorDispatch crates loc ctx request.headers request.method
  match ← authRequestStep crates loc ctx request.headers with
  | .error denied => pure (.denied ⟨.authRequest, denied⟩)
  | .ok () =>
      match authBasicStep crates loc request.headers with
      | .error challenge => pure (.denied ⟨.authBasic, challenge⟩)
      | .ok () => serveLocation loc ctx peer request

/-- The matched branch of `handle`. -/
def handleLocation (crates : Crates) (loc : LocationRt) (ctx : RequestCtx) (peer : SocketAddr)
    (request : Request) : Pipeline Verdict :=
  if accessDenied loc peer then pure (.denied ⟨.access, text 403 "403 Forbidden\n"⟩)
  else do
    match ← limitReqStep loc ctx with
    | some denied => pure (.denied ⟨.limitReq, denied⟩)
    | none =>
        match ← limitConnStep loc ctx with
        | .error denied => pure (.denied ⟨.limitConn, denied⟩)
        | .ok slot => holding slot (handleHeld crates loc ctx peer request)

/-- The matched branch of `dispatch` once a slot is held: the shadow requests are fired after the
authorization. -/
def dispatchHeld (crates : Crates) (loc : LocationRt) (ctx : RequestCtx) (peer : SocketAddr)
    (request : Request) : Pipeline Verdict := do
  match ← authRequestStep crates loc ctx request.headers with
  | .error denied => pure (.denied ⟨.authRequest, denied⟩)
  | .ok () =>
      match authBasicStep crates loc request.headers with
      | .error challenge => pure (.denied ⟨.authBasic, challenge⟩)
      | .ok () => do
          mirrorDispatch crates loc ctx request.headers request.method
          serveLocation loc ctx peer request

/-- The matched branch of `dispatch`. -/
def dispatchLocation (crates : Crates) (loc : LocationRt) (ctx : RequestCtx) (peer : SocketAddr)
    (request : Request) : Pipeline Verdict :=
  if accessDenied loc peer then pure (.denied ⟨.access, text 403 "403 Forbidden\n"⟩)
  else do
    match ← limitReqStep loc ctx with
    | some denied => pure (.denied ⟨.limitReq, denied⟩)
    | none =>
        match ← limitConnStep loc ctx with
        | .error denied => pure (.denied ⟨.limitConn, denied⟩)
        | .ok slot => holding slot (dispatchHeld crates loc ctx peer request)

/-- The length that a request declares. -/
def declaredLength (headers : HeaderMap) : Option Nat :=
  ((headers.get "content-length").bind HeaderValue.toStr).bind (Text.parseUnsigned 64)

/-- The request declares more than `client_max_body_size`. -/
def exceedsBodySize (state : ServerState) (headers : HeaderMap) : Bool :=
  -- zero stands for no limit, and a body without a declared length is not stopped here
  state.clientMaxBodySize > 0 &&
    match declaredLength headers with
    | some n => n > state.clientMaxBodySize
    | none => false

/-- The context in which a request is served. -/
def requestContext (state : ServerState) (peer : SocketAddr) (method : Method) (uri : Uri)
    (headers : HeaderMap) : RequestCtx :=
  let context := contextOf state peer method uri headers
  context (evalMaps context state.maps)

/-- `handle` up to its verdict. -/
def handleVerdict (crates : Crates) (state : ServerState) (request : Request) (peer : SocketAddr) :
    Pipeline Verdict :=
  if exceedsBodySize state request.headers then
    pure (.tooLarge (text 413 ("413 Request Entity Too Large (limit " ++
      toString state.clientMaxBodySize ++ " bytes)\n")))
  else
    let ctx := requestContext state peer request.method request.uri request.headers
    match route state request.uri.path with
    | some loc => handleLocation crates loc ctx peer request
    | none => pure .unrouted

/-- `dispatch` up to its verdict. The request for an upstream is built anew, as HTTP/1.1 and with
the body that was read before. -/
def dispatchVerdict (crates : Crates) (state : ServerState) (method : Method) (uri : Uri)
    (headers : HeaderMap) (bodyBytes : Bytes) (peer : SocketAddr) : Pipeline Verdict :=
  let ctx := requestContext state peer method uri headers
  match route state uri.path with
  | some loc => dispatchLocation crates loc ctx peer ⟨method, uri, .http11, headers, full bodyBytes⟩
  | none => pure .unrouted

/-! ## Headers of the location -/

/-- `apply_add_headers`. -/
def applyAddHeaders (target : HeaderMap) (rules : List (HeaderName × Template)) (ctx : RequestCtx) :
    HeaderMap :=
  rules.foldl
    (fun h rule =>
      match HeaderValue.fromStr (rule.2.render ctx) with
      | some v => h.insert rule.1 v
      | none => h)
    target

/-- The `cache-control` header name. -/
def cacheControl : HeaderName := ⟨"cache-control", by decide⟩

/-- The `expires` header name. -/
def expiresName : HeaderName := ⟨"expires", by decide⟩

/-- Insert a header if its value is one. -/
def insertText (h : HeaderMap) (name : HeaderName) (value : String) : HeaderMap :=
  match HeaderValue.fromStr value with
  | some v => h.insert name v
  | none => h

/-- `apply_expires` at the given time. -/
def applyExpires (target : HeaderMap) (dur : Text.Duration) (now : Option Nat) : HeaderMap :=
  let secs := dur / 1000000000
  let h := insertText target cacheControl ("max-age=" ++ toString secs)
  match now with
  | some now => insertText h expiresName (Static.formatDate (min (now + secs) (2 ^ 64 - 1)))
  | none => h

/-- The headers that a location adds to its response. -/
def decorate (loc : LocationRt) (ctx : RequestCtx) (headers : HeaderMap) : Pipeline HeaderMap := do
  let headers := applyAddHeaders headers loc.addHeaders ctx
  match loc.expires with
  | some dur => do
      let now ← Asks.question Effect.now
      pure (applyExpires headers dur now)
  | none => pure headers

/-! ## Compression -/

/-- `DEFAULT_TYPES`. -/
def defaultTypes : List String :=
  ["text/html", "text/css", "text/plain", "text/javascript", "text/xml", "application/javascript",
    "application/x-javascript", "application/json", "application/xml", "application/atom+xml",
    "application/rss+xml", "image/svg+xml", "font/woff", "font/woff2"]

/-- `client_accepts_gzip`. -/
def clientAcceptsGzip (headers : HeaderMap) : Bool :=
  match (headers.get "accept-encoding").bind HeaderValue.toStr with
  | some v =>
      (Text.split ',' v).any fun p =>
        -- the weight of a coding is not looked at, not even zero
        let name := Text.trim ((Text.split ';' (Text.trim p)).headD (Text.trim p))
        Text.toAsciiLowercase name == "gzip" || name == "*"
  | none => false

/-- `status_eligible`. -/
def statusEligible (status : Nat) : Bool := [200, 203, 206, 301, 302].contains status

/-- `content_type_eligible`. -/
def contentTypeEligible (headers : HeaderMap) (extra : List String) : Bool :=
  match (headers.get "content-type").bind HeaderValue.toStr with
  | some ct =>
      let mime := Text.toAsciiLowercase (Text.trim ((Text.split ';' ct).headD ct))
      defaultTypes.contains mime || extra.contains mime
  | none => false

/-- Whether a body of the declared length may be collected. -/
def withinCollect (headers : HeaderMap) (maxCollect : Option Nat) : Bool :=
  match maxCollect with
  | some max =>
      match declaredLength headers with
      | some n => n ≤ max
      -- a response of unknown length is never collected under a cap
      | none => false
  | none => true

/-- The `content-encoding` header name. -/
def contentEncoding : HeaderName := ⟨"content-encoding", by decide⟩

/-- The coding of a compressed response. -/
def gzipValue : HeaderValue := ⟨Text.utf8Bytes "gzip", by decide⟩

/-- The value of `Vary` for a compressed response. -/
def varyText (headers : HeaderMap) : String :=
  match (headers.get "vary").bind HeaderValue.toStr with
  | some existing =>
      if existing = "" then "Accept-Encoding"
      else if (Text.split ',' existing).any fun p =>
          Text.toAsciiLowercase (Text.trim p) == "accept-encoding" then existing
      else existing ++ ", Accept-Encoding"
  | none => "Accept-Encoding"

/-- The response with its body compressed. -/
def compressed (response : Response) (bytes : Bytes) : Response :=
  let h := response.headers.insert contentEncoding gzipValue
  let h := insertText h HeaderName.contentLength (toString bytes.length)
  { response with headers := insertText h HeaderName.vary (varyText h), body := full bytes }

/-- `maybe_compress`. -/
def maybeCompress (crates : Crates) (response : Response) (reqHeaders : HeaderMap)
    (gzipEnabled : Bool) (gzipTypes : List String) (maxCollect : Option Nat) (minLength : Nat) :
    Response :=
  if !gzipEnabled || !clientAcceptsGzip reqHeaders then response
  else if !statusEligible response.status then response
  else if (response.headers.get "content-encoding").isSome then response
  else if !contentTypeEligible response.headers gzipTypes then response
  else if !withinCollect response.headers maxCollect then response
  -- a body that breaks off while it is collected goes out empty
  else if response.body.failed then { response with body := full [] }
  else if response.body.data.length < minLength then
    { response with body := full response.body.data }
  else
    match crates.gzip response.body.data with
    | some bytes => compressed response bytes
    | none => { response with body := full response.body.data }

/-! ## Responses -/

/-- `PROXY_GZIP_MAX_COLLECT`. -/
def proxyGzipMaxCollect : Nat := 256 * 1024

/-- The cap on what is collected to compress a response of the location. -/
def maxCollectOf (loc : LocationRt) : Option Nat :=
  match loc.action with
  | .proxy _ _ _ => some proxyGzipMaxCollect
  | _ => none

/-- The `alt-svc` header name. -/
def altSvc : HeaderName := ⟨"alt-svc", by decide⟩

/-- The advertisement of HTTP/3 by `handle`. -/
def advertise (state : ServerState) (headers : HeaderMap) : HeaderMap :=
  match state.scheme, state.h3AdvertisedPort with
  | .https, some port => insertText headers altSvc ("h3=\":" ++ toString port ++ "\"; ma=86400")
  | _, _ => headers

/-- `handle` from its verdict on. A denial goes out as it is. -/
def finishHandle (crates : Crates) (state : ServerState) (ctx : RequestCtx)
    (reqHeaders : HeaderMap) : Verdict → Pipeline Response
  | .tooLarge response => pure response
  | .denied denial => pure denial.response
  | .unrouted =>
      let response := text 404 "404 Not Found\n"
      pure { response with headers := advertise state response.headers }
  | .served loc _ response => do
      let headers ← decorate loc ctx (advertise state response.headers)
      let response := { response with headers := headers }
      if loc.gzip.getD state.gzip then
        pure (maybeCompress crates response reqHeaders true state.gzipTypes (maxCollectOf loc)
          state.gzipMinLength)
      else pure response

/-- `server::handle`. -/
def handle (crates : Crates) (state : ServerState) (request : Request) (peer : SocketAddr) :
    Pipeline Response := do
  let verdict ← handleVerdict crates state request peer
  finishHandle crates state
    (requestContext state peer request.method request.uri request.headers) request.headers verdict

/-- `dispatch` from its verdict on. -/
def finishDispatch (ctx : RequestCtx) : Verdict → Pipeline Response
  | .tooLarge response => pure response
  | .denied denial => pure denial.response
  | .unrouted => pure (text 404 "404 Not Found\n")
  | .served loc _ response => do
      let headers ← decorate loc ctx response.headers
      pure { response with headers := headers }

/-- `http3::dispatch`. -/
def dispatch (crates : Crates) (state : ServerState) (method : Method) (uri : Uri)
    (headers : HeaderMap) (bodyBytes : Bytes) (peer : SocketAddr) : Pipeline Response := do
  let verdict ← dispatchVerdict crates state method uri headers bodyBytes peer
  finishDispatch (requestContext state peer method uri headers) verdict

end Elrond.Server
