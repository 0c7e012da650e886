import Elrond.Lib.Asks
import Elrond.App.Runtime
import Elrond.Limit.Req

/-!
# What a request passes through

The parts that both request pipelines are made of: the variables of `map`, the choice of a location
(`app.rs`), `allow` and `deny` (`access.rs`), `auth_basic` (`auth.rs`), `auth_request`
(`auth_request.rs`), `mirror` (`mirror.rs`) and the limits (`limit.rs`).

What a request does to the world outside is an `Effect`: a limit asked for, a shadow request fired,
a subrequest sent, an action run. A pipeline asks for effects in order and goes on with their
answers.
-/

set_option autoImplicit false

namespace Elrond.Server

open Elrond.Lib Elrond.Http Elrond.Request Elrond.Config Elrond.Upstream Elrond.Proxy Elrond.Limit
  Elrond.App

/-- What a request uses from other crates: the parser of URIs with its error texts, base64, the
check of a password against a bcrypt hash, and gzip. -/
structure Crates where
  parseUri : String → Except String Uri
  base64Decode : String → Option Bytes
  bcryptVerify : (password hash : String) → Option Bool
  gzip : Bytes → Option Bytes

/-! ## Variables and locations -/

/-- The context of a request with the variables evaluated so far. -/
def contextOf (state : ServerState) (peer : SocketAddr) (method : Method) (uri : Uri)
    (headers : HeaderMap) (userVars : HashMap String String) : RequestCtx where
  peer := peer
  serverName := state.serverName
  method := method
  uri := uri
  headers := headers
  scheme := state.scheme
  userVars := userVars

/-- The loop over the rules of a map: the first literal that is the source value, else the first
default. -/
def chooseRule (source : String) : List MapRule → (defaultRule : Option MapRule) → Option MapRule
  | [], defaultRule => defaultRule
  | r :: rest, defaultRule =>
      match r.pattern with
      | .literal s => if s = source then some r else chooseRule source rest defaultRule
      | .default => chooseRule source rest (defaultRule.or (some r))

/-- The value of a map in a context. -/
def mapValue (ctx : RequestCtx) (m : MapDecl) : String :=
  match chooseRule (m.source.render ctx) m.rules none with
  | some r => r.value.render ctx
  | none => ""

/-- The loop over the maps: each one sees the variables of those before it. -/
def evalMaps (context : HashMap String String → RequestCtx) (maps : List MapDecl) :
    HashMap String String :=
  maps.foldl (fun vars m => vars.insert m.outputName (mapValue (context vars) m)) ∅

/-- `ServerState::route`. -/
def route (state : ServerState) (path : String) : Option LocationRt :=
  match state.exactLocs.find? fun l => l.path == path with
  | some l => some l
  | none =>
      match state.regexLocs.find? fun entry => entry.1 path with
      | some entry => some entry.2
      | none =>
          -- the prefixes are kept in order of length, the longest first
          state.prefixLocs.find? fun l =>
            l.path == "/" || (Text.stripPrefix l.path path).isSome

/-! ## `allow` and `deny` -/

/-- The octets of an address. -/
def octets : IpAddr → List UInt8
  | .v4 a => [a.a, a.b, a.c, a.d]
  | .v6 a => a.segments.flatMap fun (s : UInt16) => [(s >>> 8).toUInt8, s.toUInt8]

/-- `mask_match`. -/
def maskMatch (base ip : List UInt8) (bits total : Nat) : Bool :=
  if bits > total then false
  else if bits = 0 then true
  else
    -- whole bytes first, then the high bits of the byte after them
    let fullBytes := bits / 8
    let tailBits := bits % 8
    if base.take fullBytes != ip.take fullBytes then false
    else if tailBits = 0 then true
    else
      let mask : UInt8 := 0xFF <<< UInt8.ofNat (8 - tailBits)
      (base.getD fullBytes 0 &&& mask) == (ip.getD fullBytes 0 &&& mask)

/-- `cidr_match`. -/
def cidrMatch (base : IpAddr) (bits : Nat) (ip : IpAddr) : Bool :=
  match base, ip with
  | .v4 _, .v4 _ => maskMatch (octets base) (octets ip) bits 32
  | .v6 _, .v6 _ => maskMatch (octets base) (octets ip) bits 128
  | _, _ => false

/-- `AccessTarget::matches`. -/
def targetMatches (target : AccessTarget) (ip : IpAddr) : Bool :=
  match target with
  | .all => true
  | .ip b => b == ip
  | .cidr base bits => cidrMatch base bits ip

/-- `access::check`: the first rule that matches decides, and no rule allows. -/
def accessCheck (rules : List AccessRule) (ip : IpAddr) : Bool :=
  match rules.find? fun r => targetMatches r.target ip with
  | some r => r.allow
  | none => true

/-! ## `auth_basic` -/

/-- `String::from_utf8`: decoding that replaces nothing. -/
def fromUtf8 (bs : Bytes) : Option String :=
  let s := fromUtf8Lossy bs
  if Text.utf8Bytes s = bs then some s else none

/-- `parse_authorization`. -/
def parseAuthorization (crates : Crates) (headers : HeaderMap) : Option String := do
  let value ← (headers.get "authorization").bind HeaderValue.toStr
  let (scheme, rest) ← Text.splitOnce ' ' value
  if Text.toAsciiLowercase scheme = "basic" then
    (crates.base64Decode (Text.trim rest)).bind fromUtf8
  else none

/-- `escape_quoted`. -/
def escapeQuoted (s : String) : String :=
  Text.replace '"' "\\\"" (Text.replace '\\' "\\\\" s)

/-- The `www-authenticate` header name. -/
def wwwAuthenticate : HeaderName := ⟨"www-authenticate", by decide⟩

/-- `challenge_response`. -/
def challengeResponse (realm : String) : Response :=
  let challenge := text 401 "401 Unauthorized\n"
  match HeaderValue.fromStr ("Basic realm=\"" ++ escapeQuoted realm ++ "\"") with
  | some v => { challenge with headers := challenge.headers.append wwwAuthenticate v }
  | none => challenge

/-- Whether the request has the credentials of a user. -/
def credentialsHold (crates : Crates) (auth : AuthBasic) (headers : HeaderMap) : Bool :=
  match (parseAuthorization crates headers).bind (Text.splitOnce ':') with
  | some (user, password) =>
      match auth.users.lookup user with
      | some hash => (crates.bcryptVerify password hash).getD false
      | none => false
  | none => false

/-- `auth::check`. -/
def authCheck (crates : Crates) (auth : AuthBasic) (headers : HeaderMap) : Except Response Unit :=
  if credentialsHold crates auth headers then .ok () else .error (challengeResponse auth.realm)

/-! ## Effects -/

/-- What comes of a subrequest. -/
inductive SubOutcome where
  | response (status : Nat)
  | failed
  | timedOut
deriving DecidableEq, Repr

/-- What a pipeline asks of the world outside. -/
inductive Effect where
  /-- `limit::enforce` -/
  | limitReq (zone : LimitReqZoneDecl) (burst : Nat) (ctx : RequestCtx)
  /-- `limit::enforce_conn` -/
  | limitConn (zone : LimitConnZoneDecl) (maxConn : Nat) (ctx : RequestCtx)
  /-- the drop of a `LimitConnGuard` -/
  | releaseConn (zone : LimitConnZoneDecl) (guard : LimitConnGuard)
  /-- a shadow request, whose response is discarded -/
  | mirror (request : Request)
  /-- the request of `auth_request`, under its time limit -/
  | subrequest (request : Request)
  /-- `static_files::serve` -/
  | serve (root : String) (kind : StaticKind) (path : String) (headers : HeaderMap)
      (method : Method) (autoindex : Bool)
  /-- `static_files::try_files` -/
  | tryFiles (root : String) (entries : List TryFilesEntry) (ctx : RequestCtx)
      (headers : HeaderMap) (method : Method)
  /-- `ProxyTarget::resolve` -/
  | resolve (target : ProxyTarget) (ctx : RequestCtx)
  /-- `proxy::forward` -/
  | forward (balancer : Balancer) (settings : Settings) (client : Option MtlsIdentity)
      (request : Request) (peer : SocketAddr) (ctx : RequestCtx)
  /-- `metrics::render` -/
  | renderMetrics
  /-- the seconds since the epoch, if the clock is not before it -/
  | now

/-- The answer to an effect. -/
def Effect.Answer : Effect → Type
  | .limitReq _ _ _ => Option Response
  | .limitConn _ _ _ => Except Response LimitConnGuard
  | .releaseConn _ _ => Unit
  | .mirror _ => Unit
  | .subrequest _ => SubOutcome
  | .serve _ _ _ _ _ _ => Response
  | .tryFiles _ _ _ _ _ => Response
  | .resolve _ _ => Option Balancer
  | .forward _ _ _ _ _ _ => Response
  | .renderMetrics => String
  | .now => Option Nat

/-- Computations of a request. -/
abbrev Pipeline (α : Type) : Type := Asks Effect Effect.Answer α

/-! ## Requests of its own -/

/-- The `authorization` header name. -/
def authorization : HeaderName := ⟨"authorization", by decide⟩

/-- The `cookie` header name. -/
def cookie : HeaderName := ⟨"cookie", by decide⟩

/-- The `user-agent` header name. -/
def userAgent : HeaderName := ⟨"user-agent", by decide⟩

/-- The `x-original-uri` header name. -/
def xOriginalUri : HeaderName := ⟨"x-original-uri", by decide⟩

/-- The `x-original-method` header name. -/
def xOriginalMethod : HeaderName := ⟨"x-original-method", by decide⟩

/-- The `x-elrond-mirror` header name. -/
def xElrondMirror : HeaderName := ⟨"x-elrond-mirror", by decide⟩

/-- `FORWARDED_HEADERS`. -/
def forwardedHeaders : List HeaderName := [authorization, cookie, userAgent]

/-- The headers of a request to another service: its agent, then the first line of each forwarded
header of the client. -/
def ownHeaders (agent : HeaderValue) (client : HeaderMap) : HeaderMap :=
  forwardedHeaders.foldl
    (fun h name => match client.get name.text with | some v => h.append name v | none => h)
    (HeaderMap.append ∅ userAgent agent)

/-- A value, or the empty value for a text that is none. -/
def valueOrEmpty (s : String) : HeaderValue := (HeaderValue.fromStr s).getD ⟨[], by decide⟩

/-! ## `auth_request` -/

/-- The request of `auth_request` to a parsed URL. -/
def authSubrequest (uri : Uri) (ctx : RequestCtx) (client : HeaderMap) : Request where
  method := .get
  uri := uri
  version := .http11
  headers :=
    let h := ownHeaders ⟨Text.utf8Bytes "elrond-auth-request", by decide⟩ client
    let h := h.append xOriginalUri (valueOrEmpty ctx.requestUri)
    h.append xOriginalMethod (valueOrEmpty ctx.method.asStr)
  body := emptyBody

/-- What the outcome of the subrequest means. -/
def authOutcome : SubOutcome → Except Response Unit
  | .response status =>
      if 200 ≤ status ∧ status < 300 then .ok ()
      else .error (text status (toString status ++ " (auth_request denied)\n"))
  | .failed => .error (text 500 "auth_request: subrequest connect / send error\n")
  | .timedOut => .error (text 504 "auth_request: subrequest timed out\n")

/-- `auth_request::check`. -/
def authRequestCheck (crates : Crates) (urlTemplate : Template) (ctx : RequestCtx)
    (client : HeaderMap) : Pipeline (Except Response Unit) :=
  let url := Text.trim (urlTemplate.render ctx)
  if url = "" then pure (.error (text 500 "auth_request: empty URL\n"))
  else
    match crates.parseUri url with
    | .error e =>
        pure (.error (text 500 ("auth_request: bad subrequest URL '" ++ url ++ "': " ++ e ++ "\n")))
    | .ok uri => do
        let outcome ← Asks.question (Effect.subrequest (authSubrequest uri ctx client))
        pure (authOutcome outcome)

/-! ## `mirror` -/

/-- The shadow request to a mirror, if its URL is one: `fire`. -/
def shadowRequest (crates : Crates) (ctx : RequestCtx) (client : HeaderMap) (method : Method)
    (template : Template) : Option Request :=
  let url := Text.trim (template.render ctx)
  if url = "" then none
  else
    match crates.parseUri url with
    -- a URL that does not parse is left out, and the others are still fired
    | .error _ => none
    | .ok uri =>
        some
          { method := method
            uri := uri
            version := .http11
            headers :=
              (ownHeaders ⟨Text.utf8Bytes "elrond-mirror", by decide⟩ client).append xElrondMirror
                ⟨Text.utf8Bytes "1", by decide⟩
            body := emptyBody }

/-- The shadow requests of a location. -/
def shadowRequests (crates : Crates) (loc : LocationRt) (ctx : RequestCtx) (client : HeaderMap)
    (method : Method) : List Request :=
  loc.mirrors.filterMap (shadowRequest crates ctx client method)

/-- Fire shadow requests. -/
def fireAll : List Request → Pipeline Unit
  | [] => pure ()
  | r :: rest => do
      Asks.question (Effect.mirror r)
      fireAll rest

/-- `mirror::dispatch`. -/
def mirrorDispatch (crates : Crates) (loc : LocationRt) (ctx : RequestCtx) (client : HeaderMap)
    (method : Method) : Pipeline Unit :=
  fireAll (shadowRequests crates loc ctx client method)

/-! ## Limits -/

/-- The `limit_req` step of a location: the response of a denial. -/
def limitReqStep (loc : LocationRt) (ctx : RequestCtx) : Pipeline (Option Response) :=
  match loc.limitReq with
  | some (zone, burst) => Asks.question (Effect.limitReq zone burst ctx)
  | none => pure none

/-- A connection slot, with the zone it is from. -/
abbrev Slot := LimitConnZoneDecl × LimitConnGuard

/-- The `limit_conn` step of a location: the slot, if the location limits connections. -/
def limitConnStep (loc : LocationRt) (ctx : RequestCtx) :
    Pipeline (Except Response (Option Slot)) :=
  match loc.limitConn with
  | some (zone, maxConn) => do
      match ← Asks.question (Effect.limitConn zone maxConn ctx) with
      | .ok guard => pure (.ok (some (zone, guard)))
      | .error denied => pure (.error denied)
  | none => pure (.ok none)

/-- Give a slot back. -/
def release : Option Slot → Pipeline Unit
  | some (zone, guard) => Asks.question (Effect.releaseConn zone guard)
  | none => pure ()

/-- The scope of `_conn_guard`: the slot is given back however the body ends. -/
def holding {α : Type} (slot : Option Slot) (body : Pipeline α) : Pipeline α := do
  let value ← body
  release slot
  pure value

end Elrond.Server
