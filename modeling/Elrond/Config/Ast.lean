import Elrond.Request.Template

/-!
# The typed configuration

The model that `config::build` produces and `app::build` consumes (`config/ast.rs`), and the
directive tree it is produced from (`config/parser.rs`). The types `Config`, `Http` and `Stream` of
the source are `MainConfig`, `HttpBlock` and `StreamBlock` here. Sizes and counts are natural
numbers below the bound of their machine type; the parsers that fill them check that bound. A rate
is an `f64` in the source; its finite values are exact rationals here.
-/

set_option autoImplicit false

namespace Elrond.Config

open Elrond.Lib Elrond.Http Elrond.Request

/-- `Directive`: a name, its arguments, an optional block, and the line of the name. -/
structure Directive where
  name : String
  args : List String
  block : Option (List Directive)
  line : Nat

/-- A floating-point number: not a number, an infinity, or a finite value. -/
inductive F64 where
  | nan
  | inf (negative : Bool)
  | finite (value : ℚ)
deriving DecidableEq

/-- Division by a positive number. -/
def F64.divNat : F64 → Nat → F64
  | .finite q, n => .finite (q / n)
  | x, _ => x

/-- `TlsVersion`. -/
inductive TlsVersion where
  | tls12
  | tls13
deriving DecidableEq, Repr

/-- `LbMethod`. -/
inductive LbMethod where
  | roundRobin
  | leastConn
  | ipHash
deriving DecidableEq, Repr

/-- `UpstreamServer` with its defaults. -/
structure UpstreamServer where
  addr : String
  weight : UInt32 := 1
  maxFails : UInt32 := 1
  failTimeout : Text.Duration := Text.fromSecs 10
  backup : Bool := false
  down : Bool := false
deriving DecidableEq, Repr

/-- `HealthCheckCfg` with its defaults. -/
structure HealthCheckCfg where
  uri : String := "/"
  interval : Text.Duration := Text.fromSecs 5
  timeout : Text.Duration := Text.fromSecs 2
  fails : Nat := 2
  passes : Nat := 2
  expectedStatus : Nat := 200
deriving DecidableEq, Repr

/-- `Upstream`. -/
structure Upstream where
  name : String
  method : LbMethod
  servers : List UpstreamServer
  healthCheck : Option HealthCheckCfg
deriving DecidableEq, Repr

/-- `MapPattern`. -/
inductive MapPattern where
  | literal (text : String)
  | default
deriving DecidableEq, Repr

/-- `MapRule`. -/
structure MapRule where
  pattern : MapPattern
  value : Template
deriving DecidableEq, Repr

/-- `MapDecl`. -/
structure MapDecl where
  source : Template
  outputName : String
  rules : List MapRule
deriving DecidableEq, Repr

/-- `LimitConnZoneDecl`. -/
structure LimitConnZoneDecl where
  name : String
  keyTemplate : Template
  maxEntries : Nat
deriving DecidableEq, Repr

/-- `LimitReqZoneDecl`. -/
structure LimitReqZoneDecl where
  name : String
  keyTemplate : Template
  ratePerSec : F64
  maxEntries : Nat
deriving DecidableEq

/-- `CacheZone`. -/
structure CacheZone where
  name : String
  maxBytes : Nat
deriving DecidableEq, Repr

/-- `LocationKind`. -/
inductive LocationKind where
  | exact
  | prefixed
  | regex (pattern : String) (caseInsensitive : Bool)
deriving DecidableEq, Repr

/-- `TryFilesEntry`. -/
inductive TryFilesEntry where
  | path (template : Template)
  | status (code : Nat)
deriving DecidableEq, Repr

/-- `Action`. -/
inductive Action where
  | ret (status : Nat) (body : Template)
  | proxyPass (target : String)
  | root (dir : String)
  | alias (dir : String)
  | metrics
  | tryFiles (root : String) (entries : List TryFilesEntry)
deriving DecidableEq, Repr

/-- `Location`. -/
structure Location where
  kind : LocationKind
  path : String
  action : Action
  setHeaders : List (String × Template)
  addHeaders : List (String × Template)
  expires : Option Text.Duration
  gzip : Option Bool
  autoindex : Bool
  authBasicRealm : Option String
  authBasicUserFile : Option String
  limitReq : Option (String × Nat)
  limitConn : Option (String × Nat)
  accessRules : List (Bool × String)
  proxyConnectTimeout : Option Text.Duration
  proxyReadTimeout : Option Text.Duration
  authRequest : Option Template
  mirrors : List Template
  proxySslVerify : Bool
  proxySslCertificate : Option String
  proxySslCertificateKey : Option String
  proxyCache : Option String
  proxyCacheKey : Option Template
  proxyCacheValid : List (List Nat × Text.Duration)
deriving DecidableEq, Repr

/-- `Server` with its defaults. -/
structure Server where
  listen : Option SocketAddr := none
  serverName : Option String := none
  root : Option String := none
  locations : List Location := []
  tls : Bool := false
  http3 : Bool := false
  sslCertificate : Option String := none
  sslCertificateKey : Option String := none
  sslProtocols : List TlsVersion := []
  gzip : Option Bool := none
  gzipTypes : List String := []
  gzipMinLength : Option Nat := none
  addHeaders : List (String × Template) := []
  clientMaxBodySize : Option Nat := none
deriving DecidableEq, Repr

/-- `Http` with its defaults. -/
structure HttpBlock where
  accessLog : Option String := none
  upstreams : List Upstream := []
  servers : List Server := []
  cacheZones : List CacheZone := []
  limitReqZones : List LimitReqZoneDecl := []
  limitConnZones : List LimitConnZoneDecl := []
  maps : List MapDecl := []
deriving DecidableEq

/-- `StreamServer` with its defaults. -/
structure StreamServer where
  listen : Option SocketAddr := none
  proxyPass : Option String := none
  udp : Bool := false
deriving DecidableEq, Repr

/-- `Stream` with its defaults. -/
structure StreamBlock where
  upstreams : List Upstream := []
  servers : List StreamServer := []
deriving DecidableEq, Repr

/-- `Config`: the main context, with its defaults. -/
structure MainConfig where
  workerProcesses : Option String := none
  pid : Option String := none
  errorLog : Option String := none
  user : Option String := none
  group : Option String := none
  workerRlimitNofile : Option Nat := none
  http : Option HttpBlock := none
  stream : Option StreamBlock := none
deriving DecidableEq

end Elrond.Config
