import Elrond.Config.Build
import Elrond.Proxy.Forward

/-!
# The runtime model

The state that `app::build` lowers a configuration to (`app.rs`, `tls.rs`, `access.rs`): listeners
with their virtual hosts and TLS configurations, and stream listeners with their balancers.

Files, regular expressions and certificates are outside: `Host` gives what loading them results in.
A `ServerConfig` records what `rustls` is given, the protocol versions (an empty list keeps its
defaults), the certificates by name, and the application protocols on offer.
-/

set_option autoImplicit false

namespace Elrond.App

open Elrond.Lib Elrond.Http Elrond.Request Elrond.Config Elrond.Upstream Elrond.Proxy

/-! ## TLS -/

/-- `CertEntry`. -/
structure CertEntry where
  serverName : Option String
  certPath : String
  keyPath : String
deriving DecidableEq, Repr

/-- A certificate chain with its private key, in DER. -/
structure CertifiedKey where
  chain : List Bytes
  key : Bytes
deriving DecidableEq, Repr

/-- `SniResolver`. -/
structure SniResolver where
  byName : HashMap String CertifiedKey
  default : CertifiedKey

/-- `rustls::ServerConfig`, as far as the program sets it. -/
structure ServerConfig where
  protocols : List TlsVersion
  resolver : SniResolver
  alpn : List String

/-- What building a runtime uses from outside: certificate and password files, client identities,
and regular expressions. -/
structure Host where
  buildCertified : CertEntry → Except String CertifiedKey
  loadMtls : (cert key : String) → (verify : Bool) → Except String Unit
  loadUsers : (file : String) → Except String (HashMap String String)
  compileRegex : (pattern : String) → (caseInsensitive : Bool) → Except String (String → Bool)

/-- One entry of the loop that fills a resolver: the first certificate is the default, a later
certificate replaces an earlier one of the same name. -/
def resolverStep (host : Host) (acc : HashMap String CertifiedKey × Option CertifiedKey)
    (e : CertEntry) : Except String (HashMap String CertifiedKey × Option CertifiedKey) := do
  let ck ← host.buildCertified e
  let byName := match e.serverName with
    | some name => acc.1.insert (Text.toAsciiLowercase name) ck
    | none => acc.1
  .ok (byName, some (acc.2.getD ck))

/-- The resolver for a list of certificates; `message` is the error for an empty list. -/
def buildResolver (host : Host) (message : String) (entries : List CertEntry) :
    Except String SniResolver := do
  let (byName, default) ← entries.foldlM (resolverStep host) (∅, none)
  let default ← orError default message
  .ok ⟨byName, default⟩

/-- `build_server_config`. -/
def buildServerConfig (host : Host) (entries : List CertEntry) (protocols : List TlsVersion) :
    Except String ServerConfig := do
  let resolver ← buildResolver host "no TLS certificates configured for this listener" entries
  .ok ⟨protocols, resolver, ["h2", "http/1.1"]⟩

/-- `build_h3_server_config`. -/
def buildH3ServerConfig (host : Host) (entries : List CertEntry) : Except String ServerConfig := do
  let resolver ← buildResolver host
    "no TLS certificates configured for this HTTP/3 listener" entries
  .ok ⟨[.tls13], resolver, ["h3"]⟩

/-! ## Access rules -/

/-- `AccessTarget`. -/
inductive AccessTarget where
  | all
  | ip (addr : IpAddr)
  | cidr (base : IpAddr) (bits : Nat)
deriving DecidableEq, Repr

/-- `AccessRule`; `allow` tells the two actions apart. -/
structure AccessRule where
  allow : Bool
  target : AccessTarget
deriving DecidableEq, Repr

/-- The bits of an address of either family. -/
def addressBits : IpAddr → Nat
  | .v4 _ => 32
  | .v6 _ => 128

/-- `parse_target`. -/
def parseTarget (s : String) : Except String AccessTarget :=
  if s = "all" then .ok .all
  else
    match Text.splitOnce '/' s with
    | some (base, bits) => do
        let baseIp ← orError (IpAddr.parse base) s!"invalid CIDR base '{base}' in '{s}'"
        let n ← orError (Text.parseUnsigned 8 bits) s!"invalid CIDR prefix '{bits}' in '{s}'"
        if addressBits baseIp < n then
          .error ("CIDR prefix /" ++ toString n ++ " too large for " ++ baseIp.toText ++
            " (max /" ++ toString (addressBits baseIp) ++ ")")
        else .ok (.cidr baseIp n)
    | none => do
        let ip ← orError (IpAddr.parse s) s!"invalid address '{s}'"
        .ok (.ip ip)

/-! ## Listeners -/

/-- `StaticKind`. -/
inductive StaticKind where
  | root
  | alias (strip : String)
deriving DecidableEq, Repr

/-- `ActionRt`. -/
inductive ActionRt where
  | ret (status : Nat) (body : Template)
  | proxy (target : ProxyTarget) (setHeaders : List (HeaderName × Template))
      (cache : Option ProxyCache)
  | files (root : String) (kind : StaticKind)
  | metrics
  | tryFiles (root : String) (entries : List TryFilesEntry)

/-- `AuthBasic`. -/
structure AuthBasic where
  realm : String
  users : HashMap String String

/-- A client identity for upstreams, as `ProxyClient::with_mtls` is given it. -/
structure MtlsIdentity where
  cert : String
  key : String
  verify : Bool
deriving DecidableEq, Repr

/-- `LocationRt`. The zones of the limits are named by their declarations. -/
structure LocationRt where
  path : String
  action : ActionRt
  addHeaders : List (HeaderName × Template)
  expires : Option Text.Duration
  gzip : Option Bool
  autoindex : Bool
  auth : Option AuthBasic
  limitReq : Option (LimitReqZoneDecl × Nat)
  limitConn : Option (LimitConnZoneDecl × Nat)
  accessRules : List AccessRule
  proxyConnectTimeout : Option Text.Duration
  proxyReadTimeout : Option Text.Duration
  authRequest : Option Template
  mirrors : List Template
  proxySslVerify : Bool
  proxyClient : Option MtlsIdentity

/-- `ServerState`. -/
structure ServerState where
  serverName : Option String
  scheme : Scheme
  gzip : Bool
  gzipTypes : List String
  gzipMinLength : Nat
  maps : List MapDecl
  clientMaxBodySize : Nat
  h3AdvertisedPort : Option UInt16
  exactLocs : List LocationRt
  regexLocs : List ((String → Bool) × LocationRt)
  prefixLocs : List LocationRt

/-- `VirtualHost`. -/
structure VirtualHost where
  serverName : Option String
  state : ServerState

/-- `ListenerCfg`. -/
structure ListenerCfg where
  addr : SocketAddr
  vhosts : List VirtualHost
  tls : Option ServerConfig
  h3Tls : Option ServerConfig
  tlsPaths : List CertEntry

/-- `Runtime`. The flag of a stream listener is set for UDP. -/
structure Runtime where
  listeners : List ListenerCfg
  streamServers : List (SocketAddr × Balancer × Bool)

end Elrond.App
