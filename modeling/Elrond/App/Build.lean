import Elrond.App.Runtime
import Elrond.Cache.Key

/-!
# Building the runtime

`app::build`: every server block becomes a virtual host (`buildVhost`), virtual hosts are grouped by
listen address (`groupStep`), and the listeners with certificates get their TLS configurations
(`materialize`). The table of listeners is a hash map that is iterated once, so `build` takes an
iteration order; it decides at most which of several errors is reported.
-/

set_option autoImplicit false

namespace Elrond.App

open Elrond.Lib Elrond.Http Elrond.Request Elrond.Config Elrond.Upstream Elrond.Proxy

/-! ## Locations -/

/-- `compile_headers`. -/
def compileHeaders (items : List (String × Template)) :
    Except String (List (HeaderName × Template)) :=
  items.mapM fun (name, tmpl) => do
    let h ← orError (HeaderName.tryFrom name)
      s!"invalid header name '{name}': invalid HTTP header name"
    .ok (h, tmpl)

/-- The cache of a proxying location. -/
def buildCache (zones : HashMap String CacheZone) (loc : Location) :
    Except String (Option ProxyCache) :=
  match loc.proxyCache with
  | none => .ok none
  | some zoneName => do
      let zone ← orError (zones.lookup zoneName)
        (s!"location uses proxy_cache '{zoneName}' but no proxy_cache_path " ++
          "declares that zone")
      .ok (some ⟨zone, Cache.keyTemplate loc.proxyCacheKey, loc.proxyCacheValid⟩)

/-- The action of a location. -/
def buildAction (zones : HashMap String CacheZone) (balancers : HashMap String Balancer)
    (loc : Location) : Except String ActionRt :=
  match loc.action with
  | .ret status body => .ok (.ret status body)
  | .root dir => .ok (.files dir .root)
  | .alias dir => .ok (.files dir (.alias loc.path))
  | .proxyPass target => do
      let cache ← buildCache zones loc
      let setHeaders ← compileHeaders loc.setHeaders
      .ok (.proxy (proxyTarget target balancers) setHeaders cache)
  | .metrics => .ok .metrics
  | .tryFiles root entries => .ok (.tryFiles root entries)

/-- A limit of a location: the declaration of its zone with the number given. -/
def buildLimit {Z : Type} (directive : String) (zones : HashMap String Z)
    (limit : Option (String × Nat)) : Except String (Option (Z × Nat)) :=
  match limit with
  | none => .ok none
  | some (zoneName, n) => do
      let zone ← orError (zones.lookup zoneName)
        (s!"location uses '{directive} zone={zoneName}' but no '{directive}_zone' " ++
          "declares that zone")
      .ok (some (zone, n))

/-- The tables a location is built from. -/
structure Tables where
  cacheZones : HashMap String CacheZone
  limitReqZones : HashMap String LimitReqZoneDecl
  limitConnZones : HashMap String LimitConnZoneDecl
  balancers : HashMap String Balancer

/-- The tables of an `http` block. -/
def buildTables (http : HttpBlock) : Tables where
  cacheZones := HashMap.collect (http.cacheZones.map fun z => (z.name, z))
  limitReqZones := HashMap.collect (http.limitReqZones.map fun z => (z.name, z))
  limitConnZones := HashMap.collect (http.limitConnZones.map fun z => (z.name, z))
  balancers := namedBalancers http.upstreams

/-- Password protection of a location, if it has a realm and a file. -/
def buildAuth (host : Host) (loc : Location) : Except String (Option AuthBasic) :=
  match loc.authBasicRealm, loc.authBasicUserFile with
  | some realm, some file => do
      let users ← host.loadUsers file
      .ok (some ⟨realm, users⟩)
  | _, _ => .ok none

/-- The access rules of a location. -/
def buildAccess (loc : Location) : Except String (List AccessRule) :=
  loc.accessRules.mapM fun (allow, target) =>
    match parseTarget target with
    | .ok t => .ok ⟨allow, t⟩
    | .error e => .error s!"location '{loc.path}': {e}"

/-- The client identity of a location, if it has a certificate and a key. -/
def buildClient (host : Host) (loc : Location) : Except String (Option MtlsIdentity) :=
  match loc.proxySslCertificate, loc.proxySslCertificateKey with
  | some cert, some key => do
      host.loadMtls cert key loc.proxySslVerify
      .ok (some ⟨cert, key, loc.proxySslVerify⟩)
  | _, _ => .ok none

/-- One location of a server block. -/
def buildLocationRt (host : Host) (tables : Tables) (s : Server) (loc : Location) :
    Except String LocationRt := do
  let action ← buildAction tables.cacheZones tables.balancers loc
  let auth ← buildAuth host loc
  let limitReq ← buildLimit "limit_req" tables.limitReqZones loc.limitReq
  let limitConn ← buildLimit "limit_conn" tables.limitConnZones loc.limitConn
  let rules ← buildAccess loc
  let addHeaders ← compileHeaders (s.addHeaders ++ loc.addHeaders)
  let client ← buildClient host loc
  .ok
    { path := loc.path
      action := action
      addHeaders := addHeaders
      expires := loc.expires
      gzip := loc.gzip
      autoindex := loc.autoindex
      auth := auth
      limitReq := limitReq
      limitConn := limitConn
      accessRules := rules
      proxyConnectTimeout := loc.proxyConnectTimeout
      proxyReadTimeout := loc.proxyReadTimeout
      authRequest := loc.authRequest
      mirrors := loc.mirrors
      proxySslVerify := loc.proxySslVerify
      proxyClient := client }

/-- The three location lists of a server while they are filled. -/
structure LocationLists where
  exactLocs : List LocationRt := []
  regexLocs : List ((String → Bool) × LocationRt) := []
  prefixLocs : List LocationRt := []

/-- Build a location and put it in its list. -/
def locationRtStep (host : Host) (tables : Tables) (s : Server) (lists : LocationLists)
    (loc : Location) : Except String LocationLists := do
  let rt ← buildLocationRt host tables s loc
  match loc.kind with
  | .exact => .ok { lists with exactLocs := lists.exactLocs ++ [rt] }
  | .prefixed => .ok { lists with prefixLocs := lists.prefixLocs ++ [rt] }
  | .regex pattern caseInsensitive =>
      match host.compileRegex pattern caseInsensitive with
      | .ok re => .ok { lists with regexLocs := lists.regexLocs ++ [(re, rt)] }
      | .error e => .error s!"location regex '{pattern}' is invalid: {e}"

/-! ## Virtual hosts -/

/-- The certificate of a TLS server. -/
def certEntry (s : Server) : Except String (Option CertEntry) :=
  if s.tls then do
    let cert ← orError s.sslCertificate "missing ssl_certificate for a TLS server"
    let key ← orError s.sslCertificateKey "missing ssl_certificate_key for a TLS server"
    .ok (some ⟨s.serverName, cert, key⟩)
  else .ok none

/-- `DEFAULT_CLIENT_MAX_BODY_SIZE`. -/
def defaultClientMaxBodySize : Nat := 1024 * 1024

/-- The addresses on which some server opts into HTTP/3. -/
def wantsH3 (servers : List Server) (addr : SocketAddr) : Bool :=
  servers.any fun s => s.http3 && s.listen == some addr

/-- A server block, staged for grouping: its address, its virtual host and its certificate. -/
structure Staged where
  addr : SocketAddr
  vhost : VirtualHost
  cert : Option CertEntry

/-- One server block. -/
def buildVhost (host : Host) (http : HttpBlock) (s : Server) : Except String Staged := do
  let addr ← orError s.listen "a 'server' block is missing its 'listen' directive"
  let lists ← s.locations.foldlM (locationRtStep host (buildTables http) s) {}
  let cert ← certEntry s
  let state : ServerState :=
    { serverName := s.serverName
      scheme := if s.tls then .https else .http
      gzip := s.gzip.getD false
      gzipTypes := s.gzipTypes
      gzipMinLength := s.gzipMinLength.getD 20
      maps := http.maps
      clientMaxBodySize := s.clientMaxBodySize.getD defaultClientMaxBodySize
      h3AdvertisedPort := if wantsH3 http.servers addr then some addr.port else none
      exactLocs := lists.exactLocs
      regexLocs := lists.regexLocs
      prefixLocs := lists.prefixLocs.mergeSort fun a b =>
        b.path.utf8ByteSize ≤ a.path.utf8ByteSize }
  .ok ⟨addr, ⟨s.serverName, state⟩, cert⟩

/-! ## Grouping by address -/

/-- The table of listeners while it is filled, with the addresses in order of appearance. -/
structure Grouped where
  table : HashMap SocketAddr ListenerCfg := ∅
  order : List SocketAddr := []

/-- Add a staged server block to the listener of its address. -/
def groupStep (g : Grouped) (x : Staged) : Except String Grouped :=
  let entry := HashMap.getOr g.table x.addr ⟨x.addr, [], none, none, []⟩
  let order := if (g.table.lookup x.addr).isSome then g.order else g.order ++ [x.addr]
  if !entry.vhosts.isEmpty && entry.tlsPaths.isEmpty != x.cert.isNone then
    .error ("listen " ++ x.addr.toText ++
      ": cannot mix TLS and plain HTTP server blocks on the same address")
  else
    .ok ⟨g.table.insert x.addr
      { entry with
        tlsPaths := entry.tlsPaths ++ x.cert.toList
        vhosts := entry.vhosts ++ [x.vhost] }, order⟩

/-! ## TLS configurations -/

/-- The `ssl_protocols` lists declared by the TLS servers of an address. -/
def declaredProtocols (servers : List Server) (addr : SocketAddr) : List (List TlsVersion) :=
  (servers.filter fun s => s.listen == some addr && s.tls && !s.sslProtocols.isEmpty).map
    Server.sslProtocols

/-- `Vec::dedup`: drop an element that equals the one before it. -/
def dedupAdjacent {α : Type} [DecidableEq α] : List α → List α
  | a :: b :: rest => if a = b then dedupAdjacent (b :: rest) else a :: dedupAdjacent (b :: rest)
  | rest => rest

/-- The order in which versions are sorted: TLS 1.3 last. -/
def versionLe (a b : TlsVersion) : Bool := !(a == .tls13) || b == .tls13

/-- The versions given to `build_server_config` for an address: all declared ones, sorted and
without repetition. -/
def protocolsFor (servers : List Server) (addr : SocketAddr) : List TlsVersion :=
  dedupAdjacent ((declaredProtocols servers addr).flatten.mergeSort versionLe)

/-- The TLS configurations of one listener. -/
def materializeOne (host : Host) (servers : List Server) (cfg : ListenerCfg) :
    Except String ListenerCfg :=
  if cfg.tlsPaths.isEmpty then .ok cfg
  else do
    let tls ← buildServerConfig host cfg.tlsPaths (protocolsFor servers cfg.addr)
    if wantsH3 servers cfg.addr then do
      let h3Tls ← buildH3ServerConfig host cfg.tlsPaths
      .ok { cfg with tls := some tls, h3Tls := some h3Tls }
    else .ok { cfg with tls := some tls }

/-- The loop over the table of listeners. -/
def materialize (host : Host) (servers : List Server)
    (o : IterOrder (SocketAddr × ListenerCfg)) (table : HashMap SocketAddr ListenerCfg) :
    Except String (HashMap SocketAddr ListenerCfg) :=
  (HashMap.iter table o).foldlM
    (fun t p => do
      let cfg ← materializeOne host servers p.2
      .ok (t.insert p.1 cfg))
    table

/-! ## The whole build -/

/-- The listeners of an `http` block. -/
def buildListeners (host : Host) (o : IterOrder (SocketAddr × ListenerCfg)) (http : HttpBlock) :
    Except String (List ListenerCfg) := do
  let staged ← http.servers.mapM (buildVhost host http)
  let g ← staged.foldlM groupStep {}
  let table ← materialize host http.servers o g.table
  .ok (g.order.filterMap fun a => table.lookup a)

/-- One server of the stream block. -/
def buildStreamListener (balancers : HashMap String Balancer) (s : StreamServer) :
    Except String (SocketAddr × Balancer × Bool) := do
  let addr ← orError s.listen "a stream 'server' is missing 'listen'"
  let target ← orError s.proxyPass "a stream 'server' is missing 'proxy_pass'"
  .ok (addr, resolveProxy target balancers, s.udp)

/-- The stream listeners. -/
def buildStreams (stream : Option StreamBlock) :
    Except String (List (SocketAddr × Balancer × Bool)) :=
  match stream with
  | none => .ok []
  | some st => st.servers.mapM (buildStreamListener (namedBalancers st.upstreams))

/-- `build`. -/
def build (host : Host) (o : IterOrder (SocketAddr × ListenerCfg)) (cfg : MainConfig) :
    Except String Runtime := do
  let http ← orError cfg.http "config has no 'http' block; nothing to serve"
  let listeners ← buildListeners host o http
  let streamServers ← buildStreams cfg.stream
  if listeners.isEmpty && streamServers.isEmpty then
    .error "config has no 'server' blocks (http or stream)"
  else .ok ⟨listeners, streamServers⟩

end Elrond.App
