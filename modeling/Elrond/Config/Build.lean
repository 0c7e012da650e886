import Elrond.Config.Values

/-!
# Lowering directives

`config/build.rs` from the directive tree to the typed configuration: locations, servers, streams,
the `http` block and the main context. A server block is read in two passes, the first of which only
looks for `root`, because a location without a content directive of its own serves that directory.
-/

set_option autoImplicit false

namespace Elrond.Config

open Elrond.Lib Elrond.Http Elrond.Request

/-! ## Locations -/

/-- `parse_location_pattern`. -/
def parseLocationPattern (args : List String) (line : Nat) :
    Except String (LocationKind × String) :=
  match args with
  | [] => .error s!"line {line}: 'location' requires a path pattern"
  | first :: rest =>
      match first with
      | "=" => do
          let p ← orError rest.head? s!"line {line}: 'location =' requires a path"
          .ok (.exact, p)
      | "~" => do
          let p ← orError rest.head? s!"line {line}: 'location ~' requires a regex pattern"
          .ok (.regex p false, p)
      | "~*" => do
          let p ← orError rest.head? s!"line {line}: 'location ~*' requires a regex pattern"
          .ok (.regex p true, p)
      | "^~" => do
          let p ← orError rest.head? s!"line {line}: 'location ^~' requires a path"
          .ok (.prefixed, p)
      | path => .ok (.prefixed, path)

/-- The local variables of `build_location`, with their initial values. -/
structure LocationDraft where
  action : Option Action := none
  setHeaders : List (String × Template) := []
  addHeaders : List (String × Template) := []
  expires : Option Text.Duration := none
  gzip : Option Bool := none
  autoindex : Bool := false
  tryFiles : Option (List TryFilesEntry) := none
  authBasicRealm : Option String := none
  authBasicUserFile : Option String := none
  limitReq : Option (String × Nat) := none
  limitConn : Option (String × Nat) := none
  accessRules : List (Bool × String) := []
  proxyConnectTimeout : Option Text.Duration := none
  proxyReadTimeout : Option Text.Duration := none
  authRequest : Option Template := none
  mirrors : List Template := []
  proxySslVerify : Bool := true
  proxySslCertificate : Option String := none
  proxySslCertificateKey : Option String := none
  proxyCache : Option String := none
  proxyCacheKey : Option Template := none
  proxyCacheValid : List (List Nat × Text.Duration) := []

/-- Directives a location accepts and ignores. -/
def ignoredInLocation : List String :=
  ["proxy_cache_bypass", "proxy_no_cache", "proxy_cache_lock", "proxy_cache_use_stale",
    "proxy_cache_revalidate", "proxy_cache_methods", "proxy_cache_min_uses", "limit_req_status",
    "limit_conn_status", "proxy_ssl_trusted_certificate", "proxy_ssl_server_name",
    "proxy_ssl_session_reuse", "proxy_ssl_protocols", "proxy_ssl_ciphers", "include", "index",
    "proxy_buffering", "proxy_send_timeout", "proxy_next_upstream", "proxy_hide_header",
    "proxy_pass_header", "proxy_redirect"]

/-- The header of a `proxy_set_header` or `add_header` line; a missing value is empty. -/
def headerDirective (d : Directive) : Except String (String × Template) := do
  let name ← arg1 d
  .ok (name, Template.parse (d.args[1]?.getD ""))

/-- The entries of `try_files`; a status may only stand last. -/
def tryFilesEntries (line : Nat) : List String → Except String (List TryFilesEntry)
  | [] => .ok []
  | raw :: rest =>
      match Text.stripPrefix "=" raw with
      | some code =>
          if rest.isEmpty then do
            let n ← orError (Text.parseUnsigned 16 code)
              s!"line {line}: invalid status code '{raw}' in try_files"
            .ok [.status n]
          else
            .error
              s!"line {line}: '=N' status is only valid as the last 'try_files' entry"
      | none => do
          let entries ← tryFilesEntries line rest
          .ok (.path (Template.parse raw) :: entries)

/-- One directive of a location: the draft after it, and the content directive it gives, if any. -/
def locationDirective (draft : LocationDraft) (d : Directive) :
    Except String (LocationDraft × Option Action) :=
  match d.name with
  | "return" => do
      let a ← arg1 d
      let status ← orError (Text.parseUnsigned 16 a) s!"line {d.line}: invalid status code"
      .ok (draft, some (.ret status (Template.parse (d.args[1]?.getD ""))))
  | "proxy_pass" => do
      let target ← arg1 d
      .ok (draft, some (.proxyPass target))
  | "root" => do
      let dir ← arg1 d
      .ok (draft, some (.root dir))
  | "alias" => do
      let dir ← arg1 d
      .ok (draft, some (.alias dir))
  | "metrics" => .ok (draft, some .metrics)
  | "proxy_set_header" => do
      let h ← headerDirective d
      .ok ({ draft with setHeaders := draft.setHeaders ++ [h] }, none)
  | "add_header" => do
      let h ← headerDirective d
      .ok ({ draft with addHeaders := draft.addHeaders ++ [h] }, none)
  | "expires" => do
      let v ← arg1 d
      let t ← orError (parseDuration v)
        s!"line {d.line}: invalid expires value '{v}' (expected e.g. '1h', '30d')"
      .ok ({ draft with expires := some t }, none)
  | "gzip" => do
      let on ← parseOnOff d.args.head? d.line
      .ok ({ draft with gzip := some on }, none)
  | "proxy_cache" => do
      let zone ← arg1 d
      .ok ({ draft with proxyCache := some zone }, none)
  | "proxy_cache_key" => do
      let key ← arg1 d
      .ok ({ draft with proxyCacheKey := some (Template.parse key) }, none)
  | "proxy_cache_valid" => do
      let rule ← parseCacheValid d.args d.line
      .ok ({ draft with proxyCacheValid := draft.proxyCacheValid ++ [rule] }, none)
  | "autoindex" => do
      let on ← parseOnOff d.args.head? d.line
      .ok ({ draft with autoindex := on }, none)
  | "auth_basic" => do
      let realm ← arg1 d
      .ok ({ draft with authBasicRealm := if realm = "off" then none else some realm }, none)
  | "auth_basic_user_file" => do
      let file ← arg1 d
      .ok ({ draft with authBasicUserFile := some file }, none)
  | "limit_req" => do
      let r ← parseLimitReq d.args d.line
      .ok ({ draft with limitReq := some r }, none)
  | "limit_conn" => do
      let r ← parseLimitConn d.args d.line
      .ok ({ draft with limitConn := some r }, none)
  | "allow" => do
      let target ← arg1 d
      .ok ({ draft with accessRules := draft.accessRules ++ [(true, target)] }, none)
  | "deny" => do
      let target ← arg1 d
      .ok ({ draft with accessRules := draft.accessRules ++ [(false, target)] }, none)
  | "proxy_connect_timeout" => do
      let v ← arg1 d
      let t ← orError (parseDuration v) s!"line {d.line}: invalid proxy_connect_timeout '{v}'"
      .ok ({ draft with proxyConnectTimeout := some t }, none)
  | "proxy_read_timeout" => do
      let v ← arg1 d
      let t ← orError (parseDuration v) s!"line {d.line}: invalid proxy_read_timeout '{v}'"
      .ok ({ draft with proxyReadTimeout := some t }, none)
  | "auth_request" => do
      let v ← arg1 d
      .ok ({ draft with authRequest := some (Template.parse v) }, none)
  | "mirror" => do
      let v ← arg1 d
      .ok ({ draft with mirrors := draft.mirrors ++ [Template.parse v] }, none)
  | "proxy_ssl_verify" => do
      let on ← parseOnOff d.args.head? d.line
      .ok ({ draft with proxySslVerify := on }, none)
  | "proxy_ssl_certificate" => do
      let v ← arg1 d
      .ok ({ draft with proxySslCertificate := some v }, none)
  | "proxy_ssl_certificate_key" => do
      let v ← arg1 d
      .ok ({ draft with proxySslCertificateKey := some v }, none)
  | "try_files" =>
      if d.args.length < 2 then
        .error s!"line {d.line}: 'try_files' needs at least two arguments"
      else do
        let entries ← tryFilesEntries d.line d.args
        .ok ({ draft with tryFiles := some entries }, none)
  | other =>
      if ignoredInLocation.contains other then .ok (draft, none)
      else .error s!"line {d.line}: unknown directive '{other}' in location context"

/-- One round of the loop of `build_location`: a second content directive is refused. -/
def locationStep (path : String) (draft : LocationDraft) (d : Directive) :
    Except String LocationDraft := do
  let (draft, candidate) ← locationDirective draft d
  match candidate with
  | none => .ok draft
  | some found =>
      if draft.action.isSome then
        .error s!"line {d.line}: location '{path}' has more than one content directive"
      else .ok { draft with action := some found }

/-- The action a location ends up with. -/
def locationAction (env : Externals) (path : String) (line : Nat) (serverRoot : Option String)
    (draft : LocationDraft) : Except String Action :=
  match draft.tryFiles with
  | some entries =>
      match draft.action with
      | some (.root dir) => .ok (.tryFiles dir entries)
      | some other =>
          .error (s!"line {line}: 'try_files' in location '{path}' " ++
            "cannot be combined with a content directive " ++
            "(" ++ env.debugAction other ++ "); only 'root' is allowed alongside it")
      | none =>
          match serverRoot with
          | some r => .ok (.tryFiles r entries)
          | none =>
              .error (s!"line {line}: 'try_files' in location '{path}' " ++
                "needs a 'root' (in this location or at the server level)")
  | none =>
      match draft.action, serverRoot with
      | some a, _ => .ok a
      | none, some r => .ok (.root r)
      | none, none =>
          .error (s!"line {line}: location '{path}' has no action " ++
            "(expected return, proxy_pass, root, or alias)")

/-- `build_location`. -/
def buildLocation (env : Externals) (path : String) (kind : LocationKind) (dirs : List Directive)
    (line : Nat) (serverRoot : Option String) : Except String Location := do
  let draft ← dirs.foldlM (locationStep path) {}
  let action ← locationAction env path line serverRoot draft
  if draft.authBasicRealm.isSome && draft.authBasicUserFile.isNone then
    .error (s!"line {line}: location '{path}' has 'auth_basic' but no " ++
      "'auth_basic_user_file'")
  else if draft.proxySslCertificate.isSome != draft.proxySslCertificateKey.isSome then
    .error (s!"line {line}: location '{path}' must set both 'proxy_ssl_certificate' " ++
      "and 'proxy_ssl_certificate_key' (mTLS to upstream) or neither")
  else
    .ok
      { kind := kind
        path := path
        action := action
        setHeaders := draft.setHeaders
        addHeaders := draft.addHeaders
        expires := draft.expires
        gzip := draft.gzip
        autoindex := draft.autoindex
        authBasicRealm := draft.authBasicRealm
        authBasicUserFile := draft.authBasicUserFile
        limitReq := draft.limitReq
        limitConn := draft.limitConn
        accessRules := draft.accessRules
        proxyConnectTimeout := draft.proxyConnectTimeout
        proxyReadTimeout := draft.proxyReadTimeout
        authRequest := draft.authRequest
        mirrors := draft.mirrors
        proxySslVerify := draft.proxySslVerify
        proxySslCertificate := draft.proxySslCertificate
        proxySslCertificateKey := draft.proxySslCertificateKey
        proxyCache := draft.proxyCache
        proxyCacheKey := draft.proxyCacheKey
        proxyCacheValid := draft.proxyCacheValid }

/-! ## Servers -/

/-- The `listen` line asks for TLS: it carries `ssl`, `http3` or `quic`. -/
def listenTls (d : Directive) : Bool :=
  d.args.any fun x => x == "ssl" || (x == "http3" || x == "quic")

/-- The `listen` line asks for HTTP/3: it carries `http3` or `quic`. -/
def listenHttp3 (d : Directive) : Bool := d.args.any fun x => x == "http3" || x == "quic"

/-- The address of a `listen` line. -/
def listenAddr (d : Directive) : Except String SocketAddr := do
  let a ← arg1 d
  parseListen a d.line

/-- The versions of an `ssl_protocols` line. -/
def parseTlsVersion (line : Nat) (a : String) : Except String TlsVersion :=
  match a with
  | "TLSv1.2" => .ok .tls12
  | "TLSv1.3" => .ok .tls13
  | other =>
      .error s!"line {line}: 'ssl_protocols' supports only TLSv1.2 / TLSv1.3 (got '{other}')"

/-- Directives a server accepts and ignores. -/
def ignoredInServer : List String :=
  ["ssl_ciphers", "ssl_prefer_server_ciphers", "ssl_session_cache", "ssl_session_timeout",
    "ssl_session_tickets", "ssl_dhparam", "ssl_ecdh_curve", "ssl_stapling", "gzip_disable",
    "gzip_comp_level", "gzip_proxied", "gzip_vary", "gzip_buffers", "root", "include",
    "access_log", "error_log", "index", "error_page"]

/-- One directive of the first pass over a server block. -/
def serverRootStep (root : Option String) (d : Directive) : Except String (Option String) :=
  if d.name = "root" then do
    let dir ← arg1 d
    .ok (some dir)
  else .ok root

/-- A `listen` line. The address of a later line replaces the earlier one; the flags stay. -/
def listenStep (s : Server) (d : Directive) : Except String Server := do
  let addr ← listenAddr d
  .ok { s with
    listen := some addr
    tls := s.tls || listenTls d
    http3 := s.http3 || listenHttp3 d }

/-- One directive of the second pass over a server block. -/
def serverStep (env : Externals) (s : Server) (d : Directive) : Except String Server :=
  match d.name with
  | "listen" => listenStep s d
  | "server_name" => .ok { s with serverName := d.args.head? }
  | "ssl_certificate" => do
      let v ← arg1 d
      .ok { s with sslCertificate := some v }
  | "ssl_certificate_key" => do
      let v ← arg1 d
      .ok { s with sslCertificateKey := some v }
  | "ssl_protocols" => do
      let vs ← d.args.mapM (parseTlsVersion d.line)
      .ok { s with sslProtocols := s.sslProtocols ++ vs }
  | "client_max_body_size" => do
      let v ← arg1 d
      let n ← orError (parseSize v) s!"line {d.line}: invalid client_max_body_size '{v}'"
      .ok { s with clientMaxBodySize := some n }
  | "gzip" => do
      let on ← parseOnOff d.args.head? d.line
      .ok { s with gzip := some on }
  | "gzip_types" => .ok { s with gzipTypes := s.gzipTypes ++ d.args.map env.toLowercase }
  | "add_header" => do
      let h ← headerDirective d
      .ok { s with addHeaders := s.addHeaders ++ [h] }
  | "gzip_min_length" => do
      let v ← arg1 d
      let n ← orError (parseSize v) s!"line {d.line}: invalid gzip_min_length '{v}'"
      .ok { s with gzipMinLength := some n }
  | "location" => do
      let (kind, path) ← parseLocationPattern d.args d.line
      let block ← expectBlock d
      let loc ← buildLocation env path kind block d.line s.root
      .ok { s with locations := s.locations ++ [loc] }
  | "return" =>
      .error (s!"line {d.line}: 'return' at server level is not supported; " ++
        "place it inside a location block")
  | other =>
      if ignoredInServer.contains other then .ok s
      else .error s!"line {d.line}: unknown directive '{other}' in server context"

/-- The checks at the end of `build_server`. -/
def checkServer (s : Server) : Except String Server :=
  match s.listen with
  | none => .error "a 'server' block is missing its 'listen' directive"
  | some addr =>
      if s.tls && (s.sslCertificate.isNone || s.sslCertificateKey.isNone) then
        .error ("'listen ... ssl' on " ++ addr.toText ++
          " requires both 'ssl_certificate' and 'ssl_certificate_key'")
      else .ok s

/-- `build_server`. -/
def buildServer (env : Externals) (dirs : List Directive) : Except String Server := do
  let root ← dirs.foldlM serverRootStep none
  let s ← dirs.foldlM (serverStep env) { root := root }
  checkServer s

/-! ## Streams -/

/-- One directive of a stream server block. -/
def streamServerStep (s : StreamServer) (d : Directive) : Except String StreamServer :=
  match d.name with
  | "listen" => do
      let a ← arg1 d
      if d.args.any (· == "ssl") then
        .error (s!"line {d.line}: 'listen ... ssl' in a stream server (TLS " ++
          "pass-through / termination) is not supported yet")
      else do
        let addr ← parseListen a d.line
        .ok { s with listen := some addr, udp := s.udp || d.args.any (· == "udp") }
  | "proxy_pass" => do
      let target ← arg1 d
      .ok { s with proxyPass := some target }
  | "include" | "proxy_timeout" | "proxy_connect_timeout" | "tcp_nodelay" => .ok s
  | other => .error s!"line {d.line}: unknown directive '{other}' in stream server context"

/-- `build_stream_server`. -/
def buildStreamServer (dirs : List Directive) : Except String StreamServer := do
  let s ← dirs.foldlM streamServerStep {}
  if s.listen.isNone then .error "a stream 'server' block is missing its 'listen' directive"
  else if s.proxyPass.isNone then .error "a stream 'server' block is missing 'proxy_pass'"
  else .ok s

/-- An `upstream` directive of the `http` or `stream` block. -/
def upstreamBlock (d : Directive) : Except String Upstream := do
  let name ← arg1 d
  let block ← expectBlock d
  buildUpstream name block d.line

/-- Directives a stream block accepts and ignores. -/
def ignoredInStream : List String :=
  ["include", "access_log", "error_log", "log_format", "proxy_timeout", "proxy_connect_timeout",
    "tcp_nodelay", "resolver"]

/-- One directive of the stream block. -/
def streamStep (st : StreamBlock) (d : Directive) : Except String StreamBlock :=
  match d.name with
  | "upstream" => do
      let up ← upstreamBlock d
      .ok { st with upstreams := st.upstreams ++ [up] }
  | "server" => do
      let block ← expectBlock d
      let s ← buildStreamServer block
      .ok { st with servers := st.servers ++ [s] }
  | other =>
      if ignoredInStream.contains other then .ok st
      else .error s!"line {d.line}: unknown directive '{other}' in stream context"

/-- `build_stream`. -/
def buildStream (dirs : List Directive) : Except String StreamBlock := dirs.foldlM streamStep {}

/-! ## The `http` block and the main context -/

/-- Directives the `http` block accepts and ignores. -/
def ignoredInHttp : List String :=
  ["include", "error_log", "sendfile", "tcp_nopush", "tcp_nodelay", "keepalive_timeout",
    "types_hash_max_size", "default_type", "gzip", "server_tokens", "client_max_body_size",
    "log_format", "types", "map_hash_bucket_size", "map_hash_max_size"]

/-- One directive of the `http` block. -/
def httpStep (env : Externals) (http : HttpBlock) (d : Directive) : Except String HttpBlock :=
  match d.name with
  | "access_log" => do
      let v ← arg1 d
      .ok { http with accessLog := some v }
  | "upstream" => do
      let up ← upstreamBlock d
      .ok { http with upstreams := http.upstreams ++ [up] }
  | "server" => do
      let block ← expectBlock d
      let s ← buildServer env block
      .ok { http with servers := http.servers ++ [s] }
  | "proxy_cache_path" => do
      let zone ← parseCachePath d.args d.line
      .ok { http with cacheZones := http.cacheZones ++ [zone] }
  | "limit_req_zone" => do
      let zone ← parseLimitReqZone env d.args d.line
      .ok { http with limitReqZones := http.limitReqZones ++ [zone] }
  | "limit_conn_zone" => do
      let zone ← parseLimitConnZone d.args d.line
      .ok { http with limitConnZones := http.limitConnZones ++ [zone] }
  | "map" => do
      let block ← expectBlock d
      let decl ← buildMap d.args block d.line
      .ok { http with maps := http.maps ++ [decl] }
  | other =>
      if ignoredInHttp.contains other then .ok http
      else .error s!"line {d.line}: unknown directive '{other}' in http context"

/-- `build_http`. -/
def buildHttp (env : Externals) (dirs : List Directive) : Except String HttpBlock :=
  dirs.foldlM (httpStep env) {}

/-- Directives the main context accepts and ignores. -/
def ignoredInMain : List String :=
  ["events", "include", "load_module", "daemon", "master_process", "worker_shutdown_timeout"]

/-- One directive of the main context. -/
def mainStep (env : Externals) (cfg : MainConfig) (d : Directive) : Except String MainConfig :=
  match d.name with
  | "worker_processes" => do
      let v ← arg1 d
      .ok { cfg with workerProcesses := some v }
  | "pid" => do
      let v ← arg1 d
      .ok { cfg with pid := some v }
  | "error_log" => do
      let v ← arg1 d
      .ok { cfg with errorLog := some v }
  | "http" => do
      let block ← expectBlock d
      let http ← buildHttp env block
      .ok { cfg with http := some http }
  | "stream" => do
      let block ← expectBlock d
      let stream ← buildStream block
      .ok { cfg with stream := some stream }
  | "user" =>
      match d.args with
      | [] => .error s!"line {d.line}: 'user' requires at least a user name"
      | user :: rest =>
          .ok { cfg with user := some user, group := rest.head?.or cfg.group }
  | "worker_rlimit_nofile" => do
      let v ← arg1 d
      let n ← orError (Text.parseUnsigned 64 v)
        s!"line {d.line}: 'worker_rlimit_nofile' expects an integer"
      .ok { cfg with workerRlimitNofile := some n }
  | other =>
      if ignoredInMain.contains other then .ok cfg
      else .error s!"line {d.line}: unknown directive '{other}' in main context"

/-- `build`. -/
def build (env : Externals) (dirs : List Directive) : Except String MainConfig :=
  dirs.foldlM (mainStep env) {}

end Elrond.Config
