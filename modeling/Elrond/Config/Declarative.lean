import Elrond.Config.Build
import Elrond.Lib.Rearrange

/-!
# Blocks are declarative

`build_server` and `build_location` read a block directive by directive. What a directive adds does
not depend on the directives read before it: it is a patch (`serverPatch`, `locationPatch`), and the
step of the source applies that patch (`serverStep_eq`, `locationDirective_eq`). Patches of
directives with different names change different fields, so a block can be rearranged as long as
directives of one name, and the `allow` and `deny` lines of a location, keep their order
(`blocks_declarative`).
-/

set_option autoImplicit false

namespace Elrond.Config

open Elrond.Lib Elrond.Http Elrond.Request

/-! ## Server blocks -/

/-- What a directive adds to a server. -/
inductive ServerPatch where
  | listen (addr : SocketAddr) (tls http3 : Bool)
  | serverName (name : Option String)
  | sslCertificate (path : String)
  | sslCertificateKey (path : String)
  | sslProtocols (versions : List TlsVersion)
  | clientMaxBodySize (bytes : Nat)
  | gzip (on : Bool)
  | gzipTypes (types : List String)
  | addHeader (header : String × Template)
  | gzipMinLength (bytes : Nat)
  | location (loc : Location)
  | ignored

namespace ServerPatch

/-- The server with a patch applied. -/
def apply (s : Server) : ServerPatch → Server
  | .listen addr tls http3 =>
      { s with listen := some addr, tls := s.tls || tls, http3 := s.http3 || http3 }
  | .serverName name => { s with serverName := name }
  | .sslCertificate path => { s with sslCertificate := some path }
  | .sslCertificateKey path => { s with sslCertificateKey := some path }
  | .sslProtocols versions => { s with sslProtocols := s.sslProtocols ++ versions }
  | .clientMaxBodySize bytes => { s with clientMaxBodySize := some bytes }
  | .gzip on => { s with gzip := some on }
  | .gzipTypes types => { s with gzipTypes := s.gzipTypes ++ types }
  | .addHeader header => { s with addHeaders := s.addHeaders ++ [header] }
  | .gzipMinLength bytes => { s with gzipMinLength := some bytes }
  | .location loc => { s with locations := s.locations ++ [loc] }
  | .ignored => s

/-- The directive whose field a patch changes. -/
def owner : ServerPatch → Option String
  | .listen .. => some "listen"
  | .serverName _ => some "server_name"
  | .sslCertificate _ => some "ssl_certificate"
  | .sslCertificateKey _ => some "ssl_certificate_key"
  | .sslProtocols _ => some "ssl_protocols"
  | .clientMaxBodySize _ => some "client_max_body_size"
  | .gzip _ => some "gzip"
  | .gzipTypes _ => some "gzip_types"
  | .addHeader _ => some "add_header"
  | .gzipMinLength _ => some "gzip_min_length"
  | .location _ => some "location"
  | .ignored => none

/-- Patches of different owners commute. -/
theorem apply_comm {p q : ServerPatch} (h : p.owner = none ∨ q.owner = none ∨ p.owner ≠ q.owner)
    (s : Server) : q.apply (p.apply s) = p.apply (q.apply s) := by
  -- patches of two owners set different fields, those of one owner are excluded
  cases p <;> cases q <;> first | rfl | simp [owner] at h

@[simp] theorem apply_root (p : ServerPatch) (s : Server) : (p.apply s).root = s.root := by
  cases p <;> rfl

end ServerPatch

/-- What a directive adds to a server with the given root. -/
def serverPatch (env : Externals) (root : Option String) (d : Directive) :
    Except String ServerPatch :=
  match d.name with
  | "listen" => do
      let addr ← listenAddr d
      .ok (.listen addr (listenTls d) (listenHttp3 d))
  | "server_name" => .ok (.serverName d.args.head?)
  | "ssl_certificate" => (arg1 d).map .sslCertificate
  | "ssl_certificate_key" => (arg1 d).map .sslCertificateKey
  | "ssl_protocols" => (d.args.mapM (parseTlsVersion d.line)).map .sslProtocols
  | "client_max_body_size" => do
      let v ← arg1 d
      let n ← orError (parseSize v) s!"line {d.line}: invalid client_max_body_size '{v}'"
      .ok (.clientMaxBodySize n)
  | "gzip" => (parseOnOff d.args.head? d.line).map .gzip
  | "gzip_types" => .ok (.gzipTypes (d.args.map env.toLowercase))
  | "add_header" => (headerDirective d).map .addHeader
  | "gzip_min_length" => do
      let v ← arg1 d
      let n ← orError (parseSize v) s!"line {d.line}: invalid gzip_min_length '{v}'"
      .ok (.gzipMinLength n)
  | "location" => do
      let (kind, path) ← parseLocationPattern d.args d.line
      let block ← expectBlock d
      let loc ← buildLocation env path kind block d.line root
      .ok (.location loc)
  | "return" =>
      .error (s!"line {d.line}: 'return' at server level is not supported; " ++
        "place it inside a location block")
  | other =>
      if ignoredInServer.contains other then .ok .ignored
      else .error s!"line {d.line}: unknown directive '{other}' in server context"

theorem map_eq_bind {ε α β : Type} (x : Except ε α) (f : α → β) :
    x.map f = x >>= fun a => .ok (f a) := by
  cases x <;> rfl

/-- A step over a server block applies the patch of its directive. -/
theorem serverStep_eq (env : Externals) (s : Server) (d : Directive) :
    serverStep env s d = (serverPatch env s.root d).map (ServerPatch.apply s) := by
  unfold serverStep serverPatch
  split
  case h_13 =>
      simp only [*, map_eq_bind]
      split <;> rfl
  all_goals
    simp only [*, map_eq_bind, bind_assoc]
    rfl

/-- A directive changes its own field only. -/
theorem serverPatch_owner {env : Externals} {root : Option String} {d : Directive}
    {p : ServerPatch} (h : serverPatch env root d = .ok p) :
    p.owner = none ∨ p.owner = some d.name := by
  rw [serverPatch] at h
  split at h
  case h_12 => cases h
  case h_13 =>
      split at h
      · cases h
        exact Or.inl rfl
      · cases h
  all_goals
    simp only [map_eq_bind, bind_eq_ok, Except.ok.injEq] at h
    grind [ServerPatch.owner]

/-- Steps at directives with different names commute. -/
theorem serverStep_comm (env : Externals) (d d' : Directive) (hname : d.name ≠ d'.name)
    (s : Server) :
    ((serverStep env s d).toOption.bind fun s => (serverStep env s d').toOption) =
      (serverStep env s d').toOption.bind fun s => (serverStep env s d).toOption := by
  simp only [serverStep_eq, toOption_map]
  cases hp : serverPatch env s.root d with
  | error e => cases hq : serverPatch env s.root d' <;> simp [Except.toOption, hp]
  | ok p =>
      cases hq : serverPatch env s.root d' with
      | error e => simp [Except.toOption, hq]
      | ok q =>
          have howner : p.owner = none ∨ q.owner = none ∨ p.owner ≠ q.owner := by
            rcases serverPatch_owner hp with hp | hp
            · exact Or.inl hp
            · rcases serverPatch_owner hq with hq | hq
              · exact Or.inr (Or.inl hq)
              · refine Or.inr (Or.inr ?_)
                rw [hp, hq]
                simpa using hname
          simp [Except.toOption, hp, hq, ServerPatch.apply_comm howner s]

/-- The root pass only looks at `root` directives. -/
theorem serverRootStep_comm (d d' : Directive) (hname : d.name ≠ d'.name) (root : Option String) :
    ((serverRootStep root d).toOption.bind fun r => (serverRootStep r d').toOption) =
      (serverRootStep root d').toOption.bind fun r => (serverRootStep r d).toOption := by
  by_cases hd : d.name = "root"
  · have hd' : d'.name ≠ "root" := fun h => hname (hd.trans h.symm)
    cases h : arg1 d <;> simp [serverRootStep, hd, hd', h, Except.toOption, bind, Except.bind]
  · by_cases hd' : d'.name = "root"
    · cases h : arg1 d' <;> simp [serverRootStep, hd, hd', h, Except.toOption, bind, Except.bind]
    · simp [serverRootStep, hd, hd', Except.toOption]

/-! ## Location blocks -/

/-- What a directive other than a content directive sets in a location. -/
inductive LocationEdit where
  | setHeader (header : String × Template)
  | addHeader (header : String × Template)
  | expires (span : Text.Duration)
  | gzip (on : Bool)
  | proxyCache (zone : String)
  | proxyCacheKey (key : Template)
  | proxyCacheValid (rule : List Nat × Text.Duration)
  | autoindex (on : Bool)
  | authBasicRealm (realm : Option String)
  | authBasicUserFile (file : String)
  | limitReq (zone : String × Nat)
  | limitConn (zone : String × Nat)
  | access (allow : Bool) (target : String)
  | proxyConnectTimeout (span : Text.Duration)
  | proxyReadTimeout (span : Text.Duration)
  | authRequest (uri : Template)
  | mirror (uri : Template)
  | proxySslVerify (on : Bool)
  | proxySslCertificate (path : String)
  | proxySslCertificateKey (path : String)
  | tryFiles (entries : List TryFilesEntry)

namespace LocationEdit

/-- The draft with an edit made. -/
def apply (s : LocationDraft) : LocationEdit → LocationDraft
  | .setHeader header => { s with setHeaders := s.setHeaders ++ [header] }
  | .addHeader header => { s with addHeaders := s.addHeaders ++ [header] }
  | .expires span => { s with expires := some span }
  | .gzip on => { s with gzip := some on }
  | .proxyCache zone => { s with proxyCache := some zone }
  | .proxyCacheKey key => { s with proxyCacheKey := some key }
  | .proxyCacheValid rule => { s with proxyCacheValid := s.proxyCacheValid ++ [rule] }
  | .autoindex on => { s with autoindex := on }
  | .authBasicRealm realm => { s with authBasicRealm := realm }
  | .authBasicUserFile file => { s with authBasicUserFile := some file }
  | .limitReq zone => { s with limitReq := some zone }
  | .limitConn zone => { s with limitConn := some zone }
  | .access allow target => { s with accessRules := s.accessRules ++ [(allow, target)] }
  | .proxyConnectTimeout span => { s with proxyConnectTimeout := some span }
  | .proxyReadTimeout span => { s with proxyReadTimeout := some span }
  | .authRequest uri => { s with authRequest := some uri }
  | .mirror uri => { s with mirrors := s.mirrors ++ [uri] }
  | .proxySslVerify on => { s with proxySslVerify := on }
  | .proxySslCertificate path => { s with proxySslCertificate := some path }
  | .proxySslCertificateKey path => { s with proxySslCertificateKey := some path }
  | .tryFiles entries => { s with tryFiles := some entries }

/-- The directive that makes an edit; `allow` stands for `deny` too. -/
def owner : LocationEdit → String
  | .setHeader _ => "proxy_set_header"
  | .addHeader _ => "add_header"
  | .expires _ => "expires"
  | .gzip _ => "gzip"
  | .proxyCache _ => "proxy_cache"
  | .proxyCacheKey _ => "proxy_cache_key"
  | .proxyCacheValid _ => "proxy_cache_valid"
  | .autoindex _ => "autoindex"
  | .authBasicRealm _ => "auth_basic"
  | .authBasicUserFile _ => "auth_basic_user_file"
  | .limitReq _ => "limit_req"
  | .limitConn _ => "limit_conn"
  | .access .. => "allow"
  | .proxyConnectTimeout _ => "proxy_connect_timeout"
  | .proxyReadTimeout _ => "proxy_read_timeout"
  | .authRequest _ => "auth_request"
  | .mirror _ => "mirror"
  | .proxySslVerify _ => "proxy_ssl_verify"
  | .proxySslCertificate _ => "proxy_ssl_certificate"
  | .proxySslCertificateKey _ => "proxy_ssl_certificate_key"
  | .tryFiles _ => "try_files"

/-- Edits of different owners commute. -/
theorem apply_comm {e e' : LocationEdit} (h : e.owner ≠ e'.owner) (s : LocationDraft) :
    e'.apply (e.apply s) = e.apply (e'.apply s) := by
  cases e <;> cases e' <;> first | rfl | exact absurd rfl h

/-- An edit leaves the action alone, whatever it is. -/
theorem apply_action (e : LocationEdit) (s : LocationDraft) (a : Option Action) :
    e.apply { s with action := a } = { e.apply s with action := a } ∧
      (e.apply s).action = s.action := by
  cases e <;> exact ⟨rfl, rfl⟩

end LocationEdit

/-- What a directive adds to a location. -/
inductive LocationPatch where
  | content (action : Action)
  | edit (e : LocationEdit)
  | ignored

namespace LocationPatch

/-- The draft after a directive, and the content directive found. -/
def outcome (s : LocationDraft) : LocationPatch → LocationDraft × Option Action
  | .content action => (s, some action)
  | .edit e => (e.apply s, none)
  | .ignored => (s, none)

/-- The draft after a round of the loop; a second content directive is refused. -/
def apply (s : LocationDraft) : LocationPatch → Option LocationDraft
  | .content action => if s.action.isSome then none else some { s with action := some action }
  | .edit e => some (e.apply s)
  | .ignored => some s

/-- The directive whose field a patch changes. A content directive is not counted: two of them are
refused in either order. -/
def owner : LocationPatch → Option String
  | .content _ => none
  | .edit e => some e.owner
  | .ignored => none

/-- An edit and a content directive commute. -/
theorem content_edit_comm (a : Action) (e : LocationEdit) (s : LocationDraft) :
    (apply s (.content a)).bind (fun s => apply s (.edit e)) =
      (apply s (.edit e)).bind fun s => apply s (.content a) := by
  obtain ⟨hset, hkeep⟩ := e.apply_action s (some a)
  simp only [apply, Option.bind_some, hkeep]
  split
  · rfl
  · exact congrArg some hset

/-- Patches of different owners commute. -/
theorem apply_comm {p q : LocationPatch}
    (h : p.owner = none ∨ q.owner = none ∨ p.owner ≠ q.owner) (s : LocationDraft) :
    (p.apply s).bind (fun s => q.apply s) = (q.apply s).bind fun s => p.apply s := by
  cases p with
  | ignored => simp [apply]
  | content a =>
      cases q with
      | ignored => simp [apply]
      | content b =>
          simp only [apply]
          split <;> simp
      | edit e => exact content_edit_comm a e s
  | edit e =>
      cases q with
      | ignored => simp [apply]
      | content b => exact (content_edit_comm b e s).symm
      | edit e' =>
          have hne : e.owner ≠ e'.owner := by
            simpa [owner] using h
          simp only [apply, Option.bind_some, LocationEdit.apply_comm hne s]

end LocationPatch

/-- What a directive adds to a location. -/
def locationPatch (d : Directive) : Except String LocationPatch :=
  match d.name with
  | "return" => do
      let a ← arg1 d
      let status ← orError (Text.parseUnsigned 16 a) s!"line {d.line}: invalid status code"
      .ok (.content (.ret status (Template.parse (d.args[1]?.getD ""))))
  | "proxy_pass" => (arg1 d).map fun target => .content (.proxyPass target)
  | "root" => (arg1 d).map fun dir => .content (.root dir)
  | "alias" => (arg1 d).map fun dir => .content (.alias dir)
  | "metrics" => .ok (.content .metrics)
  | "proxy_set_header" => (headerDirective d).map fun h => .edit (.setHeader h)
  | "add_header" => (headerDirective d).map fun h => .edit (.addHeader h)
  | "expires" => do
      let v ← arg1 d
      let t ← orError (parseDuration v)
        s!"line {d.line}: invalid expires value '{v}' (expected e.g. '1h', '30d')"
      .ok (.edit (.expires t))
  | "gzip" => (parseOnOff d.args.head? d.line).map fun on => .edit (.gzip on)
  | "proxy_cache" => (arg1 d).map fun zone => .edit (.proxyCache zone)
  | "proxy_cache_key" => (arg1 d).map fun key => .edit (.proxyCacheKey (Template.parse key))
  | "proxy_cache_valid" =>
      (parseCacheValid d.args d.line).map fun rule => .edit (.proxyCacheValid rule)
  | "autoindex" => (parseOnOff d.args.head? d.line).map fun on => .edit (.autoindex on)
  | "auth_basic" =>
      (arg1 d).map fun realm =>
        .edit (.authBasicRealm (if realm = "off" then none else some realm))
  | "auth_basic_user_file" => (arg1 d).map fun file => .edit (.authBasicUserFile file)
  | "limit_req" => (parseLimitReq d.args d.line).map fun r => .edit (.limitReq r)
  | "limit_conn" => (parseLimitConn d.args d.line).map fun r => .edit (.limitConn r)
  | "allow" => (arg1 d).map fun target => .edit (.access true target)
  | "deny" => (arg1 d).map fun target => .edit (.access false target)
  | "proxy_connect_timeout" => do
      let v ← arg1 d
      let t ← orError (parseDuration v) s!"line {d.line}: invalid proxy_connect_timeout '{v}'"
      .ok (.edit (.proxyConnectTimeout t))
  | "proxy_read_timeout" => do
      let v ← arg1 d
      let t ← orError (parseDuration v) s!"line {d.line}: invalid proxy_read_timeout '{v}'"
      .ok (.edit (.proxyReadTimeout t))
  | "auth_request" => (arg1 d).map fun v => .edit (.authRequest (Template.parse v))
  | "mirror" => (arg1 d).map fun v => .edit (.mirror (Template.parse v))
  | "proxy_ssl_verify" =>
      (parseOnOff d.args.head? d.line).map fun on => .edit (.proxySslVerify on)
  | "proxy_ssl_certificate" => (arg1 d).map fun v => .edit (.proxySslCertificate v)
  | "proxy_ssl_certificate_key" => (arg1 d).map fun v => .edit (.proxySslCertificateKey v)
  | "try_files" =>
      if d.args.length < 2 then
        .error s!"line {d.line}: 'try_files' needs at least two arguments"
      else (tryFilesEntries d.line d.args).map fun entries => .edit (.tryFiles entries)
  | other =>
      if ignoredInLocation.contains other then .ok .ignored
      else .error s!"line {d.line}: unknown directive '{other}' in location context"

/-- A directive of a location has the outcome of its patch. -/
theorem locationDirective_eq (s : LocationDraft) (d : Directive) :
    locationDirective s d = (locationPatch d).map (LocationPatch.outcome s) := by
  unfold locationDirective locationPatch
  split
  case h_27 =>
      simp only [*, map_eq_bind]
      split
      · rfl
      · cases tryFilesEntries d.line d.args <;> rfl
  case h_28 =>
      simp only [*, map_eq_bind]
      split <;> rfl
  all_goals
    simp only [*, map_eq_bind, bind_assoc]
    rfl

/-- The order that matters in a location: that of the directives with one name, with `allow` and
`deny` taken together. -/
def locationKey (d : Directive) : String := if d.name = "deny" then "allow" else d.name

/-- A directive changes its own field only. -/
theorem locationPatch_owner {d : Directive} {p : LocationPatch} (h : locationPatch d = .ok p) :
    p.owner = none ∨ p.owner = some (locationKey d) := by
  rw [locationPatch] at h
  split at h
  case h_27 hname =>
      split at h
      · cases h
      · obtain ⟨entries, -, rfl⟩ := map_eq_ok.1 h
        exact Or.inr (by simp [LocationPatch.owner, LocationEdit.owner, locationKey, hname])
  case h_28 =>
      split at h
      · cases h
        exact Or.inl rfl
      · cases h
  all_goals
    simp only [map_eq_bind, bind_eq_ok, Except.ok.injEq] at h
    grind [LocationPatch.owner, LocationEdit.owner, locationKey]

/-- A round of the loop applies the patch of its directive. -/
theorem locationStep_toOption (path : String) (s : LocationDraft) (d : Directive) :
    (locationStep path s d).toOption =
      (locationPatch d).toOption.bind fun p => p.apply s := by
  rw [locationStep, locationDirective_eq]
  cases locationPatch d with
  | error e => rfl
  | ok p =>
      cases p with
      | edit e => rfl
      | ignored => rfl
      | content a =>
          -- both refuse a second content directive
          cases hsome : s.action.isSome <;>
            simp [Except.map, LocationPatch.outcome, bind, Except.bind, Except.toOption,
              LocationPatch.apply, hsome]

/-- Rounds at directives with different keys commute. -/
theorem locationStep_comm (path : String) (d d' : Directive) (hkey : locationKey d ≠ locationKey d')
    (s : LocationDraft) :
    ((locationStep path s d).toOption.bind fun s => (locationStep path s d').toOption) =
      (locationStep path s d').toOption.bind fun s => (locationStep path s d).toOption := by
  simp only [locationStep_toOption]
  cases hp : locationPatch d with
  | error e => simp [Except.toOption]
  | ok p =>
      cases hq : locationPatch d' with
      | error e => simp [Except.toOption]
      | ok q =>
          refine LocationPatch.apply_comm (p := p) (q := q) ?_ s
          rcases locationPatch_owner hp with hp | hp
          · exact Or.inl hp
          · rcases locationPatch_owner hq with hq | hq
            · exact Or.inr (Or.inl hq)
            · refine Or.inr (Or.inr ?_)
              rw [hp, hq]
              simpa using hkey

/-! ## Rearranged blocks -/

/-- **Configuration blocks are declarative.** A server block whose directives are permuted so that
those of one name keep their order gives the same server, or an error both times; so does a location
block, where the `allow` and `deny` lines keep their order among each other as well. -/
theorem blocks_declarative (env : Externals) (dirs dirs' : List Directive) :
    (Rearranged Directive.name dirs dirs' →
      Agree (buildServer env dirs) (buildServer env dirs')) ∧
    (Rearranged locationKey dirs dirs' → ∀ path kind line serverRoot,
      Agree (buildLocation env path kind dirs line serverRoot)
        (buildLocation env path kind dirs' line serverRoot)) := by
  constructor
  · intro h
    have hroot := h.foldlM_toOption_eq serverRootStep_comm none
    have hserver := h.foldlM_toOption_eq (serverStep_comm env)
    rw [agree_iff]
    simp only [buildServer, toOption_bind, hroot, hserver]
  · intro h path kind line serverRoot
    have hdraft := h.foldlM_toOption_eq (locationStep_comm path) {}
    rw [agree_iff]
    simp only [buildLocation, toOption_bind, hdraft]

end Elrond.Config
