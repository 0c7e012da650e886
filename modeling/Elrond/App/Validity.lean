import Elrond.App.Grouping

/-!
# What `build` refuses

`Buildable` says what a configuration needs before it can be served, part by part: servers with
addresses, no address with both kinds of blocks, and names, files and patterns that are valid
wherever the runtime uses them. Every part of `app::build` succeeds exactly if its part of the
condition holds (`buildLocationRt_succeeds_iff`, `buildVhost_succeeds_iff`,
`buildListeners_succeeds_iff`, `buildStreams_succeeds_iff`); the whole asks for an `http` block on
top of that (`build_succeeds_iff`), so configurations with nothing but a `stream` block are refused.
-/

set_option autoImplicit false

namespace Elrond.App

open Elrond.Lib Elrond.Http Elrond.Request Elrond.Config Elrond.Upstream Elrond.Proxy

/-! ## What a configuration needs -/

/-- The names of the headers can be sent. -/
def HeadersValid (items : List (String × Template)) : Prop :=
  ∀ item ∈ items, (HeaderName.tryFrom item.1).isSome = true

/-- The location proxies. -/
def Proxying (loc : Location) : Prop := ∃ target, loc.action = .proxyPass target

/-- What a location needs. -/
structure LocationValid (host : Host) (http : HttpBlock) (s : Server) (loc : Location) : Prop where
  cacheZone : Proxying loc → ∀ name, loc.proxyCache = some name →
    ∃ zone ∈ http.cacheZones, zone.name = name
  setHeaders : Proxying loc → HeadersValid loc.setHeaders
  users : ∀ realm file, loc.authBasicRealm = some realm → loc.authBasicUserFile = some file →
    Succeeds (host.loadUsers file)
  limitReq : ∀ name burst, loc.limitReq = some (name, burst) →
    ∃ zone ∈ http.limitReqZones, zone.name = name
  limitConn : ∀ name maxConn, loc.limitConn = some (name, maxConn) →
    ∃ zone ∈ http.limitConnZones, zone.name = name
  access : ∀ rule ∈ loc.accessRules, Succeeds (parseTarget rule.2)
  addHeaders : HeadersValid (s.addHeaders ++ loc.addHeaders)
  identity : ∀ cert key, loc.proxySslCertificate = some cert →
    loc.proxySslCertificateKey = some key → Succeeds (host.loadMtls cert key loc.proxySslVerify)
  regex : ∀ pattern caseInsensitive, loc.kind = .regex pattern caseInsensitive →
    Succeeds (host.compileRegex pattern caseInsensitive)

/-- The certificate and the key of a TLS server are given and load. -/
def CertificateLoads (host : Host) (s : Server) : Prop :=
  ∃ cert key, s.sslCertificate = some cert ∧ s.sslCertificateKey = some key ∧
    Succeeds (host.buildCertified ⟨s.serverName, cert, key⟩)

/-- What a server block needs. -/
structure ServerValid (host : Host) (http : HttpBlock) (s : Server) : Prop where
  listen : s.listen.isSome = true
  locations : ∀ loc ∈ s.locations, LocationValid host http s loc
  certificate : s.tls = true → CertificateLoads host s

/-- What an `http` block needs. -/
structure HttpValid (host : Host) (http : HttpBlock) : Prop where
  servers : ∀ s ∈ http.servers, ServerValid host http s
  unmixed : ∀ s ∈ http.servers, ∀ t ∈ http.servers, s.listen = t.listen → s.tls = t.tls

/-- What a server of the `stream` block needs. -/
structure StreamServerValid (s : StreamServer) : Prop where
  listen : s.listen.isSome = true
  proxyPass : s.proxyPass.isSome = true

/-- The server blocks of a configuration, of both kinds. -/
def httpServers (cfg : MainConfig) : List Server := (cfg.http.map HttpBlock.servers).getD []

def streamServers (cfg : MainConfig) : List StreamServer :=
  (cfg.stream.map StreamBlock.servers).getD []

/-- What a configuration needs to be served. -/
structure Buildable (host : Host) (cfg : MainConfig) : Prop where
  someServer : httpServers cfg ≠ [] ∨ streamServers cfg ≠ []
  http : ∀ http, cfg.http = some http → HttpValid host http
  stream : ∀ s ∈ streamServers cfg, StreamServerValid s

/-! ## Locations -/

theorem orError_succeeds_iff {α : Type} {v : Option α} {message : String} :
    Succeeds (orError v message) ↔ v.isSome = true := by
  cases v with
  | none => exact iff_of_false (not_succeeds_error message) (by simp)
  | some a => exact iff_of_true (succeeds_ok a) rfl

theorem compileHeaders_succeeds_iff (items : List (String × Template)) :
    Succeeds (compileHeaders items) ↔ HeadersValid items := by
  rw [compileHeaders, succeeds_mapM_iff]
  apply forall₂_congr
  rintro ⟨name, tmpl⟩ -
  exact succeeds_bind_ok.trans orError_succeeds_iff

/-- A table of declarations knows the declared names. -/
theorem lookup_declared {Z : Type} (nameOf : Z → String) (zones : List Z) (name : String) :
    ((HashMap.collect (zones.map fun z => (nameOf z, z))).lookup name).isSome = true ↔
      ∃ zone ∈ zones, nameOf zone = name := by
  rw [Option.isSome_iff_ne_none, ne_eq, HashMap.lookup_collect_eq_none, not_not, List.map_map,
    List.mem_map]
  rfl

theorem buildCache_succeeds_iff (zones : HashMap String CacheZone) (loc : Location) :
    Succeeds (buildCache zones loc) ↔
      ∀ name, loc.proxyCache = some name → (zones.lookup name).isSome = true := by
  rw [buildCache]
  cases loc.proxyCache with
  | none => exact iff_of_true (succeeds_ok _) (fun name h => by cases h)
  | some name =>
      refine (succeeds_bind_ok.trans orError_succeeds_iff).trans ?_
      simp only [Option.some.injEq, forall_eq']

theorem buildAction_succeeds_iff (zones : HashMap String CacheZone)
    (balancers : HashMap String Balancer) (loc : Location) :
    Succeeds (buildAction zones balancers loc) ↔
      (Proxying loc → ∀ name, loc.proxyCache = some name → (zones.lookup name).isSome = true) ∧
        (Proxying loc → HeadersValid loc.setHeaders) := by
  rw [← forall_and, ← buildCache_succeeds_iff, ← compileHeaders_succeeds_iff]
  rw [buildAction]
  cases haction : loc.action with
  | proxyPass target =>
      have hproxying : Proxying loc := ⟨target, haction⟩
      rw [forall_prop_of_true hproxying]
      exact succeeds_bind_iff_and fun cache _ => succeeds_bind_ok
  | _ =>
      -- only a proxying location can fail to be built
      refine iff_of_true (succeeds_ok _) ?_
      rintro ⟨target, htarget⟩
      rw [haction] at htarget
      cases htarget

theorem buildLimit_succeeds_iff {Z : Type} (directive : String) (zones : HashMap String Z)
    (limit : Option (String × Nat)) :
    Succeeds (buildLimit directive zones limit) ↔
      ∀ name n, limit = some (name, n) → (zones.lookup name).isSome = true := by
  rcases limit with _ | ⟨name, n⟩
  · exact iff_of_true (succeeds_ok _) (fun name n h => by cases h)
  · refine (succeeds_bind_ok.trans orError_succeeds_iff).trans ?_
    constructor
    · rintro h name' n' heq
      cases heq
      exact h
    · intro h
      exact h name n rfl

theorem buildAuth_succeeds_iff (host : Host) (loc : Location) :
    Succeeds (buildAuth host loc) ↔
      ∀ realm file, loc.authBasicRealm = some realm → loc.authBasicUserFile = some file →
        Succeeds (host.loadUsers file) := by
  rw [buildAuth]
  cases loc.authBasicRealm with
  | none => exact iff_of_true (succeeds_ok _) (fun realm file h => by cases h)
  | some realm =>
      cases loc.authBasicUserFile with
      | none => exact iff_of_true (succeeds_ok _) (fun realm file _ h => by cases h)
      | some file =>
          refine succeeds_bind_ok.trans ⟨?_, fun h => h realm file rfl rfl⟩
          rintro h realm' file' heq heq'
          cases heq
          cases heq'
          exact h

theorem buildClient_succeeds_iff (host : Host) (loc : Location) :
    Succeeds (buildClient host loc) ↔
      ∀ cert key, loc.proxySslCertificate = some cert → loc.proxySslCertificateKey = some key →
        Succeeds (host.loadMtls cert key loc.proxySslVerify) := by
  rw [buildClient]
  cases loc.proxySslCertificate with
  | none => exact iff_of_true (succeeds_ok _) (fun cert key h => by cases h)
  | some cert =>
      cases loc.proxySslCertificateKey with
      | none => exact iff_of_true (succeeds_ok _) (fun cert key _ h => by cases h)
      | some key =>
          refine succeeds_bind_ok.trans ⟨?_, fun h => h cert key rfl rfl⟩
          rintro h cert' key' heq heq'
          cases heq
          cases heq'
          exact h

theorem buildAccess_succeeds_iff (loc : Location) :
    Succeeds (buildAccess loc) ↔ ∀ rule ∈ loc.accessRules, Succeeds (parseTarget rule.2) := by
  rw [buildAccess, succeeds_mapM_iff]
  apply forall₂_congr
  rintro ⟨allow, target⟩ -
  cases htarget : parseTarget target with
  | ok t => simp only [htarget, succeeds_ok]
  | error e => simp only [htarget, not_succeeds_error]

/-- A location is built if each of its parts is. -/
theorem buildLocationRt_succeeds_iff (host : Host) (tables : Tables) (s : Server)
    (loc : Location) :
    Succeeds (buildLocationRt host tables s loc) ↔
      Succeeds (buildAction tables.cacheZones tables.balancers loc) ∧
        Succeeds (buildAuth host loc) ∧
        Succeeds (buildLimit "limit_req" tables.limitReqZones loc.limitReq) ∧
        Succeeds (buildLimit "limit_conn" tables.limitConnZones loc.limitConn) ∧
        Succeeds (buildAccess loc) ∧
        Succeeds (compileHeaders (s.addHeaders ++ loc.addHeaders)) ∧
        Succeeds (buildClient host loc) := by
  refine succeeds_bind_iff_and fun action _ => ?_
  refine succeeds_bind_iff_and fun auth _ => ?_
  refine succeeds_bind_iff_and fun limitReq _ => ?_
  refine succeeds_bind_iff_and fun limitConn _ => ?_
  refine succeeds_bind_iff_and fun rules _ => ?_
  refine succeeds_bind_iff_and fun addHeaders _ => ?_
  exact succeeds_bind_ok

/-- A built location is put in its list if its pattern compiles. -/
theorem locationRtStep_succeeds_iff (host : Host) (tables : Tables) (s : Server)
    (lists : LocationLists) (loc : Location) :
    Succeeds (locationRtStep host tables s lists loc) ↔
      Succeeds (buildLocationRt host tables s loc) ∧
        ∀ pattern caseInsensitive, loc.kind = .regex pattern caseInsensitive →
          Succeeds (host.compileRegex pattern caseInsensitive) := by
  refine succeeds_bind_iff_and fun rt _ => ?_
  cases loc.kind with
  | exact => exact iff_of_true (succeeds_ok _) (fun pattern ci h => by cases h)
  | prefixed => exact iff_of_true (succeeds_ok _) (fun pattern ci h => by cases h)
  | regex pattern caseInsensitive =>
      have hall : (∀ p ci, LocationKind.regex pattern caseInsensitive = .regex p ci →
          Succeeds (host.compileRegex p ci)) ↔
            Succeeds (host.compileRegex pattern caseInsensitive) := by
        refine ⟨fun h => h pattern caseInsensitive rfl, fun h p ci heq => ?_⟩
        cases heq
        exact h
      rw [hall]
      simp only
      cases host.compileRegex pattern caseInsensitive with
      | ok re => exact iff_of_true (succeeds_ok _) (succeeds_ok re)
      | error e => exact iff_of_false (not_succeeds_error _) (not_succeeds_error e)

/-- A location goes through exactly if it is valid. -/
theorem location_succeeds_iff (host : Host) (http : HttpBlock) (s : Server)
    (lists : LocationLists) (loc : Location) :
    Succeeds (locationRtStep host (buildTables http) s lists loc) ↔
      LocationValid host http s loc := by
  rw [locationRtStep_succeeds_iff, buildLocationRt_succeeds_iff, buildAction_succeeds_iff,
    buildAuth_succeeds_iff, buildLimit_succeeds_iff, buildLimit_succeeds_iff,
    buildAccess_succeeds_iff, compileHeaders_succeeds_iff, buildClient_succeeds_iff]
  simp only [buildTables, lookup_declared]
  constructor
  · rintro ⟨⟨⟨hcache, hset⟩, husers, hreq, hconn, haccess, hadd, hidentity⟩, hregex⟩
    exact ⟨hcache, hset, husers, hreq, hconn, haccess, hadd, hidentity, hregex⟩
  · intro h
    exact ⟨⟨⟨h.cacheZone, h.setHeaders⟩, h.users, h.limitReq, h.limitConn, h.access, h.addHeaders,
      h.identity⟩, h.regex⟩

/-! ## Server blocks -/

/-- The certificate and the key of a TLS server are given. -/
theorem certEntry_succeeds_iff (s : Server) :
    Succeeds (certEntry s) ↔
      (s.tls = true → s.sslCertificate.isSome = true ∧ s.sslCertificateKey.isSome = true) := by
  rw [certEntry]
  split
  · next htls =>
    rw [forall_prop_of_true htls, ← orError_succeeds_iff, ← orError_succeeds_iff]
    exact succeeds_bind_iff_and fun cert _ => succeeds_bind_ok
  · next htls => exact iff_of_true (succeeds_ok _) (fun h => absurd h htls)

theorem buildVhost_succeeds_iff (host : Host) (http : HttpBlock) (s : Server) :
    Succeeds (buildVhost host http s) ↔
      s.listen.isSome = true ∧ (∀ loc ∈ s.locations, LocationValid host http s loc) ∧
        Succeeds (certEntry s) := by
  rw [← orError_succeeds_iff, ← succeeds_foldlM_iff (location_succeeds_iff host http s)]
  refine succeeds_bind_iff_and fun addr _ => ?_
  exact succeeds_bind_iff_and fun lists _ => succeeds_bind_ok

/-! ## TLS configurations -/

theorem resolverStep_succeeds_iff (host : Host)
    (acc : HashMap String CertifiedKey × Option CertifiedKey) (e : CertEntry) :
    Succeeds (resolverStep host acc e) ↔ Succeeds (host.buildCertified e) :=
  succeeds_bind_ok

/-- A resolver is built from any certificates that load, if there are some. -/
theorem buildResolver_succeeds_iff (host : Host) (message : String) {entries : List CertEntry}
    (hsome : entries ≠ []) :
    Succeeds (buildResolver host message entries) ↔
      ∀ e ∈ entries, Succeeds (host.buildCertified e) := by
  rw [← succeeds_foldlM_iff (resolverStep_succeeds_iff host) (s := (∅, none)), ← and_true
    (Succeeds (entries.foldlM (resolverStep host) (∅, none)))]
  refine succeeds_bind_iff_and fun acc hacc => iff_of_true ?_ trivial
  -- every entry leaves a default behind
  have hdefault : entries ≠ [] → acc.2.isSome = true := by
    refine foldlM_induction (motive := fun read acc => read ≠ [] → acc.2.isSome = true) ?_ ?_ hacc
    · exact fun h => absurd rfl h
    · intro read e acc acc' _ hstep _
      obtain ⟨ck, -, hstep⟩ := bind_eq_ok.1 hstep
      obtain rfl := Except.ok.inj hstep
      rfl
  exact succeeds_bind_ok.2 (orError_succeeds_iff.2 (hdefault hsome))

/-- The certificates of a listener load. -/
theorem materializeOne_succeeds_iff (host : Host) (servers : List Server) (cfg : ListenerCfg) :
    Succeeds (materializeOne host servers cfg) ↔
      ∀ e ∈ cfg.tlsPaths, Succeeds (host.buildCertified e) := by
  rw [materializeOne]
  split
  · next hnone =>
    rw [List.isEmpty_iff.1 hnone]
    exact iff_of_true (succeeds_ok _) (fun e he => absurd he List.not_mem_nil)
  · next hsome =>
    have hsome : cfg.tlsPaths ≠ [] := fun h => hsome (List.isEmpty_iff.2 h)
    have hserver : Succeeds (buildServerConfig host cfg.tlsPaths
        (protocolsFor servers cfg.addr)) ↔ ∀ e ∈ cfg.tlsPaths, Succeeds (host.buildCertified e) :=
      succeeds_bind_ok.trans (buildResolver_succeeds_iff host _ hsome)
    have hh3 : Succeeds (buildH3ServerConfig host cfg.tlsPaths) ↔
        ∀ e ∈ cfg.tlsPaths, Succeeds (host.buildCertified e) :=
      succeeds_bind_ok.trans (buildResolver_succeeds_iff host _ hsome)
    rw [← and_self_iff (a := ∀ e ∈ cfg.tlsPaths, Succeeds (host.buildCertified e))]
    nth_rewrite 1 [← hserver]
    -- the configuration for HTTP/3 is made of the same certificates
    refine succeeds_bind_iff_and fun tls htls => ?_
    split
    · exact succeeds_bind_ok.trans hh3
    · exact iff_of_true (succeeds_ok _) (hserver.1 ⟨tls, htls⟩)

theorem materialize_succeeds_iff (host : Host) (servers : List Server)
    (o : IterOrder (SocketAddr × ListenerCfg)) (table : HashMap SocketAddr ListenerCfg) :
    Succeeds (materialize host servers o table) ↔
      ∀ a cfg, table.lookup a = some cfg →
        ∀ e ∈ cfg.tlsPaths, Succeeds (host.buildCertified e) := by
  have hstep : ∀ (t : HashMap SocketAddr ListenerCfg) (p : SocketAddr × ListenerCfg),
      Succeeds (do
        let cfg ← materializeOne host servers p.2
        .ok (t.insert p.1 cfg) : Except String (HashMap SocketAddr ListenerCfg)) ↔
      ∀ e ∈ p.2.tlsPaths, Succeeds (host.buildCertified e) :=
    fun t p => succeeds_bind_ok.trans (materializeOne_succeeds_iff host servers p.2)
  rw [materialize, succeeds_foldlM_iff hstep]
  constructor
  · intro h a cfg ha
    exact h (a, cfg) (HashMap.mem_iter.2 ha)
  · rintro h ⟨a, cfg⟩ hmem
    exact h a cfg (HashMap.mem_iter.1 hmem)

/-! ## Listeners -/

theorem group_succeeds_iff (xs : List Staged) : Succeeds (xs.foldlM groupStep {}) ↔ ¬ Mixed xs := by
  rw [← group_error_iff]
  cases xs.foldlM groupStep {} with
  | ok g => exact iff_of_true (succeeds_ok g) (fun ⟨e, h⟩ => by cases h)
  | error e => exact iff_of_false (not_succeeds_error e) (fun h => h ⟨e, rfl⟩)

/-- The certificates of grouped blocks are those of the blocks. -/
theorem group_certificates {xs : List Staged} {g : Grouped} (h : GroupSpec xs g)
    (Q : CertEntry → Prop) :
    (∀ a cfg, g.table.lookup a = some cfg → ∀ e ∈ cfg.tlsPaths, Q e) ↔
      ∀ x ∈ xs, ∀ e, x.cert = some e → Q e := by
  constructor
  · intro hall x hx e he
    -- the listener of a server holds its certificate among those of the same address
    have haddr : x.addr ∈ g.order := (h.mem_order x.addr).2 ⟨x, hx, rfl⟩
    refine hall x.addr (groupedCfg xs x.addr) (by rw [h.lookup, if_pos haddr]) e ?_
    exact List.mem_filterMap.2 ⟨x, List.mem_filter.2 ⟨hx, by simp⟩, he⟩
  · intro hall a cfg hcfg e he
    rw [h.lookup] at hcfg
    split at hcfg
    · cases hcfg
      obtain ⟨x, hx, hcert⟩ := List.mem_filterMap.1 he
      exact hall x (List.mem_filter.1 hx).1 e hcert
    · cases hcfg

/-- The certificate of a staged block is that of its server block. -/
theorem certificateLoads_iff {host : Host} {s : Server} {cert : Option CertEntry}
    (h : certEntry s = .ok cert) :
    (∀ e, cert = some e → Succeeds (host.buildCertified e)) ↔
      (s.tls = true → CertificateLoads host s) := by
  rw [certEntry] at h
  split at h
  · next htls =>
    obtain ⟨c, hc, h⟩ := bind_eq_ok.1 h
    obtain ⟨k, hk, h⟩ := bind_eq_ok.1 h
    obtain rfl := Except.ok.inj h
    have hc := orError_eq_ok.1 hc
    have hk := orError_eq_ok.1 hk
    rw [forall_prop_of_true htls]
    constructor
    · intro hload
      exact ⟨c, k, hc, hk, hload _ rfl⟩
    · -- the paths the certificate was read with are those of the server
      rintro ⟨c', k', hc', hk', hload⟩ e heq
      rw [hc] at hc'
      rw [hk] at hk'
      cases hc'
      cases hk'
      cases heq
      exact hload
  · next htls =>
    obtain rfl := Except.ok.inj h
    exact iff_of_true (fun e he => by cases he) (fun h => absurd h htls)

/-- An `http` block is built exactly if it is valid. -/
theorem buildListeners_succeeds_iff (host : Host) (o : IterOrder (SocketAddr × ListenerCfg))
    (http : HttpBlock) : Succeeds (buildListeners host o http) ↔ HttpValid host http := by
  have hstaged : ∀ xs, http.servers.mapM (buildVhost host http) = .ok xs →
      (Succeeds (do
          let g ← xs.foldlM groupStep {}
          let table ← materialize host http.servers o g.table
          .ok (g.order.filterMap fun a => table.lookup a) : Except String (List ListenerCfg)) ↔
        (∀ s ∈ http.servers, ∀ t ∈ http.servers, s.listen = t.listen → s.tls = t.tls) ∧
          ∀ s ∈ http.servers, s.tls = true → CertificateLoads host s) := by
    intro xs hxs
    have hall := mapM_forall₂ hxs
    have hunmixed : (∀ s ∈ http.servers, ∀ t ∈ http.servers, s.listen = t.listen → s.tls = t.tls) ↔
        Succeeds (xs.foldlM groupStep {}) := by
      rw [group_succeeds_iff, (stagedFrom hxs).mixed]
      simp only [not_exists, not_and, ne_eq, not_not]
    rw [hunmixed]
    refine succeeds_bind_iff_and fun g hg => ?_
    refine (succeeds_bind_ok.trans (materialize_succeeds_iff host http.servers o g.table)).trans ?_
    rw [group_certificates (group_spec hg)]
    constructor
    · intro h s hs
      obtain ⟨x, hx, hsx⟩ := forall₂_exists_right hall s hs
      exact (certificateLoads_iff (buildVhost_ok hsx).cert).1 (h x hx)
    · intro h x hx
      obtain ⟨s, hs, hsx⟩ := forall₂_exists_left hall x hx
      exact (certificateLoads_iff (buildVhost_ok hsx).cert).2 (h s hs)
  refine (succeeds_bind_iff_and hstaged).trans ?_
  rw [succeeds_mapM_iff]
  simp only [buildVhost_succeeds_iff]
  constructor
  · rintro ⟨hservers, hunmixed, hcerts⟩
    exact ⟨fun s hs => ⟨(hservers s hs).1, (hservers s hs).2.1, hcerts s hs⟩, hunmixed⟩
  · intro h
    refine ⟨fun s hs => ?_, h.unmixed, fun s hs => (h.servers s hs).certificate⟩
    refine ⟨(h.servers s hs).listen, (h.servers s hs).locations, ?_⟩
    -- a certificate that loads is given
    rw [certEntry_succeeds_iff]
    intro htls
    obtain ⟨cert, key, hcert, hkey, -⟩ := (h.servers s hs).certificate htls
    exact ⟨by rw [hcert]; rfl, by rw [hkey]; rfl⟩

/-- Listeners come from server blocks. -/
theorem listeners_eq_nil_iff {host : Host} {o : IterOrder (SocketAddr × ListenerCfg)}
    {http : HttpBlock} {ls : List ListenerCfg} (h : buildListeners host o http = .ok ls) :
    ls = [] ↔ http.servers = [] := by
  have hspec := buildListeners_spec h
  have hvalid := (buildListeners_succeeds_iff host o http).1 ⟨ls, h⟩
  rw [List.eq_nil_iff_forall_not_mem, List.eq_nil_iff_forall_not_mem]
  constructor
  · intro hnone s hs
    obtain ⟨a, ha⟩ := Option.isSome_iff_exists.1 (hvalid.servers s hs).listen
    obtain ⟨l, hl, -⟩ := (hspec.addrs a).2 ⟨s, hs, ha⟩
    exact hnone l hl
  · intro hnone l hl
    obtain ⟨s, hs, -⟩ := (hspec.addrs l.addr).1 ⟨l, hl, rfl⟩
    exact hnone s hs

/-! ## The whole -/

theorem buildStreamListener_succeeds_iff (balancers : HashMap String Balancer) (s : StreamServer) :
    Succeeds (buildStreamListener balancers s) ↔ StreamServerValid s := by
  have hparts : Succeeds (buildStreamListener balancers s) ↔
      s.listen.isSome = true ∧ s.proxyPass.isSome = true := by
    rw [← orError_succeeds_iff, ← orError_succeeds_iff]
    exact succeeds_bind_iff_and fun addr _ => succeeds_bind_ok
  rw [hparts]
  exact ⟨fun ⟨hlisten, hpass⟩ => ⟨hlisten, hpass⟩, fun h => ⟨h.listen, h.proxyPass⟩⟩

theorem buildStreams_succeeds_iff (cfg : MainConfig) :
    Succeeds (buildStreams cfg.stream) ↔ ∀ s ∈ streamServers cfg, StreamServerValid s := by
  rw [streamServers]
  cases cfg.stream with
  | none => exact iff_of_true (succeeds_ok _) (fun s hs => absurd hs List.not_mem_nil)
  | some st =>
      rw [buildStreams, succeeds_mapM_iff]
      exact forall₂_congr fun s _ => buildStreamListener_succeeds_iff _ s

theorem streamListeners_eq_nil_iff {cfg : MainConfig}
    {ss : List (SocketAddr × Balancer × Bool)} (h : buildStreams cfg.stream = .ok ss) :
    ss = [] ↔ streamServers cfg = [] := by
  rw [streamServers]
  cases hstream : cfg.stream with
  | none =>
      rw [hstream] at h
      obtain rfl := Except.ok.inj h
      exact iff_of_true rfl rfl
  | some st =>
      rw [hstream] at h
      have hlen := (mapM_forall₂ h).length_eq
      rw [← List.length_eq_zero_iff, ← hlen, List.length_eq_zero_iff]
      rfl

/-- What `build` asks for: an `http` block, and a configuration that can be served. -/
theorem build_succeeds_iff (host : Host) (o : IterOrder (SocketAddr × ListenerCfg))
    (cfg : MainConfig) :
    Succeeds (build host o cfg) ↔ cfg.http.isSome = true ∧ Buildable host cfg := by
  have hparts : Succeeds (build host o cfg) ↔ ∃ http, orError cfg.http
      "config has no 'http' block; nothing to serve" = .ok http ∧
        Succeeds (buildListeners host o http) ∧ Succeeds (buildStreams cfg.stream) ∧
          (http.servers ≠ [] ∨ streamServers cfg ≠ []) := by
    -- the listeners are built before it is asked whether there are any
    refine succeeds_bind_iff.trans (exists_congr fun http => and_congr_right fun _ => ?_)
    refine succeeds_bind_iff_and fun ls hls => succeeds_bind_iff_and fun ss hss => ?_
    rw [ne_eq, ne_eq, ← listeners_eq_nil_iff hls, ← streamListeners_eq_nil_iff hss, ← not_and_or]
    split
    · next hnone =>
      rw [Bool.and_eq_true, List.isEmpty_iff, List.isEmpty_iff] at hnone
      exact iff_of_false (not_succeeds_error _) (fun h => h hnone)
    · next hsome =>
      rw [Bool.and_eq_true, List.isEmpty_iff, List.isEmpty_iff] at hsome
      exact iff_of_true (succeeds_ok _) hsome
  rw [hparts]
  simp only [orError_eq_ok, buildListeners_succeeds_iff, buildStreams_succeeds_iff]
  constructor
  · rintro ⟨http, hhttp, hvalid, hstream, hsome⟩
    refine ⟨by rw [hhttp]; rfl, ?_, ?_, hstream⟩
    · rw [httpServers, hhttp]
      exact hsome
    · intro http' hhttp'
      rw [hhttp] at hhttp'
      cases hhttp'
      exact hvalid
  · rintro ⟨hhttp, h⟩
    obtain ⟨http, hhttp⟩ := Option.isSome_iff_exists.1 hhttp
    have hsome := h.someServer
    rw [httpServers, hhttp] at hsome
    exact ⟨http, hhttp, h.http http hhttp, h.stream, hsome⟩

/-- The configuration has valid `stream` servers and no `http` block. -/
def StreamOnly (cfg : MainConfig) : Prop :=
  cfg.http = none ∧ streamServers cfg ≠ [] ∧ ∀ s ∈ streamServers cfg, StreamServerValid s

/-- **What `build` refuses.** For every configuration, `build` succeeds exactly if the configuration
can be served, exactly if it does not consist of valid `stream` servers without an `http` block. -/
theorem build_succeeds_iff_buildable_iff (host : Host)
    (o : IterOrder (SocketAddr × ListenerCfg)) (cfg : MainConfig) :
    ((∃ rt, build host o cfg = .ok rt) ↔ Buildable host cfg) ↔ ¬ StreamOnly cfg := by
  have hbuild : (∃ rt, build host o cfg = .ok rt) ↔ cfg.http.isSome = true ∧ Buildable host cfg :=
    build_succeeds_iff host o cfg
  rw [hbuild]
  cases hhttp : cfg.http with
  | some http =>
      refine iff_of_true ⟨fun h => h.2, fun h => ⟨rfl, h⟩⟩ ?_
      rintro ⟨hnone, -⟩
      rw [hhttp] at hnone
      cases hnone
  | none =>
      -- without an `http` block what is left of buildability is a valid `stream` block
      have hbuildable : Buildable host cfg ↔ StreamOnly cfg := by
        constructor
        · intro h
          refine ⟨hhttp, h.someServer.resolve_left ?_, h.stream⟩
          rw [httpServers, hhttp]
          exact fun hne => hne rfl
        · rintro ⟨-, hsome, hvalid⟩
          refine ⟨Or.inr hsome, fun http hsome' => ?_, hvalid⟩
          rw [hhttp] at hsome'
          cases hsome'
      rw [hbuildable]
      constructor
      · intro h hstream
        exact absurd (h.2 hstream).1 Bool.false_ne_true
      · intro h
        exact ⟨fun hfalse => absurd hfalse.1 Bool.false_ne_true, fun hstream => absurd hstream h⟩

/-- A proxy for a database with one `stream` server and no `http` block. -/
def streamProxy : MainConfig :=
  { stream := some { servers := [{ listen := some httpsAddr, proxyPass := some "db" }] } }

/-- It can be served, and `build` refuses it. -/
theorem stream_only_is_refused :
    ¬ ((∃ rt, build loadingHost .stored streamProxy = .ok rt) ↔
      Buildable loadingHost streamProxy) := by
  intro h
  obtain ⟨rt, hrt⟩ := h.2 ⟨Or.inr (by decide), (fun http hhttp => by cases hhttp),
    (fun s hs => by
      obtain rfl := List.mem_singleton.1 hs
      exact ⟨rfl, rfl⟩)⟩
  cases hrt

end Elrond.App
