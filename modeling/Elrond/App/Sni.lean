import Elrond.App.VirtualHosts

/-!
# Certificates by server name

`SniResolver::resolve` against `ListenerCfg::pick_state`. Both go by the lower-cased name and fall
back to the first block of the listener, but the resolver is a table in which a later block replaces
an earlier one of the same name, and the selection stops at the first. So the two agree on a name
exactly when the first and the last block of that name have the same certificate
(`sni_agrees_iff`).
-/

set_option autoImplicit false

namespace Elrond.App

open Elrond.Lib Elrond.Http Elrond.Request Elrond.Config Elrond.Upstream Elrond.Proxy

/-- `SniResolver::resolve`, from the server name the client sent. -/
def SniResolver.resolve (r : SniResolver) (serverName : Option String) : CertifiedKey :=
  match serverName with
  | some name => (r.byName.lookup (Text.toAsciiLowercase name)).getD r.default
  | none => r.default

/-- A TLS server block on an address: its virtual host and its certificate, which go by the same
name. -/
structure TlsBlock where
  vhost : VirtualHost
  cert : CertEntry
  sameName : cert.serverName = vhost.serverName

/-- What the loop has put into the resolver after the entries `read`. -/
structure ResolverRead (host : Host) (read : List CertEntry)
    (acc : HashMap String CertifiedKey × Option CertifiedKey) : Prop where
  loads : ∀ e ∈ read, ∃ ck, host.buildCertified e = .ok ck
  default : acc.2 = read.head?.bind fun e => (host.buildCertified e).toOption
  byName : ∀ key, acc.1.lookup key =
    (read.filter fun e => answersTo key e.serverName).getLast?.bind
      fun e => (host.buildCertified e).toOption

theorem resolverStep_read {host : Host} {read : List CertEntry} {e : CertEntry}
    {acc acc' : HashMap String CertifiedKey × Option CertifiedKey}
    (h : ResolverRead host read acc) (hstep : resolverStep host acc e = .ok acc') :
    ResolverRead host (read ++ [e]) acc' := by
  obtain ⟨ck, hck, hstep⟩ := bind_eq_ok.1 hstep
  obtain rfl := Except.ok.inj hstep
  refine ⟨?_, ?_, ?_⟩
  · intro e' he'
    rcases List.mem_append.1 he' with he' | he'
    · exact h.loads e' he'
    · obtain rfl := List.mem_singleton.1 he'
      exact ⟨ck, hck⟩
  -- the first certificate stays the default
  · cases hread : read with
    | nil => simp [h.default, hread, hck, Except.toOption]
    | cons e' rest =>
        obtain ⟨ck', hck'⟩ := h.loads e' (by simp [hread])
        simp [h.default, hread, hck', Except.toOption]
  · intro key
    cases hname : e.serverName with
    | none =>
        have hother : answersTo key e.serverName = false := by
          rw [hname]
          rfl
        simp [List.filter_append, hother, h.byName key]
    | some name =>
        rw [HashMap.lookup_insert_eq]
        -- a name that is met again replaces the certificate it had
        by_cases hkey : key = Text.toAsciiLowercase name
        · have hsame : answersTo key e.serverName = true := by
            simp [answersTo, hname, hkey]
          rw [if_pos hkey, List.filter_append, List.filter_singleton, hsame]
          simp [hck, Except.toOption]
        · have hother : answersTo key e.serverName = false := by
            simpa [answersTo, hname] using fun heq => hkey heq.symm
          simp [List.filter_append, hother, hkey, h.byName key]

/-- The resolver of a list of certificates: the default is the first of them, and a name gives the
last certificate of that name. -/
theorem buildResolver_resolve {host : Host} {message : String} {entries : List CertEntry}
    {r : SniResolver} (h : buildResolver host message entries = .ok r) (name : String) :
    (∀ e ∈ entries, ∃ ck, host.buildCertified e = .ok ck) ∧
    ∃ e, ((entries.filter fun e =>
        answersTo (Text.toAsciiLowercase name) e.serverName).getLast?.or entries.head?) = some e ∧
      host.buildCertified e = .ok (r.resolve (some name)) := by
  obtain ⟨⟨byName, default⟩, hfold, h⟩ := bind_eq_ok.1 h
  obtain ⟨ck, hdefault, h⟩ := bind_eq_ok.1 h
  obtain rfl := Except.ok.inj h
  have hread : ResolverRead host entries (byName, default) := by
    refine foldlM_induction (motive := ResolverRead host) ?_ ?_ hfold
    · exact ⟨by simp, rfl, fun key => rfl⟩
    · intro read e acc acc' hread hstep
      exact resolverStep_read hread hstep
  refine ⟨hread.loads, ?_⟩
  have hlookup := hread.byName (Text.toAsciiLowercase name)
  cases hlast : (entries.filter fun e =>
      answersTo (Text.toAsciiLowercase name) e.serverName).getLast? with
  | some e =>
      obtain ⟨ck', hck'⟩ := hread.loads e (List.mem_of_mem_filter (List.mem_of_getLast? hlast))
      rw [hlast] at hlookup
      refine ⟨e, rfl, ?_⟩
      simp [SniResolver.resolve, hlookup, hck', Except.toOption]
  | none =>
      rw [hlast] at hlookup
      have hfirst := hread.default
      rw [orError_eq_ok] at hdefault
      obtain ⟨e, he, hck⟩ := Option.bind_eq_some_iff.1 (hfirst.symm.trans hdefault)
      refine ⟨e, he, ?_⟩
      rw [toOption_eq_some] at hck
      simp [SniResolver.resolve, hlookup, hck]

/-- The certificate for a name is that of the block `pick_state` selects for it. -/
def SniAgrees (host : Host) (blocks : List TlsBlock) (name : String) (r : SniResolver) : Prop :=
  ∃ b, blocks[pickIndex (blocks.map TlsBlock.vhost) (some name)]? = some b ∧
    host.buildCertified b.cert = .ok (r.resolve (some name))

/-- The blocks that go by a name. -/
def blocksNamedBy (blocks : List TlsBlock) (name : String) : List TlsBlock :=
  blocks.filter fun b => answersTo (Text.toAsciiLowercase name) b.cert.serverName

/-- The first and the last block of a name have the same certificate. -/
def SameCertificate (host : Host) (blocks : List TlsBlock) (name : String) : Prop :=
  ∀ first last, (blocksNamedBy blocks name).head? = some first →
    (blocksNamedBy blocks name).getLast? = some last →
    host.buildCertified first.cert = host.buildCertified last.cert

/-- The block `pick_state` selects: the first of the name, else the first of all. -/
theorem pickIndex_getElem? (blocks : List TlsBlock) {name : String} (h : ':' ∉ name.toList) :
    blocks[pickIndex (blocks.map TlsBlock.vhost) (some name)]? =
      (blocksNamedBy blocks name).head?.or blocks.head? := by
  have hkey : hostKey name = Text.toAsciiLowercase name := hostKey_name (.name name h none) h
  have hidx : (blocks.map TlsBlock.vhost).findIdx?
        (fun v => answersTo (hostKey name) v.serverName) =
      blocks.findIdx? fun b => answersTo (Text.toAsciiLowercase name) b.cert.serverName := by
    rw [List.findIdx?_map, hkey]
    congr 1
    funext b
    exact congrArg _ b.sameName.symm
  rw [pickIndex, hidx, blocksNamedBy, List.head?_filter, List.find?_eq_bind_findIdx?_getElem?]
  cases hfound : blocks.findIdx? fun b =>
      answersTo (Text.toAsciiLowercase name) b.cert.serverName with
  | none => simp [List.head?_eq_getElem?]
  | some i =>
      obtain ⟨hi, -⟩ := List.findIdx?_eq_some_iff_getElem.1 hfound
      simp [List.getElem?_eq_getElem hi]

/-- One resolver against the selection. -/
theorem sniAgrees_iff {host : Host} {blocks : List TlsBlock} {message : String} {r : SniResolver}
    (h : buildResolver host message (blocks.map TlsBlock.cert) = .ok r) {name : String}
    (hname : ':' ∉ name.toList) :
    SniAgrees host blocks name r ↔ SameCertificate host blocks name := by
  obtain ⟨hloads, e, he, hck⟩ := buildResolver_resolve h name
  have hfilter : (blocks.map TlsBlock.cert).filter
      (fun e => answersTo (Text.toAsciiLowercase name) e.serverName) =
        (blocksNamedBy blocks name).map TlsBlock.cert := by
    rw [List.filter_map]
    rfl
  rw [hfilter, List.getLast?_map] at he
  rw [SniAgrees, pickIndex_getElem? blocks hname, SameCertificate]
  cases hlast : (blocksNamedBy blocks name).getLast? with
  | none =>
      -- nobody has the name, and both sides fall back to the first block
      have hnil := List.getLast?_eq_none_iff.1 hlast
      rw [hlast, Option.map_none, Option.none_or, List.head?_map] at he
      obtain ⟨b, hb, rfl⟩ := Option.map_eq_some_iff.1 he
      rw [hnil, List.head?_nil, Option.none_or]
      refine iff_of_true ⟨b, hb, hck⟩ ?_
      intro first last hfirst
      simp at hfirst
  | some last =>
      rw [hlast, Option.map_some, Option.some_or] at he
      obtain rfl := Option.some.inj he
      -- the resolver has the last certificate of the name, the selection its first block
      obtain ⟨first, hfirst⟩ : ∃ first, (blocksNamedBy blocks name).head? = some first := by
        cases hblocks : blocksNamedBy blocks name with
        | nil => simp [hblocks] at hlast
        | cons first rest => exact ⟨first, rfl⟩
      rw [hfirst, Option.some_or]
      constructor
      · rintro ⟨b, hb, hcert⟩ first' last' hfirst' hlast'
        cases hb
        cases hfirst'
        cases hlast'
        rw [hcert, hck]
      · intro hsame
        exact ⟨first, rfl, (hsame first last rfl rfl).trans hck⟩

/-- **Certificate and virtual host.** For every list of TLS server blocks on one address and every
host name, the certificate for the name is that of the block selected for it, on TCP and on HTTP/3,
exactly when the first and the last block of that name have the same certificate. -/
theorem sni_agrees_iff (host : Host) (blocks : List TlsBlock) (protocols : List TlsVersion)
    (tcp h3 : ServerConfig)
    (htcp : buildServerConfig host (blocks.map TlsBlock.cert) protocols = .ok tcp)
    (hh3 : buildH3ServerConfig host (blocks.map TlsBlock.cert) = .ok h3) (name : String)
    (hname : ':' ∉ name.toList) :
    (SniAgrees host blocks name tcp.resolver ↔ SameCertificate host blocks name) ∧
      (SniAgrees host blocks name h3.resolver ↔ SameCertificate host blocks name) := by
  obtain ⟨r, hr, htcp⟩ := bind_eq_ok.1 htcp
  obtain rfl := Except.ok.inj htcp
  obtain ⟨r₃, hr₃, hh3⟩ := bind_eq_ok.1 hh3
  obtain rfl := Except.ok.inj hh3
  exact ⟨sniAgrees_iff hr hname, sniAgrees_iff hr₃ hname⟩

/-! ## The TLS listeners of a runtime -/

theorem certEntry_serverName {s : Server} {c : CertEntry} (h : certEntry s = .ok (some c)) :
    c.serverName = s.serverName := by
  rw [certEntry] at h
  split at h
  · obtain ⟨cert, -, h⟩ := bind_eq_ok.1 h
    obtain ⟨key, -, h⟩ := bind_eq_ok.1 h
    cases h
    rfl
  · cases h

/-- Staged blocks that all speak TLS, as TLS blocks. -/
theorem exists_tlsBlocks {host : Host} {http : HttpBlock} {servers : List Server}
    {xs : List Staged} (h : List.Forall₂ (fun s x => buildVhost host http s = .ok x) servers xs)
    (htls : ∀ x ∈ xs, x.cert.isSome = true) :
    ∃ blocks : List TlsBlock, xs.map Staged.vhost = blocks.map TlsBlock.vhost ∧
      xs.filterMap Staged.cert = blocks.map TlsBlock.cert := by
  induction h with
  | nil => exact ⟨[], rfl, rfl⟩
  | @cons s x servers xs hx hrest ih =>
      obtain ⟨blocks, hvhosts, hcerts⟩ := ih fun y hy => htls y (List.mem_cons_of_mem x hy)
      obtain ⟨c, hc⟩ := Option.isSome_iff_exists.1 (htls x List.mem_cons_self)
      have hname : c.serverName = x.vhost.serverName := by
        rw [(buildVhost_ok hx).serverName]
        exact certEntry_serverName (hc ▸ (buildVhost_ok hx).cert)
      refine ⟨⟨x.vhost, c, hname⟩ :: blocks, ?_, ?_⟩
      · rw [List.map_cons, List.map_cons, hvhosts]
      · rw [List.filterMap_cons_some hc, List.map_cons, hcerts]

/-- The TLS configurations of a listener are built from its certificates. -/
theorem materializeOne_configs {host : Host} {servers : List Server} {cfg l : ListenerCfg}
    (h : materializeOne host servers cfg = .ok l) (htls : cfg.tls = none) (hh3 : cfg.h3Tls = none)
    {sc : ServerConfig} (hsc : l.tls = some sc) :
    buildServerConfig host cfg.tlsPaths sc.protocols = .ok sc ∧
      ∀ h3, l.h3Tls = some h3 → buildH3ServerConfig host cfg.tlsPaths = .ok h3 := by
  rw [materializeOne] at h
  split at h
  · obtain rfl := Except.ok.inj h
    rw [htls] at hsc
    cases hsc
  · obtain ⟨tls, hbuild, h⟩ := bind_eq_ok.1 h
    have hprotocols : tls.protocols = protocolsFor servers cfg.addr := by
      obtain ⟨r, -, hbuild⟩ := bind_eq_ok.1 hbuild
      cases hbuild
      rfl
    rw [← hprotocols] at hbuild
    split at h
    · obtain ⟨h3', hbuild3, h⟩ := bind_eq_ok.1 h
      cases h
      cases hsc
      exact ⟨hbuild, fun h3 hsome => by cases hsome; exact hbuild3⟩
    · cases h
      cases hsc
      exact ⟨hbuild, fun h3 hsome => by simp [hh3] at hsome⟩

/-- The TLS listeners of a runtime are made of TLS blocks, with the configurations of their
certificates. -/
theorem listener_tlsBlocks {host : Host} {o : IterOrder (SocketAddr × ListenerCfg)}
    {cfg : MainConfig} {rt : Runtime} (h : build host o cfg = .ok rt) {l : ListenerCfg}
    (hl : l ∈ rt.listeners) {sc : ServerConfig} (hsc : l.tls = some sc) :
    ∃ blocks : List TlsBlock, l.vhosts = blocks.map TlsBlock.vhost ∧
      buildServerConfig host (blocks.map TlsBlock.cert) sc.protocols = .ok sc ∧
      ∀ h3, l.h3Tls = some h3 → buildH3ServerConfig host (blocks.map TlsBlock.cert) = .ok h3 := by
  obtain ⟨http, hhttp, hls⟩ := build_listeners h
  obtain ⟨xs, grouped, hxs, hgrouped, hall⟩ := buildListeners_grouped hls
  obtain ⟨l₀, hl₀, hmat⟩ := forall₂_exists_left hall l hl
  rw [groupListeners_eq hgrouped] at hl₀
  obtain ⟨a, -, rfl⟩ := List.mem_map.1 hl₀
  obtain ⟨-, hvhosts, -, htls, -⟩ := materializeOne_spec hmat rfl rfl
  obtain ⟨g, hg, -⟩ := bind_eq_ok.1 hgrouped
  -- one block with a certificate makes all blocks of the address TLS blocks
  have huniform : ∀ x ∈ blocksAt xs a, x.cert.isSome = true := by
    rw [hsc, Option.isSome_some] at htls
    obtain ⟨y, hy, haddr, hcert⟩ := tlsPaths_groupedCfg_eq_nil.1 (by simpa using htls.symm)
    intro x hx
    obtain ⟨hmem, hxa⟩ := List.mem_filter.1 hx
    have hxa : x.addr = a := by simpa using hxa
    rw [(group_spec hg).uniform x hmem y hy (hxa.trans haddr.symm), hcert]
  obtain ⟨blocks, hmap, hcerts⟩ :=
    exists_tlsBlocks (forall₂_blocksAt (mapM_forall₂ hxs) a) huniform
  refine ⟨blocks, hvhosts.trans hmap, ?_⟩
  rw [← hcerts]
  exact materializeOne_configs hmat rfl rfl hsc

/-! ## Two blocks of one name -/

/-- A TLS block with a name and a certificate file. -/
def tlsBlockOf (name : Option String) (certPath : String) : TlsBlock where
  vhost :=
    { serverName := name
      state :=
        { serverName := name
          scheme := .https
          gzip := false
          gzipTypes := []
          gzipMinLength := 20
          maps := []
          clientMaxBodySize := defaultClientMaxBodySize
          h3AdvertisedPort := none
          exactLocs := []
          regexLocs := []
          prefixLocs := [] } }
  cert := ⟨name, certPath, "key.pem"⟩
  sameName := rfl

/-- A host where every certificate file loads, to a chain that tells the files apart. -/
def certHost : Host :=
  { loadingHost with buildCertified := fun e => .ok ⟨[Text.utf8Bytes e.certPath], []⟩ }

/-- Two blocks with one name and different certificates: the name gets the certificate of the second
and the state of the first, on TCP and on HTTP/3. -/
theorem repeated_name_disagrees :
    ∃ tcp h3,
      buildServerConfig certHost
          ([tlsBlockOf (some "www.test") "a.pem", tlsBlockOf (some "WWW.test") "b.pem"].map
            TlsBlock.cert) [] = .ok tcp ∧
      buildH3ServerConfig certHost
          ([tlsBlockOf (some "www.test") "a.pem", tlsBlockOf (some "WWW.test") "b.pem"].map
            TlsBlock.cert) = .ok h3 ∧
      ¬ SniAgrees certHost
          [tlsBlockOf (some "www.test") "a.pem", tlsBlockOf (some "WWW.test") "b.pem"] "www.test"
          tcp.resolver ∧
      ¬ SniAgrees certHost
          [tlsBlockOf (some "www.test") "a.pem", tlsBlockOf (some "WWW.test") "b.pem"] "www.test"
          h3.resolver := by
  have hdiffer : ¬ SameCertificate certHost
      [tlsBlockOf (some "www.test") "a.pem", tlsBlockOf (some "WWW.test") "b.pem"] "www.test" := by
    intro h
    have hsame := h (tlsBlockOf (some "www.test") "a.pem") (tlsBlockOf (some "WWW.test") "b.pem")
      rfl rfl
    revert hsame
    decide
  refine ⟨_, _, rfl, rfl, ?_, ?_⟩
  · exact mt (sniAgrees_iff (show buildResolver certHost "" _ = _ from rfl) (by decide)).1 hdiffer
  · exact mt (sniAgrees_iff (show buildResolver certHost "" _ = _ from rfl) (by decide)).1 hdiffer

/-- Blocks with different names: each name gets the certificate and the state of its block. -/
theorem distinct_names_agree :
    ∃ tcp h3,
      buildServerConfig certHost
          ([tlsBlockOf none "a.pem", tlsBlockOf (some "www.test") "b.pem"].map TlsBlock.cert) [] =
        .ok tcp ∧
      buildH3ServerConfig certHost
          ([tlsBlockOf none "a.pem", tlsBlockOf (some "www.test") "b.pem"].map TlsBlock.cert) =
        .ok h3 ∧
      SniAgrees certHost [tlsBlockOf none "a.pem", tlsBlockOf (some "www.test") "b.pem"] "WWW.test"
        tcp.resolver ∧
      SniAgrees certHost [tlsBlockOf none "a.pem", tlsBlockOf (some "www.test") "b.pem"] "WWW.test"
        h3.resolver := by
  have hsame : SameCertificate certHost
      [tlsBlockOf none "a.pem", tlsBlockOf (some "www.test") "b.pem"] "WWW.test" := by
    intro first last hfirst hlast
    cases hfirst
    cases hlast
    rfl
  have hboth := sni_agrees_iff certHost
    [tlsBlockOf none "a.pem", tlsBlockOf (some "www.test") "b.pem"] [] _ _ rfl rfl "WWW.test"
    (by decide)
  exact ⟨_, _, rfl, rfl, hboth.1.2 hsame, hboth.2.2 hsame⟩

end Elrond.App
