import Elrond.App.Build
import Elrond.Config.Listen
import Elrond.Lib.Fallible

/-!
# The listeners of a runtime

What `app::build` makes of the server blocks of a configuration. Each is staged with its address,
certificate, settings and locations (`VhostSpec`). Grouping collects the blocks of an address in
declaration order and refuses an address that mixes TLS and plain blocks (`GroupSpec`); the loop
over the table then changes every listener once, whatever its order (`lookup_materialize`).
Together they describe the listeners of a successful build (`buildListeners_spec`), from which
follow the addresses that are listened on, which of them speak TLS and HTTP/3, and the TLS versions
each is given (`strictest_iff_agree`).
-/

set_option autoImplicit false

namespace Elrond.App

open Elrond.Lib Elrond.Http Elrond.Request Elrond.Config Elrond.Upstream Elrond.Proxy

/-! ## Server blocks -/

/-- A built location has the path and the `gzip` setting of its declaration, and the action built
from it. -/
theorem buildLocationRt_ok {host : Host} {tables : Tables} {s : Server} {loc : Location}
    {rt : LocationRt} (h : buildLocationRt host tables s loc = .ok rt) :
    buildAction tables.cacheZones tables.balancers loc = .ok rt.action ∧
      rt.path = loc.path ∧ rt.gzip = loc.gzip := by
  rw [buildLocationRt] at h
  obtain ⟨action, haction, h⟩ := bind_eq_ok.1 h
  obtain ⟨auth, -, h⟩ := bind_eq_ok.1 h
  obtain ⟨limitReq, -, h⟩ := bind_eq_ok.1 h
  obtain ⟨limitConn, -, h⟩ := bind_eq_ok.1 h
  obtain ⟨rules, -, h⟩ := bind_eq_ok.1 h
  obtain ⟨addHeaders, -, h⟩ := bind_eq_ok.1 h
  obtain ⟨client, -, h⟩ := bind_eq_ok.1 h
  obtain rfl := Except.ok.inj h
  exact ⟨haction, rfl, rfl⟩

/-- What a staged block has of its server: the address and the certificate, the settings of the
virtual host, and the built locations in the list of their kind, the prefixes sorted. -/
structure VhostSpec (host : Host) (http : HttpBlock) (s : Server) (x : Staged) : Prop where
  addr : s.listen = some x.addr
  cert : certEntry s = .ok x.cert
  serverName : x.vhost.serverName = s.serverName
  gzip : x.vhost.state.gzip = s.gzip.getD false
  clientMaxBodySize :
    x.vhost.state.clientMaxBodySize = s.clientMaxBodySize.getD defaultClientMaxBodySize
  h3AdvertisedPort : x.vhost.state.h3AdvertisedPort =
    if wantsH3 http.servers x.addr then some x.addr.port else none
  locations : ∃ lists, s.locations.foldlM (locationRtStep host (buildTables http) s) {} = .ok lists ∧
    x.vhost.state.exactLocs = lists.exactLocs ∧ x.vhost.state.regexLocs = lists.regexLocs ∧
    x.vhost.state.prefixLocs = lists.prefixLocs.mergeSort fun a b =>
      b.path.utf8ByteSize ≤ a.path.utf8ByteSize

theorem buildVhost_ok {host : Host} {http : HttpBlock} {s : Server} {x : Staged}
    (h : buildVhost host http s = .ok x) : VhostSpec host http s x := by
  rw [buildVhost] at h
  obtain ⟨addr, haddr, h⟩ := bind_eq_ok.1 h
  obtain ⟨lists, hlists, h⟩ := bind_eq_ok.1 h
  obtain ⟨cert, hcert, h⟩ := bind_eq_ok.1 h
  obtain rfl := Except.ok.inj h
  exact
    { addr := orError_eq_ok.1 haddr
      cert := hcert
      serverName := rfl
      gzip := rfl
      clientMaxBodySize := rfl
      h3AdvertisedPort := rfl
      locations := ⟨lists, hlists, rfl, rfl, rfl⟩ }

theorem certEntry_isSome {s : Server} {cert : Option CertEntry} (h : certEntry s = .ok cert) :
    cert.isSome = s.tls := by
  rw [certEntry] at h
  split at h
  · rename_i htls
    obtain ⟨c, -, h⟩ := bind_eq_ok.1 h
    obtain ⟨k, -, h⟩ := bind_eq_ok.1 h
    obtain rfl := Except.ok.inj h
    rw [htls]
    rfl
  · rename_i htls
    obtain rfl := Except.ok.inj h
    simpa using htls

/-- A staged block has the address of its server, and a certificate exactly if it speaks TLS. -/
theorem buildVhost_spec {host : Host} {http : HttpBlock} {s : Server} {x : Staged}
    (h : buildVhost host http s = .ok x) :
    s.listen = some x.addr ∧ x.cert.isSome = s.tls ∧
      x.vhost.state.h3AdvertisedPort =
        if wantsH3 http.servers x.addr then some x.addr.port else none := by
  have hx := buildVhost_ok h
  exact ⟨hx.addr, certEntry_isSome hx.cert, hx.h3AdvertisedPort⟩

/-! ## Grouping -/

/-- The blocks of an address. -/
def blocksAt (xs : List Staged) (a : SocketAddr) : List Staged := xs.filter fun x => x.addr = a

/-- The listener that grouping makes of the blocks of an address. -/
def groupedCfg (xs : List Staged) (a : SocketAddr) : ListenerCfg where
  addr := a
  vhosts := (blocksAt xs a).map Staged.vhost
  tls := none
  h3Tls := none
  tlsPaths := (blocksAt xs a).filterMap Staged.cert

/-- What grouping has done after reading the blocks `read`: every address so far is listed once and
its listener holds exactly its blocks, all TLS or all plain. -/
structure GroupSpec (read : List Staged) (g : Grouped) : Prop where
  nodup : g.order.Nodup
  mem_order : ∀ a, a ∈ g.order ↔ ∃ x ∈ read, x.addr = a
  lookup : ∀ a, g.table.lookup a = if a ∈ g.order then some (groupedCfg read a) else none
  uniform : ∀ x ∈ read, ∀ y ∈ read, x.addr = y.addr → x.cert.isSome = y.cert.isSome

theorem groupedCfg_of_notMem {xs : List Staged} {a : SocketAddr} (h : ∀ x ∈ xs, x.addr ≠ a) :
    groupedCfg xs a = ⟨a, [], none, none, []⟩ := by
  have hnil : blocksAt xs a = [] := by
    apply List.filter_eq_nil_iff.2
    intro x hx
    simpa using h x hx
  simp [groupedCfg, hnil]

theorem groupedCfg_concat (xs : List Staged) (x : Staged) (a : SocketAddr) :
    groupedCfg (xs ++ [x]) a =
      if a = x.addr then
        { groupedCfg xs a with
          vhosts := (groupedCfg xs a).vhosts ++ [x.vhost]
          tlsPaths := (groupedCfg xs a).tlsPaths ++ x.cert.toList }
      else groupedCfg xs a := by
  by_cases h : a = x.addr
  · subst h
    cases hcert : x.cert with
    | none => simp [groupedCfg, blocksAt, List.filter_append, List.filterMap_append, hcert]
    | some c => simp [groupedCfg, blocksAt, List.filter_append, List.filterMap_append, hcert]
  · have h' : ¬ x.addr = a := fun heq => h heq.symm
    simp [groupedCfg, blocksAt, List.filter_append, h, h']

/-- The table entry of an address, with the empty listener for a new one. -/
theorem GroupSpec.getOr_eq {read : List Staged} {g : Grouped} (h : GroupSpec read g)
    (a : SocketAddr) : HashMap.getOr g.table a ⟨a, [], none, none, []⟩ = groupedCfg read a := by
  rw [HashMap.getOr, h.lookup a]
  by_cases ha : a ∈ g.order
  · rw [if_pos ha]
    rfl
  · rw [if_neg ha, groupedCfg_of_notMem]
    · rfl
    · intro x hx heq
      exact ha ((h.mem_order a).2 ⟨x, hx, heq⟩)

/-- With uniform blocks, the certificates of an address are missing exactly if those of any one of
its blocks are. -/
theorem GroupSpec.tlsPaths_isEmpty {read : List Staged} {g : Grouped} (h : GroupSpec read g)
    {y : Staged} (hy : y ∈ read) :
    (groupedCfg read y.addr).tlsPaths.isEmpty = y.cert.isNone := by
  have hmem : y ∈ blocksAt read y.addr := List.mem_filter.2 ⟨hy, by simp⟩
  cases hcert : y.cert with
  | some c =>
      have hc : c ∈ (groupedCfg read y.addr).tlsPaths := List.mem_filterMap.2 ⟨y, hmem, hcert⟩
      simpa using List.ne_nil_of_mem hc
  | none =>
      simp only [groupedCfg, Option.isNone_none, List.isEmpty_iff, List.filterMap_eq_nil_iff]
      intro x hx
      have hx' := List.mem_filter.1 hx
      have hsome := h.uniform x hx'.1 y hy (by simpa using hx'.2)
      rw [hcert] at hsome
      simpa using hsome

theorem GroupSpec.lookup_isSome {read : List Staged} {g : Grouped} (h : GroupSpec read g)
    (a : SocketAddr) : (g.table.lookup a).isSome = true ↔ a ∈ g.order := by
  rw [h.lookup]
  split <;> simp_all

/-- The order after a block: an address is appended only when the table did not have it. -/
theorem GroupSpec.mem_order_step {read : List Staged} {g : Grouped} (h : GroupSpec read g)
    (x a : SocketAddr) :
    a ∈ (if (g.table.lookup x).isSome = true then g.order else g.order ++ [x]) ↔
      a ∈ g.order ∨ a = x := by
  split
  · rename_i hs
    exact ⟨Or.inl, fun ha => ha.elim id fun heq => heq ▸ (h.lookup_isSome x).1 hs⟩
  · simp

/-- A block that is not turned away has the mode of the blocks already on its address. -/
theorem GroupSpec.sameMode {read : List Staged} {g : Grouped} (h : GroupSpec read g) {x : Staged}
    (hmix : ¬ (!(groupedCfg read x.addr).vhosts.isEmpty &&
      (groupedCfg read x.addr).tlsPaths.isEmpty != x.cert.isNone) = true) :
    ∀ y ∈ read, y.addr = x.addr → y.cert.isSome = x.cert.isSome := by
  intro y hy haddr
  have hmem : y ∈ blocksAt read x.addr := List.mem_filter.2 ⟨hy, by simpa using haddr⟩
  have hvhosts : (groupedCfg read x.addr).vhosts ≠ [] := by
    simpa [groupedCfg] using List.ne_nil_of_mem hmem
  have hmode := h.tlsPaths_isEmpty hy
  rw [haddr] at hmode
  have hno : (groupedCfg read x.addr).vhosts.isEmpty = false := by simpa using hvhosts
  rw [hno, hmode] at hmix
  cases hc : y.cert <;> cases hd : x.cert <;> simp_all

theorem groupStep_spec {read : List Staged} {x : Staged} {g g' : Grouped} (h : GroupSpec read g)
    (hstep : groupStep g x = .ok g') : GroupSpec (read ++ [x]) g' := by
  simp only [groupStep, h.getOr_eq] at hstep
  split at hstep
  · exact absurd hstep (by simp)
  · rename_i hmix
    obtain rfl := Except.ok.inj hstep
    have horder := h.mem_order_step x.addr
    have huniform := h.sameMode hmix
    refine ⟨?_, ?_, ?_, ?_⟩
    · dsimp only
      split
      · exact h.nodup
      · rename_i hs
        refine List.nodup_append.2 ⟨h.nodup, List.nodup_singleton _, ?_⟩
        intro a ha b hb hab
        obtain rfl := List.mem_singleton.1 hb
        exact hs ((h.lookup_isSome x.addr).2 (hab ▸ ha))
    · intro a
      rw [horder a, h.mem_order a]
      constructor
      · rintro (⟨y, hy, rfl⟩ | rfl)
        · exact ⟨y, List.mem_append_left _ hy, rfl⟩
        · exact ⟨x, by simp, rfl⟩
      · rintro ⟨y, hy, rfl⟩
        rcases List.mem_append.1 hy with hy | hy
        · exact Or.inl ⟨y, hy, rfl⟩
        · obtain rfl := List.mem_singleton.1 hy
          exact Or.inr rfl
    -- The table: only the entry of the block's own address changes.
    · intro a
      dsimp only
      rw [HashMap.lookup_insert_eq, groupedCfg_concat]
      by_cases ha : a = x.addr
      · subst ha
        rw [if_pos rfl, if_pos ((horder _).2 (Or.inr rfl)), if_pos rfl]
      · rw [if_neg ha, if_neg ha, h.lookup a]
        by_cases hmem : a ∈ g.order
        · rw [if_pos hmem, if_pos ((horder a).2 (Or.inl hmem))]
        · rw [if_neg hmem, if_neg]
          intro hin
          exact ((horder a).1 hin).elim hmem ha
    · intro y hy z hz haddr
      rcases List.mem_append.1 hy with hyr | hyx
      · rcases List.mem_append.1 hz with hzr | hzx
        · exact h.uniform y hyr z hzr haddr
        · rw [List.mem_singleton.1 hzx] at haddr ⊢
          exact huniform y hyr haddr
      · rw [List.mem_singleton.1 hyx] at haddr ⊢
        rcases List.mem_append.1 hz with hzr | hzx
        · exact (huniform z hzr haddr.symm).symm
        · rw [List.mem_singleton.1 hzx]

/-- Grouping, from the empty table. -/
theorem group_spec {xs : List Staged} {g : Grouped} (h : xs.foldlM groupStep {} = .ok g) :
    GroupSpec xs g := by
  refine foldlM_induction ?_ ?_ h
  · refine ⟨List.nodup_nil, ?_, ?_, ?_⟩
    · intro a
      simp
    · intro a
      simp
    · intro x hx
      exact absurd hx List.not_mem_nil
  · intro read x g g' hread hstep
    exact groupStep_spec hread hstep

/-! ## The loop over the table -/

/-- What the loop has done after the rounds `read`: with distinct keys, every listener read has its
result in the table. -/
def Materialized (host : Host) (servers : List Server) (read : List (SocketAddr × ListenerCfg))
    (t : HashMap SocketAddr ListenerCfg) : Prop :=
  (read.map Prod.fst).Nodup → ∀ p ∈ read, ∃ cfg',
    materializeOne host servers p.2 = .ok cfg' ∧ t.lookup p.1 = some cfg'

/-- The loop changes every listener once, in whichever order. -/
theorem lookup_materialize {host : Host} {servers : List Server}
    {o : IterOrder (SocketAddr × ListenerCfg)} {table t : HashMap SocketAddr ListenerCfg}
    (h : materialize host servers o table = .ok t) {a : SocketAddr} {cfg : ListenerCfg}
    (ha : table.lookup a = some cfg) :
    ∃ cfg', materializeOne host servers cfg = .ok cfg' ∧ t.lookup a = some cfg' := by
  have hloop : Materialized host servers (HashMap.iter table o) t := by
    refine foldlM_induction (motive := Materialized host servers) ?_ ?_ h
    · intro _ p hp
      exact absurd hp List.not_mem_nil
    · intro read x t t' hread hstep hnodup p hp
      obtain ⟨cfg', hcfg', hstep⟩ := bind_eq_ok.1 hstep
      obtain rfl := Except.ok.inj hstep
      rw [List.map_append, List.nodup_append] at hnodup
      rw [HashMap.lookup_insert_eq]
      -- The keys of an iteration are distinct, so a round does not touch an earlier result.
      rcases List.mem_append.1 hp with hpr | hpx
      · obtain ⟨c, hc, hlookup⟩ := hread hnodup.1 p hpr
        refine ⟨c, hc, ?_⟩
        rw [if_neg, hlookup]
        exact hnodup.2.2 p.1 (List.mem_map.2 ⟨p, hpr, rfl⟩) x.1 (by simp)
      · rw [List.mem_singleton.1 hpx]
        exact ⟨cfg', hcfg', if_pos rfl⟩
  exact hloop (HashMap.nodup_keys_iter table o) (a, cfg) (HashMap.mem_iter.2 ha)

/-- What the TLS step does to a grouped listener. -/
theorem materializeOne_spec {host : Host} {servers : List Server} {cfg l : ListenerCfg}
    (h : materializeOne host servers cfg = .ok l) (htls : cfg.tls = none) (hh3 : cfg.h3Tls = none) :
    l.addr = cfg.addr ∧ l.vhosts = cfg.vhosts ∧ l.tlsPaths = cfg.tlsPaths ∧
      l.tls.isSome = !cfg.tlsPaths.isEmpty ∧
      (∀ sc, l.tls = some sc → sc.protocols = protocolsFor servers cfg.addr) ∧
      l.h3Tls.isSome = (!cfg.tlsPaths.isEmpty && wantsH3 servers cfg.addr) := by
  rw [materializeOne] at h
  split at h
  -- A listener without certificates is left as grouping made it.
  · rename_i hpaths
    obtain rfl := Except.ok.inj h
    simp [hpaths, htls, hh3]
  · rename_i hpaths
    obtain ⟨tls, hbuild, h⟩ := bind_eq_ok.1 h
    obtain ⟨resolver, -, hbuild⟩ := bind_eq_ok.1 hbuild
    obtain rfl := Except.ok.inj hbuild
    split at h
    · rename_i hwants
      obtain ⟨h3, -, h⟩ := bind_eq_ok.1 h
      obtain rfl := Except.ok.inj h
      simp [hpaths, hwants]
    · rename_i hwants
      obtain rfl := Except.ok.inj h
      simp [hpaths, hwants, hh3]

/-! ## All listeners -/

/-- The three steps of a successful build: the server blocks are staged, the staged blocks are
grouped, and each address in order of appearance gets the listener made of its blocks. -/
theorem buildListeners_ok {host : Host} {o : IterOrder (SocketAddr × ListenerCfg)}
    {http : HttpBlock} {ls : List ListenerCfg} (h : buildListeners host o http = .ok ls) :
    ∃ staged g, http.servers.mapM (buildVhost host http) = .ok staged ∧
      staged.foldlM groupStep {} = .ok g ∧
      List.Forall₂ (fun a l => materializeOne host http.servers (groupedCfg staged a) = .ok l)
        g.order ls := by
  rw [buildListeners] at h
  obtain ⟨staged, hstaged, h⟩ := bind_eq_ok.1 h
  obtain ⟨g, hg, h⟩ := bind_eq_ok.1 h
  obtain ⟨table, htable, h⟩ := bind_eq_ok.1 h
  obtain rfl := Except.ok.inj h
  refine ⟨staged, g, hstaged, hg, ?_⟩
  apply forall₂_filterMap
  intro a ha
  exact lookup_materialize htable ((group_spec hg).lookup a ▸ if_pos ha)

/-- The listeners of a successful build: one for each address of the staged blocks, in order of
appearance, made of the blocks of that address. -/
theorem buildListeners_eq {host : Host} {o : IterOrder (SocketAddr × ListenerCfg)}
    {http : HttpBlock} {ls : List ListenerCfg} (h : buildListeners host o http = .ok ls) :
    ∃ staged g, List.Forall₂ (fun s x => buildVhost host http s = .ok x) http.servers staged ∧
      GroupSpec staged g ∧
      List.Forall₂ (fun a l => materializeOne host http.servers (groupedCfg staged a) = .ok l)
        g.order ls := by
  obtain ⟨staged, g, hstaged, hg, hls⟩ := buildListeners_ok h
  exact ⟨staged, g, mapM_forall₂ hstaged, group_spec hg, hls⟩

/-- What the server blocks of a configuration determine about its listeners. -/
structure ListenersSpec (servers : List Server) (ls : List ListenerCfg) : Prop where
  nodup : (ls.map ListenerCfg.addr).Nodup
  addrs : ∀ a, (∃ l ∈ ls, l.addr = a) ↔ ∃ s ∈ servers, s.listen = some a
  tls : ∀ l ∈ ls, l.tls.isSome = true ↔ ∃ s ∈ servers, s.listen = some l.addr ∧ s.tls = true
  h3 : ∀ l ∈ ls, l.h3Tls.isSome = (l.tls.isSome && wantsH3 servers l.addr)
  protocols : ∀ l ∈ ls, ∀ sc, l.tls = some sc → sc.protocols = protocolsFor servers l.addr
  advertised : ∀ l ∈ ls, ∀ v ∈ l.vhosts, v.state.h3AdvertisedPort =
    if wantsH3 servers l.addr then some l.addr.port else none

theorem tlsPaths_groupedCfg_eq_nil {xs : List Staged} {a : SocketAddr} :
    (groupedCfg xs a).tlsPaths.isEmpty = false ↔ ∃ x ∈ xs, x.addr = a ∧ x.cert.isSome = true := by
  rw [← Bool.not_eq_true, List.isEmpty_iff, groupedCfg, List.filterMap_eq_nil_iff]
  simp only [blocksAt, List.mem_filter, decide_eq_true_eq, not_forall, exists_prop, and_assoc,
    Option.isSome_iff_ne_none]

/-- Staged blocks are on the addresses the server blocks listen on. -/
theorem staged_addr_iff {host : Host} {http : HttpBlock} {staged : List Staged}
    (h : List.Forall₂ (fun s x => buildVhost host http s = .ok x) http.servers staged)
    (a : SocketAddr) :
    (∃ x ∈ staged, x.addr = a) ↔ ∃ s ∈ http.servers, s.listen = some a := by
  constructor
  · rintro ⟨x, hx, rfl⟩
    obtain ⟨s, hs, hb⟩ := forall₂_exists_left h x hx
    exact ⟨s, hs, (buildVhost_spec hb).1⟩
  · rintro ⟨s, hs, ha⟩
    obtain ⟨x, hx, hb⟩ := forall₂_exists_right h s hs
    exact ⟨x, hx, Option.some.inj ((buildVhost_spec hb).1.symm.trans ha)⟩

/-- Staged blocks with a certificate are those of TLS server blocks. -/
theorem staged_cert_iff {host : Host} {http : HttpBlock} {staged : List Staged}
    (h : List.Forall₂ (fun s x => buildVhost host http s = .ok x) http.servers staged)
    (a : SocketAddr) :
    (∃ x ∈ staged, x.addr = a ∧ x.cert.isSome = true) ↔
      ∃ s ∈ http.servers, s.listen = some a ∧ s.tls = true := by
  constructor
  · rintro ⟨x, hx, rfl, hc⟩
    obtain ⟨s, hs, hb⟩ := forall₂_exists_left h x hx
    exact ⟨s, hs, (buildVhost_spec hb).1, (buildVhost_spec hb).2.1 ▸ hc⟩
  · rintro ⟨s, hs, ha, htls⟩
    obtain ⟨x, hx, hb⟩ := forall₂_exists_right h s hs
    refine ⟨x, hx, Option.some.inj ((buildVhost_spec hb).1.symm.trans ha), ?_⟩
    rw [(buildVhost_spec hb).2.1, htls]

/-- **Listeners of a successful build.** -/
theorem buildListeners_spec {host : Host} {o : IterOrder (SocketAddr × ListenerCfg)}
    {http : HttpBlock} {ls : List ListenerCfg} (h : buildListeners host o http = .ok ls) :
    ListenersSpec http.servers ls := by
  obtain ⟨staged, g, hstaged, hgroup, hls⟩ := buildListeners_eq h
  have hleft := forall₂_exists_left hls
  have hone : ∀ {a l}, materializeOne host http.servers (groupedCfg staged a) = .ok l → _ :=
    fun {a l} hl => materializeOne_spec hl rfl rfl
  refine ⟨?_, ?_, ?_, ?_, ?_, ?_⟩
  -- The listeners stand in the order of `listener_order`, which lists no address twice.
  · have hmap : ls.map ListenerCfg.addr = g.order := by
      apply map_eq_of_forall₂ _ hls
      intro a l hl
      exact (hone hl).1
    rw [hmap]
    exact hgroup.nodup
  · intro a
    rw [← staged_addr_iff hstaged a, ← hgroup.mem_order a]
    constructor
    · rintro ⟨l, hl, rfl⟩
      obtain ⟨a, ha, hb⟩ := hleft l hl
      rw [(hone hb).1]
      exact ha
    · intro ha
      obtain ⟨l, hl, hb⟩ := forall₂_exists_right hls a ha
      exact ⟨l, hl, (hone hb).1⟩
  · intro l hl
    obtain ⟨a, -, hb⟩ := hleft l hl
    obtain ⟨haddr, -, -, htls, -⟩ := hone hb
    rw [haddr, ← staged_cert_iff hstaged, ← tlsPaths_groupedCfg_eq_nil, htls]
    simp [groupedCfg]
  · intro l hl
    obtain ⟨a, -, hb⟩ := hleft l hl
    obtain ⟨haddr, -, -, htls, -, hh3⟩ := hone hb
    rw [haddr, htls, hh3]
  · intro l hl sc hsc
    obtain ⟨a, -, hb⟩ := hleft l hl
    obtain ⟨haddr, -, -, -, hprotocols, -⟩ := hone hb
    rw [haddr]
    exact hprotocols sc hsc
  -- A virtual host keeps the port it was given when its block was staged.
  · intro l hl v hv
    obtain ⟨a, -, hb⟩ := hleft l hl
    obtain ⟨haddr, hvhosts, -⟩ := hone hb
    rw [hvhosts] at hv
    obtain ⟨x, hx, rfl⟩ := List.mem_map.1 hv
    obtain ⟨hxs, hxa⟩ := List.mem_filter.1 hx
    obtain ⟨s, -, hbuild⟩ := forall₂_exists_left hstaged x hxs
    rw [haddr, (buildVhost_spec hbuild).2.2]
    have hxa' : x.addr = a := by simpa using hxa
    rw [hxa']
    rfl

/-- A successful build has an `http` block, and its listeners are those of that block. -/
theorem build_listeners {host : Host} {o : IterOrder (SocketAddr × ListenerCfg)} {cfg : MainConfig}
    {rt : Runtime} (h : build host o cfg = .ok rt) :
    ∃ http, cfg.http = some http ∧ buildListeners host o http = .ok rt.listeners := by
  rw [build] at h
  obtain ⟨http, hhttp, h⟩ := bind_eq_ok.1 h
  obtain ⟨ls, hls, h⟩ := bind_eq_ok.1 h
  obtain ⟨ss, -, h⟩ := bind_eq_ok.1 h
  split at h
  · exact absurd h (by simp)
  · obtain rfl := Except.ok.inj h
    exact ⟨http, orError_eq_ok.1 hhttp, hls⟩

/-! ## Protocol versions -/

theorem mem_dedupAdjacent {α : Type} [DecidableEq α] {x : α} :
    ∀ {xs : List α}, x ∈ dedupAdjacent xs ↔ x ∈ xs := by
  intro xs
  induction xs with
  | nil => simp [dedupAdjacent]
  | cons a xs ih =>
      cases xs with
      | nil => simp [dedupAdjacent]
      | cons b rest =>
          rw [dedupAdjacent]
          split
          · rename_i hab
            rw [ih, hab]
            simp
          · rw [List.mem_cons, ih, List.mem_cons (l := b :: rest)]

/-- The versions an address is given are the ones some of its blocks declares. -/
theorem mem_protocolsFor {servers : List Server} {a : SocketAddr} {v : TlsVersion} :
    v ∈ protocolsFor servers a ↔ ∃ d ∈ declaredProtocols servers a, v ∈ d := by
  rw [protocolsFor, mem_dedupAdjacent, List.mem_mergeSort, List.mem_flatten]

/-- The strictest combination of declared version lists: nothing if there is none, else what all of
them allow. -/
def Strictest (declared : List (List TlsVersion)) (passed : List TlsVersion) : Prop :=
  (declared = [] → passed = []) ∧
    (declared ≠ [] → ∀ v, v ∈ passed ↔ ∀ d ∈ declared, v ∈ d)

/-- All declared version lists allow the same versions. -/
def Agree (declared : List (List TlsVersion)) : Prop :=
  ∀ d ∈ declared, ∀ e ∈ declared, ∀ v, v ∈ d ↔ v ∈ e

/-- The union of lists is their intersection exactly when they agree. -/
theorem strictest_protocolsFor_iff (servers : List Server) (a : SocketAddr) :
    Strictest (declaredProtocols servers a) (protocolsFor servers a) ↔
      Agree (declaredProtocols servers a) := by
  constructor
  · rintro ⟨-, h⟩ d hd e he v
    have hne : declaredProtocols servers a ≠ [] := List.ne_nil_of_mem hd
    constructor
    · intro hv
      exact (h hne v).1 (mem_protocolsFor.2 ⟨d, hd, hv⟩) e he
    · intro hv
      exact (h hne v).1 (mem_protocolsFor.2 ⟨e, he, hv⟩) d hd
  -- Lists that agree have one union and intersection, each of them.
  · intro hagree
    refine ⟨?_, ?_⟩
    · intro hnil
      apply List.eq_nil_iff_forall_not_mem.2
      intro v hv
      obtain ⟨d, hd, -⟩ := mem_protocolsFor.1 hv
      rw [hnil] at hd
      exact absurd hd List.not_mem_nil
    · intro hne v
      obtain ⟨e, he⟩ := List.exists_mem_of_ne_nil _ hne
      constructor
      · intro hv d hd
        obtain ⟨d', hd', hv'⟩ := mem_protocolsFor.1 hv
        exact (hagree d' hd' d hd v).1 hv'
      · intro hv
        exact mem_protocolsFor.2 ⟨e, he, hv e he⟩

/-- **Versions of a TLS listener.** The versions a listener of a successful build is given are what
all declaring blocks of its address allow exactly when these blocks declare the same versions. -/
theorem strictest_iff_agree (host : Host) (o : IterOrder (SocketAddr × ListenerCfg))
    (cfg : MainConfig) (rt : Runtime) (h : build host o cfg = .ok rt) (l : ListenerCfg)
    (hl : l ∈ rt.listeners) (sc : ServerConfig) (hsc : l.tls = some sc) :
    ∃ http, cfg.http = some http ∧
      (Strictest (declaredProtocols http.servers l.addr) sc.protocols ↔
        Agree (declaredProtocols http.servers l.addr)) := by
  obtain ⟨http, hhttp, hls⟩ := build_listeners h
  refine ⟨http, hhttp, ?_⟩
  rw [(buildListeners_spec hls).protocols l hl sc hsc]
  exact strictest_protocolsFor_iff http.servers l.addr

/-! ## Two configurations -/

/-- A host on which every certificate loads and nothing else is needed. -/
def loadingHost : Host where
  buildCertified := fun _ => .ok ⟨[], []⟩
  loadMtls := fun _ _ _ => .ok ()
  loadUsers := fun _ => .ok ∅
  compileRegex := fun _ _ => .error ""

/-- The address `0.0.0.0:443`. -/
def httpsAddr : SocketAddr := ⟨.v4 ⟨0, 0, 0, 0⟩, 443, 0⟩

/-- A TLS server on that address with the given `ssl_protocols`. -/
def tlsServer (name : String) (versions : List TlsVersion) : Server :=
  { listen := some httpsAddr
    serverName := some name
    tls := true
    sslCertificate := some "cert.pem"
    sslCertificateKey := some "key.pem"
    sslProtocols := versions }

/-- Two virtual hosts of which the second is restricted to the given versions. -/
def twoVhosts (versions : List TlsVersion) : MainConfig :=
  { http := some
      { servers := [tlsServer "www.test" [.tls12, .tls13], tlsServer "admin.test" versions] } }

/-- A virtual host that allows TLS 1.3 only shares its address with one that allows TLS 1.2: the
listener offers both. -/
theorem restricted_vhost_is_widened :
    ∃ rt, build loadingHost IterOrder.stored (twoVhosts [.tls13]) = .ok rt ∧
      ∃ l ∈ rt.listeners, ∃ sc, l.tls = some sc ∧
        ¬ Strictest
          (declaredProtocols
            [tlsServer "www.test" [.tls12, .tls13], tlsServer "admin.test" [.tls13]]
            l.addr) sc.protocols := by
  refine ⟨_, rfl, _, List.mem_singleton.2 rfl, _, rfl, ?_⟩
  rintro ⟨-, h⟩
  have hpassed := (h (by decide) .tls12).1
    (mem_protocolsFor.2 ⟨[.tls12, .tls13], by decide, by decide⟩)
  exact absurd hpassed (by decide)

/-- Virtual hosts that declare the same versions get them. -/
theorem strictest_iff_agree_same :
    ∃ rt, build loadingHost IterOrder.stored (twoVhosts [.tls13, .tls12]) = .ok rt ∧
      ∃ l ∈ rt.listeners, ∃ sc, l.tls = some sc ∧ ∃ http,
        (twoVhosts [.tls13, .tls12]).http = some http ∧
          Strictest (declaredProtocols http.servers l.addr) sc.protocols := by
  refine ⟨_, rfl, _, List.mem_singleton.2 rfl, _, rfl, ?_⟩
  obtain ⟨http, hhttp, hiff⟩ := strictest_iff_agree loadingHost IterOrder.stored
    (twoVhosts [.tls13, .tls12]) _ rfl _ (List.mem_singleton.2 rfl) _ rfl
  obtain rfl := Option.some.inj hhttp
  refine ⟨_, rfl, hiff.2 ?_⟩
  have hfull : ∀ d ∈ declaredProtocols
      [tlsServer "www.test" [.tls12, .tls13], tlsServer "admin.test" [.tls13, .tls12]] httpsAddr,
      TlsVersion.tls12 ∈ d ∧ TlsVersion.tls13 ∈ d := by decide
  intro d hd e he v
  cases v with
  | tls12 => exact ⟨fun _ => (hfull e he).1, fun _ => (hfull d hd).1⟩
  | tls13 => exact ⟨fun _ => (hfull e he).2, fun _ => (hfull d hd).2⟩

end Elrond.App
