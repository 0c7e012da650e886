import Elrond.Config.Quantities
import Elrond.Server.Domain

/-!
# Settings of the `http` level

`client_max_body_size` and `gzip` can stand in the `http` block, in a server and, the latter, in a
location. `build_http` accepts both and keeps neither, so what a server enforces and whether a
location compresses is decided below. The result is that of the cascade exactly if the lower levels
say something themselves, or if the `http` level says what holds anyway (`cascade_iff`).
-/

set_option autoImplicit false

namespace Elrond.Server

open Elrond.Lib Elrond.Http Elrond.Config Elrond.App

/-! ## What a block sets -/

/-- What `on` and `off` say. -/
def onOff : String → Option Bool
  | "on" => some true
  | "off" => some false
  | _ => none

/-- The limit that a block sets by its last `client_max_body_size` line. -/
def bodySizeSet (block : List Directive) : Option Nat :=
  (lastArg "client_max_body_size" block).bind parseSize

/-- What a block sets by its last `gzip` line. -/
def gzipSet (block : List Directive) : Option Bool := (lastArg "gzip" block).bind onOff

/-- The limit of the server, else that of the `http` block, else 1 MiB. -/
def cascadedBodySize (http server : List Directive) : Nat :=
  ((bodySizeSet server).or (bodySizeSet http)).getD (1024 * 1024)

/-- Compression as the location says, else as the server, else as the `http` block, else off. -/
def cascadedGzip (http server location : List Directive) : Bool :=
  ((gzipSet location).or ((gzipSet server).or (gzipSet http))).getD false

theorem parseOnOff_eq_ok {s : Option String} {line : Nat} {on : Bool}
    (h : parseOnOff s line = .ok on) : s.bind onOff = some on := by
  rw [parseOnOff.eq_def] at h
  split at h <;> cases h
  · rfl
  · rfl

theorem buildServer_gzip {env : Externals} {block : List Directive} {s : Server}
    (h : buildServer env block = .ok s) : s.gzip = gzipSet block := by
  refine buildServer_lastArg Server.gzip (fun _ => rfl) ?_ ?_ h
  · intro root d p s hp hname
    rw [serverPatch, hname] at hp
    obtain ⟨on, hon, rfl⟩ := map_eq_ok.1 hp
    rw [parseOnOff_eq_ok hon]
    rfl
  · intro p s howner
    cases p with
    | gzip on => exact absurd rfl howner
    | _ => rfl

theorem locationPatch_gzip {d : Directive} {p : LocationPatch} {s s' : LocationDraft}
    (hp : locationPatch d = .ok p) (happly : p.apply s = some s') :
    s'.gzip = if d.name = "gzip" then d.args.head?.bind onOff else s.gzip := by
  by_cases hname : d.name = "gzip"
  · rw [if_pos hname]
    rw [locationPatch, hname] at hp
    obtain ⟨on, hon, rfl⟩ := map_eq_ok.1 hp
    obtain rfl := Option.some.inj happly
    rw [parseOnOff_eq_ok hon]
    rfl
  · rw [if_neg hname]
    have hkey : locationKey d ≠ "gzip" := by
      rw [locationKey]
      split
      · decide
      · exact hname
    cases p with
    | ignored =>
        obtain rfl := Option.some.inj happly
        rfl
    | content a =>
        rw [LocationPatch.apply] at happly
        split at happly
        · cases happly
        · obtain rfl := Option.some.inj happly
          rfl
    | edit e =>
        obtain rfl := Option.some.inj happly
        rcases locationPatch_owner hp with howner | howner
        · cases howner
        · cases e with
          | gzip on => exact absurd (Option.some.inj howner).symm hkey
          | _ => rfl

theorem buildLocation_gzip {env : Externals} {path : String} {kind : LocationKind}
    {block : List Directive} {line : Nat} {root : Option String} {loc : Location}
    (h : buildLocation env path kind block line root = .ok loc) : loc.gzip = gzipSet block := by
  rw [buildLocation] at h
  obtain ⟨draft, hdraft, h⟩ := bind_eq_ok.1 h
  obtain ⟨action, -, h⟩ := bind_eq_ok.1 h
  have hstep : ∀ s d s', locationStep path s d = .ok s' →
      s'.gzip = if d.name = "gzip" then d.args.head?.bind onOff else s.gzip := by
    intro s d s' hstep
    have hopt := locationStep_toOption path s d
    rw [hstep] at hopt
    obtain ⟨p, hp, happly⟩ := Option.bind_eq_some_iff.1 hopt.symm
    exact locationPatch_gzip (toOption_eq_some.1 hp) happly
  have hgzip : draft.gzip = gzipSet block := by
    refine foldlM_lastArg LocationDraft.gzip rfl ?_ ?_ hdraft
    · intro s d s' hs hname
      rw [hstep s d s' hs, if_pos hname]
    · intro s d s' hs hname
      rw [hstep s d s' hs, if_neg hname]
  split at h
  · cases h
  split at h
  · cases h
  obtain rfl := Except.ok.inj h
  exact hgzip

/-! ## What the runtime has of it -/

/-- A location of the runtime is built from a `location` line of a server. -/
def BuiltFrom (env : Externals) (host : Host) (http : HttpBlock) (s : Server) (d : Directive)
    (rt : LocationRt) : Prop :=
  ∃ kind path loc, parseLocationPattern d.args d.line = .ok (kind, path) ∧
    buildLocation env path kind (d.block.getD []) d.line s.root = .ok loc ∧
    buildLocationRt host (buildTables http) s loc = .ok rt

theorem mem_allLocations_iff {env : Externals} {host : Host} {http : HttpBlock}
    {block : List Directive} {s : Server} {x : Staged} (hs : buildServer env block = .ok s)
    (hx : buildVhost host http s = .ok x) (rt : LocationRt) :
    rt ∈ allLocations x.vhost.state ↔
      ∃ d ∈ linesNamed "location" block, BuiltFrom env host http s d rt := by
  have hlines := buildServer_locationLines hs
  rw [buildVhost_locations hx]
  constructor
  · rintro ⟨loc, hloc, hrt⟩
    obtain ⟨d, hd, kind, path, hpattern, hbuild⟩ := forall₂_exists_left hlines loc hloc
    exact ⟨d, hd, kind, path, loc, hpattern, hbuild, hrt⟩
  · rintro ⟨d, hd, kind, path, loc, hpattern, hbuild, hrt⟩
    obtain ⟨loc', hloc', kind', path', hpattern', hbuild'⟩ := forall₂_exists_right hlines d hd
    rw [hpattern] at hpattern'
    obtain ⟨rfl, rfl⟩ := Prod.mk.inj (Except.ok.inj hpattern')
    rw [hbuild] at hbuild'
    obtain rfl := Except.ok.inj hbuild'
    exact ⟨loc, hloc', hrt⟩

/-! ## The cascade -/

/-- The server has a limit of its own, or the `http` block has none, or that is 1 MiB. -/
def BodySizeDecided (http server : List Directive) : Prop :=
  bodySizeSet server ≠ none ∨ bodySizeSet http = none ∨ bodySizeSet http = some (1024 * 1024)

/-- The location or the server says something about compression, or the `http` block does not turn
it on. -/
def GzipDecided (http server location : List Directive) : Prop :=
  gzipSet location ≠ none ∨ gzipSet server ≠ none ∨ gzipSet http ≠ some true

theorem bodySize_cascades_iff (http server : List Directive) :
    (bodySizeSet server).getD (1024 * 1024) = cascadedBodySize http server ↔
      BodySizeDecided http server := by
  rw [cascadedBodySize, BodySizeDecided]
  cases bodySizeSet server with
  | some n => simp
  | none =>
      cases bodySizeSet http with
      | none => simp
      | some n => simp [eq_comm]

theorem gzip_cascades_iff (http server location : List Directive) :
    (gzipSet location).getD ((gzipSet server).getD false) = cascadedGzip http server location ↔
      GzipDecided http server location := by
  rw [cascadedGzip, GzipDecided]
  cases gzipSet location with
  | some on => simp
  | none =>
      cases gzipSet server with
      | some on => simp
      | none =>
          cases gzipSet http with
          | none => simp
          | some on => cases on <;> simp

/-- **Settings of the `http` level.** On every listener of an accepted configuration, each virtual
host is made of one server block, and its locations of the `location` lines of that block. The limit
it enforces is the one of the cascade exactly if the server has its own, or the `http` block has none
or the default one; and compression for a location is as in the cascade exactly if the location or
the server says something about it, or the `http` block does not turn it on. -/
theorem cascade_iff (env : Externals) (host : Host) (o : IterOrder (SocketAddr × ListenerCfg))
    (dirs : List Directive) (cfg : MainConfig) (rt : Runtime)
    (hcfg : Config.build env dirs = .ok cfg) (hrt : App.build host o cfg = .ok rt)
    (l : ListenerCfg) (hl : l ∈ rt.listeners) :
    List.Forall₂ (fun server v =>
        (v.state.clientMaxBodySize = cascadedBodySize (lastBlock "http" dirs) server ↔
          BodySizeDecided (lastBlock "http" dirs) server) ∧
        ∃ http s, cfg.http = some http ∧ buildServer env server = .ok s ∧
          (∀ loc, loc ∈ allLocations v.state ↔
            ∃ d ∈ linesNamed "location" server, BuiltFrom env host http s d loc) ∧
          ∀ d ∈ linesNamed "location" server, ∀ loc, BuiltFrom env host http s d loc →
            (loc.gzip.getD v.state.gzip =
                cascadedGzip (lastBlock "http" dirs) server (d.block.getD []) ↔
              GzipDecided (lastBlock "http" dirs) server (d.block.getD [])))
      (blocksOn dirs l.addr) l.vhosts := by
  obtain ⟨http, hhttp, hserve⟩ := vhosts_serve hcfg hrt hl
  refine hserve.imp ?_
  rintro server v ⟨s, x, hs, hx, rfl⟩
  have hspec := buildVhost_ok hx
  constructor
  · rw [hspec.clientMaxBodySize, buildServer_bodySize hs]
    exact bodySize_cascades_iff _ server
  · refine ⟨http, s, hhttp, hs, mem_allLocations_iff hs hx, ?_⟩
    rintro d _ loc ⟨kind, path, decl, -, hdecl, hloc⟩
    rw [(buildLocationRt_ok hloc).2.2, buildLocation_gzip hdecl, hspec.gzip,
      buildServer_gzip hs]
    exact gzip_cascades_iff _ server _

/-- A limit of 10 MiB and compression, both for the `http` level, over one plain server. -/
def httpLevelOnly : List Directive :=
  [⟨"http", [], some
    [lineOf "client_max_body_size" ["10m"], lineOf "gzip" ["on"],
      ⟨"server", [], some
        [lineOf "listen" ["80"], ⟨"location", ["/"], some [lineOf "return" ["200"]], 1⟩], 1⟩], 1⟩]

/-- The limits of the virtual hosts on each listener, and whether their locations compress. -/
def enforced (dirs : List Directive) : Option (List (List (Nat × List Bool))) :=
  match Config.build noExternals dirs with
  | .error _ => none
  | .ok cfg =>
      match App.build loadingHost IterOrder.stored cfg with
      | .error _ => none
      | .ok rt => some (rt.listeners.map fun l => l.vhosts.map fun v =>
          (v.state.clientMaxBodySize, (allLocations v.state).map fun loc =>
            loc.gzip.getD v.state.gzip))

theorem exists_of_enforced {dirs : List Directive} {n : Nat} {on : Bool}
    (h : enforced dirs = some [[(n, [on])]]) :
    ∃ cfg, Config.build noExternals dirs = .ok cfg ∧
      ∃ rt, App.build loadingHost IterOrder.stored cfg = .ok rt ∧
        ∃ l ∈ rt.listeners, ∃ v ∈ l.vhosts, v.state.clientMaxBodySize = n ∧
          ∃ loc ∈ allLocations v.state, loc.gzip.getD v.state.gzip = on := by
  rw [enforced] at h
  split at h
  · cases h
  · next cfg hcfg =>
    split at h
    · cases h
    · next rt hrt =>
      obtain ⟨l, hl, hvhosts⟩ := List.map_eq_singleton_iff.1 (Option.some.inj h)
      obtain ⟨v, hv, hpair⟩ := List.map_eq_singleton_iff.1 hvhosts
      obtain ⟨hsize, hlocs⟩ := Prod.mk.inj hpair
      obtain ⟨loc, hloc, hon⟩ := List.map_eq_singleton_iff.1 hlocs
      refine ⟨cfg, hcfg, rt, hrt, l, by simp [hl], v, by simp [hv], hsize, loc, ?_, hon⟩
      rw [hloc]
      exact List.mem_singleton_self loc

/-- Both settings of `httpLevelOnly` are without effect: the server enforces 1 MiB in place of
10 MiB, and its location does not compress. -/
theorem http_level_is_ignored :
    ∃ cfg, Config.build noExternals httpLevelOnly = .ok cfg ∧
      ∃ rt, App.build loadingHost IterOrder.stored cfg = .ok rt ∧
        ∃ l ∈ rt.listeners, ∃ v ∈ l.vhosts,
          (∀ server ∈ effectiveBlocks httpLevelOnly, v.state.clientMaxBodySize ≠
            cascadedBodySize (lastBlock "http" httpLevelOnly) server) ∧
          ∃ loc ∈ allLocations v.state, ∀ server ∈ effectiveBlocks httpLevelOnly,
            ∀ d ∈ linesNamed "location" server, loc.gzip.getD v.state.gzip ≠
              cascadedGzip (lastBlock "http" httpLevelOnly) server (d.block.getD []) := by
  have h : enforced httpLevelOnly = some [[(1024 * 1024, [false])]] := by decide +kernel
  obtain ⟨cfg, hcfg, rt, hrt, l, hl, v, hv, hsize, loc, hloc, hon⟩ := exists_of_enforced h
  refine ⟨cfg, hcfg, rt, hrt, l, hl, v, hv, ?_, loc, hloc, ?_⟩
  · rw [hsize]
    decide +kernel
  · rw [hon]
    decide +kernel

theorem cascade_httpLevelOnly :
    ∃ cfg, Config.build noExternals httpLevelOnly = .ok cfg ∧
      ∃ rt, App.build loadingHost IterOrder.stored cfg = .ok rt ∧
        ∃ l ∈ rt.listeners, List.Forall₂ (fun server v =>
            v.state.clientMaxBodySize = cascadedBodySize (lastBlock "http" httpLevelOnly) server ↔
              BodySizeDecided (lastBlock "http" httpLevelOnly) server)
          (blocksOn httpLevelOnly l.addr) l.vhosts := by
  have h : enforced httpLevelOnly = some [[(1024 * 1024, [false])]] := by decide +kernel
  obtain ⟨cfg, hcfg, rt, hrt, l, hl, -⟩ := exists_of_enforced h
  refine ⟨cfg, hcfg, rt, hrt, l, hl, ?_⟩
  exact (cascade_iff _ _ _ httpLevelOnly cfg rt hcfg hrt l hl).imp fun _ _ hboth => hboth.1

end Elrond.Server
