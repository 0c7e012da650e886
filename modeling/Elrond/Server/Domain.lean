import Elrond.Config.Numbers
import Elrond.Server.Operations

/-!
# The domain of the runtime

The numbers that the operations of `Operations.lean` get are arguments of directives, which neither
build checks for them. They come a long way: from a line of a location block or of an upstream block
through the lowered configuration, the runtime, the choice of a location or of a peer and the answer
of an upstream to the operation.

`ArgsFit` says of an occasion when the arguments that it gets to fit. In an accepted configuration
the operations performed on an occasion are inside their domain exactly then
(`accepted_inDomain_iff`).
-/

set_option autoImplicit false

namespace Elrond.Server

open Elrond.Lib Elrond.Http Elrond.Request Elrond.Config Elrond.Upstream Elrond.Proxy Elrond.App
  Elrond.Static

/-! ## The arguments of a configuration -/

/-- The location blocks that count: those of the server blocks of the last `http` block. -/
def locationBlocks (dirs : List Directive) : List (List Directive) :=
  (effectiveBlocks dirs).flatMap (blocksNamed "location")

/-- The host a fixed target names. -/
def targetHost (target : String) : String := Text.trimEndMatches '/' (splitScheme target).2

/-- The name that a target is looked up with among the upstreams. -/
def lookupName (target : String) (ctx : RequestCtx) : String :=
  if target.toList.contains '$' then bareHost (dynamicHost ((Template.parse target).render ctx))
  else targetHost target

/-- The timeouts of the peers behind a name: those of the last upstream of the name in the block,
else that of a direct address. -/
def peerTimeouts (block : List Directive) (name : String) : List Text.Duration :=
  match (linesNamed "upstream" block).reverse.find? fun d => d.args.head? = some name with
  | some d => failTimeouts (d.block.getD [])
  | none => [Text.fromSecs 10]

/-- The location is built from the location block. -/
def BuiltFromBlock (env : Externals) (host : Host) (cfg : MainConfig) (block : List Directive)
    (loc : LocationRt) : Prop :=
  ∃ http s path kind line loc', cfg.http = some http ∧
    buildLocation env path kind block line s.root = .ok loc' ∧
    buildLocationRt host (buildTables http) s loc' = .ok loc

/-- The code the block answers with, by `return` or at the end of `try_files`, is one of HTTP. -/
def CodeFits (block : List Directive) : Prop :=
  ∀ code ∈ (statusCodes block).getLast?, 100 ≤ code ∧ code ≤ 999

section Fits

variable {σ : Type}

/-- The arguments of a location block that its action gets to fit. -/
def CallFits (dirs block : List Directive) (w : Encounter σ) : ActionCall → Prop
  | .ret _ _ => CodeFits block
  | .files _ _ _ _ _ _ => True
  | .proxy target settings _ request peer ctx =>
      ∀ t ∈ proxyTargets block, ∀ b ∈ w.balancer target ctx,
        (lookupCache w.exchange settings request ctx w.store).1 = none →
        ExchangeFits w.exchange settings peer ctx request b (cacheRules block)
          (peerTimeouts (lastBlock "http" dirs) (lookupName t ctx))
  | .metrics => True
  | .tryFiles root entries ctx _ _ => (∃ n, w.tried root entries ctx = .code n) → CodeFits block

/-- The arguments that a request gets to fit: those of the block of the location that serves it. -/
def VerdictFits (env : Externals) (host : Host) (dirs : List Directive) (cfg : MainConfig)
    (w : Encounter σ) : Verdict → Prop
  | .served loc call _ =>
      ∃ block ∈ locationBlocks dirs,
        BuiltFromBlock env host cfg block loc ∧ CallFits dirs block w call
  | _ => True

/-- The arguments that an occasion gets to fit. -/
def ArgsFit (env : Externals) (host : Host) (dirs : List Directive) (cfg : MainConfig) :
    Occasion σ → Prop
  | .request crates reply state req peer w =>
      VerdictFits env host dirs cfg w ((handleVerdict crates state req peer).value reply)
  | .h3Request crates reply state method uri headers bodyBytes peer w =>
      VerdictFits env host dirs cfg w
        ((dispatchVerdict crates state method uri headers bodyBytes peer).value reply)
  | .startProbes k _ =>
      ∀ block ∈ (blocksNamed "upstream" (lastBlock "http" dirs))[k]?,
        ∀ t ∈ probeIntervals block, t ≠ 0
  | .probe k check b peer outcome nowMs =>
      ∀ block ∈ (blocksNamed "upstream" (lastBlock "http" dirs))[k]?,
        outcome.passed check = false → (FailureRecord.mk b peer nowMs).Fits (failTimeouts block)
  | .connection k b relayEnv client =>
      ∀ block ∈ (blocksNamed "server" (lastBlock "stream" dirs))[k]?, ∀ t ∈ streamTargets block,
        RelayFits relayEnv.toRelayEnv client b (Stream.tcpExchange relayEnv)
          (peerTimeouts (lastBlock "stream" dirs) (targetHost t))
  | .datagram k b relayEnv client data =>
      ∀ block ∈ (blocksNamed "server" (lastBlock "stream" dirs))[k]?, ∀ t ∈ streamTargets block,
        RelayFits relayEnv.toRelayEnv client b (Stream.udpExchange relayEnv client data)
          (peerTimeouts (lastBlock "stream" dirs) (targetHost t))

end Fits

/-! ## From the blocks to the runtime -/

/-- All locations of a virtual host. -/
def allLocations (state : ServerState) : List LocationRt :=
  state.exactLocs ++ state.regexLocs.map Prod.snd ++ state.prefixLocs

/-- A location of a runtime. -/
def Holds (rt : Runtime) (loc : LocationRt) : Prop :=
  ∃ l ∈ rt.listeners, ∃ v ∈ l.vhosts, loc ∈ allLocations v.state

/-- The location a request is given is one of the virtual host. -/
theorem mem_allLocations_of_route {state : ServerState} {path : String} {loc : LocationRt}
    (h : route state path = some loc) : loc ∈ allLocations state := by
  rw [allLocations, List.append_assoc, List.mem_append, List.mem_append, List.mem_map]
  rw [route] at h
  split at h
  · next l hl =>
    obtain rfl := Option.some.inj h
    exact Or.inl (List.mem_of_find?_eq_some hl)
  · split at h
    · next entry hentry =>
      obtain rfl := Option.some.inj h
      exact Or.inr (Or.inl ⟨entry, List.mem_of_find?_eq_some hentry, rfl⟩)
    · exact Or.inr (Or.inr (List.mem_of_find?_eq_some h))

/-- And one of the runtime. -/
theorem holds_of_route {rt : Runtime} {l : ListenerCfg} {host : Option String}
    {state : ServerState} {path : String} {loc : LocationRt} (hl : l ∈ rt.listeners)
    (hstate : pickState l host = some state) (hroute : route state path = some loc) :
    Holds rt loc := by
  obtain ⟨v, hv, rfl⟩ := Option.map_eq_some_iff.1 hstate
  exact ⟨l, hl, v, List.mem_of_getElem? hv, mem_allLocations_of_route hroute⟩

/-- The status codes an action hands to `body::text` from the configuration. -/
def actionStatuses : ActionRt → List Nat
  | .ret status _ => [status]
  | .tryFiles _ entries => entryCodes entries
  | _ => []

/-- The rules by which the responses of an action are stored. -/
def actionRules : ActionRt → List (List Nat × Text.Duration)
  | .proxy _ _ cache => (cache.map ProxyCache.validRules).getD []
  | _ => []

/-- The target of an action that proxies. -/
def actionTarget : ActionRt → Option ProxyTarget
  | .proxy target _ _ => some target
  | _ => none

/-- A location of the runtime has the numbers of its block. -/
structure RuntimeNumbers (http : HttpBlock) (block : List Directive) (loc : LocationRt) : Prop where
  statuses : actionStatuses loc.action = statusCodes block
  rules : actionRules loc.action = cacheRules block
  target : (actionTarget loc.action).toList =
    (proxyTargets block).map fun t => proxyTarget t (namedBalancers http.upstreams)

/-- An action keeps the numbers of its location. -/
theorem buildAction_numbers {zones : HashMap String CacheZone}
    {balancers : HashMap String Balancer} {loc : Location} {action : ActionRt}
    (h : buildAction zones balancers loc = .ok action) :
    actionStatuses action = loc.action.statuses ∧ actionRules action = loc.rules ∧
      actionTarget action = loc.action.target?.map fun t => proxyTarget t balancers := by
  rw [buildAction] at h
  split at h
  case h_4 target haction =>
      obtain ⟨cache, hcache, h⟩ := bind_eq_ok.1 h
      obtain ⟨headers, -, h⟩ := bind_eq_ok.1 h
      obtain rfl := Except.ok.inj h
      refine ⟨by simp [actionStatuses, haction], ?_,
        by simp [actionTarget, haction]⟩
      rw [buildCache] at hcache
      split at hcache
      · next hnone =>
        obtain rfl := Except.ok.inj hcache
        simp [actionRules, Location.rules, haction, hnone]
      · next zoneName hzone =>
        obtain ⟨zone, -, hcache⟩ := bind_eq_ok.1 hcache
        obtain rfl := Except.ok.inj hcache
        simp [actionRules, Location.rules, haction, hzone]
  all_goals
    rename_i haction
    obtain rfl := Except.ok.inj h
    simp [actionStatuses, actionRules, actionTarget, Location.rules, haction]

/-- A location has the numbers of the block it is built from. -/
theorem BuiltFromBlock.numbers {env : Externals} {host : Host} {cfg : MainConfig} {http : HttpBlock}
    {block : List Directive} {loc : LocationRt} (h : BuiltFromBlock env host cfg block loc)
    (hhttp : cfg.http = some http) : RuntimeNumbers http block loc := by
  obtain ⟨http', s, path, kind, line, loc', hhttp', hbuild, hrt⟩ := h
  obtain rfl := Option.some.inj (hhttp.symm.trans hhttp')
  have hnum := buildLocation_numbers hbuild
  obtain ⟨haction, -, -⟩ := buildLocationRt_ok hrt
  obtain ⟨hstatuses, hrules, htarget⟩ := buildAction_numbers haction
  refine ⟨hstatuses.trans hnum.statuses, hrules.trans hnum.rules, ?_⟩
  rw [htarget, ← hnum.target]
  cases loc'.action.target? with
  | none => rfl
  | some t => rfl

/-- The lists of a virtual host hold what the locations read so far were built to. -/
def ListsRead (host : Host) (tables : Tables) (s : Server) (read : List Location)
    (lists : LocationLists) : Prop :=
  ∀ rt, rt ∈ lists.exactLocs ++ lists.regexLocs.map Prod.snd ++ lists.prefixLocs ↔
    ∃ loc ∈ read, buildLocationRt host tables s loc = .ok rt

theorem locationRtStep_reads {host : Host} {tables : Tables} {s : Server} {read : List Location}
    {loc : Location} {lists lists' : LocationLists} (hread : ListsRead host tables s read lists)
    (h : locationRtStep host tables s lists loc = .ok lists') :
    ListsRead host tables s (read ++ [loc]) lists' := by
  rw [locationRtStep] at h
  obtain ⟨new, hnew, h⟩ := bind_eq_ok.1 h
  -- whichever list the location goes to, the lists hold it and what they held before
  have hadd : ∀ rt, rt ∈ lists'.exactLocs ++ lists'.regexLocs.map Prod.snd ++ lists'.prefixLocs ↔
      rt ∈ lists.exactLocs ++ lists.regexLocs.map Prod.snd ++ lists.prefixLocs ∨ rt = new := by
    intro rt
    split at h
    · obtain rfl := Except.ok.inj h
      simp only [List.mem_append, List.mem_singleton]
      tauto
    · obtain rfl := Except.ok.inj h
      simp only [List.mem_append, List.mem_singleton]
      tauto
    · split at h
      · obtain rfl := Except.ok.inj h
        simp only [List.map_append, List.mem_append, List.map_cons, List.map_nil,
          List.mem_singleton]
        tauto
      · cases h
  intro rt
  rw [hadd rt, hread rt]
  constructor
  · rintro (⟨loc', hloc', hrt⟩ | rfl)
    · exact ⟨loc', List.mem_append_left _ hloc', hrt⟩
    · exact ⟨loc, List.mem_append_right _ (List.mem_singleton_self loc), hnew⟩
  · rintro ⟨loc', hloc', hrt⟩
    rcases List.mem_append.1 hloc' with hloc' | hloc'
    · exact Or.inl ⟨loc', hloc', hrt⟩
    · rw [List.mem_singleton.1 hloc', hnew] at hrt
      exact Or.inr (Except.ok.inj hrt).symm

/-- The locations of a virtual host are those of its server, each built. -/
theorem buildVhost_locations {host : Host} {http : HttpBlock} {s : Server} {x : Staged}
    (h : buildVhost host http s = .ok x) (rt : LocationRt) :
    rt ∈ allLocations x.vhost.state ↔
      ∃ loc ∈ s.locations, buildLocationRt host (buildTables http) s loc = .ok rt := by
  obtain ⟨lists, hlists, hexact, hregex, hprefixes⟩ := (buildVhost_ok h).locations
  have hread : ListsRead host (buildTables http) s s.locations lists := by
    refine foldlM_induction (motive := ListsRead host (buildTables http) s) (fun _ => by simp) ?_
      hlists
    intro read loc lists lists' hread hstep
    exact locationRtStep_reads hread hstep
  rw [← hread rt]
  -- sorting the prefixes keeps them
  simp only [allLocations, hexact, hregex, hprefixes, List.mem_append, List.mem_mergeSort]

/-- The locations of a virtual host are built from the location blocks of its server block. -/
theorem serves_builtFromBlock {env : Externals} {host : Host} {cfg : MainConfig} {http : HttpBlock}
    {b : List Directive} {v : VirtualHost} (hhttp : cfg.http = some http)
    (h : Serves env host http b v) {loc : LocationRt} (hloc : loc ∈ allLocations v.state) :
    ∃ block ∈ blocksNamed "location" b, BuiltFromBlock env host cfg block loc := by
  obtain ⟨s, x, hs, hx, rfl⟩ := h
  obtain ⟨loc', hloc', hrt⟩ := (buildVhost_locations hx loc).1 hloc
  obtain ⟨d, hd, kind, path, -, hbuild⟩ :=
    forall₂_exists_left (buildServer_locationLines hs) loc' hloc'
  exact ⟨d.block.getD [], List.mem_map_of_mem hd, http, s, path, kind, d.line, loc', hhttp, hbuild,
    hrt⟩

/-! ### Upstreams and targets -/

/-- Upstreams built from the `upstream` lines of a block. -/
def UpstreamsOf (block : List Directive) (ups : List Upstream) : Prop :=
  List.Forall₂ (fun d up => upstreamBlock d = .ok up) (linesNamed "upstream" block) ups

/-- The peers of an upstream have the timeouts of its server lines. -/
theorem timeouts_namedBalancer {d : Directive} {up : Upstream} (h : upstreamBlock d = .ok up) :
    timeouts (namedBalancer up) = failTimeouts (d.block.getD []) := by
  rw [← (upstreamBlock_numbers h).2.timeouts, timeouts, namedBalancer, List.map_map]
  rfl

/-- The upstream at a position is built from the block at the position. -/
theorem UpstreamsOf.getElem? {block : List Directive} {ups : List Upstream}
    (h : UpstreamsOf block ups) {k : Nat} {up : Upstream} (hup : ups[k]? = some up) :
    ∃ d, (blocksNamed "upstream" block)[k]? = some (d.block.getD []) ∧
      upstreamBlock d = .ok up := by
  obtain ⟨d, hd, hbuild⟩ := forall₂_getElem?_left h hup
  exact ⟨d, getElem?_blocksNamed hd, hbuild⟩

/-- The peers behind a name have the timeouts of the directives. -/
theorem UpstreamsOf.peerTimeouts_eq {block : List Directive} {ups : List Upstream}
    (h : UpstreamsOf block ups) (name : String) :
    peerTimeouts block name =
      match (namedBalancers ups).lookup name with
      | some b => timeouts b
      | none => [Text.fromSecs 10] := by
  have hnames : ∀ d up, upstreamBlock d = .ok up →
      decide (d.args.head? = some name) = decide (up.name = name) := by
    intro d up hup
    simp [(upstreamBlock_numbers hup).1]
  have hfind : (ups.map fun up => (up.name, namedBalancer up)).reverse.find?
      (fun p => p.1 = name) =
      (ups.reverse.find? fun up => up.name = name).map fun up => (up.name, namedBalancer up) := by
    rw [← List.map_reverse, List.find?_map]
    rfl
  rw [namedBalancers, HashMap.lookup_collect, hfind, peerTimeouts]
  rcases forall₂_find? (List.rel_reverse h) hnames with ⟨hline, hup⟩ | ⟨d, up, hline, hup, hbuild⟩
  · rw [hline, hup]
    rfl
  · rw [hline, hup]
    exact (timeouts_namedBalancer hbuild).symm

theorem timeouts_ephemeralBalancer (host : String) :
    timeouts (ephemeralBalancer host) = [Text.fromSecs 10] := by
  rw [ephemeralBalancer]
  split
  · rfl
  · split <;> rfl

/-- A fixed target is that of the upstream it names, else a direct address. -/
theorem UpstreamsOf.timeouts_resolveProxy {block : List Directive} {ups : List Upstream}
    (h : UpstreamsOf block ups) (target : String) :
    timeouts (resolveProxy target (namedBalancers ups)) =
      peerTimeouts block (targetHost target) := by
  rw [h.peerTimeouts_eq, targetHost]
  simp only [resolveProxy]
  cases (namedBalancers ups).lookup (Text.trimEndMatches '/' (splitScheme target).2) with
  | none => rfl
  | some b => rfl

/-- And so is a rendered one, after any requests. -/
theorem UpstreamsOf.timeouts_resolve {block : List Directive} {ups : List Upstream}
    (h : UpstreamsOf block ups) {target : String} {earlier : List RequestCtx} {ctx : RequestCtx}
    {b : Balancer}
    (hb : ((proxyTarget target (namedBalancers ups)).resolve
      (ephemeralAfter (proxyTarget target (namedBalancers ups)) earlier) ctx).1 = some b) :
    timeouts b = peerTimeouts block (lookupName target ctx) := by
  have hwf := ephemeralAfter_wf (proxyTarget target (namedBalancers ups)) earlier
  generalize ephemeralAfter (proxyTarget target (namedBalancers ups)) earlier = ephemeral at hb hwf
  by_cases hvar : target.toList.contains '$' = true
  · rw [lookupName, if_pos hvar]
    rw [proxyTarget, if_pos hvar, ProxyTarget.resolve] at hb
    by_cases hne : dynamicHost ((Template.parse target).render ctx) = ""
    · simp [resolveRendered, hne] at hb
    · rw [resolveRendered_fst hwf hne] at hb
      generalize dynamicHost ((Template.parse target).render ctx) = host at hb ⊢
      rw [h.peerTimeouts_eq, ← Option.some.inj hb]
      cases (namedBalancers ups).lookup (bareHost host) with
      | none => exact timeouts_ephemeralBalancer host
      | some b => rfl
  · rw [lookupName, if_neg hvar, ← h.timeouts_resolveProxy]
    rw [proxyTarget, if_neg hvar, ProxyTarget.resolve] at hb
    exact congrArg timeouts (Option.some.inj hb).symm

/-! ### Actions -/

/-- The loop of `try_files` stops at a status code only if the code is its last entry. -/
theorem run_tryEntries_of_code {σ : Type} {answer : σ → (q : Access) → q.Answer × σ} {root : String}
    {ctx : RequestCtx} {code : Nat} :
    ∀ {entries : List TryFilesEntry} {s : σ},
      ((tryEntries root ctx entries).run answer s).1 = .code code →
        entries.getLast? = some (.status code) := by
  intro entries
  induction entries with
  | nil =>
      intro s h
      cases h
  | cons entry rest ih =>
      intro s h
      have hlast : rest.getLast? = some (.status code) →
          (entry :: rest).getLast? = some (.status code) := by
        intro hrest
        rw [List.getLast?_cons, hrest]
        rfl
      cases entry with
      | status n =>
          rw [tryEntries] at h
          split at h
          · next hempty =>
            obtain rfl := List.isEmpty_iff.1 hempty
            rw [Tried.code.inj h]
            rfl
          · exact hlast (ih h)
      | path template =>
          simp only [tryEntries] at h
          split at h
          · split at h
            · cases h
            · exact hlast (ih h)
          · rw [Asks.question_bind] at h
            -- the candidate has been looked up
            simp only [Asks.run] at h
            split at h
            · cases h
            · exact hlast (ih h)

theorem entryCodes_getLast? {entries : List TryFilesEntry} {code : Nat}
    (h : entries.getLast? = some (.status code)) : (entryCodes entries).getLast? = some code := by
  obtain ⟨before, rfl⟩ := List.getLast?_eq_some_iff.1 h
  rw [entryCodes, List.filterMap_append, List.filterMap_cons, List.filterMap_nil,
    List.getLast?_concat]

/-- The operations of an action are inside their domain exactly if the arguments fit that the block
of the location gives it. -/
theorem callOperations_inDomain_iff {σ : Type} {dirs block : List Directive} {http : HttpBlock}
    {loc : LocationRt} (hups : UpstreamsOf (lastBlock "http" dirs) http.upstreams)
    (hnum : RuntimeNumbers http block loc) (w : Encounter σ) (ctx : RequestCtx) (peer : SocketAddr)
    (request : Request) :
    (∀ op ∈ callOperations w (actionCall loc ctx peer request), op.InDomain) ↔
      CallFits dirs block w (actionCall loc ctx peer request) := by
  obtain ⟨hstatuses, hrules, htarget⟩ := hnum
  cases haction : loc.action with
  | files root kind => simp [actionCall, haction, callOperations, CallFits]
  | metrics => simp [actionCall, haction, callOperations, CallFits]
  | ret status body =>
      rw [haction, actionStatuses] at hstatuses
      simp [actionCall, haction, callOperations, CallFits, CodeFits, ← hstatuses,
        Operation.InDomain]
  | tryFiles root entries =>
      rw [haction, actionStatuses] at hstatuses
      simp only [actionCall, haction, callOperations, CallFits, CodeFits, ← hstatuses]
      cases hentries : entries.isEmpty with
      | true =>
          obtain rfl := List.isEmpty_iff.1 hentries
          simp [Operation.InDomain, Encounter.tried, tryEntries, Asks.run]
      | false =>
          cases htried : w.tried root entries ctx with
          | code n =>
              have hcode := entryCodes_getLast? (run_tryEntries_of_code htried)
              simp [hcode, triedStatus?, Operation.InDomain]
          | file rendered => simp [triedStatus?]
          | refused => simp [triedStatus?, Operation.InDomain]
          | nothing => simp [triedStatus?, Operation.InDomain]
  | proxy target setHeaders cache =>
      rw [haction] at hrules htarget
      obtain ⟨t, htargets, rfl⟩ := List.map_eq_singleton_iff.1 htarget.symm
      simp only [actionCall, haction, callOperations, CallFits, htargets, List.forall_mem_singleton]
      cases hb : w.balancer (proxyTarget t (namedBalancers http.upstreams)) ctx with
      | none => simp [Operation.InDomain]
      | some b =>
          obtain ⟨resolved, hresolve, rfl⟩ := Option.map_eq_some_iff.1 hb
          dsimp only
          rw [exchangeOperations_inDomain_iff, timeouts_apply, hups.timeouts_resolve hresolve,
            ← hrules]
          simp only [Option.mem_some_iff, forall_eq']
          rfl

/-! ## The domain -/

section Accepted

variable {env : Externals} {host : Host} {o : IterOrder (SocketAddr × ListenerCfg)}
  {dirs : List Directive} {cfg : MainConfig} {rt : Runtime} {http : HttpBlock}

/-- A location of the runtime is built from a location block that counts. -/
theorem holds_builtFromBlock (hcfg : Config.build env dirs = .ok cfg)
    (hrt : App.build host o cfg = .ok rt) {loc : LocationRt} (hloc : Holds rt loc) :
    ∃ block ∈ locationBlocks dirs, BuiltFromBlock env host cfg block loc := by
  obtain ⟨l, hl, v, hv, hloc⟩ := hloc
  obtain ⟨http, hhttp, hserve⟩ := vhosts_serve hcfg hrt hl
  obtain ⟨server, hserver, hserves⟩ := forall₂_exists_left hserve v hv
  obtain ⟨block, hblock, hbuilt⟩ := serves_builtFromBlock hhttp hserves hloc
  exact ⟨block, List.mem_flatMap.2 ⟨server, (List.mem_filter.1 hserver).1, hblock⟩, hbuilt⟩

theorem http_upstreamsOf (hcfg : Config.build env dirs = .ok cfg) (hhttp : cfg.http = some http) :
    UpstreamsOf (lastBlock "http" dirs) http.upstreams :=
  buildHttp_upstreams (build_lastHttp hcfg hhttp)

theorem stream_upstreamsOf (hcfg : Config.build env dirs = .ok cfg) :
    UpstreamsOf (lastBlock "stream" dirs) (cfg.stream.getD {}).upstreams :=
  buildStream_upstreams (build_lastStream hcfg)

/-- The stream listeners are those of the servers of the `stream` block. -/
theorem build_streams (hrt : App.build host o cfg = .ok rt) :
    List.Forall₂ (fun s x =>
        buildStreamListener (namedBalancers (cfg.stream.getD {}).upstreams) s = .ok x)
      (cfg.stream.getD {}).servers rt.streamServers := by
  rw [App.build] at hrt
  obtain ⟨http, -, h⟩ := bind_eq_ok.1 hrt
  obtain ⟨ls, -, h⟩ := bind_eq_ok.1 h
  obtain ⟨ss, hss, h⟩ := bind_eq_ok.1 h
  split at h
  · cases h
  obtain rfl := Except.ok.inj h
  cases hst : cfg.stream with
  | none =>
      rw [hst] at hss
      obtain rfl := Except.ok.inj hss
      exact List.Forall₂.nil
  | some st =>
      rw [hst] at hss
      exact mapM_forall₂ hss

/-- The stream listener at a position has the target of the server block at the position. -/
theorem exists_streamTarget (hcfg : Config.build env dirs = .ok cfg)
    (hrt : App.build host o cfg = .ok rt) {k : Nat} {x : SocketAddr × Balancer × Bool}
    (hx : rt.streamServers[k]? = some x) :
    ∃ block t, (blocksNamed "server" (lastBlock "stream" dirs))[k]? = some block ∧
      streamTargets block = [t] ∧
      timeouts x.2.1 = peerTimeouts (lastBlock "stream" dirs) (targetHost t) := by
  obtain ⟨s, hs, hbuild⟩ := forall₂_getElem?_left (build_streams hrt) hx
  obtain ⟨d, hd, hserver⟩ :=
    forall₂_getElem?_left (buildStream_servers (build_lastStream hcfg)) hs
  rw [buildStreamListener] at hbuild
  obtain ⟨addr, -, hbuild⟩ := bind_eq_ok.1 hbuild
  obtain ⟨t, ht, hbuild⟩ := bind_eq_ok.1 hbuild
  obtain rfl := Except.ok.inj hbuild
  have htarget : streamTargets (d.block.getD []) = [t] := by
    rw [← buildStreamServer_target hserver, orError_eq_ok.1 ht]
    rfl
  exact ⟨d.block.getD [], t, getElem?_blocksNamed hd, htarget,
    (stream_upstreamsOf hcfg).timeouts_resolveProxy t⟩

/-- A request that is served by a location of the runtime. -/
theorem verdictOperations_inDomain_iff {σ : Type} (hcfg : Config.build env dirs = .ok cfg)
    (hrt : App.build host o cfg = .ok rt) (w : Encounter σ) {verdict : Verdict}
    (hserved : ∀ loc call response, verdict = .served loc call response →
      Holds rt loc ∧ ∃ ctx peer request, call = actionCall loc ctx peer request) :
    (∀ op ∈ verdictOperations w verdict, op.InDomain) ↔
      VerdictFits env host dirs cfg w verdict := by
  obtain ⟨http, hhttp, -⟩ := build_listeners hrt
  have hups := http_upstreamsOf hcfg hhttp
  cases verdict with
  | served loc call response =>
      obtain ⟨hloc, ctx, peer, request, rfl⟩ := hserved loc call response rfl
      rw [verdictOperations, VerdictFits]
      constructor
      · intro h
        obtain ⟨block, hblock, hbuilt⟩ := holds_builtFromBlock hcfg hrt hloc
        exact ⟨block, hblock, hbuilt,
          (callOperations_inDomain_iff hups (hbuilt.numbers hhttp) w ctx peer request).1 h⟩
      · rintro ⟨block, -, hbuilt, hfit⟩
        exact (callOperations_inDomain_iff hups (hbuilt.numbers hhttp) w ctx peer request).2 hfit
  | tooLarge response => simp [verdictOperations, VerdictFits]
  | unrouted => simp [verdictOperations, VerdictFits]
  | denied denial => simp [verdictOperations, VerdictFits]

/-- A relayed exchange with a peer of a stream listener. -/
theorem relay_inDomain_iff (hcfg : Config.build env dirs = .ok cfg)
    (hrt : App.build host o cfg = .ok rt) {k : Nat} {x : SocketAddr × Balancer × Bool}
    (hx : rt.streamServers[k]? = some x) {b : Balancer}
    (hb : balancerConfig b = balancerConfig x.2.1) (relayEnv : Stream.RelayEnv)
    (client : SocketAddr) (exchange : Nat → Stream.Exchanged) :
    (∀ op ∈ relayOperations relayEnv client b (Stream.relay relayEnv client b exchange),
        op.InDomain) ↔
      ∀ block ∈ (blocksNamed "server" (lastBlock "stream" dirs))[k]?, ∀ t ∈ streamTargets block,
        RelayFits relayEnv client b exchange
          (peerTimeouts (lastBlock "stream" dirs) (targetHost t)) := by
  obtain ⟨block, t, hblock, htargets, htimeouts⟩ := exists_streamTarget hcfg hrt hx
  rw [relayOperations_inDomain_iff, timeouts_of_config hb, htimeouts, hblock]
  simp [htargets]

end Accepted

/-- **Accepted configurations and the domain of the runtime.** In every configuration that both
builds accept, the operations performed on any occasion of its runtime are inside their domain
exactly if the arguments fit that they get from the directives. -/
theorem accepted_inDomain_iff {σ : Type} (env : Externals) (host : Host)
    (o : IterOrder (SocketAddr × ListenerCfg)) (dirs : List Directive) (cfg : MainConfig)
    (rt : Runtime) (hcfg : Config.build env dirs = .ok cfg) (hrt : App.build host o cfg = .ok rt)
    (occasion : Occasion σ) (hoccurs : occasion.Occurs cfg rt) :
    (∀ op ∈ occasion.operations, op.InDomain) ↔ ArgsFit env host dirs cfg occasion := by
  cases occasion with
  | request crates reply state req peer w =>
      obtain ⟨l, hl, hostHeader, hstate⟩ := hoccurs
      apply verdictOperations_inDomain_iff hcfg hrt w
      intro loc call response hverdict
      obtain ⟨hroute, hcall, -⟩ := handleVerdict_served reply crates hverdict
      exact ⟨holds_of_route hl hstate hroute, _, peer, req, hcall⟩
  | h3Request crates reply state method uri headers bodyBytes peer w =>
      obtain ⟨l, hl, hostHeader, hstate⟩ := hoccurs
      apply verdictOperations_inDomain_iff hcfg hrt w
      intro loc call response hverdict
      obtain ⟨hroute, hcall⟩ := dispatchVerdict_served reply crates hverdict
      exact ⟨holds_of_route hl hstate hroute, _, peer, _, hcall⟩
  | startProbes k check =>
      obtain ⟨http, up, hhttp, hup, hcheck⟩ := hoccurs
      obtain ⟨d, hd, hbuild⟩ := (http_upstreamsOf hcfg hhttp).getElem? hup
      have hinterval := (upstreamBlock_numbers hbuild).2.interval
      rw [hcheck] at hinterval
      simp [Occasion.operations, ArgsFit, hd, ← hinterval, Operation.InDomain]
  | probe k check b peer outcome nowMs =>
      obtain ⟨http, up, hhttp, hup, -, hconfig, -⟩ := hoccurs
      obtain ⟨d, hd, hbuild⟩ := (http_upstreamsOf hcfg hhttp).getElem? hup
      rw [Occasion.operations, probeOperations_inDomain_iff, timeouts_of_config hconfig,
        timeouts_namedBalancer hbuild, ArgsFit, hd]
      simp
  | connection k b relayEnv client =>
      obtain ⟨x, hx, -, hconfig⟩ := hoccurs
      exact relay_inDomain_iff hcfg hrt hx hconfig relayEnv.toRelayEnv client _
  | datagram k b relayEnv client data =>
      obtain ⟨x, hx, -, hconfig⟩ := hoccurs
      exact relay_inDomain_iff hcfg hrt hx hconfig relayEnv.toRelayEnv client _

/-! ## Two configurations -/

/-- A configuration with a `return` status, a health check interval, a `fail_timeout` and a cache
lifetime. -/
def numbersConfig (status interval timeout lifetime : String) : List Directive :=
  [⟨"http", [], some
    [lineOf "proxy_cache_path" ["/var/cache", "keys_zone=app:10m"],
      ⟨"upstream", ["app"], some
        [lineOf "server" ["10.0.0.1:80", timeout], lineOf "health_check" [interval]], 1⟩,
      ⟨"server", [], some
        [lineOf "listen" ["80"],
          ⟨"location", ["=", "/gone"], some [lineOf "return" [status]], 1⟩,
          ⟨"location", ["=", "/page"], some
            [lineOf "proxy_pass" ["http://app"], lineOf "proxy_cache" ["app"],
              lineOf "proxy_cache_valid" ["200", lifetime]], 1⟩], 1⟩], 1⟩]

/-- A configuration whose numbers are all outside the domain. -/
def wildConfig : List Directive :=
  numbersConfig "1000" "interval=0" "fail_timeout=18446744073709551615" "9223372036854775808"

/-- An upstream that answers with a page, a day after the start. -/
def dayEnv : Env :=
  { quietEnv with
    attempt := fun k => { quietEnv.attempt k with answer := fun _ _ => .response barePage }
    storeAt := Text.fromSecs 86400 }

/-- The first request on that day. -/
def dayEncounter : Encounter Unit where
  files := noteFiles
  start := ()
  earlier := []
  others := Interference.quiet
  exchange := dayEnv
  store := Cache.State.new

/-- A request for a path. -/
def pathOccasion (state : ServerState) (path : String) : Occasion Unit :=
  .request fixedCrates quietReply state ⟨.get, ⟨none, none, some path⟩, .http11, ∅, full []⟩
    clientPeer dayEncounter

/-- A time in the year 2023. -/
def someDay : UInt64 := 1700000000000

/-- A probe of the first server of an upstream that gets no answer in time. -/
def probeOccasion (check : HealthCheckCfg) (up : Upstream) : Occasion Unit :=
  .probe 0 check (namedBalancer up) 0 .timedOut someDay

/-- Both builds accept the configuration, and each of its numbers reaches an operation that is not
defined on it: `text` panics on status 1000, `interval` on a period of zero, the instant of expiry
has no representation, and the end of the cooldown wraps, so that another time is stored. -/
theorem accepted_out_of_domain :
    ∃ cfg, Config.build noExternals wildConfig = .ok cfg ∧
      ∃ rt, App.build loadingHost IterOrder.stored cfg = .ok rt ∧
        (∀ op ∈ [Operation.text 1000, .interval 0, .expiry (Text.fromSecs (86400 + 2 ^ 63)),
              .cooldown someDay (Text.fromSecs (2 ^ 64 - 1))],
            (∃ occasion : Occasion Unit, occasion.Occurs cfg rt ∧ occasion.operations = [op]) ∧
              ¬ op.InDomain) ∧
        ∃ http up p, cfg.http = some http ∧ http.upstreams[0]? = some up ∧
          (namedBalancer up).peers[0]? = some p ∧
          (p.recordFailure someDay).failedUntilMs.toNat ≠
            someDay.toNat + Text.asMillis p.failTimeout := by
  refine ⟨_, rfl, _, rfl, ?_, _, _, _, rfl, rfl, rfl, ?_⟩
  · simp only [List.forall_mem_cons]
    refine ⟨⟨⟨pathOccasion _ "/gone", ⟨_, List.mem_cons_self, none, rfl⟩, by decide +kernel⟩,
        by decide⟩,
      ⟨⟨.startProbes 0 _, ⟨_, _, rfl, rfl, rfl⟩, by decide +kernel⟩, by decide⟩,
      ⟨⟨pathOccasion _ "/page", ⟨_, List.mem_cons_self, none, rfl⟩, by decide +kernel⟩, by decide⟩,
      ⟨⟨probeOccasion _ _, ⟨_, _, rfl, rfl, rfl, rfl, by decide +kernel⟩, by decide +kernel⟩,
        by decide⟩,
      fun _ h => absurd h List.not_mem_nil⟩
  · exact (recordFailure_inDomain_iff _ someDay (by decide +kernel)).not.2 (by decide +kernel)

/-- A configuration with ordinary numbers. -/
def tameConfig : List Directive := numbersConfig "404" "interval=5s" "fail_timeout=30s" "10m"

/-- The timer of its probes starts, and the arguments that a request for the page gets to fit. -/
theorem tame_inDomain :
    ∃ cfg, Config.build noExternals tameConfig = .ok cfg ∧
      ∃ rt, App.build loadingHost IterOrder.stored cfg = .ok rt ∧
        (∃ http up check, cfg.http = some http ∧ http.upstreams[0]? = some up ∧
          up.healthCheck = some check ∧
          ∀ op ∈ (Occasion.startProbes 0 check : Occasion Unit).operations, op.InDomain) ∧
        ∃ l state, rt.listeners[0]? = some l ∧ pickState l none = some state ∧
          ArgsFit noExternals loadingHost tameConfig cfg (pathOccasion state "/page") := by
  have hiff := fun cfg rt hcfg hrt (occasion : Occasion Unit) =>
    accepted_inDomain_iff noExternals loadingHost IterOrder.stored tameConfig cfg rt hcfg hrt
      occasion
  refine ⟨_, rfl, _, rfl, ⟨_, _, _, rfl, rfl, rfl, ?_⟩, _, _, rfl, rfl, ?_⟩
  · refine (hiff _ _ rfl rfl (.startProbes 0 _) ⟨_, _, rfl, rfl, rfl⟩).2 ?_
    intro block hblock
    obtain rfl := Option.some.inj hblock
    decide +kernel
  · exact (hiff _ _ rfl rfl (pathOccasion _ "/page") ⟨_, List.mem_cons_self, none, rfl⟩).1
      (by decide +kernel)

end Elrond.Server
