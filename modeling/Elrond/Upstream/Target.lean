import Elrond.Lib.HashMap
import Elrond.Lib.Run
import Elrond.Upstream.Balancer

/-!
# Proxy targets

How a `proxy_pass` target becomes a balancer. A target without `$` is resolved once
(`resolve_proxy`): its scheme is split off, the host is looked up among the named upstreams, and a
host that is none of them becomes a balancer with one peer. A target with `$` is rendered per
request (`ProxyTarget::resolve`), looked up the same way, and otherwise kept in a map of ephemeral
balancers.

The balancers of named upstreams are built before any target is read and always speak plain HTTP.
`https_target_iff` says what that means for a target written with `https://`: it is contacted over
TLS exactly when its host names no upstream, and, if it is rendered, when there is a host at all.
-/

set_option autoImplicit false

namespace Elrond.Upstream

open Elrond.Lib Elrond.Http Elrond.Config Elrond.Request

/-! ## Building balancers -/

/-- A peer as `build` creates it from a `server` line. -/
def peerOf (s : UpstreamServer) : Peer where
  addr := s.addr
  weight := s.weight
  maxFails := s.maxFails
  failTimeout := s.failTimeout
  backup := s.backup
  down := s.down

/-- The balancer of a named upstream. -/
def namedBalancer (up : Upstream) : Balancer where
  name := up.name
  method := up.method
  peers := up.servers.map peerOf
  scheme := .http

/-- The table of named upstreams; a later upstream replaces an earlier one of the same name. -/
def namedBalancers (ups : List Upstream) : HashMap String Balancer :=
  HashMap.collect (ups.map fun up => (up.name, namedBalancer up))

/-- The balancer of a direct address: one peer with the default health settings. -/
def directBalancer (scheme : Scheme) (addr : String) : Balancer where
  name := addr
  method := .roundRobin
  peers := [⟨addr, 1, 1, Text.fromSecs 10, false, false, 0, 0, 0⟩]
  scheme := scheme

/-! ## Fixed targets -/

/-- The scheme a fixed target is written with, and what follows it. -/
def splitScheme (target : String) : Scheme × String :=
  match Text.stripPrefix "https://" target with
  | some rest => (.https, rest)
  | none =>
      match Text.stripPrefix "http://" target with
      | some rest => (.http, rest)
      | none => (.http, target)

/-- `resolve_proxy`. -/
def resolveProxy (target : String) (balancers : HashMap String Balancer) : Balancer :=
  let (scheme, rest) := splitScheme target
  let host := Text.trimEndMatches '/' rest
  match balancers.lookup host with
  | some b => b
  | none => directBalancer scheme host

/-! ## Dynamic targets -/

/-- The key of a rendered target in the ephemeral map: without a leading `http://` and without
trailing slashes. -/
def dynamicHost (rendered : String) : String :=
  Text.trimEndMatches '/' ((Text.stripPrefix "http://" rendered).getD rendered)

/-- The name a rendered target is looked up with among the named upstreams. -/
def bareHost (host : String) : String :=
  Text.trimEndMatches '/'
    (((Text.stripPrefix "http://" host).or (Text.stripPrefix "https://" host)).getD host)

/-- The balancer made for a rendered target that names no upstream. -/
def ephemeralBalancer (host : String) : Balancer :=
  match Text.stripPrefix "https://" host with
  | some s => directBalancer .https (Text.trimEndMatches '/' s)
  | none =>
      match Text.stripPrefix "http://" host with
      | some s => directBalancer .http (Text.trimEndMatches '/' s)
      | none => directBalancer .http host

/-- The dynamic branch of `ProxyTarget::resolve` on the rendered text: the balancer, if any, and
the ephemeral map after it. -/
def resolveRendered (balancers ephemeral : HashMap String Balancer) (rendered : String) :
    Option Balancer × HashMap String Balancer :=
  let host := dynamicHost rendered
  if host = "" then (none, ephemeral)
  else
    match balancers.lookup (bareHost host) with
    | some b => (some b, ephemeral)
    | none =>
        match ephemeral.lookup host with
        | some b => (some b, ephemeral)
        | none => (some (ephemeralBalancer host), ephemeral.insert host (ephemeralBalancer host))

/-- `ProxyTarget`. The ephemeral map of a dynamic target is state and kept apart. -/
inductive ProxyTarget where
  | fixed (balancer : Balancer)
  | dynamic (template : Template) (balancers : HashMap String Balancer)

/-- The target `build` makes of the argument of `proxy_pass`. -/
def proxyTarget (target : String) (balancers : HashMap String Balancer) : ProxyTarget :=
  if target.toList.contains '$' then .dynamic (Template.parse target) balancers
  else .fixed (resolveProxy target balancers)

/-- `ProxyTarget::resolve`, with the ephemeral map before and after it. -/
def ProxyTarget.resolve (t : ProxyTarget) (ephemeral : HashMap String Balancer)
    (ctx : RequestCtx) : Option Balancer × HashMap String Balancer :=
  match t with
  | .fixed b => (some b, ephemeral)
  | .dynamic template balancers => resolveRendered balancers ephemeral (template.render ctx)

/-- The ephemeral map of a target after the requests `ctxs`. -/
def ephemeralAfter (t : ProxyTarget) (ctxs : List RequestCtx) : HashMap String Balancer :=
  run (fun ephemeral ctx => (t.resolve ephemeral ctx).2) ∅ ctxs

/-- The text `forward_to_peer` parses as the upstream URI. -/
def upstreamUriText (scheme : Scheme) (addr pathAndQuery : String) : String :=
  scheme.asStr ++ "://" ++ addr ++ pathAndQuery

/-! ## The scheme of a resolved target -/

/-- The balancer speaks TLS: its scheme is `https`, and so is that of every URI built from it. -/
def UsesHttps (b : Balancer) : Prop :=
  b.scheme = .https ∧
    ∀ p ∈ b.peers, ∀ pq, ∃ s, upstreamUriText b.scheme p.addr pq = "https://" ++ s

theorem usesHttps_iff (b : Balancer) : UsesHttps b ↔ b.scheme = .https := by
  constructor
  · exact fun h => h.1
  · intro h
    refine ⟨h, fun p _ pq => ⟨p.addr ++ pq, ?_⟩⟩
    have hs : Scheme.https.asStr ++ "://" = "https://" := by decide
    rw [upstreamUriText, h, hs, String.append_assoc]

/-- Every named upstream speaks plain HTTP. -/
theorem scheme_of_lookup_namedBalancers {ups : List Upstream} {name : String} {b : Balancer}
    (h : (namedBalancers ups).lookup name = some b) : b.scheme = .http := by
  rw [namedBalancers, HashMap.lookup_collect] at h
  obtain ⟨p, hp, rfl⟩ := Option.map_eq_some_iff.1 h
  have hmem := List.mem_reverse.1 (List.mem_of_find?_eq_some hp)
  obtain ⟨up, -, rfl⟩ := List.mem_map.1 hmem
  rfl

/-- A name is in the table exactly if an upstream has it. -/
theorem lookup_namedBalancers_eq_none {ups : List Upstream} {name : String} :
    (namedBalancers ups).lookup name = none ↔ ∀ up ∈ ups, up.name ≠ name := by
  rw [namedBalancers, HashMap.lookup_collect_eq_none, List.map_map, List.mem_map]
  constructor
  · intro h up hup heq
    exact h ⟨up, hup, heq⟩
  · rintro h ⟨up, hup, heq⟩
    exact h up hup heq

theorem splitScheme_https (rest : String) : splitScheme ("https://" ++ rest) = (.https, rest) := by
  rw [splitScheme, Text.stripPrefix_append]

/-- A fixed `https://` target speaks TLS exactly when its host names no upstream. -/
theorem resolveProxy_https_iff (ups : List Upstream) (rest : String) :
    (resolveProxy ("https://" ++ rest) (namedBalancers ups)).scheme = .https ↔
      ∀ up ∈ ups, up.name ≠ Text.trimEndMatches '/' rest := by
  rw [← lookup_namedBalancers_eq_none, resolveProxy, splitScheme_https]
  cases hlookup : (namedBalancers ups).lookup (Text.trimEndMatches '/' rest) with
  | none => simp [hlookup, directBalancer]
  | some b => simp [hlookup, scheme_of_lookup_namedBalancers hlookup]

/-! ## Rendered targets -/

/-- No text starts with both schemes. -/
theorem http_append_ne_https (r t : String) : "http://" ++ r ≠ "https://" ++ t := by
  intro h
  have hhttps : ("https://" : String).toList = ['h', 't', 't', 'p', 's', ':', '/', '/'] := by decide
  have hhttp : ("http://" : String).toList = ['h', 't', 't', 'p', ':', '/', '/'] := by decide
  rw [← String.toList_inj, String.toList_append, String.toList_append, hhttps, hhttp] at h
  simp at h

theorem stripPrefix_http_https (rest : String) :
    Text.stripPrefix "http://" ("https://" ++ rest) = none := by
  rw [Text.stripPrefix_eq_none]
  intro t h
  exact http_append_ne_https t rest h.symm

/-- The ephemeral map holds under every key the balancer made for that key. -/
def EphemeralWf (ephemeral : HashMap String Balancer) : Prop :=
  ∀ host b, ephemeral.lookup host = some b → b = ephemeralBalancer host

theorem resolveRendered_wf {balancers ephemeral : HashMap String Balancer}
    (h : EphemeralWf ephemeral) (rendered : String) :
    EphemeralWf (resolveRendered balancers ephemeral rendered).2 := by
  simp only [resolveRendered]
  split
  · exact h
  · split
    · exact h
    · split
      · exact h
      · intro host b hb
        rw [HashMap.lookup_insert_eq] at hb
        split at hb
        · rename_i hhost
          rw [hhost]
          exact (Option.some.inj hb).symm
        · exact h host b hb

theorem resolve_wf {t : ProxyTarget} {ephemeral : HashMap String Balancer}
    (h : EphemeralWf ephemeral) (ctx : RequestCtx) : EphemeralWf (t.resolve ephemeral ctx).2 := by
  cases t with
  | fixed b => exact h
  | dynamic template balancers =>
      rw [ProxyTarget.resolve]
      exact resolveRendered_wf h (template.render ctx)

/-- The ephemeral map of a target is well formed after any requests. -/
theorem ephemeralAfter_wf (t : ProxyTarget) (ctxs : List RequestCtx) :
    EphemeralWf (ephemeralAfter t ctxs) := by
  apply run_invariant
  · intro ephemeral ctx h
    exact resolve_wf h ctx
  · intro host b h
    simp at h

/-- What a rendered target resolves to when the map is well formed: a named upstream, or the
balancer of its host. -/
theorem resolveRendered_fst {balancers ephemeral : HashMap String Balancer}
    (h : EphemeralWf ephemeral) {rendered : String} (hne : dynamicHost rendered ≠ "") :
    (resolveRendered balancers ephemeral rendered).1 =
      some ((balancers.lookup (bareHost (dynamicHost rendered))).getD
        (ephemeralBalancer (dynamicHost rendered))) := by
  rw [resolveRendered]
  generalize dynamicHost rendered = host at hne ⊢
  simp only [if_neg hne]
  cases hnamed : balancers.lookup (bareHost host) with
  | some b => simp
  | none =>
      cases hep : ephemeral.lookup host with
      | none => simp
      | some b => simp [h host b hep]

/-- With a host, the rendered target keeps it and is looked up by it. -/
theorem dynamicHost_https {rest : String} (h : Text.trimEndMatches '/' rest ≠ "") :
    dynamicHost ("https://" ++ rest) = "https://" ++ Text.trimEndMatches '/' rest := by
  rw [dynamicHost, stripPrefix_http_https, Option.getD_none, Text.trimEndMatches_append, if_neg h]

/-- Without a host, only `https:` is left and no scheme is recognised in it. -/
theorem dynamicHost_https_empty {rest : String} (h : Text.trimEndMatches '/' rest = "") :
    dynamicHost ("https://" ++ rest) = "https:" := by
  rw [dynamicHost, stripPrefix_http_https, Option.getD_none, Text.trimEndMatches_append, if_pos h]
  decide

theorem bareHost_https (host : String) :
    bareHost ("https://" ++ host) = Text.trimEndMatches '/' host := by
  rw [bareHost, stripPrefix_http_https, Option.none_or, Text.stripPrefix_append, Option.getD_some]

theorem ephemeralBalancer_https (host : String) :
    (ephemeralBalancer ("https://" ++ host)).scheme = .https := by
  simp [ephemeralBalancer, directBalancer]

/-- A rendered `https://` target speaks TLS exactly when it has a host that names no upstream. -/
theorem resolveRendered_https_iff {ups : List Upstream} {ephemeral : HashMap String Balancer}
    (hwf : EphemeralWf ephemeral) (rest : String) :
    (∃ b, (resolveRendered (namedBalancers ups) ephemeral ("https://" ++ rest)).1 = some b ∧
        b.scheme = .https) ↔
      Text.trimEndMatches '/' rest ≠ "" ∧ ∀ up ∈ ups, up.name ≠ Text.trimEndMatches '/' rest := by
  by_cases hhost : Text.trimEndMatches '/' rest = ""
  -- Trimming the slashes has eaten into `https://`, so what is left has no scheme.
  · have hdyn := dynamicHost_https_empty hhost
    rw [resolveRendered_fst hwf (by rw [hdyn]; decide), hdyn]
    constructor
    · rintro ⟨b, hb, hscheme⟩
      obtain rfl := Option.some.inj hb
      cases hlookup : (namedBalancers ups).lookup (bareHost "https:") with
      | some b' =>
          rw [hlookup, Option.getD_some, scheme_of_lookup_namedBalancers hlookup] at hscheme
          exact Scheme.noConfusion hscheme
      | none =>
          rw [hlookup, Option.getD_none] at hscheme
          exact absurd hscheme (by decide)
    · intro h
      exact absurd hhost h.1
  · have hdyn := dynamicHost_https hhost
    have hne : dynamicHost ("https://" ++ rest) ≠ "" := by
      rw [hdyn]
      intro h
      have hlen := congrArg (fun s => s.toList.length) h
      simp at hlen
    rw [resolveRendered_fst hwf hne, hdyn, bareHost_https, Text.trimEndMatches_trimEndMatches,
      ← lookup_namedBalancers_eq_none]
    cases hlookup : (namedBalancers ups).lookup (Text.trimEndMatches '/' rest) with
    | some b => simp [scheme_of_lookup_namedBalancers hlookup]
    | none => simp [ephemeralBalancer_https, hhost]

/-! ## The result -/

/-- The text of a target as the exchange sees it: rendered when it holds a `$`. -/
def targetText (target : String) (ctx : RequestCtx) : String :=
  if target.toList.contains '$' then (Template.parse target).render ctx else target

/-- **TLS to the upstream.** A `proxy_pass` target whose text starts with `https://` is contacted
over TLS, after any earlier requests to the location, exactly when its host names no upstream and,
in a rendered target, is not empty. -/
theorem https_target_iff (ups : List Upstream) (target : String) (earlier : List RequestCtx)
    (ctx : RequestCtx) (rest : String) (htext : targetText target ctx = "https://" ++ rest) :
    (∃ b, ((proxyTarget target (namedBalancers ups)).resolve
          (ephemeralAfter (proxyTarget target (namedBalancers ups)) earlier) ctx).1 = some b ∧
        UsesHttps b) ↔
      (∀ up ∈ ups, up.name ≠ Text.trimEndMatches '/' rest) ∧
        (target.toList.contains '$' = true → Text.trimEndMatches '/' rest ≠ "") := by
  simp only [usesHttps_iff]
  have hwf := ephemeralAfter_wf (proxyTarget target (namedBalancers ups)) earlier
  generalize ephemeralAfter (proxyTarget target (namedBalancers ups)) earlier = ephemeral at hwf ⊢
  by_cases hdollar : target.toList.contains '$' = true
  -- A target with a variable is rendered and resolved for each request.
  · rw [targetText, if_pos hdollar] at htext
    rw [proxyTarget, if_pos hdollar]
    simp only [ProxyTarget.resolve, htext]
    rw [resolveRendered_https_iff hwf]
    constructor
    · rintro ⟨hne, hnames⟩
      exact ⟨hnames, fun _ => hne⟩
    · rintro ⟨hnames, hne⟩
      exact ⟨hne hdollar, hnames⟩
  -- Any other target was resolved when the configuration was built.
  · rw [targetText, if_neg hdollar] at htext
    have hfixed := resolveProxy_https_iff ups rest
    rw [← htext] at hfixed
    rw [proxyTarget, if_neg hdollar]
    simp only [ProxyTarget.resolve]
    constructor
    · rintro ⟨b, hb, hscheme⟩
      obtain rfl := Option.some.inj hb
      exact ⟨hfixed.1 hscheme, fun h => absurd h hdollar⟩
    · rintro ⟨hnames, -⟩
      exact ⟨_, rfl, hfixed.2 hnames⟩

/-- A request without headers, for the two cases below. -/
def plainCtx : RequestCtx where
  peer := ⟨.v4 ⟨127, 0, 0, 1⟩, 50000, 0⟩
  serverName := none
  method := .get
  uri := ⟨none, none, some "/"⟩
  headers := ∅
  scheme := .https
  userVars := ∅

/-- An upstream `backend` with one server. -/
def backendUpstream : Upstream where
  name := "backend"
  method := .roundRobin
  servers := [{ addr := "10.0.0.1:8443" }]
  healthCheck := none

/-- `proxy_pass https://backend` to a named upstream is contacted in plain text. -/
theorem https_named_upstream_is_plain :
    ¬ ∃ b, ((proxyTarget "https://backend" (namedBalancers [backendUpstream])).resolve
        (ephemeralAfter (proxyTarget "https://backend" (namedBalancers [backendUpstream])) [])
        plainCtx).1 = some b ∧ UsesHttps b := by
  rintro ⟨b, hb, huses⟩
  have hscheme := (usesHttps_iff b).1 huses
  have hb' : b = namedBalancer backendUpstream := by
    have hresolve : ((proxyTarget "https://backend" (namedBalancers [backendUpstream])).resolve
        (ephemeralAfter (proxyTarget "https://backend" (namedBalancers [backendUpstream])) [])
        plainCtx).1 = some (namedBalancer backendUpstream) := by decide
    exact Option.some.inj (hb.symm.trans hresolve)
  rw [hb'] at hscheme
  exact absurd hscheme (by decide)

/-- A direct address keeps its TLS. -/
theorem https_target_iff_direct :
    ∃ b, ((proxyTarget "https://10.0.0.1:8443/" (namedBalancers [backendUpstream])).resolve
        (ephemeralAfter (proxyTarget "https://10.0.0.1:8443/" (namedBalancers [backendUpstream]))
          [plainCtx]) plainCtx).1 = some b ∧ UsesHttps b :=
  (https_target_iff [backendUpstream] "https://10.0.0.1:8443/" [plainCtx] plainCtx "10.0.0.1:8443/"
    (by decide)).2 ⟨by decide, by decide⟩

end Elrond.Upstream
