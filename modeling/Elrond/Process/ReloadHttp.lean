import Elrond.Process.Supervisor

/-!
# Reloading HTTP listeners

What `reload_http` does when no two running listeners and no two wanted ones share an address, which
holds along every run: a running listener whose address is wanted is kept with the new
configuration, every other one is closed, and a wanted address that nobody listens on is bound.

The TLS mode of a listener is fixed at its start, while its configuration is replaced by every
reload. `tls_mode_iff` says when the two agree in all states of a run: exactly if no reload changes
the mode of an address somebody listens on.
-/

set_option autoImplicit false

namespace Elrond.Process

open Elrond.Lib Elrond.Http Elrond.Config Elrond.Upstream Elrond.App

/-! ## Accepted runtimes -/

/-- The server blocks of an accepted runtime, with what they determine about its listeners; HTTP/3
is only ever asked for together with TLS. -/
theorem Loaded.spec (new : Loaded) :
    ∃ servers, ListenersSpec servers new.runtime.listeners ∧
      ∀ s ∈ servers, s.http3 = true → s.tls = true := by
  obtain ⟨env, dirs, cfg, host, o, hcfg, hrt⟩ := new.accepted
  obtain ⟨http, hhttp, hls⟩ := build_listeners hrt
  refine ⟨http.servers, buildListeners_spec hls, ?_⟩
  intro s hs hh3
  obtain ⟨b, -, hbuild⟩ := forall₂_exists_left (build_servers hcfg hhttp) s hs
  have hread := buildServer_listen hbuild
  rw [hread.http3] at hh3
  obtain ⟨d, hd, hflag⟩ := List.any_eq_true.1 hh3
  rw [hread.tls]
  exact List.any_eq_true.2 ⟨d, hd, listenTls_of_listenHttp3 hflag⟩

theorem Loaded.nodup (new : Loaded) : (new.runtime.listeners.map ListenerCfg.addr).Nodup := by
  obtain ⟨servers, hspec, -⟩ := new.spec
  exact hspec.nodup

/-! ## The diff -/

theorem lookup_wantedHttp {new : List ListenerCfg} (hnew : (new.map ListenerCfg.addr).Nodup)
    {a : SocketAddr} {c : ListenerCfg} :
    (wantedHttp new).lookup a = some c ↔ c ∈ new ∧ c.addr = a := by
  have hkeys : ((new.map fun c => (c.addr, c)).map Prod.fst).Nodup := by
    rw [List.map_map]
    exact hnew
  rw [wantedHttp, HashMap.lookup_collect_of_once (List.nodup_iff_count_le_one.1 hkeys a),
    List.mem_map]
  constructor
  · rintro ⟨d, hd, heq⟩
    obtain ⟨rfl, rfl⟩ := Prod.mk.inj heq
    exact ⟨hd, rfl⟩
  · rintro ⟨hc, rfl⟩
    exact ⟨c, hc, rfl⟩

/-- Every listener started is one of the left-over entries, with a new number. -/
theorem mem_spawnRest {binds : Binds} :
    ∀ {ps : List (SocketAddr × ListenerCfg)} {n : Nat} {l : HttpListener},
      l ∈ (spawnRest binds n ps).1 → ∃ p ∈ ps, ∃ i, n ≤ i ∧ l = spawnHttp i p.2 := by
  intro ps
  induction ps with
  | nil =>
      intro n l hl
      exact absurd hl List.not_mem_nil
  | cons p ps ih =>
      intro n l hl
      rw [spawnRest] at hl
      split at hl
      · rcases List.mem_cons.1 hl with rfl | hl
        · exact ⟨p, List.mem_cons_self, n, le_refl n, rfl⟩
        · obtain ⟨q, hq, i, hi, rfl⟩ := ih hl
          exact ⟨q, List.mem_cons_of_mem p hq, i, by omega, rfl⟩
      · obtain ⟨q, hq, i, hi, rfl⟩ := ih hl
        exact ⟨q, List.mem_cons_of_mem p hq, i, hi, rfl⟩

/-- The addresses of the listeners started are some of those left over, in their order. -/
theorem spawnRest_addrs (binds : Binds) :
    ∀ (ps : List (SocketAddr × ListenerCfg)) (n : Nat),
      ((spawnRest binds n ps).1.map HttpListener.addr).Sublist (ps.map fun p => p.2.addr) := by
  intro ps
  induction ps with
  | nil =>
      intro n
      exact List.Sublist.refl _
  | cons p ps ih =>
      intro n
      rw [spawnRest]
      split
      · exact (ih (n + 1)).cons_cons _
      · exact (ih n).cons _

section Diff

variable {binds : Binds} {o : IterOrder (SocketAddr × ListenerCfg)} {n : Nat}
  {old : List HttpListener} {new : List ListenerCfg}

/-- The entries left over are the wanted addresses nobody listens on. -/
theorem mem_rest (hnew : (new.map ListenerCfg.addr).Nodup) {p : SocketAddr × ListenerCfg} :
    p ∈ HashMap.iter (reconcile HttpListener.addr (wantedHttp new) old).rest o ↔
      p.2 ∈ new ∧ p.2.addr = p.1 ∧ ∀ l ∈ old, l.addr ≠ p.1 := by
  obtain ⟨a, c⟩ := p
  rw [HashMap.mem_iter, lookup_rest]
  by_cases ha : a ∈ old.map HttpListener.addr
  · rw [if_pos ha]
    obtain ⟨l, hl, hla⟩ := List.mem_map.1 ha
    constructor
    · intro h
      exact absurd h (by simp)
    · rintro ⟨-, -, hno⟩
      exact absurd hla (hno l hl)
  · rw [if_neg ha, lookup_wantedHttp hnew]
    constructor
    · rintro ⟨hc, haddr⟩
      exact ⟨hc, haddr, fun l hl heq => ha (List.mem_map.2 ⟨l, hl, heq⟩)⟩
    · rintro ⟨hc, haddr, -⟩
      exact ⟨hc, haddr⟩

/-- A running listener whose address is wanted is kept. -/
theorem keepHttp_mem_reloadHttp (hold : (old.map HttpListener.addr).Nodup)
    (hnew : (new.map ListenerCfg.addr).Nodup) {l : HttpListener} {c : ListenerCfg} (hl : l ∈ old)
    (hc : c ∈ new) (haddr : c.addr = l.addr) :
    keepHttp l c ∈ (reloadHttp binds o n old new).1 := by
  apply List.mem_append_left
  apply List.mem_map.2
  refine ⟨(l, c), mem_matched.2 ⟨?_, (lookup_wantedHttp hnew).2 ⟨hc, haddr⟩⟩, rfl⟩
  exact (find?_key _ (List.nodup_iff_count_le_one.1 hold _)).2 hl

/-- Every listener after a reload is kept or new. -/
theorem reloadHttp_cases (hold : (old.map HttpListener.addr).Nodup)
    (hnew : (new.map ListenerCfg.addr).Nodup) {l' : HttpListener}
    (h : l' ∈ (reloadHttp binds o n old new).1) :
    (∃ l ∈ old, ∃ c ∈ new, c.addr = l.addr ∧ l' = keepHttp l c) ∨
      ∃ c ∈ new, (∀ l ∈ old, l.addr ≠ c.addr) ∧ ∃ i, n ≤ i ∧ l' = spawnHttp i c := by
  rcases List.mem_append.1 h with h | h
  · obtain ⟨⟨l, c⟩, hm, rfl⟩ := List.mem_map.1 h
    obtain ⟨hfirst, hlookup⟩ := mem_matched.1 hm
    obtain ⟨hc, haddr⟩ := (lookup_wantedHttp hnew).1 hlookup
    have hl := (find?_key _ (List.nodup_iff_count_le_one.1 hold _)).1 hfirst
    exact Or.inl ⟨l, hl, c, hc, haddr, rfl⟩
  · obtain ⟨p, hp, i, hi, rfl⟩ := mem_spawnRest h
    obtain ⟨hc, haddr, hno⟩ := (mem_rest hnew).1 hp
    exact Or.inr ⟨p.2, hc, haddr ▸ hno, i, hi, rfl⟩

/-- A reload leaves no two listeners on one address. -/
theorem reloadHttp_nodup (hold : (old.map HttpListener.addr).Nodup)
    (hnew : (new.map ListenerCfg.addr).Nodup) :
    ((reloadHttp binds o n old new).1.map HttpListener.addr).Nodup := by
  have hkept : ((reconcile HttpListener.addr (wantedHttp new) old).matched.map
      fun m => keepHttp m.1 m.2).map HttpListener.addr =
        ((reconcile HttpListener.addr (wantedHttp new) old).matched.map Prod.fst).map
          HttpListener.addr := by
    simp [keepHttp]
  have hrest : ∀ p ∈ HashMap.iter (reconcile HttpListener.addr (wantedHttp new) old).rest o,
      p.2.addr = p.1 := fun p hp => ((mem_rest hnew).1 hp).2.1
  simp only [reloadHttp]
  rw [List.map_append, hkept, List.nodup_append]
  refine ⟨?_, ?_, ?_⟩
  -- Kept listeners stay on their addresses; the table had the new ones once.
  · exact ((matched_sublist _ _ _).map _).nodup hold
  · refine (spawnRest_addrs _ _ _).nodup ?_
    rw [List.map_congr_left hrest]
    exact HashMap.nodup_keys_iter _ o
  -- A new listener is only started where no old one was.
  · intro a ha b hb hab
    obtain ⟨l, hl, rfl⟩ := List.mem_map.1 ha
    obtain ⟨l', hl', rfl⟩ := List.mem_map.1 hb
    obtain ⟨p, hp, i, -, rfl⟩ := mem_spawnRest hl'
    obtain ⟨-, haddr, hno⟩ := (mem_rest hnew).1 hp
    exact hno l ((matched_sublist _ _ _).subset hl) (hab.trans haddr)

end Diff

/-! ## TLS mode -/

/-- No two HTTP listeners share an address. -/
def Distinct (s : Supervisor) : Prop := (s.http.map HttpListener.addr).Nodup

/-- A plain listener serves no TLS configuration and a TLS listener no plain one. -/
def TlsMode (s : Supervisor) : Prop := ∀ l ∈ s.http, l.acceptor.isSome = l.cfg.tls.isSome

/-- The reload does not turn TLS on or off for an address somebody listens on. -/
def KeepsTls (s : Supervisor) (e : Reload) : Prop :=
  ∀ new, e.loaded = .ok new → ∀ l ∈ s.http, ∀ c ∈ new.runtime.listeners, c.addr = l.addr →
    c.tls.isSome = l.acceptor.isSome

theorem reload_distinct (s : Supervisor) (e : Reload) (h : Distinct s) : Distinct (s.reload e) := by
  cases hload : e.loaded with
  | error msg =>
      rw [reload_error hload]
      exact h
  | ok new =>
      rw [reload_ok hload]
      exact reloadHttp_nodup h new.nodup

/-- A reload never changes whether a kept listener speaks TLS. -/
theorem keepHttp_acceptor_isSome (l : HttpListener) (c : ListenerCfg) :
    (keepHttp l c).acceptor.isSome = l.acceptor.isSome := by
  rw [keepHttp]
  cases l.acceptor with
  | none => rfl
  | some sc => cases c.tls with
    | none => rfl
    | some sc' => rfl

/-- One reload keeps the TLS mode exactly if it does not toggle it. -/
theorem reload_tlsMode_iff (s : Supervisor) (e : Reload) (hd : Distinct s) (hmode : TlsMode s) :
    TlsMode (s.reload e) ↔ KeepsTls s e := by
  cases hload : e.loaded with
  | error msg =>
      rw [reload_error hload]
      refine ⟨fun _ new hnew => ?_, fun _ => hmode⟩
      rw [hload] at hnew
      exact absurd hnew (by simp)
  | ok new =>
      have hhttp : (s.reload e).http =
          (reloadHttp e.binds e.httpOrder s.nextId s.http new.runtime.listeners).1 := by
        rw [reload_ok hload]
      rw [TlsMode, hhttp]
      constructor
      -- A toggled listener is kept with the new configuration and its old mode.
      · intro h new' hnew' l hl c hc haddr
        obtain rfl := Except.ok.inj (hload.symm.trans hnew')
        have hkept := h _ (keepHttp_mem_reloadHttp hd new.nodup hl hc haddr)
        rw [keepHttp_acceptor_isSome] at hkept
        exact hkept.symm
      · intro h l' hl'
        rcases reloadHttp_cases hd new.nodup hl' with
          ⟨l, hl, c, hc, haddr, rfl⟩ | ⟨c, hc, -, i, -, rfl⟩
        · rw [keepHttp_acceptor_isSome]
          exact (h new hload l hl c hc haddr).symm
        -- A new listener takes its mode from its configuration.
        · rfl

/-! ## Runs -/

/-- The HTTP listeners of a start, in the order of the configuration. -/
theorem start_http {binds : Binds} {rt : Runtime} {s : Supervisor} (h : start binds rt = .ok s) :
    s.http = rt.listeners.zipIdx.map fun p => spawnHttp p.2 p.1 := by
  rw [start] at h
  obtain ⟨http, hhttp, h⟩ := bind_eq_ok.1 h
  obtain ⟨stream, -, h⟩ := bind_eq_ok.1 h
  obtain rfl := Except.ok.inj h
  refine (map_eq_of_forall₂ ?_ (mapM_forall₂ hhttp).flip).symm
  intro l p hl
  obtain ⟨u, -, hl⟩ := bind_eq_ok.1 hl
  exact Except.ok.inj hl

/-- With all binds succeeding, every runtime starts. -/
theorem start_succeed (rt : Runtime) : ∃ s, start Binds.succeed rt = .ok s := by
  have hhttp := mapM_ok (ε := String) (fun p : ListenerCfg × Nat => spawnHttp p.2 p.1)
    rt.listeners.zipIdx
  have hstream := mapM_ok (ε := String)
    (fun p : SocketAddr × Balancer × Bool => StreamListener.mk p.1 p.2.2 p.2.1) rt.streamServers
  exact ⟨_, bind_eq_ok.2 ⟨_, hhttp, bind_eq_ok.2 ⟨_, hstream, rfl⟩⟩⟩

theorem mem_start_http {binds : Binds} {rt : Runtime} {s : Supervisor}
    (h : start binds rt = .ok s) {l : HttpListener} (hl : l ∈ s.http) :
    ∃ c ∈ rt.listeners, ∃ i, i < rt.listeners.length ∧ l = spawnHttp i c := by
  rw [start_http h] at hl
  obtain ⟨⟨c, i⟩, hp, rfl⟩ := List.mem_map.1 hl
  have hmem := List.mem_zipIdx hp
  refine ⟨c, ?_, i, by omega, rfl⟩
  rw [hmem.2.2]
  exact List.getElem_mem _

theorem start_distinct {binds : Binds} {init : Loaded} {s : Supervisor}
    (h : start binds init.runtime = .ok s) : Distinct s := by
  have hmap : s.http.map HttpListener.addr = init.runtime.listeners.map ListenerCfg.addr := by
    rw [start_http h, List.map_map]
    conv_rhs => rw [← List.zipIdx_map_fst 0 init.runtime.listeners, List.map_map]
    rfl
  rw [Distinct, hmap]
  exact init.nodup

/-- **TLS mode.** From any start and for any reloads: in all states plain listeners serve plain
configurations and TLS listeners TLS ones, exactly if no reload turns TLS on or off for an address
somebody listens on. -/
theorem tls_mode_iff (binds : Binds) (init : Loaded) (s : Supervisor)
    (hstart : start binds init.runtime = .ok s) (reloads : List Reload) :
    Always Supervisor.reload TlsMode s reloads ↔ AllSteps Supervisor.reload KeepsTls s reloads := by
  apply always_iff_allSteps reload_distinct reload_tlsMode_iff (start_distinct hstart)
  intro l hl
  obtain ⟨c, -, i, -, rfl⟩ := mem_start_http hstart hl
  rfl

/-! ## Two runs -/

/-- The runtime of a configuration with one server block and the given `listen` lines. -/
def runtimeOf (lines : List (List String)) : Runtime :=
  match (Config.build noExternals (oneServer lines)).bind (App.build loadingHost IterOrder.stored)
  with
  | .ok rt => rt
  | .error _ => ⟨[], []⟩

/-- A server on port 8443 without TLS. -/
def plainLoaded : Loaded where
  runtime := runtimeOf [["8443"]]
  accepted := ⟨noExternals, oneServer [["8443"]], _, loadingHost, IterOrder.stored, rfl, rfl⟩

/-- The same server with TLS. -/
def tlsLoaded : Loaded where
  runtime := runtimeOf [["8443", "ssl"]]
  accepted := ⟨noExternals, oneServer [["8443", "ssl"]], _, loadingHost, IterOrder.stored, rfl, rfl⟩

/-- A reload to a configuration, with all binds succeeding. -/
def reloadTo (new : Loaded) : Reload := ⟨.ok new, Binds.succeed, IterOrder.stored, IterOrder.stored⟩

/-- The address of these servers. -/
def addr8443 : SocketAddr := ⟨.v4 ⟨0, 0, 0, 0⟩, 8443, 0⟩

theorem plainLoaded_listener :
    ∃ c, plainLoaded.runtime.listeners = [c] ∧ c.addr = addr8443 ∧ c.tls.isSome = false :=
  ⟨_, rfl, rfl, rfl⟩

theorem tlsLoaded_listener :
    ∃ c, tlsLoaded.runtime.listeners = [c] ∧ c.addr = addr8443 ∧ c.tls.isSome = true :=
  ⟨_, rfl, rfl, rfl⟩

/-- Turning `ssl` on makes the plain listener serve the TLS configuration. -/
theorem ssl_turned_on_serves_plain :
    ∃ s, start Binds.succeed plainLoaded.runtime = .ok s ∧
      ¬ Always Supervisor.reload TlsMode s [reloadTo tlsLoaded] := by
  obtain ⟨s, hs⟩ := start_succeed plainLoaded.runtime
  refine ⟨s, hs, ?_⟩
  intro h
  obtain ⟨c, hc, hca, hct⟩ := plainLoaded_listener
  obtain ⟨c', hc', hca', hct'⟩ := tlsLoaded_listener
  have hl : spawnHttp 0 c ∈ s.http := by
    rw [start_http hs, hc]
    exact List.mem_singleton.2 rfl
  have hmode : TlsMode (s.reload (reloadTo tlsLoaded)) := h [reloadTo tlsLoaded] [] rfl
  have hkeeps := (reload_tlsMode_iff s _ (start_distinct hs) (h [] _ rfl)).1 hmode tlsLoaded rfl
    (spawnHttp 0 c) hl c' (by rw [hc']; exact List.mem_singleton.2 rfl) (hca'.trans hca.symm)
  rw [hct'] at hkeeps
  exact absurd (hkeeps.trans hct) (by decide)

/-- Reloading a TLS configuration keeps the mode. -/
theorem tls_mode_unchanged :
    ∃ s, start Binds.succeed tlsLoaded.runtime = .ok s ∧
      Always Supervisor.reload TlsMode s [reloadTo tlsLoaded] := by
  obtain ⟨s, hs⟩ := start_succeed tlsLoaded.runtime
  refine ⟨s, hs, (tls_mode_iff Binds.succeed tlsLoaded s hs _).2 ?_⟩
  refine allSteps_cons.2 ⟨?_, allSteps_nil⟩
  intro new hnew l hl c hc _
  obtain rfl := Except.ok.inj hnew
  obtain ⟨c', hc', -, -⟩ := tlsLoaded_listener
  obtain ⟨d, hd, i, -, rfl⟩ := mem_start_http hs hl
  rw [hc'] at hc hd
  rw [List.mem_singleton.1 hc, List.mem_singleton.1 hd]
  rfl

end Elrond.Process
