import Elrond.Process.ReloadHttp

/-!
# Convergence of reloads

A start and a reload are two constructions of the same running state. After a reload the HTTP
listeners and QUIC endpoints, with the configuration a new connection on each is served with, should
be those a start from the new configuration would create (`Converged`).

A reload never starts or stops a QUIC endpoint. So a run converges exactly if its reloads leave
HTTP/3 on the addresses that have an endpoint (`reload_converges_iff`). The invariant `InSync`
carries the proof: every listener serves its entry of the last configuration, and every endpoint
reads the channel of the listener on its own address, which such reloads never close.
-/

set_option autoImplicit false

namespace Elrond.Process

open Elrond.Lib Elrond.Http Elrond.Config Elrond.Upstream Elrond.App

/-! ## What is compared -/

/-- The HTTP endpoints: the address, the configuration a new connection is served with, and the
acceptor it goes through. -/
def Supervisor.httpView (s : Supervisor) : Set (SocketAddr × ListenerCfg × Option ServerConfig) :=
  {x | ∃ l ∈ s.http, x = (l.addr, l.cfg, l.acceptor)}

/-- The QUIC endpoints: the address and the configuration a new connection is served with. -/
def Supervisor.quicView (s : Supervisor) : Set (SocketAddr × ListenerCfg) :=
  {x | ∃ h ∈ s.h3, x = (h.addr, h.cfg)}

/-- HTTP/3 is advertised only where a QUIC endpoint runs. -/
def AdvertisedRuns (s : Supervisor) : Prop :=
  ∀ l ∈ s.http, ∀ v ∈ l.cfg.vhosts, v.state.h3AdvertisedPort.isSome = true →
    ∃ h ∈ s.h3, h.addr = l.addr

/-- A supervisor with the last configuration it was given. -/
structure Tracked where
  sup : Supervisor
  last : Loaded

/-- A reload, with the last configuration that loaded. -/
def Tracked.reload (t : Tracked) (e : Reload) : Tracked where
  sup := t.sup.reload e
  last :=
    match e.loaded with
    | .ok new => new
    | .error _ => t.last

/-- What runs is what a start from the last configuration would create. -/
def Converged (t : Tracked) : Prop :=
  ∃ s, start Binds.succeed t.last.runtime = .ok s ∧ t.sup.httpView = s.httpView ∧
    t.sup.quicView = s.quicView ∧ AdvertisedRuns t.sup

/-- All binds of the reload succeed and it does not toggle TLS. -/
def Smooth (t : Tracked) (e : Reload) : Prop := e.binds = Binds.succeed ∧ KeepsTls t.sup e

/-- The reload leaves HTTP/3 on exactly the addresses that have a QUIC endpoint. -/
def KeepsHttp3 (t : Tracked) (e : Reload) : Prop :=
  ∀ new, e.loaded = .ok new → ∀ a,
    (∃ c ∈ new.runtime.listeners, c.addr = a ∧ c.h3Tls.isSome = true) ↔ ∃ h ∈ t.sup.h3, h.addr = a

/-! ## The invariant -/

/-- Every listener serves its entry of the configuration and every entry has a listener; every
endpoint reads the listener on its address, and the addresses with an endpoint are those with
HTTP/3. -/
structure InSync (s : Supervisor) (rt : Runtime) : Prop where
  distinct : Distinct s
  ids : (s.http.map HttpListener.id).Nodup
  fresh : ∀ l ∈ s.http, l.id < s.nextId
  current : ∀ l ∈ s.http, l.cfg ∈ rt.listeners ∧ l.addr = l.cfg.addr ∧ l.acceptor = l.cfg.tls
  complete : ∀ c ∈ rt.listeners, ∃ l ∈ s.http, l.cfg = c
  linked : ∀ h ∈ s.h3, h.cfg.h3Tls.isSome = true ∧
    ∃ l ∈ s.http, l.id = h.source ∧ l.addr = h.addr ∧ h.cfg = l.cfg
  quic : ∀ c ∈ rt.listeners, c.h3Tls.isSome = true → ∃ h ∈ s.h3, h.addr = c.addr

/-- The HTTP endpoints of a supervisor in sync are determined by the configuration. -/
theorem InSync.httpView_eq {s : Supervisor} {rt : Runtime} (h : InSync s rt) :
    s.httpView = {x | ∃ c ∈ rt.listeners, x = (c.addr, c, c.tls)} := by
  ext x
  constructor
  · rintro ⟨l, hl, rfl⟩
    obtain ⟨hc, haddr, hacc⟩ := h.current l hl
    exact ⟨l.cfg, hc, by rw [haddr, hacc]⟩
  · rintro ⟨c, hc, rfl⟩
    obtain ⟨l, hl, rfl⟩ := h.complete c hc
    obtain ⟨-, haddr, hacc⟩ := h.current l hl
    exact ⟨l, hl, by rw [haddr, hacc]⟩

/-- So are its QUIC endpoints, when addresses are distinct. -/
theorem InSync.quicView_eq {s : Supervisor} {rt : Runtime} (h : InSync s rt)
    (hnodup : (rt.listeners.map ListenerCfg.addr).Nodup) :
    s.quicView = {x | ∃ c ∈ rt.listeners, c.h3Tls.isSome = true ∧ x = (c.addr, c)} := by
  have hserves : ∀ q ∈ s.h3, q.cfg ∈ rt.listeners ∧ q.addr = q.cfg.addr := by
    intro q hq
    obtain ⟨-, l, hl, -, haddr, hcfg⟩ := h.linked q hq
    obtain ⟨hc, hla, -⟩ := h.current l hl
    rw [hcfg, ← haddr]
    exact ⟨hc, hla⟩
  ext x
  constructor
  · rintro ⟨q, hq, rfl⟩
    obtain ⟨hc, haddr⟩ := hserves q hq
    exact ⟨q.cfg, hc, (h.linked q hq).1, by rw [haddr]⟩
  · rintro ⟨c, hc, hh3, rfl⟩
    obtain ⟨q, hq, haddr⟩ := h.quic c hc hh3
    obtain ⟨hqc, hqa⟩ := hserves q hq
    have hcfg : q.cfg = c := List.inj_on_of_nodup_map hnodup hqc hc (hqa.symm.trans haddr)
    exact ⟨q, hq, by rw [haddr, hcfg]⟩

/-- A supervisor in sync advertises HTTP/3 only where an endpoint runs. -/
theorem InSync.advertisedRuns {s : Supervisor} {last : Loaded} (h : InSync s last.runtime) :
    AdvertisedRuns s := by
  obtain ⟨servers, hspec, htls⟩ := last.spec
  intro l hl v hv hadv
  obtain ⟨hc, haddr, -⟩ := h.current l hl
  rw [hspec.advertised l.cfg hc v hv] at hadv
  have hwants : wantsH3 servers l.cfg.addr = true := by
    by_contra hno
    rw [if_neg hno] at hadv
    exact absurd hadv (by simp)
  -- The block that asks for HTTP/3 asks for TLS too.
  have hls : l.cfg.tls.isSome = true := by
    obtain ⟨b, hb, hflags⟩ := List.any_eq_true.1 hwants
    rw [Bool.and_eq_true, beq_iff_eq] at hflags
    exact (hspec.tls l.cfg hc).2 ⟨b, hb, hflags.2, htls b hb hflags.1⟩
  obtain ⟨q, hq, hqa⟩ := h.quic l.cfg hc (by rw [hspec.h3 l.cfg hc, hls, hwants]; rfl)
  exact ⟨q, hq, hqa.trans haddr.symm⟩

/-! ## A start is in sync -/

theorem start_inSync {init : Loaded} {s : Supervisor}
    (h : start Binds.succeed init.runtime = .ok s) : InSync s init.runtime := by
  have hhttp := start_http h
  have hrest : s.h3 = s.http.filterMap (spawnH3 Binds.succeed) ∧
      s.nextId = init.runtime.listeners.length := by
    rw [start] at h
    obtain ⟨http, -, h⟩ := bind_eq_ok.1 h
    obtain ⟨stream, -, h⟩ := bind_eq_ok.1 h
    obtain rfl := Except.ok.inj h
    exact ⟨rfl, rfl⟩
  have hcomplete : ∀ c ∈ init.runtime.listeners, ∃ i, spawnHttp i c ∈ s.http := by
    intro c hc
    obtain ⟨i, hi, hget⟩ := List.mem_iff_getElem.1 hc
    refine ⟨i, ?_⟩
    rw [hhttp]
    refine List.mem_map.2 ⟨(c, i), ?_, rfl⟩
    rw [List.mem_zipIdx_iff_getElem?, ← hget]
    exact List.getElem?_eq_getElem hi
  refine ⟨start_distinct h, ?_, ?_, ?_, ?_, ?_, ?_⟩
  · have hids : s.http.map HttpListener.id = List.range' 0 init.runtime.listeners.length := by
      rw [hhttp, List.map_map, ← List.zipIdx_map_snd 0 init.runtime.listeners]
      rfl
    rw [hids]
    exact List.nodup_range'
  · intro l hl
    obtain ⟨c, -, i, hi, rfl⟩ := mem_start_http h hl
    rw [hrest.2]
    exact hi
  · intro l hl
    obtain ⟨c, hc, i, -, rfl⟩ := mem_start_http h hl
    exact ⟨hc, rfl, rfl⟩
  · intro c hc
    obtain ⟨i, hi⟩ := hcomplete c hc
    exact ⟨_, hi, rfl⟩
  · intro q hq
    rw [hrest.1] at hq
    obtain ⟨l, hl, hspawn⟩ := List.mem_filterMap.1 hq
    obtain ⟨tls, htls, hq'⟩ := Option.bind_eq_some_iff.1 hspawn
    obtain rfl := Option.some.inj hq'
    exact ⟨by rw [htls]; rfl, l, hl, rfl, rfl, rfl⟩
  · intro c hc hh3
    obtain ⟨i, hi⟩ := hcomplete c hc
    obtain ⟨tls, htls⟩ := Option.isSome_iff_exists.1 hh3
    refine ⟨⟨i, c.addr, tls, c⟩, ?_, rfl⟩
    rw [hrest.1]
    refine List.mem_filterMap.2 ⟨spawnHttp i c, hi, ?_⟩
    simp [spawnH3, spawnHttp, htls, Binds.succeed]

/-! ## Reloads that keep sync -/

/-- The listeners started are numbered on from the next number. -/
theorem spawnRest_ids (binds : Binds) :
    ∀ (ps : List (SocketAddr × ListenerCfg)) (n : Nat),
      (spawnRest binds n ps).1.map HttpListener.id =
          List.range' n (spawnRest binds n ps).1.length ∧
        (spawnRest binds n ps).2 = n + (spawnRest binds n ps).1.length := by
  intro ps
  induction ps with
  | nil =>
      intro n
      exact ⟨rfl, rfl⟩
  | cons p ps ih =>
      intro n
      rw [spawnRest]
      split
      · obtain ⟨hids, hnext⟩ := ih (n + 1)
        constructor
        · rw [List.map_cons, hids]
          rfl
        · change (spawnRest binds (n + 1) ps).2 = n + ((spawnRest binds (n + 1) ps).1.length + 1)
          omega
      · exact ih n

/-- With all binds succeeding, every entry left over is started. -/
theorem spawnRest_succeed :
    ∀ {ps : List (SocketAddr × ListenerCfg)} (n : Nat) {p : SocketAddr × ListenerCfg}, p ∈ ps →
      ∃ i, spawnHttp i p.2 ∈ (spawnRest Binds.succeed n ps).1 := by
  intro ps
  induction ps with
  | nil =>
      intro n p hp
      exact absurd hp List.not_mem_nil
  | cons q ps ih =>
      intro n p hp
      rcases List.mem_cons.1 hp with rfl | hp
      · exact ⟨n, List.mem_cons_self⟩
      · obtain ⟨i, hi⟩ := ih (n + 1) hp
        exact ⟨i, List.mem_cons_of_mem _ hi⟩

section Diff

variable {binds : Binds} {o : IterOrder (SocketAddr × ListenerCfg)} {n : Nat}
  {old : List HttpListener} {new : List ListenerCfg}

/-- A reload keeps numbers distinct and below the next one. -/
theorem reloadHttp_ids (hids : (old.map HttpListener.id).Nodup) (hfresh : ∀ l ∈ old, l.id < n) :
    ((reloadHttp binds o n old new).1.map HttpListener.id).Nodup ∧
      ∀ l ∈ (reloadHttp binds o n old new).1, l.id < (reloadHttp binds o n old new).2 := by
  have hkept : ((reconcile HttpListener.addr (wantedHttp new) old).matched.map
      fun m => keepHttp m.1 m.2).map HttpListener.id =
        ((reconcile HttpListener.addr (wantedHttp new) old).matched.map Prod.fst).map
          HttpListener.id := by
    simp [keepHttp]
  have hsub := matched_sublist HttpListener.addr (wantedHttp new) old
  simp only [reloadHttp]
  obtain ⟨hspawned, hnext⟩ := spawnRest_ids binds
    (HashMap.iter (reconcile HttpListener.addr (wantedHttp new) old).rest o) n
  constructor
  -- Old numbers are below the next one, new ones are not.
  · rw [List.map_append, hkept, hspawned, List.nodup_append]
    refine ⟨(hsub.map _).nodup hids, List.nodup_range', ?_⟩
    intro i hi j hj hij
    obtain ⟨l, hl, rfl⟩ := List.mem_map.1 hi
    have hlt := hfresh l (hsub.subset hl)
    have hle := (List.mem_range'_1.1 hj).1
    omega
  · intro l hl
    rw [hnext]
    rcases List.mem_append.1 hl with hl | hl
    · obtain ⟨m, hm, rfl⟩ := List.mem_map.1 hl
      have hlt := hfresh m.1 (hsub.subset (List.mem_map_of_mem hm))
      change m.1.id < _
      omega
    · have hmem : l.id ∈ List.range' n _ := hspawned ▸ List.mem_map_of_mem hl
      exact (List.mem_range'_1.1 hmem).2

/-- With all binds succeeding, every wanted configuration is served. -/
theorem reloadHttp_complete (hold : (old.map HttpListener.addr).Nodup)
    (hnew : (new.map ListenerCfg.addr).Nodup) {c : ListenerCfg} (hc : c ∈ new) :
    ∃ l ∈ (reloadHttp Binds.succeed o n old new).1, l.cfg = c := by
  by_cases hexists : ∃ l ∈ old, l.addr = c.addr
  · obtain ⟨l, hl, haddr⟩ := hexists
    exact ⟨keepHttp l c, keepHttp_mem_reloadHttp hold hnew hl hc haddr.symm, rfl⟩
  · have hrest : (c.addr, c) ∈
        HashMap.iter (reconcile HttpListener.addr (wantedHttp new) old).rest o :=
      (mem_rest hnew).2 ⟨hc, rfl, fun l hl haddr => hexists ⟨l, hl, haddr⟩⟩
    obtain ⟨i, hi⟩ := spawnRest_succeed n hrest
    exact ⟨spawnHttp i c, List.mem_append_right _ hi, rfl⟩

end Diff

/-- A kept listener whose mode fits its new configuration takes the new acceptor. -/
theorem keepHttp_acceptor {l : HttpListener} {c : ListenerCfg}
    (hmode : c.tls.isSome = l.acceptor.isSome) : (keepHttp l c).acceptor = c.tls := by
  rw [keepHttp]
  cases hacc : l.acceptor with
  | none =>
      rw [hacc] at hmode
      exact (Option.not_isSome_iff_eq_none.1 (by rw [hmode]; decide)).symm
  | some sc =>
      rw [hacc] at hmode
      obtain ⟨sc', hsc'⟩ := Option.isSome_iff_exists.1 hmode
      simp only [hsc']

/-- An endpoint reads what the listener with its channel's number serves. -/
theorem follow_eq {http : List HttpListener} (hids : (http.map HttpListener.id).Nodup)
    {l : HttpListener} (hl : l ∈ http) {h : H3Listener} (hsource : l.id = h.source) :
    h.follow http = { h with cfg := l.cfg } := by
  have hfind : http.find? (fun x => x.id == h.source) = some l := by
    cases hfound : http.find? fun x => x.id == h.source with
    | none =>
        have hno := List.find?_eq_none.1 hfound l hl
        exact absurd (beq_iff_eq.2 hsource) hno
    | some x =>
        have hx := List.find?_some hfound
        have hmem := List.mem_of_find?_eq_some hfound
        rw [List.inj_on_of_nodup_map hids hmem hl ((beq_iff_eq.1 hx).trans hsource.symm)]
  rw [H3Listener.follow, hfind]

/-- An endpoint stays on its address. -/
theorem follow_addr (http : List HttpListener) (h : H3Listener) :
    (h.follow http).addr = h.addr := by
  unfold H3Listener.follow
  split
  · rfl
  · rfl

/-- A smooth reload that leaves HTTP/3 where it is keeps the supervisor in sync, if the
configuration loads. -/
theorem reload_inSync {t : Tracked} {rt : Runtime} (h : InSync t.sup rt) {e : Reload} {new : Loaded}
    (hload : e.loaded = .ok new) (hsmooth : Smooth t e) (hh3 : KeepsHttp3 t e) :
    InSync (t.sup.reload e) new.runtime := by
  obtain ⟨s, last⟩ := t
  obtain ⟨hbinds, htls⟩ := hsmooth
  obtain ⟨r, hr⟩ : ∃ r,
      reloadHttp Binds.succeed e.httpOrder s.nextId s.http new.runtime.listeners = r := ⟨_, rfl⟩
  have hhttp : (s.reload e).http = r.1 := by rw [reload_ok hload, hbinds, hr]
  have hquic : (s.reload e).h3 = s.h3.map (H3Listener.follow r.1) := by
    rw [reload_ok hload, hbinds, hr]
  have hnext : (s.reload e).nextId = r.2 := by rw [reload_ok hload, hbinds, hr]
  have hkept : ∀ l ∈ s.http, ∀ c ∈ new.runtime.listeners, c.addr = l.addr → keepHttp l c ∈ r.1 := by
    intro l hl c hc haddr
    rw [← hr]
    exact keepHttp_mem_reloadHttp h.distinct new.nodup hl hc haddr
  have hids : (r.1.map HttpListener.id).Nodup ∧ ∀ l ∈ r.1, l.id < r.2 := by
    rw [← hr]
    exact reloadHttp_ids h.ids h.fresh
  -- Every endpoint's listener is kept, since its address still has HTTP/3.
  have hfollow : ∀ q ∈ s.h3, ∃ l ∈ s.http, ∃ c ∈ new.runtime.listeners,
      c.h3Tls.isSome = true ∧ l.id = q.source ∧ l.addr = q.addr ∧ c.addr = l.addr ∧
        q.follow r.1 = { q with cfg := c } := by
    intro q hq
    obtain ⟨-, l, hl, hsource, haddr, -⟩ := h.linked q hq
    obtain ⟨c, hc, hca, hch⟩ := (hh3 new hload q.addr).2 ⟨q, hq, rfl⟩
    have hcl : c.addr = l.addr := hca.trans haddr.symm
    exact ⟨l, hl, c, hc, hch, hsource, haddr, hcl,
      follow_eq hids.1 (hkept l hl c hc hcl) hsource⟩
  refine ⟨reload_distinct s e h.distinct, by rw [hhttp]; exact hids.1,
    by rw [hhttp, hnext]; exact hids.2, ?_, ?_, ?_, ?_⟩
  -- Kept listeners serve the new configuration through its acceptor, since the mode is the same.
  · intro l' hl'
    rw [hhttp, ← hr] at hl'
    rcases reloadHttp_cases h.distinct new.nodup hl' with
      ⟨l, hl, c, hc, haddr, rfl⟩ | ⟨c, hc, -, i, -, rfl⟩
    · exact ⟨hc, haddr.symm, keepHttp_acceptor (htls new hload l hl c hc haddr)⟩
    · exact ⟨hc, rfl, rfl⟩
  · intro c hc
    rw [hhttp, ← hr]
    exact reloadHttp_complete h.distinct new.nodup hc
  · intro q' hq'
    rw [hquic] at hq'
    obtain ⟨q, hq, rfl⟩ := List.mem_map.1 hq'
    obtain ⟨l, hl, c, hc, hch, hsource, haddr, hcl, hfollowed⟩ := hfollow q hq
    rw [hfollowed, hhttp]
    exact ⟨hch, keepHttp l c, hkept l hl c hc hcl, hsource, haddr, rfl⟩
  · intro c hc hch
    obtain ⟨q, hq, haddr⟩ := (hh3 new hload c.addr).1 ⟨c, hc, rfl, hch⟩
    obtain ⟨l, hl, d, hd, hdh, hsource, hla, hdl, hfollowed⟩ := hfollow q hq
    refine ⟨q.follow r.1, ?_, ?_⟩
    · rw [hquic]
      exact List.mem_map_of_mem hq
    · rw [hfollowed]
      exact haddr

theorem tracked_reload_inSync (t : Tracked) (e : Reload) (h : InSync t.sup t.last.runtime)
    (hguard : Smooth t e ∧ KeepsHttp3 t e) :
    InSync (t.reload e).sup (t.reload e).last.runtime := by
  cases hload : e.loaded with
  | error msg =>
      have hsame : t.reload e = t := by
        rw [Tracked.reload, reload_error hload, hload]
      rw [hsame]
      exact h
  | ok new =>
      have hlast : (t.reload e).last = new := by rw [Tracked.reload, hload]
      rw [hlast]
      exact reload_inSync h hload hguard.1 hguard.2

/-! ## Runs -/

/-- What is in sync has converged. -/
theorem InSync.converged {t : Tracked} (h : InSync t.sup t.last.runtime) : Converged t := by
  obtain ⟨s, hs⟩ := start_succeed t.last.runtime
  have hstart := start_inSync hs
  refine ⟨s, hs, ?_, ?_, h.advertisedRuns⟩
  · rw [h.httpView_eq, hstart.httpView_eq]
  · rw [h.quicView_eq t.last.nodup, hstart.quicView_eq t.last.nodup]

/-- A reload that converges left HTTP/3 where it was: the endpoints keep their addresses. -/
theorem keepsHttp3_of_converged {t : Tracked} {e : Reload} (h : Converged (t.reload e)) :
    KeepsHttp3 t e := by
  intro new hload a
  obtain ⟨s, hs, -, hquic, -⟩ := h
  have hlast : (t.reload e).last = new := by rw [Tracked.reload, hload]
  rw [hlast] at hs
  rw [(start_inSync hs).quicView_eq new.nodup] at hquic
  have hh3 : (t.reload e).sup.h3 = t.sup.h3.map (H3Listener.follow
      (reloadHttp e.binds e.httpOrder t.sup.nextId t.sup.http new.runtime.listeners).1) := by
    rw [Tracked.reload, reload_ok hload]
  constructor
  · rintro ⟨c, hc, rfl, hch⟩
    have hmem : (c.addr, c) ∈ (t.reload e).sup.quicView := by
      rw [hquic]
      exact ⟨c, hc, hch, rfl⟩
    obtain ⟨q', hq', heq⟩ := hmem
    rw [hh3] at hq'
    obtain ⟨q, hq, rfl⟩ := List.mem_map.1 hq'
    exact ⟨q, hq, (follow_addr _ q).symm.trans (congrArg Prod.fst heq).symm⟩
  · rintro ⟨q, hq, rfl⟩
    have hmem : ((q.follow _).addr, (q.follow _).cfg) ∈ (t.reload e).sup.quicView :=
      ⟨_, hh3 ▸ List.mem_map_of_mem hq, rfl⟩
    rw [hquic] at hmem
    obtain ⟨c, hc, hch, heq⟩ := hmem
    exact ⟨c, hc, (congrArg Prod.fst heq).symm.trans (follow_addr _ q), hch⟩

/-- **Convergence.** From any start and for any reloads whose binds succeed and that do not toggle
TLS: what runs is always what a start from the last configuration would create, exactly if every
reload leaves HTTP/3 on the addresses that have a QUIC endpoint. -/
theorem reload_converges_iff (init : Loaded) (s : Supervisor)
    (hstart : start Binds.succeed init.runtime = .ok s) (reloads : List Reload)
    (hsmooth : AllSteps Tracked.reload Smooth ⟨s, init⟩ reloads) :
    Always Tracked.reload Converged ⟨s, init⟩ reloads ↔
      AllSteps Tracked.reload KeepsHttp3 ⟨s, init⟩ reloads := by
  constructor
  -- The state after a step has converged, which the step alone shows to leave HTTP/3 in place.
  · intro h pre e post heq
    have hnext := h (pre ++ [e]) post (by rw [heq, List.append_assoc]; rfl)
    rw [run_concat] at hnext
    exact keepsHttp3_of_converged hnext
  · intro h pre post heq
    have hsync : Always Tracked.reload (fun t => InSync t.sup t.last.runtime) ⟨s, init⟩ reloads :=
      always_of_allSteps tracked_reload_inSync (start_inSync hstart)
        (fun pre e post heq => ⟨hsmooth pre e post heq, h pre e post heq⟩)
    exact (hsync pre post heq).converged

/-! ## Two runs -/

/-- The TLS server of `tlsLoaded` with HTTP/3. -/
def http3Loaded : Loaded where
  runtime := runtimeOf [["8443", "ssl", "http3"]]
  accepted :=
    ⟨noExternals, oneServer [["8443", "ssl", "http3"]], _, loadingHost, IterOrder.stored, rfl, rfl⟩

theorem http3Loaded_listener :
    ∃ c, http3Loaded.runtime.listeners = [c] ∧ c.addr = addr8443 ∧ c.tls.isSome = true ∧
      c.h3Tls.isSome = true :=
  ⟨_, rfl, rfl, rfl, rfl⟩

/-- A reload from TLS listeners to TLS listeners is smooth. -/
theorem smooth_reloadTo {init new : Loaded} {s : Supervisor}
    (hstart : start Binds.succeed init.runtime = .ok s)
    (hinit : ∀ c ∈ init.runtime.listeners, c.tls.isSome = true)
    (hnew : ∀ c ∈ new.runtime.listeners, c.tls.isSome = true) :
    AllSteps Tracked.reload Smooth ⟨s, init⟩ [reloadTo new] := by
  refine allSteps_cons.2 ⟨⟨rfl, ?_⟩, allSteps_nil⟩
  intro new' hload l hl c hc _
  obtain rfl := Except.ok.inj hload
  obtain ⟨d, hd, i, -, rfl⟩ := mem_start_http hstart hl
  exact (hnew c hc).trans (hinit d hd).symm

theorem tlsLoaded_tls : ∀ c ∈ tlsLoaded.runtime.listeners, c.tls.isSome = true := by
  obtain ⟨c, hc, -, htls⟩ := tlsLoaded_listener
  rw [hc, List.forall_mem_singleton]
  exact htls

theorem http3Loaded_tls : ∀ c ∈ http3Loaded.runtime.listeners, c.tls.isSome = true := by
  obtain ⟨c, hc, -, htls, -⟩ := http3Loaded_listener
  rw [hc, List.forall_mem_singleton]
  exact htls

/-- Turning `http3` on starts no QUIC endpoint. -/
theorem http3_turned_on_starts_nothing :
    ∃ s, start Binds.succeed tlsLoaded.runtime = .ok s ∧
      AllSteps Tracked.reload Smooth ⟨s, tlsLoaded⟩ [reloadTo http3Loaded] ∧
      ¬ Always Tracked.reload Converged ⟨s, tlsLoaded⟩ [reloadTo http3Loaded] := by
  obtain ⟨s, hs⟩ := start_succeed tlsLoaded.runtime
  refine ⟨s, hs, smooth_reloadTo hs tlsLoaded_tls http3Loaded_tls, ?_⟩
  intro h
  obtain ⟨c, hc, hca, -, hch⟩ := http3Loaded_listener
  have hkeeps := keepsHttp3_of_converged (h [reloadTo http3Loaded] [] rfl)
  obtain ⟨q, hq, -⟩ := (hkeeps http3Loaded rfl addr8443).1
    ⟨c, by rw [hc]; exact List.mem_singleton.2 rfl, hca, hch⟩
  -- No listener of the starting configuration has HTTP/3, so it started no endpoint.
  obtain ⟨hqh, l, hl, -, -, hcfg⟩ := (start_inSync hs).linked q hq
  obtain ⟨d, hd, hdh⟩ : ∃ d, tlsLoaded.runtime.listeners = [d] ∧ d.h3Tls.isSome = false :=
    ⟨_, rfl, rfl⟩
  have hcur := ((start_inSync hs).current l hl).1
  rw [hd] at hcur
  rw [hcfg, List.mem_singleton.1 hcur, hdh] at hqh
  exact absurd hqh (by decide)

/-- Reloading an unchanged HTTP/3 configuration converges. -/
theorem http3_unchanged_converges :
    ∃ s, start Binds.succeed http3Loaded.runtime = .ok s ∧
      Always Tracked.reload Converged ⟨s, http3Loaded⟩ [reloadTo http3Loaded] := by
  obtain ⟨s, hs⟩ := start_succeed http3Loaded.runtime
  refine ⟨s, hs, (reload_converges_iff http3Loaded s hs _
    (smooth_reloadTo hs http3Loaded_tls http3Loaded_tls)).2 ?_⟩
  refine allSteps_cons.2 ⟨?_, allSteps_nil⟩
  intro new hload a
  obtain rfl := Except.ok.inj hload
  have hsync := start_inSync hs
  constructor
  · rintro ⟨c, hc, rfl, hch⟩
    exact hsync.quic c hc hch
  · rintro ⟨q, hq, rfl⟩
    obtain ⟨hqh, l, hl, -, haddr, hcfg⟩ := hsync.linked q hq
    obtain ⟨hc, hla, -⟩ := hsync.current l hl
    exact ⟨l.cfg, hc, hla.symm.trans haddr, hcfg ▸ hqh⟩

end Elrond.Process
