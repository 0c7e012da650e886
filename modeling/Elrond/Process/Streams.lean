import Elrond.Process.ReloadHttp

/-!
# Reloading stream listeners

`reload_stream` looks the wanted listeners up by address, while a listener is identified by address
and transport. `mem_reloadStream_running` says for all lists what runs afterwards: on each address
at most one listener, decided by the first running one there and the last wanted one.

On an address that at most one running listener and at most one wanted one use, the outcome is the
intended one (`reloadStream_converges`): the wanted listener with its balancer runs, except that a
listener whose transport changed goes on as it is until a restart, and only listeners whose address
is no longer wanted are closed.
-/

set_option autoImplicit false

namespace Elrond.Process

open Elrond.Lib Elrond.Http Elrond.Config Elrond.Upstream Elrond.App

/-! ## What runs after a reload -/

/-- The listener of `spawn_stream`, once its socket is bound. -/
def startedStream (p : SocketAddr × Balancer × Bool) : StreamListener := ⟨p.1, p.2.2, p.2.1⟩

/-- The stream listeners of a start, in the order of the configuration. -/
theorem start_stream {binds : Binds} {rt : Runtime} {s : Supervisor}
    (h : start binds rt = .ok s) : s.stream = rt.streamServers.map startedStream := by
  rw [start] at h
  obtain ⟨http, -, h⟩ := bind_eq_ok.1 h
  obtain ⟨stream, hstream, h⟩ := bind_eq_ok.1 h
  obtain rfl := Except.ok.inj h
  refine (map_eq_of_forall₂ ?_ (mapM_forall₂ hstream).flip).symm
  intro l p hl
  obtain ⟨u, -, hl⟩ := bind_eq_ok.1 hl
  exact Except.ok.inj hl

@[simp] theorem keepStream_addr (l : StreamListener) (new : Balancer × Bool) :
    (keepStream l new).addr = l.addr := by
  rw [keepStream]
  split
  · rfl
  · rfl

section Diff

variable {o : IterOrder (SocketAddr × Balancer × Bool)} {old : List StreamListener}
  {new : List (SocketAddr × Balancer × Bool)} {x : StreamListener}

/-- With all binds succeeding, a listener runs after a reload exactly if it is what the last wanted
entry of its address makes of the first running listener there, or of nothing. -/
theorem mem_reloadStream_running :
    x ∈ (reloadStream Binds.succeed o old new).running ↔
      ∃ e, (wantedStream new).lookup x.addr = some e ∧
        ((∃ l, old.find? (fun y => y.addr = x.addr) = some l ∧ x = keepStream l e) ∨
          (∀ l ∈ old, l.addr ≠ x.addr) ∧ x = startedStream (x.addr, e)) := by
  constructor
  · intro h
    rcases List.mem_append.1 h with h | h
    · obtain ⟨⟨l, e⟩, hm, rfl⟩ := List.mem_map.1 h
      obtain ⟨hfirst, hlookup⟩ := mem_matched.1 hm
      refine ⟨e, ?_, Or.inl ⟨l, ?_, rfl⟩⟩
      · rw [keepStream_addr]
        exact hlookup
      · rw [keepStream_addr]
        exact hfirst
    · obtain ⟨⟨a, e⟩, hp, hspawn⟩ := List.mem_filterMap.1 h
      obtain rfl : startedStream (a, e) = x := Option.some.inj hspawn
      rw [HashMap.mem_iter, lookup_rest] at hp
      by_cases ha : a ∈ old.map StreamListener.addr
      · rw [if_pos ha] at hp
        exact absurd hp (by simp)
      · rw [if_neg ha] at hp
        refine ⟨e, hp, Or.inr ⟨?_, rfl⟩⟩
        intro l hl heq
        exact ha (List.mem_map.2 ⟨l, hl, heq⟩)
  · rintro ⟨e, hlookup, ⟨l, hfirst, rfl⟩ | ⟨hno, hx⟩⟩
    · rw [keepStream_addr] at hlookup hfirst
      apply List.mem_append_left
      exact List.mem_map.2 ⟨(l, e), mem_matched.2 ⟨hfirst, hlookup⟩, rfl⟩
    · apply List.mem_append_right
      refine List.mem_filterMap.2 ⟨(x.addr, e), ?_, congrArg some hx.symm⟩
      have hnot : x.addr ∉ old.map StreamListener.addr := by
        intro hmem
        obtain ⟨l, hl, heq⟩ := List.mem_map.1 hmem
        exact hno l hl heq
      rw [HashMap.mem_iter, lookup_rest, if_neg hnot]
      exact hlookup

end Diff

/-! ## Convergence -/

/-- The running listeners are the address and transport pairs of a configuration, each with its
balancer. -/
def StreamConverged (running : List StreamListener) (new : List (SocketAddr × Balancer × Bool)) :
    Prop :=
  (∀ a udp, (∃ l ∈ running, l.addr = a ∧ l.udp = udp) ↔ ∃ b, (a, b, udp) ∈ new) ∧
    ∀ l ∈ running, (l.addr, l.balancer, l.udp) ∈ new

/-- What runs by design: a wanted listener with its balancer, unless a running one on the address
has another transport, which then goes on as it is. -/
def StreamExpected (old : List StreamListener) (new : List (SocketAddr × Balancer × Bool))
    (x : StreamListener) : Prop :=
  ∃ b udp, (x.addr, b, udp) ∈ new ∧
    ((∀ l ∈ old, l.addr = x.addr → l.udp = udp) ∧ x = ⟨x.addr, udp, b⟩ ∨ x ∈ old ∧ x.udp ≠ udp)

section Convergence

variable {o : IterOrder (SocketAddr × Balancer × Bool)} {old : List StreamListener}
  {new : List (SocketAddr × Balancer × Bool)}

/-- On an address used once, what runs is what is expected. -/
theorem mem_running_iff_expected {x : StreamListener}
    (hold : (old.map StreamListener.addr).count x.addr ≤ 1)
    (hnew : (new.map Prod.fst).count x.addr ≤ 1) :
    x ∈ (reloadStream Binds.succeed o old new).running ↔ StreamExpected old new x := by
  rw [mem_reloadStream_running]
  constructor
  · rintro ⟨⟨b, udp⟩, hlookup, hx⟩
    refine ⟨b, udp, (HashMap.lookup_collect_of_once hnew).1 hlookup, ?_⟩
    rcases hx with ⟨l, hfirst, hx⟩ | ⟨hno, hx⟩
    · have haddr : l.addr = x.addr := by simpa using List.find?_some hfirst
      have hl : l ∈ old := List.mem_of_find?_eq_some hfirst
      by_cases hudp : udp ≠ l.udp
      · -- The transport changed: the listener is left as it is.
        rw [keepStream, if_pos hudp] at hx
        subst hx
        exact Or.inr ⟨hl, hudp.symm⟩
      · rw [keepStream, if_neg hudp] at hx
        rw [not_not] at hudp
        refine Or.inl ⟨?_, ?_⟩
        · intro l' hl' haddr'
          rw [← haddr] at hold haddr'
          have hfirst' := (find?_key StreamListener.addr (l := l') (haddr'.symm ▸ hold)).2 hl'
          rw [haddr', haddr] at hfirst'
          rw [← Option.some.inj (hfirst.symm.trans hfirst'), hudp]
        · rw [hx, hudp]
    · exact Or.inl ⟨fun l hl haddr => absurd haddr (hno l hl), hx⟩
  · rintro ⟨b, udp, hmem, hx⟩
    refine ⟨(b, udp), (HashMap.lookup_collect_of_once hnew).2 hmem, ?_⟩
    rcases hx with ⟨hsame, hx⟩ | ⟨hx, hudp⟩
    -- Started anew, or kept with the new balancer: the outcome is the same listener.
    · cases hfirst : old.find? fun y => decide (y.addr = x.addr) with
      | none =>
          refine Or.inr ⟨?_, hx⟩
          intro l hl haddr
          exact absurd (decide_eq_true haddr) (List.find?_eq_none.1 hfirst l hl)
      | some l =>
          have haddr : l.addr = x.addr := by simpa using List.find?_some hfirst
          have hl := hsame l (List.mem_of_find?_eq_some hfirst) haddr
          refine Or.inl ⟨l, rfl, ?_⟩
          rw [keepStream, if_neg (not_not.2 hl.symm), hx, hl, haddr]
    · refine Or.inl ⟨x, (find?_key _ hold).2 hx, ?_⟩
      rw [keepStream, if_pos hudp.symm]

/-- On an address used once, a listener is closed exactly if its address is not wanted. -/
theorem mem_reloadStream_closed {l : StreamListener}
    (hold : (old.map StreamListener.addr).count l.addr ≤ 1) :
    l ∈ (reloadStream Binds.succeed o old new).closed ↔
      l ∈ old ∧ l.addr ∉ new.map Prod.fst := by
  rw [← HashMap.lookup_collect_eq_none]
  exact mem_closed hold

/-- **Convergence.** On an address that at most one running and at most one wanted listener use, a
reload with all binds succeeding leaves what is expected, whatever the other addresses are, closes a
listener exactly if its address is no longer wanted, and so closes none if the process was started
from the same configuration. -/
theorem reloadStream_converges (o : IterOrder (SocketAddr × Balancer × Bool))
    (old : List StreamListener) (new : List (SocketAddr × Balancer × Bool)) (a : SocketAddr)
    (hold : (old.map StreamListener.addr).count a ≤ 1) (hnew : (new.map Prod.fst).count a ≤ 1) :
    (∀ x, x.addr = a →
      (x ∈ (reloadStream Binds.succeed o old new).running ↔ StreamExpected old new x)) ∧
    (∀ l ∈ old, l.addr = a →
      (l ∈ (reloadStream Binds.succeed o old new).closed ↔ a ∉ new.map Prod.fst)) ∧
    (∀ binds init s, start binds (Loaded.runtime init) = .ok s → s.stream = old →
      init.runtime.streamServers = new →
      ∀ l ∈ (reloadStream Binds.succeed o old new).closed, l.addr ≠ a) := by
  refine ⟨?_, ?_, ?_⟩
  · rintro x rfl
    exact mem_running_iff_expected hold hnew
  · rintro l hl rfl
    rw [mem_reloadStream_closed hold]
    exact ⟨fun h => h.2, fun h => ⟨hl, h⟩⟩
  · rintro binds init s hstart rfl rfl l hl rfl
    obtain ⟨hmem, hno⟩ := (mem_reloadStream_closed hold).1 hl
    apply hno
    rw [start_stream hstart] at hmem
    obtain ⟨p, hp, rfl⟩ := List.mem_map.1 hmem
    exact List.mem_map_of_mem hp

end Convergence

/-! ## Two runs -/

/-- A configuration with one stream server for each list of `listen` arguments. -/
def streamServersOf (lines : List (List String)) : List Directive :=
  [⟨"http", [], some [], 1⟩,
    ⟨"stream", [], some (lines.map fun args =>
      ⟨"server", [], some [lineOf "listen" args, lineOf "proxy_pass" ["127.0.0.1:5353"]], 1⟩), 1⟩]

/-- The runtime of such a configuration. -/
def streamRuntimeOf (lines : List (List String)) : Runtime :=
  match (Config.build noExternals (streamServersOf lines)).bind
    (App.build loadingHost IterOrder.stored) with
  | .ok rt => rt
  | .error _ => ⟨[], []⟩

/-- A TCP stream server on port 53. -/
def tcpLoaded : Loaded where
  runtime := streamRuntimeOf [["53"]]
  accepted :=
    ⟨noExternals, streamServersOf [["53"]], _, loadingHost, IterOrder.stored, rfl, rfl⟩

/-- A UDP stream server on port 53. -/
def udpLoaded : Loaded where
  runtime := streamRuntimeOf [["53", "udp"]]
  accepted :=
    ⟨noExternals, streamServersOf [["53", "udp"]], _, loadingHost, IterOrder.stored, rfl, rfl⟩

/-- A TCP and a UDP stream server on port 53. -/
def tcpUdpLoaded : Loaded where
  runtime := streamRuntimeOf [["53"], ["53", "udp"]]
  accepted :=
    ⟨noExternals, streamServersOf [["53"], ["53", "udp"]], _, loadingHost, IterOrder.stored, rfl,
      rfl⟩

/-- The address of these servers. -/
def addr53 : SocketAddr := ⟨.v4 ⟨0, 0, 0, 0⟩, 53, 0⟩

theorem tcpLoaded_streams : ∃ b, tcpLoaded.runtime.streamServers = [(addr53, b, false)] := ⟨_, rfl⟩

theorem udpLoaded_streams : ∃ b, udpLoaded.runtime.streamServers = [(addr53, b, true)] := ⟨_, rfl⟩

theorem tcpUdpLoaded_streams :
    ∃ b, tcpUdpLoaded.runtime.streamServers = [(addr53, b, false), (addr53, b, true)] :=
  ⟨_, rfl⟩

/-- A reload from TCP to UDP leaves the TCP listener, and reloading an unchanged configuration with
both on one port closes a listener. -/
theorem transport_change_keeps_listener :
    (∃ s, start Binds.succeed tcpLoaded.runtime = .ok s ∧
      ¬ StreamConverged (reloadStream Binds.succeed IterOrder.stored s.stream
        udpLoaded.runtime.streamServers).running udpLoaded.runtime.streamServers) ∧
    ∃ s, start Binds.succeed tcpUdpLoaded.runtime = .ok s ∧
      (reloadStream Binds.succeed IterOrder.stored s.stream
        tcpUdpLoaded.runtime.streamServers).closed ≠ [] := by
  constructor
  · obtain ⟨s, hs⟩ := start_succeed tcpLoaded.runtime
    refine ⟨s, hs, ?_⟩
    obtain ⟨b, hb⟩ := tcpLoaded_streams
    obtain ⟨b', hb'⟩ := udpLoaded_streams
    rw [start_stream hs, hb, hb']
    intro h
    have hkept : startedStream (addr53, b, false) ∈
        (reloadStream Binds.succeed IterOrder.stored [startedStream (addr53, b, false)]
          [(addr53, b', true)]).running :=
      mem_reloadStream_running.2 ⟨(b', true), (HashMap.lookup_collect_of_once
        (by simp [startedStream])).2 (List.mem_singleton.2 rfl), Or.inl ⟨_, by simp; rfl, rfl⟩⟩
    have hwanted := List.mem_singleton.1 (h.2 _ hkept)
    exact absurd (congrArg (fun p => p.2.2) hwanted) (by simp [startedStream])
  · obtain ⟨s, hs⟩ := start_succeed tcpUdpLoaded.runtime
    refine ⟨s, hs, ?_⟩
    obtain ⟨b, hb⟩ := tcpUdpLoaded_streams
    rw [start_stream hs, hb]
    have hentry : (wantedStream [(addr53, b, false), (addr53, b, true)]).lookup
        (startedStream (addr53, b, false)).addr = some (b, true) := by
      rw [wantedStream, HashMap.lookup_collect]
      simp [startedStream]
    -- The TCP listener takes the UDP entry, and nothing is left for the UDP listener.
    simp only [reloadStream, List.map_cons, List.map_nil]
    rw [reconcile_cons_some hentry, reconcile_cons_none (by simp [startedStream])]
    simp

/-- Reloading the unchanged TCP configuration leaves its listener and closes nothing. -/
theorem unchanged_tcp_converges :
    ∃ s, start Binds.succeed tcpLoaded.runtime = .ok s ∧
      (∀ x, x.addr = addr53 → (x ∈ (reloadStream Binds.succeed IterOrder.stored s.stream
        tcpLoaded.runtime.streamServers).running ↔
          StreamExpected s.stream tcpLoaded.runtime.streamServers x)) ∧
      ∀ l ∈ (reloadStream Binds.succeed IterOrder.stored s.stream
        tcpLoaded.runtime.streamServers).closed, l.addr ≠ addr53 := by
  obtain ⟨s, hs⟩ := start_succeed tcpLoaded.runtime
  obtain ⟨b, hb⟩ := tcpLoaded_streams
  obtain ⟨hrunning, -, hclosed⟩ := reloadStream_converges IterOrder.stored s.stream
    tcpLoaded.runtime.streamServers addr53 (by rw [start_stream hs, hb]; simp [startedStream])
    (by rw [hb]; simp)
  exact ⟨s, hs, hrunning, hclosed Binds.succeed tcpLoaded s hs rfl rfl⟩

end Elrond.Process
