import Elrond.Lib.Publish
import Elrond.Process.Supervisor

/-!
# What a connection sees of a reload

For a kept listener `reload_http` sends a new acceptor on one watch channel and then the new
configuration on another. The accept loop of `server::run` reads the configuration and then the
acceptor, in a task of its own, so a reload may come between the two reads, and an accept between
the two sends. `http3::run` reads the configuration only.

Here each send and each read is one step. `snapshots_in_order` says what every connection got: the
configuration that was in force when it was accepted, with an acceptor that is no older. The two
channels are an instance of `Publish`, and between reloads they hold what `keepHttp` computes in one
step (`Wf.settled`).
-/

set_option autoImplicit false

namespace Elrond.Process

open Elrond.Lib Elrond.App

/-- A connection on an HTTP listener: the configuration and the acceptor read for it. `since` are
the configurations that had been sent when it was accepted, `upto` those whose sending had begun when
its acceptor was read. -/
structure Snapshot where
  cfg : ListenerCfg
  acceptor : Option ServerConfig
  since : List ListenerCfg
  upto : List ListenerCfg

/-- The two channels of a running listener, the configurations sent and the one being sent, the
accept loop between its two reads, and the connections on the listener and on the QUIC endpoint
beside it. -/
structure Channels where
  cfg : ListenerCfg
  acceptor : Option ServerConfig
  sent : List ListenerCfg := []
  sending : Option ListenerCfg := none
  accepting : Option (ListenerCfg × List ListenerCfg) := none
  connections : List Snapshot := []
  quic : List (ListenerCfg × List ListenerCfg) := []

/-- A step of `reload_http` for the listener, of its accept loop, or of the QUIC endpoint. -/
inductive ChannelStep where
  | sendAcceptor (cfg : ListenerCfg)
  | sendCfg
  | readCfg
  | readAcceptor
  | acceptQuic

namespace Channels

/-- The listener as it was spawned. -/
def spawned (l : HttpListener) : Channels where
  cfg := l.cfg
  acceptor := l.acceptor

/-- The configurations whose sending has begun. -/
def begun (t : Channels) : List ListenerCfg := t.sent ++ t.sending.toList

/-- The state after a step. The supervisor sends one configuration after the other, and the accept
loop reads for one connection at a time. -/
def step (t : Channels) : ChannelStep → Channels
  | .sendAcceptor cfg =>
      match t.sending with
      | some _ => t
      | none =>
          { t with
            acceptor :=
              match t.acceptor, cfg.tls with
              | some _, some sc => some sc
              | acceptor, _ => acceptor
            sending := some cfg }
  | .sendCfg =>
      match t.sending with
      | none => t
      | some cfg => { t with cfg := cfg, sent := t.sent ++ [cfg], sending := none }
  | .readCfg =>
      match t.accepting with
      | some _ => t
      | none => { t with accepting := some (t.cfg, t.sent) }
  | .readAcceptor =>
      match t.accepting with
      | none => t
      | some (cfg, since) =>
          { t with
            accepting := none
            connections := t.connections ++ [⟨cfg, t.acceptor, since, t.begun⟩] }
  | .acceptQuic => { t with quic := t.quic ++ [(t.cfg, t.sent)] }

end Channels

/-! ## What the listener is after reloads -/

/-- The configuration a listener serves after some have been sent to it: the last one. -/
def servedCfg (l : HttpListener) (cfgs : List ListenerCfg) : ListenerCfg :=
  cfgs.getLast?.getD l.cfg

/-- Its acceptor: that of the last configuration with TLS, if the listener was spawned with one. -/
def servedAcceptor (l : HttpListener) (cfgs : List ListenerCfg) : Option ServerConfig :=
  l.acceptor.map fun sc => (cfgs.filterMap ListenerCfg.tls).getLast?.getD sc

theorem servedCfg_concat (l : HttpListener) (cfgs : List ListenerCfg) (cfg : ListenerCfg) :
    servedCfg l (cfgs ++ [cfg]) = cfg := by
  rw [servedCfg, List.getLast?_concat, Option.getD_some]

theorem servedAcceptor_nil (l : HttpListener) : servedAcceptor l [] = l.acceptor := by
  cases h : l.acceptor with
  | none => rw [servedAcceptor, h, Option.map_none]
  | some sc => rw [servedAcceptor, h, Option.map_some]; rfl

theorem servedAcceptor_concat (l : HttpListener) (cfgs : List ListenerCfg) (cfg : ListenerCfg) :
    servedAcceptor l (cfgs ++ [cfg]) = (servedAcceptor l cfgs).map fun sc => cfg.tls.getD sc := by
  simp only [servedAcceptor, List.filterMap_append, Option.map_map]
  cases htls : cfg.tls with
  | none => simp [htls, Function.comp_def]
  | some sc' => simp [htls, Function.comp_def]

theorem keepHttp_acceptor_eq (l : HttpListener) (cfg : ListenerCfg) :
    (keepHttp l cfg).acceptor = l.acceptor.map fun sc => cfg.tls.getD sc := by
  rw [keepHttp]
  cases l.acceptor with
  | none => rfl
  | some sc =>
      cases cfg.tls with
      | none => rfl
      | some sc' => rfl

/-- The listener after some configurations, each pushed in one step. -/
def keptHttp (l : HttpListener) (cfgs : List ListenerCfg) : HttpListener :=
  Publish.versionAfter keepHttp l cfgs

theorem keptHttp_eq (l : HttpListener) (cfgs : List ListenerCfg) :
    keptHttp l cfgs = { l with cfg := servedCfg l cfgs, acceptor := servedAcceptor l cfgs } := by
  induction cfgs using List.reverseRecOn with
  | nil => rw [servedAcceptor_nil]; rfl
  | append_singleton cfgs cfg ih =>
      have hstep : keptHttp l (cfgs ++ [cfg]) = keepHttp (keptHttp l cfgs) cfg :=
        Publish.versionAfter_concat l cfgs cfg
      have hacceptor := keepHttp_acceptor_eq (keptHttp l cfgs) cfg
      rw [ih] at hstep hacceptor
      rw [hstep, servedAcceptor_concat, servedCfg_concat, ← hacceptor]
      rfl

/-! ## The channels publish -/

/-- The channels and their readers as a publication of listeners. -/
def Channels.publication (l : HttpListener) (t : Channels) :
    Publish.State HttpListener ListenerCfg (Option ServerConfig) ListenerCfg where
  first := t.acceptor
  second := t.cfg
  version := keptHttp l t.sent
  completed := t.sent
  underway := t.sending
  reading := t.accepting.toList
  reads := t.connections.map fun c => ⟨c.cfg, c.since, c.acceptor, c.upto⟩

/-- The channels hold what was sent, and every connection got what it should. -/
structure Channels.Wf (l : HttpListener) (t : Channels) : Prop where
  published : Publish.Wf keepHttp HttpListener.acceptor HttpListener.cfg l (t.publication l)
  quic : ∀ q ∈ t.quic, q.1 = servedCfg l q.2 ∧ q.2 <+: t.sent

/-- A listener's cells, when nothing is being sent. -/
theorem Channels.Wf.settled {l : HttpListener} {t : Channels} (h : t.Wf l)
    (hidle : t.sending = none) :
    { l with cfg := t.cfg, acceptor := t.acceptor } = t.sent.foldl keepHttp l := by
  have hfold : t.sent.foldl keepHttp l = keptHttp l t.sent := rfl
  have hbegun : (t.publication l).begun = t.sent := by
    show t.sent ++ t.sending.toList = t.sent
    rw [hidle]
    exact List.append_nil _
  have hcfg : t.cfg = (keptHttp l t.sent).cfg := h.published.second_eq
  have hacceptor : t.acceptor = (keptHttp l (t.publication l).begun).acceptor :=
    h.published.first_eq
  rw [hbegun] at hacceptor
  rw [hfold, hcfg, hacceptor, keptHttp_eq]

/-- Each step is a step of the publication, or nothing. -/
theorem Channels.publication_step {l : HttpListener} {t : Channels}
    (h : Publish.Wf keepHttp HttpListener.acceptor HttpListener.cfg l (t.publication l))
    (e : ChannelStep) :
    (t.step e).publication l = t.publication l ∨
      ∃ e', (t.step e).publication l =
        Publish.step keepHttp HttpListener.acceptor HttpListener.cfg (t.publication l) e' := by
  cases e with
  | sendAcceptor cfg =>
      simp only [step]
      cases hsending : t.sending with
      | some _ => exact Or.inl rfl
      | none =>
          refine Or.inr ⟨.begin cfg, ?_⟩
          have hacceptor : t.acceptor = servedAcceptor l t.sent := by
            have hfirst := h.first_eq
            simp only [publication, Publish.State.begun, hsending, Option.toList_none,
              List.append_nil] at hfirst
            rw [hfirst, ← keptHttp, keptHttp_eq]
          simp only [publication, Publish.step, hsending]
          rw [keptHttp_eq, hacceptor]
          rfl
  | sendCfg =>
      simp only [step]
      cases hsending : t.sending with
      | none => exact Or.inl rfl
      | some cfg =>
          refine Or.inr ⟨.finish, ?_⟩
          have hkept : keptHttp l (t.sent ++ [cfg]) = keepHttp (keptHttp l t.sent) cfg :=
            Publish.versionAfter_concat l t.sent cfg
          simp only [publication, Publish.step, hsending, hkept]
          rfl
  | readCfg =>
      simp only [step]
      cases haccepting : t.accepting with
      | some _ => exact Or.inl rfl
      | none =>
          refine Or.inr ⟨.look, ?_⟩
          simp only [publication, Publish.step, haccepting]
          rfl
  | readAcceptor =>
      simp only [step]
      cases haccepting : t.accepting with
      | none => exact Or.inl rfl
      | some r =>
          obtain ⟨cfg, since⟩ := r
          refine Or.inr ⟨.take 0, ?_⟩
          simp only [publication, Publish.step, haccepting, Option.toList_some, List.map_append]
          rfl
  | acceptQuic => exact Or.inl rfl

theorem Channels.Wf.step {l : HttpListener} {t : Channels} (h : t.Wf l) (e : ChannelStep) :
    (t.step e).Wf l where
  published := by
    rcases publication_step h.published e with heq | ⟨e', heq⟩
    · rw [heq]
      exact h.published
    · rw [heq]
      exact h.published.step e'
  quic := by
    intro q hq
    cases e with
    | sendAcceptor cfg =>
        simp only [Channels.step] at hq ⊢
        split at hq
        · exact h.quic q hq
        · exact h.quic q hq
    | sendCfg =>
        simp only [Channels.step] at hq ⊢
        split at hq
        · exact h.quic q hq
        · exact ⟨(h.quic q hq).1, (h.quic q hq).2.trans (List.prefix_append _ _)⟩
    | readCfg =>
        simp only [Channels.step] at hq ⊢
        split at hq
        · exact h.quic q hq
        · exact h.quic q hq
    | readAcceptor =>
        simp only [Channels.step] at hq ⊢
        split at hq
        · exact h.quic q hq
        · exact h.quic q hq
    | acceptQuic =>
        rcases List.mem_append.1 hq with hq | hq
        · exact h.quic q hq
        · rw [List.mem_singleton.1 hq]
          have hcfg : t.cfg = (keptHttp l t.sent).cfg := h.published.second_eq
          exact ⟨hcfg.trans (by rw [keptHttp_eq]), List.prefix_rfl⟩

theorem Channels.Wf.spawned (l : HttpListener) : (Channels.spawned l).Wf l where
  published := Publish.Wf.init l
  quic := by
    intro q hq
    cases hq

/-- **Snapshots.** In every interleaving of reloads with accepts on a kept listener, a connection is
served with the configuration that was in force when it was accepted, and its handshake uses the
acceptor of the last configuration with TLS up to that one or a later one. After a reload that turns
TLS off this is still the acceptor of the last configuration that had TLS. A connection of the QUIC
endpoint has the configuration in force when it was accepted. Between reloads the channels hold what
reloads in one step leave there. -/
theorem snapshots_in_order (l : HttpListener) (es : List ChannelStep) :
    let t := run Channels.step (Channels.spawned l) es
    (∀ c ∈ t.connections,
      c.cfg = servedCfg l c.since ∧ c.acceptor = servedAcceptor l c.upto ∧
        (∃ later, c.upto = c.since ++ later) ∧ c.upto <+: t.begun) ∧
    (∀ q ∈ t.quic, q.1 = servedCfg l q.2 ∧ q.2 <+: t.sent) ∧
    (t.sending = none →
      { l with cfg := t.cfg, acceptor := t.acceptor } = t.sent.foldl keepHttp l) := by
  intro t
  have hwf : t.Wf l := run_invariant (fun _ e h => h.step e) (Channels.Wf.spawned l) es
  refine ⟨?_, hwf.quic, hwf.settled⟩
  intro c hc
  obtain ⟨hsecond, hfirst, ⟨later, hlater⟩, hbegun⟩ :=
    hwf.published.reads _ (List.mem_map_of_mem hc)
  rw [← keptHttp, keptHttp_eq] at hsecond hfirst
  exact ⟨hsecond, hfirst, ⟨later, hlater.symm⟩, hbegun⟩

/-- An accept that a reload interrupts: the old configuration with the new certificates. -/
example (l : HttpListener) (sc sc' : ServerConfig) (cfg : ListenerCfg)
    (hl : l.acceptor = some sc) (hcfg : cfg.tls = some sc') :
    (run Channels.step (Channels.spawned l) [.readCfg, .sendAcceptor cfg, .readAcceptor]).connections =
      [⟨l.cfg, some sc', [], [cfg]⟩] := by
  simp [Channels.step, Channels.spawned, Channels.begun, hl, hcfg]

end Elrond.Process
