import Elrond.App.ListenFidelity
import Elrond.Lib.Reconcile
import Elrond.Lib.Run

/-!
# The supervisor

`supervisor.rs`: the listener tasks of the process and what a reload does to them. A listener task
reads its configuration from a watch channel at every accept; here a listener holds the current
value of its channel. Whether an HTTP listener speaks TLS is fixed when it is spawned: `acceptor` is
the value of its acceptor channel, absent for a plain listener.

A QUIC endpoint reads the channel of the HTTP listener it was started beside, named by that
listener's number. The channel outlives the listener: once the listener is gone the endpoint keeps
the last value. A task ends only by its shutdown signal.

`start` and `reload` take a runtime that the configuration code accepted (`Loaded`), the outcomes of
the binds, and an iteration order for each of the two tables a reload makes.
-/

set_option autoImplicit false

namespace Elrond.Process

open Elrond.Lib Elrond.Http Elrond.Config Elrond.Upstream Elrond.App

/-! ## State -/

/-- `HttpListener`, numbered by its channel. -/
structure HttpListener where
  id : Nat
  addr : SocketAddr
  cfg : ListenerCfg
  acceptor : Option ServerConfig

/-- `H3Listener`: a QUIC endpoint with the TLS configuration it was started with. -/
structure H3Listener where
  source : Nat
  addr : SocketAddr
  tls : ServerConfig
  cfg : ListenerCfg

/-- `StreamListener`. -/
structure StreamListener where
  addr : SocketAddr
  udp : Bool
  balancer : Balancer
deriving DecidableEq

/-- `Supervisor`, with the next listener number. -/
structure Supervisor where
  http : List HttpListener
  stream : List StreamListener
  h3 : List H3Listener
  nextId : Nat

/-- A runtime that `config::build` and `app::build` accepted. -/
structure Loaded where
  runtime : Runtime
  accepted : ∃ (env : Externals) (dirs : List Directive) (cfg : MainConfig) (host : Host)
    (o : IterOrder (SocketAddr × ListenerCfg)),
    Config.build env dirs = .ok cfg ∧ App.build host o cfg = .ok runtime

/-- What binding each socket results in. -/
structure Binds where
  http : SocketAddr → Except String Unit
  stream : SocketAddr → (udp : Bool) → Except String Unit
  quic : SocketAddr → Except String Unit

/-- Every bind succeeds. -/
def Binds.succeed : Binds := ⟨fun _ => .ok (), fun _ _ => .ok (), fun _ => .ok ()⟩

/-! ## Starting -/

/-- The listener of `spawn_http`, once its socket is bound. -/
def spawnHttp (id : Nat) (cfg : ListenerCfg) : HttpListener := ⟨id, cfg.addr, cfg, cfg.tls⟩

/-- The endpoint of `spawn_h3`, if the listener is configured for it and its socket binds. -/
def spawnH3 (binds : Binds) (l : HttpListener) : Option H3Listener :=
  l.cfg.h3Tls.bind fun tls =>
    match binds.quic l.addr with
    | .ok _ => some ⟨l.id, l.addr, tls, l.cfg⟩
    | .error _ => none

/-- `Supervisor::start`. -/
def start (binds : Binds) (rt : Runtime) : Except String Supervisor := do
  let http ← rt.listeners.zipIdx.mapM fun (cfg, i) => do
    binds.http cfg.addr
    .ok (spawnHttp i cfg)
  let stream ← rt.streamServers.mapM fun (addr, balancer, udp) => do
    binds.stream addr udp
    .ok (StreamListener.mk addr udp balancer)
  .ok ⟨http, stream, http.filterMap (spawnH3 binds), rt.listeners.length⟩

/-! ## Reloading -/

/-- A kept HTTP listener: the new configuration is pushed; a new acceptor is pushed if both sides
speak TLS. -/
def keepHttp (l : HttpListener) (cfg : ListenerCfg) : HttpListener :=
  { l with
    cfg := cfg
    acceptor :=
      match l.acceptor, cfg.tls with
      | some _, some sc => some sc
      | acceptor, _ => acceptor }

/-- Start the listeners that are left over, numbering them on. -/
def spawnRest (binds : Binds) (nextId : Nat) :
    List (SocketAddr × ListenerCfg) → List HttpListener × Nat
  | [] => ([], nextId)
  | (_, cfg) :: rest =>
      match binds.http cfg.addr with
      | .ok _ =>
          let (ls, n) := spawnRest binds (nextId + 1) rest
          (spawnHttp nextId cfg :: ls, n)
      | .error _ => spawnRest binds nextId rest

/-- The table of wanted HTTP listeners. -/
def wantedHttp (new : List ListenerCfg) : HashMap SocketAddr ListenerCfg :=
  HashMap.collect (new.map fun c => (c.addr, c))

/-- `reload_http`: the running listeners after it and the next number. -/
def reloadHttp (binds : Binds) (o : IterOrder (SocketAddr × ListenerCfg)) (nextId : Nat)
    (old : List HttpListener) (new : List ListenerCfg) : List HttpListener × Nat :=
  let r := reconcile HttpListener.addr (wantedHttp new) old
  let (spawned, n) := spawnRest binds nextId (HashMap.iter r.rest o)
  (r.matched.map (fun m => keepHttp m.1 m.2) ++ spawned, n)

/-- What an endpoint reads after a reload: the value of its channel, which no longer changes once
its listener is gone. -/
def H3Listener.follow (http : List HttpListener) (h : H3Listener) : H3Listener :=
  match http.find? fun l => l.id == h.source with
  | some l => { h with cfg := l.cfg }
  | none => h

/-- A kept stream listener: a changed transport leaves it as it is, else the new balancer is
pushed. -/
def keepStream (l : StreamListener) (new : Balancer × Bool) : StreamListener :=
  if new.2 ≠ l.udp then l else { l with balancer := new.1 }

/-- The table of wanted stream listeners. -/
def wantedStream (new : List (SocketAddr × Balancer × Bool)) :
    HashMap SocketAddr (Balancer × Bool) :=
  HashMap.collect new

/-- Start a stream listener, if its socket binds. -/
def spawnStream (binds : Binds) (p : SocketAddr × Balancer × Bool) : Option StreamListener :=
  match binds.stream p.1 p.2.2 with
  | .ok _ => some ⟨p.1, p.2.2, p.2.1⟩
  | .error _ => none

/-- What `reload_stream` results in: the running listeners and the closed ones. -/
structure StreamReload where
  running : List StreamListener
  closed : List StreamListener

/-- `reload_stream`. -/
def reloadStream (binds : Binds) (o : IterOrder (SocketAddr × Balancer × Bool))
    (old : List StreamListener) (new : List (SocketAddr × Balancer × Bool)) : StreamReload :=
  let r := reconcile StreamListener.addr (wantedStream new) old
  { running := r.matched.map (fun m => keepStream m.1 m.2) ++
      (HashMap.iter r.rest o).filterMap (spawnStream binds)
    closed := r.closed }

/-- One `SIGHUP`: what loading the configuration results in, the binds, and the iteration orders. -/
structure Reload where
  loaded : Except String Loaded
  binds : Binds
  httpOrder : IterOrder (SocketAddr × ListenerCfg)
  streamOrder : IterOrder (SocketAddr × Balancer × Bool)

/-- `Supervisor::reload`. A configuration that does not load changes nothing. -/
def Supervisor.reload (s : Supervisor) (e : Reload) : Supervisor :=
  match e.loaded with
  | .error _ => s
  | .ok new =>
      let (http, nextId) :=
        reloadHttp e.binds e.httpOrder s.nextId s.http new.runtime.listeners
      { http := http
        stream := (reloadStream e.binds e.streamOrder s.stream new.runtime.streamServers).running
        h3 := s.h3.map (H3Listener.follow http)
        nextId := nextId }

/-- A reload to a configuration that does not load. -/
theorem reload_error {s : Supervisor} {e : Reload} {msg : String} (h : e.loaded = .error msg) :
    s.reload e = s := by
  rw [Supervisor.reload, h]

/-- A reload to a configuration that loads. -/
theorem reload_ok {s : Supervisor} {e : Reload} {new : Loaded} (h : e.loaded = .ok new) :
    s.reload e =
      { http := (reloadHttp e.binds e.httpOrder s.nextId s.http new.runtime.listeners).1
        stream := (reloadStream e.binds e.streamOrder s.stream new.runtime.streamServers).running
        h3 := s.h3.map (H3Listener.follow
          (reloadHttp e.binds e.httpOrder s.nextId s.http new.runtime.listeners).1)
        nextId := (reloadHttp e.binds e.httpOrder s.nextId s.http new.runtime.listeners).2 } := by
  rw [Supervisor.reload, h]

end Elrond.Process
