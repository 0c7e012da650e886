import Elrond.Process.Convergence

/-!
# Binding sockets before dropping privileges

`main` starts the listeners, drops privileges if the configuration names a user, and announces
readiness; the listener tasks it spawns run beside it. TCP and UDP sockets are bound by `main`
itself, before the task of a listener is spawned. The socket of a QUIC endpoint is bound by the
endpoint's own task (`http3::run`), so `main` may go on before it is. Here `main` and the tasks take
steps in any order, and the log records every bind, the drop and the announcement.

Every schedule binds all sockets first exactly if no listener speaks HTTP/3, or if a bind of `main`
fails and the start ends there (`binds_first_iff`).
-/

set_option autoImplicit false

namespace Elrond.Process

open Elrond.Lib Elrond.Http Elrond.App

/-! ## The steps of the start -/

/-- What a socket is bound for. -/
inductive Transport where
  | tcp
  | udp
  | quic
deriving DecidableEq, Repr

/-- A socket of the configuration. -/
structure Socket where
  transport : Transport
  addr : SocketAddr
deriving DecidableEq, Repr

/-- A step of `main`, from `Supervisor::start` on. A spawned task is given by the sockets it binds
before it serves. -/
inductive MainStep where
  | bind (socket : Socket)
  | spawn (binds : List Socket)
  | dropTo
  | ready
deriving DecidableEq, Repr

/-- What the start meets: the outcome of a bind, which may depend on the privileges, whether
`quinn_server_config` accepts the TLS configuration of a listener, and whether `drop_to`
succeeds. -/
structure StartEnv where
  binds : Socket → (dropped : Bool) → Bool
  quinnOk : ListenerCfg → Bool
  dropOk : Bool

/-- The socket of an HTTP listener. -/
def httpSocket (cfg : ListenerCfg) : Socket := ⟨.tcp, cfg.addr⟩

/-- The socket of a stream listener. -/
def streamSocket (server : SocketAddr × Upstream.Balancer × Bool) : Socket :=
  ⟨if server.2.2 then .udp else .tcp, server.1⟩

/-- The socket of the QUIC endpoint beside an HTTP listener. -/
def quicSocket (cfg : ListenerCfg) : Socket := ⟨.quic, cfg.addr⟩

/-- `spawn_http` and `spawn_stream`: the socket is bound, then its task is spawned. -/
def listenSteps (socket : Socket) : List MainStep := [.bind socket, .spawn []]

/-- `spawn_h3`: the task that is spawned binds the socket. A TLS configuration that quinn does not
accept is only logged. -/
def h3Steps (env : StartEnv) (cfg : ListenerCfg) : List MainStep :=
  if cfg.h3Tls.isSome && env.quinnOk cfg then [.spawn [quicSocket cfg]] else []

/-- The sockets that `main` binds itself. -/
def ownSockets (rt : Runtime) : List Socket :=
  rt.listeners.map httpSocket ++ rt.streamServers.map streamSocket

/-- `Supervisor::start`. -/
def startSteps (env : StartEnv) (rt : Runtime) : List MainStep :=
  (ownSockets rt).flatMap listenSteps ++ rt.listeners.flatMap (h3Steps env)

/-- What `main` does after the listeners have started. -/
def announceSteps (user : Bool) : List MainStep := if user then [.dropTo, .ready] else [.ready]

/-- All sockets of the configuration. -/
def sockets (rt : Runtime) : List Socket :=
  ownSockets rt ++ (rt.listeners.filter fun cfg => cfg.h3Tls.isSome).map quicSocket

/-! ## Schedules -/

/-- What is recorded of a start. -/
inductive StartEvent where
  | bind (socket : Socket) (ok : Bool)
  | dropTo
  | ready
deriving DecidableEq, Repr

/-- The process while it starts: what `main` has still to do, the sockets each task has still to
bind, and what has happened. -/
structure Startup where
  main : List MainStep
  tasks : List (List Socket) := []
  dropped : Bool := false
  log : List StartEvent := []
deriving DecidableEq, Repr

namespace Startup

/-- The next step of `main`. A bind that fails ends the start, and so does a drop that fails. -/
def stepMain (env : StartEnv) (s : Startup) : Startup :=
  match s.main with
  | [] => s
  | .bind socket :: rest =>
      let ok := env.binds socket s.dropped
      { s with main := if ok then rest else [], log := s.log ++ [.bind socket ok] }
  | .spawn binds :: rest => { s with main := rest, tasks := s.tasks ++ [binds] }
  | .dropTo :: rest =>
      { s with
        main := if env.dropOk then rest else []
        dropped := env.dropOk
        log := s.log ++ [.dropTo] }
  | .ready :: rest => { s with main := rest, log := s.log ++ [.ready] }

/-- The next step of the task at a position. A bind that fails is logged and ends the task. -/
def stepTask (env : StartEnv) (s : Startup) (i : Nat) : Startup :=
  match s.tasks[i]? with
  | some (socket :: rest) =>
      let ok := env.binds socket s.dropped
      { s with
        tasks := s.tasks.set i (if ok then rest else [])
        log := s.log ++ [.bind socket ok] }
  | some [] => s
  | none => s

/-- One step of a schedule: `main` moves, or the task at a position. -/
def step (env : StartEnv) (s : Startup) : Option Nat → Startup
  | none => s.stepMain env
  | some i => s.stepTask env i

/-- The process before `Supervisor::start`. -/
def init (env : StartEnv) (rt : Runtime) (user : Bool) : Startup where
  main := startSteps env rt ++ announceSteps user

end Startup

/-- Every socket is bound when `drop_to` runs and when readiness is announced, and none is bound
after the drop. -/
structure BindsFirst (rt : Runtime) (log : List StartEvent) : Prop where
  atDrop : ∀ pre post, log = pre ++ .dropTo :: post → ∀ s ∈ sockets rt, .bind s true ∈ pre
  atReady : ∀ pre post, log = pre ++ .ready :: post → ∀ s ∈ sockets rt, .bind s true ∈ pre
  noneLater : ∀ pre post, log = pre ++ .dropTo :: post → ∀ s ok, .bind s ok ∉ post

/-! ## Logs -/

/-- The event is a bind. -/
def StartEvent.isBind : StartEvent → Bool
  | .bind _ _ => true
  | _ => false

theorem notMem_of_isBind {log : List StartEvent} (h : ∀ e ∈ log, e.isBind = true) :
    .dropTo ∉ log ∧ .ready ∉ log :=
  ⟨fun hmem => Bool.false_ne_true (h _ hmem), fun hmem => Bool.false_ne_true (h _ hmem)⟩

/-- A log of binds only, as long as neither the drop nor the announcement has come. -/
theorem bindsFirst_of_isBind (rt : Runtime) {log : List StartEvent}
    (h : ∀ e ∈ log, e.isBind = true) : BindsFirst rt log := by
  have hdrop : ∀ pre post, log ≠ pre ++ .dropTo :: post := by
    rintro pre post rfl
    exact (notMem_of_isBind h).1 (List.mem_append_right _ List.mem_cons_self)
  have hready : ∀ pre post, log ≠ pre ++ .ready :: post := by
    rintro pre post rfl
    exact (notMem_of_isBind h).2 (List.mem_append_right _ List.mem_cons_self)
  constructor
  · exact fun pre post heq => absurd heq (hdrop pre post)
  · exact fun pre post heq => absurd heq (hready pre post)
  · exact fun pre post heq => absurd heq (hdrop pre post)

/-- What is not a bind comes after all of the first part. -/
theorem split_after_binds {binds others pre post : List StartEvent} {e : StartEvent}
    (hbinds : ∀ e ∈ binds, e.isBind = true) (he : e.isBind = false)
    (h : binds ++ others = pre ++ e :: post) :
    ∃ between, pre = binds ++ between ∧ others = between ++ e :: post := by
  rcases List.append_eq_append_iff.1 h with ⟨between, hpre, hothers⟩ | ⟨cs, hsplit, hcons⟩
  · exact ⟨between, hpre, hothers⟩
  · cases cs with
    | nil =>
        rw [List.append_nil] at hsplit
        rw [List.nil_append] at hcons
        exact ⟨[], by rw [hsplit, List.append_nil], hcons.symm⟩
    | cons c cs =>
        obtain ⟨rfl, -⟩ := List.cons.inj hcons
        have hmem : e ∈ binds := by
          rw [hsplit]
          exact List.mem_append_right _ List.mem_cons_self
        exact absurd ((hbinds e hmem).symm.trans he) (by decide)

/-- Binds of all sockets, then anything but binds. -/
theorem bindsFirst_append {rt : Runtime} {binds others : List StartEvent}
    (hbinds : ∀ e ∈ binds, e.isBind = true) (hall : ∀ s ∈ sockets rt, .bind s true ∈ binds)
    (hothers : ∀ e ∈ others, e.isBind = false) : BindsFirst rt (binds ++ others) := by
  constructor
  · intro pre post heq s hs
    obtain ⟨between, rfl, -⟩ := split_after_binds hbinds rfl heq
    exact List.mem_append_left _ (hall s hs)
  · intro pre post heq s hs
    obtain ⟨between, rfl, -⟩ := split_after_binds hbinds rfl heq
    exact List.mem_append_left _ (hall s hs)
  · intro pre post heq s ok hmem
    obtain ⟨between, -, hsplit⟩ := split_after_binds hbinds rfl heq
    have hmem' : StartEvent.bind s ok ∈ others := by
      rw [hsplit]
      exact List.mem_append_right _ (List.mem_cons_of_mem _ hmem)
    cases hothers _ hmem'

/-! ## The program of `main` -/

/-- What a step of `main` records when it succeeds. -/
def MainStep.recorded : MainStep → List StartEvent
  | .bind socket => [.bind socket true]
  | .spawn _ => []
  | .dropTo => [.dropTo]
  | .ready => [.ready]

/-- The step belongs to starting listeners. -/
def MainStep.starts : MainStep → Bool
  | .bind _ => true
  | .spawn _ => true
  | _ => false

theorem starts_startSteps (env : StartEnv) (rt : Runtime) :
    ∀ m ∈ startSteps env rt, m.starts = true := by
  intro m hm
  rcases List.mem_append.1 hm with hown | hh3
  · obtain ⟨s, -, hs⟩ := List.mem_flatMap.1 hown
    rcases List.mem_cons.1 hs with rfl | hs
    · rfl
    · rw [List.mem_singleton.1 hs]
      rfl
  · obtain ⟨cfg, -, hcfg⟩ := List.mem_flatMap.1 hh3
    rw [h3Steps] at hcfg
    split at hcfg
    · rw [List.mem_singleton.1 hcfg]
      rfl
    · cases hcfg

theorem starts_announceSteps (user : Bool) : ∀ m ∈ announceSteps user, m.starts = false := by
  cases user with
  | true => decide
  | false => decide

theorem isBind_recorded {steps : List MainStep} (h : ∀ m ∈ steps, m.starts = true) :
    ∀ e ∈ steps.flatMap MainStep.recorded, e.isBind = true := by
  intro e he
  obtain ⟨m, hm, hem⟩ := List.mem_flatMap.1 he
  have hstarts := h m hm
  cases m with
  | bind socket =>
      rw [List.mem_singleton.1 hem]
      rfl
  | spawn binds => cases hem
  | dropTo => cases hstarts
  | ready => cases hstarts

theorem not_isBind_recorded {steps : List MainStep} (h : ∀ m ∈ steps, m.starts = false) :
    ∀ e ∈ steps.flatMap MainStep.recorded, e.isBind = false := by
  intro e he
  obtain ⟨m, hm, hem⟩ := List.mem_flatMap.1 he
  have hstarts := h m hm
  cases m with
  | bind socket => cases hstarts
  | spawn binds => cases hstarts
  | dropTo =>
      rw [List.mem_singleton.1 hem]
      rfl
  | ready =>
      rw [List.mem_singleton.1 hem]
      rfl

/-- `main` itself binds its own sockets and no others. -/
theorem mem_recorded_startSteps {env : StartEnv} {rt : Runtime} {s : Socket} :
    .bind s true ∈ (startSteps env rt).flatMap MainStep.recorded ↔ s ∈ ownSockets rt := by
  have hh3 : ∀ cfg, StartEvent.bind s true ∉ (h3Steps env cfg).flatMap MainStep.recorded := by
    intro cfg
    rw [h3Steps]
    split
    · exact List.not_mem_nil
    · exact List.not_mem_nil
  rw [startSteps, List.flatMap_append, List.flatMap_assoc, List.flatMap_assoc, List.mem_append]
  constructor
  · rintro (hown | htask)
    · obtain ⟨socket, hsocket, hmem⟩ := List.mem_flatMap.1 hown
      obtain ⟨rfl, -⟩ := StartEvent.bind.inj (List.mem_singleton.1 hmem)
      exact hsocket
    · obtain ⟨cfg, -, hmem⟩ := List.mem_flatMap.1 htask
      exact absurd hmem (hh3 cfg)
  · intro hs
    exact Or.inl (List.mem_flatMap.2 ⟨s, hs, List.mem_singleton.2 rfl⟩)

theorem quicSocket_notMem_ownSockets (rt : Runtime) (cfg : ListenerCfg) :
    quicSocket cfg ∉ ownSockets rt := by
  intro hmem
  rcases List.mem_append.1 hmem with hhttp | hstream
  · obtain ⟨cfg', -, heq⟩ := List.mem_map.1 hhttp
    cases congrArg Socket.transport heq
  · obtain ⟨server, -, heq⟩ := List.mem_map.1 hstream
    have htransport := congrArg Socket.transport heq
    simp only [streamSocket, quicSocket] at htransport
    split at htransport
    · cases htransport
    · cases htransport

/-! ## Without HTTP/3 -/

theorem ownSockets_eq_sockets {rt : Runtime} (h : ∀ cfg ∈ rt.listeners, cfg.h3Tls = none) :
    sockets rt = ownSockets rt := by
  have hnone : (rt.listeners.filter fun cfg => cfg.h3Tls.isSome) = [] := by
    rw [List.filter_eq_nil_iff]
    intro cfg hcfg
    rw [h cfg hcfg]
    exact Bool.false_ne_true
  rw [sockets, hnone]
  exact List.append_nil _

theorem spawn_startSteps {env : StartEnv} {rt : Runtime}
    (h : ∀ cfg ∈ rt.listeners, cfg.h3Tls = none) {binds : List Socket}
    (hm : .spawn binds ∈ startSteps env rt) : binds = [] := by
  rcases List.mem_append.1 hm with hown | hh3
  · obtain ⟨s, -, hs⟩ := List.mem_flatMap.1 hown
    rcases List.mem_cons.1 hs with heq | hs
    · cases heq
    · exact MainStep.spawn.inj (List.mem_singleton.1 hs)
  · obtain ⟨cfg, hcfg, hmem⟩ := List.mem_flatMap.1 hh3
    rw [h3Steps, h cfg hcfg] at hmem
    cases hmem

/-- `main` has done a part of its program and goes on with the rest, or has ended: by a drop that
failed, or by a bind that failed. No task binds anything. -/
structure Orderly (program : List MainStep) (s : Startup) : Prop where
  tasks : ∀ t ∈ s.tasks, t = []
  progress : ∃ finished rest, program = finished ++ rest ∧
    ((s.main = rest ∨ s.main = []) ∧ s.log = finished.flatMap MainStep.recorded ∨
      s.main = [] ∧ ∃ socket rest', rest = .bind socket :: rest' ∧
        s.log = finished.flatMap MainStep.recorded ++ [.bind socket false])

/-- A step of `main` keeps its program in order. -/
theorem Orderly.stepMain {env : StartEnv} {program : List MainStep} {s : Startup}
    (h : Orderly program s) (hspawn : ∀ binds, .spawn binds ∈ program → binds = []) :
    Orderly program (s.stepMain env) := by
  obtain ⟨finished, rest, hprogram, hprogress⟩ := h.progress
  cases hmain : s.main with
  | nil =>
      have hsame : s.stepMain env = s := by
        rw [Startup.stepMain, hmain]
      rw [hsame]
      exact h
  | cons m rest' =>
      -- `main` still runs, so it is at the rest of its program
      have hrest : rest = m :: rest' ∧ s.log = finished.flatMap MainStep.recorded := by
        rcases hprogress with ⟨hat | hend, hlog⟩ | ⟨hend, -⟩
        · exact ⟨hat.symm.trans hmain, hlog⟩
        · rw [hmain] at hend
          cases hend
        · rw [hmain] at hend
          cases hend
      obtain ⟨rfl, hlog⟩ := hrest
      have hnext : program = (finished ++ [m]) ++ rest' := by
        rw [hprogram, List.append_assoc]
        rfl
      have hrecorded : (finished ++ [m]).flatMap MainStep.recorded =
          finished.flatMap MainStep.recorded ++ m.recorded := by
        rw [List.flatMap_append, List.flatMap_singleton]
      cases m with
      | bind socket =>
          simp only [Startup.stepMain, hmain]
          cases hok : env.binds socket s.dropped with
          | true =>
              refine ⟨h.tasks, _, rest', hnext, Or.inl ⟨Or.inl rfl, ?_⟩⟩
              rw [hrecorded, ← hlog]
              rfl
          | false =>
              refine ⟨h.tasks, finished, _, hprogram, Or.inr ⟨rfl, socket, rest', rfl, ?_⟩⟩
              rw [← hlog]
      | spawn binds =>
          simp only [Startup.stepMain, hmain]
          refine ⟨fun t ht => ?_, _, rest', hnext, Or.inl ⟨Or.inl rfl, ?_⟩⟩
          · rcases List.mem_append.1 ht with hold | hnew
            · exact h.tasks t hold
            · rw [List.mem_singleton.1 hnew]
              apply hspawn
              rw [hprogram]
              exact List.mem_append_right _ List.mem_cons_self
          · rw [hrecorded, ← hlog]
            exact (List.append_nil _).symm
      | dropTo =>
          simp only [Startup.stepMain, hmain]
          refine ⟨h.tasks, _, rest', hnext, Or.inl ⟨?_, ?_⟩⟩
          · cases env.dropOk with
            | true => exact Or.inl rfl
            | false => exact Or.inr rfl
          · rw [hrecorded, ← hlog]
            rfl
      | ready =>
          simp only [Startup.stepMain, hmain]
          refine ⟨h.tasks, _, rest', hnext, Or.inl ⟨Or.inl rfl, ?_⟩⟩
          rw [hrecorded, ← hlog]
          rfl

/-- A task has nothing to bind. -/
theorem Orderly.stepTask {env : StartEnv} {program : List MainStep} {s : Startup}
    (h : Orderly program s) (i : Nat) : s.stepTask env i = s := by
  rw [Startup.stepTask]
  cases htask : s.tasks[i]? with
  | none => rfl
  | some t =>
      rw [h.tasks t (List.mem_of_getElem? htask)]

/-- An orderly process has bound everything first. -/
theorem Orderly.bindsFirst {env : StartEnv} {rt : Runtime} {user : Bool} {s : Startup}
    (hnone : ∀ cfg ∈ rt.listeners, cfg.h3Tls = none)
    (h : Orderly (startSteps env rt ++ announceSteps user) s) : BindsFirst rt s.log := by
  obtain ⟨finished, rest, hprogram, hprogress⟩ := h.progress
  rcases List.append_eq_append_iff.1 hprogram with ⟨extra, hfinished, hannounce⟩ |
    ⟨cs, hstart, hrest⟩
  -- the listeners have all started
  · have hlog : s.log = finished.flatMap MainStep.recorded := by
      rcases hprogress with ⟨-, hlog⟩ | ⟨-, socket, rest', rfl, -⟩
      · exact hlog
      · have hmem : MainStep.bind socket ∈ announceSteps user := by
          rw [hannounce]
          exact List.mem_append_right _ List.mem_cons_self
        cases starts_announceSteps user _ hmem
    rw [hlog, hfinished, List.flatMap_append]
    refine bindsFirst_append (isBind_recorded (starts_startSteps env rt)) (fun s hs => ?_) ?_
    · rw [ownSockets_eq_sockets hnone] at hs
      exact mem_recorded_startSteps.2 hs
    · apply not_isBind_recorded
      intro m hm
      exact starts_announceSteps user m (by rw [hannounce]; exact List.mem_append_left _ hm)
  -- only binds so far
  · have hbinds : ∀ e ∈ finished.flatMap MainStep.recorded, e.isBind = true := by
      apply isBind_recorded
      intro m hm
      exact starts_startSteps env rt m (by rw [hstart]; exact List.mem_append_left _ hm)
    apply bindsFirst_of_isBind
    rcases hprogress with ⟨-, hlog⟩ | ⟨-, socket, rest', -, hlog⟩
    · rw [hlog]
      exact hbinds
    · rw [hlog]
      intro e he
      rcases List.mem_append.1 he with hold | hnew
      · exact hbinds e hold
      · rw [List.mem_singleton.1 hnew]
        rfl

/-- Without HTTP/3 every schedule binds all sockets first. -/
theorem bindsFirst_of_no_h3 (env : StartEnv) {rt : Runtime} (user : Bool)
    (hnone : ∀ cfg ∈ rt.listeners, cfg.h3Tls = none) (schedule : List (Option Nat)) :
    BindsFirst rt (run (Startup.step env) (Startup.init env rt user) schedule).log := by
  have hspawn : ∀ binds, .spawn binds ∈ startSteps env rt ++ announceSteps user → binds = [] := by
    intro binds hmem
    rcases List.mem_append.1 hmem with hstart | hannounce
    · exact spawn_startSteps hnone hstart
    · cases starts_announceSteps user _ hannounce
  have hstep : ∀ s who, Orderly (startSteps env rt ++ announceSteps user) s →
      Orderly (startSteps env rt ++ announceSteps user) (s.step env who) := by
    intro s who h
    cases who with
    | none => exact h.stepMain hspawn
    | some i =>
        show Orderly _ (s.stepTask env i)
        rw [h.stepTask]
        exact h
  have hinit : Orderly (startSteps env rt ++ announceSteps user) (Startup.init env rt user) :=
    ⟨fun _ ht => absurd ht List.not_mem_nil, [], _, rfl, Or.inl ⟨Or.inl rfl, rfl⟩⟩
  exact (run_invariant hstep hinit schedule).bindsFirst hnone

/-! ## When a bind of `main` fails -/

/-- `main` has ended, or has a bind before it that will fail. -/
structure Doomed (socket : Socket) (s : Startup) : Prop where
  kept : s.dropped = false
  binds : ∀ e ∈ s.log, e.isBind = true
  main : s.main = [] ∨
    ∃ before after, s.main = before ++ .bind socket :: after ∧ ∀ m ∈ before, m.starts = true

theorem isBind_concat {log : List StartEvent} (h : ∀ e ∈ log, e.isBind = true) (s : Socket)
    (ok : Bool) : ∀ e ∈ log ++ [.bind s ok], e.isBind = true := by
  intro e he
  rcases List.mem_append.1 he with hold | hnew
  · exact h e hold
  · rw [List.mem_singleton.1 hnew]
    rfl

theorem Doomed.step {env : StartEnv} {socket : Socket} (hfail : env.binds socket false = false)
    {s : Startup} (h : Doomed socket s) (who : Option Nat) : Doomed socket (s.step env who) := by
  cases who with
  | some i =>
      simp only [Startup.step, Startup.stepTask]
      split
      · exact ⟨h.kept, isBind_concat h.binds _ _, h.main⟩
      · exact h
      · exact h
  | none =>
      simp only [Startup.step]
      rcases h.main with hend | ⟨before, after, hmain, hstarts⟩
      · have hsame : s.stepMain env = s := by
          rw [Startup.stepMain, hend]
        rw [hsame]
        exact h
      · cases before with
        | nil =>
            rw [List.nil_append] at hmain
            simp only [Startup.stepMain, hmain, h.kept, hfail]
            exact ⟨rfl, isBind_concat h.binds _ _, Or.inl rfl⟩
        | cons m before =>
            have htail : ∀ m ∈ before, m.starts = true := fun m hm =>
              hstarts m (List.mem_cons_of_mem _ hm)
            have hm := hstarts m List.mem_cons_self
            rw [List.cons_append] at hmain
            cases m with
            | bind other =>
                simp only [Startup.stepMain, hmain]
                refine ⟨h.kept, isBind_concat h.binds _ _, ?_⟩
                cases env.binds other s.dropped with
                | true => exact Or.inr ⟨before, after, rfl, htail⟩
                | false => exact Or.inl rfl
            | spawn binds =>
                simp only [Startup.stepMain, hmain]
                exact ⟨h.kept, h.binds, Or.inr ⟨before, after, rfl, htail⟩⟩
            | dropTo => cases hm
            | ready => cases hm

/-- If a bind of `main` fails, no schedule comes to the drop or the announcement. -/
theorem bindsFirst_of_failure (env : StartEnv) (rt : Runtime) (user : Bool) {socket : Socket}
    (hsocket : socket ∈ ownSockets rt) (hfail : env.binds socket false = false)
    (schedule : List (Option Nat)) :
    BindsFirst rt (run (Startup.step env) (Startup.init env rt user) schedule).log := by
  have hinit : Doomed socket (Startup.init env rt user) := by
    obtain ⟨front, back, hsplit⟩ := List.append_of_mem hsocket
    refine ⟨rfl, fun _ he => absurd he List.not_mem_nil, Or.inr ⟨front.flatMap listenSteps,
      .spawn [] :: (back.flatMap listenSteps ++ rt.listeners.flatMap (h3Steps env) ++
        announceSteps user), ?_, fun m hm => ?_⟩⟩
    · simp [Startup.init, startSteps, hsplit, listenSteps]
    · apply starts_startSteps env rt m
      rw [startSteps, hsplit, List.flatMap_append]
      exact List.mem_append_left _ (List.mem_append_left _ hm)
  have hrun : Doomed socket (run (Startup.step env) (Startup.init env rt user) schedule) :=
    run_invariant (fun s who h => h.step hfail who) hinit schedule
  exact bindsFirst_of_isBind rt hrun.binds

/-! ## When `main` is scheduled first -/

/-- `main` alone gets through the steps of starting listeners if its binds succeed. -/
theorem run_main {env : StartEnv} {steps : List MainStep} (hstarts : ∀ m ∈ steps, m.starts = true)
    (hok : ∀ socket, .bind socket ∈ steps → env.binds socket false = true) (rest : List MainStep)
    (tasks : List (List Socket)) (log : List StartEvent) :
    ∃ tasks', run (Startup.step env) ⟨steps ++ rest, tasks, false, log⟩
        (List.replicate steps.length none) =
      ⟨rest, tasks', false, log ++ steps.flatMap MainStep.recorded⟩ := by
  induction steps generalizing tasks log with
  | nil => exact ⟨tasks, by simp⟩
  | cons m steps ih =>
      have ih' := ih (fun m hm => hstarts m (List.mem_cons_of_mem _ hm))
        (fun socket hs => hok socket (List.mem_cons_of_mem _ hs))
      have hm := hstarts m List.mem_cons_self
      rw [List.length_cons, List.replicate_succ, run_cons, List.flatMap_cons, ← List.append_assoc]
      cases m with
      | bind socket =>
          have hbind := hok socket List.mem_cons_self
          simp only [Startup.step, Startup.stepMain, List.cons_append, hbind, if_true]
          exact ih' tasks (log ++ [.bind socket true])
      | spawn binds =>
          simp only [Startup.step, Startup.stepMain, List.cons_append, MainStep.recorded,
            List.append_nil]
          exact ih' (tasks ++ [binds]) log
      | dropTo => cases hm
      | ready => cases hm

theorem bind_startSteps {env : StartEnv} {rt : Runtime} {socket : Socket}
    (h : .bind socket ∈ startSteps env rt) : socket ∈ ownSockets rt :=
  mem_recorded_startSteps.1 (List.mem_flatMap.2 ⟨_, h, List.mem_singleton.2 rfl⟩)

/-- With HTTP/3, and all binds of `main` successful, the schedule that runs `main` first comes to
the drop, or to the announcement, before the endpoint is bound. -/
theorem not_bindsFirst_of_h3 (env : StartEnv) {rt : Runtime} (user : Bool) {cfg : ListenerCfg}
    (hcfg : cfg ∈ rt.listeners) (hh3 : cfg.h3Tls.isSome = true)
    (hok : ∀ socket ∈ ownSockets rt, env.binds socket false = true) :
    ∃ schedule,
      ¬ BindsFirst rt (run (Startup.step env) (Startup.init env rt user) schedule).log := by
  obtain ⟨tasks, hrun⟩ := run_main (starts_startSteps env rt)
    (fun socket h => hok socket (bind_startSteps h)) (announceSteps user) [] []
  rw [List.nil_append] at hrun
  have hquic : quicSocket cfg ∈ sockets rt :=
    List.mem_append_right _ (List.mem_map.2 ⟨cfg, List.mem_filter.2 ⟨hcfg, hh3⟩, rfl⟩)
  have hunbound : StartEvent.bind (quicSocket cfg) true ∉
      (startSteps env rt).flatMap MainStep.recorded := fun hmem =>
    quicSocket_notMem_ownSockets rt cfg (mem_recorded_startSteps.1 hmem)
  refine ⟨List.replicate (startSteps env rt).length none ++ [none], fun h => ?_⟩
  rw [run_concat, Startup.init, hrun] at h
  cases user with
  | true => exact hunbound (h.atDrop _ [] rfl _ hquic)
  | false => exact hunbound (h.atReady _ [] rfl _ hquic)

/-- **Bind before drop.** Whatever the outcomes of the binds and of the drop are: in every schedule
of `main` and the tasks it spawns, all sockets are bound when `drop_to` runs and when readiness is
announced, and none is bound after the drop, exactly if no listener speaks HTTP/3 or one of the
binds that `main` makes itself fails. -/
theorem binds_first_iff (env : StartEnv) (rt : Runtime) (user : Bool) :
    (∀ schedule, BindsFirst rt
        (run (Startup.step env) (Startup.init env rt user) schedule).log) ↔
      (∀ cfg ∈ rt.listeners, cfg.h3Tls = none) ∨
        ∃ socket ∈ ownSockets rt, env.binds socket false = false := by
  constructor
  · intro hall
    by_contra hnot
    rw [not_or] at hnot
    obtain ⟨hh3, hok⟩ := hnot
    push Not at hh3
    obtain ⟨cfg, hcfg, hsome⟩ := hh3
    have hok' : ∀ socket ∈ ownSockets rt, env.binds socket false = true := by
      intro socket hsocket
      by_contra hfail
      exact hok ⟨socket, hsocket, Bool.eq_false_iff.2 hfail⟩
    obtain ⟨schedule, hbad⟩ := not_bindsFirst_of_h3 env user hcfg
      (Option.isSome_iff_ne_none.2 hsome) hok'
    exact hbad (hall schedule)
  · rintro (hnone | ⟨socket, hsocket, hfail⟩) schedule
    · exact bindsFirst_of_no_h3 env user hnone schedule
    · exact bindsFirst_of_failure env rt user hsocket hfail schedule

/-- An environment in which everything succeeds. -/
def StartEnv.succeed : StartEnv := ⟨fun _ _ => true, fun _ => true, true⟩

/-- A server with HTTP/3 and a `user`: `main` binds the TCP socket, spawns both tasks and drops
privileges, and then the endpoint binds its socket. -/
theorem quic_bound_after_drop :
    (run (Startup.step StartEnv.succeed) (Startup.init StartEnv.succeed http3Loaded.runtime true)
        [none, none, none, none, some 1]).log =
      [.bind ⟨.tcp, addr8443⟩ true, .dropTo, .bind ⟨.quic, addr8443⟩ true] ∧
    ¬ BindsFirst http3Loaded.runtime
        (run (Startup.step StartEnv.succeed)
          (Startup.init StartEnv.succeed http3Loaded.runtime true)
          [none, none, none, none, some 1]).log := by
  have hlog : (run (Startup.step StartEnv.succeed)
        (Startup.init StartEnv.succeed http3Loaded.runtime true)
        [none, none, none, none, some 1]).log =
      [.bind ⟨.tcp, addr8443⟩ true, .dropTo, .bind ⟨.quic, addr8443⟩ true] := rfl
  refine ⟨hlog, fun h => ?_⟩
  rw [hlog] at h
  exact h.noneLater [.bind ⟨.tcp, addr8443⟩ true] _ rfl _ _ (List.mem_singleton.2 rfl)

end Elrond.Process
