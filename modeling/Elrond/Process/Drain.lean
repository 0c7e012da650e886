import Elrond.Process.Convergence

/-!
# Draining

What becomes of open connections when listeners stop. A listener task leaves its accept loop when it
sees its shutdown signal, which a reload sends to listeners that are no longer configured and
`Supervisor::shutdown` to all others. Then `server::run` waits for the connections it watches, which
are those without TLS; `stream::run` and `stream::run_udp` wait for none; `http3::run` closes its
connections and waits for these. `Supervisor::shutdown` awaits the tasks of its listeners in turn,
and when `main` returns everything still open is cut off.

The tasks, the connections and `main` take steps in any order. When the process exits, no request on
a plain HTTP connection of a configured listener has been cut off (`drained_at_exit`), and these
connections are all that the exit waits for (`exit_reachable_iff`).
-/

set_option autoImplicit false

namespace Elrond.Process

open Elrond.Lib Elrond.Http Elrond.Config Elrond.Upstream Elrond.App

/-! ## Tasks -/

/-- The listener a task serves. -/
inductive TaskId where
  | http (id : Nat)
  | stream (addr : SocketAddr) (udp : Bool)
  | quic (source : Nat)
deriving DecidableEq

def TaskId.isHttp : TaskId → Bool
  | .http _ => true
  | _ => false

def TaskId.isStream : TaskId → Bool
  | .stream _ _ => true
  | _ => false

def TaskId.isQuic : TaskId → Bool
  | .quic _ => true
  | _ => false

/-- Where a listener task is: in its loop, waiting after it, or over. -/
inductive TaskPhase where
  | accepting
  | draining
  | stopped
deriving DecidableEq

/-- A listener task with its open connections. `closed` says that a reload has sent it the shutdown
signal. -/
structure ListenerTask where
  id : TaskId
  tls : Bool := false
  closed : Bool := false
  phase : TaskPhase := .accepting
  connections : List Nat := []

namespace ListenerTask

/-- The task of an HTTP listener without TLS, whose connections `GracefulShutdown` watches. -/
def plain (t : ListenerTask) : Bool := t.id.isHttp && !t.tls

/-- The task waits for its connections before it stops. -/
def waits (t : ListenerTask) : Bool := t.plain || t.id.isQuic

/-- A new connection, or a datagram with its exchange. -/
def accept (n : Nat) (t : ListenerTask) : ListenerTask :=
  if t.phase = .accepting then { t with connections := t.connections ++ [n] } else t

/-- A connection ends. -/
def close (n : Nat) (t : ListenerTask) : ListenerTask :=
  { t with connections := t.connections.erase n }

/-- The task sees its shutdown signal, if that has been sent, and leaves its loop. -/
def notice (told : Bool) (t : ListenerTask) : ListenerTask :=
  if t.phase = .accepting ∧ told = true then
    match t.id with
    | .http _ => { t with phase := .draining }
    | .stream _ _ => { t with phase := .stopped }
    | .quic _ => { t with phase := .draining, connections := [] }
  else t

/-- The task has nothing left to wait for and ends. -/
def finish (t : ListenerTask) : ListenerTask :=
  if t.phase = .draining ∧ (t.waits = true → t.connections = []) then { t with phase := .stopped }
  else t

end ListenerTask

/-- The tasks of the listeners that a supervisor holds. -/
def Supervisor.tasks (s : Supervisor) : List ListenerTask :=
  s.http.map (fun l => { id := .http l.id, tls := l.acceptor.isSome }) ++
    s.stream.map (fun l => { id := .stream l.addr l.udp }) ++
    s.h3.map fun h => { id := .quic h.source }

/-- The names of these tasks. -/
def Supervisor.taskIds (s : Supervisor) : List TaskId := s.tasks.map ListenerTask.id

/-! ## The process -/

/-- Where `main` is: serving, awaiting the tasks at some positions, or gone. -/
inductive MainPhase where
  | serving
  | joining (rest : List Nat)
  | exited
deriving DecidableEq

/-- The process with all listener tasks that were ever spawned. -/
structure Running where
  sup : Supervisor
  tasks : List ListenerTask
  main : MainPhase := .serving
  nextConnection : Nat := 0

/-- A step of the process; tasks are named by position. -/
inductive RunStep where
  | accept (i : Nat)
  | close (i n : Nat)
  | notice (i : Nat)
  | finish (i : Nat)
  | reload (e : Reload)
  | shutdown
  | join
  | exit

namespace Running

/-- The process when the listeners have started. -/
def started (s : Supervisor) : Running where
  sup := s
  tasks := s.tasks

/-- Let the task at a position move. -/
def move (p : Running) (i : Nat) (f : ListenerTask → ListenerTask) : Running :=
  { p with tasks := p.tasks.modify i f }

/-- The shutdown signal has been sent to all listeners. -/
def stopping (p : Running) : Bool := !(p.main == .serving)

/-- What the loops over the listeners in `Supervisor::shutdown` await: the tasks a reload has not
closed, those of HTTP listeners first, then streams, then QUIC endpoints. -/
def joinOrder (tasks : List ListenerTask) : List Nat :=
  let held (kind : TaskId → Bool) : List Nat :=
    (List.range tasks.length).filter fun i => (tasks[i]?).any fun t => !t.closed && kind t.id
  held TaskId.isHttp ++ held TaskId.isStream ++ held TaskId.isQuic

/-- `Supervisor::reload`: tasks of listeners that are gone get the shutdown signal, and new listeners
get tasks. -/
def reload (p : Running) (e : Reload) : Running :=
  let s := p.sup.reload e
  { p with
    sup := s
    tasks := p.tasks.map (fun t => { t with closed := t.closed || !(t.id ∈ s.taskIds) }) ++
      s.tasks.filter fun t => !(t.id ∈ p.sup.taskIds) }

/-- The state after a step; a step that is not possible leaves it as it is. -/
def step (p : Running) (e : RunStep) : Running :=
  if p.main = .exited then p
  else
    match e with
    | .accept i =>
        { p.move i (ListenerTask.accept p.nextConnection) with
          nextConnection := p.nextConnection + 1 }
    | .close i n => p.move i (ListenerTask.close n)
    | .notice i =>
        p.move i fun t => t.notice (t.closed || p.stopping)
    | .finish i => p.move i ListenerTask.finish
    | .reload e => if p.main = .serving then p.reload e else p
    | .shutdown => if p.main = .serving then { p with main := .joining (joinOrder p.tasks) } else p
    | .join =>
        match p.main with
        | .joining (i :: rest) =>
            if (p.tasks[i]?).any fun t => t.phase == .stopped then { p with main := .joining rest }
            else p
        | _ => p
    | .exit => if p.main = .joining [] then { p with main := .exited } else p

end Running

/-! ## One task -/

namespace ListenerTask

/-- A task that waits for its connections has none left once it is over, and a QUIC endpoint none
once it has left its loop. -/
def Settled (t : ListenerTask) : Prop :=
  t.waits = true → t.phase = .stopped ∨ t.phase = .draining ∧ t.plain = false → t.connections = []

theorem plain_of_http {t : ListenerTask} {n : Nat} (hid : t.id = .http n) (h : t.waits = true) :
    t.plain = true := by
  rw [waits, hid] at h
  exact (Bool.or_eq_true_iff.1 h).resolve_right Bool.false_ne_true

theorem waits_of_stream {t : ListenerTask} {a : SocketAddr} {u : Bool} (hid : t.id = .stream a u) :
    t.waits = false := by
  rw [waits, plain, hid]
  rfl

/-- A move keeps the name and the kind of a task, what is settled, and that it is over. -/
structure Steady (f : ListenerTask → ListenerTask) : Prop where
  id : ∀ t, (f t).id = t.id
  tls : ∀ t, (f t).tls = t.tls
  closed : ∀ t, (f t).closed = t.closed
  stopped : ∀ t, t.phase = .stopped → (f t).phase = .stopped
  settled : ∀ t, t.Settled → (f t).Settled

theorem steady_accept (n : Nat) : Steady (accept n) where
  id t := by rw [accept]; split <;> rfl
  tls t := by rw [accept]; split <;> rfl
  closed t := by rw [accept]; split <;> rfl
  stopped t h := by
    rw [accept, if_neg (by rw [h]; decide)]
    exact h
  settled t h := by
    rw [accept]
    split
    · rename_i hphase
      intro _ hover
      simp only [hphase] at hover
      simp at hover
    · exact h

theorem steady_close (n : Nat) : Steady (close n) where
  id _ := rfl
  tls _ := rfl
  closed _ := rfl
  stopped _ h := h
  settled t h := by
    intro hwaits hover
    have hnil : t.connections = [] := h hwaits hover
    rw [close, hnil]
    rfl

theorem notice_cases (told : Bool) (t : ListenerTask) :
    t.notice told = t ∨
      t.phase = .accepting ∧
        ((∃ n, t.id = .http n) ∧ t.notice told = { t with phase := .draining } ∨
          (∃ a u, t.id = .stream a u) ∧ t.notice told = { t with phase := .stopped } ∨
          (∃ n, t.id = .quic n) ∧ t.notice told = { t with phase := .draining, connections := [] }) := by
  rw [notice]
  split
  · rename_i hphase
    refine Or.inr ⟨hphase.1, ?_⟩
    cases hid : t.id with
    | http n => exact Or.inl ⟨⟨n, rfl⟩, rfl⟩
    | stream a u => exact Or.inr (Or.inl ⟨⟨a, u, rfl⟩, rfl⟩)
    | quic n => exact Or.inr (Or.inr ⟨⟨n, rfl⟩, rfl⟩)
  · exact Or.inl rfl

theorem steady_notice (told : ListenerTask → Bool) : Steady fun t => t.notice (told t) where
  id t := by
    rcases notice_cases (told t) t with h | ⟨-, ⟨-, h⟩ | ⟨-, h⟩ | ⟨-, h⟩⟩ <;> simp only [h]
  tls t := by
    rcases notice_cases (told t) t with h | ⟨-, ⟨-, h⟩ | ⟨-, h⟩ | ⟨-, h⟩⟩ <;> simp only [h]
  closed t := by
    rcases notice_cases (told t) t with h | ⟨-, ⟨-, h⟩ | ⟨-, h⟩ | ⟨-, h⟩⟩ <;> simp only [h]
  stopped t h := by
    rcases notice_cases (told t) t with hsame | ⟨hphase, -⟩
    · rw [hsame]
      exact h
    · rw [h] at hphase
      cases hphase
  settled t h := by
    rcases notice_cases (told t) t with hsame | ⟨-, ⟨⟨n, hid⟩, hnew⟩ | ⟨⟨a, u, hid⟩, hnew⟩ | ⟨-, hnew⟩⟩
    · rw [hsame]
      exact h
    -- a plain HTTP listener has yet to wait, one with TLS does not wait
    · rw [hnew]
      intro hwaits hover
      rcases hover with hover | ⟨-, hover⟩
      · cases hover
      · exact absurd ((plain_of_http hid hwaits).symm.trans hover) Bool.noConfusion
    · rw [hnew]
      exact fun hwaits => absurd ((waits_of_stream hid).symm.trans hwaits) Bool.false_ne_true
    · rw [hnew]
      exact fun _ _ => rfl

theorem steady_finish : Steady finish where
  id t := by rw [finish]; split <;> rfl
  tls t := by rw [finish]; split <;> rfl
  closed t := by rw [finish]; split <;> rfl
  stopped t h := by
    rw [finish]
    split
    · rfl
    · exact h
  settled t h := by
    rw [finish]
    split
    · rename_i hready
      exact fun hwaits _ => hready.2 hwaits
    · exact h

end ListenerTask

/-! ## The tasks of a supervisor -/

theorem mem_taskIds_http {s : Supervisor} {n : Nat} :
    .http n ∈ s.taskIds ↔ ∃ l ∈ s.http, l.id = n := by
  simp [Supervisor.taskIds, Supervisor.tasks]

theorem mem_taskIds_quic {s : Supervisor} {n : Nat} :
    .quic n ∈ s.taskIds ↔ ∃ h ∈ s.h3, h.source = n := by
  simp [Supervisor.taskIds, Supervisor.tasks]

theorem mem_taskIds {s : Supervisor} {t : ListenerTask} (h : t ∈ s.tasks) : t.id ∈ s.taskIds :=
  List.mem_map_of_mem h

theorem tasks_fresh {s : Supervisor} {t : ListenerTask} (h : t ∈ s.tasks) :
    t.closed = false ∧ t.phase = .accepting := by
  simp only [Supervisor.tasks, List.mem_append, List.mem_map] at h
  rcases h with (⟨l, -, rfl⟩ | ⟨l, -, rfl⟩) | ⟨q, -, rfl⟩
  · exact ⟨rfl, rfl⟩
  · exact ⟨rfl, rfl⟩
  · exact ⟨rfl, rfl⟩

/-- After a reload, HTTP listeners are old ones or have new numbers. -/
theorem reload_http_ids (s : Supervisor) (e : Reload) :
    s.nextId ≤ (s.reload e).nextId ∧
      ∀ l ∈ (s.reload e).http, (∃ l' ∈ s.http, l'.id = l.id) ∨ s.nextId ≤ l.id := by
  cases hload : e.loaded with
  | error msg =>
      rw [reload_error hload]
      exact ⟨le_rfl, fun l hl => Or.inl ⟨l, hl, rfl⟩⟩
  | ok new =>
      rw [reload_ok hload]
      simp only [reloadHttp]
      obtain ⟨hspawned, hnext⟩ := spawnRest_ids e.binds (HashMap.iter
        (reconcile HttpListener.addr (wantedHttp new.runtime.listeners) s.http).rest e.httpOrder)
        s.nextId
      refine ⟨by omega, ?_⟩
      intro l hl
      rcases List.mem_append.1 hl with hl | hl
      · obtain ⟨m, hm, rfl⟩ := List.mem_map.1 hl
        have hold := (matched_sublist HttpListener.addr _ _).subset (List.mem_map_of_mem hm)
        exact Or.inl ⟨m.1, hold, rfl⟩
      · have hmem : l.id ∈ List.range' s.nextId _ := hspawned ▸ List.mem_map_of_mem hl
        exact Or.inr (List.mem_range'_1.1 hmem).1

/-- A reload neither starts nor stops a QUIC endpoint. -/
theorem reload_quic_ids (s : Supervisor) (e : Reload) (n : Nat) :
    .quic n ∈ (s.reload e).taskIds ↔ .quic n ∈ s.taskIds := by
  rw [mem_taskIds_quic, mem_taskIds_quic]
  cases hload : e.loaded with
  | error msg => rw [reload_error hload]
  | ok new =>
      rw [reload_ok hload]
      have hsource : ∀ (http : List HttpListener) (h : H3Listener),
          (h.follow http).source = h.source := by
        intro http h
        unfold H3Listener.follow
        split
        · rfl
        · rfl
      simp [hsource]

/-! ## The invariant -/

/-- What every run keeps: tasks are settled, the supervisor holds exactly the tasks that no reload
has closed (for those that wait for connections), and `main` has yet to await them or they are
over. -/
structure Drains (p : Running) : Prop where
  settled : ∀ t ∈ p.tasks, t.Settled
  ids : (p.sup.http.map HttpListener.id).Nodup
  fresh : ∀ l ∈ p.sup.http, l.id < p.sup.nextId
  known : ∀ t ∈ p.tasks, ∀ n, t.id = .http n → n < p.sup.nextId
  held : ∀ t ∈ p.tasks, t.closed = false → t.id ∈ p.sup.taskIds
  gone : ∀ t ∈ p.tasks, t.closed = true → t.waits = true → t.id ∉ p.sup.taskIds
  named : ∀ rest, p.main = .joining rest → ∀ i ∈ rest, ∃ t, p.tasks[i]? = some t ∧ t.closed = false
  awaited : ∀ rest, p.main = .joining rest → ∀ i t, p.tasks[i]? = some t → t.closed = false →
    i ∈ rest ∨ t.phase = .stopped
  ended : p.main = .exited → ∀ t ∈ p.tasks, t.closed = false → t.phase = .stopped

theorem mem_modify {α : Type} {f : α → α} {l : List α} {i : Nat} {x : α} (h : x ∈ l.modify i f) :
    x ∈ l ∨ ∃ y ∈ l, x = f y := by
  obtain ⟨j, hj⟩ := List.getElem?_of_mem h
  rw [List.getElem?_modify] at hj
  obtain ⟨y, hy, rfl⟩ := Option.map_eq_some_iff.1 hj
  by_cases hij : i = j
  · rw [if_pos hij]
    exact Or.inr ⟨y, List.mem_of_getElem? hy, rfl⟩
  · rw [if_neg hij]
    exact Or.inl (List.mem_of_getElem? hy)

theorem Drains.started {s : Supervisor} (hids : (s.http.map HttpListener.id).Nodup)
    (h : ∀ l ∈ s.http, l.id < s.nextId) : Drains (Running.started s) where
  settled t ht := by
    intro _ hover
    rw [(tasks_fresh ht).2] at hover
    simp at hover
  ids := hids
  fresh := h
  known := by
    intro t ht n hid
    have hmem := mem_taskIds ht
    rw [hid] at hmem
    obtain ⟨l, hl, rfl⟩ := mem_taskIds_http.1 hmem
    exact h l hl
  held t ht _ := mem_taskIds ht
  gone t ht hclosed := by
    rw [(tasks_fresh ht).1] at hclosed
    cases hclosed
  named rest hmain := by cases hmain
  awaited rest hmain := by cases hmain
  ended hmain := by cases hmain

/-- A move of a task. -/
theorem Drains.move {p : Running} (h : Drains p) {f : ListenerTask → ListenerTask}
    (hf : ListenerTask.Steady f) (i : Nat) : Drains (p.move i f) := by
  have hwaits : ∀ t, (f t).waits = t.waits := by
    intro t
    simp only [ListenerTask.waits, ListenerTask.plain, hf.id, hf.tls]
  -- what the moved task shares with the old one
  have hold : ∀ t ∈ (p.move i f).tasks, ∃ t' ∈ p.tasks, t.id = t'.id ∧ t.closed = t'.closed ∧
      t.waits = t'.waits ∧ (t'.Settled → t.Settled) ∧
      (t'.phase = .stopped → t.phase = .stopped) := by
    intro t ht
    rcases mem_modify ht with ht | ⟨t', ht', rfl⟩
    · exact ⟨t, ht, rfl, rfl, rfl, id, id⟩
    · exact ⟨t', ht', hf.id t', hf.closed t', hwaits t', hf.settled t', hf.stopped t'⟩
  constructor
  · intro t ht
    obtain ⟨t', ht', -, -, -, hsettled, -⟩ := hold t ht
    exact hsettled (h.settled t' ht')
  · exact h.ids
  · exact h.fresh
  · intro t ht n hid
    obtain ⟨t', ht', hid', -⟩ := hold t ht
    exact h.known t' ht' n (hid'.symm.trans hid)
  · intro t ht hclosed
    obtain ⟨t', ht', hid, hclosed', -⟩ := hold t ht
    rw [hid]
    exact h.held t' ht' (hclosed'.symm.trans hclosed)
  · intro t ht hclosed hw
    obtain ⟨t', ht', hid, hclosed', hw', -⟩ := hold t ht
    rw [hid]
    exact h.gone t' ht' (hclosed'.symm.trans hclosed) (hw'.symm.trans hw)
  · intro rest hmain j hj
    obtain ⟨t, hget, hclosed⟩ := h.named rest hmain j hj
    refine ⟨if i = j then f t else t, ?_, ?_⟩
    · show (p.tasks.modify i f)[j]? = _
      rw [List.getElem?_modify, hget]
      rfl
    · split
      · exact (hf.closed t).trans hclosed
      · exact hclosed
  · intro rest hmain j t hget hclosed
    have hget' : (p.tasks.modify i f)[j]? = some t := hget
    rw [List.getElem?_modify] at hget'
    obtain ⟨t', ht', heq⟩ := Option.map_eq_some_iff.1 hget'
    have hshared : t.closed = t'.closed ∧ (t'.phase = .stopped → t.phase = .stopped) := by
      rw [← heq]
      split
      · exact ⟨hf.closed t', hf.stopped t'⟩
      · exact ⟨rfl, id⟩
    rcases h.awaited rest hmain j t' ht' (hshared.1.symm.trans hclosed) with hrest | hstopped
    · exact Or.inl hrest
    · exact Or.inr (hshared.2 hstopped)
  · intro hmain t ht hclosed
    obtain ⟨t', ht', -, hclosed', -, -, hstopped⟩ := hold t ht
    exact hstopped (h.ended hmain t' ht' (hclosed'.symm.trans hclosed))

/-- A reload keeps the numbers of HTTP listeners distinct and below the next one. -/
theorem reload_numbered (s : Supervisor) (e : Reload) (hids : (s.http.map HttpListener.id).Nodup)
    (hfresh : ∀ l ∈ s.http, l.id < s.nextId) :
    ((s.reload e).http.map HttpListener.id).Nodup ∧
      ∀ l ∈ (s.reload e).http, l.id < (s.reload e).nextId := by
  cases hload : e.loaded with
  | error msg =>
      rw [reload_error hload]
      exact ⟨hids, hfresh⟩
  | ok new =>
      rw [reload_ok hload]
      exact reloadHttp_ids hids hfresh

/-- A task that waits and is closed, now or before, is not held afterwards. -/
theorem Drains.notMem_reload {p : Running} (h : Drains p) (e : Reload) {t : ListenerTask}
    (ht : t ∈ p.tasks) (hwaits : t.waits = true) (hclosed : t.closed = true) :
    t.id ∉ (p.sup.reload e).taskIds := by
  have hgone := h.gone t ht hclosed hwaits
  cases hid : t.id with
  | http n =>
      rw [hid] at hgone
      intro hmem
      obtain ⟨l, hl, rfl⟩ := mem_taskIds_http.1 hmem
      rcases (reload_http_ids p.sup e).2 l hl with ⟨l', hl', heq⟩ | hle
      · exact hgone (mem_taskIds_http.2 ⟨l', hl', heq⟩)
      · exact absurd (h.known t ht l.id hid) (Nat.not_lt.2 hle)
  | stream a u => exact absurd ((ListenerTask.waits_of_stream hid).symm.trans hwaits) Bool.false_ne_true
  | quic n =>
      rw [hid] at hgone
      rwa [reload_quic_ids]

/-- A reload. -/
theorem Drains.reload {p : Running} (h : Drains p) (hserving : p.main = .serving) (e : Reload) :
    Drains (p.reload e) := by
  obtain ⟨hnext, -⟩ := reload_http_ids p.sup e
  obtain ⟨hids, hfresh⟩ := reload_numbered p.sup e h.ids h.fresh
  -- a task afterwards is an earlier one, perhaps closed now, or that of a new listener
  have hcases : ∀ t ∈ (p.reload e).tasks,
      (∃ t' ∈ p.tasks, t = { t' with
        closed := t'.closed || !decide (t'.id ∈ (p.sup.reload e).taskIds) }) ∨
      t ∈ (p.sup.reload e).tasks := by
    intro t ht
    rcases List.mem_append.1 ht with ht | ht
    · obtain ⟨t', ht', rfl⟩ := List.mem_map.1 ht
      exact Or.inl ⟨t', ht', rfl⟩
    · exact Or.inr (List.mem_filter.1 ht).1
  constructor
  · intro t ht
    rcases hcases t ht with ⟨t', ht', rfl⟩ | hnew
    · exact h.settled t' ht'
    · intro _ hover
      rw [(tasks_fresh hnew).2] at hover
      simp at hover
  · exact hids
  · exact hfresh
  · intro t ht n hid
    rcases hcases t ht with ⟨t', ht', rfl⟩ | hnew
    · exact Nat.lt_of_lt_of_le (h.known t' ht' n hid) hnext
    · have hmem := mem_taskIds hnew
      rw [hid] at hmem
      obtain ⟨l, hl, rfl⟩ := mem_taskIds_http.1 hmem
      exact hfresh l hl
  · intro t ht hclosed
    rcases hcases t ht with ⟨t', -, rfl⟩ | hnew
    · show t'.id ∈ (p.sup.reload e).taskIds
      simpa using (Bool.or_eq_false_iff.1 hclosed).2
    · exact mem_taskIds hnew
  · intro t ht hclosed hwaits
    rcases hcases t ht with ⟨t', ht', rfl⟩ | hnew
    · rcases Bool.or_eq_true_iff.1 hclosed with hbefore | hnow
      · exact h.notMem_reload e (t := t') ht' hwaits hbefore
      · show t'.id ∉ (p.sup.reload e).taskIds
        simpa using hnow
    · rw [(tasks_fresh hnew).1] at hclosed
      cases hclosed
  · intro rest hmain
    rw [Running.reload, hserving] at hmain
    cases hmain
  · intro rest hmain
    rw [Running.reload, hserving] at hmain
    cases hmain
  · intro hmain
    rw [Running.reload, hserving] at hmain
    cases hmain

/-! ## The end of the process -/

/-- `Supervisor::shutdown` awaits every task that no reload has closed. -/
theorem mem_joinOrder {tasks : List ListenerTask} {i : Nat} {t : ListenerTask}
    (hget : tasks[i]? = some t) (hclosed : t.closed = false) : i ∈ Running.joinOrder tasks := by
  obtain ⟨hlt, ht⟩ := List.getElem?_eq_some_iff.1 hget
  have hkind : t.id.isHttp = true ∨ t.id.isStream = true ∨ t.id.isQuic = true := by
    cases t.id with
    | http n => exact Or.inl rfl
    | stream a u => exact Or.inr (Or.inl rfl)
    | quic n => exact Or.inr (Or.inr rfl)
  simpa [Running.joinOrder, hlt, ht, hclosed, or_assoc] using hkind

/-- It awaits no other. -/
theorem get_of_mem_joinOrder {tasks : List ListenerTask} {i : Nat}
    (h : i ∈ Running.joinOrder tasks) : ∃ t, tasks[i]? = some t ∧ t.closed = false := by
  have hheld : ∃ kind : TaskId → Bool,
      ((tasks[i]?).any fun t => !t.closed && kind t.id) = true := by
    rcases List.mem_append.1 h with h | h
    · rcases List.mem_append.1 h with h | h
      · exact ⟨_, (List.mem_filter.1 h).2⟩
      · exact ⟨_, (List.mem_filter.1 h).2⟩
    · exact ⟨_, (List.mem_filter.1 h).2⟩
  obtain ⟨kind, hkind⟩ := hheld
  cases hget : tasks[i]? with
  | none =>
      rw [hget] at hkind
      cases hkind
  | some t =>
      rw [hget] at hkind
      exact ⟨t, rfl, by simpa using (Bool.and_eq_true_iff.1 hkind).1⟩

/-- Every step keeps the invariant. -/
theorem Drains.step {p : Running} (h : Drains p) (e : RunStep) : Drains (p.step e) := by
  rw [Running.step.eq_def]
  split
  · exact h
  · rename_i hmain
    cases e with
    | accept i =>
        have hmoved := h.move (ListenerTask.steady_accept p.nextConnection) i
        exact { hmoved with }
    | close i n => exact h.move (ListenerTask.steady_close n) i
    | notice i => exact h.move (ListenerTask.steady_notice fun t => t.closed || p.stopping) i
    | finish i => exact h.move ListenerTask.steady_finish i
    | reload e =>
        simp only
        split
        · rename_i hserving
          exact h.reload hserving e
        · exact h
    | shutdown =>
        simp only
        split
        · exact
            { h with
              named := by
                intro rest hrest i hi
                obtain rfl := MainPhase.joining.inj hrest
                exact get_of_mem_joinOrder hi
              awaited := by
                intro rest hrest i t hget hclosed
                obtain rfl := MainPhase.joining.inj hrest
                exact Or.inl (mem_joinOrder hget hclosed)
              ended := by
                intro hexited
                cases hexited }
        · exact h
    | join =>
        simp only
        split
        · rename_i i rest hjoining
          split
          · rename_i hstopped
            exact
              { h with
                named := by
                  intro rest' hrest j hj
                  obtain rfl := MainPhase.joining.inj hrest
                  exact h.named _ hjoining j (List.mem_cons_of_mem _ hj)
                awaited := by
                  intro rest' hrest j t hget hclosed
                  obtain rfl := MainPhase.joining.inj hrest
                  rcases h.awaited _ hjoining j t hget hclosed with hmem | hover
                  · rcases List.mem_cons.1 hmem with rfl | hmem
                    · rw [hget] at hstopped
                      exact Or.inr (by simpa using hstopped)
                    · exact Or.inl hmem
                  · exact Or.inr hover
                ended := by
                  intro hexited
                  cases hexited }
          · exact h
        · exact h
    | exit =>
        simp only
        split
        · rename_i hjoining
          exact
            { h with
              named := by
                intro rest hrest
                cases hrest
              awaited := by
                intro rest hrest
                cases hrest
              ended := by
                intro _ t ht hclosed
                obtain ⟨i, hget⟩ := List.getElem?_of_mem ht
                rcases h.awaited [] hjoining i t hget hclosed with hmem | hover
                · cases hmem
                · exact hover }
        · exact h

/-- The numbers of a start are distinct and below the next one. -/
theorem start_numbered {binds : Binds} {rt : Runtime} {s : Supervisor} (h : start binds rt = .ok s) :
    (s.http.map HttpListener.id).Nodup ∧ ∀ l ∈ s.http, l.id < s.nextId := by
  have hhttp := start_http h
  have hnext : s.nextId = rt.listeners.length := by
    rw [start] at h
    obtain ⟨http, -, h⟩ := bind_eq_ok.1 h
    obtain ⟨stream, -, h⟩ := bind_eq_ok.1 h
    obtain rfl := Except.ok.inj h
    rfl
  constructor
  · have hids : s.http.map HttpListener.id = List.range' 0 rt.listeners.length := by
      rw [hhttp, List.map_map, ← List.zipIdx_map_snd 0 rt.listeners]
      rfl
    rw [hids]
    exact List.nodup_range'
  · intro l hl
    obtain ⟨c, -, i, hi, rfl⟩ := mem_start_http h hl
    rw [hnext]
    exact hi

theorem drains_run {binds : Binds} {rt : Runtime} {s : Supervisor} (h : start binds rt = .ok s)
    (es : List RunStep) : Drains (run Running.step (Running.started s) es) := by
  obtain ⟨hids, hfresh⟩ := start_numbered h
  exact run_invariant (fun _ e hp => hp.step e) (Drains.started hids hfresh) es

/-- **Drained at exit.** However reloads, connections and the shutdown interleave: when the process
exits, the tasks of all HTTP listeners and QUIC endpoints it still holds have ended, and a connection
that is still open, and so is cut off, belongs to a listener with TLS, to a stream listener, or to a
listener that a reload has closed. -/
theorem drained_at_exit {binds : Binds} {rt : Runtime} {s : Supervisor}
    (h : start binds rt = .ok s) (es : List RunStep) :
    let p := run Running.step (Running.started s) es
    p.main = .exited →
      (∀ t ∈ p.tasks, t.waits = true → t.id ∈ p.sup.taskIds → t.phase = .stopped) ∧
      ∀ t ∈ p.tasks, t.connections ≠ [] → t.waits = false ∨ t.id ∉ p.sup.taskIds := by
  intro p hexited
  have hdrains : Drains p := drains_run h es
  have hstopped : ∀ t ∈ p.tasks, t.waits = true → t.id ∈ p.sup.taskIds → t.phase = .stopped := by
    intro t ht hwaits hheld
    refine hdrains.ended hexited t ht ?_
    by_contra hclosed
    exact hdrains.gone t ht (Bool.eq_true_of_not_eq_false hclosed) hwaits hheld
  refine ⟨hstopped, ?_⟩
  intro t ht hopen
  by_contra hno
  obtain ⟨hwaits, hheld⟩ := not_or.1 hno
  have hwaits : t.waits = true := Bool.eq_true_of_not_eq_false hwaits
  exact hopen (hdrains.settled t ht hwaits (Or.inl (hstopped t ht hwaits (not_not.1 hheld))))

/-! ## What the exit waits for -/

/-- A step of a listener task or of `main`, with no connection involved. -/
def RunStep.internal : RunStep → Bool
  | .notice _ => true
  | .finish _ => true
  | .join => true
  | .exit => true
  | _ => false

/-- The task is not kept waiting. -/
def ListenerTask.Free (t : ListenerTask) : Prop := t.plain = true → t.connections = []

theorem free_notice_iff (told : Bool) (t : ListenerTask) : (t.notice told).Free ↔ t.Free := by
  rcases t.notice_cases told with h | ⟨-, ⟨-, h⟩ | ⟨-, h⟩ | ⟨⟨n, hid⟩, h⟩⟩
  · rw [h]
  · rw [h]
    exact Iff.rfl
  · rw [h]
    exact Iff.rfl
  · rw [h]
    have hplain : t.plain = false := by
      rw [ListenerTask.plain, hid]
      rfl
    constructor
    · exact fun _ hp => absurd (hplain.symm.trans hp) Bool.false_ne_true
    · exact fun _ _ => rfl

theorem free_finish_iff (t : ListenerTask) : t.finish.Free ↔ t.Free := by
  rw [ListenerTask.finish]
  split
  · exact Iff.rfl
  · exact Iff.rfl

/-- A task that is told to stop and that nothing keeps waiting is over two steps later. -/
theorem stopped_finish_notice {t : ListenerTask} (hsettled : t.Settled) (hfree : t.Free) :
    (t.notice true).finish.phase = .stopped := by
  have hmoved := (ListenerTask.steady_notice fun _ => true).settled t hsettled
  have hfree' := (free_notice_iff true t).2 hfree
  have hphase : (t.notice true).phase = .draining ∨ (t.notice true).phase = .stopped := by
    rcases t.notice_cases true with h | ⟨-, ⟨-, h⟩ | ⟨-, h⟩ | ⟨-, h⟩⟩
    · rw [h]
      cases hp : t.phase with
      | accepting =>
          -- such a task would have noticed
          rw [ListenerTask.notice, if_pos ⟨hp, rfl⟩] at h
          cases hid : t.id with
          | http n => rw [hid] at h; rw [← h] at hp; cases hp
          | stream a u => rw [hid] at h; rw [← h] at hp; cases hp
          | quic n => rw [hid] at h; rw [← h] at hp; cases hp
      | draining => exact Or.inl rfl
      | stopped => exact Or.inr rfl
    · rw [h]; exact Or.inl rfl
    · rw [h]; exact Or.inr rfl
    · rw [h]; exact Or.inl rfl
  rcases hphase with hdraining | hstopped
  · rw [ListenerTask.finish, if_pos]
    refine ⟨hdraining, fun hwaits => ?_⟩
    cases hplain : (t.notice true).plain with
    | true => exact hfree' hplain
    | false => exact hmoved hwaits (Or.inr ⟨hdraining, hplain⟩)
  · exact ListenerTask.steady_finish.stopped _ hstopped

/-- Somebody's request keeps a task waiting that `main` awaits. -/
def Running.Blocked (p : Running) : Prop := ∃ t ∈ p.tasks, t.closed = false ∧ ¬ t.Free

theorem blocked_move_iff {p : Running} {f : ListenerTask → ListenerTask}
    (hf : ListenerTask.Steady f) (hfree : ∀ t, (f t).Free ↔ t.Free) (i : Nat) :
    (p.move i f).Blocked ↔ p.Blocked := by
  constructor
  · rintro ⟨t, ht, hclosed, hbusy⟩
    rcases mem_modify ht with ht | ⟨t', ht', rfl⟩
    · exact ⟨t, ht, hclosed, hbusy⟩
    · exact ⟨t', ht', (hf.closed t').symm.trans hclosed, fun hno => hbusy ((hfree t').2 hno)⟩
  · rintro ⟨t, ht, hclosed, hbusy⟩
    obtain ⟨j, hget⟩ := List.getElem?_of_mem ht
    refine ⟨if i = j then f t else t, ?_, ?_⟩
    · refine List.mem_of_getElem? (i := j) ?_
      show (p.tasks.modify i f)[j]? = _
      rw [List.getElem?_modify, hget]
      rfl
    · split
      · exact ⟨(hf.closed t).trans hclosed, fun hf' => hbusy ((hfree t).1 hf')⟩
      · exact ⟨hclosed, hbusy⟩

/-- Without a connection that ends, it stays so. -/
theorem blocked_step {p : Running} (h : p.Blocked) {e : RunStep} (he : e.internal = true) :
    (p.step e).Blocked := by
  rw [Running.step.eq_def]
  split
  · exact h
  · cases e with
    | notice i =>
        exact (blocked_move_iff (ListenerTask.steady_notice fun t => t.closed || p.stopping)
          (fun t => free_notice_iff _ t) i).2 h
    | finish i => exact (blocked_move_iff ListenerTask.steady_finish free_finish_iff i).2 h
    | join =>
        simp only
        split
        · split
          · exact h
          · exact h
        · exact h
    | exit =>
        simp only
        split
        · exact h
        · exact h
    | accept i => cases he
    | close i n => cases he
    | reload e => cases he
    | shutdown => cases he

theorem not_blocked_of_exited {p : Running} (h : Drains p) (hexited : p.main = .exited) :
    ¬ p.Blocked := by
  rintro ⟨t, ht, hclosed, hbusy⟩
  refine hbusy fun hplain => h.settled t ht ?_ (Or.inl (h.ended hexited t ht hclosed))
  rw [ListenerTask.waits, hplain]
  rfl

/-- The steps that end the tasks `main` awaits, and the process. -/
def finishing (rest : List Nat) : List RunStep :=
  rest.flatMap (fun i => [.notice i, .finish i, .join]) ++ [.exit]

theorem step_notice {p : Running} (h : p.main ≠ .exited) (i : Nat) :
    p.step (.notice i) = p.move i fun t => t.notice (t.closed || p.stopping) :=
  if_neg h

theorem step_finish {p : Running} (h : p.main ≠ .exited) (i : Nat) :
    p.step (.finish i) = p.move i ListenerTask.finish :=
  if_neg h

theorem step_join {p : Running} {i : Nat} {rest : List Nat} (h : p.main = .joining (i :: rest))
    {t : ListenerTask} (hget : p.tasks[i]? = some t) (hstopped : t.phase = .stopped) :
    p.step .join = { p with main := .joining rest } := by
  rw [Running.step.eq_def, if_neg (by rw [h]; exact MainPhase.noConfusion)]
  simp only [h]
  exact if_pos (by rw [hget, Option.any_some, hstopped]; rfl)

theorem getElem?_move {p : Running} {i : Nat} {t : ListenerTask} (hget : p.tasks[i]? = some t)
    (f : ListenerTask → ListenerTask) : (p.move i f).tasks[i]? = some (f t) := by
  show (p.tasks.modify i f)[i]? = _
  rw [List.getElem?_modify, hget]
  exact congrArg some (if_pos rfl)

/-- The first task that `main` awaits ends, if nothing keeps it waiting. -/
theorem join_first {p : Running} (h : Drains p) {i : Nat} {rest : List Nat}
    (hmain : p.main = .joining (i :: rest)) (hfree : ¬ p.Blocked) :
    (run Running.step p [.notice i, .finish i, .join]).main = .joining rest ∧
      ¬ (run Running.step p [.notice i, .finish i, .join]).Blocked := by
  obtain ⟨t, hget, hclosed⟩ := h.named _ hmain i List.mem_cons_self
  have hfreeT : t.Free := by
    by_contra hbusy
    exact hfree ⟨t, List.mem_of_getElem? hget, hclosed, hbusy⟩
  have hlive : p.main ≠ .exited := by
    rw [hmain]
    exact MainPhase.noConfusion
  have htold : (t.closed || p.stopping) = true := by
    rw [Running.stopping, hmain, Bool.or_eq_true_iff]
    exact Or.inr rfl
  have hstopped := stopped_finish_notice (h.settled t (List.mem_of_getElem? hget)) hfreeT
  rw [← htold] at hstopped
  have hnoticed := getElem?_move hget fun t => t.notice (t.closed || p.stopping)
  have hfinished := getElem?_move hnoticed ListenerTask.finish
  have hrun : run Running.step p [.notice i, .finish i, .join] =
      { (p.move i fun t => t.notice (t.closed || p.stopping)).move i ListenerTask.finish with
        main := .joining rest } := by
    rw [run_cons, run_cons, run_cons, run_nil, step_notice hlive,
      step_finish (p := p.move i fun t => t.notice (t.closed || p.stopping)) hlive]
    exact step_join hmain hfinished hstopped
  rw [hrun]
  refine ⟨rfl, fun hblocked => hfree ?_⟩
  have hbefore := (blocked_move_iff ListenerTask.steady_finish free_finish_iff i).1 hblocked
  exact (blocked_move_iff (ListenerTask.steady_notice fun t => t.closed || p.stopping)
    (fun t => free_notice_iff _ t) i).1 hbefore

/-- So the process comes to its end. -/
theorem exited_finishing {rest : List Nat} :
    ∀ {p : Running}, Drains p → p.main = .joining rest → ¬ p.Blocked →
      (run Running.step p (finishing rest)).main = .exited := by
  induction rest with
  | nil =>
      intro p _ hmain _
      simp [finishing, Running.step.eq_def, hmain]
  | cons i rest ih =>
      intro p h hmain hfree
      obtain ⟨hmain', hfree'⟩ := join_first h hmain hfree
      have hdrains : Drains (run Running.step p [.notice i, .finish i, .join]) :=
        run_invariant (fun _ e hp => hp.step e) h _
      have hsplit : finishing (i :: rest) = [.notice i, .finish i, .join] ++ finishing rest := by
        rw [finishing, List.flatMap_cons, List.append_assoc]
        rfl
      rw [hsplit, run_append]
      exact ih hdrains hmain' hfree'

/-- **What the exit waits for.** After the shutdown signal the process can come to its end, without
any connection having to end, exactly if no connection is open on a listener it holds without TLS. -/
theorem exit_reachable_iff {binds : Binds} {rt : Runtime} {s : Supervisor}
    (h : start binds rt = .ok s) (es : List RunStep) {rest : List Nat}
    (hmain : (run Running.step (Running.started s) es).main = .joining rest) :
    let p := run Running.step (Running.started s) es
    (∃ fs, (∀ e ∈ fs, e.internal = true) ∧ (run Running.step p fs).main = .exited) ↔
      ∀ t ∈ p.tasks, t.plain = true → t.id ∈ p.sup.taskIds → t.connections = [] := by
  intro p
  have hdrains : Drains p := drains_run h es
  have hblocked : ¬ p.Blocked ↔
      ∀ t ∈ p.tasks, t.plain = true → t.id ∈ p.sup.taskIds → t.connections = [] := by
    constructor
    · intro hfree t ht hplain hheld
      by_contra hopen
      refine hfree ⟨t, ht, ?_, fun hno => hopen (hno hplain)⟩
      by_contra hclosed
      refine hdrains.gone t ht (Bool.eq_true_of_not_eq_false hclosed) ?_ hheld
      rw [ListenerTask.waits, hplain]
      rfl
    · rintro hall ⟨t, ht, hclosed, hbusy⟩
      exact hbusy fun hplain => hall t ht hplain (hdrains.held t ht hclosed)
  rw [← hblocked]
  constructor
  · rintro ⟨fs, hinternal, hexited⟩ hb
    have hkeep : ∀ fs : List RunStep, (∀ e ∈ fs, e.internal = true) →
        ∀ q : Running, q.Blocked → (run Running.step q fs).Blocked := by
      intro fs
      induction fs with
      | nil => exact fun _ q hq => hq
      | cons e fs ih =>
          intro hfs q hq
          exact ih (fun e' he' => hfs e' (List.mem_cons_of_mem _ he')) _
            (blocked_step hq (hfs e List.mem_cons_self))
    exact not_blocked_of_exited (run_invariant (fun _ e hp => hp.step e) hdrains fs) hexited
      (hkeep fs hinternal p hb)
  · intro hfree
    refine ⟨finishing rest, ?_, exited_finishing hdrains hmain hfree⟩
    intro e he
    rcases List.mem_append.1 he with he | he
    · obtain ⟨i, -, hi⟩ := List.mem_flatMap.1 he
      simp only [List.mem_cons, List.not_mem_nil, or_false] at hi
      rcases hi with rfl | rfl | rfl
      · rfl
      · rfl
      · rfl
    · rw [List.mem_singleton.1 he]
      rfl

/-! ## Two shutdowns -/

/-- The task of the TLS server, and of the plain one. -/
theorem tlsLoaded_tasks :
    ∃ s, start Binds.succeed tlsLoaded.runtime = .ok s ∧
      s.tasks = [{ id := .http 0, tls := true }] := ⟨_, rfl, rfl⟩

theorem plainLoaded_tasks :
    ∃ s, start Binds.succeed plainLoaded.runtime = .ok s ∧ s.tasks = [{ id := .http 0 }] :=
  ⟨_, rfl, rfl⟩

/-- A connection is accepted, and the process stops. -/
def stopWithConnection : List RunStep := [.accept 0, .shutdown, .notice 0, .finish 0, .join, .exit]

theorem run_tls {s : Supervisor} (htasks : s.tasks = [{ id := .http 0, tls := true }]) :
    run Running.step (Running.started s) stopWithConnection =
      ⟨s, [⟨.http 0, true, false, .stopped, [0]⟩], .exited, 1⟩ := by
  rw [Running.started, htasks]
  rfl

theorem run_plain {s : Supervisor} (htasks : s.tasks = [{ id := .http 0 }]) :
    run Running.step (Running.started s) [.accept 0, .shutdown] =
      ⟨s, [⟨.http 0, false, false, .accepting, [0]⟩], .joining [0], 1⟩ := by
  rw [Running.started, htasks]
  rfl

/-- A connection with TLS is cut off. -/
theorem tls_connection_cut_off :
    ∃ s t, start Binds.succeed tlsLoaded.runtime = .ok s ∧
      t ∈ (run Running.step (Running.started s) stopWithConnection).tasks ∧
      t.connections = [0] ∧ (t.waits = false ∨ t.id ∉ s.taskIds) := by
  obtain ⟨s, hs, htasks⟩ := tlsLoaded_tasks
  have hrun := drained_at_exit hs stopWithConnection
  rw [run_tls htasks] at hrun
  refine ⟨s, _, hs, ?_, rfl,
    (hrun rfl).2 _ (List.mem_singleton.2 rfl) (List.cons_ne_nil 0 [])⟩
  rw [run_tls htasks]
  exact List.mem_singleton.2 rfl

/-- A connection without TLS is waited for. -/
theorem plain_connection_waited_for :
    ∃ s, start Binds.succeed plainLoaded.runtime = .ok s ∧
      ¬ ∃ fs, (∀ e ∈ fs, e.internal = true) ∧
        (run Running.step (run Running.step (Running.started s) [.accept 0, .shutdown]) fs).main =
          .exited := by
  obtain ⟨s, hs, htasks⟩ := plainLoaded_tasks
  refine ⟨s, hs, fun hexit => ?_⟩
  have hmain : (run Running.step (Running.started s) [.accept 0, .shutdown]).main = .joining [0] := by
    rw [run_plain htasks]
  have hall := (exit_reachable_iff hs [.accept 0, .shutdown] hmain).1 hexit
  rw [run_plain htasks] at hall
  refine absurd (hall _ (List.mem_singleton.2 rfl) rfl ?_) (List.cons_ne_nil 0 [])
  show TaskId.http 0 ∈ s.tasks.map ListenerTask.id
  rw [htasks]
  exact List.mem_singleton.2 rfl

end Elrond.Process
