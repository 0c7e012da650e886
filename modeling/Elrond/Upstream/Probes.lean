import Elrond.Lib.Polling
import Elrond.Upstream.Stickiness

/-!
# Active health checks

`health.rs`: a task per balancer probes every peer that is not `down` at each tick of a timer, and
each probe runs on its own and records its outcome like a request does, as one success or failure of
the peer. The task ends at the first tick at which nobody holds the balancer any more. Nothing looks
at the `fails` and `passes` of a check: `max_fails` and `fail_timeout` of the peer decide.

Here ticks, probes and requests take place in any order, on one clock, late by at most `lag`. If the
interval and the timeout of the check together are shorter than `fail_timeout`, a peer that answers
nothing well is out of every pick from some time on, and stays out (`dead_peer_taken_out`); a peer
that answers everything well is back after one interval and one timeout (`live_peer_taken_back`).
-/

set_option autoImplicit false

namespace Elrond.Upstream

open Elrond.Lib Elrond.Http Elrond.Config

/-! ## Probes -/

/-- What a probe of `probe_once` comes to. -/
inductive ProbeOutcome where
  | badUri
  | response (status : Nat)
  | error
  | timedOut
deriving DecidableEq, Repr

/-- The outcome counts as a success. -/
def ProbeOutcome.passed (cfg : HealthCheckCfg) : ProbeOutcome → Bool
  | .response status => status == cfg.expectedStatus
  | _ => false

/-- What `probe_once` records. -/
def probeRecord (cfg : HealthCheckCfg) (i : Nat) (outcome : ProbeOutcome) (nowMs : UInt64) :
    PeerEvent :=
  if outcome.passed cfg then .success i else .failure i nowMs

/-- A probe under way: the position of its peer and when it was started. -/
structure Probe where
  peer : Nat
  started : Nat

/-- A balancer with its probe task: whether somebody holds the balancer, whether the task loops, the
clock, the time of the next tick, and the probes under way. Times are in milliseconds. -/
structure Probing where
  balancer : Balancer
  held : Bool
  looping : Bool
  now : Nat
  due : Nat
  pending : List Probe

/-- A step: a tick of the timer, the end of the probe at a position, what a request does to the
balancer, or its last holder letting go of it. -/
inductive ProbeEvent where
  | tick
  | finish (k : Nat) (outcome : ProbeOutcome)
  | request (e : PeerEvent)
  | release

/-- The time that a request reads off the clock. -/
def ProbeEvent.clock : ProbeEvent → Option UInt64
  | .request e => e.clock
  | _ => none

/-- The peers that a tick probes. -/
def Balancer.probed (b : Balancer) : List Nat :=
  (b.peers.zipIdx.filter fun p => !p.1.down).map Prod.snd

namespace Probing

/-- `health::start`; the first tick is due at once. A timer with the interval zero panics, which
ends the task before it loops. -/
def start (cfg : HealthCheckCfg) (b : Balancer) (now : Nat) : Probing :=
  ⟨b, true, cfg.interval != 0, now, now, []⟩

section Machine

variable (hash : IpAddr → UInt64) (cfg : HealthCheckCfg)

/-- What a step does to the peers. -/
def happens (s : Probing) : Nat × ProbeEvent → List PeerEvent
  | (t, .finish k outcome) =>
      s.pending[k]?.toList.map fun p => probeRecord cfg p.peer outcome (UInt64.ofNat t)
  | (_, .request e) => [e]
  | _ => []

/-- The state after a step at a time; a step that is not possible only moves the clock. -/
def step (s : Probing) (e : Nat × ProbeEvent) : Probing :=
  let s' := { s with now := e.1, balancer := run (Balancer.step hash) s.balancer (s.happens cfg e) }
  match e.2 with
  | .tick =>
      if s.looping then
        if s.held then
          { s' with
            due := e.1 + Text.asMillis cfg.interval
            pending := s.pending ++ s.balancer.probed.map fun i => ⟨i, e.1⟩ }
        else { s' with looping := false }
      else s'
  | .finish k _ => { s' with pending := s.pending.eraseIdx k }
  | .request _ => s'
  | .release => { s' with held := false }

/-- All that happens to the peers along a run. -/
def history (s : Probing) : List (Nat × ProbeEvent) → List PeerEvent
  | [] => []
  | e :: es => s.happens cfg e ++ history (s.step hash cfg e) es

/-- A step that comes in time: the timer and the probes are late by at most `lag`, and requests
read the clock. -/
structure Punctual (lag : Nat) (s : Probing) (e : Nat × ProbeEvent) : Prop where
  now_le : s.now ≤ e.1
  due_le : s.looping = true → e.1 ≤ s.due + lag
  pending_le : ∀ p ∈ s.pending, e.1 ≤ p.started + Text.asMillis cfg.timeout + lag
  clock : e.2.clock = none ∨ e.2.clock = some (UInt64.ofNat e.1)

instance (lag : Nat) (s : Probing) (e : Nat × ProbeEvent) : Decidable (s.Punctual cfg lag e) :=
  decidable_of_iff (s.now ≤ e.1 ∧ (s.looping = true → e.1 ≤ s.due + lag) ∧
      (∀ p ∈ s.pending, e.1 ≤ p.started + Text.asMillis cfg.timeout + lag) ∧
      (e.2.clock = none ∨ e.2.clock = some (UInt64.ofNat e.1)))
    ⟨fun h => ⟨h.1, h.2.1, h.2.2.1, h.2.2.2⟩, fun h => ⟨h.1, h.2, h.3, h.4⟩⟩

end Machine

variable {hash : IpAddr → UInt64} {cfg : HealthCheckCfg}

theorem step_balancer (s : Probing) (e : Nat × ProbeEvent) :
    (s.step hash cfg e).balancer = run (Balancer.step hash) s.balancer (s.happens cfg e) := by
  obtain ⟨t, e⟩ := e
  cases e with
  | tick =>
      simp only [step]
      split
      · split <;> rfl
      · rfl
  | finish k outcome => rfl
  | request e => rfl
  | release => rfl

theorem step_now (s : Probing) (e : Nat × ProbeEvent) : (s.step hash cfg e).now = e.1 := by
  obtain ⟨t, e⟩ := e
  cases e with
  | tick =>
      simp only [step]
      split
      · split <;> rfl
      · rfl
  | finish k outcome => rfl
  | request e => rfl
  | release => rfl

theorem run_balancer (s : Probing) (es : List (Nat × ProbeEvent)) :
    (run (step hash cfg) s es).balancer =
      run (Balancer.step hash) s.balancer (s.history hash cfg es) := by
  induction es generalizing s with
  | nil => rfl
  | cons e es ih => rw [run_cons, ih, step_balancer, history, run_append]

theorem history_append (s : Probing) (es fs : List (Nat × ProbeEvent)) :
    s.history hash cfg (es ++ fs) =
      s.history hash cfg es ++ (run (step hash cfg) s es).history hash cfg fs := by
  induction es generalizing s with
  | nil => rfl
  | cons e es ih => rw [List.cons_append, history, history, ih, run_cons, List.append_assoc]

end Probing

/-! ## One peer as something polled -/

/-- The event records an outcome of the peer at position `i`. -/
def PeerEvent.records (i : Nat) (e : PeerEvent) : Bool := e.succeeds i || (e.failedAt i).isSome

/-- How often an outcome of the peer at position `i` is recorded. -/
def recordsOf (i : Nat) (es : List PeerEvent) : Nat := (es.filter (PeerEvent.records i)).length

namespace Probing

/-- The probes of the peer at position `i` as polls, with `n` answers so far. -/
def polling (i n : Nat) (s : Probing) : Polling.State :=
  ⟨s.now, s.due, (s.pending.filter fun p => p.peer = i).map Probe.started, n⟩

theorem split_at {α : Type} {l : List α} {k : Nat} {a : α} (hk : l[k]? = some a) :
    ∃ pre post, l = pre ++ a :: post ∧ l.eraseIdx k = pre ++ post := by
  obtain ⟨hlt, rfl⟩ := List.getElem?_eq_some_iff.1 hk
  refine ⟨l.take k, l.drop (k + 1), ?_, List.eraseIdx_eq_take_drop_succ l k⟩
  rw [List.cons_getElem_drop_succ, List.take_append_drop]

/-- Taking away an element that passes a filter takes away one of what passes it. -/
theorem filter_eraseIdx_of_pos {α : Type} {q : α → Bool} {l : List α} {k : Nat} {a : α}
    (hk : l[k]? = some a) (hq : q a = true) :
    ∃ j, j < (l.filter q).length ∧ (l.eraseIdx k).filter q = (l.filter q).eraseIdx j := by
  obtain ⟨pre, post, hl, herase⟩ := split_at hk
  have hfilter : l.filter q = pre.filter q ++ a :: post.filter q := by
    rw [hl, List.filter_append, List.filter_cons_of_pos hq]
  refine ⟨(pre.filter q).length, ?_, ?_⟩
  · rw [hfilter, List.length_append, List.length_cons]
    omega
  · rw [herase, hfilter, List.filter_append, List.eraseIdx_append_of_length_le le_rfl, Nat.sub_self]
    rfl

theorem filter_eraseIdx_of_neg {α : Type} {q : α → Bool} {l : List α} {k : Nat} {a : α}
    (hk : l[k]? = some a) (hq : q a = false) : (l.eraseIdx k).filter q = l.filter q := by
  obtain ⟨pre, post, hl, herase⟩ := split_at hk
  rw [herase, hl, List.filter_append, List.filter_append,
    List.filter_cons_of_neg (Bool.eq_false_iff.1 hq)]

/-- A tick starts one probe of a peer that is not down. -/
theorem filter_probed {b : Balancer} {i : Nat} {p : Peer} (hp : b.peers[i]? = some p)
    (hdown : p.down = false) (t : Nat) :
    ((b.probed.map fun j => Probe.mk j t).filter fun q => q.peer = i) = [⟨i, t⟩] := by
  have hnodup : b.probed.Nodup := by
    have hsub : b.probed.Sublist (List.range' 0 b.peers.length) := by
      rw [← List.zipIdx_map_snd 0 b.peers]
      exact List.filter_sublist.map _
    exact hsub.nodup List.nodup_range'
  have hmem : i ∈ b.probed := by
    refine List.mem_map.2 ⟨(p, i), List.mem_filter.2 ⟨?_, ?_⟩, rfl⟩
    · exact List.mem_zipIdx_iff_getElem?.2 hp
    · rw [hdown]
      rfl
  rw [List.filter_map]
  have hone :
      b.probed.filter ((fun q : Probe => decide (q.peer = i)) ∘ fun j => Probe.mk j t) = [i] := by
    show b.probed.filter (fun j => decide (j = i)) = [i]
    rw [List.filter_eq, List.count_eq_one_of_mem hnodup hmem]
    rfl
  rw [hone]
  rfl

/-- The task is running and probes the peer at position `i`. -/
structure Watches (cfg : HealthCheckCfg) (s : Probing) (i : Nat) (p₀ : Peer) : Prop where
  held : s.held = true
  looping : s.looping = true
  peer : ∃ p, s.balancer.peers[i]? = some p ∧ p.down = p₀.down ∧ p.maxFails = p₀.maxFails ∧
    p.failTimeout = p₀.failTimeout
  started_le : ∀ p ∈ s.pending, p.started ≤ s.now
  due_le : s.due ≤ s.now + Text.asMillis cfg.interval

end Probing

/-- No event changes the settings of a peer. -/
theorem run_settings (hash : IpAddr → UInt64) {b : Balancer} (es : List PeerEvent) {i : Nat}
    {p₀ : Peer} (h : ∃ p, b.peers[i]? = some p ∧ p.down = p₀.down ∧ p.maxFails = p₀.maxFails ∧
      p.failTimeout = p₀.failTimeout) :
    ∃ p, (run (Balancer.step hash) b es).peers[i]? = some p ∧ p.down = p₀.down ∧
      p.maxFails = p₀.maxFails ∧ p.failTimeout = p₀.failTimeout := by
  refine run_invariant (Q := fun b : Balancer => ∃ p, b.peers[i]? = some p ∧ p.down = p₀.down ∧
    p.maxFails = p₀.maxFails ∧ p.failTimeout = p₀.failTimeout) ?_ h es
  rintro b e ⟨p, hp, hdown, hmax, htimeout⟩
  obtain ⟨_, _, _, hsame⟩ := e.onPeer_counters i p
  refine ⟨e.onPeer i p, ?_, ?_⟩
  · rw [Balancer.step_peers, hp, Option.map_some]
  · rw [hsame]
    exact ⟨hdown, hmax, htimeout⟩

namespace Probing

variable {hash : IpAddr → UInt64} {cfg : HealthCheckCfg} {lag : Nat} {i : Nat} {p₀ : Peer}

theorem Watches.step {s : Probing} (h : s.Watches cfg i p₀) {e : Nat × ProbeEvent}
    (he : s.Punctual cfg lag e) (hheld : e.2 ≠ .release) :
    (s.step hash cfg e).Watches cfg i p₀ := by
  have hpeer := run_settings hash (s.happens cfg e) h.peer
  have hstarted : ∀ p ∈ s.pending, p.started ≤ e.1 :=
    fun p hp => (h.started_le p hp).trans he.now_le
  have hdue : s.due ≤ e.1 + Text.asMillis cfg.interval :=
    h.due_le.trans (Nat.add_le_add_right he.now_le _)
  obtain ⟨t, e⟩ := e
  cases e with
  | tick =>
      rw [Probing.step, if_pos h.looping, if_pos h.held]
      refine ⟨h.held, h.looping, hpeer, fun p hp => ?_, le_rfl⟩
      rcases List.mem_append.1 hp with hp | hp
      · exact hstarted p hp
      · obtain ⟨j, -, rfl⟩ := List.mem_map.1 hp
        exact le_rfl
  | finish k outcome =>
      exact ⟨h.held, h.looping, hpeer, fun p hp => hstarted p (List.mem_of_mem_eraseIdx hp), hdue⟩
  | request e => exact ⟨h.held, h.looping, hpeer, hstarted, hdue⟩
  | release => exact absurd rfl hheld

theorem Watches.inTime {s : Probing} (h : s.Watches cfg i p₀) {e : Nat × ProbeEvent}
    (he : s.Punctual cfg lag e) (n : Nat) :
    Polling.InTime (Text.asMillis cfg.timeout) lag (s.polling i n) e.1 := by
  refine ⟨he.now_le, he.due_le h.looping, fun t ht => ?_⟩
  obtain ⟨p, hp, rfl⟩ := List.mem_map.1 ht
  exact he.pending_le p (List.mem_of_mem_filter hp)

theorem records_probeRecord (cfg : HealthCheckCfg) (i j : Nat) (outcome : ProbeOutcome)
    (nowMs : UInt64) : (probeRecord cfg j outcome nowMs).records i = decide (j = i) := by
  rw [probeRecord]
  by_cases hji : j = i <;>
    split <;> simp [PeerEvent.records, PeerEvent.succeeds, PeerEvent.failedAt, hji]

/-- What a step in time is to the polling of one peer. -/
theorem bounded_step {s : Probing} (h : s.Watches cfg i p₀) (hdown : p₀.down = false)
    {e : Nat × ProbeEvent} (he : s.Punctual cfg lag e) (hheld : e.2 ≠ .release) {start n : Nat}
    (hb : Polling.Bounded (Text.asMillis cfg.interval) lag start (s.polling i n)) :
    Polling.Bounded (Text.asMillis cfg.interval) lag start
      ((s.step hash cfg e).polling i (n + recordsOf i (s.happens cfg e))) := by
  have htime := h.inTime he n
  obtain ⟨t, e⟩ := e
  cases e with
  | tick =>
      obtain ⟨p, hp, hpdown, -, -⟩ := h.peer
      have hpolls : ((s.pending ++ s.balancer.probed.map fun j => Probe.mk j t).filter
          fun q => q.peer = i).map Probe.started = (s.polling i n).pending ++ [t] := by
        rw [List.filter_append, filter_probed hp (hpdown.trans hdown), List.map_append]
        rfl
      have hstep := hb.step (e := (t, .poll)) htime
      rw [Probing.step, if_pos h.looping, if_pos h.held, polling, hpolls]
      exact hstep
  | finish k outcome =>
      cases hk : s.pending[k]? with
      | none =>
          have hout : s.pending.length ≤ k := List.getElem?_eq_none_iff.1 hk
          have hsame : s.pending.eraseIdx k = s.pending := List.eraseIdx_of_length_le hout
          refine hb.more ?_ rfl (Nat.le_add_right _ _)
          simp only [polling, Probing.step, hsame]
      | some p =>
          have hhappens : s.happens cfg (t, .finish k outcome) =
              [probeRecord cfg p.peer outcome (UInt64.ofNat t)] := by
            simp only [happens, hk, Option.toList_some, List.map_cons, List.map_nil]
          rw [hhappens, recordsOf]
          by_cases hpi : p.peer = i
          · obtain ⟨j, hj, hfilter⟩ := filter_eraseIdx_of_pos (q := fun q : Probe => q.peer = i) hk
              (by simpa using hpi)
            have hj' : j < (s.polling i n).pending.length := by
              rw [polling, List.length_map]
              exact hj
            have hstep := hb.step (e := (t, .answer j)) htime
            rw [Polling.step, if_pos hj'] at hstep
            have hmap : (s.polling i n).pending.eraseIdx j =
                ((s.pending.eraseIdx k).filter fun q => q.peer = i).map Probe.started := by
              rw [hfilter]
              exact List.eraseIdx_map ..
            have hone : ([probeRecord cfg p.peer outcome (UInt64.ofNat t)].filter
                (PeerEvent.records i)).length = 1 := by
              rw [List.filter_cons_of_pos (by rw [records_probeRecord]; exact decide_eq_true hpi)]
              rfl
            rw [hmap] at hstep
            rw [hone]
            exact hstep
          · have hfilter := filter_eraseIdx_of_neg (q := fun q : Probe => q.peer = i) hk
              (by simpa using hpi)
            refine hb.more ?_ rfl (Nat.le_add_right _ _)
            simp only [polling, Probing.step, hfilter]
  | request e => exact hb.more rfl rfl (Nat.le_add_right _ _)
  | release => exact absurd rfl hheld

/-! ## Runs -/

theorem recordsOf_append (i : Nat) (es fs : List PeerEvent) :
    recordsOf i (es ++ fs) = recordsOf i es + recordsOf i fs := by
  rw [recordsOf, List.filter_append, List.length_append]
  rfl

theorem watches_start (hinterval : cfg.interval ≠ 0) {b : Balancer} (h : b.peers[i]? = some p₀)
    (now : Nat) : (start cfg b now).Watches cfg i p₀ where
  held := rfl
  looping := bne_iff_ne.2 hinterval
  peer := ⟨p₀, h, rfl, rfl, rfl⟩
  started_le := fun _ hp => absurd hp List.not_mem_nil
  due_le := Nat.le_add_right _ _

theorem Watches.bounded {s : Probing} (h : s.Watches cfg i p₀) :
    Polling.Bounded (Text.asMillis cfg.interval) lag s.now (s.polling i 0) := by
  show Polling.Bounded _ lag (s.polling i 0).now (s.polling i 0)
  refine Polling.Bounded.start (fun t ht => ?_) h.due_le
  obtain ⟨p, hp, rfl⟩ := List.mem_map.1 ht
  exact h.started_le p (List.mem_of_mem_filter hp)

section Run

variable {s : Probing} {es : List (Nat × ProbeEvent)}

theorem Watches.run (h : s.Watches cfg i p₀)
    (hes : AllSteps (Probing.step hash cfg) (Punctual cfg lag) s es)
    (hheld : ∀ e ∈ es, e.2 ≠ .release) : (run (Probing.step hash cfg) s es).Watches cfg i p₀ := by
  induction es generalizing s with
  | nil => exact h
  | cons e es ih =>
      obtain ⟨he, hes⟩ := allSteps_cons.1 hes
      exact ih (h.step he (hheld e List.mem_cons_self)) hes
        fun e' he' => hheld e' (List.mem_cons_of_mem _ he')

theorem bounded_run (h : s.Watches cfg i p₀) (hdown : p₀.down = false)
    (hes : AllSteps (Probing.step hash cfg) (Punctual cfg lag) s es)
    (hheld : ∀ e ∈ es, e.2 ≠ .release) {start n : Nat}
    (hb : Polling.Bounded (Text.asMillis cfg.interval) lag start (s.polling i n)) :
    Polling.Bounded (Text.asMillis cfg.interval) lag start
      ((run (Probing.step hash cfg) s es).polling i (n + recordsOf i (s.history hash cfg es))) := by
  induction es generalizing s n with
  | nil => exact hb
  | cons e es ih =>
      obtain ⟨he, hes⟩ := allSteps_cons.1 hes
      have hrelease := hheld e List.mem_cons_self
      have hstep := ih (h.step he hrelease) hes
        (fun e' he' => hheld e' (List.mem_cons_of_mem _ he')) (bounded_step h hdown he hrelease hb)
      rw [history, recordsOf_append, ← Nat.add_assoc]
      exact hstep

omit es in
/-- What reads the clock during a step reads the time of the step. -/
theorem clock_of_happens {e : Nat × ProbeEvent} (he : s.Punctual cfg lag e) {e' : PeerEvent}
    (hmem : e' ∈ s.happens cfg e) {nowMs : UInt64} (hclock : e'.clock = some nowMs) :
    nowMs = UInt64.ofNat e.1 := by
  obtain ⟨t, e⟩ := e
  cases e with
  | tick => cases hmem
  | release => cases hmem
  | request e =>
      rw [List.mem_singleton.1 hmem] at hclock
      rcases he.clock with hnone | hsome
      · cases hclock.symm.trans hnone
      · exact Option.some.inj (hclock.symm.trans hsome)
  | finish k outcome =>
      obtain ⟨p, -, rfl⟩ := List.mem_map.1 hmem
      rw [probeRecord] at hclock
      split at hclock
      · cases hclock
      · exact (Option.some.inj hclock).symm

/-- Whatever reads the clock reads a time of the run. -/
theorem clock_le (hes : AllSteps (Probing.step hash cfg) (Punctual cfg lag) s es) :
    s.now ≤ (run (Probing.step hash cfg) s es).now ∧
      ∀ e ∈ s.history hash cfg es, ∀ nowMs, e.clock = some nowMs →
        ∃ t, t ≤ (run (Probing.step hash cfg) s es).now ∧ nowMs = UInt64.ofNat t := by
  induction es generalizing s with
  | nil => exact ⟨le_rfl, fun e he => absurd he List.not_mem_nil⟩
  | cons e es ih =>
      obtain ⟨he, hes⟩ := allSteps_cons.1 hes
      obtain ⟨hnow, hlater⟩ := ih hes
      rw [step_now] at hnow
      refine ⟨he.now_le.trans hnow, fun e' he' nowMs hclock => ?_⟩
      rcases List.mem_append.1 he' with hmem | hmem
      · exact ⟨e.1, hnow, clock_of_happens he hmem hclock⟩
      · exact hlater e' hmem nowMs hclock

/-- The failures of the peer at position `i`, the latest first. -/
def failuresIn (i : Nat) (es : List PeerEvent) : List UInt64 :=
  es.reverse.filterMap (PeerEvent.failedAt i)

theorem failuresIn_append (i : Nat) (es fs : List PeerEvent) :
    failuresIn i (es ++ fs) = failuresIn i fs ++ failuresIn i es := by
  rw [failuresIn, List.reverse_append, List.filterMap_append]
  rfl

/-- What a step records of the peer is a success, or a failure at the time of the step. -/
theorem failedAt_of_records {e : Nat × ProbeEvent} (he : s.Punctual cfg lag e) {e' : PeerEvent}
    (hmem : e' ∈ s.happens cfg e) (hrecords : e'.records i = true)
    (hfails : e'.succeeds i = false) :
    e'.failedAt i = some (UInt64.ofNat e.1) := by
  rw [PeerEvent.records, hfails, Bool.false_or] at hrecords
  obtain ⟨nowMs, hnow⟩ := Option.isSome_iff_exists.1 hrecords
  have hclock : e'.clock = some nowMs := by
    cases e' with
    | failure j t =>
        rw [PeerEvent.failedAt] at hnow
        split at hnow
        · exact hnow
        · cases hnow
    | success j => cases hnow
    | enter j => cases hnow
    | leave j => cases hnow
    | pick t client exclude => cases hnow
  rw [hnow, clock_of_happens he hmem hclock]

omit es in
/-- A step records at most one outcome. -/
theorem happens_length (e : Nat × ProbeEvent) : (s.happens cfg e).length ≤ 1 := by
  obtain ⟨t, e⟩ := e
  cases e with
  | tick => exact Nat.zero_le 1
  | release => exact Nat.zero_le 1
  | request e => exact le_rfl
  | finish k outcome =>
      rw [happens, List.length_map]
      cases s.pending[k]? with
      | none => exact Nat.zero_le 1
      | some p => exact le_rfl

/-- A step that records no success of the peer leaves its failures alone, or adds one at its
time. -/
theorem failuresIn_happens {e : Nat × ProbeEvent} (he : s.Punctual cfg lag e)
    (hdead : ∀ e' ∈ s.happens cfg e, e'.succeeds i = false) :
    (recordsOf i (s.happens cfg e) = 0 ∧ failuresIn i (s.happens cfg e) = []) ∨
      failuresIn i (s.happens cfg e) = [UInt64.ofNat e.1] := by
  cases hhappens : s.happens cfg e with
  | nil => exact Or.inl ⟨rfl, rfl⟩
  | cons e' rest =>
      have hone : (s.happens cfg e).length ≤ 1 := happens_length e
      rw [hhappens, List.length_cons] at hone
      obtain rfl : rest = [] := List.length_eq_zero_iff.1 (by omega)
      rw [hhappens] at hdead
      have hmem : e' ∈ s.happens cfg e := by
        rw [hhappens]
        exact List.mem_cons_self
      cases hrecords : e'.records i with
      | false =>
          left
          have hnone : e'.failedAt i = none := by
            rw [PeerEvent.records, Bool.or_eq_false_iff] at hrecords
            exact Option.isNone_iff_eq_none.1 (Option.isSome_eq_false_iff.1 hrecords.2)
          rw [recordsOf, List.filter_cons_of_neg (Bool.eq_false_iff.1 hrecords), failuresIn,
            List.reverse_singleton, List.filterMap_cons_none hnone]
          exact ⟨rfl, rfl⟩
      | true =>
          right
          have hfailed := failedAt_of_records he hmem hrecords (hdead e' List.mem_cons_self)
          rw [failuresIn, List.reverse_singleton, List.filterMap_cons_some hfailed]
          rfl

/-- While the peer has no success, its polling is bounded from its last failure on. -/
theorem recent_failure (h : s.Watches cfg i p₀) (hdown : p₀.down = false)
    (hes : AllSteps (Probing.step hash cfg) (Punctual cfg lag) s es)
    (hheld : ∀ e ∈ es, e.2 ≠ .release)
    (hdead : ∀ e ∈ s.history hash cfg es, e.succeeds i = false) :
    failuresIn i (s.history hash cfg es) = [] ∨
      ∃ f, f ≤ (run (Probing.step hash cfg) s es).now ∧
        (failuresIn i (s.history hash cfg es)).head? = some (UInt64.ofNat f) ∧
        Polling.Bounded (Text.asMillis cfg.interval) lag f
          ((run (Probing.step hash cfg) s es).polling i 0) := by
  induction es using List.reverseRecOn with
  | nil => exact Or.inl rfl
  | append_singleton es e ih =>
      obtain ⟨hes, hlast⟩ := allSteps_append.1 hes
      obtain ⟨he, -⟩ := allSteps_cons.1 hlast
      have hheld' : ∀ e ∈ es, e.2 ≠ .release := fun e he => hheld e (List.mem_append_left _ he)
      have hrelease : e.2 ≠ .release := hheld e (List.mem_append_right _ List.mem_cons_self)
      have hwatches := h.run hes hheld'
      rw [history_append, history, history, List.append_nil] at hdead ⊢
      rw [failuresIn_append, run_concat, step_now]
      have hdeadStep := fun e' he' => hdead e' (List.mem_append_right _ he')
      rcases failuresIn_happens he hdeadStep with ⟨hnone, hnil⟩ | hfailed
      · rw [hnil, List.nil_append]
        refine (ih hes hheld' fun e' he' => hdead e' (List.mem_append_left _ he')).imp_right ?_
        rintro ⟨f, hf, hhead, hb⟩
        have hstep := @bounded_step hash _ _ _ _ _ hwatches hdown _ he hrelease _ _ hb
        rw [hnone] at hstep
        exact ⟨f, hf.trans he.now_le, hhead, hstep⟩
      · have hnext : (Probing.step hash cfg (run (Probing.step hash cfg) s es) e).Watches cfg i p₀ :=
          hwatches.step he hrelease
        have hb := @Watches.bounded _ lag _ _ _ hnext
        rw [step_now] at hb
        refine Or.inr ⟨e.1, le_rfl, ?_, hb⟩
        rw [hfailed]
        rfl

end Run

end Probing

/-! ## What a history says of a peer -/

/-- With no success in the latest events, their failures come on top of the earlier ones. -/
theorem failuresSince_append_dead {i : Nat} (es : List PeerEvent) {fs : List PeerEvent}
    (hdead : ∀ e ∈ fs, e.succeeds i = false) :
    failuresSince i (es ++ fs) = Probing.failuresIn i fs ++ failuresSince i es := by
  induction fs using List.reverseRecOn with
  | nil =>
      rw [List.append_nil]
      rfl
  | append_singleton fs e ih =>
      have hlast := hdead e (List.mem_append_right _ List.mem_cons_self)
      rw [← List.append_assoc, failuresSince_concat, hlast, if_neg Bool.false_ne_true,
        ih fun e' he' => hdead e' (List.mem_append_left _ he'), Probing.failuresIn_append,
        ← List.append_assoc]
      congr 1

/-- With no failure in the latest events and a success among them, nothing is left. -/
theorem failuresSince_append_live {i : Nat} (es : List PeerEvent) {fs : List PeerEvent}
    (hlive : ∀ e ∈ fs, e.failedAt i = none) (hsuccess : ∃ e ∈ fs, e.succeeds i = true) :
    failuresSince i (es ++ fs) = [] := by
  induction fs using List.reverseRecOn with
  | nil =>
      obtain ⟨e, he, -⟩ := hsuccess
      cases he
  | append_singleton fs e ih =>
      rw [← List.append_assoc, failuresSince_concat]
      cases hlast : e.succeeds i with
      | true => rfl
      | false =>
          rw [if_neg Bool.false_ne_true, hlive e (List.mem_append_right _ List.mem_cons_self)]
          refine ih (fun e' he' => hlive e' (List.mem_append_left _ he')) ?_
          obtain ⟨e', he', hsucceeds⟩ := hsuccess
          refine ⟨e', ?_, hsucceeds⟩
          rcases List.mem_append.1 he' with hmem | hmem
          · exact hmem
          · rw [List.mem_singleton.1 hmem, hlast] at hsucceeds
            cases hsucceeds

/-- With no success, every outcome recorded is a failure. -/
theorem length_failuresIn {i : Nat} {es : List PeerEvent}
    (hdead : ∀ e ∈ es, e.succeeds i = false) :
    (Probing.failuresIn i es).length = recordsOf i es := by
  rw [Probing.failuresIn, recordsOf, List.length_filterMap_eq_countP, List.countP_reverse,
    List.countP_eq_length_filter]
  refine congrArg List.length (List.filter_congr fun e he => ?_)
  rw [PeerEvent.records, hdead e he, Bool.false_or]

namespace Probing

/-- A run of the task on a fresh balancer, up to a pick at the time `u`: the interval is not zero,
every step is in time, the balancer is held throughout, and neither the clock nor a row of failures
overflows. -/
structure UpToPick (hash : IpAddr → UInt64) (cfg : HealthCheckCfg) (lag : Nat) (b : Balancer)
    (now : Nat) (es : List (Nat × ProbeEvent)) (u : Nat) (clientIp : IpAddr)
    (exclude : List String) : Prop where
  fresh : b.Fresh
  interval : cfg.interval ≠ 0
  punctual : AllSteps (step hash cfg) (Punctual cfg lag) (start cfg b now)
    (es ++ [(u, .request (.pick (UInt64.ofNat u) clientIp exclude))])
  held : ∀ e ∈ es, e.2 ≠ .release
  clock : ∀ p ∈ b.peers, u + Text.asMillis p.failTimeout < 2 ^ 64
  rows : RowsFit ((start cfg b now).history hash cfg es)

variable {hash : IpAddr → UInt64} {cfg : HealthCheckCfg} {lag : Nat} {b : Balancer} {i : Nat}
variable {p₀ : Peer} {now u : Nat} {clientIp : IpAddr} {exclude : List String}

/-- At the pick the counters of the peer follow the history of the run. -/
theorem UpToPick.tracks {es : List (Nat × ProbeEvent)}
    (h : UpToPick hash cfg lag b now es u clientIp exclude) {p : Peer}
    (hp : (run (step hash cfg) (start cfg b now) es).balancer.peers[i]? = some p) :
    Tracks p (failuresSince i ((start cfg b now).history hash cfg es)) := by
  obtain ⟨hes, hlast⟩ := allSteps_append.1 h.punctual
  have hu := (allSteps_cons.1 hlast).1.now_le
  rw [run_balancer] at hp
  refine tracks_of_run hash h.fresh (fun j nowMs q hmem hq => ?_) h.rows hp
  obtain ⟨t, ht, rfl⟩ := (clock_le hes).2 _ hmem nowMs rfl
  have hfits := h.clock q (List.mem_of_getElem? hq)
  have hle : (UInt64.ofNat t).toNat ≤ t := by
    rw [UInt64.toNat_ofNat']
    exact Nat.mod_le _ _
  have htu : t ≤ u := ht.trans hu
  omega

/-- While a peer is watched, the outcomes recorded of it fill the time up to any step. -/
theorem Watches.le_of_records {s : Probing} (h : s.Watches cfg i p₀) (hdown : p₀.down = false)
    {es : List (Nat × ProbeEvent)} {last : Nat × ProbeEvent}
    (hes : AllSteps (Probing.step hash cfg) (Punctual cfg lag) s (es ++ [last]))
    (hheld : ∀ e ∈ es, e.2 ≠ .release) :
    last.1 ≤ s.now + (recordsOf i (s.history hash cfg es) + 1) *
      (Text.asMillis cfg.interval + lag) + Text.asMillis cfg.timeout + lag := by
  obtain ⟨hes, hlast⟩ := allSteps_append.1 hes
  have hwatches := h.run hes hheld
  have hb := bounded_run h hdown hes hheld h.bounded
  have hnext := hb.next_le (hwatches.inTime (allSteps_cons.1 hlast).1 _)
  rw [polling, Nat.zero_add] at hnext
  exact hnext

/-- **A dead peer is taken out.** Take a run in which every step is late by at most `lag`, and let
the interval and the timeout of the check together be shorter than the cooldown of a peer. When the
peer has had no success for as many intervals as it takes failures to cool, and a timeout, no pick
takes it, by any method. -/
theorem dead_peer_taken_out (hpeer : b.peers[i]? = some p₀) (hdown : p₀.down = false)
    (hshort : Text.asMillis cfg.interval + Text.asMillis cfg.timeout + 2 * lag <
      Text.asMillis p₀.failTimeout)
    (before after : List (Nat × ProbeEvent))
    (hrun : UpToPick hash cfg lag b now (before ++ after) u clientIp exclude)
    (hdead : ∀ e ∈ (run (step hash cfg) (start cfg b now) before).history hash cfg after,
      e.succeeds i = false)
    (hlate : (run (step hash cfg) (start cfg b now) before).now +
      max p₀.maxFails.toNat 1 * (Text.asMillis cfg.interval + lag) + Text.asMillis cfg.timeout +
        lag < u) :
    (run (step hash cfg) (start cfg b now) (before ++ after)).balancer.picked hash (UInt64.ofNat u)
      clientIp exclude ≠ some i := by
  obtain ⟨hbefore, hrest⟩ := allSteps_append.1 (List.append_assoc before after _ ▸ hrun.punctual)
  have hheldBefore : ∀ e ∈ before, e.2 ≠ .release :=
    fun e he => hrun.held e (List.mem_append_left _ he)
  have hheldAfter : ∀ e ∈ after, e.2 ≠ .release :=
    fun e he => hrun.held e (List.mem_append_right _ he)
  have hwatches := (watches_start hrun.interval hpeer now).run hbefore hheldBefore
  have htracks := fun {p} => hrun.tracks (i := i) (p := p)
  rw [history_append, failuresSince_append_dead _ hdead] at htracks
  have hfill := hwatches.le_of_records hdown hrest hheldAfter
  obtain ⟨hafter, hlast⟩ := allSteps_append.1 hrest
  have htime := (hwatches.run hafter hheldAfter).inTime (allSteps_cons.1 hlast).1 0
  have hrecent := recent_failure hwatches hdown hafter hheldAfter hdead
  have hpeerNow := (hwatches.run hafter hheldAfter).peer
  have hcount := length_failuresIn hdead
  set s₁ := run (step hash cfg) (start cfg b now) before
  have hmany : max p₀.maxFails.toNat 1 ≤ recordsOf i (s₁.history hash cfg after) := by
    by_contra hfew
    have hle : recordsOf i (s₁.history hash cfg after) + 1 ≤ max p₀.maxFails.toNat 1 := by omega
    have hmul := Nat.mul_le_mul_right (Text.asMillis cfg.interval + lag) hle
    exact absurd hlate (Nat.not_lt.2 (hfill.trans (by gcongr)))
  have hfailures : failuresIn i (s₁.history hash cfg after) ≠ [] := by
    intro hnone
    rw [hnone, List.length_nil] at hcount
    have hone : 1 ≤ max p₀.maxFails.toNat 1 := le_max_right _ _
    omega
  obtain ⟨f, hf, hhead, hb⟩ := hrecent.resolve_left hfailures
  have hnext := hb.next_le htime
  rw [polling, Nat.zero_add, Nat.one_mul] at hnext
  intro hpick
  obtain ⟨⟨p, j⟩, hinner, rfl⟩ := Option.map_eq_some_iff.1 hpick
  obtain ⟨hget, havailable, -, -⟩ := Balancer.mem_pool (Balancer.mem_pool_of_pickInner hinner)
  rw [run_append] at hget
  obtain ⟨p', hp', -, hmax, htimeout⟩ := hpeerNow
  obtain rfl : p = p' := Option.some.inj (hget.symm.trans hp')
  refine (((htracks (by rw [run_append]; exact hget)).isAvailable_iff _).1 havailable).2 ⟨?_, ?_⟩
  · rw [hmax, List.length_append, hcount]
    exact hmany.trans (Nat.le_add_right _ _)
  · refine ⟨UInt64.ofNat f, ?_, ?_⟩
    · rw [List.head?_append, hhead]
      rfl
    · have hfits := hrun.clock p₀ (List.mem_of_getElem? hpeer)
      have hfu : f ≤ u := hf.trans htime.now_le
      rw [UInt64.toNat_ofNat', UInt64.toNat_ofNat', Nat.mod_eq_of_lt (by omega),
        Nat.mod_eq_of_lt (by omega), htimeout]
      omega

/-- A check with its defaults. -/
def defaultCheck : HealthCheckCfg := {}

/-- Two rounds of probes of `primaryAndBackup`: the primary refuses the first and leaves the second
without an answer, the backup answers both. -/
def deadPrimary : List (Nat × ProbeEvent) :=
  [(0, .tick), (100, .finish 0 .error), (200, .finish 0 (.response 200)), (5000, .tick),
    (5100, .finish 1 (.response 200)), (7000, .finish 0 .timedOut)]

theorem rowsFit_of_length {es : List PeerEvent} (h : es.length < 2 ^ 32) : RowsFit es := by
  rintro pre post i rfl
  refine lt_of_le_of_lt ?_ h
  calc (failuresSince i pre).length
      ≤ (pre.reverse.takeWhile fun e => !e.succeeds i).length := List.length_filterMap_le _ _
    _ ≤ pre.reverse.length := (List.takeWhile_sublist _).length_le
    _ = pre.length := List.length_reverse
    _ ≤ (pre ++ post).length := by
      rw [List.length_append]
      exact Nat.le_add_right _ _

theorem fresh_primaryAndBackup : primaryAndBackup.Fresh := by
  intro p hp
  fin_cases hp
  · exact ⟨rfl, rfl⟩
  · exact ⟨rfl, rfl⟩

theorem upToPick_deadPrimary :
    UpToPick (fun _ => 0) defaultCheck 0 primaryAndBackup 0 ([] ++ deadPrimary) 8000 stickyClient
      [] where
  fresh := fresh_primaryAndBackup
  interval := by decide
  punctual := by
    iterate 7
      refine allSteps_cons.2 ⟨by decide, ?_⟩
    exact allSteps_nil
  held := by simp [deadPrimary]
  clock := by decide
  rows := rowsFit_of_length (by decide)

theorem dead_primary_taken_out :
    (run (step (fun _ => 0) defaultCheck) (start defaultCheck primaryAndBackup 0)
      ([] ++ deadPrimary)).balancer.picked (fun _ => 0) (UInt64.ofNat 8000) stickyClient [] ≠
        some 0 :=
  dead_peer_taken_out rfl rfl (by decide) [] deadPrimary upToPick_deadPrimary (by decide)
    (by decide)

/-- **A live peer is taken back.** When the peer has had no failure for an interval and a timeout,
it can be picked, whatever happened before. -/
theorem live_peer_taken_back (hpeer : b.peers[i]? = some p₀) (hdown : p₀.down = false)
    (before after : List (Nat × ProbeEvent))
    (hrun : UpToPick hash cfg lag b now (before ++ after) u clientIp exclude)
    (hlive : ∀ e ∈ (run (step hash cfg) (start cfg b now) before).history hash cfg after,
      e.failedAt i = none)
    (hlate : (run (step hash cfg) (start cfg b now) before).now +
      (Text.asMillis cfg.interval + lag) + Text.asMillis cfg.timeout + lag < u) :
    (run (step hash cfg) (start cfg b now) (before ++ after)).balancer.AvailableAt i
      (UInt64.ofNat u) := by
  obtain ⟨hbefore, hrest⟩ := allSteps_append.1 (List.append_assoc before after _ ▸ hrun.punctual)
  have hwatches := (watches_start hrun.interval hpeer now).run hbefore
    fun e he => hrun.held e (List.mem_append_left _ he)
  have hheld : ∀ e ∈ after, e.2 ≠ .release := fun e he => hrun.held e (List.mem_append_right _ he)
  have htracks := fun {p} => hrun.tracks (i := i) (p := p)
  have hfill := hwatches.le_of_records hdown hrest hheld
  obtain ⟨p, hp, hpdown, -, -⟩ := (hwatches.run (allSteps_append.1 hrest).1 hheld).peer
  rw [run_append, history_append] at htracks
  set s₁ := run (step hash cfg) (start cfg b now) before
  -- an outcome is recorded, and it is not a failure
  have hsuccess : ∃ e ∈ s₁.history hash cfg after, e.succeeds i = true := by
    have hpos : 0 < recordsOf i (s₁.history hash cfg after) := by
      by_contra hnone
      rw [Nat.eq_zero_of_not_pos hnone, Nat.zero_add, Nat.one_mul] at hfill
      exact absurd hlate (Nat.not_lt.2 hfill)
    obtain ⟨e, he⟩ := List.exists_mem_of_length_pos hpos
    obtain ⟨hmem, hrecords⟩ := List.mem_filter.1 he
    refine ⟨e, hmem, ?_⟩
    rwa [PeerEvent.records, hlive e hmem, Option.isSome_none, Bool.or_false] at hrecords
  rw [failuresSince_append_live _ hlive hsuccess] at htracks
  refine ⟨p, by rw [run_append]; exact hp, ?_⟩
  refine ((htracks hp).isAvailable_iff _).2 ⟨hpdown.trans hdown, fun hcool => ?_⟩
  have hone : 1 ≤ max p.maxFails.toNat 1 := le_max_right _ _
  exact absurd (hone.trans hcool.1) (Nat.not_succ_le_zero 0)

/-- A round of probes of `primaryAndBackup` in which the primary answers. -/
def backPrimary : List (Nat × ProbeEvent) :=
  [(5000, .tick), (5100, .finish 0 (.response 200)), (5200, .finish 0 (.response 200))]

theorem upToPick_backPrimary :
    UpToPick (fun _ => 0) defaultCheck 0 primaryAndBackup 0 (deadPrimary.take 3 ++ backPrimary) 8000
      stickyClient [] where
  fresh := fresh_primaryAndBackup
  interval := by decide
  punctual := by
    iterate 7
      refine allSteps_cons.2 ⟨by decide, ?_⟩
    exact allSteps_nil
  held := by simp [deadPrimary, backPrimary]
  clock := by decide
  rows := rowsFit_of_length (by decide)

theorem primary_taken_back :
    (run (step (fun _ => 0) defaultCheck) (start defaultCheck primaryAndBackup 0)
      (deadPrimary.take 3 ++ backPrimary)).balancer.AvailableAt 0 (UInt64.ofNat 8000) :=
  live_peer_taken_back rfl rfl (deadPrimary.take 3) backPrimary upToPick_backPrimary (by decide)
    (by decide)

end Probing

end Elrond.Upstream
