import Elrond.Upstream.Selection

/-!
# Passive health checks over whole histories

What the counters of a peer mean, said with the history of the balancer: a peer is cooling when
it has failed often enough since its last success and its last failure is recent. The counters
follow this meaning through every run of successes, failures, picks and in-flight changes
(`tracks_of_run`), as long as they do not overflow. So a pick, by any method, returns a peer that
is neither down nor excluded nor cooling, and a backup only when no primary is left
(`pick_sound`).
-/

set_option autoImplicit false

namespace Elrond.Upstream

open Elrond.Lib Elrond.Http Elrond.Config

/-- What happens to a balancer: a request records its outcome on the peer at a position, enters
or leaves it, or a peer is picked. -/
inductive PeerEvent where
  | success (i : Nat)
  | failure (i : Nat) (nowMs : UInt64)
  | enter (i : Nat)
  | leave (i : Nat)
  | pick (nowMs : UInt64) (clientIp : IpAddr) (exclude : List String)

namespace PeerEvent

/-- The event records a success of the peer at position `i`. -/
def succeeds (i : Nat) : PeerEvent → Bool
  | .success j => j = i
  | _ => false

/-- The time at which the event records a failure of the peer at position `i`. -/
def failedAt (i : Nat) : PeerEvent → Option UInt64
  | .failure j nowMs => if j = i then some nowMs else none
  | _ => none

/-- What the event does to the peer at position `i`. -/
def onPeer (i : Nat) (p : Peer) : PeerEvent → Peer
  | .success j => if j = i then p.recordSuccess else p
  | .failure j nowMs => if j = i then p.recordFailure nowMs else p
  | .enter j => if j = i then p.enter else p
  | .leave j => if j = i then p.leave else p
  | .pick _ _ _ => p

end PeerEvent

/-- The balancer after an event. -/
def Balancer.step (hash : IpAddr → UInt64) (b : Balancer) : PeerEvent → Balancer
  | .success i => b.modifyPeer i Peer.recordSuccess
  | .failure i nowMs => b.modifyPeer i fun p => p.recordFailure nowMs
  | .enter i => b.modifyPeer i Peer.enter
  | .leave i => b.modifyPeer i Peer.leave
  | .pick nowMs clientIp exclude => (Balancer.pickInner hash b nowMs clientIp exclude).2

theorem Balancer.pickInner_peers (hash : IpAddr → UInt64) (b : Balancer) (nowMs : UInt64)
    (clientIp : IpAddr) (exclude : List String) :
    (Balancer.pickInner hash b nowMs clientIp exclude).2.peers = b.peers := by
  simp only [Balancer.pickInner]
  split
  · rfl
  · cases b.method with
    | roundRobin => rfl
    | leastConn => rfl
    | ipHash => rfl

/-- An event changes each peer on its own. -/
theorem Balancer.step_peers (hash : IpAddr → UInt64) (b : Balancer) (e : PeerEvent) (i : Nat) :
    (b.step hash e).peers[i]? = b.peers[i]?.map fun p => e.onPeer i p := by
  cases e with
  | success j => exact List.getElem?_modify _ _ _ _
  | failure j nowMs => exact List.getElem?_modify _ _ _ _
  | enter j => exact List.getElem?_modify _ _ _ _
  | leave j => exact List.getElem?_modify _ _ _ _
  | pick nowMs clientIp exclude =>
      show (Balancer.pickInner hash b nowMs clientIp exclude).2.peers[i]? = _
      rw [Balancer.pickInner_peers]
      exact (Option.map_id').symm

/-! ## What the history says -/

/-- The failures of the peer at position `i` since its last success, the latest first. -/
def failuresSince (i : Nat) (es : List PeerEvent) : List UInt64 :=
  (es.reverse.takeWhile fun e => !e.succeeds i).filterMap (PeerEvent.failedAt i)

/-- The peer is cooling at the time `nowMs`: it has failed `max_fails` times, at least once, since
its last success, and `fail_timeout` has not passed since the last failure. -/
def Cooling (p : Peer) (failures : List UInt64) (nowMs : UInt64) : Prop :=
  max p.maxFails.toNat 1 ≤ failures.length ∧
    ∃ last, failures.head? = some last ∧ nowMs.toNat < last.toNat + Text.asMillis p.failTimeout

theorem failuresSince_concat (i : Nat) (es : List PeerEvent) (e : PeerEvent) :
    failuresSince i (es ++ [e]) =
      if e.succeeds i then [] else (e.failedAt i).toList ++ failuresSince i es := by
  rw [failuresSince, List.reverse_append, List.reverse_singleton, List.singleton_append,
    List.takeWhile_cons]
  cases hs : e.succeeds i with
  | true => rfl
  | false =>
      simp only [Bool.not_false, if_true, Bool.false_eq_true, if_false, List.filterMap_cons]
      cases e.failedAt i with
      | none => rfl
      | some t => rfl

/-! ## The counters follow the history -/

/-- The counters of a peer say what the failures since its last success are. -/
structure Tracks (p : Peer) (failures : List UInt64) : Prop where
  count : p.consecutiveFailures.toNat = failures.length
  cooling : max p.maxFails.toNat 1 ≤ failures.length → ∃ last, failures.head? = some last ∧
    p.failedUntilMs.toNat = last.toNat + Text.asMillis p.failTimeout
  healthy : failures.length < max p.maxFails.toNat 1 → p.failedUntilMs = 0

/-- A peer is available exactly if it is neither down nor cooling. -/
theorem Tracks.isAvailable_iff {p : Peer} {failures : List UInt64} (h : Tracks p failures)
    (nowMs : UInt64) :
    p.isAvailable nowMs = true ↔ p.down = false ∧ ¬ Cooling p failures nowMs := by
  rw [Peer.isAvailable]
  cases hdown : p.down with
  | true => simp
  | false =>
      simp only [Bool.false_eq_true, if_false, Bool.or_eq_true, beq_iff_eq, decide_eq_true_eq,
        true_and]
      rcases Nat.lt_or_ge failures.length (max p.maxFails.toNat 1) with hfew | hmany
      · refine ⟨fun _ hcool => ?_, fun _ => Or.inl (h.healthy hfew)⟩
        exact absurd hcool.1 (Nat.not_le.2 hfew)
      · obtain ⟨last, hlast, huntil⟩ := h.cooling hmany
        rw [UInt64.le_iff_toNat_le, huntil]
        constructor
        · rintro hready ⟨-, last', hlast', hlt⟩
          obtain rfl := Option.some.inj (hlast.symm.trans hlast')
          rcases hready with hzero | hpast
          · rw [hzero] at huntil
            have hnone : (0 : UInt64).toNat = 0 := rfl
            omega
          · omega
        · intro hcool
          right
          by_contra hlt
          exact hcool ⟨hmany, last, hlast, Nat.not_le.1 hlt⟩

theorem Tracks.recordSuccess (p : Peer) : Tracks p.recordSuccess [] where
  count := rfl
  cooling := by
    intro h
    have hone : 1 ≤ max p.recordSuccess.maxFails.toNat 1 := le_max_right _ _
    exact absurd (le_trans hone h) (by simp)
  healthy := fun _ => rfl

/-- Recording a failure keeps the counters right, while they do not overflow. -/
theorem Tracks.recordFailure {p : Peer} {failures : List UInt64} (h : Tracks p failures)
    {nowMs : UInt64} (hcount : failures.length + 1 < 2 ^ 32)
    (hclock : nowMs.toNat + Text.asMillis p.failTimeout < 2 ^ 64) :
    Tracks (p.recordFailure nowMs) (nowMs :: failures) := by
  have hnext : (p.consecutiveFailures + 1).toNat = failures.length + 1 := by
    rw [UInt32.toNat_add, h.count]
    exact Nat.mod_eq_of_lt hcount
  have hreached : max p.maxFails 1 ≤ p.consecutiveFailures + 1 ↔
      max p.maxFails.toNat 1 ≤ failures.length + 1 := by
    rw [UInt32.le_iff_toNat_le, Balancer.toNat_max_one, hnext]
  have huntil : (nowMs + UInt64.ofNat (Text.asMillis p.failTimeout)).toNat =
      nowMs.toNat + Text.asMillis p.failTimeout := by
    rw [UInt64.toNat_add, UInt64.toNat_ofNat', Nat.add_mod_mod]
    exact Nat.mod_eq_of_lt hclock
  simp only [Peer.recordFailure]
  split
  · rename_i hmany
    have hmany' := hreached.1 hmany
    exact ⟨hnext, fun _ => ⟨nowMs, rfl, huntil⟩, fun hfew => absurd hmany' (Nat.not_le.2 hfew)⟩
  -- Too few failures still, so there were too few before and no cooldown is set.
  · rename_i hfew
    have hfew' : ¬ max p.maxFails.toNat 1 ≤ failures.length + 1 := fun hm => hfew (hreached.2 hm)
    refine ⟨hnext, fun hmany => absurd hmany hfew', fun _ => h.healthy ?_⟩
    omega

/-- One event keeps the counters right. -/
theorem Tracks.onPeer {p : Peer} {i : Nat} {es : List PeerEvent}
    (h : Tracks p (failuresSince i es)) (e : PeerEvent)
    (hrow : (failuresSince i (es ++ [e])).length < 2 ^ 32)
    (hclock : ∀ nowMs, e = .failure i nowMs →
      nowMs.toNat + Text.asMillis p.failTimeout < 2 ^ 64) :
    Tracks (e.onPeer i p) (failuresSince i (es ++ [e])) := by
  rw [failuresSince_concat] at hrow ⊢
  cases e with
  | success j =>
      by_cases hj : j = i
      · simp only [PeerEvent.onPeer, PeerEvent.succeeds, hj, decide_true, if_true]
        exact Tracks.recordSuccess p
      · simp only [PeerEvent.onPeer, PeerEvent.succeeds, PeerEvent.failedAt, hj, decide_false,
          Bool.false_eq_true, if_false]
        exact h
  | failure j nowMs =>
      by_cases hj : j = i
      · simp only [PeerEvent.succeeds, PeerEvent.failedAt, hj, Bool.false_eq_true, if_false,
          if_true] at hrow
        simp only [PeerEvent.onPeer, PeerEvent.succeeds, PeerEvent.failedAt, hj,
          Bool.false_eq_true, if_false, if_true]
        exact h.recordFailure hrow (hclock nowMs (by rw [hj]))
      · simp only [PeerEvent.onPeer, PeerEvent.succeeds, PeerEvent.failedAt, hj,
          Bool.false_eq_true, if_false]
        exact h
  | enter j =>
      simp only [PeerEvent.onPeer]
      split
      · exact ⟨h.count, h.cooling, h.healthy⟩
      · exact h
  | leave j =>
      simp only [PeerEvent.onPeer]
      split
      · exact ⟨h.count, h.cooling, h.healthy⟩
      · exact h
  | pick nowMs clientIp exclude => exact h

/-- An event changes nothing but the counters of a peer. -/
theorem PeerEvent.onPeer_counters (i : Nat) (p : Peer) (e : PeerEvent) :
    ∃ inFlight failures untilMs, e.onPeer i p =
      { p with
        inFlight := inFlight
        consecutiveFailures := failures
        failedUntilMs := untilMs } := by
  cases e with
  | success j =>
      simp only [PeerEvent.onPeer]
      split
      · exact ⟨_, _, _, rfl⟩
      · exact ⟨_, _, _, rfl⟩
  | failure j nowMs =>
      simp only [PeerEvent.onPeer, Peer.recordFailure]
      split
      · split
        · exact ⟨_, _, _, rfl⟩
        · exact ⟨_, _, _, rfl⟩
      · exact ⟨_, _, _, rfl⟩
  | enter j =>
      simp only [PeerEvent.onPeer]
      split
      · exact ⟨_, _, _, rfl⟩
      · exact ⟨_, _, _, rfl⟩
  | leave j =>
      simp only [PeerEvent.onPeer]
      split
      · exact ⟨_, _, _, rfl⟩
      · exact ⟨_, _, _, rfl⟩
  | pick nowMs clientIp exclude => exact ⟨_, _, _, rfl⟩

theorem PeerEvent.onPeer_failTimeout (i : Nat) (p : Peer) (e : PeerEvent) :
    (e.onPeer i p).failTimeout = p.failTimeout := by
  obtain ⟨_, _, _, h⟩ := e.onPeer_counters i p
  rw [h]

/-! ## Every run -/

/-- No peer of the balancer has failed yet. -/
def Balancer.Fresh (b : Balancer) : Prop :=
  ∀ p ∈ b.peers, p.consecutiveFailures = 0 ∧ p.failedUntilMs = 0

/-- The clock and the cooldown of every recorded failure fit 64 bits together. -/
def ClockFits (b : Balancer) (es : List PeerEvent) : Prop :=
  ∀ i nowMs p, PeerEvent.failure i nowMs ∈ es → b.peers[i]? = some p →
    nowMs.toNat + Text.asMillis p.failTimeout < 2 ^ 64

/-- At no time has a peer failed `2 ^ 32` times in a row. -/
def RowsFit (es : List PeerEvent) : Prop :=
  ∀ pre post i, es = pre ++ post → (failuresSince i pre).length < 2 ^ 32

/-- Along every run the counters of every peer follow the history. -/
theorem tracks_of_run (hash : IpAddr → UInt64) {b : Balancer} (hfresh : b.Fresh)
    {es : List PeerEvent} (hclock : ClockFits b es) (hrows : RowsFit es) {i : Nat} {p : Peer}
    (h : (run (Balancer.step hash) b es).peers[i]? = some p) : Tracks p (failuresSince i es) := by
  -- The cooldown of a peer is configuration, so the clock bound carries over to the run.
  suffices hboth : Tracks p (failuresSince i es) ∧
      ∃ p₀, b.peers[i]? = some p₀ ∧ p.failTimeout = p₀.failTimeout from hboth.1
  induction es using List.reverseRecOn generalizing p with
  | nil =>
      obtain ⟨hcount, huntil⟩ := hfresh p (List.mem_of_getElem? h)
      have hone : 1 ≤ max p.maxFails.toNat 1 := le_max_right _ _
      refine ⟨⟨?_, fun hmany => ?_, fun _ => huntil⟩, p, h, rfl⟩
      · rw [hcount]
        rfl
      · exact absurd (le_trans hone hmany) (by simp [failuresSince])
  | append_singleton es e ih =>
      have hclock' : ClockFits b es := fun j nowMs q hmem =>
        hclock j nowMs q (List.mem_append_left _ hmem)
      have hrows' : RowsFit es := by
        intro pre post j heq
        exact hrows pre (post ++ [e]) j (by rw [heq, List.append_assoc])
      rw [run_concat, Balancer.step_peers] at h
      obtain ⟨q, hq, rfl⟩ := Option.map_eq_some_iff.1 h
      obtain ⟨htracks, q₀, hq₀, htimeout⟩ := ih hclock' hrows' hq
      refine ⟨htracks.onPeer e (hrows (es ++ [e]) [] i (by simp)) ?_, q₀, hq₀, ?_⟩
      · rintro nowMs rfl
        rw [htimeout]
        exact hclock i nowMs q₀ (List.mem_append_right _ (List.mem_singleton.2 rfl)) hq₀
      · rw [PeerEvent.onPeer_failTimeout, htimeout]

/-- **Sound peer selection.** After every run of events on a fresh balancer, a picked peer is not
down, not excluded and not cooling; and if it is a backup, every primary that is not excluded is
down or cooling. -/
theorem pick_sound (hash : IpAddr → UInt64) (b : Balancer) (hfresh : b.Fresh)
    (es : List PeerEvent) (hclock : ClockFits b es) (hrows : RowsFit es) (nowMs : UInt64)
    (clientIp : IpAddr) (exclude : List String) (p : Peer) (i : Nat)
    (hpick : (Balancer.pickInner hash (run (Balancer.step hash) b es) nowMs clientIp exclude).1 =
      some (p, i)) :
    p.down = false ∧ p.addr ∉ exclude ∧ ¬ Cooling p (failuresSince i es) nowMs ∧
      (p.backup = true → ∀ q j, (run (Balancer.step hash) b es).peers[j]? = some q →
        q.backup = false → q.addr ∉ exclude →
          q.down = true ∨ Cooling q (failuresSince j es) nowMs) := by
  obtain ⟨hget, havailable, hexclude, hbackup⟩ :=
    Balancer.mem_pool (Balancer.mem_pool_of_pickInner hpick)
  have htracks := tracks_of_run hash hfresh hclock hrows hget
  obtain ⟨hdown, hcool⟩ := (htracks.isAvailable_iff nowMs).1 havailable
  refine ⟨hdown, hexclude, hcool, ?_⟩
  intro hp q j hq hprimary hqexclude
  -- A primary that is neither down nor cooling would be a candidate, but there is none.
  by_contra hnot
  rw [not_or] at hnot
  have hqavailable : q.isAvailable nowMs = true := by
    apply ((tracks_of_run hash hfresh hclock hrows hq).isAvailable_iff nowMs).2
    exact ⟨Bool.eq_false_iff.2 hnot.1, hnot.2⟩
  have hmem : (q, j) ∈ (run (Balancer.step hash) b es).candidates false nowMs exclude :=
    Balancer.mem_candidates.2 ⟨hq, hprimary, hqavailable, hqexclude⟩
  rw [hbackup hp] at hmem
  cases hmem

/-- A balancer with a primary and a backup, each with `max_fails` 1 and a cooldown of ten
seconds. -/
def primaryAndBackup : Balancer where
  name := "backend"
  method := .leastConn
  peers := [⟨"10.0.0.1:80", 1, 1, Text.fromSecs 10, false, false, 0, 0, 0⟩,
    ⟨"10.0.0.2:80", 1, 1, Text.fromSecs 10, true, false, 0, 0, 0⟩]
  scheme := .http

/-- One failure of the primary at 1000 ms lets a pick at 5000 ms take the backup, since the
primary is cooling. -/
theorem pick_sound_backup :
    ∃ p i, (Balancer.pickInner (fun _ => 0)
        (run (Balancer.step fun _ => 0) primaryAndBackup [.failure 0 1000]) 5000
        (.v4 ⟨192, 0, 2, 7⟩) []).1 = some (p, i) ∧ p.backup = true ∧ p.down = false ∧
      ∀ q j, (run (Balancer.step fun _ => 0) primaryAndBackup [.failure 0 1000]).peers[j]? =
        some q → q.backup = false → q.addr ∉ ([] : List String) →
          q.down = true ∨ Cooling q (failuresSince j [.failure 0 1000]) 5000 := by
  have hfresh : primaryAndBackup.Fresh := by
    intro p hp
    fin_cases hp
    · exact ⟨rfl, rfl⟩
    · exact ⟨rfl, rfl⟩
  have hclock : ClockFits primaryAndBackup [.failure 0 1000] := by
    intro i nowMs p hmem hp
    obtain ⟨rfl, rfl⟩ := PeerEvent.failure.inj (List.mem_singleton.1 hmem)
    obtain rfl := Option.some.inj hp
    decide
  have hrows : RowsFit [.failure 0 1000] := by
    intro pre post i heq
    have hlen : (failuresSince i pre).length ≤ pre.length := by
      refine le_trans (List.length_filterMap_le _ _) ?_
      exact le_trans (List.takeWhile_sublist _).length_le (by simp)
    have htotal := congrArg List.length heq
    simp at htotal
    omega
  obtain ⟨hdown, -, -, hbackup⟩ := pick_sound (fun _ => 0) primaryAndBackup hfresh
    [.failure 0 1000] hclock hrows 5000 (.v4 ⟨192, 0, 2, 7⟩) [] _ _ rfl
  exact ⟨_, _, rfl, rfl, hdown, hbackup rfl⟩

end Elrond.Upstream
