import Elrond.Upstream.Selection
import Elrond.Lib.Run
import Mathlib.Data.List.Perm.Basic

/-!
# Health updates of one peer, interleaved

`record_success` and `record_failure` each touch two atomics without a lock: the counter
`consecutive_failures` first, then, when the call goes on, the cooldown `failed_until_ms`. Here
every atomic operation is one step, and a run is any interleaving of the steps of any number of
calls on one peer. The counter alone is always what the calls in the order of their first steps
give. The cooldown is what the last store left, so a quiet state is that of a sequential order
exactly if the last store of every busy period fits the counter (`quiet_sequential_iff`).
-/

set_option autoImplicit false

namespace Elrond.Upstream

open Elrond.Lib

/-- A call of `record_success`, or of `record_failure` with the time its `now_ms()` gives. -/
inductive HealthCall where
  | success
  | failure (nowMs : UInt64)
deriving DecidableEq, Repr

namespace HealthCall

def isFailure : HealthCall → Bool
  | .success => false
  | .failure _ => true

end HealthCall

namespace Peer

/-- The failures in a row that take the peer out of rotation: `max_fails.max(1)`. -/
def threshold (p : Peer) : UInt32 := max p.maxFails 1

/-- The call as a whole. -/
def record (p : Peer) : HealthCall → Peer
  | .success => p.recordSuccess
  | .failure nowMs => p.recordFailure nowMs

/-- The first step of a call: the store to `consecutive_failures`, or the `fetch_add` on it. -/
def countCall (p : Peer) : HealthCall → Peer
  | .success => { p with consecutiveFailures := 0 }
  | .failure _ => { p with consecutiveFailures := p.consecutiveFailures + 1 }

/-- Whether a call that has just made its first step goes on to a second. -/
def goesOn (p : Peer) : HealthCall → Bool
  | .success => true
  | .failure _ => p.threshold ≤ p.consecutiveFailures

/-- The second step of a call: the store to `failed_until_ms`. -/
def storeUntil (p : Peer) : HealthCall → Peer
  | .success => { p with failedUntilMs := 0 }
  | .failure nowMs =>
      { p with failedUntilMs := nowMs + UInt64.ofNat (Text.asMillis p.failTimeout) }

theorem goesOn_failure {p : Peer} {nowMs : UInt64} :
    p.goesOn (.failure nowMs) = true ↔ p.threshold ≤ p.consecutiveFailures :=
  decide_eq_true_iff

/-- Without other calls in between, the two steps are the call. -/
theorem record_eq (p : Peer) (c : HealthCall) :
    p.record c =
      if (p.countCall c).goesOn c then (p.countCall c).storeUntil c else p.countCall c := by
  cases c with
  | success => rfl
  | failure nowMs =>
      by_cases hmany : p.threshold ≤ p.consecutiveFailures + 1
      · rw [if_pos (goesOn_failure.2 hmany)]
        exact if_pos hmany
      · rw [if_neg (fun h => hmany (goesOn_failure.1 h))]
        exact if_neg hmany

/-- The end of a cooldown that starts at `nowMs`. -/
def cooldown (p : Peer) (nowMs : UInt64) : UInt64 :=
  nowMs + UInt64.ofNat (Text.asMillis p.failTimeout)

/-- The peer with other health counters. -/
def withHealth (p : Peer) (failures : UInt32) (untilMs : UInt64) : Peer :=
  { p with consecutiveFailures := failures, failedUntilMs := untilMs }

@[simp] theorem withHealth_failures (p : Peer) (n : UInt32) (t : UInt64) :
    (p.withHealth n t).consecutiveFailures = n := rfl

@[simp] theorem withHealth_until (p : Peer) (n : UInt32) (t : UInt64) :
    (p.withHealth n t).failedUntilMs = t := rfl

@[simp] theorem withHealth_threshold (p : Peer) (n : UInt32) (t : UInt64) :
    (p.withHealth n t).threshold = p.threshold := rfl

@[simp] theorem countCall_success (p : Peer) (n : UInt32) (t : UInt64) :
    (p.withHealth n t).countCall .success = p.withHealth 0 t := rfl

@[simp] theorem countCall_failure (p : Peer) (n : UInt32) (t nowMs : UInt64) :
    (p.withHealth n t).countCall (.failure nowMs) = p.withHealth (n + 1) t := rfl

@[simp] theorem storeUntil_success (p : Peer) (n : UInt32) (t : UInt64) :
    (p.withHealth n t).storeUntil .success = p.withHealth n 0 := rfl

@[simp] theorem storeUntil_failure (p : Peer) (n : UInt32) (t nowMs : UInt64) :
    (p.withHealth n t).storeUntil (.failure nowMs) = p.withHealth n (p.cooldown nowMs) := rfl

@[simp] theorem record_success (p : Peer) (n : UInt32) (t : UInt64) :
    (p.withHealth n t).record .success = p.withHealth 0 0 := rfl

theorem record_failure (p : Peer) (n : UInt32) (t nowMs : UInt64) :
    (p.withHealth n t).record (.failure nowMs) =
      p.withHealth (n + 1) (if p.threshold ≤ n + 1 then p.cooldown nowMs else t) := by
  rw [record_eq]
  by_cases hmany : p.threshold ≤ n + 1
  · rw [if_pos hmany, if_pos (goesOn_failure.2 hmany)]
    rfl
  · rw [if_neg hmany, if_neg (fun h => hmany (goesOn_failure.1 h))]
    rfl

theorem toNat_threshold (p : Peer) : p.threshold.toNat = max p.maxFails.toNat 1 :=
  Balancer.toNat_max_one p.maxFails

theorem not_threshold_le_zero (p : Peer) : ¬ p.threshold ≤ 0 := by
  rw [UInt32.le_iff_toNat_le, toNat_threshold]
  have hone : 1 ≤ max p.maxFails.toNat 1 := le_max_right _ _
  exact Nat.not_le.2 hone

end Peer

/-! ## Interleaved runs -/

/-- A peer with the calls between their two steps, and all calls begun so far in the order of
their first steps. -/
structure Interleaved where
  peer : Peer
  pending : List HealthCall := []
  begun : List HealthCall := []

/-- A scheduled step: the first of a new call, or the second of the pending call at a position. -/
inductive HealthStep where
  | start (c : HealthCall)
  | store (i : Nat)
deriving DecidableEq, Repr

namespace Interleaved

/-- One atomic operation. -/
def step (s : Interleaved) : HealthStep → Interleaved
  | .start c =>
      let p := s.peer.countCall c
      { peer := p
        pending := if p.goesOn c then s.pending ++ [c] else s.pending
        begun := s.begun ++ [c] }
  | .store i =>
      match s.pending[i]? with
      | some c => { s with peer := s.peer.storeUntil c, pending := s.pending.eraseIdx i }
      | none => s

/-- No call is in progress. -/
def Quiet (s : Interleaved) : Prop := s.pending = []

end Interleaved

/-- The peer after the calls, one after another. -/
def sequential (p : Peer) (calls : List HealthCall) : Peer := run Peer.record p calls

/-- The state is that of the begun calls in some sequential order, and the peer has a cooldown
only after enough failures in a row. -/
def Sequential (p : Peer) (s : Interleaved) : Prop :=
  (∃ order, order.Perm s.begun ∧ s.peer = sequential p order) ∧
    (s.peer.failedUntilMs ≠ 0 → p.threshold ≤ s.peer.consecutiveFailures)

/-- What a step must meet: when the last pending call makes its store, the counter is on the side
of the threshold that the store stands for; and no failure is counted on a full counter while
nothing is pending. -/
def InStep (s : Interleaved) : HealthStep → Prop
  | .start .success => True
  | .start (.failure _) => s.pending = [] → s.peer.consecutiveFailures + 1 ≠ 0
  | .store i =>
      match s.pending, i with
      | [.success], 0 => s.peer.consecutiveFailures < s.peer.threshold
      | [.failure _], 0 => s.peer.threshold ≤ s.peer.consecutiveFailures
      | _, _ => True

/-! ## Sequential orders -/

/-- The counter after the calls: the failures since the last success, in 32 bits. -/
def counter (calls : List HealthCall) : UInt32 :=
  calls.foldl (fun n c => if c.isFailure then n + 1 else 0) 0

theorem counter_concat (calls : List HealthCall) (c : HealthCall) :
    counter (calls ++ [c]) = if c.isFailure then counter calls + 1 else 0 := by
  simp only [counter, List.foldl_append, List.foldl_cons, List.foldl_nil]

/-- The counter looks only at which calls are failures. -/
theorem counter_eq_of_kinds {calls calls' : List HealthCall}
    (h : calls.map HealthCall.isFailure = calls'.map HealthCall.isFailure) :
    counter calls = counter calls' := by
  have hmap : ∀ l : List HealthCall,
      counter l = (l.map HealthCall.isFailure).foldl (fun n b => if b then n + 1 else 0) 0 := by
    intro l
    rw [counter, List.foldl_map]
  rw [hmap, hmap, h]

theorem sequential_concat (p : Peer) (calls : List HealthCall) (c : HealthCall) :
    sequential p (calls ++ [c]) = (sequential p calls).record c :=
  run_concat _ _ _ _

/-- The calls change nothing but the two health counters, and the first of them is `counter`. -/
theorem sequential_eq (p : Peer) (calls : List HealthCall) :
    ∃ t, sequential (p.withHealth 0 0) calls = p.withHealth (counter calls) t := by
  induction calls using List.reverseRecOn with
  | nil => exact ⟨0, rfl⟩
  | append_singleton calls c ih =>
      obtain ⟨t, ht⟩ := ih
      rw [sequential_concat, ht, counter_concat]
      cases c with
      | success => exact ⟨0, rfl⟩
      | failure nowMs => exact ⟨_, Peer.record_failure _ _ _ _⟩

/-- Ending with a failure that reaches the threshold leaves its cooldown. -/
theorem sequential_concat_failure (p : Peer) (calls : List HealthCall) (nowMs : UInt64)
    (hmany : p.threshold ≤ counter (calls ++ [.failure nowMs])) :
    sequential (p.withHealth 0 0) (calls ++ [.failure nowMs]) =
      p.withHealth (counter (calls ++ [.failure nowMs])) (p.cooldown nowMs) := by
  obtain ⟨t, ht⟩ := sequential_eq p calls
  have hcount : counter (calls ++ [.failure nowMs]) = counter calls + 1 := counter_concat _ _
  rw [hcount] at hmany
  rw [sequential_concat, ht, Peer.record_failure, if_pos hmany, hcount]

/-- With the threshold reached, the last call is a failure. -/
theorem last_failure_of_threshold (p : Peer) {calls : List HealthCall}
    (hmany : p.threshold ≤ counter calls) :
    ∃ init nowMs, calls = init ++ [.failure nowMs] := by
  rcases List.eq_nil_or_concat calls with rfl | ⟨init, c, rfl⟩
  · exact absurd hmany p.not_threshold_le_zero
  · cases c with
    | success =>
        rw [List.concat_eq_append, counter_concat] at hmany
        exact absurd hmany p.not_threshold_le_zero
    | failure nowMs => exact ⟨init, nowMs, by rw [List.concat_eq_append]⟩

/-- Once the threshold is reached, some order of the calls leaves the cooldown of any failure
among them: exchange it with the last call. -/
theorem exists_order_cooling (p : Peer) {calls : List HealthCall} {nowMs : UInt64}
    (hmany : p.threshold ≤ counter calls) (hmem : .failure nowMs ∈ calls) :
    ∃ order, order.Perm calls ∧ sequential (p.withHealth 0 0) order =
      p.withHealth (counter calls) (p.cooldown nowMs) := by
  obtain ⟨init, lastMs, rfl⟩ := last_failure_of_threshold p hmany
  rcases List.mem_append.1 hmem with hinit | hlast
  · obtain ⟨pre, post, rfl⟩ := List.append_of_mem hinit
    have hkinds : counter ((pre ++ .failure lastMs :: post) ++ [.failure nowMs]) =
        counter ((pre ++ .failure nowMs :: post) ++ [.failure lastMs]) :=
      counter_eq_of_kinds (by simp [HealthCall.isFailure])
    refine ⟨(pre ++ .failure lastMs :: post) ++ [.failure nowMs], ?_, ?_⟩
    · have hswap : ∀ x y : HealthCall,
          ((pre ++ x :: post) ++ [y]).Perm (x :: y :: (pre ++ post)) := by
        intro x y
        exact (List.perm_append_singleton y _).trans
          ((List.perm_middle.cons y).trans (List.Perm.swap x y _))
      exact (hswap _ _).trans ((List.Perm.swap _ _ _).trans (hswap _ _).symm)
    · rw [← hkinds] at hmany ⊢
      exact sequential_concat_failure p _ nowMs hmany
  · obtain rfl := HealthCall.failure.inj (List.mem_singleton.1 hlast)
    exact ⟨_, List.Perm.refl _, sequential_concat_failure p _ _ hmany⟩

/-- Failures that stay below the threshold are only counted. -/
theorem run_record_few (p : Peer) {failures : List HealthCall}
    (hall : ∀ c ∈ failures, c.isFailure = true) {n : UInt32}
    (hfew : n.toNat + failures.length < p.threshold.toNat) :
    run Peer.record (p.withHealth n 0) failures =
      p.withHealth (n + UInt32.ofNat failures.length) 0 := by
  induction failures generalizing n with
  | nil => simp
  | cons c failures ih =>
      rw [List.length_cons] at hfew
      have hbound := p.threshold.toNat_lt
      have hnext : (n + 1).toNat = n.toNat + 1 := by
        have hone : (1 : UInt32).toNat = 1 := rfl
        rw [UInt32.toNat_add, hone]
        exact Nat.mod_eq_of_lt (by omega)
      cases c with
      | success => exact absurd (hall _ List.mem_cons_self) (by decide)
      | failure nowMs =>
          have hbelow : ¬ p.threshold ≤ n + 1 := by
            rw [UInt32.le_iff_toNat_le, hnext]
            omega
          rw [run_cons, Peer.record_failure, if_neg hbelow,
            ih (fun c hc => hall c (List.mem_cons_of_mem _ hc)) (by omega), List.length_cons]
          congr 1
          rw [UInt32.ofNat_add, UInt32.add_comm (UInt32.ofNat _), UInt32.add_assoc]
          rfl

/-- Successes, at least one, clear both counters. -/
theorem run_record_successes (p : Peer) {successes : List HealthCall}
    (hall : ∀ c ∈ successes, c.isFailure = false) (hne : successes ≠ []) (n : UInt32)
    (t : UInt64) : run Peer.record (p.withHealth n t) successes = p.withHealth 0 0 := by
  induction successes generalizing n t with
  | nil => exact absurd rfl hne
  | cons c successes ih =>
      cases c with
      | failure nowMs => exact absurd (hall _ List.mem_cons_self) (by simp [HealthCall.isFailure])
      | success =>
          rw [run_cons, Peer.record_success]
          rcases eq_or_ne successes [] with rfl | hne'
          · rfl
          · exact ih (fun c hc => hall c (List.mem_cons_of_mem _ hc)) hne' 0 0

/-- With a success among the calls, some order of them leaves any number of failures below the
threshold: put the successes before just these. -/
theorem exists_order_healthy (p : Peer) {calls : List HealthCall} {n : UInt32}
    (hsuccess : .success ∈ calls) (hfew : n < p.threshold)
    (hn : n.toNat ≤ calls.countP HealthCall.isFailure) :
    ∃ order, order.Perm calls ∧
      sequential (p.withHealth 0 0) order = p.withHealth n 0 := by
  let failures := calls.filter HealthCall.isFailure
  let successes := calls.filter fun c => !c.isFailure
  have hperm : (failures ++ successes).Perm calls := List.filter_append_perm _ _
  refine ⟨failures.drop n.toNat ++ (successes ++ failures.take n.toNat), ?_, ?_⟩
  · have hsplit : (failures.drop n.toNat ++ failures.take n.toNat).Perm failures := by
      refine List.perm_append_comm.trans ?_
      rw [List.take_append_drop]
    refine List.Perm.trans ?_ hperm
    refine (List.perm_append_comm.append_left _).trans ?_
    rw [← List.append_assoc]
    exact hsplit.append_right _
  · have hlen : (failures.take n.toNat).length = n.toNat := by
      rw [List.length_take, ← List.countP_eq_length_filter]
      exact min_eq_left hn
    have hne : successes ≠ [] :=
      List.ne_nil_of_mem (List.mem_filter.2 ⟨hsuccess, rfl⟩)
    obtain ⟨t, ht⟩ := sequential_eq p (failures.drop n.toNat)
    have hsuccesses : ∀ c ∈ successes, c.isFailure = false := by
      intro c hc
      simpa using (List.mem_filter.1 hc).2
    rw [sequential, run_append, run_append]
    rw [sequential] at ht
    rw [ht, run_record_successes p hsuccesses hne, run_record_few p, hlen]
    · simp
    · exact fun c hc => (List.mem_filter.1 (List.mem_of_mem_take hc)).2
    · rw [hlen]
      simpa using UInt32.lt_iff_toNat_lt.1 hfew

/-! ## What every interleaving keeps -/

/-- What holds after every step of the calls on a fresh peer `p`. -/
structure Follows (p : Peer) (s : Interleaved) : Prop where
  /-- The counter is that of the calls in the order of their first steps. -/
  peer : s.peer = p.withHealth (counter s.begun) s.peer.failedUntilMs
  /-- The cooldown is none, or that of some failure. -/
  until_ : s.peer.failedUntilMs = 0 ∨
    ∃ nowMs, .failure nowMs ∈ s.begun ∧ s.peer.failedUntilMs = p.cooldown nowMs
  pending : ∀ c ∈ s.pending, c ∈ s.begun
  /-- No cooldown of the calls ends at zero. -/
  clock : ∀ nowMs, .failure nowMs ∈ s.begun → p.cooldown nowMs ≠ 0
  /-- Without any success, a failure that went on is still pending or its cooldown shows. -/
  noSuccess : .success ∉ s.begun → s.pending = [] → s.peer.failedUntilMs = 0 →
    s.peer = sequential (p.withHealth 0 0) s.begun

theorem Follows.init (p : Peer) : Follows p { peer := p.withHealth 0 0 } where
  peer := rfl
  until_ := Or.inl rfl
  pending := by simp
  clock := by simp
  noSuccess := fun _ _ _ => rfl

theorem counter_le_countP (calls : List HealthCall) :
    (counter calls).toNat ≤ calls.countP HealthCall.isFailure := by
  induction calls using List.reverseRecOn with
  | nil => exact Nat.le_refl 0
  | append_singleton calls c ih =>
      rw [counter_concat, List.countP_append, List.countP_singleton]
      cases c with
      | success => exact Nat.zero_le _
      | failure nowMs =>
          have hle : (counter calls + 1).toNat ≤ (counter calls).toNat + 1 := by
            rw [UInt32.toNat_add]
            exact Nat.mod_le _ _
          exact hle.trans (Nat.add_le_add_right ih 1)

/-- What starting a call does to a state that follows. -/
theorem Follows.start_peer {p : Peer} {s : Interleaved} (h : Follows p s) (c : HealthCall) :
    s.peer.countCall c = p.withHealth (counter (s.begun ++ [c])) s.peer.failedUntilMs := by
  rw [h.peer, counter_concat]
  cases c with
  | success => rfl
  | failure nowMs => rfl

theorem Follows.store_peer {p : Peer} {s : Interleaved} (h : Follows p s) (c : HealthCall) :
    s.peer.storeUntil c = p.withHealth (counter s.begun) (s.peer.storeUntil c).failedUntilMs := by
  rw [h.peer]
  cases c with
  | success => rfl
  | failure nowMs => rfl

/-- Starting a call keeps what every interleaving keeps. -/
theorem Follows.start {p : Peer} {s : Interleaved} (h : Follows p s) {c : HealthCall}
    (hclock : ∀ nowMs, c = .failure nowMs → p.cooldown nowMs ≠ 0) :
    Follows p (s.step (.start c)) := by
  have hpeer := h.start_peer c
  have huntil : (s.peer.countCall c).failedUntilMs = s.peer.failedUntilMs := by
    rw [hpeer]
    rfl
  constructor
  case peer =>
    show s.peer.countCall c =
      p.withHealth (counter (s.begun ++ [c])) (s.peer.countCall c).failedUntilMs
    rw [huntil]
    exact hpeer
  case until_ =>
    show (s.peer.countCall c).failedUntilMs = 0 ∨ _
    rw [huntil]
    rcases h.until_ with hzero | ⟨nowMs, hmem, hcool⟩
    · exact Or.inl hzero
    · exact Or.inr ⟨nowMs, List.mem_append_left _ hmem, huntil.trans hcool⟩
  case pending =>
    intro c' hc'
    show c' ∈ s.begun ++ [c]
    rw [Interleaved.step] at hc'
    simp only at hc'
    split at hc'
    · rcases List.mem_append.1 hc' with hold | hnew
      · exact List.mem_append_left _ (h.pending c' hold)
      · exact List.mem_append_right _ hnew
    · exact List.mem_append_left _ (h.pending c' hc')
  case clock =>
    intro nowMs hmem
    rcases List.mem_append.1 hmem with hold | hnew
    · exact h.clock nowMs hold
    · exact hclock nowMs (List.mem_singleton.1 hnew).symm
  case noSuccess =>
    intro hnone hquiet hzero
    show s.peer.countCall c = sequential _ (s.begun ++ [c])
    have hgo : (s.peer.countCall c).goesOn c = false := by
      by_contra hgo
      rw [Bool.not_eq_false] at hgo
      simp [Interleaved.step, hgo] at hquiet
    have hquiet' : s.pending = [] := by
      simpa [Interleaved.step, hgo] using hquiet
    have hold := h.noSuccess (fun hmem => hnone (List.mem_append_left _ hmem)) hquiet'
      (huntil.symm.trans hzero)
    rw [sequential_concat, ← hold, Peer.record_eq, hgo]
    rfl

/-- So does the store of a pending call. -/
theorem Follows.store {p : Peer} {s : Interleaved} (h : Follows p s) (i : Nat) :
    Follows p (s.step (.store i)) := by
  simp only [Interleaved.step]
  split
  · rename_i c hc
    have hbegun : c ∈ s.begun := h.pending c (List.mem_of_getElem? hc)
    have hcool : ∀ nowMs, c = .failure nowMs →
        (s.peer.storeUntil c).failedUntilMs = p.cooldown nowMs := by
      rintro nowMs rfl
      rw [h.peer]
      rfl
    constructor
    case peer => exact h.store_peer c
    case until_ =>
      cases c with
      | success => exact Or.inl rfl
      | failure nowMs => exact Or.inr ⟨nowMs, hbegun, hcool nowMs rfl⟩
    case pending => exact fun c' hc' => h.pending c' (List.mem_of_mem_eraseIdx hc')
    case clock => exact h.clock
    case noSuccess =>
      intro hnone _ hzero
      -- The call that stores is a failure, so the cooldown is not zero.
      cases c with
      | success => exact absurd hbegun hnone
      | failure nowMs =>
          rw [hcool nowMs rfl] at hzero
          exact absurd hzero (h.clock nowMs hbegun)
  · exact h

/-- The two counters of a peer fit: a cooldown exactly once the threshold is reached. -/
def HealthFits (p : Peer) : Prop := p.failedUntilMs ≠ 0 ↔ p.threshold ≤ p.consecutiveFailures

/-- A sequential run leaves counters that fit, if the failure that ends it has a cooldown that
does not end at zero. -/
theorem healthFits_of_sequential {p : Peer} {order : List HealthCall} {n : UInt32} {t : UInt64}
    (h : p.withHealth n t = sequential (p.withHealth 0 0) order)
    (hclock : ∀ nowMs, .failure nowMs ∈ order → p.cooldown nowMs ≠ 0)
    (hmany : p.threshold ≤ n) : t ≠ 0 := by
  obtain ⟨t', ht'⟩ := sequential_eq p order
  have hn : n = counter order := congrArg Peer.consecutiveFailures (h.trans ht')
  rw [hn] at hmany
  obtain ⟨init, nowMs, rfl⟩ := last_failure_of_threshold p hmany
  rw [sequential_concat_failure p init nowMs hmany] at h
  have ht : t = p.cooldown nowMs := congrArg Peer.failedUntilMs h
  rw [ht]
  exact hclock nowMs (List.mem_append_right _ (List.mem_singleton.2 rfl))

/-- A quiet state is that of a sequential order exactly if its counters fit. -/
theorem Follows.sequential_iff {p : Peer} {s : Interleaved} (h : Follows p s) (hquiet : s.Quiet) :
    Sequential (p.withHealth 0 0) s ↔ HealthFits s.peer := by
  have hthreshold : s.peer.threshold = p.threshold := by
    rw [h.peer]
    rfl
  have hcount : s.peer.consecutiveFailures = counter s.begun := by
    rw [h.peer]
    rfl
  rw [HealthFits, Sequential, hthreshold, hcount]
  constructor
  · rintro ⟨⟨order, hperm, horder⟩, honly⟩
    refine ⟨honly, fun hmany => ?_⟩
    rw [h.peer] at horder
    exact healthFits_of_sequential horder (fun nowMs hmem => h.clock nowMs (hperm.mem_iff.1 hmem))
      hmany
  · intro hfits
    refine ⟨?_, hfits.1⟩
    by_cases hmany : p.threshold ≤ counter s.begun
    · rcases h.until_ with hzero | ⟨nowMs, hmem, hcool⟩
      · exact absurd hzero (hfits.2 hmany)
      · obtain ⟨order, hperm, horder⟩ := exists_order_cooling p hmany hmem
        refine ⟨order, hperm, ?_⟩
        rw [horder, ← hcool]
        exact h.peer
    · have hzero : s.peer.failedUntilMs = 0 := by
        by_contra hne
        exact hmany (hfits.1 hne)
      by_cases hsuccess : .success ∈ s.begun
      · obtain ⟨order, hperm, horder⟩ := exists_order_healthy p hsuccess (UInt32.not_le.1 hmany)
          (counter_le_countP s.begun)
        refine ⟨order, hperm, ?_⟩
        rw [horder, ← hzero]
        exact h.peer
      · exact ⟨s.begun, List.Perm.refl _, h.noSuccess hsuccess hquiet hzero⟩

/-! ## The step that ends a busy period -/

/-- A counter whose next value is below the threshold is below it itself, unless it is full. -/
theorem below_iff_next_ne_zero {n threshold : UInt32} (hbelow : ¬ threshold ≤ n + 1) :
    ¬ threshold ≤ n ↔ n + 1 ≠ 0 := by
  have hone : (1 : UInt32).toNat = 1 := rfl
  have hzero : (0 : UInt32).toNat = 0 := rfl
  have hn := n.toNat_lt
  have ht := threshold.toNat_lt
  rw [UInt32.le_iff_toNat_le, UInt32.toNat_add, hone] at hbelow
  rw [UInt32.le_iff_toNat_le, ne_eq, ← UInt32.toNat_inj, UInt32.toNat_add, hone, hzero]
  omega

/-- Starting a call from a fitting state leaves a fitting state exactly if the step is in step. -/
theorem start_fits_iff {s : Interleaved} (c : HealthCall)
    (hs : s.Quiet → HealthFits s.peer) :
    ((s.step (.start c)).Quiet → HealthFits (s.step (.start c)).peer) ↔ InStep s (.start c) := by
  cases c with
  | success =>
      have hbusy : ¬ (s.step (.start .success)).Quiet := by
        simp [Interleaved.Quiet, Interleaved.step, Peer.goesOn]
      exact ⟨fun _ => trivial, fun _ hquiet => absurd hquiet hbusy⟩
  | failure nowMs =>
      by_cases hmany : s.peer.threshold ≤ s.peer.consecutiveFailures + 1
      · have hgo : (s.peer.countCall (.failure nowMs)).goesOn (.failure nowMs) = true :=
          Peer.goesOn_failure.2 hmany
        have hbusy : ¬ (s.step (.start (.failure nowMs))).Quiet := by
          simp [Interleaved.Quiet, Interleaved.step, hgo]
        refine ⟨fun _ _ hzero => ?_, fun _ hquiet => absurd hquiet hbusy⟩
        rw [hzero] at hmany
        exact s.peer.not_threshold_le_zero hmany
      · have hgo : (s.peer.countCall (.failure nowMs)).goesOn (.failure nowMs) = false :=
          Bool.eq_false_iff.2 fun hgo => hmany (Peer.goesOn_failure.1 hgo)
        have hquiet : (s.step (.start (.failure nowMs))).Quiet ↔ s.Quiet := by
          simp [Interleaved.Quiet, Interleaved.step, hgo]
        have hfits : HealthFits (s.step (.start (.failure nowMs))).peer ↔
            s.peer.failedUntilMs = 0 := by
          show (s.peer.failedUntilMs ≠ 0 ↔ s.peer.threshold ≤ s.peer.consecutiveFailures + 1) ↔ _
          rw [iff_false_right hmany, not_ne_iff]
        rw [hquiet, hfits]
        refine forall_congr' fun hidle => ?_
        have hbefore : s.peer.failedUntilMs ≠ 0 ↔
            s.peer.threshold ≤ s.peer.consecutiveFailures := hs hidle
        rw [← not_ne_iff, hbefore]
        exact below_iff_next_ne_zero hmany

/-- So does the store of a pending call. -/
theorem store_fits_iff {p : Peer} {s : Interleaved} (h : Follows p s) (i : Nat)
    (hs : s.Quiet → HealthFits s.peer) :
    ((s.step (.store i)).Quiet → HealthFits (s.step (.store i)).peer) ↔ InStep s (.store i) := by
  cases hc : s.pending[i]? with
  | none =>
      have hsame : s.step (.store i) = s := by
        simp only [Interleaved.step, hc]
      have hin : InStep s (.store i) := by
        simp only [InStep]
        split
        · rename_i hpending
          simp [hpending] at hc
        · rename_i hpending
          simp [hpending] at hc
        · trivial
      rw [hsame]
      exact ⟨fun _ => hin, fun _ => hs⟩
  | some c =>
      have hpeer : (s.step (.store i)).peer = s.peer.storeUntil c := by
        simp only [Interleaved.step, hc]
      have hpending : (s.step (.store i)).pending = s.pending.eraseIdx i := by
        simp only [Interleaved.step, hc]
      by_cases hlast : s.pending = [c] ∧ i = 0
      · obtain ⟨hone, rfl⟩ := hlast
        have hquiet : (s.step (.store 0)).Quiet := by
          rw [Interleaved.Quiet, hpending, hone]
          rfl
        rw [forall_prop_of_true hquiet, hpeer]
        cases c with
        | success =>
            have hin : InStep s (.store 0) ↔ s.peer.consecutiveFailures < s.peer.threshold := by
              simp only [InStep, hone]
            rw [hin, ← UInt32.not_le]
            exact iff_false_left (not_not_intro rfl)
        | failure nowMs =>
            have hin : InStep s (.store 0) ↔ s.peer.threshold ≤ s.peer.consecutiveFailures := by
              simp only [InStep, hone]
            have hcool : (s.peer.storeUntil (.failure nowMs)).failedUntilMs ≠ 0 := by
              rw [h.peer]
              exact h.clock nowMs (h.pending _ (by rw [hone]; exact List.mem_singleton.2 rfl))
            rw [hin]
            exact iff_true_left hcool
      · have hbusy : ¬ (s.step (.store i)).Quiet := by
          rw [Interleaved.Quiet, hpending]
          intro herase
          rcases List.eraseIdx_eq_nil_iff.1 herase with hnil | ⟨hlen, rfl⟩
          · simp [hnil] at hc
          · obtain ⟨c', hone⟩ := List.length_eq_one_iff.1 hlen
            rw [hone] at hc
            obtain rfl := Option.some.inj hc
            exact hlast ⟨hone, rfl⟩
        have hin : InStep s (.store i) := by
          simp only [InStep]
          split
          · rename_i hone
            rw [hone] at hc
            obtain rfl := Option.some.inj hc
            exact absurd ⟨hone, rfl⟩ hlast
          · rename_i hone
            rw [hone] at hc
            obtain rfl := Option.some.inj hc
            exact absurd ⟨hone, rfl⟩ hlast
          · trivial
        exact ⟨fun _ => hin, fun _ hquiet => absurd hquiet hbusy⟩

/-- Every step of a state that follows keeps fitting counters in quiet states exactly if it is in
step. -/
theorem step_fits_iff {p : Peer} {s : Interleaved} (h : Follows p s) (e : HealthStep)
    (hs : s.Quiet → HealthFits s.peer) :
    ((s.step e).Quiet → HealthFits (s.step e).peer) ↔ InStep s e := by
  cases e with
  | start c => exact start_fits_iff c hs
  | store i => exact store_fits_iff h i hs

/-- **Health updates, atomic in effect.** Let any number of `record_success` and `record_failure`
calls interleave on a fresh peer, one atomic operation a step. Every state with no call in
progress is that of the same calls in some sequential order, with a cooldown only after
`max(max_fails, 1)` failures in a row, exactly if every step of the run is in step. -/
theorem quiet_sequential_iff (p : Peer) (hfresh : p.consecutiveFailures = 0 ∧ p.failedUntilMs = 0)
    (es : List HealthStep)
    (hclock : ∀ nowMs, .start (.failure nowMs) ∈ es → p.cooldown nowMs ≠ 0) :
    Always Interleaved.step (fun s => s.Quiet → Sequential p s) { peer := p } es ↔
      AllSteps Interleaved.step InStep { peer := p } es := by
  have hp : p = p.withHealth 0 0 := by
    rw [Peer.withHealth, ← hfresh.1, ← hfresh.2]
  rw [hp] at hclock ⊢
  have hkeep : ∀ s, ∀ e ∈ es, Follows p s → Follows p (s.step e) := by
    intro s e he h
    cases e with
    | start c => exact h.start fun nowMs hc => hclock nowMs (hc ▸ he)
    | store i => exact h.store i
  refine always_iff_allSteps_of_mem hkeep (fun s e he h hs => ?_) (Follows.init p)
    (fun _ => (Follows.init p).sequential_iff rfl |>.2 ?_)
  · have hnext : ((s.step e).Quiet → Sequential (p.withHealth 0 0) (s.step e)) ↔
        ((s.step e).Quiet → HealthFits (s.step e).peer) :=
      forall_congr' fun hquiet => (hkeep s e he h).sequential_iff hquiet
    rw [hnext]
    exact step_fits_iff h e fun hquiet => (h.sequential_iff hquiet).1 (hs hquiet)
  · exact iff_of_false (fun h => h rfl) (Peer.not_threshold_le_zero _)

/-- A peer that one failure takes out of rotation for ten seconds. -/
def touchyPeer : Peer where
  addr := "10.0.0.1:80"
  weight := 1
  maxFails := 1
  failTimeout := Text.fromSecs 10
  backup := false
  down := false

/-- A failure is counted, a success runs as a whole, and the failure makes its store. -/
def overtakenFailure : List HealthStep :=
  [.start (.failure 1000), .start .success, .store 1, .store 0]

/-- The theorem at a run with two calls that do not overlap. -/
theorem quiet_sequential_iff_touchy :
    Always Interleaved.step (fun s => s.Quiet → Sequential touchyPeer s) { peer := touchyPeer }
        [.start (.failure 1000), .store 0, .start .success, .store 0] ↔
      AllSteps Interleaved.step InStep { peer := touchyPeer }
        [.start (.failure 1000), .store 0, .start .success, .store 0] :=
  quiet_sequential_iff touchyPeer ⟨rfl, rfl⟩ _ (by
    intro nowMs hmem
    simp only [List.mem_cons, HealthStep.start.injEq, HealthCall.failure.injEq, reduceCtorEq,
      List.not_mem_nil, or_false] at hmem
    rw [hmem]
    decide)

/-- A success that runs within a failure leaves the peer cooling with no failure counted. -/
theorem overtakenFailure_not_sequential :
    ¬ Always Interleaved.step (fun s => s.Quiet → Sequential touchyPeer s) { peer := touchyPeer }
      overtakenFailure := by
  intro h
  have hend := (h overtakenFailure [] (List.append_nil _).symm rfl).2
  exact absurd (hend (by decide)) (by decide)

end Elrond.Upstream
