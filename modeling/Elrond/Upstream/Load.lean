import Elrond.Lib.LeastLoaded
import Elrond.Upstream.Interleaving

/-!
# Requests in flight

`Peer::enter` counts a request in flight and the drop of its guard counts it out again; `least_conn`
compares these counts. A pick reads the counter of one peer of its pool after the other, and the
peer it has picked is entered later, so a counter may have changed when the pick is made, and again
before the entry. Here every read, pick, entry and drop is one step, in any order, beside what other
requests do to the health of the peers.

The counters are the requests inside, in 32 bits (`in_flight_accounting`). With fewer than `2 ^ 32`
of them, picking is the choice of the library by the score of `pick_least_conn`, and so no peer gets
far ahead of another one in its pool, whatever the order of the steps (`least_conn_balanced`).
-/

set_option autoImplicit false

namespace Elrond.Upstream

open Elrond.Lib Elrond.Http Elrond.Config LeastLoaded

namespace Balancer

/-! ## The score -/

/-- Requests in flight for each unit of weight, in millionths. -/
def score (b : Balancer) (i : Nat) (n : Nat) : Nat :=
  n * 1000000 / ((b.peers[i]?).map weightOf).getD 1

theorem score_mono (b : Balancer) (i : Nat) : Monotone (b.score i) :=
  fun _ _ hle => Nat.div_le_div_right (Nat.mul_le_mul_right _ hle)

/-- The score of `pick_least_conn` does not overflow. -/
theorem toNat_connScore (p : Peer) :
    (connScore p).toNat = p.inFlight.toNat * 1000000 / weightOf p := by
  have hlt := p.inFlight.toNat_lt
  have hmillion : (1000000 : UInt64).toNat = 1000000 := rfl
  rw [connScore, UInt64.toNat_div, UInt64.toNat_mul, UInt32.toNat_toUInt64, UInt32.toNat_toUInt64,
    toNat_effectiveWeight, hmillion, Nat.mod_eq_of_lt (by omega)]

/-- The scan of least-conn keeps the lowest score it has seen. -/
theorem pickLeastConn_scan_le (pool : List (Peer × Nat)) (q : Peer × Nat) :
    ∃ r, pool.foldl (fun best p =>
        match best with
        | none => some p
        | some q => if connScore p.1 < connScore q.1 then some p else some q) (some q) = some r ∧
      ∀ p ∈ q :: pool, connScore r.1 ≤ connScore p.1 := by
  induction pool generalizing q with
  | nil =>
      refine ⟨q, rfl, fun p hp => ?_⟩
      rw [List.mem_singleton.1 hp]
      exact UInt64.le_refl _
  | cons p pool ih =>
      rw [List.foldl_cons]
      by_cases hless : connScore p.1 < connScore q.1
      · simp only [if_pos hless]
        obtain ⟨r, hr, hle⟩ := ih p
        refine ⟨r, hr, fun p' hp' => ?_⟩
        rcases List.mem_cons.1 hp' with rfl | hp'
        · exact UInt64.le_trans (hle p List.mem_cons_self) (UInt64.le_of_lt hless)
        · exact hle p' hp'
      · simp only [if_neg hless]
        obtain ⟨r, hr, hle⟩ := ih q
        refine ⟨r, hr, fun p' hp' => ?_⟩
        rcases List.mem_cons.1 hp' with rfl | hp'
        · exact hle p' List.mem_cons_self
        · rcases List.mem_cons.1 hp' with rfl | hp'
          · exact UInt64.le_trans (hle q List.mem_cons_self) (UInt64.not_lt.1 hless)
          · exact hle p' (List.mem_cons_of_mem _ hp')

/-- Least-conn picks a peer with the lowest score. -/
theorem pickLeastConn_least {pool : List (Peer × Nat)} {q : Peer × Nat}
    (h : pickLeastConn pool = some q) :
    q ∈ pool ∧ ∀ p ∈ pool, connScore q.1 ≤ connScore p.1 := by
  cases pool with
  | nil => cases h
  | cons p pool =>
      obtain ⟨r, hr, hmem⟩ := pickLeastConn_scan pool p
      obtain ⟨r', hr', hle⟩ := pickLeastConn_scan_le pool p
      obtain rfl : r = q := Option.some.inj (hr.symm.trans h)
      obtain rfl : r' = r := Option.some.inj (hr'.symm.trans hr)
      exact ⟨hmem, hle⟩

/-- The counter of the peer at a position. -/
def counterAt (b : Balancer) (i : Nat) : UInt32 := ((b.peers[i]?).map Peer.inFlight).getD 0

theorem getElem?_modifyPeer (b : Balancer) (j : Nat) (f : Peer → Peer) (i : Nat) :
    (b.modifyPeer j f).peers[i]? = b.peers[i]?.map fun p => if j = i then f p else p :=
  List.getElem?_modify _ _ _ _

/-- The peers with the counters that were read of them. -/
def asRead (b : Balancer) (readings : List (Nat × Nat)) : List (Peer × Nat) :=
  readings.filterMap fun r =>
    (b.peers[r.1]?).map fun p => ({ p with inFlight := UInt32.ofNat r.2 }, r.1)

end Balancer

/-! ## The machine -/

/-- A balancer and the requests that come to it. -/
structure Serving where
  balancer : Balancer
  requests : State Nat := {}

/-- A step of a request: it comes, with the time and the peers it excludes, and finds its pool; it
reads the next counter of the pool, picks a peer, enters it, drops its guard. And the outcome of a
request or of a probe is recorded. -/
inductive ServeEvent where
  | arrive (nowMs : UInt64) (exclude : List String)
  | read (k : Nat)
  | pick (k : Nat)
  | enter (k : Nat)
  | drop (k : Nat)
  | record (i : Nat) (c : HealthCall)

namespace Serving

/-- The peer that a request picks from what it has read. -/
def picked (st : Serving) (k : Nat) : Option Nat :=
  (Balancer.pickLeastConn (st.balancer.asRead (st.requests.seen k))).map Prod.snd

/-- One step. -/
def step (st : Serving) : ServeEvent → Serving
  | .arrive nowMs exclude =>
      let positions := (st.balancer.pool nowMs exclude).map Prod.snd
      { st with requests := st.requests.start positions }
  | .read k =>
      match st.requests.phase k with
      | .looking (i :: todo) =>
          { st with requests := st.requests.see k i (st.balancer.counterAt i).toNat todo }
      | _ => st
  | .pick k =>
      match st.requests.phase k with
      | .looking [] =>
          match st.picked k with
          | some i => { st with requests := st.requests.move k (.chosen i) }
          -- there is no peer, and the request ends
          | none => { st with requests := st.requests.move k .gone }
      | _ => st
  | .enter k =>
      match st.requests.phase k with
      | .chosen i =>
          { balancer := st.balancer.modifyPeer i Peer.enter
            requests := st.requests.move k (.inside i) }
      | _ => st
  | .drop k =>
      match st.requests.phase k with
      | .inside i =>
          { balancer := st.balancer.modifyPeer i Peer.leave
            requests := st.requests.move k .gone }
      | _ => st
  | .record i c => { st with balancer := st.balancer.modifyPeer i fun p => p.record c }

/-- The step as one of the library. -/
def event (st : Serving) : ServeEvent → Event Nat
  | .arrive nowMs exclude => .begin ((st.balancer.pool nowMs exclude).map Prod.snd)
  | .read k => .look k
  | .pick k =>
      match st.requests.phase k with
      | .looking [] =>
          match st.picked k with
          | some i => .choose k i
          | none => .quit k
      | _ => .idle
  | .enter k => .enter k
  | .drop k => .leave k
  | .record _ _ => .idle

end Serving

/-! ## Counters -/

/-- The counters are the requests inside, in 32 bits. -/
structure Counts (st : Serving) : Prop where
  numbered : Numbered st.requests
  counters : ∀ i p, st.balancer.peers[i]? = some p →
    p.inFlight = UInt32.ofNat (st.requests.load i)

section

variable {st : Serving}

/-- A request that is not inside a peer, and does not go there, is not counted. -/
theorem load_move_outside {rs : State Nat} (hrs : Numbered rs) {k : Nat} {ph : Phase Nat}
    (hpresent : rs.phase k ≠ .absent) (hbefore : ∀ s, rs.phase k ≠ .inside s)
    (hafter : ∀ s, ph ≠ .inside s) (i : Nat) : (rs.move k ph).load i = rs.load i := by
  have hmove := load_move (hrs.lt_next hpresent) ph i
  rwa [if_neg (hbefore i), if_neg (hafter i), Nat.add_zero, Nat.add_zero] at hmove

theorem Counts.enter (hst : Counts st) {k j : Nat} (h : st.requests.phase k = .chosen j) :
    Counts { balancer := st.balancer.modifyPeer j Peer.enter,
             requests := st.requests.move k (.inside j) } := by
  have hpresent : st.requests.phase k ≠ .absent := by
    rw [h]
    exact fun hno => nomatch hno
  have hopen : (st.requests.phase k).isOpen = true := by
    rw [h]
    rfl
  refine ⟨hst.numbered.move (Or.inl ⟨hopen, fun hno => nomatch hno⟩), fun i p hp => ?_⟩
  have hload := load_move (hst.numbered.lt_next hpresent) (.inside j) i
  rw [h, if_neg (fun hno => nomatch hno), Nat.add_zero] at hload
  rw [Balancer.getElem?_modifyPeer] at hp
  obtain ⟨p', hp', rfl⟩ := Option.map_eq_some_iff.1 hp
  have hcounter := hst.counters i p' hp'
  show (if j = i then p'.enter else p').inFlight = UInt32.ofNat ((st.requests.move k _).load i)
  rw [hload]
  by_cases hji : j = i
  · subst hji
    rw [if_pos rfl, if_pos rfl, UInt32.ofNat_add, ← hcounter]
    rfl
  · rw [if_neg hji, if_neg fun heq => hji (Phase.inside.inj heq), Nat.add_zero]
    exact hcounter

theorem Counts.leave (hst : Counts st) {k j : Nat} (h : st.requests.phase k = .inside j) :
    Counts { balancer := st.balancer.modifyPeer j Peer.leave,
             requests := st.requests.move k .gone } := by
  have hpresent : st.requests.phase k ≠ .absent := by
    rw [h]
    exact fun hno => nomatch hno
  refine ⟨hst.numbered.move (Or.inr ⟨j, h, rfl⟩), fun i p hp => ?_⟩
  have hload := load_move (hst.numbered.lt_next hpresent) .gone i
  rw [if_neg (c := Phase.gone = .inside i) (fun hno => nomatch hno), Nat.add_zero] at hload
  rw [Balancer.getElem?_modifyPeer] at hp
  obtain ⟨p', hp', rfl⟩ := Option.map_eq_some_iff.1 hp
  have hcounter := hst.counters i p' hp'
  show (if j = i then p'.leave else p').inFlight = UInt32.ofNat ((st.requests.move k _).load i)
  rw [h] at hload
  by_cases hji : j = i
  · subst hji
    rw [if_pos rfl] at hload
    rw [if_pos rfl]
    show p'.inFlight - 1 = _
    rw [hcounter, ← hload, UInt32.ofNat_add]
    exact UInt32.add_sub_cancel _ _
  · rw [if_neg fun heq => hji (Phase.inside.inj heq), Nat.add_zero] at hload
    rw [if_neg hji, hload]
    exact hcounter

theorem inFlight_record (p : Peer) (c : HealthCall) : (p.record c).inFlight = p.inFlight := by
  cases c with
  | success => rfl
  | failure nowMs =>
      show (p.recordFailure nowMs).inFlight = p.inFlight
      rw [Peer.recordFailure]
      split
      · rfl
      · rfl

/-- A request that stays outside leaves the counters alone. -/
theorem Counts.outside (hst : Counts st) {rs : State Nat} (hrs : Numbered rs)
    (hload : ∀ i, rs.load i = st.requests.load i) : Counts { st with requests := rs } :=
  ⟨hrs, fun i p hp => by rw [hload i]; exact hst.counters i p hp⟩

/-- Every step keeps the counters right. -/
theorem Counts.step (hst : Counts st) (e : ServeEvent) : Counts (st.step e) := by
  cases e with
  | arrive nowMs exclude =>
      exact hst.outside (hst.numbered.start _) fun i => load_start hst.numbered _ i
  | read k =>
      rw [Serving.step]
      split
      · next j todo h =>
        have hgoes : GoesOn (st.requests.phase k) (.looking todo) := by
          rw [h]
          exact Or.inl ⟨rfl, fun hno => nomatch hno⟩
        have houtside : ∀ i, (st.requests.move k (.looking todo)).load i = st.requests.load i := by
          apply load_move_outside hst.numbered
          · rw [h]
            exact fun hno => nomatch hno
          · rw [h]
            exact fun s hno => nomatch hno
          · exact fun s hno => nomatch hno
        exact hst.outside (hst.numbered.move hgoes) houtside
      · exact hst
  | pick k =>
      rw [Serving.step]
      split
      · next h =>
        have hmove : ∀ ph : Phase Nat, ph ≠ .absent → (∀ s, ph ≠ .inside s) →
            Counts { st with requests := st.requests.move k ph } := by
          intro ph hph hinside
          refine hst.outside (hst.numbered.move ?_) ?_
          · rw [h]
            exact Or.inl ⟨rfl, hph⟩
          · apply load_move_outside hst.numbered
            · rw [h]
              exact fun hno => nomatch hno
            · rw [h]
              exact fun s hno => nomatch hno
            · exact hinside
        split
        · next j hj => exact hmove _ (fun hno => nomatch hno) fun s hno => nomatch hno
        · exact hmove _ (fun hno => nomatch hno) fun s hno => nomatch hno
      · exact hst
  | enter k =>
      rw [Serving.step]
      split
      · next j h => exact hst.enter h
      · exact hst
  | drop k =>
      rw [Serving.step]
      split
      · next j h => exact hst.leave h
      · exact hst
  | record j c =>
      refine ⟨hst.numbered, fun i p hp => ?_⟩
      rw [Serving.step, Balancer.getElem?_modifyPeer] at hp
      obtain ⟨p', hmem, rfl⟩ := Option.map_eq_some_iff.1 hp
      have hcounter := hst.counters i p' hmem
      by_cases hji : j = i
      · rw [if_pos hji, inFlight_record]
        exact hcounter
      · rw [if_neg hji]
        exact hcounter

end

/-- No request is in flight, as in a balancer that was just built. -/
def Balancer.Idle (b : Balancer) : Prop := ∀ p ∈ b.peers, p.inFlight = 0

theorem counts_init {b : Balancer} (hb : b.Idle) : Counts { balancer := b } where
  numbered k := ⟨fun _ => Nat.zero_le k, fun _ => rfl⟩
  counters _ p hp := hb p (List.mem_of_getElem? hp)

theorem counts_run {b : Balancer} (hb : b.Idle) (es : List ServeEvent) :
    Counts (run Serving.step { balancer := b } es) :=
  run_invariant (fun _ e h => h.step e) (counts_init hb) es

/-! ## The steps of the library -/

/-- What a request looks at are peers of the balancer, and these have the weights they were built
with. -/
structure Sound (b : Balancer) (st : Serving) : Prop where
  weights : ∀ i : Nat, (st.balancer.peers[i]?).map Balancer.weightOf =
    (b.peers[i]?).map Balancer.weightOf
  todo : ∀ k servers, st.requests.phase k = .looking servers →
    ∀ i ∈ servers, (b.peers[i]?).isSome = true
  seen : ∀ k i n, (i, n) ∈ st.requests.seen k → (b.peers[i]?).isSome = true ∧ n < 2 ^ 32

section

variable {b : Balancer} {st : Serving}

theorem sound_init (b : Balancer) : Sound b { balancer := b } where
  weights _ := rfl
  todo _ _ h := nomatch h
  seen _ _ _ h := absurd h List.not_mem_nil

theorem Sound.peer (hst : Sound b st) {i : Nat} (h : (b.peers[i]?).isSome = true) :
    ∃ p, st.balancer.peers[i]? = some p := by
  rw [← Option.isSome_iff_exists, ← Option.isSome_map (f := Balancer.weightOf), hst.weights i,
    Option.isSome_map]
  exact h

/-- A request that moves on without looking keeps the state sound. -/
theorem Sound.move (hst : Sound b st) (k : Nat) {ph : Phase Nat}
    (hph : ∀ todo, ph ≠ .looking todo) {b' : Balancer}
    (hweights : ∀ i : Nat, (b'.peers[i]?).map Balancer.weightOf =
      (st.balancer.peers[i]?).map Balancer.weightOf) :
    Sound b { balancer := b', requests := st.requests.move k ph } := by
  refine ⟨fun i => (hweights i).trans (hst.weights i), fun m todo hm => ?_, hst.seen⟩
  by_cases hmk : m = k
  · subst hmk
    rw [State.move_phase_self] at hm
    exact absurd hm (hph todo)
  · rw [State.move_phase_of_ne _ hmk] at hm
    exact hst.todo m todo hm

theorem weightOf_record (p : Peer) (c : HealthCall) :
    Balancer.weightOf (p.record c) = Balancer.weightOf p := by
  cases c with
  | success => rfl
  | failure nowMs =>
      show Balancer.weightOf (p.recordFailure nowMs) = _
      rw [Peer.recordFailure]
      split
      · rfl
      · rfl

/-- Changing a peer but not its weight changes no weight. -/
theorem weights_modifyPeer (b : Balancer) (j : Nat) {f : Peer → Peer}
    (hf : ∀ p, Balancer.weightOf (f p) = Balancer.weightOf p) (i : Nat) :
    ((b.modifyPeer j f).peers[i]?).map Balancer.weightOf =
      (b.peers[i]?).map Balancer.weightOf := by
  rw [Balancer.getElem?_modifyPeer]
  cases b.peers[i]? with
  | none => rfl
  | some p =>
      show some (Balancer.weightOf (if j = i then f p else p)) = some (Balancer.weightOf p)
      split
      · rw [hf]
      · rfl

/-- A new request looks at peers of the balancer. -/
theorem Sound.arrive (hst : Sound b st) (nowMs : UInt64) (exclude : List String) :
    Sound b (st.step (.arrive nowMs exclude)) := by
  have hpool : ∀ i ∈ (st.balancer.pool nowMs exclude).map Prod.snd,
      (b.peers[i]?).isSome = true := by
    intro i hi
    obtain ⟨⟨p, j⟩, hp, rfl⟩ := List.mem_map.1 hi
    have hget := (Balancer.mem_pool hp).1
    rw [← Option.isSome_map (f := Balancer.weightOf), ← hst.weights, hget]
    rfl
  rw [Serving.step]
  refine ⟨hst.weights, fun m todo hm => ?_, fun m i n hm => ?_⟩
  · by_cases hnew : m = st.requests.next
    · subst hnew
      rw [State.start_phase_self] at hm
      obtain rfl := Phase.looking.inj hm
      exact hpool
    · rw [State.start_phase_of_ne _ hnew] at hm
      exact hst.todo m todo hm
  · by_cases hnew : m = st.requests.next
    · subst hnew
      rw [State.start_seen_self] at hm
      exact absurd hm List.not_mem_nil
    · rw [State.start_seen_of_ne _ hnew] at hm
      exact hst.seen m i n hm

/-- A counter that is read fits in 32 bits. -/
theorem Sound.read (hst : Sound b st) {k j : Nat} {todo : List Nat}
    (h : st.requests.phase k = .looking (j :: todo)) :
    Sound b { st with
      requests := st.requests.see k j (st.balancer.counterAt j).toNat todo } := by
  have htodo := hst.todo k (j :: todo) h
  refine ⟨hst.weights, fun m todo' hm => ?_, fun m i n hm => ?_⟩
  · by_cases hmk : m = k
    · subst hmk
      rw [State.see_phase_self] at hm
      obtain rfl := Phase.looking.inj hm
      exact fun i hi => htodo i (List.mem_cons_of_mem j hi)
    · rw [State.see_phase_of_ne _ hmk] at hm
      exact hst.todo m todo' hm
  · by_cases hmk : m = k
    · subst hmk
      rw [State.see_seen_self, List.mem_append, List.mem_singleton] at hm
      rcases hm with hold | hnew
      · exact hst.seen m i n hold
      · obtain ⟨rfl, rfl⟩ := Prod.mk.inj hnew
        exact ⟨htodo i List.mem_cons_self, (st.balancer.counterAt i).toNat_lt⟩
    · rw [State.see_seen_of_ne _ hmk] at hm
      exact hst.seen m i n hm

/-- Every step keeps the state sound. -/
theorem Sound.step (hst : Sound b st) (e : ServeEvent) : Sound b (st.step e) := by
  cases e with
  | arrive nowMs exclude => exact hst.arrive nowMs exclude
  | read k =>
      rw [Serving.step]
      split
      · next j todo h => exact hst.read h
      · exact hst
  | pick k =>
      rw [Serving.step]
      split
      · split
        · apply hst.move
          · exact fun todo hno => nomatch hno
          · exact fun i => rfl
        · apply hst.move
          · exact fun todo hno => nomatch hno
          · exact fun i => rfl
      · exact hst
  | enter k =>
      rw [Serving.step]
      split
      · next j h =>
        apply hst.move
        · exact fun todo hno => nomatch hno
        · exact weights_modifyPeer st.balancer j fun p => rfl
      · exact hst
  | drop k =>
      rw [Serving.step]
      split
      · next j h =>
        apply hst.move
        · exact fun todo hno => nomatch hno
        · exact weights_modifyPeer st.balancer j fun p => rfl
      · exact hst
  | record j c =>
      refine ⟨fun i => ?_, hst.todo, hst.seen⟩
      exact (weights_modifyPeer st.balancer j (fun p => weightOf_record p c) i).trans
        (hst.weights i)

/-- The score of a peer as it was read. -/
theorem Sound.score_read (hst : Sound b st) {i n : Nat} {p : Peer}
    (hp : st.balancer.peers[i]? = some p) (hn : n < 2 ^ 32) :
    (Balancer.connScore { p with inFlight := UInt32.ofNat n }).toNat = b.score i n := by
  have hweight := hst.weights i
  rw [hp] at hweight
  rw [Balancer.toNat_connScore, Balancer.score, ← hweight, Option.map_some, Option.getD_some]
  show (UInt32.ofNat n).toNat * 1000000 / Balancer.weightOf p = _
  rw [UInt32.toNat_ofNat_of_lt' hn]

/-- What is picked has the lowest score of what was read. -/
theorem Sound.best (hst : Sound b st) {k i : Nat} (h : st.picked k = some i) :
    Best b.score (st.requests.seen k) i := by
  obtain ⟨⟨q, j⟩, hq, rfl⟩ := Option.map_eq_some_iff.1 h
  obtain ⟨hmem, hleast⟩ := Balancer.pickLeastConn_least hq
  obtain ⟨⟨i, n⟩, hread, hpeer⟩ := List.mem_filterMap.1 hmem
  obtain ⟨p, hp, heq⟩ := Option.map_eq_some_iff.1 hpeer
  obtain ⟨rfl, rfl⟩ := Prod.mk.inj heq
  refine ⟨n, hread, fun i' n' hread' => ?_⟩
  obtain ⟨hsome', hn'⟩ := hst.seen k i' n' hread'
  obtain ⟨p', hp'⟩ := hst.peer hsome'
  have hin : ({ p' with inFlight := UInt32.ofNat n' }, i') ∈
      st.balancer.asRead (st.requests.seen k) := by
    refine List.mem_filterMap.2 ⟨(i', n'), hread', ?_⟩
    rw [hp']
    rfl
  have hle := UInt64.le_iff_toNat_le.1 (hleast _ hin)
  rw [hst.score_read hp (hst.seen k i n hread).2, hst.score_read hp' hn'] at hle
  exact hle

/-- A step is the step of the library, if the counters have not wrapped. -/
theorem requests_step (hsound : Sound b st) (hcounts : Counts st)
    (hfits : ∀ i, st.requests.load i < 2 ^ 32) (e : ServeEvent) :
    (st.step e).requests = LeastLoaded.step b.score st.requests (st.event e) := by
  cases e with
  | arrive nowMs exclude => rfl
  | read k =>
      rw [Serving.step, Serving.event, LeastLoaded.step]
      cases h : st.requests.phase k with
      | looking todo =>
          cases todo with
          | nil => rfl
          | cons j todo =>
              have hsome := hsound.todo k _ h j List.mem_cons_self
              obtain ⟨p, hp⟩ := hsound.peer hsome
              have hcounter : (st.balancer.counterAt j).toNat = st.requests.load j := by
                rw [Balancer.counterAt, hp, Option.map_some, Option.getD_some,
                  hcounts.counters j p hp, UInt32.toNat_ofNat_of_lt' (hfits j)]
              simp only [hcounter]
      | absent => rfl
      | chosen j => rfl
      | inside j => rfl
      | gone => rfl
  | pick k =>
      rw [Serving.step, Serving.event]
      cases h : st.requests.phase k with
      | looking todo =>
          cases todo with
          | cons j todo => rfl
          | nil =>
              cases hpicked : st.picked k with
              | some i =>
                  simp only
                  rw [LeastLoaded.step, if_pos ⟨h, hsound.best hpicked⟩]
              | none =>
                  simp only
                  rw [LeastLoaded.step, h]
                  rfl
      | absent => rfl
      | chosen j => rfl
      | inside j => rfl
      | gone => rfl
  | enter k =>
      rw [Serving.step, Serving.event, LeastLoaded.step]
      cases st.requests.phase k with
      | looking todo => rfl
      | absent => rfl
      | chosen j => rfl
      | inside j => rfl
      | gone => rfl
  | drop k =>
      rw [Serving.step, Serving.event, LeastLoaded.step]
      cases st.requests.phase k with
      | looking todo => rfl
      | absent => rfl
      | chosen j => rfl
      | inside j => rfl
      | gone => rfl
  | record j c => rfl

end

/-! ## Runs -/

namespace Serving

/-- The steps of a run as those of the library. -/
def events (st : Serving) : List ServeEvent → List (Event Nat)
  | [] => []
  | e :: es => st.event e :: events (st.step e) es

/-- What comes first in the library comes first here. -/
theorem events_eq_append {st : Serving} {es : List ServeEvent} {pre' post' : List (Event Nat)}
    (h : st.events es = pre' ++ post') :
    ∃ pre post, es = pre ++ post ∧ st.events pre = pre' := by
  induction pre' generalizing st es with
  | nil => exact ⟨[], es, rfl, rfl⟩
  | cons e' pre' ih =>
      cases es with
      | nil => cases h
      | cons e es =>
          obtain ⟨rfl, htail⟩ := List.cons.inj h
          obtain ⟨pre, post, rfl, hpre⟩ := ih htail
          exact ⟨e :: pre, post, rfl, congrArg (st.event e :: ·) hpre⟩

end Serving

/-- No peer has so many requests that its counter wraps. -/
def Fits (st : Serving) : Prop := ∀ i, st.requests.load i < 2 ^ 32

/-- The requests of a run are those of the library. -/
theorem requests_run {b : Balancer} {st : Serving} (hsound : Sound b st) (hcounts : Counts st)
    {es : List ServeEvent} (hfits : Always Serving.step Fits st es) :
    run (LeastLoaded.step b.score) st.requests (st.events es) =
      (run Serving.step st es).requests := by
  induction es generalizing st with
  | nil => rfl
  | cons e es ih =>
      obtain ⟨hnow, hlater⟩ := always_cons.1 hfits
      have hstep := requests_step hsound hcounts hnow e
      rw [Serving.events, run_cons, run_cons, ← hstep]
      exact ih (hsound.step e) (hcounts.step e) hlater

/-- Two peers of different weight. -/
def unevenPair : Balancer :=
  { name := "backend", method := .leastConn, scheme := .http
    peers := [
      { addr := "10.0.0.1:80", weight := 3, maxFails := 1, failTimeout := 0, backup := false,
        down := false },
      { addr := "10.0.0.2:80", weight := 1, maxFails := 1, failTimeout := 0, backup := false,
        down := false }] }

/-- Four requests, one after the other; they stay. -/
def fourArrivals : List ServeEvent :=
  (List.range 4).flatMap fun k => [.arrive 0 [], .read k, .read k, .pick k, .enter k]

theorem unevenPair_idle : unevenPair.Idle := by
  intro p hp
  rcases List.mem_cons.1 hp with rfl | hp
  · rfl
  · obtain rfl := List.mem_singleton.1 hp
    rfl

/-- **Requests in flight.** In every state of every run, the counter of a peer is the number of
requests that have entered it and have not dropped their guard, in 32 bits, whatever the order of
the steps; so it is back at zero when there is none. -/
theorem in_flight_accounting {b : Balancer} (hb : b.Idle) (es : List ServeEvent) {i : Nat}
    {p : Peer} (hp : (run Serving.step { balancer := b } es).balancer.peers[i]? = some p) :
    p.inFlight.toNat = (run Serving.step { balancer := b } es).requests.load i % 2 ^ 32 := by
  rw [(counts_run hb es).counters i p hp, UInt32.toNat_ofNat']

theorem fourArrivals_inFlight :
    ∃ p, (run Serving.step { balancer := unevenPair } fourArrivals).balancer.peers[0]? = some p ∧
      p.inFlight.toNat =
        (run Serving.step { balancer := unevenPair } fourArrivals).requests.load 0 % 2 ^ 32 :=
  ⟨_, rfl, in_flight_accounting unevenPair_idle fourArrivals rfl⟩

section

variable {b : Balancer} {es : List ServeEvent} {few : Nat}

theorem always_few (hb : b.Idle) (hfits : Always Serving.step Fits { balancer := b } es)
    (hfew : Always Serving.step (fun st => st.requests.openTasks.card ≤ few) { balancer := b }
      es) :
    Always (LeastLoaded.step b.score) (fun rs => rs.openTasks.card ≤ few) {}
      (Serving.events { balancer := b } es) := by
  intro pre' post' heq
  obtain ⟨pre, post, rfl, rfl⟩ := Serving.events_eq_append heq
  have hprefix : Always Serving.step Fits { balancer := b } pre := by
    intro first rest hsplit
    exact hfits first (rest ++ post) (by rw [hsplit, List.append_assoc])
  have hrun := requests_run (sound_init b) (counts_init hb) hprefix
  show (run (LeastLoaded.step b.score) {} _).openTasks.card ≤ few
  rw [hrun]
  exact hfew pre post rfl

end

/-- While no guard is dropped, no peer is ahead of another one, that all its requests had in their
pools, by more than the requests that have not entered theirs. -/
theorem least_conn_even {b : Balancer} (hb : b.Idle) {few : Nat} {es : List ServeEvent}
    (hfits : Always Serving.step Fits { balancer := b } es)
    (hfew : Always Serving.step (fun st => st.requests.openTasks.card ≤ few) { balancer := b } es)
    (hstays : ∀ k, .drop k ∉ es) {i j : Nat}
    (hne : ((run Serving.step { balancer := b } es).requests.bound i).Nonempty)
    (hpool : ∀ k ∈ (run Serving.step { balancer := b } es).requests.bound i,
      j ∈ (run Serving.step { balancer := b } es).requests.pool k) :
    b.score i (((run Serving.step { balancer := b } es).requests.bound i).card - few) ≤
      b.score j ((run Serving.step { balancer := b } es).requests.load j) := by
  have hrun := requests_run (sound_init b) (counts_init hb) hfits
  have hnone : ∀ (st : Serving) (es : List ServeEvent), (∀ k, .drop k ∉ es) →
      ∀ k, .leave k ∉ st.events es := by
    intro st es hes k
    induction es generalizing st with
    | nil => exact List.not_mem_nil
    | cons e es ih =>
        rw [Serving.events, List.mem_cons, not_or]
        refine ⟨fun heq => ?_, ih _ fun m hm => hes m (List.mem_cons_of_mem e hm)⟩
        cases e with
        | arrive nowMs exclude => cases heq
        | read m => cases heq
        | pick m =>
            rw [Serving.event] at heq
            split at heq
            · split at heq
              · cases heq
              · cases heq
            · cases heq
        | enter m => cases heq
        | drop m => exact hes m List.mem_cons_self
        | record m c => cases heq
  rw [← hrun] at hne hpool ⊢
  exact balanced_of_stays (always_few hb hfits hfew) (hnone _ es hstays) b.score_mono hne hpool

/-! ## A pick alone -/

/-- Readings without anything in between are the counters. -/
theorem run_read {k : Nat} {todo : List Nat} {st : Serving}
    (h : st.requests.phase k = .looking todo) :
    let after := run Serving.step st (List.replicate todo.length (.read k))
    after.balancer = st.balancer ∧ after.requests.phase k = .looking [] ∧
      after.requests.seen k =
        st.requests.seen k ++ todo.map fun i => (i, (st.balancer.counterAt i).toNat) := by
  induction todo generalizing st with
  | nil => exact ⟨rfl, h, (List.append_nil _).symm⟩
  | cons i todo ih =>
      have hstep : st.step (.read k) =
          { st with
            requests := st.requests.see k i (st.balancer.counterAt i).toNat todo } := by
        rw [Serving.step, h]
      have hphase : (st.step (.read k)).requests.phase k = .looking todo := by
        rw [hstep]
        exact State.see_phase_self _ _ _ _ _
      have hseen : (st.step (.read k)).requests.seen k =
          st.requests.seen k ++ [(i, (st.balancer.counterAt i).toNat)] := by
        rw [hstep]
        exact State.see_seen_self _ _ _ _ _
      have hbalancer : (st.step (.read k)).balancer = st.balancer := by
        rw [hstep]
      obtain ⟨h₁, h₂, h₃⟩ := ih hphase
      rw [hbalancer] at h₁ h₃
      refine ⟨h₁, h₂, ?_⟩
      rw [hseen, List.append_assoc] at h₃
      exact h₃

/-- The counters as they are read of a pool are those of its peers. -/
theorem asRead_pool (b : Balancer) (nowMs : UInt64) (exclude : List String) :
    b.asRead (((b.pool nowMs exclude).map Prod.snd).map fun i => (i, (b.counterAt i).toNat)) =
      b.pool nowMs exclude := by
  have hall : ∀ q ∈ b.pool nowMs exclude,
      (b.peers[q.2]?).map (fun p =>
        (({ p with inFlight := UInt32.ofNat (b.counterAt q.2).toNat } : Peer), q.2)) = some q := by
    rintro ⟨p, i⟩ hq
    have hget := (Balancer.mem_pool hq).1
    rw [hget, Option.map_some, Balancer.counterAt, hget, Option.map_some, Option.getD_some,
      UInt32.ofNat_toNat]
  rw [Balancer.asRead, List.map_map, List.filterMap_map]
  exact (List.filterMap_congr hall).trans List.filterMap_some

/-- Steps of one request without others in between are `pick_inner`. -/
theorem pick_alone (hash : IpAddr → UInt64) (clientIp : IpAddr) {st : Serving}
    (hmethod : st.balancer.method = .leastConn) (nowMs : UInt64) (exclude : List String) :
    ((run Serving.step st (.arrive nowMs exclude ::
        List.replicate (st.balancer.pool nowMs exclude).length (.read st.requests.next) ++
          [.pick st.requests.next])).requests.phase st.requests.next).server? =
      (Balancer.pickInner hash st.balancer nowMs clientIp exclude).1.map Prod.snd := by
  let k := st.requests.next
  let pool := st.balancer.pool nowMs exclude
  let came := st.step (.arrive nowMs exclude)
  have hphase : came.requests.phase k = .looking (pool.map Prod.snd) :=
    State.start_phase_self st.requests _
  have hnone : came.requests.seen k = [] := State.start_seen_self st.requests _
  obtain ⟨hbalancer, hlooking, hseen⟩ := run_read hphase
  rw [List.length_map] at hbalancer hlooking hseen
  rw [hnone, List.nil_append] at hseen
  have hpicked : (run Serving.step came (List.replicate pool.length (.read k))).picked k =
      (Balancer.pickLeastConn pool).map Prod.snd := by
    rw [Serving.picked, hseen, hbalancer]
    exact congrArg (fun q => (Balancer.pickLeastConn q).map Prod.snd)
      (asRead_pool st.balancer nowMs exclude)
  have hinner : (Balancer.pickInner hash st.balancer nowMs clientIp exclude).1 =
      Balancer.pickLeastConn pool := by
    simp only [Balancer.pickInner, hmethod]
    split
    · next hempty =>
      have hnil : pool = [] := List.isEmpty_iff.1 hempty
      rw [hnil]
      rfl
    · rfl
  rw [hinner, List.cons_append, run_cons, run_concat]
  show ((Serving.step (run Serving.step came (List.replicate pool.length (.read k)))
    (.pick k)).requests.phase k).server? = _
  rw [Serving.step, hlooking, ← hpicked]
  cases (run Serving.step came (List.replicate pool.length (.read k))).picked k with
  | some i =>
      show ((State.move _ k (.chosen i)).phase k).server? = some i
      rw [State.move_phase_self]
      rfl
  | none =>
      show ((State.move _ k .gone).phase k).server? = none
      rw [State.move_phase_self]
      rfl

end Elrond.Upstream
