import Elrond.Upstream.RoundRobin

/-!
# Stickiness of ip-hash

`pick_ip_hash` takes the hash of the client modulo the number of peers that can be picked right now.
So what happens to other peers moves a client from one healthy peer to another: the size of the pool
and the number of the peer in it are all that counts (`pickInner_ipHash_iff`). A client stays with its
peer, whatever its hash, exactly as long as the size divides the size at the first pick and the number
of the peer is the earlier one modulo the size (`ip_hash_sticky_iff`), as it is while the pool does
not change or once the peer is alone in it.
-/

set_option autoImplicit false

namespace Elrond.Upstream

open Elrond.Lib Elrond.Http Elrond.Config

/-! ## Positions -/

/-- The positions a pick chooses from, in order. -/
def Balancer.positions (b : Balancer) (nowMs : UInt64) (exclude : List String) : List Nat :=
  (b.pool nowMs exclude).map Prod.snd

/-- The position that a pick takes. -/
def Balancer.picked (hash : IpAddr → UInt64) (b : Balancer) (nowMs : UInt64) (clientIp : IpAddr)
    (exclude : List String) : Option Nat :=
  (Balancer.pickInner hash b nowMs clientIp exclude).1.map Prod.snd

theorem positions_nodup (b : Balancer) (nowMs : UInt64) (exclude : List String) :
    (b.positions nowMs exclude).Nodup := by
  have hshares := sharesOf_pool_nodup b nowMs exclude
  rwa [sharesOf, List.map_map] at hshares

theorem length_positions_le (b : Balancer) (nowMs : UInt64) (exclude : List String) :
    (b.positions nowMs exclude).length ≤ b.peers.length := by
  have hcandidates : ∀ backup, (b.candidates backup nowMs exclude).length ≤ b.peers.length := by
    intro backup
    refine le_trans (List.length_filter_le _ _) ?_
    rw [List.length_zipIdx]
  rw [Balancer.positions, List.length_map, Balancer.pool]
  split
  · exact hcandidates true
  · exact hcandidates false

/-- Ip-hash takes the position whose number in the pool is the hash modulo the size. -/
theorem pickInner_ipHash_iff (hash : IpAddr → UInt64) {b : Balancer} (hip : b.method = .ipHash)
    (nowMs : UInt64) (clientIp : IpAddr) (exclude : List String) (i : Nat) :
    b.picked hash nowMs clientIp exclude = some i ↔
      i ∈ b.positions nowMs exclude ∧
        (hash clientIp).toNat % (b.positions nowMs exclude).length =
          (b.positions nowMs exclude).idxOf i := by
  have hpicked : b.picked hash nowMs clientIp exclude =
      (b.positions nowMs exclude)[(hash clientIp).toNat % (b.positions nowMs exclude).length]? := by
    rw [Balancer.picked, Balancer.positions, List.length_map, List.getElem?_map]
    simp only [Balancer.pickInner, hip]
    split
    · next hempty =>
      rw [List.isEmpty_iff.1 hempty]
      rfl
    · rfl
  rw [hpicked]
  constructor
  · intro hget
    obtain ⟨hlt, heq⟩ := List.getElem?_eq_some_iff.1 hget
    refine ⟨List.mem_of_getElem? hget, ?_⟩
    rw [← heq, (positions_nodup b nowMs exclude).idxOf_getElem]
  · rintro ⟨hmem, hnumber⟩
    rw [hnumber, List.getElem?_idxOf hmem]

/-- The residues modulo `n` decide those modulo `n'` at one place exactly if `n'` divides `n`. -/
theorem residue_iff {bound n r n' r' : Nat} (hr : r < n) (hbound : 2 * n ≤ bound) :
    (∀ h < bound, h % n = r → h % n' = r') ↔ n' ∣ n ∧ r % n' = r' := by
  constructor
  · intro hall
    have hfirst := hall r (by omega) (Nat.mod_eq_of_lt hr)
    have hsecond := hall (r + n) (by omega) (by rw [Nat.add_mod_right, Nat.mod_eq_of_lt hr])
    refine ⟨?_, hfirst⟩
    have hsame : (r + n) % n' = r % n' := hsecond.trans hfirst.symm
    have hzero := Nat.sub_mod_eq_zero_of_mod_eq hsame
    rw [Nat.add_sub_cancel_left] at hzero
    exact Nat.dvd_of_mod_eq_zero hzero
  · rintro ⟨hdvd, rfl⟩ h _ hh
    rw [← hh, Nat.mod_mod_of_dvd h hdvd]

/-! ## Runs -/

/-- The time an event happens at, if the peers look at it. -/
def PeerEvent.clock : PeerEvent → Option UInt64
  | .failure _ nowMs => some nowMs
  | .pick nowMs _ _ => some nowMs
  | _ => none

/-- The peer at position `i` is available. -/
def Balancer.AvailableAt (b : Balancer) (i : Nat) (nowMs : UInt64) : Prop :=
  ∃ p, b.peers[i]? = some p ∧ p.isAvailable nowMs = true

/-- No event of the run leaves the peer at position `i` unavailable. -/
def StaysAvailable (hash : IpAddr → UInt64) (b : Balancer) (i : Nat) (es : List PeerEvent) : Prop :=
  AllSteps (Balancer.step hash)
    (fun s e => ∀ nowMs, e.clock = some nowMs → (s.step hash e).AvailableAt i nowMs) b es

/-- The run reaches, in state `s`, a pick for the client that does not exclude the peer at position
`i`, which stayed available up to it. -/
def LaterPick (hash : IpAddr → UInt64) (b : Balancer) (clientIp : IpAddr) (i : Nat)
    (es : List PeerEvent) (s : Balancer) (nowMs : UInt64) (exclude : List String) : Prop :=
  ∃ pre post, es = pre ++ .pick nowMs clientIp exclude :: post ∧
    s = run (Balancer.step hash) b pre ∧
    StaysAvailable hash b i (pre ++ [.pick nowMs clientIp exclude]) ∧
    ∀ p, s.peers[i]? = some p → p.addr ∉ exclude

/-- Whatever the hash, a client that a pick sent to position `i` is sent there by every later pick
of the run. -/
def Sticky (b : Balancer) (nowMs : UInt64) (clientIp : IpAddr) (exclude : List String) (i : Nat)
    (es : List PeerEvent) : Prop :=
  ∀ hash, b.picked hash nowMs clientIp exclude = some i →
    ∀ s nowMs' exclude', LaterPick hash b clientIp i es s nowMs' exclude' →
      s.picked hash nowMs' clientIp exclude' = some i

/-- At every later pick the peer is in the pool, the size of the pool divides the size it had at the
first pick, and the number of the peer in it is the earlier one modulo the size. -/
def KeepsStanding (b : Balancer) (nowMs : UInt64) (clientIp : IpAddr) (exclude : List String)
    (i : Nat) (es : List PeerEvent) : Prop :=
  ∀ hash s nowMs' exclude', LaterPick hash b clientIp i es s nowMs' exclude' →
    i ∈ s.positions nowMs' exclude' ∧
      (s.positions nowMs' exclude').length ∣ (b.positions nowMs exclude).length ∧
      (b.positions nowMs exclude).idxOf i % (s.positions nowMs' exclude').length =
        (s.positions nowMs' exclude').idxOf i

/-- A step of an ip-hash balancer does not depend on the hash: a pick changes nothing. -/
theorem step_ipHash (hash hash' : IpAddr → UInt64) {b : Balancer} (hip : b.method = .ipHash)
    (e : PeerEvent) : b.step hash e = b.step hash' e := by
  cases e with
  | success i => rfl
  | failure i nowMs => rfl
  | enter i => rfl
  | leave i => rfl
  | pick nowMs clientIp exclude =>
      simp only [Balancer.step, Balancer.pickInner, hip]
      split
      · rfl
      · rfl

theorem run_method (hash : IpAddr → UInt64) (b : Balancer) (es : List PeerEvent) :
    (run (Balancer.step hash) b es).method = b.method := by
  refine run_invariant (Q := fun s : Balancer => s.method = b.method) ?_ rfl es
  intro s e hs
  rw [step_method, hs]

theorem run_ipHash (hash hash' : IpAddr → UInt64) {b : Balancer} (hip : b.method = .ipHash)
    (es : List PeerEvent) : run (Balancer.step hash) b es = run (Balancer.step hash') b es := by
  induction es generalizing b with
  | nil => rfl
  | cons e es ih =>
      rw [run_cons, run_cons, step_ipHash hash hash' hip]
      apply ih
      rw [step_method, hip]

theorem LaterPick.of_hash {hash : IpAddr → UInt64} (hash' : IpAddr → UInt64) {b s : Balancer}
    (hip : b.method = .ipHash) {clientIp : IpAddr} {i : Nat} {es : List PeerEvent}
    {nowMs : UInt64} {exclude : List String} (h : LaterPick hash b clientIp i es s nowMs exclude) :
    LaterPick hash' b clientIp i es s nowMs exclude := by
  obtain ⟨pre, post, hes, hs, hstays, hnot⟩ := h
  refine ⟨pre, post, hes, hs.trans (run_ipHash hash hash' hip pre), ?_, hnot⟩
  intro pre' e post' hsplit t ht
  have hsame := run_ipHash hash hash' hip (pre' ++ [e])
  rw [run_concat, run_concat] at hsame
  rw [← hsame]
  exact hstays pre' e post' hsplit t ht

/-- **Stickiness of ip-hash.** Take an ip-hash balancer in any state, a client, a position its first
pick can take, and any run of health events and picks. If at every later pick the peer is in the pool,
with a size that divides the first one and a number that is the first one modulo the size, then the
client stays with the peer, whatever the hash; and no other runs are sticky for every hash. -/
theorem ip_hash_sticky_iff (b : Balancer) (hip : b.method = .ipHash) (nowMs : UInt64)
    (clientIp : IpAddr) (exclude : List String) (i : Nat) (hi : i ∈ b.positions nowMs exclude)
    (es : List PeerEvent) :
    (KeepsStanding b nowMs clientIp exclude i es → Sticky b nowMs clientIp exclude i es) ∧
      (2 * b.peers.length ≤ 2 ^ 64 → Sticky b nowMs clientIp exclude i es →
        KeepsStanding b nowMs clientIp exclude i es) := by
  have hr : (b.positions nowMs exclude).idxOf i < (b.positions nowMs exclude).length :=
    List.idxOf_lt_length_of_mem hi
  have hmethod : ∀ {hash s nowMs' exclude'},
      LaterPick hash b clientIp i es s nowMs' exclude' → s.method = .ipHash := by
    rintro hash s nowMs' exclude' ⟨pre, post, -, rfl, -, -⟩
    rw [run_method, hip]
  constructor
  · intro hkeep hash hfirst s nowMs' exclude' hlater
    obtain ⟨hmem, hdvd, hnumber⟩ := hkeep hash s nowMs' exclude' hlater
    refine (pickInner_ipHash_iff hash (hmethod hlater) nowMs' clientIp exclude' i).2 ⟨hmem, ?_⟩
    have hhash := ((pickInner_ipHash_iff hash hip nowMs clientIp exclude i).1 hfirst).2
    rw [← hnumber, ← hhash, Nat.mod_mod_of_dvd _ hdvd]
  · intro hsize hsticky hash s nowMs' exclude' hlater
    -- the client may have any hash that led to the peer at first
    have hpicked : ∀ h < 2 ^ 64, h % (b.positions nowMs exclude).length =
        (b.positions nowMs exclude).idxOf i → i ∈ s.positions nowMs' exclude' ∧
          h % (s.positions nowMs' exclude').length = (s.positions nowMs' exclude').idxOf i := by
      intro h hlt hh
      have htoNat : (UInt64.ofNat h).toNat = h := by
        rw [UInt64.toNat_ofNat', Nat.mod_eq_of_lt hlt]
      have hlast := hsticky (fun _ => UInt64.ofNat h)
        ((pickInner_ipHash_iff _ hip nowMs clientIp exclude i).2 ⟨hi, by rw [htoNat, hh]⟩)
        s nowMs' exclude' (hlater.of_hash _ hip)
      have hiff := (pickInner_ipHash_iff _ (hmethod hlater) nowMs' clientIp exclude' i).1 hlast
      rwa [htoNat] at hiff
    have hbound : 2 * (b.positions nowMs exclude).length ≤ 2 ^ 64 := by
      have hle := length_positions_le b nowMs exclude
      omega
    refine ⟨(hpicked _ (by omega) (Nat.mod_eq_of_lt hr)).1, ?_⟩
    exact (residue_iff hr hbound).1 fun h hlt hh => (hpicked h hlt hh).2

/-- Three peers that one failure takes out for ten seconds. -/
def threePeers : Balancer where
  name := "backend"
  method := .ipHash
  peers := [⟨"10.0.0.1:80", 1, 1, Text.fromSecs 10, false, false, 0, 0, 0⟩,
    ⟨"10.0.0.2:80", 1, 1, Text.fromSecs 10, false, false, 0, 0, 0⟩,
    ⟨"10.0.0.3:80", 1, 1, Text.fromSecs 10, false, false, 0, 0, 0⟩]
  scheme := .http

/-- A client of `threePeers`. -/
def stickyClient : IpAddr := .v4 ⟨192, 0, 2, 7⟩

theorem ip_hash_sticky_threePeers :
    Sticky threePeers 1000 stickyClient [] 1 [.pick 2000 stickyClient []] := by
  refine (ip_hash_sticky_iff threePeers rfl 1000 stickyClient [] 1 (by decide) _).1 ?_
  rintro hash s nowMs' exclude' ⟨pre, post, hes, rfl, -, -⟩
  cases pre with
  | nil =>
      obtain ⟨rfl, -, rfl⟩ := PeerEvent.pick.inj (List.cons.inj hes).1
      rw [run_nil]
      decide
  | cons e pre =>
      have hrest := (List.cons.inj hes).2
      simp at hrest

/-- The first of the peers fails, and a client with hash 1 moves from the second peer, which was
available all the time, to the third. -/
theorem ip_hash_moves_client :
    ¬ Sticky threePeers 1000 stickyClient [] 1
      [.failure 0 1000, .pick 2000 stickyClient []] := by
  intro hsticky
  have hlater : LaterPick (fun _ => 1) threePeers stickyClient 1
      [.failure 0 1000, .pick 2000 stickyClient []]
      (run (Balancer.step fun _ => 1) threePeers [.failure 0 1000]) 2000 [] := by
    refine ⟨[.failure 0 1000], [], rfl, rfl, ?_, fun _ _ => List.not_mem_nil⟩
    refine allSteps_cons.2 ⟨?_, allSteps_cons.2 ⟨?_, allSteps_nil⟩⟩
    · rintro t ht
      obtain rfl := Option.some.inj ht
      exact ⟨_, rfl, rfl⟩
    · rintro t ht
      obtain rfl := Option.some.inj ht
      exact ⟨_, rfl, rfl⟩
  have hpick := hsticky (fun _ => 1) (by decide) _ 2000 [] hlater
  exact absurd hpick (by decide)

end Elrond.Upstream
