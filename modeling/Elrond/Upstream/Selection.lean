import Elrond.Config.Values
import Elrond.Upstream.Target

/-!
# Which peer is picked

The pool of a pick holds exactly the peers that may be picked, the backups only when there is no
primary (`mem_pool`, `pool_ne_nil_iff`), and every method picks from the pool
(`mem_pool_of_pickInner`). Least-conn and ip-hash pick some peer of every pool that is not empty.
Round robin adds up the weights of the pool in 32 bits and gives up when the sum is zero, which a
wrapped sum can be; this is the only case in which an available peer is not picked
(`pick_complete_iff`).
-/

set_option autoImplicit false

namespace Elrond.Upstream

open Elrond.Lib Elrond.Http Elrond.Config

namespace Balancer

/-! ## The pool -/

theorem mem_candidates {b : Balancer} {backup : Bool} {nowMs : UInt64} {exclude : List String}
    {p : Peer} {i : Nat} :
    (p, i) ∈ b.candidates backup nowMs exclude ↔
      b.peers[i]? = some p ∧ p.backup = backup ∧ p.isAvailable nowMs = true ∧
        p.addr ∉ exclude := by
  rw [candidates, List.mem_filter, List.mem_zipIdx_iff_getElem?]
  simp [and_assoc]

/-- A peer of the pool is available and not excluded, and a backup is in the pool only when no
primary is. -/
theorem mem_pool {b : Balancer} {nowMs : UInt64} {exclude : List String} {p : Peer} {i : Nat}
    (h : (p, i) ∈ b.pool nowMs exclude) :
    b.peers[i]? = some p ∧ p.isAvailable nowMs = true ∧ p.addr ∉ exclude ∧
      (p.backup = true → b.candidates false nowMs exclude = []) := by
  rw [pool] at h
  split at h
  · rename_i hnone
    obtain ⟨hget, -, havailable, hexclude⟩ := mem_candidates.1 h
    exact ⟨hget, havailable, hexclude, fun _ => List.isEmpty_iff.1 hnone⟩
  · obtain ⟨hget, hprimary, havailable, hexclude⟩ := mem_candidates.1 h
    refine ⟨hget, havailable, hexclude, fun hbackup => ?_⟩
    rw [hprimary] at hbackup
    cases hbackup

/-- The pool is empty exactly if no peer can be picked. -/
theorem pool_ne_nil_iff {b : Balancer} {nowMs : UInt64} {exclude : List String} :
    b.pool nowMs exclude ≠ [] ↔
      ∃ p ∈ b.peers, p.isAvailable nowMs = true ∧ p.addr ∉ exclude := by
  constructor
  · intro h
    obtain ⟨⟨p, i⟩, hp⟩ := List.exists_mem_of_ne_nil _ h
    obtain ⟨hget, havailable, hexclude, -⟩ := mem_pool hp
    exact ⟨p, List.mem_of_getElem? hget, havailable, hexclude⟩
  · rintro ⟨p, hp, havailable, hexclude⟩
    obtain ⟨i, hget⟩ := List.mem_iff_getElem?.1 hp
    have hmem : (p, i) ∈ b.candidates p.backup nowMs exclude :=
      mem_candidates.2 ⟨hget, rfl, havailable, hexclude⟩
    rw [pool]
    split
    · rename_i hnone
      cases hbackup : p.backup with
      | false =>
          rw [hbackup, List.isEmpty_iff.1 hnone] at hmem
          cases hmem
      | true =>
          rw [hbackup] at hmem
          exact List.ne_nil_of_mem hmem
    · rename_i hsome
      exact fun hnil => hsome (List.isEmpty_iff.2 hnil)

/-! ## The three methods -/

/-- The weight a peer counts with, as a number. -/
def weightOf (p : Peer) : Nat := max p.weight.toNat 1

theorem toNat_max_one (x : UInt32) : (max x 1).toNat = max x.toNat 1 := by
  show (if x ≤ 1 then (1 : UInt32) else x).toNat = max x.toNat 1
  by_cases hle : x ≤ 1
  · have hle' : x.toNat ≤ 1 := UInt32.le_iff_toNat_le.1 hle
    rw [if_pos hle, max_eq_right hle']
    rfl
  · have hlt : 1 < x.toNat := Nat.not_le.1 fun h => hle (UInt32.le_iff_toNat_le.2 h)
    rw [if_neg hle, max_eq_left hlt.le]

theorem toNat_effectiveWeight (p : Peer) : (effectiveWeight p).toNat = weightOf p :=
  toNat_max_one p.weight

/-- The weight of a list of peers, without wrapping. -/
def totalWeight (pool : List (Peer × Nat)) : Nat := (pool.map fun p => weightOf p.1).sum

theorem totalWeight_pos {pool : List (Peer × Nat)} (hpool : pool ≠ []) : 0 < totalWeight pool := by
  cases pool with
  | nil => exact absurd rfl hpool
  | cons p pool =>
      have hp : 1 ≤ weightOf p.1 := le_max_right _ _
      rw [totalWeight, List.map_cons, List.sum_cons]
      omega

/-- The 32-bit sum of the weights is their sum modulo `2 ^ 32`. -/
theorem toNat_sum_effectiveWeight (pool : List (Peer × Nat)) :
    ((pool.map fun p => effectiveWeight p.1).sum).toNat = totalWeight pool % 2 ^ 32 := by
  induction pool with
  | nil => rfl
  | cons p pool ih =>
      rw [totalWeight, List.map_cons, List.sum_cons, List.map_cons, List.sum_cons,
        UInt32.toNat_add, ih, toNat_effectiveWeight, totalWeight, Nat.add_mod_mod]

theorem mem_of_walkWeights {target : UInt32} {pool : List (Peer × Nat)} {q : Peer × Nat}
    (h : walkWeights target pool = some q) : q ∈ pool := by
  induction pool generalizing target with
  | nil => cases h
  | cons p pool ih =>
      rw [walkWeights] at h
      split at h
      · obtain rfl := Option.some.inj h
        exact List.mem_cons_self
      · exact List.mem_cons_of_mem p (ih h)

theorem mem_of_pickWeightedRr {b : Balancer} {pool : List (Peer × Nat)} {q : Peer × Nat}
    (h : (b.pickWeightedRr pool).1 = some q) : q ∈ pool := by
  simp only [pickWeightedRr] at h
  split at h
  · cases h
  · rcases Option.or_eq_some_iff.1 h with hwalk | ⟨-, hhead⟩
    · exact mem_of_walkWeights hwalk
    · exact List.mem_of_head? hhead

/-- Round robin picks a peer of a pool that is not empty exactly if the 32-bit sum of the weights
is not zero. -/
theorem pickWeightedRr_isSome {b : Balancer} {pool : List (Peer × Nat)} (hpool : pool ≠ []) :
    (b.pickWeightedRr pool).1.isSome = true ↔ ¬ 2 ^ 32 ∣ totalWeight pool := by
  have hzero : (pool.map fun p => effectiveWeight p.1).sum = 0 ↔ 2 ^ 32 ∣ totalWeight pool := by
    rw [← UInt32.toNat_inj, toNat_sum_effectiveWeight]
    exact (Nat.dvd_iff_mod_eq_zero).symm
  simp only [pickWeightedRr]
  split
  · rename_i htotal
    exact ⟨fun h => Bool.noConfusion h, fun h => absurd (hzero.1 htotal) h⟩
  · rename_i htotal
    have hhead : pool.head?.isSome = true := by
      cases pool with
      | nil => exact absurd rfl hpool
      | cons p pool => rfl
    refine ⟨fun _ h => htotal (hzero.2 h), fun _ => ?_⟩
    simp [Option.isSome_or, hhead]

/-- The scan of least-conn keeps its candidate or takes a peer it sees. -/
theorem pickLeastConn_scan (pool : List (Peer × Nat)) (q : Peer × Nat) :
    ∃ r, pool.foldl (fun best p =>
        match best with
        | none => some p
        | some q => if connScore p.1 < connScore q.1 then some p else some q) (some q) = some r ∧
      r ∈ q :: pool := by
  induction pool generalizing q with
  | nil => exact ⟨q, rfl, List.mem_cons_self⟩
  | cons p pool ih =>
      rw [List.foldl_cons]
      by_cases hless : connScore p.1 < connScore q.1
      · simp only [if_pos hless]
        obtain ⟨r, hr, hmem⟩ := ih p
        exact ⟨r, hr, List.mem_cons_of_mem q hmem⟩
      · simp only [if_neg hless]
        obtain ⟨r, hr, hmem⟩ := ih q
        refine ⟨r, hr, ?_⟩
        rcases List.mem_cons.1 hmem with rfl | hmem
        · exact List.mem_cons_self
        · exact List.mem_cons_of_mem q (List.mem_cons_of_mem p hmem)

/-- Least-conn picks a peer of the pool, if there is one. -/
theorem pickLeastConn_spec {pool : List (Peer × Nat)} (hpool : pool ≠ []) :
    ∃ q, pickLeastConn pool = some q ∧ q ∈ pool := by
  cases pool with
  | nil => exact absurd rfl hpool
  | cons p pool => exact pickLeastConn_scan pool p

/-- Ip-hash picks a peer of the pool, if there is one. -/
theorem pickIpHash_spec (hash : IpAddr → UInt64) (clientIp : IpAddr) {pool : List (Peer × Nat)}
    (hpool : pool ≠ []) : ∃ q, pickIpHash hash clientIp pool = some q ∧ q ∈ pool := by
  have hlt : (hash clientIp).toNat % pool.length < pool.length :=
    Nat.mod_lt _ (List.length_pos_of_ne_nil hpool)
  exact ⟨_, List.getElem?_eq_getElem hlt, List.getElem_mem hlt⟩

/-- Whatever the method, a picked peer is one of the pool. -/
theorem mem_pool_of_pickInner {hash : IpAddr → UInt64} {b : Balancer} {nowMs : UInt64}
    {clientIp : IpAddr} {exclude : List String} {q : Peer × Nat}
    (h : (pickInner hash b nowMs clientIp exclude).1 = some q) : q ∈ b.pool nowMs exclude := by
  simp only [pickInner] at h
  split at h
  · cases h
  · rename_i hpool
    have hne : b.pool nowMs exclude ≠ [] := fun hnil => hpool (List.isEmpty_iff.2 hnil)
    cases hmethod : b.method with
    | roundRobin =>
        simp only [hmethod] at h
        exact mem_of_pickWeightedRr h
    | leastConn =>
        simp only [hmethod] at h
        obtain ⟨r, hr, hmem⟩ := pickLeastConn_spec hne
        rw [hr] at h
        exact Option.some.inj h ▸ hmem
    | ipHash =>
        simp only [hmethod] at h
        obtain ⟨r, hr, hmem⟩ := pickIpHash_spec hash clientIp hne
        rw [hr] at h
        exact Option.some.inj h ▸ hmem

/-! ## Completeness -/

/-- A pick finds a peer whenever an available peer is not excluded. -/
def PickComplete (hash : IpAddr → UInt64) (b : Balancer) (nowMs : UInt64) (clientIp : IpAddr)
    (exclude : List String) : Prop :=
  (∃ p ∈ b.peers, p.isAvailable nowMs = true ∧ p.addr ∉ exclude) →
    (pickInner hash b nowMs clientIp exclude).1.isSome = true

end Balancer

open Balancer

/-- **Completeness of picking.** A pick finds a peer whenever an available peer is not excluded,
except by round robin when the weights of the pool add up to a positive multiple of `2 ^ 32`. -/
theorem pick_complete_iff (hash : IpAddr → UInt64) (b : Balancer) (nowMs : UInt64)
    (clientIp : IpAddr) (exclude : List String) :
    b.PickComplete hash nowMs clientIp exclude ↔
      (b.method = .roundRobin → 0 < totalWeight (b.pool nowMs exclude) →
        ¬ 2 ^ 32 ∣ totalWeight (b.pool nowMs exclude)) := by
  rw [PickComplete, ← pool_ne_nil_iff]
  by_cases hpool : b.pool nowMs exclude = []
  -- Nobody can be picked, and no weight is added up.
  · rw [hpool]
    exact ⟨fun _ _ hpos => absurd hpos (lt_irrefl 0), fun _ hne => absurd rfl hne⟩
  · have hempty : (b.pool nowMs exclude).isEmpty = false := by
      rw [Bool.eq_false_iff]
      exact fun h => hpool (List.isEmpty_iff.1 h)
    cases hmethod : b.method with
    | roundRobin =>
        have hpick : (pickInner hash b nowMs clientIp exclude).1 =
            (b.pickWeightedRr (b.pool nowMs exclude)).1 := by
          simp only [pickInner, hempty, hmethod, Bool.false_eq_true, if_false]
        rw [hpick, pickWeightedRr_isSome hpool]
        have hpos := totalWeight_pos hpool
        exact ⟨fun h _ _ => h hpool, fun h _ => h rfl hpos⟩
    | leastConn =>
        obtain ⟨q, hq, -⟩ := pickLeastConn_spec hpool
        simp only [pickInner, hempty, hmethod, Bool.false_eq_true, if_false, hq]
        exact ⟨fun _ h => LbMethod.noConfusion h, fun _ _ => rfl⟩
    | ipHash =>
        obtain ⟨q, hq, -⟩ := pickIpHash_spec hash clientIp hpool
        simp only [pickInner, hempty, hmethod, Bool.false_eq_true, if_false, hq]
        exact ⟨fun _ h => LbMethod.noConfusion h, fun _ _ => rfl⟩

/-- The body of an upstream block with two servers of weight `2 ^ 31`. -/
def heavyServers : List Directive :=
  [⟨"server", ["10.0.0.1:80", "weight=2147483648"], none, 2⟩,
    ⟨"server", ["10.0.0.2:80", "weight=2147483648"], none, 3⟩]

/-- The block is accepted, and its balancer picks nobody although both peers are available. -/
theorem heavy_servers_are_not_picked :
    ∃ up, buildUpstream "backend" heavyServers 1 = .ok up ∧
      ¬ (namedBalancer up).PickComplete (fun _ => 0) 1000 (.v4 ⟨192, 0, 2, 7⟩) [] := by
  refine ⟨_, rfl, fun h => ?_⟩
  have hsome := h ⟨_, List.mem_cons_self, rfl, by simp⟩
  exact absurd hsome (by decide)

end Elrond.Upstream
