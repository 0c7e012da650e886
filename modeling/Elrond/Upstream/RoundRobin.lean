import Elrond.Lib.Shares
import Elrond.Upstream.Health

/-!
# Exactness of weighted round robin

A pick by round robin divides the numbers below the total weight among the peers of the pool and
takes the owner of the counter modulo the total (`pick_choice`). So the picks of a run that all
see one pool are a window of consecutive counter values (`outcomes_eq`), and if the window is as
long as the total weight, each peer should come up as often as its weight says.

Two machine widths get in the way. The counter is cut to 32 bits before it is reduced, so a window
that contains a multiple of `2 ^ 32` starts a new cycle in the middle of one, unless the total
divides `2 ^ 32`; and the total itself is a 32-bit sum. `round_robin_exact_iff` says which windows
are exact, and for which pools all of them are.
-/

set_option autoImplicit false

namespace Elrond.Upstream

open Elrond.Lib Elrond.Http Elrond.Config

/-- The positions of a pool with the weights of their peers. -/
def sharesOf (pool : List (Peer × Nat)) : List (Nat × Nat) :=
  pool.map fun p => (p.2, Balancer.weightOf p.1)

/-- The position round robin takes at a counter value, for a pool with the given shares: the owner
of the counter, cut to 32 bits and reduced by the 32-bit total. -/
def choice (shares : List (Nat × Nat)) (counter : Nat) : Option Nat :=
  if Shares.total shares % 2 ^ 32 = 0 then none
  else Shares.owner shares (counter % 2 ^ 32 % (Shares.total shares % 2 ^ 32))

/-! ## One pick -/

theorem total_sharesOf (pool : List (Peer × Nat)) :
    Shares.total (sharesOf pool) = Balancer.totalWeight pool := by
  rw [Shares.total, sharesOf, List.map_map, Balancer.totalWeight]
  rfl

/-- The walk over the weights finds the owner. -/
theorem walkWeights_owner (target : UInt32) (pool : List (Peer × Nat)) :
    (Balancer.walkWeights target pool).map Prod.snd =
      Shares.owner (sharesOf pool) target.toNat := by
  induction pool generalizing target with
  | nil => rfl
  | cons p pool ih =>
      have hweight := Balancer.toNat_effectiveWeight p.1
      show _ = Shares.owner ((p.2, Balancer.weightOf p.1) :: sharesOf pool) target.toNat
      rw [Balancer.walkWeights, Shares.owner]
      by_cases hlt : target < Balancer.effectiveWeight p.1
      · rw [if_pos hlt, if_pos (hweight ▸ UInt32.lt_iff_toNat_lt.1 hlt)]
        rfl
      · have hge : Balancer.weightOf p.1 ≤ target.toNat := by
          rw [← hweight]
          exact Nat.not_lt.1 fun h => hlt (UInt32.lt_iff_toNat_lt.2 h)
        rw [if_neg hlt, if_neg (Nat.not_lt.2 hge), ih, UInt32.toNat_sub_of_le, hweight]
        rw [UInt32.le_iff_toNat_le, hweight]
        exact hge

/-- Round robin takes the position of `choice`, and counts the pick unless it took none. -/
theorem pickWeightedRr_choice (b : Balancer) (pool : List (Peer × Nat)) :
    (b.pickWeightedRr pool).1.map Prod.snd = choice (sharesOf pool) b.rrCounter.toNat ∧
      (b.pickWeightedRr pool).2 =
        if Shares.total (sharesOf pool) % 2 ^ 32 = 0 then b.rrCounter else b.rrCounter + 1 := by
  have htotal := Balancer.toNat_sum_effectiveWeight pool
  rw [← total_sharesOf] at htotal
  have hzero : (pool.map fun p => Balancer.effectiveWeight p.1).sum = 0 ↔
      Shares.total (sharesOf pool) % 2 ^ 32 = 0 := by
    rw [← UInt32.toNat_inj, htotal]
    rfl
  simp only [Balancer.pickWeightedRr, choice]
  by_cases h : (pool.map fun p => Balancer.effectiveWeight p.1).sum = 0
  · rw [if_pos h, if_pos (hzero.1 h), if_pos (hzero.1 h)]
    exact ⟨rfl, rfl⟩
  · have hne := fun h' => h (hzero.2 h')
    rw [if_neg h, if_neg hne, if_neg hne]
    refine ⟨?_, rfl⟩
    have htarget : (b.rrCounter.toUInt32 %
        (pool.map fun p => Balancer.effectiveWeight p.1).sum).toNat =
        b.rrCounter.toNat % 2 ^ 32 % (Shares.total (sharesOf pool) % 2 ^ 32) := by
      rw [UInt32.toNat_mod, htotal, UInt64.toNat_toUInt32]
    -- The target is below the total, so the walk ends at an owner and there is no fallback.
    have hlt : b.rrCounter.toNat % 2 ^ 32 % (Shares.total (sharesOf pool) % 2 ^ 32) <
        Shares.total (sharesOf pool) :=
      lt_of_lt_of_le (Nat.mod_lt _ (Nat.pos_of_ne_zero hne)) (Nat.mod_le _ _)
    have hwalk := walkWeights_owner
      (b.rrCounter.toUInt32 % (pool.map fun p => Balancer.effectiveWeight p.1).sum) pool
    rw [htarget] at hwalk
    obtain ⟨k, hk⟩ := Shares.exists_owner hlt
    rw [hk] at hwalk ⊢
    obtain ⟨q, hq, -⟩ := Option.map_eq_some_iff.1 hwalk
    rw [hq] at hwalk ⊢
    exact hwalk

theorem pick_choice (hash : IpAddr → UInt64) {b : Balancer} (hrr : b.method = .roundRobin)
    (nowMs : UInt64) (clientIp : IpAddr) (exclude : List String) :
    (Balancer.pickInner hash b nowMs clientIp exclude).1.map Prod.snd =
        choice (sharesOf (b.pool nowMs exclude)) b.rrCounter.toNat ∧
      (Balancer.pickInner hash b nowMs clientIp exclude).2.rrCounter =
        if Shares.total (sharesOf (b.pool nowMs exclude)) % 2 ^ 32 = 0 then b.rrCounter
        else b.rrCounter + 1 := by
  obtain ⟨hposition, hcounter⟩ := pickWeightedRr_choice b (b.pool nowMs exclude)
  simp only [Balancer.pickInner, hrr]
  split
  · rename_i hempty
    rw [List.isEmpty_iff.1 hempty]
    exact ⟨rfl, rfl⟩
  · exact ⟨hposition, hcounter⟩

/-- The positions of a pool are distinct and its weights are positive 32-bit numbers. -/
theorem sharesOf_pool_nodup (b : Balancer) (nowMs : UInt64) (exclude : List String) :
    ((sharesOf (b.pool nowMs exclude)).map Prod.fst).Nodup := by
  have hcandidates : ∀ backup, ((b.candidates backup nowMs exclude).map Prod.snd).Nodup := by
    intro backup
    have hsub : ((b.candidates backup nowMs exclude).map Prod.snd).Sublist
        (b.peers.zipIdx.map Prod.snd) := List.filter_sublist.map Prod.snd
    apply hsub.nodup
    rw [List.zipIdx_map_snd]
    exact List.nodup_range'
  have hmap : (sharesOf (b.pool nowMs exclude)).map Prod.fst =
      (b.pool nowMs exclude).map Prod.snd := by
    rw [sharesOf, List.map_map]
    rfl
  rw [hmap, Balancer.pool]
  split
  · exact hcandidates true
  · exact hcandidates false

theorem weight_bounds {pool : List (Peer × Nat)} {i w : Nat} (h : (i, w) ∈ sharesOf pool) :
    1 ≤ w ∧ w < 2 ^ 32 := by
  obtain ⟨p, -, heq⟩ := List.mem_map.1 h
  obtain ⟨-, rfl⟩ := Prod.mk.inj heq
  refine ⟨le_max_right _ _, ?_⟩
  rw [← Balancer.toNat_effectiveWeight]
  exact UInt32.toNat_lt _

/-! ## Runs of picks -/

/-- The position an event picks, if it is a pick. -/
def pickOutcome (hash : IpAddr → UInt64) (b : Balancer) : PeerEvent → List (Option Nat)
  | .pick nowMs clientIp exclude =>
      [(Balancer.pickInner hash b nowMs clientIp exclude).1.map Prod.snd]
  | _ => []

/-- The positions the picks of a run take, in order. -/
def outcomes (hash : IpAddr → UInt64) : Balancer → List PeerEvent → List (Option Nat)
  | _, [] => []
  | b, e :: es => pickOutcome hash b e ++ outcomes hash (b.step hash e) es

/-- The event is a pick. -/
def PeerEvent.isPick : PeerEvent → Bool
  | .pick _ _ _ => true
  | _ => false

/-- A pick sees a pool with the given positions and weights. -/
def SeesPool (shares : List (Nat × Nat)) (b : Balancer) : PeerEvent → Prop
  | .pick nowMs _ exclude => sharesOf (b.pool nowMs exclude) = shares
  | _ => True

theorem choice_mod (shares : List (Nat × Nat)) {x y : Nat} (h : x % 2 ^ 32 = y % 2 ^ 32) :
    choice shares x = choice shares y := by
  rw [choice, choice, h]

theorem step_method (hash : IpAddr → UInt64) (b : Balancer) (e : PeerEvent) :
    (b.step hash e).method = b.method := by
  cases e with
  | success i => rfl
  | failure i nowMs => rfl
  | enter i => rfl
  | leave i => rfl
  | pick nowMs clientIp exclude =>
      show (Balancer.pickInner hash b nowMs clientIp exclude).2.method = b.method
      simp only [Balancer.pickInner]
      split
      · rfl
      · split
        · rfl
        · rfl
        · rfl

/-- The picks of a run that all see one pool take the choices at successive counter values. -/
theorem outcomes_eq (hash : IpAddr → UInt64) {shares : List (Nat × Nat)} {b : Balancer}
    (hrr : b.method = .roundRobin) {es : List PeerEvent}
    (h : AllSteps (Balancer.step hash) (SeesPool shares) b es) :
    outcomes hash b es = (List.range (es.countP PeerEvent.isPick)).map
      fun k => choice shares (b.rrCounter.toNat + k) := by
  induction es generalizing b with
  | nil => rfl
  | cons e es ih =>
      obtain ⟨hsees, hrest⟩ := allSteps_cons.1 h
      have hnext := ih (by rw [step_method, hrr]) hrest
      -- An event that is no pick leaves the counter alone.
      have hother : (b.step hash e).rrCounter = b.rrCounter → e.isPick = false →
          pickOutcome hash b e = [] →
          outcomes hash b (e :: es) = (List.range ((e :: es).countP PeerEvent.isPick)).map
            fun k => choice shares (b.rrCounter.toNat + k) := by
        intro hcounter hpick hnone
        rw [outcomes, hnone, hnext, hcounter, List.countP_cons_of_neg (by simp [hpick])]
        rfl
      cases e with
      | success i => exact hother rfl rfl rfl
      | failure i nowMs => exact hother rfl rfl rfl
      | enter i => exact hother rfl rfl rfl
      | leave i => exact hother rfl rfl rfl
      | pick nowMs clientIp exclude =>
          obtain ⟨hposition, hcounter⟩ := pick_choice hash hrr nowMs clientIp exclude
          have hpool : sharesOf (b.pool nowMs exclude) = shares := hsees
          rw [hpool] at hposition hcounter
          rw [outcomes, hnext, List.countP_cons_of_pos rfl, List.range_succ_eq_map, List.map_cons,
            List.map_map]
          show (Balancer.pickInner hash b nowMs clientIp exclude).1.map Prod.snd :: _ = _
          rw [hposition]
          congr 1
          apply List.map_congr_left
          intro k _
          show choice shares ((Balancer.pickInner hash b nowMs clientIp exclude).2.rrCounter.toNat +
            k) = choice shares (b.rrCounter.toNat + (k + 1))
          rw [hcounter]
          split
          -- Without a total every choice is none, whatever the counter.
          · rename_i hzero
            rw [choice, choice, if_pos hzero, if_pos hzero]
          · apply choice_mod
            rw [UInt64.toNat_add]
            show ((b.rrCounter.toNat + 1) % 2 ^ 64 + k) % 2 ^ 32 = _
            omega

/-- Whatever else happens between them, as many picks as the total weight that see the pool with
the given shares, starting at a counter value, take every position as often as its weight says. -/
def ExactFrom (hash : IpAddr → UInt64) (b : Balancer) (shares : List (Nat × Nat))
    (counter : UInt64) : Prop :=
  ∀ es, AllSteps (Balancer.step hash) (SeesPool shares) { b with rrCounter := counter } es →
    es.countP PeerEvent.isPick = Shares.total shares →
      ∀ i w, (i, w) ∈ shares →
        (outcomes hash { b with rrCounter := counter } es).count (some i) = w

/-- Picks leave the pool as it is. -/
theorem allSteps_replicate_pick (hash : IpAddr → UInt64) (b : Balancer) (nowMs : UInt64)
    (clientIp : IpAddr) (exclude : List String) (n : Nat) :
    AllSteps (Balancer.step hash) (SeesPool (sharesOf (b.pool nowMs exclude))) b
      (List.replicate n (.pick nowMs clientIp exclude)) := by
  have hpool : ∀ c : Balancer, c.peers = b.peers → c.pool nowMs exclude = b.pool nowMs exclude := by
    intro c hc
    rw [Balancer.pool, Balancer.candidates, Balancer.candidates, hc]
    rfl
  have hfrom : ∀ c : Balancer, c.peers = b.peers →
      AllSteps (Balancer.step hash) (SeesPool (sharesOf (b.pool nowMs exclude))) c
        (List.replicate n (.pick nowMs clientIp exclude)) := by
    induction n with
    | zero => exact fun _ _ => allSteps_nil
    | succ n ih =>
        intro c hc
        rw [List.replicate_succ]
        refine allSteps_cons.2 ⟨?_, ih _ ?_⟩
        · show sharesOf (c.pool nowMs exclude) = _
          rw [hpool c hc]
        · show (Balancer.pickInner hash c nowMs clientIp exclude).2.peers = b.peers
          rw [Balancer.pickInner_peers, hc]
  exact hfrom b rfl

/-- The wrap of the low word of the counter within a window does no harm: the picks of the window
before the wrap fall to every position as often as the last numbers of a cycle do, as many. -/
def HarmlessWrap (shares : List (Nat × Nat)) (counter : Nat) : Prop :=
  let before := 2 ^ 32 - counter % 2 ^ 32
  ∀ i w, (i, w) ∈ shares →
    Nat.count (fun k => Shares.owner shares ((counter % 2 ^ 32 + k) % Shares.total shares) = some i)
        before =
      Nat.count (fun k => Shares.owner shares (Shares.total shares - before + k) = some i) before

/-- Exactness is a matter of counting choices in one window of counter values. -/
theorem exactFrom_iff (hash : IpAddr → UInt64) {b : Balancer} (hrr : b.method = .roundRobin)
    (nowMs : UInt64) (exclude : List String) (counter : UInt64) :
    ExactFrom hash b (sharesOf (b.pool nowMs exclude)) counter ↔
      ∀ i w, (i, w) ∈ sharesOf (b.pool nowMs exclude) →
        Nat.count (fun k => choice (sharesOf (b.pool nowMs exclude)) (counter.toNat + k) = some i)
          (Shares.total (sharesOf (b.pool nowMs exclude))) = w := by
  constructor
  · intro h i w hiw
    have hrun := allSteps_replicate_pick hash { b with rrCounter := counter } nowMs
      (.v4 ⟨0, 0, 0, 0⟩) exclude (Shares.total (sharesOf (b.pool nowMs exclude)))
    have hcount : (List.replicate (Shares.total (sharesOf (b.pool nowMs exclude)))
        (PeerEvent.pick nowMs (.v4 ⟨0, 0, 0, 0⟩) exclude)).countP PeerEvent.isPick =
        Shares.total (sharesOf (b.pool nowMs exclude)) := by
      rw [List.countP_replicate]
      rfl
    have hexact := h _ hrun hcount i w hiw
    rw [outcomes_eq hash (by exact hrr) hrun, hcount, Shares.count_map_range] at hexact
    exact hexact
  · intro h es hrun hcount i w hiw
    rw [outcomes_eq hash (by exact hrr) hrun, hcount, Shares.count_map_range]
    exact h i w hiw

/-! ## Which windows are exact -/

section Windows

variable {shares : List (Nat × Nat)}

/-- A window whose choices run through one cycle is exact. -/
theorem count_choice_of_cycle (hnodup : (shares.map Prod.fst).Nodup) (counter start : Nat)
    (h : ∀ k < Shares.total shares, choice shares (counter + k) =
      Shares.owner shares ((start + k) % Shares.total shares)) {i w : Nat} (hiw : (i, w) ∈ shares) :
    Nat.count (fun k => choice shares (counter + k) = some i) (Shares.total shares) = w := by
  have hsame : Nat.count (fun k => choice shares (counter + k) = some i) (Shares.total shares) =
      Nat.count (fun k => Shares.owner shares ((start + k) % Shares.total shares) = some i)
        (Shares.total shares) := by
    apply Shares.count_congr
    intro k hk
    rw [h k hk]
  rw [hsame, Shares.count_window (fun t => Shares.owner shares t = some i)]
  exact Shares.count_owner hnodup hiw

/-- With a total below `2 ^ 32` the choice is the owner of the low word of the counter. -/
theorem choice_eq_owner (hlt : Shares.total shares < 2 ^ 32) (hpos : 0 < Shares.total shares)
    (counter : Nat) :
    choice shares counter =
      Shares.owner shares (counter % 2 ^ 32 % Shares.total shares) := by
  rw [choice, Nat.mod_eq_of_lt hlt, if_neg (by omega)]

/-- A window that does not cross a multiple of `2 ^ 32` is exact. -/
theorem count_choice_of_noWrap (hnodup : (shares.map Prod.fst).Nodup)
    (hlt : Shares.total shares < 2 ^ 32) {counter : Nat}
    (hwrap : counter % 2 ^ 32 + Shares.total shares ≤ 2 ^ 32) {i w : Nat}
    (hiw : (i, w) ∈ shares) :
    Nat.count (fun k => choice shares (counter + k) = some i) (Shares.total shares) = w := by
  apply count_choice_of_cycle hnodup counter (counter % 2 ^ 32) _ hiw
  intro k hk
  rw [choice_eq_owner hlt (by omega)]
  congr 2
  omega

/-- In a window that crosses a multiple of `2 ^ 32` the cycle is cut there and starts again. -/
theorem count_choice_of_wrap (hlt : Shares.total shares < 2 ^ 32) {counter : Nat}
    (hwrap : 2 ^ 32 < counter % 2 ^ 32 + Shares.total shares) (i : Nat) :
    Nat.count (fun k => choice shares (counter + k) = some i) (Shares.total shares) =
      Nat.count (fun k => Shares.owner shares
          ((counter % 2 ^ 32 + k) % Shares.total shares) = some i) (2 ^ 32 - counter % 2 ^ 32) +
        Nat.count (fun k => Shares.owner shares k = some i)
          (Shares.total shares - (2 ^ 32 - counter % 2 ^ 32)) := by
  have hlow := Nat.mod_lt counter (by decide : 0 < 2 ^ 32)
  have hsplit := Nat.count_add (fun k => choice shares (counter + k) = some i)
    (2 ^ 32 - counter % 2 ^ 32) (Shares.total shares - (2 ^ 32 - counter % 2 ^ 32))
  rw [Nat.add_sub_cancel' (by omega)] at hsplit
  rw [hsplit]
  congr 1
  · apply Shares.count_congr
    intro k hk
    have hmod : (counter + k) % 2 ^ 32 = counter % 2 ^ 32 + k := by omega
    rw [choice_eq_owner hlt (by omega), hmod]
  · apply Shares.count_congr
    intro k hk
    have hmod : (counter + (2 ^ 32 - counter % 2 ^ 32 + k)) % 2 ^ 32 = k := by omega
    rw [choice_eq_owner hlt (by omega), hmod, Nat.mod_eq_of_lt (by omega)]

/-- A window that crosses a multiple of `2 ^ 32` is exact exactly if the wrap does no harm. -/
theorem count_choice_iff_harmless (hnodup : (shares.map Prod.fst).Nodup)
    (hlt : Shares.total shares < 2 ^ 32) {counter : Nat}
    (hwrap : 2 ^ 32 < counter % 2 ^ 32 + Shares.total shares) :
    (∀ i w, (i, w) ∈ shares →
      Nat.count (fun k => choice shares (counter + k) = some i) (Shares.total shares) = w) ↔
        HarmlessWrap shares counter := by
  have hlow := Nat.mod_lt counter (by decide : 0 < 2 ^ 32)
  apply forall_congr'
  intro i
  apply forall_congr'
  intro w
  apply forall_congr'
  intro hiw
  -- One cycle, cut where the window that wraps has its second part.
  have hcycle := Nat.count_add (fun k => Shares.owner shares k = some i)
    (Shares.total shares - (2 ^ 32 - counter % 2 ^ 32)) (2 ^ 32 - counter % 2 ^ 32)
  rw [Nat.sub_add_cancel (by omega), Shares.count_owner hnodup hiw] at hcycle
  rw [count_choice_of_wrap hlt hwrap]
  omega

/-- If the total divides `2 ^ 32`, the wrap of the low word is a wrap of the cycle. -/
theorem count_choice_of_dvd (hnodup : (shares.map Prod.fst).Nodup)
    (hlt : Shares.total shares < 2 ^ 32) (hdvd : Shares.total shares ∣ 2 ^ 32) (counter : Nat)
    {i w : Nat} (hiw : (i, w) ∈ shares) :
    Nat.count (fun k => choice shares (counter + k) = some i) (Shares.total shares) = w := by
  apply count_choice_of_cycle hnodup counter counter _ hiw
  intro k hk
  rw [choice_eq_owner hlt (by omega), Nat.mod_mod_of_dvd _ hdvd]

/-- A single peer is always chosen. -/
theorem count_choice_of_single {j v : Nat} (hpos : 1 ≤ v) (hlt : v < 2 ^ 32) (counter : Nat) :
    Nat.count (fun k => choice [(j, v)] (counter + k) = some j) v = v := by
  have htotal : Shares.total [(j, v)] = v := rfl
  apply Nat.count_iff_forall.2
  intro k _
  rw [choice_eq_owner (by rw [htotal]; exact hlt) (by rw [htotal]; exact hpos), htotal,
    Shares.owner, if_pos (Nat.mod_lt _ hpos)]

/-- A total of `2 ^ 32` or more wraps: the last of several peers is never chosen. -/
theorem count_choice_last_of_overflow {init : List (Nat × Nat)} {i w : Nat}
    (hnodup : ((init ++ [(i, w)]).map Prod.fst).Nodup) (hw : w < 2 ^ 32)
    (hbig : 2 ^ 32 ≤ Shares.total (init ++ [(i, w)])) (counter n : Nat) :
    Nat.count (fun k => choice (init ++ [(i, w)]) (counter + k) = some i) n = 0 := by
  apply Nat.count_iff_forall_not.2
  intro k _ hchoice
  have htotal : Shares.total (init ++ [(i, w)]) = Shares.total init + w := by
    rw [Shares.total_append]
    rfl
  rw [choice] at hchoice
  split at hchoice
  · cases hchoice
  · rename_i hne
    have hle := Shares.total_le_of_owner_last hnodup hchoice
    have hlt := Nat.mod_lt ((counter + k) % 2 ^ 32) (Nat.pos_of_ne_zero hne)
    omega

/-- When the total does not divide `2 ^ 32`, the window that starts as many picks before a multiple
of `2 ^ 32` as the last peer has weight gives the last peer too little: after the multiple it is not
chosen, and before it the choices are not all its own. -/
theorem count_choice_last_of_wrap {init : List (Nat × Nat)} {i w : Nat}
    (hnodup : ((init ++ [(i, w)]).map Prod.fst).Nodup) (hw : 1 ≤ w)
    (hinit : 0 < Shares.total init) (hlt : Shares.total init + w < 2 ^ 32)
    (hdvd : ¬ Shares.total init + w ∣ 2 ^ 32) :
    Nat.count (fun k => choice (init ++ [(i, w)]) (2 ^ 32 - w + k) = some i)
      (Shares.total init + w) ≠ w := by
  have htotal : Shares.total (init ++ [(i, w)]) = Shares.total init + w := by
    rw [Shares.total_append]
    rfl
  have hlast : ∀ x, choice (init ++ [(i, w)]) x = some i →
      Shares.total init ≤ x % 2 ^ 32 % (Shares.total init + w) := by
    intro x hx
    rw [choice_eq_owner (by omega) (by omega), htotal] at hx
    exact Shares.total_le_of_owner_last hnodup hx
  intro hcount
  rw [Nat.add_comm (Shares.total init) w, Nat.count_add] at hcount
  have hafter : Nat.count (fun k => choice (init ++ [(i, w)]) (2 ^ 32 - w + (w + k)) = some i)
      (Shares.total init) = 0 := by
    apply Nat.count_iff_forall_not.2
    intro k hk hchoice
    have hle := hlast _ hchoice
    have hlow : (2 ^ 32 - w + (w + k)) % 2 ^ 32 = k := by omega
    rw [hlow, Nat.mod_eq_of_lt (by omega)] at hle
    omega
  rw [hafter, Nat.add_zero] at hcount
  have hall := Nat.count_iff_forall.1 hcount
  -- The remainder of `2 ^ 32` says where the cycle is cut.
  have hdiv := Nat.div_add_mod (2 ^ 32) (Shares.total init + w)
  have hrem : 0 < 2 ^ 32 % (Shares.total init + w) :=
    Nat.pos_of_ne_zero fun h => hdvd (Nat.dvd_of_mod_eq_zero h)
  have hrem' := Nat.mod_lt (2 ^ 32) (by omega : 0 < Shares.total init + w)
  generalize hq : 2 ^ 32 / (Shares.total init + w) = q at hdiv
  generalize hr : 2 ^ 32 % (Shares.total init + w) = r at hdiv hrem hrem'
  by_cases hcut : r ≤ w
  · have hle := hlast _ (hall (w - r) (by omega))
    have hzero : (2 ^ 32 - w + (w - r)) % 2 ^ 32 = (Shares.total init + w) * q := by omega
    rw [hzero, Nat.mul_mod_right] at hle
    omega
  · have hle := hlast _ (hall 0 (by omega))
    have hstart : (2 ^ 32 - w + 0) % 2 ^ 32 = (Shares.total init + w) * q + (r - w) := by omega
    rw [hstart, Nat.mul_add_mod, Nat.mod_eq_of_lt (by omega)] at hle
    omega

/-- All peers of a pool with one peer at most are chosen as often as they should. -/
theorem count_choice_of_length_le_one (hweights : ∀ i w, (i, w) ∈ shares → 1 ≤ w ∧ w < 2 ^ 32)
    (hone : shares.length ≤ 1) (counter : Nat) {i w : Nat} (hiw : (i, w) ∈ shares) :
    Nat.count (fun k => choice shares (counter + k) = some i) (Shares.total shares) = w := by
  rcases shares with _ | ⟨⟨j, v⟩, _ | ⟨s, rest⟩⟩
  · cases hiw
  · obtain ⟨rfl, rfl⟩ := Prod.mk.inj (List.mem_singleton.1 hiw)
    have hbounds := hweights i w hiw
    exact count_choice_of_single hbounds.1 hbounds.2 counter
  · simp at hone

/-- Which windows are exact, for the shares of a pool. -/
theorem count_choice_iff (hnodup : (shares.map Prod.fst).Nodup)
    (hweights : ∀ i w, (i, w) ∈ shares → 1 ≤ w ∧ w < 2 ^ 32) (counter : Nat) :
    (∀ i w, (i, w) ∈ shares →
      Nat.count (fun k => choice shares (counter + k) = some i) (Shares.total shares) = w) ↔
        shares.length ≤ 1 ∨ (Shares.total shares < 2 ^ 32 ∧
          (counter % 2 ^ 32 + Shares.total shares ≤ 2 ^ 32 ∨ HarmlessWrap shares counter)) := by
  by_cases hone : shares.length ≤ 1
  · refine ⟨fun _ => Or.inl hone, fun _ i w hiw => ?_⟩
    exact count_choice_of_length_le_one hweights hone counter hiw
  · by_cases hlt : Shares.total shares < 2 ^ 32
    · by_cases hwrap : counter % 2 ^ 32 + Shares.total shares ≤ 2 ^ 32
      · refine ⟨fun _ => Or.inr ⟨hlt, Or.inl hwrap⟩, fun _ i w hiw => ?_⟩
        exact count_choice_of_noWrap hnodup hlt hwrap hiw
      · rw [count_choice_iff_harmless hnodup hlt (Nat.not_le.1 hwrap)]
        simp only [hone, hlt, hwrap, false_or, true_and]
    -- The weights overflow, and the last peer gets nothing.
    · refine ⟨fun h => ?_, fun h => absurd (h.resolve_left hone).1 hlt⟩
      rcases List.eq_nil_or_concat' shares with rfl | ⟨init, ⟨i, w⟩, rfl⟩
      · exact absurd (Nat.zero_le 1) hone
      · have hlast := hweights i w (by simp)
        have hexact := h i w (by simp)
        rw [count_choice_last_of_overflow hnodup hlast.2 (Nat.not_lt.1 hlt)] at hexact
        omega

/-- Windows from every counter value are exact only for a total that divides `2 ^ 32`. -/
theorem dvd_of_count_choice (hnodup : (shares.map Prod.fst).Nodup)
    (hweights : ∀ i w, (i, w) ∈ shares → 1 ≤ w ∧ w < 2 ^ 32) (hmany : ¬ shares.length ≤ 1)
    (hlt : Shares.total shares < 2 ^ 32)
    (h : ∀ counter : UInt64, ∀ i w, (i, w) ∈ shares →
      Nat.count (fun k => choice shares (counter.toNat + k) = some i) (Shares.total shares) = w) :
    Shares.total shares ∣ 2 ^ 32 := by
  by_contra hdvd
  rcases List.eq_nil_or_concat' shares with rfl | ⟨init, ⟨i, w⟩, rfl⟩
  · exact hmany (Nat.zero_le _)
  · have hlast := hweights i w (by simp)
    have hsum : Shares.total (init ++ [(i, w)]) = Shares.total init + w := by
      rw [Shares.total_append]
      rfl
    rw [hsum] at hdvd hlt
    have hinit : 0 < Shares.total init := by
      cases init with
      | nil => exact absurd (le_refl 1) hmany
      | cons s rest =>
          obtain ⟨j, v⟩ := s
          have hv := hweights j v (by simp)
          rw [Shares.total_cons]
          omega
    have hexact := h (UInt64.ofNat (2 ^ 32 - w)) i w (by simp)
    have hstart : (UInt64.ofNat (2 ^ 32 - w)).toNat = 2 ^ 32 - w := by
      rw [UInt64.toNat_ofNat']
      exact Nat.mod_eq_of_lt (by omega)
    rw [hstart, hsum] at hexact
    exact count_choice_last_of_wrap hnodup hlast.1 hinit hlt hdvd hexact

end Windows

/-- **Exactness of weighted round robin.** Consider the pool a round-robin balancer has at some
time for some exclude list. The window from a counter value is exact exactly if the pool has at
most one peer or its total weight is below `2 ^ 32` and the low word of the counter does not wrap
within the window, or wraps without harm. Windows from every counter value are exact exactly if
the pool has at most one peer or its total weight is a divisor of `2 ^ 32` below `2 ^ 32`. -/
theorem round_robin_exact_iff (hash : IpAddr → UInt64) (b : Balancer)
    (hrr : b.method = .roundRobin) (nowMs : UInt64) (exclude : List String) :
    (∀ counter : UInt64, ExactFrom hash b (sharesOf (b.pool nowMs exclude)) counter ↔
        (b.pool nowMs exclude).length ≤ 1 ∨
          (Balancer.totalWeight (b.pool nowMs exclude) < 2 ^ 32 ∧
            (counter.toNat % 2 ^ 32 + Balancer.totalWeight (b.pool nowMs exclude) ≤ 2 ^ 32 ∨
              HarmlessWrap (sharesOf (b.pool nowMs exclude)) counter.toNat))) ∧
      ((∀ counter, ExactFrom hash b (sharesOf (b.pool nowMs exclude)) counter) ↔
        (b.pool nowMs exclude).length ≤ 1 ∨
          (Balancer.totalWeight (b.pool nowMs exclude) ∣ 2 ^ 32 ∧
            Balancer.totalWeight (b.pool nowMs exclude) < 2 ^ 32)) := by
  have hnodup := sharesOf_pool_nodup b nowMs exclude
  have hweights : ∀ i w, (i, w) ∈ sharesOf (b.pool nowMs exclude) → 1 ≤ w ∧ w < 2 ^ 32 :=
    fun i w => weight_bounds
  have hlen : (b.pool nowMs exclude).length = (sharesOf (b.pool nowMs exclude)).length := by
    rw [sharesOf, List.length_map]
  simp only [exactFrom_iff hash hrr, ← total_sharesOf, hlen]
  generalize sharesOf (b.pool nowMs exclude) = shares at hnodup hweights
  refine ⟨fun counter => count_choice_iff hnodup hweights counter.toNat, ?_, ?_⟩
  · intro h
    by_cases hone : shares.length ≤ 1
    · exact Or.inl hone
    · rcases (count_choice_iff hnodup hweights _).1 (h 0) with hfew | ⟨hlt, -⟩
      · exact absurd hfew hone
      · exact Or.inr ⟨dvd_of_count_choice hnodup hweights hone hlt h, hlt⟩
  · rintro (hone | ⟨hdvd, hlt⟩) counter i w hiw
    · exact count_choice_of_length_le_one hweights hone counter.toNat hiw
    · exact count_choice_of_dvd hnodup hlt hdvd counter.toNat hiw

/-- A round-robin balancer with two peers of the given weights. -/
def twoPeers (first second : UInt32) : Balancer where
  name := "backend"
  method := .roundRobin
  peers := [⟨"10.0.0.1:80", first, 1, Text.fromSecs 10, false, false, 0, 0, 0⟩,
    ⟨"10.0.0.2:80", second, 1, Text.fromSecs 10, false, false, 0, 0, 0⟩]
  scheme := .http

/-- With weights 2 and 1, the three picks from the counter value `2 ^ 32 - 1` all take the first
peer. -/
theorem two_to_one_is_not_exact :
    ¬ ExactFrom (fun _ => 0) (twoPeers 2 1) (sharesOf ((twoPeers 2 1).pool 1000 []))
      4294967295 := by
  intro h
  have hexact := h (List.replicate 3 (.pick 1000 (.v4 ⟨192, 0, 2, 7⟩) []))
    (allSteps_replicate_pick _ { twoPeers 2 1 with rrCounter := 4294967295 } 1000 _ [] 3)
    (by decide) 1 1 (by decide)
  exact absurd hexact (by decide)

/-- With weights 3 and 1 every window is exact, and with weights 2 and 1 the first one is. -/
theorem round_robin_exact_iff_twoPeers :
    (∀ counter, ExactFrom (fun _ => 0) (twoPeers 3 1) (sharesOf ((twoPeers 3 1).pool 1000 []))
        counter) ∧
      ExactFrom (fun _ => 0) (twoPeers 2 1) (sharesOf ((twoPeers 2 1).pool 1000 [])) 0 := by
  constructor
  · exact (round_robin_exact_iff _ (twoPeers 3 1) rfl 1000 []).2.2
      (Or.inr ⟨by decide, by decide⟩)
  · exact ((round_robin_exact_iff _ (twoPeers 2 1) rfl 1000 []).1 0).2
      (Or.inr ⟨by decide, Or.inl (by decide)⟩)

end Elrond.Upstream
