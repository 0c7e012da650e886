import Mathlib.Data.UInt
import Elrond.Config.Ast

/-!
# Peers and balancers

`Peer` and `Balancer` of `app.rs`. A peer carries its configuration and its live counters; a
balancer picks one of its peers by the method of the upstream. Peers are shared objects in the
source, so a pick names a peer by its position in the list; two peers may have the same address.
Times are milliseconds of the Unix clock and counters have the width of the source's atomics, with
its wrapping arithmetic.

The hash of `ip_hash` is the unspecified hasher of the standard library and stays a parameter.
-/

set_option autoImplicit false

namespace Elrond.Upstream

open Elrond.Lib Elrond.Http Elrond.Config

/-! ## Peers -/

/-- `Peer`. -/
structure Peer where
  addr : String
  weight : UInt32
  maxFails : UInt32
  failTimeout : Text.Duration
  backup : Bool
  down : Bool
  inFlight : UInt32 := 0
  consecutiveFailures : UInt32 := 0
  failedUntilMs : UInt64 := 0
deriving DecidableEq, Repr

namespace Peer

/-- `Peer::is_available`. -/
def isAvailable (p : Peer) (nowMs : UInt64) : Bool :=
  if p.down then false else p.failedUntilMs == 0 || p.failedUntilMs ≤ nowMs

/-- `Peer::record_success`. -/
def recordSuccess (p : Peer) : Peer := { p with consecutiveFailures := 0, failedUntilMs := 0 }

/-- `Peer::record_failure`. -/
def recordFailure (p : Peer) (nowMs : UInt64) : Peer :=
  let n := p.consecutiveFailures + 1
  if max p.maxFails 1 ≤ n then
    { p with
      consecutiveFailures := n
      failedUntilMs := nowMs + UInt64.ofNat (Text.asMillis p.failTimeout) }
  else { p with consecutiveFailures := n }

/-- `Peer::enter`: one request more in flight. -/
def enter (p : Peer) : Peer := { p with inFlight := p.inFlight + 1 }

/-- The drop of an `InflightGuard`. -/
def leave (p : Peer) : Peer := { p with inFlight := p.inFlight - 1 }

end Peer

/-! ## Balancers -/

/-- `Balancer`. -/
structure Balancer where
  name : String
  method : LbMethod
  peers : List Peer
  scheme : Scheme
  rrCounter : UInt64 := 0
deriving DecidableEq, Repr

namespace Balancer

/-- The peers a pick may choose from, with their positions: those with the given `backup` flag
that are available and not excluded. -/
def candidates (b : Balancer) (backup : Bool) (nowMs : UInt64) (exclude : List String) :
    List (Peer × Nat) :=
  b.peers.zipIdx.filter fun p =>
    p.1.backup == backup && p.1.isAvailable nowMs && !exclude.contains p.1.addr

/-- The pool of a pick: the primaries, or the backups when no primary can be picked. -/
def pool (b : Balancer) (nowMs : UInt64) (exclude : List String) : List (Peer × Nat) :=
  let primaries := b.candidates false nowMs exclude
  if primaries.isEmpty then b.candidates true nowMs exclude else primaries

/-- The weight a peer counts with. -/
def effectiveWeight (p : Peer) : UInt32 := max p.weight 1

/-- The walk of `pick_weighted_rr`: subtract weights until one exceeds the target. -/
def walkWeights : UInt32 → List (Peer × Nat) → Option (Peer × Nat)
  | _, [] => none
  | target, p :: ps =>
      if target < effectiveWeight p.1 then some p
      else walkWeights (target - effectiveWeight p.1) ps

/-- `pick_weighted_rr`, with the counter after it. -/
def pickWeightedRr (b : Balancer) (pool : List (Peer × Nat)) : Option (Peer × Nat) × UInt64 :=
  let total := (pool.map fun p => effectiveWeight p.1).sum
  if total = 0 then (none, b.rrCounter)
  else
    let target := b.rrCounter.toUInt32 % total
    ((walkWeights target pool).or pool.head?, b.rrCounter + 1)

/-- The score of `pick_least_conn`. -/
def connScore (p : Peer) : UInt64 :=
  (p.inFlight.toUInt64 * 1000000) / (effectiveWeight p).toUInt64

/-- `pick_least_conn`: the lowest score, the first peer among equals. -/
def pickLeastConn (pool : List (Peer × Nat)) : Option (Peer × Nat) :=
  pool.foldl
    (fun best p =>
      match best with
      | none => some p
      | some q => if connScore p.1 < connScore q.1 then some p else some q)
    none

/-- `pick_ip_hash`. -/
def pickIpHash (hash : IpAddr → UInt64) (clientIp : IpAddr) (pool : List (Peer × Nat)) :
    Option (Peer × Nat) :=
  pool[(hash clientIp).toNat % pool.length]?

/-- `pick_inner`: the peer with its position, and the balancer after the pick. -/
def pickInner (hash : IpAddr → UInt64) (b : Balancer) (nowMs : UInt64) (clientIp : IpAddr)
    (exclude : List String) : Option (Peer × Nat) × Balancer :=
  let pool := b.pool nowMs exclude
  if pool.isEmpty then (none, b)
  else
    match b.method with
    | .roundRobin =>
        let (p, counter) := b.pickWeightedRr pool
        (p, { b with rrCounter := counter })
    | .leastConn => (pickLeastConn pool, b)
    | .ipHash => (pickIpHash hash clientIp pool, b)

/-- Change the peer at a position. -/
def modifyPeer (b : Balancer) (i : Nat) (f : Peer → Peer) : Balancer :=
  { b with peers := b.peers.modify i f }

end Balancer

end Elrond.Upstream
