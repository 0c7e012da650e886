import Elrond.Proxy.Forward

/-!
# Relaying streams

`stream::handle` relays a TCP connection and `handle_udp` one datagram, each to a peer picked for
the client's address. What goes wrong on the way ends in one record on the peer: bytes that cannot
be copied, whichever side failed, or a datagram that cannot be sent or is not answered.
-/

set_option autoImplicit false

namespace Elrond.Stream

open Elrond.Lib Elrond.Http Elrond.Upstream Elrond.Proxy

/-! ## Copying in both directions -/

/-- The two ends of a relayed connection. -/
inductive Side where
  | client
  | server
deriving DecidableEq, Repr

/-- An operation on an end. -/
inductive IoOp where
  | read
  | write
  | shutdown
deriving DecidableEq, Repr

/-- An operation that has completed: with a number of bytes, or with an error. -/
structure Io where
  side : Side
  op : IoOp
  result : Option Nat
deriving DecidableEq, Repr

/-- `copy_bidirectional`, after the given numbers of bytes: it counts the bytes written to each end
and ends with the first error, on whichever end. -/
def copyBidirectional : (toUpstream fromUpstream : Nat) → List Io → Option (Nat × Nat)
  | toUpstream, fromUpstream, [] => some (toUpstream, fromUpstream)
  | toUpstream, fromUpstream, io :: rest =>
      match io.result with
      | none => none
      | some n =>
          match io.op, io.side with
          | .write, .server => copyBidirectional (toUpstream + n) fromUpstream rest
          | .write, .client => copyBidirectional toUpstream (fromUpstream + n) rest
          | _, _ => copyBidirectional toUpstream fromUpstream rest

/-- What an exchange does besides its records on the peer. -/
inductive RelayEffect where
  | streamBytes (toUpstream fromUpstream : Nat)
  | sendTo (client : SocketAddr) (data : Bytes)
deriving DecidableEq, Repr

/-- The events of a relayed exchange. -/
inductive RelayEvent where
  | enter (peer : Nat)
  | effect (e : RelayEffect)
  | recordSuccess (peer : Nat)
  | recordFailure (peer : Nat)
  | leave (peer : Nat)
deriving DecidableEq, Repr

/-- What comes of an exchange with a peer, and the effects before and after it is recorded. -/
structure Exchanged where
  before : List RelayEffect
  success : Bool
  after : List RelayEffect

/-- What every exchange meets: the clock at the pick and at its end, and other requests. -/
structure RelayEnv where
  hash : IpAddr → UInt64
  pickMs : UInt64
  during : Interference
  doneMs : UInt64

/-- The balancer after an exchange, and its events. -/
structure RelayResult where
  balancer : Balancer
  events : List RelayEvent

/-- The position of the peer that `pick_for_addr` picks for a client. -/
def pickedFor (env : RelayEnv) (client : SocketAddr) (b : Balancer) : Option Nat :=
  (b.pickInner env.hash env.pickMs client.ip []).1.map Prod.snd

/-- The frame of both exchanges: a peer is picked and entered, and the outcome recorded on it. -/
def relay (env : RelayEnv) (client : SocketAddr) (b : Balancer) (exchange : Nat → Exchanged) :
    RelayResult :=
  match b.pickInner env.hash env.pickMs client.ip [] with
  | (none, b) => ⟨b, []⟩
  | (some (_, i), b) =>
      let b := env.during.apply (b.modifyPeer i Peer.enter)
      let x := exchange i
      if x.success then
        ⟨succeedPeer b i,
          .enter i :: x.before.map .effect ++ .recordSuccess i :: x.after.map .effect ++ [.leave i]⟩
      else
        ⟨failPeer b i env.doneMs,
          .enter i :: x.before.map .effect ++ .recordFailure i :: x.after.map .effect ++ [.leave i]⟩

/-- A failure is recorded exactly on the peer that was picked, if the exchange with it fails. -/
theorem recordFailure_mem_relay (env : RelayEnv) (client : SocketAddr) (b : Balancer)
    (exchange : Nat → Exchanged) (i : Nat) :
    .recordFailure i ∈ (relay env client b exchange).events ↔
      pickedFor env client b = some i ∧ (exchange i).success = false := by
  rw [relay, pickedFor]
  rcases b.pickInner env.hash env.pickMs client.ip [] with ⟨_ | ⟨peer, j⟩, b'⟩
  · simp
  · simp only [Option.map_some, Option.some.injEq]
    cases hsuccess : (exchange j).success with
    | true =>
        simp only [if_true, List.cons_append, List.append_assoc, List.mem_cons, List.mem_append,
          List.mem_map, reduceCtorEq, and_false, exists_false, List.not_mem_nil, or_self,
          false_iff, not_and]
        rintro rfl hfalse
        rw [hsuccess] at hfalse
        cases hfalse
    | false =>
        simp only [Bool.false_eq_true, if_false, List.cons_append, List.append_assoc,
          List.mem_cons, List.mem_append, List.mem_map, reduceCtorEq, and_false, exists_false,
          List.not_mem_nil, or_self, or_false, false_or, RelayEvent.recordFailure.injEq]
        constructor
        · rintro rfl
          exact ⟨rfl, hsuccess⟩
        · rintro ⟨rfl, -⟩
          rfl

/-! ## TCP -/

/-- What a connection meets: whether the peer at a position accepts it, and the operations then. -/
structure TcpEnv extends RelayEnv where
  connects : Nat → Bool
  io : Nat → List Io

/-- The exchange of `handle` with a peer. -/
def tcpExchange (env : TcpEnv) (peer : Nat) : Exchanged :=
  if env.connects peer then
    match copyBidirectional 0 0 (env.io peer) with
    | some (toUpstream, fromUpstream) => ⟨[], true, [.streamBytes toUpstream fromUpstream]⟩
    | none => ⟨[], false, []⟩
  else ⟨[], false, []⟩

/-- `stream::handle`. -/
def handle (env : TcpEnv) (client : SocketAddr) (b : Balancer) : RelayResult :=
  relay env.toRelayEnv client b (tcpExchange env)

/-- What comes back for a datagram within `UDP_REPLY_TIMEOUT`. -/
inductive UdpReply where
  | datagram (data : Bytes)
  | error
  | silent
deriving DecidableEq, Repr

/-- What a datagram meets: whether a socket is bound, connected to the peer at a position and the
datagram sent on it, and the reply of the peer. -/
structure UdpEnv extends RelayEnv where
  binds : Bool
  connects : Nat → Bool
  sends : Nat → Bytes → Bool
  reply : Nat → Bytes → UdpReply

/-- The exchange of `handle_udp` with a peer. -/
def udpExchange (env : UdpEnv) (client : SocketAddr) (request : Bytes) (peer : Nat) : Exchanged :=
  if !env.binds then ⟨[], false, []⟩
  else if !env.connects peer then ⟨[], false, []⟩
  else if !env.sends peer request then ⟨[], false, []⟩
  else
    let sent := [RelayEffect.streamBytes request.length 0]
    match env.reply peer request with
    -- an error on the way back to the client is not recorded on the peer
    | .datagram data => ⟨sent, true, [.streamBytes 0 data.length, .sendTo client data]⟩
    | .error => ⟨sent, false, []⟩
    | .silent => ⟨sent, false, []⟩

/-- `stream::handle_udp`. -/
def handleUdp (env : UdpEnv) (client : SocketAddr) (request : Bytes) (b : Balancer) :
    RelayResult :=
  relay env.toRelayEnv client b (udpExchange env client request)

end Elrond.Stream
