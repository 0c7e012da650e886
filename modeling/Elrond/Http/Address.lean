import Elrond.Lib.Text

/-!
# Socket addresses

`IpAddr` and `SocketAddr` with the textual forms of the Rust standard library: the parsers accept
what `std::net` accepts (decimal octets without leading zeros, hexadecimal groups with one `::`, an
optional trailing IPv4 part, `[v6]:port`), the printers give its `Display` form.

A reader takes the remaining characters and returns what it read with the rest; `none` leaves the
input where it was, as the atomic readers of the standard library do.
-/

set_option autoImplicit false

namespace Elrond.Http

open Elrond.Lib

/-- An IPv4 address, four octets. -/
structure Ipv4Addr where
  a : UInt8
  b : UInt8
  c : UInt8
  d : UInt8
deriving DecidableEq, Repr

/-- An IPv6 address, eight groups of sixteen bits. -/
structure Ipv6Addr where
  segments : List UInt16
  length_eq : segments.length = 8
deriving DecidableEq, Repr

/-- An address of either family. -/
inductive IpAddr where
  | v4 (addr : Ipv4Addr)
  | v6 (addr : Ipv6Addr)
deriving DecidableEq, Repr

/-- An address with a port. `scopeId` is the zone of an IPv6 socket address and zero otherwise. -/
structure SocketAddr where
  ip : IpAddr
  port : UInt16
  scopeId : UInt32
deriving DecidableEq, Repr

/-! ## Readers -/

/-- The value of a digit in a radix of at most sixteen. -/
def digitIn (radix : Nat) (c : Char) : Option Nat :=
  let v :=
    if '0' ≤ c && c ≤ '9' then c.toNat - '0'.toNat
    else if 'a' ≤ c && c ≤ 'f' then c.toNat - 'a'.toNat + 10
    else if 'A' ≤ c && c ≤ 'F' then c.toNat - 'A'.toNat + 10
    else radix
  if v < radix then some v else none

/-- The longest run of digits at the head of the input. -/
def spanDigits (radix : Nat) (cs : List Char) : List Char × List Char :=
  cs.span fun c => (digitIn radix c).isSome

/-- The number a run of digits denotes. -/
def digitsValue (radix : Nat) (ds : List Char) : Nat :=
  ds.foldl (fun n c => radix * n + (digitIn radix c).getD 0) 0

/-- `read_number`: all digits at the head, at most `maxDigits` of them when given, below `bound`,
and without a leading zero on a longer number unless allowed. -/
def readNumber (radix bound : Nat) (maxDigits : Option Nat) (allowZeroLead : Bool)
    (cs : List Char) : Option (Nat × List Char) :=
  let (ds, rest) := spanDigits radix cs
  if ds.isEmpty then none
  else if maxDigits.any fun m => m < ds.length then none
  else if !allowZeroLead && ds.head? == some '0' && 1 < ds.length then none
  else if digitsValue radix ds < bound then some (digitsValue radix ds, rest)
  else none

/-- `read_given_char`. -/
def readGivenChar (c : Char) : List Char → Option (List Char)
  | [] => none
  | x :: rest => if x = c then some rest else none

/-- `read_ipv4_addr`. -/
def readIpv4Addr (cs : List Char) : Option (Ipv4Addr × List Char) := do
  let (a, cs) ← readNumber 10 256 (some 3) false cs
  let cs ← readGivenChar '.' cs
  let (b, cs) ← readNumber 10 256 (some 3) false cs
  let cs ← readGivenChar '.' cs
  let (c, cs) ← readNumber 10 256 (some 3) false cs
  let cs ← readGivenChar '.' cs
  let (d, cs) ← readNumber 10 256 (some 3) false cs
  some (⟨UInt8.ofNat a, UInt8.ofNat b, UInt8.ofNat c, UInt8.ofNat d⟩, cs)

/-- The two groups an embedded IPv4 address stands for. -/
def Ipv4Addr.groups (x : Ipv4Addr) : List UInt16 :=
  [UInt16.ofNat (256 * x.a.toNat + x.b.toNat), UInt16.ofNat (256 * x.c.toNat + x.d.toNat)]

/-- `read_separator`: the separator stands before every item but the first. -/
def skipSeparator (index : Nat) (cs : List Char) : Option (List Char) :=
  if index = 0 then some cs else readGivenChar ':' cs

/-- `read_groups`: up to `left` colon-separated groups, of which `index` were already read. An
embedded IPv4 address ends the list and needs two free groups. -/
def readGroups : (left index : Nat) → List Char → List UInt16 × Bool × List Char
  | 0, _, cs => ([], false, cs)
  | left + 1, index, cs =>
      let ipv4 := if 0 < left then (skipSeparator index cs).bind readIpv4Addr else none
      match ipv4 with
      | some (addr, rest) => (addr.groups, true, rest)
      | none =>
          match (skipSeparator index cs).bind (readNumber 16 65536 (some 4) true) with
          | none => ([], false, cs)
          | some (g, rest) =>
              let (gs, ended, rest) := readGroups left (index + 1) rest
              (UInt16.ofNat g :: gs, ended, rest)

/-- The eight groups written with a `::` between `head` and `tail`. -/
def joinGroups (head tail : List UInt16) : Option Ipv6Addr :=
  let gs := head ++ List.replicate (8 - head.length - tail.length) 0 ++ tail
  if h : gs.length = 8 then some ⟨gs, h⟩ else none

/-- `read_ipv6_addr`. -/
def readIpv6Addr (cs : List Char) : Option (Ipv6Addr × List Char) :=
  let (head, headV4, rest) := readGroups 8 0 cs
  if head.length = 8 then (joinGroups head []).map fun addr => (addr, rest)
  else if headV4 then none
  else do
    let rest ← readGivenChar ':' rest
    let rest ← readGivenChar ':' rest
    let (tail, _, rest) := readGroups (8 - (head.length + 1)) 0 rest
    (joinGroups head tail).map fun addr => (addr, rest)

/-- `IpAddr::from_str`. -/
def IpAddr.parse (s : String) : Option IpAddr :=
  match readIpv4Addr s.toList with
  | some (addr, []) => some (.v4 addr)
  | _ =>
      match readIpv6Addr s.toList with
      | some (addr, []) => some (.v6 addr)
      | _ => none

/-- `read_port`. -/
def readPort (cs : List Char) : Option (UInt16 × List Char) := do
  let cs ← readGivenChar ':' cs
  let (n, cs) ← readNumber 10 65536 none true cs
  some (UInt16.ofNat n, cs)

/-- `read_scope_id`, absent when there is no `%`. -/
def readScopeId (cs : List Char) : UInt32 × List Char :=
  match (readGivenChar '%' cs).bind (readNumber 10 (2 ^ 32) none true) with
  | some (n, rest) => (UInt32.ofNat n, rest)
  | none => (0, cs)

/-- `SocketAddr::from_str`. -/
def SocketAddr.parse (s : String) : Option SocketAddr :=
  let v4 := do
    let (addr, cs) ← readIpv4Addr s.toList
    let (port, cs) ← readPort cs
    if cs.isEmpty then some (SocketAddr.mk (.v4 addr) port 0) else none
  match v4 with
  | some a => some a
  | none => do
      let cs ← readGivenChar '[' s.toList
      let (addr, cs) ← readIpv6Addr cs
      let (scope, cs) := readScopeId cs
      let cs ← readGivenChar ']' cs
      let (port, cs) ← readPort cs
      if cs.isEmpty then some (SocketAddr.mk (.v6 addr) port scope) else none

/-! ## Printing -/

/-- The text of a number in a radix. -/
def numberText (radix n : Nat) : String := String.ofList (Nat.toDigits radix n)

/-- `Display` for IPv4 addresses. -/
def Ipv4Addr.toText (x : Ipv4Addr) : String :=
  numberText 10 x.a.toNat ++ "." ++ numberText 10 x.b.toNat ++ "." ++
    numberText 10 x.c.toNat ++ "." ++ numberText 10 x.d.toNat

/-- Groups in hexadecimal, separated by colons. -/
def groupsText (gs : List UInt16) : String :=
  String.intercalate ":" (gs.map fun g => numberText 16 g.toNat)

/-- Length of the run of zero groups at the head. -/
def zeroRun (gs : List UInt16) : Nat := (gs.takeWhile (· == 0)).length

/-- Start and length of the longest run of zero groups, the first one among equals. -/
def longestZeroRun (gs : List UInt16) : Nat × Nat :=
  (List.range gs.length).foldl
    (fun best i =>
      let n := zeroRun (gs.drop i)
      if best.2 < n then (i, n) else best)
    (0, 0)

/-- `Display` for IPv6 addresses: an IPv4-mapped address in its mixed form, otherwise the longest
run of at least two zero groups written `::`. -/
def Ipv6Addr.toText (x : Ipv6Addr) : String :=
  match x.segments with
  | [0, 0, 0, 0, 0, 0xFFFF, g, h] =>
      "::ffff:" ++ (Ipv4Addr.mk (UInt8.ofNat (g.toNat / 256)) (UInt8.ofNat g.toNat)
        (UInt8.ofNat (h.toNat / 256)) (UInt8.ofNat h.toNat)).toText
  | gs =>
      let (start, len) := longestZeroRun gs
      if 1 < len then groupsText (gs.take start) ++ "::" ++ groupsText (gs.drop (start + len))
      else groupsText gs

/-- `Display` for addresses of either family. -/
def IpAddr.toText : IpAddr → String
  | .v4 addr => addr.toText
  | .v6 addr => addr.toText

/-- `Display` for socket addresses. -/
def SocketAddr.toText (a : SocketAddr) : String :=
  match a.ip with
  | .v4 addr => addr.toText ++ ":" ++ numberText 10 a.port.toNat
  | .v6 addr =>
      let scope := if a.scopeId = 0 then "" else "%" ++ numberText 10 a.scopeId.toNat
      "[" ++ addr.toText ++ scope ++ "]:" ++ numberText 10 a.port.toNat

end Elrond.Http
