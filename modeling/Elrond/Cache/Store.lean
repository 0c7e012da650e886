import Elrond.Lib.HashMap
import Elrond.Lib.Run
import Elrond.Http.Message

/-!
# The cache store

`CacheStore` of `cache.rs`: a map from cache keys to lists of variants with a running byte count.
`get` drops the expired variants of its key and returns the first one whose signature matches the
request; `put` evicts the soonest-expiring variants until the new entry fits, then replaces the
variant with the same signature or adds a new one. `decide_caching` says which responses are
stored at all.

Both operations also return what they did besides the state: every `saturating_sub` on the byte
count with its operands, and every update of the cache metrics. Times are instants on one clock.
Byte counts are natural numbers: they total the lengths of live buffers, which fit `usize`.
The eviction loop asks for an iteration order in every round, since the map it walks has changed.
-/

set_option autoImplicit false

namespace Elrond.Cache

open Elrond.Lib Elrond.Http

/-- `Entry`: one cached response with its Vary fingerprint. -/
structure Entry where
  status : Nat
  headers : List (HeaderName × HeaderValue)
  body : Bytes
  expiresAt : Nat
  varyHeaders : List String
  varySignature : String
deriving DecidableEq

/-- `entry_bytes`. -/
def entryBytes (e : Entry) : Nat :=
  let headerBytes := (e.headers.map fun h => h.1.text.utf8ByteSize + h.2.bytes.length).sum
  let varyBytes := (e.varyHeaders.map String.utf8ByteSize).sum + e.varySignature.utf8ByteSize
  e.body.length + headerBytes + varyBytes

/-- The bytes of a list of variants. -/
def bytesOf (vs : List Entry) : Nat := (vs.map entryBytes).sum

/-- `State`: the variants by key, and the running byte count. -/
structure State where
  entries : HashMap String (List Entry)
  totalBytes : Nat

/-- The state of `CacheStore::new`. -/
def State.new : State := ⟨∅, 0⟩

/-- What an operation does besides changing the state: `sub` is a `saturating_sub` on the byte
count, the others are calls into the metrics. -/
inductive StoreEvent where
  | sub (total amount : Nat)
  | evict (bytes : Nat)
  | hit
  | miss
  | setBytes (bytes : Nat)
  | setEntries (count : Nat)
deriving DecidableEq, Repr

/-! ## Signatures -/

/-- The text a signature records for one header: the first line if it is readable, else nothing. -/
def signatureValue (req : HeaderMap) (name : String) : String :=
  ((req.get name).bind HeaderValue.toStr).getD ""

/-- `build_signature`: `name=value` and a NUL for every name of the Vary list, in order. -/
def buildSignature (req : HeaderMap) (varyNames : List String) : String :=
  varyNames.foldl (fun out name => out ++ name ++ "=" ++ signatureValue req name ++ "\x00") ""

/-- `parse_vary`: the members of all readable Vary lines, trimmed and in lower case. -/
def parseVary (headers : HeaderMap) : List String :=
  (headers.getAll "vary").flatMap fun v =>
    match v.toStr with
    | none => []
    | some s =>
        ((Text.split ',' s).map fun token => Text.toAsciiLowercase (Text.trim token)).filter
          fun t => t ≠ ""

/-! ## Deciding and storing -/

/-- `MAX_ENTRY_BYTES`. -/
def maxEntryBytes : Nat := 4 * 1024 * 1024

/-- `CacheDecision`. -/
inductive CacheDecision where
  | store (ttl : Text.Duration)
  | bypass (reason : String)
deriving DecidableEq, Repr

/-- A Cache-Control member that forbids caching. -/
def forbidsCaching (cacheControl : String) : Bool :=
  (Text.split ',' (Text.toAsciiLowercase cacheControl)).any fun tok =>
    let tok := Text.trim tok
    tok == "no-store" || tok == "private" || tok == "no-cache"

/-- The duration of the last rule that matches a status; a rule without codes matches any. -/
def matchingTtl (validRules : List (List Nat × Text.Duration)) (status : Nat) :
    Option Text.Duration :=
  validRules.foldl
    (fun ttl rule => if rule.1.isEmpty || rule.1.contains status then some rule.2 else ttl) none

/-- `decide_caching`. -/
def decideCaching (method : Method) (headers : HeaderMap) (status bodyLen : Nat)
    (validRules : List (List Nat × Text.Duration)) : CacheDecision :=
  if method ≠ .get then .bypass "method not GET"
  else if (headers.get "set-cookie").isSome then .bypass "response has Set-Cookie"
  else if (parseVary headers).any (· == "*") then .bypass "response has Vary: *"
  else if ((headers.get "cache-control").bind HeaderValue.toStr).any forbidsCaching then
    .bypass "response Cache-Control disallows caching"
  else if maxEntryBytes < bodyLen then .bypass "body exceeds per-entry size limit"
  else
    match matchingTtl validRules status with
    | some d => .store d
    | none => .bypass "no proxy_cache_valid rule matched"

/-- The entry `maybe_cache` stores at the instant `now` for the response to a request with the
headers `req`, if it stores one. -/
def storedEntry (method : Method) (req : HeaderMap) (now : Nat)
    (validRules : List (List Nat × Text.Duration)) (status : Nat) (headers : HeaderMap)
    (body : Bytes) : Option Entry :=
  match decideCaching method headers status body.length validRules with
  | .bypass _ => none
  | .store ttl =>
      some
        { status := status
          headers := headers.entries
          body := body
          expiresAt := now + ttl
          varyHeaders := parseVary headers
          varySignature := buildSignature req (parseVary headers) }

/-- What is stored is the response itself, by a decision that gives its time to live. -/
theorem storedEntry_eq_some {method : Method} {req : HeaderMap} {now : Nat}
    {validRules : List (List Nat × Text.Duration)} {status : Nat} {headers : HeaderMap}
    {body : Bytes} {e : Entry}
    (h : storedEntry method req now validRules status headers body = some e) :
    ∃ ttl, decideCaching method headers status body.length validRules = .store ttl ∧
      e = ⟨status, headers.entries, body, now + ttl, parseVary headers,
        buildSignature req (parseVary headers)⟩ := by
  rw [storedEntry] at h
  split at h
  · cases h
  · rename_i ttl hdecided
    exact ⟨ttl, hdecided, (Option.some.inj h).symm⟩

/-! ## Lookup -/

/-- Store a list of variants under a key; an emptied list is removed with its key. -/
def setVariants (m : HashMap String (List Entry)) (key : String) (vs : List Entry) :
    HashMap String (List Entry) :=
  if vs.isEmpty then m.erase key else m.insert key vs

/-- The variants `retain` keeps: those that expire after `now`. -/
def fresh (now : Nat) (vs : List Entry) : List Entry := vs.filter fun v => now < v.expiresAt

/-- The variants `retain` drops. -/
def stale (now : Nat) (vs : List Entry) : List Entry := vs.filter fun v => v.expiresAt ≤ now

/-- The first variant that matches the request. -/
def findVariant (req : HeaderMap) (vs : List Entry) : Option Entry :=
  vs.find? fun v => buildSignature req v.varyHeaders == v.varySignature

/-- Subtract from the byte count and report the eviction, unless nothing was dropped. -/
def dropBytes (total dropped : Nat) : Nat × List StoreEvent :=
  if 0 < dropped then (total - dropped, [.sub total dropped, .evict dropped]) else (total, [])

/-- Result of `CacheStore::get`. -/
structure GetResult where
  found : Option Entry
  state : State
  events : List StoreEvent

/-- `CacheStore::get` at the instant `now`. -/
def State.get (s : State) (now : Nat) (key : String) (req : HeaderMap) : GetResult :=
  match s.entries.lookup key with
  | none => ⟨none, s, [.miss]⟩
  | some vs =>
      let kept := fresh now vs
      let found := findVariant req kept
      let (total, events) := dropBytes s.totalBytes (bytesOf (stale now vs))
      ⟨found, ⟨setVariants s.entries key kept, total⟩,
        events ++ [if found.isSome then .hit else .miss]⟩

/-! ## Eviction and insertion -/

/-- One comparison of the eviction scan: an earlier find stays unless the variant expires
strictly sooner. -/
def scanVariant (key : String) (best : Option (String × String × Nat)) (v : Entry) :
    Option (String × String × Nat) :=
  match best with
  | some (k, sig, t) =>
      if t ≤ v.expiresAt then some (k, sig, t) else some (key, v.varySignature, v.expiresAt)
  | none => some (key, v.varySignature, v.expiresAt)

/-- The eviction target: key and signature of the soonest-expiring variant, the first in iteration
order among equals. -/
def evictionTarget (pairs : List (String × List Entry)) : Option (String × String) :=
  (pairs.foldl (fun best p => p.2.foldl (scanVariant p.1) best) none).map fun b => (b.1, b.2.1)

/-- The variant with a signature: the first one. -/
def variantWith (sig : String) (vs : List Entry) : Option Entry :=
  vs.find? fun v => v.varySignature == sig

/-- The list without its first variant with a signature. -/
def withoutVariant (sig : String) (vs : List Entry) : List Entry :=
  vs.eraseP fun v => v.varySignature == sig

/-- One round of the eviction loop: remove the variant `sig` of `key`. -/
def State.evictOne (s : State) (key sig : String) : State × List StoreEvent :=
  match s.entries.lookup key with
  | none => (s, [])
  | some vs =>
      let removed := ((variantWith sig vs).map entryBytes).getD 0
      let (total, events) := dropBytes s.totalBytes removed
      (⟨setVariants s.entries key (withoutVariant sig vs), total⟩, events)

/-- How the eviction loop was left: by its condition, by the `None => break` arm, or not at all
within the fuel. -/
inductive LoopExit where
  | fits
  | noTarget
  | unfinished
deriving DecidableEq, Repr

/-- The eviction loop of `put`, with an iteration order for every round. -/
def evictLoop (maxBytes size : Nat) (orders : Nat → IterOrder (String × List Entry)) :
    Nat → State → LoopExit × State × List StoreEvent
  | 0, s => (if maxBytes < s.totalBytes + size then .unfinished else .fits, s, [])
  | fuel + 1, s =>
      if maxBytes < s.totalBytes + size then
        match evictionTarget (HashMap.iter s.entries (orders fuel)) with
        | none => (.noTarget, s, [])
        | some (key, sig) =>
            let (s', events) := s.evictOne key sig
            let (exit, s'', events') := evictLoop maxBytes size orders fuel s'
            (exit, s'', events ++ events')
      else (.fits, s, [])

/-- The number of stored variants. -/
def variantCount (m : HashMap String (List Entry)) : Nat :=
  HashMap.sumBy m fun _ vs => vs.length

/-- The part of `put` after the loop: replace or add the variant, then account for it. -/
def State.insertEntry (s : State) (key : String) (entry : Entry) : State × List StoreEvent :=
  let size := entryBytes entry
  let vs := HashMap.getOr s.entries key []
  let replaced := ((variantWith entry.varySignature vs).map entryBytes).getD 0
  let entries := s.entries.insert key (withoutVariant entry.varySignature vs ++ [entry])
  let total := s.totalBytes - replaced + size
  (⟨entries, total⟩,
    [.sub s.totalBytes replaced, .setBytes total, .setEntries (variantCount entries)])

/-- Result of `CacheStore::put`; `exit` is absent when the entry alone exceeds the store. -/
structure PutResult where
  exit : Option LoopExit
  state : State
  events : List StoreEvent

/-- `CacheStore::put`. The fuel of the loop is the number of stored variants. -/
def State.put (s : State) (maxBytes : Nat) (orders : Nat → IterOrder (String × List Entry))
    (key : String) (entry : Entry) : PutResult :=
  if maxBytes < entryBytes entry then ⟨none, s, []⟩
  else
    let (exit, s', events) :=
      evictLoop maxBytes (entryBytes entry) orders (variantCount s.entries) s
    let (s'', events') := s'.insertEntry key entry
    ⟨some exit, s'', events ++ events'⟩

/-! ## Runs -/

/-- A call on the store. -/
inductive Call where
  | get (now : Nat) (key : String) (req : HeaderMap)
  | put (orders : Nat → IterOrder (String × List Entry)) (key : String) (entry : Entry)

/-- The state after a call. -/
def Call.next (maxBytes : Nat) (s : State) : Call → State
  | .get now key req => (s.get now key req).state
  | .put orders key entry => (s.put maxBytes orders key entry).state

/-- What a call did besides changing the state. -/
def Call.events (maxBytes : Nat) (s : State) : Call → List StoreEvent
  | .get now key req => (s.get now key req).events
  | .put orders key entry => (s.put maxBytes orders key entry).events

/-- How the eviction loop of a call was left, if the call ran one. -/
def Call.exit (maxBytes : Nat) (s : State) : Call → Option LoopExit
  | .get _ _ _ => none
  | .put orders key entry => (s.put maxBytes orders key entry).exit

/-- The state of a store of `maxBytes` bytes after a run of calls. -/
def runCalls (maxBytes : Nat) (calls : List Call) : State :=
  run (Call.next maxBytes) State.new calls

end Elrond.Cache
