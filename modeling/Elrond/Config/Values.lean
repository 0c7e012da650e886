import Elrond.Config.Ast

/-!
# Values and small blocks of the configuration

The parts of `config/build.rs` that read arguments, upstreams, zones, maps and cache rules. Every
block and every argument list is read by a fold; a step either updates what was collected so far or
fails with the message of the source. Arithmetic on parsed numbers wraps as in a release build.

Three things come from outside: decimal floating-point parsing, Unicode lower-casing, and the debug
rendering of an action in one error message.
-/

set_option autoImplicit false

namespace Elrond.Config

open Elrond.Lib Elrond.Http Elrond.Request

/-- What the lowering uses from outside. -/
structure Externals where
  parseF64 : String → Option F64
  toLowercase : String → String
  debugAction : Action → String

/-! ## Arguments -/

/-- `arg1`. -/
def arg1 (d : Directive) : Except String String :=
  match d.args with
  | a :: _ => .ok a
  | [] => .error s!"line {d.line}: directive '{d.name}' requires an argument"

/-- `expect_block`. -/
def expectBlock (d : Directive) : Except String (List Directive) :=
  match d.block with
  | some b => .ok b
  | none => .error s!"line {d.line}: directive '{d.name}' requires a \x7b \x7d block"

/-- A value or the message of its absence, as `ok_or_else`. -/
def orError {α : Type} (v : Option α) (message : String) : Except String α :=
  match v with
  | some a => .ok a
  | none => .error message

/-- Split a text before its first character that is no decimal digit, if it has one. -/
def splitUnit (s : String) : Option (String × String) :=
  match s.toList.span Text.isAsciiDigit with
  | (_, []) => none
  | (num, unit) => some (String.ofList num, String.ofList unit)

/-- `parse_duration`. -/
def parseDuration (s : String) : Option Text.Duration :=
  let s := Text.trim s
  match Text.parseUnsigned 64 s with
  | some n => some (Text.fromSecs n)
  | none => do
      let (num, unit) ← splitUnit s
      let n ← Text.parseUnsigned 64 num
      match unit with
      | "ms" => some (Text.fromMillis n)
      | "s" => some (Text.fromSecs n)
      | "m" => some (Text.fromSecs (n * 60 % 2 ^ 64))
      | "h" => some (Text.fromSecs (n * 60 % 2 ^ 64 * 60 % 2 ^ 64))
      | "d" => some (Text.fromSecs (n * 60 % 2 ^ 64 * 60 % 2 ^ 64 * 24 % 2 ^ 64))
      | _ => none

/-- `parse_size`. -/
def parseSize (s : String) : Option Nat :=
  let s := Text.trim s
  match Text.parseUnsigned 64 s with
  | some n => some n
  | none => do
      let (num, unit) ← splitUnit s
      let n ← Text.parseUnsigned 64 num
      match Text.toAsciiLowercase unit with
      | "k" => some (n * 1024 % 2 ^ 64)
      | "m" => some (n * 1024 % 2 ^ 64 * 1024 % 2 ^ 64)
      | "g" => some (n * 1024 % 2 ^ 64 * 1024 % 2 ^ 64 * 1024 % 2 ^ 64)
      | _ => none

/-- `parse_on_off`. -/
def parseOnOff (s : Option String) (line : Nat) : Except String Bool :=
  match s with
  | some "on" => .ok true
  | some "off" => .ok false
  | some other => .error s!"line {line}: expected 'on' or 'off', got '{other}'"
  | none => .error s!"line {line}: 'gzip' requires 'on' or 'off'"

/-- `parse_listen`: a bare port listens on every IPv4 address. -/
def parseListen (s : String) (line : Nat) : Except String SocketAddr :=
  match Text.parseUnsigned 16 s with
  | some port => .ok ⟨.v4 ⟨0, 0, 0, 0⟩, UInt16.ofNat port, 0⟩
  | none => orError (SocketAddr.parse s) s!"line {line}: invalid listen address '{s}'"

/-- `limit::parse_rate`. -/
def parseRate (env : Externals) (s : String) : Option F64 := do
  let (num, unit) ← Text.splitOnceStr "r/" (Text.trim s)
  let n ← env.parseF64 num
  match unit with
  | "s" => some n
  | "m" => some (n.divNat 60)
  | _ => none

/-! ## Upstreams -/

/-- One flag of an upstream `server` line; unknown flags are accepted. -/
def serverFlag (line : Nat) (s : UpstreamServer) (a : String) : Except String UpstreamServer :=
  match Text.stripPrefix "weight=" a with
  | some w => do
      let n ← orError (Text.parseUnsigned 32 w) s!"line {line}: invalid weight '{w}'"
      .ok { s with weight := UInt32.ofNat n }
  | none =>
  match Text.stripPrefix "max_fails=" a with
  | some w => do
      let n ← orError (Text.parseUnsigned 32 w) s!"line {line}: invalid max_fails '{w}'"
      .ok { s with maxFails := UInt32.ofNat n }
  | none =>
  match Text.stripPrefix "fail_timeout=" a with
  | some t => do
      let timeout ← orError (parseDuration t)
        s!"line {line}: invalid fail_timeout '{t}' (expected e.g. '10s', '500ms', '1m')"
      .ok { s with failTimeout := timeout }
  | none =>
      if a = "backup" then .ok { s with backup := true }
      else if a = "down" then .ok { s with down := true }
      else .ok s

/-- One argument of `health_check`; unknown arguments are accepted. -/
def healthCheckArg (line : Nat) (hc : HealthCheckCfg) (a : String) : Except String HealthCheckCfg :=
  match Text.stripPrefix "uri=" a with
  | some v => .ok { hc with uri := v }
  | none =>
  match Text.stripPrefix "interval=" a with
  | some v => do
      let t ← orError (parseDuration v) s!"line {line}: invalid health_check interval '{v}'"
      .ok { hc with interval := t }
  | none =>
  match Text.stripPrefix "timeout=" a with
  | some v => do
      let t ← orError (parseDuration v) s!"line {line}: invalid health_check timeout '{v}'"
      .ok { hc with timeout := t }
  | none =>
  match Text.stripPrefix "fails=" a with
  | some v => do
      let n ← orError (Text.parseUnsigned 32 v) s!"line {line}: invalid health_check fails '{v}'"
      .ok { hc with fails := n }
  | none =>
  match Text.stripPrefix "passes=" a with
  | some v => do
      let n ← orError (Text.parseUnsigned 32 v) s!"line {line}: invalid health_check passes '{v}'"
      .ok { hc with passes := n }
  | none =>
  match Text.stripPrefix "match=" a with
  | some v => do
      let n ← orError (Text.parseUnsigned 16 v)
        s!"line {line}: invalid health_check match status '{v}'"
      .ok { hc with expectedStatus := n }
  | none => .ok hc

/-- `parse_health_check`. -/
def parseHealthCheck (args : List String) (line : Nat) : Except String HealthCheckCfg :=
  args.foldlM (healthCheckArg line) {}

/-- One directive of an `upstream` block. -/
def upstreamDirective (up : Upstream) (d : Directive) : Except String Upstream :=
  match d.name with
  | "server" =>
      match d.args with
      | [] => .error s!"line {d.line}: 'server' requires an address"
      | addr :: flags => do
          let s ← flags.foldlM (serverFlag d.line) { addr := addr }
          .ok { up with servers := up.servers ++ [s] }
  | "least_conn" => .ok { up with method := .leastConn }
  | "ip_hash" => .ok { up with method := .ipHash }
  | "hash" | "keepalive" | "zone" => .ok up
  | "health_check" => do
      let hc ← parseHealthCheck d.args d.line
      .ok { up with healthCheck := some hc }
  | other => .error s!"line {d.line}: unknown directive '{other}' in upstream context"

/-- `build_upstream`. -/
def buildUpstream (name : String) (dirs : List Directive) (line : Nat) :
    Except String Upstream := do
  let up ← dirs.foldlM upstreamDirective ⟨name, .roundRobin, [], none⟩
  if up.servers.isEmpty then .error s!"line {line}: upstream '{name}' has no servers" else .ok up

/-! ## Zones, maps and cache rules -/

/-- The `NAME:SIZE` of a zone argument. -/
def parseZone (line : Nat) (spec : String) : Except String (String × Nat) := do
  let (name, size) ← orError (Text.splitOnce ':' spec) s!"line {line}: zone= must be NAME:SIZE"
  let bytes ← orError (parseSize size) s!"line {line}: invalid zone size '{size}'"
  .ok (name, bytes)

/-- One argument of `limit_conn_zone` after the key. -/
def limitConnZoneArg (line : Nat) (zone : Option (String × Nat)) (a : String) :
    Except String (Option (String × Nat)) :=
  match Text.stripPrefix "zone=" a with
  | some spec => do
      let (name, bytes) ← parseZone line spec
      .ok (some (name, max (bytes / 16) 1))
  | none => .ok zone

/-- `parse_limit_conn_zone`. -/
def parseLimitConnZone (args : List String) (line : Nat) : Except String LimitConnZoneDecl :=
  match args with
  | key :: a :: rest => do
      let zone ← (a :: rest).foldlM (limitConnZoneArg line) none
      let (name, maxEntries) ← orError zone
        s!"line {line}: 'limit_conn_zone' missing 'zone=NAME:SIZE'"
      .ok ⟨name, Template.parse key, maxEntries⟩
  | _ => .error s!"line {line}: 'limit_conn_zone' requires '<key> zone=NAME:SIZE'"

/-- `parse_limit_conn`. -/
def parseLimitConn (args : List String) (line : Nat) : Except String (String × Nat) :=
  match args with
  | zone :: n :: _ => do
      let maxConn ← orError (Text.parseUnsigned 32 n)
        s!"line {line}: 'limit_conn' max '{n}' is not a number"
      .ok ((Text.stripPrefix "zone=" zone).getD zone, maxConn)
  | _ => .error s!"line {line}: 'limit_conn' requires 'zone=NAME N' (or 'NAME N')"

/-- `APPROX_BYTES_PER_ENTRY`. -/
def approxBytesPerEntry : Nat := 64

/-- One argument of `limit_req_zone` after the key. -/
def limitReqZoneArg (env : Externals) (line : Nat) (acc : Option (String × Nat) × Option F64)
    (a : String) : Except String (Option (String × Nat) × Option F64) :=
  match Text.stripPrefix "zone=" a with
  | some spec => do
      let (name, bytes) ← parseZone line spec
      .ok (some (name, max (bytes / approxBytesPerEntry) 1), acc.2)
  | none =>
  match Text.stripPrefix "rate=" a with
  | some rs => do
      let rate ← orError (parseRate env rs)
        s!"line {line}: invalid rate '{rs}' (expected e.g. '5r/s', '60r/m')"
      .ok (acc.1, some rate)
  | none => .ok acc

/-- `parse_limit_req_zone`. -/
def parseLimitReqZone (env : Externals) (args : List String) (line : Nat) :
    Except String LimitReqZoneDecl :=
  match args with
  | key :: a :: b :: rest => do
      let (zone, rate) ← (a :: b :: rest).foldlM (limitReqZoneArg env line) (none, none)
      let (name, maxEntries) ← orError zone
        s!"line {line}: 'limit_req_zone' missing 'zone=NAME:SIZE'"
      let rate ← orError rate s!"line {line}: 'limit_req_zone' missing 'rate=Nr/s'"
      .ok ⟨name, Template.parse key, rate, maxEntries⟩
  | _ => .error s!"line {line}: 'limit_req_zone' requires '<key> zone=NAME:SIZE rate=Nr/s'"

/-- One argument of `limit_req`. -/
def limitReqArg (line : Nat) (acc : Option String × Nat) (a : String) :
    Except String (Option String × Nat) :=
  match Text.stripPrefix "zone=" a with
  | some z => .ok (some z, acc.2)
  | none =>
  match Text.stripPrefix "burst=" a with
  | some b => do
      let n ← orError (Text.parseUnsigned 32 b) s!"line {line}: invalid burst '{b}'"
      .ok (acc.1, n)
  | none => .ok acc

/-- `parse_limit_req`. -/
def parseLimitReq (args : List String) (line : Nat) : Except String (String × Nat) := do
  let (zone, burst) ← args.foldlM (limitReqArg line) (none, 0)
  let zone ← orError zone s!"line {line}: 'limit_req' requires 'zone=NAME'"
  .ok (zone, burst)

/-- One argument of `proxy_cache_path`. -/
def cachePathArg (line : Nat) (zone : Option CacheZone) (a : String) :
    Except String (Option CacheZone) :=
  match Text.stripPrefix "keys_zone=" a with
  | some spec => do
      let (name, size) ← orError (Text.splitOnce ':' spec)
        s!"line {line}: keys_zone must be NAME:SIZE"
      let bytes ← orError (parseSize size) s!"line {line}: invalid keys_zone size '{size}'"
      .ok (some ⟨name, bytes⟩)
  | none => .ok zone

/-- `parse_cache_path`. -/
def parseCachePath (args : List String) (line : Nat) : Except String CacheZone :=
  if args.isEmpty then
    .error (s!"line {line}: 'proxy_cache_path' requires arguments " ++
      "(e.g. 'proxy_cache_path /var/cache keys_zone=app:10m')")
  else do
    let zone ← args.foldlM (cachePathArg line) none
    orError zone s!"line {line}: 'proxy_cache_path' needs 'keys_zone=NAME:SIZE'"

/-- The status codes of `proxy_cache_valid`; `any` stands for every status and ends the list. -/
def cacheValidCodes (line : Nat) : List String → List Nat → Except String (List Nat)
  | [], codes => .ok codes
  | c :: rest, codes =>
      if c = "any" then .ok []
      else do
        let code ← orError (Text.parseUnsigned 16 c)
          s!"line {line}: invalid status code '{c}' in proxy_cache_valid"
        cacheValidCodes line rest (codes ++ [code])

/-- `parse_cache_valid`. -/
def parseCacheValid (args : List String) (line : Nat) :
    Except String (List Nat × Text.Duration) :=
  match args.getLast? with
  | none => .error s!"line {line}: 'proxy_cache_valid' requires a duration argument"
  | some last => do
      let ttl ← orError (parseDuration last)
        s!"line {line}: invalid duration '{last}' in proxy_cache_valid"
      let codes ← cacheValidCodes line args.dropLast []
      .ok (codes, ttl)

/-- One rule of a `map` block. -/
def mapRule (entry : Directive) : MapRule where
  pattern := if entry.name = "default" then .default else .literal entry.name
  value := Template.parse (entry.args.head?.getD "")

/-- `build_map`. -/
def buildMap (args : List String) (block : List Directive) (line : Nat) : Except String MapDecl :=
  match args with
  | source :: output :: _ => do
      let name ← orError (Text.stripPrefix "$" output)
        s!"line {line}: 'map' output variable must start with '$' (got '{output}')"
      .ok ⟨Template.parse source, name, block.map mapRule⟩
  | _ =>
      .error s!"line {line}: 'map' requires '<source-template> <output-var> \x7b … \x7d'"

end Elrond.Config
