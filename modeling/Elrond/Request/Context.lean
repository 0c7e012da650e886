import Elrond.Lib.HashMap
import Elrond.Http.Address
import Elrond.Http.Message

/-!
# Request context

`RequestCtx` is the snapshot of a request that templates are rendered against, with the lookups of
`request_ctx.rs`: the host, the request target, headers, query arguments and cookies. Query
arguments are percent-decoded as `application/x-www-form-urlencoded` and then read as UTF-8 with
every ill-formed part replaced by U+FFFD, the way `String::from_utf8_lossy` does.
-/

set_option autoImplicit false

namespace Elrond.Request

open Elrond.Lib Elrond.Http

/-! ## Lossy UTF-8 -/

/-- Continuation bytes in a range. -/
def isCont (lo hi b : UInt8) : Bool := lo ≤ b && b ≤ hi

/-- The scalar value of a sequence: the payload bits of the lead byte and of the continuations. -/
def scalarOf (lead : Nat) (conts : List UInt8) : Char :=
  Char.ofNat (conts.foldl (fun n b => 64 * n + b.toNat % 64) lead)

/-- Range of the second byte of a three-byte sequence. -/
def secondOfThree (b : UInt8) : UInt8 × UInt8 :=
  if b = 0xE0 then (0xA0, 0xBF) else if b = 0xED then (0x80, 0x9F) else (0x80, 0xBF)

/-- Range of the second byte of a four-byte sequence. -/
def secondOfFour (b : UInt8) : UInt8 × UInt8 :=
  if b = 0xF0 then (0x90, 0xBF) else if b = 0xF4 then (0x80, 0x8F) else (0x80, 0xBF)

/-- The character at the head of a byte string with the number of bytes it takes, or `none` with
the length of the maximal ill-formed part. -/
def utf8Head : Bytes → Option Char × Nat
  | [] => (none, 0)
  | b :: rest =>
      if b < 0x80 then (some (Char.ofNat b.toNat), 1)
      else if 0xC2 ≤ b && b ≤ 0xDF then
        match rest with
        | c :: _ =>
            if isCont 0x80 0xBF c then (some (scalarOf (b.toNat % 32) [c]), 2) else (none, 1)
        | [] => (none, 1)
      else if 0xE0 ≤ b && b ≤ 0xEF then
        match rest with
        | c :: rest =>
            if isCont (secondOfThree b).1 (secondOfThree b).2 c then
              match rest with
              | d :: _ =>
                  if isCont 0x80 0xBF d then (some (scalarOf (b.toNat % 16) [c, d]), 3)
                  else (none, 2)
              | [] => (none, 2)
            else (none, 1)
        | [] => (none, 1)
      else if 0xF0 ≤ b && b ≤ 0xF4 then
        match rest with
        | c :: rest =>
            if isCont (secondOfFour b).1 (secondOfFour b).2 c then
              match rest with
              | d :: rest =>
                  if isCont 0x80 0xBF d then
                    match rest with
                    | e :: _ =>
                        if isCont 0x80 0xBF e then (some (scalarOf (b.toNat % 8) [c, d, e]), 4)
                        else (none, 3)
                    | [] => (none, 3)
                  else (none, 2)
              | [] => (none, 2)
            else (none, 1)
        | [] => (none, 1)
      else (none, 1)

/-- The decoding loop. Every round takes at least one byte, so the length of the input is enough
fuel. -/
def fromUtf8LossyLoop : Nat → Bytes → List Char
  | 0, _ => []
  | _ + 1, [] => []
  | fuel + 1, b :: rest =>
      let (c, n) := utf8Head (b :: rest)
      c.getD '\uFFFD' :: fromUtf8LossyLoop fuel ((b :: rest).drop n)

/-- `String::from_utf8_lossy`. -/
def fromUtf8Lossy (bs : Bytes) : String := String.ofList (fromUtf8LossyLoop bs.length bs)

/-! ## Percent decoding -/

/-- `hex_digit`. -/
def hexDigit (b : UInt8) : Option UInt8 :=
  if 0x30 ≤ b && b ≤ 0x39 then some (b - 0x30)
  else if 0x61 ≤ b && b ≤ 0x66 then some (b - 0x61 + 10)
  else if 0x41 ≤ b && b ≤ 0x46 then some (b - 0x41 + 10)
  else none

/-- The byte loop of `percent_decode`: `+` is a space, `%` before two hexadecimal digits is the
byte they denote, everything else is copied. -/
def percentDecodeBytes : Bytes → Bytes
  | [] => []
  | b :: rest =>
      if b = 0x2B then 0x20 :: percentDecodeBytes rest
      else if b = 0x25 then
        match rest with
        | h :: l :: rest' =>
            match hexDigit h, hexDigit l with
            | some x, some y => ((x <<< 4) ||| y) :: percentDecodeBytes rest'
            | _, _ => b :: percentDecodeBytes (h :: l :: rest')
        | rest => b :: percentDecodeBytes rest
      else b :: percentDecodeBytes rest

/-- `percent_decode`. -/
def percentDecode (s : String) : String := fromUtf8Lossy (percentDecodeBytes (Text.utf8Bytes s))

/-! ## The context -/

/-- `RequestCtx`. `userVars` holds the outputs of `map` directives. -/
structure RequestCtx where
  peer : SocketAddr
  serverName : Option String
  method : Method
  uri : Uri
  headers : HeaderMap
  scheme : Scheme
  userVars : HashMap String String

namespace RequestCtx

/-- `RequestCtx::user_var`. -/
def userVar (ctx : RequestCtx) (name : String) : Option String := ctx.userVars.lookup name

/-- `RequestCtx::header`: the first line of the header, if it is readable as text. -/
def header (ctx : RequestCtx) (name : String) : Option String :=
  (ctx.headers.get name).bind HeaderValue.toStr

/-- `RequestCtx::host`: the `Host` header, else the authority of the target, else the server
name. -/
def host (ctx : RequestCtx) : String :=
  match (ctx.headers.get "host").bind HeaderValue.toStr with
  | some v => v
  | none =>
      match ctx.uri.authority with
      | some authority => authority
      | none => ctx.serverName.getD ""

/-- `RequestCtx::request_uri`: path and query as received. -/
def requestUri (ctx : RequestCtx) : String := ctx.uri.pathAndQuery.getD ctx.uri.path

/-- `RequestCtx::query_arg`: the decoded value of the first argument with the name. -/
def queryArg (ctx : RequestCtx) (name : String) : Option String :=
  ctx.uri.query.bind fun q =>
    (Text.split '&' q).findSome? fun pair =>
      let (k, v) := (Text.splitOnce '=' pair).getD (pair, "")
      if k = name then some (percentDecode v) else none

/-- `RequestCtx::cookie`: the value of the first cookie with the name. -/
def cookie (ctx : RequestCtx) (name : String) : Option String :=
  (ctx.header "cookie").bind fun raw =>
    (Text.split ';' raw).findSome? fun kv =>
      match Text.splitOnce '=' (Text.trim kv) with
      | some (k, v) => if k = name then some v else none
      | none => none

end RequestCtx

end Elrond.Request
