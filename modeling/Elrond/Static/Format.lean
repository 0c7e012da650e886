import Elrond.Lib.Path
import Elrond.Http.Message

/-!
# Texts of static responses

The values that static files are answered with: HTTP dates (`http_date.rs`), single byte ranges,
media types, and the escapes of directory listings (`static_files.rs`).
-/

set_option autoImplicit false

namespace Elrond.Static

open Elrond.Lib Elrond.Http

/-! ## HTTP dates -/

/-- `is_leap`. -/
def isLeap (y : Nat) : Bool := (y % 4 == 0 && y % 100 != 0) || y % 400 == 0

/-- The days of a year. -/
def daysOfYear (y : Nat) : Nat := if isLeap y then 366 else 365

/-- The loop over the years: the year a day falls into, and the day within it. -/
def yearOf (days year : Nat) : Nat × Nat :=
  if days < daysOfYear year then (year, days) else yearOf (days - daysOfYear year) (year + 1)
termination_by days
decreasing_by
  have : 0 < daysOfYear year := by
    rw [daysOfYear]
    split <;> omega
  omega

/-- The lengths of the months of a year. -/
def monthLengths (y : Nat) : List Nat :=
  [31, if isLeap y then 29 else 28, 31, 30, 31, 30, 31, 31, 30, 31, 30, 31]

/-- The loop over the months: the month a day falls into, and the day within it. -/
def monthOf (days m : Nat) : List Nat → Nat × Nat
  | [] => (m, days)
  | dm :: rest => if days < dm then (m, days) else monthOf (days - dm) (m + 1) rest

/-- `days_to_date`: year, month and day, the last two counted from one. The year is a `u32`. -/
def daysToDate (days : Nat) : Nat × Nat × Nat :=
  let (year, rest) := yearOf days 1970
  let (m, d) := monthOf rest 0 (monthLengths year)
  (year % 2 ^ 32, m + 1, d + 1)

/-- A number with leading zeros up to a width. -/
def padded (width n : Nat) : String :=
  let digits := Nat.toDigits 10 n
  String.ofList (List.replicate (width - digits.length) '0' ++ digits)

/-- `http_date::format`. -/
def formatDate (secs : Nat) : String :=
  let days := secs / 86400
  let tod := secs % 86400
  let weekday := ["Sun", "Mon", "Tue", "Wed", "Thu", "Fri", "Sat"].getD ((days + 4) % 7) ""
  let (year, month, day) := daysToDate days
  let monthName :=
    ["Jan", "Feb", "Mar", "Apr", "May", "Jun", "Jul", "Aug", "Sep", "Oct", "Nov", "Dec"].getD
      (month - 1) ""
  weekday ++ ", " ++ padded 2 day ++ " " ++ monthName ++ " " ++ padded 4 year ++ " " ++
    padded 2 (tod / 3600) ++ ":" ++ padded 2 (tod % 3600 / 60) ++ ":" ++ padded 2 (tod % 60) ++
    " GMT"

example : formatDate 1000000000 = "Sun, 09 Sep 2001 01:46:40 GMT" := by decide +kernel

/-! ## Byte ranges -/

/-- `parse_single_range`: the first and the last byte of a range of a file of `size` bytes. -/
def parseSingleRange (raw : String) (size : Nat) : Option (Nat × Nat) := do
  let rest ← Text.stripPrefix "bytes=" raw
  if rest.toList.contains ',' then none
  else
    let (a, b) ← Text.splitOnce '-' rest
    let a := Text.trim a
    let b := Text.trim b
    if size = 0 then none
    else if a = "" then
      let n ← Text.parseUnsigned 64 b
      if n = 0 then none else some (size - min n size, size - 1)
    else if b = "" then
      let start ← Text.parseUnsigned 64 a
      if start ≥ size then none else some (start, size - 1)
    else
      let start ← Text.parseUnsigned 64 a
      let stop ← Text.parseUnsigned 64 b
      if start > stop || start ≥ size then none else some (start, min stop (size - 1))

/-! ## Media types -/

/-- `mime_for`. -/
def mimeFor (path : String) : String :=
  match (Path.extension path).getD "" with
  | "html" | "htm" => "text/html; charset=utf-8"
  | "css" => "text/css; charset=utf-8"
  | "js" | "mjs" => "application/javascript; charset=utf-8"
  | "json" => "application/json"
  | "txt" | "text" => "text/plain; charset=utf-8"
  | "xml" => "application/xml"
  | "svg" => "image/svg+xml"
  | "png" => "image/png"
  | "jpg" | "jpeg" => "image/jpeg"
  | "gif" => "image/gif"
  | "webp" => "image/webp"
  | "ico" => "image/x-icon"
  | "wasm" => "application/wasm"
  | "pdf" => "application/pdf"
  | "woff" => "font/woff"
  | "woff2" => "font/woff2"
  | _ => "application/octet-stream"

/-! ## Escapes of directory listings -/

/-- `push_html_escaped`. -/
def htmlEscaped (s : String) : String :=
  String.ofList (s.toList.flatMap fun c =>
    match c with
    | '<' => "&lt;".toList
    | '>' => "&gt;".toList
    | '&' => "&amp;".toList
    | '"' => "&quot;".toList
    | other => [other])

/-- `push_attr_escaped`. -/
def attrEscaped (s : String) : String :=
  String.ofList (s.toList.flatMap fun c =>
    match c with
    | '<' => "&lt;".toList
    | '>' => "&gt;".toList
    | '&' => "&amp;".toList
    | '"' => "&quot;".toList
    | '\'' => "&#39;".toList
    | other => [other])

/-- The bytes that stand for themselves in a path segment. -/
def isUnreserved (b : UInt8) : Bool :=
  (65 ≤ b && b ≤ 90) || (97 ≤ b && b ≤ 122) || (48 ≤ b && b ≤ 57) ||
    b == 45 || b == 95 || b == 46 || b == 126

/-- A digit of `HEX`. -/
def hexDigit (n : Nat) : Char := "0123456789ABCDEF".toList.getD n '0'

/-- `url_encode_segment`. -/
def urlEncodeSegment (s : String) : String :=
  String.ofList ((Text.utf8Bytes s).flatMap fun b =>
    if isUnreserved b then [Char.ofNat b.toNat]
    else ['%', hexDigit (b.toNat / 16), hexDigit (b.toNat % 16)])

end Elrond.Static
