import Elrond.Lib.Text

/-!
# HTTP messages

Header names, header values and header maps with the rules of the `http` crate, and the requests
and responses built from them.

A `HeaderName` is a non-empty lower-case token and a `HeaderValue` a string of permitted bytes;
both carry the proof, so a map never holds anything else. A `HeaderMap` is multi-valued: `getAll`
gives every line of a name in order, `get` the first one, `insert` replaces all lines of a name,
`append` adds one and `remove` deletes all. The order between different names is not observable in
the crate, so an inserted line is simply put at the end.
-/

set_option autoImplicit false

namespace Elrond.Http

open Elrond.Lib

/-- A body byte string. -/
abbrev Bytes := List UInt8

/-! ## Header names -/

/-- The characters of a lower-case token. -/
def isTokenChar (c : Char) : Bool :=
  ('a' ≤ c && c ≤ 'z') || ('0' ≤ c && c ≤ '9') || "!#$%&'*+-.^_`|~".toList.contains c

/-- What the `http` crate accepts as a header name, after lower-casing. -/
def isHeaderName (s : String) : Bool :=
  !s.toList.isEmpty && s.toList.length ≤ 65535 && s.toList.all isTokenChar

/-- A header name: a lower-case token. -/
structure HeaderName where
  text : String
  wf : isHeaderName text = true
deriving DecidableEq

/-- `HeaderName::try_from`: names are compared and stored in lower case. -/
def HeaderName.tryFrom (s : String) : Option HeaderName :=
  if h : isHeaderName (Text.toAsciiLowercase s) = true then some ⟨_, h⟩ else none

theorem toLower_of_isTokenChar {c : Char} (h : isTokenChar c = true) : c.toLower = c := by
  have hno : ¬ (c.val ≥ 'A'.val ∧ c.val ≤ 'Z'.val) := by
    rintro ⟨hA, hZ⟩
    have hc : c.toNat ∈ List.range' 65 26 := by
      have h1 : 65 ≤ c.val.toNat := hA
      have h2 : c.val.toNat ≤ 90 := hZ
      exact List.mem_range'_1.2 ⟨h1, by show c.val.toNat < 65 + 26; omega⟩
    have hall : ∀ n ∈ List.range' 65 26, isTokenChar (Char.ofNat n) = false := by decide
    have hfalse := hall c.toNat hc
    rw [Char.ofNat_toNat] at hfalse
    rw [hfalse] at h
    exact Bool.noConfusion h
  exact dif_neg hno

/-- A header name is its own lower-case form. -/
@[simp] theorem HeaderName.toAsciiLowercase_text (n : HeaderName) :
    Text.toAsciiLowercase n.text = n.text := by
  have hall : ∀ c ∈ n.text.toList, c.toLower = c := by
    intro c hc
    have hwf := n.wf
    simp only [isHeaderName, Bool.and_eq_true, List.all_eq_true] at hwf
    exact toLower_of_isTokenChar (hwf.2 c hc)
  rw [← String.toList_inj, Text.toAsciiLowercase, String.toList_ofList]
  calc n.text.toList.map Char.toLower
      = n.text.toList.map id := List.map_congr_left hall
    _ = n.text.toList := List.map_id _

@[ext] theorem HeaderName.ext {m n : HeaderName} (h : m.text = n.text) : m = n := by
  cases m
  cases n
  simpa using h

/-! ## Header values -/

/-- Bytes a header value may hold. -/
def isValidByte (b : UInt8) : Bool := (32 ≤ b && b != 127) || b == 9

/-- Bytes of a header value that is readable as text. -/
def isVisibleByte (b : UInt8) : Bool := (32 ≤ b && b < 127) || b == 9

/-- A header value: permitted bytes only. -/
structure HeaderValue where
  bytes : Bytes
  wf : bytes.all isValidByte = true
deriving DecidableEq

/-- `HeaderValue::from_str`. -/
def HeaderValue.fromStr (s : String) : Option HeaderValue :=
  if h : (Text.utf8Bytes s).all isValidByte = true then some ⟨_, h⟩ else none

/-- The text of visible bytes. -/
def asciiText (bs : Bytes) : String := String.ofList (bs.map fun b => Char.ofNat b.toNat)

/-- `HeaderValue::to_str`: the text, if every byte is visible ASCII or a tab. -/
def HeaderValue.toStr (v : HeaderValue) : Option String :=
  if v.bytes.all isVisibleByte then some (asciiText v.bytes) else none

theorem toStr_eq_some {v : HeaderValue} {s : String} (h : v.toStr = some s) :
    v.bytes.all isVisibleByte = true ∧ s = asciiText v.bytes := by
  rw [HeaderValue.toStr] at h
  split at h
  · rename_i hvis
    exact ⟨hvis, (Option.some.inj h).symm⟩
  · exact absurd h (by simp)

theorem toNat_ofNat_byte (b : UInt8) : (Char.ofNat b.toNat).toNat = b.toNat := by
  have hb : b.toNat < 256 := b.toNat_lt
  have hvalid : b.toNat.isValidChar := Or.inl (by omega)
  rw [Char.ofNat, dif_pos hvalid]
  rfl

theorem asciiText_injective {xs ys : Bytes} (h : asciiText xs = asciiText ys) : xs = ys := by
  have hl : xs.map (fun b => Char.ofNat b.toNat) = ys.map (fun b => Char.ofNat b.toNat) :=
    String.ofList_injective h
  apply List.map_injective_iff.2 _ hl
  intro a b hab
  apply UInt8.toNat_inj.1
  rw [← toNat_ofNat_byte a, ← toNat_ofNat_byte b]
  exact congrArg Char.toNat hab

/-! ## Header maps -/

/-- A multi-valued map from names to values, one pair per field line. -/
structure HeaderMap where
  entries : List (HeaderName × HeaderValue)
deriving DecidableEq

namespace HeaderMap

instance : EmptyCollection HeaderMap := ⟨⟨[]⟩⟩

/-- `HeaderMap::get_all`: every value of the name, in line order. A text that is no header name
has no values. -/
def getAll (h : HeaderMap) (name : String) : List HeaderValue :=
  (h.entries.filter fun e => e.1.text == Text.toAsciiLowercase name).map Prod.snd

/-- `HeaderMap::get`: the first value of the name. -/
def get (h : HeaderMap) (name : String) : Option HeaderValue := (h.getAll name).head?

/-- `HeaderMap::remove`: drop every line of the name. -/
def remove (h : HeaderMap) (name : String) : HeaderMap :=
  ⟨h.entries.filter fun e => e.1.text != Text.toAsciiLowercase name⟩

/-- `HeaderMap::insert`: replace every line of the name by one. -/
def insert (h : HeaderMap) (n : HeaderName) (v : HeaderValue) : HeaderMap :=
  ⟨(h.remove n.text).entries ++ [(n, v)]⟩

/-- `HeaderMap::append`: add a line. -/
def append (h : HeaderMap) (n : HeaderName) (v : HeaderValue) : HeaderMap :=
  ⟨h.entries ++ [(n, v)]⟩

/-- The lines of a name after a removal. -/
theorem getAll_remove (h : HeaderMap) (a b : String) :
    (h.remove a).getAll b =
      if Text.toAsciiLowercase b = Text.toAsciiLowercase a then [] else h.getAll b := by
  unfold getAll remove
  rw [List.filter_filter]
  by_cases hab : Text.toAsciiLowercase b = Text.toAsciiLowercase a
  · rw [if_pos hab, hab]
    simp
  · rw [if_neg hab]
    congr 1
    apply List.filter_congr
    intro e _
    by_cases he : e.1.text = Text.toAsciiLowercase b
    · simp [he, hab]
    · simp [he]

/-- The lines of a name after an insertion. -/
theorem getAll_insert (h : HeaderMap) (n : HeaderName) (v : HeaderValue) (b : String) :
    (h.insert n v).getAll b =
      if Text.toAsciiLowercase b = n.text then [v] else h.getAll b := by
  have hsplit : (h.insert n v).getAll b =
      (h.remove n.text).getAll b ++ (HeaderMap.mk [(n, v)]).getAll b := by
    simp [insert, getAll]
  rw [hsplit, getAll_remove, HeaderName.toAsciiLowercase_text]
  by_cases hb : Text.toAsciiLowercase b = n.text
  · simp [getAll, hb]
  · have hb' : ¬ n.text = Text.toAsciiLowercase b := fun h => hb h.symm
    simp [getAll, hb, hb']

end HeaderMap

/-! ## Requests and responses -/

/-- Request methods; `extension` is any other token. -/
inductive Method where
  | options
  | get
  | post
  | put
  | delete
  | head
  | trace
  | connect
  | patch
  | extension (token : String)
deriving DecidableEq, Repr

/-- `Method::as_str`. -/
def Method.asStr : Method → String
  | .options => "OPTIONS"
  | .get => "GET"
  | .post => "POST"
  | .put => "PUT"
  | .delete => "DELETE"
  | .head => "HEAD"
  | .trace => "TRACE"
  | .connect => "CONNECT"
  | .patch => "PATCH"
  | .extension token => token

/-- Protocol versions of a message. -/
inductive Version where
  | http09
  | http10
  | http11
  | http2
  | http3
deriving DecidableEq, Repr

/-- The two schemes a listener or an upstream can have. -/
inductive Scheme where
  | http
  | https
deriving DecidableEq, Repr

/-- The scheme as written in a URL. -/
def Scheme.asStr : Scheme → String
  | .http => "http"
  | .https => "https"

/-- A request target. `pathAndQuery` is absent in authority form. -/
structure Uri where
  scheme : Option Scheme
  authority : Option String
  pathAndQuery : Option String
deriving DecidableEq, Repr

/-- `Uri::path`: the part before `?`, `/` if that part is empty, and nothing in authority form. -/
def Uri.path (u : Uri) : String :=
  match u.pathAndQuery with
  | none => ""
  | some pq =>
      let p := String.ofList (pq.toList.takeWhile (· != '?'))
      if p = "" then "/" else p

/-- `Uri::query`: the part after the first `?`. -/
def Uri.query (u : Uri) : Option String :=
  u.pathAndQuery.bind fun pq => (Text.splitOnce '?' pq).map Prod.snd

/-- A body as its reader sees it: the bytes delivered and whether the stream then failed instead
of ending. -/
structure Body where
  data : Bytes
  failed : Bool := false
deriving DecidableEq, Repr

/-- A request with its body. -/
structure Request where
  method : Method
  uri : Uri
  version : Version
  headers : HeaderMap
  body : Body
deriving DecidableEq

/-- A response with its body. -/
structure Response where
  status : Nat
  headers : HeaderMap
  body : Body
deriving DecidableEq

/-- `body::full`. -/
def full (data : Bytes) : Body := ⟨data, false⟩

/-- The `content-type` header name. -/
def HeaderName.contentType : HeaderName := ⟨"content-type", by decide⟩

theorem isHeaderName_contentLength : isHeaderName "content-length" = true := by decide

theorem isHeaderName_vary : isHeaderName "vary" = true := by decide

/-- The `content-length` header name. -/
def HeaderName.contentLength : HeaderName := ⟨"content-length", isHeaderName_contentLength⟩

/-- The `vary` header name. -/
def HeaderName.vary : HeaderName := ⟨"vary", isHeaderName_vary⟩

/-- The media type of plain text responses. -/
def plainText : HeaderValue := ⟨Text.utf8Bytes "text/plain; charset=utf-8", by decide⟩

/-- `body::text`. -/
def text (status : Nat) (body : String) : Response :=
  { status := status
    headers := HeaderMap.append ∅ HeaderName.contentType plainText
    body := full (Text.utf8Bytes body) }

end Elrond.Http
