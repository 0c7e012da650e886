import Elrond.Request.Context

/-!
# Templates

`template.rs`: a configuration value with variable references, parsed once and rendered against a
`RequestCtx` per request. The parser collects literal text until a `$`, then reads either a braced
name up to `}` or the longest run of identifier characters; a `$` without a usable name stays
literal text.
-/

set_option autoImplicit false

namespace Elrond.Request

open Elrond.Lib Elrond.Http

/-- `VarRef`: the variables a template can name. -/
inductive VarRef where
  | host
  | remoteAddr
  | requestUri
  | uri
  | requestMethod
  | args
  | scheme
  | serverName
  | arg (name : String)
  | http (name : String)
  | cookie (name : String)
  | unknown (name : String)
deriving DecidableEq, Repr

/-- `Segment`. -/
inductive Segment where
  | literal (text : String)
  | var (v : VarRef)
deriving DecidableEq, Repr

/-- `Template`. -/
structure Template where
  segments : List Segment
deriving DecidableEq, Repr

/-- `classify`: the prefixed families first, then the fixed names. -/
def classify (name : String) : VarRef :=
  match Text.stripPrefix "arg_" name with
  | some rest => .arg rest
  | none =>
      match Text.stripPrefix "http_" name with
      | some rest => .http rest
      | none =>
          match Text.stripPrefix "cookie_" name with
          | some rest => .cookie rest
          | none =>
              match name with
              | "host" => .host
              | "remote_addr" => .remoteAddr
              | "request_uri" => .requestUri
              | "uri" => .uri
              | "document_uri" => .uri
              | "request_method" => .requestMethod
              | "args" => .args
              | "query_string" => .args
              | "scheme" => .scheme
              | "server_name" => .serverName
              | other => .unknown other

/-- Characters of a bare variable name. -/
def isNameChar (c : Char) : Bool := c.isAlphanum || c == '_'

/-- The braced name after `${`: the characters up to `}`, whether it was closed, and the rest. -/
def readBraced : List Char → List Char × Bool × List Char
  | [] => ([], false, [])
  | c :: cs =>
      if c = '}' then ([], true, cs)
      else
        let (n, closed, rest) := readBraced cs
        (c :: n, closed, rest)

/-- What follows a `$`: the name, whether it is a reference, and the rest of the input. -/
def readName (cs : List Char) : List Char × Bool × List Char :=
  match cs with
  | '{' :: cs => readBraced cs
  | cs =>
      let (n, rest) := cs.span isNameChar
      (n, !n.isEmpty, rest)

/-- Push the collected literal text, if there is any. -/
def flushLiteral (segments : List Segment) (lit : List Char) : List Segment :=
  if lit.isEmpty then segments else segments ++ [.literal (String.ofList lit)]

/-- The loop of `Template::parse`. Every round takes at least one character, so the length of the
input is enough fuel. -/
def parseLoop : Nat → List Char → List Segment → List Char → List Segment
  | 0, _, segments, lit => flushLiteral segments lit
  | _ + 1, [], segments, lit => flushLiteral segments lit
  | fuel + 1, c :: cs, segments, lit =>
      if c ≠ '$' then parseLoop fuel cs segments (lit ++ [c])
      else
        let (name, recognized, rest) := readName cs
        if recognized then
          parseLoop fuel rest
            (flushLiteral segments lit ++ [.var (classify (String.ofList name))]) []
        else parseLoop fuel rest segments (lit ++ '$' :: name)

/-- `Template::parse`. -/
def Template.parse (input : String) : Template :=
  ⟨parseLoop input.toList.length input.toList [] []⟩

/-- `str::replace` of one character by another. -/
def replaceChar (a b : Char) (s : String) : String :=
  String.ofList (s.toList.map fun c => if c = a then b else c)

/-- `VarRef::render_into`, as the text it appends. -/
def VarRef.render (ctx : RequestCtx) : VarRef → String
  | .host => ctx.host
  | .remoteAddr => ctx.peer.ip.toText
  | .requestUri => ctx.requestUri
  | .uri => ctx.uri.path
  | .requestMethod => ctx.method.asStr
  | .args => ctx.uri.query.getD ""
  | .scheme => ctx.scheme.asStr
  | .serverName => ctx.serverName.getD ""
  | .arg name => (ctx.queryArg name).getD ""
  | .http name => (ctx.header (replaceChar '_' '-' name)).getD ""
  | .cookie name => (ctx.cookie name).getD ""
  | .unknown name => (ctx.userVar name).getD ""

/-- The text of one segment. -/
def Segment.render (ctx : RequestCtx) : Segment → String
  | .literal text => text
  | .var v => v.render ctx

/-- `Template::render`. -/
def Template.render (t : Template) (ctx : RequestCtx) : String :=
  t.segments.foldl (fun out s => out ++ s.render ctx) ""

end Elrond.Request
