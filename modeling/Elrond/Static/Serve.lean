import Elrond.Lib.Asks
import Elrond.App.Runtime
import Elrond.Static.Format

/-!
# Static files

`static_files.rs`: `serve` maps a request path to a file below the configured directory and answers
with the file, a part of it, its index or a listing; `try_files` walks over candidates. The file
system is the environment: each use of it is a question, an `Access`, and two uses of one path may
be answered differently.
-/

set_option autoImplicit false

namespace Elrond.Static

open Elrond.Lib Elrond.Http Elrond.Request Elrond.Config Elrond.App

/-! ## The file system -/

/-- The errors that are told apart. -/
inductive IoError where
  | notFound
  | other
deriving DecidableEq, Repr

/-- `std::fs::Metadata`, as far as it is read. `mtimeSecs` is the time of the last change in whole
seconds since the epoch, if the platform has it and it is not before the epoch. -/
structure Metadata where
  isDir : Bool
  isFile : Bool
  len : UInt64
  mtimeSecs : Option UInt64
deriving DecidableEq, Repr

/-- The name of a directory entry; a directory is read without its own and its parent's entry. -/
structure EntryName where
  text : String
  wf : Path.IsName text

/-- The uses of the file system. -/
inductive Access where
  /-- `fs::metadata` -/
  | stat (path : String)
  /-- `fs::read` -/
  | read (path : String)
  /-- `read_range`: open, seek and read exactly `length` bytes -/
  | readRange (path : String) (start length : Nat)
  /-- `fs::read_dir`, read until its end or an error -/
  | list (dir : String)
  /-- `DirEntry::file_type` -/
  | entryType (dir : String) (name : EntryName)

/-- The path that is used. -/
def Access.path : Access → String
  | .stat path => path
  | .read path => path
  | .readRange path _ _ => path
  | .list dir => dir
  | .entryType dir name => Path.join dir name.text

/-- What the file system answers. `entryType` tells whether the entry is a directory. -/
def Access.Answer : Access → Type
  | .stat _ => Except IoError Metadata
  | .read _ => Except IoError Bytes
  | .readRange _ _ _ => Except IoError Bytes
  | .list _ => Except IoError (List EntryName)
  | .entryType _ _ => Except IoError Bool

/-- Computations that use the file system. -/
abbrev Files (α : Type) : Type := Asks Access Access.Answer α

/-! ## Header lines -/

/-- `response::Builder::header`. The values written here are digits and printable text. -/
def withHeader (h : HeaderMap) (name : HeaderName) (value : String) : HeaderMap :=
  match HeaderValue.fromStr value with
  | some v => h.append name v
  | none => h

/-- The `accept-ranges` header name. -/
def acceptRanges : HeaderName := ⟨"accept-ranges", by decide⟩

/-- The `content-range` header name. -/
def contentRange : HeaderName := ⟨"content-range", by decide⟩

/-- The `etag` header name. -/
def etagName : HeaderName := ⟨"etag", by decide⟩

/-- The `last-modified` header name. -/
def lastModified : HeaderName := ⟨"last-modified", by decide⟩

/-- The lines for the validators of a file, as far as it has them. -/
def withValidators (h : HeaderMap) (etag : Option String) (mtimeSecs : Option UInt64) : HeaderMap :=
  let h := match etag with
    | some et => withHeader h etagName et
    | none => h
  match mtimeSecs with
  | some m => withHeader h lastModified (formatDate m.toNat)
  | none => h

/-- `not_modified`. -/
def notModified (etag : String) (mtimeSecs : Option UInt64) : Response :=
  { status := 304, headers := withValidators ∅ (some etag) mtimeSecs, body := full [] }

/-- `format!("bytes {start}-{end}/{size}")`. -/
def rangeText (start stop size : Nat) : String :=
  "bytes " ++ toString start ++ "-" ++ toString stop ++ "/" ++ toString size

/-- A number in hexadecimal. -/
def hexText (n : Nat) : String := String.ofList (Nat.toDigits 16 n)

/-! ## Directory listings -/

/-- The order of a listing: directories first, then by name. -/
def listingLe (a b : String × Bool) : Bool :=
  match a.2, b.2 with
  | true, false => true
  | false, true => false
  | _, _ => decide (a.1 ≤ b.1)

/-- The loop over the entries: names with a leading dot are skipped, the others are kept with
whether they are directories. -/
def listedEntries (dir : String) : List EntryName → Files (List (String × Bool))
  | [] => .done []
  | name :: rest =>
      if name.text.toList.head? = some '.' then listedEntries dir rest
      else do
        let isDir ← Asks.question (Access.entryType dir name)
        let others ← listedEntries dir rest
        pure ((name.text, match isDir with | .ok d => d | .error _ => false) :: others)

/-- The text of a link to an entry. -/
def entryLink (entry : String × Bool) : String :=
  let display := if entry.2 then entry.1 ++ "/" else entry.1
  let href := if entry.2 then urlEncodeSegment entry.1 ++ "/" else urlEncodeSegment entry.1
  "<a href=\"" ++ attrEscaped href ++ "\">" ++ htmlEscaped display ++ "</a>\n"

/-- The style sheet of a listing. -/
def listingStyle : String :=
  "<style>body\x7bfont:14px/1.5 system-ui,sans-serif;padding:1.5rem;max-width:60rem;" ++
  "margin:auto\x7dh1\x7bfont-size:1.25rem;margin-bottom:1rem\x7dpre\x7bmargin:0\x7d" ++
  "a\x7btext-decoration:none;color:inherit\x7da:hover\x7btext-decoration:underline\x7d</style>"

/-- The page of a listing. -/
def listingHtml (uriPath : String) (entries : List (String × Bool)) : String :=
  "<!doctype html>\n<html>\n<head>\n<meta charset=\"utf-8\">\n<title>Index of " ++
    htmlEscaped uriPath ++ "</title>\n" ++ listingStyle ++ "\n</head>\n<body>\n<h1>Index of " ++
    htmlEscaped uriPath ++ "</h1>\n<pre>" ++
    (if uriPath ≠ "/" ∧ uriPath ≠ "" then "<a href=\"../\">../</a>\n" else "") ++
    String.join (entries.map entryLink) ++ "</pre>\n</body>\n</html>\n"

/-- `render_directory_listing`. -/
def renderDirectoryListing (dir uriPath : String) : Files Response := do
  match ← Asks.question (Access.list dir) with
  | .error _ => pure (text 403 "403 Forbidden\n")
  | .ok names =>
      let entries ← listedEntries dir names
      pure
        { status := 200
          headers := withHeader ∅ HeaderName.contentType "text/html; charset=utf-8"
          body := full (Text.utf8Bytes (listingHtml uriPath (entries.mergeSort listingLe))) }

/-! ## Serving a file -/

/-- The `range` header as text. -/
def rangeHeader (headers : HeaderMap) : Option String :=
  (headers.get "range").bind HeaderValue.toStr

/-- Whether `If-None-Match` names the entity tag. -/
def matchesEtag (headers : HeaderMap) (etag : String) : Bool :=
  match (headers.get "if-none-match").bind HeaderValue.toStr with
  | some v => (Text.split ',' v).any fun tok => Text.trim tok == etag || Text.trim tok == "*"
  | none => false

/-- The body of a response: nothing for `HEAD`. -/
def bodyBytes (headOnly : Bool) (contents : Files (Except IoError Bytes)) :
    Files (Except IoError Bytes) :=
  if headOnly then pure (.ok []) else contents

/-- The part of `serve` that answers with the range `start..=stop`. -/
def serveRange (fullPath : String) (md : Metadata) (etag : Option String) (headOnly : Bool)
    (start stop : Nat) : Files Response := do
  let length := stop - start + 1
  match ← bodyBytes headOnly (Asks.question (Access.readRange fullPath start length)) with
  | .error _ => pure (text 500 "500 Internal Server Error\n")
  | .ok bytes =>
      let h := withHeader ∅ HeaderName.contentType (mimeFor fullPath)
      let h := withHeader h HeaderName.contentLength (toString length)
      let h := withHeader h acceptRanges "bytes"
      let h := withHeader h contentRange (rangeText start stop md.len.toNat)
      pure { status := 206, headers := withValidators h etag md.mtimeSecs, body := full bytes }

/-- The part of `serve` that answers with the whole file. -/
def serveWhole (fullPath : String) (md : Metadata) (etag : Option String) (headOnly : Bool) :
    Files Response := do
  match ← bodyBytes headOnly (Asks.question (Access.read fullPath)) with
  | .error .notFound => pure (text 404 "404 Not Found\n")
  | .error .other => pure (text 403 "403 Forbidden\n")
  | .ok bytes =>
      let h := withHeader ∅ HeaderName.contentType (mimeFor fullPath)
      let h := withHeader h acceptRanges "bytes"
      let h := if headOnly then withHeader h HeaderName.contentLength (toString md.len.toNat) else h
      pure { status := 200, headers := withValidators h etag md.mtimeSecs, body := full bytes }

/-- The entity tag of a file with a known time. -/
def etagOf (md : Metadata) : Option String :=
  md.mtimeSecs.map fun s => "W/\"" ++ hexText md.len.toNat ++ "-" ++ hexText s.toNat ++ "\""

/-- The part of `serve` after the file is found. -/
def serveFile (fullPath : String) (md : Metadata) (headers : HeaderMap) (method : Method) :
    Files Response :=
  let size := md.len.toNat
  let etag := etagOf md
  let headOnly := method == .head
  match etag.filter (matchesEtag headers) with
  | some et => pure (notModified et md.mtimeSecs)
  | none =>
      match (rangeHeader headers).bind fun r => parseSingleRange r size with
      | some (start, stop) => serveRange fullPath md etag headOnly start stop
      | none =>
          match rangeHeader headers with
          | some v =>
              -- a unit other than bytes is ignored
              if (Text.stripPrefix "bytes=" v).isNone then
                serveWhole fullPath md etag headOnly
              else
                let h := withHeader ∅ HeaderName.contentType "text/plain; charset=utf-8"
                pure
                  { status := 416
                    headers := withHeader h contentRange ("bytes */" ++ toString size)
                    body := full (Text.utf8Bytes "416 Range Not Satisfiable\n") }
          | none => serveWhole fullPath md etag headOnly

/-- `components_safe`. -/
def componentsSafe (p : String) : Bool :=
  (Path.components p).all fun
    | .normal _ => true
    | .curDir => true
    | _ => false

/-- The path below the directory that a request path names. -/
def relativePath (kind : StaticKind) (reqPath : String) : String :=
  match kind with
  | .root => Text.trimStartMatches '/' reqPath
  | .alias strip =>
      Text.trimStartMatches '/' ((Text.stripPrefix strip reqPath).getD reqPath)

/-- `serve`. -/
def serve (root : String) (kind : StaticKind) (reqPath : String) (headers : HeaderMap)
    (method : Method) (autoindex : Bool) : Files Response :=
  let rel := relativePath kind reqPath
  if !componentsSafe rel then pure (text 403 "403 Forbidden\n")
  else do
    let fullPath := Path.join root rel
    match ← Asks.question (Access.stat fullPath) with
    | .error .notFound => pure (text 404 "404 Not Found\n")
    | .error .other => pure (text 403 "403 Forbidden\n")
    | .ok md =>
        if md.isDir then
          let indexPath := Path.join fullPath "index.html"
          match ← Asks.question (Access.stat indexPath) with
          | .ok md => serveFile indexPath md headers method
          | .error .notFound =>
              if autoindex then renderDirectoryListing fullPath reqPath
              else pure (text 404 "404 Not Found\n")
          | .error .other => pure (text 403 "403 Forbidden\n")
        else serveFile fullPath md headers method

/-! ## Candidates -/

/-- Whether a path is a file, from the answer about its metadata. -/
def isRegular : Except IoError Metadata → Bool
  | .ok md => md.isFile
  | .error _ => false

/-- The loop of `try_files`; an entry is the last one if nothing follows it. -/
def tryFilesLoop (root : String) (ctx : RequestCtx) (headers : HeaderMap) (method : Method) :
    List TryFilesEntry → Files Response
  | [] => pure (text 404 "404 Not Found\n")
  | .status code :: rest =>
      if rest.isEmpty then pure (text code (toString code ++ " \n"))
      else tryFilesLoop root ctx headers method rest
  | .path template :: rest =>
      let rendered := template.render ctx
      let rel := Text.trimStartMatches '/' rendered
      let candidate := Path.join root rel
      if !componentsSafe rel then
        if rest.isEmpty then pure (text 403 "403 Forbidden\n")
        else tryFilesLoop root ctx headers method rest
      else do
        let answer ← Asks.question (Access.stat candidate)
        -- the last candidate is served whether it is a file or not
        if isRegular answer || rest.isEmpty then serve root .root rendered headers method false
        else tryFilesLoop root ctx headers method rest

/-- `try_files`. -/
def tryFiles (root : String) (entries : List TryFilesEntry) (ctx : RequestCtx)
    (headers : HeaderMap) (method : Method) : Files Response :=
  if entries.isEmpty then pure (text 500 "500 Internal Server Error\n")
  else tryFilesLoop root ctx headers method entries

/-- Where the loop of `try_files` stops: at its status code, at a path that is served, at a last path
that is not safe, or past the entries. -/
inductive Tried where
  | code (status : Nat)
  | file (rendered : String)
  | refused
  | nothing
deriving DecidableEq, Repr

/-- The loop of `try_files` up to where it stops. -/
def tryEntries (root : String) (ctx : RequestCtx) : List TryFilesEntry → Files Tried
  | [] => pure .nothing
  | .status code :: rest => if rest.isEmpty then pure (.code code) else tryEntries root ctx rest
  | .path template :: rest =>
      let rendered := template.render ctx
      let rel := Text.trimStartMatches '/' rendered
      if !componentsSafe rel then
        if rest.isEmpty then pure .refused else tryEntries root ctx rest
      else do
        let answer ← Asks.question (Access.stat (Path.join root rel))
        if isRegular answer || rest.isEmpty then pure (.file rendered)
        else tryEntries root ctx rest

/-- The answer of `try_files` from where its loop stops. -/
def answerTried (root : String) (headers : HeaderMap) (method : Method) : Tried → Files Response
  | .code status => pure (text status (toString status ++ " \n"))
  | .file rendered => serve root .root rendered headers method false
  | .refused => pure (text 403 "403 Forbidden\n")
  | .nothing => pure (text 404 "404 Not Found\n")

/-- The loop of `try_files` answers from where it stops. -/
theorem tryFilesLoop_eq (root : String) (ctx : RequestCtx) (headers : HeaderMap) (method : Method)
    (entries : List TryFilesEntry) :
    tryFilesLoop root ctx headers method entries =
      tryEntries root ctx entries >>= answerTried root headers method := by
  induction entries with
  | nil => rfl
  | cons entry rest ih =>
      cases entry with
      | status code =>
          rw [tryFilesLoop, tryEntries]
          split
          · rfl
          · exact ih
      | path template =>
          simp only [tryFilesLoop, tryEntries]
          split
          · split
            · rfl
            · exact ih
          · refine congrArg (Asks.ask _) (funext fun answer => ?_)
            -- whether the candidate is served
            show (if isRegular answer || rest.isEmpty then _ else _) =
              (if isRegular answer || rest.isEmpty then _ else _) >>= _
            split
            · rfl
            · exact ih

end Elrond.Static
