import Elrond.Http.Fields
import Elrond.Static.Serve

/-!
# What is selected of a file

Once `serve` has found the file, its metadata and the headers of the request decide what it answers
with: that the file is not modified, a part of it, that there is no such part, or the whole file. The
method has no say in this `Selection`, and `serveFile_eq` takes `serve` apart along it. The file is
read for a part or the whole only, and not for `HEAD`.
-/

set_option autoImplicit false

namespace Elrond.Static

open Elrond.Lib Elrond.Http Elrond.Request Elrond.Config Elrond.App

/-! ## Header lines -/

/-- There is one line of the name, and it has the value. -/
def HasOnly (headers : HeaderMap) (name value : String) : Prop :=
  ∃ v, headers.getAll name = [v] ∧ v.bytes = Text.utf8Bytes value

theorem HasOnly.ne_nil {headers : HeaderMap} {name value : String}
    (h : HasOnly headers name value) : headers.getAll name ≠ [] := by
  obtain ⟨v, hv, -⟩ := h
  rw [hv]
  exact List.cons_ne_nil v []

theorem hasOnly_iff {headers : HeaderMap} {name value : String} :
    HasOnly headers name value ↔
      (headers.getAll name).map HeaderValue.bytes = [Text.utf8Bytes value] := by
  constructor
  · rintro ⟨v, hv, hbytes⟩
    rw [hv, List.map_singleton, hbytes]
  · intro h
    obtain ⟨v, hv, hbytes⟩ := List.map_eq_singleton_iff.1 h
    exact ⟨v, hv, hbytes⟩

theorem getAll_append (h : HeaderMap) (n : HeaderName) (v : HeaderValue) (b : String) :
    (h.append n v).getAll b =
      h.getAll b ++ if n.text = Text.toAsciiLowercase b then [v] else [] := by
  rw [HeaderMap.getAll, HeaderMap.append, List.filter_append, List.map_append]
  by_cases hb : n.text = Text.toAsciiLowercase b
  · rw [List.filter_cons_of_pos (by simpa using hb), if_pos hb]
    rfl
  · rw [List.filter_cons_of_neg (by simpa using hb), if_neg hb]
    rfl

theorem getAll_withHeader_of_ne (h : HeaderMap) {n : HeaderName} (value : String) {b : String}
    (hb : n.text ≠ Text.toAsciiLowercase b) : (withHeader h n value).getAll b = h.getAll b := by
  rw [withHeader]
  cases HeaderValue.fromStr value with
  | none => rfl
  | some v =>
      show (h.append n v).getAll b = h.getAll b
      rw [getAll_append, if_neg hb, List.append_nil]

theorem getAll_withHeader_of_eq (h : HeaderMap) {n : HeaderName} {value b : String}
    (hb : n.text = Text.toAsciiLowercase b) (hvalue : ∀ c ∈ value.toList, isVisibleChar c = true) :
    ∃ v, v.bytes = Text.utf8Bytes value ∧
      (withHeader h n value).getAll b = h.getAll b ++ [v] := by
  obtain ⟨v, hv, hbytes, -⟩ := fromStr_of_visible hvalue
  refine ⟨v, hbytes, ?_⟩
  simp only [withHeader, hv]
  rw [getAll_append, if_pos hb]

theorem getAll_withValidators (h : HeaderMap) (etag : Option String) (mtimeSecs : Option UInt64)
    {b : String} (hetag : Text.toAsciiLowercase b ≠ "etag")
    (hmodified : Text.toAsciiLowercase b ≠ "last-modified") :
    (withValidators h etag mtimeSecs).getAll b = h.getAll b := by
  have hetag' : etagName.text ≠ Text.toAsciiLowercase b := fun heq => hetag heq.symm
  have hmodified' : lastModified.text ≠ Text.toAsciiLowercase b := fun heq => hmodified heq.symm
  cases etag with
  | none =>
      cases mtimeSecs with
      | none => rfl
      | some m =>
          simp only [withValidators]
          rw [getAll_withHeader_of_ne _ _ hmodified']
  | some et =>
      cases mtimeSecs with
      | none =>
          simp only [withValidators]
          rw [getAll_withHeader_of_ne _ _ hetag']
      | some m =>
          simp only [withValidators]
          rw [getAll_withHeader_of_ne _ _ hmodified', getAll_withHeader_of_ne _ _ hetag']

theorem isVisibleChar_rangeText (start stop size : Nat) :
    ∀ c ∈ (rangeText start stop size).toList, isVisibleChar c = true := by
  have hword : "bytes ".toList.all isVisibleChar = true := by decide
  have hdash : "-".toList.all isVisibleChar = true := by decide
  have hslash : "/".toList.all isVisibleChar = true := by decide
  intro c hc
  simp only [rangeText, String.toList_append, List.mem_append] at hc
  rcases hc with ((((hc | hc) | hc) | hc) | hc) | hc
  · exact List.all_eq_true.1 hword c hc
  · exact isVisibleChar_toString start c hc
  · exact List.all_eq_true.1 hdash c hc
  · exact isVisibleChar_toString stop c hc
  · exact List.all_eq_true.1 hslash c hc
  · exact isVisibleChar_toString size c hc

/-! ## Selections -/

/-- What `serve` answers with. -/
inductive Selection where
  | notModified (etag : String)
  | part (start stop : Nat)
  | unsatisfiable
  | whole

/-- What the headers of a request select of a file. -/
def selection (md : Metadata) (headers : HeaderMap) : Selection :=
  match (etagOf md).filter (matchesEtag headers) with
  | some et => .notModified et
  | none =>
      match (rangeHeader headers).bind fun r => parseSingleRange r md.len.toNat with
      | some (start, stop) => .part start stop
      | none =>
          match rangeHeader headers with
          | some v => if (Text.stripPrefix "bytes=" v).isNone then .whole else .unsatisfiable
          | none => .whole

/-- The response to a range that the file does not have. -/
def unsatisfiable (size : Nat) : Response :=
  let h := withHeader ∅ HeaderName.contentType "text/plain; charset=utf-8"
  { status := 416
    headers := withHeader h contentRange ("bytes */" ++ toString size)
    body := full (Text.utf8Bytes "416 Range Not Satisfiable\n") }

/-- `serve` answers with what is selected. -/
theorem serveFile_eq (path : String) (md : Metadata) (headers : HeaderMap) (method : Method) :
    serveFile path md headers method =
      match selection md headers with
      | .notModified et => pure (notModified et md.mtimeSecs)
      | .part start stop => serveRange path md (etagOf md) (method == .head) start stop
      | .unsatisfiable => pure (unsatisfiable md.len.toNat)
      | .whole => serveWhole path md (etagOf md) (method == .head) := by
  -- the same cases in the same order
  simp only [serveFile, selection]
  cases (etagOf md).filter (matchesEtag headers) with
  | some et => rfl
  | none =>
      cases (rangeHeader headers).bind fun r => parseSingleRange r md.len.toNat with
      | some range => rfl
      | none =>
          cases rangeHeader headers with
          | none => rfl
          | some v =>
              simp only
              cases (Text.stripPrefix "bytes=" v).isNone with
              | true => rfl
              | false => rfl

/-- A part is selected by a range header. -/
theorem selection_part {md : Metadata} {headers : HeaderMap} {start stop : Nat}
    (h : selection md headers = .part start stop) :
    ∃ raw, rangeHeader headers = some raw ∧
      parseSingleRange raw md.len.toNat = some (start, stop) := by
  simp only [selection] at h
  split at h
  · cases h
  -- a range that can be read is the only way to a part
  · split at h
    · next range hrange =>
      obtain ⟨rfl, rfl⟩ := Selection.part.inj h
      exact Option.bind_eq_some_iff.1 hrange
    · split at h
      · split at h <;> cases h
      · cases h

/-! ## Answers -/

/-- The bytes of a content from the first to the last position of a range. -/
def slice (content : Bytes) (start stop : Nat) : Bytes := (content.take (stop + 1)).drop start

theorem slice_eq_take_drop {content : Bytes} {start stop : Nat} (hle : start ≤ stop) :
    slice content start stop = (content.drop start).take (stop - start + 1) := by
  rw [slice, List.drop_take]
  congr 1
  omega

theorem length_slice {content : Bytes} {start stop : Nat} (hstop : stop < content.length) :
    (slice content start stop).length = stop + 1 - start := by
  rw [slice, List.length_drop, List.length_take]
  omega

theorem length_notModified (etag : String) (mtimeSecs : Option UInt64) :
    (notModified etag mtimeSecs).headers.getAll "content-length" = [] :=
  getAll_withValidators ∅ (some etag) mtimeSecs (by decide) (by decide)

theorem length_unsatisfiable (size : Nat) :
    (unsatisfiable size).headers.getAll "content-length" = [] := by
  have hrange : contentRange.text ≠ Text.toAsciiLowercase "content-length" := by decide
  have htype : HeaderName.contentType.text ≠ Text.toAsciiLowercase "content-length" := by decide
  calc (unsatisfiable size).headers.getAll "content-length"
      = (withHeader ∅ HeaderName.contentType "text/plain; charset=utf-8").getAll
          "content-length" := getAll_withHeader_of_ne _ _ hrange
    _ = [] := getAll_withHeader_of_ne ∅ _ htype

/-- The header lines of a response with a range. -/
def rangeHeaders (path : String) (md : Metadata) (etag : Option String) (start stop : Nat) :
    HeaderMap :=
  let h := withHeader ∅ HeaderName.contentType (mimeFor path)
  let h := withHeader h HeaderName.contentLength (toString (stop - start + 1))
  let h := withHeader h acceptRanges "bytes"
  let h := withHeader h contentRange (rangeText start stop md.len.toNat)
  withValidators h etag md.mtimeSecs

/-- An entity tag is readable. -/
theorem isVisibleChar_etagOf {md : Metadata} {etag : String} (h : etagOf md = some etag) :
    ∀ c ∈ etag.toList, isVisibleChar c = true := by
  obtain ⟨secs, -, rfl⟩ := Option.map_eq_some_iff.1 h
  have hweak : "W/\"".toList.all isVisibleChar = true := by decide
  have hdash : "-".toList.all isVisibleChar = true := by decide
  have hquote : "\"".toList.all isVisibleChar = true := by decide
  have hhex : ∀ n, ∀ c ∈ (hexText n).toList, isVisibleChar c = true := by
    intro n
    rw [hexText, String.toList_ofList]
    exact isVisibleChar_toDigits 16 n
  intro c hc
  simp only [String.toList_append, List.mem_append] at hc
  rcases hc with (((hc | hc) | hc) | hc) | hc
  · exact List.all_eq_true.1 hweak c hc
  · exact hhex _ c hc
  · exact List.all_eq_true.1 hdash c hc
  · exact hhex _ c hc
  · exact List.all_eq_true.1 hquote c hc

theorem hasOnly_rangeHeaders_length (path : String) (md : Metadata) (etag : Option String)
    (start stop : Nat) :
    HasOnly (rangeHeaders path md etag start stop) "content-length"
      (toString (stop - start + 1)) := by
  obtain ⟨v, hbytes, hv⟩ := getAll_withHeader_of_eq
    (withHeader ∅ HeaderName.contentType (mimeFor path)) (n := HeaderName.contentLength)
    (b := "content-length") (by decide) (isVisibleChar_toString (stop - start + 1))
  refine ⟨v, ?_, hbytes⟩
  rw [rangeHeaders, getAll_withValidators _ _ _ (by decide) (by decide),
    getAll_withHeader_of_ne _ _ (by decide), getAll_withHeader_of_ne _ _ (by decide), hv,
    getAll_withHeader_of_ne _ _ (by decide)]
  rfl

theorem hasOnly_rangeHeaders_range (path : String) (md : Metadata) (etag : Option String)
    (start stop : Nat) :
    HasOnly (rangeHeaders path md etag start stop) "content-range"
      (rangeText start stop md.len.toNat) := by
  obtain ⟨v, hbytes, hv⟩ := getAll_withHeader_of_eq
    (withHeader (withHeader (withHeader ∅ HeaderName.contentType (mimeFor path))
      HeaderName.contentLength (toString (stop - start + 1))) acceptRanges "bytes")
    (n := contentRange) (b := "content-range") (by decide)
    (isVisibleChar_rangeText start stop md.len.toNat)
  refine ⟨v, ?_, hbytes⟩
  rw [rangeHeaders, getAll_withValidators _ _ _ (by decide) (by decide), hv,
    getAll_withHeader_of_ne _ _ (by decide), getAll_withHeader_of_ne _ _ (by decide),
    getAll_withHeader_of_ne _ _ (by decide)]
  rfl

/-- The validators end with the entity tag and the time of the last change. -/
theorem hasOnly_withValidators_etag {h : HeaderMap} (hnone : h.getAll "etag" = []) {etag : String}
    (hvisible : ∀ c ∈ etag.toList, isVisibleChar c = true) (mtimeSecs : Option UInt64) :
    HasOnly (withValidators h (some etag) mtimeSecs) "etag" etag := by
  obtain ⟨v, hbytes, hv⟩ := getAll_withHeader_of_eq h (n := etagName) (b := "etag") (by decide)
    hvisible
  refine ⟨v, ?_, hbytes⟩
  rw [hnone, List.nil_append] at hv
  cases mtimeSecs with
  | none => exact hv
  | some m =>
      simp only [withValidators]
      rw [getAll_withHeader_of_ne _ _ (by decide), hv]

theorem hasOnly_rangeHeaders_etag (path : String) {md : Metadata} {etag : String}
    (h : etagOf md = some etag) (start stop : Nat) :
    HasOnly (rangeHeaders path md (etagOf md) start stop) "etag" etag := by
  rw [rangeHeaders, h]
  apply hasOnly_withValidators_etag _ (isVisibleChar_etagOf h)
  rw [getAll_withHeader_of_ne _ _ (by decide), getAll_withHeader_of_ne _ _ (by decide),
    getAll_withHeader_of_ne _ _ (by decide), getAll_withHeader_of_ne _ _ (by decide)]
  rfl

/-- Of the other lines, a response with a range has the media type. -/
theorem getAll_rangeHeaders (path : String) (md : Metadata) (etag : Option String)
    (start stop : Nat) {b : String} (hb : Text.toAsciiLowercase b ∉
      ["content-length", "accept-ranges", "content-range", "etag", "last-modified"]) :
    (rangeHeaders path md etag start stop).getAll b =
      (withHeader ∅ HeaderName.contentType (mimeFor path)).getAll b := by
  simp only [List.mem_cons, List.not_mem_nil, or_false, not_or] at hb
  obtain ⟨hlength, haccept, hrange, hetag, hmodified⟩ := hb
  rw [rangeHeaders, getAll_withValidators _ _ _ hetag hmodified,
    getAll_withHeader_of_ne (n := contentRange) _ _ (Ne.symm hrange),
    getAll_withHeader_of_ne (n := acceptRanges) _ _ (Ne.symm haccept),
    getAll_withHeader_of_ne (n := HeaderName.contentLength) _ _ (Ne.symm hlength)]

/-- The header lines of a response with the whole file. -/
def wholeHeaders (path : String) (md : Metadata) (etag : Option String) (headOnly : Bool) :
    HeaderMap :=
  let h := withHeader ∅ HeaderName.contentType (mimeFor path)
  let h := withHeader h acceptRanges "bytes"
  let h := if headOnly then withHeader h HeaderName.contentLength (toString md.len.toNat) else h
  withValidators h etag md.mtimeSecs

/-- Of the other lines, a response with the whole file has the media type. -/
theorem getAll_wholeHeaders (path : String) (md : Metadata) (etag : Option String)
    (headOnly : Bool) {b : String} (hb : Text.toAsciiLowercase b ∉
      ["content-length", "accept-ranges", "content-range", "etag", "last-modified"]) :
    (wholeHeaders path md etag headOnly).getAll b =
      (withHeader ∅ HeaderName.contentType (mimeFor path)).getAll b := by
  simp only [List.mem_cons, List.not_mem_nil, or_false, not_or] at hb
  obtain ⟨hlength, haccept, -, hetag, hmodified⟩ := hb
  rw [wholeHeaders, getAll_withValidators _ _ _ hetag hmodified]
  cases headOnly with
  | true =>
      simp only [if_true]
      rw [getAll_withHeader_of_ne (n := HeaderName.contentLength) _ _ (Ne.symm hlength),
        getAll_withHeader_of_ne (n := acceptRanges) _ _ (Ne.symm haccept)]
  | false =>
      simp only [Bool.false_eq_true, if_false]
      rw [getAll_withHeader_of_ne (n := acceptRanges) _ _ (Ne.symm haccept)]

/-- To `HEAD` it has the length of the file. -/
theorem hasOnly_wholeHeaders_length (path : String) (md : Metadata) (etag : Option String) :
    HasOnly (wholeHeaders path md etag true) "content-length" (toString md.len.toNat) := by
  obtain ⟨v, hbytes, hv⟩ := getAll_withHeader_of_eq
    (withHeader (withHeader ∅ HeaderName.contentType (mimeFor path)) acceptRanges "bytes")
    (n := HeaderName.contentLength) (b := "content-length") (by decide)
    (isVisibleChar_toString md.len.toNat)
  refine ⟨v, ?_, hbytes⟩
  rw [wholeHeaders, getAll_withValidators _ _ _ (by decide) (by decide)]
  simp only [if_true]
  rw [hv, getAll_withHeader_of_ne _ _ (by decide), getAll_withHeader_of_ne _ _ (by decide)]
  rfl

/-- The response with a range, after the file was read. -/
def rangeAnswer (path : String) (md : Metadata) (start stop : Nat) :
    Except IoError Bytes → Response
  | .error _ => text 500 "500 Internal Server Error\n"
  | .ok bytes =>
      { status := 206, headers := rangeHeaders path md (etagOf md) start stop, body := full bytes }

/-- The response with the whole file, after the file was read. -/
def wholeAnswer (path : String) (md : Metadata) (headOnly : Bool) : Except IoError Bytes → Response
  | .error .notFound => text 404 "404 Not Found\n"
  | .error .other => text 403 "403 Forbidden\n"
  | .ok bytes =>
      { status := 200, headers := wholeHeaders path md (etagOf md) headOnly, body := full bytes }

/-- What is made of reading the file: for `HEAD` it is not read. -/
def readFor (headOnly : Bool) (reply : Except IoError Bytes) : Except IoError Bytes :=
  if headOnly then .ok [] else reply

theorem rangeAnswer_of_partial {path : String} {md : Metadata} {start stop : Nat}
    {reply : Except IoError Bytes} (h : (rangeAnswer path md start stop reply).status = 206) :
    ∃ bytes, reply = .ok bytes := by
  cases reply with
  | error e => exact absurd h (by decide : (500 : Nat) ≠ 206)
  | ok bytes => exact ⟨bytes, rfl⟩

theorem status_wholeAnswer (path : String) (md : Metadata) (headOnly : Bool)
    (reply : Except IoError Bytes) : (wholeAnswer path md headOnly reply).status ≠ 206 := by
  rcases reply with (_ | _) | bytes
  · exact (by decide : (404 : Nat) ≠ 206)
  · exact (by decide : (403 : Nat) ≠ 206)
  · exact (by decide : (200 : Nat) ≠ 206)

section Environment

variable {σ : Type} {answer : σ → (q : Access) → q.Answer × σ}

/-- The file is read for the range, but not for `HEAD`. -/
theorem run_serveRange (path : String) (md : Metadata) (headOnly : Bool) (start stop : Nat)
    (s : σ) :
    ((serveRange path md (etagOf md) headOnly start stop).run answer s).1 =
      rangeAnswer path md start stop
        (readFor headOnly (answer s (.readRange path start (stop - start + 1))).1) := by
  cases headOnly with
  | true => rfl
  | false =>
      have hask : serveRange path md (etagOf md) false start stop =
          Asks.ask (Access.readRange path start (stop - start + 1)) fun reply =>
            .done (rangeAnswer path md start stop reply) := by
        apply congrArg (Asks.ask (Access.readRange path start (stop - start + 1)))
        funext reply
        cases reply with
        | error e => rfl
        | ok bytes => rfl
      rw [hask]
      rfl

theorem run_serveWhole (path : String) (md : Metadata) (headOnly : Bool) (s : σ) :
    ((serveWhole path md (etagOf md) headOnly).run answer s).1 =
      wholeAnswer path md headOnly
        (readFor headOnly (answer s (.read path)).1) := by
  cases headOnly with
  | true => rfl
  | false =>
      have hask : serveWhole path md (etagOf md) false =
          Asks.ask (Access.read path) fun reply => .done (wholeAnswer path md false reply) := by
        apply congrArg (Asks.ask (Access.read path))
        funext reply
        cases reply with
        | error e =>
            cases e with
            | notFound => rfl
            | other => rfl
        | ok bytes => rfl
      rw [hask]
      rfl

/-- Whenever the environment is asked about the file at the path, it answers with the metadata and
the content, or the part of it that is asked for. -/
structure Unchanged (answer : σ → (q : Access) → q.Answer × σ) (path : String) (md : Metadata)
    (content : Bytes) : Prop where
  stat : ∀ s, (answer s (.stat path)).1 = .ok md
  len : md.len.toNat = content.length
  read : ∀ s, (answer s (.read path)).1 = .ok content
  readRange : ∀ s start length, start + length ≤ content.length →
    (answer s (.readRange path start length)).1 = .ok ((content.drop start).take length)

/-- A range of a file that does not change is answered with its bytes. -/
theorem Unchanged.run_serveRange {path : String} {md : Metadata} {content : Bytes}
    (hfile : Unchanged answer path md content) {start stop : Nat} (hle : start ≤ stop)
    (hstop : stop < content.length) (method : Method) (s : σ) :
    ((serveRange path md (etagOf md) (method == .head) start stop).run answer s).1 =
      rangeAnswer path md start stop
        (.ok (if method = .head then [] else slice content start stop)) := by
  have hread := hfile.readRange s start (stop - start + 1) (by omega)
  rw [Static.run_serveRange, hread, ← slice_eq_take_drop hle]
  by_cases hhead : method = .head
  · rw [if_pos hhead, readFor, if_pos (beq_iff_eq.2 hhead)]
  · rw [if_neg hhead, readFor, beq_eq_false_iff_ne.2 hhead]
    rfl

/-! ## Finding the file -/

/-- The request is for the file at the path: the path it names, or the index of a directory. -/
inductive Resolves (answer : σ → (q : Access) → q.Answer × σ) (root : String) (kind : StaticKind)
    (reqPath : String) (md : Metadata) : String → Prop
  | file (hsafe : componentsSafe (relativePath kind reqPath) = true) (hfile : md.isDir = false) :
      Resolves answer root kind reqPath md (Path.join root (relativePath kind reqPath))
  | index {dir : Metadata} (hsafe : componentsSafe (relativePath kind reqPath) = true)
      (hdir : ∀ s, (answer s (.stat (Path.join root (relativePath kind reqPath)))).1 = .ok dir)
      (hisDir : dir.isDir = true) :
      Resolves answer root kind reqPath md
        (Path.join (Path.join root (relativePath kind reqPath)) "index.html")

/-- `serve` goes on with the file the request is for. -/
theorem run_serve {root : String} {kind : StaticKind} {reqPath path : String} {md : Metadata}
    (hstat : ∀ s, (answer s (.stat path)).1 = .ok md)
    (hpath : Resolves answer root kind reqPath md path) (headers : HeaderMap) (method : Method)
    (autoindex : Bool) (s : σ) :
    ∃ s', ((serve root kind reqPath headers method autoindex).run answer s).1 =
      ((serveFile path md headers method).run answer s').1 := by
  cases hpath with
  | file hsafe hnotDir =>
      refine ⟨(answer s (.stat (Path.join root (relativePath kind reqPath)))).2, ?_⟩
      simp only [serve, hsafe, Bool.not_true, Bool.false_eq_true, if_false, Asks.question_bind,
        Asks.run, hstat, hnotDir]
  | index hsafe hdir hisDir =>
      refine ⟨(answer (answer s (.stat (Path.join root (relativePath kind reqPath)))).2 (.stat
        (Path.join (Path.join root (relativePath kind reqPath)) "index.html"))).2, ?_⟩
      simp only [serve, hsafe, Bool.not_true, Bool.false_eq_true, if_false, Asks.question_bind,
        Asks.run, hdir, hisDir, if_true, hstat]

/-- A listing is no part of a file. -/
theorem status_renderDirectoryListing (dir uriPath : String) (s : σ) :
    ((renderDirectoryListing dir uriPath).run answer s).1.status ≠ 206 := by
  have hpage : ∀ (entries : Files (List (String × Bool))) (page : List (String × Bool) → Response)
      (s' : σ), (∀ e, (page e).status = 200) →
        ((entries >>= fun e => pure (page e)).run answer s').1.status ≠ 206 := by
    intro entries page s' hstatus
    rw [Asks.run_bind]
    show (page _).status ≠ 206
    rw [hstatus]
    decide
  rw [renderDirectoryListing, Asks.question_bind, Asks.run]
  rcases (answer s (.list dir)).1 with _ | names
  · exact (by decide : (403 : Nat) ≠ 206)
  · exact hpage (listedEntries dir names) _ _ fun _ => rfl

/-- A 206 is the answer for a file that `serve` has found: the one the path names, or the index of a
directory. -/
theorem run_serve_of_partial {root : String} {kind : StaticKind} {reqPath : String}
    {headers : HeaderMap} {method : Method} {autoindex : Bool} {s : σ}
    (h : ((serve root kind reqPath headers method autoindex).run answer s).1.status = 206) :
    ∃ path md s₁ s₂,
      path ∈ [Path.join root (relativePath kind reqPath),
        Path.join (Path.join root (relativePath kind reqPath)) "index.html"] ∧
      (answer s₁ (.stat path)).1 = .ok md ∧
      ((serve root kind reqPath headers method autoindex).run answer s).1 =
        ((serveFile path md headers method).run answer s₂).1 := by
  have hnot : ∀ (code : Nat) (body : String), code ≠ 206 → (text code body).status ≠ 206 :=
    fun _ _ hcode => hcode
  simp only [serve] at h ⊢
  split at h
  · exact absurd h (hnot _ _ (by decide))
  next hsafe =>
  rw [if_neg hsafe]
  simp only [Asks.question_bind, Asks.run] at h ⊢
  -- the answer about the path the request names
  cases hstat : (answer s (.stat (Path.join root (relativePath kind reqPath)))).1 with
  | error e =>
      rw [hstat] at h
      cases e with
      | notFound => exact absurd h (hnot _ _ (by decide))
      | other => exact absurd h (hnot _ _ (by decide))
  | ok md =>
      simp only [hstat] at h ⊢
      cases hdir : md.isDir with
      | false =>
          simp only [Bool.false_eq_true, if_false]
          exact ⟨_, md, s, _, List.mem_cons_self, hstat, rfl⟩
      | true =>
          simp only [hdir, if_true, Asks.run] at h ⊢
          -- the answer about the index of the directory
          generalize hindex : (answer _ (.stat (Path.join
            (Path.join root (relativePath kind reqPath)) "index.html"))).1 = found at h ⊢
          rcases found with e | md'
          · cases e with
            | notFound =>
                simp only at h
                split at h
                · exact absurd h (status_renderDirectoryListing _ _ _)
                · exact absurd h (hnot _ _ (by decide))
            | other => exact absurd h (hnot _ _ (by decide))
          · exact ⟨_, md', _, _, List.mem_cons_of_mem _ List.mem_cons_self, hindex, rfl⟩

/-- A 206 is the answer to a range, which is read unless the request is a `HEAD`. -/
theorem run_serveFile_of_partial {path : String} {md : Metadata} {headers : HeaderMap}
    {method : Method} {s : σ} (h : ((serveFile path md headers method).run answer s).1.status = 206) :
    ∃ start stop payload, selection md headers = .part start stop ∧
      (method = .head → payload = []) ∧
      (method ≠ .head → (answer s (.readRange path start (stop - start + 1))).1 = .ok payload) ∧
      ((serveFile path md headers method).run answer s).1 =
        { status := 206, headers := rangeHeaders path md (etagOf md) start stop,
          body := full payload } := by
  rw [serveFile_eq] at h ⊢
  cases hselection : selection md headers with
  | notModified et =>
      rw [hselection] at h
      exact absurd h (by decide : (304 : Nat) ≠ 206)
  | unsatisfiable =>
      rw [hselection] at h
      exact absurd h (by decide : (416 : Nat) ≠ 206)
  | whole =>
      rw [hselection] at h
      simp only [run_serveWhole] at h
      exact absurd h (status_wholeAnswer _ _ _ _)
  | part start stop =>
      rw [hselection] at h
      simp only [run_serveRange] at h ⊢
      obtain ⟨payload, hpayload⟩ := rangeAnswer_of_partial h
      refine ⟨start, stop, payload, rfl, ?_, ?_, by rw [hpayload, rangeAnswer]⟩
      · rintro rfl
        exact (Except.ok.inj hpayload).symm
      · intro hne
        rw [beq_eq_false_iff_ne.2 hne] at hpayload
        exact hpayload

end Environment

end Elrond.Static
