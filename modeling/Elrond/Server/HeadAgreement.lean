import Elrond.Server.StaticResponses

/-!
# Responses to `HEAD`

A response to `HEAD` has the headers that `serve` would give to `GET`, and no body. Then
`maybe_compress` looks at the body it finds. It compresses what `GET` gets by the size and the
contents of the file, and the response to `HEAD` by an empty body. So the length and the coding that
`HEAD` announces are those of `GET` only where neither is compressed, or both to equal lengths
(`head_agrees_iff`).
-/

set_option autoImplicit false

namespace Elrond.Server

open Elrond.Lib Elrond.Http Elrond.Request Elrond.Config Elrond.Upstream Elrond.Proxy Elrond.Limit
  Elrond.App Elrond.Static

/-! ## Agreement -/

/-- If the response to `HEAD` has a length, it is that of the body that `GET` gets, with the same
status and coding. -/
def HeadAgrees (head get : Response) : Prop :=
  head.headers.getAll "content-length" ≠ [] →
    HasOnly head.headers "content-length" (toString get.body.data.length) ∧
      head.status = get.status ∧
      head.headers.getAll "content-encoding" = get.headers.getAll "content-encoding"

theorem headAgrees_of_no_length {head get : Response}
    (h : head.headers.getAll "content-length" = []) : HeadAgrees head get :=
  fun hne => absurd h hne

theorem not_headAgrees_of_status {head get : Response}
    (hlength : head.headers.getAll "content-length" ≠ []) (hstatus : head.status ≠ get.status) :
    ¬ HeadAgrees head get :=
  fun h => hstatus (h hlength).2.1

theorem toString_injective {n m : Nat} (h : toString n = toString m) : n = m := by
  rw [Nat.toString_eq_ofList_toDigits, Nat.toString_eq_ofList_toDigits] at h
  have hdigits : Nat.toDigits 10 n = Nat.toDigits 10 m := String.ofList_injective h
  have hread : ∀ k, Nat.ofDigitChars 10 (Nat.toDigits 10 k) 0 = k :=
    fun k => Nat.ofDigitChars_toDigits (by decide) (by decide)
  rw [← hread n, hdigits, hread]

/-- A line has one length. -/
theorem hasOnly_toString {headers : HeaderMap} {name : String} {n m : Nat}
    (hn : HasOnly headers name (toString n)) : HasOnly headers name (toString m) ↔ n = m := by
  constructor
  · intro hm
    have hbytes : Text.utf8Bytes (toString n) = Text.utf8Bytes (toString m) := by
      rw [hasOnly_iff] at hn hm
      exact (List.cons.inj (hn.symm.trans hm)).1
    obtain ⟨v, -, hv, htext⟩ := fromStr_of_visible (isVisibleChar_toString n)
    obtain ⟨w, -, hw, htext'⟩ := fromStr_of_visible (isVisibleChar_toString m)
    apply toString_injective
    rw [← htext, ← htext', hv, hw, hbytes]
  · rintro rfl
    exact hn

/-! ## A body in the compression -/

section

variable (crates : Crates) (reqHeaders : HeaderMap) (gzipEnabled : Bool) (minLength : Nat)
  {gzipTypes : List String} {status : Nat} {headers : HeaderMap}

/-- A success without a coding is compressed, or not, by its type and its body. -/
theorem maybeCompress_full (hstatus : statusEligible status = true)
    (hplain : headers.getAll "content-encoding" = []) (body : Bytes) :
    let before : Response := { status := status, headers := headers, body := full body }
    let offered := gzipEnabled && clientAcceptsGzip reqHeaders &&
      contentTypeEligible headers gzipTypes
    maybeCompress crates before reqHeaders gzipEnabled gzipTypes none minLength =
      match codedBody crates offered minLength body with
      | some bytes => compressed before bytes
      | none => before := by
  intro before offered
  have hnone : headers.get "content-encoding" = none := by rw [HeaderMap.get, hplain, List.head?_nil]
  have hcollects : collects status headers reqHeaders gzipEnabled gzipTypes none = offered := by
    rw [collects, hstatus, hnone, withinCollect, Option.isNone_none, Bool.and_true, Bool.and_true,
      Bool.and_true]
  rw [← hcollects]
  exact maybeCompress_of_whole crates minLength before reqHeaders gzipEnabled gzipTypes none rfl

/-- `HEAD` gets a length of the body that `GET` gets, and an empty body. After the compression the two
agree exactly if neither body was compressed, or both to equal lengths. -/
theorem headAgrees_maybeCompress_iff (hstatus : statusEligible status = true)
    {getHeaders : HeaderMap} (hplain : headers.getAll "content-encoding" = [])
    (hplain' : getHeaders.getAll "content-encoding" = [])
    (htype : contentTypeEligible headers gzipTypes = contentTypeEligible getHeaders gzipTypes)
    {body : Bytes} (hlength : HasOnly headers "content-length" (toString body.length)) :
    let offered := gzipEnabled && clientAcceptsGzip reqHeaders &&
      contentTypeEligible getHeaders gzipTypes
    HeadAgrees
        (maybeCompress crates { status := status, headers := headers, body := full [] } reqHeaders
          gzipEnabled gzipTypes none minLength)
        (maybeCompress crates { status := status, headers := getHeaders, body := full body }
          reqHeaders gzipEnabled gzipTypes none minLength) ↔
      (codedBody crates offered minLength []).map List.length =
        (codedBody crates offered minLength body).map List.length := by
  intro offered
  rw [maybeCompress_full crates reqHeaders gzipEnabled minLength hstatus hplain,
    maybeCompress_full crates reqHeaders gzipEnabled minLength hstatus hplain', htype]
  show HeadAgrees
    (match codedBody crates offered minLength [] with
      | some bytes => compressed { status := status, headers := headers, body := full [] } bytes
      | none => { status := status, headers := headers, body := full [] })
    (match codedBody crates offered minLength body with
      | some bytes =>
          compressed { status := status, headers := getHeaders, body := full body } bytes
      | none => { status := status, headers := getHeaders, body := full body }) ↔ _
  have hne : ([] : List HeaderValue) ≠ [gzipValue] := (List.cons_ne_nil _ _).symm
  cases hhead : codedBody crates offered minLength [] with
  | none =>
      cases hget : codedBody crates offered minLength body with
      | none =>
          -- both go out as they are
          refine iff_of_true ?_ rfl
          intro _
          exact ⟨hlength, rfl, hplain.trans hplain'.symm⟩
      | some bytes =>
          -- only the body of `GET` is compressed, and `HEAD` announces no coding
          refine iff_of_false ?_ (by simp)
          intro h
          have hcoding := (h hlength.ne_nil).2.2
          rw [getAll_compressed] at hcoding
          exact hne (hplain.symm.trans hcoding)
  | some empty =>
      have hlines := hasOnly_compressed_length
        { status := status, headers := headers, body := full [] } empty
      cases hget : codedBody crates offered minLength body with
      | none =>
          -- only the empty body is compressed
          refine iff_of_false ?_ (by simp)
          intro h
          have hcoding := (h hlines.ne_nil).2.2
          rw [getAll_compressed] at hcoding
          exact hne (hplain'.symm.trans hcoding.symm)
      | some bytes =>
          -- both are compressed, and `HEAD` announces the length of the compressed empty body
          rw [Option.map_some, Option.map_some, Option.some.injEq]
          constructor
          · intro h
            exact (hasOnly_toString hlines).1 (h hlines.ne_nil).1
          · intro heq _
            refine ⟨(hasOnly_toString hlines).2 heq, rfl, ?_⟩
            rw [getAll_compressed, getAll_compressed]

end

/-- A response that has a length has one after the compression. -/
theorem length_maybeCompress (crates : Crates) (response : Response)
    (hlength : response.headers.getAll "content-length" ≠ []) (hwhole : response.body.failed = false)
    (reqHeaders : HeaderMap) (gzipEnabled : Bool) (gzipTypes : List String)
    (maxCollect : Option Nat) (minLength : Nat) :
    (maybeCompress crates response reqHeaders gzipEnabled gzipTypes maxCollect
      minLength).headers.getAll "content-length" ≠ [] := by
  cases h : compresses crates response reqHeaders gzipEnabled gzipTypes maxCollect minLength with
  | false =>
      rw [maybeCompress_of_not_compresses crates minLength h hwhole]
      exact hlength
  | true =>
      obtain ⟨bytes, -, hout⟩ := maybeCompress_of_compresses crates minLength h
      rw [hout]
      exact (hasOnly_compressed_length response bytes).ne_nil

/-- A response of another status goes out as it came. -/
theorem maybeCompress_of_status (crates : Crates) (response : Response)
    (h : statusEligible response.status = false) (reqHeaders : HeaderMap) (gzipEnabled : Bool)
    (gzipTypes : List String) (maxCollect : Option Nat) (minLength : Nat) :
    maybeCompress crates response reqHeaders gzipEnabled gzipTypes maxCollect minLength =
      response := by
  apply maybeCompress_of_not_alters
  simp [altersBody, h]

/-! ## Files -/

/-- Whenever the environment is asked about the file at the path, it gives the same answers. A file
may be found and yet not be readable. -/
structure Settled {σ : Type} (answer : σ → (q : Access) → q.Answer × σ) (path : String)
    (md : Metadata) (contents : Except IoError Bytes) : Prop where
  stat : ∀ s, (answer s (.stat path)).1 = .ok md
  len : ∀ content, contents = .ok content → md.len.toNat = content.length
  read : ∀ s, (answer s (.read path)).1 = contents
  readRange : ∀ s start length, start + length ≤ md.len.toNat →
    (answer s (.readRange path start length)).1 =
      contents.map fun content => (content.drop start).take length

/-- What `serve` answers for a file that does not change. -/
def fileAnswer (path : String) (md : Metadata) (contents : Except IoError Bytes)
    (headers : HeaderMap) (method : Method) : Response :=
  match selection md headers with
  | .notModified et => notModified et md.mtimeSecs
  | .part start stop =>
      rangeAnswer path md start stop
        (readFor (method == .head) (contents.map fun content => slice content start stop))
  | .unsatisfiable => unsatisfiable md.len.toNat
  | .whole => wholeAnswer path md (method == .head) (readFor (method == .head) contents)

theorem run_serve_settled {σ : Type} {answer : σ → (q : Access) → q.Answer × σ} {root : String}
    {kind : StaticKind} {reqPath path : String} {md : Metadata} {contents : Except IoError Bytes}
    (hfile : Settled answer path md contents) (hpath : Resolves answer root kind reqPath md path)
    (headers : HeaderMap) (method : Method) (autoindex : Bool) (s : σ) :
    ((serve root kind reqPath headers method autoindex).run answer s).1 =
      fileAnswer path md contents headers method := by
  obtain ⟨s', hs'⟩ := run_serve hfile.stat hpath headers method autoindex s
  rw [hs', serveFile_eq, fileAnswer]
  cases hselection : selection md headers with
  | notModified et => rfl
  | unsatisfiable => rfl
  | whole =>
      simp only [run_serveWhole]
      rw [hfile.read]
  | part start stop =>
      obtain ⟨hle, hstop⟩ := selection_part_bounds hselection
      simp only [run_serveRange]
      rw [hfile.readRange s' start (stop - start + 1) (by omega)]
      simp only [slice_eq_take_drop hle]

/-- The request gets no length, or the file can be read and what `GET` gets of it is compressed, or
not, as an empty body is. -/
def AlikeForHead (crates : Crates) (gzipEnabled : Bool) (gzipTypes : List String) (minLength : Nat)
    (path : String) (md : Metadata) (contents : Except IoError Bytes) (reqHeaders : HeaderMap) :
    Prop :=
  let offered := gzipEnabled && clientAcceptsGzip reqHeaders &&
    contentTypeEligible (withHeader ∅ HeaderName.contentType (mimeFor path)) gzipTypes
  let alike (body : Bytes) : Prop :=
    (codedBody crates offered minLength []).map List.length =
      (codedBody crates offered minLength body).map List.length
  match selection md reqHeaders with
  | .notModified _ => True
  | .part start stop => ∃ content, contents = .ok content ∧ alike (slice content start stop)
  | .unsatisfiable => True
  | .whole => ∃ content, contents = .ok content ∧ alike content

/-- The lines that the compression and the agreement look at. -/
def bodyLines : List String := ["content-encoding", "content-length", "content-type"]

theorem contentTypeEligible_congr {h h' : HeaderMap}
    (hsame : h.getAll "content-type" = h'.getAll "content-type") (types : List String) :
    contentTypeEligible h types = contentTypeEligible h' types := by
  rw [contentTypeEligible, contentTypeEligible, HeaderMap.get, HeaderMap.get, hsame]

section

variable (crates : Crates) {headDress getDress : HeaderMap → HeaderMap}
  (hhead : ∀ name ∈ bodyLines, ∀ h, (headDress h).getAll name = h.getAll name)
  (hget : ∀ name ∈ bodyLines, ∀ h, (getDress h).getAll name = h.getAll name)
  (reqHeaders : HeaderMap) (gzipEnabled : Bool) (gzipTypes : List String) (minLength : Nat)

include hhead

/-- What has no length and is not compressed agrees with anything. -/
theorem headAgrees_of_status {response : Response} (hstatus : statusEligible response.status = false)
    (hnone : response.headers.getAll "content-length" = []) (get : Response) :
    HeadAgrees
      (maybeCompress crates { response with headers := headDress response.headers } reqHeaders
        gzipEnabled gzipTypes none minLength) get := by
  apply headAgrees_of_no_length
  rw [maybeCompress_of_status crates { response with headers := headDress response.headers } hstatus]
  exact (hhead "content-length" (by simp [bodyLines]) response.headers).trans hnone

/-- What has a length does not agree with a response of another status. -/
theorem not_headAgrees_of_length {response : Response} (hwhole : response.body.failed = false)
    (hlength : response.headers.getAll "content-length" ≠ []) {get : Response}
    (hstatus : response.status ≠ get.status) :
    ¬ HeadAgrees
      (maybeCompress crates { response with headers := headDress response.headers } reqHeaders
        gzipEnabled gzipTypes none minLength)
      (maybeCompress crates { get with headers := getDress get.headers } reqHeaders gzipEnabled
        gzipTypes none minLength) := by
  have hkept : (headDress response.headers).getAll "content-length" ≠ [] := by
    rw [hhead "content-length" (by simp [bodyLines])]
    exact hlength
  have hlines := length_maybeCompress crates
    { response with headers := headDress response.headers } hkept hwhole reqHeaders gzipEnabled
    gzipTypes none minLength
  apply not_headAgrees_of_status hlines
  rw [status_maybeCompress, status_maybeCompress]
  exact hstatus

include hget

/-- A success for a file whose type is the one of the path. -/
theorem headAgrees_success_iff (status : Nat) (hstatus : statusEligible status = true)
    {path : String} {h h' : HeaderMap} {body : Bytes}
    (hlines : ∀ name ∈ ["content-encoding", "content-type"],
      h.getAll name = (withHeader ∅ HeaderName.contentType (mimeFor path)).getAll name ∧
        h'.getAll name = (withHeader ∅ HeaderName.contentType (mimeFor path)).getAll name)
    (hlength : HasOnly h "content-length" (toString body.length)) :
    let offered := gzipEnabled && clientAcceptsGzip reqHeaders &&
      contentTypeEligible (withHeader ∅ HeaderName.contentType (mimeFor path)) gzipTypes
    HeadAgrees
        (maybeCompress crates { status := status, headers := headDress h, body := full [] }
          reqHeaders gzipEnabled gzipTypes none minLength)
        (maybeCompress crates { status := status, headers := getDress h', body := full body }
          reqHeaders gzipEnabled gzipTypes none minLength) ↔
      (codedBody crates offered minLength []).map List.length =
        (codedBody crates offered minLength body).map List.length := by
  have hnone : (withHeader ∅ HeaderName.contentType (mimeFor path)).getAll "content-encoding" =
      [] := by
    rw [getAll_withHeader_of_ne _ _ (by decide)]
    rfl
  have hcoding := hlines "content-encoding" (by simp)
  have htype := hlines "content-type" (by simp)
  have hheadType := (hhead "content-type" (by simp [bodyLines]) h).trans htype.1
  have hgetType := (hget "content-type" (by simp [bodyLines]) h').trans htype.2
  have hlength' : HasOnly (headDress h) "content-length" (toString body.length) := by
    rw [HasOnly, hhead "content-length" (by simp [bodyLines])]
    exact hlength
  have hmain := headAgrees_maybeCompress_iff crates reqHeaders gzipEnabled minLength hstatus
    ((hhead "content-encoding" (by simp [bodyLines]) h).trans (hcoding.1.trans hnone))
    ((hget "content-encoding" (by simp [bodyLines]) h').trans (hcoding.2.trans hnone))
    (contentTypeEligible_congr (hheadType.trans hgetType.symm) gzipTypes) hlength'
  rw [contentTypeEligible_congr hgetType gzipTypes] at hmain
  exact hmain

/-- What goes out for a file that does not change agrees exactly if it is alike for `HEAD`. -/
theorem headAgrees_fileAnswer_iff {path : String} {md : Metadata} {contents : Except IoError Bytes}
    (hlen : ∀ content, contents = .ok content → md.len.toNat = content.length) :
    let head := fileAnswer path md contents reqHeaders .head
    let get := fileAnswer path md contents reqHeaders .get
    HeadAgrees
        (maybeCompress crates { head with headers := headDress head.headers } reqHeaders gzipEnabled
          gzipTypes none minLength)
        (maybeCompress crates { get with headers := getDress get.headers } reqHeaders gzipEnabled
          gzipTypes none minLength) ↔
      AlikeForHead crates gzipEnabled gzipTypes minLength path md contents reqHeaders := by
  have hlower : ∀ name ∈ ["content-encoding", "content-type"], Text.toAsciiLowercase name ∉
      ["content-length", "accept-ranges", "content-range", "etag", "last-modified"] := by
    intro name hname
    simp only [List.mem_cons, List.not_mem_nil, or_false] at hname
    rcases hname with rfl | rfl <;> decide
  simp only [AlikeForHead]
  cases hselection : selection md reqHeaders with
  | notModified et =>
      simp only [fileAnswer, hselection]
      exact iff_of_true (headAgrees_of_status crates hhead reqHeaders gzipEnabled gzipTypes minLength
        rfl (length_notModified et md.mtimeSecs) _) trivial
  | unsatisfiable =>
      simp only [fileAnswer, hselection]
      exact iff_of_true (headAgrees_of_status crates hhead reqHeaders gzipEnabled gzipTypes minLength
        rfl (length_unsatisfiable md.len.toNat) _) trivial
  | part start stop =>
      have hlength := hasOnly_rangeHeaders_length path md (etagOf md) start stop
      obtain ⟨hle, hstop⟩ := selection_part_bounds hselection
      simp only [fileAnswer, hselection]
      cases contents with
      | error e =>
          -- `HEAD` is answered without reading the file
          refine iff_of_false ?_ (by simp)
          exact not_headAgrees_of_length crates hhead reqHeaders gzipEnabled gzipTypes minLength rfl
            hlength.ne_nil (show (206 : Nat) ≠ 500 by decide)
      | ok content =>
          have hsize : (slice content start stop).length = stop - start + 1 := by
            rw [hlen content rfl] at hstop
            rw [length_slice hstop]
            omega
          rw [← hsize] at hlength
          simp only [Except.ok.injEq, exists_eq_left']
          refine headAgrees_success_iff crates hhead hget reqHeaders gzipEnabled gzipTypes minLength
            206 rfl ?_ hlength
          intro name hname
          exact ⟨getAll_rangeHeaders path md (etagOf md) start stop (hlower name hname),
            getAll_rangeHeaders path md (etagOf md) start stop (hlower name hname)⟩
  | whole =>
      have hlength := hasOnly_wholeHeaders_length path md (etagOf md)
      simp only [fileAnswer, hselection]
      cases contents with
      | error e =>
          refine iff_of_false ?_ (by simp)
          cases e with
          | notFound =>
              exact not_headAgrees_of_length crates hhead reqHeaders gzipEnabled gzipTypes minLength
                rfl hlength.ne_nil (show (200 : Nat) ≠ 404 by decide)
          | other =>
              exact not_headAgrees_of_length crates hhead reqHeaders gzipEnabled gzipTypes minLength
                rfl hlength.ne_nil (show (200 : Nat) ≠ 403 by decide)
      | ok content =>
          rw [hlen content rfl] at hlength
          simp only [Except.ok.injEq, exists_eq_left']
          refine headAgrees_success_iff crates hhead hget reqHeaders gzipEnabled gzipTypes minLength
            200 rfl ?_ hlength
          intro name hname
          exact ⟨getAll_wholeHeaders path md (etagOf md) true (hlower name hname),
            getAll_wholeHeaders path md (etagOf md) false (hlower name hname)⟩

end

/-- **Responses to `HEAD`.** For every file that does not change, all request headers and every
setting of gzip, in a location that does not itself add the lines in question: if both requests are
answered from the file, what `handle` sends to `HEAD` agrees with what it sends to `GET` exactly if
the file and the request are alike for `HEAD`. -/
theorem head_agrees_iff (crates : Crates) {replyHead replyGet : (q : Effect) → q.Answer} {σ : Type}
    {answer : σ → (q : Access) → q.Answer × σ} {state : ServerState} {request : Request}
    {peer : SocketAddr} {loc : LocationRt} {root reqPath : String} {kind : StaticKind}
    {autoindex : Bool}
    (hfilesHead : AnswersFrom replyHead answer state { request with method := .head } peer loc root
      kind reqPath autoindex)
    (hfilesGet : AnswersFrom replyGet answer state { request with method := .get } peer loc root
      kind reqPath autoindex)
    (hadd : ∀ name ∈ bodyLines, AddsNo loc name)
    (hreachHead : Reaches replyHead crates state { request with method := .head } peer loc)
    (hreachGet : Reaches replyGet crates state { request with method := .get } peer loc)
    {path : String} {md : Metadata} {contents : Except IoError Bytes}
    (hfile : Settled answer path md contents)
    (hpath : Resolves answer root kind reqPath md path) :
    HeadAgrees ((handle crates state { request with method := .head } peer).value replyHead)
        ((handle crates state { request with method := .get } peer).value replyGet) ↔
      AlikeForHead crates (loc.gzip.getD state.gzip) state.gzipTypes state.gzipMinLength path md
        contents request.headers := by
  obtain ⟨s, hhead⟩ := value_handle_files replyHead crates hfilesHead hreachHead
  obtain ⟨s', hget⟩ := value_handle_files replyGet crates hfilesGet hreachGet
  simp only [run_serve_settled hfile hpath] at hhead hget
  -- none of these lines is written for every location
  have hkept : ∀ name ∈ bodyLines, Text.toAsciiLowercase name = name ∧
      name ∉ ["alt-svc", "cache-control", "expires"] := by
    intro name hname
    simp only [bodyLines, List.mem_cons, List.not_mem_nil, or_false] at hname
    rcases hname with rfl | rfl | rfl <;> decide
  have hdressed : ∀ (reply : (q : Effect) → q.Answer) (ctx : RequestCtx), ∀ name ∈ bodyLines, ∀ h,
      (dressed reply state loc ctx h).getAll name = h.getAll name := by
    intro reply ctx name hname h
    exact getAll_dressed reply state (hadd name hname) (hkept name hname).1 (hkept name hname).2 ctx h
  rw [hhead, hget]
  exact headAgrees_fileAnswer_iff crates (hdressed replyHead _) (hdressed replyGet _)
    request.headers _ state.gzipTypes state.gzipMinLength hfile.len

theorem noteFiles_settled (path : String) :
    Settled noteFiles path noteMetadata (.ok (Text.utf8Bytes longText)) where
  stat _ := rfl
  len content h := by
    rw [← Except.ok.inj h]
    decide
  read _ := rfl
  readRange _ _ _ _ := rfl

/-- Without compression, `HEAD` announces the length of the text. -/
theorem head_agrees_iff_plain_note :
    HeadAgrees (sentNote (noteRequest .head ∅)) (sentNote (noteRequest .get ∅)) := by
  have hlines : (∅ : HeaderMap).getAll "content-length" = [] := rfl
  have hpath : Resolves noteFiles "notes" .root "/note.txt" noteMetadata
      (Path.join "notes" (relativePath .root "/note.txt")) := .file (by decide +kernel) rfl
  have hadd : ∀ name ∈ bodyLines, AddsNo notesLocation name :=
    fun _ _ _ hrule => absurd hrule List.not_mem_nil
  have hanswers : ∀ method, AnswersFrom noteReply noteFiles notesState
      { noteRequest .get ∅ with method := method } clientPeer notesLocation "notes" .root
      "/note.txt" notesLocation.autoindex :=
    fun method => .files rfl ⟨(), rfl⟩
  have hreachHead : Reaches noteReply fixedCrates notesState
      { noteRequest .get ∅ with method := .head } clientPeer notesLocation :=
    noteRequest_reaches .head hlines
  have hreachGet : Reaches noteReply fixedCrates notesState
      { noteRequest .get ∅ with method := .get } clientPeer notesLocation :=
    noteRequest_reaches .get hlines
  have hiff := head_agrees_iff fixedCrates (hanswers .head) (hanswers .get) hadd hreachHead hreachGet
    (noteFiles_settled _) hpath
  have hselection : selection noteMetadata (noteRequest .get ∅).headers = .whole := rfl
  have hrefused : clientAcceptsGzip (noteRequest .get ∅).headers = false := rfl
  refine hiff.2 ?_
  simp only [AlikeForHead, hselection, hrefused, Bool.and_false, Bool.false_and]
  exact ⟨Text.utf8Bytes longText, rfl, rfl⟩

/-- With compression, `HEAD` announces the length of the text and no coding, and `GET` gets gzip. -/
theorem head_announces_plain_length :
    ¬ HeadAgrees (sentNote (noteRequest .head gzipHeaders))
      (sentNote (noteRequest .get gzipHeaders)) := by
  intro h
  have hcoding := (h (by decide +kernel)).2.2
  revert hcoding
  decide +kernel

end Elrond.Server
