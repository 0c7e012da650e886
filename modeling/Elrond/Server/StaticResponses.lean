import Elrond.Server.Compression
import Elrond.Static.Ranges

/-!
# Static responses after compression

What becomes of a response of `serve` in `handle`. The headers of the location are added, and then
`maybe_compress` looks at the response as at any other: it compresses a part of a file as if it were
the whole (`partial_content`), and it looks at the empty body of a response to `HEAD` instead of the
one that `GET` would get (`head_agrees_iff`).
-/

set_option autoImplicit false

namespace Elrond.Server

open Elrond.Lib Elrond.Http Elrond.Request Elrond.Config Elrond.Upstream Elrond.Proxy Elrond.Limit
  Elrond.App Elrond.Static

/-! ## From the request to the action -/

section

variable (reply : (q : Effect) → q.Answer) (crates : Crates)

/-- The request comes to the location and passes its gates. -/
def Reaches (state : ServerState) (request : Request) (peer : SocketAddr) (loc : LocationRt) :
    Prop :=
  ∃ call response,
    (handleVerdict crates state request peer).value reply = .served loc call response

/-- What is served under the limits of a location is served by what runs inside them. -/
theorem value_gated_served {loc served : LocationRt} {ctx : RequestCtx} {peer : SocketAddr}
    {inside : Pipeline Verdict} {call : ActionCall} {response : Response}
    (h : (gated loc ctx peer inside).value reply = .served served call response) :
    inside.value reply = .served served call response := by
  rw [gated] at h
  split at h
  · cases h
  -- every gate that does not deny leaves the verdict to what comes after it
  · rw [Asks.value_bind] at h
    cases hreq : (limitReqStep loc ctx).value reply with
    | some denied =>
        rw [hreq] at h
        cases h
    | none =>
        rw [hreq] at h
        simp only [underSlot] at h
        rw [Asks.value_bind] at h
        cases hconn : (limitConnStep loc ctx).value reply with
        | error denied =>
            rw [hconn] at h
            cases h
        | ok slot =>
            rw [hconn] at h
            -- the slot is released afterwards, which changes nothing about the verdict
            simp only [holding, Asks.value_bind] at h
            exact h

/-- What a location serves is the response of its action. -/
theorem value_location_served {loc served : LocationRt} {ctx : RequestCtx} {peer : SocketAddr}
    {request : Request} {inside : Pipeline Verdict} {call : ActionCall} {response : Response}
    (hinside : inside.value reply = heldVerdict reply crates loc ctx peer request)
    (h : (gated loc ctx peer inside).value reply = .served served call response) :
    loc = served ∧ call = actionCall served ctx peer request ∧
      response = (perform (actionCall served ctx peer request)).value reply := by
  have hheld := value_gated_served reply h
  rw [hinside, heldVerdict] at hheld
  cases hauth : authDenial reply crates loc ctx request.headers with
  | some denial =>
      rw [hauth] at hheld
      cases hheld
  | none =>
      rw [hauth] at hheld
      obtain ⟨rfl, rfl, rfl⟩ := Verdict.served.inj hheld
      exact ⟨rfl, rfl, rfl⟩

/-- What is served is the response of the action of the location the path is routed to. -/
theorem handleVerdict_served {state : ServerState} {request : Request} {peer : SocketAddr}
    {loc : LocationRt} {call : ActionCall} {response : Response}
    (h : (handleVerdict crates state request peer).value reply = .served loc call response) :
    let ctx := requestContext state peer request.method request.uri request.headers
    route state request.uri.path = some loc ∧ call = actionCall loc ctx peer request ∧
      response = (perform (actionCall loc ctx peer request)).value reply := by
  intro ctx
  simp only [handleVerdict] at h
  split at h
  · cases h
  · cases hroute : route state request.uri.path with
    | none =>
        rw [hroute] at h
        cases h
    | some found =>
        rw [hroute] at h
        simp only [handleLocation_eq] at h
        obtain ⟨rfl, hcall, hresponse⟩ := value_location_served reply crates (by
          rw [handleHeld_eq, Asks.value_bind, value_authorized, value_serveLocation,
            heldVerdict]) h
        exact ⟨rfl, hcall, hresponse⟩

/-- And so it is for HTTP/3, where the request for an upstream is built anew. -/
theorem dispatchVerdict_served {state : ServerState} {method : Method} {uri : Uri}
    {headers : HeaderMap} {bodyBytes : Bytes} {peer : SocketAddr} {loc : LocationRt}
    {call : ActionCall} {response : Response}
    (h : (dispatchVerdict crates state method uri headers bodyBytes peer).value reply =
      .served loc call response) :
    route state uri.path = some loc ∧
      call = actionCall loc (requestContext state peer method uri headers) peer
        ⟨method, uri, .http11, headers, full bodyBytes⟩ := by
  simp only [dispatchVerdict] at h
  cases hroute : route state uri.path with
  | none =>
      rw [hroute] at h
      cases h
  | some found =>
      rw [hroute] at h
      simp only [dispatchLocation_eq] at h
      obtain ⟨rfl, hcall, -⟩ := value_location_served reply crates (by
        rw [dispatchHeld_eq, value_authorized, Asks.value_bind, value_serveLocation,
          heldVerdict]) h
      exact ⟨rfl, hcall⟩

/-- The location answers the request by a run of `serve` with the given directory, kind and path: a
location with files does, and so does one with `try_files` whose loop stops at a path. -/
inductive AnswersFrom {σ : Type} (answer : σ → (q : Access) → q.Answer × σ) (state : ServerState)
    (request : Request) (peer : SocketAddr) (loc : LocationRt) :
    (root : String) → StaticKind → (path : String) → (autoindex : Bool) → Prop
  | files {root : String} {kind : StaticKind} (haction : loc.action = .files root kind)
      (hreply : ∃ s, (reply (.serve root kind request.uri.path request.headers request.method
          loc.autoindex) : Response) =
        ((serve root kind request.uri.path request.headers request.method loc.autoindex).run
          answer s).1) :
      AnswersFrom answer state request peer loc root kind request.uri.path loc.autoindex
  | tried {root rendered : String} {entries : List TryFilesEntry}
      (haction : loc.action = .tryFiles root entries)
      (hreply :
        let ctx := requestContext state peer request.method request.uri request.headers
        ∃ s, (reply (.tryFiles root entries ctx request.headers request.method) : Response) =
            ((tryFiles root entries ctx request.headers request.method).run answer s).1 ∧
          ((tryEntries root ctx entries).run answer s).1 = .file rendered) :
      AnswersFrom answer state request peer loc root .root rendered false

/-- A run of `try_files` whose loop stops at a path answers by a run of `serve`. -/
theorem run_tryFiles_of_file {σ : Type} {answer : σ → (q : Access) → q.Answer × σ}
    {root rendered : String} {entries : List TryFilesEntry} {ctx : RequestCtx} {s : σ}
    (h : ((tryEntries root ctx entries).run answer s).1 = .file rendered) (headers : HeaderMap)
    (method : Method) :
    ∃ s', ((tryFiles root entries ctx headers method).run answer s).1 =
      ((serve root .root rendered headers method false).run answer s').1 := by
  have hloop : tryFiles root entries ctx headers method =
      tryFilesLoop root ctx headers method entries := by
    cases entries with
    | nil => cases h
    | cons entry rest => rfl
  refine ⟨((tryEntries root ctx entries).run answer s).2, ?_⟩
  rw [hloop, tryFilesLoop_eq, Asks.run_bind, h, answerTried]

/-- For a request that a location answers from files, `handle` sends the answer of `serve`, with the
headers of the location and perhaps compressed. No length is too large to be collected. -/
theorem value_handle_files {σ : Type} {answer : σ → (q : Access) → q.Answer × σ}
    {state : ServerState} {request : Request} {peer : SocketAddr} {loc : LocationRt}
    {root path : String} {kind : StaticKind} {autoindex : Bool}
    (hanswers : AnswersFrom reply answer state request peer loc root kind path autoindex)
    (hreach : Reaches reply crates state request peer loc) :
    let ctx := requestContext state peer request.method request.uri request.headers
    ∃ s,
      let response := ((serve root kind path request.headers request.method autoindex).run
        answer s).1
      (handle crates state request peer).value reply =
        maybeCompress crates
          { response with headers := dressed reply state loc ctx response.headers } request.headers
          (loc.gzip.getD state.gzip) state.gzipTypes none state.gzipMinLength := by
  intro ctx
  obtain ⟨call, served, hverdict⟩ := hreach
  obtain ⟨-, -, hserved⟩ := handleVerdict_served reply crates hverdict
  -- whichever the action is, its response is that of a run of `serve`
  obtain ⟨hcap, s, hresponse⟩ : maxCollectOf loc = none ∧ ∃ s, served =
      ((serve root kind path request.headers request.method autoindex).run answer s).1 := by
    cases hanswers with
    | files haction hreply =>
        obtain ⟨s, hs⟩ := hreply
        refine ⟨by rw [maxCollectOf, haction], s, ?_⟩
        rw [hserved, actionCall, haction, ← hs]
        rfl
    | tried haction hreply =>
        obtain ⟨s, hs, hentry⟩ := hreply
        obtain ⟨s', hs'⟩ := run_tryFiles_of_file hentry request.headers request.method
        refine ⟨by rw [maxCollectOf, haction], s', ?_⟩
        rw [hserved, actionCall, haction, ← hs', ← hs]
        rfl
  refine ⟨s, ?_⟩
  rw [handle, Asks.value_bind, hverdict, value_finishHandle_eq, hresponse, hcap]

end

/-! ## Lines that the location leaves alone -/

/-- No `add_header` of the location writes a line of the name. -/
def AddsNo (loc : LocationRt) (name : String) : Prop := ∀ rule ∈ loc.addHeaders, rule.1.text ≠ name

theorem getAll_applyAddHeaders {rules : List (HeaderName × Template)} {name : String}
    (hrules : ∀ rule ∈ rules, rule.1.text ≠ name) (hname : Text.toAsciiLowercase name = name)
    (ctx : RequestCtx) (h : HeaderMap) :
    (applyAddHeaders h rules ctx).getAll name = h.getAll name := by
  induction rules generalizing h with
  | nil => rfl
  | cons rule rest ih =>
      have hother : Text.toAsciiLowercase name ≠ rule.1.text := by
        rw [hname]
        exact (hrules rule List.mem_cons_self).symm
      calc (applyAddHeaders h (rule :: rest) ctx).getAll name
          = (applyAddHeaders (insertText h rule.1 (rule.2.render ctx)) rest ctx).getAll name := rfl
        _ = (insertText h rule.1 (rule.2.render ctx)).getAll name :=
            ih (fun r hr => hrules r (List.mem_cons_of_mem rule hr)) _
        _ = h.getAll name := getAll_insertText h rule.1 _ hother

/-- The headers of the location leave the lines of a name alone that it does not write itself. -/
theorem getAll_dressed (reply : (q : Effect) → q.Answer) (state : ServerState) {loc : LocationRt}
    {name : String} (hadd : AddsNo loc name) (hlower : Text.toAsciiLowercase name = name)
    (hown : name ∉ ["alt-svc", "cache-control", "expires"]) (ctx : RequestCtx) (h : HeaderMap) :
    (dressed reply state loc ctx h).getAll name = h.getAll name := by
  simp only [List.mem_cons, List.not_mem_nil, or_false, not_or] at hown
  obtain ⟨hsvc, hcontrol, hexpires⟩ := hown
  have hcontrol' : Text.toAsciiLowercase name ≠ cacheControl.text := by
    rw [hlower]
    exact hcontrol
  have hexpires' : Text.toAsciiLowercase name ≠ expiresName.text := by
    rw [hlower]
    exact hexpires
  -- first the advertisement of HTTP/3, then `add_header`, then `expires`
  have hadvertised : (advertise state h).getAll name = h.getAll name := by
    apply sameExcept_advertise state h
    rw [hlower]
    exact hsvc
  have hadded : (applyAddHeaders (advertise state h) loc.addHeaders ctx).getAll name =
      h.getAll name := (getAll_applyAddHeaders hadd hlower ctx _).trans hadvertised
  simp only [dressed, decoratedHeaders, decorate]
  cases loc.expires with
  | none => exact hadded
  | some dur =>
      show (applyExpires _ dur (reply .now)).getAll name = _
      simp only [applyExpires]
      cases reply .now with
      | none => exact (getAll_insertText _ _ _ hcontrol').trans hadded
      | some now =>
          exact ((getAll_insertText _ _ _ hexpires').trans
            (getAll_insertText _ _ _ hcontrol')).trans hadded

/-! ## Parts of files -/

/-- What goes out for a part of a file: the part, or if it is `coded` the compressed part, with the
position and the entity tag that `serve` gave it. -/
structure SendsPart (crates : Crates) (loc : LocationRt) (md : Metadata) (start stop : Nat)
    (payload : Bytes) (coded : Bool) (out : Response) : Prop where
  plain : coded = false → out.body = full payload ∧
    (AddsNo loc "content-encoding" → out.headers.getAll "content-encoding" = [])
  coded : coded = true → ∃ bytes, crates.gzip payload = some bytes ∧ out.body = full bytes ∧
    out.headers.getAll "content-encoding" = [gzipValue] ∧
    HasOnly out.headers "content-length" (toString bytes.length)
  range : AddsNo loc "content-range" →
    HasOnly out.headers "content-range" (rangeText start stop md.len.toNat)
  etag : AddsNo loc "etag" → ∀ et, etagOf md = some et → HasOnly out.headers "etag" et

/-- A part of a file in the compression, with the headers that the location has given it. -/
theorem sendsPart_maybeCompress (crates : Crates) {loc : LocationRt} {path : String} {md : Metadata}
    {start stop : Nat} (payload : Bytes) {headers : HeaderMap}
    (hkept : ∀ name ∈ ["content-encoding", "content-range", "etag"], AddsNo loc name →
      headers.getAll name = (rangeHeaders path md (etagOf md) start stop).getAll name)
    (reqHeaders : HeaderMap) (gzipEnabled : Bool) (gzipTypes : List String)
    (maxCollect : Option Nat) (minLength : Nat) :
    let before : Response := { status := 206, headers := headers, body := full payload }
    SendsPart crates loc md start stop payload
      (compresses crates before reqHeaders gzipEnabled gzipTypes maxCollect minLength)
      (maybeCompress crates before reqHeaders gzipEnabled gzipTypes maxCollect minLength) := by
  intro before
  have hcoding : (rangeHeaders path md (etagOf md) start stop).getAll "content-encoding" = [] := by
    rw [getAll_rangeHeaders path md (etagOf md) start stop (by decide),
      getAll_withHeader_of_ne _ _ (by decide)]
    rfl
  have hrange : AddsNo loc "content-range" →
      HasOnly headers "content-range" (rangeText start stop md.len.toNat) := by
    intro hadd
    rw [HasOnly, hkept "content-range" (by simp) hadd]
    exact hasOnly_rangeHeaders_range path md (etagOf md) start stop
  have hetag : AddsNo loc "etag" → ∀ et, etagOf md = some et → HasOnly headers "etag" et := by
    intro hadd et het
    rw [HasOnly, hkept "etag" (by simp) hadd]
    exact hasOnly_rangeHeaders_etag path het start stop
  cases hyes : compresses crates before reqHeaders gzipEnabled gzipTypes maxCollect minLength with
  | false =>
      have hout : maybeCompress crates before reqHeaders gzipEnabled gzipTypes maxCollect minLength =
          before := maybeCompress_of_not_compresses crates minLength hyes rfl
      rw [hout]
      refine ⟨fun _ => ⟨rfl, ?_⟩, fun h => Bool.noConfusion h, hrange, hetag⟩
      intro hadd
      exact (hkept "content-encoding" (by simp) hadd).trans hcoding
  | true =>
      obtain ⟨bytes, hgzip, hout⟩ := maybeCompress_of_compresses crates minLength hyes
      rw [hout]
      -- the compression writes none of the other two lines
      have hother : ∀ name ∈ ["content-range", "etag"],
          (compressed before bytes).headers.getAll name = headers.getAll name := by
        intro name hname
        have hlower : Text.toAsciiLowercase name = name ∧ name ≠ "content-encoding" ∧
            name ≠ "content-length" ∧ name ≠ "vary" := by
          simp only [List.mem_cons, List.not_mem_nil, or_false] at hname
          rcases hname with rfl | rfl <;> decide
        rw [getAll_compressed_of_ne]
        · rw [hlower.1]
          exact hlower.2.1
        · rw [hlower.1]
          exact hlower.2.2.1
        · rw [hlower.1]
          exact hlower.2.2.2
      constructor
      · exact fun h => Bool.noConfusion h
      · intro _
        exact ⟨bytes, hgzip, rfl, getAll_compressed before bytes,
          hasOnly_compressed_length before bytes⟩
      · intro hadd
        rw [HasOnly, hother "content-range" (by simp)]
        exact hrange hadd
      · intro hadd et het
        rw [HasOnly, hother "etag" (by simp)]
        exact hetag hadd et het

section

variable {σ : Type} {answer : σ → (q : Access) → q.Answer × σ}

/-- A part that an unchanged file is read for has the bytes of the part. -/
theorem payload_of_unchanged {path : String} {md : Metadata} {content payload : Bytes}
    (hfile : Unchanged answer path md content) {start stop : Nat} (hle : start ≤ stop)
    (hstop : stop < md.len.toNat)
    (hread : ∃ s, (answer s (.readRange path start (stop - start + 1))).1 = .ok payload) :
    payload = slice content start stop ∧ payload.length = stop - start + 1 := by
  obtain ⟨s, hs⟩ := hread
  rw [hfile.len] at hstop
  have hbytes := hfile.readRange s start (stop - start + 1) (by omega)
  have hpayload : payload = slice content start stop := by
    rw [slice_eq_take_drop hle]
    exact Except.ok.inj (hs.symm.trans hbytes)
  refine ⟨hpayload, ?_⟩
  rw [hpayload, length_slice hstop]
  omega

/-- **Partial content.** A 206 that leaves `handle` for a location that answers from files is made
from a range of a file that `serve` has found. Its payload is what the file gave for the range, and
of a file that does not change the bytes of the range; to `HEAD` it is empty. It goes out under the
position and the entity tag of the range as it is, or compressed if every condition of
`maybe_compress` is met. -/
theorem partial_content (reply : (q : Effect) → q.Answer) (crates : Crates) {state : ServerState}
    {request : Request} {peer : SocketAddr} {loc : LocationRt} {root reqPath : String}
    {kind : StaticKind} {autoindex : Bool}
    (hanswers : AnswersFrom reply answer state request peer loc root kind reqPath autoindex)
    (hreach : Reaches reply crates state request peer loc)
    (hstatus : ((handle crates state request peer).value reply).status = 206) :
    ∃ path md start stop payload,
      path ∈ [Path.join root (relativePath kind reqPath),
        Path.join (Path.join root (relativePath kind reqPath)) "index.html"] ∧
      (∃ s, (answer s (.stat path)).1 = .ok md) ∧
      (start ≤ stop ∧ stop < md.len.toNat) ∧
      (request.method = .head → payload = []) ∧
      (request.method ≠ .head →
        (∃ s, (answer s (.readRange path start (stop - start + 1))).1 = .ok payload) ∧
        ∀ content, Unchanged answer path md content →
          payload = slice content start stop ∧ payload.length = stop - start + 1) ∧
      let ctx := requestContext state peer request.method request.uri request.headers
      let before : Response :=
        { status := 206
          headers := dressed reply state loc ctx (rangeHeaders path md (etagOf md) start stop)
          body := full payload }
      SendsPart crates loc md start stop payload
        (compresses crates before request.headers (loc.gzip.getD state.gzip) state.gzipTypes none
          state.gzipMinLength)
        ((handle crates state request peer).value reply) := by
  obtain ⟨s, hout⟩ := value_handle_files reply crates hanswers hreach
  -- compression keeps the status, so `serve` has given it
  rw [hout, status_maybeCompress] at hstatus
  obtain ⟨path, md, s₁, s₂, hpath, hstat, hfound⟩ := run_serve_of_partial hstatus
  simp only [hfound] at hstatus hout
  obtain ⟨start, stop, payload, hselection, hhead, hread, hrun⟩ := run_serveFile_of_partial hstatus
  simp only [hrun] at hout
  have hbounds := selection_part_bounds hselection
  refine ⟨path, md, start, stop, payload, hpath, ⟨s₁, hstat⟩, hbounds, hhead, ?_, ?_⟩
  · intro hne
    have hpayload : ∃ s, (answer s (.readRange path start (stop - start + 1))).1 = .ok payload :=
      ⟨s₂, hread hne⟩
    exact ⟨hpayload, fun content hfile => payload_of_unchanged hfile hbounds.1 hbounds.2 hpayload⟩
  · rw [hout]
    apply sendsPart_maybeCompress
    intro name hname hadd
    -- none of the three names is written for every location
    have hown : Text.toAsciiLowercase name = name ∧
        name ∉ ["alt-svc", "cache-control", "expires"] := by
      simp only [List.mem_cons, List.not_mem_nil, or_false] at hname
      rcases hname with rfl | rfl | rfl <;> decide
    exact getAll_dressed reply state hadd hown.1 hown.2 _ _

end

/-- The metadata of a file with the long text. -/
def noteMetadata : Metadata := ⟨false, true, 32, some 1⟩

/-- A file system where every path is that file. -/
def noteFiles : Unit → (q : Access) → q.Answer × Unit
  | _, .stat _ => (.ok noteMetadata, ())
  | _, .read _ => (.ok (Text.utf8Bytes longText), ())
  | _, .readRange _ start length => (.ok (((Text.utf8Bytes longText).drop start).take length), ())
  | _, .list _ => (.ok [], ())
  | _, .entryType _ _ => (.ok false, ())

theorem noteFiles_unchanged (path : String) :
    Unchanged noteFiles path noteMetadata (Text.utf8Bytes longText) where
  stat _ := rfl
  len := by decide
  read _ := rfl
  readRange _ _ _ _ := rfl

/-- Answers of a quiet world with that file system. -/
def noteReply : (q : Effect) → q.Answer
  | .serve root kind path headers method autoindex =>
      ((serve root kind path headers method autoindex).run noteFiles ()).1
  | .tryFiles root entries ctx headers method =>
      ((tryFiles root entries ctx headers method).run noteFiles ()).1
  | q => quietReply q

/-- A location with files. -/
def notesLocation : LocationRt := { openLocation with action := .files "notes" .root }

/-- A server that compresses, with that location. -/
def notesState : ServerState := { compressingState with prefixLocs := [notesLocation] }

/-- The `range` header name. -/
def rangeName : HeaderName := ⟨"range", by decide⟩

/-- A request for the file. -/
def noteRequest (method : Method) (headers : HeaderMap) : Request :=
  ⟨method, ⟨none, none, some "/note.txt"⟩, .http11, headers, full []⟩

/-- What goes out for the file. -/
def sentNote (request : Request) : Response :=
  (handle fixedCrates notesState request clientPeer).value noteReply

/-- Every request for the file that declares no length comes to the location. -/
theorem noteRequest_reaches (method : Method) {headers : HeaderMap}
    (h : headers.getAll "content-length" = []) :
    Reaches noteReply fixedCrates notesState (noteRequest method headers) clientPeer
      notesLocation := by
  have hlength : exceedsBodySize notesState (noteRequest method headers).headers = false := by
    rw [noteRequest, exceedsBodySize, declaredLength, HeaderMap.get, h]
    rfl
  have hverdict : handleVerdict fixedCrates notesState (noteRequest method headers) clientPeer =
      handleLocation fixedCrates notesLocation
        (requestContext notesState clientPeer method (noteRequest method headers).uri headers)
        clientPeer (noteRequest method headers) := by
    rw [handleVerdict, if_neg (Bool.eq_false_iff.1 hlength)]
    rfl
  rw [Reaches, hverdict]
  exact ⟨_, _, rfl⟩

/-- A location that tries the path of a request answers from the file as well. -/
example :
    AnswersFrom noteReply noteFiles notesState (noteRequest .get ∅) clientPeer
      { openLocation with action := .tryFiles "notes" [.path (Template.parse "$uri"), .status 404] }
      "notes" .root "/note.txt" false :=
  .tried rfl ⟨(), rfl, by decide +kernel⟩

/-- Six bytes of the text go out as they are. -/
theorem partial_content_first_bytes :
    ∃ start stop payload, payload.length = stop - start + 1 ∧
      (sentNote (noteRequest .get (withHeader ∅ rangeName "bytes=0-5"))).body = full payload := by
  have hreach : Reaches noteReply fixedCrates notesState
      (noteRequest .get (withHeader ∅ rangeName "bytes=0-5")) clientPeer notesLocation :=
    noteRequest_reaches .get (by decide)
  obtain ⟨path, md, start, stop, payload, -, ⟨s, hstat⟩, -, -, hread, hsends⟩ :=
    partial_content noteReply fixedCrates (.files rfl ⟨(), rfl⟩) hreach (by decide +kernel)
  obtain rfl := Except.ok.inj hstat
  have hwhole := (hread Method.noConfusion).2 _ (noteFiles_unchanged path)
  have hrefused : clientAcceptsGzip (withHeader ∅ rangeName "bytes=0-5") = false := by decide
  refine ⟨start, stop, payload, hwhole.2, (hsends.plain ?_).1⟩
  rw [compresses_eq]
  simp only [noteRequest, hrefused, Bool.false_and]

/-- A range over the whole text goes out compressed, under its position. -/
theorem compressed_part :
    let out := sentNote (noteRequest .get (withHeader gzipHeaders rangeName "bytes=0-31"))
    out.status = 206 ∧ HasOnly out.headers "content-range" (rangeText 0 31 32) ∧
      out.headers.getAll "content-encoding" = [gzipValue] ∧
      out.body.data ≠ slice (Text.utf8Bytes longText) 0 31 ∧ out.body.data.length ≠ 31 - 0 + 1 := by
  intro out
  refine ⟨by decide +kernel, hasOnly_iff.2 (by decide +kernel), by decide +kernel,
    by decide +kernel, by decide +kernel⟩

end Elrond.Server
