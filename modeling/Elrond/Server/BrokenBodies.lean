import Elrond.Proxy.Retry
import Elrond.Server.Shadows

/-!
# Bodies that break off

The body of an upstream answer may break off at any point. `forward` streams it on; the cache and
the compression read it to its end first, and go on with an empty body if they cannot
(`maybe_cache`, `maybe_compress`). What was broken then ends normally, under the status of the
answer.

A body is kept on its whole way exactly if no broken body of a success is read by one of the two
(`broken_body_iff`).
-/

set_option autoImplicit false

namespace Elrond.Proxy

/-- The response that ends a course, if one does. -/
def Course.answered (c : Course) : Option Http.Response := c.ending.attempt.bind Attempt.answer

end Elrond.Proxy

namespace Elrond.Server

open Elrond.Lib Elrond.Http Elrond.Request Elrond.Config Elrond.Upstream Elrond.Proxy Elrond.Limit
  Elrond.App

/-- A success status. -/
def isSuccess (status : Nat) : Bool := 200 ≤ status && status < 300

/-! ## The compression stage -/

/-- The bytes that a client has of a response, if its codings were those of `before` when it came
to the compression: a coding added there is undone. -/
def undoCoding (decode : Bytes → Option Bytes) (before : HeaderMap) (out : Response) :
    Option Bytes :=
  if out.headers.getAll "content-encoding" = before.getAll "content-encoding" then
    some out.body.data
  else decode out.body.data

section Compression

variable (crates : Crates) {response : Response} {reqHeaders : HeaderMap} {gzipEnabled : Bool}
  {gzipTypes : List String} {maxCollect : Option Nat} (minLength : Nat)

/-- After the compression a body is broken exactly if it was, and was not read to its end. -/
theorem failed_maybeCompress :
    (maybeCompress crates response reqHeaders gzipEnabled gzipTypes maxCollect
        minLength).body.failed =
      (response.body.failed && !collects response.status response.headers reqHeaders gzipEnabled
        gzipTypes maxCollect) := by
  cases h : collects response.status response.headers reqHeaders gzipEnabled gzipTypes
      maxCollect with
  | false =>
      rw [maybeCompress_of_not_collects crates minLength h]
      exact (Bool.and_true _).symm
  | true =>
      rw [maybeCompress_of_collects crates minLength h, Bool.not_true, Bool.and_false]
      cases hfailed : response.body.failed with
      | true => rfl
      | false =>
          simp only [Bool.false_eq_true, if_false]
          split
          · rfl
          · exact hfailed

/-- A body that ended normally is the one the client has. -/
theorem undoCoding_maybeCompress (response : Response) {decode : Bytes → Option Bytes}
    (hdecode : ∀ data bytes, crates.gzip data = some bytes → decode bytes = some data)
    (hwhole : response.body.failed = false) :
    undoCoding decode response.headers
        (maybeCompress crates response reqHeaders gzipEnabled gzipTypes maxCollect minLength) =
      some response.body.data := by
  have hcoded := coded_iff crates response reqHeaders gzipEnabled gzipTypes maxCollect minLength
  cases h : compresses crates response reqHeaders gzipEnabled gzipTypes maxCollect minLength with
  | false =>
      rw [maybeCompress_of_not_compresses crates minLength h hwhole]
      exact if_pos rfl
  | true =>
      -- the response had no coding before
      obtain ⟨bytes, hgzip, hout⟩ := maybeCompress_of_compresses crates minLength h
      rw [undoCoding, if_neg (hcoded.2 h), hout]
      exact hdecode _ _ hgzip

end Compression

/-! ## From the upstream to the client -/

/-- If a response ends normally with a success status, it was made from an upstream response whose
body ended normally, and the client has that body. `dress` gives the headers of the location. -/
def KeepsBody (decode : Bytes → Option Bytes) (dress : HeaderMap → HeaderMap)
    (upstream : Option Response) (out : Response) : Prop :=
  isSuccess out.status = true → out.body.failed = false →
    ∃ resp, upstream = some resp ∧ resp.body.failed = false ∧
      undoCoding decode (dress resp.headers) out = some resp.body.data

/-- The two maps agree in the lines that the compression looks at. -/
structure SameForm (h h' : HeaderMap) : Prop where
  coding : h.getAll "content-encoding" = h'.getAll "content-encoding"
  type : h.getAll "content-type" = h'.getAll "content-type"
  length : h.getAll "content-length" = h'.getAll "content-length"

theorem SameForm.trans {h h' h'' : HeaderMap} (a : SameForm h h') (b : SameForm h' h'') :
    SameForm h h'' :=
  ⟨a.coding.trans b.coding, a.type.trans b.type, a.length.trans b.length⟩

theorem SameExcept.sameForm {name : String} {h h' : HeaderMap} (hsame : SameExcept name h h')
    (hname : name ∉ ["content-encoding", "content-type", "content-length"]) : SameForm h h' := by
  simp only [List.mem_cons, List.not_mem_nil, or_false, not_or] at hname
  obtain ⟨hcoding, htype, hlength⟩ := hname
  have hlower : ∀ n ∈ ["content-encoding", "content-type", "content-length"],
      Text.toAsciiLowercase n = n := by decide
  constructor
  · apply hsame
    rw [hlower _ (by simp)]
    exact Ne.symm hcoding
  · apply hsame
    rw [hlower _ (by simp)]
    exact Ne.symm htype
  · apply hsame
    rw [hlower _ (by simp)]
    exact Ne.symm hlength

theorem SameForm.collects_eq {h h' : HeaderMap} (hsame : SameForm h h') (status : Nat)
    (reqHeaders : HeaderMap) (gzipEnabled : Bool) (gzipTypes : List String)
    (maxCollect : Option Nat) :
    collects status h reqHeaders gzipEnabled gzipTypes maxCollect =
      collects status h' reqHeaders gzipEnabled gzipTypes maxCollect := by
  simp only [collects, contentTypeEligible, withinCollect, declaredLength, HeaderMap.get,
    hsame.coding, hsame.type, hsame.length]

section Handle

variable (reply : (q : Effect) → q.Answer) (crates : Crates) (state : ServerState)
  (loc : LocationRt) (call : ActionCall) (ctx : RequestCtx) (reqHeaders : HeaderMap)

/-- The headers with which a response comes to the compression. -/
def dressed (headers : HeaderMap) : HeaderMap :=
  decoratedHeaders reply loc ctx (advertise state headers)

/-- `handle` compresses with the settings of the location. -/
theorem value_finishHandle_eq (response : Response) :
    (finishHandle crates state ctx reqHeaders (.served loc call response)).value reply =
      maybeCompress crates
        { response with headers := dressed reply state loc ctx response.headers } reqHeaders
        (loc.gzip.getD state.gzip) state.gzipTypes (maxCollectOf loc) state.gzipMinLength := by
  rw [value_finishHandle]
  cases loc.gzip.getD state.gzip with
  | true => rfl
  | false => rfl

/-- The response handed on for an upstream answer has its form. -/
theorem sameForm_dressed {cache : Option ProxyCache} {resp passed : Response}
    (h : Delivers cache resp passed) :
    SameForm (dressed reply state loc ctx passed.headers)
      (decoratedHeaders reply loc ctx resp.headers) := by
  have hadvertised : SameExcept "alt-svc" (dressed reply state loc ctx passed.headers)
      (decoratedHeaders reply loc ctx passed.headers) :=
    (sameExcept_advertise state passed.headers).decoratedHeaders reply loc ctx
  have hmarked : SameExcept "x-cache" (decoratedHeaders reply loc ctx passed.headers)
      (decoratedHeaders reply loc ctx resp.headers) :=
    SameExcept.decoratedHeaders reply loc ctx h.headers
  exact (hadvertised.sameForm (by decide)).trans (hmarked.sameForm (by decide))

/-- `handle` reads the body of an upstream response to its end, to compress it. -/
def compressionCollects (resp : Response) : Bool :=
  collects resp.status (decoratedHeaders reply loc ctx resp.headers) reqHeaders
    (loc.gzip.getD state.gzip) state.gzipTypes (maxCollectOf loc)

/-- The body that goes out for an upstream answer is broken exactly if the one passed on is, and is
not read to its end. -/
theorem failed_sent {cache : Option ProxyCache} {resp passed : Response}
    (h : Delivers cache resp passed) :
    ((finishHandle crates state ctx reqHeaders (.served loc call passed)).value
        reply).body.failed =
      (passed.body.failed && !compressionCollects reply state loc ctx reqHeaders resp) := by
  rw [value_finishHandle_eq, failed_maybeCompress, compressionCollects, ← h.status,
    (sameForm_dressed reply state loc ctx h).collects_eq]

/-- A whole body passed on is the one the client has. -/
theorem undoCoding_sent {decode : Bytes → Option Bytes}
    (hdecode : ∀ data bytes, crates.gzip data = some bytes → decode bytes = some data)
    {cache : Option ProxyCache} {resp passed : Response} (h : Delivers cache resp passed)
    (hwhole : passed.body.failed = false) :
    undoCoding decode (decoratedHeaders reply loc ctx resp.headers)
        ((finishHandle crates state ctx reqHeaders (.served loc call passed)).value reply) =
      some passed.body.data := by
  rw [value_finishHandle_eq, undoCoding, ← (sameForm_dressed reply state loc ctx h).coding]
  exact undoCoding_maybeCompress crates state.gzipMinLength
    { passed with headers := dressed reply state loc ctx passed.headers } hdecode hwhole

theorem status_sent (response : Response) :
    ((finishHandle crates state ctx reqHeaders (.served loc call response)).value reply).status =
      response.status := by
  rw [value_finishHandle_eq, status_maybeCompress]

/-- What is passed on for an upstream answer keeps its body exactly if the answer was whole, or is
still broken when it goes out, or is no success. -/
theorem keepsBody_iff {decode : Bytes → Option Bytes}
    (hdecode : ∀ data bytes, crates.gzip data = some bytes → decode bytes = some data)
    {cache : Option ProxyCache} {m : Method} {resp passed : Response}
    (h : Delivers cache resp passed) (hbody : passed.body = bufferedBody cache m resp.body) :
    KeepsBody decode (decoratedHeaders reply loc ctx) (some resp)
        ((finishHandle crates state ctx reqHeaders (.served loc call passed)).value reply) ↔
      (isSuccess resp.status = true → resp.body.failed = true →
        (cache.isSome && m == .get) = false ∧
          compressionCollects reply state loc ctx reqHeaders resp = false) := by
  have hstatus := status_sent reply crates state loc call ctx reqHeaders passed
  have hfailed := failed_sent reply crates state loc call ctx reqHeaders h
  rw [h.status] at hstatus
  cases hbroken : resp.body.failed with
  | false =>
      -- a whole body is passed on as it is
      have hsame : passed.body = resp.body := by simp [hbody, bufferedBody, hbroken]
      constructor
      · exact fun _ _ hne => absurd hne Bool.false_ne_true
      · intro _ _ _
        refine ⟨resp, rfl, hbroken, ?_⟩
        rw [← hsame] at hbroken ⊢
        exact undoCoding_sent reply crates state loc call ctx reqHeaders hdecode h hbroken
  | true =>
      have hpassed : passed.body.failed = !(cache.isSome && m == .get) := by
        rw [hbody, bufferedBody, hbroken, Bool.and_true]
        cases hcache : (cache.isSome && m == .get) with
        | true => rfl
        | false => exact hbroken
      rw [hpassed] at hfailed
      constructor
      · intro hkeeps hsuccess _
        -- otherwise the body would have ended normally
        by_contra hread
        have hended : ((finishHandle crates state ctx reqHeaders
            (.served loc call passed)).value reply).body.failed = false := by
          rw [hfailed, ← Bool.not_or, Bool.not_eq_false', Bool.or_eq_true]
          rw [not_and_or] at hread
          exact hread.imp Bool.eq_true_of_not_eq_false Bool.eq_true_of_not_eq_false
        obtain ⟨resp', heq, hwhole, -⟩ := hkeeps (hstatus.symm ▸ hsuccess) hended
        obtain rfl := Option.some.inj heq
        rw [hbroken] at hwhole
        cases hwhole
      · intro hcond hsuccess hended
        obtain ⟨hcache, hgzip⟩ := hcond (hstatus ▸ hsuccess) rfl
        rw [hfailed, hcache, hgzip] at hended
        cases hended

end Handle

/-! ## Whole exchanges -/

theorem not_isSuccess_of_isServerError {status : Nat} (h : isServerError status = true) :
    isSuccess status = false := by
  simp only [isServerError, isSuccess, Bool.and_eq_true, decide_eq_true_eq, Bool.and_eq_false_iff,
    decide_eq_false_iff_not] at h ⊢
  omega

/-- A course without an answer comes to no success. -/
theorem not_isSuccess_of_unanswered {env : Env} {s : Settings} {ctx : RequestCtx} {b : Balancer}
    {left : Nat} {c : Course} {r : ProxyResult} (h : Follows env s ctx b left 0 [] none c r)
    (hnone : c.answered = none) : isSuccess r.response.status = false := by
  have hend : c.ending.attempt = none := by
    cases hending : c.ending with
    | answered a =>
        obtain ⟨resp, hresp, -⟩ := h.delivered a hending
        rw [Course.answered, hending] at hnone
        exact absurd (hresp.symm.trans hnone) (Option.some_ne_none resp)
    | noPeer => rfl
    | spent => rfl
  rw [h.fallback hend, Option.or_none, Course.lastResponse]
  cases hlast : (c.failed.filterMap Attempt.answer).getLast? with
  | none => rfl
  | some resp =>
      -- the latest answer is one of a failed attempt
      obtain ⟨a, ha, hanswer⟩ := List.mem_filterMap.1 (List.mem_of_getLast? hlast)
      have hfailed := h.failures a ha
      rw [Attempt.failed, hanswer] at hfailed
      exact not_isSuccess_of_isServerError hfailed

/-- What the client gets of the answer that ends a course. -/
theorem delivers_of_answered {env : Env} {s : Settings} {ctx : RequestCtx} {b : Balancer}
    {left done : Nat} {excluded : List String} {last : Option Response} {c : Course}
    {r : ProxyResult} (h : Follows env s ctx b left done excluded last c r)
    {m : Method} (hands : HandsOn s.cache m c r) {resp : Response}
    (hresp : c.answered = some resp) :
    Delivers s.cache resp r.response ∧ r.response.body = bufferedBody s.cache m resp.body := by
  obtain ⟨a, hend, hanswer⟩ := Option.bind_eq_some_iff.1 hresp
  have hending : c.ending = .answered a := by
    cases hcase : c.ending with
    | answered a' =>
        rw [hcase] at hend
        exact congrArg Ending.answered (Option.some.inj hend)
    | noPeer =>
        rw [hcase] at hend
        cases hend
    | spent =>
        rw [hcase] at hend
        cases hend
  obtain ⟨resp', hresp', hdelivers⟩ := h.delivered a hending
  obtain rfl := Option.some.inj (hresp'.symm.trans hanswer)
  exact ⟨hdelivers, hands.body a resp' hending hanswer⟩

/-- **Broken bodies.** With `decode` an inverse of gzip, and whatever the settings of the cache and
of the compression are: a response from the cache keeps the stored body. Any other exchange has a
course of attempts, and keeps the body of its answer exactly if a broken body of a success is
neither read by the cache nor by the compression; only bodies that ended normally are stored. -/
theorem broken_body_iff (reply : (q : Effect) → q.Answer) (crates : Crates)
    {decode : Bytes → Option Bytes}
    (hdecode : ∀ data bytes, crates.gzip data = some bytes → decode bytes = some data)
    (state : ServerState) (loc : LocationRt) (call : ActionCall) (env : Env) (s : Settings)
    (req : Request) (clientPeer : SocketAddr) (ctx : RequestCtx) (st : ProxyState) :
    let r := forward env s req clientPeer ctx st
    let out := (finishHandle crates state ctx req.headers (.served loc call r.response)).value reply
    let dress := decoratedHeaders reply loc ctx
    (∀ entry, (lookupCache env s req ctx st.store).1 = some entry →
      KeepsBody decode dress (some (cachedResponse entry)) out) ∧
    ((lookupCache env s req ctx st.store).1 = none →
      ∃ c, Follows env s ctx st.balancer (attemptLimit req.method st.balancer) 0 [] none c r ∧
        (KeepsBody decode dress c.answered out ↔
          ∀ resp, c.answered = some resp → isSuccess resp.status = true →
            resp.body.failed = true → (s.cache.isSome && req.method == .get) = false ∧
              compressionCollects reply state loc ctx req.headers resp = false) ∧
        ∀ key entry, .cachePut key entry ∈ r.events →
          ∃ resp, c.answered = some resp ∧ resp.body = full entry.body) := by
  intro r out dress
  constructor
  · intro entry hhit
    have hr : r.response = cachedResponse entry := by
      show (forward env s req clientPeer ctx st).response = _
      rw [forward_of_found hhit]
    have hdelivers : Delivers none (cachedResponse entry) (cachedResponse entry) :=
      ⟨rfl, fun _ _ => rfl, fun _ => rfl, fun _ => rfl⟩
    have hkeeps := (keepsBody_iff (m := .get) reply crates state loc call ctx req.headers hdecode
      hdelivers rfl).2
    rw [← hr] at hkeeps ⊢
    apply hkeeps
    intro _ hbroken
    rw [hr] at hbroken
    cases hbroken
  · intro hmiss
    obtain ⟨c, hfollows, hands, -⟩ := forward_course env s req clientPeer ctx st hmiss
    refine ⟨c, hfollows, ?_, ?_⟩
    · cases hanswered : c.answered with
      | none =>
          -- without an answer nothing that goes out is a success
          constructor
          · exact fun _ resp hresp => absurd hresp.symm (Option.some_ne_none resp)
          · intro _ hsuccess
            have hfail := not_isSuccess_of_unanswered hfollows hanswered
            rw [status_sent reply crates state loc call ctx req.headers r.response, hfail]
              at hsuccess
            cases hsuccess
      | some resp =>
          obtain ⟨hdelivers, hbody⟩ := delivers_of_answered hfollows hands hanswered
          rw [keepsBody_iff reply crates state loc call ctx req.headers hdecode hdelivers hbody]
          constructor
          · rintro h resp' heq
            obtain rfl := Option.some.inj heq
            exact h
          · exact fun h => h resp rfl
    · intro key entry hput
      obtain ⟨a, resp, hend, hanswer, hbody⟩ := hands.stored key entry hput
      refine ⟨resp, ?_, hbody⟩
      rw [Course.answered, hend]
      exact hanswer

/-! ## A page that breaks off -/

/-- A page of which the upstream sends the first bytes, with its length declared or not. -/
def page (declared : Bool) (received : Nat) : Response where
  status := 200
  headers :=
    let h := insertText ∅ HeaderName.contentType "text/plain"
    if declared then insertText h HeaderName.contentLength "32" else h
  body := ⟨(Text.utf8Bytes longText).take received, received < 32⟩

/-- An environment in which every request is answered with the page. -/
def pageEnv (declared : Bool) (received : Nat) : Env :=
  { quietEnv with
    attempt := fun k =>
      { quietEnv.attempt k with answer := fun _ _ => .response (page declared received) } }

/-- A location for the page. -/
def pageLocation : LocationRt :=
  { openLocation with action := .proxy (.fixed (directBalancer .http "10.0.0.1:8080")) [] none }

/-- The settings of the location with a cache. -/
def cachingSettings : Settings :=
  { plainSettings with
    cache := some ⟨⟨"pages", 1024⟩, Template.parse "$uri", [([200], Text.fromSecs 60)]⟩ }

/-- The exchange for the page. -/
def pageExchange (declared : Bool) (received : Nat) (s : Settings) (headers : HeaderMap) :
    ProxyResult :=
  forward (pageEnv declared received) s (rootRequest headers) clientPeer plainCtx
    ⟨directBalancer .http "10.0.0.1:8080", Cache.State.new⟩

/-- What a server that compresses sends for the page. -/
def sentPage (declared : Bool) (received : Nat) (s : Settings) (headers : HeaderMap) : Response :=
  (finishHandle fixedCrates compressingState plainCtx headers (.served pageLocation
    (actionCall pageLocation plainCtx clientPeer (rootRequest headers))
    (pageExchange declared received s headers).response)).value quietReply

/-- After six bytes of the page the upstream breaks off. With a cache, and also with a client that
accepts gzip, an empty page goes out as a success that ends normally. -/
theorem broken_page_sent_whole :
    (page false 6).body.failed = true ∧ (page true 6).body.failed = true ∧
      (sentPage false 6 cachingSettings ∅).status = 200 ∧
      (sentPage false 6 cachingSettings ∅).body = full [] ∧
      (sentPage true 6 plainSettings gzipHeaders).status = 200 ∧
      (sentPage true 6 plainSettings gzipHeaders).body = full [] := by
  decide +kernel

/-- The inverse of gzip on that text. -/
def fixedDecode (bytes : Bytes) : Option Bytes :=
  if bytes = longTextGzip then some (Text.utf8Bytes longText) else none

theorem fixedDecode_gzip (data bytes : Bytes) (h : fixedCrates.gzip data = some bytes) :
    fixedDecode bytes = some data := by
  simp only [fixedCrates] at h
  split at h
  · rename_i heq
    rw [← Option.some.inj h, heq]
    rfl
  · cases h

/-- The whole page is compressed, and kept. -/
theorem broken_body_iff_whole_page :
    (sentPage true 32 plainSettings gzipHeaders).body = full longTextGzip ∧
      ∃ c, Follows (pageEnv true 32) plainSettings plainCtx
          (directBalancer .http "10.0.0.1:8080") 1 0 [] none c
          (pageExchange true 32 plainSettings gzipHeaders) ∧
        KeepsBody fixedDecode (decoratedHeaders quietReply pageLocation plainCtx) c.answered
          (sentPage true 32 plainSettings gzipHeaders) := by
  obtain ⟨c, hfollows, hiff, -⟩ := (broken_body_iff quietReply fixedCrates fixedDecode_gzip
    compressingState pageLocation
    (actionCall pageLocation plainCtx clientPeer (rootRequest gzipHeaders)) (pageEnv true 32)
    plainSettings (rootRequest gzipHeaders) clientPeer plainCtx
    ⟨directBalancer .http "10.0.0.1:8080", Cache.State.new⟩).2 rfl
  refine ⟨by decide +kernel, c, hfollows, hiff.2 ?_⟩
  -- every answer of the upstream is whole
  intro resp hanswered _ hbroken
  obtain ⟨a, ha, hanswer⟩ := Option.bind_eq_some_iff.1 hanswered
  have hmem : a ∈ c.attempts := by
    rw [Course.attempts, ha]
    exact List.mem_append_right _ List.mem_cons_self
  obtain ⟨k, hk⟩ := List.mem_iff_getElem?.1 hmem
  rw [hfollows.answers k a hk] at hanswer
  obtain ⟨q, -, hq⟩ := Option.bind_eq_some_iff.1 hanswer
  rw [← Option.some.inj hq] at hbroken
  exact absurd hbroken (by decide +kernel)

end Elrond.Server
