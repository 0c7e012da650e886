import Elrond.Proxy.ForwardedFor
import Elrond.Proxy.Framing

/-!
# Rules and hop-by-hop fields

The other two header rewrites of a proxied message against their purpose. A `proxy_set_header` rule
decides its header whenever its value is a legal one, and is skipped otherwise
(`applyProxySetHeaders_decides`). `Stripped` states which fields end at the proxy: the hop-by-hop
fields of RFC 9110 and whatever a Connection field lists. The code removes a fixed list that has
`trailers` where the field is called `trailer`, and does not look at Connection
(`forward_strips_iff`).
-/

set_option autoImplicit false

namespace Elrond.Proxy

open Elrond.Lib Elrond.Http Elrond.Request Elrond.Upstream

/-! ## The rules of a location -/

/-- The value may be written as a header value. -/
def legal (value : String) : Bool := (Text.utf8Bytes value).all isValidByte

/-- The lines are the value, and none if the value is empty. -/
def Written (value : String) (lines : List HeaderValue) : Prop :=
  if value = "" then lines = [] else ∃ v, v.bytes = Text.utf8Bytes value ∧ lines = [v]

/-- The rule is for the header and its value is legal. -/
def effective (ctx : RequestCtx) (name : HeaderName) (rule : HeaderName × Template) : Bool :=
  rule.1 == name && legal (rule.2.render ctx)

theorem ruleDecides_effective {ctx : RequestCtx} {name : HeaderName}
    {rule : HeaderName × Template} (h : effective ctx name rule = true) :
    ∃ lines, ruleDecides ctx name.text rule = some lines ∧ Written (rule.2.render ctx) lines := by
  simp only [effective, Bool.and_eq_true, beq_iff_eq] at h
  obtain ⟨rfl, hlegal⟩ := h
  rw [legal] at hlegal
  simp only [ruleDecides, if_true]
  by_cases hvalue : rule.2.render ctx = ""
  · refine ⟨[], if_pos hvalue, ?_⟩
    rw [Written, if_pos hvalue]
  · rw [if_neg hvalue, HeaderValue.fromStr, dif_pos hlegal]
    refine ⟨_, rfl, ?_⟩
    rw [Written, if_neg hvalue]
    exact ⟨_, rfl, rfl⟩

theorem ruleDecides_ineffective {ctx : RequestCtx} {name : HeaderName}
    {rule : HeaderName × Template} (h : effective ctx name rule = false) :
    ruleDecides ctx name.text rule = none := by
  simp only [effective, Bool.and_eq_false_iff, beq_eq_false_iff_ne] at h
  simp only [ruleDecides]
  rcases h with hname | hlegal
  · exact if_neg fun heq => hname (HeaderName.ext heq)
  · have hvalue : rule.2.render ctx ≠ "" := by
      intro hempty
      rw [hempty] at hlegal
      exact absurd hlegal (by decide)
    rw [if_neg hvalue, HeaderValue.fromStr, dif_neg (by rw [← legal, hlegal]; decide)]
    exact ite_self none

/-- The last rule for a header whose value is legal decides it: the header is that value, or absent
if the value is empty. Without such a rule the header stays as it was. -/
theorem applyProxySetHeaders_decides (h : HeaderMap) (rules : List (HeaderName × Template))
    (ctx : RequestCtx) (name : HeaderName) :
    match (rules.filter (effective ctx name)).getLast? with
    | some rule =>
        Written (rule.2.render ctx) ((applyProxySetHeaders h rules ctx).getAll name.text)
    | none => (applyProxySetHeaders h rules ctx).getAll name.text = h.getAll name.text := by
  rw [getAll_applyProxySetHeaders _ _ _ _ name.toAsciiLowercase_text]
  induction rules using List.reverseRecOn with
  | nil => rfl
  | append_singleton rules rule ih =>
      simp only [linesAfterRules, List.filterMap_append, List.filter_append] at ih ⊢
      cases hrule : effective ctx name rule with
      | true =>
          obtain ⟨lines, hlines, hwritten⟩ := ruleDecides_effective hrule
          simpa [hrule, hlines] using hwritten
      | false => simpa [hrule, ruleDecides_ineffective hrule] using ih

theorem isHeaderName_xUser : isHeaderName "x-user" = true := by decide

/-- The header `x-user`. -/
def xUser : HeaderName := ⟨"x-user", isHeaderName_xUser⟩

/-- The rule `proxy_set_header X-User $arg_u`. -/
def userRule : HeaderName × Template := (xUser, ⟨[.var (.arg "u")]⟩)

/-- A client that names itself, and asks for `/?u=%0A`. -/
def lineFeedContext : RequestCtx where
  peer := someClient
  serverName := none
  method := .get
  uri := ⟨none, none, some "/?u=%0A"⟩
  headers := HeaderMap.append ∅ xUser ⟨Text.utf8Bytes "admin", by decide⟩
  scheme := .http
  userVars := ∅

theorem percentDecode_lineFeed : percentDecode "%0A" = "\n" := by
  have hbytes : percentDecodeBytes (Text.utf8Bytes "%0A") = [10] := by
    rw [show Text.utf8Bytes "%0A" = [0x25, 0x30, 0x41] from by decide]
    simp [percentDecodeBytes, hexDigit]
  rw [percentDecode, hbytes]
  decide

theorem render_userRule : userRule.2.render lineFeedContext = "\n" := by
  have hquery : lineFeedContext.uri.query = some "u=%0A" := by decide
  have hpairs : Text.split '&' "u=%0A" = ["u=%0A"] := by decide
  have hpair : Text.splitOnce '=' "u=%0A" = some ("u", "%0A") := by decide
  simp [userRule, Template.render, Segment.render, VarRef.render, RequestCtx.queryArg, hquery,
    hpairs, hpair, percentDecode_lineFeed]

/-- A value that is no header value is skipped, and what the client sent goes through: neither the
rendered value nor nothing. -/
theorem client_value_goes_through :
    ¬ ((applyProxySetHeaders lineFeedContext.headers [userRule] lineFeedContext).getAll "x-user" =
        [] ∨
      ∃ v, v.bytes = Text.utf8Bytes (userRule.2.render lineFeedContext) ∧
        (applyProxySetHeaders lineFeedContext.headers [userRule] lineFeedContext).getAll
          "x-user" = [v]) := by
  have hskipped : applyProxySetHeaders lineFeedContext.headers [userRule] lineFeedContext =
      lineFeedContext.headers := by
    rw [applyProxySetHeaders, List.foldl_cons, List.foldl_nil]
    simp only [applySetHeader, render_userRule]
    rw [if_neg (by decide), HeaderValue.fromStr, dif_neg (by decide)]
  rw [hskipped, render_userRule]
  rintro (hnone | ⟨v, hv, hline⟩)
  · exact absurd hnone (by decide)
  · have hadmin : lineFeedContext.headers.getAll "x-user" =
        [⟨Text.utf8Bytes "admin", by decide⟩] := by decide
    rw [hadmin] at hline
    obtain rfl := (List.cons.inj hline).1
    exact absurd hv (by decide)

/-! ## Fields that end at the proxy -/

/-- The hop-by-hop fields of RFC 9110. -/
def rfcHopByHop : List String :=
  ["connection", "keep-alive", "proxy-authenticate", "proxy-authorization", "te", "trailer",
    "transfer-encoding", "upgrade"]

/-- The field names the Connection lines of a message list. -/
def connectionOptions (h : HeaderMap) : List String :=
  (h.getAll "connection").flatMap fun v => v.members.map Text.toAsciiLowercase

/-- The field is meant for this hop only. -/
def EndsHere (h : HeaderMap) (name : HeaderName) : Prop :=
  name.text ∈ rfcHopByHop ∨ name.text ∈ connectionOptions h

/-- `out` is what is left of the fields of `h` behind this hop, up to the fields `own` that the
proxy writes itself. -/
structure Stripped (own : HeaderName → Prop) (h out : HeaderMap) : Prop where
  dropped : ∀ name, EndsHere h name → ¬ own name → out.getAll name.text = []
  kept : ∀ name, ¬ EndsHere h name → ¬ own name → out.getAll name.text = h.getAll name.text

/-- The `trailer` header name. -/
def trailer : HeaderName := ⟨"trailer", by decide⟩

/-- The name the code has in its place. -/
def trailers : HeaderName := ⟨"trailers", by decide⟩

/-- The message has no field that the code treats otherwise than it should, up to the fields
`own`: no Trailer, nothing that a Connection line lists besides the fields the code removes anyway,
and no field called Trailers that is not listed. -/
structure NothingMissed (own : HeaderName → Prop) (h : HeaderMap) : Prop where
  noTrailer : ¬ own trailer → h.getAll "trailer" = []
  noListed : ∀ name : HeaderName, name.text ∈ connectionOptions h → name.text ∉ hopByHop →
    ¬ own name → h.getAll name.text = []
  noTrailers : "trailers" ∉ connectionOptions h → ¬ own trailers → h.getAll "trailers" = []

theorem getAll_foldl_remove_mem (names : List String) (h : HeaderMap) (name : HeaderName)
    (hname : name.text ∈ names) : (names.foldl HeaderMap.remove h).getAll name.text = [] := by
  have hkeeps : ∀ (names : List String) (h : HeaderMap), h.getAll name.text = [] →
      (names.foldl HeaderMap.remove h).getAll name.text = [] := by
    intro names
    induction names with
    | nil =>
        intro h hnil
        exact hnil
    | cons n names ih =>
        intro h hnil
        apply ih
        rw [HeaderMap.getAll_remove, hnil, ite_self]
  induction names generalizing h with
  | nil => exact absurd hname List.not_mem_nil
  | cons n names ih =>
      rcases List.mem_cons.1 hname with rfl | hname
      · rw [List.foldl_cons]
        apply hkeeps
        rw [HeaderMap.getAll_remove, if_pos rfl]
      · exact ih _ hname

/-- What the code leaves of a field. -/
theorem getAll_stripHopByHop (h : HeaderMap) (name : HeaderName) :
    (stripHopByHop h).getAll name.text =
      if name.text ∈ hopByHop then [] else h.getAll name.text := by
  split
  · next hmem => exact getAll_foldl_remove_mem hopByHop h name hmem
  · next hmem =>
    have hlower : ∀ n ∈ hopByHop, Text.toAsciiLowercase n = n := by decide
    apply getAll_foldl_remove
    intro n hn heq
    rw [HeaderName.toAsciiLowercase_text, hlower n hn] at heq
    exact hmem (heq ▸ hn)

theorem mem_hopByHop_cases (name : HeaderName) :
    (name.text ∈ rfcHopByHop ∧ name.text ∈ hopByHop) ∨
      (name = trailer ∧ name.text ∉ hopByHop) ∨ (name = trailers ∧ name.text ∉ rfcHopByHop) ∨
      name.text ∉ rfcHopByHop ∧ name.text ∉ hopByHop := by
  have hrfc : ∀ n ∈ rfcHopByHop, n ∈ hopByHop ∨ n = "trailer" := by decide
  have hcode : ∀ n ∈ hopByHop, n ∈ rfcHopByHop ∨ n = "trailers" := by decide
  by_cases h : name.text ∈ rfcHopByHop
  · rcases hrfc _ h with h' | h'
    · exact Or.inl ⟨h, h'⟩
    · refine Or.inr (Or.inl ⟨HeaderName.ext h', ?_⟩)
      rw [h']
      decide
  · by_cases h' : name.text ∈ hopByHop
    · rcases hcode _ h' with h'' | h''
      · exact absurd h'' h
      · exact Or.inr (Or.inr (Or.inl ⟨HeaderName.ext h'', h⟩))
    · exact Or.inr (Or.inr (Or.inr ⟨h, h'⟩))

/-- Where the code's list decides, a message comes out as it should exactly if it has no field the
list misses. -/
theorem stripped_iff (own : HeaderName → Prop) (h out : HeaderMap)
    (hout : ∀ name, ¬ own name → out.getAll name.text = (stripHopByHop h).getAll name.text) :
    Stripped own h out ↔ NothingMissed own h := by
  simp only [getAll_stripHopByHop] at hout
  constructor
  · intro hs
    refine ⟨?_, ?_, ?_⟩
    · intro hown
      have hd := hs.dropped trailer (Or.inl (by decide)) hown
      rwa [hout trailer hown, if_neg (by decide)] at hd
    · intro name hlisted hcode hown
      have hd := hs.dropped name (Or.inr hlisted) hown
      rwa [hout name hown, if_neg hcode] at hd
    · intro hlisted hown
      have hends : ¬ EndsHere h trailers := by
        rintro (hrfc | hopt)
        · exact absurd hrfc (by decide)
        · exact hlisted hopt
      have hk := hs.kept trailers hends hown
      rw [hout trailers hown, if_pos (by decide)] at hk
      exact hk.symm
  · intro hn
    refine ⟨?_, ?_⟩
    · intro name hends hown
      rw [hout name hown]
      split
      · rfl
      · next hcode =>
        rcases mem_hopByHop_cases name with h' | ⟨rfl, _⟩ | ⟨rfl, _⟩ | ⟨hrfc, _⟩
        · exact absurd h'.2 hcode
        · exact hn.noTrailer hown
        · exact absurd (by decide) hcode
        · exact hn.noListed name (hends.resolve_left hrfc) hcode hown
    · intro name hends hown
      rw [hout name hown]
      split
      · next hcode =>
        rcases mem_hopByHop_cases name with h' | ⟨rfl, h'⟩ | ⟨rfl, _⟩ | ⟨_, h'⟩
        · exact absurd (Or.inl h'.1) hends
        · exact absurd hcode h'
        · exact (hn.noTrailers (fun hopt => hends (Or.inr hopt)) hown).symm
        · exact absurd hcode h'
      · rfl

/-- A rule of the location sets the header. -/
def SetByRules (rules : List (HeaderName × Template)) (ctx : RequestCtx) (name : HeaderName) :
    Prop :=
  ∃ rule ∈ rules, effective ctx name rule = true

/-- The proxy replaces the header, whatever the client sent. -/
def Overwritten (rules : List (HeaderName × Template)) (ctx : RequestCtx) (name : HeaderName) :
    Prop :=
  SetByRules rules ctx name ∨ name = xRealIp ∨ name = xForwardedProto

/-- A request as it should leave the proxy. The chain of X-Forwarded-For is the proxy's to extend;
if the client declares the field to be for this hop only, the chain starts with the client. -/
structure RequestStripped (rules : List (HeaderName × Template)) (ctx : RequestCtx)
    (clientPeer : SocketAddr) (h out : HeaderMap) : Prop where
  fields : Stripped (fun name => Overwritten rules ctx name ∨ name = xForwardedFor) h out
  chain : EndsHere h xForwardedFor → ¬ SetByRules rules ctx xForwardedFor →
    (out.getAll "x-forwarded-for").map HeaderValue.bytes = [Text.utf8Bytes clientPeer.ip.toText]

section Requests

variable {rules : List (HeaderName × Template)} {ctx : RequestCtx} {clientPeer : SocketAddr}

/-- A header no rule sets comes from the forwarding step. -/
theorem getAll_outboundHeaders (h : HeaderMap) (clientPeer : SocketAddr) {name : HeaderName}
    (hname : ¬ SetByRules rules ctx name) :
    (outboundHeaders h rules clientPeer ctx).getAll name.text =
      (addForwardingHeaders (stripHopByHop h) clientPeer ctx.scheme).getAll name.text := by
  have hnone : rules.filterMap (ruleDecides ctx name.text) = [] := by
    rw [List.filterMap_eq_nil_iff]
    intro rule hrule
    apply ruleDecides_ineffective
    rw [← Bool.not_eq_true]
    intro heff
    exact hname ⟨rule, hrule, heff⟩
  rw [outboundHeaders, getAll_applyProxySetHeaders _ _ _ _ name.toAsciiLowercase_text,
    linesAfterRules, hnone]
  rfl

/-- The chain starts with the client exactly if there was none. -/
theorem chain_starts_iff {h : HeaderMap} (hset : ¬ SetByRules rules ctx xForwardedFor) :
    ((outboundHeaders h rules clientPeer ctx).getAll "x-forwarded-for").map HeaderValue.bytes =
        [Text.utf8Bytes clientPeer.ip.toText] ↔
      h.getAll "x-forwarded-for" = [] := by
  obtain ⟨-, -, v, hv, -, hbytes⟩ :=
    addForwardingHeaders_lines (stripHopByHop h) clientPeer ctx.scheme
  have hlines : (stripHopByHop h).getAll "x-forwarded-for" = h.getAll "x-forwarded-for" := by
    have hstrip := getAll_stripHopByHop h xForwardedFor
    rwa [if_neg (by decide)] at hstrip
  have hout := getAll_outboundHeaders h clientPeer hset
  rw [show (outboundHeaders h rules clientPeer ctx).getAll "x-forwarded-for" = [v] from
    hout.trans hv, List.map_singleton, List.singleton_inj, hbytes, hlines]

theorem requestStripped_iff (h : HeaderMap) :
    RequestStripped rules ctx clientPeer h (outboundHeaders h rules clientPeer ctx) ↔
      NothingMissed (Overwritten rules ctx) h := by
  have hfields := stripped_iff (fun name => Overwritten rules ctx name ∨ name = xForwardedFor) h
    (outboundHeaders h rules clientPeer ctx) ?_
  · constructor
    · intro hs
      have hn := hfields.1 hs.fields
      refine ⟨?_, ?_, ?_⟩
      · intro hown
        exact hn.noTrailer (not_or.2 ⟨hown, by decide⟩)
      · intro name hlisted hcode hown
        by_cases hfor : name = xForwardedFor
        · subst hfor
          have hset : ¬ SetByRules rules ctx xForwardedFor := fun hset => hown (Or.inl hset)
          exact (chain_starts_iff hset).1 (hs.chain (Or.inr hlisted) hset)
        · exact hn.noListed name hlisted hcode (not_or.2 ⟨hown, hfor⟩)
      · intro hlisted hown
        exact hn.noTrailers hlisted (not_or.2 ⟨hown, by decide⟩)
    · intro hn
      refine ⟨hfields.2 ⟨?_, ?_, ?_⟩, ?_⟩
      · intro hown
        exact hn.noTrailer (not_or.1 hown).1
      · intro name hlisted hcode hown
        exact hn.noListed name hlisted hcode (not_or.1 hown).1
      · intro hlisted hown
        exact hn.noTrailers hlisted (not_or.1 hown).1
      · intro hends hset
        rw [chain_starts_iff hset]
        have hown : ¬ Overwritten rules ctx xForwardedFor := by
          rintro (hrule | hname | hname)
          · exact hset hrule
          · exact absurd hname (by decide)
          · exact absurd hname (by decide)
        exact hn.noListed xForwardedFor (hends.resolve_left (by decide)) (by decide) hown
  · intro name hown
    simp only [Overwritten, not_or] at hown
    obtain ⟨⟨hset, hreal, hproto⟩, hfor⟩ := hown
    rw [getAll_outboundHeaders h clientPeer hset]
    apply getAll_addForwardingHeaders
    rw [HeaderName.toAsciiLowercase_text]
    simp only [List.mem_cons, List.not_mem_nil, or_false, not_or]
    exact ⟨fun heq => hreal (HeaderName.ext heq), fun heq => hfor (HeaderName.ext heq),
      fun heq => hproto (HeaderName.ext heq)⟩

end Requests

/-- The hop-by-hop fields are gone from every request an exchange sends, and from every response
`forward_to_peer` returns, exactly if the message they come from has no field that the code's list
misses. -/
theorem forward_strips_iff (env : Env) (s : Settings) (req : Request) (clientPeer : SocketAddr)
    (ctx : RequestCtx) (st : ProxyState) :
    (∀ q ∈ sentRequests (forward env s req clientPeer ctx st).events,
        RequestStripped s.setHeaders ctx clientPeer req.headers q.headers ↔
          NothingMissed (Overwritten s.setHeaders ctx) req.headers) ∧
      ∀ (a : AttemptEnv) (q : Request) (resp : Response),
        a.answer s.effectiveRead q = .response resp →
          ∃ r, forwardToPeer a s (some q) = some r ∧
            (Stripped (fun _ => False) resp.headers r.headers ↔
              NothingMissed (fun _ => False) resp.headers) := by
  refine ⟨?_, ?_⟩
  · intro q hq
    obtain ⟨-, hheaders⟩ := forward_send hq
    rw [hheaders]
    exact requestStripped_iff req.headers
  · intro a q resp hresp
    refine ⟨{ resp with headers := stripHopByHop resp.headers }, ?_, ?_⟩
    · simp [forwardToPeer, hresp]
    · exact stripped_iff _ _ _ fun _ _ => rfl

/-- The header `x-internal`. -/
def xInternal : HeaderName := ⟨"x-internal", by decide⟩

/-- A request whose Connection field lists another of its fields. -/
def listingRequest : Request where
  method := .get
  uri := ⟨none, none, some "/items/1"⟩
  version := .http11
  headers := ⟨[(⟨"connection", by decide⟩, ⟨Text.utf8Bytes "close, X-Internal", by decide⟩),
    (xInternal, ⟨Text.utf8Bytes "secret", by decide⟩)]⟩
  body := emptyBody

/-- A field that the Connection field of the request lists is sent on. -/
theorem listed_field_is_sent_on :
    ∃ q ∈ sentRequests (forward quietEnv plainSettings listingRequest plainCtx.peer plainCtx
        ⟨directBalancer .http "10.0.0.1:8080", Cache.State.new⟩).events,
      ¬ RequestStripped [] plainCtx plainCtx.peer listingRequest.headers q.headers := by
  refine ⟨_, List.mem_cons_self, ?_⟩
  intro h
  have hown : ¬ (Overwritten [] plainCtx xInternal ∨ xInternal = xForwardedFor) := by
    simp [Overwritten, SetByRules, xInternal, xRealIp, xForwardedProto, xForwardedFor]
  have hdropped := h.fields.dropped xInternal (Or.inr (by decide)) hown
  exact absurd hdropped (by decide)

end Elrond.Proxy
