import Elrond.Request.Template

/-!
# Headers of a proxied message

The three header rewrites of `proxy.rs`: hop-by-hop removal, the forwarding headers, and the
`proxy_set_header` rules of a location. `getAll_outboundHeaders_contentLength` says what becomes of
one header through all three: only the rules can change `content-length`, and the last rule for it
that is not discarded decides.
-/

set_option autoImplicit false

namespace Elrond.Proxy

open Elrond.Lib Elrond.Http Elrond.Request

/-- `HOP_BY_HOP`. -/
def hopByHop : List String :=
  ["connection", "keep-alive", "proxy-authenticate", "proxy-authorization", "te", "trailers",
    "transfer-encoding", "upgrade"]

/-- Remove the hop-by-hop headers, as `forward_to_peer` does on the request and on the response. -/
def stripHopByHop (h : HeaderMap) : HeaderMap := hopByHop.foldl HeaderMap.remove h

/-- The header names the proxy writes itself. -/
def xRealIp : HeaderName := ⟨"x-real-ip", by decide⟩

/-- `x-forwarded-for`. -/
def xForwardedFor : HeaderName := ⟨"x-forwarded-for", by decide⟩

/-- `x-forwarded-proto`. -/
def xForwardedProto : HeaderName := ⟨"x-forwarded-proto", by decide⟩

/-- The first part of `add_forwarding_headers` after the client address: extend the chain of
`x-forwarded-for`, or start one. -/
def addForwardedFor (h : HeaderMap) (ip : String) (ipValue : HeaderValue) : HeaderMap :=
  match h.get "x-forwarded-for" with
  | some existing =>
      match HeaderValue.fromStr (existing.toStr.getD "" ++ ", " ++ ip) with
      | some v => h.insert xForwardedFor v
      | none => h
  | none => h.insert xForwardedFor ipValue

/-- `add_forwarding_headers`. -/
def addForwardingHeaders (h : HeaderMap) (peer : SocketAddr) (scheme : Scheme) : HeaderMap :=
  let ip := peer.ip.toText
  match HeaderValue.fromStr ip with
  | none => h
  | some ipValue =>
      let h := addForwardedFor (h.insert xRealIp ipValue) ip ipValue
      match HeaderValue.fromStr scheme.asStr with
      | some v => h.insert xForwardedProto v
      | none => h

/-- One `proxy_set_header` rule: an empty value removes the header, a value that is no header
value is discarded. -/
def applySetHeader (ctx : RequestCtx) (h : HeaderMap) (rule : HeaderName × Template) : HeaderMap :=
  let value := rule.2.render ctx
  if value = "" then h.remove rule.1.text
  else
    match HeaderValue.fromStr value with
    | some v => h.insert rule.1 v
    | none => h

/-- `apply_proxy_set_headers`. -/
def applyProxySetHeaders (h : HeaderMap) (rules : List (HeaderName × Template))
    (ctx : RequestCtx) : HeaderMap :=
  rules.foldl (applySetHeader ctx) h

/-- The headers `forward_to_peer` sends for a request with the headers `h`. -/
def outboundHeaders (h : HeaderMap) (rules : List (HeaderName × Template)) (clientPeer : SocketAddr)
    (ctx : RequestCtx) : HeaderMap :=
  applyProxySetHeaders (addForwardingHeaders (stripHopByHop h) clientPeer ctx.scheme) rules ctx

/-! ## What happens to one header -/

theorem getAll_foldl_remove (names : List String) (h : HeaderMap) (name : String)
    (hname : ∀ n ∈ names, Text.toAsciiLowercase name ≠ Text.toAsciiLowercase n) :
    (names.foldl HeaderMap.remove h).getAll name = h.getAll name := by
  induction names generalizing h with
  | nil => rfl
  | cons n names ih =>
      rw [List.foldl_cons, ih _ fun m hm => hname m (List.mem_cons_of_mem n hm),
        HeaderMap.getAll_remove, if_neg (hname n List.mem_cons_self)]

theorem getAll_addForwardedFor (h : HeaderMap) (ip : String) (ipValue : HeaderValue) (name : String)
    (hname : Text.toAsciiLowercase name ≠ xForwardedFor.text) :
    (addForwardedFor h ip ipValue).getAll name = h.getAll name := by
  rw [addForwardedFor]
  split
  · split
    · rw [HeaderMap.getAll_insert, if_neg hname]
    · rfl
  · rw [HeaderMap.getAll_insert, if_neg hname]

/-- The forwarding headers leave every other header alone. -/
theorem getAll_addForwardingHeaders (h : HeaderMap) (peer : SocketAddr) (scheme : Scheme)
    (name : String)
    (hname : Text.toAsciiLowercase name ∉
      [xRealIp.text, xForwardedFor.text, xForwardedProto.text]) :
    (addForwardingHeaders h peer scheme).getAll name = h.getAll name := by
  simp only [List.mem_cons, List.not_mem_nil, or_false, not_or] at hname
  obtain ⟨hreal, hfor, hproto⟩ := hname
  simp only [addForwardingHeaders]
  split
  · rfl
  · split
    · rw [HeaderMap.getAll_insert, if_neg hproto, getAll_addForwardedFor _ _ _ _ hfor,
        HeaderMap.getAll_insert, if_neg hreal]
    · rw [getAll_addForwardedFor _ _ _ _ hfor, HeaderMap.getAll_insert, if_neg hreal]

/-- What a rule decides about the header `name`: nothing if it is for another header or its value
is discarded, else the lines it leaves. -/
def ruleDecides (ctx : RequestCtx) (name : String) (rule : HeaderName × Template) :
    Option (List HeaderValue) :=
  if rule.1.text = name then
    let value := rule.2.render ctx
    if value = "" then some [] else (HeaderValue.fromStr value).map fun v => [v]
  else none

/-- The lines the rules leave of a header that had `lines` before them: those of the last rule
that decides, else the lines it had. -/
def linesAfterRules (rules : List (HeaderName × Template)) (ctx : RequestCtx) (name : String)
    (lines : List HeaderValue) : List HeaderValue :=
  ((rules.filterMap (ruleDecides ctx name)).getLast?).getD lines

theorem getAll_applySetHeader (ctx : RequestCtx) (h : HeaderMap) (rule : HeaderName × Template)
    (name : String) (hlow : Text.toAsciiLowercase name = name) :
    (applySetHeader ctx h rule).getAll name = (ruleDecides ctx name rule).getD (h.getAll name) := by
  simp only [applySetHeader, ruleDecides]
  by_cases hname : rule.1.text = name
  -- An empty value removes the header, a value that is no header value is skipped.
  · rw [if_pos hname]
    by_cases hvalue : rule.2.render ctx = ""
    · rw [if_pos hvalue, if_pos hvalue, HeaderMap.getAll_remove, if_pos (by rw [hname])]
      rfl
    · rw [if_neg hvalue, if_neg hvalue]
      cases HeaderValue.fromStr (rule.2.render ctx) with
      | none => rfl
      | some v =>
          simp only [Option.map_some, Option.getD_some]
          rw [HeaderMap.getAll_insert, if_pos (by rw [hlow, hname])]
  · rw [if_neg hname, Option.getD_none]
    have hne : Text.toAsciiLowercase name ≠ rule.1.text := fun heq => hname (by rw [← heq, hlow])
    split
    · rw [HeaderMap.getAll_remove, HeaderName.toAsciiLowercase_text, if_neg hne]
    · split
      · rw [HeaderMap.getAll_insert, if_neg hne]
      · rfl

/-- The last deciding rule decides. -/
theorem getAll_applyProxySetHeaders (h : HeaderMap) (rules : List (HeaderName × Template))
    (ctx : RequestCtx) (name : String) (hlow : Text.toAsciiLowercase name = name) :
    (applyProxySetHeaders h rules ctx).getAll name =
      linesAfterRules rules ctx name (h.getAll name) := by
  -- From the last rule on: it decides, or the rules before it do.
  induction rules using List.reverseRecOn with
  | nil => rfl
  | append_singleton rules rule ih =>
      rw [applyProxySetHeaders, List.foldl_append, List.foldl_cons, List.foldl_nil,
        getAll_applySetHeader _ _ _ _ hlow]
      rw [applyProxySetHeaders] at ih
      rw [ih]
      simp only [linesAfterRules, List.filterMap_append]
      cases hrule : ruleDecides ctx name rule with
      | none => simp [hrule]
      | some lines => simp [hrule]

/-- Only the rules of the location change `content-length`. -/
theorem getAll_outboundHeaders_contentLength (h : HeaderMap) (rules : List (HeaderName × Template))
    (clientPeer : SocketAddr) (ctx : RequestCtx) :
    (outboundHeaders h rules clientPeer ctx).getAll "content-length" =
      linesAfterRules rules ctx "content-length" (h.getAll "content-length") := by
  rw [outboundHeaders, getAll_applyProxySetHeaders _ _ _ _ (by decide),
    getAll_addForwardingHeaders _ _ _ _ (by decide), stripHopByHop,
    getAll_foldl_remove _ _ _ (by decide)]

end Elrond.Proxy
