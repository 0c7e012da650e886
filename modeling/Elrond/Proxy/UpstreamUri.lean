import Elrond.Lib.Uri
import Elrond.Proxy.Framing

/-!
# The URI of a forwarded request

`forward_to_peer` writes the scheme, the address of the peer and the target of the client one after
the other and parses the text again. The `http` crate parses URIs as RFC 3986 says (`Rfc3986`): the
authority ends at the first `/`, `?` or `#`. A target that starts with one of these leaves the
address of the peer alone, and an absent one is written `/`. The asterisk of `OPTIONS *` starts
with neither and becomes part of the authority (`composed_iff`).
-/

set_option autoImplicit false

namespace Elrond.Proxy

open Elrond.Lib Elrond.Http Elrond.Request Elrond.Upstream

/-! ## Request targets -/

/-- The sub-delimiters of RFC 3986. -/
def isSubDelim (c : Char) : Bool := "!$&'()*+,;=".toList.contains c

/-- Every percent sign stands before two hexadecimal digits. -/
def wellEncoded : List Char → Bool
  | '%' :: h :: l :: rest =>
      (Uri.hexValue h).isSome && (Uri.hexValue l).isSome && wellEncoded rest
  | '%' :: _ => false
  | _ :: rest => wellEncoded rest
  | [] => true

/-- A character of a path or of a query. -/
def isPathQueryChar (c : Char) : Bool :=
  Uri.isUnreserved c || isSubDelim c || "%:@/?".toList.contains c

/-- A path and query, or a query alone. -/
def isPathAndQuery (s : String) : Bool :=
  (s.toList.head? == some '/' || s.toList.head? == some '?') && s.toList.all isPathQueryChar &&
    wellEncoded s.toList

/-- The targets HTTP admits. An absolute target without a path and a query has the path `/`. -/
inductive TargetForm : Uri → Prop where
  | origin (pq : String) (hpq : isPathAndQuery pq = true) (hpath : pq.toList.head? = some '/') :
      TargetForm ⟨none, none, some pq⟩
  | absolute (scheme : Scheme) (authority pq : String) (hpq : isPathAndQuery pq = true) :
      TargetForm ⟨some scheme, some authority, some pq⟩
  | asterisk : TargetForm ⟨none, none, some "*"⟩
  | authority (authority : String) : TargetForm ⟨none, some authority, none⟩

/-! ## Addresses and parsing -/

/-- A name, or an address in brackets. -/
def isHost (host : String) : Bool :=
  (!host.toList.isEmpty && host.toList.all fun c => Uri.isUnreserved c || isSubDelim c) ||
    match host.toList with
    | '[' :: rest =>
        rest.getLast? == some ']' && rest.dropLast.all fun c =>
          (Uri.hexValue c).isSome || c == ':' || c == '.'
    | _ => false

/-- The address of a peer: host and port. -/
def HostPort (addr : String) : Prop :=
  ∃ host port : String, addr = host ++ ":" ++ port ∧ isHost host = true ∧ port ≠ "" ∧
    port.toList.all Text.isAsciiDigit = true

/-- A character that ends an authority. -/
def endsAuthority (c : Char) : Bool := c == '/' || c == '?' || c == '#'

/-- The authority at the head of the text after `://`. -/
def authorityPart (rest : String) : String :=
  String.ofList (rest.toList.takeWhile fun c => !endsAuthority c)

/-- What is assumed of the URI parser: an authority ends where RFC 3986 says, and a host and port
with a path and query is parsed into these. -/
structure Rfc3986 (parseUri : String → Option Uri) : Prop where
  splits : ∀ (scheme : Scheme) (rest : String) (u : Uri),
    parseUri (scheme.asStr ++ "://" ++ rest) = some u → u.authority = some (authorityPart rest)
  accepts : ∀ (scheme : Scheme) (addr pq : String), HostPort addr → isPathAndQuery pq = true →
    ∃ u, parseUri (scheme.asStr ++ "://" ++ (addr ++ pq)) = some u ∧ u.authority = some addr ∧
      u.pathAndQuery = some pq

/-- The request for the peer goes to its address and asks for what the client asked for. -/
def Composed (addr : String) (client : Uri) (outbound : Option Request) : Prop :=
  ∃ q, outbound = some q ∧ q.uri.authority = some addr ∧
    q.uri.pathAndQuery = some (client.pathAndQuery.getD "/")

/-! ## Composition -/

/-- Text of a class of characters without the three does not end an authority. -/
theorem endsAuthority_of_all {q : Char → Bool} {cs : List Char} (h : cs.all q = true)
    (hq : (q '/' || q '?' || q '#') = false) : ∀ c ∈ cs, endsAuthority c = false := by
  intro c hc
  have hqc := List.all_eq_true.1 h c hc
  rw [← Bool.not_eq_true]
  intro hends
  simp only [endsAuthority, Bool.or_eq_true, beq_iff_eq] at hends
  rcases hends with (rfl | rfl) | rfl
  · simp [hqc] at hq
  · simp [hqc] at hq
  · simp [hqc] at hq

theorem endsAuthority_of_isHost {host : String} (h : isHost host = true) :
    ∀ c ∈ host.toList, endsAuthority c = false := by
  intro c hc
  rw [isHost, Bool.or_eq_true] at h
  rcases h with hname | hliteral
  · rw [Bool.and_eq_true] at hname
    exact endsAuthority_of_all hname.2 (by decide) c hc
  · split at hliteral
    · next rest hhost =>
      rw [Bool.and_eq_true, beq_iff_eq] at hliteral
      obtain ⟨init, hrest⟩ := List.getLast?_eq_some_iff.1 hliteral.1
      rw [hhost, hrest] at hc
      rw [hrest, List.dropLast_concat] at hliteral
      rcases List.mem_cons.1 hc with rfl | hc
      · decide
      · rcases List.mem_append.1 hc with hc | hc
        · exact endsAuthority_of_all hliteral.2 (by decide) c hc
        · rw [List.mem_singleton.1 hc]
          decide
    · cases hliteral

/-- No character of an address ends an authority. -/
theorem endsAuthority_of_hostPort {addr : String} (h : HostPort addr) :
    ∀ c ∈ addr.toList, endsAuthority c = false := by
  obtain ⟨host, port, rfl, hhost, -, hport⟩ := h
  intro c hc
  rw [String.toList_append, String.toList_append] at hc
  rcases List.mem_append.1 hc with hc | hc
  · rcases List.mem_append.1 hc with hc | hc
    · exact endsAuthority_of_isHost hhost c hc
    · rw [List.mem_singleton.1 hc]
      decide
  · exact endsAuthority_of_all hport (by decide) c hc

/-- The text that is parsed. -/
theorem upstreamUriText_eq (scheme : Scheme) (addr pq : String) :
    upstreamUriText scheme addr pq = scheme.asStr ++ "://" ++ (addr ++ pq) := by
  rw [upstreamUriText, String.append_assoc]

/-- What an asterisk after the address does to the authority. -/
theorem authorityPart_asterisk {addr : String} (h : HostPort addr) :
    authorityPart (addr ++ "*") = addr ++ "*" := by
  rw [authorityPart, List.takeWhile_eq_self_iff.2, String.ofList_toList]
  intro c hc
  rw [String.toList_append] at hc
  rcases List.mem_append.1 hc with hc | hc
  · rw [endsAuthority_of_hostPort h c hc]
    rfl
  · rw [List.mem_singleton.1 hc]
    decide

section Composition

variable {parseUri : String → Option Uri} {addr : String} {scheme : Scheme} {s : Settings}
variable {req : Request} {clientPeer : SocketAddr} {ctx : RequestCtx}

/-- A path and query keeps its distance from the address. -/
theorem composed_of_isPathAndQuery (hparse : Rfc3986 parseUri) (haddr : HostPort addr)
    (hpq : isPathAndQuery (req.uri.pathAndQuery.getD "/") = true) :
    Composed addr req.uri (outboundRequest parseUri addr scheme s req clientPeer ctx) := by
  obtain ⟨u, hu, hauthority, hpath⟩ := hparse.accepts scheme addr _ haddr hpq
  rw [← upstreamUriText_eq] at hu
  refine ⟨{ req with
    uri := u
    headers := outboundHeaders req.headers s.setHeaders clientPeer ctx }, ?_, hauthority, hpath⟩
  rw [outboundRequest, hu]
  rfl

/-- An asterisk does not. -/
theorem not_composed_of_asterisk (hparse : Rfc3986 parseUri) (haddr : HostPort addr)
    (hpq : req.uri.pathAndQuery = some "*") :
    ¬ Composed addr req.uri (outboundRequest parseUri addr scheme s req clientPeer ctx) := by
  rintro ⟨q, hq, hauthority, -⟩
  obtain ⟨u, hu, rfl⟩ := Option.map_eq_some_iff.1 hq
  rw [hpq, Option.getD_some, upstreamUriText_eq] at hu
  have hsplit := hparse.splits scheme (addr ++ "*") u hu
  rw [authorityPart_asterisk haddr] at hsplit
  have heq : addr ++ "*" = addr := Option.some.inj (hsplit.symm.trans hauthority)
  exact absurd (Text.append_eq_self heq) (by decide)

end Composition

/-- The request for a peer is composed as it should be, for every form of target but the
asterisk. -/
theorem composed_iff (parseUri : String → Option Uri) (hparse : Rfc3986 parseUri) (addr : String)
    (haddr : HostPort addr) (scheme : Scheme) (s : Settings) (req : Request)
    (hform : TargetForm req.uri) (clientPeer : SocketAddr) (ctx : RequestCtx) :
    Composed addr req.uri (outboundRequest parseUri addr scheme s req clientPeer ctx) ↔
      req.uri ≠ ⟨none, none, some "*"⟩ := by
  obtain ⟨method, uri, version, headers, body⟩ := req
  cases hform with
  | origin pq hpq hpath =>
      apply iff_of_true
      · exact composed_of_isPathAndQuery hparse haddr hpq
      · rintro heq
        obtain rfl := Option.some.inj (congrArg Uri.pathAndQuery heq)
        exact absurd hpath (by decide)
  | absolute targetScheme authority pq hpq =>
      apply iff_of_true
      · exact composed_of_isPathAndQuery hparse haddr hpq
      · intro heq
        exact absurd (congrArg Uri.scheme heq) (by simp)
  | asterisk =>
      apply iff_of_false
      · exact not_composed_of_asterisk hparse haddr rfl
      · exact fun h => h rfl
  | authority authority =>
      apply iff_of_true
      · exact composed_of_isPathAndQuery hparse haddr (by decide : isPathAndQuery "/" = true)
      · intro heq
        exact absurd (congrArg Uri.authority heq) (by simp)

/-! ## A parser -/

/-- The path and query after the authority, up to a fragment. -/
def pathPart (rest : String) : String :=
  String.ofList ((rest.toList.dropWhile fun c => !endsAuthority c).takeWhile (· != '#'))

/-- The parts of a URI after its scheme. -/
def splitParts (scheme : Scheme) (rest : String) : Uri :=
  ⟨some scheme, some (authorityPart rest),
    some (if pathPart rest = "" then "/" else pathPart rest)⟩

/-- A parser that takes a URI apart and checks nothing else. -/
def splitUri (text : String) : Option Uri :=
  match Text.stripPrefix "http://" text with
  | some rest => some (splitParts .http rest)
  | none => (Text.stripPrefix "https://" text).map (splitParts .https)

theorem splitUri_eq (scheme : Scheme) (rest : String) :
    splitUri (scheme.asStr ++ "://" ++ rest) = some (splitParts scheme rest) := by
  cases scheme with
  | http =>
      rw [show Scheme.http.asStr ++ "://" = "http://" from by decide, splitUri,
        Text.stripPrefix_append]
  | https =>
      rw [show Scheme.https.asStr ++ "://" = "https://" from by decide, splitUri,
        Text.stripPrefix_append]
      have hother : Text.stripPrefix "http://" ("https://" ++ rest) = none := by
        rw [Text.stripPrefix, String.toList_append]
        rfl
      rw [hother]
      rfl

/-- The parts of a URI whose authority is an address and whose path and query is well formed. -/
theorem splitParts_eq {addr pq : String} (haddr : HostPort addr)
    (hpq : isPathAndQuery pq = true) :
    authorityPart (addr ++ pq) = addr ∧ pathPart (addr ++ pq) = pq := by
  simp only [isPathAndQuery, Bool.and_eq_true, Bool.or_eq_true, beq_iff_eq] at hpq
  obtain ⟨⟨hhead, hchars⟩, -⟩ := hpq
  have hpass : ∀ c ∈ addr.toList, (!endsAuthority c) = true := by
    intro c hc
    rw [endsAuthority_of_hostPort haddr c hc]
    rfl
  -- the target starts with a character that ends the authority
  have hstop : ∃ c cs, pq.toList = c :: cs ∧ endsAuthority c = true := by
    rcases hhead with hhead | hhead
    · obtain ⟨cs, hcs⟩ := List.head?_eq_some_iff.1 hhead
      exact ⟨'/', cs, hcs, by decide⟩
    · obtain ⟨cs, hcs⟩ := List.head?_eq_some_iff.1 hhead
      exact ⟨'?', cs, hcs, by decide⟩
  obtain ⟨c, cs, hcs, hends⟩ := hstop
  have hnot : ¬ (!endsAuthority c) = true := by simp [hends]
  constructor
  · rw [authorityPart, String.toList_append, List.takeWhile_append_of_pos hpass, hcs,
      List.takeWhile_cons_of_neg (p := fun c => !endsAuthority c) hnot, List.append_nil,
      String.ofList_toList]
  · have hhash : ∀ d ∈ pq.toList, (d != '#') = true := by
      intro d hd
      rw [bne_iff_ne]
      rintro rfl
      exact absurd (List.all_eq_true.1 hchars '#' hd) (by decide)
    rw [pathPart, String.toList_append, List.dropWhile_append_of_pos hpass, hcs,
      List.dropWhile_cons_of_neg (p := fun c => !endsAuthority c) hnot, ← hcs,
      List.takeWhile_eq_self_iff.2 hhash, String.ofList_toList]

theorem rfc3986_splitUri : Rfc3986 splitUri where
  splits := by
    intro scheme rest u hu
    rw [splitUri_eq] at hu
    obtain rfl := Option.some.inj hu
    rfl
  accepts := by
    intro scheme addr pq haddr hpq
    obtain ⟨hauthority, hpath⟩ := splitParts_eq haddr hpq
    refine ⟨splitParts scheme (addr ++ pq), splitUri_eq scheme (addr ++ pq), ?_, ?_⟩
    · rw [splitParts, hauthority]
    · have hne : pq ≠ "" := by
        rintro rfl
        exact absurd hpq (by decide)
      rw [splitParts, hpath, if_neg hne]

/-- A peer. -/
def peerAddr : String := "10.0.0.1:8080"

theorem hostPort_peerAddr : HostPort peerAddr :=
  ⟨"10.0.0.1", "8080", by decide, by decide, by decide, by decide⟩

/-- A request for a target. -/
def targetRequest (method : Method) (uri : Uri) : Request :=
  ⟨method, uri, .http11, ∅, emptyBody⟩

/-- An ordinary target is composed with the address. -/
theorem composed_iff_search :
    Composed peerAddr ⟨none, none, some "/search?q=%2F"⟩
      (outboundRequest splitUri peerAddr .http plainSettings
        (targetRequest .get ⟨none, none, some "/search?q=%2F"⟩) plainCtx.peer plainCtx) :=
  (composed_iff splitUri rfc3986_splitUri peerAddr hostPort_peerAddr .http plainSettings
    (targetRequest .get ⟨none, none, some "/search?q=%2F"⟩) (.origin _ (by decide) (by decide))
    plainCtx.peer plainCtx).2 (by decide)

/-- The asterisk of `OPTIONS *` ends up in the authority. -/
theorem asterisk_joins_authority :
    ¬ Composed peerAddr ⟨none, none, some "*"⟩
      (outboundRequest splitUri peerAddr .http plainSettings
        (targetRequest .options ⟨none, none, some "*"⟩) plainCtx.peer plainCtx) := by
  rintro ⟨q, hq, hauthority, -⟩
  obtain rfl := Option.some.inj hq
  exact absurd hauthority (by decide)

end Elrond.Proxy
