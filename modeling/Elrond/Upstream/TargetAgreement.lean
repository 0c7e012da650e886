import Elrond.Request.Substitution
import Elrond.Upstream.Target

/-!
# Fixed and rendered targets

`resolve_proxy` strips a scheme and then the slashes at the end; `ProxyTarget::resolve` strips
`http://`, then the slashes, and only then looks for a scheme again. `target_agreement_iff` says for
which texts the two come to the same: not for `https://` without a host, where the slashes of the
scheme are stripped as well, and not for a target with a further scheme behind `http://`.
-/

set_option autoImplicit false

namespace Elrond.Upstream

open Elrond.Lib Elrond.Http Elrond.Config Elrond.Request

/-! ## What agreement means -/

/-- The text without its scheme and its trailing slashes. -/
def targetHost (t : String) : String := Text.trimEndMatches '/' (splitScheme t).2

/-- The same scheme and the same addresses. -/
def SameService (b b' : Balancer) : Prop :=
  b.scheme = b'.scheme ∧ b.peers.map Peer.addr = b'.peers.map Peer.addr

/-- A rendered target resolves to nothing if there is no host, and else to what the same text
resolves to as a fixed target. -/
def AgreesWithFixed (table : HashMap String Balancer) (t : String) (resolved : Option Balancer) :
    Prop :=
  (targetHost t = "" → resolved = none) ∧
    (targetHost t ≠ "" → ∃ b, resolved = some b ∧ SameService b (resolveProxy t table))

/-- In every table and after any earlier requests, a target that is rendered to the text agrees with
the fixed target. -/
def AlwaysAgrees (t : String) : Prop :=
  ∀ (table : HashMap String Balancer) (template : Template) (earlier : List RequestCtx)
    (ctx : RequestCtx), template.render ctx = t →
    AgreesWithFixed table t
      ((ProxyTarget.dynamic template table).resolve
        (ephemeralAfter (.dynamic template table) earlier) ctx).1

/-- `https://` and nothing but slashes. -/
def BareHttps (t : String) : Prop :=
  ∃ rest, t = "https://" ++ rest ∧ Text.trimEndMatches '/' rest = ""

/-- `http://`, a further scheme, and a host. -/
def TwoSchemes (t : String) : Prop :=
  ∃ scheme rest, (scheme = "http://" ∨ scheme = "https://") ∧ t = "http://" ++ (scheme ++ rest) ∧
    Text.trimEndMatches '/' rest ≠ ""

/-! ## Slashes at the end -/

/-- What is trimmed off is slashes. -/
theorem trimEndMatches_split (c : Char) (s : String) :
    ∃ tail, s = Text.trimEndMatches c s ++ tail ∧ Text.trimEndMatches c tail = "" := by
  refine ⟨String.ofList (s.toList.rtakeWhile (· == c)), ?_, ?_⟩
  · rw [← String.toList_inj, String.toList_append, Text.trimEndMatches, String.toList_ofList,
      String.toList_ofList, List.rdropWhile, List.rtakeWhile, ← List.reverse_append,
      List.takeWhile_append_dropWhile, List.reverse_reverse]
  · rw [← String.toList_inj, Text.trimEndMatches, String.toList_ofList, String.toList_ofList,
      String.toList_empty, List.rdropWhile_eq_nil_iff]
    intro d hd
    rw [List.rtakeWhile, List.mem_reverse] at hd
    exact (List.all_eq_true.1 List.all_takeWhile) d hd

/-- A prefix that loses something when it is trimmed is found in a trimmed text only with something
behind it. -/
theorem stripPrefix_trimEndMatches {c : Char} {p r : String} (hp : Text.trimEndMatches c p ≠ p)
    (h : ∀ rest, r = p ++ rest → Text.trimEndMatches c rest = "") :
    Text.stripPrefix p (Text.trimEndMatches c r) = none := by
  rw [Text.stripPrefix_eq_none]
  intro x hx
  obtain ⟨tail, hr, htail⟩ := trimEndMatches_split c r
  have hempty : Text.trimEndMatches c (x ++ tail) = "" := by
    apply h
    rw [hr, hx, String.append_assoc]
  rw [Text.trimEndMatches_append, if_pos htail] at hempty
  -- then trimming would have gone on into the prefix
  have hagain := Text.trimEndMatches_trimEndMatches c r
  rw [hx, Text.trimEndMatches_append, if_pos hempty] at hagain
  have hlen := congrArg (fun s : String => s.toList.length) hagain
  have hshort : (Text.trimEndMatches c p).toList.length ≤ p.toList.length := by
    rw [Text.trimEndMatches, String.toList_ofList]
    exact (List.rdropWhile_prefix _ _).length_le
  simp only [String.toList_append, List.length_append] at hlen
  have hx0 : x.toList = [] := List.length_eq_zero_iff.1 (by omega)
  have hxe : x = "" := String.toList_inj.1 hx0
  rw [hxe, String.append_empty] at hagain
  exact hp hagain

theorem trim_http : Text.trimEndMatches '/' "http://" ≠ "http://" := by decide

theorem trim_https : Text.trimEndMatches '/' "https://" ≠ "https://" := by decide

/-! ## The two ways to read a target -/

/-- A text that carries no scheme any more is looked up and contacted as it is. -/
theorem plain_host {host : String} (hhttp : Text.stripPrefix "http://" host = none)
    (hhttps : Text.stripPrefix "https://" host = none) :
    bareHost host = Text.trimEndMatches '/' host ∧
      ephemeralBalancer host = directBalancer .http host := by
  constructor
  · rw [bareHost, hhttp, hhttps]
    rfl
  · rw [ephemeralBalancer, hhttps, hhttp]

theorem stripPrefix_https_http (rest : String) :
    Text.stripPrefix "https://" ("http://" ++ rest) = none := by
  rw [Text.stripPrefix_eq_none]
  intro t h
  exact http_append_ne_https rest t h

theorem splitScheme_http (rest : String) : splitScheme ("http://" ++ rest) = (.http, rest) := by
  rw [splitScheme, stripPrefix_https_http, Text.stripPrefix_append]

/-- The entry of a table for a host, or the host itself. -/
def entryFor (table : HashMap String Balancer) (scheme : Scheme) (host : String) : Balancer :=
  (table.lookup host).getD (directBalancer scheme host)

theorem resolveProxy_eq (t : String) (table : HashMap String Balancer) :
    resolveProxy t table = entryFor table (splitScheme t).1 (targetHost t) := by
  rw [resolveProxy, entryFor, targetHost]
  obtain ⟨scheme, rest⟩ := splitScheme t
  simp only
  cases table.lookup (Text.trimEndMatches '/' rest) with
  | none => rfl
  | some b => rfl

variable {table ephemeral : HashMap String Balancer}

theorem resolveRendered_none {t : String} (h : dynamicHost t = "") :
    (resolveRendered table ephemeral t).1 = none := by
  rw [resolveRendered]
  exact congrArg Prod.fst (if_pos h)

/-- A host without a scheme, found by both. -/
theorem agrees_of_plain_host (hwf : EphemeralWf ephemeral) {t : String}
    (hhost : dynamicHost t = targetHost t) (hscheme : (splitScheme t).1 = .http)
    (hhttp : Text.stripPrefix "http://" (targetHost t) = none)
    (hhttps : Text.stripPrefix "https://" (targetHost t) = none) :
    AgreesWithFixed table t (resolveRendered table ephemeral t).1 := by
  constructor
  · intro hempty
    exact resolveRendered_none (hhost.trans hempty)
  · intro hne
    -- without a scheme left in it, the host is looked up and connected to as it stands
    obtain ⟨hbare, hdirect⟩ := plain_host hhttp hhttps
    have htrim : Text.trimEndMatches '/' (targetHost t) = targetHost t :=
      Text.trimEndMatches_trimEndMatches '/' _
    refine ⟨entryFor table .http (targetHost t), ?_, ?_⟩
    · rw [resolveRendered_fst hwf (by rw [hhost]; exact hne), hhost, hbare, htrim, hdirect]
      rfl
    · rw [resolveProxy_eq, hscheme]
      exact ⟨rfl, rfl⟩

theorem agrees_http (hwf : EphemeralWf ephemeral) (rest : String)
    (h : ¬ TwoSchemes ("http://" ++ rest)) :
    AgreesWithFixed table ("http://" ++ rest)
      (resolveRendered table ephemeral ("http://" ++ rest)).1 := by
  have hempty : ∀ scheme, (scheme = "http://" ∨ scheme = "https://") → ∀ after,
      rest = scheme ++ after → Text.trimEndMatches '/' after = "" := by
    intro scheme hscheme after hafter
    by_contra hne
    exact h ⟨scheme, after, hscheme, by rw [hafter], hne⟩
  have htarget : targetHost ("http://" ++ rest) = Text.trimEndMatches '/' rest := by
    rw [targetHost, splitScheme_http]
  refine agrees_of_plain_host hwf ?_ ?_ ?_ ?_
  · rw [htarget, dynamicHost, Text.stripPrefix_append, Option.getD_some]
  · rw [splitScheme_http]
  · rw [htarget]
    exact stripPrefix_trimEndMatches trim_http (hempty "http://" (Or.inl rfl))
  · rw [htarget]
    exact stripPrefix_trimEndMatches trim_https (hempty "https://" (Or.inr rfl))

theorem agrees_https (hwf : EphemeralWf ephemeral) (rest : String)
    (h : ¬ BareHttps ("https://" ++ rest)) :
    AgreesWithFixed table ("https://" ++ rest)
      (resolveRendered table ephemeral ("https://" ++ rest)).1 := by
  have hne : Text.trimEndMatches '/' rest ≠ "" := fun hempty => h ⟨rest, rfl, hempty⟩
  have htarget : targetHost ("https://" ++ rest) = Text.trimEndMatches '/' rest := by
    rw [targetHost, splitScheme_https]
  have hdyn := dynamicHost_https hne
  -- the key keeps its scheme, so it is never empty
  have hne' : dynamicHost ("https://" ++ rest) ≠ "" := by
    rw [hdyn]
    intro hempty
    have hlen := congrArg (fun s : String => s.toList.length) hempty
    simp at hlen
  rw [AgreesWithFixed, htarget]
  refine ⟨fun hempty => absurd hempty hne, fun _ => ?_⟩
  refine ⟨entryFor table .https (Text.trimEndMatches '/' rest), ?_, ?_⟩
  · rw [resolveRendered_fst hwf hne', hdyn, bareHost_https, Text.trimEndMatches_trimEndMatches,
      ephemeralBalancer, Text.stripPrefix_append]
    simp only [Text.trimEndMatches_trimEndMatches]
    rfl
  · rw [resolveProxy_eq, htarget, splitScheme_https]
    exact ⟨rfl, rfl⟩

theorem agrees_without_scheme (hwf : EphemeralWf ephemeral) {t : String}
    (hhttp : Text.stripPrefix "http://" t = none) (hhttps : Text.stripPrefix "https://" t = none) :
    AgreesWithFixed table t (resolveRendered table ephemeral t).1 := by
  have hsplit : splitScheme t = (.http, t) := by rw [splitScheme, hhttps, hhttp]
  have htarget : targetHost t = Text.trimEndMatches '/' t := by rw [targetHost, hsplit]
  refine agrees_of_plain_host hwf ?_ ?_ ?_ ?_
  · rw [htarget, dynamicHost, hhttp, Option.getD_none]
  · rw [hsplit]
  · rw [htarget]
    apply stripPrefix_trimEndMatches trim_http
    intro rest heq
    exact absurd heq (Text.stripPrefix_eq_none.1 hhttp rest)
  · rw [htarget]
    apply stripPrefix_trimEndMatches trim_https
    intro rest heq
    exact absurd heq (Text.stripPrefix_eq_none.1 hhttps rest)

/-! ## Where they part -/

theorem disagrees_bareHttps (hwf : EphemeralWf ephemeral) {t : String} (h : BareHttps t) :
    ¬ AgreesWithFixed table t (resolveRendered table ephemeral t).1 := by
  obtain ⟨rest, rfl, hempty⟩ := h
  have htarget : targetHost ("https://" ++ rest) = "" := by
    rw [targetHost, splitScheme_https]
    exact hempty
  have hdyn := dynamicHost_https_empty hempty
  have hne : dynamicHost ("https://" ++ rest) ≠ "" := by
    rw [hdyn]
    decide
  rintro ⟨hnone, -⟩
  have hnone := hnone htarget
  rw [resolveRendered_fst hwf hne] at hnone
  cases hnone

/-- With no named upstreams, the address of a target with two schemes is not the same. -/
theorem disagrees_twoSchemes (hwf : EphemeralWf ephemeral) {t : String} (h : TwoSchemes t) :
    ¬ AgreesWithFixed ∅ t (resolveRendered ∅ ephemeral t).1 := by
  obtain ⟨scheme, rest, hscheme, rfl, hne⟩ := h
  have htrim : Text.trimEndMatches '/' (scheme ++ rest) =
      scheme ++ Text.trimEndMatches '/' rest := by
    rw [Text.trimEndMatches_append, if_neg hne]
  have hlong : scheme ++ Text.trimEndMatches '/' rest ≠ "" := by
    intro hempty
    have hlen := congrArg (fun s : String => s.toList.length) hempty
    rcases hscheme with rfl | rfl
    · simp at hlen
    · simp at hlen
  have htarget : targetHost ("http://" ++ (scheme ++ rest)) =
      scheme ++ Text.trimEndMatches '/' rest := by
    rw [targetHost, splitScheme_http, htrim]
  have hdyn : dynamicHost ("http://" ++ (scheme ++ rest)) =
      scheme ++ Text.trimEndMatches '/' rest := by
    rw [dynamicHost, Text.stripPrefix_append, Option.getD_some, htrim]
  have haddr : (ephemeralBalancer (scheme ++ Text.trimEndMatches '/' rest)).peers.map Peer.addr =
      [Text.trimEndMatches '/' rest] := by
    have hagain := Text.trimEndMatches_trimEndMatches '/' rest
    rcases hscheme with rfl | rfl
    · rw [ephemeralBalancer, stripPrefix_https_http, Text.stripPrefix_append]
      simp [directBalancer, hagain]
    · rw [ephemeralBalancer, Text.stripPrefix_append]
      simp [directBalancer, hagain]
  rintro ⟨-, hsome⟩
  obtain ⟨b, hb, -, haddrs⟩ := hsome (by rw [htarget]; exact hlong)
  rw [resolveRendered_fst hwf (by rw [hdyn]; exact hlong), hdyn] at hb
  obtain rfl := Option.some.inj hb
  rw [resolveProxy_eq, entryFor, htarget, AList.lookup_empty, AList.lookup_empty, Option.getD_none,
    Option.getD_none, haddr] at haddrs
  -- one address is the other one behind a scheme
  have heq : Text.trimEndMatches '/' rest = scheme ++ Text.trimEndMatches '/' rest := by
    simpa [directBalancer] using haddrs
  have hlen := congrArg (fun s : String => s.toList.length) heq
  rw [String.toList_append, List.length_append] at hlen
  rcases hscheme with rfl | rfl
  · exact absurd hlen (by simp)
  · exact absurd hlen (by simp)

/-! ## The result -/

/-- The template `$v`. -/
def variableTemplate : Template := Template.parse "$v"

/-- A request in which the variable is the text. -/
def requestWith (t : String) : RequestCtx :=
  { bareRequest with userVars := (∅ : HashMap String String).insert "v" t }

theorem render_variableTemplate (t : String) : variableTemplate.render (requestWith t) = t := by
  have hparse : variableTemplate.segments = [.var (.unknown "v")] := by decide
  have hlookup : (requestWith t).userVar "v" = some t := by
    rw [RequestCtx.userVar, requestWith, HashMap.lookup_insert_eq, if_pos rfl]
  rw [Template.render, hparse, List.foldl_cons, List.foldl_nil, Segment.render, VarRef.render,
    hlookup, Option.getD_some, String.empty_append]

/-- A text that fails in one table fails to agree always. -/
theorem not_alwaysAgrees {t : String} (table : HashMap String Balancer)
    (h : ∀ ephemeral, EphemeralWf ephemeral →
      ¬ AgreesWithFixed table t (resolveRendered table ephemeral t).1) : ¬ AlwaysAgrees t := by
  intro hagrees
  have hwf := ephemeralAfter_wf (.dynamic variableTemplate table) []
  have hresolved := hagrees table variableTemplate [] (requestWith t) (render_variableTemplate t)
  generalize ephemeralAfter (.dynamic variableTemplate table) [] = ephemeral at hwf hresolved
  rw [ProxyTarget.resolve, render_variableTemplate] at hresolved
  exact h ephemeral hwf hresolved

/-- **Fixed and rendered targets.** A target rendered to a text agrees with the fixed target of that
text, in every table and after any requests, exactly if the text is not `https://` with nothing but
slashes, and not `http://` with a further scheme and a host. -/
theorem target_agreement_iff (t : String) :
    AlwaysAgrees t ↔ ¬ BareHttps t ∧ ¬ TwoSchemes t := by
  constructor
  · intro hagrees
    constructor
    · intro hbare
      exact not_alwaysAgrees ∅ (fun _ hwf => disagrees_bareHttps hwf hbare) hagrees
    · intro htwo
      exact not_alwaysAgrees ∅ (fun _ hwf => disagrees_twoSchemes hwf htwo) hagrees
  · rintro ⟨hbare, htwo⟩ table template earlier ctx rfl
    have hwf := ephemeralAfter_wf (.dynamic template table) earlier
    generalize ephemeralAfter (.dynamic template table) earlier = ephemeral at hwf ⊢
    rw [ProxyTarget.resolve]
    generalize template.render ctx = t at hbare htwo ⊢
    -- the scheme the rendered target starts with decides which of the three cases it is
    cases hhttp : Text.stripPrefix "http://" t with
    | some rest =>
        have htext := Text.stripPrefix_eq_some.1 hhttp
        rw [htext] at htwo ⊢
        exact agrees_http hwf rest htwo
    | none =>
        cases hhttps : Text.stripPrefix "https://" t with
        | some rest =>
            have htext := Text.stripPrefix_eq_some.1 hhttps
            rw [htext] at hbare ⊢
            exact agrees_https hwf rest hbare
        | none => exact agrees_without_scheme hwf hhttp hhttps

/-- A rendered `https://` without a host is taken for a host named `https:`, and of two schemes in a
row the second one counts. -/
theorem rendered_target_differs :
    ¬ AlwaysAgrees "https://" ∧ ¬ AlwaysAgrees "http://https://10.0.0.1:8443" := by
  constructor
  · exact not_alwaysAgrees ∅ fun _ hwf => disagrees_bareHttps hwf ⟨"", by decide, by decide⟩
  · refine not_alwaysAgrees ∅ fun _ hwf => disagrees_twoSchemes hwf ?_
    exact ⟨"https://", "10.0.0.1:8443", Or.inr rfl, by decide, by decide⟩

end Elrond.Upstream
