import Elrond.Request.Template

/-!
# The default cache key

A location with `proxy_cache` and no `proxy_cache_key` keys its entries by the template
`$scheme$host$request_uri`. The three parts are written one after the other with nothing between
them, and `$host` is the client's `Host` header as sent. Two requests therefore get the same key
exactly when their parts agree or differ by text moved over a boundary:
`default_key_separates_iff` gives the two shapes of collision, and
`default_key_separates_of_originForm` the ordinary case in which there is none.
-/

set_option autoImplicit false

namespace Elrond.Cache

open Elrond.Lib Elrond.Http Elrond.Request

/-- The template `app::build` falls back to. -/
def defaultKeyTemplate : Template := Template.parse "$scheme$host$request_uri"

/-- The key template of a caching location. -/
def keyTemplate (proxyCacheKey : Option Template) : Template :=
  proxyCacheKey.getD defaultKeyTemplate

theorem defaultKeyTemplate_segments :
    defaultKeyTemplate.segments = [.var .scheme, .var .host, .var .requestUri] := by
  decide

/-- The default key is the concatenation of its three parts. -/
theorem defaultKeyTemplate_render (r : RequestCtx) :
    defaultKeyTemplate.render r = r.scheme.asStr ++ (r.host ++ r.requestUri) := by
  rw [Template.render, defaultKeyTemplate_segments]
  simp [Segment.render, VarRef.render, String.append_assoc]

/-- Equal default keys come from equal scheme, host and target. -/
def KeySeparates (r s : RequestCtx) : Prop :=
  defaultKeyTemplate.render r = defaultKeyTemplate.render s →
    r.scheme = s.scheme ∧ r.host = s.host ∧ r.requestUri = s.requestUri

/-- The host `h'` is `h` followed by the piece `x`, and the target `u` starts with that piece and
goes on with `u'`: `x` has moved from the target to the host. -/
def Moved (x h u h' u' : String) : Prop := h' = h ++ x ∧ u = x ++ u'

/-- Two requests of one scheme, one host being the other continued by a non-empty start of the
other's target. -/
def HostTakesTarget (r s : RequestCtx) : Prop :=
  r.scheme = s.scheme ∧ ∃ x, x ≠ "" ∧ Moved x r.host r.requestUri s.host s.requestUri

/-- A plain request and a TLS request, the plain host being `s` followed by the TLS host, up to a
piece moved between host and target. -/
def HostTakesScheme (r s : RequestCtx) : Prop :=
  r.scheme = .http ∧ s.scheme = .https ∧
    ∃ x, Moved x r.host r.requestUri ("s" ++ s.host) s.requestUri ∨
      Moved x ("s" ++ s.host) s.requestUri r.host r.requestUri

/-- No text can move over a boundary of the two keys. -/
def BoundariesClear (r s : RequestCtx) : Prop :=
  ¬ HostTakesTarget r s ∧ ¬ HostTakesTarget s r ∧ ¬ HostTakesScheme r s ∧ ¬ HostTakesScheme s r

theorem key_eq_of_hostTakesTarget {r s : RequestCtx} (h : HostTakesTarget r s) :
    defaultKeyTemplate.render r = defaultKeyTemplate.render s := by
  obtain ⟨hscheme, x, -, hhost, huri⟩ := h
  rw [defaultKeyTemplate_render, defaultKeyTemplate_render, hscheme, hhost, huri,
    String.append_assoc]

theorem key_eq_of_hostTakesScheme {r s : RequestCtx} (h : HostTakesScheme r s) :
    defaultKeyTemplate.render r = defaultKeyTemplate.render s := by
  obtain ⟨hr, hs, x, hx⟩ := h
  have hsplit : r.host ++ r.requestUri = "s" ++ (s.host ++ s.requestUri) := by
    rcases hx with ⟨hhost, huri⟩ | ⟨hhost, huri⟩
    · rw [huri, ← String.append_assoc, ← hhost, String.append_assoc]
    · rw [hhost, huri, String.append_assoc, String.append_assoc]
  rw [defaultKeyTemplate_render, defaultKeyTemplate_render, hr, hs, hsplit]
  show "http" ++ ("s" ++ (s.host ++ s.requestUri)) = "https" ++ (s.host ++ s.requestUri)
  rw [← String.append_assoc]
  rfl

theorem ne_of_hostTakesTarget {r s : RequestCtx} (h : HostTakesTarget r s) : r.host ≠ s.host := by
  obtain ⟨-, x, hx, hhost, -⟩ := h
  intro heq
  rw [heq] at hhost
  exact hx (Text.append_eq_self hhost.symm)

/-- Equal keys of one scheme: the parts agree, or one host takes from the other's target. -/
theorem parts_of_key_eq_same {r s : RequestCtx} (hscheme : r.scheme = s.scheme)
    (h : defaultKeyTemplate.render r = defaultKeyTemplate.render s) :
    (r.host = s.host ∧ r.requestUri = s.requestUri) ∨ HostTakesTarget r s ∨
      HostTakesTarget s r := by
  rw [defaultKeyTemplate_render, defaultKeyTemplate_render, hscheme] at h
  -- The two splits of one text differ by a piece `x`; an empty piece is no difference.
  rcases Text.append_eq_append_cases (Text.append_left_cancel h) with
    ⟨x, hhost, huri⟩ | ⟨x, hhost, huri⟩
  · by_cases hx : x = ""
    · subst hx
      exact Or.inl ⟨by simpa using hhost.symm, by simpa using huri⟩
    · exact Or.inr (Or.inl ⟨hscheme, x, hx, hhost, huri⟩)
  · by_cases hx : x = ""
    · subst hx
      exact Or.inl ⟨by simpa using hhost, by simpa using huri.symm⟩
    · exact Or.inr (Or.inr ⟨hscheme.symm, x, hx, hhost, huri⟩)

/-- Equal keys of a plain and a TLS request: the plain host has taken the last letter of the TLS
scheme. -/
theorem hostTakesScheme_of_key_eq {r s : RequestCtx} (hr : r.scheme = .http)
    (hs : s.scheme = .https)
    (h : defaultKeyTemplate.render r = defaultKeyTemplate.render s) : HostTakesScheme r s := by
  rw [defaultKeyTemplate_render, defaultKeyTemplate_render, hr, hs] at h
  have hcancel : r.host ++ r.requestUri = ("s" ++ s.host) ++ s.requestUri := by
    apply Text.append_left_cancel (a := "http")
    calc "http" ++ (r.host ++ r.requestUri)
        = "https" ++ (s.host ++ s.requestUri) := h
      _ = ("http" ++ "s") ++ (s.host ++ s.requestUri) := rfl
      _ = "http" ++ (("s" ++ s.host) ++ s.requestUri) := by
          rw [String.append_assoc, String.append_assoc]
  refine ⟨hr, hs, ?_⟩
  rcases Text.append_eq_append_cases hcancel with ⟨x, hhost, huri⟩ | ⟨x, hhost, huri⟩
  · exact ⟨x, Or.inl ⟨hhost, huri⟩⟩
  · exact ⟨x, Or.inr ⟨hhost, huri⟩⟩

/-- **When the default key separates two requests.** Equal keys imply equal scheme, host and
target exactly if no text can move over a boundary: neither from a target to a host of the same
scheme, nor from the scheme `https` to a host behind `http`. -/
theorem default_key_separates_iff (r s : RequestCtx) :
    KeySeparates r s ↔ BoundariesClear r s := by
  constructor
  · intro h
    refine ⟨?_, ?_, ?_, ?_⟩
    · intro ht
      exact ne_of_hostTakesTarget ht (h (key_eq_of_hostTakesTarget ht)).2.1
    · intro ht
      exact ne_of_hostTakesTarget ht (h (key_eq_of_hostTakesTarget ht).symm).2.1.symm
    · intro ht
      have heq := (h (key_eq_of_hostTakesScheme ht)).1
      rw [ht.1, ht.2.1] at heq
      exact Scheme.noConfusion heq
    · intro ht
      have heq := (h (key_eq_of_hostTakesScheme ht).symm).1
      rw [ht.1, ht.2.1] at heq
      exact Scheme.noConfusion heq
  -- Equal keys leave no other way to differ than the four that are excluded.
  · rintro ⟨hrs, hsr, hp, hq⟩ hkey
    cases hr : r.scheme with
    | http =>
        cases hs : s.scheme with
        | http =>
            rcases parts_of_key_eq_same (hr.trans hs.symm) hkey with h | h | h
            · exact ⟨rfl, h⟩
            · exact absurd h hrs
            · exact absurd h hsr
        | https => exact absurd (hostTakesScheme_of_key_eq hr hs hkey) hp
    | https =>
        cases hs : s.scheme with
        | http => exact absurd (hostTakesScheme_of_key_eq hs hr hkey.symm) hq
        | https =>
            rcases parts_of_key_eq_same (hr.trans hs.symm) hkey with h | h | h
            · exact ⟨rfl, h⟩
            · exact absurd h hrs
            · exact absurd h hsr

/-- A `GET` as the context of its key: listener scheme, `Host` line, origin-form target. -/
def getContext (scheme : Scheme) (host : HeaderValue) (target : String) : RequestCtx where
  peer := ⟨.v4 ⟨192, 0, 2, 1⟩, 40000, 0⟩
  serverName := none
  method := .get
  uri := ⟨none, none, some target⟩
  headers := ⟨[(⟨"host", by decide⟩, host)]⟩
  scheme := scheme
  userVars := ∅

/-- A plain request for `shop.test` and a TLS request for `hop.test` have one key, and so have
`Host: a/b` with target `/c` and `Host: a` with target `/b/c`. -/
theorem default_key_collides :
    ¬ KeySeparates
        (getContext .http ⟨Text.utf8Bytes "shop.test", by decide⟩ "/")
        (getContext .https ⟨Text.utf8Bytes "hop.test", by decide⟩ "/") ∧
      ¬ KeySeparates
        (getContext .http ⟨Text.utf8Bytes "a/b", by decide⟩ "/c")
        (getContext .http ⟨Text.utf8Bytes "a", by decide⟩ "/b/c") := by
  refine ⟨fun h => ?_, fun h => ?_⟩
  · exact absurd (h (by decide)).1 (by decide)
  · exact absurd (h (by decide)).2.1 (by decide)

/-- Origin-form targets behind hosts without a slash keep requests of one scheme apart. -/
theorem default_key_separates_of_originForm {r s : RequestCtx} (hscheme : r.scheme = s.scheme)
    (hr : '/' ∉ r.host.toList) (hs : '/' ∉ s.host.toList) {p q : List Char}
    (hp : r.requestUri.toList = '/' :: p) (hq : s.requestUri.toList = '/' :: q) :
    KeySeparates r s := by
  intro hkey
  rw [defaultKeyTemplate_render, defaultKeyTemplate_render, hscheme] at hkey
  have hcancel := congrArg String.toList (Text.append_left_cancel hkey)
  rw [String.toList_append, String.toList_append, hp, hq] at hcancel
  obtain ⟨hhost, hrest⟩ := Text.append_cons_inj_of_notMem hr hs hcancel
  refine ⟨hscheme, String.toList_inj.1 hhost, String.toList_inj.1 ?_⟩
  rw [hp, hq, hrest]

end Elrond.Cache
