import Elrond.Lib.Uri
import Elrond.Server.Gates

/-!
# Locations and spellings of a path

`route` tests the path of a request as it is written: exact locations compare it, regex locations
are matched against it, prefix locations compare its front. Nothing is decoded and no dot segment is
removed, so two spellings that are one path after the normalisation of RFC 3986 are told apart by
every location that one of them passes and the other does not (`route_by_spelling`).
-/

set_option autoImplicit false

namespace Elrond.Server

open Elrond.Lib Elrond.Http Elrond.Upstream Elrond.App

/-- Two paths are one after the syntax-based normalisation of RFC 3986. -/
def SameNormalized (p q : String) : Prop :=
  Uri.normalizePath p.toList = Uri.normalizePath q.toList

instance (p q : String) : Decidable (SameNormalized p q) :=
  inferInstanceAs (Decidable (Uri.normalizePath p.toList = Uri.normalizePath q.toList))

/-- Every location of the server treats the two paths alike, as they are written. -/
structure PassAlike (state : ServerState) (p q : String) : Prop where
  exact : ∀ l ∈ state.exactLocs, l.path = p ↔ l.path = q
  regex : ∀ entry ∈ state.regexLocs, entry.1 p = entry.1 q
  prefixes : ∀ l ∈ state.prefixLocs, l.path ≠ "/" →
    (Text.stripPrefix l.path p).isSome = (Text.stripPrefix l.path q).isSome

/-- Paths that pass alike are routed alike. -/
theorem PassAlike.route_eq {state : ServerState} {p q : String} (h : PassAlike state p q) :
    route state p = route state q := by
  have hexact : (state.exactLocs.find? fun l => l.path == p) =
      state.exactLocs.find? fun l => l.path == q := by
    refine List.find?_congr fun l hl => ?_
    rw [Bool.eq_iff_iff, beq_iff_eq, beq_iff_eq]
    exact h.exact l hl
  have hregex : (state.regexLocs.find? fun entry => entry.1 p) =
      state.regexLocs.find? fun entry => entry.1 q :=
    List.find?_congr fun entry hentry => h.regex entry hentry
  have hprefixes : (state.prefixLocs.find? fun l =>
        l.path == "/" || (Text.stripPrefix l.path p).isSome) =
      state.prefixLocs.find? fun l =>
        l.path == "/" || (Text.stripPrefix l.path q).isSome := by
    refine List.find?_congr fun l hl => ?_
    by_cases hroot : l.path = "/"
    · rw [hroot]
      rfl
    · rw [h.prefixes l hl hroot]
  rw [route, route, hexact, hregex, hprefixes]

/-- A location for metrics at a path. -/
def metricsLocation (path : String) : LocationRt where
  path := path
  action := .metrics
  addHeaders := []
  expires := none
  gzip := none
  autoindex := false
  auth := none
  limitReq := none
  limitConn := none
  accessRules := []
  proxyConnectTimeout := none
  proxyReadTimeout := none
  authRequest := none
  mirrors := []
  proxySslVerify := true
  proxyClient := none

/-- A server with the given exact and prefix locations. -/
def serverWith (exactLocs prefixLocs : List LocationRt) : ServerState where
  serverName := none
  scheme := .http
  gzip := false
  gzipTypes := []
  gzipMinLength := 0
  maps := []
  clientMaxBodySize := 0
  h3AdvertisedPort := none
  exactLocs := exactLocs
  regexLocs := []
  prefixLocs := prefixLocs

/-- **Locations are chosen by spelling.** For any two paths: a server whose locations treat them
alike as written selects the same location for both; they get the same location from every server
only if they are the same text; and every path below the root has a second spelling, the same after
normalisation. -/
theorem route_by_spelling (p q : String) :
    (∀ state : ServerState, PassAlike state p q → route state p = route state q) ∧
      ((∀ state : ServerState, route state p = route state q) ↔ p = q) ∧
      (∀ rest, p = "/" ++ rest → SameNormalized p ("/." ++ p) ∧ p ≠ "/." ++ p) := by
  refine ⟨fun state h => h.route_eq, ⟨fun hall => ?_, fun heq state => by rw [heq]⟩, ?_⟩
  · have hexact : route (serverWith [metricsLocation p] []) p = some (metricsLocation p) := by
      simp [route, serverWith, metricsLocation]
    rw [hall] at hexact
    by_contra hne
    simp [route, serverWith, metricsLocation, hne] at hexact
  · rintro rest rfl
    refine ⟨?_, fun heq => ?_⟩
    · have hp : ("/" ++ rest).toList = '/' :: rest.toList := by simp
      have hq : ("/." ++ ("/" ++ rest)).toList = '/' :: '.' :: '/' :: rest.toList := by simp
      rw [SameNormalized, hp, hq]
      exact (Uri.normalizePath_dot rest.toList).symm
    · have hlen := congrArg (fun s : String => s.toList.length) heq
      simp at hlen

/-- `location /admin` is evaded by spelling its first letter as `%61`: the request goes to the
location of the root instead. -/
theorem route_evaded_by_encoding :
    SameNormalized "/admin/users" "/%61dmin/users" ∧
      (route (serverWith [] [metricsLocation "/admin", metricsLocation "/"])
          "/admin/users").map LocationRt.path = some "/admin" ∧
      (route (serverWith [] [metricsLocation "/admin", metricsLocation "/"])
          "/%61dmin/users").map LocationRt.path = some "/" := by
  decide +kernel

end Elrond.Server
