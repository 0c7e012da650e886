import Elrond.Lib.Foremost
import Elrond.App.Listeners
import Elrond.Server.Gates

/-!
# Routing

`ServerState::route` against the declaration of a server block. The build files the locations of a
block in three lists and sorts one of them by length; `route` then searches the lists one after the
other. `Chosen` says which location of the declaration a path belongs to, in terms of the order of
declaration and of lengths alone, and `route_chosen` that the search finds it.
-/

set_option autoImplicit false

namespace Elrond.Server

open Elrond.Lib Elrond.Http Elrond.Config Elrond.App

/-! ## The location a path belongs to -/

/-- An exact location for the path. -/
def ExactFor (path : String) (loc : Location) : Prop :=
  loc.kind = .exact ∧ loc.path = path

/-- A regex location whose expression matches the path. -/
def RegexFor (host : Host) (path : String) (loc : Location) : Prop :=
  ∃ pattern caseInsensitive re, loc.kind = .regex pattern caseInsensitive ∧
    host.compileRegex pattern caseInsensitive = .ok re ∧ re path = true

/-- A prefix location for the path: its own path is `/` or a beginning of the path. -/
def PrefixFor (path : String) (loc : Location) : Prop :=
  loc.kind = .prefixed ∧ (loc.path = "/" ∨ ∃ rest, path = loc.path ++ rest)

/-- The path of `a` is longer than that of `b`. -/
def Longer (a b : Location) : Prop := b.path.utf8ByteSize < a.path.utf8ByteSize

/-- The first declared location with a property. -/
def FirstDeclared (p : Location → Prop) (locs : List Location) (loc : Location) : Prop :=
  Foremost p (fun _ _ => False) locs loc

/-- The location that the declarations `locs` give a path to, if there is one: the first exact
location for it, else the first regex location that matches, else the longest prefix location, the
first one among equals. -/
inductive Chosen (host : Host) (locs : List Location) (path : String) : Option Location → Prop where
  | exact (loc : Location) (hloc : FirstDeclared (ExactFor path) locs loc) :
      Chosen host locs path (some loc)
  | regex (loc : Location) (hexact : ∀ l ∈ locs, ¬ ExactFor path l)
      (hloc : FirstDeclared (RegexFor host path) locs loc) : Chosen host locs path (some loc)
  | prefixed (loc : Location) (hexact : ∀ l ∈ locs, ¬ ExactFor path l)
      (hregex : ∀ l ∈ locs, ¬ RegexFor host path l)
      (hloc : Foremost (PrefixFor path) Longer locs loc) : Chosen host locs path (some loc)
  | none (hexact : ∀ l ∈ locs, ¬ ExactFor path l) (hregex : ∀ l ∈ locs, ¬ RegexFor host path l)
      (hprefixed : ∀ l ∈ locs, ¬ PrefixFor path l) : Chosen host locs path none

variable {host : Host} {locs : List Location} {path : String}

/-- The declarations give a path to one location at most. -/
theorem Chosen.unique {a b : Option Location} (ha : Chosen host locs path a)
    (hb : Chosen host locs path b) : a = b := by
  cases ha with
  | exact loc hloc =>
      cases hb with
      | exact loc' hloc' => exact congrArg some (hloc.unique hloc')
      | regex loc' hexact _ => exact absurd hexact hloc.not_none
      | prefixed loc' hexact _ _ => exact absurd hexact hloc.not_none
      | none hexact _ _ => exact absurd hexact hloc.not_none
  | regex loc hexact hloc =>
      cases hb with
      | exact loc' hloc' => exact absurd hexact hloc'.not_none
      | regex loc' _ hloc' => exact congrArg some (hloc.unique hloc')
      | prefixed loc' _ hregex _ => exact absurd hregex hloc.not_none
      | none _ hregex _ => exact absurd hregex hloc.not_none
  | prefixed loc hexact hregex hloc =>
      cases hb with
      | exact loc' hloc' => exact absurd hexact hloc'.not_none
      | regex loc' _ hloc' => exact absurd hregex hloc'.not_none
      | prefixed loc' _ _ hloc' => exact congrArg some (hloc.unique hloc')
      | none _ _ hprefixed => exact absurd hprefixed hloc.not_none
  | none hexact hregex hprefixed =>
      cases hb with
      | exact loc' hloc' => exact absurd hexact hloc'.not_none
      | regex loc' _ hloc' => exact absurd hregex hloc'.not_none
      | prefixed loc' _ _ hloc' => exact absurd hprefixed hloc'.not_none
      | none _ _ _ => rfl

/-! ## The three lists -/

/-- The kinds the build tells apart. -/
def isExact (loc : Location) : Bool := loc.kind == .exact

/-- A prefix location. -/
def isPrefixed (loc : Location) : Bool := loc.kind == .prefixed

/-- A regex location. -/
def isRegex (loc : Location) : Bool := !isExact loc && !isPrefixed loc

/-- What stands in the list of regex locations for a declared one. -/
def RegexBuilt (host : Host) (tables : Tables) (s : Server) (loc : Location)
    (entry : (String → Bool) × LocationRt) : Prop :=
  ∃ pattern caseInsensitive, loc.kind = .regex pattern caseInsensitive ∧
    host.compileRegex pattern caseInsensitive = .ok entry.1 ∧
    buildLocationRt host tables s loc = .ok entry.2

/-- What stands in one of the other two lists for a declared location. -/
def KindBuilt (kind : LocationKind) (host : Host) (tables : Tables) (s : Server) (loc : Location)
    (rt : LocationRt) : Prop :=
  loc.kind = kind ∧ buildLocationRt host tables s loc = .ok rt

/-- Filing a location changes the list of its kind only. -/
theorem locationRtStep_cases {tables : Tables} {s : Server} {lists lists' : LocationLists}
    {loc : Location} (h : locationRtStep host tables s lists loc = .ok lists') :
    (∃ rt, KindBuilt .exact host tables s loc rt ∧
        lists' = { lists with exactLocs := lists.exactLocs ++ [rt] }) ∨
      (∃ rt, KindBuilt .prefixed host tables s loc rt ∧
        lists' = { lists with prefixLocs := lists.prefixLocs ++ [rt] }) ∨
      ∃ entry, RegexBuilt host tables s loc entry ∧
        lists' = { lists with regexLocs := lists.regexLocs ++ [entry] } := by
  rw [locationRtStep] at h
  obtain ⟨rt, hrt, h⟩ := bind_eq_ok.1 h
  cases hkind : loc.kind with
  | exact =>
      rw [hkind] at h
      obtain rfl := Except.ok.inj h
      exact Or.inl ⟨rt, ⟨hkind, hrt⟩, rfl⟩
  | prefixed =>
      rw [hkind] at h
      obtain rfl := Except.ok.inj h
      exact Or.inr (Or.inl ⟨rt, ⟨hkind, hrt⟩, rfl⟩)
  | regex pattern caseInsensitive =>
      rw [hkind] at h
      simp only at h
      split at h
      · next re hre =>
        obtain rfl := Except.ok.inj h
        exact Or.inr (Or.inr ⟨(re, rt), ⟨pattern, caseInsensitive, hkind, hre, hrt⟩, rfl⟩)
      · cases h

theorem isExact_iff {loc : Location} : isExact loc = true ↔ loc.kind = .exact := by
  simp [isExact]

theorem isPrefixed_iff {loc : Location} : isPrefixed loc = true ↔ loc.kind = .prefixed := by
  simp [isPrefixed]

theorem isRegex_iff {loc : Location} :
    isRegex loc = true ↔ ∃ pattern caseInsensitive, loc.kind = .regex pattern caseInsensitive := by
  cases hkind : loc.kind <;> simp [isRegex, isExact, isPrefixed, hkind]

/-- The three lists hold the declared locations of their kinds, in order of declaration. -/
theorem foldlM_locationRtStep {tables : Tables} {s : Server} {lists : LocationLists}
    (h : locs.foldlM (locationRtStep host tables s) {} = .ok lists) :
    List.Forall₂ (KindBuilt .exact host tables s) (locs.filter isExact) lists.exactLocs ∧
      List.Forall₂ (RegexBuilt host tables s) (locs.filter isRegex) lists.regexLocs ∧
      List.Forall₂ (KindBuilt .prefixed host tables s) (locs.filter isPrefixed)
        lists.prefixLocs := by
  refine ⟨foldlM_collects _ rfl ?_ h, foldlM_collects _ rfl ?_ h, foldlM_collects _ rfl ?_ h⟩
  -- for each of the lists, the three places the location can go to
  · intro lists loc lists' hstep
    obtain ⟨rt, hrt, rfl⟩ | ⟨rt, hrt, rfl⟩ | ⟨entry, ⟨_, _, hentry, _⟩, rfl⟩ :=
      locationRtStep_cases hstep
    · rw [if_pos (isExact_iff.2 hrt.1)]
      exact ⟨rt, hrt, rfl⟩
    · rw [if_neg (by simp [isExact, hrt.1])]
    · rw [if_neg (by simp [isExact, hentry])]
  · intro lists loc lists' hstep
    obtain ⟨rt, hrt, rfl⟩ | ⟨rt, hrt, rfl⟩ | ⟨entry, hentry, rfl⟩ := locationRtStep_cases hstep
    · rw [if_neg (by simp [isRegex, isExact, hrt.1])]
    · rw [if_neg (by simp [isRegex, isPrefixed, hrt.1])]
    · obtain ⟨pattern, caseInsensitive, hkind, _⟩ := id hentry
      rw [if_pos (isRegex_iff.2 ⟨pattern, caseInsensitive, hkind⟩)]
      exact ⟨entry, hentry, rfl⟩
  · intro lists loc lists' hstep
    obtain ⟨rt, hrt, rfl⟩ | ⟨rt, hrt, rfl⟩ | ⟨entry, ⟨_, _, hentry, _⟩, rfl⟩ :=
      locationRtStep_cases hstep
    · rw [if_neg (by simp [isPrefixed, hrt.1])]
    · rw [if_pos (isPrefixed_iff.2 hrt.1)]
      exact ⟨rt, hrt, rfl⟩
    · rw [if_neg (by simp [isPrefixed, hentry])]

theorem buildLocationRt_path {tables : Tables} {s : Server} {loc : Location} {rt : LocationRt}
    (h : buildLocationRt host tables s loc = .ok rt) : rt.path = loc.path :=
  (buildLocationRt_ok h).2.1

/-! ## The searches -/

section Searches

variable {tables : Tables} {s : Server}

theorem exactFor_iff (loc : Location) (rt : LocationRt)
    (h : KindBuilt .exact host tables s loc rt) :
    ExactFor path loc ↔ (rt.path == path) = true := by
  rw [ExactFor, beq_iff_eq, buildLocationRt_path h.2]
  exact and_iff_right h.1

theorem regexFor_iff (loc : Location) (entry : (String → Bool) × LocationRt)
    (h : RegexBuilt host tables s loc entry) : RegexFor host path loc ↔ entry.1 path = true := by
  obtain ⟨pattern, caseInsensitive, hkind, hre, -⟩ := h
  constructor
  · rintro ⟨pattern', caseInsensitive', re, hkind', hre', hmatch⟩
    rw [hkind] at hkind'
    obtain ⟨rfl, rfl⟩ := LocationKind.regex.inj hkind'
    rw [hre] at hre'
    obtain rfl := Except.ok.inj hre'
    exact hmatch
  · intro hmatch
    exact ⟨pattern, caseInsensitive, entry.1, hkind, hre, hmatch⟩

theorem prefixFor_iff (loc : Location) (rt : LocationRt)
    (h : KindBuilt .prefixed host tables s loc rt) :
    PrefixFor path loc ↔
      (rt.path == "/" || (Text.stripPrefix rt.path path).isSome) = true := by
  rw [PrefixFor, Bool.or_eq_true, beq_iff_eq, Option.isSome_iff_exists, buildLocationRt_path h.2]
  simp only [Text.stripPrefix_eq_some]
  exact and_iff_right h.1

/-- The order the prefix list is sorted by. -/
def longestFirst (a b : LocationRt) : Bool := b.path.utf8ByteSize ≤ a.path.utf8ByteSize

theorem longestFirst_trans (a b c : LocationRt) (hab : longestFirst a b) (hbc : longestFirst b c) :
    longestFirst a c := by
  simp only [longestFirst, decide_eq_true_eq] at *
  omega

theorem longestFirst_total (a b : LocationRt) : longestFirst a b || longestFirst b a := by
  simp only [longestFirst, Bool.or_eq_true, decide_eq_true_eq]
  omega

/-- The order of the prefix list puts the longer path first. -/
theorem longer_iff (a : Location) (rt : LocationRt) (b : Location) (rt' : LocationRt)
    (ha : KindBuilt .prefixed host tables s a rt) (hb : KindBuilt .prefixed host tables s b rt') :
    Longer a b ↔ longestFirst rt' rt = false := by
  rw [Longer, longestFirst, ← buildLocationRt_path ha.2, ← buildLocationRt_path hb.2,
    decide_eq_false_iff_not, not_le]

/-- The searches of `route` through lists filled from declarations find the chosen location. -/
theorem route_lists {lists : LocationLists} (state : ServerState) (path : String)
    (hlists : locs.foldlM (locationRtStep host tables s) {} = .ok lists)
    (hexact : state.exactLocs = lists.exactLocs) (hregex : state.regexLocs = lists.regexLocs)
    (hprefixed : state.prefixLocs = lists.prefixLocs.mergeSort longestFirst) :
    ∃ choice, Chosen host locs path choice ∧
      Option.Rel (fun loc rt => buildLocationRt host tables s loc = .ok rt) choice
        (route state path) := by
  obtain ⟨hexacts, hregexes, hprefixes⟩ := foldlM_locationRtStep hlists
  rw [route, hexact, hregex, hprefixed]
  cases hfindExact : lists.exactLocs.find? fun l => l.path == path with
  | some rt =>
      obtain ⟨loc, hbuilt, hloc⟩ := (foremost_of_find? hfindExact).of_forall₂
        (p := ExactFor path) hexacts exactFor_iff fun _ _ _ _ _ _ => Iff.rfl
      exact ⟨some loc, .exact loc (hloc.of_filter fun l hl => isExact_iff.2 hl.1),
        .some hbuilt.2⟩
  | none =>
      have hnoExact : ∀ l ∈ locs, ¬ ExactFor path l :=
        none_of_forall₂_filter hexacts exactFor_iff (fun l hl => isExact_iff.2 hl.1)
          (List.find?_eq_none.1 hfindExact)
      have hkind : ∀ l, RegexFor host path l → isRegex l = true := by
        rintro l ⟨pattern, caseInsensitive, _, hkind, _⟩
        exact isRegex_iff.2 ⟨pattern, caseInsensitive, hkind⟩
      cases hfindRegex : lists.regexLocs.find? fun entry => entry.1 path with
      | some entry =>
          obtain ⟨loc, hbuilt, hloc⟩ := (foremost_of_find? hfindRegex).of_forall₂
            (p := RegexFor host path) hregexes regexFor_iff fun _ _ _ _ _ _ => Iff.rfl
          obtain ⟨_, _, _, _, hrt⟩ := hbuilt
          exact ⟨some loc, .regex loc hnoExact (hloc.of_filter hkind), .some hrt⟩
      | none =>
          have hnoRegex : ∀ l ∈ locs, ¬ RegexFor host path l :=
            none_of_forall₂_filter hregexes regexFor_iff hkind (List.find?_eq_none.1 hfindRegex)
          cases hfindPrefix : (lists.prefixLocs.mergeSort longestFirst).find? fun l =>
              l.path == "/" || (Text.stripPrefix l.path path).isSome with
          | some rt =>
              obtain ⟨loc, hbuilt, hloc⟩ :=
                (foremost_of_find?_mergeSort longestFirst_trans longestFirst_total
                  hfindPrefix).of_forall₂ (p := PrefixFor path) hprefixes prefixFor_iff longer_iff
              exact ⟨some loc, .prefixed loc hnoExact hnoRegex
                (hloc.of_filter fun l hl => isPrefixed_iff.2 hl.1), .some hbuilt.2⟩
          | none =>
              have hnoPrefix : ∀ l ∈ locs, ¬ PrefixFor path l := by
                apply none_of_forall₂_filter hprefixes prefixFor_iff
                  fun l hl => isPrefixed_iff.2 hl.1
                intro rt hrt
                exact List.find?_eq_none.1 hfindPrefix rt (List.mem_mergeSort.2 hrt)
              exact ⟨none, .none hnoExact hnoRegex hnoPrefix, .none⟩

end Searches

/-- On the state built from a server block, `route` finds the location the declarations of the block
give the path to, and there is exactly one answer to that. -/
theorem route_chosen (host : Host) (http : HttpBlock) (s : Server) (x : Staged)
    (h : buildVhost host http s = .ok x) (path : String) :
    ∃ choice, (∀ c, Chosen host s.locations path c ↔ c = choice) ∧
      Option.Rel (fun loc rt => buildLocationRt host (buildTables http) s loc = .ok rt) choice
        (route x.vhost.state path) := by
  obtain ⟨lists, hlists, hexact, hregex, hprefixes⟩ := (buildVhost_ok h).locations
  obtain ⟨choice, hchoice, hrel⟩ :=
    route_lists x.vhost.state path hlists hexact hregex hprefixes
  refine ⟨choice, ?_, hrel⟩
  intro c
  constructor
  · intro hc
    exact hc.unique hchoice
  · rintro rfl
    exact hchoice

/-- A location that answers with a status of its own. -/
def returning (kind : LocationKind) (path : String) (status : Nat) : Location where
  kind := kind
  path := path
  action := .ret status ⟨[]⟩
  setHeaders := []
  addHeaders := []
  expires := none
  gzip := none
  autoindex := false
  authBasicRealm := none
  authBasicUserFile := none
  limitReq := none
  limitConn := none
  accessRules := []
  proxyConnectTimeout := none
  proxyReadTimeout := none
  authRequest := none
  mirrors := []
  proxySslVerify := true
  proxySslCertificate := none
  proxySslCertificateKey := none
  proxyCache := none
  proxyCacheKey := none
  proxyCacheValid := []

/-- A host whose expressions match every path. -/
def matchingHost : Host where
  buildCertified := fun _ => .ok ⟨[], []⟩
  loadMtls := fun _ _ _ => .ok ()
  loadUsers := fun _ => .ok ∅
  compileRegex := fun _ _ => .ok fun _ => true

/-- A server with the short prefix first and one path declared twice. -/
def apiServer : Server :=
  { listen := some ⟨.v4 ⟨0, 0, 0, 0⟩, 80, 0⟩
    locations := [returning .prefixed "/" 404, returning .prefixed "/api" 200,
      returning .exact "/status" 204, returning .prefixed "/api" 500] }

theorem chosen_api : Chosen matchingHost apiServer.locations "/api/users"
    (some (returning .prefixed "/api" 200)) := by
  refine .prefixed _ ?_ ?_ ⟨[returning .prefixed "/" 404],
    [returning .exact "/status" 204, returning .prefixed "/api" 500], rfl, ?_, ?_, ?_⟩
  · simp [apiServer, returning, ExactFor]
  · simp [apiServer, returning, RegexFor]
  · exact ⟨rfl, Or.inr ⟨"/users", by decide⟩⟩
  · intro l hl _
    obtain rfl := List.mem_singleton.1 hl
    show "/".utf8ByteSize < "/api".utf8ByteSize
    decide
  · intro l hl hfor hlonger
    rcases List.mem_pair.1 hl with rfl | rfl
    · exact absurd hfor.1 (by decide)
    · exact absurd hlonger (Nat.lt_irrefl _)

/-- The first of the two longest prefixes answers. -/
theorem route_chosen_api :
    ∃ x, buildVhost matchingHost {} apiServer = .ok x ∧
      ∃ rt, route x.vhost.state "/api/users" = some rt ∧ rt.action = .ret 200 ⟨[]⟩ := by
  refine ⟨_, rfl, ?_⟩
  obtain ⟨choice, hchoice, hrel⟩ := route_chosen matchingHost {} apiServer _ rfl "/api/users"
  obtain rfl := (hchoice _).1 chosen_api
  generalize route _ "/api/users" = found at hrel ⊢
  cases hrel with
  | some hbuilt =>
      refine ⟨_, rfl, ?_⟩
      obtain rfl := Except.ok.inj hbuilt
      rfl

end Elrond.Server
