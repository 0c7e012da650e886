import Elrond.Config.Declarative
import Elrond.Config.Listen

/-!
# The numbers of a configuration

Which status codes, lifetimes and timeouts the lowering takes from the arguments of a block. For a
location these are the code of `return`, the code `try_files` falls back to, and the rules of
`proxy_cache_valid` where they are used (`buildLocation_numbers`); for an upstream the
`fail_timeout` of its server lines and the `interval` of its health check (`upstreamBlock_numbers`).
A later line of a name or a later argument of a key replaces an earlier one, except that the rules
of `proxy_cache_valid` are kept together.
-/

set_option autoImplicit false

namespace Elrond.Config

open Elrond.Lib Elrond.Http Elrond.Request

/-! ## Lines and arguments -/

/-- The directives of a block with a name. -/
def linesNamed (name : String) (block : List Directive) : List Directive :=
  block.filter fun d => d.name = name

/-- What a directive gives by its arguments, if it has the name. -/
def given {V : Type} (name : String) (read : List String → Option V) (d : Directive) : Option V :=
  if d.name = name then read d.args else none

/-- What an argument `key=value` gives by its value, if it has the key. -/
def keyed {V : Type} (key : String) (read : String → Option V) (a : String) : Option V :=
  (Text.stripPrefix key a).bind read

/-- The block at a position is that of the line at the position. -/
theorem getElem?_blocksNamed {name : String} {block : List Directive} {k : Nat} {d : Directive}
    (h : (linesNamed name block)[k]? = some d) :
    (blocksNamed name block)[k]? = some (d.block.getD []) := by
  have hmap := congrArg (Option.map fun d : Directive => d.block.getD []) h
  rw [← List.getElem?_map] at hmap
  exact hmap

theorem given_of_ne {V : Type} {name : String} {read : List String → Option V} {d : Directive}
    (h : d.name ≠ name) : given name read d = none := if_neg h

/-- The value behind a key is not that behind a key with another first character. -/
theorem keyed_of_head_ne {V : Type} {key : String} {read : String → Option V} {a other v : String}
    (h : Text.stripPrefix other a = some v) (c c' : Char) (hkey : key.toList.head? = some c)
    (hother : other.toList.head? = some c') (hne : c ≠ c') : keyed key read a = none := by
  have hnone : Text.stripPrefix key a = none := by
    rw [Text.stripPrefix_eq_none]
    intro t ht
    have hheads : (other ++ v).toList.head? = (key ++ t).toList.head? := by
      rw [← Text.stripPrefix_eq_some.1 h, ht]
    rw [String.toList_append, String.toList_append, List.head?_append, List.head?_append, hkey,
      hother] at hheads
    exact hne (Option.some.inj hheads).symm
  rw [keyed, hnone, Option.bind_none]

/-! ## Locations -/

/-- The status code of a `return` line. -/
def returnStatus (args : List String) : Option Nat := args.head?.bind (Text.parseUnsigned 16)

/-- The status code at the end of a `try_files` line. -/
def fallbackStatus (args : List String) : Option Nat :=
  args.getLast?.bind (keyed "=" (Text.parseUnsigned 16))

/-- The rule of a `proxy_cache_valid` line; the number of the line is only for its errors. -/
def validRule (args : List String) : Option (List Nat × Text.Duration) :=
  (parseCacheValid args 0).toOption

/-- The status codes a location block answers with by `return` and by its last `try_files` line. -/
def statusCodes (block : List Directive) : List Nat :=
  block.filterMap (given "return" returnStatus) ++
    ((block.filterMap (given "try_files" fun args => some (fallbackStatus args).toList)).getLast?
      ).getD []

/-- The targets a location block proxies to. -/
def proxyTargets (block : List Directive) : List String :=
  block.filterMap (given "proxy_pass" List.head?)

/-- The cache zones a location block names. -/
def cacheZonesNamed (block : List Directive) : List String :=
  block.filterMap (given "proxy_cache" List.head?)

/-- The rules a location block stores responses by, if it proxies and names a cache. -/
def cacheRules (block : List Directive) : List (List Nat × Text.Duration) :=
  if proxyTargets block = [] ∨ cacheZonesNamed block = [] then []
  else block.filterMap (given "proxy_cache_valid" validRule)

/-- The status codes among the entries of `try_files`. -/
def entryCodes (entries : List TryFilesEntry) : List Nat :=
  entries.filterMap fun
    | .status code => some code
    | .path _ => none

/-- The target of an action that proxies. -/
@[simp] def Action.target? : Action → Option String
  | .proxyPass target => some target
  | _ => none

/-- The status codes an action may answer with. -/
@[simp] def Action.statuses : Action → List Nat
  | .ret status _ => [status]
  | .tryFiles _ entries => entryCodes entries
  | _ => []

/-- The rules a location stores responses by. -/
def Location.rules (loc : Location) : List (List Nat × Text.Duration) :=
  match loc.action, loc.proxyCache with
  | .proxyPass _, some _ => loc.proxyCacheValid
  | _, _ => []

/-- The entries of `try_files` have the status code of its last argument. -/
theorem tryFilesEntries_codes {line : Nat} :
    ∀ {args : List String} {entries : List TryFilesEntry},
      tryFilesEntries line args = .ok entries →
        entryCodes entries = (fallbackStatus args).toList := by
  intro args
  induction args with
  | nil =>
      intro entries h
      obtain rfl := Except.ok.inj h
      rfl
  | cons raw rest ih =>
      intro entries h
      rw [tryFilesEntries] at h
      split at h
      case h_1 code hcode =>
          -- a status code may only stand last
          split at h
          · next hrest =>
            obtain ⟨n, hn, h⟩ := bind_eq_ok.1 h
            obtain rfl := Except.ok.inj h
            obtain rfl := List.isEmpty_iff.1 hrest
            have hlast : fallbackStatus [raw] = some n := by
              simpa [fallbackStatus, keyed, hcode] using orError_eq_ok.1 hn
            rw [hlast]
            rfl
          · cases h
      case h_2 hnone =>
          obtain ⟨es, hes, h⟩ := bind_eq_ok.1 h
          obtain rfl := Except.ok.inj h
          have hsame : fallbackStatus (raw :: rest) = fallbackStatus rest := by
            cases rest with
            | nil => simp [fallbackStatus, keyed, hnone]
            | cons a rest => rw [fallbackStatus, fallbackStatus, List.getLast?_cons_cons]
          rw [hsame, ← ih hes]
          rfl

/-- Codes that are read on one line are read on every line. -/
theorem cacheValidCodes_line {line line' : Nat} :
    ∀ {cs : List String} {codes codes' : List Nat},
      cacheValidCodes line cs codes = .ok codes' → cacheValidCodes line' cs codes = .ok codes' := by
  intro cs
  induction cs with
  | nil => exact fun h => h
  | cons c rest ih =>
      intro codes codes' h
      rw [cacheValidCodes] at h ⊢
      split at h
      · next hany => rw [if_pos hany, h]
      · next hany =>
        obtain ⟨code, hcode, h⟩ := bind_eq_ok.1 h
        rw [if_neg hany]
        exact bind_eq_ok.2 ⟨code, orError_eq_ok.2 (orError_eq_ok.1 hcode), ih h⟩

theorem parseCacheValid_rule {args : List String} {line : Nat} {rule : List Nat × Text.Duration}
    (h : parseCacheValid args line = .ok rule) : validRule args = some rule := by
  refine toOption_eq_some.2 ?_
  rw [parseCacheValid] at h ⊢
  split at h
  · cases h
  · next last hlast =>
    obtain ⟨ttl, httl, h⟩ := bind_eq_ok.1 h
    obtain ⟨codes, hcodes, h⟩ := bind_eq_ok.1 h
    exact bind_eq_ok.2 ⟨ttl, orError_eq_ok.2 (orError_eq_ok.1 httl),
      bind_eq_ok.2 ⟨codes, cacheValidCodes_line hcodes, h⟩⟩

/-! ### Patches -/

namespace LocationPatch

/-- The status codes a patch answers with. -/
@[simp] def statuses : LocationPatch → List Nat
  | .content a => a.statuses
  | _ => []

/-- The target a patch proxies to. -/
@[simp] def target? : LocationPatch → Option String
  | .content a => a.target?
  | _ => none

/-- The codes of the `try_files` entries a patch sets. -/
@[simp] def fallback? : LocationPatch → Option (List Nat)
  | .edit (.tryFiles entries) => some (entryCodes entries)
  | _ => none

/-- The cache zone a patch sets. -/
@[simp] def zone? : LocationPatch → Option String
  | .edit (.proxyCache zone) => some zone
  | _ => none

/-- The cache rule a patch adds. -/
@[simp] def rule? : LocationPatch → Option (List Nat × Text.Duration)
  | .edit (.proxyCacheValid rule) => some rule
  | _ => none

end LocationPatch

/-- What the arguments of a directive give is what its patch carries. -/
structure PatchNumbers (d : Directive) (p : LocationPatch) : Prop where
  status : p.statuses = (given "return" returnStatus d).toList
  target : p.target? = given "proxy_pass" List.head? d
  fallback : p.fallback? = given "try_files" (fun args => some (fallbackStatus args).toList) d
  zone : p.zone? = given "proxy_cache" List.head? d
  rule : p.rule? = given "proxy_cache_valid" validRule d

/-- A patch without numbers is right for a directive that has none. -/
theorem PatchNumbers.of_none {d : Directive} {p : LocationPatch}
    (hname : d.name ∉ ["return", "proxy_pass", "try_files", "proxy_cache", "proxy_cache_valid"])
    (hstatus : p.statuses = []) (htarget : p.target? = none) (hfallback : p.fallback? = none)
    (hzone : p.zone? = none) (hrule : p.rule? = none) : PatchNumbers d p := by
  simp only [List.mem_cons, List.not_mem_nil, not_or] at hname
  obtain ⟨h₁, h₂, h₃, h₄, h₅, -⟩ := hname
  exact ⟨by rw [hstatus, given_of_ne h₁, Option.toList_none], htarget.trans (given_of_ne h₂).symm,
    hfallback.trans (given_of_ne h₃).symm, hzone.trans (given_of_ne h₄).symm,
    hrule.trans (given_of_ne h₅).symm⟩

/-- The patch of a directive carries the numbers of its arguments. -/
theorem locationPatch_numbers {d : Directive} {p : LocationPatch} (h : locationPatch d = .ok p) :
    PatchNumbers d p := by
  rw [locationPatch] at h
  split at h
  case h_1 hname =>
      obtain ⟨a, ha, h⟩ := bind_eq_ok.1 h
      obtain ⟨n, hn, h⟩ := bind_eq_ok.1 h
      obtain rfl := Except.ok.inj h
      have hstatus : returnStatus d.args = some n := by
        rw [returnStatus, arg1_eq_ok.1 ha, Option.bind_some]
        exact orError_eq_ok.1 hn
      constructor <;> simp [given, hname, hstatus]
  case h_2 hname =>
      obtain ⟨target, htarget, rfl⟩ := map_eq_ok.1 h
      constructor <;> simp [given, hname, arg1_eq_ok.1 htarget]
  case h_10 hname =>
      obtain ⟨zone, hzone, rfl⟩ := map_eq_ok.1 h
      constructor <;> simp [given, hname, arg1_eq_ok.1 hzone]
  case h_12 hname =>
      obtain ⟨rule, hrule, rfl⟩ := map_eq_ok.1 h
      constructor <;> simp [given, hname, parseCacheValid_rule hrule]
  case h_27 hname =>
      split at h
      · cases h
      · obtain ⟨entries, hentries, rfl⟩ := map_eq_ok.1 h
        constructor <;> simp [given, hname, tryFilesEntries_codes hentries]
  case h_28 =>
      split at h
      · cases h
        exact PatchNumbers.of_none (by grind) rfl rfl rfl rfl rfl
      · cases h
  all_goals
    rename_i hname
    simp only [map_eq_bind, bind_eq_ok, Except.ok.injEq] at h
    refine PatchNumbers.of_none (by simp [hname]) ?_ ?_ ?_ ?_ ?_
    all_goals
      grind [LocationPatch.statuses, LocationPatch.target?, LocationPatch.fallback?,
        LocationPatch.zone?, LocationPatch.rule?, Action.statuses, Action.target?]

/-! ### Drafts -/

/-- What a patch does to the numbers of a draft. -/
structure NumbersApplied (p : LocationPatch) (s s' : LocationDraft) : Prop where
  status : (s'.action.map Action.statuses).getD [] =
    (s.action.map Action.statuses).getD [] ++ p.statuses
  target : (s'.action.bind Action.target?).toList =
    (s.action.bind Action.target?).toList ++ p.target?.toList
  fallback : (s'.tryFiles.map entryCodes).getD [] =
    p.fallback?.getD ((s.tryFiles.map entryCodes).getD [])
  zone : s'.proxyCache = p.zone?.or s.proxyCache
  rule : s'.proxyCacheValid = s.proxyCacheValid ++ p.rule?.toList

theorem LocationPatch.apply_numbers {p : LocationPatch} {s s' : LocationDraft}
    (h : p.apply s = some s') : NumbersApplied p s s' := by
  cases p with
  | ignored =>
      obtain rfl := Option.some.inj h
      constructor <;> simp
  | content a =>
      -- the draft had no action, so what it answers with is the new one's
      rw [apply] at h
      split at h
      · cases h
      · next hnone =>
        obtain rfl := Option.some.inj h
        have hnone : s.action = none := by simpa using hnone
        constructor <;> simp [hnone]
  | edit e =>
      obtain rfl := Option.some.inj h
      cases e <;> constructor <;> simp [LocationEdit.apply]

/-- A round of the loop that goes well applies the numbers of its directive. -/
theorem locationStep_numbers {path : String} {s s' : LocationDraft} {d : Directive}
    (h : locationStep path s d = .ok s') : ∃ p, PatchNumbers d p ∧ NumbersApplied p s s' := by
  have hopt := locationStep_toOption path s d
  rw [h] at hopt
  obtain ⟨p, hp, happly⟩ := Option.bind_eq_some_iff.1 hopt.symm
  exact ⟨p, locationPatch_numbers (toOption_eq_some.1 hp), LocationPatch.apply_numbers happly⟩

/-- The numbers of a draft are those of the directives read. -/
structure DraftNumbers (read : List Directive) (s : LocationDraft) : Prop where
  status : (s.action.map Action.statuses).getD [] = read.filterMap (given "return" returnStatus)
  target : (s.action.bind Action.target?).toList = proxyTargets read
  fallback : (s.tryFiles.map entryCodes).getD [] =
    ((read.filterMap (given "try_files" fun args => some (fallbackStatus args).toList)).getLast?
      ).getD []
  zone : s.proxyCache = none ↔ cacheZonesNamed read = []
  rule : s.proxyCacheValid = read.filterMap (given "proxy_cache_valid" validRule)

theorem draft_numbers {path : String} {block : List Directive} {draft : LocationDraft}
    (h : block.foldlM (locationStep path) {} = .ok draft) : DraftNumbers block draft := by
  refine ⟨?_, ?_, ?_, ?_, ?_⟩
  · refine foldlM_appends (fun s : LocationDraft => (s.action.map Action.statuses).getD []) ?_ h
    intro s d s' hstep
    obtain ⟨p, hp, happly⟩ := locationStep_numbers hstep
    rw [← hp.status]
    exact happly.status
  · refine foldlM_appends (fun s : LocationDraft => (s.action.bind Action.target?).toList) ?_ h
    intro s d s' hstep
    obtain ⟨p, hp, happly⟩ := locationStep_numbers hstep
    rw [← hp.target]
    exact happly.target
  · refine foldlM_replaces (fun s : LocationDraft => (s.tryFiles.map entryCodes).getD []) ?_ h
    intro s d s' hstep
    obtain ⟨p, hp, happly⟩ := locationStep_numbers hstep
    rw [← hp.fallback]
    exact happly.fallback
  · refine foldlM_induction
      (motive := fun read s => s.proxyCache = none ↔ cacheZonesNamed read = []) ?_ ?_ h
    · simp [cacheZonesNamed]
    · intro read d s s' hread hstep
      obtain ⟨p, hp, happly⟩ := locationStep_numbers hstep
      have hadded : [d].filterMap (given "proxy_cache" List.head?) = p.zone?.toList := by
        rw [hp.zone]
        cases hg : given "proxy_cache" List.head? d <;> simp [hg]
      rw [happly.zone, Option.or_eq_none_iff, hread, cacheZonesNamed, cacheZonesNamed,
        List.filterMap_append, List.append_eq_nil_iff, hadded, Option.toList_eq_nil_iff, and_comm]
  · refine foldlM_appends (fun s : LocationDraft => s.proxyCacheValid) ?_ h
    intro s d s' hstep
    obtain ⟨p, hp, happly⟩ := locationStep_numbers hstep
    rw [← hp.rule]
    exact happly.rule

/-- The action of a location answers with the codes of its draft, and proxies as its draft does. -/
theorem locationAction_numbers {env : Externals} {path : String} {line : Nat}
    {serverRoot : Option String} {draft : LocationDraft} {action : Action}
    (h : locationAction env path line serverRoot draft = .ok action) :
    action.statuses = (draft.action.map Action.statuses).getD [] ++
        (draft.tryFiles.map entryCodes).getD [] ∧
      action.target? = draft.action.bind Action.target? := by
  cases htry : draft.tryFiles with
  | some entries =>
      -- next to `try_files` only `root` is allowed, which has no numbers
      simp only [locationAction, htry] at h
      split at h
      · next dir haction =>
        obtain rfl := Except.ok.inj h
        simp [haction]
      · cases h
      · next haction =>
        split at h
        · obtain rfl := Except.ok.inj h
          simp [haction]
        · cases h
  | none =>
      cases haction : draft.action with
      | some a =>
          simp only [locationAction, htry, haction] at h
          obtain rfl := Except.ok.inj h
          simp
      | none =>
          simp only [locationAction, htry, haction] at h
          split at h
          · next heq => cases heq
          · obtain rfl := Except.ok.inj h
            simp
          · cases h

/-- The numbers of a location are those of its block. -/
structure LocationNumbers (block : List Directive) (loc : Location) : Prop where
  statuses : loc.action.statuses = statusCodes block
  target : loc.action.target?.toList = proxyTargets block
  rules : loc.rules = cacheRules block

/-- A location has the numbers of its block. -/
theorem buildLocation_numbers {env : Externals} {path : String} {kind : LocationKind}
    {block : List Directive} {line : Nat} {serverRoot : Option String} {loc : Location}
    (h : buildLocation env path kind block line serverRoot = .ok loc) :
    LocationNumbers block loc := by
  rw [buildLocation] at h
  obtain ⟨draft, hdraft, h⟩ := bind_eq_ok.1 h
  obtain ⟨action, haction, h⟩ := bind_eq_ok.1 h
  obtain ⟨hstatuses, htarget⟩ := locationAction_numbers haction
  have hnum := draft_numbers hdraft
  split at h
  · cases h
  split at h
  · cases h
  obtain rfl := Except.ok.inj h
  have htargets : action.target?.toList = proxyTargets block := by
    rw [htarget, hnum.target]
  refine ⟨?_, htargets, ?_⟩
  · show action.statuses = statusCodes block
    rw [hstatuses, hnum.status, hnum.fallback, statusCodes]
  · simp only [cacheRules, ← hnum.rule, ← hnum.zone, ← htargets]
    cases action <;> cases draft.proxyCache <;>
      simp [Location.rules]

theorem locations_apply_patch {p : ServerPatch} (h : p.owner ≠ some "location") (s : Server) :
    (p.apply s).locations = s.locations := by
  cases p <;> first | rfl | exact absurd rfl h

/-- The locations of a server are those of its `location` lines, in order. -/
theorem buildServer_locationLines {env : Externals} {block : List Directive} {s : Server}
    (h : buildServer env block = .ok s) :
    List.Forall₂ (fun d loc => ∃ kind path, parseLocationPattern d.args d.line = .ok (kind, path) ∧
        buildLocation env path kind (d.block.getD []) d.line s.root = .ok loc)
      (linesNamed "location" block) s.locations := by
  rw [buildServer] at h
  obtain ⟨root, -, h⟩ := bind_eq_ok.1 h
  obtain ⟨s', hfold, h⟩ := bind_eq_ok.1 h
  rw [checkServer_eq h]
  -- the root is fixed before the locations are read
  have hboth : s'.root = root ∧
      List.Forall₂ (fun d loc => ∃ kind path,
          parseLocationPattern d.args d.line = .ok (kind, path) ∧
          buildLocation env path kind (d.block.getD []) d.line root = .ok loc)
        (linesNamed "location" block) s'.locations := by
    refine foldlM_induction (motive := fun seen s => s.root = root ∧
      List.Forall₂ (fun d loc => ∃ kind path,
          parseLocationPattern d.args d.line = .ok (kind, path) ∧
          buildLocation env path kind (d.block.getD []) d.line root = .ok loc)
        (linesNamed "location" seen) s.locations) ⟨rfl, List.Forall₂.nil⟩ ?_ hfold
    rintro seen d s s' ⟨hroot, hseen⟩ hstep
    rw [serverStep_eq, hroot] at hstep
    obtain ⟨p, hp, rfl⟩ := map_eq_ok.1 hstep
    refine ⟨(ServerPatch.apply_root p s).trans hroot, ?_⟩
    rw [linesNamed, List.filter_append]
    by_cases hname : d.name = "location"
    · rw [serverPatch, hname] at hp
      obtain ⟨⟨kind, path⟩, hpattern, hp⟩ := bind_eq_ok.1 hp
      obtain ⟨b, hb, hp⟩ := bind_eq_ok.1 hp
      obtain ⟨loc, hloc, hp⟩ := bind_eq_ok.1 hp
      obtain rfl := Except.ok.inj hp
      rw [← expectBlock_eq_ok hb] at hloc
      rw [List.filter_cons_of_pos (by simpa using hname)]
      exact List.rel_append hseen (.cons ⟨kind, path, hpattern, hloc⟩ .nil)
    · rw [List.filter_cons_of_neg (by simpa using hname), List.filter_nil, List.append_nil,
        locations_apply_patch]
      · exact hseen
      · rcases serverPatch_owner hp with howner | howner
        · rw [howner]
          exact (Option.some_ne_none _).symm
        · rw [howner]
          exact fun heq => hname (Option.some.inj heq)
  rw [hboth.1]
  exact hboth.2

/-! ## Upstreams -/

/-- The `fail_timeout` of a `server` line, ten seconds by default. -/
def failTimeoutOf (args : List String) : Text.Duration :=
  (args.tail.filterMap (keyed "fail_timeout=" parseDuration)).getLast?.getD (Text.fromSecs 10)

/-- The `interval` of a `health_check` line, five seconds by default. -/
def intervalOf (args : List String) : Text.Duration :=
  (args.filterMap (keyed "interval=" parseDuration)).getLast?.getD (Text.fromSecs 5)

/-- The timeouts of the servers of an upstream block. -/
def failTimeouts (block : List Directive) : List Text.Duration :=
  block.filterMap (given "server" fun args => some (failTimeoutOf args))

/-- The interval of the last `health_check` line of an upstream block, if it has one. -/
def probeIntervals (block : List Directive) : List Text.Duration :=
  (block.filterMap (given "health_check" fun args => some [intervalOf args])).getLast?.getD []

theorem serverFlag_failTimeout {line : Nat} {s s' : UpstreamServer} {a : String}
    (h : serverFlag line s a = .ok s') :
    s'.failTimeout = (keyed "fail_timeout=" parseDuration a).getD s.failTimeout := by
  rw [serverFlag] at h
  split at h
  · next w hw =>
    obtain ⟨n, -, h⟩ := bind_eq_ok.1 h
    obtain rfl := Except.ok.inj h
    rw [keyed_of_head_ne hw 'f' 'w' rfl rfl (by decide), Option.getD_none]
  split at h
  · next w hw =>
    obtain ⟨n, -, h⟩ := bind_eq_ok.1 h
    obtain rfl := Except.ok.inj h
    rw [keyed_of_head_ne hw 'f' 'm' rfl rfl (by decide), Option.getD_none]
  split at h
  · next t ht =>
    obtain ⟨timeout, htimeout, h⟩ := bind_eq_ok.1 h
    obtain rfl := Except.ok.inj h
    rw [keyed, ht, Option.bind_some, orError_eq_ok.1 htimeout, Option.getD_some]
  · next hnone =>
    rw [keyed, hnone, Option.bind_none, Option.getD_none]
    split at h
    · obtain rfl := Except.ok.inj h
      rfl
    split at h
    · obtain rfl := Except.ok.inj h
      rfl
    · obtain rfl := Except.ok.inj h
      rfl

theorem healthCheckArg_interval {line : Nat} {hc hc' : HealthCheckCfg} {a : String}
    (h : healthCheckArg line hc a = .ok hc') :
    hc'.interval = (keyed "interval=" parseDuration a).getD hc.interval := by
  rw [healthCheckArg] at h
  split at h
  · next v hv =>
    obtain rfl := Except.ok.inj h
    rw [keyed_of_head_ne hv 'i' 'u' rfl rfl (by decide), Option.getD_none]
  split at h
  · next v hv =>
    obtain ⟨t, ht, h⟩ := bind_eq_ok.1 h
    obtain rfl := Except.ok.inj h
    rw [keyed, hv, Option.bind_some, orError_eq_ok.1 ht, Option.getD_some]
  · next hnone =>
    rw [keyed, hnone, Option.bind_none, Option.getD_none]
    -- the other keys set other fields
    split at h
    · obtain ⟨t, -, h⟩ := bind_eq_ok.1 h
      obtain rfl := Except.ok.inj h
      rfl
    split at h
    · obtain ⟨n, -, h⟩ := bind_eq_ok.1 h
      obtain rfl := Except.ok.inj h
      rfl
    split at h
    · obtain ⟨n, -, h⟩ := bind_eq_ok.1 h
      obtain rfl := Except.ok.inj h
      rfl
    split at h
    · obtain ⟨n, -, h⟩ := bind_eq_ok.1 h
      obtain rfl := Except.ok.inj h
      rfl
    · obtain rfl := Except.ok.inj h
      rfl

/-- The numbers of an upstream are those of its block. -/
structure UpstreamNumbers (block : List Directive) (up : Upstream) : Prop where
  timeouts : up.servers.map UpstreamServer.failTimeout = failTimeouts block
  interval : (up.healthCheck.map HealthCheckCfg.interval).toList = probeIntervals block

/-- What a directive of an upstream block does to the numbers. -/
theorem upstreamDirective_numbers {up up' : Upstream} {d : Directive}
    (h : upstreamDirective up d = .ok up') :
    up'.name = up.name ∧
      up'.servers.map UpstreamServer.failTimeout = up.servers.map UpstreamServer.failTimeout ++
        (given "server" (fun args => some (failTimeoutOf args)) d).toList ∧
      (up'.healthCheck.map HealthCheckCfg.interval).toList =
        (given "health_check" (fun args => some [intervalOf args]) d).getD
          (up.healthCheck.map HealthCheckCfg.interval).toList := by
  rw [upstreamDirective] at h
  split at h
  case h_1 hname =>
      split at h
      · cases h
      · next addr flags hargs =>
        obtain ⟨s, hs, h⟩ := bind_eq_ok.1 h
        obtain rfl := Except.ok.inj h
        have htimeout : s.failTimeout = failTimeoutOf d.args := by
          rw [hargs]
          exact foldlM_replaces UpstreamServer.failTimeout
            (fun s a s' hstep => serverFlag_failTimeout hstep) hs
        simp [given, hname, htimeout]
  case h_7 hname =>
      obtain ⟨hc, hhc, h⟩ := bind_eq_ok.1 h
      obtain rfl := Except.ok.inj h
      have hinterval : hc.interval = intervalOf d.args :=
        foldlM_replaces HealthCheckCfg.interval
          (fun hc a hc' hstep => healthCheckArg_interval hstep) hhc
      simp [given, hname, hinterval]
  case h_8 => cases h
  all_goals
    rename_i hname
    obtain rfl := Except.ok.inj h
    simp [given, hname]

/-- An upstream has the numbers of its block, and the name of its line. -/
theorem upstreamBlock_numbers {d : Directive} {up : Upstream} (h : upstreamBlock d = .ok up) :
    d.args.head? = some up.name ∧ UpstreamNumbers (d.block.getD []) up := by
  rw [upstreamBlock] at h
  obtain ⟨name, hname, h⟩ := bind_eq_ok.1 h
  obtain ⟨block, hblock, h⟩ := bind_eq_ok.1 h
  rw [buildUpstream] at h
  obtain ⟨up', hfold, h⟩ := bind_eq_ok.1 h
  split at h
  · cases h
  obtain rfl := Except.ok.inj h
  rw [expectBlock_eq_ok hblock]
  refine ⟨?_, ?_, ?_⟩
  · rw [arg1_eq_ok.1 hname]
    refine congrArg some (foldlM_induction (motive := fun _ up => name = up.name) rfl ?_ hfold)
    intro read d up up' hread hstep
    rw [hread, (upstreamDirective_numbers hstep).1]
  · refine foldlM_appends (fun up : Upstream => up.servers.map UpstreamServer.failTimeout) ?_ hfold
    intro up d up' hstep
    exact (upstreamDirective_numbers hstep).2.1
  · refine foldlM_replaces
      (fun up : Upstream => (up.healthCheck.map HealthCheckCfg.interval).toList) ?_ hfold
    intro up d up' hstep
    exact (upstreamDirective_numbers hstep).2.2

/-! ## The `http` and `stream` blocks -/

/-- The last block of a name, which replaces the others. -/
def lastBlock (name : String) (dirs : List Directive) : List Directive :=
  (blocksNamed name dirs).getLast?.getD []

/-- The upstreams of the `http` block are those of its `upstream` lines, in order. -/
theorem buildHttp_upstreams {env : Externals} {block : List Directive} {http : HttpBlock}
    (h : buildHttp env block = .ok http) :
    List.Forall₂ (fun d up => upstreamBlock d = .ok up) (linesNamed "upstream" block)
      http.upstreams := by
  refine foldlM_collects HttpBlock.upstreams rfl ?_ h
  intro http d http' hstep
  simpa using (httpStep_collects hstep).2

/-- The `proxy_pass` of a stream server block. -/
def streamTargets (block : List Directive) : List String :=
  (block.filterMap (given "proxy_pass" fun args => args.head?.map fun a => [a])).getLast?.getD []

theorem streamServerStep_target {s s' : StreamServer} {d : Directive}
    (h : streamServerStep s d = .ok s') :
    s'.proxyPass.toList =
      (given "proxy_pass" (fun args => args.head?.map fun a => [a]) d).getD s.proxyPass.toList := by
  rw [streamServerStep] at h
  split at h
  case h_2 hname =>
      obtain ⟨target, htarget, h⟩ := bind_eq_ok.1 h
      obtain rfl := Except.ok.inj h
      simp [given, hname, arg1_eq_ok.1 htarget]
  case h_1 hname =>
      obtain ⟨a, -, h⟩ := bind_eq_ok.1 h
      split at h
      · cases h
      obtain ⟨addr, -, h⟩ := bind_eq_ok.1 h
      obtain rfl := Except.ok.inj h
      simp [given, hname]
  case h_7 => cases h
  all_goals
    rename_i hname
    obtain rfl := Except.ok.inj h
    simp [given, hname]

/-- A stream server has the target of its last `proxy_pass` line. -/
theorem buildStreamServer_target {block : List Directive} {s : StreamServer}
    (h : buildStreamServer block = .ok s) : s.proxyPass.toList = streamTargets block := by
  rw [buildStreamServer] at h
  obtain ⟨s', hfold, h⟩ := bind_eq_ok.1 h
  split at h
  · cases h
  split at h
  · cases h
  obtain rfl := Except.ok.inj h
  exact foldlM_replaces (fun s : StreamServer => s.proxyPass.toList)
    (fun _ _ _ hstep => streamServerStep_target hstep) hfold

/-- The stream block collects its upstreams and its servers. -/
theorem streamStep_collects {st st' : StreamBlock} {d : Directive}
    (h : streamStep st d = .ok st') :
    (if d.name = "upstream" then
      ∃ up, upstreamBlock d = .ok up ∧ st'.upstreams = st.upstreams ++ [up]
    else st'.upstreams = st.upstreams) ∧
    if d.name = "server" then
      ∃ s, buildStreamServer (d.block.getD []) = .ok s ∧ st'.servers = st.servers ++ [s]
    else st'.servers = st.servers := by
  rw [streamStep] at h
  split at h
  case h_1 hname =>
      obtain ⟨up, hup, h⟩ := bind_eq_ok.1 h
      obtain rfl := Except.ok.inj h
      rw [if_pos hname, if_neg (by simp [hname])]
      exact ⟨⟨up, hup, rfl⟩, rfl⟩
  case h_2 hname =>
      obtain ⟨b, hb, h⟩ := bind_eq_ok.1 h
      obtain ⟨s, hs, h⟩ := bind_eq_ok.1 h
      obtain rfl := Except.ok.inj h
      rw [if_neg (by simp [hname]), if_pos hname, expectBlock_eq_ok hb]
      exact ⟨rfl, s, hs, rfl⟩
  case h_3 hup hserver =>
      rw [if_neg hup, if_neg hserver]
      split at h
      · obtain rfl := Except.ok.inj h
        exact ⟨rfl, rfl⟩
      · cases h

theorem buildStream_upstreams {block : List Directive} {st : StreamBlock}
    (h : buildStream block = .ok st) :
    List.Forall₂ (fun d up => upstreamBlock d = .ok up) (linesNamed "upstream" block)
      st.upstreams := by
  refine foldlM_collects StreamBlock.upstreams rfl ?_ h
  intro st d st' hstep
  simpa using (streamStep_collects hstep).1

theorem buildStream_servers {block : List Directive} {st : StreamBlock}
    (h : buildStream block = .ok st) :
    List.Forall₂ (fun d s => buildStreamServer (d.block.getD []) = .ok s)
      (linesNamed "server" block) st.servers := by
  refine foldlM_collects StreamBlock.servers rfl ?_ h
  intro st d st' hstep
  simpa using (streamStep_collects hstep).2

/-! ## The main context -/

/-- The `http` block of an accepted configuration is its last one. -/
theorem build_lastHttp {env : Externals} {dirs : List Directive} {cfg : MainConfig}
    {http : HttpBlock} (h : build env dirs = .ok cfg) (hhttp : cfg.http = some http) :
    buildHttp env (lastBlock "http" dirs) = .ok http := by
  obtain ⟨block, hlast, hbuild⟩ := build_http h http hhttp
  rw [lastBlock, hlast]
  exact hbuild

/-- The `stream` block of an accepted configuration is its last one; none is an empty one. -/
theorem build_lastStream {env : Externals} {dirs : List Directive} {cfg : MainConfig}
    (h : build env dirs = .ok cfg) :
    buildStream (lastBlock "stream" dirs) = .ok (cfg.stream.getD {}) := by
  refine foldlM_induction (motive := fun read (cfg : MainConfig) =>
    buildStream (lastBlock "stream" read) = .ok (cfg.stream.getD {})) rfl ?_ h
  intro read d cfg cfg' hread hstep
  have hstream := (mainStep_replaces hstep).2
  by_cases hname : d.name = "stream"
  · rw [if_pos hname] at hstream
    obtain ⟨st, hst, hcfg⟩ := hstream
    rw [lastBlock, blocksNamed_concat_of_eq hname, List.getLast?_concat, hcfg]
    exact hst
  · rw [if_neg hname] at hstream
    rw [lastBlock, blocksNamed_concat_of_ne hname, hstream]
    exact hread

end Elrond.Config
