import Elrond.Cache.Store
import Elrond.Http.Fields

/-!
# Which responses may be stored

`decide_caching` against what it is for. `Storable` states when a response may be stored, over all
lines of a header and over every spelling of a directive. The code reads less than that: the first
Cache-Control line only, no line that is not readable as text, and directives without an argument
only. `decideCaching_exact_iff` says when this does not show: the response is refused for a reason
the code sees, or nothing is hidden from it.
-/

set_option autoImplicit false

namespace Elrond.Cache

open Elrond.Lib Elrond.Http

/-! ## The decision a shared cache owes -/

/-- The directives that forbid storing. -/
def forbidding : List String := ["no-store", "private", "no-cache"]

/-- The directive of a Cache-Control member: its name in lower case, without an argument. -/
def directive (member : String) : String :=
  Text.toAsciiLowercase (String.ofList (member.toList.takeWhile (· != '=')))

/-- A rule covers a status if it names it, or names none. -/
def Covers (rule : List Nat × Text.Duration) (status : Nat) : Prop :=
  rule.1 = [] ∨ status ∈ rule.1

/-- `ttl` is the duration of the last rule that covers the status. -/
def LastRule (rules : List (List Nat × Text.Duration)) (status : Nat) (ttl : Text.Duration) :
    Prop :=
  ∃ before rule after, rules = before ++ rule :: after ∧ Covers rule status ∧
    (∀ r ∈ after, ¬ Covers r status) ∧ rule.2 = ttl

/-- The response may be stored for `ttl`. -/
structure Storable (method : Method) (headers : HeaderMap) (status bodyLen : Nat)
    (rules : List (List Nat × Text.Duration)) (ttl : Text.Duration) : Prop where
  isGet : method = .get
  noCookie : headers.getAll "set-cookie" = []
  noStar : ∀ v ∈ headers.getAll "vary", "*" ∉ v.members
  allowed : ∀ v ∈ headers.getAll "cache-control", ∀ m ∈ v.members, directive m ∉ forbidding
  fits : bodyLen ≤ maxEntryBytes
  rule : LastRule rules status ttl

/-! ## What the code sees -/

/-- There is a reason to refuse the response that the code sees. -/
inductive RefusedInSight (method : Method) (headers : HeaderMap) (status bodyLen : Nat)
    (rules : List (List Nat × Text.Duration)) : Prop where
  | method (h : method ≠ .get)
  | cookie (h : headers.getAll "set-cookie" ≠ [])
  | star (v : HeaderValue) (hv : v ∈ headers.getAll "vary") (hread : v.toStr.isSome)
      (h : "*" ∈ v.members)
  | control (v : HeaderValue) (hv : headers.get "cache-control" = some v) (hread : v.toStr.isSome)
      (m : String) (hm : m ∈ v.members) (h : Text.toAsciiLowercase m ∈ forbidding)
  | size (h : maxEntryBytes < bodyLen)
  | rules (h : ∀ r ∈ rules, ¬ Covers r status)

/-- The headers forbid storing where the code does not look: in a line that is not readable as
text, in a Cache-Control line after the first, or by a directive with an argument. -/
inductive Hides (headers : HeaderMap) : Prop where
  | star (v : HeaderValue) (hv : v ∈ headers.getAll "vary") (hread : v.toStr = none)
      (h : "*" ∈ v.members)
  | control (v : HeaderValue) (hv : v ∈ headers.getAll "cache-control") (m : String)
      (hm : m ∈ v.members) (h : directive m ∈ forbidding)
      (hhidden : v.toStr = none ∨ v ∈ (headers.getAll "cache-control").tail ∨ '=' ∈ m.toList)

variable {method : Method} {headers : HeaderMap} {status bodyLen : Nat}
variable {rules : List (List Nat × Text.Duration)} {ttl : Text.Duration}

/-! ## Rules -/

/-- `Covers` as the code tests it. -/
def covers (status : Nat) (rule : List Nat × Text.Duration) : Bool :=
  rule.1.isEmpty || rule.1.contains status

theorem covers_iff {rule : List Nat × Text.Duration} :
    covers status rule = true ↔ Covers rule status := by
  simp [covers, Covers]

/-- The loop over the rules keeps the last one that covers the status. -/
theorem matchingTtl_eq : matchingTtl rules status =
    (rules.reverse.find? (covers status)).map Prod.snd := by
  induction rules using List.reverseRecOn with
  | nil => rfl
  | append_singleton rules rule ih =>
      rw [matchingTtl, List.foldl_append, List.foldl_cons, List.foldl_nil, List.reverse_append,
        List.reverse_singleton, List.singleton_append, List.find?_cons]
      rw [matchingTtl] at ih
      rw [ih, ← covers]
      cases covers status rule <;> rfl

theorem matchingTtl_eq_some : matchingTtl rules status = some ttl ↔ LastRule rules status ttl := by
  rw [matchingTtl_eq, Option.map_eq_some_iff]
  constructor
  · rintro ⟨rule, hfind, rfl⟩
    obtain ⟨hrule, after, before, heq, hafter⟩ := List.find?_eq_some_iff_append.1 hfind
    refine ⟨before.reverse, rule, after.reverse, ?_, covers_iff.1 hrule, ?_, rfl⟩
    · rw [List.reverse_eq_iff.1 heq]
      simp
    · intro r hr hcovers
      have hno := hafter r (List.mem_reverse.1 hr)
      rw [covers_iff.2 hcovers] at hno
      exact Bool.noConfusion hno
  · rintro ⟨before, rule, after, rfl, hrule, hafter, rfl⟩
    refine ⟨rule, List.find?_eq_some_iff_append.2 ⟨covers_iff.2 hrule, after.reverse,
      before.reverse, by simp, ?_⟩, rfl⟩
    intro r hr
    rw [Bool.not_eq_true', ← Bool.not_eq_true, covers_iff]
    exact hafter r (List.mem_reverse.1 hr)

theorem matchingTtl_eq_none :
    matchingTtl rules status = none ↔ ∀ r ∈ rules, ¬ Covers r status := by
  rw [matchingTtl_eq, Option.map_eq_none_iff, List.find?_eq_none]
  simp only [List.mem_reverse, covers_iff]

/-! ## Members -/

theorem directive_of_notMem {m : String} (h : '=' ∉ m.toList) :
    directive m = Text.toAsciiLowercase m := by
  have hall : ∀ c ∈ m.toList, (c != '=') = true := by
    intro c hc
    rw [bne_iff_ne]
    rintro rfl
    exact h hc
  rw [directive, List.takeWhile_eq_self_iff.2 hall, String.ofList_toList]

/-- A member that is a forbidding directive as it stands has no argument. -/
theorem notMem_of_forbidding {m : String} (h : Text.toAsciiLowercase m ∈ forbidding) :
    '=' ∉ m.toList := by
  intro hmem
  have hlower := mem_toAsciiLowercase (by decide) hmem
  have hno : ∀ f ∈ forbidding, '=' ∉ f.toList := by decide
  exact hno _ h hlower

/-- What the code looks for in a Cache-Control line it can read. -/
theorem forbidsCaching_iff {v : HeaderValue} {s : String} (h : v.toStr = some s) :
    forbidsCaching s = true ↔ ∃ m ∈ v.members, Text.toAsciiLowercase m ∈ forbidding := by
  have htok : ∀ tok : String, (tok == "no-store" || tok == "private" || tok == "no-cache") = true ↔
      tok ∈ forbidding := by
    intro tok
    simp [forbidding, or_assoc]
  rw [forbidsCaching, split_toAsciiLowercase, members_of_toStr h, List.any_map, List.any_eq_true]
  simp only [Function.comp_apply, htok, trim_toAsciiLowercase, List.mem_filter, List.mem_map,
    decide_eq_true_eq]
  constructor
  · rintro ⟨piece, hpiece, hm⟩
    refine ⟨Text.trim piece, ⟨⟨piece, hpiece, rfl⟩, ?_⟩, hm⟩
    intro hempty
    rw [hempty] at hm
    exact absurd hm (by decide)
  · rintro ⟨_, ⟨⟨piece, hpiece, rfl⟩, -⟩, hm⟩
    exact ⟨piece, hpiece, hm⟩

theorem toAsciiLowercase_eq_star {m : String} : Text.toAsciiLowercase m = "*" ↔ m = "*" := by
  rw [← String.toList_inj, ← String.toList_inj, Text.toAsciiLowercase, String.toList_ofList]
  have hstar : ∀ c : Char, c.toLower = '*' ↔ c = '*' := by
    intro c
    rw [← beq_iff_eq, apply_toLower (· == '*') (by decide), beq_iff_eq]
  show m.toList.map Char.toLower = ['*'] ↔ m.toList = ['*']
  rw [List.map_eq_cons_iff]
  constructor
  · rintro ⟨c, cs, heq, hc, hcs⟩
    rw [heq, (hstar c).1 hc, List.map_eq_nil_iff.1 hcs]
  · intro heq
    exact ⟨'*', [], heq, rfl, rfl⟩

/-- The code finds `*` in the Vary lines it can read. -/
theorem star_mem_parseVary : "*" ∈ parseVary headers ↔
    ∃ v ∈ headers.getAll "vary", v.toStr.isSome ∧ "*" ∈ v.members := by
  rw [parseVary, List.mem_flatMap]
  constructor
  · rintro ⟨v, hv, hmem⟩
    cases hread : v.toStr with
    | none =>
        rw [hread] at hmem
        exact absurd hmem List.not_mem_nil
    | some s =>
        rw [hread] at hmem
        simp only [List.mem_filter, List.mem_map, toAsciiLowercase_eq_star] at hmem
        obtain ⟨⟨piece, hpiece, hstar⟩, -⟩ := hmem
        refine ⟨v, hv, by simp [hread], ?_⟩
        rw [members_of_toStr hread, List.mem_filter, List.mem_map]
        exact ⟨⟨piece, hpiece, hstar⟩, by decide⟩
  · rintro ⟨v, hv, hread, hmem⟩
    obtain ⟨s, hs⟩ := Option.isSome_iff_exists.1 hread
    refine ⟨v, hv, ?_⟩
    rw [members_of_toStr hs, List.mem_filter, List.mem_map] at hmem
    obtain ⟨⟨piece, hpiece, hstar⟩, -⟩ := hmem
    rw [hs]
    simp only [List.mem_filter, List.mem_map, toAsciiLowercase_eq_star]
    exact ⟨⟨piece, hpiece, hstar⟩, by decide⟩

/-! ## The decision -/

theorem get_isSome_iff (name : String) :
    (headers.get name).isSome = true ↔ headers.getAll name ≠ [] := by
  rw [HeaderMap.get, List.isSome_head?]

/-- The code finds a forbidding directive in the first Cache-Control line, if it can read it. -/
theorem any_forbidsCaching_iff :
    ((headers.get "cache-control").bind HeaderValue.toStr).any forbidsCaching = true ↔
      ∃ v, headers.get "cache-control" = some v ∧ v.toStr.isSome ∧
        ∃ m ∈ v.members, Text.toAsciiLowercase m ∈ forbidding := by
  rw [Option.any_eq_true]
  simp only [Option.bind_eq_some_iff]
  constructor
  · rintro ⟨s, ⟨v, hv, hs⟩, hforbids⟩
    exact ⟨v, hv, by simp [hs], (forbidsCaching_iff hs).1 hforbids⟩
  · rintro ⟨v, hv, hread, hm⟩
    obtain ⟨s, hs⟩ := Option.isSome_iff_exists.1 hread
    exact ⟨s, ⟨v, hv, hs⟩, (forbidsCaching_iff hs).2 hm⟩

/-- The code stores a response exactly if it sees no reason to refuse it, and for the duration of
the last rule. -/
theorem decideCaching_eq_store : decideCaching method headers status bodyLen rules = .store ttl ↔
    ¬ RefusedInSight method headers status bodyLen rules ∧ LastRule rules status ttl := by
  rw [← matchingTtl_eq_some, decideCaching]
  by_cases hmethod : method ≠ .get
  · rw [if_pos hmethod]
    exact iff_of_false (by simp) fun h => h.1 (.method hmethod)
  rw [if_neg hmethod]
  by_cases hcookie : (headers.get "set-cookie").isSome = true
  · rw [if_pos hcookie]
    exact iff_of_false (by simp) fun h => h.1 (.cookie ((get_isSome_iff _).1 hcookie))
  rw [if_neg hcookie]
  by_cases hstar : (parseVary headers).any (· == "*") = true
  · rw [if_pos hstar]
    have hmem : "*" ∈ parseVary headers := by simpa using hstar
    obtain ⟨v, hv, hread, hm⟩ := star_mem_parseVary.1 hmem
    exact iff_of_false (by simp) fun h => h.1 (.star v hv hread hm)
  rw [if_neg hstar]
  by_cases hcontrol :
      ((headers.get "cache-control").bind HeaderValue.toStr).any forbidsCaching = true
  · rw [if_pos hcontrol]
    obtain ⟨v, hv, hread, m, hm, hforbids⟩ := any_forbidsCaching_iff.1 hcontrol
    exact iff_of_false (by simp) fun h => h.1 (.control v hv hread m hm hforbids)
  rw [if_neg hcontrol]
  by_cases hsize : maxEntryBytes < bodyLen
  · rw [if_pos hsize]
    exact iff_of_false (by simp) fun h => h.1 (.size hsize)
  rw [if_neg hsize]
  cases hrule : matchingTtl rules status with
  | none => simp
  | some d =>
      -- none of the reasons applies
      have hnone : ¬ RefusedInSight method headers status bodyLen rules := by
        rintro (h | h | ⟨v, hv, hread, hm⟩ | ⟨v, hv, hread, m, hm, hforbids⟩ | h | h)
        · exact hmethod h
        · exact hcookie ((get_isSome_iff _).2 h)
        · apply hstar
          simpa using star_mem_parseVary.2 ⟨v, hv, hread, hm⟩
        · exact hcontrol (any_forbidsCaching_iff.2 ⟨v, hv, hread, m, hm, hforbids⟩)
        · exact hsize h
        · rw [matchingTtl_eq_none.2 h] at hrule
          cases hrule
      simp [hnone]

/-- A response may be stored exactly if there is no reason to refuse it, seen or hidden. -/
theorem storable_iff : Storable method headers status bodyLen rules ttl ↔
    ¬ RefusedInSight method headers status bodyLen rules ∧ ¬ Hides headers ∧
      LastRule rules status ttl := by
  constructor
  · intro h
    refine ⟨?_, ?_, h.rule⟩
    · rintro (hr | hr | ⟨v, hv, _, hm⟩ | ⟨v, hv, _, m, hm, hforbids⟩ | hr | hr)
      · exact hr h.isGet
      · exact hr h.noCookie
      · exact h.noStar v hv hm
      · apply h.allowed v (List.mem_of_mem_head? hv) m hm
        rwa [directive_of_notMem (notMem_of_forbidding hforbids)]
      · exact absurd h.fits (by omega)
      · obtain ⟨before, rule, after, rfl, hcovers, -⟩ := h.rule
        exact hr rule (by simp) hcovers
    · rintro (⟨v, hv, _, hm⟩ | ⟨v, hv, m, hm, hforbids, _⟩)
      · exact h.noStar v hv hm
      · exact h.allowed v hv m hm hforbids
  · rintro ⟨hsight, hhidden, hrule⟩
    refine ⟨?_, ?_, ?_, ?_, ?_, hrule⟩
    · by_contra h
      exact hsight (.method h)
    · by_contra h
      exact hsight (.cookie h)
    · intro v hv hm
      cases hread : v.toStr with
      | none => exact hhidden (.star v hv hread hm)
      | some s => exact hsight (.star v hv (by simp [hread]) hm)
    -- A forbidding directive that is not hidden stands bare in the first line.
    · intro v hv m hm hforbids
      by_cases hlater : v.toStr = none ∨ v ∈ (headers.getAll "cache-control").tail ∨ '=' ∈ m.toList
      · exact hhidden (.control v hv m hm hforbids hlater)
      · simp only [not_or] at hlater
        obtain ⟨hread, htail, harg⟩ := hlater
        have hfirst : headers.get "cache-control" = some v := by
          rw [HeaderMap.get]
          cases hlines : headers.getAll "cache-control" with
          | nil =>
              rw [hlines] at hv
              exact absurd hv List.not_mem_nil
          | cons first others =>
              rw [hlines] at hv htail
              rcases List.mem_cons.1 hv with rfl | hv
              · rfl
              · exact absurd hv htail
        rw [directive_of_notMem harg] at hforbids
        exact hsight (.control v hfirst (Option.isSome_iff_ne_none.2 hread) m hm hforbids)
    · by_contra h
      exact hsight (.size (by omega))

/-- `decide_caching` stores exactly what may be stored, unless the headers hide a reason to refuse
the response and the code sees no other. -/
theorem decideCaching_exact_iff (method : Method) (headers : HeaderMap) (status bodyLen : Nat)
    (rules : List (List Nat × Text.Duration)) :
    (∀ ttl, decideCaching method headers status bodyLen rules = .store ttl ↔
      Storable method headers status bodyLen rules ttl) ↔
      RefusedInSight method headers status bodyLen rules ∨ ¬ Hides headers := by
  simp only [decideCaching_eq_store, storable_iff]
  constructor
  · intro h
    by_contra hno
    simp only [not_or, not_not] at hno
    obtain ⟨hsight, hhides⟩ := hno
    cases hrule : matchingTtl rules status with
    | none => exact hsight (.rules (matchingTtl_eq_none.1 hrule))
    | some ttl =>
        have hstored := (h ttl).1 ⟨hsight, matchingTtl_eq_some.1 hrule⟩
        exact hstored.2.1 hhides
  · rintro (hsight | hhides) ttl
    · simp [hsight]
    · simp [hhides]

theorem isHeaderName_cacheControl : isHeaderName "cache-control" = true := by decide

/-- The `cache-control` header name. -/
def cacheControl : HeaderName := ⟨"cache-control", isHeaderName_cacheControl⟩

/-- A Cache-Control field in two lines, the second of which forbids storing. -/
def twoControls : HeaderMap :=
  HeaderMap.append (HeaderMap.append ∅ cacheControl ⟨Text.utf8Bytes "max-age=60", by decide⟩)
    cacheControl ⟨Text.utf8Bytes "no-store", by decide⟩

/-- The second Cache-Control line of a response is not read. -/
theorem second_control_is_missed :
    ¬ ∀ ttl, decideCaching .get twoControls 200 0 [([], 60)] = .store ttl ↔
      Storable .get twoControls 200 0 [([], 60)] ttl := by
  intro h
  have hstored : Storable .get twoControls 200 0 [([], 60)] 60 := (h 60).1 (by decide)
  exact hstored.allowed ⟨Text.utf8Bytes "no-store", by decide⟩ (by decide) "no-store" (by decide)
    (by decide)

end Elrond.Cache
