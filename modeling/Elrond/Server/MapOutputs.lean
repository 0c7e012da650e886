import Elrond.Server.MapVariables

/-!
# Outputs of `map` in templates

`build_map` takes any text behind the `$` as the name of its output, and templates read names back
by their own rules: `classify` knows the built-in variables and three prefixes, a bare name is a run
of name characters, a braced one ends at the first closing brace. `map_output_usable_iff` says for
which names the two agree.

A name that does not come through leaves the template as it was: what it renders to does not depend
on what the map produced (`render_of_no_reference`), while the maps `alwaysMap` produce two
different values.
-/

set_option autoImplicit false

namespace Elrond.Server

open Elrond.Lib Elrond.Http Elrond.Request Elrond.Config Elrond.App Elrond.Lib.Interpolation

/-! ## References to an output -/

/-- Wherever `${n}` stands as a reference in a template, it is rendered as the value. -/
def RendersBraced (ctx : RequestCtx) (n value : String) : Prop :=
  ∀ before after : String, EveryBraceCloses before.toList →
    (Template.parse (before ++ "$\x7b" ++ n ++ "\x7d" ++ after)).render ctx =
      (Template.parse before).render ctx ++ value ++ (Template.parse after).render ctx

/-- Wherever `$n` stands in a template and no name character follows, it is rendered as the
value. -/
def RendersBare (ctx : RequestCtx) (n value : String) : Prop :=
  ∀ before after : String, EveryBraceCloses before.toList →
    (∀ c ∈ after.toList.head?, Interpolation.isNameChar c = false) →
    (Template.parse (before ++ "$" ++ n ++ after)).render ctx =
      (Template.parse before).render ctx ++ value ++ (Template.parse after).render ctx

/-- For every declaration with output `n` that `build_map` accepts and that is the last one for `n`,
and every request, references to `n` are rendered as the value that the map produced. -/
def Published (renders : RequestCtx → String → String → Prop) (n : String) : Prop :=
  ∀ (args : List String) (block : List Directive) (line : Nat) (m : MapDecl) (state : ServerState)
    (earlier later : List MapDecl) (peer : SocketAddr) (method : Method) (uri : Uri)
    (headers : HeaderMap),
    buildMap args block line = .ok m → m.outputName = n →
    state.maps = earlier ++ m :: later → (∀ m' ∈ later, m'.outputName ≠ n) →
    renders (requestContext state peer method uri headers) n
      (declaredValue
        (contextOf state peer method uri headers
          (evalMaps (contextOf state peer method uri headers) earlier)) m)

/-! ## Names that come through -/

/-- Declarations of other names keep the variable. -/
theorem lookup_foldl_maps (context : HashMap String String → RequestCtx) {n : String}
    (later : List MapDecl) (hlater : ∀ m' ∈ later, m'.outputName ≠ n)
    (vars : HashMap String String) :
    (later.foldl (fun vars m => vars.insert m.outputName (mapValue (context vars) m)) vars).lookup
      n = vars.lookup n := by
  induction later generalizing vars with
  | nil => rfl
  | cons m later ih =>
      have hne : n ≠ m.outputName := Ne.symm (hlater m List.mem_cons_self)
      rw [List.foldl_cons, ih fun m' hm' => hlater m' (List.mem_cons_of_mem m hm'),
        HashMap.lookup_insert_eq, if_neg hne]

/-- The last declaration of a name sets its variable. -/
theorem lookup_evalMaps_last (context : HashMap String String → RequestCtx)
    (earlier later : List MapDecl) (m : MapDecl)
    (hlater : ∀ m' ∈ later, m'.outputName ≠ m.outputName) :
    (evalMaps context (earlier ++ m :: later)).lookup m.outputName =
      some (declaredValue (context (evalMaps context earlier)) m) := by
  rw [evalMaps, List.foldl_append, List.foldl_cons, lookup_foldl_maps context later hlater,
    HashMap.lookup_insert_eq, if_pos rfl, mapValue_eq]
  rfl

/-- A user variable renders as its value. -/
theorem referenceText_user {ctx : RequestCtx} {n value : String} (hclass : classify n = .unknown n)
    (hvalue : ctx.userVars.lookup n = some value) : referenceText ctx n.toList = value.toList := by
  rw [referenceText, String.ofList_toList, hclass, VarRef.render, RequestCtx.userVar, hvalue]
  rfl

theorem rendersBraced_of_user {ctx : RequestCtx} {n value : String} (hbrace : '}' ∉ n.toList)
    (hclass : classify n = .unknown n) (hvalue : ctx.userVars.lookup n = some value) :
    RendersBraced ctx n value := by
  intro before after hbefore
  have htext : (before ++ "$\x7b" ++ n ++ "\x7d" ++ after).toList =
      before.toList ++ '$' :: '{' :: (n.toList ++ '}' :: after.toList) := by
    simp
  rw [← String.toList_inj, String.toList_append, String.toList_append, toList_render_parse,
    toList_render_parse, toList_render_parse, htext, renderedText_append ctx hbefore rfl,
    renderedText_reference ctx (nextReference_close hbrace after.toList),
    referenceText_user hclass hvalue, List.append_assoc]

theorem rendersBare_of_user {ctx : RequestCtx} {n value : String} (hne : n.toList ≠ [])
    (hname : ∀ c ∈ n.toList, Interpolation.isNameChar c = true) (hclass : classify n = .unknown n)
    (hvalue : ctx.userVars.lookup n = some value) : RendersBare ctx n value := by
  intro before after hbefore hafter
  have htext : (before ++ "$" ++ n ++ after).toList =
      before.toList ++ '$' :: (n.toList ++ after.toList) := by
    simp
  rw [← String.toList_inj, String.toList_append, String.toList_append, toList_render_parse,
    toList_render_parse, toList_render_parse, htext, renderedText_append ctx hbefore rfl,
    renderedText_reference ctx (nextReference_name hne hname hafter),
    referenceText_user hclass hvalue, List.append_assoc]

/-! ## Names that do not -/

/-- Only a name that is no built-in variable is looked up, and it is looked up as it is. -/
theorem eq_of_classify_unknown {name n : String} (h : classify name = .unknown n) : name = n := by
  unfold classify at h
  split at h
  · cases h
  · split at h
    · cases h
    · split at h
      · cases h
      · -- the fixed names, and last every other one
        split at h
        all_goals first | exact VarRef.unknown.inj h | cases h

/-- The value of another reference does not depend on the variable. -/
theorem referenceText_of_ne {ctx : RequestCtx} {vars vars' : HashMap String String} {n : String}
    (hvars : ∀ k, k ≠ n → vars.lookup k = vars'.lookup k) {name : List Char}
    (hname : classify (String.ofList name) ≠ .unknown n) :
    referenceText { ctx with userVars := vars } name =
      referenceText { ctx with userVars := vars' } name := by
  rw [referenceText, referenceText]
  cases hclass : classify (String.ofList name) with
  | unknown k =>
      -- only a user variable is looked up, and this one has another name
      have hk : k ≠ n := by
        rintro rfl
        exact hname hclass
      simp only [VarRef.render, RequestCtx.userVar]
      rw [hvars k hk]
  | host => rfl
  | remoteAddr => rfl
  | requestUri => rfl
  | uri => rfl
  | requestMethod => rfl
  | args => rfl
  | scheme => rfl
  | serverName => rfl
  | arg k => rfl
  | http k => rfl
  | cookie k => rfl

/-- A template without a reference to the variable renders the same for all its values. -/
theorem render_of_no_reference {ctx : RequestCtx} {vars vars' : HashMap String String} {n s : String}
    (hvars : ∀ k, k ≠ n → vars.lookup k = vars'.lookup k)
    (href : ∀ name, .reference name ∈ pieces s.toList →
      classify (String.ofList name) ≠ .unknown n) :
    (Template.parse s).render { ctx with userVars := vars } =
      (Template.parse s).render { ctx with userVars := vars' } := by
  rw [← String.toList_inj, toList_render_parse, toList_render_parse]
  apply renderedText_congr
  intro name hname
  exact referenceText_of_ne hvars (href name hname)

/-- The rule `default value;`. -/
def defaultRule (value : String) : Directive := ⟨"default", [value], none, 1⟩

/-- The declaration `map "" $n { default value; }`. -/
def alwaysMap (n value : String) : MapDecl :=
  ⟨Template.parse "", n, [mapRule (defaultRule value)]⟩

theorem buildMap_alwaysMap (n value : String) :
    buildMap ["", "$" ++ n] [defaultRule value] 1 = .ok (alwaysMap n value) := by
  rw [buildMap, Text.stripPrefix_append]
  rfl

theorem declaredValue_alwaysMap (ctx : RequestCtx) (n value : String) :
    declaredValue ctx (alwaysMap n value) = (Template.parse value).render ctx := rfl

/-- A server with the declarations and no locations. -/
def mapServer (maps : List MapDecl) : ServerState where
  serverName := none
  scheme := .http
  gzip := false
  gzipTypes := []
  gzipMinLength := 20
  maps := maps
  clientMaxBodySize := 0
  h3AdvertisedPort := none
  exactLocs := []
  regexLocs := []
  prefixLocs := []

theorem requestContext_alwaysMap (n value : String) :
    requestContext (mapServer [alwaysMap n value]) bareRequest.peer .get bareRequest.uri ∅ =
      { bareRequest with
        userVars := (∅ : HashMap String String).insert n ((Template.parse value).render bareRequest) }
    := rfl

/-- A name that a template never looks up is not published by it. -/
theorem not_published {renders : RequestCtx → String → String → Prop} {n s : String}
    (hrenders : ∀ ctx value, renders ctx n value → (Template.parse s).render ctx = value)
    (href : ∀ name, .reference name ∈ pieces s.toList →
      classify (String.ofList name) ≠ .unknown n) : ¬ Published renders n := by
  intro hpublished
  -- publishing would make the text render to whatever value a map gives the variable
  have hvalue : ∀ value, (Template.parse s).render
      { bareRequest with
        userVars :=
          (∅ : HashMap String String).insert n ((Template.parse value).render bareRequest) } =
        (Template.parse value).render bareRequest := by
    intro value
    have h := hpublished _ _ _ (alwaysMap n value) (mapServer [alwaysMap n value]) [] []
      bareRequest.peer .get bareRequest.uri ∅ (buildMap_alwaysMap n value) rfl rfl (by simp)
    rw [declaredValue_alwaysMap, requestContext_alwaysMap] at h
    exact hrenders _ _ h
  have hvars : ∀ k, k ≠ n →
      ((∅ : HashMap String String).insert n ((Template.parse "x").render bareRequest)).lookup k =
        ((∅ : HashMap String String).insert n ((Template.parse "y").render bareRequest)).lookup k := by
    intro k hk
    rw [HashMap.lookup_insert_eq, HashMap.lookup_insert_eq, if_neg hk, if_neg hk]
  -- but without a reference to it the text renders alike for any two values
  have hsame := @render_of_no_reference bareRequest _ _ n s hvars href
  rw [hvalue "x", hvalue "y"] at hsame
  exact absurd hsame (by decide)

theorem render_empty (ctx : RequestCtx) : (Template.parse "").render ctx = "" := rfl

/-- The template that is nothing but the reference. -/
theorem RendersBraced.alone {ctx : RequestCtx} {n value : String} (h : RendersBraced ctx n value) :
    (Template.parse ("" ++ "$\x7b" ++ n ++ "\x7d" ++ "")).render ctx = value := by
  rw [h "" "" everyBraceCloses_nil, render_empty, String.empty_append, String.append_empty]

theorem RendersBare.alone {ctx : RequestCtx} {n value : String} (h : RendersBare ctx n value) :
    (Template.parse ("" ++ "$" ++ n ++ "")).render ctx = value := by
  rw [h "" "" everyBraceCloses_nil (by simp), render_empty, String.empty_append,
    String.append_empty]

/-! ## The result -/

/-- The variable of the last declaration is there when templates are rendered. -/
theorem lookup_requestContext {n : String} {m : MapDecl} {state : ServerState}
    {earlier later : List MapDecl} (peer : SocketAddr) (method : Method) (uri : Uri)
    (headers : HeaderMap) (hm : m.outputName = n) (hmaps : state.maps = earlier ++ m :: later)
    (hlater : ∀ m' ∈ later, m'.outputName ≠ n) :
    (requestContext state peer method uri headers).userVars.lookup n =
      some (declaredValue
        (contextOf state peer method uri headers
          (evalMaps (contextOf state peer method uri headers) earlier)) m) := by
  subst hm
  have hlast := lookup_evalMaps_last (contextOf state peer method uri headers) earlier later m hlater
  rw [← hmaps] at hlast
  exact hlast

/-- **Outputs of `map`.** The value of an output `n` comes through in `${n}` exactly if `n` has no
closing brace and is no built-in variable, and in `$n` exactly if besides `n` is a non-empty run of
name characters. -/
theorem map_output_usable_iff (n : String) :
    (Published RendersBraced n ↔ '}' ∉ n.toList ∧ classify n = .unknown n) ∧
      (Published RendersBare n ↔
        n ≠ "" ∧ (∀ c ∈ n.toList, Interpolation.isNameChar c = true) ∧
          classify n = .unknown n) := by
  constructor
  · constructor
    · intro hpublished
      by_contra hno
      refine not_published (fun _ _ hrenders => hrenders.alone) ?_ hpublished
      intro name hname hclass
      obtain rfl := eq_of_classify_unknown hclass
      rcases mem_pieces_reference hname with ⟨hbrace, -⟩ | ⟨-, hall⟩
      · exact hno ⟨by simpa using hbrace, hclass⟩
      · refine hno ⟨?_, hclass⟩
        intro hmem
        exact absurd (hall '}' (by simpa using hmem)) (by decide)
    · rintro ⟨hbrace, hclass⟩
      intro args block line m state earlier later peer method uri headers _ hm hmaps hlater
      exact rendersBraced_of_user hbrace hclass
        (lookup_requestContext peer method uri headers hm hmaps hlater)
  · constructor
    · intro hpublished
      by_contra hno
      refine not_published (fun _ _ hrenders => hrenders.alone) ?_ hpublished
      intro name hname hclass
      obtain rfl := eq_of_classify_unknown hclass
      rcases mem_pieces_reference hname with ⟨-, hlen⟩ | ⟨hne, hall⟩
      -- a braced name is too long for the text
      · simp at hlen
      · refine hno ⟨?_, by simpa using hall, hclass⟩
        intro hnil
        exact hne (by simpa using hnil)
    · rintro ⟨hne, hname, hclass⟩
      intro args block line m state earlier later peer method uri headers _ hm hmaps hlater
      exact rendersBare_of_user (fun hnil => hne (String.toList_inj.1 hnil)) hname hclass
        (lookup_requestContext peer method uri headers hm hmaps hlater)

/-- A map may be declared for `$host`, and its value is never seen. -/
theorem host_output_is_shadowed :
    ¬ Published RendersBraced "host" ∧ ¬ Published RendersBare "host" := by
  have hnever : ∀ name : List Char, classify (String.ofList name) ≠ .unknown "host" := by
    intro name hclass
    rw [eq_of_classify_unknown hclass] at hclass
    exact absurd hclass (by decide)
  constructor
  · exact not_published (fun _ _ hrenders => hrenders.alone) fun name _ => hnever name
  · exact not_published (fun _ _ hrenders => hrenders.alone) fun name _ => hnever name

end Elrond.Server
