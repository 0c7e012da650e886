import Elrond.Request.Substitution
import Elrond.Server.Handle

/-!
# The variables of `map`

Both pipelines evaluate the `map` declarations before anything else. `Evaluates` says what the
result is meant to be: one output for each declaration, each computed from the outputs before it,
its value taken from the first literal rule that fits or else from the first default rule. The loops
of the source give exactly that (`map_evaluation`), and the order of the rules matters only among
rules with the same pattern (`Rearranged`).
-/

set_option autoImplicit false

namespace Elrond.Server

open Elrond.Lib Elrond.Http Elrond.Request Elrond.Config Elrond.App

/-! ## The meaning of declarations -/

/-- A `default` rule. -/
def isDefault (r : MapRule) : Bool := r.pattern == .default

/-- A rule for the given text. -/
def isLiteralFor (source : String) (r : MapRule) : Bool := r.pattern == .literal source

/-- The value of a declaration: that of the first literal rule that equals the rendered source, else
of the first default rule, else empty. -/
def declaredValue (ctx : RequestCtx) (m : MapDecl) : String :=
  match m.rules.find? (isLiteralFor (m.source.render ctx)) with
  | some r => r.value.render ctx
  | none =>
      match m.rules.find? isDefault with
      | some r => r.value.render ctx
      | none => ""

/-- The outputs of the declarations, from left to right: each is evaluated with exactly the outputs
of those before it, a later output replacing an earlier one of its name. -/
def Evaluates (context : HashMap String String → RequestCtx) (maps : List MapDecl)
    (outputs : List (String × String)) : Prop :=
  outputs.length = maps.length ∧
    ∀ i m, maps[i]? = some m →
      outputs[i]? =
        some (m.outputName, declaredValue (context (HashMap.collect (outputs.take i))) m)

/-- There is one list of outputs at most. -/
theorem Evaluates.unique {context : HashMap String String → RequestCtx} {maps : List MapDecl}
    {outputs others : List (String × String)} (h : Evaluates context maps outputs)
    (h' : Evaluates context maps others) : others = outputs := by
  have hlen : others.length = outputs.length := h'.1.trans h.1.symm
  have htake : ∀ i, i ≤ maps.length → others.take i = outputs.take i := by
    intro i
    induction i with
    | zero => simp
    | succ i ih =>
        intro hi
        obtain ⟨m, hm⟩ : ∃ m, maps[i]? = some m := ⟨_, List.getElem?_eq_getElem hi⟩
        rw [List.take_add_one, List.take_add_one, h.2 i m hm, h'.2 i m hm, ih (Nat.le_of_lt hi)]
  have hall := htake maps.length le_rfl
  rwa [List.take_of_length_le h'.1.le, List.take_of_length_le h.1.le] at hall

/-! ## The loops -/

/-- The loop over the rules, as two searches. -/
theorem chooseRule_eq (source : String) (rules : List MapRule) (defaultRule : Option MapRule) :
    chooseRule source rules defaultRule =
      (rules.find? (isLiteralFor source)).or (defaultRule.or (rules.find? isDefault)) := by
  induction rules generalizing defaultRule with
  | nil => simp [chooseRule]
  | cons r rules ih =>
      rw [chooseRule]
      cases hpattern : r.pattern with
      | literal s =>
          have hdefault : isDefault r = false := by simp [isDefault, hpattern]
          -- the loop returns at the first literal rule that matches
          by_cases hs : s = source
          · simp [isLiteralFor, hpattern, hs]
          · simp [isLiteralFor, hpattern, hs, hdefault, ih]
      | default =>
          have hdefault : isDefault r = true := by simp [isDefault, hpattern]
          have hliteral : isLiteralFor source r = false := by simp [isLiteralFor, hpattern]
          -- a default rule is kept only if none was kept before
          simp [hdefault, hliteral, ih]

theorem mapValue_eq (ctx : RequestCtx) (m : MapDecl) : mapValue ctx m = declaredValue ctx m := by
  rw [mapValue, declaredValue, chooseRule_eq, Option.none_or]
  cases m.rules.find? (isLiteralFor (m.source.render ctx)) with
  | some r => rfl
  | none => rfl

/-- The outputs of the declarations, behind those that are there already. -/
def outputsFrom (context : HashMap String String → RequestCtx) :
    List (String × String) → List MapDecl → List (String × String)
  | done, [] => done
  | done, m :: maps =>
      outputsFrom context
        (done ++ [(m.outputName, mapValue (context (HashMap.collect done)) m)]) maps

variable (context : HashMap String String → RequestCtx)

theorem collect_outputsFrom (maps : List MapDecl) (done : List (String × String)) :
    HashMap.collect (outputsFrom context done maps) =
      maps.foldl (fun vars m => vars.insert m.outputName (mapValue (context vars) m))
        (HashMap.collect done) := by
  induction maps generalizing done with
  | nil => rfl
  | cons m maps ih =>
      rw [outputsFrom, ih, List.foldl_cons]
      congr 1
      rw [HashMap.collect, HashMap.collect, List.foldl_append]
      rfl

theorem evalMaps_eq_collect (maps : List MapDecl) :
    evalMaps context maps = HashMap.collect (outputsFrom context [] maps) := by
  rw [collect_outputsFrom]
  rfl

/-- The outputs there already stay, and each declaration adds one. -/
theorem outputsFrom_spec (maps : List MapDecl) (done : List (String × String)) :
    ∃ outputs, outputsFrom context done maps = done ++ outputs ∧ outputs.length = maps.length ∧
      ∀ i m, maps[i]? = some m →
        outputs[i]? = some (m.outputName,
          declaredValue (context (HashMap.collect (done ++ outputs.take i))) m) := by
  induction maps generalizing done with
  | nil => exact ⟨[], by simp [outputsFrom]⟩
  | cons m maps ih =>
      obtain ⟨outputs, heq, hlen, hall⟩ :=
        ih (done ++ [(m.outputName, mapValue (context (HashMap.collect done)) m)])
      -- the maps behind see the output of this one
      refine ⟨(m.outputName, mapValue (context (HashMap.collect done)) m) :: outputs, ?_, ?_, ?_⟩
      · rw [outputsFrom, heq]
        simp
      · simp [hlen]
      · intro i m' hm'
        cases i with
        | zero =>
            obtain rfl : m = m' := by simpa using hm'
            simp [mapValue_eq]
        | succ i => simpa using hall i m' (by simpa using hm')

theorem evaluates_outputsFrom (maps : List MapDecl) :
    Evaluates context maps (outputsFrom context [] maps) := by
  obtain ⟨outputs, heq, hlen, hall⟩ := outputsFrom_spec context maps []
  rw [heq, List.nil_append]
  exact ⟨hlen, hall⟩

/-! ## Rules in another order -/

/-- The rules of every pattern are the same, in the same order. -/
def Rearranged (rules rules' : List MapRule) : Prop :=
  ∀ p, rules.filter (fun r => r.pattern == p) = rules'.filter fun r => r.pattern == p

/-- Declarations that differ in the arrangement of their rules only. -/
structure SameButRules (m m' : MapDecl) : Prop where
  source : m'.source = m.source
  outputName : m'.outputName = m.outputName
  rules : Rearranged m.rules m'.rules

theorem Rearranged.find? {rules rules' : List MapRule} (h : Rearranged rules rules')
    (p : MapPattern) :
    rules'.find? (fun r => r.pattern == p) = rules.find? fun r => r.pattern == p := by
  rw [← List.head?_filter, ← List.head?_filter, h p]

theorem SameButRules.mapValue {m m' : MapDecl} (h : SameButRules m m') (ctx : RequestCtx) :
    mapValue ctx m' = mapValue ctx m := by
  have hliteral := h.rules.find? (.literal (m.source.render ctx))
  have hdefault := h.rules.find? .default
  rw [mapValue_eq, mapValue_eq, declaredValue, declaredValue, h.source]
  unfold isLiteralFor isDefault
  rw [hliteral, hdefault]

theorem evalMaps_of_sameButRules {maps maps' : List MapDecl}
    (h : List.Forall₂ SameButRules maps maps') : evalMaps context maps' = evalMaps context maps := by
  have hfold : ∀ vars : HashMap String String,
      maps'.foldl (fun vars m => vars.insert m.outputName (mapValue (context vars) m)) vars =
        maps.foldl (fun vars m => vars.insert m.outputName (mapValue (context vars) m)) vars := by
    induction h with
    | nil => intro vars; rfl
    | cons hm _ ih =>
        intro vars
        rw [List.foldl_cons, List.foldl_cons, hm.mapValue, hm.outputName, ih]
  exact hfold ∅

/-- The only default rule may stand anywhere. -/
theorem rearranged_of_sole_default {before between after : List MapRule} {d : MapRule}
    (hd : d.pattern = .default)
    (hsole : ∀ r ∈ before ++ between ++ after, r.pattern ≠ .default) :
    Rearranged (before ++ d :: (between ++ after)) (before ++ (between ++ d :: after)) := by
  intro p
  by_cases hp : p = .default
  · have hnone : ∀ rules : List MapRule, (∀ r ∈ rules, r.pattern ≠ .default) →
        rules.filter (fun r => r.pattern == p) = [] := by
      intro rules hrules
      rw [List.filter_eq_nil_iff]
      intro r hr hpattern
      exact hrules r hr ((beq_iff_eq.1 hpattern).trans hp)
    -- no rule of the stretch it moves across is a default rule
    have hbetween := hnone between fun r hr => hsole r (by simp [hr])
    simp [hbetween, List.filter_cons]
  · have hd' : (d.pattern == p) = false := by
      rw [hd]
      exact beq_eq_false_iff_ne.2 (Ne.symm hp)
    simp [hd']

/-- Literal rules with distinct literals may stand in any order. -/
theorem rearranged_of_perm {rules rules' : List MapRule} (hperm : rules.Perm rules')
    (hdefault : rules.filter isDefault = rules'.filter isDefault)
    (hdistinct : ((rules.filter fun r => !isDefault r).map MapRule.pattern).Nodup) :
    Rearranged rules rules' := by
  intro p
  by_cases hp : p = .default
  · rw [hp]
    exact hdefault
  · -- at most one rule has the pattern, and a permutation of one rule is that rule
    have hsingle : (rules.filter fun r => r.pattern == p).length ≤ 1 := by
      have hcount := List.nodup_iff_count_le_one.1 hdistinct p
      rw [List.count, List.countP_map, List.countP_filter] at hcount
      rw [← List.countP_eq_length_filter]
      refine le_trans (List.countP_mono_left ?_) hcount
      intro r _ hr
      have hr' : r.pattern = p := beq_iff_eq.1 hr
      simp [isDefault, hr', hp]
    have hfilter := hperm.filter fun r => r.pattern == p
    cases hrules : rules.filter fun r => r.pattern == p with
    | nil =>
        rw [hrules] at hfilter
        exact (List.nil_perm.1 hfilter).symm
    | cons r rest =>
        rw [hrules, List.length_cons] at hsingle
        obtain rfl : rest = [] := List.length_eq_zero_iff.1 (by omega)
        rw [hrules] at hfilter
        exact List.singleton_perm.1 hfilter

/-! ## The pipelines -/

/-- `handle` from the variables on. -/
def handleFrom (crates : Crates) (state : ServerState) (request : Request) (peer : SocketAddr)
    (vars : HashMap String String) : Pipeline Response :=
  let ctx := contextOf state peer request.method request.uri request.headers vars
  let verdict : Pipeline Verdict :=
    if exceedsBodySize state request.headers then
      pure (.tooLarge (text 413 ("413 Request Entity Too Large (limit " ++
        toString state.clientMaxBodySize ++ " bytes)\n")))
    else
      match route state request.uri.path with
      | some loc => handleLocation crates loc ctx peer request
      | none => pure .unrouted
  verdict >>= finishHandle crates state ctx request.headers

/-- `dispatch` from the variables on. -/
def dispatchFrom (crates : Crates) (state : ServerState) (method : Method) (uri : Uri)
    (headers : HeaderMap) (bodyBytes : Bytes) (peer : SocketAddr)
    (vars : HashMap String String) : Pipeline Response :=
  let ctx := contextOf state peer method uri headers vars
  let verdict : Pipeline Verdict :=
    match route state uri.path with
    | some loc =>
        dispatchLocation crates loc ctx peer ⟨method, uri, .http11, headers, full bodyBytes⟩
    | none => pure .unrouted
  verdict >>= finishDispatch ctx

theorem handle_eq (crates : Crates) (state : ServerState) (request : Request)
    (peer : SocketAddr) :
    handle crates state request peer =
      handleFrom crates state request peer
        (evalMaps (contextOf state peer request.method request.uri request.headers)
          state.maps) := rfl

theorem dispatch_eq (crates : Crates) (state : ServerState) (method : Method) (uri : Uri)
    (headers : HeaderMap) (bodyBytes : Bytes) (peer : SocketAddr) :
    dispatch crates state method uri headers bodyBytes peer =
      dispatchFrom crates state method uri headers bodyBytes peer
        (evalMaps (contextOf state peer method uri headers) state.maps) := rfl

/-- **Variables of `map`.** For every list of declarations and every request there is exactly one
list of outputs in the sense of `Evaluates`, `handle` and `dispatch` go on with the variables that
it defines, where the last output of a name counts, and neither changes what it does when the
declarations are arranged differently. The last two parts say that moving a sole default rule and
permuting literal rules with distinct literals are such arrangements. -/
theorem map_evaluation (crates : Crates) (state : ServerState) (request : Request)
    (bodyBytes : Bytes) (peer : SocketAddr) :
    (∃ outputs,
      (∀ others,
        Evaluates (contextOf state peer request.method request.uri request.headers) state.maps
          others ↔ others = outputs) ∧
      (∀ name, (HashMap.collect outputs).lookup name =
        (outputs.reverse.find? fun output => output.1 = name).map Prod.snd) ∧
      handle crates state request peer =
        handleFrom crates state request peer (HashMap.collect outputs) ∧
      dispatch crates state request.method request.uri request.headers bodyBytes peer =
        dispatchFrom crates state request.method request.uri request.headers bodyBytes peer
          (HashMap.collect outputs)) ∧
    (∀ maps', List.Forall₂ SameButRules state.maps maps' →
      handle crates { state with maps := maps' } request peer =
        handle crates state request peer ∧
      dispatch crates { state with maps := maps' } request.method request.uri request.headers
          bodyBytes peer =
        dispatch crates state request.method request.uri request.headers bodyBytes peer) ∧
    (∀ before between after d, MapRule.pattern d = .default →
      (∀ r ∈ before ++ between ++ after, r.pattern ≠ .default) →
      Rearranged (before ++ d :: (between ++ after)) (before ++ (between ++ d :: after)) ∧
      Rearranged (before ++ (between ++ d :: after)) (before ++ d :: (between ++ after))) ∧
    ∀ rules rules', List.Perm rules rules' → rules.filter isDefault = rules'.filter isDefault →
      ((rules.filter fun r => !isDefault r).map MapRule.pattern).Nodup →
      Rearranged rules rules' := by
  refine ⟨?_, ?_, ?_, ?_⟩
  · -- the declared order has one evaluation, and both front ends run under it
    let context := contextOf state peer request.method request.uri request.headers
    have heval := evaluates_outputsFrom context state.maps
    refine ⟨outputsFrom context [] state.maps, ?_, HashMap.lookup_collect _, ?_, ?_⟩
    · intro others
      constructor
      · exact heval.unique
      · rintro rfl
        exact heval
    · rw [handle_eq, evalMaps_eq_collect]
    · rw [dispatch_eq, evalMaps_eq_collect]
  · -- rules in another order give the same variables, so the same answers
    intro maps' hmaps
    have hvars := evalMaps_of_sameButRules
      (contextOf state peer request.method request.uri request.headers) hmaps
    constructor
    · rw [handle_eq, handle_eq, ← hvars]
      rfl
    · rw [dispatch_eq, dispatch_eq, ← hvars]
      rfl
  · intro before between after d hd hsole
    have hmoved := rearranged_of_sole_default hd hsole
    exact ⟨hmoved, fun p => (hmoved p).symm⟩
  · intro rules rules' hperm hdefault hdistinct
    exact rearranged_of_perm hperm hdefault hdistinct

end Elrond.Server
