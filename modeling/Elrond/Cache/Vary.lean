import Elrond.Cache.Invariant

/-!
# Vary isolation

What a stored entry tells about the requests it is handed to.

A signature records one text per name of the Vary list, the first line of the header if that line
is visible ASCII and nothing otherwise. Equal signatures over one list mean equal recorded texts
(`signatureValue_eq_of_buildSignature_eq`), because a NUL ends every text and never occurs in one.
The recorded text stands for the complete list of field values exactly when that list is empty or
one non-empty visible line (`Faithful`): two such lists with one text are equal
(`faithful_lines_eq`), and every other list has a different one with the same text
(`exists_confusable`). `vary_isolation` carries this to every run of a store.
-/

set_option autoImplicit false

namespace Elrond.Cache

open Elrond.Lib Elrond.Http

/-! ## What a signature determines -/

/-- The text recorded for a list of field lines. -/
def lineText (lines : List HeaderValue) : String := (lines.head?.bind HeaderValue.toStr).getD ""

theorem signatureValue_eq_lineText (req : HeaderMap) (name : String) :
    signatureValue req name = lineText (req.getAll name) := rfl

/-- Visible text holds no NUL. -/
theorem nul_notMem_asciiText {bs : Bytes} (h : bs.all isVisibleByte = true) :
    Char.ofNat 0 ∉ (asciiText bs).toList := by
  rw [asciiText, String.toList_ofList]
  intro hmem
  obtain ⟨b, hb, heq⟩ := List.mem_map.1 hmem
  have hzero : b.toNat = 0 := by
    rw [← toNat_ofNat_byte b, heq]
    rfl
  have hb0 : b = 0 := UInt8.toNat_inj.1 hzero
  have hvis := List.all_eq_true.1 h b hb
  rw [hb0] at hvis
  exact absurd hvis (by decide)

theorem nul_notMem_lineText (lines : List HeaderValue) :
    Char.ofNat 0 ∉ (lineText lines).toList := by
  rw [lineText]
  cases hs : lines.head?.bind HeaderValue.toStr with
  | none => simp
  | some s =>
      obtain ⟨v, -, hv⟩ := Option.bind_eq_some_iff.1 hs
      obtain ⟨hvis, rfl⟩ := toStr_eq_some hv
      exact nul_notMem_asciiText hvis

/-- The characters one name contributes to a signature. -/
def signaturePart (req : HeaderMap) (name : String) : List Char :=
  name.toList ++ '=' :: ((signatureValue req name).toList ++ [Char.ofNat 0])

theorem foldl_signature (req : HeaderMap) (names : List String) (out : String) :
    (names.foldl (fun out name => out ++ name ++ "=" ++ signatureValue req name ++ "\x00")
      out).toList = out.toList ++ names.flatMap (signaturePart req) := by
  induction names generalizing out with
  | nil => simp
  | cons name names ih =>
      rw [List.foldl_cons, ih, List.flatMap_cons]
      have hsep : ("=" : String).toList = ['='] := by decide
      have hnul : ("\x00" : String).toList = [Char.ofNat 0] := by decide
      simp [signaturePart, hsep, hnul]

theorem buildSignature_toList (req : HeaderMap) (names : List String) :
    (buildSignature req names).toList = names.flatMap (signaturePart req) := by
  have h := foldl_signature req names ""
  rw [buildSignature]
  simpa using h

/-- Equal signatures over one Vary list record equal texts for each of its names. -/
theorem signatureValue_eq_of_buildSignature_eq {r r₀ : HeaderMap} :
    ∀ {names : List String}, buildSignature r names = buildSignature r₀ names →
      ∀ n ∈ names, signatureValue r n = signatureValue r₀ n := by
  intro names h
  have hl : names.flatMap (signaturePart r) = names.flatMap (signaturePart r₀) := by
    rw [← buildSignature_toList, ← buildSignature_toList, h]
  clear h
  -- Induction on the names: the first NUL ends the first text, so the texts come off one by one.
  induction names with
  | nil => intro n hn; exact absurd hn List.not_mem_nil
  | cons name names ih =>
      simp only [List.flatMap_cons, signaturePart, List.append_assoc, List.cons_append,
        List.nil_append, List.append_cancel_left_eq, List.cons.injEq, true_and] at hl
      obtain ⟨hval, hrest⟩ := Text.append_cons_inj_of_notMem (nul_notMem_lineText (r.getAll name))
        (nul_notMem_lineText (r₀.getAll name)) hl
      intro n hn
      rcases List.mem_cons.1 hn with rfl | hn
      · exact String.toList_inj.1 hval
      · exact ih hrest n hn

/-! ## When the recorded text stands for all lines -/

/-- A list of field lines that its recorded text describes completely: no line, or one non-empty
line of visible ASCII. -/
def Faithful (lines : List HeaderValue) : Prop :=
  lines = [] ∨ ∃ v, lines = [v] ∧ v.bytes ≠ [] ∧ v.bytes.all isVisibleByte = true

theorem lineText_singleton {v : HeaderValue} (hv : v.bytes.all isVisibleByte = true) :
    lineText [v] = asciiText v.bytes := by
  simp [lineText, HeaderValue.toStr, hv]

theorem lineText_singleton_ne {v : HeaderValue} (hne : v.bytes ≠ [])
    (hv : v.bytes.all isVisibleByte = true) : lineText [v] ≠ "" := by
  rw [lineText_singleton hv]
  intro h
  exact hne (asciiText_injective (h.trans (by decide : "" = asciiText [])))

/-- Completely described lists with one text are one list. -/
theorem faithful_lines_eq {a b : List HeaderValue} (ha : Faithful a) (hb : Faithful b)
    (h : lineText a = lineText b) : a = b := by
  rcases ha with rfl | ⟨v, rfl, hv, hvis⟩
  · rcases hb with rfl | ⟨w, rfl, hw, hwis⟩
    · rfl
    · exact absurd h.symm (lineText_singleton_ne hw hwis)
  · rcases hb with rfl | ⟨w, rfl, hw, hwis⟩
    · exact absurd h (lineText_singleton_ne hv hvis)
    · rw [lineText_singleton hvis, lineText_singleton hwis] at h
      have hvw : v = w := by
        cases v
        cases w
        simpa using asciiText_injective h
      rw [hvw]

/-- Every other list shares its text with a different one. -/
theorem exists_confusable {a : List HeaderValue} (ha : ¬ Faithful a) :
    ∃ b, b ≠ a ∧ lineText b = lineText a := by
  cases a with
  | nil => exact absurd (Or.inl rfl) ha
  | cons v rest =>
      cases rest with
      | cons w rest => exact ⟨[v], by simp, rfl⟩
      -- A single empty or unreadable line is recorded like no line.
      | nil =>
          refine ⟨[], by simp, ?_⟩
          by_cases hvis : v.bytes.all isVisibleByte = true
          · have hnil : v.bytes = [] := by
              by_contra hne
              exact ha (Or.inr ⟨v, rfl, hne, hvis⟩)
            rw [lineText_singleton hvis, hnil]
            decide
          · simp [lineText, HeaderValue.toStr, hvis]

/-! ## Runs of requests -/

/-- What the requests of a run do with the store: look up a key, or offer the response to a
request under a key. -/
inductive Exchange where
  | lookup (now : Nat) (key : String) (req : HeaderMap)
  | store (orders : Nat → IterOrder (String × List Entry)) (now : Nat) (key : String)
      (req : HeaderMap) (validRules : List (List Nat × Text.Duration)) (status : Nat)
      (headers : HeaderMap) (body : Bytes)

/-- The state after an exchange. -/
def Exchange.next (maxBytes : Nat) (s : State) : Exchange → State
  | .lookup now key req => (s.get now key req).state
  | .store orders now key req validRules status headers body =>
      match storedEntry .get req now validRules status headers body with
      | none => s
      | some entry => (s.put maxBytes orders key entry).state

/-- The state of a store of `maxBytes` bytes after a run of exchanges. -/
def runExchanges (maxBytes : Nat) (xs : List Exchange) : State :=
  run (Exchange.next maxBytes) State.new xs

/-- The exchange stored the entry `e` under `key` for a request with the headers `req`. -/
def Exchange.StoresFor (x : Exchange) (key : String) (e : Entry) (req : HeaderMap) : Prop :=
  ∃ orders now validRules status headers body,
    x = .store orders now key req validRules status headers body ∧
      storedEntry .get req now validRules status headers body = some e

/-- Every lookup of the run that is answered is answered from an entry of its key stored before,
and the request agrees with every request that entry was stored for in all field lines of all
headers of the entry's Vary list. -/
def VaryIsolated (maxBytes : Nat) (xs : List Exchange) : Prop :=
  ∀ pre now key r post, xs = pre ++ .lookup now key r :: post →
    ∀ e, ((runExchanges maxBytes pre).get now key r).found = some e →
      (∃ x ∈ pre, ∃ r₀, x.StoresFor key e r₀) ∧
        ∀ x ∈ pre, ∀ r₀, x.StoresFor key e r₀ →
          ∀ n ∈ e.varyHeaders, r.getAll n = r₀.getAll n

/-- The request of the exchange describes the headers that matter for it completely: the Vary
list of the entry for a response that is stored, those of the variants of the key for a lookup. -/
def Exchange.Describes (s : State) : Exchange → Prop
  | .lookup _ key req =>
      ∀ vs, s.entries.lookup key = some vs → ∀ v ∈ vs, ∀ n ∈ v.varyHeaders, Faithful (req.getAll n)
  | .store _ now _ req validRules status headers body =>
      ∀ e, storedEntry .get req now validRules status headers body = some e →
        ∀ n ∈ e.varyHeaders, Faithful (req.getAll n)

/-- Every stored variant was put there by an exchange of the run. -/
def FromRun (s : State) (xs : List Exchange) : Prop :=
  ∀ key vs, s.entries.lookup key = some vs → ∀ v ∈ vs, ∃ x ∈ xs, ∃ r₀, x.StoresFor key v r₀

theorem lookup_setVariants_mem {m : HashMap String (List Entry)} {key k : String}
    {vs ws : List Entry} (h : (setVariants m key vs).lookup k = some ws) :
    (k = key ∧ ws = vs) ∨ m.lookup k = some ws := by
  rw [lookup_setVariants] at h
  split at h
  · rename_i hk
    split at h
    · exact absurd h (by simp)
    · exact Or.inl ⟨hk, (Option.some.inj h).symm⟩
  · exact Or.inr h

/-- `s'` holds no variant that `s` does not hold. -/
def Within (s' s : State) : Prop :=
  ∀ key vs, s'.entries.lookup key = some vs →
    ∀ v ∈ vs, ∃ ws, s.entries.lookup key = some ws ∧ v ∈ ws

theorem Within.refl (s : State) : Within s s := by
  intro key vs h v hv
  exact ⟨vs, h, hv⟩

theorem Within.trans {a b c : State} (hab : Within a b) (hbc : Within b c) : Within a c := by
  intro key vs h v hv
  obtain ⟨ws, hws, hvw⟩ := hab key vs h v hv
  exact hbc key ws hws v hvw

theorem within_setVariants {s : State} {key : String} {vs vs' : List Entry} {total : Nat}
    (hlookup : s.entries.lookup key = some vs) (hsub : vs'.Sublist vs) :
    Within ⟨setVariants s.entries key vs', total⟩ s := by
  intro k ws h v hv
  rcases lookup_setVariants_mem h with ⟨rfl, rfl⟩ | h
  · exact ⟨vs, hlookup, hsub.subset hv⟩
  · exact ⟨ws, h, hv⟩

theorem get_within (s : State) (now : Nat) (key : String) (req : HeaderMap) :
    Within (s.get now key req).state s := by
  rw [State.get]
  cases hlookup : s.entries.lookup key with
  | none => exact Within.refl s
  | some vs => exact within_setVariants hlookup List.filter_sublist

theorem evictOne_within (s : State) (key sig : String) : Within (s.evictOne key sig).1 s := by
  rw [State.evictOne]
  cases hlookup : s.entries.lookup key with
  | none => exact Within.refl s
  | some vs => exact within_setVariants hlookup (withoutVariant_sublist sig vs)

theorem evictLoop_within (maxBytes size : Nat) (orders : Nat → IterOrder (String × List Entry)) :
    ∀ (fuel : Nat) (s : State), Within (evictLoop maxBytes size orders fuel s).2.1 s := by
  intro fuel
  induction fuel with
  | zero => intro s; exact Within.refl s
  | succ fuel ih =>
      intro s
      rw [evictLoop]
      split
      · split
        · exact Within.refl s
        · exact (ih _).trans (evictOne_within s _ _)
      · exact Within.refl s

/-- After a `put` every variant is the new entry under its key or was there before. -/
theorem put_origin {maxBytes : Nat} {s : State} {orders : Nat → IterOrder (String × List Entry)}
    {key : String} {entry : Entry} {k : String} {vs : List Entry} {v : Entry}
    (h : (s.put maxBytes orders key entry).state.entries.lookup k = some vs) (hv : v ∈ vs) :
    (k = key ∧ v = entry) ∨ ∃ ws, s.entries.lookup k = some ws ∧ v ∈ ws := by
  rw [State.put] at h
  split at h
  · exact Or.inr ⟨vs, h, hv⟩
  · have hwithin := evictLoop_within maxBytes (entryBytes entry) orders (variantCount s.entries) s
    simp only [State.insertEntry] at h
    rw [HashMap.lookup_insert_eq] at h
    split at h
    · rename_i hk
      subst hk
      obtain rfl := Option.some.inj h
      rcases List.mem_append.1 hv with hv | hv
      · have hmem := (withoutVariant_sublist _ _).subset hv
        rw [HashMap.getOr] at hmem
        cases hlookup : (evictLoop maxBytes (entryBytes entry) orders
            (variantCount s.entries) s).2.1.entries.lookup k with
        | none =>
            rw [hlookup] at hmem
            exact absurd hmem (by simp)
        | some ws =>
            rw [hlookup] at hmem
            exact Or.inr (hwithin k ws hlookup v hmem)
      · exact Or.inl ⟨rfl, List.mem_singleton.1 hv⟩
    · exact Or.inr (hwithin k vs h v hv)

theorem runExchanges_concat (maxBytes : Nat) (xs : List Exchange) (x : Exchange) :
    runExchanges maxBytes (xs ++ [x]) = x.next maxBytes (runExchanges maxBytes xs) :=
  run_concat _ _ xs x

/-- Along every run, every variant comes from an exchange of the run. -/
theorem fromRun_runExchanges (maxBytes : Nat) (xs : List Exchange) :
    FromRun (runExchanges maxBytes xs) xs := by
  induction xs using List.reverseRecOn with
  | nil =>
      intro key vs h
      simp [runExchanges, State.new] at h
  | append_singleton xs x ih =>
      intro key vs h v hv
      rw [runExchanges_concat] at h
      -- Either the variant was there before the last exchange, or that exchange stored it.
      have hold : ∀ ws, (runExchanges maxBytes xs).entries.lookup key = some ws → v ∈ ws →
          ∃ y ∈ xs ++ [x], ∃ r₀, y.StoresFor key v r₀ := by
        intro ws hws hvw
        obtain ⟨y, hy, r₀, hst⟩ := ih key ws hws v hvw
        exact ⟨y, List.mem_append_left _ hy, r₀, hst⟩
      cases x with
      | lookup now k req =>
          obtain ⟨ws, hws, hvw⟩ := get_within _ now k req key vs h v hv
          exact hold ws hws hvw
      | store orders now k req rules status headers body =>
          cases hentry : storedEntry .get req now rules status headers body with
          | none =>
              simp only [Exchange.next, hentry] at h
              exact hold vs h hv
          | some entry =>
              simp only [Exchange.next, hentry] at h
              rcases put_origin h hv with ⟨rfl, rfl⟩ | ⟨ws, hws, hvw⟩
              · refine ⟨_, List.mem_append_right xs (List.mem_singleton.2 rfl), req, ?_⟩
                exact ⟨orders, now, rules, status, headers, body, rfl, hentry⟩
              · exact hold ws hws hvw

/-- An answer of a lookup is a variant of the key with the request's signature. -/
theorem get_found {s : State} {now : Nat} {key : String} {req : HeaderMap} {e : Entry}
    (h : (s.get now key req).found = some e) :
    ∃ vs, s.entries.lookup key = some vs ∧ e ∈ vs ∧ now < e.expiresAt ∧
      buildSignature req e.varyHeaders = e.varySignature := by
  rw [State.get] at h
  cases hlookup : s.entries.lookup key with
  | none =>
      rw [hlookup] at h
      exact absurd h (by simp)
  | some vs =>
      rw [hlookup] at h
      have hmem := List.mem_of_find?_eq_some h
      have hsig := List.find?_some h
      rw [fresh, List.mem_filter, decide_eq_true_eq] at hmem
      exact ⟨vs, rfl, hmem.1, hmem.2, by simpa using hsig⟩

/-- **Vary isolation.** In a run whose requests all describe the headers that matter completely,
a response is only handed to requests that agree, in all lines of all headers it varies on, with
the request it was stored for. -/
theorem vary_isolation (maxBytes : Nat) (xs : List Exchange)
    (h : AllSteps (Exchange.next maxBytes) Exchange.Describes State.new xs) :
    VaryIsolated maxBytes xs := by
  intro pre now key r post hxs e hfound
  obtain ⟨vs, hlookup, hmem, -, hsig⟩ := get_found hfound
  refine ⟨fromRun_runExchanges maxBytes pre key vs hlookup e hmem, ?_⟩
  intro x hx r₀ hstores n hn
  obtain ⟨orders, now₀, rules, status, headers, body, rfl, hentry⟩ := hstores
  obtain ⟨ttl, -, hfields⟩ := storedEntry_eq_some hentry
  have hnames : e.varyHeaders = parseVary headers := by rw [hfields]
  have hsig₀ : e.varySignature = buildSignature r₀ (parseVary headers) := by rw [hfields]
  have hvalue : signatureValue r n = signatureValue r₀ n := by
    apply signatureValue_eq_of_buildSignature_eq _ n hn
    rw [hsig, hsig₀, hnames]
  have hlook : Faithful (r.getAll n) := h pre _ post hxs vs hlookup e hmem n hn
  -- The storing exchange is a step of the run too, taken under the same condition.
  have hstore : Faithful (r₀.getAll n) := by
    obtain ⟨before, after, hpre⟩ := List.append_of_mem hx
    have hstep := h before _ (after ++ .lookup now key r :: post)
      (by rw [hxs, hpre, List.append_assoc, List.cons_append])
    exact hstep e hentry n hn
  rw [signatureValue_eq_lineText, signatureValue_eq_lineText] at hvalue
  exact faithful_lines_eq hlook hstore hvalue

/-! ## Two small runs -/

/-- The headers of a request with one `x-user` line. -/
def requestFrom (user : HeaderValue) : HeaderMap := ⟨[(⟨"x-user", by decide⟩, user)]⟩

/-- The headers of a response that varies on `x-user`. -/
def perUser : HeaderMap := ⟨[(⟨"vary", by decide⟩, ⟨Text.utf8Bytes "x-user", by decide⟩)]⟩

/-- A run that stores a response for `r₀` and looks its key up for `r`. -/
def storeThenLookup (r₀ r : HeaderMap) : List Exchange :=
  [.store (fun _ => IterOrder.stored) 0 "k" r₀ [([200], Text.fromSecs 60)] 200 perUser [111, 107],
    .lookup 1 "k" r]

/-- A response stored for a user name that is not visible ASCII is handed to a request that has
no user name at all. -/
theorem vary_confuses_unreadable_with_absent :
    ¬ VaryIsolated 1024 (storeThenLookup (requestFrom ⟨[0xC3, 0xA9], by decide⟩) ∅) := by
  intro h
  have hfound := h [_] 1 "k" ∅ [] rfl _ rfl
  obtain ⟨x, hx, r₀, hst⟩ := hfound.1
  have hlines := hfound.2 x hx r₀ hst "x-user" (by decide)
  obtain rfl := List.mem_singleton.1 hx
  obtain ⟨orders, now, rules, status, headers, body, heq, -⟩ := hst
  injection heq with _ _ _ hr
  rw [← hr] at hlines
  exact absurd hlines (by decide)

/-- Storing and looking up for one readable user name meets the condition, and the lookup is
answered. -/
theorem vary_isolation_readable :
    VaryIsolated 1024 (storeThenLookup (requestFrom ⟨[98, 111, 98], by decide⟩)
      (requestFrom ⟨[98, 111, 98], by decide⟩)) := by
  apply vary_isolation
  have hline : ∀ n ∈ ["x-user"], Faithful ((requestFrom ⟨[98, 111, 98], by decide⟩).getAll n) := by
    intro n hn
    obtain rfl := List.mem_singleton.1 hn
    exact Or.inr ⟨⟨[98, 111, 98], by decide⟩, by decide, by decide, by decide⟩
  refine allSteps_cons.2 ⟨?_, allSteps_cons.2 ⟨?_, allSteps_nil⟩⟩
  · intro e he
    obtain rfl := Option.some.inj he
    exact hline
  · intro vs hvs v hv
    obtain rfl := Option.some.inj hvs
    obtain rfl := List.mem_singleton.1 hv
    exact hline

end Elrond.Cache
