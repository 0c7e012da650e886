import Elrond.Lib.Fallible
import Elrond.Config.Lexer

/-!
# The parser

`config::parser::parse`. The position in the token slice is the list of tokens still to read.
`parseBlock` reads directives up to the end of the input, or up to a closing brace when it is
nested, and returns the tokens after it; that they are no more than it was given is carried in its
type, and makes the recursion end.

The grammar is the flattening of a directive forest: a name, the arguments, then a semicolon or a
braced block. The parser accepts a token list exactly when it is the flattening of a forest, and
returns that forest (`parse_eq_ok_iff`).
-/

set_option autoImplicit false

namespace Elrond.Config

open Elrond.Lib

/-! ## The parser -/

/-- The loop over the arguments of a directive: the arguments, whether a block follows, and the
tokens after the semicolon or the opening brace. -/
def parseArgs (name : String) (line : Nat) :
    List Token → Except String (List String × Bool × List Token)
  | ⟨.word w, _⟩ :: ts => (parseArgs name line ts).map fun r => (w :: r.1, r.2)
  | ⟨.semicolon, _⟩ :: ts => .ok ([], false, ts)
  | ⟨.openBrace, _⟩ :: ts => .ok ([], true, ts)
  | ⟨.closeBrace, l⟩ :: _ => .error s!"line {l}: expected ';' or '\x7b' before '\x7d'"
  | [] => .error s!"line {line}: unexpected end of file in directive '{name}'"

theorem parseArgs_length {name : String} {line : Nat} {ts : List Token} {args : List String}
    {opens : Bool} {rest : List Token} (h : parseArgs name line ts = .ok (args, opens, rest)) :
    rest.length < ts.length := by
  fun_induction parseArgs name line ts generalizing args with
  | case1 w l ts ih =>
      cases hts : parseArgs name line ts with
      | error e => simp [hts, Except.map] at h
      | ok r =>
          obtain ⟨args', r⟩ := r
          rw [hts] at h
          cases h
          have := ih hts
          simp only [List.length_cons]
          omega
  | case2 l ts =>
      cases h
      simp
  | case3 l ts =>
      cases h
      simp
  | case4 => cases h
  | case5 => cases h

/-- What a parse of `ts` returns: directives and a rest that is no longer than `ts`. -/
abbrev Parsed (ts : List Token) :=
  { r : List Directive × List Token // r.2.length ≤ ts.length }

/-- `parse_block` with the bound on what it leaves. -/
def parseBlockFrom (nested : Bool) (ts : List Token) : Except String (Parsed ts) :=
  match ts with
  | [] =>
      if nested then .error "unexpected end of file: missing '\x7d'"
      else .ok ⟨([], []), by simp⟩
  | ⟨.closeBrace, line⟩ :: ts =>
      -- the brace that ends a block is read with it
      if nested then .ok ⟨([], ts), by simp⟩ else .error s!"line {line}: unexpected '\x7d'"
  | ⟨.word name, line⟩ :: ts =>
      match hargs : parseArgs name line ts with
      | .error e => .error e
      | .ok (args, opens, rest) =>
          have := parseArgs_length hargs
          match opens with
          | false =>
              match parseBlockFrom nested rest with
              | .error e => .error e
              | .ok ⟨(dirs, rest'), _⟩ =>
                  .ok ⟨(⟨name, args, none, line⟩ :: dirs, rest'), by grind⟩
          | true =>
              -- the children up to their closing brace, then the siblings
              match parseBlockFrom true rest with
              | .error e => .error e
              | .ok ⟨(block, rest'), _⟩ =>
                  match parseBlockFrom nested rest' with
                  | .error e => .error e
                  | .ok ⟨(dirs, rest''), _⟩ =>
                      .ok ⟨(⟨name, args, some block, line⟩ :: dirs, rest''), by grind⟩
  | ⟨.semicolon, line⟩ :: _ => .error s!"line {line}: unexpected ';'"
  | ⟨.openBrace, line⟩ :: _ => .error s!"line {line}: unexpected '\x7b'"
termination_by ts.length
decreasing_by all_goals grind

/-- `parse_block`. -/
def parseBlock (nested : Bool) (ts : List Token) : Except String (List Directive × List Token) :=
  (parseBlockFrom nested ts).map Subtype.val

/-- `parse`. -/
def parse (ts : List Token) : Except String (List Directive) :=
  (parseBlock false ts).map Prod.fst

theorem parseBlock_nil (nested : Bool) :
    parseBlock nested [] =
      if nested then .error "unexpected end of file: missing '\x7d'" else .ok ([], []) := by
  rw [parseBlock, parseBlockFrom]
  cases nested <;> rfl

theorem parseBlock_closeBrace (nested : Bool) (line : Nat) (ts : List Token) :
    parseBlock nested (⟨.closeBrace, line⟩ :: ts) =
      if nested then .ok ([], ts) else .error s!"line {line}: unexpected '\x7d'" := by
  rw [parseBlock, parseBlockFrom]
  cases nested <;> rfl

theorem parseBlock_semicolon (nested : Bool) (line : Nat) (ts : List Token) :
    parseBlock nested (⟨.semicolon, line⟩ :: ts) = .error s!"line {line}: unexpected ';'" := by
  rw [parseBlock, parseBlockFrom]
  rfl

theorem parseBlock_openBrace (nested : Bool) (line : Nat) (ts : List Token) :
    parseBlock nested (⟨.openBrace, line⟩ :: ts) =
      .error s!"line {line}: unexpected '\x7b'" := by
  rw [parseBlock, parseBlockFrom]
  rfl

/-- The block of a directive, when an opening brace ended its arguments. -/
def parseChildren (opens : Bool) (ts : List Token) :
    Except String (Option (List Directive) × List Token) :=
  match opens with
  | false => .ok (none, ts)
  | true => (parseBlock true ts).map fun r => (some r.1, r.2)

/-- One round of the loop at a name: the arguments, the block if there is one, then the rest of
the directives. -/
theorem parseBlock_word (nested : Bool) (name : String) (line : Nat) (ts : List Token) :
    parseBlock nested (⟨.word name, line⟩ :: ts) =
      parseArgs name line ts >>= fun a =>
      parseChildren a.2.1 a.2.2 >>= fun b =>
      (parseBlock nested b.2).map fun r => (⟨name, a.1, b.1, line⟩ :: r.1, r.2) := by
  rw [parseBlock, parseBlockFrom]
  split
  · next e he =>
    rw [he]
    rfl
  · next args opens rest ha =>
    cases opens with
    | false =>
        cases hrest : parseBlockFrom nested rest <;>
          simp [bind, Except.bind, Except.map, parseChildren, parseBlock, ha, hrest]
    | true =>
        cases hblock : parseBlockFrom true rest with
        | error e =>
            simp [bind, Except.bind, Except.map, parseChildren, parseBlock, ha, hblock]
        | ok r =>
            obtain ⟨⟨block, rest'⟩, hlen⟩ := r
            cases hrest : parseBlockFrom nested rest' <;>
              simp [bind, Except.bind, Except.map, parseChildren, parseBlock, ha, hblock, hrest]

/-! ## The grammar -/

mutual

/-- A directive as tokens: its name, with the directive's line, its arguments, its end. -/
def flattenDirective : Directive → List (TokKind × Option Nat)
  | ⟨name, args, block, line⟩ =>
      (.word name, some line) :: ((args.map fun a => (.word a, none)) ++ flattenBlock block)

/-- A semicolon, or the children between braces. -/
def flattenBlock : Option (List Directive) → List (TokKind × Option Nat)
  | none => [(.semicolon, none)]
  | some block => (.openBrace, none) :: (flatten block ++ [(.closeBrace, none)])

/-- A forest of directives as tokens. The tokens that name a directive are paired with its
line. -/
def flatten : List Directive → List (TokKind × Option Nat)
  | [] => []
  | d :: dirs => flattenDirective d ++ flatten dirs

end

/-- The tokens spell a flattening: the kinds agree, and a token that names a directive is on the
line of that directive. -/
def Spells (ts : List Token) (es : List (TokKind × Option Nat)) : Prop :=
  List.Forall₂ (fun t e => t.kind = e.1 ∧ ∀ line ∈ e.2, line = t.line) ts es

/-- What stands where a run of directives ends: the closing brace of the block, or nothing at the
top level. -/
def EndsAt (nested : Bool) (tail rest : List Token) : Prop :=
  match nested with
  | true => ∃ line, tail = ⟨.closeBrace, line⟩ :: rest
  | false => tail = [] ∧ rest = []

/-! ## Soundness -/

theorem parseArgs_sound {name : String} {line : Nat} {ts : List Token} {args : List String}
    {opens : Bool} {rest : List Token} (h : parseArgs name line ts = .ok (args, opens, rest)) :
    ∃ pre l, ts = pre ++ ⟨if opens then .openBrace else .semicolon, l⟩ :: rest ∧
      Spells pre (args.map fun a => (.word a, none)) := by
  fun_induction parseArgs name line ts generalizing args with
  | case1 w l ts ih =>
      cases hts : parseArgs name line ts with
      | error e => simp [hts, Except.map] at h
      | ok r =>
          obtain ⟨args', r⟩ := r
          rw [hts] at h
          cases h
          obtain ⟨pre, l', rfl, hpre⟩ := ih hts
          refine ⟨⟨.word w, l⟩ :: pre, l', rfl, List.Forall₂.cons ?_ hpre⟩
          simp
  | case2 l ts =>
      cases h
      exact ⟨[], l, rfl, List.Forall₂.nil⟩
  | case3 l ts =>
      cases h
      exact ⟨[], l, rfl, List.Forall₂.nil⟩
  | case4 => cases h
  | case5 => cases h

/-- Every run of directives that `parse_block` returns is spelled by the tokens it read. -/
theorem parseBlock_sound {nested : Bool} {ts : List Token} {dirs : List Directive}
    {rest : List Token} (h : parseBlock nested ts = .ok (dirs, rest)) :
    ∃ pre tail, ts = pre ++ tail ∧ Spells pre (flatten dirs) ∧ EndsAt nested tail rest := by
  -- the recursion goes to what is left of the tokens, so the induction is on their number
  induction hn : ts.length using Nat.strong_induction_on generalizing nested ts dirs rest with
  | _ n ih =>
    match ts with
    | [] =>
        rw [parseBlock_nil] at h
        cases nested with
        | true => simp at h
        | false =>
            cases h
            exact ⟨[], [], rfl, List.Forall₂.nil, rfl, rfl⟩
    | ⟨.closeBrace, line⟩ :: ts =>
        rw [parseBlock_closeBrace] at h
        cases nested with
        | true =>
            cases h
            exact ⟨[], _, rfl, List.Forall₂.nil, line, rfl⟩
        | false => simp at h
    | ⟨.semicolon, line⟩ :: ts =>
        rw [parseBlock_semicolon] at h
        cases h
    | ⟨.openBrace, line⟩ :: ts =>
        rw [parseBlock_openBrace] at h
        cases h
    | ⟨.word name, line⟩ :: ts =>
        rw [parseBlock_word] at h
        obtain ⟨⟨args, opens, rest₁⟩, hargs, h⟩ := bind_eq_ok.1 h
        obtain ⟨⟨block, rest₂⟩, hblock, h⟩ := bind_eq_ok.1 h
        obtain ⟨⟨dirs', rest₃⟩, hdirs, heq⟩ := map_eq_ok.1 h
        dsimp only at hblock hdirs
        obtain ⟨pre, l, rfl, hpre⟩ := parseArgs_sound hargs
        -- the end of the directive: a semicolon, or its children between braces
        obtain ⟨mid, hmid, hspell⟩ :
            ∃ mid, ⟨if opens then .openBrace else .semicolon, l⟩ :: rest₁ = mid ++ rest₂ ∧
              Spells mid (flattenBlock block) := by
          cases opens with
          | false =>
              cases hblock
              exact ⟨[⟨.semicolon, l⟩], rfl, List.Forall₂.cons (by simp) List.Forall₂.nil⟩
          | true =>
              obtain ⟨⟨children, r⟩, hchildren, hr⟩ := map_eq_ok.1 hblock
              cases hr
              have hlt : rest₁.length < n := by
                rw [← hn]
                simp
                omega
              obtain ⟨inner, tail, rfl, hinner, l', rfl⟩ := ih _ hlt hchildren rfl
              refine ⟨⟨.openBrace, l⟩ :: (inner ++ [⟨.closeBrace, l'⟩]), by simp, ?_⟩
              exact List.Forall₂.cons (by simp)
                (List.rel_append hinner (List.Forall₂.cons (by simp) List.Forall₂.nil))
        have hlen : rest₂.length < n := by
          have := congrArg List.length hmid
          rw [← hn]
          simp at this ⊢
          omega
        obtain ⟨inner, tail, hrest, hinner, htail⟩ := ih _ hlen hdirs rfl
        cases heq
        refine ⟨⟨.word name, line⟩ :: (pre ++ mid) ++ inner, tail, ?_, ?_, htail⟩
        · rw [hmid, hrest]
          simp
        · exact List.rel_append
            (List.Forall₂.cons (by simp) (List.rel_append hpre hspell)) hinner

/-! ## Completeness -/

theorem parseArgs_complete (name : String) (line : Nat) {args : List String} {pre : List Token}
    (hpre : Spells pre (args.map fun a => (.word a, none))) (opens : Bool) (l : Nat)
    (rest : List Token) :
    parseArgs name line (pre ++ ⟨if opens then .openBrace else .semicolon, l⟩ :: rest) =
      .ok (args, opens, rest) := by
  induction args generalizing pre with
  | nil =>
      cases hpre
      cases opens <;> rfl
  | cons a args ih =>
      cases hpre with
      | @cons t _ pre _ ht hpre =>
          obtain ⟨kind, l'⟩ := t
          obtain rfl : kind = .word a := ht.1
          rw [List.cons_append, parseArgs, ih hpre]
          rfl

theorem Spells.split {pre : List Token} {es es' : List (TokKind × Option Nat)}
    (h : Spells pre (es ++ es')) :
    ∃ p q, pre = p ++ q ∧ Spells p es ∧ Spells q es' :=
  ⟨pre.take es.length, pre.drop es.length, (List.take_append_drop _ _).symm,
    List.forall₂_take_append _ _ _ h, List.forall₂_drop_append _ _ _ h⟩

theorem Spells.cons_inv {pre : List Token} {k : TokKind} {line : Option Nat}
    {es : List (TokKind × Option Nat)} (h : Spells pre ((k, line) :: es)) :
    ∃ l pre', pre = ⟨k, l⟩ :: pre' ∧ (∀ n ∈ line, n = l) ∧ Spells pre' es := by
  cases h with
  | @cons t _ pre' _ ht hpre =>
      obtain ⟨kind, l⟩ := t
      obtain rfl : kind = k := ht.1
      exact ⟨l, pre', rfl, ht.2, hpre⟩

mutual

/-- A directive spelled at the head of the tokens is read, and the parser goes on behind it. -/
theorem parseBlock_directive : ∀ (d : Directive) {pre : List Token},
    Spells pre (flattenDirective d) → ∀ (nested : Bool) (rest : List Token),
      parseBlock nested (pre ++ rest) = (parseBlock nested rest).map fun r => (d :: r.1, r.2)
  | ⟨name, args, block, line⟩, pre, hpre, nested, rest => by
      rw [flattenDirective] at hpre
      obtain ⟨l, pre', rfl, hline, hpre'⟩ := Spells.cons_inv hpre
      obtain rfl : line = l := hline line rfl
      -- behind the name stand the arguments and then the end of the directive
      obtain ⟨argToks, endToks, rfl, hargs, hend⟩ := Spells.split hpre'
      obtain ⟨l', tail, rfl, hchildren⟩ := parseChildren_complete block hend
      rw [List.cons_append, parseBlock_word, List.append_assoc, List.cons_append,
        parseArgs_complete name line hargs block.isSome l' (tail ++ rest)]
      simp only [bind, Except.bind, hchildren]

/-- The end of a directive spelled at the head of the tokens is read as its block. -/
theorem parseChildren_complete : ∀ (block : Option (List Directive)) {pre : List Token},
    Spells pre (flattenBlock block) →
      ∃ l tail, pre = ⟨if block.isSome then .openBrace else .semicolon, l⟩ :: tail ∧
        ∀ rest, parseChildren block.isSome (tail ++ rest) = .ok (block, rest)
  | none, pre, hpre => by
      obtain ⟨l, pre', rfl, -, hpre'⟩ := Spells.cons_inv hpre
      cases hpre'
      exact ⟨l, [], rfl, fun rest => rfl⟩
  | some children, pre, hpre => by
      rw [flattenBlock] at hpre
      obtain ⟨l, pre', rfl, -, hpre'⟩ := Spells.cons_inv hpre
      obtain ⟨inner, close, rfl, hinner, hclose⟩ := Spells.split hpre'
      obtain ⟨l', nothing, rfl, -, hnothing⟩ := Spells.cons_inv hclose
      cases hnothing
      refine ⟨l, _, rfl, fun rest => ?_⟩
      have hend : EndsAt true (⟨.closeBrace, l'⟩ :: rest) rest := ⟨l', rfl⟩
      have hblock := parseBlock_complete children hinner hend
      rw [List.append_assoc, List.singleton_append, Option.isSome_some, parseChildren, hblock]
      rfl

/-- A run of directives spelled up to where it ends is read whole. -/
theorem parseBlock_complete : ∀ (dirs : List Directive) {pre : List Token},
    Spells pre (flatten dirs) → ∀ {nested : Bool} {tail rest : List Token},
      EndsAt nested tail rest → parseBlock nested (pre ++ tail) = .ok (dirs, rest)
  | [], pre, hpre, nested, tail, rest, htail => by
      cases hpre
      cases nested with
      | true =>
          obtain ⟨l, rfl⟩ := htail
          rw [List.nil_append, parseBlock_closeBrace, if_pos rfl]
      | false =>
          obtain ⟨rfl, rfl⟩ := htail
          rw [List.nil_append, parseBlock_nil]
          rfl
  | d :: dirs, pre, hpre, nested, tail, rest, htail => by
      obtain ⟨p, q, rfl, hp, hq⟩ := Spells.split hpre
      rw [List.append_assoc, parseBlock_directive d hp, parseBlock_complete dirs hq htail]
      rfl

end

/-- **The parser accepts exactly its grammar.** For every token list, the parser returns a forest
exactly when the tokens spell its flattening, with each directive on the line of its name; a token
list that spells no forest is rejected. -/
theorem parse_eq_ok_iff (ts : List Token) :
    (∀ dirs, parse ts = .ok dirs ↔ Spells ts (flatten dirs)) ∧
      ((∀ dirs, ¬ Spells ts (flatten dirs)) → ∃ message, parse ts = .error message) := by
  have haccept : ∀ dirs, parse ts = .ok dirs ↔ Spells ts (flatten dirs) := by
    intro dirs
    constructor
    · intro h
      obtain ⟨⟨dirs', rest⟩, hblock, rfl⟩ := map_eq_ok.1 h
      obtain ⟨pre, tail, rfl, hpre, rfl, -⟩ := parseBlock_sound hblock
      simpa using hpre
    · intro h
      have hend : EndsAt false [] [] := ⟨rfl, rfl⟩
      have hblock := parseBlock_complete dirs h hend
      rw [List.append_nil] at hblock
      rw [parse, hblock]
      rfl
  refine ⟨haccept, fun hnone => ?_⟩
  cases hparse : parse ts with
  | error message => exact ⟨message, rfl⟩
  | ok dirs => exact absurd ((haccept dirs).1 hparse) (hnone dirs)

end Elrond.Config
