import Elrond.Lib.Interpolation
import Elrond.Request.Template

/-!
# What a template renders to

`Template::parse` and `Template::render` together replace the references of a text by values. The
loop of the parser takes one of three steps (`parseLoop_char`, `parseLoop_reference`,
`parseLoop_open`), and each of them is a step of `Interpolation.substitute` except the last: where a
`${` is never closed, the loop takes everything behind it as literal text and drops the brace
(`renderedText`). So rendering is the substitution exactly for the texts in which every brace closes
(`render_parse_iff`).
-/

set_option autoImplicit false

namespace Elrond.Request

open Elrond.Lib Elrond.Http Elrond.Lib.Interpolation

/-- The value of a reference in a context. -/
def referenceText (ctx : RequestCtx) (name : List Char) : List Char :=
  ((classify (String.ofList name)).render ctx).toList

/-- The text with its references replaced by their values. -/
def substitution (ctx : RequestCtx) (s : String) : String :=
  String.ofList (substitute (referenceText ctx) s.toList)

/-! ## Reading a name -/

theorem isNameChar_eq : Request.isNameChar = Interpolation.isNameChar := rfl

theorem readBraced_close {name : List Char} (h : '}' ∉ name) (rest : List Char) :
    readBraced (name ++ '}' :: rest) = (name, true, rest) := by
  induction name with
  | nil => simp [readBraced]
  | cons c name ih =>
      obtain ⟨hc, hname⟩ := not_or.1 (mt List.mem_cons.2 h)
      rw [List.cons_append, readBraced, if_neg (fun heq => hc heq.symm), ih hname]

theorem readBraced_open {cs : List Char} (h : '}' ∉ cs) : readBraced cs = (cs, false, []) := by
  induction cs with
  | nil => rfl
  | cons c cs ih =>
      obtain ⟨hc, hcs⟩ := not_or.1 (mt List.mem_cons.2 h)
      rw [readBraced, if_neg (fun heq => hc heq.symm), ih hcs]

theorem readName_bare {cs : List Char} (h : cs.head? ≠ some '{') :
    readName cs = (cs.takeWhile Request.isNameChar, !(cs.takeWhile Request.isNameChar).isEmpty,
      cs.dropWhile Request.isNameChar) := by
  rw [readName.eq_def]
  split
  · exact absurd rfl h
  · rw [List.span_eq_takeWhile_dropWhile]

/-- A complete reference is recognized. -/
theorem readName_reference {cs name rest : List Char}
    (h : nextReference ('$' :: cs) = some (name, rest)) : readName cs = (name, true, rest) := by
  by_cases hbrace : cs.head? = some '{'
  · obtain ⟨cs, rfl⟩ := List.head?_eq_some_iff.1 hbrace
    by_cases hclose : '}' ∈ cs
    · obtain ⟨name', rest', rfl, hname'⟩ := List.eq_append_cons_of_mem hclose
      rw [nextReference_close hname'] at h
      obtain ⟨rfl, rfl⟩ := Prod.mk.inj (Option.some.inj h)
      exact readBraced_close hname' rest'
    · rw [nextReference_unclosed hclose] at h
      cases h
  · rw [nextReference_bare hbrace] at h
    rw [readName_bare hbrace, isNameChar_eq]
    split at h
    · cases h
    · next hne =>
      obtain ⟨rfl, rfl⟩ := Prod.mk.inj (Option.some.inj h)
      simp [hne]

/-- Nothing is taken where no reference and no brace follows. -/
theorem readName_none {cs : List Char} (hbrace : cs.head? ≠ some '{')
    (h : nextReference ('$' :: cs) = none) : readName cs = ([], false, cs) := by
  rw [nextReference_bare hbrace] at h
  rw [readName_bare hbrace, isNameChar_eq]
  split at h
  · next hnone =>
    have hall := List.takeWhile_append_dropWhile (p := Interpolation.isNameChar) (l := cs)
    rw [hnone, List.nil_append] at hall
    simp [hnone, hall]
  · cases h

/-! ## The steps of the loop -/

variable (fuel : Nat) (segments : List Segment) (lit : List Char)

theorem parseLoop_nil : parseLoop fuel [] segments lit = flushLiteral segments lit := by
  cases fuel <;> rfl

theorem parseLoop_char {c : Char} {rest : List Char} (hcopy : nextReference (c :: rest) = none)
    (hopen : ¬ (c = '$' ∧ rest.head? = some '{')) :
    parseLoop (fuel + 1) (c :: rest) segments lit = parseLoop fuel rest segments (lit ++ [c]) := by
  rw [parseLoop]
  by_cases hc : c = '$'
  · subst hc
    rw [readName_none (fun h => hopen ⟨rfl, h⟩) hcopy]
    simp
  · rw [if_pos hc]

theorem parseLoop_reference {cs name rest : List Char}
    (h : nextReference cs = some (name, rest)) :
    parseLoop (fuel + 1) cs segments lit =
      parseLoop fuel rest
        (flushLiteral segments lit ++ [.var (classify (String.ofList name))]) [] := by
  obtain ⟨cs, rfl⟩ : ∃ cs', cs = '$' :: cs' := by
    rcases nextReference_cases h with ⟨-, rfl⟩ | ⟨-, -, -, rfl⟩
    · exact ⟨_, rfl⟩
    · exact ⟨_, rfl⟩
  rw [parseLoop, readName_reference h]
  simp

/-- A brace that is never closed: the rest of the text is literal, without the brace. -/
theorem parseLoop_open {rest : List Char} (h : '}' ∉ rest) :
    parseLoop (fuel + 1) ('$' :: '{' :: rest) segments lit =
      flushLiteral segments (lit ++ '$' :: rest) := by
  have hread : readName ('{' :: rest) = (rest, false, []) := readBraced_open h
  rw [parseLoop, hread]
  simp [parseLoop_nil]

/-! ## Rendering -/

/-- The characters of rendered segments. -/
def segmentsText (ctx : RequestCtx) (segments : List Segment) : List Char :=
  segments.flatMap fun s => (s.render ctx).toList

theorem segmentsText_append (ctx : RequestCtx) (xs ys : List Segment) :
    segmentsText ctx (xs ++ ys) = segmentsText ctx xs ++ segmentsText ctx ys :=
  List.flatMap_append

theorem segmentsText_flushLiteral (ctx : RequestCtx) :
    segmentsText ctx (flushLiteral segments lit) = segmentsText ctx segments ++ lit := by
  rw [flushLiteral]
  split
  · next hempty => simp [List.isEmpty_iff.1 hempty]
  · simp [segmentsText, Segment.render]

theorem toList_render (t : Template) (ctx : RequestCtx) :
    (t.render ctx).toList = segmentsText ctx t.segments := by
  have hfold : ∀ (segments : List Segment) (out : String),
      (segments.foldl (fun out s => out ++ s.render ctx) out).toList =
        out.toList ++ segmentsText ctx segments := by
    intro segments
    induction segments with
    | nil => simp [segmentsText]
    | cons s segments ih =>
        intro out
        rw [List.foldl_cons, ih, String.toList_append, List.append_assoc]
        rfl
  rw [Template.render, hfold]
  rfl

/-- What a text renders to once it is parsed. Behind a brace that is never closed nothing is
replaced, and the brace is lost. -/
def renderedText (ctx : RequestCtx) : List Char → List Char
  | [] => []
  | c :: cs =>
      match _h : nextReference (c :: cs) with
      | some (name, rest) => referenceText ctx name ++ renderedText ctx rest
      | none =>
          if c = '$' ∧ cs.head? = some '{' then c :: cs.tail
          else c :: renderedText ctx cs
termination_by cs => cs.length
decreasing_by
  · exact nextReference_length _h
  · simp

theorem renderedText_reference (ctx : RequestCtx) {cs name rest : List Char}
    (h : nextReference cs = some (name, rest)) :
    renderedText ctx cs = referenceText ctx name ++ renderedText ctx rest := by
  cases cs with
  | nil => cases h
  | cons c cs =>
      rw [renderedText]
      split
      · next heq =>
        rw [h] at heq
        obtain ⟨rfl, rfl⟩ := Prod.mk.inj (Option.some.inj heq)
        rfl
      · next heq =>
        rw [h] at heq
        cases heq

theorem renderedText_copied (ctx : RequestCtx) {c : Char} {cs : List Char}
    (h : nextReference (c :: cs) = none) :
    renderedText ctx (c :: cs) =
      if c = '$' ∧ cs.head? = some '{' then c :: cs.tail else c :: renderedText ctx cs := by
  rw [renderedText]
  split
  · next heq =>
    rw [h] at heq
    cases heq
  · rfl

theorem renderedText_open (ctx : RequestCtx) {rest : List Char} (h : '}' ∉ rest) :
    renderedText ctx ('$' :: '{' :: rest) = '$' :: rest := by
  rw [renderedText_copied ctx (nextReference_unclosed h), if_pos ⟨rfl, rfl⟩]
  rfl

/-- The loop appends what the rest renders to. -/
theorem segmentsText_parseLoop (ctx : RequestCtx) :
    ∀ fuel cs segments lit, List.length cs ≤ fuel →
      segmentsText ctx (parseLoop fuel cs segments lit) =
        segmentsText ctx segments ++ lit ++ renderedText ctx cs := by
  intro fuel
  induction fuel with
  | zero =>
      intro cs segments lit hfuel
      obtain rfl := List.length_eq_zero_iff.1 (Nat.le_zero.1 hfuel)
      simp [parseLoop_nil, segmentsText_flushLiteral, renderedText]
  | succ fuel ih =>
      intro cs segments lit hfuel
      -- the text ends, or goes on with a copied character, a reference or an open brace
      rcases text_cases cs with rfl | ⟨c, rest, rfl, hcopy, hopen⟩ | ⟨name, rest, href⟩ |
          ⟨rest, rfl, hunclosed⟩
      · simp [parseLoop_nil, segmentsText_flushLiteral, renderedText]
      · rw [parseLoop_char fuel segments lit hcopy hopen, ih _ _ _ (by simpa using hfuel),
          renderedText_copied ctx hcopy, if_neg hopen]
        simp
      · have hshort := nextReference_length href
        rw [parseLoop_reference fuel segments lit href, ih _ _ _ (by omega),
          renderedText_reference ctx href, segmentsText_append, segmentsText_flushLiteral]
        simp [segmentsText, Segment.render, referenceText]
      · rw [parseLoop_open fuel segments lit hunclosed, segmentsText_flushLiteral,
          renderedText_open ctx hunclosed]
        simp

theorem toList_render_parse (s : String) (ctx : RequestCtx) :
    ((Template.parse s).render ctx).toList = renderedText ctx s.toList := by
  rw [toList_render, Template.parse, segmentsText_parseLoop ctx _ _ _ _ le_rfl]
  rfl

/-- A text in which every brace closes is rendered by substitution. -/
theorem renderedText_of_closes (ctx : RequestCtx) {cs : List Char} (h : EveryBraceCloses cs) :
    renderedText ctx cs = substitute (referenceText ctx) cs := by
  induction cs using text_induction with
  | nil => simp [renderedText]
  | copied c rest hcopy hopen ih =>
      rw [renderedText_copied ctx hcopy, if_neg hopen, substitute_copied _ hcopy,
        ih ((everyBraceCloses_cons hopen).1 h)]
  | reference cs name rest href ih =>
      rw [renderedText_reference ctx href, substitute_reference _ href,
        ih ((everyBraceCloses_reference href).1 h)]
  | unclosed rest hunclosed => exact absurd (h [] rest rfl) hunclosed

/-- In any other text the first brace that is never closed is lost, and nothing behind it is
replaced. -/
theorem renderedText_of_open (ctx : RequestCtx) {cs : List Char} (h : ¬ EveryBraceCloses cs) :
    ∃ before after, renderedText ctx cs = before ++ '$' :: after ∧
      substitute (referenceText ctx) cs =
        before ++ '$' :: '{' :: substitute (referenceText ctx) after := by
  induction cs using text_induction with
  | nil => exact absurd everyBraceCloses_nil h
  | copied c rest hcopy hopen ih =>
      -- the open brace comes behind the copied character
      obtain ⟨before, after, hrendered, hsub⟩ := ih (mt (everyBraceCloses_cons hopen).2 h)
      refine ⟨c :: before, after, ?_, ?_⟩
      · rw [renderedText_copied ctx hcopy, if_neg hopen, hrendered]
        rfl
      · rw [substitute_copied _ hcopy, hsub]
        rfl
  | reference cs name rest href ih =>
      obtain ⟨before, after, hrendered, hsub⟩ := ih (mt (everyBraceCloses_reference href).2 h)
      refine ⟨referenceText ctx name ++ before, after, ?_, ?_⟩
      · rw [renderedText_reference ctx href, hrendered, List.append_assoc]
      · rw [substitute_reference _ href, hsub, List.append_assoc]
  | unclosed rest hunclosed =>
      refine ⟨[], rest, renderedText_open ctx hunclosed, ?_⟩
      rw [substitute_copied _ (nextReference_unclosed hunclosed), substitute_char _ (by decide)]
      rfl

/-- A closed text renders the same in front of a reference. -/
theorem renderedText_append (ctx : RequestCtx) {a b : List Char} (ha : EveryBraceCloses a)
    (hb : b.head? = some '$') :
    renderedText ctx (a ++ b) = renderedText ctx a ++ renderedText ctx b := by
  induction a using text_induction with
  | nil => simp [renderedText]
  | copied c rest hcopy hopen ih =>
      -- the texts meet at a dollar sign, so no brace is opened across the seam
      have hopen' : ¬ (c = '$' ∧ (rest ++ b).head? = some '{') := by
        rintro ⟨rfl, hhead⟩
        cases rest with
        | nil =>
            rw [List.nil_append, hb] at hhead
            exact absurd (Option.some.inj hhead) (by decide)
        | cons d rest => exact hopen ⟨rfl, hhead⟩
      rw [List.cons_append,
        renderedText_copied ctx (nextReference_append_none hcopy hopen hb), if_neg hopen',
        renderedText_copied ctx hcopy, if_neg hopen, ih ((everyBraceCloses_cons hopen).1 ha),
        List.cons_append]
  | reference a name rest href ih =>
      rw [renderedText_reference ctx (nextReference_append_some href hb),
        renderedText_reference ctx href, ih ((everyBraceCloses_reference href).1 ha),
        List.append_assoc]
  -- an open brace in the first text would take the second one with it
  | unclosed rest hunclosed => exact absurd (ha [] rest rfl) hunclosed

/-- Rendering depends on the values of the references only. -/
theorem renderedText_congr {ctx ctx' : RequestCtx} {cs : List Char}
    (h : ∀ name, .reference name ∈ pieces cs → referenceText ctx name = referenceText ctx' name) :
    renderedText ctx cs = renderedText ctx' cs := by
  induction cs using text_induction with
  | nil => simp [renderedText]
  | copied c rest hcopy hopen ih =>
      have hrest : ∀ name, .reference name ∈ pieces rest →
          referenceText ctx name = referenceText ctx' name := by
        intro name hname
        apply h
        rw [pieces_char hcopy]
        exact List.mem_cons_of_mem _ hname
      rw [renderedText_copied ctx hcopy, renderedText_copied ctx' hcopy, if_neg hopen,
        if_neg hopen, ih hrest]
  | reference cs name rest href ih =>
      -- both contexts agree on the reference itself and on those behind it
      have hhere : referenceText ctx name = referenceText ctx' name := by
        apply h
        rw [pieces_reference href]
        exact List.mem_cons_self
      have hrest : ∀ name, .reference name ∈ pieces rest →
          referenceText ctx name = referenceText ctx' name := by
        intro name' hname'
        apply h
        rw [pieces_reference href]
        exact List.mem_cons_of_mem _ hname'
      rw [renderedText_reference ctx href, renderedText_reference ctx' href, hhere, ih hrest]
  | unclosed rest hunclosed =>
      rw [renderedText_open ctx hunclosed, renderedText_open ctx' hunclosed]

/-- A text is never its own substitution behind a further brace. -/
theorem ne_brace_substitute (value : List Char → List Char) (cs : List Char) :
    cs ≠ '{' :: substitute value cs := by
  induction cs with
  | nil => simp
  | cons c cs ih =>
      intro heq
      obtain ⟨rfl, htail⟩ := List.cons.inj heq
      rw [substitute_char _ (by decide)] at htail
      exact ih htail

/-- **Templates.** For every text and request, rendering the parsed template is the left-to-right
substitution of its references, with every other character copied, exactly if every `${` of the text
has a closing brace behind it. -/
theorem render_parse_iff (s : String) (ctx : RequestCtx) :
    (Template.parse s).render ctx = substitution ctx s ↔ EveryBraceCloses s.toList := by
  rw [← String.toList_inj, toList_render_parse, substitution, String.toList_ofList]
  constructor
  · intro heq
    by_contra hopen
    obtain ⟨before, after, hrendered, hsub⟩ := renderedText_of_open ctx hopen
    rw [hrendered, hsub] at heq
    have htail := List.append_cancel_left heq
    exact ne_brace_substitute _ after (List.cons.inj htail).2
  · exact renderedText_of_closes ctx

/-- A request without headers. -/
def bareRequest : RequestCtx where
  peer := ⟨.v4 ⟨127, 0, 0, 1⟩, 50000, 0⟩
  serverName := none
  method := .get
  uri := ⟨none, none, some "/"⟩
  headers := ∅
  scheme := .http
  userVars := ∅

/-- A brace that is never closed is lost. -/
theorem open_brace_is_lost :
    (Template.parse "a$\x7bb").render bareRequest ≠ substitution bareRequest "a$\x7bb" := by
  have hrender : (Template.parse "a$\x7bb").render bareRequest = "a$b" := by decide
  have hlist : ("a$\x7bb" : String).toList = ['a', '$', '{', 'b'] := by decide
  have hsub : substitute (referenceText bareRequest) ['a', '$', '{', 'b'] =
      ['a', '$', '{', 'b'] := by
    rw [substitute_char _ (by decide), substitute_copied _ (nextReference_unclosed (by decide)),
      substitute_char _ (by decide), substitute_char _ (by decide), substitute_nil]
  rw [hrender, substitution, hlist, hsub]
  decide

end Elrond.Request
