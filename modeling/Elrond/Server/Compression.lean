import Elrond.Http.Codings
import Elrond.Server.BrokenBodies
import Elrond.Static.Ranges

/-!
# Compression and its headers

`maybe_compress` reads the first line of `Accept-Encoding` and the first line of `Vary`, and writes a
single line of `Vary`. So three of its promises hold with an exception each: what a response says of
the request headers it depends on (`vary_marked_iff`), what it keeps of the response it was made
from (`compression_keeps_iff`), and which clients get it (`compresses_willing_iff`).
-/

set_option autoImplicit false

namespace Elrond.Server

open Elrond.Lib Elrond.Http

/-! ## Members of header lines -/

/-- The members of all lines of a name. -/
def allMembers (h : HeaderMap) (name : String) : List String :=
  (h.getAll name).flatMap HeaderValue.members

/-- The members of the first line of a name, if it is readable. -/
def readMembers (h : HeaderMap) (name : String) : List String :=
  match h.get name with
  | some v => if v.toStr.isSome then v.members else []
  | none => []

/-- The members of all lines of `Vary`, in lower case. -/
def varyMembers (h : HeaderMap) : List String := (allMembers h "vary").map Text.toAsciiLowercase

/-- What of the first line is read is the text of the line. -/
theorem readMembers_cases (h : HeaderMap) (name : String) :
    ((h.get name).bind HeaderValue.toStr = none ∧ readMembers h name = []) ∨
      ∃ v s, h.get name = some v ∧ v.toStr = some s ∧
        (h.get name).bind HeaderValue.toStr = some s ∧ readMembers h name = v.members ∧
        v.members = textMembers s ∧
        v.members = ((Text.split ',' s).map Text.trim).filter fun m => m ≠ "" := by
  rw [readMembers]
  cases hget : h.get name with
  | none => exact Or.inl ⟨rfl, rfl⟩
  | some v =>
      cases hstr : v.toStr with
      | none => exact Or.inl ⟨hstr, by simp [hstr]⟩
      | some s =>
          obtain ⟨-, hs⟩ := toStr_eq_some hstr
          refine Or.inr ⟨v, s, rfl, hstr, hstr, by simp [hstr], ?_, members_of_toStr hstr⟩
          rw [HeaderValue.members, hs]

/-- What is read is among the members of all lines. -/
theorem readMembers_subset (h : HeaderMap) (name : String) :
    readMembers h name ⊆ allMembers h name := by
  rcases readMembers_cases h name with ⟨-, hread⟩ | ⟨v, s, hget, -, -, hread, -⟩
  · rw [hread]
    exact List.nil_subset _
  · rw [hread]
    intro m hm
    exact List.mem_flatMap.2 ⟨v, List.mem_of_mem_head? hget, hm⟩

/-! ## The line of `Vary` -/

theorem isVisibleChar_varyText (h : HeaderMap) :
    ∀ c ∈ (varyText h).toList, isVisibleChar c = true := by
  have hown : "Accept-Encoding".toList.all isVisibleChar = true := by decide
  have hadded : ", Accept-Encoding".toList.all isVisibleChar = true := by decide
  rw [varyText]
  rcases readMembers_cases h "vary" with ⟨hnone, -⟩ | ⟨v, s, -, hstr, hsome, -⟩
  · rw [hnone]
    exact List.all_eq_true.1 hown
  · have hvisible := isVisibleChar_of_toStr hstr
    simp only [hsome]
    split_ifs
    · exact List.all_eq_true.1 hown
    · exact hvisible
    · intro c hc
      rw [String.toList_append] at hc
      rcases List.mem_append.1 hc with hc | hc
      · exact hvisible c hc
      · exact List.all_eq_true.1 hadded c hc

/-- The new line has the members of the line that was read, and `Accept-Encoding`. -/
theorem mem_members_varyText (h : HeaderMap) (m : String) :
    m ∈ (textMembers (varyText h)).map Text.toAsciiLowercase ↔
      m = "accept-encoding" ∨ m ∈ (readMembers h "vary").map Text.toAsciiLowercase := by
  have hown : (textMembers "Accept-Encoding").map Text.toAsciiLowercase = ["accept-encoding"] := by
    decide
  rw [varyText]
  rcases readMembers_cases h "vary" with
    ⟨hnone, hread⟩ | ⟨v, s, -, -, hsome, hread, hmembers, hsplit⟩
  · rw [hnone, hread]
    simp only [hown, List.map_nil, List.mem_singleton, List.not_mem_nil, or_false]
  · simp only [hsome, hread, hmembers]
    split_ifs with hempty hnamed
    -- an empty line is replaced
    · subst hempty
      have hnil : textMembers "" = [] := by decide
      simp only [hown, hnil, List.map_nil, List.mem_singleton, List.not_mem_nil, or_false]
    · -- the line names it already
      obtain ⟨p, hp, hname⟩ := List.any_eq_true.1 hnamed
      have hname : Text.toAsciiLowercase (Text.trim p) = "accept-encoding" := by simpa using hname
      have hmem : "accept-encoding" ∈ (textMembers s).map Text.toAsciiLowercase := by
        refine List.mem_map.2 ⟨Text.trim p, ?_, hname⟩
        rw [← hmembers, hsplit, List.mem_filter]
        refine ⟨List.mem_map_of_mem hp, ?_⟩
        rw [decide_eq_true_eq]
        intro hblank
        rw [hblank] at hname
        exact absurd hname (by decide)
      constructor
      · exact Or.inr
      · rintro (rfl | hm)
        · exact hmem
        · exact hm
    -- the new member goes behind a comma
    · have happend : s ++ ", Accept-Encoding" = s ++ "," ++ " Accept-Encoding" := by
        rw [String.append_assoc]
        rfl
      have hnew : (textMembers " Accept-Encoding").map Text.toAsciiLowercase =
          ["accept-encoding"] := by decide
      rw [happend, textMembers_append, List.map_append, hnew, List.mem_append, List.mem_singleton,
        or_comm]

/-! ## The compressed response -/

theorem hasOnly_compressed_length (response : Response) (bytes : Bytes) :
    Static.HasOnly (compressed response bytes).headers "content-length"
      (toString bytes.length) := by
  obtain ⟨v, hbytes, -, hv⟩ := getAll_insertText_of_eq
    (response.headers.insert contentEncoding gzipValue) (n := HeaderName.contentLength)
    (b := "content-length") (by decide) (isVisibleChar_toString bytes.length)
  refine ⟨v, ?_, hbytes⟩
  simp only [compressed]
  rw [getAll_insertText _ _ _ (by decide), hv]

/-- The members of `Vary` are those that were read, and `Accept-Encoding`. -/
theorem mem_varyMembers_compressed (response : Response) (bytes : Bytes) (m : String) :
    m ∈ varyMembers (compressed response bytes).headers ↔
      m = "accept-encoding" ∨
        m ∈ (readMembers response.headers "vary").map Text.toAsciiLowercase := by
  obtain ⟨before, hbefore⟩ : ∃ before, before = insertText
      (response.headers.insert contentEncoding gzipValue) HeaderName.contentLength
      (toString bytes.length) := ⟨_, rfl⟩
  have hheaders : (compressed response bytes).headers =
      insertText before HeaderName.vary (varyText before) := by
    rw [compressed, hbefore]
  have hsame : before.getAll "vary" = response.headers.getAll "vary" := by
    rw [hbefore, getAll_insertText _ _ _ (by decide), HeaderMap.getAll_insert, if_neg (by decide)]
  have hread : readMembers before "vary" = readMembers response.headers "vary" := by
    rw [readMembers, readMembers, HeaderMap.get, HeaderMap.get, hsame]
  obtain ⟨v, -, hmembers, hv⟩ := getAll_insertText_of_eq before (n := HeaderName.vary)
    (b := "vary") (by decide) (isVisibleChar_varyText before)
  have hlines : allMembers (compressed response bytes).headers "vary" =
      textMembers (varyText before) := by
    rw [allMembers, hheaders, hv, List.flatMap_singleton, hmembers]
  rw [varyMembers, hlines, mem_members_varyText, hread]

/-! ## Announcing what a response depends on -/

/-- The lines of `Vary` name `Accept-Encoding`, or everything. -/
def Announces (h : HeaderMap) : Prop := "accept-encoding" ∈ varyMembers h ∨ "*" ∈ varyMembers h

/-- If two responses differ in their bodies or codings, both announce it. -/
def MarksVariants (a b : Response) : Prop :=
  a.body ≠ b.body ∨ Coded a b → Announces a.headers ∧ Announces b.headers

theorem MarksVariants.refl (a : Response) : MarksVariants a a := by
  rintro (h | h)
  · exact absurd rfl h
  · exact absurd rfl h

theorem MarksVariants.comm {a b : Response} : MarksVariants a b ↔ MarksVariants b a := by
  have hone : ∀ {a b : Response}, MarksVariants a b → MarksVariants b a := by
    intro a b h hdiffer
    exact (h (hdiffer.imp Ne.symm Ne.symm)).symm
  exact ⟨hone, hone⟩

theorem announces_compressed (response : Response) (bytes : Bytes) :
    Announces (compressed response bytes).headers :=
  Or.inl ((mem_varyMembers_compressed response bytes _).2 (Or.inl rfl))

section

variable (crates : Crates) (response : Response) (gzipEnabled : Bool) (gzipTypes : List String)
  (maxCollect : Option Nat) (minLength : Nat)

/-- A response that announces it does so after compression. -/
theorem announces_maybeCompress (reqHeaders : HeaderMap) (h : Announces response.headers) :
    Announces (maybeCompress crates response reqHeaders gzipEnabled gzipTypes maxCollect
      minLength).headers := by
  rcases maybeCompress_cases crates minLength response reqHeaders gzipEnabled gzipTypes
    maxCollect with ⟨-, hout⟩ | ⟨-, -, hout⟩ | ⟨-, bytes, hout⟩
  · rw [hout]
    exact h
  · rw [hout]
    exact h
  · rw [hout]
    exact announces_compressed response bytes

/-- An altered response is told apart from the one it was made from. -/
theorem maybeCompress_differs {reqHeaders : HeaderMap}
    (haccepts : clientAcceptsGzip reqHeaders = true)
    (halters : altersBody crates response gzipEnabled gzipTypes maxCollect minLength = true) :
    let out := maybeCompress crates response reqHeaders gzipEnabled gzipTypes maxCollect minLength
    out.body ≠ response.body ∨ Coded response out := by
  intro out
  cases hfailed : response.body.failed with
  | true =>
      -- the broken body has become an empty one
      refine Or.inl fun heq => ?_
      have hout := maybeCompress_of_broken haccepts halters hfailed
      have hwhole : out.body.failed = false := congrArg (fun r : Response => r.body.failed) hout
      rw [heq, hfailed] at hwhole
      cases hwhole
  | false =>
      refine Or.inr ((coded_iff crates response reqHeaders gzipEnabled gzipTypes maxCollect
        minLength).2 ?_)
      rw [compresses_eq, haccepts, halters, hfailed]
      rfl

/-- **Announced variants.** For every response, every setting of a location and any two request
headers, in particular two that differ in `Accept-Encoding` only: what `maybe_compress` makes of the
response for the one and for the other is marked, if it differs, exactly if the response announces
that itself or is altered for both or for none. -/
theorem vary_marked_iff (h₁ h₂ : HeaderMap) :
    MarksVariants
        (maybeCompress crates response h₁ gzipEnabled gzipTypes maxCollect minLength)
        (maybeCompress crates response h₂ gzipEnabled gzipTypes maxCollect minLength) ↔
      (altersBody crates response gzipEnabled gzipTypes maxCollect minLength = true →
        clientAcceptsGzip h₁ ≠ clientAcceptsGzip h₂ → Announces response.headers) := by
  constructor
  · intro hmarks halters hne
    -- one of the two clients gets the response as it was
    cases haccepts : clientAcceptsGzip h₁ with
    | true =>
        have hrefused : clientAcceptsGzip h₂ = false := by
          rw [haccepts] at hne
          exact Bool.eq_false_iff.2 hne.symm
        rw [maybeCompress_of_refused hrefused] at hmarks
        rw [MarksVariants.comm] at hmarks
        exact (hmarks ((maybeCompress_differs crates response gzipEnabled gzipTypes maxCollect
          minLength haccepts halters).imp_left Ne.symm)).1
    | false =>
        have haccepts₂ : clientAcceptsGzip h₂ = true := by
          rw [haccepts] at hne
          exact Bool.eq_true_of_not_eq_false hne.symm
        rw [maybeCompress_of_refused haccepts] at hmarks
        exact (hmarks ((maybeCompress_differs crates response gzipEnabled gzipTypes maxCollect
          minLength haccepts₂ halters).imp_left Ne.symm)).1
  · intro hcond
    by_cases hsame : clientAcceptsGzip h₁ = clientAcceptsGzip h₂
    · rw [maybeCompress_congr crates response gzipEnabled gzipTypes maxCollect minLength hsame]
      exact MarksVariants.refl _
    · cases halters : altersBody crates response gzipEnabled gzipTypes maxCollect minLength with
      | false =>
          rw [maybeCompress_of_not_alters halters, maybeCompress_of_not_alters halters]
          exact MarksVariants.refl _
      | true =>
          have hannounced := hcond halters hsame
          intro _
          constructor
          · exact announces_maybeCompress crates response gzipEnabled gzipTypes maxCollect
              minLength h₁ hannounced
          · exact announces_maybeCompress crates response gzipEnabled gzipTypes maxCollect
              minLength h₂ hannounced

end

/-- A text that goes out to one client compressed and to another as it is. Only the compressed one
says that it depends on the request. -/
theorem plain_variant_unmarked :
    SameExcept "accept-encoding" gzipHeaders ∅ ∧
      ¬ MarksVariants
        (maybeCompress fixedCrates (text 200 longText) gzipHeaders true [] none 20)
        (maybeCompress fixedCrates (text 200 longText) ∅ true [] none 20) := by
  constructor
  · intro b hb
    have hother : acceptEncoding.text ≠ Text.toAsciiLowercase b := Ne.symm hb
    rw [gzipHeaders, Static.getAll_append, if_neg hother, List.append_nil]
  · intro hmarks
    have haccepts : clientAcceptsGzip gzipHeaders = true := by decide
    have hrefused : clientAcceptsGzip ∅ = false := rfl
    rw [maybeCompress_of_refused hrefused] at hmarks
    have hdiffers := maybeCompress_differs fixedCrates (text 200 longText) true [] none 20
      haccepts (by decide)
    rw [MarksVariants.comm] at hmarks
    have hannounced := (hmarks (hdiffers.imp_left Ne.symm)).1
    have hnone : varyMembers (text 200 longText).headers = [] := by decide
    rw [Announces, hnone] at hannounced
    rcases hannounced with h | h
    · exact absurd h List.not_mem_nil
    · exact absurd h List.not_mem_nil

/-! ## What compression keeps -/

/-- A response is the compressed form of another: the body decodes to the other one, and all else is
kept, but for the lines that tell of the compression. -/
structure CompressedForm (decode : Bytes → Option Bytes) (response out : Response) : Prop where
  status : out.status = response.status
  coding : out.headers.getAll "content-encoding" = [gzipValue]
  length : Static.HasOnly out.headers "content-length" (toString out.body.data.length)
  whole : out.body.failed = false
  body : decode out.body.data = some response.body.data
  others : ∀ name, Text.toAsciiLowercase name ≠ "content-encoding" →
    Text.toAsciiLowercase name ≠ "content-length" → Text.toAsciiLowercase name ≠ "vary" →
    out.headers.getAll name = response.headers.getAll name
  vary : ∀ m, m ∈ varyMembers out.headers ↔
    m ∈ varyMembers response.headers ∨ m = "accept-encoding"

/-- Every member of `Vary` but `Accept-Encoding` is on its first line, and that is readable. -/
def VaryOnFirstLine (h : HeaderMap) : Prop :=
  ∀ m ∈ varyMembers h,
    m = "accept-encoding" ∨ m ∈ (readMembers h "vary").map Text.toAsciiLowercase

/-- A compressed response has the form exactly if its lines of `Vary` were all read. -/
theorem compressedForm_iff {decode : Bytes → Option Bytes} {response : Response} {bytes : Bytes}
    (hdecode : decode bytes = some response.body.data) :
    CompressedForm decode response (compressed response bytes) ↔
      VaryOnFirstLine response.headers := by
  constructor
  · intro h m hm
    rw [← mem_varyMembers_compressed response bytes m, h.vary m]
    exact Or.inl hm
  · intro hvary
    have hmembers : ∀ m, m ∈ varyMembers (compressed response bytes).headers ↔
        m ∈ varyMembers response.headers ∨ m = "accept-encoding" := by
      intro m
      rw [mem_varyMembers_compressed]
      constructor
      · rintro (rfl | hm)
        · exact Or.inr rfl
        -- what was read is among the members of all lines
        · exact Or.inl (List.map_subset _ (readMembers_subset response.headers "vary") hm)
      · rintro (hm | rfl)
        · exact hvary m hm
        · exact Or.inl rfl
    exact ⟨status_compressed response bytes, getAll_compressed response bytes,
      hasOnly_compressed_length response bytes, rfl, hdecode,
      fun name => getAll_compressed_of_ne response bytes, hmembers⟩

/-- **What compression keeps.** With `decode` an inverse of gzip, for every response, request and
setting of a location: what `maybe_compress` compresses is the compressed form of the response, and
what it does not compress, of a readable body, is the response itself, exactly if the response is
not compressed or has all its members of `Vary` on a first readable line. -/
theorem compression_keeps_iff (crates : Crates) {decode : Bytes → Option Bytes}
    (hdecode : ∀ data bytes, crates.gzip data = some bytes → decode bytes = some data)
    (response : Response) (reqHeaders : HeaderMap) (gzipEnabled : Bool) (gzipTypes : List String)
    (maxCollect : Option Nat) (minLength : Nat) :
    let out := maybeCompress crates response reqHeaders gzipEnabled gzipTypes maxCollect minLength
    ((Coded response out → CompressedForm decode response out) ∧
        (¬ Coded response out → response.body.failed = false → out = response)) ↔
      (compresses crates response reqHeaders gzipEnabled gzipTypes maxCollect minLength = true →
        VaryOnFirstLine response.headers) := by
  intro out
  have hcoded := coded_iff crates response reqHeaders gzipEnabled gzipTypes maxCollect minLength
  have hkept : ¬ Coded response out → response.body.failed = false → out = response := by
    intro hno hwhole
    rw [hcoded, Bool.not_eq_true] at hno
    exact maybeCompress_of_not_compresses crates minLength hno hwhole
  -- a compressed response keeps everything but the other lines of `Vary`
  have hform : Coded response out →
      (CompressedForm decode response out ↔ VaryOnFirstLine response.headers) := by
    intro hyes
    obtain ⟨bytes, hgzip, hout⟩ := maybeCompress_of_compresses crates minLength (hcoded.1 hyes)
    rw [show out = compressed response bytes from hout]
    exact compressedForm_iff (hdecode _ _ hgzip)
  constructor
  · intro h hyes
    exact (hform (hcoded.2 hyes)).1 (h.1 (hcoded.2 hyes))
  · intro h
    refine ⟨?_, hkept⟩
    intro hyes
    exact (hform hyes).2 (h (hcoded.1 hyes))

theorem compression_keeps_iff_text :
    CompressedForm fixedDecode (text 200 longText)
      (maybeCompress fixedCrates (text 200 longText) gzipHeaders true [] none 20) := by
  have hnone : varyMembers (text 200 longText).headers = [] := by decide
  refine ((compression_keeps_iff fixedCrates fixedDecode_gzip (text 200 longText) gzipHeaders true
    [] none 20).2 ?_).1 ?_
  · intro _ m hm
    rw [hnone] at hm
    exact absurd hm List.not_mem_nil
  · rw [coded_iff]
    decide

/-- A text with two lines of `Vary`. -/
def twoVaryLines : Response :=
  { text 200 longText with
    headers := Static.withHeader
      (Static.withHeader (text 200 longText).headers HeaderName.vary "Origin")
      HeaderName.vary "Cookie" }

/-- Of the two lines only the first is left. -/
theorem second_vary_line_lost :
    Coded twoVaryLines (maybeCompress fixedCrates twoVaryLines gzipHeaders true [] none 20) ∧
      ¬ CompressedForm fixedDecode twoVaryLines
        (maybeCompress fixedCrates twoVaryLines gzipHeaders true [] none 20) := by
  have hyes : compresses fixedCrates twoVaryLines gzipHeaders true [] none 20 = true := by decide
  refine ⟨(coded_iff _ _ _ _ _ _ _).2 hyes, ?_⟩
  intro h
  obtain ⟨bytes, -, hout⟩ := maybeCompress_of_compresses fixedCrates 20 hyes
  have hbefore : varyMembers twoVaryLines.headers = ["origin", "cookie"] := by decide
  have hread : (readMembers twoVaryLines.headers "vary").map Text.toAsciiLowercase = ["origin"] := by
    decide
  have hcookie : "cookie" ∈ varyMembers (compressed twoVaryLines bytes).headers := by
    rw [← hout, h.vary, hbefore]
    simp
  rw [mem_varyMembers_compressed, hread] at hcookie
  simp at hcookie

/-! ## Clients that get it -/

/-- The coding that `client_accepts_gzip` sees in a piece of a readable line is the one the member
names. -/
theorem toAsciiLowercase_trim_headD {s : String}
    (h : ∀ c ∈ s.toList, Text.isWhitespace c = isOws c) :
    Text.toAsciiLowercase (Text.trim ((Text.split ';' s).headD s)) = codingName s := by
  rw [codingName, trim_eq_trimOws]
  intro c hc
  cases hsplit : Text.split ';' s with
  | nil =>
      rw [hsplit] at hc
      exact h c hc
  | cons first rest =>
      rw [hsplit] at hc
      exact h c (mem_of_mem_split (hsplit ▸ List.mem_cons_self) hc)

/-- A star has no other case. -/
theorem toAsciiLowercase_eq_star (t : String) : Text.toAsciiLowercase t = "*" ↔ t = "*" := by
  have hback : ∀ c : Char, (c.toLower == '*') = (c == '*') := apply_toLower (· == '*') (by decide)
  have hone : "*".toList = ['*'] := rfl
  rw [← String.toList_inj, ← String.toList_inj, Text.toAsciiLowercase, String.toList_ofList, hone]
  constructor
  · intro ht
    obtain ⟨c, hc, hlower⟩ := List.map_eq_singleton_iff.1 ht
    rw [hc, beq_iff_eq.1 ((hback c).symm.trans (beq_iff_eq.2 hlower))]
  · intro ht
    rw [ht]
    rfl

/-- A client is taken to accept gzip exactly if a member of its first line names gzip or `*`. -/
theorem clientAcceptsGzip_iff (h : HeaderMap) :
    clientAcceptsGzip h = true ↔
      ∃ m ∈ readMembers h "accept-encoding", codingName m = "gzip" ∨ codingName m = "*" := by
  rw [clientAcceptsGzip]
  rcases readMembers_cases h "accept-encoding" with
    ⟨hnone, hread⟩ | ⟨v, s, -, hstr, hsome, hread, -, hsplit⟩
  · simp [hnone, hread]
  · have hblank : ∀ p ∈ Text.split ',' s, ∀ c ∈ (Text.trim p).toList,
        Text.isWhitespace c = isOws c := by
      intro p hp c hc
      exact isWhitespace_of_toStr hstr c (mem_of_mem_split hp (Static.mem_of_mem_trim hc))
    have hempty : codingName "" = "" := by decide
    simp only [hsome, hread, hsplit, List.any_eq_true, Bool.or_eq_true, beq_iff_eq,
      List.mem_filter, List.mem_map, decide_eq_true_eq]
    constructor
    · rintro ⟨p, hp, hnamed⟩
      rw [← toAsciiLowercase_eq_star, toAsciiLowercase_trim_headD (hblank p hp)] at hnamed
      refine ⟨Text.trim p, ⟨⟨p, hp, rfl⟩, ?_⟩, hnamed⟩
      -- an empty piece names nothing
      intro hblank
      rw [hblank, hempty] at hnamed
      exact absurd hnamed (by decide)
    · rintro ⟨m, ⟨⟨p, hp, rfl⟩, -⟩, hnamed⟩
      refine ⟨p, hp, ?_⟩
      rw [← toAsciiLowercase_eq_star, toAsciiLowercase_trim_headD (hblank p hp)]
      exact hnamed

/-- **Willing clients.** For every response, request and setting of a location: `maybe_compress`
compresses only for a client that accepts gzip by the weights of all its members of
`Accept-Encoding`, exactly if one of the members that decide about gzip does not refuse it, or none
on the first line names gzip or `*`, or the rest rules compression out. -/
theorem compresses_willing_iff (crates : Crates) (response : Response) (reqHeaders : HeaderMap)
    (gzipEnabled : Bool) (gzipTypes : List String) (maxCollect : Option Nat) (minLength : Nat) :
    let out := maybeCompress crates response reqHeaders gzipEnabled gzipTypes maxCollect minLength
    (Coded response out → AcceptsCoding "gzip" (allMembers reqHeaders "accept-encoding")) ↔
      (altersBody crates response gzipEnabled gzipTypes maxCollect minLength = true →
        response.body.failed = false →
        (∃ m ∈ readMembers reqHeaders "accept-encoding",
          codingName m = "gzip" ∨ codingName m = "*") →
        ∃ m ∈ deciding "gzip" (allMembers reqHeaders "accept-encoding"), ¬ Refuses m) := by
  intro out
  have hcoded : Coded response out ↔
      altersBody crates response gzipEnabled gzipTypes maxCollect minLength = true ∧
        response.body.failed = false ∧ clientAcceptsGzip reqHeaders = true := by
    rw [coded_iff, compresses_eq, Bool.and_eq_true, Bool.and_eq_true, Bool.not_eq_true']
    tauto
  -- the code asks for a name on the first line, the weights of all lines decide
  rw [hcoded, clientAcceptsGzip_iff, acceptsCoding_iff]
  constructor
  · intro h halters hwhole hnamed
    exact h ⟨halters, hwhole, hnamed⟩
  · rintro h ⟨halters, hwhole, hnamed⟩
    exact h halters hwhole hnamed

/-- A client that refuses gzip. -/
def refusingHeaders : HeaderMap := Static.withHeader ∅ acceptEncoding "gzip;q=0, identity"

/-- The refusal is not seen. -/
theorem refusing_client_gets_gzip :
    Coded (text 200 longText)
        (maybeCompress fixedCrates (text 200 longText) refusingHeaders true [] none 20) ∧
      ¬ AcceptsCoding "gzip" (allMembers refusingHeaders "accept-encoding") := by
  have hmembers : allMembers refusingHeaders "accept-encoding" = ["gzip;q=0", "identity"] := by
    decide
  constructor
  · rw [coded_iff]
    decide
  · rw [hmembers]
    have hgzip : codingName "gzip;q=0" = "gzip" := by decide
    have hzero : quality "gzip;q=0" = some 0 := by decide
    have hidentity : codingName "identity" = "identity" := by decide
    simp [AcceptsCoding, hgzip, hzero, hidentity]

end Elrond.Server
