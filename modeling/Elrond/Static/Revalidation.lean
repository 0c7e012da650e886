import Elrond.Lib.Revalidation
import Elrond.Static.Selection

/-!
# Conditional requests for a file that changes

`serve` looks at a file twice: its metadata decide about `If-None-Match` and give the entity tag,
and later it is read. A client keeps the body of a 200 with its entity tag, sends the tag with the
next request and keeps its copy on a 304. Here the file may change between any two uses of it, and
what the client holds is compared with what the file was.

The tag consists of the length and the second of the last change. `serve` and the client together
are the revalidation of the library with this tag (`afterExchange_eq`), so that the client's copies
are current just if no other content comes between two files of one length and one second
(`revalidated_iff`).
-/

set_option autoImplicit false

namespace Elrond.Static

open Elrond.Lib Elrond.Http Elrond.Request Elrond.Config Elrond.App Revalidation

/-! ## Entity tags -/

theorem digitChar_inj {m n : Nat} (hm : m < 16) (hn : n < 16)
    (h : Nat.digitChar m = Nat.digitChar n) : m = n := by
  have hall : (List.range 16).all (fun m => (List.range 16).all fun n =>
      Nat.digitChar m != Nat.digitChar n || m == n) = true := by decide
  have hmn := List.all_eq_true.1 (List.all_eq_true.1 hall m (List.mem_range.2 hm)) n
    (List.mem_range.2 hn)
  simpa [h] using hmn

/-- A number can be told from its hexadecimal digits. -/
theorem toDigits_sixteen_inj {m n : Nat} (h : Nat.toDigits 16 m = Nat.toDigits 16 n) : m = n := by
  -- both texts end with the last digit, and the digits before it are those of a smaller number
  induction m using Nat.strong_induction_on generalizing n with
  | _ m ih =>
      rw [Nat.toDigits_eq_if (by decide), Nat.toDigits_eq_if (n := n) (by decide)] at h
      split at h
      · next hm =>
        split at h
        · next hn => exact digitChar_inj hm hn (List.cons.inj h).1
        · next hn =>
          have hlength := congrArg List.length h
          have hpos : 0 < (Nat.toDigits 16 (n / 16)).length := Nat.length_toDigits_pos
          simp only [List.length_append, List.length_singleton] at hlength
          omega
      · next hm =>
        split at h
        · next hn =>
          have hlength := congrArg List.length h
          have hpos : 0 < (Nat.toDigits 16 (m / 16)).length := Nat.length_toDigits_pos
          simp only [List.length_append, List.length_singleton] at hlength
          omega
        · next hn =>
          obtain ⟨hquot, hrem⟩ := List.append_inj' h rfl
          have hq : m / 16 = n / 16 := ih (m / 16) (by omega) hquot
          have hr : m % 16 = n % 16 :=
            digitChar_inj (Nat.mod_lt _ (by decide)) (Nat.mod_lt _ (by decide))
              (List.cons.inj hrem).1
          omega

theorem hexText_inj {m n : Nat} (h : hexText m = hexText n) : m = n := by
  rw [hexText, hexText, ← String.toList_inj, String.toList_ofList, String.toList_ofList] at h
  exact toDigits_sixteen_inj h

theorem dash_notMem_hexText (n : Nat) : '-' ∉ (hexText n).toList := by
  intro h
  rw [hexText, String.toList_ofList] at h
  have hall := Text.all_toDigits (p := fun c => c != '-') (by decide) 16 n
  exact absurd (List.all_eq_true.1 hall _ h) (by decide)

/-- Two files with a time have one entity tag just if they have one length and one second. -/
theorem etagOf_eq_iff {a b : Metadata} {et : String} (ha : etagOf a = some et) :
    etagOf b = some et ↔ b.len = a.len ∧ b.mtimeSecs = a.mtimeSecs := by
  obtain ⟨s, hs, rfl⟩ := Option.map_eq_some_iff.1 ha
  constructor
  · intro hb
    obtain ⟨s', hs', heq⟩ := Option.map_eq_some_iff.1 hb
    rw [← String.toList_inj] at heq
    simp only [String.toList_append] at heq
    have hnumbers := List.append_cancel_right heq
    rw [List.append_assoc, List.append_assoc, List.append_assoc, List.append_assoc] at hnumbers
    -- the digits of the length end at the dash
    obtain ⟨hlen, -, hsecs⟩ := (List.append_cons_inj_of_notMem (dash_notMem_hexText _)
      (dash_notMem_hexText _)).1 (List.append_cancel_left hnumbers).symm
    have hlen' := UInt64.toNat_inj.1 (hexText_inj (String.toList_inj.1 hlen))
    have hsecs' := UInt64.toNat_inj.1 (hexText_inj (String.toList_inj.1 hsecs))
    rw [hs, hs', ← hlen', ← hsecs']
    exact ⟨rfl, rfl⟩
  · rintro ⟨hlen, hsecs⟩
    rw [etagOf, hlen, hsecs, hs]
    rfl

/-- What holds of the marks and of the digits holds of every character of an entity tag. -/
theorem all_etagOf {p : Char → Bool} (hmarks : "W/\"-".toList.all p = true)
    (hdigits : Text.digitChars.all p = true) {md : Metadata} {et : String}
    (h : etagOf md = some et) : ∀ c ∈ et.toList, p c = true := by
  obtain ⟨s, -, rfl⟩ := Option.map_eq_some_iff.1 h
  have hhex : ∀ n, (hexText n).toList.all p = true := by
    intro n
    rw [hexText, String.toList_ofList]
    exact Text.all_toDigits hdigits 16 n
  have hmark : ∀ m : String, m.toList ⊆ "W/\"-".toList → m.toList.all p = true := by
    intro m hm
    exact List.all_eq_true.2 fun c hc => List.all_eq_true.1 hmarks c (hm hc)
  apply List.all_eq_true.1
  simp only [String.toList_append, List.all_append, hhex, hmark "W/\"" (by simp),
    hmark "-" (by simp), hmark "\"" (by simp), Bool.and_self]

theorem trim_etagOf {md : Metadata} {et : String} (h : etagOf md = some et) :
    Text.trim et = et := by
  have hdark : ∀ c ∈ et.toList, ¬ Text.isWhitespace c = true := by
    intro c hc
    have hall := all_etagOf (p := fun c => !Text.isWhitespace c) (by decide) (by decide) h c hc
    simpa using hall
  rw [← String.toList_inj, Text.trim, String.toList_ofList,
    List.dropWhile_eq_self_iff.2 fun hpos => hdark _ (List.getElem_mem hpos),
    List.rdropWhile_eq_self_iff.2 fun hne => hdark _ (List.getLast_mem hne)]

theorem etagOf_ne_star {md : Metadata} {et : String} (h : etagOf md = some et) : et ≠ "*" := by
  obtain ⟨s, -, rfl⟩ := Option.map_eq_some_iff.1 h
  intro heq
  have hhead := congrArg (fun t : String => t.toList.head?) heq
  simp at hhead

/-! ## Lines that are read back -/

theorem isVisibleByte_of_char {b : UInt8} (h : isVisibleChar (Char.ofNat b.toNat) = true) :
    isVisibleByte b = true := by
  simp only [isVisibleChar, toNat_ofNat_byte, Bool.or_eq_true, Bool.and_eq_true,
    decide_eq_true_eq, beq_iff_eq] at h
  simp only [isVisibleByte, Bool.or_eq_true, Bool.and_eq_true, decide_eq_true_eq, beq_iff_eq,
    UInt8.le_iff_toNat_le, UInt8.lt_iff_toNat_lt]
  rcases h with hrange | htab
  · exact Or.inl hrange
  · have hnat := congrArg Char.toNat htab
    rw [toNat_ofNat_byte] at hnat
    exact Or.inr (UInt8.toNat_inj.1 hnat)

/-- A line that was written with a readable text reads as this text. -/
theorem toStr_of_bytes {v : HeaderValue} {s : String} (hbytes : v.bytes = Text.utf8Bytes s)
    (hvisible : ∀ c ∈ s.toList, isVisibleChar c = true) : v.toStr = some s := by
  obtain ⟨v', -, hbytes', htext⟩ := fromStr_of_visible hvisible
  rw [hbytes', ← hbytes] at htext
  have hall : v.bytes.all isVisibleByte = true := by
    rw [List.all_eq_true]
    intro b hb
    apply isVisibleByte_of_char
    apply hvisible
    rw [← htext, asciiText, String.toList_ofList]
    exact List.mem_map.2 ⟨b, hb, rfl⟩
  rw [HeaderValue.toStr, if_pos hall, htext]

/-- The only line of a name, with a readable text. -/
theorem HasOnly.read {headers : HeaderMap} {name value : String} (h : HasOnly headers name value)
    (hvisible : ∀ c ∈ value.toList, isVisibleChar c = true) :
    (headers.get name).bind HeaderValue.toStr = some value := by
  obtain ⟨v, hv, hbytes⟩ := h
  rw [HeaderMap.get, hv]
  exact toStr_of_bytes hbytes hvisible

/-! ## The client -/

/-- The `if-none-match` header name. -/
def ifNoneMatch : HeaderName := ⟨"if-none-match", by decide⟩

/-- What a client sends with its other headers when it has a copy. -/
def conditional (others : HeaderMap) : Option (Copy String Bytes) → HeaderMap
  | some copy => withHeader others ifNoneMatch copy.tag
  | none => others

/-- What a client keeps of a response: its copy if it is told to, and the body of a 200 with an
entity tag. -/
def kept (held : Option (Copy String Bytes)) (response : Response) : Option (Copy String Bytes) :=
  if response.status = 304 then held
  else if response.status = 200 then
    ((response.headers.get "etag").bind HeaderValue.toStr).map fun et =>
      ⟨et, response.body.data⟩
  else none

/-- A copy with the entity tag of a file. -/
def Tagged (copy : Copy String Bytes) : Prop := ∃ md, etagOf md = some copy.tag

theorem matchesEtag_none {others : HeaderMap} (hnone : others.getAll "if-none-match" = [])
    (et : String) : matchesEtag others et = false := by
  rw [matchesEtag, HeaderMap.get, hnone]
  rfl

/-- `serve` finds the tag of a copy just if the file has it. -/
theorem matchesEtag_conditional {others : HeaderMap}
    (hnone : others.getAll "if-none-match" = []) {copy : Copy String Bytes}
    (htagged : Tagged copy) (et : String) :
    matchesEtag (conditional others (some copy)) et = decide (copy.tag = et) := by
  obtain ⟨md, htag⟩ := htagged
  have hvisible := isVisibleChar_etagOf htag
  have hline : HasOnly (conditional others (some copy)) "if-none-match" copy.tag := by
    obtain ⟨v, hbytes, hv⟩ := getAll_withHeader_of_eq others (n := ifNoneMatch)
      (b := "if-none-match") (by decide) hvisible
    rw [hnone, List.nil_append] at hv
    exact ⟨v, hv, hbytes⟩
  have hcomma : ',' ∉ copy.tag.toList := by
    intro hmem
    have hall := all_etagOf (p := fun c => c != ',') (by decide) (by decide) htag _ hmem
    exact absurd hall (by decide)
  have hstar : (copy.tag == "*") = false := beq_eq_false_iff_ne.2 (etagOf_ne_star htag)
  rw [matchesEtag, hline.read hvisible]
  simp only [Text.split, List.splitOn_eq_singleton hcomma, List.map_singleton,
    String.ofList_toList, List.any_cons, List.any_nil, Bool.or_false, trim_etagOf htag, hstar]
  rfl

/-- The conditional header is no range. -/
theorem rangeHeader_conditional {others : HeaderMap} (hrange : others.getAll "range" = [])
    (held : Option (Copy String Bytes)) : rangeHeader (conditional others held) = none := by
  cases held with
  | none =>
      rw [conditional, rangeHeader, HeaderMap.get, hrange]
      rfl
  | some copy =>
      rw [conditional, rangeHeader, HeaderMap.get, getAll_withHeader_of_ne _ _ (by decide), hrange]
      rfl

/-! ## The file -/

/-- A file as it is at some moment; its metadata tell its length. -/
structure FileVersion where
  md : Metadata
  content : Bytes
  notDir : md.isDir = false
  len : md.len.toNat = content.length

/-- What is at a path at every moment: a file, or the error that its uses end with. -/
abbrev History : Type := Nat → Except IoError FileVersion

/-- What the file system answers at a moment; only the one path is there. -/
def replyAt (path : String) (now : Except IoError FileVersion) : (q : Access) → q.Answer
  | .stat p => if p = path then now.map FileVersion.md else .error .notFound
  | .read p => if p = path then now.map FileVersion.content else .error .notFound
  | .readRange p start length =>
      if p = path then
        match now with
        | .ok v =>
            if start + length ≤ v.content.length then .ok ((v.content.drop start).take length)
            else .error .other
        | .error e => .error e
      else .error .notFound
  | .list _ => .error .notFound
  | .entryType _ _ => .error .notFound

/-- The file system during a request, which uses it at these moments. -/
def answerAt (path : String) (history : History) (moments : List Nat) (q : Access) :
    q.Answer × List Nat :=
  (replyAt path (history (moments.headD 0)) q, moments.tail)

/-! ## Exchanges -/

section

variable (root : String) (kind : StaticKind) (reqPath : String) (autoindex : Bool)
  (others : HeaderMap) (history : History)

/-- What the client holds after a request. -/
def afterExchange (held : Option (Copy String Bytes)) (e : Exchange) :
    Option (Copy String Bytes) :=
  let path := Path.join root (relativePath kind reqPath)
  kept held ((serve root kind reqPath (conditional others held) .get autoindex).run
    (answerAt path history) [e.looked, e.taken]).1

/-- What a client that starts with nothing holds after some requests. -/
def afterAll (es : List Exchange) : Option (Copy String Bytes) :=
  es.foldl (afterExchange root kind reqPath autoindex others history) none

/-- No other content comes between two files of one length and one second. -/
def ToldApart : Prop :=
  ∀ t₁ t₂ t₃ v₁ v₂ v₃, t₁ ≤ t₂ → t₂ ≤ t₃ →
    history t₁ = .ok v₁ → history t₂ = .ok v₂ → history t₃ = .ok v₃ →
    v₁.md.mtimeSecs ≠ none → v₁.md.mtimeSecs = v₃.md.mtimeSecs →
    v₁.content.length = v₃.content.length → v₂.content = v₃.content

end

theorem wholeHeaders_etag (path : String) (md : Metadata) :
    (((wholeHeaders path md (etagOf md) false).get "etag").bind HeaderValue.toStr) =
      etagOf md := by
  have hplain : (withHeader (withHeader ∅ HeaderName.contentType (mimeFor path)) acceptRanges
      "bytes").getAll "etag" = [] := by
    rw [getAll_withHeader_of_ne _ _ (by decide), getAll_withHeader_of_ne _ _ (by decide)]
    rfl
  cases htag : etagOf md with
  | none =>
      -- without a time there is no line at all
      have hsecs : md.mtimeSecs = none := by
        rw [etagOf] at htag
        exact Option.map_eq_none_iff.1 htag
      rw [HeaderMap.get, wholeHeaders, hsecs]
      simp only [withValidators, Bool.false_eq_true, if_false]
      rw [hplain]
      rfl
  | some et =>
      have hvisible := isVisibleChar_etagOf htag
      exact (hasOnly_withValidators_etag hplain hvisible md.mtimeSecs).read hvisible

section

variable {root : String} {kind : StaticKind} {reqPath : String} {autoindex : Bool}
  {others : HeaderMap} {history : History}

theorem kept_text (held : Option (Copy String Bytes)) {code : Nat} (body : String)
    (h304 : code ≠ 304) (h200 : code ≠ 200) : kept held (text code body) = none := by
  have hstatus : (text code body).status = code := rfl
  rw [kept, hstatus, if_neg h304, if_neg h200]

/-- A whole file that is sent is kept with the tag that it has. -/
theorem kept_wholeAnswer (held : Option (Copy String Bytes)) (path : String) (md : Metadata)
    (reply : Except IoError FileVersion) :
    kept held (wholeAnswer path md false (reply.map FileVersion.content)) =
      (etagOf md).bind fun et => reply.toOption.map fun v => ⟨et, v.content⟩ := by
  rcases reply with (_ | _) | v
  · rw [Except.map, wholeAnswer, kept_text held _ (by decide) (by decide)]
    cases etagOf md <;> rfl
  · rw [Except.map, wholeAnswer, kept_text held _ (by decide) (by decide)]
    cases etagOf md <;> rfl
  · have h304 : (200 : Nat) ≠ 304 := by decide
    rw [Except.map, wholeAnswer, kept]
    simp only [if_neg h304, if_true, wholeHeaders_etag]
    cases etagOf md <;> rfl

/-- A request without a range selects the whole file, or nothing if it has the tag of the file. -/
theorem selection_conditional (hrange : others.getAll "range" = [])
    (hnone : others.getAll "if-none-match" = []) {held : Option (Copy String Bytes)}
    (htagged : ∀ copy, held = some copy → Tagged copy) (md : Metadata) :
    (∃ copy, held = some copy ∧ etagOf md = some copy.tag ∧
        selection md (conditional others held) = .notModified copy.tag) ∨
      ((∀ copy, held = some copy → etagOf md ≠ some copy.tag) ∧
        selection md (conditional others held) = .whole) := by
  have hwhole : (etagOf md).filter (matchesEtag (conditional others held)) = none →
      selection md (conditional others held) = .whole := by
    intro hfilter
    simp only [selection, hfilter, rangeHeader_conditional hrange held, Option.bind_none]
  cases htag : etagOf md with
  | none =>
      right
      refine ⟨fun copy _ => Option.some_ne_none _ ∘ Eq.symm, hwhole ?_⟩
      rw [htag, Option.filter_none]
  | some et =>
      cases held with
      | none =>
          right
          refine ⟨fun copy hcopy => absurd hcopy.symm (Option.some_ne_none copy), hwhole ?_⟩
          rw [htag, Option.filter_some, conditional, matchesEtag_none hnone]
          rfl
      | some copy =>
          have hmatch := matchesEtag_conditional hnone (htagged copy rfl) et
          by_cases heq : copy.tag = et
          · left
            refine ⟨copy, rfl, by rw [heq], ?_⟩
            rw [decide_eq_true heq] at hmatch
            simp only [selection, htag, Option.filter_some, hmatch, if_true, heq]
          · right
            refine ⟨?_, hwhole ?_⟩
            · intro copy' hcopy hsome
              obtain rfl := Option.some.inj hcopy
              exact heq (Option.some.inj hsome).symm
            · rw [decide_eq_false heq] at hmatch
              rw [htag, Option.filter_some, hmatch]
              rfl

/-- What is kept of the answer for a file that was found, and is read later. -/
theorem kept_serveFile (hrange : others.getAll "range" = [])
    (hnone : others.getAll "if-none-match" = []) {held : Option (Copy String Bytes)}
    (htagged : ∀ copy, held = some copy → Tagged copy) (path : String) (md : Metadata)
    (e : Exchange) :
    kept held ((serveFile path md (conditional others held) .get).run (answerAt path history)
        [e.taken]).1 =
      (etagOf md).bind
        (renewed (fun t => (history t).toOption) FileVersion.content held e) := by
  rw [serveFile_eq]
  obtain ⟨copy, rfl, htag, hselection⟩ | ⟨hother, hselection⟩ :=
    selection_conditional hrange hnone htagged md
  · rw [hselection, htag]
    simp [kept, notModified, renewed, Asks.run]
  · have hread : (answerAt path history [e.taken] (.read path)).1 =
        (history e.taken).map FileVersion.content := if_pos rfl
    have hget : (Method.get == Method.head) = false := rfl
    rw [hselection]
    simp only [hget]
    rw [run_serveWhole, hread, readFor]
    simp only [Bool.false_eq_true, if_false, kept_wholeAnswer]
    cases htag : etagOf md with
    | none => rfl
    | some et =>
        cases held with
        | none => rfl
        | some copy =>
            have hne : copy.tag ≠ et := fun heq => hother copy rfl (by rw [htag, heq])
            simp only [Option.bind_some, renewed, if_neg hne]
            rfl

/-- **One request.** The server and the client together revalidate the copy with the entity tag. -/
theorem afterExchange_eq (hsafe : componentsSafe (relativePath kind reqPath) = true)
    (hrange : others.getAll "range" = []) (hnone : others.getAll "if-none-match" = [])
    {held : Option (Copy String Bytes)} (htagged : ∀ copy, held = some copy → Tagged copy)
    (e : Exchange) :
    afterExchange root kind reqPath autoindex others history held e =
      exchange (fun t => (history t).toOption) (fun v => etagOf v.md) FileVersion.content held
        e := by
  have hstat : (answerAt (Path.join root (relativePath kind reqPath)) history
      [e.looked, e.taken] (.stat (Path.join root (relativePath kind reqPath)))).1 =
      (history e.looked).map FileVersion.md := if_pos rfl
  have hrest : (answerAt (Path.join root (relativePath kind reqPath)) history
      [e.looked, e.taken] (.stat (Path.join root (relativePath kind reqPath)))).2 =
      [e.taken] := rfl
  rw [afterExchange, serve]
  simp only [hsafe, Bool.not_true, Bool.false_eq_true, if_false, Asks.question_bind, Asks.run,
    hstat, hrest]
  rw [exchange]
  cases history e.looked with
  | error err =>
      cases err with
      | notFound => exact kept_text held _ (by decide) (by decide)
      | other => exact kept_text held _ (by decide) (by decide)
  | ok v =>
      simp only [Except.map, v.notDir, Bool.false_eq_true, if_false]
      exact kept_serveFile hrange hnone htagged _ v.md e

/-- A copy that is held after a request has the entity tag of a file. -/
theorem tagged_exchange {history : Nat → Option FileVersion} {held : Option (Copy String Bytes)}
    {e : Exchange} {copy : Copy String Bytes}
    (h : exchange history (fun v => etagOf v.md) FileVersion.content held e = some copy) :
    Tagged copy := by
  obtain ⟨v, -, htag, -⟩ := exchange_eq_some h
  exact ⟨v.md, htag⟩

/-- **Runs.** The client holds what it would hold in the revalidation with the entity tag. -/
theorem afterAll_eq (hsafe : componentsSafe (relativePath kind reqPath) = true)
    (hrange : others.getAll "range" = []) (hnone : others.getAll "if-none-match" = [])
    (es : List Exchange) :
    afterAll root kind reqPath autoindex others history es =
        heldAfter (fun t => (history t).toOption) (fun v => etagOf v.md) FileVersion.content es ∧
      ∀ copy, afterAll root kind reqPath autoindex others history es = some copy →
        Tagged copy := by
  induction es using List.reverseRecOn with
  | nil => exact ⟨rfl, fun copy h => absurd h.symm (Option.some_ne_none copy)⟩
  | append_singleton es e ih =>
      have hstep : afterAll root kind reqPath autoindex others history (es ++ [e]) =
          afterExchange root kind reqPath autoindex others history
            (afterAll root kind reqPath autoindex others history es) e := by
        rw [afterAll, List.foldl_append]
        rfl
      rw [hstep, afterExchange_eq hsafe hrange hnone ih.2 e, heldAfter_append, ← ih.1]
      exact ⟨rfl, fun copy h => tagged_exchange h⟩

theorem toOption_eq_some (t : Nat) (v : FileVersion) :
    (history t).toOption = some v ↔ history t = .ok v := by
  cases history t with
  | error err =>
      constructor
      · exact fun h => absurd h.symm (Option.some_ne_none v)
      · exact fun h => nomatch h
  | ok v' =>
      constructor
      · exact fun h => congrArg Except.ok (Option.some.inj h)
      · exact fun h => congrArg some (Except.ok.inj h)

/-- The entity tags tell the contents apart just if lengths and seconds do. -/
theorem tells_iff : Tells (fun t => (history t).toOption) (fun v => etagOf v.md)
    FileVersion.content ↔ ToldApart history := by
  have hok : ∀ t v, (history t).toOption = some v ↔ history t = .ok v := toOption_eq_some
  have hlen : ∀ v v' : FileVersion, v'.md.len = v.md.len ↔
      v.content.length = v'.content.length := by
    intro v v'
    rw [← v.len, ← v'.len, UInt64.toNat_inj]
    exact eq_comm
  constructor
  · intro htells t₁ t₂ t₃ v₁ v₂ v₃ h₁₂ h₂₃ hv₁ hv₂ hv₃ hsome hsecs hlength
    obtain ⟨secs, hs⟩ := Option.ne_none_iff_exists'.1 hsome
    obtain ⟨et, htag⟩ : ∃ et, etagOf v₁.md = some et := by
      rw [etagOf, hs]
      exact ⟨_, rfl⟩
    exact htells t₁ t₂ t₃ v₁ v₂ v₃ et h₁₂ h₂₃ ((hok _ _).2 hv₁) ((hok _ _).2 hv₂)
      ((hok _ _).2 hv₃) htag ((etagOf_eq_iff htag).2 ⟨(hlen v₁ v₃).2 hlength, hsecs.symm⟩)
  · intro htold t₁ t₂ t₃ v₁ v₂ v₃ et h₁₂ h₂₃ hv₁ hv₂ hv₃ htag₁ htag₃
    obtain ⟨hlength, hsecs⟩ := (etagOf_eq_iff htag₁).1 htag₃
    have hsome : v₁.md.mtimeSecs ≠ none := by
      obtain ⟨secs, hs, -⟩ := Option.map_eq_some_iff.1 htag₁
      rw [hs]
      exact Option.some_ne_none secs
    exact htold t₁ t₂ t₃ v₁ v₂ v₃ h₁₂ h₂₃ ((hok _ _).1 hv₁) ((hok _ _).1 hv₂) ((hok _ _).1 hv₃)
      hsome hsecs.symm ((hlen v₁ v₃).1 hlength)

/-- The files are told apart if their times never go back and no two contents share a second. -/
theorem ToldApart.of_seconds
    (hmono : ∀ t t' v v', t ≤ t' → history t = .ok v → history t' = .ok v' →
      v.md.mtimeSecs.getD 0 ≤ v'.md.mtimeSecs.getD 0)
    (hsecond : ∀ t t' v v', history t = .ok v → history t' = .ok v' →
      v.md.mtimeSecs.getD 0 = v'.md.mtimeSecs.getD 0 → v.content = v'.content) :
    ToldApart history := by
  apply tells_iff.1
  apply Tells.of_stamps fun v => (v.md.mtimeSecs.getD 0).toNat
  · intro t t' v v' hle hv hv'
    exact UInt64.le_iff_toNat_le.1
      (hmono t t' v v' hle ((toOption_eq_some t v).1 hv) ((toOption_eq_some t' v').1 hv'))
  · intro v v' et htag htag'
    show (v.md.mtimeSecs.getD 0).toNat = (v'.md.mtimeSecs.getD 0).toNat
    rw [((etagOf_eq_iff htag).1 htag').2]
  · intro t t' v v' hv hv' heq
    exact hsecond t t' v v' ((toOption_eq_some t v).1 hv) ((toOption_eq_some t' v').1 hv')
      (UInt64.toNat_inj.1 heq)

end

/-- **Conditional requests.** A client asks again and again for a file that may change between any
two uses the server makes of it, also between the look at its metadata and the read. Whatever copy
it holds after a request of a run, the file had that content at some moment of the request, just if
no other content ever comes between two files of one length and one second. -/
theorem revalidated_iff {root : String} {kind : StaticKind} {reqPath : String}
    (hsafe : componentsSafe (relativePath kind reqPath) = true) {others : HeaderMap}
    (hrange : others.getAll "range" = []) (hnone : others.getAll "if-none-match" = [])
    (autoindex : Bool) (history : History) :
    (∀ es e, (es ++ [e]).IsChain Exchange.Before → ∀ copy,
        afterAll root kind reqPath autoindex others history (es ++ [e]) = some copy →
        ∃ t v, e.looked ≤ t ∧ t ≤ e.taken ∧ history t = .ok v ∧ v.content = copy.content) ↔
      ToldApart history := by
  have hcurrent : ∀ (e : Exchange) (copy : Copy String Bytes),
      (∃ t v, e.looked ≤ t ∧ t ≤ e.taken ∧ history t = .ok v ∧ v.content = copy.content) ↔
        Current (fun t => (history t).toOption) FileVersion.content e copy.content := by
    intro e copy
    simp only [Current, toOption_eq_some]
  rw [← tells_iff, ← current_iff]
  constructor
  · intro h es e hes copy hheld
    rw [← (afterAll_eq hsafe hrange hnone (es ++ [e])).1] at hheld
    exact (hcurrent e copy).1 (h es e hes copy hheld)
  · intro h es e hes copy hheld
    rw [(afterAll_eq hsafe hrange hnone (es ++ [e])).1] at hheld
    exact (hcurrent e copy).2 (h es e hes copy hheld)

/-- A page of one letter that another letter replaces within the same second. -/
def hastyHistory (t : Nat) : Except IoError FileVersion :=
  if t = 0 then
    .ok { md := ⟨false, true, 1, some 7⟩, content := [97], notDir := rfl, len := rfl }
  else .ok { md := ⟨false, true, 1, some 7⟩, content := [98], notDir := rfl, len := rfl }

theorem hastyHistory_is_stale :
    ¬ ∀ es e, (es ++ [e]).IsChain Exchange.Before → ∀ copy,
        afterAll "/srv" .root "/index.html" false ∅ hastyHistory (es ++ [e]) = some copy →
        ∃ t v, e.looked ≤ t ∧ t ≤ e.taken ∧ hastyHistory t = .ok v ∧
          v.content = copy.content := by
  rw [revalidated_iff (by decide) rfl rfl]
  intro htold
  have hsame := htold 0 0 1 _ _ _ (by decide) (by decide) rfl rfl rfl (by decide) rfl rfl
  exact absurd hsame (by decide)

end Elrond.Static
