import Elrond.Lib.Html
import Elrond.Static.Links

/-!
# The page of a directory listing

What a browser reads on the page of `render_directory_listing`. The names of the entries and the path
of the request are written through two escapes, which are undone by reading (`unescape_htmlEscaped`,
`unescape_attrEscaped`) and leave no character that opens a tag or ends a value. So for all names and
paths the page is read as the tags it is made of, with the names and the path as texts
(`read_listingHtml`), and its links are those of the entries, in their order (`listing_correct`).
-/

set_option autoImplicit false

namespace Elrond.Static

open Elrond.Lib Elrond.Http

/-! ## The escapes -/

/-- An escaped text is read as the text. -/
theorem unescape_htmlEscaped (s : String) (rest : List Char) :
    Html.unescape ((htmlEscaped s).toList ++ rest) = s.toList ++ Html.unescape rest := by
  rw [htmlEscaped, String.toList_ofList]
  refine Html.unescape_flatMap (fun c rest => ?_) _ _
  split
  · exact Html.unescape_reference rfl
  · exact Html.unescape_reference rfl
  · exact Html.unescape_reference rfl
  · exact Html.unescape_reference rfl
  · next hamp _ => exact Html.unescape_cons hamp rest

theorem unescape_attrEscaped (s : String) (rest : List Char) :
    Html.unescape ((attrEscaped s).toList ++ rest) = s.toList ++ Html.unescape rest := by
  rw [attrEscaped, String.toList_ofList]
  refine Html.unescape_flatMap (fun c rest => ?_) _ _
  split
  · exact Html.unescape_reference rfl
  · exact Html.unescape_reference rfl
  · exact Html.unescape_reference rfl
  · exact Html.unescape_reference rfl
  · exact Html.unescape_reference rfl
  · next hamp _ _ => exact Html.unescape_cons hamp rest

/-- A character that starts no tag and ends neither a text nor a value in double quotes. -/
def Inert (c : Char) : Prop := c ≠ '<' ∧ c ≠ '>' ∧ c ≠ '"'

instance (c : Char) : Decidable (Inert c) := by
  unfold Inert
  infer_instance

theorem inert_of_all {cs : List Char} (h : cs.all (fun c => decide (Inert c)) = true) :
    ∀ c ∈ cs, Inert c :=
  fun c hc => of_decide_eq_true (List.all_eq_true.1 h c hc)

theorem inert_htmlEscaped (s : String) : ∀ c ∈ (htmlEscaped s).toList, Inert c := by
  intro c hc
  rw [htmlEscaped, String.toList_ofList] at hc
  obtain ⟨d, -, hd⟩ := List.mem_flatMap.1 hc
  split at hd
  · exact inert_of_all (by decide) c hd
  · exact inert_of_all (by decide) c hd
  · exact inert_of_all (by decide) c hd
  · exact inert_of_all (by decide) c hd
  · next hlt hgt _ hquot =>
    obtain rfl := List.mem_singleton.1 hd
    exact ⟨hlt, hgt, hquot⟩

theorem inert_attrEscaped (s : String) : ∀ c ∈ (attrEscaped s).toList, Inert c ∧ c ≠ '\'' := by
  intro c hc
  rw [attrEscaped, String.toList_ofList] at hc
  obtain ⟨d, -, hd⟩ := List.mem_flatMap.1 hc
  -- no reference holds a single quote
  have hreference : ∀ cs : List Char, cs.all (fun c => decide (Inert c)) = true → '\'' ∉ cs →
      c ∈ cs → Inert c ∧ c ≠ '\'' :=
    fun cs hall hquote hmem => ⟨inert_of_all hall c hmem, fun heq => hquote (heq ▸ hmem)⟩
  split at hd
  · exact hreference _ (by decide) (by decide) hd
  · exact hreference _ (by decide) (by decide) hd
  · exact hreference _ (by decide) (by decide) hd
  · exact hreference _ (by decide) (by decide) hd
  · exact hreference _ (by decide) (by decide) hd
  · next hlt hgt _ hquot hsingle =>
    obtain rfl := List.mem_singleton.1 hd
    exact ⟨⟨hlt, hgt, hquot⟩, hsingle⟩

/-! ## The tags of the page -/

/-- The text of a link. -/
def entryText (entry : String × Bool) : String :=
  if entry.2 then entry.1 ++ "/" else entry.1

/-- The rules of the style sheet. -/
def styleRules : String :=
  "body\x7bfont:14px/1.5 system-ui,sans-serif;padding:1.5rem;max-width:60rem;" ++
  "margin:auto\x7dh1\x7bfont-size:1.25rem;margin-bottom:1rem\x7dpre\x7bmargin:0\x7d" ++
  "a\x7btext-decoration:none;color:inherit\x7da:hover\x7btext-decoration:underline\x7d"

/-- A start tag without attributes. -/
def tag (name : String) : Html.Tag := .start name.toList []

/-- A link, with the text behind its tags. -/
def linkTags (href text : List Char) : List (Html.Tag × List Char) :=
  [(.start ['a'] [(['h', 'r', 'e', 'f'], href)], text), (.stop ['a'], ['\n'])]

/-- The tags before the title. -/
def openingTags : List (Html.Tag × List Char) :=
  [(.declaration "doctype html".toList, "\n".toList), (tag "html", "\n".toList),
    (tag "head", "\n".toList),
    (.start "meta".toList [("charset".toList, "utf-8".toList)], "\n".toList)]

/-- The tags between the style sheet and the heading. -/
def bodyTags : List (Html.Tag × List Char) :=
  [(.stop "style".toList, "\n".toList), (.stop "head".toList, "\n".toList),
    (tag "body", "\n".toList)]

/-- The tags between the title and the heading. -/
def middleTags : List (Html.Tag × List Char) :=
  (.stop "title".toList, "\n".toList) :: (tag "style", styleRules.toList) :: bodyTags

/-- The tags up to the links. -/
def headTags (title : List Char) : List (Html.Tag × List Char) :=
  openingTags ++ (tag "title", "Index of ".toList ++ title) ::
    (middleTags ++ [(tag "h1", "Index of ".toList ++ title), (.stop "h1".toList, "\n".toList),
      (tag "pre", [])])

/-- The link to the parent directory, on every page but that of the root. -/
def parentTags (uriPath : String) : List (Html.Tag × List Char) :=
  if uriPath ≠ "/" ∧ uriPath ≠ "" then linkTags "../".toList "../".toList else []

/-- The tags behind the links. -/
def footTags : List (Html.Tag × List Char) :=
  [(.stop "pre".toList, "\n".toList), (.stop "body".toList, "\n".toList),
    (.stop "html".toList, "\n".toList)]

/-- The page of a listing, with its texts written by `text` and its references by `value`. -/
def pageTags (text value : String → List Char) (uriPath : String)
    (entries : List (String × Bool)) : List (Html.Tag × List Char) :=
  headTags (text uriPath) ++ parentTags uriPath ++
    entries.flatMap (fun e => linkTags (value (entryHref e)) (text (entryText e))) ++ footTags

/-! ### What is written -/

theorem listingStyle_eq : listingStyle = "<style>" ++ styleRules ++ "</style>" := by
  have hfirst :
      "<style>body\x7bfont:14px/1.5 system-ui,sans-serif;padding:1.5rem;max-width:60rem;" =
        "<style>" ++ "body\x7bfont:14px/1.5 system-ui,sans-serif;padding:1.5rem;max-width:60rem;" :=
    rfl
  have hlast :
      "a\x7btext-decoration:none;color:inherit\x7da:hover\x7btext-decoration:underline\x7d</style>" =
        "a\x7btext-decoration:none;color:inherit\x7da:hover\x7btext-decoration:underline\x7d" ++
          "</style>" :=
    rfl
  delta listingStyle styleRules
  rw [hfirst, hlast]
  simp only [String.append_assoc]

theorem toList_listingStyle :
    listingStyle.toList = "<style>".toList ++ styleRules.toList ++ "</style>".toList := by
  rw [listingStyle_eq, String.toList_append, String.toList_append]

theorem write_middleTags :
    Html.write middleTags ++ (tag "h1").write ++ "Index of ".toList =
      "</title>\n".toList ++ listingStyle.toList ++
        "\n</head>\n<body>\n<h1>Index of ".toList := by
  have hbefore : (Html.Tag.stop "title".toList).write ++ "\n".toList ++ (tag "style").write =
      "</title>\n".toList ++ "<style>".toList := by
    decide
  have hafter : Html.write bodyTags ++ (tag "h1").write ++ "Index of ".toList =
      "</style>".toList ++ "\n</head>\n<body>\n<h1>Index of ".toList := by
    decide
  calc Html.write middleTags ++ (tag "h1").write ++ "Index of ".toList
      = ((Html.Tag.stop "title".toList).write ++ "\n".toList ++ (tag "style").write) ++
          styleRules.toList ++ (Html.write bodyTags ++ (tag "h1").write ++ "Index of ".toList) := by
        rw [middleTags, Html.write_cons, Html.write_cons]
        simp only [List.append_assoc]
    _ = "</title>\n".toList ++ ("<style>".toList ++ styleRules.toList ++ "</style>".toList) ++
          "\n</head>\n<body>\n<h1>Index of ".toList := by
        rw [hbefore, hafter]
        simp only [List.append_assoc]
    _ = _ := by rw [toList_listingStyle]

theorem write_headTags (title : List Char) :
    Html.write (headTags title) =
      "<!doctype html>\n<html>\n<head>\n<meta charset=\"utf-8\">\n<title>Index of ".toList ++ title ++
        "</title>\n".toList ++ listingStyle.toList ++
        "\n</head>\n<body>\n<h1>Index of ".toList ++ title ++ "</h1>\n<pre>".toList := by
  have hopening : Html.write openingTags ++ (tag "title").write ++ "Index of ".toList =
      "<!doctype html>\n<html>\n<head>\n<meta charset=\"utf-8\">\n<title>Index of ".toList := by
    decide
  have hlast : Html.write [(.stop "h1".toList, "\n".toList), (tag "pre", [])] =
      "</h1>\n<pre>".toList := by
    decide
  calc Html.write (headTags title)
      = (Html.write openingTags ++ (tag "title").write ++ "Index of ".toList) ++ title ++
          (Html.write middleTags ++ (tag "h1").write ++ "Index of ".toList) ++ title ++
          Html.write [(.stop "h1".toList, "\n".toList), (tag "pre", [])] := by
        rw [headTags, Html.write_append, Html.write_cons, Html.write_append, Html.write_cons]
        simp only [List.append_assoc]
    _ = _ := by
        rw [hopening, write_middleTags, hlast]
        simp only [List.append_assoc]

theorem write_parentTags (uriPath : String) :
    Html.write (parentTags uriPath) =
      (if uriPath ≠ "/" ∧ uriPath ≠ "" then "<a href=\"../\">../</a>\n" else "").toList := by
  rw [parentTags]
  split
  · decide
  · rfl

theorem write_links (entries : List (String × Bool)) :
    Html.write (entries.flatMap fun e =>
        linkTags (attrEscaped (entryHref e)).toList (htmlEscaped (entryText e)).toList) =
      (String.join (entries.map entryLink)).toList := by
  induction entries with
  | nil => rfl
  | cons e entries ih =>
      rw [List.map_cons, String.join_cons, String.toList_append, ← ih]
      simp [Html.write, linkTags, Html.Tag.write, Html.writeAttribute, entryLink, entryHref,
        entryText]

theorem write_footTags : Html.write footTags = "</pre>\n</body>\n</html>\n".toList := by
  decide

theorem toList_listingHtml (uriPath : String) (entries : List (String × Bool)) :
    (listingHtml uriPath entries).toList =
      "<!doctype html>\n<html>\n<head>\n<meta charset=\"utf-8\">\n<title>Index of ".toList ++
        (htmlEscaped uriPath).toList ++ "</title>\n".toList ++ listingStyle.toList ++
        "\n</head>\n<body>\n<h1>Index of ".toList ++ (htmlEscaped uriPath).toList ++
        "</h1>\n<pre>".toList ++
        (if uriPath ≠ "/" ∧ uriPath ≠ "" then "<a href=\"../\">../</a>\n" else "").toList ++
        (String.join (entries.map entryLink)).toList ++ "</pre>\n</body>\n</html>\n".toList := by
  simp only [← String.toList_append]
  rfl

/-- The page is written with the escapes. -/
theorem listingHtml_eq_write (uriPath : String) (entries : List (String × Bool)) :
    (listingHtml uriPath entries).toList =
      Html.write (pageTags (fun s => (htmlEscaped s).toList) (fun s => (attrEscaped s).toList)
        uriPath entries) := by
  rw [toList_listingHtml, pageTags, Html.write_append, Html.write_append, Html.write_append,
    write_headTags, write_parentTags, write_links, write_footTags]

/-! ### What is read -/

/-- The rules of the style sheet hold no character that HTML reads otherwise. -/
theorem styleRules_plain : '<' ∉ styleRules.toList ∧ '&' ∉ styleRules.toList := by
  delta styleRules
  simp only [String.toList_append, List.mem_append, not_or]
  exact ⟨⟨⟨by decide, by decide⟩, by decide⟩, ⟨by decide, by decide⟩, by decide⟩

/-- A title written with an escape. -/
theorem writtenAs_title (name : String) (hname : (tag name).Writable) (title : String) :
    Html.WrittenAs (tag name, "Index of ".toList ++ (htmlEscaped title).toList)
      (tag name, "Index of ".toList ++ title.toList) := by
  apply Html.WrittenAs.of_tag hname rfl
  · intro hmem
    rcases List.mem_append.1 hmem with h | h
    · exact absurd h (by decide)
    · exact (inert_htmlEscaped title _ h).1 rfl
  · have htitle := unescape_htmlEscaped title []
    rw [List.append_nil, Html.unescape_nil, List.append_nil] at htitle
    rw [Html.unescape_append (by decide), htitle]

theorem writtenAs_middleTags : List.Forall₂ Html.WrittenAs middleTags middleTags := by
  have hbody : List.Forall₂ Html.WrittenAs bodyTags bodyTags :=
    Html.forall₂_writtenAs_self (by decide)
  obtain ⟨hopen, hamp⟩ := styleRules_plain
  have hstyle : Html.WrittenAs (tag "style", styleRules.toList) (tag "style", styleRules.toList) :=
    .of_plain (by decide) (by decide) hopen hamp
  have htitle : Html.WrittenAs (.stop "title".toList, "\n".toList)
      (.stop "title".toList, "\n".toList) :=
    .of_plain (by decide) (by decide) (by decide) (by decide)
  rw [middleTags]
  exact .cons htitle (.cons hstyle hbody)

theorem writtenAs_headTags (title : String) :
    List.Forall₂ Html.WrittenAs (headTags (htmlEscaped title).toList) (headTags title.toList) := by
  have hopening : List.Forall₂ Html.WrittenAs openingTags openingTags :=
    Html.forall₂_writtenAs_self (by decide)
  have htitle := writtenAs_title "title" (by decide) title
  have hheading := writtenAs_title "h1" (by decide) title
  have hlast : List.Forall₂ Html.WrittenAs
      [(.stop "h1".toList, "\n".toList), (tag "pre", [])]
      [(.stop "h1".toList, "\n".toList), (tag "pre", [])] :=
    Html.forall₂_writtenAs_self (by decide)
  rw [headTags, headTags]
  exact List.rel_append hopening
    (.cons htitle (List.rel_append writtenAs_middleTags (.cons hheading hlast)))

/-- A link written with the escapes. -/
theorem writtenAs_link (href text : String) :
    List.Forall₂ Html.WrittenAs (linkTags (attrEscaped href).toList (htmlEscaped text).toList)
      (linkTags href.toList text.toList) := by
  have hhref := unescape_attrEscaped href []
  have htext := unescape_htmlEscaped text []
  rw [List.append_nil, Html.unescape_nil, List.append_nil] at hhref htext
  have hname : ∀ c ∈ ['h', 'r', 'e', 'f'], Html.isNameChar c = true :=
    List.all_eq_true.1 (by decide)
  have hquote : '"' ∉ (attrEscaped href).toList :=
    fun hmem => (inert_attrEscaped href _ hmem).1.2.2 rfl
  have hopen : '<' ∉ (htmlEscaped text).toList := fun hmem => (inert_htmlEscaped text _ hmem).1 rfl
  -- the escaped value holds no quote that would end it
  have hwritable : (Html.Tag.start ['a']
      [(['h', 'r', 'e', 'f'], (attrEscaped href).toList)]).Writable := by
    refine ⟨⟨by decide, List.forall_mem_nil _⟩, fun a ha => ?_⟩
    obtain rfl := List.mem_singleton.1 ha
    exact ⟨hname, hquote⟩
  have htag : (Html.Tag.start ['a'] [(['h', 'r', 'e', 'f'], (attrEscaped href).toList)]).unescaped =
      .start ['a'] [(['h', 'r', 'e', 'f'], href.toList)] := by
    simp only [Html.Tag.unescaped_start, List.map_cons, List.map_nil, hhref]
  have hstop : List.Forall₂ Html.WrittenAs [(.stop ['a'], ['\n'])] [(.stop ['a'], ['\n'])] :=
    Html.forall₂_writtenAs_self (by decide)
  rw [linkTags, linkTags]
  exact .cons (.of_tag hwritable htag hopen htext) hstop

theorem writtenAs_links (entries : List (String × Bool)) :
    List.Forall₂ Html.WrittenAs
      (entries.flatMap fun e =>
        linkTags (attrEscaped (entryHref e)).toList (htmlEscaped (entryText e)).toList)
      (entries.flatMap fun e => linkTags (entryHref e).toList (entryText e).toList) := by
  induction entries with
  | nil => exact .nil
  | cons e entries ih =>
      rw [List.flatMap_cons, List.flatMap_cons]
      exact List.rel_append (writtenAs_link _ _) ih

theorem writtenAs_parentTags (uriPath : String) :
    List.Forall₂ Html.WrittenAs (parentTags uriPath) (parentTags uriPath) := by
  apply Html.forall₂_writtenAs_self
  rw [parentTags]
  split
  · decide
  · exact fun p hp => absurd hp List.not_mem_nil

/-- For all names and paths the page is read as the tags it is made of, with the names and the path
as texts. -/
theorem read_listingHtml (uriPath : String) (entries : List (String × Bool)) :
    Html.read (listingHtml uriPath entries).toList =
      some (pageTags String.toList String.toList uriPath entries) := by
  rw [listingHtml_eq_write]
  apply Html.read_write
  refine List.rel_append (List.rel_append (List.rel_append ?_ ?_) ?_) ?_
  · exact writtenAs_headTags uriPath
  · exact writtenAs_parentTags uriPath
  · exact writtenAs_links entries
  · exact Html.forall₂_writtenAs_self (by decide)

/-! ## The links -/

/-- The link to the parent directory. -/
def parentLink (uriPath : String) : List (Option (List Char) × List Char) :=
  if uriPath ≠ "/" ∧ uriPath ≠ "" then [(some "../".toList, "../".toList)] else []

/-- The link to an entry. -/
def linkOf (entry : String × Bool) : Option (List Char) × List Char :=
  (some (entryHref entry).toList, (entryText entry).toList)

theorem links_entries (entries : List (String × Bool)) :
    Html.links (entries.flatMap fun e => linkTags (entryHref e).toList (entryText e).toList) =
      entries.map linkOf := by
  induction entries with
  | nil => rfl
  | cons e entries ih =>
      rw [List.flatMap_cons, Html.links_append, ih]
      rfl

/-- The links of the page are those of the entries, behind the one to the parent directory. -/
theorem links_pageTags (uriPath : String) (entries : List (String × Bool)) :
    Html.links (pageTags String.toList String.toList uriPath entries) =
      parentLink uriPath ++ entries.map linkOf := by
  have hhead : Html.links (headTags uriPath.toList) = [] := by
    -- the title is a text and no tag, so any other has the same tags around it
    have htags : (headTags uriPath.toList).map Prod.fst = (headTags []).map Prod.fst := by
      simp only [headTags, List.map_append, List.map_cons]
    apply Html.links_eq_nil
    rw [htags]
    decide
  have hparent : Html.links (parentTags uriPath) = parentLink uriPath := by
    rw [parentTags, parentLink]
    split
    · rfl
    · rfl
  have hfoot : Html.links footTags = [] := by decide
  rw [pageTags, Html.links_append, Html.links_append, Html.links_append, hhead, hparent,
    links_entries, hfoot, List.append_nil, List.nil_append]

/-- An encoded byte is decoded. -/
theorem percentDecode_encodeByte (b : UInt8) (rest : List Char) :
    Uri.percentDecode (encodeByte b ++ rest) = b :: Uri.percentDecode rest := by
  rw [encodeByte]
  split
  -- an unreserved byte is written as its character, which is never a percent sign
  · next hplain =>
    obtain ⟨hlow, hne, -⟩ := toNat_of_isUnreserved hplain
    have hpercent : Char.ofNat b.toNat ≠ '%' := by
      intro heq
      rw [← toNat_ofNat_byte, heq] at hne
      exact hne rfl
    rw [List.singleton_append, Uri.percentDecode_cons hpercent, utf8EncodeChar_low hlow]
    rfl
  · have hdigit : ∀ n < 16, Uri.hexValue (hexDigit n) = some n := by decide
    have hlt := b.toNat_lt
    have hvalue : 16 * (b.toNat / 16) + b.toNat % 16 = b.toNat := Nat.div_add_mod _ _
    show Uri.percentDecode ('%' :: hexDigit _ :: hexDigit _ :: rest) = _
    rw [Uri.percentDecode_encoded (hdigit _ (by omega)) (hdigit _ (Nat.mod_lt _ (by decide))),
      hvalue, UInt8.ofNat_toNat]

/-- An encoded text is decoded to its bytes. -/
theorem percentDecode_urlEncodeSegment (s : String) (rest : List Char) :
    Uri.percentDecode ((urlEncodeSegment s).toList ++ rest) =
      Text.utf8Bytes s ++ Uri.percentDecode rest := by
  have hencoded : (urlEncodeSegment s).toList = (Text.utf8Bytes s).flatMap encodeByte := by
    rw [urlEncodeSegment, String.toList_ofList]
    rfl
  rw [hencoded]
  induction Text.utf8Bytes s with
  | nil => rfl
  | cons b bytes ih =>
      rw [List.flatMap_cons, List.append_assoc, percentDecode_encodeByte, ih, List.cons_append]

/-- The reference of an entry is decoded to the text of its link. -/
theorem percentDecode_entryHref (entry : String × Bool) :
    Uri.percentDecode (entryHref entry).toList = Text.utf8Bytes (entryText entry) := by
  rw [entryHref, entryText]
  split
  · have hslash : Uri.percentDecode "/".toList = Text.utf8Bytes "/" := by decide
    rw [String.toList_append, percentDecode_urlEncodeSegment, hslash, Text.utf8Bytes,
      Text.utf8Bytes, Text.utf8Bytes, String.toList_append, List.flatMap_append]
  · have hdecoded := percentDecode_urlEncodeSegment entry.1 []
    rw [List.append_nil] at hdecoded
    rw [hdecoded]
    exact List.append_nil _

/-! ## The entries -/

/-- The entries that are shown. -/
def shown (names : List EntryName) : List EntryName :=
  names.filter fun n => n.text.toList.head? ≠ some '.'

/-- The entry is known to be a directory. -/
def isDirectory (reply : (a : Access) → a.Answer) (dir : String) (name : EntryName) : Bool :=
  (Except.toOption (reply (.entryType dir name) : Except IoError Bool)).getD false

theorem value_listedEntries (reply : (a : Access) → a.Answer) (dir : String)
    (names : List EntryName) :
    (listedEntries dir names).value reply =
      (shown names).map fun n => (n.text, isDirectory reply dir n) := by
  induction names with
  | nil => rfl
  | cons name names ih =>
      rw [listedEntries]
      by_cases hdot : name.text.toList.head? = some '.'
      · have hshown : shown (name :: names) = shown names :=
          List.filter_cons_of_neg (by simpa using hdot)
        -- a dotfile is skipped before its type is asked for
        rw [if_pos hdot, hshown, ih]
      · have hshown : shown (name :: names) = name :: shown names :=
          List.filter_cons_of_pos (by simpa using hdot)
        rw [if_neg hdot, hshown, List.map_cons, ← ih, Asks.question_bind, Asks.value,
          Asks.value_bind, isDirectory]
        rcases reply (.entryType dir name) with e | d
        · rfl
        · rfl

/-! ## The order -/

theorem listingLe_iff (a b : String × Bool) :
    listingLe a b = true ↔ (a.2 = true ∧ b.2 = false) ∨ (a.2 = b.2 ∧ a.1 ≤ b.1) := by
  obtain ⟨a, da⟩ := a
  obtain ⟨b, db⟩ := b
  cases da with
  | false => cases db <;> simp [listingLe]
  | true => cases db <;> simp [listingLe]

theorem listingLe_trans (a b c : String × Bool) (hab : listingLe a b = true)
    (hbc : listingLe b c = true) : listingLe a c = true := by
  rw [listingLe_iff] at hab hbc ⊢
  rcases hab with ⟨ha, hb⟩ | ⟨hkind, hle⟩
  · rcases hbc with ⟨hb', -⟩ | ⟨hkind', -⟩
    · exact absurd (hb.symm.trans hb') Bool.false_ne_true
    · exact Or.inl ⟨ha, hkind' ▸ hb⟩
  · rcases hbc with ⟨hb, hc⟩ | ⟨hkind', hle'⟩
    · exact Or.inl ⟨hkind.trans hb, hc⟩
    · exact Or.inr ⟨hkind.trans hkind', String.le_trans hle hle'⟩

theorem listingLe_total (a b : String × Bool) : (listingLe a b || listingLe b a) = true := by
  rw [Bool.or_eq_true, listingLe_iff, listingLe_iff]
  rcases String.le_total a.1 b.1 with hle | hle
  · cases ha : a.2 <;> cases hb : b.2 <;> simp [hle]
  · cases ha : a.2 <;> cases hb : b.2 <;> simp [hle]

/-- A sorted listing is its directories and then the other entries. -/
theorem sorted_eq_append {entries : List (String × Bool)}
    (h : entries.Pairwise fun a b => listingLe a b = true) :
    entries = entries.filter Prod.snd ++ entries.filter fun e => !e.2 := by
  induction entries with
  | nil => rfl
  | cons e entries ih =>
      obtain ⟨hfirst, hrest⟩ := List.pairwise_cons.1 h
      cases he : e.2 with
      | true =>
          rw [List.filter_cons_of_pos he, List.filter_cons_of_neg (by simp [he]), List.cons_append,
            ← ih hrest]
      | false =>
          -- no directory comes behind an entry that is none
          have hnone : ∀ b ∈ entries, b.2 = false := by
            intro b hb
            rcases (listingLe_iff e b).1 (hfirst b hb) with ⟨-, hb'⟩ | ⟨hkind, -⟩
            · exact hb'
            · exact hkind ▸ he
          have hdirs : entries.filter Prod.snd = [] := by
            rw [List.filter_eq_nil_iff]
            intro b hb
            rw [hnone b hb]
            exact Bool.false_ne_true
          have hfiles : (entries.filter fun e => !e.2) = entries := by
            rw [List.filter_eq_self]
            intro b hb
            rw [hnone b hb]
            rfl
          rw [List.filter_cons_of_neg (by simp [he]), List.filter_cons_of_pos (by simp [he]), hdirs,
            hfiles, List.nil_append]

/-- The names of the entries of one kind, in the order of a sorted listing. -/
theorem names_of_kind {entries : List (String × Bool)} (kind : Bool)
    (h : entries.Pairwise fun a b => listingLe a b = true) {p : String × Bool → Bool}
    (hp : ∀ e, p e = true ↔ e.2 = kind) :
    entries.filter p = ((entries.filter p).map Prod.fst).map (·, kind) ∧
      ((entries.filter p).map Prod.fst).Pairwise (· ≤ ·) := by
  have hkind : ∀ e ∈ entries.filter p, e.2 = kind := fun e he => (hp e).1 (List.mem_filter.1 he).2
  constructor
  · rw [List.map_map]
    symm
    refine (List.map_congr_left fun e he => ?_).trans (List.map_id _)
    rw [Function.comp_apply, ← hkind e he, id_eq]
  · rw [List.pairwise_map]
    refine (h.filter p).imp_of_mem ?_
    intro a b ha hb hle
    -- two entries of one kind are in the order of their names
    rcases (listingLe_iff a b).1 hle with ⟨ha', hb'⟩ | ⟨-, hle⟩
    · rw [hkind a ha] at ha'
      rw [hkind b hb, ha'] at hb'
      cases hb'
    · exact hle

/-- Sorting the entries of a directory loses none and repeats none: the directories come first, in
the order of their names, and then the other entries in the order of theirs. -/
theorem mergeSort_listing (entries : List (String × Bool)) :
    ∃ dirs files : List String,
      entries.mergeSort listingLe = dirs.map (·, true) ++ files.map (·, false) ∧
        dirs.Perm ((entries.filter Prod.snd).map Prod.fst) ∧
        files.Perm ((entries.filter fun e => !e.2).map Prod.fst) ∧
        dirs.Pairwise (· ≤ ·) ∧ files.Pairwise (· ≤ ·) := by
  have hsorted : (entries.mergeSort listingLe).Pairwise fun a b => listingLe a b = true :=
    List.pairwise_mergeSort listingLe_trans listingLe_total entries
  have hperm := List.mergeSort_perm entries listingLe
  obtain ⟨hdirs, hdirsSorted⟩ := names_of_kind true hsorted (p := Prod.snd) fun e => Iff.rfl
  obtain ⟨hfiles, hfilesSorted⟩ := names_of_kind false hsorted (p := fun e => !e.2)
    fun e => by rw [Bool.not_eq_true']
  refine ⟨_, _, ?_, (hperm.filter _).map _, (hperm.filter _).map _, hdirsSorted, hfilesSorted⟩
  rw [← hdirs, ← hfiles]
  exact sorted_eq_append hsorted

/-- **Directory listings.** For every directory and request path, the page of the listing is read as
a head with the path as title and heading, the links, and a foot. There is one link for each entry
that is shown and no other but that to the parent directory; directories come before the other
entries, each group in the order of its names. The text of a link is the name of its entry, with a
slash for a directory, and its reference is decoded to that text. Nothing that is written for a name
or a path starts a tag or ends what it is written in. -/
theorem listing_correct (reply : (a : Access) → a.Answer) (dir uriPath : String)
    (names : List EntryName) (h : reply (.list dir) = .ok names) :
    (∃ (page : String) (dirs files : List String),
      (renderDirectoryListing dir uriPath).value reply =
        { status := 200
          headers := withHeader ∅ HeaderName.contentType "text/html; charset=utf-8"
          body := full (Text.utf8Bytes page) } ∧
      dirs.Perm (((shown names).filter fun n => isDirectory reply dir n).map EntryName.text) ∧
      files.Perm (((shown names).filter fun n => !isDirectory reply dir n).map EntryName.text) ∧
      dirs.Pairwise (· ≤ ·) ∧ files.Pairwise (· ≤ ·) ∧
      Html.read page.toList = some (pageTags String.toList String.toList uriPath
        (dirs.map (·, true) ++ files.map (·, false))) ∧
      Html.links (pageTags String.toList String.toList uriPath
          (dirs.map (·, true) ++ files.map (·, false))) =
        parentLink uriPath ++ (dirs.map fun n => linkOf (n, true)) ++
          files.map fun n => linkOf (n, false)) ∧
    (∀ entry, Uri.percentDecode (entryHref entry).toList = Text.utf8Bytes (entryText entry)) ∧
    ∀ s, (∀ c ∈ (htmlEscaped s).toList, Inert c) ∧
      ∀ c ∈ (attrEscaped s).toList, Inert c ∧ c ≠ '\'' := by
  refine ⟨?_, percentDecode_entryHref, fun s => ⟨inert_htmlEscaped s, inert_attrEscaped s⟩⟩
  let entries := (shown names).map fun n => (n.text, isDirectory reply dir n)
  obtain ⟨dirs, files, hsort, hdirs, hfiles, hdirsSorted, hfilesSorted⟩ :=
    mergeSort_listing entries
  refine ⟨listingHtml uriPath (dirs.map (·, true) ++ files.map (·, false)), dirs, files, ?_, ?_, ?_,
    hdirsSorted, hfilesSorted, read_listingHtml _ _, ?_⟩
  · rw [renderDirectoryListing, Asks.question_bind, Asks.value, h]
    simp only [Asks.value_bind, value_listedEntries]
    rw [← hsort]
    rfl
  · rwa [List.filter_map, List.map_map] at hdirs
  · rwa [List.filter_map, List.map_map] at hfiles
  · rw [links_pageTags, List.map_append, List.map_map, List.map_map, List.append_assoc]
    rfl

/-- A directory with a dotfile, a file and a directory. -/
def threeEntries : List EntryName :=
  [⟨".git", by refine ⟨?_, ?_, ?_⟩ <;> decide⟩, ⟨"a&c.txt", by refine ⟨?_, ?_, ?_⟩ <;> decide⟩,
    ⟨"b", by refine ⟨?_, ?_, ?_⟩ <;> decide⟩]

/-- A file system with that directory. -/
def threeEntriesReply : (a : Access) → a.Answer
  | .stat _ => .error .notFound
  | .read _ => .error .notFound
  | .readRange _ _ _ => .error .notFound
  | .list _ => .ok threeEntries
  | .entryType _ name => .ok (name.text == "b" || name.text == ".git")

/-- The links of its listing. -/
theorem listing_of_three_entries :
    ∃ page : String,
      (renderDirectoryListing "/srv/docs" "/docs").value threeEntriesReply =
        { status := 200
          headers := withHeader ∅ HeaderName.contentType "text/html; charset=utf-8"
          body := full (Text.utf8Bytes page) } ∧
      (Html.read page.toList).map Html.links =
        some [(some "../".toList, "../".toList), (some "b/".toList, "b/".toList),
          (some "a%26c.txt".toList, "a&c.txt".toList)] := by
  obtain ⟨⟨page, dirs, files, hvalue, hdirs, hfiles, -, -, hread, hlinks⟩, -⟩ :=
    listing_correct threeEntriesReply "/srv/docs" "/docs" threeEntries rfl
  have hdirsNamed : ((shown threeEntries).filter fun n =>
      isDirectory threeEntriesReply "/srv/docs" n).map EntryName.text = ["b"] := by
    decide
  have hfilesNamed : ((shown threeEntries).filter fun n =>
      !isDirectory threeEntriesReply "/srv/docs" n).map EntryName.text = ["a&c.txt"] := by
    decide
  rw [hdirsNamed, List.perm_singleton] at hdirs
  rw [hfilesNamed, List.perm_singleton] at hfiles
  refine ⟨page, hvalue, ?_⟩
  rw [hread, Option.map_some, hlinks, hdirs, hfiles]
  decide

end Elrond.Static
