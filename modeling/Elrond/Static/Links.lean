import Elrond.Lib.Uri
import Elrond.Static.Containment

/-!
# The links of a directory listing

A listing links to each entry by its name, percent-encoded (`url_encode_segment`), and a client
resolves the link against the path of the request. `serve` maps the path of the next request to a
file name as it is written, without decoding it. So a link leads to its entry exactly if the name is
made of unreserved characters only and the directory in which the client resolves it is the one that
is listed (`listing_link_iff`).
-/

set_option autoImplicit false

namespace Elrond.Static

open Elrond.Lib Elrond.Http Elrond.App

/-! ## Encoded names -/

/-- What `url_encode_segment` writes for a byte. -/
def encodeByte (b : UInt8) : List Char :=
  if isUnreserved b then [Char.ofNat b.toNat]
  else ['%', hexDigit (b.toNat / 16), hexDigit (b.toNat % 16)]

/-- What it writes for a character. -/
def encodeChar (c : Char) : List Char := (String.utf8EncodeChar c).flatMap encodeByte

theorem urlEncodeSegment_toList (s : String) :
    (urlEncodeSegment s).toList = s.toList.flatMap encodeChar := by
  rw [urlEncodeSegment, String.toList_ofList, Text.utf8Bytes, List.flatMap_assoc]
  rfl

theorem char_of_lt {P : Char → Prop} {bound : Nat} (h : ∀ n < bound, P (Char.ofNat n)) {c : Char}
    (hc : c.toNat < bound) : P c := by
  have hofNat := h c.toNat hc
  rwa [Char.ofNat_toNat] at hofNat

theorem toNat_lt_of_isUnreserved {c : Char} (h : Uri.isUnreserved c = true) : c.toNat < 128 := by
  have hval : c.toNat = c.val.toNat := rfl
  -- upper case, lower case, digits and the four marks
  have hcases : (((decide (c.val ≥ 'A'.val ∧ c.val ≤ 'Z'.val) ||
      (c.val ≥ 'a'.val && c.val ≤ 'z'.val)) || (c.val ≥ '0'.val && c.val ≤ '9'.val)) ||
        c == '-' || c == '.' || c == '_' || c == '~') = true := h
  simp only [Bool.or_eq_true, Bool.and_eq_true, decide_eq_true_eq, beq_iff_eq,
    UInt32.le_iff_toNat_le, ge_iff_le] at hcases
  rcases hcases with (((((h | h) | h) | rfl) | rfl) | rfl) | rfl
  · have hz : ('Z'.val).toNat = 90 := rfl
    omega
  · have hz : ('z'.val).toNat = 122 := rfl
    omega
  · have hz : ('9'.val).toNat = 57 := rfl
    omega
  all_goals decide

/-- An unreserved character stands for itself. -/
theorem encodeChar_unreserved {c : Char} (h : Uri.isUnreserved c = true) : encodeChar c = [c] := by
  have hascii : ∀ n < 128, Uri.isUnreserved (Char.ofNat n) = true →
      encodeChar (Char.ofNat n) = [Char.ofNat n] := by
    decide +kernel
  exact char_of_lt (P := fun c => Uri.isUnreserved c = true → encodeChar c = [c]) hascii
    (toNat_lt_of_isUnreserved h) h

theorem encodeChar_percent : encodeChar '%' = ['%', '2', '5'] := by decide

/-- The characters of an encoded byte. -/
theorem mem_encodeByte {b : UInt8} {d : Char} (h : d ∈ encodeByte b) :
    d = '%' ∨ Uri.isUnreserved d = true := by
  have hall : ∀ n < 256,
      (encodeByte (UInt8.ofNat n)).all (fun d => d == '%' || Uri.isUnreserved d) = true := by
    decide +kernel
  have hb := hall b.toNat b.toNat_lt
  rw [UInt8.ofNat_toNat] at hb
  simpa using List.all_eq_true.1 hb d h

theorem mem_encodeChar {c d : Char} (h : d ∈ encodeChar c) :
    d = '%' ∨ Uri.isUnreserved d = true := by
  obtain ⟨b, -, hd⟩ := List.mem_flatMap.1 h
  exact mem_encodeByte hd

/-- An unreserved byte is an ASCII character, and neither a percent sign nor a plus sign. -/
theorem toNat_of_isUnreserved {b : UInt8} (h : isUnreserved b = true) :
    b.toNat < 128 ∧ b.toNat ≠ 37 ∧ b.toNat ≠ 43 := by
  simp only [isUnreserved, Bool.or_eq_true, Bool.and_eq_true, decide_eq_true_eq, beq_iff_eq,
    UInt8.le_iff_toNat_le, ← UInt8.toNat_inj, UInt8.reduceToNat] at h
  omega

theorem utf8EncodeChar_low {b : UInt8} (h : b.toNat < 128) :
    String.utf8EncodeChar (Char.ofNat b.toNat) = [b] := by
  have hval : (Char.ofNat b.toNat).val.toNat = b.toNat := toNat_ofNat_byte b
  rw [String.utf8EncodeChar, hval, if_pos (by omega), UInt8.ofNat_toNat]

/-- A byte above the ASCII range is encoded. -/
theorem encodeByte_high {b : UInt8} (h : 128 ≤ b.toNat) :
    encodeByte b = ['%', hexDigit (b.toNat / 16), hexDigit (b.toNat % 16)] :=
  if_neg fun hplain => absurd (toNat_of_isUnreserved hplain).1 (Nat.not_lt.2 h)

/-- The first byte of a character outside ASCII is above the ASCII range. -/
theorem utf8EncodeChar_high {c : Char} (h : 128 ≤ c.toNat) :
    ∃ b rest, String.utf8EncodeChar c = b :: rest ∧ 128 ≤ b.toNat := by
  have hval : c.toNat = c.val.toNat := rfl
  have hfirst : ∀ x, 128 ≤ x → x < 256 → 128 ≤ (UInt8.ofNat x).toNat := by
    intro x hlow hhigh
    rw [UInt8.toNat_ofNat', Nat.mod_eq_of_lt hhigh]
    exact hlow
  rw [String.utf8EncodeChar, if_neg (by omega)]
  split
  · exact ⟨_, _, rfl, hfirst _ (by omega) (by omega)⟩
  · split
    · exact ⟨_, _, rfl, hfirst _ (by omega) (by omega)⟩
    · exact ⟨_, _, rfl, hfirst _ (by omega) (by omega)⟩

/-- Every other character is written with a percent sign and at least two more characters. -/
theorem encodeChar_reserved {c : Char} (h : Uri.isUnreserved c = false) :
    ∃ x y rest, encodeChar c = '%' :: x :: y :: rest := by
  by_cases hascii : c.toNat < 128
  · have hall : ∀ n < 128, Uri.isUnreserved (Char.ofNat n) = false →
        ((encodeChar (Char.ofNat n)).head? = some '%' ∧
          3 ≤ (encodeChar (Char.ofNat n)).length) := by
      decide +kernel
    obtain ⟨hhead, hlen⟩ := char_of_lt (P := fun c => Uri.isUnreserved c = false →
      (encodeChar c).head? = some '%' ∧ 3 ≤ (encodeChar c).length) hall hascii h
    match hc : encodeChar c, hhead, hlen with
    | d :: x :: y :: rest, hhead, _ =>
        obtain rfl := Option.some.inj hhead
        exact ⟨x, y, rest, rfl⟩
  · obtain ⟨b, rest, hbytes, hb⟩ := utf8EncodeChar_high (Nat.not_lt.1 hascii)
    rw [encodeChar, hbytes, List.flatMap_cons, encodeByte_high hb]
    exact ⟨_, _, _, rfl⟩

theorem encodeChar_length_pos (c : Char) : 0 < (encodeChar c).length := by
  cases h : Uri.isUnreserved c with
  | true =>
      rw [encodeChar_unreserved h]
      exact Nat.one_pos
  | false =>
      obtain ⟨x, y, rest, hc⟩ := encodeChar_reserved h
      rw [hc]
      exact Nat.succ_pos _

theorem length_le_encoded (cs : List Char) : cs.length ≤ (cs.flatMap encodeChar).length := by
  induction cs with
  | nil => exact Nat.le_refl 0
  | cons c cs ih =>
      have hc := encodeChar_length_pos c
      rw [List.flatMap_cons, List.length_append, List.length_cons]
      omega

/-- An encoded text is the text itself exactly if all its characters are unreserved. -/
theorem encoded_eq_iff (cs : List Char) :
    cs.flatMap encodeChar = cs ↔ ∀ c ∈ cs, Uri.isUnreserved c = true := by
  induction cs with
  | nil => exact iff_of_true rfl fun c hc => by cases hc
  | cons c cs ih =>
      rw [List.flatMap_cons, List.forall_mem_cons]
      cases h : Uri.isUnreserved c with
      | true =>
          rw [encodeChar_unreserved h, List.singleton_append, List.cons_inj_right, ih]
          exact (and_iff_right rfl).symm
      | false =>
          obtain ⟨x, y, rest, hc⟩ := encodeChar_reserved h
          refine iff_of_false (fun heq => ?_) fun hall => Bool.false_ne_true hall.1
          -- the encoded text is longer
          have hlen := congrArg List.length heq
          have hle := length_le_encoded cs
          rw [hc] at hlen
          simp only [List.cons_append, List.length_cons, List.length_append] at hlen
          omega

/-! ### No text is a proper end of its encoding -/

section Alphabet

variable {cs : List Char} (hcs : ∀ c ∈ cs, c = '%' ∨ Uri.isUnreserved c = true)

include hcs

theorem count_percent_encoded : (cs.flatMap encodeChar).count '%' = cs.count '%' := by
  induction cs with
  | nil => rfl
  | cons c cs ih =>
      have htail := ih fun d hd => hcs d (List.mem_cons_of_mem _ hd)
      rw [List.flatMap_cons, List.count_append, htail, List.count_cons]
      rcases hcs c List.mem_cons_self with rfl | h
      · have hpercent : (encodeChar '%').count '%' = 1 := congrArg _ encodeChar_percent
        rw [hpercent, beq_self_eq_true, if_pos rfl, Nat.add_comm]
      · rw [encodeChar_unreserved h, List.count_singleton, Nat.add_comm]

theorem takeWhile_encoded :
    (cs.flatMap encodeChar).takeWhile (· != '%') = cs.takeWhile (· != '%') := by
  induction cs with
  | nil => rfl
  | cons c cs ih =>
      have htail := ih fun d hd => hcs d (List.mem_cons_of_mem _ hd)
      rw [List.flatMap_cons]
      rcases hcs c List.mem_cons_self with rfl | h
      · rw [encodeChar_percent]
        rfl
      · rw [encodeChar_unreserved h, List.singleton_append, List.takeWhile_cons,
          List.takeWhile_cons, htail]

end Alphabet

theorem eq_nil_of_append_eq_encoded {front cs : List Char}
    (h : front ++ cs = cs.flatMap encodeChar) : front = [] := by
  have hcs : ∀ c ∈ cs, c = '%' ∨ Uri.isUnreserved c = true := by
    intro c hc
    have hmem : c ∈ cs.flatMap encodeChar := h ▸ List.mem_append_right _ hc
    obtain ⟨d, -, hd⟩ := List.mem_flatMap.1 hmem
    exact mem_encodeChar hd
  -- all percent signs of the encoding are in the text, so there is none in front of it
  have hcount := count_percent_encoded hcs
  rw [← h, List.count_append, Nat.add_eq_right, List.count_eq_zero] at hcount
  have htake := takeWhile_encoded hcs
  have hfront : ∀ c ∈ front, (c != '%') = true := by
    intro c hc
    exact bne_iff_ne.2 fun heq => hcount (heq ▸ hc)
  rw [← h, List.takeWhile_append_of_pos hfront] at htake
  exact List.append_left_eq_self.1 htake

/-! ## From the link to the next request -/

/-- The reference a listing links an entry with. -/
def entryHref (entry : String × Bool) : String :=
  if entry.2 then urlEncodeSegment entry.1 ++ "/" else urlEncodeSegment entry.1

/-- The path of the request a client makes for a link on the page of the path `p`. -/
def followed (p href : String) : String :=
  String.ofList (Uri.resolvePath p.toList href.toList)

/-- The directory in which a client resolves the links on the page of the path `p`. -/
def linkBase (p : String) : String := String.ofList (Uri.directoryOf p.toList)

/-- The name of an entry that a listing shows. -/
structure ShownName where
  entry : EntryName
  shown : entry.text.toList.head? ≠ some '.'

namespace ShownName

/-- The name, encoded. -/
def encoded (n : ShownName) : String := urlEncodeSegment n.entry.text

theorem encoded_toList (n : ShownName) :
    n.encoded.toList = n.entry.text.toList.flatMap encodeChar :=
  urlEncodeSegment_toList _

theorem mem_encoded {n : ShownName} {d : Char} (h : d ∈ n.encoded.toList) :
    d = '%' ∨ Uri.isUnreserved d = true := by
  rw [encoded_toList] at h
  obtain ⟨c, -, hd⟩ := List.mem_flatMap.1 h
  exact mem_encodeChar hd

/-- An encoded name starts with a character that is neither a separator nor a dot. -/
theorem encoded_head (n : ShownName) :
    ∃ c rest, n.encoded.toList = c :: rest ∧ c ≠ '/' ∧ c ≠ '.' := by
  have hne : n.entry.text.toList ≠ [] := fun hnil => n.entry.wf.2.1 (String.toList_inj.1 hnil)
  obtain ⟨c, cs, hcs⟩ := List.exists_cons_of_ne_nil hne
  have hdot : c ≠ '.' := by
    rintro rfl
    exact n.shown (by rw [hcs]; rfl)
  rw [encoded_toList, hcs, List.flatMap_cons]
  cases h : Uri.isUnreserved c with
  | true =>
      rw [encodeChar_unreserved h]
      refine ⟨c, _, rfl, ?_, hdot⟩
      rintro rfl
      exact absurd h (by decide)
  | false =>
      obtain ⟨x, y, rest, hc⟩ := encodeChar_reserved h
      rw [hc]
      exact ⟨'%', _, rfl, by decide, by decide⟩

theorem plainSegment (n : ShownName) : Uri.PlainSegment n.encoded.toList := by
  obtain ⟨c, rest, hcs, hslash, hdot⟩ := n.encoded_head
  refine ⟨fun hmem => ?_, fun heq => ?_, fun heq => ?_⟩
  · rcases mem_encoded hmem with h | h
    · exact absurd h (by decide)
    · exact absurd h (by decide)
  · rw [hcs] at heq
    exact hdot (List.cons.inj heq).1
  · rw [hcs] at heq
    exact hdot (List.cons.inj heq).1

/-- The place an encoded name leads to. -/
theorem places_encoded (n : ShownName) : Path.places n.encoded = [.normal n.encoded] := by
  obtain ⟨c, rest, hcs, hslash, hdot⟩ := n.encoded_head
  have hrelative : Path.isAbsolute n.encoded = false := by
    rw [Path.isAbsolute_eq_false]
    intro cs heq
    rw [hcs] at heq
    exact hslash (List.cons.inj heq).1
  have hnot : ∀ s : String, (s = "" ∨ s.toList.head? = some '.') → n.encoded ≠ s := by
    rintro s hs rfl
    rw [hcs] at hs
    rcases hs with hempty | hhead
    · rw [hempty] at hcs
      cases hcs
    · exact hdot (Option.some.inj hhead)
  rw [Path.places_of_relative hrelative, Path.body, Path.split_name n.plainSegment.noSlash]
  simp only [List.filterMap_cons, List.filterMap_nil, Path.bodyComponent]
  rw [if_neg (hnot "" (Or.inl rfl)), if_neg (hnot "." (Or.inr rfl)),
    if_neg (hnot ".." (Or.inr rfl))]

end ShownName

/-- What follows the name in the reference of an entry. -/
def hrefTail (isDir : Bool) : String := if isDir then "/" else ""

theorem entryHref_eq (n : ShownName) (isDir : Bool) :
    entryHref (n.entry.text, isDir) = n.encoded ++ hrefTail isDir := by
  cases isDir with
  | true => rfl
  | false => exact (String.append_empty).symm

/-- A link is followed to the directory of the page with the encoded name appended. -/
theorem followed_eq (p : String) (n : ShownName) (isDir : Bool) :
    followed p (entryHref (n.entry.text, isDir)) =
      linkBase p ++ entryHref (n.entry.text, isDir) := by
  obtain ⟨hplain, hslash⟩ := Uri.resolvePath_segment p.toList n.plainSegment
  rw [followed, linkBase, entryHref_eq, ← String.toList_inj, String.toList_append,
    String.toList_ofList, String.toList_append, String.toList_append, String.toList_ofList]
  cases isDir with
  | true => exact hslash
  | false =>
      have hempty : (hrefTail false).toList = [] := rfl
      rw [hempty, List.append_nil]
      exact hplain

/-- Nothing in a reference needs an escape. -/
theorem attrEscaped_entryHref (n : ShownName) (isDir : Bool) :
    attrEscaped (entryHref (n.entry.text, isDir)) = entryHref (n.entry.text, isDir) := by
  have hchars : ∀ c ∈ (entryHref (n.entry.text, isDir)).toList,
      c = '/' ∨ c = '%' ∨ Uri.isUnreserved c = true := by
    intro c hc
    rw [entryHref_eq, String.toList_append] at hc
    rcases List.mem_append.1 hc with hname | htail
    · exact Or.inr (ShownName.mem_encoded hname)
    · cases isDir with
      | true => exact Or.inl (List.mem_singleton.1 htail)
      | false => cases htail
  rw [attrEscaped, ← String.toList_inj, String.toList_ofList]
  generalize (entryHref (n.entry.text, isDir)).toList = cs at hchars
  induction cs with
  | nil => rfl
  | cons c cs ih =>
      rw [List.flatMap_cons, ih fun d hd => hchars d (List.mem_cons_of_mem _ hd)]
      have hc := hchars c List.mem_cons_self
      split
      · exact absurd hc (by decide)
      · exact absurd hc (by decide)
      · exact absurd hc (by decide)
      · exact absurd hc (by decide)
      · exact absurd hc (by decide)
      · rfl

/-- So the page holds the reference of an entry as it is. -/
theorem entryLink_eq (n : ShownName) (isDir : Bool) :
    entryLink (n.entry.text, isDir) =
      "<a href=\"" ++ entryHref (n.entry.text, isDir) ++ "\">" ++
        htmlEscaped (if isDir then n.entry.text ++ "/" else n.entry.text) ++ "</a>\n" := by
  have hlink : entryLink (n.entry.text, isDir) =
      "<a href=\"" ++ attrEscaped (entryHref (n.entry.text, isDir)) ++ "\">" ++
        htmlEscaped (if isDir then n.entry.text ++ "/" else n.entry.text) ++ "</a>\n" := rfl
  rw [hlink, attrEscaped_entryHref]

/-! ## What the next request maps to -/

/-- A text that is empty or ends in a separator. -/
def Closed (s : String) : Prop := s = "" ∨ s.toList.getLast? = some '/'

theorem Closed.of_suffix {front s : String} (h : Closed (front ++ s)) : Closed s := by
  by_cases hs : s = ""
  · exact Or.inl hs
  · have hne : s.toList ≠ [] := fun hnil => hs (String.toList_inj.1 hnil)
    rcases h with hempty | hlast
    · exact absurd (String.append_eq_empty_iff.1 hempty).2 hs
    · rw [String.toList_append, List.getLast?_append_of_ne_nil _ hne] at hlast
      exact Or.inr hlast

theorem Closed.trimStart {s : String} (h : Closed s) : Closed (Text.trimStartMatches '/' s) := by
  have hsplit : s = String.ofList (s.toList.takeWhile (· == '/')) ++
      Text.trimStartMatches '/' s := by
    rw [Text.trimStartMatches, ← String.toList_inj, String.toList_append, String.toList_ofList,
      String.toList_ofList, List.takeWhile_append_dropWhile]
  rw [hsplit] at h
  exact h.of_suffix

theorem Closed.places_append {d q : String} (hd : Closed d) (hq : Path.isAbsolute q = false) :
    Path.places (d ++ q) = Path.places d ++ Path.places q := by
  rcases hd with rfl | hlast
  · rw [String.empty_append]
    rfl
  · exact Path.places_append hlast hq

theorem closed_linkBase (p : String) : Closed (linkBase p) := by
  obtain ⟨front, hfront⟩ := Uri.directoryOf_eq p.toList
  right
  rw [linkBase, String.toList_ofList, hfront, List.getLast?_concat]

/-- A request path is mapped to a relative one. -/
theorem isAbsolute_trimStart (s : String) :
    Path.isAbsolute (Text.trimStartMatches '/' s) = false := by
  rw [Path.isAbsolute_eq_false]
  intro cs heq
  rw [Text.trimStartMatches, String.toList_ofList] at heq
  have hhead := List.head?_dropWhile_not (· == '/') s.toList
  rw [heq] at hhead
  simp at hhead

theorem isAbsolute_relativePath (kind : StaticKind) (p : String) :
    Path.isAbsolute (relativePath kind p) = false := by
  rcases kind with _ | strip
  · exact isAbsolute_trimStart p
  · exact isAbsolute_trimStart _

theorem trimStart_append (s : String) {q : String} (hq : Path.isAbsolute q = false) :
    Text.trimStartMatches '/' (s ++ q) = Text.trimStartMatches '/' s ++ q := by
  have hsame : q.toList.dropWhile (· == '/') = q.toList := by
    rw [Path.isAbsolute_eq_false] at hq
    cases hcs : q.toList with
    | nil => rfl
    | cons c cs =>
        have hc : (c == '/') = false := beq_eq_false_iff_ne.2 fun h => hq cs (by rw [hcs, h])
        rw [List.dropWhile_cons, hc]
        rfl
  rw [Text.trimStartMatches, Text.trimStartMatches, String.toList_append, List.dropWhile_append,
    hsame, ← String.toList_inj, String.toList_append, String.toList_ofList, String.toList_ofList]
  split
  · rename_i hempty
    rw [List.isEmpty_iff.1 hempty, List.nil_append]
  · rfl

/-- The prefix of an alias does not end within what is appended to a path. -/
def OutsideName (kind : StaticKind) (d q : String) : Prop :=
  ∀ strip, kind = .alias strip →
    (Text.stripPrefix strip d).isSome ∨ Text.stripPrefix strip (d ++ q) = none

/-- Then the path below the directory is extended by the same text. -/
theorem relativePath_append {kind : StaticKind} {d q : String}
    (hq : Path.isAbsolute q = false) (hout : OutsideName kind d q) :
    relativePath kind (d ++ q) = relativePath kind d ++ q := by
  rcases kind with _ | strip
  · exact trimStart_append d hq
  · rcases hout strip rfl with hinside | hnone
    · obtain ⟨t, ht⟩ := Option.isSome_iff_exists.1 hinside
      have hd := Text.stripPrefix_eq_some.1 ht
      have hdq : Text.stripPrefix strip (d ++ q) = some (t ++ q) := by
        rw [Text.stripPrefix_eq_some, hd, String.append_assoc]
      simp only [relativePath, ht, hdq, Option.getD_some]
      exact trimStart_append t hq
    · have hd : Text.stripPrefix strip d = none := by
        rw [Text.stripPrefix_eq_none] at hnone ⊢
        intro t ht
        exact hnone (t ++ q) (by rw [ht, String.append_assoc])
      simp only [relativePath, hnone, hd, Option.getD_none]
      exact trimStart_append d hq

/-- Otherwise the prefix is the path and the front of what is appended. -/
theorem prefix_ends_within {strip d q rest : String}
    (hd : ¬ (Text.stripPrefix strip d).isSome) (h : Text.stripPrefix strip (d ++ q) = some rest) :
    ∃ front, front ≠ "" ∧ q = front ++ rest := by
  have hlists := congrArg String.toList (Text.stripPrefix_eq_some.1 h)
  have hinside : ∀ t, d ≠ strip ++ t := by
    rintro t rfl
    exact hd (by rw [Text.stripPrefix_append]; rfl)
  rw [String.toList_append, String.toList_append] at hlists
  rcases List.append_eq_append_iff.1 hlists with ⟨front, hstrip, hq⟩ | ⟨cs, hds, -⟩
  · refine ⟨String.ofList front, fun hempty => ?_, ?_⟩
    · have hnil : front = [] := by
        rw [← String.toList_inj, String.toList_ofList] at hempty
        exact hempty
      rw [hnil, List.append_nil, String.toList_inj] at hstrip
      exact hinside "" (by rw [hstrip, String.append_empty])
    · rw [← String.toList_inj, hq, String.toList_append, String.toList_ofList]
  · refine absurd ?_ (hinside (String.ofList cs))
    rw [← String.toList_inj, hds, String.toList_append, String.toList_ofList]

theorem closed_relativePath (kind : StaticKind) {d : String} (hd : Closed d) :
    Closed (relativePath kind d) := by
  rcases kind with _ | strip
  · exact hd.trimStart
  · rw [relativePath]
    cases hstrip : Text.stripPrefix strip d with
    | none => exact hd.trimStart
    | some t =>
        rw [Text.stripPrefix_eq_some.1 hstrip] at hd
        exact hd.of_suffix.trimStart

/-! ## The entry that is reached -/

/-- The computation first asks for the metadata of the file that `target` leads to. -/
def Stats (m : Files Response) (target : String) : Prop :=
  ∃ path next, m = .ask (.stat path) next ∧ Path.places path = Path.places target

/-- `serve` asks for the mapped path, unless the path is refused. -/
theorem serve_stats_iff (root : String) (kind : StaticKind) (q : String) (headers : HeaderMap)
    (method : Method) (autoindex : Bool) (target : String) :
    Stats (serve root kind q headers method autoindex) target ↔
      componentsSafe (relativePath kind q) = true ∧
        Path.places (Path.join root (relativePath kind q)) = Path.places target := by
  rw [serve]
  cases hsafe : componentsSafe (relativePath kind q) with
  | false =>
      refine iff_of_false ?_ fun h => Bool.false_ne_true h.1
      rintro ⟨path, next, hask, -⟩
      cases hask
  | true =>
      constructor
      · rintro ⟨path, next, hask, hplaces⟩
        obtain ⟨hpath, -⟩ := Asks.ask.inj hask
        exact ⟨rfl, Access.stat.inj hpath ▸ hplaces⟩
      · rintro ⟨-, hplaces⟩
        exact ⟨_, _, rfl, hplaces⟩

theorem ShownName.places_text (n : ShownName) :
    Path.places n.entry.text = [.normal n.entry.text] := by
  have hdot : n.entry.text ≠ "." := fun heq => n.shown (by rw [heq]; rfl)
  rw [Path.places_of_relative n.entry.wf.isAbsolute, Path.body, Path.split_name n.entry.wf.1]
  simp only [List.filterMap_cons, List.filterMap_nil, Path.bodyComponent]
  rw [if_neg n.entry.wf.2.1, if_neg hdot, if_neg n.entry.wf.2.2]

theorem ShownName.isAbsolute_encoded (n : ShownName) (q : String) :
    Path.isAbsolute (n.encoded ++ q) = false := by
  obtain ⟨c, rest, hcs, hslash, -⟩ := n.encoded_head
  rw [Path.isAbsolute_eq_false]
  intro cs heq
  rw [String.toList_append, hcs] at heq
  exact hslash (List.cons.inj heq).1

theorem places_append_hrefTail {s : String} (h : s ≠ "") (isDir : Bool) :
    Path.places (s ++ hrefTail isDir) = Path.places s := by
  cases isDir with
  | true => exact Path.places_append_slash h
  | false =>
      have hempty : s ++ hrefTail false = s := String.append_empty
      rw [hempty]

theorem ShownName.encoded_ne_empty (n : ShownName) : n.encoded ≠ "" := by
  obtain ⟨c, rest, hcs, -⟩ := n.encoded_head
  intro hempty
  rw [hempty] at hcs
  cases hcs

theorem ShownName.places_href (n : ShownName) (isDir : Bool) :
    Path.places (n.encoded ++ hrefTail isDir) = [.normal n.encoded] := by
  rw [places_append_hrefTail n.encoded_ne_empty, n.places_encoded]

/-- Nothing but separators leads nowhere. -/
theorem places_separators {s : String} (h : ∀ c ∈ s.toList, c = '/') :
    Path.places (Text.trimStartMatches '/' s) = [] := by
  have hdrop : s.toList.dropWhile (· == '/') = [] :=
    List.dropWhile_eq_nil_iff.2 fun c hc => beq_iff_eq.2 (h c hc)
  rw [Text.trimStartMatches, hdrop]
  rfl

/-- A proper end of an encoded name does not lead to the name. -/
theorem places_end_of_encoded (n : ShownName) (isDir : Bool) {front s : String}
    (hfront : front ≠ "") (hne : s ≠ "") (hsplit : n.encoded = front ++ s)
    (above : List Path.Component) :
    Path.places (Text.trimStartMatches '/' (s ++ hrefTail isDir)) ≠
      above ++ [.normal n.entry.text] := by
  intro heq
  have hslash : '/' ∉ s.toList := by
    intro hmem
    apply n.plainSegment.noSlash
    rw [hsplit, String.toList_append]
    exact List.mem_append_right _ hmem
  have habs : Path.isAbsolute s = false := by
    rw [Path.isAbsolute_eq_false]
    intro cs hcs
    exact hslash (by rw [hcs]; exact List.mem_cons_self)
  have htrim : Text.trimStartMatches '/' (s ++ hrefTail isDir) = s ++ hrefTail isDir := by
    have hrelative : Path.isAbsolute (s ++ hrefTail isDir) = false := by
      rw [Path.isAbsolute_append hne]
      exact habs
    have happend := trimStart_append "" hrelative
    rw [String.empty_append] at happend
    exact happend
  rw [htrim, places_append_hrefTail hne, Path.places_of_relative habs, Path.body,
    Path.split_name hslash] at heq
  have hmem : Path.Component.normal n.entry.text ∈ [s].filterMap Path.bodyComponent := by
    rw [heq]
    exact List.mem_append_right _ (List.mem_singleton.2 rfl)
  obtain ⟨piece, hpiece, hbody⟩ := List.mem_filterMap.1 hmem
  rw [List.mem_singleton.1 hpiece] at hbody
  -- the end is the name itself, which is no proper end of its encoding
  have hname := Path.eq_of_bodyComponent hbody
  have hlists := congrArg String.toList hsplit
  rw [n.encoded_toList, String.toList_append, hname] at hlists
  exact hfront (String.toList_inj.1 (eq_nil_of_append_eq_encoded hlists.symm))

/-- A proper end of a reference does not lead to the name. -/
theorem places_end_of_href (n : ShownName) (isDir : Bool) {front rest : String}
    (hfront : front ≠ "") (hsplit : n.encoded ++ hrefTail isDir = front ++ rest)
    (above : List Path.Component) :
    Path.places (Text.trimStartMatches '/' rest) ≠ above ++ [.normal n.entry.text] := by
  have htail : ∀ c ∈ (hrefTail isDir).toList, c = '/' := by
    cases isDir with
    | true => exact fun c hc => List.mem_singleton.1 hc
    | false => exact fun c hc => by cases hc
  have hnowhere : (∀ c ∈ rest.toList, c ∈ (hrefTail isDir).toList) →
      Path.places (Text.trimStartMatches '/' rest) ≠ above ++ [.normal n.entry.text] := by
    intro hall
    rw [places_separators fun c hc => htail c (hall c hc)]
    exact fun heq => List.append_ne_nil_of_right_ne_nil _ (List.cons_ne_nil _ _) heq.symm
  have hlists := congrArg String.toList hsplit
  rw [String.toList_append, String.toList_append] at hlists
  rcases List.append_eq_append_iff.1 hlists with ⟨as, -, htailEq⟩ | ⟨cs, hencoded, hrest⟩
  · refine hnowhere fun c hc => ?_
    rw [htailEq]
    exact List.mem_append_right _ hc
  · by_cases hcs : cs = []
    · refine hnowhere fun c hc => ?_
      rw [hrest, hcs, List.nil_append] at hc
      exact hc
    · have hrestEq : rest = String.ofList cs ++ hrefTail isDir := by
        rw [← String.toList_inj, hrest, String.toList_append, String.toList_ofList]
      have hencodedEq : n.encoded = front ++ String.ofList cs := by
        rw [← String.toList_inj, hencoded, String.toList_append, String.toList_ofList]
      have hne : String.ofList cs ≠ "" := fun hempty => hcs (by
        rw [← String.toList_inj, String.toList_ofList] at hempty
        exact hempty)
      rw [hrestEq]
      exact places_end_of_encoded n isDir hfront hne hencodedEq above

/-- What a link needs to lead to its entry: an unreserved name, and a directory of the page that
maps to the listed directory, with the prefix of an alias not reaching into the name. -/
structure LinkReaches (kind : StaticKind) (p : String) (n : ShownName) (isDir : Bool) : Prop where
  plain : ∀ c ∈ n.entry.text.toList, Uri.isUnreserved c = true
  sameDir : Path.places (relativePath kind (linkBase p)) = Path.places (relativePath kind p)
  outside : OutsideName kind (linkBase p) (entryHref (n.entry.text, isDir))

theorem ShownName.encoded_eq_iff (n : ShownName) :
    n.encoded = n.entry.text ↔ ∀ c ∈ n.entry.text.toList, Uri.isUnreserved c = true := by
  rw [← String.toList_inj, n.encoded_toList]
  exact Static.encoded_eq_iff _

/-- The path of the next request leads to the entry exactly if the link reaches it. -/
theorem places_followed_iff (kind : StaticKind) (p : String) (n : ShownName) (isDir : Bool) :
    Path.places (relativePath kind (followed p (entryHref (n.entry.text, isDir)))) =
        Path.places (relativePath kind p) ++ [.normal n.entry.text] ↔
      LinkReaches kind p n isDir := by
  rw [followed_eq]
  by_cases hout : OutsideName kind (linkBase p) (entryHref (n.entry.text, isDir))
  · have hrelative : Path.isAbsolute (entryHref (n.entry.text, isDir)) = false := by
      rw [entryHref_eq]
      exact n.isAbsolute_encoded _
    rw [relativePath_append hrelative hout,
      (closed_relativePath kind (closed_linkBase p)).places_append hrelative, entryHref_eq,
      n.places_href]
    constructor
    · intro heq
      obtain ⟨hdir, hname⟩ := List.append_inj' heq rfl
      have hname' := Path.Component.normal.inj (List.cons.inj hname).1
      exact ⟨n.encoded_eq_iff.1 hname', hdir, hout⟩
    · intro h
      rw [h.sameDir, n.encoded_eq_iff.2 h.plain]
  · refine iff_of_false (fun heq => ?_) fun h => hout h.outside
    -- the prefix of the alias ends within the name
    rw [OutsideName] at hout
    push Not at hout
    obtain ⟨strip, rfl, hbase, hstrip⟩ := hout
    obtain ⟨rest, hrest⟩ := Option.ne_none_iff_exists'.1 hstrip
    obtain ⟨front, hfront, hsplit⟩ := prefix_ends_within hbase hrest
    rw [relativePath, hrest, Option.getD_some] at heq
    rw [entryHref_eq] at hsplit
    exact places_end_of_href n isDir hfront hsplit _ heq

/-- **The links of a listing.** Let the request path `p` be mapped to a directory that is listed.
Whatever the entry is called, following its link from the page and requesting the result under the
same location makes `serve` ask for just this entry exactly if the link reaches it. -/
theorem listing_link_iff (root : String) (kind : StaticKind) (p : String) (n : ShownName)
    (isDir : Bool) (headers : HeaderMap) (method : Method) (autoindex : Bool)
    (hserved : componentsSafe (relativePath kind p) = true) :
    Stats (serve root kind (followed p (entryHref (n.entry.text, isDir))) headers method autoindex)
        (Path.join (Path.join root (relativePath kind p)) n.entry.text) ↔
      LinkReaches kind p n isDir := by
  rw [serve_stats_iff, ← places_followed_iff, Path.places_join n.entry.wf.isAbsolute,
    Path.places_join (isAbsolute_relativePath kind p),
    Path.places_join (isAbsolute_relativePath kind _), List.append_assoc, n.places_text]
  rw [List.append_cancel_left_eq, and_iff_right_iff_imp]
  -- a path that leads to an entry of the served directory is not refused
  intro hplaces
  rw [componentsSafe_iff]
  refine ⟨isAbsolute_relativePath kind _, fun hup => ?_⟩
  have hmem := Path.mem_places.2 ⟨hup, by decide⟩
  rw [hplaces] at hmem
  rcases List.mem_append.1 hmem with habove | hname
  · exact (componentsSafe_iff.1 hserved).2 (Path.mem_places.1 habove).1
  · cases List.mem_singleton.1 hname

/-! ## Pages of a root -/

/-- Segments with a separator after each lead where they lead one by one. -/
theorem body_closed (kept : List (List Char)) (hslash : ∀ s ∈ kept, '/' ∉ s) :
    Path.body (String.ofList (Uri.closed kept)) =
      (kept.map String.ofList).filterMap Path.bodyComponent := by
  induction kept with
  | nil => rfl
  | cons s kept ih =>
      have hs : '/' ∉ (String.ofList s).toList := by
        rw [String.toList_ofList]
        exact hslash s List.mem_cons_self
      have hsplit : String.ofList (Uri.closed (s :: kept)) =
          String.ofList s ++ "/" ++ String.ofList (Uri.closed kept) := by
        rw [← String.toList_inj]
        simp [Uri.closed]
      rw [hsplit, Path.body_append_sep, ih fun t ht => hslash t (List.mem_cons_of_mem _ ht),
        Path.body, Path.split_name hs, ← List.filterMap_append]
      rfl

/-- Without a `..`, removing dot segments is dropping the single dots. -/
theorem foldl_dotStep (segments kept : List (List Char)) (h : ['.', '.'] ∉ segments) :
    segments.foldl Uri.dotStep kept = kept ++ segments.filter fun s => s ≠ ['.'] := by
  induction segments generalizing kept with
  | nil => exact (List.append_nil kept).symm
  | cons s segments ih =>
      rw [List.mem_cons, not_or] at h
      rw [List.foldl_cons, ih _ h.2, Uri.dotStep]
      by_cases hdot : s = ['.']
      · rw [if_pos hdot, List.filter_cons_of_neg (by simp [hdot])]
      · rw [if_neg hdot, if_neg (Ne.symm h.1), List.filter_cons_of_pos (by simp [hdot]),
          List.append_assoc]
        rfl

/-- A separator in front leads nowhere else. -/
theorem body_slash (s : String) : Path.body ("/" ++ s) = Path.body s :=
  Path.body_append_sep "" s

theorem ofList_slash (cs : List Char) : String.ofList ('/' :: cs) = "/" ++ String.ofList cs := by
  rw [← String.toList_inj]
  simp

theorem body_trimStart (s : String) : Path.body (Text.trimStartMatches '/' s) = Path.body s := by
  obtain ⟨cs, rfl⟩ : ∃ cs, s = String.ofList cs := ⟨s.toList, (String.ofList_toList).symm⟩
  rw [Text.trimStartMatches, String.toList_ofList]
  induction cs with
  | nil => rfl
  | cons c cs ih =>
      by_cases hc : c = '/'
      · rw [hc, List.dropWhile_cons_of_pos (by simp), ih, ofList_slash, body_slash]
      · rw [List.dropWhile_cons_of_neg (by simpa using hc)]

theorem places_relativePath_root (p : String) :
    Path.places (relativePath .root p) = Path.body p := by
  rw [Path.places_of_relative (isAbsolute_relativePath _ _)]
  exact body_trimStart p

theorem bodyComponent_eq_none {piece : String} :
    Path.bodyComponent piece = none ↔ piece = "" ∨ piece = "." := by
  rw [Path.bodyComponent]
  split_ifs with hempty hdot hdots
  · exact iff_of_true rfl (Or.inl hempty)
  · exact iff_of_true rfl (Or.inr hdot)
  · simp [hempty, hdot]
  · simp [hempty, hdot]

theorem filterMap_body_filter (segments : List (List Char)) :
    ((segments.filter fun s => decide (s ≠ ['.'])).map String.ofList).filterMap
        Path.bodyComponent =
      (segments.map String.ofList).filterMap Path.bodyComponent := by
  induction segments with
  | nil => rfl
  | cons s segments ih =>
      by_cases hdot : s = ['.']
      · have hnone : Path.bodyComponent (String.ofList s) = none := by
          rw [hdot]
          exact bodyComponent_eq_none.2 (Or.inr rfl)
        rw [List.filter_cons_of_neg (by simp [hdot]), ih, List.map_cons, List.filterMap_cons, hnone]
      · rw [List.filter_cons_of_pos (by simp [hdot]), List.map_cons, List.map_cons,
          List.filterMap_cons, List.filterMap_cons, ih]

/-- The directory of a page leads to what the segments before the last one lead to. -/
theorem body_linkBase {p : String} {init : List (List Char)} {last : List Char}
    (hp : p.toList = '/' :: (Uri.closed init ++ last)) (hinit : ∀ s ∈ init, '/' ∉ s)
    (hlast : '/' ∉ last) (hdots : ['.', '.'] ∉ init) :
    Path.body (linkBase p) = (init.map String.ofList).filterMap Path.bodyComponent := by
  rw [linkBase, hp, Uri.directoryOf_segments init hinit hlast, foldl_dotStep init [] hdots,
    List.nil_append, ofList_slash, body_slash,
    body_closed _ fun s hs => hinit s (List.mem_of_mem_filter hs), filterMap_body_filter]

/-- Under a `root`, the links of a page are resolved in the listed directory exactly if the path
ends in a separator or in a single dot. -/
theorem sameDir_root_iff (rest : String) (hup : ".." ∉ Text.split '/' rest) :
    Path.places (relativePath .root (linkBase ("/" ++ rest))) =
        Path.places (relativePath .root ("/" ++ rest)) ↔
      (Text.split '/' rest).getLast? = some "" ∨ (Text.split '/' rest).getLast? = some "." := by
  rcases List.eq_nil_or_concat (rest.toList.splitOn '/') with hnil | ⟨init, last, hpieces⟩
  · exact absurd hnil (List.splitOn_ne_nil _ _)
  rw [List.concat_eq_append] at hpieces
  have hnoslash := Uri.slash_notMem_segment rest.toList
  rw [hpieces] at hnoslash
  have hsplit : Text.split '/' rest = init.map String.ofList ++ [String.ofList last] := by
    rw [Text.split, hpieces, List.map_append]
    rfl
  have hdots : ['.', '.'] ∉ init := by
    intro hmem
    apply hup
    rw [hsplit]
    exact List.mem_append_left _ (List.mem_map.2 ⟨_, hmem, rfl⟩)
  have htext : ("/" ++ rest).toList = '/' :: (Uri.closed init ++ last) := by
    rw [String.toList_append, ← Uri.intercalate_concat, ← hpieces, List.intercalate_splitOn]
    rfl
  have hbase := body_linkBase htext (fun s hs => hnoslash s (List.mem_append_left _ hs))
    (hnoslash last (List.mem_append_right _ (List.mem_singleton.2 rfl))) hdots
  have hpath : Path.body ("/" ++ rest) = (init.map String.ofList).filterMap Path.bodyComponent ++
      (Path.bodyComponent (String.ofList last)).toList := by
    rw [body_slash, Path.body, hsplit, List.filterMap_append]
    cases hlast : Path.bodyComponent (String.ofList last) with
    | none => simp [hlast]
    | some c => simp [hlast]
  rw [places_relativePath_root, places_relativePath_root, hbase, hpath, hsplit,
    List.getLast?_concat, List.self_eq_append_right, Option.toList_eq_nil_iff,
    bodyComponent_eq_none, Option.some_inj, Option.some_inj]

/-- An entry with a plain name. -/
def readme : ShownName where
  entry := ⟨"README.txt", by refine ⟨?_, ?_, ?_⟩ <;> decide⟩
  shown := by decide

/-- An entry with a space in its name. -/
def annualReport : ShownName where
  entry := ⟨"annual report.pdf", by refine ⟨?_, ?_, ?_⟩ <;> decide⟩
  shown := by decide

/-- From the page `/docs/` the link to a plain name is followed to the entry. -/
theorem listing_link_readme :
    Stats
      (serve "/srv" .root (followed "/docs/" (entryHref (readme.entry.text, false))) ∅ .get true)
      (Path.join (Path.join "/srv" (relativePath .root "/docs/")) readme.entry.text) :=
  (listing_link_iff "/srv" .root "/docs/" readme false ∅ .get true (by decide +kernel)).2
    ⟨List.all_eq_true.1 (by decide +kernel), by decide +kernel, fun strip h => by cases h⟩

/-- From `/docs/` the link to a name with a space asks for another file, and from the same page at
`/docs` every link is resolved in the directory above. -/
theorem listing_links_astray :
    componentsSafe (relativePath .root "/docs/") = true ∧
      ¬ Stats (serve "/srv" .root (followed "/docs/" (entryHref (annualReport.entry.text, false)))
          ∅ .get true)
        (Path.join (Path.join "/srv" (relativePath .root "/docs/")) annualReport.entry.text) ∧
      componentsSafe (relativePath .root "/docs") = true ∧
      ¬ Stats (serve "/srv" .root (followed "/docs" (entryHref (readme.entry.text, false)))
          ∅ .get true)
        (Path.join (Path.join "/srv" (relativePath .root "/docs")) readme.entry.text) := by
  rw [serve_stats_iff, serve_stats_iff]
  decide +kernel

end Elrond.Static
