import Elrond.Lib.Text

/-!
# Reading HTML

The part of an HTML reader that finds tags and texts. A page is a sequence of tags, each with the
text behind it. A tag is opened by `<`, the value of an attribute stands between double quotes, and
in values and texts character references are replaced by what they stand for (`unescape`). What is
written with no `<` in the texts and no quote in the values is read back as it was written, with its
references replaced (`read_write`).
-/

set_option autoImplicit false

namespace Elrond.Lib.Html

/-! ## Character references -/

/-- The references by name. -/
def namedReferences : List (List Char × Char) :=
  [("lt;".toList, '<'), ("gt;".toList, '>'), ("amp;".toList, '&'), ("quot;".toList, '"'),
    ("apos;".toList, '\'')]

/-- A reference by number, after its `#`. -/
def readNumber (cs : List Char) : Option (Char × List Char) :=
  let digits := cs.takeWhile Text.isAsciiDigit
  match cs.dropWhile Text.isAsciiDigit with
  | ';' :: rest =>
      if digits = [] then none
      else some (Char.ofNat (Nat.ofDigitChars 10 digits 0), rest)
  | _ => none

/-- The first of the names that the text starts with, and the rest. -/
def readNamed : List (List Char × Char) → List Char → Option (Char × List Char)
  | [], _ => none
  | (name, c) :: others, cs =>
      match name.isPrefixOf? cs with
      | some rest => some (c, rest)
      | none => readNamed others cs

/-- A character reference, after its `&`. -/
def readReference : List Char → Option (Char × List Char)
  | '#' :: cs => readNumber cs
  | cs => readNamed namedReferences cs

theorem readNamed_length {names : List (List Char × Char)} {cs rest : List Char} {c : Char}
    (h : readNamed names cs = some (c, rest)) : rest.length ≤ cs.length := by
  induction names with
  | nil => cases h
  | cons p others ih =>
      rw [readNamed] at h
      split at h
      · next hprefix =>
        cases h
        rw [Text.isPrefixOf?_eq_some.1 hprefix, List.length_append]
        exact Nat.le_add_left _ _
      · exact ih h

theorem readNumber_length {cs rest : List Char} {c : Char} (h : readNumber cs = some (c, rest)) :
    rest.length ≤ cs.length := by
  have hdrop := (List.dropWhile_suffix (l := cs) Text.isAsciiDigit).length_le
  simp only [readNumber] at h
  split at h
  · next hrest =>
    rw [hrest, List.length_cons] at hdrop
    split at h
    · cases h
    · cases h
      omega
  · cases h

theorem readReference_length {cs rest : List Char} {c : Char}
    (h : readReference cs = some (c, rest)) : rest.length ≤ cs.length := by
  rw [readReference.eq_def] at h
  split at h
  · exact (readNumber_length h).trans (Nat.le_succ _)
  · exact readNamed_length h

/-- Replace the character references of a text; an ampersand that starts none is kept. -/
def unescape : List Char → List Char
  | [] => []
  | c :: cs =>
      if c = '&' then
        match _h : readReference cs with
        | some (d, rest) => d :: unescape rest
        | none => c :: unescape cs
      else c :: unescape cs
termination_by cs => cs.length
decreasing_by
  · have := readReference_length (by assumption)
    simp only [List.length_cons]
    omega
  · simp
  · simp

theorem unescape_nil : unescape [] = [] := by rw [unescape]

theorem unescape_cons {c : Char} (h : c ≠ '&') (cs : List Char) :
    unescape (c :: cs) = c :: unescape cs := by
  rw [unescape, if_neg h]

theorem unescape_reference {cs rest : List Char} {d : Char}
    (h : readReference cs = some (d, rest)) : unescape ('&' :: cs) = d :: unescape rest := by
  rw [unescape, if_pos rfl]
  split
  · next hread =>
    rw [h] at hread
    cases hread
    rfl
  · next hread =>
    rw [h] at hread
    cases hread

/-- A text without ampersands stands for itself. -/
theorem unescape_append {cs : List Char} (h : '&' ∉ cs) (rest : List Char) :
    unescape (cs ++ rest) = cs ++ unescape rest := by
  induction cs with
  | nil => rfl
  | cons c cs ih =>
      have hc : c ≠ '&' := fun heq => h (heq ▸ List.mem_cons_self)
      rw [List.cons_append, unescape_cons hc, ih fun hmem => h (List.mem_cons_of_mem _ hmem)]
      rfl

/-- A text that is escaped character by character is read back. -/
theorem unescape_flatMap {f : Char → List Char}
    (hf : ∀ c rest, unescape (f c ++ rest) = c :: unescape rest) (cs rest : List Char) :
    unescape (cs.flatMap f ++ rest) = cs ++ unescape rest := by
  induction cs with
  | nil => rfl
  | cons c cs ih => rw [List.flatMap_cons, List.append_assoc, hf, ih, List.cons_append]

/-! ## Tags -/

/-- A tag, without its angle brackets. -/
inductive Tag where
  | declaration (content : List Char)
  | start (name : List Char) (attributes : List (List Char × List Char))
  | stop (name : List Char)
deriving DecidableEq, Repr

/-- The characters of names. -/
def isNameChar (c : Char) : Bool := c.isAlphanum || c == '-'

/-- The attributes of a tag up to its closing bracket: each a space, a name, an equals sign and a
value between double quotes. Every attribute takes a character, so the length of the text is enough
fuel. -/
def readAttributes : Nat → List Char → Option (List (List Char × List Char) × List Char)
  | 0, _ => none
  | _ + 1, '>' :: rest => some ([], rest)
  | fuel + 1, ' ' :: cs =>
      match cs.dropWhile isNameChar with
      | '=' :: '"' :: value =>
          match value.dropWhile (· != '"') with
          | '"' :: rest =>
              (readAttributes fuel rest).map fun r =>
                ((cs.takeWhile isNameChar, unescape (value.takeWhile (· != '"'))) :: r.1, r.2)
          | _ => none
      | _ => none
  | _ + 1, _ => none

/-- A tag after its opening bracket, and what follows it. -/
def readTag : List Char → Option (Tag × List Char)
  | '!' :: cs =>
      match cs.dropWhile (· != '>') with
      | '>' :: rest => some (.declaration (cs.takeWhile (· != '>')), rest)
      | _ => none
  | '/' :: cs =>
      match cs.dropWhile isNameChar with
      | '>' :: rest => some (.stop (cs.takeWhile isNameChar), rest)
      | _ => none
  | c :: cs =>
      if c.isAlpha then
        (readAttributes cs.length (cs.dropWhile isNameChar)).map fun r =>
          (.start (c :: cs.takeWhile isNameChar) r.1, r.2)
      else none
  | [] => none

/-! ## Pages -/

/-- A page: its tags, each with the text behind it. A page that does not start with a tag, or that
has a `<` which opens none, is not read. -/
def readPage : Nat → List Char → Option (List (Tag × List Char))
  | _, [] => some []
  | 0, _ :: _ => none
  | fuel + 1, c :: cs =>
      if c = '<' then
        (readTag cs).bind fun r =>
          (readPage fuel (r.2.dropWhile (· != '<'))).map fun others =>
            (r.1, unescape (r.2.takeWhile (· != '<'))) :: others
      else none

/-- The tags and texts of a page. -/
def read (page : List Char) : Option (List (Tag × List Char)) := readPage page.length page

/-- The tag opens a link. -/
def Tag.isLink : Tag → Bool
  | .start name _ => name == ['a']
  | _ => false

/-- The value of an attribute of a tag. -/
def Tag.attribute (key : List Char) : Tag → Option (List Char)
  | .start _ attributes => (attributes.find? fun a => a.1 = key).map Prod.snd
  | _ => none

/-- The links of a page: the reference of each link, with the text behind the tag. -/
def links (page : List (Tag × List Char)) : List (Option (List Char) × List Char) :=
  (page.filter fun p => p.1.isLink).map fun p => (p.1.attribute ['h', 'r', 'e', 'f'], p.2)

theorem links_append (page page' : List (Tag × List Char)) :
    links (page ++ page') = links page ++ links page' := by
  rw [links, links, links, List.filter_append, List.map_append]

theorem links_eq_nil {page : List (Tag × List Char)}
    (h : ∀ t ∈ page.map Prod.fst, t.isLink = false) : links page = [] := by
  rw [links, List.map_eq_nil_iff, List.filter_eq_nil_iff]
  intro p hp
  rw [h p.1 (List.mem_map_of_mem hp)]
  exact Bool.false_ne_true

/-! ## Writing -/

/-- An attribute as it is written. -/
def writeAttribute (a : List Char × List Char) : List Char :=
  ' ' :: (a.1 ++ '=' :: '"' :: (a.2 ++ ['"']))

/-- A tag as it is written. -/
def Tag.write : Tag → List Char
  | .declaration content => '<' :: '!' :: (content ++ ['>'])
  | .start name attributes => '<' :: (name ++ (attributes.flatMap writeAttribute ++ ['>']))
  | .stop name => '<' :: '/' :: (name ++ ['>'])

/-- A page as it is written. -/
def write (page : List (Tag × List Char)) : List Char :=
  page.flatMap fun p => p.1.write ++ p.2

theorem write_cons (p : Tag × List Char) (page : List (Tag × List Char)) :
    write (p :: page) = p.1.write ++ p.2 ++ write page := List.flatMap_cons

theorem write_append (page page' : List (Tag × List Char)) :
    write (page ++ page') = write page ++ write page' := List.flatMap_append

/-- What is written can be told from what surrounds it. -/
def Tag.Writable : Tag → Prop
  | .declaration content => '>' ∉ content
  | .start [] _ => False
  | .start (c :: cs) attributes =>
      (c.isAlpha = true ∧ ∀ d ∈ cs, isNameChar d = true) ∧
        ∀ a ∈ attributes, (∀ d ∈ a.1, isNameChar d = true) ∧ '"' ∉ a.2
  | .stop name => ∀ c ∈ name, isNameChar c = true

instance : (t : Tag) → Decidable t.Writable
  | .declaration content => inferInstanceAs (Decidable ('>' ∉ content))
  | .start [] _ => inferInstanceAs (Decidable False)
  | .start (c :: cs) attributes =>
      decidable_of_iff ((c.isAlpha && cs.all isNameChar &&
          attributes.all fun a => a.1.all isNameChar && !a.2.contains '"') = true)
        (by simp [Tag.Writable])
  | .stop name => decidable_of_iff (name.all isNameChar = true) (by simp [Tag.Writable])

/-- The tag as it is read, with the references in the values of its attributes replaced. -/
def Tag.unescaped : Tag → Tag
  | .start name attributes => .start name (attributes.map fun a => (a.1, unescape a.2))
  | t => t

theorem Tag.unescaped_start (name : List Char) (attributes : List (List Char × List Char)) :
    (Tag.start name attributes).unescaped =
      .start name (attributes.map fun a => (a.1, unescape a.2)) := rfl

/-- No attribute of the tag holds a reference. -/
def Tag.Plain : Tag → Prop
  | .start _ attributes => ∀ a ∈ attributes, '&' ∉ a.2
  | _ => True

instance : (t : Tag) → Decidable t.Plain
  | .declaration _ => inferInstanceAs (Decidable True)
  | .start _ attributes => inferInstanceAs (Decidable (∀ a ∈ attributes, '&' ∉ a.2))
  | .stop _ => inferInstanceAs (Decidable True)

theorem unescape_of_notMem {cs : List Char} (h : '&' ∉ cs) : unescape cs = cs := by
  have happend := unescape_append h []
  rwa [List.append_nil, unescape_nil, List.append_nil] at happend

/-- A tag without references is read as it is written. -/
theorem Tag.Plain.unescaped {t : Tag} (h : t.Plain) : t.unescaped = t := by
  cases t with
  | declaration content => rfl
  | start name attributes =>
      have hvalues : (attributes.map fun a => (a.1, unescape a.2)) = attributes := by
        refine (List.map_congr_left fun a ha => ?_).trans (List.map_id _)
        rw [unescape_of_notMem (h a ha)]
        rfl
      rw [Tag.unescaped_start, hvalues]
  | stop name => rfl

/-- A run of characters with a property, ended by one without it. -/
theorem run_append {p : Char → Bool} {cs : List Char} (h : ∀ c ∈ cs, p c = true) {d : Char}
    (hd : p d = false) (rest : List Char) :
    (cs ++ d :: rest).takeWhile p = cs ∧ (cs ++ d :: rest).dropWhile p = d :: rest := by
  rw [List.takeWhile_append_of_pos h, List.dropWhile_append_of_pos h, List.takeWhile_cons,
    List.dropWhile_cons, hd]
  exact ⟨List.append_nil cs, rfl⟩

theorem bne_of_notMem {d : Char} {cs : List Char} (h : d ∉ cs) : ∀ c ∈ cs, (c != d) = true := by
  intro c hc
  exact bne_iff_ne.2 fun heq => h (heq ▸ hc)

theorem readAttributes_write {attributes : List (List Char × List Char)}
    (h : ∀ a ∈ attributes, (∀ c ∈ a.1, isNameChar c = true) ∧ '"' ∉ a.2) {fuel : Nat}
    (hfuel : attributes.length < fuel) (rest : List Char) :
    readAttributes fuel (attributes.flatMap writeAttribute ++ '>' :: rest) =
      some (attributes.map fun a => (a.1, unescape a.2), rest) := by
  induction attributes generalizing fuel with
  | nil =>
      cases fuel with
      | zero => exact absurd hfuel (Nat.not_lt_zero _)
      | succ fuel => rfl
  | cons a others ih =>
      cases fuel with
      | zero => exact absurd hfuel (Nat.not_lt_zero _)
      | succ fuel =>
          obtain ⟨name, value⟩ := a
          obtain ⟨hname, hvalue⟩ := h _ List.mem_cons_self
          have hothers := ih (fun b hb => h b (List.mem_cons_of_mem _ hb))
            (Nat.lt_of_succ_lt_succ hfuel)
          have hends : isNameChar '=' = false := by decide
          -- the name ends at the equals sign, and the value at the quote behind it
          obtain ⟨htake, hdrop⟩ := run_append hname hends
            ('"' :: (value ++ '"' :: (others.flatMap writeAttribute ++ '>' :: rest)))
          obtain ⟨htake', hdrop'⟩ := run_append (bne_of_notMem hvalue)
            (by decide : ('"' != '"') = false) (others.flatMap writeAttribute ++ '>' :: rest)
          have htext : ((name, value) :: others).flatMap writeAttribute ++ '>' :: rest =
              ' ' :: (name ++ '=' :: '"' ::
                (value ++ '"' :: (others.flatMap writeAttribute ++ '>' :: rest))) := by
            simp [writeAttribute]
          rw [htext, readAttributes]
          simp only [htake, hdrop, htake', hdrop', hothers, Option.map_some, List.map_cons]

theorem length_attributes_le (attributes : List (List Char × List Char)) :
    attributes.length ≤ (attributes.flatMap writeAttribute).length := by
  induction attributes with
  | nil => exact Nat.le_refl 0
  | cons a others ih =>
      rw [List.flatMap_cons, List.length_append, List.length_cons, writeAttribute, List.length_cons]
      omega

/-- The name of a tag ends before its attributes. -/
theorem attributes_head (attributes : List (List Char × List Char)) (rest : List Char) :
    ∃ d cs, attributes.flatMap writeAttribute ++ '>' :: rest = d :: cs ∧ isNameChar d = false := by
  cases attributes with
  | nil => exact ⟨'>', rest, rfl, by decide⟩
  | cons a others => exact ⟨' ', _, rfl, by decide⟩

theorem readTag_start {c : Char} {cs : List Char} (hc : c.isAlpha = true) :
    readTag (c :: cs) =
      (readAttributes cs.length (cs.dropWhile isNameChar)).map fun r =>
        (.start (c :: cs.takeWhile isNameChar) r.1, r.2) := by
  rw [readTag.eq_def]
  split
  · next heq =>
    cases heq
    exact absurd hc (by decide)
  · next heq =>
    cases heq
    exact absurd hc (by decide)
  · next heq =>
    cases heq
    rw [if_pos hc]
  · next heq => cases heq

/-- A written tag is read back, and reading goes on behind it. -/
theorem readTag_write {t : Tag} (h : t.Writable) (rest : List Char) :
    ∃ cs, t.write ++ rest = '<' :: cs ∧ readTag cs = some (t.unescaped, rest) := by
  cases t with
  | declaration content =>
      obtain ⟨htake, hdrop⟩ :=
        run_append (bne_of_notMem h) (by decide : ('>' != '>') = false) rest
      refine ⟨'!' :: (content ++ '>' :: rest), by simp [Tag.write], ?_⟩
      simp only [readTag, htake, hdrop]
      rfl
  | start name attributes =>
      obtain ⟨c, cs, rfl⟩ : ∃ c cs, name = c :: cs := by
        cases name with
        | nil => exact absurd h id
        | cons c cs => exact ⟨c, cs, rfl⟩
      obtain ⟨⟨hc, hcs⟩, hattributes⟩ := h
      refine ⟨c :: (cs ++ (attributes.flatMap writeAttribute ++ '>' :: rest)),
        by simp [Tag.write], ?_⟩
      -- the name ends where the attributes start, at a blank or at the end of the tag
      obtain ⟨d, tail, hhead, hd⟩ := attributes_head attributes rest
      obtain ⟨htake, hdrop⟩ := run_append hcs hd tail
      have hfuel : attributes.length <
          (cs ++ (attributes.flatMap writeAttribute ++ '>' :: rest)).length := by
        have := length_attributes_le attributes
        simp only [List.length_append, List.length_cons]
        omega
      rw [readTag_start hc, hhead, htake, hdrop, ← hhead,
        readAttributes_write hattributes hfuel, Option.map_some]
      rfl
  | stop name =>
      obtain ⟨htake, hdrop⟩ := run_append h (by decide : isNameChar '>' = false) rest
      refine ⟨'/' :: (name ++ '>' :: rest), by simp [Tag.write], ?_⟩
      simp only [readTag, htake, hdrop]
      rfl

/-- A page goes on with a tag or ends. -/
theorem write_head (page : List (Tag × List Char)) :
    write page = [] ∨ ∃ cs, write page = '<' :: cs := by
  cases page with
  | nil => exact Or.inl rfl
  | cons p others =>
      right
      rw [write, List.flatMap_cons]
      cases p.1 with
      | declaration content => exact ⟨_, rfl⟩
      | start name attributes => exact ⟨_, rfl⟩
      | stop name => exact ⟨_, rfl⟩

/-- A text ends where the page goes on. -/
theorem text_append {cs : List Char} (h : '<' ∉ cs) (page : List (Tag × List Char)) :
    (cs ++ write page).takeWhile (· != '<') = cs ∧
      (cs ++ write page).dropWhile (· != '<') = write page := by
  rcases write_head page with hnil | ⟨tail, hcons⟩
  · rw [hnil, List.append_nil, List.takeWhile_eq_self_iff, List.dropWhile_eq_nil_iff]
    exact ⟨bne_of_notMem h, bne_of_notMem h⟩
  · rw [hcons]
    exact run_append (bne_of_notMem h) (by decide : ('<' != '<') = false) tail

/-- A tag with its text as it is written, and as it is read. -/
structure WrittenAs (raw p : Tag × List Char) : Prop where
  writable : raw.1.Writable
  noTag : '<' ∉ raw.2
  tag : raw.1.unescaped = p.1
  text : unescape raw.2 = p.2

theorem WrittenAs.of_tag {t t' : Tag} {cs cs' : List Char} (ht : t.Writable)
    (htag : t.unescaped = t') (hopen : '<' ∉ cs) (htext : unescape cs = cs') :
    WrittenAs (t, cs) (t', cs') :=
  ⟨ht, hopen, htag, htext⟩

/-- A tag and a text without special characters are read as they are written. -/
theorem WrittenAs.of_plain {t : Tag} {cs : List Char} (ht : t.Writable) (hplain : t.Plain)
    (hopen : '<' ∉ cs) (hamp : '&' ∉ cs) : WrittenAs (t, cs) (t, cs) :=
  .of_tag ht hplain.unescaped hopen (unescape_of_notMem hamp)

theorem forall₂_writtenAs_self {tags : List (Tag × List Char)}
    (h : ∀ p ∈ tags, p.1.Writable ∧ p.1.Plain ∧ '<' ∉ p.2 ∧ '&' ∉ p.2) :
    List.Forall₂ WrittenAs tags tags := by
  rw [List.forall₂_same]
  intro p hp
  obtain ⟨ht, hplain, hopen, hamp⟩ := h p hp
  exact .of_plain ht hplain hopen hamp

theorem readPage_write {raw page : List (Tag × List Char)} (h : List.Forall₂ WrittenAs raw page)
    {fuel : Nat} (hfuel : raw.length ≤ fuel) : readPage fuel (write raw) = some page := by
  induction h generalizing fuel with
  | nil => cases fuel <;> rfl
  | @cons p q others page hp _ ih =>
      cases fuel with
      | zero => exact absurd hfuel (Nat.not_succ_le_zero _)
      | succ fuel =>
          have hothers := ih (Nat.le_of_succ_le_succ hfuel)
          obtain ⟨cs, hcs, hread⟩ := readTag_write hp.writable (p.2 ++ write others)
          obtain ⟨htake, hdrop⟩ := text_append hp.noTag others
          rw [write_cons, List.append_assoc, hcs, readPage, if_pos rfl, hread]
          simp only [Option.bind_some, htake, hdrop, hothers, Option.map_some, hp.tag, hp.text]

theorem length_le_write (page : List (Tag × List Char)) : page.length ≤ (write page).length := by
  induction page with
  | nil => exact Nat.le_refl 0
  | cons p others ih =>
      have hpage : write (p :: others) = p.1.write ++ p.2 ++ write others := List.flatMap_cons
      have htag : 0 < p.1.write.length := by
        cases p.1 with
        | declaration content => exact Nat.succ_pos _
        | start name attributes => exact Nat.succ_pos _
        | stop name => exact Nat.succ_pos _
      rw [hpage, List.length_append, List.length_append, List.length_cons]
      omega

/-- A page is read as it was written, with the character references in its texts and attribute values
replaced. -/
theorem read_write {raw page : List (Tag × List Char)} (h : List.Forall₂ WrittenAs raw page) :
    read (write raw) = some page :=
  readPage_write h (length_le_write raw)

end Elrond.Lib.Html
