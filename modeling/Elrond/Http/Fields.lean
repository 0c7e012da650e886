import Elrond.Http.Message

/-!
# Fields with lists of members

The value of many fields is a list: members between commas, with optional white space around them,
where a member may be empty and then counts for nothing. `HeaderValue.members` reads a line so, each
byte as one character, since a line need not be readable as text. On readable lines this is what
splitting at commas and trimming gives (`members_of_toStr`).
-/

set_option autoImplicit false

namespace Elrond.Http

open Elrond.Lib

/-- Optional white space around a member. -/
def isOws (c : Char) : Bool := c == ' ' || c == '\t'

/-- A text without the optional white space at its ends. -/
def trimOws (s : String) : String :=
  String.ofList ((s.toList.dropWhile isOws).rdropWhile isOws)

/-- The members of a list written in a text. -/
def textMembers (s : String) : List String :=
  ((Text.split ',' s).map trimOws).filter fun m => m ≠ ""

/-- The members of a field line. -/
def HeaderValue.members (v : HeaderValue) : List String := textMembers (asciiText v.bytes)

/-! ## Characters -/

/-- Lower-casing changes the 26 upper-case letters only. -/
theorem apply_toLower {α : Type} (q : Char → α)
    (hq : ∀ n ∈ List.range' 65 26, q (Char.ofNat n).toLower = q (Char.ofNat n)) (c : Char) :
    q c.toLower = q c := by
  by_cases h : 65 ≤ c.toNat ∧ c.toNat ≤ 90
  · have hc := hq c.toNat (List.mem_range'_1.2 ⟨h.1, by omega⟩)
    rwa [Char.ofNat_toNat] at hc
  · have hsame : c.toLower = c := dif_neg h
    rw [hsame]

/-- A character of readable text is white space exactly if it is optional white space. -/
theorem isWhitespace_of_visible {b : UInt8} (h : isVisibleByte b = true) :
    Text.isWhitespace (Char.ofNat b.toNat) = isOws (Char.ofNat b.toNat) := by
  have hall : ∀ n < 127, (32 ≤ n ∨ n = 9) →
      Text.isWhitespace (Char.ofNat n) = isOws (Char.ofNat n) := by decide
  simp only [isVisibleByte, Bool.or_eq_true, Bool.and_eq_true, decide_eq_true_eq, beq_iff_eq] at h
  rcases h with ⟨hlow, hhigh⟩ | rfl
  · exact hall b.toNat hhigh (Or.inl hlow)
  · decide

/-! ## Lower case -/

theorem mem_toAsciiLowercase {s : String} {c : Char} (hc : c.toLower = c) (h : c ∈ s.toList) :
    c ∈ (Text.toAsciiLowercase s).toList := by
  rw [Text.toAsciiLowercase, String.toList_ofList]
  exact List.mem_map.2 ⟨c, h, hc⟩

theorem splitOn_map_toLower (cs : List Char) :
    (cs.map Char.toLower).splitOn ',' = (cs.splitOn ',').map (List.map Char.toLower) := by
  induction cs with
  | nil => rfl
  | cons c cs ih =>
      have hc : (c.toLower == ',') = (c == ',') := apply_toLower (· == ',') (by decide) c
      rw [List.map_cons, List.splitOn_cons_eq_if_modifyHead, List.splitOn_cons_eq_if_modifyHead,
        ih, hc]
      obtain ⟨first, others, hsplit⟩ := List.exists_cons_of_ne_nil (List.splitOn_ne_nil ',' cs)
      rw [hsplit]
      split <;> rfl

/-- A list in lower case has the pieces of the list, in lower case. -/
theorem split_toAsciiLowercase (s : String) :
    Text.split ',' (Text.toAsciiLowercase s) = (Text.split ',' s).map Text.toAsciiLowercase := by
  rw [Text.split, Text.toAsciiLowercase, String.toList_ofList, splitOn_map_toLower, Text.split,
    List.map_map, List.map_map]
  apply List.map_congr_left
  intro piece _
  simp [Text.toAsciiLowercase]

theorem trim_toAsciiLowercase (s : String) :
    Text.trim (Text.toAsciiLowercase s) = Text.toAsciiLowercase (Text.trim s) := by
  have hws : Text.isWhitespace ∘ Char.toLower = Text.isWhitespace :=
    funext (apply_toLower Text.isWhitespace (by decide))
  rw [Text.trim, Text.toAsciiLowercase, Text.toAsciiLowercase, Text.trim, String.toList_ofList,
    String.toList_ofList, List.dropWhile_map, hws, List.rdropWhile, List.rdropWhile,
    ← List.map_reverse, List.dropWhile_map, hws, List.map_reverse]

/-! ## Members of texts -/

theorem dropWhile_congr_mem {α : Type} {p q : α → Bool} {l : List α} (h : ∀ x ∈ l, p x = q x) :
    l.dropWhile p = l.dropWhile q := by
  induction l with
  | nil => rfl
  | cons x l ih =>
      rw [List.dropWhile_cons, List.dropWhile_cons, h x List.mem_cons_self,
        ih fun y hy => h y (List.mem_cons_of_mem x hy)]

theorem rdropWhile_congr_mem {α : Type} {p q : α → Bool} {l : List α} (h : ∀ x ∈ l, p x = q x) :
    l.rdropWhile p = l.rdropWhile q := by
  rw [List.rdropWhile, List.rdropWhile, dropWhile_congr_mem]
  intro x hx
  exact h x (List.mem_reverse.1 hx)

/-- Trimming a piece of readable text takes optional white space away. -/
theorem trim_eq_trimOws {s : String} (h : ∀ c ∈ s.toList, Text.isWhitespace c = isOws c) :
    Text.trim s = trimOws s := by
  rw [Text.trim, trimOws, dropWhile_congr_mem h, rdropWhile_congr_mem]
  intro c hc
  exact h c ((List.dropWhile_suffix isOws).subset hc)

theorem subset_of_mem_splitOn {sep : Char} {cs : List Char} :
    ∀ piece ∈ cs.splitOn sep, piece ⊆ cs := by
  induction cs with
  | nil => simp
  | cons c cs ih =>
      intro piece hpiece
      rw [List.splitOn_cons_eq_if_modifyHead] at hpiece
      split at hpiece
      · rcases List.mem_cons.1 hpiece with rfl | hpiece
        · exact List.nil_subset _
        · exact List.subset_cons_of_subset c (ih piece hpiece)
      -- the character goes to the first piece of the rest
      · obtain ⟨first, others, hsplit⟩ := List.exists_cons_of_ne_nil (List.splitOn_ne_nil sep cs)
        rw [hsplit] at hpiece ih
        rcases List.mem_cons.1 hpiece with rfl | hpiece
        · exact List.cons_subset_cons c (ih first List.mem_cons_self)
        · exact List.subset_cons_of_subset c (ih piece (List.mem_cons_of_mem first hpiece))

theorem mem_of_mem_split {sep : Char} {s piece : String} (h : piece ∈ Text.split sep s) {c : Char}
    (hc : c ∈ piece.toList) : c ∈ s.toList := by
  obtain ⟨l, hl, rfl⟩ := List.mem_map.1 h
  rw [String.toList_ofList] at hc
  exact subset_of_mem_splitOn l hl hc

/-- The white space of a readable line is optional white space. -/
theorem isWhitespace_of_toStr {v : HeaderValue} {s : String} (h : v.toStr = some s) :
    ∀ c ∈ s.toList, Text.isWhitespace c = isOws c := by
  obtain ⟨hvis, rfl⟩ := toStr_eq_some h
  intro c hc
  rw [asciiText, String.toList_ofList] at hc
  obtain ⟨b, hb, rfl⟩ := List.mem_map.1 hc
  exact isWhitespace_of_visible (List.all_eq_true.1 hvis b hb)

/-- On a readable line the members are what splitting and trimming leaves. -/
theorem members_of_toStr {v : HeaderValue} {s : String} (h : v.toStr = some s) :
    v.members = ((Text.split ',' s).map Text.trim).filter fun m => m ≠ "" := by
  have hblank := isWhitespace_of_toStr h
  obtain ⟨-, rfl⟩ := toStr_eq_some h
  rw [HeaderValue.members, textMembers]
  congr 1
  apply List.map_congr_left
  intro piece hpiece
  symm
  apply trim_eq_trimOws
  intro c hc
  exact hblank c (mem_of_mem_split hpiece hc)

/-- A comma separates the members before it from those after it. -/
theorem textMembers_append (a b : String) :
    textMembers (a ++ "," ++ b) = textMembers a ++ textMembers b := by
  have htext : (a ++ "," ++ b).toList = a.toList ++ ',' :: b.toList := by simp
  rw [textMembers, Text.split, htext, List.splitOn_append_cons_self, List.map_append,
    List.map_append, List.filter_append]
  rfl

/-- A text without a comma has one member at most. -/
theorem textMembers_single {s : String} (h : ',' ∉ s.toList) :
    textMembers s = if trimOws s = "" then [] else [trimOws s] := by
  rw [textMembers, Text.split, List.splitOn_eq_singleton h]
  simp [List.filter_cons]

/-! ## Lines that have members -/

theorem mem_dropWhile_of_not {α : Type} {p : α → Bool} {l : List α} {x : α} (hx : x ∈ l)
    (hp : p x = false) : x ∈ l.dropWhile p := by
  rw [← List.takeWhile_append_dropWhile (p := p) (l := l)] at hx
  rcases List.mem_append.1 hx with hx | hx
  · have htake := List.mem_takeWhile_imp hx
    rw [hp] at htake
    exact Bool.noConfusion htake
  · exact hx

/-- Trimming keeps every other character. -/
theorem mem_trimOws {s : String} {c : Char} (hc : c ∈ s.toList) (hows : isOws c = false) :
    c ∈ (trimOws s).toList := by
  rw [trimOws, String.toList_ofList, List.rdropWhile, List.mem_reverse]
  apply mem_dropWhile_of_not _ hows
  rw [List.mem_reverse]
  exact mem_dropWhile_of_not hc hows

theorem exists_mem_splitOn {sep : Char} {cs : List Char} {c : Char} (hc : c ∈ cs)
    (hne : c ≠ sep) : ∃ piece ∈ cs.splitOn sep, c ∈ piece := by
  induction cs with
  | nil => exact absurd hc List.not_mem_nil
  | cons d cs ih =>
      rw [List.splitOn_cons_eq_if_modifyHead]
      obtain ⟨first, others, hsplit⟩ := List.exists_cons_of_ne_nil (List.splitOn_ne_nil sep cs)
      rw [hsplit] at ih ⊢
      rcases List.mem_cons.1 hc with rfl | hc
      · rw [if_neg (by simpa using hne)]
        exact ⟨c :: first, List.mem_cons_self, List.mem_cons_self⟩
      · obtain ⟨piece, hpiece, hmem⟩ := ih hc
        split
        · exact ⟨piece, List.mem_cons_of_mem _ hpiece, hmem⟩
        -- the first piece has become longer
        · rcases List.mem_cons.1 hpiece with rfl | hpiece
          · exact ⟨d :: piece, List.mem_cons_self, List.mem_cons_of_mem d hmem⟩
          · exact ⟨piece, List.mem_cons_of_mem _ hpiece, hmem⟩

/-- A text with anything besides commas and white space has a member. -/
theorem textMembers_ne_nil {s : String} {c : Char} (hc : c ∈ s.toList) (hcomma : c ≠ ',')
    (hows : isOws c = false) : textMembers s ≠ [] := by
  obtain ⟨piece, hpiece, hmem⟩ := exists_mem_splitOn hc hcomma
  have htrim : c ∈ (trimOws (String.ofList piece)).toList :=
    mem_trimOws (by rwa [String.toList_ofList]) hows
  apply List.ne_nil_of_mem (a := trimOws (String.ofList piece))
  rw [textMembers, List.mem_filter, List.mem_map]
  refine ⟨⟨String.ofList piece, List.mem_map_of_mem hpiece, rfl⟩, ?_⟩
  rw [decide_eq_true_eq]
  intro hempty
  rw [hempty] at htrim
  exact absurd htrim List.not_mem_nil

/-- A line that is not readable as text has a member. -/
theorem members_ne_nil_of_toStr {v : HeaderValue} (h : v.toStr = none) : v.members ≠ [] := by
  have hnot : ¬ v.bytes.all isVisibleByte = true := by
    intro hvis
    rw [HeaderValue.toStr, if_pos hvis] at h
    cases h
  rw [List.all_eq_true] at hnot
  push Not at hnot
  obtain ⟨b, hb, hvis⟩ := hnot
  have hvalid := List.all_eq_true.1 v.wf b hb
  -- the byte is beyond ASCII
  have hbig : 128 ≤ b.toNat := by
    simp only [isVisibleByte, isValidByte, Bool.or_eq_true, Bool.and_eq_true, decide_eq_true_eq,
      beq_iff_eq, bne_iff_ne, UInt8.le_iff_toNat_le, UInt8.lt_iff_toNat_lt, ← UInt8.toNat_inj,
      ne_eq, UInt8.reduceToNat] at hvis hvalid
    omega
  have hchar : 128 ≤ (Char.ofNat b.toNat).toNat := by rwa [toNat_ofNat_byte]
  have hother : ∀ d : Char, d.toNat < 128 → Char.ofNat b.toNat ≠ d := by
    rintro d hd rfl
    omega
  refine textMembers_ne_nil (c := Char.ofNat b.toNat) ?_ (hother ',' (by decide)) ?_
  · rw [asciiText, String.toList_ofList]
    exact List.mem_map.2 ⟨b, hb, rfl⟩
  · rw [isOws, Bool.or_eq_false_iff, beq_eq_false_iff_ne, beq_eq_false_iff_ne]
    exact ⟨hother ' ' (by decide), hother '\t' (by decide)⟩

/-! ## Writing lines -/

/-- A character of readable text. -/
def isVisibleChar (c : Char) : Bool := (32 ≤ c.toNat && c.toNat < 127) || c == '\t'

theorem isVisibleChar_of_toStr {v : HeaderValue} {s : String} (h : v.toStr = some s) :
    ∀ c ∈ s.toList, isVisibleChar c = true := by
  obtain ⟨hvis, rfl⟩ := toStr_eq_some h
  intro c hc
  rw [asciiText, String.toList_ofList] at hc
  obtain ⟨b, hb, rfl⟩ := List.mem_map.1 hc
  have hb := List.all_eq_true.1 hvis b hb
  simp only [isVisibleByte, Bool.or_eq_true, Bool.and_eq_true, decide_eq_true_eq,
    beq_iff_eq] at hb
  rw [isVisibleChar, toNat_ofNat_byte]
  rcases hb with ⟨hlow, hhigh⟩ | rfl
  · have h1 : 32 ≤ b.toNat := hlow
    have h2 : b.toNat < 127 := hhigh
    simp [h1, h2]
  · decide

theorem utf8EncodeChar_of_visible {c : Char} (h : isVisibleChar c = true) :
    ∃ b, String.utf8EncodeChar c = [b] ∧ isValidByte b = true ∧ Char.ofNat b.toNat = c := by
  have hall : ∀ n < 127, (32 ≤ n ∨ n = 9) →
      String.utf8EncodeChar (Char.ofNat n) = [UInt8.ofNat n] ∧
        isValidByte (UInt8.ofNat n) = true ∧
        Char.ofNat (UInt8.ofNat n).toNat = Char.ofNat n := by decide
  simp only [isVisibleChar, Bool.or_eq_true, Bool.and_eq_true, decide_eq_true_eq, beq_iff_eq] at h
  refine ⟨UInt8.ofNat c.toNat, ?_⟩
  rcases h with ⟨hlow, hhigh⟩ | rfl
  · have hc := hall c.toNat hhigh (Or.inl hlow)
    rwa [Char.ofNat_toNat] at hc
  · decide

/-- A readable text can be written as a line, and reads as itself. -/
theorem fromStr_of_visible {s : String} (h : ∀ c ∈ s.toList, isVisibleChar c = true) :
    ∃ v, HeaderValue.fromStr s = some v ∧ v.bytes = Text.utf8Bytes s ∧ asciiText v.bytes = s := by
  have hbytes : (Text.utf8Bytes s).all isValidByte = true ∧ asciiText (Text.utf8Bytes s) = s := by
    rw [← String.toList_inj, asciiText, String.toList_ofList, Text.utf8Bytes]
    generalize s.toList = cs at h
    induction cs with
    | nil => exact ⟨rfl, rfl⟩
    | cons c cs ih =>
        obtain ⟨b, hb, hvalid, hchar⟩ := utf8EncodeChar_of_visible (h c List.mem_cons_self)
        obtain ⟨hall, htext⟩ := ih fun d hd => h d (List.mem_cons_of_mem c hd)
        rw [List.flatMap_cons, hb, List.singleton_append, List.all_cons, List.map_cons, hvalid,
          hall, hchar, htext]
        exact ⟨rfl, rfl⟩
  refine ⟨⟨Text.utf8Bytes s, hbytes.1⟩, ?_, rfl, hbytes.2⟩
  rw [HeaderValue.fromStr, dif_pos hbytes.1]

/-- A number is written in readable characters. -/
theorem isVisibleChar_toDigits (base n : Nat) :
    ∀ c ∈ Nat.toDigits base n, isVisibleChar c = true :=
  List.all_eq_true.1 (Text.all_toDigits (by decide) base n)

theorem isVisibleChar_toString (n : Nat) : ∀ c ∈ (toString n).toList, isVisibleChar c = true := by
  rw [Nat.toString_eq_ofList_toDigits, String.toList_ofList]
  exact isVisibleChar_toDigits 10 n

end Elrond.Http
