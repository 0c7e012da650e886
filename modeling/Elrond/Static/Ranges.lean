import Elrond.Static.Selection

/-!
# Single ranges

A range header is a text; what it asks for is a `RangeSpec`, and a file of a size has an answer to it
or none (`RangeSpec.bytes`). `parse_single_range` reads the positions with the number parser of the
host language, after removing blanks around them. So it accepts more texts than the grammar has, and
what it gives is the answer to the text without the blanks, as long as no position has a plus sign
(`parseSingleRange_denoted`). None of its sums and differences leaves 64 bits
(`rangeChecked_eq`), and `serve` sends just the bytes of the range (`serve_range`).
-/

set_option autoImplicit false

namespace Elrond.Static

open Elrond.Lib Elrond.Http Elrond.Request Elrond.Config Elrond.App

/-! ## Ranges -/

/-- What a single byte range asks for. -/
inductive RangeSpec where
  | firstLast (first last : Nat)
  | openEnd (first : Nat)
  | suffix (length : Nat)

/-- The first and the last byte a range selects of `size` bytes, if it selects any. -/
def RangeSpec.bytes (size : Nat) : RangeSpec → Option (Nat × Nat)
  | .firstLast first last =>
      if first ≤ last ∧ first < size then some (first, min last (size - 1)) else none
  | .openEnd first => if first < size then some (first, size - 1) else none
  | .suffix length =>
      if 0 < length ∧ 0 < size then some (size - min length size, size - 1) else none

/-- Digits that denote a position. -/
def Position (ds : List Char) (n : Nat) : Prop :=
  ds ≠ [] ∧ ds.all Text.isAsciiDigit = true ∧ Text.decimalValue ds = n

/-- The grammar of a header with one byte range. -/
def Denotes (raw : String) : RangeSpec → Prop
  | .firstLast first last => ∃ a b, raw = "bytes=" ++ a ++ "-" ++ b ∧
      Position a.toList first ∧ Position b.toList last
  | .openEnd first => ∃ a, raw = "bytes=" ++ a ++ "-" ∧ Position a.toList first
  | .suffix length => ∃ b, raw = "bytes=-" ++ b ∧ Position b.toList length

/-- The bytes that a header selects of `size` bytes, by the grammar. -/
def Selects (raw : String) (size : Nat) (range : Nat × Nat) : Prop :=
  ∃ spec, Denotes raw spec ∧ spec.bytes size = some range

/-- The other text is this one without the blanks around its positions. -/
def Unblanked (raw tidy : String) : Prop :=
  ∃ a b, raw = "bytes=" ++ a ++ "-" ++ b ∧ '-' ∉ a.toList ∧
    tidy = "bytes=" ++ Text.trim a ++ "-" ++ Text.trim b

/-- A range that is selected lies within the bytes. -/
theorem RangeSpec.bytes_bounds {spec : RangeSpec} {size start stop : Nat}
    (h : spec.bytes size = some (start, stop)) : start ≤ stop ∧ stop < size := by
  cases spec with
  | firstLast first last =>
      rw [RangeSpec.bytes] at h
      split at h
      · next hfits =>
        obtain ⟨rfl, rfl⟩ := Prod.mk.inj (Option.some.inj h)
        omega
      · cases h
  | openEnd first =>
      rw [RangeSpec.bytes] at h
      split at h
      · next hfits =>
        obtain ⟨rfl, rfl⟩ := Prod.mk.inj (Option.some.inj h)
        omega
      · cases h
  | suffix length =>
      rw [RangeSpec.bytes] at h
      split at h
      · next hfits =>
        obtain ⟨rfl, rfl⟩ := Prod.mk.inj (Option.some.inj h)
        omega
      · cases h

/-! ## `parse_single_range` -/

/-- The three forms that are read, with the numbers that the parser of the host language makes of
the positions. -/
inductive ReadAs (a b : String) : RangeSpec → Prop
  | suffix {n : Nat} (ha : Text.trim a = "") (hb : Text.parseUnsigned 64 (Text.trim b) = some n) :
      ReadAs a b (.suffix n)
  | openEnd {n : Nat} (hb : Text.trim b = "")
      (ha : Text.parseUnsigned 64 (Text.trim a) = some n) : ReadAs a b (.openEnd n)
  | firstLast {n m : Nat} (ha : Text.parseUnsigned 64 (Text.trim a) = some n)
      (hb : Text.parseUnsigned 64 (Text.trim b) = some m) : ReadAs a b (.firstLast n m)

/-- What is read is the answer to one of the three forms. -/
theorem parseSingleRange_read {raw : String} {size : Nat} {range : Nat × Nat}
    (h : parseSingleRange raw size = some range) :
    ∃ a b spec, raw = "bytes=" ++ a ++ "-" ++ b ∧ '-' ∉ a.toList ∧ ReadAs a b spec ∧
      spec.bytes size = some range := by
  rw [parseSingleRange] at h
  obtain ⟨rest, hrest, h⟩ := Option.bind_eq_some_iff.1 h
  split at h
  · cases h
  obtain ⟨⟨a, b⟩, hsplit, h⟩ := Option.bind_eq_some_iff.1 h
  obtain ⟨hlist, hnot⟩ := Text.splitOnce_eq_some.1 hsplit
  have hraw : raw = "bytes=" ++ a ++ "-" ++ b := by
    rw [Text.stripPrefix_eq_some.1 hrest, ← String.toList_inj]
    simp [hlist]
  simp only at h
  split at h
  · cases h
  next hsize =>
  split at h
  · next ha =>
    obtain ⟨n, hn, h⟩ := Option.bind_eq_some_iff.1 h
    refine ⟨a, b, .suffix n, hraw, hnot, .suffix ha hn, ?_⟩
    split at h
    · cases h
    · rw [RangeSpec.bytes, if_pos (by omega)]
      exact h
  split at h
  · next hb =>
    obtain ⟨n, hn, h⟩ := Option.bind_eq_some_iff.1 h
    refine ⟨a, b, .openEnd n, hraw, hnot, .openEnd hb hn, ?_⟩
    split at h
    · cases h
    · rw [RangeSpec.bytes, if_pos (by omega)]
      exact h
  · obtain ⟨n, hn, h⟩ := Option.bind_eq_some_iff.1 h
    obtain ⟨m, hm, h⟩ := Option.bind_eq_some_iff.1 h
    refine ⟨a, b, .firstLast n m, hraw, hnot, .firstLast hn hm, ?_⟩
    split at h
    · cases h
    · next hfits =>
      have hboth : n ≤ m ∧ n < size := by simpa using hfits
      rw [RangeSpec.bytes, if_pos hboth]
      exact h

/-- A number without a plus sign is its digits. -/
theorem position_of_parseUnsigned {t : String} {n : Nat} (h : Text.parseUnsigned 64 t = some n)
    (hplus : '+' ∉ t.toList) : Position t.toList n := by
  obtain ⟨ds, rfl | hds, hne, hdigits, hvalue, -⟩ := Text.parseUnsigned_eq_some.1 h
  · exact ⟨hne, hdigits, hvalue⟩
  · rw [hds] at hplus
    exact absurd List.mem_cons_self hplus

theorem mem_of_mem_trim {s : String} {c : Char} (h : c ∈ (Text.trim s).toList) : c ∈ s.toList := by
  rw [Text.trim, String.toList_ofList] at h
  exact (List.dropWhile_sublist _).subset ((List.rdropWhile_prefix _ _).subset h)

/-- A header without a plus sign selects what it says when the blanks are left out. -/
theorem parseSingleRange_denoted {raw : String} {size : Nat} {range : Nat × Nat}
    (h : parseSingleRange raw size = some range) (hplus : '+' ∉ raw.toList) :
    ∃ tidy, Unblanked raw tidy ∧ Selects tidy size range := by
  obtain ⟨a, b, spec, hraw, hnot, hread, hbytes⟩ := parseSingleRange_read h
  have hplusA : '+' ∉ (Text.trim a).toList := by
    intro hmem
    apply hplus
    rw [hraw]
    simp [mem_of_mem_trim hmem]
  have hplusB : '+' ∉ (Text.trim b).toList := by
    intro hmem
    apply hplus
    rw [hraw]
    simp [mem_of_mem_trim hmem]
  refine ⟨_, ⟨a, b, hraw, hnot, rfl⟩, spec, ?_, hbytes⟩
  cases hread with
  | suffix ha hb =>
      refine ⟨Text.trim b, ?_, position_of_parseUnsigned hb hplusB⟩
      rw [ha]
      rfl
  | openEnd hb ha =>
      refine ⟨Text.trim a, ?_, position_of_parseUnsigned ha hplusA⟩
      rw [hb, String.append_empty]
  | firstLast ha hb =>
      exact ⟨Text.trim a, Text.trim b, rfl, position_of_parseUnsigned ha hplusA,
        position_of_parseUnsigned hb hplusB⟩

theorem parseSingleRange_bounds {raw : String} {size start stop : Nat}
    (h : parseSingleRange raw size = some (start, stop)) : start ≤ stop ∧ stop < size := by
  obtain ⟨a, b, spec, -, -, -, hbytes⟩ := parseSingleRange_read h
  exact RangeSpec.bytes_bounds hbytes

/-- A part that is selected lies within the file. -/
theorem selection_part_bounds {md : Metadata} {headers : HeaderMap} {start stop : Nat}
    (h : selection md headers = .part start stop) : start ≤ stop ∧ stop < md.len.toNat := by
  obtain ⟨raw, -, hraw⟩ := selection_part h
  exact parseSingleRange_bounds hraw

/-! ## Arithmetic in 64 bits -/

/-- A difference of 64-bit numbers, unless it would be negative. -/
def sub64 (a b : Nat) : Option Nat := if b ≤ a then some (a - b) else none

/-- A sum of 64-bit numbers, unless it is too large. -/
def add64 (a b : Nat) : Option Nat := if a + b < 2 ^ 64 then some (a + b) else none

/-- `parse_single_range`, and the length that `serve` computes from it, where every sum and every
difference has to stay within 64 bits. -/
def rangeChecked (raw : String) (size : Nat) : Option (Option (Nat × Nat × Nat)) :=
  let answer (start stop : Option Nat) : Option (Option (Nat × Nat × Nat)) := do
    let start ← start
    let stop ← stop
    let span ← sub64 stop start
    let length ← add64 span 1
    some (some (start, stop, length))
  match Text.stripPrefix "bytes=" raw with
  | none => some none
  | some rest =>
      if rest.toList.contains ',' then some none
      else
        match Text.splitOnce '-' rest with
        | none => some none
        | some (a, b) =>
            let a := Text.trim a
            let b := Text.trim b
            if size = 0 then some none
            else if a = "" then
              match Text.parseUnsigned 64 b with
              | none => some none
              | some n =>
                  if n = 0 then some none else answer (sub64 size (min n size)) (sub64 size 1)
            else if b = "" then
              match Text.parseUnsigned 64 a with
              | none => some none
              | some start =>
                  if start ≥ size then some none else answer (some start) (sub64 size 1)
            else
              match Text.parseUnsigned 64 a, Text.parseUnsigned 64 b with
              | some start, some stop =>
                  if start > stop || start ≥ size then some none
                  else answer (some start) ((sub64 size 1).map (min stop))
              | _, _ => some none

/-- Of a file whose size fits in 64 bits, no range leaves them. -/
theorem rangeChecked_eq (raw : String) {size : Nat} (hsize : size < 2 ^ 64) :
    rangeChecked raw size =
      some ((parseSingleRange raw size).map fun r => (r.1, r.2, r.2 - r.1 + 1)) := by
  rw [rangeChecked, parseSingleRange]
  cases Text.stripPrefix "bytes=" raw with
  | none => rfl
  | some rest =>
      simp only [Option.bind_eq_bind, Option.bind_some]
      by_cases hcomma : rest.toList.contains ',' = true
      · rw [if_pos hcomma, if_pos hcomma, Option.map_none]
      rw [if_neg hcomma, if_neg hcomma]
      cases Text.splitOnce '-' rest with
      | none => rfl
      | some parts =>
          obtain ⟨a, b⟩ := parts
          simp only [Option.bind_some]
          by_cases hzero : size = 0
          · rw [if_pos hzero, if_pos hzero, Option.map_none]
          rw [if_neg hzero, if_neg hzero]
          have hlast : sub64 size 1 = some (size - 1) := if_pos (by omega)
          by_cases ha : Text.trim a = ""
          · rw [if_pos ha, if_pos ha]
            cases Text.parseUnsigned 64 (Text.trim b) with
            | none => rfl
            | some n =>
                by_cases hn : n = 0
                · simp [hn]
                · have hfirst : sub64 size (min n size) = some (size - min n size) :=
                    if_pos (Nat.min_le_right n size)
                  have hspan : sub64 (size - 1) (size - min n size) =
                      some (size - 1 - (size - min n size)) := if_pos (by omega)
                  have hlength : add64 (size - 1 - (size - min n size)) 1 =
                      some (size - 1 - (size - min n size) + 1) := if_pos (by omega)
                  simp [hn, hfirst, hlast, hspan, hlength]
          rw [if_neg ha, if_neg ha]
          by_cases hb : Text.trim b = ""
          · rw [if_pos hb, if_pos hb]
            cases Text.parseUnsigned 64 (Text.trim a) with
            | none => rfl
            | some n =>
                by_cases hn : n ≥ size
                · simp [hn]
                · have hspan : sub64 (size - 1) n = some (size - 1 - n) := if_pos (by omega)
                  have hlength : add64 (size - 1 - n) 1 = some (size - 1 - n + 1) :=
                    if_pos (by omega)
                  simp [hn, hlast, hspan, hlength]
          rw [if_neg hb, if_neg hb]
          cases Text.parseUnsigned 64 (Text.trim a) with
          | none => rfl
          | some n =>
              cases Text.parseUnsigned 64 (Text.trim b) with
              | none => rfl
              | some m =>
                  by_cases hn : n > m ∨ n ≥ size
                  · simp [hn]
                  · have hspan : sub64 (min m (size - 1)) n = some (min m (size - 1) - n) :=
                      if_pos (by omega)
                    have hlength : add64 (min m (size - 1) - n) 1 =
                        some (min m (size - 1) - n + 1) := if_pos (by omega)
                    simp [hn, hlast, hspan, hlength]

/-! ## The response -/

/-- A response with just the bytes of a range; to `HEAD` it has no body. -/
structure AnswersRange (response : Response) (method : Method) (content : Bytes)
    (start stop : Nat) : Prop where
  status : response.status = 206
  body : response.body = full (if method = .head then [] else slice content start stop)
  length : HasOnly response.headers "content-length" (toString (stop - start + 1))
  range : HasOnly response.headers "content-range" (rangeText start stop content.length)

section Environment

variable {σ : Type} {answer : σ → (q : Access) → q.Answer × σ}

/-- A request for a range that the file has, and that is not answered with 304, is answered with the
range. -/
theorem run_serve_range {root : String} {kind : StaticKind} {reqPath path : String} {md : Metadata}
    {content : Bytes} (hfile : Unchanged answer path md content)
    (hpath : Resolves answer root kind reqPath md path) {headers : HeaderMap} {raw : String}
    (hraw : rangeHeader headers = some raw)
    (hetag : (etagOf md).filter (matchesEtag headers) = none) {start stop : Nat}
    (hrange : parseSingleRange raw content.length = some (start, stop)) (hle : start ≤ stop)
    (hstop : stop < content.length) (method : Method) (autoindex : Bool) (s : σ) :
    AnswersRange ((serve root kind reqPath headers method autoindex).run answer s).1 method content
      start stop := by
  obtain ⟨s', hs'⟩ := run_serve hfile.stat hpath headers method autoindex s
  have hselection : selection md headers = .part start stop := by
    simp only [selection, hetag, hraw, Option.bind_some, hfile.len, hrange]
  rw [hs', serveFile_eq, hselection, hfile.run_serveRange hle hstop]
  have hlength := hasOnly_rangeHeaders_length path md (etagOf md) start stop
  have hcontentRange := hasOnly_rangeHeaders_range path md (etagOf md) start stop
  rw [hfile.len] at hcontentRange
  exact ⟨rfl, rfl, hlength, hcontentRange⟩

end Environment

/-- **Single ranges.** For every header value and every size of a file, what `parse_single_range`
gives lies within the file, and without a plus sign in the header it is what the header without its
blanks selects by the grammar. No sum or difference on the way leaves 64 bits. And `serve` answers a
request with such a header for an unchanged file, unless with 304, with just these bytes, their
number and their position. -/
theorem single_range (raw : String) (size : Nat) (hsize : size < 2 ^ 64) :
    rangeChecked raw size =
        some ((parseSingleRange raw size).map fun r => (r.1, r.2, r.2 - r.1 + 1)) ∧
      ∀ start stop, parseSingleRange raw size = some (start, stop) →
        (start ≤ stop ∧ stop < size) ∧
        ('+' ∉ raw.toList → ∃ tidy, Unblanked raw tidy ∧ Selects tidy size (start, stop)) ∧
        ∀ (σ : Type) (answer : σ → (q : Access) → q.Answer × σ) (root : String)
          (kind : StaticKind) (reqPath path : String) (md : Metadata) (content : Bytes)
          (headers : HeaderMap) (method : Method) (autoindex : Bool) (s : σ),
          Unchanged answer path md content → content.length = size →
          Resolves answer root kind reqPath md path → rangeHeader headers = some raw →
          (etagOf md).filter (matchesEtag headers) = none →
          AnswersRange ((serve root kind reqPath headers method autoindex).run answer s).1 method
            content start stop := by
  refine ⟨rangeChecked_eq raw hsize, ?_⟩
  intro start stop h
  have hbounds := parseSingleRange_bounds h
  refine ⟨hbounds, parseSingleRange_denoted h, ?_⟩
  rintro σ answer root kind reqPath path md content headers method autoindex s hfile rfl hpath hraw
    hetag
  exact run_serve_range hfile hpath hraw hetag h hbounds.1 hbounds.2 method autoindex s

/-- Ten bytes. -/
def tenBytes : Bytes := [48, 49, 50, 51, 52, 53, 54, 55, 56, 57]

/-- A file system where every path is a file with the ten bytes. -/
def tenFiles : Unit → (q : Access) → q.Answer × Unit
  | _, .stat _ => (.ok ⟨false, true, 10, some 1⟩, ())
  | _, .read _ => (.ok tenBytes, ())
  | _, .readRange _ start length => (.ok ((tenBytes.drop start).take length), ())
  | _, .list _ => (.ok [], ())
  | _, .entryType _ _ => (.ok false, ())

theorem isHeaderName_range : isHeaderName "range" = true := by decide

/-- The header of a request for all but two bytes. -/
def fromThird : HeaderMap := withHeader ∅ ⟨"range", isHeaderName_range⟩ "bytes=2-"

/-- The last eight of the ten bytes, by the grammar and in the answer of `serve`. -/
theorem single_range_prefix :
    (∃ tidy, Unblanked "bytes=2-" tidy ∧ Selects tidy 10 (2, 9)) ∧
      AnswersRange ((serve "srv" .root "/ten" fromThird .get false).run tenFiles ()).1 .get tenBytes
        2 9 := by
  obtain ⟨-, hselects, hanswers⟩ := (single_range "bytes=2-" 10 (by decide)).2 2 9 (by decide)
  refine ⟨hselects (by decide), ?_⟩
  have hfile : Unchanged tenFiles (Path.join "srv" (relativePath .root "/ten"))
      ⟨false, true, 10, some 1⟩ tenBytes :=
    ⟨fun _ => rfl, rfl, fun _ => rfl, fun _ _ _ _ => rfl⟩
  exact hanswers Unit tenFiles "srv" .root "/ten" _ _ tenBytes fromThird .get false () hfile rfl
    (.file (by decide +kernel) rfl) (by decide +kernel) (by decide +kernel)

/-- What follows the unit in a header of the grammar is a digit or a dash. -/
theorem Denotes.head {raw : String} {spec : RangeSpec} (h : Denotes raw spec) :
    ∃ c rest, raw.toList = "bytes=".toList ++ c :: rest ∧
      (Text.isAsciiDigit c = true ∨ c = '-') := by
  have hdigit : ∀ {a : String} {n : Nat}, Position a.toList n →
      ∃ c rest, a.toList = c :: rest ∧ Text.isAsciiDigit c = true := by
    intro a n ha
    cases hlist : a.toList with
    | nil => exact absurd hlist ha.1
    | cons c rest =>
        have hall := List.all_eq_true.1 ha.2.1
        rw [hlist] at hall
        exact ⟨c, rest, rfl, hall c List.mem_cons_self⟩
  cases spec with
  | firstLast first last =>
      obtain ⟨a, b, rfl, ha, -⟩ := h
      obtain ⟨c, rest, hlist, hc⟩ := hdigit ha
      refine ⟨c, rest ++ '-' :: b.toList, ?_, Or.inl hc⟩
      simp [hlist]
  | openEnd first =>
      obtain ⟨a, rfl, ha⟩ := h
      obtain ⟨c, rest, hlist, hc⟩ := hdigit ha
      refine ⟨c, rest ++ ['-'], ?_, Or.inl hc⟩
      simp [hlist]
  | suffix length =>
      obtain ⟨b, rfl, -⟩ := h
      exact ⟨'-', b.toList, by simp, Or.inr rfl⟩

/-- Blanks around the positions are accepted, where the grammar has none. -/
theorem blanks_are_accepted :
    parseSingleRange "bytes= 0 - 1" 10 = some (0, 1) ∧ ¬ Selects "bytes= 0 - 1" 10 (0, 1) := by
  refine ⟨by decide, ?_⟩
  rintro ⟨spec, hdenotes, -⟩
  obtain ⟨c, rest, hlist, hc⟩ := hdenotes.head
  have hraw : "bytes= 0 - 1".toList = "bytes=".toList ++ ' ' :: "0 - 1".toList := rfl
  rw [hraw] at hlist
  obtain ⟨rfl, -⟩ := List.cons.inj (List.append_cancel_left hlist)
  exact absurd hc (by decide)

end Elrond.Static
