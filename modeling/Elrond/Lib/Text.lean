import Mathlib.Data.List.DropRight
import Mathlib.Tactic

/-!
# Text, numbers and durations of the host language

Strings are Lean strings; a function that walks a text does so over its list of characters. The
definitions follow the documented behaviour of the `str` methods and of the integer parsers of the
Rust standard library, under the same words.

The splitting lemmas at the end say when a concatenation determines its parts: equal
concatenations differ by moving a piece of text over the boundary (`append_eq_append_cases`), and a
separator that does not occur in the first parts pins the boundary (`append_cons_inj_of_notMem`).
-/

set_option autoImplicit false

namespace Elrond.Lib.Text

/-! ## Taking texts apart -/

/-- `str::strip_prefix`. -/
def stripPrefix (p s : String) : Option String :=
  (p.toList.isPrefixOf? s.toList).map String.ofList

/-- `str::trim_end_matches` for a single character. -/
def trimEndMatches (c : Char) (s : String) : String :=
  String.ofList (s.toList.rdropWhile (· == c))

/-- `str::trim_start_matches` for a single character. -/
def trimStartMatches (c : Char) (s : String) : String :=
  String.ofList (s.toList.dropWhile (· == c))

/-- `str::split` at a single character: one piece more than there are separators. -/
def split (c : Char) (s : String) : List String :=
  (s.toList.splitOn c).map String.ofList

/-- `str::split_once` at a single character. -/
def splitOnce (c : Char) (s : String) : Option (String × String) :=
  match s.toList.span (· != c) with
  | (_, []) => none
  | (before, _ :: after) => some (String.ofList before, String.ofList after)

/-- A text is split at the first occurrence of the character. -/
theorem splitOnce_eq_some {c : Char} {s a b : String} :
    splitOnce c s = some (a, b) ↔ s.toList = a.toList ++ c :: b.toList ∧ c ∉ a.toList := by
  rw [splitOnce, List.span_eq_takeWhile_dropWhile]
  constructor
  · intro h
    have hbefore := List.all_takeWhile (p := (· != c)) (l := s.toList)
    have hsplit := List.takeWhile_append_dropWhile (p := (· != c)) (l := s.toList)
    have hhead := List.head?_dropWhile_not (· != c) s.toList
    cases hrest : s.toList.dropWhile (· != c) with
    | nil =>
        rw [hrest] at h
        cases h
    | cons d rest =>
        rw [hrest] at h hsplit hhead
        obtain ⟨rfl, rfl⟩ := Prod.mk.inj (Option.some.inj h)
        obtain rfl : d = c := by simpa using hhead
        rw [String.toList_ofList, String.toList_ofList]
        refine ⟨hsplit.symm, ?_⟩
        intro hmem
        simpa using (List.all_eq_true.1 hbefore) d hmem
  · rintro ⟨hs, hnot⟩
    have hall : ∀ d ∈ a.toList, (d != c) = true := by
      intro d hd
      rw [bne_iff_ne]
      rintro rfl
      exact hnot hd
    have htake : (c :: b.toList).takeWhile (· != c) = [] := List.takeWhile_cons_of_neg (by simp)
    have hdrop : (c :: b.toList).dropWhile (· != c) = c :: b.toList :=
      List.dropWhile_cons_of_neg (by simp)
    rw [hs, List.takeWhile_append_of_pos hall, List.dropWhile_append_of_pos hall, htake, hdrop,
      List.append_nil]
    show some (String.ofList a.toList, String.ofList b.toList) = some (a, b)
    rw [String.ofList_toList, String.ofList_toList]

/-- Take a list apart at the first occurrence of a pattern. -/
def splitOnceList (pat : List Char) : List Char → Option (List Char × List Char)
  | [] => (pat.isPrefixOf? []).map fun rest => ([], rest)
  | c :: cs =>
      match pat.isPrefixOf? (c :: cs) with
      | some rest => some ([], rest)
      | none => (splitOnceList pat cs).map fun p => (c :: p.1, p.2)

/-- `str::split_once` at a text. -/
def splitOnceStr (pat s : String) : Option (String × String) :=
  (splitOnceList pat.toList s.toList).map fun p => (String.ofList p.1, String.ofList p.2)

/-- The Unicode `White_Space` property, which `str::trim` removes at both ends. -/
def isWhitespace (c : Char) : Bool :=
  let n := c.toNat
  (9 ≤ n && n ≤ 13) || n == 32 || n == 0x85 || n == 0xA0 || n == 0x1680 ||
    (0x2000 ≤ n && n ≤ 0x200A) || n == 0x2028 || n == 0x2029 || n == 0x202F ||
    n == 0x205F || n == 0x3000

/-- `str::trim`. -/
def trim (s : String) : String :=
  String.ofList ((s.toList.dropWhile isWhitespace).rdropWhile isWhitespace)

/-- `str::replace` of a character. -/
def replace (c : Char) (new s : String) : String :=
  String.ofList (s.toList.flatMap fun d => if d = c then new.toList else [d])

/-- `str::to_ascii_lowercase`. -/
def toAsciiLowercase (s : String) : String :=
  String.ofList (s.toList.map Char.toLower)

/-- The bytes of a text in UTF-8, as `str::as_bytes` shows them. -/
def utf8Bytes (s : String) : List UInt8 :=
  s.toList.flatMap String.utf8EncodeChar

/-! ## Numbers -/

/-- `u8::is_ascii_digit` on characters. -/
def isAsciiDigit (c : Char) : Bool := '0' ≤ c && c ≤ '9'

/-- The value of one decimal digit. -/
def digitValue (c : Char) : Nat := c.toNat - '0'.toNat

/-- The number a list of decimal digits denotes. -/
def decimalValue (ds : List Char) : Nat :=
  ds.foldl (fun n c => 10 * n + digitValue c) 0

/-- `str::parse` for an unsigned integer type of `bits` bits: an optional `+`, at least one
decimal digit, nothing else, and a value that fits. -/
def parseUnsigned (bits : Nat) (s : String) : Option Nat :=
  let ds := match s.toList with
    | '+' :: rest => rest
    | cs => cs
  if ds.isEmpty then none
  else if ds.all isAsciiDigit then
    if decimalValue ds < 2 ^ bits then some (decimalValue ds) else none
  else none

/-- What is read as a number is decimal digits, perhaps behind a plus sign. -/
theorem parseUnsigned_eq_some {bits : Nat} {t : String} {n : Nat} :
    parseUnsigned bits t = some n ↔
      ∃ ds, (t.toList = ds ∨ t.toList = '+' :: ds) ∧ ds ≠ [] ∧
        ds.all isAsciiDigit = true ∧ decimalValue ds = n ∧ n < 2 ^ bits := by
  have hread : ∀ ds : List Char,
      ((if ds.isEmpty then none
        else if ds.all isAsciiDigit then
          if decimalValue ds < 2 ^ bits then some (decimalValue ds) else none
        else none) = some n) ↔
      ds ≠ [] ∧ ds.all isAsciiDigit = true ∧ decimalValue ds = n ∧ n < 2 ^ bits := by
    intro ds
    by_cases hempty : ds = []
    · simp [hempty]
    · simp only [List.isEmpty_iff, hempty]
      grind
  rw [parseUnsigned]
  split
  · next rest hsign =>
    rw [hread, hsign]
    constructor
    · intro h
      exact ⟨rest, Or.inr rfl, h⟩
    · rintro ⟨ds, rfl | hds, h⟩
      -- the sign is no digit
      · have hplus : isAsciiDigit '+' = true := (List.all_eq_true.1 h.2.1) '+' (by simp)
        exact absurd hplus (by decide)
      · rwa [(List.cons.inj hds).2]
  · next hsign =>
    rw [hread]
    constructor
    · intro h
      exact ⟨t.toList, Or.inl rfl, h⟩
    · rintro ⟨ds, rfl | hds, h⟩
      · exact h
      · exact absurd hds (hsign ds)

/-- The characters that `Nat.toDigits` writes. -/
def digitChars : List Char := "0123456789abcdef*".toList

theorem digitChar_mem (n : Nat) : Nat.digitChar n ∈ digitChars := by
  have hall : (List.range 16).all (fun n => digitChars.contains (Nat.digitChar n)) = true := by
    decide
  by_cases hn : n < 16
  · exact List.contains_iff_mem.1 (List.all_eq_true.1 hall n (List.mem_range.2 hn))
  -- beyond the digits there is a star
  · have hstar : Nat.digitChar n = '*' := by
      unfold Nat.digitChar
      repeat rw [if_neg (by omega)]
    rw [hstar]
    decide

theorem toDigitsCore_subset (base fuel : Nat) :
    ∀ (n : Nat) (ds : List Char), ds ⊆ digitChars →
      Nat.toDigitsCore base fuel n ds ⊆ digitChars := by
  induction fuel with
  | zero =>
      intro n ds hds
      exact hds
  | succ fuel ih =>
      intro n ds hds
      have hcons : Nat.digitChar (n % base) :: ds ⊆ digitChars :=
        List.cons_subset.2 ⟨digitChar_mem _, hds⟩
      rw [Nat.toDigitsCore]
      split
      · exact hcons
      · exact ih _ _ hcons

/-- What holds of the digits holds of every character of a number. -/
theorem all_toDigits {p : Char → Bool} (hp : digitChars.all p = true) (base n : Nat) :
    (Nat.toDigits base n).all p = true := by
  rw [List.all_eq_true] at hp ⊢
  intro c hc
  exact hp c (toDigitsCore_subset base _ n [] (List.nil_subset _) hc)

/-! ## Durations -/

/-- A span of time, in nanoseconds. -/
abbrev Duration := Nat

/-- `Duration::from_secs`. -/
def fromSecs (n : Nat) : Duration := n * 1000000000

/-- `Duration::from_millis`. -/
def fromMillis (n : Nat) : Duration := n * 1000000

/-- `Duration::as_millis`. -/
def asMillis (d : Duration) : Nat := d / 1000000

/-! ## Prefixes -/

theorem isPrefixOf?_eq_some {α : Type*} [BEq α] [LawfulBEq α] :
    ∀ {p s t : List α}, p.isPrefixOf? s = some t ↔ s = p ++ t
  | [], s, t => by simp [List.isPrefixOf?]
  | _ :: _, [], t => by simp [List.isPrefixOf?]
  | a :: p, b :: s, t => by
      by_cases hab : a = b
      · subst hab
        simp [List.isPrefixOf?, isPrefixOf?_eq_some (p := p) (s := s) (t := t)]
      · have hba : ¬ b = a := fun h => hab h.symm
        simp [List.isPrefixOf?, hab, hba]

/-- Stripping succeeds exactly on the texts that start with the prefix, and gives the rest. -/
theorem stripPrefix_eq_some {p s t : String} : stripPrefix p s = some t ↔ s = p ++ t := by
  constructor
  · intro h
    obtain ⟨l, hl, rfl⟩ := Option.map_eq_some_iff.1 h
    rw [isPrefixOf?_eq_some] at hl
    rw [← String.toList_inj, hl, String.toList_append, String.toList_ofList]
  · rintro rfl
    have h : p.toList.isPrefixOf? (p ++ t).toList = some t.toList := by
      rw [isPrefixOf?_eq_some, String.toList_append]
    rw [stripPrefix, h, Option.map_some, String.ofList_toList]

@[simp] theorem stripPrefix_append (p t : String) : stripPrefix p (p ++ t) = some t :=
  stripPrefix_eq_some.2 rfl

theorem stripPrefix_eq_none {p s : String} : stripPrefix p s = none ↔ ∀ t, s ≠ p ++ t := by
  constructor
  · rintro h t rfl
    simp at h
  · intro h
    cases hs : stripPrefix p s with
    | none => rfl
    | some t => exact absurd (stripPrefix_eq_some.1 hs) (h t)

/-! ## Trimming the end -/

theorem trimEndMatches_trimEndMatches (c : Char) (s : String) :
    trimEndMatches c (trimEndMatches c s) = trimEndMatches c s := by
  simp only [trimEndMatches, String.toList_ofList]
  rw [List.rdropWhile_idempotent]

/-- Trimming stops inside the last part unless it consumes that part whole. -/
theorem trimEndMatches_append (c : Char) (a b : String) :
    trimEndMatches c (a ++ b) =
      if trimEndMatches c b = "" then trimEndMatches c a else a ++ trimEndMatches c b := by
  rw [← String.toList_inj]
  have hempty : trimEndMatches c b = "" ↔ List.dropWhile (· == c) b.toList.reverse = [] := by
    rw [← String.toList_inj]
    simp [trimEndMatches, List.rdropWhile]
  by_cases h : List.dropWhile (· == c) b.toList.reverse = []
  · rw [if_pos (hempty.2 h)]
    simp [trimEndMatches, List.rdropWhile, List.dropWhile_append, h]
  · rw [if_neg (mt hempty.1 h)]
    simp [trimEndMatches, List.rdropWhile, List.dropWhile_append, h]

/-! ## When a concatenation determines its parts -/

/-- Two equal concatenations differ by a piece moved over the boundary, in one direction or the
other. -/
theorem append_eq_append_cases {a b c d : String} (h : a ++ b = c ++ d) :
    (∃ x, c = a ++ x ∧ b = x ++ d) ∨ (∃ x, a = c ++ x ∧ d = x ++ b) := by
  have hl : a.toList ++ b.toList = c.toList ++ d.toList := by
    rw [← String.toList_append, ← String.toList_append, h]
  rcases List.append_eq_append_iff.1 hl with ⟨x, hc, hb⟩ | ⟨x, ha, hd⟩
  · refine Or.inl ⟨String.ofList x, ?_, ?_⟩
    · rw [← String.toList_inj, String.toList_append, String.toList_ofList, hc]
    · rw [← String.toList_inj, String.toList_append, String.toList_ofList, hb]
  · refine Or.inr ⟨String.ofList x, ?_, ?_⟩
    · rw [← String.toList_inj, String.toList_append, String.toList_ofList, ha]
    · rw [← String.toList_inj, String.toList_append, String.toList_ofList, hd]

theorem append_left_cancel {a b c : String} (h : a ++ b = a ++ c) : b = c := by
  rw [← String.toList_inj] at h ⊢
  simpa using h

theorem append_eq_self {a x : String} (h : a ++ x = a) : x = "" := by
  rw [← String.toList_inj] at h ⊢
  simpa using h

/-- A separator that does not occur in the first parts marks the boundary. -/
theorem append_cons_inj_of_notMem {α : Type*} {sep : α} :
    ∀ {a b c d : List α}, sep ∉ a → sep ∉ c → a ++ sep :: b = c ++ sep :: d → a = c ∧ b = d
  | [], b, [], d, _, _, h => by simpa using h
  | [], b, y :: c, d, _, hc, h => by
      simp only [List.nil_append, List.cons_append, List.cons.injEq] at h
      exact absurd (h.1 ▸ List.mem_cons_self) hc
  | x :: a, b, [], d, ha, _, h => by
      simp only [List.nil_append, List.cons_append, List.cons.injEq] at h
      exact absurd (h.1 ▸ List.mem_cons_self) ha
  | x :: a, b, y :: c, d, ha, hc, h => by
      simp only [List.cons_append, List.cons.injEq] at h
      simp only [List.mem_cons, not_or] at ha hc
      obtain ⟨rfl, h⟩ := h
      obtain ⟨rfl, rfl⟩ := append_cons_inj_of_notMem ha.2 hc.2 h
      exact ⟨rfl, rfl⟩

end Elrond.Lib.Text
