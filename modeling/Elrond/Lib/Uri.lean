import Mathlib.Data.List.Basic

/-!
# Paths of URIs

The syntax-based normalisation of RFC 3986 for the path of a URI, the resolution of a relative path
against a base, and percent-decoding. A path is a list of characters. Normalisation decodes the
percent-encoded unreserved characters and removes the segments `.` and `..`; resolution puts the
reference in the place of the last segment of the base and removes these segments too. A reference
that is a plain segment is appended to the directory of the base (`resolvePath_segment`).
-/

set_option autoImplicit false

namespace Elrond.Lib.Uri

/-! ## Percent-encoding -/

/-- The unreserved characters. -/
def isUnreserved (c : Char) : Bool :=
  c.isAlphanum || c == '-' || c == '.' || c == '_' || c == '~'

/-- The value of a hexadecimal digit of either case. -/
def hexValue (c : Char) : Option Nat :=
  if '0' ≤ c && c ≤ '9' then some (c.toNat - '0'.toNat)
  else if 'a' ≤ c && c ≤ 'f' then some (c.toNat - 'a'.toNat + 10)
  else if 'A' ≤ c && c ≤ 'F' then some (c.toNat - 'A'.toNat + 10)
  else none

/-- The character that a percent sign and two characters encode, if it is an unreserved one. -/
def encodedUnreserved (h l : Char) : Option Char :=
  match hexValue h, hexValue l with
  | some a, some b =>
      let c := Char.ofNat (16 * a + b)
      if isUnreserved c then some c else none
  | _, _ => none

/-- Decode the percent-encoded unreserved characters, and nothing else. -/
def decodeUnreserved : List Char → List Char
  | '%' :: h :: l :: rest =>
      match encodedUnreserved h l with
      | some c => c :: decodeUnreserved rest
      | none => '%' :: decodeUnreserved (h :: l :: rest)
  | c :: rest => c :: decodeUnreserved rest
  | [] => []

/-- Percent-decoding: a percent sign with two hexadecimal digits is the byte they denote, every other
character is its UTF-8 bytes. -/
def percentDecode : List Char → List UInt8
  | '%' :: h :: l :: rest =>
      match hexValue h, hexValue l with
      | some a, some b => UInt8.ofNat (16 * a + b) :: percentDecode rest
      | _, _ => String.utf8EncodeChar '%' ++ percentDecode (h :: l :: rest)
  | c :: rest => String.utf8EncodeChar c ++ percentDecode rest
  | [] => []

/-- A hexadecimal digit is less than 16. -/
theorem hexValue_lt {c : Char} {n : Nat} (h : hexValue c = some n) : n < 16 := by
  have hle : ∀ {hi : Char}, c ≤ hi → c.toNat ≤ hi.toNat := fun h => UInt32.le_iff_toNat_le.1 h
  simp only [hexValue, Bool.and_eq_true, decide_eq_true_eq] at h
  split at h
  · next hdigit =>
    have := hle hdigit.2
    obtain rfl := Option.some.inj h
    simp only [Char.reduceToNat] at *
    omega
  · split at h
    · next hdigit =>
      have := hle hdigit.2
      obtain rfl := Option.some.inj h
      simp only [Char.reduceToNat] at *
      omega
    · split at h
      · next hdigit =>
        have := hle hdigit.2
        obtain rfl := Option.some.inj h
        simp only [Char.reduceToNat] at *
        omega
      · cases h

theorem percentDecode_encoded {h l : Char} {a b : Nat} (hh : hexValue h = some a)
    (hl : hexValue l = some b) (rest : List Char) :
    percentDecode ('%' :: h :: l :: rest) = UInt8.ofNat (16 * a + b) :: percentDecode rest := by
  rw [percentDecode, hh, hl]

theorem percentDecode_cons {c : Char} (h : c ≠ '%') (rest : List Char) :
    percentDecode (c :: rest) = String.utf8EncodeChar c ++ percentDecode rest := by
  rw [percentDecode.eq_def]
  split
  · next heq =>
    cases heq
    exact absurd rfl h
  · next heq =>
    cases heq
    rfl
  · next heq => cases heq

/-! ## Dot segments -/

/-- What a segment with others after it does to the segments kept so far. -/
def dotStep (kept : List (List Char)) (segment : List Char) : List (List Char) :=
  if segment = ['.'] then kept
  else if segment = ['.', '.'] then kept.dropLast
  else kept ++ [segment]

/-- What the last segment does: a dot segment leaves an empty one, so that the path still ends in
a separator. -/
def dotEnd (kept : List (List Char)) (segment : List Char) : List (List Char) :=
  if segment = ['.'] then kept ++ [[]]
  else if segment = ['.', '.'] then kept.dropLast ++ [[]]
  else kept ++ [segment]

/-- The segments without dot segments. -/
def removeDots (segments : List (List Char)) : List (List Char) :=
  match segments.getLast? with
  | none => []
  | some last => dotEnd (segments.dropLast.foldl dotStep []) last

/-- `remove_dot_segments` of a path that starts with a separator; others are left alone. -/
def removeDotSegments : List Char → List Char
  | '/' :: rest => '/' :: ['/'].intercalate (removeDots (rest.splitOn '/'))
  | path => path

/-- Syntax-based normalisation of a path. -/
def normalizePath (path : List Char) : List Char := removeDotSegments (decodeUnreserved path)

/-! ## Resolution -/

/-- The path up to and including its last separator; the root if it has none. -/
def upToSlash (path : List Char) : List Char :=
  match path.reverse.dropWhile (· != '/') with
  | [] => ['/']
  | kept => kept.reverse

/-- Resolve a relative path against the path of the base. -/
def resolvePath (base reference : List Char) : List Char :=
  removeDotSegments (upToSlash base ++ reference)

/-- The directory a base resolves plain names in. -/
def directoryOf (base : List Char) : List Char := resolvePath base []

example : normalizePath "/a/%2E%2e/%7Euser/./b".toList = "/~user/b".toList := by decide +kernel

example : resolvePath "/docs/./old/page".toList "new".toList = "/docs/old/new".toList := by
  decide +kernel

/-! ## Plain segments -/

/-- The segments of a path have no separator in them. -/
theorem slash_notMem_segment (path : List Char) : ∀ s ∈ path.splitOn '/', '/' ∉ s := by
  induction path with
  | nil =>
      intro s hs
      rw [List.splitOn_nil] at hs
      rw [List.mem_singleton.1 hs]
      exact List.not_mem_nil
  | cons c path ih =>
      intro s hs
      rw [List.splitOn_cons_eq_if_modifyHead] at hs
      split at hs
      · rcases List.mem_cons.1 hs with rfl | htail
        · exact List.not_mem_nil
        · exact ih s htail
      · rename_i hc
        cases hpieces : path.splitOn '/' with
        | nil => exact absurd hpieces (List.splitOn_ne_nil _ _)
        | cons first rest =>
            rw [hpieces] at hs ih
            rcases List.mem_cons.1 hs with rfl | htail
            · have hfirst := ih first List.mem_cons_self
              rw [List.mem_cons, not_or]
              exact ⟨fun heq => hc (by rw [← heq]; exact beq_self_eq_true _), hfirst⟩
            · exact ih s (List.mem_cons_of_mem _ htail)

/-- A segment that resolution keeps: no separator, and not a dot segment. -/
structure PlainSegment (segment : List Char) : Prop where
  noSlash : '/' ∉ segment
  notDot : segment ≠ ['.']
  notDots : segment ≠ ['.', '.']

theorem plainSegment_nil : PlainSegment [] := by
  constructor <;> simp

theorem PlainSegment.dotStep {segment : List Char} (h : PlainSegment segment)
    (kept : List (List Char)) : dotStep kept segment = kept ++ [segment] := by
  rw [Uri.dotStep, if_neg h.notDot, if_neg h.notDots]

theorem PlainSegment.dotEnd {segment : List Char} (h : PlainSegment segment)
    (kept : List (List Char)) : dotEnd kept segment = kept ++ [segment] := by
  rw [Uri.dotEnd, if_neg h.notDot, if_neg h.notDots]

theorem removeDots_append (init : List (List Char)) (last : List Char) :
    removeDots (init ++ [last]) = dotEnd (init.foldl dotStep []) last := by
  rw [removeDots, List.getLast?_append_of_ne_nil _ (List.cons_ne_nil _ _), List.dropLast_concat]
  rfl

/-- Segments with a separator after each. -/
def closed (segments : List (List Char)) : List Char := segments.flatMap (· ++ ['/'])

theorem intercalate_concat (segments : List (List Char)) (last : List Char) :
    ['/'].intercalate (segments ++ [last]) = closed segments ++ last := by
  induction segments with
  | nil => simp [closed]
  | cons s segments ih =>
      cases segments with
      | nil => simp [closed, List.intercalate]
      | cons t segments =>
          rw [List.cons_append, List.cons_append, List.intercalate_cons_cons, ← List.cons_append,
            ih]
          simp [closed]

/-- What precedes the last separator of a path, as segments that are closed: removing dot segments
there does not depend on a plain segment that follows. -/
theorem removeDotSegments_closed (front : List Char) {segment : List Char}
    (h : PlainSegment segment) :
    removeDotSegments (front ++ '/' :: segment) =
      removeDotSegments (front ++ ['/']) ++ segment := by
  cases front with
  | nil =>
      simp only [List.nil_append, removeDotSegments]
      rw [List.splitOn_eq_singleton h.noSlash]
      have hlast := removeDots_append [] segment
      rw [List.nil_append] at hlast
      rw [hlast, h.dotEnd]
      simp [removeDots, Uri.dotEnd, List.intercalate]
  | cons c front =>
      by_cases hc : c = '/'
      · subst hc
        simp only [List.cons_append, removeDotSegments]
        rw [List.splitOn_append_cons_self, List.splitOn_append_cons_self,
          List.splitOn_eq_singleton h.noSlash, List.splitOn_nil, removeDots_append,
          removeDots_append, h.dotEnd, plainSegment_nil.dotEnd, intercalate_concat,
          intercalate_concat, List.append_nil]
      · have hsame : ∀ rest, removeDotSegments (c :: rest) = c :: rest := by
          intro rest
          rw [removeDotSegments]
          exact fun r hr => hc (List.cons.inj hr).1
        simp only [List.cons_append, hsame, List.append_assoc, List.nil_append]

/-- The same for a plain segment with a separator after it. -/
theorem removeDotSegments_closed_slash (front : List Char) {segment : List Char}
    (h : PlainSegment segment) :
    removeDotSegments (front ++ '/' :: (segment ++ ['/'])) =
      removeDotSegments (front ++ ['/']) ++ (segment ++ ['/']) := by
  have hsplit : (segment ++ ['/']).splitOn '/' = [segment] ++ [[]] := by
    rw [List.splitOn_append_cons_self, List.splitOn_eq_singleton h.noSlash, List.splitOn_nil]
  cases front with
  | nil =>
      simp only [List.nil_append, removeDotSegments]
      rw [hsplit, removeDots_append, plainSegment_nil.dotEnd, intercalate_concat]
      simp [h.dotStep, closed, removeDots, Uri.dotEnd, List.intercalate]
  | cons c front =>
      by_cases hc : c = '/'
      · subst hc
        simp only [List.cons_append, removeDotSegments]
        rw [List.splitOn_append_cons_self, hsplit, List.splitOn_append_cons_self,
          List.splitOn_nil, ← List.append_assoc, removeDots_append, removeDots_append,
          plainSegment_nil.dotEnd, plainSegment_nil.dotEnd, intercalate_concat,
          intercalate_concat, List.foldl_append, List.foldl_cons, List.foldl_nil, h.dotStep]
        simp [closed]
      · have hsame : ∀ rest, removeDotSegments (c :: rest) = c :: rest := by
          intro rest
          rw [removeDotSegments]
          exact fun r hr => hc (List.cons.inj hr).1
        simp only [List.cons_append, hsame, List.append_assoc, List.nil_append]

/-- A path up to its last separator ends in one. -/
theorem upToSlash_eq (path : List Char) : ∃ front, upToSlash path = front ++ ['/'] := by
  rw [upToSlash]
  cases hkept : path.reverse.dropWhile (· != '/') with
  | nil => exact ⟨[], rfl⟩
  | cons c kept =>
      have hc : c = '/' := by
        have hhead := List.head?_dropWhile_not (· != '/') path.reverse
        rw [hkept] at hhead
        simpa using hhead
      rw [hc]
      exact ⟨kept.reverse, List.reverse_cons⟩

theorem upToSlash_append (front : List Char) {last : List Char} (h : '/' ∉ last) :
    upToSlash (front ++ '/' :: last) = front ++ ['/'] := by
  have hlast : ∀ c ∈ last.reverse, (c != '/') = true := by
    intro c hc
    exact bne_iff_ne.2 fun heq => h (heq ▸ List.mem_reverse.1 hc)
  rw [upToSlash, List.reverse_append, List.reverse_cons, List.append_assoc,
    List.dropWhile_append_of_pos hlast, List.singleton_append, List.dropWhile_cons_of_neg (by simp)]
  simp

/-- The directory of an absolute path: the segments before the last one, each closed. -/
theorem directoryOf_segments (init : List (List Char)) {last : List Char}
    (hinit : ∀ s ∈ init, '/' ∉ s) (hlast : '/' ∉ last) :
    directoryOf ('/' :: (closed init ++ last)) = '/' :: closed (init.foldl dotStep []) := by
  have hfront : ∃ front, '/' :: closed init = front ++ ['/'] := by
    rcases List.eq_nil_or_concat init with rfl | ⟨init', s, rfl⟩
    · exact ⟨[], rfl⟩
    · exact ⟨'/' :: (closed init' ++ s), by simp [closed]⟩
  obtain ⟨front, hfront⟩ := hfront
  have hup : upToSlash ('/' :: (closed init ++ last)) = '/' :: closed init := by
    rw [← List.cons_append, hfront, List.append_assoc, List.singleton_append]
    exact upToSlash_append front hlast
  have hsplit : (closed init).splitOn '/' = init ++ [[]] := by
    rw [← List.append_nil (closed init), ← intercalate_concat]
    refine List.splitOn_intercalate '/' (fun s hs => ?_) (by simp)
    rcases List.mem_append.1 hs with hmem | hnil
    · exact hinit s hmem
    · rw [List.mem_singleton.1 hnil]
      exact List.not_mem_nil
  rw [directoryOf, resolvePath, hup, List.append_nil, removeDotSegments, hsplit, removeDots_append,
    plainSegment_nil.dotEnd, intercalate_concat, List.append_nil]

/-- A plain segment is resolved in the directory of the base, with or without a separator after
it. -/
theorem resolvePath_segment (base : List Char) {segment : List Char} (h : PlainSegment segment) :
    resolvePath base segment = directoryOf base ++ segment ∧
      resolvePath base (segment ++ ['/']) = directoryOf base ++ (segment ++ ['/']) := by
  obtain ⟨front, hfront⟩ := upToSlash_eq base
  rw [directoryOf, resolvePath, resolvePath, resolvePath, hfront, List.append_nil,
    List.append_assoc, List.append_assoc, List.singleton_append, List.singleton_append]
  exact ⟨removeDotSegments_closed front h, removeDotSegments_closed_slash front h⟩

/-- The directory of a base ends in a separator. -/
theorem directoryOf_eq (base : List Char) : ∃ front, directoryOf base = front ++ ['/'] := by
  obtain ⟨front, hfront⟩ := upToSlash_eq base
  rw [directoryOf, resolvePath, hfront, List.append_nil]
  cases front with
  | nil => exact ⟨[], rfl⟩
  | cons c front =>
      by_cases hc : c = '/'
      · subst hc
        rw [List.cons_append, removeDotSegments, List.splitOn_append_cons_self, List.splitOn_nil,
          removeDots_append, plainSegment_nil.dotEnd, intercalate_concat, List.append_nil]
        generalize (List.splitOn '/' front).foldl dotStep [] = kept
        rcases List.eq_nil_or_concat kept with rfl | ⟨init, last, rfl⟩
        · exact ⟨[], rfl⟩
        · exact ⟨'/' :: (closed init ++ last), by simp [closed]⟩
      · exact ⟨c :: front, by
          rw [List.cons_append, removeDotSegments]
          exact fun r hr => hc (List.cons.inj hr).1⟩

/-- A dot segment put before an absolute path makes another spelling of it. -/
theorem normalizePath_dot (rest : List Char) :
    normalizePath ('/' :: '.' :: '/' :: rest) = normalizePath ('/' :: rest) := by
  have hdecode : ∀ cs, decodeUnreserved ('/' :: cs) = '/' :: decodeUnreserved cs := by
    intro cs
    rw [decodeUnreserved]
    intro h l r hslash
    exact absurd hslash (by decide)
  have hdot : decodeUnreserved ('.' :: '/' :: rest) = '.' :: '/' :: decodeUnreserved rest := by
    rw [decodeUnreserved, hdecode]
    intro h l r hdot
    exact absurd hdot (by decide)
  rw [normalizePath, normalizePath, hdecode, hdecode, hdot, removeDotSegments, removeDotSegments]
  have hplain : '/' ∉ ['.'] := by decide
  have hsplit : ('.' :: '/' :: decodeUnreserved rest).splitOn '/' =
      ['.'] :: (decodeUnreserved rest).splitOn '/' :=
    List.splitOn_append_cons_self_of_not_mem hplain _
  rw [hsplit]
  rcases List.eq_nil_or_concat ((decodeUnreserved rest).splitOn '/') with hnil | ⟨init, last, heq⟩
  · exact absurd hnil (List.splitOn_ne_nil _ _)
  · rw [heq, List.concat_eq_append, ← List.cons_append, removeDots_append, removeDots_append]
    rfl

end Elrond.Lib.Uri
