import Elrond.Config.Lexer
import Elrond.Lib.Fallible

/-!
# Lines of tokens

The line that the lexer gives a token, against the place of the token in the text. `lexemes` divides
a text the way the lexer does, but keeps for every token the characters it is written with and all
those before it. The line counter of the lexer is behind by the escaped newlines of the quoted
strings it has passed (`located_lexFrom`), so the lines are right exactly if no quoted string with an
escaped newline is followed by another token (`token_lines_iff`).
-/

set_option autoImplicit false

namespace Elrond.Config

open Elrond.Lib

/-! ## The places of tokens -/

/-- A quoted string after its opening quote: the characters up to its closing quote, and the input
after it. A backslash takes the character behind it along. -/
def quotedText (quote : Char) : List Char → Option (List Char × List Char)
  | [] => none
  | ch :: cs =>
      if ch = quote then some ([ch], cs)
      else if ch = '\\' then
        match cs with
        | [] => none
        | e :: cs => (quotedText quote cs).map fun r => (ch :: e :: r.1, r.2)
      else (quotedText quote cs).map fun r => (ch :: r.1, r.2)

/-- The characters of a quoted string are those up to its closing quote. -/
theorem quotedText_append {quote : Char} {cs raw rest : List Char}
    (h : quotedText quote cs = some (raw, rest)) : raw ++ rest = cs ∧ raw ≠ [] := by
  fun_induction quotedText quote cs generalizing raw rest with
  | case1 => cases h
  | case2 =>
      cases h
      exact ⟨rfl, List.cons_ne_nil _ _⟩
  | case3 => cases h
  | case4 e cs hq ih =>
      obtain ⟨⟨t, r⟩, hr, heq⟩ := Option.map_eq_some_iff.1 h
      cases heq
      obtain ⟨rfl, -⟩ := ih hr
      exact ⟨rfl, List.cons_ne_nil _ _⟩
  | case5 ch cs hq hb ih =>
      obtain ⟨⟨t, r⟩, hr, heq⟩ := Option.map_eq_some_iff.1 h
      cases heq
      obtain ⟨rfl, -⟩ := ih hr
      exact ⟨rfl, List.cons_ne_nil _ _⟩

/-- A token in a text: the characters before it, and its own, with quotes and escapes. -/
structure Lexeme where
  before : List Char
  raw : List Char
deriving DecidableEq, Repr

/-- The tokens of a text, of which `read` has been read. -/
def lexemesFrom (read : List Char) : List Char → List Lexeme
  | [] => []
  | c :: cs =>
      if Text.isWhitespace c then lexemesFrom (read ++ [c]) cs
      else if c = '#' then
        lexemesFrom (read ++ c :: cs.takeWhile (· != '\n')) (cs.dropWhile (· != '\n'))
      else if c = '\x7b' ∨ c = '\x7d' ∨ c = ';' then
        ⟨read, [c]⟩ :: lexemesFrom (read ++ [c]) cs
      else if c = '"' ∨ c = '\'' then
        match _h : quotedText c cs with
        | none => []
        | some (raw, rest) => ⟨read, c :: raw⟩ :: lexemesFrom (read ++ c :: raw) rest
      else
        ⟨read, c :: cs.takeWhile isBare⟩ ::
          lexemesFrom (read ++ c :: cs.takeWhile isBare) (cs.dropWhile isBare)
termination_by cs => cs.length
decreasing_by
  · simp
  · have := (List.dropWhile_suffix (l := cs) (· != '\n')).length_le
    simp only [List.length_cons]
    omega
  · simp
  · obtain ⟨hcs, -⟩ := quotedText_append (by assumption)
    rw [← hcs, List.length_cons, List.length_append]
    omega
  · have := (List.dropWhile_suffix (l := cs) isBare).length_le
    simp only [List.length_cons]
    omega

/-- The tokens of a text. -/
def lexemes (input : String) : List Lexeme := lexemesFrom [] input.toList

/-- What the characters of a quoted string stand for, up to the closing quote. -/
def resolved : List Char → List Char
  | [] => []
  | [_] => []
  | ch :: e :: cs => if ch = '\\' then unescape e :: resolved cs else ch :: resolved (e :: cs)

/-- The token that is written with the characters. -/
def kindOf : List Char → TokKind
  | '\x7b' :: _ => .openBrace
  | '\x7d' :: _ => .closeBrace
  | ';' :: _ => .semicolon
  | '"' :: cs => .word (String.ofList (resolved cs))
  | '\'' :: cs => .word (String.ofList (resolved cs))
  | cs => .word (String.ofList cs)

/-- The backslashes that are followed by a newline and not taken by another backslash. -/
def escapedNewlines : List Char → Nat
  | [] => 0
  | [_] => 0
  | ch :: e :: cs =>
      if ch = '\\' then (if e = '\n' then 1 else 0) + escapedNewlines cs
      else escapedNewlines (e :: cs)

/-! ## Escaped newlines -/

theorem escapedNewlines_cons {ch : Char} (h : ch ≠ '\\') (cs : List Char) :
    escapedNewlines (ch :: cs) = escapedNewlines cs := by
  cases cs with
  | nil => rfl
  | cons e cs => rw [escapedNewlines, if_neg h]

theorem resolved_cons {ch : Char} (h : ch ≠ '\\') {cs : List Char} (hcs : cs ≠ []) :
    resolved (ch :: cs) = ch :: resolved cs := by
  cases cs with
  | nil => exact absurd rfl hcs
  | cons e cs => rw [resolved, if_neg h]

/-- Escaped newlines are newlines. -/
theorem escapedNewlines_le_count (cs : List Char) : escapedNewlines cs ≤ cs.count '\n' := by
  fun_induction escapedNewlines cs with
  | case1 => exact Nat.zero_le _
  | case2 => exact Nat.zero_le _
  | case3 e cs ih =>
      by_cases he : e = '\n'
      · simp [he]
        omega
      · simpa [he] using ih
  | case4 ch e cs h ih => exact ih.trans List.count_le_count_cons

theorem escapedNewlines_of_notMem {cs : List Char} (h : '\n' ∉ cs) : escapedNewlines cs = 0 := by
  have hle := escapedNewlines_le_count cs
  rw [List.count_eq_zero.2 h] at hle
  exact Nat.le_zero.1 hle

/-- What the loop over a quoted string leaves of its characters: the text they stand for, and a line
counter that has not seen the escaped newlines among them. -/
theorem readString_raw {quote : Char} (hquote : quote ≠ '\n') {line line' : Nat}
    {cs s rest : List Char} (h : readString quote line cs = some (s, line', rest)) :
    ∃ raw, quotedText quote cs = some (raw, rest) ∧ s = resolved raw ∧
      line' + escapedNewlines raw = line + raw.count '\n' := by
  fun_induction readString quote line cs generalizing s line' rest with
  | case1 => cases h
  | case2 line cs =>
      cases h
      refine ⟨[quote], by rw [quotedText.eq_def]; simp, rfl, ?_⟩
      rw [escapedNewlines_of_notMem (by simpa using hquote.symm), List.count_singleton]
      simp [hquote]
  | case3 => cases h
  | case4 line e cs hq ih =>
      obtain ⟨⟨t, l, r⟩, hr, heq⟩ := Option.map_eq_some_iff.1 h
      cases heq
      obtain ⟨raw, hraw, rfl, hline⟩ := ih hr
      refine ⟨'\\' :: e :: raw, ?_, ?_, ?_⟩
      · simp [quotedText, hq, hraw]
      · rw [resolved, if_pos rfl]
      · rw [escapedNewlines, if_pos rfl]
        -- the character behind a backslash is not counted, also when it ends a line
        by_cases he : e = '\n'
        · simp [he]
          omega
        · simpa [he] using hline
  | case5 line cs hq hb ih =>
      obtain ⟨⟨t, l, r⟩, hr, heq⟩ := Option.map_eq_some_iff.1 h
      cases heq
      obtain ⟨raw, hraw, rfl, hline⟩ := ih hr
      refine ⟨'\n' :: raw, ?_, ?_, ?_⟩
      · rw [quotedText.eq_def]
        simp [hq, hraw]
      · rw [resolved_cons (by decide) (quotedText_append hraw).2]
      · -- a newline of its own is counted
        rw [escapedNewlines_cons (by decide), List.count_cons_self]
        omega
  | case6 line ch cs hq hb hn ih =>
      obtain ⟨⟨t, l, r⟩, hr, heq⟩ := Option.map_eq_some_iff.1 h
      cases heq
      obtain ⟨raw, hraw, rfl, hline⟩ := ih hr
      refine ⟨ch :: raw, ?_, ?_, ?_⟩
      · rw [quotedText.eq_def]
        simp [hq, hb, hraw]
      · rw [resolved_cons hb (quotedText_append hraw).2]
      · rw [escapedNewlines_cons hb, List.count_cons_of_ne hn]
        exact hline

/-! ## The main loop -/

/-- Tokens and the places they stand at: each is written there, and its line is behind by the escaped
newlines before it, `missed` of them before the first token. -/
inductive Located (input : List Char) : Nat → List Token → List Lexeme → Prop
  | nil (missed : Nat) : Located input missed [] []
  | cons {missed : Nat} {t : Token} {x : Lexeme} {ts : List Token} {xs : List Lexeme}
      (stands : x.before ++ x.raw <+: input) (kind : t.kind = kindOf x.raw)
      (line : t.line + missed = 1 + x.before.count '\n')
      (rest : Located input (missed + escapedNewlines x.raw) ts xs) :
      Located input missed (t :: ts) (x :: xs)

/-- Past characters without a newline the counter is as far behind as before. -/
theorem counter_of_notMem {line missed : Nat} {read raw : List Char} (h : '\n' ∉ raw)
    (hline : line + missed = 1 + read.count '\n') :
    line + (missed + escapedNewlines raw) = 1 + (read ++ raw).count '\n' := by
  rw [escapedNewlines_of_notMem h, List.count_append, List.count_eq_zero.2 h]
  exact hline

theorem kindOf_quoted {c : Char} (h : c = '"' ∨ c = '\'') (raw : List Char) :
    kindOf (c :: raw) = .word (String.ofList (resolved raw)) := by
  rcases h with rfl | rfl
  · rfl
  · rfl

theorem kindOf_bare {c : Char} (hbrace : c ≠ '\x7b') (hbrace' : c ≠ '\x7d') (hsemi : c ≠ ';')
    (hquote : ¬ (c = '"' ∨ c = '\'')) (cs : List Char) :
    kindOf (c :: cs) = .word (String.ofList (c :: cs)) := by
  obtain ⟨hdouble, hsingle⟩ := not_or.1 hquote
  rw [kindOf.eq_def]
  split <;> simp_all

theorem isWhitespace_newline : Text.isWhitespace '\n' = true := by decide

/-- A bareword has no newline in it. -/
theorem notMem_bare {c : Char} (hc : Text.isWhitespace c ≠ true) (cs : List Char) :
    '\n' ∉ c :: cs.takeWhile isBare := by
  intro hmem
  rcases List.mem_cons.1 hmem with rfl | hmem
  · exact hc isWhitespace_newline
  · have hbare := List.mem_takeWhile_imp hmem
    exact absurd hbare (by decide)

theorem lexemesFrom_quoted {c : Char} (h : c = '"' ∨ c = '\'') {cs raw rest : List Char}
    (hraw : quotedText c cs = some (raw, rest)) (read : List Char) :
    lexemesFrom read (c :: cs) = ⟨read, c :: raw⟩ :: lexemesFrom (read ++ c :: raw) rest := by
  have hwhite : ¬ Text.isWhitespace c = true := by
    rcases h with rfl | rfl
    · decide
    · decide
  have hhash : c ≠ '#' := by
    rcases h with rfl | rfl
    · decide
    · decide
  have hpunctuation : ¬ (c = '\x7b' ∨ c = '\x7d' ∨ c = ';') := by
    rcases h with rfl | rfl
    · decide
    · decide
  rw [lexemesFrom, if_neg hwhite, if_neg hhash, if_neg hpunctuation, if_pos h]
  split
  · next hnone =>
    rw [hraw] at hnone
    cases hnone
  · next hsome =>
    rw [hraw] at hsome
    cases hsome
    rfl

/-- The lexer gives the tokens of the text, and its line counter misses exactly the escaped
newlines. -/
theorem located_lexFrom {input : List Char} {line : Nat} {cs : List Char} {toks : List Token}
    (h : lexFrom line cs = .ok toks) {read : List Char} {missed : Nat} (hinput : read ++ cs = input)
    (hline : line + missed = 1 + read.count '\n') :
    Located input missed toks (lexemesFrom read cs) := by
  fun_induction lexFrom line cs generalizing toks read missed with
  | case1 line =>
      cases h
      rw [lexemesFrom]
      exact .nil missed
  | case2 line cs ih =>
      rw [lexemesFrom, if_pos isWhitespace_newline]
      refine ih h (by simpa using hinput) ?_
      simp
      omega
  | case3 line c cs hn hwhite ih =>
      rw [lexemesFrom, if_pos hwhite]
      refine ih h (by simpa using hinput) ?_
      simpa [hn] using hline
  | case4 line cs hn hwhite ih =>
      rw [lexemesFrom, if_neg hwhite, if_pos rfl]
      -- a comment holds no newline
      have hcount : (cs.takeWhile (· != '\n')).count '\n' = 0 := by
        rw [List.count_eq_zero]
        intro hmem
        simpa using List.mem_takeWhile_imp hmem
      refine ih h ?_ ?_
      · simpa [List.takeWhile_append_dropWhile] using hinput
      · simpa [hcount] using hline
  | case5 line cs hn hwhite hhash ih =>
      obtain ⟨ts, hts, rfl⟩ := map_eq_ok.1 h
      rw [lexemesFrom, if_neg hwhite, if_neg hhash, if_pos (by simp)]
      refine .cons ⟨cs, by simpa using hinput⟩ rfl hline (ih hts (by simpa using hinput) ?_)
      exact counter_of_notMem (by simp) hline
  | case6 line cs hn hwhite hhash hopen ih =>
      obtain ⟨ts, hts, rfl⟩ := map_eq_ok.1 h
      rw [lexemesFrom, if_neg hwhite, if_neg hhash, if_pos (by simp)]
      refine .cons ⟨cs, by simpa using hinput⟩ rfl hline (ih hts (by simpa using hinput) ?_)
      exact counter_of_notMem (by simp) hline
  | case7 line cs hn hwhite hhash hopen hclose ih =>
      obtain ⟨ts, hts, rfl⟩ := map_eq_ok.1 h
      rw [lexemesFrom, if_neg hwhite, if_neg hhash, if_pos (by simp)]
      refine .cons ⟨cs, by simpa using hinput⟩ rfl hline (ih hts (by simpa using hinput) ?_)
      exact counter_of_notMem (by simp) hline
  | case8 line c cs hn hwhite hhash hopen hclose hsemi hquote hnone => cases h
  | case9 line c cs hn hwhite hhash hopen hclose hsemi hquote s line' rest hsome ih =>
      obtain ⟨ts, hts, rfl⟩ := map_eq_ok.1 h
      obtain ⟨raw, hraw, rfl, hcount⟩ := readString_raw (fun heq => hn heq) hsome
      obtain ⟨rfl, -⟩ := quotedText_append hraw
      rw [lexemesFrom_quoted hquote hraw]
      refine .cons ⟨rest, by simpa using hinput⟩ (kindOf_quoted hquote raw).symm hline
        (ih hts (by simpa using hinput) ?_)
      have hslash : c ≠ '\\' := by
        rcases hquote with rfl | rfl
        · decide
        · decide
      rw [escapedNewlines_cons hslash, List.count_append, List.count_cons_of_ne hn]
      omega
  | case10 line c cs hn hwhite hhash hopen hclose hsemi hquote ih =>
      obtain ⟨ts, hts, rfl⟩ := map_eq_ok.1 h
      rw [lexemesFrom, if_neg hwhite, if_neg hhash, if_neg (by simp [hopen, hclose, hsemi]),
        if_neg hquote]
      have hwhole : c :: cs.takeWhile isBare ++ cs.dropWhile isBare = c :: cs := by
        rw [List.cons_append, List.takeWhile_append_dropWhile]
      refine .cons ⟨cs.dropWhile isBare, ?_⟩ (kindOf_bare hopen hclose hsemi hquote _).symm hline
        (ih hts ?_ (counter_of_notMem (notMem_bare hwhite cs) hline))
      · rw [List.append_assoc, hwhole, hinput]
      · rw [List.append_assoc, hwhole, hinput]

/-! ## Right lines -/

/-- A token is written at its place, and its line is that of the place: one more than there are
newlines before it. -/
structure OnItsLine (input : String) (t : Token) (x : Lexeme) : Prop where
  stands : x.before ++ x.raw <+: input.toList
  kind : t.kind = kindOf x.raw
  line : t.line = 1 + x.before.count '\n'

/-- Tokens that are located are on their lines exactly if nothing is missed before the last. -/
theorem Located.onItsLine_iff {input : String} {missed : Nat} {toks : List Token}
    {xs : List Lexeme} (h : Located input.toList missed toks xs) :
    List.Forall₂ (OnItsLine input) toks xs ↔
      (xs ≠ [] → missed = 0) ∧ ∀ x ∈ xs.dropLast, escapedNewlines x.raw = 0 := by
  induction h with
  | nil missed =>
      refine iff_of_true .nil ⟨fun hne => absurd rfl hne, ?_⟩
      intro x hx
      exact absurd hx List.not_mem_nil
  | @cons missed t x ts xs stands kind line rest ih =>
      -- the line of the first token is right exactly if none was missed before it
      have hfirst : OnItsLine input t x ↔ missed = 0 := by
        constructor
        · intro honline
          have := honline.line
          omega
        · rintro rfl
          exact ⟨stands, kind, line⟩
      rw [List.forall₂_cons, hfirst, ih]
      cases xs with
      | nil => simp
      | cons y ys =>
          -- what this token misses is missing at the next one
          rw [List.dropLast_cons_cons, List.forall_mem_cons]
          constructor
          · rintro ⟨hzero, hnone, hrest⟩
            have := hnone (List.cons_ne_nil _ _)
            exact ⟨fun _ => hzero, by omega, hrest⟩
          · rintro ⟨hzero, hnone, hrest⟩
            have := hzero (List.cons_ne_nil _ _)
            exact ⟨this, fun _ => by omega, hrest⟩

/-- **Lines of tokens.** For every text that `lex` accepts, all tokens are on their lines exactly if
no token but the last is a quoted string with an escaped newline. -/
theorem token_lines_iff {input : String} {toks : List Token} (h : lex input = .ok toks) :
    List.Forall₂ (OnItsLine input) toks (lexemes input) ↔
      ∀ x ∈ (lexemes input).dropLast, escapedNewlines x.raw = 0 := by
  have hlocated : Located input.toList 0 toks (lexemes input) :=
    located_lexFrom h (List.nil_append _) rfl
  rw [hlocated.onItsLine_iff]
  exact ⟨fun h => h.2, fun h => ⟨fun _ => rfl, h⟩⟩

/-- Raw newlines, comments and blank lines are counted. -/
theorem lines_after_raw_newlines :
    List.Forall₂ (OnItsLine "a 'b\nc' # d\n\n;")
      [⟨.word "a", 1⟩, ⟨.word "b\nc", 1⟩, ⟨.semicolon, 4⟩] (lexemes "a 'b\nc' # d\n\n;") :=
  (token_lines_iff (by decide +kernel)).2 (by decide +kernel)

/-- An escaped newline is not: the word behind the string stands on the second line and is given the
first. -/
theorem line_after_escaped_newline :
    lex "\"a\\\nb\" c" = .ok [⟨.word "a\nb", 1⟩, ⟨.word "c", 1⟩] ∧
      ¬ List.Forall₂ (OnItsLine "\"a\\\nb\" c") [⟨.word "a\nb", 1⟩, ⟨.word "c", 1⟩]
        (lexemes "\"a\\\nb\" c") := by
  have hlexemes : lexemes "\"a\\\nb\" c" =
      [⟨[], "\"a\\\nb\"".toList⟩, ⟨"\"a\\\nb\" ".toList, ['c']⟩] := by
    decide +kernel
  refine ⟨by decide +kernel, fun h => ?_⟩
  rw [hlexemes] at h
  obtain ⟨-, h⟩ := List.forall₂_cons.1 h
  have hline := (List.forall₂_cons.1 h).1.line
  exact absurd hline (by decide)

end Elrond.Config
