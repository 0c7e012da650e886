import Elrond.Config.Ast

/-!
# The tokenizer

`config::lexer::lex` over the characters of a text. The loop looks at one character at a time and
hands the rest of the text to an inner loop for a comment, a quoted string or a bareword; each inner
loop is a function that returns what is left (`readString`, `List.dropWhile`). A line counter runs
along.

The writer at the end spells every token so that it can stand next to any other: punctuation as
itself, a word between double quotes. Texts written this way, with any layout between the tokens,
lex back to the tokens they were written from (`lex_writeText`).
-/

set_option autoImplicit false

namespace Elrond.Config

open Elrond.Lib

/-- `TokKind`. -/
inductive TokKind where
  | word (s : String)
  | openBrace
  | closeBrace
  | semicolon
deriving DecidableEq, Repr

/-- `Token`: a kind and the 1-based line it starts on. -/
structure Token where
  kind : TokKind
  line : Nat
deriving DecidableEq, Repr

/-! ## The lexer -/

/-- The character that a backslash followed by `c` stands for. -/
def unescape (c : Char) : Char :=
  if c = 'n' then '\n' else if c = 't' then '\t' else if c = 'r' then '\r' else c

/-- The loop over a quoted string, entered after the opening quote: the text up to the closing
quote, the line counter there and the input after it; `none` when the input ends first. An escaped
newline does not move the line counter. -/
def readString (quote : Char) (line : Nat) :
    List Char → Option (List Char × Nat × List Char)
  | [] => none
  | ch :: cs =>
      if ch = quote then some ([], line, cs)
      else if ch = '\\' then
        match cs with
        | [] => none
        | e :: cs => (readString quote line cs).map fun r => (unescape e :: r.1, r.2)
      else if ch = '\n' then
        (readString quote (line + 1) cs).map fun r => ('\n' :: r.1, r.2)
      else
        (readString quote line cs).map fun r => (ch :: r.1, r.2)

/-- The characters that a bareword runs over. -/
def isBare (c : Char) : Bool :=
  !(Text.isWhitespace c || c == '{' || c == '}' || c == ';' || c == '#')

/-- What a quoted string leaves is shorter than what it was entered with. -/
theorem readString_length {quote : Char} {line : Nat} {cs : List Char} {s : List Char}
    {line' : Nat} {rest : List Char} (h : readString quote line cs = some (s, line', rest)) :
    rest.length < cs.length := by
  fun_induction readString quote line cs generalizing s with
  | case1 => cases h
  | case2 =>
      cases h
      simp
  | case3 => cases h
  | case4 line e cs hq ih =>
      obtain ⟨⟨t, r⟩, hr, heq⟩ := Option.map_eq_some_iff.1 h
      cases heq
      have := ih hr
      simp only [List.length_cons]
      omega
  | case5 line cs hq hb ih =>
      obtain ⟨⟨t, r⟩, hr, heq⟩ := Option.map_eq_some_iff.1 h
      cases heq
      have := ih hr
      simp only [List.length_cons]
      omega
  | case6 line ch cs hq hb hn ih =>
      obtain ⟨⟨t, r⟩, hr, heq⟩ := Option.map_eq_some_iff.1 h
      cases heq
      have := ih hr
      simp only [List.length_cons]
      omega

/-- The main loop, from the line counter and the characters still to read. -/
def lexFrom (line : Nat) : List Char → Except String (List Token)
  | [] => .ok []
  | c :: cs =>
      if c = '\n' then lexFrom (line + 1) cs
      else if Text.isWhitespace c then lexFrom line cs
      else if c = '#' then
        -- the newline that ends the comment is left for the next round
        lexFrom line (cs.dropWhile (· != '\n'))
      else if c = '{' then (lexFrom line cs).map (⟨.openBrace, line⟩ :: ·)
      else if c = '}' then (lexFrom line cs).map (⟨.closeBrace, line⟩ :: ·)
      else if c = ';' then (lexFrom line cs).map (⟨.semicolon, line⟩ :: ·)
      else if c = '"' ∨ c = '\'' then
        -- the token stands on the line of its opening quote
        match _h : readString c line cs with
        | none => .error s!"line {line}: unterminated string"
        | some (s, line', rest) =>
            (lexFrom line' rest).map (⟨.word (String.ofList s), line⟩ :: ·)
      else
        -- quotes and backslashes inside a bareword are ordinary characters
        (lexFrom line (cs.dropWhile isBare)).map
          (⟨.word (String.ofList (c :: cs.takeWhile isBare)), line⟩ :: ·)
termination_by cs => cs.length
decreasing_by
  · simp
  · simp
  · have := (List.dropWhile_suffix (l := cs) (· != '\n')).length_le
    simp only [List.length_cons]
    omega
  · simp
  · simp
  · simp
  · have := readString_length (by assumption)
    simp only [List.length_cons]
    omega
  · have := (List.dropWhile_suffix (l := cs) isBare).length_le
    simp only [List.length_cons]
    omega

/-- `lex`. -/
def lex (input : String) : Except String (List Token) := lexFrom 1 input.toList

example : lex "a \"b\\\"\n\" # c\n\x7b;" =
    .ok [⟨.word "a", 1⟩, ⟨.word "b\"\n", 1⟩, ⟨.openBrace, 3⟩, ⟨.semicolon, 3⟩] := by
  decide +kernel

/-! ## Writing tokens -/

/-- A backslash before each double quote and each backslash. -/
def escapeChar (c : Char) : List Char :=
  if c = '"' ∨ c = '\\' then ['\\', c] else [c]

/-- One token: punctuation as its character, a word between double quotes. -/
def writeKind : TokKind → List Char
  | .word s => '"' :: (s.toList.flatMap escapeChar ++ ['"'])
  | .openBrace => ['{']
  | .closeBrace => ['}']
  | .semicolon => [';']

/-- A piece of layout: a whitespace character, or a comment with the newline that ends it. -/
inductive Layout where
  | space (c : Char) (white : Text.isWhitespace c = true)
  | comment (text : List Char) (oneLine : '\n' ∉ text)

/-- The characters of a piece of layout. -/
def Layout.chars : Layout → List Char
  | .space c _ => [c]
  | .comment text _ => '#' :: (text ++ ['\n'])

/-- A mix of layout. -/
def writeLayout (ls : List Layout) : List Char := ls.flatMap Layout.chars

/-- Tokens, each with the layout that follows it. -/
def writeTokens : List (TokKind × List Layout) → List Char
  | [] => []
  | (k, sep) :: items => writeKind k ++ (writeLayout sep ++ writeTokens items)

/-- The written tokens with the line each of them starts on. -/
def placed (line : Nat) : List (TokKind × List Layout) → List Token
  | [] => []
  | (k, sep) :: items =>
      ⟨k, line⟩ ::
        placed (line + (writeKind k).count '\n' + (writeLayout sep).count '\n') items

theorem placed_kinds (line : Nat) (items : List (TokKind × List Layout)) :
    (placed line items).map Token.kind = items.map Prod.fst := by
  induction items generalizing line with
  | nil => rfl
  | cons item items ih => simp [placed, ih]

/-! ## The round trip -/

theorem readString_quote (quote : Char) (line : Nat) (rest : List Char) :
    readString quote line (quote :: rest) = some ([], line, rest) := by
  rw [readString.eq_def]
  simp

theorem readString_newline {quote : Char} (hquote : '\n' ≠ quote) (line : Nat)
    (rest : List Char) :
    readString quote line ('\n' :: rest) =
      (readString quote (line + 1) rest).map fun r => ('\n' :: r.1, r.2) := by
  rw [readString.eq_def]
  simp [hquote]

theorem readString_char {quote c : Char} (hquote : c ≠ quote) (hslash : c ≠ '\\')
    (hn : c ≠ '\n') (line : Nat) (rest : List Char) :
    readString quote line (c :: rest) =
      (readString quote line rest).map fun r => (c :: r.1, r.2) := by
  rw [readString.eq_def]
  simp [hquote, hslash, hn]

/-- A written word reads back as itself, and the line counter moves by its newlines. -/
theorem readString_escaped (s rest : List Char) (line : Nat) :
    readString '"' line (s.flatMap escapeChar ++ '"' :: rest) =
      some (s, line + s.count '\n', rest) := by
  induction s generalizing line with
  | nil => exact readString_quote '"' line rest
  | cons c s ih =>
      rw [List.flatMap_cons, List.append_assoc]
      by_cases hc : c = '"' ∨ c = '\\'
      · have hkeep : unescape c = c := by
          rcases hc with rfl | rfl <;> decide
        have hline : c ≠ '\n' := by
          rcases hc with rfl | rfl <;> decide
        simp [escapeChar, hc, readString, ih, hkeep, hline]
      · obtain ⟨hquote, hslash⟩ := not_or.1 hc
        by_cases hn : c = '\n'
        · subst hn
          simp [escapeChar, readString_newline, ih]
          omega
        · rw [escapeChar, if_neg hc, List.singleton_append, readString_char hquote hslash hn, ih]
          simp [hn]

/-- Escaping adds no newline. -/
theorem count_escaped (s : List Char) : (s.flatMap escapeChar).count '\n' = s.count '\n' := by
  induction s with
  | nil => rfl
  | cons c s ih =>
      rw [List.flatMap_cons, List.count_append, ih]
      by_cases hc : c = '"' ∨ c = '\\'
      · have hline : c ≠ '\n' := by
          rcases hc with rfl | rfl <;> decide
        simp [escapeChar, hc, hline]
      · simp [escapeChar, hc, List.count_cons, Nat.add_comm]

theorem lexFrom_quoted {line line' : Nat} {cs s rest : List Char}
    (h : readString '"' line cs = some (s, line', rest)) :
    lexFrom line ('"' :: cs) =
      (lexFrom line' rest).map (⟨.word (String.ofList s), line⟩ :: ·) := by
  have hwhite : Text.isWhitespace '"' = false := by decide
  rw [lexFrom]
  simp only [hwhite, Char.reduceEq, Bool.false_eq_true, if_false, true_or, if_true]
  split
  · next hnone => simp [h] at hnone
  · next hsome =>
      rw [h] at hsome
      cases hsome
      rfl

/-- One written token is read as that token, whatever follows it. -/
theorem lexFrom_writeKind (k : TokKind) (rest : List Char) (line : Nat) :
    lexFrom line (writeKind k ++ rest) =
      (lexFrom (line + (writeKind k).count '\n') rest).map (⟨k, line⟩ :: ·) := by
  cases k with
  | word s =>
      -- the closing quote ends the word, so that it does not matter what follows
      have hread := readString_escaped s.toList rest line
      have hcount : (writeKind (.word s)).count '\n' = s.toList.count '\n' := by
        simp [writeKind, count_escaped]
      have htext : writeKind (.word s) ++ rest =
          '"' :: (s.toList.flatMap escapeChar ++ '"' :: rest) := by
        simp [writeKind]
      rw [hcount, htext, lexFrom_quoted hread, String.ofList_toList]
  | openBrace => simp [writeKind, lexFrom, Text.isWhitespace]
  | closeBrace => simp [writeKind, lexFrom, Text.isWhitespace]
  | semicolon => simp [writeKind, lexFrom, Text.isWhitespace]

/-- A piece of layout is skipped. -/
theorem lexFrom_layout (l : Layout) (rest : List Char) (line : Nat) :
    lexFrom line (l.chars ++ rest) = lexFrom (line + l.chars.count '\n') rest := by
  cases l with
  | space c white =>
      by_cases hn : c = '\n'
      · simp [Layout.chars, lexFrom, hn]
      · simp [Layout.chars, lexFrom, hn, white]
  | comment text oneLine =>
      -- the newline behind the comment is left for the next round, which counts it
      have hdrop : (text ++ '\n' :: rest).dropWhile (· != '\n') = '\n' :: rest := by
        rw [List.dropWhile_append_of_pos]
        · simp
        · intro c hc
          simpa using fun h : c = '\n' => oneLine (h ▸ hc)
      have hcount : text.count '\n' = 0 := List.count_eq_zero.2 oneLine
      simp [Layout.chars, lexFrom, Text.isWhitespace, hdrop, hcount]

theorem lexFrom_writeLayout (ls : List Layout) (rest : List Char) (line : Nat) :
    lexFrom line (writeLayout ls ++ rest) =
      lexFrom (line + (writeLayout ls).count '\n') rest := by
  induction ls generalizing line with
  | nil => rfl
  | cons l ls ih =>
      rw [writeLayout, List.flatMap_cons, List.append_assoc, lexFrom_layout, List.count_append,
        ← Nat.add_assoc]
      exact ih _

/-- Written tokens are read back in order, each on its line. -/
theorem lexFrom_writeTokens (items : List (TokKind × List Layout)) (line : Nat) :
    lexFrom line (writeTokens items) = .ok (placed line items) := by
  induction items generalizing line with
  | nil => simp [writeTokens, lexFrom, placed]
  | cons item items ih =>
      obtain ⟨k, sep⟩ := item
      rw [writeTokens, lexFrom_writeKind, lexFrom_writeLayout, ih, placed]
      rfl

/-- **Round trip of the lexer.** For every list of token kinds, written with any mix of whitespace
and comments before the first token and after each of them, `lex` returns exactly these kinds. The
words are arbitrary texts, and since each token delimits itself the layout may even be empty. -/
theorem lex_writeText (lead : List Layout) (items : List (TokKind × List Layout)) :
    (lex (String.ofList (writeLayout lead ++ writeTokens items))).map (List.map Token.kind) =
      .ok (items.map Prod.fst) := by
  rw [lex, String.toList_ofList, lexFrom_writeLayout, lexFrom_writeTokens]
  exact congrArg Except.ok (placed_kinds _ items)

end Elrond.Config
