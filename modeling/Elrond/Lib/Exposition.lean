import Elrond.Lib.Text

/-!
# The text exposition format

The lines in which a program shows its metrics to a scraper: for each metric a help line, a type
line and its samples, a sample being the name, at most one label, and the value. Label values are
plain here, with nothing in them that would have to be escaped.

A document of well-formed lines is read back line by line (`read_write`), so what a scraper gets is
what was written, with no sample lost, merged or renamed.
-/

set_option autoImplicit false

namespace Elrond.Lib.Exposition

/-! ## Lines -/

/-- One line of a document. -/
inductive Line where
  | help (name text : String)
  | type (name kind : String)
  | sample (name : String) (label : Option (String × String)) (value : String)
deriving DecidableEq, Repr

/-- The characters of the names of metrics and labels. -/
def isNameChar (c : Char) : Bool := c.isAlphanum || c == '_'

/-- A name: some characters, all of them those of names. -/
def IsName (name : String) : Prop :=
  name.toList.isEmpty = false ∧ name.toList.all isNameChar = true

instance (name : String) : Decidable (IsName name) := inferInstanceAs (Decidable (_ ∧ _))

/-- The text stays on its line. -/
def OneLine (text : String) : Prop := '\n' ∉ text.toList

instance (text : String) : Decidable (OneLine text) := inferInstanceAs (Decidable (¬ _))

-- A literal is matched with the list of its characters, and `decide` works on the list.
theorem isName_ofList {cs : List Char} (h : cs.isEmpty = false ∧ cs.all isNameChar = true) :
    IsName (String.ofList cs) := by
  rw [IsName, String.toList_ofList]
  exact h

theorem oneLine_ofList {cs : List Char} (h : '\n' ∉ cs) : OneLine (String.ofList cs) := by
  rw [OneLine, String.toList_ofList]
  exact h

/-- A label with a plain value, in front of the rest of the line. -/
def writeLabel : Option (String × String) → List Char → List Char
  | none, rest => rest
  | some (label, value), rest =>
      '{' :: (label.toList ++ '=' :: '"' :: (value.toList ++ '"' :: '}' :: rest))

/-- What a help line and a type line start with. -/
def helpMark : List Char := ['#', ' ', 'H', 'E', 'L', 'P', ' ']

@[inherit_doc helpMark]
def typeMark : List Char := ['#', ' ', 'T', 'Y', 'P', 'E', ' ']

namespace Line

/-- The text of a line. -/
def write : Line → List Char
  | .help name text => helpMark ++ (name.toList ++ ' ' :: text.toList)
  | .type name kind => typeMark ++ (name.toList ++ ' ' :: kind.toList)
  | .sample name label value => name.toList ++ writeLabel label (' ' :: value.toList)

/-- The names are names, and everything stays in its place on the line. -/
def WellFormed : Line → Prop
  | .help name text => IsName name ∧ OneLine text
  | .type name kind => IsName name ∧ OneLine kind
  | .sample name label value =>
      IsName name ∧ OneLine value ∧
        ∀ l ∈ label, IsName l.1 ∧ OneLine l.2 ∧ '"' ∉ l.2.toList

end Line

/-! ## Reading -/

/-- What is behind a text that has to come next. -/
def expect (next cs : List Char) : Option (List Char) := next.isPrefixOf? cs

/-- The characters that satisfy a condition, and what is behind them. -/
def readWhile (p : Char → Bool) (cs : List Char) : String × List Char :=
  (String.ofList (cs.takeWhile p), cs.dropWhile p)

/-- A name, a space, and the rest of the line. -/
def readNamed (cs : List Char) : Option (String × String) := do
  let rest ← expect [' '] (readWhile isNameChar cs).2
  some ((readWhile isNameChar cs).1, String.ofList rest)

/-- A label in braces, if there is one. -/
def readLabel (cs : List Char) : Option (Option (String × String) × List Char) :=
  match expect ['{'] cs with
  | none => some (none, cs)
  | some rest => do
      let label := readWhile isNameChar rest
      let rest ← expect ['=', '"'] label.2
      let value := readWhile (· != '"') rest
      let rest ← expect ['"', '}'] value.2
      some (some (label.1, value.1), rest)

/-- A sample. -/
def readSample (cs : List Char) : Option Line := do
  let name := readWhile isNameChar cs
  let (label, rest) ← readLabel name.2
  let value ← expect [' '] rest
  some (.sample name.1 label (String.ofList value))

/-- A line. -/
def readLine (cs : List Char) : Option Line :=
  match expect helpMark cs with
  | some rest => (readNamed rest).map fun p => .help p.1 p.2
  | none =>
      match expect typeMark cs with
      | some rest => (readNamed rest).map fun p => .type p.1 p.2
      | none => readSample cs

/-- A document. -/
def write (ls : List Line) : List Char := ls.flatMap fun l => l.write ++ ['\n']

/-- The lines of a document, each ended by a line feed. -/
def read (cs : List Char) : Option (List Line) :=
  let pieces := cs.splitOn '\n'
  if pieces.getLast? = some [] then pieces.dropLast.mapM readLine else none

/-! ## The round trip -/

theorem IsName.isNameChar {name : String} (h : IsName name) :
    ∀ c ∈ name.toList, isNameChar c = true :=
  List.all_eq_true.1 h.2

theorem expect_append (next rest : List Char) : expect next (next ++ rest) = some rest :=
  Text.isPrefixOf?_eq_some.2 rfl

theorem expect_eq_none {c d : Char} (next rest : List Char) (h : c ≠ d) :
    expect (c :: next) (d :: rest) = none := by
  rw [expect, List.isPrefixOf?, if_neg (by simpa using h)]

theorem readWhile_append {p : Char → Bool} {text : String} (h : ∀ c ∈ text.toList, p c = true)
    {c : Char} (hc : p c = false) (rest : List Char) :
    readWhile p (text.toList ++ c :: rest) = (text, c :: rest) := by
  have hc' : ¬ p c = true := Bool.eq_false_iff.1 hc
  rw [readWhile, List.takeWhile_append_of_pos h, List.dropWhile_append_of_pos h,
    List.takeWhile_cons_of_neg hc', List.dropWhile_cons_of_neg hc', List.append_nil,
    String.ofList_toList]

theorem readNamed_write {name text : String} (h : IsName name) :
    readNamed (name.toList ++ ' ' :: text.toList) = some (name, text) := by
  have hname := readWhile_append h.isNameChar (c := ' ') (by decide) text.toList
  rw [readNamed, hname]
  show some (name, String.ofList text.toList) = _
  rw [String.ofList_toList]

theorem readLabel_write {label : Option (String × String)}
    (h : ∀ l ∈ label, IsName l.1 ∧ OneLine l.2 ∧ '"' ∉ l.2.toList) (rest : List Char) :
    readLabel (writeLabel label (' ' :: rest)) = some (label, ' ' :: rest) := by
  cases label with
  | none => rw [writeLabel, readLabel, expect_eq_none _ _ (by decide)]
  | some l =>
      obtain ⟨label, value⟩ := l
      obtain ⟨hlabel, -, hquote⟩ := h _ rfl
      have hvalue : ∀ c ∈ value.toList, (c != '"') = true := by
        intro c hc
        rw [bne_iff_ne]
        rintro rfl
        exact hquote hc
      have hbrace : ∀ cs, expect ['{'] ('{' :: cs) = some cs := expect_append ['{']
      have hequals : ∀ cs, expect ['=', '"'] ('=' :: '"' :: cs) = some cs :=
        expect_append ['=', '"']
      have hclose : ∀ cs, expect ['"', '}'] ('"' :: '}' :: cs) = some cs :=
        expect_append ['"', '}']
      have hname := fun cs => readWhile_append hlabel.isNameChar (c := '=') (by decide) cs
      have hplain := fun cs => readWhile_append hvalue (c := '"') (by decide) cs
      rw [readLabel, writeLabel, hbrace]
      simp only [hname, hequals, hplain, hclose, Option.bind_eq_bind, Option.bind_some]

theorem readSample_write {name value : String} {label : Option (String × String)}
    (h : (Line.sample name label value).WellFormed) :
    readSample (Line.sample name label value).write = some (.sample name label value) := by
  obtain ⟨hname, -, hlabel⟩ := h
  have hfirst : ∃ c rest, isNameChar c = false ∧
      writeLabel label (' ' :: value.toList) = c :: rest := by
    cases label with
    | none => exact ⟨' ', _, by decide, rfl⟩
    | some l => exact ⟨'{', _, by decide, rfl⟩
  obtain ⟨c, rest, hc, hrest⟩ := hfirst
  have hread := readLabel_write hlabel value.toList
  rw [hrest] at hread
  rw [readSample, Line.write, hrest, readWhile_append hname.isNameChar hc]
  simp only [hread, Option.bind_eq_bind, Option.bind_some]
  show some (Line.sample name label (String.ofList value.toList)) = _
  rw [String.ofList_toList]

/-- A sample is no comment. -/
theorem expect_comment {name : String} (h : IsName name) (next rest : List Char) :
    expect ('#' :: next) (name.toList ++ rest) = none := by
  cases hcs : name.toList with
  | nil =>
      have hempty := h.1
      rw [hcs] at hempty
      cases hempty
  | cons c cs =>
      refine expect_eq_none _ _ fun hc => ?_
      have hmem : '#' ∈ name.toList := by
        rw [hcs, hc]
        exact List.mem_cons_self
      exact absurd (h.isNameChar _ hmem) (by decide)

/-- A written line is read. -/
theorem readLine_write {l : Line} (h : l.WellFormed) : readLine l.write = some l := by
  cases l with
  | help name text =>
      rw [readLine, Line.write, expect_append]
      simp only [readNamed_write h.1]
      rfl
  | type name kind =>
      have hnot : expect helpMark (typeMark ++ (name.toList ++ ' ' :: kind.toList)) =
          none := rfl
      rw [readLine, Line.write, hnot, expect_append]
      simp only [readNamed_write h.1]
      rfl
  | sample name label value =>
      have hhelp : expect helpMark (Line.sample name label value).write = none :=
        expect_comment h.1 _ _
      have htype : expect typeMark (Line.sample name label value).write = none :=
        expect_comment h.1 _ _
      rw [readLine, hhelp, htype]
      exact readSample_write h

theorem newline_notMem_name {name : String} (h : IsName name) : '\n' ∉ name.toList :=
  fun hmem => absurd (h.isNameChar _ hmem) (by decide)

/-- No line feed is part of a line. -/
theorem newline_notMem_write {l : Line} (h : l.WellFormed) : '\n' ∉ l.write := by
  have hhelp : '\n' ∉ helpMark := by decide
  have htype : '\n' ∉ typeMark := by decide
  cases l with
  | help name text =>
      simp only [Line.write, List.mem_append, List.mem_cons, not_or]
      exact ⟨hhelp, newline_notMem_name h.1, by decide, h.2⟩
  | type name kind =>
      simp only [Line.write, List.mem_append, List.mem_cons, not_or]
      exact ⟨htype, newline_notMem_name h.1, by decide, h.2⟩
  | sample name label value =>
      obtain ⟨hname, hvalue, hlabel⟩ := h
      rw [Line.write, List.mem_append, not_or]
      refine ⟨newline_notMem_name hname, ?_⟩
      cases label with
      | none =>
          simp only [writeLabel, List.mem_cons, not_or]
          exact ⟨by decide, hvalue⟩
      | some l =>
          obtain ⟨hl, htext, -⟩ := hlabel l rfl
          simp only [writeLabel, List.mem_append, List.mem_cons, not_or]
          exact ⟨by decide, newline_notMem_name hl, by decide, by decide, htext, by decide,
            by decide, by decide, hvalue⟩

theorem mapM_readLine {ls : List Line} (h : ∀ l ∈ ls, l.WellFormed) :
    (ls.map Line.write).mapM readLine = some ls := by
  induction ls with
  | nil => rfl
  | cons l ls ih =>
      obtain ⟨hl, hls⟩ := List.forall_mem_cons.1 h
      rw [List.map_cons, List.mapM_cons, readLine_write hl, ih hls]
      rfl

/-- **What is written is read**, line by line. -/
theorem read_write {ls : List Line} (h : ∀ l ∈ ls, l.WellFormed) : read (write ls) = some ls := by
  have hpieces : (write ls).splitOn '\n' = ls.map Line.write ++ [[]] := by
    induction ls with
    | nil => rfl
    | cons l ls ih =>
        obtain ⟨hl, hls⟩ := List.forall_mem_cons.1 h
        rw [write, List.flatMap_cons, ← write, List.append_assoc, List.singleton_append,
          List.splitOn_append_cons_self, ih hls,
          List.splitOn_eq_singleton (newline_notMem_write hl)]
        rfl
  rw [read, hpieces]
  simp only [List.getLast?_concat, List.dropLast_concat, if_true, mapM_readLine h]

end Elrond.Lib.Exposition
