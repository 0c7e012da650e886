import Mathlib.Logic.Relation
import Mathlib.Data.Finset.Card
import Elrond.Lib.Path
import Elrond.Config.Parser

/-!
# Include expansion

`config::expand_includes` and the part of `config::load` before `build`. The files are a parameter:
`canonicalize` and `read` answer as the file system does, and the canonical paths are finitely many.
The recursion goes into the blocks of the tree and into the included files; it ends because every
file entered leaves fewer paths outside the visited set. That the visited set comes back as it was
given is carried in the type of `expandFrom`.

The expansion succeeds exactly when every include that is reached resolves, reads, lexes and parses,
and no file on the way is entered from within itself; its result is the in-place substitution of the
includes (`expandIncludes_spec`).
-/

set_option autoImplicit false

namespace Elrond.Config

open Elrond.Lib

/-- The configuration files as the file system shows them: `canonicalize` and `read_to_string` with
the texts of their errors, and the finitely many paths that `canonicalize` can answer. -/
structure Files where
  canonicalize : String → Except String String
  read : String → Except String String
  paths : Finset String
  canonicalize_mem : ∀ {raw path : String}, canonicalize raw = .ok path → path ∈ paths

/-- The path an include names, before it is canonicalized. -/
def candidate (base raw : String) : String :=
  if Path.isAbsolute raw then raw else Path.join base raw

/-- The directory against which the includes of a file are resolved. -/
def parentDir (path : String) : String := (Path.parent path).getD "."

/-- An include up to its recursive call: the file it enters and the directives of that file. -/
def enterInclude (fs : Files) (base : String) (visited : Finset String) (d : Directive) :
    Except String (String × List Directive) :=
  match d.args.head? with
  | none => .error s!"line {d.line}: 'include' requires a path"
  | some raw =>
      match fs.canonicalize (candidate base raw) with
      | .error e => .error s!"line {d.line}: include '{raw}': {e}"
      | .ok path =>
          if path ∈ visited then .error s!"line {d.line}: include cycle on '{path}'"
          else
            match fs.read path with
            | .error e => .error s!"line {d.line}: include '{path}': {e}"
            | .ok text => (lex text >>= parse).map fun sub => (path, sub)

/-- The file an include resolves to. -/
def includeTarget (fs : Files) (base : String) (d : Directive) : Option String :=
  d.args.head?.bind fun raw => (fs.canonicalize (candidate base raw)).toOption

/-- The directives of a file that reads, lexes and parses. -/
def fileDirectives (fs : Files) (path : String) : Option (List Directive) :=
  (fs.read path >>= fun text => lex text >>= parse).toOption

/-- An include is entered exactly when it resolves to a file that is not being expanded and that
file reads, lexes and parses. -/
theorem enterInclude_eq_ok {fs : Files} {base : String} {visited : Finset String} {d : Directive}
    {path : String} {sub : List Directive} :
    enterInclude fs base visited d = .ok (path, sub) ↔
      includeTarget fs base d = some path ∧ path ∉ visited ∧ fileDirectives fs path = some sub := by
  rw [enterInclude, includeTarget]
  cases d.args.head? with
  | none => simp
  | some raw =>
      cases hcanon : fs.canonicalize (candidate base raw) with
      | error e => simp [hcanon, Except.toOption]
      | ok found =>
          by_cases hvisited : found ∈ visited
          · simp only [hcanon, if_pos hvisited, Except.toOption, Option.bind_some,
              Option.some.injEq, reduceCtorEq, false_iff]
            rintro ⟨rfl, hnew, -⟩
            exact hnew hvisited
          · simp only [hcanon, if_neg hvisited, Except.toOption, Option.bind_some,
              Option.some.injEq]
            constructor
            · intro h
              cases hread : fs.read found with
              | error e => simp [hread] at h
              | ok text =>
                  rw [hread] at h
                  obtain ⟨sub', hsub, heq⟩ := map_eq_ok.1 h
                  cases heq
                  refine ⟨rfl, hvisited, toOption_eq_some.2 ?_⟩
                  rw [hread]
                  exact hsub
            · rintro ⟨rfl, -, hsub⟩
              obtain ⟨text, hread, hparse⟩ := bind_eq_ok.1 (toOption_eq_some.1 hsub)
              rw [hread]
              exact map_eq_ok.2 ⟨sub, hparse, rfl⟩

/-- A file that is entered leaves fewer paths to enter. -/
theorem enterInclude_card {fs : Files} {base : String} {visited : Finset String} {d : Directive}
    {path : String} {sub : List Directive}
    (h : enterInclude fs base visited d = .ok (path, sub)) :
    (fs.paths \ insert path visited).card < (fs.paths \ visited).card := by
  obtain ⟨htarget, hnew, -⟩ := enterInclude_eq_ok.1 h
  obtain ⟨raw, -, hcanon⟩ := Option.bind_eq_some_iff.1 htarget
  have hmem := fs.canonicalize_mem (toOption_eq_some.1 hcanon)
  apply Finset.card_lt_card
  rw [Finset.ssubset_iff_of_subset (Finset.sdiff_subset_sdiff le_rfl (Finset.subset_insert _ _))]
  exact ⟨path, by simp [hmem, hnew], by simp⟩

/-- What an expansion returns: the directives, and the visited set as it was. -/
abbrev Expanded (visited : Finset String) :=
  { r : List Directive × Finset String // r.2 = visited }

/-- `expand_includes` with the visited set it hands back. -/
def expandFrom (fs : Files) (dirs : List Directive) (base : String) (visited : Finset String) :
    Except String (Expanded visited) :=
  match dirs with
  | [] => .ok ⟨([], visited), rfl⟩
  | d :: dirs =>
      if d.name = "include" then
        match _henter : enterInclude fs base visited d with
        | .error e => .error e
        | .ok (path, sub) =>
            match expandFrom fs sub (parentDir path) (insert path visited) with
            | .error e => .error e
            | .ok ⟨(expanded, visited'), hvisited⟩ =>
                have hsame : visited'.erase path = visited := by
                  obtain rfl : visited' = insert path visited := hvisited
                  exact Finset.erase_insert (enterInclude_eq_ok.1 _henter).2.1
                -- the file is left, so that it may be included again further on
                match expandFrom fs dirs base (visited'.erase path) with
                | .error e => .error e
                | .ok ⟨(out, visited''), h⟩ =>
                    .ok ⟨(expanded ++ out, visited''), h.trans hsame⟩
      else
        match d with
        | ⟨name, args, none, line⟩ =>
            match expandFrom fs dirs base visited with
            | .error e => .error e
            | .ok ⟨(out, visited'), h⟩ => .ok ⟨(⟨name, args, none, line⟩ :: out, visited'), h⟩
        | ⟨name, args, some block, line⟩ =>
            match expandFrom fs block base visited with
            | .error e => .error e
            | .ok ⟨(block', visited'), hvisited⟩ =>
                match expandFrom fs dirs base visited' with
                | .error e => .error e
                | .ok ⟨(out, visited''), h⟩ =>
                    .ok ⟨(⟨name, args, some block', line⟩ :: out, visited''), h.trans hvisited⟩
termination_by ((fs.paths \ visited).card, sizeOf dirs)
decreasing_by
  -- into a file fewer paths are left to enter; otherwise the tree gets smaller
  · exact Prod.Lex.left _ _ (enterInclude_card (by assumption))
  · rw [hsame]
    exact Prod.Lex.right _ (by simp)
  · exact Prod.Lex.right _ (by simp)
  · apply Prod.Lex.right
    simp
    omega
  · obtain rfl : visited' = visited := hvisited
    exact Prod.Lex.right _ (by simp)

/-- `expand_includes`. -/
def expandIncludes (fs : Files) (dirs : List Directive) (base : String)
    (visited : Finset String) : Except String (List Directive × Finset String) :=
  (expandFrom fs dirs base visited).map Subtype.val

/-- The visited set comes back as it was given. -/
theorem expandIncludes_visited {fs : Files} {dirs : List Directive} {base : String}
    {visited : Finset String} {r : List Directive × Finset String}
    (h : expandIncludes fs dirs base visited = .ok r) : r.2 = visited := by
  obtain ⟨r', -, rfl⟩ := map_eq_ok.1 h
  exact r'.2

theorem expandIncludes_nil (fs : Files) (base : String) (visited : Finset String) :
    expandIncludes fs [] base visited = .ok ([], visited) := by
  rw [expandIncludes, expandFrom]
  rfl

/-- The round of the loop at an include. -/
theorem expandIncludes_include {d : Directive} (hname : d.name = "include") (fs : Files)
    (dirs : List Directive) (base : String) (visited : Finset String) :
    expandIncludes fs (d :: dirs) base visited =
      enterInclude fs base visited d >>= fun e =>
      expandIncludes fs e.2 (parentDir e.1) (insert e.1 visited) >>= fun r =>
      (expandIncludes fs dirs base (r.2.erase e.1)).map fun r' => (r.1 ++ r'.1, r'.2) := by
  rw [expandIncludes, expandFrom.eq_def]
  simp only [hname, if_true]
  split
  · next e he =>
    rw [he]
    rfl
  · next path sub he =>
    cases hsub : expandFrom fs sub (parentDir path) (insert path visited) with
    | error e => simp [expandIncludes, he, hsub, bind, Except.bind, Except.map]
    | ok r =>
        obtain ⟨⟨expanded, visited'⟩, hvisited⟩ := r
        cases hrest : expandFrom fs dirs base (visited'.erase path) <;>
          simp [expandIncludes, he, hsub, hrest, bind, Except.bind, Except.map]

/-- The block of a directive that is kept. -/
def expandBlock (fs : Files) (block : Option (List Directive)) (base : String)
    (visited : Finset String) : Except String (Option (List Directive) × Finset String) :=
  match block with
  | none => .ok (none, visited)
  | some block => (expandIncludes fs block base visited).map fun r => (some r.1, r.2)

/-- The round of the loop at a directive that is kept. -/
theorem expandIncludes_keep {d : Directive} (hname : d.name ≠ "include") (fs : Files)
    (dirs : List Directive) (base : String) (visited : Finset String) :
    expandIncludes fs (d :: dirs) base visited =
      expandBlock fs d.block base visited >>= fun b =>
      (expandIncludes fs dirs base b.2).map fun r => ({ d with block := b.1 } :: r.1, r.2) := by
  rw [expandIncludes, expandFrom.eq_def]
  simp only [hname, if_false]
  obtain ⟨name, args, block, line⟩ := d
  cases block with
  | none =>
      cases hrest : expandFrom fs dirs base visited <;>
        simp [expandIncludes, expandBlock, hrest, bind, Except.bind, Except.map]
  | some block =>
      cases hblock : expandFrom fs block base visited with
      | error e => simp [expandIncludes, expandBlock, hblock, bind, Except.bind, Except.map]
      | ok r =>
          obtain ⟨⟨block', visited'⟩, hvisited⟩ := r
          cases hrest : expandFrom fs dirs base visited' <;>
            simp [expandIncludes, expandBlock, hblock, hrest, bind, Except.bind, Except.map]

/-- `load` up to `build`: the directives of the root file with its includes expanded. -/
def loadDirectives (fs : Files) (path : String) : Except String (List Directive) :=
  match fs.canonicalize path with
  | .error e => .error s!"cannot read config '{path}': {e}"
  | .ok abs =>
      match fs.read abs with
      | .error e => .error s!"cannot read config '{abs}': {e}"
      | .ok text =>
          lex text >>= parse >>= fun dirs =>
            (expandIncludes fs dirs (parentDir abs) {abs}).map Prod.fst

/-! ## Which trees can be expanded, and to what -/

mutual

/-- The includes of a directive: itself, or those in its block. The block of an include is not
looked at. -/
def includesOfDirective : Directive → List Directive
  | ⟨name, args, block, line⟩ =>
      if name = "include" then [⟨name, args, block, line⟩] else includesOfBlock block

def includesOfBlock : Option (List Directive) → List Directive
  | none => []
  | some block => includesOf block

/-- The directives named `include` of a tree, at any depth. -/
def includesOf : List Directive → List Directive
  | [] => []
  | d :: dirs => includesOfDirective d ++ includesOf dirs

end

/-- One file includes another. -/
def Includes (fs : Files) (p q : String) : Prop :=
  ∃ sub, fileDirectives fs p = some sub ∧
    ∃ d ∈ includesOf sub, includeTarget fs (parentDir p) d = some q

/-- A file is reached from a tree: one of its includes leads there. -/
def Reached (fs : Files) (dirs : List Directive) (base p : String) : Prop :=
  ∃ d ∈ includesOf dirs, ∃ q, includeTarget fs base d = some q ∧
    Relation.ReflTransGen (Includes fs) q p

/-- Every include of a tree resolves. -/
def Resolves (fs : Files) (dirs : List Directive) (base : String) : Prop :=
  ∀ d ∈ includesOf dirs, ∃ q, includeTarget fs base d = some q

/-- A file reads, lexes and parses, and its includes resolve against its own directory. -/
def Loads (fs : Files) (p : String) : Prop :=
  ∃ sub, fileDirectives fs p = some sub ∧ Resolves fs sub (parentDir p)

/-- Every include reached from a tree resolves to a file that loads, and no file is entered while it
is being expanded: none of those on the way in already, and none from within itself. -/
structure Expandable (fs : Files) (dirs : List Directive) (base : String)
    (visited : Finset String) : Prop where
  resolves : Resolves fs dirs base
  loads : ∀ p, Reached fs dirs base p → Loads fs p
  fresh : ∀ p, Reached fs dirs base p → p ∉ visited
  acyclic : ∀ p, Reached fs dirs base p → ¬ Relation.TransGen (Includes fs) p p

/-- The recursive substitution, in place, of each include by the directives of its file. -/
inductive Substitutes (fs : Files) : String → List Directive → List Directive → Prop where
  | nil (base : String) : Substitutes fs base [] []
  | file {base path : String} {d : Directive} {dirs sub expanded out : List Directive}
      (name : d.name = "include") (target : includeTarget fs base d = some path)
      (directives : fileDirectives fs path = some sub)
      (inner : Substitutes fs (parentDir path) sub expanded)
      (rest : Substitutes fs base dirs out) : Substitutes fs base (d :: dirs) (expanded ++ out)
  | leaf {base : String} {d : Directive} {dirs out : List Directive}
      (name : d.name ≠ "include") (block : d.block = none)
      (rest : Substitutes fs base dirs out) : Substitutes fs base (d :: dirs) (d :: out)
  | block {base : String} {d : Directive} {children children' dirs out : List Directive}
      (name : d.name ≠ "include") (block : d.block = some children)
      (inner : Substitutes fs base children children')
      (rest : Substitutes fs base dirs out) :
      Substitutes fs base (d :: dirs) ({ d with block := some children' } :: out)

theorem includesOf_append (dirs dirs' : List Directive) :
    includesOf (dirs ++ dirs') = includesOf dirs ++ includesOf dirs' := by
  induction dirs with
  | nil => rfl
  | cons d dirs ih =>
      rw [List.cons_append, includesOf, ih, includesOf, List.append_assoc]

theorem includesOf_include {d : Directive} (hname : d.name = "include") (dirs : List Directive) :
    includesOf (d :: dirs) = d :: includesOf dirs := by
  obtain ⟨name, args, block, line⟩ := d
  obtain rfl : name = "include" := hname
  rfl

theorem includesOf_keep {d : Directive} (hname : d.name ≠ "include") (dirs : List Directive) :
    includesOf (d :: dirs) = includesOfBlock d.block ++ includesOf dirs := by
  obtain ⟨name, args, block, line⟩ := d
  rw [includesOf, includesOfDirective, if_neg hname]

/-- No include is left in what a substitution gives. -/
theorem Substitutes.includesOf_eq_nil {fs : Files} {base : String} {dirs out : List Directive}
    (h : Substitutes fs base dirs out) : includesOf out = [] := by
  induction h with
  | nil base => rfl
  | file name target directives inner rest ihinner ihrest =>
      rw [includesOf_append, ihinner, ihrest]
      rfl
  | leaf name block rest ih =>
      rw [includesOf_keep name, block, ih]
      rfl
  | @block base d children children' dirs out name block inner rest ihinner ihrest =>
      have hkeep := includesOf_keep (d := { d with block := some children' }) name out
      rw [hkeep, ihrest, List.append_nil]
      exact ihinner

/-- A file's own includes are what it reaches. -/
theorem transGen_iff_reached {fs : Files} {p q : String} {sub : List Directive}
    (hsub : fileDirectives fs p = some sub) :
    Relation.TransGen (Includes fs) p q ↔ Reached fs sub (parentDir p) q := by
  rw [Relation.TransGen.head'_iff]
  constructor
  · rintro ⟨q', ⟨sub', hsub', d, hd, htarget⟩, hq⟩
    obtain rfl : sub' = sub := Option.some.inj (hsub'.symm.trans hsub)
    exact ⟨d, hd, q', htarget, hq⟩
  · rintro ⟨d, hd, q', htarget, hq⟩
    exact ⟨q', ⟨sub, hsub, d, hd, htarget⟩, hq⟩

/-- From an include, its file is reached and what that file reaches. -/
theorem reached_include {fs : Files} {d : Directive} {sub : List Directive}
    {base path : String} (hname : d.name = "include")
    (htarget : includeTarget fs base d = some path) (hsub : fileDirectives fs path = some sub)
    (dirs : List Directive) (p : String) :
    Reached fs (d :: dirs) base p ↔
      (p = path ∨ Reached fs sub (parentDir path) p) ∨ Reached fs dirs base p := by
  rw [← transGen_iff_reached hsub, ← Relation.reflTransGen_iff_eq_or_transGen]
  simp only [Reached, includesOf_include hname, List.mem_cons, exists_eq_or_imp, htarget,
    Option.some.injEq, exists_eq_left']

theorem reached_keep {d : Directive} (hname : d.name ≠ "include") (fs : Files)
    (dirs : List Directive) (base p : String) :
    Reached fs (d :: dirs) base p ↔
      Reached fs (d.block.getD []) base p ∨ Reached fs dirs base p := by
  have hblock : includesOfBlock d.block = includesOf (d.block.getD []) := by
    cases d.block <;> rfl
  simp only [Reached, includesOf_keep hname, hblock, List.mem_append, or_and_right, exists_or]

/-- A tree with fewer includes can be expanded as well. -/
theorem Expandable.mono {fs : Files} {dirs dirs' : List Directive} {base : String}
    {visited : Finset String} (h : Expandable fs dirs base visited)
    (hsub : includesOf dirs' ⊆ includesOf dirs) : Expandable fs dirs' base visited := by
  have hreach : ∀ p, Reached fs dirs' base p → Reached fs dirs base p := by
    rintro p ⟨d, hd, htarget⟩
    exact ⟨d, hsub hd, htarget⟩
  refine ⟨?_, ?_, ?_, ?_⟩
  · exact fun d hd => h.resolves d (hsub hd)
  · exact fun p hp => h.loads p (hreach p hp)
  · exact fun p hp => h.fresh p (hreach p hp)
  · exact fun p hp => h.acyclic p (hreach p hp)

/-- A tree that starts with an include can be expanded exactly when the include can be entered, the
file behind it can be expanded with that file among the visited ones, and so can the rest. -/
theorem expandable_include {fs : Files} {d : Directive} {dirs : List Directive} {base : String}
    {visited : Finset String} (hname : d.name = "include") :
    Expandable fs (d :: dirs) base visited ↔
      ∃ path sub, enterInclude fs base visited d = .ok (path, sub) ∧
        Expandable fs sub (parentDir path) (insert path visited) ∧
        Expandable fs dirs base visited := by
  simp only [enterInclude_eq_ok]
  constructor
  · intro h
    obtain ⟨path, htarget⟩ := h.resolves d (by simp [includesOf_include hname])
    have hpath : Reached fs (d :: dirs) base path :=
      ⟨d, by simp [includesOf_include hname], path, htarget, .refl⟩
    -- what the file reaches it leads to, so that it cannot reach itself
    obtain ⟨sub, hsub, hresolves⟩ := h.loads path hpath
    have hreach := reached_include hname htarget hsub dirs
    refine ⟨path, sub, ⟨htarget, h.fresh path hpath, hsub⟩, ⟨hresolves, ?_, ?_, ?_⟩, h.mono ?_⟩
    · exact fun p hp => h.loads p ((hreach p).2 (.inl (.inr hp)))
    · intro p hp hmem
      rcases Finset.mem_insert.1 hmem with rfl | hmem
      · exact h.acyclic p hpath ((transGen_iff_reached hsub).2 hp)
      · exact h.fresh p ((hreach p).2 (.inl (.inr hp))) hmem
    · exact fun p hp => h.acyclic p ((hreach p).2 (.inl (.inr hp)))
    · rw [includesOf_include hname]
      exact List.subset_cons_self d (includesOf dirs)
  · rintro ⟨path, sub, ⟨htarget, hnew, hsub⟩, hinner, hrest⟩
    have hreach := reached_include hname htarget hsub dirs
    refine ⟨?_, ?_, ?_, ?_⟩
    · intro d' hd'
      rw [includesOf_include hname] at hd'
      rcases List.mem_cons.1 hd' with rfl | hd'
      · exact ⟨path, htarget⟩
      · exact hrest.resolves d' hd'
    · intro p hp
      rcases (hreach p).1 hp with (rfl | hp) | hp
      · exact ⟨sub, hsub, hinner.resolves⟩
      · exact hinner.loads p hp
      · exact hrest.loads p hp
    · intro p hp
      rcases (hreach p).1 hp with (rfl | hp) | hp
      · exact hnew
      · exact fun hmem => hinner.fresh p hp (Finset.mem_insert_of_mem hmem)
      · exact hrest.fresh p hp
    · intro p hp
      rcases (hreach p).1 hp with (rfl | hp) | hp
      · intro hcycle
        exact hinner.fresh p ((transGen_iff_reached hsub).1 hcycle) (Finset.mem_insert_self _ _)
      · exact hinner.acyclic p hp
      · exact hrest.acyclic p hp

/-- A tree that starts with a directive that is kept can be expanded exactly when the block of the
directive and the rest can be. -/
theorem expandable_keep {fs : Files} {d : Directive} {dirs : List Directive} {base : String}
    {visited : Finset String} (hname : d.name ≠ "include") :
    Expandable fs (d :: dirs) base visited ↔
      Expandable fs (d.block.getD []) base visited ∧ Expandable fs dirs base visited := by
  have hreach := reached_keep hname fs dirs base
  have hincludes : includesOf (d :: dirs) = includesOf (d.block.getD []) ++ includesOf dirs := by
    rw [includesOf_keep hname]
    cases d.block <;> rfl
  constructor
  · intro h
    constructor
    · apply h.mono
      rw [hincludes]
      exact List.subset_append_left _ _
    · apply h.mono
      rw [hincludes]
      exact List.subset_append_right _ _
  · rintro ⟨hinner, hrest⟩
    refine ⟨?_, ?_, ?_, ?_⟩
    · intro d' hd'
      rw [hincludes] at hd'
      exact (List.mem_append.1 hd').elim (hinner.resolves d') (hrest.resolves d')
    · exact fun p hp => ((hreach p).1 hp).elim (hinner.loads p) (hrest.loads p)
    · exact fun p hp => ((hreach p).1 hp).elim (hinner.fresh p) (hrest.fresh p)
    · exact fun p hp => ((hreach p).1 hp).elim (hinner.acyclic p) (hrest.acyclic p)

theorem expandable_nil (fs : Files) (base : String) (visited : Finset String) :
    Expandable fs [] base visited := by
  refine ⟨?_, ?_, ?_, ?_⟩
  · intro d hd
    simp [includesOf] at hd
  all_goals
    rintro p ⟨d, hd, -⟩
    simp [includesOf] at hd

/-! ## The expansion against its purpose -/

/-- Induction along the recursion of the expansion: into the files that are entered, into the blocks
that are kept, and along the tree. -/
theorem expansion_induction (fs : Files)
    {motive : List Directive → String → Finset String → Prop}
    (nil : ∀ base visited, motive [] base visited)
    (file : ∀ d dirs base visited, d.name = "include" →
      (∀ path sub, enterInclude fs base visited d = .ok (path, sub) →
        motive sub (parentDir path) (insert path visited)) →
      motive dirs base visited → motive (d :: dirs) base visited)
    (keep : ∀ d dirs base visited, d.name ≠ "include" →
      motive (d.block.getD []) base visited →
      motive dirs base visited → motive (d :: dirs) base visited) :
    ∀ dirs base visited, motive dirs base visited
  | [], base, visited => nil base visited
  | d :: dirs, base, visited => by
      have hrest := expansion_induction fs nil file keep dirs base visited
      by_cases hname : d.name = "include"
      · refine file d dirs base visited hname (fun path sub henter => ?_) hrest
        exact expansion_induction fs nil file keep sub (parentDir path) (insert path visited)
      · refine keep d dirs base visited hname ?_ hrest
        exact expansion_induction fs nil file keep (d.block.getD []) base visited
termination_by dirs _ visited => ((fs.paths \ visited).card, sizeOf dirs)
decreasing_by
  · exact Prod.Lex.right _ (by simp)
  · exact Prod.Lex.left _ _ (enterInclude_card henter)
  · obtain ⟨name, args, block, line⟩ := d
    apply Prod.Lex.right
    cases block with
    | none =>
        simp
        omega
    | some block =>
        simp
        omega

/-- A block is expanded as its directives are, and a missing one stays missing. -/
theorem expandBlock_eq_ok {fs : Files} {block block' : Option (List Directive)} {base : String}
    {visited visited' : Finset String} :
    expandBlock fs block base visited = .ok (block', visited') ↔
      ∃ r, expandIncludes fs (block.getD []) base visited = .ok r ∧
        block' = block.map (fun _ => r.1) ∧ visited' = visited := by
  cases block with
  | none =>
      simp only [expandBlock, Option.getD_none, expandIncludes_nil, Option.map_none]
      constructor
      · intro h
        cases h
        exact ⟨_, rfl, rfl, rfl⟩
      · rintro ⟨r, -, rfl, rfl⟩
        rfl
  | some children =>
      simp only [expandBlock, Option.getD_some, Option.map_some]
      rw [map_eq_ok]
      constructor
      · rintro ⟨r, hr, heq⟩
        cases heq
        exact ⟨r, hr, rfl, expandIncludes_visited hr⟩
      · rintro ⟨r, hr, rfl, rfl⟩
        exact ⟨r, hr, by rw [expandIncludes_visited hr]⟩

/-- A kept directive and its expanded block. -/
theorem Substitutes.keep {fs : Files} {base : String} {d : Directive}
    {children dirs out : List Directive} (hname : d.name ≠ "include")
    (inner : Substitutes fs base (d.block.getD []) children)
    (rest : Substitutes fs base dirs out) :
    Substitutes fs base (d :: dirs) ({ d with block := d.block.map fun _ => children } :: out) := by
  obtain ⟨name, args, block, line⟩ := d
  cases block with
  | none => exact Substitutes.leaf hname rfl rest
  | some children => exact Substitutes.block hname rfl inner rest

/-- A successful expansion is the substitution of the includes. -/
theorem expandIncludes_substitutes (fs : Files) (dirs : List Directive) (base : String)
    (visited : Finset String) :
    ∀ r, expandIncludes fs dirs base visited = .ok r → Substitutes fs base dirs r.1 := by
  induction dirs, base, visited using expansion_induction fs with
  | nil base visited =>
      intro r h
      rw [expandIncludes_nil] at h
      cases h
      exact Substitutes.nil base
  | file d dirs base visited hname ihfile ihrest =>
      intro r h
      rw [expandIncludes_include hname] at h
      obtain ⟨⟨path, sub⟩, henter, h⟩ := bind_eq_ok.1 h
      obtain ⟨r₁, hinner, h⟩ := bind_eq_ok.1 h
      obtain ⟨r₂, hrest, rfl⟩ := map_eq_ok.1 h
      obtain ⟨htarget, hnew, hsub⟩ := enterInclude_eq_ok.1 henter
      rw [expandIncludes_visited hinner, Finset.erase_insert hnew] at hrest
      exact Substitutes.file hname htarget hsub (ihfile path sub henter r₁ hinner)
        (ihrest r₂ hrest)
  | keep d dirs base visited hname ihblock ihrest =>
      intro r h
      rw [expandIncludes_keep hname] at h
      obtain ⟨⟨block', visited'⟩, hblock, h⟩ := bind_eq_ok.1 h
      obtain ⟨r₂, hrest, rfl⟩ := map_eq_ok.1 h
      obtain ⟨r₁, hinner, rfl, rfl⟩ := expandBlock_eq_ok.1 hblock
      exact Substitutes.keep hname (ihblock r₁ hinner) (ihrest r₂ hrest)

/-- The expansion succeeds exactly on the trees that can be expanded. -/
theorem expandIncludes_isOk_iff (fs : Files) (dirs : List Directive) (base : String)
    (visited : Finset String) :
    (∃ r, expandIncludes fs dirs base visited = .ok r) ↔ Expandable fs dirs base visited := by
  induction dirs, base, visited using expansion_induction fs with
  | nil base visited =>
      exact iff_of_true ⟨_, expandIncludes_nil fs base visited⟩ (expandable_nil fs base visited)
  | file d dirs base visited hname ihfile ihrest =>
      rw [expandIncludes_include hname, expandable_include hname]
      constructor
      · rintro ⟨r, h⟩
        obtain ⟨⟨path, sub⟩, henter, h⟩ := bind_eq_ok.1 h
        obtain ⟨r₁, hinner, h⟩ := bind_eq_ok.1 h
        obtain ⟨r₂, hrest, -⟩ := map_eq_ok.1 h
        rw [expandIncludes_visited hinner,
          Finset.erase_insert (enterInclude_eq_ok.1 henter).2.1] at hrest
        exact ⟨path, sub, henter, (ihfile path sub henter).1 ⟨r₁, hinner⟩, ihrest.1 ⟨r₂, hrest⟩⟩
      · rintro ⟨path, sub, henter, hinner, hrest⟩
        obtain ⟨r₁, hinner⟩ := (ihfile path sub henter).2 hinner
        obtain ⟨r₂, hrest⟩ := ihrest.2 hrest
        refine ⟨_, bind_eq_ok.2 ⟨_, henter, bind_eq_ok.2 ⟨r₁, hinner, map_eq_ok.2 ⟨r₂, ?_, rfl⟩⟩⟩⟩
        rw [expandIncludes_visited hinner,
          Finset.erase_insert (enterInclude_eq_ok.1 henter).2.1]
        exact hrest
  | keep d dirs base visited hname ihblock ihrest =>
      rw [expandIncludes_keep hname, expandable_keep hname]
      constructor
      · rintro ⟨r, h⟩
        obtain ⟨⟨block', visited'⟩, hblock, h⟩ := bind_eq_ok.1 h
        obtain ⟨r₂, hrest, -⟩ := map_eq_ok.1 h
        obtain ⟨r₁, hinner, rfl, rfl⟩ := expandBlock_eq_ok.1 hblock
        exact ⟨ihblock.1 ⟨r₁, hinner⟩, ihrest.1 ⟨r₂, hrest⟩⟩
      · rintro ⟨hinner, hrest⟩
        obtain ⟨r₁, hinner⟩ := ihblock.2 hinner
        obtain ⟨r₂, hrest⟩ := ihrest.2 hrest
        exact ⟨_, bind_eq_ok.2 ⟨_, expandBlock_eq_ok.2 ⟨r₁, hinner, rfl, rfl⟩,
          map_eq_ok.2 ⟨r₂, hrest, rfl⟩⟩⟩

/-- For the directives of a root file, with that file visited: everything the root file leads to
loads, and no file on the way, the root included, leads back to itself. -/
theorem expandable_root {fs : Files} {root : String} {sub : List Directive}
    (hsub : fileDirectives fs root = some sub) :
    Expandable fs sub (parentDir root) {root} ↔
      ∀ p, Relation.ReflTransGen (Includes fs) root p →
        Loads fs p ∧ ¬ Relation.TransGen (Includes fs) p p := by
  constructor
  · intro h p hp
    rcases Relation.reflTransGen_iff_eq_or_transGen.1 hp with rfl | hp
    · refine ⟨⟨sub, hsub, h.resolves⟩, fun hcycle => ?_⟩
      exact h.fresh p ((transGen_iff_reached hsub).1 hcycle) (Finset.mem_singleton_self p)
    · have hreach := (transGen_iff_reached hsub).1 hp
      exact ⟨h.loads p hreach, h.acyclic p hreach⟩
  · intro h
    have hreach : ∀ p, Reached fs sub (parentDir root) p → Relation.TransGen (Includes fs) root p :=
      fun p hp => (transGen_iff_reached hsub).2 hp
    refine ⟨?_, ?_, ?_, ?_⟩
    · obtain ⟨sub', hsub', hresolves⟩ := (h root .refl).1
      obtain rfl : sub' = sub := Option.some.inj (hsub'.symm.trans hsub)
      exact hresolves
    · exact fun p hp => (h p (hreach p hp).to_reflTransGen).1
    · intro p hp hmem
      obtain rfl := Finset.mem_singleton.1 hmem
      exact (h p .refl).2 (hreach p hp)
    · exact fun p hp => (h p (hreach p hp).to_reflTransGen).2

theorem loadDirectives_eq_ok {fs : Files} {path : String} {dirs : List Directive} :
    loadDirectives fs path = .ok dirs ↔
      ∃ root sub, fs.canonicalize path = .ok root ∧ fileDirectives fs root = some sub ∧
        ∃ r, expandIncludes fs sub (parentDir root) {root} = .ok r ∧ r.1 = dirs := by
  rw [loadDirectives]
  cases hcanon : fs.canonicalize path with
  | error e => simp
  | ok root =>
      simp only [Except.ok.injEq]
      constructor
      · intro h
        cases hread : fs.read root with
        | error e => simp [hread] at h
        | ok text =>
            rw [hread] at h
            obtain ⟨sub, hsub, h⟩ := bind_eq_ok.1 h
            refine ⟨root, sub, rfl, toOption_eq_some.2 ?_, map_eq_ok.1 h⟩
            rw [hread]
            exact hsub
      · rintro ⟨_, sub, rfl, hsub, h⟩
        obtain ⟨text, hread, hparse⟩ := bind_eq_ok.1 (toOption_eq_some.1 hsub)
        rw [hread]
        exact bind_eq_ok.2 ⟨sub, hparse, map_eq_ok.2 h⟩

/-- `load` gets as far as `build` exactly when its file resolves and everything that file leads to
loads without leading back to itself. -/
theorem loadDirectives_isOk_iff (fs : Files) (path : String) :
    (∃ dirs, loadDirectives fs path = .ok dirs) ↔
      ∃ root, fs.canonicalize path = .ok root ∧
        ∀ p, Relation.ReflTransGen (Includes fs) root p →
          Loads fs p ∧ ¬ Relation.TransGen (Includes fs) p p := by
  constructor
  · rintro ⟨dirs, h⟩
    obtain ⟨root, sub, hcanon, hsub, r, hr, -⟩ := loadDirectives_eq_ok.1 h
    refine ⟨root, hcanon, (expandable_root hsub).1 ?_⟩
    exact (expandIncludes_isOk_iff fs sub (parentDir root) {root}).1 ⟨r, hr⟩
  · rintro ⟨root, hcanon, h⟩
    obtain ⟨⟨sub, hsub, -⟩, -⟩ := h root .refl
    obtain ⟨r, hr⟩ := (expandIncludes_isOk_iff fs sub (parentDir root) {root}).2
      ((expandable_root hsub).2 h)
    exact ⟨r.1, loadDirectives_eq_ok.2 ⟨root, sub, hcanon, hsub, r, hr, rfl⟩⟩

/-- **Include expansion.** On every tree the expansion succeeds exactly when every include reached
resolves to a file that reads, lexes and parses and no file is entered while it is being expanded;
from a root file this means that no file it leads to, itself counted, leads back to itself. A file
may be included twice: what expands once expands twice in a row. On success the result is the
in-place substitution of the includes, each resolved against the directory of its own file, no
include is left at any depth, and the visited set is as it was. -/
theorem expandIncludes_spec (fs : Files) (dirs : List Directive) (base : String)
    (visited : Finset String) :
    ((∃ r, expandIncludes fs dirs base visited = .ok r) ↔ Expandable fs dirs base visited) ∧
    (∀ root, fileDirectives fs root = some dirs →
      ((∃ r, expandIncludes fs dirs (parentDir root) {root} = .ok r) ↔
        ∀ p, Relation.ReflTransGen (Includes fs) root p →
          Loads fs p ∧ ¬ Relation.TransGen (Includes fs) p p)) ∧
    ((∃ r, expandIncludes fs dirs base visited = .ok r) →
      ∃ r, expandIncludes fs (dirs ++ dirs) base visited = .ok r) ∧
    ∀ out visited', expandIncludes fs dirs base visited = .ok (out, visited') →
      Substitutes fs base dirs out ∧ includesOf out = [] ∧ visited' = visited := by
  refine ⟨expandIncludes_isOk_iff fs dirs base visited, ?_, ?_, ?_⟩
  · intro root hroot
    rw [expandIncludes_isOk_iff]
    exact expandable_root hroot
  · simp only [expandIncludes_isOk_iff]
    intro h
    -- twice in a row there are no other includes than once
    apply h.mono
    rw [includesOf_append]
    exact List.append_subset.2 ⟨List.Subset.refl _, List.Subset.refl _⟩
  · intro out visited' h
    have hsubst := expandIncludes_substitutes fs dirs base visited _ h
    exact ⟨hsubst, hsubst.includesOf_eq_nil, expandIncludes_visited h⟩

end Elrond.Config
