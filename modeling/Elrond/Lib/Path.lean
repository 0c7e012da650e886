import Elrond.Lib.Text

/-!
# Paths of the Unix file system

A path is the text it is written as. `components`, `join` and `parent` follow the documented
behaviour of `std::path` on Unix: repeated separators and `.` components are skipped, except for a
`.` at the very start; joining an absolute path replaces the base.
-/

set_option autoImplicit false

namespace Elrond.Lib.Path

/-- `Component`, without the prefixes of other platforms. -/
inductive Component where
  | rootDir
  | curDir
  | parentDir
  | normal (name : String)
deriving DecidableEq, Repr

/-- `Path::is_absolute`. -/
def isAbsolute (p : String) : Bool := p.toList.head? == some '/'

/-- What a piece between separators contributes: nothing for an empty one and for `.`. -/
def bodyComponent (piece : String) : Option Component :=
  if piece = "" then none
  else if piece = "." then none
  else if piece = ".." then some .parentDir
  else some (.normal piece)

/-- `Path::components`. -/
def components (p : String) : List Component :=
  let pieces := Text.split '/' p
  let front :=
    if isAbsolute p then [Component.rootDir]
    else if pieces.head? = some "." then [Component.curDir]
    else []
  front ++ pieces.filterMap bodyComponent

/-- `Path::join`. -/
def join (base p : String) : String :=
  if isAbsolute p then p
  else if base = "" ∨ base.toList.getLast? = some '/' then base ++ p
  else base ++ "/" ++ p

/-- The text of a component. -/
def Component.text : Component → String
  | .rootDir => "/"
  | .curDir => "."
  | .parentDir => ".."
  | .normal name => name

/-- `Path::parent`, written with single separators: none for a path that ends in the root and for
the empty path. -/
def parent (p : String) : Option String :=
  match (components p).getLast? with
  | none => none
  | some .rootDir => none
  | some _ => some ((components p).dropLast.foldl (fun q c => join q c.text) "")

example : parent "/etc/elrond/main.conf" = some "/etc/elrond" := by decide +kernel

/-- `Path::file_name`: the last component, if it is a normal one. -/
def fileName (p : String) : Option String :=
  match (components p).getLast? with
  | some (.normal name) => some name
  | _ => none

/-- `Path::extension`: what follows the last dot of the file name, unless that dot is its first
character. -/
def extension (p : String) : Option String :=
  (fileName p).bind fun name =>
    let after := name.toList.reverse.takeWhile (· != '.')
    match name.toList.reverse.dropWhile (· != '.') with
    | _ :: before => if before.isEmpty then none else some (String.ofList after.reverse)
    | [] => none

/-! ## Relative paths below a directory -/

/-- A path that stays below the directory it is joined to: relative, and without a `..`. -/
def Descends (p : String) : Prop :=
  isAbsolute p = false ∧ Component.parentDir ∉ components p

/-- A single file name: no separator, and not one of the names with a meaning of their own. -/
def IsName (name : String) : Prop :=
  '/' ∉ name.toList ∧ name ≠ "" ∧ name ≠ ".."

theorem parentDir_mem_components {p : String} :
    Component.parentDir ∈ components p ↔ ".." ∈ Text.split '/' p := by
  have hbody : ∀ piece, bodyComponent piece = some .parentDir ↔ piece = ".." := by
    intro piece
    rw [bodyComponent]
    split_ifs with hempty hdot hdots
    · simp [hempty]
    · simp [hdot]
    · simp [hdots]
    · simp [hdots]
  have hfront : Component.parentDir ∉
      (if isAbsolute p then [Component.rootDir]
        else if (Text.split '/' p).head? = some "." then [Component.curDir] else []) := by
    split_ifs <;> simp
  rw [components, List.mem_append, List.mem_filterMap]
  simp [hbody, hfront]

theorem isAbsolute_eq_false {p : String} : isAbsolute p = false ↔ ∀ cs, p.toList ≠ '/' :: cs := by
  rw [isAbsolute]
  cases p.toList with
  | nil => simp
  | cons c cs => simp

theorem split_append_sep (p q : String) :
    Text.split '/' (p ++ "/" ++ q) = Text.split '/' p ++ Text.split '/' q := by
  have htext : (p ++ "/" ++ q).toList = p.toList ++ '/' :: q.toList := by simp
  rw [Text.split, htext, List.splitOn_append_cons_self, List.map_append]
  rfl

theorem split_name {name : String} (h : '/' ∉ name.toList) : Text.split '/' name = [name] := by
  rw [Text.split, List.splitOn_eq_singleton h]
  simp

/-- What is written between a base and a relative path that is joined to it. -/
def sep (base : String) : String :=
  if base = "" ∨ base.toList.getLast? = some '/' then "" else "/"

theorem join_of_relative {p : String} (h : isAbsolute p = false) (base : String) :
    join base p = base ++ sep base ++ p := by
  rw [join, sep, if_neg (by simp [h])]
  split_ifs
  · rw [String.append_empty]
  · rfl

theorem isAbsolute_append {p : String} (h : p ≠ "") (q : String) :
    isAbsolute (p ++ q) = isAbsolute p := by
  have hne : p.toList ≠ [] := fun hnil => h (String.toList_inj.1 hnil)
  simp [isAbsolute, List.head?_append_of_ne_nil _ hne]

theorem sep_append {p : String} (h : p ≠ "") (q : String) : sep (q ++ p) = sep p := by
  have hne : p.toList ≠ [] := fun hnil => h (String.toList_inj.1 hnil)
  simp [sep, h, List.getLast?_append_of_ne_nil _ hne, String.append_eq_empty_iff]

theorem IsName.isAbsolute {name : String} (h : IsName name) : isAbsolute name = false := by
  rw [isAbsolute_eq_false]
  intro cs hcs
  exact h.1 (by simp [hcs])

/-- A name joined to a path that descends gives a path that descends. -/
theorem Descends.join_name {p name : String} (h : Descends p) (hname : IsName name) :
    Descends (join p name) := by
  rw [join_of_relative hname.isAbsolute]
  constructor
  · by_cases hp : p = ""
    · subst hp
      simpa [sep] using hname.isAbsolute
    · rw [String.append_assoc, isAbsolute_append hp]
      exact h.1
  · rw [parentDir_mem_components]
    have hold := mt parentDir_mem_components.2 h.2
    rw [sep]
    split_ifs with hbase
    · rcases hbase with rfl | hlast
      · simpa [split_name hname.1] using hname.2.2.symm
      · -- the path ends in a separator, so the name is a piece of its own
        obtain ⟨init, hinit⟩ : ∃ init : String, p = init ++ "/" := by
          obtain ⟨cs, hcs⟩ := List.getLast?_eq_some_iff.1 hlast
          exact ⟨String.ofList cs, by rw [← String.toList_inj]; simp [hcs]⟩
        subst hinit
        have hpieces := split_append_sep init ""
        rw [String.append_empty] at hpieces ⊢
        rw [hpieces] at hold
        rw [split_append_sep, split_name hname.1]
        simp only [List.mem_append, List.mem_singleton, not_or] at hold ⊢
        exact ⟨hold.1, hname.2.2.symm⟩
    · rw [split_append_sep, split_name hname.1]
      simp only [List.mem_append, List.mem_singleton, not_or]
      exact ⟨hold, hname.2.2.symm⟩

/-- A name below a path below a directory is below the directory. -/
theorem join_join_name {p name : String} (h : Descends p) (hname : IsName name) (dir : String) :
    join (join dir p) name = join dir (join p name) := by
  rw [join_of_relative hname.isAbsolute, join_of_relative h.1,
    join_of_relative (h.join_name hname).1, join_of_relative hname.isAbsolute]
  by_cases hp : p = ""
  · subst hp
    have hsep : sep (dir ++ sep dir) = "" := by
      unfold sep
      split_ifs <;> simp_all
    have hempty : sep "" = "" := by simp [sep]
    simp [hsep, hempty]
  · rw [sep_append hp]
    simp only [String.append_assoc]

/-! ## Where a path leads -/

/-- The components of a path, a `.` at its start left out: two paths with the same places lead to
the same file. -/
def places (p : String) : List Component := (components p).filter fun c => c ≠ .curDir

theorem mem_places {p : String} {c : Component} :
    c ∈ places p ↔ c ∈ components p ∧ c ≠ .curDir := by
  rw [places, List.mem_filter, decide_eq_true_eq]

/-- The components of a text without its front. -/
def body (p : String) : List Component := (Text.split '/' p).filterMap bodyComponent

theorem places_eq (p : String) :
    places p = (if isAbsolute p then [Component.rootDir] else []) ++ body p := by
  have hbody : (body p).filter (fun c => decide (c ≠ .curDir)) = body p := by
    refine List.filter_eq_self.2 fun c hc => ?_
    obtain ⟨piece, -, hpiece⟩ := List.mem_filterMap.1 hc
    rw [decide_eq_true_eq]
    rintro rfl
    rw [bodyComponent] at hpiece
    split_ifs at hpiece <;> simp at hpiece
  rw [places, components, List.filter_append]
  refine congrArg₂ _ ?_ hbody
  split_ifs <;> rfl

theorem eq_of_bodyComponent {piece name : String} (h : bodyComponent piece = some (.normal name)) :
    piece = name := by
  rw [bodyComponent] at h
  split_ifs at h
  · cases h
  · exact Component.normal.inj (Option.some.inj h)

theorem places_of_relative {p : String} (h : isAbsolute p = false) : places p = body p := by
  rw [places_eq, h]
  rfl

theorem body_append_sep (p q : String) : body (p ++ "/" ++ q) = body p ++ body q := by
  rw [body, split_append_sep, List.filterMap_append]
  rfl

theorem body_append_slash (p : String) : body (p ++ "/") = body p := by
  have h := body_append_sep p ""
  rw [String.append_empty] at h
  rw [h]
  exact List.append_nil _

/-- What follows a separator adds its own places. -/
theorem places_append {d q : String} (hd : d.toList.getLast? = some '/')
    (hq : isAbsolute q = false) : places (d ++ q) = places d ++ places q := by
  obtain ⟨init, rfl⟩ : ∃ init : String, d = init ++ "/" := by
    obtain ⟨cs, hcs⟩ := List.getLast?_eq_some_iff.1 hd
    exact ⟨String.ofList cs, by rw [← String.toList_inj]; simp [hcs]⟩
  have hne : init ++ "/" ≠ "" := by simp [String.append_eq_empty_iff]
  rw [places_eq (init ++ "/" ++ q), isAbsolute_append hne, body_append_sep, places_eq (init ++ "/"),
    body_append_slash, places_of_relative hq, List.append_assoc]

theorem places_append_slash {p : String} (h : p ≠ "") : places (p ++ "/") = places p := by
  rw [places_eq, isAbsolute_append h, body_append_slash, ← places_eq]

/-- Joining adds the places of the relative path. -/
theorem places_join {p : String} (h : isAbsolute p = false) (base : String) :
    places (join base p) = places base ++ places p := by
  rw [join_of_relative h, sep]
  split_ifs with hbase
  · rw [String.append_empty]
    rcases hbase with rfl | hlast
    · rw [String.empty_append]
      rfl
    · exact places_append hlast h
  · rw [not_or] at hbase
    rw [places_append (by simp) h, places_append_slash hbase.1]

end Elrond.Lib.Path
