import Elrond.Static.Serve

/-!
# Containment of static files

Whatever the request path, the location and the rendered candidates are, and whatever the file
system answers, each path that is used is the configured directory followed by a path that
descends: it is not absolute and has no `..`. The check of the components stands before every use;
the file names joined later (`index.html` and the names of directory entries) cannot undo it.
-/

set_option autoImplicit false

namespace Elrond.Static

open Elrond.Lib Elrond.Http Elrond.Request Elrond.Config Elrond.App

/-- The access is to the directory followed by a path that descends. -/
def Below (root : String) (a : Access) : Prop :=
  ∃ rel, Path.Descends rel ∧ a.path = root ++ Path.sep root ++ rel

/-- The access is to the path, to its index, or to an entry of the directory it names. -/
def Touches (root rel : String) (a : Access) : Prop :=
  a.path = Path.join root rel ∨ ∃ name, Path.IsName name ∧
    a.path = Path.join root (Path.join rel name)

/-- What the check of the components accepts descends. -/
theorem componentsSafe_iff {p : String} : componentsSafe p = true ↔ Path.Descends p := by
  constructor
  · intro h
    rw [componentsSafe, List.all_eq_true] at h
    constructor
    · by_contra habs
      have hroot : Path.Component.rootDir ∈ Path.components p := by
        rw [Bool.not_eq_false] at habs
        simp [Path.components, habs]
      exact absurd (h _ hroot) (by simp)
    · intro hup
      exact absurd (h _ hup) (by simp)
  · rintro ⟨habs, hup⟩
    rw [componentsSafe, List.all_eq_true]
    intro c hc
    cases c with
    | rootDir =>
        -- a relative path has no root among its components
        simp only [Path.components, habs, Bool.false_eq_true, if_false, List.mem_append,
          List.mem_filterMap] at hc
        rcases hc with hc | ⟨piece, -, hpiece⟩
        · split at hc <;> simp at hc
        · rw [Path.bodyComponent] at hpiece
          split_ifs at hpiece <;> simp at hpiece
    | curDir => rfl
    | parentDir => exact absurd hc hup
    | normal name => rfl

theorem isName_index : Path.IsName "index.html" := by
  refine ⟨?_, ?_, ?_⟩ <;> decide

/-- What is touched below a path that descends is below the directory. -/
theorem Touches.below {root rel : String} {a : Access} (hrel : Path.Descends rel)
    (h : Touches root rel a) : Below root a := by
  rcases h with hpath | ⟨name, hname, hpath⟩
  · exact ⟨rel, hrel, by rw [hpath, Path.join_of_relative hrel.1]⟩
  · have hjoin := hrel.join_name hname
    exact ⟨Path.join rel name, hjoin, by rw [hpath, Path.join_of_relative hjoin.1]⟩

/-! ## What each function asks -/

theorem bodyBytes_only {P : Access → Prop} {contents : Files (Except IoError Bytes)}
    (h : contents.Only P) (headOnly : Bool) : (bodyBytes headOnly contents).Only P := by
  cases headOnly with
  | true => exact .done _
  | false => exact h

/-- Answering with a file uses its path only. -/
theorem serveFile_only {P : Access → Prop} {fullPath : String} (hP : ∀ a, a.path = fullPath → P a)
    (md : Metadata) (headers : HeaderMap) (method : Method) :
    (serveFile fullPath md headers method).Only P := by
  have hwhole : ∀ etag headOnly, (serveWhole fullPath md etag headOnly).Only P := by
    intro etag headOnly
    rw [serveWhole]
    refine (bodyBytes_only (.question (hP _ rfl)) headOnly).bind fun body => ?_
    rcases body with (_ | _) | bytes <;> exact .done _
  have hrange : ∀ etag headOnly start stop,
      (serveRange fullPath md etag headOnly start stop).Only P := by
    intro etag headOnly start stop
    rw [serveRange]
    refine (bodyBytes_only (.question (hP _ rfl)) headOnly).bind fun body => ?_
    rcases body with _ | bytes <;> exact .done _
  simp only [serveFile]
  split
  · exact .done _
  · split
    · exact hrange _ _ _ _
    · split
      · split
        · exact hwhole _ _
        · exact .done _
      · exact hwhole _ _

/-- The loop over the entries asks for the kinds of entries of the directory. -/
theorem listedEntries_only {P : Access → Prop} {dir : String}
    (hP : ∀ name, P (.entryType dir name)) (names : List EntryName) :
    (listedEntries dir names).Only P := by
  induction names with
  | nil => exact .done _
  | cons name rest ih =>
      simp only [listedEntries]
      split
      · exact ih
      · exact .ask (hP name) fun _ => ih.bind fun _ => .done _

/-- A listing touches the directory and its entries. -/
theorem renderDirectoryListing_only {P : Access → Prop} {dir : String} (hlist : P (.list dir))
    (hentry : ∀ name, P (.entryType dir name)) (uriPath : String) :
    (renderDirectoryListing dir uriPath).Only P := by
  refine .ask hlist fun answer => ?_
  cases answer with
  | error e => exact .done _
  | ok names => exact (listedEntries_only hentry names).bind fun _ => .done _

/-- Serving a path that descends touches it, its index and its entries. -/
theorem serve_only {root reqPath : String} {kind : StaticKind}
    (hsafe : Path.Descends (relativePath kind reqPath)) (headers : HeaderMap) (method : Method)
    (autoindex : Bool) :
    (serve root kind reqPath headers method autoindex).Only
      (Touches root (relativePath kind reqPath)) := by
  have htarget : Touches root (relativePath kind reqPath)
      (.stat (Path.join root (relativePath kind reqPath))) := .inl rfl
  have hlist : Touches root (relativePath kind reqPath)
      (.list (Path.join root (relativePath kind reqPath))) := .inl rfl
  have hindex : Touches root (relativePath kind reqPath)
      (.stat (Path.join (Path.join root (relativePath kind reqPath)) "index.html")) :=
    .inr ⟨"index.html", isName_index, Path.join_join_name hsafe isName_index root⟩
  have hentry : ∀ name : EntryName, Touches root (relativePath kind reqPath)
      (.entryType (Path.join root (relativePath kind reqPath)) name) := fun name =>
    .inr ⟨name.text, name.wf, Path.join_join_name hsafe name.wf root⟩
  simp only [serve, componentsSafe_iff.2 hsafe, Bool.not_true, Bool.false_eq_true, if_false]
  refine (Asks.Only.question htarget).bind fun answer => ?_
  rcases answer with (_ | _) | md
  · exact .done _
  · exact .done _
  · show Asks.Only _ (if md.isDir then _ else _)
    split
    -- a directory: its index, else a listing
    · refine (Asks.Only.question hindex).bind fun index => ?_
      rcases index with (_ | _) | md'
      · show Asks.Only _ (if autoindex then _ else _)
        split
        · exact renderDirectoryListing_only hlist hentry reqPath
        · exact .done _
      · exact .done _
      · refine serveFile_only (fun a ha => .inr ⟨"index.html", isName_index, ?_⟩) md' headers method
        rw [ha, Path.join_join_name hsafe isName_index root]
    · exact serveFile_only (fun a ha => .inl ha) md headers method

/-- A path that does not descend is answered without a use of the file system. -/
theorem serve_of_escape {root reqPath : String} {kind : StaticKind}
    (hescapes : ¬ Path.Descends (relativePath kind reqPath)) (headers : HeaderMap) (method : Method)
    (autoindex : Bool) :
    serve root kind reqPath headers method autoindex = .done (text 403 "403 Forbidden\n") := by
  have hfalse : componentsSafe (relativePath kind reqPath) = false := by
    rw [← Bool.not_eq_true]
    exact mt componentsSafe_iff.1 hescapes
  simp [serve, hfalse]

/-- The path of a candidate. -/
def candidatePath (ctx : RequestCtx) (template : Template) : String :=
  Text.trimStartMatches '/' (template.render ctx)

/-- A candidate is touched if it descends; after it the loop goes on. -/
theorem tryFilesLoop_path_only {P : Access → Prop} {root : String} {ctx : RequestCtx}
    {headers : HeaderMap} {method : Method} {template : Template} {rest : List TryFilesEntry}
    (hrest : (tryFilesLoop root ctx headers method rest).Only P)
    (hP : Path.Descends (candidatePath ctx template) →
      ∀ a, Touches root (candidatePath ctx template) a → P a) :
    (tryFilesLoop root ctx headers method (.path template :: rest)).Only P := by
  simp only [tryFilesLoop]
  simp only [candidatePath] at hP
  -- nothing below depends on how the candidate was rendered
  generalize template.render ctx = rendered at hP ⊢
  cases hcheck : componentsSafe (Text.trimStartMatches '/' rendered) with
  | false =>
      simp only [Bool.not_false, if_true]
      split
      · exact .done _
      · exact hrest
  | true =>
      have hsafe : Path.Descends (relativePath .root rendered) := componentsSafe_iff.1 hcheck
      simp only [Bool.not_true, Bool.false_eq_true, if_false]
      refine (Asks.Only.question (hP hsafe _ (.inl rfl))).bind fun answer => ?_
      split
      · exact (serve_only hsafe headers method false).mono (hP hsafe)
      · exact hrest

/-- The loop over the candidates touches those that descend. -/
theorem tryFilesLoop_only (root : String) (ctx : RequestCtx) (headers : HeaderMap)
    (method : Method) (entries : List TryFilesEntry) :
    (tryFilesLoop root ctx headers method entries).Only fun a =>
      ∃ template, .path template ∈ entries ∧ Path.Descends (candidatePath ctx template) ∧
        Touches root (candidatePath ctx template) a := by
  induction entries with
  | nil => exact .done _
  | cons entry rest ih =>
      have hrest : (tryFilesLoop root ctx headers method rest).Only fun a =>
          ∃ template, .path template ∈ entry :: rest ∧
            Path.Descends (candidatePath ctx template) ∧
            Touches root (candidatePath ctx template) a := by
        refine ih.mono ?_
        rintro a ⟨template, hmem, hsafe, htouch⟩
        exact ⟨template, List.mem_cons_of_mem _ hmem, hsafe, htouch⟩
      cases entry with
      | status code =>
          simp only [tryFilesLoop]
          split
          · exact .done _
          · exact hrest
      | path template =>
          exact tryFilesLoop_path_only hrest fun hsafe a htouch =>
            ⟨template, List.mem_cons_self, hsafe, htouch⟩

/-! ## Containment -/

/-- **Every path that static files use is below the configured directory.** The file system answers
each use from a state of its own. In a run of `serve` or `try_files`, or of a listing of a directory
that is itself below, each use is of the directory followed by a path that descends. A request path
that does not descend is refused without any use, and a use by `try_files` is always for a candidate
that descends. -/
theorem static_containment {σ : Type} (answer : σ → (a : Access) → a.Answer × σ) (s : σ)
    (root : String) (headers : HeaderMap) (method : Method) :
    (∀ kind reqPath autoindex,
      (∀ a ∈ (serve root kind reqPath headers method autoindex).asked answer s, Below root a) ∧
      (¬ Path.Descends (relativePath kind reqPath) →
        serve root kind reqPath headers method autoindex = .done (text 403 "403 Forbidden\n"))) ∧
    (∀ entries ctx, ∀ a ∈ (tryFiles root entries ctx headers method).asked answer s,
      Below root a ∧
      ∃ template, .path template ∈ entries ∧ Path.Descends (candidatePath ctx template) ∧
        Touches root (candidatePath ctx template) a) ∧
    ∀ rel uriPath, Path.Descends rel →
      ∀ a ∈ (renderDirectoryListing (Path.join root rel) uriPath).asked answer s,
        Below root a := by
  refine ⟨fun kind reqPath autoindex => ⟨?_, ?_⟩, ?_, ?_⟩
  · by_cases hsafe : Path.Descends (relativePath kind reqPath)
    · have honly := (serve_only hsafe headers method autoindex).mono
        (fun a (ha : Touches root _ a) => ha.below hsafe)
      exact honly.asked answer s
    · rw [serve_of_escape hsafe]
      exact (Asks.Only.done _).asked answer s
  · exact fun hescapes => serve_of_escape hescapes headers method autoindex
  · intro entries ctx a ha
    have honly : (tryFiles root entries ctx headers method).Only fun a =>
        ∃ template, .path template ∈ entries ∧ Path.Descends (candidatePath ctx template) ∧
          Touches root (candidatePath ctx template) a := by
      simp only [tryFiles]
      split
      · exact .done _
      · exact tryFilesLoop_only root ctx headers method entries
    obtain ⟨template, hmem, hsafe, htouch⟩ := honly.asked answer s a ha
    exact ⟨htouch.below hsafe, template, hmem, hsafe, htouch⟩
  · intro rel uriPath hsafe
    have hentry : ∀ name : EntryName, Touches root rel (.entryType (Path.join root rel) name) :=
      fun name => .inr ⟨name.text, name.wf, Path.join_join_name hsafe name.wf root⟩
    have honly := (renderDirectoryListing_only (.inl rfl) hentry uriPath).mono
      (fun a ha => ha.below hsafe)
    exact honly.asked answer s

/-- A file system with one directory, `/srv/docs`, and one file in it. -/
def oneDirectory (_ : Unit) : (a : Access) → a.Answer × Unit
  | .stat path =>
      (if path = "/srv/docs" then .ok ⟨true, false, 4096, none⟩ else .error .notFound, ())
  | .read _ => (.error .notFound, ())
  | .readRange _ _ _ => (.error .notFound, ())
  | .list _ => (.ok [⟨"a.txt", by refine ⟨?_, ?_, ?_⟩ <;> decide⟩], ())
  | .entryType _ _ => (.ok false, ())

/-- A listing below a directory, with the paths that it uses. -/
theorem listing_below_srv :
    ((serve "/srv" .root "/docs" ∅ .get true).asked oneDirectory ()).map Access.path =
      ["/srv/docs", "/srv/docs/index.html", "/srv/docs", "/srv/docs/a.txt"] ∧
    (∀ a ∈ (serve "/srv" .root "/docs" ∅ .get true).asked oneDirectory (), Below "/srv" a) ∧
    serve "/srv" .root "/docs/../../etc" ∅ .get true = .done (text 403 "403 Forbidden\n") ∧
    ∀ a ∈ (renderDirectoryListing (Path.join "/srv" "docs") "/docs").asked oneDirectory (),
      Below "/srv" a := by
  have hescapes : ¬ Path.Descends (relativePath .root "/docs/../../etc") :=
    mt componentsSafe_iff.2 (by decide +kernel)
  have hdocs : Path.Descends "docs" := componentsSafe_iff.1 (by decide +kernel)
  have h := static_containment oneDirectory () "/srv" ∅ .get
  exact ⟨by decide +kernel, (h.1 .root "/docs" true).1, (h.1 .root _ true).2 hescapes,
    h.2.2 "docs" "/docs" hdocs⟩

end Elrond.Static
