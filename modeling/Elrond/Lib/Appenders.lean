import Elrond.Lib.Run

/-!
# Appending to files that are moved away

Writers hold open files and append to them. Each writer has a name under which it opens its file
again from time to time, in two steps: it opens whatever file has the name then, creating one if
there is none, and later takes that file in place of the one it holds. Other programs may give a
file another name, remove a name, or create a file, at any moment; a file keeps its contents, and a
writer its file, whatever happens to names.

As long as nobody moves a file onto the name of a writer, the files a writer appends to follow one
another in the order they were created (`Ordered.run`), writers whose names denote different files
never share one (`Apart.run`), and a file that no writer holds and none of their names denotes is
never written again (`Left.contents_run`).
-/

set_option autoImplicit false

namespace Elrond.Lib

universe u v w

/-! ## Files and names -/

/-- Files are numbered in the order of their creation, and `fresh` is the number of the next one. -/
structure Disk (P : Type u) (B : Type v) where
  named : P → Option Nat
  contents : Nat → List B
  fresh : Nat
  named_lt : ∀ {p i}, named p = some i → i < fresh
  contents_fresh : ∀ {i}, fresh ≤ i → contents i = []

namespace Disk

variable {P : Type u} {B : Type v}

/-- Bytes are appended to a file that exists. -/
def append (d : Disk P B) (i : Nat) (bs : List B) : Disk P B where
  named := d.named
  contents := if i < d.fresh then Function.update d.contents i (d.contents i ++ bs) else d.contents
  fresh := d.fresh
  named_lt := d.named_lt
  contents_fresh := by
    intro j hj
    split
    · rename_i hi
      rw [Function.update_of_ne (Nat.ne_of_gt (Nat.lt_of_lt_of_le hi hj))]
      exact d.contents_fresh hj
    · exact d.contents_fresh hj

theorem contents_append_self {d : Disk P B} {i : Nat} (hi : i < d.fresh) (bs : List B) :
    (d.append i bs).contents i = d.contents i ++ bs := by
  simp [append, hi]

theorem contents_append_of_ne {d : Disk P B} {i j : Nat} (hij : j ≠ i) (bs : List B) :
    (d.append i bs).contents j = d.contents j := by
  simp only [append]
  split
  · exact Function.update_of_ne hij _ _
  · rfl

@[simp] theorem named_append (d : Disk P B) (i : Nat) (bs : List B) :
    (d.append i bs).named = d.named := rfl

@[simp] theorem fresh_append (d : Disk P B) (i : Nat) (bs : List B) :
    (d.append i bs).fresh = d.fresh := rfl

variable [DecidableEq P]

/-- A file is created under the name. -/
def create (d : Disk P B) (p : P) : Disk P B where
  named := Function.update d.named p (some d.fresh)
  contents := d.contents
  fresh := d.fresh + 1
  named_lt := by
    intro q i h
    rw [Function.update_apply] at h
    split at h
    · obtain rfl := Option.some.inj h
      exact Nat.lt_succ_self _
    · exact Nat.lt_succ_of_lt (d.named_lt h)
  contents_fresh := fun h => d.contents_fresh (Nat.le_of_succ_le h)

/-- The file of that name, created if need be, and the disk after that. -/
def openAppend (d : Disk P B) (p : P) : Nat × Disk P B :=
  match d.named p with
  | some i => (i, d)
  | none => (d.fresh, d.create p)

/-- A name is removed; its file stays. -/
def remove (d : Disk P B) (p : P) : Disk P B where
  named := Function.update d.named p none
  contents := d.contents
  fresh := d.fresh
  named_lt := by
    intro q i h
    rw [Function.update_apply] at h
    split at h
    · cases h
    · exact d.named_lt h
  contents_fresh := d.contents_fresh

/-- A file is given the name `q` in place of the name `p`. -/
def rename (d : Disk P B) (p q : P) : Disk P B where
  named := Function.update (Function.update d.named p none) q (d.named p)
  contents := d.contents
  fresh := d.fresh
  named_lt := by
    intro r i h
    rw [Function.update_apply] at h
    split at h
    · exact d.named_lt h
    · exact (d.remove p).named_lt h
  contents_fresh := d.contents_fresh

/-- What opening a name does: the file has the name afterwards, other names stay, and either the
file had it before or it is new. -/
theorem openAppend_cases (d : Disk P B) (p : P) :
    (d.named p = some (d.openAppend p).1 ∧ (d.openAppend p).2 = d) ∨
      (d.named p = none ∧ (d.openAppend p).1 = d.fresh ∧ (d.openAppend p).2 = d.create p) := by
  rw [openAppend]
  cases h : d.named p with
  | some i => exact .inl ⟨rfl, rfl⟩
  | none => exact .inr ⟨rfl, rfl, rfl⟩

@[simp] theorem named_create (d : Disk P B) (p q : P) :
    (d.create p).named q = if q = p then some d.fresh else d.named q := Function.update_apply ..

@[simp] theorem named_remove (d : Disk P B) (p q : P) :
    (d.remove p).named q = if q = p then none else d.named q := Function.update_apply ..

theorem named_rename {d : Disk P B} {p q r : P} (h : r ≠ q) :
    (d.rename p q).named r = if r = p then none else d.named r := by
  show Function.update _ q _ r = _
  rw [Function.update_of_ne h, Function.update_apply]

theorem named_openAppend_self (d : Disk P B) (p : P) :
    (d.openAppend p).2.named p = some (d.openAppend p).1 := by
  rcases d.openAppend_cases p with ⟨h, heq⟩ | ⟨-, hfile, heq⟩
  · rw [heq, h]
  · rw [heq, hfile, named_create, if_pos rfl]

theorem contents_openAppend (d : Disk P B) (p : P) : (d.openAppend p).2.contents = d.contents := by
  rcases d.openAppend_cases p with ⟨-, heq⟩ | ⟨-, -, heq⟩ <;> rw [heq]
  rfl

theorem fresh_le_openAppend (d : Disk P B) (p : P) : d.fresh ≤ (d.openAppend p).2.fresh := by
  rcases d.openAppend_cases p with ⟨-, heq⟩ | ⟨-, -, heq⟩ <;> rw [heq]
  exact Nat.le_succ _

end Disk

/-! ## Writers -/

/-- The disk, the file each writer holds and the one it has opened and not yet taken, and everything
the writers have appended, in that order. -/
@[ext] structure Appenders (ι : Type u) (P : Type v) (B : Type w) where
  disk : Disk P B
  held : ι → Option Nat
  opened : ι → Option Nat
  record : List (ι × Nat × List B)

namespace Appenders

variable {ι : Type u} {P : Type v} {B : Type w} [DecidableEq ι] [DecidableEq P]

/-- A step of a writer, or of another program. -/
inductive Event (ι : Type u) (P : Type v) (B : Type w) where
  | write (w : ι) (bs : List B)
  | openFile (w : ι)
  | swap (w : ι)
  | create (p : P)
  | rename (p q : P)
  | remove (p : P)

/-- Nobody has opened a file. -/
def init (d : Disk P B) : Appenders ι P B where
  disk := d
  held := fun _ => none
  opened := fun _ => none
  record := []

section Machine

variable (path : ι → Option P)

/-- The state after a step; a step that is not possible leaves it as it is. -/
def step (s : Appenders ι P B) : Event ι P B → Appenders ι P B
  | .write w bs =>
      match s.held w with
      | none => s
      | some i => { s with disk := s.disk.append i bs, record := s.record ++ [(w, i, bs)] }
  | .openFile w =>
      match path w with
      | none => s
      | some p =>
          { s with
            disk := (s.disk.openAppend p).2
            opened := Function.update s.opened w (some (s.disk.openAppend p).1) }
  | .swap w =>
      match s.opened w with
      | none => s
      | some i =>
          { s with
            held := Function.update s.held w (some i)
            opened := Function.update s.opened w none }
  | .create p => { s with disk := (s.disk.openAppend p).2 }
  | .rename p q => { s with disk := s.disk.rename p q }
  | .remove p => { s with disk := s.disk.remove p }

/-- The step moves no file onto the name of a writer. -/
def Event.Keeps : Event ι P B → Prop
  | .rename _ q => ∀ w, path w ≠ some q
  | _ => True

/-- The file a writer's name denotes. -/
def target (s : Appenders ι P B) (w : ι) : Option Nat := (path w).bind s.disk.named

/-- The name under which a step opens or creates a file. -/
def Event.name : Event ι P B → Option P
  | .openFile w => path w
  | .create p => some p
  | _ => none

/-- The writer appends to the file, is about to, or will if it opens its name now. -/
def InUse (s : Appenders ι P B) (w : ι) (i : Nat) : Prop :=
  s.held w = some i ∨ s.opened w = some i ∨ s.target path w = some i

/-- The writer uses the file or has appended to it. -/
def Uses (s : Appenders ι P B) (w : ι) (i : Nat) : Prop :=
  s.InUse path w i ∨ ∃ bs, (w, i, bs) ∈ s.record

/-- The step creates the file, under the writer's name. -/
def Creates (s : Appenders ι P B) (e : Event ι P B) (w : ι) (i : Nat) : Prop :=
  i = s.disk.fresh ∧ (step path s e).disk.fresh = i + 1 ∧
    ∃ p, path w = some p ∧ e.name path = some p

variable {path}

/-! ## What a step can do -/

/-- A writer holds what it held, or what it had opened and has taken now. -/
theorem held_step {s : Appenders ι P B} {e : Event ι P B} {w : ι} {i : Nat}
    (h : (step path s e).held w = some i) :
    s.held w = some i ∨ s.opened w = some i ∧ (step path s e).opened w = none := by
  cases e with
  | swap u =>
      simp only [step] at h
      cases hopened : s.opened u with
      | none => exact Or.inl (by simpa only [hopened] using h)
      | some j =>
          simp only [hopened, Function.update_apply] at h
          split at h
          · rename_i hwu
            exact Or.inr ⟨by rw [hwu, hopened, h], by simp [step, hwu, hopened]⟩
          · exact Or.inl h
  | write u bs =>
      simp only [step] at h
      split at h <;> exact Or.inl h
  | openFile u =>
      simp only [step] at h
      split at h <;> exact Or.inl h
  | create p => exact Or.inl h
  | rename p q => exact Or.inl h
  | remove p => exact Or.inl h

/-- A writer has opened what it had opened, or the file its name denotes now. -/
theorem opened_step {s : Appenders ι P B} {e : Event ι P B} {w : ι} {i : Nat}
    (h : (step path s e).opened w = some i) :
    s.opened w = some i ∨ (step path s e).target path w = some i := by
  cases e with
  | openFile u =>
      simp only [step] at h ⊢
      cases hu : path u with
      | none => exact Or.inl (by simpa only [hu] using h)
      | some p =>
          simp only [hu, Function.update_apply] at h ⊢
          split at h
          · rename_i hwu
            right
            rw [target, hwu, hu, ← h]
            exact s.disk.named_openAppend_self p
          · exact Or.inl h
  | swap u =>
      simp only [step] at h
      split at h
      · exact Or.inl h
      · simp only [Function.update_apply] at h
        split at h
        · cases h
        · exact Or.inl h
  | write u bs =>
      simp only [step] at h
      split at h <;> exact Or.inl h
  | create p => exact Or.inl h
  | rename p q => exact Or.inl h
  | remove p => exact Or.inl h

/-- A step appends to the file that some writer holds and records it, or leaves all contents. -/
theorem write_step (s : Appenders ι P B) (e : Event ι P B) :
    ((step path s e).record = s.record ∧ (step path s e).disk.contents = s.disk.contents) ∨
      ∃ w i bs, s.held w = some i ∧ (step path s e).record = s.record ++ [(w, i, bs)] ∧
        (step path s e).disk.contents = (s.disk.append i bs).contents := by
  cases e with
  | write u bs =>
      simp only [step]
      cases hheld : s.held u with
      | none => exact Or.inl ⟨rfl, rfl⟩
      | some j => exact Or.inr ⟨u, j, bs, hheld, rfl, rfl⟩
  | openFile u =>
      left
      simp only [step]
      split
      · exact ⟨rfl, rfl⟩
      · exact ⟨rfl, Disk.contents_openAppend ..⟩
  | swap u =>
      left
      simp only [step]
      split <;> exact ⟨rfl, rfl⟩
  | create p => exact Or.inl ⟨rfl, Disk.contents_openAppend ..⟩
  | rename p q => exact Or.inl ⟨rfl, rfl⟩
  | remove p => exact Or.inl ⟨rfl, rfl⟩

/-- The disk after a step: names are opened, or given and taken away. -/
theorem disk_step (s : Appenders ι P B) (e : Event ι P B) :
    (∃ p, e.name path = some p ∧ (step path s e).disk = (s.disk.openAppend p).2) ∨
      (step path s e).disk.fresh = s.disk.fresh ∧
        (e.Keeps path → ∀ w p i, path w = some p → (step path s e).disk.named p = some i →
          s.disk.named p = some i) := by
  cases e with
  | write u bs =>
      right
      cases hheld : s.held u with
      | none =>
          rw [show step path s (.write u bs) = s by simp only [step, hheld]]
          exact ⟨rfl, fun _ _ _ _ _ h => h⟩
      | some i =>
          simp only [step, hheld]
          exact ⟨rfl, fun _ _ _ _ _ h => h⟩
  | openFile u =>
      cases hu : path u with
      | none =>
          right
          rw [show step path s (.openFile u) = s by simp only [step, hu]]
          exact ⟨rfl, fun _ _ _ _ _ h => h⟩
      | some p => exact Or.inl ⟨p, hu, by simp only [step, hu]⟩
  | swap u =>
      right
      simp only [step]
      split
      · exact ⟨rfl, fun _ _ _ _ _ h => h⟩
      · exact ⟨rfl, fun _ _ _ _ _ h => h⟩
  | create p => exact Or.inl ⟨p, rfl, rfl⟩
  | rename p q =>
      refine Or.inr ⟨rfl, fun hkeeps w p' i hp' h => ?_⟩
      have hne : p' ≠ q := by
        rintro rfl
        exact hkeeps w hp'
      simp only [step, Disk.named_rename hne] at h
      split at h
      · cases h
      · exact h
  | remove p =>
      refine Or.inr ⟨rfl, fun _ w p' i _ h => ?_⟩
      simp only [step, Disk.named_remove] at h
      split at h
      · cases h
      · exact h

/-- A name of a writer denotes what it denoted, or a file that the step created under it. -/
theorem target_step {s : Appenders ι P B} {e : Event ι P B} (he : e.Keeps path) {w : ι} {i : Nat}
    (h : (step path s e).target path w = some i) :
    s.target path w = some i ∨ s.Creates path e w i := by
  obtain ⟨q, hq, hnamed⟩ := Option.bind_eq_some_iff.1 h
  have hold : s.disk.named q = some i → s.target path w = some i := by
    intro hi
    rw [target, hq]
    exact hi
  rcases disk_step s e with ⟨p, hname, hdisk⟩ | ⟨-, hkept⟩
  · rw [hdisk] at hnamed
    rcases s.disk.openAppend_cases p with ⟨-, heq⟩ | ⟨-, -, heq⟩
    · exact Or.inl (hold (heq ▸ hnamed))
    · rw [heq, Disk.named_create] at hnamed
      split at hnamed
      · rename_i hqp
        obtain rfl := Option.some.inj hnamed
        exact Or.inr ⟨rfl, by rw [hdisk, heq]; rfl, p, hqp ▸ hq, hname⟩
      · exact Or.inl (hold hnamed)
  · exact Or.inl (hold (hkept he w q i hq hnamed))

/-- No step makes file numbers go down. -/
theorem fresh_le_step (s : Appenders ι P B) (e : Event ι P B) :
    s.disk.fresh ≤ (step path s e).disk.fresh := by
  rcases disk_step s e with ⟨p, -, hdisk⟩ | ⟨hfresh, -⟩
  · rw [hdisk]
    exact s.disk.fresh_le_openAppend p
  · exact hfresh.ge

/-- A writer uses what it used before, or a file that the step created under its name. -/
theorem inUse_step {s : Appenders ι P B} {e : Event ι P B} (he : e.Keeps path) {w : ι} {i : Nat}
    (h : (step path s e).InUse path w i) : s.InUse path w i ∨ s.Creates path e w i := by
  have htarget : (step path s e).target path w = some i → s.InUse path w i ∨ s.Creates path e w i :=
    fun h => (target_step he h).imp_left fun h => Or.inr (Or.inr h)
  rcases h with h | h | h
  · exact Or.inl ((held_step h).imp_right fun h => Or.inl h.1)
  · rcases opened_step h with h | h
    · exact Or.inl (Or.inr (Or.inl h))
    · exact htarget h
  · exact htarget h

theorem uses_step {s : Appenders ι P B} {e : Event ι P B} (he : e.Keeps path) {w : ι} {i : Nat}
    (h : (step path s e).Uses path w i) : s.Uses path w i ∨ s.Creates path e w i := by
  rcases h with h | ⟨bs, h⟩
  · exact (inUse_step he h).imp_left Or.inl
  · left
    rcases write_step s e with ⟨heq, -⟩ | ⟨u, j, bs', hheld, heq, -⟩
    · exact Or.inr ⟨bs, heq ▸ h⟩
    · rw [heq, List.mem_append, List.mem_singleton] at h
      rcases h with h | h
      · exact Or.inr ⟨bs, h⟩
      · obtain ⟨rfl, rfl, -⟩ : w = u ∧ i = j ∧ bs = bs' := by simpa using h
        exact Or.inl (Or.inl hheld)

/-- Opening the file of a name and taking it at once. -/
theorem run_openFile_swap (s : Appenders ι P B) {w : ι} {p : P} (hp : path w = some p) :
    run (step path) s [.openFile w, .swap w] =
      { s with
        disk := (s.disk.openAppend p).2
        held := Function.update s.held w (some (s.disk.openAppend p).1)
        opened := Function.update s.opened w none } := by
  simp only [run_cons, run_nil, step, hp, Function.update_self, Function.update_idem]

/-- A writer without a name opens nothing. -/
theorem run_openFile_swap_none {s : Appenders ι P B} {w : ι} (hp : path w = none)
    (hopened : s.opened w = none) : run (step path) s [.openFile w, .swap w] = s := by
  simp only [run_cons, run_nil, step, hp, hopened]

/-! ## Numbers and order -/

/-- The files a writer has appended to, one for each time it has. -/
def files (s : Appenders ι P B) (w : ι) : List Nat :=
  (s.record.filter fun r => r.1 = w).map fun r => r.2.1

/-- What a writer has appended. -/
def written (s : Appenders ι P B) (w : ι) : List B :=
  (s.record.filter fun r => r.1 = w).flatMap fun r => r.2.2

/-- What a writer has appended to one file. -/
def writtenTo (s : Appenders ι P B) (w : ι) (i : Nat) : List B :=
  (s.record.filter fun r => r.1 = w ∧ r.2.1 = i).flatMap fun r => r.2.2

/-- What all writers have appended to one file. -/
def appended (s : Appenders ι P B) (i : Nat) : List B :=
  (s.record.filter fun r => r.2.1 = i).flatMap fun r => r.2.2

variable (path) in
/-- A writer goes from file to file upwards: what it has appended to, what it holds, what it has
opened, what its name denotes. -/
structure Ordered (s : Appenders ι P B) : Prop where
  uses_lt : ∀ {w i}, s.Uses path w i → i < s.disk.fresh
  recorded : ∀ {w i bs}, (w, i, bs) ∈ s.record → ∃ j, s.held w = some j ∧ i ≤ j
  held_le_opened : ∀ {w i j}, s.held w = some i → s.opened w = some j → i ≤ j
  held_le_target : ∀ {w i j}, s.held w = some i → s.target path w = some j → i ≤ j
  opened_le_target : ∀ {w i j}, s.opened w = some i → s.target path w = some j → i ≤ j
  sorted : ∀ w, (s.files w).Pairwise (· ≤ ·)

omit [DecidableEq P] in
theorem Ordered.init (d : Disk P B) : Ordered path (init d : Appenders ι P B) where
  uses_lt := by
    rintro w i ((h | h | h) | ⟨bs, h⟩)
    · cases h
    · cases h
    · obtain ⟨p, -, hnamed⟩ := Option.bind_eq_some_iff.1 h
      exact d.named_lt hnamed
    · cases h
  recorded := by
    intro w i bs h
    cases h
  held_le_opened := by
    intro w i j h
    cases h
  held_le_target := by
    intro w i j h
    cases h
  opened_le_target := by
    intro w i j h
    cases h
  sorted := by
    intro w
    exact List.Pairwise.nil

/-- A writer that holds a file holds one after every step, not an earlier one. -/
theorem Ordered.held_le {s : Appenders ι P B} (h : Ordered path s) {e : Event ι P B} {w : ι} {i : Nat}
    (hi : s.held w = some i) : ∃ j, (step path s e).held w = some j ∧ i ≤ j := by
  cases e with
  | swap u =>
      simp only [step]
      cases hopened : s.opened u with
      | none => exact ⟨i, hi, le_rfl⟩
      | some j =>
          simp only [Function.update_apply]
          split
          · rename_i hwu
            exact ⟨j, rfl, h.held_le_opened hi (hwu ▸ hopened)⟩
          · exact ⟨i, hi, le_rfl⟩
  | write u bs =>
      refine ⟨i, ?_, le_rfl⟩
      simp only [step]
      split <;> exact hi
  | openFile u =>
      refine ⟨i, ?_, le_rfl⟩
      simp only [step]
      split <;> exact hi
  | create p => exact ⟨i, hi, le_rfl⟩
  | rename p q => exact ⟨i, hi, le_rfl⟩
  | remove p => exact ⟨i, hi, le_rfl⟩

/-- A file a writer uses is not behind what its name comes to denote. -/
theorem Ordered.le_target {s : Appenders ι P B} (h : Ordered path s) {e : Event ι P B}
    (he : e.Keeps path) {w : ι} {i j : Nat} (hi : s.held w = some i ∨ s.opened w = some i)
    (hj : (step path s e).target path w = some j) : i ≤ j := by
  rcases target_step he hj with hj | ⟨rfl, -⟩
  · exact hi.elim (fun hi => h.held_le_target hi hj) fun hi => h.opened_le_target hi hj
  · exact Nat.le_of_lt (h.uses_lt (Or.inl (hi.imp_right Or.inl)))

/-- A writer that appends does so to a file not before those it has appended to. -/
theorem Ordered.sorted_step {s : Appenders ι P B} (h : Ordered path s) (e : Event ι P B) (w : ι) :
    ((step path s e).files w).Pairwise (· ≤ ·) := by
  rcases write_step s e with ⟨heq, -⟩ | ⟨u, i, bs, hheld, heq, -⟩
  · rw [files, heq]
    exact h.sorted w
  · rw [files, heq, List.filter_append, List.map_append, List.pairwise_append]
    refine ⟨h.sorted w, ?_, ?_⟩
    · by_cases huw : u = w <;> simp [huw]
    · intro j hj k hk
      by_cases huw : u = w
      · subst huw
        obtain rfl : k = i := by simpa using hk
        obtain ⟨⟨v, l, bs'⟩, hfilter, rfl⟩ := List.mem_map.1 hj
        obtain ⟨hmem, hv⟩ := List.mem_filter.1 hfilter
        obtain rfl : v = u := by simpa using hv
        obtain ⟨m, hm, hle⟩ := h.recorded hmem
        obtain rfl : m = k := Option.some.inj (hm.symm.trans hheld)
        exact hle
      · simp [huw] at hk

theorem Ordered.step {s : Appenders ι P B} (h : Ordered path s) {e : Event ι P B}
    (he : e.Keeps path) : Ordered path (step path s e) where
  uses_lt := by
    intro w i hi
    rcases uses_step he hi with hi | ⟨-, hfresh, -⟩
    · exact Nat.lt_of_lt_of_le (h.uses_lt hi) (fresh_le_step s e)
    · rw [hfresh]
      exact Nat.lt_succ_self i
  recorded := by
    intro w i bs hmem
    have hbefore : ∃ j, s.held w = some j ∧ i ≤ j := by
      rcases write_step s e with ⟨heq, -⟩ | ⟨u, j, bs', hheld, heq, -⟩
      · exact h.recorded (heq ▸ hmem)
      · rw [heq, List.mem_append, List.mem_singleton] at hmem
        rcases hmem with hmem | hmem
        · exact h.recorded hmem
        · obtain ⟨rfl, rfl, -⟩ : w = u ∧ i = j ∧ bs = bs' := by simpa using hmem
          exact ⟨i, hheld, le_rfl⟩
    obtain ⟨j, hj, hle⟩ := hbefore
    obtain ⟨k, hk, hle'⟩ := h.held_le hj
    exact ⟨k, hk, hle.trans hle'⟩
  held_le_opened := by
    intro w i j hi hj
    rcases held_step hi with hi' | hi'
    · rcases opened_step hj with hj | hj
      · exact h.held_le_opened hi' hj
      · exact h.le_target he (Or.inl hi') hj
    · rw [hi'.2] at hj
      cases hj
  held_le_target := fun hi hj => h.le_target he ((held_step hi).imp_right And.left) hj
  opened_le_target := by
    intro w i j hi hj
    rcases opened_step hi with hi | hi
    · exact h.le_target he (Or.inr hi) hj
    · exact (Option.some.inj (hi.symm.trans hj)).le
  sorted := h.sorted_step e

/-- Along a run that moves nothing onto a writer's name, every writer goes upwards. -/
theorem Ordered.run {s : Appenders ι P B} (h : Ordered path s) {es : List (Event ι P B)}
    (hes : ∀ e ∈ es, e.Keeps path) : Ordered path (run (Appenders.step path) s es) := by
  induction es generalizing s with
  | nil => exact h
  | cons e es ih =>
      exact ih (h.step (hes e List.mem_cons_self)) fun e he => hes e (List.mem_cons_of_mem _ he)

/-! ## What the files hold -/

/-- Every file holds what it held at first and what writers have appended to it. -/
theorem contents_step {s : Appenders ι P B} (h : Ordered path s) {first : Nat → List B}
    (hs : ∀ i, s.disk.contents i = first i ++ s.appended i) (e : Event ι P B) (i : Nat) :
    (step path s e).disk.contents i = first i ++ (step path s e).appended i := by
  rcases write_step s e with ⟨hrecord, hdisk⟩ | ⟨w, j, bs, hheld, hrecord, hdisk⟩
  · rw [hdisk, appended, hrecord]
    exact hs i
  · rw [hdisk, appended, hrecord, List.filter_append, List.flatMap_append, ← List.append_assoc]
    have hj : j < s.disk.fresh := h.uses_lt (Or.inl (Or.inl hheld))
    by_cases hij : i = j
    · subst hij
      rw [Disk.contents_append_self hj, hs i, appended]
      simp
    · rw [Disk.contents_append_of_ne hij, hs i, appended]
      simp [Ne.symm hij]

theorem contents_run {s : Appenders ι P B} (h : Ordered path s) {first : Nat → List B}
    (hs : ∀ i, s.disk.contents i = first i ++ s.appended i) {es : List (Event ι P B)}
    (hes : ∀ e ∈ es, e.Keeps path) (i : Nat) :
    (run (step path) s es).disk.contents i = first i ++ (run (step path) s es).appended i := by
  induction es generalizing s with
  | nil => exact hs i
  | cons e es ih =>
      exact ih (h.step (hes e List.mem_cons_self)) (contents_step h hs e)
        fun e he => hes e (List.mem_cons_of_mem _ he)

theorem contents_run_init (d : Disk P B) {es : List (Event ι P B)} (hes : ∀ e ∈ es, e.Keeps path)
    (i : Nat) : (run (step path) (init d) es).disk.contents i =
      d.contents i ++ (run (step path) (init d) es).appended i := by
  refine contents_run (Ordered.init d) (fun j => ?_) hes i
  exact (List.append_nil (d.contents j)).symm

/-- In a list sorted by number, what has the number `m` comes right after what has a smaller one. -/
theorem filter_lt_append_filter_eq {α : Type u} (f : α → Nat) {l : List α}
    (hl : (l.map f).Pairwise (· ≤ ·)) (m : Nat) :
    (l.filter fun a => f a < m) ++ (l.filter fun a => f a = m) = l.filter fun a => f a < m + 1 := by
  induction l with
  | nil => rfl
  | cons a l ih =>
      rw [List.map_cons, List.pairwise_cons] at hl
      have htail := ih hl.2
      rcases Nat.lt_trichotomy (f a) m with h | h | h
      · rw [List.filter_cons_of_pos (by simpa using h), List.filter_cons_of_neg (by simpa using h.ne),
          List.filter_cons_of_pos (by simpa using h.le), List.cons_append, htail]
      · have hnone : l.filter (fun b => f b < m) = [] := by
          rw [List.filter_eq_nil_iff]
          intro b hb
          have hle : f a ≤ f b := hl.1 (f b) (List.mem_map_of_mem hb)
          simpa using h ▸ hle
        rw [hnone, List.nil_append] at htail
        rw [List.filter_cons_of_neg (by simpa using h.ge), hnone,
          List.filter_cons_of_pos (by simpa using h), List.filter_cons_of_pos (by simpa using h.le),
          List.nil_append, htail]
      · rw [List.filter_cons_of_neg (by simpa using h.le), List.filter_cons_of_neg (by simpa using h.ne'),
          List.filter_cons_of_neg (by simpa using h), htail]

/-- What is sorted by number is its parts of number zero, one, and so on. -/
theorem flatMap_range_filter {α : Type u} {β : Type v} (f : α → Nat) (g : α → List β) {l : List α}
    (hl : (l.map f).Pairwise (· ≤ ·)) {n : Nat} (hn : ∀ a ∈ l, f a < n) :
    (List.range n).flatMap (fun i => (l.filter fun a => f a = i).flatMap g) = l.flatMap g := by
  have hsplit : ∀ m, (List.range m).flatMap (fun i => (l.filter fun a => f a = i).flatMap g) =
      (l.filter fun a => f a < m).flatMap g := by
    intro m
    induction m with
    | zero => simp
    | succ m ih =>
        rw [List.range_succ, List.flatMap_append, ih, List.flatMap_singleton, ← List.flatMap_append,
          filter_lt_append_filter_eq f hl m]
  rw [hsplit n, List.filter_eq_self.2 fun a ha => by simpa using hn a ha]

/-- A sum over what passes a filter is one over everything if what does not pass adds nothing. -/
theorem flatMap_filter_eq {α : Type u} {β : Type v} {p : α → Bool} {f g : α → List β} {l : List α}
    (hpos : ∀ a, p a = true → f a = g a) (hneg : ∀ a, p a = false → g a = []) :
    (l.filter p).flatMap f = l.flatMap g := by
  induction l with
  | nil => rfl
  | cons a l ih =>
      cases hp : p a with
      | true => rw [List.filter_cons_of_pos hp, List.flatMap_cons, List.flatMap_cons, hpos a hp, ih]
      | false =>
          rw [List.filter_cons_of_neg (Bool.eq_false_iff.1 hp), List.flatMap_cons, hneg a hp, ih,
            List.nil_append]

omit [DecidableEq P] in
/-- The files in the order of their creation hold what a writer has appended, in order. -/
theorem Ordered.flatMap_writtenTo {s : Appenders ι P B} (h : Ordered path s) (w : ι) :
    (List.range s.disk.fresh).flatMap (s.writtenTo w) = s.written w := by
  have hlt : ∀ r ∈ s.record.filter (fun r => r.1 = w), r.2.1 < s.disk.fresh := by
    rintro ⟨u, i, bs⟩ hr
    obtain ⟨hmem, -⟩ := List.mem_filter.1 hr
    exact h.uses_lt (Or.inr ⟨bs, hmem⟩)
  have hall := flatMap_range_filter (fun r : ι × Nat × List B => r.2.1) (fun r => r.2.2)
    (h.sorted w) hlt
  rw [written, ← hall]
  congr 1
  funext i
  rw [writtenTo, List.filter_filter]
  congr 2
  funext r
  rw [Bool.decide_and, Bool.and_comm]

/-! ## Writers apart -/

variable (path) in
/-- No file is used by two writers. -/
def Apart (s : Appenders ι P B) : Prop :=
  ∀ w u i, w ≠ u → s.Uses path w i → ¬ s.Uses path u i

/-- Writers with different names stay apart. -/
theorem Apart.step {s : Appenders ι P B} (h : s.Apart path) (hs : Ordered path s)
    (hpath : ∀ {w u p}, path w = some p → path u = some p → w = u) {e : Event ι P B}
    (he : e.Keeps path) : (step path s e).Apart path := by
  intro w u i hwu hw hu
  rcases uses_step he hw with hw | ⟨hi, -, p, hp, hname⟩
  · rcases uses_step he hu with hu | ⟨hi, -⟩
    · exact h w u i hwu hw hu
    · exact absurd (hs.uses_lt hw) (hi ▸ lt_irrefl _)
  · rcases uses_step he hu with hu | ⟨-, -, q, hq, hname'⟩
    · exact absurd (hs.uses_lt hu) (hi ▸ lt_irrefl _)
    · obtain rfl : p = q := Option.some.inj (hname.symm.trans hname')
      exact hwu (hpath hp hq)

theorem Apart.run {s : Appenders ι P B} (h : s.Apart path) (hs : Ordered path s)
    (hpath : ∀ {w u p}, path w = some p → path u = some p → w = u) {es : List (Event ι P B)}
    (hes : ∀ e ∈ es, e.Keeps path) : (run (Appenders.step path) s es).Apart path := by
  induction es generalizing s with
  | nil => exact h
  | cons e es ih =>
      have he := hes e List.mem_cons_self
      exact ih (h.step hs hpath he) (hs.step he) fun e he => hes e (List.mem_cons_of_mem _ he)

omit [DecidableEq P] in
/-- What a writer alone appends to a file is all that is appended there. -/
theorem Apart.appended {s : Appenders ι P B} (h : s.Apart path) {w : ι} {i : Nat}
    (hw : s.Uses path w i) : s.appended i = s.writtenTo w i := by
  rw [Appenders.appended, writtenTo]
  congr 1
  refine List.filter_congr ?_
  rintro ⟨u, j, bs⟩ hmem
  by_cases hj : j = i
  · have hu : u = w := by
      by_contra hne
      exact h u w i hne (Or.inr ⟨bs, hj ▸ hmem⟩) hw
    simp [hj, hu]
  · simp [hj]

/-! ## Files that are left behind -/

variable (path) in
/-- The file exists, but no writer will open it: none has, and none of their names denotes it. -/
structure Left (s : Appenders ι P B) (i : Nat) : Prop where
  lt : i < s.disk.fresh
  opened_ne : ∀ w, s.opened w ≠ some i
  target_ne : ∀ w, s.target path w ≠ some i

theorem Left.step {s : Appenders ι P B} {i : Nat} (h : s.Left path i) {e : Event ι P B}
    (he : e.Keeps path) : (step path s e).Left path i := by
  have htarget : ∀ w, (Appenders.step path s e).target path w ≠ some i := by
    intro w hw
    rcases target_step he hw with hw | ⟨hi, -⟩
    · exact h.target_ne w hw
    · exact absurd h.lt (hi ▸ lt_irrefl _)
  refine ⟨h.lt.trans_le (fresh_le_step s e), fun w hw => ?_, htarget⟩
  rcases opened_step hw with hw | hw
  · exact h.opened_ne w hw
  · exact htarget w hw

/-- A writer that does not hold the file does not come to hold it. -/
theorem Left.held_step {s : Appenders ι P B} {i : Nat} (h : s.Left path i) {e : Event ι P B} {w : ι}
    (hw : (Appenders.step path s e).held w = some i) : s.held w = some i := by
  rcases Appenders.held_step hw with hw | ⟨hw, -⟩
  · exact hw
  · exact absurd hw (h.opened_ne w)

theorem Left.run {s : Appenders ι P B} {i : Nat} (h : s.Left path i) {es : List (Event ι P B)}
    (hes : ∀ e ∈ es, e.Keeps path) :
    (run (Appenders.step path) s es).Left path i ∧
      ∀ w, (Lib.run (Appenders.step path) s es).held w = some i → s.held w = some i := by
  induction es generalizing s with
  | nil => exact ⟨h, fun _ hw => hw⟩
  | cons e es ih =>
      obtain ⟨hleft, hheld⟩ := ih (h.step (hes e List.mem_cons_self)) fun e he =>
        hes e (List.mem_cons_of_mem _ he)
      exact ⟨hleft, fun w hw => h.held_step (hheld w hw)⟩

/-- A file that is left behind and that no writer holds is never written again. -/
theorem Left.contents_run {s : Appenders ι P B} {i : Nat} (h : s.Left path i)
    (hheld : ∀ w, s.held w ≠ some i) {es : List (Event ι P B)} (hes : ∀ e ∈ es, e.Keeps path) :
    (Lib.run (Appenders.step path) s es).disk.contents i = s.disk.contents i := by
  induction es generalizing s with
  | nil => rfl
  | cons e es ih =>
      have he := hes e List.mem_cons_self
      have hstep : (Appenders.step path s e).disk.contents i = s.disk.contents i := by
        rcases write_step s e with ⟨-, hdisk⟩ | ⟨w, j, bs, hw, -, hdisk⟩
        · rw [hdisk]
        · have hij : i ≠ j := by
            rintro rfl
            exact hheld w hw
          rw [hdisk, Disk.contents_append_of_ne hij]
      exact (ih (h.step he) (fun w hw => hheld w (h.held_step hw)) fun e he =>
        hes e (List.mem_cons_of_mem _ he)).trans hstep

end Machine

end Appenders

end Elrond.Lib
