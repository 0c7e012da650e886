import Elrond.Lib.Run

/-!
# Publishing a version in two cells

A writer moves from version to version by updates and publishes each in two cells: the part `first`
of the new version, then the part `second`. Readers look at the second cell and then at the first
one. Every write and every read of a cell is one step, and steps come in any order, as long as the
writer finishes an update before it begins another.

What a reader ends up with need not belong to one version, but it can differ in one direction only:
the part of the first cell is as new as that of the second, or newer (`Wf.run`).
-/

set_option autoImplicit false

namespace Elrond.Lib.Publish

universe u v w x

variable {V : Type u} {U : Type v} {α : Type w} {β : Type x}

/-- What a reader has read: the second cell when `since` had been published, and the first cell when
the publication of `upto` had begun. -/
structure Read (U : Type v) (α : Type w) (β : Type x) where
  second : β
  since : List U
  first : α
  upto : List U

/-- The cells, the version the writer has published last, the updates it has published and the one
it is publishing, and the readers between their two steps and after them. -/
structure State (V : Type u) (U : Type v) (α : Type w) (β : Type x) where
  first : α
  second : β
  version : V
  completed : List U := []
  underway : Option U := none
  reading : List (β × List U) := []
  reads : List (Read U α β) := []

/-- A step of the writer or of a reader; a reader between its steps is named by its position. -/
inductive Event (U : Type v) where
  | begin (update : U)
  | finish
  | look
  | take (i : Nat)

/-- The updates whose publication has begun. -/
def State.begun (st : State V U α β) : List U := st.completed ++ st.underway.toList

section Machine

variable (next : V → U → V) (first : V → α) (second : V → β)

/-- The cells hold one version and nobody has read them. -/
def init (v : V) : State V U α β where
  first := first v
  second := second v
  version := v

/-- The state after a step; a step that is not possible leaves it as it is. -/
def step (st : State V U α β) : Event U → State V U α β
  | .begin update =>
      match st.underway with
      | some _ => st
      | none => { st with first := first (next st.version update), underway := some update }
  | .finish =>
      match st.underway with
      | none => st
      | some update =>
          { st with
            second := second (next st.version update)
            version := next st.version update
            completed := st.completed ++ [update]
            underway := none }
  | .look => { st with reading := st.reading ++ [(st.second, st.completed)] }
  | .take i =>
      match st.reading[i]? with
      | none => st
      | some (b, since) =>
          { st with
            reading := st.reading.eraseIdx i
            reads := st.reads ++ [⟨b, since, st.first, st.begun⟩] }

/-- The version that updates lead to. -/
def versionAfter (v : V) (updates : List U) : V := updates.foldl next v

/-- A finished read: its second part is of an earlier version than its first part, or of the
same. -/
structure InOrder (v : V) (begun : List U) (r : Read U α β) : Prop where
  second_eq : r.second = second (versionAfter next v r.since)
  first_eq : r.first = first (versionAfter next v r.upto)
  since_upto : r.since <+: r.upto
  upto_begun : r.upto <+: begun

/-- The cells hold what has been published, and readers have read what had been. -/
structure Wf (v : V) (st : State V U α β) : Prop where
  version_eq : st.version = versionAfter next v st.completed
  first_eq : st.first = first (versionAfter next v st.begun)
  second_eq : st.second = second (versionAfter next v st.completed)
  reading : ∀ r ∈ st.reading, r.1 = second (versionAfter next v r.2) ∧ r.2 <+: st.completed
  reads : ∀ r ∈ st.reads, InOrder next first second v st.begun r

variable {next first second}

theorem versionAfter_concat (v : V) (updates : List U) (update : U) :
    versionAfter next v (updates ++ [update]) = next (versionAfter next v updates) update := by
  rw [versionAfter, List.foldl_append]
  rfl

theorem InOrder.mono {v : V} {begun begun' : List U} {r : Read U α β}
    (h : InOrder next first second v begun r) (hle : begun <+: begun') :
    InOrder next first second v begun' r :=
  { h with upto_begun := h.upto_begun.trans hle }

theorem Wf.init (v : V) : Wf next first second v (init (U := U) first second v) where
  version_eq := rfl
  first_eq := rfl
  second_eq := rfl
  reading := by
    intro r hr
    cases hr
  reads := by
    intro r hr
    cases hr

/-- Beginning an update puts its first part into the first cell. -/
theorem Wf.begin {v : V} {st : State V U α β} (h : Wf next first second v st) (update : U) :
    Wf next first second v (step next first second st (.begin update)) := by
  simp only [step]
  cases hunder : st.underway with
  | some _ => exact h
  | none =>
      have hbegun : st.begun = st.completed := by
        rw [State.begun, hunder]
        exact List.append_nil _
      exact
        { version_eq := h.version_eq
          first_eq := by
            show first (next st.version update) =
              first (versionAfter next v (st.completed ++ [update]))
            rw [versionAfter_concat, ← h.version_eq]
          second_eq := h.second_eq
          reading := h.reading
          reads := fun r hr => (h.reads r hr).mono (by
            rw [hbegun]
            exact List.prefix_append _ _) }

/-- Finishing it brings the second cell up to the first. -/
theorem Wf.finish {v : V} {st : State V U α β} (h : Wf next first second v st) :
    Wf next first second v (step next first second st .finish) := by
  simp only [step]
  cases hunder : st.underway with
  | none => exact h
  | some update =>
      have hbegun : st.begun = st.completed ++ [update] := by
        rw [State.begun, hunder]
        rfl
      have hversion : next st.version update = versionAfter next v (st.completed ++ [update]) := by
        rw [versionAfter_concat, ← h.version_eq]
      have hdone : (st.completed ++ [update]) ++ (none : Option U).toList = st.begun := by
        rw [hbegun]
        exact List.append_nil _
      exact
        { version_eq := hversion
          first_eq := by
            show st.first = first (versionAfter next v _)
            rw [State.begun, hdone]
            exact h.first_eq
          second_eq := congrArg second hversion
          reading := fun r hr =>
            ⟨(h.reading r hr).1, (h.reading r hr).2.trans (List.prefix_append _ _)⟩
          reads := fun r hr => (h.reads r hr).mono (by
            show st.begun <+: (st.completed ++ [update]) ++ (none : Option U).toList
            rw [hdone]) }

/-- A reader between its steps has read the second cell of some published version. -/
theorem Wf.look {v : V} {st : State V U α β} (h : Wf next first second v st) :
    Wf next first second v (step next first second st .look) where
  version_eq := h.version_eq
  first_eq := h.first_eq
  second_eq := h.second_eq
  reading := by
    intro r hr
    rcases List.mem_append.1 hr with hr | hr
    · exact h.reading r hr
    · rw [List.mem_singleton.1 hr]
      exact ⟨h.second_eq, List.prefix_rfl⟩
  reads := h.reads

/-- The first cell is never behind what the reader has seen of the second. -/
theorem Wf.take {v : V} {st : State V U α β} (h : Wf next first second v st) (i : Nat) :
    Wf next first second v (step next first second st (.take i)) := by
  simp only [step]
  cases hget : st.reading[i]? with
  | none => exact h
  | some r =>
      obtain ⟨hsecond, hsince⟩ := h.reading r (List.mem_of_getElem? hget)
      exact
        { version_eq := h.version_eq
          first_eq := h.first_eq
          second_eq := h.second_eq
          reading := fun r hr => h.reading r (List.mem_of_mem_eraseIdx hr)
          reads := by
            intro r' hr'
            rcases List.mem_append.1 hr' with hr' | hr'
            · exact h.reads r' hr'
            · rw [List.mem_singleton.1 hr']
              exact ⟨hsecond, h.first_eq, hsince.trans (List.prefix_append _ _), List.prefix_rfl⟩ }

theorem Wf.step {v : V} {st : State V U α β} (h : Wf next first second v st) (e : Event U) :
    Wf next first second v (step next first second st e) := by
  cases e with
  | begin update => exact h.begin update
  | finish => exact h.finish
  | look => exact h.look
  | take i => exact h.take i

/-- Whatever the order of the steps, reads are in order. -/
theorem Wf.run (v : V) (es : List (Event U)) :
    Wf next first second v (run (Publish.step next first second) (Publish.init first second v) es) :=
  run_invariant (fun _ e h => h.step e) (Wf.init v) es

end Machine

end Elrond.Lib.Publish
