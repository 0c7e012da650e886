import Mathlib.Data.List.Forall2
import Mathlib.Tactic

/-!
# Fallible computations

Rules for `Except`: what a successful bind, a successful left fold and a successful map of a list
went through. A fold is followed by `foldlM_induction` with an invariant over the part of the list
already read, and three rules say what it leaves in a field of its state: all that was given, what
was given last, or one value for each element of a kind. A map relates inputs and outputs
elementwise (`mapM_forall₂`). Where it matters only whether a computation gives a value, `Succeeds`
has a rule for each of these; where its value counts too but not its error, results are compared by
`Agree`, which is equality after `toOption`.
-/

set_option autoImplicit false

namespace Elrond.Lib

universe u v

variable {ε α β S : Type u}

/-- A successful bind is two successes. -/
theorem bind_eq_ok {x : Except ε α} {f : α → Except ε β} {b : β} :
    x >>= f = .ok b ↔ ∃ a, x = .ok a ∧ f a = .ok b := by
  cases x with
  | error e => simp [bind, Except.bind]
  | ok a => simp [bind, Except.bind]

/-- A successful map is a success. -/
theorem map_eq_ok {f : α → β} {x : Except ε α} {b : β} :
    x.map f = .ok b ↔ ∃ a, x = .ok a ∧ f a = b := by
  cases x with
  | error e => simp [Except.map]
  | ok a => simp [Except.map]

/-- An invariant over the elements read so far holds at the end of a successful fold. -/
theorem foldlM_induction {f : S → α → Except ε S} {motive : List α → S → Prop} {s₀ : S}
    (h₀ : motive [] s₀)
    (hstep : ∀ read x s s', motive read s → f s x = .ok s' → motive (read ++ [x]) s') :
    ∀ {xs : List α} {s : S}, xs.foldlM f s₀ = .ok s → motive xs s := by
  intro xs
  induction xs using List.reverseRecOn with
  | nil =>
      intro s h
      obtain rfl := Except.ok.inj h
      exact h₀
  | append_singleton xs x ih =>
      intro s h
      rw [List.foldlM_append] at h
      obtain ⟨s', hxs, hx⟩ := bind_eq_ok.1 h
      rw [List.foldlM_cons] at hx
      obtain ⟨s'', hstep', hs⟩ := bind_eq_ok.1 hx
      obtain rfl := Except.ok.inj hs
      exact hstep xs x s' s'' (ih hxs) hstep'

/-! ### What a fold leaves in a field -/

/-- A field to which every element adds what it gives holds what all of them gave, in order. -/
theorem foldlM_appends {f : S → α → Except ε S} {V : Type v} (field : S → List V)
    {give : α → Option V}
    (hstep : ∀ s x s', f s x = .ok s' → field s' = field s ++ (give x).toList)
    {xs : List α} {s₀ s : S} (h : xs.foldlM f s₀ = .ok s) :
    field s = field s₀ ++ xs.filterMap give := by
  refine foldlM_induction (motive := fun read s => field s = field s₀ ++ read.filterMap give)
    (by simp) ?_ h
  intro read x s s' hread hx
  rw [hstep s x s' hx, hread, List.filterMap_append, List.append_assoc]
  cases hg : give x <;> simp [hg]

/-- A field that an element replaces if it gives something holds what was given last. -/
theorem foldlM_replaces {f : S → α → Except ε S} {V : Type v} (field : S → V)
    {give : α → Option V}
    (hstep : ∀ s x s', f s x = .ok s' → field s' = (give x).getD (field s))
    {xs : List α} {s₀ s : S} (h : xs.foldlM f s₀ = .ok s) :
    field s = (xs.filterMap give).getLast?.getD (field s₀) := by
  refine foldlM_induction
    (motive := fun read s => field s = (read.filterMap give).getLast?.getD (field s₀))
    (by simp) ?_ h
  intro read x s s' hread hx
  rw [hstep s x s' hx, List.filterMap_append]
  cases hg : give x with
  | none => simpa [hg] using hread
  | some v => simp [hg]

/-- A field to which the elements of one kind add a value each holds one value for each of them. -/
theorem foldlM_collects {f : S → α → Except ε S} {V : Type v} (field : S → List V)
    {kind : α → Bool} {R : α → V → Prop} {s₀ : S} (h₀ : field s₀ = [])
    (hstep : ∀ s x s', f s x = .ok s' →
      if kind x then ∃ y, R x y ∧ field s' = field s ++ [y] else field s' = field s)
    {xs : List α} {s : S} (h : xs.foldlM f s₀ = .ok s) :
    List.Forall₂ R (xs.filter kind) (field s) := by
  refine foldlM_induction
    (motive := fun read s => List.Forall₂ R (read.filter kind) (field s)) ?_ ?_ h
  · rw [h₀]
    exact List.Forall₂.nil
  · intro read x s s' hread hx
    have hstep := hstep s x s' hx
    rw [List.filter_append]
    cases hk : kind x with
    | false =>
        have hkept : field s' = field s := by simpa [hk] using hstep
        simpa [hk, hkept] using hread
    | true =>
        have hadded : ∃ y, R x y ∧ field s' = field s ++ [y] := by simpa [hk] using hstep
        obtain ⟨y, hy, hfield⟩ := hadded
        rw [hfield, List.filter_cons_of_pos hk]
        exact List.rel_append hread (List.Forall₂.cons hy List.Forall₂.nil)

/-- A fold that fails went well up to the element it failed at. -/
theorem foldlM_eq_error {f : S → α → Except ε S} {e : ε} :
    ∀ {xs : List α} {s₀ : S}, xs.foldlM f s₀ = .error e →
      ∃ read x rest s, xs = read ++ x :: rest ∧ read.foldlM f s₀ = .ok s ∧ f s x = .error e := by
  intro xs
  induction xs with
  | nil =>
      intro s₀ h
      cases h
  | cons x xs ih =>
      intro s₀ h
      rw [List.foldlM_cons] at h
      cases hx : f s₀ x with
      | error e' =>
          rw [hx] at h
          exact ⟨[], x, xs, s₀, rfl, rfl, hx.trans h⟩
      | ok s =>
          rw [hx] at h
          obtain ⟨read, y, rest, s', rfl, hread, hy⟩ := ih h
          refine ⟨x :: read, y, rest, s', rfl, ?_, hy⟩
          rw [List.foldlM_cons, hx]
          exact hread

/-- A successful map relates inputs and outputs elementwise. -/
theorem mapM_forall₂ {f : α → Except ε β} :
    ∀ {xs : List α} {ys : List β}, xs.mapM f = .ok ys →
      List.Forall₂ (fun x y => f x = .ok y) xs ys := by
  intro xs
  induction xs with
  | nil =>
      intro ys h
      obtain rfl := Except.ok.inj h
      exact List.Forall₂.nil
  | cons x xs ih =>
      intro ys h
      rw [List.mapM_cons] at h
      obtain ⟨y, hy, h⟩ := bind_eq_ok.1 h
      obtain ⟨zs, hzs, h⟩ := bind_eq_ok.1 h
      obtain rfl := Except.ok.inj h
      exact List.Forall₂.cons hy (ih hzs)

/-- A map that never fails succeeds. -/
theorem mapM_ok (f : α → β) (xs : List α) :
    (xs.mapM fun x => (Except.ok (f x) : Except ε β)) = .ok (xs.map f) := by
  induction xs with
  | nil => rfl
  | cons x xs ih =>
      rw [List.mapM_cons, ih]
      rfl

/-- Related lists have a partner on the right for every element on the left. -/
theorem forall₂_exists_right {R : α → β → Prop} {xs : List α} {ys : List β}
    (h : List.Forall₂ R xs ys) : ∀ x ∈ xs, ∃ y ∈ ys, R x y := by
  induction h with
  | nil =>
      intro x hx
      exact absurd hx List.not_mem_nil
  | cons hr _ ih =>
      intro x hx
      rcases List.mem_cons.1 hx with rfl | hx
      · exact ⟨_, List.mem_cons_self, hr⟩
      · obtain ⟨y, hy, hxy⟩ := ih x hx
        exact ⟨y, List.mem_cons_of_mem _ hy, hxy⟩

/-- And a partner on the left for every element on the right. -/
theorem forall₂_exists_left {R : α → β → Prop} {xs : List α} {ys : List β}
    (h : List.Forall₂ R xs ys) : ∀ y ∈ ys, ∃ x ∈ xs, R x y :=
  forall₂_exists_right (List.Forall₂.flip h)

/-- And the partner stands at the same position. -/
theorem forall₂_getElem?_left {R : α → β → Prop} {xs : List α} {ys : List β}
    (h : List.Forall₂ R xs ys) {k : Nat} {y : β} (hy : ys[k]? = some y) :
    ∃ x, xs[k]? = some x ∧ R x y := by
  induction h generalizing k with
  | nil => cases hy
  | cons hr _ ih =>
      cases k with
      | zero =>
          obtain rfl := Option.some.inj hy
          exact ⟨_, rfl, hr⟩
      | succ k => exact ih hy

/-- The first elements of related lists with a property of related elements are related. -/
theorem forall₂_find? {R : α → β → Prop} {p : α → Bool} {q : β → Bool} {xs : List α} {ys : List β}
    (h : List.Forall₂ R xs ys) (hpq : ∀ x y, R x y → p x = q y) :
    (xs.find? p = none ∧ ys.find? q = none) ∨
      ∃ x y, xs.find? p = some x ∧ ys.find? q = some y ∧ R x y := by
  induction h with
  | nil => exact Or.inl ⟨rfl, rfl⟩
  | @cons x y xs ys hr _ ih =>
      have hsame := hpq x y hr
      cases hq : q y with
      | true =>
          rw [hq] at hsame
          exact Or.inr ⟨x, y, List.find?_cons_of_pos hsame, List.find?_cons_of_pos hq, hr⟩
      | false =>
          rw [hq] at hsame
          rw [List.find?_cons_of_neg (Bool.eq_false_iff.1 hsame),
            List.find?_cons_of_neg (Bool.eq_false_iff.1 hq)]
          exact ih

/-- A property of related elements that is the same on both sides is had on both or on neither. -/
theorem exists_iff_of_forall₂ {R : α → β → Prop} {p : α → Prop} {q : β → Prop} {xs : List α}
    {ys : List β} (h : List.Forall₂ R xs ys) (hpq : ∀ x y, R x y → (p x ↔ q y)) :
    (∃ x ∈ xs, p x) ↔ ∃ y ∈ ys, q y := by
  constructor
  · rintro ⟨x, hx, hp⟩
    obtain ⟨y, hy, hxy⟩ := forall₂_exists_right h x hx
    exact ⟨y, hy, (hpq x y hxy).1 hp⟩
  · rintro ⟨y, hy, hq⟩
    obtain ⟨x, hx, hxy⟩ := forall₂_exists_left h y hy
    exact ⟨x, hx, (hpq x y hxy).2 hq⟩

/-- Looking every element up successfully relates the elements to what was found. -/
theorem forall₂_filterMap {R : α → β → Prop} {f : α → Option β} :
    ∀ {xs : List α}, (∀ x ∈ xs, ∃ y, R x y ∧ f x = some y) →
      List.Forall₂ R xs (xs.filterMap f) := by
  intro xs
  induction xs with
  | nil =>
      intro _
      exact List.Forall₂.nil
  | cons x xs ih =>
      intro h
      obtain ⟨y, hy, hf⟩ := h x List.mem_cons_self
      rw [List.filterMap_cons_some hf]
      exact List.Forall₂.cons hy (ih fun z hz => h z (List.mem_cons_of_mem x hz))

/-- Lists related by a function on the right are determined by it. -/
theorem map_eq_of_forall₂ {R : α → β → Prop} {f : β → α} (hf : ∀ x y, R x y → f y = x)
    {xs : List α} {ys : List β} (h : List.Forall₂ R xs ys) : ys.map f = xs := by
  induction h with
  | nil => rfl
  | cons hr _ ih => rw [List.map_cons, ih, hf _ _ hr]

/-! ## Success alone -/

/-- The computation gives a value. -/
def Succeeds (x : Except ε α) : Prop := ∃ a, x = .ok a

theorem succeeds_ok (a : α) : Succeeds (.ok a : Except ε α) := ⟨a, rfl⟩

theorem not_succeeds_error (e : ε) : ¬ Succeeds (.error e : Except ε α) := by
  rintro ⟨a, h⟩
  cases h

theorem succeeds_bind_iff {x : Except ε α} {f : α → Except ε β} :
    Succeeds (x >>= f) ↔ ∃ a, x = .ok a ∧ Succeeds (f a) := by
  constructor
  · rintro ⟨b, h⟩
    obtain ⟨a, ha, hb⟩ := bind_eq_ok.1 h
    exact ⟨a, ha, b, hb⟩
  · rintro ⟨a, ha, b, hb⟩
    exact ⟨b, bind_eq_ok.2 ⟨a, ha, hb⟩⟩

/-- When what follows succeeds under a condition that does not depend on the value. -/
theorem succeeds_bind_iff_and {x : Except ε α} {f : α → Except ε β} {P : Prop}
    (hf : ∀ a, x = .ok a → (Succeeds (f a) ↔ P)) : Succeeds (x >>= f) ↔ Succeeds x ∧ P := by
  rw [succeeds_bind_iff]
  constructor
  · rintro ⟨a, ha, hfa⟩
    exact ⟨⟨a, ha⟩, (hf a ha).1 hfa⟩
  · rintro ⟨⟨a, ha⟩, hp⟩
    exact ⟨a, ha, (hf a ha).2 hp⟩

/-- A last step that never fails adds no condition. -/
theorem succeeds_bind_ok {x : Except ε α} {g : α → β} :
    Succeeds (x >>= fun a => .ok (g a)) ↔ Succeeds x := by
  rw [succeeds_bind_iff]
  exact ⟨fun ⟨a, ha, _⟩ => ⟨a, ha⟩, fun ⟨a, ha⟩ => ⟨a, ha, succeeds_ok _⟩⟩

/-- A map succeeds if it does on every element. -/
theorem succeeds_mapM_iff {f : α → Except ε β} {xs : List α} :
    Succeeds (xs.mapM f) ↔ ∀ x ∈ xs, Succeeds (f x) := by
  induction xs with
  | nil => exact iff_of_true (succeeds_ok _) (fun x hx => absurd hx List.not_mem_nil)
  | cons x xs ih =>
      rw [List.mapM_cons, List.forall_mem_cons, ← ih]
      exact succeeds_bind_iff_and fun y _ => succeeds_bind_ok

/-- A fold whose steps succeed by their elements alone succeeds if all of them do. -/
theorem succeeds_foldlM_iff {f : S → α → Except ε S} {P : α → Prop}
    (hstep : ∀ s x, Succeeds (f s x) ↔ P x) {xs : List α} {s : S} :
    Succeeds (xs.foldlM f s) ↔ ∀ x ∈ xs, P x := by
  induction xs generalizing s with
  | nil => exact iff_of_true (succeeds_ok _) (fun x hx => absurd hx List.not_mem_nil)
  | cons x xs ih =>
      rw [List.foldlM_cons, List.forall_mem_cons, ← hstep s x]
      exact succeeds_bind_iff_and fun s' _ => ih

/-! ## Results up to the error -/

/-- Two computations agree: the same value, or an error on both sides. -/
def Agree (x y : Except ε α) : Prop :=
  (∃ a, x = .ok a ∧ y = .ok a) ∨ (∃ e e', x = .error e ∧ y = .error e')

theorem toOption_eq_some {x : Except ε α} {a : α} : x.toOption = some a ↔ x = .ok a := by
  cases x with
  | error e => simp [Except.toOption]
  | ok b => simp [Except.toOption]

theorem agree_iff {x y : Except ε α} : Agree x y ↔ x.toOption = y.toOption := by
  cases x with
  | error e => cases y <;> simp [Agree, Except.toOption]
  | ok a => cases y <;> simp [Agree, Except.toOption, eq_comm]

theorem toOption_bind (x : Except ε α) (f : α → Except ε β) :
    (x >>= f).toOption = x.toOption.bind fun a => (f a).toOption := by
  cases x <;> rfl

theorem toOption_map (x : Except ε α) (f : α → β) : (x.map f).toOption = x.toOption.map f := by
  cases x <;> rfl

theorem toOption_foldlM (f : S → α → Except ε S) (xs : List α) (s : S) :
    (xs.foldlM f s).toOption = xs.foldlM (fun s x => (f s x).toOption) s := by
  induction xs generalizing s with
  | nil => rfl
  | cons x xs ih =>
      rw [List.foldlM_cons, List.foldlM_cons, toOption_bind]
      exact congrArg _ (funext ih)

end Elrond.Lib
