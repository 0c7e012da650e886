import Mathlib.Logic.Basic

/-!
# Computations that ask their environment

A computation either is done or asks a question and goes on with the answer. An environment answers
from a state of its own, so two equal questions may be answered differently. `asked` lists the
questions of one run; `Only P` says that `P` holds for the questions of every run.
-/

set_option autoImplicit false

namespace Elrond.Lib

/-- A computation with questions in `Q`, where `q` is answered in `A q`. -/
inductive Asks (Q : Type) (A : Q → Type) (α : Type) where
  | done (value : α)
  | ask (q : Q) (next : A q → Asks Q A α)

namespace Asks

variable {Q : Type} {A : Q → Type} {α β σ : Type}

/-- Run a computation and go on with its value. -/
def andThen : Asks Q A α → (α → Asks Q A β) → Asks Q A β
  | .done value, f => f value
  | .ask q next, f => .ask q fun a => (next a).andThen f

instance : Monad (Asks Q A) where
  pure := .done
  bind := andThen

/-- Ask one question. -/
def question (q : Q) : Asks Q A (A q) := .ask q .done

/-- The value of a computation in an environment, and the state that it leaves there. -/
def run (answer : σ → (q : Q) → A q × σ) : Asks Q A α → σ → α × σ
  | .done value, s => (value, s)
  | .ask q next, s => run answer (next (answer s q).1) (answer s q).2

/-- The questions a computation asks in an environment, in order. -/
def asked (answer : σ → (q : Q) → A q × σ) : Asks Q A α → σ → List Q
  | .done _, _ => []
  | .ask q next, s => q :: asked answer (next (answer s q).1) (answer s q).2

/-- The value of a computation whose questions have fixed answers. -/
def value (reply : (q : Q) → A q) : Asks Q A α → α
  | .done value => value
  | .ask q next => value reply (next (reply q))

/-- Whatever the answers are, every question satisfies `P`. -/
def Only (P : Q → Prop) : Asks Q A α → Prop
  | .done _ => True
  | .ask q next => P q ∧ ∀ a, Only P (next a)

@[simp] theorem pure_eq_done (value : α) : (pure value : Asks Q A α) = .done value := rfl

@[simp] theorem question_bind (q : Q) (f : A q → Asks Q A β) : (question q >>= f) = .ask q f := rfl

theorem run_bind (answer : σ → (q : Q) → A q × σ) (m : Asks Q A α) (f : α → Asks Q A β) (s : σ) :
    (m >>= f).run answer s = (f (m.run answer s).1).run answer (m.run answer s).2 := by
  induction m generalizing s with
  | done value => rfl
  | ask q next ih => exact ih _ _

theorem asked_bind (answer : σ → (q : Q) → A q × σ) (m : Asks Q A α) (f : α → Asks Q A β) (s : σ) :
    (m >>= f).asked answer s =
      m.asked answer s ++ (f (m.run answer s).1).asked answer (m.run answer s).2 := by
  induction m generalizing s with
  | done value => rfl
  | ask q next ih => exact congrArg (q :: ·) (ih _ _)

theorem value_bind (reply : (q : Q) → A q) (m : Asks Q A α) (f : α → Asks Q A β) :
    (m >>= f).value reply = (f (m.value reply)).value reply := by
  induction m with
  | done value => rfl
  | ask q next ih => exact ih _

theorem Only.done {P : Q → Prop} (value : α) : Only P (.done value : Asks Q A α) := trivial

theorem Only.ask {P : Q → Prop} {q : Q} {next : A q → Asks Q A α} (hq : P q)
    (hnext : ∀ a, Only P (next a)) : Only P (.ask q next) := ⟨hq, hnext⟩

theorem Only.question {P : Q → Prop} {q : Q} (hq : P q) : Only P (question q : Asks Q A (A q)) :=
  .ask hq .done

theorem Only.mono {P R : Q → Prop} (hPR : ∀ q, P q → R q) {m : Asks Q A α} (h : Only P m) :
    Only R m := by
  induction m with
  | done value => exact .done value
  | ask q next ih => exact .ask (hPR q h.1) fun a => ih a (h.2 a)

/-- Computations in sequence ask only what each of them asks. -/
theorem Only.bind {P : Q → Prop} {m : Asks Q A α} (h : Only P m) {f : α → Asks Q A β}
    (hf : ∀ value, Only P (f value)) : Only P (m >>= f) := by
  induction m with
  | done value => exact hf value
  | ask q next ih => exact .ask h.1 fun a => ih a (h.2 a)

/-- The questions of a run are among those of all runs. -/
theorem Only.asked {P : Q → Prop} {m : Asks Q A α} (h : Only P m)
    (answer : σ → (q : Q) → A q × σ) (s : σ) : ∀ q ∈ m.asked answer s, P q := by
  induction m generalizing s with
  | done value => exact fun _ hq => absurd hq List.not_mem_nil
  | ask q next ih =>
      intro q' hq'
      rcases List.mem_cons.1 hq' with rfl | hq'
      · exact h.1
      · exact ih _ (h.2 _) _ q' hq'

/-- Questions that the environment answers without regard to its state, and without a change of it,
leave the state alone. -/
theorem Only.run_eq {P : Q → Prop} {answer : σ → (q : Q) → A q × σ} {reply : (q : Q) → A q}
    (hanswer : ∀ s q, P q → answer s q = (reply q, s)) {m : Asks Q A α} (h : Only P m) (s : σ) :
    m.run answer s = (m.value reply, s) := by
  induction m with
  | done value => rfl
  | ask q next ih =>
      show (next (answer s q).1).run answer (answer s q).2 = ((next (reply q)).value reply, s)
      rw [hanswer s q h.1]
      exact ih _ (h.2 _)

-- from here on `Only` is used through its rules
attribute [irreducible] Only

end Asks

end Elrond.Lib
