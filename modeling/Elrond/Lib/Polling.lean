import Elrond.Lib.Run

/-!
# Polling with a deadline for the answers

Something is polled again and again. A poll comes when the time for it has come, `interval` after the
one before, and is answered within `timeout`; everything may be late by up to `lag`. Answers need not
come in the order of the polls, and polls need not wait for answers.

However the polls and the answers overlap, an answer comes at least once in every stretch of time of
length `interval + timeout + 2 * lag` (`Bounded.next_le`), and `n` answers come in `n` intervals and a
timeout.
-/

set_option autoImplicit false

namespace Elrond.Lib.Polling

/-- The clock, the time the next poll is due, when the unanswered polls were sent, and the number of
answers. -/
structure State where
  now : Nat
  due : Nat
  pending : List Nat
  answers : Nat

/-- A step: a poll is sent, one is answered, or something else happens, which may give the answer on
its own account. -/
inductive Event where
  | poll
  | answer (k : Nat)
  | other (answers : Nat)

variable (interval timeout lag : Nat)

/-- The state after a step at a time. -/
def step (s : State) : Nat × Event → State
  | (t, .poll) => { s with now := t, due := t + interval, pending := s.pending ++ [t] }
  | (t, .answer k) =>
      if k < s.pending.length then
        { s with now := t, pending := s.pending.eraseIdx k, answers := s.answers + 1 }
      else { s with now := t }
  | (t, .other n) => { s with now := t, answers := s.answers + n }

/-- Nothing is overdue at the time `t`. -/
structure InTime (s : State) (t : Nat) : Prop where
  now_le : s.now ≤ t
  due_le : t ≤ s.due + lag
  pending_le : ∀ p ∈ s.pending, t ≤ p + timeout + lag

/-- Counted from the time `start`, with no answers then: every unanswered poll, and the next one, has
its place behind the answers there have been. -/
structure Bounded (start : Nat) (s : State) : Prop where
  pending_le : ∀ k p, s.pending[k]? = some p → p ≤ start + (s.answers + k + 1) * (interval + lag)
  due_le : s.due ≤ start + (s.answers + s.pending.length) * (interval + lag) + interval

variable {interval timeout lag}

/-- At the start all polls have been sent. -/
theorem Bounded.start {s : State} (hpending : ∀ p ∈ s.pending, p ≤ s.now)
    (hdue : s.due ≤ s.now + interval) : Bounded interval lag s.now s where
  pending_le := fun k p hp => (hpending p (List.mem_of_getElem? hp)).trans (Nat.le_add_right _ _)
  due_le := hdue.trans (by
    rw [Nat.add_right_comm]
    exact Nat.le_add_right _ _)

/-- Answers only move the bounds on. -/
theorem Bounded.more {start : Nat} {s s' : State} (h : Bounded interval lag start s)
    (hpending : s'.pending = s.pending) (hdue : s'.due = s.due) (hanswers : s.answers ≤ s'.answers) :
    Bounded interval lag start s' where
  pending_le := by
    intro k p hp
    rw [hpending] at hp
    refine (h.pending_le k p hp).trans ?_
    gcongr
  due_le := by
    rw [hpending, hdue]
    refine h.due_le.trans ?_
    gcongr

/-- A poll takes the place after the unanswered ones. -/
theorem Bounded.poll {start : Nat} {s : State} (h : Bounded interval lag start s) {t : Nat}
    (ht : t ≤ s.due + lag) : Bounded interval lag start (step interval s (t, .poll)) := by
  have hbound : t ≤ start + (s.answers + s.pending.length + 1) * (interval + lag) := by
    have hdue := h.due_le
    rw [Nat.add_mul, Nat.one_mul]
    omega
  refine ⟨fun k p hp => ?_, ?_⟩
  · have hnew : (s.pending ++ [t])[k]? = some p := hp
    rw [List.getElem?_append] at hnew
    split at hnew
    · exact h.pending_le k p hnew
    · rename_i hk
      obtain rfl := List.mem_singleton.1 (List.mem_of_getElem? hnew)
      refine hbound.trans ?_
      have hle : s.pending.length ≤ k := Nat.not_lt.1 hk
      show _ ≤ start + (s.answers + k + 1) * (interval + lag)
      gcongr
  · show t + interval ≤ start + (s.answers + (s.pending ++ [t]).length) * (interval + lag) + interval
    rw [List.length_append, List.length_singleton, ← Nat.add_assoc]
    exact Nat.add_le_add_right hbound interval

/-- An answer takes a poll away, and those behind it move up. -/
theorem Bounded.answer {start : Nat} {s : State} (h : Bounded interval lag start s) {k : Nat}
    (hk : k < s.pending.length) (t : Nat) :
    Bounded interval lag start (step interval s (t, .answer k)) := by
  rw [step, if_pos hk]
  refine ⟨fun j p hp => ?_, ?_⟩
  · have hnew : (s.pending.eraseIdx k)[j]? = some p := hp
    rw [List.getElem?_eraseIdx] at hnew
    split at hnew
    · refine (h.pending_le j p hnew).trans ?_
      show _ ≤ start + (s.answers + 1 + j + 1) * (interval + lag)
      gcongr
      exact Nat.le_succ _
    · refine (h.pending_le (j + 1) p hnew).trans (le_of_eq ?_)
      show _ = start + (s.answers + 1 + j + 1) * (interval + lag)
      ring
  · refine h.due_le.trans (le_of_eq ?_)
    have hlen : (s.pending.eraseIdx k).length + 1 = s.pending.length := by
      rw [List.length_eraseIdx_of_lt hk]
      omega
    show _ = start + (s.answers + 1 + (s.pending.eraseIdx k).length) * (interval + lag) + interval
    rw [← hlen]
    ring

theorem Bounded.step {start : Nat} {s : State} (h : Bounded interval lag start s) {e : Nat × Event}
    (he : InTime timeout lag s e.1) : Bounded interval lag start (step interval s e) := by
  obtain ⟨t, e⟩ := e
  cases e with
  | poll => exact h.poll he.due_le
  | answer k =>
      by_cases hk : k < s.pending.length
      · exact h.answer hk t
      · rw [Polling.step, if_neg hk]
        exact h.more rfl rfl le_rfl
  | other n => exact h.more rfl rfl (Nat.le_add_right _ _)

/-- While nothing is overdue, the clock is bounded by the number of answers. -/
theorem Bounded.next_le {start : Nat} {s : State} (h : Bounded interval lag start s) {t : Nat}
    (ht : InTime timeout lag s t) :
    t ≤ start + (s.answers + 1) * (interval + lag) + timeout + lag := by
  cases hpending : s.pending with
  | nil =>
      have hdue := h.due_le
      rw [hpending, List.length_nil, Nat.add_zero] at hdue
      have := ht.due_le
      rw [Nat.add_mul, Nat.one_mul]
      omega
  | cons p ps =>
      have hp := h.pending_le 0 p (by rw [hpending]; rfl)
      have := ht.pending_le p (by rw [hpending]; exact List.mem_cons_self)
      rw [Nat.add_zero] at hp
      omega

end Elrond.Lib.Polling
