import Elrond.Lib.Run
import Mathlib.Data.Finset.Card

/-!
# Choosing the least loaded server

Tasks come to a group of servers. A task looks at the loads of the servers of its pool, one after
the other, chooses one whose score is lowest by what it has seen, and enters it later; its load
counts there until it leaves. Every look, choice, entry and leave is one step, and the steps of all
tasks come in any order, so what a task has seen may be out of date when it chooses, and others may
have chosen in the meantime.

Still no server gets far ahead of the others. If at most `few` tasks are between their beginning and
their entry at any time, then the score of a server, without `few` of the tasks that are there or on
their way, is no higher than the score of any other server was at some moment while the last of
these tasks was looking (`balanced`).
-/

set_option autoImplicit false

namespace Elrond.Lib.LeastLoaded

universe u v

/-! ## The machine -/

/-- Where a task is. -/
inductive Phase (S : Type u) where
  | absent
  /-- looking at the loads, with these servers to look at -/
  | looking (todo : List S)
  | chosen (s : S)
  | inside (s : S)
  | gone
deriving DecidableEq

/-- Between its beginning and its entry. -/
def Phase.isOpen {S : Type u} : Phase S → Bool
  | .looking _ => true
  | .chosen _ => true
  | _ => false

/-- The server a task has chosen and has not left. -/
def Phase.server? {S : Type u} : Phase S → Option S
  | .chosen s => some s
  | .inside s => some s
  | _ => none

/-- The tasks, numbered in the order of their beginnings: where they are, the pool they began with,
what they have seen, and the tasks that were open when they began, themselves included. -/
structure State (S : Type u) where
  next : Nat := 0
  phase : Nat → Phase S := fun _ => .absent
  pool : Nat → List S := fun _ => []
  seen : Nat → List (S × Nat) := fun _ => []
  opened : Nat → Finset Nat := fun _ => ∅

variable {S : Type u} {K : Type v}

namespace State

variable (st : State S)

/-- The open tasks. -/
def openTasks : Finset Nat := (Finset.range st.next).filter fun k => (st.phase k).isOpen = true

/-- A task begins. -/
def start (servers : List S) : State S where
  next := st.next + 1
  phase := Function.update st.phase st.next (.looking servers)
  pool := Function.update st.pool st.next servers
  seen := Function.update st.seen st.next []
  opened := Function.update st.opened st.next (insert st.next st.openTasks)

/-- A task moves on. -/
def move (k : Nat) (ph : Phase S) : State S := { st with phase := Function.update st.phase k ph }

/-- A task has seen a load. -/
def see (k : Nat) (s : S) (n : Nat) (todo : List S) : State S :=
  { st.move k (.looking todo) with seen := Function.update st.seen k (st.seen k ++ [(s, n)]) }

section

variable (st : State S)

theorem start_next (servers : List S) : (st.start servers).next = st.next + 1 := rfl

theorem start_phase_self (servers : List S) :
    (st.start servers).phase st.next = .looking servers := Function.update_self _ _ _

theorem start_phase_of_ne {m : Nat} (hm : m ≠ st.next) (servers : List S) :
    (st.start servers).phase m = st.phase m := Function.update_of_ne hm _ _

theorem start_pool_self (servers : List S) : (st.start servers).pool st.next = servers :=
  Function.update_self _ _ _

theorem start_pool_of_ne {m : Nat} (hm : m ≠ st.next) (servers : List S) :
    (st.start servers).pool m = st.pool m := Function.update_of_ne hm _ _

theorem start_seen_self (servers : List S) : (st.start servers).seen st.next = [] :=
  Function.update_self _ _ _

theorem start_seen_of_ne {m : Nat} (hm : m ≠ st.next) (servers : List S) :
    (st.start servers).seen m = st.seen m := Function.update_of_ne hm _ _

theorem start_opened_self (servers : List S) :
    (st.start servers).opened st.next = insert st.next st.openTasks := Function.update_self _ _ _

theorem start_opened_of_ne {m : Nat} (hm : m ≠ st.next) (servers : List S) :
    (st.start servers).opened m = st.opened m := Function.update_of_ne hm _ _

theorem move_phase_self (k : Nat) (ph : Phase S) : (st.move k ph).phase k = ph :=
  Function.update_self _ _ _

theorem move_phase_of_ne {m k : Nat} (hm : m ≠ k) (ph : Phase S) :
    (st.move k ph).phase m = st.phase m := Function.update_of_ne hm _ _

theorem see_phase_self (k : Nat) (s : S) (n : Nat) (todo : List S) :
    (st.see k s n todo).phase k = .looking todo := Function.update_self _ _ _

theorem see_phase_of_ne {m k : Nat} (hm : m ≠ k) (s : S) (n : Nat) (todo : List S) :
    (st.see k s n todo).phase m = st.phase m := Function.update_of_ne hm _ _

theorem see_seen_self (k : Nat) (s : S) (n : Nat) (todo : List S) :
    (st.see k s n todo).seen k = st.seen k ++ [(s, n)] := Function.update_self _ _ _

theorem see_seen_of_ne {m k : Nat} (hm : m ≠ k) (s : S) (n : Nat) (todo : List S) :
    (st.see k s n todo).seen m = st.seen m := Function.update_of_ne hm _ _

end

section

variable [DecidableEq S]

/-- The tasks inside a server. -/
def insiders (s : S) : Finset Nat := (Finset.range st.next).filter fun k => st.phase k = .inside s

/-- The load of a server. -/
def load (s : S) : Nat := (st.insiders s).card

/-- The tasks that are in a server or on their way to it. -/
def bound (s : S) : Finset Nat :=
  (Finset.range st.next).filter fun k => (st.phase k).server? = some s

end

end State

/-- A step of a task. -/
inductive Event (S : Type u) where
  | begin (servers : List S)
  | look (k : Nat)
  | choose (k : Nat) (s : S)
  | enter (k : Nat)
  | leave (k : Nat)
  | quit (k : Nat)
  /-- something else happens -/
  | idle

section Machine

variable [DecidableEq S] [LinearOrder K] (score : S → Nat → K)

/-- By what was seen, no server has a lower score. -/
def Best (seen : List (S × Nat)) (s : S) : Prop :=
  ∃ n, (s, n) ∈ seen ∧ ∀ s' n', (s', n') ∈ seen → score s n ≤ score s' n'

open Classical in
/-- One step. A choice among equals is free; an event that is not possible changes nothing. -/
noncomputable def step (st : State S) : Event S → State S
  | .begin servers => st.start servers
  | .look k =>
      match st.phase k with
      | .looking (s :: todo) => st.see k s (st.load s) todo
      | _ => st
  | .choose k s =>
      if st.phase k = .looking [] ∧ Best score (st.seen k) s then st.move k (.chosen s) else st
  | .enter k =>
      match st.phase k with
      | .chosen s => st.move k (.inside s)
      | _ => st
  | .leave k =>
      match st.phase k with
      | .inside _ => st.move k .gone
      | _ => st
  | .quit k => if (st.phase k).isOpen then st.move k .gone else st
  | .idle => st

end Machine

/-! ## What a step does -/

/-- The steps that change something. -/
inductive Changes {S : Type u} {K : Type v} [DecidableEq S] [LinearOrder K] (score : S → Nat → K)
    (st : State S) : State S → Prop
  | start (servers : List S) : Changes score st (st.start servers)
  | see (k : Nat) (s : S) (todo : List S) (h : st.phase k = .looking (s :: todo)) :
      Changes score st (st.see k s (st.load s) todo)
  | choose (k : Nat) (s : S) (h : st.phase k = .looking []) (hbest : Best score (st.seen k) s) :
      Changes score st (st.move k (.chosen s))
  | enter (k : Nat) (s : S) (h : st.phase k = .chosen s) :
      Changes score st (st.move k (.inside s))
  | leave (k : Nat) (s : S) (h : st.phase k = .inside s) : Changes score st (st.move k .gone)
  | quit (k : Nat) (h : (st.phase k).isOpen = true) : Changes score st (st.move k .gone)

theorem step_cases [DecidableEq S] [LinearOrder K] (score : S → Nat → K) (st : State S)
    (e : Event S) : step score st e = st ∨ Changes score st (step score st e) := by
  cases e with
  | begin servers => exact Or.inr (.start servers)
  | look k =>
      rw [step]
      split
      · next s todo h => exact Or.inr (.see k s todo h)
      · exact Or.inl rfl
  | choose k s =>
      rw [step]
      split
      · next h => exact Or.inr (.choose k s h.1 h.2)
      · exact Or.inl rfl
  | enter k =>
      rw [step]
      split
      · next s h => exact Or.inr (.enter k s h)
      · exact Or.inl rfl
  | leave k =>
      rw [step]
      split
      · next s h => exact Or.inr (.leave k s h)
      · exact Or.inl rfl
  | quit k =>
      rw [step]
      split
      · next h => exact Or.inr (.quit k h)
      · exact Or.inl rfl
  | idle => exact Or.inl rfl

/-- A task may go on from its phase to another one. -/
def GoesOn (ph ph' : Phase S) : Prop :=
  (ph.isOpen = true ∧ ph' ≠ .absent) ∨ ∃ s, ph = .inside s ∧ ph' = .gone

/-- Nobody becomes open again by a move, and a server is entered only from an open phase. -/
theorem GoesOn.facts {st : State S} {k : Nat} {ph : Phase S} (h : GoesOn (st.phase k) ph) :
    (∀ m, (st.phase m).isOpen = false → ((st.move k ph).phase m).isOpen = false) ∧
      (∀ m s, (st.move k ph).phase m = .inside s →
        st.phase m = .inside s ∨ (st.phase m).isOpen = true) ∧
      ∀ m, (st.move k ph).phase m = .absent ↔ st.phase m = .absent := by
  have hpresent : st.phase k ≠ .absent ∧ ph ≠ .absent := by
    obtain ⟨hopen, hph⟩ | ⟨s, hs, rfl⟩ := h
    · refine ⟨fun habsent => ?_, hph⟩
      rw [habsent] at hopen
      cases hopen
    · rw [hs]
      exact ⟨(fun hno => nomatch hno), (fun hno => nomatch hno)⟩
  refine ⟨fun m hm => ?_, fun m s hm => ?_, fun m => ?_⟩
  · by_cases hmk : m = k
    · subst hmk
      obtain ⟨hopen, -⟩ | ⟨s, -, rfl⟩ := h
      · rw [hm] at hopen
        cases hopen
      · rw [State.move_phase_self]
        rfl
    · rw [State.move_phase_of_ne st hmk]
      exact hm
  · by_cases hmk : m = k
    · subst hmk
      obtain ⟨hopen, -⟩ | ⟨s', -, rfl⟩ := h
      · exact Or.inr hopen
      · rw [State.move_phase_self] at hm
        cases hm
    · rw [State.move_phase_of_ne st hmk] at hm
      exact Or.inl hm
  · by_cases hmk : m = k
    · subst hmk
      rw [State.move_phase_self]
      exact ⟨fun hno => absurd hno hpresent.2, fun hno => absurd hno hpresent.1⟩
    · rw [State.move_phase_of_ne st hmk]

/-! ## Loads -/

/-- The tasks that have begun are those with a number below the next one. -/
def Numbered (st : State S) : Prop := ∀ k, st.phase k = .absent ↔ st.next ≤ k

theorem Numbered.lt_next {st : State S} (hst : Numbered st) {k : Nat} (h : st.phase k ≠ .absent) :
    k < st.next := Nat.lt_of_not_le fun hle => h ((hst k).2 hle)

theorem Numbered.start {st : State S} (hst : Numbered st) (servers : List S) :
    Numbered (st.start servers) := by
  intro k
  rw [State.start_next]
  by_cases hk : k = st.next
  · subst hk
    rw [State.start_phase_self]
    constructor
    · exact fun h => nomatch h
    · exact fun h => absurd h (Nat.not_succ_le_self _)
  · rw [State.start_phase_of_ne st hk, hst k]
    omega

theorem Numbered.move {st : State S} (hst : Numbered st) {k : Nat} {ph : Phase S}
    (h : GoesOn (st.phase k) ph) : Numbered (st.move k ph) :=
  fun m => (h.facts.2.2 m).trans (hst m)

section

variable [DecidableEq S] {st : State S}

theorem mem_insiders {s : S} {m : Nat} :
    m ∈ st.insiders s ↔ m < st.next ∧ st.phase m = .inside s := by
  rw [State.insiders, Finset.mem_filter, Finset.mem_range]

theorem insiders_start (hst : Numbered st) (servers : List S) (s : S) :
    (st.start servers).insiders s = st.insiders s := by
  ext m
  rw [mem_insiders, mem_insiders, State.start_next]
  by_cases hm : m = st.next
  · subst hm
    rw [State.start_phase_self, (hst st.next).2 (Nat.le_refl _)]
    exact ⟨(fun h => nomatch h.2), (fun h => nomatch h.2)⟩
  · rw [State.start_phase_of_ne st hm]
    constructor
    · rintro ⟨hlt, hin⟩
      exact ⟨by omega, hin⟩
    · rintro ⟨hlt, hin⟩
      exact ⟨by omega, hin⟩

/-- Beginning changes no load. -/
theorem load_start (hst : Numbered st) (servers : List S) (s : S) :
    (st.start servers).load s = st.load s := by
  rw [State.load, insiders_start hst, State.load]

/-- A move counts where it leads to, and no longer where it comes from. -/
theorem load_move {k : Nat} (hk : k < st.next) (ph : Phase S) (s : S) :
    (st.move k ph).load s + (if st.phase k = .inside s then 1 else 0) =
      st.load s + if ph = .inside s then 1 else 0 := by
  have herase : ((st.move k ph).insiders s).erase k = (st.insiders s).erase k := by
    ext m
    rw [Finset.mem_erase, Finset.mem_erase, mem_insiders, mem_insiders]
    refine and_congr_right fun hm => ?_
    rw [State.move_phase_of_ne st hm]
    rfl
  have hcount : ∀ st' : State S, k < st'.next → st'.load s =
      ((st'.insiders s).erase k).card + if st'.phase k = .inside s then 1 else 0 := by
    intro st' hk'
    rw [State.load]
    split
    · next h => exact (Finset.card_erase_add_one (mem_insiders.2 ⟨hk', h⟩)).symm
    · next h =>
      rw [Finset.erase_eq_of_notMem fun hmem => h (mem_insiders.1 hmem).2, Nat.add_zero]
  rw [hcount (st.move k ph) hk, hcount st hk, herase, State.move_phase_self]
  omega

end

/-! ## What holds in every state -/

/-- What the tasks have to do with each other. -/
structure Wf [DecidableEq S] [LinearOrder K] (score : S → Nat → K) (st : State S) : Prop where
  numbered : Numbered st
  /-- an earlier task that was not open when a task began is not open later -/
  older : ∀ k < st.next, ∀ m ≤ k, m ∉ st.opened k → (st.phase m).isOpen = false
  /-- a load that was seen covers the tasks that were inside all the time since -/
  reading : ∀ k < st.next, ∀ s n, (s, n) ∈ st.seen k →
    ((st.insiders s).filter fun m => m ≤ k ∧ m ∉ st.opened k).card ≤ n
  looking : ∀ k todo, st.phase k = .looking todo → (st.seen k).map Prod.fst ++ todo = st.pool k
  settled : ∀ k s, (st.phase k).server? = some s →
    (st.seen k).map Prod.fst = st.pool k ∧ Best score (st.seen k) s

section Invariant

variable [DecidableEq S] [LinearOrder K] {score : S → Nat → K} {st : State S}

theorem wf_init : Wf score ({} : State S) where
  numbered k := ⟨fun _ => Nat.zero_le k, fun _ => rfl⟩
  older k hk := absurd hk (Nat.not_lt_zero k)
  reading k hk := absurd hk (Nat.not_lt_zero k)
  looking k todo h := by cases h
  settled k s h := by cases h

/-- Beginning keeps the invariant. -/
theorem Wf.start (hwf : Wf score st) (servers : List S) : Wf score (st.start servers) := by
  constructor
  · exact hwf.numbered.start servers
  · intro k hk m hm hmem
    by_cases hknew : k = st.next
    · subst hknew
      rw [State.start_opened_self, Finset.mem_insert, not_or] at hmem
      rw [State.start_phase_of_ne st hmem.1, ← Bool.not_eq_true]
      intro hopen
      exact hmem.2 (Finset.mem_filter.2 ⟨Finset.mem_range.2 (by omega), hopen⟩)
    · rw [State.start_opened_of_ne st hknew] at hmem
      rw [State.start_next] at hk
      rw [State.start_phase_of_ne st (by omega)]
      exact hwf.older k (by omega) m hm hmem
  · intro k hk s n h
    by_cases hknew : k = st.next
    · subst hknew
      rw [State.start_seen_self] at h
      exact absurd h List.not_mem_nil
    · rw [State.start_seen_of_ne st hknew] at h
      rw [insiders_start hwf.numbered, State.start_opened_of_ne st hknew]
      rw [State.start_next] at hk
      exact hwf.reading k (by omega) s n h
  · intro k todo h
    by_cases hknew : k = st.next
    · subst hknew
      rw [State.start_phase_self] at h
      obtain rfl := Phase.looking.inj h
      rw [State.start_seen_self, State.start_pool_self]
      rfl
    · rw [State.start_phase_of_ne st hknew] at h
      rw [State.start_seen_of_ne st hknew, State.start_pool_of_ne st hknew]
      exact hwf.looking k todo h
  · intro k s h
    by_cases hknew : k = st.next
    · subst hknew
      rw [State.start_phase_self] at h
      cases h
    · rw [State.start_phase_of_ne st hknew] at h
      rw [State.start_seen_of_ne st hknew, State.start_pool_of_ne st hknew]
      exact hwf.settled k s h

/-- The tasks that were inside all the time since a task began become fewer by a move. -/
theorem Wf.since_subset (hwf : Wf score st) {m : Nat} {ph : Phase S}
    (h : GoesOn (st.phase m) ph) {k : Nat} (hk : k < st.next) (s : S) :
    (((st.move m ph).insiders s).filter fun l => l ≤ k ∧ l ∉ st.opened k) ⊆
      (st.insiders s).filter fun l => l ≤ k ∧ l ∉ st.opened k := by
  intro l hl
  obtain ⟨hin, hle, hmem⟩ := Finset.mem_filter.1 hl
  refine Finset.mem_filter.2 ⟨?_, hle, hmem⟩
  obtain ⟨hlt, hphase⟩ := mem_insiders.1 hin
  rcases h.facts.2.1 l s hphase with hbefore | hopen
  · exact mem_insiders.2 ⟨hlt, hbefore⟩
  · rw [hwf.older k hk l hle hmem] at hopen
    cases hopen

/-- A move keeps the invariant; who goes to a server has seen all loads, and none with a lower
score. -/
theorem Wf.move (hwf : Wf score st) {k : Nat} {ph : Phase S} (h : GoesOn (st.phase k) ph)
    (hlooking : ∀ todo, ph ≠ .looking todo)
    (hserver : ∀ s, ph.server? = some s →
      (st.seen k).map Prod.fst = st.pool k ∧ Best score (st.seen k) s) :
    Wf score (st.move k ph) := by
  obtain ⟨hclosed, -, -⟩ := h.facts
  constructor
  · exact hwf.numbered.move h
  · exact fun l hl m hm hmem => hclosed m (hwf.older l hl m hm hmem)
  · intro l hl s n hseen
    exact (Finset.card_le_card (hwf.since_subset h hl s)).trans (hwf.reading l hl s n hseen)
  · intro m todo hm
    by_cases hmk : m = k
    · subst hmk
      rw [State.move_phase_self] at hm
      exact absurd hm (hlooking todo)
    · rw [State.move_phase_of_ne st hmk] at hm
      exact hwf.looking m todo hm
  · intro m s hm
    by_cases hmk : m = k
    · subst hmk
      rw [State.move_phase_self] at hm
      exact hserver s hm
    · rw [State.move_phase_of_ne st hmk] at hm
      exact hwf.settled m s hm

/-- A look keeps the invariant. -/
theorem Wf.see (hwf : Wf score st) {k : Nat} {s : S} {todo : List S}
    (h : st.phase k = .looking (s :: todo)) : Wf score (st.see k s (st.load s) todo) := by
  have hgoes : GoesOn (st.phase k) (.looking todo) := by
    rw [h]
    exact Or.inl ⟨rfl, fun hno => nomatch hno⟩
  obtain ⟨hclosed, -, -⟩ := hgoes.facts
  constructor
  · exact hwf.numbered.move hgoes
  · exact fun l hl m hm hmem => hclosed m (hwf.older l hl m hm hmem)
  · intro l hl s' n hmem
    refine (Finset.card_le_card (hwf.since_subset hgoes hl s')).trans ?_
    by_cases hlk : l = k
    · subst hlk
      rw [State.see_seen_self, List.mem_append, List.mem_singleton] at hmem
      rcases hmem with hold | hnew
      · exact hwf.reading l hl s' n hold
      -- the load that is seen now covers everybody inside
      · obtain ⟨rfl, rfl⟩ := Prod.mk.inj hnew
        exact Finset.card_filter_le _ _
    · rw [State.see_seen_of_ne st hlk] at hmem
      exact hwf.reading l hl s' n hmem
  · intro m todo' hm
    by_cases hmk : m = k
    · subst hmk
      rw [State.see_phase_self] at hm
      obtain rfl := Phase.looking.inj hm
      rw [State.see_seen_self, List.map_append, List.append_assoc]
      exact hwf.looking m (s :: todo) h
    · rw [State.see_phase_of_ne st hmk] at hm
      rw [State.see_seen_of_ne st hmk]
      exact hwf.looking m todo' hm
  · intro m s' hm
    by_cases hmk : m = k
    · subst hmk
      rw [State.see_phase_self] at hm
      cases hm
    · rw [State.see_phase_of_ne st hmk] at hm
      rw [State.see_seen_of_ne st hmk]
      exact hwf.settled m s' hm

/-- Every step keeps the invariant. -/
theorem Wf.step (hwf : Wf score st) (e : Event S) : Wf score (step score st e) := by
  obtain heq | hchange := step_cases score st e
  · rw [heq]
    exact hwf
  generalize LeastLoaded.step score st e = st' at hchange
  cases hchange with
  | start servers => exact hwf.start servers
  | see k s todo h => exact hwf.see h
  | choose k s h hbest =>
      apply hwf.move
      · rw [h]
        exact Or.inl ⟨rfl, fun hno => nomatch hno⟩
      · exact fun todo hno => nomatch hno
      · intro s' hs'
        obtain rfl := Option.some.inj hs'
        have hall := hwf.looking k [] h
        rw [List.append_nil] at hall
        exact ⟨hall, hbest⟩
  | enter k s h =>
      have hsettled := hwf.settled k s (by rw [h]; rfl)
      apply hwf.move
      · rw [h]
        exact Or.inl ⟨rfl, fun hno => nomatch hno⟩
      · exact fun todo hno => nomatch hno
      · intro s' hs'
        obtain rfl := Option.some.inj hs'
        exact hsettled
  | leave k s h =>
      apply hwf.move
      · exact Or.inr ⟨s, h, rfl⟩
      · exact fun todo hno => nomatch hno
      · exact fun s' hs' => nomatch hs'
  | quit k h =>
      apply hwf.move
      · exact Or.inl ⟨h, fun hno => nomatch hno⟩
      · exact fun todo hno => nomatch hno
      · exact fun s' hs' => nomatch hs'

/-- The last task of a server has seen all of them but those that were open when it began. -/
theorem Wf.bound_le (hwf : Wf score st) {few : Nat}
    (hfew : ∀ k < st.next, (st.opened k).card ≤ few) {s : S} (hne : (st.bound s).Nonempty) :
    ∃ k ∈ st.bound s, ∃ n, (s, n) ∈ st.seen k ∧ (st.bound s).card - few ≤ n ∧
      ∀ s' n', (s', n') ∈ st.seen k → score s n ≤ score s' n' := by
  let k := (st.bound s).max' hne
  have hk : k ∈ st.bound s := Finset.max'_mem _ hne
  obtain ⟨hlt, hserver⟩ := Finset.mem_filter.1 hk
  obtain ⟨-, n, hn, hbest⟩ := hwf.settled k s hserver
  refine ⟨k, hk, n, hn, ?_, hbest⟩
  have hsplit : st.bound s ⊆ st.opened k ∪
      (st.insiders s).filter fun m => m ≤ k ∧ m ∉ st.opened k := by
    intro m hm
    by_cases hmem : m ∈ st.opened k
    · exact Finset.mem_union_left _ hmem
    -- who was not open when the last task began is inside by now
    · have hle : m ≤ k := Finset.le_max' _ m hm
      have hclosed := hwf.older k (Finset.mem_range.1 hlt) m hle hmem
      obtain ⟨hmlt, hmserver⟩ := Finset.mem_filter.1 hm
      refine Finset.mem_union_right _ (Finset.mem_filter.2 ⟨?_, hle, hmem⟩)
      refine mem_insiders.2 ⟨Finset.mem_range.1 hmlt, ?_⟩
      cases hphase : st.phase m with
      | absent =>
          rw [hphase] at hmserver
          cases hmserver
      | looking todo =>
          rw [hphase] at hmserver
          cases hmserver
      | chosen s' =>
          rw [hphase] at hclosed
          cases hclosed
      | inside s' =>
          rw [hphase] at hmserver
          rw [Option.some.inj hmserver]
      | gone =>
          rw [hphase] at hmserver
          cases hmserver
  have hcard := (Finset.card_le_card hsplit).trans (Finset.card_union_le _ _)
  have hopened := hfew k (Finset.mem_range.1 hlt)
  have hreading := hwf.reading k (Finset.mem_range.1 hlt) s n hn
  omega

end Invariant

/-! ## Runs -/

section Runs

variable [DecidableEq S] [LinearOrder K] {score : S → Nat → K}

theorem wf_run (score : S → Nat → K) (es : List (Event S)) :
    Wf score (run (step score) {} es) :=
  run_invariant (fun _ e h => h.step e) wf_init es

/-- While few tasks are open at a time, few were open when any of them began. -/
theorem card_opened_le {few : Nat} {es : List (Event S)}
    (hfew : Always (step score) (fun st => st.openTasks.card ≤ few) {} es) :
    ∀ k < (run (step score) {} es).next, ((run (step score) {} es).opened k).card ≤ few := by
  induction es using List.reverseRecOn with
  | nil => exact fun k hk => absurd hk (Nat.not_lt_zero k)
  | append_singleton es e ih =>
      have hbefore : ∀ k < (run (step score) {} es).next,
          ((run (step score) {} es).opened k).card ≤ few := by
        apply ih
        intro pre post heq
        exact hfew pre (post ++ [e]) (by rw [heq, List.append_assoc])
      have hafter : (run (step score) {} (es ++ [e])).openTasks.card ≤ few :=
        hfew (es ++ [e]) [] (List.append_nil _).symm
      have hwf := wf_run score es
      rw [run_concat] at hafter ⊢
      obtain heq | hchange := step_cases score (run (step score) {} es) e
      · rw [heq]
        exact hbefore
      generalize step score (run (step score) {} es) e = st' at hchange hafter
      generalize run (step score) {} es = st at hchange hbefore hwf
      cases hchange with
      | start servers =>
          intro k hk
          by_cases hknew : k = st.next
          · subst hknew
            rw [State.start_opened_self]
            refine (Finset.card_le_card fun m hm => ?_).trans hafter
            -- the new task is open, and the others still are
            refine Finset.mem_filter.2 ?_
            rw [Finset.mem_range, State.start_next]
            rcases Finset.mem_insert.1 hm with rfl | hopen
            · rw [State.start_phase_self]
              exact ⟨Nat.lt_succ_self _, rfl⟩
            · obtain ⟨hlt, hopen⟩ := Finset.mem_filter.1 hopen
              have hlt' := Finset.mem_range.1 hlt
              rw [State.start_phase_of_ne st (by omega)]
              exact ⟨by omega, hopen⟩
          · rw [State.start_next] at hk
            rw [State.start_opened_of_ne st hknew]
            exact hbefore k (by omega)
      | see k s todo h => exact hbefore
      | choose k s h hbest => exact hbefore
      | enter k s h => exact hbefore
      | leave k s h => exact hbefore
      | quit k h => exact hbefore

/-- What a task has seen was the load at some moment while it was looking. -/
theorem seen_at {es : List (Event S)} {k : Nat} {s : S} {n : Nat}
    (h : (s, n) ∈ (run (step score) {} es).seen k) :
    ∃ pre post, es = pre ++ post ∧ (∃ todo, (run (step score) {} pre).phase k = .looking todo) ∧
      (run (step score) {} pre).load s = n := by
  induction es using List.reverseRecOn with
  | nil => exact absurd h List.not_mem_nil
  | append_singleton es e ih =>
      have hearlier : (s, n) ∈ (run (step score) {} es).seen k →
          ∃ pre post, es ++ [e] = pre ++ post ∧
            (∃ todo, (run (step score) {} pre).phase k = .looking todo) ∧
            (run (step score) {} pre).load s = n := by
        intro hbefore
        obtain ⟨pre, post, heq, hrest⟩ := ih hbefore
        exact ⟨pre, post ++ [e], by rw [heq, List.append_assoc], hrest⟩
      rw [run_concat] at h
      obtain heq | hchange := step_cases score (run (step score) {} es) e
      · rw [heq] at h
        exact hearlier h
      generalize hst' : step score (run (step score) {} es) e = st' at h hchange
      cases hchange with
      | start servers =>
          by_cases hknew : k = (run (step score) {} es).next
          · subst hknew
            rw [State.start_seen_self] at h
            exact absurd h List.not_mem_nil
          · rw [State.start_seen_of_ne _ hknew] at h
            exact hearlier h
      | see m s' todo hlooking =>
          by_cases hkm : k = m
          · subst hkm
            rw [State.see_seen_self, List.mem_append, List.mem_singleton] at h
            rcases h with hold | hnew
            · exact hearlier hold
            · obtain ⟨rfl, rfl⟩ := Prod.mk.inj hnew
              exact ⟨es, [e], rfl, ⟨_, hlooking⟩, rfl⟩
          · rw [State.see_seen_of_ne _ hkm] at h
            exact hearlier h
      | choose m s' hlooking hbest => exact hearlier h
      | enter m s' hchosen => exact hearlier h
      | leave m s' hinside => exact hearlier h
      | quit m hopen => exact hearlier h

/-- **No server gets far ahead.** At most `few` tasks are open at any time of a run. Then the score
of a server, without `few` of the tasks that are there or on their way, is no higher than the score
of any other server in the pool of the last of these tasks, at some moment while that task was
looking. -/
theorem balanced {few : Nat} {es : List (Event S)}
    (hfew : Always (step score) (fun st => st.openTasks.card ≤ few) {} es)
    (hmono : ∀ s, Monotone (score s)) {s : S}
    (hne : ((run (step score) {} es).bound s).Nonempty) :
    ∃ k ∈ (run (step score) {} es).bound s, ∀ s' ∈ (run (step score) {} es).pool k,
      ∃ pre post, es = pre ++ post ∧
        (∃ todo, (run (step score) {} pre).phase k = .looking todo) ∧
        score s (((run (step score) {} es).bound s).card - few) ≤
          score s' ((run (step score) {} pre).load s') := by
  have hwf := wf_run score es
  obtain ⟨k, hk, n, hn, hle, hbest⟩ := hwf.bound_le (card_opened_le hfew) hne
  refine ⟨k, hk, fun s' hs' => ?_⟩
  have hpool := (hwf.settled k s (Finset.mem_filter.1 hk).2).1
  rw [← hpool] at hs'
  obtain ⟨⟨s'', n'⟩, hseen, rfl⟩ := List.mem_map.1 hs'
  obtain ⟨pre, post, heq, hlooking, hload⟩ := seen_at hseen
  refine ⟨pre, post, heq, hlooking, ?_⟩
  rw [hload]
  exact (hmono s hle).trans (hbest s'' n' hseen)

/-! ## While nobody leaves -/

theorem insiders_subset_move {st : State S} {k : Nat} (h : ∀ s, st.phase k ≠ .inside s)
    (ph : Phase S) (s : S) : st.insiders s ⊆ (st.move k ph).insiders s := by
  intro m hm
  obtain ⟨hlt, hphase⟩ := mem_insiders.1 hm
  have hmk : m ≠ k := by
    rintro rfl
    exact h s hphase
  refine mem_insiders.2 ⟨hlt, ?_⟩
  rw [State.move_phase_of_ne st hmk]
  exact hphase

/-- Only a departure lowers a load. -/
theorem load_le_step {st : State S} {e : Event S} (he : ∀ k, e ≠ .leave k) (s : S) :
    st.load s ≤ (step score st e).load s := by
  apply Finset.card_le_card
  cases e with
  | begin servers =>
      intro m hm
      obtain ⟨hlt, hphase⟩ := mem_insiders.1 hm
      refine mem_insiders.2 ⟨Nat.lt_succ_of_lt hlt, ?_⟩
      exact (State.start_phase_of_ne st (Nat.ne_of_lt hlt) servers).trans hphase
  | look k =>
      rw [step]
      split
      · next s' todo h =>
        exact insiders_subset_move (fun s'' hno => nomatch h.symm.trans hno) (.looking todo) s
      · exact fun m hm => hm
  | choose k s' =>
      rw [step]
      split
      · next h => exact insiders_subset_move (fun s'' hno => nomatch h.1.symm.trans hno) _ s
      · exact fun m hm => hm
  | enter k =>
      rw [step]
      split
      · next s' h => exact insiders_subset_move (fun s'' hno => nomatch h.symm.trans hno) _ s
      · exact fun m hm => hm
  | leave k => exact absurd rfl (he k)
  | quit k =>
      rw [step]
      split
      · next h =>
        refine insiders_subset_move (fun s' hno => ?_) _ s
        rw [hno] at h
        cases h
      · exact fun m hm => hm
  | idle => exact fun m hm => hm

theorem load_le_run {st : State S} {es : List (Event S)} (hes : ∀ k, .leave k ∉ es) (s : S) :
    st.load s ≤ (run (step score) st es).load s := by
  induction es generalizing st with
  | nil => exact Nat.le_refl _
  | cons e es ih =>
      have hfirst : ∀ k, e ≠ .leave k := by
        rintro k rfl
        exact hes k List.mem_cons_self
      have hrest : ∀ k, .leave k ∉ es := fun k hk => hes k (List.mem_cons_of_mem _ hk)
      exact (load_le_step hfirst s).trans (ih hrest)

/-- While nobody leaves, no server is ahead of another one by more than the open tasks. -/
theorem balanced_of_stays {few : Nat} {es : List (Event S)}
    (hfew : Always (step score) (fun st => st.openTasks.card ≤ few) {} es)
    (hstays : ∀ k, .leave k ∉ es) (hmono : ∀ s, Monotone (score s)) {s s' : S}
    (hne : ((run (step score) {} es).bound s).Nonempty)
    (hpool : ∀ k ∈ (run (step score) {} es).bound s, s' ∈ (run (step score) {} es).pool k) :
    score s (((run (step score) {} es).bound s).card - few) ≤
      score s' ((run (step score) {} es).load s') := by
  obtain ⟨k, hk, hall⟩ := balanced hfew hmono hne
  obtain ⟨pre, post, rfl, -, hle⟩ := hall s' (hpool k hk)
  refine hle.trans (hmono s' ?_)
  rw [run_append]
  apply load_le_run
  exact fun m hm => hstays m (List.mem_append_right pre hm)

end Runs

end Elrond.Lib.LeastLoaded
