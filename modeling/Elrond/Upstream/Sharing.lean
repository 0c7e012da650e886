import Elrond.Upstream.Target

/-!
# One balancer for each direct address

A call of `resolve` on a dynamic target takes the read lock to look a host up in the ephemeral map,
and on a miss the write lock to insert a balancer of its own, later and without looking again. Here
each of the two is one step, and a run is any interleaving of the steps of any number of calls.
Balancers are told apart by a number, since two of them may look the same and still count requests
apart.

Alone, the two steps are `resolveRendered` (`represents_alone`). Together, calls for one address
share a balancer exactly as long as every insertion finds none for its address in the map
(`shared_balancer_iff`).
-/

set_option autoImplicit false

namespace Elrond.Upstream

open Elrond.Lib Elrond.Http Elrond.Config

/-- What a host is contacted as. -/
def directAddress (host : String) : Scheme × String :=
  ((ephemeralBalancer host).scheme, (ephemeralBalancer host).name)

/-- A dynamic target in use: the named upstreams, the ephemeral map with the balancers by number,
the hosts of the calls between their two steps, and the hosts and balancers of the calls for a direct
address that have returned. -/
structure TargetInUse where
  table : HashMap String Balancer
  ephemeral : HashMap String Nat := ∅
  next : Nat := 0
  pending : List String := []
  returned : List (String × Nat) := []

/-- A scheduled step: the lookup of a new call, or the insertion of the pending call at a
position. -/
inductive ResolveStep where
  | look (rendered : String)
  | insert (i : Nat)

namespace TargetInUse

/-- The state after a step. -/
def step (st : TargetInUse) : ResolveStep → TargetInUse
  | .look rendered =>
      let host := dynamicHost rendered
      -- without a host and for a named upstream the call returns at once
      if host = "" then st
      else
        match st.table.lookup (bareHost host) with
        | some _ => st
        | none =>
            match st.ephemeral.lookup host with
            | some n => { st with returned := st.returned ++ [(host, n)] }
            | none => { st with pending := st.pending ++ [host] }
  | .insert i =>
      match st.pending[i]? with
      | some host =>
          { st with
            ephemeral := st.ephemeral.insert host st.next
            next := st.next + 1
            pending := st.pending.eraseIdx i
            returned := st.returned ++ [(host, st.next)] }
      | none => st

/-! ## A call alone -/

/-- A call whose steps follow each other. -/
def alone (st : TargetInUse) (rendered : String) : TargetInUse :=
  (st.step (.look rendered)).step (.insert st.pending.length)

/-- The ephemeral map holds the balancers of the hosts of the numbered one. -/
def Represents (st : TargetInUse) (ephemeral : HashMap String Balancer) : Prop :=
  ∀ host, ephemeral.lookup host = (st.ephemeral.lookup host).map fun _ => ephemeralBalancer host

/-- What a lookup does: it returns or it waits for its insertion. -/
theorem step_look (st : TargetInUse) (rendered : String) :
    st.step (.look rendered) = st ∨
      (∃ n, st.ephemeral.lookup (dynamicHost rendered) = some n ∧
        st.step (.look rendered) =
          { st with returned := st.returned ++ [(dynamicHost rendered, n)] }) ∨
      (st.ephemeral.lookup (dynamicHost rendered) = none ∧
        st.step (.look rendered) = { st with pending := st.pending ++ [dynamicHost rendered] }) := by
  simp only [step]
  split
  · exact Or.inl rfl
  · cases st.table.lookup (bareHost (dynamicHost rendered)) with
    | some b => exact Or.inl rfl
    | none =>
        cases hlookup : st.ephemeral.lookup (dynamicHost rendered) with
        | some n => exact Or.inr (Or.inl ⟨n, rfl, rfl⟩)
        | none => exact Or.inr (Or.inr ⟨rfl, rfl⟩)

/-- What an insertion does. -/
theorem step_insert (st : TargetInUse) (i : Nat) :
    (st.pending[i]? = none ∧ st.step (.insert i) = st) ∨
      ∃ host, st.pending[i]? = some host ∧
        st.step (.insert i) =
          { st with
            ephemeral := st.ephemeral.insert host st.next
            next := st.next + 1
            pending := st.pending.eraseIdx i
            returned := st.returned ++ [(host, st.next)] } := by
  simp only [step]
  cases hget : st.pending[i]? with
  | none => exact Or.inl ⟨rfl, rfl⟩
  | some host => exact Or.inr ⟨host, rfl, rfl⟩

/-- A call alone does to the map what `resolveRendered` does. -/
theorem represents_alone {st : TargetInUse} {ephemeral : HashMap String Balancer}
    (h : st.Represents ephemeral) (rendered : String) :
    (st.alone rendered).Represents (resolveRendered st.table ephemeral rendered).2 := by
  have hpast : st.pending[st.pending.length]? = none := List.getElem?_eq_none le_rfl
  simp only [alone, step, resolveRendered]
  generalize dynamicHost rendered = host
  have hlookup := h host
  by_cases hempty : host = ""
  · simpa only [if_pos hempty, hpast] using h
  · simp only [if_neg hempty]
    cases st.table.lookup (bareHost host) with
    | some b => simpa only [hpast] using h
    | none =>
        cases hfound : st.ephemeral.lookup host with
        | some n =>
            -- the balancer was created earlier, so nothing is inserted
            rw [hfound, Option.map_some] at hlookup
            simp only [hlookup, hpast]
            exact h
        | none =>
            -- the first request for the address creates it and inserts at once
            rw [hfound, Option.map_none] at hlookup
            simp only [hlookup, List.getElem?_concat_length]
            intro host'
            simp only [HashMap.lookup_insert_eq]
            split
            · next heq => rw [heq, Option.map_some]
            · exact h host'

/-! ## Calls together -/

/-- Calls for one address have got one balancer. -/
def Shared (st : TargetInUse) : Prop :=
  ∀ r ∈ st.returned, ∀ r' ∈ st.returned, directAddress r.1 = directAddress r'.1 → r.2 = r'.2

/-- An insertion finds no balancer for its address in the map. -/
def FindsNone (st : TargetInUse) : ResolveStep → Prop
  | .look _ => True
  | .insert i =>
      ∀ host ∈ st.pending[i]?, ∀ host' n, st.ephemeral.lookup host' = some n →
        directAddress host' ≠ directAddress host

/-- The map and the calls that have returned fit together. -/
structure Wf (st : TargetInUse) : Prop where
  returned_of_lookup : ∀ host n, st.ephemeral.lookup host = some n → (host, n) ∈ st.returned
  lookup_of_returned : ∀ r ∈ st.returned, ∃ n, st.ephemeral.lookup r.1 = some n
  lt_next : ∀ r ∈ st.returned, r.2 < st.next

theorem Wf.start (table : HashMap String Balancer) : Wf { table := table } where
  returned_of_lookup := by simp
  lookup_of_returned := by simp
  lt_next := by simp

/-- Every step keeps the map and the returned calls together. -/
theorem Wf.step {st : TargetInUse} (h : st.Wf) (e : ResolveStep) : (st.step e).Wf := by
  cases e with
  | look rendered =>
      rcases st.step_look rendered with heq | ⟨n, hlookup, heq⟩ | ⟨-, heq⟩
      · rwa [heq]
      · rw [heq]
        have hmem := h.returned_of_lookup _ n hlookup
        refine ⟨?_, ?_, ?_⟩
        · intro host m hm
          exact List.mem_append_left _ (h.returned_of_lookup host m hm)
        · intro r hr
          rcases List.mem_append.1 hr with hr | hr
          · exact h.lookup_of_returned r hr
          · rw [List.mem_singleton.1 hr]
            exact ⟨n, hlookup⟩
        · intro r hr
          rcases List.mem_append.1 hr with hr | hr
          · exact h.lt_next r hr
          · rw [List.mem_singleton.1 hr]
            exact h.lt_next _ hmem
      · rw [heq]
        exact ⟨h.returned_of_lookup, h.lookup_of_returned, h.lt_next⟩
  | insert i =>
      rcases st.step_insert i with ⟨-, heq⟩ | ⟨host, -, heq⟩
      · rwa [heq]
      · rw [heq]
        refine ⟨?_, ?_, ?_⟩
        · -- whatever the map held for the host is replaced, also a balancer another call has returned
          intro host' n hn
          simp only [HashMap.lookup_insert_eq] at hn
          split at hn
          · next hhost =>
            rw [hhost, ← Option.some.inj hn]
            exact List.mem_append_right _ (List.mem_singleton.2 rfl)
          · exact List.mem_append_left _ (h.returned_of_lookup host' n hn)
        · intro r hr
          simp only [HashMap.lookup_insert_eq]
          split
          · exact ⟨st.next, rfl⟩
          · next hne =>
            rcases List.mem_append.1 hr with hr | hr
            · exact h.lookup_of_returned r hr
            · exact absurd (by rw [List.mem_singleton.1 hr]) hne
        · intro r hr
          rcases List.mem_append.1 hr with hr | hr
          · exact Nat.lt_succ_of_lt (h.lt_next r hr)
          · rw [List.mem_singleton.1 hr]
            exact Nat.lt_succ_self _

/-- A further call keeps the sharing exactly if it fits all earlier ones. -/
theorem shared_concat {st : TargetInUse} (h : st.Shared) (r : String × Nat) :
    (∀ a ∈ st.returned ++ [r], ∀ b ∈ st.returned ++ [r],
        directAddress a.1 = directAddress b.1 → a.2 = b.2) ↔
      ∀ a ∈ st.returned, directAddress a.1 = directAddress r.1 → a.2 = r.2 := by
  constructor
  · intro hall a ha
    exact hall a (List.mem_append_left _ ha) r (List.mem_append_right _ (List.mem_singleton.2 rfl))
  · intro hlast a ha b hb hsame
    rcases List.mem_append.1 ha with ha' | ha'
    · rcases List.mem_append.1 hb with hb' | hb'
      · exact h a ha' b hb' hsame
      · rw [List.mem_singleton.1 hb'] at hsame ⊢
        exact hlast a ha' hsame
    · rw [List.mem_singleton.1 ha'] at hsame ⊢
      rcases List.mem_append.1 hb with hb' | hb'
      · exact (hlast b hb' hsame.symm).symm
      · rw [List.mem_singleton.1 hb']

/-- A step keeps the sharing exactly if it is no insertion for an address that is there already. -/
theorem shared_step_iff {st : TargetInUse} (hwf : st.Wf) (h : st.Shared) (e : ResolveStep) :
    (st.step e).Shared ↔ st.FindsNone e := by
  cases e with
  | look rendered =>
      refine iff_of_true ?_ trivial
      rcases st.step_look rendered with heq | ⟨n, hlookup, heq⟩ | ⟨-, heq⟩
      · rwa [heq]
      · rw [heq]
        refine (shared_concat h _).2 ?_
        intro a ha hsame
        exact h a ha _ (hwf.returned_of_lookup _ n hlookup) hsame
      · rw [heq]
        exact h
  | insert i =>
      rcases st.step_insert i with ⟨hnone, heq⟩ | ⟨host, hget, heq⟩
      · rw [heq]
        refine iff_of_true h ?_
        intro host hhost
        rw [hnone] at hhost
        cases hhost
      · rw [heq]
        refine (shared_concat h _).trans ?_
        constructor
        · intro hlast host' hhost' found n hfound hsame
          obtain rfl : host = host' := Option.some.inj (hget.symm.trans hhost')
          have hmem := hwf.returned_of_lookup found n hfound
          -- a new balancer is none that was returned before
          exact absurd (hlast _ hmem hsame) (Nat.ne_of_lt (hwf.lt_next _ hmem))
        · intro hfinds a ha hsame
          obtain ⟨n, hn⟩ := hwf.lookup_of_returned a ha
          exact absurd hsame (hfinds host hget a.1 n hn)

end TargetInUse

/-- **One balancer for each direct address.** In every run of interleaved calls on a dynamic target,
calls for one direct address have got one balancer at every moment exactly if every insertion of the
run finds none for its address in the map. -/
theorem shared_balancer_iff (table : HashMap String Balancer) (es : List ResolveStep) :
    Always TargetInUse.step TargetInUse.Shared { table := table } es ↔
      AllSteps TargetInUse.step TargetInUse.FindsNone { table := table } es := by
  have hstart : TargetInUse.Shared { table := table } := by simp [TargetInUse.Shared]
  exact always_iff_allSteps (I := TargetInUse.Wf) (fun _ e hwf => hwf.step e)
    (fun _ e hwf h => TargetInUse.shared_step_iff hwf h e) (TargetInUse.Wf.start table) hstart es

/-- Two first requests for one address at the same time. -/
def twoFirstRequests : List ResolveStep :=
  [.look "http://10.0.0.1:8080", .look "http://10.0.0.1:8080", .insert 0, .insert 0]

/-- Both of them look before either inserts, and each gets a balancer of its own. -/
theorem concurrent_requests_get_two_balancers :
    ¬ Always TargetInUse.step TargetInUse.Shared { table := ∅ } twoFirstRequests := by
  intro h
  have hend := h twoFirstRequests [] (List.append_nil _).symm
  have hreturned : (run TargetInUse.step { table := ∅ } twoFirstRequests).returned =
      [("10.0.0.1:8080", 0), ("10.0.0.1:8080", 1)] := by decide
  rw [TargetInUse.Shared, hreturned] at hend
  have hsame := hend ("10.0.0.1:8080", 0) (by simp) ("10.0.0.1:8080", 1) (by simp) rfl
  exact absurd hsame (by decide)

end Elrond.Upstream
