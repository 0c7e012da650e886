import Elrond.Limit.Conn

/-!
# Idle keys of a `limit_conn` zone

A key stays in the map of its zone when its last guard is dropped, and `try_acquire` makes room for a
new key only by evicting an idle one. So the map never shrinks, and it outgrows the size of the zone
as soon as a new key comes while all the keys there are busy (`within_step_iff`). Once the guards of
such a burst are dropped, all those keys are idle: the idle keys are bounded, whatever is dropped
afterwards, exactly if no step of the run was such an acquisition (`idle_keys_bounded_iff`).
-/

set_option autoImplicit false

namespace Elrond.Limit

open Elrond.Lib Elrond.Http Elrond.Request

namespace LimitConnZone

/-- The number of keys in the map. -/
def size (zone : LimitConnZone) : Nat := zone.state.entries.length

/-- An eviction happens exactly when a new key comes to a full zone with an idle key. -/
theorem evicted_isSome_iff (zone : LimitConnZone) (order : IterOrder (String × UInt32))
    (key : String) :
    (zone.evicted order key).isSome = true ↔
      zone.state.lookup key = none ∧ zone.maxEntries ≤ zone.size ∧
        ∃ k, zone.state.lookup k = some 0 := by
  have hzero : (((zone.state.iter order).find? fun p => p.2 == 0).map Prod.fst).isSome = true ↔
      ∃ k, zone.state.lookup k = some 0 := by
    rw [Option.isSome_map, List.find?_isSome]
    constructor
    · rintro ⟨⟨k, c⟩, hmem, hc⟩
      obtain rfl : c = 0 := by simpa using hc
      exact ⟨k, HashMap.mem_iter.1 hmem⟩
    · rintro ⟨k, hk⟩
      exact ⟨(k, 0), HashMap.mem_iter.2 hk, rfl⟩
  rw [evicted]
  split
  · next hfull =>
    simp only [Bool.and_eq_true, Option.isNone_iff_eq_none, decide_eq_true_eq] at hfull
    rw [hzero]
    exact ⟨fun h => ⟨hfull.1, hfull.2, h⟩, fun h => h.2.2⟩
  · next hfull =>
    simp only [Bool.and_eq_true, Option.isNone_iff_eq_none, decide_eq_true_eq] at hfull
    constructor
    · intro h
      exact Bool.noConfusion h
    · rintro ⟨hnew, hmany, -⟩
      exact absurd ⟨hnew, hmany⟩ hfull

/-- An evicted key was in the map. -/
theorem lookup_evicted {zone : LimitConnZone} {order : IterOrder (String × UInt32)}
    {key dead : String} (h : zone.evicted order key = some dead) :
    ∃ c, zone.state.lookup dead = some c := by
  rw [evicted] at h
  split at h
  · obtain ⟨p, hp, rfl⟩ := Option.map_eq_some_iff.1 h
    exact ⟨p.2, HashMap.mem_iter.1 (List.mem_of_find?_eq_some hp)⟩
  · cases h

/-- After the eviction the key of the call is stored. -/
theorem state_tryAcquire (zone : LimitConnZone) (order : IterOrder (String × UInt32))
    (key : String) (maxConn : UInt32) :
    ∃ c, (zone.tryAcquire order key maxConn).2 =
      { zone with state := (zone.afterEviction order key).insert key c } := by
  simp only [tryAcquire]
  split
  · exact ⟨_, rfl⟩
  · exact ⟨_, rfl⟩

/-- The map grows by a new key that evicts none. -/
theorem size_tryAcquire (zone : LimitConnZone) (order : IterOrder (String × UInt32))
    (key : String) (maxConn : UInt32) :
    (zone.tryAcquire order key maxConn).2.size =
      zone.size +
        if zone.state.lookup key = none ∧ zone.evicted order key = none then 1 else 0 := by
  obtain ⟨c, hstate⟩ := zone.state_tryAcquire order key maxConn
  rw [hstate]
  simp only [size]
  rw [HashMap.length_insert, afterEviction]
  cases hev : zone.evicted order key with
  | some dead =>
      obtain ⟨hnew, -, -⟩ := (zone.evicted_isSome_iff order key).1 (by rw [hev]; rfl)
      obtain ⟨c', hc'⟩ := lookup_evicted hev
      have habsent : (zone.state.erase dead).lookup key = none := by
        rw [HashMap.lookup_erase_eq]
        split
        · rfl
        · exact hnew
      simp only
      rw [HashMap.length_erase_of_lookup_none habsent, HashMap.length_erase_of_lookup hc',
        if_neg (fun h => Option.some_ne_none dead h.2), Nat.add_zero]
  | none =>
      cases hlookup : zone.state.lookup key with
      | some c' =>
          simp only
          rw [HashMap.length_erase_of_lookup hlookup, if_neg (fun h => Option.some_ne_none c' h.1),
            Nat.add_zero]
      | none =>
          simp only
          rw [HashMap.length_erase_of_lookup_none hlookup, if_pos ⟨trivial, trivial⟩]

/-- Dropping a guard keeps the keys. -/
theorem size_dropGuard (zone : LimitConnZone) (guard : LimitConnGuard) :
    (zone.dropGuard guard).size = zone.size ∧
      (zone.dropGuard guard).maxEntries = zone.maxEntries := by
  rw [dropGuard]
  cases hlookup : zone.state.lookup guard.key with
  | none => exact ⟨rfl, rfl⟩
  | some c =>
      refine ⟨?_, rfl⟩
      simp only [size]
      rw [HashMap.length_insert, HashMap.length_erase_of_lookup hlookup]

end LimitConnZone

namespace ConnState

/-- The keys in the map that have no live guard. -/
def idle (st : ConnState) : List String :=
  st.zone.state.keys.filter fun key => st.live key = 0

/-- There are no more idle keys than the zone is for. -/
def IdleBounded (st : ConnState) : Prop := st.idle.length ≤ st.zone.maxEntries

/-- The map is no larger than the zone is for. -/
def Within (st : ConnState) : Prop := st.zone.size ≤ st.zone.maxEntries

/-- An acquisition finds its key, or room for a new one, or an idle key to evict. -/
def HasRoom (st : ConnState) : ConnEvent → Prop
  | .acquire _ key _ =>
      (∃ c, st.zone.state.lookup key = some c) ∨ st.zone.size < st.zone.maxEntries ∨
        ∃ k, st.zone.state.lookup k = some 0
  | .drop _ => True

theorem length_keys (st : ConnState) : st.zone.state.keys.length = st.zone.size :=
  List.length_map _

theorem Within.idleBounded {st : ConnState} (h : st.Within) : st.IdleBounded := by
  refine le_trans (List.length_filter_le _ _) ?_
  rw [length_keys]
  exact h

/-- What a drop leaves of the zone. -/
theorem size_step_drop (st : ConnState) (i : Nat) :
    (st.step (.drop i)).zone.size = st.zone.size ∧
      (st.step (.drop i)).zone.maxEntries = st.zone.maxEntries := by
  simp only [step]
  cases st.guards[i]? with
  | none => exact ⟨rfl, rfl⟩
  | some guard => exact st.zone.size_dropGuard guard

/-- A step keeps the map within the zone exactly if it has room. -/
theorem within_step_iff {st : ConnState} (h : st.Within) (e : ConnEvent) :
    (st.step e).Within ↔ st.HasRoom e := by
  cases e with
  | drop i =>
      obtain ⟨hsize, hmax⟩ := st.size_step_drop i
      rw [Within, hsize, hmax]
      exact iff_of_true h trivial
  | acquire order key maxConn =>
      have hsize := st.zone.size_tryAcquire order key maxConn
      have hmax : (st.zone.tryAcquire order key maxConn).2.maxEntries = st.zone.maxEntries := by
        obtain ⟨c, hstate⟩ := st.zone.state_tryAcquire order key maxConn
        rw [hstate]
      have hevict := st.zone.evicted_isSome_iff order key
      show (st.zone.tryAcquire order key maxConn).2.size ≤
        (st.zone.tryAcquire order key maxConn).2.maxEntries ↔ _
      rw [hsize, hmax, HasRoom]
      rw [Within] at h
      cases hlookup : st.zone.state.lookup key with
      | some c =>
          rw [if_neg (fun hboth => Option.some_ne_none c hboth.1)]
          exact iff_of_true h (Or.inl ⟨c, rfl⟩)
      | none =>
          cases hev : st.zone.evicted order key with
          | some dead =>
              rw [if_neg (fun hboth => Option.some_ne_none dead hboth.2)]
              exact iff_of_true h (Or.inr (Or.inr (hevict.1 (by rw [hev]; rfl)).2.2))
          | none =>
              rw [if_pos ⟨rfl, rfl⟩]
              constructor
              · intro hroom
                exact Or.inr (Or.inl hroom)
              · rintro (⟨c, hc⟩ | hroom | hidle)
                · cases hc
                · exact hroom
                -- with an idle key something would have been evicted from a full zone
                · by_contra hfull
                  have hsome := hevict.2 ⟨hlookup, by omega, hidle⟩
                  rw [hev] at hsome
                  cases hsome

/-! ## After a burst -/

/-- The map never shrinks. -/
theorem size_le_step (st : ConnState) (e : ConnEvent) :
    st.zone.size ≤ (st.step e).zone.size ∧ (st.step e).zone.maxEntries = st.zone.maxEntries := by
  cases e with
  | drop i =>
      obtain ⟨hsize, hmax⟩ := st.size_step_drop i
      exact ⟨hsize.ge, hmax⟩
  | acquire order key maxConn =>
      constructor
      · show st.zone.size ≤ (st.zone.tryAcquire order key maxConn).2.size
        rw [st.zone.size_tryAcquire order key maxConn]
        exact Nat.le_add_right _ _
      · obtain ⟨c, hstate⟩ := st.zone.state_tryAcquire order key maxConn
        show (st.zone.tryAcquire order key maxConn).2.maxEntries = _
        rw [hstate]

theorem size_le_run (st : ConnState) (es : List ConnEvent) :
    st.zone.size ≤ (run step st es).zone.size ∧
      (run step st es).zone.maxEntries = st.zone.maxEntries := by
  induction es generalizing st with
  | nil => exact ⟨le_rfl, rfl⟩
  | cons e es ih =>
      obtain ⟨hsize, hmax⟩ := st.size_le_step e
      obtain ⟨hsize', hmax'⟩ := ih (st.step e)
      exact ⟨hsize.trans hsize', hmax'.trans hmax⟩

/-- The drops of all live guards. -/
def dropAll (st : ConnState) : List Nat := List.replicate st.guards.length 0

/-- Then none is left. -/
theorem guards_dropAll (st : ConnState) : (run step st (st.dropAll.map .drop)).guards = [] := by
  induction hn : st.guards.length generalizing st with
  | zero =>
      rw [dropAll, hn]
      exact List.length_eq_zero_iff.1 hn
  | succ n ih =>
      have hguards : (st.step (.drop 0)).guards = st.guards.tail := by
        simp only [step]
        cases hlist : st.guards with
        | nil => simp [hlist] at hn
        | cons guard rest => simp
      have hlen : (st.step (.drop 0)).guards.length = n := by
        rw [hguards, List.length_tail, hn]
        rfl
      have hdrops : st.dropAll.map ConnEvent.drop =
          .drop 0 :: (st.step (.drop 0)).dropAll.map ConnEvent.drop := by
        rw [dropAll, dropAll, hn, hlen]
        rfl
      rw [hdrops, run_cons]
      exact ih _ hlen

/-- Without live guards every key is idle. -/
theorem idle_of_no_guards {st : ConnState} (h : st.guards = []) :
    st.idle.length = st.zone.size := by
  have hall : st.idle = st.zone.state.keys := by
    rw [idle, List.filter_eq_self]
    intro key _
    simp [live, h]
  rw [hall, length_keys]

end ConnState

/-- **Idle keys of `limit_conn`.** After every run on a zone, whatever guards are dropped from then
on, there are at every moment no more idle keys than the zone is for, exactly if every acquisition of
the run found its key, room for a new one, or an idle key to evict. -/
theorem idle_keys_bounded_iff (keyTemplate : Template) (maxEntries : Nat) (es : List ConnEvent) :
    (∀ drops : List Nat, Always ConnState.step ConnState.IdleBounded
        ⟨LimitConnZone.new keyTemplate maxEntries, []⟩ (es ++ drops.map .drop)) ↔
      AllSteps ConnState.step ConnState.HasRoom
        ⟨LimitConnZone.new keyTemplate maxEntries, []⟩ es := by
  have hwithin : ∀ es, Always ConnState.step ConnState.Within
      ⟨LimitConnZone.new keyTemplate maxEntries, []⟩ es ↔
        AllSteps ConnState.step ConnState.HasRoom
          ⟨LimitConnZone.new keyTemplate maxEntries, []⟩ es :=
    always_iff_allSteps (I := fun _ => True) (fun _ _ h => h)
      (fun _ e _ h => ConnState.within_step_iff h e) trivial (Nat.zero_le _)
  constructor
  · intro hbounded
    rw [← hwithin]
    intro pre post heq
    -- the map keeps its size to the end of the run, and then everything is dropped
    let st := run ConnState.step ⟨LimitConnZone.new keyTemplate maxEntries, []⟩ es
    have hend := hbounded st.dropAll (es ++ st.dropAll.map .drop) [] (List.append_nil _).symm
    rw [run_append] at hend
    have hidle := ConnState.idle_of_no_guards st.guards_dropAll
    obtain ⟨hsize, hmax⟩ := st.size_le_run (st.dropAll.map .drop)
    have hgrown := ConnState.size_le_run
      (run ConnState.step ⟨LimitConnZone.new keyTemplate maxEntries, []⟩ pre) post
    rw [← run_append, ← heq] at hgrown
    have hbound : (run ConnState.step st (st.dropAll.map .drop)).idle.length ≤
        (run ConnState.step st (st.dropAll.map .drop)).zone.maxEntries := hend
    rw [hidle, hmax] at hbound
    calc _ ≤ st.zone.size := hgrown.1
      _ ≤ (run ConnState.step st (st.dropAll.map .drop)).zone.size := hsize
      _ ≤ st.zone.maxEntries := hbound
      _ = _ := hgrown.2
  · intro hroom drops pre post heq
    have hall : AllSteps ConnState.step ConnState.HasRoom
        ⟨LimitConnZone.new keyTemplate maxEntries, []⟩ (es ++ drops.map .drop) := by
      refine allSteps_append.2 ⟨hroom, fun before e after hdrops => ?_⟩
      obtain ⟨i, -, rfl⟩ := List.mem_map.1
        (hdrops ▸ List.mem_append_right before List.mem_cons_self : e ∈ drops.map .drop)
      exact trivial
    exact ((hwithin _).2 hall pre post heq).idleBounded

/-- Two clients at once on a zone for one key: when both are gone, two idle keys are held. -/
theorem two_idle_keys_are_held :
    ¬ Always ConnState.step ConnState.IdleBounded ⟨LimitConnZone.new ⟨[]⟩ 1, []⟩
      [.acquire .stored "alice" 1, .acquire .stored "bob" 1, .drop 0, .drop 0] := by
  intro h
  have hend := h [.acquire .stored "alice" 1, .acquire .stored "bob" 1, .drop 0, .drop 0] [] rfl
  revert hend
  rw [ConnState.IdleBounded]
  decide

end Elrond.Limit
