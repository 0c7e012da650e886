import Elrond.Process.Drain
import Elrond.Process.Snapshots

/-!
# One address at a time

A reload looks at all addresses at once: it walks over the running listeners, and starts what is left
of the wanted table in the order of its iteration. Here its effect is taken apart. What serves an
address after any reloads is what an automaton for that address alone comes to (`addressStep`), which
looks at the configuration of the address and at the outcome of its own bind, whatever the other
addresses of the configuration, their binds and the iteration orders are.

The listener itself is the same task, and its socket has never been closed, exactly if every
configuration that was accepted in the meantime names the address (`address_history`).
-/

set_option autoImplicit false

namespace Elrond.Process

open Elrond.Lib Elrond.Http Elrond.Config Elrond.App

/-- The HTTP listener on an address. -/
def Supervisor.httpAt (s : Supervisor) (a : SocketAddr) : Option HttpListener :=
  s.http.find? fun l => l.addr == a

/-- What a runtime wants on an address. -/
def wantedAt (rt : Runtime) (a : SocketAddr) : Option ListenerCfg :=
  rt.listeners.find? fun c => c.addr == a

/-- What a listener serves: its configuration and its acceptor. -/
def HttpListener.served (l : HttpListener) : ListenerCfg × Option ServerConfig := (l.cfg, l.acceptor)

/-- A reload as one address sees it: an unwanted address is closed, one that is served keeps its
socket and its mode, and one that is not is bound. -/
def addressStep (a : SocketAddr) (st : Option (ListenerCfg × Option ServerConfig)) (e : Reload) :
    Option (ListenerCfg × Option ServerConfig) :=
  match e.loaded with
  | .error _ => st
  | .ok new =>
      (wantedAt new.runtime a).bind fun c =>
        match st with
        | some (_, acceptor) => some (c, acceptor.map fun sc => c.tls.getD sc)
        | none =>
            match e.binds.http a with
            | .ok _ => some (c, c.tls)
            | .error _ => none

/-- The configuration the reload is given names the address, if it is accepted. -/
def Reload.Names (e : Reload) (a : SocketAddr) : Prop :=
  ∀ new, e.loaded = .ok new → wantedAt new.runtime a ≠ none

/-! ## One reload -/

theorem httpAt_eq_some {s : Supervisor} (hd : Distinct s) {a : SocketAddr} {l : HttpListener} :
    s.httpAt a = some l ↔ l ∈ s.http ∧ l.addr = a := by
  constructor
  · intro h
    exact ⟨List.mem_of_find?_eq_some h, by simpa using List.find?_some h⟩
  · rintro ⟨hl, rfl⟩
    have hfind := (find?_key _ (List.nodup_iff_count_le_one.1 hd l.addr)).2 hl
    rw [Supervisor.httpAt, ← hfind]
    congr 1

theorem wantedAt_eq_some (new : Loaded) {a : SocketAddr} {c : ListenerCfg} :
    wantedAt new.runtime a = some c ↔ c ∈ new.runtime.listeners ∧ c.addr = a := by
  constructor
  · intro h
    exact ⟨List.mem_of_find?_eq_some h, by simpa using List.find?_some h⟩
  · rintro ⟨hc, rfl⟩
    have hfind := (find?_key _ (List.nodup_iff_count_le_one.1 new.nodup c.addr)).2 hc
    rw [wantedAt, ← hfind]
    congr 1

/-- An address is started exactly if its own bind succeeds. -/
theorem mem_spawnRest_of_bind {binds : Binds} :
    ∀ {ps : List (SocketAddr × ListenerCfg)} (n : Nat) {p : SocketAddr × ListenerCfg}, p ∈ ps →
      binds.http p.2.addr = .ok () → ∃ i, spawnHttp i p.2 ∈ (spawnRest binds n ps).1 := by
  intro ps
  induction ps with
  | nil =>
      intro n p hp
      exact absurd hp List.not_mem_nil
  | cons q ps ih =>
      intro n p hp hbind
      rw [spawnRest]
      rcases List.mem_cons.1 hp with rfl | hp
      · rw [hbind]
        exact ⟨n, List.mem_cons_self⟩
      · split
        · obtain ⟨i, hi⟩ := ih (n + 1) hp hbind
          exact ⟨i, List.mem_cons_of_mem _ hi⟩
        · exact ih n hp hbind

theorem bind_of_mem_spawnRest {binds : Binds} :
    ∀ {ps : List (SocketAddr × ListenerCfg)} {n : Nat} {l : HttpListener},
      l ∈ (spawnRest binds n ps).1 → binds.http l.addr = .ok () := by
  intro ps
  induction ps with
  | nil =>
      intro n l hl
      exact absurd hl List.not_mem_nil
  | cons q ps ih =>
      intro n l hl
      rw [spawnRest] at hl
      split at hl
      · rename_i hbind
        rcases List.mem_cons.1 hl with rfl | hl
        · exact hbind
        · exact ih hl
      · exact ih hl

/-- A listener on an address that nobody listened on has just been bound. -/
theorem bind_of_mem_reloadHttp {binds : Binds} {o : IterOrder (SocketAddr × ListenerCfg)} {n : Nat}
    {old : List HttpListener} {new : List ListenerCfg} {l : HttpListener}
    (h : l ∈ (reloadHttp binds o n old new).1) (hno : ∀ l' ∈ old, l'.addr ≠ l.addr) :
    binds.http l.addr = .ok () := by
  rcases List.mem_append.1 h with h | h
  · obtain ⟨m, hm, rfl⟩ := List.mem_map.1 h
    have hold := (matched_sublist HttpListener.addr (wantedHttp new) old).subset
      (List.mem_map_of_mem hm)
    exact absurd rfl (hno m.1 hold)
  · exact bind_of_mem_spawnRest h

/-- A reload does to an address what the automaton of the address does. -/
theorem served_reload {s : Supervisor} (hd : Distinct s) (e : Reload) (a : SocketAddr) :
    ((s.reload e).httpAt a).map HttpListener.served =
      addressStep a ((s.httpAt a).map HttpListener.served) e := by
  rw [addressStep]
  cases hload : e.loaded with
  | error msg => rw [reload_error hload]
  | ok new =>
      have hd' : Distinct (s.reload e) := reload_distinct s e hd
      have hhttp : (s.reload e).http =
          (reloadHttp e.binds e.httpOrder s.nextId s.http new.runtime.listeners).1 := by
        rw [reload_ok hload]
      have hcases : ∀ {l'}, (s.reload e).httpAt a = some l' →
          (∃ l c, s.httpAt a = some l ∧ wantedAt new.runtime a = some c) ∨
            s.httpAt a = none ∧ (∃ c, wantedAt new.runtime a = some c) ∧
              e.binds.http a = .ok () := by
        intro l' hl'
        obtain ⟨hmem, haddr⟩ := (httpAt_eq_some hd').1 hl'
        rw [hhttp] at hmem
        rcases reloadHttp_cases hd new.nodup hmem with
          ⟨l, hl, c, hc, hla, rfl⟩ | ⟨c, hc, hno, i, -, rfl⟩
        · exact Or.inl ⟨l, c, (httpAt_eq_some hd).2 ⟨hl, haddr⟩,
            (wantedAt_eq_some new).2 ⟨hc, hla.trans haddr⟩⟩
        · refine Or.inr ⟨?_, ⟨c, (wantedAt_eq_some new).2 ⟨hc, haddr⟩⟩, ?_⟩
          · rw [Option.eq_none_iff_forall_ne_some]
            intro l hl
            obtain ⟨hl, hla⟩ := (httpAt_eq_some hd).1 hl
            exact hno l hl (hla.trans haddr.symm)
          · rw [← haddr]
            exact bind_of_mem_reloadHttp hmem hno
      cases hwanted : wantedAt new.runtime a with
      | none =>
          have hnone : (s.reload e).httpAt a = none := by
            rw [Option.eq_none_iff_forall_ne_some]
            intro l' hl'
            rcases hcases hl' with ⟨-, c, -, hc⟩ | ⟨-, ⟨c, hc⟩, -⟩ <;>
              exact absurd (hwanted.symm.trans hc) (by simp)
          simp only [hnone, hwanted, Option.map_none, Option.bind_none]
      | some c =>
          obtain ⟨hc, hca⟩ := (wantedAt_eq_some new).1 hwanted
          cases hat : s.httpAt a with
          | some l =>
              obtain ⟨hl, hla⟩ := (httpAt_eq_some hd).1 hat
              have hkept : (s.reload e).httpAt a = some (keepHttp l c) := by
                refine (httpAt_eq_some hd').2 ⟨?_, hla⟩
                rw [hhttp]
                exact keepHttp_mem_reloadHttp hd new.nodup hl hc (hca.trans hla.symm)
              have hcfg : (keepHttp l c).cfg = c := rfl
              simp only [hkept, hwanted, Option.map_some, Option.bind_some, HttpListener.served,
                keepHttp_acceptor_eq, hcfg]
          | none =>
              have hno : ∀ l ∈ s.http, l.addr ≠ a := by
                intro l hl hla
                rw [(httpAt_eq_some hd).2 ⟨hl, hla⟩] at hat
                cases hat
              cases hbind : e.binds.http a with
              | error msg =>
                  have hnone : (s.reload e).httpAt a = none := by
                    rw [Option.eq_none_iff_forall_ne_some]
                    intro l' hl'
                    rcases hcases hl' with ⟨l, -, hl, -⟩ | ⟨-, -, hok⟩
                    · exact absurd (hat.symm.trans hl) (by simp)
                    · exact absurd (hbind.symm.trans hok) (by simp)
                  simp only [hnone, hwanted, Option.map_none, Option.bind_some]
              | ok u =>
                  have hrest : (a, c) ∈ HashMap.iter (reconcile HttpListener.addr
                      (wantedHttp new.runtime.listeners) s.http).rest e.httpOrder :=
                    (mem_rest new.nodup).2 ⟨hc, hca, hno⟩
                  have hbind' : e.binds.http c.addr = .ok () := hca.symm ▸ hbind
                  obtain ⟨i, hi⟩ := mem_spawnRest_of_bind s.nextId hrest hbind'
                  have hspawned : (s.reload e).httpAt a = some (spawnHttp i c) := by
                    refine (httpAt_eq_some hd').2 ⟨?_, hca⟩
                    rw [hhttp]
                    exact List.mem_append_right _ hi
                  simp only [hspawned, hwanted, Option.map_none, Option.map_some, Option.bind_some,
                    HttpListener.served, spawnHttp]

/-! ## Whole runs -/

/-- Listeners have numbers below the next one, and no two listen on one address. -/
structure Numbered (s : Supervisor) : Prop where
  distinct : Distinct s
  ids : (s.http.map HttpListener.id).Nodup
  fresh : ∀ l ∈ s.http, l.id < s.nextId

theorem Numbered.reload {s : Supervisor} (h : Numbered s) (e : Reload) : Numbered (s.reload e) where
  distinct := reload_distinct s e h.distinct
  ids := by
    cases hload : e.loaded with
    | error msg =>
        rw [reload_error hload]
        exact h.ids
    | ok new =>
        rw [reload_ok hload]
        exact (reloadHttp_ids h.ids h.fresh).1
  fresh := by
    cases hload : e.loaded with
    | error msg =>
        rw [reload_error hload]
        exact h.fresh
    | ok new =>
        rw [reload_ok hload]
        exact (reloadHttp_ids h.ids h.fresh).2

theorem numbered_start {binds : Binds} {init : Loaded} {s : Supervisor}
    (h : start binds init.runtime = .ok s) : Numbered s :=
  ⟨start_distinct h, (start_numbered h).1, (start_numbered h).2⟩

/-- A listener whose number had been given out before the reload was there before it, on the same
address. -/
theorem old_of_reload {s : Supervisor} (h : Numbered s) (e : Reload) {l' : HttpListener}
    (hl' : l' ∈ (s.reload e).http) (hid : l'.id < s.nextId) :
    ∃ l ∈ s.http, l.id = l'.id ∧ l.addr = l'.addr := by
  cases hload : e.loaded with
  | error msg =>
      rw [reload_error hload] at hl'
      exact ⟨l', hl', rfl, rfl⟩
  | ok new =>
      rw [reload_ok hload] at hl'
      rcases reloadHttp_cases h.distinct new.nodup hl' with
        ⟨l, hl, c, -, -, rfl⟩ | ⟨c, -, -, i, hi, rfl⟩
      · exact ⟨l, hl, rfl, rfl⟩
      · exact absurd hid (Nat.not_lt.2 hi)

theorem nextId_le_reload (s : Supervisor) (e : Reload) : s.nextId ≤ (s.reload e).nextId := by
  cases hload : e.loaded with
  | error msg => rw [reload_error hload]
  | ok new =>
      rw [reload_ok hload]
      show s.nextId ≤ (spawnRest _ _ _).2
      rw [(spawnRest_ids _ _ _).2]
      exact Nat.le_add_right _ _

theorem old_of_run {s : Supervisor} (h : Numbered s) (es : List Reload) {l' : HttpListener}
    (hl' : l' ∈ (run Supervisor.reload s es).http) (hid : l'.id < s.nextId) :
    ∃ l ∈ s.http, l.id = l'.id ∧ l.addr = l'.addr := by
  induction es generalizing s with
  | nil => exact ⟨l', hl', rfl, rfl⟩
  | cons e es ih =>
      obtain ⟨l, hl, hlid, hla⟩ := ih (h.reload e) hl' (hid.trans_le (nextId_le_reload s e))
      obtain ⟨l₀, hl₀, hid₀, ha₀⟩ := old_of_reload h e hl (hlid ▸ hid)
      exact ⟨l₀, hl₀, hid₀.trans hlid, ha₀.trans hla⟩

/-- A reload that names the address keeps the task that listens on it. -/
theorem httpAt_reload {s : Supervisor} (h : Numbered s) {e : Reload} {a : SocketAddr}
    (he : e.Names a) {l : HttpListener} (hl : s.httpAt a = some l) :
    ∃ l', (s.reload e).httpAt a = some l' ∧ l'.id = l.id := by
  cases hload : e.loaded with
  | error msg =>
      rw [reload_error hload]
      exact ⟨l, hl, rfl⟩
  | ok new =>
      obtain ⟨c, hwanted⟩ := Option.ne_none_iff_exists'.1 (he new hload)
      obtain ⟨hc, hca⟩ := (wantedAt_eq_some new).1 hwanted
      obtain ⟨hmem, hla⟩ := (httpAt_eq_some h.distinct).1 hl
      refine ⟨keepHttp l c, (httpAt_eq_some (reload_distinct s e h.distinct)).2 ⟨?_, hla⟩, rfl⟩
      rw [reload_ok hload]
      exact keepHttp_mem_reloadHttp h.distinct new.nodup hmem hc (hca.trans hla.symm)

/-- A reload that does not name the address leaves nothing on it. -/
theorem httpAt_reload_none {s : Supervisor} (h : Numbered s) {e : Reload} {a : SocketAddr}
    (he : ¬ e.Names a) : (s.reload e).httpAt a = none := by
  simp only [Reload.Names, not_forall, ne_eq, not_not, exists_prop] at he
  obtain ⟨new, hload, hwanted⟩ := he
  have hserved := served_reload h.distinct e a
  simp only [addressStep, hload, hwanted, Option.bind_none, Option.map_eq_none_iff] at hserved
  exact hserved

/-- The same task listens on the address at the end exactly if every configuration accepted in the
meantime names it. -/
theorem same_task_iff {s : Supervisor} (h : Numbered s) {a : SocketAddr} {l : HttpListener}
    (hl : s.httpAt a = some l) (es : List Reload) :
    (∃ l', (run Supervisor.reload s es).httpAt a = some l' ∧ l'.id = l.id) ↔ ∀ e ∈ es, e.Names a := by
  induction es generalizing s l with
  | nil => exact ⟨fun _ e he => absurd he List.not_mem_nil, fun _ => ⟨l, hl, rfl⟩⟩
  | cons e es ih =>
      rw [run_cons, List.forall_mem_cons]
      by_cases he : e.Names a
      · obtain ⟨l₁, hl₁, hid⟩ := httpAt_reload h he hl
        rw [← hid, ih (h.reload e) hl₁]
        exact ⟨fun hes => ⟨he, hes⟩, And.right⟩
      · refine ⟨?_, fun hes => absurd hes.1 he⟩
        rintro ⟨l', hl', hid⟩
        have hnone := httpAt_reload_none h he
        have hend : Numbered (run Supervisor.reload (s.reload e) es) :=
          run_invariant (fun _ e h => h.reload e) (h.reload e) es
        obtain ⟨hmem, haddr⟩ := (httpAt_eq_some hend.distinct).1 hl'
        obtain ⟨hold, -⟩ := (httpAt_eq_some h.distinct).1 hl
        have hlt : l'.id < (s.reload e).nextId :=
          hid ▸ (h.fresh l hold).trans_le (nextId_le_reload s e)
        obtain ⟨l₀, hl₀, -, ha₀⟩ := old_of_run (h.reload e) es hmem hlt
        rw [(httpAt_eq_some (h.reload e).distinct).2 ⟨hl₀, ha₀.trans haddr⟩] at hnone
        cases hnone

/-- **One address at a time.** In every run of reloads (that load or not, with binds that succeed or
fail, in any iteration order) what serves an address is what the automaton of that address alone
comes to, so no other address can affect it; and the task that listened on it at some point is the
one that listens on it later exactly if every configuration accepted in between names the address. -/
theorem address_history {binds : Binds} {init : Loaded} {s : Supervisor}
    (hstart : start binds init.runtime = .ok s) (before after : List Reload) (a : SocketAddr) :
    let t := run Supervisor.reload s before
    let t' := run Supervisor.reload t after
    (t'.httpAt a).map HttpListener.served =
        run (addressStep a) ((t.httpAt a).map HttpListener.served) after ∧
      ∀ l, t.httpAt a = some l →
        ((∃ l', t'.httpAt a = some l' ∧ l'.id = l.id) ↔ ∀ e ∈ after, e.Names a) := by
  intro t t'
  have ht : Numbered t := run_invariant (fun _ e h => h.reload e) (numbered_start hstart) before
  refine ⟨?_, fun l hl => same_task_iff ht hl after⟩
  have hserved : ∀ (es : List Reload) {u : Supervisor}, Numbered u →
      ((run Supervisor.reload u es).httpAt a).map HttpListener.served =
        run (addressStep a) ((u.httpAt a).map HttpListener.served) es := by
    intro es
    induction es with
    | nil => exact fun _ => rfl
    | cons e es ih =>
        intro u hu
        rw [run_cons, ih (hu.reload e), run_cons, served_reload hu.distinct]
  exact hserved after ht

/-- A reload with a broken file and one with the same file while no socket can be bound. -/
def failingReloads : List Reload :=
  [⟨.error "unexpected end of input", Binds.succeed, IterOrder.stored, IterOrder.stored⟩,
    ⟨.ok plainLoaded, ⟨fun _ => .error "EACCES", fun _ _ => .ok (), fun _ => .ok ()⟩,
      IterOrder.stored, IterOrder.stored⟩]

/-- They leave the task in place. -/
theorem failing_reloads_keep_task :
    ∃ s l, start Binds.succeed plainLoaded.runtime = .ok s ∧ s.httpAt addr8443 = some l ∧
      ∃ l', (run Supervisor.reload s failingReloads).httpAt addr8443 = some l' ∧ l'.id = l.id := by
  obtain ⟨s, hs⟩ := start_succeed plainLoaded.runtime
  obtain ⟨c, hc, hca, -⟩ := plainLoaded_listener
  have hl : s.httpAt addr8443 = some (spawnHttp 0 c) := by
    refine (httpAt_eq_some (start_distinct hs)).2 ⟨?_, hca⟩
    rw [start_http hs, hc]
    exact List.mem_singleton.2 rfl
  refine ⟨s, _, hs, hl, ((address_history hs [] failingReloads addr8443).2 _ hl).2 ?_⟩
  intro e he new hnew
  rcases List.mem_cons.1 he with rfl | he
  · cases hnew
  · obtain rfl := List.mem_singleton.1 he
    obtain rfl := Except.ok.inj hnew
    rw [(wantedAt_eq_some plainLoaded).2 ⟨hc ▸ List.mem_cons_self, hca⟩]
    exact Option.some_ne_none c

end Elrond.Process
