import Elrond.App.Listeners

/-!
# Grouping, exactly

The grouping step of `app::build` as a function of the staged server blocks: it fails exactly when
two blocks of one address differ in TLS, and otherwise gives one listener for each address, in order
of first appearance, with the virtual hosts and certificates of its blocks in declaration order
(`groupListeners_exact`). `GroupSpec` says what a successful run has done; here are the order of the
addresses and the failing direction.
-/

set_option autoImplicit false

namespace Elrond.App

open Elrond.Lib Elrond.Http Elrond.Request Elrond.Config Elrond.Upstream Elrond.Proxy

/-- The grouping step by itself: the listeners as the loop leaves them, before any TLS
configuration is made. -/
def groupListeners (staged : List Staged) : Except String (List ListenerCfg) := do
  let g ← staged.foldlM groupStep {}
  .ok (g.order.filterMap fun a => g.table.lookup a)

/-- Two blocks of one address differ in TLS. -/
def Mixed (xs : List Staged) : Prop :=
  ∃ x ∈ xs, ∃ y ∈ xs, x.addr = y.addr ∧ x.cert.isSome ≠ y.cert.isSome

/-- The addresses of the blocks, each at its first appearance. -/
def firstAddrs (xs : List Staged) : List SocketAddr := (xs.map Staged.addr).eraseDups

theorem eraseDups_concat {α : Type} [DecidableEq α] (xs : List α) (a : α) :
    (xs ++ [a]).eraseDups = if a ∈ xs then xs.eraseDups else xs.eraseDups ++ [a] := by
  rw [List.eraseDups_append]
  by_cases h : a ∈ xs
  · simp [List.removeAll, List.filter, h]
  · simp [List.removeAll, List.filter, h, List.eraseDups_cons]

/-- A block that is turned away has another mode than some block already on its address. -/
theorem groupStep_error {read : List Staged} {x : Staged} {g : Grouped} {e : String}
    (h : GroupSpec read g) (hstep : groupStep g x = .error e) :
    ∃ y ∈ read, y.addr = x.addr ∧ y.cert.isSome ≠ x.cert.isSome := by
  simp only [groupStep, h.getOr_eq] at hstep
  split at hstep
  · rename_i hmix
    rw [Bool.and_eq_true, Bool.not_eq_true', List.isEmpty_eq_false_iff] at hmix
    obtain ⟨y, hy⟩ : ∃ y, y ∈ blocksAt read x.addr := by
      apply List.exists_mem_of_ne_nil
      simpa [groupedCfg] using hmix.1
    obtain ⟨hread, haddr⟩ := List.mem_filter.1 hy
    have haddr : y.addr = x.addr := by simpa using haddr
    refine ⟨y, hread, haddr, fun hsame => ?_⟩
    have hmode := h.tlsPaths_isEmpty hread
    rw [haddr] at hmode
    rw [hmode] at hmix
    cases hc : y.cert <;> cases hd : x.cert <;> simp_all
  · exact absurd hstep (by simp)

/-- The addresses are listed at their first appearance. -/
theorem group_order {xs : List Staged} {g : Grouped} (h : xs.foldlM groupStep {} = .ok g) :
    g.order = firstAddrs xs := by
  have hboth : GroupSpec xs g ∧ g.order = firstAddrs xs := by
    refine foldlM_induction (motive := fun read g => GroupSpec read g ∧ g.order = firstAddrs read)
      ?_ ?_ h
    · exact ⟨group_spec rfl, rfl⟩
    · rintro read x g g' ⟨hspec, horder⟩ hstep
      refine ⟨groupStep_spec hspec hstep, ?_⟩
      -- the loop appends the address of a block exactly if the table does not have it yet
      have hknown : (g.table.lookup x.addr).isSome = true ↔ x.addr ∈ read.map Staged.addr := by
        rw [hspec.lookup_isSome, hspec.mem_order, List.mem_map]
      simp only [groupStep, hspec.getOr_eq] at hstep
      split at hstep
      · exact absurd hstep (by simp)
      · obtain rfl := Except.ok.inj hstep
        simp only [firstAddrs, List.map_append, List.map_cons, List.map_nil, eraseDups_concat,
          hknown, horder]
  exact hboth.2

/-- Grouping fails exactly on mixed blocks. -/
theorem group_error_iff (xs : List Staged) :
    (∃ e, xs.foldlM groupStep {} = .error e) ↔ Mixed xs := by
  constructor
  · rintro ⟨e, h⟩
    -- up to the block that is turned away everything was grouped
    obtain ⟨read, x, rest, g, rfl, hread, hx⟩ := foldlM_eq_error h
    obtain ⟨y, hy, haddr, hmode⟩ := groupStep_error (group_spec hread) hx
    exact ⟨y, by simp [hy], x, by simp, haddr, hmode⟩
  · rintro ⟨x, hx, y, hy, haddr, hmode⟩
    cases h : xs.foldlM groupStep {} with
    | error e => exact ⟨e, rfl⟩
    | ok g => exact absurd ((group_spec h).uniform x hx y hy haddr) hmode

/-- The listeners of blocks that are not mixed. -/
theorem groupListeners_eq {xs : List Staged} {ls : List ListenerCfg}
    (h : groupListeners xs = .ok ls) : ls = (firstAddrs xs).map (groupedCfg xs) := by
  obtain ⟨g, hg, h⟩ := bind_eq_ok.1 h
  obtain rfl := Except.ok.inj h
  have hspec := group_spec hg
  rw [← group_order hg, ← List.filterMap_eq_map]
  apply List.filterMap_congr
  intro a ha
  rw [hspec.lookup, if_pos ha]
  rfl

/-- The staged blocks of an address are those of the server blocks that listen on it, in order. -/
theorem forall₂_blocksAt {host : Host} {http : HttpBlock} {servers : List Server}
    {staged : List Staged}
    (h : List.Forall₂ (fun s x => buildVhost host http s = .ok x) servers staged)
    (a : SocketAddr) :
    List.Forall₂ (fun s x => buildVhost host http s = .ok x)
      (servers.filter fun s => s.listen = some a) (blocksAt staged a) := by
  induction h with
  | nil => exact List.Forall₂.nil
  | @cons s x servers staged hx hrest ih =>
      have haddr := (buildVhost_spec hx).1
      by_cases ha : x.addr = a
      · have hs : s.listen = some a := ha ▸ haddr
        simp only [blocksAt, List.filter_cons, ha, hs, decide_true, if_true]
        exact List.Forall₂.cons hx ih
      · have hs : ¬ s.listen = some a := fun heq => ha (Option.some.inj (haddr.symm.trans heq))
        simp only [blocksAt, List.filter_cons, ha, hs, decide_false, Bool.false_eq_true, if_false]
        exact ih

theorem staged_addrs {host : Host} {http : HttpBlock} {servers : List Server} {xs : List Staged}
    (h : List.Forall₂ (fun s x => buildVhost host http s = .ok x) servers xs) :
    xs.map Staged.addr = servers.filterMap Server.listen := by
  induction h with
  | nil => rfl
  | @cons s x servers xs hx hrest ih =>
      rw [List.map_cons, List.filterMap_cons_some (buildVhost_spec hx).1, ih]

/-- What staging keeps of the server blocks: which of them share an address and differ in TLS, the
addresses in order of first appearance, and for each address its server blocks in order, each with
its own virtual host and certificate. -/
structure StagedFrom (host : Host) (http : HttpBlock) (xs : List Staged) : Prop where
  mixed : Mixed xs ↔
    ∃ s ∈ http.servers, ∃ t ∈ http.servers, s.listen = t.listen ∧ s.tls ≠ t.tls
  addrs : firstAddrs xs = (http.servers.filterMap Server.listen).eraseDups
  blocks : ∀ a, List.Forall₂ (fun s x => buildVhost host http s = .ok x ∧ certEntry s = .ok x.cert)
    (http.servers.filter fun s => s.listen = some a) (blocksAt xs a)

theorem stagedFrom {host : Host} {http : HttpBlock} {xs : List Staged}
    (h : http.servers.mapM (buildVhost host http) = .ok xs) : StagedFrom host http xs := by
  have hall := mapM_forall₂ h
  refine ⟨?_, ?_, ?_⟩
  · constructor
    · rintro ⟨x, hx, y, hy, haddr, hmode⟩
      obtain ⟨s, hs, hsx⟩ := forall₂_exists_left hall x hx
      obtain ⟨t, ht, hty⟩ := forall₂_exists_left hall y hy
      obtain ⟨hslisten, hstls, -⟩ := buildVhost_spec hsx
      obtain ⟨htlisten, httls, -⟩ := buildVhost_spec hty
      rw [hstls, httls] at hmode
      exact ⟨s, hs, t, ht, by rw [hslisten, htlisten, haddr], hmode⟩
    · rintro ⟨s, hs, t, ht, hlisten, hmode⟩
      obtain ⟨x, hx, hsx⟩ := forall₂_exists_right hall s hs
      obtain ⟨y, hy, hty⟩ := forall₂_exists_right hall t ht
      obtain ⟨hslisten, hstls, -⟩ := buildVhost_spec hsx
      obtain ⟨htlisten, httls, -⟩ := buildVhost_spec hty
      rw [← hstls, ← httls] at hmode
      refine ⟨x, hx, y, hy, Option.some.inj ?_, hmode⟩
      rw [← hslisten, ← htlisten, hlisten]
  · rw [firstAddrs, staged_addrs hall]
  · intro a
    exact (forall₂_blocksAt hall a).imp fun s x hx => ⟨hx, (buildVhost_ok hx).cert⟩

/-- **Grouping loses and duplicates nothing.** For every list of staged server blocks, grouping
fails exactly when two blocks of one address differ in TLS. Otherwise it gives one listener for each
address, in order of first appearance, with exactly the virtual hosts and the certificates of the
blocks of that address in declaration order, and no certificates exactly if these blocks are plain.
The staged blocks of a configuration stand for its server blocks one by one. -/
theorem groupListeners_exact (xs : List Staged) :
    ((∃ e, groupListeners xs = .error e) ↔ Mixed xs) ∧
    (∀ ls, groupListeners xs = .ok ls →
      ls = (firstAddrs xs).map (groupedCfg xs) ∧
        ∀ l ∈ ls, (l.tlsPaths = [] ↔ ∀ x ∈ blocksAt xs l.addr, x.cert = none)) ∧
    ∀ host http, http.servers.mapM (buildVhost host http) = .ok xs → StagedFrom host http xs := by
  refine ⟨?_, ?_, fun host http h => stagedFrom h⟩
  · rw [← group_error_iff, groupListeners]
    cases h : xs.foldlM groupStep {} with
    | error e => simp [bind, Except.bind]
    | ok g => simp [bind, Except.bind]
  · intro ls h
    obtain rfl := groupListeners_eq h
    refine ⟨rfl, ?_⟩
    intro l hl
    obtain ⟨a, -, rfl⟩ := List.mem_map.1 hl
    exact List.filterMap_eq_nil_iff

/-- The listeners of a build are those of the grouping step, each given its TLS configurations. -/
theorem buildListeners_grouped {host : Host} {o : IterOrder (SocketAddr × ListenerCfg)}
    {http : HttpBlock} {ls : List ListenerCfg} (h : buildListeners host o http = .ok ls) :
    ∃ xs grouped, http.servers.mapM (buildVhost host http) = .ok xs ∧
      groupListeners xs = .ok grouped ∧
      List.Forall₂ (fun l l' => materializeOne host http.servers l = .ok l') grouped ls := by
  obtain ⟨staged, g, hstaged, hg, hls⟩ := buildListeners_ok h
  have hgrouped : groupListeners staged = .ok (g.order.map (groupedCfg staged)) := by
    have hrun : groupListeners staged =
        .ok (g.order.filterMap fun a => g.table.lookup a) := bind_eq_ok.2 ⟨g, hg, rfl⟩
    rw [hrun, groupListeners_eq hrun, group_order hg]
  refine ⟨staged, _, hstaged, hgrouped, ?_⟩
  rw [List.forall₂_map_left_iff]
  exact hls

end Elrond.App
