import Elrond.App.Grouping
import Elrond.App.ListenFidelity
import Elrond.Config.Declarative

/-!
# Virtual host selection

`ListenerCfg::pick_state`, and the path of a `server_name` line to it. The lowering keeps one name
of a server block, the first argument of its last `server_name` line (`keptName`), and `pick_state`
compares it with the part of the `Host` value before the first colon. So the block that is picked is
the first one that lists the host exactly when that name and that part decide alike
(`pickState_listed_iff`): a block may be passed over for a name it does not keep, and a bracketed
IPv6 literal is cut inside the brackets.
-/

set_option autoImplicit false

namespace Elrond.App

open Elrond.Lib Elrond.Http Elrond.Request Elrond.Config Elrond.Upstream Elrond.Proxy

/-! ## `pick_state` -/

/-- The part of a `Host` value that is compared: up to the first colon, in lower case. -/
def hostKey (h : String) : String :=
  Text.toAsciiLowercase ((Text.split ':' h).headD h)

/-- A server name, if there is one, is a given text, which is in lower case. -/
def answersTo (key : String) : Option String → Bool
  | some name => Text.toAsciiLowercase name == key
  | none => false

/-- The position of the virtual host that answers: the first with the name of the host, else the
first of all. -/
def pickIndex (vhosts : List VirtualHost) (hostHeader : Option String) : Nat :=
  match hostHeader with
  | some h => (vhosts.findIdx? fun v => answersTo (hostKey h) v.serverName).getD 0
  | none => 0

/-- `ListenerCfg::pick_state`; a listener has at least one virtual host. -/
def pickState (l : ListenerCfg) (hostHeader : Option String) : Option ServerState :=
  (l.vhosts[pickIndex l.vhosts hostHeader]?).map VirtualHost.state

/-! ## The names of a server block -/

/-- The `server_name` lines of a server block. -/
def nameLines (b : List Directive) : List Directive := b.filter fun d => d.name = "server_name"

/-- The names a server block lists. -/
def listedNames (b : List Directive) : List String := (nameLines b).flatMap Directive.args

/-- The name the lowering keeps: the first argument of the last `server_name` line. -/
def keptName (b : List Directive) : Option String :=
  (nameLines b).getLast?.bind fun d => d.args.head?

/-- A server block lists a host, up to the case of letters. -/
def lists (host : String) (b : List Directive) : Bool :=
  (listedNames b).any fun name => Text.toAsciiLowercase name == Text.toAsciiLowercase host

/-- A server block answers to a text by the name it keeps. -/
def keeps (key : String) (b : List Directive) : Bool := answersTo key (keptName b)

theorem keptName_mem {b : List Directive} {name : String} (h : keptName b = some name) :
    name ∈ listedNames b := by
  obtain ⟨d, hd, hname⟩ := Option.bind_eq_some_iff.1 h
  exact List.mem_flatMap.2 ⟨d, List.mem_of_getLast? hd, List.mem_of_mem_head? hname⟩

theorem lists_of_keeps {host : String} {b : List Directive}
    (h : keeps (Text.toAsciiLowercase host) b = true) : lists host b = true := by
  rw [keeps] at h
  cases hname : keptName b with
  | none => simp [hname, answersTo] at h
  | some name =>
      rw [hname] at h
      exact List.any_eq_true.2 ⟨name, keptName_mem hname, h⟩

theorem serverName_apply_patch {p : ServerPatch} (h : p.owner ≠ some "server_name")
    (s : Server) : (p.apply s).serverName = s.serverName := by
  cases p with
  | serverName name => exact absurd rfl h
  | _ => rfl

/-- A server keeps the name of its block. -/
theorem buildServer_serverName {env : Externals} {b : List Directive} {s : Server}
    (h : buildServer env b = .ok s) : s.serverName = keptName b := by
  rw [buildServer] at h
  obtain ⟨root, -, h⟩ := bind_eq_ok.1 h
  obtain ⟨s', hfold, h⟩ := bind_eq_ok.1 h
  rw [checkServer_eq h]
  refine foldlM_induction (motive := fun read s => s.serverName = keptName read) rfl ?_ hfold
  intro read d s s' hread hstep
  rw [serverStep_eq] at hstep
  obtain ⟨p, hp, rfl⟩ := map_eq_ok.1 hstep
  -- a `server_name` line replaces the name, every other directive leaves it
  by_cases hname : d.name = "server_name"
  · have hpatch : serverPatch env s.root d = .ok (.serverName d.args.head?) := by
      rw [serverPatch, hname]
      rfl
    obtain rfl := Except.ok.inj (hp.symm.trans hpatch)
    simp [ServerPatch.apply, keptName, nameLines, List.filter_append, hname]
  · have howner : p.owner ≠ some "server_name" := by
      rcases serverPatch_owner hp with ho | ho
      · simp [ho]
      · simpa [ho] using hname
    rw [serverName_apply_patch howner, hread]
    simp [keptName, nameLines, List.filter_append, hname]

/-! ## `Host` values -/

/-- A `Host` value: a name or an IPv4 literal, or an IPv6 literal between brackets, each with an
optional port. -/
inductive HostValue where
  | name (host : String) (noColon : ':' ∉ host.toList) (port : Option String)
  | ipv6 (addr : String) (colon : ':' ∈ addr.toList) (port : Option String)

namespace HostValue

/-- The host without the port. -/
def host : HostValue → String
  | .name host _ _ => host
  | .ipv6 addr _ _ => "[" ++ addr ++ "]"

def port : HostValue → Option String
  | .name _ _ port => port
  | .ipv6 _ _ port => port

/-- The value as it is sent. -/
def text (v : HostValue) : String :=
  match v.port with
  | none => v.host
  | some port => v.host ++ ":" ++ port

end HostValue

theorem headD_split (c : Char) (s d : String) :
    (Text.split c s).headD d = String.ofList (s.toList.takeWhile (· != c)) := by
  have hhead : ∀ cs : List Char, (cs.splitOn c).head? = some (cs.takeWhile (· != c)) := by
    intro cs
    induction cs with
    | nil => rfl
    | cons x cs ih =>
        rw [List.splitOn, List.splitOnP_cons_eq_if_modifyHead]
        by_cases hx : x = c
        · simp [hx]
        · simp [hx, List.head?_modifyHead, ← ih, List.splitOn]
  rw [Text.split, List.headD_eq_head?_getD, List.head?_map, hhead]
  rfl

theorem takeWhile_of_notMem {c : Char} {cs rest : List Char} (h : c ∉ cs) :
    (cs ++ c :: rest).takeWhile (· != c) = cs := by
  rw [List.takeWhile_append_of_pos]
  · simp
  · intro x hx
    simpa using fun heq : x = c => h (heq ▸ hx)

/-- What is compared for a name is the name. -/
theorem hostKey_name (v : HostValue) (h : ':' ∉ v.host.toList) :
    hostKey v.text = Text.toAsciiLowercase v.host := by
  have hcut : v.text.toList.takeWhile (· != ':') = v.host.toList := by
    rw [HostValue.text]
    split
    · rw [List.takeWhile_eq_self_iff]
      intro x hx
      simpa using fun heq : x = ':' => h (heq ▸ hx)
    · rw [String.toList_append, String.toList_append, List.append_assoc]
      exact takeWhile_of_notMem h
  rw [hostKey, headD_split, hcut, String.ofList_toList]

/-! ## Two searches -/

/-- Two first positions, one of a narrower search: they are the same exactly if the wider search
finds nothing, or finds an element of the narrower one, or finds the first position of all and the
narrower search nothing. -/
theorem findIdx?_getD_eq_iff {α : Type} {p q : α → Bool} (hpq : ∀ a, p a = true → q a = true)
    (xs : List α) :
    (xs.findIdx? p).getD 0 = (xs.findIdx? q).getD 0 ↔
      ∀ i, xs.findIdx? q = some i →
        (∃ a, xs[i]? = some a ∧ p a = true) ∨ (i = 0 ∧ ∀ a ∈ xs, p a = false) := by
  cases hq : xs.findIdx? q with
  | none =>
      have hnone : xs.findIdx? p = none := by
        rw [List.findIdx?_eq_none_iff] at hq ⊢
        intro a ha
        cases hp : p a with
        | false => rfl
        | true => exact absurd (hpq a hp) (by simp [hq a ha])
      simp [hnone]
  | some i =>
      obtain ⟨hi, hqi, hbefore⟩ := List.findIdx?_eq_some_iff_getElem.1 hq
      cases hp : xs.findIdx? p with
      | none =>
          rw [List.findIdx?_eq_none_iff] at hp
          simp only [Option.getD_none, Option.getD_some, Option.some.injEq, forall_eq']
          constructor
          · intro h
            exact Or.inr ⟨h.symm, hp⟩
          · rintro (⟨a, ha, hpa⟩ | ⟨h, -⟩)
            · simp [hp a (List.mem_of_getElem? ha)] at hpa
            · exact h.symm
      | some j =>
          obtain ⟨hj, hpj, hfirst⟩ := List.findIdx?_eq_some_iff_getElem.1 hp
          simp only [Option.getD_some, Option.some.injEq, forall_eq']
          constructor
          · rintro rfl
            exact Or.inl ⟨_, List.getElem?_eq_getElem hj, hpj⟩
          · rintro (⟨a, ha, hpa⟩ | ⟨-, hall⟩)
            · -- the narrower search stops no later than at `i`, and no earlier
              have hle : ¬ j < i := fun hlt => hbefore j hlt (hpq _ hpj)
              have hge : ¬ i < j := by
                intro hlt
                obtain rfl := Option.some.inj ((List.getElem?_eq_getElem hi).symm.trans ha)
                exact hfirst i hlt hpa
              omega
            · simp [hall _ (List.getElem_mem hj)] at hpj

/-- Two first positions, of searches that have nothing to do with each other. -/
theorem findIdx?_getD_eq_iff_cases {α : Type} (p q : α → Bool) (xs : List α) :
    (xs.findIdx? p).getD 0 = (xs.findIdx? q).getD 0 ↔
      (∀ i, xs.findIdx? p = some i →
        xs.findIdx? q = some i ∨ (i = 0 ∧ ∀ a ∈ xs, q a = false)) ∧
      ((∀ a ∈ xs, p a = false) → ∀ i, xs.findIdx? q = some i → i = 0) := by
  cases hp : xs.findIdx? p with
  | none =>
      have hnone := List.findIdx?_eq_none_iff.1 hp
      cases hq : xs.findIdx? q with
      | none => simp
      | some j =>
          simp only [Option.getD_none, Option.getD_some, reduceCtorEq, false_imp_iff, implies_true,
            true_and, Option.some.injEq, forall_eq']
          exact ⟨fun h _ => h.symm, fun h => (h hnone).symm⟩
  | some i =>
      obtain ⟨hi, hpi, -⟩ := List.findIdx?_eq_some_iff_getElem.1 hp
      have hsome : ¬ ∀ a ∈ xs, p a = false := by
        intro hall
        simp [hall _ (List.getElem_mem hi)] at hpi
      simp only [hsome, false_imp_iff, and_true, Option.getD_some, Option.some.injEq, forall_eq']
      cases hq : xs.findIdx? q with
      | none =>
          have hnone := List.findIdx?_eq_none_iff.1 hq
          simp only [Option.getD_none, reduceCtorEq, false_or]
          exact ⟨fun h => ⟨h, hnone⟩, And.left⟩
      | some j =>
          obtain ⟨hj, hqj, -⟩ := List.findIdx?_eq_some_iff_getElem.1 hq
          have hsome' : ¬ ∀ a ∈ xs, q a = false := by
            intro hall
            simp [hall _ (List.getElem_mem hj)] at hqj
          simp only [hsome', and_false, or_false, Option.getD_some, Option.some.injEq]
          exact eq_comm

theorem findIdx?_congr_forall₂ {α β : Type} {R : α → β → Prop} {p : α → Bool} {q : β → Bool}
    (hpq : ∀ a b, R a b → p a = q b) {xs : List α} {ys : List β} (h : List.Forall₂ R xs ys) :
    xs.findIdx? p = ys.findIdx? q := by
  induction h with
  | nil => rfl
  | cons hab _ ih => rw [List.findIdx?_cons, List.findIdx?_cons, hpq _ _ hab, ih]

/-! ## From the blocks to the virtual hosts -/

/-- The server blocks of a listener: the kept blocks whose last `listen` line names its address. -/
def blocksOn (dirs : List Directive) (a : SocketAddr) : List (List Directive) :=
  (effectiveBlocks dirs).filter fun b => lastListen b = some a

/-- A virtual host is made of a server block. -/
def Serves (env : Externals) (host : Host) (http : HttpBlock) (b : List Directive)
    (v : VirtualHost) : Prop :=
  ∃ s x, buildServer env b = .ok s ∧ buildVhost host http s = .ok x ∧ v = x.vhost

/-- Related lists compose. -/
theorem forall₂_comp {α β γ : Type} {R : α → β → Prop} {S : β → γ → Prop} {T : α → γ → Prop}
    (hT : ∀ a b c, R a b → S b c → T a c) {xs : List α} {ys : List β} {zs : List γ}
    (hxy : List.Forall₂ R xs ys) (hyz : List.Forall₂ S ys zs) : List.Forall₂ T xs zs := by
  induction hxy generalizing zs with
  | nil =>
      cases hyz
      exact List.Forall₂.nil
  | cons hab _ ih =>
      cases hyz with
      | cons hbc hrest => exact List.Forall₂.cons (hT _ _ _ hab hbc) (ih hrest)

section Accepted

variable {env : Externals} {host : Host} {o : IterOrder (SocketAddr × ListenerCfg)}
  {dirs : List Directive} {cfg : MainConfig} {rt : Runtime}

/-- The virtual hosts of a listener are made of its server blocks, one by one and in order. -/
theorem vhosts_serve (hcfg : Config.build env dirs = .ok cfg) (hrt : build host o cfg = .ok rt)
    {l : ListenerCfg} (hl : l ∈ rt.listeners) :
    ∃ http, cfg.http = some http ∧
      List.Forall₂ (Serves env host http) (blocksOn dirs l.addr) l.vhosts := by
  obtain ⟨http, hhttp, hls⟩ := build_listeners hrt
  refine ⟨http, hhttp, ?_⟩
  obtain ⟨xs, grouped, hxs, hgrouped, hall⟩ := buildListeners_grouped hls
  obtain ⟨l₀, hl₀, hmat⟩ := forall₂_exists_left hall l hl
  rw [groupListeners_eq hgrouped] at hl₀
  obtain ⟨a, -, rfl⟩ := List.mem_map.1 hl₀
  obtain ⟨haddr, hvhosts, -⟩ := materializeOne_spec hmat rfl rfl
  -- from the blocks to the servers, to the staged blocks, to the virtual hosts
  have hblocks : List.Forall₂ (fun b s => buildServer env b = .ok s) (blocksOn dirs a)
      (http.servers.filter fun s => s.listen = some a) := by
    refine List.rel_filter (p := fun b => decide (lastListen b = some a)) ?_
      (build_servers hcfg hhttp)
    intro b s hbuild
    simp [(buildServer_listen hbuild).listen]
  have hstaged := forall₂_blocksAt (mapM_forall₂ hxs) a
  rw [hvhosts, haddr]
  simp only [groupedCfg, List.forall₂_map_right_iff]
  exact forall₂_comp (fun b s x hb hx => ⟨s, x, hb, hx, rfl⟩) hblocks hstaged

/-- The name a virtual host answers to is the one its block keeps. -/
theorem pickIndex_eq {http : HttpBlock} {blocks : List (List Directive)} {vhosts : List VirtualHost}
    (h : List.Forall₂ (Serves env host http) blocks vhosts) (hostHeader : String) :
    pickIndex vhosts (some hostHeader) = (blocks.findIdx? (keeps (hostKey hostHeader))).getD 0 := by
  have hsame : blocks.findIdx? (keeps (hostKey hostHeader)) =
      vhosts.findIdx? fun v => answersTo (hostKey hostHeader) v.serverName := by
    refine findIdx?_congr_forall₂ ?_ h
    rintro b v ⟨s, x, hs, hx, rfl⟩
    rw [keeps, (buildVhost_ok hx).serverName, buildServer_serverName hs]
  rw [pickIndex, hsame]

end Accepted

/-! ## Which selections are right -/

/-- The position of the first block that lists a host, else of the first block. -/
def listedIndex (blocks : List (List Directive)) (host : String) : Nat :=
  (blocks.findIdx? (lists host)).getD 0

/-- What is compared for an IPv6 literal: its first group behind the opening bracket. -/
def firstGroupKey (addr : String) : String :=
  Text.toAsciiLowercase ("[" ++ String.ofList (addr.toList.takeWhile (· != ':')))

/-- The kept names lead to the block that lists the host. For a name or an IPv4 literal: the first
block that lists it, if there is one, keeps it, or is the first of all while no block keeps it. For
an IPv6 literal, of which only the first group is compared: a block that keeps that group as its
name is the first to list the literal, or the first of all while no block lists it; and if there is
none, no block lists the literal unless the first of all does. -/
def KeepsListed (blocks : List (List Directive)) : HostValue → Prop
  | .name host _ _ =>
      ∀ i, blocks.findIdx? (lists host) = some i →
        (∃ b, blocks[i]? = some b ∧ keeps (Text.toAsciiLowercase host) b = true) ∨
          (i = 0 ∧ ∀ b ∈ blocks, keeps (Text.toAsciiLowercase host) b = false)
  | .ipv6 addr _ _ =>
      (∀ i, blocks.findIdx? (keeps (firstGroupKey addr)) = some i →
        blocks.findIdx? (lists ("[" ++ addr ++ "]")) = some i ∨
          (i = 0 ∧ ∀ b ∈ blocks, lists ("[" ++ addr ++ "]") b = false)) ∧
      ((∀ b ∈ blocks, keeps (firstGroupKey addr) b = false) →
        ∀ i, blocks.findIdx? (lists ("[" ++ addr ++ "]")) = some i → i = 0)

theorem hostKey_ipv6 (addr : String) (colon : ':' ∈ addr.toList) (port : Option String) :
    hostKey (HostValue.ipv6 addr colon port).text = firstGroupKey addr := by
  obtain ⟨tail, htext⟩ : ∃ tail,
      (HostValue.ipv6 addr colon port).text.toList = '[' :: (addr.toList ++ tail) := by
    cases port with
    | none => exact ⟨[']'], by simp [HostValue.text, HostValue.host, HostValue.port]⟩
    | some p =>
        exact ⟨']' :: ':' :: p.toList, by simp [HostValue.text, HostValue.host, HostValue.port]⟩
  -- the first colon is inside the literal, before the bracket and the port
  have hstop : (addr.toList ++ tail).takeWhile (· != ':') = addr.toList.takeWhile (· != ':') := by
    rw [List.takeWhile_append, if_neg]
    intro hlen
    have hself := (List.takeWhile_prefix (· != ':')).eq_of_length hlen
    have hall := List.takeWhile_eq_self_iff.1 hself ':' colon
    simp at hall
  rw [hostKey, headD_split, htext, List.takeWhile_cons_of_pos (by decide), hstop, firstGroupKey]
  congr 1
  rw [← String.toList_inj]
  simp

/-- **Virtual host selection.** On every listener of an accepted configuration the virtual hosts are
the server blocks in order, and `pick_state` answers with the first block that lists the host, or
with the first block when none does, exactly when the kept names lead there. -/
theorem pickState_listed_iff (env : Externals) (host : Host)
    (o : IterOrder (SocketAddr × ListenerCfg)) (dirs : List Directive) (cfg : MainConfig)
    (rt : Runtime) (hcfg : Config.build env dirs = .ok cfg) (hrt : build host o cfg = .ok rt)
    (l : ListenerCfg) (hl : l ∈ rt.listeners) :
    (∃ http, cfg.http = some http ∧
      List.Forall₂ (Serves env host http) (blocksOn dirs l.addr) l.vhosts) ∧
    ∀ v : HostValue,
      pickIndex l.vhosts (some v.text) = listedIndex (blocksOn dirs l.addr) v.host ↔
        KeepsListed (blocksOn dirs l.addr) v := by
  obtain ⟨http, hhttp, hserve⟩ := vhosts_serve hcfg hrt hl
  refine ⟨⟨http, hhttp, hserve⟩, fun v => ?_⟩
  rw [pickIndex_eq hserve, listedIndex]
  cases v with
  | name name noColon port =>
      rw [hostKey_name (.name name noColon port) noColon]
      exact findIdx?_getD_eq_iff (fun b => lists_of_keeps) _
  | ipv6 addr colon port =>
      rw [hostKey_ipv6]
      exact findIdx?_getD_eq_iff_cases _ _ _

/-- A configuration with a server block on port 80 for each list of names. -/
def namedServers (names : List (List String)) : List Directive :=
  [⟨"http", [], some
    (names.map fun ns =>
      ⟨"server", [], some
        [lineOf "listen" ["80"], lineOf "server_name" ns,
          ⟨"location", ["/"], some [lineOf "return" ["200"]], 1⟩], 1⟩), 1⟩]

/-- The address of each listener of a configuration, and the position it picks for a host. -/
def picked (dirs : List Directive) (h : String) : Option (List (SocketAddr × Nat)) :=
  match Config.build noExternals dirs with
  | .error _ => none
  | .ok cfg =>
      match build loadingHost IterOrder.stored cfg with
      | .error _ => none
      | .ok rt => some (rt.listeners.map fun l => (l.addr, pickIndex l.vhosts (some h)))

theorem exists_of_picked {dirs : List Directive} {h : String} {a : SocketAddr} {i : Nat}
    (hp : picked dirs h = some [(a, i)]) :
    ∃ cfg, Config.build noExternals dirs = .ok cfg ∧
      ∃ rt, build loadingHost IterOrder.stored cfg = .ok rt ∧
        ∃ l ∈ rt.listeners, l.addr = a ∧ pickIndex l.vhosts (some h) = i := by
  rw [picked] at hp
  split at hp
  · simp at hp
  · next cfg hcfg =>
    split at hp
    · simp at hp
    · next rt hrt =>
      obtain ⟨l, hl, heq⟩ := List.map_eq_singleton_iff.1 (Option.some.inj hp)
      refine ⟨cfg, hcfg, rt, hrt, l, by simp [hl], ?_⟩
      simpa using heq

/-- The address `0.0.0.0:80`. -/
def httpAddr : SocketAddr := ⟨.v4 ⟨0, 0, 0, 0⟩, 80, 0⟩

/-- A second name of a block is lost: `c.test` is answered by the first block. -/
theorem second_name_is_lost :
    ∃ cfg, Config.build noExternals (namedServers [["a.test"], ["b.test", "c.test"]]) = .ok cfg ∧
      ∃ rt, build loadingHost IterOrder.stored cfg = .ok rt ∧
        ∃ l ∈ rt.listeners,
          pickIndex l.vhosts (some (HostValue.name "c.test" (by decide) none).text) ≠
            listedIndex (blocksOn (namedServers [["a.test"], ["b.test", "c.test"]]) l.addr)
              "c.test" := by
  have hp : picked (namedServers [["a.test"], ["b.test", "c.test"]]) "c.test" =
      some [(httpAddr, 0)] := by
    decide +kernel
  obtain ⟨cfg, hcfg, rt, hrt, l, hl, haddr, hpick⟩ := exists_of_picked hp
  refine ⟨cfg, hcfg, rt, hrt, l, hl, ?_⟩
  have htext : (HostValue.name "c.test" (by decide) none).text = "c.test" := rfl
  rw [htext, hpick, haddr]
  decide +kernel

/-- Blocks with one name each: the second one answers for its name, in any case and with a port. -/
theorem single_name_is_picked :
    ∃ cfg, Config.build noExternals (namedServers [["a.test"], ["b.test"]]) = .ok cfg ∧
      ∃ rt, build loadingHost IterOrder.stored cfg = .ok rt ∧
        ∃ l ∈ rt.listeners,
          pickIndex l.vhosts (some (HostValue.name "B.test" (by decide) (some "80")).text) =
            listedIndex (blocksOn (namedServers [["a.test"], ["b.test"]]) l.addr) "B.test" := by
  have hp : picked (namedServers [["a.test"], ["b.test"]]) "B.test:80" = some [(httpAddr, 1)] := by
    decide +kernel
  obtain ⟨cfg, hcfg, rt, hrt, l, hl, haddr, -⟩ := exists_of_picked hp
  refine ⟨cfg, hcfg, rt, hrt, l, hl, ?_⟩
  refine ((pickState_listed_iff noExternals loadingHost IterOrder.stored _ cfg rt hcfg hrt l hl).2
    (HostValue.name "B.test" (by decide) (some "80"))).2 ?_
  have hfirst : (blocksOn (namedServers [["a.test"], ["b.test"]]) httpAddr).findIdx?
      (lists "B.test") = some 1 := by
    decide +kernel
  rw [haddr]
  intro i hi
  obtain rfl := Option.some.inj (hfirst.symm.trans hi)
  exact Or.inl ⟨_, rfl, by decide +kernel⟩

end Elrond.App
