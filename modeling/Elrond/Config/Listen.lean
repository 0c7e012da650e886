import Elrond.Config.Build
import Elrond.Lib.Fallible

/-!
# Listen lines through the lowering

What the lowering keeps of the `listen` lines of a configuration. A server block ends up with the
address of its last line and with the flags of all its lines (`buildServer_listen`); the `http`
block keeps its server blocks in order (`buildHttp_servers`); of several `http` blocks the last one
is kept (`build_http`).
-/

set_option autoImplicit false

namespace Elrond.Config

open Elrond.Lib Elrond.Http Elrond.Request

/-! ## The directive tree -/

/-- The blocks of the directives with a name. -/
def blocksNamed (name : String) (dirs : List Directive) : List (List Directive) :=
  (dirs.filter fun d => d.name = name).map fun d => d.block.getD []

/-- The `listen` lines of a server block. -/
def listenLines (block : List Directive) : List Directive :=
  block.filter fun d => d.name = "listen"

/-- The address a `listen` line names. -/
def lineAddr (d : Directive) : Option SocketAddr :=
  match listenAddr d with
  | .ok a => some a
  | .error _ => none

/-- The address of the last `listen` line of a server block. -/
def lastListen (block : List Directive) : Option SocketAddr :=
  (listenLines block).getLast?.bind lineAddr

/-- All `listen` lines of all server blocks of all `http` blocks. -/
def listenDirectives (dirs : List Directive) : List Directive :=
  ((blocksNamed "http" dirs).flatMap (blocksNamed "server")).flatMap listenLines

/-- The server blocks of the last `http` block. -/
def effectiveBlocks (dirs : List Directive) : List (List Directive) :=
  match (blocksNamed "http" dirs).getLast? with
  | some h => blocksNamed "server" h
  | none => []

theorem blocksNamed_concat_of_eq {name : String} {dirs : List Directive} {d : Directive}
    (h : d.name = name) :
    blocksNamed name (dirs ++ [d]) = blocksNamed name dirs ++ [d.block.getD []] := by
  simp [blocksNamed, List.filter_append, h]

theorem blocksNamed_concat_of_ne {name : String} {dirs : List Directive} {d : Directive}
    (h : d.name ≠ name) : blocksNamed name (dirs ++ [d]) = blocksNamed name dirs := by
  simp [blocksNamed, List.filter_append, h]

theorem expectBlock_eq_ok {d : Directive} {b : List Directive} (h : expectBlock d = .ok b) :
    d.block.getD [] = b := by
  rw [expectBlock] at h
  split at h
  · rename_i hb
    rw [hb]
    exact Except.ok.inj h
  · exact absurd h (by simp)

theorem orError_eq_ok {α : Type} {v : Option α} {message : String} {a : α} :
    orError v message = .ok a ↔ v = some a := by
  cases v with
  | none => simp [orError]
  | some b => simp [orError]

theorem arg1_eq_ok {d : Directive} {a : String} : arg1 d = .ok a ↔ d.args.head? = some a := by
  rw [arg1]
  cases d.args with
  | nil => simp
  | cons b rest => simp

/-- An HTTP/3 line is a TLS line. -/
theorem listenTls_of_listenHttp3 {d : Directive} (h : listenHttp3 d = true) :
    listenTls d = true := by
  simp only [listenHttp3, listenTls, List.any_eq_true] at h ⊢
  obtain ⟨x, hx, hflag⟩ := h
  exact ⟨x, hx, by rw [hflag, Bool.or_true]⟩

/-! ## Server blocks -/

/-- A server with the listen settings of another one. -/
def KeepsListen (s s' : Server) : Prop :=
  s'.listen = s.listen ∧ s'.tls = s.tls ∧ s'.http3 = s.http3

/-- Only `listen` lines change the listen settings. -/
theorem serverStep_keepsListen {env : Externals} {s s' : Server} {d : Directive}
    (hname : d.name ≠ "listen") (h : serverStep env s d = .ok s') : KeepsListen s s' := by
  -- One case per directive of the match, in the order of the source; most bind one argument.
  rw [serverStep] at h
  split at h
  case h_1 heq => exact absurd heq hname
  case h_2 =>
      obtain rfl := Except.ok.inj h
      exact ⟨rfl, rfl, rfl⟩
  case h_8 =>
      obtain rfl := Except.ok.inj h
      exact ⟨rfl, rfl, rfl⟩
  case h_6 | h_10 =>
      obtain ⟨v, -, h⟩ := bind_eq_ok.1 h
      obtain ⟨n, -, h⟩ := bind_eq_ok.1 h
      obtain rfl := Except.ok.inj h
      exact ⟨rfl, rfl, rfl⟩
  case h_11 =>
      obtain ⟨p, -, h⟩ := bind_eq_ok.1 h
      obtain ⟨b, -, h⟩ := bind_eq_ok.1 h
      obtain ⟨l, -, h⟩ := bind_eq_ok.1 h
      obtain rfl := Except.ok.inj h
      exact ⟨rfl, rfl, rfl⟩
  case h_12 => exact absurd h (by simp)
  case h_13 =>
      split at h
      · obtain rfl := Except.ok.inj h
        exact ⟨rfl, rfl, rfl⟩
      · exact absurd h (by simp)
  all_goals
    obtain ⟨v, -, h⟩ := bind_eq_ok.1 h
    obtain rfl := Except.ok.inj h
    exact ⟨rfl, rfl, rfl⟩

/-- The listen settings of a server after reading directives: the address of the last `listen`
line, and the flags of all of them. -/
structure ListenRead (read : List Directive) (s : Server) : Prop where
  listen : s.listen = lastListen read
  tls : s.tls = (listenLines read).any listenTls
  http3 : s.http3 = (listenLines read).any listenHttp3

theorem serverStep_listenRead {env : Externals} {read : List Directive} {d : Directive}
    {s s' : Server} (hread : ListenRead read s) (h : serverStep env s d = .ok s') :
    ListenRead (read ++ [d]) s' := by
  by_cases hname : d.name = "listen"
  -- The line replaces the address but only adds to the flags.
  · have hlines : listenLines (read ++ [d]) = listenLines read ++ [d] := by
      simp [listenLines, List.filter_append, hname]
    have hstep : listenStep s d = .ok s' := by
      rw [serverStep, hname] at h
      exact h
    obtain ⟨a, ha, hstep⟩ := bind_eq_ok.1 hstep
    obtain rfl := Except.ok.inj hstep
    refine ⟨?_, ?_, ?_⟩
    · simp [lastListen, hlines, lineAddr, ha]
    · simp [hlines, hread.tls]
    · simp [hlines, hread.http3]
  · have hlines : listenLines (read ++ [d]) = listenLines read := by
      simp [listenLines, List.filter_append, hname]
    obtain ⟨hl, ht, hh⟩ := serverStep_keepsListen hname h
    refine ⟨?_, ?_, ?_⟩
    · rw [hl, hread.listen, lastListen, lastListen, hlines]
    · rw [ht, hread.tls, hlines]
    · rw [hh, hread.http3, hlines]

theorem checkServer_eq {s s' : Server} (h : checkServer s = .ok s') : s' = s := by
  rw [checkServer] at h
  split at h
  · exact absurd h (by simp)
  · split at h
    · exact absurd h (by simp)
    · exact (Except.ok.inj h).symm

/-- A server block ends up with the address of its last `listen` line and the flags of all. -/
theorem buildServer_listen {env : Externals} {block : List Directive} {s : Server}
    (h : buildServer env block = .ok s) : ListenRead block s := by
  rw [buildServer] at h
  obtain ⟨root, -, h⟩ := bind_eq_ok.1 h
  obtain ⟨s', hfold, h⟩ := bind_eq_ok.1 h
  rw [checkServer_eq h]
  -- The root pass and the final checks leave the listen settings alone.
  refine foldlM_induction (motive := ListenRead) ⟨rfl, rfl, rfl⟩ ?_ hfold
  intro read d s s' hread hstep
  exact serverStep_listenRead hread hstep

/-! ## The `http` block -/

/-- The `http` block collects its servers and its upstreams; no other directive changes them. -/
theorem httpStep_collects {env : Externals} {http http' : HttpBlock} {d : Directive}
    (h : httpStep env http d = .ok http') :
    (if d.name = "server" then
      ∃ s, buildServer env (d.block.getD []) = .ok s ∧ http'.servers = http.servers ++ [s]
    else http'.servers = http.servers) ∧
    if d.name = "upstream" then
      ∃ up, upstreamBlock d = .ok up ∧ http'.upstreams = http.upstreams ++ [up]
    else http'.upstreams = http.upstreams := by
  rw [httpStep] at h
  split at h
  case h_2 hname =>
      obtain ⟨up, hup, h⟩ := bind_eq_ok.1 h
      obtain rfl := Except.ok.inj h
      rw [if_neg (by simp [hname]), if_pos hname]
      exact ⟨rfl, up, hup, rfl⟩
  case h_3 hname =>
      obtain ⟨b, hb, h⟩ := bind_eq_ok.1 h
      obtain ⟨s, hs, h⟩ := bind_eq_ok.1 h
      obtain rfl := Except.ok.inj h
      rw [if_pos hname, if_neg (by simp [hname]), expectBlock_eq_ok hb]
      exact ⟨⟨s, hs, rfl⟩, rfl⟩
  case h_7 hname =>
      obtain ⟨b, -, h⟩ := bind_eq_ok.1 h
      obtain ⟨decl, -, h⟩ := bind_eq_ok.1 h
      obtain rfl := Except.ok.inj h
      rw [if_neg (by simp [hname]), if_neg (by simp [hname])]
      exact ⟨rfl, rfl⟩
  case h_8 hup hserver _ _ _ _ =>
      rw [if_neg hserver, if_neg hup]
      split at h
      · obtain rfl := Except.ok.inj h
        exact ⟨rfl, rfl⟩
      · cases h
  all_goals
    rename_i hname
    obtain ⟨v, -, h⟩ := bind_eq_ok.1 h
    obtain rfl := Except.ok.inj h
    rw [if_neg (by simp [hname]), if_neg (by simp [hname])]
    exact ⟨rfl, rfl⟩

/-- The servers read so far come from the server blocks read so far, in order. -/
def ServersRead (env : Externals) (read : List Directive) (http : HttpBlock) : Prop :=
  List.Forall₂ (fun b s => buildServer env b = .ok s) (blocksNamed "server" read) http.servers

/-- The `http` block keeps all its server blocks in order. -/
theorem buildHttp_servers {env : Externals} {dirs : List Directive} {http : HttpBlock}
    (h : buildHttp env dirs = .ok http) : ServersRead env dirs http := by
  rw [ServersRead, blocksNamed, List.forall₂_map_left_iff]
  refine foldlM_collects HttpBlock.servers rfl ?_ h
  intro http d http' hstep
  simpa using (httpStep_collects hstep).1

/-! ## The main context -/

/-- An `http` or `stream` directive replaces the block of its name; no other directive changes
them. -/
theorem mainStep_replaces {env : Externals} {cfg cfg' : MainConfig} {d : Directive}
    (h : mainStep env cfg d = .ok cfg') :
    (if d.name = "http" then
      ∃ http, buildHttp env (d.block.getD []) = .ok http ∧ cfg'.http = some http
    else cfg'.http = cfg.http) ∧
    if d.name = "stream" then
      ∃ st, buildStream (d.block.getD []) = .ok st ∧ cfg'.stream = some st
    else cfg'.stream = cfg.stream := by
  rw [mainStep] at h
  split at h
  case h_4 hname =>
      obtain ⟨b, hb, h⟩ := bind_eq_ok.1 h
      obtain ⟨http, hhttp, h⟩ := bind_eq_ok.1 h
      obtain rfl := Except.ok.inj h
      rw [if_pos hname, if_neg (by simp [hname]), expectBlock_eq_ok hb]
      exact ⟨⟨http, hhttp, rfl⟩, rfl⟩
  case h_5 hname =>
      obtain ⟨b, hb, h⟩ := bind_eq_ok.1 h
      obtain ⟨st, hst, h⟩ := bind_eq_ok.1 h
      obtain rfl := Except.ok.inj h
      rw [if_neg (by simp [hname]), if_pos hname, expectBlock_eq_ok hb]
      exact ⟨rfl, st, hst, rfl⟩
  case h_6 hname =>
      rw [if_neg (by simp [hname]), if_neg (by simp [hname])]
      split at h
      · cases h
      · obtain rfl := Except.ok.inj h
        exact ⟨rfl, rfl⟩
  case h_7 hname =>
      obtain ⟨v, -, h⟩ := bind_eq_ok.1 h
      obtain ⟨n, -, h⟩ := bind_eq_ok.1 h
      obtain rfl := Except.ok.inj h
      rw [if_neg (by simp [hname]), if_neg (by simp [hname])]
      exact ⟨rfl, rfl⟩
  case h_8 hhttp hstream _ _ =>
      rw [if_neg hhttp, if_neg hstream]
      split at h
      · obtain rfl := Except.ok.inj h
        exact ⟨rfl, rfl⟩
      · cases h
  all_goals
    rename_i hname
    obtain ⟨v, -, h⟩ := bind_eq_ok.1 h
    obtain rfl := Except.ok.inj h
    rw [if_neg (by simp [hname]), if_neg (by simp [hname])]
    exact ⟨rfl, rfl⟩

/-- The `http` block read so far is that of the last `http` directive read. -/
def HttpRead (env : Externals) (read : List Directive) (cfg : MainConfig) : Prop :=
  ∀ http, cfg.http = some http →
    ∃ h, (blocksNamed "http" read).getLast? = some h ∧ buildHttp env h = .ok http

/-- Of several `http` blocks the last one is kept. -/
theorem build_http {env : Externals} {dirs : List Directive} {cfg : MainConfig}
    (h : build env dirs = .ok cfg) : HttpRead env dirs cfg := by
  refine foldlM_induction (motive := HttpRead env) ?_ ?_ h
  · intro http hhttp
    exact absurd hhttp (by simp)
  · intro read d cfg cfg' hread hstep http hhttp
    have hreplaced := (mainStep_replaces hstep).1
    by_cases hname : d.name = "http"
    -- The new block replaces the one read before.
    · rw [if_pos hname] at hreplaced
      obtain ⟨http', hbuild, hcfg⟩ := hreplaced
      obtain rfl := Option.some.inj (hcfg.symm.trans hhttp)
      refine ⟨_, ?_, hbuild⟩
      rw [blocksNamed_concat_of_eq hname, List.getLast?_concat]
    · rw [if_neg hname] at hreplaced
      rw [hreplaced] at hhttp
      rw [blocksNamed_concat_of_ne hname]
      exact hread http hhttp

/-- The servers of an accepted configuration are the server blocks of its last `http` block. -/
theorem build_servers {env : Externals} {dirs : List Directive} {cfg : MainConfig}
    {http : HttpBlock} (h : build env dirs = .ok cfg) (hhttp : cfg.http = some http) :
    List.Forall₂ (fun b s => buildServer env b = .ok s) (effectiveBlocks dirs) http.servers := by
  obtain ⟨block, hlast, hbuild⟩ := build_http h http hhttp
  rw [effectiveBlocks, hlast]
  exact buildHttp_servers hbuild

end Elrond.Config
