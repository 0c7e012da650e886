import Elrond.App.Listeners
import Elrond.Config.Listen

/-!
# Listen lines and listeners

Whether the listeners of a runtime are the ones its `listen` lines ask for. The lowering keeps, of
each server block, the address of its last line and the flags of all its lines, and of several
`http` blocks the last. So the listeners are the ones asked for (`ListenFaithful`) exactly when
nothing is lost or mixed up that way (`ListenConsistent`): every address is the last one of some
kept block, and the flags that reach an address are the flags of lines that name it.
-/

set_option autoImplicit false

namespace Elrond.App

open Elrond.Lib Elrond.Http Elrond.Request Elrond.Config

/-- The listeners are those the `listen` lines ask for: there is one for every address some line
names and for no other, and it speaks TLS (HTTP/3) exactly if a line naming its address asks for
it. -/
structure ListenFaithful (dirs : List Directive) (rt : Runtime) : Prop where
  addrs : ∀ a, (∃ l ∈ rt.listeners, l.addr = a) ↔ ∃ d ∈ listenDirectives dirs, lineAddr d = some a
  tls : ∀ l ∈ rt.listeners, l.tls.isSome = true ↔
    ∃ d ∈ listenDirectives dirs, lineAddr d = some l.addr ∧ listenTls d = true
  http3 : ∀ l ∈ rt.listeners, l.h3Tls.isSome = true ↔
    ∃ d ∈ listenDirectives dirs, lineAddr d = some l.addr ∧ listenHttp3 d = true

/-- A kept server block puts a flag on an address: the address is that of its last `listen` line,
the flag that of any of its lines. -/
def Puts (flag : Directive → Bool) (dirs : List Directive) (a : SocketAddr) : Prop :=
  ∃ b ∈ effectiveBlocks dirs, lastListen b = some a ∧ ∃ d ∈ listenLines b, flag d = true

/-- A line asks for a flag on the address it names. -/
def Asks (flag : Directive → Bool) (dirs : List Directive) (a : SocketAddr) : Prop :=
  ∃ d ∈ listenDirectives dirs, lineAddr d = some a ∧ flag d = true

/-- No `listen` line is lost and no flag changes its address. -/
structure ListenConsistent (dirs : List Directive) : Prop where
  kept : ∀ d ∈ listenDirectives dirs, ∀ a, lineAddr d = some a →
    ∃ b ∈ effectiveBlocks dirs, lastListen b = some a
  tls : ∀ a, Puts listenTls dirs a ↔ Asks listenTls dirs a
  http3 : ∀ a, Puts listenHttp3 dirs a ↔ Asks listenHttp3 dirs a

/-! ## Kept blocks and listeners -/

theorem mem_listenDirectives {dirs : List Directive} {d : Directive} :
    d ∈ listenDirectives dirs ↔
      ∃ h ∈ blocksNamed "http" dirs, ∃ b ∈ blocksNamed "server" h, d ∈ listenLines b := by
  simp only [listenDirectives, List.mem_flatMap]
  constructor
  · rintro ⟨b, ⟨h, hh, hb⟩, hd⟩
    exact ⟨h, hh, b, hb, hd⟩
  · rintro ⟨h, hh, b, hb, hd⟩
    exact ⟨b, ⟨h, hh, hb⟩, hd⟩

/-- The lines of kept blocks are lines of the configuration. -/
theorem mem_listenDirectives_of_effective {dirs : List Directive} {b : List Directive}
    {d : Directive} (hb : b ∈ effectiveBlocks dirs) (hd : d ∈ listenLines b) :
    d ∈ listenDirectives dirs := by
  rw [effectiveBlocks] at hb
  split at hb
  · rename_i h hlast
    exact mem_listenDirectives.2 ⟨h, List.mem_of_getLast? hlast, b, hb, hd⟩
  · exact absurd hb List.not_mem_nil

/-- The last address of a kept block is named by a line. -/
theorem exists_line_of_lastListen {dirs : List Directive} {b : List Directive} {a : SocketAddr}
    (hb : b ∈ effectiveBlocks dirs) (ha : lastListen b = some a) :
    ∃ d ∈ listenDirectives dirs, lineAddr d = some a := by
  obtain ⟨d, hd, hda⟩ := Option.bind_eq_some_iff.1 ha
  exact ⟨d, mem_listenDirectives_of_effective hb (List.mem_of_getLast? hd), hda⟩

section Accepted

variable {env : Externals} {host : Host} {o : IterOrder (SocketAddr × ListenerCfg)}
  {dirs : List Directive} {cfg : MainConfig} {rt : Runtime}

/-- The addresses listened on are the last addresses of the kept blocks. -/
theorem exists_listener_iff (hcfg : Config.build env dirs = .ok cfg)
    (hrt : build host o cfg = .ok rt) (a : SocketAddr) :
    (∃ l ∈ rt.listeners, l.addr = a) ↔ ∃ b ∈ effectiveBlocks dirs, lastListen b = some a := by
  obtain ⟨http, hhttp, hls⟩ := build_listeners hrt
  have hservers := build_servers hcfg hhttp
  rw [(buildListeners_spec hls).addrs a]
  constructor
  · rintro ⟨s, hs, ha⟩
    obtain ⟨b, hb, hbuild⟩ := forall₂_exists_left hservers s hs
    exact ⟨b, hb, (buildServer_listen hbuild).listen ▸ ha⟩
  · rintro ⟨b, hb, ha⟩
    obtain ⟨s, hs, hbuild⟩ := forall₂_exists_right hservers b hb
    exact ⟨s, hs, (buildServer_listen hbuild).listen.trans ha⟩

/-- A listener speaks TLS exactly if a kept block puts it on its address. -/
theorem listener_tls_iff (hcfg : Config.build env dirs = .ok cfg)
    (hrt : build host o cfg = .ok rt) {l : ListenerCfg} (hl : l ∈ rt.listeners) :
    l.tls.isSome = true ↔ Puts listenTls dirs l.addr := by
  obtain ⟨http, hhttp, hls⟩ := build_listeners hrt
  have hservers := build_servers hcfg hhttp
  rw [(buildListeners_spec hls).tls l hl]
  constructor
  · rintro ⟨s, hs, ha, htls⟩
    obtain ⟨b, hb, hbuild⟩ := forall₂_exists_left hservers s hs
    have hread := buildServer_listen hbuild
    rw [hread.tls] at htls
    exact ⟨b, hb, hread.listen ▸ ha, List.any_eq_true.1 htls⟩
  · rintro ⟨b, hb, ha, hflag⟩
    obtain ⟨s, hs, hbuild⟩ := forall₂_exists_right hservers b hb
    have hread := buildServer_listen hbuild
    exact ⟨s, hs, hread.listen.trans ha, hread.tls.trans (List.any_eq_true.2 hflag)⟩

/-- A listener speaks HTTP/3 exactly if a kept block puts it on its address. -/
theorem listener_http3_iff (hcfg : Config.build env dirs = .ok cfg)
    (hrt : build host o cfg = .ok rt) {l : ListenerCfg} (hl : l ∈ rt.listeners) :
    l.h3Tls.isSome = true ↔ Puts listenHttp3 dirs l.addr := by
  have htls := listener_tls_iff hcfg hrt hl
  obtain ⟨http, hhttp, hls⟩ := build_listeners hrt
  have hservers := build_servers hcfg hhttp
  rw [(buildListeners_spec hls).h3 l hl, Bool.and_eq_true, htls]
  simp only [wantsH3, List.any_eq_true, Bool.and_eq_true, beq_iff_eq]
  constructor
  · rintro ⟨-, s, hs, hflag, ha⟩
    obtain ⟨b, hb, hbuild⟩ := forall₂_exists_left hservers s hs
    have hread := buildServer_listen hbuild
    rw [hread.http3] at hflag
    exact ⟨b, hb, hread.listen ▸ ha, List.any_eq_true.1 hflag⟩
  · rintro ⟨b, hb, ha, d, hd, hflag⟩
    obtain ⟨s, hs, hbuild⟩ := forall₂_exists_right hservers b hb
    have hread := buildServer_listen hbuild
    -- HTTP/3 on an address implies TLS on it.
    refine ⟨⟨b, hb, ha, d, hd, listenTls_of_listenHttp3 hflag⟩, s, hs, ?_, hread.listen.trans ha⟩
    exact hread.http3.trans (List.any_eq_true.2 ⟨d, hd, hflag⟩)

/-- When the listeners are those asked for, a flag reaches an address exactly if it is asked for
there. -/
theorem puts_iff_asks {flag : Directive → Bool} {speaks : ListenerCfg → Bool}
    (hcfg : Config.build env dirs = .ok cfg) (hrt : build host o cfg = .ok rt)
    (haddrs : ∀ a, (∃ l ∈ rt.listeners, l.addr = a) ↔
      ∃ d ∈ listenDirectives dirs, lineAddr d = some a)
    (hputs : ∀ l ∈ rt.listeners, speaks l = true ↔ Puts flag dirs l.addr)
    (hasks : ∀ l ∈ rt.listeners, speaks l = true ↔ Asks flag dirs l.addr) (a : SocketAddr) :
    Puts flag dirs a ↔ Asks flag dirs a := by
  -- Both sides name an address somebody listens on, and its listener relates the two.
  constructor
  · rintro ⟨b, hb, ha, hflag⟩
    obtain ⟨l, hl, rfl⟩ := (exists_listener_iff hcfg hrt a).2 ⟨b, hb, ha⟩
    exact (hasks l hl).1 ((hputs l hl).2 ⟨b, hb, ha, hflag⟩)
  · rintro ⟨d, hd, ha, hflag⟩
    obtain ⟨l, hl, rfl⟩ := (haddrs a).2 ⟨d, hd, ha⟩
    exact (hputs l hl).1 ((hasks l hl).2 ⟨d, hd, ha, hflag⟩)

end Accepted

/-- **Listen fidelity.** The listeners of an accepted configuration are those its `listen` lines ask
for exactly when no line is lost and no flag changes its address. -/
theorem listen_faithful_iff (env : Externals) (host : Host)
    (o : IterOrder (SocketAddr × ListenerCfg)) (dirs : List Directive) (cfg : MainConfig)
    (rt : Runtime) (hcfg : Config.build env dirs = .ok cfg) (hrt : build host o cfg = .ok rt) :
    ListenFaithful dirs rt ↔ ListenConsistent dirs := by
  constructor
  · intro h
    refine ⟨?_, ?_, ?_⟩
    · intro d hd a ha
      exact (exists_listener_iff hcfg hrt a).1 ((h.addrs a).2 ⟨d, hd, ha⟩)
    · exact puts_iff_asks hcfg hrt h.addrs (fun l hl => listener_tls_iff hcfg hrt hl) h.tls
    · exact puts_iff_asks hcfg hrt h.addrs (fun l hl => listener_http3_iff hcfg hrt hl) h.http3
  · intro h
    refine ⟨?_, ?_, ?_⟩
    · intro a
      rw [exists_listener_iff hcfg hrt a]
      constructor
      · rintro ⟨b, hb, ha⟩
        exact exists_line_of_lastListen hb ha
      · rintro ⟨d, hd, ha⟩
        exact h.kept d hd a ha
    · intro l hl
      rw [listener_tls_iff hcfg hrt hl]
      exact h.tls l.addr
    · intro l hl
      rw [listener_http3_iff hcfg hrt hl]
      exact h.http3 l.addr

/-- One `http` block whose server blocks each name a single address is consistent, whatever the
flags and the number of lines. -/
theorem listenConsistent_of_single {dirs : List Directive}
    (hhttp : (blocksNamed "http" dirs).length ≤ 1)
    (hsingle : ∀ b ∈ effectiveBlocks dirs, ∀ d ∈ listenLines b, lineAddr d = lastListen b) :
    ListenConsistent dirs := by
  -- With one `http` block, every line is in a kept block.
  have hline : ∀ d ∈ listenDirectives dirs, ∃ b ∈ effectiveBlocks dirs, d ∈ listenLines b := by
    intro d hd
    obtain ⟨h, hh, b, hb, hdb⟩ := mem_listenDirectives.1 hd
    refine ⟨b, ?_, hdb⟩
    have hone : blocksNamed "http" dirs = [h] := by
      have hpos := List.length_pos_of_mem hh
      obtain ⟨h', hh'⟩ := List.length_eq_one_iff.1 (by omega : (blocksNamed "http" dirs).length = 1)
      rw [hh'] at hh ⊢
      rw [List.mem_singleton.1 hh]
    rw [effectiveBlocks, hone]
    exact hb
  have hflag : ∀ flag a, Puts flag dirs a ↔ Asks flag dirs a := by
    intro flag a
    constructor
    · rintro ⟨b, hb, ha, d, hd, hf⟩
      exact ⟨d, mem_listenDirectives_of_effective hb hd, (hsingle b hb d hd).trans ha, hf⟩
    · rintro ⟨d, hd, ha, hf⟩
      obtain ⟨b, hb, hdb⟩ := hline d hd
      exact ⟨b, hb, (hsingle b hb d hdb).symm.trans ha, d, hdb, hf⟩
  refine ⟨?_, hflag listenTls, hflag listenHttp3⟩
  intro d hd a ha
  obtain ⟨b, hb, hdb⟩ := hline d hd
  exact ⟨b, hb, (hsingle b hb d hdb).symm.trans ha⟩

/-! ## Two configurations -/

/-- A directive without a block. -/
def lineOf (name : String) (args : List String) : Directive := ⟨name, args, none, 1⟩

/-- A configuration with one server block that has the given `listen` lines, a certificate and a
location. -/
def oneServer (lines : List (List String)) : List Directive :=
  [⟨"http", [], some
    [⟨"server", [], some
      (lines.map (lineOf "listen") ++
        [lineOf "ssl_certificate" ["cert.pem"], lineOf "ssl_certificate_key" ["key.pem"],
          ⟨"location", ["/"], some [lineOf "return" ["200"]], 1⟩]), 1⟩], 1⟩]

/-- Nothing outside is needed for these configurations. -/
def noExternals : Externals := ⟨fun _ => none, id, fun _ => ""⟩

/-- A server with `listen 80` and `listen 443 ssl` does not listen on port 80. -/
theorem two_listen_lines_lose_one :
    ∃ cfg, Config.build noExternals (oneServer [["80"], ["443", "ssl"]]) = .ok cfg ∧
      ∃ rt, build loadingHost IterOrder.stored cfg = .ok rt ∧
        ¬ ListenFaithful (oneServer [["80"], ["443", "ssl"]]) rt := by
  refine ⟨_, rfl, _, rfl, ?_⟩
  intro h
  have hport : ∃ d ∈ listenDirectives (oneServer [["80"], ["443", "ssl"]]),
      lineAddr d = some ⟨.v4 ⟨0, 0, 0, 0⟩, 80, 0⟩ := by decide
  obtain ⟨l, hl, ha⟩ := (h.addrs _).2 hport
  obtain rfl := List.mem_singleton.1 hl
  exact absurd ha (by decide)

/-- A server with one `listen` line gets the listener it asks for. -/
theorem listen_faithful_one_line :
    ∃ cfg, Config.build noExternals (oneServer [["443", "ssl", "http3"]]) = .ok cfg ∧
      ∃ rt, build loadingHost IterOrder.stored cfg = .ok rt ∧
        ListenFaithful (oneServer [["443", "ssl", "http3"]]) rt := by
  refine ⟨_, rfl, _, rfl, ?_⟩
  apply (listen_faithful_iff noExternals loadingHost IterOrder.stored _ _ _ rfl rfl).2
  exact listenConsistent_of_single (by decide) (by decide)

end Elrond.App
