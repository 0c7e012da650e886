import Elrond.Server.Handle

/-!
# Both pipelines pass the same gates

`handle` and `dispatch` are written separately. Run with the same limit zones, the same clock, the
same answers from outside and the same request, they come to the same verdict and leave the same
zones behind (`gates_agree`).

What a gate answers is `gateReply`, read off the state before the request: the limits of a location
do not influence each other, so the first gate that denies on its own is the one that denies in the
pipeline. A slot is given back on every way out, so that the counts of connections are the same
afterwards.
-/

set_option autoImplicit false

namespace Elrond.Server

open Elrond.Lib Elrond.Http Elrond.Request Elrond.Config Elrond.Upstream Elrond.Proxy Elrond.Limit
  Elrond.App

/-! ## The world of a request -/

/-- The limit zones, by their declarations. -/
structure Limiters (Time Num : Type) where
  req : LimitReqZoneDecl → LimitReqZone Time Num
  conn : LimitConnZoneDecl → LimitConnZone

/-- What a request finds around it: the clock reading of `limit_req`, the iteration orders of the
zones, and the answers to all effects but the limits. -/
structure Surroundings (Time Num : Type) where
  now : Time
  reqOrder : IterOrder (String × Bucket Time Num)
  connOrder : IterOrder (String × UInt32)
  reply : (q : Effect) → q.Answer

/-- The effects that use a limit zone. -/
def Effect.isLimit : Effect → Bool
  | .limitReq _ _ _ => true
  | .limitConn _ _ _ => true
  | .releaseConn _ _ => true
  | _ => false

/-- The effects of actions. -/
def Effect.isAction : Effect → Bool
  | .serve _ _ _ _ _ _ => true
  | .tryFiles _ _ _ _ _ => true
  | .resolve _ _ => true
  | .forward _ _ _ _ _ _ => true
  | .renderMetrics => true
  | _ => false

/-- The gate an effect belongs to. -/
def Effect.gate : Effect → Option Gate
  | .limitReq _ _ _ => some .limitReq
  | .limitConn _ _ _ => some .limitConn
  | .releaseConn _ _ => some .limitConn
  | .subrequest _ => some .authRequest
  | _ => none

/-- The place of a gate in the order. -/
def Gate.rank : Gate → Nat
  | .access => 0
  | .limitReq => 1
  | .limitConn => 2
  | .authRequest => 3
  | .authBasic => 4

section

variable {Time Num : Type}

/-- The limiters with one `limit_conn` zone replaced. -/
def Limiters.setConn (w : Limiters Time Num) (zone : LimitConnZoneDecl) (z : LimitConnZone) :
    Limiters Time Num :=
  { w with conn := Function.update w.conn zone z }

/-- The limiters with one `limit_req` zone replaced. -/
def Limiters.setReq (w : Limiters Time Num) (zone : LimitReqZoneDecl) (z : LimitReqZone Time Num) :
    Limiters Time Num :=
  { w with req := Function.update w.req zone z }

@[simp] theorem Limiters.setConn_conn (w : Limiters Time Num) (zone : LimitConnZoneDecl)
    (z : LimitConnZone) : (w.setConn zone z).conn zone = z := by
  simp [Limiters.setConn]

@[simp] theorem Limiters.setConn_setConn (w : Limiters Time Num) (zone : LimitConnZoneDecl)
    (z z' : LimitConnZone) : (w.setConn zone z).setConn zone z' = w.setConn zone z' := by
  simp [Limiters.setConn]

/-- `enforce_conn` on a zone of the limiters. -/
def enforceConnIn (env : Surroundings Time Num) (w : Limiters Time Num) (zone : LimitConnZoneDecl)
    (maxConn : Nat) (ctx : RequestCtx) : Except Response LimitConnGuard × LimitConnZone :=
  enforceConn ⟨w.conn zone, UInt32.ofNat maxConn⟩ env.connOrder ctx

end

section

variable {Time Num : Type} [LinearOrder Time] [Add Num] [Sub Num] [Mul Num] [Min Num] [LE Num]
  [DecidableLE Num] [One Num] [NatCast Num] (secs : Time → Time → Num)

/-- `enforce` on a zone of the limiters. -/
def enforceIn (env : Surroundings Time Num) (w : Limiters Time Num) (zone : LimitReqZoneDecl)
    (burst : Nat) (ctx : RequestCtx) : Option Response × LimitReqZone Time Num :=
  enforce secs ⟨w.req zone, UInt32.ofNat burst⟩ env.reqOrder env.now ctx

/-- How effects are answered, and what they do to the limiters. -/
def answer (env : Surroundings Time Num) (w : Limiters Time Num) :
    (q : Effect) → q.Answer × Limiters Time Num
  | .limitReq zone burst ctx =>
      let r := enforceIn secs env w zone burst ctx
      (r.1, w.setReq zone r.2)
  | .limitConn zone maxConn ctx =>
      let r := enforceConnIn env w zone maxConn ctx
      (r.1, w.setConn zone r.2)
  | .releaseConn zone guard => ((), w.setConn zone ((w.conn zone).dropGuard guard))
  | q => (env.reply q, w)

/-! ## What the gates say -/

/-- The denial of an outcome. -/
def denialOf {α : Type} : Except Response α → Option Response
  | .error denied => some denied
  | .ok _ => none

/-- What a gate answers on its own, in the state before the request. -/
def gateReply (env : Surroundings Time Num) (w : Limiters Time Num) (crates : Crates)
    (loc : LocationRt) (ctx : RequestCtx) (peer : SocketAddr) (headers : HeaderMap) :
    Gate → Option Response
  | .access => if accessDenied loc peer then some (text 403 "403 Forbidden\n") else none
  | .limitReq => loc.limitReq.bind fun l => (enforceIn secs env w l.1 l.2 ctx).1
  | .limitConn => loc.limitConn.bind fun l => denialOf (enforceConnIn env w l.1 l.2 ctx).1
  | .authRequest => denialOf ((authRequestStep crates loc ctx headers).value env.reply)
  | .authBasic => denialOf (authBasicStep crates loc headers)

/-- The gates in their order. -/
def gateOrder : List Gate := [.access, .limitReq, .limitConn, .authRequest, .authBasic]

/-- The first gate that denies. -/
def firstDenial (env : Surroundings Time Num) (w : Limiters Time Num) (crates : Crates)
    (loc : LocationRt) (ctx : RequestCtx) (peer : SocketAddr) (headers : HeaderMap) :
    Option Denial :=
  gateOrder.findSome? fun g =>
    (gateReply secs env w crates loc ctx peer headers g).map (Denial.mk g)

/-! ## What is asked inside the limits -/

theorem fireAll_only {P : Effect → Prop} (hP : ∀ r, P (.mirror r)) (requests : List Request) :
    (fireAll requests).Only P := by
  induction requests with
  | nil => exact .done _
  | cons r rest ih => exact .ask (hP r) fun _ => ih

theorem authRequestStep_only {P : Effect → Prop} (hP : ∀ r, P (.subrequest r)) (crates : Crates)
    (loc : LocationRt) (ctx : RequestCtx) (headers : HeaderMap) :
    (authRequestStep crates loc ctx headers).Only P := by
  simp only [authRequestStep, authRequestCheck]
  split
  · split
    · exact .done _
    · split
      · exact .done _
      · exact .ask (hP _) fun _ => .done _
  · exact .done _

theorem perform_only {P : Effect → Prop} (hP : ∀ q : Effect, q.isAction = true → P q)
    (call : ActionCall) : (perform call).Only P := by
  cases call with
  | ret status body => exact .done _
  | files root kind path headers method autoindex => exact .question (hP _ rfl)
  | proxy target settings client request peer ctx =>
      refine .ask (hP _ rfl) fun resolved => ?_
      cases resolved with
      | none => exact .done _
      | some balancer => exact .question (hP _ rfl)
  | metrics => exact .ask (hP _ rfl) fun _ => .done _
  | tryFiles root entries ctx headers method => exact .question (hP _ rfl)

/-- The two authorization gates, and what follows when both let the request pass. -/
def authorized (crates : Crates) (loc : LocationRt) (ctx : RequestCtx) (headers : HeaderMap)
    (inside : Pipeline Verdict) : Pipeline Verdict := do
  match ← authRequestStep crates loc ctx headers with
  | .error denied => pure (.denied ⟨.authRequest, denied⟩)
  | .ok () =>
      match authBasicStep crates loc headers with
      | .error challenge => pure (.denied ⟨.authBasic, challenge⟩)
      | .ok () => inside

theorem handleHeld_eq (crates : Crates) (loc : LocationRt) (ctx : RequestCtx) (peer : SocketAddr)
    (request : Request) :
    handleHeld crates loc ctx peer request =
      mirrorDispatch crates loc ctx request.headers request.method >>= fun _ =>
        authorized crates loc ctx request.headers (serveLocation loc ctx peer request) := rfl

theorem dispatchHeld_eq (crates : Crates) (loc : LocationRt) (ctx : RequestCtx)
    (peer : SocketAddr) (request : Request) :
    dispatchHeld crates loc ctx peer request =
      authorized crates loc ctx request.headers
        (mirrorDispatch crates loc ctx request.headers request.method >>= fun _ =>
          serveLocation loc ctx peer request) := rfl

theorem authorized_only {P : Effect → Prop} (hsub : ∀ r, P (.subrequest r)) (crates : Crates)
    (loc : LocationRt) (ctx : RequestCtx) (headers : HeaderMap) {inside : Pipeline Verdict}
    (hinside : inside.Only P) : (authorized crates loc ctx headers inside).Only P := by
  refine (authRequestStep_only hsub crates loc ctx headers).bind fun outcome => ?_
  rcases outcome with denied | ⟨⟩
  · exact .done _
  · cases hbasic : authBasicStep crates loc headers with
    | error challenge => exact .done _
    | ok _ => exact hinside

/-- The first authorization gate that denies. -/
def authDenial (reply : (q : Effect) → q.Answer) (crates : Crates) (loc : LocationRt)
    (ctx : RequestCtx) (headers : HeaderMap) : Option Denial :=
  match (authRequestStep crates loc ctx headers).value reply with
  | .error denied => some ⟨.authRequest, denied⟩
  | .ok () =>
      match authBasicStep crates loc headers with
      | .error challenge => some ⟨.authBasic, challenge⟩
      | .ok () => none

/-- The authorization gates deny, or what follows decides. -/
theorem value_authorized (reply : (q : Effect) → q.Answer) (crates : Crates) (loc : LocationRt)
    (ctx : RequestCtx) (headers : HeaderMap) (inside : Pipeline Verdict) :
    (authorized crates loc ctx headers inside).value reply =
      match authDenial reply crates loc ctx headers with
      | some d => .denied d
      | none => inside.value reply := by
  rw [authorized, Asks.value_bind, authDenial]
  cases (authRequestStep crates loc ctx headers).value reply with
  | error denied => rfl
  | ok _ =>
      cases hbasic : authBasicStep crates loc headers with
      | error challenge => rfl
      | ok _ => rfl

/-! ## The limits around -/

theorem answer_of_not_limit (env : Surroundings Time Num) (w : Limiters Time Num) {q : Effect}
    (h : q.isLimit = false) : answer secs env w q = (env.reply q, w) := by
  cases q with
  | limitReq zone burst ctx => cases h
  | limitConn zone maxConn ctx => cases h
  | releaseConn zone guard => cases h
  | _ => rfl

/-- What uses no limit leaves the limiters alone. -/
theorem run_of_no_limit {α : Type} {m : Pipeline α} (h : m.Only fun q => q.isLimit = false)
    (env : Surroundings Time Num) (w : Limiters Time Num) :
    m.run (answer secs env) w = (m.value env.reply, w) :=
  h.run_eq (fun s q hq => answer_of_not_limit secs env s (q := q) hq) w

/-- The `limit_conn` gate, with what is done under its slot. -/
def underSlot (loc : LocationRt) (ctx : RequestCtx) (inside : Pipeline Verdict) :
    Pipeline Verdict := do
  match ← limitConnStep loc ctx with
  | .error denied => pure (.denied ⟨.limitConn, denied⟩)
  | .ok slot => holding slot inside

/-- The three gates before the authorization, with what is done under a slot. -/
def gated (loc : LocationRt) (ctx : RequestCtx) (peer : SocketAddr) (inside : Pipeline Verdict) :
    Pipeline Verdict :=
  if accessDenied loc peer then pure (.denied ⟨.access, text 403 "403 Forbidden\n"⟩)
  else do
    match ← limitReqStep loc ctx with
    | some denied => pure (.denied ⟨.limitReq, denied⟩)
    | none => underSlot loc ctx inside

theorem handleLocation_eq (crates : Crates) (loc : LocationRt) (ctx : RequestCtx)
    (peer : SocketAddr) (request : Request) :
    handleLocation crates loc ctx peer request =
      gated loc ctx peer (handleHeld crates loc ctx peer request) := rfl

theorem dispatchLocation_eq (crates : Crates) (loc : LocationRt) (ctx : RequestCtx)
    (peer : SocketAddr) (request : Request) :
    dispatchLocation crates loc ctx peer request =
      gated loc ctx peer (dispatchHeld crates loc ctx peer request) := rfl

/-- What `limit_req` answers. -/
def limitReqReply (env : Surroundings Time Num) (w : Limiters Time Num) (loc : LocationRt)
    (ctx : RequestCtx) : Option Response :=
  loc.limitReq.bind fun l => (enforceIn secs env w l.1 l.2 ctx).1

/-- The limiters after `limit_req`. -/
def afterLimitReq (env : Surroundings Time Num) (w : Limiters Time Num) (loc : LocationRt)
    (ctx : RequestCtx) : Limiters Time Num :=
  match loc.limitReq with
  | some (zone, burst) => w.setReq zone (enforceIn secs env w zone burst ctx).2
  | none => w

theorem run_limitReqStep (env : Surroundings Time Num) (w : Limiters Time Num) (loc : LocationRt)
    (ctx : RequestCtx) :
    (limitReqStep loc ctx).run (answer secs env) w =
      (limitReqReply secs env w loc ctx, afterLimitReq secs env w loc ctx) := by
  rw [limitReqStep, limitReqReply, afterLimitReq]
  cases loc.limitReq with
  | none => rfl
  | some l => rfl

theorem conn_afterLimitReq (env : Surroundings Time Num) (w : Limiters Time Num)
    (loc : LocationRt) (ctx : RequestCtx) : (afterLimitReq secs env w loc ctx).conn = w.conn := by
  rw [afterLimitReq]
  cases loc.limitReq with
  | none => rfl
  | some l => rfl

/-- What `limit_conn` answers. -/
def limitConnReply (env : Surroundings Time Num) (w : Limiters Time Num) (loc : LocationRt)
    (ctx : RequestCtx) : Option Response :=
  loc.limitConn.bind fun l => denialOf (enforceConnIn env w l.1 l.2 ctx).1

theorem limitConnReply_afterLimitReq (env : Surroundings Time Num) (w : Limiters Time Num)
    (loc : LocationRt) (ctx : RequestCtx) :
    limitConnReply env (afterLimitReq secs env w loc ctx) loc ctx =
      limitConnReply env w loc ctx := by
  simp only [limitConnReply, enforceConnIn, conn_afterLimitReq]

/-- The limiters after `limit_conn` and, if it gave a slot, after the slot is given back. -/
def afterLimitConn (env : Surroundings Time Num) (w : Limiters Time Num) (loc : LocationRt)
    (ctx : RequestCtx) : Limiters Time Num :=
  match loc.limitConn with
  | some (zone, maxConn) =>
      match enforceConnIn env w zone maxConn ctx with
      | (.ok guard, z) => w.setConn zone (z.dropGuard guard)
      | (.error _, z) => w.setConn zone z
  | none => w

theorem run_limitConnStep (env : Surroundings Time Num) (w : Limiters Time Num) (loc : LocationRt)
    (ctx : RequestCtx) :
    (limitConnStep loc ctx).run (answer secs env) w =
      match loc.limitConn with
      | some (zone, maxConn) =>
          match enforceConnIn env w zone maxConn ctx with
          | (.ok guard, z) => (.ok (some (zone, guard)), w.setConn zone z)
          | (.error denied, z) => (.error denied, w.setConn zone z)
      | none => (.ok none, w) := by
  rw [limitConnStep]
  cases loc.limitConn with
  | none => rfl
  | some l =>
      obtain ⟨zone, maxConn⟩ := l
      simp only [Asks.question_bind, Asks.run, answer]
      rcases enforceConnIn env w zone maxConn ctx with ⟨_ | guard, z⟩
      · rfl
      · rfl

/-- A slot that was taken is given back after what is done under it. -/
theorem run_holding (env : Surroundings Time Num) (w : Limiters Time Num)
    {inside : Pipeline Verdict} (hinside : inside.Only fun q => q.isLimit = false)
    (slot : Option Slot) :
    (holding slot inside).run (answer secs env) w =
      (inside.value env.reply,
        match slot with
        | some (zone, guard) => w.setConn zone ((w.conn zone).dropGuard guard)
        | none => w) := by
  rw [holding, Asks.run_bind, run_of_no_limit secs hinside]
  rcases slot with _ | ⟨zone, guard⟩
  · rfl
  · rfl

/-- A denial for want of a slot, or what is done under it. -/
theorem run_underSlot (env : Surroundings Time Num) (w : Limiters Time Num) (loc : LocationRt)
    (ctx : RequestCtx) {inside : Pipeline Verdict}
    (hinside : inside.Only fun q => q.isLimit = false) :
    (underSlot loc ctx inside).run (answer secs env) w =
      (match limitConnReply env w loc ctx with
        | some denied => .denied ⟨.limitConn, denied⟩
        | none => inside.value env.reply,
        afterLimitConn env w loc ctx) := by
  rw [underSlot, Asks.run_bind, run_limitConnStep, limitConnReply, afterLimitConn]
  cases loc.limitConn with
  | none => exact run_holding secs env w hinside none
  | some l =>
      obtain ⟨zone, maxConn⟩ := l
      simp only [Option.bind_some]
      rcases enforceConnIn env w zone maxConn ctx with ⟨_ | guard, z⟩
      · rfl
      · -- the zone is written twice, when the slot is taken and when it is given back
        simp only [denialOf]
        rw [run_holding secs env _ hinside]
        simp

/-- The limiters that a request to a location leaves behind. -/
def limitersAfter (env : Surroundings Time Num) (w : Limiters Time Num) (loc : LocationRt)
    (ctx : RequestCtx) (peer : SocketAddr) : Limiters Time Num :=
  if accessDenied loc peer then w
  else
    match limitReqReply secs env w loc ctx with
    | some _ => afterLimitReq secs env w loc ctx
    | none => afterLimitConn env (afterLimitReq secs env w loc ctx) loc ctx

/-- The first of the three gates that denies. -/
def limitDenial (env : Surroundings Time Num) (w : Limiters Time Num) (loc : LocationRt)
    (ctx : RequestCtx) (peer : SocketAddr) : Option Denial :=
  if accessDenied loc peer then some ⟨.access, text 403 "403 Forbidden\n"⟩
  else
    match limitReqReply secs env w loc ctx with
    | some denied => some ⟨.limitReq, denied⟩
    | none => (limitConnReply env w loc ctx).map (Denial.mk .limitConn)

/-- What comes of a request to a location: a denial at the limits or what is done under a slot, with
limiters that depend on the limits only. -/
theorem run_gated (env : Surroundings Time Num) (w : Limiters Time Num) (loc : LocationRt)
    (ctx : RequestCtx) (peer : SocketAddr) {inside : Pipeline Verdict}
    (hinside : inside.Only fun q => q.isLimit = false) :
    (gated loc ctx peer inside).run (answer secs env) w =
      (match limitDenial secs env w loc ctx peer with
        | some d => .denied d
        | none => inside.value env.reply,
        limitersAfter secs env w loc ctx peer) := by
  rw [gated, limitDenial, limitersAfter]
  split
  · rfl
  · rw [Asks.run_bind, run_limitReqStep]
    cases limitReqReply secs env w loc ctx with
    | some denied => rfl
    | none =>
        show (underSlot loc ctx inside).run (answer secs env) (afterLimitReq secs env w loc ctx) = _
        rw [run_underSlot secs env _ loc ctx hinside, limitConnReply_afterLimitReq]
        cases limitConnReply env w loc ctx with
        | some denied => rfl
        | none => rfl

/-- The first gate that denies is a limit, or else an authorization. -/
theorem firstDenial_eq (env : Surroundings Time Num) (w : Limiters Time Num) (crates : Crates)
    (loc : LocationRt) (ctx : RequestCtx) (peer : SocketAddr) (headers : HeaderMap) :
    firstDenial secs env w crates loc ctx peer headers =
      (limitDenial secs env w loc ctx peer).or (authDenial env.reply crates loc ctx headers) := by
  simp only [firstDenial, gateOrder, List.findSome?_cons, List.findSome?_nil, gateReply,
    limitDenial, authDenial, limitReqReply, limitConnReply]
  by_cases haccess : accessDenied loc peer = true
  · simp [haccess]
  · simp only [haccess, if_false, Option.map_none, Bool.false_eq_true]
    cases loc.limitReq.bind fun l => (enforceIn secs env w l.1 l.2 ctx).1 with
    | some denied => rfl
    | none =>
        cases loc.limitConn.bind fun l => denialOf (enforceConnIn env w l.1 l.2 ctx).1 with
        | some denied => rfl
        | none =>
            cases (authRequestStep crates loc ctx headers).value env.reply with
            | error denied => rfl
            | ok _ =>
                cases authBasicStep crates loc headers with
                | error challenge => rfl
                | ok _ => rfl

/-- Taking a slot and giving it back leaves every count as it was. -/
theorem count_enforceConn_released (apply : LimitConnApply) (order : IterOrder (String × UInt32))
    (ctx : RequestCtx) (key : String) :
    (match enforceConn apply order ctx with
      | (.ok guard, z) => z.dropGuard guard
      | (.error _, z) => z).count key = apply.zone.count key := by
  rw [enforceConn, ← UInt32.toNat_inj]
  have hcount := apply.zone.count_tryAcquire order (apply.zone.keyTemplate.render ctx) apply.maxConn
    key
  have hgranted := apply.zone.tryAcquire_isSome order (apply.zone.keyTemplate.render ctx)
    apply.maxConn
  rcases hacquire : apply.zone.tryAcquire order (apply.zone.keyTemplate.render ctx) apply.maxConn
    with ⟨_ | guard, z⟩
  · rw [hacquire] at hcount hgranted
    -- refused: nothing was counted
    have hfull : ¬ (apply.zone.count (apply.zone.keyTemplate.render ctx)).toNat <
        apply.maxConn.toNat := fun hlt => Bool.noConfusion (hgranted.2 hlt)
    rw [if_neg (fun h => hfull h.2), Nat.add_zero] at hcount
    exact hcount
  · have hkey : guard.key = apply.zone.keyTemplate.render ctx := tryAcquire_key (by rw [hacquire])
    rw [hacquire] at hcount hgranted
    show ((z.dropGuard guard).count key).toNat = _
    rw [LimitConnZone.count_dropGuard, hcount, hkey]
    -- granted: one more was counted under the key, and it is taken back
    have hlt := hgranted.1 rfl
    by_cases hk : key = apply.zone.keyTemplate.render ctx
    · simp [hk, hlt]
    · simp [hk]

/-- A request leaves every count of connections as it was. -/
theorem count_limitersAfter (env : Surroundings Time Num) (w : Limiters Time Num)
    (loc : LocationRt) (ctx : RequestCtx) (peer : SocketAddr) (zone : LimitConnZoneDecl)
    (key : String) :
    ((limitersAfter secs env w loc ctx peer).conn zone).count key = (w.conn zone).count key := by
  rw [limitersAfter]
  split
  · rfl
  · split
    · rw [conn_afterLimitReq]
    · rw [← conn_afterLimitReq secs env w loc ctx, afterLimitConn]
      cases loc.limitConn with
      | none => rfl
      | some l =>
          obtain ⟨zone', maxConn⟩ := l
          have hreleased := count_enforceConn_released
            ⟨(afterLimitReq secs env w loc ctx).conn zone', UInt32.ofNat maxConn⟩ env.connOrder ctx
            key
          simp only [enforceConnIn]
          by_cases hzone : zone = zone'
          · subst hzone
            split at hreleased <;> simp_all
          · split <;> simp [Limiters.setConn, Function.update_of_ne hzone]

/-! ## What is asked before a denial -/

/-- The effect is no action and belongs to no gate after the given place. -/
def UpTo (place : Nat) (q : Effect) : Prop :=
  q.isAction = false ∧ ∀ g, q.gate = some g → g.rank ≤ place

theorem UpTo.mono {m n : Nat} (hmn : m ≤ n) {q : Effect} (h : UpTo m q) : UpTo n q :=
  ⟨h.1, fun g hg => le_trans (h.2 g hg) hmn⟩

/-- An effect of a gate is up to the place of the gate. -/
theorem upTo_of_gate {q : Effect} {g : Gate} (hq : q.gate = some g) : UpTo g.rank q := by
  refine ⟨?_, fun g' hg' => ?_⟩
  · cases q <;> first | rfl | cases hq
  · rw [hq, Option.some.injEq] at hg'
    rw [hg']

/-- An effect of no gate that is no action is up to every place. -/
theorem upTo_of_neutral {q : Effect} (haction : q.isAction = false) (hgate : q.gate = none)
    (place : Nat) : UpTo place q :=
  ⟨haction, fun g hg => by rw [hgate] at hg; cases hg⟩

/-- An authorization denies after the limits. -/
theorem authDenial_rank {reply : (q : Effect) → q.Answer} {crates : Crates} {loc : LocationRt}
    {ctx : RequestCtx} {headers : HeaderMap} {d : Denial}
    (hd : authDenial reply crates loc ctx headers = some d) :
    Gate.authRequest.rank ≤ d.gate.rank := by
  rw [authDenial] at hd
  split at hd
  · cases hd
    exact le_rfl
  · split at hd
    · cases hd
      show 3 ≤ 4
      omega
    · cases hd

/-- A denial by an authorization gate comes before everything inside. -/
theorem asked_authorized_denied {env : Surroundings Time Num} {crates : Crates} {loc : LocationRt}
    {ctx : RequestCtx} {headers : HeaderMap} {d : Denial}
    (hd : authDenial env.reply crates loc ctx headers = some d) (inside : Pipeline Verdict)
    (w : Limiters Time Num) :
    ∀ q ∈ (authorized crates loc ctx headers inside).asked (answer secs env) w,
      UpTo Gate.authRequest.rank q := by
  have hstep : ∀ q ∈ (authRequestStep crates loc ctx headers).asked (answer secs env) w,
      UpTo Gate.authRequest.rank q :=
    (authRequestStep_only (fun _ => upTo_of_gate rfl) crates loc ctx headers).asked _ _
  have hrun := run_of_no_limit secs
    (authRequestStep_only (P := fun q => q.isLimit = false) (fun _ => rfl) crates loc ctx headers)
    env w
  rw [authorized, Asks.asked_bind, hrun]
  rw [authDenial] at hd
  cases hvalue : (authRequestStep crates loc ctx headers).value env.reply with
  | error denied => simpa [Asks.asked] using hstep
  | ok _ =>
      rw [hvalue] at hd
      cases hbasic : authBasicStep crates loc headers with
      | error challenge => simpa [Asks.asked] using hstep
      | ok _ =>
          simp only [hbasic] at hd
          cases hd

/-- What is done under a slot denies by an authorization gate only, and before it does no more. -/
def DeniesEarly (env : Surroundings Time Num) (inside : Pipeline Verdict) : Prop :=
  ∀ d w, inside.value env.reply = .denied d →
    Gate.authRequest.rank ≤ d.gate.rank ∧
      ∀ q ∈ inside.asked (answer secs env) w, UpTo Gate.authRequest.rank q

theorem limitReqStep_only {P : Effect → Prop} (hP : ∀ zone burst ctx, P (.limitReq zone burst ctx))
    (loc : LocationRt) (ctx : RequestCtx) : (limitReqStep loc ctx).Only P := by
  rw [limitReqStep]
  cases loc.limitReq with
  | none => exact .done _
  | some l => exact .question (hP _ _ _)

theorem limitConnStep_only {P : Effect → Prop}
    (hP : ∀ zone maxConn ctx, P (.limitConn zone maxConn ctx)) (loc : LocationRt)
    (ctx : RequestCtx) : (limitConnStep loc ctx).Only P := by
  rw [limitConnStep]
  cases loc.limitConn with
  | none => exact .done _
  | some l =>
      refine .ask (hP _ _ _) fun outcome => ?_
      cases outcome <;> exact .done _

theorem release_only {P : Effect → Prop} (hP : ∀ zone guard, P (.releaseConn zone guard))
    (slot : Option Slot) : (release slot).Only P := by
  cases slot with
  | none => exact .done _
  | some s => exact .question (hP _ _)

theorem asked_underSlot_denied {env : Surroundings Time Num} {w : Limiters Time Num}
    {loc : LocationRt} {ctx : RequestCtx} {inside : Pipeline Verdict}
    (hinside : inside.Only fun q => q.isLimit = false) (hearly : DeniesEarly secs env inside)
    {d : Denial} (hd : ((underSlot loc ctx inside).run (answer secs env) w).1 = .denied d) :
    Gate.limitConn.rank ≤ d.gate.rank ∧
      ∀ q ∈ (underSlot loc ctx inside).asked (answer secs env) w, UpTo d.gate.rank q := by
  have hstep := (limitConnStep_only (P := UpTo Gate.limitConn.rank)
    (fun _ _ _ => upTo_of_gate rfl) loc ctx).asked (answer secs env) w
  rw [underSlot, Asks.run_bind] at hd
  rw [underSlot, Asks.asked_bind]
  generalize hout : (limitConnStep loc ctx).run (answer secs env) w = out at hd ⊢
  obtain ⟨denied | slot, w'⟩ := out
  · cases hd
    exact ⟨le_rfl, by simpa [Asks.asked] using hstep⟩
  · -- the slot is held: the denial comes from inside, and the slot is given back after it
    change ((holding slot inside).run (answer secs env) w').1 = .denied d at hd
    rw [run_holding secs env w' hinside] at hd
    obtain ⟨hrank, hasked⟩ := hearly d w' hd
    have hle : Gate.limitConn.rank ≤ d.gate.rank := le_trans (by show 2 ≤ 3; omega) hrank
    refine ⟨hle, fun q hq => ?_⟩
    rcases List.mem_append.1 hq with hq | hq
    · exact (hstep q hq).mono hle
    · change q ∈ (holding slot inside).asked (answer secs env) w' at hq
      rw [holding, Asks.asked_bind, Asks.asked_bind] at hq
      rcases List.mem_append.1 hq with hq | hq
      · exact (hasked q hq).mono hrank
      · rcases List.mem_append.1 hq with hq | hq
        · have hrelease := (release_only (P := UpTo Gate.limitConn.rank)
            (fun _ _ => upTo_of_gate rfl) slot).asked (answer secs env) _ q hq
          exact hrelease.mono hle
        · exact absurd hq List.not_mem_nil

/-- What is asked before a denial is up to the gate that denies. -/
theorem asked_gated_denied {env : Surroundings Time Num} {w : Limiters Time Num} {loc : LocationRt}
    {ctx : RequestCtx} {peer : SocketAddr} {inside : Pipeline Verdict}
    (hinside : inside.Only fun q => q.isLimit = false) (hearly : DeniesEarly secs env inside)
    {d : Denial} (hd : ((gated loc ctx peer inside).run (answer secs env) w).1 = .denied d) :
    ∀ q ∈ (gated loc ctx peer inside).asked (answer secs env) w, UpTo d.gate.rank q := by
  have hstep := (limitReqStep_only (P := UpTo Gate.limitReq.rank)
    (fun _ _ _ => upTo_of_gate rfl) loc ctx).asked (answer secs env) w
  rw [gated] at hd ⊢
  split at hd
  · rename_i haccess
    rw [if_pos haccess]
    exact fun _ hq => absurd hq List.not_mem_nil
  · rename_i haccess
    rw [if_neg haccess, Asks.asked_bind]
    rw [Asks.run_bind] at hd
    generalize hout : (limitReqStep loc ctx).run (answer secs env) w = out at hd ⊢
    obtain ⟨_ | denied, w'⟩ := out
    · obtain ⟨hle, hasked⟩ := asked_underSlot_denied secs hinside hearly hd
      intro q hq
      rcases List.mem_append.1 hq with hq | hq
      · exact (hstep q hq).mono (le_trans (by show 1 ≤ 2; omega) hle)
      · exact hasked q hq
    · cases hd
      simpa [Asks.asked] using hstep

/-! ## The two pipelines -/

/-- What is done under a slot: a denial by an authorization gate, or the action. -/
def heldVerdict (reply : (q : Effect) → q.Answer) (crates : Crates) (loc : LocationRt)
    (ctx : RequestCtx) (peer : SocketAddr) (request : Request) : Verdict :=
  match authDenial reply crates loc ctx request.headers with
  | some d => .denied d
  | none =>
      .served loc (actionCall loc ctx peer request)
        ((perform (actionCall loc ctx peer request)).value reply)

theorem value_serveLocation (reply : (q : Effect) → q.Answer) (loc : LocationRt)
    (ctx : RequestCtx) (peer : SocketAddr) (request : Request) :
    (serveLocation loc ctx peer request).value reply =
      .served loc (actionCall loc ctx peer request)
        ((perform (actionCall loc ctx peer request)).value reply) := by
  rw [serveLocation, Asks.value_bind]
  rfl

theorem serveLocation_only {P : Effect → Prop} (haction : ∀ q : Effect, q.isAction = true → P q)
    (loc : LocationRt) (ctx : RequestCtx) (peer : SocketAddr) (request : Request) :
    (serveLocation loc ctx peer request).Only P :=
  (perform_only haction _).bind fun _ => .done _

theorem isLimit_of_isAction {q : Effect} (h : q.isAction = true) : q.isLimit = false := by
  cases q <;> first | rfl | cases h

/-- What comes to the verdict under a slot denies early if it does nothing late before an
authorization denies. -/
theorem deniesEarly_of_value {env : Surroundings Time Num} {crates : Crates} {loc : LocationRt}
    {ctx : RequestCtx} {peer : SocketAddr} {request : Request} {inside : Pipeline Verdict}
    (hvalue : inside.value env.reply = heldVerdict env.reply crates loc ctx peer request)
    (hasked : ∀ d w, authDenial env.reply crates loc ctx request.headers = some d →
      ∀ q ∈ inside.asked (answer secs env) w, UpTo Gate.authRequest.rank q) :
    DeniesEarly secs env inside := by
  intro d w hd
  rw [hvalue, heldVerdict] at hd
  cases hauth : authDenial env.reply crates loc ctx request.headers with
  | none =>
      rw [hauth] at hd
      cases hd
  | some d' =>
      rw [hauth] at hd
      cases hd
      exact ⟨authDenial_rank hauth, hasked d w hauth⟩

/-- In both pipelines the same is done under a slot, with no use of a limit, and a denial comes
early. -/
theorem handleHeld_spec (env : Surroundings Time Num) (crates : Crates) (loc : LocationRt)
    (ctx : RequestCtx) (peer : SocketAddr) (request : Request) :
    (handleHeld crates loc ctx peer request).Only (fun q => q.isLimit = false) ∧
      (handleHeld crates loc ctx peer request).value env.reply =
        heldVerdict env.reply crates loc ctx peer request ∧
      DeniesEarly secs env (handleHeld crates loc ctx peer request) := by
  have hvalue : (handleHeld crates loc ctx peer request).value env.reply =
      heldVerdict env.reply crates loc ctx peer request := by
    rw [handleHeld_eq, Asks.value_bind, value_authorized, value_serveLocation, heldVerdict]
  refine ⟨?_, hvalue, deniesEarly_of_value secs hvalue ?_⟩
  · rw [handleHeld_eq]
    exact (fireAll_only (fun _ => rfl) _).bind fun _ =>
      authorized_only (fun _ => rfl) crates loc ctx request.headers
        (serveLocation_only (fun _ => isLimit_of_isAction) loc ctx peer request)
  · intro d w hauth q hq
    rw [handleHeld_eq, Asks.asked_bind] at hq
    -- here the shadow requests are fired before the authorization
    rcases List.mem_append.1 hq with hq | hq
    · exact (fireAll_only (fun _ => upTo_of_neutral rfl rfl _) _).asked _ w q hq
    · exact asked_authorized_denied secs hauth (serveLocation loc ctx peer request) _ q hq

theorem dispatchHeld_spec (env : Surroundings Time Num) (crates : Crates) (loc : LocationRt)
    (ctx : RequestCtx) (peer : SocketAddr) (request : Request) :
    (dispatchHeld crates loc ctx peer request).Only (fun q => q.isLimit = false) ∧
      (dispatchHeld crates loc ctx peer request).value env.reply =
        heldVerdict env.reply crates loc ctx peer request ∧
      DeniesEarly secs env (dispatchHeld crates loc ctx peer request) := by
  have hvalue : (dispatchHeld crates loc ctx peer request).value env.reply =
      heldVerdict env.reply crates loc ctx peer request := by
    rw [dispatchHeld_eq, value_authorized, Asks.value_bind, value_serveLocation, heldVerdict]
  refine ⟨?_, hvalue, deniesEarly_of_value secs hvalue ?_⟩
  · rw [dispatchHeld_eq]
    exact authorized_only (fun _ => rfl) crates loc ctx request.headers
      ((fireAll_only (fun _ => rfl) _).bind fun _ =>
        serveLocation_only (fun _ => isLimit_of_isAction) loc ctx peer request)
  · intro d w hauth
    rw [dispatchHeld_eq]
    exact asked_authorized_denied secs hauth _ w

/-- What becomes of a request to a location. -/
def locationVerdict (env : Surroundings Time Num) (w : Limiters Time Num) (crates : Crates)
    (loc : LocationRt) (ctx : RequestCtx) (peer : SocketAddr) (request : Request) : Verdict :=
  match firstDenial secs env w crates loc ctx peer request.headers with
  | some d => .denied d
  | none =>
      .served loc (actionCall loc ctx peer request)
        ((perform (actionCall loc ctx peer request)).value env.reply)

/-- What is done under a slot, inside the limits. -/
theorem run_gated_held (env : Surroundings Time Num) (w : Limiters Time Num) (crates : Crates)
    (loc : LocationRt) (ctx : RequestCtx) (peer : SocketAddr) (request : Request)
    {inside : Pipeline Verdict} (hinside : inside.Only fun q => q.isLimit = false)
    (hvalue : inside.value env.reply = heldVerdict env.reply crates loc ctx peer request) :
    (gated loc ctx peer inside).run (answer secs env) w =
      (locationVerdict secs env w crates loc ctx peer request,
        limitersAfter secs env w loc ctx peer) := by
  rw [run_gated secs env w loc ctx peer hinside, locationVerdict, firstDenial_eq, hvalue,
    heldVerdict]
  cases limitDenial secs env w loc ctx peer with
  | some d => rfl
  | none => rfl

/-! ## Responses -/

theorem decorate_only (loc : LocationRt) (ctx : RequestCtx) (headers : HeaderMap) :
    (decorate loc ctx headers).Only fun q => q = .now := by
  simp only [decorate]
  cases loc.expires with
  | none => exact .done _
  | some dur => exact .ask rfl fun _ => .done _

theorem finishHandle_only (crates : Crates) (state : ServerState) (ctx : RequestCtx)
    (reqHeaders : HeaderMap) (verdict : Verdict) :
    (finishHandle crates state ctx reqHeaders verdict).Only fun q => q = .now := by
  cases verdict with
  | tooLarge response => exact .done _
  | unrouted => exact .done _
  | denied d => exact .done _
  | served loc call response =>
      refine (decorate_only loc ctx _).bind fun headers => ?_
      show Asks.Only _ (if loc.gzip.getD state.gzip then _ else _)
      split <;> exact .done _

theorem finishDispatch_only (ctx : RequestCtx) (verdict : Verdict) :
    (finishDispatch ctx verdict).Only fun q => q = .now := by
  cases verdict with
  | tooLarge response => exact .done _
  | unrouted => exact .done _
  | denied d => exact .done _
  | served loc call response => exact (decorate_only loc ctx _).bind fun _ => .done _

/-- A run respects the gates of the location it comes to. The action is run only if every gate lets
the request pass; a denial is that of the first gate that denies, and nothing of a later gate is
asked or changed; and every count of connections is what it was. -/
structure RespectsGates (env : Surroundings Time Num) (w : Limiters Time Num) (crates : Crates)
    (state : ServerState) (ctx : RequestCtx) (peer : SocketAddr) (uri : Uri) (headers : HeaderMap)
    (verdict : Verdict) (w' : Limiters Time Num) (asked : List Effect) : Prop where
  served : ∀ loc call response, verdict = .served loc call response →
    route state uri.path = some loc ∧
      ∀ g, gateReply secs env w crates loc ctx peer headers g = none
  denied : ∀ d, verdict = .denied d → ∃ loc, route state uri.path = some loc ∧
    firstDenial secs env w crates loc ctx peer headers = some d
  actions : ∀ q ∈ asked, q.isAction = true → ∃ loc call response,
    verdict = .served loc call response
  later : ∀ d, verdict = .denied d → ∀ q ∈ asked, UpTo d.gate.rank q
  reqKept : ∀ d, verdict = .denied d → d.gate.rank < Gate.limitReq.rank → w'.req = w.req
  connKept : ∀ d, verdict = .denied d → d.gate.rank < Gate.limitConn.rank → w'.conn = w.conn
  released : ∀ zone key, (w'.conn zone).count key = (w.conn zone).count key

/-- No gate denies if the first denial is none. -/
theorem gateReply_eq_none {env : Surroundings Time Num} {w : Limiters Time Num} {crates : Crates}
    {loc : LocationRt} {ctx : RequestCtx} {peer : SocketAddr} {headers : HeaderMap}
    (h : firstDenial secs env w crates loc ctx peer headers = none) (g : Gate) :
    gateReply secs env w crates loc ctx peer headers g = none := by
  have hmem : g ∈ gateOrder := by cases g <;> decide
  have hnone := List.findSome?_eq_none_iff.1 h g hmem
  simpa using hnone

/-- A denial before a limit leaves the zones of the limit alone. -/
theorem limitersAfter_kept {env : Surroundings Time Num} {w : Limiters Time Num} {crates : Crates}
    {loc : LocationRt} {ctx : RequestCtx} {peer : SocketAddr} {headers : HeaderMap} {d : Denial}
    (h : firstDenial secs env w crates loc ctx peer headers = some d) :
    (d.gate.rank < Gate.limitReq.rank → (limitersAfter secs env w loc ctx peer).req = w.req) ∧
      (d.gate.rank < Gate.limitConn.rank →
        (limitersAfter secs env w loc ctx peer).conn = w.conn) := by
  rw [firstDenial_eq, limitDenial] at h
  rw [limitersAfter]
  split
  · exact ⟨fun _ => rfl, fun _ => rfl⟩
  · rename_i haccess
    rw [if_neg haccess] at h
    cases hreq : limitReqReply secs env w loc ctx with
    | some denied =>
        rw [hreq] at h
        cases h
        exact ⟨fun hlt => absurd hlt (lt_irrefl _), fun _ => conn_afterLimitReq secs env w loc ctx⟩
    | none =>
        -- the denial is at `limit_conn` or later
        have hlate : Gate.limitConn.rank ≤ d.gate.rank := by
          rw [hreq] at h
          cases hconn : limitConnReply env w loc ctx with
          | some denied =>
              rw [hconn] at h
              cases h
              exact le_rfl
          | none =>
              rw [hconn] at h
              have hauth : authDenial env.reply crates loc ctx headers = some d := h
              exact le_trans (by show 2 ≤ 3; omega) (authDenial_rank hauth)
        have hearly : Gate.limitReq.rank ≤ d.gate.rank := le_trans (by show 1 ≤ 2; omega) hlate
        exact ⟨fun hlt => absurd hlt (not_lt.2 hearly), fun hlt => absurd hlt (not_lt.2 hlate)⟩

/-- The finish of a response comes after everything that matters to the limiters. -/
theorem run_finish (env : Surroundings Time Num) (w : Limiters Time Num)
    {finish : Verdict → Pipeline Response} (hfinish : ∀ v, (finish v).Only fun q => q = .now)
    (body : Pipeline Verdict) :
    (body >>= finish).run (answer secs env) w =
      ((finish (body.run (answer secs env) w).1).value env.reply,
        (body.run (answer secs env) w).2) := by
  have hnolimit := (hfinish (body.run (answer secs env) w).1).mono
    (R := fun q => q.isLimit = false) (by rintro q rfl; rfl)
  rw [Asks.run_bind, run_of_no_limit secs hnolimit]

/-- A request without a location passes no gate and changes nothing. -/
theorem respectsGates_unrouted (env : Surroundings Time Num) (w : Limiters Time Num)
    (crates : Crates) (state : ServerState) (ctx : RequestCtx) (peer : SocketAddr) (uri : Uri)
    (headers : HeaderMap) {asked : List Effect} (hasked : ∀ q ∈ asked, q = .now) :
    RespectsGates secs env w crates state ctx peer uri headers .unrouted w asked := by
  refine ⟨?_, ?_, ?_, ?_, ?_, ?_, fun _ _ => rfl⟩
  · intro loc call response h
    cases h
  · intro d h
    cases h
  · intro q hq haction
    rw [hasked q hq] at haction
    cases haction
  · intro d h
    cases h
  · intro d h
    cases h
  · intro d h
    cases h

/-- A request that is served has passed every gate. -/
theorem respectsGates_served {env : Surroundings Time Num} {w : Limiters Time Num}
    {crates : Crates} {state : ServerState} {loc : LocationRt} {ctx : RequestCtx}
    {peer : SocketAddr} {uri : Uri} {headers : HeaderMap}
    (hroute : route state uri.path = some loc)
    (hfirst : firstDenial secs env w crates loc ctx peer headers = none) (call : ActionCall)
    (response : Response) (asked : List Effect) :
    RespectsGates secs env w crates state ctx peer uri headers (.served loc call response)
      (limitersAfter secs env w loc ctx peer) asked := by
  refine ⟨?_, ?_, fun _ _ _ => ⟨_, _, _, rfl⟩, ?_, ?_, ?_, ?_⟩
  · intro loc' call' response' h
    cases h
    exact ⟨hroute, gateReply_eq_none secs hfirst⟩
  · intro d h
    cases h
  · intro d h
    cases h
  · intro d h
    cases h
  · intro d h
    cases h
  · exact count_limitersAfter secs env w loc ctx peer

/-- A request that is denied has come no further than the gate that denies it. -/
theorem respectsGates_denied {env : Surroundings Time Num} {w : Limiters Time Num}
    {crates : Crates} {state : ServerState} {loc : LocationRt} {ctx : RequestCtx}
    {peer : SocketAddr} {uri : Uri} {headers : HeaderMap} {d : Denial} {asked : List Effect}
    (hroute : route state uri.path = some loc)
    (hfirst : firstDenial secs env w crates loc ctx peer headers = some d)
    (hasked : ∀ q ∈ asked, UpTo d.gate.rank q) :
    RespectsGates secs env w crates state ctx peer uri headers (.denied d)
      (limitersAfter secs env w loc ctx peer) asked := by
  obtain ⟨hreq, hconn⟩ := limitersAfter_kept secs hfirst
  refine ⟨?_, ?_, ?_, ?_, ?_, ?_, ?_⟩
  · intro loc' call response h
    cases h
  · intro d' h
    cases h
    exact ⟨loc, hroute, hfirst⟩
  · intro q hq haction
    rw [(hasked q hq).1] at haction
    cases haction
  · intro d' h
    cases h
    exact hasked
  · intro d' h
    cases h
    exact hreq
  · intro d' h
    cases h
    exact hconn
  · exact count_limitersAfter secs env w loc ctx peer

/-- A pipeline whose work under a slot is the specified one respects the gates, however the response
is finished. -/
theorem respectsGates (env : Surroundings Time Num) (w : Limiters Time Num) (crates : Crates)
    (state : ServerState) (ctx : RequestCtx) (peer : SocketAddr) (request : Request)
    {inside : LocationRt → Pipeline Verdict}
    (hspec : ∀ loc, (inside loc).Only (fun q => q.isLimit = false) ∧
      (inside loc).value env.reply = heldVerdict env.reply crates loc ctx peer request ∧
      DeniesEarly secs env (inside loc))
    {finish : Verdict → Pipeline Response} (hfinish : ∀ v, (finish v).Only fun q => q = .now)
    {body : Pipeline Verdict}
    (hbody : body = match route state request.uri.path with
      | some loc => gated loc ctx peer (inside loc)
      | none => pure .unrouted) :
    RespectsGates secs env w crates state ctx peer request.uri request.headers
      (body.run (answer secs env) w).1 ((body >>= finish).run (answer secs env) w).2
      ((body >>= finish).asked (answer secs env) w) := by
  have hneutral : ∀ v w', ∀ q ∈ (finish v).asked (answer secs env) w', q = .now :=
    fun v w' => (hfinish v).asked _ w'
  rw [run_finish secs env w hfinish, Asks.asked_bind]
  cases hroute : route state request.uri.path with
  | none =>
      rw [hroute] at hbody
      subst hbody
      exact respectsGates_unrouted secs env w crates state ctx peer request.uri request.headers
        (hneutral .unrouted w)
  | some loc =>
      rw [hroute] at hbody
      subst hbody
      obtain ⟨hinside, hvalue, hearly⟩ := hspec loc
      have hrun := run_gated_held secs env w crates loc ctx peer request hinside hvalue
      cases hfirst : firstDenial secs env w crates loc ctx peer request.headers with
      | none =>
          rw [locationVerdict, hfirst] at hrun
          rw [hrun]
          exact respectsGates_served secs hroute hfirst _ _ _
      | some d =>
          -- what is asked comes up to the denial, and after it only the clock
          rw [locationVerdict, hfirst] at hrun
          have hasked := asked_gated_denied secs hinside hearly (congrArg Prod.fst hrun)
          rw [hrun]
          refine respectsGates_denied secs hroute hfirst fun q hq => ?_
          rcases List.mem_append.1 hq with hq | hq
          · exact hasked q hq
          · rw [hneutral _ _ q hq]
            exact upTo_of_neutral rfl rfl _

/-- The call with another version in the request for an upstream. -/
def ActionCall.withVersion (version : Version) : ActionCall → ActionCall
  | .proxy target settings client request peer ctx =>
      .proxy target settings client { request with version := version } peer ctx
  | call => call

/-- Two verdicts agree: no location in both, the same denial in both, or the same action of the same
location in both, called with the same arguments. A request for an upstream is an HTTP/1.1 request
on the second side. -/
inductive Verdict.Agree : Verdict → Verdict → Prop where
  | unrouted : Agree .unrouted .unrouted
  | denied (d : Denial) : Agree (.denied d) (.denied d)
  | served (loc : LocationRt) (call : ActionCall) (response response' : Response) :
      Agree (.served loc call response) (.served loc (call.withVersion .http11) response')

theorem actionCall_withVersion (loc : LocationRt) (ctx : RequestCtx) (peer : SocketAddr)
    (request : Request) (version : Version) :
    actionCall loc ctx peer { request with version := version } =
      (actionCall loc ctx peer request).withVersion version := by
  simp only [actionCall]
  cases loc.action <;> rfl

/-- The verdicts of two requests that differ in their version. -/
theorem locationVerdict_agree (env : Surroundings Time Num) (w : Limiters Time Num)
    (crates : Crates) (loc : LocationRt) (ctx : RequestCtx) (peer : SocketAddr)
    (request : Request) :
    (locationVerdict secs env w crates loc ctx peer request).Agree
      (locationVerdict secs env w crates loc ctx peer { request with version := .http11 }) := by
  rw [locationVerdict, locationVerdict]
  show Verdict.Agree _ (match firstDenial secs env w crates loc ctx peer request.headers with
    | some d => .denied d | none => _)
  cases firstDenial secs env w crates loc ctx peer request.headers with
  | some d => exact .denied d
  | none =>
      simp only [actionCall_withVersion]
      exact .served loc _ _ _

/-- The request that `dispatch` forwards, built anew from the parts of a request. -/
def rebuilt (request : Request) : Request :=
  { request with version := .http11, body := full request.body.data }

@[simp] theorem rebuilt_uri (request : Request) : (rebuilt request).uri = request.uri := rfl

theorem handleVerdict_eq (crates : Crates) (state : ServerState) (request : Request)
    (peer : SocketAddr) (hlength : exceedsBodySize state request.headers = false) :
    handleVerdict crates state request peer =
      match route state request.uri.path with
      | some loc =>
          gated loc (requestContext state peer request.method request.uri request.headers) peer
            (handleHeld crates loc
              (requestContext state peer request.method request.uri request.headers) peer request)
      | none => pure .unrouted := by
  rw [handleVerdict, if_neg (by rw [hlength]; exact Bool.false_ne_true)]
  cases route state request.uri.path with
  | none => rfl
  | some loc => exact handleLocation_eq crates loc _ peer request

theorem dispatchVerdict_eq (crates : Crates) (state : ServerState) (request : Request)
    (peer : SocketAddr) :
    dispatchVerdict crates state request.method request.uri request.headers request.body.data peer =
      match route state request.uri.path with
      | some loc =>
          gated loc (requestContext state peer request.method request.uri request.headers) peer
            (dispatchHeld crates loc
              (requestContext state peer request.method request.uri request.headers) peer
              (rebuilt request))
      | none => pure .unrouted := by
  rw [dispatchVerdict]
  cases route state request.uri.path with
  | none => rfl
  | some loc => exact dispatchLocation_eq crates loc _ peer (rebuilt request)

/-- What becomes of a request, with the limiters it leaves behind. -/
def routedOutcome (env : Surroundings Time Num) (w : Limiters Time Num) (crates : Crates)
    (state : ServerState) (ctx : RequestCtx) (peer : SocketAddr) (request : Request) :
    Verdict × Limiters Time Num :=
  match route state request.uri.path with
  | some loc =>
      (locationVerdict secs env w crates loc ctx peer request,
        limitersAfter secs env w loc ctx peer)
  | none => (.unrouted, w)

theorem run_handleVerdict (env : Surroundings Time Num) (w : Limiters Time Num) (crates : Crates)
    (state : ServerState) (request : Request) (peer : SocketAddr)
    (hlength : exceedsBodySize state request.headers = false) :
    (handleVerdict crates state request peer).run (answer secs env) w =
      routedOutcome secs env w crates state
        (requestContext state peer request.method request.uri request.headers) peer request := by
  rw [handleVerdict_eq crates state request peer hlength, routedOutcome]
  cases route state request.uri.path with
  | none => rfl
  | some loc =>
      obtain ⟨honly, hvalue, -⟩ := handleHeld_spec secs env crates loc
        (requestContext state peer request.method request.uri request.headers) peer request
      exact run_gated_held secs env w crates loc _ peer request honly hvalue

theorem run_dispatchVerdict (env : Surroundings Time Num) (w : Limiters Time Num)
    (crates : Crates) (state : ServerState) (request : Request) (peer : SocketAddr) :
    (dispatchVerdict crates state request.method request.uri request.headers request.body.data
        peer).run (answer secs env) w =
      routedOutcome secs env w crates state
        (requestContext state peer request.method request.uri request.headers) peer
        (rebuilt request) := by
  rw [dispatchVerdict_eq, routedOutcome, rebuilt_uri]
  cases route state request.uri.path with
  | none => rfl
  | some loc =>
      obtain ⟨honly, hvalue, -⟩ := dispatchHeld_spec secs env crates loc
        (requestContext state peer request.method request.uri request.headers) peer
        (rebuilt request)
      exact run_gated_held secs env w crates loc _ peer (rebuilt request) honly hvalue

/-- **No protocol bypasses a gate.** With the same zones, clock, outside answers and request, of a
declared length within the limit, `handle` and `dispatch` come to agreeing verdicts and leave the
same zones; a denial goes out unchanged; and both respect the gates. -/
theorem gates_agree (env : Surroundings Time Num) (w : Limiters Time Num) (crates : Crates)
    (state : ServerState) (method : Method) (uri : Uri) (version : Version) (headers : HeaderMap)
    (bodyBytes : Bytes) (peer : SocketAddr) (hlength : exceedsBodySize state headers = false) :
    let request : Request := ⟨method, uri, version, headers, full bodyBytes⟩
    let ctx := requestContext state peer method uri headers
    let onHandle := (handleVerdict crates state request peer).run (answer secs env) w
    let onDispatch :=
      (dispatchVerdict crates state method uri headers bodyBytes peer).run (answer secs env) w
    let handled := (handle crates state request peer).run (answer secs env) w
    let dispatched :=
      (dispatch crates state method uri headers bodyBytes peer).run (answer secs env) w
    onHandle.1.Agree onDispatch.1 ∧
      handled.2 = dispatched.2 ∧
      (∀ d, onHandle.1 = .denied d → handled.1 = d.response ∧ dispatched.1 = d.response) ∧
      RespectsGates secs env w crates state ctx peer uri headers onHandle.1 handled.2
        ((handle crates state request peer).asked (answer secs env) w) ∧
      RespectsGates secs env w crates state ctx peer uri headers onDispatch.1 dispatched.2
        ((dispatch crates state method uri headers bodyBytes peer).asked (answer secs env) w) := by
  intro request ctx onHandle onDispatch handled dispatched
  have hhandle : onHandle = _ := run_handleVerdict secs env w crates state request peer hlength
  have hdispatch : onDispatch = _ := run_dispatchVerdict secs env w crates state request peer
  have hruns : onHandle.1.Agree onDispatch.1 ∧ onHandle.2 = onDispatch.2 := by
    rw [hhandle, hdispatch]
    cases hroute : route state request.uri.path with
    | none =>
        simp only [routedOutcome, rebuilt_uri, hroute]
        exact ⟨.unrouted, trivial⟩
    | some loc =>
        simp only [routedOutcome, rebuilt_uri, hroute]
        exact ⟨locationVerdict_agree secs env w crates loc ctx peer request, trivial⟩
  have hfinish := finishHandle_only crates state ctx headers
  have hfinish' := finishDispatch_only ctx
  have hhandled : handled = ((finishHandle crates state ctx headers onHandle.1).value env.reply,
      onHandle.2) := run_finish secs env w hfinish _
  have hdispatched : dispatched = ((finishDispatch ctx onDispatch.1).value env.reply,
      onDispatch.2) := run_finish secs env w hfinish' _
  refine ⟨hruns.1, ?_, ?_, ?_, ?_⟩
  · rw [hhandled, hdispatched]
    exact hruns.2
  · intro d hd
    have hd' : onDispatch.1 = .denied d := by
      have hagree := hruns.1
      rw [hd] at hagree
      generalize onDispatch.1 = v at hagree
      cases hagree
      rfl
    rw [hhandled, hdispatched, hd, hd']
    exact ⟨rfl, rfl⟩
  · exact respectsGates secs env w crates state ctx peer request
      (fun loc => handleHeld_spec secs env crates loc ctx peer request) hfinish
      (handleVerdict_eq crates state request peer hlength)
  · exact respectsGates secs env w crates state ctx peer (rebuilt request)
      (fun loc => dispatchHeld_spec secs env crates loc ctx peer (rebuilt request)) hfinish'
      (dispatchVerdict_eq crates state request peer)

end

/-! ## A challenge on both protocols -/

/-- A zone for connections by address. -/
def perAddress : LimitConnZoneDecl := ⟨"conns", Template.parse "$remote_addr", 16⟩

/-- A location with one slot per address and a password that nobody has. -/
def guardedLocation : LocationRt where
  path := "/"
  action := .ret 200 (Template.parse "welcome")
  addHeaders := []
  expires := none
  gzip := none
  autoindex := false
  auth := some ⟨"staff", ∅⟩
  limitReq := none
  limitConn := some (perAddress, 1)
  accessRules := []
  proxyConnectTimeout := none
  proxyReadTimeout := none
  authRequest := none
  mirrors := []
  proxySslVerify := true
  proxyClient := none

/-- A server with that location. -/
def guardedState : ServerState where
  serverName := none
  scheme := .http
  gzip := false
  gzipTypes := []
  gzipMinLength := 20
  maps := []
  clientMaxBodySize := 1024
  h3AdvertisedPort := none
  exactLocs := []
  regexLocs := []
  prefixLocs := [guardedLocation]

/-- A text to be compressed. -/
def longText : String := "a text of more than twenty bytes"

/-- The text in gzip: its header, one block of fixed codes, and the checksum and length. -/
def longTextGzip : Bytes :=
  [31, 139, 8, 0, 0, 0, 0, 0, 0, 255, 75, 84, 40, 73, 173, 40, 81, 200, 79, 83, 200, 205, 47,
    74, 85, 40, 201, 72, 204, 83, 40, 41, 79, 205, 43, 169, 84, 72, 170, 44, 73, 45, 6, 0, 129,
    31, 106, 158, 32, 0, 0, 0]

/-- Crates that know one URL and how to compress one text. -/
def fixedCrates : Crates where
  parseUri s :=
    if s = "http://shadow/" then .ok ⟨some .http, some "shadow", some "/"⟩
    else .error "invalid uri character"
  base64Decode _ := none
  bcryptVerify _ _ := none
  gzip bytes := if bytes = Text.utf8Bytes longText then some longTextGzip else none

/-- Answers of a quiet world. -/
def quietReply : (q : Effect) → q.Answer
  | .limitReq _ _ _ => none
  | .limitConn _ _ _ => .error denyResponse
  | .releaseConn _ _ => ()
  | .mirror _ => ()
  | .subrequest _ => .response 200
  | .serve _ _ _ _ _ _ => text 404 "404 Not Found\n"
  | .tryFiles _ _ _ _ _ => text 404 "404 Not Found\n"
  | .resolve _ _ => none
  | .forward _ _ _ _ _ _ => badGateway
  | .renderMetrics => ""
  | .now => none

/-- Surroundings with whole numbers for times and tokens. -/
def quietSurroundings : Surroundings Nat Nat where
  now := 0
  reqOrder := IterOrder.stored
  connOrder := IterOrder.stored
  reply := quietReply

/-- Zones in which nothing has happened. -/
def freshLimiters : Limiters Nat Nat where
  req decl := LimitReqZone.new decl.keyTemplate 1 decl.maxEntries
  conn decl := LimitConnZone.new decl.keyTemplate decl.maxEntries

/-- A client address. -/
def clientPeer : SocketAddr := ⟨.v4 ⟨192, 0, 2, 1⟩, 40000, 0⟩

/-- The root of a server, as a request target. -/
def rootUri : Uri := ⟨none, none, some "/"⟩

/-- The gate and the status of a denial. -/
def Verdict.denialAt : Verdict → Option (Gate × Nat)
  | .denied d => some (d.gate, d.response.status)
  | _ => none

/-- A request without a password is challenged on both protocols, and its slot is free again. -/
theorem challenged_on_both :
    let seconds : Nat → Nat → Nat := fun last now => now - last
    let handled := (handle fixedCrates guardedState ⟨.get, rootUri, .http11, ∅, full []⟩
      clientPeer).run (answer seconds quietSurroundings) freshLimiters
    let dispatched := (dispatch fixedCrates guardedState .get rootUri ∅ [] clientPeer).run
      (answer seconds quietSurroundings) freshLimiters
    exceedsBodySize guardedState ∅ = false ∧
      ((handleVerdict fixedCrates guardedState ⟨.get, rootUri, .http11, ∅, full []⟩ clientPeer).run
        (answer seconds quietSurroundings) freshLimiters).1.denialAt = some (.authBasic, 401) ∧
      handled.2 = dispatched.2 ∧
      ∀ zone key, (handled.2.conn zone).count key = (freshLimiters.conn zone).count key := by
  intro seconds handled dispatched
  have hlength : exceedsBodySize guardedState ∅ = false := by decide +kernel
  have h := gates_agree seconds quietSurroundings freshLimiters fixedCrates guardedState .get
    rootUri .http11 ∅ [] clientPeer hlength
  exact ⟨hlength, by decide +kernel, h.2.1, h.2.2.2.1.released⟩

end Elrond.Server
