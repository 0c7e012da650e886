import Elrond.Limit.Req

/-!
# Locations with different bursts on one `limit_req` zone

What a shared zone promises its locations, said without buckets: `Reference` keeps a backlog that
drains at the rate of the zone and grows by one with every accepted call, and a call is accepted
while the backlog is within the burst of its location. The backlog does not depend on bursts.

A bucket that was last touched with burst `b` stands for the backlog `b + 1 - tokens`. A call with
the same burst keeps this relation, and so does any call that finds the bucket full for its own
burst and for the previous one; other calls read the tokens of one burst as tokens of another
(`refill_backlog`). In exact arithmetic, a run without such calls is answered as the reference
answers it (`shared_zone_follows_backlog`).
-/

set_option autoImplicit false

namespace Elrond.Limit

open Elrond.Lib Elrond.Http Elrond.Request

/-- The reference: the backlog after the last call and the time of that call. -/
structure Reference where
  backlog : ℚ
  last : Option ℚ

namespace Reference

/-- No calls yet. -/
def init : Reference := ⟨0, none⟩

/-- The backlog at the time `now`. -/
def drained (rate : ℚ) (r : Reference) (now : ℚ) : ℚ :=
  match r.last with
  | none => r.backlog
  | some t => max 0 (r.backlog - (now - t) * rate)

/-- A call is accepted while the backlog is within its burst. -/
def accepts (rate : ℚ) (r : Reference) (c : AllowCall ℚ ℚ) : Bool :=
  r.drained rate c.now ≤ c.burst.toNat

/-- The backlog after a call. -/
def next (rate : ℚ) (r : Reference) (c : AllowCall ℚ ℚ) : Reference :=
  ⟨r.drained rate c.now + if r.accepts rate c then 1 else 0, some c.now⟩

/-- The answers to a list of calls. -/
def decisions (rate : ℚ) : Reference → List (AllowCall ℚ ℚ) → List Bool
  | _, [] => []
  | r, c :: cs => r.accepts rate c :: decisions rate (r.next rate c) cs

theorem decisions_concat (rate : ℚ) (r : Reference) (calls : List (AllowCall ℚ ℚ))
    (c : AllowCall ℚ ℚ) :
    decisions rate r (calls ++ [c]) =
      decisions rate r calls ++ [(run (next rate) r calls).accepts rate c] := by
  induction calls generalizing r with
  | nil => rfl
  | cons d calls ih => rw [List.cons_append, decisions, decisions, ih, run_cons, List.cons_append]

end Reference

/-- The calls for one key. -/
def callsFor (key : String) (calls : List (AllowCall ℚ ℚ)) : List (AllowCall ℚ ℚ) :=
  calls.filter fun c => c.key = key

/-- No call of the run evicts the bucket of the key. -/
def NeverEvicted (keyTemplate : Template) (rate : ℚ) (maxEntries : Nat) (key : String)
    (calls : List (AllowCall ℚ ℚ)) : Prop :=
  AllSteps (LimitReqZone.next exactSecs) (fun zone c => zone.evicted c.order c.key ≠ some key)
    (LimitReqZone.new keyTemplate rate maxEntries) calls

/-- Every call for the key has the burst of the previous call for it, or finds its bucket full:
refilled for the time that has passed, the bucket holds the capacity of both bursts. -/
def BurstsFit (keyTemplate : Template) (rate : ℚ) (maxEntries : Nat) (key : String)
    (calls : List (AllowCall ℚ ℚ)) : Prop :=
  ∀ pre c post, calls = pre ++ c :: post → c.key = key →
    ∀ prev, lastCall pre key = some prev → prev.burst = c.burst ∨
      ∀ b, (LimitReqZone.after exactSecs keyTemplate rate maxEntries pre).buckets.lookup key =
          some b →
        (max prev.burst.toNat c.burst.toNat : ℚ) + 1 ≤ b.tokens + exactSecs b.last c.now * rate

/-- Refilling and draining keep the relation between tokens and backlog. -/
theorem refill_backlog {tokens backlog credit prev burst : ℚ} (h : tokens = prev + 1 - backlog)
    (hfit : prev = burst ∨ max prev burst + 1 ≤ tokens + credit) :
    min (tokens + credit) (burst + 1) = burst + 1 - max 0 (backlog - credit) := by
  rcases hfit with rfl | hfull
  · rcases le_total (backlog - credit) 0 with hdone | hleft
    · rw [max_eq_left hdone, min_eq_right (by linarith)]
      ring
    · rw [max_eq_right hleft, min_eq_left (by linarith)]
      linarith
  · have hprev : prev ≤ max prev burst := le_max_left _ _
    have hburst : burst ≤ max prev burst := le_max_right _ _
    rw [max_eq_left (by linarith), min_eq_right (by linarith)]
    ring

/-- The bucket of a key stands for the backlog of its calls: there is none before the first call,
and after a call with burst `b` it holds `b + 1` tokens less the backlog. -/
def StandsFor (prev : Option (AllowCall ℚ ℚ)) (bucket : Option (Bucket ℚ ℚ)) (r : Reference) :
    Prop :=
  match prev with
  | none => bucket = none ∧ r = .init
  | some c => bucket = some ⟨c.burst.toNat + 1 - r.backlog, c.now⟩ ∧ r.last = some c.now

/-- One call for the key: the bucket and the reference answer alike and stay related. -/
theorem serve_standsFor {rate : ℚ} {prev : Option (AllowCall ℚ ℚ)} {bucket : Option (Bucket ℚ ℚ)}
    {r : Reference} (h : StandsFor prev bucket r) (c : AllowCall ℚ ℚ)
    (htime : ∀ p, prev = some p → p.now ≤ c.now)
    (hfit : ∀ p, prev = some p → p.burst = c.burst ∨ ∀ b, bucket = some b →
      (max p.burst.toNat c.burst.toNat : ℚ) + 1 ≤ b.tokens + exactSecs b.last c.now * rate) :
    (serve exactSecs rate c.now c.burst bucket).1 = r.accepts rate c ∧
      StandsFor (some c) (some (serve exactSecs rate c.now c.burst bucket).2) (r.next rate c) := by
  have htokens : min ((bucket.getD ⟨(c.burst.toNat : ℚ) + 1, c.now⟩).tokens +
      exactSecs (bucket.getD ⟨(c.burst.toNat : ℚ) + 1, c.now⟩).last c.now * rate)
        ((c.burst.toNat : ℚ) + 1) = (c.burst.toNat : ℚ) + 1 - r.drained rate c.now := by
    cases prev with
    | none =>
        obtain ⟨rfl, rfl⟩ := h
        simp [exactSecs, Reference.drained, Reference.init]
    | some p =>
        obtain ⟨rfl, hlast⟩ := h
        have helapsed : exactSecs p.now c.now = c.now - p.now :=
          max_eq_right (sub_nonneg.2 (htime p rfl))
        rw [Reference.drained, hlast]
        simp only [Option.getD_some, helapsed]
        apply refill_backlog rfl
        rcases hfit p rfl with hsame | hfull
        · rw [hsame]
          exact Or.inl rfl
        · have hb := hfull _ rfl
          rw [helapsed] at hb
          exact Or.inr (by exact_mod_cast hb)
  simp only [serve, htokens, StandsFor, Reference.next]
  by_cases haccept : r.accepts rate c = true
  · have hle : r.drained rate c.now ≤ c.burst.toNat := of_decide_eq_true haccept
    rw [if_pos (by linarith), haccept]
    refine ⟨rfl, ?_, trivial⟩
    simp only [if_true, Option.some.injEq, Bucket.mk.injEq, and_true]
    ring
  · have hlt : ¬ r.drained rate c.now ≤ c.burst.toNat := fun hle => haccept (decide_eq_true hle)
    rw [if_neg (by linarith), Bool.eq_false_iff.2 haccept]
    refine ⟨rfl, ?_, trivial⟩
    simp

/-! ## Every run -/

theorem callsFor_concat (key : String) (calls : List (AllowCall ℚ ℚ)) (c : AllowCall ℚ ℚ) :
    callsFor key (calls ++ [c]) = callsFor key calls ++ if c.key = key then [c] else [] := by
  rw [callsFor, List.filter_append, callsFor]
  by_cases h : c.key = key
  · simp [h]
  · simp [h]

theorem lastCall_mem {calls : List (AllowCall ℚ ℚ)} {key : String} {c : AllowCall ℚ ℚ}
    (h : lastCall calls key = some c) : c ∈ callsFor key calls := by
  have hmem := List.mem_reverse.1 (List.mem_of_find?_eq_some h)
  have hkey : decide (c.key = key) = true := by
    rw [lastCall] at h
    simpa using List.find?_some h
  exact List.mem_filter.2 ⟨hmem, hkey⟩

theorem after_ratePerSec (keyTemplate : Template) (rate : ℚ) (maxEntries : Nat)
    (calls : List (AllowCall ℚ ℚ)) :
    (LimitReqZone.after exactSecs keyTemplate rate maxEntries calls).ratePerSec = rate := by
  have hstep : ∀ (z : LimitReqZone ℚ ℚ) (c : AllowCall ℚ ℚ),
      z.ratePerSec = rate → (z.next exactSecs c).ratePerSec = rate := fun _ _ h => h
  exact run_invariant hstep rfl calls

/-- **A shared zone follows the backlog.** In exact arithmetic, when the calls for a key come at
non-decreasing times, the key is never evicted, and every call for it has the burst of the
previous one or finds the bucket full, each of them is answered as the backlog reference answers
it. Calls for other keys may come in between. -/
theorem shared_zone_follows_backlog (keyTemplate : Template) (rate : ℚ) (maxEntries : Nat)
    (key : String) (calls : List (AllowCall ℚ ℚ))
    (htimes : (callsFor key calls).Pairwise fun a b => a.now ≤ b.now)
    (hkept : NeverEvicted keyTemplate rate maxEntries key calls)
    (hfit : BurstsFit keyTemplate rate maxEntries key calls) :
    LimitReqZone.decisionsFor exactSecs key (LimitReqZone.new keyTemplate rate maxEntries) calls =
      Reference.decisions rate .init (callsFor key calls) := by
  -- The invariant: the bucket of the key stands for the backlog of its calls so far.
  suffices h : StandsFor (lastCall calls key)
      ((LimitReqZone.after exactSecs keyTemplate rate maxEntries calls).buckets.lookup key)
      (run (Reference.next rate) .init (callsFor key calls)) ∧
      LimitReqZone.decisionsFor exactSecs key (LimitReqZone.new keyTemplate rate maxEntries)
        calls = Reference.decisions rate .init (callsFor key calls) from h.2
  induction calls using List.reverseRecOn with
  | nil => exact ⟨⟨rfl, rfl⟩, rfl⟩
  | append_singleton calls c ih =>
      rw [callsFor_concat, List.pairwise_append] at htimes
      have hkept' : NeverEvicted keyTemplate rate maxEntries key calls := by
        intro pre d post heq
        exact hkept pre d (post ++ [c]) (by rw [heq, List.append_assoc, List.cons_append])
      have hfit' : BurstsFit keyTemplate rate maxEntries key calls := by
        intro pre d post heq
        exact hfit pre d (post ++ [c]) (by rw [heq, List.append_assoc, List.cons_append])
      obtain ⟨hstands, hsame⟩ := ih htimes.1 hkept' hfit'
      have hrate := after_ratePerSec keyTemplate rate maxEntries calls
      rw [LimitReqZone.after_concat, LimitReqZone.next, LimitReqZone.lookup_allow, hrate,
        lastCall_concat, LimitReqZone.decisionsFor_concat, callsFor_concat, hsame]
      by_cases hk : c.key = key
      · rw [if_pos hk] at htimes
        obtain ⟨hanswer, hnext⟩ := serve_standsFor hstands c
          (fun p hp => htimes.2.2 p (lastCall_mem hp) c (List.mem_singleton.2 rfl))
          (fun p hp => hfit calls c [] rfl hk p hp)
        rw [if_pos hk, if_pos hk, if_pos hk.symm, if_pos hk.symm, run_concat,
          Reference.decisions_concat, hk]
        refine ⟨hnext, ?_⟩
        have hdecision : (LimitReqZone.after exactSecs keyTemplate rate maxEntries calls).decision
            exactSecs c =
              (run (Reference.next rate) .init (callsFor key calls)).accepts rate c := by
          rw [← hanswer, LimitReqZone.decision, LimitReqZone.allow_fst, hrate, hk]
        exact congrArg (Reference.decisions rate .init (callsFor key calls) ++ [·]) hdecision
      -- A call for another key touches neither the bucket nor the backlog.
      · have hleft : (LimitReqZone.after exactSecs keyTemplate rate maxEntries calls).evicted
            c.order c.key ≠ some key := hkept calls c [] rfl
        rw [if_neg hk, if_neg hk, if_neg (Ne.symm hk), if_neg (Ne.symm hk), if_neg hleft,
          List.append_nil, List.append_nil]
        exact ⟨hstands, rfl⟩

/-- A call for the key "k". -/
def sharedCall (now : ℚ) (burst : UInt32) : AllowCall ℚ ℚ := ⟨IterOrder.stored, now, "k", burst⟩

/-- A location without burst serves one request; a second location with burst 10 that shares the
zone is then denied at once, although nothing but that one request is in the backlog. -/
theorem shared_zone_denies_burst :
    (callsFor "k" [sharedCall 0 0, sharedCall 0 10]).Pairwise (fun a b => a.now ≤ b.now) ∧
      NeverEvicted ⟨[]⟩ 1 16384 "k" [sharedCall 0 0, sharedCall 0 10] ∧
      LimitReqZone.decisionsFor exactSecs "k" (LimitReqZone.new ⟨[]⟩ 1 16384)
          [sharedCall 0 0, sharedCall 0 10] ≠
        Reference.decisions 1 .init (callsFor "k" [sharedCall 0 0, sharedCall 0 10]) := by
  refine ⟨?_, ?_, ?_⟩
  · decide +kernel
  · refine allSteps_cons.2 ⟨by decide, allSteps_cons.2 ⟨by decide, allSteps_nil⟩⟩
  · decide +kernel

/-- Two calls with burst 1 and, when the bucket is full again, one without burst. -/
def quietCalls : List (AllowCall ℚ ℚ) := [sharedCall 0 1, sharedCall 1 1, sharedCall 9 0]

/-- The quiet calls are answered as the reference answers them. -/
theorem shared_zone_follows_backlog_quiet :
    LimitReqZone.decisionsFor exactSecs "k" (LimitReqZone.new ⟨[]⟩ 1 16384) quietCalls =
      Reference.decisions 1 .init (callsFor "k" quietCalls) := by
  apply shared_zone_follows_backlog
  · decide +kernel
  · exact allSteps_cons.2 ⟨by decide, allSteps_cons.2 ⟨by decide, allSteps_cons.2 ⟨by decide,
      allSteps_nil⟩⟩⟩
  · intro pre c post heq hk prev hprev
    rcases pre with _ | ⟨p, _ | ⟨q, _ | ⟨r, pre⟩⟩⟩
    · cases hprev
    · simp only [quietCalls, List.cons_append, List.nil_append, List.cons.injEq] at heq
      obtain ⟨rfl, rfl, -⟩ := heq
      obtain rfl := Option.some.inj hprev
      exact Or.inl rfl
    · simp only [quietCalls, List.cons_append, List.nil_append, List.cons.injEq] at heq
      obtain ⟨rfl, rfl, rfl, -⟩ := heq
      obtain rfl := Option.some.inj hprev
      refine Or.inr fun b hb => ?_
      have hbucket : (LimitReqZone.after exactSecs ⟨[]⟩ 1 16384
          [sharedCall 0 1, sharedCall 1 1]).buckets.lookup "k" = some ⟨1, 1⟩ := by decide +kernel
      obtain rfl := Option.some.inj (hb.symm.trans hbucket)
      decide +kernel
    · simp [quietCalls] at heq

end Elrond.Limit
