import Elrond.Limit.Backlog

/-!
# The rate bound of `limit_req` under concurrency

`allow` reads the clock before it locks the zone, so a call is two steps: it reads the clock and
waits, and later its critical section runs with that reading. Sections of different calls may run
in any order, so a section may come with an older reading than the one before it; it then moves
`last` of the bucket back, and the next section is credited once more for time that was already
credited.

The bound on the accepted calls of a key in a window is carried by `Potential`: the calls accepted
since the start of the window together with the tokens left are at most the capacity plus what
the rate yields. A section keeps it when it is credited no more time than has really passed since
the previous section of its key, or when the bucket is full by that time anyway (`Timely`). In
exact arithmetic, runs of such sections obey the bound (`rate_bounded_of_timely`).
-/

set_option autoImplicit false

namespace Elrond.Limit

open Elrond.Lib Elrond.Http Elrond.Request

/-- A call that has read the clock and waits for the lock. -/
structure WaitingCall where
  key : String
  burst : UInt32
  reading : ℚ

/-- A critical section that has run: when, with which reading, and what it answered. -/
structure Section where
  key : String
  time : ℚ
  reading : ℚ
  accepted : Bool

/-- The calls of a zone: the real time, the calls that wait, the zone and the sections so far. -/
structure CallSystem where
  clock : ℚ
  waiting : List WaitingCall
  zone : LimitReqZone ℚ ℚ
  log : List Section

/-- What happens: time passes, a call reads the clock, or a waiting call runs its section. -/
inductive CallEvent where
  | tick (t : ℚ)
  | read (key : String) (burst : UInt32)
  | enter (order : IterOrder (String × Bucket ℚ ℚ)) (i : Nat)

/-- The last section of a key. -/
def lastSection (log : List Section) (key : String) : Option Section :=
  log.reverse.find? fun s => s.key = key

namespace CallSystem

/-- A fresh zone and no calls. -/
def init (keyTemplate : Template) (rate : ℚ) (maxEntries : Nat) : CallSystem :=
  ⟨0, [], LimitReqZone.new keyTemplate rate maxEntries, []⟩

/-- The critical section of a call. -/
def runSection (st : CallSystem) (order : IterOrder (String × Bucket ℚ ℚ)) (i : Nat)
    (c : WaitingCall) : CallSystem :=
  let (accepted, zone) := st.zone.allow exactSecs order c.reading c.key c.burst
  ⟨st.clock, st.waiting.eraseIdx i, zone, st.log ++ [⟨c.key, st.clock, c.reading, accepted⟩]⟩

/-- One step. The clock never goes back. -/
def step (st : CallSystem) : CallEvent → CallSystem
  | .tick t => { st with clock := max st.clock t }
  | .read key burst => { st with waiting := st.waiting ++ [⟨key, burst, st.clock⟩] }
  | .enter order i =>
      match st.waiting[i]? with
      | some c => st.runSection order i c
      | none => st

/-- The calls of a key accepted by sections that ran between two instants. -/
def acceptedIn (st : CallSystem) (key : String) (start stop : ℚ) : Nat :=
  st.log.countP fun s => s.key = key ∧ s.accepted = true ∧ start ≤ s.time ∧ s.time ≤ stop

/-- In every window of length `T` at most `burst + 1 + rate * T` calls of the key are accepted. -/
def RateBounded (rate : ℚ) (key : String) (burst : UInt32) (st : CallSystem) : Prop :=
  ∀ start T, 0 ≤ T → (st.acceptedIn key start (start + T) : ℚ) ≤ burst.toNat + 1 + rate * T

/-- Calls for the key are made with one burst. -/
def SameBurst (key : String) (burst : UInt32) (_ : CallSystem) : CallEvent → Prop
  | .read k b => k = key → b = burst
  | _ => True

/-- A section does not evict the bucket of the key. -/
def Keeps (key : String) (st : CallSystem) : CallEvent → Prop
  | .enter order i => ∀ c, st.waiting[i]? = some c → st.zone.evicted order c.key ≠ some key
  | _ => True

/-- A section of the key reads at most as much time since the previous section of the key as has
really passed since then, or the bucket is full by now anyway. -/
def Timely (key : String) (st : CallSystem) : CallEvent → Prop
  | .enter _ i => ∀ c, st.waiting[i]? = some c → c.key = key →
      ∀ s, lastSection st.log key = some s →
        c.reading - s.reading ≤ st.clock - s.time ∨
          ∀ b, st.zone.buckets.lookup key = some b →
            (c.burst.toNat : ℚ) + 1 ≤ b.tokens + (st.clock - s.time) * st.zone.ratePerSec
  | _ => True

end CallSystem

/-! ## The potential -/

/-- The calls of a key accepted by sections that ran at or after an instant. -/
def acceptedSince (log : List Section) (key : String) (start : ℚ) : Nat :=
  log.countP fun s => s.key = key ∧ s.accepted = true ∧ start ≤ s.time

/-- What the bucket of a key guarantees after its last section `s`: it was touched with the
reading of `s` and holds tokens, and for every window that `s` lies in, the accepted calls of the
window and the tokens left are within the capacity and the yield of the rate. -/
structure Potential (rate : ℚ) (key : String) (burst : UInt32) (log : List Section) (clock : ℚ)
    (bucket : Option (Bucket ℚ ℚ)) (s : Section) : Prop where
  le_clock : s.time ≤ clock
  latest : ∀ e ∈ log, e.key = key → e.time ≤ s.time
  bucket_eq : ∃ tokens, bucket = some ⟨tokens, s.reading⟩ ∧ 0 ≤ tokens ∧
    ∀ start ≤ s.time,
      (acceptedSince log key start : ℚ) + tokens ≤ burst.toNat + 1 + (s.time - start) * rate

/-- The invariant: waiting calls of the key have the burst, a key without sections has no bucket,
the bucket of a key with sections has the potential, and the bound holds. -/
structure RateInv (rate : ℚ) (key : String) (burst : UInt32) (st : CallSystem) : Prop where
  rate_eq : st.zone.ratePerSec = rate
  waiting : ∀ c ∈ st.waiting, c.key = key → c.burst = burst
  fresh : lastSection st.log key = none → st.zone.buckets.lookup key = none
  potential : ∀ s, lastSection st.log key = some s →
    Potential rate key burst st.log st.clock (st.zone.buckets.lookup key) s
  bounded : st.RateBounded rate key burst

theorem lastSection_concat (log : List Section) (e : Section) (key : String) :
    lastSection (log ++ [e]) key = if e.key = key then some e else lastSection log key := by
  rw [lastSection, List.reverse_append, List.reverse_singleton, List.singleton_append,
    List.find?_cons]
  by_cases h : e.key = key
  · simp [h]
  · simp [h, lastSection]

theorem acceptedSince_concat (log : List Section) (e : Section) (key : String) (start : ℚ) :
    acceptedSince (log ++ [e]) key start =
      acceptedSince log key start +
        if e.key = key ∧ e.accepted = true ∧ start ≤ e.time then 1 else 0 := by
  rw [acceptedSince, List.countP_append, List.countP_singleton, acceptedSince]
  simp

/-- Nothing of a key is accepted after its last section. -/
theorem acceptedSince_eq_zero {log : List Section} {key : String} {start : ℚ}
    (h : ∀ e ∈ log, e.key = key → e.time < start) : acceptedSince log key start = 0 := by
  apply List.countP_eq_zero.2
  intro e he hcounted
  obtain ⟨hkey, -, hstart⟩ := of_decide_eq_true hcounted
  exact absurd hstart (not_le.2 (h e he hkey))

/-- What a section finds in its bucket after the refill. -/
def refilled (rate now : ℚ) (burst : UInt32) (bucket : Option (Bucket ℚ ℚ)) : ℚ :=
  min ((bucket.getD ⟨burst.toNat + 1, now⟩).tokens +
    exactSecs (bucket.getD ⟨burst.toNat + 1, now⟩).last now * rate) (burst.toNat + 1)

theorem refilled_le_capacity (rate now : ℚ) (burst : UInt32) (bucket : Option (Bucket ℚ ℚ)) :
    refilled rate now burst bucket ≤ burst.toNat + 1 :=
  min_le_right _ _

/-- What the refilled bucket holds is split into the answer and the tokens left. -/
theorem serve_tokens (rate now : ℚ) (burst : UInt32) (bucket : Option (Bucket ℚ ℚ)) :
    ((if (serve exactSecs rate now burst bucket).1 = true then 1 else 0 : ℕ) : ℚ) +
        (serve exactSecs rate now burst bucket).2.tokens = refilled rate now burst bucket := by
  simp only [serve, refilled]
  split
  · simp
  · simp

/-- Tokens are never negative, at a rate that is not. -/
theorem serve_tokens_nonneg {rate : ℚ} (hrate : 0 ≤ rate) (now : ℚ) (burst : UInt32)
    {bucket : Option (Bucket ℚ ℚ)} (h : ∀ b, bucket = some b → 0 ≤ b.tokens) :
    0 ≤ (serve exactSecs rate now burst bucket).2.tokens := by
  have hcap : (0 : ℚ) ≤ (burst.toNat : ℚ) + 1 := by positivity
  have hbucket : 0 ≤ (bucket.getD ⟨(burst.toNat : ℚ) + 1, now⟩).tokens := by
    cases hb : bucket with
    | none => exact hcap
    | some b => exact h b hb
  have hcredit : 0 ≤ exactSecs (bucket.getD ⟨(burst.toNat : ℚ) + 1, now⟩).last now * rate :=
    mul_nonneg (le_max_left _ _) hrate
  simp only [serve]
  split
  · rename_i htoken
    exact sub_nonneg.2 htoken
  · exact le_min (add_nonneg hbucket hcredit) hcap

/-! ## One step -/

section Step

variable {rate : ℚ} {key : String} {burst : UInt32} {st : CallSystem}

theorem acceptedIn_le_acceptedSince (st : CallSystem) (key : String) (start stop : ℚ) :
    st.acceptedIn key start stop ≤ acceptedSince st.log key start := by
  apply List.countP_mono_left
  intro s _ h
  obtain ⟨hkey, haccepted, hstart, -⟩ := of_decide_eq_true h
  exact decide_eq_true ⟨hkey, haccepted, hstart⟩

theorem key_ne_of_lastSection_eq_none {log : List Section} (h : lastSection log key = none)
    {e : Section} (he : e ∈ log) : e.key ≠ key := by
  have hne := List.find?_eq_none.1 h e (List.mem_reverse.2 he)
  simpa using hne

/-- Sections of the key ran in the past. -/
theorem RateInv.time_le_clock (h : RateInv rate key burst st) {e : Section} (he : e ∈ st.log)
    (hkey : e.key = key) : e.time ≤ st.clock := by
  cases hlast : lastSection st.log key with
  | none => exact absurd hkey (key_ne_of_lastSection_eq_none hlast he)
  | some s =>
      have hs := h.potential s hlast
      exact le_trans (hs.latest e he hkey) hs.le_clock

/-- The bucket of the key holds tokens. -/
theorem RateInv.tokens_nonneg (h : RateInv rate key burst st) {b : Bucket ℚ ℚ}
    (hb : st.zone.buckets.lookup key = some b) : 0 ≤ b.tokens := by
  cases hlast : lastSection st.log key with
  | none =>
      rw [h.fresh hlast] at hb
      cases hb
  | some s =>
      obtain ⟨tokens, heq, htok, -⟩ := (h.potential s hlast).bucket_eq
      rw [heq] at hb
      obtain rfl := Option.some.inj hb
      exact htok

/-- A timely section is credited at most the yield of the rate since the previous one. -/
theorem refilled_le_yield (hrate : 0 ≤ rate) {reading elapsed : ℚ} {b : Bucket ℚ ℚ}
    (helapsed : 0 ≤ elapsed)
    (htimely : reading - b.last ≤ elapsed ∨ (burst.toNat : ℚ) + 1 ≤ b.tokens + elapsed * rate) :
    refilled rate reading burst (some b) ≤ b.tokens + elapsed * rate := by
  rcases htimely with hread | hfull
  · have hsecs : exactSecs b.last reading ≤ elapsed := max_le helapsed hread
    have hmul := mul_le_mul_of_nonneg_right hsecs hrate
    refine le_trans (min_le_left _ _) ?_
    simp only [Option.getD_some]
    linarith
  · exact le_trans (refilled_le_capacity rate reading burst _) hfull

/-- What a timely section of the key finds in its bucket, for every window it lies in: together
with the calls accepted before in the window, at most the capacity and the yield of the rate. -/
theorem refilled_le (hrate : 0 ≤ rate) (h : RateInv rate key burst st) (reading : ℚ)
    (htimely : ∀ s, lastSection st.log key = some s →
      reading - s.reading ≤ st.clock - s.time ∨
        ∀ b, st.zone.buckets.lookup key = some b →
          (burst.toNat : ℚ) + 1 ≤ b.tokens + (st.clock - s.time) * rate)
    {start : ℚ} (hstart : start ≤ st.clock) :
    (acceptedSince st.log key start : ℚ) +
        refilled rate reading burst (st.zone.buckets.lookup key) ≤
      burst.toNat + 1 + (st.clock - start) * rate := by
  have hyield : 0 ≤ (st.clock - start) * rate := mul_nonneg (sub_nonneg.2 hstart) hrate
  have hcap := refilled_le_capacity rate reading burst (st.zone.buckets.lookup key)
  cases hlast : lastSection st.log key with
  -- The first section of the key finds a full bucket.
  | none =>
      have hzero : acceptedSince st.log key start = 0 :=
        acceptedSince_eq_zero fun e he hkey =>
          absurd hkey (key_ne_of_lastSection_eq_none hlast he)
      rw [hzero, Nat.cast_zero]
      linarith
  | some s =>
      have hs := h.potential s hlast
      obtain ⟨tokens, hbucket, -, hwindow⟩ := hs.bucket_eq
      by_cases hin : start ≤ s.time
      -- The previous section lies in the window too: its potential grows by the yield since.
      · have hcredit : refilled rate reading burst (st.zone.buckets.lookup key) ≤
            tokens + (st.clock - s.time) * rate := by
          rw [hbucket]
          apply refilled_le_yield hrate (sub_nonneg.2 hs.le_clock)
          exact (htimely s hlast).imp_right fun hfull => hfull _ hbucket
        have hbefore := hwindow start hin
        have hsplit : (st.clock - start) * rate =
            (s.time - start) * rate + (st.clock - s.time) * rate := by ring
        linarith
      -- Otherwise nothing was accepted in the window yet.
      · have hzero : acceptedSince st.log key start = 0 :=
          acceptedSince_eq_zero fun e he hkey =>
            lt_of_le_of_lt (hs.latest e he hkey) (not_le.1 hin)
        rw [hzero, Nat.cast_zero]
        linarith

/-- The bucket after a section of its key. -/
theorem lookup_runSection (hrate : st.zone.ratePerSec = rate)
    (order : IterOrder (String × Bucket ℚ ℚ)) (i : Nat) (c : WaitingCall) :
    (st.runSection order i c).zone.buckets.lookup c.key =
      some (serve exactSecs rate c.reading c.burst (st.zone.buckets.lookup c.key)).2 := by
  show (st.zone.allow exactSecs order c.reading c.key c.burst).2.buckets.lookup c.key = _
  rw [LimitReqZone.lookup_allow, if_pos rfl, hrate]

/-- The log after a section. -/
theorem log_runSection (hrate : st.zone.ratePerSec = rate)
    (order : IterOrder (String × Bucket ℚ ℚ)) (i : Nat) (c : WaitingCall) :
    (st.runSection order i c).log = st.log ++ [⟨c.key, st.clock, c.reading,
      (serve exactSecs rate c.reading c.burst (st.zone.buckets.lookup c.key)).1⟩] := by
  have hanswer : (st.zone.allow exactSecs order c.reading c.key c.burst).1 =
      (serve exactSecs rate c.reading c.burst (st.zone.buckets.lookup c.key)).1 := by
    rw [LimitReqZone.allow_fst, hrate]
  rw [← hanswer]
  rfl

/-- The window bound with a new section: its answer and the tokens left make up the refill. -/
theorem acceptedSince_runSection_le (hrate : 0 ≤ rate) {c : WaitingCall}
    (h : RateInv rate c.key c.burst st) (order : IterOrder (String × Bucket ℚ ℚ)) (i : Nat)
    (htimely : ∀ s, lastSection st.log c.key = some s →
      c.reading - s.reading ≤ st.clock - s.time ∨
        ∀ b, st.zone.buckets.lookup c.key = some b →
          (c.burst.toNat : ℚ) + 1 ≤ b.tokens + (st.clock - s.time) * rate)
    {start : ℚ} (hstart : start ≤ st.clock) :
    (acceptedSince (st.runSection order i c).log c.key start : ℚ) +
        (serve exactSecs rate c.reading c.burst (st.zone.buckets.lookup c.key)).2.tokens ≤
      c.burst.toNat + 1 + (st.clock - start) * rate := by
  have hle := refilled_le hrate h c.reading htimely hstart
  rw [← serve_tokens rate c.reading c.burst (st.zone.buckets.lookup c.key)] at hle
  rw [log_runSection h.rate_eq, acceptedSince_concat, Nat.cast_add]
  simp only [hstart, true_and, and_true]
  linarith

/-- A timely section of the key keeps the invariant. -/
theorem runSection_inv (hrate : 0 ≤ rate) (h : RateInv rate key burst st)
    (order : IterOrder (String × Bucket ℚ ℚ)) (i : Nat) {c : WaitingCall} (hkey : c.key = key)
    (hburst : c.burst = burst)
    (htimely : ∀ s, lastSection st.log key = some s →
      c.reading - s.reading ≤ st.clock - s.time ∨
        ∀ b, st.zone.buckets.lookup key = some b →
          (burst.toNat : ℚ) + 1 ≤ b.tokens + (st.clock - s.time) * rate) :
    RateInv rate key burst (st.runSection order i c) := by
  subst hkey hburst
  have hlog := log_runSection h.rate_eq order i c
  have hpos : 0 ≤ (serve exactSecs rate c.reading c.burst
      (st.zone.buckets.lookup c.key)).2.tokens :=
    serve_tokens_nonneg hrate c.reading c.burst fun _ hb => h.tokens_nonneg hb
  have hwindow : ∀ start ≤ st.clock, _ :=
    fun start hstart => acceptedSince_runSection_le hrate h order i htimely hstart
  refine ⟨h.rate_eq, ?_, ?_, ?_, ?_⟩
  · intro d hd
    exact h.waiting d (List.mem_of_mem_eraseIdx hd)
  · intro hnone
    rw [hlog, lastSection_concat, if_pos rfl] at hnone
    cases hnone
  · intro s hs
    rw [hlog, lastSection_concat, if_pos rfl] at hs
    obtain rfl := Option.some.inj hs
    refine ⟨le_rfl, ?_, _, ?_, hpos, hwindow⟩
    · intro e he hek
      rw [hlog] at he
      rcases List.mem_append.1 he with he | he
      · exact h.time_le_clock he hek
      · rw [List.mem_singleton.1 he]
    · rw [lookup_runSection h.rate_eq]
      congr 1
      exact Bucket.ext rfl (serve_last exactSecs rate c.reading c.burst _)
  · intro start T hT
    by_cases hin : start ≤ st.clock ∧ st.clock ≤ start + T
    · have hle := hwindow start hin.1
      have hcount : ((st.runSection order i c).acceptedIn c.key start (start + T) : ℚ) ≤
          acceptedSince (st.runSection order i c).log c.key start := by
        exact_mod_cast acceptedIn_le_acceptedSince _ _ _ _
      have hyield : (st.clock - start) * rate ≤ rate * T := by
        rw [mul_comm rate T]
        exact mul_le_mul_of_nonneg_right (by linarith [hin.2]) hrate
      linarith
    -- The section ran outside the window.
    · have hsame : (st.runSection order i c).acceptedIn c.key start (start + T) =
          st.acceptedIn c.key start (start + T) := by
        rw [CallSystem.acceptedIn, hlog, List.countP_append, List.countP_singleton,
          CallSystem.acceptedIn]
        simp [hin]
      rw [hsame]
      exact h.bounded start T hT

/-- A section of another key that does not evict the key keeps the invariant. -/
theorem runSection_inv_other (h : RateInv rate key burst st)
    {order : IterOrder (String × Bucket ℚ ℚ)} (i : Nat) {c : WaitingCall} (hkey : c.key ≠ key)
    (hkept : st.zone.evicted order c.key ≠ some key) :
    RateInv rate key burst (st.runSection order i c) := by
  have hbucket : (st.runSection order i c).zone.buckets.lookup key =
      st.zone.buckets.lookup key := by
    show (st.zone.allow exactSecs order c.reading c.key c.burst).2.buckets.lookup key = _
    rw [LimitReqZone.lookup_allow, if_neg (Ne.symm hkey), if_neg hkept]
  have hlast : lastSection (st.runSection order i c).log key = lastSection st.log key := by
    show lastSection (st.log ++ [_]) key = _
    rw [lastSection_concat, if_neg hkey]
  have hsince : ∀ start, acceptedSince (st.runSection order i c).log key start =
      acceptedSince st.log key start := by
    intro start
    show acceptedSince (st.log ++ [_]) key start = _
    rw [acceptedSince_concat, if_neg (fun hboth => hkey hboth.1), Nat.add_zero]
  refine ⟨h.rate_eq, ?_, ?_, ?_, ?_⟩
  · intro d hd
    exact h.waiting d (List.mem_of_mem_eraseIdx hd)
  · rw [hlast, hbucket]
    exact h.fresh
  · intro s hs
    rw [hlast] at hs
    have hp := h.potential s hs
    refine ⟨hp.le_clock, ?_, ?_⟩
    · intro e he hek
      rcases List.mem_append.1 he with he | he
      · exact hp.latest e he hek
      · rw [List.mem_singleton.1 he] at hek
        exact absurd hek hkey
    · simp only [hbucket, hsince]
      exact hp.bucket_eq
  · intro start T hT
    have hsame : (st.runSection order i c).acceptedIn key start (start + T) =
        st.acceptedIn key start (start + T) := by
      show List.countP _ (st.log ++ [_]) = _
      rw [List.countP_append, List.countP_singleton]
      simp [hkey, CallSystem.acceptedIn]
    rw [hsame]
    exact h.bounded start T hT

/-- Every step under the conditions keeps the invariant. -/
theorem step_rateInv (hrate : 0 ≤ rate) (h : RateInv rate key burst st) {e : CallEvent}
    (hburst : st.SameBurst key burst e) (hkept : st.Keeps key e) (htimely : st.Timely key e) :
    RateInv rate key burst (st.step e) := by
  cases e with
  | tick t =>
      refine ⟨h.rate_eq, h.waiting, h.fresh, ?_, h.bounded⟩
      intro s hs
      have hp := h.potential s hs
      exact ⟨le_trans hp.le_clock (le_max_left _ _), hp.latest, hp.bucket_eq⟩
  | read k b =>
      refine ⟨h.rate_eq, ?_, h.fresh, h.potential, h.bounded⟩
      intro c hc hck
      rcases List.mem_append.1 hc with hc | hc
      · exact h.waiting c hc hck
      · obtain rfl := List.mem_singleton.1 hc
        exact hburst hck
  | enter order i =>
      cases hget : st.waiting[i]? with
      | none =>
          simp only [CallSystem.step, hget]
          exact h
      | some c =>
          simp only [CallSystem.step, hget]
          by_cases hkey : c.key = key
          · have hcb : c.burst = burst := h.waiting c (List.mem_of_getElem? hget) hkey
            apply runSection_inv hrate h order i hkey hcb
            intro s hs
            have hread := htimely c hget hkey s hs
            rw [hcb, h.rate_eq] at hread
            exact hread
          · exact runSection_inv_other h i hkey (hkept c hget)

end Step

theorem init_rateInv {rate : ℚ} (hrate : 0 ≤ rate) (keyTemplate : Template) (maxEntries : Nat)
    (key : String) (burst : UInt32) :
    RateInv rate key burst (CallSystem.init keyTemplate rate maxEntries) where
  rate_eq := rfl
  waiting := by intro c hc; cases hc
  fresh := fun _ => rfl
  potential := by intro s hs; cases hs
  bounded := by
    intro start T hT
    show ((0 : ℕ) : ℚ) ≤ _
    positivity

/-- **The rate bound.** In exact arithmetic, for a rate that is not negative, a key that is never
evicted and whose calls all have one burst: when every section of the key is timely, at most
`burst + 1 + rate * T` calls of the key are accepted in any window of length `T`, in every state
of the run. -/
theorem rate_bounded_of_timely (keyTemplate : Template) {rate : ℚ} (hrate : 0 ≤ rate)
    (maxEntries : Nat) (key : String) (burst : UInt32) (es : List CallEvent)
    (hburst : AllSteps CallSystem.step (CallSystem.SameBurst key burst)
      (CallSystem.init keyTemplate rate maxEntries) es)
    (hkept : AllSteps CallSystem.step (CallSystem.Keeps key)
      (CallSystem.init keyTemplate rate maxEntries) es)
    (htimely : AllSteps CallSystem.step (CallSystem.Timely key)
      (CallSystem.init keyTemplate rate maxEntries) es) :
    Always CallSystem.step (CallSystem.RateBounded rate key burst)
      (CallSystem.init keyTemplate rate maxEntries) es := by
  have hinv : Always CallSystem.step (RateInv rate key burst)
      (CallSystem.init keyTemplate rate maxEntries) es := by
    refine always_of_allSteps (P := fun (st : CallSystem) e =>
      st.SameBurst key burst e ∧ st.Keeps key e ∧ st.Timely key e) ?_ ?_ ?_
    · intro st e h hstep
      exact step_rateInv hrate h hstep.1 hstep.2.1 hstep.2.2
    · exact init_rateInv hrate keyTemplate maxEntries key burst
    · intro pre e post heq
      exact ⟨hburst pre e post heq, hkept pre e post heq, htimely pre e post heq⟩
  intro pre post heq
  exact (hinv pre post heq).bounded

/-- A key that is alone in its zone is never evicted. -/
theorem keeps_of_single_key (keyTemplate : Template) (rate : ℚ) (maxEntries : Nat) {key : String}
    {es : List CallEvent} (h : ∀ k b, CallEvent.read k b ∈ es → k = key) :
    AllSteps CallSystem.step (CallSystem.Keeps key)
      (CallSystem.init keyTemplate rate maxEntries) es := by
  -- All waiting calls are for the key, so a section never finds it stored and its own key absent.
  have hwaiting : ∀ pre, (∀ k b, CallEvent.read k b ∈ pre → k = key) →
      ∀ c ∈ (run CallSystem.step (CallSystem.init keyTemplate rate maxEntries) pre).waiting,
        c.key = key := by
    intro pre
    induction pre using List.reverseRecOn with
    | nil =>
        intro _ c hc
        cases hc
    | append_singleton pre e ih =>
        intro hpre c hc
        have hbefore := ih fun k b hk => hpre k b (List.mem_append_left _ hk)
        rw [run_concat] at hc
        cases e with
        | tick t => exact hbefore c hc
        | read k b =>
            rcases List.mem_append.1 hc with hc | hc
            · exact hbefore c hc
            · obtain rfl := List.mem_singleton.1 hc
              exact hpre k b (List.mem_append_right _ (List.mem_singleton.2 rfl))
        | enter order i =>
            simp only [CallSystem.step] at hc
            split at hc
            · exact hbefore c (List.mem_of_mem_eraseIdx hc)
            · exact hbefore c hc
  intro pre e post heq
  cases e with
  | tick t => trivial
  | read k b => trivial
  | enter order i =>
      intro c hc hev
      have hkey : c.key = key := by
        apply hwaiting pre _ c (List.mem_of_getElem? hc)
        intro k b hk
        exact h k b (heq ▸ List.mem_append_left _ hk)
      obtain ⟨hnone, b, hb, -⟩ := LimitReqZone.evicted_oldest hev
      rw [hkey, hb] at hnone
      cases hnone

/-- Three calls without burst: the first reads the clock at 0, the others at 10. All sections run
at 10, first that of the second call, then that of the first, then that of the third. -/
def overtaking : List CallEvent :=
  [.read "k" 0, .tick 10, .read "k" 0, .read "k" 0, .enter IterOrder.stored 1,
    .enter IterOrder.stored 0, .enter IterOrder.stored 0]

/-- Two calls are accepted at one instant, although there is no burst: the late section of the
first call moved the bucket back by ten seconds. -/
theorem overtaking_exceeds_rate :
    AllSteps CallSystem.step (CallSystem.SameBurst "k" 0) (CallSystem.init ⟨[]⟩ 1 16384)
        overtaking ∧
      AllSteps CallSystem.step (CallSystem.Keeps "k") (CallSystem.init ⟨[]⟩ 1 16384) overtaking ∧
      ¬ Always CallSystem.step (CallSystem.RateBounded 1 "k" 0) (CallSystem.init ⟨[]⟩ 1 16384)
        overtaking := by
  refine ⟨?_, keeps_of_single_key _ _ _ (by simp [overtaking]), ?_⟩
  · repeat' first
      | exact allSteps_nil
      | refine allSteps_cons.2 ⟨by simp [CallSystem.SameBurst], ?_⟩
  · intro h
    have hend := h overtaking [] (List.append_nil _).symm 10 0 le_rfl
    exact absurd hend (by decide +kernel)

/-- Two calls that run their sections as soon as they have read the clock. -/
def prompt : List CallEvent :=
  [.read "k" 1, .enter IterOrder.stored 0, .tick 5, .read "k" 1, .enter IterOrder.stored 0]

/-- The prompt calls are timely, and the bound holds. -/
theorem rate_bounded_of_timely_prompt :
    Always CallSystem.step (CallSystem.RateBounded 1 "k" 1) (CallSystem.init ⟨[]⟩ 1 16384)
      prompt := by
  apply rate_bounded_of_timely
  · exact zero_le_one
  · repeat' first
      | exact allSteps_nil
      | refine allSteps_cons.2 ⟨by simp [CallSystem.SameBurst], ?_⟩
  · exact keeps_of_single_key _ _ _ (by simp [prompt])
  · refine allSteps_cons.2 ⟨trivial, allSteps_cons.2 ⟨?_, allSteps_cons.2 ⟨trivial,
      allSteps_cons.2 ⟨trivial, allSteps_cons.2 ⟨?_, allSteps_nil⟩⟩⟩⟩⟩
    · intro c _ _ s hs
      cases hs
    · intro c hc _ s hs
      obtain rfl := Option.some.inj hc
      obtain rfl := Option.some.inj hs
      left
      decide +kernel

end Elrond.Limit
