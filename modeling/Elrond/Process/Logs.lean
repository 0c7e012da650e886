import Elrond.Lib.Appenders
import Elrond.Lib.Fallible
import Elrond.Lib.Text

/-!
# Log files and their rotation

Records with the target `access` go to the access log, all others to the error log; each is a file,
if the configuration names one, and otherwise standard output or standard error. A record is written
by `write_all`, that is by as many writes as it takes, and each locks the file on its own. On
`SIGUSR1` the logs are opened again under their paths, one after the other, and the new file takes
the place of the old one in a second step. `logrotate` renames the files, and other programs create
and remove names, at any moment.

Whatever the order of all this, the files a log has been written to, read in the order of their
creation, hold what was logged, each byte once and in order (`rotation_keeps_log`), and a file that
was renamed before a reopen that succeeds is never written after it (`rotated_file_final`).
-/

set_option autoImplicit false

namespace Elrond.Process

open Elrond.Lib Elrond.Lib.Text

/-! ## Logs -/

/-- The two streams of records. -/
inductive LogStream where
  | access
  | error
deriving DecidableEq, Repr

/-- The filters of the two layers. -/
def streamOf (target : String) : LogStream := if target = "access" then .access else .error

/-- A log in a file, which is replaced as a whole. -/
structure ReopenLog where
  path : String
  file : Nat

/-- A record that `write_all` is writing: all of it, and what is left. A write that fails ends it. -/
structure LogLine where
  stream : LogStream
  bytes : List UInt8
  rest : List UInt8
  failed : Bool

/-- What one write has written of a record, and the file, if it went to one. -/
structure Chunk where
  stream : LogStream
  line : Nat
  file : Option Nat
  bytes : List UInt8

/-- The logs, the records, the logs that a reopen under way has still to open, the file it has
opened and not yet put in place, and all that has been written. -/
structure Logging where
  disk : Disk String UInt8
  accessLog : Option ReopenLog
  errorLog : Option ReopenLog
  lines : List LogLine
  reopening : List LogStream
  inHand : Option (LogStream × Nat)
  stderr : List UInt8
  record : List Chunk

/-- A step of a thread that logs, of `main` as it handles `SIGUSR1`, or of another program. -/
inductive LogStep where
  | event (target text : String)
  | write (line count : Nat)
  | usr1
  | reopen (failure : Option String)
  | swap
  | create (path : String)
  | rename (path path' : String)
  | remove (path : String)

/-- The step moves no file onto the path of a log. -/
def LogStep.Keeps (paths : LogStream → Option String) : LogStep → Prop
  | .rename _ q => ∀ t, paths t ≠ some q
  | _ => True

namespace Logging

/-- The file log of a stream. -/
def log (s : Logging) : LogStream → Option ReopenLog
  | .access => s.accessLog
  | .error => s.errorLog

/-- `REOPENABLE`: the access log is registered first. -/
def registered (s : Logging) : List LogStream :=
  (if s.accessLog.isSome then [.access] else []) ++ if s.errorLog.isSome then [.error] else []

/-- The file of a log is replaced. -/
def setFile (s : Logging) (t : LogStream) (i : Nat) : Logging :=
  match t with
  | .access => { s with accessLog := s.accessLog.map fun l => { l with file := i } }
  | .error => { s with errorLog := s.errorLog.map fun l => { l with file := i } }

/-- What `reopen_all` prints for a log that it cannot open. -/
def reopenComplaint (path e : String) : String :=
  s!"elrond: failed to reopen log '{path}': {e}\n"

/-- One `write` of a record: `count` bytes of what is left go to the file of its stream, and with
none written `write_all` gives up. -/
def writeLine (s : Logging) (k count : Nat) (l : LogLine) : Logging :=
  if count = 0 then { s with lines := s.lines.set k { l with rest := [], failed := true } }
  else
    { s with
      lines := s.lines.set k { l with rest := l.rest.drop count }
      disk :=
        match s.log l.stream with
        | some log => s.disk.append log.file (l.rest.take count)
        | none => s.disk
      record := s.record ++
        [⟨l.stream, k, (s.log l.stream).map ReopenLog.file, l.rest.take count⟩] }

/-- `ReopenLog::reopen` for the next log, up to the file that it opens, or the reason why it cannot. -/
def openNext (s : Logging) (t : LogStream) (rest : List LogStream) (failure : Option String) :
    Logging :=
  match s.log t, failure with
  | some l, none =>
      { s with
        reopening := rest
        disk := (s.disk.openAppend l.path).2
        inHand := some (t, (s.disk.openAppend l.path).1) }
  | some l, some e =>
      { s with
        reopening := rest
        stderr := s.stderr ++ utf8Bytes (reopenComplaint l.path e) }
  | none, _ => { s with reopening := rest }

/-- The state after a step; a step that is not possible leaves it as it is. -/
def step (s : Logging) : LogStep → Logging
  | .event target text =>
      { s with
        lines := s.lines ++ [⟨streamOf target, utf8Bytes text, utf8Bytes text, false⟩] }
  | .write k count =>
      match s.lines[k]? with
      | some l => if l.rest = [] then s else s.writeLine k count l
      | none => s
  | .usr1 =>
      if s.reopening = [] ∧ s.inHand = none then { s with reopening := s.registered } else s
  | .reopen failure =>
      match s.inHand, s.reopening with
      | none, t :: rest => s.openNext t rest failure
      | _, _ => s
  | .swap =>
      match s.inHand with
      | some (t, i) => { s.setFile t i with inHand := none }
      | none => s
  | .create p => { s with disk := (s.disk.openAppend p).2 }
  | .rename p q => { s with disk := s.disk.rename p q }
  | .remove p => { s with disk := s.disk.remove p }

end Logging

/-- `ReopenLog::new`, with the reason if the path cannot be opened. -/
def ReopenLog.new (path : String) (failure : Option String) (d : Disk String UInt8) :
    Except String (ReopenLog × Disk String UInt8) :=
  match failure with
  | some e => .error e
  | none => .ok (⟨path, (d.openAppend path).1⟩, (d.openAppend path).2)

/-- The log of one stream. -/
def installLog (path failure : Option String) (d : Disk String UInt8) :
    Except String (Option ReopenLog × Disk String UInt8) :=
  match path with
  | none => .ok (none, d)
  | some p => (ReopenLog.new p failure d).map fun r => (some r.1, r.2)

/-- `logging::install`: the access log, then the error log. -/
def install (accessLog errorLog : Option String) (failure : LogStream → Option String)
    (d : Disk String UInt8) : Except String Logging := do
  let (access, d) ← installLog accessLog (failure .access) d
  let (error, d) ← installLog errorLog (failure .error) d
  return { disk := d, accessLog := access, errorLog := error, lines := [], reopening := [],
           inHand := none, stderr := [], record := [] }

/-! ## The logs as appenders -/

namespace Logging

/-- The path of a stream's file log. -/
def paths (s : Logging) (t : LogStream) : Option String := (s.log t).map ReopenLog.path

/-- What the logs hold, have opened and have written, stream by stream. -/
def appenders (s : Logging) : Appenders LogStream String UInt8 where
  disk := s.disk
  held t := (s.log t).map ReopenLog.file
  opened t := s.inHand.bind fun h => if h.1 = t then some h.2 else none
  record := s.record.filterMap fun c => c.file.map fun i => (c.stream, i, c.bytes)

/-- What a step is to the appenders. -/
def appends (s : Logging) : LogStep → List (Appenders.Event LogStream String UInt8)
  | .write k count =>
      match s.lines[k]? with
      | some l => if l.rest = [] ∨ count = 0 then [] else [.write l.stream (l.rest.take count)]
      | none => []
  | .reopen none =>
      match s.inHand, s.reopening with
      | none, t :: _ => [.openFile t]
      | _, _ => []
  | .swap =>
      match s.inHand with
      | some (t, _) => [.swap t]
      | none => []
  | .create p => [.create p]
  | .rename p q => [.rename p q]
  | .remove p => [.remove p]
  | _ => []

/-- A file in hand is that of a log, and what is written for a stream with a log goes to a file. -/
structure Wf (s : Logging) : Prop where
  inHand : ∀ t i, s.inHand = some (t, i) → s.log t ≠ none
  record : ∀ c ∈ s.record, c.file = none → s.log c.stream = none

theorem log_setFile (s : Logging) (t u : LogStream) (i : Nat) :
    (s.setFile t i).log u =
      if u = t then (s.log u).map fun l => { l with file := i } else s.log u := by
  cases t <;> cases u <;> rfl

theorem paths_setFile (s : Logging) (t : LogStream) (i : Nat) : (s.setFile t i).paths = s.paths := by
  funext u
  rw [paths, log_setFile, paths]
  split
  · rw [Option.map_map]
    rfl
  · rfl

/-- No step gives a log another path. -/
theorem paths_step (s : Logging) (e : LogStep) : (s.step e).paths = s.paths := by
  cases e with
  | event target text => rfl
  | write k count =>
      simp only [step]
      split
      · split
        · rfl
        · rw [writeLine]
          split <;> rfl
      · rfl
  | usr1 =>
      simp only [step]
      split <;> rfl
  | reopen failure =>
      simp only [step]
      split
      · simp only [openNext]
        split <;> rfl
      · rfl
  | swap =>
      simp only [step]
      split
      · exact paths_setFile s _ _
      · rfl
  | create p => rfl
  | rename p q => rfl
  | remove p => rfl

theorem log_eq_none_iff (s : Logging) (t : LogStream) : s.log t = none ↔ s.paths t = none := by
  rw [paths, Option.map_eq_none_iff]

theorem Wf.inHand_step {s : Logging} (hs : s.Wf) (e : LogStep) {t : LogStream} {i : Nat}
    (hinhand : (s.step e).inHand = some (t, i)) : (s.step e).log t ≠ none := by
  rw [ne_eq, log_eq_none_iff, paths_step, ← log_eq_none_iff]
  cases e with
  | write k count =>
      refine hs.inHand t i ?_
      simp only [Logging.step] at hinhand
      split at hinhand
      · split at hinhand
        · exact hinhand
        · rw [writeLine] at hinhand
          split at hinhand <;> exact hinhand
      · exact hinhand
  | usr1 =>
      refine hs.inHand t i ?_
      simp only [Logging.step] at hinhand
      split at hinhand <;> exact hinhand
  | reopen failure =>
      simp only [Logging.step] at hinhand
      split at hinhand
      · simp only [openNext] at hinhand
        split at hinhand
        · rename_i hlog
          obtain ⟨rfl, -⟩ := Prod.mk.inj (Option.some.inj hinhand)
          rw [hlog]
          exact Option.some_ne_none _
        · exact hs.inHand t i hinhand
        · exact hs.inHand t i hinhand
      · exact hs.inHand t i hinhand
  | swap =>
      simp only [Logging.step] at hinhand
      split at hinhand
      · cases hinhand
      · exact hs.inHand t i hinhand
  | event target text => exact hs.inHand t i hinhand
  | create p => exact hs.inHand t i hinhand
  | rename p q => exact hs.inHand t i hinhand
  | remove p => exact hs.inHand t i hinhand

theorem Wf.step {s : Logging} (hs : s.Wf) (e : LogStep) : (s.step e).Wf where
  inHand := fun _ _ h => hs.inHand_step e h
  record := by
    intro c hc hfile
    rw [log_eq_none_iff, paths_step, ← log_eq_none_iff]
    have hbefore : c ∈ s.record → s.log c.stream = none := fun hc => hs.record c hc hfile
    cases e with
    | write k count =>
        simp only [Logging.step] at hc
        split at hc
        · split at hc
          · exact hbefore hc
          · rw [writeLine] at hc
            split at hc
            · exact hbefore hc
            · rcases List.mem_append.1 hc with hc | hc
              · exact hbefore hc
              · rw [List.mem_singleton.1 hc] at hfile ⊢
                exact Option.map_eq_none_iff.1 hfile
        · exact hbefore hc
    | usr1 =>
        simp only [Logging.step] at hc
        split at hc <;> exact hbefore hc
    | reopen failure =>
        simp only [Logging.step] at hc
        split at hc
        · simp only [openNext] at hc
          split at hc <;> exact hbefore hc
        · exact hbefore hc
    | swap =>
        simp only [Logging.step] at hc
        split at hc
        · rename_i t i _
          have hrecord : (s.setFile t i).record = s.record := by cases t <;> rfl
          exact hbefore (hrecord ▸ hc)
        · exact hbefore hc
    | event target text => exact hbefore hc
    | create p => exact hbefore hc
    | rename p q => exact hbefore hc
    | remove p => exact hbefore hc

/-- Writing a part of a record appends it to the file of its stream, if there is one. -/
theorem appenders_writeLine (s : Logging) (k : Nat) {count : Nat} (hcount : count ≠ 0) (l : LogLine) :
    (s.writeLine k count l).appenders =
      Appenders.step s.paths s.appenders (.write l.stream (l.rest.take count)) := by
  have hheld : s.appenders.held l.stream = (s.log l.stream).map ReopenLog.file := rfl
  have hrecord : ∀ c : Chunk, (s.record ++ [c]).filterMap
      (fun c => c.file.map fun i => (c.stream, i, c.bytes)) =
        s.appenders.record ++ (c.file.map fun i => (c.stream, i, c.bytes)).toList := by
    intro c
    rw [List.filterMap_append, List.filterMap_cons, List.filterMap_nil]
    cases c.file with
    | none => rfl
    | some i => rfl
  rw [writeLine, if_neg hcount, appenders]
  simp only [hrecord]
  cases hlog : s.log l.stream with
  | none =>
      simp only [Appenders.step, hheld, hlog, Option.map_none, Option.toList_none, List.append_nil]
      rfl
  | some f =>
      simp only [Appenders.step, hheld, hlog, Option.map_some, Option.toList_some]
      rfl

/-- Opening the next log is opening its file. -/
theorem appenders_openNext {s : Logging} (hinhand : s.inHand = none) (t : LogStream)
    (rest : List LogStream) :
    (s.openNext t rest none).appenders = Appenders.step s.paths s.appenders (.openFile t) := by
  simp only [openNext]
  cases hlog : s.log t with
  | none =>
      have hpath : s.paths t = none := by rw [paths, hlog, Option.map_none]
      simp only [Appenders.step, hpath]
      rfl
  | some l =>
      have hpath : s.paths t = some l.path := by rw [paths, hlog, Option.map_some]
      have hopened : (fun u => if t = u then some (s.disk.openAppend l.path).1 else none) =
          Function.update s.appenders.opened t (some (s.disk.openAppend l.path).1) := by
        funext u
        rw [Function.update_apply]
        by_cases htu : t = u
        · rw [if_pos htu, if_pos htu.symm]
        · rw [if_neg htu, if_neg (Ne.symm htu)]
          simp only [appenders, hinhand, Option.bind_none]
      simp only [Appenders.step, hpath]
      rw [show s.appenders.disk = s.disk from rfl, ← hopened]
      rfl

/-- Putting the file in hand in place is taking it. -/
theorem appenders_swap {s : Logging} (hs : s.Wf) {t : LogStream} {i : Nat}
    (hinhand : s.inHand = some (t, i)) :
    ({ s.setFile t i with inHand := none } : Logging).appenders =
      Appenders.step s.paths s.appenders (.swap t) := by
  have hopened : s.appenders.opened = fun u => if t = u then some i else none := by
    funext u
    simp only [appenders, hinhand, Option.bind_some]
  have hheld : (fun u => ((s.setFile t i).log u).map ReopenLog.file) =
      Function.update s.appenders.held t (some i) := by
    funext u
    rw [log_setFile, Function.update_apply]
    split
    · rename_i hut
      obtain ⟨l, hl⟩ := Option.ne_none_iff_exists'.1 (hs.inHand t i hinhand)
      rw [hut, hl]
      rfl
    · rfl
  have hnone : (fun _ => none) = Function.update s.appenders.opened t none := by
    funext u
    rw [hopened, Function.update_apply]
    split
    · rfl
    · rename_i hut
      rw [if_neg (Ne.symm hut)]
  have hdisk : (s.setFile t i).disk = s.disk := by cases t <;> rfl
  have hrecord : (s.setFile t i).record = s.record := by cases t <;> rfl
  simp only [Appenders.step, hopened, if_true]
  rw [← hopened, ← hheld, ← hnone]
  simp only [appenders, hdisk, hrecord]
  rfl

/-- The appenders take the steps of the logs. -/
theorem appenders_step {s : Logging} (hs : s.Wf) (e : LogStep) :
    (s.step e).appenders = run (Appenders.step s.paths) s.appenders (s.appends e) := by
  cases e with
  | event target text => rfl
  | write k count =>
      simp only [step, appends]
      cases hline : s.lines[k]? with
      | none => rfl
      | some l =>
          by_cases hrest : l.rest = []
          · simp only [hrest]
            rfl
          · by_cases hcount : count = 0
            · simp only [hrest, hcount, writeLine]
              rfl
            · simp only [hrest, hcount, or_self, if_false]
              exact appenders_writeLine s k hcount l
  | usr1 =>
      simp only [step]
      split <;> rfl
  | reopen failure =>
      simp only [step]
      cases hinhand : s.inHand with
      | some h =>
          cases failure <;> simp only [appends, hinhand, run_nil]
      | none =>
          cases hrest : s.reopening with
          | nil => cases failure <;> simp only [appends, hinhand, hrest, run_nil]
          | cons t rest =>
              cases failure with
              | none =>
                  simp only [appends, hinhand, hrest, run_cons, run_nil]
                  exact appenders_openNext hinhand t rest
              | some e =>
                  simp only [appends, run_nil, openNext]
                  cases s.log t <;> rfl
  | swap =>
      simp only [step, appends]
      cases hinhand : s.inHand with
      | none => rfl
      | some h => exact appenders_swap hs hinhand
  | create p => rfl
  | rename p q => rfl
  | remove p => rfl

/-! ## Runs -/

theorem keeps_appends {s : Logging} {e : LogStep} (he : e.Keeps s.paths) :
    ∀ a ∈ s.appends e, a.Keeps s.paths := by
  intro a ha
  cases e with
  | rename p q =>
      rw [List.mem_singleton.1 ha]
      exact he
  | write k count =>
      simp only [appends] at ha
      split at ha
      · split at ha
        · cases ha
        · rw [List.mem_singleton.1 ha]
          trivial
      · cases ha
  | reopen failure =>
      cases failure with
      | some e => cases ha
      | none =>
          simp only [appends] at ha
          split at ha
          · rw [List.mem_singleton.1 ha]
            trivial
          · cases ha
  | swap =>
      simp only [appends] at ha
      split at ha
      · rw [List.mem_singleton.1 ha]
        trivial
      · cases ha
  | create p =>
      rw [List.mem_singleton.1 ha]
      trivial
  | remove p =>
      rw [List.mem_singleton.1 ha]
      trivial
  | event target text => cases ha
  | usr1 => cases ha

theorem paths_run (s : Logging) (es : List LogStep) : (run step s es).paths = s.paths :=
  run_invariant (Q := fun s' => s'.paths = s.paths) (fun s' e h => (paths_step s' e).trans h) rfl es

/-- A run of the logs is one of the appenders. -/
theorem Wf.run {s : Logging} (hs : s.Wf) {es : List LogStep} (hes : ∀ e ∈ es, e.Keeps s.paths) :
    (run Logging.step s es).Wf ∧ ∃ as : List (Appenders.Event LogStream String UInt8),
      (∀ a ∈ as, a.Keeps s.paths) ∧
        (Lib.run Logging.step s es).appenders = Lib.run (Appenders.step s.paths) s.appenders as := by
  induction es generalizing s with
  | nil => exact ⟨hs, [], (fun a ha => by cases ha), rfl⟩
  | cons e es ih =>
      have he := keeps_appends (hes e List.mem_cons_self)
      have hrest : ∀ e' ∈ es, e'.Keeps (s.step e).paths := by
        intro e' he'
        rw [paths_step]
        exact hes e' (List.mem_cons_of_mem _ he')
      obtain ⟨hend, as, has, heq⟩ := ih (hs.step e) hrest
      rw [paths_step] at has heq
      refine ⟨hend, s.appends e ++ as, ?_, ?_⟩
      · intro a ha
        exact (List.mem_append.1 ha).elim (he a) (has a)
      · rw [run_cons, heq, appenders_step hs e, run_append]

end Logging

/-- The paths that the configuration names. -/
def logPaths (accessLog errorLog : Option String) : LogStream → Option String
  | .access => accessLog
  | .error => errorLog

/-- Installing a log is opening its file and taking it. -/
theorem installLog_appenders {path failure : Option String} {d d' : Disk String UInt8}
    {log : Option ReopenLog} (h : installLog path failure d = .ok (log, d'))
    {paths : LogStream → Option String} {t : LogStream} (ht : paths t = path)
    {a : Appenders LogStream String UInt8} (hdisk : a.disk = d) (hheld : a.held t = none)
    (hopened : a.opened t = none) :
    log.map ReopenLog.path = path ∧
      run (Appenders.step paths) a [.openFile t, .swap t] =
        { a with disk := d', held := Function.update a.held t (log.map ReopenLog.file) } := by
  cases path with
  | none =>
      obtain ⟨rfl, rfl⟩ : none = log ∧ d = d' := by simpa [installLog] using h
      refine ⟨rfl, ?_⟩
      rw [Appenders.run_openFile_swap_none ht hopened, Option.map_none, ← hheld,
        Function.update_eq_self, ← hdisk]
  | some p =>
      cases failure with
      | some e => simp [installLog, ReopenLog.new, Except.map] at h
      | none =>
          obtain ⟨rfl, rfl⟩ : some ⟨p, (d.openAppend p).1⟩ = log ∧ (d.openAppend p).2 = d' := by
            simpa [installLog, ReopenLog.new, Except.map] using h
          refine ⟨rfl, ?_⟩
          have hsame : Function.update a.opened t none = a.opened := by
            rw [← hopened, Function.update_eq_self]
          rw [Appenders.run_openFile_swap a ht, hsame, hdisk, Option.map_some]

/-- Installing the logs is opening their files and taking them. -/
theorem install_appenders {accessLog errorLog : Option String}
    {failure : LogStream → Option String} {d : Disk String UInt8} {s : Logging}
    (h : install accessLog errorLog failure d = .ok s) :
    s.paths = logPaths accessLog errorLog ∧ s.Wf ∧
      s.appenders = run (Appenders.step (logPaths accessLog errorLog)) (Appenders.init d)
        ([.openFile .access, .swap .access] ++ [.openFile .error, .swap .error]) := by
  rw [install] at h
  obtain ⟨⟨access, d₁⟩, haccess, h⟩ := bind_eq_ok.1 h
  obtain ⟨⟨error, d₂⟩, herror, h⟩ := bind_eq_ok.1 h
  obtain rfl := Except.ok.inj h
  have haccessPath : logPaths accessLog errorLog .access = accessLog := rfl
  have herrorPath : logPaths accessLog errorLog .error = errorLog := rfl
  obtain ⟨hpath, hrun⟩ :=
    installLog_appenders haccess haccessPath (a := Appenders.init d) rfl rfl rfl
  obtain ⟨hpath', hrun'⟩ := installLog_appenders herror herrorPath (a := { Appenders.init d with
    disk := d₁, held := Function.update (Appenders.init d).held .access (access.map ReopenLog.file) })
    rfl rfl rfl
  refine ⟨?_, ⟨(fun _ _ h => by cases h), (fun _ h => by cases h)⟩, ?_⟩
  · funext t
    cases t with
    | access => exact hpath
    | error => exact hpath'
  · rw [run_append, hrun, hrun']
    refine Appenders.ext rfl (funext fun t => ?_) rfl rfl
    cases t with
    | access => rfl
    | error => rfl

/-! ## Nothing is lost -/

namespace Logging

/-- What has been written of a stream, in the order of the writes. -/
def written (s : Logging) (t : LogStream) : List UInt8 :=
  (s.record.filter fun c => c.stream = t).flatMap Chunk.bytes

/-- What has been written of a record. -/
def writtenLine (s : Logging) (k : Nat) : List UInt8 :=
  (s.record.filter fun c => c.line = k).flatMap Chunk.bytes

/-- The files that a stream has been written to, in the order of their creation. -/
def filesOf (s : Logging) (t : LogStream) : List Nat :=
  (List.range s.disk.fresh).filter fun i => s.appenders.record.any fun r => r.1 = t && r.2.1 = i

/-- A stream with a log is written to files only. -/
theorem appenders_written {s : Logging} (hs : s.Wf) {t : LogStream} (ht : s.log t ≠ none) :
    s.appenders.written t = s.written t := by
  have hfile : ∀ c ∈ s.record, c.stream = t → c.file ≠ none := by
    rintro c hc rfl hnone
    exact ht (hs.record c hc hnone)
  show ((s.record.filterMap fun c => c.file.map fun i => (c.stream, i, c.bytes)).filter
    fun r => r.1 = t).flatMap _ = (s.record.filter fun c => c.stream = t).flatMap Chunk.bytes
  generalize s.record = record at hfile
  induction record with
  | nil => rfl
  | cons c record ih =>
      have htail := ih fun c hc => hfile c (List.mem_cons_of_mem _ hc)
      by_cases hc : c.stream = t
      · obtain ⟨i, hi⟩ := Option.ne_none_iff_exists'.1 (hfile c List.mem_cons_self hc)
        simp [hi, hc, htail]
      · cases hi : c.file with
        | none => simp [hi, hc, htail]
        | some i => simp [hi, hc, htail]

/-- A record is written in parts that follow one another, until it is written or a write fails. -/
structure LinesWf (s : Logging) : Prop where
  lt : ∀ c ∈ s.record, c.line < s.lines.length
  parts : ∀ k l, s.lines[k]? = some l →
    ∃ lost, s.writtenLine k ++ l.rest ++ lost = l.bytes ∧ (l.failed = false → lost = [])

theorem writtenLine_append {s s' : Logging} {c : Chunk} (h : s'.record = s.record ++ [c]) (k : Nat) :
    s'.writtenLine k = s.writtenLine k ++ if c.line = k then c.bytes else [] := by
  rw [writtenLine, h, List.filter_append, List.flatMap_append, ← writtenLine]
  by_cases hc : c.line = k <;> simp [hc]

/-- A write takes the next part of what is left of its record, or loses what is left. -/
theorem LinesWf.writeLine {s : Logging} (h : s.LinesWf) {k : Nat} {l : LogLine}
    (hl : s.lines[k]? = some l) (count : Nat) : (s.writeLine k count l).LinesWf := by
  have hk : k < s.lines.length := (List.getElem?_eq_some_iff.1 hl).1
  obtain ⟨lost, hparts, hlost⟩ := h.parts k l hl
  by_cases hcount : count = 0
  · rw [Logging.writeLine, if_pos hcount]
    refine ⟨fun c hc => ?_, fun j l' hj => ?_⟩
    · rw [List.length_set]
      exact h.lt c hc
    · rw [List.getElem?_set] at hj
      split at hj
      · rename_i hkj
        obtain rfl := Option.some.inj hj
        refine ⟨l.rest ++ lost, ?_, fun hfailed => by cases hfailed⟩
        rw [← hkj, ← hparts, List.append_nil, ← List.append_assoc]
        rfl
      · exact h.parts j l' hj
  · have hrecord : (s.writeLine k count l).record = s.record ++
        [⟨l.stream, k, (s.log l.stream).map ReopenLog.file, l.rest.take count⟩] := by
      rw [Logging.writeLine, if_neg hcount]
    have hlines : (s.writeLine k count l).lines = s.lines.set k { l with rest := l.rest.drop count } := by
      rw [Logging.writeLine, if_neg hcount]
    refine ⟨fun c hc => ?_, fun j l' hj => ?_⟩
    · rw [hlines, List.length_set]
      rw [hrecord, List.mem_append, List.mem_singleton] at hc
      rcases hc with hc | rfl
      · exact h.lt c hc
      · exact hk
    · rw [writtenLine_append hrecord]
      rw [hlines, List.getElem?_set] at hj
      split at hj
      · rename_i hkj
        obtain rfl := Option.some.inj hj
        refine ⟨lost, ?_, hlost⟩
        rw [if_pos hkj, ← hkj, List.append_assoc (s.writtenLine k), List.take_append_drop, hparts]
      · rename_i hkj
        rw [if_neg hkj, List.append_nil]
        exact h.parts j l' hj

theorem LinesWf.step {s : Logging} (h : s.LinesWf) (e : LogStep) : (s.step e).LinesWf := by
  have hsame : ∀ {s' : Logging}, s'.lines = s.lines → s'.record = s.record → s'.LinesWf := by
    intro s' hlines hrecord
    refine ⟨?_, ?_⟩
    · rw [hlines, hrecord]
      exact h.lt
    · intro k l hl
      rw [writtenLine, hrecord]
      exact h.parts k l (hlines ▸ hl)
  cases e with
  | event target text =>
      refine ⟨fun c hc => ?_, fun k l hl => ?_⟩
      · show c.line < (s.lines ++ [_]).length
        rw [List.length_append]
        exact Nat.lt_add_right _ (h.lt c hc)
      · have hnew : (s.lines ++ [_])[k]? = some l := hl
        rw [List.getElem?_append] at hnew
        split at hnew
        · exact h.parts k l hnew
        · rename_i hk
          have hnone : s.writtenLine k = [] := by
            rw [writtenLine, List.filter_eq_nil_iff.2, List.flatMap_nil]
            intro c hc
            have := h.lt c hc
            simp only [decide_eq_true_eq]
            omega
          obtain rfl := List.mem_singleton.1 (List.mem_of_getElem? hnew)
          refine ⟨[], ?_, fun _ => rfl⟩
          show s.writtenLine k ++ _ ++ [] = _
          rw [hnone, List.nil_append, List.append_nil]
  | write k count =>
      simp only [Logging.step]
      cases hl : s.lines[k]? with
      | none => exact h
      | some l =>
          simp only
          split
          · exact h
          · exact h.writeLine hl count
  | usr1 =>
      simp only [Logging.step]
      split
      · exact hsame rfl rfl
      · exact h
  | reopen failure =>
      simp only [Logging.step]
      split
      · simp only [openNext]
        split <;> exact hsame rfl rfl
      · exact h
  | swap =>
      simp only [Logging.step]
      split
      · rename_i t i _
        cases t <;> exact hsame rfl rfl
      · exact h
  | create p => exact hsame rfl rfl
  | rename p q => exact hsame rfl rfl
  | remove p => exact hsame rfl rfl

end Logging

section Install

variable {accessLog errorLog : Option String} {failure : LogStream → Option String}
  {d : Disk String UInt8} {s : Logging}

/-- From an installation on, the appenders have come from a disk that nobody has opened files of. -/
theorem appenders_run (h : install accessLog errorLog failure d = .ok s) {es : List LogStep}
    (hes : ∀ e ∈ es, e.Keeps s.paths) :
    (run Logging.step s es).Wf ∧ ∃ as : List (Appenders.Event LogStream String UInt8),
      (∀ a ∈ as, a.Keeps s.paths) ∧
        (run Logging.step s es).appenders =
          run (Appenders.step s.paths) (Appenders.init d) as := by
  obtain ⟨hpaths, hwf, heq⟩ := install_appenders h
  obtain ⟨hend, as, has, heq'⟩ := hwf.run hes
  rw [heq, ← hpaths, ← run_append] at heq'
  refine ⟨hend, _, ?_, heq'⟩
  intro a ha
  rcases List.mem_append.1 ha with ha | ha
  · simp only [List.cons_append, List.nil_append, List.mem_cons, List.not_mem_nil, or_false] at ha
    rcases ha with rfl | rfl | rfl | rfl <;> trivial
  · exact has a ha

theorem linesWf_run (h : install accessLog errorLog failure d = .ok s) (es : List LogStep) :
    (run Logging.step s es).LinesWf := by
  have hinit : s.LinesWf := by
    rw [install] at h
    obtain ⟨_, -, h⟩ := bind_eq_ok.1 h
    obtain ⟨_, -, h⟩ := bind_eq_ok.1 h
    obtain rfl := Except.ok.inj h
    refine ⟨(fun c hc => by cases hc), fun k l hl => ?_⟩
    simp at hl
  exact run_invariant (fun _ e h => h.step e) hinit es

/-- Logs with different paths, which do not name one file, start apart. -/
theorem apart_init {paths : LogStream → Option String} (d : Disk String UInt8)
    (hapart : ∀ p q i, paths .access = some p → paths .error = some q → d.named p = some i →
      d.named q ≠ some i) : (Appenders.init d : Appenders LogStream String UInt8).Apart paths := by
  have htarget : ∀ t i, (Appenders.init d : Appenders LogStream String UInt8).Uses paths t i →
      ∃ p, paths t = some p ∧ d.named p = some i := by
    rintro t i ((h | h | h) | ⟨bs, h⟩)
    · cases h
    · cases h
    · exact Option.bind_eq_some_iff.1 h
    · cases h
  intro t u i htu ht hu
  obtain ⟨p, hp, hpi⟩ := htarget t i ht
  obtain ⟨q, hq, hqi⟩ := htarget u i hu
  cases t <;> cases u
  · exact htu rfl
  · exact hapart p q i hp hq hpi hqi
  · exact hapart q p i hq hp hqi hpi
  · exact htu rfl

/-- **No log line is lost.** In every run of the process and of other programs that moves no file
onto the path of a log (logs are written, renamed and removed, reopened with or without success, in
any order): the files a log has been written to, read in the order of their creation from where they
ended at the start, hold what was written to the log, in the order of the writes, and of every
record that no write failed for, the parts written so far and the rest are the record. -/
theorem rotation_keeps_log (h : install accessLog errorLog failure d = .ok s)
    (hnames : ∀ p q, accessLog = some p → errorLog = some q →
      p ≠ q ∧ ∀ i, d.named p = some i → d.named q ≠ some i)
    {es : List LogStep} (hes : ∀ e ∈ es, e.Keeps s.paths) :
    let s' := run Logging.step s es
    (∀ t, s'.log t ≠ none →
      (s'.filesOf t).flatMap (fun i => (s'.disk.contents i).drop (d.contents i).length) =
        s'.written t) ∧
    ∀ k l, s'.lines[k]? = some l → l.failed = false → s'.writtenLine k ++ l.rest = l.bytes := by
  intro s'
  obtain ⟨hwf, as, has, heq⟩ := appenders_run h hes
  obtain ⟨hpaths, -, -⟩ := install_appenders h
  have hdiffer : ∀ {t u p}, s.paths t = some p → s.paths u = some p → t = u := by
    intro t u p ht hu
    rw [hpaths] at ht hu
    cases t <;> cases u
    · rfl
    · exact absurd rfl (hnames p p ht hu).1
    · exact absurd rfl (hnames p p hu ht).1
    · rfl
  have hinit : (Appenders.init d).Ordered s.paths := Appenders.Ordered.init d
  have hordered : s'.appenders.Ordered s.paths := heq ▸ hinit.run has
  have hapart : s'.appenders.Apart s.paths := by
    refine heq ▸ Appenders.Apart.run (apart_init d ?_) hinit hdiffer has
    rw [hpaths]
    exact fun p q i hp hq => (hnames p q hp hq).2 i
  have hcontents : ∀ i, s'.disk.contents i = d.contents i ++ s'.appenders.appended i := by
    intro i
    have hrun := Appenders.contents_run_init d has i
    rw [← heq] at hrun
    exact hrun
  refine ⟨fun t ht => ?_, fun k l hl hfailed => ?_⟩
  · rw [← Logging.appenders_written hwf ht, ← hordered.flatMap_writtenTo t]
    refine Appenders.flatMap_filter_eq (fun i hi => ?_) fun i hi => ?_
    · -- only this log has written to the file
      obtain ⟨⟨u, j, bs⟩, hmem, hr⟩ := List.any_eq_true.1 hi
      obtain ⟨rfl, rfl⟩ : u = t ∧ j = i := by simpa using hr
      rw [hcontents, List.drop_left, hapart.appended (Or.inr ⟨bs, hmem⟩)]
    · rw [Appenders.writtenTo, List.filter_eq_nil_iff.2, List.flatMap_nil]
      intro r hr
      have := List.any_eq_false.1 hi r hr
      simpa using this
  · obtain ⟨lost, hparts, hlost⟩ := (linesWf_run h es).parts k l hl
    rw [hlost hfailed, List.append_nil] at hparts
    exact hparts

/-- A disk without files. -/
def emptyDisk : Disk String UInt8 where
  named := fun _ => none
  contents := fun _ => []
  fresh := 0
  named_lt := fun h => by cases h
  contents_fresh := fun _ => rfl

/-- A day's end: a record in two parts, the second after `logrotate` has renamed the file. -/
def dayEnd : List LogStep :=
  [.event "access" "ab", .write 0 1, .rename "a.log" "a.log.1"]

/-- The log is opened again, while the record is still being written. -/
def dayReopen : List LogStep := [.reopen none, .write 0 1, .swap]

/-- A record of the next day. -/
def nextDay : List LogStep := [.event "access" "c", .write 1 1]

/-- The access log of those days. -/
def accessOnly : Logging where
  disk := (emptyDisk.openAppend "a.log").2
  accessLog := some ⟨"a.log", 0⟩
  errorLog := none
  lines := []
  reopening := []
  inHand := none
  stderr := []
  record := []

theorem keeps_days : ∀ e ∈ dayEnd ++ .usr1 :: (dayReopen ++ nextDay), e.Keeps accessOnly.paths := by
  have hname : ∀ t, accessOnly.paths t ≠ some "a.log.1" := by
    intro t
    cases t <;> decide
  simp [dayEnd, dayReopen, nextDay, LogStep.Keeps, hname]

/-- The file of the first day has the whole of the first record, the new one has the second. -/
theorem rotation_keeps_log_days :
    let s := run Logging.step accessOnly (dayEnd ++ .usr1 :: (dayReopen ++ nextDay))
    s.filesOf .access = [0, 1] ∧
      (s.filesOf .access).flatMap (fun i => (s.disk.contents i).drop (emptyDisk.contents i).length) =
        [97, 98, 99] := by
  refine ⟨by decide, ?_⟩
  have hkept := (@rotation_keeps_log (some "a.log") none (fun _ => none) emptyDisk accessOnly rfl
    (fun p q _ hq => by cases hq) _ keeps_days).1 .access (by decide)
  exact hkept.trans (by decide)

/-- During a reopen: none of the log paths denotes the file, and a log that still has it is one
whose file has yet to be opened or put in place. -/
structure Leaving (s : Logging) (i : Nat) : Prop where
  left : s.appenders.Left s.paths i
  held : ∀ t l, s.log t = some l → l.file = i →
    t ∈ s.reopening ∨ ∃ j, s.inHand = some (t, j)

theorem Leaving.step {s : Logging} (hwf : s.Wf) {i : Nat} (h : Leaving s i) {e : LogStep}
    (he : e.Keeps s.paths) (hopens : ∀ failure, e = .reopen failure → failure = none) :
    Leaving (s.step e) i := by
  have hleft := h.left.run (Logging.keeps_appends he)
  rw [← Logging.appenders_step hwf] at hleft
  refine ⟨?_, fun t l hl hli => ?_⟩
  · rw [Logging.paths_step]
    exact hleft.1
  · have hbefore : t ∈ s.reopening ∨ ∃ j, s.inHand = some (t, j) := by
      have hheld := hleft.2 t (by
        show ((s.step e).log t).map ReopenLog.file = some i
        rw [hl, Option.map_some, hli])
      obtain ⟨l', hl', hli'⟩ := Option.map_eq_some_iff.1
        (show (s.log t).map ReopenLog.file = some i from hheld)
      exact h.held t l' hl' hli'
    have hlog : s.log t ≠ none := by
      rw [ne_eq, Logging.log_eq_none_iff, ← Logging.paths_step s e, ← Logging.log_eq_none_iff, hl]
      exact Option.some_ne_none l
    cases e with
    | event target text => exact hbefore
    | write k count =>
        simp only [Logging.step]
        split
        · split
          · exact hbefore
          · rw [Logging.writeLine]
            split <;> exact hbefore
        · exact hbefore
    | usr1 =>
        simp only [Logging.step]
        split
        · rename_i hidle
          rcases hbefore with hmem | ⟨j, hj⟩
          · rw [hidle.1] at hmem
            cases hmem
          · rw [hidle.2] at hj
            cases hj
        · exact hbefore
    | reopen failure =>
        obtain rfl := hopens failure rfl
        simp only [Logging.step] at hl ⊢
        split
        · rename_i u rest hnone hrest
          simp only [Logging.openNext]
          have hmem : t ∈ u :: rest := by
            rcases hbefore with hmem | ⟨j, hj⟩
            · rwa [hrest] at hmem
            · rw [hnone] at hj
              cases hj
          rcases List.mem_cons.1 hmem with rfl | hmem
          · obtain ⟨l', hl'⟩ := Option.ne_none_iff_exists'.1 hlog
            rw [hl']
            exact Or.inr ⟨_, rfl⟩
          · split <;> exact Or.inl hmem
        · exact hbefore
    | swap =>
        simp only [Logging.step] at hl ⊢
        split
        · rename_i u j hinhand
          rw [hinhand] at hl hbefore
          by_cases htu : t = u
          · -- the file put in place is not the one left behind
            subst htu
            obtain ⟨l', -, rfl⟩ : ∃ l', s.log t = some l' ∧ { l' with file := j } = l := by
              have hset : (s.setFile t j).log t = some l := hl
              rw [Logging.log_setFile, if_pos rfl] at hset
              exact Option.map_eq_some_iff.1 hset
            obtain rfl : j = i := hli
            refine absurd ?_ (h.left.opened_ne t)
            simp only [Logging.appenders, hinhand, Option.bind_some, if_true]
          · rcases hbefore with hmem | ⟨j', hj'⟩
            · refine Or.inl ?_
              cases u <;> exact hmem
            · exact absurd (Prod.mk.inj (Option.some.inj hj')).1.symm htu
        · exact hbefore
    | create p => exact hbefore
    | rename p q => exact hbefore
    | remove p => exact hbefore

theorem Leaving.run {s : Logging} (hwf : s.Wf) {i : Nat} (h : Leaving s i) {es : List LogStep}
    (hes : ∀ e ∈ es, e.Keeps s.paths)
    (hopens : ∀ e ∈ es, ∀ failure, e = .reopen failure → failure = none) :
    Leaving (run Logging.step s es) i := by
  induction es generalizing s with
  | nil => exact h
  | cons e es ih =>
      refine ih (hwf.step e) (h.step hwf (hes e List.mem_cons_self) (hopens e List.mem_cons_self)) ?_
        fun e' he' => hopens e' (List.mem_cons_of_mem _ he')
      intro e' he'
      rw [Logging.paths_step]
      exact hes e' (List.mem_cons_of_mem _ he')

theorem Logging.mem_registered {s : Logging} {t : LogStream} {l : ReopenLog}
    (h : s.log t = some l) : t ∈ s.registered := by
  cases t with
  | access =>
      have haccess : s.accessLog.isSome = true := by rw [show s.accessLog = some l from h]; rfl
      simp [registered, haccess]
  | error =>
      have herror : s.errorLog.isSome = true := by rw [show s.errorLog = some l from h]; rfl
      simp [registered, herror]

/-- No reopen is under way. -/
def Logging.Idle (s : Logging) : Prop := s.reopening = [] ∧ s.inHand = none

/-- **A rotated file is final.** Let a file have been moved away from every log path when `SIGUSR1`
is handled. Once the reopen is over, if every log could be opened, the file has its last byte:
nothing is appended to it in any run that follows, also while other programs move files and further
reopens fail or succeed. -/
theorem rotated_file_final (h : install accessLog errorLog failure d = .ok s)
    {before reopen after : List LogStep} {i : Nat}
    (hbefore : ∀ e ∈ before, e.Keeps s.paths) (hreopen : ∀ e ∈ reopen, e.Keeps s.paths)
    (hafter : ∀ e ∈ after, e.Keeps s.paths)
    (hopens : ∀ e ∈ reopen, ∀ failure, e = .reopen failure → failure = none) :
    let moved := run Logging.step s before
    let reopened := run Logging.step moved (.usr1 :: reopen)
    moved.Idle → i < moved.disk.fresh →
      (∀ t p, s.paths t = some p → moved.disk.named p ≠ some i) → reopened.Idle →
        (run Logging.step reopened after).disk.contents i = reopened.disk.contents i := by
  intro moved reopened hidle hi hmoved hover
  have hwf : moved.Wf := ((install_appenders h).2.1.run hbefore).1
  have hpaths : moved.paths = s.paths := Logging.paths_run s before
  have hpaths' : reopened.paths = s.paths := (Logging.paths_run moved _).trans hpaths
  have hreopen' : ∀ e ∈ reopen, e.Keeps (moved.step .usr1).paths := by
    rw [Logging.paths_step, hpaths]
    exact hreopen
  have hsignal : moved.step .usr1 = { moved with reopening := moved.registered } := by
    rw [Logging.step, if_pos (show moved.reopening = [] ∧ moved.inHand = none from hidle)]
  have hleaving : Leaving (moved.step .usr1) i := by
    refine ⟨⟨?_, fun t => ?_, fun t ht => ?_⟩, fun t l hl _ => ?_⟩
    · rw [hsignal]
      exact hi
    · rw [hsignal]
      simp [Logging.appenders, hidle.2]
    · obtain ⟨p, hp, hnamed⟩ := Option.bind_eq_some_iff.1 ht
      rw [Logging.paths_step, hpaths] at hp
      rw [hsignal] at hnamed
      exact hmoved t p hp hnamed
    · rw [hsignal] at hl ⊢
      exact Or.inl (Logging.mem_registered hl)
  have hend : Leaving reopened i := hleaving.run (hwf.step .usr1) hreopen' hopens
  have hheld : ∀ t, reopened.appenders.held t ≠ some i := by
    intro t ht
    obtain ⟨l, hl, hli⟩ := Option.map_eq_some_iff.1
      (show (reopened.log t).map ReopenLog.file = some i from ht)
    rcases hend.held t l hl hli with hmem | ⟨j, hj⟩
    · rw [hover.1] at hmem
      cases hmem
    · rw [hover.2] at hj
      cases hj
  have hwf' : reopened.Wf := ((hwf.step .usr1).run hreopen').1
  obtain ⟨-, as, has, heq⟩ := hwf'.run (hpaths' ▸ hafter)
  show (run Logging.step reopened after).appenders.disk.contents i = reopened.disk.contents i
  rw [heq]
  exact hend.left.contents_run hheld has

/-- The file of the first day is final once the log is reopened. -/
theorem rotated_file_final_days :
    let reopened := run Logging.step (run Logging.step accessOnly dayEnd) (.usr1 :: dayReopen)
    (run Logging.step reopened nextDay).disk.contents 0 = reopened.disk.contents 0 := by
  have hkeeps := List.forall_mem_append.1 keeps_days
  have hkeeps' := List.forall_mem_append.1 (List.forall_mem_cons.1 hkeeps.2).2
  have hmoved : ∀ t p, accessOnly.paths t = some p →
      (run Logging.step accessOnly dayEnd).disk.named p ≠ some 0 := by
    intro t p hp
    cases t with
    | access =>
        obtain rfl : "a.log" = p := Option.some.inj hp
        decide
    | error => cases hp
  refine @rotated_file_final (some "a.log") none (fun _ => none) emptyDisk accessOnly rfl _ _ _ 0
    hkeeps.1 hkeeps'.1 hkeeps'.2 ?_ ⟨by decide, by decide⟩ (by decide) hmoved
    ⟨by decide, by decide⟩
  simp [dayReopen]

end Install

end Elrond.Process
