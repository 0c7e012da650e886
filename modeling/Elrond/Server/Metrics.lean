import Elrond.Lib.Exposition
import Elrond.Lib.Run
import Mathlib.Data.UInt

/-!
# The metrics page

`metrics.rs`: counters that tasks raise one atomic operation at a time, and `render`, which loads
them one after the other and writes the page for the scraper. Nothing stops the tasks meanwhile, so
the values on a page belong to different moments.

Still a page is what it looks like (`scrape_truthful`): read by the rules of the format it has each
series once, and the value of a counter is no less than what had been recorded when the page was
asked for and no more than what had been recorded when it was done.
-/

set_option autoImplicit false

namespace Elrond.Metrics

open Elrond.Lib Elrond.Lib.Exposition

/-! ## Counters -/

/-- The atomics. -/
inductive Metric where
  | reqs
  | resp1xx
  | resp2xx
  | resp3xx
  | resp4xx
  | resp5xx
  | connsAccepted
  | activeConns
  | proxyAttempts
  | proxyFailures
  | tlsOk
  | tlsFail
  | streamAccepted
  | streamActive
  | streamBytesToUp
  | streamBytesFromUp
  | cacheHits
  | cacheMisses
  | cacheBypass
  | cacheBytes
  | cacheEntries
  | cacheEvictedBytes
  | limitReqAllowed
  | limitReqDenied
  | limitConnAllowed
  | limitConnDenied
  | mirrorAttempts
  | mirrorFailures
deriving DecidableEq, Repr

/-- An atomic operation on one of them. -/
inductive Op where
  | fetchAdd (m : Metric) (n : UInt64)
  | fetchSub (m : Metric) (n : UInt64)
  | store (m : Metric) (v : UInt64)
deriving DecidableEq, Repr

/-- The atomics after an operation. -/
def Op.apply (c : Metric → UInt64) : Op → Metric → UInt64
  | .fetchAdd m n => Function.update c m (c m + n)
  | .fetchSub m n => Function.update c m (c m - n)
  | .store m v => Function.update c m v

/-- The functions that change the metrics, and the guards at their start and end. -/
inductive Call where
  | recordRequest (status : Nat)
  | recordConnAccepted
  | recordProxyAttempt
  | recordProxyFailure
  | recordTlsHandshakeSuccess
  | recordTlsHandshakeFailure
  | recordStreamAccepted
  | recordStreamBytes (toUpstream fromUpstream : UInt64)
  | recordCacheHit
  | recordCacheMiss
  | recordCacheBypass
  | recordCacheEvict (bytes : UInt64)
  | setCacheBytes (v : UInt64)
  | setCacheEntries (v : UInt64)
  | recordLimitReqAllowed
  | recordLimitReqDenied
  | recordLimitConnAllowed
  | recordLimitConnDenied
  | recordMirrorAttempt
  | recordMirrorFailure
  | streamConnGuardNew
  | streamConnGuardDrop
  | connGuardNew
  | connGuardDrop
deriving DecidableEq, Repr

/-- The counter of the class of a status. -/
def respSlot (status : Nat) : Metric :=
  match status / 100 with
  | 1 => .resp1xx
  | 2 => .resp2xx
  | 3 => .resp3xx
  | 4 => .resp4xx
  | _ => .resp5xx

/-- The operations of a call, in order. -/
def Call.ops : Call → List Op
  | .recordRequest status => [.fetchAdd .reqs 1, .fetchAdd (respSlot status) 1]
  | .recordConnAccepted => [.fetchAdd .connsAccepted 1]
  | .recordProxyAttempt => [.fetchAdd .proxyAttempts 1]
  | .recordProxyFailure => [.fetchAdd .proxyFailures 1]
  | .recordTlsHandshakeSuccess => [.fetchAdd .tlsOk 1]
  | .recordTlsHandshakeFailure => [.fetchAdd .tlsFail 1]
  | .recordStreamAccepted => [.fetchAdd .streamAccepted 1]
  | .recordStreamBytes toUpstream fromUpstream =>
      [.fetchAdd .streamBytesToUp toUpstream, .fetchAdd .streamBytesFromUp fromUpstream]
  | .recordCacheHit => [.fetchAdd .cacheHits 1]
  | .recordCacheMiss => [.fetchAdd .cacheMisses 1]
  | .recordCacheBypass => [.fetchAdd .cacheBypass 1]
  | .recordCacheEvict bytes => [.fetchAdd .cacheEvictedBytes bytes]
  | .setCacheBytes v => [.store .cacheBytes v]
  | .setCacheEntries v => [.store .cacheEntries v]
  | .recordLimitReqAllowed => [.fetchAdd .limitReqAllowed 1]
  | .recordLimitReqDenied => [.fetchAdd .limitReqDenied 1]
  | .recordLimitConnAllowed => [.fetchAdd .limitConnAllowed 1]
  | .recordLimitConnDenied => [.fetchAdd .limitConnDenied 1]
  | .recordMirrorAttempt => [.fetchAdd .mirrorAttempts 1]
  | .recordMirrorFailure => [.fetchAdd .mirrorFailures 1]
  | .streamConnGuardNew => [.fetchAdd .streamActive 1]
  | .streamConnGuardDrop => [.fetchSub .streamActive 1]
  | .connGuardNew => [.fetchAdd .activeConns 1]
  | .connGuardDrop => [.fetchSub .activeConns 1]

/-! ## The page -/

/-- The counters of the page, in the order of their loads: name, atomic and help text. -/
def counters : List (String × Metric × String) :=
  [("elrond_requests_total", .reqs, "Total HTTP requests handled."),
    ("elrond_connections_accepted_total", .connsAccepted,
      "Total connections accepted by every listener."),
    ("elrond_proxy_attempts_total", .proxyAttempts, "Total proxy attempts (including retries)."),
    ("elrond_proxy_failures_total", .proxyFailures,
      "Total proxy attempts that failed at the connection level."),
    ("elrond_tls_handshakes_total", .tlsOk, "Successful TLS handshakes."),
    ("elrond_tls_handshake_failures_total", .tlsFail, "Failed TLS handshakes."),
    ("elrond_stream_connections_accepted_total", .streamAccepted,
      "Total TCP stream connections accepted."),
    ("elrond_stream_bytes_client_to_upstream_total", .streamBytesToUp,
      "Total bytes piped from stream clients to upstreams."),
    ("elrond_stream_bytes_upstream_to_client_total", .streamBytesFromUp,
      "Total bytes piped from stream upstreams back to clients."),
    ("elrond_cache_hits_total", .cacheHits, "Proxy cache hits."),
    ("elrond_cache_misses_total", .cacheMisses, "Proxy cache misses."),
    ("elrond_cache_bypass_total", .cacheBypass, "Proxy cache bypasses (safety guard tripped)."),
    ("elrond_cache_evicted_bytes_total", .cacheEvictedBytes,
      "Bytes removed from the proxy cache through eviction or expiry."),
    ("elrond_limit_req_allowed_total", .limitReqAllowed, "Requests allowed by limit_req."),
    ("elrond_limit_req_denied_total", .limitReqDenied, "Requests denied (503) by limit_req."),
    ("elrond_limit_conn_allowed_total", .limitConnAllowed, "Connections allowed by limit_conn."),
    ("elrond_limit_conn_denied_total", .limitConnDenied,
      "Connections denied (503) by limit_conn."),
    ("elrond_mirror_attempts_total", .mirrorAttempts, "Mirror (shadow) requests dispatched."),
    ("elrond_mirror_failures_total", .mirrorFailures,
      "Mirror requests that errored, timed out, or had a bad URL.")]

/-- The status classes, in the order of their loads. -/
def classes : List (String × Metric) :=
  [("1xx", .resp1xx), ("2xx", .resp2xx), ("3xx", .resp3xx), ("4xx", .resp4xx), ("5xx", .resp5xx)]

/-- `writeln!`. -/
def writeln (out line : String) : String := out ++ line ++ "\n"

/-- The text of a value. -/
def valueText (v : UInt64) : String := toString v.toNat

/-- The two lines in front of the samples of a metric. -/
def writeHeader (out name kind help : String) : String :=
  writeln (writeln out s!"# HELP {name} {help}") s!"# TYPE {name} {kind}"

/-- The lines of a metric with one sample. -/
def writeMetric (out name kind help value : String) : String :=
  writeln (writeHeader out name kind help) s!"{name} {value}"

/-- `render`: `uptime` is the text of the seconds since the start, `load` what the loads give. -/
def render (version uptime : String) (load : Metric → UInt64) : String :=
  let out := writeHeader "" "elrond_build_info" "gauge" "Build info."
  let out := writeln out s!"elrond_build_info\x7bversion=\"{version}\"\x7d 1"
  let out := writeMetric out "elrond_uptime_seconds" "gauge" "Process uptime in seconds." uptime
  let out := counters.foldl
    (fun out e => writeMetric out e.1 "counter" e.2.2 (valueText (load e.2.1))) out
  let out := writeHeader out "elrond_responses_total" "counter" "Responses by status class."
  let out := classes.foldl
    (fun out e =>
      writeln out
        s!"elrond_responses_total\x7bstatus_class=\"{e.1}\"\x7d {valueText (load e.2)}") out
  let out := writeMetric out "elrond_active_connections" "gauge"
    "Currently open client connections." (valueText (load .activeConns))
  let out := writeMetric out "elrond_stream_active_connections" "gauge"
    "Currently open stream (TCP) connections." (valueText (load .streamActive))
  let out := writeMetric out "elrond_cache_bytes" "gauge"
    "Bytes currently held in the proxy cache." (valueText (load .cacheBytes))
  writeMetric out "elrond_cache_entries" "gauge"
    "Number of entries currently in the proxy cache." (valueText (load .cacheEntries))

/-! ## What the page says -/

/-- The lines of one metric. -/
def family (name kind help : String) (samples : List (Option (String × String) × String)) :
    List Line :=
  .help name help :: .type name kind :: samples.map fun s => .sample name s.1 s.2

/-- The lines of the page with the given values. -/
def page (version uptime : String) (values : Metric → UInt64) : List Line :=
  family "elrond_build_info" "gauge" "Build info." [(some ("version", version), "1")] ++
    family "elrond_uptime_seconds" "gauge" "Process uptime in seconds." [(none, uptime)] ++
    (counters.flatMap fun e =>
      family e.1 "counter" e.2.2 [(none, valueText (values e.2.1))]) ++
    family "elrond_responses_total" "counter" "Responses by status class."
      (classes.map fun e => (some ("status_class", e.1), valueText (values e.2))) ++
    family "elrond_active_connections" "gauge" "Currently open client connections."
      [(none, valueText (values .activeConns))] ++
    family "elrond_stream_active_connections" "gauge" "Currently open stream (TCP) connections."
      [(none, valueText (values .streamActive))] ++
    family "elrond_cache_bytes" "gauge" "Bytes currently held in the proxy cache."
      [(none, valueText (values .cacheBytes))] ++
    family "elrond_cache_entries" "gauge" "Number of entries currently in the proxy cache."
      [(none, valueText (values .cacheEntries))]

theorem toList_writeln {out line : String} {l : Line} (h : line.toList = l.write) :
    (writeln out line).toList = out.toList ++ write [l] := by
  rw [writeln, String.toList_append, String.toList_append, h, List.append_assoc, write,
    List.flatMap_singleton]
  rfl

theorem toList_foldl {α : Type} {f : String → α → String} {g : α → List Line}
    (h : ∀ out e, (f out e).toList = out.toList ++ write (g e)) (es : List α) (out : String) :
    (es.foldl f out).toList = out.toList ++ write (es.flatMap g) := by
  induction es generalizing out with
  | nil =>
      rw [List.flatMap_nil, write, List.flatMap_nil, List.append_nil]
      rfl
  | cons e es ih =>
      rw [List.foldl_cons, ih, h, List.flatMap_cons, List.append_assoc, write, write, write,
        List.flatMap_append]

theorem help_text (name help : String) :
    (s!"# HELP {name} {help}").toList = (Line.help name help).write := by
  simp only [String.toList_append, List.append_assoc]
  rfl

theorem type_text (name kind : String) :
    (s!"# TYPE {name} {kind}").toList = (Line.type name kind).write := by
  simp only [String.toList_append, List.append_assoc]
  rfl

theorem sample_text (name value : String) :
    (s!"{name} {value}").toList = (Line.sample name none value).write := by
  simp only [String.toList_append, List.append_assoc]
  rfl

theorem label_text {start name label : List Char}
    (h : start = name ++ '{' :: (label ++ ['=', '"'])) :
    (String.ofList start).toList =
      (String.ofList name).toList ++
        '{' :: ((String.ofList label).toList ++ ['=', '"']) := by
  rw [String.toList_ofList, String.toList_ofList, String.toList_ofList, h]

theorem write_append (ls ls' : List Line) : write (ls ++ ls') = write ls ++ write ls' :=
  List.flatMap_append

theorem family_eq (name kind help : String) (samples : List (Option (String × String) × String)) :
    family name kind help samples =
      family name kind help [] ++ samples.map fun s => .sample name s.1 s.2 :=
  rfl

theorem toList_writeHeader (out name kind help : String) :
    (writeHeader out name kind help).toList =
      out.toList ++ write (family name kind help []) := by
  rw [writeHeader, toList_writeln (type_text name kind), toList_writeln (help_text name help),
    List.append_assoc, ← write_append]
  rfl

theorem toList_writeMetric (out name kind help value : String) :
    (writeMetric out name kind help value).toList =
      out.toList ++ write (family name kind help [(none, value)]) := by
  rw [writeMetric, toList_writeln (sample_text name value), toList_writeHeader,
    List.append_assoc, ← write_append]
  rfl

/-- The page is written line by line. -/
theorem render_eq (version uptime : String) (load : Metric → UInt64) :
    (render version uptime load).toList = write (page version uptime load) := by
  have hversion : (s!"elrond_build_info\x7bversion=\"{version}\"\x7d 1").toList =
      (Line.sample "elrond_build_info" (some ("version", version)) "1").write := by
    have hstart : "elrond_build_info\x7bversion=\"".toList =
        "elrond_build_info".toList ++ '{' :: ("version".toList ++ ['=', '"']) := label_text rfl
    simp only [String.toList_append, List.append_assoc, toString, hstart]
    rfl
  have hclass : ∀ (out : String) (e : String × Metric),
      (writeln out
        s!"elrond_responses_total\x7bstatus_class=\"{e.1}\"\x7d {valueText (load e.2)}").toList =
          out.toList ++ write [.sample "elrond_responses_total" (some ("status_class", e.1))
            (valueText (load e.2))] := by
    have hstart : "elrond_responses_total\x7bstatus_class=\"".toList =
        "elrond_responses_total".toList ++ '{' :: ("status_class".toList ++ ['=', '"']) :=
      label_text rfl
    intro out e
    refine toList_writeln ?_
    simp only [String.toList_append, List.append_assoc, toString, hstart]
    rfl
  simp only [render, toList_writeMetric, toList_writeHeader, toList_foldl hclass,
    toList_foldl (fun out (e : String × Metric × String) =>
      toList_writeMetric out e.1 "counter" e.2.2 (valueText (load e.2.1))),
    toList_writeln hversion]
  rw [page, family_eq "elrond_build_info", family_eq "elrond_responses_total"]
  simp only [write_append, List.append_assoc]
  rfl

/-! ## Reading the page -/

theorem oneLine_valueText (v : UInt64) : OneLine (valueText v) := by
  intro hmem
  rw [valueText, Nat.toString_eq_ofList_toDigits, String.toList_ofList] at hmem
  have hall : (Nat.toDigits 10 v.toNat).all (· != '\n') = true :=
    Text.all_toDigits (by decide) 10 v.toNat
  exact absurd (List.all_eq_true.1 hall _ hmem) (by decide)

theorem wellFormed_family {name kind help : String}
    {samples : List (Option (String × String) × String)} (hname : IsName name)
    (hkind : OneLine kind) (hhelp : OneLine help)
    (hsamples : ∀ s ∈ samples, OneLine s.2 ∧
      ∀ l ∈ s.1, IsName l.1 ∧ OneLine l.2 ∧ '"' ∉ l.2.toList) :
    ∀ l ∈ family name kind help samples, l.WellFormed := by
  intro l hl
  rcases List.mem_cons.1 hl with rfl | hl
  · exact ⟨hname, hhelp⟩
  · rcases List.mem_cons.1 hl with rfl | hl
    · exact ⟨hname, hkind⟩
    · obtain ⟨s, hs, rfl⟩ := List.mem_map.1 hl
      exact ⟨hname, hsamples s hs⟩

/-- A metric with one sample and no label. -/
theorem wellFormed_metric {name kind help value : String} (hname : IsName name)
    (hkind : OneLine kind) (hhelp : OneLine help) (hvalue : OneLine value) :
    ∀ l ∈ family name kind help [(none, value)], l.WellFormed := by
  refine wellFormed_family hname hkind hhelp fun s hs => ?_
  obtain rfl := List.mem_singleton.1 hs
  exact ⟨hvalue, fun l hl => by cases hl⟩

/-- The version and the uptime fit on their lines. -/
def Plain (version uptime : String) : Prop :=
  OneLine version ∧ '"' ∉ version.toList ∧ OneLine uptime

theorem wellFormed_page {version uptime : String} (h : Plain version uptime)
    (values : Metric → UInt64) : ∀ l ∈ page version uptime values, l.WellFormed := by
  have hcounters : ∀ e ∈ counters, IsName e.1 ∧ OneLine e.2.2 := by
    unfold counters
    repeat
      refine List.forall_mem_cons.2
        ⟨⟨isName_ofList (by decide), oneLine_ofList (by decide)⟩, ?_⟩
    exact List.forall_mem_nil _
  have hclasses : ∀ e ∈ classes, OneLine e.1 ∧ '"' ∉ e.1.toList := by decide +kernel
  have hgauge : OneLine "gauge" := by decide
  have hone : OneLine "1" := by decide
  have hversion : IsName "version" := isName_ofList (by decide)
  have hclass : IsName "status_class" := isName_ofList (by decide)
  simp only [page, List.forall_mem_append]
  refine ⟨⟨⟨⟨⟨⟨⟨?_, ?_⟩, ?_⟩, ?_⟩, ?_⟩, ?_⟩, ?_⟩, ?_⟩
  · refine wellFormed_family (isName_ofList (by decide)) hgauge (oneLine_ofList (by decide))
      fun s hs => ?_
    obtain rfl := List.mem_singleton.1 hs
    refine ⟨hone, fun l hl => ?_⟩
    obtain rfl := Option.some.inj hl
    exact ⟨hversion, h.1, h.2.1⟩
  · exact wellFormed_metric (isName_ofList (by decide)) hgauge (oneLine_ofList (by decide)) h.2.2
  · intro l hl
    obtain ⟨e, he, hl⟩ := List.mem_flatMap.1 hl
    obtain ⟨hname, hhelp⟩ := hcounters e he
    exact wellFormed_metric hname (by decide) hhelp (oneLine_valueText _) l hl
  · refine wellFormed_family (isName_ofList (by decide)) (by decide) (oneLine_ofList (by decide))
      fun s hs => ?_
    obtain ⟨e, he, rfl⟩ := List.mem_map.1 hs
    refine ⟨oneLine_valueText _, fun l hl => ?_⟩
    obtain rfl := Option.some.inj hl
    exact ⟨hclass, hclasses e he⟩
  all_goals
    exact wellFormed_metric (isName_ofList (by decide)) hgauge (oneLine_ofList (by decide))
      (oneLine_valueText _)

/-- The page is read as the lines it says. -/
theorem read_render {version uptime : String} (h : Plain version uptime)
    (load : Metric → UInt64) :
    Exposition.read (render version uptime load).toList = some (page version uptime load) := by
  rw [render_eq, read_write (wellFormed_page h load)]

/-- The series of a line: the name and the label. -/
def series : Line → Option (String × Option (String × String))
  | .sample name label _ => some (name, label)
  | _ => none

/-- The series behind the first one: the name, and the status class if there is one. -/
def seriesNames : List (String × Option String) :=
  ("elrond_uptime_seconds", none) ::
    (counters.map (fun e => (e.1, none)) ++
      classes.map (fun e => ("elrond_responses_total", some e.1)) ++
      [("elrond_active_connections", none), ("elrond_stream_active_connections", none),
        ("elrond_cache_bytes", none), ("elrond_cache_entries", none)])

/-- Each series is on the page once. -/
theorem nodup_series (version uptime : String) (values : Metric → UInt64) :
    ((page version uptime values).filterMap series).Nodup := by
  have hnames : ((page version uptime values).filterMap series).map
      (fun s => (s.1, s.2.map Prod.snd)) = ("elrond_build_info", some version) :: seriesNames := rfl
  refine List.Nodup.of_map (fun s => (s.1, s.2.map Prod.snd)) ?_
  rw [hnames]
  refine List.nodup_cons.2 ⟨fun hmem => ?_, by decide +kernel⟩
  have hname : "elrond_build_info" ∈ seriesNames.map Prod.fst := List.mem_map_of_mem hmem
  revert hname
  decide +kernel

/-! ## Loads while the counters move -/

/-- The order of the loads. -/
def loadOrder : List Metric :=
  counters.map (fun e => e.2.1) ++ classes.map Prod.snd ++
    [.activeConns, .streamActive, .cacheBytes, .cacheEntries]

/-- While the page is written: an operation of a call, in any task, or the next load. -/
inductive Event where
  | op (call : Call) (k : Nat)
  | load
deriving DecidableEq, Repr

/-- The operation of an event. -/
def Event.op? : Event → Option Op
  | .op call k => call.ops[k]?
  | .load => none

/-- The atomics, the loads to come, and what has been loaded. -/
structure Scrape where
  atomics : Metric → UInt64
  remaining : List Metric
  loaded : List (Metric × UInt64)

namespace Scrape

/-- The call of `render`. -/
def start (atomics : Metric → UInt64) : Scrape := ⟨atomics, loadOrder, []⟩

/-- The state after an event. -/
def step (s : Scrape) (e : Event) : Scrape :=
  match e with
  | .op call k => { s with atomics := (call.ops[k]?).elim s.atomics (Op.apply s.atomics) }
  | .load =>
      match s.remaining with
      | [] => s
      | m :: rest => { s with remaining := rest, loaded := s.loaded ++ [(m, s.atomics m)] }

/-- The value that was loaded of a metric. -/
def value (s : Scrape) (m : Metric) : UInt64 :=
  ((s.loaded.find? fun e => e.1 = m).map Prod.snd).getD 0

end Scrape

/-- The metrics that only grow. -/
def isCounter : Metric → Bool
  | .activeConns => false
  | .streamActive => false
  | .cacheBytes => false
  | .cacheEntries => false
  | _ => true

/-- The metric of an operation. -/
def Op.target : Op → Metric
  | .fetchAdd m _ => m
  | .fetchSub m _ => m
  | .store m _ => m

/-- What an operation adds to a metric. -/
def Op.added (m : Metric) : Op → Nat
  | .fetchAdd m' n => if m' = m then n.toNat else 0
  | _ => 0

/-- What has been recorded of a metric. -/
def recorded (m : Metric) (es : List Event) : Nat :=
  (es.map fun e => (e.op?.map (Op.added m)).getD 0).sum

/-- What is not an addition is about a gauge. -/
theorem ops_cases {call : Call} {o : Op} (ho : o ∈ call.ops) :
    (∃ m n, o = .fetchAdd m n) ∨ isCounter o.target = false := by
  cases call <;> simp only [Call.ops, List.mem_cons, List.not_mem_nil, or_false] at ho <;>
    rcases ho with rfl | rfl <;> simp [Op.target, isCounter]

/-- A counter is only ever added to. -/
theorem apply_counter {call : Call} {o : Op} (ho : o ∈ call.ops) {m : Metric}
    (hm : isCounter m = true) (c : Metric → UInt64) :
    o.apply c m = c m + UInt64.ofNat (o.added m) := by
  have hzero : c m = c m + UInt64.ofNat 0 := (UInt64.add_zero _).symm
  have hother : isCounter o.target = false → m ≠ o.target := by
    rintro hgauge rfl
    rw [hm] at hgauge
    cases hgauge
  have hcases := ops_cases ho
  cases o with
  | fetchAdd m' n =>
      rw [Op.apply, Op.added]
      split
      · next heq => rw [heq, Function.update_self, UInt64.ofNat_toNat]
      · next hne => rw [Function.update_of_ne (Ne.symm hne), ← hzero]
  | fetchSub m' n =>
      rcases hcases with ⟨m'', n', ho⟩ | hgauge
      · cases ho
      · exact (Function.update_of_ne (hother hgauge) _ _).trans hzero
  | store m' v =>
      rcases hcases with ⟨m'', n', ho⟩ | hgauge
      · cases ho
      · exact (Function.update_of_ne (hother hgauge) _ _).trans hzero

theorem recorded_append (m : Metric) (es fs : List Event) :
    recorded m (es ++ fs) = recorded m es + recorded m fs := by
  rw [recorded, List.map_append, List.sum_append]
  rfl

theorem atomics_step (s : Scrape) (e : Event) {m : Metric} (hm : isCounter m = true) :
    (s.step e).atomics m = s.atomics m + UInt64.ofNat (recorded m [e]) := by
  have hzero : s.atomics m = s.atomics m + UInt64.ofNat 0 := (UInt64.add_zero _).symm
  cases e with
  | load =>
      rw [Scrape.step]
      cases s.remaining with
      | nil => exact hzero
      | cons m' rest => exact hzero
  | op call k =>
      rw [Scrape.step, recorded, List.map_singleton, List.sum_singleton, Event.op?]
      cases ho : call.ops[k]? with
      | none => exact hzero
      | some o => exact apply_counter (List.mem_of_getElem? ho) hm s.atomics

/-- A counter shows what has been recorded, modulo its width. -/
theorem atomics_run (s : Scrape) (es : List Event) {m : Metric} (hm : isCounter m = true) :
    (run Scrape.step s es).atomics m = s.atomics m + UInt64.ofNat (recorded m es) := by
  induction es generalizing s with
  | nil => exact (UInt64.add_zero _).symm
  | cons e es ih =>
      rw [run_cons, ih, atomics_step s e hm, UInt64.add_assoc, ← UInt64.ofNat_add,
        ← recorded_append, List.singleton_append]

/-! ## Truth of the page -/

/-- The loads keep their order, and each value is the one at the time of its load. -/
structure Loaded (s₀ : Scrape) (es : List Event) (s : Scrape) : Prop where
  order : s.loaded.map Prod.fst ++ s.remaining = s₀.loaded.map Prod.fst ++ s₀.remaining
  value : ∀ e ∈ s.loaded, e ∈ s₀.loaded ∨
    ∃ pre post, es = pre ++ post ∧ e.2 = (run Scrape.step s₀ pre).atomics e.1

theorem loaded_run (s₀ : Scrape) (es : List Event) : Loaded s₀ es (run Scrape.step s₀ es) := by
  induction es using List.reverseRecOn with
  | nil => exact ⟨rfl, fun e he => Or.inl he⟩
  | append_singleton es e ih =>
      have hvalue : ∀ l ∈ (run Scrape.step s₀ es).loaded, l ∈ s₀.loaded ∨
          ∃ pre post, es ++ [e] = pre ++ post ∧ l.2 = (run Scrape.step s₀ pre).atomics l.1 := by
        intro l hl
        refine (ih.value l hl).imp_right ?_
        rintro ⟨pre, post, hes, hat⟩
        exact ⟨pre, post ++ [e], by rw [hes, List.append_assoc], hat⟩
      rw [run_concat]
      cases e with
      | op call k => exact ⟨ih.order, hvalue⟩
      | load =>
          have horder := ih.order
          rw [Scrape.step]
          cases hremaining : (run Scrape.step s₀ es).remaining with
          | nil => exact ⟨horder, hvalue⟩
          | cons m rest =>
              rw [hremaining] at horder
              refine ⟨?_, fun l hl => ?_⟩
              · rw [List.map_append, List.append_assoc]
                exact horder
              · rcases List.mem_append.1 hl with hl | hl
                · exact hvalue l hl
                · obtain rfl := List.mem_singleton.1 hl
                  exact Or.inr ⟨es, [.load], rfl, rfl⟩

/-- A finished page has a value of every metric, the one at some moment of the run. -/
theorem value_of_done {c : Metric → UInt64} {es : List Event}
    (hdone : (run Scrape.step (Scrape.start c) es).remaining = []) {m : Metric}
    (hm : m ∈ loadOrder) :
    ∃ pre post, es = pre ++ post ∧ (run Scrape.step (Scrape.start c) es).value m =
      (run Scrape.step (Scrape.start c) pre).atomics m := by
  have hloaded := loaded_run (Scrape.start c) es
  have horder := hloaded.order
  rw [hdone, List.append_nil] at horder
  have hmem : m ∈ (run Scrape.step (Scrape.start c) es).loaded.map Prod.fst := by
    rw [horder]
    exact hm
  obtain ⟨e, he, rfl⟩ := List.mem_map.1 hmem
  have hsome : ((run Scrape.step (Scrape.start c) es).loaded.find? fun l => l.1 = e.1).isSome =
      true := List.find?_isSome.2 ⟨e, he, decide_eq_true rfl⟩
  obtain ⟨l, hl⟩ := Option.isSome_iff_exists.1 hsome
  have hname : l.1 = e.1 := by
    have hfound := List.find?_some hl
    exact of_decide_eq_true hfound
  rcases hloaded.value l (List.mem_of_find?_eq_some hl) with hstart | ⟨pre, post, hes, hat⟩
  · cases hstart
  · refine ⟨pre, post, hes, ?_⟩
    rw [Scrape.value, hl, ← hname]
    exact hat

theorem mem_loadOrder (m : Metric) : m ∈ loadOrder := by
  cases m <;> decide

/-- The atomics after some operations since the start of the process. -/
def atomicsAfter (es : List Event) : Metric → UInt64 :=
  (run Scrape.step (Scrape.start fun _ => 0) es).atomics

theorem atomicsAfter_eq (es : List Event) {m : Metric} (hm : isCounter m = true) :
    atomicsAfter es m = UInt64.ofNat (recorded m es) := by
  rw [atomicsAfter, atomics_run _ es hm]
  exact UInt64.zero_add _

/-- **The page is truthful.** Take any run of the process since its start, a page that is written at
its end while all tasks go on, and any interleaving of their operations with the loads. As long as
no counter overflows, a reader of the format gets the lines of the page, with each series once, and
the value of every counter lies between what had been recorded before the page was asked for and
what had been recorded when it was done. -/
theorem scrape_truthful {version uptime : String} (hplain : Plain version uptime)
    (before during : List Event)
    (hdone : (run Scrape.step (Scrape.start (atomicsAfter before)) during).remaining = [])
    (hfits : ∀ m, recorded m (before ++ during) < 2 ^ 64) :
    let values := (run Scrape.step (Scrape.start (atomicsAfter before)) during).value
    Exposition.read (render version uptime values).toList = some (page version uptime values) ∧
      ((page version uptime values).filterMap series).Nodup ∧
      ∀ m, isCounter m = true →
        recorded m before ≤ (values m).toNat ∧
          (values m).toNat ≤ recorded m (before ++ during) := by
  intro values
  refine ⟨read_render hplain values, nodup_series version uptime values, fun m hm => ?_⟩
  obtain ⟨pre, post, rfl, hvalue⟩ := value_of_done hdone (mem_loadOrder m)
  have hat : values m = UInt64.ofNat (recorded m (before ++ pre)) := by
    rw [show values m = _ from hvalue, atomics_run _ pre hm, recorded_append, UInt64.ofNat_add]
    exact congrArg (· + _) (atomicsAfter_eq before hm)
  have hsplit : recorded m (before ++ (pre ++ post)) =
      recorded m before + recorded m pre + recorded m post := by
    rw [recorded_append, recorded_append, Nat.add_assoc]
  have hsize := hfits m
  rw [hat, recorded_append, UInt64.toNat_ofNat', hsplit]
  rw [hsplit] at hsize
  rw [Nat.mod_eq_of_lt (by omega)]
  omega

/-- A request is recorded before the page is asked for, another one behind its first load. -/
def busyPage : List Event :=
  [.load, .op (.recordRequest 404) 0, .op (.recordRequest 404) 1] ++ List.replicate 27 .load

theorem scrape_truthful_busyPage :
    let values := (run Scrape.step (Scrape.start (atomicsAfter
      [.op (.recordRequest 200) 0, .op (.recordRequest 200) 1])) busyPage).value
    Exposition.read (render "0.40.2" "12.345" values).toList =
        some (page "0.40.2" "12.345" values) ∧
      1 ≤ (values .reqs).toNat ∧ (values .reqs).toNat ≤ 2 ∧ (values .resp4xx).toNat ≤ 1 := by
  have hplain : Plain "0.40.2" "12.345" := ⟨by decide, by decide, by decide⟩
  obtain ⟨hread, -, hbounds⟩ := scrape_truthful hplain
    [.op (.recordRequest 200) 0, .op (.recordRequest 200) 1] busyPage (by decide)
    (fun m => by cases m <;> decide)
  obtain ⟨hlow, hhigh⟩ := hbounds .reqs rfl
  exact ⟨hread, hlow, hhigh, (hbounds .resp4xx rfl).2⟩

end Elrond.Metrics
