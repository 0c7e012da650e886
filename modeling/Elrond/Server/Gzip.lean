import Elrond.Http.Fields
import Elrond.Server.Handle

/-!
# What `maybe_compress` does

`maybe_compress` checks five conditions on the location, the request and the headers of a response
before it reads the body to its end (`collects`), and then the body itself. A body that is not read
goes out as it came, one that breaks off goes out empty, and one that is whole goes out compressed
if `codedBody` gives its compressed form. What is known of the function elsewhere follows from
`maybeCompress_of_not_collects` and `maybeCompress_of_collects`.
-/

set_option autoImplicit false

namespace Elrond.Server

open Elrond.Lib Elrond.Http Elrond.Request Elrond.Config Elrond.Upstream Elrond.Proxy Elrond.Limit
  Elrond.App

/-! ## Conditions -/

/-- `maybe_compress` reads a body with the given status and headers to its end. -/
def collects (status : Nat) (headers reqHeaders : HeaderMap) (gzipEnabled : Bool)
    (gzipTypes : List String) (maxCollect : Option Nat) : Bool :=
  gzipEnabled && clientAcceptsGzip reqHeaders && statusEligible status &&
    (headers.get "content-encoding").isNone && contentTypeEligible headers gzipTypes &&
    withinCollect headers maxCollect

/-- Every condition of `maybe_compress` is met. -/
def compresses (crates : Crates) (response : Response) (reqHeaders : HeaderMap)
    (gzipEnabled : Bool) (gzipTypes : List String) (maxCollect : Option Nat) (minLength : Nat) :
    Bool :=
  gzipEnabled && clientAcceptsGzip reqHeaders && statusEligible response.status &&
    (response.headers.get "content-encoding").isNone &&
    contentTypeEligible response.headers gzipTypes && withinCollect response.headers maxCollect &&
    !response.body.failed && minLength ≤ response.body.data.length &&
    (crates.gzip response.body.data).isSome

/-- A body that is read to its end breaks off, or is compressed. -/
def altersBody (crates : Crates) (response : Response) (gzipEnabled : Bool)
    (gzipTypes : List String) (maxCollect : Option Nat) (minLength : Nat) : Bool :=
  gzipEnabled && statusEligible response.status &&
    (response.headers.get "content-encoding").isNone &&
    contentTypeEligible response.headers gzipTypes && withinCollect response.headers maxCollect &&
    (response.body.failed ||
      (minLength ≤ response.body.data.length && (crates.gzip response.body.data).isSome))

/-- What a body is compressed to, if it is. -/
def codedBody (crates : Crates) (offered : Bool) (minLength : Nat) (body : Bytes) : Option Bytes :=
  if offered = true ∧ minLength ≤ body.length then crates.gzip body else none

/-! ## The body -/

section

variable (crates : Crates) {response : Response} {reqHeaders : HeaderMap} {gzipEnabled : Bool}
  {gzipTypes : List String} {maxCollect : Option Nat} (minLength : Nat)

/-- What is not read to its end goes out as it came. -/
theorem maybeCompress_of_not_collects
    (h : collects response.status response.headers reqHeaders gzipEnabled gzipTypes maxCollect =
      false) :
    maybeCompress crates response reqHeaders gzipEnabled gzipTypes maxCollect minLength =
      response := by
  rw [maybeCompress]
  split_ifs with hon hstatus hplain htype hcollect hbody hlength
  · rfl
  · rfl
  · rfl
  · rfl
  · rfl
  -- past the five conditions, the body is collected
  all_goals
    exfalso
    simp_all [collects]

/-- What is read to its end goes out empty if it breaks off, and else compressed or as it came. -/
theorem maybeCompress_of_collects
    (h : collects response.status response.headers reqHeaders gzipEnabled gzipTypes maxCollect =
      true) :
    maybeCompress crates response reqHeaders gzipEnabled gzipTypes maxCollect minLength =
      if response.body.failed then { response with body := full [] }
      else
        match codedBody crates true minLength response.body.data with
        | some bytes => compressed response bytes
        | none => response := by
  simp only [collects, Bool.and_eq_true, Option.isNone_iff_eq_none] at h
  obtain ⟨⟨⟨⟨⟨hon, haccepts⟩, hstatus⟩, hplain⟩, htype⟩, hcollect⟩ := h
  simp only [maybeCompress, hon, haccepts, hstatus, hplain, htype, hcollect, Bool.not_true,
    Bool.or_self, Bool.false_eq_true, if_false, Option.isSome_none]
  cases hbody : response.body.failed with
  | true => rfl
  | false =>
      -- a whole body that was collected and put back is the same body
      have hfull : { response with body := full response.body.data } = response := by
        rw [full, ← hbody]
      simp only [Bool.false_eq_true, if_false, hfull, codedBody, true_and]
      by_cases hlength : response.body.data.length < minLength
      · rw [if_pos hlength, if_neg (Nat.not_le.2 hlength)]
      · cases crates.gzip response.body.data with
        | none => simp only [if_neg hlength, if_pos (Nat.not_lt.1 hlength)]
        | some bytes => simp only [if_neg hlength, if_pos (Nat.not_lt.1 hlength)]

/-- A whole body goes out compressed or as it came. -/
theorem maybeCompress_of_whole (response : Response) (reqHeaders : HeaderMap) (gzipEnabled : Bool)
    (gzipTypes : List String) (maxCollect : Option Nat) (hwhole : response.body.failed = false) :
    let offered := collects response.status response.headers reqHeaders gzipEnabled gzipTypes
      maxCollect
    maybeCompress crates response reqHeaders gzipEnabled gzipTypes maxCollect minLength =
      match codedBody crates offered minLength response.body.data with
      | some bytes => compressed response bytes
      | none => response := by
  intro offered
  cases h : offered with
  | false =>
      rw [maybeCompress_of_not_collects crates minLength h, codedBody,
        if_neg fun hboth => Bool.false_ne_true hboth.1]
  | true =>
      rw [maybeCompress_of_collects crates minLength h, hwhole]
      rfl

theorem codedBody_eq_some {offered : Bool} {body bytes : Bytes} :
    codedBody crates offered minLength body = some bytes ↔
      offered = true ∧ minLength ≤ body.length ∧ crates.gzip body = some bytes := by
  rw [codedBody, Option.ite_none_right_eq_some, and_assoc]

/-- Every condition is met exactly if a whole body has a compressed form. -/
theorem compresses_iff :
    compresses crates response reqHeaders gzipEnabled gzipTypes maxCollect minLength = true ↔
      response.body.failed = false ∧ ∃ bytes,
        codedBody crates (collects response.status response.headers reqHeaders gzipEnabled gzipTypes
          maxCollect) minLength response.body.data = some bytes := by
  simp only [codedBody_eq_some, exists_and_left, ← Option.isSome_iff_exists, collects, compresses,
    Bool.and_eq_true, Bool.not_eq_true', decide_eq_true_eq]
  tauto

theorem maybeCompress_of_compresses
    (h : compresses crates response reqHeaders gzipEnabled gzipTypes maxCollect minLength = true) :
    ∃ bytes, crates.gzip response.body.data = some bytes ∧
      maybeCompress crates response reqHeaders gzipEnabled gzipTypes maxCollect minLength =
        compressed response bytes := by
  obtain ⟨hwhole, bytes, hcoded⟩ := (compresses_iff crates minLength).1 h
  refine ⟨bytes, ((codedBody_eq_some crates minLength).1 hcoded).2.2, ?_⟩
  rw [maybeCompress_of_whole crates minLength response reqHeaders gzipEnabled gzipTypes maxCollect
    hwhole, hcoded]

/-- A whole body that is not compressed goes out as it came. -/
theorem maybeCompress_of_not_compresses
    (h : compresses crates response reqHeaders gzipEnabled gzipTypes maxCollect minLength = false)
    (hwhole : response.body.failed = false) :
    maybeCompress crates response reqHeaders gzipEnabled gzipTypes maxCollect minLength =
      response := by
  rw [maybeCompress_of_whole crates minLength response reqHeaders gzipEnabled gzipTypes maxCollect
    hwhole]
  cases hcoded : codedBody crates (collects response.status response.headers reqHeaders gzipEnabled
      gzipTypes maxCollect) minLength response.body.data with
  | none => rfl
  | some bytes =>
      -- a whole body with a compressed form meets every condition
      have hyes := (compresses_iff crates minLength).2 ⟨hwhole, bytes, hcoded⟩
      rw [h] at hyes
      cases hyes

/-- A response goes out as it came, or empty, or compressed. -/
theorem maybeCompress_cases (response : Response) (reqHeaders : HeaderMap) (gzipEnabled : Bool)
    (gzipTypes : List String) (maxCollect : Option Nat) :
    let out := maybeCompress crates response reqHeaders gzipEnabled gzipTypes maxCollect minLength
    let changed := compresses crates response reqHeaders gzipEnabled gzipTypes maxCollect minLength
    changed = false ∧ out = response ∨
      changed = false ∧ response.body.failed = true ∧ out = { response with body := full [] } ∨
      changed = true ∧ ∃ bytes, out = compressed response bytes := by
  intro out changed
  cases hchanged : changed with
  | true =>
      obtain ⟨bytes, -, hout⟩ := maybeCompress_of_compresses crates minLength hchanged
      exact Or.inr (Or.inr ⟨rfl, bytes, hout⟩)
  | false =>
      cases hfailed : response.body.failed with
      | false =>
          exact Or.inl ⟨rfl, maybeCompress_of_not_compresses crates minLength hchanged hfailed⟩
      | true =>
          cases hcollects : collects response.status response.headers reqHeaders gzipEnabled
              gzipTypes maxCollect with
          | false => exact Or.inl ⟨rfl, maybeCompress_of_not_collects crates minLength hcollects⟩
          | true =>
              have hout := maybeCompress_of_collects crates minLength hcollects
              rw [hfailed, if_pos rfl] at hout
              exact Or.inr (Or.inl ⟨rfl, rfl, hout⟩)

end

/-! ## Clients -/

section

variable (crates : Crates) (response : Response) (reqHeaders : HeaderMap) (gzipEnabled : Bool)
  (gzipTypes : List String) (maxCollect : Option Nat) (minLength : Nat)

/-- The client decides about compression by whether it accepts gzip, and the rest does not depend on
the client. -/
theorem compresses_eq :
    compresses crates response reqHeaders gzipEnabled gzipTypes maxCollect minLength =
      (clientAcceptsGzip reqHeaders && !response.body.failed &&
        altersBody crates response gzipEnabled gzipTypes maxCollect minLength) := by
  -- the conditions are the same, in another order
  rw [compresses, altersBody]
  cases response.body.failed <;> grind

/-- Of the request, only whether it accepts gzip matters. -/
theorem maybeCompress_congr {h₁ h₂ : HeaderMap}
    (h : clientAcceptsGzip h₁ = clientAcceptsGzip h₂) :
    maybeCompress crates response h₁ gzipEnabled gzipTypes maxCollect minLength =
      maybeCompress crates response h₂ gzipEnabled gzipTypes maxCollect minLength := by
  rw [maybeCompress, maybeCompress, h]

variable {crates response reqHeaders gzipEnabled gzipTypes maxCollect minLength}

theorem maybeCompress_of_refused (h : clientAcceptsGzip reqHeaders = false) :
    maybeCompress crates response reqHeaders gzipEnabled gzipTypes maxCollect minLength =
      response := by
  rw [maybeCompress, h, Bool.not_false, Bool.or_true, if_pos rfl]

/-- What is not altered goes out as it came. -/
theorem maybeCompress_of_not_alters
    (h : altersBody crates response gzipEnabled gzipTypes maxCollect minLength = false) :
    maybeCompress crates response reqHeaders gzipEnabled gzipTypes maxCollect minLength =
      response := by
  cases hfailed : response.body.failed with
  | false =>
      apply maybeCompress_of_not_compresses crates minLength _ hfailed
      rw [compresses_eq, h, Bool.and_false]
  | true =>
      -- a broken body is altered whenever it is read
      apply maybeCompress_of_not_collects
      rw [altersBody, hfailed, Bool.true_or, Bool.and_true] at h
      grind [collects]

/-- A broken body that is altered goes out empty. -/
theorem maybeCompress_of_broken (haccepts : clientAcceptsGzip reqHeaders = true)
    (h : altersBody crates response gzipEnabled gzipTypes maxCollect minLength = true)
    (hfailed : response.body.failed = true) :
    maybeCompress crates response reqHeaders gzipEnabled gzipTypes maxCollect minLength =
      { response with body := full [] } := by
  have hcollects : collects response.status response.headers reqHeaders gzipEnabled gzipTypes
      maxCollect = true := by
    rw [altersBody, hfailed, Bool.true_or, Bool.and_true] at h
    grind [collects]
  rw [maybeCompress_of_collects crates minLength hcollects, hfailed, if_pos rfl]

end

/-! ## The compressed response -/

theorem getAll_insertText (h : HeaderMap) (name : HeaderName) (value : String) {b : String}
    (hb : Text.toAsciiLowercase b ≠ name.text) :
    (insertText h name value).getAll b = h.getAll b := by
  rw [insertText]
  cases HeaderValue.fromStr value with
  | none => rfl
  | some v => exact (HeaderMap.getAll_insert h name v b).trans (if_neg hb)

theorem getAll_insertText_of_eq (h : HeaderMap) {n : HeaderName} {value b : String}
    (hb : Text.toAsciiLowercase b = n.text)
    (hvalue : ∀ c ∈ value.toList, isVisibleChar c = true) :
    ∃ v, v.bytes = Text.utf8Bytes value ∧ v.members = textMembers value ∧
      (insertText h n value).getAll b = [v] := by
  obtain ⟨v, hv, hbytes, htext⟩ := fromStr_of_visible hvalue
  refine ⟨v, hbytes, ?_, ?_⟩
  · rw [HeaderValue.members, htext]
  · rw [insertText, hv]
    exact (HeaderMap.getAll_insert h n v b).trans (if_pos hb)

/-- A compressed response says so. -/
theorem getAll_compressed (response : Response) (bytes : Bytes) :
    (compressed response bytes).headers.getAll "content-encoding" = [gzipValue] := by
  simp only [compressed]
  rw [getAll_insertText _ _ _ (by decide), getAll_insertText _ _ _ (by decide),
    HeaderMap.getAll_insert, if_pos (by decide)]

/-- Lines other than the three that are written stay. -/
theorem getAll_compressed_of_ne (response : Response) (bytes : Bytes) {b : String}
    (hcoding : Text.toAsciiLowercase b ≠ "content-encoding")
    (hlength : Text.toAsciiLowercase b ≠ "content-length")
    (hvary : Text.toAsciiLowercase b ≠ "vary") :
    (compressed response bytes).headers.getAll b = response.headers.getAll b := by
  have hcoding' : Text.toAsciiLowercase b ≠ contentEncoding.text := hcoding
  simp only [compressed]
  rw [getAll_insertText _ _ _ hvary, getAll_insertText _ _ _ hlength, HeaderMap.getAll_insert,
    if_neg hcoding']

theorem status_compressed (response : Response) (bytes : Bytes) :
    (compressed response bytes).status = response.status := by
  rw [compressed]

theorem status_maybeCompress (crates : Crates) (response : Response) (reqHeaders : HeaderMap)
    (gzipEnabled : Bool) (gzipTypes : List String) (maxCollect : Option Nat) (minLength : Nat) :
    (maybeCompress crates response reqHeaders gzipEnabled gzipTypes maxCollect minLength).status =
      response.status := by
  rcases maybeCompress_cases crates minLength response reqHeaders gzipEnabled gzipTypes
    maxCollect with ⟨-, hout⟩ | ⟨-, -, hout⟩ | ⟨-, bytes, hout⟩
  · rw [hout]
  · rw [hout]
  · rw [hout, status_compressed]

/-- The coding of the response has changed. -/
def Coded (response out : Response) : Prop :=
  out.headers.getAll "content-encoding" ≠ response.headers.getAll "content-encoding"

/-- A response with a coding is not compressed. -/
theorem getAll_of_compresses {crates : Crates} {response : Response} {reqHeaders : HeaderMap}
    {gzipEnabled : Bool} {gzipTypes : List String} {maxCollect : Option Nat} {minLength : Nat}
    (h : compresses crates response reqHeaders gzipEnabled gzipTypes maxCollect minLength = true) :
    response.headers.getAll "content-encoding" = [] := by
  simp only [compresses, Bool.and_eq_true, Option.isNone_iff_eq_none, HeaderMap.get,
    List.head?_eq_none_iff] at h
  exact h.1.1.1.1.1.2

/-- The coding changes exactly if every condition of `maybe_compress` is met. -/
theorem coded_iff (crates : Crates) (response : Response) (reqHeaders : HeaderMap)
    (gzipEnabled : Bool) (gzipTypes : List String) (maxCollect : Option Nat) (minLength : Nat) :
    Coded response
        (maybeCompress crates response reqHeaders gzipEnabled gzipTypes maxCollect minLength) ↔
      compresses crates response reqHeaders gzipEnabled gzipTypes maxCollect minLength = true := by
  rcases maybeCompress_cases crates minLength response reqHeaders gzipEnabled gzipTypes
    maxCollect with ⟨hno, hout⟩ | ⟨hno, -, hout⟩ | ⟨hyes, bytes, hout⟩
  · rw [hno, hout]
    exact iff_of_false (fun h => h rfl) Bool.false_ne_true
  · rw [hno, hout]
    exact iff_of_false (fun h => h rfl) Bool.false_ne_true
  · rw [hyes, Coded, hout, getAll_compressed, getAll_of_compresses hyes]
    exact iff_of_true (List.cons_ne_nil _ _) rfl

end Elrond.Server
