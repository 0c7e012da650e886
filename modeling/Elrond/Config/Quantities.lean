import Elrond.Config.Numbers
import Elrond.Http.Fields

/-!
# Quantities

Durations and sizes are written as a number and a unit. `parse_duration` and `parse_size` refuse a
number beyond 64 bits, and multiply it with the value of its unit modulo `2^64`. So an accepted text
denotes what it says unless the product of a number that fits does not fit itself
(`quantities_exact_iff`); a size may then even become zero, which for `client_max_body_size` means
that there is no limit.
-/

set_option autoImplicit false

namespace Elrond.Config

open Elrond.Lib Elrond.Request

/-! ## Numbers and units -/

/-- The text, without the blanks around it, is a number and the name of a unit: decimal digits and
the unit after them, or digits behind a plus sign. -/
inductive Written (s : String) : Nat → String → Prop
  | plain {ds : List Char} {unit : String} (hs : (Text.trim s).toList = ds ++ unit.toList)
      (hne : ds ≠ []) (hdigits : ds.all Text.isAsciiDigit = true) :
      Written s (Text.decimalValue ds) unit
  | signed {ds : List Char} (hs : (Text.trim s).toList = '+' :: ds) (hne : ds ≠ [])
      (hdigits : ds.all Text.isAsciiDigit = true) : Written s (Text.decimalValue ds) ""

/-- The nanoseconds of a unit of time; a bare number counts seconds. -/
def durationUnit : String → Option Nat
  | "" => some 1000000000
  | "ms" => some 1000000
  | "s" => some 1000000000
  | "m" => some (60 * 1000000000)
  | "h" => some (60 * 60 * 1000000000)
  | "d" => some (24 * 60 * 60 * 1000000000)
  | _ => none

/-- The bytes of a unit of size, in either case; a bare number counts bytes. -/
def sizeUnit (unit : String) : Option Nat :=
  match Text.toAsciiLowercase unit with
  | "" => some 1
  | "k" => some 1024
  | "m" => some (1024 * 1024)
  | "g" => some (1024 * 1024 * 1024)
  | _ => none

/-- The span from which on a `Duration` cannot be built: `2^64` seconds. -/
def durationLimit : Nat := 2 ^ 64 * 1000000000

/-- The size from which on a `usize` cannot be built. -/
def sizeLimit : Nat := 2 ^ 64

/-- What a reader accepts is the written number times its unit, and it refuses what does not fit. -/
def Exact (read : String → Option Nat) (units : String → Option Nat) (limit : Nat) (s : String) :
    Prop :=
  (∀ v, read s = some v → ∃ n unit m, Written s n unit ∧ units unit = some m ∧ v = n * m) ∧
    ∀ n unit m, Written s n unit → units unit = some m → limit ≤ n * m → read s = none

/-- The written number fits in 64 bits, and its product with the unit does not fit. -/
def Wraps (units : String → Option Nat) (limit : Nat) (s : String) : Prop :=
  ∃ n unit m, Written s n unit ∧ units unit = some m ∧ n < 2 ^ 64 ∧ limit ≤ n * m

/-! ## Reading -/

/-- The common part of `parse_duration` and `parse_size`: a bare number, or digits and a unit, with
the arithmetic of the unit. -/
def readQuantity (scale : String → Option (Nat → Nat)) (s : String) : Option Nat :=
  let s := Text.trim s
  match Text.parseUnsigned 64 s with
  | some n => (scale "").map (· n)
  | none => do
      let (num, unit) ← splitUnit s
      let n ← Text.parseUnsigned 64 num
      (scale unit).map (· n)

/-- The arithmetic of `parse_duration`. -/
def durationScale : String → Option (Nat → Nat)
  | "" => some Text.fromSecs
  | "ms" => some Text.fromMillis
  | "s" => some Text.fromSecs
  | "m" => some fun n => Text.fromSecs (n * 60 % 2 ^ 64)
  | "h" => some fun n => Text.fromSecs (n * 60 % 2 ^ 64 * 60 % 2 ^ 64)
  | "d" => some fun n => Text.fromSecs (n * 60 % 2 ^ 64 * 60 % 2 ^ 64 * 24 % 2 ^ 64)
  | _ => none

/-- The arithmetic of `parse_size`. -/
def sizeScale (unit : String) : Option (Nat → Nat) :=
  match Text.toAsciiLowercase unit with
  | "" => some id
  | "k" => some fun n => n * 1024 % 2 ^ 64
  | "m" => some fun n => n * 1024 % 2 ^ 64 * 1024 % 2 ^ 64
  | "g" => some fun n => n * 1024 % 2 ^ 64 * 1024 % 2 ^ 64 * 1024 % 2 ^ 64
  | _ => none

/-- The text does not start with a digit. -/
def NoDigit (unit : String) : Prop := ∀ c ∈ unit.toList.head?, Text.isAsciiDigit c = false

/-- Digits are split off before anything else. -/
theorem splitUnit_eq_some {t num unit : String} :
    splitUnit t = some (num, unit) ↔
      t.toList = num.toList ++ unit.toList ∧ num.toList.all Text.isAsciiDigit = true ∧
        unit ≠ "" ∧ NoDigit unit := by
  rw [splitUnit, List.span_eq_takeWhile_dropWhile]
  constructor
  · intro h
    have hall := List.all_takeWhile (p := Text.isAsciiDigit) (l := t.toList)
    have hsplit := List.takeWhile_append_dropWhile (p := Text.isAsciiDigit) (l := t.toList)
    have hhead := List.head?_dropWhile_not Text.isAsciiDigit t.toList
    cases hrest : t.toList.dropWhile Text.isAsciiDigit with
    | nil =>
        rw [hrest] at h
        cases h
    | cons c rest =>
        rw [hrest] at h hsplit hhead
        obtain ⟨rfl, rfl⟩ := Prod.mk.inj (Option.some.inj h)
        rw [String.toList_ofList, String.toList_ofList]
        refine ⟨hsplit.symm, hall, ?_, ?_⟩
        · intro hempty
          have hnil := congrArg String.toList hempty
          rw [String.toList_ofList] at hnil
          cases hnil
        · intro d hd
          rw [String.toList_ofList] at hd
          obtain rfl := Option.some.inj hd
          simpa using hhead
  · rintro ⟨ht, hnum, hunit, hno⟩
    have hdigits := List.all_eq_true.1 hnum
    cases hlist : unit.toList with
    | nil => exact absurd (String.toList_eq_nil_iff.1 hlist) hunit
    | cons c rest =>
        have hc : ¬ Text.isAsciiDigit c = true := by
          have hfalse := hno c (by rw [hlist]; rfl)
          simp [hfalse]
        rw [ht, hlist, List.takeWhile_append_of_pos hdigits, List.dropWhile_append_of_pos hdigits,
          List.takeWhile_cons_of_neg hc, List.dropWhile_cons_of_neg hc, List.append_nil]
        show some (String.ofList num.toList, String.ofList (c :: rest)) = some (num, unit)
        rw [← hlist, String.ofList_toList, String.ofList_toList]

theorem parseDuration_eq (s : String) : parseDuration s = readQuantity durationScale s := by
  rw [parseDuration, readQuantity]
  cases Text.parseUnsigned 64 (Text.trim s) with
  | some n => rfl
  | none =>
      cases hsplit : splitUnit (Text.trim s) with
      | none => rfl
      | some parts =>
          obtain ⟨num, unit⟩ := parts
          have hne : unit ≠ "" := (splitUnit_eq_some.1 hsplit).2.2.1
          simp only [Option.bind_eq_bind, Option.bind_some]
          cases Text.parseUnsigned 64 num with
          | none => rfl
          | some n =>
              simp only [Option.bind_some]
              rw [durationScale.eq_def]
              split <;> simp_all

theorem toAsciiLowercase_ne {unit : String} (h : unit ≠ "") : Text.toAsciiLowercase unit ≠ "" := by
  intro hlower
  have hnil := congrArg String.toList hlower
  rw [Text.toAsciiLowercase, String.toList_ofList] at hnil
  exact h (String.toList_eq_nil_iff.1 (List.map_eq_nil_iff.1 hnil))

theorem parseSize_eq (s : String) : parseSize s = readQuantity sizeScale s := by
  rw [parseSize, readQuantity]
  cases Text.parseUnsigned 64 (Text.trim s) with
  | some n => rfl
  | none =>
      cases hsplit : splitUnit (Text.trim s) with
      | none => rfl
      | some parts =>
          obtain ⟨num, unit⟩ := parts
          have hne : unit ≠ "" := (splitUnit_eq_some.1 hsplit).2.2.1
          have hlower : Text.toAsciiLowercase unit ≠ "" := toAsciiLowercase_ne hne
          simp only [Option.bind_eq_bind, Option.bind_some]
          cases Text.parseUnsigned 64 num with
          | none => rfl
          | some n =>
              simp only [Option.bind_some]
              rw [sizeScale]
              split <;> simp_all

/-- The digits before a unit are those up to the first character that is none. -/
theorem takeWhile_digits {ds : List Char} {unit : String}
    (hdigits : ds.all Text.isAsciiDigit = true) (hno : NoDigit unit) :
    (ds ++ unit.toList).takeWhile Text.isAsciiDigit = ds := by
  rw [List.takeWhile_append_of_pos (List.all_eq_true.1 hdigits)]
  cases hunit : unit.toList with
  | nil => rw [List.takeWhile_nil, List.append_nil]
  | cons c rest =>
      have hc := hno c (by rw [hunit]; rfl)
      rw [List.takeWhile_cons_of_neg (by rw [hc]; exact Bool.false_ne_true), List.append_nil]

theorem digits_ne_plus {ds ds' unit : List Char} (hne : ds ≠ [])
    (hdigits : ds.all Text.isAsciiDigit = true) : ds ++ unit ≠ '+' :: ds' := by
  intro h
  cases ds with
  | nil => exact hne rfl
  | cons c rest =>
      obtain ⟨rfl, -⟩ := List.cons.inj h
      exact absurd ((List.all_eq_true.1 hdigits) '+' List.mem_cons_self) (by decide)

/-- A text is read in one way with units that do not start with a digit. -/
theorem Written.unique {s unit unit' : String} {n n' : Nat} (h : Written s n unit)
    (h' : Written s n' unit') (hno : NoDigit unit) (hno' : NoDigit unit') :
    n = n' ∧ unit = unit' := by
  cases h with
  | plain hs hne hdigits =>
      cases h' with
      | plain hs' hne' hdigits' =>
          rw [hs] at hs'
          have hds := congrArg (List.takeWhile Text.isAsciiDigit) hs'
          rw [takeWhile_digits hdigits hno, takeWhile_digits hdigits' hno'] at hds
          subst hds
          exact ⟨rfl, String.toList_inj.1 (List.append_cancel_left hs')⟩
      | signed hs' hne' hdigits' =>
          rw [hs] at hs'
          exact absurd hs' (digits_ne_plus hne hdigits)
  | signed hs hne hdigits =>
      cases h' with
      | plain hs' hne' hdigits' =>
          rw [hs'] at hs
          exact absurd hs (digits_ne_plus hne' hdigits')
      | signed hs' hne' hdigits' =>
          rw [hs] at hs'
          rw [(List.cons.inj hs').2]
          exact ⟨rfl, rfl⟩

theorem written_of_parseUnsigned {s : String} {n : Nat}
    (h : Text.parseUnsigned 64 (Text.trim s) = some n) : Written s n "" ∧ n < 2 ^ 64 := by
  obtain ⟨ds, hs, hne, hdigits, rfl, hn⟩ := Text.parseUnsigned_eq_some.1 h
  refine ⟨?_, hn⟩
  rcases hs with hs | hs
  · exact .plain (by simpa using hs) hne hdigits
  · exact .signed hs hne hdigits

theorem noDigit_empty : NoDigit "" := by
  intro c hc
  cases hc

/-- A quantity is read from a number that fits and a unit with an arithmetic. -/
theorem readQuantity_eq_some {scale : String → Option (Nat → Nat)}
    (hscale : ∀ unit f, scale unit = some f → NoDigit unit) {s : String} {v : Nat} :
    readQuantity scale s = some v ↔
      ∃ n unit f, Written s n unit ∧ n < 2 ^ 64 ∧ scale unit = some f ∧ v = f n := by
  rw [readQuantity]
  constructor
  · intro h
    cases hbare : Text.parseUnsigned 64 (Text.trim s) with
    | some n =>
        simp only [hbare] at h
        obtain ⟨f, hf, rfl⟩ := Option.map_eq_some_iff.1 h
        obtain ⟨hwritten, hn⟩ := written_of_parseUnsigned hbare
        exact ⟨n, "", f, hwritten, hn, hf, rfl⟩
    | none =>
        simp only [hbare] at h
        obtain ⟨⟨num, unit⟩, hsplit, h⟩ := Option.bind_eq_some_iff.1 h
        obtain ⟨n, hnum, h⟩ := Option.bind_eq_some_iff.1 h
        obtain ⟨f, hf, rfl⟩ := Option.map_eq_some_iff.1 h
        obtain ⟨hs, hall, -, -⟩ := splitUnit_eq_some.1 hsplit
        obtain ⟨ds, hds, hne, hdigits, rfl, hn⟩ := Text.parseUnsigned_eq_some.1 hnum
        rcases hds with hds | hds
        · rw [hds] at hs
          exact ⟨_, unit, f, .plain hs hne hdigits, hn, hf, rfl⟩
        · rw [hds] at hall
          exact absurd ((List.all_eq_true.1 hall) '+' List.mem_cons_self) (by decide)
  · rintro ⟨n, unit, f, hwritten, hn, hf, rfl⟩
    cases hbare : Text.parseUnsigned 64 (Text.trim s) with
    | some k =>
        obtain ⟨rfl, rfl⟩ := hwritten.unique (written_of_parseUnsigned hbare).1 (hscale unit f hf)
          noDigit_empty
        simp only [hf, Option.map_some]
    | none =>
        cases hwritten with
        | signed hs hne hdigits =>
            rw [Text.parseUnsigned_eq_some.2 ⟨_, Or.inr hs, hne, hdigits, rfl, hn⟩] at hbare
            cases hbare
        | @plain ds unit hs hne hdigits =>
            have hunit : unit ≠ "" := by
              rintro rfl
              rw [String.toList_empty, List.append_nil] at hs
              rw [Text.parseUnsigned_eq_some.2 ⟨_, Or.inl hs, hne, hdigits, rfl, hn⟩] at hbare
              cases hbare
            have hsplit : splitUnit (Text.trim s) = some (String.ofList ds, unit) := by
              rw [splitUnit_eq_some, String.toList_ofList]
              exact ⟨hs, hdigits, hunit, hscale unit f hf⟩
            have hnum : Text.parseUnsigned 64 (String.ofList ds) = some (Text.decimalValue ds) :=
              Text.parseUnsigned_eq_some.2 ⟨ds, Or.inl String.toList_ofList, hne, hdigits, rfl, hn⟩
            simp only [hsplit, hnum, hf, Option.bind_eq_bind, Option.bind_some, Option.map_some]

/-! ## Exactness -/

/-- The arithmetic of every unit multiplies with its value, as long as the product fits. -/
structure Scales (scale : String → Option (Nat → Nat)) (units : String → Option Nat)
    (limit : Nat) : Prop where
  noDigit : ∀ unit m, units unit = some m → NoDigit unit
  defined : ∀ unit, (scale unit).isSome = (units unit).isSome
  product : ∀ unit f m n, scale unit = some f → units unit = some m → n * m < limit → f n = n * m

/-- A reader is exact unless the product of a number that fits does not fit. -/
theorem Scales.exact_iff {scale : String → Option (Nat → Nat)} {units : String → Option Nat}
    {limit : Nat} (h : Scales scale units limit) (s : String) :
    Exact (readQuantity scale) units limit s ↔ ¬ Wraps units limit s := by
  have hnoDigit : ∀ unit f, scale unit = some f → NoDigit unit := by
    intro unit f hf
    have hsome := h.defined unit
    rw [hf] at hsome
    obtain ⟨m, hm⟩ := Option.isSome_iff_exists.1 hsome.symm
    exact h.noDigit unit m hm
  have hread := @readQuantity_eq_some scale hnoDigit s
  constructor
  · rintro ⟨-, hrefused⟩ ⟨n, unit, m, hwritten, hm, hn, hlimit⟩
    have hsome := h.defined unit
    rw [hm] at hsome
    obtain ⟨f, hf⟩ := Option.isSome_iff_exists.1 hsome
    have hnone := hrefused n unit m hwritten hm hlimit
    rw [hread.2 ⟨n, unit, f, hwritten, hn, hf, rfl⟩] at hnone
    cases hnone
  · intro hwraps
    constructor
    · intro v hv
      obtain ⟨n, unit, f, hwritten, hn, hf, rfl⟩ := hread.1 hv
      have hsome := h.defined unit
      rw [hf] at hsome
      obtain ⟨m, hm⟩ := Option.isSome_iff_exists.1 hsome.symm
      have hfits : n * m < limit := by
        by_contra hlimit
        exact hwraps ⟨n, unit, m, hwritten, hm, hn, Nat.not_lt.1 hlimit⟩
      exact ⟨n, unit, m, hwritten, hm, h.product unit f m n hf hm hfits⟩
    · intro n unit m hwritten hm hlimit
      cases hv : readQuantity scale s with
      | none => rfl
      | some v =>
          obtain ⟨n', unit', f, hwritten', hn, hf, -⟩ := hread.1 hv
          obtain ⟨rfl, rfl⟩ := hwritten.unique hwritten' (h.noDigit unit m hm) (hnoDigit unit' f hf)
          exact absurd ⟨n, unit, m, hwritten, hm, hn, hlimit⟩ hwraps

theorem noDigit_of_head {unit : String} {c : Char} {rest : List Char}
    (h : unit.toList = c :: rest) (hc : Text.isAsciiDigit c = false) : NoDigit unit := by
  intro d hd
  rw [h] at hd
  obtain rfl := Option.some.inj hd
  exact hc

/-- Lower case changes no digit. -/
theorem noDigit_of_toAsciiLowercase {unit : String} (h : NoDigit (Text.toAsciiLowercase unit)) :
    NoDigit unit := by
  intro c hc
  have hlower : c.toLower ∈ (Text.toAsciiLowercase unit).toList.head? := by
    rw [Text.toAsciiLowercase, String.toList_ofList, List.head?_map, hc]
    rfl
  rw [← Http.apply_toLower Text.isAsciiDigit (by decide)]
  exact h c.toLower hlower

theorem durationScales : Scales durationScale durationUnit durationLimit where
  noDigit := by
    intro unit m h
    rw [durationUnit.eq_def] at h
    split at h
    · exact noDigit_empty
    · exact noDigit_of_head rfl rfl
    · exact noDigit_of_head rfl rfl
    · exact noDigit_of_head rfl rfl
    · exact noDigit_of_head rfl rfl
    · exact noDigit_of_head rfl rfl
    · cases h
  defined := by
    intro unit
    rw [durationScale.eq_def, durationUnit.eq_def]
    split <;> rfl
  product := by
    intro unit f m n hf hm hlimit
    rw [durationScale.eq_def] at hf
    rw [durationUnit.eq_def] at hm
    rw [durationLimit] at hlimit
    split at hf <;> cases hf <;> cases hm <;> simp only [Text.fromSecs, Text.fromMillis] <;> omega

theorem sizeScales : Scales sizeScale sizeUnit sizeLimit where
  noDigit := by
    intro unit m h
    apply noDigit_of_toAsciiLowercase
    rw [sizeUnit] at h
    split at h
    · next hunit => rw [hunit]; exact noDigit_empty
    · next hunit => rw [hunit]; exact noDigit_of_head rfl rfl
    · next hunit => rw [hunit]; exact noDigit_of_head rfl rfl
    · next hunit => rw [hunit]; exact noDigit_of_head rfl rfl
    · cases h
  defined := by
    intro unit
    rw [sizeScale, sizeUnit]
    split <;> rfl
  product := by
    intro unit f m n hf hm hlimit
    rw [sizeScale] at hf
    rw [sizeUnit] at hm
    rw [sizeLimit] at hlimit
    split at hf
    · next hunit =>
      rw [hunit] at hm
      cases hf
      cases hm
      exact (Nat.mul_one n).symm
    · next hunit =>
      rw [hunit] at hm
      cases hf
      cases hm
      dsimp only
      omega
    · next hunit =>
      rw [hunit] at hm
      cases hf
      cases hm
      dsimp only
      omega
    · next hunit =>
      rw [hunit] at hm
      cases hf
      cases hm
      dsimp only
      omega
    · cases hf

theorem sizeUnit_pos {unit : String} {m : Nat} (h : sizeUnit unit = some m) : 0 < m := by
  rw [sizeUnit] at h
  split at h <;> cases h
  all_goals decide

/-! ## The limit of a server -/

/-- The first argument of the last directive with a name. -/
def lastArg (name : String) (block : List Directive) : Option String :=
  (linesNamed name block).getLast?.bind fun d => d.args.head?

theorem lastArg_concat_of_eq {name : String} {block : List Directive} {d : Directive}
    (h : d.name = name) : lastArg name (block ++ [d]) = d.args.head? := by
  simp [lastArg, linesNamed, List.filter_append, h]

theorem lastArg_concat_of_ne {name : String} {block : List Directive} {d : Directive}
    (h : d.name ≠ name) : lastArg name (block ++ [d]) = lastArg name block := by
  simp [lastArg, linesNamed, List.filter_append, h]

/-- A field that the directives of one name set, each anew, holds what the last of them says. -/
theorem foldlM_lastArg {S V : Type} {f : S → Directive → Except String S} (field : S → Option V)
    {name : String} {read : String → Option V} {s₀ : S} (h₀ : field s₀ = none)
    (hset : ∀ s d s', f s d = .ok s' → d.name = name → field s' = d.args.head?.bind read)
    (hkeep : ∀ s d s', f s d = .ok s' → d.name ≠ name → field s' = field s)
    {block : List Directive} {s : S} (h : block.foldlM f s₀ = .ok s) :
    field s = (lastArg name block).bind read := by
  refine foldlM_induction (motive := fun seen s => field s = (lastArg name seen).bind read) h₀ ?_ h
  intro seen d s s' hseen hd
  by_cases hname : d.name = name
  · rw [hset s d s' hd hname, lastArg_concat_of_eq hname]
  · rw [hkeep s d s' hd hname, lastArg_concat_of_ne hname, hseen]

/-- A field of a server that the directives of one name set holds what the last of them says. -/
theorem buildServer_lastArg {V : Type} (field : Server → Option V) {name : String}
    {read : String → Option V} {env : Externals} (h₀ : ∀ root, field { root := root } = none)
    (hset : ∀ root d p s, serverPatch env root d = .ok p → d.name = name →
      field (p.apply s) = d.args.head?.bind read)
    (hkeep : ∀ (p : ServerPatch) s, p.owner ≠ some name → field (p.apply s) = field s)
    {block : List Directive} {s : Server} (h : buildServer env block = .ok s) :
    field s = (lastArg name block).bind read := by
  rw [buildServer] at h
  obtain ⟨root, -, h⟩ := bind_eq_ok.1 h
  obtain ⟨s', hfold, h⟩ := bind_eq_ok.1 h
  rw [checkServer_eq h]
  refine foldlM_lastArg field (h₀ root) ?_ ?_ hfold
  · intro s d s' hstep hname
    rw [serverStep_eq] at hstep
    obtain ⟨p, hp, rfl⟩ := map_eq_ok.1 hstep
    exact hset s.root d p s hp hname
  · intro s d s' hstep hname
    rw [serverStep_eq] at hstep
    obtain ⟨p, hp, rfl⟩ := map_eq_ok.1 hstep
    apply hkeep
    rcases serverPatch_owner hp with howner | howner
    · rw [howner]
      exact (Option.some_ne_none name).symm
    · rw [howner]
      exact fun heq => hname (Option.some.inj heq)

/-- The limit of a server is that of its last `client_max_body_size` line. -/
theorem buildServer_bodySize {env : Externals} {block : List Directive} {s : Server}
    (h : buildServer env block = .ok s) :
    s.clientMaxBodySize = (lastArg "client_max_body_size" block).bind parseSize := by
  refine buildServer_lastArg Server.clientMaxBodySize (fun _ => rfl) ?_ ?_ h
  · intro root d p s hp hname
    rw [serverPatch, hname] at hp
    obtain ⟨a, ha, hp⟩ := bind_eq_ok.1 hp
    obtain ⟨n, hn, hp⟩ := bind_eq_ok.1 hp
    obtain rfl := Except.ok.inj hp
    rw [arg1_eq_ok.1 ha, Option.bind_some, orError_eq_ok.1 hn]
    rfl
  · intro p s howner
    cases p with
    | clientMaxBodySize n => exact absurd rfl howner
    | _ => rfl

/-- **Quantities are exact unless they wrap.** For every text, `parse_duration` gives the written
number times the value of its unit, and refuses what a `Duration` cannot hold, exactly if it is not
the case that the number fits in 64 bits and the product is too large. The same holds of
`parse_size`. So an accepted server has no limit for request bodies only if the size on its last
`client_max_body_size` line is zero, or it wraps. -/
theorem quantities_exact_iff (s : String) :
    (Exact parseDuration durationUnit durationLimit s ↔ ¬ Wraps durationUnit durationLimit s) ∧
    (Exact parseSize sizeUnit sizeLimit s ↔ ¬ Wraps sizeUnit sizeLimit s) ∧
    ∀ env block server, buildServer env block = .ok server →
      lastArg "client_max_body_size" block = some s → server.clientMaxBodySize = some 0 →
        Wraps sizeUnit sizeLimit s ∨ ∃ unit, Written s 0 unit := by
  have hsize : Exact parseSize sizeUnit sizeLimit s ↔ ¬ Wraps sizeUnit sizeLimit s := by
    rw [← sizeScales.exact_iff s, ← funext parseSize_eq]
  refine ⟨?_, hsize, ?_⟩
  · rw [← durationScales.exact_iff s, ← funext parseDuration_eq]
  · intro env block server hbuild hlast hzero
    rw [buildServer_bodySize hbuild, hlast, Option.bind_some] at hzero
    by_cases hwraps : Wraps sizeUnit sizeLimit s
    · exact Or.inl hwraps
    · obtain ⟨n, unit, m, hwritten, hm, hproduct⟩ := (hsize.2 hwraps).1 0 hzero
      have hpos : 0 < m := sizeUnit_pos hm
      have hn : n = 0 := by
        rcases Nat.mul_eq_zero.1 hproduct.symm with hn | hm0
        · exact hn
        · omega
      exact Or.inr ⟨unit, hn ▸ hwritten⟩

/-- `17179869184g` is `2^64` bytes and is accepted as none, and `307445734561825861m`, which is more
than `2^64` seconds, as 44 seconds. -/
theorem quantities_wrap :
    (parseSize "17179869184g" = some 0 ∧ ¬ Exact parseSize sizeUnit sizeLimit "17179869184g") ∧
      parseDuration "307445734561825861m" = some (Text.fromSecs 44) ∧
      ¬ Exact parseDuration durationUnit durationLimit "307445734561825861m" := by
  have hsize : parseSize "17179869184g" = some 0 := by decide
  have hduration : parseDuration "307445734561825861m" = some (Text.fromSecs 44) := by decide
  have hgiga : Written "17179869184g" 17179869184 "g" :=
    @Written.plain _ "17179869184".toList "g" (by decide) (by decide) (by decide)
  have hminutes : Written "307445734561825861m" 307445734561825861 "m" :=
    @Written.plain _ "307445734561825861".toList "m" (by decide) (by decide) (by decide)
  refine ⟨⟨hsize, ?_⟩, hduration, ?_⟩
  · rintro ⟨-, hrefused⟩
    have hnone := hrefused _ _ _ hgiga rfl (by decide)
    rw [hsize] at hnone
    cases hnone
  · rintro ⟨-, hrefused⟩
    have hnone := hrefused _ _ _ hminutes rfl (by decide)
    rw [hduration] at hnone
    cases hnone

end Elrond.Config
