import Elrond.Lib.Base64
import Elrond.Lib.Fallible
import Elrond.Lib.Quoted
import Elrond.Request.Utf8
import Elrond.Server.Gates

/-!
# Password files

`AuthBasic::load` of `auth.rs` reads an htpasswd file into a table of users, and `check` looks up
the credentials of a request there. The file is read line by line: blank lines and comments are
skipped, any other line has to be a name, a colon and a bcrypt hash, and the first one that is not
is the error (`load_text`).

Who is let in is said from the file and the request alone (`basic_auth_iff`): the credentials are
the base64 of a name and a password, the name has an entry, and the password verifies against the
hash of its last entry. Everybody else is told the realm, exactly as it is configured
(`challenge_realm`).
-/

set_option autoImplicit false

namespace Elrond.Server

open Elrond.Lib Elrond.Http Elrond.Request Elrond.App

/-! ## Reading the file -/

/-- A line without the carriage return that ends it. -/
def stripCarriageReturn (line : List Char) : List Char :=
  if line.getLast? = some '\r' then line.dropLast else line

/-- `str::lines`: the pieces between line feeds, the last one only if it is not empty. A carriage
return belongs to the line feed behind it. -/
def lines (s : String) : List String :=
  let pieces := s.toList.splitOn '\n'
  let last := pieces.getLast?.filter fun l => !l.isEmpty
  (pieces.dropLast.map stripCarriageReturn ++ last.toList).map String.ofList

/-- `is_bcrypt`. -/
def isBcrypt (hash : String) : Bool :=
  (Text.stripPrefix "$2y$" hash).isSome || (Text.stripPrefix "$2a$" hash).isSome ||
    (Text.stripPrefix "$2b$" hash).isSome

/-- A line that is skipped: blank, or a comment. -/
def isSkipped (raw : String) : Bool :=
  (Text.trim raw).isEmpty || (Text.trim raw).toList.head? = some '#'

/-- An error with the file and the line it is about. -/
def atLine (path : String) (lineNo : Nat) (reason : String) : String :=
  s!"{path}:{lineNo}: " ++ reason

/-- The body of the loop of `parse_htpasswd`: the entry of a line, if it has one. -/
def htpasswdLine (path : String) (lineNo : Nat) (raw : String) :
    Except String (Option (String × String)) :=
  if isSkipped raw then .ok none
  else
    match Text.splitOnce ':' (Text.trim raw) with
    | none => .error (atLine path lineNo s!"expected 'user:hash', got '{raw}'")
    | some (user, hash) =>
        if isBcrypt hash then .ok (some (user, hash))
        else
          .error (atLine path lineNo (s!"user '{user}' uses a non-bcrypt hash. Elrond " ++
            "only accepts bcrypt (`$2y$…`, `$2a$…`, `$2b$…`). Re-create " ++
            "with `htpasswd -nbB user password`."))

/-- One round of the loop of `parse_htpasswd`: a later entry of a name replaces an earlier one. -/
def htpasswdRound (path : String) (out : HashMap String String) (l : String × Nat) :
    Except String (HashMap String String) := do
  match ← htpasswdLine path (l.2 + 1) l.1 with
  | some (user, hash) => .ok (out.insert user hash)
  | none => .ok out

/-- `parse_htpasswd`. -/
def parseHtpasswd (text path : String) : Except String (HashMap String String) :=
  (lines text).zipIdx.foldlM (htpasswdRound path) ∅

/-- `AuthBasic::load`, over what reading the file gives. -/
def AuthBasic.load (readToString : String → Except String String) (path realm : String) :
    Except String AuthBasic :=
  match readToString path with
  | .error e => .error s!"cannot read auth_basic_user_file '{path}': {e}"
  | .ok text => do
      let users ← parseHtpasswd text path
      if users.entries.isEmpty then
        .error s!"auth_basic_user_file '{path}' is empty after stripping comments"
      else .ok ⟨realm, users⟩

/-! ## What the file says -/

/-- The name and the hash of a line that is not skipped. -/
def entryOf (raw : String) : Option (String × String) :=
  if isSkipped raw then none else Text.splitOnce ':' (Text.trim raw)

/-- The line is skipped, or it is a name with a bcrypt hash. -/
def LineAccepted (raw : String) : Prop :=
  isSkipped raw = true ∨ ∃ user hash, entryOf raw = some (user, hash) ∧ isBcrypt hash = true

/-- The last entry of the name in the file has the hash. -/
def LastEntry (text user hash : String) : Prop :=
  ∃ before raw after, lines text = before ++ raw :: after ∧ entryOf raw = some (user, hash) ∧
    ∀ raw' ∈ after, ∀ hash', entryOf raw' ≠ some (user, hash')

/-- A line is accepted with its entry, or the error names the file and the line. -/
theorem htpasswdLine_cases (path : String) (lineNo : Nat) (raw : String) :
    (LineAccepted raw ∧ htpasswdLine path lineNo raw = .ok (entryOf raw)) ∨
      (¬ LineAccepted raw ∧
        ∃ reason, htpasswdLine path lineNo raw = .error (atLine path lineNo reason)) := by
  rw [LineAccepted, htpasswdLine, entryOf]
  cases hskip : isSkipped raw with
  | true => exact Or.inl ⟨Or.inl rfl, rfl⟩
  | false =>
      simp only [Bool.false_eq_true, if_false, false_or]
      cases hsplit : Text.splitOnce ':' (Text.trim raw) with
      | none =>
          refine Or.inr ⟨?_, _, rfl⟩
          rintro ⟨user, hash, hentry, -⟩
          cases hentry
      | some entry =>
          obtain ⟨user, hash⟩ := entry
          cases hbcrypt : isBcrypt hash with
          | true => exact Or.inl ⟨⟨user, hash, rfl, hbcrypt⟩, if_pos hbcrypt⟩
          | false =>
              refine Or.inr ⟨?_, _, if_neg (Bool.eq_false_iff.1 hbcrypt)⟩
              rintro ⟨user', hash', hentry, hbcrypt'⟩
              obtain ⟨rfl, rfl⟩ := Prod.mk.inj (Option.some.inj hentry)
              rw [hbcrypt] at hbcrypt'
              cases hbcrypt'

theorem htpasswdRound_eq_ok {path : String} {out out' : HashMap String String}
    {l : String × Nat} :
    htpasswdRound path out l = .ok out' ↔
      LineAccepted l.1 ∧
        out' = ((entryOf l.1).toList).foldl (fun m p => m.insert p.1 p.2) out := by
  rw [htpasswdRound]
  rcases htpasswdLine_cases path (l.2 + 1) l.1 with ⟨haccepted, hline⟩ | ⟨hrefused, reason, hline⟩
  · rw [hline]
    cases hentry : entryOf l.1 with
    | none =>
        refine ⟨fun h => ⟨haccepted, (Except.ok.inj h).symm⟩, ?_⟩
        rintro ⟨-, rfl⟩
        rfl
    | some p =>
        refine ⟨fun h => ⟨haccepted, (Except.ok.inj h).symm⟩, ?_⟩
        rintro ⟨-, rfl⟩
        rfl
  · rw [hline]
    refine ⟨fun h => ?_, fun h => absurd h.1 hrefused⟩
    cases h

theorem htpasswdRound_eq_error {path : String} {out : HashMap String String} {l : String × Nat}
    {e : String} (h : htpasswdRound path out l = .error e) :
    ¬ LineAccepted l.1 ∧ ∃ reason, e = atLine path (l.2 + 1) reason := by
  rw [htpasswdRound] at h
  rcases htpasswdLine_cases path (l.2 + 1) l.1 with ⟨haccepted, hline⟩ | ⟨hrefused, reason, hline⟩
  · rw [hline] at h
    cases hentry : entryOf l.1 with
    | none =>
        rw [hentry] at h
        cases h
    | some p =>
        rw [hentry] at h
        cases h
  · rw [hline] at h
    exact ⟨hrefused, reason, (Except.error.inj h).symm⟩

/-- The entries of a list of lines, in order. -/
def entriesOf (ls : List String) : List (String × String) := ls.filterMap entryOf

/-- A fold of rounds: every line is accepted, and the table collects the entries. -/
theorem foldlM_htpasswdRound {path : String} {ls : List (String × Nat)}
    {out out' : HashMap String String} :
    ls.foldlM (htpasswdRound path) out = .ok out' ↔
      (∀ l ∈ ls, LineAccepted l.1) ∧
        out' = (entriesOf (ls.map Prod.fst)).foldl (fun m p => m.insert p.1 p.2) out := by
  induction ls generalizing out with
  | nil =>
      constructor
      · intro h
        exact ⟨fun l hl => absurd hl List.not_mem_nil, (Except.ok.inj h).symm⟩
      · rintro ⟨-, rfl⟩
        rfl
  | cons l ls ih =>
      have hentries : entriesOf ((l :: ls).map Prod.fst) =
          (entryOf l.1).toList ++ entriesOf (ls.map Prod.fst) := by
        rw [entriesOf, List.map_cons, List.filterMap_cons]
        cases entryOf l.1 with
        | none => rfl
        | some p => rfl
      rw [List.foldlM_cons, bind_eq_ok, hentries, List.foldl_append, List.forall_mem_cons]
      constructor
      · rintro ⟨mid, hround, hrest⟩
        obtain ⟨haccepted, rfl⟩ := htpasswdRound_eq_ok.1 hround
        obtain ⟨hall, rfl⟩ := ih.1 hrest
        exact ⟨⟨haccepted, hall⟩, rfl⟩
      · rintro ⟨⟨haccepted, hall⟩, rfl⟩
        exact ⟨_, htpasswdRound_eq_ok.2 ⟨haccepted, rfl⟩, ih.2 ⟨hall, rfl⟩⟩

/-- The file is read if every line is accepted; the last entry of a name counts. -/
theorem parseHtpasswd_eq_ok_iff {text path : String} {users : HashMap String String} :
    parseHtpasswd text path = .ok users ↔
      (∀ raw ∈ lines text, LineAccepted raw) ∧
        users = HashMap.collect (entriesOf (lines text)) := by
  rw [parseHtpasswd, foldlM_htpasswdRound, List.zipIdx_map_fst, HashMap.collect]
  refine and_congr_left fun _ => ?_
  rw [← List.zipIdx_map_fst 0 (lines text), List.forall_mem_map, List.zipIdx_map_fst]

/-- The error names the first line that is not accepted. -/
theorem parseHtpasswd_eq_error {text path e : String} (h : parseHtpasswd text path = .error e) :
    ∃ before raw after reason, lines text = before ++ raw :: after ∧
      (∀ raw' ∈ before, LineAccepted raw') ∧ ¬ LineAccepted raw ∧
        e = atLine path (before.length + 1) reason := by
  obtain ⟨read, l, rest, out, hls, hread, hround⟩ := foldlM_eq_error h
  obtain ⟨hrefused, reason, rfl⟩ := htpasswdRound_eq_error hround
  have hlines : lines text = read.map Prod.fst ++ l.1 :: rest.map Prod.fst := by
    rw [← List.zipIdx_map_fst 0 (lines text), hls, List.map_append, List.map_cons]
  refine ⟨_, l.1, _, reason, hlines, ?_, hrefused, ?_⟩
  · rw [List.forall_mem_map]
    exact (foldlM_htpasswdRound.1 hread).1
  · have hnumber : (lines text).zipIdx[read.length]? = some l := by
      rw [hls, List.getElem?_append_right le_rfl, Nat.sub_self]
      rfl
    rw [List.getElem?_zipIdx, Option.map_eq_some_iff] at hnumber
    obtain ⟨raw, -, rfl⟩ := hnumber
    rw [List.length_map, Nat.zero_add]

/-- The table has the hash of the last entry of a name. -/
theorem lookup_entries {text user hash : String} :
    (HashMap.collect (entriesOf (lines text))).lookup user = some hash ↔
      LastEntry text user hash := by
  rw [HashMap.lookup_collect, entriesOf, ← List.filterMap_reverse, List.find?_filterMap,
    Option.map_eq_some_iff]
  constructor
  · rintro ⟨p, hp, rfl⟩
    obtain ⟨raw, hfind, hentry⟩ := Option.bind_eq_some_iff.1 hp
    obtain ⟨hraw, after, before, hls, hafter⟩ := List.find?_eq_some_iff_append.1 hfind
    have huser : p.1 = user := by
      rw [hentry] at hraw
      exact of_decide_eq_true hraw
    refine ⟨before.reverse, raw, after.reverse, ?_, ?_, ?_⟩
    · rw [← List.reverse_reverse (lines text), hls, List.reverse_append, List.reverse_cons,
        List.append_assoc, List.singleton_append]
    · rw [hentry, ← huser]
    · intro raw' hraw' hash' hentry'
      have hnot := hafter raw' (List.mem_reverse.1 hraw')
      rw [hentry'] at hnot
      simp at hnot
  · rintro ⟨before, raw, after, hls, hentry, hafter⟩
    refine ⟨(user, hash), Option.bind_eq_some_iff.2 ⟨raw, ?_, hentry⟩, rfl⟩
    refine List.find?_eq_some_iff_append.2 ⟨?_, after.reverse, before.reverse, ?_, ?_⟩
    · rw [hentry]
      exact decide_eq_true rfl
    · rw [hls, List.reverse_append, List.reverse_cons, List.append_assoc, List.singleton_append]
    · intro raw' hraw'
      have hnot := hafter raw' (List.mem_reverse.1 hraw')
      cases hentry' : entryOf raw' with
      | none => rfl
      | some p =>
          have hne : p.1 ≠ user := by
            rintro rfl
            exact hnot p.2 hentry'
          simpa using hne

/-! ## Credentials -/

/-- The base64 of credentials. -/
def encodeCredentials (user password : String) : String :=
  String.ofList (Base64.encode (Text.utf8Bytes (user ++ ":" ++ password)))

/-- Only white space. -/
def IsBlank (s : String) : Prop := ∀ c ∈ s.toList, Text.isWhitespace c = true

/-- The request carries the credentials of a user: its first `authorization` line is a scheme, a
space and the base64 of the credentials, with white space around it at most. -/
def Carries (headers : HeaderMap) (user password : String) : Prop :=
  ∃ v scheme pre post, headers.get "authorization" = some v ∧
    v.toStr = some (scheme ++ " " ++ (pre ++ encodeCredentials user password ++ post)) ∧
    Text.toAsciiLowercase scheme = "basic" ∧ IsBlank pre ∧ IsBlank post ∧ ':' ∉ user.toList

theorem dropWhile_eq_self_of_neg {p : Char → Bool} {cs : List Char}
    (h : ∀ c ∈ cs, p c = false) : cs.dropWhile p = cs := by
  cases cs with
  | nil => rfl
  | cons c cs => exact List.dropWhile_cons_of_neg (Bool.eq_false_iff.1 (h c List.mem_cons_self))

/-- Trimming to a text without white space. -/
theorem trim_eq_iff {s t : String} (ht : ∀ c ∈ t.toList, Text.isWhitespace c = false) :
    Text.trim s = t ↔ ∃ pre post, IsBlank pre ∧ IsBlank post ∧ s = pre ++ t ++ post := by
  constructor
  · rintro rfl
    refine ⟨String.ofList (s.toList.takeWhile Text.isWhitespace),
      String.ofList ((s.toList.dropWhile Text.isWhitespace).rtakeWhile Text.isWhitespace),
      ?_, ?_, ?_⟩
    · intro c hc
      rw [String.toList_ofList] at hc
      exact List.mem_takeWhile_imp hc
    · intro c hc
      rw [String.toList_ofList] at hc
      exact List.mem_rtakeWhile_imp hc
    · apply String.toList_injective
      rw [String.toList_append, String.toList_append, Text.trim, String.toList_ofList,
        String.toList_ofList, String.toList_ofList, List.append_assoc,
        List.rdropWhile_append_rtakeWhile, List.takeWhile_append_dropWhile]
  · rintro ⟨pre, post, hpre, hpost, rfl⟩
    apply String.toList_injective
    have hreverse : ∀ c ∈ t.toList.reverse, Text.isWhitespace c = false :=
      fun c hc => ht c (List.mem_reverse.1 hc)
    have hpost' : ∀ c ∈ post.toList.reverse, Text.isWhitespace c = true :=
      fun c hc => hpost c (List.mem_reverse.1 hc)
    rw [Text.trim, String.toList_ofList, String.toList_append, String.toList_append,
      List.append_assoc, List.dropWhile_append_of_pos hpre]
    cases hcs : t.toList with
    | nil =>
        rw [List.nil_append, List.dropWhile_eq_nil_iff.2 hpost]
        rfl
    | cons c cs =>
        have hc : ¬ Text.isWhitespace c = true :=
          Bool.eq_false_iff.1 (ht c (by rw [hcs]; exact List.mem_cons_self))
        rw [List.cons_append, List.dropWhile_cons_of_neg hc, ← List.cons_append, ← hcs,
          List.rdropWhile, List.reverse_append, List.dropWhile_append_of_pos hpost',
          dropWhile_eq_self_of_neg hreverse, List.reverse_reverse]

theorem not_blank_of_mem_encode {bs : Bytes} {c : Char} (h : c ∈ Base64.encode bs) :
    Text.isWhitespace c = false := by
  have hall : (Base64.padding :: Base64.alphabet).all (fun c => !Text.isWhitespace c) = true := by
    decide
  have hc := List.all_eq_true.1 hall c (List.mem_cons.2 (Base64.mem_of_mem_encode h))
  rwa [Bool.not_eq_true'] at hc

theorem fromUtf8_eq_some {bs : Bytes} {s : String} :
    fromUtf8 bs = some s ↔ bs = Text.utf8Bytes s := by
  rw [fromUtf8]
  constructor
  · intro h
    split at h
    · next hvalid =>
      obtain rfl := Option.some.inj h
      exact hvalid.symm
    · cases h
  · rintro rfl
    simp only [fromUtf8Lossy_utf8Bytes, if_true]

/-- The scheme has no space in it. -/
theorem space_notMem_scheme {scheme : String} (h : Text.toAsciiLowercase scheme = "basic") :
    ' ' ∉ scheme.toList := by
  intro hmem
  have hlower : ' ' ∈ (Text.toAsciiLowercase scheme).toList := by
    rw [Text.toAsciiLowercase, String.toList_ofList]
    exact List.mem_map.2 ⟨' ', hmem, rfl⟩
  rw [h] at hlower
  revert hlower
  decide

/-- What `parse_authorization` accepts. -/
theorem parseAuthorization_eq_some {crates : Crates}
    (hbase64 : ∀ s, crates.base64Decode s = Base64.decode s.toList) {headers : HeaderMap}
    {credentials : String} :
    parseAuthorization crates headers = some credentials ↔
      ∃ v scheme pre post, headers.get "authorization" = some v ∧
        v.toStr = some (scheme ++ " " ++
          (pre ++ String.ofList (Base64.encode (Text.utf8Bytes credentials)) ++ post)) ∧
        Text.toAsciiLowercase scheme = "basic" ∧ IsBlank pre ∧ IsBlank post := by
  have hblank : ∀ c ∈ (String.ofList (Base64.encode (Text.utf8Bytes credentials))).toList,
      Text.isWhitespace c = false := by
    rw [String.toList_ofList]
    exact fun c hc => not_blank_of_mem_encode hc
  constructor
  · intro h
    obtain ⟨value, hvalue, h⟩ := Option.bind_eq_some_iff.1 h
    obtain ⟨v, hv, hvalue⟩ := Option.bind_eq_some_iff.1 hvalue
    obtain ⟨⟨scheme, rest⟩, hsplit, h⟩ := Option.bind_eq_some_iff.1 h
    simp only at h
    split at h
    · next hscheme =>
      obtain ⟨bs, hbs, hcredentials⟩ := Option.bind_eq_some_iff.1 h
      obtain rfl := fromUtf8_eq_some.1 hcredentials
      rw [hbase64, Base64.decode_eq_some_iff] at hbs
      have htrim : Text.trim rest = String.ofList (Base64.encode (Text.utf8Bytes credentials)) := by
        rw [← hbs, String.ofList_toList]
      obtain ⟨pre, post, hpre, hpost, rfl⟩ := (trim_eq_iff hblank).1 htrim
      refine ⟨v, scheme, pre, post, hv, ?_, hscheme, hpre, hpost⟩
      rw [hvalue]
      refine congrArg some (String.toList_injective ?_)
      rw [(Text.splitOnce_eq_some.1 hsplit).1, String.toList_append, String.toList_append]
      simp
    · cases h
  · rintro ⟨v, scheme, pre, post, hv, hvalue, hscheme, hpre, hpost⟩
    have hsplit : Text.splitOnce ' ' (scheme ++ " " ++
        (pre ++ String.ofList (Base64.encode (Text.utf8Bytes credentials)) ++ post)) =
        some (scheme,
          pre ++ String.ofList (Base64.encode (Text.utf8Bytes credentials)) ++ post) := by
      refine Text.splitOnce_eq_some.2 ⟨?_, space_notMem_scheme hscheme⟩
      rw [String.toList_append, String.toList_append]
      simp
    have hdecode : crates.base64Decode
        (String.ofList (Base64.encode (Text.utf8Bytes credentials))) =
          some (Text.utf8Bytes credentials) := by
      rw [hbase64, String.toList_ofList, Base64.decode_encode]
    have htrim := (trim_eq_iff hblank).2 ⟨pre, post, hpre, hpost, rfl⟩
    rw [parseAuthorization, hv, Option.bind_some, hvalue]
    simp only [Option.bind_eq_bind, Option.bind_some, hsplit, if_pos hscheme, htrim, hdecode]
    exact fromUtf8_eq_some.2 rfl

/-- What a file has to be to be loaded, and what is loaded. -/
theorem load_eq_ok_iff {readToString : String → Except String String} {path realm : String}
    {auth : AuthBasic} :
    AuthBasic.load readToString path realm = .ok auth ↔
      ∃ text, readToString path = .ok text ∧ (∀ raw ∈ lines text, LineAccepted raw) ∧
        entriesOf (lines text) ≠ [] ∧ auth = ⟨realm, HashMap.collect (entriesOf (lines text))⟩ := by
  have hempty : ∀ ps : List (String × String),
      (HashMap.collect ps).entries.isEmpty = true ↔ ps = [] := by
    intro ps
    constructor
    · intro h
      cases ps with
      | nil => rfl
      | cons p ps =>
          have hnone : (HashMap.collect (p :: ps)).lookup p.1 = none := by
            apply AList.lookup_eq_none.2
            rw [AList.mem_keys, AList.keys, List.isEmpty_iff.1 h]
            exact List.not_mem_nil
          exact absurd List.mem_cons_self (HashMap.lookup_collect_eq_none.1 hnone)
    · rintro rfl
      rfl
  rw [AuthBasic.load]
  cases readToString path with
  | error e =>
      constructor
      · intro h
        cases h
      · rintro ⟨text, hread, -⟩
        cases hread
  | ok text =>
      constructor
      · intro h
        obtain ⟨users, hparse, h⟩ := bind_eq_ok.1 h
        obtain ⟨haccepted, rfl⟩ := parseHtpasswd_eq_ok_iff.1 hparse
        split at h
        · cases h
        · next hsome =>
          exact ⟨text, rfl, haccepted, fun hnil => hsome ((hempty _).2 hnil),
            (Except.ok.inj h).symm⟩
      · rintro ⟨text', hread, haccepted, hsome, rfl⟩
        obtain rfl := Except.ok.inj hread
        refine bind_eq_ok.2 ⟨_, parseHtpasswd_eq_ok_iff.2 ⟨haccepted, rfl⟩, ?_⟩
        exact if_neg fun hnil => hsome ((hempty _).1 hnil)

/-- **What is read from a password file.** A file that can be read is loaded only if each line is
accepted, with the last entry of every name; otherwise the error says that there is no entry, or it
names the first line that is not accepted. -/
theorem load_text (text path realm : String) :
    (∀ auth, AuthBasic.load (fun _ => .ok text) path realm = .ok auth →
      (∀ raw ∈ lines text, LineAccepted raw) ∧
        ∀ user hash, auth.users.lookup user = some hash ↔ LastEntry text user hash) ∧
      ∀ e, AuthBasic.load (fun _ => .ok text) path realm = .error e →
        ((∀ raw ∈ lines text, LineAccepted raw) ∧ entriesOf (lines text) = [] ∧
            e = s!"auth_basic_user_file '{path}' is empty after stripping comments") ∨
          ∃ before raw after reason, lines text = before ++ raw :: after ∧
            (∀ raw' ∈ before, LineAccepted raw') ∧ ¬ LineAccepted raw ∧
              e = atLine path (before.length + 1) reason := by
  constructor
  · intro auth hload
    obtain ⟨text', hread, haccepted, -, rfl⟩ := load_eq_ok_iff.1 hload
    obtain rfl := Except.ok.inj hread
    exact ⟨haccepted, fun user hash => lookup_entries⟩
  · intro e hload
    cases hparse : parseHtpasswd text path with
    | error e' =>
        have he : AuthBasic.load (fun _ => .ok text) path realm = .error e' := by
          simp only [AuthBasic.load, hparse]
          rfl
        obtain rfl := Except.error.inj (hload.symm.trans he)
        exact Or.inr (parseHtpasswd_eq_error hparse)
    | ok users =>
        obtain ⟨haccepted, rfl⟩ := parseHtpasswd_eq_ok_iff.1 hparse
        by_cases hentries : entriesOf (lines text) = []
        · refine Or.inl ⟨haccepted, hentries, ?_⟩
          simp only [AuthBasic.load, hparse, hentries] at hload
          exact (Except.error.inj hload).symm
        · cases hload.symm.trans (load_eq_ok_iff.2 ⟨text, rfl, haccepted, hentries, rfl⟩)

theorem authCheck_eq_ok {crates : Crates} {auth : AuthBasic} {headers : HeaderMap} :
    authCheck crates auth headers = .ok () ↔
      ∃ user password hash, parseAuthorization crates headers = some (user ++ ":" ++ password) ∧
        ':' ∉ user.toList ∧ auth.users.lookup user = some hash ∧
        crates.bcryptVerify password hash = some true := by
  have hsplit : ∀ credentials user password,
      Text.splitOnce ':' credentials = some (user, password) ↔
        credentials = user ++ ":" ++ password ∧ ':' ∉ user.toList := by
    intro credentials user password
    rw [Text.splitOnce_eq_some, ← String.toList_inj, String.toList_append, String.toList_append,
      List.append_assoc]
    rfl
  have hholds :
      authCheck crates auth headers = .ok () ↔ credentialsHold crates auth headers = true := by
    rw [authCheck]
    cases credentialsHold crates auth headers with
    | true => exact iff_of_true rfl rfl
    | false => exact iff_of_false (fun h => by cases h) Bool.false_ne_true
  rw [hholds, credentialsHold]
  constructor
  · intro h
    split at h
    · next user password hcredentials =>
      obtain ⟨credentials, hparse, hsplit'⟩ := Option.bind_eq_some_iff.1 hcredentials
      obtain ⟨rfl, hcolon⟩ := (hsplit _ _ _).1 hsplit'
      split at h
      · next hash hlookup =>
        refine ⟨user, password, hash, hparse, hcolon, hlookup, ?_⟩
        cases hverify : crates.bcryptVerify password hash with
        | none =>
            rw [hverify] at h
            cases h
        | some verified =>
            rw [hverify] at h
            exact congrArg some h
      · cases h
    · cases h
  · rintro ⟨user, password, hash, hparse, hcolon, hlookup, hverify⟩
    rw [hparse, Option.bind_some, (hsplit _ _ _).2 ⟨rfl, hcolon⟩]
    simp only [hlookup, hverify, Option.getD_some]

/-- **Who is let in.** A request passes a location with a password file exactly if it carries a name
and a password of which the password verifies against the hash of the last entry of the name in the
file. -/
theorem basic_auth_iff {crates : Crates}
    (hbase64 : ∀ s, crates.base64Decode s = Base64.decode s.toList)
    {readToString : String → Except String String} {path realm : String} {auth : AuthBasic}
    (hload : AuthBasic.load readToString path realm = .ok auth) (headers : HeaderMap) :
    authCheck crates auth headers = .ok () ↔
      ∃ text user password hash, readToString path = .ok text ∧ Carries headers user password ∧
        LastEntry text user hash ∧ crates.bcryptVerify password hash = some true := by
  obtain ⟨text, hread, -, -, rfl⟩ := load_eq_ok_iff.1 hload
  rw [authCheck_eq_ok]
  constructor
  · rintro ⟨user, password, hash, hparse, hcolon, hlookup, hverify⟩
    obtain ⟨v, scheme, pre, post, hv, hvalue, hscheme, hpre, hpost⟩ :=
      (parseAuthorization_eq_some hbase64).1 hparse
    exact ⟨text, user, password, hash, hread,
      ⟨v, scheme, pre, post, hv, hvalue, hscheme, hpre, hpost, hcolon⟩, lookup_entries.1 hlookup,
      hverify⟩
  · rintro ⟨text', user, password, hash, hread', hcarries, hentry, hverify⟩
    obtain rfl := Except.ok.inj (hread.symm.trans hread')
    obtain ⟨v, scheme, pre, post, hv, hvalue, hscheme, hpre, hpost, hcolon⟩ := hcarries
    exact ⟨user, password, hash, (parseAuthorization_eq_some hbase64).2
      ⟨v, scheme, pre, post, hv, hvalue, hscheme, hpre, hpost⟩, hcolon, lookup_entries.2 hentry,
      hverify⟩

/-- A file with a comment and one user. -/
def oneUserFile : String :=
  "# staff\nalice:$2a$05$CCCCCCCCCCCCCCCCCCCCC.E5YPO9kmyuRGyh0XouQYb4YMJKvyOeW\n"

/-- The hash of the user in `oneUserFile`, of the password `U*U`. -/
def aliceHash : String := "$2a$05$CCCCCCCCCCCCCCCCCCCCC.E5YPO9kmyuRGyh0XouQYb4YMJKvyOeW"

/-- What a request with the credentials of the user in `oneUserFile` uses. -/
def aliceCrates : Crates where
  parseUri _ := .error "not a URI"
  base64Decode s := Base64.decode s.toList
  bcryptVerify password hash := some (password == "U*U" && hash == aliceHash)
  gzip _ := none

theorem isValidByte_aliceLine : (Text.utf8Bytes "Basic YWxpY2U6VSpV").all isValidByte = true := by
  decide

/-- The line `authorization: Basic YWxpY2U6VSpV`. -/
def aliceHeaders : HeaderMap :=
  ⟨[(authorization, ⟨Text.utf8Bytes "Basic YWxpY2U6VSpV", isValidByte_aliceLine⟩)]⟩

theorem lines_oneUserFile : lines oneUserFile = ["# staff", "alice:" ++ aliceHash] := by
  decide +kernel

theorem basic_auth_alice :
    authCheck aliceCrates ⟨"staff", HashMap.collect [("alice", aliceHash)]⟩ aliceHeaders =
      .ok () := by
  have hcomment : isSkipped "# staff" = true := by decide
  have hentry : entryOf ("alice:" ++ aliceHash) = some ("alice", aliceHash) := by decide +kernel
  have hentries : entriesOf (lines oneUserFile) = [("alice", aliceHash)] := by
    rw [lines_oneUserFile]
    decide +kernel
  have hload : AuthBasic.load (fun _ => .ok oneUserFile) "users" "staff" =
      .ok ⟨"staff", HashMap.collect [("alice", aliceHash)]⟩ := by
    refine load_eq_ok_iff.2 ⟨oneUserFile, rfl, ?_, ?_, ?_⟩
    · rw [lines_oneUserFile]
      simp only [List.forall_mem_cons, List.not_mem_nil, false_implies, implies_true, and_true]
      exact ⟨Or.inl hcomment, Or.inr ⟨_, _, hentry, by decide⟩⟩
    · rw [hentries]
      exact List.cons_ne_nil _ _
    · rw [hentries]
  refine (basic_auth_iff (fun s => rfl) hload aliceHeaders).2
    ⟨oneUserFile, "alice", "U*U", aliceHash, rfl, ?_, ?_, by decide⟩
  · refine ⟨_, "Basic", "", "", rfl, by decide +kernel, by decide, ?_, ?_, by decide⟩
    · exact fun c hc => by cases hc
    · exact fun c hc => by cases hc
  · exact ⟨["# staff"], _, [], lines_oneUserFile, hentry, fun raw' hraw' => by cases hraw'⟩

/-! ## The challenge -/

/-- A character that no header value has: a control character other than a tab. -/
def isControl (c : Char) : Bool := (c.toNat < 32 && c != '\t') || c.toNat == 127

theorem isValidByte_of_high {n : Nat} (hlow : 128 ≤ n) (hhigh : n < 256) :
    isValidByte (UInt8.ofNat n) = true := by
  have hn : (UInt8.ofNat n).toNat = n := toNat_ofNat_lt hhigh
  rw [isValidByte, Bool.or_eq_true, Bool.and_eq_true, decide_eq_true_eq, bne_iff_ne,
    UInt8.le_iff_toNat_le, ne_eq, ← UInt8.toNat_inj, hn]
  refine Or.inl ⟨?_, ?_⟩
  · show 32 ≤ n
    omega
  · show n ≠ 127
    omega

/-- The bytes of a character are legal in a header value, unless it is a control character. -/
theorem all_isValidByte_encodeChar (c : Char) :
    (String.utf8EncodeChar c).all isValidByte = !isControl c := by
  have hval : c.toNat = c.val.toNat := rfl
  by_cases hascii : c.toNat < 128
  · have hall : ∀ n < 128, (String.utf8EncodeChar (Char.ofNat n)).all isValidByte =
        !isControl (Char.ofNat n) := by
      decide +kernel
    rw [← Char.ofNat_toNat c]
    exact hall _ hascii
  · have hcontrol : isControl c = false := by
      rw [isControl, Bool.or_eq_false_iff, Bool.and_eq_false_iff, decide_eq_false_iff_not,
        beq_eq_false_iff_ne]
      exact ⟨Or.inl (by omega), by omega⟩
    rw [hcontrol, String.utf8EncodeChar, if_neg (by omega)]
    split
    · simp only [List.all_cons, List.all_nil]
      rw [isValidByte_of_high (by omega) (by omega), isValidByte_of_high (by omega) (by omega)]
      rfl
    · split
      · simp only [List.all_cons, List.all_nil]
        rw [isValidByte_of_high (by omega) (by omega), isValidByte_of_high (by omega) (by omega),
          isValidByte_of_high (by omega) (by omega)]
        rfl
      · simp only [List.all_cons, List.all_nil]
        rw [isValidByte_of_high (by omega) (by omega), isValidByte_of_high (by omega) (by omega),
          isValidByte_of_high (by omega) (by omega), isValidByte_of_high (by omega) (by omega)]
        rfl

/-- A text is a header value, unless it has a control character other than a tab. -/
theorem fromStr_eq_none_iff (s : String) :
    HeaderValue.fromStr s = none ↔ ∃ c ∈ s.toList, isControl c = true := by
  have hlegal : (Text.utf8Bytes s).all isValidByte = true ↔
      ¬ ∃ c ∈ s.toList, isControl c = true := by
    rw [Text.utf8Bytes, List.all_flatMap, List.all_eq_true, not_exists]
    refine forall_congr' fun c => ?_
    rw [all_isValidByte_encodeChar, Bool.not_eq_true', not_and, Bool.not_eq_true]
  rw [HeaderValue.fromStr]
  split
  · next hvalid => exact iff_of_false (fun h => by cases h) (hlegal.1 hvalid)
  · next hinvalid => exact iff_of_true rfl (not_not.1 fun h => hinvalid (hlegal.2 h))

/-- The reading of a challenge: the scheme, the parameter, and a quoted string that ends it. -/
def readRealm (challenge : String) : Option String := do
  let quoted ← Text.stripPrefix "Basic realm=\"" challenge
  let (realm, rest) ← Quoted.read '"' '\\' quoted.toList
  if rest = [] then some (String.ofList realm) else none

/-- The text of the challenge. -/
def challengeText (realm : String) : String := "Basic realm=\"" ++ escapeQuoted realm ++ "\""

/-- The two replacements of `escape_quoted` mark the quotes and the marks in one pass. -/
theorem toList_escapeQuoted (s : String) :
    (escapeQuoted s).toList = Quoted.write '"' '\\' s.toList := by
  simp only [escapeQuoted, Text.replace, String.toList_ofList]
  exact Quoted.flatMap_flatMap_eq_write (show '\\' ≠ '"' by decide) s.toList

theorem readRealm_challengeText (realm : String) :
    readRealm (challengeText realm) = some realm := by
  have hquoted : (escapeQuoted realm ++ "\"").toList =
      Quoted.write '"' '\\' realm.toList ++ ['"'] := by
    rw [String.toList_append, toList_escapeQuoted]
    rfl
  have hread := @Quoted.read_write Char _ '"' '\\' (by decide) realm.toList []
  rw [readRealm, challengeText, String.append_assoc, Text.stripPrefix_append]
  simp only [Option.bind_eq_bind, Option.bind_some, hquoted, hread, if_true, String.ofList_toList]

/-- The text around the realm has no such character. -/
theorem any_isControl_challengeText (realm : String) :
    (challengeText realm).toList.any isControl = realm.toList.any isControl := by
  have hescaped : ∀ c : Char, (if c = '\\' ∨ c = '"' then ['\\', c] else [c]).any isControl =
      isControl c := by
    intro c
    split
    · exact Bool.or_false _
    · exact Bool.or_false _
  have hprefix : "Basic realm=\"".toList.any isControl = false := by decide
  have hquote : "\"".toList.any isControl = false := by decide
  rw [challengeText, String.toList_append, String.toList_append, List.any_append, List.any_append,
    hprefix, hquote, Bool.false_or, Bool.or_false, toList_escapeQuoted, Quoted.write,
    List.any_flatMap]
  exact congrArg _ (funext hescaped)

/-- **The challenge names the realm.** The answer to a refused request has a challenge that is read
as the configured realm, whatever quotes and backslashes that has; and it has none exactly if the
realm has a control character other than a tab. -/
theorem challenge_realm (realm : String) :
    (∀ v, (challengeResponse realm).headers.get "www-authenticate" = some v →
      ∃ challenge, v.bytes = Text.utf8Bytes challenge ∧ readRealm challenge = some realm) ∧
      ((challengeResponse realm).headers.get "www-authenticate" = none ↔
        ∃ c ∈ realm.toList, isControl c = true) := by
  have hnone : (text 401 "401 Unauthorized\n").headers.get "www-authenticate" = none := by
    decide
  have hcontrol : HeaderValue.fromStr (challengeText realm) = none ↔
      ∃ c ∈ realm.toList, isControl c = true := by
    rw [fromStr_eq_none_iff, ← List.any_eq_true, any_isControl_challengeText, List.any_eq_true]
  rw [← hcontrol, challengeResponse, ← challengeText]
  cases hvalue : HeaderValue.fromStr (challengeText realm) with
  | none =>
      refine ⟨fun v hv => ?_, iff_of_true hnone rfl⟩
      rw [hnone] at hv
      cases hv
  | some v =>
      have hget : ((text 401 "401 Unauthorized\n").headers.append wwwAuthenticate v).get
          "www-authenticate" = some v := rfl
      refine ⟨fun v' hv' => ?_, iff_of_false (fun h => ?_) (fun h => by cases h)⟩
      · obtain rfl : v = v' := Option.some.inj (hget.symm.trans hv')
        refine ⟨challengeText realm, ?_, readRealm_challengeText realm⟩
        rw [HeaderValue.fromStr] at hvalue
        split at hvalue
        · rw [← Option.some.inj hvalue]
        · cases hvalue
      · cases hget.symm.trans h

end Elrond.Server
