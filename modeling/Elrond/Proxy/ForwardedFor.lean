import Elrond.Http.Fields
import Elrond.Proxy.Forward

/-!
# The forwarding chain

`Forwarded` states what `add_forwarding_headers` is for: every earlier element of every
X-Forwarded-For line, then the client; the client address in X-Real-IP and the scheme of the
listener in X-Forwarded-Proto. The code rebuilds the chain from the first line, and from nothing if
that line is not readable as text (`addForwardingHeaders_iff`).
-/

set_option autoImplicit false

namespace Elrond.Proxy

open Elrond.Lib Elrond.Http

/-! ## Printed addresses -/

/-- The characters of a printed address. -/
def isAddressChar (c : Char) : Bool := "0123456789abcdef*:.".toList.contains c

/-- A text of such characters. -/
def AddressText (s : String) : Prop := s.toList.all isAddressChar = true

theorem AddressText.append {a b : String} (ha : AddressText a) (hb : AddressText b) :
    AddressText (a ++ b) := by
  rw [AddressText] at *
  rw [String.toList_append, List.all_append, ha, hb]
  rfl

theorem addressText_numberText (radix n : Nat) : AddressText (numberText radix n) := by
  rw [AddressText, numberText, String.toList_ofList]
  exact Text.all_toDigits (by decide) radix n

theorem numberText_ne (radix n : Nat) : numberText radix n ≠ "" := by
  rw [numberText, Ne, ← String.toList_inj, String.toList_ofList]
  exact Nat.toDigits_ne_nil

theorem addressText_v4 (x : Ipv4Addr) : AddressText x.toText := by
  have hdot : AddressText "." := rfl
  have hn := addressText_numberText 10
  exact ((((((hn _).append hdot).append (hn _)).append hdot).append (hn _)).append hdot).append
    (hn _)

theorem addressText_groups (gs : List UInt16) : AddressText (groupsText gs) := by
  induction gs with
  | nil => rfl
  | cons g gs ih =>
      rw [groupsText, List.map_cons] at *
      by_cases hgs : gs.map (fun g : UInt16 => numberText 16 g.toNat) = []
      · rw [hgs, String.intercalate_singleton]
        exact addressText_numberText 16 _
      · rw [String.intercalate_cons_of_ne_nil hgs]
        have hcolon : AddressText ":" := rfl
        exact ((addressText_numberText 16 _).append hcolon).append ih

theorem addressText_v6 (x : Ipv6Addr) : AddressText x.toText := by
  unfold Ipv6Addr.toText
  split
  · exact AddressText.append rfl (addressText_v4 _)
  · dsimp only
    split
    · have hcolons : AddressText "::" := rfl
      exact ((addressText_groups _).append hcolons).append (addressText_groups _)
    · exact addressText_groups _

/-- A printed address is made of the characters of addresses. -/
theorem addressText_ip (ip : IpAddr) : AddressText ip.toText := by
  cases ip with
  | v4 x => exact addressText_v4 x
  | v6 x => exact addressText_v6 x

theorem append_ne_left {a b : String} (h : a ≠ "") : a ++ b ≠ "" := by
  intro hab
  rw [← String.toList_inj, String.toList_append] at hab
  exact h (String.toList_inj.1 (List.append_eq_nil_iff.1 hab).1)

theorem append_ne_right {a b : String} (h : b ≠ "") : a ++ b ≠ "" := by
  intro hab
  rw [← String.toList_inj, String.toList_append] at hab
  exact h (String.toList_inj.1 (List.append_eq_nil_iff.1 hab).2)

theorem groupsText_ne {gs : List UInt16} (h : gs ≠ []) : groupsText gs ≠ "" := by
  obtain ⟨g, rest, rfl⟩ := List.exists_cons_of_ne_nil h
  rw [groupsText, List.map_cons]
  by_cases hrest : rest.map (fun g : UInt16 => numberText 16 g.toNat) = []
  · rw [hrest, String.intercalate_singleton]
    exact numberText_ne 16 _
  · rw [String.intercalate_cons_of_ne_nil hrest]
    exact append_ne_left (append_ne_left (numberText_ne 16 _))

/-- A printed address is not empty. -/
theorem ipText_ne (ip : IpAddr) : ip.toText ≠ "" := by
  cases ip with
  | v4 x => exact append_ne_right (numberText_ne 10 _)
  | v6 x =>
      show x.toText ≠ ""
      unfold Ipv6Addr.toText
      split
      · exact append_ne_left (by decide)
      · dsimp only
        split
        · exact append_ne_left (append_ne_right (by decide))
        · apply groupsText_ne
          intro hnil
          have hlength := x.length_eq
          rw [hnil] at hlength
          cases hlength

/-! ## The forwarding chain -/

/-- What a character of an address is not. -/
theorem addressChar_facts {c : Char} (h : isAddressChar c = true) :
    isVisibleChar c = true ∧ isOws c = false ∧ c ≠ ',' := by
  have hall : ("0123456789abcdef*:.".toList.all fun c =>
      isVisibleChar c && !isOws c && c != ',') = true := by decide
  have hc := List.all_eq_true.1 hall c (List.contains_iff_mem.1 h)
  simpa [and_assoc] using hc

/-- An address is one member, alone or after a space. -/
theorem textMembers_address {ip : String} (h : AddressText ip) (hne : ip ≠ "") :
    textMembers ip = [ip] ∧ textMembers (" " ++ ip) = [ip] := by
  have hfacts : ∀ c ∈ ip.toList, isVisibleChar c = true ∧ isOws c = false ∧ c ≠ ',' :=
    fun c hc => addressChar_facts (List.all_eq_true.1 h c hc)
  have hcomma : ',' ∉ ip.toList := fun hmem => (hfacts ',' hmem).2.2 rfl
  have hleft : ip.toList.dropWhile isOws = ip.toList := by
    rw [List.dropWhile_eq_self_iff]
    intro hlength
    simpa using (hfacts _ (List.getElem_mem hlength)).2.1
  have hright : ip.toList.rdropWhile isOws = ip.toList := by
    rw [List.rdropWhile_eq_self_iff]
    intro hnil
    simpa using (hfacts _ (List.getLast_mem hnil)).2.1
  constructor
  · have htrim : trimOws ip = ip := by
      rw [trimOws, hleft, hright, String.ofList_toList]
    rw [textMembers_single hcomma, htrim, if_neg hne]
  · have hcomma' : ',' ∉ (" " ++ ip).toList := by
      rw [String.toList_append]
      intro hmem
      rcases List.mem_append.1 hmem with hmem | hmem
      · exact absurd hmem (by decide)
      · exact hcomma hmem
    have htrim : trimOws (" " ++ ip) = ip := by
      rw [trimOws, String.toList_append]
      show String.ofList (((' ' :: ip.toList).dropWhile isOws).rdropWhile isOws) = ip
      rw [List.dropWhile_cons_of_pos (by decide), hleft, hright, String.ofList_toList]
    rw [textMembers_single hcomma', htrim, if_neg hne]

/-- The elements of the forwarding chain of a message. -/
def forwardedElements (h : HeaderMap) : List String :=
  (h.getAll "x-forwarded-for").flatMap HeaderValue.members

/-- `out` is `h` with the client added to the forwarding chain. -/
structure Forwarded (h : HeaderMap) (peer : SocketAddr) (scheme : Scheme) (out : HeaderMap) :
    Prop where
  chain : forwardedElements out = forwardedElements h ++ [peer.ip.toText]
  oneLine : (out.getAll "x-forwarded-for").length = 1
  realIp : (out.getAll "x-real-ip").map HeaderValue.bytes = [Text.utf8Bytes peer.ip.toText]
  proto : (out.getAll "x-forwarded-proto").map HeaderValue.bytes = [Text.utf8Bytes scheme.asStr]

/-- The chain the code keeps is all there is: the first line is readable as text, and no other line
has an element. -/
def ChainInFirstLine (h : HeaderMap) : Prop :=
  match h.getAll "x-forwarded-for" with
  | [] => True
  | first :: others => first.toStr.isSome ∧ ∀ v ∈ others, v.members = []

/-- The line the code writes for a chain that has one: it is longer than the address. -/
theorem chain_line (existing : HeaderValue) (ip : String) (h : AddressText ip) (hne : ip ≠ "") :
    ∃ v, HeaderValue.fromStr (existing.toStr.getD "" ++ ", " ++ ip) = some v ∧
      v.members = (if existing.toStr.isSome then existing.members else []) ++ [ip] ∧
      v.bytes ≠ Text.utf8Bytes ip := by
  have hvisible : ∀ c ∈ (existing.toStr.getD "" ++ ", " ++ ip).toList,
      isVisibleChar c = true := by
    intro c hc
    rw [String.toList_append, String.toList_append] at hc
    rcases List.mem_append.1 hc with hc | hc
    · rcases List.mem_append.1 hc with hc | hc
      · cases hread : existing.toStr with
        | none =>
            rw [hread] at hc
            exact absurd hc List.not_mem_nil
        | some s =>
            rw [hread] at hc
            exact isVisibleChar_of_toStr hread c hc
      · have hsep : (", ".toList.all isVisibleChar) = true := by decide
        exact List.all_eq_true.1 hsep c hc
    · exact (addressChar_facts (List.all_eq_true.1 h c hc)).1
  obtain ⟨v, hv, hbytes, htext⟩ := fromStr_of_visible hvisible
  refine ⟨v, hv, ?_, ?_⟩
  swap
  · intro heq
    have hlength := congrArg List.length (hbytes.symm.trans heq)
    have hsep : (", ".toList.flatMap String.utf8EncodeChar).length = 2 := by decide
    simp only [Text.utf8Bytes, String.toList_append, List.flatMap_append, List.length_append,
      hsep] at hlength
    omega
  have hsplit : existing.toStr.getD "" ++ ", " ++ ip =
      existing.toStr.getD "" ++ "," ++ (" " ++ ip) := by
    rw [← String.toList_inj]
    simp
  rw [HeaderValue.members, htext, hsplit, textMembers_append,
    (textMembers_address h hne).2]
  congr 1
  cases hread : existing.toStr with
  | none => exact (by decide : textMembers "" = [])
  | some s =>
      obtain ⟨-, rfl⟩ := toStr_eq_some hread
      rfl

theorem fromStr_scheme (scheme : Scheme) :
    ∃ v, HeaderValue.fromStr scheme.asStr = some v ∧ v.bytes = Text.utf8Bytes scheme.asStr := by
  cases scheme with
  | http => exact ⟨⟨Text.utf8Bytes "http", by decide⟩, by decide, rfl⟩
  | https => exact ⟨⟨Text.utf8Bytes "https", by decide⟩, by decide, rfl⟩

/-- The three headers `add_forwarding_headers` writes: the chain grows from its first line. -/
theorem addForwardingHeaders_lines (h : HeaderMap) (peer : SocketAddr) (scheme : Scheme) :
    ((addForwardingHeaders h peer scheme).getAll "x-real-ip").map HeaderValue.bytes =
        [Text.utf8Bytes peer.ip.toText] ∧
      ((addForwardingHeaders h peer scheme).getAll "x-forwarded-proto").map HeaderValue.bytes =
        [Text.utf8Bytes scheme.asStr] ∧
      ∃ v, (addForwardingHeaders h peer scheme).getAll "x-forwarded-for" = [v] ∧
        v.members =
          (match h.getAll "x-forwarded-for" with
          | [] => []
          | first :: _ => if first.toStr.isSome then first.members else []) ++
            [peer.ip.toText] ∧
        (v.bytes = Text.utf8Bytes peer.ip.toText ↔ h.getAll "x-forwarded-for" = []) := by
  have hip := addressText_ip peer.ip
  have hne := ipText_ne peer.ip
  obtain ⟨ipValue, hipValue, hipBytes, hipText⟩ := fromStr_of_visible
    fun c hc => (addressChar_facts (List.all_eq_true.1 hip c hc)).1
  obtain ⟨protoValue, hproto, hprotoBytes⟩ := fromStr_scheme scheme
  simp only [addForwardingHeaders, hipValue, hproto]
  refine ⟨?_, ?_, ?_⟩
  · rw [HeaderMap.getAll_insert, if_neg (by decide), getAll_addForwardedFor _ _ _ _ (by decide),
      HeaderMap.getAll_insert, if_pos (by decide), List.map_singleton, hipBytes]
  · rw [HeaderMap.getAll_insert, if_pos (by decide), List.map_singleton, hprotoBytes]
  · rw [HeaderMap.getAll_insert, if_neg (by decide)]
    have hlines : (h.insert xRealIp ipValue).getAll "x-forwarded-for" =
        h.getAll "x-forwarded-for" := by
      rw [HeaderMap.getAll_insert, if_neg (by decide)]
    rw [addForwardedFor, HeaderMap.get, hlines]
    cases h.getAll "x-forwarded-for" with
    | nil =>
        refine ⟨ipValue, ?_, ?_, iff_of_true hipBytes rfl⟩
        · show ((h.insert xRealIp ipValue).insert xForwardedFor ipValue).getAll _ = _
          rw [HeaderMap.getAll_insert, if_pos (by decide)]
        · rw [HeaderValue.members, hipText, (textMembers_address hip hne).1]
          rfl
    | cons first others =>
        obtain ⟨v, hv, hmembers, hlonger⟩ := chain_line first peer.ip.toText hip hne
        refine ⟨v, ?_, hmembers, iff_of_false hlonger (List.cons_ne_nil first others)⟩
        simp only [List.head?_cons, hv]
        rw [HeaderMap.getAll_insert, if_pos (by decide)]

/-- `add_forwarding_headers` adds the client to the chain exactly if the first line holds all of
it. -/
theorem addForwardingHeaders_iff (h : HeaderMap) (peer : SocketAddr) (scheme : Scheme) :
    Forwarded h peer scheme (addForwardingHeaders h peer scheme) ↔ ChainInFirstLine h := by
  obtain ⟨hreal, hproto, v, hv, hmembers, -⟩ := addForwardingHeaders_lines h peer scheme
  have hout : forwardedElements (addForwardingHeaders h peer scheme) = v.members := by
    rw [forwardedElements, hv, List.flatMap_singleton]
  have hiff : Forwarded h peer scheme (addForwardingHeaders h peer scheme) ↔
      v.members = forwardedElements h ++ [peer.ip.toText] := by
    constructor
    · intro hf
      rw [← hout, hf.chain]
    · intro hchain
      exact ⟨by rw [hout, hchain], by rw [hv]; rfl, hreal, hproto⟩
  rw [hiff, hmembers, List.append_left_inj, forwardedElements, ChainInFirstLine]
  cases h.getAll "x-forwarded-for" with
  | nil => simp
  | cons first others =>
      rw [List.flatMap_cons]
      by_cases hread : first.toStr.isSome = true
      · simp only [hread, if_true, true_and, List.self_eq_append_right, List.flatMap_eq_nil_iff]
      -- An unreadable line is dropped, and it has elements.
      · have hne := members_ne_nil_of_toStr (Option.not_isSome_iff_eq_none.1 hread)
        simp [hread, hne]

/-- A chain in two lines. -/
def twoHops : HeaderMap :=
  HeaderMap.append (HeaderMap.append ∅ xForwardedFor ⟨Text.utf8Bytes "203.0.113.7", by decide⟩)
    xForwardedFor ⟨Text.utf8Bytes "198.51.100.2", by decide⟩

/-- A client at `192.0.2.1`. -/
def someClient : SocketAddr := ⟨.v4 ⟨192, 0, 2, 1⟩, 40000, 0⟩

/-- The second line of the chain is lost. -/
theorem second_hop_is_lost :
    ¬ Forwarded twoHops someClient .http (addForwardingHeaders twoHops someClient .http) := by
  intro h
  exact absurd h.chain (by decide +kernel)

end Elrond.Proxy
