import Elrond.Lib.Fallible
import Elrond.Server.Gates

/-!
# Access rules and address families

What `allow` and `deny` rules decide, said with the bits of an address. A target covers an address
if it is `all`, the address itself, or a block of the same family whose first bits the address
shares; the masks of `mask_match` compute just this (`targetMatches_iff`). So a rule of one family
never applies to an address of the other. An IPv4 client on an IPv6 listener appears as
`::ffff:a.b.c.d`, and the rules that decide about it are `all` and the IPv6 ones
(`mapped_decision_iff`).
-/

set_option autoImplicit false

namespace Elrond.Server

open Elrond.Lib Elrond.Http Elrond.App

/-! ## Bits -/

/-- The bits of an octet, the highest first. -/
def octetBits (x : UInt8) : List Bool := (List.range 8).map x.toBitVec.getMsbD

/-- The mask of `mask_match` for `t` bits of an octet. -/
def tailMask (t : Nat) : UInt8 := 0xFF <<< UInt8.ofNat (8 - t)

theorem length_octetBits (x : UInt8) : (octetBits x).length = 8 := by
  rw [octetBits, List.length_map, List.length_range]

theorem octetBits_injective : Function.Injective octetBits := by
  intro x y h
  rw [← UInt8.toBitVec_inj]
  refine BitVec.eq_of_getMsbD_eq fun i hi => ?_
  have hi' : (octetBits x)[i]? = (octetBits y)[i]? := by rw [h]
  simpa [octetBits, hi] using hi'

/-- The mask for `t` bits has ones in these bits and zeros below. -/
theorem getMsbD_tailMask {t : Nat} (ht : t ≤ 8) (hpos : t ≠ 0) {i : Nat} (hi : i < 8) :
    (tailMask t).toBitVec.getMsbD i = decide (i < t) := by
  have hall : ∀ t < 9, t ≠ 0 → ∀ i < 8,
      (tailMask t).toBitVec.getMsbD i = decide (i < t) := by
    decide
  exact hall t (by omega) hpos i hi

/-- Masking keeps the first bits and clears the others. -/
theorem octetBits_and_tailMask (x : UInt8) {t : Nat} (ht : t ≤ 8) (hpos : t ≠ 0) :
    octetBits (x &&& tailMask t) = (octetBits x).take t ++ List.replicate (8 - t) false := by
  have hlen : ((octetBits x).take t).length = t := by
    rw [List.length_take, length_octetBits]
    omega
  refine List.ext_getElem ?_ fun i hi _ => ?_
  · rw [List.length_append, hlen, length_octetBits, List.length_replicate]
    omega
  · rw [length_octetBits] at hi
    have hmask := getMsbD_tailMask ht hpos hi
    rw [List.getElem_append]
    split
    · rename_i hlow
      rw [hlen] at hlow
      simp [octetBits, hmask, hlow]
    · rename_i hhigh
      rw [hlen] at hhigh
      simp [octetBits, hmask, hhigh]

/-- Two octets agree under the mask exactly if their first bits agree. -/
theorem tailMask_eq_iff (x y : UInt8) {t : Nat} (ht : t ≤ 8) (hpos : t ≠ 0) :
    x &&& tailMask t = y &&& tailMask t ↔ (octetBits x).take t = (octetBits y).take t := by
  rw [← octetBits_injective.eq_iff, octetBits_and_tailMask x ht hpos,
    octetBits_and_tailMask y ht hpos]
  exact List.append_left_inj _

/-- The bits of a list of octets. -/
def bitsOf (octets : List UInt8) : List Bool := octets.flatMap octetBits

theorem bitsOf_cons (x : UInt8) (xs : List UInt8) : bitsOf (x :: xs) = octetBits x ++ bitsOf xs :=
  List.flatMap_cons

theorem length_bitsOf (xs : List UInt8) : (bitsOf xs).length = 8 * xs.length := by
  induction xs with
  | nil => rfl
  | cons x xs ih =>
      rw [bitsOf_cons, List.length_append, length_octetBits, ih, List.length_cons]
      omega

theorem bitsOf_injective : Function.Injective bitsOf := by
  intro xs
  induction xs with
  | nil =>
      intro ys h
      have hlen := congrArg List.length h
      rw [length_bitsOf, length_bitsOf] at hlen
      exact (List.length_eq_zero_iff.1 (by simpa using hlen.symm)).symm
  | cons x xs ih =>
      intro ys h
      cases ys with
      | nil =>
          have hlen := congrArg List.length h
          rw [length_bitsOf, length_bitsOf] at hlen
          simp at hlen
      | cons y ys =>
          rw [bitsOf_cons, bitsOf_cons] at h
          obtain ⟨hhead, htail⟩ := List.append_inj h (by rw [length_octetBits, length_octetBits])
          rw [octetBits_injective hhead, ih htail]

/-- The first bits of a list of octets: whole octets, then bits of the next one. -/
theorem take_bitsOf (xs : List UInt8) {q t : Nat} (ht : t < 8) (h : 8 * q + t ≤ 8 * xs.length) :
    (bitsOf xs).take (8 * q + t) =
      bitsOf (xs.take q) ++ (octetBits (xs.getD q 0)).take t := by
  induction q generalizing xs with
  | zero =>
      cases xs with
      | nil =>
          have hzero : t = 0 := by simpa using h
          rw [hzero]
          rfl
      | cons x xs =>
          rw [bitsOf_cons, Nat.mul_zero, Nat.zero_add,
            List.take_append_of_le_length (by rw [length_octetBits]; omega)]
          rfl
  | succ q ih =>
      cases xs with
      | nil => simp at h
      | cons x xs =>
          rw [List.length_cons] at h
          have hsplit : 8 * (q + 1) + t = (octetBits x).length + (8 * q + t) := by
            rw [length_octetBits]
            omega
          rw [bitsOf_cons, hsplit, List.take_length_add_append, ih xs (by omega),
            List.take_succ_cons, bitsOf_cons, List.append_assoc, List.getD_cons_succ]

/-- `mask_match` compares the first bits. -/
theorem maskMatch_iff {base ip : List UInt8} (hlen : base.length = ip.length) {n : Nat}
    (hn : n ≤ 8 * base.length) :
    maskMatch base ip n (8 * base.length) = true ↔
      (bitsOf base).take n = (bitsOf ip).take n := by
  have hsplit : n = 8 * (n / 8) + n % 8 := (Nat.div_add_mod n 8).symm
  have htail : n % 8 < 8 := Nat.mod_lt n (by decide)
  rw [maskMatch, if_neg (Nat.not_lt.2 hn)]
  by_cases hzero : n = 0
  · rw [if_pos hzero, hzero]
    exact iff_of_true rfl rfl
  rw [if_neg hzero]
  conv_rhs => rw [hsplit]
  rw [take_bitsOf base htail (by omega), take_bitsOf ip htail (by omega)]
  have hwhole : bitsOf (base.take (n / 8)) = bitsOf (ip.take (n / 8)) ↔
      base.take (n / 8) = ip.take (n / 8) := bitsOf_injective.eq_iff
  have happend : bitsOf (base.take (n / 8)) ++ (octetBits (base.getD (n / 8) 0)).take (n % 8) =
        bitsOf (ip.take (n / 8)) ++ (octetBits (ip.getD (n / 8) 0)).take (n % 8) ↔
      base.take (n / 8) = ip.take (n / 8) ∧
        (octetBits (base.getD (n / 8) 0)).take (n % 8) =
          (octetBits (ip.getD (n / 8) 0)).take (n % 8) := by
    rw [← hwhole]
    refine ⟨fun h => List.append_inj h ?_, fun h => by rw [h.1, h.2]⟩
    rw [length_bitsOf, length_bitsOf, List.length_take, List.length_take, hlen]
  rw [happend]
  by_cases hfull : base.take (n / 8) = ip.take (n / 8)
  · by_cases hno : n % 8 = 0
    · simp [hfull, hno]
    · have hmask := tailMask_eq_iff (base.getD (n / 8) 0) (ip.getD (n / 8) 0) htail.le hno
      rw [← hmask]
      simp [hfull, hno, tailMask]
  · simp [hfull]

/-! ## What a target covers -/

/-- Both addresses are IPv4 or both are IPv6. -/
def SameFamily : IpAddr → IpAddr → Prop
  | .v4 _, .v4 _ => True
  | .v6 _, .v6 _ => True
  | _, _ => False

instance : (a b : IpAddr) → Decidable (SameFamily a b)
  | .v4 _, .v4 _ => isTrue trivial
  | .v6 _, .v6 _ => isTrue trivial
  | .v4 _, .v6 _ => isFalse id
  | .v6 _, .v4 _ => isFalse id

/-- The addresses a target stands for: all, one, or those of a family that start with the bits of
the block. -/
def Covers (target : AccessTarget) (ip : IpAddr) : Prop :=
  match target with
  | .all => True
  | .ip b => b = ip
  | .cidr base bits =>
      SameFamily base ip ∧ (bitsOf (octets base)).take bits = (bitsOf (octets ip)).take bits

instance (target : AccessTarget) (ip : IpAddr) : Decidable (Covers target ip) :=
  match target with
  | .all => isTrue trivial
  | .ip b => inferInstanceAs (Decidable (b = ip))
  | .cidr base bits =>
      inferInstanceAs (Decidable (SameFamily base ip ∧
        (bitsOf (octets base)).take bits = (bitsOf (octets ip)).take bits))

/-- The length of a block fits its family, as `parse_target` makes sure. -/
def TargetFits : AccessTarget → Prop
  | .cidr base bits => bits ≤ addressBits base
  | _ => True

theorem parseTarget_fits {s : String} {target : AccessTarget} (h : parseTarget s = .ok target) :
    TargetFits target := by
  rw [parseTarget] at h
  split at h
  · cases h
    trivial
  · split at h
    · obtain ⟨base, hbase, h⟩ := bind_eq_ok.1 h
      obtain ⟨n, hn, h⟩ := bind_eq_ok.1 h
      split at h
      · cases h
      · rename_i hfits
        cases h
        exact Nat.not_lt.1 hfits
    · obtain ⟨ip, hip, h⟩ := bind_eq_ok.1 h
      cases h
      trivial

theorem length_octets (ip : IpAddr) : 8 * (octets ip).length = addressBits ip := by
  cases ip with
  | v4 a => rfl
  | v6 a =>
      have hlen : ∀ segments : List UInt16,
          (segments.flatMap fun (s : UInt16) => [(s >>> 8).toUInt8, s.toUInt8]).length =
            2 * segments.length := by
        intro segments
        rw [List.length_flatMap]
        simp [Nat.mul_comm]
      rw [octets, hlen, a.length_eq]
      rfl

/-- `matches` decides what a target covers. -/
theorem targetMatches_iff {target : AccessTarget} (hfits : TargetFits target) (ip : IpAddr) :
    targetMatches target ip = true ↔ Covers target ip := by
  cases target with
  | all => exact iff_of_true rfl trivial
  | ip b => exact beq_iff_eq
  | cidr base bits =>
      have hmask : ∀ total, addressBits base = total → addressBits ip = total →
          (maskMatch (octets base) (octets ip) bits total = true ↔
            (bitsOf (octets base)).take bits = (bitsOf (octets ip)).take bits) := by
        intro total hbase hip
        have hb := length_octets base
        have hi := length_octets ip
        rw [← hbase, ← hb]
        exact maskMatch_iff (by omega) (hb ▸ hfits)
      cases base with
      | v4 b =>
          cases ip with
          | v4 a => exact (hmask 32 rfl rfl).trans (Iff.of_eq (true_and _)).symm
          | v6 a => exact iff_of_false Bool.false_ne_true fun h => h.1
      | v6 b =>
          cases ip with
          | v4 a => exact iff_of_false Bool.false_ne_true fun h => h.1
          | v6 a => exact (hmask 128 rfl rfl).trans (Iff.of_eq (true_and _)).symm

/-! ## Decisions -/

/-- What the first rule that covers the address says; without one, allow. -/
def decision (rules : List AccessRule) (ip : IpAddr) : Bool :=
  ((rules.find? fun r => decide (Covers r.target ip)).map AccessRule.allow).getD true

/-- The rule list is one that `parse_target` accepts. -/
def Parsed (rules : List AccessRule) : Prop := ∀ r ∈ rules, ∃ s, parseTarget s = .ok r.target

/-- `check` follows the first rule that covers the address. -/
theorem accessCheck_eq {rules : List AccessRule} (h : Parsed rules) (ip : IpAddr) :
    accessCheck rules ip = decision rules ip := by
  have hfind : (rules.find? fun r => targetMatches r.target ip) =
      rules.find? fun r => decide (Covers r.target ip) := by
    refine List.find?_congr fun r hr => ?_
    obtain ⟨s, hs⟩ := h r hr
    rw [Bool.eq_iff_iff, targetMatches_iff (parseTarget_fits hs), decide_eq_true_iff]
  rw [accessCheck, decision, hfind]
  cases rules.find? fun r => decide (Covers r.target ip) with
  | none => rfl
  | some r => rfl

/-- The rules that can apply to addresses of the family of `ip`: `all` and those of the family. -/
def rulesFor (ip : IpAddr) (rules : List AccessRule) : List AccessRule :=
  rules.filter fun r =>
    match r.target with
    | .all => true
    | .ip b => decide (SameFamily b ip)
    | .cidr base _ => decide (SameFamily base ip)

theorem sameFamily_refl (ip : IpAddr) : SameFamily ip ip := by
  cases ip with
  | v4 a => trivial
  | v6 a => trivial

/-- The rules of the other family decide nothing. -/
theorem decision_rulesFor (rules : List AccessRule) (ip : IpAddr) :
    decision (rulesFor ip rules) ip = decision rules ip := by
  rw [decision, decision, rulesFor, List.find?_filter]
  congr 2
  refine List.find?_congr fun r _ => ?_
  rw [decide_eq_decide, decide_eq_true_iff, and_iff_right_iff_imp]
  intro hcovers
  cases htarget : r.target with
  | all => rfl
  | ip b =>
      rw [htarget] at hcovers
      obtain rfl : b = ip := hcovers
      exact decide_eq_true (sameFamily_refl b)
  | cidr base bits =>
      rw [htarget] at hcovers
      exact decide_eq_true hcovers.1

/-! ## IPv4-mapped addresses -/

/-- Two octets as one group of an IPv6 address. -/
def group (x y : UInt8) : UInt16 := x.toUInt16 <<< 8 ||| y.toUInt16

/-- `Ipv4Addr::to_ipv6_mapped`: the address `::ffff:a.b.c.d`. -/
def toIpv6Mapped (a : Ipv4Addr) : Ipv6Addr where
  segments := [0, 0, 0, 0, 0, 0xffff, group a.a a.b, group a.c a.d]
  length_eq := rfl

theorem group_octets (x y : UInt8) : (group x y >>> 8).toUInt8 = x ∧ (group x y).toUInt8 = y := by
  have hx : x.toNat < 256 := x.toNat_lt
  have hy : y.toNat < 256 := y.toNat_lt
  have height : (8 : UInt16).toNat % 16 = 8 := rfl
  have hgroup : (group x y).toNat = x.toNat * 256 + y.toNat := by
    rw [group, UInt16.toNat_or, UInt16.toNat_shiftLeft, UInt8.toNat_toUInt16, UInt8.toNat_toUInt16,
      height]
    have hshift : x.toNat <<< 8 % 2 ^ 16 = x.toNat <<< 8 := by
      rw [Nat.shiftLeft_eq]
      exact Nat.mod_eq_of_lt (by omega)
    rw [hshift, ← Nat.shiftLeft_add_eq_or_of_lt (by omega), Nat.shiftLeft_eq]
  constructor
  · rw [← UInt8.toNat_inj, UInt16.toNat_toUInt8, UInt16.toNat_shiftRight, hgroup,
      Nat.shiftRight_eq_div_pow]
    rw [height]
    omega
  · rw [← UInt8.toNat_inj, UInt16.toNat_toUInt8, hgroup]
    omega

/-- The mapped address is 96 fixed bits and the bits of the IPv4 address. -/
theorem bits_toIpv6Mapped (a : Ipv4Addr) :
    bitsOf (octets (.v6 (toIpv6Mapped a))) =
      bitsOf [0, 0, 0, 0, 0, 0, 0, 0, 0, 0, 0xff, 0xff] ++ bitsOf (octets (.v4 a)) := by
  have hab := group_octets a.a a.b
  have hcd := group_octets a.c a.d
  have hoctets : octets (.v6 (toIpv6Mapped a)) =
      [0, 0, 0, 0, 0, 0, 0, 0, 0, 0, 0xff, 0xff] ++ octets (.v4 a) := by
    simp only [octets, toIpv6Mapped, List.flatMap_cons, List.flatMap_nil, hab, hcd]
    rfl
  rw [hoctets, bitsOf, List.flatMap_append]
  rfl

theorem toIpv6Mapped_injective : Function.Injective toIpv6Mapped := by
  intro a b h
  have hbits := bits_toIpv6Mapped a
  rw [h, bits_toIpv6Mapped b] at hbits
  have hoctets := bitsOf_injective (List.append_cancel_left hbits)
  simp only [octets, List.cons.injEq, and_true] at hoctets
  obtain ⟨ha, hb, hc, hd⟩ := hoctets
  cases a
  cases b
  simp_all

/-- The target that says of mapped addresses what an IPv4 target says of IPv4 ones. -/
def mappedTarget : AccessTarget → AccessTarget
  | .ip (.v4 b) => .ip (.v6 (toIpv6Mapped b))
  | .cidr (.v4 b) bits => .cidr (.v6 (toIpv6Mapped b)) (96 + bits)
  | target => target

/-- Of an IPv4 target and its mapped form, each covers in its own family what the other does. -/
theorem covers_mappedTarget {target : AccessTarget} {a : Ipv4Addr}
    (hfor : target = .all ∨ (∃ b, target = .ip (.v4 b)) ∨ ∃ b n, target = .cidr (.v4 b) n) :
    Covers (mappedTarget target) (.v6 (toIpv6Mapped a)) ↔ Covers target (.v4 a) := by
  rcases hfor with rfl | ⟨b, rfl⟩ | ⟨b, n, rfl⟩
  · exact Iff.rfl
  · simp only [mappedTarget, Covers, IpAddr.v6.injEq, IpAddr.v4.injEq]
    exact toIpv6Mapped_injective.eq_iff
  · have hlen : (bitsOf [0, 0, 0, 0, 0, 0, 0, 0, 0, 0, 0xff, 0xff]).length = 96 :=
      length_bitsOf _
    simp only [mappedTarget, Covers, SameFamily, true_and, bits_toIpv6Mapped]
    rw [← hlen, List.take_length_add_append, List.take_length_add_append,
      List.append_right_inj]

/-- Rules for IPv4 addresses, rewritten for mapped ones. -/
def mappedRules (rules : List AccessRule) : List AccessRule :=
  rules.map fun r => { r with target := mappedTarget r.target }

theorem decision_mappedRules (rules : List AccessRule) (a : Ipv4Addr) :
    decision (mappedRules (rulesFor (.v4 a) rules)) (.v6 (toIpv6Mapped a)) =
      decision (rulesFor (.v4 a) rules) (.v4 a) := by
  rw [decision, decision, mappedRules, List.find?_map, Option.map_map]
  have hfind : ((rulesFor (.v4 a) rules).find?
        ((fun r => decide (Covers r.target (.v6 (toIpv6Mapped a)))) ∘
          fun r => { r with target := mappedTarget r.target })) =
      (rulesFor (.v4 a) rules).find? fun r => decide (Covers r.target (.v4 a)) := by
    refine List.find?_congr fun r hr => ?_
    have hfamily := (List.mem_filter.1 hr).2
    rw [Function.comp_apply, decide_eq_decide]
    refine covers_mappedTarget ?_
    cases htarget : r.target with
    | all => exact Or.inl rfl
    | ip b =>
        rw [htarget] at hfamily
        cases b with
        | v4 b => exact Or.inr (Or.inl ⟨b, rfl⟩)
        | v6 b => cases hfamily
    | cidr base bits =>
        rw [htarget] at hfamily
        cases base with
        | v4 b => exact Or.inr (Or.inr ⟨b, bits, rfl⟩)
        | v6 b => cases hfamily
  rw [hfind]
  rfl

/-- **Access rules and IPv4-mapped addresses.** For every list of parsed rules and every IPv4
address, `check` decides alike about the address and its mapped form exactly if the first of `all`
and the IPv4 rules that covers the one and the first of `all` and the IPv6 rules that covers the
other have the same action, no rule counting as `allow`. So it does when the rules for IPv6 are
those for IPv4 in mapped form. -/
theorem mapped_decision_iff (rules : List AccessRule) (hparsed : Parsed rules) (a : Ipv4Addr) :
    (accessCheck rules (.v4 a) = accessCheck rules (.v6 (toIpv6Mapped a)) ↔
      decision (rulesFor (.v4 a) rules) (.v4 a) =
        decision (rulesFor (.v6 (toIpv6Mapped a)) rules) (.v6 (toIpv6Mapped a))) ∧
    (rulesFor (.v6 (toIpv6Mapped a)) rules = mappedRules (rulesFor (.v4 a) rules) →
      accessCheck rules (.v4 a) = accessCheck rules (.v6 (toIpv6Mapped a))) := by
  rw [accessCheck_eq hparsed, accessCheck_eq hparsed, decision_rulesFor, decision_rulesFor]
  refine ⟨Iff.rfl, fun hmapped => ?_⟩
  rw [← decision_rulesFor rules (.v6 _), hmapped, decision_mappedRules, decision_rulesFor]

/-- The address 10.0.0.1. -/
def privateClient : Ipv4Addr := ⟨10, 0, 0, 1⟩

/-- `deny 10.0.0.0/8;` with its twin for mapped addresses. -/
def denyBoth : List AccessRule :=
  [⟨false, .cidr (.v4 ⟨10, 0, 0, 0⟩) 8⟩, ⟨false, .cidr (.v6 (toIpv6Mapped ⟨10, 0, 0, 0⟩)) 104⟩]

theorem mapped_decision_denyBoth :
    accessCheck denyBoth (.v4 privateClient) =
      accessCheck denyBoth (.v6 (toIpv6Mapped privateClient)) := by
  refine (mapped_decision_iff denyBoth ?_ privateClient).2 (by decide)
  intro r hr
  rcases List.mem_cons.1 hr with rfl | hr
  · exact ⟨"10.0.0.0/8", by decide⟩
  · rw [List.mem_singleton.1 hr]
    exact ⟨"::ffff:10.0.0.0/104", by decide⟩

/-- `deny 10.0.0.0/8;` keeps 10.0.0.1 out, and lets ::ffff:10.0.0.1 in. -/
theorem deny_misses_mapped :
    parseTarget "10.0.0.0/8" = .ok (.cidr (.v4 ⟨10, 0, 0, 0⟩) 8) ∧
      accessCheck [⟨false, .cidr (.v4 ⟨10, 0, 0, 0⟩) 8⟩] (.v4 privateClient) = false ∧
      accessCheck [⟨false, .cidr (.v4 ⟨10, 0, 0, 0⟩) 8⟩] (.v6 (toIpv6Mapped privateClient)) =
        true := by
  decide

end Elrond.Server
