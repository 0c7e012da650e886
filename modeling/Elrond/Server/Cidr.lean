import Mathlib.Data.Nat.Digits.Defs
import Elrond.App.Build
import Elrond.Server.Access
import Elrond.Server.Routing

/-!
# Access blocks as numbers

A block `base/b` of addresses with `w` bits holds the addresses that agree with its base, as `w`-bit
numbers, after a shift to the right by `w - b`. `mask_match` compares octets instead, and the octet
in the middle under a mask; the two agree for every length and every pair of addresses
(`covers_iff_contains`), and the code neither shifts an octet by its width nor indexes beyond an
address (`maskMatchChecked_octets`). So the rules of a location decide by the first directive whose
target contains the client (`access_decides`).
-/

set_option autoImplicit false

namespace Elrond.Server

open Elrond.Lib Elrond.Http Elrond.Config Elrond.App

/-! ## Bits and numbers -/

/-- The number that a list of bits denotes, the highest bit first. -/
def bitsValue (bits : List Bool) : Nat := Nat.ofDigits 2 (bits.reverse.map Bool.toNat)

theorem bitsValue_append (xs ys : List Bool) :
    bitsValue (xs ++ ys) = bitsValue xs * 2 ^ ys.length + bitsValue ys := by
  rw [bitsValue, List.reverse_append, List.map_append, Nat.ofDigits_append, List.length_map,
    List.length_reverse, Nat.add_comm, Nat.mul_comm]
  rfl

theorem bitsValue_lt (bits : List Bool) : bitsValue bits < 2 ^ bits.length := by
  have hlt := Nat.ofDigits_lt_base_pow_length (b := 2) (l := bits.reverse.map Bool.toNat)
    (by decide) ?_
  · rwa [List.length_map, List.length_reverse] at hlt
  · intro d hd
    obtain ⟨b, -, rfl⟩ := List.mem_map.1 hd
    exact Bool.toNat_lt b

/-- Lists of one length denote different numbers. -/
theorem bitsValue_injective {xs ys : List Bool} (hlen : xs.length = ys.length)
    (h : bitsValue xs = bitsValue ys) : xs = ys := by
  have hbits : ∀ zs : List Bool, ∀ d ∈ zs.reverse.map Bool.toNat, d < 2 := by
    intro zs d hd
    obtain ⟨b, -, rfl⟩ := List.mem_map.1 hd
    exact Bool.toNat_lt b
  have hmaps := Nat.ofDigits_inj_of_len_eq (by decide : 1 < 2) (by simpa using hlen) (hbits xs)
    (hbits ys) h
  have hinj : Function.Injective Bool.toNat := by decide
  exact List.reverse_injective (List.map_injective_iff.2 hinj hmaps)

/-- The first bits of a list are its number after a shift to the right. -/
theorem bitsValue_shiftRight (bits : List Bool) (k : Nat) :
    bitsValue bits >>> (bits.length - k) = bitsValue (bits.take k) := by
  have hsplit := bitsValue_append (bits.take k) (bits.drop k)
  rw [List.take_append_drop, List.length_drop] at hsplit
  have hlow := bitsValue_lt (bits.drop k)
  rw [List.length_drop] at hlow
  rw [Nat.shiftRight_eq_div_pow, hsplit, Nat.mul_comm, Nat.mul_add_div (Nat.two_pow_pos _),
    Nat.div_eq_of_lt hlow, Nat.add_zero]

/-- The first bits of two lists agree exactly if their numbers do after the shift. -/
theorem take_eq_iff_shiftRight {xs ys : List Bool} {w : Nat} (hx : xs.length = w)
    (hy : ys.length = w) (k : Nat) :
    xs.take k = ys.take k ↔ bitsValue xs >>> (w - k) = bitsValue ys >>> (w - k) := by
  have hxs := bitsValue_shiftRight xs k
  have hys := bitsValue_shiftRight ys k
  rw [hx] at hxs
  rw [hy] at hys
  rw [hxs, hys]
  constructor
  · intro h
    rw [h]
  · apply bitsValue_injective
    rw [List.length_take, List.length_take, hx, hy]

/-! ## Addresses and numbers -/

/-- An address as a number of 32 or 128 bits. -/
def addressNumber : IpAddr → Nat
  | .v4 x => ((x.a.toNat * 256 + x.b.toNat) * 256 + x.c.toNat) * 256 + x.d.toNat
  | .v6 x => x.segments.foldl (fun n (s : UInt16) => n * 65536 + s.toNat) 0

theorem bitsValue_octetBits (x : UInt8) : bitsValue (octetBits x) = x.toNat := by
  have hall : ∀ n < 256, bitsValue (octetBits (UInt8.ofNat n)) = n := by decide +kernel
  have hx := hall x.toNat x.toNat_lt
  rwa [UInt8.ofNat_toNat] at hx

theorem bitsValue_bitsOf_cons (x : UInt8) (xs : List UInt8) :
    bitsValue (bitsOf (x :: xs)) = x.toNat * 256 ^ xs.length + bitsValue (bitsOf xs) := by
  rw [bitsOf_cons, bitsValue_append, bitsValue_octetBits, length_bitsOf, pow_mul]
  rfl

/-- The two octets of a group are its number. -/
theorem toNat_octets_of_group (s : UInt16) :
    (s >>> 8).toUInt8.toNat * 256 + s.toUInt8.toNat = s.toNat := by
  have hs : s.toNat < 65536 := s.toNat_lt
  have height : (8 : UInt16).toNat % 16 = 8 := rfl
  rw [UInt16.toNat_toUInt8, UInt16.toNat_toUInt8, UInt16.toNat_shiftRight, height,
    Nat.shiftRight_eq_div_pow]
  omega

/-- The groups of an address, read from the front, are the number of its octets. -/
theorem foldl_segments (segments : List UInt16) (n : Nat) :
    segments.foldl (fun n (s : UInt16) => n * 65536 + s.toNat) n =
      n * 65536 ^ segments.length + bitsValue (bitsOf (segments.flatMap fun (s : UInt16) =>
        [(s >>> 8).toUInt8, s.toUInt8])) := by
  induction segments generalizing n with
  | nil => simp [bitsOf, bitsValue]
  | cons s rest ih =>
      have hgroup := toNat_octets_of_group s
      have hlen : (rest.flatMap fun (s : UInt16) => [(s >>> 8).toUInt8, s.toUInt8]).length =
          2 * rest.length := by
        rw [List.length_flatMap]
        simp [Nat.mul_comm]
      rw [List.foldl_cons, ih, List.flatMap_cons, List.cons_append, List.cons_append,
        List.nil_append, bitsValue_bitsOf_cons, bitsValue_bitsOf_cons, ← hgroup]
      have hsquare : 256 ^ (2 * rest.length) = 65536 ^ rest.length := by
        rw [pow_mul]
        rfl
      simp only [List.length_cons, hlen, pow_succ, hsquare]
      ring

/-- The bits of the octets denote the number of the address. -/
theorem bitsValue_octets (ip : IpAddr) : bitsValue (bitsOf (octets ip)) = addressNumber ip := by
  cases ip with
  | v4 x =>
      simp only [octets, addressNumber, bitsValue_bitsOf_cons, List.length_cons, List.length_nil]
      simp only [bitsOf, bitsValue, List.flatMap_nil, List.reverse_nil, List.map_nil,
        Nat.ofDigits_nil]
      ring
  | v6 x =>
      rw [addressNumber, foldl_segments, Nat.zero_mul, Nat.zero_add]
      rfl

/-! ## Blocks -/

/-- The target contains the address: all do, one does, or those of a family whose numbers agree with
the base after the shift. -/
def Contains (target : AccessTarget) (ip : IpAddr) : Prop :=
  match target with
  | .all => True
  | .ip b => b = ip
  | .cidr base bits =>
      SameFamily base ip ∧
        addressNumber base >>> (addressBits base - bits) =
          addressNumber ip >>> (addressBits base - bits)

theorem addressBits_of_sameFamily {a b : IpAddr} (h : SameFamily a b) :
    addressBits b = addressBits a := by
  cases a with
  | v4 x => cases b with
    | v4 y => rfl
    | v6 y => exact absurd h id
  | v6 x => cases b with
    | v4 y => exact absurd h id
    | v6 y => rfl

/-- The first bits of two addresses agree exactly if their numbers do after the shift. -/
theorem covers_iff_contains (target : AccessTarget) (ip : IpAddr) :
    Covers target ip ↔ Contains target ip := by
  cases target with
  | all => exact Iff.rfl
  | ip b => exact Iff.rfl
  | cidr base bits =>
      refine and_congr_right fun hfamily => ?_
      have hbase : (bitsOf (octets base)).length = addressBits base := by
        rw [length_bitsOf, length_octets]
      have hip : (bitsOf (octets ip)).length = addressBits base := by
        rw [length_bitsOf, length_octets, addressBits_of_sameFamily hfamily]
      rw [take_eq_iff_shiftRight hbase hip, bitsValue_octets, bitsValue_octets]

/-! ## The arithmetic of `mask_match` -/

/-- `mask_match` with its panics: nothing comes of a slice or an index beyond the octets, nor of a
shift of an octet by eight or more. -/
def maskMatchChecked (base ip : List UInt8) (bits total : Nat) : Option Bool :=
  if bits > total then some false
  else if bits = 0 then some true
  else
    let fullBytes := bits / 8
    let tailBits := bits % 8
    if base.length < fullBytes ∨ ip.length < fullBytes then none
    else if base.take fullBytes != ip.take fullBytes then some false
    else if tailBits = 0 then some true
    else if 8 ≤ 8 - tailBits then none
    else
      let mask : UInt8 := 0xFF <<< UInt8.ofNat (8 - tailBits)
      match base[fullBytes]?, ip[fullBytes]? with
      | some x, some y => some ((x &&& mask) == (y &&& mask))
      | _, _ => none

/-- `AccessTarget::matches` with the panics of `mask_match`. -/
def targetMatchesChecked (target : AccessTarget) (ip : IpAddr) : Option Bool :=
  match target with
  | .all => some true
  | .ip b => some (b == ip)
  | .cidr base bits =>
      match base, ip with
      | .v4 _, .v4 _ => maskMatchChecked (octets base) (octets ip) bits 32
      | .v6 _, .v6 _ => maskMatchChecked (octets base) (octets ip) bits 128
      | _, _ => some false

/-- With as many octets as the bits of the family need, `mask_match` does not panic. -/
theorem maskMatchChecked_octets {base ip : List UInt8} {total : Nat}
    (hbase : 8 * base.length = total) (hip : 8 * ip.length = total) (bits : Nat) :
    maskMatchChecked base ip bits total = some (maskMatch base ip bits total) := by
  rw [maskMatchChecked, maskMatch]
  by_cases hlarge : bits > total
  · rw [if_pos hlarge, if_pos hlarge]
  rw [if_neg hlarge, if_neg hlarge]
  by_cases hzero : bits = 0
  · rw [if_pos hzero, if_pos hzero]
  rw [if_neg hzero, if_neg hzero]
  have hslice : ¬ (base.length < bits / 8 ∨ ip.length < bits / 8) := by omega
  simp only [if_neg hslice]
  by_cases hfull : (base.take (bits / 8) != ip.take (bits / 8)) = true
  · rw [if_pos hfull, if_pos hfull]
  rw [if_neg hfull, if_neg hfull]
  by_cases htail : bits % 8 = 0
  · rw [if_pos htail, if_pos htail]
  -- A length with bits left over is below that of the whole address, so there is one more octet.
  have hshift : ¬ 8 ≤ 8 - bits % 8 := by omega
  have hb : bits / 8 < base.length := by omega
  have hi : bits / 8 < ip.length := by omega
  rw [if_neg htail, if_neg htail, if_neg hshift, List.getElem?_eq_getElem hb,
    List.getElem?_eq_getElem hi, List.getD_eq_getElem?_getD, List.getD_eq_getElem?_getD,
    List.getElem?_eq_getElem hb, List.getElem?_eq_getElem hi]
  rfl

/-- No target makes `matches` panic. -/
theorem targetMatchesChecked_eq (target : AccessTarget) (ip : IpAddr) :
    targetMatchesChecked target ip = some (targetMatches target ip) := by
  cases target with
  | all => rfl
  | ip b => rfl
  | cidr base bits =>
      have hbase := length_octets base
      have hip := length_octets ip
      cases base with
      | v4 b => cases ip with
        | v4 a => exact maskMatchChecked_octets hbase hip bits
        | v6 a => rfl
      | v6 b => cases ip with
        | v4 a => rfl
        | v6 a => exact maskMatchChecked_octets hbase hip bits

/-! ## Directives -/

/-- The target of the directive is one that contains the address. -/
def DirectiveContains (directive : Bool × String) (ip : IpAddr) : Prop :=
  ∃ target, parseTarget directive.2 = .ok target ∧ Contains target ip

/-- The action of the first directive that contains the address, and allow if none does. -/
def FirstDecides (directives : List (Bool × String)) (ip : IpAddr) (allowed : Bool) : Prop :=
  (∃ before directive after, directives = before ++ directive :: after ∧
    (∀ d ∈ before, ¬ DirectiveContains d ip) ∧ DirectiveContains directive ip ∧
      allowed = directive.1) ∨
  ((∀ d ∈ directives, ¬ DirectiveContains d ip) ∧ allowed = true)

theorem FirstDecides.cons {directives : List (Bool × String)} {directive : Bool × String}
    {ip : IpAddr} {allowed : Bool} (h : FirstDecides directives ip allowed)
    (hnot : ¬ DirectiveContains directive ip) :
    FirstDecides (directive :: directives) ip allowed := by
  rcases h with ⟨before, d, after, rfl, hbefore, hd, hallowed⟩ | ⟨hnone, hallowed⟩
  · exact Or.inl ⟨directive :: before, d, after, rfl, List.forall_mem_cons.2 ⟨hnot, hbefore⟩, hd,
      hallowed⟩
  · exact Or.inr ⟨List.forall_mem_cons.2 ⟨hnot, hnone⟩, hallowed⟩

/-- A directive matches the addresses its target contains. -/
theorem targetMatches_iff_directive {directive : Bool × String} {target : AccessTarget}
    (h : parseTarget directive.2 = .ok target) (ip : IpAddr) :
    targetMatches target ip = true ↔ DirectiveContains directive ip := by
  rw [targetMatches_iff (parseTarget_fits h), covers_iff_contains]
  constructor
  · intro hcontains
    exact ⟨target, h, hcontains⟩
  · rintro ⟨other, hother, hcontains⟩
    rw [h] at hother
    obtain rfl := Except.ok.inj hother
    exact hcontains

theorem accessCheck_cons (rule : AccessRule) (rules : List AccessRule) (ip : IpAddr) :
    accessCheck (rule :: rules) ip =
      if targetMatches rule.target ip = true then rule.allow else accessCheck rules ip := by
  by_cases hmatch : targetMatches rule.target ip = true
  · have hfind : (rule :: rules).find? (fun r => targetMatches r.target ip) = some rule :=
      List.find?_cons_of_pos hmatch
    rw [if_pos hmatch, accessCheck, hfind]
  · have hfind : (rule :: rules).find? (fun r => targetMatches r.target ip) =
        rules.find? fun r => targetMatches r.target ip := List.find?_cons_of_neg hmatch
    rw [if_neg hmatch, accessCheck, hfind, accessCheck]

/-- **Access control.** For every list of `allow` and `deny` directives with targets that
`parse_target` accepts, and for every client address, the rules built from it let the client in
exactly if the first directive whose target contains the address is an `allow`, or none contains it.
Every block has a length within its family, and neither a shift nor an index of `mask_match` leaves
its range. -/
theorem access_decides (loc : Location)
    (haccepted : ∀ d ∈ loc.accessRules, ∃ target, parseTarget d.2 = .ok target) (ip : IpAddr) :
    (∃ rules, buildAccess loc = .ok rules ∧
      FirstDecides loc.accessRules ip (accessCheck rules ip)) ∧
    ∀ d ∈ loc.accessRules, ∀ target, parseTarget d.2 = .ok target →
      (∀ base bits, target = .cidr base bits → bits ≤ addressBits base) ∧
        targetMatchesChecked target ip = some (targetMatches target ip) := by
  constructor
  · rw [buildAccess]
    revert haccepted
    induction loc.accessRules with
    | nil =>
        intro _
        exact ⟨[], rfl, Or.inr ⟨by simp, rfl⟩⟩
    | cons directive directives ih =>
        intro haccepted
        obtain ⟨⟨target, htarget⟩, hrest⟩ := List.forall_mem_cons.1 haccepted
        obtain ⟨rules, hrules, hdecides⟩ := ih hrest
        refine ⟨⟨directive.1, target⟩ :: rules, ?_, ?_⟩
        · rw [List.mapM_cons, hrules]
          simp only [htarget]
          rfl
        · have hmatch := targetMatches_iff_directive htarget ip
          rw [accessCheck_cons]
          by_cases hcontains : DirectiveContains directive ip
          · rw [if_pos (hmatch.2 hcontains)]
            exact Or.inl ⟨[], directive, directives, rfl, by simp, hcontains, rfl⟩
          · rw [if_neg fun h => hcontains (hmatch.1 h)]
            exact hdecides.cons hcontains
  · intro d _ target htarget
    refine ⟨?_, targetMatchesChecked_eq target ip⟩
    rintro base bits rfl
    exact parseTarget_fits htarget

/-- A location that only the upper half of 10.0.0.0/8 may reach. -/
def upperHalfOnly : Location :=
  { returning .prefixed "/" 200 with
    accessRules := [(true, "10.128.0.0/9"), (false, "all")] }

theorem access_decides_upperHalfOnly :
    ∃ rules, buildAccess upperHalfOnly = .ok rules ∧
      FirstDecides upperHalfOnly.accessRules (.v4 privateClient)
        (accessCheck rules (.v4 privateClient)) := by
  refine (access_decides upperHalfOnly ?_ (.v4 privateClient)).1
  intro d hd
  rcases List.mem_cons.1 hd with rfl | hd
  · exact ⟨.cidr (.v4 ⟨10, 128, 0, 0⟩) 9, by decide⟩
  · rw [List.mem_singleton.1 hd]
    exact ⟨.all, rfl⟩

end Elrond.Server
