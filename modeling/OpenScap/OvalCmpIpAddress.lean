import Mathlib.Data.List.TakeWhile
import OpenScap.AddressBlock
import OpenScap.CNumber
import OpenScap.KeyedOrder
import OpenScap.OvalTest

/-!
# Comparing IP addresses

`oval_ipaddr_cmp` compares an address of a state with one of the system. Either text may end
in a prefix length, and an IPv4 address also in a netmask. The addresses are kept as the bytes
in memory, most significant first.

An assertion that fails, a shift by as many bits as the number has, an access outside the
address and a use of what `sscanf` did not set are outcomes of their own (`IpFault`). How
`inet_pton` reads IPv6 addresses is a parameter.

## Main results

* `subsetOf_decides`, `supersetOf_decides` — on addresses with prefix masks, `subset of` and
  `superset of` are the inclusions of the address blocks.
-/

open AddressBlock

namespace OpenScap

/-! ### The C library -/

/-- `AF_INET` and `AF_INET6`. -/
inductive AddressFamily
  | inet
  | inet6
  deriving DecidableEq, Repr

/-- The bytes of an address. -/
def AddressFamily.size : AddressFamily → ℕ
  | .inet => 4
  | .inet6 => 16

/-- `memcmp` on blocks of one length, up to the size of what it returns. -/
def memcmp (as bs : List UInt8) : ℤ := KeyedOrder.sign (compare as bs)

/-- A field of a dotted quad: one to three digits with a value of at most 255. -/
def ptonOctet (field : List UInt8) : Option UInt8 :=
  if field ≠ [] ∧ field.length ≤ 3 ∧ field.all isdigit ∧ digitsValue field ≤ 255 then
    some (UInt8.ofNat (digitsValue field))
  else none

/-- `inet_pton` for `AF_INET`: four fields of one to three digits with dots between them. -/
def inetPton4 (s : List UInt8) : Option (List UInt8) :=
  let fields := s.splitOn (ascii '.')
  if fields.length = 4 then fields.mapM ptonOctet else none

/-- How `inet_pton` reads IPv6 addresses. -/
abbrev Inet6Pton := List UInt8 → Option { addr : List UInt8 // addr.length = 16 }

/-- `inet_pton`; `none` for the texts it does not accept. -/
def inetPton (pton6 : Inet6Pton) : AddressFamily → List UInt8 → Option (List UInt8)
  | .inet, s => inetPton4 s
  | .inet6, s => (pton6 s).map Subtype.val

/-- `%hhu` of `sscanf`: the value and what is left of the text. -/
def scanHhu (s : List UInt8) : Option (UInt8 × List UInt8) :=
  let (negative, s) := takeSign (s.dropWhile isspace)
  let digits := s.takeWhile isdigit
  if digits = [] then none
  else
    let n := min (digitsValue digits) (2 ^ 64 - 1)
    some (UInt8.ofNat (if negative then 2 ^ 64 - n else n), s.dropWhile isdigit)

/-- `sscanf` with the format of `k` numbers `%hhu` separated by dots: the numbers it sets. -/
def scanDotted : ℕ → List UInt8 → List UInt8
  | 0, _ => []
  | k + 1, s =>
    match scanHhu s with
    | none => []
    | some (n, c :: rest) => n :: if c = ascii '.' then scanDotted k rest else []
    | some (n, []) => [n]

/-! ### The source -/

/-- What the comparison must not run into. -/
inductive IpFault
  | assertion
  | shift
  | uninitialized
  | index (i : ℤ)
  deriving DecidableEq, Repr

/-- The bytes of a number in network order. -/
def htonl (m : UInt32) : List UInt8 :=
  [(m >>> 24).toUInt8, (m >>> 16).toUInt8, (m >>> 8).toUInt8, m.toUInt8]

/-- The netmask of a prefix, `(~0) << (32 - nm[0])`. -/
def ipv4Prefix (nm0 : UInt8) : Except IpFault UInt32 :=
  if 1 ≤ nm0 ∧ nm0 ≤ 32 then .ok (0xFFFFFFFF <<< (32 - nm0.toUInt32)) else .error .shift

/-- What stands before the first slash, and what after it. -/
def splitSlash (s : List UInt8) : List UInt8 × Option (List UInt8) :=
  (s.takeWhile (· != ascii '/'), (s.dropWhile (· != ascii '/')).tail?)

/-- The netmask of `ipv4addr_parse`. -/
def ipv4Netmask : Option (List UInt8) → Except IpFault UInt32
  | none => .ok 0xFFFFFFFF
  | some pfx =>
    match scanDotted 4 pfx with
    | [nm0] => ipv4Prefix nm0
    | [nm0, nm1, nm2, nm3] =>
      .ok ((nm0.toUInt32 <<< 24) + (nm1.toUInt32 <<< 16) + (nm2.toUInt32 <<< 8) + nm3.toUInt32)
    | _ => .error .uninitialized

/-- The prefix length of `ipv6addr_parse`. -/
def ipv6Len : Option (List UInt8) → UInt32
  | none => 128
  | some pfx => UInt32.ofNat (strtol pfx % 2 ^ 32).toNat

/-- `ipaddr_parse`: the mask and the address; `none` when it returns -1. -/
def ipaddrParse (pton6 : Inet6Pton) (af : AddressFamily) (s : List UInt8) :
    Except IpFault (Option (UInt32 × List UInt8)) :=
  let (addr, pfx) := splitSlash s
  match af with
  | .inet => do
    let netmask ← ipv4Netmask pfx
    return (inetPton pton6 .inet addr).map fun ip => (netmask, ip)
  | .inet6 => return (inetPton pton6 .inet6 addr).map fun ip => (ipv6Len pfx, ip)

/-- The loop of `ipv6addr_mask`, for the bytes that are left. -/
def ipv6MaskLoop : ℕ → ℤ → UInt8 → List UInt8 → Except IpFault (List UInt8)
  | 0, _, _, addr => .ok addr
  | k + 1, i, mask, addr =>
    if 0 ≤ i then ipv6MaskLoop k (i + 1) 0 (addr.modify i.toNat (· &&& mask))
    else .error (.index i)

/-- `ipv6addr_mask`. Division and remainder truncate towards zero. -/
def ipv6addrMask (addr : List UInt8) (prefixLen : ℤ) : Except IpFault (List UInt8) :=
  if prefixLen ≤ 128 then
    let mask := ((0xFFFFFFFF : UInt32) <<< UInt32.ofNat (8 - prefixLen.tmod 8).toNat).toUInt8
    let i := prefixLen.tdiv 8
    ipv6MaskLoop (16 - i).toNat i mask addr
  else .error .assertion

/-- `ipaddr_mask`; the IPv6 one takes the length as an `int`. -/
def ipaddrMask (af : AddressFamily) (addr : List UInt8) (mask : UInt32) :
    Except IpFault (List UInt8) :=
  match af with
  | .inet => .ok (andBytes addr (htonl mask))
  | .inet6 => ipv6addrMask addr (toInt32 mask.toNat)

/-- The comparison of two addresses, each with a mask, where a test of `memcmp` decides. -/
def cmpMasked (af : AddressFamily) (addr1 : List UInt8) (mask1 : UInt32) (addr2 : List UInt8)
    (mask2 : UInt32) (test : ℤ → Bool) : Except IpFault OvalResult := do
  let addr1 ← ipaddrMask af addr1 mask1
  let addr2 ← ipaddrMask af addr2 mask2
  return if test (memcmp addr1 addr2) then .true else .false

/-- The switch of `oval_ipaddr_cmp`. -/
def ipaddrOperation (af : AddressFamily) (addr1 : List UInt8) (mask1 : UInt32)
    (addr2 : List UInt8) (mask2 : UInt32) (op : OvalOperation) : Except IpFault OvalResult :=
  match op with
  | .equals => .ok (if memcmp addr1 addr2 = 0 ∧ mask1 = mask2 then .true else .false)
  | .notEqual => .ok (if memcmp addr1 addr2 ≠ 0 ∨ mask1 ≠ mask2 then .true else .false)
  | .subsetOf =>
    if mask1 > mask2 then .ok .false else cmpMasked af addr1 mask1 addr2 mask1 (· = 0)
  | .greaterThan => cmpMasked af addr1 mask1 addr2 mask2 (· < 0)
  | .greaterThanOrEqual => cmpMasked af addr1 mask1 addr2 mask2 (· ≤ 0)
  | .supersetOf =>
    if mask1 < mask2 then .ok .false else cmpMasked af addr1 mask2 addr2 mask2 (· = 0)
  | .lessThan => cmpMasked af addr1 mask1 addr2 mask2 (· > 0)
  | .lessThanOrEqual => cmpMasked af addr1 mask1 addr2 mask2 (· ≥ 0)
  | _ => .error .assertion

/-- `oval_ipaddr_cmp`. -/
def ovalIpaddrCmp (pton6 : Inet6Pton) (af : AddressFamily) (s1 s2 : List UInt8)
    (op : OvalOperation) : Except IpFault OvalResult := do
  match ← ipaddrParse pton6 af s1 with
  | none => return .error
  | some (mask1, addr1) =>
    match ← ipaddrParse pton6 af s2 with
    | none => return .error
    | some (mask2, addr2) => ipaddrOperation af addr1 mask1 addr2 mask2 op

/-! ### Splitting off the prefix -/

/-- A text without a slash has no prefix. -/
theorem splitSlash_of_notMem {addr : List UInt8} (h : ascii '/' ∉ addr) :
    splitSlash addr = (addr, none) := by
  have hne : ∀ c ∈ addr, (c != ascii '/') = true := by
    intro c hc
    exact bne_iff_ne.mpr fun heq => h (heq ▸ hc)
  have htake : addr.takeWhile (· != ascii '/') = addr := List.takeWhile_eq_self_iff.mpr hne
  have hdrop : addr.dropWhile (· != ascii '/') = [] := List.dropWhile_eq_nil_iff.mpr hne
  rw [splitSlash, htake, hdrop, List.tail?_nil]

/-- A text is split at its first slash. -/
theorem splitSlash_append {addr : List UInt8} (h : ascii '/' ∉ addr) (pfx : List UInt8) :
    splitSlash (addr ++ ascii '/' :: pfx) = (addr, some pfx) := by
  have hne : ∀ c ∈ addr, (c != ascii '/') = true := by
    intro c hc
    exact bne_iff_ne.mpr fun heq => h (heq ▸ hc)
  rw [splitSlash, List.takeWhile_append_of_pos hne, List.dropWhile_append_of_pos hne]
  simp

/-- The operations of the IP address datatypes. -/
def ipAddressOperations : List OvalOperation :=
  [.equals, .notEqual, .greaterThan, .greaterThanOrEqual, .lessThan, .lessThanOrEqual, .subsetOf,
    .supersetOf]

/-! ### Comparing masked addresses -/

/-- A result says whether something is the case. -/
def Decides (result : OvalResult) (p : Prop) : Prop :=
  (p → result = .true) ∧ (¬ p → result = .false)

/-- `memcmp` is zero on equal blocks only. -/
theorem memcmp_eq_zero_iff (as bs : List UInt8) : memcmp as bs = 0 ↔ as = bs := by
  rw [memcmp, KeyedOrder.sign_eq_zero_iff, Std.compare_eq_iff_eq]

/-- `memcmp` is negative when the first block writes the smaller number. -/
theorem memcmp_neg_iff {as bs : List UInt8} (h : as.length = bs.length) :
    memcmp as bs < 0 ↔ bigEndian as < bigEndian bs := by
  rw [memcmp, KeyedOrder.sign_neg_iff, compare_bigEndian h, compare_lt_iff_lt]

theorem memcmp_pos_iff {as bs : List UInt8} (h : as.length = bs.length) :
    0 < memcmp as bs ↔ bigEndian bs < bigEndian as := by
  rw [memcmp, KeyedOrder.sign_pos_iff, compare_bigEndian h, compare_gt_iff_gt]

theorem andBytes_length {as bs : List UInt8} (h : as.length = bs.length) :
    (andBytes as bs).length = as.length := by
  rw [andBytes, List.length_zipWith, h, Nat.min_self]

/-- A conditional result decides its condition. -/
theorem decides_ite (p : Prop) [Decidable p] : Decides (if p then .true else .false) p := by
  constructor
  · exact fun h => if_pos h
  · exact fun h => if_neg h

theorem Decides.congr {r : OvalResult} {p q : Prop} (h : Decides r p) (hpq : p ↔ q) :
    Decides r q := by
  rwa [Decides, ← hpq]

/-- A result decides one thing only. -/
theorem Decides.iff {r : OvalResult} {p q : Prop} (hp : Decides r p) (hq : Decides r q) :
    p ↔ q := by
  by_cases h : p <;> by_cases h' : q
  · simp [h, h']
  · exact absurd ((hp.1 h).symm.trans (hq.2 h')) (by decide)
  · exact absurd ((hq.1 h').symm.trans (hp.2 h)) (by decide)
  · simp [h, h']

section Masked

variable {af : AddressFamily} {maskOf : ℕ → UInt32} {addr1 addr2 : List UInt8} {p q : ℕ}

/-- The masks of the prefix lengths of a family: they zero the bits behind the prefix, and
longer prefixes have larger masks. -/
structure PrefixMasks (af : AddressFamily) (maskOf : ℕ → UInt32) : Prop where
  mask : ∀ {addr : List UInt8} {p : ℕ}, addr.length = af.size → p ≤ 8 * af.size →
    ipaddrMask af addr (maskOf p) = .ok (andBytes addr (maskBytes af.size p))
  lt_iff : ∀ {p q : ℕ}, p ≤ 8 * af.size → q ≤ 8 * af.size → (maskOf p < maskOf q ↔ p < q)

/-- A comparison of masked addresses. -/
theorem cmpMasked_eq (h : PrefixMasks af maskOf) (h1 : addr1.length = af.size)
    (h2 : addr2.length = af.size) (hp : p ≤ 8 * af.size) (hq : q ≤ 8 * af.size)
    (test : ℤ → Bool) :
    cmpMasked af addr1 (maskOf p) addr2 (maskOf q) test =
      .ok (if test (memcmp (andBytes addr1 (maskBytes af.size p))
        (andBytes addr2 (maskBytes af.size q))) then .true else .false) := by
  rw [cmpMasked, h.mask h1 hp, h.mask h2 hq]
  rfl

/-- **`subset of` is the inclusion of the address blocks**, the system's in the entity's. -/
theorem subsetOf_decides (h : PrefixMasks af maskOf) (h1 : addr1.length = af.size)
    (h2 : addr2.length = af.size) (hp : p ≤ 8 * af.size) (hq : q ≤ 8 * af.size) :
    ∃ r, ipaddrOperation af addr1 (maskOf p) addr2 (maskOf q) .subsetOf = .ok r ∧
      Decides r (block (8 * af.size) q (bigEndian addr2) ⊆
        block (8 * af.size) p (bigEndian addr1)) := by
  have hlt := bigEndian_lt addr2
  rw [h2, show (256 : ℕ) = 2 ^ 8 by rfl, ← pow_mul] at hlt
  rw [block_subset_iff hlt hp]
  by_cases hpq : q < p
  · refine ⟨.false, ?_, fun hsub => absurd hsub.1 (by omega), fun _ => rfl⟩
    exact if_pos ((h.lt_iff hq hp).mpr hpq)
  · have hguard : ¬ maskOf p > maskOf q := fun hgt => hpq ((h.lt_iff hq hp).mp hgt)
    refine ⟨_, (if_neg hguard).trans (cmpMasked_eq h h1 h2 hp hp _), ?_⟩
    simp only [decide_eq_true_eq]
    refine (decides_ite _).congr ?_
    rw [memcmp_eq_zero_iff, andBytes_maskBytes_eq_iff h1 h2 hp]
    exact ⟨fun heq => ⟨by omega, heq.symm⟩, fun hsub => hsub.2.symm⟩

/-- **`superset of` is the converse inclusion.** -/
theorem supersetOf_decides (h : PrefixMasks af maskOf) (h1 : addr1.length = af.size)
    (h2 : addr2.length = af.size) (hp : p ≤ 8 * af.size) (hq : q ≤ 8 * af.size) :
    ∃ r, ipaddrOperation af addr1 (maskOf p) addr2 (maskOf q) .supersetOf = .ok r ∧
      Decides r (block (8 * af.size) p (bigEndian addr1) ⊆
        block (8 * af.size) q (bigEndian addr2)) := by
  have hlt := bigEndian_lt addr1
  rw [h1, show (256 : ℕ) = 2 ^ 8 by rfl, ← pow_mul] at hlt
  rw [block_subset_iff hlt hq]
  by_cases hpq : p < q
  · refine ⟨.false, ?_, fun hsub => absurd hsub.1 (by omega), fun _ => rfl⟩
    exact if_pos ((h.lt_iff hp hq).mpr hpq)
  · have hguard : ¬ maskOf p < maskOf q := fun hlt => hpq ((h.lt_iff hp hq).mp hlt)
    refine ⟨_, (if_neg hguard).trans (cmpMasked_eq h h1 h2 hq hq _), ?_⟩
    simp only [decide_eq_true_eq]
    refine (decides_ite _).congr ?_
    rw [memcmp_eq_zero_iff, andBytes_maskBytes_eq_iff h1 h2 hq]
    exact ⟨fun heq => ⟨by omega, heq⟩, fun hsub => hsub.2⟩

end Masked

end OpenScap
