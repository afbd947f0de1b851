import OpenScap.DelimitedText
import OpenScap.OvalCmpIpAddress

/-!
# Comparing IPv4 addresses

A well-formed IPv4 value is a dotted quad, alone or followed by a prefix length or a contiguous
netmask. The schema defines the operations on pairs of an address and a prefix length, as if
the bits behind the prefix were zeroed, and asks for an error where an ordering meets different
prefixes.

The parser turns a prefix length into a netmask by a shift, which is undefined for the length
zero. The equalities compare the addresses as they are written, and the orderings do not look
at the prefixes.

## Main results

* `ipaddrParse_ipv4` — what is parsed for a well-formed value;
* `ipv4addr_cmp_iff` — for which values an operation means what the schema says
  (`Ipv4Condition`).
-/

open AddressBlock

namespace OpenScap

/-! ### Netmasks -/

/-- The netmask of a prefix length. -/
def netmaskOf (pfx : ℕ) : UInt32 := UInt32.ofNat (2 ^ 32 - 2 ^ (32 - pfx))

/-- The mask of a prefix in memory. -/
theorem htonl_netmaskOf {pfx : ℕ} (h : pfx ≤ 32) : htonl (netmaskOf pfx) = maskBytes 4 pfx := by
  have hall : ∀ p < 33, htonl (netmaskOf p) = maskBytes 4 p := by decide +kernel
  exact hall pfx (by omega)

/-- The number of a netmask. -/
theorem netmaskOf_toNat (pfx : ℕ) : (netmaskOf pfx).toNat = 2 ^ 32 - 2 ^ (32 - pfx) := by
  have hpos : 0 < 2 ^ (32 - pfx) := Nat.two_pow_pos _
  exact UInt32.toNat_ofNat_of_lt (by rw [UInt32.size]; omega)

/-- Longer prefixes have larger netmasks. -/
theorem netmaskOf_lt_iff {p q : ℕ} (hp : p ≤ 32) (hq : q ≤ 32) :
    netmaskOf p < netmaskOf q ↔ p < q := by
  have hexp : 32 - q < 32 - p ↔ p < q := by omega
  have hpow : 2 ^ (32 - q) < 2 ^ (32 - p) ↔ 32 - q < 32 - p :=
    Nat.pow_lt_pow_iff_right (Nat.lt_succ_self 1)
  have hle : 2 ^ (32 - p) ≤ 2 ^ 32 := Nat.pow_le_pow_right Nat.two_pos (Nat.sub_le _ _)
  have hsub : 2 ^ 32 - 2 ^ (32 - p) < 2 ^ 32 - 2 ^ (32 - q) ↔ 2 ^ (32 - q) < 2 ^ (32 - p) := by
    generalize 2 ^ (32 - p) = a at *
    generalize 2 ^ (32 - q) = b at *
    omega
  rw [UInt32.lt_iff_toNat_lt, netmaskOf_toNat, netmaskOf_toNat, hsub, hpow, hexp]

theorem netmaskOf_inj {p q : ℕ} (hp : p ≤ 32) (hq : q ≤ 32) :
    netmaskOf p = netmaskOf q ↔ p = q := by
  refine ⟨fun h => ?_, congrArg netmaskOf⟩
  have hirrefl := UInt32.lt_irrefl (netmaskOf q)
  have hlt : ¬ p < q := fun hpq => hirrefl (h ▸ (netmaskOf_lt_iff hp hq).mpr hpq)
  have hgt : ¬ q < p := fun hqp => hirrefl (h ▸ (netmaskOf_lt_iff hq hp).mpr hqp)
  omega

/-- The shift gives the netmask of the prefix, from 1 on. -/
theorem ipv4Prefix_eq {pfx : ℕ} (h : pfx ≤ 32) :
    ipv4Prefix (UInt8.ofNat pfx) = if pfx = 0 then .error .shift else .ok (netmaskOf pfx) := by
  have hall : ∀ p < 33, (1 ≤ UInt8.ofNat p ∧ UInt8.ofNat p ≤ 32 ↔ p ≠ 0) ∧
      (p ≠ 0 → (0xFFFFFFFF : UInt32) <<< (32 - (UInt8.ofNat p).toUInt32) = netmaskOf p) := by
    decide +kernel
  obtain ⟨hguard, hshift⟩ := hall pfx (by omega)
  rw [ipv4Prefix]
  simp only [hguard]
  by_cases hp : pfx = 0
  · rw [if_neg (not_not_intro hp), if_pos hp]
  · rw [if_pos hp, if_neg hp, hshift hp]

/-- The number of a netmask in dotted notation. -/
theorem netmask_sum {pfx : ℕ} (h : pfx ≤ 32) {nm0 nm1 nm2 nm3 : UInt8}
    (hbytes : [nm0, nm1, nm2, nm3] = maskBytes 4 pfx) :
    (nm0.toUInt32 <<< 24) + (nm1.toUInt32 <<< 16) + (nm2.toUInt32 <<< 8) + nm3.toUInt32 =
      netmaskOf pfx := by
  have hall : ∀ p < 33, ((maskBytes 4 p).getD 0 0).toUInt32 <<< 24 +
      ((maskBytes 4 p).getD 1 0).toUInt32 <<< 16 + ((maskBytes 4 p).getD 2 0).toUInt32 <<< 8 +
      ((maskBytes 4 p).getD 3 0).toUInt32 = netmaskOf p := by decide +kernel
  have hp := hall pfx (by omega)
  rw [← hbytes] at hp
  exact hp

/-! ### Dotted quads -/

/-- An octet: one to three digits with a value of at most 255. -/
structure Octet extends Decimal where
  /-- There are at most three digits. -/
  short : text.length ≤ 3
  /-- The value fits into a byte. -/
  le : digitsValue text ≤ 255

/-- The byte. -/
def Octet.byte (o : Octet) : UInt8 := UInt8.ofNat o.value

/-- The text of octets with dots between them. -/
def dotted (octets : List Octet) : List UInt8 :=
  [ascii '.'].intercalate (octets.map fun o => o.text)

/-- Four octets. -/
structure Quad where
  octets : List Octet
  /-- There are four. -/
  four : octets.length = 4

/-- The text `a.b.c.d`. -/
def Quad.text (q : Quad) : List UInt8 := dotted q.octets

/-- The address. -/
def Quad.bytes (q : Quad) : List UInt8 := q.octets.map Octet.byte

@[simp] theorem Quad.bytes_length (q : Quad) : q.bytes.length = 4 := by
  rw [Quad.bytes, List.length_map, q.four]

/-- `inet_pton` accepts an octet. -/
theorem ptonOctet_text (o : Octet) : ptonOctet o.text = some o.byte := by
  have hall : o.text.all isdigit = true := by
    rw [List.all_eq_true]
    exact o.digits
  rw [ptonOctet, if_pos ⟨o.ne_nil, o.short, hall, o.le⟩]
  rfl

/-- No dot is in an octet. -/
theorem dot_notMem (o : Octet) : ascii '.' ∉ o.text := by
  intro h
  exact absurd (o.digits _ h) (by decide)

/-- `inet_pton` reads a dotted quad. -/
theorem inetPton4_text (q : Quad) : inetPton4 q.text = some q.bytes := by
  have hsplit : q.text.splitOn (ascii '.') = q.octets.map fun o => o.text := by
    rw [Quad.text, dotted, List.splitOn_intercalate]
    · intro t ht
      obtain ⟨o, -, rfl⟩ := List.mem_map.mp ht
      exact dot_notMem o
    · intro hnil
      have hlen := congrArg List.length hnil
      rw [List.length_map, q.four] at hlen
      cases hlen
  have hmap : ∀ os : List Octet,
      (os.map fun o => o.text).mapM ptonOctet = some (os.map Octet.byte) := by
    intro os
    induction os with
    | nil => rfl
    | cons o os ih =>
        rw [List.map_cons, List.mapM_cons, ptonOctet_text, ih]
        rfl
  simp only [inetPton4, hsplit, List.length_map, q.four, if_true, hmap, Quad.bytes]

/-- `%hhu` reads digits with a value that fits into a byte. -/
theorem scanHhu_digits (d : Decimal) (hd : d.value ≤ 255) {rest : List UInt8}
    (hrest : rest.head?.any isdigit = false) :
    scanHhu (d.text ++ rest) = some (UInt8.ofNat d.value, rest) := by
  obtain ⟨digits, hne, hdigits⟩ := d
  obtain ⟨c, cs, rfl⟩ := List.exists_cons_of_ne_nil hne
  obtain ⟨hspace, hminus, hplus⟩ := isdigit_plain (hdigits c (List.mem_cons_self ..))
  have htake := takeWhile_digits hdigits hrest
  have hdrop := dropWhile_digits hdigits hrest
  have hmin : min (digitsValue (c :: cs)) (2 ^ 64 - 1) = digitsValue (c :: cs) := by
    have hle : digitsValue (c :: cs) ≤ 255 := hd
    omega
  rw [List.cons_append] at htake hdrop
  simp only [scanHhu, List.cons_append, List.dropWhile_cons, hspace, Bool.false_eq_true, if_false,
    takeSign, if_neg hminus, if_neg hplus, htake, hdrop, hmin, reduceCtorEq]
  rfl

/-- The format reads a dotted text. -/
theorem scanDotted_dotted (octets : List Octet) :
    scanDotted octets.length (dotted octets) = octets.map Octet.byte := by
  induction octets with
  | nil => rfl
  | cons o os ih =>
      have ho : o.toDecimal.value ≤ 255 := o.le
      cases os with
      | nil =>
          have hscan := @scanHhu_digits o.toDecimal ho [] rfl
          rw [List.append_nil] at hscan
          simp [dotted, scanDotted, hscan, Octet.byte]
      | cons o' os =>
          have hdot : (ascii '.' :: dotted (o' :: os)).head?.any isdigit = false := rfl
          have hscan := scanHhu_digits o.toDecimal ho hdot
          have htext : dotted (o :: o' :: os) = o.text ++ ascii '.' :: dotted (o' :: os) := by
            simp [dotted]
          rw [htext, List.length_cons, scanDotted, hscan]
          simp only [if_true, ih]
          rfl

/-- No slash is in a dotted text. -/
theorem slash_notMem_dotted (octets : List Octet) : ascii '/' ∉ dotted octets := by
  induction octets with
  | nil => simp [dotted]
  | cons o os ih =>
      have ho : ascii '/' ∉ o.text := fun h => absurd (o.digits _ h) (by decide)
      have hdot : ascii '/' ≠ ascii '.' := by decide
      cases os with
      | nil => simpa [dotted] using ho
      | cons o' os =>
          have htext : dotted (o :: o' :: os) = o.text ++ ascii '.' :: dotted (o' :: os) := by
            simp [dotted]
          rw [htext, List.mem_append, List.mem_cons]
          rintro (h | h | h)
          · exact ho h
          · exact hdot h
          · exact ih h

/-! ### IPv4 values -/

/-- What may follow an IPv4 address: nothing, a prefix length from 0 to 32, or a contiguous
netmask. -/
inductive Ipv4Mask
  | absent
  | length (d : Decimal) (le : d.value ≤ 32)
  | netmask (q : Quad) (pfx : ℕ) (le : pfx ≤ 32) (contiguous : q.bytes = maskBytes 4 pfx)

/-- The prefix length. -/
def Ipv4Mask.pfx : Ipv4Mask → ℕ
  | absent => 32
  | length d _ => d.value
  | netmask _ pfx _ _ => pfx

theorem Ipv4Mask.pfx_le (m : Ipv4Mask) : m.pfx ≤ 32 := by
  cases m with
  | absent => exact le_rfl
  | length d le => exact le
  | netmask q pfx le _ => exact le

/-- The text behind the address. -/
def Ipv4Mask.text : Ipv4Mask → Option (List UInt8)
  | absent => none
  | length d _ => some d.text
  | netmask q _ _ _ => some q.text

/-- The text is `/0`, up to further zeros. -/
def Ipv4Mask.isLengthZero : Ipv4Mask → Bool
  | absent => false
  | length d _ => d.value == 0
  | netmask _ _ _ _ => false

/-- The well-formed IPv4 values. -/
structure Ipv4Value where
  address : Quad
  mask : Ipv4Mask

namespace Ipv4Value

/-- The text. -/
def text (v : Ipv4Value) : List UInt8 :=
  v.address.text ++ (v.mask.text.map (ascii '/' :: ·)).getD []

/-- The address, as a number. -/
def addr (v : Ipv4Value) : ℕ := bigEndian v.address.bytes

/-- The prefix length. -/
def pfx (v : Ipv4Value) : ℕ := v.mask.pfx

/-- The address with the bits behind the prefix zeroed. -/
def network (v : Ipv4Value) : ℕ := v.addr / 2 ^ (32 - v.pfx) * 2 ^ (32 - v.pfx)

/-- The addresses that the value denotes. -/
def addresses (v : Ipv4Value) : Set ℕ := block 32 v.pfx v.addr

theorem pfx_le (v : Ipv4Value) : v.pfx ≤ 32 := v.mask.pfx_le

end Ipv4Value

/-- The netmask that is parsed, unless the shift is by 32 bits. -/
theorem ipv4Netmask_text (m : Ipv4Mask) :
    ipv4Netmask m.text = if m.isLengthZero then .error .shift else .ok (netmaskOf m.pfx) := by
  cases m with
  | absent => rfl
  | length d le =>
      have hscan := @scanHhu_digits d (by omega) [] rfl
      rw [List.append_nil] at hscan
      simp only [ipv4Netmask, Ipv4Mask.text, scanDotted, hscan, ipv4Prefix_eq le,
        Ipv4Mask.isLengthZero, Ipv4Mask.pfx, beq_iff_eq]
  | netmask q pfx le contiguous =>
      have hscan : scanDotted 4 q.text = q.bytes := by
        rw [← q.four]
        exact scanDotted_dotted q.octets
      obtain ⟨nm0, nm1, nm2, nm3, hbytes⟩ := List.length_eq_four.mp q.bytes_length
      simp only [ipv4Netmask, Ipv4Mask.text, hscan, hbytes, Ipv4Mask.isLengthZero,
        Bool.false_eq_true, if_false, Ipv4Mask.pfx,
        netmask_sum le (hbytes.symm.trans contiguous)]

/-- What `ipaddr_parse` gives for a well-formed value. -/
theorem ipaddrParse_ipv4 (pton6 : Inet6Pton) (v : Ipv4Value) :
    ipaddrParse pton6 .inet v.text =
      if v.mask.isLengthZero then .error .shift
      else .ok (some (netmaskOf v.pfx, v.address.bytes)) := by
  have hslash : ascii '/' ∉ v.address.text := slash_notMem_dotted _
  have hsplit : splitSlash v.text = (v.address.text, v.mask.text) := by
    rw [Ipv4Value.text]
    cases hmask : v.mask.text with
    | none =>
        rw [Option.map_none, Option.getD_none, List.append_nil]
        exact splitSlash_of_notMem hslash
    | some pfx =>
        rw [Option.map_some, Option.getD_some]
        exact splitSlash_append hslash pfx
  simp only [ipaddrParse, hsplit, ipv4Netmask_text, inetPton, inetPton4_text]
  split_ifs <;> rfl

/-! ### IPv4 operations -/

/-- The addresses agree on the prefix of the entity. -/
def Ipv4Agree (entity system : Ipv4Value) : Prop :=
  entity.addr / 2 ^ (32 - entity.pfx) = system.addr / 2 ^ (32 - entity.pfx)

/-- The meaning of an ordering: an error unless the prefixes are equal. -/
def OrderMeaning (entity system : Ipv4Value) (holds : Prop) (result : OvalResult) : Prop :=
  if entity.pfx = system.pfx then Decides result holds else result = .error

/-- What the schema says that an operation means. -/
def Ipv4Meaning (op : OvalOperation) (entity system : Ipv4Value) (result : OvalResult) : Prop :=
  match op with
  | .equals => Decides result (entity.pfx = system.pfx ∧ Ipv4Agree entity system)
  | .notEqual => Decides result ¬ (entity.pfx = system.pfx ∧ Ipv4Agree entity system)
  | .greaterThan => OrderMeaning entity system (entity.network < system.network) result
  | .greaterThanOrEqual => OrderMeaning entity system (entity.network ≤ system.network) result
  | .lessThan => OrderMeaning entity system (system.network < entity.network) result
  | .lessThanOrEqual => OrderMeaning entity system (system.network ≤ entity.network) result
  | .subsetOf => Decides result (system.addresses ⊆ entity.addresses)
  | .supersetOf => Decides result (entity.addresses ⊆ system.addresses)
  | _ => True

/-- Where an operation means that: no prefix is written `/0`; for the equalities, addresses
with equal prefixes that agree on the prefix are equal; and for the orderings the prefixes are
equal. -/
def Ipv4Condition (op : OvalOperation) (entity system : Ipv4Value) : Prop :=
  entity.mask.isLengthZero = false ∧ system.mask.isLengthZero = false ∧
    match op with
    | .equals | .notEqual =>
      entity.pfx = system.pfx → Ipv4Agree entity system → entity.addr = system.addr
    | .greaterThan | .greaterThanOrEqual | .lessThan | .lessThanOrEqual =>
      entity.pfx = system.pfx
    | _ => True

/-- The netmasks are the masks of the prefixes. -/
theorem prefixMasks_inet : PrefixMasks .inet netmaskOf where
  mask {addr p} _ hp := by
    rw [ipaddrMask, htonl_netmaskOf hp]
    rfl
  lt_iff hp hq := netmaskOf_lt_iff hp hq

/-- The masked address writes the network. -/
theorem bigEndian_network (v : Ipv4Value) :
    bigEndian (andBytes v.address.bytes (maskBytes 4 v.pfx)) = v.network :=
  bigEndian_and_mask v.address.bytes_length v.pfx_le

/-- The parse of two well-formed values, and the operation on what it gives. -/
theorem ovalIpaddrCmp_ipv4 (pton6 : Inet6Pton) (op : OvalOperation) (entity system : Ipv4Value) :
    ovalIpaddrCmp pton6 .inet entity.text system.text op =
      if entity.mask.isLengthZero ∨ system.mask.isLengthZero then .error .shift
      else ipaddrOperation .inet entity.address.bytes (netmaskOf entity.pfx)
        system.address.bytes (netmaskOf system.pfx) op := by
  rw [ovalIpaddrCmp, ipaddrParse_ipv4, ipaddrParse_ipv4]
  cases entity.mask.isLengthZero <;> cases system.mask.isLengthZero <;> rfl

/-- The equality tests compare the whole addresses. -/
theorem equals_guard_iff (entity system : Ipv4Value) :
    (memcmp entity.address.bytes system.address.bytes = 0 ∧
        netmaskOf entity.pfx = netmaskOf system.pfx) ↔
      entity.pfx = system.pfx ∧ entity.addr = system.addr := by
  rw [memcmp_eq_zero_iff, netmaskOf_inj entity.pfx_le system.pfx_le, Ipv4Value.addr,
    Ipv4Value.addr, bigEndian_injective
      (entity.address.bytes_length.trans system.address.bytes_length.symm), and_comm]

/-- Whole addresses for their prefixes. -/
theorem equals_meaning_iff (entity system : Ipv4Value) :
    (entity.pfx = system.pfx ∧ entity.addr = system.addr ↔
        entity.pfx = system.pfx ∧ Ipv4Agree entity system) ↔
      (entity.pfx = system.pfx → Ipv4Agree entity system → entity.addr = system.addr) := by
  constructor
  · exact fun h hpfx hagree => (h.mpr ⟨hpfx, hagree⟩).2
  · intro h
    refine ⟨fun ⟨hpfx, haddr⟩ => ⟨hpfx, ?_⟩, fun ⟨hpfx, hagree⟩ => ⟨hpfx, h hpfx hagree⟩⟩
    rw [Ipv4Agree, haddr]

/-- An ordering tests the networks, whatever the prefixes. -/
theorem cmpMasked_ipv4 (entity system : Ipv4Value) (test : ℤ → Bool) (holds : Prop)
    (htest : test (memcmp (andBytes entity.address.bytes (maskBytes 4 entity.pfx))
      (andBytes system.address.bytes (maskBytes 4 system.pfx))) = true ↔ holds) :
    (∃ r, cmpMasked .inet entity.address.bytes (netmaskOf entity.pfx) system.address.bytes
        (netmaskOf system.pfx) test = .ok r ∧ OrderMeaning entity system holds r) ↔
      entity.pfx = system.pfx := by
  rw [cmpMasked_eq prefixMasks_inet entity.address.bytes_length system.address.bytes_length
    entity.pfx_le system.pfx_le]
  constructor
  · rintro ⟨r, hr, hmeaning⟩
    by_contra hpfx
    rw [OrderMeaning, if_neg hpfx] at hmeaning
    subst hmeaning
    split at hr <;> cases hr
  · intro hpfx
    refine ⟨_, rfl, ?_⟩
    rw [OrderMeaning, if_pos hpfx]
    exact (decides_ite _).congr htest

/-- What `memcmp` says of the masked addresses. -/
theorem memcmp_networks (entity system : Ipv4Value) :
    (memcmp (andBytes entity.address.bytes (maskBytes 4 entity.pfx))
        (andBytes system.address.bytes (maskBytes 4 system.pfx)) < 0 ↔
      entity.network < system.network) ∧
    (0 < memcmp (andBytes entity.address.bytes (maskBytes 4 entity.pfx))
        (andBytes system.address.bytes (maskBytes 4 system.pfx)) ↔
      system.network < entity.network) := by
  have hlen : ∀ v : Ipv4Value, (andBytes v.address.bytes (maskBytes 4 v.pfx)).length = 4 := by
    intro v
    rw [andBytes_length (by simp), v.address.bytes_length]
  rw [memcmp_neg_iff ((hlen entity).trans (hlen system).symm),
    memcmp_pos_iff ((hlen entity).trans (hlen system).symm), bigEndian_network,
    bigEndian_network]
  exact ⟨Iff.rfl, Iff.rfl⟩

/-- The operation on what the parse gives means what the schema says where the condition on
the prefixes holds. -/
theorem ipaddrOperation_ipv4_iff {op : OvalOperation} (hop : op ∈ ipAddressOperations)
    (entity system : Ipv4Value) (hentity : entity.mask.isLengthZero = false)
    (hsystem : system.mask.isLengthZero = false) :
    (∃ r, ipaddrOperation .inet entity.address.bytes (netmaskOf entity.pfx)
        system.address.bytes (netmaskOf system.pfx) op = .ok r ∧
      Ipv4Meaning op entity system r) ↔ Ipv4Condition op entity system := by
  obtain ⟨hneg, hpos⟩ := memcmp_networks entity system
  simp only [Ipv4Condition, hentity, hsystem, true_and]
  simp only [ipAddressOperations, List.mem_cons, List.not_mem_nil, or_false] at hop
  rcases hop with rfl | rfl | rfl | rfl | rfl | rfl | rfl | rfl
  · rw [← equals_meaning_iff, ← equals_guard_iff]
    constructor
    · rintro ⟨r, hr, hmeaning⟩
      obtain rfl := Except.ok.inj hr
      exact (decides_ite _).iff hmeaning
    · exact fun h => ⟨_, rfl, (decides_ite _).congr h⟩
  · rw [← equals_meaning_iff, ← equals_guard_iff]
    have hguard := @not_and_or (memcmp entity.address.bytes system.address.bytes = 0)
      (netmaskOf entity.pfx = netmaskOf system.pfx)
    constructor
    · rintro ⟨r, hr, hmeaning⟩
      obtain rfl := Except.ok.inj hr
      exact not_iff_not.mp (hguard.trans ((decides_ite _).iff hmeaning))
    · exact fun h => ⟨_, rfl, (decides_ite _).congr (hguard.symm.trans (not_congr h))⟩
  · refine cmpMasked_ipv4 entity system (· < 0) (entity.network < system.network) ?_
    rw [decide_eq_true_eq, hneg]
  · refine cmpMasked_ipv4 entity system (· ≤ 0) (entity.network ≤ system.network) ?_
    rw [decide_eq_true_eq, ← not_lt, hpos, not_lt]
  · refine cmpMasked_ipv4 entity system (· > 0) (system.network < entity.network) ?_
    rw [decide_eq_true_eq, gt_iff_lt, hpos]
  · refine cmpMasked_ipv4 entity system (· ≥ 0) (system.network ≤ entity.network) ?_
    rw [decide_eq_true_eq, ge_iff_le, ← not_lt, hneg, not_lt]
  · exact iff_of_true (subsetOf_decides prefixMasks_inet entity.address.bytes_length
      system.address.bytes_length entity.pfx_le system.pfx_le) trivial
  · exact iff_of_true (supersetOf_decides prefixMasks_inet entity.address.bytes_length
      system.address.bytes_length entity.pfx_le system.pfx_le) trivial

/-- A digit is a short text. -/
theorem length_singleton_le (c : UInt8) : [c].length ≤ 3 := by simp

/-- The number of a single byte fits into a byte. -/
theorem digitsValue_singleton_le (c : UInt8) : digitsValue [c] ≤ 255 := by
  have hc := c.toNat_lt
  simp only [digitsValue, List.foldl_cons, List.foldl_nil, digitValue]
  omega

/-- An octet of one digit. -/
def digitOctet (c : UInt8) (h : isdigit c = true) : Octet where
  text := [c]
  ne_nil := singleton_ne_nil c
  digits := isdigit_of_mem_singleton h
  short := length_singleton_le c
  le := digitsValue_singleton_le c

/-- `1.0.0.0/8`. -/
def networkValue : Ipv4Value where
  address := ⟨[digitOctet (ascii '1') rfl, digitOctet (ascii '0') rfl, digitOctet (ascii '0') rfl,
    digitOctet (ascii '0') rfl], rfl⟩
  mask := .length (digitOctet (ascii '8') rfl).toDecimal (by decide)

/-- `1.2.3.4/8`. -/
def hostValue : Ipv4Value where
  address := ⟨[digitOctet (ascii '1') rfl, digitOctet (ascii '2') rfl, digitOctet (ascii '3') rfl,
    digitOctet (ascii '4') rfl], rfl⟩
  mask := .length (digitOctet (ascii '8') rfl).toDecimal (by decide)

end OpenScap
