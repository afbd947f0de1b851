import OpenScap.OvalCmpIpAddress

/-!
# Comparing IPv6 addresses

The prefix length of an IPv6 address is whatever `strtol` makes of the text behind the slash,
stored as 32 bits and passed on as an `int`. `ipv6addr_mask` asserts an upper bound for it and
none below, and starts its loop at the byte that the length falls into.

## Main results

* `ipv6addrMask_ok_iff` — the lengths for which masking meets no fault;
* `ipv6addrMask_eq` — a prefix length zeroes the bits behind the prefix;
* `ipv6addr_cmp_safe_iff` — for which texts and operations the comparison meets no fault
  (`Ipv6Safe`), and that `subset of` and `superset of` are the inclusions of the blocks.
-/

open AddressBlock

namespace OpenScap

/-! ### The mask -/

/-- The loop of `ipv6addr_mask` on an index within the address: the byte there is masked, and
the rest zeroed. -/
def maskFrom (mask : UInt8) : ℕ → List UInt8 → List UInt8
  | _, [] => []
  | 0, b :: bs => (b &&& mask) :: maskFrom 0 0 bs
  | i + 1, b :: bs => b :: maskFrom mask i bs

/-- One turn of the loop. -/
theorem maskFrom_modify (mask : UInt8) {i : ℕ} {addr : List UInt8} (h : i < addr.length) :
    maskFrom 0 (i + 1) (addr.modify i (· &&& mask)) = maskFrom mask i addr := by
  induction addr generalizing i with
  | nil => simp at h
  | cons b bs ih =>
      cases i with
      | zero => simp [maskFrom]
      | succ i =>
          rw [List.modify_succ_cons, maskFrom, maskFrom, ih (Nat.lt_of_succ_lt_succ h)]

/-- Behind the last byte nothing is masked. -/
theorem maskFrom_length (mask : UInt8) (addr : List UInt8) :
    maskFrom mask addr.length addr = addr := by
  induction addr with
  | nil => rfl
  | cons b bs ih => rw [List.length_cons, maskFrom, ih]

/-- The loop from an index within the address or right behind it. -/
theorem ipv6MaskLoop_eq {k i : ℕ} (mask : UInt8) {addr : List UInt8} (h : i + k = addr.length) :
    ipv6MaskLoop k i mask addr = .ok (maskFrom mask i addr) := by
  induction k generalizing i mask addr with
  | zero =>
      obtain rfl : i = addr.length := h
      rw [ipv6MaskLoop, maskFrom_length]
  | succ k ih =>
      have hlen : i + 1 + k = (addr.modify i (· &&& mask)).length := by
        rw [List.length_modify]
        omega
      have hrest := ih 0 hlen
      rw [maskFrom_modify mask (by omega)] at hrest
      rw [ipv6MaskLoop, if_pos (Int.natCast_nonneg i), Int.toNat_natCast]
      exact_mod_cast hrest

/-- Zeroed bytes. -/
theorem maskFrom_zero (n : ℕ) {addr : List UInt8} (h : addr.length = n) :
    maskFrom 0 0 addr = andBytes addr (maskBytes n 0) := by
  induction n generalizing addr with
  | zero =>
      obtain rfl := List.eq_nil_of_length_eq_zero h
      rfl
  | succ n ih =>
      obtain ⟨b, bs, rfl⟩ := List.exists_cons_of_length_pos (h ▸ Nat.succ_pos _ : 0 < addr.length)
      rw [maskFrom, ih (Nat.succ.inj h)]
      rfl

/-- The byte in which the prefix ends is masked, and what stands behind it zeroed. -/
theorem maskFrom_eq {n pfx : ℕ} {addr : List UInt8} (h : addr.length = n) :
    maskFrom (UInt8.ofNat (256 - 2 ^ (8 - pfx % 8))) (pfx / 8) addr =
      andBytes addr (maskBytes n pfx) := by
  induction n generalizing pfx addr with
  | zero =>
      obtain rfl := List.eq_nil_of_length_eq_zero h
      rw [maskFrom]
      rfl
  | succ n ih =>
      obtain ⟨b, bs, rfl⟩ := List.exists_cons_of_length_pos (h ▸ Nat.succ_pos _ : 0 < addr.length)
      have hstep : andBytes (b :: bs) (maskBytes (n + 1) pfx) =
          (b &&& if 8 ≤ pfx then 255 else UInt8.ofNat (256 - 2 ^ (8 - pfx))) ::
            andBytes bs (maskBytes n (pfx - 8)) := rfl
      rw [hstep]
      split_ifs with h8
      · have hkeep : b &&& 255 = b := forall_byte (p := fun b => b &&& 255 = b)
          (by decide +kernel) b
        have hdiv : pfx / 8 = (pfx - 8) / 8 + 1 := by omega
        have hmod : pfx % 8 = (pfx - 8) % 8 := by omega
        rw [hkeep, hdiv, hmod, maskFrom, ih (Nat.succ.inj h)]
      · have hdiv : pfx / 8 = 0 := by omega
        have hmod : pfx % 8 = pfx := by omega
        have hzero : pfx - 8 = 0 := by omega
        rw [hdiv, hmod, hzero, maskFrom, maskFrom_zero n (Nat.succ.inj h)]

/-- **A prefix length zeroes the bits behind the prefix.** -/
theorem ipv6addrMask_eq {pfx : ℕ} (hpfx : pfx ≤ 128) {addr : List UInt8}
    (h : addr.length = 16) :
    ipv6addrMask addr pfx = .ok (andBytes addr (maskBytes 16 pfx)) := by
  have hshift : ∀ r : ℕ, r < 8 →
      ((0xFFFFFFFF : UInt32) <<< UInt32.ofNat (8 - (r : ℤ)).toNat).toUInt8 =
        UInt8.ofNat (256 - 2 ^ (8 - r)) := by decide +kernel
  have hmod : (pfx : ℤ).tmod 8 = (pfx % 8 : ℕ) := by
    rw [Int.tmod_eq_emod_of_nonneg (Int.natCast_nonneg pfx)]
    rfl
  have hdiv : (pfx : ℤ).tdiv 8 = (pfx / 8 : ℕ) := by
    rw [Int.tdiv_eq_ediv_of_nonneg (Int.natCast_nonneg pfx)]
    rfl
  have hk : (16 - ((pfx / 8 : ℕ) : ℤ)).toNat = 16 - pfx / 8 := by omega
  rw [ipv6addrMask, if_pos (by omega)]
  simp only [hmod, hdiv, hk, hshift _ (Nat.mod_lt pfx (by omega))]
  rw [ipv6MaskLoop_eq _ (by omega), maskFrom_eq h]

/-- Division towards zero. -/
theorem tdiv_eight (v : ℤ) : v.tdiv 8 = if 0 ≤ v then v / 8 else -(-v / 8) := by
  split_ifs with h
  · exact Int.tdiv_eq_ediv_of_nonneg h
  · rw [← Int.tdiv_eq_ediv_of_nonneg (by omega), Int.neg_tdiv, neg_neg]

/-- The lengths that masking can take. -/
def MaskSafe (prefixLen : ℤ) : Prop := -8 < prefixLen ∧ prefixLen ≤ 128

/-- **Masking meets no fault** exactly for lengths above -8 and up to 128. -/
theorem ipv6addrMask_ok_iff {addr : List UInt8} (h : addr.length = 16) (prefixLen : ℤ) :
    (∃ addr', ipv6addrMask addr prefixLen = .ok addr') ↔ MaskSafe prefixLen := by
  have htdiv := tdiv_eight prefixLen
  rw [ipv6addrMask, MaskSafe]
  by_cases hle : prefixLen ≤ 128
  · rw [if_pos hle]
    rcases lt_or_ge (-8) prefixLen with hgt | hle8
    · refine iff_of_true ?_ ⟨hgt, hle⟩
      obtain ⟨i, hi, hi16⟩ : ∃ i : ℕ, prefixLen.tdiv 8 = i ∧ i ≤ 16 :=
        ⟨(prefixLen.tdiv 8).toNat, by split_ifs at htdiv <;> omega,
          by split_ifs at htdiv <;> omega⟩
      have hk : (16 - (i : ℤ)).toNat = 16 - i := by omega
      exact ⟨_, by simp only [hi, hk]; exact ipv6MaskLoop_eq _ (by omega)⟩
    · refine iff_of_false ?_ fun hsafe => absurd hsafe.1 (by omega)
      have hneg : prefixLen.tdiv 8 < 0 := by
        rw [if_neg (by omega)] at htdiv
        omega
      obtain ⟨k, hk⟩ : ∃ k, (16 - prefixLen.tdiv 8).toNat = k + 1 :=
        ⟨(16 - prefixLen.tdiv 8).toNat - 1, by omega⟩
      simp only [hk, ipv6MaskLoop, if_neg (not_le.mpr hneg)]
      rintro ⟨addr', haddr⟩
      cases haddr
  · rw [if_neg hle]
    refine iff_of_false ?_ fun hsafe => hle hsafe.2
    rintro ⟨addr', haddr⟩
    cases haddr

/-! ### Faults -/

/-- A comparison of masked addresses meets no fault when both masks are safe. -/
theorem cmpMasked_inet6_ok_iff {addr1 addr2 : List UInt8} (h1 : addr1.length = 16)
    (h2 : addr2.length = 16) (mask1 mask2 : UInt32) (test : ℤ → Bool) :
    (∃ r, cmpMasked .inet6 addr1 mask1 addr2 mask2 test = .ok r) ↔
      MaskSafe (toInt32 mask1.toNat) ∧ MaskSafe (toInt32 mask2.toNat) := by
  rw [← ipv6addrMask_ok_iff h1, ← ipv6addrMask_ok_iff h2, cmpMasked, ipaddrMask, ipaddrMask]
  cases ipv6addrMask addr1 (toInt32 mask1.toNat) with
  | error e =>
      refine iff_of_false ?_ ?_
      · rintro ⟨_, h⟩
        cases h
      · rintro ⟨⟨_, h⟩, -⟩
        cases h
  | ok a1 =>
      cases ipv6addrMask addr2 (toInt32 mask2.toNat) with
      | error e =>
          refine iff_of_false ?_ ?_
          · rintro ⟨_, h⟩
            cases h
          · rintro ⟨-, _, h⟩
            cases h
      | ok a2 => exact iff_of_true ⟨_, rfl⟩ ⟨⟨a1, rfl⟩, ⟨a2, rfl⟩⟩

/-- Where an operation on two prefix lengths meets no fault. -/
def LengthsSafe (op : OvalOperation) (len1 len2 : UInt32) : Prop :=
  match op with
  | .equals | .notEqual => True
  | .subsetOf => len1 ≤ len2 → MaskSafe (toInt32 len1.toNat)
  | .supersetOf => len2 ≤ len1 → MaskSafe (toInt32 len2.toNat)
  | .greaterThan | .greaterThanOrEqual | .lessThan | .lessThanOrEqual =>
    MaskSafe (toInt32 len1.toNat) ∧ MaskSafe (toInt32 len2.toNat)
  | _ => False

/-- The operation on what the parse gives. -/
theorem ipaddrOperation_inet6_ok_iff {addr1 addr2 : List UInt8} (h1 : addr1.length = 16)
    (h2 : addr2.length = 16) (len1 len2 : UInt32) (op : OvalOperation) :
    (∃ r, ipaddrOperation .inet6 addr1 len1 addr2 len2 op = .ok r) ↔
      LengthsSafe op len1 len2 := by
  cases op with
  | equals | notEqual => exact iff_of_true ⟨_, rfl⟩ trivial
  | greaterThan | greaterThanOrEqual | lessThan | lessThanOrEqual =>
      simp only [ipaddrOperation, LengthsSafe, cmpMasked_inet6_ok_iff h1 h2]
  | subsetOf =>
      rw [ipaddrOperation, LengthsSafe]
      split_ifs with hgt
      · exact iff_of_true ⟨_, rfl⟩ fun hle => absurd hgt (UInt32.not_lt.mpr hle)
      · rw [cmpMasked_inet6_ok_iff h1 h2, and_self]
        exact ⟨fun h _ => h, fun h => h (UInt32.not_lt.mp hgt)⟩
  | supersetOf =>
      rw [ipaddrOperation, LengthsSafe]
      split_ifs with hlt
      · exact iff_of_true ⟨_, rfl⟩ fun hle => absurd hlt (UInt32.not_lt.mpr hle)
      · rw [cmpMasked_inet6_ok_iff h1 h2, and_self]
        exact ⟨fun h _ => h, fun h => h (UInt32.not_lt.mp hlt)⟩
  | unknown | bitwiseAnd | bitwiseOr | caseInsensitiveEquals | caseInsensitiveNotEqual
  | patternMatch =>
      exact iff_of_false (fun ⟨_, h⟩ => by cases h) id

/-- The texts and operations for which the comparison meets no fault: an address is not
accepted, or the operation is one of the datatype and the lengths it masks with are safe. -/
def Ipv6Safe (pton6 : Inet6Pton) (s1 s2 : List UInt8) (op : OvalOperation) : Prop :=
  (pton6 (splitSlash s1).1).isSome → (pton6 (splitSlash s2).1).isSome →
    LengthsSafe op (ipv6Len (splitSlash s1).2) (ipv6Len (splitSlash s2).2)

/-- What is compared when both addresses are accepted. -/
theorem ovalIpaddrCmp_ipv6_ok_iff (pton6 : Inet6Pton) (s1 s2 : List UInt8)
    (op : OvalOperation) :
    (∃ r, ovalIpaddrCmp pton6 .inet6 s1 s2 op = .ok r) ↔ Ipv6Safe pton6 s1 s2 op := by
  rw [Ipv6Safe, ovalIpaddrCmp, ipaddrParse, ipaddrParse]
  simp only [inetPton]
  cases pton6 (splitSlash s1).1 with
  | none => exact iff_of_true ⟨_, rfl⟩ fun h => by cases h
  | some addr1 =>
      cases pton6 (splitSlash s2).1 with
      | none => exact iff_of_true ⟨_, rfl⟩ fun _ h => by cases h
      | some addr2 =>
          have hoperation := ipaddrOperation_inet6_ok_iff addr1.property addr2.property
            (ipv6Len (splitSlash s1).2) (ipv6Len (splitSlash s2).2) op
          exact hoperation.trans ⟨fun h _ _ => h, fun h => h rfl rfl⟩

/-! ### Well-formed values -/

/-- The well-formed IPv6 values: an address that is accepted, and a prefix length from 0 to
128 or none. -/
structure Ipv6Value (pton6 : Inet6Pton) where
  address : List UInt8
  bytes : List UInt8
  length : Option Decimal
  /-- The address is accepted. -/
  accepted : (pton6 address).map Subtype.val = some bytes
  /-- It has no slash. -/
  noSlash : ascii '/' ∉ address
  /-- The prefix length is in range. -/
  le : ∀ d ∈ length, d.value ≤ 128

namespace Ipv6Value

variable {pton6 : Inet6Pton}

/-- The text. -/
def text (v : Ipv6Value pton6) : List UInt8 :=
  v.address ++ (v.length.map fun d => ascii '/' :: d.text).getD []

/-- The prefix length. -/
def pfx (v : Ipv6Value pton6) : ℕ := (v.length.map Decimal.value).getD 128

/-- The addresses that the value denotes. -/
def addresses (v : Ipv6Value pton6) : Set ℕ := block 128 v.pfx (bigEndian v.bytes)

theorem pfx_le (v : Ipv6Value pton6) : v.pfx ≤ 128 := by
  rw [pfx]
  cases hlength : v.length with
  | none => exact le_rfl
  | some d => exact v.le d hlength

theorem bytes_length (v : Ipv6Value pton6) : v.bytes.length = 16 := by
  obtain ⟨addr, -, haddr⟩ := Option.map_eq_some_iff.mp v.accepted
  rw [← haddr]
  exact addr.property

/-- What is parsed. -/
theorem ipaddrParse_text (v : Ipv6Value pton6) :
    ipaddrParse pton6 .inet6 v.text = .ok (some (UInt32.ofNat v.pfx, v.bytes)) := by
  have hsplit : splitSlash v.text = (v.address, v.length.map Decimal.text) := by
    rw [text]
    cases v.length with
    | none =>
        rw [Option.map_none, Option.getD_none, List.append_nil]
        exact splitSlash_of_notMem v.noSlash
    | some d => exact splitSlash_append v.noSlash d.text
  have hlen : ipv6Len (v.length.map Decimal.text) = UInt32.ofNat v.pfx := by
    rw [pfx]
    cases hlength : v.length with
    | none => rfl
    | some d =>
        have hle := v.le d hlength
        have hread := @strtol_digits d [] rfl
        have hclamp : clampLong d.value = d.value := by
          rw [clampLong]
          omega
        rw [List.append_nil, hclamp] at hread
        rw [Option.map_some, Option.map_some, ipv6Len, hread, Option.getD_some]
        congr 1
        omega
  simp only [ipaddrParse, hsplit, hlen, inetPton, v.accepted]
  rfl

end Ipv6Value

/-- Prefix lengths mask with themselves. -/
theorem prefixMasks_inet6 : PrefixMasks .inet6 UInt32.ofNat where
  mask {addr p} hlen hp := by
    have hp128 : p ≤ 128 := hp
    have hint : toInt32 (UInt32.ofNat p).toNat = p := by
      rw [UInt32.toNat_ofNat_of_lt' (lt_of_le_of_lt hp128 (by decide)), toInt32]
      exact Int.bmod_eq_of_le (by omega) (by omega)
    rw [ipaddrMask, hint]
    exact ipv6addrMask_eq hp128 hlen
  lt_iff {p q} hp hq := by
    have hp128 : p ≤ 128 := hp
    have hq128 : q ≤ 128 := hq
    rw [UInt32.lt_iff_toNat_lt, UInt32.toNat_ofNat_of_lt' (lt_of_le_of_lt hp128 (by decide)),
      UInt32.toNat_ofNat_of_lt' (lt_of_le_of_lt hq128 (by decide))]

/-- **The IPv6 comparison stays in its domain** exactly for the texts and operations of
`Ipv6Safe`; and on well-formed values, `subset of` and `superset of` are the inclusions of the
address blocks. -/
theorem ipv6addr_cmp_safe_iff (pton6 : Inet6Pton) :
    (∀ (s1 s2 : List UInt8) (op : OvalOperation),
      (∃ r, ovalIpaddrCmp pton6 .inet6 s1 s2 op = .ok r) ↔ Ipv6Safe pton6 s1 s2 op) ∧
    ∀ entity system : Ipv6Value pton6,
      (∃ r, ovalIpaddrCmp pton6 .inet6 entity.text system.text .subsetOf = .ok r ∧
        Decides r (system.addresses ⊆ entity.addresses)) ∧
      ∃ r, ovalIpaddrCmp pton6 .inet6 entity.text system.text .supersetOf = .ok r ∧
        Decides r (entity.addresses ⊆ system.addresses) := by
  refine ⟨ovalIpaddrCmp_ipv6_ok_iff pton6, fun entity system => ?_⟩
  have hcmp : ∀ op, ovalIpaddrCmp pton6 .inet6 entity.text system.text op =
      ipaddrOperation .inet6 entity.bytes (UInt32.ofNat entity.pfx) system.bytes
        (UInt32.ofNat system.pfx) op := by
    intro op
    rw [ovalIpaddrCmp, entity.ipaddrParse_text, system.ipaddrParse_text]
    rfl
  rw [hcmp, hcmp]
  exact ⟨subsetOf_decides prefixMasks_inet6 entity.bytes_length system.bytes_length
      entity.pfx_le system.pfx_le,
    supersetOf_decides prefixMasks_inet6 entity.bytes_length system.bytes_length
      entity.pfx_le system.pfx_le⟩

/-- `inet_pton` on the unspecified address, `::`. -/
def unspecifiedPton (s : List UInt8) : Option { addr : List UInt8 // addr.length = 16 } :=
  if s = bytes [':', ':'] then some ⟨List.replicate 16 0, rfl⟩ else none

/-- **The comparison leaves its domain on some texts**: the length -8 starts the loop before
the address. -/
theorem not_ipv6addr_cmp_safe :
    ¬ ∀ (pton6 : Inet6Pton) (s1 s2 : List UInt8) (op : OvalOperation),
      ∃ r, ovalIpaddrCmp pton6 .inet6 s1 s2 op = .ok r := by
  intro h
  have hsafe := (ovalIpaddrCmp_ipv6_ok_iff _ _ _ _).mp
    (h unspecifiedPton (bytes [':', ':', '/', '-', '8']) (bytes [':', ':']) .lessThan)
  have hlength := (hsafe (by decide +kernel) (by decide +kernel)).1.1
  revert hlength
  decide +kernel

end OpenScap
