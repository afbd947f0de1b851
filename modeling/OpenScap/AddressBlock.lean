import Mathlib.Algebra.Order.Ring.Nat
import Mathlib.Data.Nat.Basic
import Mathlib.Order.Compare
import Mathlib.Order.Nat
import Mathlib.Order.SetNotation
import Mathlib.Tactic.Ring

/-!
# Address blocks

An address of a fixed number of bits with a prefix length stands for the block of all
addresses that agree with it on the leading bits. Addresses are kept as bytes, most
significant first, and masks are applied byte by byte.

## Main results

* `block_subset_iff` — when one block lies in another;
* `andBytes_maskBytes_eq_iff` — masked byte strings are equal when the addresses agree on the
  prefix;
* `compare_bigEndian` — byte strings of one length compare as the numbers they write.
-/

namespace AddressBlock

/-! ### Blocks -/

/-- The addresses that agree with `a` on the first `pfx` of `bits` bits. -/
def block (bits pfx a : ℕ) : Set ℕ :=
  {x | x < 2 ^ bits ∧ x / 2 ^ (bits - pfx) = a / 2 ^ (bits - pfx)}

/-- Agreement on a prefix is agreement on every shorter one. -/
theorem div_two_pow_eq_of_le {k l a b : ℕ} (hkl : k ≤ l) (h : a / 2 ^ k = b / 2 ^ k) :
    a / 2 ^ l = b / 2 ^ l := by
  obtain ⟨d, rfl⟩ := Nat.exists_eq_add_of_le hkl
  rw [pow_add, ← Nat.div_div_eq_div_mul, ← Nat.div_div_eq_div_mul, h]

/-- A block with a shorter prefix has addresses that a longer prefix tells apart. -/
theorem exists_mem_block_ne {bits p q b : ℕ} (hb : b < 2 ^ bits) (hp : p ≤ bits) (hq : q < p) :
    ∃ x ∈ block bits q b, ∃ y ∈ block bits q b,
      x / 2 ^ (bits - p) ≠ y / 2 ^ (bits - p) := by
  have hpos : 0 < 2 ^ (bits - p) := Nat.two_pow_pos _
  have hlow : 2 ^ (bits - p) < 2 ^ (bits - q) := Nat.pow_lt_pow_right (by omega) (by omega)
  -- the lowest address of the block, and the one that differs in the last bit of the prefix
  have hbits : 2 ^ bits = 2 ^ q * 2 ^ (bits - q) := by
    rw [← pow_add]
    congr 1
    omega
  have hquot : b / 2 ^ (bits - q) < 2 ^ q := by
    rw [Nat.div_lt_iff_lt_mul (Nat.two_pow_pos _), ← hbits]
    exact hb
  have htop : b / 2 ^ (bits - q) * 2 ^ (bits - q) + 2 ^ (bits - q) ≤ 2 ^ bits := by
    rw [hbits]
    calc b / 2 ^ (bits - q) * 2 ^ (bits - q) + 2 ^ (bits - q)
        = (b / 2 ^ (bits - q) + 1) * 2 ^ (bits - q) := by ring
      _ ≤ 2 ^ q * 2 ^ (bits - q) := Nat.mul_le_mul_right _ hquot
  refine ⟨b / 2 ^ (bits - q) * 2 ^ (bits - q), ⟨by omega, ?_⟩,
    b / 2 ^ (bits - q) * 2 ^ (bits - q) + 2 ^ (bits - p), ⟨by omega, ?_⟩, ?_⟩
  · rw [Nat.mul_div_cancel _ (Nat.two_pow_pos _)]
  · rw [mul_comm, Nat.mul_add_div (Nat.two_pow_pos _), Nat.div_eq_of_lt hlow, Nat.add_zero]
  · rw [Nat.add_div_right _ hpos]
    omega

/-- **One block lies in another** when its prefix is not shorter and the addresses agree on the
other's prefix. -/
theorem block_subset_iff {bits p q a b : ℕ} (hb : b < 2 ^ bits) (hp : p ≤ bits) :
    block bits q b ⊆ block bits p a ↔
      p ≤ q ∧ b / 2 ^ (bits - p) = a / 2 ^ (bits - p) := by
  constructor
  · intro h
    refine ⟨?_, (h ⟨hb, rfl⟩).2⟩
    by_contra hlt
    obtain ⟨x, hx, y, hy, hne⟩ := exists_mem_block_ne hb hp (Nat.lt_of_not_le hlt)
    exact hne ((h hx).2.trans (h hy).2.symm)
  · rintro ⟨hpq, hab⟩ x ⟨hx, hxb⟩
    exact ⟨hx, (div_two_pow_eq_of_le (by omega) hxb).trans hab⟩

/-! ### Bytes -/

/-- The number that bytes write, the most significant one first. -/
def bigEndian : List UInt8 → ℕ
  | [] => 0
  | b :: bs => b.toNat * 256 ^ bs.length + bigEndian bs

/-- It is below the power of 256 for their number. -/
theorem bigEndian_lt (bs : List UInt8) : bigEndian bs < 256 ^ bs.length := by
  induction bs with
  | nil => simp [bigEndian]
  | cons b bs ih =>
      have hb : b.toNat ≤ 255 := Nat.le_of_lt_succ b.toNat_lt
      calc b.toNat * 256 ^ bs.length + bigEndian bs
          < b.toNat * 256 ^ bs.length + 256 ^ bs.length := by omega
        _ = (b.toNat + 1) * 256 ^ bs.length := by ring
        _ ≤ 256 * 256 ^ bs.length := Nat.mul_le_mul_right _ (by omega)
        _ = 256 ^ (b :: bs).length := by rw [List.length_cons, pow_succ, mul_comm]

/-- The leading digit decides. -/
theorem leading_lt {a b base x : ℕ} (hab : a < b) (hx : x < base) (y : ℕ) :
    a * base + x < b * base + y := by
  calc a * base + x < a * base + base := by omega
    _ = (a + 1) * base := by ring
    _ ≤ b * base := Nat.mul_le_mul_right _ hab
    _ ≤ b * base + y := Nat.le_add_right ..

/-- Behind equal leading digits the rest decides. -/
theorem compare_add_left (k x y : ℕ) : compare (k + x) (k + y) = compare x y := by
  rcases lt_trichotomy x y with hlt | rfl | hgt
  · rw [compare_lt_iff_lt.mpr hlt, compare_lt_iff_lt]
    omega
  · rw [Std.compare_self, Std.compare_self]
  · rw [compare_gt_iff_gt.mpr hgt, compare_gt_iff_gt]
    omega

/-- **Byte strings of one length compare as the numbers they write.** -/
theorem compare_bigEndian {as bs : List UInt8} (h : as.length = bs.length) :
    compare as bs = compare (bigEndian as) (bigEndian bs) := by
  induction as generalizing bs with
  | nil =>
      obtain rfl := List.eq_nil_of_length_eq_zero h.symm
      rw [Std.compare_self, Std.compare_self]
  | cons a as ih =>
      obtain ⟨b, bs, rfl⟩ := List.exists_cons_of_length_pos (h ▸ Nat.succ_pos _ : 0 < bs.length)
      have hlen : as.length = bs.length := Nat.succ.inj h
      have ha := bigEndian_lt as
      have hb := bigEndian_lt bs
      rw [← hlen] at hb
      rw [List.compare_cons_cons, ih hlen, bigEndian, bigEndian, ← hlen]
      rcases lt_trichotomy a.toNat b.toNat with hlt | heq | hgt
      · have hvalue := compare_lt_iff_lt.mpr (leading_lt hlt ha (bigEndian bs))
        rw [Std.compare_eq_lt.mpr (UInt8.lt_iff_toNat_lt.mpr hlt), hvalue]
        rfl
      · obtain rfl : a = b := UInt8.toNat_inj.mp heq
        rw [Std.compare_self, compare_add_left]
        rfl
      · have hvalue := compare_gt_iff_gt.mpr (leading_lt hgt hb (bigEndian as))
        rw [Std.compare_eq_gt.mpr (UInt8.lt_iff_toNat_lt.mpr hgt), hvalue]
        rfl

/-- Bitwise and, byte by byte. -/
def andBytes (as bs : List UInt8) : List UInt8 := List.zipWith (· &&& ·) as bs

/-- The first `n` bytes of the mask of a prefix. -/
def maskBytes : ℕ → ℕ → List UInt8
  | 0, _ => []
  | n + 1, pfx =>
    (if 8 ≤ pfx then 255 else UInt8.ofNat (256 - 2 ^ (8 - pfx))) :: maskBytes n (pfx - 8)

@[simp] theorem maskBytes_length (n pfx : ℕ) : (maskBytes n pfx).length = n := by
  induction n generalizing pfx with
  | zero => rfl
  | succ n ih => rw [maskBytes, List.length_cons, ih]

/-- The byte in which a prefix ends. -/
theorem and_mask_toNat (b : UInt8) {pfx : ℕ} (h : pfx < 8) :
    (b &&& UInt8.ofNat (256 - 2 ^ (8 - pfx))).toNat = b.toNat / 2 ^ (8 - pfx) * 2 ^ (8 - pfx) := by
  have hall : ∀ n < 256, ∀ p < 8, (UInt8.ofNat n &&& UInt8.ofNat (256 - 2 ^ (8 - p))).toNat =
      n / 2 ^ (8 - p) * 2 ^ (8 - p) := by decide +kernel
  have hb := hall b.toNat b.toNat_lt pfx h
  rwa [UInt8.ofNat_toNat] at hb

/-- A mask zeroes the bits behind the prefix. -/
theorem bigEndian_and_mask {n pfx : ℕ} {as : List UInt8} (hn : as.length = n)
    (hp : pfx ≤ 8 * n) :
    bigEndian (andBytes as (maskBytes n pfx)) =
      bigEndian as / 2 ^ (8 * n - pfx) * 2 ^ (8 * n - pfx) := by
  induction n generalizing pfx as with
  | zero =>
      obtain rfl := List.eq_nil_of_length_eq_zero hn
      simp [andBytes, maskBytes, bigEndian]
  | succ n ih =>
      obtain ⟨b, bs, rfl⟩ := List.exists_cons_of_length_pos (hn ▸ Nat.succ_pos _ : 0 < as.length)
      have hlen : bs.length = n := Nat.succ.inj hn
      have hbs := bigEndian_lt bs
      have h256 : (256 : ℕ) ^ n = 2 ^ (8 * n) := (pow_mul 2 8 n).symm
      rw [hlen, h256] at hbs
      have hrest := ih hlen (by omega : pfx - 8 ≤ 8 * n)
      have hand : (andBytes bs (maskBytes n (pfx - 8))).length = n := by
        rw [andBytes, List.length_zipWith, maskBytes_length, hlen, Nat.min_self]
      have hstep : andBytes (b :: bs) (maskBytes (n + 1) pfx) =
          (b &&& if 8 ≤ pfx then 255 else UInt8.ofNat (256 - 2 ^ (8 - pfx))) ::
            andBytes bs (maskBytes n (pfx - 8)) := rfl
      rw [hstep, bigEndian, bigEndian, hand, hrest, hlen, h256]
      split_ifs with h8
      · -- the byte is kept, and the prefix ends in a later one
        have hkeep : (b &&& 255).toNat = b.toNat := by
          rw [UInt8.toNat_and]
          exact Nat.and_two_pow_sub_one_of_lt_two_pow b.toNat_lt
        obtain ⟨d, hd⟩ : ∃ d, 8 * n = (8 * n - (pfx - 8)) + d := ⟨pfx - 8, by omega⟩
        have hexp : 8 * (n + 1) - pfx = 8 * n - (pfx - 8) := by omega
        have hsplit : 2 ^ (8 * n) = 2 ^ (8 * n - (pfx - 8)) * 2 ^ d := by
          rw [← pow_add, ← hd]
        rw [hkeep, hexp]
        generalize 2 ^ (8 * n - (pfx - 8)) = k at hsplit ⊢
        rcases Nat.eq_zero_or_pos k with rfl | hk
        · simp at hsplit
        · rw [hsplit, show b.toNat * (k * 2 ^ d) = k * (b.toNat * 2 ^ d) by ring,
            Nat.mul_add_div hk]
          ring
      · -- the prefix ends in this byte, and the later ones are zeroed
        have hzero : pfx - 8 = 0 := by omega
        have hexp : 8 * (n + 1) - pfx = 8 * n + (8 - pfx) := by omega
        rw [and_mask_toNat b (by omega), hzero, hexp, Nat.sub_zero, Nat.div_eq_of_lt hbs,
          Nat.zero_mul, Nat.add_zero, pow_add, ← Nat.div_div_eq_div_mul, mul_comm b.toNat,
          Nat.mul_add_div (Nat.two_pow_pos _), Nat.div_eq_of_lt hbs, Nat.add_zero]
        ring

/-- Numbers of one length determine the bytes. -/
theorem bigEndian_injective {as bs : List UInt8} (h : as.length = bs.length) :
    bigEndian as = bigEndian bs ↔ as = bs := by
  rw [← Std.compare_eq_iff_eq (a := bigEndian as), ← compare_bigEndian h, Std.compare_eq_iff_eq]

/-- **Masked byte strings are equal when the addresses agree on the prefix.** -/
theorem andBytes_maskBytes_eq_iff {n pfx : ℕ} {as bs : List UInt8} (ha : as.length = n)
    (hb : bs.length = n) (hp : pfx ≤ 8 * n) :
    andBytes as (maskBytes n pfx) = andBytes bs (maskBytes n pfx) ↔
      bigEndian as / 2 ^ (8 * n - pfx) = bigEndian bs / 2 ^ (8 * n - pfx) := by
  have hlen : ∀ cs : List UInt8, cs.length = n → (andBytes cs (maskBytes n pfx)).length = n := by
    intro cs hcs
    rw [andBytes, List.length_zipWith, maskBytes_length, hcs, Nat.min_self]
  rw [← bigEndian_injective ((hlen as ha).trans (hlen bs hb).symm), bigEndian_and_mask ha hp,
    bigEndian_and_mask hb hp]
  exact Nat.mul_left_inj (Nat.two_pow_pos _).ne'

end AddressBlock
