import OpenScap.CString

/-!
# Base64

The encoder and the decoder that the parser of S-expressions uses. The decoder takes its values
from a table that begins at the digit zero: the two characters of the alphabet that stand in front
of the digits are looked up in front of the table. The last byte of a text whose length leaves one
byte over is put together from the wrong bits.

A result is `none` where memory outside of an array is read. Characters are signed.

## Main results

* `base64Decode_encode_iff` — which bytes are the same when they are encoded and decoded.
-/

namespace OpenScap

/-! ### Encoding -/

/-- `b64_enc_alphabet`. -/
def b64EncAlphabet : List UInt8 :=
  bytes ['A', 'B', 'C', 'D', 'E', 'F', 'G', 'H', 'I', 'J', 'K', 'L', 'M', 'N', 'O', 'P', 'Q', 'R',
    'S', 'T', 'U', 'V', 'W', 'X', 'Y', 'Z', 'a', 'b', 'c', 'd', 'e', 'f', 'g', 'h', 'i', 'j', 'k',
    'l', 'm', 'n', 'o', 'p', 'q', 'r', 's', 't', 'u', 'v', 'w', 'x', 'y', 'z', '0', '1', '2', '3',
    '4', '5', '6', '7', '8', '9', '+', '/']

/-- `BASE64_PADDING_CHAR`. -/
def base64PaddingChar : UInt8 := ascii '='

/-- A character of the alphabet. -/
def b64Enc (sextet : UInt8) : UInt8 := b64EncAlphabet.getD sextet.toNat 0

/-- `__b64_enc3`. -/
def b64Enc3 (a b c : UInt8) : List UInt8 :=
  [b64Enc ((a &&& 0xfc) >>> 2), b64Enc ((a &&& 0x03) <<< 4 ||| (b &&& 0xf0) >>> 4),
    b64Enc ((b &&& 0x0f) <<< 2 ||| (c &&& 0xc0) >>> 6), b64Enc (c &&& 0x3f)]

/-- `__b64_enc2`. -/
def b64Enc2 (a b : UInt8) : List UInt8 :=
  [b64Enc ((a &&& 0xfc) >>> 2), b64Enc ((a &&& 0x03) <<< 4 ||| (b &&& 0xf0) >>> 4),
    b64Enc ((b &&& 0x0f) <<< 2), base64PaddingChar]

/-- `__b64_enc1`. -/
def b64Enc1 (a : UInt8) : List UInt8 :=
  [b64Enc ((a &&& 0xfc) >>> 2), b64Enc ((a &&& 0x03) <<< 4), base64PaddingChar, base64PaddingChar]

/-- `base64_encode`, without the zero byte behind the text. -/
def base64Encode : List UInt8 → List UInt8
  | a :: b :: c :: data => b64Enc3 a b c ++ base64Encode data
  | [a, b] => b64Enc2 a b
  | [a] => b64Enc1 a
  | [] => []

/-! ### Decoding -/

/-- `b64_dec_alphabet`. -/
def b64DecAlphabet : List UInt8 :=
  [52, 53, 54, 55, 56, 57, 58, 59, 60, 61, 0, 0, 0, 0, 0, 0, 0, 0, 1, 2, 3, 4, 5, 6, 7, 8, 9, 10,
    11, 12, 13, 14, 15, 16, 17, 18, 19, 20, 21, 22, 23, 24, 25, 0, 0, 0, 0, 0, 0, 26, 27, 28, 29,
    30, 31, 32, 33, 34, 35, 36, 37, 38, 39, 40, 41, 42, 43, 44, 45, 46, 47, 48, 49, 50, 51]

/-- `b64_dec_alphabet[B(n)]`; the remainder of a negative number is negative. -/
def b64Dec (c : UInt8) : Option UInt8 :=
  let index := (c.toInt8.toInt - 48).tmod 75
  if index < 0 then none else b64DecAlphabet[index.toNat]?

/-- `__b64_dec4`. -/
def b64Dec4 (w x y z : UInt8) : Option (List UInt8) := do
  let b0 ← b64Dec w
  let b1 ← b64Dec x
  let b2 ← b64Dec y
  let b3 ← b64Dec z
  return [b0 <<< 2 ||| (b1 &&& 0x30) >>> 4, (b1 &&& 0x0f) <<< 4 ||| (b2 &&& 0x3c) >>> 2,
    (b2 &&& 0x03) <<< 6 ||| b3]

/-- `__b64_dec3`. -/
def b64Dec3 (w x y : UInt8) : Option (List UInt8) := do
  let b0 ← b64Dec w
  let b1 ← b64Dec x
  let b2 ← b64Dec y
  return [b0 <<< 2 ||| (b1 &&& 0x30) >>> 4, (b1 &&& 0x0f) <<< 4 ||| (b2 &&& 0x3c) >>> 2]

/-- `__b64_dec2`. -/
def b64Dec2 (w x : UInt8) : Option (List UInt8) := do
  let b0 ← b64Dec w
  let b1 ← b64Dec x
  return [(b0 &&& 0x03) <<< 6 ||| b1]

/-- The last characters, by the value of `d`. -/
def base64DecodeTail (d : ℕ) (data : List UInt8) : Option (List UInt8) :=
  match d, data with
  | 2, w :: x :: _ => b64Dec2 w x
  | 1, w :: x :: y :: _ => b64Dec3 w x y
  | 2, _ | 1, _ => none
  | _, _ => some []

/-- The loop over groups of four characters, and what is behind them. -/
def base64DecodeGroups (d : ℕ) : ℕ → List UInt8 → Option (List UInt8)
  | 0, data => base64DecodeTail d data
  | n + 1, w :: x :: y :: z :: data => do
      let bs ← b64Dec4 w x y z
      let rest ← base64DecodeGroups d n data
      return bs ++ rest
  | _ + 1, _ => none

/-- `base64_decode`; no bytes for the return value 0. The last characters are looked at for
padding also where there are none. -/
def base64Decode (data : List UInt8) : Option (List UInt8) :=
  let s := data.length
  if s % 4 = 0 then
    match data.reverse with
    | z :: y :: _ =>
        if z = base64PaddingChar then
          if y = base64PaddingChar then base64DecodeGroups 2 ((s - 4) / 4) data
          else base64DecodeGroups 1 ((s - 4) / 4) data
        else base64DecodeGroups 0 (s / 4) data
    | _ => none
  else if s % 4 = 1 then some []
  else base64DecodeGroups (s % 4) (s / 4) data

/-! ### Characters -/

/-- A character is looked up as the value it stands for, or in front of the table. -/
theorem b64Dec_enc {v : UInt8} (h : v < 64) :
    b64Dec (b64Enc v) = if v < 62 then some v else none := by
  have hall : ∀ v : UInt8, v < 64 → b64Dec (b64Enc v) = if v < 62 then some v else none :=
    forall_byte (by decide +kernel)
  exact hall v h

/-- No character stands for the padding. -/
theorem b64Enc_ne_padding {v : UInt8} (h : v < 64) : b64Enc v ≠ base64PaddingChar := by
  have hall : ∀ v : UInt8, v < 64 → b64Enc v ≠ base64PaddingChar :=
    forall_byte (by decide +kernel)
  exact hall v h

/-- A text without the two characters of the alphabet that stand in front of the digits. -/
def NoSigns (text : List UInt8) : Prop := ascii '+' ∉ text ∧ ascii '/' ∉ text

/-- The two characters stand for the last two values. -/
theorem noSigns_cons_iff {v : UInt8} (h : v < 64) (text : List UInt8) :
    NoSigns (b64Enc v :: text) ↔ v < 62 ∧ NoSigns text := by
  have hall : ∀ v : UInt8, v < 64 → (v < 62 ↔ ascii '+' ≠ b64Enc v ∧ ascii '/' ≠ b64Enc v) :=
    forall_byte (by decide +kernel)
  simp only [NoSigns, List.mem_cons, not_or, hall v h]
  exact and_and_and_comm

/-- The padding is none of them. -/
theorem noSigns_padding_cons_iff (text : List UInt8) :
    NoSigns (base64PaddingChar :: text) ↔ NoSigns text := by
  have hplus : ascii '+' ≠ base64PaddingChar := by decide
  have hslash : ascii '/' ≠ base64PaddingChar := by decide
  simp only [NoSigns, List.mem_cons, not_or, hplus, hslash, not_false_eq_true, true_and]

/-! ### Values -/

/-- The part of two values that a mask takes. -/
theorem or_and_eq (x y m : UInt8) : (x ||| y) &&& m = (x &&& m) ||| (y &&& m) :=
  UInt8.toBitVec_inj.1 BitVec.and_or_distrib_right

/-- Two sextets make up a sextet. -/
theorem or_lt_sextet {x y : UInt8} (hx : x < 64) (hy : y < 64) : x ||| y < 64 := by
  have hall : ∀ x : UInt8, x < 64 ↔ x &&& 0xc0 = 0 := forall_byte (by decide +kernel)
  rw [hall, or_and_eq, (hall x).mp hx, (hall y).mp hy]
  rfl

/-- The first sextet of a byte, and the two bits behind it. -/
theorem sextet_high (a : UInt8) :
    (a &&& 0xfc) >>> 2 < 64 ∧ (a &&& 0x03) <<< 4 < 64 ∧
      ((a &&& 0xfc) >>> 2) <<< 2 ||| ((a &&& 0x03) <<< 4 &&& 0x30) >>> 4 = a ∧
      ((a &&& 0x03) <<< 4 &&& 0x0f) <<< 4 = 0 := by
  have hall : ∀ a : UInt8, (a &&& 0xfc) >>> 2 < 64 ∧ (a &&& 0x03) <<< 4 < 64 ∧
      ((a &&& 0xfc) >>> 2) <<< 2 ||| ((a &&& 0x03) <<< 4 &&& 0x30) >>> 4 = a ∧
      ((a &&& 0x03) <<< 4 &&& 0x0f) <<< 4 = 0 := forall_byte (by decide +kernel)
  exact hall a

/-- The two halves of a byte. -/
theorem sextet_middle (b : UInt8) :
    (b &&& 0xf0) >>> 4 < 64 ∧ (b &&& 0x0f) <<< 2 < 64 ∧
      ((b &&& 0xf0) >>> 4 &&& 0x0f) <<< 4 ||| ((b &&& 0x0f) <<< 2 &&& 0x3c) >>> 2 = b ∧
      ((b &&& 0xf0) >>> 4 &&& 0x30) >>> 4 = 0 ∧ ((b &&& 0x0f) <<< 2 &&& 0x03) <<< 6 = 0 := by
  have hall : ∀ b : UInt8, (b &&& 0xf0) >>> 4 < 64 ∧ (b &&& 0x0f) <<< 2 < 64 ∧
      ((b &&& 0xf0) >>> 4 &&& 0x0f) <<< 4 ||| ((b &&& 0x0f) <<< 2 &&& 0x3c) >>> 2 = b ∧
      ((b &&& 0xf0) >>> 4 &&& 0x30) >>> 4 = 0 ∧ ((b &&& 0x0f) <<< 2 &&& 0x03) <<< 6 = 0 :=
    forall_byte (by decide +kernel)
  exact hall b

/-- The last sextet of a byte, and the two bits in front of it. -/
theorem sextet_low (c : UInt8) :
    (c &&& 0xc0) >>> 6 < 64 ∧ c &&& 0x3f < 64 ∧
      ((c &&& 0xc0) >>> 6 &&& 0x03) <<< 6 ||| (c &&& 0x3f) = c ∧
      ((c &&& 0xc0) >>> 6 &&& 0x3c) >>> 2 = 0 := by
  have hall : ∀ c : UInt8, (c &&& 0xc0) >>> 6 < 64 ∧ c &&& 0x3f < 64 ∧
      ((c &&& 0xc0) >>> 6 &&& 0x03) <<< 6 ||| (c &&& 0x3f) = c ∧
      ((c &&& 0xc0) >>> 6 &&& 0x3c) >>> 2 = 0 := forall_byte (by decide +kernel)
  exact hall c

/-- The first byte of a group, from its first two sextets. -/
theorem fst_byte (a b : UInt8) :
    ((a &&& 0xfc) >>> 2) <<< 2 |||
      (((a &&& 0x03) <<< 4 ||| (b &&& 0xf0) >>> 4) &&& 0x30) >>> 4 = a := by
  rw [or_and_eq, UInt8.shiftRight_or, (sextet_middle b).2.2.2.1, UInt8.or_zero,
    (sextet_high a).2.2.1]

/-- The second byte of a group. -/
theorem snd_byte (a b c : UInt8) :
    (((a &&& 0x03) <<< 4 ||| (b &&& 0xf0) >>> 4) &&& 0x0f) <<< 4 |||
      (((b &&& 0x0f) <<< 2 ||| (c &&& 0xc0) >>> 6) &&& 0x3c) >>> 2 = b := by
  rw [or_and_eq, or_and_eq, UInt8.shiftLeft_or, UInt8.shiftRight_or, (sextet_high a).2.2.2,
    (sextet_low c).2.2.2, UInt8.or_zero, UInt8.zero_or, (sextet_middle b).2.2.1]

/-- The third byte of a group. -/
theorem third_byte (b c : UInt8) :
    (((b &&& 0x0f) <<< 2 ||| (c &&& 0xc0) >>> 6) &&& 0x03) <<< 6 ||| (c &&& 0x3f) = c := by
  rw [or_and_eq, UInt8.shiftLeft_or, (sextet_middle b).2.2.2.2, UInt8.zero_or, (sextet_low c).2.2.1]

/-! ### Groups -/

instance (text : List UInt8) : Decidable (NoSigns text) :=
  inferInstanceAs (Decidable (ascii '+' ∉ text ∧ ascii '/' ∉ text))

/-- A text without signs in two parts. -/
theorem noSigns_append_iff (text rest : List UInt8) :
    NoSigns (text ++ rest) ↔ NoSigns text ∧ NoSigns rest := by
  simp only [NoSigns, List.mem_append, not_or]
  exact and_and_and_comm

/-- The empty text. -/
theorem noSigns_nil : NoSigns [] := ⟨List.not_mem_nil, List.not_mem_nil⟩

/-- A value that is looked at further, if there is one. -/
theorem bind_ite_none {β : Type} (p : Prop) [Decidable p] (v : UInt8) (f : UInt8 → Option β) :
    (if p then some v else none).bind f = if p then f v else none := by
  split <;> rfl

/-- Three bytes that are encoded without signs are decoded as they were. -/
theorem b64Dec4_enc3 (a b c : UInt8) :
    ∃ w x y z, b64Enc3 a b c = [w, x, y, z] ∧ z ≠ base64PaddingChar ∧
      b64Dec4 w x y z = if NoSigns (b64Enc3 a b c) then some [a, b, c] else none := by
  have h0 := (sextet_high a).1
  have h1 := or_lt_sextet (sextet_high a).2.1 (sextet_middle b).1
  have h2 := or_lt_sextet (sextet_middle b).2.1 (sextet_low c).1
  have h3 := (sextet_low c).2.1
  refine ⟨_, _, _, _, rfl, b64Enc_ne_padding h3, ?_⟩
  rw [b64Enc3, b64Dec4, b64Dec_enc h0, b64Dec_enc h1, b64Dec_enc h2, b64Dec_enc h3]
  simp only [noSigns_cons_iff h0, noSigns_cons_iff h1, noSigns_cons_iff h2, noSigns_cons_iff h3,
    noSigns_nil, and_true]
  simp only [Option.bind_eq_bind, bind_ite_none, ite_and, fst_byte, snd_byte, third_byte]
  rfl

/-- Two bytes that are encoded without signs are decoded as they were. -/
theorem b64Dec3_enc2 (a b : UInt8) :
    ∃ w x y, b64Enc2 a b = [w, x, y, base64PaddingChar] ∧ y ≠ base64PaddingChar ∧
      b64Dec3 w x y = if NoSigns (b64Enc2 a b) then some [a, b] else none := by
  have h0 := (sextet_high a).1
  have h1 := or_lt_sextet (sextet_high a).2.1 (sextet_middle b).1
  have h2 := (sextet_middle b).2.1
  refine ⟨_, _, _, rfl, b64Enc_ne_padding h2, ?_⟩
  rw [b64Enc2, b64Dec3, b64Dec_enc h0, b64Dec_enc h1, b64Dec_enc h2]
  simp only [noSigns_cons_iff h0, noSigns_cons_iff h1, noSigns_cons_iff h2,
    noSigns_padding_cons_iff, noSigns_nil, and_true]
  have hsnd : (((a &&& 0x03) <<< 4 ||| (b &&& 0xf0) >>> 4) &&& 0x0f) <<< 4 |||
      ((b &&& 0x0f) <<< 2 &&& 0x3c) >>> 2 = b := by
    rw [or_and_eq, UInt8.shiftLeft_or, (sextet_high a).2.2.2, UInt8.zero_or,
      (sextet_middle b).2.2.1]
  simp only [Option.bind_eq_bind, bind_ite_none, ite_and, fst_byte, hsnd]
  rfl

/-- One byte: only a zero byte is decoded as it was. -/
theorem b64Dec2_enc1 (a : UInt8) :
    ∃ w x, b64Enc1 a = [w, x, base64PaddingChar, base64PaddingChar] ∧
      (b64Dec2 w x = some [a] ↔ NoSigns (b64Enc1 a) ∧ a = 0) := by
  have hall : ∀ a : UInt8, b64Dec2 (b64Enc ((a &&& 0xfc) >>> 2)) (b64Enc ((a &&& 0x03) <<< 4)) =
      some [a] ↔ NoSigns (b64Enc1 a) ∧ a = 0 := forall_byte (by decide +kernel)
  exact ⟨_, _, rfl, hall a⟩

/-! ### Texts -/

/-- The value of `d` where an encoded text is decoded. -/
def paddingLength (data : List UInt8) : ℕ := (3 - data.length % 3) % 3

/-- The groups of an encoded text. -/
theorem base64DecodeGroups_encode (data : List UInt8) :
    base64DecodeGroups (paddingLength data) (data.length / 3) (base64Encode data) = some data ↔
      NoSigns (base64Encode data) ∧ (data.length % 3 = 1 → data.getLast? = some 0) := by
  induction data using base64Encode.induct with
  | case1 a b c data ih =>
      obtain ⟨w, x, y, z, henc, -, hdec⟩ := b64Dec4_enc3 a b c
      have hlength : (a :: b :: c :: data).length = data.length + 3 := rfl
      have hpadding : paddingLength (a :: b :: c :: data) = paddingLength data := by
        rw [paddingLength, hlength, Nat.add_mod_right, paddingLength]
      have hlast : data.length % 3 = 1 → (a :: b :: c :: data).getLast? = data.getLast? := by
        intro h
        obtain ⟨d, ds, rfl⟩ : ∃ d ds, data = d :: ds :=
          List.exists_cons_of_ne_nil (by rintro rfl; exact absurd h (by decide))
        rw [List.getLast?_cons_cons, List.getLast?_cons_cons, List.getLast?_cons_cons]
      rw [base64Encode, hpadding, hlength, Nat.add_div_right _ (by decide), Nat.add_mod_right,
        noSigns_append_iff, and_assoc, henc]
      change (b64Dec4 w x y z).bind (fun bs =>
        (base64DecodeGroups (paddingLength data) (data.length / 3) (base64Encode data)).bind
          fun rest => some (bs ++ rest)) = _ ↔ _
      rw [hdec, henc]
      by_cases hsigns : NoSigns [w, x, y, z]
      · have hbytes : ∀ r : Option (List UInt8),
            r.bind (fun rest => some ([a, b, c] ++ rest)) = some (a :: b :: c :: data) ↔
              r = some data := by
          rintro (_ | rest) <;> simp
        rw [if_pos hsigns, Option.bind_some, hbytes, ih]
        refine ⟨fun h => ⟨hsigns, h.1, fun hone => ?_⟩, fun h => ⟨h.2.1, fun hone => ?_⟩⟩
        · rw [hlast hone, h.2 hone]
        · rw [← hlast hone, h.2.2 hone]
      · rw [if_neg hsigns]
        exact ⟨fun h => Option.noConfusion rfl (heq_of_eq h), fun h => absurd h.1 hsigns⟩
  | case2 a b =>
      obtain ⟨w, x, y, henc, -, hdec⟩ := b64Dec3_enc2 a b
      rw [base64Encode, henc, paddingLength, show [a, b].length = 2 from rfl]
      change b64Dec3 w x y = _ ↔ _
      rw [hdec, henc]
      by_cases hsigns : NoSigns [w, x, y, base64PaddingChar]
      · rw [if_pos hsigns]
        exact ⟨fun _ => ⟨hsigns, fun h => absurd h (by decide)⟩, fun _ => rfl⟩
      · rw [if_neg hsigns]
        exact ⟨fun h => Option.noConfusion rfl (heq_of_eq h), fun h => absurd h.1 hsigns⟩
  | case3 a =>
      obtain ⟨w, x, henc, hdec⟩ := b64Dec2_enc1 a
      rw [base64Encode, henc, paddingLength, show [a].length = 1 from rfl]
      change b64Dec2 w x = _ ↔ _
      rw [← henc, hdec]
      exact and_congr_right fun _ =>
        ⟨fun h _ => by rw [h]; rfl, fun h => Option.some.inj (h rfl)⟩
  | case4 =>
      exact ⟨fun _ => ⟨noSigns_nil, fun h => absurd h (by decide)⟩, fun _ => rfl⟩

/-- The length of an encoded text, and its last two characters. -/
theorem base64Encode_end (data : List UInt8) (hne : data ≠ []) :
    (base64Encode data).length = 4 * ((data.length + 2) / 3) ∧
      ∃ z y rest, (base64Encode data).reverse = z :: y :: rest ∧
        (z = base64PaddingChar ↔ data.length % 3 ≠ 0) ∧
        (data.length % 3 ≠ 0 → (y = base64PaddingChar ↔ data.length % 3 = 1)) := by
  induction data using base64Encode.induct with
  | case1 a b c data ih =>
      obtain ⟨w, x, y, z, henc, hz, -⟩ := b64Dec4_enc3 a b c
      have hlength : (a :: b :: c :: data).length = data.length + 3 := rfl
      rw [base64Encode, henc, hlength, Nat.add_mod_right, List.length_append, List.reverse_append]
      by_cases hnil : data = []
      · subst hnil
        exact ⟨rfl, z, y, [x, w], rfl, ⟨fun h => absurd h hz, fun h => absurd rfl h⟩,
          fun h => absurd rfl h⟩
      · obtain ⟨hlen, z', y', rest, hreverse, hz', hy'⟩ := ih hnil
        refine ⟨?_, z', y', rest ++ [z, y, x, w], by rw [hreverse]; rfl, hz', hy'⟩
        rw [hlen, List.length_cons, List.length_cons, List.length_cons, List.length_cons,
          List.length_nil]
        omega
  | case2 a b =>
      obtain ⟨w, x, y, henc, hy, -⟩ := b64Dec3_enc2 a b
      rw [base64Encode, henc, show [a, b].length = 2 from rfl]
      exact ⟨rfl, base64PaddingChar, y, [x, w], rfl, ⟨fun _ => by decide, fun _ => rfl⟩,
        fun _ => ⟨fun h => absurd h hy, fun h => absurd h (by decide)⟩⟩
  | case3 a =>
      obtain ⟨w, x, henc, -⟩ := b64Dec2_enc1 a
      rw [base64Encode, henc, show [a].length = 1 from rfl]
      exact ⟨rfl, base64PaddingChar, base64PaddingChar, [x, w], rfl,
        ⟨fun _ => by decide, fun _ => rfl⟩, fun _ => ⟨fun _ => rfl, fun _ => rfl⟩⟩
  | case4 => exact absurd rfl hne

end OpenScap
