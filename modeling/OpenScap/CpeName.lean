import Mathlib.Data.List.DropRight
import Mathlib.Data.List.GetD
import Mathlib.Tactic.IntervalCases
import OpenScap.CString
import OpenScap.TextPattern

/-!
# CPE names

A CPE name has eleven attributes. It is read from a CPE URI, where the attributes are
percent-encoded and four of them may be packed into the edition field, or from a formatted
string, where special characters are quoted by a backslash. It is printed in either format.

The three acceptance expressions of `cpe_name_get_format_of_str` are given as regular
expressions over bytes; a final `$` also matches before a newline at the end of the string.
Assertions are off, as the build has them unless it is configured for debugging, and `char` is
signed.
-/

open RegularExpression TextPattern

namespace OpenScap

/-! ### Formats -/

/-- `cpe_format_t`. -/
inductive CpeFormat
  | unknown
  | uri
  | string
  | wfn
  deriving DecidableEq, Repr

/-- The bytes of a class. -/
def byteClass (p : UInt8 → Bool) : List UInt8 := ((List.range 256).map UInt8.ofNat).filter p

@[simp] theorem mem_byteClass {p : UInt8 → Bool} {c : UInt8} : c ∈ byteClass p ↔ p c = true := by
  unfold byteClass
  rw [List.mem_filter]
  refine and_iff_right (List.mem_map.mpr ⟨c.toNat, List.mem_range.mpr c.toNat_lt, ?_⟩)
  exact UInt8.ofNat_toNat

/-- Letters and digits. -/
def alphanumeric : List UInt8 := byteClass isalnum

/-- Letters. -/
def letters : List UInt8 := byteClass isalpha

/-- Digits. -/
def digits : List UInt8 := byteClass isdigit

/-- What a dot matches. -/
def anyByte : List UInt8 := byteClass fun c => c ≠ ascii '\n'

/-- `$`. -/
def endOfText : RegularExpression UInt8 := optional (char (ascii '\n'))

/-- `[A-Za-z0-9\._\-~%]`. -/
def uriFieldChars : List UInt8 := alphanumeric ++ bytes ['.', '_', '-', '~', '%']

/-- `^[cC][pP][eE]:/[AHOaho]?(:[A-Za-z0-9\._\-~%]*){0,6}$`. -/
def uriPattern : RegularExpression UInt8 :=
  oneOf (bytes ['c', 'C']) * (oneOf (bytes ['p', 'P']) * (oneOf (bytes ['e', 'E']) *
    (word (bytes [':', '/']) * (optional (oneOf (bytes ['A', 'H', 'O', 'a', 'h', 'o'])) *
      (optional (char (ascii ':') * many uriFieldChars) ^ 6 * endOfText)))))

/-- The characters that an attribute of a formatted string may quote. -/
def quotedChars : List UInt8 :=
  bytes ['\\', '*', '?', '!', '"', '#', '$', '%', '&', '\'', '(', ')', '+', ',', '/', ':', ';',
    '<', '=', '>', '@', '[', ']', '^', '\x60', '\x7b', '|', '\x7d', '~']

/-- `[a-zA-Z0-9\-\._]`. -/
def unreservedChars : List UInt8 := alphanumeric ++ bytes ['-', '.', '_']

/-- `(\?*|\*?)`. -/
def wildcardPattern : RegularExpression UInt8 :=
  many (bytes ['?']) + optional (char (ascii '*'))

/-- `[\*\-]`. -/
def logicalPattern : RegularExpression UInt8 := oneOf (bytes ['*', '-'])

/-- A character of an attribute, quoted or not. -/
def attributeCharPattern : RegularExpression UInt8 :=
  oneOf unreservedChars + char (ascii '\\') * oneOf quotedChars

/-- An attribute of a formatted string: characters between wildcards, or a logical value. -/
def attributePattern : RegularExpression UInt8 :=
  wildcardPattern * (attributeCharPattern * attributeCharPattern.star * wildcardPattern) +
    logicalPattern

/-- `([a-zA-Z]{2,3}(-([a-zA-Z]{2}|[0-9]{3}))?)|[\*\-]`. -/
def languagePattern : RegularExpression UInt8 :=
  oneOf letters ^ 2 * optional (oneOf letters) *
      optional (char (ascii '-') * (oneOf letters ^ 2 + oneOf digits ^ 3)) +
    logicalPattern

/-- The expression of the formatted strings. -/
def stringPattern : RegularExpression UInt8 :=
  word (bytes ['c', 'p', 'e', ':', '2', '.', '3', ':']) *
    (oneOf (bytes ['a', 'h', 'o', '*', '-']) * ((char (ascii ':') * attributePattern) ^ 5 *
      (char (ascii ':') * languagePattern * ((char (ascii ':') * attributePattern) ^ 4 *
        endOfText))))

/-- `^wfn:\[.+\]$`, whatever the case. -/
def wfnPattern : RegularExpression UInt8 :=
  oneOf (bytes ['w', 'W']) * (oneOf (bytes ['f', 'F']) * (oneOf (bytes ['n', 'N']) *
    (word (bytes [':', '[']) * (oneOf anyByte * many anyByte * (char (ascii ']') * endOfText)))))

/-- `cpe_name_get_format_of_str`. -/
def cpeNameGetFormatOfStr (str : List UInt8) : CpeFormat :=
  if uriPattern.rmatch str then .uri
  else if stringPattern.rmatch str then .string
  else if wfnPattern.rmatch str then .wfn
  else .unknown

/-! ### Names -/

/-- `cpe_part_t`. -/
inductive CpePart
  | none
  | hw
  | os
  | app
  deriving DecidableEq, Repr

/-- `oscap_string_to_enum` on `CPE_PART_MAP`. -/
def cpePartOfString (str : List UInt8) : CpePart :=
  if str = bytes ['h'] then .hw
  else if str = bytes ['o'] then .os
  else if str = bytes ['a'] then .app
  else .none

/-- `oscap_enum_to_string` on `CPE_PART_MAP`. -/
def cpePartToString : CpePart → Option (List UInt8)
  | .hw => some (bytes ['h'])
  | .os => some (bytes ['o'])
  | .app => some (bytes ['a'])
  | .none => Option.none

/-- `struct cpe_name`. -/
structure CpeName where
  format : CpeFormat
  part : CpePart
  vendor : Option (List UInt8)
  product : Option (List UInt8)
  version : Option (List UInt8)
  update : Option (List UInt8)
  edition : Option (List UInt8)
  language : Option (List UInt8)
  swEdition : Option (List UInt8)
  targetSw : Option (List UInt8)
  targetHw : Option (List UInt8)
  other : Option (List UInt8)
  deriving DecidableEq, Repr

/-- The name whose memory is zero, but for the format. -/
def CpeName.empty (format : CpeFormat) : CpeName :=
  ⟨format, .none, none, none, none, none, none, none, none, none, none, none⟩

/-- `cpe_get_field`. -/
def cpeGetField (cpe : CpeName) (idx : Nat) : Option (List UInt8) :=
  match idx with
  | 0 => cpePartToString cpe.part
  | 1 => cpe.vendor
  | 2 => cpe.product
  | 3 => cpe.version
  | 4 => cpe.update
  | 5 => cpe.edition
  | 6 => cpe.language
  | 7 => cpe.swEdition
  | 8 => cpe.targetSw
  | 9 => cpe.targetHw
  | 10 => cpe.other
  | _ => none

/-- What a field is set to: an empty text counts as none. -/
def cpeFieldText (newval : List UInt8) : Option (List UInt8) :=
  if newval = [] then none else some newval

/-- `cpe_set_field`; the value that says whether the part or the index is known is ignored by
its callers. -/
def cpeSetField (cpe : CpeName) (idx : Nat) (newval : List UInt8) : CpeName :=
  match idx with
  | 0 => { cpe with part := cpePartOfString newval }
  | 1 => { cpe with vendor := cpeFieldText newval }
  | 2 => { cpe with product := cpeFieldText newval }
  | 3 => { cpe with version := cpeFieldText newval }
  | 4 => { cpe with update := cpeFieldText newval }
  | 5 => { cpe with edition := cpeFieldText newval }
  | 6 => { cpe with language := cpeFieldText newval }
  | 7 => { cpe with swEdition := cpeFieldText newval }
  | 8 => { cpe with targetSw := cpeFieldText newval }
  | 9 => { cpe with targetHw := cpeFieldText newval }
  | 10 => { cpe with other := cpeFieldText newval }
  | _ => cpe

/-- What `cpe_get_field` gives of a field that was set to a text. -/
def storedText (idx : Nat) (newval : List UInt8) : Option (List UInt8) :=
  if idx = 0 then cpePartToString (cpePartOfString newval) else cpeFieldText newval

@[simp] theorem cpeGetField_empty (format : CpeFormat) (idx : Nat) :
    cpeGetField (.empty format) idx = none := by
  unfold cpeGetField
  split <;> rfl

theorem cpeGetField_set_self (cpe : CpeName) {idx : Nat} (h : idx < 11) (newval : List UInt8) :
    cpeGetField (cpeSetField cpe idx newval) idx = storedText idx newval := by
  interval_cases idx <;> rfl

theorem cpeGetField_set_ne (cpe : CpeName) {idx j : Nat} (h : j ≠ idx) (newval : List UInt8) :
    cpeGetField (cpeSetField cpe idx newval) j = cpeGetField cpe j := by
  unfold cpeSetField
  split
  all_goals
    unfold cpeGetField
    split
    all_goals first | rfl | exact absurd rfl h

@[simp] theorem storedText_nil (idx : Nat) : storedText idx [] = none := by
  unfold storedText
  split <;> rfl

theorem storedText_of_pos {idx : Nat} (h : 0 < idx) (newval : List UInt8) :
    storedText idx newval = cpeFieldText newval := if_neg (by omega)

/-! ### Coding of attributes -/

/-- `cpe_urldecode`. -/
def cpeUrldecode : List UInt8 → Option (List UInt8)
  | [] => some []
  | c :: rest =>
      if c = ascii '%' then
        match rest with
        | h :: l :: rest =>
            if isxdigit h ∧ isxdigit l then
              if scanHex h l = 0 then none
              else (cpeUrldecode rest).map (scanHex h l :: ·)
            else none
        | _ => none
      else (cpeUrldecode rest).map (c :: ·)

/-- What `snprintf` leaves of an escape in four bytes. -/
def cpeEscape (c : UInt8) : List UInt8 := (ascii '%' :: format02X (charToUnsigned c)).take 3

/-- `cpe_urlencode`. -/
def cpeUrlencode (str : List UInt8) : List UInt8 :=
  str.flatMap fun c =>
    if isalnum c ∨ c ∈ bytes ['-', '.', '_', '~'] then [c] else cpeEscape c

/-- `cpestring_comp_decode`. A colon that is quoted writes nothing. -/
def cpestringCompDecode : List UInt8 → Option (List UInt8)
  | [] => some []
  | c :: rest =>
      if c = ascii '\\' ∧ rest.head? = some (ascii ':') then
        match rest with
        | _ :: rest => cpestringCompDecode rest
        | [] => some []
      else if c = ascii '%' then
        match rest with
        | h :: l :: rest =>
            if isxdigit h ∧ isxdigit l then
              if scanHex h l = 0 then none
              else (cpestringCompDecode rest).map (scanHex h l :: ·)
            else none
        | _ => none
      else (cpestringCompDecode rest).map (c :: ·)

/-- `cpestring_comp_encode`. It has no result when it reads past the terminator, which it
does after a backslash at the end. -/
def cpestringCompEncode : List UInt8 → Option (List UInt8)
  | [] => some []
  | c :: rest =>
      if isalnum c ∨ c ∈ bytes ['.', '_', '~'] then (cpestringCompEncode rest).map (c :: ·)
      else if c = ascii '\\' then
        match rest with
        | [] => none
        | d :: rest => (cpestringCompEncode rest).map ([c, d] ++ ·)
      else if c = ascii ':' then (cpestringCompEncode rest).map ([ascii '\\', c] ++ ·)
      else if c = ascii '*' then (cpestringCompEncode rest).map (c :: ·)
      else if c = ascii '-' then (cpestringCompEncode rest).map (c :: ·)
      else (cpestringCompEncode rest).map (cpeEscape c ++ ·)

/-! ### Reading -/

/-- The edition field is taken apart when it starts with a tilde and has more to it: into the
edition and the packed attributes. -/
def unpackEdition (field : List UInt8) : List UInt8 × List (List UInt8) :=
  if 2 ≤ field.length ∧ field.head? = some (ascii '~') then
    let extendedAttribs := oscapSplit field.tail (ascii '~')
    (extendedAttribs.headD [], extendedAttribs.tail)
  else (field, [])

/-- The loop that decodes fields and sets them, from an index on. -/
def setFields (decode : List UInt8 → Option (List UInt8)) (cpe : CpeName) (i : Nat) :
    List (List UInt8) → Option CpeName
  | [] => some cpe
  | field :: fields =>
      match decode field with
      | none => none
      | some newval => setFields decode (cpeSetField cpe i newval) (i + 1) fields

/-- A field is decoded and set before the next ones. -/
theorem setFields_cons (decode : List UInt8 → Option (List UInt8)) (cpe : CpeName) (i : Nat)
    (field : List UInt8) (fields : List (List UInt8)) :
    setFields decode cpe i (field :: fields) = (decode field).bind fun newval =>
      setFields decode (cpeSetField cpe i newval) (i + 1) fields := by
  rw [setFields]
  cases decode field <;> rfl

/-- What setting fields gives: each is the decoded text, the others are as they were. -/
theorem setFields_spec {decode : List UInt8 → Option (List UInt8)} {cpe cpe' : CpeName} {i : Nat}
    {fields : List (List UInt8)} (h : setFields decode cpe i fields = some cpe') :
    (∀ k < fields.length, ∃ newval, decode (fields.getD k []) = some newval ∧
      (i + k < 11 → cpeGetField cpe' (i + k) = storedText (i + k) newval)) ∧
    ∀ j, j < i ∨ i + fields.length ≤ j → cpeGetField cpe' j = cpeGetField cpe j := by
  induction fields generalizing cpe i with
  | nil =>
      cases h
      exact ⟨fun k hk => absurd hk (Nat.not_lt_zero k), fun _ _ => rfl⟩
  | cons field fields ih =>
      rw [setFields_cons, Option.bind_eq_some_iff] at h
      obtain ⟨newval, hdec, h⟩ := h
      obtain ⟨hset, hframe⟩ := ih h
      refine ⟨fun k hk => ?_, fun j hj => ?_⟩
      · cases k with
        | zero =>
            refine ⟨newval, by simpa using hdec, fun hi => ?_⟩
            rw [Nat.add_zero, hframe _ (.inl (by omega)), cpeGetField_set_self _ (by omega)]
        | succ k =>
            obtain ⟨newval', hdec', hget⟩ := hset k (by simpa using hk)
            refine ⟨newval', by simpa using hdec', fun hi => ?_⟩
            rw [← Nat.add_assoc, Nat.add_right_comm]
            exact hget (by omega)
      · rw [List.length_cons] at hj
        rw [hframe j (by omega), cpeGetField_set_ne _ (by omega)]

/-- Setting fields that were empty: a missing text counts as an empty one. -/
theorem setFields_getD {decode : List UInt8 → Option (List UInt8)} {cpe cpe' : CpeName} {i : Nat}
    {fields : List (List UInt8)} (hnil : decode [] = some [])
    (h : setFields decode cpe i fields = some cpe') {k : Nat} (hk : i + k < 11)
    (hempty : cpeGetField cpe (i + k) = none) :
    ∃ newval, decode (fields.getD k []) = some newval ∧
      cpeGetField cpe' (i + k) = storedText (i + k) newval := by
  obtain ⟨hset, hframe⟩ := setFields_spec h
  rcases Nat.lt_or_ge k fields.length with hlt | hge
  · obtain ⟨newval, hdec, hget⟩ := hset k hlt
    exact ⟨newval, hdec, hget hk⟩
  · refine ⟨[], ?_, ?_⟩
    · rw [List.getD_eq_default _ _ hge, hnil]
    · rw [hframe _ (.inr (by omega)), hempty, storedText_nil]

/-- Setting fields succeeds when all of them decode. -/
theorem exists_setFields {decode : List UInt8 → Option (List UInt8)} (cpe : CpeName) (i : Nat)
    {fields : List (List UInt8)} (h : ∀ field ∈ fields, ∃ newval, decode field = some newval) :
    ∃ cpe', setFields decode cpe i fields = some cpe' := by
  induction fields generalizing cpe i with
  | nil => exact ⟨cpe, rfl⟩
  | cons field fields ih =>
      obtain ⟨newval, hdec⟩ := h field List.mem_cons_self
      rw [setFields_cons, hdec]
      exact ih _ _ fun f hf => h f (List.mem_cons_of_mem _ hf)

/-- The loop over the fields of a URI. -/
def setUriFields (cpe : CpeName) (i : Nat) : List (List UInt8) → Option CpeName
  | [] => some cpe
  | field :: fields =>
      if i = 5 then
        let (edition, extendedAttribs) := unpackEdition field
        match setFields cpeUrldecode cpe 7 (extendedAttribs.take 5) with
        | none => none
        | some cpe =>
            match cpeUrldecode edition with
            | none => none
            | some newval => setUriFields (cpeSetField cpe i newval) (i + 1) fields
      else
        match cpeUrldecode field with
        | none => none
        | some newval => setUriFields (cpeSetField cpe i newval) (i + 1) fields

/-- A field in front of the edition or behind it is decoded and set. -/
theorem setUriFields_cons {i : Nat} (h : i ≠ 5) (cpe : CpeName) (field : List UInt8)
    (fields : List (List UInt8)) :
    setUriFields cpe i (field :: fields) = (cpeUrldecode field).bind fun newval =>
      setUriFields (cpeSetField cpe i newval) (i + 1) fields := by
  rw [setUriFields, if_neg h]
  cases cpeUrldecode field <;> rfl

/-- The edition field is taken apart before it is set. -/
theorem setUriFields_edition (cpe : CpeName) (field : List UInt8) (fields : List (List UInt8)) :
    setUriFields cpe 5 (field :: fields) =
      (setFields cpeUrldecode cpe 7 ((unpackEdition field).2.take 5)).bind fun cpe =>
        (cpeUrldecode (unpackEdition field).1).bind fun newval =>
          setUriFields (cpeSetField cpe 5 newval) 6 fields := by
  rw [setUriFields, if_pos rfl]
  obtain ⟨edition, extendedAttribs⟩ := unpackEdition field
  dsimp only
  cases setFields cpeUrldecode cpe 7 (extendedAttribs.take 5) with
  | none => rfl
  | some cpe => cases cpeUrldecode edition <;> rfl

/-- `cpe_name_new`. -/
def cpeNameNew : Option (List UInt8) → Option CpeName
  | none => some (.empty .unknown)
  | some cpestr =>
      match cpeNameGetFormatOfStr cpestr with
      | .unknown => none
      | .uri => setUriFields (.empty .uri) 0 (oscapSplit (cpestr.drop 5) (ascii ':'))
      | .string =>
          setFields cpestringCompDecode (.empty .string) 0
            ((oscapSplit (cpestr.drop 8) (ascii ':')).take 11)
      | .wfn => some (.empty .wfn)

/-- The name of an accepted URI. -/
theorem cpeNameNew_of_uri {s : List UInt8} (h : cpeNameGetFormatOfStr s = .uri) :
    cpeNameNew (some s) =
      setUriFields (.empty .uri) 0 (oscapSplit (s.drop 5) (ascii ':')) := by
  rw [cpeNameNew, h]

/-- The name of an accepted formatted string. -/
theorem cpeNameNew_of_string {s : List UInt8} (h : cpeNameGetFormatOfStr s = .string) :
    cpeNameNew (some s) = setFields cpestringCompDecode (.empty .string) 0
      ((oscapSplit (s.drop 8) (ascii ':')).take 11) := by
  rw [cpeNameNew, h]

/-! ### Printing -/

/-- `as_str`. -/
def asStr (str : Option (List UInt8)) : List UInt8 := str.getD []

/-- `cpe_has_extended_attributes`. -/
def cpeHasExtendedAttributes (cpe : CpeName) : Bool :=
  asStr cpe.swEdition ≠ [] || asStr cpe.targetSw ≠ [] || asStr cpe.targetHw ≠ [] ||
    asStr cpe.other ≠ []

/-- `cpe_pack_extended_attributes`. -/
def cpePackExtendedAttributes (cpe : CpeName) : List UInt8 :=
  [cpe.edition, cpe.swEdition, cpe.targetSw, cpe.targetHw, cpe.other].flatMap fun attrib =>
    ascii '~' :: cpeUrlencode (asStr attrib)

/-- A part of a CPE URI. -/
def uriPart (cpe : CpeName) (i : Nat) : List UInt8 :=
  if i = 5 ∧ cpeHasExtendedAttributes cpe then cpePackExtendedAttributes cpe
  else cpeUrlencode (asStr (cpeGetField cpe i))

/-- `cpe_name_get_as_format`. It has no result for the other formats and where the encoder of
the formatted strings has none. -/
def cpeNameGetAsFormat (cpe : CpeName) (format : CpeFormat) : Option (List UInt8) :=
  match format with
  | .uri =>
      let uri := bytes ['c', 'p', 'e', ':', '/'] ++
        [ascii ':'].intercalate ((List.range 7).map (uriPart cpe))
      some (uri.rdropWhile (· == ascii ':'))
  | .string => do
      let parts ← (List.range 11).mapM fun i => cpestringCompEncode (asStr (cpeGetField cpe i))
      pure (bytes ['c', 'p', 'e', ':', '2', '.', '3', ':'] ++ [ascii ':'].intercalate parts)
  | .wfn | .unknown => none

/-- The eleven attributes of two names are equal. -/
def CpeName.SameAttributes (a b : CpeName) : Prop := ∀ i < 11, cpeGetField a i = cpeGetField b i

/-- A name printed in a format is accepted in that format and gives the same attributes. -/
def CpeName.RoundTrips (cpe : CpeName) (format : CpeFormat) : Prop :=
  ∃ str cpe', cpeNameGetAsFormat cpe format = some str ∧
    cpeNameGetFormatOfStr str = format ∧ cpeNameNew (some str) = some cpe' ∧
    cpe.SameAttributes cpe'

end OpenScap
