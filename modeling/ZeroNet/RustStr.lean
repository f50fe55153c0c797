import Mathlib.Data.List.Basic
import Mathlib.Algebra.Group.Nat.Defs

/-!
# Rust strings, their slices, and integer parsing

A Rust `str` is the UTF-8 encoding of a sequence of characters; `Str` keeps the bytes with
the characters they encode, so that an invalid string cannot be built. Lengths and indices
are byte offsets. `is_char_boundary` reads a single byte, and the boundaries it accepts are
exactly the offsets at which a character starts: so a slice `s[begin..end]`, which needs both
ends on a boundary, is again a string.

`from_str_radix` for an unsigned type reads the bytes of a string as digits after an optional
`+`, multiplying and adding with overflow checks; `to_digit` turns one byte, read as a
character, into its digit.
-/

namespace Rust

def encode (chars : List Char) : List UInt8 := chars.flatMap String.utf8EncodeChar

structure Str where
  bytes : List UInt8
  valid : ∃ chars, encode chars = bytes

/-- `(b as i8) >= -0x40`: the byte starts a character rather than continuing one. -/
def isBoundaryByte (b : UInt8) : Bool := decide (b.toInt8 ≥ -0x40)

theorem forall_uint8 (P : UInt8 → Prop) (h : ∀ n, n < 256 → P (UInt8.ofNat n)) (b : UInt8) :
    P b := by
  have hb := h b.toNat b.toNat_lt_size
  rwa [UInt8.ofNat_toNat] at hb

section Bytes

set_option maxRecDepth 4096

theorem isBoundaryByte_iff (b : UInt8) :
    isBoundaryByte b = true ↔ b.toNat < 0x80 ∨ 0xC0 ≤ b.toNat :=
  forall_uint8 (fun b => isBoundaryByte b = true ↔ b.toNat < 0x80 ∨ 0xC0 ≤ b.toNat)
    (by decide) b

/-! The first bytes of a two-, three- and four-byte encoding, and the bytes that continue
one, as `String.utf8EncodeChar` writes them. -/

theorem isBoundaryByte_lead2 (x : UInt8) : isBoundaryByte (x &&& 0x1f ||| 0xc0) = true :=
  forall_uint8 (fun x => isBoundaryByte (x &&& 0x1f ||| 0xc0) = true) (by decide) x

theorem isBoundaryByte_lead3 (x : UInt8) : isBoundaryByte (x &&& 0x0f ||| 0xe0) = true :=
  forall_uint8 (fun x => isBoundaryByte (x &&& 0x0f ||| 0xe0) = true) (by decide) x

theorem isBoundaryByte_lead4 (x : UInt8) : isBoundaryByte (x &&& 0x07 ||| 0xf0) = true :=
  forall_uint8 (fun x => isBoundaryByte (x &&& 0x07 ||| 0xf0) = true) (by decide) x

theorem isBoundaryByte_continuation (x : UInt8) :
    isBoundaryByte (x &&& 0x3f ||| 0x80) = false :=
  forall_uint8 (fun x => isBoundaryByte (x &&& 0x3f ||| 0x80) = false) (by decide) x

end Bytes

theorem isBoundaryByte_of_lt {b : UInt8} (h : b.toNat < 0x80) : isBoundaryByte b = true :=
  (isBoundaryByte_iff b).2 (.inl h)

theorem utf8EncodeChar_eq_cons (c : Char) : ∃ b rest, String.utf8EncodeChar c = b :: rest ∧
    isBoundaryByte b = true ∧ ∀ x ∈ rest, isBoundaryByte x = false := by
  rcases Char.utf8Size_eq c with h | h | h | h
  · refine ⟨_, [], String.utf8EncodeChar_eq_singleton h, isBoundaryByte_of_lt ?_, by simp⟩
    have hle := UInt32.le_iff_toNat_le.1 (Char.utf8Size_eq_one_iff.1 h)
    have h127 : (127 : UInt32).toNat = 127 := rfl
    rw [UInt32.toNat_toUInt8]
    omega
  · exact ⟨_, _, String.utf8EncodeChar_eq_cons_cons h, isBoundaryByte_lead2 _,
      by simp [isBoundaryByte_continuation]⟩
  · exact ⟨_, _, String.utf8EncodeChar_eq_cons_cons_cons h, isBoundaryByte_lead3 _,
      by simp [isBoundaryByte_continuation]⟩
  · exact ⟨_, _, String.utf8EncodeChar_eq_cons_cons_cons_cons h, isBoundaryByte_lead4 _,
      by simp [isBoundaryByte_continuation]⟩

theorem utf8EncodeChar_of_lt {c : Char} (h : c.toNat < 0x80) :
    String.utf8EncodeChar c = [c.val.toUInt8] ∧ c.val.toUInt8.toNat < 0x80 := by
  have hval : c.val.toNat = c.toNat := rfl
  have h127 : (127 : UInt32).toNat = 127 := rfl
  have hsize : c.utf8Size = 1 :=
    Char.utf8Size_eq_one_iff.2 (UInt32.le_iff_toNat_le.2 (by omega))
  refine ⟨String.utf8EncodeChar_eq_singleton hsize, ?_⟩
  rw [UInt32.toNat_toUInt8]
  omega

theorem encode_cons (c : Char) (chars : List Char) :
    encode (c :: chars) = String.utf8EncodeChar c ++ encode chars :=
  List.flatMap_cons

theorem encode_append (a b : List Char) : encode (a ++ b) = encode a ++ encode b :=
  List.flatMap_append

theorem encode_take_append_drop (chars : List Char) (k : ℕ) :
    encode (chars.take k) ++ encode (chars.drop k) = encode chars := by
  rw [← encode_append, List.take_append_drop]

theorem take_encode (chars : List Char) (k : ℕ) :
    (encode chars).take (encode (chars.take k)).length = encode (chars.take k) := by
  rw [← encode_take_append_drop chars k]
  exact List.take_left' rfl

theorem drop_encode (chars : List Char) (k : ℕ) :
    (encode chars).drop (encode (chars.take k)).length = encode (chars.drop k) := by
  rw [← encode_take_append_drop chars k]
  exact List.drop_left' rfl

theorem length_encode_take_le (chars : List Char) {k k' : ℕ} (h : k ≤ k') :
    (encode (chars.take k)).length ≤ (encode (chars.take k')).length := by
  have hpre : chars.take k = (chars.take k').take k := by rw [List.take_take, Nat.min_eq_left h]
  rw [hpre, ← take_encode (chars.take k') k]
  exact List.length_take_le' _ _

namespace Str

def ofChars (chars : List Char) : Str := ⟨encode chars, chars, rfl⟩

def len (s : Str) : ℕ := s.bytes.length

/-- `str::is_char_boundary`: the start, the end, or an offset whose byte starts a
character. -/
def isCharBoundary (s : Str) (index : ℕ) : Bool :=
  if index = 0 then true
  else
    match s.bytes[index]? with
    | none => index == s.len
    | some b => isBoundaryByte b

@[ext] theorem ext {s t : Str} (h : s.bytes = t.bytes) : s = t := by
  cases s
  cases t
  cases h
  rfl

@[simp] theorem bytes_ofChars (chars : List Char) : (ofChars chars).bytes = encode chars := rfl

theorem eq_ofChars (s : Str) : ∃ chars, s = ofChars chars := by
  obtain ⟨chars, h⟩ := s.valid
  exact ⟨chars, ext h.symm⟩

theorem isCharBoundary_cons_add (c : Char) (chars : List Char) (j : ℕ) :
    (ofChars (c :: chars)).isCharBoundary ((String.utf8EncodeChar c).length + j) =
      (ofChars chars).isCharBoundary j := by
  obtain ⟨b, rest, hc, -, -⟩ := utf8EncodeChar_eq_cons c
  have hpos : 0 < (String.utf8EncodeChar c).length := by simp [hc]
  unfold isCharBoundary
  rw [if_neg (by omega)]
  simp only [bytes_ofChars, len, encode_cons, List.length_append,
    List.getElem?_append_right (Nat.le_add_right _ _), Nat.add_sub_cancel_left]
  by_cases hj : j = 0
  · subst hj
    rw [if_pos rfl]
    cases chars with
    | nil => simp [encode]
    | cons d ds =>
      obtain ⟨b', rest', hd, hb', -⟩ := utf8EncodeChar_eq_cons d
      simp [encode_cons, hd, hb']
  · rw [if_neg hj]
    cases (encode chars)[j]? <;> simp

theorem isCharBoundary_cons_of_lt (c : Char) (chars : List Char) {i : ℕ} (h0 : i ≠ 0)
    (hi : i < (String.utf8EncodeChar c).length) :
    (ofChars (c :: chars)).isCharBoundary i = false := by
  obtain ⟨b, rest, hc, -, hrest⟩ := utf8EncodeChar_eq_cons c
  unfold isCharBoundary
  rw [if_neg h0, bytes_ofChars, encode_cons, List.getElem?_append_left hi, hc]
  obtain ⟨k, rfl⟩ := Nat.exists_eq_succ_of_ne_zero h0
  have hk : k < rest.length := by simpa [hc] using hi
  rw [List.getElem?_cons_succ, List.getElem?_eq_getElem hk]
  exact hrest _ (List.getElem_mem hk)

/-- The character boundaries of a string are the byte lengths of its prefixes. -/
theorem isCharBoundary_ofChars_iff (chars : List Char) (i : ℕ) :
    (ofChars chars).isCharBoundary i = true ↔ ∃ k, i = (encode (chars.take k)).length := by
  -- induction on the characters: a boundary is the start, or one of the rest shifted by the
  -- first character's bytes
  induction chars generalizing i with
  | nil =>
    constructor
    · intro h
      refine ⟨0, ?_⟩
      simp only [List.take_nil, encode, List.flatMap_nil, List.length_nil]
      by_contra h0
      simp [isCharBoundary, h0, encode, len] at h
    · rintro ⟨k, rfl⟩
      simp [encode, isCharBoundary]
  | cons c chars ih =>
    constructor
    · intro h
      by_cases h0 : i = 0
      · exact ⟨0, by simp [h0, encode]⟩
      by_cases hlt : i < (String.utf8EncodeChar c).length
      · rw [isCharBoundary_cons_of_lt c chars h0 hlt] at h
        cases h
      obtain ⟨j, rfl⟩ : ∃ j, i = (String.utf8EncodeChar c).length + j := ⟨_, (Nat.add_sub_of_le
        (Nat.le_of_not_lt hlt)).symm⟩
      rw [isCharBoundary_cons_add] at h
      obtain ⟨k, hk⟩ := (ih j).1 h
      exact ⟨k + 1, by rw [List.take_succ_cons, encode_cons, List.length_append, hk]⟩
    · rintro ⟨k, rfl⟩
      cases k with
      | zero => simp [encode, isCharBoundary]
      | succ k =>
        rw [List.take_succ_cons, encode_cons, List.length_append, isCharBoundary_cons_add]
        exact (ih _).2 ⟨k, rfl⟩

theorem valid_drop {s : Str} {begin : ℕ} (h : s.isCharBoundary begin = true) :
    ∃ chars, encode chars = s.bytes.drop begin := by
  obtain ⟨chars, rfl⟩ := eq_ofChars s
  obtain ⟨k, rfl⟩ := (isCharBoundary_ofChars_iff chars begin).1 h
  exact ⟨chars.drop k, (drop_encode chars k).symm⟩

theorem valid_slice {s : Str} {begin stop : ℕ} (hb : s.isCharBoundary begin = true)
    (he : s.isCharBoundary stop = true) :
    ∃ chars, encode chars = (s.bytes.take stop).drop begin := by
  obtain ⟨chars, rfl⟩ := eq_ofChars s
  obtain ⟨k₁, rfl⟩ := (isCharBoundary_ofChars_iff chars begin).1 hb
  obtain ⟨k₂, rfl⟩ := (isCharBoundary_ofChars_iff chars stop).1 he
  rw [bytes_ofChars, take_encode]
  rcases Nat.le_total k₁ k₂ with hk | hk
  · have hpre : chars.take k₁ = (chars.take k₂).take k₁ := by
      rw [List.take_take, Nat.min_eq_left hk]
    rw [hpre, drop_encode]
    exact ⟨_, rfl⟩
  · rw [List.drop_eq_nil_of_le (length_encode_take_le chars hk)]
    exact ⟨[], rfl⟩

/-- `s.get(begin..end)`: the string between two byte offsets, when they are in order and
both on a character boundary. -/
def get? (s : Str) (begin stop : ℕ) : Option Str :=
  if h : begin ≤ stop ∧ s.isCharBoundary begin = true ∧ s.isCharBoundary stop = true then
    some ⟨(s.bytes.take stop).drop begin, valid_slice h.2.1 h.2.2⟩
  else none

/-- `s.get(begin..)`: the rest of the string from a character boundary on. -/
def getFrom? (s : Str) (begin : ℕ) : Option Str :=
  if h : s.isCharBoundary begin = true then some ⟨s.bytes.drop begin, valid_drop h⟩
  else none

theorem isCharBoundary_of_len_lt {s : Str} {i : ℕ} (h : s.len < i) :
    s.isCharBoundary i = false := by
  unfold isCharBoundary
  rw [if_neg (by omega), List.getElem?_eq_none (by unfold len at h; omega)]
  simp only [beq_eq_false_iff_ne]
  omega

theorem isCharBoundary_of_ascii {s : Str} (h : ∀ b ∈ s.bytes, b.toNat < 0x80) {i : ℕ}
    (hi : i ≤ s.len) : s.isCharBoundary i = true := by
  unfold isCharBoundary
  split_ifs with h0
  · rfl
  rcases Nat.lt_or_eq_of_le hi with hlt | heq
  · rw [List.getElem?_eq_getElem hlt]
    exact isBoundaryByte_of_lt (h _ (List.getElem_mem hlt))
  · rw [List.getElem?_eq_none (by unfold len at heq; omega)]
    simp [heq]

theorem get?_eq_some {s : Str} {begin stop : ℕ} (h : begin ≤ stop)
    (hb : s.isCharBoundary begin = true) (he : s.isCharBoundary stop = true) :
    (s.get? begin stop).map bytes = some ((s.bytes.take stop).drop begin) := by
  rw [get?, dif_pos ⟨h, hb, he⟩]
  rfl

theorem get?_of_len_lt {s : Str} {begin stop : ℕ} (h : s.len < stop) :
    s.get? begin stop = none := by
  rw [get?, dif_neg]
  rw [isCharBoundary_of_len_lt h]
  simp

theorem getFrom?_ofChars_append (pre chars : List Char) :
    (ofChars (pre ++ chars)).getFrom? (encode pre).length = some (ofChars chars) := by
  have htake : (pre ++ chars).take pre.length = pre := List.take_left' rfl
  have hb : (ofChars (pre ++ chars)).isCharBoundary (encode pre).length = true :=
    (isCharBoundary_ofChars_iff _ _).2 ⟨pre.length, by rw [htake]⟩
  rw [getFrom?, dif_pos hb, Option.some.injEq]
  ext1
  simp [encode_append]

end Str

/-! ## Parsing unsigned integers -/

/-- `IntErrorKind`, with the kinds a parse of an unsigned type reports. -/
inductive IntErrorKind where
  | Empty
  | InvalidDigit
  | PosOverflow
  deriving DecidableEq, Repr

structure ParseIntError where
  kind : IntErrorKind
  deriving DecidableEq, Repr

def saturatingAdd (a b : UInt32) : UInt32 :=
  if a.toNat + b.toNat < UInt32.size then a + b else 0xFFFFFFFF

/-- `char::to_digit` on the code point `c`: a decimal digit, or above radix ten a letter of
either case, if its value is below the radix. -/
def toDigit (c radix : UInt32) : Option UInt32 :=
  -- `wrapping_sub`: anything below `'0'` wraps to a large value
  let digit := c - 0x30
  if radix > 10 then
    if digit < 10 then some digit
    else
      -- setting bit 5 makes an ASCII letter lower case
      let digit := saturatingAdd ((c ||| 0x20) - 0x61) 10
      if digit < radix then some digit else none
  else if digit < radix then some digit else none

/-- The digit loop of `from_str_radix` for a positive number: for each byte its digit, then
`checked_mul` by the radix and `checked_add` of the digit in `bits` bits. -/
def accumulate (bits : ℕ) (radix : UInt32) (result : ℕ) : List UInt8 → Except ParseIntError ℕ
  | [] => .ok result
  | c :: digits =>
    match toDigit c.toUInt32 radix with
    | none => .error ⟨.InvalidDigit⟩
    | some x =>
      if result * radix.toNat < 2 ^ bits then
        if result * radix.toNat + x.toNat < 2 ^ bits then
          accumulate bits radix (result * radix.toNat + x.toNat) digits
        else .error ⟨.PosOverflow⟩
      else .error ⟨.PosOverflow⟩

/-- `from_str_radix` for the unsigned integer type of `bits` bits, on the bytes of `src`: an
optional `+`, then digits. For an unsigned type a `-` is no sign, so an invalid digit. -/
def fromStrRadix (bits : ℕ) (src : Str) (radix : UInt32) : Except ParseIntError ℕ :=
  match src.bytes with
  | [] => .error ⟨.Empty⟩
  | c :: rest =>
    if (c = 0x2B ∨ c = 0x2D) ∧ rest = [] then .error ⟨.InvalidDigit⟩
    else if c = 0x2B then accumulate bits radix 0 rest
    else accumulate bits radix 0 (c :: rest)

/-- `(0..stop).step_by(step)` for a positive `step`: the multiples of `step` below `stop`. -/
def rangeStepBy (stop step : ℕ) : List ℕ := List.range' 0 ((stop + step - 1) / step) step

theorem rangeStepBy_two_mul (n : ℕ) : rangeStepBy (2 * n) 2 = List.range' 0 n 2 := by
  rw [rangeStepBy, show (2 * n + 2 - 1) / 2 = n by omega]

theorem rangeStepBy_two_mul_add_one (n : ℕ) :
    rangeStepBy (2 * n + 1) 2 = List.range' 0 n 2 ++ [2 * n] := by
  rw [rangeStepBy, show (2 * n + 1 + 2 - 1) / 2 = n + 1 by omega, List.range'_concat,
    Nat.zero_add]

theorem accumulate_cons {bits : ℕ} {radix : UInt32} {result : ℕ} {c : UInt8}
    {digits : List UInt8} {x : UInt32} (hc : toDigit c.toUInt32 radix = some x)
    (h : result * radix.toNat + x.toNat < 2 ^ bits) :
    accumulate bits radix result (c :: digits) =
      accumulate bits radix (result * radix.toNat + x.toNat) digits := by
  rw [accumulate, hc]
  simp only
  rw [if_pos (by omega), if_pos h]

/-! ## Hex digits -/

def hexValue? (b : UInt8) : Option ℕ :=
  if 0x30 ≤ b ∧ b ≤ 0x39 then some (b.toNat - 0x30)
  else if 0x61 ≤ b ∧ b ≤ 0x66 then some (b.toNat - 0x57)
  else if 0x41 ≤ b ∧ b ≤ 0x46 then some (b.toNat - 0x37)
  else none

/-- Bytes read back from their hex digits, two digits to a byte, high half first. -/
def hexBytes? : List UInt8 → Option (List UInt8)
  | [] => some []
  | [_] => none
  | hi :: lo :: rest => do
    let h ← hexValue? hi
    let l ← hexValue? lo
    let bytes ← hexBytes? rest
    pure (UInt8.ofNat (16 * h + l) :: bytes)

def hexDigit (v : ℕ) : Char := Char.ofNat (if v < 10 then 0x30 + v else 0x57 + v)

/-- The hex text of a byte string: two lower-case digits a byte, high half first. -/
def hexChars (bytes : List UInt8) : List Char :=
  bytes.flatMap fun b => [hexDigit (b.toNat / 16), hexDigit (b.toNat % 16)]

def hexEncode (bytes : List UInt8) : Str := .ofChars (hexChars bytes)

section Digits

set_option maxRecDepth 4096

theorem toDigit_sixteen (b : UInt8) : (toDigit b.toUInt32 16).map UInt32.toNat = hexValue? b :=
  forall_uint8 (fun b => (toDigit b.toUInt32 16).map UInt32.toNat = hexValue? b) (by decide) b

theorem hexValue?_isSome (b : UInt8) :
    (hexValue? b).isSome = true → b.toNat < 0x80 ∧ b ≠ 0x2B ∧ b ≠ 0x2D :=
  forall_uint8 (fun b => (hexValue? b).isSome = true → b.toNat < 0x80 ∧ b ≠ 0x2B ∧ b ≠ 0x2D)
    (by decide) b

theorem hexValue?_all_lt (b : UInt8) : (hexValue? b).all (· < 16) = true :=
  forall_uint8 (fun b => (hexValue? b).all (· < 16) = true) (by decide) b

theorem hexDigit_spec : ∀ v, v < 16 →
    String.utf8EncodeChar (hexDigit v) = [(hexDigit v).val.toUInt8] ∧
      hexValue? (hexDigit v).val.toUInt8 = some v := by
  decide

end Digits

theorem hexValue?_lt {b : UInt8} {v : ℕ} (h : hexValue? b = some v) : v < 16 := by
  have hall := hexValue?_all_lt b
  rw [h] at hall
  simpa using hall

theorem toDigit_of_hexValue? {b : UInt8} {v : ℕ} (h : hexValue? b = some v) :
    ∃ x, toDigit b.toUInt32 16 = some x ∧ x.toNat = v := by
  have hmap := toDigit_sixteen b
  rw [h] at hmap
  exact Option.map_eq_some_iff.1 hmap

theorem fromStrRadix_hexPair {t : Str} {hi lo : UInt8} {h l : ℕ} (hh : hexValue? hi = some h)
    (hl : hexValue? lo = some l) (ht : t.bytes = [hi, lo]) :
    fromStrRadix 8 t 16 = .ok (16 * h + l) := by
  obtain ⟨-, hplus, hminus⟩ := hexValue?_isSome hi (by simp [hh])
  have h16 := hexValue?_lt hh
  have l16 := hexValue?_lt hl
  obtain ⟨x, hx, rfl⟩ := toDigit_of_hexValue? hh
  obtain ⟨y, hy, rfl⟩ := toDigit_of_hexValue? hl
  have hradix : (16 : UInt32).toNat = 16 := rfl
  unfold fromStrRadix
  rw [ht]
  simp only
  rw [if_neg (by simp [hplus, hminus]), if_neg hplus, accumulate_cons hx (by rw [hradix]; omega),
    accumulate_cons hy (by rw [hradix]; omega), accumulate, hradix]
  congr 1
  omega

theorem hexBytes?_cons_cons {hi lo : UInt8} {rest bytes : List UInt8} :
    hexBytes? (hi :: lo :: rest) = some bytes ↔ ∃ h l tail, hexValue? hi = some h ∧
      hexValue? lo = some l ∧ hexBytes? rest = some tail ∧
        bytes = UInt8.ofNat (16 * h + l) :: tail := by
  simp only [hexBytes?, Option.bind_eq_bind, Option.bind_eq_some_iff, Option.pure_def,
    Option.some.injEq]
  constructor
  · rintro ⟨h, hh, l, hl, tail, ht, rfl⟩
    exact ⟨h, l, tail, hh, hl, ht, rfl⟩
  · rintro ⟨h, l, tail, hh, hl, ht, rfl⟩
    exact ⟨h, hh, l, hl, tail, ht, rfl⟩

theorem hexBytes?_spec : ∀ {digits bytes : List UInt8}, hexBytes? digits = some bytes →
    digits.length = 2 * bytes.length ∧ ∀ b ∈ digits, (hexValue? b).isSome = true
  | [], _, h => by
    cases h
    simp
  | [_], _, h => by cases h
  | hi :: lo :: rest, _, h => by
    obtain ⟨h, l, tail, hh, hl, ht, rfl⟩ := hexBytes?_cons_cons.1 h
    obtain ⟨hlen, hdig⟩ := hexBytes?_spec ht
    refine ⟨by simp [hlen]; omega, ?_⟩
    simp only [List.mem_cons, forall_eq_or_imp, hh, hl, Option.isSome_some, true_and]
    exact hdig

theorem hexBytes?_hexEncode (bytes : List UInt8) : hexBytes? (hexEncode bytes).bytes = some bytes := by
  induction bytes with
  | nil => rfl
  | cons b bytes ih =>
    have hb : b.toNat < 256 := b.toNat_lt_size
    obtain ⟨ehi, vhi⟩ := hexDigit_spec (b.toNat / 16) (by omega)
    obtain ⟨elo, vlo⟩ := hexDigit_spec (b.toNat % 16) (by omega)
    have hbytes : (hexEncode (b :: bytes)).bytes =
        (hexDigit (b.toNat / 16)).val.toUInt8 :: (hexDigit (b.toNat % 16)).val.toUInt8 ::
          (hexEncode bytes).bytes := by
      simp [hexEncode, hexChars, ehi, elo, Str.bytes_ofChars, encode]
    rw [hbytes, hexBytes?_cons_cons]
    refine ⟨_, _, _, vhi, vlo, ih, ?_⟩
    rw [show 16 * (b.toNat / 16) + b.toNat % 16 = b.toNat by omega, UInt8.ofNat_toNat]

end Rust
