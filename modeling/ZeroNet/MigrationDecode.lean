import ZeroNet.MigrationPallet

/-!
# Decoding the hex fields of the identity import

`decode_hex` walks the even byte offsets of a string, slices two bytes at each and parses
them with `u8::from_str_radix(_, 16)`. On hex text of even length this is the byte-by-byte
decoding, so the hex text of any bytes reads back as them, and `parse_identity_field` turns a
raw field `0x` followed by the hex text of at most 32 bytes into `Data::Raw` of those bytes.

Outside that set the function is not the decoding. The last slice of a string of odd length
reaches past its end, and a slice that ends inside a character of two bytes or more is off a
boundary: both panic. And `from_str_radix` takes a leading `+`, so `+f` decodes as the byte
15.
-/

namespace ZeroNet.Migration

theorem strIndex_of_get? {s t : Rust.Str} {begin stop : ℕ} (h : s.get? begin stop = some t) :
    strIndex s begin stop = .ok t := by
  rw [strIndex, h]

theorem decodeHexFrom_cons {s t : Rust.Str} {i b : ℕ} (offsets : List ℕ)
    (hs : s.get? i (i + 2) = some t) (hb : Rust.fromStrRadix 8 t 16 = .ok b) :
    decodeHexFrom s (i :: offsets) =
      (decodeHexFrom s offsets).map (Except.map (UInt8.ofNat b :: ·)) := by
  simp only [decodeHexFrom, strIndex_of_get? hs, bind, Except.bind, hb, pure, Except.pure]
  cases decodeHexFrom s offsets <;> rfl

theorem decodeHexFrom_hexText {s : Rust.Str} (hascii : ∀ b ∈ s.bytes, b.toNat < 0x80)
    (more : List ℕ) :
    ∀ (bytes : List UInt8) (k : ℕ), 2 * k + 2 * bytes.length ≤ s.len →
      Rust.hexBytes? ((s.bytes.drop (2 * k)).take (2 * bytes.length)) = some bytes →
      decodeHexFrom s (List.range' (2 * k) bytes.length 2 ++ more) =
        (decodeHexFrom s more).map (Except.map (bytes ++ ·))
  | [], _, _, _ => by
    simp only [List.length_nil, List.range'_zero, List.nil_append]
    rcases decodeHexFrom s more with p | (e | r) <;> rfl
  | b :: bytes, k, hlen, h => by
    simp only [List.length_cons, show 2 * (bytes.length + 1) = 2 * bytes.length + 1 + 1 by omega]
      at hlen h
    rcases hdrop : s.bytes.drop (2 * k) with _ | ⟨hi, _ | ⟨lo, rest⟩⟩
    · rw [hdrop] at h
      cases h
    · rw [hdrop] at h
      cases h
    rw [hdrop, List.take_succ_cons, List.take_succ_cons, Rust.hexBytes?_cons_cons] at h
    obtain ⟨h₁, l₁, tail, hh, hl, ht, heq⟩ := h
    obtain ⟨rfl, rfl⟩ := List.cons.inj heq
    have hslice : (s.get? (2 * k) (2 * k + 2)).map Rust.Str.bytes = some [hi, lo] := by
      rw [Rust.Str.get?_eq_some (by omega) (Rust.Str.isCharBoundary_of_ascii hascii (by omega))
        (Rust.Str.isCharBoundary_of_ascii hascii (by omega)), List.drop_take, hdrop]
      simp
    obtain ⟨t, ht', htb⟩ := Option.map_eq_some_iff.1 hslice
    have hnext : (s.bytes.drop (2 * (k + 1))).take (2 * bytes.length) =
        rest.take (2 * bytes.length) := by
      rw [show 2 * (k + 1) = 2 * k + 2 by omega, ← List.drop_drop, hdrop]
      rfl
    have hrest := decodeHexFrom_hexText hascii more bytes (k + 1) (by omega)
      (by rw [hnext]; exact ht)
    rw [show 2 * (k + 1) = 2 * k + 2 by omega] at hrest
    rw [List.length_cons, List.range'_succ, List.cons_append,
      decodeHexFrom_cons _ ht' (Rust.fromStrRadix_hexPair hh hl htb), hrest]
    rcases decodeHexFrom s more with p | (e | r) <;> rfl

/-- On every string that is hex text, `decode_hex` is the byte-by-byte decoding. -/
theorem decodeHex_of_hexText {s : Rust.Str} {bytes : List UInt8}
    (h : Rust.hexBytes? s.bytes = some bytes) : decodeHex s = .ok (.ok bytes) := by
  obtain ⟨hlen, hdigits⟩ := Rust.hexBytes?_spec h
  have hascii : ∀ b ∈ s.bytes, b.toNat < 0x80 := fun b hb =>
    (Rust.hexValue?_isSome b (hdigits b hb)).1
  have hsteps : Rust.rangeStepBy s.len 2 = List.range' (2 * 0) bytes.length 2 ++ [] := by
    rw [Rust.Str.len, hlen, Rust.rangeStepBy_two_mul, List.append_nil]
  have htext : (s.bytes.drop (2 * 0)).take (2 * bytes.length) = s.bytes := by
    rw [Nat.mul_zero, List.drop_zero, ← hlen, List.take_length]
  rw [decodeHex, hsteps, decodeHexFrom_hexText hascii [] bytes 0
    (by unfold Rust.Str.len; omega) (by rw [htext]; exact h), decodeHexFrom]
  simp [Except.map]

theorem decodeHex_of_hexText_digits :
    Rust.hexBytes? (Rust.Str.ofChars ['0', '1', 'f', 'F']).bytes = some [1, 255] ∧
      decodeHex (Rust.Str.ofChars ['0', '1', 'f', 'F']) = .ok (.ok [1, 255]) :=
  have h : Rust.hexBytes? (Rust.Str.ofChars ['0', '1', 'f', 'F']).bytes = some [1, 255] := by
    decide
  ⟨h, decodeHex_of_hexText h⟩

/-- The hex text of any byte string decodes back to it. -/
theorem decodeHex_hexEncode (bytes : List UInt8) :
    decodeHex (Rust.hexEncode bytes) = .ok (.ok bytes) :=
  decodeHex_of_hexText (Rust.hexBytes?_hexEncode bytes)

/-- Hex text followed by one more ASCII character panics at its last slice, which reaches
past the end. -/
theorem decodeHex_odd_panics (bytes : List UInt8) {c : Char} (hc : c.toNat < 0x80) :
    decodeHex (Rust.Str.ofChars (Rust.hexChars bytes ++ [c])) =
      .error (.sliceErrorFail (2 * bytes.length) (2 * bytes.length + 2)) := by
  obtain ⟨s, hs⟩ : ∃ s, s = Rust.Str.ofChars (Rust.hexChars bytes ++ [c]) := ⟨_, rfl⟩
  rw [← hs]
  obtain ⟨hc₁, hcb⟩ := Rust.utf8EncodeChar_of_lt hc
  have htext := Rust.hexBytes?_hexEncode bytes
  obtain ⟨hlen, hdigits⟩ := Rust.hexBytes?_spec htext
  have hbytes : s.bytes = (Rust.hexEncode bytes).bytes ++ [c.val.toUInt8] := by
    simp [hs, Rust.hexEncode, Rust.encode, hc₁]
  have hascii : ∀ b ∈ s.bytes, b.toNat < 0x80 := by
    intro b hb
    rw [hbytes, List.mem_append, List.mem_singleton] at hb
    rcases hb with hb | rfl
    · exact (Rust.hexValue?_isSome b (hdigits b hb)).1
    · exact hcb
  have hslen : s.len = 2 * bytes.length + 1 := by
    rw [Rust.Str.len, hbytes, List.length_append, hlen]
    rfl
  have hsteps : Rust.rangeStepBy s.len 2 =
      List.range' (2 * 0) bytes.length 2 ++ [2 * bytes.length] := by
    rw [hslen, Rust.rangeStepBy_two_mul_add_one]
  have hfront : (s.bytes.drop (2 * 0)).take (2 * bytes.length) = (Rust.hexEncode bytes).bytes := by
    rw [hbytes, Nat.mul_zero, List.drop_zero, ← hlen, List.take_left' rfl]
  have hnone : s.get? (2 * bytes.length) (2 * bytes.length + 2) = none :=
    Rust.Str.get?_of_len_lt (by omega)
  have hlast : decodeHexFrom s [2 * bytes.length] =
      .error (.sliceErrorFail (2 * bytes.length) (2 * bytes.length + 2)) := by
    simp only [decodeHexFrom, strIndex, hnone, bind, Except.bind]
  rw [decodeHex, hsteps, decodeHexFrom_hexText hascii _ bytes 0 (by omega)
    (by rw [hfront]; exact htext), hlast]
  rfl

theorem decodeHex_odd_panics_abc :
    ('c' : Char).toNat < 0x80 ∧
      decodeHex (Rust.Str.ofChars (Rust.hexChars [0xab] ++ ['c'])) =
        .error (.sliceErrorFail 2 4) :=
  ⟨by decide, decodeHex_odd_panics [0xab] (by decide)⟩

/-- A raw field written as `0x` and the hex text of at most 32 bytes is those bytes. -/
theorem parseIdentityField_raw {f : Value} {bytes : List UInt8}
    (hf : f.index "raw" = .string (Rust.Str.ofChars ('0' :: 'x' :: Rust.hexChars bytes)))
    (hlen : bytes.length ≤ 32) : parseIdentityField f = .ok (.raw ⟨bytes, hlen⟩) := by
  have hfrom : (Rust.Str.ofChars (['0', 'x'] ++ Rust.hexChars bytes)).getFrom? 2 =
      some (Rust.hexEncode bytes) :=
    Rust.Str.getFrom?_ofChars_append ['0', 'x'] (Rust.hexChars bytes)
  have hbounded : BoundedVec.ofList? bytes = some (⟨bytes, hlen⟩ : BoundedVec UInt8 32) :=
    BoundedVec.ofList?_eq_some.2 rfl
  simp only [parseIdentityField, hf]
  rw [strIndexFrom, show '0' :: 'x' :: Rust.hexChars bytes = ['0', 'x'] ++ Rust.hexChars bytes
    from rfl, hfrom]
  simp only [bind, Except.bind, decodeHex_hexEncode, unwrapResult, okOr, hbounded, pure,
    Except.pure]

def rawField : Value :=
  .object [("raw", .string (Rust.Str.ofChars ('0' :: 'x' :: Rust.hexChars [1, 2])))]

theorem parseIdentityField_rawField :
    rawField.index "raw" = .string (Rust.Str.ofChars ('0' :: 'x' :: Rust.hexChars [1, 2])) ∧
      [1, 2].length ≤ 32 ∧
      parseIdentityField rawField = .ok (.raw ⟨[1, 2], by decide⟩) :=
  ⟨rfl, by decide, parseIdentityField_raw rfl (by decide)⟩

/-- `"abc"` panics at its last slice `2..4`, past the end; `"aé"` at its first, `0..2`,
which ends inside `é`; and `"+f"` decodes as the byte 15. -/
theorem decodeHex_panics_or_takes_sign :
    decodeHex (Rust.Str.ofChars ['a', 'b', 'c']) = .error (.sliceErrorFail 2 4) ∧
      decodeHex (Rust.Str.ofChars ['a', 'é']) = .error (.sliceErrorFail 0 2) ∧
      decodeHex (Rust.Str.ofChars ['+', 'f']) = .ok (.ok [15]) :=
  ⟨rfl, rfl, rfl⟩

end ZeroNet.Migration
