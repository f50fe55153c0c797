import Mathlib.Data.List.Basic

/-!
# Base-58 decoding of the `bs58` crate

`bs58::decode(input).into_vec()` with the Bitcoin alphabet, as `decode_into` computes it. The
bytes decoded so far write a number, least significant byte first; each character of the input
multiplies it by 58 and adds its digit, the carry out of the last byte growing the buffer.
Then each leading `1` adds a zero byte, and the bytes are reversed. The buffer of `into_vec` is
as long as the input: a byte written past it is an error, as is a byte not in the alphabet.
-/

namespace Bs58

/-- `Alphabet::BITCOIN`. -/
def alphabet : List Char :=
  ['1', '2', '3', '4', '5', '6', '7', '8', '9', 'A', 'B', 'C', 'D', 'E', 'F', 'G', 'H', 'J',
    'K', 'L', 'M', 'N', 'P', 'Q', 'R', 'S', 'T', 'U', 'V', 'W', 'X', 'Y', 'Z', 'a', 'b', 'c',
    'd', 'e', 'f', 'g', 'h', 'i', 'j', 'k', 'm', 'n', 'o', 'p', 'q', 'r', 's', 't', 'u', 'v',
    'w', 'x', 'y', 'z']

/-- `alpha.decode[c]`: the digit of a byte, nothing (`0xFF`) for a byte not in the alphabet. -/
def digit (c : UInt8) : Option ℕ :=
  alphabet.findIdx? fun a => a.toNat == c.toNat

/-- `for byte in &mut output[..index]`: the number the bytes write, times 58, plus `val`; and
the carry out of the last byte. -/
def mulAdd : List UInt8 → ℕ → List UInt8 × ℕ
  | [], val => ([], val)
  | byte :: rest, val =>
    let val := val + byte.toNat * 58
    let (rest, carry) := mulAdd rest (val >>> 8)
    (UInt8.ofNat (val &&& 0xFF) :: rest, carry)

/-- `while val > 0`: the carry written a byte at a time into the `room` bytes left of the
buffer. -/
def pushCarry : ℕ → ℕ → Except Unit (List UInt8)
  | _, 0 => .ok []
  | 0, _ + 1 => .error ()
  | room + 1, val@(_ + 1) => (UInt8.ofNat val :: ·) <$> pushCarry room (val >>> 8)

def decodeChar (size : ℕ) (output : List UInt8) (c : UInt8) : Except Unit (List UInt8) :=
  match digit c with
  | none => .error ()
  | some val =>
    let (output, carry) := mulAdd output val
    (output ++ ·) <$> pushCarry (size - output.length) carry

/-- `bs58::decode(input).into_vec()`: the big-endian bytes of the number the input writes,
after a zero byte for each leading `1`. -/
def decode (input : List UInt8) : Except Unit (List UInt8) := do
  let output ← input.foldlM (decodeChar input.length) []
  let zeros := (input.takeWhile (· == 49)).length
  if output.length + zeros ≤ input.length then pure (output ++ List.replicate zeros 0).reverse
  else .error ()

end Bs58
