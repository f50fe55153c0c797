import ZeroNet.ScaleCodec

/-!
# Currency identifiers of the primitives crate

`TokenSymbol` and `CurrencyId` with their derived SCALE codec (a token's index byte is its
explicit discriminant), their decimals, and `dollar`. A Rust panic is a value of `Panic`: an
`expect` on `None`, a slice taken past its end, a string sliced out of its bounds or off a
character boundary, or a copy between slices of two lengths.
-/

namespace ZeroNet

inductive Panic where
  | expect (msg : String)
  | sliceEndIndexLenFail (index len : ℕ)
  /-- `str::slice_error_fail`, for the range `begin..stop`. -/
  | sliceErrorFail (begin stop : ℕ)
  /-- `copy_from_slice`'s `len_mismatch_fail`, for a destination and a source of these lengths. -/
  | lenMismatchFail (dstLen srcLen : ℕ)
  deriving DecidableEq, Repr

inductive TokenSymbol where
  | ZERO
  | PLAY
  | GAME
  | DOT
  | KSM
  deriving DecidableEq, Repr

abbrev ForeignAssetId := UInt32

inductive CurrencyId where
  | token (symbol : TokenSymbol)
  | foreignAsset (id : ForeignAssetId)
  deriving DecidableEq, Repr

namespace CurrencyId

def ZERO : CurrencyId := .token .ZERO
def PLAY : CurrencyId := .token .PLAY
def GAME : CurrencyId := .token .GAME
def DOT : CurrencyId := .token .DOT
def KSM : CurrencyId := .token .KSM

end CurrencyId

namespace TokenSymbol

/-- The `#[repr(u8)]` discriminants, which are also the SCALE indices. -/
def index : TokenSymbol → UInt8
  | ZERO => 0
  | PLAY => 1
  | GAME => 2
  | DOT => 12
  | KSM => 130

def decimals : TokenSymbol → ℕ
  | ZERO => 18
  | PLAY => 10
  | GAME => 10
  | DOT => 10
  | KSM => 12

def codec : Scale.Codec TokenSymbol where
  encode s := [s.index]
  decode := .read fun b =>
    match b.toNat with
    | 0 => .pure ZERO
    | 1 => .pure PLAY
    | 2 => .pure GAME
    | 12 => .pure DOT
    | 130 => .pure KSM
    | _ => .fail "Could not decode `TokenSymbol`, variant doesn't exist"

theorem roundTrip_codec : codec.RoundTrip := by
  intro s input rest
  cases s <;> rfl

end TokenSymbol

namespace CurrencyId

def codec : Scale.Codec CurrencyId where
  encode
    | token s => 0 :: TokenSymbol.codec.encode s
    | foreignAsset id => 1 :: Scale.Codec.u32.encode id
  decode := .read fun b =>
    match b.toNat with
    | 0 => TokenSymbol.codec.decode.bind fun s => .pure (token s)
    | 1 => Scale.Codec.u32.decode.bind fun id => .pure (foreignAsset id)
    | _ => .fail "Could not decode `CurrencyId`, variant doesn't exist"

theorem roundTrip_codec : codec.RoundTrip := by
  intro c input rest
  cases c with
  | token s =>
    simp only [codec, List.cons_append, Scale.Decoder.run_read_cons]
    exact Scale.Decoder.run_bind_of_ok (TokenSymbol.roundTrip_codec s input rest) _
  | foreignAsset id =>
    simp only [codec, List.cons_append, Scale.Decoder.run_read_cons]
    exact Scale.Decoder.run_bind_of_ok (Scale.Codec.roundTrip_u32 id input rest) _

def decimals : CurrencyId → Option ℕ
  | token s => some s.decimals
  | foreignAsset _ => none

end CurrencyId

def saturatingPow (base exp : ℕ) : ℕ := min (base ^ exp) (2 ^ 128 - 1)

/-- `dollar(currency_id)`: `10` to the token's decimals; a foreign asset panics. -/
def dollar (currencyId : CurrencyId) : Except Panic ℕ :=
  match currencyId.decimals with
  | some d => .ok (saturatingPow 10 d)
  | none => .error (.expect "Not support Non-Token decimals")

def cent (currencyId : CurrencyId) : Except Panic ℕ :=
  (dollar currencyId).map (· / 100)

theorem dollar_token (s : TokenSymbol) : dollar (.token s) = .ok (10 ^ s.decimals) := by
  cases s <;> rfl

end ZeroNet
