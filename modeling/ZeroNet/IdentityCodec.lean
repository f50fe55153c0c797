import ZeroNet.IdentityTypes
import ZeroNet.ScaleCodec

/-!
# The SCALE codecs of the identity records

`Data` has a hand-written codec. Its leading byte names the variant: `0` is `None`, `1 + len`
(so `1..=33`) is `Raw` followed by its `len` bytes, and `34..=37` are the four hashes followed
by 32 bytes. Every other record derives its codec, field after field. `Registration::decode`
reads its fields through `AppendZerosInput`. So an encoding whose trailing zero bytes were cut
off still decodes to the same record; this is how a registration stored before a field was
added stays readable.
-/

namespace ZeroNet.Identity

open Scale

namespace Data

/-- The `Raw` arm of `Data::decode`: the buffer `vec![0u8; len]`, filled by `input.read`. -/
def decodeRaw (len : ℕ) (h : len ≤ 32) : Decoder Data :=
  (Decoder.readArray len).bind fun r =>
    .pure (.raw ⟨r.toList, by rw [r.toList_length]; exact h⟩)

/-- The four hash arms of `Data::decode`: `<[u8; 32]>::decode`. -/
def decodeHash (mk : List.Vector UInt8 32 → Data) : Decoder Data :=
  (Decoder.readArray 32).bind fun h => .pure (mk h)

def invalidLeadingByte : String := "invalid leading byte"

def codec : Codec Data where
  encode
    | .none => [0]
    | .raw x =>
      let l := min x.toList.length 32
      (UInt8.ofNat l + 1) :: x.toList.take l
    | .blakeTwo256 h => 34 :: h.toList
    | .sha256 h => 35 :: h.toList
    | .keccak256 h => 36 :: h.toList
    | .shaThree256 h => 37 :: h.toList
  decode := .read fun b =>
    if b.toNat = 0 then .pure .none
    else if h : b.toNat ≤ 33 then decodeRaw (b.toNat - 1) (by omega)
    else
      match b.toNat with
      | 34 => decodeHash .blakeTwo256
      | 35 => decodeHash .sha256
      | 36 => decodeHash .keccak256
      | 37 => decodeHash .shaThree256
      | _ => .fail invalidLeadingByte

/-! ## Leading bytes -/

theorem toNat_rawTag {l : ℕ} (hl : l ≤ 32) : (UInt8.ofNat l + 1).toNat = l + 1 := by
  rw [UInt8.toNat_add, UInt8.toNat_ofNat', UInt8.toNat_one]
  omega

theorem eq_rawTag {b : UInt8} (h0 : b.toNat ≠ 0) (h33 : b.toNat ≤ 33) :
    b = UInt8.ofNat (b.toNat - 1) + 1 := by
  apply UInt8.toNat_inj.mp
  rw [toNat_rawTag (by omega)]
  omega

theorem encode_raw (x : BoundedVec UInt8 32) :
    codec.encode (.raw x) = (UInt8.ofNat x.toList.length + 1) :: x.toList := by
  simp only [codec, Nat.min_eq_left x.length_le, List.take_length]

theorem head_encode_lt (d : Data) : ∃ b rest, codec.encode d = b :: rest ∧ b.toNat < 38 := by
  cases d with
  | raw x =>
    refine ⟨_, _, encode_raw x, ?_⟩
    rw [toNat_rawTag x.length_le]
    have := x.length_le
    omega
  | _ => exact ⟨_, _, rfl, by decide⟩

theorem run_invalid {b : UInt8} (hb : 38 ≤ b.toNat) (input : Input) (bs : List UInt8) :
    codec.decode.run input (b :: bs) = .error invalidLeadingByte := by
  simp only [codec, Decoder.run_read_cons]
  rw [if_neg (by omega), dif_neg (by omega)]
  split <;> first | omega | rfl

/-! ## The round trip and its converse -/

theorem run_decodeRaw (input : Input) {len : ℕ} (h : len ≤ 32) (x : BoundedVec UInt8 32)
    (hlen : x.toList.length = len) (rest : List UInt8) :
    (decodeRaw len h).run input (x.toList ++ rest) = .ok (.raw x, rest) := by
  subst hlen
  have hread : (Decoder.readArray x.toList.length).run input (x.toList ++ rest) =
      .ok (⟨x.toList, rfl⟩, rest) := Decoder.run_readArray input ⟨x.toList, rfl⟩ rest
  rw [decodeRaw, Decoder.run_bind_of_ok hread]
  rfl

theorem run_decodeHash (input : Input) (mk : List.Vector UInt8 32 → Data)
    (h : List.Vector UInt8 32) (rest : List UInt8) :
    (decodeHash mk).run input (h.toList ++ rest) = .ok (mk h, rest) :=
  Decoder.run_bind_of_ok (Decoder.run_readArray input h rest) _

theorem roundTrip_codec : codec.RoundTrip := by
  intro d input rest
  cases d with
  | none => rfl
  | raw x =>
    have hx := x.length_le
    have htag := toNat_rawTag hx
    rw [encode_raw, List.cons_append]
    simp only [codec, Decoder.run_read_cons]
    rw [if_neg (by omega), dif_pos (by omega)]
    exact run_decodeRaw input _ x (by omega) rest
  | blakeTwo256 h => exact run_decodeHash input _ h rest
  | sha256 h => exact run_decodeHash input _ h rest
  | keccak256 h => exact run_decodeHash input _ h rest
  | shaThree256 h => exact run_decodeHash input _ h rest

example : codec.decode.run .slice [3, 7, 8, 9] = .ok (.raw ⟨[7, 8], by decide⟩, [9]) := rfl

theorem eq_of_run_decodeRaw {len : ℕ} {h : len ≤ 32} {bs rest : List UInt8} {d : Data}
    (hd : (decodeRaw len h).run .slice bs = .ok (d, rest)) :
    ∃ x : BoundedVec UInt8 32, x.toList.length = len ∧ d = .raw x ∧ bs = x.toList ++ rest := by
  obtain ⟨v, mid, hv, hp⟩ := Decoder.run_bind_eq_ok hd
  cases hp
  exact ⟨_, v.toList_length, rfl, Decoder.run_readArray_slice hv⟩

theorem encode_of_run_decodeHash {mk : List.Vector UInt8 32 → Data} {b tag : UInt8}
    (henc : ∀ h, codec.encode (mk h) = tag :: h.toList) (htag : b.toNat = tag.toNat)
    {bs rest : List UInt8} {d : Data} (hd : (decodeHash mk).run .slice bs = .ok (d, rest)) :
    b :: bs = codec.encode d ++ rest := by
  obtain ⟨v, mid, hv, hp⟩ := Decoder.run_bind_eq_ok hd
  cases hp
  rw [henc, UInt8.toNat_inj.mp htag, Decoder.run_readArray_slice hv, List.cons_append]

theorem encode_of_run_slice {bs rest : List UInt8} {d : Data}
    (hd : codec.decode.run .slice bs = .ok (d, rest)) : bs = codec.encode d ++ rest := by
  cases bs with
  | nil => cases hd
  | cons b bs =>
    simp only [codec, Decoder.run_read_cons] at hd
    split_ifs at hd with h0 h33
    · cases hd
      have hb : b = 0 := UInt8.toNat_inj.mp h0
      rw [hb]
      rfl
    · obtain ⟨x, hlen, rfl, rfl⟩ := eq_of_run_decodeRaw hd
      rw [encode_raw, hlen, ← eq_rawTag h0 h33]
      rfl
    · split at hd
      case h_5 => cases hd
      all_goals exact encode_of_run_decodeHash (fun _ => rfl) ‹_› hd

end Data

namespace Judgement

variable {Balance : Type}

/-- The derived codec of `Judgement<Balance>`: the variant's index, then its field. -/
def codec (balance : Codec Balance) : Codec (Judgement Balance) where
  encode
    | unknown => [0]
    | feePaid fee => 1 :: balance.encode fee
    | reasonable => [2]
    | knownGood => [3]
    | outOfDate => [4]
    | lowQuality => [5]
    | erroneous => [6]
  decode := .read fun b =>
    match b.toNat with
    | 0 => .pure unknown
    | 1 => balance.decode.bind fun fee => .pure (feePaid fee)
    | 2 => .pure reasonable
    | 3 => .pure knownGood
    | 4 => .pure outOfDate
    | 5 => .pure lowQuality
    | 6 => .pure erroneous
    | _ => .fail "Could not decode `Judgement`, variant doesn't exist"

theorem roundTrip_codec {balance : Codec Balance} (hb : balance.RoundTrip) :
    (codec balance).RoundTrip := by
  intro j input rest
  cases j with
  | feePaid fee =>
    simp only [codec, List.cons_append, Decoder.run_read_cons]
    exact Decoder.run_bind_of_ok (hb fee input rest) _
  | _ => rfl

end Judgement

namespace IdentityFields

def invalidValue : String := "invalid value"

/-- `BitFlags::bits` as a `u64`, and `BitFlags::from_bits`, which refuses bits that name no
`IdentityField`. -/
def codec : Codec IdentityFields where
  encode f := Codec.u64.encode f.bits
  decode := Codec.u64.decode.bind fun field =>
    if h : field.toNat < 2 ^ 8 then .pure ⟨field, h⟩ else .fail invalidValue

theorem roundTrip_codec : codec.RoundTrip := by
  intro f input rest
  simp only [codec]
  rw [Decoder.run_bind_of_ok (Codec.roundTrip_u64 f.bits input rest), dif_pos f.valid]
  rfl

end IdentityFields

/-- The derived codec of `IdentityInfo`, its fields in declaration order. -/
def IdentityInfo.codec (fieldLimit : ℕ) : Codec (IdentityInfo fieldLimit) where
  encode info :=
    ((Data.codec.prod Data.codec).boundedVec fieldLimit).encode info.additional ++
      Data.codec.encode info.display ++ Data.codec.encode info.legal ++
      Data.codec.encode info.web ++ Data.codec.encode info.riot ++
      Data.codec.encode info.email ++ (Codec.array 20).option.encode info.pgpFingerprint ++
      Data.codec.encode info.image ++ Data.codec.encode info.twitter
  decode := do
    let additional ← ((Data.codec.prod Data.codec).boundedVec fieldLimit).decode
    let display ← Data.codec.decode
    let legal ← Data.codec.decode
    let web ← Data.codec.decode
    let riot ← Data.codec.decode
    let email ← Data.codec.decode
    let pgpFingerprint ← (Codec.array 20).option.decode
    let image ← Data.codec.decode
    let twitter ← Data.codec.decode
    return ⟨additional, display, legal, web, riot, email, pgpFingerprint, image, twitter⟩

theorem IdentityInfo.roundTrip_codec {fieldLimit : ℕ} (hf : fieldLimit < 2 ^ 32) :
    (IdentityInfo.codec fieldLimit).RoundTrip := by
  intro info input rest
  have hadd := (Data.roundTrip_codec.prod Data.roundTrip_codec).boundedVec hf
  have hdata := Data.roundTrip_codec
  have hpgp := (Codec.roundTrip_array 20).option
  simp only [IdentityInfo.codec, Decoder.bind_def, Decoder.pure_def, List.append_assoc]
  rw [Decoder.run_bind_of_ok (hadd _ _ _), Decoder.run_bind_of_ok (hdata _ _ _),
    Decoder.run_bind_of_ok (hdata _ _ _), Decoder.run_bind_of_ok (hdata _ _ _),
    Decoder.run_bind_of_ok (hdata _ _ _), Decoder.run_bind_of_ok (hdata _ _ _),
    Decoder.run_bind_of_ok (hpgp _ _ _), Decoder.run_bind_of_ok (hdata _ _ _),
    Decoder.run_bind_of_ok (hdata _ _ _)]
  rfl

def RegistrarInfo.codec {Balance AccountId : Type} (account : Codec AccountId)
    (balance : Codec Balance) : Codec (RegistrarInfo Balance AccountId) where
  encode r := account.encode r.account ++ balance.encode r.fee ++ IdentityFields.codec.encode r.fields
  decode := do
    let account ← account.decode
    let fee ← balance.decode
    let fields ← IdentityFields.codec.decode
    return ⟨account, fee, fields⟩

theorem RegistrarInfo.roundTrip_codec {Balance AccountId : Type} {account : Codec AccountId}
    {balance : Codec Balance} (ha : account.RoundTrip) (hb : balance.RoundTrip) :
    (RegistrarInfo.codec account balance).RoundTrip := by
  intro r input rest
  simp only [RegistrarInfo.codec, Decoder.bind_def, Decoder.pure_def, List.append_assoc]
  rw [Decoder.run_bind_of_ok (ha _ _ _), Decoder.run_bind_of_ok (hb _ _ _),
    Decoder.run_bind_of_ok (IdentityFields.roundTrip_codec _ _ _)]
  rfl

/-! ## Registrations -/

namespace Registration

variable {Balance : Type} {maxJudgements maxAdditionalFields : ℕ}

/-- The tuple `(judgements, deposit, info)` that `Registration::decode` reads. -/
def fields (balance : Codec Balance) (maxJudgements maxAdditionalFields : ℕ) :
    Codec (BoundedVec (RegistrarIndex × Judgement Balance) maxJudgements × Balance ×
      IdentityInfo maxAdditionalFields) :=
  ((Codec.u32.prod (Judgement.codec balance)).boundedVec maxJudgements).prod
    (balance.prod (IdentityInfo.codec maxAdditionalFields))

def encode (balance : Codec Balance)
    (r : Registration Balance maxJudgements maxAdditionalFields) : List UInt8 :=
  ((Codec.u32.prod (Judgement.codec balance)).boundedVec maxJudgements).encode r.judgements ++
    balance.encode r.deposit ++ (IdentityInfo.codec maxAdditionalFields).encode r.info

/-- `Registration::decode` of a stored value: the tuple, read through `AppendZerosInput`. -/
def decode (balance : Codec Balance) (bs : List UInt8) :
    Except String (Registration Balance maxJudgements maxAdditionalFields) :=
  (((fields balance maxJudgements maxAdditionalFields).decode.bind
    fun (judgements, deposit, info) => .pure ⟨judgements, deposit, info⟩).run .appendZeros
      bs).map Prod.fst

theorem encode_eq_fields (balance : Codec Balance)
    (r : Registration Balance maxJudgements maxAdditionalFields) :
    encode balance r = (fields balance maxJudgements maxAdditionalFields).encode
      (r.judgements, r.deposit, r.info) := by
  simp only [encode, fields, Codec.prod, List.append_assoc]

theorem roundTrip_fields {balance : Codec Balance} (hb : balance.RoundTrip)
    (hj : maxJudgements < 2 ^ 32) (hf : maxAdditionalFields < 2 ^ 32) :
    (fields balance maxJudgements maxAdditionalFields).RoundTrip :=
  ((Codec.roundTrip_u32.prod (Judgement.roundTrip_codec hb)).boundedVec hj).prod
    (hb.prod (IdentityInfo.roundTrip_codec hf))

theorem decode_encode {balance : Codec Balance} (hb : balance.RoundTrip)
    (hj : maxJudgements < 2 ^ 32) (hf : maxAdditionalFields < 2 ^ 32)
    (r : Registration Balance maxJudgements maxAdditionalFields) :
    decode balance (encode balance r) = .ok r := by
  have hr := roundTrip_fields hb hj hf (r.judgements, r.deposit, r.info) .appendZeros []
  rw [List.append_nil, ← encode_eq_fields] at hr
  rw [decode, Decoder.run_bind_of_ok hr]
  rfl

/-- Bytes that agree with an encoding once both are padded with zeros decode to the same
registration. -/
theorem decode_of_padEq {balance : Codec Balance} (hb : balance.RoundTrip)
    (hj : maxJudgements < 2 ^ 32) (hf : maxAdditionalFields < 2 ^ 32)
    (r : Registration Balance maxJudgements maxAdditionalFields) {p : List UInt8}
    (hp : Decoder.PadEq p (encode balance r)) : decode balance p = .ok r := by
  rw [← decode_encode hb hj hf r]
  exact Decoder.run_appendZeros_congr _ hp

end Registration

theorem data_codec_canonical_registration_decode {Balance : Type} {balance : Codec Balance}
    (hb : balance.RoundTrip) {maxJudgements maxAdditionalFields : ℕ}
    (hj : maxJudgements < 2 ^ 32) (hf : maxAdditionalFields < 2 ^ 32) :
    (∀ (d : Data) (input : Input) (rest : List UInt8),
      Data.codec.decode.run input (Data.codec.encode d ++ rest) = .ok (d, rest)) ∧
    (∀ (bs rest : List UInt8) (d : Data),
      Data.codec.decode.run .slice bs = .ok (d, rest) → bs = Data.codec.encode d ++ rest) ∧
    (∀ d : Data, ∃ b rest, Data.codec.encode d = b :: rest ∧ b.toNat < 38) ∧
    (∀ (b : UInt8) (input : Input) (bs : List UInt8), 38 ≤ b.toNat →
      Data.codec.decode.run input (b :: bs) = .error Data.invalidLeadingByte) ∧
    (∀ r : Registration Balance maxJudgements maxAdditionalFields,
      Registration.decode balance (Registration.encode balance r) = .ok r) ∧
    (∀ (r : Registration Balance maxJudgements maxAdditionalFields) (p : List UInt8) (k : ℕ),
      p ++ List.replicate k 0 = Registration.encode balance r →
        Registration.decode balance p = .ok r) := by
  refine ⟨Data.roundTrip_codec, fun bs rest d hd => Data.encode_of_run_slice hd,
    Data.head_encode_lt, fun b input bs hb => Data.run_invalid hb input bs,
    Registration.decode_encode hb hj hf, ?_⟩
  intro r p k hp
  have hpad : Decoder.PadEq p (Registration.encode balance r) :=
    hp ▸ Decoder.padEq_append_zeros p k
  exact Registration.decode_of_padEq hb hj hf r hpad

theorem data_codec_canonical_u64 :
    (∀ (d : Data) (input : Input) (rest : List UInt8),
      Data.codec.decode.run input (Data.codec.encode d ++ rest) = .ok (d, rest)) ∧
    (∀ (bs rest : List UInt8) (d : Data),
      Data.codec.decode.run .slice bs = .ok (d, rest) → bs = Data.codec.encode d ++ rest) ∧
    (∀ d : Data, ∃ b rest, Data.codec.encode d = b :: rest ∧ b.toNat < 38) ∧
    (∀ (b : UInt8) (input : Input) (bs : List UInt8), 38 ≤ b.toNat →
      Data.codec.decode.run input (b :: bs) = .error Data.invalidLeadingByte) ∧
    (∀ r : Registration UInt64 20 2,
      Registration.decode Codec.u64 (Registration.encode Codec.u64 r) = .ok r) ∧
    (∀ (r : Registration UInt64 20 2) (p : List UInt8) (k : ℕ),
      p ++ List.replicate k 0 = Registration.encode Codec.u64 r →
        Registration.decode Codec.u64 p = .ok r) :=
  data_codec_canonical_registration_decode Codec.roundTrip_u64 (by norm_num) (by norm_num)

end ZeroNet.Identity
