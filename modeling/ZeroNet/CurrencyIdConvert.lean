import ZeroNet.Currency

/-!
# Currency conversion for cross-chain messages

`CurrencyIdConvert` of the subzero runtime. Outgoing, `convert` names a currency by a
`MultiLocation`: both relay tokens by the relay chain, the three native tokens by a
`GeneralKey` holding their SCALE encoding under this parachain, and a foreign asset by the
location the asset registry keeps for it. Incoming, `convertLocation` matches a location
against the relay chain and two `GeneralKey` shapes, decodes a prefix of the key, keeps only
the native tokens, and otherwise asks the registry. `take_revenue` deposits the fees the
fixed-rate traders of `Trader` take, in the currency their asset converts to.

The registry (`orml_asset_registry`) is not part of this repository; it is a parameter whose
two lookups are assumed inverse on registered assets. `Junction::from` of a bounded key is the
XCM v3 one: the key's length and its bytes padded with zeros to 32.
-/

namespace ZeroNet

/-- A junction of an XCM v3 location. Only `Parachain` and `GeneralKey` are inspected here;
every other junction is `other`, by its SCALE variant index and encoded fields. -/
inductive Junction where
  | parachain (id : UInt32)
  | generalKey (length : UInt8) (data : List.Vector UInt8 32)
  | other (index : UInt8) (fields : List UInt8)
  deriving DecidableEq

/-- `MultiLocation { parents, interior }`; the interior `Here`, `X1`, …, `X8` is a list of at
most eight junctions. -/
structure MultiLocation where
  parents : UInt8
  interior : BoundedVec Junction 8
  deriving DecidableEq

namespace MultiLocation

def x1 (j : Junction) : BoundedVec Junction 8 := ⟨[j], by simp⟩

def x2 (j k : Junction) : BoundedVec Junction 8 := ⟨[j, k], by simp⟩

def parent : MultiLocation := ⟨1, default⟩

end MultiLocation

/-- `impl From<BoundedVec<u8, ConstU32<32>>> for Junction`. -/
def Junction.ofKey (key : BoundedVec UInt8 32) : Junction :=
  .generalKey (UInt8.ofNat key.length)
    ⟨key.toList ++ List.replicate (32 - key.length) 0, by
      simp only [List.length_append, List.length_replicate, BoundedVec.length_eq]
      have := key.length_le
      omega⟩

/-- `&xs[..index]`, which panics past the end of `xs`. -/
def sliceTo {α : Type} (xs : List α) (index : ℕ) : Except Panic (List α) :=
  if index ≤ xs.length then .ok (xs.take index) else .error (.sliceEndIndexLenFail index xs.length)

/-- The two lookups of the asset registry: an asset's location (an error when the stored
location has an unknown XCM version) and the asset registered at a location. -/
structure AssetRegistry where
  multilocation : ForeignAssetId → Except String (Option MultiLocation)
  locationToAssetId : MultiLocation → Option ForeignAssetId

/-- The registry keeps `LocationToAssetId` and the locations in `Metadata` in step. -/
def AssetRegistry.MutuallyInverse (registry : AssetRegistry) : Prop :=
  ∀ id location, registry.multilocation id = .ok (some location) ↔
    registry.locationToAssetId location = some id

/-- The registry of the genesis config, `asset_registry: Default::default()`. -/
def AssetRegistry.empty : AssetRegistry where
  multilocation _ := .ok none
  locationToAssetId _ := none

theorem AssetRegistry.mutuallyInverse_empty : AssetRegistry.empty.MutuallyInverse := by
  intro id location
  simp [AssetRegistry.empty]

def AssetRegistry.single (asset : ForeignAssetId) (at_ : MultiLocation) : AssetRegistry where
  multilocation id := if id = asset then .ok (some at_) else .ok none
  locationToAssetId location := if location = at_ then some asset else none

theorem AssetRegistry.mutuallyInverse_single (asset : ForeignAssetId) (at_ : MultiLocation) :
    (AssetRegistry.single asset at_).MutuallyInverse := by
  intro id location
  by_cases hid : id = asset
  · by_cases hl : location = at_
    · simp [AssetRegistry.single, hid, hl]
    · simp [AssetRegistry.single, hid, eq_comm]
  · by_cases hl : location = at_
    · simp [AssetRegistry.single, hl, eq_comm]
    · simp [AssetRegistry.single, hid, hl]

def nativeCurrencyLocation (paraId : UInt32) (key : List UInt8) : Option MultiLocation := do
  let key ← BoundedVec.ofList? key
  some ⟨1, MultiLocation.x2 (.parachain paraId) (Junction.ofKey key)⟩

def localCurrencyLocation (key : CurrencyId) : Option MultiLocation := do
  let key ← BoundedVec.ofList? (CurrencyId.codec.encode key)
  some ⟨0, MultiLocation.x1 (Junction.ofKey key)⟩

/-- `decode_currency_id`: a key names a currency when a prefix decodes to a native token. -/
def decodeCurrencyId (key : List UInt8) : Option CurrencyId :=
  match CurrencyId.codec.decode.run .slice key with
  | .ok (currencyId, _) =>
    match currencyId with
    | .token .ZERO | .token .GAME | .token .PLAY => some currencyId
    | _ => none
  | .error _ => none

namespace CurrencyIdConvert

variable (registry : AssetRegistry) (selfParaId : UInt32)

/-- `Convert<CurrencyId, Option<MultiLocation>>`. -/
def convert (id : CurrencyId) : Option MultiLocation :=
  match id with
  | .token .DOT | .token .KSM => some MultiLocation.parent
  | .token .ZERO | .token .GAME | .token .PLAY =>
    nativeCurrencyLocation selfParaId (CurrencyId.codec.encode id)
  | .foreignAsset id =>
    match registry.multilocation id with
    | .ok location => location
    | .error _ => none

/-- The fixed arms of the `match` in `Convert<MultiLocation, Option<CurrencyId>>`, before its
`or_else`. Both `GeneralKey` arms slice `data[..length]` without a bound check. -/
def matchLocation (location : MultiLocation) : Except Panic (Option CurrencyId) :=
  if location = MultiLocation.parent then .ok (some CurrencyId.DOT)
  else
    match location.interior.toList with
    | [.parachain id, .generalKey length data] =>
      if location.parents = 1 ∧ id = selfParaId then
        (sliceTo data.toList length.toNat).map decodeCurrencyId
      else .ok none
    | [.generalKey length data] =>
      if location.parents = 0 then (sliceTo data.toList length.toNat).map decodeCurrencyId
      else .ok none
    | _ => .ok none

/-- `Convert<MultiLocation, Option<CurrencyId>>`: the fixed arms, then the registry. -/
def convertLocation (location : MultiLocation) : Except Panic (Option CurrencyId) :=
  (matchLocation selfParaId location).map fun found =>
    found.orElse fun _ => (registry.locationToAssetId location).map .foreignAsset

end CurrencyIdConvert

inductive AssetId where
  | concrete (location : MultiLocation)
  | abstract (id : List.Vector UInt8 32)
  deriving DecidableEq

inductive Fungibility where
  | fungible (amount : ℕ)
  | nonFungible (asset : List UInt8)
  deriving DecidableEq

/-- `MultiAsset { id, fun }`; the field `fun` is `fungibility` here. -/
structure MultiAsset where
  id : AssetId
  fungibility : Fungibility
  deriving DecidableEq

namespace CurrencyIdConvert

variable (registry : AssetRegistry) (selfParaId : UInt32)

def convertAsset (asset : MultiAsset) : Except Panic (Option CurrencyId) :=
  match asset.id with
  | .concrete location => convertLocation registry selfParaId location
  | .abstract _ => .ok none

end CurrencyIdConvert

/-- `ToAuthor::take_revenue`: the arguments of the `Currencies::deposit` call it makes for a
fungible concrete revenue, to the block author or else to the treasury; the call's result is
discarded with `let _`. -/
def takeRevenue {AccountId : Type} (registry : AssetRegistry) (selfParaId : UInt32)
    (author : Option AccountId) (treasury : AccountId) (revenue : MultiAsset) :
    Except Panic (Option (CurrencyId × AccountId × ℕ)) :=
  match revenue.id, revenue.fungibility with
  | .concrete location, .fungible amount =>
    (CurrencyIdConvert.convertLocation registry selfParaId location).map fun found =>
      found.map fun currencyId => (currencyId, author.getD treasury, amount)
  | _, _ => .ok none

/-! ## The incoming match, arm by arm -/

theorem MultiLocation.ne_parent {l : MultiLocation} (h : l.interior.toList ≠ []) :
    l ≠ MultiLocation.parent := by
  rintro rfl
  exact h rfl

theorem sliceTo_of_le {α : Type} {xs : List α} {index : ℕ} (h : index ≤ xs.length) :
    sliceTo xs index = .ok (xs.take index) := if_pos h

theorem sliceTo_of_lt {α : Type} {xs : List α} {index : ℕ} (h : xs.length < index) :
    sliceTo xs index = .error (.sliceEndIndexLenFail index xs.length) := if_neg (by omega)

namespace CurrencyIdConvert

variable (registry : AssetRegistry) (selfParaId : UInt32)

theorem matchLocation_parent :
    matchLocation selfParaId MultiLocation.parent = .ok (some CurrencyId.DOT) := if_pos rfl

theorem matchLocation_x2 (length : UInt8) (data : List.Vector UInt8 32) :
    matchLocation selfParaId
        ⟨1, MultiLocation.x2 (.parachain selfParaId) (.generalKey length data)⟩ =
      (sliceTo data.toList length.toNat).map decodeCurrencyId := by
  unfold matchLocation
  rw [if_neg (MultiLocation.ne_parent (by simp [MultiLocation.x2]))]
  simp [MultiLocation.x2]

theorem matchLocation_x1 (length : UInt8) (data : List.Vector UInt8 32) :
    matchLocation selfParaId ⟨0, MultiLocation.x1 (.generalKey length data)⟩ =
      (sliceTo data.toList length.toNat).map decodeCurrencyId := by
  unfold matchLocation
  rw [if_neg (MultiLocation.ne_parent (by simp [MultiLocation.x1]))]
  simp [MultiLocation.x1]

theorem convertLocation_of_some {location : MultiLocation} {c : CurrencyId}
    (h : matchLocation selfParaId location = .ok (some c)) :
    convertLocation registry selfParaId location = .ok (some c) := by
  simp only [convertLocation, h]
  rfl

theorem convertLocation_of_none {location : MultiLocation}
    (h : matchLocation selfParaId location = .ok none) :
    convertLocation registry selfParaId location =
      .ok ((registry.locationToAssetId location).map .foreignAsset) := by
  simp only [convertLocation, h]
  rfl

/-- A `GeneralKey` arm whose length byte exceeds 32 panics, whatever the key's bytes. -/
theorem matchLocation_x1_panics {length : UInt8} (h : 32 < length.toNat)
    (data : List.Vector UInt8 32) :
    matchLocation selfParaId ⟨0, MultiLocation.x1 (.generalKey length data)⟩ =
      .error (.sliceEndIndexLenFail length.toNat 32) := by
  rw [matchLocation_x1, sliceTo_of_lt (by simpa using h)]
  simp only [List.Vector.toList_length]
  rfl

theorem decodeCurrencyId_native {s : TokenSymbol}
    (hs : s = .ZERO ∨ s = .GAME ∨ s = .PLAY) :
    decodeCurrencyId (CurrencyId.codec.encode (.token s)) = some (.token s) := by
  rcases hs with rfl | rfl | rfl <;> rfl

/-- The 32 data bytes of a token's `GeneralKey`: its encoding `[0, index]`, padded. -/
def tokenKeyData (s : TokenSymbol) : List.Vector UInt8 32 :=
  ⟨[0, s.index] ++ List.replicate 30 0, by simp⟩

theorem nativeCurrencyLocation_token (s : TokenSymbol) :
    nativeCurrencyLocation selfParaId (CurrencyId.codec.encode (.token s)) =
      some ⟨1, MultiLocation.x2 (.parachain selfParaId) (.generalKey 2 (tokenKeyData s))⟩ := rfl

theorem localCurrencyLocation_token (s : TokenSymbol) :
    localCurrencyLocation (.token s) =
      some ⟨0, MultiLocation.x1 (.generalKey 2 (tokenKeyData s))⟩ := rfl

theorem decodeCurrencyId_tokenKeyData {s : TokenSymbol}
    (hs : s = .ZERO ∨ s = .GAME ∨ s = .PLAY) :
    (sliceTo (tokenKeyData s).toList (2 : UInt8).toNat).map decodeCurrencyId =
      .ok (some (.token s)) := by
  rw [sliceTo_of_le (by simp)]
  have hkey : (tokenKeyData s).toList.take (2 : UInt8).toNat =
      CurrencyId.codec.encode (.token s) := rfl
  rw [Except.map, hkey, decodeCurrencyId_native hs]

theorem matchLocation_convert_native {s : TokenSymbol}
    (hs : s = .ZERO ∨ s = .GAME ∨ s = .PLAY) :
    matchLocation selfParaId
        ⟨1, MultiLocation.x2 (.parachain selfParaId) (.generalKey 2 (tokenKeyData s))⟩ =
      .ok (some (.token s)) := by
  rw [matchLocation_x2, decodeCurrencyId_tokenKeyData hs]

theorem matchLocation_local_native {s : TokenSymbol}
    (hs : s = .ZERO ∨ s = .GAME ∨ s = .PLAY) :
    matchLocation selfParaId ⟨0, MultiLocation.x1 (.generalKey 2 (tokenKeyData s))⟩ =
      .ok (some (.token s)) := by
  rw [matchLocation_x1, decodeCurrencyId_tokenKeyData hs]

/-- Outgoing then incoming gives the currency back, except for `KSM`, which is sent as the
relay chain and so returns as `DOT`, and for a foreign asset whose registered location one of
the fixed arms claims (the relay chain, or a `GeneralKey` location that decodes to a native
token or panics). -/
theorem convertLocation_convert (hreg : registry.MutuallyInverse) {c : CurrencyId}
    (hc : c ≠ CurrencyId.KSM) {location : MultiLocation}
    (hl : convert registry selfParaId c = some location)
    (hforeign : ∀ id, c = .foreignAsset id → matchLocation selfParaId location = .ok none) :
    convertLocation registry selfParaId location = .ok (some c) := by
  cases c with
  | token s =>
    cases s with
    | DOT =>
      cases hl
      exact convertLocation_of_some registry selfParaId (matchLocation_parent selfParaId)
    | KSM => exact absurd rfl hc
    | ZERO | GAME | PLAY =>
      rw [convert, nativeCurrencyLocation_token] at hl
      cases hl
      exact convertLocation_of_some registry selfParaId
        (matchLocation_convert_native selfParaId (by simp))
  | foreignAsset id =>
    have hregistered : registry.multilocation id = .ok (some location) := by
      simp only [convert] at hl
      split at hl
      · rename_i o ho
        rw [ho, hl]
      · cases hl
    rw [convertLocation_of_none registry selfParaId (hforeign id rfl),
      (hreg id location).1 hregistered]
    rfl

/-- A foreign asset registered at the relay chain's location leaves as that location and comes
back as `DOT`: the fixed arm for the relay chain claims it before the registry is asked. -/
theorem convertLocation_convert_parent_asset (id : ForeignAssetId)
    (hat : registry.multilocation id = .ok (some MultiLocation.parent)) :
    convert registry selfParaId (.foreignAsset id) = some MultiLocation.parent ∧
      convertLocation registry selfParaId MultiLocation.parent = .ok (some CurrencyId.DOT) := by
  refine ⟨?_, convertLocation_of_some registry selfParaId (matchLocation_parent selfParaId)⟩
  simp only [convert, hat]

end CurrencyIdConvert

theorem convertLocation_convert_registered :
    CurrencyIdConvert.convertLocation
        (AssetRegistry.single 7 ⟨1, MultiLocation.x1 (.parachain 3000)⟩) 2000
        ⟨1, MultiLocation.x1 (.parachain 3000)⟩ = .ok (some (.foreignAsset 7)) :=
  CurrencyIdConvert.convertLocation_convert _ 2000 (AssetRegistry.mutuallyInverse_single _ _)
    (by decide) (by decide) (fun _ _ => by decide)

/-- `KSM` leaves as the relay chain and comes back as `DOT`, already for the genesis
registry. -/
theorem convert_KSM_returns_DOT :
    AssetRegistry.empty.MutuallyInverse ∧
      CurrencyIdConvert.convert AssetRegistry.empty 2000 CurrencyId.KSM =
        some MultiLocation.parent ∧
      CurrencyIdConvert.convertLocation AssetRegistry.empty 2000 MultiLocation.parent =
        .ok (some CurrencyId.DOT) ∧ CurrencyId.DOT ≠ CurrencyId.KSM :=
  ⟨AssetRegistry.mutuallyInverse_empty, rfl,
    CurrencyIdConvert.convertLocation_of_some _ _ (CurrencyIdConvert.matchLocation_parent 2000),
    by decide⟩

/-- A foreign asset registered at the relay chain's location comes back as `DOT`, although the
registry maps that location back to the asset. -/
theorem convert_parent_asset_returns_DOT :
    (AssetRegistry.single 7 MultiLocation.parent).MutuallyInverse ∧
      (AssetRegistry.single 7 MultiLocation.parent).locationToAssetId MultiLocation.parent =
        some 7 ∧
      CurrencyIdConvert.convert (AssetRegistry.single 7 MultiLocation.parent) 2000
        (.foreignAsset 7) = some MultiLocation.parent ∧
      CurrencyIdConvert.convertLocation (AssetRegistry.single 7 MultiLocation.parent) 2000
        MultiLocation.parent = .ok (some CurrencyId.DOT) ∧ CurrencyId.DOT ≠ .foreignAsset 7 :=
  have hat : (AssetRegistry.single 7 MultiLocation.parent).multilocation 7 =
      .ok (some MultiLocation.parent) := by simp [AssetRegistry.single]
  have hback : (AssetRegistry.single 7 MultiLocation.parent).locationToAssetId
      MultiLocation.parent = some 7 := by simp [AssetRegistry.single]
  have h := CurrencyIdConvert.convertLocation_convert_parent_asset _ 2000 7 hat
  ⟨AssetRegistry.mutuallyInverse_single _ _, hback, h.1, h.2, nofun⟩

/-! ## The revenue of the fixed-rate traders -/

def unwrap {α : Type} : Option α → Except Panic α
  | some a => .ok a
  | none => .error (.expect "called Option::unwrap() on a None value")

/-- The fixed-rate traders of `Trader`, in order, by the token their parameter is named after:
`DotPerSecond`, `PlayPerSecond`, `GamePerSecond`, `ZeroPerSecond`. -/
def fixedRateTokens : List TokenSymbol := [.DOT, .PLAY, .GAME, .ZERO]

/-- The `AssetId` of a token's per-second parameter: the relay chain for `DOT`, and
`local_currency_location(..).unwrap()` for the others. -/
def perSecondAsset : TokenSymbol → Except Panic AssetId
  | .DOT => .ok (.concrete MultiLocation.parent)
  | s => (unwrap (localCurrencyLocation (.token s))).map .concrete

theorem takeRevenue_of_convertLocation {AccountId : Type} (registry : AssetRegistry)
    (selfParaId : UInt32) (author : Option AccountId) (treasury : AccountId)
    {location : MultiLocation} {c : CurrencyId} (amount : ℕ)
    (h : CurrencyIdConvert.convertLocation registry selfParaId location = .ok (some c)) :
    takeRevenue registry selfParaId author treasury ⟨.concrete location, .fungible amount⟩ =
      .ok (some (c, author.getD treasury, amount)) := by
  simp only [takeRevenue, h]
  rfl

/-- Every fixed-rate trader's asset is built without a panic, and for the fees it takes
`take_revenue` calls `deposit` with that trader's own token, the block author or else the
treasury, and the whole amount, whatever the asset registry holds. -/
theorem takeRevenue_perSecondAsset (registry : AssetRegistry) (selfParaId : UInt32)
    {AccountId : Type} (author : Option AccountId) (treasury : AccountId) {s : TokenSymbol}
    (hs : s ∈ fixedRateTokens) (amount : ℕ) :
    ∃ asset, perSecondAsset s = .ok asset ∧
      takeRevenue registry selfParaId author treasury ⟨asset, .fungible amount⟩ =
        .ok (some (.token s, author.getD treasury, amount)) := by
  simp only [fixedRateTokens, List.mem_cons, List.not_mem_nil, or_false] at hs
  rcases hs with rfl | hnative
  · -- `DotPerSecond` is the relay chain, the first arm of the incoming match
    exact ⟨_, rfl, takeRevenue_of_convertLocation registry selfParaId author treasury amount
      (CurrencyIdConvert.convertLocation_of_some _ _
        (CurrencyIdConvert.matchLocation_parent selfParaId))⟩
  · -- the native tokens' keys fit in 32 bytes, so the `unwrap` succeeds
    have hs' : s = .ZERO ∨ s = .GAME ∨ s = .PLAY := by
      rcases hnative with h | h | h <;> simp [h]
    have hlocal : perSecondAsset s = (unwrap (localCurrencyLocation (.token s))).map .concrete := by
      rcases hnative with rfl | rfl | rfl <;> rfl
    have hasset : perSecondAsset s =
        .ok (.concrete ⟨0, MultiLocation.x1
          (.generalKey 2 (CurrencyIdConvert.tokenKeyData s))⟩) := by
      rw [hlocal, CurrencyIdConvert.localCurrencyLocation_token]
      rfl
    exact ⟨_, hasset, takeRevenue_of_convertLocation registry selfParaId author treasury amount
      (CurrencyIdConvert.convertLocation_of_some _ _
        (CurrencyIdConvert.matchLocation_local_native selfParaId hs'))⟩

theorem takeRevenue_zeroPerSecond :
    TokenSymbol.ZERO ∈ fixedRateTokens ∧
      ∃ asset, perSecondAsset .ZERO = .ok asset ∧
        takeRevenue AssetRegistry.empty 2000 (none : Option ℕ) 0 ⟨asset, .fungible 5⟩ =
          .ok (some (.token .ZERO, (none : Option ℕ).getD 0, 5)) :=
  ⟨by decide, takeRevenue_perSecondAsset _ _ _ _ (by decide) 5⟩

def Junction.KeyFits : Junction → Prop
  | .generalKey length _ => length.toNat ≤ 32
  | _ => True

theorem CurrencyIdConvert.convertLocation_ok_of_keyFits (registry : AssetRegistry)
    (selfParaId : UInt32) {location : MultiLocation}
    (hfit : ∀ j ∈ location.interior.toList, j.KeyFits) :
    ∃ r, CurrencyIdConvert.convertLocation registry selfParaId location = .ok r := by
  suffices h : ∃ r, CurrencyIdConvert.matchLocation selfParaId location = .ok r by
    obtain ⟨r, hr⟩ := h
    exact ⟨_, by rw [CurrencyIdConvert.convertLocation, hr]; rfl⟩
  unfold CurrencyIdConvert.matchLocation
  by_cases hparent : location = MultiLocation.parent
  · exact ⟨_, if_pos hparent⟩
  · rw [if_neg hparent]
    split
    · rename_i id length data hinterior
      have hlen : length.toNat ≤ 32 := hfit (.generalKey length data) (by simp [hinterior])
      split_ifs
      · rw [sliceTo_of_le (by simpa using hlen)]
        exact ⟨_, rfl⟩
      · exact ⟨_, rfl⟩
    · rename_i length data hinterior
      have hlen : length.toNat ≤ 32 := hfit (.generalKey length data) (by simp [hinterior])
      split_ifs
      · rw [sliceTo_of_le (by simpa using hlen)]
        exact ⟨_, rfl⟩
      · exact ⟨_, rfl⟩
    · exact ⟨_, rfl⟩

/-- A local `GeneralKey` location with length byte 33, as any XCM message may carry it,
makes the location converter, the asset converter and `take_revenue` panic. -/
theorem convertLocation_oversized_key_panics (registry : AssetRegistry) (selfParaId : UInt32)
    {AccountId : Type} (author : Option AccountId) (treasury : AccountId) :
    let location : MultiLocation :=
      ⟨0, MultiLocation.x1 (.generalKey 33 (List.Vector.replicate 32 0))⟩
    CurrencyIdConvert.convertLocation registry selfParaId location =
        .error (.sliceEndIndexLenFail 33 32) ∧
      CurrencyIdConvert.convertAsset registry selfParaId ⟨.concrete location, .fungible 1⟩ =
        .error (.sliceEndIndexLenFail 33 32) ∧
      takeRevenue registry selfParaId author treasury ⟨.concrete location, .fungible 1⟩ =
        .error (.sliceEndIndexLenFail 33 32) := by
  intro location
  have hpanic := CurrencyIdConvert.matchLocation_x1_panics selfParaId
    (show 32 < (33 : UInt8).toNat by decide) (List.Vector.replicate 32 0)
  have hconvert : CurrencyIdConvert.convertLocation registry selfParaId location =
      .error (.sliceEndIndexLenFail 33 32) := by
    simp only [CurrencyIdConvert.convertLocation, location, hpanic]
    rfl
  refine ⟨hconvert, hconvert, ?_⟩
  simp only [takeRevenue, hconvert]
  rfl

end ZeroNet
