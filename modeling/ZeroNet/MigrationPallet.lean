import ZeroNet.RustStr
import ZeroNet.RustVec
import ZeroNet.Bs58
import ZeroNet.IdentityPallet
import ZeroNet.CurrencyIdConvert

/-!
# The migration pallet

`migrate_balances` and `migrate_identities` are root calls that import the balances and the
identities of another chain, each only once: a storage version records that it ran. The data
is taken as parsed, a list of `AccountItem`s for the balances and of `serde_json::Value`s for
the identities; the UTF-8 check and the JSON parse before it, each with an `unwrap`, are left
out. An address is decoded from base 58 by the `bs58` crate and its bytes `1..33` read as an
account by the runtime's SCALE decoder; the configuration gives both.

An `unwrap` of nothing, a string sliced off its boundaries and a vector drained past its end
panic, and a panic is an error of `Except Panic`. The `u128` additions are unchecked and wrap, as in a release build. The
state of the chain is the identity pallet's, whose ledger is the `AccountStore` of
`pallet_balances`, with `TotalIssuance`, the two storage versions and the pallet's events;
its calls are those of the identity pallet and the two imports.
-/

namespace ZeroNet.Migration

open Identity (Origin DispatchResult Data)

inductive StorageVersion where
  | V1Initial
  | V2Imported
  deriving DecidableEq, Repr

instance : Inhabited StorageVersion := ⟨.V1Initial⟩

/-- `serde_json::Number`; of a float, nothing is read. -/
inductive Number where
  | posInt (n : UInt64)
  | negInt (n : Int64)
  | float
  deriving DecidableEq, Repr

/-- `serde_json::Value`, an object as its entries, each key once. -/
inductive Value where
  | null
  | bool (b : Bool)
  | number (n : Number)
  | string (s : Rust.Str)
  | array (values : List Value)
  | object (entries : List (String × Value))

namespace Value

/-- `value[key]`: the entry of an object, or `Null` for a missing key and any other value. -/
def index : Value → String → Value
  | object entries, key => (entries.lookup key).getD null
  | _, _ => null

def asStr : Value → Option Rust.Str
  | string s => some s
  | _ => none

/-- `Value::as_u64`: only a non-negative integer is one. -/
def asU64 : Value → Option UInt64
  | number (.posInt n) => some n
  | _ => none

end Value

structure AccountItem where
  accountId : Rust.Str
  freeBalance : Rust.Str
  reservedBalance : Rust.Str

inductive Event where
  | migratedBalances (count : UInt32)
  | migratedIdentities (count : UInt32)
  deriving DecidableEq, Repr

structure Config (AccountId : Type) where
  identity : Identity.Config AccountId
  /-- `bs58::decode(s).into_vec()`. -/
  bs58Decode : Rust.Str → Except Unit (List UInt8)
  /-- `T::AccountId::decode`. -/
  accountIdDecoder : Scale.Decoder AccountId
  /-- `T::AccountId::default()`. -/
  defaultAccountId : AccountId

variable {AccountId : Type} [DecidableEq AccountId] (cfg : Config AccountId)

structure State where
  identity : Identity.State cfg.identity
  totalIssuance : ℕ
  balancesVersion : StorageVersion
  identityVersion : StorageVersion
  events : List Event

def genesis (free : AccountId → ℕ) (totalIssuance : ℕ) : State cfg where
  identity := Identity.genesis cfg.identity free
  totalIssuance := totalIssuance
  balancesVersion := default
  identityVersion := default
  events := []

variable {cfg}

/-- `T::AccountId::decode(&mut bytes).unwrap_or_default()`. -/
def Config.decodeAccountId (cfg : Config AccountId) (bytes : List UInt8) : AccountId :=
  match cfg.accountIdDecoder.run .slice bytes with
  | .ok (a, _) => a
  | .error _ => cfg.defaultAccountId

/-! ## Panicking helpers -/

def unwrapResult {ε α : Type} : Except ε α → Except Panic α
  | .ok a => .ok a
  | .error _ => .error (.expect "called Result::unwrap() on an Err value")

def okOr {ε α : Type} (err : ε) : Option α → Except ε α
  | some a => .ok a
  | none => .error err

def strIndex (s : Rust.Str) (begin stop : ℕ) : Except Panic Rust.Str :=
  match s.get? begin stop with
  | some t => .ok t
  | none => .error (.sliceErrorFail begin stop)

def strIndexFrom (s : Rust.Str) (begin : ℕ) : Except Panic Rust.Str :=
  match s.getFrom? begin with
  | some t => .ok t
  | none => .error (.sliceErrorFail begin s.len)

/-! ## Identity fields -/

/-- The `collect` of `decode_hex` over the given offsets: each two-byte slice is taken, which
may panic, and then parsed, and the first parse error ends the loop. -/
def decodeHexFrom (s : Rust.Str) :
    List ℕ → Except Panic (Except Rust.ParseIntError (List UInt8))
  | [] => .ok (.ok [])
  | i :: offsets => do
    let slice ← strIndex s i (i + 2)
    match Rust.fromStrRadix 8 slice 16 with
    | .error e => .ok (.error e)
    | .ok b => return (← decodeHexFrom s offsets).map (UInt8.ofNat b :: ·)

/-- `Pallet::decode_hex`: `u8::from_str_radix(&s[i..i + 2], 16)` at every even offset `i`. -/
def decodeHex (s : Rust.Str) : Except Panic (Except Rust.ParseIntError (List UInt8)) :=
  decodeHexFrom s (Rust.rangeStepBy s.len 2)

/-- `Pallet::parse_identity_field`: the hex text of the field's `raw` entry after its `0x`,
decoded and bounded to 32 bytes, or `Data::None` when there is no such text. -/
def parseIdentityField (f : Value) : Except Panic Data :=
  match f.index "raw" with
  | .string s => do
    let hex ← strIndexFrom s 2
    let bytes ← unwrapResult (← decodeHex hex)
    let raw ← unwrapResult (okOr () (BoundedVec.ofList? bytes))
    pure (.raw raw)
  | _ => pure .none

/-! ## Addresses -/

variable (cfg) in
/-- `Pallet::get_account_id`: the address decoded from base 58, its bytes `1..33` copied into a
32-byte array, and the array read as an account, the default one when it does not decode. -/
def getAccountId (s : Rust.Str) : Except Panic AccountId := do
  let decoded ← unwrapResult (cfg.bs58Decode s)
  let cutAddressVec ← okOr (.sliceEndIndexLenFail 33 decoded.length)
    (Rust.Vec.drain decoded 1 33)
  let bytes ← sliceTo cutAddressVec 32
  let array ← okOr (.lenMismatchFail 32 bytes.length)
    (Rust.Vec.copyFromSlice (List.replicate 32 0) bytes)
  pure (cfg.decodeAccountId array)

variable (cfg) in
/-- `Pallet::get_account`, the same body over the item's address. -/
def getAccount (item : AccountItem) : Except Panic AccountId :=
  getAccountId cfg item.accountId

/-! ## The two imports -/

/-- `Pallet::get_balance`: the free and the reserved balance, each parsed as a `u128`, added
with wrap-around. -/
def getBalance (item : AccountItem) : Except Panic ℕ := do
  let free ← unwrapResult (Rust.fromStrRadix 128 item.freeBalance 10)
  let reserved ← unwrapResult (Rust.fromStrRadix 128 item.reservedBalance 10)
  pure ((free + reserved) % 2 ^ 128)

/-- A pass of the loop of `migrate_balances`: the account's data becomes its balance, all of
it free, and `TotalIssuance` grows by the balance, with wrap-around. -/
def importAccount (s : State cfg) (acc : AccountItem) : Except Panic (State cfg) := do
  let accountId ← getAccount cfg acc
  let balance ← getBalance acc
  pure { s with
    identity := { s.identity with balances := s.identity.balances.insert accountId balance 0 }
    totalIssuance := (s.totalIssuance + balance) % 2 ^ 128 }

/-- The shape both imports share: root only, and only once, as the storage version records;
the loop over the items, then the version and an event with their number. -/
def migrateOnce {α : Type} (version : State cfg → StorageVersion)
    (setVersion : State cfg → StorageVersion → State cfg)
    (importItem : State cfg → α → Except Panic (State cfg)) (event : UInt32 → Event)
    (s : State cfg) (origin : Origin AccountId) (parsed : List α) :
    Except Panic (State cfg × DispatchResult) :=
  match origin with
  | .root =>
    if version s = .V2Imported then pure (s, .ok ())
    else do
      let s ← parsed.foldlM importItem s
      pure ({ setVersion s .V2Imported with
        events := s.events ++ [event (UInt32.ofNat parsed.length)] }, .ok ())
  | _ => pure (s, .error .badOrigin)

def migrateBalances (s : State cfg) (origin : Origin AccountId) (parsed : List AccountItem) :
    Except Panic (State cfg × DispatchResult) :=
  migrateOnce State.balancesVersion (fun s v => { s with balancesVersion := v }) importAccount
    .migratedBalances s origin parsed

/-- The `IdentityItem` of one entry: its account and a registration with the deposit as
given, no judgements and no extra fields, and the seven fields of `info` that are read. -/
def identityItem (i : Value) : Except Panic (AccountId × Identity.Reg cfg.identity) := do
  let r := i.index "identity"
  let f := r.index "info"
  let accId ← unwrap (i.index "account_id").asStr
  let accountId ← getAccountId cfg accId
  let deposit ← unwrapResult (okOr (0 : ℤ) (r.index "deposit").asU64)
  let display ← parseIdentityField (f.index "display")
  let legal ← parseIdentityField (f.index "legal")
  let web ← parseIdentityField (f.index "web")
  let riot ← parseIdentityField (f.index "riot")
  let email ← parseIdentityField (f.index "email")
  let image ← parseIdentityField (f.index "image")
  let twitter ← parseIdentityField (f.index "twitter")
  pure (accountId,
    { judgements := default
      deposit := deposit.toNat
      info :=
        { additional := default
          display := display
          legal := legal
          web := web
          riot := riot
          email := email
          pgpFingerprint := none
          image := image
          twitter := twitter } })

/-- A pass of the loop of `migrate_identities`: `IdentityOf::insert`. -/
def importIdentity (s : State cfg) (i : Value) : Except Panic (State cfg) := do
  let (who, registration) ← identityItem i
  pure { s with
    identity := { s.identity with
      identityOf := Function.update s.identity.identityOf who (some registration) } }

def migrateIdentities (s : State cfg) (origin : Origin AccountId) (parsed : List Value) :
    Except Panic (State cfg × DispatchResult) :=
  migrateOnce State.identityVersion (fun s v => { s with identityVersion := v }) importIdentity
    .migratedIdentities s origin parsed

/-! ## The chain -/

inductive Call (cfg : Config AccountId) where
  | identity (call : Identity.Call cfg.identity)
  | migrateBalances (parsed : List AccountItem)
  | migrateIdentities (parsed : List Value)

def dispatch (s : State cfg) (origin : Origin AccountId) :
    Call cfg → Except Panic (State cfg × DispatchResult)
  | .identity call =>
    let (identity, result) := Identity.dispatch s.identity origin call
    pure ({ s with identity := identity }, result)
  | .migrateBalances parsed => migrateBalances s origin parsed
  | .migrateIdentities parsed => migrateIdentities s origin parsed

/-- The states reached from genesis by calls that return, failed ones included; a call that
panics leaves no state. -/
inductive Reachable : State cfg → Prop
  | genesis (free : AccountId → ℕ) (totalIssuance : ℕ) :
      Reachable (genesis cfg free totalIssuance)
  | step {s s' : State cfg} {result : DispatchResult} (origin : Origin AccountId)
      (call : Call cfg) : Reachable s → dispatch s origin call = .ok (s', result) → Reachable s'

/-- The state after a call, or the one before it when the call panics, since a panicking
extrinsic is not part of any block. -/
def applyCall (s : State cfg) (origin : Origin AccountId) (call : Call cfg) : State cfg :=
  match dispatch s origin call with
  | .ok (s', _) => s'
  | .error _ => s

theorem Reachable.applyCall {s : State cfg} (h : Reachable s) (origin : Origin AccountId)
    (call : Call cfg) : Reachable (applyCall s origin call) := by
  unfold Migration.applyCall
  cases hcall : dispatch s origin call with
  | ok r => exact .step origin call h hcall
  | error _ => exact h

/-- The identity pallet's mock runtime, whose accounts are `u64`s: eight little-endian bytes. -/
def mockConfig : Config ℕ where
  identity := Identity.mockConfig
  bs58Decode s := Bs58.decode s.bytes
  accountIdDecoder := Scale.Decoder.readLE 8
  defaultAccountId := 0

end ZeroNet.Migration
