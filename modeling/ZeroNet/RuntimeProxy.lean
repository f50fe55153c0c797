import ZeroNet.InstanceFilter

/-!
# Proxy types of the runtimes

`ProxyType` is the `InstanceFilter<RuntimeCall>` that `pallet_proxy` applies to the calls a
proxy dispatches: `Any` lets every call through, `NonTransfer` every call but the transfers
it names, `Governance` only the calls of the governance pallets, and in alphaville `Staking`
only those of `pallet_staking`. `is_superset` is what `pallet_proxy` asks before a proxy adds
or removes another proxy: the new type must be covered by the proxy's own.

In both runtimes `is_superset` decides exactly the inclusion of the filters: it holds when
every call the smaller type lets through the larger one lets through too, and only then. So
no chain of proxies, each added through the one before, can dispatch a call the first one
could not. The filters read little of a call: in subzero `NonTransfer` lets `XTokens` and
`PolkadotXcm` through, whose calls send tokens to other chains, and in alphaville it lets
`Currencies` through, whose `transfer` moves any currency.
-/

namespace ZeroNet.Runtime

/-- `RuntimeCall`, by the pallet of the call: a variant for each pallet of
`construct_runtime!`. The call inside is left out, since no filter reads it. -/
inductive RuntimeCall where
  | System | ParachainSystem | Timestamp | ParachainInfo | Utility | Multisig | Council
  | TechnicalCommittee | Identity | Bounties | ChildBounties | Scheduler | Preimage | Sudo
  | Proxy | Democracy | Elections | TechnicalMembership | RandomnessCollectiveFlip | Contracts
  | Treasury | Tips | Balances | TransactionPayment | Nfts | Authorship | CollatorSelection
  | Session | Aura | AuraExt | XcmpQueue | PolkadotXcm | CumulusXcm | DmpQueue
  | AssetRegistry | Currencies | OrmlXcm | Tokens | UnknownTokens | XTokens | Flow | Sense
  | Control | Signal
  deriving DecidableEq, Repr

inductive ProxyType where
  | Any
  | NonTransfer
  | Governance
  deriving DecidableEq, Repr

namespace ProxyType

/-- The calls `NonTransfer` withholds: `Balances`, `Nfts`, `Currencies` and `Tokens`. -/
def isTransfer : RuntimeCall → Bool
  | .Balances | .Nfts | .Currencies | .Tokens => true
  | _ => false

def isGovernance : RuntimeCall → Bool
  | .Democracy | .Council | .TechnicalCommittee | .Treasury | .Bounties | .ChildBounties
  | .Utility | .Elections => true
  | _ => false

def filter : ProxyType → RuntimeCall → Bool
  | .Any, _ => true
  | .NonTransfer, c => !isTransfer c
  | .Governance, c => isGovernance c

/-- `InstanceFilter::is_superset`: equal types first, then the arms in the source's order. -/
def isSuperset (x o : ProxyType) : Bool :=
  if x = o then true
  else
    match x, o with
    | .Any, _ => true
    | _, .Any => false
    | .NonTransfer, _ => true
    | _, _ => false

theorem isTransfer_of_isGovernance {c : RuntimeCall} (h : isGovernance c = true) :
    isTransfer c = false := by
  cases c <;> first | rfl | cases h

theorem filter_nonTransfer_of_governance {c : RuntimeCall} (h : filter .Governance c = true) :
    filter .NonTransfer c = true := by
  simp only [filter] at h ⊢
  rw [isTransfer_of_isGovernance h]
  rfl

theorem filter_of_isSuperset {x o : ProxyType} (h : isSuperset x o = true) {c : RuntimeCall}
    (hc : filter o c = true) : filter x c = true := by
  cases x <;> cases o
  case Any.NonTransfer | Any.Governance | Any.Any => rfl
  case NonTransfer.NonTransfer | Governance.Governance => exact hc
  case NonTransfer.Governance => exact filter_nonTransfer_of_governance hc
  all_goals cases h

theorem filter_balances {x : ProxyType} (hx : x ≠ .Any) : filter x .Balances = false := by
  cases x
  case Any => exact absurd rfl hx
  all_goals rfl

theorem isSuperset_of_filter {x o : ProxyType}
    (h : ∀ c, filter o c = true → filter x c = true) : isSuperset x o = true := by
  cases x <;> cases o
  case NonTransfer.Any | Governance.Any =>
    have := h .Balances rfl
    rw [filter_balances (by decide)] at this
    cases this
  case Governance.NonTransfer => cases h .System rfl
  all_goals rfl

/-- `is_superset` decides exactly that every call the second type lets through, the first one
lets through too. -/
theorem isSuperset_iff_filter_le (x o : ProxyType) :
    isSuperset x o = true ↔ ∀ c, filter o c = true → filter x c = true :=
  ⟨fun h _ hc => filter_of_isSuperset h hc, isSuperset_of_filter⟩

theorem supersetExact : InstanceFilter.SupersetExact filter isSuperset :=
  fun _ _ => ⟨fun h _ hc => filter_of_isSuperset h hc, isSuperset_of_filter⟩

theorem isSuperset_trans {x y z : ProxyType} (hxy : isSuperset x y = true)
    (hyz : isSuperset y z = true) : isSuperset x z = true :=
  supersetExact.trans hxy hyz

theorem filter_of_chain {x : ProxyType} {chain : List ProxyType}
    (h : List.IsChain (fun a b => isSuperset a b = true) (x :: chain)) {c : RuntimeCall}
    (hc : filter ((x :: chain).getLast (List.cons_ne_nil x chain)) c = true) :
    filter x c = true :=
  supersetExact.sound.filter_of_chain h hc

end ProxyType

end ZeroNet.Runtime

namespace ZeroNet.Alphaville

/-- The calls of `pallet_vesting` that the proxy filter tells apart. -/
inductive VestingCall where
  | vestedTransfer
  | other
  deriving DecidableEq, Repr

/-- The calls of `pallet_indices` that the proxy filter tells apart. -/
inductive IndicesCall where
  | transfer
  | other
  deriving DecidableEq, Repr

/-- `RuntimeCall` of the alphaville runtime, by pallet, and for `Vesting` and `Indices` by the
call the filter names: a variant for each pallet of `construct_runtime!` but `Historical` and
`Tokens`, which are declared without a `Call` part. -/
inductive RuntimeCall where
  | System | Utility | Babe | Timestamp | Authorship | Indices (call : IndicesCall) | Balances
  | TransactionPayment | AssetTxPayment | ElectionProviderMultiPhase | Staking | Session
  | Democracy | Council | TechnicalCommittee | Elections | TechnicalMembership | Grandpa
  | Treasury | Contracts | Sudo | ImOnline | AuthorityDiscovery | Offences
  | RandomnessCollectiveFlip | Identity | Society | Recovery | Vesting (call : VestingCall)
  | Scheduler | Preimage | Proxy | Multisig | Bounties | Tips | Assets | Mmr | Lottery | Uniques
  | Nfts | TransactionStorage | VoterList | StateTrieMigration | ChildBounties | Referenda
  | Remark | RootTesting | ConvictionVoting | Whitelist | AllianceMotion | Alliance
  | NominationPools | RankedPolls | RankedCollective | FastUnstake | MessageQueue | Pov
  | AssetRegistry | Currencies | Flow | Sense | Control | Signal | Battlepass
  deriving DecidableEq, Repr

inductive ProxyType where
  | Any
  | NonTransfer
  | Governance
  | Staking
  deriving DecidableEq, Repr

namespace ProxyType

def isTransfer : RuntimeCall → Bool
  | .Balances | .Assets | .Uniques | .Nfts | .Vesting .vestedTransfer | .Indices .transfer => true
  | _ => false

def isGovernance : RuntimeCall → Bool
  | .Democracy | .Council | .Society | .TechnicalCommittee | .Elections | .Treasury => true
  | _ => false

def isStaking : RuntimeCall → Bool
  | .Staking => true
  | _ => false

def filter : ProxyType → RuntimeCall → Bool
  | .Any, _ => true
  | .NonTransfer, c => !isTransfer c
  | .Governance, c => isGovernance c
  | .Staking, c => isStaking c

/-- `InstanceFilter::is_superset`: equal types first, then the arms in the source's order. -/
def isSuperset (x o : ProxyType) : Bool :=
  if x = o then true
  else
    match x, o with
    | .Any, _ => true
    | _, .Any => false
    | .NonTransfer, _ => true
    | _, _ => false

theorem filter_nonTransfer {o : ProxyType} (ho : o ≠ .Any) {c : RuntimeCall}
    (hc : filter o c = true) : filter .NonTransfer c = true := by
  cases o
  case Any => exact absurd rfl ho
  case NonTransfer => exact hc
  all_goals cases c <;> first | rfl | cases hc

theorem filter_of_isSuperset {x o : ProxyType} (h : isSuperset x o = true) {c : RuntimeCall}
    (hc : filter o c = true) : filter x c = true := by
  cases x <;> cases o
  case Any.Any | Any.NonTransfer | Any.Governance | Any.Staking => rfl
  case NonTransfer.Governance | NonTransfer.Staking =>
    exact filter_nonTransfer (by decide) hc
  case NonTransfer.NonTransfer | Governance.Governance | Staking.Staking => exact hc
  all_goals cases h

theorem filter_balances {x : ProxyType} (hx : x ≠ .Any) : filter x .Balances = false := by
  cases x
  case Any => exact absurd rfl hx
  all_goals rfl

theorem isSuperset_of_filter {x o : ProxyType}
    (h : ∀ c, filter o c = true → filter x c = true) : isSuperset x o = true := by
  cases x <;> cases o
  case NonTransfer.Any | Governance.Any | Staking.Any =>
    have := h .Balances rfl
    rw [filter_balances (by decide)] at this
    cases this
  case Governance.NonTransfer | Staking.NonTransfer => cases h .System rfl
  case Governance.Staking => cases h .Staking rfl
  case Staking.Governance => cases h .Democracy rfl
  all_goals rfl

/-- `is_superset` decides exactly that every call the second type lets through, the first one
lets through too. -/
theorem isSuperset_exact : InstanceFilter.SupersetExact filter isSuperset :=
  fun _ _ => ⟨fun h _ hc => filter_of_isSuperset h hc, isSuperset_of_filter⟩

theorem isSuperset_trans {x y z : ProxyType} (hxy : isSuperset x y = true)
    (hyz : isSuperset y z = true) : isSuperset x z = true := by
  refine isSuperset_of_filter fun c hc => ?_
  exact filter_of_isSuperset hxy (filter_of_isSuperset hyz hc)

theorem supersetSound : InstanceFilter.SupersetSound filter isSuperset :=
  fun _ _ h _ hc => filter_of_isSuperset h hc

theorem filter_of_chain {x : ProxyType} {chain : List ProxyType}
    (h : List.IsChain (fun a b => isSuperset a b = true) (x :: chain)) {c : RuntimeCall}
    (hc : filter ((x :: chain).getLast (List.cons_ne_nil x chain)) c = true) :
    filter x c = true :=
  supersetSound.filter_of_chain h hc

end ProxyType

end ZeroNet.Alphaville
