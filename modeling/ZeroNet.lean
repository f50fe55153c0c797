import ZeroNet.BoundedVec
import ZeroNet.BinarySearch
import ZeroNet.ReservableCurrency
import ZeroNet.BTreeMap
import ZeroNet.ScaleCodec
import ZeroNet.Currency
import ZeroNet.CurrencyIdConvert
import ZeroNet.IdentityTypes
import ZeroNet.IdentityPallet
import ZeroNet.IdentitySteps
import ZeroNet.IdentitySubs
import ZeroNet.IdentityJudgements
import ZeroNet.IdentityDeposits
import ZeroNet.IdentityCodec
import ZeroNet.IdentityFunds
import ZeroNet.IdentityRegistrars
import ZeroNet.ChainSpec
import ZeroNet.InstanceFilter
import ZeroNet.RuntimeProxy
import ZeroNet.RustStr
import ZeroNet.MigrationPallet
import ZeroNet.MigrationDecode
import ZeroNet.MigrationImports
import ZeroNet.RustVec
import ZeroNet.ForkTree
import ZeroNet.ForkTreeNodes
import ZeroNet.ForkTreeSteps
import ZeroNet.ForkTreeRuns
import ZeroNet.ForkTreePrune
import ZeroNet.ForkTreeDescendent
import ZeroNet.ForkTreeBalance
import ZeroNet.Bs58
