import ZeroNet.BinarySearch
import ZeroNet.BoundedVec
import Mathlib.Data.Vector.Defs
import Mathlib.Algebra.BigOperators.Group.List.Basic

/-!
# Identity records

The types of the identity pallet's storage: `Data` fields, registrar `Judgement`s, the
`IdentityInfo` an account publishes, its `Registration` with the deposit it holds and the
judgements given on it, and a registrar's `RegistrarInfo`. Bounded vectors carry the pallet's
limits (`MaxRegistrars` judgements, `MaxAdditionalFields` extra fields, 32 raw bytes).
-/

namespace ZeroNet.Identity

/-- Either the bytes of a field of at most 32 bytes, or one of four hashes of it. -/
inductive Data where
  | none
  | raw (bytes : BoundedVec UInt8 32)
  | blakeTwo256 (hash : List.Vector UInt8 32)
  | sha256 (hash : List.Vector UInt8 32)
  | keccak256 (hash : List.Vector UInt8 32)
  | shaThree256 (hash : List.Vector UInt8 32)
  deriving DecidableEq

instance : Inhabited Data := ⟨.none⟩

abbrev RegistrarIndex := UInt32

inductive Judgement (Balance : Type) where
  | unknown
  | feePaid (fee : Balance)
  | reasonable
  | knownGood
  | outOfDate
  | lowQuality
  | erroneous
  deriving DecidableEq

namespace Judgement

variable {Balance : Type}

def hasDeposit : Judgement Balance → Bool
  | feePaid _ => true
  | _ => false

/-- Not to be replaced outside of specialised handlers. -/
def isSticky : Judgement Balance → Bool
  | feePaid _ | erroneous => true
  | _ => false

/-- The summand of `total_deposit`: the fee of a `FeePaid` judgement, else zero. -/
def paidFee [Zero Balance] : Judgement Balance → Balance
  | feePaid fee => fee
  | _ => 0

@[simp] theorem paidFee_of_not_isSticky [Zero Balance] {j : Judgement Balance}
    (h : j.isSticky = false) : j.paidFee = 0 := by
  cases j <;> simp_all [isSticky, paidFee]

theorem paidFee_of_hasDeposit_false [Zero Balance] {j : Judgement Balance}
    (h : j.hasDeposit = false) : j.paidFee = 0 := by
  cases j <;> simp_all [hasDeposit, paidFee]

end Judgement

/-- `BitFlags<IdentityField>`: the eight `IdentityField` flags of a `u64`. -/
structure IdentityFields where
  bits : UInt64
  valid : bits.toNat < 2 ^ 8
  deriving DecidableEq

instance : Inhabited IdentityFields := ⟨⟨0, by decide⟩⟩

structure IdentityInfo (fieldLimit : ℕ) where
  additional : BoundedVec (Data × Data) fieldLimit
  display : Data
  legal : Data
  web : Data
  riot : Data
  email : Data
  pgpFingerprint : Option (List.Vector UInt8 20)
  image : Data
  twitter : Data
  deriving DecidableEq

structure Registration (Balance : Type) (maxJudgements maxAdditionalFields : ℕ) where
  judgements : BoundedVec (RegistrarIndex × Judgement Balance) maxJudgements
  deposit : Balance
  info : IdentityInfo maxAdditionalFields
  deriving DecidableEq

/-- The fees held by a list of judgements, summed as `total_deposit` folds them. -/
def feesOf {Balance : Type} [Zero Balance] [Add Balance]
    (js : List (RegistrarIndex × Judgement Balance)) : Balance :=
  (js.map fun j => j.2.paidFee).foldl (· + ·) 0

/-- `Registration::total_deposit`: the deposit and every fee still held. -/
def Registration.totalDeposit {Balance : Type} [Zero Balance] [Add Balance]
    {maxJudgements maxAdditionalFields : ℕ}
    (r : Registration Balance maxJudgements maxAdditionalFields) : Balance :=
  r.deposit + feesOf r.judgements.toList

structure RegistrarInfo (Balance AccountId : Type) where
  account : AccountId
  fee : Balance
  fields : IdentityFields
  deriving DecidableEq

/-! ## Fees as a sum -/

theorem feesOf_eq_sum (js : List (RegistrarIndex × Judgement ℕ)) :
    feesOf js = (js.map fun j => j.2.paidFee).sum := by
  unfold feesOf
  rw [List.sum_eq_foldl]

@[simp] theorem feesOf_nil : feesOf ([] : List (RegistrarIndex × Judgement ℕ)) = 0 := rfl

theorem feesOf_append (js ks : List (RegistrarIndex × Judgement ℕ)) :
    feesOf (js ++ ks) = feesOf js + feesOf ks := by
  simp only [feesOf_eq_sum, List.map_append, List.sum_append]

theorem feesOf_cons (j : RegistrarIndex × Judgement ℕ) (js : List (RegistrarIndex × Judgement ℕ)) :
    feesOf (j :: js) = j.2.paidFee + feesOf js := by
  simp only [feesOf_eq_sum, List.map_cons, List.sum_cons]

theorem feesOf_filter_isSticky (js : List (RegistrarIndex × Judgement ℕ)) :
    feesOf (js.filter fun j => j.2.isSticky) = feesOf js := by
  induction js with
  | nil => rfl
  | cons j js ih =>
    cases hj : j.2.isSticky with
    | true => simp only [List.filter_cons, hj, if_true, feesOf_cons, ih]
    | false =>
      have hfee : j.2.paidFee = 0 := Judgement.paidFee_of_not_isSticky hj
      simp only [List.filter_cons, hj, Bool.false_eq_true, if_false, feesOf_cons, ih, hfee,
        Nat.zero_add]

theorem feesOf_set (js : List (RegistrarIndex × Judgement ℕ)) {i : ℕ} (hi : i < js.length)
    (j : RegistrarIndex × Judgement ℕ) :
    feesOf (js.set i j) + js[i].2.paidFee = feesOf js + j.2.paidFee := by
  rw [List.set_eq_take_append_cons_drop, if_pos hi, feesOf_append, feesOf_cons]
  conv_rhs => rw [← List.take_append_drop i js, List.drop_eq_getElem_cons hi, feesOf_append,
    feesOf_cons]
  omega

theorem feesOf_eraseIdx (js : List (RegistrarIndex × Judgement ℕ)) {i : ℕ} (hi : i < js.length) :
    feesOf (js.eraseIdx i) + js[i].2.paidFee = feesOf js := by
  rw [List.eraseIdx_eq_take_drop_succ, feesOf_append]
  conv_rhs => rw [← List.take_append_drop i js, List.drop_eq_getElem_cons hi, feesOf_append,
    feesOf_cons]
  omega

theorem feesOf_insertIdx (js : List (RegistrarIndex × Judgement ℕ)) {i : ℕ} (hi : i ≤ js.length)
    (j : RegistrarIndex × Judgement ℕ) :
    feesOf (js.insertIdx i j) = feesOf js + j.2.paidFee := by
  rw [Slice.insertIdx_eq_take_append_drop js j i hi, feesOf_append, feesOf_cons]
  conv_rhs => rw [← List.take_append_drop i js, feesOf_append]
  omega

end ZeroNet.Identity
