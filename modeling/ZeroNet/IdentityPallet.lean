import ZeroNet.IdentityTypes
import ZeroNet.ReservableCurrency

/-!
# The identity pallet as a state machine

The storage of the identity pallet (`IdentityOf`, `SuperOf`, `SubsOf` as a total map with
default `(0, [])`, `Registrars`), the reservable currency and the event log form a `State`;
every dispatchable is a function from a state to the state after it and its result. The
calls are not transactional: a call that fails after a write keeps the write, so each
function returns the state at the point where the Rust code returns, and `SubsOf::take` in
`clear_identity` and `kill_identity` happens before the `NotNamed` check as in the source.

Balances are natural numbers, account lookup is the identity, and the `RegistrarOrigin` and
`ForceOrigin` checks are predicates of the configuration.
-/

namespace ZeroNet.Identity

inductive Origin (AccountId : Type) where
  | root
  | signed (who : AccountId)
  | none
  deriving DecidableEq

structure Config (AccountId : Type) where
  basicDeposit : ℕ
  fieldDeposit : ℕ
  subAccountDeposit : ℕ
  maxSubAccounts : ℕ
  maxAdditionalFields : ℕ
  maxRegistrars : ℕ
  /-- `T::RegistrarOrigin::ensure_origin` accepts the origin. -/
  registrarOrigin : Origin AccountId → Bool
  /-- `T::ForceOrigin::ensure_origin` accepts the origin. -/
  forceOrigin : Origin AccountId → Bool

inductive Error where
  | tooManySubAccounts
  | notFound
  | notNamed
  | emptyIndex
  | feeChanged
  | noIdentity
  | stickyJudgement
  | judgementGiven
  | invalidJudgement
  | invalidIndex
  | invalidTarget
  | tooManyFields
  | tooManyRegistrars
  | alreadyClaimed
  | notSub
  | notOwned
  deriving DecidableEq, Repr

inductive DispatchError where
  | badOrigin
  | module (e : Error)
  /-- `T::Currency::reserve` refused: the free balance does not cover the amount. -/
  | insufficientBalance
  deriving DecidableEq, Repr

abbrev DispatchResult := Except DispatchError Unit

inductive Event (AccountId : Type) where
  | identitySet (who : AccountId)
  | identityCleared (who : AccountId) (deposit : ℕ)
  | identityKilled (who : AccountId) (deposit : ℕ)
  | judgementRequested (who : AccountId) (registrarIndex : RegistrarIndex)
  | judgementUnrequested (who : AccountId) (registrarIndex : RegistrarIndex)
  | judgementGiven (target : AccountId) (registrarIndex : RegistrarIndex)
  | registrarAdded (registrarIndex : RegistrarIndex)
  | subIdentityAdded (sub main : AccountId) (deposit : ℕ)
  | subIdentityRemoved (sub main : AccountId) (deposit : ℕ)
  | subIdentityRevoked (sub main : AccountId) (deposit : ℕ)
  deriving DecidableEq

variable {AccountId : Type} [DecidableEq AccountId] (cfg : Config AccountId)

abbrev Reg := Registration ℕ cfg.maxRegistrars cfg.maxAdditionalFields

structure State where
  identityOf : AccountId → Option (Reg cfg)
  superOf : AccountId → Option (AccountId × Data)
  subsOf : AccountId → ℕ × BoundedVec AccountId cfg.maxSubAccounts
  registrars : BoundedVec (Option (RegistrarInfo ℕ AccountId)) cfg.maxRegistrars
  balances : Reservable.Ledger AccountId
  events : List (Event AccountId)

def genesis (free : AccountId → ℕ) : State cfg where
  identityOf _ := none
  superOf _ := none
  subsOf _ := (0, default)
  registrars := default
  balances := ⟨free, fun _ => 0⟩
  events := []

def ensureSigned : Origin AccountId → Except DispatchError AccountId
  | .signed who => .ok who
  | _ => .error .badOrigin

variable {cfg}

namespace State

def depositEvent (s : State cfg) (e : Event AccountId) : State cfg :=
  { s with events := s.events ++ [e] }

/-- `SubsOf::take(who)`: the entry goes back to its default. -/
def takeSubsOf (s : State cfg) (who : AccountId) : State cfg :=
  { s with subsOf := Function.update s.subsOf who (0, default) }

variable (s : State cfg) (e : Event AccountId) (who : AccountId)

section
omit [DecidableEq AccountId]

@[simp] theorem depositEvent_identityOf : (s.depositEvent e).identityOf = s.identityOf := rfl
@[simp] theorem depositEvent_superOf : (s.depositEvent e).superOf = s.superOf := rfl
@[simp] theorem depositEvent_subsOf : (s.depositEvent e).subsOf = s.subsOf := rfl
@[simp] theorem depositEvent_registrars : (s.depositEvent e).registrars = s.registrars := rfl
@[simp] theorem depositEvent_balances : (s.depositEvent e).balances = s.balances := rfl

end

@[simp] theorem takeSubsOf_identityOf : (s.takeSubsOf who).identityOf = s.identityOf := rfl
@[simp] theorem takeSubsOf_superOf : (s.takeSubsOf who).superOf = s.superOf := rfl
@[simp] theorem takeSubsOf_subsOf :
    (s.takeSubsOf who).subsOf = Function.update s.subsOf who (0, default) := rfl
@[simp] theorem takeSubsOf_registrars : (s.takeSubsOf who).registrars = s.registrars := rfl
@[simp] theorem takeSubsOf_balances : (s.takeSubsOf who).balances = s.balances := rfl

theorem takeSubsOf_of_default {s : State cfg} {who : AccountId}
    (h : s.subsOf who = (0, default)) : s.takeSubsOf who = s := by
  unfold takeSubsOf
  rw [← h, Function.update_eq_self]

end State

/-- `for s in ids { SuperOf::remove(s) }`. -/
def removeSupers (superOf : AccountId → Option (AccountId × Data)) (ids : List AccountId) :
    AccountId → Option (AccountId × Data) :=
  ids.foldl (fun m x => Function.update m x none) superOf

/-- `for (id, name) in subs { SuperOf::insert(&id, (sender.clone(), name)) }`. -/
def insertSupers (superOf : AccountId → Option (AccountId × Data)) (sender : AccountId)
    (subs : List (AccountId × Data)) : AccountId → Option (AccountId × Data) :=
  subs.foldl (fun m p => Function.update m p.1 (some (sender, p.2))) superOf

/-- The registrar at `index`, as `registrars.get(index as usize).and_then(Option::as_ref)`. -/
def registrarAt (s : State cfg) (index : RegistrarIndex) : Option (RegistrarInfo ℕ AccountId) :=
  (s.registrars.toList[index.toNat]?).join

/-- `binary_search_by_key(&reg_index, |x| x.0)` over the judgements. -/
def searchJudgements (js : List (RegistrarIndex × Judgement ℕ)) (regIndex : RegistrarIndex) :
    Except ℕ ℕ :=
  Slice.binarySearchByKey js regIndex.toNat fun x => x.1.toNat

theorem searchJudgements_ok {js : List (RegistrarIndex × Judgement ℕ)} {regIndex : RegistrarIndex}
    {i : ℕ} (h : searchJudgements js regIndex = .ok i) : i < js.length :=
  (Slice.binarySearchBy_ok h).1

def addRegistrar (s : State cfg) (origin : Origin AccountId) (account : AccountId) :
    State cfg × DispatchResult :=
  if cfg.registrarOrigin origin then
    match s.registrars.tryPush (some ⟨account, 0, default⟩) with
    | some registrars =>
      ({ s with registrars }.depositEvent (.registrarAdded (UInt32.ofNat (registrars.length - 1))),
        .ok ())
    | none => (s, .error (.module .tooManyRegistrars))
  else (s, .error .badOrigin)

/-- The registration `set_identity` starts from: an existing one keeps only its sticky
judgements and takes the new info, otherwise a fresh one with no deposit. -/
def withInfo (old : Option (Reg cfg)) (info : IdentityInfo cfg.maxAdditionalFields) : Reg cfg :=
  match old with
  | some id => { id with judgements := id.judgements.retain fun j => j.2.isSticky, info }
  | none => ⟨default, 0, info⟩

def setIdentity (s : State cfg) (origin : Origin AccountId)
    (info : IdentityInfo cfg.maxAdditionalFields) : State cfg × DispatchResult :=
  match ensureSigned origin with
  | .error e => (s, .error e)
  | .ok sender =>
    let extraFields := info.additional.length
    if extraFields ≤ cfg.maxAdditionalFields then
      let fd := extraFields * cfg.fieldDeposit
      let id := withInfo (s.identityOf sender) info
      let oldDeposit := id.deposit
      let id := { id with deposit := cfg.basicDeposit + fd }
      -- `reserve` the increase, or `unreserve` the decrease
      match s.balances.reserveDelta sender oldDeposit id.deposit with
      | none => (s, .error .insufficientBalance)
      | some balances =>
        ({ s with balances, identityOf := Function.update s.identityOf sender (some id) }.depositEvent
          (.identitySet sender), .ok ())
    else (s, .error (.module .tooManyFields))

def setSubs (s : State cfg) (origin : Origin AccountId) (subs : List (AccountId × Data)) :
    State cfg × DispatchResult :=
  match ensureSigned origin with
  | .error e => (s, .error e)
  | .ok sender =>
    if (s.identityOf sender).isSome then
      if hlen : subs.length ≤ cfg.maxSubAccounts then
        let oldDeposit := (s.subsOf sender).1
        let oldIds := (s.subsOf sender).2
        let newDeposit := cfg.subAccountDeposit * subs.length
        let notOtherSub := (subs.filterMap fun i => s.superOf i.1).all fun i => decide (i.1 = sender)
        if notOtherSub then
          match s.balances.reserveDelta sender oldDeposit newDeposit with
          | none => (s, .error .insufficientBalance)
          | some balances =>
            let superOf := insertSupers (removeSupers s.superOf oldIds.toList) sender subs
            let ids : BoundedVec AccountId cfg.maxSubAccounts :=
              ⟨subs.map Prod.fst, by simpa using hlen⟩
            let entry := if ids.toList.isEmpty then (0, default) else (newDeposit, ids)
            ({ s with balances, superOf, subsOf := Function.update s.subsOf sender entry }, .ok ())
        else (s, .error (.module .alreadyClaimed))
      else (s, .error (.module .tooManySubAccounts))
    else (s, .error (.module .notFound))

def clearIdentity (s : State cfg) (origin : Origin AccountId) : State cfg × DispatchResult :=
  match ensureSigned origin with
  | .error e => (s, .error e)
  | .ok sender =>
    let subsDeposit := (s.subsOf sender).1
    let subIds := (s.subsOf sender).2
    let s := s.takeSubsOf sender
    match s.identityOf sender with
    | none => (s, .error (.module .notNamed))
    | some id =>
      let deposit := id.totalDeposit + subsDeposit
      ({ s with
          identityOf := Function.update s.identityOf sender none
          superOf := removeSupers s.superOf subIds.toList
          balances := (s.balances.unreserve sender deposit).1 }.depositEvent
        (.identityCleared sender deposit), .ok ())

/-- The judgements after `request_judgement` puts `item` at the registrar's place: a judgement
already there is replaced unless it is sticky, otherwise `item` is inserted where the search
stopped. -/
def requestedJudgements (js : BoundedVec (RegistrarIndex × Judgement ℕ) cfg.maxRegistrars)
    (regIndex : RegistrarIndex) (item : RegistrarIndex × Judgement ℕ) :
    Except DispatchError (BoundedVec (RegistrarIndex × Judgement ℕ) cfg.maxRegistrars) :=
  match hsearch : searchJudgements js.toList regIndex with
  | .ok i =>
    if (js.toList.get ⟨i, searchJudgements_ok hsearch⟩).2.isSticky then
      .error (.module .stickyJudgement)
    else .ok (js.set i item)
  | .error i =>
    match js.tryInsert i item with
    | some js => .ok js
    | none => .error (.module .tooManyRegistrars)

def requestJudgement (s : State cfg) (origin : Origin AccountId) (regIndex : RegistrarIndex)
    (maxFee : ℕ) : State cfg × DispatchResult :=
  match ensureSigned origin with
  | .error e => (s, .error e)
  | .ok sender =>
    match registrarAt s regIndex with
    | none => (s, .error (.module .emptyIndex))
    | some registrar =>
      if registrar.fee ≤ maxFee then
        match s.identityOf sender with
        | none => (s, .error (.module .noIdentity))
        | some id =>
          let item := (regIndex, Judgement.feePaid registrar.fee)
          match requestedJudgements id.judgements regIndex item with
          | .error e => (s, .error e)
          | .ok js =>
            match s.balances.reserve sender registrar.fee with
            | none => (s, .error .insufficientBalance)
            | some balances =>
              ({ s with
                  balances
                  identityOf := Function.update s.identityOf sender
                    (some { id with judgements := js }) }.depositEvent
                (.judgementRequested sender regIndex), .ok ())
      else (s, .error (.module .feeChanged))

/-- The judgements after `cancel_request` removes the registrar's one, with the fee it held;
only a `FeePaid` judgement can be cancelled. -/
def cancelledJudgements (js : BoundedVec (RegistrarIndex × Judgement ℕ) cfg.maxRegistrars)
    (regIndex : RegistrarIndex) :
    Except DispatchError (ℕ × BoundedVec (RegistrarIndex × Judgement ℕ) cfg.maxRegistrars) :=
  match hsearch : searchJudgements js.toList regIndex with
  | .error _ => .error (.module .notFound)
  | .ok pos =>
    match (js.toList.get ⟨pos, searchJudgements_ok hsearch⟩).2 with
    | .feePaid fee => .ok (fee, js.eraseIdx pos)
    | _ => .error (.module .judgementGiven)

def cancelRequest (s : State cfg) (origin : Origin AccountId) (regIndex : RegistrarIndex) :
    State cfg × DispatchResult :=
  match ensureSigned origin with
  | .error e => (s, .error e)
  | .ok sender =>
    match s.identityOf sender with
    | none => (s, .error (.module .noIdentity))
    | some id =>
      match cancelledJudgements id.judgements regIndex with
      | .error e => (s, .error e)
      | .ok (fee, js) =>
        ({ s with
            balances := (s.balances.unreserve sender fee).1
            identityOf := Function.update s.identityOf sender
              (some { id with judgements := js }) }.depositEvent
          (.judgementUnrequested sender regIndex), .ok ())

/-- `Registrars::mutate` in `set_fee`, `set_account_id` and `set_fields`: the registrar at
`index` must belong to the sender, and `update` is applied to it. -/
def mutateRegistrar (s : State cfg) (origin : Origin AccountId) (index : RegistrarIndex)
    (update : RegistrarInfo ℕ AccountId → RegistrarInfo ℕ AccountId) :
    State cfg × DispatchResult :=
  match ensureSigned origin with
  | .error e => (s, .error e)
  | .ok who =>
    match registrarAt s index with
    | some r =>
      if r.account = who then
        ({ s with registrars := s.registrars.set index.toNat (some (update r)) }, .ok ())
      else (s, .error (.module .invalidIndex))
    | none => (s, .error (.module .invalidIndex))

def setFee (s : State cfg) (origin : Origin AccountId) (index : RegistrarIndex) (fee : ℕ) :
    State cfg × DispatchResult :=
  mutateRegistrar s origin index fun r => { r with fee }

def setAccountId (s : State cfg) (origin : Origin AccountId) (index : RegistrarIndex)
    (new : AccountId) : State cfg × DispatchResult :=
  mutateRegistrar s origin index fun r => { r with account := new }

def setFields (s : State cfg) (origin : Origin AccountId) (index : RegistrarIndex)
    (fields : IdentityFields) : State cfg × DispatchResult :=
  mutateRegistrar s origin index fun r => { r with fields }

/-- The judgements after `provide_judgement` puts `item` at the registrar's place, with the fee
of a `FeePaid` judgement it replaces, which goes to the registrar. -/
def providedJudgements (js : BoundedVec (RegistrarIndex × Judgement ℕ) cfg.maxRegistrars)
    (regIndex : RegistrarIndex) (item : RegistrarIndex × Judgement ℕ) :
    Except DispatchError
      (Option ℕ × BoundedVec (RegistrarIndex × Judgement ℕ) cfg.maxRegistrars) :=
  match hsearch : searchJudgements js.toList regIndex with
  | .ok position =>
    let fee :=
      match (js.toList.get ⟨position, searchJudgements_ok hsearch⟩).2 with
      | .feePaid fee => some fee
      | _ => none
    .ok (fee, js.set position item)
  | .error position =>
    match js.tryInsert position item with
    | some js => .ok (none, js)
    | none => .error (.module .tooManyRegistrars)

def provideJudgement (s : State cfg) (origin : Origin AccountId) (regIndex : RegistrarIndex)
    (target : AccountId) (judgement : Judgement ℕ) : State cfg × DispatchResult :=
  match ensureSigned origin with
  | .error e => (s, .error e)
  | .ok sender =>
    if judgement.hasDeposit then (s, .error (.module .invalidJudgement))
    else
      match registrarAt s regIndex with
      | some r =>
        if r.account = sender then
          match s.identityOf target with
          | none => (s, .error (.module .invalidTarget))
          | some id =>
            match providedJudgements id.judgements regIndex (regIndex, judgement) with
            | .error e => (s, .error e)
            | .ok (fee, js) =>
              -- a requested judgement pays the registrar the fee locked by the request
              let balances :=
                match fee with
                | some fee => (s.balances.repatriateReserved target sender fee).1
                | none => s.balances
              ({ s with
                  balances
                  identityOf := Function.update s.identityOf target
                    (some { id with judgements := js }) }.depositEvent
                (.judgementGiven target regIndex), .ok ())
        else (s, .error (.module .invalidIndex))
      | none => (s, .error (.module .invalidIndex))

def killIdentity (s : State cfg) (origin : Origin AccountId) (target : AccountId) :
    State cfg × DispatchResult :=
  if cfg.forceOrigin origin then
    let subsDeposit := (s.subsOf target).1
    let subIds := (s.subsOf target).2
    let s := s.takeSubsOf target
    match s.identityOf target with
    | none => (s, .error (.module .notNamed))
    | some id =>
      let deposit := id.totalDeposit + subsDeposit
      ({ s with
          identityOf := Function.update s.identityOf target none
          superOf := removeSupers s.superOf subIds.toList
          balances := (s.balances.slashReserved target deposit).1 }.depositEvent
        (.identityKilled target deposit), .ok ())
  else (s, .error .badOrigin)

def addSub (s : State cfg) (origin : Origin AccountId) (sub : AccountId) (data : Data) :
    State cfg × DispatchResult :=
  match ensureSigned origin with
  | .error e => (s, .error e)
  | .ok sender =>
    if (s.identityOf sender).isSome then
      if (s.superOf sub).isNone then
        -- the `SubsOf::try_mutate` closure, written back only when it succeeds
        let subsDeposit := (s.subsOf sender).1
        let subIds := (s.subsOf sender).2
        if hlen : subIds.length < cfg.maxSubAccounts then
          let deposit := cfg.subAccountDeposit
          match s.balances.reserve sender deposit with
          | none => (s, .error .insufficientBalance)
          | some balances =>
            let subIds : BoundedVec AccountId cfg.maxSubAccounts :=
              ⟨subIds.toList ++ [sub], by simp only [List.length_append, List.length_singleton,
                BoundedVec.length_eq] at hlen ⊢; omega⟩
            ({ s with
                balances
                superOf := Function.update s.superOf sub (some (sender, data))
                subsOf := Function.update s.subsOf sender (subsDeposit + deposit, subIds) }.depositEvent
              (.subIdentityAdded sub sender deposit), .ok ())
        else (s, .error (.module .tooManySubAccounts))
      else (s, .error (.module .alreadyClaimed))
    else (s, .error (.module .noIdentity))

def renameSub (s : State cfg) (origin : Origin AccountId) (sub : AccountId) (data : Data) :
    State cfg × DispatchResult :=
  match ensureSigned origin with
  | .error e => (s, .error e)
  | .ok sender =>
    if (s.identityOf sender).isSome then
      if ((s.superOf sub).map fun x => decide (x.1 = sender)).getD false then
        ({ s with superOf := Function.update s.superOf sub (some (sender, data)) }, .ok ())
      else (s, .error (.module .notOwned))
    else (s, .error (.module .noIdentity))

/-- `SubsOf::mutate(sup, ..)` of `remove_sub` and `quit_sub`: `sub` leaves the list and at most
one `SubAccountDeposit` leaves the deposit. Returns the amount released. -/
def releaseSub (s : State cfg) (sup sub : AccountId) : State cfg × ℕ :=
  let subsDeposit := (s.subsOf sup).1
  let deposit := min cfg.subAccountDeposit subsDeposit
  let entry := (subsDeposit - deposit, (s.subsOf sup).2.retain fun x => decide (x ≠ sub))
  ({ s with subsOf := Function.update s.subsOf sup entry }, deposit)

def removeSub (s : State cfg) (origin : Origin AccountId) (sub : AccountId) :
    State cfg × DispatchResult :=
  match ensureSigned origin with
  | .error e => (s, .error e)
  | .ok sender =>
    if (s.identityOf sender).isSome then
      match s.superOf sub with
      | none => (s, .error (.module .notSub))
      | some (sup, _) =>
        if sup = sender then
          let released := releaseSub { s with superOf := Function.update s.superOf sub none } sup sub
          let deposit := released.2
          ({ released.1 with balances := (released.1.balances.unreserve sender deposit).1 }.depositEvent
            (.subIdentityRemoved sub sender deposit), .ok ())
        else (s, .error (.module .notOwned))
    else (s, .error (.module .noIdentity))

def quitSub (s : State cfg) (origin : Origin AccountId) : State cfg × DispatchResult :=
  match ensureSigned origin with
  | .error e => (s, .error e)
  | .ok sender =>
    match s.superOf sender with
    | none => (s, .error (.module .notSub))
    | some (sup, _) =>
      let released := releaseSub { s with superOf := Function.update s.superOf sender none } sup sender
      let deposit := released.2
      ({ released.1 with
          balances := (released.1.balances.repatriateReserved sup sender deposit).1 }.depositEvent
        (.subIdentityRevoked sender sup deposit), .ok ())

/-- `Pallet::subs(who)`: the sub-accounts of `who` with their names. -/
def subs (s : State cfg) (who : AccountId) : List (AccountId × Data) :=
  (s.subsOf who).2.toList.filterMap fun a => (s.superOf a).map fun x => (a, x.2)

inductive Call (cfg : Config AccountId) where
  | addRegistrar (account : AccountId)
  | setIdentity (info : IdentityInfo cfg.maxAdditionalFields)
  | setSubs (subs : List (AccountId × Data))
  | clearIdentity
  | requestJudgement (regIndex : RegistrarIndex) (maxFee : ℕ)
  | cancelRequest (regIndex : RegistrarIndex)
  | setFee (index : RegistrarIndex) (fee : ℕ)
  | setAccountId (index : RegistrarIndex) (new : AccountId)
  | setFields (index : RegistrarIndex) (fields : IdentityFields)
  | provideJudgement (regIndex : RegistrarIndex) (target : AccountId) (judgement : Judgement ℕ)
  | killIdentity (target : AccountId)
  | addSub (sub : AccountId) (data : Data)
  | renameSub (sub : AccountId) (data : Data)
  | removeSub (sub : AccountId)
  | quitSub

def dispatch (s : State cfg) (origin : Origin AccountId) : Call cfg → State cfg × DispatchResult
  | .addRegistrar account => addRegistrar s origin account
  | .setIdentity info => setIdentity s origin info
  | .setSubs subs => setSubs s origin subs
  | .clearIdentity => clearIdentity s origin
  | .requestJudgement regIndex maxFee => requestJudgement s origin regIndex maxFee
  | .cancelRequest regIndex => cancelRequest s origin regIndex
  | .setFee index fee => setFee s origin index fee
  | .setAccountId index new => setAccountId s origin index new
  | .setFields index fields => setFields s origin index fields
  | .provideJudgement regIndex target judgement => provideJudgement s origin regIndex target judgement
  | .killIdentity target => killIdentity s origin target
  | .addSub sub data => addSub s origin sub data
  | .renameSub sub data => renameSub s origin sub data
  | .removeSub sub => removeSub s origin sub
  | .quitSub => quitSub s origin

/-- The states reached from genesis by any sequence of calls, failed ones included. -/
inductive Reachable : State cfg → Prop
  | genesis (free : AccountId → ℕ) : Reachable (genesis cfg free)
  | step {s : State cfg} (origin : Origin AccountId) (call : Call cfg) :
      Reachable s → Reachable (dispatch s origin call).1

def applyCalls (s : State cfg) (calls : List (Origin AccountId × Call cfg)) : State cfg :=
  calls.foldl (fun s c => (dispatch s c.1 c.2).1) s

theorem Reachable.applyCalls {s : State cfg} (h : Reachable s)
    (calls : List (Origin AccountId × Call cfg)) : Reachable (applyCalls s calls) := by
  induction calls generalizing s with
  | nil => exact h
  | cons c cs ih => exact ih (Reachable.step c.1 c.2 h)

/-! ## The mock runtime of the pallet's tests -/

/-- Deposits of 10, at most two subs, two extra fields and twenty registrars; `RegistrarOrigin`
is root or account 1 and `ForceOrigin` root or account 2. -/
def mockConfig : Config ℕ where
  basicDeposit := 10
  fieldDeposit := 10
  subAccountDeposit := 10
  maxSubAccounts := 2
  maxAdditionalFields := 2
  maxRegistrars := 20
  registrarOrigin o := decide (o = .root) || decide (o = .signed 1)
  forceOrigin o := decide (o = .root) || decide (o = .signed 2)

def mockEndowment (a : ℕ) : ℕ :=
  if a = 1 ∨ a = 2 ∨ a = 3 then 10 else if a = 10 ∨ a = 20 ∨ a = 30 then 100 else 0

def emptyInfo : IdentityInfo mockConfig.maxAdditionalFields :=
  ⟨default, .none, .none, .none, .none, .none, none, .none, .none⟩

def duplicateSubs : List (Origin ℕ × Call mockConfig) :=
  [(.signed 10, .setIdentity emptyInfo), (.signed 10, .setSubs [(1, .none), (1, .none)])]

def distinctSubs : List (Origin ℕ × Call mockConfig) :=
  [(.signed 10, .setIdentity emptyInfo), (.signed 10, .setSubs [(1, .none), (2, .none)])]

def duplicateSubsState : State mockConfig :=
  applyCalls (genesis mockConfig mockEndowment) duplicateSubs

theorem duplicateSubsState_reachable : Reachable duplicateSubsState :=
  (Reachable.genesis mockEndowment).applyCalls duplicateSubs

end ZeroNet.Identity
