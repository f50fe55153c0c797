import ZeroNet.IdentityPallet

/-!
# What each call of the identity pallet does

For every dispatchable, one lemma on a successful call, giving the checks it passed and the
state it leaves, and one on a failed call, showing that the call wrote nothing, except for the
`SubsOf::take` that `clear_identity` and `kill_identity` make before their `NotNamed` check.
The lemmas on the judgement list and on the bulk `SuperOf` writes come after them. The
invariant modules use these lemmas and never unfold a call.
-/

namespace ZeroNet.Identity

variable {AccountId : Type} [DecidableEq AccountId] {cfg : Config AccountId}
  {s : State cfg} {origin : Origin AccountId}

omit [DecidableEq AccountId] in
@[simp] theorem ensureSigned_eq_ok {who : AccountId} :
    ensureSigned origin = .ok who ↔ origin = .signed who := by
  cases origin <;> simp [ensureSigned]

omit [DecidableEq AccountId] in
theorem ensureSigned_eq_error {e : DispatchError} (h : ensureSigned origin = .error e) :
    e = .badOrigin := by
  cases origin <;> simp_all [ensureSigned]

omit [DecidableEq AccountId] in
theorem addRegistrar_ok {account : AccountId} (h : (addRegistrar s origin account).2 = .ok ()) :
    cfg.registrarOrigin origin ∧ ∃ registrars,
      s.registrars.tryPush (some ⟨account, 0, default⟩) = some registrars ∧
      (addRegistrar s origin account).1 = { s with registrars }.depositEvent
        (.registrarAdded (UInt32.ofNat (registrars.length - 1))) := by
  revert h
  unfold addRegistrar
  split_ifs with horigin
  · split
    · rename_i registrars hpush
      exact fun _ => ⟨horigin, registrars, hpush, rfl⟩
    · simp
  · simp

theorem setIdentity_ok {info : IdentityInfo cfg.maxAdditionalFields}
    (h : (setIdentity s origin info).2 = .ok ()) :
    ∃ sender balances, origin = .signed sender ∧
      info.additional.length ≤ cfg.maxAdditionalFields ∧
      s.balances.reserveDelta sender (withInfo (s.identityOf sender) info).deposit
        (cfg.basicDeposit + info.additional.length * cfg.fieldDeposit) = some balances ∧
      (setIdentity s origin info).1 =
        { s with
          balances
          identityOf := Function.update s.identityOf sender
            (some { (withInfo (s.identityOf sender) info) with
              deposit := cfg.basicDeposit + info.additional.length * cfg.fieldDeposit }) }.depositEvent
          (.identitySet sender) := by
  revert h
  unfold setIdentity
  split
  · simp
  · rename_i sender horigin
    dsimp only
    split_ifs with hfields
    · split
      · simp
      · rename_i balances hdelta
        exact fun _ => ⟨sender, balances, ensureSigned_eq_ok.1 horigin, hfields, hdelta, rfl⟩
    · simp

theorem setSubs_ok {subs : List (AccountId × Data)} (h : (setSubs s origin subs).2 = .ok ()) :
    ∃ sender balances, origin = .signed sender ∧ (s.identityOf sender).isSome ∧
      ((subs.filterMap fun i => s.superOf i.1).all fun i => decide (i.1 = sender)) ∧
      s.balances.reserveDelta sender (s.subsOf sender).1 (cfg.subAccountDeposit * subs.length) =
        some balances ∧
      ∃ ids : BoundedVec AccountId cfg.maxSubAccounts, ids.toList = subs.map Prod.fst ∧
        (setSubs s origin subs).1 =
          { s with
            balances
            superOf := insertSupers (removeSupers s.superOf (s.subsOf sender).2.toList) sender subs
            subsOf := Function.update s.subsOf sender
              (if ids.toList.isEmpty then (0, default)
              else (cfg.subAccountDeposit * subs.length, ids)) } := by
  revert h
  unfold setSubs
  split
  · simp
  · rename_i sender horigin
    dsimp only
    split
    · rename_i hid
      split
      · rename_i hlen
        split
        · rename_i hother
          split
          · simp
          · rename_i balances hdelta
            exact fun _ => ⟨sender, balances, ensureSigned_eq_ok.1 horigin, hid, hother, hdelta,
              ⟨subs.map Prod.fst, by simpa using hlen⟩, rfl, rfl⟩
        · simp
      · simp
    · simp

theorem clearIdentity_ok (h : (clearIdentity s origin).2 = .ok ()) :
    ∃ sender id, origin = .signed sender ∧ s.identityOf sender = some id ∧
      (clearIdentity s origin).1 =
        { s with
          identityOf := Function.update s.identityOf sender none
          superOf := removeSupers s.superOf (s.subsOf sender).2.toList
          subsOf := Function.update s.subsOf sender (0, default)
          balances := (s.balances.unreserve sender
            (id.totalDeposit + (s.subsOf sender).1)).1 }.depositEvent
          (.identityCleared sender (id.totalDeposit + (s.subsOf sender).1)) := by
  revert h
  unfold clearIdentity
  split
  · simp
  · rename_i sender horigin
    dsimp only
    split
    · simp
    · rename_i id hid
      exact fun _ => ⟨sender, id, ensureSigned_eq_ok.1 horigin, hid, rfl⟩

theorem requestJudgement_ok {regIndex : RegistrarIndex} {maxFee : ℕ}
    (h : (requestJudgement s origin regIndex maxFee).2 = .ok ()) :
    ∃ sender registrar id js balances, origin = .signed sender ∧
      registrarAt s regIndex = some registrar ∧ registrar.fee ≤ maxFee ∧
      s.identityOf sender = some id ∧
      requestedJudgements id.judgements regIndex (regIndex, .feePaid registrar.fee) = .ok js ∧
      s.balances.reserve sender registrar.fee = some balances ∧
      (requestJudgement s origin regIndex maxFee).1 =
        { s with
          balances
          identityOf := Function.update s.identityOf sender
            (some { id with judgements := js }) }.depositEvent
          (.judgementRequested sender regIndex) := by
  revert h
  unfold requestJudgement
  split
  · simp
  · rename_i sender horigin
    dsimp only
    split
    · simp
    · rename_i registrar hreg
      split_ifs with hfee
      · split
        · simp
        · rename_i id hid
          split
          · simp
          · rename_i js hjs
            split
            · simp
            · rename_i balances hres
              exact fun _ => ⟨sender, registrar, id, js, balances, ensureSigned_eq_ok.1 horigin,
                hreg, hfee, hid, hjs, hres, rfl⟩
      · simp

theorem cancelRequest_ok {regIndex : RegistrarIndex}
    (h : (cancelRequest s origin regIndex).2 = .ok ()) :
    ∃ sender id fee js, origin = .signed sender ∧ s.identityOf sender = some id ∧
      cancelledJudgements id.judgements regIndex = .ok (fee, js) ∧
      (cancelRequest s origin regIndex).1 =
        { s with
          balances := (s.balances.unreserve sender fee).1
          identityOf := Function.update s.identityOf sender
            (some { id with judgements := js }) }.depositEvent
          (.judgementUnrequested sender regIndex) := by
  revert h
  unfold cancelRequest
  split
  · simp
  · rename_i sender horigin
    split
    · simp
    · rename_i id hid
      split
      · simp
      · rename_i fee js hjs
        exact fun _ => ⟨sender, id, fee, js, ensureSigned_eq_ok.1 horigin, hid, hjs, rfl⟩

theorem mutateRegistrar_ok {index : RegistrarIndex}
    {update : RegistrarInfo ℕ AccountId → RegistrarInfo ℕ AccountId}
    (h : (mutateRegistrar s origin index update).2 = .ok ()) :
    ∃ who r, origin = .signed who ∧ registrarAt s index = some r ∧ r.account = who ∧
      (mutateRegistrar s origin index update).1 =
        { s with registrars := s.registrars.set index.toNat (some (update r)) } := by
  revert h
  unfold mutateRegistrar
  split
  · simp
  · rename_i who horigin
    split
    · rename_i r hr
      split_ifs with hacc
      · exact fun _ => ⟨who, r, ensureSigned_eq_ok.1 horigin, hr, hacc, rfl⟩
      · simp
    · simp

theorem provideJudgement_ok {regIndex : RegistrarIndex} {target : AccountId}
    {judgement : Judgement ℕ} (h : (provideJudgement s origin regIndex target judgement).2 = .ok ()) :
    ∃ sender r id fee js balances, origin = .signed sender ∧ judgement.hasDeposit = false ∧
      registrarAt s regIndex = some r ∧ r.account = sender ∧ s.identityOf target = some id ∧
      providedJudgements id.judgements regIndex (regIndex, judgement) = .ok (fee, js) ∧
      (fee = none ∧ balances = s.balances ∨
        ∃ f, fee = some f ∧ balances = (s.balances.repatriateReserved target sender f).1) ∧
      (provideJudgement s origin regIndex target judgement).1 =
        { s with
          balances
          identityOf := Function.update s.identityOf target
            (some { id with judgements := js }) }.depositEvent
          (.judgementGiven target regIndex) := by
  revert h
  unfold provideJudgement
  split
  · simp
  · rename_i sender horigin
    split_ifs with hdep
    · simp
    · split
      · rename_i r hr
        split_ifs with hacc
        · split
          · simp
          · rename_i id hid
            split
            · simp
            · rename_i fee js hjs
              intro _
              refine ⟨sender, r, id, fee, js, _, ensureSigned_eq_ok.1 horigin,
                Bool.eq_false_iff.2 hdep, hr, hacc, hid, hjs, ?_, rfl⟩
              cases fee with
              | none => exact .inl ⟨rfl, rfl⟩
              | some f => exact .inr ⟨f, rfl, rfl⟩
        · simp
      · simp

theorem killIdentity_ok {target : AccountId} (h : (killIdentity s origin target).2 = .ok ()) :
    ∃ id, cfg.forceOrigin origin ∧ s.identityOf target = some id ∧
      (killIdentity s origin target).1 =
        { s with
          identityOf := Function.update s.identityOf target none
          superOf := removeSupers s.superOf (s.subsOf target).2.toList
          subsOf := Function.update s.subsOf target (0, default)
          balances := (s.balances.slashReserved target
            (id.totalDeposit + (s.subsOf target).1)).1 }.depositEvent
          (.identityKilled target (id.totalDeposit + (s.subsOf target).1)) := by
  revert h
  unfold killIdentity
  split_ifs with horigin
  · dsimp only
    split
    · simp
    · rename_i id hid
      exact fun _ => ⟨id, horigin, hid, rfl⟩
  · simp

theorem addSub_ok {sub : AccountId} {data : Data} (h : (addSub s origin sub data).2 = .ok ()) :
    ∃ sender balances, origin = .signed sender ∧ (s.identityOf sender).isSome ∧
      s.superOf sub = none ∧ s.balances.reserve sender cfg.subAccountDeposit = some balances ∧
      ∃ subIds : BoundedVec AccountId cfg.maxSubAccounts,
        subIds.toList = (s.subsOf sender).2.toList ++ [sub] ∧
        (addSub s origin sub data).1 =
          { s with
            balances
            superOf := Function.update s.superOf sub (some (sender, data))
            subsOf := Function.update s.subsOf sender
              ((s.subsOf sender).1 + cfg.subAccountDeposit, subIds) }.depositEvent
            (.subIdentityAdded sub sender cfg.subAccountDeposit) := by
  revert h
  unfold addSub
  split
  · simp
  · rename_i sender horigin
    split
    · rename_i hid
      split
      · rename_i hfree
        dsimp only
        split
        · rename_i hlen
          split
          · simp
          · rename_i balances hres
            exact fun _ => ⟨sender, balances, ensureSigned_eq_ok.1 horigin, hid,
              Option.isNone_iff_eq_none.1 hfree, hres, _, rfl, rfl⟩
        · simp
      · simp
    · simp

theorem renameSub_ok {sub : AccountId} {data : Data} (h : (renameSub s origin sub data).2 = .ok ()) :
    ∃ sender, origin = .signed sender ∧ (s.identityOf sender).isSome ∧
      ((s.superOf sub).map fun x => decide (x.1 = sender)).getD false ∧
      (renameSub s origin sub data).1 =
        { s with superOf := Function.update s.superOf sub (some (sender, data)) } := by
  revert h
  unfold renameSub
  split
  · simp
  · rename_i sender horigin
    split_ifs with hid howned
    · exact fun _ => ⟨sender, ensureSigned_eq_ok.1 horigin, hid, howned, rfl⟩
    all_goals simp

theorem removeSub_ok {sub : AccountId} (h : (removeSub s origin sub).2 = .ok ()) :
    ∃ sender name, origin = .signed sender ∧ (s.identityOf sender).isSome ∧
      s.superOf sub = some (sender, name) ∧
      (removeSub s origin sub).1 =
        let released := releaseSub { s with superOf := Function.update s.superOf sub none } sender sub
        { released.1 with
          balances := (released.1.balances.unreserve sender released.2).1 }.depositEvent
          (.subIdentityRemoved sub sender released.2) := by
  revert h
  unfold removeSub
  split
  · simp
  · rename_i sender horigin
    split
    · rename_i hid
      split
      · simp
      · rename_i sup name hsup
        split_ifs with howner
        · subst howner
          exact fun _ => ⟨sup, name, ensureSigned_eq_ok.1 horigin, hid, hsup, rfl⟩
        · simp
    · simp

theorem quitSub_ok (h : (quitSub s origin).2 = .ok ()) :
    ∃ sender sup name, origin = .signed sender ∧ s.superOf sender = some (sup, name) ∧
      (quitSub s origin).1 =
        let released := releaseSub { s with superOf := Function.update s.superOf sender none }
          sup sender
        { released.1 with
          balances := (released.1.balances.repatriateReserved sup sender released.2).1 }.depositEvent
          (.subIdentityRevoked sender sup released.2) := by
  revert h
  unfold quitSub
  split
  · simp
  · rename_i sender horigin
    split
    · simp
    · rename_i sup name hsup
      exact fun _ => ⟨sender, sup, name, ensureSigned_eq_ok.1 horigin, hsup, rfl⟩


/-! ## A failed call writes nothing, except the `SubsOf::take` of `clear_identity` and
`kill_identity` -/

omit [DecidableEq AccountId] in
theorem addRegistrar_error {account : AccountId} {e : DispatchError}
    (h : (addRegistrar s origin account).2 = .error e) : (addRegistrar s origin account).1 = s := by
  revert h
  unfold addRegistrar
  repeat' split
  all_goals simp

theorem setIdentity_error {info : IdentityInfo cfg.maxAdditionalFields} {e : DispatchError}
    (h : (setIdentity s origin info).2 = .error e) : (setIdentity s origin info).1 = s := by
  revert h
  unfold setIdentity
  repeat' (first | split | dsimp only)
  all_goals simp

theorem setSubs_error {subs : List (AccountId × Data)} {e : DispatchError}
    (h : (setSubs s origin subs).2 = .error e) : (setSubs s origin subs).1 = s := by
  revert h
  unfold setSubs
  repeat' (first | split | dsimp only)
  all_goals simp

theorem requestJudgement_error {regIndex : RegistrarIndex} {maxFee : ℕ} {e : DispatchError}
    (h : (requestJudgement s origin regIndex maxFee).2 = .error e) :
    (requestJudgement s origin regIndex maxFee).1 = s := by
  revert h
  unfold requestJudgement
  repeat' (first | split | dsimp only)
  all_goals simp

theorem cancelRequest_error {regIndex : RegistrarIndex} {e : DispatchError}
    (h : (cancelRequest s origin regIndex).2 = .error e) :
    (cancelRequest s origin regIndex).1 = s := by
  revert h
  unfold cancelRequest
  repeat' split
  all_goals simp

theorem mutateRegistrar_error {index : RegistrarIndex}
    {update : RegistrarInfo ℕ AccountId → RegistrarInfo ℕ AccountId} {e : DispatchError}
    (h : (mutateRegistrar s origin index update).2 = .error e) :
    (mutateRegistrar s origin index update).1 = s := by
  revert h
  unfold mutateRegistrar
  repeat' split
  all_goals simp

theorem provideJudgement_error {regIndex : RegistrarIndex} {target : AccountId}
    {judgement : Judgement ℕ} {e : DispatchError}
    (h : (provideJudgement s origin regIndex target judgement).2 = .error e) :
    (provideJudgement s origin regIndex target judgement).1 = s := by
  revert h
  unfold provideJudgement
  repeat' (first | split | dsimp only)
  all_goals simp

theorem addSub_error {sub : AccountId} {data : Data} {e : DispatchError}
    (h : (addSub s origin sub data).2 = .error e) : (addSub s origin sub data).1 = s := by
  revert h
  unfold addSub
  repeat' (first | split | dsimp only)
  all_goals simp

theorem renameSub_error {sub : AccountId} {data : Data} {e : DispatchError}
    (h : (renameSub s origin sub data).2 = .error e) : (renameSub s origin sub data).1 = s := by
  revert h
  unfold renameSub
  repeat' split
  all_goals simp

theorem removeSub_error {sub : AccountId} {e : DispatchError}
    (h : (removeSub s origin sub).2 = .error e) : (removeSub s origin sub).1 = s := by
  revert h
  unfold removeSub
  repeat' (first | split | dsimp only)
  all_goals simp

theorem quitSub_error {e : DispatchError}
    (h : (quitSub s origin).2 = .error e) : (quitSub s origin).1 = s := by
  revert h
  unfold quitSub
  repeat' (first | split | dsimp only)
  all_goals simp

theorem clearIdentity_error {e : DispatchError} (h : (clearIdentity s origin).2 = .error e) :
    (clearIdentity s origin).1 = s ∨
      ∃ sender, s.identityOf sender = none ∧ (clearIdentity s origin).1 = s.takeSubsOf sender := by
  revert h
  unfold clearIdentity
  split
  · simp
  · rename_i sender _
    dsimp only
    split
    · rename_i hid
      exact fun _ => .inr ⟨sender, hid, rfl⟩
    · simp

theorem killIdentity_error {target : AccountId} {e : DispatchError}
    (h : (killIdentity s origin target).2 = .error e) :
    (killIdentity s origin target).1 = s ∨
      s.identityOf target = none ∧ (killIdentity s origin target).1 = s.takeSubsOf target := by
  revert h
  unfold killIdentity
  split_ifs
  · dsimp only
    split
    · rename_i hid
      exact fun _ => .inr ⟨hid, rfl⟩
    · simp
  · simp

/-- A failed call leaves the state as it was, or has only taken the `SubsOf` entry of an
account with no identity. -/
theorem dispatch_error_cases {call : Call cfg} {e : DispatchError}
    (h : (dispatch s origin call).2 = .error e) :
    (dispatch s origin call).1 = s ∨
      ∃ who, s.identityOf who = none ∧ (dispatch s origin call).1 = s.takeSubsOf who := by
  cases call with
  | addRegistrar account => exact .inl (addRegistrar_error h)
  | setIdentity info => exact .inl (setIdentity_error h)
  | setSubs subs => exact .inl (setSubs_error h)
  | clearIdentity => exact clearIdentity_error h
  | requestJudgement regIndex maxFee => exact .inl (requestJudgement_error h)
  | cancelRequest regIndex => exact .inl (cancelRequest_error h)
  | setFee index fee => exact .inl (mutateRegistrar_error h)
  | setAccountId index new => exact .inl (mutateRegistrar_error h)
  | setFields index fields => exact .inl (mutateRegistrar_error h)
  | provideJudgement regIndex target judgement => exact .inl (provideJudgement_error h)
  | killIdentity target =>
    rcases killIdentity_error h with hs | ⟨hid, hs⟩
    · exact .inl hs
    · exact .inr ⟨target, hid, hs⟩
  | addSub sub data => exact .inl (addSub_error h)
  | renameSub sub data => exact .inl (renameSub_error h)
  | removeSub sub => exact .inl (removeSub_error h)
  | quitSub => exact .inl (quitSub_error h)


/-! ## `SubsOf::mutate` of `remove_sub` and `quit_sub` -/

section Released

variable (s : State cfg) (sup sub : AccountId)

@[simp] theorem releaseSub_identityOf : (releaseSub s sup sub).1.identityOf = s.identityOf := rfl
@[simp] theorem releaseSub_superOf : (releaseSub s sup sub).1.superOf = s.superOf := rfl
@[simp] theorem releaseSub_registrars : (releaseSub s sup sub).1.registrars = s.registrars := rfl
@[simp] theorem releaseSub_balances : (releaseSub s sup sub).1.balances = s.balances := rfl
@[simp] theorem releaseSub_subsOf : (releaseSub s sup sub).1.subsOf =
    Function.update s.subsOf sup ((s.subsOf sup).1 - min cfg.subAccountDeposit (s.subsOf sup).1,
      (s.subsOf sup).2.retain fun x => decide (x ≠ sub)) := rfl
@[simp] theorem releaseSub_released :
    (releaseSub s sup sub).2 = min cfg.subAccountDeposit (s.subsOf sup).1 := rfl

end Released

/-! ## The calls that leave a map alone -/

def Call.writesRegistrarsOnly : Call cfg → Bool
  | .addRegistrar _ | .setFee _ _ | .setAccountId _ _ | .setFields _ _ => true
  | _ => false

theorem dispatch_of_writesRegistrarsOnly {call : Call cfg}
    (h : (dispatch s origin call).2 = .ok ()) (hcall : call.writesRegistrarsOnly = true) :
    ∃ registrars events, s.registrars.toList.length ≤ registrars.toList.length ∧
      (dispatch s origin call).1 = { s with registrars, events } := by
  cases call with
  | addRegistrar account =>
    obtain ⟨-, registrars, hpush, heq⟩ := addRegistrar_ok h
    refine ⟨registrars, _, ?_, by rw [dispatch, heq]; rfl⟩
    simp [(BoundedVec.tryPush_eq_some.1 hpush).2]
  | setFee index fee =>
    obtain ⟨who, r, -, -, -, heq⟩ := mutateRegistrar_ok h
    refine ⟨_, s.events, ?_, by rw [dispatch, setFee, heq]⟩
    simp
  | setAccountId index new =>
    obtain ⟨who, r, -, -, -, heq⟩ := mutateRegistrar_ok h
    refine ⟨_, s.events, ?_, by rw [dispatch, setAccountId, heq]⟩
    simp
  | setFields index fields =>
    obtain ⟨who, r, -, -, -, heq⟩ := mutateRegistrar_ok h
    refine ⟨_, s.events, ?_, by rw [dispatch, setFields, heq]⟩
    simp
  | setIdentity | setSubs | clearIdentity | requestJudgement | cancelRequest | provideJudgement
  | killIdentity | addSub | renameSub | removeSub | quitSub => cases hcall

def Call.storesRegistration : Call cfg → Bool
  | .setIdentity _ | .requestJudgement _ _ | .cancelRequest _ | .provideJudgement _ _ _ => true
  | _ => false

theorem dispatch_of_storesRegistration {call : Call cfg}
    (h : (dispatch s origin call).2 = .ok ()) (hcall : call.storesRegistration = true) :
    ∃ who r balances events, (dispatch s origin call).1 =
      { s with identityOf := Function.update s.identityOf who (some r), balances, events } := by
  cases call with
  | setIdentity info =>
    obtain ⟨sender, balances, -, -, -, heq⟩ := setIdentity_ok h
    exact ⟨sender, _, balances, _, by rw [dispatch, heq]; rfl⟩
  | requestJudgement regIndex maxFee =>
    obtain ⟨sender, registrar, id, js, balances, -, -, -, -, -, -, heq⟩ := requestJudgement_ok h
    exact ⟨sender, _, balances, _, by rw [dispatch, heq]; rfl⟩
  | cancelRequest regIndex =>
    obtain ⟨sender, id, fee, js, -, -, -, heq⟩ := cancelRequest_ok h
    exact ⟨sender, _, _, _, by rw [dispatch, heq]; rfl⟩
  | provideJudgement regIndex target judgement =>
    obtain ⟨sender, r, id, fee, js, balances, -, -, -, -, -, -, -, heq⟩ := provideJudgement_ok h
    exact ⟨target, _, balances, _, by rw [dispatch, heq]; rfl⟩
  | addRegistrar | setSubs | clearIdentity | setFee | setAccountId | setFields | killIdentity
  | addSub | renameSub | removeSub | quitSub => cases hcall

def Call.writesIdentity : Call cfg → Bool
  | .setIdentity _ | .clearIdentity | .requestJudgement _ _ | .cancelRequest _
  | .provideJudgement _ _ _ | .killIdentity _ => true
  | _ => false

theorem dispatch_identityOf_eq {call : Call cfg} (h : (dispatch s origin call).2 = .ok ())
    (hcall : call.writesIdentity = false) :
    (dispatch s origin call).1.identityOf = s.identityOf := by
  cases call with
  | addRegistrar _ | setFee _ _ | setAccountId _ _ | setFields _ _ =>
    obtain ⟨registrars, events, -, heq⟩ := dispatch_of_writesRegistrarsOnly h rfl
    rw [heq]
  | setSubs subs =>
    obtain ⟨sender, balances, -, -, -, -, ids, -, heq⟩ := setSubs_ok h
    rw [dispatch, heq]
  | addSub sub data =>
    obtain ⟨sender, balances, -, -, -, -, subIds, -, heq⟩ := addSub_ok h
    rw [dispatch, heq]; rfl
  | renameSub sub data =>
    obtain ⟨sender, -, -, -, heq⟩ := renameSub_ok h
    rw [dispatch, heq]
  | removeSub sub =>
    obtain ⟨sender, name, -, -, -, heq⟩ := removeSub_ok h
    rw [dispatch, heq]; rfl
  | quitSub =>
    obtain ⟨sender, sup, name, -, -, heq⟩ := quitSub_ok h
    rw [dispatch, heq]; rfl
  | setIdentity | clearIdentity | requestJudgement | cancelRequest | provideJudgement
  | killIdentity => cases hcall

def Call.writesSubs : Call cfg → Bool
  | .setSubs _ | .clearIdentity | .killIdentity _ | .addSub _ _ | .removeSub _ | .quitSub => true
  | _ => false

theorem dispatch_subsOf_eq {call : Call cfg} (h : (dispatch s origin call).2 = .ok ())
    (hcall : call.writesSubs = false) :
    (dispatch s origin call).1.subsOf = s.subsOf := by
  cases call with
  | addRegistrar _ | setFee _ _ | setAccountId _ _ | setFields _ _ =>
    obtain ⟨registrars, events, -, heq⟩ := dispatch_of_writesRegistrarsOnly h rfl
    rw [heq]
  | setIdentity _ | requestJudgement _ _ | cancelRequest _ | provideJudgement _ _ _ =>
    obtain ⟨who, r, balances, events, heq⟩ := dispatch_of_storesRegistration h rfl
    rw [heq]
  | renameSub sub data =>
    obtain ⟨sender, -, -, -, heq⟩ := renameSub_ok h
    rw [dispatch, heq]
  | setSubs | clearIdentity | killIdentity | addSub | removeSub | quitSub => cases hcall

def Call.writesSuper : Call cfg → Bool
  | .setSubs _ | .clearIdentity | .killIdentity _ | .addSub _ _ | .renameSub _ _ | .removeSub _
  | .quitSub => true
  | _ => false

theorem dispatch_superOf_eq {call : Call cfg} (h : (dispatch s origin call).2 = .ok ())
    (hcall : call.writesSuper = false) :
    (dispatch s origin call).1.superOf = s.superOf := by
  cases call with
  | addRegistrar _ | setFee _ _ | setAccountId _ _ | setFields _ _ =>
    obtain ⟨registrars, events, -, heq⟩ := dispatch_of_writesRegistrarsOnly h rfl
    rw [heq]
  | setIdentity _ | requestJudgement _ _ | cancelRequest _ | provideJudgement _ _ _ =>
    obtain ⟨who, r, balances, events, heq⟩ := dispatch_of_storesRegistration h rfl
    rw [heq]
  | setSubs | clearIdentity | killIdentity | addSub | renameSub | removeSub | quitSub =>
    cases hcall

theorem dispatch_registrars_eq {call : Call cfg} (h : (dispatch s origin call).2 = .ok ())
    (hcall : call.writesRegistrarsOnly = false) :
    (dispatch s origin call).1.registrars = s.registrars := by
  cases call with
  | setIdentity _ | requestJudgement _ _ | cancelRequest _ | provideJudgement _ _ _ =>
    obtain ⟨who, r, balances, events, heq⟩ := dispatch_of_storesRegistration h rfl
    rw [heq]
  | setSubs subs =>
    obtain ⟨sender, balances, -, -, -, -, ids, -, heq⟩ := setSubs_ok h
    rw [dispatch, heq]
  | clearIdentity =>
    obtain ⟨sender, id, -, -, heq⟩ := clearIdentity_ok h
    rw [dispatch, heq]; rfl
  | killIdentity target =>
    obtain ⟨id, -, -, heq⟩ := killIdentity_ok h
    rw [dispatch, heq]; rfl
  | addSub sub data =>
    obtain ⟨sender, balances, -, -, -, -, subIds, -, heq⟩ := addSub_ok h
    rw [dispatch, heq]; rfl
  | renameSub sub data =>
    obtain ⟨sender, -, -, -, heq⟩ := renameSub_ok h
    rw [dispatch, heq]
  | removeSub sub =>
    obtain ⟨sender, name, -, -, -, heq⟩ := removeSub_ok h
    rw [dispatch, heq]; rfl
  | quitSub =>
    obtain ⟨sender, sup, name, -, -, heq⟩ := quitSub_ok h
    rw [dispatch, heq]; rfl
  | addRegistrar | setFee | setAccountId | setFields => cases hcall

/-! ## The judgement list operations -/

section Judgements

variable {js js' : BoundedVec (RegistrarIndex × Judgement ℕ) cfg.maxRegistrars}
  {regIndex : RegistrarIndex} {item : RegistrarIndex × Judgement ℕ}

omit [DecidableEq AccountId] in
theorem requestedJudgements_ok (h : requestedJudgements js regIndex item = .ok js') :
    (∃ i, ∃ hi : i < js.toList.length, searchJudgements js.toList regIndex = .ok i ∧
      js.toList[i].2.isSticky = false ∧ js'.toList = js.toList.set i item) ∨
    ∃ i, searchJudgements js.toList regIndex = .error i ∧
      js'.toList = js.toList.insertIdx i item := by
  revert h
  unfold requestedJudgements
  split
  · rename_i i hsearch
    split_ifs with hsticky
    · simp
    · rintro ⟨⟩
      exact .inl ⟨i, searchJudgements_ok hsearch, hsearch, by simpa using hsticky, rfl⟩
  · rename_i i hsearch
    split
    · rename_i w hins
      rintro ⟨⟩
      exact .inr ⟨i, hsearch, (BoundedVec.tryInsert_eq_some.1 hins).2⟩
    · simp

omit [DecidableEq AccountId] in
theorem requestedJudgements_error {e : DispatchError}
    (h : requestedJudgements js regIndex item = .error e) :
    e = .module .stickyJudgement ∨ ∃ i, searchJudgements js.toList regIndex = .error i ∧
      cfg.maxRegistrars ≤ js.toList.length ∧ e = .module .tooManyRegistrars := by
  revert h
  unfold requestedJudgements
  split
  · split_ifs
    · rintro ⟨⟩
      exact .inl rfl
    · simp
  · rename_i i hsearch
    split
    · simp
    · rename_i hins
      rintro ⟨⟩
      exact .inr ⟨i, hsearch, BoundedVec.tryInsert_eq_none.1 hins, rfl⟩

omit [DecidableEq AccountId] in
theorem cancelledJudgements_ok {fee : ℕ} (h : cancelledJudgements js regIndex = .ok (fee, js')) :
    ∃ pos, ∃ hpos : pos < js.toList.length, searchJudgements js.toList regIndex = .ok pos ∧
      js.toList[pos].2 = .feePaid fee ∧ js'.toList = js.toList.eraseIdx pos := by
  revert h
  unfold cancelledJudgements
  split
  · simp
  · rename_i pos hsearch
    split
    · rename_i f hf
      rintro ⟨⟩
      exact ⟨pos, searchJudgements_ok hsearch, hsearch, hf, rfl⟩
    · simp

omit [DecidableEq AccountId] in
theorem providedJudgements_ok {fee : Option ℕ}
    (h : providedJudgements js regIndex item = .ok (fee, js')) :
    (∃ pos, ∃ hpos : pos < js.toList.length, searchJudgements js.toList regIndex = .ok pos ∧
      (∀ f, fee = some f ↔ js.toList[pos].2 = .feePaid f) ∧
      js'.toList = js.toList.set pos item) ∨
    ∃ pos, searchJudgements js.toList regIndex = .error pos ∧ fee = none ∧
      js'.toList = js.toList.insertIdx pos item := by
  revert h
  unfold providedJudgements
  split
  · rename_i pos hsearch
    rintro ⟨⟩
    refine .inl ⟨pos, searchJudgements_ok hsearch, hsearch, fun f => ?_, rfl⟩
    split <;> simp_all
  · rename_i pos hsearch
    split
    · rename_i w hins
      rintro ⟨⟩
      exact .inr ⟨pos, hsearch, rfl, (BoundedVec.tryInsert_eq_some.1 hins).2⟩
    · simp

omit [DecidableEq AccountId] in
theorem providedJudgements_error {e : DispatchError}
    (h : providedJudgements js regIndex item = .error e) :
    ∃ pos, searchJudgements js.toList regIndex = .error pos ∧
      cfg.maxRegistrars ≤ js.toList.length ∧ e = .module .tooManyRegistrars := by
  revert h
  unfold providedJudgements
  split
  · simp
  · rename_i pos hsearch
    split
    · simp
    · rename_i hins
      rintro ⟨⟩
      exact ⟨pos, hsearch, BoundedVec.tryInsert_eq_none.1 hins, rfl⟩

end Judgements

/-! ## `SuperOf` after the bulk writes of `set_subs` and `clear_identity` -/

section Supers

variable {m : AccountId → Option (AccountId × Data)}

@[simp] theorem removeSupers_apply (ids : List AccountId) (b : AccountId) :
    removeSupers m ids b = if b ∈ ids then none else m b := by
  induction ids generalizing m with
  | nil => simp [removeSupers]
  | cons x xs ih =>
    have hstep : removeSupers m (x :: xs) = removeSupers (Function.update m x none) xs := rfl
    rw [hstep, ih]
    by_cases hb : b = x
    · subst hb; simp
    · simp [hb]

theorem insertSupers_of_not_mem {sender b : AccountId} {subs : List (AccountId × Data)}
    (hb : b ∉ subs.map Prod.fst) : insertSupers m sender subs b = m b := by
  induction subs generalizing m with
  | nil => rfl
  | cons p ps ih =>
    have hstep : insertSupers m sender (p :: ps) =
        insertSupers (Function.update m p.1 (some (sender, p.2))) sender ps := rfl
    simp only [List.map_cons, List.mem_cons, not_or] at hb
    rw [hstep, ih hb.2, Function.update_of_ne hb.1]

theorem insertSupers_of_mem (m : AccountId → Option (AccountId × Data)) {sender b : AccountId}
    {subs : List (AccountId × Data)} (hb : b ∈ subs.map Prod.fst) :
    ∃ name, insertSupers m sender subs b = some (sender, name) := by
  induction subs generalizing m with
  | nil => simp at hb
  | cons p ps ih =>
    have hstep : insertSupers m sender (p :: ps) =
        insertSupers (Function.update m p.1 (some (sender, p.2))) sender ps := rfl
    rw [hstep]
    by_cases hps : b ∈ ps.map Prod.fst
    · exact ih _ hps
    · have hp : b = p.1 := by simpa [hps] using hb
      subst hp
      exact ⟨p.2, by rw [insertSupers_of_not_mem hps, Function.update_self]⟩

end Supers

end ZeroNet.Identity
