import ZeroNet.IdentityJudgements
import Mathlib.Algebra.Order.BigOperators.Group.List

/-!
# Deposits are backed by reserves

With the pallet as the only user of reserves, the reserved balance of every account is
exactly what the pallet records for it: the `total_deposit` of its registration (the identity
deposit and the fee of every `FeePaid` judgement) and its sub-account deposit. Each call moves
reserves by the amount it changes the records by: `set_identity` and `set_subs` re-price a
deposit, a request locks a fee and a cancellation or a judgement releases it, the sub calls
move at most one `SubAccountDeposit`, and `clear_identity` and `kill_identity` release or slash
the whole record.
-/

namespace ZeroNet.Identity

variable {AccountId : Type} [DecidableEq AccountId] {cfg : Config AccountId}
  {s : State cfg} {origin : Origin AccountId}

def recordedDeposit (s : State cfg) (a : AccountId) : ℕ :=
  ((s.identityOf a).map Registration.totalDeposit).getD 0 + (s.subsOf a).1

/-- Every account's reserved balance is its recorded deposit. -/
def DepositsBacked (s : State cfg) : Prop :=
  ∀ a, s.balances.reserved a = recordedDeposit s a

omit [DecidableEq AccountId] in
theorem depositsBacked_genesis (free : AccountId → ℕ) : DepositsBacked (genesis cfg free) :=
  fun _ => rfl

omit [DecidableEq AccountId] in
theorem recordedDeposit_some {a : AccountId} {r : Reg cfg} (h : s.identityOf a = some r) :
    recordedDeposit s a = r.deposit + feesOf r.judgements.toList + (s.subsOf a).1 := by
  simp [recordedDeposit, h, Registration.totalDeposit]

/-! ## The fees held by the judgement lists after each operation -/

section Fees

variable {js js' : BoundedVec (RegistrarIndex × Judgement ℕ) cfg.maxRegistrars}
  {regIndex : RegistrarIndex} {item : RegistrarIndex × Judgement ℕ}

omit [DecidableEq AccountId] in
theorem withInfo_deposit_add_fees (o : Option (Reg cfg)) (info : IdentityInfo cfg.maxAdditionalFields) :
    (withInfo o info).deposit + feesOf (withInfo o info).judgements.toList =
      (o.map Registration.totalDeposit).getD 0 := by
  cases o with
  | none => rfl
  | some id =>
    simp only [withInfo, BoundedVec.retain_toList, feesOf_filter_isSticky, Option.map_some,
      Option.getD_some, Registration.totalDeposit]

omit [DecidableEq AccountId] in
theorem requestedJudgements_fees (h : requestedJudgements js regIndex item = .ok js') :
    feesOf js'.toList = feesOf js.toList + item.2.paidFee := by
  rcases requestedJudgements_ok h with ⟨i, hi, -, hnot, hjs'⟩ | ⟨i, hsearch, hjs'⟩
  · have hset := feesOf_set js.toList hi item
    rw [Judgement.paidFee_of_not_isSticky hnot] at hset
    rw [hjs']
    omega
  · rw [hjs', feesOf_insertIdx _ (Slice.binarySearchBy_error_le hsearch)]

omit [DecidableEq AccountId] in
theorem cancelledJudgements_fees {fee : ℕ} (h : cancelledJudgements js regIndex = .ok (fee, js')) :
    feesOf js'.toList + fee = feesOf js.toList := by
  obtain ⟨pos, hpos, -, hpaid, hjs'⟩ := cancelledJudgements_ok h
  have herase := feesOf_eraseIdx js.toList hpos
  rw [hpaid] at herase
  rw [hjs']
  exact herase

omit [DecidableEq AccountId] in
theorem providedJudgements_fees {fee : Option ℕ}
    (h : providedJudgements js regIndex item = .ok (fee, js')) :
    feesOf js'.toList + fee.getD 0 = feesOf js.toList + item.2.paidFee := by
  rcases providedJudgements_ok h with ⟨pos, hpos, -, hfee, hjs'⟩ | ⟨pos, hsearch, rfl, hjs'⟩
  · have hset := feesOf_set js.toList hpos item
    have hpaid : js.toList[pos].2.paidFee = fee.getD 0 := by
      cases fee with
      | none =>
        cases hj : js.toList[pos].2 <;> simp_all [Judgement.paidFee]
      | some f => simp [(hfee f).1 rfl, Judgement.paidFee]
    rw [hjs']
    omega
  · rw [hjs', feesOf_insertIdx _ (Slice.binarySearchBy_error_le hsearch)]
    rfl

end Fees

/-! ## Each call keeps the deposits backed -/

namespace DepositsBacked

variable {s' : State cfg}

theorem of_eq_off (h : DepositsBacked s) (who : AccountId)
    (hres : ∀ a, a ≠ who → s'.balances.reserved a = s.balances.reserved a)
    (hid : ∀ a, a ≠ who → s'.identityOf a = s.identityOf a)
    (hsubs : ∀ a, a ≠ who → (s'.subsOf a).1 = (s.subsOf a).1)
    (hwho : s'.balances.reserved who = recordedDeposit s' who) : DepositsBacked s' := by
  intro a
  by_cases ha : a = who
  · subst ha
    exact hwho
  · rw [hres a ha, h a]
    simp only [recordedDeposit, hid a ha, hsubs a ha]

omit [DecidableEq AccountId] in
theorem of_eq (h : DepositsBacked s) (hres : s'.balances.reserved = s.balances.reserved)
    (hid : s'.identityOf = s.identityOf) (hsubs : s'.subsOf = s.subsOf) : DepositsBacked s' := by
  intro a
  rw [hres, h a]
  simp only [recordedDeposit, hid, hsubs]

theorem setIdentity_step (h : DepositsBacked s) {info : IdentityInfo cfg.maxAdditionalFields}
    (hok : (setIdentity s origin info).2 = .ok ()) : DepositsBacked (setIdentity s origin info).1 := by
  obtain ⟨sender, balances, -, -, hdelta, heq⟩ := setIdentity_ok hok
  have hold := withInfo_deposit_add_fees (s.identityOf sender) info
  have hwho : s.balances.reserved sender =
      (feesOf (withInfo (s.identityOf sender) info).judgements.toList + (s.subsOf sender).1) +
        (withInfo (s.identityOf sender) info).deposit := by
    rw [h sender, recordedDeposit, ← hold]
    omega
  have hres := Reservable.Ledger.reserved_reserveDelta_of_eq hdelta hwho
  rw [heq]
  refine h.of_eq_off sender (fun a ha => ?_) (fun a ha => ?_) (fun a ha => rfl) ?_
  · simp [hres a, ha]
  · simp [Function.update_of_ne ha]
  · simp only [State.depositEvent_balances, State.depositEvent_identityOf, hres sender, if_true,
      recordedDeposit, Function.update_self, Option.map_some, Option.getD_some,
      Registration.totalDeposit, State.depositEvent_subsOf]
    omega

theorem setSubs_step (h : DepositsBacked s) {subs : List (AccountId × Data)}
    (hok : (setSubs s origin subs).2 = .ok ()) : DepositsBacked (setSubs s origin subs).1 := by
  obtain ⟨sender, balances, -, -, -, hdelta, ids, hids, heq⟩ := setSubs_ok hok
  have hentry : (if ids.toList.isEmpty then ((0 : ℕ), (default : BoundedVec _ _))
      else (cfg.subAccountDeposit * subs.length, ids)).1 = cfg.subAccountDeposit * subs.length := by
    split_ifs with hempty
    · rw [List.isEmpty_iff.1 hempty, eq_comm, List.map_eq_nil_iff] at hids
      simp [hids]
    · rfl
  have hres := Reservable.Ledger.reserved_reserveDelta_of_eq hdelta (h sender)
  rw [heq]
  refine h.of_eq_off sender (fun a ha => by simp [hres a, ha]) (fun a ha => rfl)
    (fun a ha => by simp [Function.update_of_ne ha]) ?_
  simp only [hres sender, if_true, recordedDeposit, Function.update_self, hentry]

theorem clear (h : DepositsBacked s) {who : AccountId} {id : Reg cfg}
    (hwho : s.identityOf who = some id)
    (hres : ∀ a, s'.balances.reserved a =
      if a = who then s.balances.reserved who - (id.totalDeposit + (s.subsOf who).1)
      else s.balances.reserved a)
    (hid : s'.identityOf = Function.update s.identityOf who none)
    (hsubs : s'.subsOf = Function.update s.subsOf who (0, default)) : DepositsBacked s' := by
  refine h.of_eq_off who (fun a ha => by simp [hres a, ha])
    (fun a ha => by simp [hid, Function.update_of_ne ha])
    (fun a ha => by simp [hsubs, Function.update_of_ne ha]) ?_
  have hback := h who
  rw [recordedDeposit_some hwho] at hback
  simp only [hres who, if_true, recordedDeposit, hid, hsubs, Function.update_self, Option.map_none,
    Option.getD_none, Registration.totalDeposit]
  omega

theorem release (h : DepositsBacked s) (sup : AccountId)
    (hres : ∀ a, s'.balances.reserved a =
      if a = sup then s.balances.reserved sup - min cfg.subAccountDeposit (s.subsOf sup).1
      else s.balances.reserved a)
    (hid : s'.identityOf = s.identityOf)
    (hsubs : ∀ a, (s'.subsOf a).1 =
      if a = sup then (s.subsOf sup).1 - min cfg.subAccountDeposit (s.subsOf sup).1
      else (s.subsOf a).1) :
    DepositsBacked s' := by
  refine h.of_eq_off sup (fun a ha => by simp [hres a, ha]) (fun a _ => by rw [hid])
    (fun a ha => by simp [hsubs a, ha]) ?_
  have hback := h sup
  simp only [recordedDeposit] at hback
  simp only [hres sup, if_true, recordedDeposit, hid, hsubs sup]
  omega

theorem requestJudgement_step (h : DepositsBacked s) {regIndex : RegistrarIndex} {maxFee : ℕ}
    (hok : (requestJudgement s origin regIndex maxFee).2 = .ok ()) :
    DepositsBacked (requestJudgement s origin regIndex maxFee).1 := by
  obtain ⟨sender, registrar, id, js, balances, -, -, -, hid, hjs, hreserve, heq⟩ :=
    requestJudgement_ok hok
  have hfees : feesOf js.toList = feesOf id.judgements.toList + registrar.fee :=
    requestedJudgements_fees hjs
  have hback := h sender
  rw [recordedDeposit_some hid] at hback
  rw [heq]
  refine h.of_eq_off sender
    (fun a ha => by simp [Reservable.Ledger.reserved_reserve hreserve a, ha])
    (fun a ha => by simp [Function.update_of_ne ha]) (fun a _ => rfl) ?_
  simp only [State.depositEvent_balances, Reservable.Ledger.reserved_reserve hreserve, if_true,
    recordedDeposit, State.depositEvent_identityOf, Function.update_self, Option.map_some,
    Option.getD_some, Registration.totalDeposit, State.depositEvent_subsOf, hfees]
  omega

theorem cancelRequest_step (h : DepositsBacked s) {regIndex : RegistrarIndex}
    (hok : (cancelRequest s origin regIndex).2 = .ok ()) :
    DepositsBacked (cancelRequest s origin regIndex).1 := by
  obtain ⟨sender, id, fee, js, -, hid, hjs, heq⟩ := cancelRequest_ok hok
  have hfees := cancelledJudgements_fees hjs
  have hback := h sender
  rw [recordedDeposit_some hid] at hback
  rw [heq]
  refine h.of_eq_off sender (fun a ha => by simp [ha])
    (fun a ha => by simp [Function.update_of_ne ha]) (fun a _ => rfl) ?_
  simp only [State.depositEvent_balances, Reservable.Ledger.reserved_unreserve, if_true,
    recordedDeposit, State.depositEvent_identityOf, Function.update_self, Option.map_some,
    Option.getD_some, Registration.totalDeposit, State.depositEvent_subsOf]
  omega

theorem provideJudgement_step (h : DepositsBacked s) {regIndex : RegistrarIndex}
    {target : AccountId} {judgement : Judgement ℕ}
    (hok : (provideJudgement s origin regIndex target judgement).2 = .ok ()) :
    DepositsBacked (provideJudgement s origin regIndex target judgement).1 := by
  obtain ⟨sender, r, id, fee, js, balances, -, hdep, -, -, hid, hjs, hbal, heq⟩ :=
    provideJudgement_ok hok
  have hfees := providedJudgements_fees hjs
  rw [Judgement.paidFee_of_hasDeposit_false hdep] at hfees
  have hres : ∀ a, balances.reserved a =
      if a = target then s.balances.reserved target - fee.getD 0 else s.balances.reserved a := by
    intro a
    rcases hbal with ⟨rfl, rfl⟩ | ⟨f, rfl, rfl⟩
    · split_ifs with ha
      · subst ha; rfl
      · rfl
    · exact Reservable.Ledger.reserved_repatriateReserved _ _ _ a f
  have hback := h target
  rw [recordedDeposit_some hid] at hback
  rw [heq]
  refine h.of_eq_off target (fun a ha => by simp [hres a, ha])
    (fun a ha => by simp [Function.update_of_ne ha]) (fun a _ => rfl) ?_
  simp only [State.depositEvent_balances, hres target, if_true, recordedDeposit,
    State.depositEvent_identityOf, Function.update_self, Option.map_some, Option.getD_some,
    Registration.totalDeposit, State.depositEvent_subsOf]
  omega

theorem addSub_step (h : DepositsBacked s) {sub : AccountId} {data : Data}
    (hok : (addSub s origin sub data).2 = .ok ()) : DepositsBacked (addSub s origin sub data).1 := by
  obtain ⟨sender, balances, -, -, -, hreserve, subIds, -, heq⟩ := addSub_ok hok
  have hback := h sender
  simp only [recordedDeposit] at hback
  rw [heq]
  refine h.of_eq_off sender
    (fun a ha => by simp [Reservable.Ledger.reserved_reserve hreserve a, ha]) (fun a _ => rfl)
    (fun a ha => by simp [Function.update_of_ne ha]) ?_
  simp only [State.depositEvent_balances, Reservable.Ledger.reserved_reserve hreserve, if_true,
    recordedDeposit, State.depositEvent_identityOf, State.depositEvent_subsOf,
    Function.update_self]
  omega

theorem dispatch_step (hc : SubsConsistent s) (h : DepositsBacked s) (call : Call cfg) :
    DepositsBacked (dispatch s origin call).1 := by
  cases hres : (dispatch s origin call).2 with
  | error e => rw [hc.dispatch_error hres]; exact h
  | ok u =>
    cases u
    cases call with
    | addRegistrar _ | setFee _ _ | setAccountId _ _ | setFields _ _ =>
      obtain ⟨registrars, events, -, heq⟩ := dispatch_of_writesRegistrarsOnly hres rfl
      rw [heq]
      exact h.of_eq rfl rfl rfl
    | setIdentity info => exact h.setIdentity_step hres
    | setSubs subs => exact h.setSubs_step hres
    | clearIdentity =>
      obtain ⟨sender, id, -, hid, heq⟩ := clearIdentity_ok hres
      exact h.clear hid (fun a => by rw [dispatch, heq]; simp) (by rw [dispatch, heq]; rfl)
        (by rw [dispatch, heq]; rfl)
    | requestJudgement regIndex maxFee => exact h.requestJudgement_step hres
    | cancelRequest regIndex => exact h.cancelRequest_step hres
    | provideJudgement regIndex target judgement => exact h.provideJudgement_step hres
    | killIdentity target =>
      obtain ⟨id, -, hid, heq⟩ := killIdentity_ok hres
      exact h.clear hid (fun a => by rw [dispatch, heq]; simp) (by rw [dispatch, heq]; rfl)
        (by rw [dispatch, heq]; rfl)
    | addSub sub data => exact h.addSub_step hres
    | renameSub sub data =>
      obtain ⟨sender, -, -, -, heq⟩ := renameSub_ok hres
      exact h.of_eq (by rw [dispatch, heq]) (by rw [dispatch, heq]) (by rw [dispatch, heq])
    | removeSub sub =>
      obtain ⟨sender, name, -, -, -, heq⟩ := removeSub_ok hres
      exact h.release sender (fun a => by rw [dispatch, heq]; simp) (by rw [dispatch, heq]; rfl)
        (fun a => by rw [dispatch, heq]; by_cases ha : a = sender <;> simp [ha])
    | quitSub =>
      obtain ⟨sender, sup, name, -, -, heq⟩ := quitSub_ok hres
      exact h.release sup (fun a => by rw [dispatch, heq]; simp) (by rw [dispatch, heq]; rfl)
        (fun a => by rw [dispatch, heq]; by_cases ha : a = sup <;> simp [ha])

end DepositsBacked

theorem Reachable.depositsBacked {s : State cfg} (h : Reachable s) : DepositsBacked s := by
  induction h with
  | genesis free => exact depositsBacked_genesis free
  | step origin call hs ih => exact ih.dispatch_step hs.subsConsistent call

/-! ## What the balances show after a clear and a judgement -/

theorem le_feesOf_of_mem {js : List (RegistrarIndex × Judgement ℕ)} {i : RegistrarIndex} {f : ℕ}
    (h : (i, .feePaid f) ∈ js) : f ≤ feesOf js := by
  rw [feesOf_eq_sum]
  exact List.le_sum_of_mem (List.mem_map.2 ⟨(i, .feePaid f), h, rfl⟩)

omit [DecidableEq AccountId] in
theorem providedJudgements_fee_of_mem {n : ℕ}
    {js js' : BoundedVec (RegistrarIndex × Judgement ℕ) cfg.maxRegistrars}
    {regIndex : RegistrarIndex} {item : RegistrarIndex × Judgement ℕ} {fee : Option ℕ} {f : ℕ}
    (hwf : JudgementsWellFormed n js.toList)
    (h : providedJudgements js regIndex item = .ok (fee, js'))
    (hmem : (regIndex, .feePaid f) ∈ js.toList) : fee = some f := by
  rcases providedJudgements_ok h with ⟨pos, hpos, hsearch, hfee, -⟩ | ⟨pos, hsearch, -, -⟩
  · obtain ⟨k, hk, hkget⟩ := List.mem_iff_getElem.1 hmem
    have hkpos : k = pos := hwf.eq_of_ok hsearch hk (by rw [hkget])
    subst hkpos
    exact (hfee f).2 (by rw [hkget])
  · exact absurd rfl (hwf.not_mem_of_error hsearch _ hmem)

theorem DepositsBacked.clearIdentity_returns (h : DepositsBacked s) {sender : AccountId}
    (hok : (clearIdentity s (.signed sender)).2 = .ok ()) :
    (clearIdentity s (.signed sender)).1.balances.reserved sender = 0 ∧
      (clearIdentity s (.signed sender)).1.balances.free sender =
        s.balances.free sender + s.balances.reserved sender := by
  obtain ⟨who, id, hX, hid, heq⟩ := clearIdentity_ok hok
  cases hX
  have hback := h sender
  rw [recordedDeposit_some hid] at hback
  rw [heq]
  simp only [State.depositEvent_balances, Reservable.Ledger.reserved_unreserve,
    Reservable.Ledger.free_unreserve, if_true, Registration.totalDeposit]
  constructor
  · omega
  · congr 1
    omega

theorem DepositsBacked.provideJudgement_pays (h : DepositsBacked s) (hs : JudgementsSorted s)
    {sender target : AccountId} {regIndex : RegistrarIndex} {judgement : Judgement ℕ} {f : ℕ}
    (hok : (provideJudgement s (.signed sender) regIndex target judgement).2 = .ok ())
    (hmem : (regIndex, .feePaid f) ∈ judgementsOf s target) :
    (provideJudgement s (.signed sender) regIndex target judgement).1.balances.reserved target =
        s.balances.reserved target - f ∧
      (provideJudgement s (.signed sender) regIndex target judgement).1.balances.free sender =
        s.balances.free sender + f := by
  obtain ⟨who, r, id, fee, js, balances, hX, -, -, -, hid, hjs, hbal, heq⟩ :=
    provideJudgement_ok hok
  cases hX
  rw [judgementsOf_some hid] at hmem
  have hfee : fee = some f := providedJudgements_fee_of_mem (hs target id hid) hjs hmem
  obtain ⟨f', hf', rfl⟩ := hbal.resolve_left (fun hnone => by simp [hfee] at hnone)
  rw [hfee] at hf'
  cases hf'
  have hback := h target
  rw [recordedDeposit_some hid] at hback
  have hle := le_feesOf_of_mem hmem
  rw [heq]
  constructor
  · simp
  · simp only [State.depositEvent_balances, Reservable.Ledger.free_repatriateReserved, if_true]
    congr 1
    omega

/-- Deposit accounting over every run from genesis: every account's reserved balance is the
`total_deposit` of its registration plus its sub-account deposit. Hence `clear_identity`
returns exactly what was reserved, and `provide_judgement` pays the registrar exactly the fee
locked by the request it answers. -/
theorem deposits_backed {s : State cfg} (h : Reachable s) :
    (∀ a, s.balances.reserved a =
      ((s.identityOf a).map Registration.totalDeposit).getD 0 + (s.subsOf a).1) ∧
    (∀ sender, (clearIdentity s (.signed sender)).2 = .ok () →
      (clearIdentity s (.signed sender)).1.balances.reserved sender = 0 ∧
      (clearIdentity s (.signed sender)).1.balances.free sender =
        s.balances.free sender + s.balances.reserved sender) ∧
    (∀ sender regIndex target judgement f,
      (provideJudgement s (.signed sender) regIndex target judgement).2 = .ok () →
      (regIndex, .feePaid f) ∈ judgementsOf s target →
      (provideJudgement s (.signed sender) regIndex target judgement).1.balances.reserved target =
        s.balances.reserved target - f ∧
      (provideJudgement s (.signed sender) regIndex target judgement).1.balances.free sender =
        s.balances.free sender + f) := by
  have hd := h.depositsBacked
  exact ⟨hd, fun _ hok => hd.clearIdentity_returns hok,
    fun _ _ _ _ _ hok hmem => hd.provideJudgement_pays h.judgementsSorted hok hmem⟩

theorem deposits_backed_duplicateSubs :
    (∀ a, duplicateSubsState.balances.reserved a =
      ((duplicateSubsState.identityOf a).map Registration.totalDeposit).getD 0 +
        (duplicateSubsState.subsOf a).1) ∧
    (∀ sender, (clearIdentity duplicateSubsState (.signed sender)).2 = .ok () →
      (clearIdentity duplicateSubsState (.signed sender)).1.balances.reserved sender = 0 ∧
      (clearIdentity duplicateSubsState (.signed sender)).1.balances.free sender =
        duplicateSubsState.balances.free sender + duplicateSubsState.balances.reserved sender) ∧
    (∀ sender regIndex target judgement f,
      (provideJudgement duplicateSubsState (.signed sender) regIndex target judgement).2 =
        .ok () →
      (regIndex, .feePaid f) ∈ judgementsOf duplicateSubsState target →
      (provideJudgement duplicateSubsState (.signed sender) regIndex target
          judgement).1.balances.reserved target =
        duplicateSubsState.balances.reserved target - f ∧
      (provideJudgement duplicateSubsState (.signed sender) regIndex target
          judgement).1.balances.free sender =
        duplicateSubsState.balances.free sender + f) :=
  deposits_backed duplicateSubsState_reachable

/-! ## The per-sub deposit law, and where `set_subs` breaks it -/

/-- Each sub is listed once and costs one `SubAccountDeposit`. -/
def SubDepositLaw (s : State cfg) : Prop :=
  ∀ a, (s.subsOf a).2.toList.Nodup ∧
    (s.subsOf a).1 = cfg.subAccountDeposit * (s.subsOf a).2.toList.length

def Call.DistinctSubs : Call cfg → Prop
  | .setSubs subs => (subs.map Prod.fst).Nodup
  | _ => True

omit [DecidableEq AccountId] in
theorem subDepositLaw_genesis (free : AccountId → ℕ) : SubDepositLaw (genesis cfg free) :=
  fun _ => ⟨List.nodup_nil, rfl⟩

namespace SubDepositLaw

variable {s' : State cfg}

def Entry (cfg : Config AccountId) (e : ℕ × BoundedVec AccountId cfg.maxSubAccounts) : Prop :=
  e.2.toList.Nodup ∧ e.1 = cfg.subAccountDeposit * e.2.toList.length

theorem of_update (h : SubDepositLaw s) {who : AccountId}
    {e : ℕ × BoundedVec AccountId cfg.maxSubAccounts}
    (hsubs : s'.subsOf = Function.update s.subsOf who e) (he : Entry cfg e) : SubDepositLaw s' := by
  intro a
  rw [hsubs]
  by_cases ha : a = who
  · subst ha
    rw [Function.update_self]
    exact he
  · rw [Function.update_of_ne ha]
    exact h a

/-- `remove_sub` and `quit_sub` on a listed sub: with every sub listed once, `retain` drops
exactly one entry, and exactly one deposit is released. -/
theorem release_entry (h : SubDepositLaw s) (hc : SubsConsistent s) {sup sub : AccountId}
    {name : Data} (hsub : s.superOf sub = some (sup, name)) :
    Entry cfg ((s.subsOf sup).1 - min cfg.subAccountDeposit (s.subsOf sup).1,
      (s.subsOf sup).2.retain fun x => decide (x ≠ sub)) := by
  obtain ⟨hnodup, hdeposit⟩ := h sup
  have hmem : sub ∈ (s.subsOf sup).2.toList := (hc.superOf_iff sup sub).1 ⟨name, hsub⟩
  have hfilter : ((s.subsOf sup).2.toList.filter fun x => decide (x ≠ sub)) =
      (s.subsOf sup).2.toList.erase sub := by
    rw [hnodup.erase_eq_filter]
    simp only [ne_eq, decide_not]
    rfl
  have hlen := List.length_erase_of_mem hmem
  obtain ⟨n, hn⟩ : ∃ n, (s.subsOf sup).2.toList.length = n + 1 :=
    ⟨_, (Nat.succ_pred_eq_of_pos (List.length_pos_of_mem hmem)).symm⟩
  refine ⟨by simpa using hnodup.filter _, ?_⟩
  simp only [BoundedVec.retain_toList, hfilter, hlen, hn, hdeposit, Nat.add_sub_cancel, Nat.mul_succ]
  omega

theorem dispatch_step (hc : SubsConsistent s) (h : SubDepositLaw s) {call : Call cfg}
    (hcall : call.DistinctSubs) : SubDepositLaw (dispatch s origin call).1 := by
  cases hres : (dispatch s origin call).2 with
  | error e => rw [hc.dispatch_error hres]; exact h
  | ok u =>
    cases u
    cases call
    case setSubs subs =>
      obtain ⟨sender, balances, -, -, -, -, ids, hids, heq⟩ := setSubs_ok hres
      refine h.of_update (by rw [dispatch, heq]) ?_
      split_ifs with hempty
      · exact ⟨List.nodup_nil, rfl⟩
      · exact ⟨hids ▸ hcall, by rw [hids, List.length_map]⟩
    case clearIdentity =>
      obtain ⟨sender, id, -, -, heq⟩ := clearIdentity_ok hres
      exact h.of_update (by rw [dispatch, heq]; rfl) ⟨List.nodup_nil, rfl⟩
    case killIdentity target =>
      obtain ⟨id, -, -, heq⟩ := killIdentity_ok hres
      exact h.of_update (by rw [dispatch, heq]; rfl) ⟨List.nodup_nil, rfl⟩
    case addSub sub data =>
      obtain ⟨sender, balances, -, -, hfree, -, subIds, hsubIds, heq⟩ := addSub_ok hres
      have hnotin : sub ∉ (s.subsOf sender).2.toList := fun hmem => by
        obtain ⟨name, hname⟩ := (hc.superOf_iff sender sub).2 hmem
        rw [hfree] at hname
        cases hname
      obtain ⟨hnodup, hdeposit⟩ := h sender
      refine h.of_update (by rw [dispatch, heq]; rfl) ⟨?_, ?_⟩
      · rw [hsubIds, List.nodup_append]
        exact ⟨hnodup, List.nodup_singleton sub, fun a ha b hb => by
          rw [List.mem_singleton.1 hb]; rintro rfl; exact hnotin ha⟩
      · simp only [hsubIds, List.length_append, List.length_singleton, hdeposit, Nat.mul_succ]
    case removeSub sub =>
      obtain ⟨sender, name, -, -, hsub, heq⟩ := removeSub_ok hres
      exact h.of_update (by rw [dispatch, heq]; rfl) (h.release_entry hc hsub)
    case quitSub =>
      obtain ⟨sender, sup, name, -, hsub, heq⟩ := quitSub_ok hres
      exact h.of_update (by rw [dispatch, heq]; rfl) (h.release_entry hc hsub)
    all_goals
      intro a
      rw [dispatch_subsOf_eq hres rfl]
      exact h a

end SubDepositLaw

/-- Over every sequence of calls that never passes `set_subs` an account twice, each sub is
listed once and costs exactly one `SubAccountDeposit`. -/
theorem subDepositLaw_applyCalls {s : State cfg} (h : Reachable s) (hlaw : SubDepositLaw s)
    (calls : List (Origin AccountId × Call cfg)) (hcalls : ∀ c ∈ calls, c.2.DistinctSubs) :
    SubDepositLaw (applyCalls s calls) := by
  induction calls generalizing s with
  | nil => exact hlaw
  | cons c cs ih =>
    have hc := hcalls c (List.mem_cons_self)
    exact ih (Reachable.step c.1 c.2 h) (hlaw.dispatch_step h.subsConsistent hc)
      (fun c' hc' => hcalls c' (List.mem_cons_of_mem _ hc'))

theorem subDepositLaw_distinctSubs :
    Reachable (genesis mockConfig mockEndowment) ∧
      SubDepositLaw (genesis mockConfig mockEndowment) ∧
      (∀ c ∈ distinctSubs, c.2.DistinctSubs) ∧
      SubDepositLaw (applyCalls (genesis mockConfig mockEndowment) distinctSubs) := by
  have hcalls : ∀ c ∈ distinctSubs, c.2.DistinctSubs := by
    intro c hc
    simp only [distinctSubs, List.mem_cons, List.not_mem_nil, or_false] at hc
    rcases hc with rfl | rfl
    · trivial
    · simp [Call.DistinctSubs]
  exact ⟨.genesis mockEndowment, subDepositLaw_genesis mockEndowment, hcalls,
    subDepositLaw_applyCalls (.genesis mockEndowment) (subDepositLaw_genesis mockEndowment)
      distinctSubs hcalls⟩

/-- A repeated account in `set_subs` is stored twice and reserved twice; a later `remove_sub`
drops both copies and releases one deposit, leaving 10 reserved for no sub. -/
theorem setSubs_duplicate_breaks_law :
    Reachable duplicateSubsState ∧
    (duplicateSubsState.subsOf 10).2.toList = [1, 1] ∧ (duplicateSubsState.subsOf 10).1 = 20 ∧
    ((removeSub duplicateSubsState (.signed 10) 1).1.subsOf 10).1 = 10 ∧
    ((removeSub duplicateSubsState (.signed 10) 1).1.subsOf 10).2.toList = [] ∧
    (removeSub duplicateSubsState (.signed 10) 1).1.balances.reserved 10 = 20 :=
  ⟨duplicateSubsState_reachable, by decide, by decide, by decide, by decide, by decide⟩

end ZeroNet.Identity
