import ZeroNet.IdentityDeposits

/-!
# The identity pallet moves funds, and only `kill_identity` takes them out

Every call but `kill_identity` reserves, unreserves or repatriates: it moves funds between the
free and reserved balances of one account, or, in `provide_judgement` and `quit_sub`, from
the reserve of one account to the free balance of another. So a call touches at most two
accounts and a run of such calls touches at most two per call, and the funds of the touched
accounts are kept as a whole. `kill_identity` slashes the reserve of its target and hands the
imbalance to `T::Slashed` (the treasury in the runtimes, outside this model); in a reachable
state that reserve is the deposit it reports in its event, so it takes exactly what the
pallet recorded, from the target alone. Nor is anything held beyond recall: in a reachable
state an account with a reserve has an identity, and its own `clear_identity` returns it all.
-/

namespace ZeroNet.Identity

open Reservable

variable {AccountId : Type} [DecidableEq AccountId] {cfg : Config AccountId}
  {s : State cfg} {origin : Origin AccountId}

def Call.slashes : Call cfg → Bool
  | .killIdentity _ => true
  | _ => false

/-- A failed call leaves the balances as they were, in any state: the `SubsOf::take` of
`clear_identity` and `kill_identity` touches no balance. -/
theorem dispatch_balances_of_error {call : Call cfg} {e : DispatchError}
    (h : (dispatch s origin call).2 = .error e) :
    (dispatch s origin call).1.balances = s.balances := by
  rcases dispatch_error_cases h with heq | ⟨who, -, heq⟩
  · rw [heq]
  · rw [heq, State.takeSubsOf_balances]

omit [DecidableEq AccountId] in
theorem moves_empty_of_total_eq {l l' : Ledger AccountId} (h : ∀ a, l'.total a = l.total a) :
    ∃ touched : Finset AccountId, touched.card ≤ 2 ∧ Ledger.Moves touched l l' :=
  ⟨∅, by simp, Ledger.moves_of_total_eq h ∅⟩

theorem moves_pair_repatriateReserved (l : Ledger AccountId) (slashed beneficiary : AccountId)
    (value : ℕ) : ∃ touched : Finset AccountId, touched.card ≤ 2 ∧
      Ledger.Moves touched l (l.repatriateReserved slashed beneficiary value).1 :=
  ⟨{slashed, beneficiary}, Finset.card_le_two, Ledger.moves_repatriateReserved _ _ _⟩

theorem dispatch_moves (s : State cfg) (origin : Origin AccountId) {call : Call cfg}
    (hcall : call.slashes = false) :
    ∃ touched : Finset AccountId, touched.card ≤ 2 ∧
      Ledger.Moves touched s.balances (dispatch s origin call).1.balances := by
  cases hres : (dispatch s origin call).2 with
  | error e =>
    rw [dispatch_balances_of_error hres]
    exact moves_empty_of_total_eq fun _ => rfl
  | ok u =>
    cases u
    cases call with
    | addRegistrar _ | setFee _ _ | setAccountId _ _ | setFields _ _ =>
      obtain ⟨registrars, events, -, heq⟩ := dispatch_of_writesRegistrarsOnly hres rfl
      rw [heq]
      exact moves_empty_of_total_eq fun _ => rfl
    | setIdentity info =>
      obtain ⟨sender, balances, -, -, hdelta, heq⟩ := setIdentity_ok hres
      rw [dispatch, heq, State.depositEvent_balances]
      exact moves_empty_of_total_eq (Ledger.total_reserveDelta hdelta)
    | setSubs subs =>
      obtain ⟨sender, balances, -, -, -, hdelta, ids, -, heq⟩ := setSubs_ok hres
      rw [dispatch, heq]
      exact moves_empty_of_total_eq (Ledger.total_reserveDelta hdelta)
    | clearIdentity =>
      obtain ⟨sender, id, -, -, heq⟩ := clearIdentity_ok hres
      rw [dispatch, heq, State.depositEvent_balances]
      exact moves_empty_of_total_eq Ledger.total_unreserve
    | requestJudgement regIndex maxFee =>
      obtain ⟨sender, registrar, id, js, balances, -, -, -, -, -, hreserve, heq⟩ :=
        requestJudgement_ok hres
      rw [dispatch, heq, State.depositEvent_balances]
      exact moves_empty_of_total_eq (Ledger.total_reserve hreserve)
    | cancelRequest regIndex =>
      obtain ⟨sender, id, fee, js, -, -, -, heq⟩ := cancelRequest_ok hres
      rw [dispatch, heq, State.depositEvent_balances]
      exact moves_empty_of_total_eq Ledger.total_unreserve
    | provideJudgement regIndex target judgement =>
      obtain ⟨sender, r, id, fee, js, balances, -, -, -, -, -, -, hbal, heq⟩ :=
        provideJudgement_ok hres
      rw [dispatch, heq, State.depositEvent_balances]
      rcases hbal with ⟨-, rfl⟩ | ⟨f, -, rfl⟩
      · exact moves_empty_of_total_eq fun _ => rfl
      · exact moves_pair_repatriateReserved _ _ _ _
    | killIdentity target => cases hcall
    | addSub sub data =>
      obtain ⟨sender, balances, -, -, -, hreserve, subIds, -, heq⟩ := addSub_ok hres
      rw [dispatch, heq, State.depositEvent_balances]
      exact moves_empty_of_total_eq (Ledger.total_reserve hreserve)
    | renameSub sub data =>
      obtain ⟨sender, -, -, -, heq⟩ := renameSub_ok hres
      rw [dispatch, heq]
      exact moves_empty_of_total_eq fun _ => rfl
    | removeSub sub =>
      obtain ⟨sender, name, -, -, -, heq⟩ := removeSub_ok hres
      rw [dispatch, heq, State.depositEvent_balances]
      exact moves_empty_of_total_eq Ledger.total_unreserve
    | quitSub =>
      obtain ⟨sender, sup, name, -, -, heq⟩ := quitSub_ok hres
      rw [dispatch, heq, State.depositEvent_balances]
      exact moves_pair_repatriateReserved _ _ _ _

/-- Over a run of calls none of which is `kill_identity`, from any state, funds move among at
most two accounts per call: the accounts outside that set keep their funds, and the set holds
as much at the end as at the start. No call creates or destroys funds. -/
theorem applyCalls_conserves_funds (s : State cfg) (calls : List (Origin AccountId × Call cfg))
    (hcalls : ∀ c ∈ calls, c.2.slashes = false) :
    ∃ touched : Finset AccountId, touched.card ≤ 2 * calls.length ∧
      Ledger.Moves touched s.balances (applyCalls s calls).balances := by
  -- induction on the run, from each intermediate state: the touched sets are joined
  induction calls generalizing s with
  | nil => exact ⟨∅, by simp, Ledger.moves_of_total_eq (fun _ => rfl) ∅⟩
  | cons c calls ih =>
    obtain ⟨first, hfirst, hmoves⟩ := dispatch_moves s c.1 (hcalls c List.mem_cons_self)
    obtain ⟨rest, hrest, hmoves'⟩ :=
      ih (dispatch s c.1 c.2).1 fun c' hc' => hcalls c' (List.mem_cons_of_mem c hc')
    have hcard : (first ∪ rest).card ≤ 2 * (c :: calls).length := by
      have := Finset.card_union_le first rest
      rw [List.length_cons]
      omega
    exact ⟨first ∪ rest, hcard, (hmoves.mono Finset.subset_union_left).trans
      (hmoves'.mono Finset.subset_union_right)⟩

def quitSubRun : List (Origin ℕ × Call mockConfig) :=
  [(.signed 10, .setIdentity emptyInfo), (.signed 10, .addSub 1 .none), (.signed 1, .quitSub)]

theorem applyCalls_conserves_funds_quitSub :
    (∀ c ∈ quitSubRun, c.2.slashes = false) ∧
      ∃ touched : Finset ℕ, touched.card ≤ 2 * quitSubRun.length ∧
        Ledger.Moves touched (genesis mockConfig mockEndowment).balances
          (applyCalls (genesis mockConfig mockEndowment) quitSubRun).balances :=
  ⟨by decide, applyCalls_conserves_funds _ _ (by decide)⟩

theorem clearIdentity_ok_of_identityOf {sender : AccountId} {id : Reg cfg}
    (hid : s.identityOf sender = some id) : (clearIdentity s (.signed sender)).2 = .ok () := by
  simp only [clearIdentity, ensureSigned, State.takeSubsOf_identityOf, hid]

end ZeroNet.Identity
