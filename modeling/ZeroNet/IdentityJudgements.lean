import ZeroNet.IdentitySubs
import Mathlib.Data.Finset.Card
import Mathlib.Data.Finset.Range

/-!
# The judgement lists

The judgements on a registration are kept strictly increasing by registrar index, and every
index names an existing registrar. Nothing sorts the list: `request_judgement` and
`provide_judgement` insert at the position where `binary_search_by_key` stopped,
`cancel_request` removes by position and `set_identity` filters, and registrars are never
removed. So the search finds exactly the registrar's own judgement, and the `TooManyRegistrars`
error of the insertions is unreachable. The second half shows who can change a list: a new
judgement without a fee comes only from the registrar's own `provide_judgement`, and an
`Erroneous` one goes only through that registrar, the owner's `clear_identity` or
`kill_identity`.
-/

namespace ZeroNet.Identity

variable {AccountId : Type} [DecidableEq AccountId] {cfg : Config AccountId}
  {s : State cfg} {origin : Origin AccountId}

/-- Strictly increasing registrar indices, each below the number `n` of registrars. -/
structure JudgementsWellFormed (n : ℕ) (js : List (RegistrarIndex × Judgement ℕ)) : Prop where
  sorted : (js.map fun j => j.1.toNat).Pairwise (· < ·)
  lt : ∀ j ∈ js, j.1.toNat < n

theorem searchJudgements_key {js : List (RegistrarIndex × Judgement ℕ)} {regIndex : RegistrarIndex}
    {i : ℕ} (h : searchJudgements js regIndex = .ok i) : ∃ hi : i < js.length, js[i].1 = regIndex := by
  obtain ⟨hi, hcmp⟩ := Slice.binarySearchBy_ok h
  exact ⟨hi, UInt32.toNat_inj.1 (compare_eq_iff_eq.1 hcmp)⟩

omit [DecidableEq AccountId] in
theorem registrarAt_lt {index : RegistrarIndex} {r : RegistrarInfo ℕ AccountId}
    (h : registrarAt s index = some r) : index.toNat < s.registrars.toList.length := by
  unfold registrarAt at h
  cases hget : s.registrars.toList[index.toNat]? with
  | none => simp [hget] at h
  | some _ => exact (List.getElem?_eq_some_iff.1 hget).1

namespace JudgementsWellFormed

variable {n : ℕ} {js : List (RegistrarIndex × Judgement ℕ)}

theorem nil : JudgementsWellFormed n [] := ⟨List.Pairwise.nil, by simp⟩

theorem mono (h : JudgementsWellFormed n js) {m : ℕ} (hnm : n ≤ m) : JudgementsWellFormed m js :=
  ⟨h.sorted, fun j hj => (h.lt j hj).trans_le hnm⟩

theorem sublist (h : JudgementsWellFormed n js) {ks : List (RegistrarIndex × Judgement ℕ)}
    (hks : ks.Sublist js) : JudgementsWellFormed n ks :=
  ⟨h.sorted.sublist (hks.map _), fun j hj => h.lt j (hks.subset hj)⟩

theorem set (h : JudgementsWellFormed n js) {i : ℕ} (hi : i < js.length)
    {item : RegistrarIndex × Judgement ℕ} (hkey : item.1 = js[i].1) :
    JudgementsWellFormed n (js.set i item) := by
  have hmap : (js.set i item).map (fun j => j.1.toNat) = js.map fun j => j.1.toNat :=
    calc (js.set i item).map (fun j => j.1.toNat)
        = (js.map fun j => j.1.toNat).set i item.1.toNat := List.map_set
      _ = (js.set i js[i]).map (fun j => j.1.toNat) := by rw [List.map_set, hkey]
      _ = js.map fun j => j.1.toNat := by rw [List.set_getElem_self]
  refine ⟨hmap ▸ h.sorted, fun j hj => ?_⟩
  rcases List.mem_or_eq_of_mem_set hj with hj | rfl
  · exact h.lt j hj
  · rw [hkey]
    exact h.lt _ (List.getElem_mem hi)

theorem insertIdx (h : JudgementsWellFormed n js) {regIndex : RegistrarIndex} {i : ℕ}
    (hsearch : searchJudgements js regIndex = .error i) {item : RegistrarIndex × Judgement ℕ}
    (hkey : item.1 = regIndex) (hlt : regIndex.toNat < n) :
    JudgementsWellFormed n (js.insertIdx i item) := by
  have hi : i ≤ js.length := Slice.binarySearchBy_error_le hsearch
  refine ⟨Slice.sorted_insertIdx_of_error h.sorted hsearch item (by rw [hkey]), fun j hj => ?_⟩
  rcases (List.mem_insertIdx hi).1 hj with rfl | hj
  · rw [hkey]; exact hlt
  · exact h.lt j hj

theorem not_mem_of_error (h : JudgementsWellFormed n js) {regIndex : RegistrarIndex} {i : ℕ}
    (hsearch : searchJudgements js regIndex = .error i) : ∀ j ∈ js, j.1 ≠ regIndex := by
  intro j hj hkey
  have hne := Slice.binarySearchBy_error_not_eq (Slice.partitioned_of_sorted h.sorted _) hsearch j hj
  exact hne (by simp [hkey])

theorem eq_of_ok (h : JudgementsWellFormed n js) {regIndex : RegistrarIndex} {i : ℕ}
    (hsearch : searchJudgements js regIndex = .ok i) {k : ℕ} (hk : k < js.length)
    (hkey : js[k].1 = regIndex) : k = i := by
  obtain ⟨hi, hikey⟩ := searchJudgements_key hsearch
  have hinj := List.pairwise_iff_getElem.1 h.sorted
  by_contra hne
  rcases Nat.lt_or_gt_of_ne hne with hki | hik
  · have := hinj k i (by simpa using hk) (by simpa using hi) hki
    simp [hkey, hikey] at this
  · have := hinj i k (by simpa using hi) (by simpa using hk) hik
    simp [hkey, hikey] at this

theorem length_lt (h : JudgementsWellFormed n js) {regIndex : RegistrarIndex}
    (hnot : ∀ j ∈ js, j.1 ≠ regIndex) (hlt : regIndex.toNat < n) : js.length < n := by
  have hnodup : (js.map fun j => j.1.toNat).Nodup := h.sorted.nodup
  have hsub : (js.map fun j => j.1.toNat).toFinset ⊆ (Finset.range n).erase regIndex.toNat := by
    intro x hx
    obtain ⟨j, hj, rfl⟩ := List.mem_map.1 (List.mem_toFinset.1 hx)
    refine Finset.mem_erase.2 ⟨fun heq => hnot j hj (UInt32.toNat_inj.1 heq), ?_⟩
    exact Finset.mem_range.2 (h.lt j hj)
  have hcard := Finset.card_le_card hsub
  rw [List.toFinset_card_of_nodup hnodup, Finset.card_erase_of_mem (Finset.mem_range.2 hlt),
    Finset.card_range, List.length_map] at hcard
  omega

end JudgementsWellFormed

/-- Every registration's judgements are well formed against the current registrars. -/
def JudgementsSorted (s : State cfg) : Prop :=
  ∀ t r, s.identityOf t = some r → JudgementsWellFormed s.registrars.toList.length r.judgements.toList

omit [DecidableEq AccountId] in
theorem judgementsSorted_genesis (free : AccountId → ℕ) : JudgementsSorted (genesis cfg free) := by
  intro t r h
  cases h

namespace JudgementsSorted

variable {s' : State cfg}

omit [DecidableEq AccountId] in
theorem of_identityOf_eq (h : JudgementsSorted s)
    (hreg : s.registrars.toList.length ≤ s'.registrars.toList.length)
    (hid : s'.identityOf = s.identityOf) : JudgementsSorted s' := by
  intro t r ht
  rw [hid] at ht
  exact (h t r ht).mono hreg

theorem of_update (h : JudgementsSorted s) {who : AccountId} {v : Option (Reg cfg)}
    (hreg : s'.registrars = s.registrars) (hid : s'.identityOf = Function.update s.identityOf who v)
    (hv : ∀ r, v = some r → JudgementsWellFormed s.registrars.toList.length r.judgements.toList) :
    JudgementsSorted s' := by
  intro t r ht
  rw [hreg]
  rw [hid] at ht
  by_cases htw : t = who
  · subst htw
    rw [Function.update_self] at ht
    exact hv r ht
  · rw [Function.update_of_ne htw] at ht
    exact h t r ht

omit [DecidableEq AccountId] in
theorem requestedJudgements_wf {n : ℕ}
    {js js' : BoundedVec (RegistrarIndex × Judgement ℕ) cfg.maxRegistrars}
    {regIndex : RegistrarIndex} {item : RegistrarIndex × Judgement ℕ}
    (hwf : JudgementsWellFormed n js.toList) (h : requestedJudgements js regIndex item = .ok js')
    (hkey : item.1 = regIndex) (hlt : regIndex.toNat < n) : JudgementsWellFormed n js'.toList := by
  rcases requestedJudgements_ok h with ⟨i, hi, hsearch, -, hjs'⟩ | ⟨i, hsearch, hjs'⟩
  · obtain ⟨_, hikey⟩ := searchJudgements_key hsearch
    rw [hjs']
    exact hwf.set hi (hkey.trans hikey.symm)
  · rw [hjs']
    exact hwf.insertIdx hsearch hkey hlt

omit [DecidableEq AccountId] in
theorem providedJudgements_wf {n : ℕ}
    {js js' : BoundedVec (RegistrarIndex × Judgement ℕ) cfg.maxRegistrars}
    {regIndex : RegistrarIndex} {item : RegistrarIndex × Judgement ℕ} {fee : Option ℕ}
    (hwf : JudgementsWellFormed n js.toList) (h : providedJudgements js regIndex item = .ok (fee, js'))
    (hkey : item.1 = regIndex) (hlt : regIndex.toNat < n) : JudgementsWellFormed n js'.toList := by
  rcases providedJudgements_ok h with ⟨i, hi, hsearch, -, hjs'⟩ | ⟨i, hsearch, -, hjs'⟩
  · obtain ⟨_, hikey⟩ := searchJudgements_key hsearch
    rw [hjs']
    exact hwf.set hi (hkey.trans hikey.symm)
  · rw [hjs']
    exact hwf.insertIdx hsearch hkey hlt

theorem dispatch_step (hc : SubsConsistent s) (h : JudgementsSorted s) (call : Call cfg) :
    JudgementsSorted (dispatch s origin call).1 := by
  cases hres : (dispatch s origin call).2 with
  | error e => rw [hc.dispatch_error hres]; exact h
  | ok u =>
    cases u
    cases call with
    | addRegistrar _ | setFee _ _ | setAccountId _ _ | setFields _ _ =>
      obtain ⟨registrars, events, hlen, heq⟩ := dispatch_of_writesRegistrarsOnly hres rfl
      rw [heq]
      exact h.of_identityOf_eq hlen rfl
    | setIdentity info =>
      obtain ⟨sender, balances, -, -, -, heq⟩ := setIdentity_ok hres
      refine h.of_update (by rw [dispatch, heq]; rfl) (by rw [dispatch, heq]; rfl) ?_
      rintro r ⟨⟩
      unfold withInfo
      split
      · rename_i id hid
        exact (h sender id hid).sublist List.filter_sublist
      · exact .nil
    | setSubs _ | addSub _ _ | renameSub _ _ | removeSub _ | quitSub =>
      exact h.of_identityOf_eq (by rw [dispatch_registrars_eq hres rfl])
        (dispatch_identityOf_eq hres rfl)
    | clearIdentity =>
      obtain ⟨sender, id, -, -, heq⟩ := clearIdentity_ok hres
      exact h.of_update (by rw [dispatch, heq]; rfl) (by rw [dispatch, heq]; rfl) (by simp)
    | requestJudgement regIndex maxFee =>
      obtain ⟨sender, registrar, id, js, balances, -, hreg, -, hid, hjs, -, heq⟩ :=
        requestJudgement_ok hres
      refine h.of_update (by rw [dispatch, heq]; rfl) (by rw [dispatch, heq]; rfl) ?_
      rintro r ⟨⟩
      exact requestedJudgements_wf (h sender id hid) hjs rfl (registrarAt_lt hreg)
    | cancelRequest regIndex =>
      obtain ⟨sender, id, fee, js, -, hid, hjs, heq⟩ := cancelRequest_ok hres
      refine h.of_update (by rw [dispatch, heq]; rfl) (by rw [dispatch, heq]; rfl) ?_
      rintro r ⟨⟩
      obtain ⟨pos, -, -, -, hjs'⟩ := cancelledJudgements_ok hjs
      rw [hjs']
      exact (h sender id hid).sublist (List.eraseIdx_sublist _ _)
    | provideJudgement regIndex target judgement =>
      obtain ⟨sender, r, id, fee, js, balances, -, -, hreg, -, hid, hjs, -, heq⟩ :=
        provideJudgement_ok hres
      refine h.of_update (by rw [dispatch, heq]; rfl) (by rw [dispatch, heq]; rfl) ?_
      rintro r ⟨⟩
      exact providedJudgements_wf (h target id hid) hjs rfl (registrarAt_lt hreg)
    | killIdentity target =>
      obtain ⟨id, -, -, heq⟩ := killIdentity_ok hres
      exact h.of_update (by rw [dispatch, heq]; rfl) (by rw [dispatch, heq]; rfl) (by simp)

end JudgementsSorted

theorem Reachable.judgementsSorted {s : State cfg} (h : Reachable s) : JudgementsSorted s := by
  induction h with
  | genesis free => exact judgementsSorted_genesis free
  | step origin call hs ih => exact ih.dispatch_step hs.subsConsistent call

/-! ## `TooManyRegistrars` cannot happen -/

theorem requestJudgement_tooManyRegistrars {regIndex : RegistrarIndex} {maxFee : ℕ}
    (h : (requestJudgement s origin regIndex maxFee).2 = .error (.module .tooManyRegistrars)) :
    ∃ sender registrar id pos, registrarAt s regIndex = some registrar ∧
      s.identityOf sender = some id ∧ searchJudgements id.judgements.toList regIndex = .error pos ∧
      cfg.maxRegistrars ≤ id.judgements.toList.length := by
  revert h
  unfold requestJudgement
  split
  · rename_i e he
    simp [ensureSigned_eq_error he]
  · rename_i sender _
    split
    · simp
    · rename_i registrar hreg
      split_ifs
      · split
        · simp
        · rename_i id hid
          dsimp only
          split
          · rename_i e hjs
            rcases requestedJudgements_error hjs with rfl | ⟨pos, hsearch, hlen, -⟩
            · simp
            · exact fun _ => ⟨sender, registrar, id, pos, hreg, hid, hsearch, hlen⟩
          · split <;> simp
      · simp

theorem provideJudgement_tooManyRegistrars {regIndex : RegistrarIndex} {target : AccountId}
    {judgement : Judgement ℕ}
    (h : (provideJudgement s origin regIndex target judgement).2 =
      .error (.module .tooManyRegistrars)) :
    ∃ r id pos, registrarAt s regIndex = some r ∧ s.identityOf target = some id ∧
      searchJudgements id.judgements.toList regIndex = .error pos ∧
      cfg.maxRegistrars ≤ id.judgements.toList.length := by
  revert h
  unfold provideJudgement
  split
  · rename_i e he
    simp [ensureSigned_eq_error he]
  · split_ifs
    · simp
    · split
      · rename_i r hreg
        split_ifs
        · split
          · simp
          · rename_i id hid
            split
            · rename_i e hjs
              obtain ⟨pos, hsearch, hlen, rfl⟩ := providedJudgements_error hjs
              exact fun _ => ⟨r, id, pos, hreg, hid, hsearch, hlen⟩
            · simp
        · simp
      · simp

omit [DecidableEq AccountId] in
theorem JudgementsSorted.insert_fits (h : JudgementsSorted s) {t : AccountId} {r : Reg cfg}
    (ht : s.identityOf t = some r) {regIndex : RegistrarIndex} {i : ℕ}
    (hlt : regIndex.toNat < s.registrars.toList.length)
    (hsearch : searchJudgements r.judgements.toList regIndex = .error i) :
    r.judgements.toList.length < s.registrars.toList.length ∧
      s.registrars.toList.length ≤ cfg.maxRegistrars :=
  ⟨(h t r ht).length_lt ((h t r ht).not_mem_of_error hsearch) hlt, s.registrars.length_le⟩

/-- The judgement lists of every reachable state are strictly increasing by registrar index
and name existing registrars; the binary search therefore finds exactly the registrar's own
judgement, an insertion always has room, and neither `request_judgement` nor
`provide_judgement` can fail with `TooManyRegistrars`. -/
theorem judgements_sorted_unique {s : State cfg} (h : Reachable s) :
    (∀ t r, s.identityOf t = some r →
      (r.judgements.toList.map (·.1)).Pairwise (· < ·) ∧
      ∀ j ∈ r.judgements.toList, j.1.toNat < s.registrars.toList.length) ∧
    (∀ t r regIndex, s.identityOf t = some r →
      (∀ i, searchJudgements r.judgements.toList regIndex = .ok i →
        ∃ hi : i < r.judgements.toList.length, r.judgements.toList[i].1 = regIndex ∧
          ∀ k (hk : k < r.judgements.toList.length), r.judgements.toList[k].1 = regIndex → k = i) ∧
      (∀ i, searchJudgements r.judgements.toList regIndex = .error i →
        ∀ j ∈ r.judgements.toList, j.1 ≠ regIndex)) ∧
    (∀ t r regIndex i, s.identityOf t = some r →
      regIndex.toNat < s.registrars.toList.length →
      searchJudgements r.judgements.toList regIndex = .error i →
      r.judgements.toList.length < s.registrars.toList.length ∧
        s.registrars.toList.length ≤ cfg.maxRegistrars) ∧
    (∀ origin regIndex maxFee,
      (requestJudgement s origin regIndex maxFee).2 ≠ .error (.module .tooManyRegistrars)) ∧
    (∀ origin regIndex target judgement,
      (provideJudgement s origin regIndex target judgement).2 ≠
        .error (.module .tooManyRegistrars)) := by
  have hs := h.judgementsSorted
  refine ⟨fun t r ht => ⟨?_, (hs t r ht).lt⟩, fun t r regIndex ht => ⟨fun i hsearch => ?_,
    fun i => (hs t r ht).not_mem_of_error⟩, fun t r regIndex i ht => hs.insert_fits ht,
    fun origin regIndex maxFee herr => ?_, fun origin regIndex target judgement herr => ?_⟩
  · have hsorted := List.pairwise_map.1 (hs t r ht).sorted
    exact List.pairwise_map.2 (hsorted.imp UInt32.lt_iff_toNat_lt.2)
  · obtain ⟨hi, hkey⟩ := searchJudgements_key hsearch
    exact ⟨hi, hkey, fun k hk hkkey => (hs t r ht).eq_of_ok hsearch hk hkkey⟩
  · obtain ⟨_, registrar, id, pos, hreg, hid, hsearch, hlen⟩ :=
      requestJudgement_tooManyRegistrars herr
    have := (hs.insert_fits hid (registrarAt_lt hreg) hsearch)
    omega
  · obtain ⟨r, id, pos, hreg, hid, hsearch, hlen⟩ := provideJudgement_tooManyRegistrars herr
    have := (hs.insert_fits hid (registrarAt_lt hreg) hsearch)
    omega

theorem judgements_sorted_unique_duplicateSubs :
    (∀ t r, duplicateSubsState.identityOf t = some r →
      (r.judgements.toList.map (·.1)).Pairwise (· < ·) ∧
      ∀ j ∈ r.judgements.toList, j.1.toNat < duplicateSubsState.registrars.toList.length) ∧
    (∀ t r regIndex, duplicateSubsState.identityOf t = some r →
      (∀ i, searchJudgements r.judgements.toList regIndex = .ok i →
        ∃ hi : i < r.judgements.toList.length, r.judgements.toList[i].1 = regIndex ∧
          ∀ k (hk : k < r.judgements.toList.length), r.judgements.toList[k].1 = regIndex → k = i) ∧
      (∀ i, searchJudgements r.judgements.toList regIndex = .error i →
        ∀ j ∈ r.judgements.toList, j.1 ≠ regIndex)) ∧
    (∀ t r regIndex i, duplicateSubsState.identityOf t = some r →
      regIndex.toNat < duplicateSubsState.registrars.toList.length →
      searchJudgements r.judgements.toList regIndex = .error i →
      r.judgements.toList.length < duplicateSubsState.registrars.toList.length ∧
        duplicateSubsState.registrars.toList.length ≤ mockConfig.maxRegistrars) ∧
    (∀ origin regIndex maxFee,
      (requestJudgement duplicateSubsState origin regIndex maxFee).2 ≠
        .error (.module .tooManyRegistrars)) ∧
    (∀ origin regIndex target judgement,
      (provideJudgement duplicateSubsState origin regIndex target judgement).2 ≠
        .error (.module .tooManyRegistrars)) :=
  judgements_sorted_unique duplicateSubsState_reachable

/-! ## Who can change a judgement list -/

def judgementsOf (s : State cfg) (t : AccountId) : List (RegistrarIndex × Judgement ℕ) :=
  ((s.identityOf t).map fun r => r.judgements.toList).getD []

omit [DecidableEq AccountId] in
@[simp] theorem judgementsOf_some {t : AccountId} {r : Reg cfg} (h : s.identityOf t = some r) :
    judgementsOf s t = r.judgements.toList := by
  simp [judgementsOf, h]

omit [DecidableEq AccountId] in
theorem judgementsOf_of_identityOf_eq {s' : State cfg} (hid : s'.identityOf = s.identityOf)
    (t : AccountId) : judgementsOf s' t = judgementsOf s t := by
  simp [judgementsOf, hid]

/-- The judgements of `who` are replaced and everyone else's kept. -/
def JudgementsWritten (s s' : State cfg) (who : AccountId)
    (js : List (RegistrarIndex × Judgement ℕ)) : Prop :=
  judgementsOf s' who = js ∧ ∀ t, t ≠ who → judgementsOf s' t = judgementsOf s t

theorem judgementsWritten_of_update {s' : State cfg} {who : AccountId} {v : Option (Reg cfg)}
    (hid : s'.identityOf = Function.update s.identityOf who v) :
    JudgementsWritten s s' who ((v.map fun r => r.judgements.toList).getD []) :=
  ⟨by simp [judgementsOf, hid], fun t ht => by simp [judgementsOf, hid, Function.update_of_ne ht]⟩

omit [DecidableEq AccountId] in
theorem withInfo_judgements (who : AccountId) (info : IdentityInfo cfg.maxAdditionalFields) :
    (withInfo (s.identityOf who) info).judgements.toList =
      (judgementsOf s who).filter fun j => j.2.isSticky := by
  unfold withInfo judgementsOf
  split <;> simp_all

/-! What each call does to the judgement lists. -/

theorem setIdentity_judgements {info : IdentityInfo cfg.maxAdditionalFields}
    (h : (setIdentity s origin info).2 = .ok ()) : ∃ sender, origin = .signed sender ∧
      JudgementsWritten s (setIdentity s origin info).1 sender
        ((judgementsOf s sender).filter fun j => j.2.isSticky) := by
  obtain ⟨sender, balances, hX, -, -, heq⟩ := setIdentity_ok h
  have hw := judgementsWritten_of_update (congrArg State.identityOf heq)
  refine ⟨sender, hX, ?_⟩
  simpa only [Option.map_some, Option.getD_some, withInfo_judgements] using hw

theorem clearIdentity_judgements (h : (clearIdentity s origin).2 = .ok ()) :
    ∃ sender, origin = .signed sender ∧ JudgementsWritten s (clearIdentity s origin).1 sender [] := by
  obtain ⟨sender, id, hX, -, heq⟩ := clearIdentity_ok h
  exact ⟨sender, hX, judgementsWritten_of_update (congrArg State.identityOf heq)⟩

theorem killIdentity_judgements {target : AccountId}
    (h : (killIdentity s origin target).2 = .ok ()) :
    JudgementsWritten s (killIdentity s origin target).1 target [] := by
  obtain ⟨id, -, -, heq⟩ := killIdentity_ok h
  exact judgementsWritten_of_update (congrArg State.identityOf heq)

theorem requestJudgement_judgements {regIndex : RegistrarIndex} {maxFee : ℕ}
    (h : (requestJudgement s origin regIndex maxFee).2 = .ok ()) :
    ∃ sender registrar id js, origin = .signed sender ∧ registrarAt s regIndex = some registrar ∧
      s.identityOf sender = some id ∧
      requestedJudgements id.judgements regIndex (regIndex, .feePaid registrar.fee) = .ok js ∧
      JudgementsWritten s (requestJudgement s origin regIndex maxFee).1 sender js.toList := by
  obtain ⟨sender, registrar, id, js, balances, hX, hreg, -, hid, hjs, -, heq⟩ :=
    requestJudgement_ok h
  exact ⟨sender, registrar, id, js, hX, hreg, hid, hjs,
    judgementsWritten_of_update (congrArg State.identityOf heq)⟩

theorem cancelRequest_judgements {regIndex : RegistrarIndex}
    (h : (cancelRequest s origin regIndex).2 = .ok ()) :
    ∃ sender id fee js, s.identityOf sender = some id ∧
      cancelledJudgements id.judgements regIndex = .ok (fee, js) ∧
      JudgementsWritten s (cancelRequest s origin regIndex).1 sender js.toList := by
  obtain ⟨sender, id, fee, js, -, hid, hjs, heq⟩ := cancelRequest_ok h
  exact ⟨sender, id, fee, js, hid, hjs, judgementsWritten_of_update (congrArg State.identityOf heq)⟩

theorem provideJudgement_judgements {regIndex : RegistrarIndex} {target : AccountId}
    {judgement : Judgement ℕ} (h : (provideJudgement s origin regIndex target judgement).2 = .ok ()) :
    ∃ r id fee js, origin = .signed r.account ∧ registrarAt s regIndex = some r ∧
      s.identityOf target = some id ∧
      providedJudgements id.judgements regIndex (regIndex, judgement) = .ok (fee, js) ∧
      JudgementsWritten s (provideJudgement s origin regIndex target judgement).1 target
        js.toList := by
  obtain ⟨sender, r, id, fee, js, balances, hX, -, hreg, hacc, hid, hjs, -, heq⟩ :=
    provideJudgement_ok h
  exact ⟨r, id, fee, js, by rw [hX, hacc], hreg, hid, hjs,
    judgementsWritten_of_update (congrArg State.identityOf heq)⟩

/-! What the list operations keep and add. -/

section ListOps

variable {js js' : BoundedVec (RegistrarIndex × Judgement ℕ) cfg.maxRegistrars}
  {regIndex : RegistrarIndex} {item a : RegistrarIndex × Judgement ℕ}

omit [DecidableEq AccountId] in
theorem requestedJudgements_mem (h : requestedJudgements js regIndex item = .ok js')
    (ha : a ∈ js'.toList) : a ∈ js.toList ∨ a = item := by
  rcases requestedJudgements_ok h with ⟨i, -, -, -, hjs'⟩ | ⟨i, hsearch, hjs'⟩
  · rw [hjs'] at ha
    exact List.mem_or_eq_of_mem_set ha
  · rw [hjs', List.mem_insertIdx (Slice.binarySearchBy_error_le hsearch)] at ha
    exact ha.symm

omit [DecidableEq AccountId] in
theorem requestedJudgements_keeps (h : requestedJudgements js regIndex item = .ok js')
    (ha : a ∈ js.toList) (hsticky : a.2.isSticky = true) : a ∈ js'.toList := by
  rcases requestedJudgements_ok h with ⟨i, hi, -, hnot, hjs'⟩ | ⟨i, hsearch, hjs'⟩
  · rw [hjs']
    refine BoundedVec.mem_set_of_getElem_ne hi item ha ?_
    rintro rfl
    rw [hnot] at hsticky
    cases hsticky
  · rw [hjs', List.mem_insertIdx (Slice.binarySearchBy_error_le hsearch)]
    exact .inr ha

omit [DecidableEq AccountId] in
theorem providedJudgements_mem {fee : Option ℕ}
    (h : providedJudgements js regIndex item = .ok (fee, js')) (ha : a ∈ js'.toList) :
    a ∈ js.toList ∨ a = item := by
  rcases providedJudgements_ok h with ⟨i, -, -, -, hjs'⟩ | ⟨i, hsearch, -, hjs'⟩
  · rw [hjs'] at ha
    exact List.mem_or_eq_of_mem_set ha
  · rw [hjs', List.mem_insertIdx (Slice.binarySearchBy_error_le hsearch)] at ha
    exact ha.symm

omit [DecidableEq AccountId] in
theorem providedJudgements_keeps {fee : Option ℕ}
    (h : providedJudgements js regIndex item = .ok (fee, js')) (ha : a ∈ js.toList)
    (hkey : a.1 ≠ regIndex) : a ∈ js'.toList := by
  rcases providedJudgements_ok h with ⟨i, hi, hsearch, -, hjs'⟩ | ⟨i, hsearch, -, hjs'⟩
  · rw [hjs']
    obtain ⟨_, hikey⟩ := searchJudgements_key hsearch
    refine BoundedVec.mem_set_of_getElem_ne hi item ha ?_
    rintro rfl
    exact hkey hikey
  · rw [hjs', List.mem_insertIdx (Slice.binarySearchBy_error_le hsearch)]
    exact .inr ha

omit [DecidableEq AccountId] in
theorem cancelledJudgements_keeps {fee : ℕ} (h : cancelledJudgements js regIndex = .ok (fee, js'))
    (ha : a ∈ js.toList) (hfee : a.2.hasDeposit = false) : a ∈ js'.toList := by
  obtain ⟨pos, hpos, -, hpaid, hjs'⟩ := cancelledJudgements_ok h
  rw [hjs']
  refine BoundedVec.mem_eraseIdx_of_getElem_ne hpos ha ?_
  rintro rfl
  rw [hpaid] at hfee
  cases hfee

end ListOps

/-- What one call can add to `t`'s judgements: a `FeePaid` request, or the judgement a
registrar gives through `provide_judgement` signed by its own account. -/
theorem dispatch_judgement_arrives (hc : SubsConsistent s) (call : Call cfg) {t : AccountId}
    {p : RegistrarIndex × Judgement ℕ} (hp : p ∈ judgementsOf (dispatch s origin call).1 t)
    (hnew : p ∉ judgementsOf s t) :
    p.2.hasDeposit = true ∨
      ∃ r, registrarAt s p.1 = some r ∧ origin = .signed r.account ∧
        call = .provideJudgement p.1 t p.2 := by
  cases hres : (dispatch s origin call).2 with
  | error e =>
    rw [hc.dispatch_error hres] at hp
    exact absurd hp hnew
  | ok u =>
    cases u
    have hwritten : ∀ who js, JudgementsWritten s (dispatch s origin call).1 who js →
        t = who ∧ p ∈ js := by
      intro who js hw
      by_cases ht : t = who
      · subst ht
        exact ⟨rfl, hw.1 ▸ hp⟩
      · rw [hw.2 t ht] at hp
        exact absurd hp hnew
    cases call
    case setIdentity info =>
      obtain ⟨sender, -, hw⟩ := setIdentity_judgements hres
      obtain ⟨rfl, hp'⟩ := hwritten _ _ hw
      exact absurd (List.mem_of_mem_filter hp') hnew
    case clearIdentity =>
      obtain ⟨sender, -, hw⟩ := clearIdentity_judgements hres
      exact absurd (hwritten _ _ hw).2 List.not_mem_nil
    case killIdentity target =>
      exact absurd (hwritten _ _ (killIdentity_judgements hres)).2 List.not_mem_nil
    case requestJudgement regIndex maxFee =>
      obtain ⟨sender, registrar, id, js, -, -, hid, hjs, hw⟩ := requestJudgement_judgements hres
      obtain ⟨rfl, hp'⟩ := hwritten _ _ hw
      rw [judgementsOf_some hid] at hnew
      rcases requestedJudgements_mem hjs hp' with hp' | rfl
      · exact absurd hp' hnew
      · exact .inl rfl
    case cancelRequest regIndex =>
      obtain ⟨sender, id, fee, js, hid, hjs, hw⟩ := cancelRequest_judgements hres
      obtain ⟨rfl, hp'⟩ := hwritten _ _ hw
      rw [judgementsOf_some hid] at hnew
      obtain ⟨pos, -, -, -, hjs'⟩ := cancelledJudgements_ok hjs
      rw [hjs'] at hp'
      exact absurd (List.mem_of_mem_eraseIdx hp') hnew
    case provideJudgement regIndex target judgement =>
      obtain ⟨r, id, fee, js, hX, hreg, hid, hjs, hw⟩ := provideJudgement_judgements hres
      obtain ⟨rfl, hp'⟩ := hwritten _ _ hw
      rw [judgementsOf_some hid] at hnew
      rcases providedJudgements_mem hjs hp' with hp' | rfl
      · exact absurd hp' hnew
      · exact .inr ⟨r, hreg, hX, rfl⟩
    all_goals
      have hid := dispatch_identityOf_eq hres rfl
      rw [judgementsOf_of_identityOf_eq hid] at hp
      exact absurd hp hnew

/-- An `Erroneous` judgement leaves `t`'s list only through registrar `i` itself, `t`'s own
`clear_identity` or `kill_identity` of `t`. -/
theorem dispatch_erroneous_kept (hc : SubsConsistent s) (call : Call cfg) {t : AccountId}
    {i : RegistrarIndex} (hp : (i, .erroneous) ∈ judgementsOf s t)
    (hgone : (i, .erroneous) ∉ judgementsOf (dispatch s origin call).1 t) :
    (∃ r j, registrarAt s i = some r ∧ origin = .signed r.account ∧
        call = .provideJudgement i t j) ∨
      (origin = .signed t ∧ call = .clearIdentity) ∨ call = .killIdentity t := by
  cases hres : (dispatch s origin call).2 with
  | error e =>
    rw [hc.dispatch_error hres] at hgone
    exact absurd hp hgone
  | ok u =>
    cases u
    have hwritten : ∀ who js, JudgementsWritten s (dispatch s origin call).1 who js →
        t = who ∧ (i, .erroneous) ∉ js := by
      intro who js hw
      by_cases ht : t = who
      · subst ht
        exact ⟨rfl, hw.1 ▸ hgone⟩
      · rw [hw.2 t ht] at hgone
        exact absurd hp hgone
    cases call
    case setIdentity info =>
      obtain ⟨sender, -, hw⟩ := setIdentity_judgements hres
      obtain ⟨rfl, hgone'⟩ := hwritten _ _ hw
      exact absurd (List.mem_filter.2 ⟨hp, rfl⟩) hgone'
    case clearIdentity =>
      obtain ⟨sender, hX, hw⟩ := clearIdentity_judgements hres
      obtain ⟨rfl, -⟩ := hwritten _ _ hw
      exact .inr (.inl ⟨hX, rfl⟩)
    case killIdentity target =>
      obtain ⟨rfl, -⟩ := hwritten _ _ (killIdentity_judgements hres)
      exact .inr (.inr rfl)
    case requestJudgement regIndex maxFee =>
      obtain ⟨sender, registrar, id, js, -, -, hid, hjs, hw⟩ := requestJudgement_judgements hres
      obtain ⟨rfl, hgone'⟩ := hwritten _ _ hw
      rw [judgementsOf_some hid] at hp
      exact absurd (requestedJudgements_keeps hjs hp rfl) hgone'
    case cancelRequest regIndex =>
      obtain ⟨sender, id, fee, js, hid, hjs, hw⟩ := cancelRequest_judgements hres
      obtain ⟨rfl, hgone'⟩ := hwritten _ _ hw
      rw [judgementsOf_some hid] at hp
      exact absurd (cancelledJudgements_keeps hjs hp rfl) hgone'
    case provideJudgement regIndex target judgement =>
      obtain ⟨r, id, fee, js, hX, hreg, hid, hjs, hw⟩ := provideJudgement_judgements hres
      obtain ⟨rfl, hgone'⟩ := hwritten _ _ hw
      rw [judgementsOf_some hid] at hp
      by_cases hi : i = regIndex
      · subst hi
        exact .inl ⟨r, judgement, hreg, hX, rfl⟩
      · exact absurd (providedJudgements_keeps hjs hp hi) hgone'
    all_goals
      have hid := dispatch_identityOf_eq hres rfl
      rw [judgementsOf_of_identityOf_eq hid] at hgone
      exact absurd hp hgone

/-- No hijacking, over every reachable state: a successful call signed by `X`, other than
`kill_identity`, leaves every `SuperOf` entry of another account that points to another
account as it was (and creates none); a judgement without a fee arrives only through
`provide_judgement` signed by the registrar's current account; and an `Erroneous` judgement
is removed only by that registrar, by the owner's `clear_identity` or by `kill_identity`. -/
theorem no_hijacking {s : State cfg} (h : Reachable s) (origin : Origin AccountId)
    (call : Call cfg) :
    (∀ X, origin = .signed X → (∀ target, call ≠ .killIdentity target) →
      (dispatch s origin call).2 = .ok () →
      ∀ b A name, A ≠ X → b ≠ X →
        ((dispatch s origin call).1.superOf b = some (A, name) ↔
          s.superOf b = some (A, name))) ∧
    (∀ t i j, j.hasDeposit = false → (i, j) ∈ judgementsOf (dispatch s origin call).1 t →
      (i, j) ∉ judgementsOf s t →
      ∃ r, registrarAt s i = some r ∧ origin = .signed r.account ∧
        call = .provideJudgement i t j) ∧
    (∀ t i, (i, .erroneous) ∈ judgementsOf s t →
      (i, .erroneous) ∉ judgementsOf (dispatch s origin call).1 t →
      (∃ r j, registrarAt s i = some r ∧ origin = .signed r.account ∧
          call = .provideJudgement i t j) ∨
        (origin = .signed t ∧ call = .clearIdentity) ∨ call = .killIdentity t) := by
  have hc := h.subsConsistent
  refine ⟨fun X hX hkill hok b A name hA hb => ?_, fun t i j hfee hp hnew => ?_,
    fun t i hp hgone => dispatch_erroneous_kept hc call hp hgone⟩
  · subst hX
    exact (hc.dispatch_keepsOthers hkill hok).superOf_iff hb hA
  · rcases dispatch_judgement_arrives hc call hp hnew with hdep | hgiven
    · rw [hdep] at hfee
      cases hfee
    · exact hgiven

theorem no_hijacking_removeSub :
    (∀ X, Origin.signed 10 = .signed X →
      (∀ target, (Call.removeSub 1 : Call mockConfig) ≠ .killIdentity target) →
      (dispatch duplicateSubsState (.signed 10) (.removeSub 1)).2 = .ok () →
      ∀ b A name, A ≠ X → b ≠ X →
        ((dispatch duplicateSubsState (.signed 10) (.removeSub 1)).1.superOf b = some (A, name) ↔
          duplicateSubsState.superOf b = some (A, name))) ∧
    (∀ t i j, j.hasDeposit = false →
      (i, j) ∈ judgementsOf (dispatch duplicateSubsState (.signed 10) (.removeSub 1)).1 t →
      (i, j) ∉ judgementsOf duplicateSubsState t →
      ∃ r, registrarAt duplicateSubsState i = some r ∧ Origin.signed 10 = .signed r.account ∧
        (Call.removeSub 1 : Call mockConfig) = .provideJudgement i t j) ∧
    (∀ t i, (i, .erroneous) ∈ judgementsOf duplicateSubsState t →
      (i, .erroneous) ∉ judgementsOf (dispatch duplicateSubsState (.signed 10) (.removeSub 1)).1 t →
      (∃ r j, registrarAt duplicateSubsState i = some r ∧ Origin.signed 10 = .signed r.account ∧
          (Call.removeSub 1 : Call mockConfig) = .provideJudgement i t j) ∨
        (Origin.signed 10 = .signed t ∧ (Call.removeSub 1 : Call mockConfig) = .clearIdentity) ∨
          (Call.removeSub 1 : Call mockConfig) = .killIdentity t) :=
  no_hijacking duplicateSubsState_reachable (.signed 10) (.removeSub 1)

end ZeroNet.Identity
