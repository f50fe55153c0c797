import ZeroNet.IdentitySteps

/-!
# The sub-account graph

`SuperOf` maps a sub-account to its super and `SubsOf` maps a super to its list of subs. The
two are kept in step by every call: a sub points to a super exactly when the super lists it,
and an account with no identity has the default `SubsOf` entry, so no sub points to it. From
this invariant a failed call is shown to write nothing (the `SubsOf::take` before the
`NotNamed` check of `clear_identity` and `kill_identity` takes an entry that is already the
default), and a call signed by one account leaves the sub-accounts of every other account
alone.
-/

namespace ZeroNet.Identity

variable {AccountId : Type} [DecidableEq AccountId] {cfg : Config AccountId}
  {s : State cfg} {origin : Origin AccountId}

/-- `SuperOf` and `SubsOf` describe the same graph, and only named accounts have subs. -/
structure SubsConsistent (s : State cfg) : Prop where
  superOf_iff : ∀ a b, (∃ name, s.superOf b = some (a, name)) ↔ b ∈ (s.subsOf a).2.toList
  named : ∀ a, s.identityOf a = none → s.subsOf a = (0, default)

omit [DecidableEq AccountId] in
theorem subsConsistent_genesis (free : AccountId → ℕ) : SubsConsistent (genesis cfg free) where
  superOf_iff a b := by simp [genesis]
  named a _ := rfl

namespace SubsConsistent

omit [DecidableEq AccountId] in
theorem super_named (h : SubsConsistent s) {a b : AccountId} {name : Data}
    (hb : s.superOf b = some (a, name)) : (s.identityOf a).isSome := by
  have hmem : b ∈ (s.subsOf a).2.toList := (h.superOf_iff a b).1 ⟨name, hb⟩
  cases hid : s.identityOf a with
  | some _ => rfl
  | none => simp [h.named a hid] at hmem

theorem dispatch_error (h : SubsConsistent s) {call : Call cfg} {e : DispatchError}
    (herr : (dispatch s origin call).2 = .error e) : (dispatch s origin call).1 = s := by
  rcases dispatch_error_cases herr with hs | ⟨who, hid, hs⟩
  · exact hs
  · exact hs.trans (State.takeSubsOf_of_default (h.named who hid))

/-! ## One lemma per shape of write -/

variable {s' : State cfg}

omit [DecidableEq AccountId] in
theorem of_maps_eq (h : SubsConsistent s) (hsup : s'.superOf = s.superOf)
    (hsubs : s'.subsOf = s.subsOf) (hid : ∀ a, s'.identityOf a = none → s.identityOf a = none) :
    SubsConsistent s' where
  superOf_iff a b := by rw [hsup, hsubs]; exact h.superOf_iff a b
  named a ha := by rw [hsubs]; exact h.named a (hid a ha)

theorem clear (h : SubsConsistent s) {who : AccountId}
    (hid : s'.identityOf = Function.update s.identityOf who none)
    (hsup : s'.superOf = removeSupers s.superOf (s.subsOf who).2.toList)
    (hsubs : s'.subsOf = Function.update s.subsOf who (0, default)) : SubsConsistent s' where
  superOf_iff a b := by
    rw [hsup, hsubs, removeSupers_apply]
    by_cases ha : a = who
    · subst ha
      simp only [Function.update_self, BoundedVec.default_toList, List.not_mem_nil, iff_false]
      rintro ⟨name, hb⟩
      split_ifs at hb with hmem
      exact hmem ((h.superOf_iff a b).1 ⟨name, hb⟩)
    · rw [Function.update_of_ne ha, ← h.superOf_iff a b]
      split_ifs with hmem
      · obtain ⟨n, hn⟩ := (h.superOf_iff who b).2 hmem
        simp only [exists_false, false_iff, not_exists]
        intro name hb
        rw [hn] at hb
        exact ha (Prod.mk.inj (Option.some.inj hb)).1.symm
      · rfl
  named a ha := by
    rw [hsubs]
    by_cases haw : a = who
    · subst haw; rw [Function.update_self]
    · rw [hid, Function.update_of_ne haw] at ha
      rw [Function.update_of_ne haw]
      exact h.named a ha

theorem release (h : SubsConsistent s) {sup sub : AccountId} {name : Data} {deposit : ℕ}
    (hsub : s.superOf sub = some (sup, name)) (hid : s'.identityOf = s.identityOf)
    (hsup : s'.superOf = Function.update s.superOf sub none)
    (hsubs : s'.subsOf = Function.update s.subsOf sup
      (deposit, (s.subsOf sup).2.retain fun x => decide (x ≠ sub))) : SubsConsistent s' where
  superOf_iff a b := by
    rw [hsup, hsubs]
    by_cases hb : b = sub
    · subst hb
      simp only [Function.update_self, reduceCtorEq, exists_false, false_iff]
      by_cases ha : a = sup
      · subst ha; simp
      · rw [Function.update_of_ne ha, ← h.superOf_iff a b, hsub]
        rintro ⟨n, hn⟩
        exact ha (Prod.mk.inj (Option.some.inj hn)).1.symm
    · rw [Function.update_of_ne hb]
      by_cases ha : a = sup
      · subst ha
        simp only [Function.update_self, BoundedVec.retain_toList, List.mem_filter, hb, ne_eq,
          decide_not]
        simpa using h.superOf_iff a b
      · rw [Function.update_of_ne ha]
        exact h.superOf_iff a b
  named a ha := by
    rw [hid] at ha
    have hsup_named := h.super_named hsub
    rw [hsubs, Function.update_of_ne]
    · exact h.named a ha
    · rintro rfl
      simp [ha] at hsup_named

/-! ## Each call keeps the graph consistent -/

theorem none_of_update_some {f : AccountId → Option (Reg cfg)} {who a : AccountId} {r : Reg cfg}
    (h : Function.update f who (some r) a = none) : f a = none := by
  by_cases ha : a = who
  · subst ha; simp at h
  · simpa [ha] using h

/-- A call that leaves `SubsOf` alone removes no registration: only `clear_identity` and
`kill_identity` do. -/
theorem identityOf_none_of_dispatch {call : Call cfg} (hok : (dispatch s origin call).2 = .ok ())
    (hcall : call.writesSubs = false) (a : AccountId)
    (ha : (dispatch s origin call).1.identityOf a = none) : s.identityOf a = none := by
  cases hw : call.writesIdentity
  · rwa [dispatch_identityOf_eq hok hw] at ha
  · cases call with
    | setIdentity _ | requestJudgement _ _ | cancelRequest _ | provideJudgement _ _ _ =>
      obtain ⟨who, r, balances, events, heq⟩ := dispatch_of_storesRegistration hok rfl
      rw [heq] at ha
      exact none_of_update_some ha
    | setSubs | clearIdentity | killIdentity | addSub | removeSub | quitSub => cases hcall
    | addRegistrar | setFee | setAccountId | setFields | renameSub => cases hw

theorem setSubs_step (h : SubsConsistent s) {subs : List (AccountId × Data)}
    (hok : (setSubs s origin subs).2 = .ok ()) : SubsConsistent (setSubs s origin subs).1 := by
  obtain ⟨sender, balances, -, hid, hother, -, ids, hids, heq⟩ := setSubs_ok hok
  rw [heq]
  have hnot : ∀ b ∈ subs.map Prod.fst, ∀ a name, s.superOf b = some (a, name) → a = sender := by
    intro b hb a name hsb
    obtain ⟨p, hp, rfl⟩ := List.mem_map.1 hb
    have hall := List.all_eq_true.1 hother (a, name) (List.mem_filterMap.2 ⟨p, hp, hsb⟩)
    simpa using hall
  have hentry : (if ids.toList.isEmpty then ((0 : ℕ), (default : BoundedVec _ _))
      else (cfg.subAccountDeposit * subs.length, ids)).2.toList = subs.map Prod.fst := by
    split_ifs with hempty
    · rw [List.isEmpty_iff.1 hempty] at hids
      rw [BoundedVec.default_toList, hids]
    · exact hids
  constructor
  · intro a b
    dsimp only
    by_cases hb : b ∈ subs.map Prod.fst
    · obtain ⟨n, hn⟩ := insertSupers_of_mem (removeSupers s.superOf (s.subsOf sender).2.toList) hb
      rw [hn]
      by_cases ha : a = sender
      · subst ha
        rw [Function.update_self, hentry]
        simpa using hb
      · rw [Function.update_of_ne ha, ← h.superOf_iff a b]
        constructor
        · rintro ⟨_, hx⟩
          exact absurd (Prod.mk.inj (Option.some.inj hx)).1.symm ha
        · rintro ⟨name, hx⟩
          exact absurd (hnot b hb a name hx) ha
    · rw [insertSupers_of_not_mem hb, removeSupers_apply]
      by_cases ha : a = sender
      · subst ha
        simp only [Function.update_self, hentry, hb, iff_false, not_exists]
        intro name hx
        split_ifs at hx with hold
        exact hold ((h.superOf_iff a b).1 ⟨name, hx⟩)
      · rw [Function.update_of_ne ha, ← h.superOf_iff a b]
        split_ifs with hold
        · obtain ⟨n, hn⟩ := (h.superOf_iff sender b).2 hold
          simp only [exists_false, false_iff, not_exists]
          intro name hx
          rw [hn] at hx
          exact ha (Prod.mk.inj (Option.some.inj hx)).1.symm
        · rfl
  · intro a ha
    dsimp only at ha ⊢
    have haw : a ≠ sender := by
      rintro rfl
      simp [ha] at hid
    rw [Function.update_of_ne haw]
    exact h.named a ha

theorem addSub_step (h : SubsConsistent s) {sub : AccountId} {data : Data}
    (hok : (addSub s origin sub data).2 = .ok ()) : SubsConsistent (addSub s origin sub data).1 := by
  obtain ⟨sender, balances, -, hid, hfree, -, subIds, hsubIds, heq⟩ := addSub_ok hok
  rw [heq]
  constructor
  · intro a b
    simp only [State.depositEvent_superOf, State.depositEvent_subsOf]
    by_cases hb : b = sub
    · subst hb
      have hnot : ∀ a, b ∉ (s.subsOf a).2.toList := by
        intro a hmem
        obtain ⟨n, hn⟩ := (h.superOf_iff a b).2 hmem
        rw [hfree] at hn
        cases hn
      by_cases ha : a = sender
      · subst ha; simp [hsubIds]
      · simp [ha, Ne.symm ha, hnot a]
    · rw [Function.update_of_ne hb]
      by_cases ha : a = sender
      · subst ha; simp [hsubIds, hb, h.superOf_iff]
      · rw [Function.update_of_ne ha]
        exact h.superOf_iff a b
  · intro a ha
    simp only [State.depositEvent_identityOf, State.depositEvent_subsOf] at ha ⊢
    have haw : a ≠ sender := by
      rintro rfl
      simp [ha] at hid
    rw [Function.update_of_ne haw]
    exact h.named a ha

theorem renameSub_step (h : SubsConsistent s) {sub : AccountId} {data : Data}
    (hok : (renameSub s origin sub data).2 = .ok ()) :
    SubsConsistent (renameSub s origin sub data).1 := by
  obtain ⟨sender, -, -, howned, heq⟩ := renameSub_ok hok
  obtain ⟨⟨sup, name⟩, hsub, hsup⟩ : ∃ x, s.superOf sub = some x ∧ x.1 = sender := by
    cases hx : s.superOf sub with
    | none => simp [hx] at howned
    | some x => exact ⟨x, rfl, by simpa [hx] using howned⟩
  subst hsup
  rw [heq]
  constructor
  · intro a b
    dsimp only
    by_cases hb : b = sub
    · subst hb
      rw [Function.update_self, ← h.superOf_iff a b, hsub]
      simp
    · rw [Function.update_of_ne hb]
      exact h.superOf_iff a b
  · exact h.named

theorem removeSub_step (h : SubsConsistent s) {sub : AccountId}
    (hok : (removeSub s origin sub).2 = .ok ()) : SubsConsistent (removeSub s origin sub).1 := by
  obtain ⟨sender, name, -, -, hsub, heq⟩ := removeSub_ok hok
  rw [heq]
  exact h.release hsub rfl rfl rfl

theorem quitSub_step (h : SubsConsistent s) (hok : (quitSub s origin).2 = .ok ()) :
    SubsConsistent (quitSub s origin).1 := by
  obtain ⟨sender, sup, name, -, hsub, heq⟩ := quitSub_ok hok
  rw [heq]
  exact h.release hsub rfl rfl rfl

theorem dispatch_step (h : SubsConsistent s) (call : Call cfg) :
    SubsConsistent (dispatch s origin call).1 := by
  cases hres : (dispatch s origin call).2 with
  | error e => rw [h.dispatch_error hres]; exact h
  | ok u =>
    cases u
    cases call
    case setSubs subs => exact h.setSubs_step hres
    case clearIdentity =>
      obtain ⟨sender, id, -, -, heq⟩ := clearIdentity_ok hres
      exact h.clear (by rw [dispatch, heq]; rfl) (by rw [dispatch, heq]; rfl)
        (by rw [dispatch, heq]; rfl)
    case killIdentity target =>
      obtain ⟨id, -, -, heq⟩ := killIdentity_ok hres
      exact h.clear (by rw [dispatch, heq]; rfl) (by rw [dispatch, heq]; rfl)
        (by rw [dispatch, heq]; rfl)
    case addSub sub data => exact h.addSub_step hres
    case renameSub sub data => exact h.renameSub_step hres
    case removeSub sub => exact h.removeSub_step hres
    case quitSub => exact h.quitSub_step hres
    all_goals
      exact h.of_maps_eq (dispatch_superOf_eq hres rfl) (dispatch_subsOf_eq hres rfl)
        (identityOf_none_of_dispatch hres rfl)

end SubsConsistent

theorem Reachable.subsConsistent {s : State cfg} (h : Reachable s) : SubsConsistent s := by
  induction h with
  | genesis free => exact subsConsistent_genesis free
  | step origin call _ ih => exact ih.dispatch_step call

/-! ## What the invariant gives -/

namespace SubsConsistent

omit [DecidableEq AccountId] in
theorem named_of_subs (h : SubsConsistent s) {a : AccountId}
    (ha : s.subsOf a ≠ (0, default) ∨ ∃ b name, s.superOf b = some (a, name)) :
    (s.identityOf a).isSome := by
  rcases ha with hsubs | ⟨b, name, hb⟩
  · cases hid : s.identityOf a with
    | some _ => rfl
    | none => exact absurd (h.named a hid) hsubs
  · exact h.super_named hb

omit [DecidableEq AccountId] in
theorem super_unique (h : SubsConsistent s) {a₁ a₂ b : AccountId}
    (h₁ : b ∈ (s.subsOf a₁).2.toList) (h₂ : b ∈ (s.subsOf a₂).2.toList) : a₁ = a₂ := by
  obtain ⟨n₁, hn₁⟩ := (h.superOf_iff a₁ b).2 h₁
  obtain ⟨n₂, hn₂⟩ := (h.superOf_iff a₂ b).2 h₂
  rw [hn₁] at hn₂
  exact (Prod.mk.inj (Option.some.inj hn₂)).1

omit [DecidableEq AccountId] in
/-- `Pallet::subs(a)` lists exactly the accounts whose `SuperOf` points to `a`, with their
names. -/
theorem mem_subs_iff (h : SubsConsistent s) {a b : AccountId} {name : Data} :
    (b, name) ∈ subs s a ↔ s.superOf b = some (a, name) := by
  unfold subs
  rw [List.mem_filterMap]
  constructor
  · rintro ⟨x, hx, hmap⟩
    obtain ⟨⟨sup, n⟩, hsx, hpair⟩ := Option.map_eq_some_iff.1 hmap
    obtain ⟨rfl, rfl⟩ := Prod.mk.inj hpair
    obtain ⟨n', hn'⟩ := (h.superOf_iff a x).2 hx
    rw [hsx] at hn' ⊢
    rw [(Prod.mk.inj (Option.some.inj hn')).1]
  · intro hb
    exact ⟨b, (h.superOf_iff a b).1 ⟨name, hb⟩, by simp [hb]⟩

omit [DecidableEq AccountId] in
theorem no_dangling (h : SubsConsistent s) {a : AccountId} (ha : s.identityOf a = none)
    (b : AccountId) (name : Data) : s.superOf b ≠ some (a, name) := by
  intro hb
  simpa [ha] using h.super_named hb

/-! ## A call signed by `X` leaves the subs of other accounts alone -/

/-- Each entry of `SuperOf` other than `X`'s own either stays, or pointed to `X` before and
points to `X` after. -/
def KeepsOthers (X : AccountId) (s s' : State cfg) : Prop :=
  ∀ b, b ≠ X → s'.superOf b = s.superOf b ∨
    (∀ p, s.superOf b = some p → p.1 = X) ∧ ∀ p, s'.superOf b = some p → p.1 = X

omit [DecidableEq AccountId] in
theorem KeepsOthers.superOf_iff {X : AccountId} {s' : State cfg} (hk : KeepsOthers X s s')
    {b A : AccountId} {name : Data} (hb : b ≠ X) (hA : A ≠ X) :
    s'.superOf b = some (A, name) ↔ s.superOf b = some (A, name) := by
  rcases hk b hb with heq | ⟨hbefore, hafter⟩
  · rw [heq]
  · exact ⟨fun h' => absurd (hafter _ h') hA, fun h' => absurd (hbefore _ h') hA⟩

omit [DecidableEq AccountId] in
theorem keepsOthers_of_superOf_eq {X : AccountId} {s' : State cfg}
    (hsup : s'.superOf = s.superOf) : KeepsOthers X s s' :=
  fun _ _ => .inl (by rw [hsup])

theorem setSubs_keepsOthers (h : SubsConsistent s) {X : AccountId} {subs : List (AccountId × Data)}
    (hok : (setSubs s (.signed X) subs).2 = .ok ()) :
    KeepsOthers X s (setSubs s (.signed X) subs).1 := by
  obtain ⟨sender, balances, hX, -, hother, -, ids, -, heq⟩ := setSubs_ok hok
  cases hX
  rw [heq]
  intro b _
  dsimp only
  by_cases hnew : b ∈ subs.map Prod.fst
  · -- a new sub: `not_other_sub` let it through only if it was free or already `X`'s
    right
    refine ⟨fun p hp => ?_, fun p hp => ?_⟩
    · obtain ⟨q, hq, rfl⟩ := List.mem_map.1 hnew
      simpa using List.all_eq_true.1 hother p (List.mem_filterMap.2 ⟨q, hq, hp⟩)
    · obtain ⟨n, hn⟩ := insertSupers_of_mem (removeSupers s.superOf (s.subsOf X).2.toList) hnew
      rw [hn] at hp
      rw [← Option.some.inj hp]
  · rw [insertSupers_of_not_mem hnew, removeSupers_apply]
    split_ifs with hold
    · right
      refine ⟨fun p hp => ?_, fun p hp => by cases hp⟩
      obtain ⟨n, hn⟩ := (h.superOf_iff X b).2 hold
      rw [hn] at hp
      rw [← Option.some.inj hp]
    · exact .inl rfl

theorem clear_keepsOthers (h : SubsConsistent s) {X : AccountId} {s' : State cfg}
    (hsup : s'.superOf = removeSupers s.superOf (s.subsOf X).2.toList) : KeepsOthers X s s' := by
  intro b _
  rw [hsup, removeSupers_apply]
  split_ifs with hold
  · right
    refine ⟨fun p hp => ?_, fun p hp => by cases hp⟩
    obtain ⟨n, hn⟩ := (h.superOf_iff X b).2 hold
    rw [hn] at hp
    rw [← Option.some.inj hp]
  · exact .inl rfl

theorem keepsOthers_of_update {X sub : AccountId} {v : Option (AccountId × Data)}
    {s' : State cfg} (hsup : s'.superOf = Function.update s.superOf sub v)
    (hbefore : ∀ p, s.superOf sub = some p → p.1 = X) (hafter : ∀ p, v = some p → p.1 = X) :
    KeepsOthers X s s' := by
  intro b _
  rw [hsup]
  by_cases hb : b = sub
  · subst hb
    exact .inr ⟨hbefore, by rw [Function.update_self]; exact hafter⟩
  · exact .inl (Function.update_of_ne hb _ _)

/-- Every successful call signed by `X`, other than `kill_identity`, keeps the subs of other
accounts. -/
theorem dispatch_keepsOthers (h : SubsConsistent s) {X : AccountId} {call : Call cfg}
    (hkill : ∀ target, call ≠ .killIdentity target)
    (hok : (dispatch s (.signed X) call).2 = .ok ()) :
    KeepsOthers X s (dispatch s (.signed X) call).1 := by
  cases call
  case setSubs subs => exact h.setSubs_keepsOthers hok
  case clearIdentity =>
    obtain ⟨sender, id, hX, -, heq⟩ := clearIdentity_ok hok
    cases hX
    exact h.clear_keepsOthers (by rw [dispatch, heq]; rfl)
  case killIdentity target => exact absurd rfl (hkill target)
  case addSub sub data =>
    obtain ⟨sender, balances, hX, -, hfree, -, subIds, -, heq⟩ := addSub_ok hok
    cases hX
    exact keepsOthers_of_update (by rw [dispatch, heq]; rfl) (by simp [hfree])
      (by rintro p ⟨⟩; rfl)
  case renameSub sub data =>
    obtain ⟨sender, hX, -, howned, heq⟩ := renameSub_ok hok
    cases hX
    refine keepsOthers_of_update (by rw [dispatch, heq]) (fun p hp => ?_) (by rintro p ⟨⟩; rfl)
    simpa [hp] using howned
  case removeSub sub =>
    obtain ⟨sender, name, hX, -, hsub, heq⟩ := removeSub_ok hok
    cases hX
    exact keepsOthers_of_update (by rw [dispatch, heq]; rfl) (by rintro p hp; simp_all)
      (by rintro p ⟨⟩)
  case quitSub =>
    obtain ⟨sender, sup, name, hX, -, heq⟩ := quitSub_ok hok
    cases hX
    intro b hb
    left
    rw [dispatch, heq]
    exact Function.update_of_ne hb _ _
  all_goals exact keepsOthers_of_superOf_eq (dispatch_superOf_eq hok rfl)

end SubsConsistent

/-- The sub-account graph is consistent in every reachable state, and what follows from that:
every account is the sub of at most one super, `Pallet::subs` reads the graph back exactly,
and a successful `clear_identity` or `kill_identity` leaves no sub pointing to the cleared
account. -/
theorem subs_graph_consistent {s : State cfg} (h : Reachable s) :
    (∀ a b, (∃ name, s.superOf b = some (a, name)) ↔ b ∈ (s.subsOf a).2.toList) ∧
    (∀ a, (s.subsOf a ≠ (0, default) ∨ ∃ b name, s.superOf b = some (a, name)) →
      (s.identityOf a).isSome) ∧
    (∀ a₁ a₂ b, b ∈ (s.subsOf a₁).2.toList → b ∈ (s.subsOf a₂).2.toList → a₁ = a₂) ∧
    (∀ a b name, (b, name) ∈ subs s a ↔ s.superOf b = some (a, name)) ∧
    (∀ sender, (clearIdentity s (.signed sender)).2 = .ok () →
      ∀ b name, (clearIdentity s (.signed sender)).1.superOf b ≠ some (sender, name)) ∧
    (∀ origin target, (killIdentity s origin target).2 = .ok () →
      ∀ b name, (killIdentity s origin target).1.superOf b ≠ some (target, name)) := by
  have hs := h.subsConsistent
  refine ⟨hs.superOf_iff, fun a => hs.named_of_subs, fun _ _ _ => hs.super_unique,
    fun _ _ _ => hs.mem_subs_iff, fun sender hok => ?_, fun origin target hok => ?_⟩
  · have hs' := (Reachable.step (.signed sender) .clearIdentity h).subsConsistent
    obtain ⟨_, id, hX, -, heq⟩ := clearIdentity_ok hok
    cases hX
    exact hs'.no_dangling (by rw [dispatch, heq]; simp)
  · have hs' := (Reachable.step origin (.killIdentity target) h).subsConsistent
    obtain ⟨id, -, -, heq⟩ := killIdentity_ok hok
    exact hs'.no_dangling (by rw [dispatch, heq]; simp)

theorem subs_graph_consistent_duplicateSubs :
    (∀ a b, (∃ name, duplicateSubsState.superOf b = some (a, name)) ↔
      b ∈ (duplicateSubsState.subsOf a).2.toList) ∧
    (∀ a, (duplicateSubsState.subsOf a ≠ (0, default) ∨
      ∃ b name, duplicateSubsState.superOf b = some (a, name)) →
      (duplicateSubsState.identityOf a).isSome) ∧
    (∀ a₁ a₂ b, b ∈ (duplicateSubsState.subsOf a₁).2.toList →
      b ∈ (duplicateSubsState.subsOf a₂).2.toList → a₁ = a₂) ∧
    (∀ a b name, (b, name) ∈ subs duplicateSubsState a ↔
      duplicateSubsState.superOf b = some (a, name)) ∧
    (∀ sender, (clearIdentity duplicateSubsState (.signed sender)).2 = .ok () →
      ∀ b name, (clearIdentity duplicateSubsState (.signed sender)).1.superOf b ≠
        some (sender, name)) ∧
    (∀ origin target, (killIdentity duplicateSubsState origin target).2 = .ok () →
      ∀ b name, (killIdentity duplicateSubsState origin target).1.superOf b ≠
        some (target, name)) :=
  subs_graph_consistent duplicateSubsState_reachable

/-- A failed call, with any origin and arguments, changes nothing: the calls are not
transactional, and the only write before a failing check (the `SubsOf::take` of
`clear_identity` and `kill_identity`) takes an entry that is already the default. -/
theorem dispatch_error_atomic {s : State cfg} (h : Reachable s) (origin : Origin AccountId)
    (call : Call cfg) {e : DispatchError} (herr : (dispatch s origin call).2 = .error e) :
    (dispatch s origin call).1 = s :=
  h.subsConsistent.dispatch_error herr

/-- `clear_identity` by 20, who has no identity, fails after taking its `SubsOf` entry, which
was already the default. -/
theorem clearIdentity_unnamed_atomic :
    (dispatch duplicateSubsState (.signed 20) .clearIdentity).2 = .error (.module .notNamed) ∧
      (dispatch duplicateSubsState (.signed 20) .clearIdentity).1 = duplicateSubsState :=
  ⟨rfl, dispatch_error_atomic duplicateSubsState_reachable (.signed 20) .clearIdentity rfl⟩

end ZeroNet.Identity
