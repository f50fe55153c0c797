import ZeroNet.IdentityJudgements

/-!
# Registrars keep their entries

`add_registrar` appends to `Registrars`, and `set_fee`, `set_account_id` and `set_fields`
rewrite the entry at their index once the sender is shown to be its account; no call removes
an entry or writes one at another index. So an entry, once there, stays there, and over any
run in which its account signs no call it stays exactly as it is: nobody but the registrar
changes its fee, its account or its fields.
-/

namespace ZeroNet.Identity

variable {AccountId : Type} [DecidableEq AccountId] {cfg : Config AccountId}
  {s : State cfg} {origin : Origin AccountId}

section Entries

omit [DecidableEq AccountId]

variable {s' : State cfg} {index : RegistrarIndex} {r : RegistrarInfo ℕ AccountId}

theorem registrarAt_of_registrars_eq (h : s'.registrars = s.registrars) (index : RegistrarIndex) :
    registrarAt s' index = registrarAt s index := by
  rw [registrarAt, registrarAt, h]

theorem registrarAt_of_append {x : Option (RegistrarInfo ℕ AccountId)}
    (h : s'.registrars.toList = s.registrars.toList ++ [x]) (hr : registrarAt s index = some r) :
    registrarAt s' index = some r := by
  have hlt := registrarAt_lt hr
  unfold registrarAt at hr ⊢
  rw [h, List.getElem?_append_left hlt, hr]

theorem registrarAt_set {i : RegistrarIndex} {x : Option (RegistrarInfo ℕ AccountId)}
    (hr : registrarAt s index = some r) :
    registrarAt { s with registrars := s.registrars.set i.toNat x } index =
      if i = index then x else some r := by
  have hlt := registrarAt_lt hr
  unfold registrarAt at hr ⊢
  simp only [BoundedVec.set_toList]
  by_cases hi : i = index
  · subst hi
    rw [if_pos rfl, List.getElem?_set_self hlt, Option.join_some]
  · have hne : i.toNat ≠ index.toNat := fun h => hi (UInt32.toNat_inj.1 h)
    rw [if_neg hi, List.getElem?_set_ne hne, hr]

end Entries

theorem mutateRegistrar_registrarAt {i index : RegistrarIndex}
    {update : RegistrarInfo ℕ AccountId → RegistrarInfo ℕ AccountId}
    {r : RegistrarInfo ℕ AccountId} (h : (mutateRegistrar s origin i update).2 = .ok ())
    (hr : registrarAt s index = some r) :
    registrarAt (mutateRegistrar s origin i update).1 index = some r ∨
      i = index ∧ origin = .signed r.account ∧
        registrarAt (mutateRegistrar s origin i update).1 index = some (update r) := by
  obtain ⟨who, r₀, horigin, hr₀, hacc, heq⟩ := mutateRegistrar_ok h
  rw [heq, registrarAt_set hr]
  by_cases hi : i = index
  · subst hi
    rw [hr, Option.some.injEq] at hr₀
    subst hr₀
    exact .inr ⟨rfl, horigin.trans (congrArg Origin.signed hacc.symm), if_pos rfl⟩
  · exact .inl (if_neg hi)

theorem dispatch_registrarAt {index : RegistrarIndex} {r : RegistrarInfo ℕ AccountId}
    (hr : registrarAt s index = some r) (origin : Origin AccountId) (call : Call cfg) :
    registrarAt (dispatch s origin call).1 index = some r ∨
      origin = .signed r.account ∧
        ((∃ fee, call = .setFee index fee ∧
            registrarAt (dispatch s origin call).1 index = some { r with fee }) ∨
          (∃ new, call = .setAccountId index new ∧
            registrarAt (dispatch s origin call).1 index = some { r with account := new }) ∨
          (∃ fields, call = .setFields index fields ∧
            registrarAt (dispatch s origin call).1 index = some { r with fields })) := by
  cases hres : (dispatch s origin call).2 with
  | error e =>
    left
    rcases dispatch_error_cases hres with heq | ⟨who, -, heq⟩
    · rw [heq, hr]
    · rw [heq, registrarAt_of_registrars_eq (State.takeSubsOf_registrars s who), hr]
  | ok u =>
    cases u
    cases call with
    | addRegistrar account =>
      obtain ⟨-, registrars, hpush, heq⟩ := addRegistrar_ok hres
      left
      rw [dispatch, heq]
      exact registrarAt_of_append (BoundedVec.tryPush_eq_some.1 hpush).2 hr
    | setFee i fee =>
      rcases mutateRegistrar_registrarAt hres hr with h | ⟨rfl, horigin, h⟩
      · exact .inl h
      · exact .inr ⟨horigin, .inl ⟨fee, rfl, h⟩⟩
    | setAccountId i new =>
      rcases mutateRegistrar_registrarAt hres hr with h | ⟨rfl, horigin, h⟩
      · exact .inl h
      · exact .inr ⟨horigin, .inr (.inl ⟨new, rfl, h⟩)⟩
    | setFields i fields =>
      rcases mutateRegistrar_registrarAt hres hr with h | ⟨rfl, horigin, h⟩
      · exact .inl h
      · exact .inr ⟨horigin, .inr (.inr ⟨fields, rfl, h⟩)⟩
    | setIdentity | setSubs | clearIdentity | requestJudgement | cancelRequest
    | provideJudgement | killIdentity | addSub | renameSub | removeSub | quitSub =>
      left
      rw [registrarAt_of_registrars_eq (dispatch_registrars_eq hres rfl), hr]

theorem dispatch_registrarAt_isSome {index : RegistrarIndex} {r : RegistrarInfo ℕ AccountId}
    (hr : registrarAt s index = some r) (origin : Origin AccountId) (call : Call cfg) :
    (registrarAt (dispatch s origin call).1 index).isSome := by
  rcases dispatch_registrarAt hr origin call with h | ⟨-, ⟨_, -, h⟩ | ⟨_, -, h⟩ | ⟨_, -, h⟩⟩ <;>
    simp [h]

/-- Over any run of calls from any state, a registrar's entry is never removed, and it stays
exactly as it is as long as its own account signs no call. -/
theorem registrar_entry_kept (s : State cfg) (calls : List (Origin AccountId × Call cfg))
    {index : RegistrarIndex} {r : RegistrarInfo ℕ AccountId}
    (hr : registrarAt s index = some r) :
    (registrarAt (applyCalls s calls) index).isSome ∧
      ((∀ c ∈ calls, c.1 ≠ .signed r.account) →
        registrarAt (applyCalls s calls) index = some r) := by
  -- induction on the run; the entry may change from step to step, so the first part carries
  -- whichever entry is there
  induction calls generalizing s r with
  | nil => exact ⟨by simp [applyCalls, hr], fun _ => hr⟩
  | cons c calls ih =>
    obtain ⟨r', hr'⟩ := Option.isSome_iff_exists.1 (dispatch_registrarAt_isSome hr c.1 c.2)
    refine ⟨(ih _ hr').1, fun hcalls => ?_⟩
    have hstep : registrarAt (dispatch s c.1 c.2).1 index = some r := by
      rcases dispatch_registrarAt hr c.1 c.2 with h | ⟨horigin, -⟩
      · exact h
      · exact absurd horigin (hcalls c List.mem_cons_self)
    exact (ih _ hstep).2 fun c' hc' => hcalls c' (List.mem_cons_of_mem c hc')

def registrarState : State mockConfig :=
  applyCalls (genesis mockConfig mockEndowment) [(.root, .addRegistrar 5)]

def otherRegistrarCalls : List (Origin ℕ × Call mockConfig) :=
  [(.signed 10, .setFee 0 3), (.signed 1, .addRegistrar 6)]

theorem registrar_entry_kept_otherCalls :
    registrarAt registrarState 0 = some ⟨5, 0, default⟩ ∧
      (registrarAt (applyCalls registrarState otherRegistrarCalls) 0).isSome ∧
      ((∀ c ∈ otherRegistrarCalls, c.1 ≠ .signed 5) →
        registrarAt (applyCalls registrarState otherRegistrarCalls) 0 = some ⟨5, 0, default⟩) :=
  have hr : registrarAt registrarState 0 = some ⟨5, 0, default⟩ := rfl
  ⟨hr, registrar_entry_kept registrarState otherRegistrarCalls hr⟩

end ZeroNet.Identity
