import Mathlib.Logic.Function.Basic
import Mathlib.Order.Basic
import Mathlib.Tactic.Ring
import Mathlib.Algebra.BigOperators.Group.Finset.Basic

/-!
# A reservable currency

Free and reserved balances per account, with the operations of `ReservableCurrency` that
move funds between them. `reserve` fails unless the free balance covers the amount;
`unreserve`, `slashReserved` and `repatriateReserved` act on as much of the amount as is
reserved (`min value reserved`) and report the part they could not move. Repatriation is to
the beneficiary's free balance, the only `BalanceStatus` this development needs, and a
repatriation to oneself is an `unreserve`, as in `pallet_balances`.

Every operation but `slashReserved` only moves funds: `Moves touched l l'` says that the
accounts outside `touched` keep their funds and those of `touched` hold as much together.
`insert` overwrites an account's balances, as a write to the account store does; a ledger
`SumsTo` an issuance when finitely many accounts hold funds and they hold that much together.
-/

namespace Reservable

structure Ledger (AccountId : Type) where
  free : AccountId → ℕ
  reserved : AccountId → ℕ

variable {AccountId : Type} [DecidableEq AccountId]

namespace Ledger

omit [DecidableEq AccountId] in
@[ext] theorem ext {l m : Ledger AccountId} (hf : l.free = m.free)
    (hr : l.reserved = m.reserved) : l = m := by
  cases l
  cases m
  simp only at hf hr
  subst hf hr
  rfl

def reserve (l : Ledger AccountId) (who : AccountId) (value : ℕ) : Option (Ledger AccountId) :=
  if value ≤ l.free who then
    some ⟨Function.update l.free who (l.free who - value),
      Function.update l.reserved who (l.reserved who + value)⟩
  else none

/-- The new ledger and the part of `value` that was not reserved. -/
def unreserve (l : Ledger AccountId) (who : AccountId) (value : ℕ) : Ledger AccountId × ℕ :=
  let actual := min value (l.reserved who)
  (⟨Function.update l.free who (l.free who + actual),
    Function.update l.reserved who (l.reserved who - actual)⟩, value - actual)

/-- The new ledger, the slashed amount (a negative imbalance) and the part not slashed. -/
def slashReserved (l : Ledger AccountId) (who : AccountId) (value : ℕ) :
    Ledger AccountId × ℕ × ℕ :=
  let actual := min value (l.reserved who)
  (⟨l.free, Function.update l.reserved who (l.reserved who - actual)⟩, actual, value - actual)

def repatriateReserved (l : Ledger AccountId) (slashed beneficiary : AccountId) (value : ℕ) :
    Ledger AccountId × ℕ :=
  if slashed = beneficiary then l.unreserve slashed value
  else
    let actual := min value (l.reserved slashed)
    (⟨Function.update l.free beneficiary (l.free beneficiary + actual),
      Function.update l.reserved slashed (l.reserved slashed - actual)⟩, value - actual)

/-- Re-pricing a deposit from `old` to `new`: reserve the increase or unreserve the decrease,
as `set_identity` and `set_subs` do. -/
def reserveDelta (l : Ledger AccountId) (who : AccountId) (old new : ℕ) :
    Option (Ledger AccountId) :=
  if old < new then l.reserve who (new - old)
  else if new < old then some (l.unreserve who (old - new)).1
  else some l

theorem sub_min_self (r x : ℕ) : r - min x r = r - x := by omega

theorem reserve_eq_some {l l' : Ledger AccountId} {who : AccountId} {value : ℕ} :
    l.reserve who value = some l' ↔ value ≤ l.free who ∧
      l' = ⟨Function.update l.free who (l.free who - value),
        Function.update l.reserved who (l.reserved who + value)⟩ := by
  unfold reserve
  split_ifs with h
  · simp only [Option.some.injEq, h, true_and]
    exact eq_comm
  · simp [h]

theorem reserve_eq_none {l : Ledger AccountId} {who : AccountId} {value : ℕ} :
    l.reserve who value = none ↔ l.free who < value := by
  unfold reserve
  split_ifs with h <;> simp only [false_iff, not_lt, true_iff] <;> omega

theorem reserved_reserve {l l' : Ledger AccountId} {who : AccountId} {value : ℕ}
    (h : l.reserve who value = some l') (a : AccountId) :
    l'.reserved a = if a = who then l.reserved who + value else l.reserved a := by
  obtain ⟨-, rfl⟩ := reserve_eq_some.1 h
  by_cases ha : a = who
  · subst ha; simp
  · simp [ha]

@[simp] theorem reserved_unreserve (l : Ledger AccountId) (who a : AccountId) (value : ℕ) :
    (l.unreserve who value).1.reserved a =
      if a = who then l.reserved who - value else l.reserved a := by
  by_cases ha : a = who
  · subst ha; simp [unreserve, sub_min_self]
  · simp [unreserve, ha]

@[simp] theorem reserved_slashReserved (l : Ledger AccountId) (who a : AccountId) (value : ℕ) :
    (l.slashReserved who value).1.reserved a =
      if a = who then l.reserved who - value else l.reserved a := by
  by_cases ha : a = who
  · subst ha; simp [slashReserved, sub_min_self]
  · simp [slashReserved, ha]

@[simp] theorem reserved_repatriateReserved (l : Ledger AccountId) (slashed beneficiary a : AccountId)
    (value : ℕ) : (l.repatriateReserved slashed beneficiary value).1.reserved a =
      if a = slashed then l.reserved slashed - value else l.reserved a := by
  by_cases hs : slashed = beneficiary
  · rw [repatriateReserved, if_pos hs]
    exact reserved_unreserve l slashed a value
  · rw [repatriateReserved, if_neg hs]
    by_cases ha : a = slashed
    · subst ha; simp [sub_min_self]
    · simp [ha]

theorem reserved_reserveDelta {l l' : Ledger AccountId} {who : AccountId} {old new : ℕ}
    (h : l.reserveDelta who old new = some l') :
    l'.reserved = Function.update l.reserved who
      (if old < new then l.reserved who + (new - old) else l.reserved who - (old - new)) := by
  unfold reserveDelta at h
  funext a
  split_ifs at h with hlt hgt
  · rw [reserved_reserve h a, if_pos hlt]
    by_cases ha : a = who
    · subst ha; simp
    · simp [ha]
  · cases h
    rw [reserved_unreserve, if_neg hlt]
    by_cases ha : a = who
    · subst ha; simp
    · simp [ha]
  · cases h
    have heq : old = new := by omega
    subst heq
    by_cases ha : a = who
    · subst ha; simp
    · simp [ha]

theorem reserved_reserveDelta_of_eq {l l' : Ledger AccountId} {who : AccountId} {old new : ℕ}
    (h : l.reserveDelta who old new = some l') {base : ℕ} (hwho : l.reserved who = base + old)
    (a : AccountId) : l'.reserved a = if a = who then base + new else l.reserved a := by
  rw [reserved_reserveDelta h]
  by_cases ha : a = who
  · subst ha
    simp only [Function.update_self, if_true, hwho]
    split_ifs <;> omega
  · simp [ha]

@[simp] theorem free_unreserve (l : Ledger AccountId) (who a : AccountId) (value : ℕ) :
    (l.unreserve who value).1.free a =
      if a = who then l.free who + min value (l.reserved who) else l.free a := by
  by_cases ha : a = who
  · subst ha; simp [unreserve]
  · simp [unreserve, ha]

/-- The beneficiary receives what leaves the slashed account's reserve, also when the two are
the same account. -/
@[simp] theorem free_repatriateReserved (l : Ledger AccountId) (slashed beneficiary a : AccountId)
    (value : ℕ) : (l.repatriateReserved slashed beneficiary value).1.free a =
      if a = beneficiary then l.free beneficiary + min value (l.reserved slashed)
      else l.free a := by
  by_cases hs : slashed = beneficiary
  · subst hs
    rw [repatriateReserved, if_pos rfl]
    exact free_unreserve l slashed a value
  · rw [repatriateReserved, if_neg hs]
    by_cases ha : a = beneficiary
    · subst ha; simp
    · simp [ha]

theorem reserveDelta_eq_none {l : Ledger AccountId} {who : AccountId} {old new : ℕ} :
    l.reserveDelta who old new = none ↔ old < new ∧ l.free who < new - old := by
  unfold reserveDelta
  split_ifs with hlt hgt
  · rw [reserve_eq_none]
    simp [hlt]
  · simp [hlt]
  · simp [hlt]

/-! ## Funds are moved, not created -/

def total (l : Ledger AccountId) (a : AccountId) : ℕ := l.free a + l.reserved a

/-- `l'` arises from `l` by moving funds among the accounts of `touched`. -/
def Moves (touched : Finset AccountId) (l l' : Ledger AccountId) : Prop :=
  (∀ a ∉ touched, l'.total a = l.total a) ∧
    ∑ a ∈ touched, l'.total a = ∑ a ∈ touched, l.total a

section Moves

variable {touched touched' : Finset AccountId} {l l' l'' : Ledger AccountId}

omit [DecidableEq AccountId] in
theorem moves_of_total_eq (h : ∀ a, l'.total a = l.total a) (touched : Finset AccountId) :
    Moves touched l l' :=
  ⟨fun a _ => h a, Finset.sum_congr rfl fun a _ => h a⟩

omit [DecidableEq AccountId] in
theorem Moves.trans (h : Moves touched l l') (h' : Moves touched l' l'') :
    Moves touched l l'' :=
  ⟨fun a ha => (h'.1 a ha).trans (h.1 a ha), h'.2.trans h.2⟩

theorem Moves.mono (h : Moves touched l l') (hsub : touched ⊆ touched') :
    Moves touched' l l' := by
  refine ⟨fun a ha => h.1 a fun hat => ha (hsub hat), ?_⟩
  have hout : ∑ a ∈ touched' \ touched, l'.total a = ∑ a ∈ touched' \ touched, l.total a :=
    Finset.sum_congr rfl fun a ha => h.1 a (Finset.mem_sdiff.1 ha).2
  rw [← Finset.sum_sdiff hsub, ← Finset.sum_sdiff hsub, hout, h.2]

end Moves

variable {l l' : Ledger AccountId} {who : AccountId} {value : ℕ}

theorem total_reserve (h : l.reserve who value = some l') (a : AccountId) :
    l'.total a = l.total a := by
  obtain ⟨hle, rfl⟩ := reserve_eq_some.1 h
  by_cases ha : a = who
  · subst ha
    simp only [total, Function.update_self]
    omega
  · simp [total, ha]

theorem total_unreserve (a : AccountId) : (l.unreserve who value).1.total a = l.total a := by
  simp only [total, free_unreserve, reserved_unreserve]
  by_cases ha : a = who
  · subst ha
    simp only [if_true]
    omega
  · simp [ha]

theorem total_reserveDelta {old new : ℕ} (h : l.reserveDelta who old new = some l')
    (a : AccountId) : l'.total a = l.total a := by
  unfold reserveDelta at h
  split_ifs at h
  · exact total_reserve h a
  · cases h
    exact total_unreserve a
  · cases h
    rfl

theorem moves_repatriateReserved (slashed beneficiary : AccountId) (value : ℕ) :
    Moves {slashed, beneficiary} l (l.repatriateReserved slashed beneficiary value).1 := by
  by_cases hs : slashed = beneficiary
  · subst hs
    rw [repatriateReserved, if_pos rfl]
    exact moves_of_total_eq total_unreserve _
  · refine ⟨fun a ha => ?_, ?_⟩
    · simp only [Finset.mem_insert, Finset.mem_singleton, not_or] at ha
      simp [total, ha.1, ha.2]
    · rw [Finset.sum_pair hs, Finset.sum_pair hs]
      simp only [total, free_repatriateReserved, reserved_repatriateReserved, if_neg hs,
        if_neg (Ne.symm hs), ↓reduceIte]
      omega

theorem total_slashReserved (a : AccountId) :
    (l.slashReserved who value).1.total a =
      if a = who then l.total who - min value (l.reserved who) else l.total a := by
  by_cases ha : a = who
  · subst ha
    simp only [total, slashReserved, Function.update_self, if_true]
    omega
  · simp [total, slashReserved, ha]

/-! ## Issuance as the sum of all funds -/

/-- `AccountStore::insert`: the account's balances are replaced. -/
def insert (l : Ledger AccountId) (who : AccountId) (free reserved : ℕ) : Ledger AccountId :=
  ⟨Function.update l.free who free, Function.update l.reserved who reserved⟩

theorem total_insert (who : AccountId) (free reserved : ℕ) (a : AccountId) :
    (l.insert who free reserved).total a = if a = who then free + reserved else l.total a := by
  by_cases ha : a = who
  · subst ha
    simp [insert, total]
  · simp [insert, total, ha]

/-- The funds of all accounts sum to `issuance`: outside a finite set of accounts none holds
any, and those of the set hold `issuance` together. -/
def SumsTo (l : Ledger AccountId) (issuance : ℕ) : Prop :=
  ∃ accounts : Finset AccountId, (∀ a ∉ accounts, l.total a = 0) ∧
    ∑ a ∈ accounts, l.total a = issuance

omit [DecidableEq AccountId] in
theorem sumsTo_of_total_eq_zero (h : ∀ a, l.total a = 0) : l.SumsTo 0 :=
  ⟨∅, fun a _ => h a, Finset.sum_empty⟩

theorem SumsTo.sum_eq {issuance : ℕ} (h : l.SumsTo issuance) {accounts : Finset AccountId}
    (hall : ∀ a, l.total a ≠ 0 → a ∈ accounts) : ∑ a ∈ accounts, l.total a = issuance := by
  obtain ⟨support, hout, hsum⟩ := h
  have hleft : ∑ a ∈ support, l.total a = ∑ a ∈ support ∪ accounts, l.total a :=
    Finset.sum_subset Finset.subset_union_left fun a _ ha => hout a ha
  have hright : ∑ a ∈ accounts, l.total a = ∑ a ∈ support ∪ accounts, l.total a :=
    Finset.sum_subset Finset.subset_union_right fun a _ ha => by_contra fun h => ha (hall a h)
  rw [hright, ← hleft, hsum]

theorem SumsTo.unique {x y : ℕ} (hx : l.SumsTo x) (hy : l.SumsTo y) : x = y := by
  obtain ⟨support, hout, hsum⟩ := hy
  rw [← hsum, hx.sum_eq fun a ha => by_contra fun h => ha (hout a h)]

theorem SumsTo.insert {issuance : ℕ} (h : l.SumsTo issuance) (who : AccountId)
    (free reserved : ℕ) :
    (l.insert who free reserved).SumsTo (issuance - l.total who + (free + reserved)) := by
  obtain ⟨support, hout, hsum⟩ := h
  refine ⟨Insert.insert who support, fun a ha => ?_, ?_⟩
  · rw [Finset.mem_insert, not_or] at ha
    rw [total_insert, if_neg ha.1, hout a ha.2]
  · have hold : l.total who + ∑ a ∈ (Insert.insert who support).erase who, l.total a =
        issuance := by
      rw [Finset.add_sum_erase _ _ (Finset.mem_insert_self who support)]
      exact SumsTo.sum_eq ⟨support, hout, hsum⟩ fun a ha =>
        Finset.mem_insert_of_mem (by_contra fun h => ha (hout a h))
    have hrest : ∑ a ∈ (Insert.insert who support).erase who,
        (l.insert who free reserved).total a =
          ∑ a ∈ (Insert.insert who support).erase who, l.total a :=
      Finset.sum_congr rfl fun a ha => by rw [total_insert, if_neg (Finset.ne_of_mem_erase ha)]
    rw [← Finset.add_sum_erase _ _ (Finset.mem_insert_self who support), hrest,
      total_insert, if_pos rfl]
    omega

end Ledger

end Reservable
