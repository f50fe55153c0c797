import ZeroNet.MigrationPallet
import ZeroNet.IdentityDeposits

/-!
# What the two imports do to the books

An address names an account when it decodes from base 58 to at least 33 bytes, the prefix byte
and the 32 bytes of the key; a shorter one makes `drain(1..33)` panic. `migrate_balances`
overwrites each listed account's data with its balance, all of it free, and adds the balance
to `TotalIssuance` once for each entry. So `TotalIssuance` stays the sum of all funds when the
addresses decode, the accounts they name are distinct, held nothing before, and the running
total stays below `2 ^ 128`, and not otherwise: an account listed twice is counted twice, and one
that held funds has them replaced but still counted.

`migrate_identities` writes each registration with the deposit the export gives and reserves
nothing. It names no sub-account and removes no identity, so the sub-account graph stays
consistent over every run of the chain; but the deposit accounting of the identity pallet,
reserved balance equals recorded deposit, no longer holds once an identity is imported.
-/

namespace ZeroNet.Migration

open Identity (Origin DispatchResult)

variable {AccountId : Type} [DecidableEq AccountId] {cfg : Config AccountId}

/-- `TotalIssuance` is the sum of the funds of all accounts. -/
def IssuanceIsTotal (s : State cfg) : Prop :=
  s.identity.balances.SumsTo s.totalIssuance

/-! ## Addresses -/

omit [DecidableEq AccountId] in
/-- `get_account_id` of an address that decodes to at least 33 bytes reads the account from its
bytes `1..33`. -/
theorem getAccountId_of_decode {s : Rust.Str} {decoded : List UInt8}
    (h : cfg.bs58Decode s = .ok decoded) (hlen : 33 ≤ decoded.length) :
    getAccountId cfg s = .ok (cfg.decodeAccountId ((decoded.take 33).drop 1)) := by
  have hcut : ((decoded.take 33).drop 1).length = 32 := by
    simp only [List.length_drop, List.length_take]
    omega
  have hslice : sliceTo ((decoded.take 33).drop 1) 32 = .ok ((decoded.take 33).drop 1) := by
    rw [sliceTo_of_le hcut.ge, List.take_of_length_le hcut.le]
  have hcopy : Rust.Vec.copyFromSlice (List.replicate 32 0) ((decoded.take 33).drop 1) =
      some ((decoded.take 33).drop 1) :=
    Rust.Vec.copyFromSlice_of_length_eq (by rw [hcut, List.length_replicate])
  have hdrain : Rust.Vec.drain decoded 1 33 = some ((decoded.take 33).drop 1) :=
    Rust.Vec.drain_of_le (by decide) hlen
  simp only [getAccountId, h, unwrapResult, hdrain, okOr, hslice, hcopy, bind, Except.bind, pure,
    Except.pure]

omit [DecidableEq AccountId] in
/-- Of an address that decodes to fewer than 33 bytes, `drain(1..33)` panics. -/
theorem getAccountId_of_decode_short {s : Rust.Str} {decoded : List UInt8}
    (h : cfg.bs58Decode s = .ok decoded) (hlen : decoded.length < 33) :
    getAccountId cfg s = .error (.sliceEndIndexLenFail 33 decoded.length) := by
  simp only [getAccountId, h, unwrapResult, Rust.Vec.drain_eq_none hlen, okOr, bind,
    Except.bind]

/-! ## The balances import -/

theorem importAccount_of_ok {s : State cfg} {acc : AccountItem} {accountId : AccountId}
    {balance : ℕ} (ha : getAccount cfg acc = .ok accountId) (hb : getBalance acc = .ok balance) :
    importAccount s acc = .ok { s with
      identity := { s.identity with
        balances := s.identity.balances.insert accountId balance 0 }
      totalIssuance := (s.totalIssuance + balance) % 2 ^ 128 } := by
  simp only [importAccount, ha, hb, bind, Except.bind, pure, Except.pure]

theorem importAccount_eq_ok {s s' : State cfg} {acc : AccountItem}
    (h : importAccount s acc = .ok s') :
    ∃ accountId balance, getAccount cfg acc = .ok accountId ∧ getBalance acc = .ok balance ∧
      s' = { s with
        identity := { s.identity with
          balances := s.identity.balances.insert accountId balance 0 }
        totalIssuance := (s.totalIssuance + balance) % 2 ^ 128 } := by
  cases ha : getAccount cfg acc with
  | error e => simp [importAccount, ha, bind, Except.bind] at h
  | ok accountId =>
    cases hb : getBalance acc with
    | error e => simp [importAccount, ha, hb, bind, Except.bind] at h
    | ok balance =>
      rw [importAccount_of_ok ha hb, Except.ok.injEq] at h
      exact ⟨accountId, balance, rfl, rfl, h.symm⟩

theorem IssuanceIsTotal.insert_fresh {s : State cfg} (h : IssuanceIsTotal s) {who : AccountId}
    {balance : ℕ} (hzero : s.identity.balances.total who = 0)
    (hwrap : s.totalIssuance + balance < 2 ^ 128) :
    IssuanceIsTotal { s with
      identity := { s.identity with balances := s.identity.balances.insert who balance 0 }
      totalIssuance := (s.totalIssuance + balance) % 2 ^ 128 } := by
  have hins := h.insert who balance 0
  rw [hzero, Nat.sub_zero, Nat.add_zero] at hins
  unfold IssuanceIsTotal
  rwa [Nat.mod_eq_of_lt hwrap]

/-- The loop of `migrate_balances` over items whose addresses and balances decode, to distinct
accounts that hold nothing, with a running total below `2 ^ 128`, keeps `TotalIssuance` the
sum of all funds. -/
theorem foldlM_importAccount_total {parsed : List AccountItem} {entries : List (AccountId × ℕ)}
    (hitems : List.Forall₂ (fun acc e => getAccount cfg acc = .ok e.1 ∧ getBalance acc = .ok e.2)
      parsed entries) :
    ∀ {s : State cfg}, IssuanceIsTotal s → (entries.map Prod.fst).Nodup →
      (∀ e ∈ entries, s.identity.balances.total e.1 = 0) →
      s.totalIssuance + (entries.map Prod.snd).sum < 2 ^ 128 →
      ∃ s', parsed.foldlM importAccount s = .ok s' ∧ IssuanceIsTotal s' := by
  induction hitems with
  | nil => exact fun h _ _ _ => ⟨_, rfl, h⟩
  | @cons acc e parsed entries he _ ih =>
    intro s h hnodup hfresh hwrap
    rw [List.map_cons, List.nodup_cons] at hnodup
    rw [List.map_cons, List.sum_cons] at hwrap
    have hwrap₁ : s.totalIssuance + e.2 < 2 ^ 128 := by omega
    have hstep := h.insert_fresh (hfresh e List.mem_cons_self) hwrap₁
    have hrest : ∀ e' ∈ entries, (s.identity.balances.insert e.1 e.2 0).total e'.1 = 0 := by
      intro e' he'
      have hne : e'.1 ≠ e.1 := fun heq => hnodup.1 (heq ▸ List.mem_map_of_mem he')
      rw [Reservable.Ledger.total_insert, if_neg hne]
      exact hfresh e' (List.mem_cons_of_mem e he')
    obtain ⟨s', hfold, hs'⟩ := ih hstep hnodup.2 hrest (by simp only; omega)
    exact ⟨s', by rw [List.foldlM_cons, importAccount_of_ok he.1 he.2]; exact hfold, hs'⟩

/-- `migrate_balances` of items whose addresses and balances decode, to distinct accounts that
hold nothing, with a running total below `2 ^ 128`, succeeds and keeps `TotalIssuance` the
sum of all funds. -/
theorem migrateBalances_keeps_issuance {s : State cfg} {parsed : List AccountItem}
    {entries : List (AccountId × ℕ)} (h : IssuanceIsTotal s) (hv : s.balancesVersion = .V1Initial)
    (hitems : List.Forall₂ (fun acc e => getAccount cfg acc = .ok e.1 ∧ getBalance acc = .ok e.2)
      parsed entries)
    (hnodup : (entries.map Prod.fst).Nodup)
    (hfresh : ∀ e ∈ entries, s.identity.balances.total e.1 = 0)
    (hwrap : s.totalIssuance + (entries.map Prod.snd).sum < 2 ^ 128) :
    ∃ s', migrateBalances s .root parsed = .ok (s', .ok ()) ∧ IssuanceIsTotal s' := by
  obtain ⟨s', hfold, hs'⟩ := foldlM_importAccount_total hitems h hnodup hfresh hwrap
  refine ⟨{ s' with
    balancesVersion := .V2Imported
    events := s'.events ++ [.migratedBalances (UInt32.ofNat parsed.length)] }, ?_, hs'⟩
  simp only [migrateBalances, migrateOnce, hv, reduceCtorEq, ↓reduceIte, hfold, bind,
    Except.bind, pure, Except.pure]

/-- The SS58 addresses of Alice and Bob in the local chain spec: the prefix byte 42, the
32-byte public key, and two checksum bytes. -/
def aliceAddress : Rust.Str :=
  .ofChars ['5', 'G', 'r', 'w', 'v', 'a', 'E', 'F', '5', 'z', 'X', 'b', '2', '6', 'F', 'z', '9',
    'r', 'c', 'Q', 'p', 'D', 'W', 'S', '5', '7', 'C', 't', 'E', 'R', 'H', 'p', 'N', 'e', 'h', 'X',
    'C', 'P', 'c', 'N', 'o', 'H', 'G', 'K', 'u', 't', 'Q', 'Y']

def bobAddress : Rust.Str :=
  .ofChars ['5', 'F', 'H', 'n', 'e', 'W', '4', '6', 'x', 'G', 'X', 'g', 's', '5', 'm', 'U', 'i',
    'v', 'e', 'U', '4', 's', 'b', 'T', 'y', 'G', 'B', 'z', 'm', 's', 't', 'U', 's', 'p', 'Z', 'C',
    '9', '2', 'U', 'h', 'j', 'J', 'M', '6', '9', '4', 't', 'y']

/-- In the mock runtime an address names the `u64` of the first eight bytes of its key. -/
theorem getAccountId_aliceAddress : getAccountId mockConfig aliceAddress = .ok 2077282123132384724 :=
  rfl

theorem getAccountId_bobAddress : getAccountId mockConfig bobAddress = .ok 7166219960988249998 :=
  rfl

def emptyChain : State mockConfig := genesis mockConfig (fun _ => 0) 0

theorem issuanceIsTotal_emptyChain : IssuanceIsTotal emptyChain :=
  Reservable.Ledger.sumsTo_of_total_eq_zero fun _ => rfl

def distinctAccounts : List AccountItem :=
  [⟨aliceAddress, .ofChars ['1'], .ofChars ['0']⟩, ⟨bobAddress, .ofChars ['2'], .ofChars ['3']⟩]

theorem migrateBalances_keeps_issuance_distinct :
    IssuanceIsTotal emptyChain ∧ emptyChain.balancesVersion = .V1Initial ∧
      List.Forall₂ (fun acc e => getAccount mockConfig acc = .ok e.1 ∧ getBalance acc = .ok e.2)
        distinctAccounts [(2077282123132384724, 1), (7166219960988249998, 5)] ∧
      ([(2077282123132384724, 1), (7166219960988249998, 5)].map Prod.fst).Nodup ∧
      (∀ e ∈ [(2077282123132384724, 1), (7166219960988249998, 5)],
        emptyChain.identity.balances.total e.1 = 0) ∧
      emptyChain.totalIssuance +
        ([(2077282123132384724, 1), (7166219960988249998, 5)].map Prod.snd).sum < 2 ^ 128 ∧
      ∃ s', migrateBalances emptyChain .root distinctAccounts = .ok (s', .ok ()) ∧
        IssuanceIsTotal s' :=
  have hitems : List.Forall₂
      (fun acc e => getAccount mockConfig acc = .ok e.1 ∧ getBalance acc = .ok e.2)
      distinctAccounts [(2077282123132384724, 1), (7166219960988249998, 5)] :=
    .cons ⟨getAccountId_aliceAddress, rfl⟩ (.cons ⟨getAccountId_bobAddress, rfl⟩ .nil)
  have hnodup : ([(2077282123132384724, 1), (7166219960988249998, 5)].map Prod.fst).Nodup := by
    decide
  have hfresh : ∀ e ∈ [(2077282123132384724, 1), (7166219960988249998, 5)],
      emptyChain.identity.balances.total e.1 = 0 :=
    fun _ _ => rfl
  have hwrap : emptyChain.totalIssuance +
      ([(2077282123132384724, 1), (7166219960988249998, 5)].map Prod.snd).sum < 2 ^ 128 := by
    decide
  ⟨issuanceIsTotal_emptyChain, rfl, hitems, hnodup, hfresh, hwrap,
    migrateBalances_keeps_issuance issuanceIsTotal_emptyChain rfl hitems hnodup hfresh hwrap⟩

def repeatedAccount : List AccountItem :=
  [⟨aliceAddress, .ofChars ['1'], .ofChars ['0']⟩, ⟨aliceAddress, .ofChars ['1'], .ofChars ['0']⟩]

def repeatedChain : State mockConfig := applyCall emptyChain .root (.migrateBalances repeatedAccount)

/-- An account listed twice is counted twice: the import succeeds with `TotalIssuance` 2
while the funds of all accounts sum to 1. -/
theorem migrateBalances_repeated_inflates :
    IssuanceIsTotal emptyChain ∧
      migrateBalances emptyChain .root repeatedAccount = .ok (repeatedChain, .ok ()) ∧
      repeatedChain.totalIssuance = 2 ∧ repeatedChain.identity.balances.SumsTo 1 ∧
      ¬ IssuanceIsTotal repeatedChain := by
  have hledger : repeatedChain.identity.balances =
      (emptyChain.identity.balances.insert 2077282123132384724 1 0).insert
        2077282123132384724 1 0 := rfl
  have hsum : repeatedChain.identity.balances.SumsTo 1 := by
    have hins := (issuanceIsTotal_emptyChain.insert 2077282123132384724 1 0).insert
      2077282123132384724 1 0
    simp only [Reservable.Ledger.total_insert, if_true] at hins
    rw [hledger]
    exact hins
  have hissued : repeatedChain.totalIssuance = 2 := rfl
  refine ⟨issuanceIsTotal_emptyChain, rfl, hissued, hsum, fun h => ?_⟩
  have := hsum.unique h
  rw [hissued] at this
  cases this

/-! ## The identity import and the deposits -/

def exportedIdentity : Value :=
  .object [("account_id", .string aliceAddress),
    ("identity", .object [("deposit", .number (.posInt 10)), ("info", .object [])])]

def importedChain : State mockConfig :=
  applyCall (genesis mockConfig Identity.mockEndowment 0) .root
    (.migrateIdentities [exportedIdentity])

theorem importedChain_reachable : Reachable importedChain :=
  (Reachable.genesis _ _).applyCall _ _

/-- The import records a deposit of 10 for Alice's account and reserves nothing: the reachable
state breaks the deposit accounting of the identity pallet. -/
theorem migrateIdentities_unbacked_deposit :
    Reachable importedChain ∧ importedChain.identity.balances.reserved 2077282123132384724 = 0 ∧
      Identity.recordedDeposit importedChain.identity 2077282123132384724 = 10 ∧
      ¬ Identity.DepositsBacked importedChain.identity := by
  have hreserved : importedChain.identity.balances.reserved 2077282123132384724 = 0 := rfl
  have hrecorded : Identity.recordedDeposit importedChain.identity 2077282123132384724 = 10 := rfl
  refine ⟨importedChain_reachable, hreserved, hrecorded, fun h => ?_⟩
  have halice := h 2077282123132384724
  rw [hreserved, hrecorded] at halice
  cases halice

/-! ## The sub-account graph over runs of the chain -/

theorem foldlM_ok_of_step {σ α ε : Type} {P : σ → Prop} {f : σ → α → Except ε σ}
    (hf : ∀ s a s', P s → f s a = .ok s' → P s') :
    ∀ (l : List α) {s s' : σ}, P s → l.foldlM f s = .ok s' → P s'
  | [], s, s', hs, h => by
    simp only [List.foldlM_nil, pure, Except.pure, Except.ok.injEq] at h
    exact h ▸ hs
  | a :: l, s, s', hs, h => by
    rw [List.foldlM_cons] at h
    cases ha : f s a with
    | error e => simp [ha, bind, Except.bind] at h
    | ok s₁ =>
      simp only [ha, bind, Except.bind] at h
      exact foldlM_ok_of_step hf l (hf s a s₁ hs ha) h

omit [DecidableEq AccountId] in
theorem migrateOnce_ok {α : Type} {version : State cfg → StorageVersion}
    {setVersion : State cfg → StorageVersion → State cfg}
    {importItem : State cfg → α → Except Panic (State cfg)} {event : UInt32 → Event}
    {s s' : State cfg} {origin : Origin AccountId} {parsed : List α} {result : DispatchResult}
    (h : migrateOnce version setVersion importItem event s origin parsed = .ok (s', result)) :
    s' = s ∨ ∃ s₁, parsed.foldlM importItem s = .ok s₁ ∧
      s' = { setVersion s₁ .V2Imported with
        events := s₁.events ++ [event (UInt32.ofNat parsed.length)] } := by
  unfold migrateOnce at h
  cases origin with
  | root =>
    split_ifs at h
    · simp only [pure, Except.pure, Except.ok.injEq, Prod.mk.injEq] at h
      exact .inl h.1.symm
    · cases hfold : parsed.foldlM importItem s with
      | error e => simp [hfold, bind, Except.bind] at h
      | ok s₁ =>
        simp only [hfold, bind, Except.bind, pure, Except.pure, Except.ok.injEq,
          Prod.mk.injEq] at h
        exact .inr ⟨s₁, rfl, h.1.symm⟩
  | signed _ | none =>
    simp only [pure, Except.pure, Except.ok.injEq, Prod.mk.injEq] at h
    exact .inl h.1.symm

omit [DecidableEq AccountId] in
/-- What each pass of the loop keeps of the identity pallet's state, a call of either import
that returns keeps: the version and the event are no part of it. -/
theorem migrateOnce_keeps {α : Type} {P : Identity.State cfg.identity → Prop}
    {version : State cfg → StorageVersion} {setVersion : State cfg → StorageVersion → State cfg}
    {importItem : State cfg → α → Except Panic (State cfg)} {event : UInt32 → Event}
    {s s' : State cfg} {origin : Origin AccountId} {parsed : List α} {result : DispatchResult}
    (hset : ∀ s v, (setVersion s v).identity = s.identity)
    (hstep : ∀ s a s', P s.identity → importItem s a = .ok s' → P s'.identity)
    (hs : P s.identity)
    (h : migrateOnce version setVersion importItem event s origin parsed = .ok (s', result)) :
    P s'.identity := by
  rcases migrateOnce_ok h with rfl | ⟨s₁, hfold, rfl⟩
  · exact hs
  · have hs₁ := @foldlM_ok_of_step _ _ _ (fun s => P s.identity) importItem hstep parsed s s₁ hs
      hfold
    change P (setVersion s₁ .V2Imported).identity
    rw [hset]
    exact hs₁

theorem importAccount_identity {s s' : State cfg} {acc : AccountItem}
    (h : importAccount s acc = .ok s') :
    s'.identity = { s.identity with balances := s'.identity.balances } := by
  obtain ⟨_, _, _, _, rfl⟩ := importAccount_eq_ok h
  rfl

theorem importIdentity_identity {s s' : State cfg} {i : Value}
    (h : importIdentity s i = .ok s') :
    ∃ who r, s'.identity = { s.identity with
      identityOf := Function.update s.identity.identityOf who (some r) } := by
  unfold importIdentity at h
  cases hi : identityItem i with
  | error e =>
    rw [hi] at h
    cases h
  | ok item =>
    rw [hi] at h
    cases h
    exact ⟨item.1, item.2, rfl⟩

theorem subsConsistent_importAccount {s s' : State cfg} {acc : AccountItem}
    (hc : Identity.SubsConsistent s.identity) (h : importAccount s acc = .ok s') :
    Identity.SubsConsistent s'.identity := by
  rw [importAccount_identity h]
  exact hc.of_maps_eq rfl rfl fun _ ha => ha

theorem subsConsistent_importIdentity {s s' : State cfg} {i : Value}
    (hc : Identity.SubsConsistent s.identity) (h : importIdentity s i = .ok s') :
    Identity.SubsConsistent s'.identity := by
  obtain ⟨who, r, heq⟩ := importIdentity_identity h
  rw [heq]
  refine hc.of_maps_eq rfl rfl fun a ha => ?_
  by_cases haw : a = who
  · subst haw
    simp at ha
  · simpa [haw] using ha

theorem subsConsistent_dispatch {s s' : State cfg} {origin : Origin AccountId}
    {call : Call cfg} {result : DispatchResult} (hc : Identity.SubsConsistent s.identity)
    (h : dispatch s origin call = .ok (s', result)) : Identity.SubsConsistent s'.identity := by
  cases call with
  | identity call =>
    simp only [dispatch, pure, Except.pure, Except.ok.injEq, Prod.mk.injEq] at h
    rw [← h.1]
    exact hc.dispatch_step call
  | migrateBalances parsed =>
    simp only [dispatch, migrateBalances] at h
    refine migrateOnce_keeps ?_ ?_ hc h
    · exact fun _ _ => rfl
    · exact fun _ _ _ => subsConsistent_importAccount
  | migrateIdentities parsed =>
    simp only [dispatch, migrateIdentities] at h
    refine migrateOnce_keeps ?_ ?_ hc h
    · exact fun _ _ => rfl
    · exact fun _ _ _ => subsConsistent_importIdentity

/-- With both imports among its calls, every state the chain reaches has a consistent
sub-account graph: a sub points to a super exactly when the super lists it, and only named
accounts have subs. -/
theorem imports_keep_subs_consistent {s : State cfg} (h : Reachable s) :
    Identity.SubsConsistent s.identity := by
  induction h with
  | genesis free totalIssuance => exact Identity.subsConsistent_genesis free
  | step origin call _ hcall ih => exact subsConsistent_dispatch ih hcall

theorem imports_keep_subs_consistent_importedChain :
    Reachable importedChain ∧ Identity.SubsConsistent importedChain.identity :=
  ⟨importedChain_reachable, imports_keep_subs_consistent importedChain_reachable⟩

end ZeroNet.Migration
