import ZeroNet.BTreeMap
import ZeroNet.Currency
import Mathlib.Data.List.Dedup

/-!
# Genesis endowments of the node's chain specs

`balances_config` and `tokens_config` split fixed supplies between three treasuries and the
endowed accounts: the supply of ZERO in the first, and the supplies of GAME and PLAY in the
second. ZERO endowments are merged per account in a `BTreeMap`, and `zero_issuance` drops only
when an account is first seen. So an account listed twice is endowed twice, while the Zero
Network treasury pays only once. GAME and PLAY endowments are pushed once per occurrence and
each is paid for, so those supplies are conserved; but an account listed twice gets two entries
for the same currency.
-/

namespace ZeroNet.ChainSpec

open CurrencyId

/-- `u128::checked_add`. A `Balance` is a `u128`, so below `2 ^ 128`. -/
def checkedAdd (a b : ℕ) : Option ℕ :=
  if a + b < 2 ^ 128 then some (a + b) else none

/-! ## The price of a dollar -/

theorem dollar_ZERO : dollar ZERO = .ok (10 ^ 18) := rfl

theorem dollar_GAME : dollar GAME = .ok (10 ^ 10) := rfl

theorem dollar_PLAY : dollar PLAY = .ok (10 ^ 10) := rfl

theorem game_ne_play : GAME ≠ PLAY := by decide

variable {AccountId : Type}

/-! ## ZERO: merged in a `BTreeMap` -/

section Balances

variable [LinearOrder AccountId]

/-- One step of the fold in `balances_config`. The state is the map built so far and
`zero_issuance`, which the closure captures mutably. -/
def balancesStep : BTreeMap AccountId ℕ × ℕ → AccountId × ℕ →
    Except Panic (BTreeMap AccountId ℕ × ℕ)
  | (acc, zeroIssuance), (accountId, amount) =>
    match acc.get? accountId with
    | some balance =>
      match checkedAdd balance amount with
      | some balance => .ok (acc.insert accountId balance, zeroIssuance)
      | none => .error (.expect "balance overflow")
    | none => .ok (acc.insert accountId amount, zeroIssuance - amount)

/-- `balances_config`. `dollar(ZERO)` is read once, since it is pure. `saturating_sub` is the
truncated subtraction of `ℕ`. -/
def balancesConfig (accounts : List AccountId)
    (zeroTreasury game3Treasury gamedaoTreasury : AccountId) :
    Except Panic (List (AccountId × ℕ)) := do
  let zeroDollar ← dollar ZERO
  let zeroIssuance := 1_000_000_000 * zeroDollar
  let game3Zero := 1_000_000 * zeroDollar
  let gamedaoZero := 1_000_000 * zeroDollar
  let (accountBalances, zeroIssuance) ←
    (accounts.map fun x => (x, 1_000_000 * zeroDollar)).foldlM balancesStep
      (BTreeMap.empty, zeroIssuance)
  let zeroIssuance := zeroIssuance - game3Zero - gamedaoZero
  pure ([(zeroTreasury, zeroIssuance), (gamedaoTreasury, gamedaoZero),
    (game3Treasury, game3Zero)] ++ accountBalances.entries)

/-- What the fold of `balances_config` has built after the accounts `pre`, each endowed with
`amount`, from a treasury remainder of `issuance`: the endowments, the remainder less one
endowment per account seen, and one entry per account seen. -/
structure BalancesInv (issuance amount : ℕ) (pre : List AccountId)
    (st : BTreeMap AccountId ℕ × ℕ) : Prop where
  sum_eq : (st.1.entries.map Prod.snd).sum = amount * pre.length
  issuance_eq : st.2 = issuance - amount * st.1.entries.length
  mem_keys : ∀ x, x ∈ st.1.keys ↔ x ∈ pre

theorem balancesInv_empty (issuance amount : ℕ) :
    BalancesInv issuance amount ([] : List AccountId) (BTreeMap.empty, issuance) :=
  ⟨by simp, by simp, by simp⟩

theorem checkedAdd_of_lt {a b : ℕ} (h : a + b < 2 ^ 128) : checkedAdd a b = some (a + b) :=
  if_pos h

/-- One step keeps the invariant; a repeated account cannot overflow while all endowments
together fit in a `u128`. -/
theorem BalancesInv.step {issuance amount : ℕ} {pre : List AccountId}
    {st : BTreeMap AccountId ℕ × ℕ} (h : BalancesInv issuance amount pre st)
    (x : AccountId) (hfit : amount * (pre.length + 1) < 2 ^ 128) :
    ∃ st', balancesStep st (x, amount) = .ok st' ∧
      BalancesInv issuance amount (pre ++ [x]) st' := by
  obtain ⟨acc, z⟩ := st
  obtain ⟨hsum, hiss, hmem⟩ := h
  dsimp only at hsum hiss hmem
  have hkeys : ∀ y, y ∈ pre ++ [x] ↔ y = x ∨ y ∈ pre := fun y => by simp [or_comm]
  rw [mul_add, mul_one] at hfit
  cases hx : acc.get? x with
  | none =>
    refine ⟨(acc.insert x amount, z - amount), by simp only [balancesStep, hx], ?_, ?_, ?_⟩
    · rw [BTreeMap.sum_insert_of_get?_none amount hx, hsum, List.length_append,
        List.length_singleton, mul_add, mul_one]
    · rw [BTreeMap.length_insert_of_get?_none amount hx, hiss, mul_add, mul_one, Nat.sub_sub]
    · intro y
      rw [BTreeMap.mem_keys_insert, hmem, hkeys]
  | some balance =>
    have hle : balance ≤ amount * pre.length := hsum ▸ BTreeMap.le_sum_of_get? hx
    have hadd : checkedAdd balance amount = some (balance + amount) :=
      checkedAdd_of_lt (lt_of_le_of_lt (Nat.add_le_add_right hle amount) hfit)
    refine ⟨(acc.insert x (balance + amount), z), by simp only [balancesStep, hx, hadd], ?_, ?_, ?_⟩
    · have hnew := BTreeMap.sum_insert_of_get?_some (balance + amount) hx
      rw [hsum] at hnew
      dsimp only
      rw [List.length_append, List.length_singleton, mul_add, mul_one]
      generalize amount * pre.length = paid at hnew ⊢
      omega
    · rw [BTreeMap.length_insert_of_get?_some _ hx]
      exact hiss
    · intro y
      rw [BTreeMap.mem_keys_insert, hmem, hkeys]

theorem BalancesInv.foldlM {issuance amount : ℕ} (accounts : List AccountId)
    {pre : List AccountId} {st : BTreeMap AccountId ℕ × ℕ}
    (h : BalancesInv issuance amount pre st)
    (hfit : amount * (pre.length + accounts.length) < 2 ^ 128) :
    ∃ st', (accounts.map fun x => (x, amount)).foldlM balancesStep st = .ok st' ∧
      BalancesInv issuance amount (pre ++ accounts) st' := by
  induction accounts generalizing pre st with
  | nil => exact ⟨st, rfl, by simpa using h⟩
  | cons x xs ih =>
    have hlen : (pre ++ [x]).length + xs.length = pre.length + (x :: xs).length := by
      simp only [List.length_append, List.length_cons, List.length_nil]
      omega
    have hone : amount * (pre.length + 1) ≤ amount * (pre.length + (x :: xs).length) :=
      Nat.mul_le_mul_left _ (by simp)
    obtain ⟨st₁, hstep, h₁⟩ := h.step x (lt_of_le_of_lt hone hfit)
    obtain ⟨st', hfold, h'⟩ := ih h₁ (hlen ▸ hfit)
    refine ⟨st', ?_, by simpa using h'⟩
    rw [List.map_cons, List.foldlM_cons, hstep]
    exact hfold


theorem balancesConfig_spec (accounts : List AccountId)
    (zeroTreasury game3Treasury gamedaoTreasury : AccountId)
    (hfit : 1_000_000 * 10 ^ 18 * accounts.length < 2 ^ 128) :
    ∃ acc : BTreeMap AccountId ℕ,
      balancesConfig accounts zeroTreasury game3Treasury gamedaoTreasury =
        .ok ([(zeroTreasury, 1_000_000_000 * 10 ^ 18 - 1_000_000 * 10 ^ 18 * acc.entries.length -
            1_000_000 * 10 ^ 18 - 1_000_000 * 10 ^ 18),
          (gamedaoTreasury, 1_000_000 * 10 ^ 18), (game3Treasury, 1_000_000 * 10 ^ 18)] ++
          acc.entries) ∧
      (acc.entries.map Prod.snd).sum = 1_000_000 * 10 ^ 18 * accounts.length ∧
      ∀ x, x ∈ acc.keys ↔ x ∈ accounts := by
  obtain ⟨⟨acc, z⟩, hfold, hsum, hiss, hmem⟩ :=
    (balancesInv_empty (1_000_000_000 * 10 ^ 18) (1_000_000 * 10 ^ 18)).foldlM accounts
      (by simpa using hfit)
  dsimp only at hsum hiss hmem
  refine ⟨acc, ?_, by simpa using hsum, by simpa using hmem⟩
  rw [balancesConfig, dollar_ZERO]
  simp only [bind, Except.bind, hfold, hiss]
  rfl


theorem length_entries_eq_dedup {acc : BTreeMap AccountId ℕ} {accounts : List AccountId}
    (hmem : ∀ x, x ∈ acc.keys ↔ x ∈ accounts) : acc.entries.length = accounts.dedup.length := by
  have hperm : acc.keys.Perm accounts.dedup :=
    (List.perm_ext_iff_of_nodup acc.nodup_keys (List.nodup_dedup _)).2 fun x => by
      rw [hmem, List.mem_dedup]
  simpa [BTreeMap.keys] using hperm.length_eq

theorem dedup_length_eq_iff_nodup (accounts : List AccountId) :
    accounts.dedup.length = accounts.length ↔ accounts.Nodup := by
  rw [← List.dedup_eq_self]
  exact ⟨(List.dedup_sublist accounts).eq_of_length, fun h => by rw [h]⟩

/-- The ZERO handed out is the supply plus one endowment of `1_000_000 * dollar(ZERO)` for every
repetition in the list: conserved exactly when no account is listed twice. -/
theorem balancesConfig_issuance (accounts : List AccountId)
    (zeroTreasury game3Treasury gamedaoTreasury : AccountId)
    (htreasuries : [zeroTreasury, game3Treasury, gamedaoTreasury].Nodup)
    (hfresh : ∀ t ∈ [zeroTreasury, game3Treasury, gamedaoTreasury], t ∉ accounts)
    (hfit : 1_000_000 * accounts.length + 2_000_000 ≤ 1_000_000_000) :
    ∃ balances, balancesConfig accounts zeroTreasury game3Treasury gamedaoTreasury = .ok balances ∧
      (balances.map Prod.fst).Nodup ∧
      (balances.map Prod.snd).sum =
        1_000_000_000 * 10 ^ 18 + (accounts.length - accounts.dedup.length) * (1_000_000 * 10 ^ 18) ∧
      ((balances.map Prod.snd).sum = 1_000_000_000 * 10 ^ 18 ↔ accounts.Nodup) := by
  have hm : accounts.length ≤ 998 := by omega
  obtain ⟨acc, hcfg, hsum, hmem⟩ := balancesConfig_spec accounts zeroTreasury game3Treasury
    gamedaoTreasury (lt_of_le_of_lt (Nat.mul_le_mul_left _ hm) (by decide))
  have hn := length_entries_eq_dedup hmem
  have hle : accounts.dedup.length ≤ accounts.length := (List.dedup_sublist _).length_le
  have htotal : (([(zeroTreasury, 1_000_000_000 * 10 ^ 18 - 1_000_000 * 10 ^ 18 * acc.entries.length -
      1_000_000 * 10 ^ 18 - 1_000_000 * 10 ^ 18), (gamedaoTreasury, 1_000_000 * 10 ^ 18),
      (game3Treasury, 1_000_000 * 10 ^ 18)] ++ acc.entries).map Prod.snd).sum =
      1_000_000_000 * 10 ^ 18 + (accounts.length - accounts.dedup.length) * (1_000_000 * 10 ^ 18) := by
    simp only [List.map_append, List.sum_append, List.map_cons, List.sum_cons, List.map_nil,
      List.sum_nil, hsum, hn]
    omega
  refine ⟨_, hcfg, ?_, htotal, ?_⟩
  · simp only [List.map_append, List.map_cons, List.map_nil]
    refine List.nodup_append.2 ⟨?_, acc.nodup_keys, ?_⟩
    · simp only [List.nodup_cons, List.mem_cons, List.not_mem_nil, or_false] at htreasuries ⊢
      grind
    · intro t ht u hu htu
      subst htu
      have ht' : t ∈ [zeroTreasury, game3Treasury, gamedaoTreasury] := by
        simp only [List.mem_cons, List.not_mem_nil, or_false] at ht ⊢
        tauto
      exact hfresh t ht' ((hmem t).1 hu)
  · rw [htotal, ← dedup_length_eq_iff_nodup]
    omega

theorem balancesConfig_issuance_distinct :
    ∃ balances, balancesConfig ([4, 5] : List ℕ) 1 2 3 = .ok balances ∧
      (balances.map Prod.fst).Nodup ∧
      (balances.map Prod.snd).sum =
        1_000_000_000 * 10 ^ 18 + (2 - [4, 5].dedup.length) * (1_000_000 * 10 ^ 18) ∧
      ((balances.map Prod.snd).sum = 1_000_000_000 * 10 ^ 18 ↔ [4, 5].Nodup) :=
  balancesConfig_issuance [4, 5] 1 2 3 (by decide) (by decide) (by decide)

end Balances

/-! ## GAME and PLAY: pushed once per occurrence -/

/-- One step of the fold in `tokens_config`, with `game_issuance` and `play_issuance`. -/
def tokensStep :
    List (AccountId × CurrencyId × ℕ) × ℕ × ℕ →
      AccountId × CurrencyId × ℕ → List (AccountId × CurrencyId × ℕ) × ℕ × ℕ
  | (vec, gameIssuance, playIssuance), (accountId, currencyId, amount) =>
    let (gameIssuance, playIssuance) :=
      if currencyId = GAME then (gameIssuance - amount, playIssuance)
      else if currencyId = PLAY then (gameIssuance, playIssuance - amount)
      else (gameIssuance, playIssuance)
    (vec ++ [(accountId, currencyId, amount)], gameIssuance, playIssuance)

def tokensConfig (accounts : List AccountId)
    (zeroTreasury game3Treasury gamedaoTreasury : AccountId) :
    Except Panic (List (AccountId × CurrencyId × ℕ)) := do
  let gameDollar ← dollar GAME
  let playDollar ← dollar PLAY
  let gameIssuance := 100_000_000 * gameDollar
  let playIssuance := 10_000_000 * playDollar
  let zeronetGame := 100_000 * gameDollar
  let zeronetPlay := 1_000_000 * playDollar
  let gamedaoGame := 100_000 * gameDollar
  let gamedaoPlay := 1_000_000 * playDollar
  let (accountBalances, gameIssuance, playIssuance) :=
    (accounts.flatMap fun x =>
      [(x, GAME, 1_000_000 * gameDollar), (x, PLAY, 1_000_000 * playDollar)]).foldl
      tokensStep ([], gameIssuance, playIssuance)
  let gameIssuance := gameIssuance - zeronetGame - gamedaoGame
  let playIssuance := playIssuance - zeronetPlay - gamedaoPlay
  pure ([(zeroTreasury, GAME, zeronetGame), (zeroTreasury, PLAY, zeronetPlay),
    (game3Treasury, GAME, gameIssuance), (game3Treasury, PLAY, playIssuance),
    (gamedaoTreasury, GAME, gamedaoGame), (gamedaoTreasury, PLAY, gamedaoPlay)] ++
      accountBalances)

def totalOf (c : CurrencyId) (l : List (AccountId × CurrencyId × ℕ)) : ℕ :=
  ((l.filter fun t => t.2.1 = c).map fun t => t.2.2).sum

theorem totalOf_nil (c : CurrencyId) : totalOf c ([] : List (AccountId × CurrencyId × ℕ)) = 0 :=
  rfl

theorem totalOf_cons (c : CurrencyId) (t : AccountId × CurrencyId × ℕ)
    (l : List (AccountId × CurrencyId × ℕ)) :
    totalOf c (t :: l) = (if t.2.1 = c then t.2.2 else 0) + totalOf c l := by
  unfold totalOf
  by_cases h : t.2.1 = c <;> simp [h]

theorem totalOf_append (c : CurrencyId) (l l' : List (AccountId × CurrencyId × ℕ)) :
    totalOf c (l ++ l') = totalOf c l + totalOf c l' := by
  simp only [totalOf, List.filter_append, List.map_append, List.sum_append]

theorem foldl_tokensStep (l : List (AccountId × CurrencyId × ℕ))
    (vec : List (AccountId × CurrencyId × ℕ)) (game play : ℕ) :
    l.foldl tokensStep (vec, game, play) =
      (vec ++ l, game - totalOf GAME l, play - totalOf PLAY l) := by
  induction l generalizing vec game play with
  | nil => simp [totalOf_nil]
  | cons t l ih =>
    obtain ⟨a, c, x⟩ := t
    rw [List.foldl_cons, totalOf_cons, totalOf_cons]
    by_cases hg : c = GAME
    · have hp : c ≠ PLAY := hg ▸ game_ne_play
      simp only [tokensStep, if_pos hg, if_neg hp, ih, List.append_assoc, List.singleton_append,
        Nat.sub_sub, Nat.zero_add]
    · by_cases hp : c = PLAY
      · simp only [tokensStep, if_neg hg, if_pos hp, ih, List.append_assoc,
          List.singleton_append, Nat.sub_sub, Nat.zero_add]
      · simp only [tokensStep, if_neg hg, if_neg hp, ih, List.append_assoc,
          List.singleton_append, Nat.zero_add]

/-- The endowments of `tokens_config`: one GAME and one PLAY entry per occurrence. -/
def endowments (accounts : List AccountId) (game play : ℕ) :
    List (AccountId × CurrencyId × ℕ) :=
  accounts.flatMap fun x => [(x, GAME, game), (x, PLAY, play)]

theorem totalOf_endowments (accounts : List AccountId) (game play : ℕ) :
    totalOf GAME (endowments accounts game play) = game * accounts.length ∧
      totalOf PLAY (endowments accounts game play) = play * accounts.length := by
  induction accounts with
  | nil => exact ⟨rfl, rfl⟩
  | cons x xs ih =>
    have hcons : endowments (x :: xs) game play =
        [(x, GAME, game), (x, PLAY, play)] ++ endowments xs game play := rfl
    have hpg : PLAY ≠ GAME := game_ne_play.symm
    simp only [hcons, totalOf_append, totalOf_cons, totalOf_nil, if_pos, if_neg hpg,
      if_neg game_ne_play, ih.1, ih.2, List.length_cons]
    constructor <;> ring

theorem tokensConfig_eq (accounts : List AccountId)
    (zeroTreasury game3Treasury gamedaoTreasury : AccountId) :
    tokensConfig accounts zeroTreasury game3Treasury gamedaoTreasury =
      .ok ([(zeroTreasury, GAME, 100_000 * 10 ^ 10), (zeroTreasury, PLAY, 1_000_000 * 10 ^ 10),
        (game3Treasury, GAME, 100_000_000 * 10 ^ 10 - 1_000_000 * 10 ^ 10 * accounts.length -
          100_000 * 10 ^ 10 - 100_000 * 10 ^ 10),
        (game3Treasury, PLAY, 10_000_000 * 10 ^ 10 - 1_000_000 * 10 ^ 10 * accounts.length -
          1_000_000 * 10 ^ 10 - 1_000_000 * 10 ^ 10),
        (gamedaoTreasury, GAME, 100_000 * 10 ^ 10), (gamedaoTreasury, PLAY, 1_000_000 * 10 ^ 10)] ++
        endowments accounts (1_000_000 * 10 ^ 10) (1_000_000 * 10 ^ 10)) := by
  have hfold := foldl_tokensStep (endowments accounts (1_000_000 * 10 ^ 10) (1_000_000 * 10 ^ 10))
    [] (100_000_000 * 10 ^ 10) (10_000_000 * 10 ^ 10)
  obtain ⟨hgame, hplay⟩ := totalOf_endowments accounts (1_000_000 * 10 ^ 10) (1_000_000 * 10 ^ 10)
  rw [hgame, hplay, List.nil_append, mul_comm _ accounts.length] at hfold
  rw [tokensConfig, dollar_GAME, dollar_PLAY]
  simp only [bind, Except.bind]
  rw [show (accounts.flatMap fun x =>
      [(x, GAME, 1_000_000 * 10 ^ 10), (x, PLAY, 1_000_000 * 10 ^ 10)]) =
      endowments accounts (1_000_000 * 10 ^ 10) (1_000_000 * 10 ^ 10) from rfl, hfold]
  simp only [mul_comm accounts.length]
  rfl


theorem mem_pairs_endowments (accounts : List AccountId) (game play : ℕ)
    (p : AccountId × CurrencyId) :
    p ∈ (endowments accounts game play).map (fun t => (t.1, t.2.1)) ↔
      p.1 ∈ accounts ∧ (p.2 = GAME ∨ p.2 = PLAY) := by
  obtain ⟨a, c⟩ := p
  simp only [endowments, List.map_flatMap, List.mem_flatMap, List.map_cons, List.map_nil,
    List.mem_cons, List.not_mem_nil, or_false, Prod.mk.injEq]
  constructor
  · rintro ⟨x, hx, ⟨rfl, rfl⟩ | ⟨rfl, rfl⟩⟩ <;> simp [hx]
  · rintro ⟨ha, rfl | rfl⟩ <;> exact ⟨a, ha, by simp⟩

theorem nodup_pairs_endowments (accounts : List AccountId) (game play : ℕ) :
    ((endowments accounts game play).map fun t => (t.1, t.2.1)).Nodup ↔ accounts.Nodup := by
  induction accounts with
  | nil => simp [endowments]
  | cons x xs ih =>
    have hcons : (endowments (x :: xs) game play).map (fun t => (t.1, t.2.1)) =
        (x, GAME) :: (x, PLAY) :: (endowments xs game play).map (fun t => (t.1, t.2.1)) := rfl
    rw [hcons, List.nodup_cons, List.nodup_cons, ih, List.nodup_cons, List.mem_cons,
      mem_pairs_endowments, mem_pairs_endowments]
    simp only [Prod.mk.injEq, game_ne_play, and_false, false_or, true_or, or_true, and_true]
    tauto


/-- GAME and PLAY supplies are conserved for every list that fits, repetitions included; a
(account, currency) pair repeats exactly when an account is listed twice. -/
theorem tokensConfig_issuance (accounts : List AccountId)
    (zeroTreasury game3Treasury gamedaoTreasury : AccountId)
    (htreasuries : [zeroTreasury, game3Treasury, gamedaoTreasury].Nodup)
    (hfresh : ∀ t ∈ [zeroTreasury, game3Treasury, gamedaoTreasury], t ∉ accounts)
    (hfit : 1_000_000 * accounts.length + 2_000_000 ≤ 10_000_000) :
    ∃ tokens, tokensConfig accounts zeroTreasury game3Treasury gamedaoTreasury = .ok tokens ∧
      totalOf GAME tokens = 100_000_000 * 10 ^ 10 ∧ totalOf PLAY tokens = 10_000_000 * 10 ^ 10 ∧
      ((tokens.map fun t => (t.1, t.2.1)).Nodup ↔ accounts.Nodup) := by
  obtain ⟨hgame, hplay⟩ := totalOf_endowments accounts (1_000_000 * 10 ^ 10) (1_000_000 * 10 ^ 10)
  have hpg : PLAY ≠ GAME := game_ne_play.symm
  refine ⟨_, tokensConfig_eq accounts zeroTreasury game3Treasury gamedaoTreasury, ?_, ?_, ?_⟩
  · simp only [totalOf_append, totalOf_cons, totalOf_nil, if_pos, if_neg hpg, hgame]
    omega
  · simp only [totalOf_append, totalOf_cons, totalOf_nil, if_pos, if_neg game_ne_play, hplay]
    omega
  · simp only [List.map_append, List.map_cons, List.map_nil]
    rw [List.nodup_append, nodup_pairs_endowments]
    have htreasury : [(zeroTreasury, GAME), (zeroTreasury, PLAY), (game3Treasury, GAME),
        (game3Treasury, PLAY), (gamedaoTreasury, GAME), (gamedaoTreasury, PLAY)].Nodup := by
      simp only [List.nodup_cons, List.mem_cons, List.not_mem_nil, or_false] at htreasuries ⊢
      simp only [Prod.mk.injEq, game_ne_play, hpg]
      grind
    have hapart : ∀ p ∈ [(zeroTreasury, GAME), (zeroTreasury, PLAY), (game3Treasury, GAME),
        (game3Treasury, PLAY), (gamedaoTreasury, GAME), (gamedaoTreasury, PLAY)],
        ∀ q ∈ (endowments accounts (1_000_000 * 10 ^ 10) (1_000_000 * 10 ^ 10)).map
          (fun t => (t.1, t.2.1)), p ≠ q := by
      intro p hp q hq hpq
      subst hpq
      rw [mem_pairs_endowments] at hq
      apply hfresh p.1 _ hq.1
      simp only [List.mem_cons, List.not_mem_nil, or_false] at hp ⊢
      rcases hp with rfl | rfl | rfl | rfl | rfl | rfl <;> simp
    exact ⟨fun h => h.2.1, fun h => ⟨htreasury, h, hapart⟩⟩

theorem tokensConfig_issuance_distinct :
    ∃ tokens, tokensConfig ([4, 5] : List ℕ) 1 2 3 = .ok tokens ∧
      totalOf GAME tokens = 100_000_000 * 10 ^ 10 ∧ totalOf PLAY tokens = 10_000_000 * 10 ^ 10 ∧
      ((tokens.map fun t => (t.1, t.2.1)).Nodup ↔ [4, 5].Nodup) :=
  tokensConfig_issuance [4, 5] 1 2 3 (by decide) (by decide) (by decide)

/-! ## A repeated account -/

/-- At two endowed accounts that are one and the same: the balances hand out a million ZERO
more than the supply, and the tokens list the pair of that account and GAME twice. -/
theorem genesis_repeated_account_inflates :
    ∃ balances tokens,
      balancesConfig ([4, 4] : List ℕ) 1 2 3 = .ok balances ∧
      tokensConfig ([4, 4] : List ℕ) 1 2 3 = .ok tokens ∧
      (balances.map Prod.fst).Nodup ∧
      (balances.map Prod.snd).sum = 1_000_000_000 * 10 ^ 18 + 1_000_000 * 10 ^ 18 ∧
      (tokens.map fun t => (t.1, t.2.1)).count (4, GAME) = 2 :=
  ⟨_, _, rfl, rfl, by decide, by decide, by decide⟩

end ZeroNet.ChainSpec
