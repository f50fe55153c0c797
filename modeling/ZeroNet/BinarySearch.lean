import Mathlib.Data.List.Pairwise
import Mathlib.Order.Basic
import Mathlib.Tactic.Linarith

/-!
# Binary search on slices

`slice::binary_search_by` as the Rust standard library of 2021 runs it: `size` is
`right - left`, the probe is `left + size / 2`, a `Less` probe moves `left` past it, a
`Greater` probe moves `right` onto it, and an `Equal` probe returns `Ok(mid)` at once. When
the interval is empty the loop returns `Err(left)`. `Ok` and `Err` are `Except.ok` and
`Except.error`.

The loop is written with `fuel`; each round shrinks `right - left`, so a fuel of the slice's
length is never exhausted and the fuel-free loop is modelled exactly. On a slice that is
partitioned by the comparator (every element before another compares `Less`, or the later
one compares `Greater`), `Err(i)` is the unique insertion point and `Ok(i)` the unique match.
-/

namespace Slice

variable {α β : Type}

def searchLoop (xs : List α) (f : α → Ordering) : ℕ → ℕ → ℕ → Except ℕ ℕ
  | 0, left, _ => .error left
  | fuel + 1, left, right =>
    if left < right then
      let mid := left + (right - left) / 2
      match xs[mid]?.map f with
      | some .lt => searchLoop xs f fuel (mid + 1) right
      | some .gt => searchLoop xs f fuel left mid
      | _ => .ok mid
    else .error left

def binarySearchBy (xs : List α) (f : α → Ordering) : Except ℕ ℕ :=
  searchLoop xs f xs.length 0 xs.length

/-- `binary_search_by_key(&b, key)` compares `key(x)` against `b`. -/
def binarySearchByKey [Ord β] (xs : List α) (b : β) (key : α → β) : Except ℕ ℕ :=
  binarySearchBy xs (fun x => compare (key x) b)

/-- The comparator splits the slice: of two elements in order, the first is `Less` or the
second is `Greater`. Strictly sorted keys give this for every probe value. -/
def Partitioned (f : α → Ordering) (xs : List α) : Prop :=
  xs.Pairwise (fun a b => f a = .lt ∨ f b = .gt)

theorem searchLoop_ok (xs : List α) (f : α → Ordering) :
    ∀ (fuel left right i : ℕ), right ≤ xs.length → searchLoop xs f fuel left right = .ok i →
      ∃ h : i < xs.length, f xs[i] = .eq := by
  intro fuel
  induction fuel with
  | zero => intro left right i _ h; simp [searchLoop] at h
  | succ fuel ih =>
    intro left right i hr h
    simp only [searchLoop] at h
    split_ifs at h with hlt
    have hmid : left + (right - left) / 2 < xs.length := by omega
    rw [List.getElem?_eq_getElem hmid, Option.map_some] at h
    split at h
    · exact ih _ _ _ hr h
    · exact ih _ _ _ (by omega) h
    · rename_i hne hne'
      cases h
      refine ⟨hmid, ?_⟩
      cases hf : f xs[left + (right - left) / 2] <;> simp_all

theorem searchLoop_error_le (xs : List α) (f : α → Ordering) :
    ∀ (fuel left right i : ℕ), left ≤ right → right ≤ xs.length →
      searchLoop xs f fuel left right = .error i → i ≤ xs.length := by
  intro fuel
  induction fuel with
  | zero => intro left right i hl hr h; simp only [searchLoop, Except.error.injEq] at h; omega
  | succ fuel ih =>
    intro left right i hl hr h
    simp only [searchLoop] at h
    split_ifs at h with hlt
    · have hmid : left + (right - left) / 2 < xs.length := by omega
      rw [List.getElem?_eq_getElem hmid, Option.map_some] at h
      split at h
      · exact ih _ _ _ (by omega) hr h
      · exact ih _ _ _ (by omega) (by omega) h
      · cases h
    · cases h
      omega

theorem binarySearchBy_ok {xs : List α} {f : α → Ordering} {i : ℕ}
    (h : binarySearchBy xs f = .ok i) : ∃ hi : i < xs.length, f xs[i] = .eq :=
  searchLoop_ok xs f _ 0 _ i le_rfl h

theorem binarySearchBy_error_le {xs : List α} {f : α → Ordering} {i : ℕ}
    (h : binarySearchBy xs f = .error i) : i ≤ xs.length :=
  searchLoop_error_le xs f _ 0 _ i (Nat.zero_le _) le_rfl h

section Partitioned

variable {f : α → Ordering} {xs : List α}

theorem Partitioned.lt_of_lt (hp : Partitioned f xs) {i j : ℕ} (hi : i < xs.length)
    (hj : j < xs.length) (hij : i < j) (hf : f xs[j] ≠ .gt) : f xs[i] = .lt := by
  have h := List.pairwise_iff_getElem.1 hp i j hi hj hij
  tauto

theorem Partitioned.gt_of_lt (hp : Partitioned f xs) {i j : ℕ} (hi : i < xs.length)
    (hj : j < xs.length) (hij : i < j) (hf : f xs[i] ≠ .lt) : f xs[j] = .gt := by
  have h := List.pairwise_iff_getElem.1 hp i j hi hj hij
  tauto

/-- The loop invariant: everything left of `left` is `Less`, everything from `right` on is
`Greater`. -/
theorem searchLoop_error (hp : Partitioned f xs) :
    ∀ (fuel left right i : ℕ), left ≤ right → right ≤ xs.length → right - left ≤ fuel →
      (∀ j (hj : j < xs.length), j < left → f xs[j] = .lt) →
      (∀ j (hj : j < xs.length), right ≤ j → f xs[j] = .gt) →
      searchLoop xs f fuel left right = .error i →
      (∀ j (hj : j < xs.length), j < i → f xs[j] = .lt) ∧
        (∀ j (hj : j < xs.length), i ≤ j → f xs[j] = .gt) := by
  intro fuel
  induction fuel with
  | zero =>
    intro left right i hl hr hfuel hlow hhigh h
    simp only [searchLoop, Except.error.injEq] at h
    subst h
    exact ⟨hlow, fun j hj hij => hhigh j hj (by omega)⟩
  | succ fuel ih =>
    intro left right i hl hr hfuel hlow hhigh h
    simp only [searchLoop] at h
    split_ifs at h with hlt
    · have hmid : left + (right - left) / 2 < xs.length := by omega
      rw [List.getElem?_eq_getElem hmid, Option.map_some] at h
      split at h
      · rename_i hcmp
        simp only [Option.some.injEq] at hcmp
        refine ih _ _ _ (by omega) hr (by omega) ?_ hhigh h
        intro j hj hjm
        rcases Nat.lt_or_ge j left with hjl | hjl
        · exact hlow j hj hjl
        · rcases Nat.lt_or_ge j (left + (right - left) / 2) with hjm' | hjm'
          · exact hp.lt_of_lt hj hmid hjm' (by rw [hcmp]; decide)
          · have hjeq : j = left + (right - left) / 2 := by omega
            subst hjeq
            exact hcmp
      · rename_i hcmp
        simp only [Option.some.injEq] at hcmp
        refine ih _ _ _ (by omega) (by omega) (by omega) hlow ?_ h
        intro j hj hjm
        rcases Nat.lt_or_ge (left + (right - left) / 2) j with hjm' | hjm'
        · exact hp.gt_of_lt hmid hj hjm' (by rw [hcmp]; decide)
        · have hjeq : j = left + (right - left) / 2 := by omega
          subst hjeq
          exact hcmp
      · cases h
    · simp only [Except.error.injEq] at h
      subst h
      exact ⟨hlow, fun j hj hij => hhigh j hj (by omega)⟩

theorem binarySearchBy_error (hp : Partitioned f xs) {i : ℕ}
    (h : binarySearchBy xs f = .error i) :
    (∀ a ∈ xs.take i, f a = .lt) ∧ (∀ a ∈ xs.drop i, f a = .gt) := by
  obtain ⟨hlow, hhigh⟩ := searchLoop_error hp _ 0 _ i (Nat.zero_le _) le_rfl (by omega)
    (fun j _ hj => absurd hj (Nat.not_lt_zero j)) (fun j hj hj' => absurd hj (by omega)) h
  constructor
  · intro a ha
    obtain ⟨j, hj, rfl⟩ := List.getElem_of_mem ha
    rw [List.getElem_take]
    exact hlow j _ (by simp at hj; omega)
  · intro a ha
    obtain ⟨j, hj, rfl⟩ := List.getElem_of_mem ha
    rw [List.getElem_drop]
    exact hhigh _ _ (Nat.le_add_right i j)

theorem binarySearchBy_error_not_eq (hp : Partitioned f xs) {i : ℕ}
    (h : binarySearchBy xs f = .error i) : ∀ a ∈ xs, f a ≠ .eq := by
  intro a ha
  obtain ⟨hlow, hhigh⟩ := binarySearchBy_error hp h
  rw [← List.take_append_drop i xs, List.mem_append] at ha
  rcases ha with ha | ha
  · rw [hlow a ha]; decide
  · rw [hhigh a ha]; decide

end Partitioned

section Keys

variable [LinearOrder β] {key : α → β} {xs : List α}

theorem partitioned_of_sorted (hs : (xs.map key).Pairwise (· < ·)) (b : β) :
    Partitioned (fun x => compare (key x) b) xs := by
  unfold Partitioned
  refine (List.pairwise_map.1 hs).imp ?_
  intro x y hxy
  rcases lt_or_ge (key x) b with hx | hx
  · exact .inl (compare_lt_iff_lt.2 hx)
  · exact .inr (compare_gt_iff_gt.2 (lt_of_le_of_lt hx hxy))

theorem insertIdx_eq_take_append_drop (l : List α) (x : α) :
    ∀ i, i ≤ l.length → l.insertIdx i x = l.take i ++ x :: l.drop i := by
  induction l with
  | nil => intro i hi; simp at hi; subst hi; rfl
  | cons y ys ih =>
    intro i hi
    cases i with
    | zero => rfl
    | succ i =>
      simp only [List.insertIdx_succ_cons, List.take_succ_cons, List.drop_succ_cons,
        List.cons_append, List.cons.injEq, true_and]
      exact ih i (by simpa using hi)

theorem sorted_insertIdx_of_error (hs : (xs.map key).Pairwise (· < ·)) {b : β} {i : ℕ}
    (h : binarySearchByKey xs b key = .error i) (x : α) (hx : key x = b) :
    ((xs.insertIdx i x).map key).Pairwise (· < ·) := by
  obtain ⟨hlow, hhigh⟩ := binarySearchBy_error (partitioned_of_sorted hs b) h
  have hi := binarySearchBy_error_le h
  rw [insertIdx_eq_take_append_drop xs x i hi, List.map_append, List.map_cons]
  have hs' := hs
  rw [← List.take_append_drop i xs, List.map_append] at hs'
  rw [List.pairwise_append, List.pairwise_cons]
  obtain ⟨htake, hdrop, hcross⟩ := List.pairwise_append.1 hs'
  refine ⟨htake, ⟨?_, hdrop⟩, ?_⟩
  · intro c hc
    obtain ⟨a, ha, rfl⟩ := List.mem_map.1 hc
    rw [hx]
    exact compare_gt_iff_gt.1 (hhigh a ha)
  · intro c hc d hd
    obtain ⟨a, ha, rfl⟩ := List.mem_map.1 hc
    have hab : key a < b := compare_lt_iff_lt.1 (hlow a ha)
    rcases List.mem_cons.1 hd with rfl | hd
    · rwa [hx]
    · exact hcross _ (List.mem_map_of_mem ha) _ hd

end Keys

end Slice
