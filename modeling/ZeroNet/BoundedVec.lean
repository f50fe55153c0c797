import Mathlib.Data.List.Sublists
import Mathlib.Data.List.Infix

/-!
# Bounded vectors

A `BoundedVec α bound` is a list whose length never exceeds `bound`, the shape of
`BoundedVec<T, S>` in `frame_support`. The bound is a field of the structure, so every
operation has to say why it keeps it: `tryPush` and `tryInsert` refuse to grow past the
bound (returning `none` where the Rust methods return `Err(element)`), the others only keep
or drop elements.
-/

structure BoundedVec (α : Type) (bound : ℕ) where
  toList : List α
  length_le : toList.length ≤ bound
  deriving DecidableEq

namespace BoundedVec

variable {α : Type} {bound : ℕ}

@[ext] theorem ext {v w : BoundedVec α bound} (h : v.toList = w.toList) : v = w := by
  cases v
  cases w
  simp only at h
  subst h
  rfl

instance : Inhabited (BoundedVec α bound) := ⟨⟨[], Nat.zero_le _⟩⟩

def length (v : BoundedVec α bound) : ℕ := v.toList.length

@[simp] theorem default_toList : (default : BoundedVec α bound).toList = [] := rfl

@[simp] theorem length_eq (v : BoundedVec α bound) : v.length = v.toList.length := rfl

/-- `try_from(vec)`: accepted when the vector already fits. -/
def ofList? (l : List α) : Option (BoundedVec α bound) :=
  if h : l.length ≤ bound then some ⟨l, h⟩ else none

/-- `try_push`: appends unless the vector is full. -/
def tryPush (v : BoundedVec α bound) (x : α) : Option (BoundedVec α bound) :=
  if h : v.toList.length < bound then
    some ⟨v.toList ++ [x], by simp only [List.length_append, List.length_singleton]; omega⟩
  else none

/-- `try_insert(index, element)`: inserts at `index` unless the vector is full. -/
def tryInsert (v : BoundedVec α bound) (i : ℕ) (x : α) : Option (BoundedVec α bound) :=
  if h : v.toList.length < bound then
    some ⟨v.toList.insertIdx i x, by
      rw [List.length_insertIdx]
      split <;> omega⟩
  else none

def retain (v : BoundedVec α bound) (p : α → Bool) : BoundedVec α bound :=
  ⟨v.toList.filter p, (List.length_filter_le p _).trans v.length_le⟩

def set (v : BoundedVec α bound) (i : ℕ) (x : α) : BoundedVec α bound :=
  ⟨v.toList.set i x, by simpa using v.length_le⟩

/-- `remove(index)` drops the element at `index`; the caller reads it beforehand. -/
def eraseIdx (v : BoundedVec α bound) (i : ℕ) : BoundedVec α bound :=
  ⟨v.toList.eraseIdx i, (List.length_eraseIdx_le _ _).trans v.length_le⟩

theorem ofList?_eq_some {l : List α} {v : BoundedVec α bound} :
    ofList? l = some v ↔ v.toList = l := by
  unfold ofList?
  split_ifs with h
  · constructor
    · rintro ⟨⟩
      rfl
    · intro hv
      simp only [Option.some.injEq]
      ext1
      exact hv.symm
  · simp only [false_iff]
    intro hv
    exact h (hv ▸ v.length_le)

theorem ofList?_isSome_iff (l : List α) : (ofList? l : Option (BoundedVec α bound)).isSome ↔
    l.length ≤ bound := by
  unfold ofList?
  split_ifs with h <;> simp [h]

theorem tryPush_eq_some {v w : BoundedVec α bound} {x : α} :
    v.tryPush x = some w ↔ v.toList.length < bound ∧ w.toList = v.toList ++ [x] := by
  unfold tryPush
  split_ifs with h
  · simp only [Option.some.injEq, h, true_and]
    constructor
    · rintro rfl
      rfl
    · intro hw
      ext1
      exact hw.symm
  · simp [h]

theorem tryInsert_eq_some {v w : BoundedVec α bound} {i : ℕ} {x : α} :
    v.tryInsert i x = some w ↔ v.toList.length < bound ∧ w.toList = v.toList.insertIdx i x := by
  unfold tryInsert
  split_ifs with h
  · simp only [Option.some.injEq, h, true_and]
    constructor
    · rintro rfl
      rfl
    · intro hw
      ext1
      exact hw.symm
  · simp [h]

theorem tryInsert_eq_none {v : BoundedVec α bound} {i : ℕ} {x : α} :
    v.tryInsert i x = none ↔ bound ≤ v.toList.length := by
  unfold tryInsert
  split_ifs with h
  · simp only [false_iff, not_le]
    exact h
  · simp only [true_iff]
    omega

@[simp] theorem retain_toList (v : BoundedVec α bound) (p : α → Bool) :
    (v.retain p).toList = v.toList.filter p := rfl

@[simp] theorem set_toList (v : BoundedVec α bound) (i : ℕ) (x : α) :
    (v.set i x).toList = v.toList.set i x := rfl

@[simp] theorem eraseIdx_toList (v : BoundedVec α bound) (i : ℕ) :
    (v.eraseIdx i).toList = v.toList.eraseIdx i := rfl

/-! Writing or removing at one position keeps every element stored elsewhere. -/

theorem mem_set_of_getElem_ne {l : List α} {k : ℕ} (hk : k < l.length) {a : α} (x : α)
    (ha : a ∈ l) (hne : l[k] ≠ a) : a ∈ l.set k x := by
  obtain ⟨m, hm, rfl⟩ := List.mem_iff_getElem.1 ha
  have hkm : k ≠ m := by
    rintro rfl
    exact hne rfl
  exact List.mem_iff_getElem.2 ⟨m, by simpa using hm, List.getElem_set_ne hkm _⟩

theorem mem_eraseIdx_of_getElem_ne {l : List α} {k : ℕ} (hk : k < l.length) {a : α}
    (ha : a ∈ l) (hne : l[k] ≠ a) : a ∈ l.eraseIdx k := by
  obtain ⟨m, hm, rfl⟩ := List.mem_iff_getElem.1 ha
  have hmk : m ≠ k := by
    rintro rfl
    exact hne rfl
  exact List.mem_eraseIdx_iff_getElem.2 ⟨m, hm, hmk, rfl⟩

end BoundedVec
