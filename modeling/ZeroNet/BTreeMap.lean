import Mathlib.Algebra.BigOperators.Group.List.Basic
import Mathlib.Order.Basic
import Mathlib.Order.Lattice
import Mathlib.Algebra.GroupWithZero.Nat

/-!
# Ordered maps as sorted association lists

A `BTreeMap κ ν` holds what a Rust `BTreeMap` holds and yields: its entries in increasing key
order. The structure carries that order, so no key is ever repeated. `insert` either places a
new entry at its key's position or replaces the entry of that key. The lemmas give its two
shapes: a permutation of the consed entry for a fresh key, and an update in place for a
present one. From these follow what a lookup, the number of entries and the sum of the values
become, which is what a fold that builds a map needs.
-/

structure BTreeMap (κ ν : Type) [LinearOrder κ] where
  entries : List (κ × ν)
  sorted : (entries.map Prod.fst).Pairwise (· < ·)

namespace BTreeMap

variable {κ ν : Type} [LinearOrder κ]

/-! ## Sorted insertion into a list of entries -/

def insertEntry (k : κ) (v : ν) : List (κ × ν) → List (κ × ν)
  | [] => [(k, v)]
  | e :: es =>
    if k < e.1 then (k, v) :: e :: es
    else if k = e.1 then (k, v) :: es
    else e :: insertEntry k v es

theorem lookup_cons_eq_ite (k : κ) (e : κ × ν) (es : List (κ × ν)) :
    (e :: es).lookup k = if k = e.1 then some e.2 else es.lookup k := by
  obtain ⟨a, b⟩ := e
  by_cases h : k = a
  · subst h
    simp
  · have hne : (k == a) = false := beq_eq_false_iff_ne.2 h
    simp [List.lookup_cons, h, hne]

theorem mem_keys_of_lookup_eq_some {k : κ} {es : List (κ × ν)} {v : ν}
    (h : es.lookup k = some v) : k ∈ es.map Prod.fst := by
  induction es with
  | nil => cases h
  | cons e es ih =>
    rw [lookup_cons_eq_ite] at h
    split_ifs at h with hk
    · exact List.mem_cons.2 (.inl hk)
    · exact List.mem_cons_of_mem _ (ih h)

theorem mem_keys_insertEntry (k : κ) (v : ν) (es : List (κ × ν)) (x : κ) :
    x ∈ (insertEntry k v es).map Prod.fst ↔ x = k ∨ x ∈ es.map Prod.fst := by
  induction es with
  | nil => simp [insertEntry]
  | cons e es ih =>
    simp only [insertEntry]
    split_ifs with hlt heq
    · simp
    · simp only [List.map_cons, List.mem_cons, heq]
      tauto
    · simp only [List.map_cons, List.mem_cons, ih]
      tauto

theorem sorted_insertEntry (k : κ) (v : ν) {es : List (κ × ν)}
    (h : (es.map Prod.fst).Pairwise (· < ·)) :
    ((insertEntry k v es).map Prod.fst).Pairwise (· < ·) := by
  induction es with
  | nil => simp [insertEntry]
  | cons e es ih =>
    rw [List.map_cons, List.pairwise_cons] at h
    simp only [insertEntry]
    split_ifs with hlt heq
    · refine List.pairwise_cons.2 ⟨?_, List.pairwise_cons.2 h⟩
      intro y hy
      rcases List.mem_cons.1 hy with rfl | hy
      · exact hlt
      · exact lt_trans hlt (h.1 y hy)
    · rw [List.map_cons, List.pairwise_cons, heq]
      exact h
    · have hek : e.1 < k := lt_of_le_of_ne (not_lt.1 hlt) (Ne.symm heq)
      refine List.pairwise_cons.2 ⟨?_, ih h.2⟩
      intro y hy
      rcases (mem_keys_insertEntry k v es y).1 hy with rfl | hy
      · exact hek
      · exact h.1 y hy

theorem lookup_insertEntry (k : κ) (v : ν) (es : List (κ × ν)) (x : κ) :
    (insertEntry k v es).lookup x = if x = k then some v else es.lookup x := by
  induction es with
  | nil => simp only [insertEntry, lookup_cons_eq_ite, List.lookup_nil]
  | cons e es ih =>
    rw [insertEntry]
    by_cases hlt : k < e.1
    · rw [if_pos hlt, lookup_cons_eq_ite]
    · rw [if_neg hlt]
      by_cases heq : k = e.1
      · rw [if_pos heq, lookup_cons_eq_ite, lookup_cons_eq_ite, ← heq]
        by_cases hx : x = k <;> simp [hx]
      · rw [if_neg heq, lookup_cons_eq_ite, lookup_cons_eq_ite, ih]
        by_cases hx : x = k
        · simp [hx, heq]
        · simp [hx]

theorem insertEntry_perm_of_lookup_none {k : κ} (v : ν) {es : List (κ × ν)}
    (h : es.lookup k = none) : (insertEntry k v es).Perm ((k, v) :: es) := by
  induction es with
  | nil => rfl
  | cons e es ih =>
    rw [lookup_cons_eq_ite] at h
    have hne : k ≠ e.1 := fun hk => by rw [if_pos hk] at h; cases h
    rw [if_neg hne] at h
    rw [insertEntry]
    by_cases hlt : k < e.1
    · rw [if_pos hlt]
    · rw [if_neg hlt, if_neg hne]
      exact ((ih h).cons e).trans (List.Perm.swap (k, v) e es)

theorem insertEntry_eq_of_lookup_some {k : κ} (v : ν) {es : List (κ × ν)}
    (hs : (es.map Prod.fst).Pairwise (· < ·)) {old : ν} (h : es.lookup k = some old) :
    ∃ pre post, es = pre ++ (k, old) :: post ∧ insertEntry k v es = pre ++ (k, v) :: post := by
  induction es with
  | nil => cases h
  | cons e es ih =>
    rw [List.map_cons, List.pairwise_cons] at hs
    rw [lookup_cons_eq_ite] at h
    rw [insertEntry]
    by_cases hk : k = e.1
    · rw [if_pos hk] at h
      cases h
      have hlt : ¬k < e.1 := by rw [hk]; exact lt_irrefl _
      rw [if_neg hlt, if_pos hk]
      exact ⟨[], es, by rw [List.nil_append, hk], rfl⟩
    · rw [if_neg hk] at h
      by_cases hlt : k < e.1
      · exact absurd (hs.1 k (mem_keys_of_lookup_eq_some h)) (lt_asymm hlt)
      · rw [if_neg hlt, if_neg hk]
        obtain ⟨pre, post, hes, hins⟩ := ih hs.2 h
        exact ⟨e :: pre, post, by rw [hes, List.cons_append], by rw [hins, List.cons_append]⟩

/-! ## The map -/

def empty : BTreeMap κ ν := ⟨[], List.Pairwise.nil⟩

def insert (m : BTreeMap κ ν) (k : κ) (v : ν) : BTreeMap κ ν :=
  ⟨insertEntry k v m.entries, sorted_insertEntry k v m.sorted⟩

def get? (m : BTreeMap κ ν) (k : κ) : Option ν := m.entries.lookup k

def keys (m : BTreeMap κ ν) : List κ := m.entries.map Prod.fst

variable (m : BTreeMap κ ν)

theorem nodup_keys : m.keys.Nodup := m.sorted.imp ne_of_lt

@[simp] theorem keys_empty : (empty : BTreeMap κ ν).keys = [] := rfl

@[simp] theorem entries_empty : (empty : BTreeMap κ ν).entries = [] := rfl

@[simp] theorem get?_insert (k : κ) (v : ν) (x : κ) :
    (m.insert k v).get? x = if x = k then some v else m.get? x :=
  lookup_insertEntry k v m.entries x

@[simp] theorem mem_keys_insert (k : κ) (v : ν) (x : κ) :
    x ∈ (m.insert k v).keys ↔ x = k ∨ x ∈ m.keys :=
  mem_keys_insertEntry k v m.entries x

theorem mem_keys_of_get? {k : κ} {v : ν} (h : m.get? k = some v) : k ∈ m.keys :=
  mem_keys_of_lookup_eq_some h

variable {m}

theorem length_insert_of_get?_none {k : κ} (v : ν) (h : m.get? k = none) :
    (m.insert k v).entries.length = m.entries.length + 1 :=
  (insertEntry_perm_of_lookup_none v h).length_eq

theorem length_insert_of_get?_some {k : κ} (v : ν) {old : ν} (h : m.get? k = some old) :
    (m.insert k v).entries.length = m.entries.length := by
  obtain ⟨pre, post, hes, hins⟩ := insertEntry_eq_of_lookup_some v m.sorted h
  show (insertEntry k v m.entries).length = _
  rw [hins, hes, List.length_append, List.length_append, List.length_cons, List.length_cons]

section Sum

variable [AddCommMonoid ν]

theorem sum_insert_of_get?_none {k : κ} (v : ν) (h : m.get? k = none) :
    ((m.insert k v).entries.map Prod.snd).sum = (m.entries.map Prod.snd).sum + v := by
  show ((insertEntry k v m.entries).map Prod.snd).sum = _
  rw [((insertEntry_perm_of_lookup_none v h).map Prod.snd).sum_eq, List.map_cons,
    List.sum_cons, add_comm]

theorem sum_insert_of_get?_some {k : κ} (v : ν) {old : ν} (h : m.get? k = some old) :
    ((m.insert k v).entries.map Prod.snd).sum + old = (m.entries.map Prod.snd).sum + v := by
  obtain ⟨pre, post, hes, hins⟩ := insertEntry_eq_of_lookup_some v m.sorted h
  show ((insertEntry k v m.entries).map Prod.snd).sum + old = _
  rw [hins, hes]
  simp only [List.map_append, List.map_cons, List.sum_append, List.sum_cons]
  ac_rfl

end Sum

theorem le_sum_of_get? {m : BTreeMap κ ℕ} {k : κ} {v : ℕ} (h : m.get? k = some v) :
    v ≤ (m.entries.map Prod.snd).sum := by
  obtain ⟨pre, post, hes, -⟩ := insertEntry_eq_of_lookup_some v m.sorted h
  rw [hes, List.map_append, List.map_cons, List.sum_append, List.sum_cons]
  omega

end BTreeMap
