import Mathlib.Data.List.Perm.Basic

/-!
# Removing from a vector

`Vec::swap_remove` and `Vec::remove` on a list, at an index in bounds. The first moves the
last element into the hole, the second shifts the rest down. Either way the element taken out
and the vector left are the vector as it was, up to order, and `swap_remove` leaves the
elements before the index where they were.

`Vec::drain` of a range and `copy_from_slice` panic unless the range lies in the vector and
the two slices have one length; each is `none` exactly then.
-/

namespace Rust.Vec

variable {α : Type}

/-- `Vec::swap_remove`: the element at `i`, and the vector with its last element written over
position `i` and then dropped from the end. -/
def swapRemove (l : List α) (i : ℕ) (h : i < l.length) : α × List α :=
  (l[i], (l.set i (l.getLast (List.ne_nil_of_length_pos (by omega)))).dropLast)

def remove (l : List α) (i : ℕ) (h : i < l.length) : α × List α :=
  (l[i], l.eraseIdx i)

theorem swapRemove_fst (l : List α) (i : ℕ) (h : i < l.length) : (swapRemove l i h).1 = l[i] :=
  rfl

theorem remove_fst (l : List α) (i : ℕ) (h : i < l.length) : (remove l i h).1 = l[i] :=
  rfl

theorem length_swapRemove (l : List α) (i : ℕ) (h : i < l.length) :
    (swapRemove l i h).2.length = l.length - 1 := by
  simp [swapRemove]

theorem take_swapRemove (l : List α) (i : ℕ) (h : i < l.length) :
    (swapRemove l i h).2.take i = l.take i := by
  unfold swapRemove
  rw [List.dropLast_eq_take, List.take_take, List.length_set, Nat.min_eq_left (by omega),
    List.take_set, List.set_eq_of_length_le (by simp only [List.length_take]; omega)]

theorem swapRemove_perm (l : List α) (i : ℕ) (h : i < l.length) :
    ((swapRemove l i h).1 :: (swapRemove l i h).2).Perm l := by
  obtain ⟨init, last, rfl⟩ := (List.eq_nil_or_concat' l).resolve_left
    (List.ne_nil_of_length_pos (by omega))
  unfold swapRemove
  simp only [List.getLast_append_singleton]
  rcases Nat.lt_or_ge i init.length with hi | hi
  · -- the hole is in `init`: the last element moves into it
    rw [List.getElem_append_left hi, List.set_append_left _ _ hi, List.dropLast_concat]
    have hswap := List.getD_set_perm_cons init i last
    rw [List.getElem?_eq_getElem hi, Option.getD_some] at hswap
    exact hswap.trans (List.perm_append_singleton last init).symm
  · -- the last element itself is taken out
    have hlast : i = init.length := by simp at h; omega
    subst hlast
    simp only [List.getElem_append_right (Nat.le_refl _), Nat.sub_self,
      List.getElem_cons_zero, List.set_append_right _ _ (Nat.le_refl _), List.set_cons_zero,
      List.dropLast_concat]
    exact (List.perm_append_singleton last init).symm

theorem remove_perm (l : List α) (i : ℕ) (h : i < l.length) :
    ((remove l i h).1 :: (remove l i h).2).Perm l :=
  List.getElem_cons_eraseIdx_perm h

/-- `Vec::drain(begin..stop)`, collected: the elements in the range, when it lies in the
vector. -/
def drain (l : List α) (begin stop : ℕ) : Option (List α) :=
  if begin ≤ stop ∧ stop ≤ l.length then some ((l.take stop).drop begin) else none

/-- `dst.copy_from_slice(src)`: `dst` then holds `src`, when the two have one length. -/
def copyFromSlice (dst src : List α) : Option (List α) :=
  if src.length = dst.length then some src else none

theorem drain_of_le {l : List α} {begin stop : ℕ} (hb : begin ≤ stop) (hs : stop ≤ l.length) :
    drain l begin stop = some ((l.take stop).drop begin) :=
  if_pos ⟨hb, hs⟩

theorem drain_eq_none {l : List α} {begin stop : ℕ} (hs : l.length < stop) :
    drain l begin stop = none :=
  if_neg fun h => absurd h.2 (Nat.not_le.2 hs)

theorem length_drain {l : List α} {begin stop : ℕ} {d : List α}
    (h : drain l begin stop = some d) : d.length = stop - begin := by
  unfold drain at h
  split_ifs at h with hin
  cases h
  simp only [List.length_drop, List.length_take]
  omega

theorem copyFromSlice_of_length_eq {dst src : List α} (h : src.length = dst.length) :
    copyFromSlice dst src = some src :=
  if_pos h

end Rust.Vec
