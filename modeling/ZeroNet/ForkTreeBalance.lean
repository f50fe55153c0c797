import ZeroNet.ForkTreeNodes

/-!
# Rebalancing: the deepest branch first

`rebalance` sorts the roots, and the children of every node, by the depth of their deepest
branch, deepest first: the searches of the tree go depth first from the leftmost node, and the
block they look for is most likely on one of the longest chains. The maximum depth of a subtree
does not change when it is rebalanced, since its children only change order; so once the
children of a node are sorted and then rebalanced, they are still sorted. After `rebalance`
every list of siblings in the tree is deepest first, and the tree holds the blocks and edges it
held before.
-/

namespace ZeroNet.ForkTree

variable {H N V : Type}

namespace Node

/-- Siblings with the deepest branch first, the order of
`sort_by_key(|n| Reverse(n.max_depth()))`. -/
def DeepestFirst (nodes : List (Node H N V)) : Prop :=
  nodes.Pairwise fun a b => b.maxDepth ≤ a.maxDepth

/-- The loop of `max_depth` takes a maximum, so the order of the children does not matter. -/
theorem maxDepthLoop_eq_of_perm {l₁ l₂ : List (Node H N V)} (h : l₁.Perm l₂) :
    ∀ m, maxDepthLoop l₁ m = maxDepthLoop l₂ m := by
  induction h with
  | nil => exact fun _ => rfl
  | cons x _ ih =>
    intro m
    simp only [maxDepthLoop]
    exact ih _
  | swap x y l =>
    intro m
    simp only [maxDepthLoop]
    congr 1
    exact max_left_comm _ _ _
  | trans _ _ ih₁ ih₂ => exact fun m => (ih₁ m).trans (ih₂ m)

theorem sortByDepth_deepestFirst (l : List (Node H N V)) : DeepestFirst (sortByDepth l) := by
  unfold DeepestFirst sortByDepth
  refine (@List.pairwise_mergeSort _ (fun a b => decide (b.maxDepth ≤ a.maxDepth)) ?_ ?_ l).imp
    fun h => of_decide_eq_true h
  · intro a b c hab hbc
    simp only [decide_eq_true_eq] at hab hbc ⊢
    omega
  · intro a b
    simp only [Bool.or_eq_true, decide_eq_true_eq]
    omega

mutual
theorem maxDepth_rebalance : ∀ node : Node H N V, node.rebalance.maxDepth = node.maxDepth
  | ⟨hash, number, data, children⟩ => by
    rw [rebalance_mk]
    simp only [maxDepth]
    rw [maxDepthLoop_eq_of_perm ((sortByDepth_perm children).map rebalance),
      maxDepthLoop_map_rebalance]
theorem maxDepthLoop_map_rebalance : ∀ (l : List (Node H N V)) (m : ℕ),
    maxDepthLoop (l.map rebalance) m = maxDepthLoop l m
  | [], _ => rfl
  | node :: rest, m => by
    rw [List.map_cons, maxDepthLoop, maxDepthLoop, maxDepth_rebalance,
      maxDepthLoop_map_rebalance]
end

theorem deepestFirst_map_rebalance {l : List (Node H N V)} (h : DeepestFirst l) :
    DeepestFirst (l.map rebalance) := by
  unfold DeepestFirst at h ⊢
  rw [List.pairwise_map]
  simpa only [maxDepth_rebalance] using h

mutual
theorem deepestFirst_rebalance : ∀ node : Node H N V,
    ∀ m ∈ nodes node.rebalance, DeepestFirst m.children
  | ⟨hash, number, data, children⟩ => by
    intro m hm
    rw [rebalance_mk, nodes_mk, List.mem_cons] at hm
    rcases hm with rfl | hm
    · exact deepestFirst_map_rebalance (sortByDepth_deepestFirst children)
    · have hperm := nodesList_perm ((sortByDepth_perm children).map rebalance)
      exact deepestFirst_rebalanceList children m (hperm.mem_iff.1 hm)
theorem deepestFirst_rebalanceList : ∀ l : List (Node H N V),
    ∀ m ∈ nodesList (l.map rebalance), DeepestFirst m.children
  | [] => fun _ hm => absurd hm List.not_mem_nil
  | node :: rest => by
    intro m hm
    rw [List.map_cons, nodesList_cons, List.mem_append] at hm
    rcases hm with hm | hm
    · exact deepestFirst_rebalance node m hm
    · exact deepestFirst_rebalanceList rest m hm
end

end Node

/-- A tree whose roots, and the children of each of its nodes, are deepest first. -/
structure Balanced (t : ForkTree H N V) : Prop where
  roots : Node.DeepestFirst t.roots
  children : ∀ m ∈ t.nodes, Node.DeepestFirst m.children

/-- `rebalance` only reorders siblings, deepest first: it keeps the blocks and the edges of the
tree, leaves every list of siblings sorted by the depth of its deepest branch, and rebalancing a
subtree keeps its depth. -/
theorem rebalance_deepest_first (t : ForkTree H N V) :
    (rebalance t).entries.Perm t.entries ∧ (rebalance t).edges.Perm t.edges ∧
      Balanced (rebalance t) ∧ ∀ node : Node H N V, node.rebalance.maxDepth = node.maxDepth := by
  obtain ⟨hentries, hedges⟩ := perm_rebalance t
  refine ⟨hentries, hedges, ⟨?_, ?_⟩, Node.maxDepth_rebalance⟩
  · exact Node.deepestFirst_map_rebalance (Node.sortByDepth_deepestFirst t.roots)
  · exact Node.deepestFirst_rebalanceList (Node.sortByDepth t.roots)

end ZeroNet.ForkTree
