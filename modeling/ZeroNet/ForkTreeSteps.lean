import ZeroNet.ForkTreeNodes

/-!
# What each operation does to the blocks of a fork tree

Every operation but `import` only forgets: the blocks, data and edges of the tree it leaves,
also when it fails half way, are among those of the tree it was given (`Shrinks`). For all of
them but `prune` this is because every root left is a node of the tree before. The lemmas
below say so once for each operation, with what the finalizations also tell about the roots
they keep: the children of the block finalized, or roots above it that the client says descend
from it.
-/

namespace ZeroNet.ForkTree

variable {H N V E : Type}

namespace Node

theorem mem_nodesList_of_mem_nodesList_children {l : List (Node H N V)} {node m : Node H N V}
    (hnode : node ∈ nodesList l) (hm : m ∈ nodesList node.children) : m ∈ nodesList l := by
  obtain ⟨hash, number, data, children⟩ := node
  apply (subset_of_mem_nodesList hnode).1
  rw [nodes_mk]
  exact List.mem_cons_of_mem _ hm

theorem mem_nodesList_of_mem_children {l : List (Node H N V)} {node child : Node H N V}
    (hnode : node ∈ nodesList l) (hchild : child ∈ node.children) : child ∈ nodesList l :=
  mem_nodesList_of_mem_nodesList_children hnode (mem_nodesList_of_mem hchild)

theorem subset_of_forall_mem_nodesList {l l' : List (Node H N V)}
    (h : ∀ node ∈ l', node ∈ nodesList l) :
    nodesList l' ⊆ nodesList l ∧ edgesList l' ⊆ edgesList l := by
  refine ⟨fun m hm => ?_, fun e he => ?_⟩
  · rw [nodesList_eq_flatMap, List.mem_flatMap] at hm
    obtain ⟨node, hnode, hm⟩ := hm
    exact (subset_of_mem_nodesList (h node hnode)).1 hm
  · rw [edgesList_eq_flatMap, List.mem_flatMap] at he
    obtain ⟨node, hnode, he⟩ := he
    exact (subset_of_mem_nodesList (h node hnode)).2 he

end Node

/-- What an operation that only forgets did to a tree: no block, datum or edge is new. -/
structure Shrinks (t t' : ForkTree H N V) : Prop where
  entries : t'.entries ⊆ t.entries
  edges : t'.edges ⊆ t.edges

theorem Shrinks.refl (t : ForkTree H N V) : Shrinks t t :=
  ⟨List.Subset.refl _, List.Subset.refl _⟩

theorem Shrinks.trans {t₁ t₂ t₃ : ForkTree H N V} (h₁ : Shrinks t₁ t₂) (h₂ : Shrinks t₂ t₃) :
    Shrinks t₁ t₃ :=
  ⟨List.Subset.trans h₂.entries h₁.entries, List.Subset.trans h₂.edges h₁.edges⟩

theorem shrinks_rebalance (t : ForkTree H N V) : Shrinks t (rebalance t) :=
  ⟨(perm_rebalance t).1.subset, (perm_rebalance t).2.subset⟩

theorem Shrinks.of_roots {t t' : ForkTree H N V} (h : ∀ root ∈ t'.roots, root ∈ t.nodes) :
    Shrinks t t' :=
  have hsub := Node.subset_of_forall_mem_nodesList h
  ⟨List.map_subset _ hsub.1, hsub.2⟩

theorem mem_nodes_of_mem_roots {t : ForkTree H N V} {root : Node H N V} (h : root ∈ t.roots) :
    root ∈ t.nodes :=
  Node.mem_nodesList_of_mem h

theorem mem_nodes_of_mem_children {t : ForkTree H N V} {node child : Node H N V}
    (hnode : node ∈ t.nodes) (hchild : child ∈ node.children) : child ∈ t.nodes :=
  Node.mem_nodesList_of_mem_children hnode hchild

theorem mem_edges_of_mem_nodes {t : ForkTree H N V} {node child : Node H N V}
    (hnode : node ∈ t.nodes) (hchild : child ∈ node.children) :
    (node.block, child.block) ∈ t.edges :=
  (Node.subset_of_mem_nodesList hnode).2 (Node.mem_edges_of_mem_children hchild)

/-! ## The loop that keeps some of the roots -/

theorem retainRoots_sublist (retain : Node H N V → Except (Error E) Bool)
    (roots : List (Node H N V)) : (retainRoots retain roots).1.Sublist roots := by
  induction roots with
  | nil => exact List.Sublist.slnil
  | cons root roots ih =>
    rw [retainRoots]
    split
    · exact List.nil_sublist _
    · exact ih.cons_cons root
    · exact ih.cons root

theorem retainRoots_retained (retain : Node H N V → Except (Error E) Bool) :
    ∀ {roots : List (Node H N V)} {root : Node H N V},
      root ∈ (retainRoots retain roots).1 → retain root = .ok true
  | [], _, h => absurd h List.not_mem_nil
  | r :: roots, root, h => by
    rw [retainRoots] at h
    split at h
    · exact absurd h List.not_mem_nil
    · rcases List.mem_cons.1 h with rfl | h
      · assumption
      · exact retainRoots_retained retain h
    · exact retainRoots_retained retain h

theorem retainRoots_eq {retain : Node H N V → Except (Error E) Bool}
    {roots kept : List (Node H N V)} {r : Except (Error E) Bool}
    (h : retainRoots retain roots = (kept, r)) :
    kept.Sublist roots ∧ ∀ root ∈ kept, retain root = .ok true := by
  have hkept : kept = (retainRoots retain roots).1 := by rw [h]
  subst hkept
  exact ⟨retainRoots_sublist retain roots, fun _ => retainRoots_retained retain⟩

variable [DecidableEq H] [LinearOrder N]

/-! ## Finalizing a root -/

omit [LinearOrder N] in
theorem finalizeRoot_cases {t t' : ForkTree H N V} {hash : H} {data : Option V}
    (h : t.finalizeRoot hash = (t', data)) :
    (t' = t ∧ data = none) ∨ ∃ root ∈ t.roots, root.hash = hash ∧
      t' = ⟨root.children, some root.number⟩ ∧ data = some root.data := by
  unfold finalizeRoot at h
  split at h
  · rename_i position hp
    obtain ⟨hlt, hhash, -⟩ := List.findIdx?_eq_some_iff_getElem.1 hp
    simp only [finalizeRootAt, Rust.Vec.swapRemove_fst, Prod.mk.injEq] at h
    obtain ⟨rfl, rfl⟩ := h
    exact .inr ⟨t.roots[position], List.getElem_mem hlt, beq_iff_eq.1 hhash, rfl, rfl⟩
  · simp only [Prod.mk.injEq] at h
    exact .inl ⟨h.1.symm, h.2.symm⟩

/-! ## Finalizing with `finalize` -/

theorem finalize_cases {isDescendentOf : H → H → Except E Bool} {t t' : ForkTree H N V}
    {hash : H} {number : N} {res : Except (Error E) (FinalizationResult V)}
    (h : t.finalize isDescendentOf hash number = (t', res)) :
    (∃ kept e, kept.Sublist t.roots ∧ t' = { t with roots := kept } ∧ res = .error e) ∨
    (∃ root ∈ t.roots, root.hash = hash ∧ t' = ⟨root.children, some root.number⟩) ∨
    (∃ kept, kept.Sublist t.roots ∧
      (∀ root ∈ kept, number < root.number ∧ isDescendentOf hash root.hash = .ok true) ∧
      t' = ⟨kept, some number⟩ ∧ ∀ best, t.bestFinalizedNumber = some best → best < number) := by
  unfold finalize at h
  split at h
  · simp only [Prod.mk.injEq] at h
    exact .inl ⟨t.roots, _, List.Sublist.refl _, h.1.symm, h.2.symm⟩
  · rename_i u hrev
    split at h
    · rename_i t₁ data hroot
      rcases finalizeRoot_cases hroot with ⟨-, hnone⟩ | ⟨root, hmem, hhash, rfl, -⟩
      · exact absurd hnone (Option.some_ne_none data)
      · simp only [Prod.mk.injEq] at h
        exact .inr (.inl ⟨root, hmem, hhash, h.1.symm⟩)
    · split at h
      · simp only [Prod.mk.injEq] at h
        exact .inl ⟨t.roots, _, List.Sublist.refl _, h.1.symm, h.2.symm⟩
      · dsimp only at h
        split at h <;> simp only [Prod.mk.injEq] at h <;> obtain ⟨rfl, rfl⟩ := h
        · rename_i kept e hretain
          exact .inl ⟨kept, e, (retainRoots_eq hretain).1, rfl, rfl⟩
        · rename_i kept changed hretain
          obtain ⟨hsub, hkept⟩ := retainRoots_eq hretain
          refine .inr (.inr ⟨kept, hsub, fun root hroot => ?_, rfl, checkRevert_eq_ok hrev⟩)
          have hretained := hkept root hroot
          split_ifs at hretained with hlt
          · exact ⟨hlt, client_eq_ok hretained⟩
          · simp [pure, Except.pure] at hretained


/-! ## Finalizing with `finalize_with_ancestors` -/

theorem classifyRoot_eq_ok {isDescendentOf : H → H → Except E Bool} {hash : H} {number : N}
    {root : Node H N V} {fin desc anc : Bool}
    (h : classifyRoot isDescendentOf hash number root = .ok (fin, desc, anc)) :
    fin = (root.hash == hash) ∧
      (desc = true → number < root.number ∧ isDescendentOf hash root.hash = .ok true) := by
  unfold classifyRoot at h
  dsimp only at h
  split_ifs at h with hd
  · have hnum : number < root.number := by simp_all
    cases hc : client (isDescendentOf hash root.hash) with
    | error e => simp [hc, bind, Except.bind] at h
    | ok d =>
      have hfd : fin = (root.hash == hash) ∧ desc = d := by
        simp only [hc, bind, Except.bind] at h
        split_ifs at h
        · split at h <;> simp_all [pure, Except.pure]
        · simp_all [pure, Except.pure]
      obtain ⟨rfl, rfl⟩ := hfd
      exact ⟨rfl, fun hdesc => ⟨hnum, client_eq_ok (hdesc ▸ hc)⟩⟩
  · have hfd : fin = (root.hash == hash) ∧ desc = false := by
      simp only [pure, Except.pure, bind, Except.bind] at h
      split_ifs at h
      · split at h <;> simp_all
      · simp_all
    obtain ⟨rfl, rfl⟩ := hfd
    exact ⟨rfl, nofun⟩

/-- What the loop of `finalize_with_ancestors` leaves, started on nodes of `roots₀`: roots that
are nodes of `roots₀`; when it stops at the block, a node of `roots₀` with its hash; when it
runs to the end, roots above the block that the client says descend from it. -/
structure AncestorsLoop (isDescendentOf : H → H → Except E Bool) (hash : H) (number : N)
    (roots₀ : List (Node H N V))
    (out : List (Node H N V) × Except (Error E) (Node H N V ⊕ Bool)) : Prop where
  roots : ∀ root ∈ out.1, root ∈ Node.nodesList roots₀
  finalized : ∀ node, out.2 = .ok (.inl node) → node ∈ Node.nodesList roots₀ ∧ node.hash = hash
  descend : ∀ changed, out.2 = .ok (.inr changed) →
    ∀ root ∈ out.1, number < root.number ∧ isDescendentOf hash root.hash = .ok true

/-- The loop's invariant: the roots before `idx` were all found to descend from the block, and
`swap_remove` at `idx` keeps them in place. -/
theorem finalizeWithAncestorsLoop_spec (isDescendentOf : H → H → Except E Bool) (hash : H)
    (number : N) (roots₀ roots : List (Node H N V)) (idx : ℕ) (changed : Bool) :
    (∀ root ∈ roots, root ∈ Node.nodesList roots₀) → idx ≤ roots.length →
    (∀ root ∈ roots.take idx, number < root.number ∧ isDescendentOf hash root.hash = .ok true) →
    AncestorsLoop isDescendentOf hash number roots₀
      (finalizeWithAncestorsLoop isDescendentOf hash number roots idx changed) := by
  fun_induction finalizeWithAncestorsLoop isDescendentOf hash number roots idx changed with
  | case1 roots idx changed hlt e hc =>
    intro hsub _ _
    exact ⟨hsub, nofun, nofun⟩
  | case2 roots idx changed hlt desc anc hc =>
    intro hsub _ _
    refine ⟨hsub, fun node hnode => ?_, nofun⟩
    obtain rfl : roots[idx] = node := by simpa using hnode
    exact ⟨hsub _ (List.getElem_mem hlt), beq_iff_eq.1 (classifyRoot_eq_ok hc).1.symm⟩
  | case3 roots idx changed hlt anc hc ih =>
    intro hsub _ hpre
    refine ih hsub hlt fun root hroot => ?_
    rw [List.take_add_one, List.getElem?_eq_getElem hlt, Option.toList_some,
      List.mem_append, List.mem_singleton] at hroot
    rcases hroot with hroot | rfl
    · exact hpre root hroot
    · exact (classifyRoot_eq_ok hc).2 rfl
  | case4 roots idx changed hlt hc ih =>
    intro hsub hidx hpre
    have hlen := Rust.Vec.length_swapRemove roots idx hlt
    have hrest : ∀ root ∈ (Rust.Vec.swapRemove roots idx hlt).2, root ∈ roots := fun root hroot =>
      (Rust.Vec.swapRemove_perm roots idx hlt).subset (List.mem_cons_of_mem _ hroot)
    have hnode : (Rust.Vec.swapRemove roots idx hlt).1 ∈ Node.nodesList roots₀ :=
      hsub _ ((Rust.Vec.swapRemove_perm roots idx hlt).subset List.mem_cons_self)
    refine ih (fun root hroot => ?_) (by simp; omega) fun root hroot => hpre root ?_
    · rcases List.mem_append.1 hroot with hroot | hroot
      · exact hsub root (hrest root hroot)
      · exact Node.mem_nodesList_of_mem_children hnode hroot
    · rwa [List.take_append_of_le_length (by omega), Rust.Vec.take_swapRemove] at hroot
  | case5 roots idx changed hlt hc ih =>
    intro hsub hidx hpre
    have hlen := Rust.Vec.length_swapRemove roots idx hlt
    refine ih (fun root hroot => hsub root ?_) (by omega) fun root hroot => hpre root ?_
    · exact (Rust.Vec.swapRemove_perm roots idx hlt).subset (List.mem_cons_of_mem _ hroot)
    · rwa [Rust.Vec.take_swapRemove] at hroot
  | case6 roots idx changed hlt =>
    intro hsub hidx hpre
    refine ⟨hsub, nofun, fun _ _ root hroot => hpre root ?_⟩
    rwa [List.take_of_length_le (by omega)]

theorem finalizeWithAncestors_cases {isDescendentOf : H → H → Except E Bool}
    {t t' : ForkTree H N V} {hash : H} {number : N}
    {res : Except (Error E) (FinalizationResult V)}
    (h : t.finalizeWithAncestors isDescendentOf hash number = (t', res)) :
    (∃ roots e, (∀ root ∈ roots, root ∈ t.nodes) ∧ t' = { t with roots := roots } ∧
      res = .error e) ∨
    (∃ node ∈ t.nodes, node.hash = hash ∧ t' = ⟨node.children, some node.number⟩) ∨
    (∃ roots, (∀ root ∈ roots,
        root ∈ t.nodes ∧ number < root.number ∧ isDescendentOf hash root.hash = .ok true) ∧
      t' = ⟨roots, some number⟩ ∧ ∀ best, t.bestFinalizedNumber = some best → best < number) := by
  unfold finalizeWithAncestors at h
  split at h
  · simp only [Prod.mk.injEq] at h
    exact .inl ⟨t.roots, _, fun _ => mem_nodes_of_mem_roots, h.1.symm, h.2.symm⟩
  · rename_i u hrev
    split at h
    · rename_i t₁ data hroot
      rcases finalizeRoot_cases hroot with ⟨-, hnone⟩ | ⟨root, hmem, hhash, rfl, -⟩
      · exact absurd hnone (Option.some_ne_none data)
      · simp only [Prod.mk.injEq] at h
        exact .inr (.inl ⟨root, mem_nodes_of_mem_roots hmem, hhash, h.1.symm⟩)
    · have hloop := finalizeWithAncestorsLoop_spec isDescendentOf hash number t.roots t.roots 0
        false (fun _ => Node.mem_nodesList_of_mem) (Nat.zero_le _) (by simp)
      split at h <;> simp only [Prod.mk.injEq] at h <;> obtain ⟨rfl, rfl⟩ := h
      · rename_i roots e hres
        rw [hres] at hloop
        exact .inl ⟨roots, e, hloop.roots, rfl, rfl⟩
      · rename_i roots node hres
        rw [hres] at hloop
        obtain ⟨hnode, hhash⟩ := hloop.finalized node rfl
        exact .inr (.inl ⟨node, hnode, hhash, rfl⟩)
      · rename_i roots changed hres
        rw [hres] at hloop
        exact .inr (.inr ⟨roots, fun root hroot =>
          ⟨hloop.roots root hroot, hloop.descend changed rfl root hroot⟩, rfl,
          checkRevert_eq_ok hrev⟩)

/-! ## Finalizing with `finalize_with_descendent_if` -/

theorem finalizeWithDescendentIf_roots {isDescendentOf : H → H → Except E Bool}
    {t t' : ForkTree H N V} {hash : H} {number : N} {predicate : V → Bool}
    {res : Except (Error E) (FinalizationResult V)}
    (h : t.finalizeWithDescendentIf isDescendentOf hash number predicate = (t', res)) :
    ∀ root ∈ t'.roots, root ∈ t.nodes := by
  unfold finalizeWithDescendentIf at h
  split at h
  · simp only [Prod.mk.injEq] at h
    rw [← h.1]
    exact fun _ => mem_nodes_of_mem_roots
  · split at h
    rename_i base nodeData hbase
    have hbroots : ∀ root ∈ base.roots, root ∈ t.nodes := by
      split at hbase
      · split_ifs at hbase with hi
        · simp only [Rust.Vec.swapRemove_fst, Prod.mk.injEq] at hbase
          rw [← hbase.1]
          exact fun _ => mem_nodes_of_mem_children
            (mem_nodes_of_mem_roots (List.getElem_mem hi))
        · simp only [Prod.mk.injEq] at hbase
          rw [← hbase.1]
          exact fun _ => mem_nodes_of_mem_roots
      · simp only [Prod.mk.injEq] at hbase
        rw [← hbase.1]
        exact fun _ => mem_nodes_of_mem_roots
    split at h <;> simp only [Prod.mk.injEq] at h <;> obtain ⟨rfl, rfl⟩ := h <;>
      rename_i hretain <;>
      exact fun root hroot => hbroots root ((retainRoots_eq hretain).1.subset hroot)


/-! ## Pruning -/

theorem pruneChildren_sublist (isDescendentOf : H → H → Except E Bool) (hash : H) (number : N) :
    ∀ (children : List (Node H N V)) (isFirst : Bool),
      (pruneChildren isDescendentOf hash number children isFirst).1.Sublist children
  | [], _ => List.Sublist.slnil
  | child :: children, isFirst => by
    rw [pruneChildren]
    split
    · exact List.nil_sublist _
    · exact (pruneChildren_sublist isDescendentOf hash number children false).cons_cons child
    · exact (pruneChildren_sublist isDescendentOf hash number children isFirst).cons child

omit [DecidableEq H] [LinearOrder N] in
theorem mem_nodesList_of_detach : ∀ {nodes : List (Node H N V)} {path : List ℕ}
    {root : Node H N V} {rest : List (Node H N V)},
    detach nodes path = some (root, rest) → root ∈ Node.nodesList nodes
  | _, [], _, _, h => by simp [detach] at h
  | nodes, [i], root, rest, h => by
    rw [detach] at h
    split_ifs at h with hi
    simp only [Rust.Vec.remove, Option.some.injEq, Prod.mk.injEq] at h
    rw [← h.1]
    exact Node.mem_nodesList_of_mem (List.getElem_mem hi)
  | nodes, i :: j :: path, root, rest, h => by
    rw [detach] at h
    split_ifs at h with hi
    obtain ⟨⟨root', children⟩, hd, hroot⟩ := Option.map_eq_some_iff.1 h
    simp only [Prod.mk.injEq] at hroot
    rw [← hroot.1]
    exact Node.mem_nodesList_of_mem_nodesList_children
      (Node.mem_nodesList_of_mem (List.getElem_mem hi)) (mem_nodesList_of_detach hd)

theorem prune_cases {isDescendentOf : H → H → Except E Bool} {t t' : ForkTree H N V}
    {hash : H} {number : N} {predicate : V → Bool} {res : Except (Error E) (List (H × N × V))}
    (h : t.prune isDescendentOf hash number predicate = some (t', res)) :
    t' = t ∨ t' = rebalance t ∨ t' = { t with roots := [] } ∨
      ∃ root ∈ t.nodes, ∃ kept, kept.Sublist root.children ∧
        t' = rebalance { t with roots := [{ root with children := kept }] } := by
  unfold prune at h
  split at h
  · simp only [Option.some.injEq, Prod.mk.injEq] at h
    exact .inl h.1.symm
  · simp only [Option.some.injEq, Prod.mk.injEq] at h
    exact .inr (.inl h.1.symm)
  · rename_i rootIndex hfind
    cases hd : detach t.roots rootIndex.reverse with
    | none => simp [hd] at h
    | some x =>
      obtain ⟨root, oldRoots⟩ := x
      simp only [hd, bind, Option.bind] at h
      rcases hp : pruneChildren isDescendentOf hash number root.children true with
        ⟨kept, removed, _ | _⟩ <;> simp only [hp, Option.some.injEq, Prod.mk.injEq] at h
      · exact .inr (.inr (.inl h.1.symm))
      · have hsub := pruneChildren_sublist isDescendentOf hash number root.children true
        rw [hp] at hsub
        exact .inr (.inr (.inr ⟨root, mem_nodesList_of_detach hd, kept, hsub, h.1.symm⟩))

theorem bestFinalizedNumber_of_prune {isDescendentOf : H → H → Except E Bool} {t t' : ForkTree H N V}
    {hash : H} {number : N} {predicate : V → Bool} {res : Except (Error E) (List (H × N × V))}
    (h : t.prune isDescendentOf hash number predicate = some (t', res)) :
    t'.bestFinalizedNumber = t.bestFinalizedNumber := by
  rcases prune_cases h with rfl | rfl | rfl | ⟨root, -, kept, -, rfl⟩ <;> rfl

/-! ## Every operation but `import` only forgets -/

omit [DecidableEq H] [LinearOrder N] in
theorem Node.subset_of_sublist_children {node : Node H N V} {kept : List (Node H N V)}
    (h : kept.Sublist node.children) :
    (Node.nodes { node with children := kept }).map Node.entry ⊆ (Node.nodes node).map Node.entry ∧
      Node.edges { node with children := kept } ⊆ Node.edges node := by
  obtain ⟨hash, number, data, children⟩ := node
  have hsub := Node.subset_of_forall_mem_nodesList fun k hk =>
    Node.mem_nodesList_of_mem (h.subset hk)
  simp only [Node.nodes_mk, Node.edges_mk, List.map_cons]
  refine ⟨List.cons_subset_cons _ (List.map_subset _ hsub.1), ?_⟩
  exact List.append_subset.2 ⟨List.subset_append_of_subset_left _ ((h.map _).subset),
    List.subset_append_of_subset_right _ hsub.2⟩

omit [DecidableEq H] [LinearOrder N] in
theorem Shrinks.of_pruned {t : ForkTree H N V} {root : Node H N V} {kept : List (Node H N V)}
    (hroot : root ∈ t.nodes) (hkept : kept.Sublist root.children) :
    Shrinks t { t with roots := [{ root with children := kept }] } := by
  obtain ⟨hentries, hedges⟩ := Node.subset_of_sublist_children hkept
  obtain ⟨hnodes, hedges'⟩ := Node.subset_of_mem_nodesList hroot
  refine ⟨?_, ?_⟩
  · change (Node.nodesList [_]).map Node.entry ⊆ (Node.nodesList t.roots).map Node.entry
    rw [Node.nodesList_cons, Node.nodesList_nil, List.append_nil]
    exact List.Subset.trans hentries (List.map_subset _ hnodes)
  · change Node.edgesList [_] ⊆ Node.edgesList t.roots
    rw [Node.edgesList_cons, Node.edgesList_nil, List.append_nil]
    exact List.Subset.trans hedges hedges'

omit [LinearOrder N] in
theorem shrinks_finalizeRoot {t t' : ForkTree H N V} {hash : H} {data : Option V}
    (h : t.finalizeRoot hash = (t', data)) : Shrinks t t' := by
  rcases finalizeRoot_cases h with ⟨rfl, -⟩ | ⟨root, hmem, -, rfl, -⟩
  · exact Shrinks.refl _
  · exact Shrinks.of_roots fun _ => mem_nodes_of_mem_children (mem_nodes_of_mem_roots hmem)

theorem shrinks_finalize {isDescendentOf : H → H → Except E Bool} {t t' : ForkTree H N V}
    {hash : H} {number : N} {res : Except (Error E) (FinalizationResult V)}
    (h : t.finalize isDescendentOf hash number = (t', res)) : Shrinks t t' := by
  rcases finalize_cases h with ⟨kept, -, hkept, rfl, -⟩ | ⟨root, hmem, -, rfl⟩ |
    ⟨kept, hkept, -, rfl, -⟩
  · exact Shrinks.of_roots fun _ hr => mem_nodes_of_mem_roots (hkept.subset hr)
  · exact Shrinks.of_roots fun _ => mem_nodes_of_mem_children (mem_nodes_of_mem_roots hmem)
  · exact Shrinks.of_roots fun _ hr => mem_nodes_of_mem_roots (hkept.subset hr)

theorem shrinks_finalizeWithAncestors {isDescendentOf : H → H → Except E Bool}
    {t t' : ForkTree H N V} {hash : H} {number : N}
    {res : Except (Error E) (FinalizationResult V)}
    (h : t.finalizeWithAncestors isDescendentOf hash number = (t', res)) : Shrinks t t' := by
  rcases finalizeWithAncestors_cases h with ⟨roots, -, hroots, rfl, -⟩ | ⟨node, hnode, -, rfl⟩ |
    ⟨roots, hroots, rfl, -⟩
  · exact Shrinks.of_roots hroots
  · exact Shrinks.of_roots fun _ => mem_nodes_of_mem_children hnode
  · exact Shrinks.of_roots fun root hr => (hroots root hr).1

theorem shrinks_finalizeWithDescendentIf {isDescendentOf : H → H → Except E Bool}
    {t t' : ForkTree H N V} {hash : H} {number : N} {predicate : V → Bool}
    {res : Except (Error E) (FinalizationResult V)}
    (h : t.finalizeWithDescendentIf isDescendentOf hash number predicate = (t', res)) :
    Shrinks t t' :=
  Shrinks.of_roots (finalizeWithDescendentIf_roots h)

theorem shrinks_prune {isDescendentOf : H → H → Except E Bool} {t t' : ForkTree H N V}
    {hash : H} {number : N} {predicate : V → Bool} {res : Except (Error E) (List (H × N × V))}
    (h : t.prune isDescendentOf hash number predicate = some (t', res)) : Shrinks t t' := by
  rcases prune_cases h with rfl | rfl | rfl | ⟨root, hroot, kept, hkept, rfl⟩
  · exact Shrinks.refl _
  · exact shrinks_rebalance t
  · exact Shrinks.of_roots nofun
  · exact (Shrinks.of_pruned hroot hkept).trans (shrinks_rebalance _)

end ZeroNet.ForkTree
