import ZeroNet.ForkTreeRuns

/-!
# Searching and pruning

`find_node_index_where` returns the path of child indices to the deepest node whose data passes
the predicate and from whose subtree the client says the block descends; `find_node_where`
walks that path, and so does `prune`, which takes the node out, keeps of its children only the
first on the block's branch, and makes it the one root. Every path the search returns leads to
a node of the tree, so neither walk leaves it and the `expect` of `prune` never fires; and the
blocks `prune` removes are, with those it keeps, the blocks the tree had. Since
`find_node_where` is `find_node_index_where` followed by the walk of `prune`, the two agree: the
tree `prune` leaves is rooted at the node `find_node_where` returns.
-/

namespace ZeroNet.ForkTree

variable {H N V E : Type} [LinearOrder N]

/-- What the searches look for: a node not above the block whose data passes the predicate,
with a node in its subtree, not above the block either, that the client says the block
descends from. -/
def Sought (isDescendentOf : H → H → Except E Bool) (hash : H) (number : N)
    (predicate : V → Bool) (node : Node H N V) : Prop :=
  predicate node.data = true ∧ node.number ≤ number ∧
    ∃ d ∈ Node.nodes node, d.number ≤ number ∧ isDescendentOf d.hash hash = .ok true

omit [LinearOrder N] in
theorem bind_eq_ok {α β : Type} {x : Except (Error E) α} {f : α → Except (Error E) β} {b : β}
    (h : (x >>= f) = .ok b) : ∃ a, x = .ok a ∧ f a = .ok b := by
  cases x with
  | error e => exact absurd h (by simp [bind, Except.bind])
  | ok a => exact ⟨a, rfl, h⟩

omit [LinearOrder N] in
theorem descend_cons (node : Node H N V) (i : ℕ) (path : List ℕ) :
    descend node (i :: path) = node.children[i]? >>= fun child => descend child path :=
  rfl

namespace Node

variable {isDescendentOf : H → H → Except E Bool} {hash : H} {number : N}
  {predicate : V → Bool}

mutual
/-- A path found leads to a sought node of the subtree, and a failure that reports descent has
a node of the subtree the block descends from. -/
theorem findNodeIndexWhere_spec : ∀ {node : Node H N V} {r : FindOutcome (List ℕ)},
    node.findNodeIndexWhere isDescendentOf hash number predicate = .ok r →
      (∀ path, r = .found path → ∃ m, descend node path.reverse = some m ∧ m ∈ nodes node ∧
        Sought isDescendentOf hash number predicate m) ∧
      (r = .failure true →
        ∃ d ∈ nodes node, d.number ≤ number ∧ isDescendentOf d.hash hash = .ok true)
  | ⟨selfHash, selfNumber, selfData, children⟩, r, h => by
    rw [findNodeIndexWhere] at h
    split_ifs at h with hlt
    · simp only [pure, Except.pure, Except.ok.injEq] at h
      subst h
      exact ⟨nofun, nofun⟩
    · cases hc : findInChildren isDescendentOf hash number predicate children 0 with
      | error e => simp [hc, bind, Except.bind] at h
      | ok o =>
        obtain ⟨hfound, hfail⟩ := findInChildren_spec hc
        cases o with
        | abort =>
          simp only [hc, bind, Except.bind, pure, Except.pure, Except.ok.injEq] at h
          subst h
          exact ⟨nofun, nofun⟩
        | found x =>
          simp only [hc, bind, Except.bind, pure, Except.pure, Except.ok.injEq] at h
          subst h
          refine ⟨fun path hpath => ?_, nofun⟩
          cases hpath
          obtain ⟨k, c, y, hk, rfl, m, hm, hmem, hsought⟩ := hfound x rfl
          refine ⟨m, ?_, ?_, hsought⟩
          · simp [descend_cons, hk, hm]
          · rw [nodes_mk]
            exact List.mem_cons_of_mem _
              ((subset_of_mem_nodesList (mem_nodesList_of_mem (List.mem_of_getElem? hk))).1 hmem)
        | failure known =>
          obtain ⟨b, hb, h⟩ : ∃ b : Bool, (b = true →
              ∃ d ∈ nodes ⟨selfHash, selfNumber, selfData, children⟩, d.number ≤ number ∧
                isDescendentOf d.hash hash = .ok true) ∧
              (if (b && predicate selfData) = true then .ok (.found [])
                else .ok (.failure b) : Except (Error E) (FindOutcome (List ℕ))) = .ok r := by
            simp only [hc, bind, Except.bind, pure, Except.pure] at h
            by_cases hknown : known = true
            · rw [if_pos hknown] at h
              refine ⟨true, fun _ => ?_, h⟩
              obtain ⟨d, hd, hdn, hdd⟩ := hfail (by rw [hknown])
              exact ⟨d, by rw [nodes_mk]; exact List.mem_cons_of_mem _ hd, hdn, hdd⟩
            · rw [if_neg hknown] at h
              cases hcl : client (isDescendentOf selfHash hash) with
              | error e => simp [hcl] at h
              | ok b =>
                simp only [hcl] at h
                exact ⟨b, fun hb => ⟨_, List.mem_cons_self, le_of_not_gt hlt,
                  client_eq_ok (hb ▸ hcl)⟩, h⟩
          split_ifs at h with hpass
          · simp only [Except.ok.injEq] at h
            subst h
            refine ⟨fun path hpath => ?_, nofun⟩
            cases hpath
            simp only [Bool.and_eq_true] at hpass
            exact ⟨_, rfl, List.mem_cons_self, hpass.2, le_of_not_gt hlt, hb hpass.1⟩
          · simp only [Except.ok.injEq] at h
            subst h
            exact ⟨nofun, fun hr => hb (by cases hr; rfl)⟩
theorem findInChildren_spec : ∀ {l : List (Node H N V)} {i : ℕ} {r : FindOutcome (List ℕ)},
    findInChildren isDescendentOf hash number predicate l i = .ok r →
      (∀ path, r = .found path → ∃ k c x, l[k]? = some c ∧ path = x ++ [i + k] ∧
        ∃ m, descend c x.reverse = some m ∧ m ∈ nodes c ∧
          Sought isDescendentOf hash number predicate m) ∧
      (r = .failure true →
        ∃ d ∈ nodesList l, d.number ≤ number ∧ isDescendentOf d.hash hash = .ok true)
  | [], i, r, h => by
    simp only [findInChildren, pure, Except.pure, Except.ok.injEq] at h
    subst h
    exact ⟨nofun, nofun⟩
  | node :: rest, i, r, h => by
    rw [findInChildren] at h
    cases hn : node.findNodeIndexWhere isDescendentOf hash number predicate with
    | error e => simp [hn, bind, Except.bind] at h
    | ok o =>
      obtain ⟨hfound, hfail⟩ := findNodeIndexWhere_spec hn
      cases o with
      | abort =>
        simp only [hn, bind, Except.bind, pure, Except.pure, Except.ok.injEq] at h
        subst h
        exact ⟨nofun, nofun⟩
      | found x =>
        simp only [hn, bind, Except.bind, pure, Except.pure, Except.ok.injEq] at h
        subst h
        refine ⟨fun path hpath => ?_, nofun⟩
        cases hpath
        exact ⟨0, node, x, rfl, rfl, hfound x rfl⟩
      | failure known =>
        cases known with
        | true =>
          simp only [hn, bind, Except.bind, pure, Except.pure, Except.ok.injEq] at h
          subst h
          refine ⟨nofun, fun _ => ?_⟩
          obtain ⟨d, hd, hdn, hdd⟩ := hfail rfl
          exact ⟨d, List.mem_append_left _ hd, hdn, hdd⟩
        | false =>
          simp only [hn, bind, Except.bind] at h
          obtain ⟨hfound', hfail'⟩ := findInChildren_spec h
          refine ⟨fun path hpath => ?_, fun hr => ?_⟩
          · obtain ⟨k, c, x, hk, rfl, hm⟩ := hfound' path hpath
            exact ⟨k + 1, c, x, hk, by rw [Nat.add_right_comm, Nat.add_assoc], hm⟩
          · obtain ⟨d, hd, hdn, hdd⟩ := hfail' hr
            exact ⟨d, List.mem_append_right _ hd, hdn, hdd⟩
end

theorem findNodeWhere_spec {node : Node H N V} {r : Option (Node H N V)}
    (h : node.findNodeWhere isDescendentOf hash number predicate = .ok (.found r)) :
    ∃ m, r = some m ∧ m ∈ nodes node ∧ Sought isDescendentOf hash number predicate m := by
  unfold Node.findNodeWhere at h
  obtain ⟨o, ho, h⟩ := bind_eq_ok h
  cases o with
  | abort => simp [pure, Except.pure] at h
  | failure _ => simp [pure, Except.pure] at h
  | found path =>
    simp only [pure, Except.pure, Except.ok.injEq, FindOutcome.found.injEq] at h
    obtain ⟨m, hm, hmem, hsought⟩ := (findNodeIndexWhere_spec ho).1 path rfl
    exact ⟨m, h ▸ hm, hmem, hsought⟩

end Node

/-! ## The searches over the roots -/

section Search

variable {isDescendentOf : H → H → Except E Bool} {hash : H} {number : N}
  {predicate : V → Bool}

theorem findNodeIndexWhere_loop_spec : ∀ {roots : List (Node H N V)} {index : ℕ}
    {path : List ℕ},
    findNodeIndexWhere.loop isDescendentOf hash number predicate roots index = .ok (some path) →
      ∃ k c x, roots[k]? = some c ∧ path = x ++ [index + k] ∧
        ∃ m, descend c x.reverse = some m ∧ m ∈ Node.nodes c ∧
          Sought isDescendentOf hash number predicate m
  | [], _, _, h => by simp [findNodeIndexWhere.loop, pure, Except.pure] at h
  | root :: roots, index, path, h => by
    rw [findNodeIndexWhere.loop] at h
    obtain ⟨o, ho, h⟩ := bind_eq_ok h
    cases o with
    | found x =>
      simp only [pure, Except.pure, Except.ok.injEq, Option.some.injEq] at h
      exact ⟨0, root, x, rfl, h.symm, (Node.findNodeIndexWhere_spec ho).1 x rfl⟩
    | abort =>
      obtain ⟨k, c, x, hk, rfl, hm⟩ := findNodeIndexWhere_loop_spec h
      exact ⟨k + 1, c, x, hk, by rw [Nat.add_right_comm, Nat.add_assoc], hm⟩
    | failure _ =>
      obtain ⟨k, c, x, hk, rfl, hm⟩ := findNodeIndexWhere_loop_spec h
      exact ⟨k + 1, c, x, hk, by rw [Nat.add_right_comm, Nat.add_assoc], hm⟩

theorem findNodeWhere_loop_spec : ∀ {roots : List (Node H N V)} {r : Option (Node H N V)},
    findNodeWhere.loop isDescendentOf hash number predicate roots = .ok (some r) →
      ∃ m, r = some m ∧ m ∈ Node.nodesList roots ∧ Sought isDescendentOf hash number predicate m
  | [], _, h => by simp [findNodeWhere.loop, pure, Except.pure] at h
  | root :: roots, r, h => by
    rw [findNodeWhere.loop] at h
    obtain ⟨o, ho, h⟩ := bind_eq_ok h
    cases o with
    | found x =>
      simp only [pure, Except.pure, Except.ok.injEq, Option.some.injEq] at h
      obtain ⟨m, rfl, hmem, hsought⟩ := Node.findNodeWhere_spec ho
      exact ⟨m, h.symm, List.mem_append_left _ hmem, hsought⟩
    | abort =>
      obtain ⟨m, hr, hmem, hsought⟩ := findNodeWhere_loop_spec h
      exact ⟨m, hr, List.mem_append_right _ hmem, hsought⟩
    | failure _ =>
      obtain ⟨m, hr, hmem, hsought⟩ := findNodeWhere_loop_spec h
      exact ⟨m, hr, List.mem_append_right _ hmem, hsought⟩

def prunedTree : ForkTree ℕ ℕ ℕ :=
  ⟨[⟨1, 1, 1, [⟨2, 2, 0, [⟨3, 3, 0, []⟩]⟩]⟩], none⟩

/-- Whatever `find_node_where` returns is a node of the tree, not above the block, whose data
passes the predicate, and in whose subtree is a node not above the block that the client says
the block descends from; the walk down the path found never leaves the tree. -/
theorem findNodeWhere_sought {t : ForkTree H N V} {r : Option (Node H N V)}
    (h : t.findNodeWhere isDescendentOf hash number predicate = .ok (some r)) :
    ∃ node, r = some node ∧ node ∈ t.nodes ∧ predicate node.data = true ∧
      node.number ≤ number ∧
        ∃ d ∈ node.nodes, d.number ≤ number ∧ isDescendentOf d.hash hash = .ok true :=
  findNodeWhere_loop_spec h

theorem findNodeWhere_sought_prunedTree :
    prunedTree.findNodeWhere chainClient 4 4 (fun data => data == 1) =
        .ok (some (some ⟨1, 1, 1, [⟨2, 2, 0, [⟨3, 3, 0, []⟩]⟩]⟩)) ∧
      ∃ node, some ⟨1, 1, 1, [⟨2, 2, 0, [⟨3, 3, 0, []⟩]⟩]⟩ = some node ∧
        node ∈ prunedTree.nodes ∧ (fun data => data == 1) node.data = true ∧ node.number ≤ 4 ∧
          ∃ d ∈ node.nodes, d.number ≤ 4 ∧ chainClient d.hash 4 = .ok true :=
  have h : prunedTree.findNodeWhere chainClient 4 4 (fun data => data == 1) =
      .ok (some (some ⟨1, 1, 1, [⟨2, 2, 0, [⟨3, 3, 0, []⟩]⟩]⟩)) := rfl
  ⟨h, findNodeWhere_sought h⟩

end Search

/-! ## The walk of `prune` -/

omit [LinearOrder N] in
theorem detach_of_not_lt {nodes : List (Node H N V)} {i : ℕ} (hi : ¬i < nodes.length)
    (path : List ℕ) : detach nodes (i :: path) = none := by
  cases path with
  | nil => rw [detach, dif_neg hi]
  | cons j path => rw [detach, dif_neg hi]

omit [LinearOrder N] in
/-- The walk of `prune` takes out the node that `descend` reaches, and panics exactly when
`descend` leaves the tree. -/
theorem map_fst_detach {nodes : List (Node H N V)} {i : ℕ} (hi : i < nodes.length)
    (path : List ℕ) : (detach nodes (i :: path)).map Prod.fst = descend nodes[i] path := by
  induction path generalizing nodes i with
  | nil => rw [detach, dif_pos hi]; rfl
  | cons j path ih =>
    rw [detach, dif_pos hi, Option.map_map, descend_cons]
    by_cases hj : j < nodes[i].children.length
    · rw [List.getElem?_eq_getElem hj]
      show _ = descend nodes[i].children[j] path
      rw [← ih hj]
      congr 1
    · rw [detach_of_not_lt hj, List.getElem?_eq_none (not_lt.1 hj)]
      rfl

omit [LinearOrder N] in
theorem nodesList_eq_take_drop {l : List (Node H N V)} {i : ℕ} (hi : i < l.length) :
    Node.nodesList l =
      Node.nodesList (l.take i) ++ (Node.nodes l[i] ++ Node.nodesList (l.drop (i + 1))) := by
  conv => lhs; rw [← List.take_append_drop i l, ← List.getElem_cons_drop hi]
  rw [Node.nodesList_append, Node.nodesList_cons]

omit [LinearOrder N] in
theorem nodesList_set {l : List (Node H N V)} {i : ℕ} (hi : i < l.length) (x : Node H N V) :
    Node.nodesList (l.set i x) =
      Node.nodesList (l.take i) ++ (Node.nodes x ++ Node.nodesList (l.drop (i + 1))) := by
  rw [List.set_eq_take_append_cons_drop, if_pos hi, Node.nodesList_append, Node.nodesList_cons]

omit [LinearOrder N] in
theorem entries_nodes (node : Node H N V) :
    (Node.nodes node).map Node.entry =
      node.entry :: (Node.nodesList node.children).map Node.entry := by
  obtain ⟨hash, number, data, children⟩ := node
  rfl

omit [LinearOrder N] in
theorem entries_with_children (node : Node H N V) (children : List (Node H N V)) :
    (Node.nodes { node with children := children }).map Node.entry =
      node.entry :: (Node.nodesList children).map Node.entry := by
  obtain ⟨hash, number, data, c⟩ := node
  rfl

omit [LinearOrder N] in
theorem entries_perm_of_detach : ∀ {nodes : List (Node H N V)} {path : List ℕ}
    {root : Node H N V} {rest : List (Node H N V)},
    detach nodes path = some (root, rest) →
      ((Node.nodes root).map Node.entry ++ (Node.nodesList rest).map Node.entry).Perm
        ((Node.nodesList nodes).map Node.entry)
  | _, [], _, _, h => by simp [detach] at h
  | nodes, [i], root, rest, h => by
    rw [detach] at h
    split_ifs at h with hi
    simp only [Option.some.injEq] at h
    have hperm := Rust.Vec.remove_perm nodes i hi
    rw [h] at hperm
    rw [← List.map_append, ← Node.nodesList_cons]
    exact (Node.nodesList_perm hperm).map _
  | nodes, i :: j :: path, root, rest, h => by
    rw [detach] at h
    split_ifs at h with hi
    obtain ⟨⟨root', children⟩, hd, hroot⟩ := Option.map_eq_some_iff.1 h
    simp only [Prod.mk.injEq] at hroot
    obtain ⟨rfl, rfl⟩ := hroot
    have ih := entries_perm_of_detach hd
    rw [nodesList_set hi, nodesList_eq_take_drop hi]
    simp only [List.map_append]
    rw [entries_with_children, entries_nodes nodes[i]]
    refine List.perm_append_comm_assoc _ _ _ |>.trans (List.Perm.append_left _ ?_)
    refine List.perm_middle.trans (List.Perm.cons _ ?_)
    simpa only [List.append_eq, List.append_assoc] using ih.append_right _

/-! ## The loop over the new root's children -/

section PruneChildren

variable [DecidableEq H] {isDescendentOf : H → H → Except E Bool} {hash : H} {number : N}

omit [LinearOrder N] [DecidableEq H] in
theorem client_eq_error {r : Except E Bool} {e : Error E} (h : client r = .error e) :
    ∃ err, e = .client err := by
  cases r with
  | error err => exact ⟨err, by simp_all [client, Except.mapError]⟩
  | ok b => simp [client, Except.mapError] at h

theorem pruneChildren_false (children : List (Node H N V)) :
    (pruneChildren isDescendentOf hash number children false).1 = [] := by
  induction children with
  | nil => rfl
  | cons child children ih =>
    rw [pruneChildren]
    simp only [Bool.false_eq_true, if_false, pure, Except.pure]
    exact ih

theorem length_pruneChildren_le : ∀ (children : List (Node H N V)) (isFirst : Bool),
    (pruneChildren isDescendentOf hash number children isFirst).1.length ≤ 1
  | [], _ => Nat.zero_le _
  | child :: children, isFirst => by
    rw [pruneChildren]
    split
    · exact Nat.zero_le _
    · simp [pruneChildren_false]
    · exact length_pruneChildren_le children isFirst

theorem mem_pruneChildren : ∀ {children : List (Node H N V)} {isFirst : Bool}
    {child : Node H N V}, child ∈ (pruneChildren isDescendentOf hash number children isFirst).1 →
      (child.number = number ∧ child.hash = hash) ∨
        (child.number < number ∧ isDescendentOf child.hash hash = .ok true)
  | [], _, _, h => absurd h List.not_mem_nil
  | c :: children, isFirst, child, h => by
    rw [pruneChildren] at h
    split at h
    · exact absurd h List.not_mem_nil
    · rename_i hkeep
      rcases List.mem_cons.1 h with rfl | h
      · split_ifs at hkeep with hfirst hblock hlt
        · exact .inl hblock
        · exact .inr ⟨hlt, client_eq_ok hkeep⟩
        · simp [pure, Except.pure] at hkeep
        · simp [pure, Except.pure] at hkeep
      · exact mem_pruneChildren h
    · exact mem_pruneChildren h

theorem pruneChildren_perm : ∀ {children : List (Node H N V)} {isFirst : Bool}
    {kept removed : List (Node H N V)},
    pruneChildren isDescendentOf hash number children isFirst = (kept, removed, .ok ()) →
      (kept ++ removed).Perm children
  | [], _, kept, removed, h => by
    simp only [pruneChildren, Prod.mk.injEq] at h
    obtain ⟨rfl, rfl, -⟩ := h
    exact List.Perm.nil
  | child :: children, isFirst, kept, removed, h => by
    rw [pruneChildren] at h
    split at h
    · simp at h
    · rcases hrec : pruneChildren isDescendentOf hash number children false with
        ⟨kept', removed', r⟩
      simp only [hrec, Prod.mk.injEq] at h
      obtain ⟨rfl, rfl, rfl⟩ := h
      exact (pruneChildren_perm hrec).cons child
    · rcases hrec : pruneChildren isDescendentOf hash number children isFirst with
        ⟨kept', removed', r⟩
      simp only [hrec, Prod.mk.injEq] at h
      obtain ⟨rfl, rfl, rfl⟩ := h
      exact List.perm_middle.trans ((pruneChildren_perm hrec).cons child)

theorem pruneChildren_error : ∀ {children : List (Node H N V)} {isFirst : Bool}
    {kept removed : List (Node H N V)} {e : Error E},
    pruneChildren isDescendentOf hash number children isFirst = (kept, removed, .error e) →
      ∃ err, e = .client err
  | [], _, _, _, _, h => by simp [pruneChildren] at h
  | child :: children, isFirst, kept, removed, e, h => by
    rw [pruneChildren] at h
    split at h
    · rename_i e' hkeep
      simp only [Prod.mk.injEq, Except.error.injEq] at h
      obtain ⟨-, -, rfl⟩ := h
      split_ifs at hkeep
      · simp [pure, Except.pure] at hkeep
      · exact client_eq_error hkeep
      · simp [pure, Except.pure] at hkeep
      · simp [pure, Except.pure] at hkeep
    · rcases hrec : pruneChildren isDescendentOf hash number children false with
        ⟨kept', removed', r⟩
      simp only [hrec, Prod.mk.injEq] at h
      obtain ⟨-, -, rfl⟩ := h
      exact pruneChildren_error hrec
    · rcases hrec : pruneChildren isDescendentOf hash number children isFirst with
        ⟨kept', removed', r⟩
      simp only [hrec, Prod.mk.injEq] at h
      obtain ⟨-, -, rfl⟩ := h
      exact pruneChildren_error hrec

end PruneChildren

/-! ## `prune` -/

omit [LinearOrder N] in
theorem removedIter_nil : removedIter ([] : List (Node H N V)) = [] := by
  rw [removedIter, List.reverse_nil, nodeIterFrom]
  rfl

namespace Node

omit [LinearOrder N] in
@[simp] theorem number_rebalance (node : Node H N V) : node.rebalance.number = node.number :=
  congrArg Prod.snd (block_rebalance node)

omit [LinearOrder N] in
@[simp] theorem hash_rebalance (node : Node H N V) : node.rebalance.hash = node.hash :=
  congrArg Prod.fst (block_rebalance node)

omit [LinearOrder N] in
theorem children_rebalance (node : Node H N V) :
    node.rebalance.children = (sortByDepth node.children).map rebalance := by
  obtain ⟨hash, number, data, children⟩ := node
  rw [rebalance_mk]

end Node

omit [LinearOrder N] in
theorem roots_rebalance_singleton (node : Node H N V) (best : Option N) :
    (rebalance ⟨[node], best⟩).roots = [node.rebalance] := by
  simp [rebalance, Node.sortByDepth, List.mergeSort_singleton]

section Prune

variable [DecidableEq H] {isDescendentOf : H → H → Except E Bool} {t : ForkTree H N V}
  {hash : H} {number : N} {predicate : V → Bool}

omit [DecidableEq H] in
theorem detach_of_findNodeIndexWhere {rootIndex : List ℕ}
    (h : t.findNodeIndexWhere isDescendentOf hash number predicate = .ok (some rootIndex)) :
    ∃ m rest, detach t.roots rootIndex.reverse = some (m, rest) ∧
      Sought isDescendentOf hash number predicate m := by
  obtain ⟨k, c, x, hk, rfl, m, hm, -, hsought⟩ := findNodeIndexWhere_loop_spec h
  obtain ⟨hlt, rfl⟩ := List.getElem?_eq_some_iff.1 hk
  have hmap := map_fst_detach hlt x.reverse
  rw [hm] at hmap
  obtain ⟨⟨m', rest⟩, hd, rfl⟩ := Option.map_eq_some_iff.1 hmap
  refine ⟨m', rest, ?_, hsought⟩
  simpa using hd

/-- `prune` never panics: the `expect` on the node its walk takes out never fires, and no index
of the walk is out of bounds. -/
theorem prune_isSome (isDescendentOf : H → H → Except E Bool) (t : ForkTree H N V) (hash : H)
    (number : N) (predicate : V → Bool) :
    (t.prune isDescendentOf hash number predicate).isSome := by
  unfold prune
  split
  · rfl
  · rfl
  · rename_i rootIndex hfind
    obtain ⟨m, rest, hd, -⟩ := detach_of_findNodeIndexWhere hfind
    simp only [hd, bind, Option.bind]
    split <;> rfl

/-- What a successful `prune` did: found nothing and only rebalanced; or walked to a sought
node, took it out of the roots, split its children into those kept and those removed, and made
it with the kept ones the only root. -/
theorem prune_ok_cases {t' : ForkTree H N V} {removed : List (H × N × V)}
    (h : t.prune isDescendentOf hash number predicate = some (t', .ok removed)) :
    (t.findNodeIndexWhere isDescendentOf hash number predicate = .ok none ∧ t' = rebalance t ∧
        removed = []) ∨
      ∃ rootIndex m rest kept gone,
        t.findNodeIndexWhere isDescendentOf hash number predicate = .ok (some rootIndex) ∧
        detach t.roots rootIndex.reverse = some (m, rest) ∧
        Sought isDescendentOf hash number predicate m ∧
        pruneChildren isDescendentOf hash number m.children true = (kept, gone, .ok ()) ∧
        t' = rebalance { t with roots := [{ m with children := kept }] } ∧
        removed = removedIter (rest ++ gone) := by
  unfold prune at h
  split at h
  · simp at h
  · rename_i hfind
    simp only [Option.some.injEq, Prod.mk.injEq, Except.ok.injEq] at h
    obtain ⟨rfl, rfl⟩ := h
    exact .inl ⟨hfind, rfl, removedIter_nil⟩
  · rename_i rootIndex hfind
    obtain ⟨m, rest, hd, hsought⟩ := detach_of_findNodeIndexWhere hfind
    simp only [hd, bind, Option.bind] at h
    rcases hp : pruneChildren isDescendentOf hash number m.children true with
      ⟨kept, gone, _ | _⟩ <;> simp only [hp, Option.some.injEq, Prod.mk.injEq] at h
    · simp at h
    · obtain ⟨rfl, h⟩ := h
      exact .inr ⟨_, m, rest, kept, gone, hfind, hd, hsought, hp, rfl, (Except.ok.inj h).symm⟩

/-- The blocks `prune` removes, as its iterator yields them, and the blocks the tree still
yields are together exactly the blocks the tree yielded before. -/
theorem prune_conserves {t' : ForkTree H N V} {removed : List (H × N × V)}
    (h : t.prune isDescendentOf hash number predicate = some (t', .ok removed)) :
    (removed ++ t'.iter).Perm t.iter := by
  rw [iter_eq_entries, iter_eq_entries]
  rcases prune_ok_cases h with ⟨-, rfl, rfl⟩ | ⟨path, m, rest, kept, gone, -, hd, -, hp, rfl, rfl⟩
  · exact (perm_rebalance t).1
  · have hsplit : ((Node.nodesList kept).map Node.entry ++ (Node.nodesList gone).map Node.entry).Perm
        ((Node.nodesList m.children).map Node.entry) := by
      rw [← List.map_append, ← Node.nodesList_append]
      exact (Node.nodesList_perm (pruneChildren_perm hp)).map _
    have hkept : (entries { t with roots := [{ m with children := kept }] }) =
        m.entry :: (Node.nodesList kept).map Node.entry := by
      rw [entries, nodes, Node.nodesList_cons, Node.nodesList_nil, List.append_nil,
        entries_with_children]
    have hdetach := entries_perm_of_detach hd
    rw [entries_nodes] at hdetach
    refine ((removedIter_perm _).append (perm_rebalance _).1).trans ?_
    rw [hkept, Node.nodesList_append, List.map_append]
    refine List.Perm.trans ?_ hdetach
    refine List.perm_append_comm.trans ?_
    refine List.Perm.trans ?_ (List.Perm.append_right _ (List.Perm.cons _ hsplit))
    simp only [List.cons_append, List.append_assoc]
    refine List.Perm.cons _ (List.Perm.append_left _ List.perm_append_comm)

def branchTree : ForkTree ℕ ℕ ℕ :=
  ⟨[⟨1, 1, 0, [⟨2, 2, 1, [⟨3, 3, 0, []⟩, ⟨4, 4, 0, []⟩]⟩]⟩], none⟩

/-- Pruning at block `3` with only block `2` passing: block `2` becomes the root with block `3`
under it, and blocks `4` and `1` are removed, in the order the stack of `RemovedIterator` pops
them. -/
theorem prune_branchTree :
    branchTree.prune chainClient 3 3 (fun data => data == 1) =
      some (rebalance ⟨[⟨2, 2, 1, [⟨3, 3, 0, []⟩]⟩], none⟩, .ok [(4, 4, 0), (1, 1, 0)]) := by
  have hremoved : removedIter [⟨1, 1, 0, []⟩, ⟨4, 4, 0, []⟩] =
      ([(4, 4, 0), (1, 1, 0)] : List (ℕ × ℕ × ℕ)) := by
    rw [removedIter, nodeIterFrom_eq_nodesList]
    rfl
  rw [← hremoved]
  rfl

theorem prune_conserves_branchTree :
    branchTree.prune chainClient 3 3 (fun data => data == 1) =
        some (rebalance ⟨[⟨2, 2, 1, [⟨3, 3, 0, []⟩]⟩], none⟩, .ok [(4, 4, 0), (1, 1, 0)]) ∧
      ([(4, 4, 0), (1, 1, 0)] ++
        (rebalance ⟨[⟨2, 2, 1, [⟨3, 3, 0, []⟩]⟩], none⟩ : ForkTree ℕ ℕ ℕ).iter).Perm
        branchTree.iter :=
  ⟨prune_branchTree, prune_conserves prune_branchTree⟩

def failingClient (base target : ℕ) : Except Unit Bool :=
  if base = 2 then .error () else .ok (decide (base = 3 ∧ target = 4))

/-- A failed `prune` left the tree as it was when the search failed; when the client failed on a
child of the node found, it left the tree with no roots at all, since the roots were taken out
before the loop over the children and nothing puts them back. -/
theorem prune_error {t' : ForkTree H N V} {e : Error E}
    (h : t.prune isDescendentOf hash number predicate = some (t', .error e)) :
    t' = t ∨ (t'.roots = [] ∧ t'.bestFinalizedNumber = t.bestFinalizedNumber ∧
      ∃ err, e = .client err) := by
  unfold prune at h
  split at h
  · simp only [Option.some.injEq, Prod.mk.injEq] at h
    exact .inl h.1.symm
  · simp at h
  · rename_i rootIndex hfind
    obtain ⟨m, rest, hd, -⟩ := detach_of_findNodeIndexWhere hfind
    simp only [hd, bind, Option.bind] at h
    rcases hp : pruneChildren isDescendentOf hash number m.children true with
      ⟨kept, gone, _ | _⟩ <;> simp only [hp, Option.some.injEq, Prod.mk.injEq] at h
    · obtain ⟨rfl, he⟩ := h
      cases he
      exact .inr ⟨rfl, rfl, pruneChildren_error hp⟩
    · simp at h

/- Pruning at block `4` finds block `1`, the only one whose data passes, through block `3`
without asking about block `2`; the loop over the children of `1` then asks about `2`, the
client fails, and the tree is left empty. -/
example : prunedTree.prune failingClient 4 4 (fun data => data == 1) =
    some (⟨[], none⟩, .error (.client ())) :=
  rfl

omit [DecidableEq H] in
/-- The loop of `find_node_where` over the roots is the loop of `find_node_index_where` followed
by the walk of `prune` down the path found: both ask the same search of the same roots and stop
at the same one. The roots before those the loop has left are `pre`. -/
theorem findNodeWhere_loop_eq : ∀ (roots pre : List (Node H N V)),
    findNodeWhere.loop isDescendentOf hash number predicate roots =
      (findNodeIndexWhere.loop isDescendentOf hash number predicate roots pre.length).map
        (Option.map fun path => (detach (pre ++ roots) path.reverse).map Prod.fst)
  | [], _ => rfl
  | root :: roots, pre => by
    have ih := findNodeWhere_loop_eq roots (pre ++ [root])
    rw [List.length_append, List.length_singleton, List.append_assoc, List.singleton_append] at ih
    rw [findNodeWhere.loop, findNodeIndexWhere.loop]
    cases ho : root.findNodeIndexWhere isDescendentOf hash number predicate with
    | error e => simp only [Node.findNodeWhere, ho, bind, Except.bind, Except.map]
    | ok o =>
      cases o with
      | found path =>
        have hlt : pre.length < (pre ++ root :: roots).length := by simp
        have hwalk : (detach (pre ++ root :: roots) (pre.length :: path.reverse)).map Prod.fst =
            descend root path.reverse := by
          simpa using map_fst_detach hlt path.reverse
        simp only [Node.findNodeWhere, ho, bind, Except.bind, pure, Except.pure, Except.map,
          Option.map_some, List.reverse_append, List.reverse_singleton, List.singleton_append,
          hwalk]
      | failure b => simpa only [Node.findNodeWhere, ho, bind, Except.bind, pure, Except.pure]
      | abort => simpa only [Node.findNodeWhere, ho, bind, Except.bind, pure, Except.pure]

omit [DecidableEq H] in
/-- `find_node_where` is `find_node_index_where` followed by the walk of `prune` down the path
found. -/
theorem findNodeWhere_eq_map_detach (t : ForkTree H N V) :
    t.findNodeWhere isDescendentOf hash number predicate =
      (t.findNodeIndexWhere isDescendentOf hash number predicate).map
        (Option.map fun path => (detach t.roots path.reverse).map Prod.fst) :=
  findNodeWhere_loop_eq t.roots []

/-- `prune` re-roots the tree at the node `find_node_where` returns: when that search fails,
`prune` fails with the same error and leaves the tree as it was; when it finds nothing,
`prune` only rebalances and removes nothing; and when it finds a node, a `prune` that succeeds
leaves that node's block as the only root. -/
theorem prune_agrees_with_findNodeWhere (t : ForkTree H N V) :
    (∀ e, t.findNodeWhere isDescendentOf hash number predicate = .error e →
      t.prune isDescendentOf hash number predicate = some (t, .error e)) ∧
    (t.findNodeWhere isDescendentOf hash number predicate = .ok none →
      t.prune isDescendentOf hash number predicate = some (rebalance t, .ok [])) ∧
    (∀ m t' removed, t.findNodeWhere isDescendentOf hash number predicate = .ok (some (some m)) →
      t.prune isDescendentOf hash number predicate = some (t', .ok removed) →
        ∃ root, t'.roots = [root] ∧ root.entry = m.entry) := by
  rw [findNodeWhere_eq_map_detach]
  cases hfind : t.findNodeIndexWhere isDescendentOf hash number predicate with
  | error e =>
    refine ⟨fun e' he' => ?_, nofun, fun _ _ _ => nofun⟩
    cases he'
    rw [prune, hfind]
  | ok r =>
    cases r with
    | none =>
      refine ⟨fun _ => nofun, fun _ => ?_, fun _ _ _ => nofun⟩
      rw [prune, hfind, removedIter_nil]
    | some path =>
      refine ⟨fun _ => nofun, nofun, fun m t' removed hm hprune => ?_⟩
      rcases prune_ok_cases hprune with ⟨hnone, -⟩ |
        ⟨rootIndex, m', rest, kept, gone, hidx, hd, -, -, rfl, -⟩
      · rw [hfind] at hnone
        cases hnone
      · obtain rfl : rootIndex = path := by
          rw [hfind] at hidx
          exact (Option.some.inj (Except.ok.inj hidx)).symm
        obtain rfl : m' = m := by simpa [Except.map, hd] using hm
        refine ⟨_, roots_rebalance_singleton _ _, ?_⟩
        rw [Node.entry_rebalance]
        rfl

theorem prune_agrees_with_findNodeWhere_branchTree :
    branchTree.findNodeWhere chainClient 3 3 (fun data => data == 1) =
        .ok (some (some ⟨2, 2, 1, [⟨3, 3, 0, []⟩, ⟨4, 4, 0, []⟩]⟩)) ∧
      branchTree.prune chainClient 3 3 (fun data => data == 1) =
        some (rebalance ⟨[⟨2, 2, 1, [⟨3, 3, 0, []⟩]⟩], none⟩, .ok [(4, 4, 0), (1, 1, 0)]) ∧
      ∃ root, (rebalance ⟨[⟨2, 2, 1, [⟨3, 3, 0, []⟩]⟩], none⟩ : ForkTree ℕ ℕ ℕ).roots = [root] ∧
        root.entry = (⟨2, 2, 1, [⟨3, 3, 0, []⟩, ⟨4, 4, 0, []⟩]⟩ : Node ℕ ℕ ℕ).entry :=
  have hfind : branchTree.findNodeWhere chainClient 3 3 (fun data => data == 1) =
      .ok (some (some ⟨2, 2, 1, [⟨3, 3, 0, []⟩, ⟨4, 4, 0, []⟩]⟩)) := rfl
  ⟨hfind, prune_branchTree,
    (prune_agrees_with_findNodeWhere branchTree).2.2 _ _ _ hfind prune_branchTree⟩

end Prune

end ZeroNet.ForkTree

