import ZeroNet.ForkTree

/-!
# Nodes and edges of a fork tree

A subtree is read as the list of its nodes in pre-order and the list of its edges, each the
pair of blocks (hash and number) of a parent and a child. The iterators yield the nodes in
pre-order; `rebalance` reorders children and changes neither list beyond a permutation; and a
successful `import` adds exactly the new node, with the edge from its parent when it does not
become a root. That edge is the one thing an import checks: a larger number, and the client's
word that the block descends from the parent.
-/

namespace ZeroNet.ForkTree

variable {H N V E : Type}

namespace Node

def block (node : Node H N V) : H × N :=
  (node.hash, node.number)

mutual
def nodes : Node H N V → List (Node H N V)
  | node@⟨_, _, _, children⟩ => node :: nodesList children
def nodesList : List (Node H N V) → List (Node H N V)
  | [] => []
  | node :: rest => nodes node ++ nodesList rest
end

mutual
def edges : Node H N V → List ((H × N) × (H × N))
  | ⟨hash, number, _, children⟩ =>
    children.map (fun child => ((hash, number), child.block)) ++ edgesList children
def edgesList : List (Node H N V) → List ((H × N) × (H × N))
  | [] => []
  | node :: rest => edges node ++ edgesList rest
end

@[simp] theorem nodes_mk (hash : H) (number : N) (data : V) (children : List (Node H N V)) :
    nodes ⟨hash, number, data, children⟩ = ⟨hash, number, data, children⟩ :: nodesList children :=
  rfl

@[simp] theorem nodesList_nil : nodesList ([] : List (Node H N V)) = [] := rfl

@[simp] theorem nodesList_cons (node : Node H N V) (rest : List (Node H N V)) :
    nodesList (node :: rest) = nodes node ++ nodesList rest := rfl

@[simp] theorem edges_mk (hash : H) (number : N) (data : V) (children : List (Node H N V)) :
    edges ⟨hash, number, data, children⟩ =
      children.map (fun child => ((hash, number), child.block)) ++ edgesList children :=
  rfl

@[simp] theorem edgesList_nil : edgesList ([] : List (Node H N V)) = [] := rfl

@[simp] theorem edgesList_cons (node : Node H N V) (rest : List (Node H N V)) :
    edgesList (node :: rest) = edges node ++ edgesList rest := rfl

theorem nodesList_eq_flatMap (l : List (Node H N V)) : nodesList l = l.flatMap nodes := by
  induction l with
  | nil => rfl
  | cons node rest ih => rw [nodesList_cons, ih, List.flatMap_cons]

theorem edgesList_eq_flatMap (l : List (Node H N V)) : edgesList l = l.flatMap edges := by
  induction l with
  | nil => rfl
  | cons node rest ih => rw [edgesList_cons, ih, List.flatMap_cons]

@[simp] theorem nodesList_append (l₁ l₂ : List (Node H N V)) :
    nodesList (l₁ ++ l₂) = nodesList l₁ ++ nodesList l₂ := by
  simp only [nodesList_eq_flatMap, List.flatMap_append]

@[simp] theorem edgesList_append (l₁ l₂ : List (Node H N V)) :
    edgesList (l₁ ++ l₂) = edgesList l₁ ++ edgesList l₂ := by
  simp only [edgesList_eq_flatMap, List.flatMap_append]

theorem nodesList_perm {l₁ l₂ : List (Node H N V)} (h : l₁.Perm l₂) :
    (nodesList l₁).Perm (nodesList l₂) := by
  simpa only [nodesList_eq_flatMap] using h.flatMap_right nodes

theorem edgesList_perm {l₁ l₂ : List (Node H N V)} (h : l₁.Perm l₂) :
    (edgesList l₁).Perm (edgesList l₂) := by
  simpa only [edgesList_eq_flatMap] using h.flatMap_right edges

theorem mem_nodes_self (node : Node H N V) : node ∈ nodes node := by
  obtain ⟨hash, number, data, children⟩ := node
  exact List.mem_cons_self

theorem mem_edges_of_mem_children {node child : Node H N V} (h : child ∈ node.children) :
    (node.block, child.block) ∈ edges node := by
  obtain ⟨hash, number, data, children⟩ := node
  exact List.mem_append_left _ (List.mem_map_of_mem h)

mutual
theorem subset_of_mem_nodes : ∀ {node m : Node H N V}, m ∈ nodes node →
    nodes m ⊆ nodes node ∧ edges m ⊆ edges node
  | ⟨hash, number, data, children⟩, m, h => by
    rw [nodes_mk, List.mem_cons] at h
    rcases h with rfl | h
    · exact ⟨List.Subset.refl _, List.Subset.refl _⟩
    · obtain ⟨hn, he⟩ := subset_of_mem_nodesList h
      exact ⟨List.Subset.trans hn (List.subset_cons_self _ _),
        List.Subset.trans he (List.subset_append_right _ _)⟩
theorem subset_of_mem_nodesList : ∀ {l : List (Node H N V)} {m : Node H N V},
    m ∈ nodesList l → nodes m ⊆ nodesList l ∧ edges m ⊆ edgesList l
  | [], _, h => absurd h List.not_mem_nil
  | node :: rest, m, h => by
    rw [nodesList_cons, List.mem_append] at h
    rcases h with h | h
    · obtain ⟨hn, he⟩ := subset_of_mem_nodes h
      exact ⟨List.Subset.trans hn (List.subset_append_left _ _),
        List.Subset.trans he (List.subset_append_left _ _)⟩
    · obtain ⟨hn, he⟩ := subset_of_mem_nodesList h
      exact ⟨List.Subset.trans hn (List.subset_append_right _ _),
        List.Subset.trans he (List.subset_append_right _ _)⟩
end

theorem mem_nodesList_of_mem {l : List (Node H N V)} {node : Node H N V} (h : node ∈ l) :
    node ∈ nodesList l := by
  rw [nodesList_eq_flatMap, List.mem_flatMap]
  exact ⟨node, h, mem_nodes_self node⟩

/-! ## Rebalancing -/

theorem rebalance_mk (hash : H) (number : N) (data : V) (children : List (Node H N V)) :
    rebalance ⟨hash, number, data, children⟩ =
      ⟨hash, number, data, (sortByDepth children).map rebalance⟩ := by
  rw [rebalance]
  simp only [List.attach_map_val]

@[simp] theorem block_rebalance (node : Node H N V) : node.rebalance.block = node.block := by
  obtain ⟨hash, number, data, children⟩ := node
  rw [rebalance_mk]
  rfl

@[simp] theorem entry_rebalance (node : Node H N V) : node.rebalance.entry = node.entry := by
  obtain ⟨hash, number, data, children⟩ := node
  rw [rebalance_mk]
  rfl

theorem sortByDepth_perm (l : List (Node H N V)) : (sortByDepth l).Perm l :=
  List.mergeSort_perm _ _

mutual
theorem perm_rebalance : ∀ node : Node H N V,
    ((nodes node.rebalance).map entry).Perm ((nodes node).map entry) ∧
      (edges node.rebalance).Perm (edges node)
  | ⟨hash, number, data, children⟩ => by
    rw [rebalance_mk, nodes_mk, nodes_mk, edges_mk, edges_mk]
    have hsort : ((sortByDepth children).map rebalance).Perm (children.map rebalance) :=
      (sortByDepth_perm children).map rebalance
    obtain ⟨hn, he⟩ := perm_rebalanceList children
    refine ⟨?_, ?_⟩
    · simp only [List.map_cons]
      exact ((nodesList_perm hsort).map entry |>.trans hn).cons _
    · refine List.Perm.append ?_ ((edgesList_perm hsort).trans he)
      simp only [List.map_map]
      have hblock : ((fun child => ((hash, number), child.block)) ∘ rebalance) =
          fun child : Node H N V => ((hash, number), child.block) := by
        funext child
        simp
      rw [hblock]
      exact (sortByDepth_perm children).map _
theorem perm_rebalanceList : ∀ l : List (Node H N V),
    ((nodesList (l.map rebalance)).map entry).Perm ((nodesList l).map entry) ∧
      (edgesList (l.map rebalance)).Perm (edgesList l)
  | [] => ⟨List.Perm.refl _, List.Perm.refl _⟩
  | node :: rest => by
    obtain ⟨hn, he⟩ := perm_rebalance node
    obtain ⟨hn', he'⟩ := perm_rebalanceList rest
    simp only [List.map_cons, nodesList_cons, edgesList_cons, List.map_append]
    exact ⟨hn.append hn', he.append he'⟩
end

end Node

/-! ## The whole tree -/

def nodes (t : ForkTree H N V) : List (Node H N V) :=
  Node.nodesList t.roots

def entries (t : ForkTree H N V) : List (H × N × V) :=
  (nodes t).map Node.entry

def edges (t : ForkTree H N V) : List ((H × N) × (H × N)) :=
  Node.edgesList t.roots

/-- The stack of the iterators yields the nodes in pre-order. -/
theorem nodeIterFrom_eq_nodesList (stack : List (Node H N V)) :
    nodeIterFrom stack = Node.nodesList stack := by
  induction stack using nodeIterFrom.induct with
  | case1 => rw [nodeIterFrom]; rfl
  | case2 node stack ih =>
    rw [nodeIterFrom, ih, Node.nodesList_append]
    obtain ⟨hash, number, data, children⟩ := node
    rfl

theorem iter_eq_entries (t : ForkTree H N V) : t.iter = t.entries := by
  rw [iter, nodeIter, nodeIterFrom_eq_nodesList]
  rfl

theorem removedIter_perm (removed : List (Node H N V)) :
    (removedIter removed).Perm ((Node.nodesList removed).map Node.entry) := by
  rw [removedIter, nodeIterFrom_eq_nodesList]
  exact ((Node.nodesList_perm (List.reverse_perm removed)).map _)

theorem perm_rebalance (t : ForkTree H N V) :
    (entries (rebalance t)).Perm (entries t) ∧ (edges (rebalance t)).Perm (edges t) := by
  obtain ⟨hn, he⟩ := Node.perm_rebalanceList (Node.sortByDepth t.roots)
  exact ⟨hn.trans ((Node.nodesList_perm (Node.sortByDepth_perm t.roots)).map _),
    he.trans (Node.edgesList_perm (Node.sortByDepth_perm t.roots))⟩

@[simp] theorem bestFinalizedNumber_rebalance (t : ForkTree H N V) :
    (rebalance t).bestFinalizedNumber = t.bestFinalizedNumber := rfl

/-! ## Import -/

variable [DecidableEq H] [LinearOrder N]

theorem client_eq_ok {r : Except E Bool} {b : Bool} (h : client r = .ok b) : r = .ok b := by
  cases r <;> simp_all [client, Except.mapError]

namespace Node

variable {isDescendentOf : H → H → Except E Bool}

mutual
theorem import_eq_some : ∀ {node node' : Node H N V} {hash : H} {number : N} {data : V}
    {x : H × N × V}, node.import isDescendentOf hash number data = .ok (node', some x) →
      node' = node ∧ x = (hash, number, data)
  | ⟨selfHash, selfNumber, selfData, children⟩, node', hash, number, data, x, h => by
    rw [Node.import] at h
    split_ifs at h with hself hle
    · simp only [pure, Except.pure, Except.ok.injEq, Prod.mk.injEq, Option.some.injEq] at h
      exact ⟨h.1.symm, h.2.symm⟩
    · cases hc : Node.importChildren isDescendentOf children hash number data with
      | error e => simp [hc, bind, Except.bind] at h
      | ok r =>
        obtain ⟨children', _ | y⟩ := r
        · simp [hc, bind, Except.bind, pure, Except.pure] at h
        · obtain ⟨rfl, rfl⟩ := importChildren_eq_some hc
          cases hd : client (isDescendentOf selfHash hash) with
          | error e => simp [hc, hd, bind, Except.bind] at h
          | ok b =>
            cases b <;> simp [hc, hd, bind, Except.bind, pure, Except.pure] at h
            exact ⟨h.1.symm, h.2.symm⟩
theorem importChildren_eq_some : ∀ {l l' : List (Node H N V)} {hash : H} {number : N} {data : V}
    {x : H × N × V}, Node.importChildren isDescendentOf l hash number data = .ok (l', some x) →
      l' = l ∧ x = (hash, number, data)
  | [], l', hash, number, data, x, h => by
    simp only [Node.importChildren, pure, Except.pure, Except.ok.injEq, Prod.mk.injEq,
      Option.some.injEq] at h
    exact ⟨h.1.symm, h.2.symm⟩
  | node :: rest, l', hash, number, data, x, h => by
    rw [Node.importChildren] at h
    cases hn : node.import isDescendentOf hash number data with
    | error e => simp [hn, bind, Except.bind] at h
    | ok r =>
      obtain ⟨node', _ | y⟩ := r
      · simp [hn, bind, Except.bind, pure, Except.pure] at h
      · obtain ⟨rfl, rfl⟩ := import_eq_some hn
        cases hr : Node.importChildren isDescendentOf rest hash number data with
        | error e => simp [hn, hr, bind, Except.bind] at h
        | ok r' =>
          obtain ⟨rest', z⟩ := r'
          simp only [hn, hr, bind, Except.bind, pure, Except.pure, Except.ok.injEq,
            Prod.mk.injEq] at h
          obtain ⟨rfl, rfl⟩ := h
          obtain ⟨rfl, rfl⟩ := importChildren_eq_some hr
          exact ⟨rfl, rfl⟩
end

/-- What an import that placed the block did to a list of subtrees: `after` has the nodes of
`before` and one more, the block, whose edge from a `parent` of `before` passed the check. -/
structure Placed (isDescendentOf : H → H → Except E Bool) (hash : H) (number : N) (data : V)
    (before after : List (Node H N V)) : Prop where
  entries : ((nodesList after).map entry).Perm ((hash, number, data) :: (nodesList before).map entry)
  parent : ∃ parent ∈ nodesList before, parent.number < number ∧
    isDescendentOf parent.hash hash = .ok true ∧
    (edgesList after).Perm ((parent.block, (hash, number)) :: edgesList before)

omit [DecidableEq H] in
theorem Placed.append_right {hash : H} {number : N} {data : V} {before after : List (Node H N V)}
    (h : Placed isDescendentOf hash number data before after) (rest : List (Node H N V)) :
    Placed isDescendentOf hash number data (before ++ rest) (after ++ rest) := by
  obtain ⟨hentries, parent, hmem, hnum, hdesc, hedges⟩ := h
  refine ⟨?_, parent, by simp [hmem], hnum, hdesc, ?_⟩
  · simp only [nodesList_append, List.map_append]
    exact hentries.append_right _
  · simp only [edgesList_append]
    exact hedges.append_right _

omit [DecidableEq H] in
theorem Placed.cons_left {hash : H} {number : N} {data : V} {before after : List (Node H N V)}
    (h : Placed isDescendentOf hash number data before after) (node : Node H N V) :
    Placed isDescendentOf hash number data (node :: before) (node :: after) := by
  obtain ⟨hentries, parent, hmem, hnum, hdesc, hedges⟩ := h
  refine ⟨?_, parent, by simp [hmem], hnum, hdesc, ?_⟩
  · simp only [nodesList_cons, List.map_append]
    exact (hentries.append_left _).trans List.perm_middle
  · simp only [edgesList_cons]
    exact (hedges.append_left _).trans List.perm_middle

mutual
theorem import_eq_none : ∀ {node node' : Node H N V} {hash : H} {number : N} {data : V},
    node.import isDescendentOf hash number data = .ok (node', none) →
      node'.block = node.block ∧ Placed isDescendentOf hash number data [node] [node']
  | ⟨selfHash, selfNumber, selfData, children⟩, node', hash, number, data, h => by
    rw [Node.import] at h
    split_ifs at h with hself hle
    · simp [pure, Except.pure] at h
    · cases hc : Node.importChildren isDescendentOf children hash number data with
      | error e => simp [hc, bind, Except.bind] at h
      | ok r =>
        obtain ⟨children', _ | y⟩ := r
        · simp only [hc, bind, Except.bind, pure, Except.pure, Except.ok.injEq, Prod.mk.injEq,
            and_true] at h
          subst h
          obtain ⟨hblocks, hentries, parent, hmem, hnum, hdesc, hedges⟩ :=
            importChildren_eq_none hc
          refine ⟨rfl, ?_, parent, by simp [hmem], hnum, hdesc, ?_⟩
          · simp only [nodesList_cons, nodes_mk, nodesList_nil, List.append_nil, List.map_cons]
            exact (hentries.cons _).trans (List.Perm.swap _ _ _)
          · have hmap : children'.map (fun child => ((selfHash, selfNumber), child.block)) =
                children.map (fun child => ((selfHash, selfNumber), child.block)) := by
              have := congrArg (List.map fun b => ((selfHash, selfNumber), b)) hblocks
              simpa only [List.map_map, Function.comp_def] using this
            simp only [edgesList_cons, edges_mk, edgesList_nil, List.append_nil, hmap]
            exact (hedges.append_left _).trans List.perm_middle
        · -- no child took it: it becomes a child of this node if it descends from it
          obtain ⟨rfl, rfl⟩ := importChildren_eq_some hc
          cases hd : client (isDescendentOf selfHash hash) with
          | error e => simp [hc, hd, bind, Except.bind] at h
          | ok b =>
            cases b
            · simp [hc, hd, bind, Except.bind, pure, Except.pure] at h
            simp only [hc, hd, bind, Except.bind, pure, Except.pure, if_true, Except.ok.injEq,
              Prod.mk.injEq, and_true] at h
            subst h
            refine ⟨rfl, ?_, ⟨selfHash, selfNumber, selfData, children'⟩, by simp,
              lt_of_not_ge hle, client_eq_ok hd, ?_⟩
            · simp only [nodesList_cons, nodes_mk, nodesList_nil, List.append_nil, List.map_cons,
                nodesList_append, List.map_append, List.map_nil, entry]
              rw [← List.cons_append]
              exact List.perm_append_singleton _ _
            · simp only [edgesList_cons, edges_mk, edgesList_nil, List.append_nil, List.map_append,
                edgesList_append, List.map_cons, List.map_nil]
              rw [List.append_assoc]
              exact List.perm_middle.trans (List.Perm.cons _ (by simp [block]))
theorem importChildren_eq_none : ∀ {l l' : List (Node H N V)} {hash : H} {number : N}
    {data : V}, Node.importChildren isDescendentOf l hash number data = .ok (l', none) →
      l'.map block = l.map block ∧ Placed isDescendentOf hash number data l l'
  | [], l', hash, number, data, h => by
    simp [Node.importChildren, pure, Except.pure] at h
  | node :: rest, l', hash, number, data, h => by
    rw [Node.importChildren] at h
    cases hn : node.import isDescendentOf hash number data with
    | error e => simp [hn, bind, Except.bind] at h
    | ok r =>
      obtain ⟨node', _ | y⟩ := r
      · simp only [hn, bind, Except.bind, pure, Except.pure, Except.ok.injEq, Prod.mk.injEq,
          and_true] at h
        subst h
        obtain ⟨hblock, hplaced⟩ := import_eq_none hn
        refine ⟨by simp [hblock], ?_⟩
        simpa using hplaced.append_right rest
      · obtain ⟨rfl, rfl⟩ := import_eq_some hn
        cases hr : Node.importChildren isDescendentOf rest hash number data with
        | error e => simp [hn, hr, bind, Except.bind] at h
        | ok r' =>
          obtain ⟨rest', z⟩ := r'
          simp only [hn, hr, bind, Except.bind, pure, Except.pure, Except.ok.injEq,
            Prod.mk.injEq] at h
          obtain ⟨rfl, rfl⟩ := h
          obtain ⟨hblocks, hplaced⟩ := importChildren_eq_none hr
          exact ⟨by simp [hblocks], hplaced.cons_left _⟩
end

end Node

/-- `ForkTree::import`'s own check of a root's hash is the one `Node::import` makes first, so
its loop over the roots is the loop of `Node::import` over children. -/
theorem importRoots_eq (isDescendentOf : H → H → Except E Bool) (roots : List (Node H N V)) :
    ∀ (hash : H) (number : N) (data : V), importRoots isDescendentOf roots hash number data =
      Node.importChildren isDescendentOf roots hash number data := by
  induction roots with
  | nil => intro hash number data; rfl
  | cons root roots ih =>
    intro hash number data
    obtain ⟨rootHash, rootNumber, rootData, children⟩ := root
    rw [importRoots, Node.importChildren]
    split_ifs with hroot
    · simp only at hroot
      rw [Node.import, if_pos hroot]
      rfl
    · simp only [ih]

omit [DecidableEq H] in
theorem checkRevert_eq_ok {t : ForkTree H N V} {number : N} {u : Unit}
    (h : checkRevert (E := E) t number = .ok u) :
    ∀ best, t.bestFinalizedNumber = some best → best < number := by
  intro best hbest
  rw [checkRevert, hbest] at h
  simp only at h
  split_ifs at h with hle
  exact lt_of_not_ge hle

/-- What a successful import did to a tree: one entry more, the block's, above the best
finalized number, which stays; and either a new root, or one new edge from a node below the
block's number that the client said it descends from. -/
structure Imported (isDescendentOf : H → H → Except E Bool) (hash : H) (number : N) (data : V)
    (isRoot : Bool) (t t' : ForkTree H N V) : Prop where
  bestFinalizedNumber_eq : t'.bestFinalizedNumber = t.bestFinalizedNumber
  above_finalized : ∀ best, t.bestFinalizedNumber = some best → best < number
  entries_perm : t'.entries.Perm ((hash, number, data) :: t.entries)
  edges_of_root : isRoot = true → t'.edges.Perm t.edges
  edges_of_placed : isRoot = false → ∃ parent ∈ t.nodes, parent.number < number ∧
    isDescendentOf parent.hash hash = .ok true ∧
    t'.edges.Perm ((parent.block, (hash, number)) :: t.edges)

/-- Every import that succeeds adds exactly the block: as a new root, or under a node of the
tree that it descends from by the client's word and whose number is lower. -/
theorem import_imported {isDescendentOf : H → H → Except E Bool} {t t' : ForkTree H N V}
    {hash : H} {number : N} {data : V} {isRoot : Bool}
    (h : t.import isDescendentOf hash number data = (t', .ok isRoot)) :
    Imported isDescendentOf hash number data isRoot t t' := by
  unfold ForkTree.import at h
  cases hrev : checkRevert (E := E) t number with
  | error e => simp [hrev, SeqRight.seqRight, Except.bind] at h
  | ok u =>
    have habove := checkRevert_eq_ok hrev
    cases hroots : importRoots isDescendentOf t.roots hash number data with
    | error e => simp [hrev, hroots, SeqRight.seqRight, Except.bind] at h
    | ok r =>
      obtain ⟨roots, _ | x⟩ := r
      · simp only [hrev, hroots, SeqRight.seqRight, Except.bind, Prod.mk.injEq,
          Except.ok.injEq] at h
        obtain ⟨rfl, rfl⟩ := h
        rw [importRoots_eq] at hroots
        obtain ⟨-, hentries, parent, hmem, hnum, hdesc, hedges⟩ := Node.importChildren_eq_none hroots
        obtain ⟨hre, hrd⟩ := perm_rebalance { t with roots := roots }
        exact ⟨rfl, habove, hre.trans hentries, nofun,
          fun _ => ⟨parent, hmem, hnum, hdesc, hrd.trans hedges⟩⟩
      · simp only [hrev, hroots, SeqRight.seqRight, Except.bind, Prod.mk.injEq,
          Except.ok.injEq] at h
        obtain ⟨rfl, rfl⟩ := h
        rw [importRoots_eq] at hroots
        obtain ⟨rfl, rfl⟩ := Node.importChildren_eq_some hroots
        obtain ⟨hre, hrd⟩ := perm_rebalance { t with roots := t.roots ++ [⟨hash, number, data, []⟩] }
        refine ⟨rfl, habove, hre.trans ?_, fun _ => hrd.trans ?_, nofun⟩
        · simp only [entries, nodes, Node.nodesList_append, List.map_append]
          exact List.perm_append_singleton _ _
        · simp [edges]

-- Block `4` imported into the chain `1 → 2 → 3`, under a client for which every block descends
-- from every lower one, goes under block `3`.
example :
    (⟨[⟨1, 1, 10, [⟨2, 2, 20, [⟨3, 3, 30, []⟩]⟩]⟩], none⟩ : ForkTree ℕ ℕ ℕ).import
        (fun base target => (.ok (decide (base < target)) : Except Unit Bool)) 4 4 40 =
      (rebalance ⟨[⟨1, 1, 10, [⟨2, 2, 20, [⟨3, 3, 30, [⟨4, 4, 40, []⟩]⟩]⟩]⟩], none⟩, .ok false) :=
  rfl

theorem import_error {isDescendentOf : H → H → Except E Bool} {t t' : ForkTree H N V}
    {hash : H} {number : N} {data : V} {e : Error E}
    (h : t.import isDescendentOf hash number data = (t', .error e)) : t' = t := by
  unfold ForkTree.import at h
  split at h <;> simp_all

end ZeroNet.ForkTree
