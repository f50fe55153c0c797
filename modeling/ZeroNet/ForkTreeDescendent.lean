import ZeroNet.ForkTreePrune

/-!
# Finalizing with a descendent: the action and its check

`finalize_with_descendent_if` finalizes a block that need not be in the tree. It first looks
for a root the block is or descends from, passing the predicate, and finalizes it; then it
keeps only the roots on the block's branch: those that descend from the block and are above
it, the block itself, and those the block descends from. `finalizes_any_with_descendent_if` is
the read-only check its callers run first, over every node of the tree.

The results here: every root a successful call leaves is on the block's branch, and the best
finalized number becomes the block's, past the one before; when the check answers that no node
is finalized, the action finalizes no root: it only drops roots off the branch; and when the
check answers that the node finalized is a root, in a tree whose hashes are distinct, the action
finalizes a root. Both searches take the same step at each node, so both answers come from
one lemma about that step. When the action does finalize a root, the check of that root's
children for an unfinalized ancestor keeps the block's ancestors out: every node left is the
block or above it, although the loop over the roots alone would keep an ancestor.
-/

namespace ZeroNet.ForkTree

variable {H N V E : Type} [DecidableEq H] [LinearOrder N]
variable {isDescendentOf : H → H → Except E Bool} {hash : H} {number : N}
  {predicate : V → Bool}

/-! ## The roots left on the block's branch -/

/-- A root that `finalize_with_descendent_if` keeps: above the block and descending from it,
the block itself, or one the block descends from. -/
def OnBranch (isDescendentOf : H → H → Except E Bool) (hash : H) (number : N)
    (root : Node H N V) : Prop :=
  (number < root.number ∧ isDescendentOf hash root.hash = .ok true) ∨
    (root.number = number ∧ root.hash = hash) ∨ isDescendentOf root.hash hash = .ok true

theorem onBranch_of_retainDescendent {root : Node H N V}
    (h : retainDescendent isDescendentOf hash number root = .ok true) :
    OnBranch isDescendentOf hash number root := by
  unfold retainDescendent at h
  cases hfirst : (if number < root.number then client (isDescendentOf hash root.hash)
      else (pure false : Except (Error E) Bool)) with
  | error e =>
    rw [hfirst] at h
    exact absurd h (by simp [bind, Except.bind])
  | ok b =>
    rw [hfirst] at h
    cases b with
    | true =>
      split_ifs at hfirst with habove
      · exact .inl ⟨habove, client_eq_ok hfirst⟩
      · simp [pure, Except.pure] at hfirst
    | false =>
      change (if root.number = number ∧ root.hash = hash then pure true
        else client (isDescendentOf root.hash hash)) = .ok true at h
      split_ifs at h with hsame
      · exact .inr (.inl hsame)
      · exact .inr (.inr (client_eq_ok h))

/-- What a successful `finalize_with_descendent_if` did: the revert check passed and the search
found a position, if any; the root there was finalized, leaving its children as the roots
(with no position the tree stays as it was); and the loop kept the roots on the branch under
the block's number. -/
theorem finalizeWithDescendentIf_eq_ok {t t' : ForkTree H N V}
    {res : FinalizationResult V}
    (h : t.finalizeWithDescendentIf isDescendentOf hash number predicate = (t', .ok res)) :
    (∀ best, t.bestFinalizedNumber = some best → best < number) ∧
      ∃ position, findRootPosition isDescendentOf hash number predicate t.roots 0 = .ok position ∧
      ∃ base : ForkTree H N V, ∃ nodeData : Option V, ∃ changed,
        (position = none → base = t ∧ nodeData = none) ∧
        (∀ i (hi : i < t.roots.length), position = some i →
          base = ⟨t.roots[i].children, some t.roots[i].number⟩ ∧ nodeData = some t.roots[i].data) ∧
        retainRoots (retainDescendent isDescendentOf hash number) base.roots =
          (t'.roots, .ok changed) ∧
        t'.bestFinalizedNumber = some number ∧
        res = match nodeData with
          | some data => .changed (some data)
          | none => changedOrUnchanged changed := by
  unfold finalizeWithDescendentIf at h
  split at h
  · simp at h
  · rename_i position hfind
    obtain ⟨u, hrev, hpos⟩ := bind_eq_ok hfind
    refine ⟨checkRevert_eq_ok hrev, position, hpos, ?_⟩
    split at h
    rename_i base nodeData hbase
    have hnone : position = none → base = t ∧ nodeData = none := by
      rintro rfl
      simp only [Prod.mk.injEq] at hbase
      exact ⟨hbase.1.symm, hbase.2.symm⟩
    have hsome : ∀ i (hi : i < t.roots.length), position = some i →
        base = ⟨t.roots[i].children, some t.roots[i].number⟩ ∧
          nodeData = some t.roots[i].data := by
      rintro i hi rfl
      simp only [dif_pos hi, Rust.Vec.swapRemove_fst, Prod.mk.injEq] at hbase
      exact ⟨hbase.1.symm, hbase.2.symm⟩
    split at h
    · simp at h
    · rename_i roots changed hretain
      simp only [Prod.mk.injEq, Except.ok.injEq] at h
      obtain ⟨rfl, rfl⟩ := h
      exact ⟨base, nodeData, changed, hnone, hsome, hretain, rfl, rfl⟩

/-- Every root a successful `finalize_with_descendent_if` leaves is on the block's branch, and
the best finalized number moves forward to the block's. -/
theorem finalizeWithDescendentIf_on_branch {t t' : ForkTree H N V} {res : FinalizationResult V}
    (h : t.finalizeWithDescendentIf isDescendentOf hash number predicate = (t', .ok res)) :
    (∀ best, t.bestFinalizedNumber = some best → best < number) ∧
      t'.bestFinalizedNumber = some number ∧
      ∀ root ∈ t'.roots, OnBranch isDescendentOf hash number root := by
  obtain ⟨hrev, _, -, _, _, changed, -, -, hretain, hbest, -⟩ :=
    finalizeWithDescendentIf_eq_ok h
  refine ⟨hrev, hbest, fun root hroot => ?_⟩
  exact onBranch_of_retainDescendent ((retainRoots_eq hretain).2 root hroot)

/-! ## The check `finalizes_any_with_descendent_if` -/

/-- A node both searches pass over: it fails the predicate, or it is not the block and the
client says the block does not descend from it. -/
def PassedOver (isDescendentOf : H → H → Except E Bool) (hash : H) (predicate : V → Bool)
    (node : Node H N V) : Prop :=
  predicate node.data = true → node.hash ≠ hash ∧ isDescendentOf node.hash hash = .ok false

/-- A node both searches stop at: it passes the predicate, and it is the block or the client
says the block descends from it. -/
def Passes (isDescendentOf : H → H → Except E Bool) (hash : H) (predicate : V → Bool)
    (node : Node H N V) : Prop :=
  predicate node.data = true ∧ (node.hash = hash ∨ isDescendentOf node.hash hash = .ok true)

section Search

omit [LinearOrder N]

variable {α : Type} {node : Node H N V} {before : Node H N V → Bool} {a : α}
  {k : Except (Error E) (Option α)}

/-- One step of either search, the step both loops unfold to: a node passed over goes on to
the rest of the search. -/
theorem search_of_passedOver (hover : PassedOver isDescendentOf hash predicate node) :
    (if predicate node.data = true then
        (if node.hash = hash then pure true else client (isDescendentOf node.hash hash)) >>=
          fun passes => if passes = true then
            checkAncestors isDescendentOf hash before node.children >>= fun _ => pure (some a)
          else k
      else k) = k := by
  by_cases hp : predicate node.data = true
  · obtain ⟨hne, hdesc⟩ := hover hp
    rw [if_pos hp, if_neg hne, hdesc]
    rfl
  · rw [if_neg hp]

theorem search_of_passes (hpass : Passes isDescendentOf hash predicate node)
    (hcheck : checkAncestors isDescendentOf hash before node.children = .ok ()) :
    (if predicate node.data = true then
        (if node.hash = hash then pure true else client (isDescendentOf node.hash hash)) >>=
          fun passes => if passes = true then
            checkAncestors isDescendentOf hash before node.children >>= fun _ => pure (some a)
          else k
      else k) = .ok (some a) := by
  have htest : (if node.hash = hash then pure true
      else client (isDescendentOf node.hash hash)) = (pure true : Except (Error E) Bool) := by
    by_cases hsame : node.hash = hash
    · rw [if_pos hsame]
    · rw [if_neg hsame, hpass.2.resolve_left hsame]
      rfl
  rw [if_pos hpass.1, htest, pure_bind, if_pos rfl, hcheck]
  rfl

theorem search_eq_ok {r : Option α}
    (h : (if predicate node.data = true then
        (if node.hash = hash then pure true else client (isDescendentOf node.hash hash)) >>=
          fun passes => if passes = true then
            checkAncestors isDescendentOf hash before node.children >>= fun _ => pure (some a)
          else k
      else k) = .ok r) :
    (PassedOver isDescendentOf hash predicate node ∧ k = .ok r) ∨
      (Passes isDescendentOf hash predicate node ∧
        checkAncestors isDescendentOf hash before node.children = .ok () ∧ r = some a) := by
  by_cases hp : predicate node.data = true
  · rw [if_pos hp] at h
    obtain ⟨passes, hpasses, hrest⟩ := bind_eq_ok h
    cases passes with
    | true =>
      obtain ⟨u, hcheck, hsome⟩ := bind_eq_ok hrest
      refine .inr ⟨⟨hp, ?_⟩, hcheck, (Except.ok.inj hsome).symm⟩
      split_ifs at hpasses with hsame
      · exact .inl hsame
      · exact .inr (client_eq_ok hpasses)
    | false =>
      rw [if_neg (by decide)] at hrest
      refine .inl ⟨fun _ => ?_, hrest⟩
      split_ifs at hpasses with hsame
      · exact absurd hpasses (by simp [pure, Except.pure])
      · exact ⟨hsame, client_eq_ok hpasses⟩
  · rw [if_neg hp] at h
    exact .inl ⟨fun hp' => absurd hp' hp, h⟩

end Search

theorem finalizesAnyWithDescendentIf_eq_ok {t : ForkTree H N V} {r : Option Bool}
    (h : t.finalizesAnyWithDescendentIf isDescendentOf hash number predicate = .ok r) :
    (∀ best, t.bestFinalizedNumber = some best → best < number) ∧
      finalizesAnyLoop isDescendentOf t.roots hash number predicate t.nodes = .ok r := by
  unfold finalizesAnyWithDescendentIf at h
  obtain ⟨u, hrev, hloop⟩ := bind_eq_ok h
  rw [nodeIter, nodeIterFrom_eq_nodesList] at hloop
  exact ⟨checkRevert_eq_ok hrev, hloop⟩

theorem finalizesAnyLoop_eq_none (roots : List (Node H N V)) :
    ∀ {nodes : List (Node H N V)},
      finalizesAnyLoop isDescendentOf roots hash number predicate nodes = .ok none →
        ∀ node ∈ nodes, PassedOver isDescendentOf hash predicate node := by
  intro nodes
  induction nodes with
  | nil => exact fun _ _ hmem => absurd hmem List.not_mem_nil
  | cons node nodes ih =>
    intro h n hn
    rw [finalizesAnyLoop] at h
    rcases search_eq_ok h with ⟨hover, hrest⟩ | ⟨-, -, hsome⟩
    · rcases List.mem_cons.1 hn with rfl | hn
      · exact hover
      · exact ih hrest n hn
    · cases hsome

/-- An answer of the check comes from the first node that passes, with no child in the way,
after passing over every node before it; the answer is whether a root has its hash. -/
theorem finalizesAnyLoop_eq_some (roots : List (Node H N V)) :
    ∀ {nodes : List (Node H N V)} {b : Bool},
      finalizesAnyLoop isDescendentOf roots hash number predicate nodes = .ok (some b) →
        ∃ pre n post, nodes = pre ++ n :: post ∧
          (∀ m ∈ pre, PassedOver isDescendentOf hash predicate m) ∧
          Passes isDescendentOf hash predicate n ∧
          checkAncestors isDescendentOf hash (fun child => decide (child.number ≤ number))
            n.children = .ok () ∧
          b = roots.any fun root => root.hash == n.hash := by
  intro nodes
  induction nodes with
  | nil =>
    intro b h
    simp [finalizesAnyLoop, pure, Except.pure] at h
  | cons node nodes ih =>
    intro b h
    rw [finalizesAnyLoop] at h
    rcases search_eq_ok h with ⟨hover, hrest⟩ | ⟨hpass, hcheck, hb⟩
    · obtain ⟨pre, n, post, rfl, hpre, hn⟩ := ih hrest
      exact ⟨node :: pre, n, post, rfl, List.forall_mem_cons.2 ⟨hover, hpre⟩, hn⟩
    · exact ⟨[], node, nodes, rfl, fun _ hm => absurd hm List.not_mem_nil, hpass, hcheck,
        Option.some.inj hb⟩

theorem findRootPosition_append :
    ∀ {pre : List (Node H N V)}, (∀ root ∈ pre, PassedOver isDescendentOf hash predicate root) →
      ∀ rest i, findRootPosition isDescendentOf hash number predicate (pre ++ rest) i =
        findRootPosition isDescendentOf hash number predicate rest (i + pre.length) := by
  intro pre
  induction pre with
  | nil => exact fun _ _ _ => rfl
  | cons root pre ih =>
    intro hover rest i
    rw [List.cons_append, findRootPosition, search_of_passedOver (hover root List.mem_cons_self),
      ih (fun r hr => hover r (List.mem_cons_of_mem root hr)) rest (i + 1), List.length_cons,
      Nat.add_assoc, Nat.add_comm 1]

theorem findRootPosition_eq_none {roots : List (Node H N V)}
    (hover : ∀ root ∈ roots, PassedOver isDescendentOf hash predicate root) (i : ℕ) :
    findRootPosition isDescendentOf hash number predicate roots i = .ok none := by
  have h : findRootPosition isDescendentOf hash number predicate (roots ++ []) i =
      findRootPosition isDescendentOf hash number predicate [] (i + roots.length) :=
    findRootPosition_append hover [] i
  rw [List.append_nil] at h
  rw [h, findRootPosition]
  rfl

/-- When `finalizes_any_with_descendent_if` answers that no node is finalized,
`finalize_with_descendent_if` finalizes no root: it returns no data, and the roots it leaves
are some of the roots there were, in their order. -/
theorem finalizeWithDescendentIf_of_finalizesAny_none {t t' : ForkTree H N V}
    {res : FinalizationResult V}
    (hany : t.finalizesAnyWithDescendentIf isDescendentOf hash number predicate = .ok none)
    (h : t.finalizeWithDescendentIf isDescendentOf hash number predicate = (t', .ok res)) :
    (res = .unchanged ∨ res = .changed none) ∧ t'.roots.Sublist t.roots := by
  obtain ⟨-, hloop⟩ := finalizesAnyWithDescendentIf_eq_ok hany
  have hover : ∀ root ∈ t.roots, PassedOver isDescendentOf hash predicate root :=
    fun root hroot => finalizesAnyLoop_eq_none t.roots hloop root (mem_nodes_of_mem_roots hroot)
  obtain ⟨-, position, hpos, base, nodeData, changed, hnone, -, hretain, -, rfl⟩ :=
    finalizeWithDescendentIf_eq_ok h
  have hposition : position = none :=
    Except.ok.inj (hpos.symm.trans (findRootPosition_eq_none hover 0))
  obtain ⟨rfl, rfl⟩ := hnone hposition
  refine ⟨?_, (retainRoots_eq hretain).1⟩
  cases changed
  · exact .inl rfl
  · exact .inr rfl

theorem finalizeWithDescendentIf_of_finalizesAny_none_chainTree :
    chainTree.finalizesAnyWithDescendentIf chainClient 2 2 (fun data => data == 30) = .ok none ∧
      chainTree.finalizeWithDescendentIf chainClient 2 2 (fun data => data == 30) =
        (⟨chainTree.roots, some 2⟩, .ok .unchanged) ∧
      ((.unchanged : FinalizationResult ℕ) = .unchanged ∨
          (.unchanged : FinalizationResult ℕ) = .changed none) ∧
        (⟨chainTree.roots, some 2⟩ : ForkTree ℕ ℕ ℕ).roots.Sublist chainTree.roots :=
  have hany : chainTree.finalizesAnyWithDescendentIf chainClient 2 2
      (fun data => data == 30) = .ok none := by
    rw [finalizesAnyWithDescendentIf, nodeIter, nodeIterFrom_eq_nodesList]
    rfl
  have h : chainTree.finalizeWithDescendentIf chainClient 2 2 (fun data => data == 30) =
      (⟨chainTree.roots, some 2⟩, .ok .unchanged) := rfl
  ⟨hany, h, finalizeWithDescendentIf_of_finalizesAny_none hany h⟩

omit [DecidableEq H] [LinearOrder N] in
theorem Node.nodes_eq_cons (node : Node H N V) :
    Node.nodes node = node :: Node.nodesList node.children := by
  obtain ⟨hash, number, data, children⟩ := node
  rfl

/-- When the hashes in the tree are distinct and `finalizes_any_with_descendent_if` answers
that the node finalized is a root, `finalize_with_descendent_if` finalizes that root: the roots
before it come before it in pre-order, so its search passes over them as the check did, and
stops at it for the same reasons. -/
theorem finalizeWithDescendentIf_of_finalizesAny_root {t t' : ForkTree H N V}
    {res : FinalizationResult V} (hdistinct : (t.nodes.map Node.hash).Nodup)
    (hany : t.finalizesAnyWithDescendentIf isDescendentOf hash number predicate = .ok (some true))
    (h : t.finalizeWithDescendentIf isDescendentOf hash number predicate = (t', .ok res)) :
    ∃ root ∈ t.roots, predicate root.data = true ∧ res = .changed (some root.data) := by
  obtain ⟨-, hloop⟩ := finalizesAnyWithDescendentIf_eq_ok hany
  obtain ⟨pre, n, post, hsplit, hpre, hpass, hcheck, hroot⟩ :=
    finalizesAnyLoop_eq_some t.roots hloop
  obtain ⟨r, hr, hhash⟩ : ∃ r ∈ t.roots, r.hash = n.hash := by
    obtain ⟨r, hr, hbeq⟩ := List.any_eq_true.1 hroot.symm
    exact ⟨r, hr, beq_iff_eq.1 hbeq⟩
  have hn : n ∈ t.nodes := by
    rw [hsplit]
    exact List.mem_append_right pre List.mem_cons_self
  obtain rfl : r = n := List.inj_on_of_nodup_map hdistinct (mem_nodes_of_mem_roots hr) hn hhash
  obtain ⟨j, hj, hget⟩ := List.getElem_of_mem hr
  -- in pre-order the roots before it are in the nodes before it, which the check passed over
  have hsplit' : Node.nodesList t.roots = Node.nodesList (t.roots.take j) ++
      r :: (Node.nodesList r.children ++ Node.nodesList (t.roots.drop (j + 1))) := by
    rw [nodesList_eq_take_drop hj, hget, Node.nodes_eq_cons, List.cons_append]
  have hnodup : (pre ++ r :: post).Nodup := hsplit ▸ hdistinct.of_map Node.hash
  have hpre_eq : pre = Node.nodesList (t.roots.take j) := by
    have hnpre : r ∉ pre := fun hmem =>
      (List.nodup_append.1 hnodup).2.2 r hmem r List.mem_cons_self rfl
    have hnpost : r ∉ post := (List.nodup_cons.1 (List.nodup_append.1 hnodup).2.1).1
    exact ((List.append_cons_inj_of_notMem hnpre hnpost).1 (hsplit.symm.trans hsplit')).1
  have hbefore : ∀ root ∈ t.roots.take j, PassedOver isDescendentOf hash predicate root :=
    fun root hmem => hpre root (hpre_eq ▸ Node.mem_nodesList_of_mem hmem)
  have hfind : findRootPosition isDescendentOf hash number predicate t.roots 0 = .ok (some j) := by
    have hroots : t.roots = t.roots.take j ++ r :: t.roots.drop (j + 1) := by
      rw [← hget, List.getElem_cons_drop, List.take_append_drop]
    have htake : (t.roots.take j).length = j := by
      rw [List.length_take]
      omega
    rw [hroots, findRootPosition_append hbefore, findRootPosition, search_of_passes hpass hcheck,
      htake, Nat.zero_add]
  obtain ⟨-, position, hpos, base, nodeData, changed, -, hsome, -, -, rfl⟩ :=
    finalizeWithDescendentIf_eq_ok h
  have hposition : position = some j := Except.ok.inj (hpos.symm.trans hfind)
  obtain ⟨-, rfl⟩ := hsome j hj hposition
  exact ⟨r, hr, hpass.1, by rw [hget]⟩

theorem finalizeWithDescendentIf_of_finalizesAny_root_chainTree :
    (chainTree.nodes.map Node.hash).Nodup ∧
      chainTree.finalizesAnyWithDescendentIf chainClient 2 2 (fun _ => true) = .ok (some true) ∧
      chainTree.finalizeWithDescendentIf chainClient 2 2 (fun _ => true) =
        (⟨[⟨2, 2, 20, [⟨3, 3, 30, []⟩]⟩], some 2⟩, .ok (.changed (some 10))) ∧
      ∃ root ∈ chainTree.roots, (fun _ : ℕ => true) root.data = true ∧
        (.changed (some 10) : FinalizationResult ℕ) = .changed (some root.data) :=
  have hdistinct : (chainTree.nodes.map Node.hash).Nodup := by decide
  have hany : chainTree.finalizesAnyWithDescendentIf chainClient 2 2 (fun _ => true) =
      .ok (some true) := by
    rw [finalizesAnyWithDescendentIf, nodeIter, nodeIterFrom_eq_nodesList]
    rfl
  have h : chainTree.finalizeWithDescendentIf chainClient 2 2 (fun _ => true) =
      (⟨[⟨2, 2, 20, [⟨3, 3, 30, []⟩]⟩], some 2⟩, .ok (.changed (some 10))) := rfl
  ⟨hdistinct, hany, h, finalizeWithDescendentIf_of_finalizesAny_root hdistinct hany h⟩

/-! ## Finalizing a root keeps the block's ancestors out -/

omit [DecidableEq H] [LinearOrder N] in
theorem checkAncestors_eq_ok {before : Node H N V → Bool} :
    ∀ {nodes : List (Node H N V)}, checkAncestors isDescendentOf hash before nodes = .ok () →
      ∀ node ∈ nodes, before node = true → isDescendentOf node.hash hash ≠ .ok true
  | [], _, _, hmem, _ => absurd hmem List.not_mem_nil
  | n :: nodes, h, node, hmem, hbefore => by
    rw [checkAncestors] at h
    have hfront : checkAncestors isDescendentOf hash before nodes = .ok () ∧
        (before n = true → client (isDescendentOf n.hash hash) = .ok false) := by
      by_cases hb : before n = true
      · rw [if_pos hb] at h
        obtain ⟨lift, hlift, hk⟩ := bind_eq_ok h
        cases lift with
        | true => exact absurd hk (by simp [throw, throwThe, MonadExceptOf.throw, bind, Except.bind])
        | false => exact ⟨hk, fun _ => hlift⟩
      · rw [if_neg hb] at h
        exact ⟨h, fun hb' => absurd hb' hb⟩
    rcases List.mem_cons.1 hmem with rfl | hmem
    · intro htrue
      have hfalse := client_eq_ok (hfront.2 hbefore)
      rw [htrue] at hfalse
      cases hfalse
    · exact checkAncestors_eq_ok hfront.1 node hmem hbefore

theorem findRootPosition_eq_some : ∀ {roots : List (Node H N V)} {i p : ℕ},
    findRootPosition isDescendentOf hash number predicate roots i = .ok (some p) →
      ∃ k, ∃ hk : k < roots.length, p = i + k ∧ Passes isDescendentOf hash predicate roots[k] ∧
        checkAncestors isDescendentOf hash (fun child => decide (child.number ≤ number))
          roots[k].children = .ok ()
  | [], _, _, h => by simp [findRootPosition, pure, Except.pure] at h
  | root :: roots, i, p, h => by
    rw [findRootPosition] at h
    rcases search_eq_ok h with ⟨-, hrest⟩ | ⟨hpass, hcheck, hp⟩
    · obtain ⟨k, hk, rfl, hk'⟩ := findRootPosition_eq_some hrest
      exact ⟨k + 1, Nat.succ_lt_succ hk, by omega, hk'⟩
    · exact ⟨0, Nat.zero_lt_succ _, by rw [Option.some.inj hp, Nat.add_zero], hpass, hcheck⟩

omit [DecidableEq H] in
theorem EdgesChecked.eq_or_lt_of_mem_nodes {t : ForkTree H N V}
    (hedges : EdgesChecked isDescendentOf t) {r m : Node H N V} (hr : r ∈ t.nodes)
    (hm : m ∈ Node.nodes r) : m = r ∨ r.number < m.number := by
  rw [Node.nodes_eq_cons, List.mem_cons] at hm
  refine hm.imp id fun hm => Node.lt_number_of_mem_nodesList (fun c hc => hedges.lt hr hc)
    (fun e he => (hedges e ((Node.subset_of_mem_nodesList hr).2 ?_)).1) hm
  obtain ⟨hash, number, data, children⟩ := r
  exact List.mem_append_right _ he

theorem finalizeWithDescendentIf_finalized_roots {t t' : ForkTree H N V} {data : V}
    (h : t.finalizeWithDescendentIf isDescendentOf hash number predicate =
      (t', .ok (.changed (some data)))) :
    ∀ r ∈ t'.roots, number < r.number ∨ (r.number = number ∧ r.hash = hash) := by
  obtain ⟨-, -, honBranch⟩ := finalizeWithDescendentIf_on_branch h
  obtain ⟨-, position, hpos, base, nodeData, changed, hnone, hsome, hretain, -, hres⟩ :=
    finalizeWithDescendentIf_eq_ok h
  obtain ⟨d, rfl⟩ : ∃ d, nodeData = some d := by
    cases nodeData with
    | some d => exact ⟨d, rfl⟩
    | none => cases changed <;> cases hres
  obtain ⟨p, rfl⟩ : ∃ p, position = some p := by
    cases position with
    | some p => exact ⟨p, rfl⟩
    | none => cases (hnone rfl).2
  obtain ⟨k, hk, rfl, -, hcheck⟩ := findRootPosition_eq_some hpos
  obtain ⟨rfl, -⟩ := hsome k hk (by rw [Nat.zero_add])
  intro r hr
  have hchild : r ∈ t.roots[k].children := (retainRoots_eq hretain).1.subset hr
  rcases honBranch r hr with ⟨habove, -⟩ | hsame | hdesc
  · exact .inl habove
  · exact .inr hsame
  · exact .inl (lt_of_not_ge fun hle =>
      checkAncestors_eq_ok hcheck r hchild (decide_eq_true hle) hdesc)

/-- When `finalize_with_descendent_if` finalizes a root, the check of that root's children for
an unfinalized ancestor has kept the block's ancestors out of the tree: every root left is the
block itself or above it, and in a tree whose edges the client confirmed so is every node. -/
theorem finalizeWithDescendentIf_finalized_above {t t' : ForkTree H N V} {data : V}
    (hedges : EdgesChecked isDescendentOf t)
    (h : t.finalizeWithDescendentIf isDescendentOf hash number predicate =
      (t', .ok (.changed (some data)))) :
    t'.bestFinalizedNumber = some number ∧
      ∀ n ∈ t'.nodes, number < n.number ∨ (n ∈ t'.roots ∧ n.number = number ∧ n.hash = hash) := by
  have hroots := finalizeWithDescendentIf_finalized_roots h
  have hedges' := hedges.of_shrinks (shrinks_finalizeWithDescendentIf h)
  refine ⟨(finalizeWithDescendentIf_on_branch h).2.1, fun n hn => ?_⟩
  obtain ⟨r, hr, hnr⟩ : ∃ r ∈ t'.roots, n ∈ Node.nodes r := by
    rw [nodes, Node.nodesList_eq_flatMap, List.mem_flatMap] at hn
    exact hn
  rcases hedges'.eq_or_lt_of_mem_nodes (mem_nodes_of_mem_roots hr) hnr with rfl | hlt
  · exact (hroots n hr).imp_right fun hsame => ⟨hr, hsame⟩
  · rcases hroots r hr with habove | ⟨hnum, -⟩
    · exact .inl (habove.trans hlt)
    · exact .inl (hnum ▸ hlt)

theorem finalizeWithDescendentIf_finalized_above_chainTree :
    EdgesChecked chainClient chainTree ∧
      chainTree.finalizeWithDescendentIf chainClient 2 2 (fun _ => true) =
        (⟨[⟨2, 2, 20, [⟨3, 3, 30, []⟩]⟩], some 2⟩, .ok (.changed (some 10))) ∧
      (⟨[⟨2, 2, 20, [⟨3, 3, 30, []⟩]⟩], some 2⟩ : ForkTree ℕ ℕ ℕ).bestFinalizedNumber = some 2 ∧
      ∀ n ∈ (⟨[⟨2, 2, 20, [⟨3, 3, 30, []⟩]⟩], some 2⟩ : ForkTree ℕ ℕ ℕ).nodes,
        2 < n.number ∨
          (n ∈ (⟨[⟨2, 2, 20, [⟨3, 3, 30, []⟩]⟩], some 2⟩ : ForkTree ℕ ℕ ℕ).roots ∧
            n.number = 2 ∧ n.hash = 2) :=
  have h : chainTree.finalizeWithDescendentIf chainClient 2 2 (fun _ => true) =
      (⟨[⟨2, 2, 20, [⟨3, 3, 30, []⟩]⟩], some 2⟩, .ok (.changed (some 10))) := rfl
  ⟨edgesChecked_chainTree, h, finalizeWithDescendentIf_finalized_above edgesChecked_chainTree h⟩

end ZeroNet.ForkTree
