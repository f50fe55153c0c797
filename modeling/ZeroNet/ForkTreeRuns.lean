import ZeroNet.ForkTreeSteps

/-!
# Runs of a fork tree

A user of the tree calls its operations in any order, each on the tree the last one left,
whether it succeeded or failed; a run asks one ancestry function throughout. Over every run
from an empty tree, every edge of the tree goes up in number and was approved by the client:
that is the check `import` makes, and no other operation adds an edge. Over every run without
`finalize_with_descendent_if`, which keeps roots that the block descends from, every block of
the tree is above the best finalized number, and that number never goes back.
-/

namespace ZeroNet.ForkTree

variable {H N V E : Type}

/-- The operations on `&mut self` that change the tree. -/
inductive Op (H N V : Type) where
  | import (hash : H) (number : N) (data : V)
  | finalizeRoot (hash : H)
  | finalize (hash : H) (number : N)
  | finalizeWithAncestors (hash : H) (number : N)
  | finalizeWithDescendentIf (hash : H) (number : N) (predicate : V → Bool)
  | prune (hash : H) (number : N) (predicate : V → Bool)
  | rebalance

/-- All operations but `finalize_with_descendent_if`, the one that keeps roots below the block
it finalizes. -/
def Op.keepsFinality : Op H N V → Bool
  | .finalizeWithDescendentIf .. => false
  | _ => true

variable [LinearOrder N]

/-- Every edge goes up in number, and the client said that the child descends from the
parent. -/
def EdgesChecked (isDescendentOf : H → H → Except E Bool) (t : ForkTree H N V) : Prop :=
  ∀ e ∈ t.edges, e.1.2 < e.2.2 ∧ isDescendentOf e.1.1 e.2.1 = .ok true

/-- Every block of the tree is above the best finalized number. -/
def AboveFinalized (t : ForkTree H N V) : Prop :=
  ∀ best, t.bestFinalizedNumber = some best → ∀ e ∈ t.entries, best < e.2.1

theorem EdgesChecked.of_shrinks {isDescendentOf : H → H → Except E Bool}
    {t t' : ForkTree H N V} (hinv : EdgesChecked isDescendentOf t) (h : Shrinks t t') :
    EdgesChecked isDescendentOf t' :=
  fun e he => hinv e (h.edges he)

theorem AboveFinalized.of_shrinks {t t' : ForkTree H N V} (hinv : AboveFinalized t)
    (h : Shrinks t t') (hbest : t'.bestFinalizedNumber = t.bestFinalizedNumber) :
    AboveFinalized t' :=
  fun best hb e he => hinv best (hbest ▸ hb) e (h.entries he)

theorem EdgesChecked.lt {isDescendentOf : H → H → Except E Bool} {t : ForkTree H N V}
    (hinv : EdgesChecked isDescendentOf t) {node child : Node H N V} (hnode : node ∈ t.nodes)
    (hchild : child ∈ node.children) : node.number < child.number :=
  (hinv _ (mem_edges_of_mem_nodes hnode hchild)).1

theorem EdgesChecked.descends {isDescendentOf : H → H → Except E Bool} {t : ForkTree H N V}
    (hinv : EdgesChecked isDescendentOf t) {node child : Node H N V} (hnode : node ∈ t.nodes)
    (hchild : child ∈ node.children) : isDescendentOf node.hash child.hash = .ok true :=
  (hinv _ (mem_edges_of_mem_nodes hnode hchild)).2

namespace Node

mutual
theorem lt_number_of_mem_nodes {b : N} : ∀ {node m : Node H N V},
    b < node.number → (∀ e ∈ edges node, e.1.2 < e.2.2) → m ∈ nodes node → b < m.number
  | ⟨hash, number, data, children⟩, m, hb, hinc, hm => by
    rw [nodes_mk, List.mem_cons] at hm
    rcases hm with rfl | hm
    · exact hb
    · refine lt_number_of_mem_nodesList (fun child hchild => ?_)
        (fun e he => hinc e (List.mem_append_right _ he)) hm
      exact lt_trans hb (hinc _ (List.mem_append_left _ (List.mem_map_of_mem hchild)))
theorem lt_number_of_mem_nodesList {b : N} : ∀ {l : List (Node H N V)}
    {m : Node H N V}, (∀ root ∈ l, b < root.number) →
      (∀ e ∈ edgesList l, e.1.2 < e.2.2) → m ∈ nodesList l → b < m.number
  | [], _, _, _, hm => absurd hm List.not_mem_nil
  | node :: rest, m, hb, hinc, hm => by
    rw [nodesList_cons, List.mem_append] at hm
    rcases hm with hm | hm
    · exact lt_number_of_mem_nodes (hb node List.mem_cons_self)
        (fun e he => hinc e (List.mem_append_left _ he)) hm
    · exact lt_number_of_mem_nodesList (fun r hr => hb r (List.mem_cons_of_mem _ hr))
        (fun e he => hinc e (List.mem_append_right _ he)) hm
end

end Node

theorem aboveFinalized_of_roots {isDescendentOf : H → H → Except E Bool}
    {t : ForkTree H N V} (hinv : EdgesChecked isDescendentOf t)
    (hroots : ∀ best, t.bestFinalizedNumber = some best → ∀ root ∈ t.roots, best < root.number) :
    AboveFinalized t := by
  intro best hbest e he
  obtain ⟨m, hm, rfl⟩ := List.mem_map.1 he
  exact Node.lt_number_of_mem_nodesList (hroots best hbest) (fun e he => (hinv e he).1) hm

variable [DecidableEq H]

/-- The tree an operation leaves, whatever it returns; `none` is a panic. -/
def Op.apply (isDescendentOf : H → H → Except E Bool) :
    Op H N V → ForkTree H N V → Option (ForkTree H N V)
  | .import hash number data, t => some (t.import isDescendentOf hash number data).1
  | .finalizeRoot hash, t => some (t.finalizeRoot hash).1
  | .finalize hash number, t => some (t.finalize isDescendentOf hash number).1
  | .finalizeWithAncestors hash number, t =>
    some (t.finalizeWithAncestors isDescendentOf hash number).1
  | .finalizeWithDescendentIf hash number predicate, t =>
    some (t.finalizeWithDescendentIf isDescendentOf hash number predicate).1
  | .prune hash number predicate, t => (t.prune isDescendentOf hash number predicate).map Prod.fst
  | .rebalance, t => some t.rebalance

/-- The trees that runs of the operations `allowed` lets through reach from an empty tree. -/
inductive Reachable (isDescendentOf : H → H → Except E Bool) (allowed : Op H N V → Bool) :
    ForkTree H N V → Prop
  | new : Reachable isDescendentOf allowed ForkTree.new
  | step {t t' : ForkTree H N V} (op : Op H N V) : allowed op = true →
      Reachable isDescendentOf allowed t → op.apply isDescendentOf t = some t' →
      Reachable isDescendentOf allowed t'

/-! ## One step -/

section Step

variable {isDescendentOf : H → H → Except E Bool} {t : ForkTree H N V}

theorem EdgesChecked.import (hinv : EdgesChecked isDescendentOf t) (hash : H) (number : N)
    (data : V) : EdgesChecked isDescendentOf (t.import isDescendentOf hash number data).1 := by
  rcases himport : t.import isDescendentOf hash number data with ⟨t', _ | isRoot⟩
  · rw [import_error himport]
    exact hinv
  · have himp := import_imported himport
    cases isRoot with
    | true => exact fun e he => hinv e ((himp.edges_of_root rfl).subset he)
    | false =>
      obtain ⟨parent, -, hnum, hdesc, hedges⟩ := himp.edges_of_placed rfl
      intro e he
      rcases List.mem_cons.1 (hedges.subset he) with rfl | he
      · exact ⟨hnum, hdesc⟩
      · exact hinv e he

theorem AboveFinalized.import (hinv : AboveFinalized t) (hash : H) (number : N) (data : V) :
    AboveFinalized (t.import isDescendentOf hash number data).1 := by
  rcases himport : t.import isDescendentOf hash number data with ⟨t', _ | isRoot⟩
  · rw [import_error himport]
    exact hinv
  · have himp := import_imported himport
    intro best hbest e he
    rw [himp.bestFinalizedNumber_eq] at hbest
    rcases List.mem_cons.1 (himp.entries_perm.subset he) with rfl | he
    · exact himp.above_finalized best hbest
    · exact hinv best hbest e he

theorem shrinks_apply {op : Op H N V} {t' : ForkTree H N V}
    (hop : ∀ hash number data, op ≠ .import hash number data)
    (h : op.apply isDescendentOf t = some t') : Shrinks t t' := by
  cases op with
  | «import» hash number data => exact absurd rfl (hop hash number data)
  | finalizeRoot hash =>
    cases h
    exact shrinks_finalizeRoot (Prod.eta _).symm
  | finalize hash number =>
    cases h
    exact shrinks_finalize (Prod.eta _).symm
  | finalizeWithAncestors hash number =>
    cases h
    exact shrinks_finalizeWithAncestors (Prod.eta _).symm
  | finalizeWithDescendentIf hash number predicate =>
    cases h
    exact shrinks_finalizeWithDescendentIf (Prod.eta _).symm
  | prune hash number predicate =>
    obtain ⟨⟨t'', res⟩, hprune, rfl⟩ := Option.map_eq_some_iff.1 h
    exact shrinks_prune hprune
  | rebalance =>
    cases h
    exact shrinks_rebalance t

theorem EdgesChecked.apply (hinv : EdgesChecked isDescendentOf t) {op : Op H N V}
    {t' : ForkTree H N V} (h : op.apply isDescendentOf t = some t') :
    EdgesChecked isDescendentOf t' := by
  cases op with
  | «import» hash number data =>
    cases h
    exact hinv.import hash number data
  | _ => exact hinv.of_shrinks (shrinks_apply (fun _ _ _ heq => by cases heq) h)

/-- The three ways an operation other than `finalize_with_descendent_if` moves the best
finalized number: not at all; to a node of the tree whose children become the roots; or to a
number above the best one and below every root left. -/
inductive Finalized (t : ForkTree H N V) : ForkTree H N V → Prop
  | keep {t' : ForkTree H N V} : t'.bestFinalizedNumber = t.bestFinalizedNumber → Finalized t t'
  | root {node : Node H N V} : node ∈ t.nodes → Finalized t ⟨node.children, some node.number⟩
  | above {t' : ForkTree H N V} {number : N} :
      (∀ best, t.bestFinalizedNumber = some best → best < number) →
      t'.bestFinalizedNumber = some number → (∀ root ∈ t'.roots, number < root.number) →
      Finalized t t'

theorem finalized_finalizeRoot (hash : H) : Finalized t (t.finalizeRoot hash).1 := by
  rcases finalizeRoot_cases (Prod.eta (t.finalizeRoot hash)).symm with
    ⟨heq, -⟩ | ⟨root, hmem, -, heq, -⟩ <;> rw [heq]
  · exact .keep rfl
  · exact .root (mem_nodes_of_mem_roots hmem)

theorem finalized_finalize (hash : H) (number : N) :
    Finalized t (t.finalize isDescendentOf hash number).1 := by
  rcases finalize_cases (Prod.eta (t.finalize isDescendentOf hash number)).symm with
    ⟨kept, -, -, heq, -⟩ | ⟨root, hmem, -, heq⟩ | ⟨kept, -, hkept, heq, habove⟩ <;> rw [heq]
  · exact .keep rfl
  · exact .root (mem_nodes_of_mem_roots hmem)
  · exact .above habove rfl fun root hroot => (hkept root hroot).1

theorem finalized_finalizeWithAncestors (hash : H) (number : N) :
    Finalized t (t.finalizeWithAncestors isDescendentOf hash number).1 := by
  rcases finalizeWithAncestors_cases
      (Prod.eta (t.finalizeWithAncestors isDescendentOf hash number)).symm with
    ⟨roots, -, -, heq, -⟩ | ⟨node, hnode, -, heq⟩ | ⟨roots, hroots, heq, habove⟩ <;> rw [heq]
  · exact .keep rfl
  · exact .root hnode
  · exact .above habove rfl fun root hroot => (hroots root hroot).2.1

theorem finalized_apply {op : Op H N V} {t' : ForkTree H N V} (hop : op.keepsFinality = true)
    (h : op.apply isDescendentOf t = some t') : Finalized t t' := by
  cases op with
  | «import» hash number data =>
    cases h
    rcases himport : t.import isDescendentOf hash number data with ⟨t', _ | isRoot⟩
    · rw [import_error himport]
      exact .keep rfl
    · exact .keep (import_imported himport).bestFinalizedNumber_eq
  | finalizeRoot hash =>
    cases h
    exact finalized_finalizeRoot hash
  | finalize hash number =>
    cases h
    exact finalized_finalize hash number
  | finalizeWithAncestors hash number =>
    cases h
    exact finalized_finalizeWithAncestors hash number
  | finalizeWithDescendentIf => cases hop
  | prune hash number predicate =>
    obtain ⟨⟨t'', res⟩, hprune, rfl⟩ := Option.map_eq_some_iff.1 h
    exact .keep (bestFinalizedNumber_of_prune hprune)
  | rebalance =>
    cases h
    exact .keep rfl

omit [DecidableEq H] in
/-- A tree with only blocks of `t`, finalized in one of the three ways, is above its best
finalized number: the children of a node are above it by their edges. -/
theorem AboveFinalized.of_finalized (hinv : AboveFinalized t)
    (hedges : EdgesChecked isDescendentOf t) {t' : ForkTree H N V} (hshrinks : Shrinks t t')
    (h : Finalized t t') : AboveFinalized t' := by
  cases h with
  | keep hbest => exact hinv.of_shrinks hshrinks hbest
  | root hnode =>
    apply aboveFinalized_of_roots (hedges.of_shrinks hshrinks)
    rintro best ⟨⟩ child hchild
    exact hedges.lt hnode hchild
  | above _ hbest hroots =>
    apply aboveFinalized_of_roots (hedges.of_shrinks hshrinks)
    intro best hbest' root hroot
    rw [hbest, Option.some.injEq] at hbest'
    exact hbest' ▸ hroots root hroot

theorem AboveFinalized.apply (hinv : AboveFinalized t) (hedges : EdgesChecked isDescendentOf t)
    {op : Op H N V} {t' : ForkTree H N V} (hop : op.keepsFinality = true)
    (h : op.apply isDescendentOf t = some t') : AboveFinalized t' := by
  cases op with
  | «import» hash number data =>
    cases h
    exact hinv.import hash number data
  | _ =>
    exact hinv.of_finalized hedges (shrinks_apply (fun _ _ _ heq => by cases heq) h)
      (finalized_apply hop h)

omit [DecidableEq H] in
theorem Finalized.best_le (hinv : AboveFinalized t) {t' : ForkTree H N V} (h : Finalized t t') :
    ∀ best, t.bestFinalizedNumber = some best →
      ∃ best', t'.bestFinalizedNumber = some best' ∧ best ≤ best' := by
  intro best hbest
  cases h with
  | keep heq => exact ⟨best, heq ▸ hbest, le_refl best⟩
  | @root node hnode =>
    exact ⟨node.number, rfl, (hinv best hbest _ (List.mem_map_of_mem hnode)).le⟩
  | @above t' number habove hbest' _ => exact ⟨number, hbest', (habove best hbest).le⟩

end Step

/-! ## Every run -/

/-- The client of a single chain whose hashes are the block numbers: a block descends from
every lower one. -/
def chainClient (base target : ℕ) : Except Unit Bool :=
  .ok (decide (base < target))

def chainRun : ForkTree ℕ ℕ ℕ :=
  ((ForkTree.new.import chainClient 1 1 10).1.import chainClient 2 2 20).1

theorem reachable_chainRun (allowed : Op ℕ ℕ ℕ → Bool)
    (himport : ∀ hash number data, allowed (.import hash number data) = true) :
    Reachable chainClient allowed chainRun :=
  .step (.import 2 2 20) (himport 2 2 20) (.step (.import 1 1 10) (himport 1 1 10) .new rfl) rfl

section Runs

variable {isDescendentOf : H → H → Except E Bool} {allowed : Op H N V → Bool}
  {t : ForkTree H N V}

theorem Reachable.edgesChecked (h : Reachable isDescendentOf allowed t) :
    EdgesChecked isDescendentOf t := by
  induction h with
  | new => exact fun e he => absurd he List.not_mem_nil
  | step op _ _ happly ih => exact ih.apply happly

theorem Reachable.aboveFinalized (h : Reachable isDescendentOf Op.keepsFinality t) :
    AboveFinalized t := by
  induction h with
  | new => exact fun best hbest => absurd hbest (Option.some_ne_none best).symm
  | step op hop hreach happly ih => exact ih.apply hreach.edgesChecked hop happly

/-- Over every run from an empty tree, whatever its operations returned, every node that
`node_iter` yields is below each of its children in number, and the client confirmed that each
child descends from it. -/
theorem children_confirmed_of_reachable (h : Reachable isDescendentOf allowed t) :
    ∀ node ∈ t.nodeIter, ∀ child ∈ node.children,
      node.number < child.number ∧ isDescendentOf node.hash child.hash = .ok true := by
  intro node hnode child hchild
  rw [nodeIter, nodeIterFrom_eq_nodesList] at hnode
  exact h.edgesChecked _ (mem_edges_of_mem_nodes hnode hchild)

theorem children_confirmed_chainRun :
    Reachable chainClient (fun _ => true) chainRun ∧
      ∀ node ∈ chainRun.nodeIter, ∀ child ∈ node.children,
        node.number < child.number ∧ chainClient node.hash child.hash = .ok true :=
  have h := reachable_chainRun (fun _ => true) fun _ _ _ => rfl
  ⟨h, children_confirmed_of_reachable h⟩

/-- Over every run without `finalize_with_descendent_if`, every block that `iter` yields is
above the best finalized number. -/
theorem iter_above_finalized_of_reachable (h : Reachable isDescendentOf Op.keepsFinality t) :
    ∀ best, t.bestFinalizedNumber = some best → ∀ entry ∈ t.iter, best < entry.2.1 := by
  intro best hbest entry hentry
  rw [iter_eq_entries] at hentry
  exact h.aboveFinalized best hbest entry hentry

theorem iter_above_finalized_chainRun :
    Reachable chainClient Op.keepsFinality (chainRun.finalizeRoot 1).1 ∧
      ∀ best, (chainRun.finalizeRoot 1).1.bestFinalizedNumber = some best →
        ∀ entry ∈ (chainRun.finalizeRoot 1).1.iter, best < entry.2.1 :=
  have h := Reachable.step (.finalizeRoot 1) rfl
    (reachable_chainRun Op.keepsFinality fun _ _ _ => rfl) rfl
  ⟨h, iter_above_finalized_of_reachable h⟩

/-- From every tree such a run reaches, no operation of it moves the best finalized number
back; `finalize_root`, which checks nothing against it, only finds roots above it. -/
theorem best_finalized_monotone (h : Reachable isDescendentOf Op.keepsFinality t)
    {op : Op H N V} {t' : ForkTree H N V} (hop : op.keepsFinality = true)
    (happly : op.apply isDescendentOf t = some t') :
    ∀ best, t.bestFinalizedNumber = some best →
      ∃ best', t'.bestFinalizedNumber = some best' ∧ best ≤ best' :=
  (finalized_apply hop happly).best_le h.aboveFinalized

theorem best_finalized_monotone_chainRun :
    Reachable chainClient Op.keepsFinality (chainRun.finalizeRoot 1).1 ∧
      (Op.finalizeRoot 2 : Op ℕ ℕ ℕ).keepsFinality = true ∧
      (Op.finalizeRoot 2).apply chainClient (chainRun.finalizeRoot 1).1 =
        some ((chainRun.finalizeRoot 1).1.finalizeRoot 2).1 ∧
      ∀ best, (chainRun.finalizeRoot 1).1.bestFinalizedNumber = some best →
        ∃ best', ((chainRun.finalizeRoot 1).1.finalizeRoot 2).1.bestFinalizedNumber = some best' ∧
          best ≤ best' :=
  have h := Reachable.step (.finalizeRoot 1) rfl
    (reachable_chainRun Op.keepsFinality fun _ _ _ => rfl) rfl
  have hop : (Op.finalizeRoot 2 : Op ℕ ℕ ℕ).keepsFinality = true := rfl
  have happly : (Op.finalizeRoot 2).apply chainClient (chainRun.finalizeRoot 1).1 =
      some ((chainRun.finalizeRoot 1).1.finalizeRoot 2).1 := rfl
  ⟨h, hop, happly, best_finalized_monotone h hop happly⟩

end Runs

/-! ## What a successful finalization leaves -/

section Finalization

def chainTree : ForkTree ℕ ℕ ℕ :=
  ⟨[⟨1, 1, 10, [⟨2, 2, 20, [⟨3, 3, 30, []⟩]⟩]⟩], none⟩

theorem edgesChecked_chainTree : EdgesChecked chainClient chainTree := by
  unfold EdgesChecked
  decide

variable {isDescendentOf : H → H → Except E Bool} {t t' : ForkTree H N V} {hash : H}
  {number : N} {res : FinalizationResult V}

omit [DecidableEq H] in
theorem EdgesChecked.children_descend (hedges : EdgesChecked isDescendentOf t)
    {node : Node H N V} (hnode : node ∈ t.nodes) (hhash : node.hash = hash) :
    ∀ root ∈ (⟨node.children, some node.number⟩ : ForkTree H N V).roots,
      isDescendentOf hash root.hash = .ok true ∧
        ∀ best, some node.number = some best → best < root.number := by
  intro child hchild
  refine ⟨hhash ▸ hedges.descends hnode hchild, ?_⟩
  rintro best ⟨⟩
  exact hedges.lt hnode hchild

/-- After a successful `finalize` on a tree whose edges the client confirmed, every root left
descends from the block by the client's word and is above the best finalized number. -/
theorem finalize_roots_descend (hedges : EdgesChecked isDescendentOf t)
    (h : t.finalize isDescendentOf hash number = (t', .ok res)) :
    ∀ root ∈ t'.roots, isDescendentOf hash root.hash = .ok true ∧
      ∀ best, t'.bestFinalizedNumber = some best → best < root.number := by
  rcases finalize_cases h with ⟨_, _, _, _, herr⟩ | ⟨root, hmem, hhash, rfl⟩ |
    ⟨kept, -, hkept, rfl, -⟩
  · cases herr
  · exact hedges.children_descend (mem_nodes_of_mem_roots hmem) hhash
  · intro root hroot
    refine ⟨(hkept root hroot).2, ?_⟩
    rintro best ⟨⟩
    exact (hkept root hroot).1

theorem finalize_roots_descend_chainTree :
    EdgesChecked chainClient chainTree ∧
      chainTree.finalize chainClient 1 1 =
        (⟨[⟨2, 2, 20, [⟨3, 3, 30, []⟩]⟩], some 1⟩, .ok (.changed (some 10))) ∧
      ∀ root ∈ (⟨[⟨2, 2, 20, [⟨3, 3, 30, []⟩]⟩], some 1⟩ : ForkTree ℕ ℕ ℕ).roots,
        chainClient 1 root.hash = .ok true ∧ ∀ best, some 1 = some best → best < root.number :=
  have h : chainTree.finalize chainClient 1 1 =
      (⟨[⟨2, 2, 20, [⟨3, 3, 30, []⟩]⟩], some 1⟩, .ok (.changed (some 10))) := rfl
  ⟨edgesChecked_chainTree, h, finalize_roots_descend edgesChecked_chainTree h⟩

/-- The same for `finalize_with_ancestors`, which also finalizes a block below the roots. -/
theorem finalizeWithAncestors_roots_descend (hedges : EdgesChecked isDescendentOf t)
    (h : t.finalizeWithAncestors isDescendentOf hash number = (t', .ok res)) :
    ∀ root ∈ t'.roots, isDescendentOf hash root.hash = .ok true ∧
      ∀ best, t'.bestFinalizedNumber = some best → best < root.number := by
  rcases finalizeWithAncestors_cases h with ⟨_, _, _, _, herr⟩ | ⟨node, hnode, hhash, rfl⟩ |
    ⟨roots, hroots, rfl, -⟩
  · cases herr
  · exact hedges.children_descend hnode hhash
  · intro root hroot
    refine ⟨(hroots root hroot).2.2, ?_⟩
    rintro best ⟨⟩
    exact (hroots root hroot).2.1

/-- Block `2` finalized in the chain `1 → 2 → 3`: no root has its hash, so the loop opens root
`1`, the block's ancestor, and then finds block `2` among the roots; block `3` is left. -/
theorem finalizeWithAncestors_roots_descend_chainTree :
    EdgesChecked chainClient chainTree ∧
      chainTree.finalizeWithAncestors chainClient 2 2 =
        (⟨[⟨3, 3, 30, []⟩], some 2⟩, .ok (.changed (some 20))) ∧
      ∀ root ∈ (⟨[⟨3, 3, 30, []⟩], some 2⟩ : ForkTree ℕ ℕ ℕ).roots,
        chainClient 2 root.hash = .ok true ∧ ∀ best, some 2 = some best → best < root.number :=
  have hopen : finalizeWithAncestorsLoop chainClient 2 2 chainTree.roots 0 false =
      finalizeWithAncestorsLoop chainClient 2 2 [⟨2, 2, 20, [⟨3, 3, 30, []⟩]⟩] 0 true := by
    rw [finalizeWithAncestorsLoop]
    rfl
  have hfound : finalizeWithAncestorsLoop chainClient 2 2 [⟨2, 2, 20, [⟨3, 3, 30, []⟩]⟩] 0 true =
      ([⟨2, 2, 20, [⟨3, 3, 30, []⟩]⟩], .ok (.inl ⟨2, 2, 20, [⟨3, 3, 30, []⟩]⟩)) := by
    rw [finalizeWithAncestorsLoop]
    rfl
  have h : chainTree.finalizeWithAncestors chainClient 2 2 =
      (⟨[⟨3, 3, 30, []⟩], some 2⟩, .ok (.changed (some 20))) := by
    unfold finalizeWithAncestors
    rw [hopen, hfound]
    rfl
  ⟨edgesChecked_chainTree, h, finalizeWithAncestors_roots_descend edgesChecked_chainTree h⟩

end Finalization

end ZeroNet.ForkTree
