import ZeroNet.RustVec
import Mathlib.Order.Basic
import Mathlib.Data.List.Sort

/-!
# The fork tree

`ForkTree` stores the blocks of several forks, each with some data, so that a node's children
are blocks that descend from it. Importing places a block under the deepest node it descends
from; finalizing a block prunes the forks that compete with it and refuses anything at or below
the best finalized number. Ancestry comes from outside, as a function
`is_descendent_of base target` that may fail with a client error; nothing here assumes that it
answers consistently.

A method on `&mut self` returns the tree it leaves behind with its result, also when it fails.
`finalize`, `finalize_with_ancestors`, `finalize_with_descendent_if` and `prune` take the roots
out of the tree before a loop that may fail, and what that loop has put back is what the tree
keeps. A panic (`expect` on `None`, an index out of bounds) is `none` of an outer `Option`. A
vector is a list; the iterators' stacks are lists with their top first.
-/

namespace ZeroNet

namespace ForkTree

inductive Error (E : Type) where
  | duplicate
  | unfinalizedAncestor
  | revert
  | client (err : E)
  deriving DecidableEq, Repr

inductive FinalizationResult (V : Type) where
  | changed (data : Option V)
  | unchanged
  deriving DecidableEq, Repr

inductive FindOutcome (T : Type) where
  | found (t : T)
  /-- Not the node searched for; whether the block descends from it. -/
  | failure (descendent : Bool)
  | abort
  deriving DecidableEq, Repr

structure Node (H N V : Type) where
  hash : H
  number : N
  data : V
  children : List (Node H N V)

variable {H N V E : Type}

/-- `?` on an answer of `is_descendent_of`: a client error becomes `Error::Client`. -/
def client (r : Except E Bool) : Except (Error E) Bool :=
  r.mapError .client

namespace Node

def entry (node : Node H N V) : H × N × V :=
  (node.hash, node.number, node.data)

mutual
def maxDepth : Node H N V → ℕ
  | ⟨_, _, _, children⟩ => maxDepthLoop children 0 + 1
def maxDepthLoop : List (Node H N V) → ℕ → ℕ
  | [], m => m
  | node :: nodes, m => maxDepthLoop nodes (node.maxDepth.max m)
end

mutual
def count : Node H N V → ℕ
  | ⟨_, _, _, children⟩ => countList children + 1
def countList : List (Node H N V) → ℕ
  | [] => 0
  | node :: nodes => node.count + countList nodes
end

theorem countList_append (l₁ l₂ : List (Node H N V)) :
    countList (l₁ ++ l₂) = countList l₁ + countList l₂ := by
  induction l₁ with
  | nil => simp [countList]
  | cons node nodes ih =>
    simp only [List.cons_append, countList, ih]
    omega

theorem countList_eq_of_perm {l₁ l₂ : List (Node H N V)} (h : l₁.Perm l₂) :
    countList l₁ = countList l₂ := by
  induction h with
  | nil => rfl
  | cons x _ ih => simp only [countList, ih]
  | swap x y l =>
    simp only [countList]
    omega
  | trans _ _ ih₁ ih₂ => exact ih₁.trans ih₂

/-- `sort_by_key(|n| Reverse(n.max_depth()))`, a stable sort with the deepest branch first. -/
def sortByDepth (nodes : List (Node H N V)) : List (Node H N V) :=
  nodes.mergeSort fun a b => decide (b.maxDepth ≤ a.maxDepth)

theorem sizeOf_lt_of_mem_sortByDepth {node : Node H N V} {nodes : List (Node H N V)}
    (h : node ∈ sortByDepth nodes) : sizeOf node < sizeOf nodes :=
  List.sizeOf_lt_of_mem ((List.mergeSort_perm _ _).mem_iff.1 h)

/-- `Node::rebalance`: the children sorted, then each rebalanced. -/
def rebalance : Node H N V → Node H N V
  | ⟨hash, number, data, children⟩ =>
    ⟨hash, number, data, (sortByDepth children).attach.map fun ⟨child, _⟩ => child.rebalance⟩
termination_by node => sizeOf node
decreasing_by
  have := sizeOf_lt_of_mem_sortByDepth (by assumption)
  simp only [Node.mk.sizeOf_spec]
  omega

def map {VT : Type} (f : H → N → V → VT) : Node H N V → Node H N VT
  | ⟨hash, number, data, children⟩ => ⟨hash, number, f hash number data, mapList children⟩
where
  mapList : List (Node H N V) → List (Node H N VT)
    | [] => []
    | node :: nodes => node.map f :: mapList nodes

end Node

variable [DecidableEq H] [LinearOrder N]

mutual
/-- `Node::import`: the node after the import, and the block handed back when it is not placed
in this subtree (`Some((hash, number, data))`); `none` means it was placed. -/
def Node.import (isDescendentOf : H → H → Except E Bool) (hash : H) (number : N) (data : V) :
    Node H N V → Except (Error E) (Node H N V × Option (H × N × V))
  | ⟨selfHash, selfNumber, selfData, children⟩ =>
    if selfHash = hash then .error .duplicate
    else if number ≤ selfNumber then
      pure (⟨selfHash, selfNumber, selfData, children⟩, some (hash, number, data))
    else do
      match ← Node.importChildren isDescendentOf children hash number data with
      | (children, none) => pure (⟨selfHash, selfNumber, selfData, children⟩, none)
      | (children, some (hash, number, data)) =>
        if ← client (isDescendentOf selfHash hash) then
          pure (⟨selfHash, selfNumber, selfData, children ++ [⟨hash, number, data, []⟩]⟩, none)
        else pure (⟨selfHash, selfNumber, selfData, children⟩, some (hash, number, data))
/-- The loop of `Node::import` over the children: each gets the block in turn until one
places it. -/
def Node.importChildren (isDescendentOf : H → H → Except E Bool) :
    List (Node H N V) → H → N → V →
      Except (Error E) (List (Node H N V) × Option (H × N × V))
  | [], hash, number, data => pure ([], some (hash, number, data))
  | node :: nodes, hash, number, data => do
    match ← node.import isDescendentOf hash number data with
    | (node, some (hash, number, data)) =>
      let (nodes, r) ← Node.importChildren isDescendentOf nodes hash number data
      pure (node :: nodes, r)
    | (node, none) => pure (node :: nodes, none)
end

namespace Node

mutual
/-- `Node::find_node_index_where`: the path to the deepest node of the subtree that the block
descends from and whose data passes the predicate, child indices from last to first. -/
def findNodeIndexWhere (isDescendentOf : H → H → Except E Bool) (hash : H) (number : N)
    (predicate : V → Bool) : Node H N V → Except (Error E) (FindOutcome (List ℕ))
  | ⟨selfHash, selfNumber, selfData, children⟩ =>
    if number < selfNumber then pure (.failure false)
    else do
      match ← findInChildren isDescendentOf hash number predicate children 0 with
      | .abort => pure .abort
      | .found x => pure (.found x)
      | .failure knownDescendentOf =>
        let isDescendent ← if knownDescendentOf then pure true
          else client (isDescendentOf selfHash hash)
        if isDescendent && predicate selfData then pure (.found [])
        else pure (.failure isDescendent)
/-- The loop of `find_node_index_where` over the children from index `i` on. It ends in
`Failure(b)` with `b` the value of `known_descendent_of`: a child the block descends from
ends the search among the children. -/
def findInChildren (isDescendentOf : H → H → Except E Bool) (hash : H) (number : N)
    (predicate : V → Bool) : List (Node H N V) → ℕ → Except (Error E) (FindOutcome (List ℕ))
  | [], _ => pure (.failure false)
  | node :: nodes, i => do
    match ← node.findNodeIndexWhere isDescendentOf hash number predicate with
    | .abort => pure .abort
    | .found x => pure (.found (x ++ [i]))
    | .failure true => pure (.failure true)
    | .failure false => findInChildren isDescendentOf hash number predicate nodes (i + 1)
end

end Node

/-- The walk down a path of child indices, first step first (`cur = &cur.children[i]` as the
indices are popped); `none` is a panic, an index out of bounds. -/
def descend : Node H N V → List ℕ → Option (Node H N V)
  | node, [] => some node
  | node, i :: path => node.children[i]? >>= fun child => descend child path

/-- `Node::find_node_where`: the search by indices, then the walk down the path found. -/
def Node.findNodeWhere (isDescendentOf : H → H → Except E Bool) (hash : H) (number : N)
    (predicate : V → Bool) (node : Node H N V) :
    Except (Error E) (FindOutcome (Option (Node H N V))) := do
  match ← node.findNodeIndexWhere isDescendentOf hash number predicate with
  | .abort => pure .abort
  | .failure f => pure (.failure f)
  | .found indexes => pure (.found (descend node indexes.reverse))

/-- The walk of `prune` down a path of indices, first step first: the node at its end is
taken out of its siblings with `Vec::remove`. `none` is a panic: an index out of bounds, or an
empty path, which leaves `root` at `None` for the `expect`. -/
def detach : List (Node H N V) → List ℕ → Option (Node H N V × List (Node H N V))
  | _, [] => none
  | nodes, [i] => if h : i < nodes.length then some (Rust.Vec.remove nodes i h) else none
  | nodes, i :: j :: path =>
    if h : i < nodes.length then
      (detach nodes[i].children (j :: path)).map fun (root, children) =>
        (root, nodes.set i { nodes[i] with children := children })
    else none

/-- The stack loop of `ForkTreeIterator` and `RemovedIterator`, top first: a node is yielded
and its children go on the stack, the first on top. -/
def nodeIterFrom : List (Node H N V) → List (Node H N V)
  | [] => []
  | node :: stack => node :: nodeIterFrom (node.children ++ stack)
termination_by stack => Node.countList stack
decreasing_by
  obtain ⟨hash, number, data, children⟩ := node
  simp only [Node.countList, Node.count, Node.countList_append]
  omega

end ForkTree

structure ForkTree (H N V : Type) where
  roots : List (ForkTree.Node H N V)
  bestFinalizedNumber : Option N

namespace ForkTree

variable {H N V E : Type}

def new : ForkTree H N V := ⟨[], none⟩

/-- `ForkTree::roots`. -/
def rootEntries (t : ForkTree H N V) : List (H × N × V) :=
  t.roots.map Node.entry

/-- `ForkTree::node_iter`: the roots go on the stack, the first on top. -/
def nodeIter (t : ForkTree H N V) : List (Node H N V) :=
  nodeIterFrom t.roots

def iter (t : ForkTree H N V) : List (H × N × V) :=
  (nodeIter t).map Node.entry

/-- `RemovedIterator { stack: removed }`: the top of the vector is its last element. -/
def removedIter (removed : List (Node H N V)) : List (H × N × V) :=
  (nodeIterFrom removed.reverse).map Node.entry

def rebalance (t : ForkTree H N V) : ForkTree H N V :=
  { t with roots := (Node.sortByDepth t.roots).map Node.rebalance }

def map {VT : Type} (f : H → N → V → VT) (t : ForkTree H N V) : ForkTree H N VT :=
  ⟨t.roots.map (Node.map f), t.bestFinalizedNumber⟩

theorem countList_swapRemove_lt (roots : List (Node H N V)) (idx : ℕ) (h : idx < roots.length) :
    Node.countList (Rust.Vec.swapRemove roots idx h).2 +
        Node.countList (Rust.Vec.swapRemove roots idx h).1.children < Node.countList roots := by
  rw [← Node.countList_eq_of_perm (Rust.Vec.swapRemove_perm roots idx h)]
  change _ < Node.count _ + _
  obtain ⟨hash, number, data, children⟩ := (Rust.Vec.swapRemove roots idx h).1
  simp only [Node.count]
  omega

variable [DecidableEq H] [LinearOrder N]

/-- The check that opens `import` and the finalizations: a block at or below the best
finalized number is a revert. -/
def checkRevert (t : ForkTree H N V) (number : N) : Except (Error E) Unit :=
  match t.bestFinalizedNumber with
  | some best => if number ≤ best then .error .revert else pure ()
  | none => pure ()

/-- The loop of `ForkTree::import` over the roots. It checks each root's hash before handing
the block on, which `Node::import` checks again. -/
def importRoots (isDescendentOf : H → H → Except E Bool) :
    List (Node H N V) → H → N → V →
      Except (Error E) (List (Node H N V) × Option (H × N × V))
  | [], hash, number, data => pure ([], some (hash, number, data))
  | root :: roots, hash, number, data =>
    if root.hash = hash then .error .duplicate
    else do
      match ← root.import isDescendentOf hash number data with
      | (root, some (hash, number, data)) =>
        let (roots, r) ← importRoots isDescendentOf roots hash number data
        pure (root :: roots, r)
      | (root, none) => pure (root :: roots, none)

/-- `ForkTree::import`: whether the block became a root. A failed import leaves the tree as it
was, since every write comes after the last check that can fail. -/
def «import» (isDescendentOf : H → H → Except E Bool) (t : ForkTree H N V) (hash : H)
    (number : N) (data : V) : ForkTree H N V × Except (Error E) Bool :=
  match checkRevert t number *> importRoots isDescendentOf t.roots hash number data with
  | .error e => (t, .error e)
  | .ok (roots, none) => (rebalance { t with roots := roots }, .ok false)
  | .ok (roots, some (hash, number, data)) =>
    (rebalance { t with roots := roots ++ [⟨hash, number, data, []⟩] }, .ok true)

/-- `ForkTree::find_node_index_where`: the first root whose subtree has the node, and the path
to it with the root's index last. -/
def findNodeIndexWhere (isDescendentOf : H → H → Except E Bool) (t : ForkTree H N V)
    (hash : H) (number : N) (predicate : V → Bool) : Except (Error E) (Option (List ℕ)) :=
  loop t.roots 0
where
  loop : List (Node H N V) → ℕ → Except (Error E) (Option (List ℕ))
    | [], _ => pure none
    | root :: roots, index => do
      match ← root.findNodeIndexWhere isDescendentOf hash number predicate with
      | .found node => pure (some (node ++ [index]))
      | _ => loop roots (index + 1)

/-- `ForkTree::find_node_where`, with `none` inside for the panic of a walk out of bounds. -/
def findNodeWhere (isDescendentOf : H → H → Except E Bool) (t : ForkTree H N V) (hash : H)
    (number : N) (predicate : V → Bool) : Except (Error E) (Option (Option (Node H N V))) :=
  loop t.roots
where
  loop : List (Node H N V) → Except (Error E) (Option (Option (Node H N V)))
    | [] => pure none
    | root :: roots => do
      match ← root.findNodeWhere isDescendentOf hash number predicate with
      | .found node => pure (some node)
      | _ => loop roots

/-- `ForkTree::finalize_root_at`: the root at `position` is taken out, its children become the
roots and its number the best finalized one. -/
def finalizeRootAt (t : ForkTree H N V) (position : ℕ) (h : position < t.roots.length) :
    ForkTree H N V × V :=
  let node := (Rust.Vec.swapRemove t.roots position h).1
  (⟨node.children, some node.number⟩, node.data)

def finalizeRoot (t : ForkTree H N V) (hash : H) : ForkTree H N V × Option V :=
  match hp : t.roots.findIdx? (fun node => node.hash == hash) with
  | some position =>
    let (t, data) := finalizeRootAt t position (List.findIdx?_eq_some_iff_findIdx_eq.1 hp).1
    (t, some data)
  | none => (t, none)

/-- The check of the finalizations that no node the block descends from is passed over:
`before` picks the nodes to ask about, and one the block descends from is an unfinalized
ancestor. -/
def checkAncestors (isDescendentOf : H → H → Except E Bool) (hash : H)
    (before : Node H N V → Bool) : List (Node H N V) → Except (Error E) Unit
  | [] => pure ()
  | node :: nodes => do
    if before node then
      if ← client (isDescendentOf node.hash hash) then throw .unfinalizedAncestor
    checkAncestors isDescendentOf hash before nodes

/-- The loop of the finalizations over the roots taken out of the tree: a root goes back when
`retain` says so, and the flag records that one was dropped. When `retain` fails, the roots put
back so far are all the tree keeps. -/
def retainRoots (retain : Node H N V → Except (Error E) Bool) :
    List (Node H N V) → List (Node H N V) × Except (Error E) Bool
  | [] => ([], .ok false)
  | root :: roots =>
    match retain root with
    | .error e => ([], .error e)
    | .ok true =>
      let (kept, r) := retainRoots retain roots
      (root :: kept, r)
    | .ok false =>
      let (kept, r) := retainRoots retain roots
      (kept, r.map fun _ => true)

def changedOrUnchanged (changed : Bool) : FinalizationResult V :=
  if changed then .changed none else .unchanged

def finalize (isDescendentOf : H → H → Except E Bool) (t : ForkTree H N V) (hash : H)
    (number : N) : ForkTree H N V × Except (Error E) (FinalizationResult V) :=
  match checkRevert t number with
  | .error e => (t, .error e)
  | .ok () =>
    match finalizeRoot t hash with
    | (t', some root) => (t', .ok (.changed (some root)))
    | (_, none) =>
      match checkAncestors isDescendentOf hash (fun root => root.number < number) t.roots with
      | .error e => (t, .error e)
      | .ok () =>
        let retain root :=
          if number < root.number then client (isDescendentOf hash root.hash) else pure false
        match retainRoots retain t.roots with
        | (roots, .error e) => ({ t with roots := roots }, .error e)
        | (roots, .ok changed) => (⟨roots, some number⟩, .ok (changedOrUnchanged changed))

/-- What a pass of the loop of `finalize_with_ancestors` finds out about a root: whether it is
the finalized block, one of its descendants, or one of its ancestors. -/
def classifyRoot (isDescendentOf : H → H → Except E Bool) (hash : H) (number : N)
    (root : Node H N V) : Except (Error E) (Bool × Bool × Bool) := do
  let isFinalized := root.hash == hash
  let isDescendant ←
    if !isFinalized && number < root.number then client (isDescendentOf hash root.hash)
    else pure false
  let isAncestor ←
    if !isFinalized && !isDescendant && root.number < number then
      client (isDescendentOf root.hash hash)
    else pure false
  pure (isFinalized, isDescendant, isAncestor)

/-- The `while idx != self.roots.len()` loop of `finalize_with_ancestors` from `idx` on, with
the roots it leaves: `inl` the root that is the finalized block, `inr` whether a root was
removed. A root the block descends from is opened, its children joining the roots, and a root
that is neither an ancestor nor a descendant is dropped with its subtree. -/
def finalizeWithAncestorsLoop (isDescendentOf : H → H → Except E Bool) (hash : H) (number : N)
    (roots : List (Node H N V)) (idx : ℕ) (changed : Bool) :
    List (Node H N V) × Except (Error E) (Node H N V ⊕ Bool) :=
  if h : idx < roots.length then
    match classifyRoot isDescendentOf hash number roots[idx] with
    | .error e => (roots, .error e)
    | .ok (true, _, _) => (roots, .ok (.inl roots[idx]))
    | .ok (false, true, _) =>
      finalizeWithAncestorsLoop isDescendentOf hash number roots (idx + 1) changed
    | .ok (false, false, true) =>
      finalizeWithAncestorsLoop isDescendentOf hash number
        ((Rust.Vec.swapRemove roots idx h).2 ++ (Rust.Vec.swapRemove roots idx h).1.children) idx
        true
    | .ok (false, false, false) =>
      finalizeWithAncestorsLoop isDescendentOf hash number (Rust.Vec.swapRemove roots idx h).2
        idx true
  else (roots, .ok (.inr changed))
termination_by (Node.countList roots, roots.length - idx)
decreasing_by
  · exact Prod.Lex.right _ (by omega)
  · apply Prod.Lex.left
    have := countList_swapRemove_lt roots idx h
    rw [Node.countList_append]
    omega
  · apply Prod.Lex.left
    have := countList_swapRemove_lt roots idx h
    omega

def finalizeWithAncestors (isDescendentOf : H → H → Except E Bool) (t : ForkTree H N V)
    (hash : H) (number : N) : ForkTree H N V × Except (Error E) (FinalizationResult V) :=
  match checkRevert t number with
  | .error e => (t, .error e)
  | .ok () =>
    match finalizeRoot t hash with
    | (t', some root) => (t', .ok (.changed (some root)))
    | (_, none) =>
      match finalizeWithAncestorsLoop isDescendentOf hash number t.roots 0 false with
      | (roots, .error e) => ({ t with roots := roots }, .error e)
      -- `finalize_root_at(idx)`: the other roots go
      | (_, .ok (.inl node)) => (⟨node.children, some node.number⟩, .ok (.changed (some node.data)))
      | (roots, .ok (.inr changed)) => (⟨roots, some number⟩, .ok (changedOrUnchanged changed))

/-- The search of `finalizes_any_with_descendent_if` over the nodes in pre-order: the first
node that passes the predicate and is the block or one it descends from decides, and a child of
it at or below the block's number that the block descends from is an unfinalized ancestor. The
answer is whether that node is a root. -/
def finalizesAnyLoop (isDescendentOf : H → H → Except E Bool) (roots : List (Node H N V))
    (hash : H) (number : N) (predicate : V → Bool) :
    List (Node H N V) → Except (Error E) (Option Bool)
  | [] => pure none
  | node :: nodes => do
    if predicate node.data then
      if ← (if node.hash = hash then pure true else client (isDescendentOf node.hash hash)) then
        checkAncestors isDescendentOf hash (fun child => child.number ≤ number) node.children
        return some (roots.any fun root => root.hash == node.hash)
    finalizesAnyLoop isDescendentOf roots hash number predicate nodes

def finalizesAnyWithDescendentIf (isDescendentOf : H → H → Except E Bool) (t : ForkTree H N V)
    (hash : H) (number : N) (predicate : V → Bool) : Except (Error E) (Option Bool) := do
  checkRevert t number
  finalizesAnyLoop isDescendentOf t.roots hash number predicate (nodeIter t)

/-- The search of `finalize_with_descendent_if` for the position of the root to finalize: the
first that passes the predicate and is the block or one it descends from, with no child at or
below the block's number that the block descends from. -/
def findRootPosition (isDescendentOf : H → H → Except E Bool) (hash : H) (number : N)
    (predicate : V → Bool) : List (Node H N V) → ℕ → Except (Error E) (Option ℕ)
  | [], _ => pure none
  | root :: roots, i => do
    if predicate root.data then
      if ← (if root.hash = hash then pure true else client (isDescendentOf root.hash hash)) then
        checkAncestors isDescendentOf hash (fun child => child.number ≤ number) root.children
        return some i
    findRootPosition isDescendentOf hash number predicate roots (i + 1)

/-- Whether `finalize_with_descendent_if` keeps a root: one the block descends from and above
it, the block itself, or one it descends from. -/
def retainDescendent (isDescendentOf : H → H → Except E Bool) (hash : H) (number : N)
    (root : Node H N V) : Except (Error E) Bool := do
  if ← (if number < root.number then client (isDescendentOf hash root.hash) else pure false) then
    return true
  if root.number = number ∧ root.hash = hash then return true
  client (isDescendentOf root.hash hash)

def finalizeWithDescendentIf (isDescendentOf : H → H → Except E Bool) (t : ForkTree H N V)
    (hash : H) (number : N) (predicate : V → Bool) :
    ForkTree H N V × Except (Error E) (FinalizationResult V) :=
  match checkRevert t number *> findRootPosition isDescendentOf hash number predicate t.roots 0 with
  | .error e => (t, .error e)
  | .ok position =>
    -- the root at the position found is finalized first
    let (t, nodeData) : ForkTree H N V × Option V :=
      match position with
      | some i =>
        if h : i < t.roots.length then
          let node := (Rust.Vec.swapRemove t.roots i h).1
          (⟨node.children, some node.number⟩, some node.data)
        else (t, none)
      | none => (t, none)
    match retainRoots (retainDescendent isDescendentOf hash number) t.roots with
    | (roots, .error e) => ({ t with roots := roots }, .error e)
    | (roots, .ok changed) =>
      (⟨roots, some number⟩, .ok (match nodeData with
        | some data => .changed (some data)
        | none => changedOrUnchanged changed))

/-- The loop of `prune` over the new root's children: the first that is the block or one it
descends from stays, and every other child goes to the removed nodes. -/
def pruneChildren (isDescendentOf : H → H → Except E Bool) (hash : H) (number : N) :
    List (Node H N V) → Bool → List (Node H N V) × List (Node H N V) × Except (Error E) Unit
  | [], _ => ([], [], .ok ())
  | child :: children, isFirst =>
    let keep : Except (Error E) Bool :=
      if isFirst then
        if child.number = number ∧ child.hash = hash then pure true
        else if child.number < number then client (isDescendentOf child.hash hash)
        else pure false
      else pure false
    match keep with
    | .error e => ([], [], .error e)
    | .ok true =>
      let (kept, removed, r) := pruneChildren isDescendentOf hash number children false
      (child :: kept, removed, r)
    | .ok false =>
      let (kept, removed, r) := pruneChildren isDescendentOf hash number children isFirst
      (kept, child :: removed, r)

/-- `ForkTree::prune`: the tree re-rooted at the deepest node the block descends from that
passes the predicate, and the nodes removed, as `RemovedIterator` yields them. -/
def prune (isDescendentOf : H → H → Except E Bool) (t : ForkTree H N V) (hash : H)
    (number : N) (predicate : V → Bool) :
    Option (ForkTree H N V × Except (Error E) (List (H × N × V))) :=
  match t.findNodeIndexWhere isDescendentOf hash number predicate with
  | .error e => some (t, .error e)
  | .ok none => some (rebalance t, .ok (removedIter []))
  | .ok (some rootIndex) => do
    let (root, oldRoots) ← detach t.roots rootIndex.reverse
    match pruneChildren isDescendentOf hash number root.children true with
    -- the roots were taken out of the tree, and nothing puts them back
    | (_, _, .error e) => some ({ t with roots := [] }, .error e)
    | (kept, removed, .ok ()) =>
      some (rebalance { t with roots := [{ root with children := kept }] },
        .ok (removedIter (oldRoots ++ removed)))

end ForkTree

end ZeroNet
