import Fastore.Tree.Scalar

/-!
The B-tree of the store, as the code has it: nodes in a heap, each a
counter over raw arrays, joined by pointers.

A leaf holds `count` keys and, unless the tree is key-only, as many
values; a branch holds `count` separators and one more child pointer. The
arrays are slot functions (`Fastore.Lib.Slots`), and memory that was never
written is whatever the allocator handed out (`rawKeys`, `rawValues`,
`rawNodes`). Node addresses are natural numbers and `next` is the first
one never used.

Everything that can go wrong is a `Fault`: an exception, a value array
that is absent, and a pointer that does not lead to a node of the kind it
is taken for. A pointer to a key, which the code hands around to copy from
later, is the key itself. Releasing a node sets its cell to `none`. The
recursions through child pointers are bounded by the number of nodes ever
allocated, beyond which the pointers would have to run in a circle.
-/

namespace Fastore.Tree

open Lib Function

abbrev NodeId := ℕ

inductive Fault
  /-- An exception with its text. -/
  | thrown (message : String)
  /-- The value array of a key-only leaf is read or written. -/
  | nullValues
  /-- Memory that holds no node, or one of the other kind, is used as a node. -/
  | wildNode
  /-- A null pointer is used as a key. -/
  | nullKey
  /-- A recursion that never meets a leaf. -/
  | stackOverflow
  deriving DecidableEq, Repr

structure Leaf (K V : Type) where
  count : ℕ
  keys : ℕ → K
  values : Option (ℕ → V)

/-- A branch: `count` separators and `count + 1` children. -/
structure Branch (K : Type) where
  count : ℕ
  keys : ℕ → K
  children : ℕ → NodeId

inductive Node (K V : Type)
  | leaf (leaf : Leaf K V)
  | branch (branch : Branch K)

def Node.count {K V : Type} : Node K V → ℕ
  | .leaf l => l.count
  | .branch b => b.count

structure PathNode where
  pNode : NodeId
  index : ℕ
  deriving DecidableEq, Repr

structure Path where
  branches : List PathNode
  leaf : NodeId
  leafIndex : ℕ
  isMatch : Bool
  deriving DecidableEq, Repr

def defaultListCapacity : ℕ := 64

structure BTree (K V : Type) [LinearOrder K] where
  keyType : ScalarType K
  keyOnly : Bool
  root : NodeId
  count : ℤ
  listCapacity : ℕ
  /-- The nodes by address. -/
  cells : NodeId → Option (Node K V)
  /-- The first address never handed out. -/
  next : NodeId
  /-- What fresh arrays happen to hold, by the address of their node. -/
  rawKeys : NodeId → ℕ → K
  rawValues : NodeId → ℕ → V
  rawNodes : NodeId → ℕ → NodeId

variable {K V : Type} [LinearOrder K]

/-! ### Memory -/

def BTree.set (t : BTree K V) (p : NodeId) (node : Node K V) : BTree K V :=
  { t with cells := update t.cells p (some node) }

def BTree.free (t : BTree K V) (p : NodeId) : BTree K V :=
  { t with cells := update t.cells p none }

/-- `new Node`: the node takes the next address. -/
def BTree.alloc (t : BTree K V) (node : Node K V) : BTree K V :=
  { t with cells := update t.cells t.next (some node), next := t.next + 1 }

def BTree.newLeaf (t : BTree K V) (count : ℕ) : Leaf K V :=
  ⟨count, t.rawKeys t.next, if t.keyOnly then none else some (t.rawValues t.next)⟩

def BTree.newBranch (t : BTree K V) (count : ℕ) : Branch K :=
  ⟨count, t.rawKeys t.next, t.rawNodes t.next⟩

def BTree.leafAt (t : BTree K V) (p : NodeId) : Except Fault (Leaf K V) :=
  match t.cells p with
  | some (.leaf l) => .ok l
  | _ => .error .wildNode

def BTree.branchAt (t : BTree K V) (p : NodeId) : Except Fault (Branch K) :=
  match t.cells p with
  | some (.branch b) => .ok b
  | _ => .error .wildNode

def BTree.countAt (t : BTree K V) (p : NodeId) : Except Fault ℕ :=
  match t.cells p with
  | some node => .ok node.count
  | none => .error .wildNode

def moveValues (dst : Option (ℕ → V)) (d : ℕ) (src : Option (ℕ → V)) (s n : ℕ) :
    Except Fault (Option (ℕ → V)) :=
  match dst, src with
  | some dst, some src => .ok (some (move dst d src s n))
  | _, _ => .error .nullValues

def putValue (dst : Option (ℕ → V)) (i : ℕ) (value : V) : Except Fault (Option (ℕ → V)) :=
  match dst with
  | some dst => .ok (some (update dst i value))
  | none => .error .nullValues

def Path.at (path : Path) (depth : ℕ) : Except Fault PathNode :=
  match path.branches[depth]? with
  | some pathNode => .ok pathNode
  | none => .error (.thrown "out_of_range")

/-! ### Search -/

/-- `IndexOf` on a leaf: the slot of the key, or the slot it would take. -/
def Leaf.indexOf (t : BTree K V) (l : Leaf K V) (key : K) : ℕ × Bool :=
  let n := t.keyType.indexOf l.keys l.count key
  if 0 ≤ n then (n.toNat, true) else ((-n - 1).toNat, false)

def Branch.indexOf (t : BTree K V) (b : Branch K) (key : K) : ℕ :=
  let result := t.keyType.indexOf b.keys b.count key
  if 0 ≤ result then (result + 1).toNat else (-result - 1).toNat

def Node.getPath (t : BTree K V) (key : K) : ℕ → NodeId → List PathNode → Except Fault Path
  | 0, _, _ => .error .stackOverflow
  | fuel + 1, this, branches =>
    match t.cells this with
    | some (.branch b) =>
      let index := b.indexOf t key
      Node.getPath t key fuel (b.children index) (branches ++ [⟨this, index⟩])
    | some (.leaf l) =>
      let (index, isMatch) := l.indexOf t key
      .ok ⟨branches, this, index, isMatch⟩
    | none => .error .wildNode

def BTree.getPath (t : BTree K V) (key : K) : Except Fault Path :=
  Node.getPath t key t.next t.root []

/-- `GetChildKey`: the first key of the leftmost leaf below a node. -/
def Node.getChildKey (t : BTree K V) : ℕ → NodeId → Except Fault K
  | 0, _ => .error .stackOverflow
  | fuel + 1, this =>
    match t.cells this with
    | some (.branch b) => Node.getChildKey t fuel (b.children 0)
    | some (.leaf l) => .ok (l.keys 0)
    | none => .error .wildNode

def BTree.childKey (t : BTree K V) (this : NodeId) : Except Fault K :=
  Node.getChildKey t t.next this

/-! ### Insertion -/

structure Split (K : Type) where
  key : K
  right : NodeId

def Leaf.internalInsertIndex (t : BTree K V) (l : Leaf K V) (index : ℕ) (key : K) (value : V) :
    Except Fault (Leaf K V) := do
  let size := l.count - index
  let keys := if l.count ≠ index then move l.keys (index + 1) l.keys index size else l.keys
  let values ←
    (if l.count ≠ index ∧ t.keyOnly = false then
      moveValues l.values (index + 1) l.values index size
    else .ok l.values)
  let values ← (if t.keyOnly = false then putValue values index value else .ok values)
  .ok ⟨l.count + 1, update keys index key, values⟩

/-- `InternalInsertIndex` on a branch: the child goes to the right of the key. -/
def Branch.internalInsertIndex (b : Branch K) (index : ℕ) (key : K) (child : NodeId) :
    Branch K :=
  let size := b.count - index
  let keys := if b.count ≠ index then move b.keys (index + 1) b.keys index size else b.keys
  let children :=
    if b.count ≠ index then move b.children (index + 2) b.children (index + 1) size
    else b.children
  ⟨b.count + 1, update keys index key, update children (index + 1) child⟩

/-- The calls `DoValuesMoved` makes for a leaf: each of its values with
the leaf it is in now. -/
def Leaf.valuesMoved (l : Leaf K V) (this : NodeId) : List (V × NodeId) :=
  match l.values with
  | some values => (window values 0 l.count).map fun value => (value, this)
  | none => []

def Leaf.insertHalves (t : BTree K V) (left right : Leaf K V) (index : ℕ) (key : K) (value : V) :
    Except Fault (Leaf K V × Leaf K V) :=
  if index < left.count then do
    let left ← left.internalInsertIndex t index key value
    .ok (left, right)
  else do
    let right ← right.internalInsertIndex t (index - left.count) key value
    .ok (left, right)

/-- `Node::Insert` on a leaf: insert, or split and insert into the half
the index falls into. Returns the split and the calls of the values-moved
callback. -/
def Leaf.insert (t : BTree K V) (this : NodeId) (index : ℕ) (key : K) (value : V) :
    Except Fault (BTree K V × Option (Split K) × List (V × NodeId)) := do
  let l ← t.leafAt this
  if l.count ≠ t.listCapacity then
    let l ← l.internalInsertIndex t index key value
    .ok (t.set this (.leaf l), none, [])
  else
    let node := t.newLeaf ((t.listCapacity + 1) / 2)
    let count := l.count - node.count
    let keys := move node.keys 0 l.keys node.count node.count
    let values ←
      (if t.keyOnly = false then moveValues node.values 0 l.values node.count node.count
      else .ok node.values)
    let left : Leaf K V := ⟨count, l.keys, l.values⟩
    let right : Leaf K V := ⟨node.count, keys, values⟩
    let (left, right) ← Leaf.insertHalves t left right index key value
    .ok ((t.alloc (.leaf right)).set this (.leaf left), some ⟨right.keys 0, t.next⟩,
      right.valuesMoved t.next)

/-- The left half of a branch that is split before child `mid`: the counter
is set, the arrays stay. -/
def Branch.leftHalf (b : Branch K) (mid : ℕ) : Branch K := ⟨mid - 1, b.keys, b.children⟩

def Branch.rightHalf (b node : Branch K) (mid : ℕ) : Branch K :=
  ⟨node.count, move node.keys 0 b.keys mid node.count,
    move node.children 0 b.children mid (node.count + 1)⟩

/-- `Node::Insert` on a branch. The separator of a split is taken from the
leftmost leaf below the new right half. -/
def Branch.insert (t : BTree K V) (this : NodeId) (index : ℕ) (key : K) (child : NodeId) :
    Except Fault (BTree K V × Option (Split K)) := do
  let b ← t.branchAt this
  if b.count ≠ t.listCapacity - 1 then
    .ok (t.set this (.branch (b.internalInsertIndex index key child)), none)
  else
    let mid := (b.count + 1) / 2
    let node := t.newBranch (b.count - mid)
    let right := b.rightHalf node mid
    let left := b.leftHalf mid
    let t' := t.alloc (.branch right)
    let splitKey ← t'.childKey t.next
    let (left, right) :=
      if index ≤ left.count then (left.internalInsertIndex index key child, right)
      else (left, right.internalInsertIndex (index - (left.count + 1)) key child)
    .ok ((t'.set t.next (.branch right)).set this (.branch left), some ⟨splitKey, t.next⟩)

/-- The loop of `BTree::Insert` over the branches of the path, last first. -/
def BTree.insertLoop (t : BTree K V) : List PathNode → Option (Split K) →
    Except Fault (BTree K V × Option (Split K))
  | pathNode :: rest, some split => do
    let (t, result) ← Branch.insert t pathNode.pNode pathNode.index split.key split.right
    BTree.insertLoop t rest result
  | _, result => .ok (t, result)

def BTree.expandRoot (t : BTree K V) : Except Fault (BTree K V) := do
  let root ← t.leafAt t.root
  let temp := t.newLeaf root.count
  let keys := move temp.keys 0 root.keys 0 temp.count
  let values ←
    (if t.keyOnly = false then moveValues temp.values 0 root.values 0 temp.count
    else .ok temp.values)
  .ok { (t.free t.root).alloc (.leaf ⟨temp.count, keys, values⟩) with root := t.next }

/-- The leaf step of `BTree::Insert`: a full root leaf below the default
capacity is replaced by one of twice the capacity first. -/
def BTree.insertLeaf (t : BTree K V) (path : Path) (key : K) (value : V) :
    Except Fault (BTree K V × Option (Split K) × List (V × NodeId)) := do
  let l ← t.leafAt path.leaf
  if t.listCapacity < defaultListCapacity ∧ l.count = t.listCapacity then
    let t ← { t with listCapacity := t.listCapacity * 2 }.expandRoot
    let (t, result, moved) ← Leaf.insert t t.root path.leafIndex key value
    let temp ← t.leafAt t.root
    .ok (t, result, moved ++ temp.valuesMoved t.root)
  else
    Leaf.insert t path.leaf path.leafIndex key value

def BTree.growRoot (t : BTree K V) (split : Split K) : BTree K V :=
  { t.alloc (.branch ⟨1, update (t.newBranch 1).keys 0 split.key,
      update (update (t.newBranch 1).children 0 t.root) 1 split.right⟩) with
    root := t.next }

/-- `BTree::Insert`, with the calls of the values-moved callback. -/
def BTree.insert (t : BTree K V) (path : Path) (key : K) (value : V) :
    Except Fault (BTree K V × List (V × NodeId)) := do
  let (t, result, moved) ← t.insertLeaf path key value
  let (t, result) ← t.insertLoop path.branches.reverse result
  let t :=
    match result with
    | some split => t.growRoot split
    | none => t
  .ok ({ t with count := t.count + 1 }, moved)

/-! ### Deletion -/

def Leaf.delete (t : BTree K V) (l : Leaf K V) (index : ℕ) : Except Fault (Leaf K V) := do
  let size := l.count - index - 1
  let keys := move l.keys index l.keys (index + 1) size
  let values ←
    (if t.keyOnly = false then moveValues l.values index l.values (index + 1) size
    else .ok l.values)
  .ok ⟨l.count - 1, keys, values⟩

/-- `UpdateKey`: renew the separator on the left of child `index`, or, for
the first child, the separator further up the path. The recursion hands
the same node one level further up. -/
def Node.updateKey (path : Path) : ℕ → BTree K V → NodeId → ℕ → Except Fault (BTree K V)
  | depth, t, this, index => do
    let pathNode ← path.at depth
    if index ≠ 0 then
      let b ← t.branchAt this
      let key ← t.childKey (b.children index)
      .ok (t.set this (.branch { b with keys := update b.keys (index - 1) key }))
    else
      match depth with
      -- the first index of the root is not updated
      | 0 => .ok t
      | depth + 1 => Node.updateKey path depth t pathNode.pNode pathNode.index

/-- `BranchDelete`: drop the separator `index` and the child on its right. -/
def Branch.branchDelete (b : Branch K) (index : ℕ) : Branch K :=
  let size := b.count - index
  ⟨b.count - 1, move b.keys index b.keys (index + 1) size,
    move b.children (index + 1) b.children (index + 2) size⟩

def BTree.branchDelete (t : BTree K V) (this : NodeId) (index : ℕ) :
    Except Fault (BTree K V) := do
  let b ← t.branchAt this
  .ok (t.set this (.branch (b.branchDelete index)))

/-- The siblings of child `pIndex`, right and left; `none` is `NULL`. -/
def Branch.rightSib (parent : Branch K) (pIndex : ℕ) : Option NodeId :=
  if pIndex < parent.count then some (parent.children (pIndex + 1)) else none

@[inherit_doc Branch.rightSib]
def Branch.leftSib (parent : Branch K) (pIndex : ℕ) : Option NodeId :=
  if 0 < pIndex then some (parent.children (pIndex - 1)) else none

/-- `sib != NULL && ok(sib->_count)`. -/
def BTree.sibling (t : BTree K V) (sib : Option NodeId) (ok : ℕ → Bool) : Except Fault Bool :=
  match sib with
  | some sib => do
    let count ← t.countAt sib
    .ok (ok count)
  | none => .ok false

/-- `RebalanceLeaf`: borrow the first item of the right sibling. -/
def Leaf.borrowRight (path : Path) (depth : ℕ) (t : BTree K V) (this right parent : NodeId)
    (pIndex : ℕ) : Except Fault (BTree K V) := do
  let l ← t.leafAt this
  let r ← t.leafAt right
  let values ← moveValues l.values l.count r.values 0 1
  let t := t.set this (.leaf ⟨l.count + 1, move l.keys l.count r.keys 0 1, values⟩)
  let values ← moveValues r.values 0 r.values 1 (r.count - 1)
  let t := t.set right (.leaf ⟨r.count - 1, move r.keys 0 r.keys 1 (r.count - 1), values⟩)
  Node.updateKey path depth t parent (pIndex + 1)

/-- `RebalanceLeaf`: borrow the last item of the left sibling. -/
def Leaf.borrowLeft (path : Path) (depth : ℕ) (t : BTree K V) (this left parent : NodeId)
    (pIndex : ℕ) : Except Fault (BTree K V) := do
  let l ← t.leafAt this
  let s ← t.leafAt left
  let keys := move l.keys 1 l.keys 0 l.count
  let values ← moveValues l.values 1 l.values 0 l.count
  let values ← moveValues values 0 s.values (s.count - 1) 1
  let t := t.set this (.leaf ⟨l.count + 1, move keys 0 s.keys (s.count - 1) 1, values⟩)
  let t := t.set left (.leaf { s with count := s.count - 1 })
  Node.updateKey path depth t parent pIndex

/-- `RebalanceLeaf`: take over all items of the right sibling. -/
def Leaf.mergeRight (path : Path) (depth : ℕ) (t : BTree K V) (this right parent : NodeId)
    (pIndex : ℕ) : Except Fault (BTree K V) := do
  let l ← t.leafAt this
  let r ← t.leafAt right
  let values ← moveValues l.values l.count r.values 0 r.count
  let t := t.set this (.leaf ⟨l.count + r.count, move l.keys l.count r.keys 0 r.count, values⟩)
  let t := t.free right
  let t ← t.branchDelete parent pIndex
  if pIndex = 0 then Node.updateKey path depth t parent 0 else .ok t

/-- `RebalanceLeaf`: hand all items to the left sibling. -/
def Leaf.mergeLeft (t : BTree K V) (this left parent : NodeId) (pIndex : ℕ) :
    Except Fault (BTree K V) := do
  let l ← t.leafAt this
  let s ← t.leafAt left
  let values ← moveValues s.values s.count l.values 0 l.count
  let t := t.set left (.leaf ⟨s.count + l.count, move s.keys s.count l.keys 0 l.count, values⟩)
  let t := t.free this
  t.branchDelete parent (pIndex - 1)

/-- `RebalanceBranch`: borrow the first child of the right sibling. -/
def Branch.borrowRight (path : Path) (depth : ℕ) (t : BTree K V) (this right parent : NodeId)
    (pIndex : ℕ) : Except Fault (BTree K V) := do
  let b ← t.branchAt this
  let r ← t.branchAt right
  let key ← t.childKey (r.children 0)
  let t := t.set this (.branch ⟨b.count + 1, update b.keys b.count key,
    move b.children (b.count + 1) r.children 0 1⟩)
  let t := t.set right (.branch ⟨r.count - 1, move r.keys 0 r.keys 1 (r.count - 1),
    move r.children 0 r.children 1 r.count⟩)
  Node.updateKey path depth t parent (pIndex + 1)

/-- `v->GetChildKey()` where `v` is the address of slot 1 of the child
array instead of the node that slot points to: no node lives there. -/
def Branch.getSlotKey (_ : Branch K) : Except Fault K := .error .wildNode

/-- `RebalanceBranch`: borrow the last child of the left sibling. -/
def Branch.borrowLeft (path : Path) (depth : ℕ) (t : BTree K V) (this left parent : NodeId)
    (pIndex : ℕ) : Except Fault (BTree K V) := do
  let b ← t.branchAt this
  let s ← t.branchAt left
  let keys := move b.keys 1 b.keys 0 b.count
  -- `_count` pointers are moved, one less than there are children
  let children := move b.children 1 b.children 0 b.count
  let children := move children 0 s.children s.count 1
  let key ← Branch.getSlotKey ⟨b.count, keys, children⟩
  let t := t.set this (.branch ⟨b.count + 1, update keys 0 key, children⟩)
  let t := t.set left (.branch { s with count := s.count - 1 })
  Node.updateKey path depth t parent pIndex

/-- `RebalanceBranch`: take over all children of the right sibling. -/
def Branch.mergeRight (path : Path) (depth : ℕ) (t : BTree K V) (this right parent : NodeId)
    (pIndex : ℕ) : Except Fault (BTree K V) := do
  let b ← t.branchAt this
  let r ← t.branchAt right
  let keys := move b.keys (b.count + 1) r.keys 0 r.count
  let children := move b.children (b.count + 1) r.children 0 (r.count + 1)
  let key ← t.childKey (r.children 0)
  let t := t.set this (.branch ⟨b.count + (r.count + 1), update keys b.count key,
    children⟩)
  let t := t.free right
  let t ← t.branchDelete parent pIndex
  if pIndex = 0 then Node.updateKey path depth t parent 0 else .ok t

/-- `RebalanceBranch`: hand the children to the left sibling. -/
def Branch.mergeLeft (t : BTree K V) (this left parent : NodeId) (pIndex : ℕ) :
    Except Fault (BTree K V) := do
  let b ← t.branchAt this
  let s ← t.branchAt left
  let keys := move s.keys (s.count + 1) b.keys 0 b.count
  -- `_count` pointers are copied, one less than there are children
  let children := move s.children (s.count + 1) b.children 0 b.count
  let key ← t.childKey (b.children 0)
  let t := t.set left (.branch ⟨s.count + (b.count + 1), update keys s.count key,
    children⟩)
  let t := t.free this
  t.branchDelete parent (pIndex - 1)

/-- `RebalanceBranch`. Returns the new root when the old one is left with
a single child. -/
def Node.rebalanceBranch (path : Path) : ℕ → BTree K V → NodeId →
    Except Fault (BTree K V × Option NodeId)
  | 0, t, this => do
    let b ← t.branchAt this
    if b.count = 0 then .ok (t.free this, some (b.children 0)) else .ok (t, none)
  | depth + 1, t, this => do
    let half := t.listCapacity / 2
    let b ← t.branchAt this
    if half ≤ b.count + 1 then .ok (t, none)
    else
      let ⟨pNode, pIndex⟩ ← path.at depth
      let parent ← t.branchAt pNode
      let rightSib := parent.rightSib pIndex
      let leftSib := parent.leftSib pIndex
      if ← t.sibling rightSib fun n => half < n + 1 then
        let t ← Branch.borrowRight path depth t this (rightSib.getD 0) pNode pIndex
        .ok (t, none)
      else if ← t.sibling leftSib fun n => half < n + 1 then
        let t ← Branch.borrowLeft path depth t this (leftSib.getD 0) pNode pIndex
        .ok (t, none)
      else if ← t.sibling rightSib fun n => n + 1 + b.count + 1 ≤ t.listCapacity then
        let t ← Branch.mergeRight path depth t this (rightSib.getD 0) pNode pIndex
        Node.rebalanceBranch path depth t pNode
      else if ← t.sibling leftSib fun n => n + 1 + b.count + 1 ≤ t.listCapacity then
        let t ← Branch.mergeLeft t this (leftSib.getD 0) pNode pIndex
        Node.rebalanceBranch path depth t pNode
      else .error (.thrown "Branch rebalancing failed")

def Node.rebalanceLeaf (path : Path) (depth : ℕ) (t : BTree K V) (this : NodeId) :
    Except Fault (BTree K V × Option NodeId) := do
  let half := t.listCapacity / 2
  let l ← t.leafAt this
  match depth with
  | 0 => .ok (t, none)
  | depth + 1 =>
    if half ≤ l.count then .ok (t, none)
    else
      let ⟨pNode, pIndex⟩ ← path.at depth
      let parent ← t.branchAt pNode
      let rightSib := parent.rightSib pIndex
      let leftSib := parent.leftSib pIndex
      if ← t.sibling rightSib fun n => half < n then
        let t ← Leaf.borrowRight path depth t this (rightSib.getD 0) pNode pIndex
        .ok (t, none)
      else if ← t.sibling leftSib fun n => half < n then
        let t ← Leaf.borrowLeft path depth t this (leftSib.getD 0) pNode pIndex
        .ok (t, none)
      else if ← t.sibling rightSib fun n => n + l.count ≤ t.listCapacity then
        let t ← Leaf.mergeRight path depth t this (rightSib.getD 0) pNode pIndex
        Node.rebalanceBranch path depth t pNode
      else if ← t.sibling leftSib fun n => n + l.count ≤ t.listCapacity then
        let t ← Leaf.mergeLeft t this (leftSib.getD 0) pNode pIndex
        Node.rebalanceBranch path depth t pNode
      else .error (.thrown "Leaf rebalancing failed")

def BTree.delete (t : BTree K V) (path : Path) : Except Fault (BTree K V) := do
  let l ← t.leafAt path.leaf
  let l ← l.delete t path.leafIndex
  let t := t.set path.leaf (.leaf l)
  let t ←
    (if path.leaf ≠ t.root then do
      let t ←
        (if path.leafIndex = 0 then do
          let pathNode ← path.at (path.branches.length - 1)
          Node.updateKey path (path.branches.length - 1) t pathNode.pNode pathNode.index
        else .ok t)
      let (t, result) ← Node.rebalanceLeaf path path.branches.length t path.leaf
      match result with
      | some root => .ok { t with root := root }
      | none => .ok t
    else .ok t)
  .ok { t with count := t.count - 1 }

def BTree.new (keyType : ScalarType K) (keyOnly : Bool) (rawKeys : NodeId → ℕ → K)
    (rawValues : NodeId → ℕ → V) (rawNodes : NodeId → ℕ → NodeId) : BTree K V where
  keyType := keyType
  keyOnly := keyOnly
  root := 0
  count := 0
  listCapacity := 1
  cells := update (fun _ => none) 0
    (some (.leaf ⟨0, rawKeys 0, if keyOnly then none else some (rawValues 0)⟩))
  next := 1
  rawKeys := rawKeys
  rawValues := rawValues
  rawNodes := rawNodes

end Fastore.Tree
