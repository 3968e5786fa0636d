import Nkvdb.Basic
import Nkvdb.Lib.Slots

/-! The B+ tree of the index (`btree.h`, `btree.hpp`, `btree_common.h`).

Nodes live in a cache of zero-filled memory and name each other by position; a
pointer to a node is that position. A node's arrays have `2N` slots. A failing
operation carries the tree as it was left when it failed. -/
namespace Nkvdb

/-- `BTree::Node`. -/
structure BTree.Node (K V : Type) where
  vals : Nat → K × V
  valsSize : Nat
  childs : Nat → Nat
  childsSize : Nat
  id : Nat
  isLeaf : Bool
  parent : Nat
  next : Nat

/-- `BTree<Key, Value, N>`: `m_root` is kept as the position it points at. -/
structure BTree (K V : Type) (N : Nat) where
  cache : Nat → BTree.Node K V
  cacheSize : Nat
  cachePos : Nat
  root : Nat

namespace BTree
variable {K V : Type} {N : Nat}

/-- A slot operation that fails has stored past the array's end. -/
def slots {α : Type} : Option α → Except Fault α
  | some a => .ok a
  | none => .error .slotOverflow

namespace Node

/-- A node of zero-filled memory. -/
def zero [Inhabited K] [Inhabited V] : Node K V :=
  ⟨fun _ => default, 0, fun _ => 0, 0, 0, false, 0, 0⟩

def key (n : Node K V) (j : Nat) : K := (n.vals j).1

/-- The values in use. -/
def live (n : Node K V) : List (K × V) := Slots.live n.vals n.valsSize

variable [LinearOrder K]

/-- `std::lower_bound` over the values in use. -/
def lowerBound (key : K) (n : Node K V) : Nat :=
  Slots.lowerBound (fun kv => decide (kv.1 < key)) n.vals n.valsSize

def insertValue (N : Nat) (key : K) (val : V) (n : Node K V) : Except Fault (Node K V) :=
  if n.valsSize = 0 then do
    let vals ← slots (Slots.write (2 * N) 0 (key, val) n.vals)
    .ok {n with vals := vals, valsSize := n.valsSize + 1}
  else if key < n.key 0 then do
    let vals ← slots (Slots.insert (2 * N) (n.valsSize + 1) 0 (key, val) n.vals)
    .ok {n with vals := vals, valsSize := n.valsSize + 1}
  else if n.lowerBound key ≠ n.valsSize then do
    let vals ← slots (Slots.insert (2 * N) (n.valsSize + 1) (n.lowerBound key) (key, val) n.vals)
    .ok {n with vals := vals, valsSize := n.valsSize + 1}
  else do
    let vals ← slots (Slots.write (2 * N) n.valsSize (key, val) n.vals)
    .ok {n with vals := vals, valsSize := n.valsSize + 1}

/-- `insertChild`: `c` is the id of the node put right of `key`. -/
def insertChild (N : Nat) (key : K) (c : Nat) (n : Node K V) : Except Fault (Node K V) :=
  if key = n.key (n.valsSize - 1) then do
    let childs ← slots (Slots.write (2 * N) n.childsSize c n.childs)
    .ok {n with childs := childs, childsSize := n.childsSize + 1}
  else if n.lowerBound key ≠ n.valsSize then do
    let childs ← slots (Slots.insert (2 * N) (n.childsSize + 1) (n.lowerBound key + 1) c n.childs)
    .ok {n with childs := childs, childsSize := n.childsSize + 1}
  else .error .assertion

/-- `midle`, which `split_node` hands to the parent. -/
def midle (n : Node K V) : K × V := n.vals (n.valsSize / 2)

/-- `vals_begin`: a leaf keeps a copy of the middle value in its new half, an inner
node hands it up. -/
def valsBegin (n : Node K V) : Nat :=
  if n.isLeaf then n.valsSize / 2 else n.valsSize / 2 + 1

end Node

/-- What a failing operation leaves. -/
abbrev Failure (K V : Type) (N : Nat) := Fault × BTree K V N

def setNode (t : BTree K V N) (i : Nat) (n : Node K V) : BTree K V N :=
  {t with cache := Function.update t.cache i n}

/-- Run a node operation on the node at `i`. -/
def onNode (i : Nat) (f : Node K V → Except Fault (Node K V)) (t : BTree K V N) :
    Except (Failure K V N) (BTree K V N) :=
  match f (t.cache i) with
  | .ok n => .ok (t.setNode i n)
  | .error e => .error (e, t)

/-- `init_cache` and the header `Index::setFileName` writes: node 1 is the root, a leaf. -/
def init [Inhabited K] [Inhabited V] (cacheSize : Nat) : BTree K V N :=
  ⟨Function.update (fun _ => Node.zero) 1 {Node.zero with id := 1, isLeaf := true}, cacheSize, 2, 1⟩

def makeNode (t : BTree K V N) : Except (Failure K V N) (Nat × BTree K V N) :=
  if t.cacheSize < t.cachePos then .error (.cacheIsFull, t)
  else .ok (t.cachePos,
    {t.setNode t.cachePos {t.cache t.cachePos with id := t.cachePos} with cachePos := t.cachePos + 1})

def isFull (t : BTree K V N) (i : Nat) : Bool :=
  decide (2 * N ≤ (t.cache i).valsSize + 1)

section Search
variable [LinearOrder K]

/-- `iner_find`. `some (leaf, res)` is a call that reached a leaf and set `out_ptr`
to it, `res` being what it found there; `none` is one that returned false at an
inner node with `out_ptr` as it was. -/
def inerFind (t : BTree K V N) (key : K) : Nat → Nat → Except Fault (Option (Nat × Option V))
  | 0, _ => .error .outOfFuel
  | fuel + 1, cur =>
    let n := t.cache cur
    if n.isLeaf then
      let d := n.lowerBound key
      .ok (some (cur, if d ≠ n.valsSize then some (n.vals d).2 else none))
    -- k < k_0
    else if key < n.key 0 then t.inerFind key fuel (n.childs 0)
    -- k_d ≤ k
    else if n.childsSize ≠ 0 ∧ n.valsSize ≠ 0 ∧ n.key (n.valsSize - 1) ≤ key then
      t.inerFind key fuel (n.childs (n.childsSize - 1))
    -- k_i ≤ k < k_{i+1}
    else
      let d := n.lowerBound key
      let d := if n.key d ≠ key then d - 1 else d
      if key < n.key (d + 1) then t.inerFind key fuel (n.childs (d + 1)) else .ok none

/-- `find`: zero where nothing is found. -/
def find [Zero V] (t : BTree K V N) (key : K) : Except Fault V := do
  match ← t.inerFind key t.cachePos t.root with
  | some (_, some res) => .ok res
  | _ => .ok 0

/-- `find_node`: the root stands when the search sets no node. -/
def findNode (t : BTree K V N) (key : K) : Except Fault Nat := do
  match ← t.inerFind key t.cachePos t.root with
  | some (leaf, _) => .ok leaf
  | none => .ok t.root

end Search

section Insert

/-- `ch->parent = p` for `n` children of the array from `start` on. -/
def reparent (p : Nat) (childs : Nat → Nat) (start : Nat) : Nat → BTree K V N → BTree K V N
  | 0, t => t
  | n + 1, t =>
    let t := reparent p childs start n t
    t.setNode (childs (start + n)) {t.cache (childs (start + n)) with parent := p}

/-- `split_node`, up to the `next` links: `c` takes the values from the middle on. -/
def splitVals (node c : Nat) (t : BTree K V N) : Except (Failure K V N) (BTree K V N) := do
  let n := t.cache node
  let t ← t.onNode c fun C => do
    let vals ← slots (Slots.copy (2 * N) n.vals n.valsBegin (n.valsSize - n.valsBegin) C.vals)
    .ok {C with isLeaf := n.isLeaf, vals := vals, valsSize := C.valsSize + (n.valsSize - n.valsBegin)}
  let t := t.setNode node {n with valsSize := n.valsSize / 2, next := (t.cache c).id}
  .ok (t.setNode c {t.cache c with next := n.next})

/-- `split_node`, the children: `c` takes the upper half and becomes their parent. -/
def splitChilds (node c : Nat) (t : BTree K V N) : Except (Failure K V N) (BTree K V N) := do
  let n := t.cache node
  if 0 < n.childsSize then
    let newCount := n.childsSize / 2
    let t := t.reparent (t.cache c).id n.childs newCount (n.childsSize - newCount)
    let t ← t.onNode c fun C => do
      let childs ← slots (Slots.copy (2 * N) n.childs newCount (n.childsSize - newCount) C.childs)
      .ok {C with childs := childs, childsSize := newCount}
    t.onNode node fun n => do
      let childs ← slots (Slots.fill (2 * N) 0 newCount (n.childsSize - newCount) n.childs)
      .ok {n with childs := childs, childsSize := newCount}
  else .ok t

variable [LinearOrder K]

/-- `split_node`, the parent: the middle value and `c` go into it, or into a new root. -/
def linkParent (node c : Nat) (midle : K × V) (t : BTree K V N) :
    Except (Failure K V N) (Nat × BTree K V N) := do
  let parentInd := (t.cache node).parent
  if parentInd ≠ 0 then
    let t ← t.onNode parentInd (Node.insertValue N midle.1 midle.2)
    let t ← t.onNode parentInd (Node.insertChild N midle.1 (t.cache c).id)
    .ok (parentInd, t.setNode c {t.cache c with parent := (t.cache node).parent})
  else
    let (r, t) ← t.makeNode
    let t := t.setNode t.root {t.cache t.root with parent := (t.cache r).id}
    let t := {t with root := r}
    let t ← t.onNode r (Node.insertValue N midle.1 midle.2)
    let t ← t.onNode r fun R => do
      let childs ← slots (Slots.write (2 * N) R.childsSize (t.cache node).id R.childs)
      let childs ← slots (Slots.write (2 * N) (R.childsSize + 1) (t.cache c).id childs)
      .ok {R with childs := childs, childsSize := R.childsSize + 2}
    let t := t.setNode node {t.cache node with parent := (t.cache t.root).id}
    .ok (r, t.setNode c {t.cache c with parent := (t.cache t.root).id})

/-- One level of `split_node`: the node that received the middle value, and the tree. -/
def splitStep (node : Nat) (t : BTree K V N) : Except (Failure K V N) (Nat × BTree K V N) := do
  let (c, t) ← t.makeNode
  let midle := (t.cache node).midle
  let t ← t.splitVals node c
  let t ← t.splitChilds node c
  t.linkParent node c midle

/-- `split_node`. The recursion climbs to the root. -/
def splitNode : Nat → Nat → BTree K V N → Except (Failure K V N) (BTree K V N)
  | 0, _, t => .error (.outOfFuel, t)
  | fuel + 1, node, t => do
    let (node2insert, t) ← t.splitStep node
    if t.isFull node2insert then splitNode fuel node2insert t else .ok t

def insert (key : K) (val : V) (t : BTree K V N) : Except (Failure K V N) (BTree K V N) :=
  match t.inerFind key t.cachePos t.root with
  | .error e => .error (e, t)
  | .ok none => .error (.nullNode, t)
  | .ok (some (node, _)) =>
    if t.isFull node then do
      let t ← t.onNode node (Node.insertValue N key val)
      t.splitNode t.cachePos node
    else t.onNode node (Node.insertValue N key val)

/-- A run of inserts. -/
def insertAll : List (K × V) → BTree K V N → Except (Failure K V N) (BTree K V N)
  | [], t => .ok t
  | (k, v) :: rest, t => do
    let t ← t.insert k v
    insertAll rest t

end Insert

end BTree

end Nkvdb
