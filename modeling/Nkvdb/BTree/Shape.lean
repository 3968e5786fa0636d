import Nkvdb.BTree.Tree

/-! The linkage of the tree: which nodes there are and how they name each other.

Nothing here compares keys, so it holds of every tree that inserts leave, repeated
keys included. `Shape` is stated with a height for every node and with at most one
node over its capacity, the one `split_node` is about to be called on. -/
namespace Nkvdb.BTree
variable {K V : Type} {N : Nat}

/-! ### Node operations -/

namespace Node
variable [LinearOrder K]

theorem lowerBound_le (key : K) (n : Node K V) : n.lowerBound key ≤ n.valsSize :=
  Slots.lowerBound_le ..

theorem key_lt_of_lt_lowerBound {key : K} {n : Node K V} {j : Nat} (h : j < n.lowerBound key) :
    n.key j < key := by
  have := Slots.below_of_lt_lowerBound h
  simpa [Node.key] using this

theorem le_key_lowerBound {key : K} {n : Node K V} (h : n.lowerBound key < n.valsSize) :
    key ≤ n.key (n.lowerBound key) := by
  have := Slots.not_below_lowerBound h
  simpa [Node.key, Node.lowerBound] using this

theorem lowerBound_lt {key : K} {n : Node K V} {j : Nat} (hj : j < n.valsSize)
    (h : key ≤ n.key j) : n.lowerBound key < n.valsSize :=
  Slots.lowerBound_lt hj (by simpa [Node.key] using h)

/-- The value inserted at its lower bound. -/
def withValue (key : K) (val : V) (n : Node K V) : Node K V :=
  {n with
    vals := Slots.inserted (n.valsSize + 1) (n.lowerBound key) (key, val) n.vals
    valsSize := n.valsSize + 1}

/-- The four branches of `insertValue` all insert at the lower bound. -/
theorem insertValue_eq (key : K) (val : V) (n : Node K V) (h : n.valsSize + 1 ≤ 2 * N) :
    insertValue N key val n = .ok (n.withValue key val) := by
  have hle := lowerBound_le key n
  unfold insertValue
  by_cases h0 : n.valsSize = 0
  · have hlb : n.lowerBound key = 0 := by omega
    rw [if_pos h0, Slots.write_eq (by omega)]
    simp only [withValue, hlb, h0, Slots.inserted_end]
    rfl
  rw [if_neg h0]
  by_cases hk : key < n.key 0
  · have hlb : n.lowerBound key = 0 := by
      by_contra hne
      have hlt : n.key 0 < key := key_lt_of_lt_lowerBound (by omega)
      exact hk.not_gt hlt
    rw [if_pos hk, Slots.insert_eq _ _ _ _ _ h (by omega)]
    simp only [withValue, hlb]
    rfl
  rw [if_neg hk]
  by_cases hlb : n.lowerBound key ≠ n.valsSize
  · rw [if_pos hlb, Slots.insert_eq _ _ _ _ _ h (by omega)]
    rfl
  · have he : n.lowerBound key = n.valsSize := not_not.mp hlb
    rw [if_neg hlb, Slots.write_eq (by omega)]
    simp only [withValue, he, Slots.inserted_end]
    rfl

/-- The slot `insertChild` opens for the node right of `key`. -/
def childSlot (key : K) (n : Node K V) : Nat :=
  if key = n.key (n.valsSize - 1) then n.childsSize else n.lowerBound key + 1

def withChild (key : K) (c : Nat) (n : Node K V) : Node K V :=
  {n with
    childs := Slots.inserted (n.childsSize + 1) (n.childSlot key) c n.childs
    childsSize := n.childsSize + 1}

theorem childSlot_le {key : K} {n : Node K V} {j : Nat} (hj : j < n.valsSize) (hk : n.key j = key)
    (hc : n.childsSize = n.valsSize) : n.childSlot key ≤ n.childsSize := by
  have := lowerBound_lt hj (le_of_eq hk.symm)
  unfold childSlot
  split <;> omega

theorem insertChild_eq (key : K) (c : Nat) (n : Node K V) {j : Nat} (hj : j < n.valsSize)
    (hk : n.key j = key) (hc : n.childsSize = n.valsSize) (h : n.childsSize + 1 ≤ 2 * N) :
    insertChild N key c n = .ok (n.withChild key c) := by
  have hlt := lowerBound_lt hj (le_of_eq hk.symm)
  unfold insertChild withChild childSlot
  by_cases hlast : key = n.key (n.valsSize - 1)
  · rw [if_pos hlast, if_pos hlast, Slots.write_eq (by omega), Slots.inserted_end]
    rfl
  · rw [if_neg hlast, if_neg hlast, if_pos (by omega), Slots.insert_eq _ _ _ _ _ h (by omega)]
    rfl

end Node

/-! ### Reading a tree after a store -/

section
variable (t : BTree K V N) (i : Nat) (n : Node K V)

@[simp] theorem setNode_self : (t.setNode i n).cache i = n := by simp [setNode]

@[simp] theorem setNode_ne {j : Nat} (h : j ≠ i) : (t.setNode i n).cache j = t.cache j := by
  simp [setNode, h]

@[simp] theorem setNode_root : (t.setNode i n).root = t.root := rfl
@[simp] theorem setNode_cachePos : (t.setNode i n).cachePos = t.cachePos := rfl
@[simp] theorem setNode_cacheSize : (t.setNode i n).cacheSize = t.cacheSize := rfl

theorem onNode_ok {f : Node K V → Except Fault (Node K V)} (h : f (t.cache i) = .ok n) :
    t.onNode i f = .ok (t.setNode i n) := by
  simp [onNode, h]

end

section Reparent
variable (p : Nat) (childs : Nat → Nat) (start : Nat)

@[simp] theorem reparent_root (n : Nat) (t : BTree K V N) :
    (t.reparent p childs start n).root = t.root := by
  induction n with
  | zero => rfl
  | succ n ih => exact ih

@[simp] theorem reparent_cachePos (n : Nat) (t : BTree K V N) :
    (t.reparent p childs start n).cachePos = t.cachePos := by
  induction n with
  | zero => rfl
  | succ n ih => exact ih

@[simp] theorem reparent_cacheSize (n : Nat) (t : BTree K V N) :
    (t.reparent p childs start n).cacheSize = t.cacheSize := by
  induction n with
  | zero => rfl
  | succ n ih => exact ih

theorem reparent_other {i : Nat} (n : Nat) (t : BTree K V N)
    (h : ∀ j, j < n → childs (start + j) ≠ i) :
    (t.reparent p childs start n).cache i = t.cache i := by
  induction n with
  | zero => rfl
  | succ n ih =>
    rw [reparent, setNode_ne _ _ _ (Ne.symm (h n (Nat.lt_succ_self n)))]
    exact ih fun j hj => h j (Nat.lt_succ_of_lt hj)

/-- Only the `parent` field is ever stored. -/
theorem reparent_parent (n : Nat) (t : BTree K V N) (i q : Nat) :
    {(t.reparent p childs start n).cache i with parent := q} = {t.cache i with parent := q} := by
  induction n with
  | zero => rfl
  | succ n ih =>
    rw [reparent]
    by_cases hi : i = childs (start + n)
    · subst hi
      rw [setNode_self]
      exact ih
    · rw [setNode_ne _ _ _ hi]
      exact ih

theorem reparent_child {j : Nat} (n : Nat) (t : BTree K V N) (hj : j < n) :
    (t.reparent p childs start n).cache (childs (start + j)) =
      {t.cache (childs (start + j)) with parent := p} := by
  induction n with
  | zero => omega
  | succ n ih =>
    rw [reparent]
    by_cases he : childs (start + j) = childs (start + n)
    · rw [he, setNode_self]
      exact reparent_parent ..
    · have hlt : j < n := by
        have : j ≠ n := fun h => he (by rw [h])
        omega
      rw [setNode_ne _ _ _ he, ih hlt]

end Reparent

/-! ### The linkage -/

/-- A node that `make_node` has handed out. -/
def Made (t : BTree K V N) (i : Nat) : Prop := 0 < i ∧ i < t.cachePos

theorem Made.ne_zero {t : BTree K V N} {i : Nat} (h : t.Made i) : i ≠ 0 := Nat.ne_of_gt h.1

/-- `ht` is the height of each node over the leaves. `full` is the node that holds one
value too many, 0 when there is none. -/
structure Shape [Inhabited K] [Inhabited V] (ht : Nat → Nat) (full : Nat) (t : BTree K V N) :
    Prop where
  root : t.Made t.root
  rootParent : (t.cache t.root).parent = 0
  rootNext : (t.cache t.root).next = 0
  rootVals : (t.cache t.root).isLeaf = false → 0 < (t.cache t.root).valsSize
  height : ht t.root + 1 < t.cachePos
  below : ∀ i, t.Made i → i ≠ t.root → ht i < ht t.root
  fresh : ∀ i, t.cachePos ≤ i → t.cache i = Node.zero
  ident : ∀ i, t.Made i → (t.cache i).id = i
  leaf : ∀ i, t.Made i → ((t.cache i).isLeaf = true ↔ ht i = 0)
  leafChilds : ∀ i, t.Made i → (t.cache i).isLeaf = true → (t.cache i).childsSize = 0
  innerChilds : ∀ i, t.Made i → (t.cache i).isLeaf = false →
    (t.cache i).childsSize = (t.cache i).valsSize + 1
  child : ∀ i j, t.Made i → j < (t.cache i).childsSize →
    t.Made ((t.cache i).childs j) ∧ (t.cache ((t.cache i).childs j)).parent = i ∧
      ht ((t.cache i).childs j) + 1 = ht i
  childInj : ∀ i j k, t.Made i → j < (t.cache i).childsSize → k < (t.cache i).childsSize →
    (t.cache i).childs j = (t.cache i).childs k → j = k
  parent : ∀ i, t.Made i → i ≠ t.root → t.Made (t.cache i).parent ∧
    ∃ j, j < (t.cache (t.cache i).parent).childsSize ∧ (t.cache (t.cache i).parent).childs j = i
  next : ∀ i, t.Made i → (t.cache i).next ≠ 0 →
    t.Made (t.cache i).next ∧ ht (t.cache i).next = ht i
  maxLeaf : ∀ i, t.Made i → i ≠ full → (t.cache i).isLeaf = true → (t.cache i).valsSize + 1 ≤ 2 * N
  maxInner : ∀ i, t.Made i → i ≠ full → (t.cache i).isLeaf = false → (t.cache i).valsSize + 2 ≤ 2 * N
  overVals : full ≠ 0 → t.Made full ∧
    (t.cache full).valsSize = if (t.cache full).isLeaf then 2 * N else 2 * N - 1
  minLeaf : ∀ i, t.Made i → i ≠ t.root → (t.cache i).isLeaf = true → N ≤ (t.cache i).valsSize
  minInner : ∀ i, t.Made i → i ≠ t.root → (t.cache i).isLeaf = false → N ≤ (t.cache i).valsSize + 1

namespace Shape
variable [Inhabited K] [Inhabited V] {ht : Nat → Nat} {full : Nat} {t : BTree K V N}

theorem root_iff (h : Shape ht full t) {i : Nat} (hi : t.Made i) :
    i = t.root ↔ (t.cache i).parent = 0 := by
  constructor
  · rintro rfl
    exact h.rootParent
  · intro hp
    by_contra hne
    exact (h.parent i hi hne).1.ne_zero hp

theorem parent_height (h : Shape ht full t) {i : Nat} (hi : t.Made i) (hne : i ≠ t.root) :
    ht (t.cache i).parent = ht i + 1 := by
  obtain ⟨hp, j, hj, hc⟩ := h.parent i hi hne
  have := (h.child _ j hp hj).2.2
  rw [hc] at this
  exact this.symm

theorem parent_inner (h : Shape ht full t) {i : Nat} (hi : t.Made i) (hne : i ≠ t.root) :
    (t.cache (t.cache i).parent).isLeaf = false := by
  have hp := (h.parent i hi hne).1
  have hh := h.parent_height hi hne
  by_contra hl
  have := (h.leaf _ hp).mp (by simpa using hl)
  omega

/-- An empty cache holds one empty leaf. -/
theorem init (cacheSize : Nat) (hN : 0 < N) :
    Shape (fun _ => 0) 0 (BTree.init cacheSize : BTree K V N) := by
  have hroot : ∀ i, (BTree.init cacheSize : BTree K V N).Made i → i = 1 := by
    intro i hi
    have h1 := hi.1
    have h2 : i < 2 := hi.2
    omega
  have hcache : (BTree.init cacheSize : BTree K V N).cache 1 =
      {Node.zero with id := 1, isLeaf := true} := by simp [BTree.init]
  constructor
  case root => exact ⟨Nat.one_pos, Nat.one_lt_two⟩
  case fresh =>
    intro i hi
    have h2 : 2 ≤ i := hi
    have : i ≠ 1 := by omega
    simp [BTree.init, this]
  case height => exact Nat.one_lt_two
  case below => intro i hi hne; exact absurd (hroot i hi) hne
  case parent => intro i hi hne; exact absurd (hroot i hi) hne
  case minLeaf => intro i hi hne; exact absurd (hroot i hi) hne
  case minInner => intro i hi hne; exact absurd (hroot i hi) hne
  case overVals => intro h; exact absurd rfl h
  case rootParent => rw [show (BTree.init cacheSize : BTree K V N).root = 1 from rfl, hcache]; rfl
  case rootNext => rw [show (BTree.init cacheSize : BTree K V N).root = 1 from rfl, hcache]; rfl
  case rootVals =>
    rw [show (BTree.init cacheSize : BTree K V N).root = 1 from rfl, hcache]
    intro h
    cases h
  all_goals
    intro i
    intros
    obtain rfl := hroot i ‹_›
    simp_all [Node.zero] <;> omega

end Shape

/-! ### A value stored in a leaf -/

/-- What a store in `node` changes: its values and their number. -/
structure Stores (t t' : BTree K V N) (node : Nat) : Prop where
  root : t'.root = t.root
  cachePos : t'.cachePos = t.cachePos
  isLeaf : ∀ i, (t'.cache i).isLeaf = (t.cache i).isLeaf
  id : ∀ i, (t'.cache i).id = (t.cache i).id
  parent : ∀ i, (t'.cache i).parent = (t.cache i).parent
  next : ∀ i, (t'.cache i).next = (t.cache i).next
  childs : ∀ i, (t'.cache i).childs = (t.cache i).childs
  childsSize : ∀ i, (t'.cache i).childsSize = (t.cache i).childsSize
  valsSize : (t'.cache node).valsSize = (t.cache node).valsSize + 1
  other : ∀ i, i ≠ node → t'.cache i = t.cache i

namespace Stores
variable {ht : Nat → Nat} {t t' : BTree K V N} {node i : Nat}

section
variable (hs : Stores t t' node)
include hs

theorem made : t'.Made i ↔ t.Made i := by
  unfold Made
  rw [hs.cachePos]

/-- An inner node is not the leaf stored in. -/
theorem inner_eq (hl : (t.cache node).isLeaf = true) (hi : (t'.cache i).isLeaf = false) :
    (t.cache i).isLeaf = false ∧ (t'.cache i).valsSize = (t.cache i).valsSize := by
  rw [hs.isLeaf] at hi
  refine ⟨hi, congrArg Node.valsSize (hs.other i ?_)⟩
  rintro rfl
  rw [hl] at hi
  cases hi

variable [Inhabited K] [Inhabited V] (h : Shape ht 0 t) (hl : (t.cache node).isLeaf = true)
include h

theorem child {j : Nat} (hi : t'.Made i) (hj : j < (t'.cache i).childsSize) : t'.Made ((t'.cache i).childs j) ∧
    (t'.cache ((t'.cache i).childs j)).parent = i ∧ ht ((t'.cache i).childs j) + 1 = ht i := by
  rw [hs.childsSize] at hj
  rw [hs.childs, hs.made, hs.parent]
  exact h.child i j (hs.made.mp hi) hj

theorem childInj {j k : Nat} (hi : t'.Made i) (hj : j < (t'.cache i).childsSize) (hk : k < (t'.cache i).childsSize)
    (he : (t'.cache i).childs j = (t'.cache i).childs k) : j = k := by
  rw [hs.childsSize] at hj hk
  rw [hs.childs] at he
  exact h.childInj i j k (hs.made.mp hi) hj hk he

theorem parent_made (hi : t'.Made i) (hr : i ≠ t'.root) : t'.Made (t'.cache i).parent ∧
    ∃ j, j < (t'.cache (t'.cache i).parent).childsSize ∧ (t'.cache (t'.cache i).parent).childs j = i := by
  rw [hs.root] at hr
  rw [hs.parent, hs.made, hs.childs, hs.childsSize]
  exact h.parent i (hs.made.mp hi) hr

theorem next_made (hi : t'.Made i) (hx : (t'.cache i).next ≠ 0) :
    t'.Made (t'.cache i).next ∧ ht (t'.cache i).next = ht i := by
  rw [hs.next] at hx ⊢
  rw [hs.made]
  exact h.next i (hs.made.mp hi) hx

theorem fresh (hm : t.Made node) (hi : t'.cachePos ≤ i) : t'.cache i = Node.zero := by
  have hlt := hm.2
  rw [hs.cachePos] at hi
  rw [hs.other i (by omega)]
  exact h.fresh i hi

theorem minLeaf (hi : t'.Made i) (hr : i ≠ t'.root) (hil : (t'.cache i).isLeaf = true) :
    N ≤ (t'.cache i).valsSize := by
  rw [hs.root] at hr
  rw [hs.isLeaf] at hil
  have hmin := h.minLeaf i (hs.made.mp hi) hr hil
  by_cases hin : i = node
  · rw [hin] at hmin ⊢
    rw [hs.valsSize]
    omega
  · rwa [hs.other i hin]

include hl

theorem rootVals (hr : (t'.cache t'.root).isLeaf = false) : 0 < (t'.cache t'.root).valsSize := by
  obtain ⟨hr, hv⟩ := hs.inner_eq hl hr
  rw [hv]
  rw [hs.root] at hr ⊢
  exact h.rootVals hr

theorem innerChilds (hi : t'.Made i) (hil : (t'.cache i).isLeaf = false) :
    (t'.cache i).childsSize = (t'.cache i).valsSize + 1 := by
  obtain ⟨hil, hv⟩ := hs.inner_eq hl hil
  rw [hs.childsSize, hv]
  exact h.innerChilds i (hs.made.mp hi) hil

/-- The leaf is overfull afterwards just where it was full but for one. -/
theorem isFull_iff (hm : t.Made node) : t.isFull node = true ↔ (t'.cache node).valsSize = 2 * N := by
  have hmax := h.maxLeaf node hm hm.ne_zero hl
  rw [hs.valsSize]
  simp only [isFull, decide_eq_true_eq]
  omega

theorem maxLeaf (hm : t.Made node) (hi : t'.Made i) (ho : i ≠ if t.isFull node then node else 0)
    (hil : (t'.cache i).isLeaf = true) : (t'.cache i).valsSize + 1 ≤ 2 * N := by
  have hi := hs.made.mp hi
  by_cases hin : i = node
  · subst hin
    have hnf : ¬ t.isFull i = true := by
      intro hf
      rw [if_pos hf] at ho
      exact ho rfl
    have hmax := h.maxLeaf i hm hm.ne_zero hl
    rw [hs.isFull_iff h hl hm, hs.valsSize] at hnf
    rw [hs.valsSize]
    omega
  · rw [hs.isLeaf] at hil
    rw [hs.other i hin]
    exact h.maxLeaf i hi hi.ne_zero hil

theorem maxInner (hi : t'.Made i) (hil : (t'.cache i).isLeaf = false) : (t'.cache i).valsSize + 2 ≤ 2 * N := by
  have hi := hs.made.mp hi
  obtain ⟨hil, hv⟩ := hs.inner_eq hl hil
  rw [hv]
  exact h.maxInner i hi hi.ne_zero hil

theorem minInner (hi : t'.Made i) (hr : i ≠ t'.root) (hil : (t'.cache i).isLeaf = false) :
    N ≤ (t'.cache i).valsSize + 1 := by
  obtain ⟨hil, hv⟩ := hs.inner_eq hl hil
  rw [hs.root] at hr
  rw [hv]
  exact h.minInner i (hs.made.mp hi) hr hil

/-- A store makes at most the leaf overfull. -/
theorem shape (hm : t.Made node) : Shape ht (if t.isFull node then node else 0) t' := by
  constructor
  case root => exact hs.made.mpr (hs.root ▸ h.root)
  case rootParent => rw [hs.root, hs.parent]; exact h.rootParent
  case rootNext => rw [hs.root, hs.next]; exact h.rootNext
  case rootVals => exact hs.rootVals h hl
  case height => rw [hs.root, hs.cachePos]; exact h.height
  case below => exact fun i hi hr => hs.root ▸ h.below i (hs.made.mp hi) (hs.root ▸ hr)
  case fresh => exact fun i hi => hs.fresh h hm hi
  case ident => exact fun i hi => (hs.id i).trans (h.ident i (hs.made.mp hi))
  case leaf => exact fun i hi => hs.isLeaf i ▸ h.leaf i (hs.made.mp hi)
  case leafChilds =>
    exact fun i hi hil => (hs.childsSize i).trans (h.leafChilds i (hs.made.mp hi) (hs.isLeaf i ▸ hil))
  case innerChilds => exact fun i hi hil => hs.innerChilds h hl hi hil
  case child => exact fun i j hi hj => hs.child h hi hj
  case childInj => exact fun i j k hi hj hk he => hs.childInj h hi hj hk he
  case parent => exact fun i hi hr => hs.parent_made h hi hr
  case next => exact fun i hi hx => hs.next_made h hi hx
  case maxLeaf => exact fun i hi ho hil => hs.maxLeaf h hl hm hi ho hil
  case maxInner => exact fun i hi _ hil => hs.maxInner h hl hi hil
  case overVals =>
    intro ho
    have hf : t.isFull node = true := by
      by_contra hf
      rw [if_neg hf] at ho
      exact ho rfl
    rw [if_pos hf, hs.isLeaf, if_pos hl]
    exact ⟨hs.made.mpr hm, (hs.isFull_iff h hl hm).mp hf⟩
  case minLeaf => exact fun i hi hr hil => hs.minLeaf h hi hr hil
  case minInner => exact fun i hi hr hil => hs.minInner h hl hi hr hil

end
end Stores

end Nkvdb.BTree
