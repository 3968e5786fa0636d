import Nkvdb.BTree.Shape

/-! What one level of `split_node` does.

`Split` describes the tree it leaves node by node; every invariant of the tree is
carried over a split from that description, never from the code of the split. -/
namespace Nkvdb.BTree
variable {K V : Type} {N : Nat}

namespace Node

/-- What stays in the split node. -/
def leftHalf (n : Node K V) (c p : Nat) : Node K V :=
  {n with
    valsSize := n.valsSize / 2
    childs := fun j => if n.childsSize / 2 ≤ j ∧ j < n.childsSize / 2 + (n.childsSize - n.childsSize / 2)
      then 0 else n.childs j
    childsSize := n.childsSize / 2
    parent := p
    next := c}

/-- What the new node `c` takes. -/
def rightHalf [Inhabited K] [Inhabited V] (n : Node K V) (c p : Nat) : Node K V :=
  ⟨fun j => if j < n.valsSize - n.valsBegin then n.vals (n.valsBegin + j) else default,
    n.valsSize - n.valsBegin,
    fun j => if j < n.childsSize - n.childsSize / 2 then n.childs (n.childsSize / 2 + j) else 0,
    n.childsSize / 2, c, n.isLeaf, p, n.next⟩

/-- The root made over two halves. -/
def newRoot [Inhabited K] [Inhabited V] (mid : K × V) (a b r : Nat) : Node K V :=
  {(zero : Node K V) with
    vals := Function.update (fun _ => default) 0 mid
    valsSize := 1
    childs := Function.update (Function.update (fun _ => 0) 0 a) 1 b
    childsSize := 2
    id := r}

end Node

/-- `t'` is `t` but for the nodes of `s`. -/
structure Frame (t t' : BTree K V N) (s : Nat → Prop) : Prop where
  cache : ∀ i, ¬ s i → t'.cache i = t.cache i
  root : t'.root = t.root
  cachePos : t'.cachePos = t.cachePos
  cacheSize : t'.cacheSize = t.cacheSize

theorem makeNode_ok (t : BTree K V N) (h : t.cachePos ≤ t.cacheSize) :
    t.makeNode = .ok (t.cachePos, {t.setNode t.cachePos {t.cache t.cachePos with id := t.cachePos}
      with cachePos := t.cachePos + 1}) := by
  rw [makeNode, if_neg (by omega)]

theorem makeNode_full (t : BTree K V N) (h : t.cacheSize < t.cachePos) :
    t.makeNode = .error (.cacheIsFull, t) := by
  rw [makeNode, if_pos h]

theorem setNode_setNode (t : BTree K V N) (i : Nat) (a b : Node K V) :
    (t.setNode i a).setNode i b = t.setNode i b := by
  simp [setNode]

theorem splitVals_ok [Inhabited K] [Inhabited V] (t : BTree K V N) {node c : Nat} (n : Node K V)
    (hne : node ≠ c) (hn : t.cache node = n) (hc : t.cache c = {(Node.zero : Node K V) with id := c})
    (hv : n.valsSize ≤ 2 * N) :
    ∃ t', t.splitVals node c = .ok t' ∧ Frame t t' (fun i => i = node ∨ i = c) ∧
      t'.cache node = {n with valsSize := n.valsSize / 2, next := c} ∧
      t'.cache c = {n.rightHalf c 0 with childs := fun _ => 0, childsSize := 0} := by
  have hcopy : n.valsSize - n.valsBegin ≤ 2 * N := by omega
  refine ⟨(t.setNode node {n with valsSize := n.valsSize / 2, next := c}).setNode c
    {n.rightHalf c 0 with childs := fun _ => 0, childsSize := 0}, ?_, ⟨fun i hi => ?_, rfl, rfl, rfl⟩,
    by rw [setNode_ne _ _ _ hne, setNode_self], setNode_self ..⟩
  · simp only [splitVals, onNode, hn, hc, Slots.copy_eq _ _ _ _ _ hcopy, slots, bind, Except.bind,
      setNode_self, setNode_ne _ _ _ (Ne.symm hne)]
    congr 1
    simp only [setNode, mk.injEq, and_true]
    funext i
    by_cases hi : i = c
    · simp [hi, Node.rightHalf, Node.zero]
    · by_cases hin : i = node <;> simp [hi, hin, hne, Node.rightHalf, Node.zero]
  · rw [setNode_ne _ _ _ fun h => hi (.inr h), setNode_ne _ _ _ fun h => hi (.inl h)]

/-- Whether the child at `i` is one of those that a split of `n` moves. -/
def Node.Moves (n : Node K V) (i : Nat) : Prop :=
  ∃ j, n.childsSize / 2 ≤ j ∧ j < n.childsSize ∧ n.childs j = i

theorem splitChilds_ok [Inhabited K] [Inhabited V] (t : BTree K V N) {node c : Nat} (n C : Node K V) (hne : node ≠ c)
    (hn : t.cache node = n) (hc : t.cache c = C) (hid : C.id = c) (hsize : C.childsSize = 0)
    (hzero : C.childs = fun _ => 0) (hchilds : n.childsSize ≤ 2 * N)
    (hkid : ∀ j, j < n.childsSize → n.childs j ≠ node ∧ n.childs j ≠ c) :
    ∃ t', t.splitChilds node c = .ok t' ∧ Frame t t' (fun i => i = node ∨ i = c ∨ n.Moves i) ∧
      t'.cache node = {n with childs := (n.leftHalf c 0).childs, childsSize := n.childsSize / 2} ∧
      t'.cache c = {C with childs := (n.rightHalf c 0).childs, childsSize := n.childsSize / 2} ∧
      ∀ i, n.Moves i → t'.cache i = {t.cache i with parent := c} := by
  by_cases h0 : 0 < n.childsSize
  · have hcopy : n.childsSize - n.childsSize / 2 ≤ 2 * N := by omega
    have hfill : n.childsSize / 2 + (n.childsSize - n.childsSize / 2) ≤ 2 * N := by omega
    obtain ⟨t₁, ht₁⟩ : ∃ t₁, t.reparent c n.childs (n.childsSize / 2) (n.childsSize - n.childsSize / 2) = t₁ :=
      ⟨_, rfl⟩
    have hother : ∀ i, ¬ n.Moves i → t₁.cache i = t.cache i := fun i hi => by
      rw [← ht₁]
      exact reparent_other _ _ _ _ _ fun j hj he => hi ⟨_, by omega, by omega, he⟩
    have hnm : ¬ n.Moves node := fun ⟨j, _, hj, he⟩ => (hkid j hj).1 he
    have hcm : ¬ n.Moves c := fun ⟨j, _, hj, he⟩ => (hkid j hj).2 he
    refine ⟨(t₁.setNode c {C with childs := (n.rightHalf c 0).childs, childsSize := n.childsSize / 2}).setNode
        node {n with childs := (n.leftHalf c 0).childs, childsSize := n.childsSize / 2}, ?_,
      ⟨fun i hi => ?_, by simp [← ht₁], by simp [← ht₁], by simp [← ht₁]⟩, setNode_self ..,
      by rw [setNode_ne _ _ _ hne.symm, setNode_self], fun i hi => ?_⟩
    · simp only [splitChilds, onNode, hn, hc, hid, h0, if_true, ht₁, hother node hnm, hother c hcm,
        hzero, Slots.copy_eq _ _ _ _ _ hcopy, Slots.fill_eq _ _ _ _ _ hfill, slots, bind, Except.bind,
        setNode_ne _ _ _ hne]
      rfl
    · rw [setNode_ne _ _ _ fun h => hi (.inl h), setNode_ne _ _ _ fun h => hi (.inr (.inl h))]
      exact hother i fun h => hi (.inr (.inr h))
    · have hin : i ≠ node := fun h => hnm (h ▸ hi)
      have hic : i ≠ c := fun h => hcm (h ▸ hi)
      obtain ⟨j, hj, hlt, rfl⟩ := hi
      obtain ⟨k, rfl⟩ := Nat.exists_eq_add_of_le hj
      rw [setNode_ne _ _ _ hin, setNode_ne _ _ _ hic, ← ht₁]
      exact reparent_child _ _ _ _ _ (by omega)
  -- a leaf has no children to move
  · have hz : n.childsSize = 0 := by omega
    refine ⟨t, by simp only [splitChilds, hn, h0, if_false], ⟨fun _ _ => rfl, rfl, rfl, rfl⟩, ?_, ?_, ?_⟩
    · rw [hn]
      obtain ⟨_, _, _, _, _, _, _, _⟩ := n
      dsimp only at hz
      simp [Node.leftHalf, hz]
    · rw [hc]
      obtain ⟨_, _, _, _, _, _, _, _⟩ := C
      dsimp only at hsize hzero
      simp [Node.rightHalf, hsize, hzero, hz]
    · rintro i ⟨j, _, hj, _⟩
      omega

section
variable [LinearOrder K]

theorem withValue_key_lowerBound (n : Node K V) (key : K) (val : V) :
    (n.withValue key val).key (n.lowerBound key) = key := by
  simp [Node.withValue, Node.key]

/-- The parent's turn when there is one. -/
theorem linkParent_inner (t : BTree K V N) {node c p : Nat} (P C : Node K V) (mid : K × V)
    (hp : (t.cache node).parent = p) (hp0 : p ≠ 0) (hP : t.cache p = P) (hC : t.cache c = C)
    (hid : C.id = c) (hnp : node ≠ p) (hcp : c ≠ p) (hsize : P.childsSize = P.valsSize + 1)
    (hroom : P.valsSize + 2 ≤ 2 * N) :
    t.linkParent node c mid = .ok (p, (t.setNode p ((P.withValue mid.1 mid.2).withChild mid.1 c)).setNode c
      {C with parent := p}) := by
  have hval := Node.insertValue_eq (N := N) mid.1 mid.2 P (by omega)
  have hchild := Node.insertChild_eq (N := N) mid.1 c (P.withValue mid.1 mid.2)
    (j := P.lowerBound mid.1) (Nat.lt_succ_of_le (P.lowerBound_le mid.1))
    (withValue_key_lowerBound P mid.1 mid.2) hsize
    (by rw [show (P.withValue mid.1 mid.2).childsSize = _ from hsize]; omega)
  simp only [linkParent, onNode, hp, hp0, ne_eq, not_false_eq_true, if_true, hP, hval, hC, hid, bind,
    Except.bind, setNode_self, setNode_ne _ _ _ hcp, setNode_ne _ _ _ hnp, hchild, setNode_setNode]

/-- A new root over the two halves when the split node was the root. -/
theorem linkParent_root [Inhabited K] [Inhabited V] (t : BTree K V N) {node c : Nat} (n C : Node K V)
    (mid : K × V) (hn : t.cache node = n) (hC : t.cache c = C) (hroot : t.root = node)
    (hp : n.parent = 0) (hnid : n.id = node) (hid : C.id = c) (hnc : node ≠ c)
    (hnr : node ≠ t.cachePos) (hcr : c ≠ t.cachePos) (hfresh : t.cache t.cachePos = Node.zero)
    (hN : 2 ≤ 2 * N) (hroom : t.cachePos ≤ t.cacheSize) :
    t.linkParent node c mid = .ok (t.cachePos,
      {(((t.setNode t.cachePos (Node.newRoot mid node c t.cachePos)).setNode node
        {n with parent := t.cachePos}).setNode c {C with parent := t.cachePos}) with
        cachePos := t.cachePos + 1, root := t.cachePos}) := by
  have hval : Node.insertValue N mid.1 mid.2 {(Node.zero : Node K V) with id := t.cachePos} =
      .ok {(Node.zero : Node K V) with
        id := t.cachePos, vals := Function.update (fun _ => default) 0 mid, valsSize := 1} := by
    simp [Node.insertValue, Node.zero, Slots.write_eq (show 0 < 2 * N by omega), slots, bind, Except.bind]
  have hw0 := fun a : Nat → Nat => Slots.write_eq (show 0 < 2 * N by omega) node a
  have hw1 := fun a : Nat → Nat => Slots.write_eq (show 0 + 1 < 2 * N by omega) c a
  simp only [linkParent, hn, hp, ne_eq, not_true, if_false, makeNode_ok _ hroom, hfresh, bind,
    Except.bind, setNode_self, onNode, setNode_root, hroot, setNode_ne _ _ _ hnr, setNode_ne _ _ _ hcr,
    setNode_ne _ _ _ hnr.symm, setNode_ne _ _ _ hnc.symm, hval, hnid, hC, hid]
  simp only [Node.zero, hw0, hw1, slots, setNode_self, setNode_ne _ _ _ hnr, setNode_ne _ _ _ hcr,
    setNode_ne _ _ _ hnc.symm, hC, hid]
  simp only [Except.ok.injEq, Prod.mk.injEq, true_and, setNode, mk.injEq, and_true, Node.newRoot]
  funext i
  by_cases hi : i = t.cachePos
  · subst hi
    simp [Function.update_of_ne, hnr.symm, hcr.symm, Node.zero]
  · by_cases hin : i = node
    · subst hin
      simp [hnc]
    · by_cases hic : i = c
      · subst hic
        simp [hnr.symm]
      · simp [hi, hin, hic]

theorem linkParent_full (t : BTree K V N) {node c : Nat} (mid : K × V)
    (hp : (t.cache node).parent = 0) (hfull : t.cacheSize < t.cachePos) :
    t.linkParent node c mid = .error (.cacheIsFull, t) := by
  simp only [linkParent, hp, ne_eq, not_true, if_false, makeNode_full t hfull, bind, Except.bind]

/-! ### The step -/

/-- `t'` is `t` with `node` split: the node made is `t.cachePos`, and `p` received the
middle value. -/
structure Split [Inhabited K] [Inhabited V] (t t' : BTree K V N) (node p : Nat) : Prop where
  right : t'.cache t.cachePos = (t.cache node).rightHalf t.cachePos p
  left : t'.cache node = (t.cache node).leftHalf t.cachePos p
  moved : ∀ i, (t.cache node).Moves i → t'.cache i = {t.cache i with parent := t.cachePos}
  other : ∀ i, i ≠ t.cachePos → i ≠ node → i ≠ p → ¬ (t.cache node).Moves i → t'.cache i = t.cache i
  cacheSize : t'.cacheSize = t.cacheSize
  target :
    (node ≠ t.root ∧ p = (t.cache node).parent ∧ t'.root = t.root ∧ t'.cachePos = t.cachePos + 1 ∧
      t'.cache p = ((t.cache p).withValue (t.cache node).midle.1 (t.cache node).midle.2).withChild
        (t.cache node).midle.1 t.cachePos) ∨
    (node = t.root ∧ p = t.cachePos + 1 ∧ t'.root = p ∧ t'.cachePos = t.cachePos + 2 ∧
      t'.cache p = Node.newRoot (t.cache node).midle node t.cachePos p)

variable [Inhabited K] [Inhabited V]

/-- The tree between the halving of `node` and the turn of its parent. -/
structure Halved (t t' : BTree K V N) (node : Nat) : Prop where
  right : t'.cache t.cachePos = (t.cache node).rightHalf t.cachePos 0
  left : t'.cache node = (t.cache node).leftHalf t.cachePos (t.cache node).parent
  moved : ∀ i, (t.cache node).Moves i → t'.cache i = {t.cache i with parent := t.cachePos}
  other : ∀ i, i ≠ t.cachePos → i ≠ node → ¬ (t.cache node).Moves i → t'.cache i = t.cache i
  root : t'.root = t.root
  cachePos : t'.cachePos = t.cachePos + 1
  cacheSize : t'.cacheSize = t.cacheSize

/-- Where a split of `node` that found no node left stops: at its first one, or with the node
halved and no new root. -/
def Stopped (t t' : BTree K V N) (node : Nat) : Prop :=
  (t' = t ∨ Halved t t' node) ∧ t'.cacheSize < t'.cachePos

theorem splitStep_halves (t : BTree K V N) {node : Nat} (hnc : node ≠ t.cachePos)
    (hfresh : t.cache t.cachePos = Node.zero) (hvals : (t.cache node).valsSize ≤ 2 * N)
    (hchilds : (t.cache node).childsSize ≤ 2 * N)
    (hkid : ∀ j, j < (t.cache node).childsSize →
      (t.cache node).childs j ≠ node ∧ (t.cache node).childs j ≠ t.cachePos)
    (hroom : t.cachePos ≤ t.cacheSize) :
    ∃ t', t.splitStep node = t'.linkParent node t.cachePos (t.cache node).midle ∧ Halved t t' node := by
  obtain ⟨n, hn⟩ : ∃ n, t.cache node = n := ⟨_, rfl⟩
  rw [hn] at hvals hchilds hkid
  have hmake := makeNode_ok t hroom
  rw [hfresh] at hmake
  obtain ⟨t₁, ht₁⟩ : ∃ t₁, ({t.setNode t.cachePos {(Node.zero : Node K V) with id := t.cachePos} with
      cachePos := t.cachePos + 1} : BTree K V N) = t₁ := ⟨_, rfl⟩
  have ho₁ : ∀ i, i ≠ t.cachePos → t₁.cache i = t.cache i := fun i hi => by
    rw [← ht₁]
    exact setNode_ne _ _ _ hi
  have hc₁ : t₁.cache t.cachePos = {(Node.zero : Node K V) with id := t.cachePos} := by
    rw [← ht₁]
    exact setNode_self ..
  have hn₁ : t₁.cache node = n := by rw [ho₁ node hnc, hn]
  obtain ⟨t₂, he₂, hf₂, hn₂, hc₂⟩ := splitVals_ok t₁ n hnc hn₁ hc₁ hvals
  obtain ⟨t₃, he₃, hf₃, hn₃, hc₃, hm₃⟩ := splitChilds_ok t₂ _ _ hnc hn₂ hc₂ rfl rfl rfl hchilds hkid
  have hmoves : ∀ i, n.Moves i → i ≠ node ∧ i ≠ t.cachePos := by
    rintro i ⟨j, _, hj, rfl⟩
    exact hkid j hj
  refine ⟨t₃, ?_, ?_⟩
  · rw [ht₁] at hmake
    simp only [splitStep, hmake, bind, Except.bind, he₂, he₃, hn₁, hn]
  · refine ⟨hn ▸ hc₃, hn ▸ hn₃, fun i hi => ?_, fun i hic hin hi => ?_, ?_, ?_, ?_⟩
    · rw [hn] at hi
      have hne := hmoves i hi
      rw [hm₃ i hi, hf₂.cache i (not_or.mpr hne), ho₁ i hne.2]
    · rw [hn] at hi
      rw [hf₃.cache i (not_or.mpr ⟨hin, not_or.mpr ⟨hic, hi⟩⟩), hf₂.cache i (not_or.mpr ⟨hin, hic⟩), ho₁ i hic]
    · rw [hf₃.root, hf₂.root, ← ht₁, setNode_root]
    · rw [hf₃.cachePos, hf₂.cachePos, ← ht₁]
    · rw [hf₃.cacheSize, hf₂.cacheSize, ← ht₁, setNode_cacheSize]

section
variable {ht : Nat → Nat} {t t₁ : BTree K V N} {node : Nat}

omit [LinearOrder K] in
/-- An overfull node still fits its arrays. -/
theorem Shape.over_fits (h : Shape ht node t) (h0 : node ≠ 0) (hN : 2 ≤ N) :
    (t.cache node).valsSize ≤ 2 * N ∧ (t.cache node).childsSize ≤ 2 * N := by
  obtain ⟨hmade, hover⟩ := h.overVals h0
  constructor
  · rw [hover]
    split <;> omega
  · cases hl : (t.cache node).isLeaf
    · have := h.innerChilds node hmade hl
      simp only [hl, Bool.false_eq_true, if_false] at hover
      omega
    · rw [h.leafChilds node hmade hl]
      omega

omit [LinearOrder K] in
theorem Shape.child_ne (h : Shape ht node t) (hmade : t.Made node) {j : Nat} (hj : j < (t.cache node).childsSize) :
    (t.cache node).childs j ≠ node ∧ (t.cache node).childs j ≠ t.cachePos := by
  obtain ⟨hm, -, hh⟩ := h.child node j hmade hj
  refine ⟨fun he => ?_, Nat.ne_of_lt hm.2⟩
  rw [he] at hh
  omega

omit [LinearOrder K] in
theorem Shape.moves_ne (h : Shape ht node t) (hmade : t.Made node) {i : Nat} (hi : (t.cache node).Moves i) :
    i ≠ node ∧ i ≠ t.cachePos := by
  obtain ⟨j, -, hj, rfl⟩ := hi
  exact h.child_ne hmade hj

/-- The root: both halves go under a new one. -/
theorem Halved.split_root (h₁ : Halved t t₁ node) (h : Shape ht node t) (hmade : t.Made node) (hN : 2 ≤ N)
    (hroot : node = t.root) (hroom : t₁.cachePos ≤ t₁.cacheSize) :
    ∃ p t', t₁.linkParent node t.cachePos (t.cache node).midle = .ok (p, t') ∧ Split t t' node p ∧
      t'.cachePos ≤ t'.cacheSize + 1 := by
  have hnc : node ≠ t.cachePos := Nat.ne_of_lt hmade.2
  have hp : (t.cache node).parent = 0 := (h.root_iff hmade).mp hroot
  have hnr : node ≠ t₁.cachePos := by rw [h₁.cachePos]; have := hmade.2; omega
  have hcr : t.cachePos ≠ t₁.cachePos := by rw [h₁.cachePos]; omega
  have hnm : ¬ (t.cache node).Moves (t.cachePos + 1) := by
    rintro ⟨j, _, hj, hc⟩
    have := (h.child node j hmade hj).1.2
    omega
  have hfresh₁ : t₁.cache t₁.cachePos = Node.zero := by
    rw [h₁.cachePos, h₁.other _ (by omega) (by rw [← h₁.cachePos]; exact hnr.symm) hnm]
    exact h.fresh _ (Nat.le_succ _)
  refine ⟨_, _, linkParent_root t₁ _ _ (t.cache node).midle h₁.left h₁.right (h₁.root.trans hroot.symm)
    hp (h.ident node hmade) rfl hnc hnr hcr hfresh₁ (by omega) hroom, ?_, Nat.succ_le_succ hroom⟩
  rw [h₁.cachePos] at hnr hcr ⊢
  constructor
  case right => exact setNode_self ..
  case left => exact (setNode_ne _ _ _ hnc).trans (setNode_self ..)
  case moved =>
    intro i hi
    have hne := h.moves_ne hmade hi
    have hir : i ≠ t.cachePos + 1 := fun h => hnm (h ▸ hi)
    rw [← h₁.moved i hi]
    exact ((setNode_ne _ _ _ hne.2).trans (setNode_ne _ _ _ hne.1)).trans (setNode_ne _ _ _ hir)
  case other =>
    intro i hic hin hip hi
    rw [← h₁.other i hic hin hi]
    exact ((setNode_ne _ _ _ hic).trans (setNode_ne _ _ _ hin)).trans (setNode_ne _ _ _ hip)
  case cacheSize => exact h₁.cacheSize
  case target =>
    refine .inr ⟨hroot, rfl, rfl, rfl, ?_⟩
    exact ((setNode_ne _ _ _ hcr.symm).trans (setNode_ne _ _ _ hnr.symm)).trans (setNode_self ..)

/-- Below the root: the parent takes the middle value and the new node. -/
theorem Halved.split_inner (h₁ : Halved t t₁ node) (h : Shape ht node t) (hmade : t.Made node)
    (hroot : node ≠ t.root) (hroom : t.cachePos ≤ t.cacheSize) :
    ∃ p t', t₁.linkParent node t.cachePos (t.cache node).midle = .ok (p, t') ∧ Split t t' node p ∧
      t'.cachePos ≤ t'.cacheSize + 1 := by
  have hnc : node ≠ t.cachePos := Nat.ne_of_lt hmade.2
  obtain ⟨hpm, -⟩ := h.parent node hmade hroot
  have hph := h.parent_height hmade hroot
  have hpl := h.parent_inner hmade hroot
  have hpn : node ≠ (t.cache node).parent := by
    intro he
    rw [← he] at hph
    omega
  have hpc : (t.cache node).parent ≠ t.cachePos := Nat.ne_of_lt hpm.2
  have hpmv : ¬ (t.cache node).Moves (t.cache node).parent := by
    rintro ⟨j, _, hj, hc⟩
    have := (h.child node j hmade hj).2.2
    rw [hc] at this
    omega
  have hP : t₁.cache (t.cache node).parent = t.cache (t.cache node).parent :=
    h₁.other _ hpc (Ne.symm hpn) hpmv
  refine ⟨_, _, linkParent_inner t₁ _ _ (t.cache node).midle (by rw [h₁.left]; rfl) hpm.ne_zero hP h₁.right
    rfl hpn (Ne.symm hpc) (h.innerChilds _ hpm hpl) (h.maxInner _ hpm (Ne.symm hpn) hpl), ?_, ?_⟩
  swap
  · rw [setNode_cachePos, setNode_cachePos, h₁.cachePos, setNode_cacheSize, setNode_cacheSize, h₁.cacheSize]
    omega
  constructor
  case right => exact setNode_self ..
  case left => rw [setNode_ne _ _ _ hnc, setNode_ne _ _ _ hpn, h₁.left]
  case moved =>
    intro i hi
    have hip : i ≠ (t.cache node).parent := by
      rintro rfl
      exact hpmv hi
    rw [setNode_ne _ _ _ (h.moves_ne hmade hi).2, setNode_ne _ _ _ hip, h₁.moved i hi]
  case other =>
    intro i hic hin hip hi
    rw [setNode_ne _ _ _ hic, setNode_ne _ _ _ hip, h₁.other i hic hin hi]
  case cacheSize => exact h₁.cacheSize
  case target =>
    refine .inl ⟨hroot, rfl, h₁.root, h₁.cachePos, ?_⟩
    rw [setNode_ne _ _ _ hpc, setNode_self]

/-- A split of an overfull node either finds the cache used up, where the split of a root
needs two nodes, or is a `Split`. -/
theorem splitStep_cases (h : Shape ht node t) (h0 : node ≠ 0) (hN : 2 ≤ N) :
    (∃ t', t.splitStep node = .error (.cacheIsFull, t') ∧ Stopped t t' node ∧
      t.cacheSize < t.cachePos + (if node = t.root then 1 else 0)) ∨
    ∃ p t', t.splitStep node = .ok (p, t') ∧ Split t t' node p ∧ t'.cachePos ≤ t'.cacheSize + 1 := by
  obtain ⟨hmade, -⟩ := h.overVals h0
  obtain ⟨hvals, hchilds⟩ := h.over_fits h0 hN
  by_cases hroom : t.cachePos ≤ t.cacheSize
  swap
  · refine .inl ⟨t, ?_, ⟨.inl rfl, by omega⟩, by omega⟩
    simp only [splitStep, makeNode_full t (by omega), bind, Except.bind]
  obtain ⟨t₁, he, h₁⟩ := splitStep_halves t (Nat.ne_of_lt hmade.2) (h.fresh t.cachePos (Nat.le_refl _)) hvals hchilds
    (fun j hj => h.child_ne hmade hj) hroom
  rw [he]
  by_cases hroot : node = t.root
  swap
  · exact .inr (h₁.split_inner h hmade hroot hroom)
  by_cases hroom₁ : t₁.cachePos ≤ t₁.cacheSize
  · exact .inr (h₁.split_root h hmade hN hroot hroom₁)
  · have hfull : t₁.cacheSize < t₁.cachePos := by omega
    have hp₁ : (t₁.cache node).parent = 0 := by
      rw [h₁.left]
      exact (h.root_iff hmade).mp hroot
    refine .inl ⟨_, linkParent_full t₁ _ hp₁ hfull, ⟨.inr h₁, hfull⟩, ?_⟩
    rw [h₁.cachePos, h₁.cacheSize] at hfull
    rwa [if_pos hroot]

end

end
end Nkvdb.BTree
