import Nkvdb.BTree.Growth
import Nkvdb.Lib.Branching

/-! How many nodes the tree takes, and how far a search in it goes.

Every node but the root is half full at least, so a tree has a node for `N - 1` values at most and the
levels above its leaves shrink by `N` from one to the next. Keys may repeat. -/
namespace Nkvdb.BTree
variable {K V : Type} {N : Nat} {t : BTree K V N} {l : List Nat}

/-! ### The branches -/

/-- The nodes in use. -/
def nodes (t : BTree K V N) : Finset Nat := Finset.Ico 1 t.cachePos

theorem mem_nodes {i : Nat} : i ∈ t.nodes ↔ t.Made i := Finset.mem_Ico

/-- The number of children of a node. -/
def arity (t : BTree K V N) (i : Nat) : Nat := (t.cache i).childsSize

theorem length_records (t : BTree K V N) (l : List Nat) :
    (t.records l).length = (l.map fun i => (t.cache i).valsSize).sum := by
  unfold records
  rw [List.length_flatMap]
  simp only [Node.live, Slots.length_live]

section
variable [Inhabited K] [Inhabited V] {ht : Nat → Nat} {full : Nat}

theorem Shape.branching (h : Shape ht full t) :
    Branching t.nodes t.arity (fun i => (t.cache i).childs) t.root where
  root_mem := mem_nodes.mpr h.root
  child_mem := by
    intro i hi j hj
    obtain ⟨hm, hp, -⟩ := h.child i j (mem_nodes.mp hi) hj
    refine ⟨mem_nodes.mpr hm, fun hroot => (mem_nodes.mp hi).ne_zero ?_⟩
    rw [← hp, hroot]
    exact h.rootParent
  child_inj := by
    intro x y hx hy j k hj hk he
    have hpx := (h.child x j (mem_nodes.mp hx) hj).2.1
    have hpy := (h.child y k (mem_nodes.mp hy) hk).2.1
    have he' : (t.cache x).childs j = (t.cache y).childs k := he
    obtain rfl : x = y := by rw [← hpx, he', hpy]
    exact ⟨rfl, h.childInj x j k (mem_nodes.mp hx) hj hk he⟩

theorem Shape.arity_eq_zero (h : Shape ht full t) {i : Nat} (hi : t.Made i) :
    t.arity i = 0 ↔ (t.cache i).isLeaf = true := by
  constructor
  · intro h0
    by_contra hl
    have hc := h.innerChilds i hi (by simpa using hl)
    unfold arity at h0
    omega
  · exact h.leafChilds i hi

/-- The chain has the nodes without children. -/
theorem Chain.leaves_eq (hc : Chain t l) (h : Shape ht full t) : Branching.leaves t.nodes t.arity = l.toFinset := by
  ext i
  rw [List.mem_toFinset, hc.leaves, Branching.leaves, Finset.mem_filter, mem_nodes]
  exact and_congr_right fun hi => h.arity_eq_zero hi

theorem Chain.card_leaves (hc : Chain t l) (h : Shape ht full t) :
    (Branching.leaves t.nodes t.arity).card = l.length := by
  rw [hc.leaves_eq h, List.toFinset_card_of_nodup hc.nodup]

theorem Shape.card_nodes (_ : Shape ht full t) : t.nodes.card = t.cachePos - 1 := Nat.card_Ico ..

theorem Shape.inner_arity (h : Shape ht full t) {i : Nat} (hi : t.Made i) (hne : i ≠ t.root)
    (hinner : t.arity i ≠ 0) : N ≤ t.arity i := by
  have hl : (t.cache i).isLeaf = false := by
    by_contra hl
    exact hinner ((h.arity_eq_zero hi).mpr (by simpa using hl))
  have hc := h.innerChilds i hi hl
  have hmin := h.minInner i hi hne hl
  unfold arity
  omega

theorem Shape.root_arity (h : Shape ht full t) (hl : (t.cache t.root).isLeaf = false) : 2 ≤ t.arity t.root := by
  have hc := h.innerChilds t.root h.root hl
  have hv := h.rootVals hl
  unfold arity
  omega

/-! ### The values of the leaves -/

/-- Below an inner root every leaf is half full. -/
theorem Chain.le_records (hc : Chain t l) (h : Shape ht full t) (hl : (t.cache t.root).isLeaf = false) :
    N * l.length ≤ (t.records l).length := by
  have hmin : ∀ v, v ∈ l.map (fun i => (t.cache i).valsSize) → N ≤ v := by
    intro v hv
    obtain ⟨i, hi, rfl⟩ := List.mem_map.mp hv
    obtain ⟨hm, hleaf⟩ := (hc.leaves i).mp hi
    refine h.minLeaf i hm ?_ hleaf
    rintro rfl
    rw [hl] at hleaf
    cases hleaf
  have hsum := List.card_nsmul_le_sum _ N hmin
  rw [List.length_map, smul_eq_mul, Nat.mul_comm] at hsum
  rwa [length_records]

theorem Chain.records_le (hc : Chain t l) (h : Shape ht 0 t) : (t.records l).length ≤ (2 * N - 1) * l.length := by
  have hmax : ∀ v, v ∈ l.map (fun i => (t.cache i).valsSize) → v ≤ 2 * N - 1 := by
    intro v hv
    obtain ⟨i, hi, rfl⟩ := List.mem_map.mp hv
    obtain ⟨hm, hleaf⟩ := (hc.leaves i).mp hi
    have hlt := h.maxLeaf i hm hm.ne_zero hleaf
    omega
  have hsum := List.sum_le_card_nsmul _ (2 * N - 1) hmax
  rw [List.length_map, smul_eq_mul, Nat.mul_comm] at hsum
  rwa [length_records]

/-! ### The size -/

/-- A root that is a leaf is the one node. -/
theorem Shape.single (h : Shape ht full t) (hl : (t.cache t.root).isLeaf = true) : t.nodes = {t.root} := by
  refine Finset.eq_singleton_iff_unique_mem.mpr ⟨mem_nodes.mpr h.root, fun i hi => ?_⟩
  by_contra hne
  have hbelow := h.below i (mem_nodes.mp hi) hne
  rw [(h.leaf t.root h.root).mp hl] at hbelow
  exact Nat.not_lt_zero _ hbelow

/-- The nodes but one, by the values. -/
theorem Shape.nodes_le (h : Shape ht full t) (hN : 2 ≤ N) (hc : Chain t l) :
    (N - 1) * (t.cachePos - 2) ≤ (t.records l).length := by
  have hcard := h.card_nodes
  cases hl : (t.cache t.root).isLeaf with
  | true =>
    rw [h.single hl, Finset.card_singleton] at hcard
    rw [show t.cachePos - 2 = 0 by omega]
    exact Nat.zero_le _
  | false =>
    have hle := h.branching.card_le (by omega) (h.root_arity hl) fun i hi => h.inner_arity (mem_nodes.mp hi)
    rw [hc.card_leaves h, hcard, Nat.sub_sub] at hle
    exact (Nat.le_of_add_right_le hle).trans (hc.le_records h hl)

theorem Shape.le_nodes (h : Shape ht 0 t) (hc : Chain t l) :
    (t.records l).length ≤ (2 * N - 1) * (t.cachePos - 1) := by
  refine (hc.records_le h).trans (Nat.mul_le_mul_left _ ?_)
  rw [← hc.card_leaves h, ← h.card_nodes]
  exact Finset.card_filter_le _ _

/-- Each level but the topmost has `N` values or more for a value of the one above. -/
theorem Shape.pow_le (h : Shape ht full t) (hc : Chain t l) (hl : (t.cache t.root).isLeaf = false) :
    2 * N ^ ht t.root ≤ (t.records l).length := by
  have hpos : 0 < ht t.root := by
    refine Nat.pos_of_ne_zero fun h0 => ?_
    rw [(h.leaf t.root h.root).mpr h0] at hl
    cases hl
  obtain ⟨d, hd⟩ : ∃ d, ht t.root = d + 1 := ⟨_, (Nat.succ_pred_eq_of_pos hpos).symm⟩
  have hlevel := h.branching.pow_le ht (h.root_arity hl)
    (fun i hi j hj => (h.child i j (mem_nodes.mp hi) hj).2.2)
    (fun i hi hne hh => h.inner_arity (mem_nodes.mp hi) hne
      (mt (fun h0 => (h.leaf i (mem_nodes.mp hi)).mp ((h.arity_eq_zero (mem_nodes.mp hi)).mp h0)) hh))
    (show d < ht t.root by omega)
  have hbottom : Branching.level t.nodes ht (ht t.root - (d + 1)) = Branching.leaves t.nodes t.arity := by
    rw [hd, Nat.sub_self]
    refine Finset.filter_congr fun i hi => ?_
    rw [h.arity_eq_zero (mem_nodes.mp hi), h.leaf i (mem_nodes.mp hi)]
  rw [hbottom, hc.card_leaves h] at hlevel
  calc 2 * N ^ ht t.root = N * (2 * N ^ d) := by rw [hd, pow_succ]; ring
    _ ≤ N * l.length := Nat.mul_le_mul_left N hlevel
    _ ≤ _ := hc.le_records h hl

/-- The height, by the values. -/
theorem Shape.height_le (h : Shape ht full t) (hN : 2 ≤ N) (hc : Chain t l) :
    ht t.root ≤ Nat.log N ((t.records l).length / 2) := by
  cases hl : (t.cache t.root).isLeaf with
  | true =>
    rw [(h.leaf t.root h.root).mp hl]
    exact Nat.zero_le _
  | false =>
    have hpow := h.pow_le hc hl
    refine Nat.le_log_of_pow_le hN ?_
    omega

end

/-! ### Searches -/

section
variable [LinearOrder K]

/-- A search that has ended is not changed by more fuel. -/
theorem inerFind_more {key : K} {fuel fuel' i : Nat} {r : Option (Nat × Option V)}
    (h : t.inerFind key fuel i = .ok r) (hle : fuel ≤ fuel') : t.inerFind key fuel' i = .ok r := by
  induction fuel generalizing fuel' i with
  | zero => cases h
  | succ fuel ih =>
    obtain ⟨more, rfl⟩ : ∃ more, fuel' = more + 1 := ⟨_, (Nat.succ_pred_eq_of_pos (by omega)).symm⟩
    have hle' := Nat.le_of_succ_le_succ hle
    unfold inerFind at h ⊢
    dsimp only at h ⊢
    by_cases hl : (t.cache i).isLeaf = true
    · rw [if_pos hl] at h ⊢
      exact h
    rw [if_neg hl] at h ⊢
    by_cases hfirst : key < (t.cache i).key 0
    · rw [if_pos hfirst] at h ⊢
      exact ih h hle'
    rw [if_neg hfirst] at h ⊢
    by_cases hlast : (t.cache i).childsSize ≠ 0 ∧ (t.cache i).valsSize ≠ 0 ∧
        (t.cache i).key ((t.cache i).valsSize - 1) ≤ key
    · rw [if_pos hlast] at h ⊢
      exact ih h hle'
    rw [if_neg hlast] at h ⊢
    generalize (if (t.cache i).key ((t.cache i).lowerBound key) ≠ key then (t.cache i).lowerBound key - 1
      else (t.cache i).lowerBound key) = d at h ⊢
    by_cases hlt : key < (t.cache i).key (d + 1)
    · rw [if_pos hlt] at h ⊢
      exact ih h hle'
    · rw [if_neg hlt] at h ⊢
      exact h

variable [Inhabited K] [Inhabited V]

omit [Inhabited V] in
/-- The nodes for keys, by how many there are. -/
theorem nodesFor_bounds (hN : 2 ≤ N) {ks : List K} (hd : ks.Nodup) :
    (N - 1) * (KeyLevels.nodesFor N ks - 1) ≤ ks.length ∧ ks.length ≤ (2 * N - 1) * KeyLevels.nodesFor N ks := by
  obtain ⟨kvs, hkeys⟩ : ∃ kvs : List (K × Unit), kvs.map Prod.fst = ks :=
    ⟨ks.map fun k => (k, ()), by rw [List.map_map]; exact List.map_id _⟩
  rw [← hkeys] at hd ⊢
  -- a cache that has just these nodes
  obtain ⟨t, hok⟩ := (insertAll_fits (N := N) hN (KeyLevels.nodesFor N (kvs.map Prod.fst)) hd).mpr
    (Nat.le_max_right ..)
  have hinit : Counts _ _ _ 0 [[]] (init (KeyLevels.nodesFor N (kvs.map Prod.fst)) : BTree K Unit N) :=
    Counts.init (by omega) _
  have hends := hinit.insertAll hN (show ([] ++ kvs.map Prod.fst).Nodup from hd)
  rw [hok] at hends
  obtain ⟨-, ht, lo, hi, hc⟩ := hends
  have hcount : t.cachePos = KeyLevels.nodesFor N (kvs.map Prod.fst) + 1 := hc.count
  obtain ⟨-, l, hchain, hp⟩ := insertAll_holds hN (Shape.init _ (by omega)) (Holds.init _) hok
  have hlow := hc.shape.nodes_le hN hchain
  have hhigh := hc.shape.le_nodes hchain
  have hlen : (t.records l).length = kvs.length := hp.length_eq
  rw [hlen, hcount] at hlow hhigh
  rw [List.length_map]
  exact ⟨hlow, hhigh⟩

/-- The nodes that inserts have taken from the cache, but two, by the inserts. -/
theorem insertAll_nodes (hN : 2 ≤ N) {cacheSize : Nat} {kvs : List (K × V)} {t : BTree K V N}
    (hok : (BTree.init cacheSize).insertAll kvs = .ok t) : (N - 1) * (t.cachePos - 2) ≤ kvs.length := by
  obtain ⟨⟨ht, h⟩, l, hc, hp⟩ := insertAll_holds hN (Shape.init cacheSize (by omega)) (Holds.init cacheSize) hok
  have hlen : (t.records l).length = kvs.length := hp.length_eq
  exact hlen ▸ h.nodes_le hN hc

/-- Inserts that complete leave a tree with a node for `N - 1` values at most, one aside, and for `2 * N - 1` at
least; a search goes down a number of levels that is logarithmic in the values. -/
theorem insertAll_compact (hN : 2 ≤ N) (cacheSize : Nat) (kvs : List (K × V)) {t : BTree K V N}
    (hok : (BTree.init cacheSize).insertAll kvs = .ok t) :
    (N - 1) * (t.cachePos - 2) ≤ kvs.length ∧ kvs.length ≤ (2 * N - 1) * (t.cachePos - 1) ∧
      ∀ key fuel, Nat.log N (kvs.length / 2) < fuel →
        ∃ r, t.inerFind key fuel t.root = .ok r ∧ t.inerFind key t.cachePos t.root = .ok r := by
  obtain ⟨⟨ht, h⟩, l, hc, hp⟩ := insertAll_holds hN (Shape.init cacheSize (by omega)) (Holds.init cacheSize) hok
  have hlen : (t.records l).length = kvs.length := hp.length_eq
  refine ⟨hlen ▸ h.nodes_le hN hc, hlen ▸ h.le_nodes hc, fun key fuel hf => ?_⟩
  have hheight := h.height_le hN hc
  rw [hlen] at hheight
  -- a descent from the root passes a node of each height
  obtain ⟨r, hr⟩ : ∃ r, t.inerFind key (ht t.root + 1) t.root = .ok r := by
    rcases h.inerFind_cases hN key h.root (Nat.lt_succ_self _) with he | ⟨leaf, res, he, -, -⟩
    · exact ⟨_, he⟩
    · exact ⟨_, he⟩
  exact ⟨r, inerFind_more hr (by omega), inerFind_more hr h.height.le⟩

end

/-- Ten inserts, three of them of one key, into nodes of two to four. -/
theorem insertAll_compact_ten : ∃ t : BTree Nat Nat 2,
    (BTree.init 12).insertAll ([5, 2, 9, 4, 4, 7, 1, 4, 8, 6].map fun k => (k, k)) = .ok t ∧
    t.cachePos - 2 ≤ 10 ∧ 10 ≤ 3 * (t.cachePos - 1) ∧
    ∀ key, ∃ r, t.inerFind key 3 t.root = .ok r ∧ t.inerFind key t.cachePos t.root = .ok r := by
  obtain ⟨t, hok, -⟩ := exists_ok (p := fun _ => true)
    (x := (BTree.init 12 : BTree Nat Nat 2).insertAll ([5, 2, 9, 4, 4, 7, 1, 4, 8, 6].map fun k => (k, k)))
    (by decide +kernel)
  obtain ⟨h1, h2, h3⟩ := insertAll_compact le_rfl 12 _ hok
  refine ⟨t, hok, ?_, h2, fun key => h3 key 3 (by decide)⟩
  simpa using h1

end Nkvdb.BTree
