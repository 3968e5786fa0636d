import Nkvdb.BTree.Find

/-! The chain of leaves, read from one end to the other.

A leaf of the chain ends where the next one begins, so the keys read off the chain ascend,
and what stands before the leaf that a search ends at is below its key. -/
namespace Nkvdb.BTree
variable {K V : Type} {N : Nat}

/-- The leaf at the left end of what lies under node `i`. -/
def leftmost (t : BTree K V N) : Nat → Nat → Nat
  | 0, i => i
  | fuel + 1, i => if (t.cache i).isLeaf then i else t.leftmost fuel ((t.cache i).childs 0)

/-- From leaf `start` on, the links run through the leaves of `l` and end. -/
structure Leaves (t : BTree K V N) (start : Nat) (l : List Nat) : Prop where
  linked : Linked (fun i => (t.cache i).next) 0 start l
  leaves : ∀ i, i ∈ l → t.Made i ∧ (t.cache i).isLeaf = true

theorem Chain.leavesOf {t : BTree K V N} {l : List Nat} (h : Chain t l) : Leaves t 1 l :=
  ⟨h.linked, fun i hi => (h.leaves i).mp hi⟩

theorem Leaves.suffix {t : BTree K V N} {start x : Nat} {xs ys : List Nat} (h : Leaves t start (xs ++ x :: ys)) :
    Leaves t x (x :: ys) :=
  ⟨h.linked.suffix, fun i hi => h.leaves i (List.mem_append_right _ hi)⟩

/-- What holds between the keys of a node in their order holds between its pairs. -/
theorem Node.live_pairwise {n : Node K V} {R : K → K → Prop}
    (h : ∀ j k, j < k → k < n.valsSize → R (n.key j) (n.key k)) : n.live.Pairwise fun a b => R a.1 b.1 := by
  unfold live Slots.live
  rw [List.pairwise_map, List.pairwise_iff_getElem]
  intro i j hi hj hij
  rw [List.length_range] at hj
  rw [List.getElem_range, List.getElem_range]
  exact h i j hij hj

variable [LinearOrder K] [Inhabited K] [Inhabited V]

section
variable {ht : Nat → Nat} {lo : Nat → WithBot K} {hi : Nat → WithTop K} {t : BTree K V N} {start : Nat}
  {l : List Nat}

omit [LinearOrder K] in
/-- The leaf linked to from another is not the root, so it holds a value. -/
theorem Shape.next_leaf (h : Shape ht 0 t) (hN : 2 ≤ N) {x : Nat} (hx : t.Made x)
    (hl : (t.cache x).isLeaf = true) (hne : (t.cache x).next ≠ 0) : 0 < (t.cache (t.cache x).next).valsSize := by
  obtain ⟨hm, hh⟩ := h.next x hx hne
  have hleaf : (t.cache (t.cache x).next).isLeaf = true := by
    rw [h.leaf _ hm, hh]
    exact (h.leaf x hx).mp hl
  have hroot : (t.cache x).next ≠ t.root := by
    intro hr
    by_cases hxr : x = t.root
    · rw [hxr] at hne
      exact hne h.rootNext
    · have := h.below x hx hxr
      rw [hr] at hh
      omega
  have := h.minLeaf _ hm hroot hleaf
  omega

/-- A leaf ends where a later one begins, or before. The induction goes down the links. -/
theorem Leaves.apart (hc : Leaves t start (start :: l)) (ho : Arranged lo hi t) (h : Shape ht 0 t) (hN : 2 ≤ N)
    {y : Nat} (hy : y ∈ l) : ∃ k : K, hi start = k ∧ (k : WithBot K) ≤ lo y := by
  induction l generalizing start with
  | nil => cases hy
  | cons z zs ih =>
    have hrest : Leaves t z (z :: zs) := (show Leaves t start ([start] ++ z :: zs) from hc).suffix
    have hz : (t.cache start).next = z := hc.linked.2.2.1
    have hne : (t.cache start).next ≠ 0 := hc.linked.2.2.2.1
    obtain ⟨hm, hl⟩ := hc.leaves start List.mem_cons_self
    obtain ⟨hmz, -⟩ := hc.leaves z (List.mem_cons_of_mem _ List.mem_cons_self)
    obtain ⟨k, hk, hlo⟩ := ho.next start hm hl hne
    have hpos := h.next_leaf hN hm hl hne
    rw [hz] at hlo hpos
    refine ⟨k, hk, ?_⟩
    rcases List.mem_cons.mp hy with rfl | hmem
    · exact hlo.ge
    obtain ⟨k', hk', hle⟩ := ih hrest hmem
    have habove := (ho.range z hmz).above 0 hpos
    have hbelow := (ho.range z hmz).below 0 hpos
    rw [hlo] at habove
    rw [hk'] at hbelow
    have hkk : k < k' := lt_of_le_of_lt (WithBot.coe_le_coe.mp habove) (WithTop.coe_lt_coe.mp hbelow)
    exact (WithBot.coe_le_coe.mpr hkk.le).trans hle

/-- Keys of a leaf are below those of a later one. -/
theorem Leaves.lt (hc : Leaves t start (start :: l)) (ho : Arranged lo hi t) (h : Shape ht 0 t) (hN : 2 ≤ N)
    {y : Nat} (hy : y ∈ l) {a b : K × V} (ha : a ∈ (t.cache start).live) (hb : b ∈ (t.cache y).live) : a.1 < b.1 := by
  obtain ⟨k, hk, hle⟩ := hc.apart ho h hN hy
  obtain ⟨i, hi', rfl⟩ := Slots.mem_live.mp ha
  obtain ⟨j, hj, rfl⟩ := Slots.mem_live.mp hb
  have hbelow := (ho.range start (hc.leaves start List.mem_cons_self).1).below i hi'
  have habove := (ho.range y (hc.leaves y (List.mem_cons_of_mem _ hy)).1).above j hj
  rw [hk] at hbelow
  exact lt_of_lt_of_le (WithTop.coe_lt_coe.mp hbelow) (WithBot.coe_le_coe.mp (hle.trans habove))

/-- The pairs read off the chain stand in the order that the leaves keep theirs in. -/
theorem Leaves.pairwise {R : K → K → Prop} (hc : Leaves t start l) (ho : Arranged lo hi t) (h : Shape ht 0 t)
    (hN : 2 ≤ N) (hlt : ∀ a b, a < b → R a b)
    (hleaf : ∀ i, i ∈ l → ∀ j k, j < k → k < (t.cache i).valsSize → R ((t.cache i).key j) ((t.cache i).key k)) :
    (t.records l).Pairwise fun a b => R a.1 b.1 := by
  unfold records
  rw [List.pairwise_flatMap]
  refine ⟨fun i hi' => Node.live_pairwise (hleaf i hi'), ?_⟩
  clear hleaf
  induction l generalizing start with
  | nil => exact List.Pairwise.nil
  | cons x xs ih =>
    obtain rfl := hc.linked.head_eq
    refine List.pairwise_cons.mpr ⟨fun y hy a ha b hb => hlt _ _ (hc.lt ho h hN hy ha hb), ?_⟩
    obtain ⟨-, -, ht⟩ := hc.linked
    exact ih ⟨ht, fun i hi' => hc.leaves i (List.mem_cons_of_mem _ hi')⟩

/-- A search for a leaf cuts the chain there: what stands before it is below the key. -/
theorem Arranged.findNode_cut (ho : Arranged lo hi t) (h : Shape ht 0 t) (hN : 2 ≤ N) (hc : Chain t l) (key : K) :
    ∃ leaf xs ys, t.findNode key = .ok leaf ∧ l = xs ++ leaf :: ys ∧ Leaves t leaf (leaf :: ys) ∧
      ∀ kv, kv ∈ t.records xs → kv.1 < key := by
  obtain ⟨leaf, he, hm, hl, ha, -⟩ := ho.findNode h hN key
  obtain ⟨xs, ys, rfl⟩ := List.append_of_mem ((hc.leaves leaf).mpr ⟨hm, hl⟩)
  refine ⟨leaf, xs, ys, he, rfl, hc.leavesOf.suffix, fun kv hkv => ?_⟩
  obtain ⟨x, hx, j, hj, rfl⟩ := mem_records.mp hkv
  obtain ⟨as, bs, rfl⟩ := List.append_of_mem hx
  have hlx : Leaves t x (x :: (bs ++ leaf :: ys)) := by
    have := hc.leavesOf
    rw [List.append_assoc] at this
    exact this.suffix
  obtain ⟨k, hk, hle⟩ := hlx.apart ho h hN (List.mem_append_right _ List.mem_cons_self)
  have hbelow := (ho.range x (hlx.leaves x List.mem_cons_self).1).below j hj
  rw [hk] at hbelow
  exact lt_of_lt_of_le (WithTop.coe_lt_coe.mp hbelow) (WithBot.coe_le_coe.mp (hle.trans ha))

/-- So from that leaf on the chain holds every pair with the key or a larger one. -/
theorem Arranged.findNode_holds (ho : Arranged lo hi t) (h : Shape ht 0 t) (hN : 2 ≤ N) (hc : Chain t l)
    {kvs : List (K × V)} (hp : (t.records l).Perm kvs) (key : K) : ∃ leaf l', t.findNode key = .ok leaf ∧
      Leaves t leaf l' ∧ l' <:+ l ∧
      ((t.records l').filter fun kv => decide (key ≤ kv.1)).Perm (kvs.filter fun kv => decide (key ≤ kv.1)) := by
  obtain ⟨leaf, xs, ys, he, rfl, hl, hbelow⟩ := ho.findNode_cut h hN hc key
  refine ⟨leaf, leaf :: ys, he, hl, List.suffix_append .., ?_⟩
  have hcut : t.records (xs ++ leaf :: ys) = t.records xs ++ t.records (leaf :: ys) := List.flatMap_append
  have hnone : (t.records xs).filter (fun kv => decide (key ≤ kv.1)) = [] := by
    rw [List.filter_eq_nil_iff]
    intro kv hkv
    rw [decide_eq_true_eq, not_le]
    exact hbelow kv hkv
  have := hp.filter fun kv => decide (key ≤ kv.1)
  rwa [hcut, List.filter_append, hnone, List.nil_append] at this

omit [LinearOrder K] in
/-- Where going left ends. -/
theorem leftmost_spec [LinearOrder K] (ho : Arranged lo hi t) (h : Shape ht 0 t) {fuel i : Nat} (hi' : t.Made i)
    (hf : ht i < fuel) : t.Made (t.leftmost fuel i) ∧ (t.cache (t.leftmost fuel i)).isLeaf = true ∧
      lo (t.leftmost fuel i) = lo i := by
  induction fuel generalizing i with
  | zero => omega
  | succ fuel ih =>
    unfold leftmost
    cases hl : (t.cache i).isLeaf
    · have hpos : 0 < (t.cache i).childsSize := by
        rw [h.innerChilds i hi' hl]
        exact Nat.succ_pos _
      obtain ⟨hm, -, hh⟩ := h.child i 0 hi' hpos
      rw [if_neg Bool.false_ne_true]
      obtain ⟨hm', hl', he⟩ := ih hm (by omega)
      refine ⟨hm', hl', he.trans ?_⟩
      rw [(ho.parts i hi' 0 hpos).1, if_pos rfl]
    · rw [if_pos rfl]
      exact ⟨hi', hl, rfl⟩

/-- The chain starts at the leftmost leaf: all others begin at a key. -/
theorem Chain.leftmost_eq (hc : Chain t l) (ho : Arranged lo hi t) (h : Shape ht 0 t) :
    t.leftmost t.cachePos t.root = 1 := by
  have hh := h.height
  obtain ⟨hm, hl, hlo⟩ := leftmost_spec ho h h.root (show ht t.root < t.cachePos by omega)
  rcases hc.linked.pred ((hc.leaves _).mpr ⟨hm, hl⟩) with he | ⟨y, hy, he⟩
  · exact he
  · obtain ⟨hmy, hly⟩ := (hc.leaves y).mp hy
    obtain ⟨k, -, hk⟩ := ho.next y hmy hly (he ▸ hm.ne_zero)
    rw [he, hlo, ho.rootLo] at hk
    cases hk

end

/-- After any inserts of distinct keys the links lead from the leftmost leaf through every
leaf once, and read off what was inserted, each pair once and in the order of the keys;
from the leaf a search for a key ends at they lead through every pair with the key or a
larger one. -/
theorem chain_inserted (hN : 2 ≤ N) (cacheSize : Nat) (kvs : List (K × V)) (hd : (kvs.map Prod.fst).Nodup)
    {t : BTree K V N} (hok : (BTree.init cacheSize : BTree K V N).insertAll kvs = .ok t) :
    (∃ l, Leaves t (t.leftmost t.cachePos t.root) l ∧ l.Nodup ∧
      (∀ i, t.Made i → (t.cache i).isLeaf = true → i ∈ l) ∧
      (t.records l).Perm kvs ∧ (t.records l).Pairwise fun a b => a.1 < b.1) ∧
    ∀ k, ∃ leaf l', t.findNode k = .ok leaf ∧ Leaves t leaf l' ∧
      ∀ kv, kv ∈ kvs → k ≤ kv.1 → kv ∈ t.records l' := by
  obtain ⟨ht, lo, hi, l, h, ho, hc, hp⟩ := insertAll_leaves hN cacheSize hd hok
  have hleft := hc.leftmost_eq ho.arranged h
  refine ⟨⟨l, hleft ▸ hc.leavesOf, hc.nodup, fun i hm hl => (hc.leaves i).mpr ⟨hm, hl⟩, hp, ?_⟩, fun k => ?_⟩
  · refine hc.leavesOf.pairwise ho.arranged h hN (fun a b hab => hab) fun i hi' => ?_
    exact (ho.range i ((hc.leaves i).mp hi').1).sorted
  · obtain ⟨leaf, l', he, hl, -, hperm⟩ := ho.arranged.findNode_holds h hN hc hp k
    refine ⟨leaf, l', he, hl, fun kv hkv hle => ?_⟩
    exact (List.mem_filter.mp (hperm.mem_iff.mpr (List.mem_filter.mpr ⟨hkv, decide_eq_true hle⟩))).1

/-- Seven inserts make three leaves. -/
theorem chain_inserted_seven : ∃ t : BTree Nat Nat 2,
    (BTree.init 8).insertAll [(4, 10), (2, 11), (6, 12), (1, 13), (3, 14), (7, 15), (5, 16)] = .ok t ∧
      (∃ l, Leaves t (t.leftmost t.cachePos t.root) l ∧ l.Nodup ∧
        (∀ i, t.Made i → (t.cache i).isLeaf = true → i ∈ l) ∧
        (t.records l).Perm [(4, 10), (2, 11), (6, 12), (1, 13), (3, 14), (7, 15), (5, 16)] ∧
        (t.records l).Pairwise fun a b => a.1 < b.1) := by
  refine ⟨_, rfl, ?_⟩
  exact (chain_inserted (K := Nat) (V := Nat) (N := 2) le_rfl 8
    [(4, 10), (2, 11), (6, 12), (1, 13), (3, 14), (7, 15), (5, 16)] (by decide) rfl).1

end Nkvdb.BTree
