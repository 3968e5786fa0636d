import Nkvdb.BTree.WellFormed

/-! Lookup of keys that were inserted, and of others.

Nodes at one depth answer for disjoint intervals, so the leaf a search ends at is the only
one that can hold its key; there the lower bound is the key's own slot. For a key that no
leaf holds the lower bound is the slot of a larger one, and the search takes it for the key. -/
namespace Nkvdb.BTree
variable {K V : Type} {N : Nat} [LinearOrder K]

/-- Node `i` answers for `key`. -/
def Answers (lo : Nat → WithBot K) (hi : Nat → WithTop K) (key : K) (i : Nat) : Prop :=
  lo i ≤ key ∧ (key : WithTop K) < hi i

/-- What a search finds in the leaf it ends at. -/
def Node.found (key : K) (n : Node K V) : Option V :=
  if n.lowerBound key ≠ n.valsSize then some (n.vals (n.lowerBound key)).2 else none

theorem inerFind_found {t : BTree K V N} {key : K} {fuel i leaf : Nat} {res : Option V}
    (h : t.inerFind key fuel i = .ok (some (leaf, res))) : res = (t.cache leaf).found key := by
  induction fuel generalizing i with
  | zero => cases h
  | succ fuel ih =>
    simp only [inerFind] at h
    split at h
    · simp only [Except.ok.injEq, Option.some.injEq, Prod.mk.injEq] at h
      rw [← h.1, ← h.2]
      rfl
    · repeat' split at h
      all_goals first | exact ih h | cases h

/-- In a sorted node the lower bound of a key it holds is its slot. -/
theorem Node.found_slot {n : Node K V} (h : n.Sorted) {j : Nat} (hj : j < n.valsSize) :
    n.found (n.key j) = some (n.vals j).2 := by
  have hlb : n.lowerBound (n.key j) = j :=
    lowerBound_eq hj.le (fun k hk => h k j hk hj) fun _ => le_rfl
  unfold found
  rw [hlb, if_pos hj.ne]

section
variable [Inhabited K] [Inhabited V] {ht : Nat → Nat} {full : Nat} {lo : Nat → WithBot K} {hi : Nat → WithTop K}
  {t : BTree K V N}

omit [Inhabited K] [Inhabited V] in
theorem Arranged.answers_slot (ho : Arranged lo hi t) {i : Nat} (hi' : t.Made i) {j : Nat}
    (hj : j < (t.cache i).valsSize) : Answers lo hi ((t.cache i).key j) i :=
  ⟨(ho.range i hi').above j hj, (ho.range i hi').below j hj⟩

/-- Of two children of a node, the one further left ends before the other begins. -/
theorem Arranged.children_apart (ho : Arranged lo hi t) (h : Shape ht full t) {i j k : Nat} (hi' : t.Made i)
    (hjk : j < k) (hk : k < (t.cache i).childsSize) {key : K} (hj : Answers lo hi key ((t.cache i).childs j)) :
    ¬ Answers lo hi key ((t.cache i).childs k) := by
  have hl : (t.cache i).isLeaf = false := by
    by_contra hl
    have := h.leafChilds i hi' (by simpa using hl)
    omega
  have hcs := h.innerChilds i hi' hl
  have hbelow := hj.2
  rw [(ho.parts i hi' j (by omega)).2, if_neg (by omega)] at hbelow
  intro hkey
  have habove := hkey.1
  rw [(ho.parts i hi' k hk).1, if_neg (by omega)] at habove
  have hle : (t.cache i).key j ≤ (t.cache i).key (k - 1) := ((ho.range i hi').sortedInner hl).le (by omega) (by omega)
  exact absurd (WithTop.coe_lt_coe.mp hbelow) (not_lt.mpr (hle.trans (WithBot.coe_le_coe.mp habove)))

/-- At each depth under a node at most one node answers for a key. The induction goes down
the tree: a node's interval lies in its parent's. -/
theorem Under.unique (ho : Arranged lo hi t) (h : Shape ht full t) {i d x y : Nat} (hi' : t.Made i)
    (hx : t.Under i d x) (hy : t.Under i d y) {key : K} (hkx : Answers lo hi key x)
    (hky : Answers lo hi key y) : x = y := by
  induction d generalizing x y with
  | zero =>
    cases hx
    cases hy
    rfl
  | succ d ih =>
    obtain _ | @⟨_, px, j, hpx, hj⟩ := hx
    obtain _ | @⟨_, py, k, hpy, hk⟩ := hy
    have up : ∀ p j, t.Made p → j < (t.cache p).childsSize → Answers lo hi key ((t.cache p).childs j) →
        Answers lo hi key p := by
      intro p j hp hj hkey
      have hb := (Under.child Under.here hj).bounds h ho hp
      exact ⟨hb.1.trans hkey.1, lt_of_lt_of_le hkey.2 hb.2⟩
    have hmx := (hpx.height h hi').1
    have hmy := (hpy.height h hi').1
    obtain rfl := ih hpx hpy (up px j hmx hj hkx) (up py k hmy hk hky)
    rcases Nat.lt_trichotomy j k with hjk | rfl | hkj
    · exact absurd hky (ho.children_apart h hmx hjk hk hkx)
    · rfl
    · exact absurd hkx (ho.children_apart h hmx hkj hj hky)

/-- At one height at most one node answers for a key. -/
theorem Arranged.height_unique (ho : Arranged lo hi t) (h : Shape ht full t) {x y : Nat} (hx : t.Made x)
    (hy : t.Made y) (hh : ht x = ht y) {key : K} (hkx : Answers lo hi key x) (hky : Answers lo hi key y) : x = y := by
  obtain ⟨dx, hdx⟩ := h.reached hx
  obtain ⟨dy, hdy⟩ := h.reached hy
  have hhx := (hdx.height h h.root).2
  have hhy := (hdy.height h h.root).2
  obtain rfl : dx = dy := by omega
  exact hdx.unique ho h h.root hdy hkx hky

theorem Arranged.leaf_unique (ho : Arranged lo hi t) (h : Shape ht full t) {x y : Nat} (hx : t.Made x)
    (hy : t.Made y) (hlx : (t.cache x).isLeaf = true) (hly : (t.cache y).isLeaf = true) {key : K}
    (hkx : Answers lo hi key x) (hky : Answers lo hi key y) : x = y := by
  refine ho.height_unique h hx hy ?_ hkx hky
  rw [(h.leaf x hx).mp hlx, (h.leaf y hy).mp hly]

/-- The leaf a search for a key ends at is the one with the greatest key stored up to it. -/
theorem Arranged.findNode_floor (ho : Arranged lo hi t) (h : Shape ht 0 t) (hN : 2 ≤ N) {x : Nat} (hm : t.Made x)
    (hl : (t.cache x).isLeaf = true) {kv : K × V} (hkv : kv ∈ (t.cache x).live) {key : K} (hle : kv.1 ≤ key)
    (hlast : ∀ i kv', t.Made i → (t.cache i).isLeaf = true → kv' ∈ (t.cache i).live → kv'.1 ≤ key → kv'.1 ≤ kv.1) :
    t.findNode key = .ok x := by
  obtain ⟨leaf, he, hml, hll, ha, hb⟩ := ho.findNode h hN key
  obtain ⟨j, hj, rfl⟩ := Slots.mem_live.mp hkv
  have hlo : lo leaf ≤ ((t.cache x).key j : WithBot K) := by
    rcases (ho.range leaf hml).leafLo hll with hbot | ⟨hpos, h0⟩
    · rw [hbot]
      exact bot_le
    · rw [h0] at ha ⊢
      exact WithBot.coe_le_coe.mpr
        (hlast leaf _ hml hll (Slots.mem_live.mpr ⟨0, hpos, rfl⟩) (WithBot.coe_le_coe.mp ha))
  rw [he, ho.leaf_unique h hml hm hll hl ⟨hlo, lt_of_le_of_lt (WithTop.coe_le_coe.mpr hle) hb⟩ (ho.answers_slot hm hj)]

end

/-- `leaf` is the one leaf that stores `k`, and it stores it with `v`. -/
structure StoredIn (t : BTree K V N) (k : K) (v : V) (leaf : Nat) : Prop where
  made : t.Made leaf
  isLeaf : (t.cache leaf).isLeaf = true
  holds : (k, v) ∈ (t.cache leaf).live
  only : ∀ i, t.Made i → (t.cache i).isLeaf = true → k ∈ (t.cache i).live.map Prod.fst → i = leaf

/-- After any inserts of distinct keys `find` returns what was inserted under a key, and
`find_node` the leaf that stores it. -/
theorem find_inserted [Inhabited K] [Inhabited V] [Zero V] (hN : 2 ≤ N) (cacheSize : Nat)
    (kvs : List (K × V)) (hd : (kvs.map Prod.fst).Nodup) {t : BTree K V N}
    (hok : (BTree.init cacheSize : BTree K V N).insertAll kvs = .ok t) {k : K} {v : V} (hkv : (k, v) ∈ kvs) :
    t.find k = .ok v ∧ ∃ leaf, t.findNode k = .ok leaf ∧ StoredIn t k v leaf := by
  obtain ⟨ht, lo, hi, l, h, ho, hc, hp⟩ := insertAll_leaves hN cacheSize hd hok
  obtain ⟨i, hil, j, hj, hij⟩ := mem_records.mp (hp.mem_iff.mpr hkv)
  obtain ⟨him, hlf⟩ := (hc.leaves i).mp hil
  have hkey : (t.cache i).key j = k := congrArg Prod.fst hij
  have hans : Answers lo hi k i := hkey ▸ ho.arranged.answers_slot him hj
  have hh := h.height
  obtain ⟨leaf, res, he, hm, hl, ha, hb⟩ := ho.arranged.inerFind h hN h.root
    (show ht t.root < t.cachePos by omega) (show lo t.root ≤ (k : WithBot K) by rw [ho.rootLo]; exact bot_le)
    (by rw [ho.rootHi]; exact WithTop.coe_lt_top k)
  obtain rfl : leaf = i := ho.arranged.leaf_unique h hm him hl hlf ⟨ha, hb⟩ hans
  have hres : res = some v := by
    have hslot := Node.found_slot (ho.range leaf hm).sorted hj
    rw [inerFind_found he, ← hkey, hslot, hij]
  refine ⟨by simp only [find, he, hres, bind, Except.bind], leaf,
    by simp only [findNode, he, bind, Except.bind], hm, hl, Slots.mem_live.mpr ⟨j, hj, hij⟩, fun x hx hlx hkx => ?_⟩
  obtain ⟨kv, hkv, hkk⟩ := List.mem_map.mp hkx
  obtain ⟨m, hmv, rfl⟩ := Slots.mem_live.mp hkv
  have hansx : Answers lo hi k x := hkk ▸ ho.arranged.answers_slot hx hmv
  exact ho.arranged.leaf_unique h hx hm hlx hl hansx ⟨ha, hb⟩

/-- Seven inserts make a tree of two levels, and the key at its middle is found. -/
theorem find_inserted_seven : ∃ t : BTree Nat Nat 2,
    (BTree.init 8).insertAll [(4, 10), (2, 11), (6, 12), (1, 13), (3, 14), (7, 15), (5, 16)] = .ok t ∧
      t.find 4 = .ok 10 ∧ ∃ leaf, t.findNode 4 = .ok leaf ∧ StoredIn t 4 10 leaf := by
  refine ⟨_, rfl, ?_⟩
  exact find_inserted (K := Nat) (V := Nat) (N := 2) le_rfl 8
    [(4, 10), (2, 11), (6, 12), (1, 13), (3, 14), (7, 15), (5, 16)] (by decide) rfl (by decide)

/-! ### Other keys -/

/-- A search of a leaf reports nothing where all its keys are below. -/
theorem Node.found_none_iff {n : Node K V} {key : K} :
    n.found key = none ↔ ∀ kv, kv ∈ n.live → kv.1 < key := by
  have hle := n.lowerBound_le key
  unfold found
  constructor
  · intro h kv hkv
    obtain ⟨j, hj, rfl⟩ := Slots.mem_live.mp hkv
    have hend : n.lowerBound key = n.valsSize := by
      by_contra hne
      rw [if_pos hne] at h
      cases h
    exact key_lt_of_lt_lowerBound (by omega)
  · intro h
    refine if_neg (not_not.mpr ?_)
    by_contra hne
    have hlt : n.lowerBound key < n.valsSize := by omega
    exact absurd (le_key_lowerBound hlt) (not_le.mpr (h _ (Slots.mem_live.mpr ⟨_, hlt, rfl⟩)))

/-- No leaf holds keys on both sides of `k`, and where there are keys above it there are keys
below it. -/
def BetweenLeaves (t : BTree K V N) (kvs : List (K × V)) (k : K) : Prop :=
  (∀ i, t.Made i → (t.cache i).isLeaf = true → ∀ a b, a ∈ (t.cache i).live → b ∈ (t.cache i).live →
    ¬ (a.1 < k ∧ k < b.1)) ∧
  ((∃ kv, kv ∈ kvs ∧ k < kv.1) → ∃ kv, kv ∈ kvs ∧ kv.1 < k)

section
variable [Inhabited K] [Inhabited V] {ht : Nat → Nat} {lo : Nat → WithBot K} {hi : Nat → WithTop K}
  {t : BTree K V N} {kvs : List (K × V)} {l : List Nat} {k : K} {leaf : Nat}

/-- The leaf that answers for a key holds nothing above it just where the key falls between
leaves. -/
theorem Arranged.below_iff (ho : Arranged lo hi t) (h : Shape ht 0 t) (hN : 2 ≤ N) (hc : Chain t l)
    (hp : (t.records l).Perm kvs) (hk : k ∉ kvs.map Prod.fst) (hm : t.Made leaf)
    (hl : (t.cache leaf).isLeaf = true) (hans : Answers lo hi k leaf) :
    (∀ kv, kv ∈ (t.cache leaf).live → kv.1 < k) ↔ BetweenLeaves t kvs k := by
  have hmem : ∀ i kv, t.Made i → (t.cache i).isLeaf = true → kv ∈ (t.cache i).live → kv ∈ kvs := by
    intro i kv hi' hli hkv
    exact hp.mem_iff.mp (List.mem_flatMap.mpr ⟨i, (hc.leaves i).mpr ⟨hi', hli⟩, hkv⟩)
  have hne : ∀ kv, kv ∈ kvs → kv.1 ≠ k := fun kv hkv he => hk (he ▸ List.mem_map_of_mem hkv)
  have hkey : ∀ i kv, t.Made i → kv ∈ (t.cache i).live → Answers lo hi kv.1 i := by
    intro i kv hi' hkv
    obtain ⟨j, hj, rfl⟩ := Slots.mem_live.mp hkv
    exact ho.answers_slot hi' hj
  have hat : ∀ kv, kv ∈ kvs → ∃ i, t.Made i ∧ (t.cache i).isLeaf = true ∧ kv ∈ (t.cache i).live := by
    intro kv hkv
    obtain ⟨i, hi', hkv⟩ := List.mem_flatMap.mp (hp.mem_iff.mpr hkv)
    exact ⟨i, ((hc.leaves i).mp hi').1, ((hc.leaves i).mp hi').2, hkv⟩
  constructor
  · intro hbelow
    constructor
    -- a leaf with keys on both sides answers for `k` too
    · rintro i him hil a b ha hb ⟨hak, hkb⟩
      have hi' : Answers lo hi k i :=
        ⟨(hkey i a him ha).1.trans (WithBot.coe_le_coe.mpr hak.le),
          (WithTop.coe_lt_coe.mpr hkb).trans (hkey i b him hb).2⟩
      rw [ho.leaf_unique h him hm hil hl hi' hans] at hb
      exact absurd (hbelow b hb) (not_lt.mpr hkb.le)
    · rintro ⟨kv, hkv, hlt⟩
      obtain ⟨i, him, hil, hkv⟩ := hat kv hkv
      have hroot : leaf ≠ t.root := by
        rintro rfl
        by_cases hi' : i = t.root
        · exact absurd (hbelow kv (hi' ▸ hkv)) (not_lt.mpr hlt.le)
        · have := h.below i him hi'
          rw [(h.leaf _ hm).mp hl] at this
          omega
      have hmin := h.minLeaf leaf hm hroot hl
      have hfirst : (t.cache leaf).vals 0 ∈ (t.cache leaf).live := Slots.mem_live.mpr ⟨0, by omega, rfl⟩
      exact ⟨_, hmem leaf _ hm hl hfirst, hbelow _ hfirst⟩
  · rintro ⟨hsides, hsome⟩ kv hkv
    by_contra hge
    have hlt : k < kv.1 := lt_of_le_of_ne (not_lt.mp hge) (hne kv (hmem leaf kv hm hl hkv)).symm
    obtain ⟨low, hlow, hlowk⟩ := hsome ⟨kv, hmem leaf kv hm hl hkv, hlt⟩
    -- the leaf holds no key below `k`, so its interval has no beginning, and a smaller key is its own
    have hbot : lo leaf = ⊥ := by
      rcases (ho.range leaf hm).leafLo hl with hbot | ⟨hpos, h0⟩
      · exact hbot
      · have hmem0 : (t.cache leaf).vals 0 ∈ (t.cache leaf).live := Slots.mem_live.mpr ⟨0, hpos, rfl⟩
        have hle : (t.cache leaf).key 0 ≤ k := by
          have := hans.1
          rw [h0] at this
          exact WithBot.coe_le_coe.mp this
        have hlt0 := lt_of_le_of_ne hle (hne _ (hmem leaf _ hm hl hmem0))
        exact absurd ⟨hlt0, hlt⟩ (hsides leaf hm hl _ _ hmem0 hkv)
    obtain ⟨i, him, hil, hi'⟩ := hat low hlow
    have hsame : i = leaf := by
      refine ho.leaf_unique h him hm hil hl (hkey i low him hi') ⟨?_, ?_⟩
      · rw [hbot]
        exact bot_le
      · exact (WithTop.coe_lt_coe.mpr hlowk).trans hans.2
    rw [hsame] at hi'
    exact hsides leaf hm hl low kv hi' hkv ⟨hlowk, hlt⟩

end

/-- After any inserts of distinct keys a key that was not inserted is reported as not found,
and `find` returns zero, just where it falls between leaves. -/
theorem find_absent_iff [Inhabited K] [Inhabited V] [Zero V] (hN : 2 ≤ N) (cacheSize : Nat)
    (kvs : List (K × V)) (hd : (kvs.map Prod.fst).Nodup) {t : BTree K V N}
    (hok : (BTree.init cacheSize : BTree K V N).insertAll kvs = .ok t) {k : K} (hk : k ∉ kvs.map Prod.fst) :
    ((∃ leaf, t.inerFind k t.cachePos t.root = .ok (some (leaf, none))) ∧ t.find k = .ok 0) ↔
      BetweenLeaves t kvs k := by
  obtain ⟨ht, lo, hi, l, h, ho, hc, hp⟩ := insertAll_leaves hN cacheSize hd hok
  have hh := h.height
  obtain ⟨leaf, res, he, hm, hl, ha, hb⟩ := ho.arranged.inerFind h hN h.root
    (show ht t.root < t.cachePos by omega) (show lo t.root ≤ (k : WithBot K) by rw [ho.rootLo]; exact bot_le)
    (by rw [ho.rootHi]; exact WithTop.coe_lt_top k)
  rw [← ho.arranged.below_iff h hN hc hp hk hm hl ⟨ha, hb⟩, ← Node.found_none_iff, ← inerFind_found he]
  constructor
  · rintro ⟨⟨leaf', hleaf⟩, -⟩
    rw [he] at hleaf
    simp only [Except.ok.injEq, Option.some.injEq, Prod.mk.injEq] at hleaf
    exact hleaf.2
  · rintro rfl
    exact ⟨⟨leaf, he⟩, by simp only [find, he, bind, Except.bind]⟩

/-- Of the keys 1, 2, 5 and 6 two leaves are made, and 3 falls between them. -/
theorem find_absent_iff_between : ∃ t : BTree Nat Nat 2,
    (BTree.init 8).insertAll [(1, 11), (2, 12), (5, 15), (6, 16)] = .ok t ∧
      t.inerFind 3 t.cachePos t.root = .ok (some (1, none)) ∧ t.find 3 = .ok 0 ∧
      BetweenLeaves t [(1, 11), (2, 12), (5, 15), (6, 16)] 3 := by
  refine ⟨_, rfl, rfl, rfl, ?_⟩
  refine (find_absent_iff (K := Nat) (V := Nat) (N := 2) le_rfl 8 [(1, 11), (2, 12), (5, 15), (6, 16)]
    (by decide) rfl (by decide)).mp ⟨⟨1, rfl⟩, rfl⟩

/-- A key below the only one stored is found, with the value stored there. -/
theorem find_absent_found : ∃ t : BTree Nat Nat 2, (BTree.init 8).insertAll [(5, 15)] = .ok t ∧
    3 ∉ [(5, 15)].map Prod.fst ∧ t.inerFind 3 t.cachePos t.root = .ok (some (1, some 15)) ∧ t.find 3 = .ok 15 :=
  ⟨_, rfl, by decide, rfl, rfl⟩

end Nkvdb.BTree
