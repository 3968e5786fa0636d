import Nkvdb.BTree.SplitOrder

/-! The representation invariant of the tree after any run of inserts of distinct keys. -/
namespace Nkvdb.BTree
variable {K V : Type} {N : Nat} [LinearOrder K]

/-- `x` lies `d` levels under `i`. -/
inductive Under (t : BTree K V N) (i : Nat) : Nat → Nat → Prop where
  | here : Under t i 0 i
  | child {d x j : Nat} : Under t i d x → j < (t.cache x).childsSize → Under t i (d + 1) ((t.cache x).childs j)

structure WellFormed (t : BTree K V N) : Prop where
  root : t.Made t.root
  /-- Every node handed out is in the tree. -/
  reached : ∀ i, t.Made i → ∃ d, t.Under t.root d i
  /-- All leaves are at the same depth. -/
  leaves : ∃ depth, ∀ i d, t.Under t.root d i → (t.cache i).isLeaf = true → d = depth
  innerChilds : ∀ i, t.Made i → (t.cache i).isLeaf = false → (t.cache i).childsSize = (t.cache i).valsSize + 1
  sorted : ∀ i, t.Made i → ∀ j k, j < k → k < (t.cache i).valsSize → (t.cache i).key j < (t.cache i).key k
  /-- What lies under child `j` lies between the separators on its two sides. -/
  childKeys : ∀ i j d x m, t.Made i → j < (t.cache i).childsSize → t.Under ((t.cache i).childs j) d x →
    m < (t.cache x).valsSize →
    (0 < j → (t.cache i).key (j - 1) ≤ (t.cache x).key m) ∧
      (j < (t.cache i).valsSize → (t.cache x).key m < (t.cache i).key j)
  parent : ∀ i j, t.Made i → j < (t.cache i).childsSize →
    t.Made ((t.cache i).childs j) ∧ (t.cache ((t.cache i).childs j)).parent = i
  rootParent : (t.cache t.root).parent = 0
  maxVals : ∀ i, t.Made i → (t.cache i).valsSize ≤ 2 * N - 1
  minLeaf : ∀ i, t.Made i → i ≠ t.root → (t.cache i).isLeaf = true → N ≤ (t.cache i).valsSize
  minInner : ∀ i, t.Made i → i ≠ t.root → (t.cache i).isLeaf = false → N - 1 ≤ (t.cache i).valsSize

variable [Inhabited K] [Inhabited V]

section
variable {ht : Nat → Nat} {full : Nat} {lo : Nat → WithBot K} {hi : Nat → WithTop K} {t : BTree K V N}

omit [LinearOrder K] in
theorem Under.height (h : Shape ht full t) {i d x : Nat} (hi' : t.Made i) (hu : t.Under i d x) :
    t.Made x ∧ ht x + d = ht i := by
  induction hu with
  | here => exact ⟨hi', rfl⟩
  | child _ hj ih =>
    obtain ⟨hx, hd⟩ := ih
    obtain ⟨hc, -, hh⟩ := h.child _ _ hx hj
    exact ⟨hc, by omega⟩

/-- The interval of what lies under a node is part of its own. -/
theorem Under.bounds (h : Shape ht full t) (ho : Arranged lo hi t) {i d x : Nat} (hi' : t.Made i)
    (hu : t.Under i d x) : lo i ≤ lo x ∧ hi x ≤ hi i := by
  induction hu with
  | here => exact ⟨le_rfl, le_rfl⟩
  | @child d x j hux hj ih =>
    obtain ⟨hl, hh⟩ := ih
    have hx := (hux.height h hi').1
    have hr := ho.range x hx
    obtain ⟨hpl, hph⟩ := ho.parts x hx j hj
    have hcs : (t.cache x).childsSize = (t.cache x).valsSize + 1 := by
      refine h.innerChilds x hx ?_
      by_contra hlf
      have := h.leafChilds x hx (by simpa using hlf)
      omega
    constructor
    · rw [hpl]
      split
      · exact hl
      · exact hl.trans (hr.above _ (by omega))
    · rw [hph]
      split
      · exact hh
      · exact (hr.below _ (by omega)).le.trans hh

omit [LinearOrder K] in
/-- Going up the parents from any node ends at the root. -/
theorem Shape.reached (h : Shape ht full t) {i : Nat} (hi' : t.Made i) : ∃ d, t.Under t.root d i := by
  obtain ⟨up, hup⟩ : ∃ up, ht i + up = ht t.root := by
    refine Nat.le.dest ?_
    by_cases hr : i = t.root
    · exact hr ▸ le_rfl
    · exact (h.below i hi' hr).le
  induction up generalizing i with
  | zero =>
    by_cases hr : i = t.root
    · exact ⟨0, hr ▸ Under.here⟩
    · have := h.below i hi' hr
      omega
  | succ up ih =>
    have hr : i ≠ t.root := by
      rintro rfl
      omega
    obtain ⟨hp, j, hj, hc⟩ := h.parent i hi' hr
    have hh := h.parent_height hi' hr
    obtain ⟨d, hd⟩ := ih hp (by omega)
    have := hd.child hj
    rw [hc] at this
    exact ⟨d + 1, this⟩

theorem Ordered.wellFormed (ho : Ordered lo hi t) (h : Shape ht 0 t) (hN : 2 ≤ N) : WellFormed t := by
  constructor
  case root => exact h.root
  case reached => exact fun i hi' => h.reached hi'
  case leaves =>
    refine ⟨ht t.root, fun i d hu hl => ?_⟩
    obtain ⟨hm, hd⟩ := hu.height h h.root
    have := (h.leaf i hm).mp hl
    omega
  case innerChilds => exact h.innerChilds
  case sorted => exact fun i hi' => (ho.range i hi').sorted
  case childKeys =>
    intro i j d x m hi' hj hu hmv
    obtain ⟨hpl, hph⟩ := ho.parts i hi' j hj
    have hc := (h.child i j hi' hj).1
    obtain ⟨hlo, hhi⟩ := hu.bounds h ho.arranged hc
    have hx := ho.range x (hu.height h hc).1
    constructor
    · intro h0
      rw [hpl, if_neg (by omega)] at hlo
      exact WithBot.coe_le_coe.mp (hlo.trans (hx.above m hmv))
    · intro hjv
      rw [hph, if_neg (by omega)] at hhi
      exact WithTop.coe_lt_coe.mp (lt_of_lt_of_le (hx.below m hmv) hhi)
  case parent => exact fun i j hi' hj => ⟨(h.child i j hi' hj).1, (h.child i j hi' hj).2.1⟩
  case rootParent => exact h.rootParent
  case maxVals =>
    intro i hi'
    cases hl : (t.cache i).isLeaf
    · have := h.maxInner i hi' hi'.ne_zero hl
      omega
    · have := h.maxLeaf i hi' hi'.ne_zero hl
      omega
  case minLeaf => exact h.minLeaf
  case minInner =>
    intro i hi' hr hl
    have := h.minInner i hi' hr hl
    omega

/-- An insert of a new key keeps the order. -/
theorem insert_ordered (hN : 2 ≤ N) (h : Shape ht 0 t) (ho : Ordered lo hi t) {kvs : List (K × V)}
    (hq : Holds kvs t) {key : K} (val : V) (hne : ∀ kv, kv ∈ kvs → kv.1 ≠ key) :
    Completes (fun t' => (∃ lo' hi', Ordered lo' hi' t') ∧ Holds ((key, val) :: kvs) t') (t.insert key val) := by
  have hh := h.height
  obtain ⟨leaf, res, he, hm, hl, ha, hb⟩ := ho.arranged.inerFind h hN h.root
    (show ht t.root < t.cachePos by omega) (show lo t.root ≤ (key : WithBot K) by rw [ho.rootLo]; exact bot_le)
    (by rw [ho.rootHi]; exact WithTop.coe_lt_top key)
  refine insert_keeps hN (fun ht node p t t' hsh hmn hs hsh' => ?_) h he hm hl ?_
  · rintro ⟨⟨lo', hi', ho'⟩, hq'⟩
    exact ⟨⟨_, _, hs.ordered hsh hmn hN ho'⟩, hq'.split ht node p t t' hsh hmn hs hsh'⟩
  · refine ⟨⟨lo, hi, ho.put hm val hl (fun j hj hk => ?_) (h.leafChilds leaf hm hl) ha hb⟩,
      hq.put hm hl key val⟩
    -- the key at `j` is held, so it is not the new one
    obtain ⟨l, hc, hp⟩ := hq
    have hmem : (t.cache leaf).vals j ∈ t.records l :=
      mem_records.mpr ⟨leaf, (hc.leaves leaf).mpr ⟨hm, hl⟩, j, hj, rfl⟩
    exact hne _ (hp.mem_iff.mp hmem) hk

/-- A run of inserts of distinct new keys keeps the order. -/
theorem insertAll_ordered (hN : 2 ≤ N) (h : Shape ht 0 t) (ho : Ordered lo hi t) {kvs : List (K × V)}
    (hq : Holds kvs t) (new : List (K × V)) (hd : ((kvs ++ new).map Prod.fst).Nodup) :
    Completes (fun t' => (∃ lo' hi', Ordered lo' hi' t') ∧ Holds (kvs ++ new) t') (t.insertAll new) := by
  induction new generalizing ht lo hi t kvs with
  | nil =>
    rw [List.append_nil]
    exact ⟨⟨ht, h⟩, ⟨lo, hi, ho⟩, hq⟩
  | cons kv rest ih =>
    obtain ⟨key, val⟩ := kv
    have hperm : ((key, val) :: kvs ++ rest).Perm (kvs ++ (key, val) :: rest) := List.perm_middle.symm
    have hd' : (((key, val) :: kvs ++ rest).map Prod.fst).Nodup := (hperm.map Prod.fst).nodup_iff.mpr hd
    have hne : ∀ kv, kv ∈ kvs → kv.1 ≠ key := by
      intro kv hkv hk
      have hmem : kv.1 ∈ (kvs ++ rest).map Prod.fst := List.mem_map_of_mem (List.mem_append_left _ hkv)
      exact (List.nodup_cons.mp hd').1 (hk ▸ hmem)
    have hins := insert_ordered hN h ho hq val hne
    cases hi' : t.insert key val with
    | error e =>
      obtain ⟨f, t'⟩ := e
      rw [hi'] at hins
      simp only [insertAll, hi', bind, Except.bind]
      exact hins
    | ok t₁ =>
      rw [hi'] at hins
      obtain ⟨⟨ht₁, h₁⟩, ⟨lo₁, hi₁, ho₁⟩, hq₁⟩ := hins
      have hrest := ih h₁ ho₁ hq₁ hd'
      simp only [insertAll, hi', bind, Except.bind]
      cases hr : t₁.insertAll rest with
      | error e => rwa [hr] at hrest
      | ok t₂ =>
        rw [hr] at hrest
        obtain ⟨hsh, hord, l, hc, hp⟩ := hrest
        exact ⟨hsh, hord, l, hc, hp.trans hperm⟩

end

/-- What inserts of distinct keys into an empty tree leave. -/
theorem insertAll_leaves (hN : 2 ≤ N) (cacheSize : Nat) {kvs : List (K × V)} (hd : (kvs.map Prod.fst).Nodup)
    {t : BTree K V N} (hok : (BTree.init cacheSize : BTree K V N).insertAll kvs = .ok t) :
    ∃ ht lo hi l, Shape ht 0 t ∧ Ordered lo hi t ∧ Chain t l ∧ (t.records l).Perm kvs := by
  have hrun := insertAll_ordered hN (Shape.init cacheSize (by omega)) (Ordered.init cacheSize)
    (Holds.init cacheSize) kvs hd
  rw [hok] at hrun
  obtain ⟨⟨ht, h⟩, ⟨lo, hi, ho⟩, l, hc, hp⟩ := hrun
  exact ⟨ht, lo, hi, l, h, ho, hc, hp⟩

/-- After any inserts of distinct keys the tree is well formed, unless `make_node` ran out
of nodes; no insert fails in another way, so none writes past a slot array. -/
theorem insertAll_wellFormed (hN : 2 ≤ N) (cacheSize : Nat) (kvs : List (K × V))
    (hd : (kvs.map Prod.fst).Nodup) :
    match (BTree.init cacheSize : BTree K V N).insertAll kvs with
    | .ok t => WellFormed t
    | .error (e, _) => e = .cacheIsFull := by
  have hrun := insertAll_ordered hN (Shape.init cacheSize (by omega)) (Ordered.init cacheSize)
    (Holds.init cacheSize) kvs hd
  split
  next t ht =>
    rw [ht] at hrun
    obtain ⟨⟨_, hsh⟩, ⟨_, _, hord⟩, -⟩ := hrun
    exact hord.wellFormed hsh hN
  next e _ he =>
    rw [he] at hrun
    exact hrun

/-- Seven inserts into nodes of four slots split leaves and make a root. -/
theorem insertAll_wellFormed_seven : ∃ t : BTree Nat Nat 2,
    (BTree.init 8).insertAll [(4, 0), (2, 1), (6, 2), (1, 3), (3, 4), (7, 5), (5, 6)] = .ok t ∧
      t.root ≠ 1 ∧ WellFormed t := by
  refine ⟨_, rfl, ?_, insertAll_wellFormed (K := Nat) (V := Nat) (N := 2) le_rfl 8
    [(4, 0), (2, 1), (6, 2), (1, 3), (3, 4), (7, 5), (5, 6)] (by decide)⟩
  decide

end Nkvdb.BTree
