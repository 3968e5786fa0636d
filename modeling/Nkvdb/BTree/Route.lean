import Nkvdb.BTree.Sequence

/-! Where a search gives up, when keys repeat.

The nodes stay sorted whatever is inserted. A key is routed through the children between the
last separator that is not above it and the next one; the search takes that way down as long
as no inner node on it holds the key twice below a larger separator, and gives up there. -/
namespace Nkvdb.BTree
variable {K V : Type} {N : Nat} [LinearOrder K]

/-! ### Sorted nodes -/

/-- Every node is sorted, its keys perhaps repeating. -/
def AllAscending (t : BTree K V N) : Prop := ∀ i, t.Made i → (t.cache i).Ascending

section
variable [Inhabited K] [Inhabited V]

theorem AllAscending.init (cacheSize : Nat) : AllAscending (BTree.init cacheSize : BTree K V N) :=
  fun i hi => ((Ordered.init cacheSize).range i hi).sorted.ascending

omit [Inhabited K] [Inhabited V] in
theorem AllAscending.put {t : BTree K V N} (h : AllAscending t) {node : Nat} (hm : t.Made node) (key : K) (val : V) :
    AllAscending (t.setNode node ((t.cache node).withValue key val)) := by
  intro i hi
  by_cases hin : i = node
  · subst hin
    rw [setNode_self]
    exact (h i hm).withValue key val
  · rw [setNode_ne _ _ _ hin]
    exact h i hi

theorem AllAscending.split (ht : Nat → Nat) (node p : Nat) (t t' : BTree K V N)
    (h : Shape ht node t) (hm : t.Made node) (hs : Split t t' node p) (hq : AllAscending t) : AllAscending t' := by
  intro i hi
  by_cases hip : i = p
  · subst hip
    rcases hs.target with ⟨hr, -, -, -, he⟩ | ⟨-, -, -, -, he⟩
    · rcases hs.receiver h hm with ⟨-, hp, -⟩ | ⟨hr', -⟩
      · rw [he]
        exact (hq i hp).withValue (t.cache node).midle.1 (t.cache node).midle.2
      · exact absurd hr' hr
    · rw [he]
      intro j k hjk hk
      have : k < 1 := hk
      omega
  by_cases hin : i = node
  · rw [hin, hs.left]
    exact fun j k hjk hk => hq node hm j k hjk (lt_of_lt_of_le hk (Nat.div_le_self ..))
  rcases hs.made_cases h hm hi with hold | rfl | ⟨-, hc⟩
  · rw [hs.old_eq hold hin hip]
    exact hq i hold
  · rw [hs.right]
    exact fun j k hjk hk => Node.rightHalf_keys (hq node hm) hjk hk
  · exact absurd hc hip

/-- Inserts keep every node sorted. -/
theorem insertAll_ascending (hN : 2 ≤ N) {ht : Nat → Nat} {t t' : BTree K V N} {kvs : List (K × V)}
    (h : Shape ht 0 t) (hq : AllAscending t) (hok : t.insertAll kvs = .ok t') :
    (∃ ht', Shape ht' 0 t') ∧ AllAscending t' := by
  refine insertAll_carries hN (fun ht node p t t' h hm hs _ hq => ?_) (fun node t key val hm _ hq => ?_) h hq hok
  · exact AllAscending.split ht node p t t' h hm hs hq
  · exact hq.put hm key val

end

/-! ### The way down -/

/-- Child `j` of `n` is the one between the last separator that is not above `key` and the next. -/
def Node.Routes (n : Node K V) (key : K) (j : Nat) : Prop :=
  j < n.childsSize ∧ (j = 0 ∨ n.key (j - 1) ≤ key) ∧ (j = n.valsSize ∨ key < n.key j)

/-- The nodes that `key` is routed through, from node `i` down. -/
inductive Routed (t : BTree K V N) (key : K) : Nat → Nat → Prop where
  | here {i : Nat} : Routed t key i i
  | down {i j x : Nat} : (t.cache i).isLeaf = false → (t.cache i).Routes key j →
    Routed t key ((t.cache i).childs j) x → Routed t key i x

/-- An inner node with `key` in two neighbouring slots, below a larger separator. -/
def Node.Doubled (n : Node K V) (key : K) : Prop :=
  n.isLeaf = false ∧ key < n.key (n.valsSize - 1) ∧
    ∃ j, j + 1 < n.valsSize ∧ n.key j = key ∧ n.key (j + 1) = key

theorem Node.Routes.unique {n : Node K V} (h : n.Ascending) (hcs : n.childsSize = n.valsSize + 1) {key : K}
    {j k : Nat} (hj : n.Routes key j) (hk : n.Routes key k) : j = k := by
  have apart : ∀ a b, a < b → n.Routes key a → ¬ n.Routes key b := by
    rintro a b hab ⟨-, -, ha⟩ ⟨hb, hb', -⟩
    have h1 : key < n.key a := ha.resolve_left (by omega)
    have h2 : n.key (b - 1) ≤ key := hb'.resolve_left (by omega)
    exact absurd (h1.trans_le ((h.le (by omega) (by omega)).trans h2)) (lt_irrefl _)
  rcases Nat.lt_trichotomy j k with hlt | he | hgt
  · exact absurd hk (apart j k hlt hj)
  · exact he
  · exact absurd hj (apart k j hgt hk)

section
variable [Inhabited K] [Inhabited V] {ht : Nat → Nat} {t : BTree K V N}

/-- A search goes to the child its key is routed to. -/
theorem inerFind_routes (h : Shape ht 0 t) (hN : 2 ≤ N) (hq : AllAscending t) {key : K} {i : Nat}
    (hi : t.Made i) (hl : (t.cache i).isLeaf = false) (hd : ¬ (t.cache i).Doubled key) (fuel : Nat) :
    ∃ j, (t.cache i).Routes key j ∧ t.inerFind key (fuel + 1) i = t.inerFind key fuel ((t.cache i).childs j) := by
  have hcs := h.innerChilds i hi hl
  have hvs := h.inner_vals hN hi hl
  simp only [inerFind, hl, Bool.false_eq_true, if_false]
  by_cases hfirst : key < (t.cache i).key 0
  · rw [if_pos hfirst]
    exact ⟨0, ⟨by omega, .inl rfl, .inr hfirst⟩, rfl⟩
  rw [if_neg hfirst]
  by_cases hlast : (t.cache i).childsSize ≠ 0 ∧ (t.cache i).valsSize ≠ 0 ∧
      (t.cache i).key ((t.cache i).valsSize - 1) ≤ key
  · rw [if_pos hlast]
    refine ⟨(t.cache i).childsSize - 1, ⟨by omega, .inr ?_, .inl (by omega)⟩, rfl⟩
    rw [hcs, Nat.add_sub_cancel]
    exact hlast.2.2
  rw [if_neg hlast]
  have hlt : key < (t.cache i).key ((t.cache i).valsSize - 1) := by
    by_contra hge
    exact hlast ⟨by omega, by omega, not_lt.mp hge⟩
  have hin : (t.cache i).lowerBound key < (t.cache i).valsSize :=
    Node.lowerBound_lt (j := (t.cache i).valsSize - 1) (by omega) hlt.le
  have hle := Node.le_key_lowerBound hin
  have take : ∀ d, d + 1 < (t.cache i).valsSize → (t.cache i).key d ≤ key → key < (t.cache i).key (d + 1) →
      ∃ j, (t.cache i).Routes key j ∧ (if key < (t.cache i).key (d + 1) then
        t.inerFind key fuel ((t.cache i).childs (d + 1)) else .ok none) = t.inerFind key fuel ((t.cache i).childs j) :=
    fun d hdv h1 h2 => ⟨d + 1, ⟨by omega, .inr h1, .inr h2⟩, if_pos h2⟩
  split
  next hne =>
    have hgt : key < (t.cache i).key ((t.cache i).lowerBound key) := lt_of_le_of_ne hle (Ne.symm hne)
    have hpos : 0 < (t.cache i).lowerBound key := by
      by_contra h0
      rw [Nat.eq_zero_of_not_pos h0] at hgt
      exact hfirst hgt
    have hs : (t.cache i).lowerBound key - 1 + 1 = (t.cache i).lowerBound key := by omega
    refine take _ (by omega) (Node.key_lt_of_lt_lowerBound (by omega)).le ?_
    rwa [hs]
  next he =>
    have he := not_not.mp he
    have hne : (t.cache i).lowerBound key ≠ (t.cache i).valsSize - 1 := by
      intro h
      rw [← h, he] at hlt
      exact lt_irrefl _ hlt
    -- the next separator is larger, or the key stands there twice
    have hup := hq i hi _ _ (Nat.lt_succ_self ((t.cache i).lowerBound key)) (by omega)
    rw [he] at hup
    refine take _ (by omega) he.le (lt_of_le_of_ne hup fun hdup => ?_)
    exact hd ⟨hl, hlt, (t.cache i).lowerBound key, by omega, he, hdup.symm⟩

omit [Inhabited K] [Inhabited V] in
/-- A search gives up at a node that holds its key twice below a larger separator. -/
theorem inerFind_doubled (hq : AllAscending t) {key : K} {i : Nat} (hi : t.Made i)
    (hd : (t.cache i).Doubled key) (fuel : Nat) : t.inerFind key (fuel + 1) i = .ok none := by
  obtain ⟨hl, hlt, j, hj, he, he'⟩ := hd
  have hasc := hq i hi
  have hfirst : ¬ key < (t.cache i).key 0 := by
    rw [not_lt, ← he]
    exact hasc.le (Nat.zero_le _) (by omega)
  have hlast : ¬ ((t.cache i).childsSize ≠ 0 ∧ (t.cache i).valsSize ≠ 0 ∧
      (t.cache i).key ((t.cache i).valsSize - 1) ≤ key) := fun h => absurd h.2.2 (not_le.mpr hlt)
  have hin : (t.cache i).lowerBound key < (t.cache i).valsSize :=
    Node.lowerBound_lt (show j < (t.cache i).valsSize by omega) he.ge
  have hle : (t.cache i).lowerBound key ≤ j := by
    by_contra hgt
    exact absurd (Node.key_lt_of_lt_lowerBound (not_le.mp hgt)) (by rw [he]; exact lt_irrefl _)
  -- from the lower bound to `j + 1` there is only the key
  have hsame : ∀ m, (t.cache i).lowerBound key ≤ m → m ≤ j + 1 → (t.cache i).key m = key := by
    intro m h1 h2
    refine le_antisymm ?_ ((Node.le_key_lowerBound hin).trans (hasc.le h1 (by omega)))
    exact (hasc.le h2 hj).trans he'.le
  simp only [inerFind, hl, Bool.false_eq_true, if_false]
  rw [if_neg hfirst, if_neg hlast, if_neg (not_not.mpr (hsame _ le_rfl (by omega))),
    if_neg (by rw [hsame _ (Nat.le_succ _) (by omega)]; exact lt_irrefl _)]

/-- A search gives up just where its key is routed through such a node. The induction goes down
the way the key is routed. -/
theorem inerFind_none_iff (h : Shape ht 0 t) (hN : 2 ≤ N) (hq : AllAscending t) (key : K) {fuel i : Nat}
    (hi : t.Made i) (hf : ht i < fuel) :
    t.inerFind key fuel i = .ok none ↔ ∃ x, t.Routed key i x ∧ (t.cache x).Doubled key := by
  induction fuel generalizing i with
  | zero => omega
  | succ fuel ih =>
    by_cases hd : (t.cache i).Doubled key
    · exact iff_of_true (inerFind_doubled hq hi hd fuel) ⟨i, .here, hd⟩
    cases hl : (t.cache i).isLeaf
    swap
    · refine iff_of_false (fun he => ?_) ?_
      · simp only [inerFind, hl, if_true] at he
        cases he
      · rintro ⟨x, hr, hdx⟩
        cases hr with
        | here => exact hd hdx
        | down hl' =>
          rw [hl] at hl'
          cases hl'
    obtain ⟨j, hj, he⟩ := inerFind_routes h hN hq hi hl hd fuel
    obtain ⟨hc, -, hh⟩ := h.child i j hi hj.1
    rw [he, ih hc (by omega)]
    constructor
    · rintro ⟨x, hr, hdx⟩
      exact ⟨x, hr.down hl hj, hdx⟩
    · rintro ⟨x, hr, hdx⟩
      cases hr with
      | here => exact absurd hdx hd
      | down _ hk hr =>
        rw [hk.unique (hq i hi) (h.innerChilds i hi hl) hj] at hr
        exact ⟨x, hr, hdx⟩

/-- A key is routed to one leaf. -/
theorem Routed.leaf_unique (h : Shape ht 0 t) (hq : AllAscending t) {key : K} {i a b : Nat} (hi : t.Made i)
    (ha : t.Routed key i a) (hla : (t.cache a).isLeaf = true) (hb : t.Routed key i b)
    (hlb : (t.cache b).isLeaf = true) : a = b := by
  induction ha with
  | here =>
    cases hb with
    | here => rfl
    | down hl =>
      rw [hl] at hla
      cases hla
  | down hl hj _ ih =>
    cases hb with
    | here =>
      rw [hl] at hlb
      cases hlb
    | down _ hk hb =>
      rw [hk.unique (hq _ hi) (h.innerChilds _ hi hl) hj] at hb
      exact ih (h.child _ _ hi hj.1).1 hla hb

/-- The leaf a search ends at is one its key is routed to. -/
theorem inerFind_routed (h : Shape ht 0 t) (hN : 2 ≤ N) (hq : AllAscending t) {key : K} {fuel i leaf : Nat}
    {res : Option V} (hi : t.Made i) (he : t.inerFind key fuel i = .ok (some (leaf, res))) : t.Routed key i leaf := by
  induction fuel generalizing i with
  | zero => cases he
  | succ fuel ih =>
    cases hl : (t.cache i).isLeaf
    · have hd : ¬ (t.cache i).Doubled key := by
        intro hd
        rw [inerFind_doubled hq hi hd fuel] at he
        cases he
      obtain ⟨j, hj, hstep⟩ := inerFind_routes h hN hq hi hl hd fuel
      exact (ih (h.child i j hi hj.1).1 (hstep ▸ he)).down hl hj
    · simp only [inerFind, hl, if_true, Except.ok.injEq, Option.some.injEq, Prod.mk.injEq] at he
      rw [← he.1]
      exact .here

end

/-- After any inserts, repeated keys included, a search for a key ends at a leaf, so that an
insert of it has a node to work on and `find_node` returns a leaf, just where no node that the
key is routed through holds it twice below a larger separator. -/
theorem descent_iff [Inhabited K] [Inhabited V] (hN : 2 ≤ N) (cacheSize : Nat) (kvs : List (K × V))
    {t : BTree K V N} (hok : (BTree.init cacheSize : BTree K V N).insertAll kvs = .ok t) (key : K) :
    ((∃ leaf res, t.inerFind key t.cachePos t.root = .ok (some (leaf, res)) ∧ t.Made leaf ∧
        (t.cache leaf).isLeaf = true) ∧
      (∀ val t', t.insert key val ≠ .error (.nullNode, t')) ∧
      ∃ leaf, t.findNode key = .ok leaf ∧ (t.cache leaf).isLeaf = true) ↔
    ∀ i, t.Routed key t.root i → ¬ (t.cache i).Doubled key := by
  obtain ⟨⟨ht, h⟩, hq⟩ := insertAll_ascending hN (Shape.init cacheSize (by omega)) (AllAscending.init cacheSize) hok
  have hh := h.height
  have hnone := inerFind_none_iff h hN hq key h.root (show ht t.root < t.cachePos by omega)
  constructor
  · rintro ⟨⟨leaf, res, he, -⟩, -⟩ i hr hd
    rw [hnone.mpr ⟨i, hr, hd⟩] at he
    cases he
  · intro hno
    rcases h.inerFind_cases hN key h.root (show ht t.root < t.cachePos by omega) with he | ⟨leaf, res, he, hm, hl⟩
    · obtain ⟨i, hr, hd⟩ := hnone.mp he
      exact absurd hd (hno i hr)
    refine ⟨⟨leaf, res, he, hm, hl⟩, fun val t' herr => ?_, leaf, ?_, hl⟩
    · have hins : Completes (fun _ => True) (t.insert key val) :=
        insert_keeps hN (fun _ _ _ _ _ _ _ _ _ _ => trivial) h he hm hl trivial
      rw [herr] at hins
      cases hins
    · simp only [findNode, he, bind, Except.bind]

/-- Six inserts of one key and a seventh of a larger one leave a tree of two levels, and a search
for the repeated key ends at a leaf. -/
theorem descent_iff_repeated : ∃ t : BTree Nat Nat 2,
    (BTree.init 8).insertAll [(5, 0), (5, 1), (5, 2), (5, 3), (5, 4), (5, 5), (9, 6)] = .ok t ∧
      (t.cache t.root).isLeaf = false ∧
      (∃ leaf res, t.inerFind 5 t.cachePos t.root = .ok (some (leaf, res)) ∧ t.Made leaf ∧
        (t.cache leaf).isLeaf = true) ∧
      (∀ val t', t.insert 5 val ≠ .error (.nullNode, t')) ∧
      ∃ leaf, t.findNode 5 = .ok leaf ∧ (t.cache leaf).isLeaf = true := by
  obtain ⟨t, hok, hp⟩ := exists_ok (x := (BTree.init 8 : BTree Nat Nat 2).insertAll
    [(5, 0), (5, 1), (5, 2), (5, 3), (5, 4), (5, 5), (9, 6)])
    (p := fun t => decide ((t.cache t.root).isLeaf = false ∧ ¬ t.inerFind 5 t.cachePos t.root = .ok none))
    (by decide +kernel)
  obtain ⟨hl, hsome⟩ := of_decide_eq_true hp
  obtain ⟨⟨ht, h⟩, hq⟩ := insertAll_ascending le_rfl (Shape.init 8 (by decide)) (AllAscending.init 8) hok
  have hh := h.height
  have hnone := inerFind_none_iff h le_rfl hq 5 h.root (show ht t.root < t.cachePos by omega)
  exact ⟨t, hok, hl, (descent_iff le_rfl 8 _ hok 5).mpr fun i hr hd => hsome (hnone.mpr ⟨i, hr, hd⟩)⟩

/-- Nine inserts of one key and three of a larger one: the root's separators are 5, 5 and 9, a
search for 5 ends there, and an insert of it has no node. -/
theorem descent_stops : ∃ t : BTree Nat Nat 3,
    (BTree.init 8).insertAll [(5, 0), (5, 1), (5, 2), (5, 3), (5, 4), (5, 5), (5, 6), (5, 7), (5, 8),
      (9, 9), (9, 10), (9, 11)] = .ok t ∧
    t.inerFind 5 t.cachePos t.root = .ok none ∧ t.insert 5 12 = .error (.nullNode, t) ∧
    t.findNode 5 = .ok t.root ∧ (t.cache t.root).isLeaf = false := by
  obtain ⟨t, hok, hroot⟩ := exists_ok (x := (BTree.init 8 : BTree Nat Nat 3).insertAll [(5, 0), (5, 1), (5, 2),
    (5, 3), (5, 4), (5, 5), (5, 6), (5, 7), (5, 8), (9, 9), (9, 10), (9, 11)])
    (p := fun t => decide ((t.cache t.root).isLeaf = false ∧ (t.cache t.root).valsSize = 3 ∧
      (t.cache t.root).key 0 = 5 ∧ (t.cache t.root).key 1 = 5 ∧ (t.cache t.root).key 2 = 9)) (by decide +kernel)
  obtain ⟨hl, hv, h0, h1, h2⟩ := of_decide_eq_true hroot
  obtain ⟨⟨ht, h⟩, hq⟩ := insertAll_ascending (by decide) (Shape.init 8 (by decide)) (AllAscending.init 8) hok
  have hd : (t.cache t.root).Doubled 5 := by
    refine ⟨hl, ?_, 0, by omega, h0, h1⟩
    rw [hv, h2]
    decide
  have hh := h.height
  have hnone : t.inerFind 5 t.cachePos t.root = .ok none :=
    (inerFind_none_iff h (by decide) hq 5 h.root (by omega)).mpr ⟨_, .here, hd⟩
  exact ⟨t, hok, hnone, insert_none hnone, by simp only [findNode, hnone, bind, Except.bind], hl⟩

end Nkvdb.BTree
