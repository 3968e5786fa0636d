import Nkvdb.BTree.Chain

/-! `insert`, whatever the keys.

The search reaches a leaf or gives up; the store makes at most that leaf overfull;
`split_node` climbs from it to the root. What a store and a split keep, an insert
keeps: `insert_climbs` and `insert_keeps` are the rules every later invariant of
the tree is carried by. -/
namespace Nkvdb.BTree
variable {K V : Type} {N : Nat} [Inhabited K] [Inhabited V] [LinearOrder K]

/-- How an operation on a tree of `make_node`'s cache may end. -/
def Completes (Q : BTree K V N → Prop) : Except (Failure K V N) (BTree K V N) → Prop
  | .ok t => (∃ ht, Shape ht 0 t) ∧ Q t
  | .error (e, _) => e = .cacheIsFull

namespace Shape
variable {ht : Nat → Nat} {full : Nat} {t : BTree K V N}

omit [LinearOrder K] in
/-- An inner node holds a value. -/
theorem inner_vals (h : Shape ht 0 t) (hN : 2 ≤ N) {i : Nat} (hi : t.Made i)
    (hl : (t.cache i).isLeaf = false) : 0 < (t.cache i).valsSize := by
  by_cases hr : i = t.root
  · subst hr
    exact h.rootVals hl
  · have := h.minInner i hi hr hl
    omega

/-- Every search of enough steps ends at a leaf or without one. -/
theorem inerFind_cases (h : Shape ht 0 t) (hN : 2 ≤ N) (key : K) {fuel i : Nat} (hi : t.Made i)
    (hf : ht i < fuel) : t.inerFind key fuel i = .ok none ∨
      ∃ leaf res, t.inerFind key fuel i = .ok (some (leaf, res)) ∧ t.Made leaf ∧
        (t.cache leaf).isLeaf = true := by
  induction fuel generalizing i with
  | zero => omega
  | succ fuel ih =>
    have down : ∀ j, j < (t.cache i).childsSize → t.inerFind key fuel ((t.cache i).childs j) = .ok none ∨
        ∃ leaf res, t.inerFind key fuel ((t.cache i).childs j) = .ok (some (leaf, res)) ∧ t.Made leaf ∧
          (t.cache leaf).isLeaf = true := by
      intro j hj
      obtain ⟨hc, -, hh⟩ := h.child i j hi hj
      exact ih hc (by omega)
    cases hl : (t.cache i).isLeaf
    swap
    · refine .inr ⟨i, if (t.cache i).lowerBound key ≠ (t.cache i).valsSize
        then some ((t.cache i).vals ((t.cache i).lowerBound key)).2 else none, ?_, hi, hl⟩
      simp only [inerFind, hl, if_true]
    have hcs := h.innerChilds i hi hl
    have hvs := h.inner_vals hN hi hl
    simp only [inerFind, hl, Bool.false_eq_true, if_false]
    by_cases hfirst : key < (t.cache i).key 0
    · rw [if_pos hfirst]
      exact down 0 (by omega)
    rw [if_neg hfirst]
    by_cases hlast : (t.cache i).childsSize ≠ 0 ∧ (t.cache i).valsSize ≠ 0 ∧
        (t.cache i).key ((t.cache i).valsSize - 1) ≤ key
    · rw [if_pos hlast]
      exact down _ (by omega)
    rw [if_neg hlast]
    have hlt : key < (t.cache i).key ((t.cache i).valsSize - 1) := by
      by_contra hge
      exact hlast ⟨by omega, by omega, not_lt.mp hge⟩
    have hd : (t.cache i).lowerBound key < (t.cache i).valsSize :=
      Node.lowerBound_lt (j := (t.cache i).valsSize - 1) (by omega) hlt.le
    have next : ∀ d, d < (t.cache i).valsSize →
        (if key < (t.cache i).key (d + 1) then t.inerFind key fuel ((t.cache i).childs (d + 1)) else .ok none) =
          .ok none ∨
        ∃ leaf res, (if key < (t.cache i).key (d + 1) then t.inerFind key fuel ((t.cache i).childs (d + 1))
          else .ok none) = .ok (some (leaf, res)) ∧ t.Made leaf ∧ (t.cache leaf).isLeaf = true := by
      intro d hd
      split
      · exact down (d + 1) (by omega)
      · exact .inl rfl
    split
    · exact next _ (by omega)
    · exact next _ hd

/-- A search for a node ends at a leaf or at the root. -/
theorem findNode_made (h : Shape ht 0 t) (hN : 2 ≤ N) (key : K) :
    ∃ i, t.findNode key = .ok i ∧ t.Made i ∧ ((t.cache i).isLeaf = true ∨ i = t.root) := by
  have hh := h.height
  rcases h.inerFind_cases hN key h.root (show ht t.root < t.cachePos by omega) with he | ⟨leaf, res, he, hm, hl⟩
  · exact ⟨t.root, by simp only [findNode, he, bind, Except.bind], h.root, .inr rfl⟩
  · exact ⟨leaf, by simp only [findNode, he, bind, Except.bind], hm, .inl hl⟩

end Shape

/-! ### A value stored in a leaf -/

omit [Inhabited K] [Inhabited V] in
theorem Stores.withValue (t : BTree K V N) (node : Nat) (key : K) (val : V) :
    Stores t (t.setNode node ((t.cache node).withValue key val)) node := by
  have hother : ∀ i, i ≠ node → (t.setNode node ((t.cache node).withValue key val)).cache i = t.cache i :=
    fun i hi => setNode_ne _ _ _ hi
  have hsame : ∀ {α : Type} (f : Node K V → α), f ((t.cache node).withValue key val) = f (t.cache node) →
      ∀ i, f ((t.setNode node ((t.cache node).withValue key val)).cache i) = f (t.cache i) := by
    intro α f hf i
    by_cases hi : i = node
    · rw [hi, setNode_self, hf]
    · rw [hother i hi]
  exact ⟨setNode_root .., setNode_cachePos .., hsame Node.isLeaf rfl, hsame Node.id rfl, hsame Node.parent rfl,
    hsame Node.next rfl, hsame Node.childs rfl, hsame Node.childsSize rfl, by rw [setNode_self]; rfl, hother⟩

/-- A value stored in a leaf makes at most that leaf overfull. -/
theorem Shape.put {ht : Nat → Nat} {t : BTree K V N} (h : Shape ht 0 t) (key : K) (val : V) {node : Nat}
    (hm : t.Made node) (hl : (t.cache node).isLeaf = true) :
    Shape ht (if t.isFull node then node else 0) (t.setNode node ((t.cache node).withValue key val)) :=
  (Stores.withValue t node key val).shape h hl hm

/-! ### The rules -/

/-- How a climb of `split_node` ends: with `P` of the last receiver, or with `R` of the tree left
by a `make_node` that found the cache used up. -/
def Climbs (P : Nat → BTree K V N → Prop) (R : BTree K V N → Prop) : Except (Failure K V N) (BTree K V N) → Prop
  | .ok t => (∃ ht, Shape ht 0 t) ∧ ∃ p, P p t
  | .error (e, t) => e = .cacheIsFull ∧ R t

/-- What every split passes on to its receiver, `split_node` passes on. The induction is on the
levels from `node` up to the root. -/
theorem splitNode_climbs {P : Nat → BTree K V N → Prop} {R : BTree K V N → Prop} (hN : 2 ≤ N)
    (hstep : ∀ ht node p t t', Shape ht node t → t.Made node → Split t t' node p →
      Shape (splitHt ht t.cachePos node) (if t'.isFull p then p else 0) t' → P node t → P p t')
    (hstop : ∀ ht node t t', Shape ht node t → t.Made node → Stopped t t' node → P node t → R t')
    {fuel : Nat} {ht : Nat → Nat} {node : Nat} {t : BTree K V N} (h : Shape ht node t) (h0 : node ≠ 0)
    (hf : ht t.root < ht node + fuel) (hp : P node t) : Climbs P R (t.splitNode fuel node) := by
  induction fuel generalizing ht node t with
  | zero =>
    have hm := (h.overVals h0).1
    by_cases hr : node = t.root
    · rw [hr] at hf
      omega
    · have := h.below node hm hr
      omega
  | succ fuel ih =>
    have hm := (h.overVals h0).1
    rcases splitStep_cases h h0 hN with ⟨t', he, hstopped, -⟩ | ⟨p, t', he, hs, -⟩
    · simp only [splitNode, he, bind, Except.bind]
      exact ⟨rfl, hstop ht node t t' h hm hstopped hp⟩
    have hsh := hs.shape h hm hN
    have hp' := hstep ht node p t t' h hm hs hsh hp
    simp only [splitNode, he, bind, Except.bind]
    by_cases hfull : t'.isFull p = true
    · rw [if_pos hfull] at hsh ⊢
      refine ih hsh (hs.made_receiver h hm).ne_zero ?_ hp'
      rcases hs.receiver h hm with ⟨-, hpm, -, hh, -, hr, -⟩ | ⟨hr, -⟩
      · rw [hr, splitHt_old ht h.root.2, splitHt_old ht hpm.2]
        omega
      -- a new root holds one value
      · simp only [isFull, hs.receiver_root hr, Node.newRoot, decide_eq_true_eq] at hfull
        omega
    · rw [if_neg hfull] at hsh ⊢
      exact ⟨⟨_, hsh⟩, p, hp'⟩

/-- So an insert passes on what the store into the leaf found establishes. -/
theorem insert_climbs {P : Nat → BTree K V N → Prop} {R : BTree K V N → Prop} (hN : 2 ≤ N)
    (hstep : ∀ ht node p t t', Shape ht node t → t.Made node → Split t t' node p →
      Shape (splitHt ht t.cachePos node) (if t'.isFull p then p else 0) t' → P node t → P p t')
    (hstop : ∀ ht node t t', Shape ht node t → t.Made node → Stopped t t' node → P node t → R t')
    {ht : Nat → Nat} {t : BTree K V N} (h : Shape ht 0 t) {key : K} {val : V} {node : Nat} {res : Option V}
    (hfind : t.inerFind key t.cachePos t.root = .ok (some (node, res))) (hm : t.Made node)
    (hl : (t.cache node).isLeaf = true)
    (hput : P node (t.setNode node ((t.cache node).withValue key val))) : Climbs P R (t.insert key val) := by
  have hstore : t.onNode node (Node.insertValue N key val) =
      .ok (t.setNode node ((t.cache node).withValue key val)) :=
    onNode_ok _ _ _ (Node.insertValue_eq key val _ (h.maxLeaf node hm hm.ne_zero hl))
  have hsh := h.put key val hm hl
  simp only [insert, hfind, hstore, bind, Except.bind]
  by_cases hfull : t.isFull node = true
  · rw [if_pos hfull] at hsh ⊢
    have hh := h.height
    exact splitNode_climbs hN hstep hstop hsh hm.ne_zero (by simp only [setNode_root, setNode_cachePos]; omega) hput
  · rw [if_neg hfull] at hsh ⊢
    exact ⟨⟨ht, hsh⟩, node, hput⟩

/-- What the store into the leaf found establishes and every split keeps holds after
an insert. -/
theorem insert_keeps {Q : BTree K V N → Prop} (hN : 2 ≤ N)
    (hQ : ∀ ht node p t t', Shape ht node t → t.Made node → Split t t' node p →
      Shape (splitHt ht t.cachePos node) (if t'.isFull p then p else 0) t' → Q t → Q t')
    {ht : Nat → Nat} {t : BTree K V N} (h : Shape ht 0 t) {key : K} {val : V} {node : Nat} {res : Option V}
    (hfind : t.inerFind key t.cachePos t.root = .ok (some (node, res))) (hm : t.Made node)
    (hl : (t.cache node).isLeaf = true)
    (hput : Q (t.setNode node ((t.cache node).withValue key val))) : Completes Q (t.insert key val) := by
  have hclimb := insert_climbs (P := fun _ => Q) (R := fun _ => True) hN hQ (fun _ _ _ _ _ _ _ _ => trivial) h hfind
    hm hl hput
  cases hi : t.insert key val with
  | error e =>
    rw [hi] at hclimb
    exact hclimb.1
  | ok t' =>
    rw [hi] at hclimb
    obtain ⟨hsh, -, hq⟩ := hclimb
    exact ⟨hsh, hq⟩

omit [Inhabited K] [Inhabited V] in
theorem insert_none {t : BTree K V N} {key : K} {val : V}
    (hfind : t.inerFind key t.cachePos t.root = .ok none) : t.insert key val = .error (.nullNode, t) := by
  simp only [insert, hfind]

/-! ### What the tree holds -/

/-- A tree whose leaves hold the values of `kvs`, each as often as it is there. -/
def Holds (kvs : List (K × V)) (t : BTree K V N) : Prop :=
  ∃ l, Chain t l ∧ (t.records l).Perm kvs

omit [LinearOrder K] in
theorem Holds.init (cacheSize : Nat) : Holds [] (BTree.init cacheSize : BTree K V N) := by
  refine ⟨[1], Chain.init cacheSize, ?_⟩
  simp [records, BTree.init, Node.live, Node.zero, Slots.live]

theorem Holds.split {kvs : List (K × V)} (ht : Nat → Nat) (node p : Nat) (t t' : BTree K V N)
    (h : Shape ht node t) (hm : t.Made node) (hs : Split t t' node p)
    (h' : Shape (splitHt ht t.cachePos node) (if t'.isFull p then p else 0) t') (hq : Holds kvs t) :
    Holds kvs t' := by
  obtain ⟨l, hc, hp⟩ := hq
  obtain ⟨l', hc', he⟩ := hc.split hs h hm h'
  exact ⟨l', hc', he ▸ hp⟩

omit [Inhabited K] [Inhabited V] in
theorem Holds.put {kvs : List (K × V)} {t : BTree K V N} (hq : Holds kvs t) {node : Nat}
    (hm : t.Made node) (hl : (t.cache node).isLeaf = true) (key : K) (val : V) :
    Holds ((key, val) :: kvs) (t.setNode node ((t.cache node).withValue key val)) := by
  obtain ⟨l, hc, hp⟩ := hq
  obtain ⟨hc', hp'⟩ := hc.put ((hc.leaves node).mpr ⟨hm, hl⟩) key val
  exact ⟨l, hc', hp'.trans (hp.cons _)⟩

/-- An insert that completes adds its value to those held; one that does not found the
cache used up, or no leaf for its key. -/
theorem insert_holds (hN : 2 ≤ N) {ht : Nat → Nat} {t : BTree K V N} {kvs : List (K × V)}
    (h : Shape ht 0 t) (hq : Holds kvs t) (key : K) (val : V) :
    t.insert key val = .error (.nullNode, t) ∨ Completes (Holds ((key, val) :: kvs)) (t.insert key val) := by
  have hh := h.height
  rcases h.inerFind_cases hN key h.root (show ht t.root < t.cachePos by omega) with he | ⟨leaf, res, he, hm, hl⟩
  · exact .inl (insert_none he)
  · exact .inr (insert_keeps hN Holds.split h he hm hl (hq.put hm hl key val))

/-- A run of inserts fails in two ways only. -/
theorem insertAll_fault (hN : 2 ≤ N) {ht : Nat → Nat} {t : BTree K V N} {kvs new : List (K × V)}
    {e : Failure K V N} (h : Shape ht 0 t) (hq : Holds kvs t) (herr : t.insertAll new = .error e) :
    e.1 = .cacheIsFull ∨ e.1 = .nullNode := by
  induction new generalizing ht t kvs with
  | nil => cases herr
  | cons kv rest ih =>
    obtain ⟨key, val⟩ := kv
    have hins := insert_holds hN h hq key val
    cases hi : t.insert key val with
    | error e' =>
      obtain rfl : e' = e := by simpa [insertAll, hi, bind, Except.bind] using herr
      rw [hi] at hins
      rcases hins with he | hc
      · obtain rfl : e' = _ := by simpa using he
        exact .inr rfl
      · exact .inl hc
    | ok t₁ =>
      rw [hi] at hins
      rcases hins with he | ⟨⟨ht₁, h₁⟩, hq₁⟩
      · cases he
      · simp only [insertAll, hi, bind, Except.bind] at herr
        exact ih h₁ hq₁ herr

/-- What a store and a split keep of a tree and the values inserted, a run of inserts that
completes keeps. -/
theorem insertAll_keeps {Q : List (K × V) → BTree K V N → Prop} (hN : 2 ≤ N)
    (hperm : ∀ a b t, a.Perm b → Q a t → Q b t)
    (hQ : ∀ kvs ht node p t t', Shape ht node t → t.Made node → Split t t' node p →
      Shape (splitHt ht t.cachePos node) (if t'.isFull p then p else 0) t' → Q kvs t → Q kvs t')
    (hput : ∀ kvs node t key val, t.Made node → (t.cache node).isLeaf = true → Q kvs t →
      Q ((key, val) :: kvs) (t.setNode node ((t.cache node).withValue key val)))
    {ht : Nat → Nat} {t t' : BTree K V N} (kvs : List (K × V)) {new : List (K × V)} (h : Shape ht 0 t) (hq : Q kvs t)
    (hok : t.insertAll new = .ok t') : (∃ ht', Shape ht' 0 t') ∧ Q (kvs ++ new) t' := by
  induction new generalizing ht t kvs with
  | nil =>
    obtain rfl : t = t' := by simpa [insertAll] using hok
    rw [List.append_nil]
    exact ⟨⟨ht, h⟩, hq⟩
  | cons kv rest ih =>
    obtain ⟨key, val⟩ := kv
    have hh := h.height
    rcases h.inerFind_cases hN key h.root (show ht t.root < t.cachePos by omega) with he | ⟨leaf, res, he, hm, hl⟩
    · simp only [insertAll, insert_none he, bind, Except.bind] at hok
      cases hok
    have hins := insert_keeps hN (hQ ((key, val) :: kvs)) h he hm hl (hput kvs leaf t key val hm hl hq)
    cases hi : t.insert key val with
    | error e => simp only [insertAll, hi, bind, Except.bind] at hok; cases hok
    | ok t₁ =>
      rw [hi] at hins
      obtain ⟨⟨ht₁, h₁⟩, hq₁⟩ := hins
      simp only [insertAll, hi, bind, Except.bind] at hok
      obtain ⟨hsh, hq'⟩ := ih _ h₁ hq₁ hok
      exact ⟨hsh, hperm _ _ t' List.perm_middle.symm hq'⟩

/-- What they keep of a tree alone. -/
theorem insertAll_carries {Q : BTree K V N → Prop} (hN : 2 ≤ N)
    (hQ : ∀ ht node p t t', Shape ht node t → t.Made node → Split t t' node p →
      Shape (splitHt ht t.cachePos node) (if t'.isFull p then p else 0) t' → Q t → Q t')
    (hput : ∀ node t key val, t.Made node → (t.cache node).isLeaf = true → Q t →
      Q (t.setNode node ((t.cache node).withValue key val)))
    {ht : Nat → Nat} {t t' : BTree K V N} {new : List (K × V)} (h : Shape ht 0 t) (hq : Q t)
    (hok : t.insertAll new = .ok t') : (∃ ht', Shape ht' 0 t') ∧ Q t' := by
  exact insertAll_keeps (Q := fun _ => Q) hN (fun _ _ _ _ hq => hq) (fun _ => hQ) (fun _ => hput) [] h hq hok

theorem insertAll_holds (hN : 2 ≤ N) {ht : Nat → Nat} {t t' : BTree K V N} {kvs new : List (K × V)}
    (h : Shape ht 0 t) (hq : Holds kvs t) (hok : t.insertAll new = .ok t') :
    (∃ ht', Shape ht' 0 t') ∧ Holds (kvs ++ new) t' := by
  refine insertAll_keeps (Q := Holds) hN (fun a b t hab hq => ?_) (fun kvs => Holds.split) ?_ kvs h hq hok
  · obtain ⟨l, hc, hp⟩ := hq
    exact ⟨l, hc, hp.trans hab⟩
  · exact fun kvs node t key val hm hl hq => hq.put hm hl key val

/-! ### What the nodes hold -/

/-- Every value of a node, inner ones included, is one of `kvs`. -/
def Copied (kvs : List (K × V)) (t : BTree K V N) : Prop :=
  ∀ i, t.Made i → ∀ kv, kv ∈ (t.cache i).live → kv ∈ kvs

omit [LinearOrder K] in
theorem Copied.init (cacheSize : Nat) : Copied [] (BTree.init cacheSize : BTree K V N) := by
  intro i hi kv hkv
  obtain rfl : i = 1 := by
    have h1 := hi.1
    have h2 : i < 2 := hi.2
    omega
  simp [BTree.init, Node.live, Node.zero, Slots.live] at hkv

omit [Inhabited K] [Inhabited V] in
theorem Node.mem_withValue {n : Node K V} {key : K} {val : V} {kv : K × V} :
    kv ∈ (n.withValue key val).live ↔ kv = (key, val) ∨ kv ∈ n.live := by
  have hp : (n.withValue key val).live.Perm ((key, val) :: n.live) :=
    Slots.live_inserted_perm _ _ _ _ (n.lowerBound_le key)
  rw [hp.mem_iff, List.mem_cons]

omit [Inhabited K] [Inhabited V] in
theorem Copied.put {kvs : List (K × V)} {t : BTree K V N} (h : Copied kvs t) {node : Nat} (hm : t.Made node)
    (key : K) (val : V) : Copied ((key, val) :: kvs) (t.setNode node ((t.cache node).withValue key val)) := by
  intro i hi kv hkv
  by_cases hin : i = node
  · subst hin
    rw [setNode_self, Node.mem_withValue] at hkv
    rcases hkv with rfl | hkv
    · exact List.mem_cons_self
    · exact List.mem_cons_of_mem _ (h i hm kv hkv)
  · rw [setNode_ne _ _ _ hin] at hkv
    exact List.mem_cons_of_mem _ (h i hi kv hkv)

theorem Copied.split (hN : 2 ≤ N) {kvs : List (K × V)} (ht : Nat → Nat) (node p : Nat) (t t' : BTree K V N)
    (h : Shape ht node t) (hm : t.Made node) (hs : Split t t' node p)
    (_ : Shape (splitHt ht t.cachePos node) (if t'.isFull p then p else 0) t') (hq : Copied kvs t) :
    Copied kvs t' := by
  have hnode : ∀ j, j < (t.cache node).valsSize → (t.cache node).vals j ∈ kvs := fun j hj =>
    hq node hm _ (Slots.mem_live.mpr ⟨j, hj, rfl⟩)
  have hmid : (t.cache node).midle ∈ kvs := by
    have hover := (h.overVals hm.ne_zero).2
    have hpos : 0 < (t.cache node).valsSize := by
      rw [hover]
      split <;> omega
    exact hnode _ (Nat.div_lt_self hpos (by decide))
  intro i hi kv hkv
  by_cases hip : i = p
  · subst hip
    rcases hs.target with ⟨hr, -, -, -, he⟩ | ⟨-, -, -, -, he⟩
    · rw [he] at hkv
      replace hkv := Node.mem_withValue.mp hkv
      rcases hkv with rfl | hkv
      · exact hmid
      · rcases hs.receiver h hm with ⟨-, hp, -⟩ | ⟨hr', -⟩
        · exact hq i hp kv hkv
        · exact absurd hr' hr
    · rw [he] at hkv
      obtain ⟨j, hj, rfl⟩ := Slots.mem_live.mp hkv
      obtain rfl : j = 0 := Nat.lt_one_iff.mp hj
      exact hmid
  by_cases hin : i = node
  · subst hin
    rw [hs.left] at hkv
    obtain ⟨j, hj, rfl⟩ := Slots.mem_live.mp hkv
    exact hnode j (lt_of_lt_of_le hj (Nat.div_le_self ..))
  rcases hs.made_cases h hm hi with him | rfl | ⟨-, hc⟩
  · rw [hs.old_eq him hin hip] at hkv
    exact hq i him kv hkv
  · rw [hs.right] at hkv
    obtain ⟨j, hj, rfl⟩ := Slots.mem_live.mp hkv
    have hlt : j < (t.cache node).valsSize - (t.cache node).valsBegin := hj
    have he : ((t.cache node).rightHalf t.cachePos p).vals j = (t.cache node).vals ((t.cache node).valsBegin + j) :=
      if_pos hlt
    rw [he]
    exact hnode _ (by omega)
  · exact absurd hc hip

theorem insertAll_copied (hN : 2 ≤ N) {ht : Nat → Nat} {t t' : BTree K V N} {kvs new : List (K × V)}
    (h : Shape ht 0 t) (hq : Copied kvs t) (hok : t.insertAll new = .ok t') : Copied (kvs ++ new) t' := by
  refine (insertAll_keeps (Q := Copied) hN (fun a b t hab hq i hi kv hkv => hab.mem_iff.mp (hq i hi kv hkv))
    (fun kvs => Copied.split hN) ?_ kvs h hq hok).2
  exact fun kvs node t key val hm _ hq => hq.put hm key val

end Nkvdb.BTree
