import Nkvdb.BTree.Route

/-! Reading from a key on, when keys repeat.

Equal keys may stand in one leaf. As long as no split cuts a leaf inside a run of equal keys
the leaves stay apart, and the leaf a search ends at has before it only smaller keys; a split
that does leaves keys behind that the search passes by. -/
namespace Nkvdb.BTree
variable {K V : Type} {N : Nat} [LinearOrder K]

/-- An insert that splits no leaf, or one whose middle, with the new key in it, falls between
two different keys. -/
def InsertsApart (t : BTree K V N) (key : K) (val : V) : Prop :=
  ∀ leaf, t.Routed key t.root leaf → (t.cache leaf).isLeaf = true → t.isFull leaf = true →
    ((t.cache leaf).withValue key val).CutsApart

/-- A run of such inserts. -/
def RunsApart : List (K × V) → BTree K V N → Prop
  | [], _ => True
  | (k, v) :: rest, t => t.InsertsApart k v ∧ ∀ t', t.insert k v = .ok t' → RunsApart rest t'

variable [Inhabited K] [Inhabited V]

/-- Leaves stand apart, and one that is overfull can be cut. -/
structure Apart (kvs : List (K × V)) (t : BTree K V N) : Prop where
  arranged : ∃ lo hi, Arranged lo hi t
  holds : Holds kvs t
  cuts : ∀ i, t.Made i → (t.cache i).isLeaf = true → 2 * N ≤ (t.cache i).valsSize → (t.cache i).CutsApart

theorem Apart.split (hN : 2 ≤ N) {kvs : List (K × V)} (ht : Nat → Nat) (node p : Nat) (t t' : BTree K V N)
    (h : Shape ht node t) (hm : t.Made node) (hs : Split t t' node p)
    (h' : Shape (splitHt ht t.cachePos node) (if t'.isFull p then p else 0) t') (hq : Apart kvs t) : Apart kvs t' := by
  obtain ⟨lo, hi, ho⟩ := hq.arranged
  have hcut : (t.cache node).CutsApart := by
    intro hl
    have hv := (h.overVals hm.ne_zero).2
    rw [if_pos hl] at hv
    exact hq.cuts node hm hl hv.ge hl
  refine ⟨⟨_, _, hs.arranged h hm hN ho hcut⟩, hq.holds.split ht node p t t' h hm hs h', fun i hi' hl hv => ?_⟩
  -- only the receiver may be overfull, and it is no leaf
  have hfull : i ≠ if t'.isFull p then p else 0 := by
    intro he
    split at he
    · rw [he, (hs.receiver_sized h hm hN).1] at hl
      cases hl
    · exact hi'.ne_zero he
  have := h'.maxLeaf i hi' hfull hl
  omega

/-- An insert that cuts no run of equal keys keeps the leaves apart. -/
theorem insert_apart (hN : 2 ≤ N) {ht : Nat → Nat} {t t' : BTree K V N} {kvs : List (K × V)} {key : K} {val : V}
    (h : Shape ht 0 t) (hq : Apart kvs t) (hcut : t.InsertsApart key val) (hok : t.insert key val = .ok t') :
    (∃ ht', Shape ht' 0 t') ∧ Apart ((key, val) :: kvs) t' := by
  obtain ⟨lo, hi, ho⟩ := hq.arranged
  have hh := h.height
  have hasc : AllAscending t := fun i hi' => (ho.range i hi').ascending
  obtain ⟨leaf, res, he, hm, hl, ha, hb⟩ := ho.inerFind h hN h.root
    (show ht t.root < t.cachePos by omega) (show lo t.root ≤ (key : WithBot K) by rw [ho.rootLo]; exact bot_le)
    (by rw [ho.rootHi]; exact WithTop.coe_lt_top key)
  have hput : Apart ((key, val) :: kvs) (t.setNode leaf ((t.cache leaf).withValue key val)) := by
    refine ⟨⟨lo, hi, ho.put hm val hl (h.leafChilds leaf hm hl) ha hb⟩, hq.holds.put hm hl key val,
      fun i hi' hli hv => ?_⟩
    by_cases hin : i = leaf
    · subst hin
      rw [setNode_self] at hv ⊢
      have hfull : t.isFull i = true := decide_eq_true hv
      exact hcut i (inerFind_routed h hN hasc h.root he) hl hfull
    · rw [setNode_ne _ _ _ hin] at hli hv ⊢
      exact hq.cuts i hi' hli hv
  have hins := insert_keeps hN (Apart.split hN) h he hm hl hput
  rw [hok] at hins
  exact hins

/-- A run of such inserts keeps them apart. -/
theorem insertAll_apart (hN : 2 ≤ N) {ht : Nat → Nat} {t t' : BTree K V N} {kvs new : List (K × V)}
    (h : Shape ht 0 t) (hq : Apart kvs t) (hrun : RunsApart new t) (hok : t.insertAll new = .ok t') :
    (∃ ht', Shape ht' 0 t') ∧ (∃ lo hi, Arranged lo hi t') ∧ Holds (kvs ++ new) t' := by
  induction new generalizing ht t kvs with
  | nil =>
    obtain rfl : t = t' := by simpa [insertAll] using hok
    rw [List.append_nil]
    exact ⟨⟨ht, h⟩, hq.arranged, hq.holds⟩
  | cons kv rest ih =>
    obtain ⟨key, val⟩ := kv
    obtain ⟨hcut, hrest⟩ := hrun
    obtain ⟨t₁, hi, hok⟩ := bind_ok hok
    obtain ⟨⟨ht₁, h₁⟩, hq₁⟩ := insert_apart hN h hq hcut hi
    obtain ⟨hsh, hord, l, hc, hp⟩ := ih h₁ hq₁ (hrest t₁ hi) hok
    exact ⟨hsh, hord, l, hc, hp.trans List.perm_middle.symm⟩

omit [LinearOrder K] in
theorem Apart.init [LinearOrder K] (hN : 2 ≤ N) (cacheSize : Nat) : Apart [] (BTree.init cacheSize : BTree K V N) := by
  refine ⟨⟨_, _, (Ordered.init cacheSize).arranged⟩, Holds.init cacheSize, fun i hi hl hv => ?_⟩
  have := (Shape.init (K := K) (V := V) (N := N) cacheSize (by omega)).maxLeaf i hi hi.ne_zero hl
  omega

/-- After any inserts none of which cuts a run of equal keys, the links from the leaf a search
ends at lead through every pair with the key or a larger one, in the order of the keys. -/
theorem chain_apart (hN : 2 ≤ N) (cacheSize : Nat) (kvs : List (K × V))
    (hrun : RunsApart kvs (BTree.init cacheSize : BTree K V N)) {t : BTree K V N}
    (hok : (BTree.init cacheSize : BTree K V N).insertAll kvs = .ok t) (k : K) :
    ∃ leaf l, t.findNode k = .ok leaf ∧ Leaves t leaf l ∧
      ((t.records l).filter fun kv => decide (k ≤ kv.1)).Perm (kvs.filter fun kv => decide (k ≤ kv.1)) ∧
      (t.records l).Pairwise fun a b => a.1 ≤ b.1 := by
  obtain ⟨⟨ht, h⟩, ⟨lo, hi, ho⟩, l, hc, hp⟩ :=
    insertAll_apart hN (Shape.init cacheSize (by omega)) (Apart.init hN cacheSize) hrun hok
  obtain ⟨leaf, l', he, hl, -, hperm⟩ := ho.findNode_holds h hN hc hp k
  refine ⟨leaf, l', he, hl, hperm, hl.pairwise ho h hN (fun a b hab => hab.le) fun i hi' => ?_⟩
  exact (ho.range i (hl.leaves i hi').1).ascending

omit [Inhabited K] [Inhabited V] in
/-- A leaf that is the root is the only one. -/
theorem insertsApart_root {t : BTree K V N} {key : K} {val : V} (hl : (t.cache t.root).isLeaf = true)
    (hcut : t.isFull t.root = true → ((t.cache t.root).withValue key val).CutsApart) : t.InsertsApart key val := by
  intro leaf hr _ hfull
  cases hr with
  | here => exact hcut hfull
  | down hl' =>
    rw [hl] at hl'
    cases hl'

/-- Two keys, each inserted twice: the fourth insert cuts between them. -/
theorem chain_apart_pairs : ∃ t : BTree Nat Nat 2,
    (BTree.init 8).insertAll [(1, 10), (5, 11), (1, 12), (5, 13)] = .ok t ∧
    ∃ leaf l, t.findNode 5 = .ok leaf ∧ Leaves t leaf l ∧
      ((t.records l).filter fun kv => decide (5 ≤ kv.1)).Perm
        ([(1, 10), (5, 11), (1, 12), (5, 13)].filter fun kv => decide (5 ≤ kv.1)) ∧
      (t.records l).Pairwise fun a b => a.1 ≤ b.1 := by
  have hrun : RunsApart [(1, 10), (5, 11), (1, 12), (5, 13)] (BTree.init 8 : BTree Nat Nat 2) := by
    refine ⟨insertsApart_root rfl (by decide), fun t₁ h₁ => ?_⟩
    obtain rfl := Except.ok.inj h₁
    refine ⟨insertsApart_root rfl (by decide), fun t₂ h₂ => ?_⟩
    obtain rfl := Except.ok.inj h₂
    refine ⟨insertsApart_root rfl (by decide), fun t₃ h₃ => ?_⟩
    obtain rfl := Except.ok.inj h₃
    refine ⟨insertsApart_root rfl fun _ _ => ?_, fun _ _ => trivial⟩
    decide
  exact ⟨_, rfl, chain_apart (N := 2) le_rfl 8 _ hrun rfl 5⟩

/-- A fourth key cuts three fives: one of them stays in the left leaf, and a search for five
goes to the right one. -/
theorem chain_cut : ∃ t : BTree Nat Nat 2, (BTree.init 8).insertAll [(1, 0), (5, 1), (5, 2), (5, 3)] = .ok t ∧
    ¬ ∃ leaf l, t.findNode 5 = .ok leaf ∧ Leaves t leaf l ∧ (5, 3) ∈ t.records l := by
  obtain ⟨t, hok, hsees⟩ := exists_ok (x := (BTree.init 8 : BTree Nat Nat 2).insertAll [(1, 0), (5, 1), (5, 2), (5, 3)])
    (p := fun t => decide ((t.findNode 5).toOption = some 2 ∧ (t.cache 2).next = 0 ∧
      (t.cache 2).live = [(5, 2), (5, 1)])) (by decide +kernel)
  obtain ⟨hfind, hnext, hlive⟩ := of_decide_eq_true hsees
  refine ⟨t, hok, ?_⟩
  rintro ⟨leaf, l, he, hl, hmem⟩
  obtain rfl : leaf = 2 := Except.ok.inj (he.symm.trans (toOption_eq_some.mp hfind))
  have hlast : Linked (fun i => (t.cache i).next) 0 2 [2] := ⟨rfl, by decide, hnext⟩
  rw [hl.linked.unique hlast, records, List.flatMap_cons, List.flatMap_nil, hlive] at hmem
  exact absurd hmem (by decide)

end Nkvdb.BTree
