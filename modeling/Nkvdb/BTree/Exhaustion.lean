import Nkvdb.BTree.Growth

/-! Running out of nodes.

An insert stores its value before it splits, and `make_node` may throw at any level of the
split: the leaf is then left with one value too many, or halved. -/
namespace Nkvdb.BTree
variable {K V : Type} {N : Nat} [LinearOrder K] [Inhabited K] [Inhabited V]

/-- What the leaf of a failing insert holds as the split climbs from `node`: all its values
before it is split itself, and the half of them after. -/
def LeafLeft (leaf node : Nat) (t : BTree K V N) : Prop :=
  t.Made leaf ∧ (t.cache leaf).isLeaf = true ∧
    ((node = leaf ∧ (t.cache leaf).valsSize = 2 * N) ∨
      ((t.cache node).isLeaf = false ∧ (t.cache leaf).valsSize = N))

section
variable {ht : Nat → Nat} {t t' : BTree K V N} {node p leaf : Nat}

theorem LeafLeft.split (hN : 2 ≤ N) (h : Shape ht node t) (hm : t.Made node) (hs : Split t t' node p)
    (hl : LeafLeft leaf node t) : LeafLeft leaf p t' := by
  obtain ⟨hleaf, hlf, hcases⟩ := hl
  have hpl := (hs.receiver_sized h hm hN).1
  obtain ⟨-, hkept, -⟩ := hs.old_kept h hm hleaf
  refine ⟨hs.made_old h hm hleaf, hkept.trans hlf, .inr ⟨hpl, ?_⟩⟩
  rcases hcases with ⟨rfl, hv⟩ | ⟨hn, hv⟩
  · rw [hs.left]
    show (t.cache node).valsSize / 2 = N
    omega
  · have hln : leaf ≠ node := by
      rintro rfl
      rw [hlf] at hn
      cases hn
    have hlp : leaf ≠ p := by
      rintro rfl
      rw [hkept, hlf] at hpl
      cases hpl
    rw [hs.old_eq hleaf hln hlp]
    exact hv

omit [LinearOrder K] in
/-- Halving a node leaves the values of the others. -/
theorem Halved.valsSize (hh : Halved t t' node) {i : Nat} (hi : t.Made i) (hne : i ≠ node) :
    (t'.cache i).valsSize = (t.cache i).valsSize := by
  by_cases hmv : (t.cache node).Moves i
  · rw [hh.moved i hmv]
  · rw [hh.other i (Nat.ne_of_lt hi.2) hne hmv]

omit [LinearOrder K] in
theorem LeafLeft.stop (hs : Stopped t t' node)
    (hl : LeafLeft leaf node t) : (t'.cache leaf).valsSize = 2 * N ∨ (t'.cache leaf).valsSize = N := by
  obtain ⟨hleaf, hlf, hcases⟩ := hl
  obtain ⟨rfl | hh, -⟩ := hs
  · exact hcases.imp (·.2) (·.2)
  right
  rcases hcases with ⟨rfl, hv⟩ | ⟨hn, hv⟩
  · rw [hh.left]
    show (t.cache node).valsSize / 2 = N
    omega
  · have hln : leaf ≠ node := by
      rintro rfl
      rw [hlf] at hn
      cases hn
    rwa [hh.valsSize hleaf hln]

/-- An insert that finds the cache used up leaves the leaf it went to with more values than
before, or with fewer. -/
theorem insert_full_leaf (hN : 2 ≤ N) (h : Shape ht 0 t) {key : K} {val : V}
    (herr : t.insert key val = .error (.cacheIsFull, t')) :
    ∃ leaf, t.findNode key = .ok leaf ∧ (t'.cache leaf).valsSize ≠ (t.cache leaf).valsSize := by
  have hh := h.height
  rcases h.inerFind_cases hN key h.root (show ht t.root < t.cachePos by omega) with he | ⟨leaf, res, he, hm, hl⟩
  · rw [insert_none he] at herr
    cases herr
  have hmax := h.maxLeaf leaf hm hm.ne_zero hl
  -- with room in the leaf there is no split
  have hfull : (t.cache leaf).valsSize + 1 = 2 * N := by
    by_contra hne
    have hnf : t.isFull leaf = false := decide_eq_false (by omega)
    have hstore : t.onNode leaf (Node.insertValue N key val) =
        .ok (t.setNode leaf ((t.cache leaf).withValue key val)) :=
      onNode_ok _ _ _ (Node.insertValue_eq key val _ hmax)
    simp only [insert, he, hnf, Bool.false_eq_true, if_false, hstore] at herr
    cases herr
  have hput : LeafLeft leaf leaf (t.setNode leaf ((t.cache leaf).withValue key val)) := by
    refine ⟨hm, ?_, .inl ⟨rfl, ?_⟩⟩
    · rw [setNode_self]
      exact hl
    · rw [setNode_self]
      exact hfull
  have hclimb := insert_climbs (P := LeafLeft leaf)
    (R := fun t' => (t'.cache leaf).valsSize = 2 * N ∨ (t'.cache leaf).valsSize = N) hN
    (fun _ _ _ _ _ h hm hs _ hl => hl.split hN h hm hs) (fun _ _ _ _ _ _ hs hl => hl.stop hs) h he hm hl hput
  rw [herr] at hclimb
  refine ⟨leaf, by simp only [findNode, he, bind, Except.bind], ?_⟩
  rcases hclimb.2 with hv | hv <;> omega

end

/-- Whatever was inserted, an insert that finds the cache used up changes the tree: the leaf
that its key belongs in has another number of values. -/
theorem insert_full_changes (hN : 2 ≤ N) (cacheSize : Nat) (kvs : List (K × V)) {t t' : BTree K V N}
    (hok : (BTree.init cacheSize : BTree K V N).insertAll kvs = .ok t) {key : K} {val : V}
    (herr : t.insert key val = .error (.cacheIsFull, t')) :
    ∃ leaf, t.findNode key = .ok leaf ∧ t'.cache leaf ≠ t.cache leaf := by
  obtain ⟨⟨ht, h⟩, -⟩ := insertAll_holds hN (Shape.init cacheSize (by omega)) (Holds.init cacheSize) hok
  obtain ⟨leaf, hfind, hne⟩ := insert_full_leaf hN h herr
  exact ⟨leaf, hfind, fun he => hne (congrArg Node.valsSize he)⟩

/-- A fourth value in a cache of two nodes. -/
theorem insert_full_changes_fourth : ∃ t t' : BTree Nat Nat 2,
    (BTree.init 2).insertAll [(1, 11), (2, 12), (3, 13)] = .ok t ∧ t.insert 4 14 = .error (.cacheIsFull, t') ∧
    ∃ leaf, t.findNode 4 = .ok leaf ∧ t'.cache leaf ≠ t.cache leaf := by
  refine ⟨_, _, rfl, rfl, ?_⟩
  exact insert_full_changes (K := Nat) (V := Nat) (N := 2) le_rfl 2 [(1, 11), (2, 12), (3, 13)] rfl
    (show BTree.insert 4 14 _ = _ from rfl)

/-- A cache of two nodes: the fourth insert halves its leaf and finds no node for a root. The
larger half is lost to every search. -/
theorem insert_full_loses : ∃ t t' : BTree Nat Nat 2,
    (BTree.init 2).insertAll [(1, 11), (2, 12), (3, 13)] = .ok t ∧
    t.insert 4 14 = .error (.cacheIsFull, t') ∧
    t.find 3 = .ok 13 ∧ t'.find 3 = .ok 0 ∧ t'.cachePos ≠ t.cachePos :=
  ⟨_, _, rfl, rfl, by decide +kernel, by decide +kernel, by decide +kernel⟩

end Nkvdb.BTree
