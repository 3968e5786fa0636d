import Nkvdb.BTree.Levels

/-! How many nodes inserts make.

`split_node` raises a key by each split, as the levels of the tree do, so an insert runs out
of nodes where the levels it is to leave need more of them (`insertAll_fits`). -/
namespace Nkvdb.BTree
variable {K V : Type} {N : Nat} [LinearOrder K]

/-! ### Levels around one of them -/

section
variable (low : List (List K)) (keys cuts : List K) (up : List (List K))
omit [LinearOrder K]

theorem getD_level : (low ++ keys :: up).getD low.length [] = keys := by
  induction low with
  | nil => rfl
  | cons first low ih => exact ih

theorem getD_above : (low ++ keys :: up).getD (low.length + 1) [] = up.headD [] := by
  induction low with
  | nil => cases up <;> rfl
  | cons first low ih => exact ih

theorem getD_raised (h : Nat) : (low ++ keys :: cuts :: up.tail).getD h [] =
    if h = low.length + 1 then cuts else (low ++ keys :: up).getD h [] := by
  induction low generalizing h with
  | nil =>
    cases h with
    | zero => rfl
    | succ h =>
      cases h with
      | zero => rfl
      | succ h =>
        rw [if_neg (by rw [List.length_nil]; omega)]
        cases up <;> rfl
  | cons first low ih =>
    cases h with
    | zero => rfl
    | succ h =>
      simp only [List.length_cons, Nat.add_right_cancel_iff]
      exact ih h

theorem nodes_above : ∃ c, ∀ up, KeyLevels.nodes (low ++ keys :: up).tail = KeyLevels.nodes up + c := by
  cases low with
  | nil => exact ⟨0, fun up => rfl⟩
  | cons first low =>
    refine ⟨(low.map fun l => l.length + 1).sum + (keys.length + 1), fun up => ?_⟩
    show KeyLevels.nodes (low ++ keys :: up) = _
    unfold KeyLevels.nodes
    rw [List.map_append, List.sum_append, List.map_cons, List.sum_cons]
    omega

end

/-! ### The nodes of a tree -/

/-- The tree stores `levels`, its keys first, and its cache has had room for its nodes. `full`
is the node that holds one value too many, 0 when there is none. -/
structure Counts [Inhabited K] [Inhabited V] (ht : Nat → Nat) (lo : Nat → WithBot K) (hi : Nat → WithTop K)
    (full : Nat) (levels : List (List K)) (t : BTree K V N) : Prop where
  shape : Shape ht full t
  ordered : Ordered lo hi t
  refines : Refines ht lo hi (fun h => levels.getD h []) t
  height : ht t.root + 1 = levels.length
  count : t.cachePos = KeyLevels.nodes levels.tail + 1
  room : t.cachePos ≤ max 1 t.cacheSize + 1

/-- How inserts end that are to leave `levels`: with a tree that stores them, or because their
nodes are too many. -/
def Ends [Inhabited K] [Inhabited V] (cacheSize : Nat) (levels : List (List K)) :
    Except (Failure K V N) (BTree K V N) → Prop
  | .ok t => t.cacheSize = cacheSize ∧ ∃ ht lo hi, Counts ht lo hi 0 levels t
  | .error (e, _) => e = .cacheIsFull ∧ max 1 cacheSize < KeyLevels.nodes levels.tail

namespace Counts
variable [Inhabited K] [Inhabited V] {ht : Nat → Nat} {lo : Nat → WithBot K} {hi : Nat → WithTop K}
  {t t' : BTree K V N} {node p : Nat} {low : List (List K)} {keys : List K} {up : List (List K)} {k : K}

theorem init (hN : 0 < N) (cacheSize : Nat) :
    Counts (fun _ => 0) (fun _ => ⊥) (fun _ => ⊤) 0 [[]] (BTree.init (N := N) cacheSize : BTree K V N) := by
  have hempty : ∀ h, ([[]] : List (List K)).getD h [] = [] := by
    intro h
    cases h <;> rfl
  refine ⟨Shape.init cacheSize hN, Ordered.init cacheSize, ?_, rfl, rfl, Nat.succ_le_succ (Nat.le_max_left ..)⟩
  constructor
  case sorted =>
    intro h
    rw [hempty]
    exact List.Pairwise.nil
  case top => exact fun h _ => hempty h
  case keys =>
    intro i hi' x
    have h1 := hi'.1
    have h2 : i < 2 := hi'.2
    obtain rfl : i = 1 := by omega
    have hkeys : ((BTree.init cacheSize : BTree K V N).cache 1).keys = [] := by
      simp [BTree.init, Node.keys, Node.live, Node.zero, Slots.live]
    rw [hkeys, hempty]
    exact ⟨fun hmem => absurd hmem List.not_mem_nil, fun hx => hx.1⟩
  case cut => exact fun i _ c hc => absurd (hempty _ ▸ hc) List.not_mem_nil
  case begins => exact fun _ _ => .inl rfl
  case ends => exact fun _ _ => .inl rfl

section
variable (hc : Counts ht lo hi node (low ++ keys :: up) t) (h0 : node ≠ 0) (hlow : low.length = ht node)
include hc h0 hlow

theorem root_iff : node = t.root ↔ up = [] := by
  have hh := hc.height
  rw [List.length_append, List.length_cons] at hh
  constructor
  · rintro rfl
    exact List.eq_nil_of_length_eq_zero (by omega)
  · rintro rfl
    by_contra hne
    have := hc.shape.below node (hc.shape.overVals h0).1 hne
    rw [List.length_nil] at hh
    omega

/-- An overfull node raises its middle key. -/
theorem middle (hN : 2 ≤ N) (hk : Answers lo hi k node) : KeyLevels.middle N (!(t.cache node).isLeaf)
    (KeyLevels.cell (!(t.cache node).isLeaf) (up.headD []) keys k) = some (t.cache node).midle.1 := by
  obtain ⟨hm, hover⟩ := hc.shape.overVals h0
  have hcell := hc.refines.cell hc.ordered hm hk
  rw [← hlow, getD_level, getD_above] at hcell
  have hsize : (t.cache node).valsSize = KeyLevels.splitAt N (!(t.cache node).isLeaf) := by
    rw [hover, KeyLevels.splitAt]
    cases (t.cache node).isLeaf <;> rfl
  have hpos : (t.cache node).valsSize / 2 < (t.cache node).valsSize := by
    refine Nat.div_lt_self ?_ Nat.one_lt_two
    rw [hover]
    split <;> omega
  rw [hcell, KeyLevels.middle, Node.length_keys, if_neg (by omega), Node.keys_eq, List.getElem?_map,
    List.getElem?_range hpos]
  rfl

/-- Where there is no node to split with, the levels need it. -/
theorem full (hN : 2 ≤ N) (hk : Answers lo hi k node)
    (hroom : t.cacheSize < t.cachePos + (if node = t.root then 1 else 0)) : max 1 t.cacheSize <
      KeyLevels.nodes (low ++ keys :: KeyLevels.raise N (!(t.cache node).isLeaf) k keys up).tail := by
  obtain ⟨hone, htwo⟩ := KeyLevels.nodes_lt_raise hN (hc.middle h0 hlow hN hk)
  obtain ⟨c, hnodes⟩ := nodes_above low keys
  have hcount := hc.count
  have hge : 1 ≤ KeyLevels.nodes up := Nat.le_add_right ..
  rw [hnodes] at hcount ⊢
  by_cases hr : node = t.root
  · have := htwo ((hc.root_iff h0 hlow).mp hr)
    rw [if_pos hr] at hroom
    omega
  · rw [if_neg hr] at hroom
    omega

theorem split (hN : 2 ≤ N) (hs : Split t t' node p) (hroom : t'.cachePos ≤ t'.cacheSize + 1) :
    Counts (splitHt ht t.cachePos node) (splitLo lo t.cachePos (t.cache node).midle.1)
      (splitHi hi t.cachePos node (t.cache node).midle.1) (if t'.isFull p then p else 0)
      (low ++ keys :: (up.headD []).orderedInsert (· ≤ ·) (t.cache node).midle.1 :: up.tail) t' := by
  have hm := (hc.shape.overVals h0).1
  have hroot := hc.root_iff h0 hlow
  have hlevels : raisedAt (fun h => (low ++ keys :: up).getD h []) (ht node + 1) (t.cache node).midle.1 =
      fun h => (low ++ keys :: (up.headD []).orderedInsert (· ≤ ·) (t.cache node).midle.1 :: up.tail).getD h [] := by
    funext h
    rw [getD_raised, hlow]
    unfold raisedAt
    by_cases hh : h = ht node + 1
    · rw [hh, Function.update_self, if_pos rfl]
      show List.orderedInsert _ _ ((low ++ keys :: up).getD (ht node + 1) []) = _
      rw [← hlow, getD_above]
    · rw [Function.update_of_ne hh, if_neg hh]
  have href := hc.refines.split hs hc.shape hm hN hc.ordered
  rw [hlevels] at href
  obtain ⟨c, hnodes⟩ := nodes_above low keys
  have hcount := hc.count
  have hh := hc.height
  rw [hnodes] at hcount
  simp only [List.length_append, List.length_cons] at hh
  refine ⟨hs.shape hc.shape hm hN, hs.ordered hc.shape hm hN hc.ordered, href, ?_, ?_, by omega⟩
  · simp only [List.length_append, List.length_cons]
    rcases hs.receiver hc.shape hm with ⟨hne, -, -, -, -, hr, -⟩ | ⟨hr, hp, hr', -⟩
    · obtain ⟨cuts, rest, rfl⟩ := List.exists_cons_of_ne_nil fun hnil => hne (hroot.mpr hnil)
      rw [hr, splitHt_old ht hc.shape.root.2]
      simp only [List.length_cons, List.tail_cons] at hh ⊢
      omega
    · obtain rfl := hroot.mp hr
      rw [hr', hp, splitHt_root]
      simp only [List.tail_nil, List.length_nil]
      omega
  · rw [hnodes, KeyLevels.nodes_cons, List.orderedInsert_length]
    rcases hs.receiver hc.shape hm with ⟨hne, -, -, -, -, -, hpos⟩ | ⟨hr, -, -, hpos⟩
    · obtain ⟨cuts, rest, rfl⟩ := List.exists_cons_of_ne_nil fun hnil => hne (hroot.mpr hnil)
      rw [KeyLevels.nodes_cons] at hcount
      simp only [List.tail_cons, List.headD_cons]
      omega
    · obtain rfl := hroot.mp hr
      simp only [List.tail_nil, List.headD_nil, List.length_nil]
      omega

end

/-- A node that is not full raises nothing. -/
theorem raise_stays {full : Nat} (hc : Counts ht lo hi full (low ++ keys :: up) t) (hm : t.Made node)
    (hlow : low.length = ht node) (hk : Answers lo hi k node)
    (hsize : (t.cache node).valsSize < KeyLevels.splitAt N (!(t.cache node).isLeaf)) :
    KeyLevels.raise N (!(t.cache node).isLeaf) k keys up = up := by
  apply KeyLevels.raise_none
  have hcell := hc.refines.cell hc.ordered hm hk
  rw [← hlow, getD_level, getD_above] at hcell
  rw [hcell, KeyLevels.middle, Node.length_keys, if_pos hsize]

/-- `split_node` raises what the levels raise. The induction is on the levels from that of
`node` up. -/
theorem splitNode (hN : 2 ≤ N) {fuel : Nat} (hc : Counts ht lo hi node (low ++ keys :: up) t) (h0 : node ≠ 0)
    (hlow : low.length = ht node) (hk : Answers lo hi k node) (hf : ht t.root < ht node + fuel) :
    Ends t.cacheSize (low ++ keys :: KeyLevels.raise N (!(t.cache node).isLeaf) k keys up) (t.splitNode fuel node) := by
  induction fuel generalizing ht lo hi node low keys up k t with
  | zero =>
    have hm := (hc.shape.overVals h0).1
    by_cases hr : node = t.root
    · rw [hr] at hf
      omega
    · have := hc.shape.below node hm hr
      omega
  | succ fuel ih =>
    have hm := (hc.shape.overVals h0).1
    rcases splitStep_cases hc.shape h0 hN with ⟨t', he, -, hroom⟩ | ⟨p, t', he, hs, hroom⟩
    · simp only [BTree.splitNode, he, bind, Except.bind]
      exact ⟨rfl, hc.full h0 hlow hN hk hroom⟩
    have hc' := hc.split h0 hlow hN hs hroom
    have hpm := hs.made_receiver hc.shape hm
    have hpl : (t'.cache p).isLeaf = false := (hs.receiver_sized hc.shape hm hN).1
    have hph : splitHt ht t.cachePos node p = (low ++ [keys]).length := by
      rw [hs.receiver_height hc.shape hm, List.length_append, List.length_singleton, hlow]
    obtain ⟨hlo, hhi⟩ := hs.receiver_answers hc.shape hm hN hc.ordered
    have hsize : t'.cacheSize = t.cacheSize := hs.cacheSize
    rw [KeyLevels.raise_some hN (hc.middle h0 hlow hN hk)]
    simp only [BTree.splitNode, he, bind, Except.bind]
    rw [List.append_cons] at hc'
    by_cases hfull : t'.isFull p = true
    · rw [if_pos hfull] at hc' ⊢
      have hrest := ih hc' hpm.ne_zero hph.symm ⟨hlo.le, hhi⟩ (by
        have hup := hs.receiver_height hc.shape hm
        rcases hs.receiver hc.shape hm with ⟨-, -, -, -, -, hr, -⟩ | ⟨hr, -⟩
        · rw [hr, hup, splitHt_old ht hc.shape.root.2]
          omega
        -- a new root holds one value
        · simp only [isFull, hs.receiver_root hr, Node.newRoot, decide_eq_true_eq] at hfull
          omega)
      rw [hpl, hsize, ← List.append_cons] at hrest
      exact hrest
    · rw [if_neg hfull] at hc' ⊢
      have hstop := hc'.raise_stays hpm hph.symm ⟨hlo.le, hhi⟩ (by
        rw [hpl]
        show _ < 2 * N - 1
        simp only [isFull, decide_eq_true_eq] at hfull
        omega)
      rw [hpl] at hstop
      rw [← List.append_cons] at hc'
      rw [show KeyLevels.raise N true _ _ up.tail = up.tail from hstop]
      exact ⟨hsize, _, _, _, hc'⟩

/-- An insert of a new key. -/
theorem insert (hN : 2 ≤ N) (hc : Counts ht lo hi 0 (keys :: up) t) (hnew : k ∉ keys) (val : V) :
    Ends t.cacheSize ((KeyLevels.insert N k (keys, up)).1 :: (KeyLevels.insert N k (keys, up)).2) (t.insert k val) := by
  have hh := hc.shape.height
  obtain ⟨leaf, res, he, hm, hl, ha, hb⟩ := hc.ordered.arranged.inerFind hc.shape hN hc.shape.root
    (show ht t.root < t.cachePos by omega) (show lo t.root ≤ (k : WithBot K) by rw [hc.ordered.rootLo]; exact bot_le)
    (by rw [hc.ordered.rootHi]; exact WithTop.coe_lt_top k)
  have h0 : ht leaf = 0 := (hc.shape.leaf leaf hm).mp hl
  have hstore : t.onNode leaf (Node.insertValue N k val) = .ok (t.setNode leaf ((t.cache leaf).withValue k val)) :=
    onNode_ok _ _ _ (Node.insertValue_eq k val _ (hc.shape.maxLeaf leaf hm hm.ne_zero hl))
  have hfresh : ∀ j, j < (t.cache leaf).valsSize → (t.cache leaf).key j ≠ k := by
    rintro j hj rfl
    have hmem := ((hc.refines.keys leaf hm _).mp (Node.mem_keys.mpr ⟨j, hj, rfl⟩)).1
    rw [h0] at hmem
    exact hnew hmem
  have href := hc.refines.put hc.shape hc.ordered hm hl val hnew ⟨ha, hb⟩
  have hlevels : raisedAt (fun h => (keys :: up).getD h []) 0 k =
      fun h => (keys.orderedInsert (· ≤ ·) k :: up).getD h [] := by
    funext h
    cases h with
    | zero => exact Function.update_self ..
    | succ h => exact Function.update_of_ne (Nat.succ_ne_zero h) ..
  rw [hlevels] at href
  have hc' : Counts ht lo hi (if t.isFull leaf then leaf else 0) ([] ++ keys.orderedInsert (· ≤ ·) k :: up)
      (t.setNode leaf ((t.cache leaf).withValue k val)) :=
    ⟨hc.shape.put k val hm hl, hc.ordered.put hm val hl hfresh (hc.shape.leafChilds leaf hm hl) ha hb, href,
      hc.height, hc.count, hc.room⟩
  have hinner : (!((t.setNode leaf ((t.cache leaf).withValue k val)).cache leaf).isLeaf) = false := by
    rw [setNode_self]
    exact congrArg not hl
  simp only [BTree.insert, he, hstore, bind, Except.bind]
  by_cases hfull : t.isFull leaf = true
  · rw [if_pos hfull] at hc' ⊢
    have hfuel : ht t.root < ht leaf + t.cachePos := by omega
    have hsplit := hc'.splitNode hN hm.ne_zero h0.symm ⟨ha, hb⟩ hfuel
    rw [hinner] at hsplit
    exact hsplit
  · rw [if_neg hfull] at hc' ⊢
    have hstop := hc'.raise_stays hm h0.symm ⟨ha, hb⟩ (by
      rw [hinner, setNode_self]
      show (t.cache leaf).valsSize + 1 < 2 * N
      simp only [isFull, decide_eq_true_eq] at hfull
      omega)
    rw [hinner] at hstop
    refine ⟨rfl, ht, lo, hi, ?_⟩
    show Counts ht lo hi 0 (keys.orderedInsert (· ≤ ·) k ::
      KeyLevels.raise N false k (keys.orderedInsert (· ≤ ·) k) up) _
    rw [hstop]
    exact hc'

theorem insertAll (hN : 2 ≤ N) (hc : Counts ht lo hi 0 (keys :: up) t) {kvs : List (K × V)}
    (hd : (keys ++ kvs.map Prod.fst).Nodup) :
    Ends t.cacheSize ((KeyLevels.insertAll N (kvs.map Prod.fst) (keys, up)).1 ::
      (KeyLevels.insertAll N (kvs.map Prod.fst) (keys, up)).2) (t.insertAll kvs) := by
  induction kvs generalizing ht lo hi keys up t with
  | nil => exact ⟨rfl, ht, lo, hi, hc⟩
  | cons kv rest ih =>
    obtain ⟨k, v⟩ := kv
    have hd : (keys ++ k :: rest.map Prod.fst).Nodup := hd
    have hperm : (keys.orderedInsert (· ≤ ·) k ++ rest.map Prod.fst).Perm (keys ++ k :: rest.map Prod.fst) :=
      ((List.perm_orderedInsert (· ≤ ·) k keys).append_right _).trans List.perm_middle.symm
    have hnew : k ∉ keys := fun hmem => List.disjoint_of_nodup_append hd hmem List.mem_cons_self
    have hins := hc.insert hN hnew v
    show Ends _ _ (t.insert k v >>= BTree.insertAll rest)
    cases hi' : t.insert k v with
    | error e =>
      rw [hi'] at hins
      exact ⟨hins.1, lt_of_lt_of_le hins.2 (KeyLevels.nodes_le_insertAll N (rest.map Prod.fst) _)⟩
    | ok t₁ =>
      rw [hi'] at hins
      obtain ⟨hsize, ht₁, lo₁, hi₁, hc₁⟩ := hins
      have hrest := ih hc₁ (hperm.nodup_iff.mpr hd)
      rw [hsize] at hrest
      exact hrest

end Counts

/-- Inserts of distinct keys complete if and only if the cache has the nodes that the levels
of the keys need; a cache has one node at least. -/
theorem insertAll_fits [Inhabited K] [Inhabited V] (hN : 2 ≤ N) (cacheSize : Nat) {kvs : List (K × V)}
    (hd : (kvs.map Prod.fst).Nodup) : (∃ t, (BTree.init cacheSize : BTree K V N).insertAll kvs = .ok t) ↔
      KeyLevels.nodesFor N (kvs.map Prod.fst) ≤ max 1 cacheSize := by
  have hinit : Counts _ _ _ 0 [[]] (BTree.init cacheSize : BTree K V N) := Counts.init (by omega) cacheSize
  have hends := hinit.insertAll hN (show ([] ++ kvs.map Prod.fst).Nodup from hd)
  constructor
  · rintro ⟨t, ht⟩
    rw [ht] at hends
    obtain ⟨hsize, _, _, _, hc⟩ := hends
    have hroom := hc.room
    rw [hc.count, hsize] at hroom
    exact Nat.le_of_succ_le_succ hroom
  · intro hfit
    cases hrun : (BTree.init cacheSize : BTree K V N).insertAll kvs with
    | error e =>
      rw [hrun] at hends
      exact absurd hfit (not_le.mpr hends.2)
    | ok t => exact ⟨t, rfl⟩

end Nkvdb.BTree
