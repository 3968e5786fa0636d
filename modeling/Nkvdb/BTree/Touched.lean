import Nkvdb.BTree.Exhaustion

/-! The node slots that the operations touch.

They are slots that `make_node` has handed out, and it refuses one slot too late: the one at
`cache_size`, past the last of the cache, is handed out and written first. -/
namespace Nkvdb.BTree
variable {K V : Type} {N : Nat} [LinearOrder K]

/-- The nodes that `iner_find` reads: those it goes down through. -/
def findTouches (t : BTree K V N) (key : K) : Nat → Nat → List Nat
  | 0, _ => []
  | fuel + 1, cur =>
    let n := t.cache cur
    cur ::
      if n.isLeaf then []
      else if key < n.key 0 then t.findTouches key fuel (n.childs 0)
      else if n.childsSize ≠ 0 ∧ n.valsSize ≠ 0 ∧ n.key (n.valsSize - 1) ≤ key then
        t.findTouches key fuel (n.childs (n.childsSize - 1))
      else
        let d := n.lowerBound key
        let d := if n.key d ≠ key then d - 1 else d
        if key < n.key (d + 1) then t.findTouches key fuel (n.childs (d + 1)) else []

/-- The nodes that one level of `split_node` reads or writes: the new one and the split one, the
children that move, and the parent or the old root and the new. -/
def stepTouches (node : Nat) (t : BTree K V N) : List Nat :=
  if t.cacheSize < t.cachePos then []
  else
    let n := t.cache node
    t.cachePos :: node ::
      ((List.range (n.childsSize - n.childsSize / 2)).map (fun j => n.childs (n.childsSize / 2 + j)) ++
        if n.parent ≠ 0 then [n.parent]
        else if t.cacheSize < t.cachePos + 1 then [] else [t.cachePos + 1, t.root])

def splitTouches : Nat → Nat → BTree K V N → List Nat
  | 0, _, _ => []
  | fuel + 1, node, t => t.stepTouches node ++
    match t.splitStep node with
    | .ok (p, t') => if t'.isFull p then splitTouches fuel p t' else []
    | .error _ => []

def insertTouches (key : K) (val : V) (t : BTree K V N) : List Nat :=
  t.findTouches key t.cachePos t.root ++
    match t.inerFind key t.cachePos t.root with
    | .ok (some (node, _)) => node :: if t.isFull node then
        match t.onNode node (Node.insertValue N key val) with
        | .ok t' => splitTouches t'.cachePos node t'
        | .error _ => []
      else []
    | _ => []

/-- A run of inserts, with any searches between them, touches slots below `bound` only. -/
def TouchesBelow (bound : Nat) : List (K × V) → BTree K V N → Prop
  | [], t => ∀ k, ∀ i, i ∈ t.findTouches k t.cachePos t.root → i < bound
  | (key, val) :: rest, t => (∀ k, ∀ i, i ∈ t.findTouches k t.cachePos t.root → i < bound) ∧
    (∀ i, i ∈ t.insertTouches key val → i < bound) ∧
    ∀ t', t.insert key val = .ok t' → TouchesBelow bound rest t'

variable [Inhabited K] [Inhabited V]

section
variable {ht : Nat → Nat} {t t' : BTree K V N} {node p : Nat}

/-- A search reads nodes that were handed out. -/
theorem findTouches_made (h : Shape ht 0 t) (hN : 2 ≤ N) {key : K} {fuel i x : Nat} (hi : t.Made i)
    (hx : x ∈ t.findTouches key fuel i) : t.Made x := by
  induction fuel generalizing i with
  | zero => cases hx
  | succ fuel ih =>
    have down : ∀ j, j < (t.cache i).childsSize → x ∈ t.findTouches key fuel ((t.cache i).childs j) → t.Made x :=
      fun j hj hx => ih (h.child i j hi hj).1 hx
    rcases List.mem_cons.mp hx with rfl | hx
    · exact hi
    cases hl : (t.cache i).isLeaf
    swap
    · rw [if_pos hl] at hx
      cases hx
    have hcs := h.innerChilds i hi hl
    have hvs := h.inner_vals hN hi hl
    rw [if_neg (by rw [hl]; exact Bool.false_ne_true)] at hx
    by_cases hfirst : key < (t.cache i).key 0
    · rw [if_pos hfirst] at hx
      exact down 0 (by omega) hx
    rw [if_neg hfirst] at hx
    by_cases hlast : (t.cache i).childsSize ≠ 0 ∧ (t.cache i).valsSize ≠ 0 ∧
        (t.cache i).key ((t.cache i).valsSize - 1) ≤ key
    · rw [if_pos hlast] at hx
      exact down _ (by omega) hx
    rw [if_neg hlast] at hx
    have hlt : key < (t.cache i).key ((t.cache i).valsSize - 1) := by
      by_contra hge
      exact hlast ⟨by omega, by omega, not_lt.mp hge⟩
    have hd : (t.cache i).lowerBound key < (t.cache i).valsSize :=
      Node.lowerBound_lt (j := (t.cache i).valsSize - 1) (by omega) hlt.le
    have next : ∀ d, d < (t.cache i).valsSize → (x ∈ if key < (t.cache i).key (d + 1) then
        t.findTouches key fuel ((t.cache i).childs (d + 1)) else []) → t.Made x := by
      intro d hdv hx
      split at hx
      · exact down (d + 1) (by omega) hx
      · cases hx
    refine next _ ?_ hx
    split <;> omega

/-- The slots a split touches were handed out before it or in it. -/
theorem stepTouches_made (h : Shape ht node t) (hm : t.Made node) (hs : Split t t' node p) {x : Nat}
    (hx : x ∈ t.stepTouches node) : t'.Made x := by
  unfold stepTouches at hx
  split at hx
  · cases hx
  simp only [List.mem_cons, List.mem_append, List.mem_map, List.mem_range] at hx
  rcases hx with rfl | rfl | ⟨j, hj, rfl⟩ | hx
  · exact hs.made_new h hm
  · exact hs.made_old h hm hm
  · exact hs.made_old h hm (h.child node _ hm (by omega)).1
  rcases hs.receiver h hm with ⟨hne, hpm, hp, -⟩ | ⟨hr, -, -, hc⟩
  · rw [if_pos (hp ▸ hpm.ne_zero), List.mem_singleton] at hx
    rw [hx, ← hp]
    exact hs.made_old h hm hpm
  · rw [if_neg (not_not.mpr ((h.root_iff hm).mp hr))] at hx
    split at hx
    · cases hx
    · rcases List.mem_cons.mp hx with rfl | hx
      · exact ⟨Nat.succ_pos _, by omega⟩
      · rw [List.mem_singleton.mp hx]
        exact hs.made_old h hm h.root

/-- A split touches the slots that it is handed. -/
theorem stepTouches_new (h : Shape ht node t) (hm : t.Made node) (hs : Split t t' node p)
    (hroom : t'.cachePos ≤ t'.cacheSize + 1) {x : Nat} (hx : t.cachePos ≤ x) (hx' : x < t'.cachePos) :
    x ∈ t.stepTouches node := by
  rw [hs.cacheSize] at hroom
  unfold stepTouches
  rcases hs.receiver h hm with ⟨-, -, -, -, -, -, hc⟩ | ⟨hr, -, -, hc⟩
  · obtain rfl : x = t.cachePos := by omega
    rw [if_neg (by omega)]
    exact List.mem_cons_self
  · have hp : ¬ (t.cache node).parent ≠ 0 := not_not.mpr ((h.root_iff hm).mp hr)
    rw [if_neg (by omega)]
    dsimp only
    rw [if_neg hp, if_neg (by omega)]
    simp only [List.mem_cons, List.mem_append]
    omega

omit [Inhabited K] [Inhabited V] in
theorem stepTouches_stopped [Inhabited K] [Inhabited V] (hs : Stopped t t' node)
    (herr : t.splitStep node = .error (.cacheIsFull, t'))
    {x : Nat} (hx : t.cachePos ≤ x) (hx' : x < t'.cachePos) : x ∈ t.stepTouches node := by
  have hroom : ¬ t.cacheSize < t.cachePos := by
    intro hfull
    simp only [splitStep, makeNode_full t hfull, bind, Except.bind, Except.error.injEq, Prod.mk.injEq,
      true_and] at herr
    rw [← herr] at hx'
    omega
  obtain ⟨rfl | hh, -⟩ := hs
  · omega
  obtain rfl : x = t.cachePos := by
    rw [hh.cachePos] at hx'
    omega
  unfold stepTouches
  rw [if_neg hroom]
  exact List.mem_cons_self

/-- What the slots `l` touched from `t` on have to do with those handed out: in a tree that
completes they are among them, and every slot handed out is touched. -/
def Touching (t : BTree K V N) (l : List Nat) : Except (Failure K V N) (BTree K V N) → Prop
  | .ok t' => t.cachePos ≤ t'.cachePos ∧ (∀ x, x ∈ l → t'.Made x) ∧
    ∀ x, t.cachePos ≤ x → x < t'.cachePos → x ∈ l
  | .error (_, t') => t.cacheSize < t'.cachePos ∧ ∀ x, t.cachePos ≤ x → x < t'.cachePos → x ∈ l

omit [Inhabited K] [Inhabited V] [LinearOrder K] in
/-- Two stretches of work, one after the other. -/
theorem Touching.append {a b : List Nat} {r : Except (Failure K V N) (BTree K V N)} (hb : Touching t' b r)
    (hsize : t'.cacheSize = t.cacheSize) (hle : t.cachePos ≤ t'.cachePos) (ha : ∀ x, x ∈ a → t'.Made x)
    (hnew : ∀ x, t.cachePos ≤ x → x < t'.cachePos → x ∈ a) : Touching t (a ++ b) r := by
  have hall : ∀ pos, (∀ x, t'.cachePos ≤ x → x < pos → x ∈ b) →
      ∀ x, t.cachePos ≤ x → x < pos → x ∈ a ++ b := by
    intro pos hb x hx hlt
    rcases Nat.lt_or_ge x t'.cachePos with hlt' | hge
    · exact List.mem_append_left _ (hnew x hx hlt')
    · exact List.mem_append_right _ (hb x hge hlt)
  cases r with
  | error e =>
    obtain ⟨hfull, hbnew⟩ := hb
    exact ⟨hsize ▸ hfull, hall _ hbnew⟩
  | ok t₁ =>
    obtain ⟨hle', hmade, hbnew⟩ := hb
    refine ⟨hle.trans hle', fun x hx => ?_, hall _ hbnew⟩
    rcases List.mem_append.mp hx with hx | hx
    · exact ⟨(ha x hx).1, lt_of_lt_of_le (ha x hx).2 hle'⟩
    · exact hmade x hx

/-- `split_node` touches what it is handed. The induction is on the levels it climbs. -/
theorem splitNode_touches (hN : 2 ≤ N) {fuel : Nat} (h : Shape ht node t) (h0 : node ≠ 0)
    (hf : ht t.root < ht node + fuel) : Touching t (t.splitTouches fuel node) (t.splitNode fuel node) := by
  induction fuel generalizing ht node t with
  | zero =>
    have hm := (h.overVals h0).1
    by_cases hr : node = t.root
    · rw [hr] at hf
      omega
    · have := h.below node hm hr
      omega
  | succ fuel ih =>
    have hm := (h.overVals h0).1
    rcases splitStep_cases h h0 hN with ⟨t', he, hstopped, -⟩ | ⟨p, t', he, hs, hroom⟩
    · simp only [splitNode, splitTouches, he, bind, Except.bind, List.append_nil]
      refine ⟨?_, fun x hx hx' => stepTouches_stopped hstopped he hx hx'⟩
      obtain ⟨rfl | hh, hfull⟩ := hstopped
      · exact hfull
      · exact hh.cacheSize ▸ hfull
    have hsh := hs.shape h hm hN
    have hle : t.cachePos ≤ t'.cachePos := by
      have := (hs.made_new h hm).2
      omega
    have hmade := fun x (hx : x ∈ t.stepTouches node) => stepTouches_made h hm hs hx
    have hnew := fun x (hx : t.cachePos ≤ x) hx' => stepTouches_new h hm hs hroom hx hx'
    simp only [splitNode, splitTouches, he, bind, Except.bind]
    by_cases hfull : t'.isFull p = true
    · rw [if_pos hfull] at hsh ⊢
      rw [if_pos hfull]
      refine Touching.append (ih hsh (hs.made_receiver h hm).ne_zero ?_) hs.cacheSize hle hmade hnew
      rcases hs.receiver h hm with ⟨-, hpm, -, hh, -, hr, -⟩ | ⟨hr, -⟩
      · rw [hr, splitHt_old ht h.root.2, splitHt_old ht hpm.2]
        omega
      -- a new root holds one value
      · simp only [isFull, hs.receiver_root hr, Node.newRoot, decide_eq_true_eq] at hfull
        omega
    · rw [if_neg hfull, if_neg hfull, List.append_nil]
      exact ⟨hle, hmade, hnew⟩

/-- So does an insert. -/
theorem insert_touches (hN : 2 ≤ N) (h : Shape ht 0 t) {key : K} {val : V} {leaf : Nat} {res : Option V}
    (he : t.inerFind key t.cachePos t.root = .ok (some (leaf, res))) (hm : t.Made leaf)
    (hl : (t.cache leaf).isLeaf = true) : Touching t (t.insertTouches key val) (t.insert key val) := by
  have hstore : t.onNode leaf (Node.insertValue N key val) =
      .ok (t.setNode leaf ((t.cache leaf).withValue key val)) :=
    onNode_ok _ _ _ (Node.insertValue_eq key val _ (h.maxLeaf leaf hm hm.ne_zero hl))
  have hsh := h.put key val hm hl
  have hh := h.height
  have hfind : ∀ x, x ∈ t.findTouches key t.cachePos t.root ++ [leaf] → t.Made x := by
    intro x hx
    rcases List.mem_append.mp hx with hx | hx
    · exact findTouches_made h hN h.root hx
    · rw [List.mem_singleton.mp hx]
      exact hm
  simp only [insert, insertTouches, he, hstore, bind, Except.bind]
  rw [List.append_cons]
  by_cases hfull : t.isFull leaf = true
  · rw [if_pos hfull] at hsh ⊢
    rw [if_pos hfull]
    refine Touching.append (splitNode_touches hN hsh hm.ne_zero ?_) rfl le_rfl hfind fun x hx hlt => ?_
    · simp only [setNode_root, setNode_cachePos]
      omega
    · rw [setNode_cachePos] at hlt
      omega
  · rw [if_neg hfull, if_neg hfull, List.append_nil]
    refine ⟨le_rfl, hfind, fun x hx hlt => ?_⟩
    rw [setNode_cachePos] at hlt
    omega

end

namespace Counts
variable {ht : Nat → Nat} {lo : Nat → WithBot K} {hi : Nat → WithTop K} {t : BTree K V N} {keys : List K}
  {up : List (List K)}

/-- A run of inserts of new keys touches slots of the cache only, just where the levels that it
leaves have fewer nodes than the cache has slots. -/
theorem touchesBelow_iff (hN : 2 ≤ N) (hc : Counts ht lo hi 0 (keys :: up) t) {kvs : List (K × V)}
    (hd : (keys ++ kvs.map Prod.fst).Nodup) (hsize : 1 ≤ t.cacheSize) (hroom : t.cachePos ≤ t.cacheSize) :
    TouchesBelow t.cacheSize kvs t ↔
      KeyLevels.nodes (KeyLevels.insertAll N (kvs.map Prod.fst) (keys, up)).2 < t.cacheSize := by
  induction kvs generalizing ht lo hi keys up t with
  | nil =>
    have hcount := hc.count
    refine iff_of_true (fun k i hi' => lt_of_lt_of_le (findTouches_made hc.shape hN hc.shape.root hi').2 hroom) ?_
    show KeyLevels.nodes up < t.cacheSize
    rw [List.tail_cons] at hcount
    omega
  | cons kv rest ih =>
    obtain ⟨k, v⟩ := kv
    have hd : (keys ++ k :: rest.map Prod.fst).Nodup := hd
    have hperm : (keys.orderedInsert (· ≤ ·) k ++ rest.map Prod.fst).Perm (keys ++ k :: rest.map Prod.fst) :=
      ((List.perm_orderedInsert (· ≤ ·) k keys).append_right _).trans List.perm_middle.symm
    have hnew : k ∉ keys := fun hmem => List.disjoint_of_nodup_append hd hmem List.mem_cons_self
    have hh := hc.shape.height
    obtain ⟨leaf, res, he, hm, hl, -⟩ := hc.ordered.arranged.inerFind hc.shape hN hc.shape.root
      (show ht t.root < t.cachePos by omega) (show lo t.root ≤ (k : WithBot K) by rw [hc.ordered.rootLo]; exact bot_le)
      (by rw [hc.ordered.rootHi]; exact WithTop.coe_lt_top k)
    have htouch : Touching t (t.insertTouches k v) (t.insert k v) := insert_touches hN hc.shape he hm hl
    have hins := hc.insert hN hnew v
    have hgrow := KeyLevels.nodes_le_insertAll N (rest.map Prod.fst) (KeyLevels.insert N k (keys, up))
    -- a slot past the end that is handed out is touched
    have hover : t.cacheSize ∈ t.insertTouches k v → ¬ TouchesBelow t.cacheSize ((k, v) :: rest) t :=
      fun hmem hbelow => absurd (hbelow.2.1 _ hmem) (lt_irrefl _)
    show _ ↔ KeyLevels.nodes (KeyLevels.insertAll N (rest.map Prod.fst) (KeyLevels.insert N k (keys, up))).2 < _
    cases hi' : t.insert k v with
    | error e =>
      rw [hi'] at htouch hins
      refine iff_of_false (hover (htouch.2 _ hroom htouch.1)) ?_
      have hmax : t.cacheSize < KeyLevels.nodes (KeyLevels.insert N k (keys, up)).2 :=
        lt_of_le_of_lt (le_max_right 1 _) hins.2
      omega
    | ok t₁ =>
      rw [hi'] at htouch hins
      obtain ⟨hsize₁, ht₁, lo₁, hi₁, hc₁⟩ := hins
      obtain ⟨-, hmade, htouched⟩ := htouch
      have hcount : t₁.cachePos = KeyLevels.nodes (KeyLevels.insert N k (keys, up)).2 + 1 := hc₁.count
      by_cases hroom₁ : t₁.cachePos ≤ t₁.cacheSize
      · rw [hsize₁] at hroom₁
        have hrest := ih hc₁ (hperm.nodup_iff.mpr hd) (hsize₁ ▸ hsize) (hsize₁ ▸ hroom₁)
        rw [hsize₁] at hrest
        refine Iff.trans ⟨fun hbelow => hbelow.2.2 t₁ hi', fun hbelow => ⟨fun k' i hx => ?_, fun i hx => ?_, ?_⟩⟩ hrest
        · exact lt_of_lt_of_le (findTouches_made hc.shape hN hc.shape.root hx).2 hroom
        · exact lt_of_lt_of_le (hmade i hx).2 hroom₁
        · intro t' ht'
          rw [← Except.ok.inj (hi'.symm.trans ht')]
          exact hbelow
      · rw [hsize₁] at hroom₁
        exact iff_of_false (hover (htouched _ hroom (by omega))) (by omega)

end Counts

/-- Of inserts of distinct keys and the searches between them every slot that is read or
written is one of the cache, just where the nodes that the keys need are fewer than its slots. -/
theorem touches_iff (hN : 2 ≤ N) {cacheSize : Nat} (hsize : 2 ≤ cacheSize) (kvs : List (K × V))
    (hd : (kvs.map Prod.fst).Nodup) :
    TouchesBelow cacheSize kvs (BTree.init cacheSize : BTree K V N) ↔
      KeyLevels.nodesFor N (kvs.map Prod.fst) < cacheSize := by
  have hinit : Counts _ _ _ 0 [[]] (BTree.init cacheSize : BTree K V N) := Counts.init (by omega) cacheSize
  have hone : 1 ≤ cacheSize := by omega
  exact hinit.touchesBelow_iff hN (show ([] ++ kvs.map Prod.fst).Nodup from hd) hone hsize

/-- Three values fit one leaf of a cache of two nodes. -/
theorem touches_iff_leaf : TouchesBelow 2 [(1, 11), (2, 12), (3, 13)] (BTree.init 2 : BTree Nat Nat 2) :=
  (touches_iff (N := 2) le_rfl le_rfl [(1, 11), (2, 12), (3, 13)] (by decide)).mpr (by decide)

/-- The fourth insert into a cache of two nodes writes the slot past its end. -/
theorem touches_past : ∃ t : BTree Nat Nat 2, (BTree.init 2).insertAll [(1, 11), (2, 12), (3, 13)] = .ok t ∧
    t.cacheSize = 2 ∧ 2 ∈ t.insertTouches 4 14 :=
  ⟨_, rfl, rfl, by decide +kernel⟩

end Nkvdb.BTree
