import Mathlib

/-! B+ trees as levels of keys.

Which keys are raised to which level determines a B+ tree: the keys of a level that no key
of the next one separates share a node. An insert adds a key to the lowest level; a node
that is over its capacity raises its middle key, which cuts it in two. -/
namespace KeyLevels
variable {K : Type} [LinearOrder K]

/-- `x` lies on the same side of every cut as `k`. -/
def Beside (cuts : List K) (k x : K) : Prop := ∀ c, c ∈ cuts → (c ≤ x ↔ c ≤ k)

instance (cuts : List K) (k x : K) : Decidable (Beside cuts k x) := List.decidableBAll _ cuts

/-- The keys of the node that answers for `k`, on a level with `cuts` above it. An inner
node does not keep the keys it raised. -/
def cell (inner : Bool) (cuts level : List K) (k : K) : List K :=
  level.filter fun x => decide (Beside cuts k x ∧ (inner = true → x ∉ cuts))

/-- The number of keys that a node is split at. -/
def splitAt (N : Nat) (inner : Bool) : Nat := if inner then 2 * N - 1 else 2 * N

/-- The key that a node raises. -/
def middle (N : Nat) (inner : Bool) (keys : List K) : Option K :=
  if keys.length < splitAt N inner then none else keys[keys.length / 2]?

/-- The levels above `level` once the node that answers for `k` on it is split, if it is to be. -/
def raise (N : Nat) : Bool → K → List K → List (List K) → List (List K)
  | inner, k, level, [] =>
    match middle N inner (cell inner [] level k) with
    | none => []
    | some m => [[m]]
  | inner, k, level, cuts :: up =>
    match middle N inner (cell inner cuts level k) with
    | none => cuts :: up
    | some m => cuts.orderedInsert (· ≤ ·) m :: raise N true m (cuts.orderedInsert (· ≤ ·) m) up

/-- The nodes of a tree with the levels `up` above its keys. -/
def nodes (up : List (List K)) : Nat := 1 + (up.map fun level => level.length + 1).sum

/-- The levels of a tree, its keys first. -/
def insert (N : Nat) (k : K) (s : List K × List (List K)) : List K × List (List K) :=
  (s.1.orderedInsert (· ≤ ·) k, raise N false k (s.1.orderedInsert (· ≤ ·) k) s.2)

def insertAll (N : Nat) (ks : List K) (s : List K × List (List K)) : List K × List (List K) :=
  ks.foldl (fun s k => insert N k s) s

/-- The nodes of a tree that the keys are inserted into in the order given. -/
def nodesFor (N : Nat) (ks : List K) : Nat := nodes (insertAll N ks ([], [])).2

/-- The keys of such a tree that its leaves are cut apart at. -/
def cutsFor (N : Nat) (ks : List K) : List K := (insertAll N ks ([], [])).2.headD []

theorem mem_cell {inner : Bool} {cuts level : List K} {k x : K} :
    x ∈ cell inner cuts level k ↔ x ∈ level ∧ Beside cuts k x ∧ (inner = true → x ∉ cuts) := by
  unfold cell
  rw [List.mem_filter, decide_eq_true_eq]

theorem pairwise_orderedInsert {l : List K} {m : K} (h : l.Pairwise (· < ·)) (hm : m ∉ l) :
    (l.orderedInsert (· ≤ ·) m).Pairwise (· < ·) := by
  have hle : (l.orderedInsert (· ≤ ·) m).Pairwise (· ≤ ·) :=
    List.Pairwise.orderedInsert m l (h.imp le_of_lt)
  have hnodup : (l.orderedInsert (· ≤ ·) m).Nodup :=
    (List.perm_orderedInsert (· ≤ ·) m l).nodup_iff.mpr (List.nodup_cons.mpr ⟨hm, h.imp ne_of_lt⟩)
  exact hle.imp₂ (fun _ _ hab hne => lt_of_le_of_ne hab hne) hnodup

/-! ### Raising -/

omit [LinearOrder K] in
theorem nodes_cons (level : List K) (up : List (List K)) : nodes (level :: up) = nodes up + level.length + 1 := by
  unfold nodes
  rw [List.map_cons, List.sum_cons]
  omega

theorem raise_none {N : Nat} {inner : Bool} {k : K} {level : List K} {up : List (List K)}
    (h : middle N inner (cell inner (up.headD []) level k) = none) : raise N inner k level up = up := by
  cases up with
  | nil => simp only [raise, show middle N inner (cell inner [] level k) = none from h]
  | cons cuts up => simp only [raise, show middle N inner (cell inner cuts level k) = none from h]

/-- A single key is not raised. -/
theorem raise_single {N : Nat} (hN : 2 ≤ N) (inner : Bool) (k m : K) : raise N inner k [m] [] = [] := by
  apply raise_none
  have hlen : (cell inner [] [m] k).length ≤ 1 := List.length_filter_le ..
  unfold middle splitAt
  rw [List.headD_nil, if_pos]
  split <;> omega

theorem raise_some {N : Nat} (hN : 2 ≤ N) {inner : Bool} {k m : K} {level : List K} {up : List (List K)}
    (h : middle N inner (cell inner (up.headD []) level k) = some m) :
    raise N inner k level up = (up.headD []).orderedInsert (· ≤ ·) m ::
      raise N true m ((up.headD []).orderedInsert (· ≤ ·) m) up.tail := by
  cases up with
  | nil =>
    have hone : raise N true m [m] [] = [] := raise_single hN true m m
    simp only [raise, show middle N inner (cell inner [] level k) = some m from h, List.headD_nil,
      List.orderedInsert_nil, List.tail_nil, hone]
  | cons cuts up =>
    simp only [raise, show middle N inner (cell inner cuts level k) = some m from h, List.headD_cons,
      List.tail_cons]

theorem nodes_le_raise {N : Nat} {inner : Bool} {k : K} {level : List K} {up : List (List K)} :
    nodes up ≤ nodes (raise N inner k level up) := by
  induction up generalizing inner k level with
  | nil => exact Nat.le_add_right ..
  | cons cuts up ih =>
    unfold raise
    split
    · exact le_rfl
    next m _ =>
      have hup : nodes up ≤ nodes (raise N true m (cuts.orderedInsert (· ≤ ·) m) up) := ih
      rw [nodes_cons, nodes_cons, List.orderedInsert_length]
      omega

/-- A node that is split makes one more, and a root two. -/
theorem nodes_lt_raise {N : Nat} (hN : 2 ≤ N) {inner : Bool} {k m : K} {level : List K} {up : List (List K)}
    (h : middle N inner (cell inner (up.headD []) level k) = some m) :
    nodes up + 1 ≤ nodes (raise N inner k level up) ∧ (up = [] → nodes up + 2 ≤ nodes (raise N inner k level up)) := by
  rw [raise_some hN h, nodes_cons, List.orderedInsert_length]
  cases up with
  | nil =>
    have := @nodes_le_raise _ _ N true m ([].orderedInsert (· ≤ ·) m) ([] : List (List K))
    rw [List.headD_nil, List.tail_nil, List.length_nil]
    exact ⟨by omega, fun _ => by omega⟩
  | cons cuts up =>
    have := @nodes_le_raise _ _ N true m (cuts.orderedInsert (· ≤ ·) m) up
    rw [List.headD_cons, List.tail_cons, nodes_cons]
    exact ⟨by omega, fun hnil => by cases hnil⟩

/-! ### Inserting -/

theorem nodes_le_insertAll (N : Nat) (ks : List K) (s : List K × List (List K)) :
    nodes s.2 ≤ nodes (insertAll N ks s).2 := by
  induction ks generalizing s with
  | nil => exact le_rfl
  | cons k ks ih => exact nodes_le_raise.trans (ih (insert N k s))

/-- Keys that fit into one node make one. -/
theorem insertAll_few {N : Nat} {ks level : List K} (h : level.length + ks.length < 2 * N) :
    (insertAll N ks (level, [])).2 = [] := by
  induction ks generalizing level with
  | nil => rfl
  | cons k ks ih =>
    rw [List.length_cons] at h
    have hlen := List.orderedInsert_length (· ≤ ·) level k
    have hcell : (cell false [] (level.orderedInsert (· ≤ ·) k) k).length ≤ _ := List.length_filter_le ..
    have hstay : raise N false k (level.orderedInsert (· ≤ ·) k) [] = [] := by
      apply raise_none
      unfold middle splitAt
      rw [List.headD_nil, if_pos]
      rw [if_neg Bool.false_ne_true]
      omega
    show (insertAll N ks (level.orderedInsert (· ≤ ·) k, raise N false k _ [])).2 = []
    rw [hstay]
    exact ih (by omega)

theorem nodesFor_few {N : Nat} {ks : List K} (h : ks.length < 2 * N) : nodesFor N ks = 1 := by
  unfold nodesFor
  rw [insertAll_few (by rw [List.length_nil]; omega)]
  rfl

example : nodesFor 2 [4, 2, 6, 1, 3, 7, 5] = 4 := by decide

end KeyLevels
