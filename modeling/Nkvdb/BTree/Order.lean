import Nkvdb.BTree.Insert
import Mathlib.Order.WithBot

/-! The order of the keys.

Every node is given the interval `[lo, hi)` it answers for: its keys lie in it, the
separators of an inner node cut it among the children, and along the chain of leaves
each begins where the one before it ends. `Arranged` allows a leaf to hold a key more
than once; `Ordered` is what inserts of pairwise distinct keys leave. -/
namespace Nkvdb.BTree
variable {K V : Type} {N : Nat} [LinearOrder K]

namespace Node

def Sorted (n : Node K V) : Prop := ∀ j k, j < k → k < n.valsSize → n.key j < n.key k

theorem Sorted.le {n : Node K V} (h : n.Sorted) {j k : Nat} (hjk : j ≤ k) (hk : k < n.valsSize) :
    n.key j ≤ n.key k := by
  rcases Nat.lt_or_eq_of_le hjk with hlt | rfl
  · exact (h j k hlt hk).le
  · exact le_rfl

theorem lowerBound_eq {n : Node K V} {key : K} {d : Nat} (hd : d ≤ n.valsSize)
    (hlt : ∀ j, j < d → n.key j < key) (hge : d < n.valsSize → key ≤ n.key d) :
    n.lowerBound key = d := by
  rcases Nat.lt_trichotomy (n.lowerBound key) d with h | h | h
  · exact absurd (le_key_lowerBound (by omega)) (not_le.mpr (hlt _ h))
  · exact h
  · exact absurd (hge (by have := lowerBound_le key n; omega)) (not_le.mpr (key_lt_of_lt_lowerBound h))

theorem withValue_key (n : Node K V) (key : K) (val : V) {j : Nat} (hj : j < n.valsSize + 1) :
    (n.withValue key val).key j =
      if j < n.lowerBound key then n.key j else if j = n.lowerBound key then key else n.key (j - 1) := by
  show (Slots.inserted (n.valsSize + 1) (n.lowerBound key) (key, val) n.vals j).1 = _
  unfold Node.key
  rcases Nat.lt_trichotomy j (n.lowerBound key) with h | h | h
  · rw [if_pos h, Slots.inserted_below h]
  · rw [if_neg (by omega), if_pos h, h, Slots.inserted_self]
  · rw [if_neg (by omega), if_neg (by omega), Slots.inserted_above h hj]

/-- The keys of a sorted node on the two sides of a key it does not hold. -/
theorem Sorted.sides {n : Node K V} (h : n.Sorted) {key : K} (hne : ∀ j, j < n.valsSize → n.key j ≠ key)
    {j : Nat} (hj : j < n.valsSize) :
    (j < n.lowerBound key ∧ n.key j < key) ∨ (n.lowerBound key ≤ j ∧ key < n.key j) := by
  rcases Nat.lt_or_ge j (n.lowerBound key) with hlt | hge
  · exact .inl ⟨hlt, key_lt_of_lt_lowerBound hlt⟩
  · have hle : key ≤ n.key (n.lowerBound key) := le_key_lowerBound (by omega)
    exact .inr ⟨hge, lt_of_le_of_ne (hle.trans (h.le hge hj)) (hne j hj).symm⟩

theorem Sorted.withValue {n : Node K V} (h : n.Sorted) {key : K} (val : V)
    (hne : ∀ j, j < n.valsSize → n.key j ≠ key) : (n.withValue key val).Sorted := by
  intro j k hjk hk
  have hk' : k < n.valsSize + 1 := hk
  have hle := lowerBound_le key n
  rw [withValue_key n key val hk', withValue_key n key val (by omega)]
  rcases Nat.lt_trichotomy k (n.lowerBound key) with hkl | hkl | hkl
  · rw [if_pos (by omega), if_pos hkl]
    exact h j k hjk (by omega)
  · rw [if_pos (by omega), if_neg (by omega), if_pos hkl]
    exact key_lt_of_lt_lowerBound (by omega)
  · rw [if_neg (by omega : ¬ k < _), if_neg (by omega : ¬ k = _)]
    have hup : key < n.key (k - 1) := by
      rcases h.sides hne (j := k - 1) (by omega) with ⟨hlt, -⟩ | ⟨-, hgt⟩
      · omega
      · exact hgt
    rcases Nat.lt_trichotomy j (n.lowerBound key) with hjl | hjl | hjl
    · rw [if_pos hjl]
      exact (key_lt_of_lt_lowerBound hjl).trans hup
    · rw [if_neg (by omega), if_pos hjl]
      exact hup
    · rw [if_neg (by omega), if_neg (by omega)]
      exact h (j - 1) (k - 1) (by omega) (by omega)

/-- Sorted, with keys that may repeat. -/
def Ascending (n : Node K V) : Prop := ∀ j k, j < k → k < n.valsSize → n.key j ≤ n.key k

theorem Ascending.le {n : Node K V} (h : n.Ascending) {j k : Nat} (hjk : j ≤ k) (hk : k < n.valsSize) :
    n.key j ≤ n.key k := by
  rcases Nat.lt_or_eq_of_le hjk with hlt | rfl
  · exact h j k hlt hk
  · exact le_rfl

theorem Sorted.ascending {n : Node K V} (h : n.Sorted) : n.Ascending :=
  fun j k hjk hk => (h j k hjk hk).le

theorem Ascending.withValue {n : Node K V} (h : n.Ascending) (key : K) (val : V) :
    (n.withValue key val).Ascending := by
  intro j k hjk hk
  have hk' : k < n.valsSize + 1 := hk
  have hle := lowerBound_le key n
  -- what stands at the lower bound or after it is not below the key
  have hup : ∀ i, n.lowerBound key ≤ i → i < n.valsSize → key ≤ n.key i := fun i hi hv =>
    (le_key_lowerBound (by omega)).trans (h.le hi hv)
  rw [withValue_key n key val hk', withValue_key n key val (by omega)]
  rcases Nat.lt_trichotomy k (n.lowerBound key) with hkl | hkl | hkl
  · rw [if_pos (by omega), if_pos hkl]
    exact h j k hjk (by omega)
  · rw [if_pos (by omega), if_neg (by omega), if_pos hkl]
    exact (key_lt_of_lt_lowerBound (by omega)).le
  · rw [if_neg (by omega : ¬ k < _), if_neg (by omega : ¬ k = _)]
    rcases Nat.lt_trichotomy j (n.lowerBound key) with hjl | hjl | hjl
    · rw [if_pos hjl]
      exact (key_lt_of_lt_lowerBound hjl).le.trans (hup (k - 1) (by omega) (by omega))
    · rw [if_neg (by omega), if_pos hjl]
      exact hup (k - 1) (by omega) (by omega)
    · rw [if_neg (by omega), if_neg (by omega)]
      exact h (j - 1) (k - 1) (by omega) (by omega)

/-- The values of a node that answers for `[a, b)`; a leaf may hold a key more than once. -/
structure Within (n : Node K V) (a : WithBot K) (b : WithTop K) : Prop where
  ascending : n.Ascending
  sortedInner : n.isLeaf = false → n.Sorted
  above : ∀ j, j < n.valsSize → a ≤ n.key j
  aboveInner : n.isLeaf = false → ∀ j, j < n.valsSize → a < n.key j
  below : ∀ j, j < n.valsSize → (n.key j : WithTop K) < b
  /-- The interval of a leaf begins with its first key. -/
  leafLo : n.isLeaf = true → a = ⊥ ∨ (0 < n.valsSize ∧ a = n.key 0)

/-- The values of a node that answers for `[a, b)`. -/
structure InRange (n : Node K V) (a : WithBot K) (b : WithTop K) : Prop where
  sorted : n.Sorted
  above : ∀ j, j < n.valsSize → a ≤ n.key j
  aboveInner : n.isLeaf = false → ∀ j, j < n.valsSize → a < n.key j
  below : ∀ j, j < n.valsSize → (n.key j : WithTop K) < b
  /-- The interval of a leaf begins with its first key. -/
  leafLo : n.isLeaf = true → a = ⊥ ∨ (0 < n.valsSize ∧ a = n.key 0)

theorem InRange.within {n : Node K V} {a : WithBot K} {b : WithTop K} (h : n.InRange a b) : n.Within a b :=
  ⟨h.sorted.ascending, fun _ => h.sorted, h.above, h.aboveInner, h.below, h.leafLo⟩

theorem Within.inRange {n : Node K V} {a : WithBot K} {b : WithTop K} (h : n.Within a b) (hs : n.Sorted) :
    n.InRange a b := ⟨hs, h.above, h.aboveInner, h.below, h.leafLo⟩

/-- The children of a node that answers for `[a, b)` share it out. -/
def Parts (lo : Nat → WithBot K) (hi : Nat → WithTop K) (n : Node K V) (a : WithBot K) (b : WithTop K) :
    Prop :=
  ∀ j, j < n.childsSize → lo (n.childs j) = (if j = 0 then a else (n.key (j - 1) : WithBot K)) ∧
    hi (n.childs j) = if j = n.valsSize then b else (n.key j : WithTop K)

theorem Within.withValue {n : Node K V} {a : WithBot K} {b : WithTop K} (h : n.Within a b) {key : K}
    (val : V) (hne : n.isLeaf = false → ∀ j, j < n.valsSize → n.key j ≠ key) (ha : a ≤ key)
    (hai : n.isLeaf = false → a < key) (hb : (key : WithTop K) < b) : (n.withValue key val).Within a b := by
  -- every key is the new one or an old one
  have hkey : ∀ j, j < n.valsSize + 1 → (n.withValue key val).key j = key ∨
      ∃ k, k < n.valsSize ∧ (n.withValue key val).key j = n.key k := by
    intro j hj
    have hle := lowerBound_le key n
    rw [withValue_key n key val hj]
    rcases Nat.lt_trichotomy j (n.lowerBound key) with hlt | heq | hgt
    · exact .inr ⟨j, by omega, if_pos hlt⟩
    · exact .inl (by rw [if_neg (by omega), if_pos heq])
    · exact .inr ⟨j - 1, by omega, by rw [if_neg (by omega), if_neg (by omega)]⟩
  constructor
  case ascending => exact h.ascending.withValue key val
  case sortedInner => exact fun hl => (h.sortedInner hl).withValue val (hne hl)
  case above =>
    intro j hj
    rcases hkey j hj with he | ⟨k, hk, he⟩
    · rwa [he]
    · rw [he]
      exact h.above k hk
  case aboveInner =>
    intro hl j hj
    rcases hkey j hj with he | ⟨k, hk, he⟩
    · rw [he]
      exact hai hl
    · rw [he]
      exact h.aboveInner hl k hk
  case below =>
    intro j hj
    rcases hkey j hj with he | ⟨k, hk, he⟩
    · rwa [he]
    · rw [he]
      exact h.below k hk
  case leafLo =>
    intro hl
    rcases h.leafLo hl with hbot | ⟨hpos, h0⟩
    · exact .inl hbot
    · refine .inr ⟨Nat.succ_pos _, ?_⟩
      rw [withValue_key n key val (Nat.succ_pos _), h0]
      rw [h0] at ha
      by_cases hlb : 0 < n.lowerBound key
      · rw [if_pos hlb]
      -- a key that goes in front of the first one is the first one again
      · have hlb0 : n.lowerBound key = 0 := by omega
        have hup : key ≤ n.key (n.lowerBound key) := le_key_lowerBound (by omega)
        rw [hlb0] at hup
        rw [if_neg hlb, if_pos hlb0.symm]
        exact congrArg _ (le_antisymm (WithBot.coe_le_coe.mp ha) hup)

end Node

/-- `lo` and `hi` bound the interval each node answers for; leaves may repeat a key. -/
structure Arranged (lo : Nat → WithBot K) (hi : Nat → WithTop K) (t : BTree K V N) : Prop where
  range : ∀ i, t.Made i → (t.cache i).Within (lo i) (hi i)
  parts : ∀ i, t.Made i → (t.cache i).Parts lo hi (lo i) (hi i)
  rootLo : lo t.root = ⊥
  rootHi : hi t.root = ⊤
  nextEnd : ∀ i, t.Made i → (t.cache i).isLeaf = true → (t.cache i).next = 0 → hi i = ⊤
  next : ∀ i, t.Made i → (t.cache i).isLeaf = true → (t.cache i).next ≠ 0 →
    ∃ k : K, hi i = k ∧ lo (t.cache i).next = k

/-- `lo` and `hi` bound the interval each node answers for. -/
structure Ordered (lo : Nat → WithBot K) (hi : Nat → WithTop K) (t : BTree K V N) : Prop where
  range : ∀ i, t.Made i → (t.cache i).InRange (lo i) (hi i)
  parts : ∀ i, t.Made i → (t.cache i).Parts lo hi (lo i) (hi i)
  rootLo : lo t.root = ⊥
  rootHi : hi t.root = ⊤
  nextEnd : ∀ i, t.Made i → (t.cache i).isLeaf = true → (t.cache i).next = 0 → hi i = ⊤
  next : ∀ i, t.Made i → (t.cache i).isLeaf = true → (t.cache i).next ≠ 0 →
    ∃ k : K, hi i = k ∧ lo (t.cache i).next = k

theorem Ordered.arranged {lo : Nat → WithBot K} {hi : Nat → WithTop K} {t : BTree K V N}
    (h : Ordered lo hi t) : Arranged lo hi t :=
  ⟨fun i hi' => (h.range i hi').within, h.parts, h.rootLo, h.rootHi, h.nextEnd, h.next⟩

theorem Arranged.ordered {lo : Nat → WithBot K} {hi : Nat → WithTop K} {t : BTree K V N}
    (h : Arranged lo hi t) (hs : ∀ i, t.Made i → (t.cache i).isLeaf = true → (t.cache i).Sorted) :
    Ordered lo hi t := by
  refine ⟨fun i hi' => (h.range i hi').inRange ?_, h.parts, h.rootLo, h.rootHi, h.nextEnd, h.next⟩
  cases hl : (t.cache i).isLeaf
  · exact (h.range i hi').sortedInner hl
  · exact hs i hi' hl

theorem Ordered.init [Inhabited K] [Inhabited V] (cacheSize : Nat) :
    Ordered (fun _ => ⊥) (fun _ => ⊤) (BTree.init cacheSize : BTree K V N) := by
  have hroot : ∀ i, (BTree.init cacheSize : BTree K V N).Made i → i = 1 := by
    intro i hi
    have h1 := hi.1
    have h2 : i < 2 := hi.2
    omega
  have hcache : (BTree.init cacheSize : BTree K V N).cache 1 =
      {Node.zero with id := 1, isLeaf := true} := by simp [BTree.init]
  constructor
  case rootLo => rfl
  case rootHi => rfl
  case range =>
    intro i hi
    rw [hroot i hi, hcache]
    exact {
      sorted := fun j k _ hk => absurd hk (Nat.not_lt_zero k)
      above := fun _ _ => bot_le
      aboveInner := fun h => absurd h (by simp)
      below := fun j hj => absurd hj (Nat.not_lt_zero j)
      leafLo := fun _ => .inl rfl }
  case parts =>
    intro i hi
    rw [hroot i hi, hcache]
    exact fun j hj => absurd hj (Nat.not_lt_zero j)
  case nextEnd => exact fun _ _ _ _ => rfl
  case next =>
    intro i hi _ hne
    rw [hroot i hi, hcache] at hne
    exact absurd rfl hne

/-! ### The search -/

namespace Arranged
variable [Inhabited K] [Inhabited V] {ht : Nat → Nat} {lo : Nat → WithBot K} {hi : Nat → WithTop K}
  {t : BTree K V N}

/-- A search goes down to the leaf that answers for its key. -/
theorem inerFind (h : Arranged lo hi t) (hsh : Shape ht 0 t) (hN : 2 ≤ N) {key : K} {fuel i : Nat}
    (hi' : t.Made i) (hf : ht i < fuel) (ha : lo i ≤ key) (hb : (key : WithTop K) < hi i) :
    ∃ leaf res, t.inerFind key fuel i = .ok (some (leaf, res)) ∧ t.Made leaf ∧
      (t.cache leaf).isLeaf = true ∧ lo leaf ≤ key ∧ (key : WithTop K) < hi leaf := by
  induction fuel generalizing i with
  | zero => omega
  | succ fuel ih =>
    have down : ∀ j, j < (t.cache i).childsSize →
        (j ≠ 0 → (t.cache i).key (j - 1) ≤ key) → (j ≠ (t.cache i).valsSize → key < (t.cache i).key j) →
        ∃ leaf res, t.inerFind key fuel ((t.cache i).childs j) = .ok (some (leaf, res)) ∧ t.Made leaf ∧
          (t.cache leaf).isLeaf = true ∧ lo leaf ≤ key ∧ (key : WithTop K) < hi leaf := by
      intro j hj hlo hhi
      obtain ⟨hc, -, hh⟩ := hsh.child i j hi' hj
      obtain ⟨hpl, hph⟩ := h.parts i hi' j hj
      refine ih hc (by omega) ?_ ?_
      · rw [hpl]
        split
        · exact ha
        · exact WithBot.coe_le_coe.mpr (hlo ‹_›)
      · rw [hph]
        split
        · exact hb
        · exact WithTop.coe_lt_coe.mpr (hhi ‹_›)
    cases hl : (t.cache i).isLeaf
    swap
    · refine ⟨i, if (t.cache i).lowerBound key ≠ (t.cache i).valsSize
        then some ((t.cache i).vals ((t.cache i).lowerBound key)).2 else none, ?_, hi', hl, ha, hb⟩
      simp only [BTree.inerFind, hl, if_true]
    have hcs := hsh.innerChilds i hi' hl
    have hvs := hsh.inner_vals hN hi' hl
    simp only [BTree.inerFind, hl, Bool.false_eq_true, if_false]
    by_cases hfirst : key < (t.cache i).key 0
    · rw [if_pos hfirst]
      exact down 0 (by omega) (fun h => absurd rfl h) fun _ => hfirst
    rw [if_neg hfirst]
    by_cases hlast : (t.cache i).childsSize ≠ 0 ∧ (t.cache i).valsSize ≠ 0 ∧
        (t.cache i).key ((t.cache i).valsSize - 1) ≤ key
    · rw [if_pos hlast]
      refine down _ (by omega) (fun _ => ?_) fun h => ?_
      · rw [hcs, Nat.add_sub_cancel]
        exact hlast.2.2
      · omega
    rw [if_neg hlast]
    have hlt : key < (t.cache i).key ((t.cache i).valsSize - 1) := by
      by_contra hge
      exact hlast ⟨by omega, by omega, not_lt.mp hge⟩
    have hd : (t.cache i).lowerBound key < (t.cache i).valsSize :=
      Node.lowerBound_lt (j := (t.cache i).valsSize - 1) (by omega) hlt.le
    have hle := Node.le_key_lowerBound hd
    -- the child between the last key that is not above and the next one
    have next : ∀ d, d + 1 < (t.cache i).valsSize → (t.cache i).key d ≤ key → key < (t.cache i).key (d + 1) →
        ∃ leaf res, (if key < (t.cache i).key (d + 1) then t.inerFind key fuel ((t.cache i).childs (d + 1))
          else .ok none) = .ok (some (leaf, res)) ∧ t.Made leaf ∧
          (t.cache leaf).isLeaf = true ∧ lo leaf ≤ key ∧ (key : WithTop K) < hi leaf := by
      intro d hd h1 h2
      rw [if_pos h2]
      exact down (d + 1) (by omega) (fun _ => h1) fun _ => h2
    split
    next hne =>
      have hpos : 0 < (t.cache i).lowerBound key := by
        rcases Nat.eq_zero_or_pos ((t.cache i).lowerBound key) with h0 | hpos
        · rw [h0] at hle hne
          exact absurd (lt_of_le_of_ne hle (Ne.symm hne)) hfirst
        · exact hpos
      have hs : (t.cache i).lowerBound key - 1 + 1 = (t.cache i).lowerBound key := by omega
      refine next _ (by omega) (Node.key_lt_of_lt_lowerBound (by omega)).le ?_
      rw [hs]
      exact lt_of_le_of_ne hle (Ne.symm hne)
    next he =>
      have he := not_not.mp he
      have hne : (t.cache i).lowerBound key ≠ (t.cache i).valsSize - 1 := by
        intro h
        rw [← h, he] at hlt
        exact lt_irrefl _ hlt
      refine next _ (by omega) he.le ?_
      have := (h.range i hi').sortedInner hl ((t.cache i).lowerBound key) ((t.cache i).lowerBound key + 1)
        (Nat.lt_succ_self _) (by omega)
      rwa [he] at this

theorem findNode (h : Arranged lo hi t) (hsh : Shape ht 0 t) (hN : 2 ≤ N) (key : K) :
    ∃ leaf, t.findNode key = .ok leaf ∧ t.Made leaf ∧ (t.cache leaf).isLeaf = true ∧
      lo leaf ≤ key ∧ (key : WithTop K) < hi leaf := by
  have hh := hsh.height
  obtain ⟨leaf, res, he, hm, hl, ha, hb⟩ := h.inerFind hsh hN hsh.root
    (show ht t.root < t.cachePos by omega) (show lo t.root ≤ (key : WithBot K) by rw [h.rootLo]; exact bot_le)
    (by rw [h.rootHi]; exact WithTop.coe_lt_top key)
  exact ⟨leaf, by simp only [BTree.findNode, he, bind, Except.bind], hm, hl, ha, hb⟩

/-! ### The store -/

omit [Inhabited K] [Inhabited V] in
/-- A key stored in the leaf that answers for it. -/
theorem put (h : Arranged lo hi t) {node : Nat} (hm : t.Made node) {key : K} (val : V)
    (hl : (t.cache node).isLeaf = true) (hc : (t.cache node).childsSize = 0)
    (ha : lo node ≤ key) (hb : (key : WithTop K) < hi node) :
    Arranged lo hi (t.setNode node ((t.cache node).withValue key val)) := by
  have hinner : ∀ {P : Prop}, (t.cache node).isLeaf = false → P := by
    intro P hf
    rw [hl] at hf
    cases hf
  constructor
  case rootLo => exact h.rootLo
  case rootHi => exact h.rootHi
  case range =>
    intro i hi'
    by_cases hin : i = node
    · subst hin
      rw [setNode_self]
      exact (h.range i hm).withValue val hinner ha hinner hb
    · rw [setNode_ne _ _ _ hin]
      exact h.range i hi'
  case parts =>
    intro i hi'
    by_cases hin : i = node
    · subst hin
      rw [setNode_self]
      intro j hj
      have : j < (t.cache i).childsSize := hj
      omega
    · rw [setNode_ne _ _ _ hin]
      exact h.parts i hi'
  case nextEnd =>
    intro i hi'
    by_cases hin : i = node
    · subst hin
      rw [setNode_self]
      exact h.nextEnd i hm
    · rw [setNode_ne _ _ _ hin]
      exact h.nextEnd i hi'
  case next =>
    intro i hi'
    by_cases hin : i = node
    · subst hin
      rw [setNode_self]
      exact h.next i hm
    · rw [setNode_ne _ _ _ hin]
      exact h.next i hi'

end Arranged

namespace Ordered
variable {lo : Nat → WithBot K} {hi : Nat → WithTop K} {t : BTree K V N}

/-- A new key stored in the leaf that answers for it. -/
theorem put (h : Ordered lo hi t) {node : Nat} (hm : t.Made node) {key : K} (val : V)
    (hl : (t.cache node).isLeaf = true) (hne : ∀ j, j < (t.cache node).valsSize → (t.cache node).key j ≠ key)
    (hc : (t.cache node).childsSize = 0)
    (ha : lo node ≤ key) (hb : (key : WithTop K) < hi node) :
    Ordered lo hi (t.setNode node ((t.cache node).withValue key val)) := by
  refine (h.arranged.put hm val hl hc ha hb).ordered fun i hi' _ => ?_
  by_cases hin : i = node
  · subst hin
    rw [setNode_self]
    exact (h.range i hm).sorted.withValue val hne
  · rw [setNode_ne _ _ _ hin]
    exact (h.range i hi').sorted

end Ordered
end Nkvdb.BTree
