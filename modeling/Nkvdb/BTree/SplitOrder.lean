import Nkvdb.BTree.Order

/-! A split keeps the order: the interval of the node is cut at its middle key.

Where keys repeat this asks that a leaf is cut between two different keys
(`Node.CutsApart`); inner nodes hold no key twice as long as every cut has been one. -/
namespace Nkvdb.BTree
variable {K V : Type} {N : Nat} [LinearOrder K] [Inhabited K] [Inhabited V]

/-- Where the intervals begin after a split of `node` at `mid`. -/
def splitLo (lo : Nat → WithBot K) (c : Nat) (mid : K) : Nat → WithBot K :=
  fun i => if i = c then mid else if i = c + 1 then ⊥ else lo i

/-- Where the intervals end after a split of `node` at `mid`. -/
def splitHi (hi : Nat → WithTop K) (c node : Nat) (mid : K) : Nat → WithTop K :=
  fun i => if i = node then mid else if i = c then hi node else if i = c + 1 then ⊤ else hi i

section
variable (lo : Nat → WithBot K) (hi : Nat → WithTop K) {c node i : Nat} (mid : K)
omit [LinearOrder K] [Inhabited K]

theorem splitLo_old (h : i < c) : splitLo lo c mid i = lo i := by
  have h1 : i ≠ c := by omega
  have h2 : i ≠ c + 1 := by omega
  simp [splitLo, h1, h2]

@[simp] theorem splitLo_made : splitLo lo c mid c = mid := by simp [splitLo]

@[simp] theorem splitLo_root : splitLo lo c mid (c + 1) = ⊥ := by simp [splitLo]

theorem splitHi_old (h : i < c) (hne : i ≠ node) : splitHi hi c node mid i = hi i := by
  have h1 : i ≠ c := by omega
  have h2 : i ≠ c + 1 := by omega
  simp [splitHi, h1, h2, hne]

@[simp] theorem splitHi_node : splitHi hi c node mid node = mid := by simp [splitHi]

theorem splitHi_made (h : node < c) : splitHi hi c node mid c = hi node := by
  have h1 : c ≠ node := by omega
  simp [splitHi, h1]

theorem splitHi_root (h : node < c) : splitHi hi c node mid (c + 1) = ⊤ := by
  have h1 : c + 1 ≠ node := by omega
  simp [splitHi, h1]

end

namespace Node
variable {n : Node K V} {a : WithBot K} {b : WithTop K} {lo lo' : Nat → WithBot K} {hi hi' : Nat → WithTop K}

/-- The middle of a leaf is not inside a run of one key. -/
def CutsApart (n : Node K V) : Prop := n.isLeaf = true → n.key (n.valsSize / 2 - 1) < n.midle.1

instance (n : Node K V) : Decidable n.CutsApart :=
  inferInstanceAs (Decidable (n.isLeaf = true → n.key (n.valsSize / 2 - 1) < n.midle.1))

omit [Inhabited K] [Inhabited V] in
theorem Sorted.cutsApart (h : n.Sorted) (h0 : 0 < n.valsSize / 2) : n.CutsApart :=
  fun _ => h _ _ (by omega) (by omega)

omit [Inhabited K] [Inhabited V] in
/-- What stays in the split node is below the middle key. -/
theorem Within.below_midle (h : n.Within a b) (hcut : n.CutsApart) {j : Nat} (hj : j < n.valsSize / 2) :
    n.key j < n.midle.1 := by
  cases hl : n.isLeaf
  · exact h.sortedInner hl j _ hj (by omega)
  · exact lt_of_le_of_lt (h.ascending.le (by omega) (by omega)) (hcut hl)

omit [Inhabited K] [Inhabited V] in
theorem leftHalf_within (h : n.Within a b) (hcut : n.CutsApart) (h0 : 0 < n.valsSize / 2) (c p : Nat) :
    (n.leftHalf c p).Within a (n.midle.1 : WithTop K) := by
  have hle : n.valsSize / 2 ≤ n.valsSize := Nat.div_le_self ..
  constructor
  case ascending => exact fun j k hjk hk => h.ascending j k hjk (lt_of_lt_of_le hk hle)
  case sortedInner => exact fun hl j k hjk hk => h.sortedInner hl j k hjk (lt_of_lt_of_le hk hle)
  case above => exact fun j hj => h.above j (lt_of_lt_of_le hj hle)
  case aboveInner => exact fun hl j hj => h.aboveInner hl j (lt_of_lt_of_le hj hle)
  case below => exact fun j hj => WithTop.coe_lt_coe.mpr (h.below_midle hcut hj)
  case leafLo =>
    intro hl
    rcases h.leafLo hl with hbot | ⟨-, he⟩
    · exact .inl hbot
    · exact .inr ⟨h0, he⟩

omit [LinearOrder K] in
theorem rightHalf_key {c p j : Nat} (hj : j < n.valsSize - n.valsBegin) :
    (n.rightHalf c p).key j = n.key (n.valsBegin + j) := by
  simp [Node.rightHalf, Node.key, hj]

omit [LinearOrder K] in
theorem rightHalf_keys {R : K → K → Prop} {c p : Nat}
    (h : ∀ j k, j < k → k < n.valsSize → R (n.key j) (n.key k)) {j k : Nat} (hjk : j < k)
    (hk : k < (n.rightHalf c p).valsSize) : R ((n.rightHalf c p).key j) ((n.rightHalf c p).key k) := by
  have hk' : k < n.valsSize - n.valsBegin := hk
  rw [rightHalf_key (by omega), rightHalf_key hk']
  exact h _ _ (by omega) (by omega)

theorem rightHalf_within (h : n.Within a b) (h0 : n.valsSize / 2 < n.valsSize) (c p : Nat) :
    (n.rightHalf c p).Within (n.midle.1 : WithBot K) b := by
  have hmid : n.midle.1 = n.key (n.valsSize / 2) := rfl
  have hbegin : n.valsSize / 2 ≤ n.valsBegin := by
    unfold valsBegin
    split <;> omega
  have hkey : ∀ j, j < n.valsSize - n.valsBegin → (n.rightHalf c p).key j = n.key (n.valsBegin + j) :=
    fun j hj => rightHalf_key hj
  constructor
  case ascending => exact fun j k hjk hk => rightHalf_keys h.ascending hjk hk
  case sortedInner => exact fun hl j k hjk hk => rightHalf_keys (h.sortedInner hl) hjk hk
  case above =>
    intro j hj
    have hj' : j < n.valsSize - n.valsBegin := hj
    rw [hkey j hj', hmid]
    exact WithBot.coe_le_coe.mpr (h.ascending.le (by omega) (by omega))
  case aboveInner =>
    intro hl j hj
    have hj' : j < n.valsSize - n.valsBegin := hj
    have hb : n.valsBegin = n.valsSize / 2 + 1 := by
      have : n.isLeaf = false := hl
      simp [valsBegin, this]
    rw [hkey j hj', hmid]
    exact WithBot.coe_lt_coe.mpr (h.sortedInner hl _ _ (by omega) (by omega))
  case below =>
    intro j hj
    have hj' : j < n.valsSize - n.valsBegin := hj
    rw [hkey j hj']
    exact h.below _ (by omega)
  case leafLo =>
    intro hl
    have hb : n.valsBegin = n.valsSize / 2 := by
      have : n.isLeaf = true := hl
      simp [valsBegin, this]
    have hpos : 0 < n.valsSize - n.valsBegin := by omega
    refine .inr ⟨hpos, ?_⟩
    rw [hkey 0 hpos, hmid, hb, Nat.add_zero]

omit [LinearOrder K] [Inhabited K] [Inhabited V] in
theorem leftHalf_parts (h : n.Parts lo hi a b) (hv : n.valsSize / 2 < n.valsSize)
    (hc : n.childsSize = 0 ∨ n.childsSize / 2 = n.valsSize / 2 + 1) (c p : Nat)
    (hsame : ∀ j, j < n.childsSize → lo' (n.childs j) = lo (n.childs j) ∧ hi' (n.childs j) = hi (n.childs j)) :
    (n.leftHalf c p).Parts lo' hi' a (n.midle.1 : WithTop K) := by
  intro j hj
  have hj' : j < n.childsSize / 2 := hj
  have hchild : (n.leftHalf c p).childs j = n.childs j := by
    simp only [leftHalf, Nat.not_le.mpr hj', false_and, if_false]
  obtain ⟨hl, hh⟩ := h j (by omega)
  obtain ⟨hsl, hsh⟩ := hsame j (by omega)
  rw [hchild, hsl, hsh, hl, hh]
  refine ⟨rfl, ?_⟩
  rw [if_neg (by omega)]
  by_cases he : j = n.valsSize / 2
  · have hmid : (n.key j : WithTop K) = n.midle.1 := by
      rw [he]
      rfl
    exact hmid.trans (if_pos he).symm
  · exact (if_neg he).symm

omit [LinearOrder K] in
theorem rightHalf_parts (h : n.Parts lo hi a b)
    (hc : n.childsSize = 0 ∨ (n.isLeaf = false ∧ n.childsSize / 2 = n.valsSize / 2 + 1 ∧
      n.childsSize = n.childsSize / 2 * 2 ∧ n.childsSize = n.valsSize + 1)) (c p : Nat)
    (hsame : ∀ j, j < n.childsSize → lo' (n.childs j) = lo (n.childs j) ∧ hi' (n.childs j) = hi (n.childs j)) :
    (n.rightHalf c p).Parts lo' hi' (n.midle.1 : WithBot K) b := by
  intro j hj
  have hj' : j < n.childsSize / 2 := hj
  obtain ⟨hlf, hhalf, htwo, hsize⟩ := hc.resolve_left (by omega)
  have hb : n.valsBegin = n.valsSize / 2 + 1 := by simp [valsBegin, hlf]
  have hlt : j < n.childsSize - n.childsSize / 2 := by omega
  have hchild : (n.rightHalf c p).childs j = n.childs (n.childsSize / 2 + j) := by
    simp only [rightHalf, hlt, if_true]
  obtain ⟨hl, hh⟩ := h (n.childsSize / 2 + j) (by omega)
  obtain ⟨hsl, hsh⟩ := hsame (n.childsSize / 2 + j) (by omega)
  rw [hchild, hsl, hsh, hl, hh, if_neg (by omega)]
  constructor
  · by_cases h0 : j = 0
    · rw [if_pos h0, h0, hhalf]
      rfl
    · rw [if_neg h0, rightHalf_key (by omega), hb, hhalf]
      congr 2
      omega
  · by_cases he : j = n.valsSize - n.valsBegin
    · have he' : j = (n.rightHalf c p).valsSize := he
      rw [if_pos (by omega), if_pos he']
    · have he' : ¬ j = (n.rightHalf c p).valsSize := he
      rw [if_neg (by omega), if_neg he', rightHalf_key (by omega), hb, hhalf]

end Node

namespace Split
variable {ht : Nat → Nat} {lo : Nat → WithBot K} {hi : Nat → WithTop K} {t t' : BTree K V N} {node p : Nat}

section
variable (hs : Split t t' node p) (h : Shape ht node t) (hm : t.Made node) (hN : 2 ≤ N)
  (ho : Arranged lo hi t) (hcut : (t.cache node).CutsApart)
include hs h hm hN ho hcut

omit [LinearOrder K] hs ho hcut in
/-- The middle of an overfull node, and the children on either side of it. -/
theorem over_middle : 0 < (t.cache node).valsSize / 2 ∧
    (t.cache node).valsSize / 2 < (t.cache node).valsSize ∧
    ((t.cache node).childsSize = 0 ∨ ((t.cache node).isLeaf = false ∧
      (t.cache node).childsSize / 2 = (t.cache node).valsSize / 2 + 1 ∧
      (t.cache node).childsSize = (t.cache node).childsSize / 2 * 2 ∧
      (t.cache node).childsSize = (t.cache node).valsSize + 1)) := by
  rcases over_sizes h hm hN with ⟨hl, hv, hc⟩ | ⟨hl, hv, hc⟩
  · exact ⟨by omega, by omega, .inl hc⟩
  · exact ⟨by omega, by omega, .inr ⟨hl, by omega, by omega, by omega⟩⟩

omit hs in
/-- The middle key lies strictly inside the interval. -/
theorem mid_range : lo node < ((t.cache node).midle.1 : WithBot K) ∧
    ((t.cache node).midle.1 : WithTop K) < hi node := by
  obtain ⟨h0, hv, -⟩ := over_middle h hm hN
  have hr := ho.range node hm
  refine ⟨lt_of_le_of_lt (hr.above 0 (by omega)) ?_, hr.below _ hv⟩
  exact WithBot.coe_lt_coe.mpr (hr.below_midle hcut h0)

omit [LinearOrder K] hs hm hN ho hcut in
/-- The bounds of a child of an old node, other than the split one, are as they were. -/
theorem bounds_child (lo : Nat → WithBot K) (hi : Nat → WithTop K) (mid : K) {i j : Nat} (hi' : t.Made i)
    (hj : j < (t.cache i).childsSize)
    (hne : (t.cache i).childs j ≠ node) :
    splitLo lo t.cachePos mid ((t.cache i).childs j) = lo ((t.cache i).childs j) ∧
      splitHi hi t.cachePos node mid ((t.cache i).childs j) = hi ((t.cache i).childs j) := by
  have hc := (h.child i j hi' hj).1.2
  exact ⟨splitLo_old _ _ hc, splitHi_old _ _ hc hne⟩

omit hs in
/-- The separators of the old receiver left of the node are below the middle key, those
right of it above. -/
theorem receiver_sides (hpm : t.Made p) (hl : (t.cache p).isLeaf = false) {j : Nat} (hj : j < (t.cache p).childsSize)
    (hc : (t.cache p).childs j = node) :
    (∀ m, m < j → m < (t.cache p).valsSize → (t.cache p).key m < (t.cache node).midle.1) ∧
      (∀ m, j ≤ m → m < (t.cache p).valsSize → (t.cache node).midle.1 < (t.cache p).key m) := by
  obtain ⟨hlo, hhi⟩ := mid_range h hm hN ho hcut
  obtain ⟨hpl, hph⟩ := ho.parts p hpm j hj
  have hcs := h.innerChilds p hpm hl
  have hsort := (ho.range p hpm).sortedInner hl
  rw [hc] at hpl hph
  constructor
  · intro m hmj hmv
    rw [hpl, if_neg (by omega)] at hlo
    exact lt_of_le_of_lt (hsort.le (by omega) (by omega)) (WithBot.coe_lt_coe.mp hlo)
  · intro m hjm hmv
    rw [hph, if_neg (by omega)] at hhi
    exact lt_of_lt_of_le (WithTop.coe_lt_coe.mp hhi) (hsort.le hjm hmv)

omit hs in
/-- The middle value and the new node go right of the split one. -/
theorem receiver_slots (hpm : t.Made p) {j : Nat} (hj : j < (t.cache p).childsSize)
    (hc : (t.cache p).childs j = node) (hl : (t.cache p).isLeaf = false) :
    (t.cache p).lowerBound (t.cache node).midle.1 = j ∧ slot t node p = j + 1 := by
  have hcs := h.innerChilds p hpm hl
  obtain ⟨hbelow, habove⟩ := receiver_sides h hm hN ho hcut hpm hl hj hc
  have hlb : (t.cache p).lowerBound (t.cache node).midle.1 = j :=
    Node.lowerBound_eq (by omega) (fun m hmj => hbelow m hmj (by omega)) fun hjv => (habove j le_rfl hjv).le
  refine ⟨hlb, ?_⟩
  have hkey := fun m hm => Node.withValue_key (t.cache p) (t.cache node).midle.1
    (t.cache node).midle.2 (j := m) hm
  rw [hlb] at hkey
  have hlb' : ((t.cache p).withValue (t.cache node).midle.1 (t.cache node).midle.2).lowerBound
      (t.cache node).midle.1 = j := by
    refine Node.lowerBound_eq (show j ≤ (t.cache p).valsSize + 1 by omega) (fun m hmj => ?_) fun _ => ?_
    · rw [hkey m (by omega), if_pos hmj]
      exact hbelow m hmj (by omega)
    · rw [hkey j (by omega), if_neg (lt_irrefl _), if_pos rfl]
  have hlast := hkey (t.cache p).valsSize (Nat.lt_succ_self _)
  rw [if_neg (by omega)] at hlast
  show (if (t.cache node).midle.1 = ((t.cache p).withValue (t.cache node).midle.1
    (t.cache node).midle.2).key ((t.cache p).valsSize + 1 - 1) then (t.cache p).childsSize else _ + 1) = j + 1
  rw [hlb', Nat.add_sub_cancel, hlast]
  -- a middle key that became the last one takes the other branch to the same slot
  by_cases hjv : j = (t.cache p).valsSize
  · rw [if_pos hjv.symm, if_pos rfl]
    omega
  · have hgt := habove ((t.cache p).valsSize - 1) (by omega) (by omega)
    rw [if_neg (Ne.symm hjv), if_neg hgt.ne]

/-- The values of an old receiver. -/
theorem receiver_within (hne : node ≠ t.root) : (t'.cache p).Within (lo p) (hi p) := by
  rcases hs.receiver h hm with ⟨-, hpm, hp, -, hpl, -⟩ | ⟨hr, -⟩
  swap
  · exact absurd hr hne
  obtain ⟨-, j, hj, hc⟩ := h.parent node hm hne
  rw [← hp] at hj hc
  have hcs := h.innerChilds p hpm hpl
  obtain ⟨hbelow, habove⟩ := receiver_sides h hm hN ho hcut hpm hpl hj hc
  obtain ⟨hmlo, hmhi⟩ := mid_range h hm hN ho hcut
  have hr := ho.range p hpm
  obtain ⟨hplo, hphi⟩ := ho.parts p hpm j hj
  rw [hc] at hplo hphi
  have hlo' : lo p < ((t.cache node).midle.1 : WithBot K) := by
    refine lt_of_le_of_lt ?_ hmlo
    rw [hplo]
    split
    · exact le_rfl
    · exact hr.above _ (by omega)
  have hhi' : ((t.cache node).midle.1 : WithTop K) < hi p := by
    refine lt_of_lt_of_le hmhi ?_
    rw [hphi]
    split
    · exact le_rfl
    · exact (hr.below _ (by omega)).le
  have hfresh : ∀ m, m < (t.cache p).valsSize → (t.cache p).key m ≠ (t.cache node).midle.1 := by
    intro m hmv
    rcases Nat.lt_or_ge m j with hlt | hge
    · exact (hbelow m hlt hmv).ne
    · exact (habove m hge hmv).ne'
  have hw := hr.withValue (t.cache node).midle.2 (fun _ => hfresh) hlo'.le (fun _ => hlo') hhi'
  rw [hs.receiver_eq hne]
  exact ⟨hw.ascending, hw.sortedInner, hw.above, hw.aboveInner, hw.below, hw.leafLo⟩

/-- The keys of an old receiver: the middle key stands where the split node does among the children. -/
theorem receiver_key (hpm : t.Made p) (hpl : (t.cache p).isLeaf = false) (hne : node ≠ t.root) {j k : Nat}
    (hj : j < (t.cache p).childsSize) (hc : (t.cache p).childs j = node) (hk : k < (t.cache p).valsSize + 1) :
    (t'.cache p).key k = if k < j then (t.cache p).key k else if k = j then (t.cache node).midle.1
      else (t.cache p).key (k - 1) := by
  have hkey := Node.withValue_key (t.cache p) (t.cache node).midle.1 (t.cache node).midle.2 hk
  rw [(receiver_slots h hm hN ho hcut hpm hj hc hpl).1] at hkey
  rw [← hkey, hs.receiver_eq hne]
  rfl

omit hs hm hN hcut in
/-- The children of an old receiver other than the split node keep their bounds. -/
theorem receiver_stays (hpm : t.Made p) {j k : Nat} (hj : j < (t.cache p).childsSize)
    (hc : (t.cache p).childs j = node) (hk : k < (t.cache p).childsSize) (hkj : k ≠ j) :
    splitLo lo t.cachePos (t.cache node).midle.1 ((t.cache p).childs k) =
        (if k = 0 then lo p else ((t.cache p).key (k - 1) : WithBot K)) ∧
      splitHi hi t.cachePos node (t.cache node).midle.1 ((t.cache p).childs k) =
        if k = (t.cache p).valsSize then hi p else ((t.cache p).key k : WithTop K) := by
  have hkn : (t.cache p).childs k ≠ node := fun he => hkj (h.childInj p k j hpm hk hj (he.trans hc.symm))
  obtain ⟨h1, h2⟩ := bounds_child h lo hi (t.cache node).midle.1 hpm hk hkn
  rw [h1, h2]
  exact ho.parts p hpm k hk

/-- The children of an old receiver. -/
theorem receiver_parts (hne : node ≠ t.root) :
    (t'.cache p).Parts (splitLo lo t.cachePos (t.cache node).midle.1)
      (splitHi hi t.cachePos node (t.cache node).midle.1) (lo p) (hi p) := by
  rcases hs.receiver h hm with ⟨-, hpm, hp, -, hpl, -⟩ | ⟨hr, -⟩
  swap
  · exact absurd hr hne
  obtain ⟨-, j, hj, hc⟩ := h.parent node hm hne
  rw [← hp] at hj hc
  have hcs := h.innerChilds p hpm hpl
  obtain ⟨hplo, hphi⟩ := ho.parts p hpm j hj
  rw [hc] at hplo hphi
  have hkey := fun k => hs.receiver_key h hm hN ho hcut hpm hpl hne hj hc (k := k)
  have hstay := fun k => receiver_stays h ho hpm hj hc (k := k)
  have hvs : (t'.cache p).valsSize = (t.cache p).valsSize + 1 := by rw [hs.receiver_eq hne]
  intro m hmc
  have hmc' : m < (t.cache p).childsSize + 1 := by
    rw [hs.receiver_eq hne] at hmc
    exact hmc
  have hchild : (t'.cache p).childs m =
      Slots.inserted ((t.cache p).childsSize + 1) (j + 1) t.cachePos (t.cache p).childs m := by
    rw [hs.receiver_eq hne, ← (receiver_slots h hm hN ho hcut hpm hj hc hpl).2]
  rw [hchild, hvs]
  rcases Nat.lt_trichotomy m (j + 1) with hlt | heq | hgt
  · rw [Slots.inserted_below hlt]
    rcases Nat.lt_or_eq_of_le (Nat.le_of_lt_succ hlt) with hmj | rfl
    · obtain ⟨h1, h2⟩ := hstay m (by omega) (by omega)
      rw [h1, h2, hkey m (by omega), if_pos hmj, if_neg (by omega : ¬ m = (t.cache p).valsSize),
        if_neg (by omega : ¬ m = (t.cache p).valsSize + 1)]
      refine ⟨?_, rfl⟩
      by_cases h0 : m = 0
      · rw [if_pos h0, if_pos h0]
      · rw [if_neg h0, if_neg h0, hkey (m - 1) (by omega), if_pos (by omega)]
    · rw [hc, splitHi_node, splitLo_old _ _ hm.2, hplo, if_neg (by omega : ¬ m = (t.cache p).valsSize + 1),
        hkey m (by omega), if_neg (lt_irrefl _), if_pos rfl]
      refine ⟨?_, rfl⟩
      by_cases h0 : m = 0
      · rw [if_pos h0, if_pos h0]
      · rw [if_neg h0, if_neg h0, hkey (m - 1) (by omega), if_pos (by omega)]
  · rw [heq, Slots.inserted_self, splitLo_made, splitHi_made _ _ hm.2, if_neg (by omega), Nat.add_sub_cancel,
      hkey j (by omega), if_neg (lt_irrefl _), if_pos rfl, hphi]
    refine ⟨rfl, ?_⟩
    by_cases hjv : j = (t.cache p).valsSize
    · rw [if_pos hjv, if_pos (by omega)]
    · rw [if_neg hjv, if_neg (by omega), hkey (j + 1) (by omega), if_neg (by omega), if_neg (by omega),
        Nat.add_sub_cancel]
  · rw [Slots.inserted_above hgt hmc']
    obtain ⟨h1, h2⟩ := hstay (m - 1) (by omega) (by omega)
    rw [h1, h2, if_neg (by omega : ¬ m - 1 = 0), if_neg (by omega : ¬ m = 0), hkey (m - 1) (by omega),
      if_neg (by omega), if_neg (by omega)]
    refine ⟨rfl, ?_⟩
    by_cases hmv : m - 1 = (t.cache p).valsSize
    · rw [if_pos hmv, if_pos (by omega)]
    · rw [if_neg hmv, if_neg (by omega), hkey m (by omega), if_neg (by omega), if_neg (by omega)]

omit h hN hcut in
/-- A new root, with one separator and the two halves under it. -/
theorem newRoot_arranged (hr : node = t.root) :
    (t'.cache p).Within ⊥ ⊤ ∧
      (t'.cache p).Parts (splitLo lo t.cachePos (t.cache node).midle.1)
        (splitHi hi t.cachePos node (t.cache node).midle.1) ⊥ ⊤ := by
  rw [hs.receiver_root hr]
  constructor
  · exact {
      ascending := fun j k hjk hk => absurd hk (by simp only [Node.newRoot]; omega)
      sortedInner := fun _ j k hjk hk => absurd hk (by simp only [Node.newRoot]; omega)
      above := fun _ _ => bot_le
      aboveInner := fun _ j _ => WithBot.bot_lt_coe _
      below := fun j _ => WithTop.coe_lt_top _
      leafLo := fun hl => nomatch hl }
  · intro j hj
    have hj2 : j < 2 := hj
    have hlo : lo node = ⊥ := hr ▸ ho.rootLo
    have hhi : hi node = ⊤ := hr ▸ ho.rootHi
    rcases Nat.le_one_iff_eq_zero_or_eq_one.mp (Nat.le_of_lt_succ hj2) with rfl | rfl
    · refine ⟨(splitLo_old _ _ hm.2).trans hlo, ?_⟩
      exact splitHi_node ..
    · refine ⟨splitLo_made .., ?_⟩
      exact (splitHi_made _ _ hm.2).trans hhi

/-- The values and the children of a node, between the bounds after a split. -/
def Placed (lo : Nat → WithBot K) (hi : Nat → WithTop K) (t t' : BTree K V N) (node i : Nat) : Prop :=
  (t'.cache i).Within (splitLo lo t.cachePos (t.cache node).midle.1 i)
      (splitHi hi t.cachePos node (t.cache node).midle.1 i) ∧
    (t'.cache i).Parts (splitLo lo t.cachePos (t.cache node).midle.1)
      (splitHi hi t.cachePos node (t.cache node).midle.1) (splitLo lo t.cachePos (t.cache node).midle.1 i)
      (splitHi hi t.cachePos node (t.cache node).midle.1 i)

theorem placed_receiver : Placed lo hi t t' node p := by
  unfold Placed
  rcases hs.receiver h hm with ⟨hne, hpm, -⟩ | ⟨hr, hp, -⟩
  · rw [splitLo_old _ _ hpm.2, splitHi_old _ _ hpm.2 (hs.node_ne_receiver h hm).symm]
    exact ⟨hs.receiver_within h hm hN ho hcut hne, hs.receiver_parts h hm hN ho hcut hne⟩
  · have hnew := hs.newRoot_arranged hm ho hr
    rw [hp, splitLo_root, splitHi_root _ _ hm.2, ← hp]
    exact hnew

omit [LinearOrder K] hs hN ho hcut in
/-- The bounds of the children of the split node are as they were. -/
theorem bounds_own (lo : Nat → WithBot K) (hi : Nat → WithTop K) (mid : K) {j : Nat}
    (hj : j < (t.cache node).childsSize) :
    splitLo lo t.cachePos mid ((t.cache node).childs j) = lo ((t.cache node).childs j) ∧
      splitHi hi t.cachePos node mid ((t.cache node).childs j) = hi ((t.cache node).childs j) := by
  refine bounds_child h lo hi mid hm hj fun he => ?_
  have := (h.child node j hm hj).2.2
  rw [he] at this
  omega

theorem placed_left : Placed lo hi t t' node node := by
  obtain ⟨h0, hv, hc⟩ := over_middle h hm hN
  unfold Placed
  rw [splitLo_old _ _ hm.2, splitHi_node, hs.left]
  exact ⟨Node.leftHalf_within (ho.range node hm) hcut h0 _ _, Node.leftHalf_parts (ho.parts node hm) hv
    (hc.imp id (·.2.1)) _ _ fun j hj => bounds_own h hm lo hi _ hj⟩

omit hcut in
theorem placed_right : Placed lo hi t t' node t.cachePos := by
  obtain ⟨-, hv, hc⟩ := over_middle h hm hN
  unfold Placed
  rw [splitLo_made, splitHi_made _ _ hm.2, hs.right]
  exact ⟨Node.rightHalf_within (ho.range node hm) hv _ _,
    Node.rightHalf_parts (ho.parts node hm) hc _ _ fun j hj => bounds_own h hm lo hi _ hj⟩

omit hN hcut in
theorem placed_old {i : Nat} (hold : t.Made i) (hin : i ≠ node) (hip : i ≠ p) : Placed lo hi t t' node i := by
  unfold Placed
  rw [splitLo_old _ _ hold.2, splitHi_old _ _ hold.2 hin, hs.old_eq hold hin hip]
  have hr := ho.range i hold
  refine ⟨⟨hr.ascending, hr.sortedInner, hr.above, hr.aboveInner, hr.below, hr.leafLo⟩, fun j hj => ?_⟩
  -- the parent of `node` is the receiver
  have hne : (t.cache i).childs j ≠ node := by
    intro he
    have hpar := (h.child i j hold hj).2.1
    rw [he] at hpar
    rcases hs.receiver h hm with ⟨-, -, hp, -⟩ | ⟨hr, -⟩
    · exact hip (hpar.symm.trans hp.symm)
    · rw [hr, h.rootParent] at hpar
      exact hold.ne_zero hpar.symm
  obtain ⟨h1, h2⟩ := bounds_child h lo hi (t.cache node).midle.1 hold hj hne
  show _ = _ ∧ _ = _
  rw [h1, h2]
  exact ho.parts i hold j hj

theorem placed {i : Nat} (hi' : t'.Made i) : Placed lo hi t t' node i := by
  by_cases hip : i = p
  · rw [hip]
    exact hs.placed_receiver h hm hN ho hcut
  rcases hs.made_cases h hm hi' with hold | rfl | ⟨-, he⟩
  · by_cases hin : i = node
    · rw [hin]
      exact hs.placed_left h hm hN ho hcut
    · exact hs.placed_old h hm ho hold hin hip
  · exact hs.placed_right h hm hN ho
  · exact absurd he hip

omit hN hcut in
theorem root_bounds : splitLo lo t.cachePos (t.cache node).midle.1 t'.root = ⊥ ∧
    splitHi hi t.cachePos node (t.cache node).midle.1 t'.root = ⊤ := by
  rcases hs.receiver h hm with ⟨hne, -, -, -, -, hr, -⟩ | ⟨-, hp, hr, -⟩
  · rw [hr, splitLo_old _ _ h.root.2, splitHi_old _ _ h.root.2 (Ne.symm hne)]
    exact ⟨ho.rootLo, ho.rootHi⟩
  · rw [hr, hp]
    exact ⟨splitLo_root .., splitHi_root _ _ hm.2⟩

omit ho hcut in
/-- A leaf is an old one or the new half. -/
theorem leaf_made {i : Nat} (hi' : t'.Made i) (hl : (t'.cache i).isLeaf = true) : t.Made i ∨ i = t.cachePos := by
  rcases hs.made_cases h hm hi' with hold | he | ⟨-, he⟩
  · exact .inl hold
  · exact .inr he
  · rw [he, (hs.receiver_sized h hm hN).1] at hl
    cases hl

omit hcut in
/-- The last leaf answers up to the end. -/
theorem next_end {i : Nat} (hi' : t'.Made i) (hl : (t'.cache i).isLeaf = true) (hx : (t'.cache i).next = 0) :
    splitHi hi t.cachePos node (t.cache node).midle.1 i = ⊤ := by
  rcases hs.leaf_made h hm hN hi' hl with hold | rfl
  · obtain ⟨-, hlf, -, hnx⟩ := hs.old_kept h hm hold
    rw [hlf] at hl
    rw [hnx] at hx
    by_cases hin : i = node
    · rw [if_pos hin] at hx
      have := hm.2
      omega
    · rw [if_neg hin] at hx
      rw [splitHi_old _ _ hold.2 hin]
      exact ho.nextEnd i hold hl hx
  · rw [hs.right] at hl hx
    rw [splitHi_made _ _ hm.2]
    exact ho.nextEnd node hm hl hx

omit hcut in
/-- A leaf answers up to where the next one begins. -/
theorem next_begins {i : Nat} (hi' : t'.Made i) (hl : (t'.cache i).isLeaf = true) (hx : (t'.cache i).next ≠ 0) :
    ∃ k : K, splitHi hi t.cachePos node (t.cache node).midle.1 i = k ∧
      splitLo lo t.cachePos (t.cache node).midle.1 (t'.cache i).next = k := by
  rcases hs.leaf_made h hm hN hi' hl with hold | rfl
  · obtain ⟨-, hlf, -, hnx⟩ := hs.old_kept h hm hold
    rw [hlf] at hl
    by_cases hin : i = node
    · rw [hnx, if_pos hin, hin, splitHi_node, splitLo_made]
      exact ⟨_, rfl, rfl⟩
    · rw [hnx, if_neg hin] at hx ⊢
      obtain ⟨k, hk, hkl⟩ := ho.next i hold hl hx
      rw [splitHi_old _ _ hold.2 hin, splitLo_old _ _ (h.next i hold hx).1.2]
      exact ⟨k, hk, hkl⟩
  · rw [hs.right] at hl hx ⊢
    obtain ⟨k, hk, hkl⟩ := ho.next node hm hl hx
    have hlt : (t.cache node).next < t.cachePos := (h.next node hm hx).1.2
    rw [splitHi_made _ _ hm.2]
    exact ⟨k, hk, (splitLo_old _ _ hlt).trans hkl⟩

theorem arranged : Arranged (splitLo lo t.cachePos (t.cache node).midle.1)
    (splitHi hi t.cachePos node (t.cache node).midle.1) t' := by
  constructor
  case range => exact fun i hi' => (hs.placed h hm hN ho hcut hi').1
  case parts => exact fun i hi' => (hs.placed h hm hN ho hcut hi').2
  case rootLo => exact (hs.root_bounds h hm ho).1
  case rootHi => exact (hs.root_bounds h hm ho).2
  case nextEnd => exact fun i hi' hl hx => hs.next_end h hm hN ho hi' hl hx
  case next => exact fun i hi' hl hx => hs.next_begins h hm hN ho hi' hl hx

end

section
variable (hs : Split t t' node p) (h : Shape ht node t) (hm : t.Made node) (hN : 2 ≤ N)
  (ho : Ordered lo hi t)
include h hm hN ho

theorem cutsApart : (t.cache node).CutsApart :=
  (ho.range node hm).sorted.cutsApart (over_middle h hm hN).1

include hs in
theorem ordered : Ordered (splitLo lo t.cachePos (t.cache node).midle.1)
    (splitHi hi t.cachePos node (t.cache node).midle.1) t' := by
  refine (hs.arranged h hm hN ho.arranged (cutsApart h hm hN ho)).ordered fun i hi' hl => ?_
  have hsorted := (ho.range node hm).sorted
  rcases hs.made_cases h hm hi' with hold | rfl | ⟨-, rfl⟩
  · by_cases hin : i = node
    · rw [hin, hs.left]
      exact fun j k hjk hk => hsorted j k hjk (lt_of_lt_of_le hk (Nat.div_le_self ..))
    · have hip : i ≠ p := by
        rintro rfl
        rw [(hs.receiver_sized h hm hN).1] at hl
        cases hl
      rw [hs.old_eq hold hin hip]
      exact (ho.range i hold).sorted
  · rw [hs.right]
    exact fun j k hjk hk => Node.rightHalf_keys hsorted hjk hk
  · rw [(hs.receiver_sized h hm hN).1] at hl
    cases hl

end
end Split
end Nkvdb.BTree
