import Nkvdb.BTree.Find
import Nkvdb.Lib.KeyLevels

/-! The levels of keys in a tree.

A tree stores levels of keys: a node holds those of its level that lie in its interval and
were not raised out of it. A store adds to the lowest level, and a split raises its middle
key by one. -/
namespace Nkvdb.BTree
variable {K V : Type} {N : Nat} [LinearOrder K]

namespace Node

def keys (n : Node K V) : List K := n.live.map Prod.fst

omit [LinearOrder K] in
theorem keys_eq (n : Node K V) : n.keys = (List.range n.valsSize).map n.key := by
  unfold keys live Slots.live
  rw [List.map_map]
  rfl

omit [LinearOrder K] in
@[simp] theorem length_keys (n : Node K V) : n.keys.length = n.valsSize := by
  rw [keys_eq, List.length_map, List.length_range]

omit [LinearOrder K] in
theorem mem_keys {n : Node K V} {x : K} : x ∈ n.keys ↔ ∃ j, j < n.valsSize ∧ n.key j = x := by
  rw [keys_eq]
  simp only [List.mem_map, List.mem_range]

theorem Sorted.keys {n : Node K V} (h : n.Sorted) : n.keys.Pairwise (· < ·) := by
  rw [keys_eq, List.pairwise_map, List.pairwise_iff_getElem]
  intro i j hi hj hij
  rw [List.length_range] at hj
  rw [List.getElem_range, List.getElem_range]
  exact h i j hij hj

theorem mem_leftHalf {n : Node K V} (h : n.Sorted) (hv : n.valsSize / 2 < n.valsSize) {c p : Nat} {x : K} :
    x ∈ (n.leftHalf c p).keys ↔ x ∈ n.keys ∧ x < n.midle.1 := by
  rw [mem_keys, mem_keys]
  constructor
  · rintro ⟨j, hj, rfl⟩
    have hj : j < n.valsSize / 2 := hj
    exact ⟨⟨j, by omega, rfl⟩, h j _ hj hv⟩
  · rintro ⟨⟨j, hj, rfl⟩, hlt⟩
    refine ⟨j, ?_, rfl⟩
    show j < n.valsSize / 2
    by_contra hge
    exact absurd hlt (not_lt.mpr (h.le (not_lt.mp hge) hj))

theorem mem_rightHalf [Inhabited K] [Inhabited V] {n : Node K V} (h : n.Sorted) (hv : n.valsSize / 2 < n.valsSize)
    {c p : Nat} {x : K} : x ∈ (n.rightHalf c p).keys ↔
      x ∈ n.keys ∧ n.midle.1 ≤ x ∧ (n.isLeaf = false → x ≠ n.midle.1) := by
  have hmid : n.midle.1 = n.key (n.valsSize / 2) := rfl
  have hkey : ∀ j, j < n.valsSize - n.valsBegin → (n.rightHalf c p).key j = n.key (n.valsBegin + j) :=
    fun j hj => rightHalf_key hj
  have hbegin : n.valsBegin = if n.isLeaf then n.valsSize / 2 else n.valsSize / 2 + 1 := rfl
  rw [mem_keys, mem_keys]
  constructor
  · rintro ⟨j, hj, rfl⟩
    have hj : j < n.valsSize - n.valsBegin := hj
    have hge : n.valsSize / 2 ≤ n.valsBegin := by
      rw [hbegin]
      split <;> omega
    rw [hkey j hj, hmid]
    refine ⟨⟨_, by omega, rfl⟩, h.le (by omega) (by omega), fun hl => ?_⟩
    rw [hbegin, hl, if_neg Bool.false_ne_true] at hj ⊢
    exact (h _ _ (by omega) (by omega)).ne'
  · rintro ⟨⟨j, hj, rfl⟩, hle, hne⟩
    rw [hmid] at hle hne
    have hge : n.valsSize / 2 ≤ j := by
      by_contra hlt
      exact absurd hle (not_le.mpr (h j _ (not_le.mp hlt) hv))
    have hfrom : n.valsBegin ≤ j := by
      rw [hbegin]
      split
      · exact hge
      next hl =>
        by_contra hlt
        obtain rfl : j = n.valsSize / 2 := by omega
        exact hne (by simpa using hl) rfl
    refine ⟨j - n.valsBegin, ?_, ?_⟩
    · show j - n.valsBegin < n.valsSize - n.valsBegin
      omega
    · rw [hkey _ (by omega), Nat.add_sub_cancel' hfrom]

end Node

/-- The tree stores the levels. -/
structure Refines (ht : Nat → Nat) (lo : Nat → WithBot K) (hi : Nat → WithTop K) (level : Nat → List K)
    (t : BTree K V N) : Prop where
  sorted : ∀ h, (level h).Pairwise (· < ·)
  top : ∀ h, ht t.root < h → level h = []
  keys : ∀ i, t.Made i → ∀ x, x ∈ (t.cache i).keys ↔
    x ∈ level (ht i) ∧ Answers lo hi x i ∧ ((t.cache i).isLeaf = false → x ∉ level (ht i + 1))
  /-- No cut lies inside an interval. -/
  cut : ∀ i, t.Made i → ∀ c, c ∈ level (ht i + 1) → (c : WithBot K) ≤ lo i ∨ hi i ≤ (c : WithTop K)
  begins : ∀ i, t.Made i → lo i = ⊥ ∨ ∃ c, c ∈ level (ht i + 1) ∧ lo i = c
  ends : ∀ i, t.Made i → hi i = ⊤ ∨ ∃ c, c ∈ level (ht i + 1) ∧ hi i = c

/-- The levels after `m` is raised to level `h`. -/
def raisedAt (level : Nat → List K) (h : Nat) (m : K) : Nat → List K :=
  Function.update level h ((level h).orderedInsert (· ≤ ·) m)

theorem mem_raisedAt {level : Nat → List K} {h g : Nat} {m x : K} :
    x ∈ raisedAt level h m g ↔ x ∈ level g ∨ (g = h ∧ x = m) := by
  unfold raisedAt
  by_cases hg : g = h
  · subst hg
    rw [Function.update_self, List.mem_orderedInsert]
    simp only [true_and]
    exact or_comm
  · rw [Function.update_of_ne hg]
    simp only [hg, false_and, or_false]

section
variable [Inhabited K] [Inhabited V] {ht : Nat → Nat} {lo : Nat → WithBot K} {hi : Nat → WithTop K}
  {level : Nat → List K} {t t' : BTree K V N} {node p : Nat}

omit [Inhabited K] [Inhabited V] in
/-- The node that answers for a key is the cell of the key. -/
theorem Refines.cell (hr : Refines ht lo hi level t) (ho : Ordered lo hi t) {i : Nat} (hi' : t.Made i) {k : K}
    (hk : Answers lo hi k i) :
    KeyLevels.cell (!(t.cache i).isLeaf) (level (ht i + 1)) (level (ht i)) k = (t.cache i).keys := by
  have hbeside : ∀ x, KeyLevels.Beside (level (ht i + 1)) k x ↔ Answers lo hi x i := by
    intro x
    constructor
    · intro hb
      constructor
      · rcases hr.begins i hi' with hbot | ⟨c, hc, he⟩
        · rw [hbot]
          exact bot_le
        · rw [he]
          exact WithBot.coe_le_coe.mpr ((hb c hc).mpr (WithBot.coe_le_coe.mp (he ▸ hk.1)))
      · rcases hr.ends i hi' with htop | ⟨c, hc, he⟩
        · rw [htop]
          exact WithTop.coe_lt_top x
        · rw [he]
          have hkc : k < c := WithTop.coe_lt_coe.mp (he ▸ hk.2)
          exact WithTop.coe_lt_coe.mpr (not_le.mp fun hcx => absurd ((hb c hc).mp hcx) (not_le.mpr hkc))
    · intro hx c hc
      rcases hr.cut i hi' c hc with hle | hle
      · exact ⟨fun _ => WithBot.coe_le_coe.mp (hle.trans hk.1), fun _ => WithBot.coe_le_coe.mp (hle.trans hx.1)⟩
      · have hxc : x < c := WithTop.coe_lt_coe.mp (lt_of_lt_of_le hx.2 hle)
        have hkc : k < c := WithTop.coe_lt_coe.mp (lt_of_lt_of_le hk.2 hle)
        exact ⟨fun h => absurd h (not_le.mpr hxc), fun h => absurd h (not_le.mpr hkc)⟩
  have hcell : (KeyLevels.cell (!(t.cache i).isLeaf) (level (ht i + 1)) (level (ht i)) k).Pairwise (· < ·) :=
    (hr.sorted _).filter _
  refine hcell.eq_of_mem_iff (ho.range i hi').sorted.keys fun x => ?_
  rw [KeyLevels.mem_cell, hbeside, hr.keys i hi' x, Bool.not_eq_true']

end

/-! ### A split -/

namespace Node
variable {n : Node K V} {key x : K} {val : V}

theorem mem_keys_withValue : x ∈ (n.withValue key val).keys ↔ x = key ∨ x ∈ n.keys := by
  unfold keys
  rw [List.mem_map, List.mem_map]
  constructor
  · rintro ⟨kv, hkv, rfl⟩
    exact (mem_withValue.mp hkv).imp (congrArg Prod.fst) fun hmem => ⟨kv, hmem, rfl⟩
  · rintro (rfl | ⟨kv, hkv, rfl⟩)
    · exact ⟨_, mem_withValue.mpr (.inl rfl), rfl⟩
    · exact ⟨kv, mem_withValue.mpr (.inr hkv), rfl⟩

end Node

section
variable [Inhabited K] [Inhabited V] {ht : Nat → Nat} {lo : Nat → WithBot K} {hi : Nat → WithTop K}
  {level : Nat → List K} {t t' : BTree K V N} {node p : Nat}

variable (ht lo hi) in
omit [LinearOrder K] [Inhabited K] [Inhabited V] in
/-- An old node other than the split one keeps its height and its bounds. -/
theorem splitBounds_old (m : K) {i : Nat} (hi' : t.Made i) (hne : i ≠ node) :
    splitHt ht t.cachePos node i = ht i ∧ splitLo lo t.cachePos m i = lo i ∧
      splitHi hi t.cachePos node m i = hi i :=
  ⟨splitHt_old ht hi'.2, splitLo_old lo m hi'.2, splitHi_old hi m hi'.2 hne⟩

namespace Split
variable (hs : Split t t' node p) (h : Shape ht node t) (hm : t.Made node)
include hs h hm

theorem receiver_height : splitHt ht t.cachePos node p = ht node + 1 := by
  rcases hs.receiver h hm with ⟨-, hpm, -, hph, -⟩ | ⟨-, hp, -⟩
  · rw [splitHt_old ht hpm.2, hph]
  · rw [hp, splitHt_root]

theorem receiver_keys {x : K} : x ∈ (t'.cache p).keys ↔
    x = (t.cache node).midle.1 ∨ (t.Made p ∧ x ∈ (t.cache p).keys) := by
  rcases hs.receiver h hm with ⟨hne, hpm, -⟩ | ⟨hroot, hp, -⟩
  · have hvals : (t'.cache p).keys = ((t.cache p).withValue (t.cache node).midle.1 (t.cache node).midle.2).keys := by
      rw [hs.receiver_eq hne]
      rfl
    rw [hvals, Node.mem_keys_withValue]
    exact or_congr Iff.rfl (and_iff_right hpm).symm
  · have hnot : ¬ t.Made p := fun hpm => by
      have := hpm.2
      omega
    rw [hs.receiver_root hroot, Node.mem_keys]
    constructor
    · rintro ⟨j, hj, rfl⟩
      obtain rfl : j = 0 := Nat.lt_one_iff.mp hj
      exact .inl rfl
    · rintro (rfl | ⟨hpm, -⟩)
      · exact ⟨0, Nat.one_pos, rfl⟩
      · exact absurd hpm hnot

/-- The nodes after a split. -/
theorem kinds {i : Nat} (hi' : t'.Made i) : i = node ∨ i = t.cachePos ∨ i = p ∨ (t.Made i ∧ i ≠ node ∧ i ≠ p) := by
  by_cases hip : i = p
  · exact .inr (.inr (.inl hip))
  · rcases hs.made_cases h hm hi' with him | rfl | ⟨-, he⟩
    · by_cases hin : i = node
      · exact .inl hin
      · exact .inr (.inr (.inr ⟨him, hin, hip⟩))
    · exact .inr (.inl rfl)
    · exact absurd he hip

variable (hN : 2 ≤ N) (ho : Ordered lo hi t)
include hN ho

/-- The receiver answers for the key it received. -/
theorem receiver_answers : splitLo lo t.cachePos (t.cache node).midle.1 p < ((t.cache node).midle.1 : WithBot K) ∧
    ((t.cache node).midle.1 : WithTop K) < splitHi hi t.cachePos node (t.cache node).midle.1 p := by
  have hpm := hs.made_receiver h hm
  have hrange := (hs.ordered h hm hN ho).range p hpm
  obtain ⟨j, hj, hkey⟩ := Node.mem_keys.mp ((hs.receiver_keys h hm).mpr (.inl rfl))
  rw [← hkey] at hrange ⊢
  exact ⟨hrange.aboveInner (hs.receiver_sized h hm hN).1 j hj, hrange.below j hj⟩

omit hs in
/-- Of the nodes at its height, only the split one answered for its middle key. -/
theorem mid_outside {i : Nat} (hi' : t.Made i) (hh : ht i = ht node) (hne : i ≠ node) :
    ¬ Answers lo hi (t.cache node).midle.1 i := by
  obtain ⟨hlo, hhi⟩ := mid_range h hm hN ho.arranged (cutsApart h hm hN ho)
  exact fun hans => hne (ho.arranged.height_unique h hi' hm hh hans ⟨hlo.le, hhi⟩)

/-- No other node at the height of the receiver answers for the middle key. -/
theorem mid_received {i : Nat} (hi' : t.Made i) (hh : ht i = ht node + 1) (hne : i ≠ p) :
    ¬ Answers lo hi (t.cache node).midle.1 i := by
  intro hans
  rcases hs.receiver h hm with ⟨-, hpm, -, hph, -⟩ | ⟨hroot, -⟩
  · obtain ⟨hlo, hhi⟩ := hs.receiver_answers h hm hN ho
    obtain ⟨-, hplo, hphi⟩ := splitBounds_old ht lo hi (t.cache node).midle.1 hpm
      (hs.node_ne_receiver h hm).symm
    rw [hplo] at hlo
    rw [hphi] at hhi
    exact hne (ho.arranged.height_unique h hi' hpm (hh.trans hph.symm) hans ⟨hlo.le, hhi⟩)
  · rcases eq_or_ne i t.root with rfl | hir
    · rw [hroot] at hh
      omega
    · have := h.below i hi' hir
      rw [← hroot] at this
      omega

end Split

namespace Refines
variable (hr : Refines ht lo hi level t) (hs : Split t t' node p) (h : Shape ht node t)
  (hm : t.Made node) (hN : 2 ≤ N) (ho : Ordered lo hi t)
include hr h hm hN ho

/-- The middle key was not raised before. -/
theorem mid_fresh : (t.cache node).midle.1 ∉ level (ht node + 1) := by
  obtain ⟨hlo, hhi⟩ := Split.mid_range h hm hN ho.arranged (Split.cutsApart h hm hN ho)
  exact fun hmem => (hr.cut node hm _ hmem).elim hlo.not_ge hhi.not_ge

include hs

omit hN ho in
theorem split_top (g : Nat) (hg : splitHt ht t.cachePos node t'.root < g) :
    raisedAt level (ht node + 1) (t.cache node).midle.1 g = [] := by
  unfold raisedAt
  rcases hs.receiver h hm with ⟨hne, -, -, -, -, hroot, -⟩ | ⟨hroot, hp, hroot', -⟩
  · rw [hroot, splitHt_old ht h.root.2] at hg
    have := h.below node hm hne
    rw [Function.update_of_ne (by omega)]
    exact hr.top g hg
  · rw [hroot', hp, splitHt_root] at hg
    rw [Function.update_of_ne (by omega)]
    exact hr.top g (by rw [← hroot]; omega)

/-- What the receiver holds. -/
theorem split_receiver (x : K) : x ∈ (t'.cache p).keys ↔
    x ∈ raisedAt level (ht node + 1) (t.cache node).midle.1 (ht node + 1) ∧
      Answers (splitLo lo t.cachePos (t.cache node).midle.1) (splitHi hi t.cachePos node (t.cache node).midle.1) x p ∧
      x ∉ raisedAt level (ht node + 1) (t.cache node).midle.1 (ht node + 1 + 1) := by
  obtain ⟨hlo, hhi⟩ := hs.receiver_answers h hm hN ho
  rw [hs.receiver_keys h hm, mem_raisedAt, mem_raisedAt]
  rcases hs.receiver h hm with ⟨-, hpm, -, hph, hpl, -⟩ | ⟨hroot, hp, -⟩
  · obtain ⟨-, hplo, hphi⟩ := splitBounds_old ht lo hi (t.cache node).midle.1 hpm
      (hs.node_ne_receiver h hm).symm
    have hkeys := hr.keys p hpm x
    rw [hph, hpl] at hkeys
    unfold Answers at hkeys ⊢
    rw [hplo] at hlo
    rw [hphi] at hhi
    rw [hplo, hphi, and_iff_right hpm, hkeys]
    have hraised : (t.cache node).midle.1 ∉ level (ht node + 1 + 1) := fun hmem =>
      (hr.cut p hpm _ (hph ▸ hmem)).elim hlo.not_ge hhi.not_ge
    constructor
    · rintro (rfl | ⟨h1, h2, h3⟩)
      · exact ⟨.inr ⟨rfl, rfl⟩, ⟨hlo.le, hhi⟩, fun hor => hor.elim hraised fun he => by omega⟩
      · exact ⟨.inl h1, h2, fun hor => hor.elim (h3 rfl) fun he => by omega⟩
    · rintro ⟨h1 | ⟨-, rfl⟩, h2, h3⟩
      · exact .inr ⟨h1, h2, fun _ hmem => h3 (.inl hmem)⟩
      · exact .inl rfl
  -- nothing was stored above the root
  · have hnot : ¬ t.Made p := fun hpm => by
      have := hpm.2
      omega
    have hempty : level (ht node + 1) = [] := hr.top _ (by rw [hroot]; exact Nat.lt_succ_self _)
    have hempty' : level (ht node + 1 + 1) = [] := hr.top _ (by rw [hroot]; omega)
    rw [hempty, hempty']
    constructor
    · rintro (rfl | ⟨hpm, -⟩)
      · exact ⟨.inr ⟨rfl, rfl⟩, ⟨hlo.le, hhi⟩, fun hor =>
          hor.elim (fun hmem => List.not_mem_nil hmem) fun he => by omega⟩
      · exact absurd hpm hnot
    · rintro ⟨h1, -⟩
      exact .inl (h1.resolve_left List.not_mem_nil).2

theorem split_keys {i : Nat} (hi' : t'.Made i) (x : K) : x ∈ (t'.cache i).keys ↔
    x ∈ raisedAt level (ht node + 1) (t.cache node).midle.1 (splitHt ht t.cachePos node i) ∧
      Answers (splitLo lo t.cachePos (t.cache node).midle.1) (splitHi hi t.cachePos node (t.cache node).midle.1) x i ∧
      ((t'.cache i).isLeaf = false →
        x ∉ raisedAt level (ht node + 1) (t.cache node).midle.1 (splitHt ht t.cachePos node i + 1)) := by
  obtain ⟨-, hv, -⟩ := Split.over_middle h hm hN
  obtain ⟨hmlo, hmhi⟩ := Split.mid_range h hm hN ho.arranged (Split.cutsApart h hm hN ho)
  have hsorted := (ho.range node hm).sorted
  rcases hs.kinds h hm hi' with rfl | rfl | rfl | ⟨him, hin, hip⟩
  · have hl : (t'.cache i).isLeaf = (t.cache i).isLeaf := by rw [hs.left]; rfl
    rw [hl, hs.left, Node.mem_leftHalf hsorted hv, hr.keys i hm x, splitHt_old ht hm.2, mem_raisedAt, mem_raisedAt]
    unfold Answers
    rw [splitLo_old _ _ hm.2, splitHi_node, WithTop.coe_lt_coe]
    constructor
    · rintro ⟨⟨h1, h2, h3⟩, h4⟩
      exact ⟨.inl h1, ⟨h2.1, h4⟩, fun hf hor => hor.elim (h3 hf) fun he => h4.ne he.2⟩
    · rintro ⟨h1, ⟨h2, h3⟩, h4⟩
      exact ⟨⟨h1.resolve_right fun he => by omega, ⟨h2, (WithTop.coe_lt_coe.mpr h3).trans hmhi⟩,
        fun hf hmem => h4 hf (.inl hmem)⟩, h3⟩
  · have hl : (t'.cache t.cachePos).isLeaf = (t.cache node).isLeaf := by rw [hs.right]; rfl
    rw [hl, hs.right, Node.mem_rightHalf hsorted hv, hr.keys node hm x, splitHt_made, mem_raisedAt, mem_raisedAt]
    unfold Answers
    rw [splitLo_made, splitHi_made _ _ hm.2, WithBot.coe_le_coe]
    constructor
    · rintro ⟨⟨h1, h2, h3⟩, h4, h5⟩
      exact ⟨.inl h1, ⟨h4, h2.2⟩, fun hf hor => hor.elim (h3 hf) fun he => h5 hf he.2⟩
    · rintro ⟨h1, ⟨h2, h3⟩, h4⟩
      exact ⟨⟨h1.resolve_right fun he => by omega, ⟨hmlo.le.trans (WithBot.coe_le_coe.mpr h2), h3⟩,
        fun hf hmem => h4 hf (.inl hmem)⟩, h2, fun hf he => h4 hf (.inr ⟨rfl, he⟩)⟩
  · rw [hr.split_receiver hs h hm hN ho x, hs.receiver_height h hm, (hs.receiver_sized h hm hN).1]
    exact and_congr_right fun _ => and_congr_right fun _ => ⟨fun hnot _ => hnot, fun hnot => hnot rfl⟩
  · obtain ⟨hh, hlo, hhi⟩ := splitBounds_old ht lo hi (t.cache node).midle.1 him hin
    have hkept : (t'.cache i).keys = (t.cache i).keys ∧ (t'.cache i).isLeaf = (t.cache i).isLeaf := by
      rw [hs.old_eq him hin hip]
      exact ⟨rfl, rfl⟩
    have hans : Answers (splitLo lo t.cachePos (t.cache node).midle.1)
        (splitHi hi t.cachePos node (t.cache node).midle.1) x i ↔ Answers lo hi x i := by
      unfold Answers
      rw [hlo, hhi]
    rw [hkept.1, hkept.2, hr.keys i him x, hh, mem_raisedAt, mem_raisedAt, hans]
    constructor
    · rintro ⟨h1, h2, h3⟩
      refine ⟨.inl h1, h2, fun hf hor => hor.elim (h3 hf) ?_⟩
      rintro ⟨he, rfl⟩
      exact Split.mid_outside h hm hN ho him (by omega) hin h2
    · rintro ⟨h1, h2, h3⟩
      refine ⟨h1.resolve_right ?_, h2, fun hf hmem => h3 hf (.inl hmem)⟩
      rintro ⟨he, rfl⟩
      exact hs.mid_received h hm hN ho him he hip h2

theorem split_cut {i : Nat} (hi' : t'.Made i) (c : K)
    (hc : c ∈ raisedAt level (ht node + 1) (t.cache node).midle.1 (splitHt ht t.cachePos node i + 1)) :
    (c : WithBot K) ≤ splitLo lo t.cachePos (t.cache node).midle.1 i ∨
      splitHi hi t.cachePos node (t.cache node).midle.1 i ≤ (c : WithTop K) := by
  obtain ⟨hmlo, hmhi⟩ := Split.mid_range h hm hN ho.arranged (Split.cutsApart h hm hN ho)
  rw [mem_raisedAt] at hc
  have hold : t.Made i → i ≠ node → ht i ≠ ht node → (c : WithBot K) ≤ lo i ∨ hi i ≤ (c : WithTop K) := by
    intro him hin hne
    rw [splitHt_old ht him.2] at hc
    exact hr.cut i him c (hc.resolve_right fun he => by omega)
  rcases hs.kinds h hm hi' with rfl | rfl | rfl | ⟨him, hin, hip⟩
  · rw [splitHt_old ht hm.2] at hc
    rw [splitLo_old _ _ hm.2, splitHi_node]
    rcases hc with hc | ⟨-, rfl⟩
    · exact (hr.cut i hm c hc).imp id hmhi.le.trans
    · exact .inr le_rfl
  · rw [splitHt_made] at hc
    rw [splitLo_made, splitHi_made _ _ hm.2]
    rcases hc with hc | ⟨-, rfl⟩
    · exact (hr.cut node hm c hc).imp (fun hle => hle.trans hmlo.le) id
    · exact .inl le_rfl
  · rcases hs.receiver h hm with ⟨-, hpm, -, hph, -⟩ | ⟨hroot, hp, -⟩
    · have hne := (hs.node_ne_receiver h hm).symm
      rw [splitLo_old _ _ hpm.2, splitHi_old _ _ hpm.2 hne]
      exact hold hpm hne (by omega)
    · rw [hs.receiver_height h hm, hr.top _ (by rw [hroot]; omega)] at hc
      rcases hc with hc | ⟨he, -⟩
      · exact absurd hc List.not_mem_nil
      · omega
  · rw [splitLo_old _ _ him.2, splitHi_old _ _ him.2 hin]
    by_cases hh : ht i = ht node
    · rw [splitHt_old ht him.2] at hc
      rcases hc with hc | ⟨-, rfl⟩
      · exact hr.cut i him c hc
      · have hout := Split.mid_outside h hm hN ho him hh hin
        rcases lt_or_ge ((t.cache node).midle.1 : WithBot K) (lo i) with hlt | hge
        · exact .inl hlt.le
        · exact .inr (not_lt.mp fun hlt => hout ⟨hge, hlt⟩)
    · exact hold him hin hh

omit hN ho in
theorem split_bounds {i : Nat} (hi' : t'.Made i) :
    (splitLo lo t.cachePos (t.cache node).midle.1 i = ⊥ ∨
      ∃ c, c ∈ raisedAt level (ht node + 1) (t.cache node).midle.1 (splitHt ht t.cachePos node i + 1) ∧
        splitLo lo t.cachePos (t.cache node).midle.1 i = c) ∧
    (splitHi hi t.cachePos node (t.cache node).midle.1 i = ⊤ ∨
      ∃ c, c ∈ raisedAt level (ht node + 1) (t.cache node).midle.1 (splitHt ht t.cachePos node i + 1) ∧
        splitHi hi t.cachePos node (t.cache node).midle.1 i = c) := by
  have hmid : (t.cache node).midle.1 ∈ raisedAt level (ht node + 1) (t.cache node).midle.1 (ht node + 1) :=
    mem_raisedAt.mpr (.inr ⟨rfl, rfl⟩)
  -- a bound that stays is a cut that stays
  have hlo : ∀ {j}, t.Made j → lo j = ⊥ ∨
      ∃ c, c ∈ raisedAt level (ht node + 1) (t.cache node).midle.1 (ht j + 1) ∧ lo j = c := fun {j} hj =>
    (hr.begins j hj).imp id fun ⟨c, hc, he⟩ => ⟨c, mem_raisedAt.mpr (.inl hc), he⟩
  have hhi : ∀ {j}, t.Made j → hi j = ⊤ ∨
      ∃ c, c ∈ raisedAt level (ht node + 1) (t.cache node).midle.1 (ht j + 1) ∧ hi j = c := fun {j} hj =>
    (hr.ends j hj).imp id fun ⟨c, hc, he⟩ => ⟨c, mem_raisedAt.mpr (.inl hc), he⟩
  rcases hs.kinds h hm hi' with rfl | rfl | rfl | ⟨him, hin, hip⟩
  · rw [splitHt_old ht hm.2, splitLo_old _ _ hm.2, splitHi_node]
    exact ⟨hlo hm, .inr ⟨_, hmid, rfl⟩⟩
  · rw [splitHt_made, splitLo_made, splitHi_made _ _ hm.2]
    exact ⟨.inr ⟨_, hmid, rfl⟩, hhi hm⟩
  · rcases hs.receiver h hm with ⟨-, hpm, -⟩ | ⟨-, hp, -⟩
    · rw [splitHt_old ht hpm.2, splitLo_old _ _ hpm.2, splitHi_old _ _ hpm.2 (hs.node_ne_receiver h hm).symm]
      exact ⟨hlo hpm, hhi hpm⟩
    · rw [hp, splitLo_root, splitHi_root _ _ hm.2]
      exact ⟨.inl rfl, .inl rfl⟩
  · rw [splitHt_old ht him.2, splitLo_old _ _ him.2, splitHi_old _ _ him.2 hin]
    exact ⟨hlo him, hhi him⟩

/-- A split raises the middle key. -/
theorem split : Refines (splitHt ht t.cachePos node) (splitLo lo t.cachePos (t.cache node).midle.1)
    (splitHi hi t.cachePos node (t.cache node).midle.1) (raisedAt level (ht node + 1) (t.cache node).midle.1) t' where
  sorted g := by
    unfold raisedAt
    by_cases hg : g = ht node + 1
    · subst hg
      rw [Function.update_self]
      exact KeyLevels.pairwise_orderedInsert (hr.sorted _) (hr.mid_fresh h hm hN ho)
    · rw [Function.update_of_ne hg]
      exact hr.sorted g
  top := hr.split_top hs h hm
  keys _ hi' := hr.split_keys hs h hm hN ho hi'
  cut _ hi' := hr.split_cut hs h hm hN ho hi'
  begins _ hi' := (hr.split_bounds hs h hm hi').1
  ends _ hi' := (hr.split_bounds hs h hm hi').2

end Refines

/-- A new key stored in the leaf that answers for it. -/
theorem Refines.put (hr : Refines ht lo hi level t) {full : Nat} (h : Shape ht full t)
    (ho : Ordered lo hi t) (hm : t.Made node) (hl : (t.cache node).isLeaf = true) {key : K} (val : V)
    (hnew : key ∉ level 0) (hk : Answers lo hi key node) :
    Refines ht lo hi (raisedAt level 0 key) (t.setNode node ((t.cache node).withValue key val)) := by
  have h0 : ht node = 0 := (h.leaf node hm).mp hl
  have hup : ∀ g, raisedAt level 0 key (g + 1) = level (g + 1) := fun g =>
    Function.update_of_ne (Nat.succ_ne_zero g) _ _
  constructor
  case sorted =>
    intro g
    cases g with
    | zero =>
      rw [raisedAt, Function.update_self]
      exact KeyLevels.pairwise_orderedInsert (hr.sorted 0) hnew
    | succ g =>
      rw [hup]
      exact hr.sorted _
  case top =>
    intro g hg
    have hg : ht t.root < g := hg
    rw [raisedAt, Function.update_of_ne (by omega)]
    exact hr.top g hg
  case keys =>
    intro i hi' x
    rw [hup, mem_raisedAt]
    by_cases hin : i = node
    · subst hin
      have hleaf : ((t.cache i).withValue key val).isLeaf = true := hl
      rw [setNode_self, Node.mem_keys_withValue, hr.keys i hm x, hleaf, hl]
      constructor
      · rintro (rfl | ⟨h1, h2, -⟩)
        · exact ⟨.inr ⟨h0, rfl⟩, hk, nofun⟩
        · exact ⟨.inl h1, h2, nofun⟩
      · rintro ⟨h1 | ⟨-, rfl⟩, h2, -⟩
        · exact .inr ⟨h1, h2, nofun⟩
        · exact .inl rfl
    · have hi' : t.Made i := hi'
      rw [setNode_ne _ _ _ hin, hr.keys i hi' x]
      constructor
      · rintro ⟨h1, h2, h3⟩
        exact ⟨.inl h1, h2, h3⟩
      · rintro ⟨h1, h2, h3⟩
        refine ⟨h1.resolve_right ?_, h2, h3⟩
        rintro ⟨hh, rfl⟩
        exact hin (ho.arranged.height_unique h hi' hm (hh.trans h0.symm) h2 hk)
  case cut =>
    intro i hi' c hc
    rw [hup] at hc
    exact hr.cut i hi' c hc
  case begins =>
    intro i hi'
    rw [hup]
    exact hr.begins i hi'
  case ends =>
    intro i hi'
    rw [hup]
    exact hr.ends i hi'

end
end Nkvdb.BTree
