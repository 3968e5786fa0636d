import Nkvdb.BTree.Split

/-! A split keeps the linkage.

The node that received the middle value may be overfull afterwards; it is the next
one to be split. -/
namespace Nkvdb.BTree
variable {K V : Type} {N : Nat} [Inhabited K] [Inhabited V] [LinearOrder K]

/-- The heights after a split of `node`: the half made has its height, a new root one more. -/
def splitHt (ht : Nat → Nat) (c node : Nat) : Nat → Nat :=
  fun i => if i = c then ht node else if i = c + 1 then ht node + 1 else ht i

theorem splitHt_old (ht : Nat → Nat) {c node i : Nat} (h : i < c) : splitHt ht c node i = ht i := by
  have h1 : i ≠ c := by omega
  have h2 : i ≠ c + 1 := by omega
  simp [splitHt, h1, h2]

@[simp] theorem splitHt_made (ht : Nat → Nat) (c node : Nat) : splitHt ht c node c = ht node := by
  simp [splitHt]

@[simp] theorem splitHt_root (ht : Nat → Nat) (c node : Nat) :
    splitHt ht c node (c + 1) = ht node + 1 := by
  simp [splitHt]

open Classical in
/-- The parent of an old node after a split. -/
noncomputable def splitParent (t : BTree K V N) (node p i : Nat) : Nat :=
  if (t.cache node).Moves i then t.cachePos else if i = node then p else (t.cache i).parent

namespace Split
variable {ht : Nat → Nat} {t t' : BTree K V N} {node p : Nat}

omit [LinearOrder K] in
theorem moves_spec (h : Shape ht node t) (hm : t.Made node) {i : Nat} (hi : (t.cache node).Moves i) :
    t.Made i ∧ (t.cache i).parent = node ∧ ht i + 1 = ht node := by
  obtain ⟨j, _, hj, rfl⟩ := hi
  exact h.child node j hm hj

omit [LinearOrder K] in
theorem node_not_moves (h : Shape ht node t) (hm : t.Made node) : ¬ (t.cache node).Moves node := by
  intro hi
  have := (moves_spec h hm hi).2.2
  omega

section
variable (hs : Split t t' node p) (h : Shape ht node t) (hm : t.Made node)
include hs h hm

/-- The receiver is the old parent, one level up, or a new root. -/
theorem receiver : (node ≠ t.root ∧ t.Made p ∧ p = (t.cache node).parent ∧ ht p = ht node + 1 ∧
    (t.cache p).isLeaf = false ∧ t'.root = t.root ∧ t'.cachePos = t.cachePos + 1) ∨
    (node = t.root ∧ p = t.cachePos + 1 ∧ t'.root = p ∧ t'.cachePos = t.cachePos + 2) := by
  rcases hs.target with ⟨hne, rfl, hr, hc, -⟩ | ⟨he, rfl, hr, hc, -⟩
  · exact .inl ⟨hne, (h.parent node hm hne).1, rfl, h.parent_height hm hne, h.parent_inner hm hne, hr, hc⟩
  · exact .inr ⟨he, rfl, hr, hc⟩

theorem made_cases {i : Nat} (hi : t'.Made i) : t.Made i ∨ i = t.cachePos ∨ (node = t.root ∧ i = p) := by
  obtain ⟨h0, hlt⟩ := hi
  rcases hs.receiver h hm with ⟨-, -, -, -, -, -, hc⟩ | ⟨he, hp, -, hc⟩
  · by_cases hic : i = t.cachePos
    · exact .inr (.inl hic)
    · exact .inl ⟨h0, by omega⟩
  · by_cases hic : i = t.cachePos
    · exact .inr (.inl hic)
    · by_cases hip : i = p
      · exact .inr (.inr ⟨he, hip⟩)
      · exact .inl ⟨h0, by omega⟩

theorem made_old {i : Nat} (hi : t.Made i) : t'.Made i := by
  rcases hs.receiver h hm with ⟨-, -, -, -, -, -, hc⟩ | ⟨-, -, -, hc⟩
  all_goals exact ⟨hi.1, by have := hi.2; omega⟩

theorem made_new : t'.Made t.cachePos := by
  have h0 : 0 < t.cachePos := Nat.lt_of_le_of_lt (Nat.zero_le _) hm.2
  rcases hs.receiver h hm with ⟨-, -, -, -, -, -, hc⟩ | ⟨-, -, -, hc⟩
  all_goals exact ⟨h0, by omega⟩

theorem made_receiver : t'.Made p := by
  rcases hs.receiver h hm with ⟨-, hp, -⟩ | ⟨-, rfl, -, hc⟩
  · exact hs.made_old h hm hp
  · exact ⟨Nat.succ_pos _, by omega⟩

theorem node_ne_receiver : node ≠ p := by
  rcases hs.receiver h hm with ⟨-, -, -, hh, -⟩ | ⟨-, hp, -⟩
  · intro he
    rw [← he] at hh
    omega
  · have := hm.2
    omega

theorem receiver_not_moves : ¬ (t.cache node).Moves p := by
  intro hi
  obtain ⟨hpm, -, hh⟩ := moves_spec h hm hi
  rcases hs.receiver h hm with ⟨-, -, -, hh', -⟩ | ⟨-, hp, -⟩
  · omega
  · have := hpm.2
    omega

/-! ### What the old nodes keep -/

omit h hm in
/-- An old node other than the two rewritten ones changes in its parent at most. -/
theorem old_eq {i : Nat} (hi : t.Made i) (hin : i ≠ node) (hip : i ≠ p) :
    t'.cache i = {t.cache i with parent := t.splitParent node p i} := by
  have hic : i ≠ t.cachePos := Nat.ne_of_lt hi.2
  unfold splitParent
  by_cases hmv : (t.cache node).Moves i
  · rw [hs.moved i hmv, if_pos hmv]
  · rw [hs.other i hic hin hip hmv, if_neg hmv, if_neg hin]

/-- What an old node keeps wherever it stands. -/
theorem old_kept {i : Nat} (hi : t.Made i) : (t'.cache i).id = (t.cache i).id ∧
    (t'.cache i).isLeaf = (t.cache i).isLeaf ∧ (t'.cache i).parent = t.splitParent node p i ∧
    (t'.cache i).next = if i = node then t.cachePos else (t.cache i).next := by
  by_cases hin : i = node
  · subst hin
    rw [hs.left]
    simp [Node.leftHalf, splitParent, node_not_moves h hm]
  · by_cases hip : i = p
    · have hmv : ¬ (t.cache node).Moves i := hip ▸ hs.receiver_not_moves h hm
      rcases hs.target with ⟨-, -, -, -, he⟩ | ⟨-, hp, -⟩
      · rw [hip, he]
        simp [Node.withValue, Node.withChild, splitParent, hip ▸ hmv, hip ▸ hin]
      · have := hi.2
        omega
    · rw [hs.old_eq hi hin hip]
      simp [hin]

/-! ### The children -/

/-- A child that stays with its parent keeps its height and its parent. -/
theorem child_stays {i j : Nat} (hi : t.Made i) (hj : j < (t.cache i).childsSize)
    (hmv : ¬ (t.cache node).Moves ((t.cache i).childs j)) (hne : (t.cache i).childs j ≠ node) :
    t'.Made ((t.cache i).childs j) ∧ (t'.cache ((t.cache i).childs j)).parent = i ∧
      splitHt ht t.cachePos node ((t.cache i).childs j) + 1 = ht i := by
  obtain ⟨hk, hkp, hkh⟩ := h.child i j hi hj
  refine ⟨hs.made_old h hm hk, ?_, ?_⟩
  · rw [(hs.old_kept h hm hk).2.2.1, splitParent, if_neg hmv, if_neg hne, hkp]
  · rw [splitHt_old ht hk.2, hkh]

theorem child_left {j : Nat} (hj : j < (t.cache node).childsSize / 2) :
    t'.Made ((t.cache node).childs j) ∧ (t'.cache ((t.cache node).childs j)).parent = node ∧
      splitHt ht t.cachePos node ((t.cache node).childs j) + 1 = ht node := by
  have hlt : j < (t.cache node).childsSize := by omega
  refine hs.child_stays h hm hm hlt ?_ ?_
  · rintro ⟨k, hk, hkl, he⟩
    have := h.childInj node k j hm hkl hlt he
    omega
  · intro he
    have := (h.child node j hm hlt).2.2
    rw [he] at this
    omega

theorem child_right {j : Nat} (hj : (t.cache node).childsSize / 2 + j < (t.cache node).childsSize) :
    t'.Made ((t.cache node).childs ((t.cache node).childsSize / 2 + j)) ∧
      (t'.cache ((t.cache node).childs ((t.cache node).childsSize / 2 + j))).parent = t.cachePos ∧
      splitHt ht t.cachePos node ((t.cache node).childs ((t.cache node).childsSize / 2 + j)) + 1 = ht node := by
  obtain ⟨hk, -, hkh⟩ := h.child node _ hm hj
  have hmv : (t.cache node).Moves ((t.cache node).childs ((t.cache node).childsSize / 2 + j)) :=
    ⟨_, Nat.le_add_right .., hj, rfl⟩
  refine ⟨hs.made_old h hm hk, ?_, ?_⟩
  · rw [(hs.old_kept h hm hk).2.2.1, splitParent, if_pos hmv]
  · rw [splitHt_old ht hk.2, hkh]

theorem child_node : t'.Made node ∧ (t'.cache node).parent = p ∧
    splitHt ht t.cachePos node node + 1 = splitHt ht t.cachePos node p := by
  refine ⟨hs.made_old h hm hm, by rw [hs.left]; rfl, ?_⟩
  rw [splitHt_old ht hm.2]
  rcases hs.receiver h hm with ⟨-, hp, -, hh, -⟩ | ⟨-, hp, -⟩
  · rw [splitHt_old ht hp.2, hh]
  · rw [hp, splitHt_root]

theorem child_new : t'.Made t.cachePos ∧ (t'.cache t.cachePos).parent = p ∧
    splitHt ht t.cachePos node t.cachePos + 1 = splitHt ht t.cachePos node p := by
  refine ⟨hs.made_new h hm, by rw [hs.right]; rfl, ?_⟩
  rw [splitHt_made, ← (hs.child_node h hm).2.2, splitHt_old ht hm.2]

/-- The children of an old receiver all stay its own. -/
theorem child_receiver {j : Nat} (hp : t.Made p) (hj : j < (t.cache p).childsSize) :
    t'.Made ((t.cache p).childs j) ∧ (t'.cache ((t.cache p).childs j)).parent = p ∧
      splitHt ht t.cachePos node ((t.cache p).childs j) + 1 = splitHt ht t.cachePos node p := by
  by_cases he : (t.cache p).childs j = node
  · rw [he]
    exact hs.child_node h hm
  · rw [splitHt_old ht hp.2]
    refine hs.child_stays h hm hp hj ?_ he
    intro hmv
    have hpn := (moves_spec h hm hmv).2.1
    rw [(h.child p j hp hj).2.1] at hpn
    exact hs.node_ne_receiver h hm hpn.symm

/-- The slot the new node takes among the children of an old receiver. -/
def slot (t : BTree K V N) (node p : Nat) : Nat :=
  ((t.cache p).withValue (t.cache node).midle.1 (t.cache node).midle.2).childSlot (t.cache node).midle.1

omit hs hm in
theorem slot_le (hp : t.Made p) (hl : (t.cache p).isLeaf = false) :
    slot t node p ≤ (t.cache p).childsSize :=
  Node.childSlot_le (j := (t.cache p).lowerBound (t.cache node).midle.1)
    (Nat.lt_succ_of_le ((t.cache p).lowerBound_le _)) (withValue_key_lowerBound ..)
    (h.innerChilds p hp hl)

omit h hm in
/-- An old receiver, with the middle value and the new node put in. -/
theorem receiver_eq (hne : node ≠ t.root) : t'.cache p =
    {t.cache p with
      vals := Slots.inserted ((t.cache p).valsSize + 1) ((t.cache p).lowerBound (t.cache node).midle.1)
        (t.cache node).midle (t.cache p).vals
      valsSize := (t.cache p).valsSize + 1
      childs := Slots.inserted ((t.cache p).childsSize + 1) (slot t node p) t.cachePos (t.cache p).childs
      childsSize := (t.cache p).childsSize + 1} := by
  rcases hs.target with ⟨-, -, -, -, he⟩ | ⟨hr, -⟩
  · rw [he]
    rfl
  · exact absurd hr hne

omit h hm in
theorem receiver_root (hr : node = t.root) :
    t'.cache p = Node.newRoot (t.cache node).midle node t.cachePos p := by
  rcases hs.target with ⟨hne, -⟩ | ⟨-, -, -, -, he⟩
  · exact absurd hr hne
  · exact he

theorem child {i j : Nat} (hi : t'.Made i) (hj : j < (t'.cache i).childsSize) :
    t'.Made ((t'.cache i).childs j) ∧ (t'.cache ((t'.cache i).childs j)).parent = i ∧
      splitHt ht t.cachePos node ((t'.cache i).childs j) + 1 = splitHt ht t.cachePos node i := by
  by_cases hip : i = p
  · subst hip
    rcases hs.receiver h hm with ⟨hne, hpm, -, -, hpl, -⟩ | ⟨hr, -⟩
    · have hq := slot_le h hpm hpl
      rw [hs.receiver_eq hne] at hj ⊢
      have hjs : j < (t.cache i).childsSize + 1 := hj
      dsimp only
      rcases Nat.lt_trichotomy j (slot t node i) with hlt | heq | hgt
      · rw [Slots.inserted_below hlt]
        exact hs.child_receiver h hm hpm (by omega)
      · rw [heq, Slots.inserted_self]
        exact hs.child_new h hm
      · rw [Slots.inserted_above hgt hjs]
        exact hs.child_receiver h hm hpm (by omega)
    · rw [hs.receiver_root hr] at hj ⊢
      have h2 : j = 0 ∨ j = 1 := by
        have : j < 2 := hj
        omega
      rcases h2 with rfl | rfl
      · exact hs.child_node h hm
      · exact hs.child_new h hm
  rcases hs.made_cases h hm hi with hold | rfl | ⟨-, he⟩
  · by_cases hin : i = node
    · subst hin
      rw [hs.left] at hj ⊢
      have hjl : j < (t.cache i).childsSize / 2 := hj
      have hn : ¬ ((t.cache i).childsSize / 2 ≤ j ∧
          j < (t.cache i).childsSize / 2 + ((t.cache i).childsSize - (t.cache i).childsSize / 2)) := by
        omega
      simp only [Node.leftHalf, hn, if_false]
      rw [splitHt_old ht hold.2]
      exact hs.child_left h hm hjl
    · rw [hs.old_eq hold hin hip] at hj ⊢
      rw [splitHt_old ht hold.2]
      have hpar := (h.child i j hold hj).2.1
      refine hs.child_stays h hm hold hj ?_ ?_
      · intro hmv
        rw [(moves_spec h hm hmv).2.1] at hpar
        exact hin hpar.symm
      -- the parent of `node` is the receiver
      · intro he
        rw [he] at hpar
        rcases hs.receiver h hm with ⟨-, -, hp, -⟩ | ⟨hr, -⟩
        · exact hip (hpar.symm.trans hp.symm)
        · rw [hr, h.rootParent] at hpar
          exact hold.ne_zero hpar.symm
  · rw [hs.right] at hj ⊢
    have hj' : j < (t.cache node).childsSize / 2 := hj
    have hin : j < (t.cache node).childsSize - (t.cache node).childsSize / 2 := by omega
    simp only [Node.rightHalf, hin, if_true]
    rw [splitHt_made]
    exact hs.child_right h hm (by omega)
  · exact absurd he hip

theorem childInj {i j k : Nat} (hi : t'.Made i) (hj : j < (t'.cache i).childsSize)
    (hk : k < (t'.cache i).childsSize) (he : (t'.cache i).childs j = (t'.cache i).childs k) : j = k := by
  by_cases hip : i = p
  · subst hip
    rcases hs.receiver h hm with ⟨hne, hpm, -, -, hpl, -⟩ | ⟨hr, -⟩
    · rw [hs.receiver_eq hne] at hj hk he
      refine Slots.inserted_inj (slot_le h hpm hpl) hj hk ?_ ?_ he
      · exact fun a b ha hb => h.childInj i a b hpm ha hb
      · exact fun a ha => Nat.ne_of_lt (h.child i a hpm ha).1.2
    · rw [hs.receiver_root hr] at hj hk he
      have hj2 : j < 2 := hj
      have hk2 : k < 2 := hk
      have hnc : node ≠ t.cachePos := Nat.ne_of_lt hm.2
      rcases Nat.le_one_iff_eq_zero_or_eq_one.mp (Nat.le_of_lt_succ hj2) with rfl | rfl <;>
        rcases Nat.le_one_iff_eq_zero_or_eq_one.mp (Nat.le_of_lt_succ hk2) with rfl | rfl
      · rfl
      · exact absurd he hnc
      · exact absurd he.symm hnc
      · rfl
  rcases hs.made_cases h hm hi with hold | rfl | ⟨-, he⟩
  · by_cases hin : i = node
    · subst hin
      rw [hs.left] at hj hk he
      have hjl : j < (t.cache i).childsSize / 2 := hj
      have hkl : k < (t.cache i).childsSize / 2 := hk
      simp only [Node.leftHalf, Nat.not_le.mpr hjl, Nat.not_le.mpr hkl, false_and, if_false] at he
      exact h.childInj i j k hold (by omega) (by omega) he
    · rw [hs.old_eq hold hin hip] at hj hk he
      exact h.childInj i j k hold hj hk he
  · rw [hs.right] at hj hk he
    have hj' : j < (t.cache node).childsSize / 2 := hj
    have hk' : k < (t.cache node).childsSize / 2 := hk
    have hjn : j < (t.cache node).childsSize - (t.cache node).childsSize / 2 := by omega
    have hkn : k < (t.cache node).childsSize - (t.cache node).childsSize / 2 := by omega
    simp only [Node.rightHalf, hjn, hkn, if_true] at he
    have := h.childInj node _ _ hm (by omega) (by omega) he
    omega
  · exact absurd he hip

/-- An old child of an old receiver is found among its children again. -/
theorem receiver_has {j : Nat} (hp : t.Made p) (hj : j < (t.cache p).childsSize) :
    ∃ k, k < (t'.cache p).childsSize ∧ (t'.cache p).childs k = (t.cache p).childs j := by
  rcases hs.receiver h hm with ⟨hne, -⟩ | ⟨-, hpc, -⟩
  · rw [hs.receiver_eq hne]
    refine ⟨if j < slot t node p then j else j + 1, ?_, Slots.inserted_shift hj ..⟩
    dsimp only
    split <;> omega
  · have := hp.2
    omega

theorem receiver_has_node : ∃ k, k < (t'.cache p).childsSize ∧ (t'.cache p).childs k = node := by
  rcases hs.receiver h hm with ⟨hne, hpm, hp, -⟩ | ⟨hr, -⟩
  · obtain ⟨-, j, hj, hc⟩ := h.parent node hm hne
    rw [← hp] at hj hc
    obtain ⟨k, hk, he⟩ := hs.receiver_has h hm hpm hj
    exact ⟨k, hk, he.trans hc⟩
  · rw [hs.receiver_root hr]
    exact ⟨0, Nat.zero_lt_two, rfl⟩

theorem receiver_has_new : ∃ k, k < (t'.cache p).childsSize ∧ (t'.cache p).childs k = t.cachePos := by
  rcases hs.receiver h hm with ⟨hne, hpm, -, -, hpl, -⟩ | ⟨hr, -⟩
  · rw [hs.receiver_eq hne]
    exact ⟨slot t node p, Nat.lt_succ_of_le (slot_le h hpm hpl), Slots.inserted_self ..⟩
  · rw [hs.receiver_root hr]
    exact ⟨1, Nat.one_lt_two, rfl⟩

theorem parent (hfull : (t.cache node).childsSize = 0 ∨ (t.cache node).childsSize = 2 * N)
    {i : Nat} (hi : t'.Made i) (hne : i ≠ t'.root) : t'.Made (t'.cache i).parent ∧
      ∃ j, j < (t'.cache (t'.cache i).parent).childsSize ∧
        (t'.cache (t'.cache i).parent).childs j = i := by
  rcases hs.made_cases h hm hi with hold | rfl | ⟨hr, hip⟩
  · rw [(hs.old_kept h hm hold).2.2.1, splitParent]
    by_cases hmv : (t.cache node).Moves i
    · rw [if_pos hmv]
      refine ⟨hs.made_new h hm, ?_⟩
      obtain ⟨j, hj, hlt, rfl⟩ := hmv
      obtain ⟨k, rfl⟩ := Nat.exists_eq_add_of_le hj
      have hk : k < (t.cache node).childsSize - (t.cache node).childsSize / 2 := by omega
      have hk2 : k < (t.cache node).childsSize / 2 := by omega
      rw [hs.right]
      exact ⟨k, hk2, by simp [Node.rightHalf, hk]⟩
    rw [if_neg hmv]
    by_cases hin : i = node
    · rw [if_pos hin, hin]
      exact ⟨hs.made_receiver h hm, hs.receiver_has_node h hm⟩
    rw [if_neg hin]
    have hroot : i ≠ t.root := by
      rcases hs.receiver h hm with ⟨-, -, -, -, -, hr, -⟩ | ⟨hr, -⟩
      · rwa [hr] at hne
      · rwa [hr] at hin
    obtain ⟨hpm, j, hj, hc⟩ := h.parent i hold hroot
    refine ⟨hs.made_old h hm hpm, ?_⟩
    by_cases hxn : (t.cache i).parent = node
    · rw [hxn] at hj hc ⊢
      have hlt : j < (t.cache node).childsSize / 2 := by
        by_contra hge
        exact hmv ⟨j, by omega, hj, hc⟩
      rw [hs.left]
      refine ⟨j, hlt, ?_⟩
      simpa only [Node.leftHalf, Nat.not_le.mpr hlt, false_and, if_false] using hc
    by_cases hxp : (t.cache i).parent = p
    · rw [hxp] at hpm hj hc ⊢
      obtain ⟨k, hk, he⟩ := hs.receiver_has h hm hpm hj
      exact ⟨k, hk, he.trans hc⟩
    · rw [hs.old_eq hpm hxn hxp]
      exact ⟨j, hj, hc⟩
  · rw [hs.right]
    exact ⟨hs.made_receiver h hm, hs.receiver_has_new h hm⟩
  · rcases hs.receiver h hm with ⟨hnr, -⟩ | ⟨-, -, hr', -⟩
    · exact absurd hr hnr
    · exact absurd (hip.trans hr'.symm) hne

theorem next {i : Nat} (hi : t'.Made i) (hne : (t'.cache i).next ≠ 0) :
    t'.Made (t'.cache i).next ∧ splitHt ht t.cachePos node (t'.cache i).next =
      splitHt ht t.cachePos node i := by
  rcases hs.made_cases h hm hi with hold | rfl | ⟨hr, rfl⟩
  · rw [(hs.old_kept h hm hold).2.2.2] at hne ⊢
    rw [splitHt_old ht hold.2]
    by_cases hin : i = node
    · rw [if_pos hin, splitHt_made, hin]
      exact ⟨hs.made_new h hm, rfl⟩
    · rw [if_neg hin] at hne ⊢
      obtain ⟨hx, hh⟩ := h.next i hold hne
      rw [splitHt_old ht hx.2]
      exact ⟨hs.made_old h hm hx, hh⟩
  · rw [hs.right] at hne ⊢
    obtain ⟨hx, hh⟩ := h.next node hm hne
    rw [splitHt_made]
    exact ⟨hs.made_old h hm hx, (splitHt_old ht hx.2).trans hh⟩
  · rw [hs.receiver_root hr] at hne
    exact absurd rfl hne

end

/-! ### The sizes -/

omit [LinearOrder K] in
/-- The sizes of an overfull node. -/
theorem over_sizes (h : Shape ht node t) (hm : t.Made node) (hN : 2 ≤ N) :
    ((t.cache node).isLeaf = true ∧ (t.cache node).valsSize = 2 * N ∧ (t.cache node).childsSize = 0) ∨
      ((t.cache node).isLeaf = false ∧ (t.cache node).valsSize + 1 = 2 * N ∧
        (t.cache node).childsSize = 2 * N) := by
  have hv := (h.overVals hm.ne_zero).2
  cases hl : (t.cache node).isLeaf
  · have hc := h.innerChilds node hm hl
    simp only [hl, Bool.false_eq_true, if_false] at hv
    exact .inr ⟨rfl, by omega, by omega⟩
  · simp only [hl, if_true] at hv
    exact .inl ⟨rfl, hv, h.leafChilds node hm hl⟩

/-- Both halves of an overfull node hold at least the minimum and have room to grow. -/
def HalfSized (N : Nat) (n : Node K V) : Prop :=
  (n.isLeaf = true ∧ n.valsSize = N ∧ n.childsSize = 0) ∨
    (n.isLeaf = false ∧ n.valsSize + 1 = N ∧ n.childsSize = N)

section
variable (hs : Split t t' node p) (h : Shape ht node t) (hm : t.Made node) (hN : 2 ≤ N)
include hs h hm hN

theorem left_sized : HalfSized N (t'.cache node) := by
  rw [hs.left]
  rcases over_sizes h hm hN with ⟨hl, hv, hc⟩ | ⟨hl, hv, hc⟩
  · refine .inl ⟨hl, ?_, ?_⟩ <;> simp only [Node.leftHalf] <;> omega
  · refine .inr ⟨hl, ?_, ?_⟩ <;> simp only [Node.leftHalf] <;> omega

theorem right_sized : HalfSized N (t'.cache t.cachePos) := by
  rw [hs.right]
  rcases over_sizes h hm hN with ⟨hl, hv, hc⟩ | ⟨hl, hv, hc⟩
  · refine .inl ⟨hl, ?_, ?_⟩ <;> simp only [Node.rightHalf, Node.valsBegin, hl, if_true] <;> omega
  · refine .inr ⟨hl, ?_, ?_⟩ <;>
      simp only [Node.rightHalf, Node.valsBegin, hl, Bool.false_eq_true, if_false] <;> omega

theorem receiver_sized : (t'.cache p).isLeaf = false ∧
    (t'.cache p).childsSize = (t'.cache p).valsSize + 1 ∧ (t'.cache p).valsSize + 1 ≤ 2 * N ∧
    0 < (t'.cache p).valsSize ∧ (p ≠ t'.root → N ≤ (t'.cache p).valsSize + 1) := by
  rcases hs.receiver h hm with ⟨hne, hpm, -, -, hpl, hr, -⟩ | ⟨hr, -, hr', -⟩
  · rw [hs.receiver_eq hne]
    have hmax := h.maxInner p hpm (hs.node_ne_receiver h hm).symm hpl
    refine ⟨hpl, congrArg (· + 1) (h.innerChilds p hpm hpl), ?_, Nat.succ_pos _, fun hpr => ?_⟩
    · dsimp only
      omega
    · rw [hr] at hpr
      have := h.minInner p hpm hpr hpl
      dsimp only
      omega
  · rw [hs.receiver_root hr]
    refine ⟨rfl, rfl, ?_, Nat.one_pos, fun hpr => absurd hr'.symm hpr⟩
    simp only [Node.newRoot]
    omega

/-- The nodes after a split: the two halves, the receiver, and the old ones, whose
values and children are as they were. -/
theorem sized_cases {i : Nat} (hi : t'.Made i) : HalfSized N (t'.cache i) ∨ i = p ∨
    (t.Made i ∧ i ≠ node ∧ (t'.cache i).isLeaf = (t.cache i).isLeaf ∧
      (t'.cache i).valsSize = (t.cache i).valsSize ∧ (t'.cache i).childsSize = (t.cache i).childsSize) := by
  rcases hs.made_cases h hm hi with hold | rfl | ⟨-, hip⟩
  · by_cases hin : i = node
    · exact .inl (hin ▸ hs.left_sized h hm hN)
    · by_cases hip : i = p
      · exact .inr (.inl hip)
      · rw [hs.old_eq hold hin hip]
        exact .inr (.inr ⟨hold, hin, rfl, rfl, rfl⟩)
  · exact .inl (hs.right_sized h hm hN)
  · exact .inr (.inl hip)

end

/-! ### The fields, one by one -/

section
variable (hs : Split t t' node p) (h : Shape ht node t) (hm : t.Made node)
include hs h hm

theorem root : t'.Made t'.root := by
  rcases hs.receiver h hm with ⟨-, -, -, -, -, hr, -⟩ | ⟨-, -, hr, -⟩
  · exact hr ▸ hs.made_old h hm h.root
  · exact hr ▸ hs.made_receiver h hm

theorem rootParent : (t'.cache t'.root).parent = 0 := by
  rcases hs.receiver h hm with ⟨hne, -, -, -, -, hr, -⟩ | ⟨hr, -, hr', -⟩
  · rw [hr, (hs.old_kept h hm h.root).2.2.1, splitParent, if_neg ?_, if_neg (Ne.symm hne), h.rootParent]
    intro hmv
    have := (moves_spec h hm hmv).2.1
    rw [h.rootParent] at this
    exact hm.ne_zero this.symm
  · rw [hr', hs.receiver_root hr]
    rfl

theorem rootNext : (t'.cache t'.root).next = 0 := by
  rcases hs.receiver h hm with ⟨hne, -, -, -, -, hr, -⟩ | ⟨hr, -, hr', -⟩
  · rw [hr, (hs.old_kept h hm h.root).2.2.2, if_neg (Ne.symm hne), h.rootNext]
  · rw [hr', hs.receiver_root hr]
    rfl

theorem height : splitHt ht t.cachePos node t'.root + 1 < t'.cachePos := by
  rcases hs.receiver h hm with ⟨-, -, -, -, -, hr, hc⟩ | ⟨hr, hp, hr', hc⟩
  · rw [hr, hc, splitHt_old ht h.root.2]
    exact Nat.lt_succ_of_lt h.height
  · have := h.height
    rw [hr', hp, hc, splitHt_root, hr]
    omega

theorem below {i : Nat} (hi : t'.Made i) (hne : i ≠ t'.root) :
    splitHt ht t.cachePos node i < splitHt ht t.cachePos node t'.root := by
  rcases hs.receiver h hm with ⟨hnr, -, -, -, -, hr, -⟩ | ⟨hr, hp, hr', -⟩
  · rw [hr, splitHt_old ht h.root.2]
    rcases hs.made_cases h hm hi with hold | rfl | ⟨he, -⟩
    · rw [splitHt_old ht hold.2]
      exact h.below i hold (hr ▸ hne)
    · rw [splitHt_made]
      exact h.below node hm hnr
    · exact absurd he hnr
  · rw [hr', hp, splitHt_root]
    rcases hs.made_cases h hm hi with hold | rfl | ⟨-, he⟩
    · rw [splitHt_old ht hold.2]
      by_cases hin : i = node
      · rw [hin]
        exact Nat.lt_succ_self _
      · exact Nat.lt_succ_of_lt (hr ▸ h.below i hold (hr ▸ hin))
    · rw [splitHt_made]
      exact Nat.lt_succ_self _
    · exact absurd (he.trans hr'.symm) hne

theorem fresh {i : Nat} (hi : t'.cachePos ≤ i) : t'.cache i = Node.zero := by
  have hic : t.cachePos ≠ i ∧ t.cachePos ≤ i ∧ i ≠ p := by
    rcases hs.receiver h hm with ⟨-, hp, -, -, -, -, hc⟩ | ⟨-, hp, -, hc⟩
    · have := hp.2
      omega
    · omega
  have hin : i ≠ node := by
    have := hm.2
    omega
  have hmv : ¬ (t.cache node).Moves i := by
    intro hmv
    have := (moves_spec h hm hmv).1.2
    omega
  rw [hs.other i hic.1.symm hin hic.2.2 hmv]
  exact h.fresh i hic.2.1

theorem ident {i : Nat} (hi : t'.Made i) : (t'.cache i).id = i := by
  rcases hs.made_cases h hm hi with hold | rfl | ⟨hr, rfl⟩
  · rw [(hs.old_kept h hm hold).1]
    exact h.ident i hold
  · rw [hs.right]
    rfl
  · rw [hs.receiver_root hr]
    rfl

/-- An old node that is no root afterwards was none before, or it was split. -/
theorem root_old {i : Nat} (hne : i ≠ t'.root) : i = node ∨ i ≠ t.root := by
  rcases hs.receiver h hm with ⟨-, -, -, -, -, hr, -⟩ | ⟨hr, -⟩
  · exact .inr (hr ▸ hne)
  · exact hr ▸ em (i = node)

end

section
variable (hs : Split t t' node p) (h : Shape ht node t) (hm : t.Made node) (hN : 2 ≤ N)
include hs h hm hN

theorem rootVals (hl : (t'.cache t'.root).isLeaf = false) : 0 < (t'.cache t'.root).valsSize := by
  by_cases hrp : t'.root = p
  · rw [hrp]
    exact (hs.receiver_sized h hm hN).2.2.2.1
  · rcases hs.receiver h hm with ⟨hne, -, -, -, -, hr, -⟩ | ⟨-, -, hr', -⟩
    · rw [hr] at hl hrp ⊢
      rw [hs.old_eq h.root (Ne.symm hne) hrp] at hl ⊢
      exact h.rootVals hl
    · exact absurd hr' hrp

theorem leaf {i : Nat} (hi : t'.Made i) : (t'.cache i).isLeaf = true ↔ splitHt ht t.cachePos node i = 0 := by
  rcases hs.made_cases h hm hi with hold | rfl | ⟨hr, rfl⟩
  · rw [(hs.old_kept h hm hold).2.1, splitHt_old ht hold.2]
    exact h.leaf i hold
  · rw [hs.right, splitHt_made]
    exact h.leaf node hm
  · rw [(hs.receiver_sized h hm hN).1, ← (hs.child_node h hm).2.2]
    simp

/-- A leaf after the split is a half of one, or an old one. -/
theorem leaf_cases {i : Nat} (hi : t'.Made i) (hl : (t'.cache i).isLeaf = true) :
    ((t'.cache i).valsSize = N ∧ (t'.cache i).childsSize = 0) ∨
      t.Made i ∧ i ≠ node ∧ (t.cache i).isLeaf = true ∧ (t'.cache i).valsSize = (t.cache i).valsSize ∧
        (t'.cache i).childsSize = (t.cache i).childsSize := by
  rcases hs.sized_cases h hm hN hi with (⟨-, hv, hc⟩ | ⟨hl', -⟩) | rfl | ⟨hold, hin, hl', hv, hc⟩
  · exact .inl ⟨hv, hc⟩
  · rw [hl] at hl'
    cases hl'
  · rw [(hs.receiver_sized h hm hN).1] at hl
    cases hl
  · exact .inr ⟨hold, hin, hl' ▸ hl, hv, hc⟩

/-- An inner node after the split is a half of one, the receiver, or an old one. -/
theorem inner_cases {i : Nat} (hi : t'.Made i) (hl : (t'.cache i).isLeaf = false) :
    ((t'.cache i).valsSize + 1 = N ∧ (t'.cache i).childsSize = N) ∨ i = p ∨
      t.Made i ∧ i ≠ node ∧ (t.cache i).isLeaf = false ∧ (t'.cache i).valsSize = (t.cache i).valsSize ∧
        (t'.cache i).childsSize = (t.cache i).childsSize := by
  rcases hs.sized_cases h hm hN hi with (⟨hl', -⟩ | ⟨-, hv, hc⟩) | hip | ⟨hold, hin, hl', hv, hc⟩
  · rw [hl] at hl'
    cases hl'
  · exact .inl ⟨hv, hc⟩
  · exact .inr (.inl hip)
  · exact .inr (.inr ⟨hold, hin, hl' ▸ hl, hv, hc⟩)

theorem leafChilds {i : Nat} (hi : t'.Made i) (hl : (t'.cache i).isLeaf = true) : (t'.cache i).childsSize = 0 := by
  rcases hs.leaf_cases h hm hN hi hl with ⟨-, hc⟩ | ⟨hold, -, hl', -, hc⟩
  · exact hc
  · rw [hc]
    exact h.leafChilds i hold hl'

theorem innerChilds {i : Nat} (hi : t'.Made i) (hl : (t'.cache i).isLeaf = false) :
    (t'.cache i).childsSize = (t'.cache i).valsSize + 1 := by
  rcases hs.inner_cases h hm hN hi hl with ⟨hv, hc⟩ | rfl | ⟨hold, -, hl', hv, hc⟩
  · omega
  · exact (hs.receiver_sized h hm hN).2.1
  · rw [hc, hv]
    exact h.innerChilds i hold hl'

theorem maxLeaf {i : Nat} (hi : t'.Made i) (hl : (t'.cache i).isLeaf = true) :
    (t'.cache i).valsSize + 1 ≤ 2 * N := by
  rcases hs.leaf_cases h hm hN hi hl with ⟨hv, -⟩ | ⟨hold, hin, hl', hv, -⟩
  · omega
  · rw [hv]
    exact h.maxLeaf i hold hin hl'

theorem maxInner {i : Nat} (hi : t'.Made i) (hne : i ≠ if t'.isFull p then p else 0)
    (hl : (t'.cache i).isLeaf = false) : (t'.cache i).valsSize + 2 ≤ 2 * N := by
  rcases hs.inner_cases h hm hN hi hl with ⟨hv, -⟩ | rfl | ⟨hold, hin, hl', hv, -⟩
  · omega
  · have hmax := (hs.receiver_sized h hm hN).2.2.1
    have hnf : t'.isFull i = false := by
      by_contra hf
      rw [if_pos (by simpa using hf)] at hne
      exact hne rfl
    simp only [isFull, decide_eq_false_iff_not, not_le] at hnf
    omega
  · rw [hv]
    exact h.maxInner i hold hin hl'

theorem overVals (hf : t'.isFull p = true) : t'.Made p ∧
    (t'.cache p).valsSize = if (t'.cache p).isLeaf then 2 * N else 2 * N - 1 := by
  obtain ⟨hl, -, hmax, -⟩ := hs.receiver_sized h hm hN
  refine ⟨hs.made_receiver h hm, ?_⟩
  rw [hl, if_neg (by simp)]
  simp only [isFull, decide_eq_true_eq] at hf
  omega

theorem minLeaf {i : Nat} (hi : t'.Made i) (hne : i ≠ t'.root) (hl : (t'.cache i).isLeaf = true) :
    N ≤ (t'.cache i).valsSize := by
  rcases hs.leaf_cases h hm hN hi hl with ⟨hv, -⟩ | ⟨hold, hin, hl', hv, -⟩
  · omega
  · rw [hv]
    exact h.minLeaf i hold ((hs.root_old h hm hne).resolve_left hin) hl'

theorem minInner {i : Nat} (hi : t'.Made i) (hne : i ≠ t'.root) (hl : (t'.cache i).isLeaf = false) :
    N ≤ (t'.cache i).valsSize + 1 := by
  rcases hs.inner_cases h hm hN hi hl with ⟨hv, -⟩ | rfl | ⟨hold, hin, hl', hv, -⟩
  · omega
  · exact (hs.receiver_sized h hm hN).2.2.2.2 hne
  · rw [hv]
    exact h.minInner i hold ((hs.root_old h hm hne).resolve_left hin) hl'

/-- A split keeps the linkage. -/
theorem shape : Shape (splitHt ht t.cachePos node) (if t'.isFull p then p else 0) t' := by
  constructor
  case root => exact hs.root h hm
  case rootParent => exact hs.rootParent h hm
  case rootNext => exact hs.rootNext h hm
  case rootVals => exact hs.rootVals h hm hN
  case height => exact hs.height h hm
  case below => exact fun i hi hne => hs.below h hm hi hne
  case fresh => exact fun i hi => hs.fresh h hm hi
  case ident => exact fun i hi => hs.ident h hm hi
  case leaf => exact fun i hi => hs.leaf h hm hN hi
  case leafChilds => exact fun i hi hl => hs.leafChilds h hm hN hi hl
  case innerChilds => exact fun i hi hl => hs.innerChilds h hm hN hi hl
  case child => exact fun i j hi hj => hs.child h hm hi hj
  case childInj => exact fun i j k hi hj hk he => hs.childInj h hm hi hj hk he
  case parent =>
    have hfull := over_sizes h hm hN
    exact fun i hi hne => hs.parent h hm (hfull.imp (·.2.2) (·.2.2)) hi hne
  case next => exact fun i hi hne => hs.next h hm hi hne
  case maxLeaf => exact fun i hi _ hl => hs.maxLeaf h hm hN hi hl
  case maxInner => exact fun i hi hne hl => hs.maxInner h hm hN hi hne hl
  case overVals =>
    intro hne
    have hf : t'.isFull p = true := by
      by_contra hf
      rw [if_neg hf] at hne
      exact hne rfl
    rw [if_pos hf]
    exact hs.overVals h hm hN hf
  case minLeaf => exact fun i hi hne hl => hs.minLeaf h hm hN hi hne hl
  case minInner => exact fun i hi hne hl => hs.minInner h hm hN hi hne hl

end
end Split
end Nkvdb.BTree
