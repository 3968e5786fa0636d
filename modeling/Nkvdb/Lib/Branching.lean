import Mathlib

/-! How many nodes a tree has, and how high it is.

A tree is given by its nodes and the children of each. Where every inner node but the root has `N`
children at least, it has few nodes beside its leaves, and many leaves below its root. -/
variable {α : Type}

/-- Each node is the child of one node at most, and the root of none. -/
structure Branching (s : Finset α) (arity : α → Nat) (child : α → Nat → α) (root : α) : Prop where
  root_mem : root ∈ s
  child_mem : ∀ x, x ∈ s → ∀ j, j < arity x → child x j ∈ s ∧ child x j ≠ root
  child_inj : ∀ x y, x ∈ s → y ∈ s → ∀ j k, j < arity x → k < arity y → child x j = child y k → x = y ∧ j = k

namespace Branching
variable {s : Finset α} {arity : α → Nat} {child : α → Nat → α} {root : α} {N : Nat}

/-- Some nodes have as many children as there are where the children lie, or fewer. -/
theorem sum_arity_le (h : Branching s arity child root) {t u : Finset α} (ht : t ⊆ s)
    (hu : ∀ x, x ∈ t → ∀ j, j < arity x → child x j ∈ u) : ∑ x ∈ t, arity x ≤ u.card := by
  have hcard : (t.sigma fun x => Finset.range (arity x)).card = ∑ x ∈ t, arity x := by
    rw [Finset.card_sigma]
    exact Finset.sum_congr rfl fun x _ => Finset.card_range _
  rw [← hcard]
  refine Finset.card_le_card_of_injOn (fun p => child p.1 p.2) ?_ ?_
  · rintro ⟨x, j⟩ hp
    obtain ⟨hx, hj⟩ := Finset.mem_sigma.mp hp
    exact hu x hx j (Finset.mem_range.mp hj)
  · rintro ⟨x, j⟩ hp ⟨y, k⟩ hq heq
    obtain ⟨hx, hj⟩ := Finset.mem_sigma.mp hp
    obtain ⟨hy, hk⟩ := Finset.mem_sigma.mp hq
    obtain ⟨rfl, rfl⟩ := h.child_inj x y (ht hx) (ht hy) j k (Finset.mem_range.mp hj) (Finset.mem_range.mp hk) heq
    rfl

/-- The nodes with no child. -/
def leaves (s : Finset α) (arity : α → Nat) : Finset α := s.filter fun x => arity x = 0

/-- The number of nodes by that of the leaves. -/
theorem card_le [DecidableEq α] (h : Branching s arity child root) (hN : 1 ≤ N) (hroot : 2 ≤ arity root)
    (hmin : ∀ x, x ∈ s → x ≠ root → arity x ≠ 0 → N ≤ arity x) :
    (N - 1) * (s.card - 1) + 2 ≤ N * (leaves s arity).card := by
  have hinner : root ∈ s.filter fun x => arity x ≠ 0 := Finset.mem_filter.mpr ⟨h.root_mem, by omega⟩
  -- the children of all inner nodes
  have hsum : ∑ x ∈ s.filter (fun x => arity x ≠ 0), arity x ≤ (s.erase root).card :=
    h.sum_arity_le (Finset.filter_subset _ _) fun x hx j hj =>
      Finset.mem_erase.mpr (h.child_mem x (Finset.mem_filter.mp hx).1 j hj).symm
  rw [Finset.card_erase_of_mem h.root_mem, ← Finset.add_sum_erase _ _ hinner] at hsum
  have hothers : ((s.filter fun x => arity x ≠ 0).erase root).card * N ≤
      ∑ x ∈ (s.filter fun x => arity x ≠ 0).erase root, arity x := by
    rw [← smul_eq_mul]
    refine Finset.card_nsmul_le_sum _ _ _ fun x hx => ?_
    obtain ⟨hne, hx⟩ := Finset.mem_erase.mp hx
    exact hmin x (Finset.mem_filter.mp hx).1 hne (Finset.mem_filter.mp hx).2
  rw [Finset.card_erase_of_mem hinner] at hothers
  have hcard : (leaves s arity).card + (s.filter fun x => arity x ≠ 0).card = s.card :=
    Finset.card_filter_add_card_filter_not _
  have hpos := Finset.card_pos.mpr ⟨root, hinner⟩
  -- in whole numbers, with one inner node taken off
  obtain ⟨i, hi⟩ : ∃ i, (s.filter fun x => arity x ≠ 0).card = i + 1 := ⟨_, (Nat.succ_pred_eq_of_pos hpos).symm⟩
  obtain ⟨M, rfl⟩ : ∃ M, N = M + 1 := ⟨_, (Nat.succ_pred_eq_of_pos hN).symm⟩
  rw [hi] at hothers hcard
  rw [Nat.add_sub_cancel] at hothers ⊢
  have hle : 2 + i * (M + 1) ≤ s.card - 1 := by omega
  have hs : s.card - 1 = (leaves s arity).card + i := by omega
  rw [hs] at hle ⊢
  have hleaves : i * M + 2 ≤ (leaves s arity).card := by
    rw [Nat.mul_succ] at hle
    omega
  calc M * ((leaves s arity).card + i) + 2 = M * (leaves s arity).card + (i * M + 2) := by ring
    _ ≤ M * (leaves s arity).card + (leaves s arity).card := Nat.add_le_add_left hleaves _
    _ = (M + 1) * (leaves s arity).card := (Nat.succ_mul _ _).symm

variable (height : α → Nat)

/-- The nodes of a height. -/
def level (s : Finset α) (height : α → Nat) (g : Nat) : Finset α := s.filter fun x => height x = g

/-- The nodes of the levels below the root. -/
theorem pow_le (h : Branching s arity child root) (hroot : 2 ≤ arity root)
    (hheight : ∀ x, x ∈ s → ∀ j, j < arity x → height (child x j) + 1 = height x)
    (hmin : ∀ x, x ∈ s → x ≠ root → height x ≠ 0 → N ≤ arity x) {d : Nat} (hd : d < height root) :
    2 * N ^ d ≤ (level s height (height root - (d + 1))).card := by
  induction d with
  | zero =>
    have hsum := h.sum_arity_le (t := {root}) (u := level s height (height root - 1))
      (Finset.singleton_subset_iff.mpr h.root_mem) fun x hx j hj => by
        obtain rfl := Finset.mem_singleton.mp hx
        have hh := hheight x h.root_mem j hj
        exact Finset.mem_filter.mpr ⟨(h.child_mem x h.root_mem j hj).1, by omega⟩
    rw [Finset.sum_singleton] at hsum
    rw [pow_zero, Nat.mul_one]
    exact hroot.trans hsum
  | succ d ih =>
    have hsum := h.sum_arity_le (t := level s height (height root - (d + 1)))
      (u := level s height (height root - (d + 1 + 1))) (Finset.filter_subset _ _) fun x hx j hj => by
        obtain ⟨hxs, hxh⟩ := Finset.mem_filter.mp hx
        have hh := hheight x hxs j hj
        exact Finset.mem_filter.mpr ⟨(h.child_mem x hxs j hj).1, by omega⟩
    have hlow : (level s height (height root - (d + 1))).card * N ≤
        ∑ x ∈ level s height (height root - (d + 1)), arity x := by
      rw [← smul_eq_mul]
      refine Finset.card_nsmul_le_sum _ _ _ fun x hx => ?_
      obtain ⟨hxs, hxh⟩ := Finset.mem_filter.mp hx
      refine hmin x hxs ?_ (by omega)
      rintro rfl
      omega
    calc 2 * N ^ (d + 1) = 2 * N ^ d * N := by rw [pow_succ, Nat.mul_assoc]
      _ ≤ (level s height (height root - (d + 1))).card * N := Nat.mul_le_mul_right N (ih (by omega))
      _ ≤ _ := hlow.trans hsum

end Branching
