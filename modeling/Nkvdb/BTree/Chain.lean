import Nkvdb.BTree.SplitShape
import Nkvdb.Lib.Linked

/-! The chain of leaves.

The leaves are linked through `next`, from node 1 on, and between them hold every
value inserted, each once. This too holds whatever the keys are. -/
namespace Nkvdb.BTree
variable {K V : Type} {N : Nat}

/-- The leaves, in the order of their links. -/
structure Chain (t : BTree K V N) (l : List Nat) : Prop where
  linked : Linked (fun i => (t.cache i).next) 0 1 l
  nodup : l.Nodup
  leaves : ∀ i, i ∈ l ↔ t.Made i ∧ (t.cache i).isLeaf = true

/-- The values of the nodes of `l`, in order. -/
def records (t : BTree K V N) (l : List Nat) : List (K × V) := l.flatMap fun i => (t.cache i).live

theorem mem_records {t : BTree K V N} {l : List Nat} {kv : K × V} :
    kv ∈ t.records l ↔ ∃ i, i ∈ l ∧ ∃ j, j < (t.cache i).valsSize ∧ (t.cache i).vals j = kv := by
  simp [records, Node.live, Slots.mem_live]

theorem records_congr {t t' : BTree K V N} {l : List Nat}
    (h : ∀ i, i ∈ l → (t'.cache i).live = (t.cache i).live) : t'.records l = t.records l := by
  unfold records
  induction l with
  | nil => rfl
  | cons x xs ih =>
    rw [List.flatMap_cons, List.flatMap_cons, h x List.mem_cons_self,
      ih fun i hi => h i (List.mem_cons_of_mem _ hi)]

theorem Chain.init [Inhabited K] [Inhabited V] (cacheSize : Nat) :
    Chain (BTree.init cacheSize : BTree K V N) [1] := by
  refine ⟨⟨rfl, Nat.one_ne_zero, by simp [BTree.init, Node.zero, Linked]⟩, List.nodup_singleton 1, ?_⟩
  intro i
  rw [List.mem_singleton]
  constructor
  · rintro rfl
    exact ⟨⟨Nat.one_pos, Nat.one_lt_two⟩, by simp [BTree.init]⟩
  · rintro ⟨⟨h0, h2⟩, -⟩
    have : i < 2 := h2
    omega

variable [Inhabited K] [Inhabited V]

/-- The halves of a split leaf hold its values between them. -/
theorem Node.live_halves (n : Node K V) (c p : Nat) (hl : n.isLeaf = true) :
    (n.leftHalf c p).live ++ (n.rightHalf c p).live = n.live := by
  have hle : n.valsSize / 2 ≤ n.valsSize := Nat.div_le_self ..
  have hr : (n.rightHalf c p).live =
      Slots.live (fun j => n.vals (n.valsSize / 2 + j)) (n.valsSize - n.valsSize / 2) := by
    have hb : n.valsBegin = n.valsSize / 2 := by simp [Node.valsBegin, hl]
    unfold Node.live Node.rightHalf
    rw [hb]
    exact Slots.live_congr fun j hj => if_pos hj
  rw [hr]
  exact (Slots.live_split n.vals hle).symm

namespace Chain
variable {ht : Nat → Nat} {t t' : BTree K V N} {node p : Nat} {l : List Nat}

/-- A split leaves the chain and what it holds, with a new leaf linked in when the
node was one. -/
theorem split [LinearOrder K] (h : Chain t l) (hs : Split t t' node p) (hsh : Shape ht node t)
    (hm : t.Made node) (hsh' : Shape (splitHt ht t.cachePos node) (if t'.isFull p then p else 0) t') :
    ∃ l', Chain t' l' ∧ t'.records l' = t.records l := by
  have hpl : (t'.cache p).isLeaf = false := by
    by_contra hl
    have hp := hs.made_receiver hsh hm
    have := (hsh'.leaf p hp).mp (by simpa using hl)
    have hh := (hs.child_node hsh hm).2.2
    omega
  have hold : ∀ i, i ∈ l → i ≠ node → (t'.cache i).next = (t.cache i).next ∧
      (t'.cache i).live = (t.cache i).live := by
    intro i hi hin
    obtain ⟨him, hil⟩ := (h.leaves i).mp hi
    have hip : i ≠ p := by
      rintro rfl
      rw [(hs.old_kept hsh hm him).2.1, hil] at hpl
      cases hpl
    rw [hs.old_eq him hin hip]
    exact ⟨rfl, rfl⟩
  have hleaves : ∀ i, t'.Made i ∧ (t'.cache i).isLeaf = true ↔
      (t.Made i ∧ (t.cache i).isLeaf = true) ∨ (i = t.cachePos ∧ (t.cache node).isLeaf = true) := by
    intro i
    constructor
    · rintro ⟨hi, hl⟩
      rcases hs.made_cases hsh hm hi with him | rfl | ⟨-, rfl⟩
      · exact .inl ⟨him, (hs.old_kept hsh hm him).2.1 ▸ hl⟩
      · rw [hs.right] at hl
        exact .inr ⟨rfl, hl⟩
      · rw [hpl] at hl
        cases hl
    · rintro (⟨him, hl⟩ | ⟨rfl, hl⟩)
      · exact ⟨hs.made_old hsh hm him, (hs.old_kept hsh hm him).2.1.trans hl⟩
      · exact ⟨hs.made_new hsh hm, by rw [hs.right]; exact hl⟩
  cases hnl : (t.cache node).isLeaf
  -- an inner node is in no chain
  · have hne : ∀ i, i ∈ l → i ≠ node := by
      rintro i hi rfl
      have := ((h.leaves i).mp hi).2
      rw [hnl] at this
      cases this
    refine ⟨l, ⟨h.linked.congr fun i hi => (hold i hi (hne i hi)).1, h.nodup, fun i => ?_⟩,
      records_congr fun i hi => (hold i hi (hne i hi)).2⟩
    rw [h.leaves, hleaves, hnl]
    simp
  -- a leaf is followed by the half made of it
  · obtain ⟨xs, ys, rfl⟩ := List.append_of_mem ((h.leaves node).mpr ⟨hm, hnl⟩)
    have hnew : t.cachePos ∉ xs ++ node :: ys := fun hc => by
      have := ((h.leaves _).mp hc).1.2
      omega
    have hnd := h.nodup
    refine ⟨xs ++ node :: t.cachePos :: ys, ⟨?_, ?_, fun i => ?_⟩, ?_⟩
    · refine h.linked.splice hnd ?_ ?_ ?_ fun y hy hne => (hold y hy hne).1
      · show (t'.cache node).next = t.cachePos
        rw [hs.left]
        rfl
      · show (t'.cache t.cachePos).next = (t.cache node).next
        rw [hs.right]
        rfl
      · have := hm.2
        omega
    · simp only [List.nodup_append, List.nodup_cons, List.mem_append, List.mem_cons] at hnd hnew ⊢
      grind
    · have := h.leaves i
      rw [hleaves, ← this]
      simp only [hnl, List.mem_append, List.mem_cons]
      tauto
    · have hxs : ∀ i, i ∈ xs → i ≠ node := by
        rintro i hi rfl
        exact (List.nodup_append.mp hnd).2.2 i hi i List.mem_cons_self rfl
      have hys : ∀ i, i ∈ ys → i ≠ node := by
        rintro i hi rfl
        exact (List.nodup_cons.mp (List.nodup_append.mp hnd).2.1).1 hi
      have h1 : t'.records xs = t.records xs :=
        records_congr fun i hi => (hold i (List.mem_append_left _ hi) (hxs i hi)).2
      have h2 : t'.records ys = t.records ys :=
        records_congr fun i hi =>
          (hold i (List.mem_append_right _ (List.mem_cons_of_mem _ hi)) (hys i hi)).2
      unfold records at h1 h2 ⊢
      simp only [List.flatMap_append, List.flatMap_cons, h1, h2, hs.left, hs.right]
      rw [← Node.live_halves (t.cache node) t.cachePos p hnl, List.append_assoc]

omit [Inhabited K] [Inhabited V] in
/-- A value stored in a leaf joins what the chain holds. -/
theorem put [LinearOrder K] (h : Chain t l) (hl : node ∈ l) (key : K) (val : V) :
    Chain (t.setNode node ((t.cache node).withValue key val)) l ∧
      ((t.setNode node ((t.cache node).withValue key val)).records l).Perm
        ((key, val) :: t.records l) := by
  have hlink : ∀ i, ((t.setNode node ((t.cache node).withValue key val)).cache i).next = (t.cache i).next ∧
      ((t.setNode node ((t.cache node).withValue key val)).cache i).isLeaf = (t.cache i).isLeaf := by
    intro i
    by_cases hin : i = node
    · rw [hin, setNode_self]
      exact ⟨rfl, rfl⟩
    · rw [setNode_ne _ _ _ hin]
      exact ⟨rfl, rfl⟩
  refine ⟨⟨h.linked.congr fun i _ => (hlink i).1, h.nodup, fun i => ?_⟩, ?_⟩
  · rw [h.leaves, (hlink i).2]
    rfl
  · obtain ⟨xs, ys, rfl⟩ := List.append_of_mem hl
    have hnd := h.nodup
    have hxs : (t.setNode node ((t.cache node).withValue key val)).records xs = t.records xs :=
      records_congr fun i hi => by
        rw [setNode_ne]
        rintro rfl
        exact (List.nodup_append.mp hnd).2.2 i hi i List.mem_cons_self rfl
    have hys : (t.setNode node ((t.cache node).withValue key val)).records ys = t.records ys :=
      records_congr fun i hi => by
        rw [setNode_ne]
        rintro rfl
        exact (List.nodup_cons.mp (List.nodup_append.mp hnd).2.1).1 hi
    have hnode : ((t.cache node).withValue key val).live.Perm ((key, val) :: (t.cache node).live) :=
      Slots.live_inserted_perm _ _ _ _ ((t.cache node).lowerBound_le key)
    unfold records at hxs hys ⊢
    simp only [List.flatMap_append, List.flatMap_cons, hxs, hys, setNode_self]
    calc List.Perm _ (t.records xs ++ ((key, val) :: (t.cache node).live ++ t.records ys)) :=
          (hnode.append_right _).append_left _
      _ = t.records xs ++ (key, val) :: ((t.cache node).live ++ t.records ys) := rfl
      List.Perm _ _ := List.perm_middle

end Chain
end Nkvdb.BTree
