import Nkvdb.BTree.Route
import Nkvdb.Index.Search

/-! The way a search goes down the index.

A time is routed to one leaf, whatever times the records repeat, and the search for it ends there unless a
node on the way holds the time twice below a larger separator (`Logged.settled_iff`). What the walk then
comes by depends on these leaves and the links alone (`Logged.mem_selected_routed`). -/
namespace Nkvdb.Index

/-- No node that the time is routed through holds it twice below a larger separator. -/
def Settled (t : IndexTree) (time : Time) : Prop := ∀ i, t.Routed time t.root i → ¬ (t.cache i).Doubled time

/-- A record in the leaf that the time is routed to, or in one linked behind it. -/
def Behind (t : IndexTree) (time : Time) (r : IndexRecord) : Prop :=
  Settled t time ∧ ∃ leaf nodes, t.Routed time t.root leaf ∧ (t.cache leaf).isLeaf = true ∧
    Linked (fun i => (t.cache i).next) 0 leaf nodes ∧ ∃ i, i ∈ nodes ∧ (r.minTime, r) ∈ (t.cache i).live

section
variable {size : Nat} {recs : List IndexRecord} {ix ix' : Index} {r : IndexRecord} {time fromTime toTime : Time}
  {want : IndexRecord → Bool} {nodes : List Nat}

/-- The nodes of the flushed index are sorted. -/
theorem Logged.ascending (h : Logged size recs ix) (hf : ix.flush = .ok ix') :
    (∃ ht, BTree.Shape ht 0 ix'.tree) ∧ BTree.AllAscending ix'.tree :=
  BTree.insertAll_ascending (by decide) (BTree.Shape.init size (by decide)) (BTree.AllAscending.init size)
    (h.flush_ok hf).1

/-- A search that does not give up ends at the leaf its time is routed to. -/
theorem Logged.settled_routed (h : Logged size recs ix) (hf : ix.flush = .ok ix') (hs : Settled ix'.tree time) :
    ∃ leaf, ix'.tree.findNode time = .ok leaf ∧ (ix'.tree.cache leaf).isLeaf = true ∧
      ix'.tree.Routed time ix'.tree.root leaf := by
  obtain ⟨⟨ht, hshape⟩, hq⟩ := h.ascending hf
  have hh := hshape.height
  have hfuel : ht ix'.tree.root < ix'.tree.cachePos := by omega
  rcases hshape.inerFind_cases (by decide) time hshape.root hfuel with hnone | ⟨leaf, res, hfind, -, hleaf⟩
  · obtain ⟨i, hi, hd⟩ := (BTree.inerFind_none_iff hshape (by decide) hq time hshape.root hfuel).mp hnone
    exact absurd hd (hs i hi)
  · refine ⟨leaf, ?_, hleaf, BTree.inerFind_routed hshape (by decide) hq hshape.root hfind⟩
    simp only [BTree.findNode, hfind, bind, Except.bind]

theorem Logged.settled_iff (h : Logged size recs ix) (hf : ix.flush = .ok ix') :
    Settled ix'.tree time ↔ EndsAtLeaf ix'.tree time := by
  constructor
  · intro hs
    obtain ⟨leaf, hfind, hleaf, -⟩ := h.settled_routed hf hs
    exact ⟨leaf, hfind, hleaf⟩
  · rintro ⟨leaf, hfind, hleaf⟩ i hi hd
    obtain ⟨⟨ht, hshape⟩, hq⟩ := h.ascending hf
    have hh := hshape.height
    have hnone := (BTree.inerFind_none_iff hshape (by decide) hq time hshape.root
      (show ht ix'.tree.root < ix'.tree.cachePos by omega)).mpr ⟨i, hi, hd⟩
    -- a search that gives up ends at the root, and no key is held in the way at a root that is a leaf
    have hroot : ix'.tree.findNode time = .ok ix'.tree.root := by
      simp only [BTree.findNode, hnone, bind, Except.bind]
    obtain rfl : ix'.tree.root = leaf := Except.ok.inj (hroot.symm.trans hfind)
    cases hi with
    | here => exact Bool.false_ne_true (hd.1.symm.trans hleaf)
    | down hl => exact Bool.false_ne_true (hl.symm.trans hleaf)

/-- What is reachable lies in the leaf that the time is routed to, or behind it. -/
theorem Logged.reachable_routed (h : Logged size recs ix) (hf : ix.flush = .ok ix') :
    Reachable ix'.tree time r ↔ Behind ix'.tree time r := by
  obtain ⟨ht, l, hshape, hc, -⟩ := h.leaves hf
  by_cases hs : Settled ix'.tree time
  swap
  · have hnot := mt (h.settled_iff hf).mpr hs
    exact iff_of_false ((not_endsAtLeaf hshape hc hnot).2.2 r) fun hb => hs hb.1
  obtain ⟨leaf, rest, hfind, hl, -, hreach⟩ := ((h.settled_iff hf).mp hs).reaches hshape hc
  obtain ⟨leaf', hfind', hleaf, hrouted⟩ := h.settled_routed hf hs
  obtain rfl : leaf = leaf' := Except.ok.inj (hfind.symm.trans hfind')
  rw [hreach, BTree.records, List.mem_flatMap]
  constructor
  · rintro ⟨i, hi, hlive⟩
    exact ⟨hs, leaf, leaf :: rest, hrouted, hleaf, hl, i, hi, hlive⟩
  · rintro ⟨-, other, nodes, hother, hleaf', hlinked, i, hi, hlive⟩
    obtain ⟨⟨ht', hshape'⟩, hq⟩ := h.ascending hf
    obtain rfl := BTree.Routed.leaf_unique hshape' hq hshape'.root hrouted hleaf hother hleaf'
    obtain rfl := hl.unique hlinked
    exact ⟨i, hi, hlive⟩

/-- What the walk comes by, whatever times the records repeat. -/
theorem Logged.mem_selected_routed (h : Logged size recs ix) (hf : ix.flush = .ok ix') (hnd : recs.Nodup)
    (hs : Settled ix'.tree fromTime) (hw : Walked ix'.tree fromTime toTime want nodes) :
    r ∈ selected want ix'.tree nodes ↔ Met (Behind ix'.tree) want fromTime toTime r := by
  obtain ⟨ht, l, hshape, hc, hperm⟩ := h.leaves hf
  rw [hw.mem_selected hshape hc hperm hnd ((h.settled_iff hf).mp hs)]
  exact Met.congr fun time r => h.reachable_routed hf

end

/-! ### In the order of the leaves -/

/-- The records in the leaves, in the order of their links. -/
def leafRecords (t : IndexTree) : List IndexRecord :=
  (t.records (Linked.follow (fun i => (t.cache i).next) 0 t.cachePos 1)).map Prod.snd

open Classical in
/-- The wanted records that a search from one time to another comes by: those of the leaves that are met, or those
that the root holds itself where the way down is not settled. -/
noncomputable def comeBy (want : IndexRecord → Bool) (fromTime toTime : Time) (t : IndexTree) : List IndexRecord :=
  if Settled t fromTime then (leafRecords t).filter fun r => Met (Behind t) want fromTime toTime r
  else ((t.cache t.root).live.map Prod.snd).filter want

/-- A part of a list without repeats is what it has of it. -/
theorem sublist_eq_filter {α : Type} {P : α → Prop} [DecidablePred P] {s l : List α} (hs : s.Sublist l) (hl : l.Nodup)
    (hm : ∀ x, x ∈ s ↔ x ∈ l ∧ P x) : s = l.filter P := by
  have hsub : s.Sublist (l.filter P) := by
    have hfilter := hs.filter P
    rwa [List.filter_eq_self.mpr fun x hx => decide_eq_true ((hm x).mp hx).2] at hfilter
  refine hsub.eq_of_length_le (List.subperm_of_subset (hl.filter _) fun x hx => ?_).length_le
  obtain ⟨hx, hp⟩ := List.mem_filter.mp hx
  exact (hm x).mpr ⟨hx, of_decide_eq_true hp⟩

section
variable {size : Nat} {recs : List IndexRecord} {ix ix' : Index} {fromTime toTime : Time} {want : IndexRecord → Bool}
  {nodes : List Nat}

theorem leafRecords_eq {t : IndexTree} {l : List Nat} (hc : BTree.Chain t l) :
    leafRecords t = (t.records l).map Prod.snd := by
  have hlen : l.length ≤ t.cachePos := by
    have hsub := List.subperm_of_subset hc.nodup fun i hi => List.mem_range.mpr ((hc.leaves i).mp hi).1.2
    simpa using hsub.length_le
  unfold leafRecords
  rw [hc.linked.follow_eq hlen]

/-- The walk selects what a search comes by. -/
theorem Logged.selected_eq (h : Logged size recs ix) (hf : ix.flush = .ok ix') (hnd : recs.Nodup)
    (hw : Walked ix'.tree fromTime toTime want nodes) :
    selected want ix'.tree nodes = comeBy want fromTime toTime ix'.tree := by
  obtain ⟨ht, l, hshape, hc, hp, -⟩ := (h.flush hf).records (h.flush_ok hf).2.1
  classical
  unfold comeBy
  by_cases hs : Settled ix'.tree fromTime
  · rw [if_pos hs, leafRecords_eq hc]
    rcases hw.cases hshape hc with ⟨-, hsub, -⟩ | ⟨hne, -⟩
    · have hlist : (selected want ix'.tree nodes).Sublist ((ix'.tree.records l).map Prod.snd) :=
        List.filter_sublist.trans ((hsub.flatMap _).map _)
      refine sublist_eq_filter hlist (hp.nodup_iff.mpr hnd) fun r => ?_
      rw [← h.mem_selected_routed hf hnd hs hw]
      exact ⟨fun hr => ⟨hlist.subset hr, hr⟩, And.right⟩
    · exact absurd ((h.settled_iff hf).mp hs) hne
  · rw [if_neg hs]
    rcases hw.cases hshape hc with ⟨he, -⟩ | ⟨-, rfl⟩
    · exact absurd ((h.settled_iff hf).mpr he) hs
    · simp [selected, BTree.records]

end
end Nkvdb.Index
