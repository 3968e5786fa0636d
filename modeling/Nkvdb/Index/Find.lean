import Nkvdb.Index.Feed
import Mathlib.Data.List.TakeWhile

/-! What `findInIndex` finds.

The walk starts at the node of the lower bound and follows the links. It does not scan the
node of the upper bound when it found a record before it, and goes on to the end of the
chain when it did not. `Walked` says which nodes that is, and `findInIndex_ok` that the
positions of the wanted records of these nodes are those found: joining records changes
the records, not the positions. -/
namespace Nkvdb

/-- The positions a record counts. -/
def IndexRecord.positions (r : IndexRecord) : List Nat := List.range' r.pos r.count

namespace Index

def positions (rs : List IndexRecord) : List Nat := rs.flatMap IndexRecord.positions

@[simp] theorem positions_nil : positions [] = [] := rfl

@[simp] theorem positions_append (a b : List IndexRecord) : positions (a ++ b) = positions a ++ positions b :=
  List.flatMap_append

theorem mem_positions {rs : List IndexRecord} {i : Nat} :
    i ∈ positions rs ↔ ∃ r, r ∈ rs ∧ r.pos ≤ i ∧ i < r.pos + r.count := by
  simp [positions, IndexRecord.positions]

/-! ### The records found -/

theorem merge_positions (found : Found) (r : IndexRecord) :
    positions ((merge found r).1 ++ (merge found r).2.toList) =
      positions (found.1 ++ found.2.toList) ++ r.positions := by
  obtain ⟨result, prev⟩ := found
  cases prev with
  | none => simp [merge, positions]
  | some prev =>
    by_cases hjoin : prev.pos + prev.count = r.pos
    · have hrange : List.range' prev.pos (prev.count + r.count) = prev.positions ++ r.positions := by
        unfold IndexRecord.positions
        rw [← hjoin]
        exact List.range'_append_1.symm
      simp [merge, hjoin, positions, hrange, IndexRecord.positions]
    · simp [merge, hjoin, positions]

theorem foldl_merge_positions (rs : List IndexRecord) (found : Found) :
    positions ((rs.foldl merge found).1 ++ (rs.foldl merge found).2.toList) =
      positions (found.1 ++ found.2.toList) ++ positions rs := by
  induction rs generalizing found with
  | nil => simp
  | cons r rs ih =>
    rw [List.foldl_cons, ih, merge_positions, List.append_assoc]
    rfl

/-- The records found, joined as far as they follow each other. -/
def joined (rs : List IndexRecord) : List IndexRecord :=
  let found := rs.foldl merge ([], none)
  found.1 ++ found.2.toList

theorem positions_joined (rs : List IndexRecord) : positions (joined rs) = positions rs :=
  foldl_merge_positions rs ([], none)

theorem merge_some {found : Found} {r : IndexRecord} (hr : 0 < r.count)
    (h : ∀ x, x ∈ found.1 ++ found.2.toList → 0 < x.count) :
    ∀ x, x ∈ (merge found r).1 ++ (merge found r).2.toList → 0 < x.count := by
  obtain ⟨result, prev⟩ := found
  cases prev with
  | none => simpa [merge, or_imp, forall_and, hr] using h
  | some prev =>
    by_cases hjoin : prev.pos + prev.count = r.pos
    · simp only [merge, if_pos hjoin]
      intro x hx
      rcases List.mem_append.mp hx with hx | hx
      · exact h x (List.mem_append_left _ hx)
      · obtain rfl := List.mem_singleton.mp hx
        exact Nat.add_pos_right _ hr
    · simp only [merge, if_neg hjoin]
      intro x hx
      rcases List.mem_append.mp hx with hx | hx
      · exact h x hx
      · obtain rfl := List.mem_singleton.mp hx
        exact hr

/-- No joined record is empty. -/
theorem joined_some {rs : List IndexRecord} (h : ∀ r, r ∈ rs → 0 < r.count) : ∀ x, x ∈ joined rs → 0 < x.count := by
  have hrun : ∀ found : Found, (∀ x, x ∈ found.1 ++ found.2.toList → 0 < x.count) →
      ∀ x, x ∈ (rs.foldl merge found).1 ++ (rs.foldl merge found).2.toList → 0 < x.count := by
    induction rs with
    | nil => exact fun found hf => hf
    | cons r rs ih =>
      obtain ⟨hr, hrs⟩ := List.forall_mem_cons.mp h
      exact fun found hf => ih hrs _ (merge_some hr hf)
  exact hrun ([], none) fun x hx => absurd hx List.not_mem_nil

theorem foldl_merge_none (rs : List IndexRecord) (found : Found) :
    (rs.foldl merge found).2 = none ↔ rs = [] ∧ found.2 = none := by
  induction rs generalizing found with
  | nil => simp
  | cons r rs ih =>
    have hsome : (merge found r).2 ≠ none := by
      unfold merge
      split
      · simp
      · split <;> simp
    rw [List.foldl_cons, ih]
    simp [hsome]

/-! ### The walk -/

/-- The wanted records of some nodes. -/
def selected (want : IndexRecord → Bool) (t : IndexTree) (nodes : List Nat) : List IndexRecord :=
  ((t.records nodes).map Prod.snd).filter want

theorem selected_cons (want : IndexRecord → Bool) (t : IndexTree) (x : Nat) (xs : List Nat) :
    selected want t (x :: xs) = selected want t [x] ++ selected want t xs := by
  simp [selected, BTree.records]

theorem scanNode_eq (want : IndexRecord → Bool) (t : IndexTree) (x : Nat) (found : Found) :
    scanNode want (t.cache x) found = (selected want t [x]).foldl merge found := by
  simp [scanNode, selected, BTree.records]

/-- The nodes scanned of those linked from where the walk starts: the ones before `stop`
if they hold a wanted record, all of them if not. -/
def scanned (want : IndexRecord → Bool) (t : IndexTree) (stop : Nat) (nodes : List Nat) : List Nat :=
  if selected want t (nodes.takeWhile (· ≠ stop)) ≠ [] then nodes.takeWhile (· ≠ stop) else nodes

theorem scanned_sublist (want : IndexRecord → Bool) (t : IndexTree) (stop : Nat) (nodes : List Nat) :
    (scanned want t stop nodes).Sublist nodes := by
  unfold scanned
  split
  · exact List.takeWhile_sublist _
  · exact List.Sublist.refl _

/-- The walk scans the node it starts at. -/
theorem scanned_cons (want : IndexRecord → Bool) (t : IndexTree) (stop x : Nat) (xs : List Nat) :
    ∃ rest, scanned want t stop (x :: xs) = x :: rest := by
  unfold scanned
  by_cases hx : x = stop
  · rw [List.takeWhile_cons_of_neg (by simpa using hx)]
    exact ⟨xs, if_neg fun h => h rfl⟩
  · rw [List.takeWhile_cons_of_pos (by simpa using hx)]
    split
    · exact ⟨_, rfl⟩
    · exact ⟨xs, rfl⟩

section Walk
variable {want : IndexRecord → Bool} {t : IndexTree} {stop : Nat}

theorem walk_step {fuel cur : Nat} {xs : List Nat} {found : Found}
    (hl : Linked (fun i => (t.cache i).next) 0 cur (cur :: xs))
    (hgo : (t.cache cur).id ≠ (t.cache stop).id ∨ found.2 = none) :
    walk want t stop (fuel + 1) cur found =
      if xs = [] then .ok ((selected want t [cur]).foldl merge found)
      else walk want t stop fuel (t.cache cur).next ((selected want t [cur]).foldl merge found) := by
  have hend : (t.cache cur).next = 0 ↔ xs = [] := by
    constructor
    · intro h0
      have hrest : Linked (fun i => (t.cache i).next) 0 (t.cache cur).next xs := hl.2.2
      rw [h0] at hrest
      exact hrest.eq_nil
    · rintro rfl
      exact hl.2.2
  rw [walk, if_pos hgo, scanNode_eq]
  simp only [hend]

/-- Once a record was found the walk ends before `stop`. -/
theorem walk_found {fuel cur : Nat} {nodes : List Nat} {found : Found}
    (hl : Linked (fun i => (t.cache i).next) 0 cur nodes) (hne : nodes ≠ []) (hf : nodes.length ≤ fuel)
    (hid : ∀ i, i ∈ stop :: nodes → (t.cache i).id = i) (hfound : found.2 ≠ none) :
    walk want t stop fuel cur found = .ok ((selected want t (nodes.takeWhile (· ≠ stop))).foldl merge found) := by
  induction nodes generalizing fuel cur found with
  | nil => exact absurd rfl hne
  | cons x xs ih =>
    obtain rfl : cur = x := hl.head_eq
    obtain ⟨fuel, rfl⟩ : ∃ n, fuel = n + 1 := ⟨fuel - 1, by rw [List.length_cons] at hf; omega⟩
    have hcur : (t.cache cur).id = cur := hid cur (List.mem_cons_of_mem _ List.mem_cons_self)
    have hstop : (t.cache stop).id = stop := hid stop List.mem_cons_self
    by_cases hx : cur = stop
    · rw [List.takeWhile_cons_of_neg (by simpa using hx), walk, if_neg]
      · rfl
      · rw [hcur, hstop]
        exact not_or.mpr ⟨fun h => h hx, hfound⟩
    · rw [walk_step hl (.inl (by rwa [hcur, hstop])), List.takeWhile_cons_of_pos (by simpa using hx)]
      by_cases hxs : xs = []
      · rw [if_pos hxs, hxs]
        rfl
      · have hid' : ∀ i, i ∈ stop :: xs → (t.cache i).id = i :=
          List.forall_mem_cons.mpr ⟨hstop, (List.forall_mem_cons.mp (List.forall_mem_cons.mp hid).2).2⟩
        rw [if_neg hxs, ih hl.2.2 hxs (by simpa using hf) hid' fun h => hfound ((foldl_merge_none _ _).mp h).2,
          selected_cons want t cur (List.takeWhile _ xs), List.foldl_append]

/-- The walk from its start, with nothing found yet. -/
theorem walk_none (want : IndexRecord → Bool) (result : List IndexRecord) {fuel cur : Nat} {nodes : List Nat}
    (hl : Linked (fun i => (t.cache i).next) 0 cur nodes) (hne : nodes ≠ []) (hf : nodes.length ≤ fuel)
    (hid : ∀ i, i ∈ stop :: nodes → (t.cache i).id = i) (hnd : nodes.Nodup) :
    walk want t stop fuel cur (result, none) =
      .ok ((selected want t (scanned want t stop nodes)).foldl merge (result, none)) := by
  induction nodes generalizing fuel cur with
  | nil => exact absurd rfl hne
  | cons x xs ih =>
    obtain rfl : cur = x := hl.head_eq
    obtain ⟨fuel, rfl⟩ : ∃ n, fuel = n + 1 := ⟨fuel - 1, by rw [List.length_cons] at hf; omega⟩
    obtain ⟨hx, hnd⟩ := List.nodup_cons.mp hnd
    have hid' : ∀ i, i ∈ stop :: xs → (t.cache i).id = i :=
      List.forall_mem_cons.mpr ⟨hid stop List.mem_cons_self,
        (List.forall_mem_cons.mp (List.forall_mem_cons.mp hid).2).2⟩
    -- beyond `stop` all nodes are scanned
    have hbeyond : cur = stop → xs.takeWhile (· ≠ stop) = xs := by
      rintro rfl
      refine List.takeWhile_eq_self_iff.mpr fun i hi => ?_
      have : i ≠ cur := fun h => hx (h ▸ hi)
      simpa using this
    rw [walk_step hl (.inr rfl)]
    by_cases hxs : xs = []
    · subst hxs
      rw [if_pos rfl]
      congr 2
      unfold scanned
      by_cases hs : cur = stop
      · rw [List.takeWhile_cons_of_neg (by simpa using hs), if_neg fun h => h rfl]
      · rw [List.takeWhile_cons_of_pos (by simpa using hs), List.takeWhile_nil]
        split <;> rfl
    rw [if_neg hxs]
    by_cases hsel : selected want t [cur] = []
    -- nothing found in the first node
    · rw [hsel, List.foldl_nil, ih hl.2.2 hxs (by simpa using hf) hid' hnd]
      congr 2
      have hskip : ∀ l, selected want t (cur :: l) = selected want t l := fun l => by
        rw [selected_cons, hsel, List.nil_append]
      unfold scanned
      by_cases hs : cur = stop
      · rw [List.takeWhile_cons_of_neg (by simpa using hs), hbeyond hs, ite_self, if_neg fun h => h rfl, hskip]
      · rw [List.takeWhile_cons_of_pos (by simpa using hs), hskip]
        split
        · rw [hskip]
        · rw [hskip]
    -- something found
    · rw [walk_found hl.2.2 hxs (by simpa using hf) hid' fun h => hsel ((foldl_merge_none _ _).mp h).1,
        ← List.foldl_append, ← selected_cons]
      congr 2
      unfold scanned
      by_cases hs : cur = stop
      · rw [List.takeWhile_cons_of_neg (by simpa using hs), hbeyond hs, if_neg fun h => h rfl]
      · rw [List.takeWhile_cons_of_pos (by simpa using hs), if_pos]
        rw [selected_cons]
        exact fun h => hsel (List.append_eq_nil_iff.mp h).1

end Walk

/-! ### The search -/

/-- The nodes scanned for an interval. -/
def Walked (t : IndexTree) (fromTime toTime : Time) (want : IndexRecord → Bool) (nodes : List Nat) : Prop :=
  ∃ start stop linked, t.findNode fromTime = .ok start ∧ t.findNode toTime = .ok stop ∧
    Linked (fun i => (t.cache i).next) 0 start linked ∧ nodes = scanned want t stop linked

/-- The search for a time ends at a leaf. -/
def EndsAtLeaf (t : IndexTree) (time : Time) : Prop :=
  ∃ leaf, t.findNode time = .ok leaf ∧ (t.cache leaf).isLeaf = true

section
variable {t : IndexTree} {fromTime toTime : Time} {want : IndexRecord → Bool} {nodes nodes' l : List Nat}

theorem Walked.unique (h : Walked t fromTime toTime want nodes) (h' : Walked t fromTime toTime want nodes') :
    nodes = nodes' := by
  obtain ⟨start, stop, linked, hs, he, hl, rfl⟩ := h
  obtain ⟨start', stop', linked', hs', he', hl', rfl⟩ := h'
  obtain rfl : start = start' := Except.ok.inj (hs.symm.trans hs')
  obtain rfl : stop = stop' := Except.ok.inj (he.symm.trans he')
  rw [hl.unique hl']

/-- The node that a search ends at heads a list of links: the rest of the chain, or an
inner root alone. -/
theorem linked_from {ht : Nat → Nat} (hs : BTree.Shape ht 0 t) (hc : BTree.Chain t l) {start : Nat}
    (hm : t.Made start) (hend : (t.cache start).isLeaf = true ∨ start = t.root) :
    ∃ rest, Linked (fun i => (t.cache i).next) 0 start (start :: rest) ∧ (start :: rest).Nodup ∧
      (∀ i, i ∈ start :: rest → t.Made i) ∧
      ((t.cache start).isLeaf = true ∧ start :: rest <:+ l ∨
        (t.cache start).isLeaf = false ∧ start = t.root ∧ rest = []) := by
  cases hl : (t.cache start).isLeaf
  · obtain rfl : start = t.root := by
      rcases hend with h | h
      · rw [hl] at h
        cases h
      · exact h
    refine ⟨[], ⟨rfl, hm.ne_zero, hs.rootNext⟩, List.nodup_singleton _, fun i hi => ?_, .inr ⟨rfl, rfl, rfl⟩⟩
    rw [List.mem_singleton] at hi
    exact hi ▸ hm
  · obtain ⟨xs, ys, rfl⟩ := List.append_of_mem ((hc.leaves start).mpr ⟨hm, hl⟩)
    refine ⟨ys, hc.linked.suffix, (List.nodup_append.mp hc.nodup).2.1, fun i hi => ?_,
      .inl ⟨rfl, List.suffix_append ..⟩⟩
    exact ((hc.leaves i).mp (List.mem_append_right _ hi)).1

/-- Leaves of the chain, or the root alone where the search ends at no leaf. -/
theorem Walked.cases {ht : Nat → Nat} (hs : BTree.Shape ht 0 t) (hc : BTree.Chain t l)
    (h : Walked t fromTime toTime want nodes) :
    (EndsAtLeaf t fromTime ∧ nodes.Sublist l ∧ ∃ start rest, t.findNode fromTime = .ok start ∧ nodes = start :: rest) ∨
      (¬ EndsAtLeaf t fromTime ∧ nodes = [t.root]) := by
  obtain ⟨start, stop, linked, hstart, -, hlinked, rfl⟩ := h
  obtain ⟨i, hi, hm, hend⟩ := hs.findNode_made (by decide) fromTime
  obtain rfl : start = i := Except.ok.inj (hstart.symm.trans hi)
  obtain ⟨rest, hl, -, -, hcase⟩ := linked_from hs hc hm hend
  obtain rfl := hlinked.unique hl
  obtain ⟨rest', hrest⟩ := scanned_cons want t stop start rest
  rcases hcase with ⟨hleaf, hsuf⟩ | ⟨hleaf, rfl, rfl⟩
  · exact .inl ⟨⟨start, hstart, hleaf⟩, (scanned_sublist ..).trans hsuf.sublist, start, rest', hstart, hrest⟩
  · refine .inr ⟨?_, ?_⟩
    · rintro ⟨leaf, hf, htrue⟩
      obtain rfl := Except.ok.inj (hstart.symm.trans hf)
      rw [hleaf] at htrue
      cases htrue
    · have hsub := (scanned_sublist want t stop [t.root]).length_le
      rw [hrest, List.length_cons, List.length_singleton] at hsub
      rw [hrest, List.length_eq_zero_iff.mp (Nat.le_zero.mp (Nat.le_of_succ_le_succ hsub))]

end

/-- A search of an index finds, joined, the wanted records of the nodes it scans; and the
index is flushed by it. -/
theorem Logged.findInIndex {size : Nat} {recs : List IndexRecord} {ix ix' : Index} (h : Logged size recs ix)
    (hf : ix.flush = .ok ix') (ids : List Id) (fromTime toTime : Time) (flag source : Flag) :
    ∃ nodes, Walked ix'.tree fromTime toTime (wanted ids fromTime toTime flag source) nodes ∧
      ix.findInIndex ids fromTime toTime flag source =
        .ok (joined (selected (wanted ids fromTime toTime flag source) ix'.tree nodes), ix') := by
  obtain ⟨ht, kvs, hs, l, hc, -⟩ := (h.flush hf).sound
  obtain ⟨start, hstart, hm, hend⟩ := hs.findNode_made (by decide) fromTime
  obtain ⟨stop, hstop, hmstop, -⟩ := hs.findNode_made (by decide) toTime
  obtain ⟨rest, hl, hnd, hmade, -⟩ := linked_from hs hc hm hend
  have hlen : (start :: rest).length ≤ ix'.tree.cachePos := by
    have hsub := List.subperm_of_subset hnd fun i hi => List.mem_range.mpr (hmade i hi).2
    simpa using hsub.length_le
  have hid : ∀ i, i ∈ stop :: start :: rest → (ix'.tree.cache i).id = i :=
    List.forall_mem_cons.mpr ⟨hs.ident stop hmstop, fun i hi => hs.ident i (hmade i hi)⟩
  obtain ⟨want, hwant⟩ : ∃ want, wanted ids fromTime toTime flag source = want := ⟨_, rfl⟩
  have hwalk := walk_none want [] hl (List.cons_ne_nil _ _) hlen hid hnd
  rw [hwant]
  refine ⟨_, ⟨start, stop, start :: rest, hstart, hstop, hl, rfl⟩, ?_⟩
  simp only [Index.findInIndex, hf, hstart, hstop, hwant, hwalk, bind, Except.bind, joined]

/-- What a node of the tree holds was written to the index, and the leaves hold all of it. -/
theorem Logged.records {size : Nat} {recs : List IndexRecord} {ix : Index} (h : Logged size recs ix)
    (hnone : ix.cache = []) : ∃ ht l, BTree.Shape ht 0 ix.tree ∧ BTree.Chain ix.tree l ∧
      ((ix.tree.records l).map Prod.snd).Perm recs ∧
      ∀ r, r ∈ (ix.tree.records [ix.tree.root]).map Prod.snd → r ∈ recs := by
  obtain ⟨done, ht, hr⟩ := h
  rw [hnone, List.append_nil] at hr
  subst hr
  have hinit : BTree.Shape (fun _ => 0) 0 (BTree.init size : IndexTree) := BTree.Shape.init size (by decide)
  obtain ⟨⟨ht', hs⟩, l, hc, hp⟩ := BTree.insertAll_holds (by decide) hinit (BTree.Holds.init size) ht
  have hcopied := BTree.insertAll_copied (by decide) hinit (BTree.Copied.init size) ht
  rw [List.nil_append] at hp hcopied
  have hkeyed : (keyed done).map Prod.snd = done := by simp [keyed, Function.comp_def]
  refine ⟨ht', l, hs, hc, ?_, fun r hmem => ?_⟩
  · have := hp.map Prod.snd
    rwa [hkeyed] at this
  · obtain ⟨kv, hkv, rfl⟩ := List.mem_map.mp hmem
    have hlive : kv ∈ (ix.tree.cache ix.tree.root).live := by simpa [BTree.records] using hkv
    rw [← hkeyed]
    exact List.mem_map_of_mem (hcopied _ hs.root kv hlive)

end Index
end Nkvdb
