import Nkvdb.Page.Agrees

/-! What the reader of an interval puts out, by where it comes from.

From slots of a window come those of the page's own, where the interval begins behind the page, and those of the
window handed to the reader for which the page finds nothing older. What the page has itself is what
`backwardRead` keeps, from before the interval, and what is let through of the ranges, from within it. Both are
told from the page as it is opened: its header, its window, its values and the tree of its index. -/
namespace Nkvdb.Page
open Index PageReaderInterval

section
variable (q : PageReader) (fromTime toTime : Time) (p : Page)

/-- The positions searched for the interval: all of the page where the interval covers it, else those of the records
that the search comes by. -/
noncomputable def searchedPositions : List Nat :=
  if fromTime ≤ p.header.minTime ∧ p.header.maxTime ≤ toTime then List.range p.header.writePos
  else Index.positions (comeBy (wanted q.ids fromTime toTime q.flag q.source) fromTime toTime p.index.tree)

/-- The positions gone over for the values at the beginning, the last one first: all of the page where the interval
begins with it, else those of the records that the search up to the end of the page comes by. -/
noncomputable def positionsBefore : List Nat :=
  (if fromTime = p.header.minTime then List.range p.header.writePos
    else Index.positions (comeBy (wanted q.ids fromTime p.header.maxTime q.flag q.source) fromTime p.header.maxTime
      p.index.tree)).reverse

/-- The interval begins on the page, and there is something of it to search. -/
def Begun : Prop :=
  p.header.minTime ≤ fromTime ∧ fromTime ≤ p.header.maxTime ∧ searchedPositions q fromTime toTime p ≠ []

open Classical in
/-- What the page has of the times before the interval. -/
noncomputable def keptValues : List Meas :=
  if Begun q fromTime toTime p then
    visitAll (backwardCheck q.ids q.source q.flag) fromTime ((positionsBefore q fromTime p).map p.valueAt) []
  else []

/-- The positions of the interval that are let through. -/
noncomputable def shownPositions : List Nat :=
  if p.header.maxTime < fromTime then []
  else (searchedPositions q fromTime toTime p).filter fun i =>
    inInterval fromTime toTime (p.valueAt i).time && q.checkValueFlags (p.valueAt i)

open Classical in
/-- The slots of windows that are put out. -/
noncomputable def slotsOut : List Meas :=
  if p.header.maxTime < fromTime then p.writeWindow.filter q.checkValueFlags
  else if Begun q fromTime toTime p then
    q.prevWw.filter fun m =>
      m.time != 0 && !((keptValues q fromTime toTime p).any fun v => v.id == m.id) && q.checkValueFlags m
  else []

/-- What the page puts out itself. -/
noncomputable def ownOut : List Meas :=
  keptValues q fromTime toTime p ++ (shownPositions q fromTime toTime p).map p.valueAt

/-- What lies at the positions that can be read. -/
def values : List Meas := (List.range p.header.writePos).filterMap fun i => (p.readAt i).toOption

end

section
variable {fsize : U64} {log : List Meas} {recs : List IndexRecord} {q : PageReader} {fromTime toTime : Time}
  {p p' : Page} {ranges irecords : List (Nat × Nat)} {fuel : Nat} {out : List Meas}

/-- A search of a page with no record buffered joins what it comes by, and leaves the page as it is. -/
theorem Posted.findInIndex_eq (h : Posted fsize log recs p) (hnil : p.index.cache = []) {ids : List Id}
    {source flag : Flag} {found : List IndexRecord} {ix : Index}
    (hfind : p.index.findInIndex ids fromTime toTime flag source = .ok (found, ix)) :
    ix = p.index ∧ Index.positions found =
        Index.positions (comeBy (wanted ids fromTime toTime flag source) fromTime toTime p.index.tree) ∧
      ∀ r, r ∈ found → 0 < r.count := by
  have hf : p.index.flush = .ok p.index := if_pos hnil
  obtain ⟨nodes, hw, hfound⟩ := h.logged.findInIndex hf ids fromTime toTime flag source
  obtain ⟨rfl, rfl⟩ := Prod.mk.inj (Except.ok.inj (hfind.symm.trans hfound))
  refine ⟨rfl, ?_, fun r hr => (h.joined hf hw hr).1⟩
  rw [positions_joined, h.logged.selected_eq hf h.nodup hw]

/-- The ranges of an interval are the positions searched for it. -/
theorem Posted.intervalRanges_positions (h : Posted fsize log recs p) (hnil : p.index.cache = [])
    (hpos : 0 < p.header.writePos) (hr : p.intervalRanges q.ids q.source q.flag fromTime toTime = .ok (ranges, p')) :
    p' = p ∧ rangePositions ranges = searchedPositions q fromTime toTime p ∧
      (ranges ≠ [] ↔ searchedPositions q fromTime toTime p ≠ []) := by
  unfold intervalRanges at hr
  unfold searchedPositions
  split at hr
  next hwhole =>
    obtain ⟨rfl, rfl⟩ := Prod.mk.inj (Except.ok.inj hr)
    have hall : rangePositions [(0, p.header.writePos)] = List.range p.header.writePos := by
      rw [List.range_eq_range']
      exact List.append_nil _
    rw [if_pos hwhole, ← hall]
    refine ⟨rfl, rfl, iff_of_true (List.cons_ne_nil _ _) ?_⟩
    rw [hall]
    exact fun hnone => hpos.ne' (List.range_eq_nil.mp hnone)
  next hpart =>
    obtain ⟨⟨found, ix⟩, hfind, hr⟩ := bind_ok hr
    obtain ⟨rfl, rfl⟩ := Prod.mk.inj (Except.ok.inj hr)
    obtain ⟨rfl, hpositions, hsome⟩ := h.findInIndex_eq hnil hfind
    rw [if_neg hpart, ← hpositions, rangePositions_records]
    refine ⟨rfl, rfl, ?_⟩
    cases found with
    | nil => exact iff_of_false (fun h => h rfl) fun h => h rfl
    | cons r found =>
      have hr := hsome r List.mem_cons_self
      refine iff_of_true (List.cons_ne_nil _ _) (List.ne_nil_of_mem (a := r.pos) ?_)
      exact List.mem_flatMap.mpr ⟨r, List.mem_cons_self, List.mem_range'_1.mpr ⟨le_rfl, Nat.lt_add_of_pos_right hr⟩⟩

/-- And the ranges gone over backwards those that the values at the beginning are looked for in. -/
theorem Posted.backwardRanges_positions (h : Posted fsize log recs p) (hnil : p.index.cache = [])
    (hr : p.backwardRanges q.ids q.source q.flag fromTime = .ok (irecords, p')) :
    backwardPositions irecords = positionsBefore q fromTime p := by
  unfold backwardRanges at hr
  unfold positionsBefore
  split at hr
  next he =>
    obtain ⟨rfl, -⟩ := Prod.mk.inj (Except.ok.inj hr)
    rw [if_pos he, List.range_eq_range']
    exact List.append_nil _
  next hne =>
    obtain ⟨⟨found, ix⟩, hfind, hr⟩ := bind_ok hr
    obtain ⟨rfl, -⟩ := Prod.mk.inj (Except.ok.inj hr)
    obtain ⟨-, hpositions, -⟩ := h.findInIndex_eq hnil hfind
    rw [if_neg hne, ← hpositions]
    unfold backwardPositions Index.positions
    rw [List.reverse_flatMap, List.flatMap_map]
    rfl

/-- The values that come first, of a page that was searched. -/
theorem Posted.timePointRead_parts (h : Posted fsize log recs p) (hnil : p.index.cache = [])
    (hpos : 0 < p.header.writePos) {first : List Meas} (hbegun : Begun q fromTime toTime p)
    (hread : q.timePointRead fromTime p = .ok (first, p')) :
    first = slotsOut q fromTime toTime p ++ keptValues q fromTime toTime p ∧
      ∀ i, i ∈ positionsBefore q fromTime p → i < p.header.writePos ∧ p.Readable i := by
  have hmax : fromTime ≤ p.header.maxTime := hbegun.2.1
  rw [PageReader.timePointRead_back hmax] at hread
  obtain ⟨⟨found, p₁⟩, hback, hread⟩ := bind_ok hread
  obtain ⟨rfl, rfl⟩ := Prod.mk.inj (Except.ok.inj hread)
  obtain ⟨irecords, hranges, -, hlegible, rfl⟩ := backwardRead_iff.mp hback
  have hin := h.backwardRanges_in hpos hranges
  have hbefore := h.backwardRanges_positions hnil hranges
  have hkept : keptValues q fromTime toTime p = _ := if_pos hbegun
  unfold slotsOut
  rw [if_neg (not_lt.mpr hmax), if_pos hbegun, hkept, ← hbefore]
  refine ⟨rfl, fun i hi => ⟨?_, hlegible i hi⟩⟩
  obtain ⟨x, hx, -, hlt⟩ := mem_backwardPositions.mp hi
  have := (hin x hx).2
  omega

/-- What the page has itself lies at its positions: what it has of the times before the interval once for an id, and
no position of the interval twice where the way down the index is settled. -/
structure OwnRead (q : PageReader) (fromTime toTime : Time) (p : Page) : Prop where
  positions : ∀ i, i ∈ shownPositions q fromTime toTime p → i < p.header.writePos ∧ p.Readable i
  older : ∀ v, v ∈ keptValues q fromTime toTime p → v.time < fromTime ∧ ∃ i, i < p.header.writePos ∧ p.Readable i ∧
    p.valueAt i = v
  keys : (keptValues q fromTime toTime p).Pairwise fun a b => a.id < b.id
  apart : Settled p.index.tree fromTime → (shownPositions q fromTime toTime p).Nodup

/-- A settled search comes by each position once. -/
theorem Posted.shownPositions_nodup (h : Posted fsize log recs p) (hnil : p.index.cache = [])
    (hs : Settled p.index.tree fromTime) : (shownPositions q fromTime toTime p).Nodup := by
  have hsearched : (searchedPositions q fromTime toTime p).Nodup := by
    unfold searchedPositions
    split
    · exact List.nodup_range
    · obtain ⟨ht, l, hshape, hc, hp, -⟩ := h.logged.records hnil
      have hrange : (recs.flatMap IndexRecord.positions).Nodup := by
        rw [show recs.flatMap IndexRecord.positions = _ from h.positions]
        exact List.nodup_range
      rw [← leafRecords_eq hc] at hp
      unfold comeBy
      rw [if_pos hs]
      exact (List.filter_sublist.flatMap _).nodup ((hp.flatMap_right IndexRecord.positions).nodup_iff.mpr hrange)
  unfold shownPositions
  split
  · exact .nil
  · exact hsearched.filter _

/-- What is kept of positions that can be read lies at these, once for an id. -/
theorem keptValues_read (hbegun : Begun q fromTime toTime p)
    (hbefore : ∀ i, i ∈ positionsBefore q fromTime p → i < p.header.writePos ∧ p.Readable i) :
    (∀ v, v ∈ keptValues q fromTime toTime p → v.time < fromTime ∧ ∃ i, i < p.header.writePos ∧ p.Readable i ∧
      p.valueAt i = v) ∧ (keptValues q fromTime toTime p).Pairwise fun a b => a.id < b.id := by
  have hkept : keptValues q fromTime toTime p = _ := if_pos hbegun
  rw [hkept]
  refine ⟨fun v hv => ?_, visitAll_keys _ _ _ .nil⟩
  obtain ⟨hseen, hlt⟩ := seen_of_mem hv
  obtain ⟨i, hi, rfl⟩ := List.mem_map.mp hseen
  obtain ⟨hin, hread⟩ := hbefore i hi
  exact ⟨hlt, i, hin, hread, rfl⟩

/-- What the reader of the ranges lets through of them. -/
theorem shownPositions_eq (hmax : fromTime ≤ p.header.maxTime)
    (hpositions : rangePositions ranges = searchedPositions q fromTime toTime p) :
    ((rangePositions ranges).map p.valueAt).filter (ofRanges q fromTime toTime ranges).passes =
      (shownPositions q fromTime toTime p).map p.valueAt := by
  have hpasses : (ofRanges q fromTime toTime ranges).passes = fun m =>
      inInterval fromTime toTime m.time && q.checkValueFlags m := by
    rw [ofRanges_eq]
    rfl
  unfold shownPositions
  rw [hpasses, List.filter_map, hpositions, if_neg (not_lt.mpr hmax)]
  rfl

/-- In all, slots come first and then what the page has itself. -/
theorem Posted.readAll_parts (h : Posted fsize log recs p) (hnil : p.index.cache = []) (hpos : 0 < p.header.writePos)
    (hmax : fromTime ≤ p.header.maxTime) {p'' : Page}
    (hr : p.intervalRanges q.ids q.source q.flag fromTime toTime = .ok (ranges, p'))
    (hread : (ofRanges q fromTime toTime ranges).readAllBy readSize fuel p' = .ok (out, p'')) :
    out = slotsOut q fromTime toTime p ++ ownOut q fromTime toTime p ∧ OwnRead q fromTime toTime p := by
  obtain ⟨-, -, hranges⟩ := h.intervalRanges_in hr
  obtain ⟨rfl, hpositions, hsome⟩ := h.intervalRanges_positions hnil hpos hr
  have hs : (ofRanges q fromTime toTime ranges).Sound p' := ofRanges_sound hmax hranges h.areas.short
  have hmore := readAll_more hread (le_max_left fuel ((ofRanges q fromTime toTime ranges).work + 1))
  obtain ⟨hall, first, p₁, hdue, hnone, heq⟩ := (ofRanges_readAll_iff hs hs.steps
    (Nat.lt_of_succ_le (le_max_right fuel _))).mp hmore
  obtain ⟨rfl, -⟩ := Prod.mk.inj heq
  rw [shownPositions_eq hmax hpositions]
  have hshown : ∀ i, i ∈ shownPositions q fromTime toTime p' → i < p'.header.writePos ∧ p'.Readable i := by
    intro i hi
    unfold shownPositions at hi
    rw [if_neg (not_lt.mpr hmax), ← hpositions] at hi
    have hi := List.mem_of_mem_filter hi
    refine ⟨?_, hall i hi⟩
    obtain ⟨x, hx, hi⟩ := List.mem_flatMap.mp hi
    have := hranges x hx
    have := List.mem_range'_1.mp hi
    omega
  have hbegun : Begun q fromTime toTime p' ↔ PointDue p' fromTime ranges :=
    and_congr_right fun _ => (and_iff_right hmax).trans hsome.symm
  by_cases d : Begun q fromTime toTime p'
  · obtain ⟨rfl, hbefore⟩ := h.timePointRead_parts hnil hpos d (hdue (hbegun.mp d))
    obtain ⟨holder, hkeys⟩ := keptValues_read d hbefore
    exact ⟨List.append_assoc .., hshown, holder, hkeys, h.shownPositions_nodup hnil⟩
  · obtain ⟨rfl, -⟩ := hnone (mt hbegun.mpr d)
    have hkept : keptValues q fromTime toTime p' = [] := if_neg d
    refine ⟨?_, hshown, ?_, ?_, h.shownPositions_nodup hnil⟩
    · unfold slotsOut ownOut
      rw [if_neg (not_lt.mpr hmax), if_neg d, hkept]
      rfl
    · rw [hkept]
      exact fun v hv => absurd hv List.not_mem_nil
    · rw [hkept]
      exact .nil

/-- Where the interval begins behind the page its window is put out, and the page has nothing itself. -/
theorem parts_behind (hmax : p.header.maxTime < fromTime) :
    p.writeWindow.filter q.checkValueFlags = slotsOut q fromTime toTime p ++ ownOut q fromTime toTime p ∧
      OwnRead q fromTime toTime p := by
  have hkept : keptValues q fromTime toTime p = [] := if_neg fun h => not_le.mpr hmax h.2.1
  have hshown : shownPositions q fromTime toTime p = [] := if_pos hmax
  refine ⟨?_, fun i hi => ?_, fun v hv => ?_, ?_, fun _ => ?_⟩
  · unfold slotsOut ownOut
    rw [if_pos hmax, hkept, hshown]
    exact (List.append_nil _).symm
  · rw [hshown] at hi
    cases hi
  · rw [hkept] at hv
    cases hv
  · rw [hkept]
    exact .nil
  · rw [hshown]
    exact .nil

/-- Positions of the values kept, one for each. -/
theorem OwnRead.keptPositions (h : OwnRead q fromTime toTime p) : ∃ D : List Nat, D.Nodup ∧
    (∀ i, i ∈ D → i < p.header.writePos ∧ p.Readable i) ∧ D.map p.valueAt = keptValues q fromTime toTime p := by
  have hall : ∀ v, v ∈ keptValues q fromTime toTime p →
      ∃ i, (i < p.header.writePos ∧ p.Readable i) ∧ p.valueAt i = v := by
    intro v hv
    obtain ⟨-, i, hi, hread, he⟩ := h.older v hv
    exact ⟨i, ⟨hi, hread⟩, he⟩
  choose! f hf using hall
  have hvalues : ((keptValues q fromTime toTime p).map f).map p.valueAt = keptValues q fromTime toTime p := by
    rw [List.map_map]
    exact (List.map_congr_left fun v hv => (hf v hv).2).trans (List.map_id _)
  refine ⟨(keptValues q fromTime toTime p).map f, ?_, ?_, hvalues⟩
  · -- the ids of the values differ
    refine List.Nodup.of_map (fun i => (p.valueAt i).id) ?_
    have hids : ((keptValues q fromTime toTime p).map Meas.id).Nodup :=
      List.pairwise_map.mpr (h.keys.imp fun hlt => hlt.ne)
    rwa [← hvalues, List.map_map] at hids
  · rw [List.forall_mem_map]
    exact fun v hv => (hf v hv).1

theorem shownPositions_time {i : Nat} (hi : i ∈ shownPositions q fromTime toTime p) : fromTime ≤ (p.valueAt i).time := by
  unfold shownPositions at hi
  split at hi
  · cases hi
  · have hin := (Bool.and_eq_true_iff.mp (List.mem_filter.mp hi).2).1
    exact of_decide_eq_true (Bool.and_eq_true_iff.mp hin).1

/-- What the page has itself, of positions no two of which are the same, is part of what it holds. -/
theorem OwnRead.subperm (h : OwnRead q fromTime toTime p) (hnodup : (shownPositions q fromTime toTime p).Nodup) :
    (ownOut q fromTime toTime p).Subperm (values p) := by
  unfold ownOut
  obtain ⟨D, hnodupD, hD, hkept⟩ := h.keptPositions
  have happ : (D ++ shownPositions q fromTime toTime p).Nodup := by
    refine List.nodup_append.mpr ⟨hnodupD, hnodup, fun i hi j hj heq => ?_⟩
    have hbefore := (h.older (p.valueAt i) (hkept ▸ List.mem_map_of_mem hi)).1
    rw [heq] at hbefore
    exact absurd (shownPositions_time hj) (not_le.mpr hbefore)
  have hin : ∀ i, i ∈ D ++ shownPositions q fromTime toTime p → i < p.header.writePos ∧ p.Readable i := by
    intro i hi
    rcases List.mem_append.mp hi with hi | hi
    · exact hD i hi
    · exact h.positions i hi
  have hvalues : (D ++ shownPositions q fromTime toTime p).filterMap (fun i => (p.readAt i).toOption) =
      (D ++ shownPositions q fromTime toTime p).map p.valueAt := by
    rw [← List.filterMap_eq_map]
    refine List.filterMap_congr fun i hi => ?_
    rw [(hin i hi).2]
    rfl
  rw [← hkept, ← List.map_append, ← hvalues]
  obtain ⟨l, hperm, hsub⟩ := List.subperm_of_subset happ fun i hi => List.mem_range.mpr (hin i hi).1
  exact ⟨_, hperm.filterMap _, hsub.filterMap _⟩

end
end Nkvdb.Page
