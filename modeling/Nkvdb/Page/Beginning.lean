import Nkvdb.BTree.Sequence
import Nkvdb.Page.Chunks
import Nkvdb.Page.TimePoint

/-! What the reader of an interval gives of the times before it.

Behind the page that is the window, all of it. On the page the values at the beginning are read with
the first call of `readNext`, and there is one only if the search for the interval came by a record:
by one that it overlaps (`Posted.selected_iff`). -/
namespace Nkvdb.Page
open Index

/-! ### The search for an interval -/

theorem Counts.le {log : List Meas} {r : IndexRecord} (h : Counts log r) (hi : Increasing log) :
    r.minTime ≤ r.maxTime := by
  have hpos := h.nonempty
  have hin := h.inside
  rw [h.minTime, h.maxTime, hi.le_iff (by omega) (by omega)]
  omega

/-- A record overlaps an interval if it begins by its end, and does not end before its beginning. -/
theorem overlaps_iff {r : IndexRecord} {fromTime toTime : Time} (hr : r.minTime ≤ r.maxTime) (hq : fromTime ≤ toTime) :
    overlaps fromTime toTime r = true ↔ r.minTime ≤ toTime ∧ fromTime ≤ r.maxTime := by
  simp only [overlaps, checkInterval, inInterval, Bool.or_eq_true, Bool.and_eq_true, decide_eq_true_eq]
  constructor
  · rintro (((⟨hfrom, hto⟩ | ⟨hfrom, hto⟩) | ⟨hmin, hmax⟩) | ⟨hmin, hmax⟩)
    · exact ⟨hto, hfrom.trans hr⟩
    · exact ⟨hr.trans hto, hfrom⟩
    · exact ⟨hmin.trans hq, hmax⟩
    · exact ⟨hmin.trans hq, hmax⟩
  · rintro ⟨hto, hfrom⟩
    rcases le_total fromTime r.minTime with hle | hle
    · exact .inl (.inl (.inl ⟨hle, hto⟩))
    · exact .inr ⟨hle, hfrom⟩

theorem joined_eq_nil {rs : List IndexRecord} : joined rs = [] ↔ rs = [] := by
  constructor
  · intro h
    obtain ⟨-, hprev⟩ := List.append_eq_nil_iff.mp h
    have hnone : (rs.foldl merge ([], none)).2 = none := by
      cases hfound : (rs.foldl merge ([], none)).2 with
      | none => rfl
      | some r =>
        rw [hfound] at hprev
        cases hprev
    exact ((foldl_merge_none rs ([], none)).mp hnone).1
  · rintro rfl
    rfl

/-- What the nodes linked hold of the records wanted is not missed altogether by those scanned. -/
theorem selected_scanned {want : IndexRecord → Bool} {t : IndexTree} {stop : Nat} {linked : List Nat}
    (h : selected want t linked ≠ []) : selected want t (scanned want t stop linked) ≠ [] := by
  unfold scanned
  by_cases hfound : selected want t (linked.takeWhile (· ≠ stop)) ≠ []
  · rwa [if_pos hfound]
  · rwa [if_neg hfound]

section Posted
variable {fsize : U64} {log : List Meas} {recs : List IndexRecord} {p : Page} {ix : Index} {fromTime toTime : Time}
  {nodes : List Nat}

/-- A measurement lies in the times of a record that counts it. -/
theorem Posted.counted (h : Posted fsize log recs p) (hi : Increasing log) {m : Meas} (hm : m ∈ log) :
    ∃ r, r ∈ recs ∧ r.minTime ≤ m.time ∧ m.time ≤ r.maxTime := by
  obtain ⟨i, hlt, rfl⟩ := List.getElem_of_mem hm
  have hpos : i ∈ Index.positions recs := by rwa [h.positions, List.mem_range]
  obtain ⟨r, hr, hfirst, hlast⟩ := Index.mem_positions.mp hpos
  have hcr := h.counts r hr
  have hin := hcr.inside
  refine ⟨r, hr, ?_, ?_⟩
  · rw [hcr.minTime, ← nth_eq hlt, hi.le_iff (by omega) hlt]
    exact hfirst
  · rw [hcr.maxTime, ← nth_eq hlt, hi.le_iff hlt (by omega)]
    omega

/-- From the leaf where the search starts the links lead to every record that begins with the interval or
later. -/
theorem Posted.linked_holds (h : Posted fsize log recs p) (hi : Increasing log) (hf : p.index.flush = .ok ix)
    {start : Nat} {linked : List Nat} (hstart : ix.tree.findNode fromTime = .ok start)
    (hlinked : Linked (fun i => (ix.tree.cache i).next) 0 start linked) {r : IndexRecord} (hr : r ∈ recs)
    (hmin : fromTime ≤ r.minTime) : r ∈ (ix.tree.records linked).map Prod.snd := by
  have hd : ((keyed recs).map Prod.fst).Nodup := by
    rw [show (keyed recs).map Prod.fst = recs.map IndexRecord.minTime from List.map_map]
    exact minTimes_nodup h.positions h.counts hi.times
  obtain ⟨ht, lo, hi', l, hs, ho, hc, hp⟩ := BTree.insertAll_leaves (by decide) _ hd (h.logged.flush_ok hf).1
  obtain ⟨leaf, l', hleaf, hl, -, hperm⟩ := ho.arranged.findNode_holds hs (by decide) hc hp fromTime
  obtain rfl : start = leaf := Except.ok.inj (hstart.symm.trans hleaf)
  obtain rfl := hlinked.unique hl.linked
  have hkeyed : (r.minTime, r) ∈ (keyed recs).filter fun kv => decide (fromTime ≤ kv.1) :=
    List.mem_filter.mpr ⟨List.mem_map_of_mem hr, decide_eq_true hmin⟩
  exact List.mem_map_of_mem (List.mem_of_mem_filter (hperm.mem_iff.mpr hkeyed))

/-- The search for an interval comes by a record if and only if there is one that it overlaps. -/
theorem Posted.selected_iff (h : Posted fsize log recs p) (hi : Increasing log) (hf : p.index.flush = .ok ix)
    (hq : fromTime ≤ toTime) (hw : Walked ix.tree fromTime toTime (overlaps fromTime toTime) nodes) :
    Index.selected (overlaps fromTime toTime) ix.tree nodes ≠ [] ↔
      ∃ r, r ∈ recs ∧ r.minTime ≤ toTime ∧ fromTime ≤ r.maxTime := by
  have hwant : ∀ r, r ∈ recs → (overlaps fromTime toTime r = true ↔ r.minTime ≤ toTime ∧ fromTime ≤ r.maxTime) :=
    fun r hr => overlaps_iff ((h.counts r hr).le hi) hq
  constructor
  · intro hne
    obtain ⟨r, hsel⟩ := List.exists_mem_of_ne_nil _ hne
    have hr := h.selected hf hw hsel
    exact ⟨r, hr, (hwant r hr).mp (List.mem_filter.mp hsel).2⟩
  · rintro ⟨r, hr, hto, hfrom⟩
    have hover := (hwant r hr).mpr ⟨hto, hfrom⟩
    by_cases hmin : r.minTime < fromTime
    · exact List.ne_nil_of_mem (h.starts hi hf hr hmin hfrom hw hover)
    · obtain ⟨start, stop, linked, hstart, -, hlinked, rfl⟩ := hw
      refine selected_scanned (List.ne_nil_of_mem (a := r) (List.mem_filter.mpr ⟨?_, hover⟩))
      exact h.linked_holds hi hf hstart hlinked hr (not_lt.mp hmin)

/-! ### The ranges of an interval -/

/-- The ranges of the reader of an interval, of a page whose index is flushed: there are some if and only if
a record overlaps the interval. -/
theorem Posted.readInterval_ranges (h : Posted fsize log recs p) (hi : Increasing log) (hne : log ≠ [])
    (hf : p.index.flush = .ok p.index) (hq : fromTime ≤ toTime) (hmax : fromTime ≤ p.header.maxTime)
    (hmins : ∀ m, m ∈ log → p.header.minTime ≤ m.time) (hmaxs : ∀ m, m ∈ log → m.time ≤ p.header.maxTime) :
    ∃ ranges, p.readInterval [] 0 0 fromTime toTime =
        .ok (some (PageReaderInterval.ofRanges ⟨[], 0, 0, []⟩ fromTime toTime ranges), p) ∧
      (∀ x, x ∈ ranges → x.1 ≤ x.2 ∧ x.2 ≤ p.header.writePos) ∧
      (ranges ≠ [] ↔ ∃ r, r ∈ recs ∧ r.minTime ≤ toTime ∧ fromTime ≤ r.maxTime) := by
  have hpos : 0 < p.header.writePos := h.areas.writePos ▸ List.length_pos_iff.mpr hne
  by_cases hwhole : fromTime ≤ p.header.minTime ∧ p.header.maxTime ≤ toTime
  · -- the page is read whole, and all its records overlap
    refine ⟨[(0, p.header.writePos)], ?_, fun x hx => ?_, ?_⟩
    · unfold readInterval
      rw [if_neg hpos.ne', if_neg (not_lt.mpr hmax), if_pos hwhole, if_pos ⟨rfl, rfl, rfl⟩, readAll, if_neg hpos.ne']
      rfl
    · obtain rfl := List.mem_singleton.mp hx
      exact ⟨Nat.zero_le _, le_rfl⟩
    · refine iff_of_true (List.cons_ne_nil _ _) ?_
      obtain ⟨m, hm⟩ := List.exists_mem_of_ne_nil _ hne
      obtain ⟨r, hr, hle, hge⟩ := h.counted hi hm
      exact ⟨r, hr, hle.trans ((hmaxs m hm).trans hwhole.2), hwhole.1.trans ((hmins m hm).trans hge)⟩
  · obtain ⟨nodes, hw, hfind⟩ := h.logged.findInIndex hf [] fromTime toTime 0 0
    rw [wanted_none] at hw hfind
    obtain ⟨rs, hrs⟩ : ∃ rs, Index.joined (Index.selected (overlaps fromTime toTime) p.index.tree nodes) = rs :=
      ⟨_, rfl⟩
    rw [hrs] at hfind
    refine ⟨rs.map fun r => (r.pos, r.pos + r.count), ?_, fun x hx => ?_, ?_⟩
    · unfold readInterval
      rw [if_neg hpos.ne', if_neg (not_lt.mpr hmax), if_neg hwhole, PageReaderInterval.ofRanges_eq]
      simp only [hfind, bind, Except.bind, pure, Except.pure, foldl_addReadPos]
      rfl
    · obtain ⟨r, hr, rfl⟩ := List.mem_map.mp hx
      exact ⟨Nat.le_add_right .., (h.joined hf hw (hrs ▸ hr)).2⟩
    · rw [← h.selected_iff hi hf hq hw, ne_eq, List.map_eq_nil_iff, ← hrs, joined_eq_nil]

end Posted

/-! ### What is delivered -/

/-- The reader of an interval of the page, with the window of the page before, delivers `out`. -/
def IntervalDelivers (size : U64) (fromTime toTime : Time) (w : WriteWindow) (p : Page) (out : List Meas) : Prop :=
  ∃ r p', p.readInterval [] 0 0 fromTime toTime = .ok (some r, p') ∧
    ∃ fuel p'', ({r with prevWw := w} : PageReaderInterval).readAllBy size fuel p' = .ok (out, p'')

/-- What is taken over from the window of the page before: the newest of the ids that are not on the page. -/
def takenOver (w : WriteWindow) (vs : List Meas) : List Meas :=
  w.filter fun m => m.time != 0 && !vs.any fun v => v.id == m.id

theorem takenOver_eq_nil {w : WriteWindow} {vs : List Meas} :
    takenOver w vs = [] ↔ ∀ m, m ∈ w → m.time ≠ 0 → ∃ v, v ∈ vs ∧ v.id = m.id := by
  unfold takenOver
  rw [List.filter_eq_nil_iff]
  simp

@[simp] theorem takenOver_nil (vs : List Meas) : takenOver [] vs = [] := rfl

/-- What is delivered of the times before the interval. -/
def statePart (fromTime : Time) (out : List Meas) : List Meas := out.filter fun m => decide (m.time < fromTime)

theorem statePart_append (fromTime : Time) (a b : List Meas) :
    statePart fromTime (a ++ b) = statePart fromTime a ++ statePart fromTime b := List.filter_append ..

theorem statePart_flatten (fromTime : Time) (outs : List (List Meas)) :
    statePart fromTime outs.flatten = (outs.map (statePart fromTime)).flatten := by
  unfold statePart
  rw [List.filter_flatten]

theorem statePart_self {fromTime : Time} {out : List Meas} (h : ∀ m, m ∈ out → m.time < fromTime) :
    statePart fromTime out = out := List.filter_eq_self.mpr fun m hm => decide_eq_true (h m hm)

theorem statePart_eq_nil {fromTime : Time} {out : List Meas} (h : ∀ m, m ∈ out → fromTime ≤ m.time) :
    statePart fromTime out = [] := List.filter_eq_nil_iff.mpr fun m hm => by simp [h m hm]

section
variable {size : U64} {fromTime toTime tp : Time} {w : WriteWindow} {p p' : Page} {vs : List Meas}

theorem takenOver_lt (h : ∀ m, m ∈ w → m.time < tp) : ∀ m, m ∈ takenOver w vs → m.time < tp := fun m hm =>
  h m (List.mem_of_mem_filter hm)

/-- On the page a reader at a time point gives what is taken over and what `backwardRead` finds. -/
theorem timePointRead_within (htp : tp ≤ p.header.maxTime) (hback : p.backwardRead [] 0 0 tp = .ok (vs, p'))
    (w : WriteWindow) : (⟨[], 0, 0, w⟩ : PageReader).timePointRead tp p = .ok (takenOver w vs ++ vs, p') := by
  rw [PageReader.timePointRead_back htp, hback]
  simp [PageReader.checkValueFlags, takenOver, bind, Except.bind]

/-- The reader of the window, which was read or not. -/
def windowReader (w : WriteWindow) (fromTime toTime : Time) (readEnd : Bool) : PageReaderInterval :=
  ⟨⟨[], 0, 0, w⟩, fromTime, toTime, true, [], 0, 0, readEnd, false⟩

@[simp] theorem windowReader_isEnd (readEnd : Bool) : (windowReader w fromTime toTime readEnd).isEnd = readEnd := rfl

theorem windowReader_readNext (hmax : p.header.maxTime < fromTime) :
    (windowReader w fromTime toTime false).readNextBy size p =
      .ok (p.writeWindow, windowReader w fromTime toTime true, p) := by
  have hbehind : p.header.maxTime < (windowReader w fromTime toTime false).fromTime := hmax
  have hall : p.writeWindow.filter (windowReader w fromTime toTime false).checkValueFlags = p.writeWindow := by
    refine List.filter_eq_self.mpr fun m _ => ?_
    simp [windowReader, PageReader.checkValueFlags]
  unfold PageReaderInterval.readNextBy
  rw [windowReader_isEnd, if_neg Bool.false_ne_true, if_pos hbehind, hall]
  rfl

/-- Behind the page its window is delivered, with what stands in it for ids that were not written. -/
theorem IntervalDelivers.behind (hpos : p.header.writePos ≠ 0) (hmax : p.header.maxTime < fromTime) :
    IntervalDelivers size fromTime toTime w p p.writeWindow := by
  have hopen : p.readInterval [] 0 0 fromTime toTime = .ok (some (windowReader [] fromTime toTime false), p) := by
    unfold readInterval
    rw [if_neg hpos, if_pos hmax]
    rfl
  refine ⟨_, p, hopen, 2, p, ?_⟩
  show (windowReader w fromTime toTime false).readAllBy size 2 p = _
  simp [PageReaderInterval.readAllBy, windowReader_readNext hmax, bind, Except.bind, pure, Except.pure]

section Posted
variable {fsize : U64} {log : List Meas} {recs : List IndexRecord} {ranges : List (Nat × Nat)}

open PageReaderInterval

/-- Of ranges the values at the beginning are delivered, if it is on the page, and then what they have of the
interval; without a range nothing is. -/
theorem Posted.delivers_ranges (h : Posted fsize log recs p) (hne : log ≠ []) (hf : p.index.flush = .ok p.index)
    (hread : ReadsBack log p) (hmax : fromTime ≤ p.header.maxTime)
    (hopen : p.readInterval [] 0 0 fromTime toTime = .ok (some (ofRanges ⟨[], 0, 0, []⟩ fromTime toTime ranges), p))
    (hranges : ∀ x, x ∈ ranges → x.1 ≤ x.2 ∧ x.2 ≤ p.header.writePos) (w : WriteWindow) :
    ∃ first p' rest, (PointDue p fromTime ranges →
        (⟨[], 0, 0, w⟩ : PageReader).timePointRead fromTime p = .ok (first, p')) ∧
      (¬ PointDue p fromTime ranges → first = []) ∧ (∀ m, m ∈ rest → fromTime ≤ m.time) ∧
      IntervalDelivers readSize fromTime toTime w p (first ++ rest) := by
  obtain ⟨all, hr, -⟩ := hread.reads h.areas
  have hpos : 0 < p.header.writePos := h.areas.writePos ▸ List.length_pos_iff.mpr hne
  have hreads : ReadsRanges readSize ⟨[], 0, 0, w⟩ fromTime toTime ranges p := by
    refine (ofRanges_reads_iff h hpos (by decide) hmax hranges).mpr
      ⟨ranges_readable hr hranges, fun _ => h.pointLegible hpos hr (.inr ⟨_, hf⟩), fun x hx hlt => ?_⟩
    have hin := (hranges x hx).2
    have hshort := h.areas.short
    show x.1 + 1024 < 2 ^ 64
    omega
  obtain ⟨ms, first, p', steps, -, hdue, hnot, hrun⟩ := hreads
  obtain ⟨rest, hrest⟩ : ∃ rest, ms.filter (ofRanges ⟨[], 0, 0, w⟩ fromTime toTime ranges).passes = rest := ⟨_, rfl⟩
  rw [hrest] at hrun
  refine ⟨first, p', rest, hdue, fun hd => (hnot hd).1, fun m hm => ?_, _, p, hopen, steps, p', ?_⟩
  · rw [← hrest] at hm
    obtain ⟨hin, -⟩ := Bool.and_eq_true_iff.mp (List.mem_filter.mp hm).2
    rw [ofRanges_eq] at hin
    exact of_decide_eq_true (Bool.and_eq_true_iff.mp hin).1
  · rw [← hrun steps le_rfl, ofRanges_eq, ofRanges_eq]

/-- Where no record overlaps the interval nothing is delivered, not even of the page before. -/
theorem Posted.delivers_nothing (h : Posted fsize log recs p) (hi : Increasing log) (hne : log ≠ [])
    (hf : p.index.flush = .ok p.index) (hq : fromTime ≤ toTime) (hmax : fromTime ≤ p.header.maxTime)
    (hmins : ∀ m, m ∈ log → p.header.minTime ≤ m.time) (hmaxs : ∀ m, m ∈ log → m.time ≤ p.header.maxTime)
    (hnone : ¬ ∃ r, r ∈ recs ∧ r.minTime ≤ toTime ∧ fromTime ≤ r.maxTime) (w : WriteWindow) :
    IntervalDelivers size fromTime toTime w p [] := by
  obtain ⟨ranges, hopen, -, hsome⟩ := h.readInterval_ranges hi hne hf hq hmax hmins hmaxs
  obtain rfl := not_not.mp (mt hsome.mp hnone)
  refine ⟨_, p, hopen, 1, p, ?_⟩
  rw [ofRanges_eq]
  rfl

/-- From a page that begins after the query does nothing older is delivered. -/
theorem Posted.statePart_later (h : Posted fsize log recs p) (hi : Increasing log) (hne : log ≠ [])
    (hf : p.index.flush = .ok p.index) (hq : fromTime ≤ toTime) (hmin : fromTime < p.header.minTime)
    (hmins : ∀ m, m ∈ log → p.header.minTime ≤ m.time) (hmaxs : ∀ m, m ∈ log → m.time ≤ p.header.maxTime)
    (hread : p.header.minTime ≤ toTime → ReadsBack log p) (w : WriteWindow) :
    ∃ out, IntervalDelivers readSize fromTime toTime w p out ∧ statePart fromTime out = [] := by
  have hmax : fromTime ≤ p.header.maxTime := by
    obtain ⟨m, hm⟩ := List.exists_mem_of_ne_nil _ hne
    exact hmin.le.trans ((hmins m hm).trans (hmaxs m hm))
  by_cases hreach : ∃ r, r ∈ recs ∧ r.minTime ≤ toTime ∧ fromTime ≤ r.maxTime
  · have hto : p.header.minTime ≤ toTime := by
      obtain ⟨r, hr, hto, -⟩ := hreach
      have hcr := h.counts r hr
      have hin := hcr.inside
      have hsome := hcr.nonempty
      rw [hcr.minTime, nth_eq (by omega)] at hto
      exact (hmins _ (List.getElem_mem _)).trans hto
    obtain ⟨ranges, hopen, hranges, -⟩ := h.readInterval_ranges hi hne hf hq hmax hmins hmaxs
    obtain ⟨first, p', rest, -, hnot, hrest, hd⟩ := h.delivers_ranges hne hf (hread hto) hmax hopen hranges w
    refine ⟨_, hd, ?_⟩
    rw [hnot fun hdue => absurd hdue.1 (not_le.mpr hmin), List.nil_append]
    exact statePart_eq_nil hrest
  · exact ⟨[], h.delivers_nothing hi hne hf hq hmax hmins hmaxs hreach w, rfl⟩

/-- On the page where the query begins a reader at that time point and, where a record overlaps the interval, the
reader of the interval take over from the page before and find on the page the same. -/
theorem Posted.statePart_within (h : Posted fsize log recs p) (hi : Increasing log) (hne : log ≠ [])
    (hf : p.index.flush = .ok p.index) (hq : fromTime ≤ toTime) (hmin : p.header.minTime ≤ fromTime)
    (hmax : fromTime ≤ p.header.maxTime) (hmins : ∀ m, m ∈ log → p.header.minTime ≤ m.time)
    (hmaxs : ∀ m, m ∈ log → m.time ≤ p.header.maxTime) (hread : ReadsBack log p) :
    ∃ vs, TimePoint fromTime (log.filter fun m => decide (Spans recs fromTime m)) vs ∧ ∀ w,
      (∃ p', (⟨[], 0, 0, w⟩ : PageReader).timePointRead fromTime p = .ok (takenOver w vs ++ vs, p')) ∧
      ((∀ m, m ∈ w → m.time < fromTime) → (∃ r, r ∈ recs ∧ r.minTime ≤ toTime ∧ fromTime ≤ r.maxTime) →
        ∃ out, IntervalDelivers readSize fromTime toTime w p out ∧ statePart fromTime out = takenOver w vs ++ vs) := by
  obtain ⟨vs, p', hback, hvs⟩ := h.backwardRead_timePoint hi hne hf hread hmins hmaxs fromTime
  refine ⟨vs, hvs, fun w => ⟨⟨p', timePointRead_within hmax hback w⟩, fun hw hreach => ?_⟩⟩
  obtain ⟨ranges, hopen, hranges, hsome⟩ := h.readInterval_ranges hi hne hf hq hmax hmins hmaxs
  obtain ⟨first, p'', rest, hdue, -, hrest, hd⟩ := h.delivers_ranges hne hf hread hmax hopen hranges w
  have hfirst := hdue ⟨hmin, hsome.mpr hreach⟩
  rw [timePointRead_within hmax hback w] at hfirst
  obtain ⟨rfl, -⟩ := Prod.mk.inj (Except.ok.inj hfirst)
  refine ⟨_, hd, ?_⟩
  rw [statePart_append, statePart_eq_nil hrest, List.append_nil]
  refine statePart_self fun m hm => ?_
  rcases List.mem_append.mp hm with hm | hm
  · exact takenOver_lt hw m hm
  · obtain ⟨x, hx, hsame⟩ := hvs.only m hm
    rw [hsame.time]
    exact hx.before

end Posted
end
end Nkvdb.Page
