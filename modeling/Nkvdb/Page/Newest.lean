import Nkvdb.Index.Search
import Nkvdb.Page.Backward
import Nkvdb.Page.TimePoint

/-! A page read backwards without filters.

`backwardRead` asks the index for what lasts to the time point or beyond it, to find what lies before
it. It keeps the newest of each id that it comes by, so it is right where the newest measurement
before the time point of each id is among these, and they can be read (`backwardRead_newest_iff`).
Records of one measurement each never help: the one that ends before the time point is not asked for. -/
namespace Nkvdb.Page
open Index

/-- The page read backwards at `tp` gives the newest measurement of `log` before it of each id, and no more. -/
def ReadsNewest (tp : Time) (log : List Meas) (p : Page) : Prop :=
  ∃ out p', p.backwardRead [] 0 0 tp = .ok (out, p') ∧ TimePoint tp log out

/-- The positions that a page is read backwards at: all at its least time, else those that the records count
that the search for `tp` comes by. -/
def ComesBy (tp : Time) (recs : List IndexRecord) (p : Page) (i : Nat) : Prop :=
  if tp = p.header.minTime then i < p.header.writePos
  else ∃ r, Visited (wanted [] tp p.header.maxTime 0 0) tp p.header.maxTime recs r ∧ i ∈ r.positions

/-- The position reads back what was appended there. -/
def ReadsBackAt (log : List Meas) (p : Page) (i : Nat) : Prop := p.Readable i ∧ SameMeas (p.valueAt i) (nth log i)

/-- There is something to read, what is come by is legible, and the newest measurement before `tp` of each
id is among it. -/
structure Newest (tp : Time) (log : List Meas) (recs : List IndexRecord) (p : Page) : Prop where
  begun : tp = p.header.minTime → log ≠ []
  taken : tp ≠ p.header.minTime → ∃ ix, p.index.flush = .ok ix
  legible : ∀ i, ComesBy tp recs p i → ReadsBackAt log p i
  reached : ∀ x, LatestBefore Meas.id Meas.time tp log x → ∃ i, ComesBy tp recs p i ∧ nth log i = x

section
variable {fsize : U64} {log : List Meas} {recs : List IndexRecord} {p p' : Page} {ix : Index} {tp : Time}
  {irecords : List (Nat × Nat)}

/-- The positions of the records found, as they are gone over. -/
theorem mem_backwardPositions_found {found : List IndexRecord} {i : Nat} :
    i ∈ backwardPositions (found.reverse.map fun r => (r.pos, r.count)) ↔ i ∈ positions found := by
  rw [mem_backwardPositions, Index.mem_positions]
  simp

/-- What the search of a page through its index goes over. -/
theorem Posted.ranges_taken (h : Posted fsize log recs p) (hf : p.index.flush = .ok ix)
    (hne : tp ≠ p.header.minTime) : ∃ irecords, p.backwardRanges [] 0 0 tp = .ok (irecords, {p with index := ix}) := by
  obtain ⟨nodes, -, hfind⟩ := h.logged.findInIndex hf [] tp p.header.maxTime 0 0
  unfold backwardRanges
  rw [if_neg hne, hfind]
  exact ⟨_, rfl⟩

/-- What is gone over are the positions come by, and no record gone over is empty. -/
theorem Posted.ranges_spec (h : Posted fsize log recs p) (hd : (log.map Meas.time).Nodup)
    (hr : p.backwardRanges [] 0 0 tp = .ok (irecords, p')) :
    (∀ i, i ∈ backwardPositions irecords ↔ ComesBy tp recs p i) ∧
      ((∀ x, x ∈ irecords → ¬ (x.1 = 0 ∧ x.2 = 0)) ↔ (tp = p.header.minTime → log ≠ [])) := by
  unfold backwardRanges at hr
  by_cases he : tp = p.header.minTime
  · rw [if_pos he] at hr
    obtain ⟨rfl, -⟩ := Prod.mk.inj (Except.ok.inj hr)
    refine ⟨fun i => ?_, ?_⟩
    · rw [mem_backwardPositions, ComesBy, if_pos he]
      simp
    · rw [List.forall_mem_singleton, h.areas.writePos, ← List.length_pos_iff]
      constructor
      · intro hsome _
        omega
      · intro hne hzero
        have := hne he
        omega
  · rw [if_neg he] at hr
    obtain ⟨⟨found, ix⟩, hfind, hr⟩ := bind_ok hr
    obtain ⟨rfl, -⟩ := Prod.mk.inj (Except.ok.inj hr)
    have hf := findInIndex_flush hfind
    obtain ⟨nodes, hw, hfound⟩ := h.logged.findInIndex hf [] tp p.header.maxTime 0 0
    obtain ⟨rfl, -⟩ := Prod.mk.inj (Except.ok.inj (hfind.symm.trans hfound))
    refine ⟨fun i => ?_, iff_of_true (fun x hx => ?_) fun htp => absurd htp he⟩
    · rw [mem_backwardPositions_found, positions_joined, ComesBy, if_neg he, Index.positions, List.mem_flatMap]
      refine exists_congr fun r => and_congr_left fun _ => ?_
      exact h.logged.mem_selected hf (minTimes_nodup h.positions h.counts hd) hw
    · obtain ⟨r, hmem, rfl⟩ := List.mem_map.mp hx
      have := (h.joined hf hw (List.mem_reverse.mp hmem)).1
      show ¬ (r.pos = 0 ∧ r.count = 0)
      omega

/-- A position come by is one of the page. -/
theorem Posted.comesBy_lt (h : Posted fsize log recs p) {i : Nat} (hi : ComesBy tp recs p i) : i < log.length := by
  unfold ComesBy at hi
  split at hi
  · rwa [h.areas.writePos] at hi
  · obtain ⟨r, hv, hi⟩ := hi
    rw [← h.areas.writePos]
    exact h.mem_positions hv.mem hi

/-- What is kept of positions that are legible is a snapshot of what lies there, and one of the whole page
where the newest of each id lies there. -/
theorem Posted.kept_iff (h : Posted fsize log recs p) (hd : (log.map Meas.time).Nodup)
    (hpos : ∀ i, i ∈ backwardPositions irecords ↔ ComesBy tp recs p i)
    (hleg : ∀ i, ComesBy tp recs p i → ReadsBackAt log p i) :
    TimePoint tp log (visitAll (backwardCheck [] 0 0) tp ((backwardPositions irecords).map p.valueAt) []) ↔
      ∀ x, LatestBefore Meas.id Meas.time tp log x → ∃ i, ComesBy tp recs p i ∧ nth log i = x := by
  obtain ⟨D, hD⟩ : ∃ D, backwardPositions irecords = D := ⟨_, rfl⟩
  rw [hD] at hpos ⊢
  have hlt : ∀ i, i ∈ D → i < log.length := fun i hi => h.comesBy_lt ((hpos i).mp hi)
  have hlatest : Latest tp (D.map p.valueAt) (visitAll (backwardCheck [] 0 0) tp (D.map p.valueAt) []) := by
    refine ((Latest.nil tp).visitAll backwardCheck_none (D.map p.valueAt)).congr fun m => ?_
    rw [List.append_nil, List.mem_reverse]
  have hshown : TimePoint tp (D.map (nth log)) _ :=
    hlatest.timePoint hd hlt (fun i hi => (hleg i ((hpos i).mp hi)).2) fun m _ => List.mem_map
  have hsub : ∀ m, m ∈ D.map (nth log) → m ∈ log := by
    intro m hm
    obtain ⟨i, hi, rfl⟩ := List.mem_map.mp hm
    rw [nth_eq (hlt i hi)]
    exact List.getElem_mem _
  refine (hshown.sub_iff hsub (fun v x hv => hv.time) hd).trans ?_
  refine forall_congr' fun x => imp_congr_right fun _ => ?_
  rw [List.mem_map]
  exact exists_congr fun i => and_congr_left fun _ => hpos i

end

/-- A page of measurements with distinct times, appended one by one or in sorted arrays, gives the newest
measurement before the time point of each id if there is something to read, the index takes the records
buffered where it is searched, the positions come by read back what was appended there, and the newest
measurement of each id is at one of them; and only then, as long as what can be read of these positions
is what was appended there. -/
theorem backwardRead_newest_iff (fsize : U64) {ops : List Op} (hops : ∀ op, op ∈ ops → op.Sorted) {log : List Meas}
    {p : Page} (hrun : appendAll ops (create fsize) = .ok (log, p)) (hd : (log.map Meas.time).Nodup) (tp : Time) :
    ∃ recs, Summarised fsize log recs p ∧ (Newest tp log recs p → ReadsNewest tp log p) ∧
      ((∀ i, ComesBy tp recs p i → p.Readable i → SameMeas (p.valueAt i) (nth log i)) →
        (ReadsNewest tp log p ↔ Newest tp log recs p)) := by
  obtain ⟨recs, h⟩ := (Summarised.create fsize).appendAll hops hrun
  rw [List.nil_append] at h
  have henough : Newest tp log recs p → ReadsNewest tp log p := by
    intro hn
    obtain ⟨irecords, p', hranges⟩ : ∃ irecords p', p.backwardRanges [] 0 0 tp = .ok (irecords, p') := by
      by_cases he : tp = p.header.minTime
      · exact ⟨_, _, if_pos he⟩
      · obtain ⟨ix, hf⟩ := hn.taken he
        obtain ⟨irecords, hranges⟩ := h.posted.ranges_taken hf he
        exact ⟨irecords, _, hranges⟩
    obtain ⟨hpos, hsome⟩ := h.posted.ranges_spec hd hranges
    refine ⟨_, p', backwardRead_iff.mpr ⟨irecords, hranges, hsome.mpr hn.begun, fun i hi => ?_, rfl⟩, ?_⟩
    · exact (hn.legible i ((hpos i).mp hi)).1
    · exact (h.posted.kept_iff hd hpos hn.legible).mpr hn.reached
  refine ⟨recs, h, henough, fun htrue => ⟨?_, henough⟩⟩
  rintro ⟨out, p', hrun, hshown⟩
  obtain ⟨irecords, hranges, hne, hread, rfl⟩ := backwardRead_iff.mp hrun
  obtain ⟨hpos, hsome⟩ := h.posted.ranges_spec hd hranges
  have hleg : ∀ i, ComesBy tp recs p i → ReadsBackAt log p i := fun i hi =>
    ⟨hread i ((hpos i).mpr hi), htrue i hi (hread i ((hpos i).mpr hi))⟩
  constructor
  case begun => exact hsome.mp hne
  case taken =>
    intro he
    unfold backwardRanges at hranges
    rw [if_neg he] at hranges
    obtain ⟨x, hfind, -⟩ := bind_ok hranges
    exact ⟨_, findInIndex_flush hfind⟩
  case legible => exact hleg
  case reached => exact (h.posted.kept_iff hd hpos hleg).mp hshown

/-- An array of two ids, read at the time of its last measurement: both are found. -/
theorem backwardRead_newest_iff_three : ∃ log p,
    appendAll [.array [.plain 1 10, .plain 2 20, .plain 1 30]] (create (calcSize 3)) = .ok (log, p) ∧
    ReadsNewest 30 log p ∧ ∃ recs, Summarised (calcSize 3) log recs p ∧ Newest 30 log recs p := by
  obtain ⟨⟨log, p⟩, hrun, hok⟩ := exists_ok
    (x := appendAll [.array [.plain 1 10, .plain 2 20, .plain 1 30]] (create (calcSize 3)))
    (p := fun x : List Meas × Page => decide ((x.1.map Meas.time).Nodup ∧
        ∀ i, i < x.1.length → SameMeas (x.2.valueAt i) (nth x.1 i)) &&
      (x.2.backwardRead [] 0 0 30).toOption.any fun y : List Meas × Page => decide (TimePoint 30 x.1 y.1))
    (by decide +kernel)
  obtain ⟨hlog, hok⟩ := Bool.and_eq_true_iff.mp hok
  obtain ⟨hd, hsame⟩ := of_decide_eq_true hlog
  obtain ⟨⟨out, p'⟩, hread, hshown⟩ := exists_ok hok
  have hnewest : ReadsNewest 30 log p := ⟨out, p', hread, of_decide_eq_true hshown⟩
  obtain ⟨recs, h, -, hiff⟩ := backwardRead_newest_iff (calcSize 3) (by decide) hrun hd 30
  exact ⟨log, p, hrun, hnewest, recs, h,
    (hiff fun i hi _ => hsame i (h.posted.comesBy_lt hi)).mp hnewest⟩

/-- Two measurements appended one by one: at the time of the second one the first is not found. -/
theorem backwardRead_newest_misses : ∃ log p,
    appendAll [.single (.plain 1 10) (0, 0), .single (.plain 2 20) (0, 0)] (create (calcSize 2)) = .ok (log, p) ∧
    p.header.minTime ≤ 20 ∧ 20 ≤ p.header.maxTime ∧ (log.map Meas.time).Nodup ∧ ¬ ReadsNewest 20 log p := by
  obtain ⟨⟨log, p⟩, hrun, hok⟩ := exists_ok
    (x := appendAll [.single (.plain 1 10) (0, 0), .single (.plain 2 20) (0, 0)] (create (calcSize 2)))
    (p := fun x : List Meas × Page =>
      decide (x.2.header.minTime ≤ 20 ∧ 20 ≤ x.2.header.maxTime ∧ (x.1.map Meas.time).Nodup) &&
      (x.2.backwardRead [] 0 0 20).toOption.any fun y : List Meas × Page => decide (¬ TimePoint 20 x.1 y.1))
    (by decide +kernel)
  obtain ⟨htimes, hok⟩ := Bool.and_eq_true_iff.mp hok
  obtain ⟨hmin, hmax, hd⟩ := of_decide_eq_true htimes
  obtain ⟨⟨out, p'⟩, hread, hmissed⟩ := exists_ok hok
  refine ⟨log, p, hrun, hmin, hmax, hd, ?_⟩
  rintro ⟨out', p₁, hread', hshown⟩
  obtain ⟨rfl, -⟩ := Prod.mk.inj (Except.ok.inj (hread.symm.trans hread'))
  exact of_decide_eq_true hmissed hshown

end Nkvdb.Page
