import Nkvdb.BTree.Find
import Nkvdb.Lib.LatestBefore
import Nkvdb.Page.Interval
import Nkvdb.Page.Read
import Nkvdb.Page.Tiles

/-! A page read at a time point.

`backwardRead` asks the index for what overlaps the times from the time point to the greatest
one. Of the measurements before the time point it comes by those that a record counts together
with something at or behind it (`Spans`), and by no others; the window of the page before
completes what it gives. -/
namespace Nkvdb.Page
open Index

/-- The times of the measurements ascend. -/
def Increasing (log : List Meas) : Prop := log.Pairwise fun a b => a.time < b.time

theorem Increasing.times {log : List Meas} (h : Increasing log) : (log.map Meas.time).Nodup :=
  List.pairwise_map.mpr (h.imp fun hlt => hlt.ne)

theorem Increasing.lt_iff {log : List Meas} (h : Increasing log) {i j : Nat} (hi : i < log.length)
    (hj : j < log.length) :
    (nth log i).time < (nth log j).time ↔ i < j := by
  have hlt : ∀ {i j : Nat}, i < log.length → j < log.length → i < j → (nth log i).time < (nth log j).time := by
    intro i j hi hj hij
    rw [nth_eq hi, nth_eq hj]
    exact List.pairwise_iff_getElem.mp h i j hi hj hij
  constructor
  · intro hij
    by_contra hge
    rcases Nat.eq_or_lt_of_le (not_lt.mp hge) with rfl | hji
    · exact lt_irrefl _ hij
    · exact lt_asymm hij (hlt hj hi hji)
  · exact hlt hi hj

theorem Increasing.le_iff {log : List Meas} (h : Increasing log) {i j : Nat} (hi : i < log.length)
    (hj : j < log.length) :
    (nth log i).time ≤ (nth log j).time ↔ i ≤ j := by
  rw [← not_lt, ← not_lt, h.lt_iff hj hi]

/-- A record begins by the time of the measurement, and does not end before the time point. -/
def Spans (recs : List IndexRecord) (tp : Time) (m : Meas) : Prop := ∃ r, r ∈ recs ∧ r.minTime ≤ m.time ∧ tp ≤ r.maxTime

instance (recs : List IndexRecord) (tp : Time) : DecidablePred (Spans recs tp) := fun m => by
  unfold Spans
  infer_instance

section Posted
variable {fsize : U64} {log : List Meas} {recs : List IndexRecord} {p : Page} {ix : Index} {tp : Time}

/-- Where a record counts the positions before a time point and the one at or after it, the search
for the time point starts at the leaf that holds the record. -/
theorem Posted.starts (h : Posted fsize log recs p) (hi : Increasing log) (hf : p.index.flush = .ok ix)
    {r : IndexRecord}
    (hr : r ∈ recs) (hmin : r.minTime < tp) (hmax : tp ≤ r.maxTime) {want : IndexRecord → Bool} {toTime : Time}
    {nodes : List Nat} (hw : Walked ix.tree tp toTime want nodes) (hwant : want r = true) :
    r ∈ Index.selected want ix.tree nodes := by
  have hd : ((keyed recs).map Prod.fst).Nodup := by
    rw [show (keyed recs).map Prod.fst = recs.map IndexRecord.minTime from List.map_map]
    exact minTimes_nodup h.positions h.counts hi.times
  obtain ⟨ht, lo, hi', l, hs, ho, hc, hp⟩ := BTree.insertAll_leaves (by decide) _ hd (h.logged.flush_ok hf).1
  obtain ⟨x, hx, hkv⟩ := List.mem_flatMap.mp (hp.mem_iff.mpr (List.mem_map_of_mem (f := fun r => (r.minTime, r)) hr))
  obtain ⟨hm, hl⟩ := (hc.leaves x).mp hx
  have hstart : ix.tree.findNode tp = .ok x := by
    refine ho.arranged.findNode_floor hs (by decide) hm hl hkv hmin.le fun i kv him hil hmem hle => ?_
    have hleaf : kv ∈ ix.tree.records l := List.mem_flatMap.mpr ⟨i, (hc.leaves i).mpr ⟨him, hil⟩, hmem⟩
    obtain ⟨r', hr', rfl⟩ := List.mem_map.mp (hp.mem_iff.mp hleaf)
    -- a record that began later would share a position with `r`
    by_contra hlt
    replace hlt : r.minTime < r'.minTime := not_le.mp hlt
    have hend : r'.minTime ≤ r.maxTime := le_trans hle hmax
    have hcr := h.counts r hr
    have hcr' := h.counts r' hr'
    have hin := hcr.inside
    have hin' := hcr'.inside
    have hpos := hcr.nonempty
    have hpos' := hcr'.nonempty
    have hlt' := hlt
    rw [hcr.minTime, hcr'.minTime, hi.lt_iff (by omega) (by omega)] at hlt'
    rw [hcr.maxTime, hcr'.minTime, hi.le_iff (by omega) (by omega)] at hend
    have hsame := record_unique h.positions hr hr' (List.mem_range'_1.mpr ⟨hlt'.le, by omega⟩)
      (List.mem_range'_1.mpr ⟨le_rfl, by omega⟩)
    rw [hsame] at hlt
    exact lt_irrefl _ hlt
  obtain ⟨start, stop, linked, hs₁, -, hlinked, rfl⟩ := hw
  obtain rfl : x = start := Except.ok.inj (hstart.symm.trans hs₁)
  have hne : linked ≠ [] := by
    rintro rfl
    exact hm.ne_zero hlinked
  obtain ⟨y, ys, rfl⟩ := List.exists_cons_of_ne_nil hne
  obtain rfl := hlinked.head_eq
  obtain ⟨rest, hrest⟩ := scanned_cons want ix.tree stop x ys
  rw [hrest]
  refine List.mem_filter.mpr ⟨List.mem_map.mpr ⟨_, List.mem_flatMap.mpr ⟨x, List.mem_cons_self, hkv⟩, rfl⟩, hwant⟩

/-- The search for a time point comes by the measurements before it that one record counts together
with what follows up to the time point. -/
theorem Posted.spans_iff (h : Posted fsize log recs p) (hi : Increasing log) (hf : p.index.flush = .ok ix)
    (hmax : ∀ m, m ∈ log → m.time ≤ p.header.maxTime) {nodes : List Nat}
    (hw : Walked ix.tree tp p.header.maxTime (wanted [] tp p.header.maxTime 0 0) nodes) {i : Nat} (hlt : i < log.length)
    (htp : (nth log i).time < tp) :
    i ∈ Index.positions (Index.selected (wanted [] tp p.header.maxTime 0 0) ix.tree nodes) ↔
      Spans recs tp (nth log i) := by
  rw [Index.mem_positions]
  constructor
  · rintro ⟨r, hsel, hfirst, hlast⟩
    have hr := h.selected hf hw hsel
    have hcr := h.counts r hr
    have hin := hcr.inside
    have hmin : r.minTime ≤ (nth log i).time := by
      rw [hcr.minTime, hi.le_iff (by omega) hlt]
      exact hfirst
    refine ⟨r, hr, hmin, ?_⟩
    have hwant := (List.mem_filter.mp hsel).2
    simp only [wanted, checkInterval, inInterval, bne_self_eq_false, Bool.false_and, Bool.not_false, Bool.true_and,
      Bool.or_eq_true, Bool.and_eq_true, decide_eq_true_eq] at hwant
    have hbefore := lt_of_le_of_lt hmin htp
    obtain ⟨((⟨hge, -⟩ | ⟨hge, -⟩) | ⟨-, hge⟩) | ⟨-, hge⟩, -⟩ := hwant
    · exact absurd hge (not_le.mpr hbefore)
    · exact hge
    · exact hge
    · exact hge
  · rintro ⟨r, hr, hmin, hge⟩
    have hcr := h.counts r hr
    have hin := hcr.inside
    have hpos := hcr.nonempty
    have hbefore := lt_of_le_of_lt hmin htp
    have hend : r.maxTime ≤ p.header.maxTime := by
      rw [hcr.maxTime, nth_eq (by omega)]
      exact hmax _ (List.getElem_mem _)
    have hwant : wanted [] tp p.header.maxTime 0 0 r = true := by
      simp [wanted, checkInterval, inInterval, hge, hend]
    refine ⟨r, h.starts hi hf hr hbefore hge hw hwant, ?_, ?_⟩
    · rwa [hcr.minTime, hi.le_iff (by omega) hlt] at hmin
    · have hlast := lt_of_lt_of_le htp hge
      rw [hcr.maxTime, hi.lt_iff hlt (by omega)] at hlast
      omega

end Posted

/-! ### Snapshots -/

theorem SameMeas.refl (m : Meas) : SameMeas m m := ⟨rfl, rfl, rfl, rfl, rfl, rfl⟩

theorem SameMeas.symm {a b : Meas} (h : SameMeas a b) : SameMeas b a :=
  ⟨h.id.symm, h.time.symm, h.source.symm, h.flag.symm, h.size.symm, by rw [h.size]; exact h.value.symm⟩

theorem SameMeas.trans {a b c : Meas} (h : SameMeas a b) (h' : SameMeas b c) : SameMeas a c :=
  ⟨h.id.trans h'.id, h.time.trans h'.time, h.source.trans h'.source, h.flag.trans h'.flag, h.size.trans h'.size,
    by rw [← h'.size, h.value, h'.size]; exact h'.value⟩

/-- What a page that reads back `log` has at its positions. -/
theorem ReadsBack.reads {fsize : U64} {log : List Meas} {p : Page} (h : ReadsBack log p) (ha : Areas fsize log p) :
    ∃ all, p.Reads all ∧ ∀ i, i < log.length → SameMeas (nth all i) (nth log i) := by
  have hat : ∀ i : Fin log.length, ∃ m, p.readAt i = .ok m ∧ SameMeas m (nth log i) := by
    intro i
    have hi := h Meas.empty i
    rw [getElem?_nth i.isLt] at hi
    obtain ⟨m, hm, hsame⟩ := hi
    refine ⟨m, ?_, hsame⟩
    unfold readAt
    rw [hm]
    rfl
  choose f hf using hat
  have hnth : ∀ i (hi : i < log.length), nth (List.ofFn f) i = f ⟨i, hi⟩ := by
    intro i hi
    rw [nth_eq (by rwa [List.length_ofFn]), List.getElem_ofFn]
  refine ⟨List.ofFn f, ⟨?_, fun i hi => ?_⟩, fun i hi => ?_⟩
  · rw [List.length_ofFn, ha.writePos]
  · rw [List.length_ofFn] at hi
    rw [hnth i hi]
    exact (hf ⟨i, hi⟩).1
  · rw [hnth i hi]
    exact (hf ⟨i, hi⟩).2

/-- The newest measurements before `tp`, of each id. -/
abbrev TimePoint (tp : Time) (log out : List Meas) : Prop := Snapshot Meas.id Meas.time SameMeas tp log out

/-- The newest of what was seen at some positions is a snapshot of what lies there. -/
theorem Latest.timePoint {log sub : List Meas} {held : Nat → Meas} {D : List Nat} {tp : Time} {vs : MeasMap}
    (h : Latest tp (D.map held) vs) (hd : (log.map Meas.time).Nodup) (hD : ∀ i, i ∈ D → i < log.length)
    (hsame : ∀ i, i ∈ D → SameMeas (held i) (nth log i))
    (hsub : ∀ m, m.time < tp → (m ∈ sub ↔ ∃ i, i ∈ D ∧ nth log i = m)) : TimePoint tp sub vs := by
  have hseen : ∀ v, v ∈ vs → ∃ i, i ∈ D ∧ held i = v ∧ v.time < tp := by
    intro v hv
    obtain ⟨hseen, hlt⟩ := h.old v hv
    obtain ⟨i, hi, he⟩ := List.mem_map.mp hseen
    exact ⟨i, hi, he, hlt⟩
  have hmem : ∀ i, i ∈ D → (nth log i).time < tp → nth log i ∈ sub := fun i hi hlt => (hsub _ hlt).mpr ⟨i, hi, rfl⟩
  -- what is newest in the map is newest where it comes from
  have hnewest : ∀ i m, i ∈ D → held i ∈ vs → m ∈ sub → m.id = (nth log i).id → m.time < tp →
      m.time ≤ (nth log i).time := by
    intro i m hi hv hm hid hlt
    obtain ⟨j, hj, rfl⟩ := (hsub m hlt).mp hm
    have hsi := hsame i hi
    have hsj := hsame j hj
    obtain ⟨v, hv', hvid, hle⟩ := h.newest _ (List.mem_map_of_mem hj) (by rwa [hsj.time])
    have he := h.unique hv' hv (hvid.trans (hsj.id.trans (hid.trans hsi.id.symm)))
    rwa [he, hsj.time, hsi.time] at hle
  constructor
  case once => exact List.pairwise_map.mpr (h.keys.imp fun hlt => hlt.ne)
  case each =>
    intro x hx
    obtain ⟨i, hi', rfl⟩ := (hsub x hx.before).mp hx.mem
    have hsi := hsame i hi'
    obtain ⟨v, hv, hid, hle⟩ := h.newest _ (List.mem_map_of_mem hi') (by rw [hsi.time]; exact hx.before)
    obtain ⟨j, hj, rfl, hlt⟩ := hseen v hv
    have hsj := hsame j hj
    rw [hsi.id, hsj.id] at hid
    rw [hsi.time, hsj.time] at hle
    rw [hsj.time] at hlt
    have hge := hx.newest _ (hmem j hj hlt) hid hlt
    obtain rfl := nth_inj hd (hD j hj) (hD i hi') (le_antisymm hge hle)
    exact ⟨_, hv, hsi⟩
  case only =>
    intro v hv
    obtain ⟨i, hi', rfl, hlt⟩ := hseen v hv
    have hsi := hsame i hi'
    rw [hsi.time] at hlt
    exact ⟨_, ⟨hmem i hi' hlt, hlt, fun m hm hid hmt => hnewest i m hi' hv hm hid hmt⟩, hsi⟩

section Posted
variable {fsize : U64} {log : List Meas} {recs : List IndexRecord} {p : Page} {ix : Index} {tp : Time}

/-- What `backwardRead` gives of a page that reads back what was appended in the order of the times. -/
theorem Posted.backwardRead_timePoint (h : Posted fsize log recs p) (hi : Increasing log) (hne : log ≠ [])
    (hf : p.index.flush = .ok ix) (hread : ReadsBack log p)
    (hmin : ∀ m, m ∈ log → p.header.minTime ≤ m.time) (hmax : ∀ m, m ∈ log → m.time ≤ p.header.maxTime) (tp : Time) :
    ∃ vs p', p.backwardRead [] 0 0 tp = .ok (vs, p') ∧
      TimePoint tp (log.filter fun m => decide (Spans recs tp m)) vs := by
  obtain ⟨all, hr, hsame⟩ := hread.reads h.areas
  have hlen : all.length = log.length := hr.length.trans h.areas.writePos
  have hpos : 0 < p.header.writePos := h.areas.writePos ▸ List.length_pos_iff.mpr hne
  by_cases he : tp = p.header.minTime
  · obtain ⟨vs, hrun, hl⟩ := backwardRead_first hr hpos
    rw [he]
    have hseen : Latest p.header.minTime ((List.range all.length).map (nth all)) vs := by rwa [map_nth_range]
    have hrange : ∀ i, i ∈ List.range all.length → i < log.length := by
      intro i hi
      rwa [List.mem_range, hlen] at hi
    refine ⟨vs, p, hrun, hseen.timePoint hi.times hrange (fun i hi => hsame i (hrange i hi)) fun m hlt => ?_⟩
    · refine iff_of_false ?_ ?_
      · intro hm
        exact absurd (hmin m (List.mem_of_mem_filter hm)) (not_le.mpr hlt)
      · rintro ⟨i, hi, rfl⟩
        rw [List.mem_range, hlen] at hi
        rw [nth_eq hi] at hlt
        exact absurd (hmin _ (List.getElem_mem hi)) (not_le.mpr hlt)
  · obtain ⟨nodes, vs, hw, hrun, hl⟩ := h.backwardRead hr hf he
    have hD : ∀ i, i ∈ Index.positions (Index.selected (wanted [] tp p.header.maxTime 0 0) ix.tree nodes) →
        i < log.length := by
      intro i hi
      rw [← h.areas.writePos]
      exact h.selected_lt hf hw hi
    refine ⟨vs, _, hrun, hl.timePoint hi.times hD (fun i hi => hsame i (hD i hi)) fun m hlt => ?_⟩
    rw [List.mem_filter, decide_eq_true_eq]
    constructor
    · rintro ⟨hm, hspan⟩
      obtain ⟨i, hi', rfl⟩ := List.getElem_of_mem hm
      rw [← nth_eq hi'] at hspan hlt ⊢
      exact ⟨i, (h.spans_iff hi hf hmax hw hi' hlt).mpr hspan, rfl⟩
    · rintro ⟨i, hi', rfl⟩
      refine ⟨?_, (h.spans_iff hi hf hmax hw (hD i hi') hlt).mp hi'⟩
      rw [nth_eq (hD i hi')]
      exact List.getElem_mem _

end Posted

/-! ### Reading at a time point -/

/-- The slots written of a window are a snapshot after everything it tracks. -/
theorem timePoint_window {log : List Meas} {w : WriteWindow} {tp : Time} (h : WriteWindow.Tracks log w)
    (hi : Increasing log)
    (hpos : ∀ m, m ∈ log → 0 < m.time) (hlt : ∀ m, m ∈ log → m.time < tp) :
    TimePoint tp log (w.filter fun m => m.time != 0) := by
  have hmem : ∀ v, v ∈ w.filter (fun m => m.time != 0) ↔ FirstMax Meas.id Meas.time v.id log v := by
    intro v
    rw [List.mem_filter, bne_iff_ne, h.mem_iff hpos]
  constructor
  case once => exact h.once
  case each =>
    intro x hx
    obtain ⟨v, hv⟩ : ∃ v, FirstMax Meas.id Meas.time x.id log v := FirstMax.exists_of_mem hx.mem rfl
    have hle := hv.rank_le hx.mem rfl
    have hge := hx.newest v hv.mem hv.1 (hlt v hv.mem)
    obtain rfl : v = x := List.inj_on_of_nodup_map hi.times hv.mem hx.mem (le_antisymm hge hle)
    exact ⟨v, (hmem v).mpr hv, SameMeas.refl v⟩
  case only =>
    intro v hv
    have hfm := (hmem v).mp hv
    exact ⟨v, ⟨hfm.mem, hlt v hfm.mem, fun y hy hid _ => hfm.rank_le hy hid⟩, SameMeas.refl v⟩

/-- A reader without a filter. -/
theorem timePointRead_window {r : PageReader} (hr : r.ids = [] ∧ r.source = 0 ∧ r.flag = 0) {tp : Time} {p : Page}
    (htp : p.header.maxTime < tp) : r.timePointRead tp p = .ok (p.writeWindow.filter fun m => m.time != 0, p) := by
  obtain ⟨hids, hsource, hflag⟩ := hr
  rw [PageReader.timePointRead_behind htp]
  simp [PageReader.checkValueFlags, hids, hsource, hflag]

section Posted
variable {fsize : U64} {log carried : List Meas} {recs : List IndexRecord} {p : Page} {ix : Index} {tp : Time}

/-- What a reader gives of a page with the time point on it, where the window of the page before
has the newest of `carried`. -/
theorem Posted.timePointRead (h : Posted fsize log recs p) (hi : Increasing log) (hne : log ≠ [])
    (hf : p.index.flush = .ok ix) (hread : ReadsBack log p)
    (hmin : ∀ m, m ∈ log → p.header.minTime ≤ m.time) (hmax : ∀ m, m ∈ log → m.time ≤ p.header.maxTime)
    (htp : tp ≤ p.header.maxTime) {r : PageReader} (hr : r.ids = [] ∧ r.source = 0 ∧ r.flag = 0)
    (hc : TimePoint tp carried (r.prevWw.filter fun m => m.time != 0))
    (hlt : ∀ x y, x ∈ carried → y ∈ log → x.time < y.time) :
    ∃ out p', r.timePointRead tp p = .ok (out, p') ∧
      TimePoint tp (carried ++ log.filter fun m => decide (Spans recs tp m)) out := by
  obtain ⟨vs, p', hrun, hs⟩ := h.backwardRead_timePoint hi hne hf hread hmin hmax tp
  obtain ⟨hids, hsource, hflag⟩ := hr
  have hmerged := Snapshot.merge hc hs (fun v x hv => hv.id) fun x y hx hy => hlt x y hx (List.mem_of_mem_filter hy)
  refine ⟨_, p', ?_, hmerged⟩
  rw [PageReader.timePointRead_back htp, hids, hsource, hflag, hrun, List.filter_filter]
  simp [PageReader.checkValueFlags, hids, hsource, hflag, bind, Except.bind, Bool.and_comm]

end Posted
end Nkvdb.Page
