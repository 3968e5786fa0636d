import Nkvdb.Page.Backward
import Nkvdb.Page.Interval
import Nkvdb.Page.Origin

/-! Reading some ranges of a page in chunks.

Each call of `readNext` reads on where the last one stopped, `ReadSize` positions at most. What comes
out in all does not depend on `ReadSize`, as long as `read_to` does not wrap: from a position where it
does, the reader reads nothing and stays (`ofRanges_reads_iff`). -/
namespace Nkvdb.Page

/-- A page made by appends, searches, windows set on it, and closing and opening it. -/
inductive Used (fsize : U64) : List Meas → Page → Prop
  | create : Used fsize [] (create fsize)
  | append {log : List Meas} {p p' : Page} {op : Op} {r : AppendResult} :
    Used fsize log p → op.run p = .ok (r, p') → Used fsize (log ++ op.meases.take r.writed) p'
  | flush {log : List Meas} {p : Page} {ix : Index} :
    Used fsize log p → p.index.flush = .ok ix → Used fsize log {p with index := ix}
  | setWriteWindow {log : List Meas} {p : Page} (w : WriteWindow) :
    Used fsize log p → Used fsize log (p.setWriteWindow w)
  | reopen {log : List Meas} {p p' : Page} {f : PageFile} {readOnly : Bool} :
    Used fsize log p → p.close = .ok f → openFile f readOnly = .ok p' → Used fsize log p'

theorem Used.posted {fsize : U64} {log : List Meas} {p : Page} (h : Used fsize log p) :
    ∃ recs, Posted fsize log recs p := by
  induction h with
  | create => exact ⟨[], Posted.create fsize⟩
  | append _ hrun ih =>
    obtain ⟨recs, hp⟩ := ih
    exact ⟨_, hp.append hrun⟩
  | flush _ hf ih =>
    obtain ⟨recs, hp⟩ := ih
    exact ⟨recs, hp.flush hf⟩
  | setWriteWindow w _ ih =>
    obtain ⟨recs, ha, hl, hp, hc⟩ := ih
    exact ⟨recs, ⟨ha.size, ha.writePos, ha.writeValuePos, ha.records⟩, hl, hp, hc⟩
  | reopen _ hclose hopen ih =>
    obtain ⟨recs, ha, hl, hp, hc⟩ := ih
    obtain ⟨ix, hf, rfl⟩ := close_iff.mp hclose
    obtain ⟨-, -, w, -, rfl⟩ := openFile_iff.mp hopen
    exact ⟨recs, ⟨ha.size, ha.writePos, ha.writeValuePos, ha.records⟩,
      ⟨recs, (hl.flush_ok hf).1, List.append_nil _⟩, hp, hc⟩

theorem Used.appendAll {fsize : U64} {log new : List Meas} {ops : List Op} {p p' : Page} (h : Used fsize log p)
    (hrun : appendAll ops p = .ok (new, p')) : Used fsize (log ++ new) p' := by
  apply appendAll_keeps (P := fun log p => Used fsize log p) _ h hrun
  intro op _ log p r p' hp hop
  exact hp.append hop

/-! ### The values at the beginning of an interval -/

/-- The page can be read backwards at the time point: the search goes through, and each position that it gives can
be read. -/
def PointLegible (ids : List Id) (source flag : Flag) (tp : Time) (p : Page) : Prop :=
  ∃ irecords p', p.backwardRanges ids source flag tp = .ok (irecords, p') ∧
    ∀ i, i ∈ backwardPositions irecords → p.Readable i

section
variable {fsize : U64} {log all : List Meas} {recs : List IndexRecord} {p p' : Page} {ids : List Id}
  {source flag : Flag} {tp : Time} {out : List Meas}

theorem Posted.backwardRead_legible (h : Posted fsize log recs p) (hpos : 0 < p.header.writePos) :
    (∃ x, p.backwardRead ids source flag tp = .ok x) ↔ PointLegible ids source flag tp p := by
  constructor
  · rintro ⟨⟨out, p'⟩, hx⟩
    obtain ⟨irecords, hranges, -, hread, -⟩ := backwardRead_iff.mp hx
    exact ⟨irecords, p', hranges, hread⟩
  · rintro ⟨irecords, p', hranges, hread⟩
    have hin := h.backwardRanges_in hpos hranges
    refine ⟨(_, p'), backwardRead_iff.mpr ⟨irecords, hranges, fun x hx => ?_, hread, rfl⟩⟩
    have := (hin x hx).1
    omega

/-- It can be where all positions can be read, and the index takes the records buffered where it is searched. -/
theorem Posted.pointLegible (h : Posted fsize log recs p) (hpos : 0 < p.header.writePos) (hr : p.Reads all)
    (hf : tp = p.header.minTime ∨ ∃ ix, p.index.flush = .ok ix) : PointLegible ids source flag tp p := by
  obtain ⟨irecords, p', hranges⟩ : ∃ irecords p', p.backwardRanges ids source flag tp = .ok (irecords, p') := by
    unfold backwardRanges
    by_cases he : tp = p.header.minTime
    · rw [if_pos he]
      exact ⟨_, _, rfl⟩
    · obtain ⟨ix, hf⟩ := hf.resolve_left he
      obtain ⟨nodes, -, hfind⟩ := h.logged.findInIndex hf ids tp p.header.maxTime flag source
      rw [if_neg he, hfind]
      exact ⟨_, _, rfl⟩
  refine ⟨irecords, p', hranges, fun i hi => ?_⟩
  obtain ⟨x, hx, -, hlt⟩ := mem_backwardPositions.mp hi
  have := (h.backwardRanges_in hpos hranges x hx).2
  exact (readable_of_ok (hr.readAt i (by rw [hr.length]; omega))).2

/-- Reading at a time point leaves all but the index as it is, which is flushed if it is searched. -/
theorem timePointRead_index {q : PageReader} (h : q.timePointRead tp p = .ok (out, p')) :
    ∃ ix, p' = {p with index := ix} ∧ (ix = p.index ∨ p.index.flush = .ok ix) := by
  by_cases htp : p.header.maxTime < tp
  · rw [PageReader.timePointRead_behind htp] at h
    obtain ⟨-, rfl⟩ := Prod.mk.inj (Except.ok.inj h)
    exact ⟨p.index, rfl, .inl rfl⟩
  · rw [PageReader.timePointRead_back (not_lt.mp htp)] at h
    obtain ⟨⟨sub, p₁⟩, hback, h⟩ := bind_ok h
    obtain ⟨-, rfl⟩ := Prod.mk.inj (Except.ok.inj h)
    obtain ⟨irecords, seen, hranges, -⟩ := backwardRead_ok hback
    unfold backwardRanges at hranges
    split at hranges
    · obtain ⟨-, rfl⟩ := Prod.mk.inj (Except.ok.inj hranges)
      exact ⟨p.index, rfl, .inl rfl⟩
    · obtain ⟨x, hfind, hranges⟩ := bind_ok hranges
      obtain ⟨-, rfl⟩ := Prod.mk.inj (Except.ok.inj hranges)
      exact ⟨x.2, rfl, .inr (Index.findInIndex_flush hfind)⟩

theorem Posted.timePointRead_iff (h : Posted fsize log recs p) (hpos : 0 < p.header.writePos) {q : PageReader}
    (htp : tp ≤ p.header.maxTime) :
    (∃ x, q.timePointRead tp p = .ok x) ↔ PointLegible q.ids q.source q.flag tp p := by
  have hback : (∃ x, p.backwardRead q.ids q.source q.flag tp = .ok x) ↔ _ := h.backwardRead_legible hpos
  rw [← hback]
  rw [PageReader.timePointRead_back htp]
  cases p.backwardRead q.ids q.source q.flag tp with
  | error e => simp [bind, Except.bind]
  | ok x => simp [bind, Except.bind]

end

end Nkvdb.Page

namespace Nkvdb.PageReaderInterval
open Page

/-! ### A reader that stays -/

/-- The reader comes to a position that `read_to` wraps at. -/
def Stuck (size : U64) (r : PageReaderInterval) : Prop :=
  (r.curPosBegin < r.curPosEnd ∧ 2 ^ 64 ≤ r.curPosBegin + size.val) ∨
    ∃ x, x ∈ r.readPosList ∧ x.1 < x.2 ∧ 2 ^ 64 ≤ x.1 + size.val

section
variable {size : U64} {r r' : PageReaderInterval} {p : Page}

theorem Stuck.not_end (h : r.Stuck size) (hs : r.Sound p) : ¬ r.isEnd = true := by
  intro he
  obtain ⟨hlist, hcur⟩ := (isEnd_iff hs.window).mp he
  rcases h with ⟨hlt, -⟩ | ⟨x, hx, -⟩
  · exact hlt.ne hcur
  · rw [hlist] at hx
    cases hx

theorem steps_or_stuck (r : PageReaderInterval) (hsize : 0 < size.val) : r.Steps size ∨ r.Stuck size := by
  by_cases hcur : r.curPosBegin < r.curPosEnd ∧ 2 ^ 64 ≤ r.curPosBegin + size.val
  · exact .inr (.inl hcur)
  · by_cases hlist : ∃ x, x ∈ r.readPosList ∧ x.1 < x.2 ∧ 2 ^ 64 ≤ x.1 + size.val
    · exact .inr (.inr hlist)
    · refine .inl ⟨hsize, fun hlt => ?_, fun x hx hlt => ?_⟩
      · exact not_le.mp fun hle => hcur ⟨hlt, hle⟩
      · exact not_le.mp fun hle => hlist ⟨x, hx, hlt, hle⟩

theorem Stuck.nextPos (h : r.Stuck size) (hn : r.nextPos = .ok r') : r'.Stuck size := by
  unfold PageReaderInterval.nextPos at hn
  by_cases hcur : r.curPosBegin = r.curPosEnd
  · rw [if_pos hcur] at hn
    rcases h with ⟨hlt, -⟩ | ⟨x, hx, hwrap⟩
    · exact absurd hcur hlt.ne
    · cases hlist : r.readPosList with
      | nil =>
        rw [hlist] at hx
        cases hx
      | cons y rest =>
        simp only [hlist] at hn hx
        obtain rfl := Except.ok.inj hn
        rcases List.mem_cons.mp hx with rfl | hx
        · exact .inl hwrap
        · exact .inr ⟨x, hx, hwrap⟩
  · rw [if_neg hcur] at hn
    obtain rfl := Except.ok.inj hn
    exact h

/-- It still does after a call of `readNext`. -/
theorem Stuck.readNext (h : r.Stuck size) (hs : r.Sound p) (hp : r.PastPoint p)
    (hread : ∀ i, i ∈ r.pending → p.Readable i) : ∃ out r', r.readNextBy size p = .ok (out, r', p) ∧
      r'.Stuck size ∧ r'.Sound p ∧ r'.PastPoint p ∧ ∀ i, i ∈ r'.pending → p.Readable i := by
  have he := h.not_end hs
  obtain ⟨r₁, h₁, hs₁, hpend, -, -, heq⟩ := nextPos_spec hs he
  obtain ⟨n, hn⟩ : ∃ n, min (r₁.readTo size - r₁.curPosBegin) (r₁.curPosEnd - r₁.curPosBegin) = n := ⟨_, rfl⟩
  have hcur := hs₁.cur
  have hle : n ≤ r₁.curPosEnd - r₁.curPosBegin := hn ▸ Nat.min_le_right ..
  rw [← hpend, pending_advance hle, List.forall_mem_append] at hread
  refine ⟨_, _, (readNext_iff hs hp he h₁ hs₁ hn).mpr ⟨hread.1, rfl⟩, ?_,
    ⟨hs₁.window, hs₁.inside, ?_, hs₁.list, hs₁.short⟩, ?_, hread.2⟩
  · rcases h.nextPos h₁ with ⟨hlt, hwrap⟩ | hlist
    · -- the loop ends before it begins
      have hnone : n = 0 := by
        have hsize := size.isLt
        have hshort := hs₁.short
        unfold readTo at hn
        omega
      rw [hnone]
      exact .inl ⟨hlt, hwrap⟩
    · exact .inr hlist
  · show r₁.curPosBegin + n ≤ r₁.curPosEnd ∧ _
    exact ⟨by omega, hcur.2⟩
  · rw [heq]
    exact hp

/-- No number of calls is enough. -/
theorem Stuck.readAll (h : r.Stuck size) (hs : r.Sound p) (hp : r.PastPoint p)
    (hread : ∀ i, i ∈ r.pending → p.Readable i) (fuel : Nat) : r.readAllBy size fuel p = .error .outOfFuel := by
  induction fuel generalizing r with
  | zero => rfl
  | succ fuel ih =>
    obtain ⟨out, r', hnext, h', hs', hp', hread'⟩ := h.readNext hs hp hread
    unfold readAllBy
    rw [if_neg (h.not_end hs), hnext]
    simp only [bind, Except.bind, ih h' hs' hp' hread']

end

/-! ### Ranges of positions -/

/-- A reader with the query `q` of an interval, to which the ranges were added. -/
def ofRanges (q : PageReader) (fromTime toTime : Time) (ranges : List (Nat × Nat)) : PageReaderInterval :=
  ranges.foldl (fun r x => r.addReadPos x.1 x.2)
    {PageReaderInterval.new with toPageReader := q, fromTime := fromTime, toTime := toTime}

theorem ofRanges_eq (q : PageReader) (fromTime toTime : Time) (ranges : List (Nat × Nat)) :
    ofRanges q fromTime toTime ranges = ⟨q, fromTime, toTime, false, ranges, 0, 0, false, false⟩ := by
  have hfold : ∀ r : PageReaderInterval, ranges.foldl (fun r x => r.addReadPos x.1 x.2) r =
      {r with readPosList := r.readPosList ++ ranges} := by
    induction ranges with
    | nil => simp
    | cons x ranges ih =>
      intro r
      rw [List.foldl_cons, ih]
      simp [addReadPos]
  unfold ofRanges
  rw [hfold]
  rfl

/-- The positions of the ranges, in order. -/
def rangePositions (ranges : List (Nat × Nat)) : List Nat := ranges.flatMap fun x => List.range' x.1 (x.2 - x.1)

theorem ranges_readable {p : Page} {all : List Meas} (hr : p.Reads all) {ranges : List (Nat × Nat)}
    (hranges : ∀ x, x ∈ ranges → x.1 ≤ x.2 ∧ x.2 ≤ p.header.writePos) :
    ∀ i, i ∈ rangePositions ranges → p.Readable i := by
  intro i hi
  obtain ⟨x, hx, hi⟩ := List.mem_flatMap.mp hi
  have := hranges x hx
  have := List.mem_range'_1.mp hi
  exact (readable_of_ok (hr.readAt i (by rw [hr.length]; omega))).2

/-- The values at the beginning of the interval are due: there are ranges, and it begins on the page. -/
def PointDue (p : Page) (fromTime : Time) (ranges : List (Nat × Nat)) : Prop :=
  p.header.minTime ≤ fromTime ∧ ranges ≠ []

/-- With enough calls of `readNext` the reader delivers the values at the beginning of the interval, if these
are due, and then the measurements of the ranges that it lets through. -/
def ReadsRanges (size : U64) (q : PageReader) (fromTime toTime : Time) (ranges : List (Nat × Nat)) (p : Page) : Prop :=
  ∃ ms first p' steps, (rangePositions ranges).mapM (fun i => p.readAt i) = .ok ms ∧
    (PointDue p fromTime ranges → q.timePointRead fromTime p = .ok (first, p')) ∧
    (¬ PointDue p fromTime ranges → first = [] ∧ p' = p) ∧
    ∀ fuel, steps ≤ fuel → (ofRanges q fromTime toTime ranges).readAllBy size fuel p =
      .ok (first ++ ms.filter (ofRanges q fromTime toTime ranges).passes, p')

section
variable {size : U64} {q : PageReader} {fromTime toTime : Time} {ranges : List (Nat × Nat)} {p : Page}

theorem ofRanges_sound (hfrom : fromTime ≤ p.header.maxTime)
    (hranges : ∀ x, x ∈ ranges → x.1 ≤ x.2 ∧ x.2 ≤ p.header.writePos) (hshort : p.header.writePos < 2 ^ 59) :
    (ofRanges q fromTime toTime ranges).Sound p := by
  rw [ofRanges_eq]
  exact ⟨rfl, hfrom, ⟨le_rfl, Nat.zero_le _⟩, hranges, hshort⟩

/-- The reader after the values at the beginning. -/
def pastPoint (r : PageReaderInterval) : PageReaderInterval := {r with valuesInPointReader := true}

theorem Sound.pastPoint {r : PageReaderInterval} (hs : r.Sound p) (ix : Index) :
    r.pastPoint.Sound {p with index := ix} :=
  ⟨hs.window, hs.inside, hs.cur, hs.list, hs.short⟩

/-- The first call puts out what is due before the rest. -/
theorem readAll_due {r : PageReaderInterval} {first : List Meas} {p' : Page} (hs : r.Sound p)
    (hmin : p.header.minTime ≤ r.fromTime) (hfirst : r.valuesInPointReader = false) (he : ¬ r.isEnd = true)
    (hpoint : r.timePointRead r.fromTime p = .ok (first, p')) (fuel : Nat) :
    r.readAllBy size (fuel + 1) p =
      (r.pastPoint.readAllBy size (fuel + 1) p').map fun x => (first ++ x.1, x.2) := by
  obtain ⟨ix, rfl, -⟩ := timePointRead_index hpoint
  have hin : r.readInPoint p = .ok (first, r.pastPoint, {p with index := ix}) := by
    unfold readInPoint
    rw [if_pos ⟨hmin, hfirst⟩]
    simp only [hpoint, bind, Except.bind, pure, Except.pure]
    rfl
  exact readAll_point hs (hs.pastPoint ix) he he hin (.inl rfl) fuel

theorem ofRanges_pending : (ofRanges q fromTime toTime ranges).pending = rangePositions ranges := by
  rw [ofRanges_eq]
  rfl

theorem ofRanges_isEnd : (ofRanges q fromTime toTime ranges).isEnd = true ↔ ranges = [] := by
  rw [ofRanges_eq, isEnd_iff rfl]
  exact and_iff_left rfl

theorem ofRanges_steps_iff (hsize : 0 < size.val) : (ofRanges q fromTime toTime ranges).Steps size ↔
    ∀ x, x ∈ ranges → x.1 < x.2 → x.1 + size.val < 2 ^ 64 := by
  rw [ofRanges_eq]
  exact ⟨fun h => h.list, fun h => ⟨hsize, fun hlt => absurd hlt (lt_irrefl 0), h⟩⟩

/-- Where the values at the beginning are not due, the reader is past them or has nothing to read. -/
theorem ofRanges_past (d : ¬ PointDue p fromTime ranges) (hne : ranges ≠ []) :
    (ofRanges q fromTime toTime ranges).PastPoint p := by
  rw [ofRanges_eq]
  exact .inr (not_le.mp fun hmin => d ⟨hmin, hne⟩)

/-- What is due comes first, and the rest from the page that was searched for it. -/
theorem ofRanges_due {first : List Meas} {p' : Page} (hs : (ofRanges q fromTime toTime ranges).Sound p)
    (d : PointDue p fromTime ranges) (hpoint : q.timePointRead fromTime p = .ok (first, p')) (fuel : Nat) :
    (ofRanges q fromTime toTime ranges).readAllBy size (fuel + 1) p =
      ((ofRanges q fromTime toTime ranges).pastPoint.readAllBy size (fuel + 1) p').map
        fun x => (first ++ x.1, x.2) := by
  have hend : ¬ (ofRanges q fromTime toTime ranges).isEnd = true := fun he => d.2 (ofRanges_isEnd.mp he)
  rw [ofRanges_eq] at hs hend ⊢
  exact readAll_due hs d.1 rfl hend hpoint fuel

/-- What the reader of some ranges delivers, if it stays at none of them. -/
theorem ofRanges_readAll_iff (hs : (ofRanges q fromTime toTime ranges).Sound p)
    (hsteps : (ofRanges q fromTime toTime ranges).Steps size) {fuel : Nat}
    (hf : (ofRanges q fromTime toTime ranges).work < fuel) {x : List Meas × Page} :
    (ofRanges q fromTime toTime ranges).readAllBy size fuel p = .ok x ↔
      (∀ i, i ∈ rangePositions ranges → p.Readable i) ∧
        ∃ first p', (PointDue p fromTime ranges → q.timePointRead fromTime p = .ok (first, p')) ∧
          (¬ PointDue p fromTime ranges → first = [] ∧ p' = p) ∧
          x = (first ++ ((rangePositions ranges).map p.valueAt).filter (ofRanges q fromTime toTime ranges).passes,
            p') := by
  obtain ⟨n, rfl⟩ : ∃ n, fuel = n + 1 := ⟨fuel - 1, by omega⟩
  by_cases d : PointDue p fromTime ranges
  swap
  -- nothing comes before the ranges
  · have hrest : (ofRanges q fromTime toTime ranges).readAllBy size (n + 1) p = .ok x ↔
        (∀ i, i ∈ rangePositions ranges → p.Readable i) ∧
          x = (((rangePositions ranges).map p.valueAt).filter (ofRanges q fromTime toTime ranges).passes, p) := by
      by_cases hnil : ranges = []
      · unfold readAllBy
        rw [if_pos (ofRanges_isEnd.mpr hnil), hnil]
        simp [rangePositions, eq_comm]
      · rw [readAll_iff hs (ofRanges_past d hnil) hsteps hf, ofRanges_pending]
    rw [hrest]
    refine and_congr_right fun _ => ⟨?_, ?_⟩
    · rintro rfl
      exact ⟨[], p, fun hd => absurd hd d, fun _ => ⟨rfl, rfl⟩, rfl⟩
    · rintro ⟨first, p', -, hnone, rfl⟩
      obtain ⟨rfl, rfl⟩ := hnone d
      rfl
  -- after the values at the beginning the same page is read, with another index
  have hrest : ∀ {first p'}, q.timePointRead fromTime p = .ok (first, p') →
      ((ofRanges q fromTime toTime ranges).readAllBy size (n + 1) p = .ok x ↔
        (∀ i, i ∈ rangePositions ranges → p.Readable i) ∧ x = (first ++
          ((rangePositions ranges).map p.valueAt).filter (ofRanges q fromTime toTime ranges).passes, p')) := by
    intro first p' hpoint
    obtain ⟨ix, rfl, -⟩ := timePointRead_index hpoint
    have hsteps' : (ofRanges q fromTime toTime ranges).pastPoint.Steps size :=
      ⟨hsteps.sizePos, hsteps.cur, hsteps.list⟩
    have hpend : (ofRanges q fromTime toTime ranges).pastPoint.pending = rangePositions ranges := ofRanges_pending
    have hall : ∀ y, (ofRanges q fromTime toTime ranges).pastPoint.readAllBy size (n + 1) {p with index := ix} =
        .ok y ↔ _ := fun y => readAll_iff (hs.pastPoint ix) (.inl rfl) hsteps' hf
    rw [hpend] at hall
    rw [ofRanges_due hs d hpoint]
    constructor
    · intro h
      cases hy : (ofRanges q fromTime toTime ranges).pastPoint.readAllBy size (n + 1) {p with index := ix} with
      | error e =>
        rw [hy] at h
        cases h
      | ok y =>
        obtain ⟨hread, rfl⟩ := (hall y).mp hy
        rw [hy] at h
        exact ⟨hread, (Except.ok.inj h).symm⟩
    · rintro ⟨hread, rfl⟩
      rw [(hall _).mpr ⟨hread, rfl⟩]
      rfl
  constructor
  · intro h
    have hend : ¬ (ofRanges q fromTime toTime ranges).isEnd = true := fun he => d.2 (ofRanges_isEnd.mp he)
    obtain ⟨⟨first, p'⟩, hpoint⟩ : ∃ y, q.timePointRead fromTime p = .ok y := by
      rw [ofRanges_eq] at h hend
      unfold readAllBy at h
      rw [if_neg hend] at h
      obtain ⟨y, hnext, -⟩ := bind_ok h
      unfold readNextBy readInPoint at hnext
      rw [ofRanges_eq] at hs
      rw [if_neg hend, if_neg (not_lt.mpr hs.inside), if_pos ⟨d.1, rfl⟩] at hnext
      obtain ⟨z, hpoint, -⟩ := bind_ok hnext
      obtain ⟨y, hpoint, -⟩ := bind_ok hpoint
      exact ⟨y, hpoint⟩
    obtain ⟨hread, rfl⟩ := (hrest hpoint).mp h
    exact ⟨hread, first, p', fun _ => hpoint, fun hd => absurd d hd, rfl⟩
  · rintro ⟨hread, first, p', hdue, -, rfl⟩
    exact (hrest (hdue d)).mpr ⟨hread, rfl⟩

/-- A reader that delivers its ranges stays at none of them. -/
theorem ReadsRanges.steps (hs : (ofRanges q fromTime toTime ranges).Sound p) (hsize : 0 < size.val)
    (h : ReadsRanges size q fromTime toTime ranges p) : (ofRanges q fromTime toTime ranges).Steps size := by
  obtain ⟨ms, first, p', steps, hms, hdue, -, hrun⟩ := h
  have hread : ∀ i, i ∈ (ofRanges q fromTime toTime ranges).pending → p.Readable i := by
    rw [ofRanges_pending]
    exact (mapM_readAt_iff.mp hms).1
  refine ((ofRanges q fromTime toTime ranges).steps_or_stuck hsize).resolve_right fun hstuck => ?_
  by_cases d : PointDue p fromTime ranges
  · have hpoint := hdue d
    obtain ⟨ix, rfl, -⟩ := timePointRead_index hpoint
    have hstuck' : (ofRanges q fromTime toTime ranges).pastPoint.Stuck size := hstuck
    have hnone := hstuck'.readAll (hs.pastPoint ix) (.inl rfl) hread (steps + 1)
    have hsome := hrun (steps + 1) (Nat.le_succ _)
    rw [ofRanges_due hs d hpoint, hnone] at hsome
    cases hsome
  · have hne : ranges ≠ [] := fun hnil => hstuck.not_end hs (ofRanges_isEnd.mpr hnil)
    have hsome := hrun steps le_rfl
    rw [hstuck.readAll hs (ofRanges_past d hne) hread] at hsome
    cases hsome

/-- A reader that stays nowhere delivers its ranges, if these and the values at the beginning can be read. -/
theorem Steps.readsRanges (hsteps : (ofRanges q fromTime toTime ranges).Steps size)
    (hs : (ofRanges q fromTime toTime ranges).Sound p) (hread : ∀ i, i ∈ rangePositions ranges → p.Readable i)
    (hpoint : PointDue p fromTime ranges → ∃ x, q.timePointRead fromTime p = .ok x) :
    ReadsRanges size q fromTime toTime ranges p := by
  obtain ⟨first, p', hdue, hnone⟩ : ∃ first p', (PointDue p fromTime ranges →
      q.timePointRead fromTime p = .ok (first, p')) ∧ (¬ PointDue p fromTime ranges → first = [] ∧ p' = p) := by
    by_cases d : PointDue p fromTime ranges
    · obtain ⟨⟨first, p'⟩, hpoint⟩ := hpoint d
      exact ⟨first, p', fun _ => hpoint, fun hd => absurd d hd⟩
    · exact ⟨[], p, fun hd => absurd hd d, fun _ => ⟨rfl, rfl⟩⟩
  refine ⟨_, first, p', (ofRanges q fromTime toTime ranges).work + 1, mapM_readAt_iff.mpr ⟨hread, rfl⟩, hdue, hnone,
    fun fuel hfuel => ?_⟩
  exact (ofRanges_readAll_iff hs hsteps hfuel).mpr ⟨hread, first, p', hdue, hnone, rfl⟩

/-- A reader of some ranges of the page delivers the values at the beginning of the interval and what it lets
through of the ranges if and only if the positions of the ranges can be read, the page can be read
backwards where these values are due, and `read_to` wraps at the beginning of no range that is not empty. -/
theorem ofRanges_reads_iff {fsize : U64} {log : List Meas} {recs : List IndexRecord} (h : Posted fsize log recs p)
    (hpos : 0 < p.header.writePos) (hsize : 0 < size.val) (hfrom : fromTime ≤ p.header.maxTime)
    (hranges : ∀ x, x ∈ ranges → x.1 ≤ x.2 ∧ x.2 ≤ p.header.writePos) : ReadsRanges size q fromTime toTime ranges p ↔
      (∀ i, i ∈ rangePositions ranges → p.Readable i) ∧
      (PointDue p fromTime ranges → PointLegible q.ids q.source q.flag fromTime p) ∧
      ∀ x, x ∈ ranges → x.1 < x.2 → x.1 + size.val < 2 ^ 64 := by
  have hs : (ofRanges q fromTime toTime ranges).Sound p := ofRanges_sound hfrom hranges h.areas.short
  constructor
  · intro hreads
    have hsteps := (ofRanges_steps_iff hsize).mp (hreads.steps hs hsize)
    obtain ⟨ms, first, p', steps, hms, hdue, -⟩ := hreads
    refine ⟨(mapM_readAt_iff.mp hms).1, fun d => ?_, hsteps⟩
    exact (h.timePointRead_iff hpos hfrom).mp ⟨_, hdue d⟩
  · rintro ⟨hread, hpoint, hsteps⟩
    refine Steps.readsRanges ((ofRanges_steps_iff hsize).mpr hsteps) hs hread fun d => ?_
    exact (h.timePointRead_iff hpos hfrom).mpr (hpoint d)

end
end Nkvdb.PageReaderInterval

namespace Nkvdb.Page
open PageReaderInterval

/-! ### The ranges of an interval -/

/-- The ranges of positions that `readInterval` gives its reader. -/
def intervalRanges (ids : List Id) (source flag : Flag) (fromTime toTime : Time) (p : Page) :
    Except Fault (List (Nat × Nat) × Page) :=
  if fromTime ≤ p.header.minTime ∧ p.header.maxTime ≤ toTime then pure ([(0, p.header.writePos)], p)
  else do
    let (irecords, ix) ← p.index.findInIndex ids fromTime toTime flag source
    pure (irecords.map fun r => (r.pos, r.pos + r.count), {p with index := ix})

section
variable {fsize : U64} {log : List Meas} {recs : List IndexRecord} {p p' : Page} {ids : List Id} {source flag : Flag}
  {fromTime toTime : Time} {ranges : List (Nat × Nat)}

theorem readInterval_eq (hpos : p.header.writePos ≠ 0) (hmax : fromTime ≤ p.header.maxTime) :
    p.readInterval ids source flag fromTime toTime = (p.intervalRanges ids source flag fromTime toTime).map
      fun x => (some (ofRanges ⟨ids, source, flag, []⟩ fromTime toTime x.1), x.2) := by
  unfold readInterval intervalRanges
  rw [if_neg hpos, if_neg (not_lt.mpr hmax)]
  by_cases hwhole : fromTime ≤ p.header.minTime ∧ p.header.maxTime ≤ toTime
  · rw [if_pos hwhole, if_pos hwhole]
    by_cases hplain : ids.isEmpty = true ∧ source = 0 ∧ flag = 0
    · obtain ⟨hids, rfl, rfl⟩ := hplain
      obtain rfl := List.isEmpty_iff.mp hids
      rw [if_pos ⟨rfl, rfl, rfl⟩, readAll, if_neg hpos]
      simp only [pure, Except.pure, Except.map, ofRanges_eq]
      rfl
    · rw [if_neg hplain, readFromToPos, if_neg hpos]
      simp only [pure, Except.pure, Except.map, ofRanges_eq]
      rfl
  · rw [if_neg hwhole, if_neg hwhole]
    cases p.index.findInIndex ids fromTime toTime flag source with
    | error e => rfl
    | ok x =>
      simp only [bind, Except.bind, pure, Except.pure, Except.map, ofRanges_eq, foldl_addReadPos]
      rfl

/-- The ranges lie on the page, which is searched for them. -/
theorem Posted.intervalRanges_in (h : Posted fsize log recs p)
    (hr : p.intervalRanges ids source flag fromTime toTime = .ok (ranges, p')) :
    Posted fsize log recs p' ∧ Searched p p' ∧ ∀ x, x ∈ ranges → x.1 ≤ x.2 ∧ x.2 ≤ p'.header.writePos := by
  unfold intervalRanges at hr
  split at hr
  · obtain ⟨rfl, rfl⟩ := Prod.mk.inj (Except.ok.inj hr)
    refine ⟨h, ⟨p.index, rfl⟩, fun x hx => ?_⟩
    obtain rfl := List.mem_singleton.mp hx
    exact ⟨Nat.zero_le _, le_rfl⟩
  · obtain ⟨⟨found, ix⟩, hfind, hr⟩ := bind_ok hr
    obtain ⟨rfl, rfl⟩ := Prod.mk.inj (Except.ok.inj hr)
    have hf := Index.findInIndex_flush hfind
    obtain ⟨nodes, hw, hfound⟩ := h.logged.findInIndex hf ids fromTime toTime flag source
    obtain ⟨rfl, -⟩ := Prod.mk.inj (Except.ok.inj (hfind.symm.trans hfound))
    refine ⟨h.flush hf, ⟨ix, rfl⟩, fun x hx => ?_⟩
    obtain ⟨r, hmem, rfl⟩ := List.mem_map.mp hx
    exact ⟨Nat.le_add_right .., (h.joined hf hw hmem).2⟩

end
end Nkvdb.Page
