import Nkvdb.Storage.Directory

/-! Reading a storage at a time point.

Behind a page, and before the next, its window is delivered and nothing is missed. On a page
the window of the page before is delivered with what `backwardRead` finds, and that is all
where the page answers for its own (`Answers`); on the last page, where nothing is later than
the time point, no window is used and the page would have to answer for all. -/
namespace Nkvdb.Storage
open Page

section
variable {fsize : U64} {before log seg after : List Meas} {files : List PageFile} {f : PageFile} {p : Page}

/-! ### What a page answers -/

/-- A record in a leaf of the tree. -/
def Indexed (t : IndexTree) (r : IndexRecord) : Prop :=
  ∃ i kv, t.Made i ∧ (t.cache i).isLeaf = true ∧ kv ∈ (t.cache i).live ∧ kv.2 = r

/-- The positions of the page read back what was written in its times. -/
def Legible (log : List Meas) (f : PageFile) : Prop :=
  ∃ p, openFile f true = .ok p ∧
    ReadsBack (log.filter fun m => inInterval f.header.minTime f.header.maxTime m.time) p

/-- For each id whose newest measurement before the time point lies on the page, or on any page if
nothing is later than the time point, that measurement and the time point fall into one record. -/
def Answers (tp : Time) (log : List Meas) (f : PageFile) : Prop :=
  ∀ m, LatestBefore Meas.id Meas.time tp log m → (f.header.minTime ≤ m.time ∨ ∀ x, x ∈ log → x.time ≤ tp) →
    ∃ r, Indexed f.indexFile r ∧ r.minTime ≤ m.time ∧ tp ≤ r.maxTime

theorem indexed_iff {recs : List IndexRecord} (h : Posted fsize log recs p)
    (hp : p.index = Index.openFile indexCacheSize f.indexFile)
    {r : IndexRecord} : Indexed f.indexFile r ↔ r ∈ recs := by
  have hcache : p.index.cache = [] := by rw [hp]; rfl
  have htree : p.index.tree = f.indexFile := by rw [hp]; rfl
  obtain ⟨ht, l, -, hc, hperm, -⟩ := h.logged.records hcache
  rw [htree] at hc hperm
  rw [← hperm.mem_iff, List.mem_map]
  constructor
  · rintro ⟨i, kv, hm, hl, hkv, rfl⟩
    exact ⟨kv, List.mem_flatMap.mpr ⟨i, (hc.leaves i).mpr ⟨hm, hl⟩, hkv⟩, rfl⟩
  · rintro ⟨kv, hkv, rfl⟩
    obtain ⟨i, hi, hkv⟩ := List.mem_flatMap.mp hkv
    obtain ⟨hm, hl⟩ := (hc.leaves i).mp hi
    exact ⟨i, kv, hm, hl, hkv, rfl⟩

/-- What was written before a page is earlier than all of it. -/
theorem Bounds.before_lt (hb : Bounds f.header seg) (hi : Increasing (before ++ (seg ++ after))) {m : Meas}
    (hm : m ∈ before) : m.time < f.header.minTime := by
  obtain ⟨a, ha, hmin⟩ := hb.minMem
  rw [← hmin]
  exact (List.pairwise_append.mp hi).2.2 m hm a (List.mem_append_left _ ha)

/-- What was written after it is later. -/
theorem Bounds.after_gt (hb : Bounds f.header seg) (hi : Increasing (before ++ (seg ++ after))) {m : Meas}
    (hm : m ∈ after) : f.header.maxTime < m.time := by
  obtain ⟨-, his, -⟩ := List.pairwise_append.mp hi
  obtain ⟨b, hb', hmax⟩ := hb.maxMem
  rw [← hmax]
  exact (List.pairwise_append.mp his).2.2 b hb' m hm

/-- What is earlier than it was written before. -/
theorem Bounds.mem_before (hb : Bounds f.header seg) (hi : Increasing (before ++ (seg ++ after))) {m : Meas}
    (hm : m ∈ before ++ (seg ++ after)) (hmin : m.time < f.header.minTime) : m ∈ before := by
  obtain ⟨a, ha, he⟩ := hb.minMem
  refine (List.mem_append.mp hm).resolve_right fun hm => ?_
  rcases List.mem_append.mp hm with hm | hm
  · exact absurd (hb.le m hm).1 (not_le.mpr hmin)
  · have hle := (hb.le a ha).2
    rw [he] at hle
    exact absurd (hle.trans_lt (hb.after_gt hi hm)) (not_lt.mpr hmin.le)

/-- What was written in its times is on it. -/
theorem Bounds.mem_seg (hb : Bounds f.header seg) (hi : Increasing (before ++ (seg ++ after))) {m : Meas}
    (hm : m ∈ before ++ (seg ++ after)) (hmin : f.header.minTime ≤ m.time) (hmax : m.time ≤ f.header.maxTime) :
    m ∈ seg := by
  rcases List.mem_append.mp hm with hm | hm
  · exact absurd (hb.before_lt hi hm) (not_lt.mpr hmin)
  rcases List.mem_append.mp hm with hm | hm
  · exact hm
  · exact absurd (hb.after_gt hi hm) (not_lt.mpr hmax)

/-- What a page holds is what was written in its times. -/
theorem filter_within {after : List Meas} (hi : Increasing (before ++ (seg ++ after))) (hb : Bounds f.header seg) :
    ((before ++ (seg ++ after)).filter fun m => inInterval f.header.minTime f.header.maxTime m.time) = seg := by
  have hbefore : before.filter (fun m => inInterval f.header.minTime f.header.maxTime m.time) = [] := by
    refine List.filter_eq_nil_iff.mpr fun m hm => ?_
    simp [inInterval, not_le.mpr (hb.before_lt hi hm)]
  have hafter : after.filter (fun m => inInterval f.header.minTime f.header.maxTime m.time) = [] := by
    refine List.filter_eq_nil_iff.mpr fun m hm => ?_
    simp [inInterval, not_le.mpr (hb.after_gt hi hm)]
  have hseg : seg.filter (fun m => inInterval f.header.minTime f.header.maxTime m.time) = seg := by
    refine List.filter_eq_self.mpr fun m hm => ?_
    obtain ⟨h1, h2⟩ := hb.le m hm
    simp [inInterval, h1, h2]
  rw [List.filter_append, List.filter_append, hbefore, hafter, hseg, List.append_nil, List.nil_append]

/-! ### A page opened to be read -/

/-- A page opened to be read, with what lies on it. -/
structure Reading (fsize : U64) (seg : List Meas) (recs : List IndexRecord) (f : PageFile) (p : Page) : Prop where
  opened : openFile f true = .ok p
  posted : Posted fsize seg recs p
  increasing : Increasing seg
  nonempty : seg ≠ []
  flushed : p.index.flush = .ok p.index
  minTime : p.header.minTime = f.header.minTime
  maxTime : p.header.maxTime = f.header.maxTime
  bounds : Bounds f.header seg
  indexed : ∀ r, Indexed f.indexFile r ↔ r ∈ recs

/-- What opening a page file in the middle of what was written gives. -/
theorem Saved.reading (hs : Saved fsize before seg f) (hwp : f.header.writePos ≠ 0)
    (hi : Increasing (before ++ (seg ++ after))) : ∃ p recs, Reading fsize seg recs f p ∧
      WriteWindow.Tracks (before ++ seg) p.writeWindow ∧ (Legible (before ++ (seg ++ after)) f → ReadsBack seg p) := by
  obtain ⟨hne, hb⟩ := hs.bounds hwp
  obtain ⟨p, hopen, hv⟩ := hs
  obtain ⟨recs, hposted⟩ := hv.posted
  obtain ⟨hminp, hmaxp, hwpp, hindex⟩ := openFile_header hopen
  obtain ⟨-, his, -⟩ := List.pairwise_append.mp hi
  have hflush : p.index.flush = .ok p.index := by
    rw [hindex]
    rfl
  refine ⟨p, recs, ⟨hopen, hposted, (List.pairwise_append.mp his).1, hne, hflush, hminp, hmaxp, hb,
    fun r => indexed_iff hposted hindex⟩, hv.tracks, ?_⟩
  rintro ⟨p', hopen', hback⟩
  obtain rfl := Except.ok.inj (hopen.symm.trans hopen')
  rwa [filter_within hi hb] at hback

namespace Reading
variable {recs : List IndexRecord}

theorem writePos (h : Reading fsize seg recs f p) : p.header.writePos ≠ 0 := by
  rw [h.posted.areas.writePos]
  exact (List.length_pos_iff.mpr h.nonempty).ne'

theorem least (h : Reading fsize seg recs f p) : ∀ m, m ∈ seg → p.header.minTime ≤ m.time := fun m hm =>
  h.minTime ▸ (h.bounds.le m hm).1

theorem greatest (h : Reading fsize seg recs f p) : ∀ m, m ∈ seg → m.time ≤ p.header.maxTime := fun m hm =>
  h.maxTime ▸ (h.bounds.le m hm).2

/-- A record begins with a measurement of the page. -/
theorem begins (h : Reading fsize seg recs f p) {r : IndexRecord} (hr : r ∈ recs) : f.header.minTime ≤ r.minTime ∧
    ∃ m, m ∈ seg ∧ m.time = r.minTime := by
  have hcr := h.posted.counts r hr
  have hin := hcr.inside
  have hsome := hcr.nonempty
  rw [hcr.minTime, nth_eq (by omega)]
  exact ⟨(h.bounds.le _ (List.getElem_mem _)).1, _, List.getElem_mem _, rfl⟩

/-- The newest measurements are all read if and only if the page answers for its own. -/
theorem answers_iff (h : Reading fsize seg recs f p) {carried : List Meas} {tp : Time}
    (hi : Increasing (before ++ (seg ++ after))) (hmax : tp ≤ f.header.maxTime)
    (hlast : (∀ x, x ∈ before ++ (seg ++ after) → x.time ≤ tp) → carried = [])
    (hnot : ¬ (∀ x, x ∈ before ++ (seg ++ after) → x.time ≤ tp) → carried = before) :
    (∀ m, LatestBefore Meas.id Meas.time tp (before ++ (seg ++ after)) m →
      m ∈ carried ++ seg.filter fun m => decide (Spans recs tp m)) ↔ Answers tp (before ++ (seg ++ after)) f := by
  have hspans : ∀ m, Spans recs tp m ↔ ∃ r, Indexed f.indexFile r ∧ r.minTime ≤ m.time ∧ tp ≤ r.maxTime := fun m =>
    exists_congr fun r => and_congr_left fun _ => (h.indexed r).symm
  constructor
  · intro hread m hm hown
    rw [← hspans]
    rcases List.mem_append.mp (hread m hm) with hmem | hmem
    · -- it was carried over, so it is not the page that answers for it
      exfalso
      by_cases hall : ∀ x, x ∈ before ++ (seg ++ after) → x.time ≤ tp
      · rw [hlast hall] at hmem
        cases hmem
      · rw [hnot hall] at hmem
        rcases hown with hge | hall'
        · exact absurd hge (not_le.mpr (h.bounds.before_lt hi hmem))
        · exact hall hall'
    · exact of_decide_eq_true (List.mem_filter.mp hmem).2
  · intro hall m hm
    have hown : f.header.minTime ≤ m.time ∨ m ∈ before :=
      (le_or_gt f.header.minTime m.time).imp_right (h.bounds.mem_before hi hm.mem)
    by_cases hcarried : m ∈ carried
    · exact List.mem_append_left _ hcarried
    have hasked : f.header.minTime ≤ m.time ∨ ∀ x, x ∈ before ++ (seg ++ after) → x.time ≤ tp := by
      refine hown.imp_right fun hmem => ?_
      by_contra hall
      rw [hnot hall] at hcarried
      exact hcarried hmem
    obtain ⟨r, hr, hle, hge⟩ := hall m hm hasked
    refine List.mem_append_right _ (List.mem_filter.mpr ⟨?_, decide_eq_true ((hspans m).mpr ⟨r, hr, hle, hge⟩)⟩)
    -- the record begins on the page, so the measurement is on it
    have hfirst := (h.begins ((h.indexed r).mp hr)).1
    exact h.bounds.mem_seg hi hm.mem (hfirst.trans hle) (hm.before.trans_le hmax).le

end Reading

/-! ### What is delivered -/

variable {pm : PageManager} {d : Directory pm} {tp : Time} {out : List Meas}

/-- With enough calls of `readNext` a read at a time point delivers the newest measurement of each id
before it, once, and nothing else. -/
def Delivers (d : Directory pm) (tp : Time) (log : List Meas) : Prop :=
  ∃ steps, ∀ fuel, steps ≤ fuel → ∃ out, d.readInTimePoint fuel tp = .ok out ∧ TimePoint tp log out

theorem delivers_iff (h : ∀ fuel, 2 ≤ fuel → d.readInTimePoint fuel tp = .ok out) :
    Delivers d tp log ↔ TimePoint tp log out := by
  constructor
  · rintro ⟨steps, hall⟩
    obtain ⟨out', hrun, hout⟩ := hall (max steps 2) (le_max_left ..)
    obtain rfl := Except.ok.inj ((h _ (le_max_right ..)).symm.trans hrun)
    exact hout
  · exact fun hout => ⟨2, fun fuel hfuel => ⟨out, h fuel hfuel, hout⟩⟩

/-- A page alone is read, by whatever it is reached. -/
theorem readInTimePoint_one {name prev : String} {w : WriteWindow} {p' : Page}
    (hsel : Storage.readInTimePoint [] 0 0 tp d.pages = ⟨[name], prev⟩) (htp : tp ≠ 0)
    (hopen : openFile (d.disk name) true = .ok p)
    (hw : windowOf d.disk prev = .ok w) (hpos : p.header.writePos ≠ 0)
    (hread : (⟨[], 0, 0, w⟩ : PageReader).timePointRead tp p = .ok (out, p')) {fuel : Nat} (hf : 2 ≤ fuel) :
    d.readInTimePoint fuel tp = .ok out := by
  unfold Directory.readInTimePoint timePointReader
  rw [hsel]
  exact StorageReader.AtPoint.readAll ⟨rfl, rfl, htp⟩ hopen ((prevWw_eq d.disk _).trans hw) hpos hread hf

/-- The window of the page before has the newest of everything up to there. -/
theorem carried_window {names : List String} (hnamed : ∀ n, n ∈ names → n ≠ "")
    (h : Volumes fsize before (names.map d.disk))
    (hi : Increasing before) (hpos : ∀ m, m ∈ before → 0 < m.time) (hlt : ∀ m, m ∈ before → m.time < tp) :
    ∃ w, windowOf d.disk (lastName (names.map fun n => ⟨(d.disk n).header, n⟩)) = .ok w ∧
      TimePoint tp before (w.filter fun m => m.time != 0) := by
  rcases List.eq_nil_or_concat names with rfl | ⟨earlier, n, he⟩
  · refine ⟨[], rfl, ?_⟩
    rw [h.eq_nil rfl]
    exact Snapshot.none fun x hx => absurd hx List.not_mem_nil
  · rw [List.concat_eq_append] at he
    subst he
    have hlast : lastName ((earlier ++ [n]).map fun n => ⟨(d.disk n).header, n⟩) = n := by
      unfold lastName
      rw [List.map_append, List.map_singleton, List.getLast?_concat]
    have hne := hnamed n (List.mem_append_right _ List.mem_cons_self)
    rw [List.map_append, List.map_singleton] at h
    obtain ⟨before', seg', rfl, -, q, hopen, hv⟩ := h.last rfl
    have hwindow : windowOf d.disk n = .ok q.writeWindow := by
      unfold windowOf
      rw [if_pos hne, hopen]
      rfl
    rw [hlast]
    exact ⟨_, hwindow, timePoint_window hv.tracks hi hpos hlt⟩

/-- What is written before a page ends is not later than the page. -/
theorem Bounds.le_max (hb : Bounds f.header seg) (hi : Increasing (before ++ seg)) {m : Meas} (hm : m ∈ before ++ seg) :
    m.time ≤ f.header.maxTime := by
  obtain ⟨b, hb', heb⟩ := hb.maxMem
  rcases List.mem_append.mp hm with hm | hm
  · rw [← heb]
    exact ((List.pairwise_append.mp hi).2.2 m hm b hb').le
  · exact (hb.le m hm).2

/-- A page whose areas are apart is legible. -/
theorem Saved.legible {after : List Meas} (h : Saved fsize before seg f) (hb : Bounds f.header seg)
    (hi : Increasing (before ++ (seg ++ after))) (hfits : Fits fsize seg) (hsize : ∀ m, m ∈ seg → m.size.val ≤ 8) :
    Legible (before ++ (seg ++ after)) f := by
  obtain ⟨p, hopen, hv⟩ := h
  obtain ⟨recs, hposted⟩ := hv.posted
  refine ⟨p, hopen, ?_⟩
  rw [filter_within hi hb]
  exact (hv.stored hfits).readsBack hposted.areas hfits hsize

/-- The record area of a page ends before its values begin. -/
def Apart (f : PageFile) : Prop :=
  recordPos f.header.writePos ≤ f.header.writeValuePos.val ∧ f.header.writeValuePos.val ≤ f.header.size.val

instance : DecidablePred Apart := fun f => by
  unfold Apart
  infer_instance

/-- Pages whose areas are apart are legible. -/
theorem Volumes.legible {files : List PageFile} (h : Volumes fsize log files)
    (hwp : ∀ f, f ∈ files → f.header.writePos ≠ 0)
    (hi : Increasing log) (hsize : ∀ m, m ∈ log → m.size.val ≤ 8) (hf : f ∈ files) (hapart : Apart f) :
    Legible log f := by
  obtain ⟨earlier, later, rfl⟩ := List.append_of_mem hf
  obtain ⟨before, seg, after, rfl, -, hs, -⟩ := h.split
  have hb := (hs.bounds (hwp f hf)).2
  refine hs.legible hb hi ?_ fun m hm => hsize m (List.mem_append_right _ (List.mem_append_left _ hm))
  obtain ⟨p, hopen, hv⟩ := hs
  obtain ⟨recs, hposted⟩ := hv.posted
  obtain ⟨-, -, w, -, rfl⟩ := openFile_iff.mp hopen
  exact hposted.areas.layout_iff.mp ⟨hapart.1, hapart.2⟩

/-- No page is read. -/
theorem readInTimePoint_none (hsel : Storage.readInTimePoint [] 0 0 tp d.pages = ⟨[], ""⟩) {fuel : Nat}
    (hf : 2 ≤ fuel) : d.readInTimePoint fuel tp = .ok [] := by
  obtain ⟨fuel, rfl⟩ : ∃ n, fuel = n + 1 := ⟨fuel - 1, by omega⟩
  unfold Directory.readInTimePoint timePointReader
  rw [hsel]
  rfl

/-- Where no page begins by the time point there is nothing to deliver. -/
theorem delivers_none (hvs : Volumes fsize log (pageFiles pm)) (hwp : ∀ f, f ∈ pageFiles pm → f.header.writePos ≠ 0)
    (hmin : ∀ f, f ∈ pageFiles pm → tp < f.header.minTime)
    (hsel : Storage.readInTimePoint [] 0 0 tp d.pages = ⟨[], ""⟩) :
    Delivers d tp log := by
  refine (delivers_iff fun _ hfuel => readInTimePoint_none hsel hfuel).mpr (Snapshot.none fun m hm => ?_)
  obtain ⟨f, hf, hle, -⟩ := hvs.covers hwp hm
  exact (hmin f hf).le.trans hle

/-- Behind a page, and before the next, its window is delivered. -/
theorem delivers_after {name : String} (hs : Saved fsize before seg (d.disk name))
    (hwp : (d.disk name).header.writePos ≠ 0)
    (hi : Increasing (before ++ (seg ++ after))) (hpos : ∀ m, m ∈ before ++ (seg ++ after) → 0 < m.time) (htp : 0 < tp)
    (hmax : (d.disk name).header.maxTime < tp) (hafter : ∀ m, m ∈ after → tp < m.time)
    (hsel : Storage.readInTimePoint [] 0 0 tp d.pages = ⟨[name], ""⟩) : Delivers d tp (before ++ (seg ++ after)) := by
  obtain ⟨p, recs, hr, htracks, -⟩ := hs.reading hwp hi
  rw [← List.append_assoc] at hi hpos ⊢
  have hib := (List.pairwise_append.mp hi).1
  have hlt : ∀ m, m ∈ before ++ seg → m.time < tp := fun m hm => (hr.bounds.le_max hib hm).trans_lt hmax
  have hwindow := timePoint_window htracks hib (fun m hm => hpos m (List.mem_append_left _ hm)) hlt
  have hread := timePointRead_window (r := ⟨[], 0, 0, []⟩) (p := p) ⟨rfl, rfl, rfl⟩ (hr.maxTime ▸ hmax)
  refine (delivers_iff fun fuel hfuel => ?_).mpr (hwindow.congr fun m hm => ?_)
  · exact readInTimePoint_one hsel htp.ne' hr.opened rfl hr.writePos hread hfuel
  · rw [List.mem_append]
    exact or_iff_left fun h => absurd hm (hafter m h).le.not_gt

/-- On a page that reads back, what is delivered is decided by the records of its index. -/
theorem delivers_within {name prev : String} {carried : List Meas} {w : WriteWindow}
    (hs : Saved fsize before seg (d.disk name)) (hwp : (d.disk name).header.writePos ≠ 0)
    (hi : Increasing (before ++ (seg ++ after))) (hleg : Legible (before ++ (seg ++ after)) (d.disk name))
    (htp : 0 < tp) (hmax : tp ≤ (d.disk name).header.maxTime) (hw : windowOf d.disk prev = .ok w)
    (hc : TimePoint tp carried (w.filter fun m => m.time != 0))
    (hlast : (∀ x, x ∈ before ++ (seg ++ after) → x.time ≤ tp) → carried = [])
    (hnot : ¬ (∀ x, x ∈ before ++ (seg ++ after) → x.time ≤ tp) → carried = before)
    (hsel : Storage.readInTimePoint [] 0 0 tp d.pages = ⟨[name], prev⟩) :
    Delivers d tp (before ++ (seg ++ after)) ↔ Answers tp (before ++ (seg ++ after)) (d.disk name) := by
  obtain ⟨p, recs, hr, -, hback⟩ := hs.reading hwp hi
  obtain ⟨-, -, hbs⟩ := List.pairwise_append.mp hi
  have hcarried : ∀ x, x ∈ carried → x ∈ before := by
    by_cases hall : ∀ x, x ∈ before ++ (seg ++ after) → x.time ≤ tp
    · rw [hlast hall]
      exact fun x hx => absurd hx List.not_mem_nil
    · rw [hnot hall]
      exact fun x hx => hx
  obtain ⟨out, p', hread, hout⟩ := hr.posted.timePointRead hr.increasing hr.nonempty hr.flushed (hback hleg)
    hr.least hr.greatest (hr.maxTime ▸ hmax) (r := ⟨[], 0, 0, w⟩) ⟨rfl, rfl, rfl⟩ hc
    fun x y hx hy => hbs x (hcarried x hx) y (List.mem_append_left _ hy)
  rw [delivers_iff fun fuel hfuel => readInTimePoint_one hsel htp.ne' hr.opened hw hr.writePos hread hfuel]
  rw [← hr.answers_iff hi hmax hlast hnot]
  refine hout.sub_iff (fun y hy => ?_) (fun v x h => h.time) hi.times
  rcases List.mem_append.mp hy with hy | hy
  · exact List.mem_append_left _ (hcarried y hy)
  · exact List.mem_append_right _ (List.mem_append_left _ (List.mem_of_mem_filter hy))

/-- Nothing is later than a time point on a page if the page ends there and none comes after it. -/
theorem none_later_iff {later : List PageFile} (hb : Bounds f.header seg) (hi : Increasing (before ++ (seg ++ after)))
    (hafter : ∀ m, m ∈ after → ∃ g before' seg', g ∈ later ∧ Saved fsize before' seg' g ∧ m ∈ seg')
    (hlater : ∀ g, g ∈ later → tp < g.header.minTime)
    (hends : ∀ g, g ∈ later → g.header.minTime ≤ g.header.maxTime ∧
      ∃ m, m ∈ before ++ (seg ++ after) ∧ m.time = g.header.maxTime) :
    (∀ x, x ∈ before ++ (seg ++ after) → x.time ≤ tp) ↔ f.header.maxTime ≤ tp ∧ later = [] := by
  constructor
  · intro hall
    obtain ⟨b, hb', heb⟩ := hb.maxMem
    refine ⟨?_, ?_⟩
    · rw [← heb]
      exact hall b (List.mem_append_right _ (List.mem_append_left _ hb'))
    · apply List.eq_nil_iff_forall_not_mem.mpr
      intro g hg
      obtain ⟨hle, m, hm, hem⟩ := hends g hg
      exact absurd (hem ▸ hall m hm) (not_le.mpr ((hlater g hg).trans_le hle))
  · rintro ⟨hlast, rfl⟩ x hx
    have hnone : after = [] := by
      refine List.eq_nil_iff_forall_not_mem.mpr fun m hm => ?_
      obtain ⟨g, _, _, hg, -⟩ := hafter m hm
      cases hg
    rw [hnone, List.append_nil] at hi hx
    exact (hb.le_max hi hx).trans hlast

/-- Of pages none of which is empty. -/
theorem delivers_answers (hvs : Volumes fsize log (pageFiles pm)) (hwp : ∀ f, f ∈ pageFiles pm → f.header.writePos ≠ 0)
    (hi : Increasing log) (hpos : ∀ m, m ∈ log → 0 < m.time) (htp : 0 < tp)
    (hleg : ∀ f, f ∈ pageFiles pm → Within tp f → Legible log f) :
    Delivers d tp log ↔ ∀ f, f ∈ pageFiles pm → Within tp f → Answers tp log f := by
  obtain ⟨hp, hends⟩ := hvs.ascending hi hwp
  have hle : ∀ f, f ∈ pageFiles pm → f.header.minTime ≤ f.header.maxTime := fun f hf => (hends f hf).1
  have hmap := d.map_disk hp hle
  obtain ⟨sel, hsel⟩ : ∃ sel, Storage.readInTimePoint [] 0 0 tp d.pages = sel := ⟨_, rfl⟩
  have hchosen : Chosen tp d.pages sel := hsel ▸ d.chosen hp hle
  cases hchosen with
  | none hlater =>
    have hmin : ∀ f, f ∈ pageFiles pm → tp < f.header.minTime := by
      intro f hf
      rw [← hmap] at hf
      obtain ⟨n, hn, rfl⟩ := List.mem_map.mp hf
      exact hlater _ (List.mem_map_of_mem hn)
    exact iff_of_true (delivers_none hvs hwp hmin hsel) fun f hf hin => absurd hin.1 (not_le.mpr (hmin f hf))
  | after h hmax hlater =>
    obtain ⟨ns, ms, n, rfl, rfl, rfl, -, hfiles⟩ := d.split hmap h
    replace hlater : ∀ g, g ∈ ms.map d.disk → tp < g.header.minTime :=
      List.forall_mem_map.mpr fun k hk => hlater _ (List.mem_map_of_mem hk)
    rw [hfiles] at hvs hp hwp hle ⊢
    obtain ⟨before, seg, after, rfl, -, hs, hafter⟩ := hvs.split
    have hn := List.mem_append_right (ns.map d.disk) (List.mem_cons_self (a := d.disk n) (l := ms.map d.disk))
    refine iff_of_true (delivers_after hs (hwp _ hn) hi hpos htp hmax (fun m hm => ?_) hsel) fun g hg hin => ?_
    · obtain ⟨g, before', seg', hg, hsg, hm⟩ := hafter m hm
      have hwpg := hwp g (List.mem_append_right _ (List.mem_cons_of_mem _ hg))
      exact (hlater g hg).trans_le ((hsg.bounds hwpg).2.le m hm).1
    · obtain rfl := within_unique hp (.inr hmax) hlater (hle _ hn) hg hin
      exact absurd hin.2 (not_le.mpr hmax)
  | within h hmin hmax =>
    obtain ⟨ns, ms, n, rfl, rfl, rfl, hnamed, hfiles⟩ := d.split hmap h
    simp only [List.map_eq_nil_iff] at hsel
    rw [hfiles] at hvs hp hwp hle hleg hends ⊢
    obtain ⟨before, seg, after, rfl, hvs', hs, hafter⟩ := hvs.split
    have hn := List.mem_append_right (ns.map d.disk) (List.mem_cons_self (a := d.disk n) (l := ms.map d.disk))
    have hlater : ∀ g, g ∈ ms.map d.disk → tp < g.header.minTime := fun g hg =>
      hmax.trans_lt ((List.pairwise_cons.mp (List.pairwise_append.mp hp).2.1).1 g hg)
    obtain ⟨-, hb⟩ := hs.bounds (hwp _ hn)
    -- whether anything is later than the time point
    have hall : (∀ x, x ∈ before ++ (seg ++ after) → x.time ≤ tp) ↔ (d.disk n).header.maxTime ≤ tp ∧ ms = [] := by
      rw [none_later_iff hb hi hafter hlater fun g hg => hends g (List.mem_append_right _ (List.mem_cons_of_mem _ hg))]
      exact and_congr_right fun _ => List.map_eq_nil_iff
    have hown : (∀ g, g ∈ ns.map d.disk ++ d.disk n :: ms.map d.disk → Within tp g →
        Answers tp (before ++ (seg ++ after)) g) ↔ Answers tp (before ++ (seg ++ after)) (d.disk n) := by
      constructor
      · exact fun h => h _ hn ⟨hmin, hmax⟩
      · intro h g hg hin
        rwa [within_unique hp (.inl hmin) hlater (hle _ hn) hg hin]
    rw [hown]
    have hbefore : ∀ m, m ∈ before → m.time < tp := fun m hm => (hb.before_lt hi hm).trans_le hmin
    by_cases hend : (d.disk n).header.maxTime ≤ tp ∧ ms = []
    · rw [if_pos hend] at hsel
      have hnone : TimePoint tp [] [] := Snapshot.none fun x hx => absurd hx List.not_mem_nil
      exact delivers_within hs (hwp _ hn) hi (hleg _ hn ⟨hmin, hmax⟩) htp hmax rfl hnone (fun _ => rfl)
        (fun hnot => absurd (hall.mpr hend) hnot) hsel
    · rw [if_neg hend] at hsel
      obtain ⟨w, hw, hc⟩ := carried_window hnamed hvs' (List.pairwise_append.mp hi).1
        (fun m hm => hpos m (List.mem_append_left _ hm)) hbefore
      exact delivers_within hs (hwp _ hn) hi (hleg _ hn ⟨hmin, hmax⟩) htp hmax hw hc
        (fun h => absurd (hall.mp h) hend) (fun _ => rfl) hsel

/-- A page without a measurement is read like any other, and there is no reader of it. -/
theorem readInTimePoint_empty (hvs : Volumes fsize [] (pageFiles pm)) (hfiles : pageFiles pm = [f])
    (hwp : f.header.writePos = 0) (htp : 0 < tp) (fuel : Nat) : d.readInTimePoint fuel tp ≠ .ok out := by
  intro hrun
  have hmap : d.names.map d.disk = pageFiles pm := by
    rw [hfiles]
    exact List.perm_singleton.mp (hfiles ▸ d.files)
  rw [hfiles] at hvs hmap
  obtain ⟨n, hnames, rfl⟩ := List.map_eq_singleton_iff.mp hmap
  obtain ⟨before, seg, hlog, -, p, hopen, hv⟩ := hvs.last (List.nil_append _).symm
  obtain ⟨-, rfl⟩ := List.append_eq_nil_iff.mp hlog.symm
  obtain ⟨hminp, -, hwpp, -⟩ := openFile_header hopen
  have hmin : (d.disk n).header.minTime ≤ tp := by
    rw [← hminp, hv.blank rfl]
    exact htp.le
  have hsel : Storage.readInTimePoint [] 0 0 tp d.pages = ⟨[n], ""⟩ := by
    have hpages : d.pages = [⟨(d.disk n).header, n⟩] := by
      unfold Directory.pages
      rw [hnames]
      rfl
    have hfilter : filteredOut [] 0 0 (d.disk n).header = false := rfl
    rw [hpages]
    unfold Storage.readInTimePoint timePointLoop
    simp only [hfilter, Bool.false_eq_true, if_false]
    -- the last page is chosen, whichever its greatest time
    rcases le_total (d.disk n).header.maxTime tp with hle | hle
    · rw [if_pos ⟨⟨hmin, hle⟩, trivial⟩]
    · by_cases hlast : ((d.disk n).header.minTime ≤ tp ∧ (d.disk n).header.maxTime ≤ tp) ∧ True
      · rw [if_pos hlast]
      · rw [if_neg hlast, if_pos ⟨hmin, hle⟩]
  refine StorageReader.AtPoint.readAll_empty ⟨?_, rfl, htp.ne'⟩ hopen (by rwa [hwpp]) fuel out hrun
  unfold timePointReader
  rw [hsel]

theorem not_delivers_empty (hvs : Volumes fsize [] (pageFiles pm)) (hfiles : pageFiles pm = [f])
    (hwp : f.header.writePos = 0) (htp : 0 < tp) : ¬ Delivers d tp [] := by
  rintro ⟨steps, hall⟩
  obtain ⟨out, hrun, -⟩ := hall steps le_rfl
  exact readInTimePoint_empty hvs hfiles hwp htp steps hrun

end

/-- After batches in the order of the times a read at a time point delivers the newest measurements
before it if something was written and, where the time point is in the times of a page, that page reads
back and answers for its own; and only then, as far as pages read back. -/
theorem inTimePoint_iff (S : TimeSort) (fuel : Nat) (pageSize : U64) (batches : List (List Meas)) (log : List Meas)
    (pm₀ pm : PageManager) (hstart : (PageManager.start pageSize).createNewPage = .ok pm₀)
    (hrun : PageManager.runAll S fuel (batches.map .call) pm₀ = .ok (log, pm)) (hi : Increasing log)
    (hpos : ∀ m, m ∈ log → 0 < m.time) (d : Directory pm) (tp : Time) (htp : 0 < tp) :
    ((log ≠ [] ∧ ∀ f, f ∈ pageFiles pm → Within tp f → Legible log f ∧ Answers tp log f) → Delivers d tp log) ∧
      ((∀ f, f ∈ pageFiles pm → Within tp f → Legible log f) →
        (Delivers d tp log ↔ log ≠ [] ∧ ∀ f, f ∈ pageFiles pm → Within tp f → Answers tp log f)) := by
  obtain ⟨hvs, hempty⟩ := volumes_of_calls hstart hrun hi
  have hiff : (∀ f, f ∈ pageFiles pm → Within tp f → Legible log f) →
      (Delivers d tp log ↔ log ≠ [] ∧ ∀ f, f ∈ pageFiles pm → Within tp f → Answers tp log f) := by
    intro hleg
    rcases hempty with ⟨rfl, f, hfiles, hwp⟩ | ⟨hne, hwp⟩
    · exact iff_of_false (not_delivers_empty hvs hfiles hwp htp) fun h => h.1 rfl
    · rw [delivers_answers hvs hwp hi hpos htp hleg]
      exact (and_iff_right hne).symm
  refine ⟨fun ⟨hne, hall⟩ => ?_, hiff⟩
  exact (hiff fun f hf hin => (hall f hf hin).1).mpr ⟨hne, fun f hf hin => (hall f hf hin).2⟩

/-- Two pages with two measurements each, read between the two of the second page. -/
theorem inTimePoint_iff_two : ∃ log pm, PageManager.runAll TimeSort.insertion 4 ([[.plain 0 3, .plain 1 5],
      [.plain 1 7, .plain 2 9]].map .call)
        {PageManager.start (calcSize 2) with curpage := some (create (calcSize 2))} = .ok (log, pm) ∧
    (pageFiles pm).length = 2 ∧ ∃ d : Directory pm, Delivers d 8 log := by
  let pm₀ : PageManager := {PageManager.start (calcSize 2) with curpage := some (create (calcSize 2))}
  have hstart : (PageManager.start (calcSize 2)).createNewPage = .ok pm₀ := rfl
  obtain ⟨⟨log, pm⟩, hrun, hok⟩ := exists_ok
    (x := PageManager.runAll TimeSort.insertion 4 ([[.plain 0 3, .plain 1 5], [.plain 1 7, .plain 2 9]].map .call) pm₀)
    (p := fun x => decide (x.1 = [.plain 0 3, .plain 1 5, .plain 1 7, .plain 2 9] ∧ (pageFiles x.2).length = 2 ∧
      ∀ f, f ∈ pageFiles x.2 → Apart f ∧ f.header.writePos ≠ 0 ∧
        (f.header.minTime ≤ 8 → 8 ≤ f.header.maxTime → f.header.minTime = 7 ∧ 1 < f.indexFile.cachePos ∧
          (f.indexFile.cache 1).isLeaf = true ∧
            ∃ kv, kv ∈ (f.indexFile.cache 1).live ∧ kv.2.minTime ≤ 7 ∧ 8 ≤ kv.2.maxTime)))
    (by decide +kernel)
  obtain ⟨rfl, hlen, hfiles⟩ := of_decide_eq_true hok
  have hi : Increasing [.plain 0 3, .plain 1 5, .plain 1 7, .plain 2 9] := by
    unfold Increasing
    decide
  obtain ⟨hvs, -⟩ := volumes_of_calls hstart hrun hi
  obtain ⟨d⟩ := exists_directory pm
  refine ⟨_, pm, hrun, hlen, d, ?_⟩
  refine (inTimePoint_iff TimeSort.insertion 4 (calcSize 2) _ _ pm₀ pm hstart hrun hi (by decide) d 8 (by decide)).1
    ⟨List.cons_ne_nil _ _, fun f hf hin => ?_⟩
  obtain ⟨hapart, -, hrec⟩ := hfiles f hf
  obtain ⟨hmin, hmade, hl, kv, hkv, hfirst, hlast⟩ := hrec hin.1 hin.2
  refine ⟨hvs.legible (fun g hg => (hfiles g hg).2.1) hi (by decide) hf hapart, fun m hm' hown => ?_⟩
  refine ⟨kv.2, ⟨1, kv, ⟨Nat.one_pos, hmade⟩, hl, hkv, rfl⟩, ?_, hlast⟩
  rcases hown with hge | hall
  · rw [hmin] at hge
    exact hfirst.trans hge
  · exact absurd (hall (.plain 2 9) (by decide)) (by decide)

/-- Two measurements in batches of their own, and a read at the time of the second: it looks for records
that do not end before the time point, and the first measurement is counted by none of them. -/
theorem inTimePoint_misses : ∃ log pm, PageManager.runAll TimeSort.insertion 3
    ([[.plain 1 10], [.plain 2 20]].map .call)
        {PageManager.start (calcSize 2) with curpage := some (create (calcSize 2))} = .ok (log, pm) ∧
    log = [.plain 1 10, .plain 2 20] ∧ Increasing log ∧ (∀ m, m ∈ log → 0 < m.time) ∧
      ∃ d : Directory pm, ¬ Delivers d 20 log := by
  let pm₀ : PageManager := {PageManager.start (calcSize 2) with curpage := some (create (calcSize 2))}
  have hstart : (PageManager.start (calcSize 2)).createNewPage = .ok pm₀ := rfl
  obtain ⟨⟨log, pm⟩, hrun, hok⟩ := exists_ok
    (x := PageManager.runAll TimeSort.insertion 3 ([[.plain 1 10], [.plain 2 20]].map .call) pm₀)
    (p := fun x => decide (x.1 = [.plain 1 10, .plain 2 20] ∧ (pageFiles x.2).length = 1 ∧
      ∀ f, f ∈ pageFiles x.2 → Apart f ∧ f.header.writePos ≠ 0 ∧ f.header.minTime = 10 ∧ f.header.maxTime = 20 ∧
        ∀ i, i < f.indexFile.cachePos → ∀ kv, kv ∈ (f.indexFile.cache i).live → kv.2.minTime ≤ 10 → kv.2.maxTime < 20))
    (by decide +kernel)
  obtain ⟨rfl, hlen, hfiles⟩ := of_decide_eq_true hok
  have hi : Increasing [.plain 1 10, .plain 2 20] := by
    unfold Increasing
    decide
  obtain ⟨hvs, -⟩ := volumes_of_calls hstart hrun hi
  have hwp : ∀ f, f ∈ pageFiles pm → f.header.writePos ≠ 0 := fun f hf => (hfiles f hf).2.1
  obtain ⟨d⟩ := exists_directory pm
  refine ⟨_, pm, hrun, rfl, hi, by decide, d, fun h => ?_⟩
  obtain ⟨f, hf⟩ := List.length_eq_one_iff.mp hlen
  have hmem : f ∈ pageFiles pm := hf ▸ List.mem_cons_self
  obtain ⟨-, -, hmin, hmax, hrecs⟩ := hfiles f hmem
  have hall := (delivers_answers hvs hwp hi (by decide) (by decide) fun g hg _ =>
    hvs.legible hwp hi (by decide) hg (hfiles g hg).1).mp h
  have hlatest : LatestBefore Meas.id Meas.time 20 [.plain 1 10, .plain 2 20] (.plain 1 10) :=
    ⟨by decide, by decide, by decide⟩
  obtain ⟨r, ⟨i, kv, hi', -, hkv, rfl⟩, hfirst, hlast⟩ := hall f hmem ⟨by rw [hmin]; decide, hmax.ge⟩ _ hlatest
    (.inl hmin.le)
  exact absurd hlast (not_le.mpr (hrecs i hi'.2 kv hkv hfirst))

end Nkvdb.Storage
