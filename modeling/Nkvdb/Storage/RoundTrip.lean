import Nkvdb.Page.WindowRead
import Nkvdb.Storage.Append
import Nkvdb.Storage.Beginning
import Nkvdb.Storage.Bounds

/-! What is appended to a storage is read from it.

The measurements may come in any order of their times and fill any number of pages. Each page holds a
part of them, its header says what it holds and its bytes give it back; a query over all times opens
each page that its filters let through, reads it from end to end and leaves out what was not asked
for. -/
namespace Nkvdb.Storage
open Page

/-! ### Values of one size -/

/-- A page of this size is full before measurements with values of `size` bytes leave it no room. -/
def Stacks (fsize : U64) (size : Nat) : Prop :=
  sizeofHeader ≤ fsize.val ∧ (fsize.val - sizeofHeader) % (sizeofMeas + size) < sizeofMeas

instance (fsize : U64) (size : Nat) : Decidable (Stacks fsize size) := by
  unfold Stacks
  infer_instance

/-- Each measurement was put where the page was not full. -/
def Stacked (fsize : U64) (log : List Meas) : Prop := ∀ i, i < log.length → ¬ FullAt fsize (log.take i)

section
variable {fsize : U64} {size : Nat} {log ms new : List Meas}

theorem Stacked.taken (h : Stacked fsize log) (ht : Taken fsize log ms new) : Stacked fsize (log ++ new) := by
  intro i hi
  rw [List.length_append] at hi
  by_cases hlt : i < log.length
  · rw [List.take_append_of_le_length hlt.le]
    exact h i hlt
  · have htake : (log ++ new).take i = log ++ new.take (i - log.length) := by
      rw [List.take_append, List.take_of_length_le (not_lt.mp hlt)]
    rw [htake]
    exact ht.open_ _ (by omega)

theorem gap_eq (h : ∀ m, m ∈ log → m.size.val = size) :
    gap fsize log = fsize.val - (sizeofHeader + (sizeofMeas + size) * log.length : Nat) := by
  unfold gap
  rw [valueBytes_eq h]
  push_cast
  ring

/-- The gap stays above zero: what is left of it at the end is too little for the page to be open. -/
theorem Stacked.gap_nonneg (h : Stacked fsize log) (hs : Stacks fsize size)
    (hsize : ∀ m, m ∈ log → m.size.val = size) : 0 ≤ gap fsize log := by
  induction log using List.reverseRecOn with
  | nil =>
    have hroom := hs.1
    have hnil : ∀ m : Meas, m ∈ [] → m.size.val = size := fun m hm => absurd hm List.not_mem_nil
    rw [gap_eq hnil]
    simp only [List.length_nil, Nat.mul_zero, Nat.add_zero]
    omega
  | append_singleton log m ih =>
    have hsize' : ∀ m, m ∈ log → m.size.val = size := fun x hx => hsize x (List.mem_append_left _ hx)
    have hopen : ¬ FullAt fsize log := by
      have hlast := h log.length (by simp)
      rwa [List.take_left] at hlast
    have hbefore : Stacked fsize log := by
      intro i hi
      have hat := h i (by rw [List.length_append]; omega)
      rwa [List.take_append_of_le_length hi.le] at hat
    have hpos := ih hbefore hsize'
    have hgap : 56 ≤ gap fsize log := by
      by_contra hlt
      exact hopen ((fits_of_gap hpos).fullAt_iff.mpr ⟨hpos, not_le.mp hlt⟩)
    rw [gap_eq hsize]
    rw [gap_eq hsize'] at hgap
    obtain ⟨hroom, hrest⟩ := hs
    rw [List.length_append, List.length_singleton]
    -- the room is some measurements and a rest that is less than what keeps the page open
    have hdiv := Nat.div_add_mod (fsize.val - sizeofHeader) (sizeofMeas + size)
    have hlt : log.length < (fsize.val - sizeofHeader) / (sizeofMeas + size) := by
      by_contra hle
      have hmul := Nat.mul_le_mul_left (sizeofMeas + size) (not_lt.mp hle)
      unfold sizeofMeas at *
      omega
    have hmul := Nat.mul_le_mul_left (sizeofMeas + size) hlt
    have hsucc : (sizeofMeas + size) * (log.length + 1) = (sizeofMeas + size) * Nat.succ log.length := rfl
    omega

theorem Stacked.fits (h : Stacked fsize log) (hs : Stacks fsize size) (hsize : ∀ m, m ∈ log → m.size.val = size) :
    Fits fsize log := fits_of_gap (h.gap_nonneg hs hsize)

end

/-! ### What a page holds, in any order of the times -/

/-- A page with `log` on it, that can be opened once it is closed. -/
structure Ledger (fsize : U64) (log : List Meas) (p : Page) : Prop extends Reopens p where
  posted : ∃ recs, Posted fsize log recs p
  stacked : Stacked fsize log
  stored : Fits fsize log → Stored fsize log p.rawData
  headed : Headed p.header log

/-- The file opens read-only to such a page. -/
def Filed (fsize : U64) (log : List Meas) (f : PageFile) : Prop :=
  ∃ p, openFile f true = .ok p ∧ Ledger fsize log p

section
variable {fsize : U64} {log : List Meas} {p p' : Page} {f : PageFile} {ix : Index}

theorem Ledger.create {w : WriteWindow} (h : ∃ log, WriteWindow.Tracks log w) :
    Ledger fsize [] {Page.create fsize with writeWindow := w} := by
  obtain ⟨ha, hl, hp, hc⟩ := Posted.create fsize
  refine ⟨⟨rfl, h, fun _ => rfl⟩, ⟨[], ⟨ha.size, ha.writePos, ha.writeValuePos, ha.records⟩, hl, hp, hc⟩,
    fun i hi => absurd hi (Nat.not_lt_zero i), fun _ => (Holding.create fsize).stored, (Headed.create fsize).congr rfl⟩

theorem Ledger.run (h : Ledger fsize log p) {op : Op} {r : AppendResult} (hsorted : op.Sorted)
    (hrun : op.run p = .ok (r, p')) : Ledger fsize (log ++ op.meases.take r.writed) p' := by
  obtain ⟨recs, hposted⟩ := h.posted
  have hreopens := h.toReopens.run hrun
  have hheaded := (h.headed.append hposted.areas hsorted hrun).2
  have hposted' := hposted.append hrun
  obtain ⟨-, k, q, ix, hacc, -, rfl, rfl⟩ := Op.run_iff.mp hrun
  obtain ⟨-, htaken⟩ := acceptAll_taken hposted.areas hacc
  refine ⟨hreopens, ⟨_, hposted'⟩, h.stacked.taken htaken, fun hfits => ?_, hheaded⟩
  have hstored := (h.stored (hfits.mono (List.prefix_append ..))).acceptAll hposted.areas hacc hfits
  exact hstored

/-- A page whose index and window were flushed lies in its files. -/
theorem Ledger.saved (h : Ledger fsize log p) (hf : p.index.flush = .ok ix) {hdr : Header}
    (hm : Marked p.header hdr) :
    Filed fsize log
      ⟨hdr, p.rawData, ix.tree, if p.writeWindow.length ≠ 0 then some p.writeWindow else p.windowFile⟩ := by
  obtain ⟨recs, ha, hl, hp, hc⟩ := h.posted
  obtain ⟨wlog, ht⟩ := h.tracks
  have hload := load_windowFile ht h.file
  unfold Marked at hm
  rw [hm]
  refine ⟨_, openFile_iff.mpr ⟨nofun, h.version, _, hload, rfl⟩, ⟨h.version, h.tracks, fun hnil => ?_⟩, ⟨recs, ?_⟩,
    h.stacked, h.stored, h.headed.congr rfl⟩
  · show (if p.writeWindow.length ≠ 0 then _ else _) = none
    replace hnil : p.writeWindow = [] := hnil
    rw [hnil]
    exact h.file hnil
  · exact ⟨⟨ha.size, ha.writePos, ha.writeValuePos, ha.records⟩, ⟨recs, (hl.flush_ok hf).1, List.append_nil _⟩, hp, hc⟩

theorem Ledger.close (h : Ledger fsize log p) (hc : p.close = .ok f) : Filed fsize log f := by
  obtain ⟨ix, hf, rfl⟩ := close_iff.mp hc
  exact h.saved hf rfl

theorem Ledger.flush (h : Ledger fsize log p) (hf : p.flushWriteWindow.flushIndex = .ok p') : Ledger fsize log p' := by
  have hreopens := h.toReopens.flush hf
  obtain ⟨ix, hix, rfl⟩ := Page.flushIndex_iff.mp hf
  obtain ⟨recs, ha, hl, hp, hc⟩ := h.posted
  exact ⟨hreopens, ⟨recs, ⟨ha.size, ha.writePos, ha.writeValuePos, ha.records⟩, hl.flush hix, hp, hc⟩, h.stacked,
    h.stored, h.headed.congr rfl⟩

theorem Ledger.onDisk (h : Ledger fsize log p) (hf : Flushed p) : Filed fsize log (onDisk p) := by
  have hflush : p.index.flush = .ok p.index := if_pos hf.cache
  have hmarked : Marked p.header p.header := rfl
  have hsaved := h.saved hflush hmarked
  rw [← hf.window] at hsaved
  exact hsaved

end

/-- What of a page tells its positions: no search of the index, and not the window. -/
structure Content (fsize : U64) (log : List Meas) (p : Page) : Prop where
  areas : Areas fsize log p
  stacked : Stacked fsize log
  stored : Fits fsize log → Stored fsize log p.rawData
  headed : Headed p.header log

/-- The file opens read-only to such a page. -/
def Shown (fsize : U64) (log : List Meas) (f : PageFile) : Prop :=
  ∃ p, openFile f true = .ok p ∧ Content fsize log p

theorem Ledger.content {fsize : U64} {log : List Meas} {p : Page} (h : Ledger fsize log p) : Content fsize log p := by
  obtain ⟨recs, hposted⟩ := h.posted
  exact ⟨hposted.areas, h.stacked, h.stored, h.headed⟩

theorem Filed.shown {fsize : U64} {log : List Meas} {f : PageFile} (h : Filed fsize log f) : Shown fsize log f := by
  obtain ⟨p, hopen, hl⟩ := h
  exact ⟨p, hopen, hl.content⟩

/-! ### Runs -/

/-- The log lies on the page files and the current page, one after the other. -/
def Bound (fsize : U64) (log : List Meas) (pm : PageManager) : Prop :=
  pm.defaultPageSize = fsize ∧ ∃ segs last p, log = segs.flatten ++ last ∧ pm.curpage = some p ∧ Ledger fsize last p ∧
    List.Forall₂ (Filed fsize) segs pm.files

section
variable {fsize : U64} {log : List Meas} {pm pm' : PageManager}

theorem Bound.start (h : (PageManager.start fsize).createNewPage = .ok pm) : Bound fsize [] pm := by
  obtain rfl := Except.ok.inj h
  exact ⟨rfl, [], [], _, rfl, rfl, .create ⟨[], WriteWindow.Tracks.empty⟩, .nil⟩

theorem Bound.kept (fsize : U64) : PageManager.KeptSorted (Bound fsize) where
  append := by
    intro log pm p op r p' h hp hsorted hrun
    obtain ⟨hsize, segs, last, p₁, rfl, hp₁, hl, hfiles⟩ := h
    obtain rfl := Option.some.inj (hp₁.symm.trans hp)
    exact ⟨hsize, segs, _, p', List.append_assoc .., rfl, hl.run hsorted hrun, hfiles⟩
  createNewPage := by
    intro log pm pm' h hc
    obtain ⟨hsize, segs, last, p, rfl, hp, hl, hfiles⟩ := h
    obtain ⟨f, hf, rfl⟩ := (PageManager.createNewPage_iff hp).mp hc
    refine ⟨hsize, segs ++ [last], [], _, ?_, rfl, ?_, List.rel_append hfiles (.cons (hl.close hf) .nil)⟩
    · simp
    · rw [hsize]
      exact .create hl.tracks
  flush := by
    intro log pm p p' h hp hf
    obtain ⟨hsize, segs, last, p₁, rfl, hp₁, hl, hfiles⟩ := h
    obtain rfl := Option.some.inj (hp₁.symm.trans hp)
    exact ⟨hsize, segs, last, p', rfl, rfl, hl.flush hf, hfiles⟩

variable {S : TimeSort} {fuel : Nat} {batches : List (List Meas)}

/-- After batches in any order the page files hold what was written, and none is empty once something was. -/
theorem bound_of_calls (hstart : (PageManager.start fsize).createNewPage = .ok pm)
    (hrun : PageManager.runAll S fuel (batches.map .call) pm = .ok (log, pm')) :
    ∃ segs, log = segs.flatten ∧ List.Forall₂ (Filed fsize) segs (pageFiles pm') ∧
      (log ≠ [] → ∀ seg, seg ∈ segs → seg ≠ []) := by
  have hbound := (Bound.kept fsize).runAll (Bound.start hstart) hrun
  rw [List.nil_append] at hbound
  obtain ⟨-, segs, last, p, rfl, hp, hl, hfiles⟩ := hbound
  have hrest := (Resting.start hstart).calls hrun
  refine ⟨segs ++ [last], ?_, ?_, fun hne seg hseg hnil => ?_⟩
  · simp
  · rw [pageFiles_some hp]
    exact List.rel_append hfiles (.cons (hl.onDisk (hrest.flushed p hp)) .nil)
  subst hnil
  rcases List.mem_append.mp hseg with hseg | hseg
  · obtain ⟨f, hf, q, hopen, hq⟩ := exists_right hfiles hseg
    have hpos := hrest.files f hf
    rw [← (openFile_header hopen).2.2.1, hq.headed.writePos] at hpos
    exact hpos rfl
  · obtain rfl := List.mem_singleton.mp hseg
    have hnone := hrest.first p hp hl.headed.writePos
    rw [hnone] at hfiles
    cases hfiles
    exact hne rfl

end

/-! ### A query over all times -/

/-- The query begins before all of the page, and ends with it or later. -/
structure Encloses (fromTime toTime : Time) (hdr : Header) : Prop where
  first : fromTime < hdr.minTime
  le : hdr.minTime ≤ hdr.maxTime
  last : hdr.maxTime ≤ toTime

section
variable {ids : List Id} {source flag : Flag} {fromTime toTime : Time} {prev : Option PageInfo} {p : PageInfo}

theorem visitInterval_encloses (h : Encloses fromTime toTime p.header)
    (hprev : prev.any (fun q => decide (q.header.maxTime ≤ fromTime)) = false) (sel : Selection) :
    visitInterval fromTime toTime prev p sel = {sel with pagesToRead := sel.pagesToRead ++ [p.name]} := by
  have hmin : ¬ p.header.minTime ≤ fromTime := not_le.mpr h.first
  have h3 : ¬ (fromTime < p.header.minTime ∧ prev.any fun q => decide (q.header.maxTime ≤ fromTime)) := by
    rw [hprev]
    exact fun hany => Bool.false_ne_true hany.2
  unfold visitInterval
  simp only [if_neg fun h2 : _ ∧ _ => hmin h2.1, if_neg h3]
  by_cases h4 : fromTime ≤ p.header.minTime ∧ toTime ≤ p.header.maxTime ∧ p.header.minTime ≤ toTime
  · rw [if_pos h4]
  · rw [if_neg h4, if_pos ⟨h.first.le, h.last⟩]

/-- Each page that the filters let through is scheduled, once. -/
theorem intervalLoop_encloses {pages : List PageInfo} (h : ∀ p, p ∈ pages → Encloses fromTime toTime p.header)
    (hprev : prev.any (fun q => decide (q.header.maxTime ≤ fromTime)) = false) (sel : Selection) :
    intervalLoop ids source flag fromTime toTime prev pages sel =
      {sel with pagesToRead := sel.pagesToRead ++
        (pages.filter fun p => !filteredOut ids source flag p.header).map PageInfo.name} := by
  induction pages generalizing prev sel with
  | nil => simp [intervalLoop]
  | cons p pages ih =>
    obtain ⟨hp, hpages⟩ := List.forall_mem_cons.mp h
    have hnext : (some p).any (fun q => decide (q.header.maxTime ≤ fromTime)) = false :=
      decide_eq_false (not_le.mpr (hp.first.trans_le hp.le))
    rw [intervalLoop, ih hpages hnext]
    by_cases hf : filteredOut ids source flag p.header = true
    · rw [if_pos hf, List.filter_cons_of_neg (by simp [hf])]
    · rw [if_neg hf, List.filter_cons_of_pos (by simp [hf]), visitInterval_encloses hp hprev]
      simp

theorem readInterval_encloses {pages : List PageInfo} (h : ∀ p, p ∈ pages → Encloses fromTime toTime p.header) :
    readInterval ids source flag fromTime toTime pages =
      ⟨(pages.filter fun p => !filteredOut ids source flag p.header).map PageInfo.name, ""⟩ :=
  intervalLoop_encloses h rfl ⟨[], ""⟩

end

section
variable {ids : List Id} {source flag : Flag} {fromTime toTime : Time}

/-- The reader of all positions of a page. -/
def wholeReader (ids : List Id) (source flag : Flag) (prevWw : WriteWindow) (fromTime toTime : Time) (p : Page) :
    PageReaderInterval :=
  {PageReaderInterval.new.addReadPos 0 p.header.writePos with
    ids := ids, source := source, flag := flag, prevWw := prevWw, fromTime := fromTime, toTime := toTime}

theorem readInterval_whole {p : Page} (hpos : p.header.writePos ≠ 0) (h : Encloses fromTime toTime p.header) :
    p.readInterval ids source flag fromTime toTime =
      .ok (some (wholeReader ids source flag [] fromTime toTime p), p) := by
  have hmax : ¬ p.header.maxTime < fromTime := not_lt.mpr (h.first.le.trans h.le)
  unfold Page.readInterval
  simp only [if_neg hpos, if_neg hmax, if_pos (And.intro h.first.le h.last)]
  by_cases hplain : ids.isEmpty ∧ source = 0 ∧ flag = 0
  · obtain ⟨hids, rfl, rfl⟩ := hplain
    rw [List.isEmpty_iff] at hids
    subst hids
    rw [if_pos ⟨rfl, rfl, rfl⟩, Page.readAll, if_neg hpos]
    rfl
  · rw [if_neg hplain, readFromToPos, if_neg hpos]
    rfl

variable {size : U64} {fsize : U64} {log : List Meas} {p : Page} {w : WriteWindow}

/-- No test looks at the value. -/
theorem passes_congr {r : PageReaderInterval} {a b : Meas} (h : SameMeas a b) : r.passes a = r.passes b := by
  unfold PageReaderInterval.passes PageReaderInterval.checkValueInterval PageReader.checkValueFlags
  rw [h.time, h.flag, h.source, h.id]

/-- It delivers what was asked for of the page, in chunks of any size. -/
theorem Content.readAll (h : Content fsize log p) (hne : log ≠ []) (hfits : Fits fsize log)
    (hvalues : ∀ m, m ∈ log → m.size.val ≤ 8) (henc : Encloses fromTime toTime p.header) (hsize : 0 < size.val)
    (ids : List Id) (source flag : Flag) (w : WriteWindow) :
    ∃ out steps, (wholeReader ids source flag w fromTime toTime p).readAllBy size steps p = .ok (out, p) ∧
      List.Forall₂ SameMeas out (log.filter fun m => decide (Page.Asked ids source flag m)) := by
  have ha := h.areas
  obtain ⟨all, hreads, hsame⟩ := ((h.stored hfits).readsBack ha hfits hvalues).reads ha
  have hlen : all.length = log.length := hreads.length.trans ha.writePos
  have hall : List.Forall₂ SameMeas all log := by
    refine List.forall₂_iff_get.mpr ⟨hlen, fun i hi hi' => ?_⟩
    have hat := hsame i hi'
    rwa [nth_eq hi, nth_eq hi'] at hat
  obtain ⟨r, hr⟩ : ∃ r, wholeReader ids source flag w fromTime toTime p = r := ⟨_, rfl⟩
  have hsound : r.Sound p := by
    rw [← hr]
    refine ⟨rfl, henc.first.le.trans henc.le, ⟨le_rfl, Nat.zero_le _⟩, fun x hx => ?_, ha.short⟩
    rw [List.mem_singleton.mp hx]
    exact ⟨Nat.zero_le _, le_rfl⟩
  have hsteps : r.Steps size := by
    rw [← hr]
    refine ⟨hsize, fun hlt => absurd hlt (Nat.lt_irrefl 0), fun x hx _ => ?_⟩
    rw [List.mem_singleton.mp hx, Nat.zero_add]
    exact size.isLt
  have hpast : r.PastPoint p := by
    rw [← hr]
    exact .inr henc.first
  have hpending : r.pending = List.range all.length := by
    rw [← hr, hreads.length, List.range_eq_range']
    exact List.append_nil _
  have hread : ∀ i, i ∈ r.pending → p.valueAt i = nth all i ∧ p.Readable i := by
    intro i hi
    rw [hpending, List.mem_range] at hi
    exact readable_of_ok (hreads.readAt i hi)
  have hvalue : r.pending.map p.valueAt = all := by
    rw [List.map_congr_left fun i hi => (hread i hi).1, hpending, map_nth_range]
  have hpasses : ∀ m, m ∈ log → r.passes m = decide (Page.Asked ids source flag m) := by
    intro m hm
    obtain ⟨hle, hge⟩ := (h.headed.bounds hne).le m hm
    have hin : inInterval fromTime toTime m.time = true :=
      Bool.and_eq_true_iff.mpr ⟨decide_eq_true (henc.first.le.trans hle), decide_eq_true (hge.trans henc.last)⟩
    rw [← hr, PageReaderInterval.passes, PageReaderInterval.checkValueInterval]
    show (inInterval fromTime toTime m.time && _) = _
    rw [hin, Bool.true_and, ← Bool.coe_iff_coe, decide_eq_true_iff]
    exact checkValueFlags_iff
  rw [hr]
  refine ⟨_, r.work + 1, r.readAll_eq hsound hpast hsteps (fun i hi => (hread i hi).2) (Nat.lt_succ_self _), ?_⟩
  rw [hvalue, ← List.filter_congr hpasses]
  -- the tests go by what is read back
  refine List.rel_filter (fun a b hab => ?_) hall
  show r.passes a = true ↔ r.passes b = true
  rw [passes_congr hab]

/-- What the query asked for of a page is what its reader delivers. -/
theorem Shown.pageDelivers {disk : String → PageFile} {name : String} (names : List String)
    (h : Shown fsize log (disk name)) (hne : log ≠ []) (hfits : Fits fsize log)
    (hvalues : ∀ m, m ∈ log → m.size.val ≤ 8) (henc : Encloses fromTime toTime (disk name).header)
    (hsize : 0 < size.val) (ids : List Id) (source flag : Flag) :
    ∃ out, (⟨names, none, "", ids, source, flag, fromTime, toTime, 0⟩ : StorageReader).PageDelivers size disk name out ∧
      List.Forall₂ SameMeas out (log.filter fun m => decide (Page.Asked ids source flag m)) := by
  obtain ⟨p, hopen, hl⟩ := h
  obtain ⟨hmin, hmax, -, -⟩ := openFile_header hopen
  have henc' : Encloses fromTime toTime p.header :=
    ⟨hmin ▸ henc.first, by rw [hmin, hmax]; exact henc.le, hmax ▸ henc.last⟩
  have hpos : p.header.writePos ≠ 0 := by
    rw [hl.headed.writePos]
    exact (List.length_pos_iff.mpr hne).ne'
  obtain ⟨out, steps, hrun, hsame⟩ := hl.readAll hne hfits hvalues henc' hsize ids source flag []
  refine ⟨out, ⟨.interval (wholeReader ids source flag [] fromTime toTime p) p, ?_, ?_⟩, hsame⟩
  · unfold StorageReader.openPage
    simp only [hopen, prevWw_eq, windowOf, readInterval_whole hpos henc', bind, Except.bind, ne_eq, not_true, if_false]
    rfl
  · refine CurrentReader.delivers_iff.mpr ⟨steps, ?_⟩
    rw [readAll_currentReader, hrun]
    rfl

end

/-! ### The whole way -/

section
variable {ids : List Id} {source flag : Flag} {fromTime toTime : Time} {fsize size : U64} {pm : PageManager}

/-- The reader delivers what was asked for of the log, in some order. -/
def DeliversAsked (size : U64) (ids : List Id) (source flag : Flag) (disk : String → PageFile) (r : StorageReader)
    (log : List Meas) : Prop :=
  ∃ out same, r.Delivers size disk out ∧ List.Forall₂ SameMeas out same ∧
    same.Perm (log.filter fun m => decide (Page.Asked ids source flag m))

/-- A page that is passed over has nothing that was asked for. -/
theorem Headed.filteredOut {hdr : Header} {log : List Meas} (h : Headed hdr log)
    (hf : Storage.filteredOut ids source flag hdr = true) :
    (log.filter fun m => decide (Page.Asked ids source flag m)) = [] := by
  refine List.filter_eq_nil_iff.mpr fun m hm hasked => ?_
  obtain ⟨⟨hflag, hsource⟩, hids⟩ := of_decide_eq_true hasked
  have hpass : Storage.filteredOut ids source flag hdr = false :=
    (h.passes m hm).filteredOut ⟨hids, hflag, hsource⟩
  rw [hf] at hpass
  cases hpass

theorem Shown.headed {log : List Meas} {f : PageFile} (h : Shown fsize log f) : Headed f.header log := by
  obtain ⟨p, hopen, hl⟩ := h
  obtain ⟨-, -, w, -, rfl⟩ := openFile_iff.mp hopen
  exact hl.headed.congr rfl

theorem Headed.encloses {hdr : Header} {log : List Meas} (h : Headed hdr log) (hne : log ≠ [])
    (hwithin : ∀ m, m ∈ log → fromTime < m.time ∧ m.time ≤ toTime) : Encloses fromTime toTime hdr := by
  have hb := h.bounds hne
  obtain ⟨a, ha, hmin⟩ := hb.minMem
  obtain ⟨b, hb', hmax⟩ := hb.maxMem
  exact ⟨hmin ▸ (hwithin a ha).1, (hb.le a ha).1.trans (hb.le a ha).2, hmax ▸ (hwithin b hb').2⟩

/-- A page whose content can be read, all of it within the query. -/
structure Readable (fsize : U64) (fromTime toTime : Time) (log : List Meas) (f : PageFile) : Prop where
  shown : Shown fsize log f
  nonempty : log ≠ []
  fits : Fits fsize log
  values : ∀ m, m ∈ log → m.size.val ≤ 8
  within : ∀ m, m ∈ log → fromTime < m.time ∧ m.time ≤ toTime

theorem Readable.encloses {log : List Meas} {f : PageFile} (h : Readable fsize fromTime toTime log f) :
    Encloses fromTime toTime f.header := h.shown.headed.encloses h.nonempty h.within

/-- The pages that are let through deliver what was asked for of all of them. -/
theorem pages_asked (ids : List Id) (source flag : Flag) (all : List String) {disk : String → PageFile}
    {names : List String} {segs : List (List Meas)}
    (h : List.Forall₂ (fun n seg => Readable fsize fromTime toTime seg (disk n)) names segs) (hsize : 0 < size.val) :
    ∃ outs, List.Forall₂ (StorageReader.PageDelivers size disk
        ⟨all, none, "", ids, source, flag, fromTime, toTime, 0⟩)
        (names.filter fun n => !Storage.filteredOut ids source flag (disk n).header) outs ∧
      List.Forall₂ SameMeas outs.flatten
        (segs.flatten.filter fun m => decide (Page.Asked ids source flag m)) := by
  induction h with
  | nil => exact ⟨[], .nil, .nil⟩
  | @cons name seg names segs hpage _ ih =>
    obtain ⟨outs, houts, hsame⟩ := ih
    rw [List.flatten_cons, List.filter_append]
    by_cases hf : Storage.filteredOut ids source flag (disk name).header = true
    · refine ⟨outs, ?_, ?_⟩
      · rwa [List.filter_cons_of_neg (by simp [hf])]
      · rwa [hpage.shown.headed.filteredOut hf, List.nil_append]
    · obtain ⟨out, hout, hsame'⟩ := hpage.shown.pageDelivers all hpage.nonempty hpage.fits hpage.values
        hpage.encloses hsize ids source flag
      refine ⟨out :: outs, ?_, List.rel_append hsame' hsame⟩
      rw [List.filter_cons_of_pos (by simp [hf])]
      exact .cons hout houts

/-- All pages of the storage, in the order the directory has them. -/
theorem Directory.deliversAsked (d : Directory pm) {segs : List (List Meas)}
    (h : List.Forall₂ (Readable fsize fromTime toTime) segs (pageFiles pm)) (hsize : 0 < size.val)
    (ids : List Id) (source flag : Flag) :
    DeliversAsked size ids source flag d.disk (intervalReader ids source flag fromTime toTime d.pages)
      segs.flatten := by
  obtain ⟨segs', hnames, hperm⟩ := List.perm_comp_forall₂ d.files h.flip
  rw [List.forall₂_map_left_iff] at hnames
  obtain ⟨outs, houts, hsame⟩ := pages_asked ids source flag
    (d.names.filter fun n => !Storage.filteredOut ids source flag (d.disk n).header) hnames hsize
  have henc : ∀ p, p ∈ d.pages → Encloses fromTime toTime p.header := by
    intro p hp
    obtain ⟨n, hn, rfl⟩ := List.mem_map.mp hp
    obtain ⟨seg, -, hread⟩ := exists_right hnames hn
    exact hread.encloses
  have hsel : readInterval ids source flag fromTime toTime d.pages =
      ⟨d.names.filter fun n => !Storage.filteredOut ids source flag (d.disk n).header, ""⟩ := by
    rw [readInterval_encloses henc, Directory.pages, List.filter_map, List.map_map]
    exact congrArg (Selection.mk · "") (List.map_id _)
  refine ⟨outs.flatten, _, (StorageReader.delivers_iff rfl).mpr ⟨outs, ?_, rfl⟩, hsame, hperm.flatten.filter _⟩
  unfold intervalReader
  rw [hsel]
  exact houts

/-- Pages with measurements on them, with values of one size that pages stack: a query over all their times, with any
filters and read in chunks of any size, delivers what was asked for, each once. -/
theorem shown_read {valueSize : Nat} (hvalue : valueSize ≤ 8) (hpage : Stacks fsize valueSize) {segs : List (List Meas)}
    (hshown : List.Forall₂ (Shown fsize) segs (pageFiles pm)) (hsome : ∀ seg, seg ∈ segs → seg ≠ [])
    (hsizes : ∀ m, m ∈ segs.flatten → m.size.val = valueSize) (d : Directory pm) (ids : List Id) (source flag : Flag)
    (hsize : 0 < size.val) (hwithin : ∀ m, m ∈ segs.flatten → fromTime < m.time ∧ m.time ≤ toTime) :
    DeliversAsked size ids source flag d.disk (intervalReader ids source flag fromTime toTime d.pages)
      segs.flatten := by
  have hread : List.Forall₂ (Readable fsize fromTime toTime) segs (pageFiles pm) := by
    have hmem : ∀ seg, seg ∈ segs → seg ≠ [] ∧ ∀ m, m ∈ seg → m ∈ segs.flatten := fun seg hseg =>
      ⟨hsome seg hseg, fun m hm => List.mem_flatten_of_mem hseg hm⟩
    refine ((List.forall₂_and_left segs (pageFiles pm)).mpr ⟨hmem, hshown⟩).imp ?_
    rintro seg f ⟨⟨hseg, hall⟩, hf⟩
    have hsame : ∀ m, m ∈ seg → m.size.val = valueSize := fun m hm => hsizes m (hall m hm)
    have hfits : Fits fsize seg := by
      obtain ⟨p, -, hl⟩ := hf
      exact hl.stacked.fits hpage hsame
    exact ⟨hf, hseg, hfits, fun m hm => (hsame m hm).trans_le hvalue, fun m hm => hwithin m (hall m hm)⟩
  exact d.deliversAsked hread hsize ids source flag

/-- The index of a page has no part in that. -/
theorem Shown.writtenBack {log : List Meas} {f : PageFile} (h : Shown fsize log f)
    (lost : Nat → BTree.Node Time IndexRecord) : Shown fsize log (f.writtenBack lost) := by
  obtain ⟨p, hopen, ha, hstacked, hstored, hheaded⟩ := h
  obtain ⟨hshut, hversion, w, hw, rfl⟩ := openFile_iff.mp hopen
  exact ⟨_, openFile_iff.mpr ⟨hshut, hversion, w, hw, rfl⟩, ⟨ha.size, ha.writePos, ha.writeValuePos, ha.records⟩,
    hstacked, hstored, hheaded⟩

/-- Batches of such measurements. -/
theorem batches_read {S : TimeSort} {valueSize fuel : Nat} (hvalue : valueSize ≤ 8) (hpage : Stacks fsize valueSize)
    {batches : List (List Meas)} {log : List Meas} {pm₀ : PageManager}
    (hstart : (PageManager.start fsize).createNewPage = .ok pm₀)
    (hrun : PageManager.runAll S fuel (batches.map .call) pm₀ = .ok (log, pm)) (hne : log ≠ [])
    (hsizes : ∀ m, m ∈ log → m.size.val = valueSize) {lost : PageFile → Nat → BTree.Node Time IndexRecord}
    (d : Directory (pagesWrittenBack lost pm)) (ids : List Id) (source flag : Flag) (hsize : 0 < size.val)
    (hwithin : ∀ m, m ∈ log → fromTime < m.time ∧ m.time ≤ toTime) :
    DeliversAsked size ids source flag d.disk (intervalReader ids source flag fromTime toTime d.pages) log := by
  obtain ⟨segs, rfl, hfiled, hall⟩ := bound_of_calls hstart hrun
  have hshown : List.Forall₂ (Shown fsize) segs (pageFiles (pagesWrittenBack lost pm)) := by
    rw [pageFiles_writtenBack]
    exact List.forall₂_map_right_iff.mpr (hfiled.imp fun seg f hf => (Filed.shown hf).writtenBack _)
  exact shown_read hvalue hpage hshown (hall hne) hsizes d ids source flag hsize hwithin

theorem DeliversAsked.perm {disk : String → PageFile} {r : StorageReader} {log all : List Meas}
    (h : DeliversAsked size ids source flag disk r log) (hperm : log.Perm all) :
    DeliversAsked size ids source flag disk r all := by
  obtain ⟨out, same, hout, hsame, hp⟩ := h
  exact ⟨out, same, hout, hsame, hp.trans (hperm.filter _)⟩

end

/-- Any calls of `append`, with values of one size that pages stack: when all caches have come to the pages, a
query that begins before all times and ends after them, with any filters and read in chunks of any size, delivers
what was appended and asked for, each once. It does so whatever has become of the index nodes past the ends of their
files. -/
theorem appended_read (S : TimeSort) {cacheSize valueSize : Nat} (hcache : 0 < cacheSize) (hvalue : valueSize ≤ 8)
    {pageSize : U64} (hpage : Stacks pageSize valueSize) (calls : List Call) (hne : calls.flatMap Call.meases ≠ [])
    (hsizes : ∀ m, m ∈ calls.flatMap Call.meases → m.size.val = valueSize) {fuel : Nat}
    (hf : (calls.flatMap Call.meases).length + 1 < fuel) (clock : Nat → Nat → Nat → Time) :
    ∃ s, runAll fuel clock calls (Storage.create cacheSize) = .ok (⟨(calls.flatMap Call.meases).length, 0⟩, s) ∧
      ∀ pm₀ steps stored pm, (PageManager.start pageSize).createNewPage = .ok pm₀ →
        s.flush S steps pm₀ = .ok (stored, pm) →
        ∀ (lost : PageFile → Nat → BTree.Node Time IndexRecord) (d : Directory (pagesWrittenBack lost pm))
          (ids : List Id) (source flag : Flag) (fromTime toTime : Time) (size : U64), 0 < size.val →
          (∀ m, m ∈ calls.flatMap Call.meases → fromTime < m.time ∧ m.time ≤ toTime) →
          DeliversAsked size ids source flag d.disk (intervalReader ids source flag fromTime toTime d.pages)
            (calls.flatMap Call.meases) := by
  obtain ⟨s, hrun, hs, -⟩ := runAll_spec hcache hf (.create cacheSize) clock
  refine ⟨s, hrun, fun pm₀ steps stored pm hstart hflush lost d ids source flag fromTime toTime size hsize
    hwithin => ?_⟩
  have hperm : stored.Perm (calls.flatMap Call.meases) := hs.flush_perm hflush
  have hsome : stored ≠ [] := fun hnil => hne (List.perm_nil.mp (hnil ▸ hperm.symm))
  have hread := batches_read hvalue hpage hstart hflush hsome (fun m hm => hsizes m (hperm.mem_iff.mp hm)) d ids source
    flag hsize fun m hm => hwithin m (hperm.mem_iff.mp hm)
  exact hread.perm hperm

/-- A single append and an array, through caches of two measurements, on pages of two whose index files hold no
node. -/
theorem appended_read_two : ∃ s pm stored,
    runAll 5 (fun _ _ _ => 0) [.append (.plain 1 5), .appendArray [.plain 0 3, .plain 2 9]] (Storage.create 2) =
      .ok (⟨3, 0⟩, s) ∧
    s.flush TimeSort.insertion 4 {PageManager.start (calcSize 2) with curpage := some (create (calcSize 2))} =
      .ok (stored, pm) ∧ pm.files.length = 1 ∧
    ∀ d : Directory (pagesWrittenBack (fun _ _ => BTree.Node.zero) pm), DeliversAsked 7 [1, 2] 0 0 d.disk
      (intervalReader [1, 2] 0 0 1 10 d.pages) [.plain 1 5, .plain 0 3, .plain 2 9] := by
  obtain ⟨s, hrun, h⟩ := appended_read TimeSort.insertion (show 0 < 2 by decide) (show 8 ≤ 8 from le_rfl)
    (show Stacks (calcSize 2) 8 by decide) [.append (.plain 1 5), .appendArray [.plain 0 3, .plain 2 9]] (by decide)
    (by decide) (show 3 + 1 < 5 by decide) fun _ _ _ => 0
  let pm₀ : PageManager := {PageManager.start (calcSize 2) with curpage := some (create (calcSize 2))}
  obtain ⟨⟨stored, pm⟩, hflush, hfiles⟩ := exists_ok
    (x := runAll 5 (fun _ _ _ => 0) [.append (.plain 1 5), .appendArray [.plain 0 3, .plain 2 9]]
      (Storage.create 2) >>= fun x => x.2.flush TimeSort.insertion 4 pm₀)
    (p := fun x : List Meas × PageManager => decide (x.2.files.length = 1)) (by decide +kernel)
  rw [hrun] at hflush
  exact ⟨s, pm, stored, hrun, hflush, of_decide_eq_true hfiles, fun d =>
    h pm₀ 4 stored pm rfl hflush _ d [1, 2] 0 0 1 10 7 (by decide) (by decide)⟩

end Nkvdb.Storage
