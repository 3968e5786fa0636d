import Nkvdb.Page.IndexFile
import Nkvdb.Page.TimePoint
import Nkvdb.Storage.Resume
import Nkvdb.Storage.Summary

/-! The pages of a storage that is written to in the order of the times.

Each page holds what follows what the page before it holds, and its window tracks all of it
up to there. No page but the first is left empty. -/
namespace Nkvdb.Storage
open Page

/-- A page with `log` on it, and `before` on the pages before it. -/
structure Volume (fsize : U64) (before log : List Meas) (p : Page) : Prop where
  posted : ∃ recs, Posted fsize log recs p
  stored : Fits fsize log → Stored fsize log p.rawData
  timed : Timed p.header log
  blank : log = [] → p.header.minTime = 0
  tracks : WriteWindow.Tracks (before ++ log) p.writeWindow
  version : p.header.version = pageVersion
  file : p.writeWindow = [] → p.windowFile = none

/-- The file opens read-only to such a page. -/
def Saved (fsize : U64) (before log : List Meas) (f : PageFile) : Prop :=
  ∃ p, openFile f true = .ok p ∧ Volume fsize before log p

/-- The page files hold the log one after the other. -/
inductive Volumes (fsize : U64) : List Meas → List PageFile → Prop
  | nil : Volumes fsize [] []
  | snoc {before log : List Meas} {files : List PageFile} {f : PageFile} :
      Volumes fsize before files → Saved fsize before log f → Volumes fsize (before ++ log) (files ++ [f])

theorem Volumes.eq_nil {fsize : U64} {log : List Meas} {files : List PageFile} (h : Volumes fsize log files)
    (hf : files = []) : log = [] := by
  cases h with
  | nil => rfl
  | snoc _ _ => exact absurd hf (List.append_ne_nil_of_right_ne_nil _ (List.cons_ne_nil _ _))

theorem Volumes.last {fsize : U64} {log : List Meas} {files files' : List PageFile} {f : PageFile}
    (h : Volumes fsize log files') (hf : files' = files ++ [f]) :
    ∃ before seg, log = before ++ seg ∧ Volumes fsize before files ∧ Saved fsize before seg f := by
  cases h with
  | nil => exact absurd hf.symm (List.append_ne_nil_of_right_ne_nil _ (List.cons_ne_nil _ _))
  | snoc hvs hs =>
    obtain ⟨rfl, he⟩ := List.append_inj' hf rfl
    obtain rfl := List.singleton_inj.mp he
    exact ⟨_, _, rfl, hvs, hs⟩

/-- What lies on one of the pages, on those before it, and on those after it. -/
theorem Volumes.split {fsize : U64} {log : List Meas} {files later : List PageFile} {f : PageFile}
    (h : Volumes fsize log (files ++ f :: later)) :
    ∃ before seg after, log = before ++ (seg ++ after) ∧ Volumes fsize before files ∧ Saved fsize before seg f ∧
      ∀ m, m ∈ after → ∃ g before' seg', g ∈ later ∧ Saved fsize before' seg' g ∧ m ∈ seg' := by
  induction later using List.reverseRecOn generalizing log with
  | nil =>
    obtain ⟨before, seg, rfl, hvs, hs⟩ := h.last rfl
    exact ⟨before, seg, [], by rw [List.append_nil], hvs, hs, fun m hm => absurd hm List.not_mem_nil⟩
  | append_singleton later g ih =>
    have hlast : files ++ f :: (later ++ [g]) = (files ++ f :: later) ++ [g] := by simp
    obtain ⟨whole, seg', rfl, hvs, hs'⟩ := h.last hlast
    obtain ⟨before, seg, after, rfl, hvs', hs, hafter⟩ := ih hvs
    refine ⟨before, seg, after ++ seg', by simp only [List.append_assoc], hvs', hs, fun m hm => ?_⟩
    rcases List.mem_append.mp hm with hm | hm
    · obtain ⟨g', before', seg'', hg, hsaved, hm⟩ := hafter m hm
      exact ⟨g', before', seg'', List.mem_append_left _ hg, hsaved, hm⟩
    · exact ⟨g, _, seg', List.mem_append_right _ List.mem_cons_self, hs', hm⟩

section
variable {fsize : U64} {before log : List Meas} {p p' : Page} {f : PageFile} {ix : Index}

/-- The page that takes over the window of the one before. -/
theorem Volume.create {w : WriteWindow} (h : WriteWindow.Tracks before w) :
    Volume fsize before [] {Page.create fsize with writeWindow := w} := by
  refine ⟨⟨[], ?_⟩, fun _ => (Holding.create fsize).stored, (Summarises.create fsize).timed, fun _ => rfl, ?_, rfl,
    fun _ => rfl⟩
  · obtain ⟨ha, hl, hp, hc⟩ := Posted.create fsize
    exact ⟨⟨ha.size, ha.writePos, ha.writeValuePos, ha.records⟩, hl, hp, hc⟩
  · rwa [List.append_nil]

theorem Volume.run (h : Volume fsize before log p) {op : Op} {r : AppendResult} (hrun : op.run p = .ok (r, p'))
    (hi : Increasing (log ++ op.meases.take r.writed)) : Volume fsize before (log ++ op.meases.take r.writed) p' := by
  obtain ⟨recs, hposted⟩ := h.posted
  have hposted' := hposted.append hrun
  obtain ⟨-, k, q, ix, hacc, -, rfl, rfl⟩ := Op.run_iff.mp hrun
  have hw := acceptAll_window hacc
  have hs : (op.meases.take k).Pairwise fun a b => a.time ≤ b.time :=
    (List.pairwise_append.mp hi).2.1.imp fun hlt => hlt.le
  have htimed : Timed (op.minMax k q.header) (log ++ op.meases.take k) ∧
      (log ++ op.meases.take k = [] → (op.minMax k q.header).minTime = 0) := by
    have hq : Timed q.header log ∧ (log = [] → q.header.minTime = 0) :=
      acceptAll_keeps (P := fun q => Timed q.header log ∧ (log = [] → q.header.minTime = 0))
        (fun _ _ _ _ hp => ⟨⟨hp.1.init, fun hne => ⟨(hp.1.bounds hne).minMem, (hp.1.bounds hne).maxMem,
          (hp.1.bounds hne).le⟩⟩, hp.2⟩) hacc ⟨h.timed, h.blank⟩
    rw [op.minMax_sorted (acceptAll_le hacc) hs]
    refine ⟨hq.1.minMaxAll _, fun hnil => ?_⟩
    obtain ⟨hlog, hnew⟩ := List.append_eq_nil_iff.mp hnil
    rw [hnew]
    exact hq.2 hlog
  refine ⟨⟨_, hposted'⟩, fun hfits => ?_, htimed.1, htimed.2, ?_, ?_, fun hnil => ?_⟩
  · have hstored := (h.stored (hfits.mono (List.prefix_append ..))).acceptAll hposted.areas hacc hfits
    exact hstored
  · rw [← List.append_assoc]
    exact h.tracks.updateAll hw
  · obtain ⟨init, lo, hi', he⟩ := op.minMax_eq k q.header
    show (op.minMax k q.header).version = pageVersion
    rw [he]
    exact acceptAll_keeps (P := fun q => q.header.version = pageVersion) (fun _ _ _ _ hp => hp) hacc h.version
  · -- the window has not grown, so there was none before
    have hgrown := WriteWindow.length_updateAll hw
    have hq : q.writeWindow = [] := hnil
    rw [hq] at hgrown
    exact (acceptAll_rest hacc).2.trans (h.file (List.eq_nil_of_length_eq_zero (Nat.le_zero.mp hgrown)))

/-- The header with other marks of who has the page open. -/
def Marked (hdr hdr' : Header) : Prop :=
  hdr' = {hdr with
    isOpen := hdr'.isOpen
    readersCount := hdr'.readersCount
    writeWindowSize := hdr'.writeWindowSize}

/-- A page whose index and window were flushed lies in its files. -/
theorem Volume.saved (h : Volume fsize before log p) (hf : p.index.flush = .ok ix) {hdr : Header}
    (hm : Marked p.header hdr) :
    Saved fsize before log
      ⟨hdr, p.rawData, ix.tree, if p.writeWindow.length ≠ 0 then some p.writeWindow else p.windowFile⟩ := by
  obtain ⟨recs, ha, hl, hp, hc⟩ := h.posted
  have hload := load_windowFile h.tracks h.file
  unfold Marked at hm
  rw [hm]
  refine ⟨_, openFile_iff.mpr ⟨nofun, h.version, _, hload, rfl⟩, ⟨recs, ?_⟩, h.stored, ?_, h.blank, h.tracks, h.version,
    fun hnil => ?_⟩
  · refine ⟨⟨ha.size, ha.writePos, ha.writeValuePos, ha.records⟩, ⟨recs, (hl.flush_ok hf).1, List.append_nil _⟩, hp, hc⟩
  · exact ⟨h.timed.init, fun hne => ⟨(h.timed.bounds hne).minMem, (h.timed.bounds hne).maxMem, (h.timed.bounds hne).le⟩⟩
  · show (if p.writeWindow.length ≠ 0 then _ else _) = none
    replace hnil : p.writeWindow = [] := hnil
    rw [hnil]
    exact h.file hnil

theorem Volume.close (h : Volume fsize before log p) (hc : p.close = .ok f) : Saved fsize before log f := by
  obtain ⟨ix, hf, rfl⟩ := close_iff.mp hc
  exact h.saved hf rfl

theorem Volume.flush (h : Volume fsize before log p) (hf : p.flushWriteWindow.flushIndex = .ok p') :
    Volume fsize before log p' := by
  obtain ⟨ix, hix, rfl⟩ := Page.flushIndex_iff.mp hf
  obtain ⟨recs, ha, hl, hp, hc⟩ := h.posted
  refine ⟨⟨recs, ⟨ha.size, ha.writePos, ha.writeValuePos, ha.records⟩, hl.flush hix, hp, hc⟩, h.stored, ?_, h.blank,
    h.tracks, h.version, fun hnil => ?_⟩
  · exact ⟨h.timed.init, fun hne => ⟨(h.timed.bounds hne).minMem, (h.timed.bounds hne).maxMem, (h.timed.bounds hne).le⟩⟩
  · show (if p.writeWindow.length ≠ 0 then _ else _) = none
    replace hnil : p.writeWindow = [] := hnil
    rw [hnil]
    exact h.file hnil

end

/-! ### Runs -/

section
variable {fsize : U64} {log new : List Meas} {pm pm' : PageManager} {p p' : Page}

/-- The current page and the page files hold the log. -/
def Shelved (fsize : U64) (log : List Meas) (pm : PageManager) : Prop :=
  pm.defaultPageSize = fsize ∧ ∃ before seg p, log = before ++ seg ∧ pm.curpage = some p ∧ Volume fsize before seg p ∧
    Volumes fsize before pm.files

theorem Shelved.start (h : (PageManager.start fsize).createNewPage = .ok pm) : Shelved fsize [] pm := by
  obtain rfl := Except.ok.inj h
  exact ⟨rfl, [], [], _, rfl, rfl, Volume.create WriteWindow.Tracks.empty, .nil⟩

theorem Shelved.kept (fsize : U64) : PageManager.Kept fun log pm => Increasing log → Shelved fsize log pm where
  append := by
    intro log pm p op r p' h hp hrun hi
    obtain ⟨hsize, before, seg, p₁, rfl, hp₁, hv, hvs⟩ := h (List.pairwise_append.mp hi).1
    obtain rfl := Option.some.inj (hp₁.symm.trans hp)
    rw [List.append_assoc] at hi ⊢
    exact ⟨hsize, before, _, p', rfl, rfl, hv.run hrun (List.pairwise_append.mp hi).2.1, hvs⟩
  createNewPage := by
    intro log pm pm' h hc hi
    obtain ⟨hsize, before, seg, p, rfl, hp, hv, hvs⟩ := h hi
    obtain ⟨f, hf, rfl⟩ := (PageManager.createNewPage_iff hp).mp hc
    refine ⟨hsize, before ++ seg, [], _, (List.append_nil _).symm, rfl, ?_, hvs.snoc (hv.close hf)⟩
    rw [hsize]
    exact Volume.create hv.tracks
  flush := by
    intro log pm p p' h hp hf hi
    obtain ⟨hsize, before, seg, p₁, rfl, hp₁, hv, hvs⟩ := h hi
    obtain rfl := Option.some.inj (hp₁.symm.trans hp)
    exact ⟨hsize, before, seg, p', rfl, rfl, hv.flush hf, hvs⟩

/-! ### Empty pages -/

/-- The current page is one of the size asked for, and no page before it is empty. -/
structure Begun (fsize : U64) (pm : PageManager) : Prop where
  size : pm.defaultPageSize = fsize
  cur : ∃ p log, pm.curpage = some p ∧ Areas fsize log p
  files : ∀ f, f ∈ pm.files → f.header.writePos ≠ 0

/-- Nor is the current page, if it is not the first. -/
structure Settled (fsize : U64) (pm : PageManager) : Prop extends Begun fsize pm where
  first : ∀ p, pm.curpage = some p → p.header.writePos = 0 → pm.files = []

/-- What an array append does to the write positions. -/
theorem areas_appendArray {ms : List Meas} {r : AppendResult} (ha : Areas fsize log p)
    (h : p.appendArray ms = .ok (r, p')) : Areas fsize (log ++ ms.take r.writed) p' ∧
      (r.writed = 0 → ms ≠ [] → FullAt fsize log) := by
  obtain ⟨-, k, q, ix, hacc, -, rfl, rfl⟩ := Op.run_iff.mp (show Op.run (.array ms) p = _ from h)
  obtain ⟨hq, -⟩ := acceptAll_taken ha hacc
  refine ⟨hq.finish (.array ms) k ix, fun hzero hne => ?_⟩
  obtain ⟨m, ms, rfl⟩ := List.exists_cons_of_ne_nil hne
  rcases acceptAll_cons hacc with ⟨hfull, -, -⟩ | ⟨-, w, n, -, -, -, hk⟩
  · exact ha.isFull_iff.mp hfull
  · cases hk.symm.trans hzero

/-- Where not even an empty page takes anything, the loop does not end but on an empty batch. -/
theorem writeLoop_full {fuel : Nat} {output : List Meas} (hfull : FullAt fsize []) (hsize : pm.defaultPageSize = fsize)
    (hp : pm.curpage = some p) (ha : Areas fsize [] p)
    (hw : AsyncWriter.writeLoop fuel output pm = .ok (new, pm')) : output = [] := by
  induction fuel generalizing pm p new with
  | zero => cases hw
  | succ fuel ih =>
    by_contra hne
    obtain ⟨p₁, ares, p', pm₁, rest, hp₁, happ, hroll, hrest, -⟩ := PageManager.writeLoop_cons hne hw
    obtain rfl := Option.some.inj (hp.symm.trans hp₁)
    have hzero : ares.writed = 0 := by
      obtain ⟨-, k, q, ix, hacc, -, rfl, -⟩ := Op.run_iff.mp (show Op.run (.array output) p = _ from happ)
      obtain ⟨m, ms, rfl⟩ := List.exists_cons_of_ne_nil hne
      rcases acceptAll_cons hacc with ⟨-, hk, -⟩ | ⟨hopen, -⟩
      · exact hk
      · exact absurd (ha.isFull_iff.mpr hfull) hopen
    unfold AsyncWriter.rollOver at hroll
    rw [hzero, if_pos (List.length_pos_iff.mpr hne).ne] at hroll
    rw [hzero, List.drop_zero] at hrest
    obtain ⟨f, -, rfl⟩ := (PageManager.createNewPage_iff rfl).mp hroll
    have hnew : Areas fsize [] {Page.create pm.defaultPageSize with writeWindow := p'.writeWindow} := by
      rw [hsize]
      exact Areas.carrying fsize _
    refine hne (ih ?_ rfl hnew hrest)
    exact hsize

theorem Begun.writeLoop {fuel : Nat} {output : List Meas} (h : Begun fsize pm) (hset : output = [] → Settled fsize pm)
    (hw : AsyncWriter.writeLoop fuel output pm = .ok (new, pm')) : Settled fsize pm' := by
  induction fuel generalizing output new pm with
  | zero => cases hw
  | succ fuel ih =>
    by_cases hne : output = []
    · obtain ⟨-, rfl⟩ := PageManager.writeLoop_nil (hne ▸ hw)
      exact hset hne
    obtain ⟨p, log, hp, ha⟩ := h.cur
    obtain ⟨p₁, ares, p', pm₁, rest, hp₁, happ, hroll, hrest, -⟩ := PageManager.writeLoop_cons hne hw
    obtain rfl := Option.some.inj (hp.symm.trans hp₁)
    obtain ⟨ha', hfull⟩ := areas_appendArray ha happ
    unfold AsyncWriter.rollOver at hroll
    by_cases hall : ares.writed ≠ output.length
    · rw [if_pos hall] at hroll
      obtain ⟨f, hf, rfl⟩ := (PageManager.createNewPage_iff rfl).mp hroll
      have hnew : Areas fsize [] {Page.create pm.defaultPageSize with writeWindow := p'.writeWindow} := by
        rw [h.size]
        exact Areas.carrying fsize _
      have hpos : f.header.writePos ≠ 0 := by
        obtain ⟨ix, -, rfl⟩ := close_iff.mp hf
        show p'.header.writePos ≠ 0
        rw [ha'.writePos]
        intro hzero
        -- an empty page that takes nothing is full
        obtain ⟨hlog, htake⟩ := List.append_eq_nil_iff.mp (List.eq_nil_of_length_eq_zero hzero)
        have hnone : ares.writed = 0 := by
          by_contra hsome
          rw [List.take_eq_nil_iff] at htake
          exact htake.elim hsome hne
        rw [hnone, List.drop_zero] at hrest
        have hfull' := hfull hnone hne
        rw [hlog] at hfull'
        refine hne (writeLoop_full hfull' ?_ rfl hnew hrest)
        exact h.size
      refine ih ?_ (fun hnil => ?_) hrest
      · refine ⟨h.size, ⟨_, [], rfl, hnew⟩, fun g hg => ?_⟩
        rcases List.mem_append.mp hg with hg | hg
        · exact h.files g hg
        · rw [List.mem_singleton.mp hg]
          exact hpos
      · have hle := List.drop_eq_nil_iff.mp hnil
        obtain ⟨-, k, q, ix, hacc, -, rfl, -⟩ := Op.run_iff.mp (show Op.run (.array output) p = _ from happ)
        exact absurd (le_antisymm (acceptAll_le hacc) hle) hall
    · rw [if_neg hall] at hroll
      obtain rfl := Except.ok.inj hroll
      have hbegun : Begun fsize {pm with curpage := some p'} := ⟨h.size, ⟨p', _, rfl, ha'⟩, h.files⟩
      refine ih ?_ (fun _ => ⟨hbegun, fun p₁ hp₁ hzero => ?_⟩) hrest
      · exact hbegun
      obtain rfl := Option.some.inj hp₁
      rw [ha'.writePos] at hzero
      have hnil := List.eq_nil_of_length_eq_zero hzero
      rw [not_not.mp hall, List.take_length] at hnil
      exact absurd (List.append_eq_nil_iff.mp hnil).2 hne

/-! ### Between batches -/

/-- The window and the index of the page lie in its files. -/
structure Flushed (p : Page) : Prop where
  cache : p.index.cache = []
  window : p.windowFile = if p.writeWindow.length ≠ 0 then some p.writeWindow else p.windowFile

/-- The files of a page that is open: what is mapped, and what was flushed last. -/
def onDisk (p : Page) : PageFile := ⟨p.header, p.rawData, p.index.tree, p.windowFile⟩

theorem Volume.onDisk {before log : List Meas} (h : Volume fsize before log p) (hf : Flushed p) :
    Saved fsize before log (onDisk p) := by
  have hflush : p.index.flush = .ok p.index := if_pos hf.cache
  have hmarked : Marked p.header p.header := rfl
  have hsaved := h.saved hflush hmarked
  rw [← hf.window] at hsaved
  exact hsaved

/-- The page files of a storage, in the order they were made. -/
def pageFiles (pm : PageManager) : List PageFile := pm.files ++ (pm.curpage.map onDisk).toList

theorem pageFiles_some (hp : pm.curpage = some p) : pageFiles pm = pm.files ++ [onDisk p] := by
  unfold pageFiles
  rw [hp]
  rfl

/-- Every index file holds the nodes of its tree. -/
def IndexesWhole (pm : PageManager) : Prop := ∀ f, f ∈ pageFiles pm → f.IndexWhole

/-- The page files with their index files written back. What is lost may come back as something else in each. -/
def writtenBack (lost : PageFile → Nat → BTree.Node Time IndexRecord) (files : List PageFile) : List PageFile :=
  files.map fun f => f.writtenBack (lost f)

theorem writtenBack_eq {files : List PageFile} (h : ∀ f, f ∈ files → f.IndexWhole)
    (lost : PageFile → Nat → BTree.Node Time IndexRecord) : writtenBack lost files = files := by
  have hsame : writtenBack lost files = files.map id :=
    List.map_congr_left fun f hf => (h f hf).writtenBack_eq _
  rw [hsame, List.map_id]

/-- The storage itself after that, which has its current page mapped. -/
def pagesWrittenBack (lost : PageFile → Nat → BTree.Node Time IndexRecord) (pm : PageManager) : PageManager :=
  {pm with
    curpage := pm.curpage.map fun p => p.writtenBack (lost (onDisk p))
    files := writtenBack lost pm.files}

theorem pageFiles_writtenBack (lost : PageFile → Nat → BTree.Node Time IndexRecord) (pm : PageManager) :
    pageFiles (pagesWrittenBack lost pm) = writtenBack lost (pageFiles pm) := by
  unfold pageFiles pagesWrittenBack writtenBack
  rw [List.map_append]
  cases pm.curpage <;> rfl

theorem IndexesWhole.pagesWrittenBack_eq (h : IndexesWhole pm)
    (lost : PageFile → Nat → BTree.Node Time IndexRecord) : pagesWrittenBack lost pm = pm := by
  have hfiles : writtenBack lost pm.files = pm.files :=
    writtenBack_eq (fun f hf => h f (List.mem_append_left _ hf)) lost
  have hcur : (pm.curpage.map fun p => p.writtenBack (lost (onDisk p))) = pm.curpage := by
    cases hp : pm.curpage with
    | none => rfl
    | some p =>
      have hmem : onDisk p ∈ pageFiles pm := by
        rw [pageFiles_some hp]
        exact List.mem_append_right _ List.mem_cons_self
      exact congrArg some (Page.writtenBack_eq (h _ hmem) _)
  unfold pagesWrittenBack
  rw [hfiles, hcur]

/-- A storage between batches. -/
structure Resting (fsize : U64) (pm : PageManager) : Prop extends Settled fsize pm where
  flushed : ∀ p, pm.curpage = some p → Flushed p

theorem Resting.start (h : (PageManager.start fsize).createNewPage = .ok pm) : Resting fsize pm := by
  obtain rfl := Except.ok.inj h
  refine ⟨⟨⟨rfl, ⟨_, [], rfl, Areas.create fsize⟩, fun f hf => absurd hf List.not_mem_nil⟩, fun p hp _ => rfl⟩,
    fun p hp => ?_⟩
  obtain rfl := Option.some.inj hp
  exact ⟨rfl, rfl⟩

variable {S : TimeSort} {fuel : Nat} {data : List Meas} {batches : List (List Meas)}

theorem Resting.call (h : Resting fsize pm) (hc : AsyncWriter.call S fuel data pm = .ok (new, pm')) :
    Resting fsize pm' := by
  obtain ⟨pm₁, p, p', hw, hp, hf, rfl⟩ := PageManager.call_spec hc
  have hset := h.toBegun.writeLoop (fun _ => h.toSettled) hw
  obtain ⟨p₁, log, hp₁, ha⟩ := hset.cur
  obtain rfl := Option.some.inj (hp₁.symm.trans hp)
  obtain ⟨ix, hix, rfl⟩ := Page.flushIndex_iff.mp hf
  obtain ⟨t, -, rfl⟩ := Index.flush_ok_iff.mp hix
  refine ⟨⟨⟨hset.size, ⟨_, log, rfl, ?_⟩, hset.files⟩, fun q hq hzero => ?_⟩, fun q hq => ?_⟩
  · exact ⟨ha.size, ha.writePos, ha.writeValuePos, ha.records⟩
  · obtain rfl := Option.some.inj hq
    exact hset.first p₁ hp₁ hzero
  · obtain rfl := Option.some.inj hq
    refine ⟨rfl, ?_⟩
    show (if p₁.writeWindow.length ≠ 0 then _ else _) = if p₁.writeWindow.length ≠ 0 then _ else
      if p₁.writeWindow.length ≠ 0 then _ else _
    split
    · rfl
    · rfl

theorem Resting.calls (h : Resting fsize pm)
    (hrun : PageManager.runAll S fuel (batches.map .call) pm = .ok (log, pm')) : Resting fsize pm' := by
  induction batches generalizing pm log with
  | nil =>
    obtain ⟨-, rfl⟩ := Prod.mk.inj (Except.ok.inj hrun)
    exact h
  | cons data batches ih =>
    obtain ⟨new, pm₁, rest, hcall, hrest, -⟩ := PageManager.runAll_cons hrun
    exact ih (h.call hcall) hrest

/-- After batches in the order of the times the page files hold what was written one after the
other, none of them empty unless it is the only one. -/
theorem volumes_of_calls (hstart : (PageManager.start fsize).createNewPage = .ok pm)
    (hrun : PageManager.runAll S fuel (batches.map .call) pm = .ok (log, pm')) (hi : Increasing log) :
    Volumes fsize log (pageFiles pm') ∧
      ((log = [] ∧ ∃ f, pageFiles pm' = [f] ∧ f.header.writePos = 0) ∨
        (log ≠ [] ∧ ∀ f, f ∈ pageFiles pm' → f.header.writePos ≠ 0)) := by
  have hshelved := (Shelved.kept fsize).runAll (fun _ => Shelved.start hstart) hrun
  rw [List.nil_append] at hshelved
  obtain ⟨-, before, seg, p, rfl, hp, hv, hvs⟩ := hshelved hi
  have hrest := (Resting.start hstart).calls hrun
  rw [pageFiles_some hp]
  refine ⟨hvs.snoc (hv.onDisk (hrest.flushed p hp)), ?_⟩
  obtain ⟨recs, hposted⟩ := hv.posted
  by_cases hzero : p.header.writePos = 0
  · have hnil := hrest.first p hp hzero
    rw [hnil] at hvs ⊢
    have hseg : seg = [] := by
      rw [hposted.areas.writePos] at hzero
      exact List.eq_nil_of_length_eq_zero hzero
    rw [hvs.eq_nil rfl, hseg]
    exact .inl ⟨rfl, _, rfl, hzero⟩
  · refine .inr ⟨fun hnil => hzero ?_, fun f hf => ?_⟩
    · rw [hposted.areas.writePos, (List.append_eq_nil_iff.mp hnil).2]
      rfl
    rcases List.mem_append.mp hf with hf | hf
    · exact hrest.files f hf
    · rw [List.mem_singleton.mp hf]
      exact hzero

end
end Nkvdb.Storage
