import Nkvdb.Storage.Volumes

/-! The storages that batches and `Close` and `Open` lead to.

Between batches the files of every page give the page back, and none is empty but one that is
alone. -/
namespace Nkvdb.Storage
open Page

/-! ### Marks -/

/-- The file but for the marks of who has it open. -/
def unmarked (f : PageFile) : PageFile :=
  {f with header := {f.header with isOpen := false, readersCount := 0, writeWindowSize := 0}}

section
variable {ν : Type} {f g : PageFile} {p q : Page} {pm pm' closed : PageManager}

theorem marked_of_unmarked (h : unmarked f = unmarked g) : Marked f.header g.header := by
  have hh := congrArg PageFile.header h
  simp only [unmarked, Header.mk.injEq] at hh
  obtain ⟨hv, -, -, hi, hmin, hmax, hwp, hwv, hs, -, hid, hfl, hsr⟩ := hh
  unfold Marked
  rw [hv, hi, hmin, hmax, hwp, hwv, hs, hid, hfl, hsr]

/-- Files that are the same but for the marks open to pages that are. -/
theorem openFile_unmarked (h : unmarked f = unmarked g) (hopen : openFile f true = .ok p) :
    ∃ hdr, openFile g true = .ok {p with header := hdr} ∧ Marked p.header hdr := by
  have hm := marked_of_unmarked h
  have hwindow := congrArg PageFile.windowFile h
  have hraw := congrArg PageFile.rawData h
  have hindex := congrArg PageFile.indexFile h
  simp only [unmarked] at hwindow hraw hindex
  obtain ⟨-, hversion, w, hw, rfl⟩ := openFile_iff.mp hopen
  have hversion' : g.header.version = pageVersion := by
    rw [hm]
    exact hversion
  refine ⟨{g.header with isOpen := true, readersCount := g.header.readersCount + 1},
    openFile_iff.mpr ⟨nofun, hversion', w, hwindow ▸ hw, ?_⟩, ?_⟩
  · rw [hwindow, hraw, hindex]
    rfl
  · unfold Marked at hm ⊢
    rw [hm]

theorem indexWhole_unmarked (h : unmarked f = unmarked g) (hw : f.IndexWhole) : g.IndexWhole := by
  have hsize := congrArg (fun x : PageFile => x.header.size) h
  have hindex := congrArg PageFile.indexFile h
  simp only [unmarked] at hsize hindex
  unfold PageFile.IndexWhole at hw ⊢
  rwa [hsize, hindex] at hw

/-- Files that are the same but for the marks hold their indexes alike. -/
theorem whole_of_unmarked {files files' : List PageFile} (h : files.map unmarked = files'.map unmarked)
    (hw : ∀ f, f ∈ files' → f.IndexWhole) : ∀ f, f ∈ files → f.IndexWhole := by
  intro f hf
  obtain ⟨g, hg, he⟩ := List.mem_map.mp (h ▸ List.mem_map_of_mem hf)
  exact indexWhole_unmarked he (hw g hg)

/-- What the current page leaves in its files when it is closed, it has in them before. -/
theorem unmarked_close (hf : Flushed p) (hc : p.close = .ok f) : unmarked f = unmarked (onDisk p) := by
  obtain ⟨ix, hix, rfl⟩ := close_iff.mp hc
  have hsame : p.index.flush = .ok p.index := if_pos hf.cache
  obtain rfl := Except.ok.inj (hsame.symm.trans hix)
  unfold unmarked onDisk
  rw [← hf.window]

theorem unmarked_openFile (h : openFile f false = .ok p) : unmarked (onDisk p) = unmarked f := by
  obtain ⟨-, -, w, -, rfl⟩ := openFile_iff.mp h
  rfl

/-- Closing changes the marks alone. -/
theorem closed_files (hp : pm.curpage = some p) (hf : Flushed p) (hc : pm.closeCurrentPage = .ok closed) :
    closed.files.map unmarked = (pageFiles pm).map unmarked := by
  obtain ⟨f, hclose, hclosed⟩ := closes hp hf.cache
  obtain rfl := Except.ok.inj (hclosed.symm.trans hc)
  rw [pageFiles_some hp]
  simp only [List.map_append, List.map_cons, List.map_nil, unmarked_close hf hclose]

/-- So does opening. -/
theorem opened_files [DecidableEq ν] {listing : List (ν × PageFile)} (hnames : (listing.map Prod.fst).Nodup)
    (h : openPages listing = .ok pm) :
    ((pageFiles pm).map unmarked).Perm ((listing.map Prod.snd).map unmarked) := by
  obtain ⟨name, x, p, -, hx, hopen, rfl⟩ := openPages_ok.mp h
  obtain rfl : x.1 = name := by simpa using List.find?_some hx
  obtain ⟨a, b, rfl⟩ := List.append_of_mem (List.mem_of_find?_eq_some hx)
  rw [List.map_append, List.map_cons, List.nodup_middle, List.nodup_cons] at hnames
  have hothers : (a ++ x :: b).filter (fun y => y.1 ≠ x.1) = a ++ b := by
    have hne : ∀ y, y ∈ a ++ b → decide (y.1 ≠ x.1) = true := by
      intro y hy
      refine decide_eq_true fun he => hnames.1 ?_
      rw [← he, ← List.map_append]
      exact List.mem_map_of_mem hy
    rw [List.filter_append, List.filter_cons_of_neg (by simp), ← List.filter_append]
    exact List.filter_eq_self.mpr hne
  show (List.map unmarked (((a ++ x :: b).filter fun y => y.1 ≠ x.1).map Prod.snd ++ [onDisk p])).Perm _
  rw [hothers, List.map_append, List.map_singleton, unmarked_openFile hopen]
  simp only [List.map_append, List.map_cons, List.append_assoc]
  exact (List.perm_append_singleton _ _).append_left _

theorem nodup_named (files : List PageFile) : ((named files).map Prod.fst).Nodup := by
  have hnames : (named files).map Prod.fst = List.range files.length := by
    refine List.ext_getElem (by simp [named]) fun i hi hi' => ?_
    simp [named]
  rw [hnames]
  exact List.nodup_range

theorem map_snd_named (files : List PageFile) : (named files).map Prod.snd = files := by
  refine List.ext_getElem (by simp [named]) fun i hi hi' => ?_
  simp [named]

/-- A storage that is closed and opened has the page files it had. -/
theorem reopened_files {listing : List (Nat × PageFile)} (hp : pm.curpage = some p) (hf : Flushed p)
    (hc : pm.closeCurrentPage = .ok closed) (hlist : listing.Perm (named closed.files))
    (hopen : openPages listing = .ok pm') : ((pageFiles pm').map unmarked).Perm ((pageFiles pm).map unmarked) := by
  have hnames : (listing.map Prod.fst).Nodup := (hlist.map Prod.fst).nodup_iff.mpr (nodup_named _)
  have hperm := (hlist.map Prod.snd).map unmarked
  rw [map_snd_named, closed_files hp hf hc] at hperm
  exact (opened_files hnames hopen).trans hperm

end

/-! ### Pages that are given back -/

/-- What the header of a page without a measurement says. -/
structure Blank (hdr : Header) : Prop where
  minTime : hdr.minTime = 0
  maxTime : hdr.maxTime = 0
  idFltr : hdr.idFltr = 0
  flagFltr : hdr.flagFltr = 0
  srcFltr : hdr.srcFltr = 0

/-- A page that can be searched, and opened once it is closed. -/
structure Proper (p : Page) : Prop extends Reopens p where
  posted : ∃ fsize log recs, Posted fsize log recs p
  blank : p.header.writePos = 0 → Blank p.header

/-- The file opens to such a page. -/
def Shelf (f : PageFile) : Prop := ∃ p, openFile f true = .ok p ∧ Proper p ∧ Flushed p

section
variable {f : PageFile} {p p' : Page} {ix : Index} {hdr : Header}

theorem acceptAll_none {ms : List Meas} {q : Page} (h : acceptAll ms p = .ok (0, q)) : q = p := by
  cases ms with
  | nil => exact (acceptAll_nil h).2
  | cons m ms =>
    rcases acceptAll_cons h with ⟨-, -, rfl⟩ | ⟨-, -, n, -, -, -, hn⟩
    · rfl
    · cases hn

namespace Proper

theorem create {w : WriteWindow} {fsize : U64} (h : ∃ log, WriteWindow.Tracks log w) :
    Proper {Page.create fsize with writeWindow := w} := by
  obtain ⟨ha, hl, hp, hc⟩ := Posted.create fsize
  exact ⟨⟨rfl, h, fun _ => rfl⟩, ⟨fsize, [], [], ⟨ha.size, ha.writePos, ha.writeValuePos, ha.records⟩, hl, hp, hc⟩,
    fun _ => ⟨rfl, rfl, rfl, rfl, rfl⟩⟩

theorem run (h : Proper p) {op : Op} {r : AppendResult} (hrun : op.run p = .ok (r, p')) : Proper p' := by
  obtain ⟨fsize, log, recs, hposted⟩ := h.posted
  refine ⟨h.toReopens.run hrun, ⟨_, _, _, hposted.append hrun⟩, ?_⟩
  obtain ⟨-, k, q, ix, hacc, -, rfl, rfl⟩ := Op.run_iff.mp hrun
  have hpos := ((acceptAll_taken hposted.areas hacc).1).writePos
  obtain ⟨init, lo, hi, he⟩ := op.minMax_eq k q.header
  intro hzero
  -- so nothing was accepted
  have hwp : (op.minMax k q.header).writePos = 0 := hzero
  rw [he] at hwp
  have hnone : log ++ op.meases.take k = [] := List.eq_nil_of_length_eq_zero (hpos.symm.trans hwp)
  have hk : k = 0 := by
    rcases List.take_eq_nil_iff.mp (List.append_eq_nil_iff.mp hnone).2 with hk | hmeases
    · exact hk
    · have hle := acceptAll_le hacc
      rw [hmeases] at hle
      exact Nat.le_zero.mp hle
  subst hk
  obtain rfl := acceptAll_none hacc
  have hsame : op.minMax 0 q.header = q.header := by
    cases op with
    | single m junk => rfl
    | array ms => rfl
  show Blank (op.minMax 0 q.header)
  rw [hsame]
  exact h.blank hwp

theorem flush (h : Proper p) (hf : p.flushWriteWindow.flushIndex = .ok p') : Proper p' := by
  have hr := h.toReopens.flush hf
  obtain ⟨ix, hix, rfl⟩ := Page.flushIndex_iff.mp hf
  obtain ⟨fsize, log, recs, ha, hl, hp, hc⟩ := h.posted
  refine ⟨hr, ⟨fsize, log, recs, ⟨ha.size, ha.writePos, ha.writeValuePos, ha.records⟩, hl.flush hix, hp, hc⟩,
    fun hzero => ?_⟩
  obtain ⟨h1, h2, h3, h4, h5⟩ := h.blank hzero
  exact ⟨h1, h2, h3, h4, h5⟩

/-- Marks change nothing. -/
theorem marked (h : Proper p) (hm : Marked p.header hdr) : Proper {p with header := hdr} := by
  obtain ⟨fsize, log, recs, ha, hl, hp, hc⟩ := h.posted
  unfold Marked at hm
  rw [hm]
  refine ⟨⟨h.version, h.tracks, h.file⟩,
    ⟨fsize, log, recs, ⟨ha.size, ha.writePos, ha.writeValuePos, ha.records⟩, hl, hp, hc⟩, fun hzero => ?_⟩
  obtain ⟨h1, h2, h3, h4, h5⟩ := h.blank hzero
  exact ⟨h1, h2, h3, h4, h5⟩

/-- A page whose index and window were flushed lies in its files. -/
theorem saved (h : Proper p) (hf : p.index.flush = .ok ix) (hm : Marked p.header hdr) :
    Shelf ⟨hdr, p.rawData, ix.tree, if p.writeWindow.length ≠ 0 then some p.writeWindow else p.windowFile⟩ := by
  obtain ⟨log, ht⟩ := h.tracks
  have hload := load_windowFile ht h.file
  have hversion : hdr.version = pageVersion := by
    rw [hm]
    exact h.version
  refine ⟨_, openFile_iff.mpr ⟨nofun, hversion, _, hload, rfl⟩, ?_, rfl, ?_⟩
  · obtain ⟨fsize, log, recs, ha, hl, hp, hc⟩ := h.posted
    unfold Marked at hm
    rw [hm]
    refine ⟨⟨h.version, h.tracks, fun hnil => ?_⟩, ⟨fsize, log, recs,
      ⟨ha.size, ha.writePos, ha.writeValuePos, ha.records⟩, ⟨recs, (hl.flush_ok hf).1, List.append_nil _⟩, hp, hc⟩,
      fun hzero => ?_⟩
    · show (if p.writeWindow.length ≠ 0 then _ else _) = none
      replace hnil : p.writeWindow = [] := hnil
      rw [hnil]
      exact h.file hnil
    · obtain ⟨h1, h2, h3, h4, h5⟩ := h.blank hzero
      exact ⟨h1, h2, h3, h4, h5⟩
  · show (if p.writeWindow.length ≠ 0 then _ else _) = if p.writeWindow.length ≠ 0 then _ else
      if p.writeWindow.length ≠ 0 then _ else _
    split
    · rfl
    · rfl

theorem close (h : Proper p) (hc : p.close = .ok f) : Shelf f := by
  obtain ⟨ix, hf, rfl⟩ := close_iff.mp hc
  exact h.saved hf rfl

theorem onDisk (h : Proper p) (hf : Flushed p) : Shelf (onDisk p) := by
  have hflush : p.index.flush = .ok p.index := if_pos hf.cache
  have hmarked : Marked p.header p.header := rfl
  have hsaved := h.saved hflush hmarked
  rw [← hf.window] at hsaved
  exact hsaved

end Proper

/-- A file that is opened to go on with gives such a page too. -/
theorem Shelf.opened (h : Shelf f) (ho : openFile f false = .ok p) : Proper p ∧ Flushed p := by
  obtain ⟨q, hq, hproper, hflushed⟩ := h
  obtain ⟨-, -, w, hw, rfl⟩ := openFile_iff.mp hq
  obtain ⟨-, -, w', hw', rfl⟩ := openFile_iff.mp ho
  obtain rfl := Except.ok.inj (hw.symm.trans hw')
  exact ⟨hproper.marked rfl, hflushed.cache, hflushed.window⟩

end

/-! ### Runs -/

/-- The storages that `Create`, batches, and `Close` and `Open` lead to. -/
inductive Reached (S : TimeSort) : PageManager → Prop
  | create {pageSize : U64} {pm : PageManager} : (PageManager.start pageSize).createNewPage = .ok pm → Reached S pm
  | call {fuel : Nat} {data new : List Meas} {pm pm' : PageManager} : Reached S pm →
      AsyncWriter.call S fuel data pm = .ok (new, pm') → Reached S pm'
  | reopen {pm closed pm' : PageManager} {listing : List (Nat × PageFile)} : Reached S pm →
      pm.closeCurrentPage = .ok closed → listing.Perm (named closed.files) → openPages listing = .ok pm' →
      Reached S pm'

/-- The current page and the others are ones that are given back. -/
def Shelves (_ : List Meas) (pm : PageManager) : Prop :=
  (∃ p, pm.curpage = some p ∧ Proper p) ∧ ∀ f, f ∈ pm.files → Shelf f

theorem Shelves.kept : PageManager.Kept Shelves where
  append := by
    intro log pm p op r p' h hp hrun
    obtain ⟨⟨p₁, hp₁, hproper⟩, hfiles⟩ := h
    obtain rfl := Option.some.inj (hp₁.symm.trans hp)
    exact ⟨⟨p', rfl, hproper.run hrun⟩, hfiles⟩
  createNewPage := by
    intro log pm pm' h hc
    obtain ⟨⟨p, hp, hproper⟩, hfiles⟩ := h
    obtain ⟨f, hf, rfl⟩ := (PageManager.createNewPage_iff hp).mp hc
    refine ⟨⟨_, rfl, .create hproper.tracks⟩, fun g hg => ?_⟩
    rcases List.mem_append.mp hg with hg | hg
    · exact hfiles g hg
    · rw [List.mem_singleton.mp hg]
      exact hproper.close hf
  flush := by
    intro log pm p p' h hp hf
    obtain ⟨⟨p₁, hp₁, hproper⟩, hfiles⟩ := h
    obtain rfl := Option.some.inj (hp₁.symm.trans hp)
    exact ⟨⟨p', rfl, hproper.flush hf⟩, hfiles⟩

/-- A storage between batches. New pages are of the size asked for, or there are none. -/
structure Orderly (pm : PageManager) : Prop where
  cur : ∃ p, pm.curpage = some p ∧ Proper p ∧ Flushed p
  files : ∀ f, f ∈ pm.files → Shelf f ∧ f.header.writePos ≠ 0
  first : ∀ p, pm.curpage = some p → p.header.writePos = 0 → pm.files = []
  size : pm.defaultPageSize = 0 ∨ Begun pm.defaultPageSize pm

section
variable {S : TimeSort} {fuel : Nat} {data new : List Meas} {pm pm' closed : PageManager} {p p' : Page}

theorem Took.flushed (h : Took S data p p') : Flushed p' := by
  obtain ⟨q, t, -, -, rfl⟩ := h.out
  refine ⟨rfl, ?_⟩
  unfold flushWriteWindow
  split
  · rfl
  · rfl

theorem Orderly.create {pageSize : U64} (h : (PageManager.start pageSize).createNewPage = .ok pm) : Orderly pm := by
  have hr := Resting.start h
  obtain rfl := Except.ok.inj h
  refine ⟨⟨_, rfl, .create ⟨[], WriteWindow.Tracks.empty⟩, hr.flushed _ rfl⟩, fun f hf => absurd hf List.not_mem_nil,
    fun _ _ _ => rfl, .inr hr.toBegun⟩

theorem Orderly.call (h : Orderly pm) (hc : AsyncWriter.call S fuel data pm = .ok (new, pm')) : Orderly pm' := by
  obtain ⟨p, hp, hproper, hflushed⟩ := h.cur
  have hshelves : Shelves [] pm := ⟨⟨p, hp, hproper⟩, fun f hf => (h.files f hf).1⟩
  obtain ⟨⟨p', hp', hproper'⟩, hfiles⟩ := Shelves.kept.sorted.call hshelves hc
  rcases h.size with h0 | hbegun
  -- the page that was opened takes the batch whole
  · obtain ⟨q, rfl, htook⟩ := took_of_call h0 hp hflushed.cache hc
    obtain rfl := Option.some.inj hp'
    refine ⟨⟨q, rfl, hproper', htook.flushed⟩, h.files, fun q' hq' hzero => ?_, .inl h0⟩
    obtain rfl := Option.some.inj hq'
    obtain ⟨-, -, hpos, -, -⟩ := htook.next []
    exact h.first p hp (by omega)
  · have hresting : Resting pm.defaultPageSize pm := by
      refine ⟨⟨hbegun, h.first⟩, fun q hq => ?_⟩
      obtain rfl := Option.some.inj (hp.symm.trans hq)
      exact hflushed
    have hr := hresting.call hc
    refine ⟨⟨p', hp', hproper', hr.flushed p' hp'⟩, fun f hf => ⟨hfiles f hf, hr.files f hf⟩, hr.first, .inr ?_⟩
    rw [hr.size]
    exact hr.toBegun

theorem openPages_iff {ν : Type} [DecidableEq ν] {listing : List (ν × PageFile)} (h : openPages listing = .ok pm) :
    pm.defaultPageSize = 0 ∧ (∃ x p, x ∈ listing ∧ pm.curpage = some p ∧ openFile x.2 false = .ok p) ∧
      ∀ f, f ∈ pm.files → ∃ x, x ∈ listing ∧ x.2 = f := by
  obtain ⟨name, x, p, -, hx, hp, rfl⟩ := openPages_ok.mp h
  refine ⟨rfl, ⟨x, p, List.mem_of_find?_eq_some hx, rfl, hp⟩, fun f hf => ?_⟩
  obtain ⟨y, hy, rfl⟩ := List.mem_map.mp hf
  exact ⟨y, (List.mem_filter.mp hy).1, rfl⟩

theorem length_pageFiles (hp : pm.curpage = some p) : (pageFiles pm).length = pm.files.length + 1 := by
  rw [pageFiles_some hp, List.length_append]
  rfl

theorem Orderly.reopen (h : Orderly pm) (hc : pm.closeCurrentPage = .ok closed) {listing : List (Nat × PageFile)}
    (hlist : listing.Perm (named closed.files)) (hopen : openPages listing = .ok pm') : Orderly pm' := by
  obtain ⟨p, hp, hproper, hflushed⟩ := h.cur
  obtain ⟨h0, ⟨x, p', hx, hp', hopenx⟩, hrest⟩ := openPages_iff hopen
  have hlen := (reopened_files hp hflushed hc hlist hopen).length_eq
  rw [List.length_map, List.length_map, length_pageFiles hp, length_pageFiles hp'] at hlen
  obtain ⟨f, hf, hclosed⟩ := closes hp hflushed.cache
  obtain rfl := Except.ok.inj (hclosed.symm.trans hc)
  have hmem : ∀ y, y ∈ listing → y.2 ∈ pm.files ++ [f] := by
    intro y hy
    have hperm := hlist.map Prod.snd
    rw [map_snd_named] at hperm
    exact hperm.mem_iff.mp (List.mem_map_of_mem hy)
  have hpos : f.header.writePos = p.header.writePos := by
    obtain ⟨ix, -, rfl⟩ := close_iff.mp hf
    rfl
  -- with an empty page there is no other one
  have hshelf : ∀ g, g ∈ pm.files ++ [f] → Shelf g ∧ (g.header.writePos = 0 → pm'.files = []) := by
    intro g hg
    rcases List.mem_append.mp hg with hg | hg
    · exact ⟨(h.files g hg).1, fun hzero => absurd hzero (h.files g hg).2⟩
    · rw [List.mem_singleton.mp hg]
      refine ⟨hproper.close hf, fun hzero => List.eq_nil_of_length_eq_zero ?_⟩
      rw [h.first p hp (hpos ▸ hzero)] at hlen
      exact Nat.succ.inj hlen
  have hcur := (hshelf x.2 (hmem x hx)).1.opened hopenx
  refine ⟨⟨p', hp', hcur⟩, fun g hg => ?_, fun q hq hzero => ?_, .inl h0⟩
  · obtain ⟨y, hy, rfl⟩ := hrest g hg
    obtain ⟨hs, hnone⟩ := hshelf y.2 (hmem y hy)
    refine ⟨hs, fun hzero => ?_⟩
    rw [hnone hzero] at hg
    cases hg
  · obtain rfl := Option.some.inj (hp'.symm.trans hq)
    obtain ⟨-, -, w, -, rfl⟩ := openFile_iff.mp hopenx
    exact (hshelf x.2 (hmem x hx)).2 hzero

theorem Reached.orderly (h : Reached S pm) : Orderly pm := by
  induction h with
  | create h => exact .create h
  | call _ hc ih => exact ih.call hc
  | reopen _ hc hlist hopen ih => exact ih.reopen hc hlist hopen

/-- A measurement lies on one of the pages. -/
def Filled (pm : PageManager) : Prop := ∃ f, f ∈ pageFiles pm ∧ f.header.writePos ≠ 0

/-- All pages can be searched, and with one measurement there is one on each of them. -/
theorem Orderly.pages (h : Orderly pm) {f : PageFile} (hf : f ∈ pageFiles pm) :
    Shelf f ∧ (Filled pm → f.header.writePos ≠ 0) := by
  obtain ⟨p, hp, hproper, hflushed⟩ := h.cur
  have hfiles := pageFiles_some hp
  rw [hfiles] at hf
  rcases List.mem_append.mp hf with hf | hf
  · exact ⟨(h.files f hf).1, fun _ => (h.files f hf).2⟩
  · rw [List.mem_singleton.mp hf]
    refine ⟨hproper.onDisk hflushed, fun ⟨g, hg, hpos⟩ hzero => ?_⟩
    rw [hfiles, h.first p hp hzero] at hg
    rw [List.mem_singleton.mp hg] at hpos
    exact hpos hzero

/-- A storage without a measurement has one page. -/
theorem Orderly.blank (h : Orderly pm) (hn : ¬ Filled pm) :
    ∃ f, pageFiles pm = [f] ∧ Shelf f ∧ f.header.writePos = 0 ∧ Blank f.header := by
  obtain ⟨p, hp, hproper, hflushed⟩ := h.cur
  have hfiles := pageFiles_some hp
  have hzero : p.header.writePos = 0 := by
    by_contra hpos
    refine hn ⟨onDisk p, ?_, hpos⟩
    rw [hfiles]
    exact List.mem_append_right _ List.mem_cons_self
  rw [h.first p hp hzero] at hfiles
  exact ⟨onDisk p, hfiles, hproper.onDisk hflushed, hzero, hproper.blank hzero⟩

end

end Nkvdb.Storage
