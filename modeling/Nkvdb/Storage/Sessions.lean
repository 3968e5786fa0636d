import Nkvdb.Storage.Killed
import Nkvdb.Storage.RoundTrip

/-! What lies on the pages of a storage after any number of sessions.

Each measurement that was written lies on one page, and each slot of a window holds one of them or is empty.
Batches, new pages, queries, and ends of the process and `Open` keep this, so a query over all times delivers
what was written in all sessions, each measurement once. -/
namespace Nkvdb.Storage
open Page

/-- The page holds `seg` of all that was written, and so do the slots of its window. -/
structure Genuine (fsize : U64) (all seg : List Meas) (p : Page) : Prop extends Ledger fsize seg p where
  window : ∀ m, m ∈ p.writeWindow → m = Meas.empty ∨ m ∈ all

/-- The file opens to such a page. -/
def GenuineFile (fsize : U64) (all seg : List Meas) (f : PageFile) : Prop :=
  ∃ p, openFile f true = .ok p ∧ Genuine fsize all seg p

section
variable {fsize : U64} {all all' seg : List Meas} {p p' : Page} {f g : PageFile} {ix : Index} {hdr : Header}

/-- Marks change nothing. -/
theorem Ledger.marked (h : Ledger fsize seg p) (hm : Marked p.header hdr) :
    Ledger fsize seg {p with header := hdr} := by
  obtain ⟨recs, ha, hl, hp, hc⟩ := h.posted
  unfold Marked at hm
  rw [hm]
  exact ⟨⟨h.version, h.tracks, h.file⟩,
    ⟨recs, ⟨ha.size, ha.writePos, ha.writeValuePos, ha.records⟩, hl, hp, hc⟩, h.stacked, h.stored, h.headed.congr rfl⟩

namespace Genuine

theorem mono (h : Genuine fsize all seg p) (hsub : ∀ m, m ∈ all → m ∈ all') : Genuine fsize all' seg p :=
  ⟨h.toLedger, fun m hm => (h.window m hm).imp_right (hsub m)⟩

theorem create {w : WriteWindow} (htracks : ∃ log, WriteWindow.Tracks log w)
    (hw : ∀ m, m ∈ w → m = Meas.empty ∨ m ∈ all) :
    Genuine fsize all [] {Page.create fsize with writeWindow := w} := ⟨.create htracks, hw⟩

theorem run (h : Genuine fsize all seg p) {op : Op} {r : AppendResult} (hsorted : op.Sorted)
    (hrun : op.run p = .ok (r, p')) :
    Genuine fsize (all ++ op.meases.take r.writed) (seg ++ op.meases.take r.writed) p' := by
  refine ⟨h.toLedger.run hsorted hrun, fun m hm => ?_⟩
  obtain ⟨-, k, q, ix, hacc, -, rfl, rfl⟩ := Op.run_iff.mp hrun
  rcases mem_updateAll (acceptAll_window hacc) hm with hm | hm | hm
  · exact .inl hm
  · exact (h.window m hm).imp_right (List.mem_append_left _)
  · exact .inr (List.mem_append_right _ hm)

theorem flush (h : Genuine fsize all seg p) (hf : p.flushWriteWindow.flushIndex = .ok p') :
    Genuine fsize all seg p' := by
  refine ⟨h.toLedger.flush hf, fun m hm => h.window m ?_⟩
  obtain ⟨ix, -, rfl⟩ := Page.flushIndex_iff.mp hf
  exact hm

/-- The window that is loaded is the one that was flushed. -/
theorem saved (h : Genuine fsize all seg p) (hf : p.index.flush = .ok ix) (hm : Marked p.header hdr) :
    GenuineFile fsize all seg
      ⟨hdr, p.rawData, ix.tree, if p.writeWindow.length ≠ 0 then some p.writeWindow else p.windowFile⟩ := by
  obtain ⟨q, hq, hl⟩ := h.toLedger.saved hf hm
  obtain ⟨wlog, ht⟩ := h.tracks
  have hload := load_windowFile ht h.file
  obtain ⟨-, -, w, hw, rfl⟩ := openFile_iff.mp hq
  obtain rfl := Except.ok.inj (hload.symm.trans hw)
  exact ⟨_, hq, hl, h.window⟩

theorem close (h : Genuine fsize all seg p) (hc : p.close = .ok f) : GenuineFile fsize all seg f := by
  obtain ⟨ix, hf, rfl⟩ := close_iff.mp hc
  exact h.saved hf rfl

theorem onDisk (h : Genuine fsize all seg p) (hf : Flushed p) : GenuineFile fsize all seg (onDisk p) := by
  have hflush : p.index.flush = .ok p.index := if_pos hf.cache
  have hmarked : Marked p.header p.header := rfl
  have hsaved := h.saved hflush hmarked
  rw [← hf.window] at hsaved
  exact hsaved

theorem marked (h : Genuine fsize all seg p) (hm : Marked p.header hdr) :
    Genuine fsize all seg {p with header := hdr} := ⟨h.toLedger.marked hm, h.window⟩

end Genuine

namespace GenuineFile

theorem mono (h : GenuineFile fsize all seg f) (hsub : ∀ m, m ∈ all → m ∈ all') : GenuineFile fsize all' seg f := by
  obtain ⟨p, hopen, hp⟩ := h
  exact ⟨p, hopen, hp.mono hsub⟩

theorem opened (h : GenuineFile fsize all seg f) (ho : openFile f false = .ok p) : Genuine fsize all seg p := by
  obtain ⟨q, hq, hgenuine⟩ := h
  obtain ⟨-, -, w, hw, rfl⟩ := openFile_iff.mp hq
  obtain ⟨-, -, w', hw', rfl⟩ := openFile_iff.mp ho
  obtain rfl := Except.ok.inj (hw.symm.trans hw')
  exact hgenuine.marked rfl

theorem unmarked (h : GenuineFile fsize all seg f) (he : unmarked f = unmarked g) : GenuineFile fsize all seg g := by
  obtain ⟨p, hopen, hp⟩ := h
  obtain ⟨hdr, hopen', hm⟩ := openFile_unmarked he hopen
  exact ⟨_, hopen', hp.marked hm⟩

theorem shown (h : GenuineFile fsize all seg f) : Shown fsize seg f := by
  obtain ⟨p, hopen, hp⟩ := h
  exact ⟨p, hopen, hp.content⟩

end GenuineFile

theorem Shown.unmarked (h : Shown fsize seg f) (he : unmarked f = unmarked g) : Shown fsize seg g := by
  obtain ⟨p, hopen, ha, hstacked, hstored, hheaded⟩ := h
  obtain ⟨hdr, hopen', hm⟩ := openFile_unmarked he hopen
  unfold Marked at hm
  rw [hm] at hopen'
  exact ⟨_, hopen', ⟨ha.size, ha.writePos, ha.writeValuePos, ha.records⟩, hstacked, hstored, hheaded.congr rfl⟩

/-- What does not go by the marks holds as well of files that are the same but for them, in some order. -/
theorem parts_of_unmarked {R : List Meas → PageFile → Prop}
    {segs : List (List Meas)} {files files' : List PageFile}
    (h : List.Forall₂ R segs files) (he : (files'.map unmarked).Perm (files.map unmarked))
    (hR : ∀ seg f g, R seg f → Storage.unmarked f = Storage.unmarked g → R seg g) :
    ∃ segs', segs'.Perm segs ∧ List.Forall₂ R segs' files' := by
  have hmap : List.Forall₂ (fun u seg => ∀ f, unmarked f = u → R seg f) (files.map unmarked) segs :=
    List.forall₂_map_left_iff.mpr (h.flip.imp fun f seg hf g hg => hR seg f g hf hg.symm)
  obtain ⟨segs', hsegs, hperm⟩ := List.perm_comp_forall₂ he hmap
  rw [List.forall₂_map_left_iff] at hsegs
  exact ⟨segs', hperm, (hsegs.imp fun f seg hf => hf f rfl).flip⟩

end

/-! ### Runs -/

/-- All that was written lies on the page files and the current page, in parts. -/
def AllGenuine (fsize : U64) (all : List Meas) (pm : PageManager) : Prop :=
  ∃ segs last p, (segs.flatten ++ last).Perm all ∧ pm.curpage = some p ∧ Genuine fsize all last p ∧
    List.Forall₂ (GenuineFile fsize all) segs pm.files

section
variable {S : TimeSort} {fsize : U64} {fuel : Nat} {all data new : List Meas} {pm pm' : PageManager} {p p' : Page}

theorem AllGenuine.append (h : AllGenuine fsize all pm) (hp : pm.curpage = some p) {op : Op} {r : AppendResult}
    (hsorted : op.Sorted) (hrun : op.run p = .ok (r, p')) :
    AllGenuine fsize (all ++ op.meases.take r.writed) {pm with curpage := some p'} := by
  obtain ⟨segs, last, p₁, hperm, hp₁, hgenuine, hfiles⟩ := h
  obtain rfl := Option.some.inj (hp₁.symm.trans hp)
  refine ⟨segs, _, p', ?_, rfl, hgenuine.run hsorted hrun, hfiles.imp fun seg f hf =>
    GenuineFile.mono hf fun m hm => List.mem_append_left _ hm⟩
  rw [← List.append_assoc]
  exact hperm.append_right _

theorem AllGenuine.flush (h : AllGenuine fsize all pm) (hp : pm.curpage = some p)
    (hf : p.flushWriteWindow.flushIndex = .ok p') : AllGenuine fsize all {pm with curpage := some p'} := by
  obtain ⟨segs, last, p₁, hperm, hp₁, hgenuine, hfiles⟩ := h
  obtain rfl := Option.some.inj (hp₁.symm.trans hp)
  exact ⟨segs, last, p', hperm, rfl, hgenuine.flush hf, hfiles⟩

theorem AllGenuine.kept (fsize : U64) :
    PageManager.KeptSorted fun all pm => pm.defaultPageSize = fsize ∧ AllGenuine fsize all pm where
  append := by
    intro all pm p op r p' h hp hsorted hrun
    exact ⟨h.1, h.2.append hp hsorted hrun⟩
  createNewPage := by
    intro all pm pm' h hc
    obtain ⟨hsize, segs, last, p, hperm, hp, hgenuine, hfiles⟩ := h
    obtain ⟨f, hf, rfl⟩ := (PageManager.createNewPage_iff hp).mp hc
    refine ⟨hsize, segs ++ [last], [], _, ?_, rfl, ?_, List.rel_append hfiles (.cons (hgenuine.close hf) .nil)⟩
    · rwa [List.flatten_concat, List.append_nil]
    · rw [hsize]
      exact .create hgenuine.tracks hgenuine.window
  flush := by
    intro all pm p p' h hp hf
    exact ⟨h.1, h.2.flush hp hf⟩

/-- A storage that was opened has no new pages: the batch goes to the current one. -/
theorem AllGenuine.whole (h : AllGenuine fsize all pm) (h0 : pm.defaultPageSize = 0)
    (hc : AsyncWriter.call S fuel data pm = .ok (new, pm')) : AllGenuine fsize (all ++ new) pm' := by
  obtain ⟨segs, last, p, -, hp, -⟩ := id h
  obtain ⟨pm₁, p₁, p₂, hw, hp₁, hflush, rfl⟩ := PageManager.call_spec hc
  obtain rfl := PageManager.writeLoop_eq hw
  by_cases hne : S.sort data = []
  · rw [hne] at hw
    obtain ⟨-, rfl⟩ := PageManager.writeLoop_nil hw
    rw [hne, List.append_nil]
    exact h.flush hp₁ hflush
  · obtain ⟨p', ha, rfl⟩ := writeLoop_whole h0 hp hne hw
    obtain rfl := Option.some.inj hp₁
    have hsorted : Op.Sorted (.array (S.sort data)) := S.sorted data
    have hrun := h.append hp hsorted (show Op.run (.array (S.sort data)) p = _ from ha)
    have htake : (Op.array (S.sort data)).meases.take (S.sort data).length = S.sort data := List.take_length
    rw [htake] at hrun
    exact hrun.flush rfl hflush

/-- What the page files hold between batches. -/
theorem AllGenuine.pageFiles (h : AllGenuine fsize all pm) (ho : Orderly pm) :
    ∃ segs, segs.flatten.Perm all ∧ List.Forall₂ (GenuineFile fsize all) segs (pageFiles pm) := by
  obtain ⟨segs, last, p, hperm, hp, hgenuine, hfiles⟩ := h
  obtain ⟨p₁, hp₁, -, hflushed⟩ := ho.cur
  obtain rfl := Option.some.inj (hp.symm.trans hp₁)
  refine ⟨segs ++ [last], ?_, ?_⟩
  · rwa [List.flatten_concat]
  · rw [pageFiles_some hp]
    exact List.rel_append hfiles (.cons (hgenuine.onDisk hflushed) .nil)

/-- A query of the current page. -/
theorem AllGenuine.view (h : AllGenuine fsize all pm) (ho : Orderly pm) {f : PageFile} (hp : pm.curpage = some p)
    (hv : Viewed (onDisk p) f) : AllGenuine fsize all {pm with curpage := some (remapped p f)} := by
  obtain ⟨segs, last, p₁, hperm, hp₁, hgenuine, hfiles⟩ := h
  obtain ⟨p₂, hp₂, hproper, hflushed⟩ := ho.cur
  obtain rfl := Option.some.inj (hp.symm.trans hp₁)
  obtain rfl := Option.some.inj (hp.symm.trans hp₂)
  obtain ⟨hsame, hm⟩ := hv.remapped hproper hflushed
  refine ⟨segs, last, _, hperm, rfl, ?_, hfiles⟩
  rw [hsame]
  exact hgenuine.marked hm

/-- A query of another page. -/
theorem AllGenuine.viewFile (h : AllGenuine fsize all pm) (ho : Orderly pm) {a b : List PageFile} {f f' : PageFile}
    (hfiles : pm.files = a ++ f :: b) (hv : Viewed f f') : AllGenuine fsize all {pm with files := a ++ f' :: b} := by
  obtain ⟨segs, last, p, hperm, hp, hgenuine, hall⟩ := h
  have hshelf := (ho.files f (hfiles ▸ List.mem_append_right _ List.mem_cons_self)).1
  have hsame : ((a ++ f' :: b).map unmarked).Perm (pm.files.map unmarked) := by
    rw [hfiles]
    simp only [List.map_append, List.map_cons, hv.unmarked hshelf]
    exact .refl _
  obtain ⟨segs', hsegs, hall'⟩ := parts_of_unmarked hall hsame fun seg f g => GenuineFile.unmarked
  exact ⟨segs', last, p, (hsegs.flatten.append_right last).trans hperm, hp, hgenuine, hall'⟩

/-- An end of the process, and `Open`. -/
theorem AllGenuine.restart (h : AllGenuine fsize all pm) (hi : Intact pm) {files : List PageFile}
    {listing : List (Nat × PageFile)} (hs : Stopped pm files) (hlist : listing.Perm (named files))
    (hopen : openPages listing = .ok pm') : AllGenuine fsize all pm' := by
  obtain ⟨segs, hperm, hall⟩ := h.pageFiles hi.toOrderly
  obtain ⟨-, ⟨x, p, hx, hp, hopenx⟩, -⟩ := openPages_iff hopen
  obtain ⟨segs', hsegs, hall'⟩ := parts_of_unmarked hall (hs.opened hi hlist hopen)
    fun seg f g => GenuineFile.unmarked
  rw [pageFiles_some hp] at hall'
  have hfiles := List.forall₂_take_append _ _ _ hall'
  obtain ⟨last, rest, hlast, hrest, hdrop⟩ :=
    List.forall₂_cons_right_iff.mp (List.forall₂_drop_append _ _ _ hall')
  obtain rfl := List.forall₂_nil_right_iff.mp hrest
  refine ⟨segs'.take pm'.files.length, last, p, ?_, hp, ?_, hfiles⟩
  · have hparts : segs'.take pm'.files.length ++ [last] = segs' := by
      rw [← hdrop, List.take_append_drop]
    rw [← List.flatten_concat, hparts]
    exact hsegs.flatten.trans hperm
  · exact (hlast.unmarked (unmarked_openFile hopenx)).opened hopenx

namespace Survived

theorem genuine (h : Survived S fsize all pm) :
    (pm.defaultPageSize = 0 ∨ pm.defaultPageSize = fsize) ∧ AllGenuine fsize all pm := by
  induction h with
  | create hstart =>
    obtain rfl := Except.ok.inj hstart
    refine ⟨.inr rfl, [], [], _, .refl _, rfl, .create ⟨[], WriteWindow.Tracks.empty⟩ fun m hm => ?_, .nil⟩
    exact absurd hm List.not_mem_nil
  | call h hc ih =>
    obtain ⟨h0 | hsize, hall⟩ := ih
    · obtain ⟨p, hp, -, hflushed⟩ := h.intact.cur
      refine ⟨.inl ?_, hall.whole h0 hc⟩
      obtain ⟨q, rfl, -⟩ := took_of_call h0 hp hflushed.cache hc
      exact h0
    · have hkept := (AllGenuine.kept fsize).call ⟨hsize, hall⟩ hc
      exact ⟨.inr hkept.1, hkept.2⟩
  | view h hp hv ih => exact ⟨ih.1, ih.2.view h.intact.toOrderly hp hv⟩
  | viewFile h hfiles hv ih => exact ⟨ih.1, ih.2.viewFile h.intact.toOrderly hfiles hv⟩
  | restart h hs hlist hopen ih => exact ⟨.inl (openPages_iff hopen).1, ih.2.restart h.intact hs hlist hopen⟩

/-- The parts, none of them empty once something was written. -/
theorem parts (h : Survived S fsize all pm) (hne : all ≠ []) : ∃ segs, segs.flatten.Perm all ∧
    List.Forall₂ (GenuineFile fsize all) segs (pageFiles pm) ∧ ∀ seg, seg ∈ segs → seg ≠ [] := by
  obtain ⟨segs, hperm, hall⟩ := h.genuine.2.pageFiles h.intact.toOrderly
  refine ⟨segs, hperm, hall, ?_⟩
  rintro seg hseg rfl
  obtain ⟨f, hf, q, hopen, hq⟩ := exists_right hall hseg
  have hzero : f.header.writePos = 0 := by
    rw [← (openFile_header hopen).2.2.1, hq.headed.writePos]
    rfl
  -- then no page has anything
  have hnone : ¬ Filled pm := fun hfilled => (h.intact.toOrderly.pages hf).2 hfilled hzero
  obtain ⟨g, hg, -⟩ := h.intact.toOrderly.blank hnone
  have hlen := hall.length_eq
  rw [hg, List.length_singleton] at hlen
  obtain ⟨x, rfl⟩ := List.length_eq_one_iff.mp hlen
  obtain rfl := List.mem_singleton.mp hseg
  exact hne (List.perm_nil.mp hperm.symm)

end Survived

/-- A query that begins before all times and ends after them. -/
theorem Survived.readsBack (h : Survived S fsize all pm) (hwhole : IndexesWhole pm) (hne : all ≠ []) {valueSize : Nat}
    (hvalue : valueSize ≤ 8) (hpage : Stacks fsize valueSize) (hsizes : ∀ m, m ∈ all → m.size.val = valueSize)
    {lost : PageFile → Nat → BTree.Node Time IndexRecord} (d : Directory (pagesWrittenBack lost pm)) (ids : List Id)
    (source flag : Flag) {size : U64} (hsize : 0 < size.val) {fromTime toTime : Time}
    (hwithin : ∀ m, m ∈ all → fromTime < m.time ∧ m.time ≤ toTime) :
    DeliversAsked size ids source flag d.disk (intervalReader ids source flag fromTime toTime d.pages) all := by
  obtain ⟨segs, hperm, hall, hsome⟩ := h.parts hne
  have hshown : List.Forall₂ (Shown fsize) segs (pageFiles (pagesWrittenBack lost pm)) := by
    rw [hwhole.pagesWrittenBack_eq]
    exact hall.imp fun seg f hf => GenuineFile.shown hf
  have hread := shown_read hvalue hpage hshown hsome (fun m hm => hsizes m (hperm.mem_iff.mp hm)) d ids source flag
    hsize fun m hm => hwithin m (hperm.mem_iff.mp hm)
  exact hread.perm hperm

/-- However often the storage was closed or killed between batches, and opened, its index files hold all their nodes:
with values of one size that pages stack a query that begins before all times and ends after them, with any filters
and read in chunks of any size, delivers what was written in all sessions and asked for, each measurement once. -/
theorem survived_read (h : Survived S fsize all pm) (hwhole : IndexesWhole pm) (hne : all ≠ []) {valueSize : Nat}
    (hvalue : valueSize ≤ 8) (hpage : Stacks fsize valueSize) (hsizes : ∀ m, m ∈ all → m.size.val = valueSize)
    (lost : PageFile → Nat → BTree.Node Time IndexRecord) (d : Directory (pagesWrittenBack lost pm))
    (ids : List Id) (source flag : Flag) {size : U64} (hsize : 0 < size.val) {fromTime toTime : Time}
    (hwithin : ∀ m, m ∈ all → fromTime < m.time ∧ m.time ≤ toTime) :
    DeliversAsked size ids source flag d.disk (intervalReader ids source flag fromTime toTime d.pages) all := by
  exact h.readsBack hwhole hne hvalue hpage hsizes d ids source flag hsize hwithin

/-- One measurement before the process is killed and one after, with a query between them, on a page whose index file
holds the root. -/
theorem survived_read_two : ∃ pm, Survived TimeSort.insertion (calcSize 1500) [.plain 1 5, .plain 0 9] pm ∧
    IndexesWhole pm ∧ ∀ lost, ∀ d : Directory (pagesWrittenBack lost pm),
      DeliversAsked 7 [] 0 0 d.disk (intervalReader [] 0 0 1 10 d.pages) [.plain 1 5, .plain 0 9] := by
  let pm₀ : PageManager := {PageManager.start (calcSize 1500) with curpage := some (create (calcSize 1500))}
  obtain ⟨⟨new, pm₁⟩, hcall, hx⟩ := exists_ok (x := AsyncWriter.call TimeSort.insertion 4 [.plain 1 5] pm₀)
    (p := fun x : List Meas × PageManager => decide (x.1 = [.plain 1 5]) && x.2.curpage.any fun p : Page =>
      (openFile (onDisk p) true >>= Page.close).toOption.any fun f : PageFile =>
        (openPages (named (pageFiles {x.2 with curpage := some (remapped p f)}))).toOption.any fun pm =>
          (AsyncWriter.call TimeSort.insertion 4 [.plain 0 9] pm).toOption.any fun y : List Meas × PageManager =>
            decide (y.1 = [.plain 0 9]) && decide (∀ f, f ∈ pageFiles y.2 → f.IndexWhole)) (by decide +kernel)
  obtain ⟨hnew, hx⟩ := Bool.and_eq_true_iff.mp hx
  obtain rfl := of_decide_eq_true hnew
  obtain ⟨p, hp, hx⟩ := (Option.any_eq_true _ _).mp hx
  obtain ⟨f, hf, hx⟩ := (Option.any_eq_true _ _).mp hx
  obtain ⟨pm₂, hopen, hx⟩ := (Option.any_eq_true _ _).mp hx
  have hopen := toOption_eq_some.mp hopen
  obtain ⟨⟨new', pm⟩, hcall', hx⟩ := (Option.any_eq_true _ _).mp hx
  obtain ⟨hnew, hwhole⟩ := Bool.and_eq_true_iff.mp hx
  obtain rfl := of_decide_eq_true hnew
  have hwhole := of_decide_eq_true hwhole
  obtain ⟨q, hq, hf⟩ := bind_ok (toOption_eq_some.mp hf)
  have hstart : (PageManager.start (calcSize 1500)).createNewPage = .ok pm₀ := rfl
  have hkilled := (((Survived.create hstart).call hcall).view hp ⟨q, hq, hf⟩).restart .killed (.refl _) hopen
  have hsurvived : Survived TimeSort.insertion (calcSize 1500) [.plain 1 5, .plain 0 9] pm :=
    hkilled.call (toOption_eq_some.mp hcall')
  have hpage : Stacks (calcSize 1500) 8 := by decide
  exact ⟨pm, hsurvived, hwhole, fun lost d => survived_read hsurvived hwhole (List.cons_ne_nil _ _) le_rfl hpage
    (by decide) lost d [] 0 0 (by decide) (by decide)⟩

end

end Nkvdb.Storage
