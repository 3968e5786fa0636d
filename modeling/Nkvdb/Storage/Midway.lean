import Nkvdb.Storage.Answers

/-! A running storage whose process ends in the middle of a batch.

The pages are mapped files, so what came to them by then stays. What each turn of the loop over the pages keeps
holds at every moment and not only between two batches; from it the pages say what they hold, and a storage that
opens again reads it. A new page that nothing has come to yet is in the way: it is listed before the others, and
has no reader. -/
namespace Nkvdb.Storage

/-! ### A blank page among others -/

section
variable {fsize size : U64} {fromTime toTime : Time} {prev : Option PageInfo} {p q : PageInfo} {pages : List PageInfo}
  {seg : List Meas} {segs : List (List Meas)} {pm : PageManager}

/-- The file shows what it holds, and is blank if that is nothing. -/
structure Told (fsize : U64) (seg : List Meas) (f : PageFile) : Prop where
  shown : Shown fsize seg f
  blank : seg = [] → Blank f.header

theorem Told.unmarked {f g : PageFile} (h : Told fsize seg f) (he : unmarked f = unmarked g) : Told fsize seg g := by
  refine ⟨h.shown.unmarked he, fun hnil => ?_⟩
  obtain ⟨hmin, hmax, hid, hflag, hsrc⟩ := h.blank hnil
  have hm := marked_of_unmarked he
  unfold Marked at hm
  rw [hm]
  exact ⟨hmin, hmax, hid, hflag, hsrc⟩

theorem Told.writtenBack {f : PageFile} (h : Told fsize seg f) (lost : Nat → BTree.Node Time IndexRecord) :
    Told fsize seg (f.writtenBack lost) :=
  ⟨h.shown.writtenBack lost, h.blank⟩

theorem Blank.not_encloses {hdr : Header} (h : Blank hdr) : ¬ Encloses fromTime toTime hdr := fun henc =>
  Fin.not_lt_zero _ (henc.first.trans_le (henc.le.trans h.maxTime.le))

/-- From 0 on a query meets the page. -/
theorem visitInterval_blank (h : Blank p.header) (hto : 0 < toTime) (sel : Selection) :
    visitInterval fromTime toTime prev p sel =
      if fromTime = 0 then {sel with pagesToRead := sel.pagesToRead ++ [p.name]} else sel := by
  have hlate : ¬ toTime ≤ 0 := not_le.mpr hto
  unfold visitInterval
  simp only [h.minTime, h.maxTime, hlate, and_false, false_and, if_false, Fin.not_lt_zero, Fin.zero_le,
    Fin.le_zero_iff, and_true]

/-- Later it is scheduled with the first page that follows. -/
theorem visitInterval_after (h : Encloses fromTime toTime p.header) (hq : Blank q.header) (sel : Selection) :
    visitInterval fromTime toTime (some q) p sel =
      {sel with pagesToRead := sel.pagesToRead ++ [q.name] ++ [p.name]} := by
  have hmin : ¬ p.header.minTime ≤ fromTime := not_le.mpr h.first
  have hany : (some q).any (fun q => decide (q.header.maxTime ≤ fromTime)) = true := by
    show decide (q.header.maxTime ≤ fromTime) = true
    rw [hq.maxTime]
    exact decide_eq_true (Fin.zero_le _)
  unfold visitInterval
  simp only [if_neg fun h1 : _ ∧ _ => hmin h1.1]
  rw [if_pos ⟨h.first, hany⟩]
  rfl

/-- The pages of such a storage, as a query over all times sees them. -/
def Met (fromTime toTime : Time) (p : PageInfo) : Prop := Blank p.header ∨ Encloses fromTime toTime p.header

theorem visitInterval_met (h : Met fromTime toTime p) (hto : 0 < toTime) (prev : Option PageInfo) (sel : Selection) :
    ∃ names, visitInterval fromTime toTime prev p sel = ⟨sel.pagesToRead ++ names, sel.prevIntervalPage⟩ := by
  have hnone : sel = ⟨sel.pagesToRead ++ [], sel.prevIntervalPage⟩ := by rw [List.append_nil]
  rcases h with hblank | henc
  · rw [visitInterval_blank hblank hto]
    split
    · exact ⟨_, rfl⟩
    · exact ⟨[], hnone⟩
  · have hmin : ¬ p.header.minTime ≤ fromTime := not_le.mpr henc.first
    unfold visitInterval
    simp only [if_neg fun h1 : _ ∧ _ => hmin h1.1]
    split
    · exact ⟨(prev.map PageInfo.name).toList ++ [p.name], by rw [List.append_assoc]⟩
    split
    · exact ⟨_, rfl⟩
    split
    · exact ⟨_, rfl⟩
    · exact ⟨[], hnone⟩

theorem intervalLoop_met (h : ∀ p, p ∈ pages → Met fromTime toTime p) (hto : 0 < toTime) (prev : Option PageInfo)
    (sel : Selection) : ∃ names, intervalLoop [] 0 0 fromTime toTime prev pages sel =
      ⟨sel.pagesToRead ++ names, sel.prevIntervalPage⟩ := by
  induction pages generalizing prev sel with
  | nil => exact ⟨[], by rw [List.append_nil]; rfl⟩
  | cons p pages ih =>
    obtain ⟨hp, hpages⟩ := List.forall_mem_cons.mp h
    have hfilter : filteredOut [] 0 0 p.header = false := rfl
    obtain ⟨first, hfirst⟩ := visitInterval_met hp hto prev sel
    rw [intervalLoop, hfilter, if_neg Bool.false_ne_true, hfirst]
    obtain ⟨rest, hrest⟩ := ih hpages (some p) ⟨sel.pagesToRead ++ first, sel.prevIntervalPage⟩
    exact ⟨first ++ rest, by rw [hrest, List.append_assoc]⟩

/-- After a blank page the first page that is scheduled is a blank one. -/
theorem intervalLoop_blank (hq : Blank q.header) (h : ∀ p, p ∈ pages → Met fromTime toTime p) (hto : 0 < toTime)
    (hfrom : fromTime ≠ 0) (hsome : ∃ p, p ∈ pages ∧ Encloses fromTime toTime p.header) (prevPage : String) :
    ∃ b names, intervalLoop [] 0 0 fromTime toTime (some q) pages ⟨[], prevPage⟩ = ⟨b.name :: names, prevPage⟩ ∧
      b ∈ q :: pages ∧ Blank b.header := by
  induction pages generalizing q with
  | nil =>
    obtain ⟨p, hp, -⟩ := hsome
    cases hp
  | cons p pages ih =>
    obtain ⟨hp, hpages⟩ := List.forall_mem_cons.mp h
    have hfilter : filteredOut [] 0 0 p.header = false := rfl
    rw [intervalLoop, hfilter, if_neg Bool.false_ne_true]
    rcases hp with hblank | henc
    · rw [visitInterval_blank hblank hto, if_neg hfrom]
      have hrest : ∃ x, x ∈ pages ∧ Encloses fromTime toTime x.header := by
        obtain ⟨x, hx, henc⟩ := hsome
        rcases List.mem_cons.mp hx with rfl | hx
        · exact absurd henc hblank.not_encloses
        · exact ⟨x, hx, henc⟩
      obtain ⟨b, names, hloop, hb, hbb⟩ := ih hblank hpages hrest
      exact ⟨b, names, hloop, List.mem_cons_of_mem _ hb, hbb⟩
    · rw [visitInterval_after henc hq]
      obtain ⟨names, hloop⟩ := intervalLoop_met hpages hto (some p) ⟨[] ++ [q.name] ++ [p.name], prevPage⟩
      exact ⟨q, _, hloop, List.mem_cons_self, hq⟩

/-- So a query over all times reads a blank page first. -/
theorem readInterval_blank (h : ∀ p, p ∈ q :: pages → Met fromTime toTime p) (hto : 0 < toTime) (hq : Blank q.header)
    (hsome : ∃ p, p ∈ pages ∧ Encloses fromTime toTime p.header) :
    ∃ b names, readInterval [] 0 0 fromTime toTime (q :: pages) = ⟨b.name :: names, ""⟩ ∧ b ∈ q :: pages ∧
      Blank b.header := by
  obtain ⟨-, hpages⟩ := List.forall_mem_cons.mp h
  have hfilter : filteredOut [] 0 0 q.header = false := rfl
  rw [readInterval, intervalLoop, hfilter, if_neg Bool.false_ne_true, visitInterval_blank hq hto]
  by_cases hfrom : fromTime = 0
  · rw [if_pos hfrom]
    obtain ⟨names, hloop⟩ := intervalLoop_met hpages hto (some q) ⟨[] ++ [q.name], ""⟩
    exact ⟨q, names, hloop, List.mem_cons_self, hq⟩
  · rw [if_neg hfrom]
    exact intervalLoop_blank hq hpages hto hfrom hsome ""

/-- What of the files shows that a query never ends. -/
theorem told_stuck (h : List.Forall₂ (Told fsize) segs (pageFiles pm)) (hblank : [] ∈ segs) (hne : segs.flatten ≠ [])
    (hwithin : ∀ m, m ∈ segs.flatten → fromTime < m.time ∧ m.time ≤ toTime) (d : Directory pm) (out : List Meas) :
    ¬ (intervalReader [] 0 0 fromTime toTime d.pages).Delivers size d.disk out := by
  have hto : 0 < toTime := by
    obtain ⟨m, hm⟩ := List.exists_mem_of_ne_nil _ hne
    exact (Fin.zero_le _).trans_lt ((hwithin m hm).1.trans_le (hwithin m hm).2)
  have htold : ∀ f, f ∈ pageFiles pm → (Blank f.header ∧ f.header.writePos = 0 ∧
      ∃ q, Page.openFile f true = .ok q) ∨ Encloses fromTime toTime f.header := by
    intro f hf
    obtain ⟨seg, hseg, ht⟩ := exists_left h hf
    by_cases hnil : seg = []
    · obtain ⟨q, hq, -⟩ := ht.shown
      refine .inl ⟨ht.blank hnil, ?_, q, hq⟩
      rw [ht.shown.headed.writePos, hnil]
      rfl
    · exact .inr (ht.shown.headed.encloses hnil fun m hm => hwithin m (List.mem_flatten_of_mem hseg hm))
  have hmet : ∀ p, p ∈ d.pages → Met fromTime toTime p := by
    intro p hp
    have hmem := d.mem_pageFiles (List.mem_map_of_mem hp)
    obtain ⟨n, -, rfl⟩ := List.mem_map.mp hp
    exact (htold _ hmem).imp_left fun hb => hb.1
  have hlisted : ∀ f, f ∈ pageFiles pm → ∃ p, p ∈ d.pages ∧ p.header = f.header := by
    intro f hf
    obtain ⟨n, hn, rfl⟩ := List.mem_map.mp (d.files.mem_iff.mpr hf)
    exact ⟨_, List.mem_map_of_mem hn, rfl⟩
  -- the first page ends no later than the blank one
  obtain ⟨f₀, hf₀, ht₀⟩ := exists_right h hblank
  obtain ⟨p₀, hp₀, -⟩ := hlisted f₀ hf₀
  obtain ⟨q, rest, hpages⟩ := List.exists_cons_of_ne_nil (List.ne_nil_of_mem hp₀)
  have hhead : d.pages.head? = some q := by rw [hpages]; rfl
  obtain ⟨f, hf, heq, hends⟩ := d.head_ends_first hhead
  have hq : Blank q.header := by
    rw [← heq]
    rcases htold f hf with hb | henc
    · exact hb.1
    · have hle := hends f₀ hf₀
      rw [(ht₀.blank rfl).maxTime] at hle
      exact absurd (henc.first.trans_le (henc.le.trans hle)) (Fin.not_lt_zero _)
  have hsome : ∃ p, p ∈ rest ∧ Encloses fromTime toTime p.header := by
    obtain ⟨m, hm⟩ := List.exists_mem_of_ne_nil _ hne
    obtain ⟨seg, hseg, hm⟩ := List.mem_flatten.mp hm
    obtain ⟨f₁, hf₁, ht₁⟩ := exists_right h hseg
    have henc := ht₁.shown.headed.encloses (List.ne_nil_of_mem hm) fun m hm =>
      hwithin m (List.mem_flatten_of_mem hseg hm)
    obtain ⟨p₁, hp₁, heq₁⟩ := hlisted f₁ hf₁
    rw [← heq₁] at henc
    rw [hpages] at hp₁
    rcases List.mem_cons.mp hp₁ with rfl | hp₁
    · exact absurd henc hq.not_encloses
    · exact ⟨p₁, hp₁, henc⟩
  obtain ⟨b, names, hsel, hb, hblank'⟩ := readInterval_blank (fun p hp => hmet p (hpages ▸ hp)) hto hq hsome
  rw [← hpages] at hsel hb
  -- which has no reader
  have hmem := d.mem_pageFiles (List.mem_map_of_mem hb)
  obtain ⟨n, -, rfl⟩ := List.mem_map.mp hb
  obtain ⟨-, hpos, p, hopen⟩ := (htold _ hmem).resolve_right hblank'.not_encloses
  intro hdelivers
  obtain ⟨outs, houts, -⟩ := (StorageReader.delivers_iff rfl).mp hdelivers
  have hpages' : (intervalReader [] 0 0 fromTime toTime d.pages).pages = n :: names :=
    congrArg Selection.pagesToRead hsel
  have hprev : (intervalReader [] 0 0 fromTime toTime d.pages).prevIntervalPage = "" :=
    congrArg Selection.prevIntervalPage hsel
  rw [hpages'] at houts
  obtain ⟨out', outs', ⟨c, hc, -⟩, -, -⟩ := List.forall₂_cons_left_iff.mp houts
  rw [StorageReader.openPage_null hopen hpos hprev] at hc
  cases hc

end
end Nkvdb.Storage

namespace Nkvdb.Running
open Storage Pipeline

/-! ### At every moment -/

/-- What the loop has yet to write is sorted. -/
def OutSorted (w : Writer) : Prop :=
  ∀ i output, w = .call i output ∨ w = .createNewPage i output → output.Pairwise fun a b => a.time ≤ b.time

section
variable {S : TimeSort} {poolSize cacheSize : Nat} {pm₀ : PageManager} {r r' : Running} {log : List Meas}
  {P : List Meas → PageManager → Prop}

/-- A step that does nothing to the pages. -/
structure Outside (S : TimeSort) (s t : Threads) : Prop where
  pages : t.pages = s.pages
  curpage : t.curpage = s.curpage
  writer : t.writer = s.writer ∨ t.writer.inLoop = false ∨ ∃ i data, t.writer = .call i (S.sort data)

theorem outside_of_client {s t : Threads} (h : ClientStep s t) : Outside S s t := by
  cases h with
  | _ => exact ⟨rfl, rfl, .inl rfl⟩

theorem outside_of_writer {s t : Threads} (h : WriterStep S s t) (hout : s.writer.inLoop = false) : Outside S s t := by
  cases h with
  | sort i hw => exact ⟨rfl, rfl, .inr (.inr ⟨i, _, rfl⟩)⟩
  | append i output hw | createNewPage i output hw | written i hw =>
    rw [hw] at hout
    cases hout
  | _ => exact ⟨rfl, rfl, .inr (.inl rfl)⟩

theorem Outside.stored {s t : Threads} (h : Outside S s t) : t.stored = s.stored := by
  unfold Sys.stored
  rw [h.pages, h.curpage]

theorem outSorted_of_outside {w : Writer} (h : w.inLoop = false) : OutSorted w := by
  rintro i output (rfl | rfl)
  · cases h
  · cases h

theorem outSorted_call {i : Nat} {output : List Meas} (h : output.Pairwise fun a b => a.time ≤ b.time) :
    OutSorted (.call i output) := by
  rintro j rest (hj | hj)
  · obtain ⟨-, rfl⟩ := Writer.call.inj hj
    exact h
  · cases hj

theorem outSorted_createNewPage {i : Nat} {output : List Meas} (h : output.Pairwise fun a b => a.time ≤ b.time) :
    OutSorted (.createNewPage i output) := by
  rintro j rest (hj | hj)
  · cases hj
  · obtain ⟨-, rfl⟩ := Writer.createNewPage.inj hj
    exact h

theorem Outside.outSorted {s t : Threads} (h : Outside S s t) (hs : OutSorted s.writer) : OutSorted t.writer := by
  rcases h.writer with hw | hw | ⟨i, data, hw⟩
  · rwa [hw]
  · exact outSorted_of_outside hw
  · rw [hw]
    exact outSorted_call (S.sorted data)

theorem Step.outSorted (h : OutSorted r.threads.writer) (hs : Step S r r') : OutSorted r'.threads.writer := by
  cases hs with
  | client t hc => exact (outside_of_client (S := S) hc).outSorted h
  | writer t hw hout => exact (outside_of_writer hw hout).outSorted h
  | append i output p p' ares hw hne hp ha =>
    have hrest := (h i output (.inl hw)).sublist (List.drop_sublist ares.writed output)
    show OutSorted (.afterAppend i output ares.writed)
    unfold Writer.afterAppend
    split
    · exact outSorted_createNewPage hrest
    · exact outSorted_call hrest
  | createNewPage i output pm hw hc => exact outSorted_call (h i output (.inr hw))
  | flush i p p' hw hp hf => exact outSorted_of_outside rfl

theorem stored_took (pages : List (List Meas)) (curpage new : List Meas) :
    pages.flatMap id ++ (curpage ++ new) = pages.flatMap id ++ curpage ++ new := (List.append_assoc ..).symm

theorem stored_rolled (pages : List (List Meas)) (curpage : List Meas) :
    (pages ++ [curpage]).flatMap id ++ [] = pages.flatMap id ++ curpage := by
  rw [List.append_nil, List.flatMap_append, List.flatMap_singleton]
  rfl

/-- A step keeps what appends, new pages and flushes keep, of what the pages have taken. -/
theorem Step.kept (hP : PageManager.KeptSorted P) (hsorted : OutSorted r.threads.writer)
    (h : P (log ++ r.threads.stored) r.pages) (hs : Step S r r') : P (log ++ r'.threads.stored) r'.pages := by
  have hout : ∀ t : Threads, Outside S r.threads t → P (log ++ t.stored) r.pages := by
    intro t ht
    rwa [ht.stored]
  cases hs with
  | client t hc => exact hout t (outside_of_client hc)
  | writer t hw hloop => exact hout t (outside_of_writer hw hloop)
  | append i output p p' ares hw hne hp ha =>
    have hsorted : Page.Op.Sorted (.array output) := hsorted i output (.inl hw)
    have hrun : Page.Op.run (.array output) p = .ok (ares, p') := ha
    have hnext := hP.append h hp hsorted hrun
    rw [List.append_assoc] at hnext
    have htook := stored_took r.threads.pages r.threads.curpage (output.take ares.writed)
    exact (congrArg (fun stored => P (log ++ stored) _) htook).mpr hnext
  | createNewPage i output pm hw hc =>
    have hrolled := stored_rolled r.threads.pages r.threads.curpage
    exact (congrArg (fun stored => P (log ++ stored) pm) hrolled).mpr (hP.createNewPage h hc)
  | flush i p p' hw hp hf => exact hP.flush h hp hf

theorem Reachable.outSorted (h : Reachable S poolSize cacheSize pm₀ r) : OutSorted r.threads.writer := by
  induction h with
  | init => exact outSorted_of_outside rfl
  | step hr hs ih => exact hs.outSorted ih

/-- So it holds at every moment of a running storage. -/
theorem Reachable.kept (h : Reachable S poolSize cacheSize pm₀ r) (hP : PageManager.KeptSorted P) (h₀ : P log pm₀) :
    P (log ++ r.threads.stored) r.pages := by
  induction h with
  | init =>
    show P (log ++ []) pm₀
    rwa [List.append_nil]
  | step hr hs ih => exact hs.kept hP hr.outSorted ih

end

/-! ### What the files show -/

/-- The window can be loaded from its file. -/
def Loads (_ : List Meas) (pm : PageManager) : Prop :=
  ∃ p, pm.curpage = some p ∧ Reopens p ∧ ∃ w, WriteWindow.load p.windowFile [] = .ok w

theorem Loads.kept : PageManager.Kept Loads where
  append := by
    intro log pm p op r p' h hp hrun
    obtain ⟨p₁, hp₁, hreopens, hload⟩ := h
    obtain rfl := Option.some.inj (hp₁.symm.trans hp)
    refine ⟨p', rfl, hreopens.run hrun, ?_⟩
    obtain ⟨-, k, q, ix, hacc, -, rfl, rfl⟩ := Page.Op.run_iff.mp hrun
    show ∃ w, WriteWindow.load q.windowFile [] = .ok w
    rwa [(Page.acceptAll_rest hacc).2]
  createNewPage := by
    intro log pm pm' h hc
    obtain ⟨p, hp, hreopens, -⟩ := h
    obtain ⟨f, -, rfl⟩ := (PageManager.createNewPage_iff hp).mp hc
    exact ⟨_, rfl, ⟨rfl, hreopens.tracks, fun _ => rfl⟩, [], rfl⟩
  flush := by
    intro log pm p p' h hp hf
    obtain ⟨p₁, hp₁, hreopens, -⟩ := h
    obtain rfl := Option.some.inj (hp₁.symm.trans hp)
    refine ⟨p', rfl, hreopens.flush hf, ?_⟩
    obtain ⟨log, ht⟩ := hreopens.tracks
    obtain ⟨ix, -, rfl⟩ := Page.flushIndex_iff.mp hf
    exact ⟨_, Page.load_windowFile ht hreopens.file⟩

/-- No page is left blank: not the ones before the current page, and not that when a new one is due. -/
structure LeavesNone (r : Running) : Prop where
  files : ∀ f, f ∈ r.pages.files → f.header.writePos ≠ 0
  turn : ∀ i output, r.threads.writer = .createNewPage i output → ∀ p, r.pages.curpage = some p → p.header.writePos ≠ 0

section
variable {S : TimeSort} {poolSize cacheSize : Nat} {pm pm₀ : PageManager} {r r' : Running} {fsize : U64}
  {earlier all seg : List Meas} {p p' : Page}

/-- A page with room takes one at least. -/
theorem LeavesNone.append {output : List Meas} {ares : AppendResult} (h : LeavesNone r) (hroom : ¬ Page.FullAt fsize [])
    (ha : Page.Areas fsize seg p) (hne : output ≠ []) (hrun : p.appendArray output = .ok (ares, p')) (t : Threads) :
    LeavesNone ⟨t, {r.pages with curpage := some p'}⟩ := by
  refine ⟨h.files, fun i rest hw q hq => ?_⟩
  obtain rfl := Option.some.inj hq
  obtain ⟨ha', hfull⟩ := areas_appendArray ha hrun
  rw [ha'.writePos]
  intro hzero
  obtain ⟨rfl, htake⟩ := List.append_eq_nil_iff.mp (List.eq_nil_of_length_eq_zero hzero)
  exact hroom (hfull ((List.take_eq_nil_iff.mp htake).resolve_right hne) hne)

theorem LeavesNone.outside (h : LeavesNone r) {t : Threads} (ht : Outside S r.threads t) :
    LeavesNone {r with threads := t} := by
  refine ⟨h.files, fun i output hw => ?_⟩
  have hw : t.writer = .createNewPage i output := hw
  rcases ht.writer with hsame | hout | ⟨j, data, hcall⟩
  · exact h.turn i output (hsame.symm.trans hw)
  · rw [hw] at hout
    cases hout
  · rw [hw] at hcall
    cases hcall

theorem Step.leavesNone (h : LeavesNone r) (hroom : ¬ Page.FullAt fsize [])
    (hareas : ∃ p seg, r.pages.curpage = some p ∧ Page.Areas fsize seg p) (hs : Step S r r') : LeavesNone r' := by
  obtain ⟨p₀, seg, hp₀, ha₀⟩ := hareas
  cases hs with
  | client t hc => exact h.outside (outside_of_client (S := S) hc)
  | writer t hw hout => exact h.outside (outside_of_writer hw hout)
  | append i output p p' ares hw hne hp ha =>
    obtain rfl := Option.some.inj (hp₀.symm.trans hp)
    exact h.append hroom ha₀ hne ha _
  | createNewPage i output pm hw hc =>
    obtain ⟨f, hf, rfl⟩ := (PageManager.createNewPage_iff hp₀).mp hc
    refine ⟨fun g hg => ?_, fun j rest hj => by cases hj⟩
    rcases List.mem_append.mp hg with hg | hg
    · exact h.files g hg
    · obtain ⟨ix, -, rfl⟩ := Page.close_iff.mp hf
      rw [List.mem_singleton.mp hg]
      exact h.turn i output hw p₀ hp₀
  | flush i p p' hw hp hf => exact ⟨h.files, fun j rest hj => by cases hj⟩

theorem Reachable.genuine (h : Reachable S poolSize cacheSize pm₀ r) (h₀ : Survived S fsize earlier pm₀)
    (hsize : pm₀.defaultPageSize = fsize) : AllGenuine fsize (earlier ++ r.threads.stored) r.pages :=
  (h.kept (AllGenuine.kept fsize) ⟨hsize, h₀.genuine.2⟩).2

theorem Reachable.leavesNone (h : Reachable S poolSize cacheSize pm₀ r) (h₀ : Survived S fsize earlier pm₀)
    (hsize : pm₀.defaultPageSize = fsize) (hroom : ¬ Page.FullAt fsize []) : LeavesNone r := by
  induction h with
  | init => exact ⟨fun f hf => (h₀.intact.files f hf).2, fun i output hw => by cases hw⟩
  | step hr hs ih =>
    obtain ⟨segs, last, p, -, hp, hgenuine, -⟩ := hr.genuine h₀ hsize
    exact hs.leavesNone ih hroom ⟨p, last, hp, hgenuine.content.areas⟩

theorem Reachable.loads (h : Reachable S poolSize cacheSize pm₀ r) (h₀ : Survived S fsize earlier pm₀) :
    ∃ p w, r.pages.curpage = some p ∧ WriteWindow.load p.windowFile [] = .ok w := by
  obtain ⟨p₀, hp₀, hproper, hflushed⟩ := h₀.intact.cur
  obtain ⟨log, ht⟩ := hproper.tracks
  have hload := Page.load_windowFile ht hproper.file
  rw [← hflushed.window] at hload
  have hloads : Loads [] pm₀ := ⟨p₀, hp₀, hproper.toReopens, _, hload⟩
  obtain ⟨p, hp, -, w, hw⟩ := h.kept Loads.kept.sorted hloads
  exact ⟨p, w, hp, hw⟩

theorem room_of_stacked (h : Stacked fsize seg) (hne : seg ≠ []) : ¬ Page.FullAt fsize [] :=
  h 0 (List.length_pos_iff.mpr hne)

/-- The parts that the files show. Only the current page may be blank. -/
theorem Reachable.told (h : Reachable S poolSize cacheSize pm₀ r) (h₀ : Survived S fsize earlier pm₀)
    (hsize : pm₀.defaultPageSize = fsize) (hne : earlier ++ r.threads.stored ≠ []) :
    ∃ segs last p, (segs.flatten ++ last).Perm (earlier ++ r.threads.stored) ∧ r.pages.curpage = some p ∧
      p.header.writePos = last.length ∧ List.Forall₂ (Told fsize) (segs ++ [last]) (pageFiles r.pages) ∧
      ∀ seg, seg ∈ segs → seg ≠ [] := by
  obtain ⟨segs, last, p, hperm, hp, hgenuine, hfiles⟩ := h.genuine h₀ hsize
  obtain ⟨p₁, w, hp₁, hw⟩ := h.loads h₀
  obtain rfl := Option.some.inj (hp.symm.trans hp₁)
  -- something was written, so pages have room
  have hroom : ¬ Page.FullAt fsize [] := by
    by_cases hlast : last = []
    · obtain ⟨seg, hseg, hsome⟩ : ∃ seg, seg ∈ segs ∧ seg ≠ [] := by
        by_contra hnone
        push Not at hnone
        rw [hlast, List.append_nil, List.flatten_eq_nil_iff.mpr hnone] at hperm
        exact hne (List.perm_nil.mp hperm.symm)
      obtain ⟨f, -, q, -, hq⟩ := exists_right hfiles hseg
      exact room_of_stacked hq.stacked hsome
    · exact room_of_stacked hgenuine.stacked hlast
  have hleaves := h.leavesNone h₀ hsize hroom
  have hsegs : ∀ seg, seg ∈ segs → seg ≠ [] := by
    rintro seg hseg rfl
    obtain ⟨f, hf, hgf⟩ := exists_right hfiles hseg
    exact hleaves.files f hf hgf.shown.headed.writePos
  have hshelves : Shelves [] pm₀ := by
    obtain ⟨p₀, hp₀, hproper, -⟩ := h₀.intact.cur
    exact ⟨⟨p₀, hp₀, hproper⟩, fun f hf => (h₀.intact.files f hf).1⟩
  obtain ⟨⟨p₂, hp₂, hproper⟩, -⟩ := h.kept Shelves.kept.sorted hshelves
  obtain rfl := Option.some.inj (hp.symm.trans hp₂)
  refine ⟨segs, last, p, hperm, hp, hgenuine.headed.writePos, ?_, hsegs⟩
  rw [pageFiles_some hp]
  have hcur : Told fsize last (onDisk p) := by
    obtain ⟨ha, hstacked, hstored, hheaded⟩ := hgenuine.content
    refine ⟨⟨_, Page.openFile_iff.mpr ⟨nofun, hgenuine.version, w, hw, rfl⟩,
      ⟨ha.size, ha.writePos, ha.writeValuePos, ha.records⟩, hstacked, hstored, hheaded.congr rfl⟩, fun hnil => ?_⟩
    refine hproper.blank ?_
    rw [hheaded.writePos, hnil]
    rfl
  have hfiles' : List.Forall₂ (Told fsize) segs r.pages.files :=
    ((List.forall₂_and_left segs r.pages.files).mpr ⟨hsegs, hfiles⟩).imp
      fun seg f hf => ⟨GenuineFile.shown hf.2, fun hnil => absurd hnil hf.1⟩
  exact List.rel_append hfiles' (.cons hcur .nil)

/-- The process may end at any step of any interleaving, also between two appends of a batch. What is lost is what
had not come to the pages. The storage opens again unless the page that is picked has the mark; then a query that
begins before all times and ends after them ends if and only if something had come to the page that was current, and
delivers all that had come to the pages, each measurement once. It does so whatever has become of the index nodes
past the ends of their files. -/
theorem killed_midway {valueSize : Nat} (hvalue : valueSize ≤ 8) (hpage : Stacks fsize valueSize)
    (h₀ : Survived S fsize earlier pm₀) (hdefault : pm₀.defaultPageSize = fsize)
    (h : Reachable S poolSize cacheSize pm₀ r) (hne : earlier ++ r.threads.stored ≠ [])
    (hsizes : ∀ m, m ∈ earlier ++ r.threads.stored → m.size.val = valueSize)
    (lost : PageFile → Nat → BTree.Node Time IndexRecord) {listing : List (Nat × PageFile)}
    (hlist : listing.Perm (named (writtenBack lost (pageFiles r.pages)))) :
    (r.threads.stored ++ r.threads.left ++ r.threads.queued ++ r.threads.current).Perm r.threads.accepted ∧
      ((∃ pm', openPages listing = .ok pm') ↔ ∀ x, x ∈ listing →
        getOldesPage (listing.map fun x => (x.1, x.2.header)) = some x.1 → x.2.header.isOpen = false) ∧
      ∃ p, r.pages.curpage = some p ∧ ∀ pm', openPages listing = .ok pm' → ∀ (d : Directory pm') (size : U64)
        (fromTime toTime : Time), 0 < size.val →
        (∀ m, m ∈ earlier ++ r.threads.stored → fromTime < m.time ∧ m.time ≤ toTime) →
        ((∃ out, (intervalReader [] 0 0 fromTime toTime d.pages).Delivers size d.disk out) ↔ p.header.writePos ≠ 0) ∧
          (p.header.writePos ≠ 0 → ∀ (ids : List Id) (source flag : Flag), DeliversAsked size ids source flag d.disk
            (intervalReader ids source flag fromTime toTime d.pages) (earlier ++ r.threads.stored)) := by
  obtain ⟨segs, last, p, hperm, hp, hpos, htold, hsegs⟩ := h.told h₀ hdefault hne
  have hnames : (listing.map Prod.fst).Nodup := (hlist.map Prod.fst).nodup_iff.mpr (nodup_named _)
  have hfiles : writtenBack lost (pageFiles r.pages) ≠ [] := by
    rw [pageFiles_some hp, writtenBack, List.map_append]
    exact List.append_ne_nil_of_right_ne_nil _ (List.cons_ne_nil _ _)
  have htold : List.Forall₂ (Told fsize) (segs ++ [last]) (writtenBack lost (pageFiles r.pages)) :=
    List.forall₂_map_right_iff.mpr (htold.imp fun seg f hf => hf.writtenBack _)
  refine ⟨h.inv.ledger.perm, Storage.opens_iff (named_ne_nil hlist hfiles) hnames fun x hx => ?_, p, hp,
    fun pm' hopen d size fromTime toTime hsize hwithin => ?_⟩
  · obtain ⟨seg, -, ⟨q, hq, -⟩, -⟩ := exists_left htold (mem_listing hlist hx)
    exact ⟨q, hq⟩
  -- what the storage has that was opened
  have hsame : ((pageFiles pm').map Storage.unmarked).Perm
      ((writtenBack lost (pageFiles r.pages)).map Storage.unmarked) := by
    have hnamed := (hlist.map Prod.snd).map Storage.unmarked
    rw [map_snd_named] at hnamed
    exact (opened_files hnames hopen).trans hnamed
  obtain ⟨segs', hsegs', htold'⟩ := parts_of_unmarked htold hsame fun seg f g => Told.unmarked
  have hall : segs'.flatten.Perm (earlier ++ r.threads.stored) := by
    have hflat := hsegs'.flatten
    rw [List.flatten_concat] at hflat
    exact hflat.trans hperm
  have hwithin' : ∀ m, m ∈ segs'.flatten → fromTime < m.time ∧ m.time ≤ toTime := fun m hm =>
    hwithin m (hall.mem_iff.mp hm)
  have hreads : p.header.writePos ≠ 0 → ∀ (ids : List Id) (source flag : Flag),
      DeliversAsked size ids source flag d.disk (intervalReader ids source flag fromTime toTime d.pages)
        (earlier ++ r.threads.stored) := by
    intro hfilled ids source flag
    have hsome : ∀ seg, seg ∈ segs' → seg ≠ [] := by
      intro seg hseg
      rcases List.mem_append.mp (hsegs'.mem_iff.mp hseg) with hseg | hseg
      · exact hsegs seg hseg
      · rintro rfl
        rw [← List.mem_singleton.mp hseg] at hpos
        exact hfilled hpos
    have hshown := htold'.imp fun seg f hf => Told.shown hf
    exact (shown_read hvalue hpage hshown hsome (fun m hm => hsizes m (hall.mem_iff.mp hm)) d ids source flag hsize
      hwithin').perm hall
  refine ⟨⟨?_, fun hfilled => ?_⟩, hreads⟩
  · rintro ⟨out, hout⟩ hzero
    have hlast : last = [] := List.eq_nil_of_length_eq_zero (hpos.symm.trans hzero)
    have hblank : [] ∈ segs' := by
      rw [hsegs'.mem_iff, hlast]
      exact List.mem_append_right _ List.mem_cons_self
    exact told_stuck htold' hblank (fun hnil => hne (List.perm_nil.mp (hnil ▸ hall.symm))) hwithin' d out hout
  · obtain ⟨out, same, hout, -⟩ := hreads hfilled [] 0 0
    exact ⟨out, hout⟩

/-- An append of two measurements, and pages of one: a new page that the second has not come to. -/
theorem exists_midway {pm₀ pm : PageManager} {p q : Page} (hp : pm₀.curpage = some p)
    (ha : p.appendArray [.plain 0 5, .plain 1 7] = .ok (⟨1, 0⟩, q))
    (hc : PageManager.createNewPage {pm₀ with curpage := some q} = .ok pm) :
    ∃ r : Running, Reachable TimeSort.insertion 2 2 pm₀ r ∧ r.threads.accepted = [.plain 0 5, .plain 1 7] ∧
      r.threads.stored = [.plain 0 5] ∧ r.pages = pm := by
  have h : Reachable TimeSort.insertion 2 2 pm₀ (init 2 2 pm₀) := .init
  -- an append
  have h := h.step (.client _ _ (.callAppendArray _ [.plain 0 5, .plain 1 7]))
  have h := h.step (.client _ _ (.enter _ [] [] (.appendArray [.plain 0 5, .plain 1 7]) rfl rfl))
  have h := h.step (.client _ _ (.entry _ [.plain 0 5, .plain 1 7] 1 rfl rfl))
  have h := h.step (.client _ _ (.appendArray _ [.plain 0 5, .plain 1 7] 1 (fun _ => 0) 0 rfl (by decide) rfl))
  have h := h.step (.client _ _ (.appended _ rfl))
  have h := h.step (.client _ _ (.leave _ rfl))
  -- a read hands the cache over
  have h := h.step (.client _ _ (.callRead _))
  have h := h.step (.client _ _ (.enter _ [] [] (.read [.plain 0 5, .plain 1 7]) rfl rfl))
  have h := h.step (.client _ _ (.syncBegin _ (.read [.plain 0 5, .plain 1 7]) 1 rfl rfl (List.cons_ne_nil _ _)))
  have h := h.step (.client _ _ (.addLock _ _ rfl rfl))
  have h := h.step (.client _ _ (.push _ _ 1 rfl rfl))
  have h := h.step (.client _ _ (.addUnlock _ _ rfl))
  -- the writer takes the first measurement to the page, and makes a new one
  have h := h.step (.writer _ _ (.start _ rfl rfl) rfl)
  have h := h.step (.writer _ _ (.haveData _ rfl (List.cons_ne_nil _ _)) rfl)
  have h := h.step (.writer _ _ (.lock _ rfl rfl) rfl)
  have h := h.step (.writer _ _ (.pop _ 1 [] rfl rfl) rfl)
  have h := h.step (.writer _ _ (.unlock _ 1 rfl) rfl)
  have h := h.step (.writer _ _ (.sort _ 1 rfl) rfl)
  have h := h.step (.append _ 1 [.plain 0 5, .plain 1 7] p q ⟨1, 0⟩ rfl (by decide) hp ha)
  have h := h.step (.createNewPage _ 1 [.plain 1 7] pm rfl hc)
  exact ⟨_, h, rfl, rfl, rfl⟩

/-- Killed there, with the pages listed the other way round, without the index nodes: the storage opens, and a query of
it never ends. -/
theorem killed_midway_two : ∃ (r : Running) (pm' : PageManager), r.threads.accepted = [.plain 0 5, .plain 1 7] ∧
    r.threads.stored = [.plain 0 5] ∧
    openPages (named (writtenBack (fun _ _ => BTree.Node.zero) (pageFiles r.pages))).reverse = .ok pm' ∧
    ∀ d : Directory pm', ¬ ∃ out, (intervalReader [] 0 0 1 10 d.pages).Delivers 7 d.disk out := by
  let pm₀ : PageManager := {PageManager.start (Page.calcSize 1) with curpage := some (Page.create (Page.calcSize 1))}
  let lost : PageFile → Nat → BTree.Node Time IndexRecord := fun _ _ => BTree.Node.zero
  obtain ⟨⟨ares, q⟩, ha, hx⟩ := exists_ok
    (x := (Page.create (Page.calcSize 1)).appendArray [.plain 0 5, .plain 1 7])
    (p := fun x : AppendResult × Page => decide (x.1 = ⟨1, 0⟩) &&
      (PageManager.createNewPage {pm₀ with curpage := some x.2}).toOption.any fun pm : PageManager =>
        pm.curpage.any (fun p : Page => decide (p.header.writePos = 0)) &&
          (openPages (named (writtenBack lost (pageFiles pm))).reverse).toOption.isSome) (by decide +kernel)
  obtain ⟨hares, hx⟩ := Bool.and_eq_true_iff.mp hx
  obtain rfl := of_decide_eq_true hares
  obtain ⟨pm, hpm, hx⟩ := (Option.any_eq_true _ _).mp hx
  obtain ⟨hcur, hopen⟩ := Bool.and_eq_true_iff.mp hx
  obtain ⟨p, hp, hzero⟩ := (Option.any_eq_true _ _).mp hcur
  obtain ⟨pm', hopen⟩ := Option.isSome_iff_exists.mp hopen
  have hopen := toOption_eq_some.mp hopen
  obtain ⟨r, h, hacc, hstored, rfl⟩ := exists_midway rfl ha (toOption_eq_some.mp hpm)
  have hpage : Stacks (Page.calcSize 1) 8 := by decide
  have hall : [] ++ r.threads.stored = [.plain 0 5] := hstored
  have hcreated : Survived TimeSort.insertion (Page.calcSize 1) [] pm₀ := .create rfl
  have hkilled := killed_midway le_rfl hpage hcreated rfl h (by rw [hall]; decide) (by rw [hall]; decide) lost
    (List.reverse_perm _)
  obtain ⟨-, -, p', hp', hread⟩ := hkilled
  obtain rfl := Option.some.inj (hp.symm.trans hp')
  refine ⟨r, pm', hacc, hstored, hopen, fun d hout => ?_⟩
  have hfilled := (hread pm' hopen d 7 1 10 (by decide) (by rw [hall]; decide)).1.mp hout
  exact hfilled (of_decide_eq_true hzero)

end

end Nkvdb.Running
