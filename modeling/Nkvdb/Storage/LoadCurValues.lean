import Nkvdb.CurValues
import Nkvdb.Page.Filters
import Nkvdb.Storage.Bounds
import Nkvdb.Storage.Reached

/-! The newest values read back from the page files (`Storage::loadCurValues`).

The window of the newest page that may have one of the ids is replayed into the values. Its slots for
ids that were not written look like measurements of the id 0. -/
namespace Nkvdb.Storage
open Page WriteWindow

/-- The loop over the window: `m_cur_values`, and `id_set`. -/
def loadWindow (ww : WriteWindow) (s : CurValuesCache × Finset Id) : CurValuesCache × Finset Id :=
  ww.foldl (fun s m => (s.1.writeValue m, s.2.erase m.id)) s

/-- `Storage::loadCurValues` of the pages as `pagesByTime` lists them. -/
def loadCurValues (ids : List Id) (disk : String → PageFile) (pagesVector : List PageInfo)
    (curValues : CurValuesCache) : Except Fault (List Id × CurValuesCache) :=
  match pagesVector.filter fun p => ids.any fun id => bloomCheck p.header.idFltr id with
  | [] => .error .nullReader
  | p :: _ => do
    let page2read ← openFile (disk p.name) true
    let (curValues, idSet) := loadWindow page2read.writeWindow (curValues, ids.toFinset)
    return (idSet.sort (· ≤ ·), curValues)

/-- `PageManager::pagesByTime`, the newest page first. -/
def Directory.pagesByTime {pm : PageManager} (d : Directory pm) : List PageInfo := d.pages.reverse

/-- The newest measurement of its id. -/
def Newest (log : List Meas) (m : Meas) : Prop := m ∈ log ∧ ∀ m', m' ∈ log → m'.id = m.id → m'.time ≤ m.time

/-- What is loaded of the ids asked for: the newest of each that was written, and the names of the others. -/
def Loads (ids : List Id) (log : List Meas) (x : Except Fault (List Id × CurValuesCache)) : Prop :=
  ∃ missing curValues, x = .ok (missing, curValues) ∧
    (∀ m, Newest log m → m.id ∈ ids → curValues.readValue [m.id] = [m]) ∧
    ∀ id, id ∈ missing ↔ id ∈ ids ∧ ∀ m, m ∈ log → m.id ≠ id

/-! ### The window -/

section
variable {ids : List Id} {log : List Meas} {w : WriteWindow} {m : Meas}

theorem loadWindow_eq (ww : WriteWindow) (curValues : CurValuesCache) (idSet : Finset Id) :
    loadWindow ww (curValues, idSet) = (curValues.writeValues ww, ww.foldl (fun s m => s.erase m.id) idSet) := by
  induction ww generalizing curValues idSet with
  | nil => rfl
  | cons m ww ih => exact ih ..

/-- The ids left are those without a slot. -/
theorem mem_foldl_erase (ww : WriteWindow) (idSet : Finset Id) (id : Id) :
    id ∈ ww.foldl (fun s m => s.erase m.id) idSet ↔ id ∈ idSet ∧ ∀ m, m ∈ ww → m.id ≠ id := by
  induction ww generalizing idSet with
  | nil => simp
  | cons m ww ih =>
    rw [List.foldl_cons, ih, Finset.mem_erase, List.forall_mem_cons]
    tauto

/-- The window has what was written up to it, and none of the ids was written later. -/
structure Covers (ids : List Id) (before after : List Meas) (w : WriteWindow) : Prop where
  tracks : Tracks before w
  bare : before = [] → w = []
  later : ∀ m, m ∈ after → m.id ∉ ids ∧ (0 : Id) ∉ ids

variable {before after : List Meas} {curValues : CurValuesCache}

/-- What the window leaves in the values and the set. -/
def loaded (ids : List Id) (w : WriteWindow) (curValues : CurValuesCache) : Except Fault (List Id × CurValuesCache) :=
  .ok ((w.foldl (fun s m => s.erase m.id) ids.toFinset).sort (· ≤ ·), curValues.writeValues w)

theorem mem_missing (w : WriteWindow) (id : Id) :
    id ∈ (w.foldl (fun s m => s.erase m.id) ids.toFinset).sort (· ≤ ·) ↔ id ∈ ids ∧ ∀ m, m ∈ w → m.id ≠ id := by
  rw [Finset.mem_sort, mem_foldl_erase, List.mem_toFinset]

/-- The newest of an id asked for is the one the window has. -/
theorem Covers.newest (h : Covers ids before after w) (hi : Increasing (before ++ after))
    (hm : Newest (before ++ after) m) (hid : m.id ∈ ids) : FirstMax Meas.id Meas.time m.id before m := by
  obtain ⟨hmem, hmax⟩ := hm
  have hbefore : m ∈ before := (List.mem_append.mp hmem).resolve_right fun hlater => (h.later m hlater).1 hid
  obtain ⟨v, hv⟩ : ∃ v, FirstMax Meas.id Meas.time m.id before v := FirstMax.exists_of_mem hbefore rfl
  have hle := hmax v (List.mem_append_left _ hv.mem) hv.1
  have hge := hv.rank_le hbefore rfl
  obtain rfl := List.inj_on_of_nodup_map hi.times (List.mem_append_left _ hv.mem) hmem (le_antisymm hle hge)
  exact hv

/-- Without a filler that is taken for the id 0 all is loaded. -/
theorem Covers.loads (h : Covers ids before after w) (hi : Increasing (before ++ after))
    (hpos : ∀ m, m ∈ before ++ after → 0 < m.time) (hfill : (0 : Id) ∈ ids → Meas.empty ∉ w) :
    Loads ids (before ++ after) (loaded ids w curValues) := by
  have hpos' : ∀ m, m ∈ before → 0 < m.time := fun m hm => hpos m (List.mem_append_left _ hm)
  refine ⟨_, _, rfl, fun m hm hid => ?_, fun id => ?_⟩
  · have hfirst := h.newest hi hm hid
    have hmem : m ∈ w := ((h.tracks.mem_iff hpos').mpr hfirst).1
    have hlast : CurValuesCache.last m.id w = some m := by
      refine CurValuesCache.last_eq ⟨m, hmem, rfl⟩ fun x hx hxid => ?_
      rcases h.tracks.mem_cases hpos' hx with rfl | hx'
      · exact absurd hx (hfill (by rw [← hxid] at hid; exact hid))
      · rw [hxid] at hx'
        exact hx'.unique hfirst
    show [((curValues.writeValues w).values m.id).getD Meas.empty] = [m]
    rw [CurValuesCache.values_writeValues, hlast]
    rfl
  · rw [mem_missing]
    refine and_congr_right fun hid => ⟨fun hnone m hm hmid => ?_, fun hnone x hx hxid => ?_⟩
    · subst hmid
      have hbefore : m ∈ before := (List.mem_append.mp hm).resolve_right fun hlater => (h.later m hlater).1 hid
      obtain ⟨v, hv⟩ : ∃ v, FirstMax Meas.id Meas.time m.id before v := FirstMax.exists_of_mem hbefore rfl
      have hvid : v.id = m.id := hv.1
      rw [← hvid] at hv
      exact hnone v ((h.tracks.mem_iff hpos').mpr hv).1 hvid
    · rcases h.tracks.mem_cases hpos' hx with rfl | hx'
      · exact absurd hx (hfill (by rw [← hxid] at hid; exact hid))
      · exact hnone x (List.mem_append_left _ hx'.mem) hxid

/-- A filler is written over the measurement of the id 0, which is in the first slot. -/
theorem last_filler (h : Tracks log w) (hm : m ∈ log) (hid : m.id = 0) (hpos : 0 < m.time)
    (hfill : Meas.empty ∈ w) : CurValuesCache.last 0 w = some Meas.empty := by
  have hupper := h.upper m hm
  rw [hid] at hupper
  cases w with
  | nil => cases hfill
  | cons x tail =>
    have hx : x ≠ Meas.empty := by
      rintro rfl
      exact absurd hpos (not_lt.mpr hupper)
    have htail : Meas.empty ∈ tail := (List.mem_cons.mp hfill).resolve_left (Ne.symm hx)
    have hlast : CurValuesCache.last 0 tail = some Meas.empty := by
      refine CurValuesCache.last_eq ⟨_, htail, rfl⟩ fun y hy hyid => ?_
      obtain ⟨i, hi, rfl⟩ := List.getElem_of_mem hy
      rcases h.slot_cases (Nat.succ_lt_succ hi) with hempty | ⟨-, hown⟩
      · exact hempty
      · rw [List.getElem_cons_succ, hyid] at hown
        cases hown
    rw [CurValuesCache.last_cons, hlast, Option.some_or]

/-- With one, the id 0 is lost. -/
theorem Covers.filler (h : Covers ids before after w) (hpos : ∀ m, m ∈ before ++ after → 0 < m.time)
    (hl : Loads ids (before ++ after) (loaded ids w curValues)) (h0 : (0 : Id) ∈ ids) : Meas.empty ∉ w := by
  intro hfill
  obtain ⟨missing, cv, heq, hvalues, hmissing⟩ := hl
  obtain ⟨rfl, rfl⟩ := Prod.mk.inj (Except.ok.inj heq)
  have hafter : after = [] := List.eq_nil_iff_forall_not_mem.mpr fun m hm => (h.later m hm).2 h0
  subst hafter
  rw [List.append_nil] at hpos hvalues hmissing
  by_cases hzero : ∃ m, m ∈ before ∧ m.id = 0
  · obtain ⟨m, hm, hid⟩ := hzero
    obtain ⟨v, hv⟩ : ∃ v, FirstMax Meas.id Meas.time 0 before v := FirstMax.exists_of_mem hm hid
    have hvid : v.id = 0 := hv.1
    have hnewest : Newest before v := ⟨hv.mem, fun x hx hxid => hv.rank_le hx (hxid.trans hvid)⟩
    have hread := hvalues v hnewest (hvid ▸ h0)
    have hlast := last_filler h.tracks hv.mem hvid (hpos v hv.mem) hfill
    have hvalue : (curValues.writeValues w).readValue [v.id] = [Meas.empty] := by
      show [((curValues.writeValues w).values v.id).getD Meas.empty] = [Meas.empty]
      rw [hvid, CurValuesCache.values_writeValues, hlast]
      rfl
    have hempty : Meas.empty = v := List.head_eq_of_cons_eq (hvalue.symm.trans hread)
    have ht := hpos v hv.mem
    rw [← hempty] at ht
    exact absurd ht (lt_irrefl 0)
  · have hmiss := (hmissing 0).mpr ⟨h0, fun m hm hid => hzero ⟨m, hm, hid⟩⟩
    exact ((mem_missing w 0).mp hmiss).2 _ hfill rfl

/-- All is loaded if and only if the id 0 is not asked for, or there are no gaps. -/
theorem Covers.loads_iff (h : Covers ids before after w) (hi : Increasing (before ++ after))
    (hpos : ∀ m, m ∈ before ++ after → 0 < m.time) :
    Loads ids (before ++ after) (loaded ids w curValues) ↔ ((0 : Id) ∈ ids → Dense (before ++ after)) := by
  have hfill : ((0 : Id) ∈ ids → Meas.empty ∉ w) ↔ ((0 : Id) ∈ ids → Dense (before ++ after)) := by
    refine forall_congr' fun h0 => ?_
    have hafter : after = [] := List.eq_nil_iff_forall_not_mem.mpr fun m hm => (h.later m hm).2 h0
    subst hafter
    rw [List.append_nil] at hpos ⊢
    rw [h.tracks.empty_mem_iff h.bare hpos, not_not]
  rw [← hfill]
  exact ⟨fun hl => h.filler hpos hl, fun hf => h.loads hi hpos hf⟩

end
/-! ### The page -/

/-- Nothing was written, and there is no window. -/
def Bare (log : List Meas) (pm : PageManager) : Prop :=
  log = [] → ∃ p, pm.curpage = some p ∧ p.writeWindow = [] ∧ p.windowFile = none

theorem Bare.start {fsize : U64} {pm : PageManager} (h : (PageManager.start fsize).createNewPage = .ok pm) :
    Bare [] pm := by
  obtain rfl := Except.ok.inj h
  exact fun _ => ⟨_, rfl, rfl, rfl⟩

theorem Bare.kept : PageManager.Kept Bare where
  append := by
    intro log pm p op r p' h hp hrun hnil
    obtain ⟨hlog, hnone⟩ := List.append_eq_nil_iff.mp hnil
    obtain ⟨p₁, hp₁, hw, hf⟩ := h hlog
    obtain rfl := Option.some.inj (hp₁.symm.trans hp)
    obtain ⟨-, k, q, ix, hacc, -, rfl, rfl⟩ := Op.run_iff.mp hrun
    replace hnone : op.meases.take k = [] := hnone
    have hupdate := acceptAll_window hacc
    rw [hnone, hw] at hupdate
    exact ⟨_, rfl, (Except.ok.inj hupdate).symm, (acceptAll_rest hacc).2.trans hf⟩
  createNewPage := by
    intro log pm pm' h hc hnil
    obtain ⟨p, hp, hw, hf⟩ := h hnil
    obtain ⟨f, -, rfl⟩ := (PageManager.createNewPage_iff hp).mp hc
    exact ⟨_, rfl, hw, rfl⟩
  flush := by
    intro log pm p p' h hp hflush hnil
    obtain ⟨p₁, hp₁, hw, hf⟩ := h hnil
    obtain rfl := Option.some.inj (hp₁.symm.trans hp)
    obtain ⟨ix, -, hflush⟩ := bind_ok hflush
    obtain rfl := Except.ok.inj hflush
    refine ⟨_, rfl, hw, ?_⟩
    show (if p₁.writeWindow.length ≠ 0 then _ else _) = none
    rw [hw]
    exact hf

/-- The page has one of the ids in its filter. -/
def Asks (ids : List Id) (p : PageInfo) : Prop := ∃ id, id ∈ ids ∧ bloomCheck p.header.idFltr id = true

section
variable {ids : List Id} {log : List Meas} {pm pm' : PageManager} {disk : String → PageFile}
  {pages : List PageInfo} {curValues : CurValuesCache}

theorem asks_iff {p : PageInfo} : (ids.any fun id => bloomCheck p.header.idFltr id) = true ↔ Asks ids p :=
  List.any_eq_true

/-- Without such a page the front of an empty list is taken. -/
theorem loadCurValues_none (h : ∀ p, p ∈ pages → ¬ Asks ids p) :
    loadCurValues ids disk pages curValues = .error .nullReader := by
  have hnil : pages.filter (fun p => ids.any fun id => bloomCheck p.header.idFltr id) = [] :=
    List.filter_eq_nil_iff.mpr fun p hp ha => h p hp (asks_iff.mp ha)
  unfold loadCurValues
  rw [hnil]

/-- The newest such page is read. -/
theorem loadCurValues_some (disk : String → PageFile) (curValues : CurValuesCache)
    (hdesc : pages.Pairwise fun a b => b.header.maxTime ≤ a.header.maxTime) (h : ∃ p, p ∈ pages ∧ Asks ids p) :
    ∃ p, p ∈ pages ∧ Asks ids p ∧
      (∀ q, q ∈ pages → Asks ids q → q.header.maxTime ≤ p.header.maxTime) ∧
      ∀ q, openFile (disk p.name) true = .ok q →
        loadCurValues ids disk pages curValues = loaded ids q.writeWindow curValues := by
  obtain ⟨a, ha, hasks⟩ := h
  have hmem : a ∈ pages.filter fun p => ids.any fun id => bloomCheck p.header.idFltr id :=
    List.mem_filter.mpr ⟨ha, asks_iff.mpr hasks⟩
  obtain ⟨p, rest, hcons⟩ := List.exists_cons_of_ne_nil (List.ne_nil_of_mem hmem)
  have hp : p ∈ pages.filter fun p => ids.any fun id => bloomCheck p.header.idFltr id := by
    rw [hcons]
    exact List.mem_cons_self
  have hsorted := hdesc.filter fun p => ids.any fun id => bloomCheck p.header.idFltr id
  rw [hcons] at hsorted
  refine ⟨p, (List.mem_filter.mp hp).1, asks_iff.mp (List.mem_filter.mp hp).2, fun q hq hqa => ?_, fun q hq => ?_⟩
  · have hq' : q ∈ pages.filter fun p => ids.any fun id => bloomCheck p.header.idFltr id :=
      List.mem_filter.mpr ⟨hq, asks_iff.mpr hqa⟩
    rw [hcons] at hq'
    rcases List.mem_cons.mp hq' with rfl | hq'
    · exact le_rfl
    · exact (List.pairwise_cons.mp hsorted).1 q hq'
  · unfold loadCurValues
    rw [hcons]
    simp only [hq, bind, Except.bind, loadWindow_eq]
    rfl

/-- The files of a storage that was closed and opened are those it had. -/
theorem Directory.exists_file (hfiles : ((pageFiles pm').map unmarked).Perm ((pageFiles pm).map unmarked))
    (d : Directory pm') : (∀ n, n ∈ d.names → ∃ f, f ∈ pageFiles pm ∧ unmarked f = unmarked (d.disk n)) ∧
      ∀ f, f ∈ pageFiles pm → ∃ n, n ∈ d.names ∧ unmarked f = unmarked (d.disk n) := by
  have hperm := (d.files.map unmarked).trans hfiles
  refine ⟨fun n hn => ?_, fun f hf => ?_⟩
  · exact List.mem_map.mp (hperm.mem_iff.mp (List.mem_map_of_mem (List.mem_map_of_mem hn)))
  · obtain ⟨g, hg, heq⟩ := List.mem_map.mp (hperm.mem_iff.mpr (List.mem_map_of_mem hf))
    obtain ⟨n, hn, rfl⟩ := List.mem_map.mp hg
    exact ⟨n, hn, heq.symm⟩

variable {S : TimeSort} {fuel : Nat} {fsize : U64} {batches : List (List Meas)} {pm₀ : PageManager}

/-- What was written behind a page that none of the ids is looked for on has other ids. -/
theorem later_ids (hstart : (PageManager.start fsize).createNewPage = .ok pm₀)
    (hrun : PageManager.runAll S fuel (batches.map .call) pm₀ = .ok (log, pm))
    (hfiles : ((pageFiles pm').map unmarked).Perm ((pageFiles pm).map unmarked)) (d : Directory pm') {t : Time}
    (hmax : ∀ q, q ∈ d.pages → Asks ids q → q.header.maxTime ≤ t) {m : Meas} (hm : m ∈ log) (hlt : t < m.time) :
    m.id ∉ ids ∧ (0 : Id) ∉ ids := by
  obtain ⟨segs, rfl, hheads, -⟩ := headed_of_calls hstart hrun
  obtain ⟨seg, hseg, hmem⟩ := List.mem_flatten.mp hm
  obtain ⟨f, hf, hhead⟩ := exists_left hheads hseg
  obtain ⟨n, hn, hsame⟩ := (d.exists_file hfiles).2 f hf
  have hmarked := marked_of_unmarked hsame
  have hheader : summary f.header = summary (d.disk n).header := by
    rw [hmarked]
    rfl
  have hhead' := hhead.congr hheader
  have hle := ((hhead'.bounds (List.ne_nil_of_mem hmem)).le m hmem).2
  have hpage : (⟨(d.disk n).header, n⟩ : PageInfo) ∈ d.pages := List.mem_map_of_mem hn
  have hnone : ¬ Asks ids ⟨(d.disk n).header, n⟩ := fun ha =>
    absurd (hlt.trans_le hle) (not_lt.mpr (hmax _ hpage ha))
  refine ⟨fun hid => hnone ⟨m.id, hid, (hhead'.passes m hmem).id⟩, fun h0 => hnone ⟨0, h0, bloomCheck_zero _⟩⟩

/-- The window of the page that is read. -/
theorem covers_of_calls (hstart : (PageManager.start fsize).createNewPage = .ok pm₀)
    (hrun : PageManager.runAll S fuel (batches.map .call) pm₀ = .ok (log, pm)) (hi : Increasing log)
    (hfiles : ((pageFiles pm').map unmarked).Perm ((pageFiles pm).map unmarked)) (d : Directory pm') {p : PageInfo}
    (hp : p ∈ d.pages) (hmax : ∀ q, q ∈ d.pages → Asks ids q → q.header.maxTime ≤ p.header.maxTime) :
    ∃ q before after, openFile (d.disk p.name) true = .ok q ∧ log = before ++ after ∧
      Covers ids before after q.writeWindow := by
  obtain ⟨n, hn, rfl⟩ := List.mem_map.mp hp
  obtain ⟨f, hf, hsame⟩ := (d.exists_file hfiles).1 n hn
  obtain ⟨hvs, hcase⟩ := volumes_of_calls hstart hrun hi
  obtain ⟨files, later, hsplit⟩ := List.append_of_mem hf
  rw [hsplit] at hvs
  obtain ⟨before, seg, after, rfl, hvs', hsaved, -⟩ := hvs.split
  obtain ⟨q, hq, hv⟩ := id hsaved
  obtain ⟨hdr, hopen, -⟩ := openFile_unmarked hsame hq
  refine ⟨_, before ++ seg, after, hopen, (List.append_assoc ..).symm, hv.tracks, fun hnil => ?_, fun m hm => ?_⟩
  · rcases hcase with ⟨hlog, g, hg, -⟩ | ⟨-, hpos⟩
    -- nothing was written, on the only page
    · have hbare := Bare.kept.runAll (Bare.start hstart) hrun
      obtain ⟨c, hc, hw, hwf⟩ := hbare hlog
      have hcur : onDisk c ∈ pageFiles pm := by
        rw [pageFiles_some hc]
        exact List.mem_append_right _ List.mem_cons_self
      rw [hg] at hcur hf
      rw [List.mem_singleton.mp hf, ← List.mem_singleton.mp hcur] at hq
      obtain ⟨-, -, w, hload, rfl⟩ := openFile_iff.mp hq
      rw [show (onDisk c).windowFile = none from hwf] at hload
      exact (Except.ok.inj hload).symm
    · obtain ⟨hne, -⟩ := hsaved.bounds (hpos f hf)
      exact absurd (List.append_eq_nil_iff.mp hnil).2 hne
  · rcases hcase with ⟨hlog, -⟩ | ⟨-, hpos⟩
    · rw [← List.append_assoc] at hlog
      rw [(List.append_eq_nil_iff.mp hlog).2] at hm
      cases hm
    · obtain ⟨hne, hb⟩ := hsaved.bounds (hpos f hf)
      obtain ⟨b, hb', hbmax⟩ := hb.maxMem
      have hlt : b.time < m.time := (List.pairwise_append.mp (List.pairwise_append.mp hi).2.1).2.2 b hb' m hm
      have hheader : (d.disk n).header.maxTime = f.header.maxTime := by
        rw [marked_of_unmarked hsame]
      refine later_ids hstart hrun hfiles d hmax (List.mem_append_right _ (List.mem_append_right _ hm)) ?_
      show (d.disk n).header.maxTime < m.time
      rw [hheader, ← hbmax]
      exact hlt

end

/-- After batches in the order of the times, and after closing and opening in whatever order the page
files are listed: `loadCurValues` loads the newest of each id that was written and names the others if
and only if a page has one of the ids in its filter, and with the id 0 asked for no id below one that
was written was left out. -/
theorem loadCurValues_iff (S : TimeSort) (fuel : Nat) (pageSize : U64) (batches : List (List Meas)) (log : List Meas)
    (pm₀ pm : PageManager) (hstart : (PageManager.start pageSize).createNewPage = .ok pm₀)
    (hrun : PageManager.runAll S fuel (batches.map .call) pm₀ = .ok (log, pm)) (hi : Increasing log)
    (hpos : ∀ m, m ∈ log → 0 < m.time) :
    ∃ closed, pm.closeCurrentPage = .ok closed ∧ ∀ listing, listing.Perm (named closed.files) →
      ∃ pm', openPages listing = .ok pm' ∧ ∀ (d : Directory pm') (ids : List Id) (curValues : CurValuesCache),
        (Loads ids log (loadCurValues ids d.disk d.pagesByTime curValues) ↔
          (∃ p, p ∈ d.pages ∧ Asks ids p) ∧ ((0 : Id) ∈ ids → Dense log)) := by
  obtain ⟨closed, hclose, hopens⟩ := reopens_of_calls hstart hrun
  refine ⟨closed, hclose, fun listing hlist => ?_⟩
  obtain ⟨pm', hopen⟩ := hopens listing hlist
  refine ⟨pm', hopen, fun d ids curValues => ?_⟩
  obtain ⟨c, hc, -⟩ := cache_of_calls (by obtain rfl := Except.ok.inj hstart; exact ⟨_, rfl, rfl⟩) hrun
  have hfiles := reopened_files hc (((Resting.start hstart).calls hrun).flushed c hc) hclose hlist hopen
  by_cases hsome : ∃ p, p ∈ d.pages ∧ Asks ids p
  · have hdesc : d.pagesByTime.Pairwise fun a b => b.header.maxTime ≤ a.header.maxTime :=
      List.pairwise_reverse.mpr d.pages_ascending
    have hrev : ∀ p, p ∈ d.pagesByTime ↔ p ∈ d.pages := fun p => List.mem_reverse
    obtain ⟨p, hp, -, hmax, hread⟩ := loadCurValues_some d.disk curValues hdesc
      (by obtain ⟨p, hp, ha⟩ := hsome; exact ⟨p, (hrev p).mpr hp, ha⟩)
    obtain ⟨q, before, after, hq, rfl, hcovers⟩ := covers_of_calls hstart hrun hi hfiles d ((hrev p).mp hp)
      fun q hq => hmax q ((hrev q).mpr hq)
    rw [hread q hq, hcovers.loads_iff hi hpos]
    exact ⟨fun h => ⟨hsome, h⟩, fun h => h.2⟩
  · have hnone : ∀ p, p ∈ d.pagesByTime → ¬ Asks ids p := fun p hp ha => hsome ⟨p, List.mem_reverse.mp hp, ha⟩
    rw [loadCurValues_none hnone]
    refine iff_of_false ?_ fun h => hsome h.1
    rintro ⟨missing, cv, heq, -⟩
    cases heq

/-- A storage that is written to, closed and opened. -/
def reopened (pageSize : U64) (batches : List (List Meas)) :
    Except Fault (List Meas × PageManager × PageManager) := do
  let (log, pm) ← PageManager.runAll TimeSort.insertion 4 (batches.map .call)
    {PageManager.start pageSize with curpage := some (Page.create pageSize)}
  let closed ← pm.closeCurrentPage
  return (log, pm, closed)

theorem reopened_ok {pageSize : U64} {batches : List (List Meas)} {log : List Meas} {pm closed : PageManager}
    (h : reopened pageSize batches = .ok (log, pm, closed)) :
    PageManager.runAll TimeSort.insertion 4 (batches.map .call)
      {PageManager.start pageSize with curpage := some (Page.create pageSize)} = .ok (log, pm) ∧
    pm.closeCurrentPage = .ok closed := by
  obtain ⟨⟨log', pm'⟩, hrun, h⟩ := bind_ok h
  obtain ⟨closed', hclose, h⟩ := bind_ok h
  obtain ⟨rfl, hpages⟩ := Prod.mk.inj (Except.ok.inj h)
  obtain ⟨rfl, rfl⟩ := Prod.mk.inj hpages
  exact ⟨hrun, hclose⟩

/-- The ids 1 and 3 on a page each: asked for 1 and 2, the one is loaded and the other named. -/
theorem loadCurValues_iff_two : ∃ log pm closed pm',
    PageManager.runAll TimeSort.insertion 4 ([[.plain 1 5, .plain 3 6]].map .call)
      {PageManager.start (calcSize 1) with curpage := some (create (calcSize 1))} = .ok (log, pm) ∧
    pm.closeCurrentPage = .ok closed ∧ openPages (named closed.files) = .ok pm' ∧ log.length = 2 ∧
    ∀ (d : Directory pm') curValues, Loads [1, 2] log (loadCurValues [1, 2] d.disk d.pagesByTime curValues) := by
  obtain ⟨⟨log, pm, closed⟩, hx, hok⟩ := exists_ok
    (x := reopened (calcSize 1) [[.plain 1 5, .plain 3 6]])
    (p := fun x => decide (x.1.length = 2 ∧ x.1.Pairwise (fun a b : Meas => a.time < b.time) ∧
        ∀ m, m ∈ x.1 → 0 < m.time) &&
      (openPages (named x.2.2.files)).toOption.any fun pm' => decide (pageFiles pm' ≠ [] ∧
        ∀ f, f ∈ pageFiles pm' → bloomCheck f.header.idFltr 1 = true))
    (by decide +kernel)
  obtain ⟨hrun, hclose⟩ := reopened_ok hx
  obtain ⟨hlog, hpages⟩ := Bool.and_eq_true_iff.mp hok
  obtain ⟨hlen, hi, hpos⟩ := of_decide_eq_true hlog
  obtain ⟨pm', hopen, hask⟩ := (Option.any_eq_true _ _).mp hpages
  have hopen := toOption_eq_some.mp hopen
  obtain ⟨hne, hask⟩ := of_decide_eq_true hask
  refine ⟨log, pm, closed, pm', hrun, hclose, hopen, hlen, fun d curValues => ?_⟩
  obtain ⟨closed', hclose', hall⟩ := loadCurValues_iff TimeSort.insertion 4 (calcSize 1) [[.plain 1 5, .plain 3 6]]
    log _ pm rfl hrun hi hpos
  obtain rfl := Except.ok.inj (hclose.symm.trans hclose')
  obtain ⟨pm'', hopen', hiff⟩ := hall _ (.refl _)
  obtain rfl := Except.ok.inj (hopen.symm.trans hopen')
  obtain ⟨f, hf⟩ := List.exists_mem_of_ne_nil _ hne
  obtain ⟨n, hn, rfl⟩ := List.mem_map.mp (d.files.mem_iff.mpr hf)
  exact (hiff d [1, 2] curValues).mpr
    ⟨⟨_, List.mem_map_of_mem hn, 1, List.mem_cons_self, hask _ hf⟩, fun h0 => absurd h0 (by decide)⟩

/-- One measurement of the id 1. Asked for 2, which no page has in its filter, the front of an empty list
is taken. -/
theorem loadCurValues_front : ∃ log pm closed pm',
    PageManager.runAll TimeSort.insertion 4 ([[.plain 1 5]].map .call)
      {PageManager.start (calcSize 1) with curpage := some (create (calcSize 1))} = .ok (log, pm) ∧
    pm.closeCurrentPage = .ok closed ∧ openPages (named closed.files) = .ok pm' ∧ log = [.plain 1 5] ∧
    ∀ (d : Directory pm') curValues, loadCurValues [2] d.disk d.pagesByTime curValues = .error .nullReader ∧
      ¬ Loads [2] log (loadCurValues [2] d.disk d.pagesByTime curValues) := by
  obtain ⟨⟨log, pm, closed⟩, hx, hok⟩ := exists_ok
    (x := reopened (calcSize 1) [[.plain 1 5]])
    (p := fun x => decide (x.1 = [.plain 1 5]) && (openPages (named x.2.2.files)).toOption.any fun pm' =>
      decide (∀ f, f ∈ pageFiles pm' → bloomCheck f.header.idFltr 2 = false))
    (by decide +kernel)
  obtain ⟨hrun, hclose⟩ := reopened_ok hx
  obtain ⟨hlog, hpages⟩ := Bool.and_eq_true_iff.mp hok
  obtain ⟨pm', hopen, hask⟩ := (Option.any_eq_true _ _).mp hpages
  have hopen := toOption_eq_some.mp hopen
  replace hask := of_decide_eq_true hask
  refine ⟨log, pm, closed, pm', hrun, hclose, hopen, of_decide_eq_true hlog, fun d curValues => ?_⟩
  have hnone : loadCurValues [2] d.disk d.pagesByTime curValues = .error .nullReader := by
    refine loadCurValues_none fun p hp ⟨id, hid, hbloom⟩ => ?_
    obtain ⟨n, hn, rfl⟩ := List.mem_map.mp (List.mem_reverse.mp hp)
    obtain rfl := List.mem_singleton.mp hid
    have hfalse := hask _ (d.files.mem_iff.mp (List.mem_map_of_mem hn))
    exact Bool.false_ne_true (hfalse.symm.trans hbloom)
  refine ⟨hnone, ?_⟩
  rw [hnone]
  rintro ⟨missing, cv, heq, -⟩
  cases heq

end Nkvdb.Storage
