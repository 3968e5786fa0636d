import Nkvdb.Storage.Reopening

/-! Storages whose process ends without `Close`.

The pages are mapped files, and each batch flushes the window and the index of the current one. So between
batches and queries the files hold all that was written, and opening the storage gives every query the answer it
would have had. What may be in the way is the mark of the page that was current: `Storage::Open` throws where it
picks a page that has it. A query that reads the page clears it when it is done, since `Page::close` does not
ask who else has the page open. -/
namespace Nkvdb.Storage
open Page

/-- The file after a query has opened it and closed it again. -/
def Viewed (f f' : PageFile) : Prop := ∃ q, openFile f true = .ok q ∧ q.close = .ok f'

/-- The page that the storage has open, with what was done to its files. -/
def remapped (p : Page) (f : PageFile) : Page :=
  {p with
    header := f.header
    rawData := f.rawData
    index := {p.index with tree := f.indexFile}
    windowFile := f.windowFile}

/-- The page files when the process has ended, with `Close` or without. -/
inductive Stopped : PageManager → List PageFile → Prop
  | closed {pm closed : PageManager} : pm.closeCurrentPage = .ok closed → Stopped pm closed.files
  | killed {pm : PageManager} : Stopped pm (pageFiles pm)

/-- What was written to the storages that `Create` with this page size, batches, queries, and ends of the process
and `Open` lead to. -/
inductive Survived (S : TimeSort) (fsize : U64) : List Meas → PageManager → Prop
  | create {pm : PageManager} : (PageManager.start fsize).createNewPage = .ok pm → Survived S fsize [] pm
  | call {log data new : List Meas} {fuel : Nat} {pm pm' : PageManager} : Survived S fsize log pm →
      AsyncWriter.call S fuel data pm = .ok (new, pm') → Survived S fsize (log ++ new) pm'
  | view {log : List Meas} {pm : PageManager} {p : Page} {f : PageFile} : Survived S fsize log pm →
      pm.curpage = some p → Viewed (onDisk p) f → Survived S fsize log {pm with curpage := some (remapped p f)}
  | viewFile {log : List Meas} {pm : PageManager} {a b : List PageFile} {f f' : PageFile} : Survived S fsize log pm →
      pm.files = a ++ f :: b → Viewed f f' → Survived S fsize log {pm with files := a ++ f' :: b}
  | restart {log : List Meas} {pm pm' : PageManager} {files : List PageFile} {listing : List (Nat × PageFile)} :
      Survived S fsize log pm → Stopped pm files → listing.Perm (named files) → openPages listing = .ok pm' →
      Survived S fsize log pm'

/-! ### Marks -/

section
variable {f f' g : PageFile} {p q : Page} {pm pm' : PageManager}

theorem Shelf.unmarked (h : Shelf f) (he : unmarked f = unmarked g) : Shelf g := by
  obtain ⟨q, hopen, hproper, hflushed⟩ := h
  obtain ⟨hdr, hopen', hm⟩ := openFile_unmarked he hopen
  exact ⟨_, hopen', hproper.marked hm, hflushed.cache, hflushed.window⟩

/-- A query leaves the file as it was but for the marks. -/
theorem Viewed.unmarked (h : Viewed f f') (hs : Shelf f) : unmarked f' = unmarked f := by
  obtain ⟨q, hq, hc⟩ := h
  obtain ⟨q', hq', -, hflushed⟩ := hs
  obtain rfl := Except.ok.inj (hq.symm.trans hq')
  rw [unmarked_close hflushed hc]
  obtain ⟨-, -, w, -, rfl⟩ := openFile_iff.mp hq
  rfl

/-- And nobody has it open then, as far as it says. -/
theorem Viewed.tidy (h : Viewed f f') (hs : Shelf f) : Tidy f' ∧ f'.header.isOpen = false := by
  obtain ⟨q, hq, hc⟩ := h
  obtain ⟨q', hq', hproper, -⟩ := hs
  obtain rfl := Except.ok.inj (hq.symm.trans hq')
  obtain ⟨ix, -, rfl⟩ := close_iff.mp hc
  exact ⟨⟨rfl, hproper.toReopens.windowFile.symm⟩, rfl⟩

/-- Of the page that the storage has open it changes the marks. -/
theorem Viewed.remapped (h : Viewed (onDisk p) f) (hproper : Proper p) (hf : Flushed p) :
    remapped p f = {p with header := f.header} ∧ Marked p.header f.header := by
  have hu := h.unmarked (hproper.onDisk hf)
  have hraw := congrArg PageFile.rawData hu
  have hindex := congrArg PageFile.indexFile hu
  have hwindow := congrArg PageFile.windowFile hu
  simp only [Storage.unmarked, Storage.onDisk] at hraw hindex hwindow
  unfold Storage.remapped
  rw [hraw, hindex, hwindow]
  exact ⟨rfl, marked_of_unmarked hu.symm⟩

end

/-! ### What an end leaves -/

/-- Whole, and read by nobody. -/
structure Intact (pm : PageManager) : Prop extends Orderly pm where
  tidy : ∀ f, f ∈ pageFiles pm → Tidy f

section
variable {S : TimeSort} {fsize : U64} {log : List Meas} {pm pm' : PageManager} {files : List PageFile}
  {listing : List (Nat × PageFile)}

theorem Stopped.unmarked (hs : Stopped pm files) (h : Intact pm) :
    files.map unmarked = (pageFiles pm).map unmarked := by
  obtain ⟨p, hp, -, hflushed⟩ := h.cur
  cases hs with
  | closed hc => exact closed_files hp hflushed hc
  | killed => rfl

/-- Each file is one of the storage's but for the marks. -/
theorem Stopped.mem (hs : Stopped pm files) (h : Intact pm) {g : PageFile} (hg : g ∈ files) :
    ∃ f, f ∈ pageFiles pm ∧ Storage.unmarked f = Storage.unmarked g := by
  have hmem := List.mem_map_of_mem (f := Storage.unmarked) hg
  rw [hs.unmarked h] at hmem
  exact List.mem_map.mp hmem

/-- Opened, the storage has the files it had but for the marks. -/
theorem Stopped.opened (hs : Stopped pm files) (h : Intact pm) (hlist : listing.Perm (named files))
    (hopen : openPages listing = .ok pm') :
    ((pageFiles pm').map Storage.unmarked).Perm ((pageFiles pm).map Storage.unmarked) := by
  have hopened := opened_files ((hlist.map Prod.fst).nodup_iff.mpr (nodup_named _)) hopen
  have hperm := (hlist.map Prod.snd).map Storage.unmarked
  rw [map_snd_named, hs.unmarked h] at hperm
  exact hopened.trans hperm

theorem Stopped.shelf (hs : Stopped pm files) (h : Intact pm) {g : PageFile} (hg : g ∈ files) : Shelf g := by
  obtain ⟨f, hf, he⟩ := hs.mem h hg
  exact (h.toOrderly.pages hf).1.unmarked he

theorem Stopped.tidy (hs : Stopped pm files) (h : Intact pm) {g : PageFile} (hg : g ∈ files) : Tidy g := by
  cases hs with
  | killed => exact h.tidy g hg
  | closed hc =>
    obtain ⟨p, hp, hproper, hflushed⟩ := h.cur
    have hcur : Tidy (onDisk p) := by
      refine h.tidy _ ?_
      rw [pageFiles_some hp]
      exact List.mem_append_right _ List.mem_cons_self
    obtain ⟨f, hf, hclosed⟩ := closes hp hflushed.cache
    obtain rfl := Except.ok.inj (hclosed.symm.trans hc)
    rcases List.mem_append.mp hg with hg | hg
    · refine h.tidy g ?_
      rw [pageFiles_some hp]
      exact List.mem_append_left _ hg
    · rw [List.mem_singleton.mp hg]
      have hattended : Attended p := ⟨hproper.toReopens, hcur.readers⟩
      exact (hattended.close hf).1

/-- A page that is empty is the only one. -/
theorem Stopped.alone (hs : Stopped pm files) (h : Intact pm) {g : PageFile} (hg : g ∈ files)
    (hzero : g.header.writePos = 0) : files.length = 1 := by
  obtain ⟨f, hf, he⟩ := hs.mem h hg
  obtain ⟨p, hp, -, -⟩ := h.cur
  have hpos : f.header.writePos = g.header.writePos := by
    have hm := marked_of_unmarked he
    unfold Marked at hm
    rw [hm]
  have hlen := congrArg List.length (hs.unmarked h)
  rw [List.length_map, List.length_map, length_pageFiles hp] at hlen
  rw [pageFiles_some hp] at hf
  rcases List.mem_append.mp hf with hf | hf
  · exact absurd (hpos.trans hzero) (h.files f hf).2
  · rw [List.mem_singleton.mp hf] at hpos
    rw [hlen, h.first p hp (hpos.trans hzero)]
    rfl

/-- A page is picked, and `Open` does with the storage what it does with that page. -/
theorem exists_picked {ν : Type} [DecidableEq ν] {listing : List (ν × PageFile)} (hne : listing ≠ []) :
    ∃ x, x ∈ listing ∧ getOldesPage (listing.map fun x => (x.1, x.2.header)) = some x.1 ∧
      openPages listing = (openFile x.2 false).map fun p =>
        ⟨0, some p, (listing.filter fun y => y.1 ≠ x.1).map Prod.snd⟩ := by
  have hheaders : listing.map (fun x => (x.1, x.2.header)) ≠ [] := fun h => hne (List.map_eq_nil_iff.mp h)
  obtain ⟨page, hpage, hname⟩ := getOldesPage_mem hheaders
  obtain ⟨x, hx, rfl⟩ := List.mem_map.mp hpage
  have hfind : (listing.find? fun y => y.1 = x.1).isSome = true :=
    List.find?_isSome.mpr ⟨x, hx, decide_eq_true rfl⟩
  obtain ⟨y, hy⟩ := Option.isSome_iff_exists.mp hfind
  have hyx : y.1 = x.1 := by simpa using List.find?_some hy
  refine ⟨y, List.mem_of_find?_eq_some hy, hyx ▸ hname, ?_⟩
  simp only [openPages, hname, hy, hyx, orFault, bind, Except.bind]
  cases openFile y.2 false <;> rfl

/-- Files that can be read open unless the page that is picked has the mark. -/
theorem opens_iff {ν : Type} [DecidableEq ν] {listing : List (ν × PageFile)} (hne : listing ≠ [])
    (hnames : (listing.map Prod.fst).Nodup) (hread : ∀ x, x ∈ listing → ∃ q, openFile x.2 true = .ok q) :
    (∃ pm', openPages listing = .ok pm') ↔ ∀ x, x ∈ listing →
      getOldesPage (listing.map fun x => (x.1, x.2.header)) = some x.1 → x.2.header.isOpen = false := by
  constructor
  · rintro ⟨pm', hopen⟩ x hx hpick
    obtain ⟨name, y, p, hname, hy, hp, -⟩ := openPages_ok.mp hopen
    obtain rfl := Option.some.inj (hname.symm.trans hpick)
    have hsame : y = x :=
      List.inj_on_of_nodup_map hnames (List.mem_of_find?_eq_some hy) hx (by simpa using List.find?_some hy)
    rw [← hsame]
    exact (openFile_iff.mp hp).1 rfl
  · intro hpick
    obtain ⟨x, hx, hname, hopen⟩ := exists_picked hne
    obtain ⟨q, hq⟩ := hread x hx
    obtain ⟨-, hversion, w, hw, -⟩ := openFile_iff.mp hq
    obtain ⟨p, hp⟩ : ∃ p, openFile x.2 false = .ok p :=
      ⟨_, openFile_iff.mpr ⟨fun _ => hpick x hx hname, hversion, w, hw, rfl⟩⟩
    rw [hopen, hp]
    exact ⟨_, rfl⟩

/-- It throws where that page has it. -/
theorem openPages_marked {ν : Type} [DecidableEq ν] {listing : List (ν × PageFile)}
    (hnames : (listing.map Prod.fst).Nodup) {x : ν × PageFile} (hx : x ∈ listing)
    (hpick : getOldesPage (listing.map fun x => (x.1, x.2.header)) = some x.1) (hopen : x.2.header.isOpen = true) :
    openPages listing = .error .alreadyOpenned := by
  obtain ⟨y, hy, hname, he⟩ := exists_picked (List.ne_nil_of_mem hx)
  obtain rfl := List.inj_on_of_nodup_map hnames hy hx (Option.some.inj (hname.symm.trans hpick))
  have hthrow : openFile y.2 false = .error .alreadyOpenned := if_pos ⟨rfl, hopen⟩
  rw [he, hthrow]
  rfl

theorem named_ne_nil (hlist : listing.Perm (named files)) (hne : files ≠ []) : listing ≠ [] := by
  rintro rfl
  have hlen := hlist.length_eq
  rw [named, List.length_mapIdx] at hlen
  exact hne (List.eq_nil_of_length_eq_zero hlen.symm)

/-- What it leaves opens unless the page that is picked has the mark. -/
theorem Stopped.opens_iff (hs : Stopped pm files) (h : Intact pm) (hlist : listing.Perm (named files)) :
    (∃ pm', openPages listing = .ok pm') ↔ ∀ x, x ∈ listing →
      getOldesPage (listing.map fun x => (x.1, x.2.header)) = some x.1 → x.2.header.isOpen = false := by
  have hne : files ≠ [] := by
    obtain ⟨p, hp, -⟩ := h.cur
    have hlen := congrArg List.length (hs.unmarked h)
    rw [List.length_map, List.length_map, length_pageFiles hp] at hlen
    exact List.ne_nil_of_length_pos (hlen ▸ Nat.succ_pos _)
  refine Storage.opens_iff (named_ne_nil hlist hne) ((hlist.map Prod.fst).nodup_iff.mpr (nodup_named _)) fun x hx => ?_
  obtain ⟨q, hq, -⟩ := hs.shelf h (mem_listing hlist hx)
  exact ⟨q, hq⟩

/-! ### Runs -/

namespace Intact

theorem create {pageSize : U64} (h : (PageManager.start pageSize).createNewPage = .ok pm) : Intact pm := by
  refine ⟨Orderly.create h, fun f hf => ?_⟩
  obtain rfl := Except.ok.inj h
  rw [List.mem_singleton.mp hf]
  exact ⟨rfl, rfl⟩

theorem cur_tidy (h : Intact pm) {p : Page} (hp : pm.curpage = some p) : Tidy (onDisk p) := by
  refine h.tidy _ ?_
  rw [pageFiles_some hp]
  exact List.mem_append_right _ List.mem_cons_self

theorem file_tidy (h : Intact pm) {f : PageFile} (hf : f ∈ pm.files) : Tidy f :=
  h.tidy f (List.mem_append_left _ hf)

theorem call {fuel : Nat} {data new : List Meas} (h : Intact pm)
    (hc : AsyncWriter.call S fuel data pm = .ok (new, pm')) : Intact pm' := by
  refine ⟨h.toOrderly.call hc, fun f hf => ?_⟩
  obtain ⟨p, hp, hproper, -⟩ := h.cur
  have htended : Tended (fun _ => True) [] pm :=
    ⟨⟨p, hp, hproper.toReopens, (h.cur_tidy hp).readers⟩, fun f hf => ⟨h.file_tidy hf, trivial⟩⟩
  obtain ⟨q, hq, ⟨htidy, -⟩, hfiles⟩ := htended.call (fun _ _ => trivial) hc
  rw [pageFiles_some hq] at hf
  rcases List.mem_append.mp hf with hf | hf
  · exact (hfiles f hf).1
  · rwa [List.mem_singleton.mp hf]

/-- A query of the current page. -/
theorem view (h : Intact pm) {p : Page} {f : PageFile} (hp : pm.curpage = some p) (hv : Viewed (onDisk p) f) :
    Intact {pm with curpage := some (remapped p f)} := by
  obtain ⟨p₁, hp₁, hproper, hflushed⟩ := h.cur
  obtain rfl := Option.some.inj (hp.symm.trans hp₁)
  obtain ⟨hsame, hm⟩ := hv.remapped hproper hflushed
  have hpos : f.header.writePos = p.header.writePos := by
    unfold Marked at hm
    rw [hm]
  refine ⟨⟨⟨_, rfl, ?_, ?_⟩, h.files, fun q hq hzero => ?_, ?_⟩, fun g hg => ?_⟩
  · rw [hsame]
    exact hproper.marked hm
  · rw [hsame]
    exact ⟨hflushed.cache, hflushed.window⟩
  · obtain rfl := Option.some.inj hq
    exact h.first p hp (hpos.symm.trans hzero)
  · refine h.size.imp_right fun hbegun => ⟨rfl, ?_, hbegun.files⟩
    obtain ⟨p₂, log, hp₂, ha⟩ := hbegun.cur
    obtain rfl := Option.some.inj (hp.symm.trans hp₂)
    refine ⟨_, log, rfl, ?_⟩
    rw [hsame]
    unfold Marked at hm
    rw [hm]
    exact ⟨ha.size, ha.writePos, ha.writeValuePos, ha.records⟩
  · have hg : g ∈ pm.files ++ [f] := hg
    rcases List.mem_append.mp hg with hg | hg
    · exact h.file_tidy hg
    · rw [List.mem_singleton.mp hg]
      exact (hv.tidy (hproper.onDisk hflushed)).1

/-- A query of another page. -/
theorem viewFile (h : Intact pm) {a b : List PageFile} {f f' : PageFile} (hfiles : pm.files = a ++ f :: b)
    (hv : Viewed f f') : Intact {pm with files := a ++ f' :: b} := by
  have hmem : f ∈ pm.files := by
    rw [hfiles]
    exact List.mem_append_right _ List.mem_cons_self
  obtain ⟨hshelf, hpos⟩ := h.files f hmem
  have hu := hv.unmarked hshelf
  have hpos' : f'.header.writePos ≠ 0 := by
    have hm := marked_of_unmarked hu.symm
    unfold Marked at hm
    rw [hm]
    exact hpos
  -- what holds of the other files and of the one that was read
  have hall : ∀ {P : PageFile → Prop}, (∀ g, g ∈ pm.files → P g) → P f' → ∀ g, g ∈ a ++ f' :: b → P g := by
    intro P hold hnew g hg
    rcases List.mem_append.mp hg with hg | hg
    · exact hold g (by rw [hfiles]; exact List.mem_append_left _ hg)
    · rcases List.mem_cons.mp hg with rfl | hg
      · exact hnew
      · exact hold g (by rw [hfiles]; exact List.mem_append_right _ (List.mem_cons_of_mem _ hg))
  refine ⟨⟨h.cur, hall h.files ⟨hshelf.unmarked hu.symm, hpos'⟩, fun p hp hzero => ?_, ?_⟩, fun g hg => ?_⟩
  · have hnil := h.first p hp hzero
    rw [hfiles] at hnil
    exact absurd hnil (List.append_ne_nil_of_right_ne_nil _ (List.cons_ne_nil _ _))
  · exact h.size.imp_right fun hbegun => ⟨rfl, hbegun.cur, hall hbegun.files hpos'⟩
  · rcases List.mem_append.mp hg with hg | hg
    · exact hall (fun g hg => h.file_tidy hg) (hv.tidy hshelf).1 g hg
    · exact h.tidy g (List.mem_append_right _ hg)

/-- An end of the process, and `Open`. -/
theorem restart (h : Intact pm) (hs : Stopped pm files) (hlist : listing.Perm (named files))
    (hopen : openPages listing = .ok pm') : Intact pm' := by
  obtain ⟨h0, ⟨x, p, hx, hp, hopenx⟩, hrest⟩ := openPages_iff hopen
  have hnames : (listing.map Prod.fst).Nodup := (hlist.map Prod.fst).nodup_iff.mpr (nodup_named _)
  have halone : ∀ y, y ∈ listing → y.2.header.writePos = 0 → pm'.files = [] := by
    intro y hy hzero
    have hone := hs.alone h (mem_listing hlist hy) hzero
    have hlen := (opened_files hnames hopen).length_eq
    rw [List.length_map, List.length_map, List.length_map, length_pageFiles hp, hlist.length_eq, named,
      List.length_mapIdx, hone] at hlen
    exact List.eq_nil_of_length_eq_zero (Nat.succ.inj hlen)
  refine ⟨⟨⟨p, hp, (hs.shelf h (mem_listing hlist hx)).opened hopenx⟩, fun g hg => ?_, fun q hq hzero => ?_, .inl h0⟩,
    fun g hg => ?_⟩
  · obtain ⟨y, hy, rfl⟩ := hrest g hg
    refine ⟨hs.shelf h (mem_listing hlist hy), fun hzero => ?_⟩
    rw [halone y hy hzero] at hg
    cases hg
  · obtain rfl := Option.some.inj (hp.symm.trans hq)
    exact halone x hx ((openFile_header hopenx).2.2.1.symm.trans hzero)
  · rw [pageFiles_some hp] at hg
    rcases List.mem_append.mp hg with hg | hg
    · obtain ⟨y, hy, rfl⟩ := hrest g hg
      exact hs.tidy h (mem_listing hlist hy)
    · rw [List.mem_singleton.mp hg]
      exact ((hs.tidy h (mem_listing hlist hx)).openFile hopenx).1

end Intact

theorem Survived.intact (h : Survived S fsize log pm) : Intact pm := by
  induction h with
  | create h => exact .create h
  | call _ hc ih => exact ih.call hc
  | view _ hp hv ih => exact ih.view hp hv
  | viewFile _ hfiles hv ih => exact ih.viewFile hfiles hv
  | restart _ hs hlist hopen ih => exact ih.restart hs hlist hopen

theorem Stopped.whole (hs : Stopped pm files) (h : Intact pm) (hwhole : IndexesWhole pm) :
    ∀ f, f ∈ files → f.IndexWhole :=
  whole_of_unmarked (hs.unmarked h) hwhole

end

/-! ### One that was written in the order of the times -/

/-- A storage since `Create`, with what was written to it and whether a query has read the current page. -/
inductive Session (S : TimeSort) (fsize : U64) : Bool → List Meas → PageManager → Prop
  | create {pm : PageManager} : (PageManager.start fsize).createNewPage = .ok pm → Session S fsize false [] pm
  | call {seen : Bool} {log data new : List Meas} {fuel : Nat} {pm pm' : PageManager} : Session S fsize seen log pm →
      AsyncWriter.call S fuel data pm = .ok (new, pm') →
      Session S fsize (seen && decide (pm'.files.length = pm.files.length)) (log ++ new) pm'
  | view {seen : Bool} {log : List Meas} {pm : PageManager} {p : Page} {f : PageFile} : Session S fsize seen log pm →
      pm.curpage = some p → Viewed (onDisk p) f → Session S fsize true log {pm with curpage := some (remapped p f)}
  | viewFile {seen : Bool} {log : List Meas} {pm : PageManager} {a b : List PageFile} {f f' : PageFile} :
      Session S fsize seen log pm → pm.files = a ++ f :: b → Viewed f f' →
      Session S fsize seen log {pm with files := a ++ f' :: b}

/-- The mark of the current page, which a new page has: `n` pages were closed before, and `b` was the mark then. -/
def MarkedSince (n : Nat) (b : Bool) (_ : List Meas) (pm : PageManager) : Prop :=
  n ≤ pm.files.length ∧ ∃ p, pm.curpage = some p ∧ p.header.isOpen = (b || decide (pm.files.length ≠ n))

theorem MarkedSince.kept (n : Nat) (b : Bool) : PageManager.Kept (MarkedSince n b) where
  append := by
    intro log pm p op r p' h hp hrun
    obtain ⟨hn, p₁, hp₁, hopen⟩ := h
    obtain rfl := Option.some.inj (hp₁.symm.trans hp)
    refine ⟨hn, p', rfl, ?_⟩
    obtain ⟨-, k, q, ix, hacc, -, -, rfl⟩ := Op.run_iff.mp hrun
    obtain ⟨init, lo, hi, he⟩ := op.minMax_eq k q.header
    show (op.minMax k q.header).isOpen = _
    rw [he]
    exact acceptAll_keeps (P := fun q => q.header.isOpen = (b || decide (pm.files.length ≠ n))) (fun _ _ _ _ hp => hp)
      hacc hopen
  createNewPage := by
    intro log pm pm' h hc
    obtain ⟨hn, p, hp, -⟩ := h
    obtain ⟨f, -, rfl⟩ := (PageManager.createNewPage_iff hp).mp hc
    have hlen : (pm.files ++ [f]).length = pm.files.length + 1 := List.length_append
    refine ⟨?_, _, rfl, ?_⟩
    · rw [hlen]
      omega
    · have hne : (pm.files ++ [f]).length ≠ n := by omega
      show true = _
      rw [decide_eq_true hne, Bool.or_true]
  flush := by
    intro log pm p p' h hp hf
    obtain ⟨hn, p₁, hp₁, hopen⟩ := h
    obtain rfl := Option.some.inj (hp₁.symm.trans hp)
    obtain ⟨ix, -, rfl⟩ := Page.flushIndex_iff.mp hf
    exact ⟨hn, _, rfl, hopen⟩

section
variable {S : TimeSort} {fsize : U64} {seen : Bool} {before log : List Meas} {pm : PageManager} {p : Page}
  {f f' : PageFile} {hdr : Header}

/-- Marks change nothing. -/
theorem Volume.marked (h : Volume fsize before log p) (hm : Marked p.header hdr) :
    Volume fsize before log {p with header := hdr} := by
  obtain ⟨recs, ha, hl, hp, hc⟩ := h.posted
  unfold Marked at hm
  rw [hm]
  exact ⟨⟨recs, ⟨ha.size, ha.writePos, ha.writeValuePos, ha.records⟩, hl, hp, hc⟩, h.stored,
    ⟨h.timed.init, fun hne => ⟨(h.timed.bounds hne).minMem, (h.timed.bounds hne).maxMem, (h.timed.bounds hne).le⟩⟩,
    h.blank, h.tracks, h.version, h.file⟩

theorem Saved.unmarked (h : Saved fsize before log f) (he : unmarked f = unmarked f') : Saved fsize before log f' := by
  obtain ⟨p, hopen, hv⟩ := h
  obtain ⟨hdr, hopen', hm⟩ := openFile_unmarked he hopen
  exact ⟨_, hopen', hv.marked hm⟩

/-- One of the files may be taken for another with other marks. -/
theorem Volumes.replace {a b : List PageFile} (h : Volumes fsize log (a ++ f :: b)) (he : unmarked f = unmarked f') :
    Volumes fsize log (a ++ f' :: b) := by
  induction b using List.reverseRecOn generalizing log with
  | nil =>
    obtain ⟨before, seg, rfl, hvs, hs⟩ := h.last rfl
    exact hvs.snoc (hs.unmarked he)
  | append_singleton b g ih =>
    obtain ⟨before, seg, rfl, hvs, hs⟩ := h.last (show a ++ f :: (b ++ [g]) = (a ++ f :: b) ++ [g] by simp)
    have hnew := (ih hvs).snoc hs
    rwa [List.append_assoc, List.cons_append] at hnew

namespace Session

theorem survived (h : Session S fsize seen log pm) : Survived S fsize log pm := by
  induction h with
  | create h => exact .create h
  | call _ hc ih => exact ih.call hc
  | view _ hp hv ih => exact ih.view hp hv
  | viewFile _ hfiles hv ih => exact ih.viewFile hfiles hv

/-- The mark says whether a query has read the current page. -/
theorem isOpen (h : Session S fsize seen log pm) : ∃ p, pm.curpage = some p ∧ p.header.isOpen = !seen := by
  induction h with
  | create h =>
    obtain rfl := Except.ok.inj h
    exact ⟨_, rfl, rfl⟩
  | @call seen log data new fuel pm pm' _ hc ih =>
    obtain ⟨p, hp, hopen⟩ := ih
    have hsince : MarkedSince pm.files.length (!seen) [] pm := by
      refine ⟨le_rfl, p, hp, ?_⟩
      rw [hopen, decide_eq_false (not_not.mpr rfl), Bool.or_false]
    obtain ⟨-, p', hp', hopen'⟩ := (MarkedSince.kept _ _).sorted.call hsince hc
    refine ⟨p', hp', hopen'.trans ?_⟩
    rw [Bool.not_and, ← decide_not]
  | view h hp hv _ =>
    obtain ⟨p₁, hp₁, hproper, hflushed⟩ := h.survived.intact.cur
    obtain rfl := Option.some.inj (hp.symm.trans hp₁)
    exact ⟨_, rfl, (hv.tidy (hproper.onDisk hflushed)).2⟩
  | viewFile _ _ _ ih => exact ih

/-- The pages hold what was written one after the other. -/
theorem shelved (h : Session S fsize seen log pm) : Increasing log → Shelved fsize log pm := by
  induction h with
  | create h => exact fun _ => Shelved.start h
  | call _ hc ih => exact (Shelved.kept fsize).sorted.call ih hc
  | view h hp hv ih =>
    intro hi
    obtain ⟨hsize, before, seg, p, rfl, hp', hvol, hvs⟩ := ih hi
    obtain rfl := Option.some.inj (hp.symm.trans hp')
    obtain ⟨p₁, hp₁, hproper, hflushed⟩ := h.survived.intact.cur
    obtain rfl := Option.some.inj (hp.symm.trans hp₁)
    obtain ⟨hsame, hm⟩ := hv.remapped hproper hflushed
    refine ⟨hsize, before, seg, _, rfl, rfl, ?_, hvs⟩
    rw [hsame]
    exact hvol.marked hm
  | viewFile h hfiles hv ih =>
    intro hi
    obtain ⟨hsize, before, seg, p, rfl, hp, hvol, hvs⟩ := ih hi
    rw [hfiles] at hvs
    have hshelf := (h.survived.intact.files _ (hfiles ▸ List.mem_append_right _ List.mem_cons_self)).1
    exact ⟨hsize, before, seg, p, rfl, hp, hvol, hvs.replace (hv.unmarked hshelf).symm⟩

/-- All pages before the current one end before it does. -/
theorem newest (h : Session S fsize seen log pm) (hi : Increasing log) (hpos : ∀ m, m ∈ log → 0 < m.time)
    (hp : pm.curpage = some p) {f : PageFile} (hf : f ∈ pm.files) :
    0 < f.header.maxTime ∧ f.header.maxTime < p.header.maxTime := by
  obtain ⟨-, before, seg, p₁, rfl, hp₁, hvol, hvs⟩ := h.shelved hi
  obtain rfl := Option.some.inj (hp.symm.trans hp₁)
  have horderly := h.survived.intact.toOrderly
  -- the page has a measurement, and so has the current one
  obtain ⟨a, b, hab⟩ := List.append_of_mem hf
  rw [hab] at hvs
  obtain ⟨older, own, newer, rfl, -, hsaved, -⟩ := hvs.split
  obtain ⟨-, hbounds⟩ := hsaved.bounds (horderly.files f hf).2
  obtain ⟨m, hm, hmax⟩ := hbounds.maxMem
  have hbefore : m ∈ older ++ (own ++ newer) := List.mem_append_right _ (List.mem_append_left _ hm)
  have hseg : seg ≠ [] := by
    rintro rfl
    obtain ⟨recs, hposted⟩ := hvol.posted
    have hnil := horderly.first p hp hposted.areas.writePos
    rw [hnil] at hf
    cases hf
  obtain ⟨m', hm'⟩ := List.exists_mem_of_ne_nil _ hseg
  rw [← hmax]
  exact ⟨hpos m (List.mem_append_left _ hbefore), ((List.pairwise_append.mp hi).2.2 m hbefore m' hm').trans_le
    ((hvol.timed.bounds hseg).le m' hm').2⟩

end Session

/-- A storage that was written in the order of the times, and whose process ends without `Close`: the page that was
current is picked, whatever order the pages are listed in. If a query has read it since it was made, the storage
opens; if not, the page is open already for `Open`, which throws. -/
theorem killed_opens_iff (h : Session S fsize seen log pm) (hi : Increasing log) (hpos : ∀ m, m ∈ log → 0 < m.time)
    {listing : List (Nat × PageFile)} (hlist : listing.Perm (named (pageFiles pm))) :
    ∃ p, pm.curpage = some p ∧ (pm.files.length, onDisk p) ∈ listing ∧
      getOldesPage (listing.map fun x => (x.1, x.2.header)) = some pm.files.length ∧
      ((∃ pm', openPages listing = .ok pm') ↔ seen = true) ∧
      (openPages listing = .error .alreadyOpenned ↔ seen = false) := by
  obtain ⟨p, hp, hopen⟩ := h.isOpen
  have hnames : (listing.map Prod.fst).Nodup := (hlist.map Prod.fst).nodup_iff.mpr (nodup_named _)
  have hnamed : named (pageFiles pm) = named pm.files ++ [(pm.files.length, onDisk p)] := by
    rw [pageFiles_some hp]
    exact List.mapIdx_concat
  have hcur : (pm.files.length, onDisk p) ∈ listing := by
    rw [hlist.mem_iff, hnamed]
    exact List.mem_append_right _ List.mem_cons_self
  have hpick : getOldesPage (listing.map fun x => (x.1, x.2.header)) = some pm.files.length := by
    have hheaders := hlist.map fun x : Nat × PageFile => (x.1, x.2.header)
    rw [hnamed, List.map_append] at hheaders
    have hheaders : (listing.map fun x => (x.1, x.2.header)).Perm
        ((named pm.files).map (fun x => (x.1, x.2.header)) ++ [(pm.files.length, p.header)]) := hheaders
    refine getOldesPage_newest hheaders fun page hpage => ?_
    obtain ⟨x, hx, rfl⟩ := List.mem_map.mp hpage
    exact h.newest hi hpos hp (mem_listing (.refl _) hx)
  have hopens : (∃ pm', openPages listing = .ok pm') ↔ seen = true := by
    rw [Stopped.killed.opens_iff h.survived.intact hlist]
    constructor
    · intro hall
      have hshut : p.header.isOpen = false := hall _ hcur hpick
      rw [hopen] at hshut
      simpa using hshut
    · rintro rfl x hx hx'
      have hname := Option.some.inj (hpick.symm.trans hx')
      have hsame : x = (pm.files.length, onDisk p) := List.inj_on_of_nodup_map hnames hx hcur hname.symm
      rw [hsame]
      exact hopen
  refine ⟨p, hp, hcur, hpick, hopens, fun hthrow => ?_, fun hseen => ?_⟩
  · refine eq_false_of_ne_true fun hseen => ?_
    obtain ⟨pm', hok⟩ := hopens.mpr hseen
    rw [hok] at hthrow
    cases hthrow
  · refine openPages_marked hnames hcur hpick (hopen.trans ?_)
    rw [hseen]
    rfl

/-- A storage of two pages, killed before and after a query has read the second one. -/
theorem killed_opens_iff_two : ∃ pm p f,
    Session TimeSort.insertion (calcSize 2) false ([] ++ [.plain 1 5, .plain 0 7, .plain 1 9]) pm ∧
    pm.files.length = 1 ∧ pm.curpage = some p ∧ Viewed (onDisk p) f ∧
    openPages (named (pageFiles pm)) = .error .alreadyOpenned ∧
      ∃ pm', openPages (named (pageFiles {pm with curpage := some (remapped p f)})) = .ok pm' := by
  let pm₀ : PageManager := {PageManager.start (calcSize 2) with curpage := some (create (calcSize 2))}
  obtain ⟨⟨log, pm⟩, hcall, hx⟩ := exists_ok
    (x := AsyncWriter.call TimeSort.insertion 4 [.plain 1 5, .plain 0 7, .plain 1 9] pm₀)
    (p := fun x : List Meas × PageManager => decide (x.1 = [.plain 1 5, .plain 0 7, .plain 1 9]) &&
      decide (x.2.files.length = 1) && x.2.curpage.any fun p => (openFile (onDisk p) true).toOption.any fun q =>
        q.close.toOption.isSome) (by decide +kernel)
  obtain ⟨hx, hview⟩ := Bool.and_eq_true_iff.mp hx
  obtain ⟨hlog, hlen⟩ := Bool.and_eq_true_iff.mp hx
  obtain rfl := of_decide_eq_true hlog
  obtain ⟨p, hp, hview⟩ := (Option.any_eq_true _ _).mp hview
  obtain ⟨q, hq, hf⟩ := (Option.any_eq_true _ _).mp hview
  obtain ⟨f, hf⟩ := Option.isSome_iff_exists.mp hf
  have hviewed : Viewed (onDisk p) f := ⟨q, toOption_eq_some.mp hq, toOption_eq_some.mp hf⟩
  have hstart : (PageManager.start (calcSize 2)).createNewPage = .ok pm₀ := rfl
  have hsession : Session TimeSort.insertion (calcSize 2) false ([] ++ _) pm := (Session.create hstart).call hcall
  have hi : Increasing ([] ++ [Meas.plain 1 5, .plain 0 7, .plain 1 9]) := by
    unfold Increasing
    decide
  obtain ⟨-, -, -, -, -, hthrows⟩ := killed_opens_iff hsession hi (by decide) (.refl _)
  obtain ⟨-, -, -, -, hopens, -⟩ := killed_opens_iff (hsession.view hp hviewed) hi (by decide) (.refl _)
  exact ⟨pm, p, f, hsession, of_decide_eq_true hlen, hp, hviewed, hthrows.mpr rfl, hopens.mpr rfl⟩

end

end Nkvdb.Storage
