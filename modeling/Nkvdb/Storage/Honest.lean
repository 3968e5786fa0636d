import Nkvdb.Storage.Safe
import Nkvdb.Storage.Sessions

/-! What a storage answers was written to it.

Every position of a page reads back what was written, and every slot of a window holds what was written or is
empty. Every query, over any pages and with any filters, delivers what a page reads back or what a window
holds. -/
namespace Nkvdb.Storage
open Page

/-! ### Readers of a page -/

/-- What can be read of the page was written. -/
structure Truthful (log : List Meas) (p : Page) : Prop where
  reads : ReadsTrue log p
  window : ∀ m, m ∈ p.writeWindow → m = Meas.empty ∨ m ∈ log

/-- An empty slot of a window, for a query that begins after 0 and has nothing against it. -/
structure Filler (ids : List Id) (source flag : Flag) (fromTime : Time) (m : Meas) : Prop where
  empty : m = Meas.empty
  later : 0 < fromTime
  asked : Page.Asked ids source flag Meas.empty

/-- A measurement that was written, or an empty slot. -/
def Answer (log : List Meas) (r : StorageReader) (m : Meas) : Prop :=
  Appended log m ∨ Filler r.ids r.source r.flag r.fromTime m

/-- The reader of a page, for the query. -/
def Serves (log : List Meas) (r : StorageReader) : CurrentReader → Prop
  | .interval i p => Truthful log p ∧ (∀ m, m ∈ i.prevWw → m = Meas.empty ∨ m ∈ log) ∧ i.fromTime = r.fromTime ∧
      i.ids = r.ids ∧ i.source = r.source ∧ i.flag = r.flag
  | .timePoint t p => Truthful log p ∧ ∀ m, m ∈ t.prevWw → m = Meas.empty ∨ m ∈ log

section
variable {log : List Meas} {p p' : Page} {prev : WriteWindow} {m : Meas} {size : U64} {out : List Meas}

theorem Truthful.searched (h : Truthful log p) (hs : Searched p p') : Truthful log p' := by
  obtain ⟨ix, rfl⟩ := hs
  exact ⟨h.reads, h.window⟩

/-- The empty measurement has time 0. -/
theorem Truthful.source (h : Truthful log p) (hprev : ∀ m, m ∈ prev → m = Meas.empty ∨ m ∈ log)
    (hm : Source prev p m) : Appended log m := by
  have htime : m.time ≠ 0 → m ≠ Meas.empty := by
    rintro ht rfl
    exact ht rfl
  rcases hm with ⟨i, hi⟩ | ⟨hm, ht⟩ | ⟨hm, ht⟩
  · exact h.reads i m hi
  · exact .of_mem ((h.window m hm).resolve_left (htime ht))
  · exact .of_mem ((hprev m hm).resolve_left (htime ht))

end
end Nkvdb.Storage

namespace Nkvdb.PageReaderInterval
open Page
variable {size : U64} {r r' : PageReaderInterval} {p p' : Page} {out : List Meas}

theorem readInPoint_query (h : r.readInPoint p = .ok (out, r', p')) : r'.toPageReader = r.toPageReader := by
  unfold readInPoint at h
  split at h
  · obtain ⟨⟨out₁, p₁⟩, -, h⟩ := bind_ok h
    obtain ⟨-, heq⟩ := Prod.mk.inj (Except.ok.inj h)
    obtain ⟨rfl, -⟩ := Prod.mk.inj heq
    rfl
  · obtain ⟨-, heq⟩ := Prod.mk.inj (Except.ok.inj h)
    obtain ⟨rfl, -⟩ := Prod.mk.inj heq
    rfl

theorem nextPos_query (h : r.nextPos = .ok r') : r'.toPageReader = r.toPageReader := by
  unfold nextPos at h
  split at h
  · split at h
    · cases h
    · obtain rfl := Except.ok.inj h
      rfl
  · obtain rfl := Except.ok.inj h
    rfl

/-- No call changes the query. -/
theorem readNext_query (h : r.readNextBy size p = .ok (out, r', p')) : r'.toPageReader = r.toPageReader := by
  unfold readNextBy at h
  split at h
  · obtain ⟨-, heq⟩ := Prod.mk.inj (Except.ok.inj h)
    obtain ⟨rfl, -⟩ := Prod.mk.inj heq
    rfl
  split at h
  · obtain ⟨-, heq⟩ := Prod.mk.inj (Except.ok.inj h)
    obtain ⟨rfl, -⟩ := Prod.mk.inj heq
    rfl
  · obtain ⟨⟨first, r₁, p₁⟩, hpoint, h⟩ := bind_ok h
    obtain ⟨r₂, hnext, h⟩ := bind_ok h
    obtain ⟨⟨rest, i⟩, -, h⟩ := bind_ok h
    obtain ⟨-, heq⟩ := Prod.mk.inj (Except.ok.inj h)
    obtain ⟨rfl, -⟩ := Prod.mk.inj heq
    exact (nextPos_query hnext).trans (readInPoint_query hpoint)

/-- Behind the page a call delivers slots of its window, and stays there. -/
theorem readNext_behind (hfrom : p.header.maxTime < r.fromTime) (h : r.readNextBy size p = .ok (out, r', p')) :
    p' = p ∧ r'.fromTime = r.fromTime ∧ ∀ m, m ∈ out → m ∈ p.writeWindow ∧ r.checkValueFlags m = true := by
  unfold readNextBy at h
  split at h
  · obtain ⟨rfl, heq⟩ := Prod.mk.inj (Except.ok.inj h)
    obtain ⟨rfl, rfl⟩ := Prod.mk.inj heq
    exact ⟨rfl, rfl, fun m hm => absurd hm List.not_mem_nil⟩
  · obtain ⟨rfl, heq⟩ := Prod.mk.inj (Except.ok.inj h)
    obtain ⟨rfl, rfl⟩ := Prod.mk.inj heq
    exact ⟨rfl, rfl, fun m hm => List.mem_filter.mp hm⟩

end Nkvdb.PageReaderInterval

namespace Nkvdb.Page

theorem addReadPos_query (records : List IndexRecord) (r : PageReaderInterval) :
    (records.foldl (fun preader rec => preader.addReadPos rec.pos (rec.pos + rec.count)) r).toPageReader =
      r.toPageReader := by
  induction records generalizing r with
  | nil => rfl
  | cons rec records ih => exact ih (r.addReadPos rec.pos (rec.pos + rec.count))

/-- The reader of an interval has its filters. -/
theorem readInterval_query {ids : List Id} {source flag : Flag} {fromTime toTime : Time} {p p' : Page}
    {r : PageReaderInterval} (h : p.readInterval ids source flag fromTime toTime = .ok (some r, p')) :
    r.ids = ids ∧ r.source = source ∧ r.flag = flag := by
  unfold readInterval at h
  by_cases hpos : p.header.writePos = 0
  · simp only [if_pos hpos] at h
    cases h
  simp only [if_neg hpos] at h
  split at h
  · obtain ⟨hr, -⟩ := Prod.mk.inj (Except.ok.inj h)
    obtain rfl := Option.some.inj hr
    exact ⟨rfl, rfl, rfl⟩
  split at h
  · split at h
    next hplain =>
      -- there are no filters, and none is set
      obtain ⟨hr, -⟩ := Prod.mk.inj (Except.ok.inj h)
      unfold readAll at hr
      rw [if_neg hpos] at hr
      obtain rfl := Option.some.inj hr
      exact ⟨(List.isEmpty_iff.mp hplain.1).symm, hplain.2.1.symm, hplain.2.2.symm⟩
    · obtain ⟨hr, -⟩ := Prod.mk.inj (Except.ok.inj h)
      unfold readFromToPos at hr
      rw [if_neg hpos] at hr
      obtain rfl := Option.some.inj hr
      exact ⟨rfl, rfl, rfl⟩
  · obtain ⟨⟨irecords, ix⟩, -, h⟩ := bind_ok h
    obtain ⟨hr, -⟩ := Prod.mk.inj (Except.ok.inj h)
    obtain rfl := Option.some.inj hr
    rw [addReadPos_query]
    exact ⟨rfl, rfl, rfl⟩

end Nkvdb.Page

namespace Nkvdb.Storage
open Page
variable {log : List Meas} {r : StorageReader} {c c' : CurrentReader} {size : U64} {out : List Meas}
  {disk : String → PageFile} {name : String}

/-- One call of a page's reader. -/
theorem Serves.readNext (h : Serves log r c) (hn : c.readNextBy size = .ok (out, c')) :
    Serves log r c' ∧ ∀ m, m ∈ out → Answer log r m := by
  cases c with
  | interval i p =>
    obtain ⟨htrue, hprev, hfrom, hids, hsource, hflag⟩ := h
    obtain ⟨⟨out₁, i', p'⟩, hread, hn⟩ := bind_ok hn
    obtain ⟨rfl, rfl⟩ := Prod.mk.inj (Except.ok.inj hn)
    have hquery := PageReaderInterval.readNext_query hread
    have hsame : Truthful log p' → i'.fromTime = i.fromTime → Serves log r (.interval i' p') := by
      intro htrue' hfrom'
      refine ⟨htrue', ?_, hfrom'.trans hfrom, ?_, ?_, ?_⟩
      · rwa [hquery]
      · rwa [hquery]
      · rwa [hquery]
      · rwa [hquery]
    by_cases hbehind : p.header.maxTime < i.fromTime
    · obtain ⟨rfl, hfrom', hslots⟩ := PageReaderInterval.readNext_behind hbehind hread
      refine ⟨hsame htrue hfrom', fun m hm => ?_⟩
      obtain ⟨hslot, hcheck⟩ := hslots m hm
      rcases htrue.window m hslot with rfl | hin
      · rw [checkValueFlags_iff, hids, hsource, hflag] at hcheck
        exact .inr ⟨rfl, hfrom ▸ (Fin.zero_le _).trans_lt hbehind, hcheck⟩
      · exact .inl (.of_mem hin)
    · obtain ⟨hsearched, hsameq, hsource⟩ := PageReaderInterval.readNext_source hbehind hread
      exact ⟨hsame (htrue.searched hsearched) hsameq.fromTime, fun m hm => .inl (htrue.source hprev (hsource m hm))⟩
  | timePoint t p =>
    obtain ⟨htrue, hprev⟩ := h
    obtain ⟨⟨out₁, t', p'⟩, hread, hn⟩ := bind_ok hn
    obtain ⟨rfl, rfl⟩ := Prod.mk.inj (Except.ok.inj hn)
    unfold PageReaderTimePoint.readNext at hread
    split at hread
    · obtain ⟨rfl, heq⟩ := Prod.mk.inj (Except.ok.inj hread)
      obtain ⟨rfl, rfl⟩ := Prod.mk.inj heq
      exact ⟨⟨htrue, hprev⟩, fun m hm => absurd hm List.not_mem_nil⟩
    · obtain ⟨⟨out₂, p₂⟩, hpoint, hread⟩ := bind_ok hread
      obtain ⟨rfl, heq⟩ := Prod.mk.inj (Except.ok.inj hread)
      obtain ⟨rfl, rfl⟩ := Prod.mk.inj heq
      obtain ⟨hsearched, hsource⟩ := timePointRead_source hpoint
      exact ⟨⟨htrue.searched hsearched, hprev⟩, fun m hm => .inl (htrue.source hprev (hsource m hm))⟩

/-- What can be read of the page the file opens to was written. -/
def TruthfulFile (log : List Meas) (f : PageFile) : Prop := ∀ p, openFile f true = .ok p → Truthful log p

theorem GenuineFile.truthful {fsize : U64} {seg : List Meas} {f : PageFile} {valueSize : Nat}
    (h : GenuineFile fsize log seg f) (hsub : ∀ m, m ∈ seg → m ∈ log) (hpage : Stacks fsize valueSize)
    (hsizes : ∀ m, m ∈ log → m.size.val = valueSize) : TruthfulFile log f := by
  intro p hopen
  obtain ⟨q, hq, hgenuine⟩ := h
  obtain rfl := Except.ok.inj (hq.symm.trans hopen)
  obtain ⟨recs, hposted⟩ := hgenuine.posted
  have hfits := hgenuine.stacked.fits hpage fun m hm => hsizes m (hsub m hm)
  refine ⟨fun i m hread => ?_, hgenuine.window⟩
  exact ((hgenuine.stored hfits).readsTrue hposted.areas hfits i m hread).mono hsub

/-- The index has no part in that. -/
theorem TruthfulFile.writtenBack {f : PageFile} (h : TruthfulFile log f)
    (lost : Nat → BTree.Node Time IndexRecord) : TruthfulFile log (f.writtenBack lost) := by
  intro p hopen
  obtain ⟨hshut, hversion, w, hw, rfl⟩ := openFile_iff.mp hopen
  have htrue := h _ (openFile_iff.mpr ⟨hshut, hversion, w, hw, rfl⟩)
  exact ⟨htrue.reads, htrue.window⟩

/-- A storage's reader of such pages. -/
structure Scheduled (log : List Meas) (disk : String → PageFile) (r : StorageReader) : Prop where
  pages : ∀ name, name ∈ r.pages → TruthfulFile log (disk name)
  prev : r.prevIntervalPage = "" ∨ TruthfulFile log (disk r.prevIntervalPage)
  current : ∀ c, r.currentReader = some c → Serves log r c

namespace Scheduled

theorem prevWw (h : Scheduled log disk r) {w : WriteWindow} (hw : r.prevWw disk = .ok w) :
    ∀ m, m ∈ w → m = Meas.empty ∨ m ∈ log := by
  unfold StorageReader.prevWw at hw
  split at hw
  next hne =>
    obtain ⟨p, hp, hw⟩ := bind_ok hw
    obtain rfl := Except.ok.inj hw
    exact (h.prev.resolve_left hne p hp).window
  · obtain rfl := Except.ok.inj hw
    exact fun m hm => absurd hm List.not_mem_nil

/-- The reader of a page that is opened. -/
theorem openPage (h : Scheduled log disk r) (hname : TruthfulFile log (disk name))
    (ho : r.openPage disk name = .ok c) : Serves log r c := by
  obtain ⟨p, hp, ho⟩ := bind_ok ho
  obtain ⟨w, hw, ho⟩ := bind_ok ho
  have htrue := hname p hp
  have hprev := h.prevWw hw
  split at ho
  · split at ho
    · cases ho
    · obtain rfl := Except.ok.inj ho
      exact ⟨htrue, hprev⟩
  · obtain ⟨⟨preader, p'⟩, hread, ho⟩ := bind_ok ho
    cases preader with
    | none => cases ho
    | some i =>
      obtain rfl := Except.ok.inj ho
      obtain ⟨-, hsearched, hfrom⟩ := readInterval_reader hread
      obtain ⟨hids, hsource, hflag⟩ := readInterval_query hread
      exact ⟨htrue.searched hsearched, hprev, hfrom, hids, hsource, hflag⟩

/-- One call, on the page in use or the next one. -/
theorem readNext (h : Scheduled log disk r) {r' : StorageReader} (hn : r.readNextBy size disk = .ok (out, r')) :
    (Scheduled log disk r' ∧ ∀ m, Answer log r' m ↔ Answer log r m) ∧ ∀ m, m ∈ out → Answer log r m := by
  unfold StorageReader.readNextBy at hn
  split at hn
  · obtain ⟨rfl, rfl⟩ := Prod.mk.inj (Except.ok.inj hn)
    exact ⟨⟨h, fun _ => Iff.rfl⟩, fun m hm => absurd hm List.not_mem_nil⟩
  obtain ⟨⟨c, r₁⟩, hc, hn⟩ := bind_ok hn
  obtain ⟨⟨out₁, c'⟩, hread, hn⟩ := bind_ok hn
  obtain ⟨rfl, rfl⟩ := Prod.mk.inj (Except.ok.inj hn)
  -- the pages left after the one in use
  obtain ⟨pages, rfl, hpages, hserves⟩ : ∃ pages, r₁ = {r with pages := pages} ∧
      (∀ name, name ∈ pages → name ∈ r.pages) ∧ Serves log r c := by
    unfold StorageReader.current at hc
    split at hc
    next c₀ hcur =>
      obtain ⟨rfl, rfl⟩ := Prod.mk.inj (Except.ok.inj hc)
      exact ⟨r.pages, rfl, fun _ hname => hname, h.current c₀ hcur⟩
    · cases hc
    next name pages _ hnames =>
      obtain ⟨c₁, hopen, hc⟩ := bind_ok hc
      obtain ⟨rfl, rfl⟩ := Prod.mk.inj (Except.ok.inj hc)
      refine ⟨pages, rfl, fun n hn => ?_, h.openPage (h.pages name ?_) hopen⟩
      · rw [hnames]
        exact List.mem_cons_of_mem _ hn
      · rw [hnames]
        exact List.mem_cons_self
  obtain ⟨hserves', hout⟩ := hserves.readNext hread
  refine ⟨⟨⟨fun name hname => h.pages name (hpages name hname), h.prev, fun c₁ hc₁ => ?_⟩, fun _ => Iff.rfl⟩, hout⟩
  dsimp only at hc₁
  split at hc₁
  · cases hc₁
  · obtain rfl := Option.some.inj hc₁
    exact hserves'

/-- All calls. -/
theorem readAll (h : Scheduled log disk r) {fuel : Nat} (hall : r.readAllBy size disk fuel = .ok out) :
    ∀ m, m ∈ out → Answer log r m := by
  induction fuel generalizing r out with
  | zero => cases hall
  | succ fuel ih =>
    unfold StorageReader.readAllBy at hall
    split at hall
    · obtain rfl := Except.ok.inj hall
      exact fun m hm => absurd hm List.not_mem_nil
    · obtain ⟨⟨out₁, r'⟩, hnext, hall⟩ := bind_ok hall
      obtain ⟨rest, hrest, hall⟩ := bind_ok hall
      obtain rfl := Except.ok.inj hall
      obtain ⟨⟨h', hsame⟩, hfirst⟩ := h.readNext hnext
      intro m hm
      rcases List.mem_append.mp hm with hm | hm
      · exact hfirst m hm
      · exact (hsame m).mp (ih h' hrest m hm)

end Scheduled

/-! ### All queries -/

section
variable {ids : List Id} {source flag : Flag} {fromTime toTime tp : Time} {known : String → Prop}

theorem visitInterval_prev {prev : Option PageInfo} {p : PageInfo} {sel : Selection}
    (hprev : ∀ q, prev = some q → known q.name) (hsel : sel.prevIntervalPage = "" ∨ known sel.prevIntervalPage) :
    (visitInterval fromTime toTime prev p sel).prevIntervalPage = "" ∨
      known (visitInterval fromTime toTime prev p sel).prevIntervalPage := by
  unfold visitInterval
  dsimp only
  split
  · cases prev with
    | none => exact hsel
    | some q =>
      dsimp only
      split
      · exact .inr (hprev q rfl)
      · exact hsel
  split
  · cases prev with
    | none => exact hsel
    | some q => exact .inr (hprev q rfl)
  repeat' split
  all_goals exact hsel

/-- The page before the interval is one of those walked over. -/
theorem intervalLoop_prev {prev : Option PageInfo} {pages : List PageInfo} {sel : Selection}
    (hprev : ∀ q, prev = some q → known q.name) (hpages : ∀ p, p ∈ pages → known p.name)
    (hsel : sel.prevIntervalPage = "" ∨ known sel.prevIntervalPage) :
    (intervalLoop ids source flag fromTime toTime prev pages sel).prevIntervalPage = "" ∨
      known (intervalLoop ids source flag fromTime toTime prev pages sel).prevIntervalPage := by
  induction pages generalizing prev sel with
  | nil => exact hsel
  | cons p pages ih =>
    obtain ⟨hp, hpages⟩ := List.forall_mem_cons.mp hpages
    unfold intervalLoop
    refine ih (fun q hq => Option.some.inj hq ▸ hp) hpages ?_
    split
    · exact hsel
    · exact visitInterval_prev hprev hsel

theorem timePointLoop_prev {prev : Option PageInfo} {pages : List PageInfo}
    (hprev : ∀ q, prev = some q → known q.name) (hpages : ∀ p, p ∈ pages → known p.name) :
    (timePointLoop ids source flag tp prev pages).prevIntervalPage = "" ∨
      known (timePointLoop ids source flag tp prev pages).prevIntervalPage := by
  induction pages generalizing prev with
  | nil => exact .inl rfl
  | cons p pages ih =>
    obtain ⟨hp, hpages⟩ := List.forall_mem_cons.mp hpages
    have hrest := ih (fun q hq => Option.some.inj hq ▸ hp) hpages
    unfold timePointLoop
    dsimp only
    split
    · exact hrest
    split
    · exact .inl rfl
    split
    · cases prev with
      | none => exact .inl rfl
      | some q => exact .inr (hprev q rfl)
    split
    · exact .inl rfl
    · exact hrest

end

section
variable {S : TimeSort} {fsize : U64} {log out : List Meas} {pm : PageManager} {valueSize fuel : Nat}

/-- The reader a query is given. -/
theorem Survived.scheduled (h : Survived S fsize log pm) (hpage : Stacks fsize valueSize)
    (hsizes : ∀ m, m ∈ log → m.size.val = valueSize) {lost : PageFile → Nat → BTree.Node Time IndexRecord}
    (d : Directory (pagesWrittenBack lost pm)) {r : StorageReader}
    (hcur : r.currentReader = none) (hpages : ∀ name, name ∈ r.pages → name ∈ d.pages.map PageInfo.name)
    (hprev : r.prevIntervalPage = "" ∨ r.prevIntervalPage ∈ d.pages.map PageInfo.name) : Scheduled log d.disk r := by
  obtain ⟨segs, hperm, hall⟩ := h.genuine.2.pageFiles h.intact.toOrderly
  have htrue : ∀ name, name ∈ d.pages.map PageInfo.name → TruthfulFile log (d.disk name) := by
    intro name hname
    have hmem := d.mem_pageFiles hname
    rw [pageFiles_writtenBack] at hmem
    obtain ⟨f, hf, he⟩ := List.mem_map.mp hmem
    obtain ⟨seg, hseg, hgenuine⟩ := exists_left hall hf
    rw [← he]
    exact (GenuineFile.truthful hgenuine (fun m hm => hperm.mem_iff.mp (List.mem_flatten_of_mem hseg hm)) hpage
      hsizes).writtenBack _
  refine ⟨fun name hname => htrue name (hpages name hname), hprev.imp_right (htrue _), fun c hc => ?_⟩
  rw [hcur] at hc
  cases hc

section
variable (h : Survived S fsize log pm) (hpage : Stacks fsize valueSize) (hsizes : ∀ m, m ∈ log → m.size.val = valueSize)
  {lost : PageFile → Nat → BTree.Node Time IndexRecord} (d : Directory (pagesWrittenBack lost pm)) {ids : List Id}
  {source flag : Flag} {fromTime toTime tp : Time} {size : U64}
include h hpage hsizes

theorem Survived.interval_answers
    (hall : (intervalReader ids source flag fromTime toTime d.pages).readAllBy size d.disk fuel = .ok out) :
    ∀ m, m ∈ out → Appended log m ∨ Filler ids source flag fromTime m := by
  have hnone : ∀ q : PageInfo, none = some q → q.name ∈ d.pages.map PageInfo.name := by
    intro q hq
    cases hq
  refine (h.scheduled hpage hsizes d rfl (fun name hn => ?_) ?_).readAll hall
  · have hn : name ∈ (readInterval ids source flag fromTime toTime d.pages).pagesToRead := hn
    rw [readInterval_pages] at hn
    rcases mem_visits hn with hn | ⟨q, _, _, hq, _⟩
    · exact hn
    · cases hq
  · exact intervalLoop_prev hnone (fun p hp => List.mem_map_of_mem hp) (.inl rfl)

theorem Survived.timePoint_answers
    (hall : (timePointReader ids source flag tp d.pages).readAllBy size d.disk fuel = .ok out) :
    ∀ m, m ∈ out → Appended log m := by
  have hnone : ∀ q : PageInfo, none = some q → q.name ∈ d.pages.map PageInfo.name := by
    intro q hq
    cases hq
  intro m hm
  have hs := h.scheduled hpage hsizes d (r := timePointReader ids source flag tp d.pages) rfl (fun name hn => ?_)
    (timePointLoop_prev hnone fun p hp => List.mem_map_of_mem hp)
  · exact (hs.readAll hall m hm).resolve_right fun hfiller => lt_irrefl _ hfiller.later
  · rcases mem_timePointLoop hn with hn | ⟨q, hq, _⟩
    · exact hn
    · cases hq

end

/-- Whatever was written, and however often the storage was closed or killed between batches, and opened, with values
of one size that pages stack: a query delivers nothing else, but for the empty slots of a window, and these for an
interval that begins after 0 and filters that have nothing against them. That holds whatever has become of the index
nodes past the ends of their files. -/
theorem answers_appended (h : Survived S fsize log pm) (hpage : Stacks fsize valueSize)
    (hsizes : ∀ m, m ∈ log → m.size.val = valueSize) (lost : PageFile → Nat → BTree.Node Time IndexRecord)
    (d : Directory (pagesWrittenBack lost pm)) (ids : List Id) (source flag : Flag) (size : U64) (fuel : Nat)
    (out : List Meas) :
    (∀ fromTime toTime,
      (intervalReader ids source flag fromTime toTime d.pages).readAllBy size d.disk fuel = .ok out →
        ∀ m, m ∈ out → Appended log m ∨ Filler ids source flag fromTime m) ∧
      ∀ tp, 0 < tp → (timePointReader ids source flag tp d.pages).readAllBy size d.disk fuel = .ok out →
        ∀ m, m ∈ out → Appended log m :=
  ⟨fun _ _ hall => h.interval_answers hpage hsizes d hall, fun _ _ hall =>
    h.timePoint_answers hpage hsizes d hall⟩

/-- Two pages of the id 1, closed and opened again, without the index nodes: behind the first one the slot of the
id 0 is delivered. -/
theorem answers_appended_two : ∃ pm out,
    Survived TimeSort.insertion (calcSize 2) [.plain 1 5, .plain 1 6, .plain 1 9] pm ∧
    ∃ d : Directory (pagesWrittenBack (fun _ _ => BTree.Node.zero) pm),
      (intervalReader [] 0 0 7 10 d.pages).readAll d.disk 9 = .ok out ∧ Meas.empty ∈ out ∧
      ∀ m, m ∈ out → Appended [.plain 1 5, .plain 1 6, .plain 1 9] m ∨ Filler [] 0 0 7 m := by
  let pm₀ : PageManager := {PageManager.start (calcSize 2) with curpage := some (create (calcSize 2))}
  let disk : PageFile → PageFile → String → PageFile := fun f g n => if n = "a" then f else g
  let lost : PageFile → Nat → BTree.Node Time IndexRecord := fun _ _ => BTree.Node.zero
  obtain ⟨⟨new, pm₁⟩, hcall, hx⟩ := exists_ok
    (x := AsyncWriter.call TimeSort.insertion 4 [.plain 1 5, .plain 1 6, .plain 1 9] pm₀)
    (p := fun x : List Meas × PageManager => decide (x.1 = [.plain 1 5, .plain 1 6, .plain 1 9]) &&
      x.2.closeCurrentPage.toOption.any fun closed => (openPages (named closed.files)).toOption.any fun pm =>
        decide ((pageFiles (pagesWrittenBack lost pm)).length = 2) &&
          (pageFiles (pagesWrittenBack lost pm))[0]?.any fun f : PageFile =>
          (pageFiles (pagesWrittenBack lost pm))[1]?.any fun g : PageFile =>
          decide (f.header.maxTime ≤ g.header.maxTime) && ((intervalReader [] 0 0 7 10
            [⟨f.header, "a"⟩, ⟨g.header, "b"⟩]).readAll (disk f g) 9).toOption.any fun out => decide (Meas.empty ∈ out))
    (by decide +kernel)
  obtain ⟨hnew, hx⟩ := Bool.and_eq_true_iff.mp hx
  obtain rfl := of_decide_eq_true hnew
  obtain ⟨closed, hc, hx⟩ := (Option.any_eq_true _ _).mp hx
  obtain ⟨pm, hopen, hx⟩ := (Option.any_eq_true _ _).mp hx
  have hopen := toOption_eq_some.mp hopen
  have hstart : (PageManager.start (calcSize 2)).createNewPage = .ok pm₀ := rfl
  have hsurvived : Survived TimeSort.insertion (calcSize 2) _ pm :=
    ((Survived.create hstart).call hcall).restart (.closed (toOption_eq_some.mp hc)) (.refl _) hopen
  obtain ⟨hlen, hx⟩ := Bool.and_eq_true_iff.mp hx
  obtain ⟨f, hf, hx⟩ := (Option.any_eq_true _ _).mp hx
  obtain ⟨g, hg, hx⟩ := (Option.any_eq_true _ _).mp hx
  obtain ⟨hle, hx⟩ := Bool.and_eq_true_iff.mp hx
  obtain ⟨out, hout, hmem⟩ := (Option.any_eq_true _ _).mp hx
  obtain ⟨f', g', hfiles⟩ := List.length_eq_two.mp (of_decide_eq_true hlen)
  rw [hfiles] at hf hg
  obtain rfl := Option.some.inj hf
  obtain rfl := Option.some.inj hg
  let d : Directory (pagesWrittenBack lost pm) := ⟨["a", "b"], disk f' g', by decide, List.Perm.of_eq hfiles.symm,
    List.pairwise_pair.mpr (of_decide_eq_true hle)⟩
  have hout : (intervalReader [] 0 0 7 10 d.pages).readAll d.disk 9 = .ok out := toOption_eq_some.mp hout
  have hpage : Stacks (calcSize 2) 8 := by decide
  exact ⟨pm, out, hsurvived, d, hout, of_decide_eq_true hmem,
    (answers_appended hsurvived hpage (by decide) lost d [] 0 0 PageReaderInterval.readSize 9 out).1 7 10 hout⟩

end

end Nkvdb.Storage
