import Nkvdb.Page.Parts
import Nkvdb.Storage.Beginning
import Nkvdb.Storage.Schedule
import Nkvdb.Storage.Volumes

/-! Whether a query delivers a measurement twice.

A page that is scheduled twice is read twice. Besides, the window of one page is handed to the readers of all
pages, so what stands in a slot of it comes with each page that holds the beginning of the query, and again
from the page it lies on if that is read. -/
namespace Nkvdb.Storage
open Page PageReaderInterval

/-! ### The reader of a page -/

section
variable {disk : String → PageFile} {r : StorageReader} {name : String} {cr : CurrentReader} {p : Page}
  {w : WriteWindow} {out : List Meas} {fsize : U64} {log : List Meas} {recs : List IndexRecord}

/-- The reader of a page is that of the interval, with the window handed to it. -/
theorem openPage_interval (htp : r.timePoint = 0) (hopen : openFile (disk name) true = .ok p)
    (hw : r.prevWw disk = .ok w) (h : r.openPage disk name = .ok cr) : ∃ preader p',
      p.readInterval r.ids r.source r.flag r.fromTime r.toTime = .ok (some preader, p') ∧
      cr = .interval {preader with prevWw := w} p' := by
  unfold StorageReader.openPage at h
  simp only [hopen, hw, htp, ne_eq, not_true_eq_false, if_false, bind, Except.bind] at h
  cases hr : p.readInterval r.ids r.source r.flag r.fromTime r.toTime with
  | error e =>
    rw [hr] at h
    cases h
  | ok x =>
    obtain ⟨preader, p'⟩ := x
    rw [hr] at h
    cases preader with
    | none => cases h
    | some preader => exact ⟨preader, p', rfl, (Except.ok.inj h).symm⟩

/-- What it delivers, a reader of the page reads. -/
theorem delivers_interval {preader : PageReaderInterval} (h : (CurrentReader.interval preader p).Delivers readSize out) :
    ∃ fuel p', preader.readAllBy readSize fuel p = .ok (out, p') := by
  obtain ⟨fuel, hrun⟩ := CurrentReader.delivers_iff.mp h
  rw [readAll_currentReader] at hrun
  cases hall : preader.readAllBy readSize fuel p with
  | error e =>
    rw [hall] at hrun
    cases hrun
  | ok x =>
    rw [hall] at hrun
    obtain rfl : x.1 = out := Except.ok.inj hrun
    exact ⟨fuel, x.2, hall⟩

/-- Of one page: the slots, and then what the page has itself. -/
theorem pageDelivers_parts (htp : r.timePoint = 0) (hopen : openFile (disk name) true = .ok p)
    (hw : r.prevWw disk = .ok w) (hp : Posted fsize log recs p) (hnil : p.index.cache = [])
    (h : r.PageDelivers readSize disk name out) :
    out = slotsOut ⟨r.ids, r.source, r.flag, w⟩ r.fromTime r.toTime p ++
        ownOut ⟨r.ids, r.source, r.flag, w⟩ r.fromTime r.toTime p ∧
      OwnRead ⟨r.ids, r.source, r.flag, w⟩ r.fromTime r.toTime p := by
  obtain ⟨cr, hc, hdel⟩ := h
  obtain ⟨preader, p', hread, rfl⟩ := openPage_interval htp hopen hw hc
  obtain ⟨fuel, p'', hrun⟩ := delivers_interval hdel
  have hpos : p.header.writePos ≠ 0 := (readInterval_reader hread).1
  by_cases hmax : p.header.maxTime < r.fromTime
  · unfold Page.readInterval at hread
    simp only [if_neg hpos, if_pos hmax] at hread
    obtain ⟨hpreader, rfl⟩ := Prod.mk.inj (Except.ok.inj hread)
    obtain rfl := Option.some.inj hpreader
    rw [readAll_window rfl rfl hmax hrun]
    exact parts_behind hmax
  · have hmax := not_lt.mp hmax
    rw [readInterval_eq hpos hmax] at hread
    cases hr : p.intervalRanges r.ids r.source r.flag r.fromTime r.toTime with
    | error e =>
      rw [hr] at hread
      cases hread
    | ok x =>
      obtain ⟨ranges, p₁⟩ := x
      rw [hr] at hread
      obtain ⟨hpreader, rfl⟩ := Prod.mk.inj (Except.ok.inj hread)
      obtain rfl := Option.some.inj hpreader
      have hsame : ({ofRanges ⟨r.ids, r.source, r.flag, []⟩ r.fromTime r.toTime ranges with prevWw := w} :
          PageReaderInterval) = ofRanges ⟨r.ids, r.source, r.flag, w⟩ r.fromTime r.toTime ranges := by
        rw [ofRanges_eq, ofRanges_eq]
      have hrun' := hsame ▸ hrun
      exact hp.readAll_parts (q := ⟨r.ids, r.source, r.flag, w⟩) hnil (Nat.pos_of_ne_zero hpos) hmax hr hrun'

end

/-! ### A call of `Storage::readInterval` -/

/-- The files of a storage, its pages in the order of their greatest times, and the query. -/
structure IntervalCall where
  disk : String → PageFile
  pages : List PageInfo
  ids : List Id
  source : Flag
  flag : Flag
  fromTime : Time
  toTime : Time

/-- The page as it is read; one that cannot be opened has nothing. -/
def openedPage (disk : String → PageFile) (name : String) : Page := (openFile (disk name) true).toOption.getD (create 0)

theorem openedPage_eq {disk : String → PageFile} {name : String} {p : Page} (h : openFile (disk name) true = .ok p) :
    openedPage disk name = p := by
  unfold openedPage
  rw [h]
  rfl

/-- The file of a page that its calls made: of one that was closed, or of one that is open, with no record buffered. -/
def FromCalls (f : PageFile) : Prop :=
  ∃ fsize log p, Used fsize log p ∧ (p.close = .ok f ∨ p.index.cache = [] ∧ f = onDisk p)

theorem FromCalls.posted {f : PageFile} {p : Page} (h : FromCalls f) (hopen : openFile f true = .ok p) :
    (∃ fsize log recs, Posted fsize log recs p) ∧ p.index.cache = [] := by
  have hnil : p.index.cache = [] := by
    obtain ⟨-, -, w, -, rfl⟩ := openFile_iff.mp hopen
    rfl
  refine ⟨?_, hnil⟩
  obtain ⟨fsize, log, p₀, hused, hclose | ⟨hflushed, rfl⟩⟩ := h
  · obtain ⟨recs, hp⟩ := (hused.reopen hclose hopen).posted
    exact ⟨fsize, log, recs, hp⟩
  · obtain ⟨recs, ha, hl, hp, hc⟩ := hused.posted
    obtain ⟨-, -, w, -, rfl⟩ := openFile_iff.mp hopen
    have hf : p₀.index.flush = .ok p₀.index := if_pos hflushed
    exact ⟨fsize, log, recs, ⟨ha.size, ha.writePos, ha.writeValuePos, ha.records⟩,
      ⟨recs, (hl.flush_ok hf).1, List.append_nil _⟩, hp, hc⟩

namespace IntervalCall
variable (c : IntervalCall)

/-- The pages scheduled. -/
def schedule : List String := (readInterval c.ids c.source c.flag c.fromTime c.toTime c.pages).pagesToRead

def reader : StorageReader := intervalReader c.ids c.source c.flag c.fromTime c.toTime c.pages

/-- The pages that are read, by their headers. -/
def chosen : List PageInfo := chosenPages c.ids c.source c.flag c.fromTime c.toTime none c.pages

/-- The query with the window that is handed to the reader of each page. -/
def query : PageReader :=
  ⟨c.ids, c.source, c.flag, ((handedOn c.ids c.source c.flag c.fromTime c.toTime c.pages).map fun q =>
    (openedPage c.disk q.name).writeWindow).getD []⟩

/-- What lies on the pages. -/
def values : List Meas := c.pages.flatMap fun q => Page.values (openedPage c.disk q.name)

/-- The slots of windows that come with a page. -/
noncomputable def slotsOf (name : String) : List Meas := slotsOut c.query c.fromTime c.toTime (openedPage c.disk name)

/-- What a page has for the query itself. -/
noncomputable def ownOf (name : String) : List Meas := ownOut c.query c.fromTime c.toTime (openedPage c.disk name)

/-- The positions of a page that its search comes by and that are let through. -/
noncomputable def positionsOf (name : String) : List Nat := shownPositions c.query c.fromTime c.toTime (openedPage c.disk name)

/-- The slots that come with the pages read. -/
noncomputable def slots : List Meas := c.chosen.flatMap fun q => c.slotsOf q.name

/-- What the pages read have themselves. -/
noncomputable def own : List Meas := c.chosen.flatMap fun q => c.ownOf q.name

/-- The pages have names of their own, and their files are made by the calls of a page. -/
structure OfPages (c : IntervalCall) : Prop where
  names : (c.pages.map PageInfo.name).Nodup
  named : ∀ q, q ∈ c.pages → q.name ≠ ""
  ordered : ∀ q, q ∈ c.pages → q.header.minTime ≤ q.header.maxTime
  query : c.fromTime ≤ c.toTime
  made : ∀ q, q ∈ c.pages → FromCalls (c.disk q.name)

end IntervalCall

section
variable {ids : List Id} {source flag : Flag} {fromTime toTime : Time} {pages : List PageInfo}
  {prev : Option PageInfo} {q : PageInfo}

theorem mem_beforeLast (h : beforeLast ids source flag fromTime toTime prev pages = some q) :
    prev = some q ∨ q ∈ pages := by
  induction pages generalizing prev with
  | nil => cases h
  | cons p pages ih =>
    unfold beforeLast at h
    rcases Option.or_eq_some_iff.mp h with h | ⟨-, h⟩
    · rcases ih h with h | h
      · exact .inr (List.mem_cons.mpr (.inl (Option.some.inj h).symm))
      · exact .inr (List.mem_cons_of_mem _ h)
    · split at h
      · exact .inl h
      · cases h

theorem mem_beforeFirst (h : beforeFirst ids source flag fromTime toTime prev pages = some q) :
    prev = some q ∨ q ∈ pages := by
  induction pages generalizing prev with
  | nil => cases h
  | cons p pages ih =>
    unfold beforeFirst at h
    split at h
    · split at h
      · exact .inl h
      · cases h
    · rcases ih h with h | h
      · exact .inr (List.mem_cons.mpr (.inl (Option.some.inj h).symm))
      · exact .inr (List.mem_cons_of_mem _ h)

theorem mem_handedOn (h : handedOn ids source flag fromTime toTime pages = some q) : q ∈ pages := by
  rcases Option.or_eq_some_iff.mp h with h | ⟨-, h⟩
  · exact (mem_beforeLast h).resolve_left (Option.some_ne_none q).symm
  · exact (mem_beforeFirst h).resolve_left (Option.some_ne_none q).symm

end

namespace IntervalCall
variable {c : IntervalCall} {name : String} {w : WriteWindow} {out : List Meas}

/-- The window handed on is that of the page before. -/
theorem OfPages.prevWw (h : c.OfPages) (hw : c.reader.prevWw c.disk = .ok w) : c.query.prevWw = w := by
  have hprev : c.reader.prevIntervalPage = _ := readInterval_handed h.ordered h.query
  rw [prevWw_eq, hprev] at hw
  unfold IntervalCall.query windowOf at *
  cases hh : handedOn c.ids c.source c.flag c.fromTime c.toTime c.pages with
  | none =>
    rw [hh] at hw
    exact Except.ok.inj hw
  | some q =>
    rw [hh, Option.map_some, Option.getD_some, if_pos (h.named q (mem_handedOn hh))] at hw
    cases hopen : openFile (c.disk q.name) true with
    | error e =>
      rw [hopen] at hw
      cases hw
    | ok p =>
      rw [hopen] at hw
      simp only [Option.map_some, Option.getD_some, openedPage_eq hopen]
      exact Except.ok.inj hw

/-- What the reader of a page delivers. -/
theorem OfPages.pageDelivers (h : c.OfPages) (hname : name ∈ c.pages.map PageInfo.name)
    (hd : c.reader.PageDelivers readSize c.disk name out) :
    out = c.slotsOf name ++ c.ownOf name ∧ OwnRead c.query c.fromTime c.toTime (openedPage c.disk name) := by
  obtain ⟨q, hmem, rfl⟩ := List.mem_map.mp hname
  obtain ⟨cr, hc, -⟩ := id hd
  obtain ⟨p, hopen, hc⟩ := bind_ok hc
  obtain ⟨w, hw, -⟩ := bind_ok hc
  obtain ⟨⟨fsize, log, recs, hp⟩, hnil⟩ := (h.made q hmem).posted hopen
  have hquery : c.query = ⟨c.ids, c.source, c.flag, w⟩ :=
    congrArg (PageReader.mk c.ids c.source c.flag) (h.prevWw hw)
  unfold slotsOf ownOf
  rw [hquery, openedPage_eq hopen]
  exact pageDelivers_parts rfl hopen hw hp hnil hd

/-- And that of the storage, page by page. -/
theorem OfPages.delivers (h : c.OfPages) (hd : c.reader.Delivers readSize c.disk out) :
    out = c.schedule.flatMap (fun name => c.slotsOf name ++ c.ownOf name) ∧
      ∀ name, name ∈ c.schedule → OwnRead c.query c.fromTime c.toTime (openedPage c.disk name) := by
  obtain ⟨outs, hpages, rfl⟩ := (StorageReader.delivers_iff rfl).mp hd
  have hmem : ∀ name, name ∈ c.schedule → name ∈ c.pages.map PageInfo.name := by
    intro name hname
    unfold schedule at hname
    rw [readInterval_pages] at hname
    rcases mem_visits hname with hname | ⟨q, p, rest, hnone, -⟩
    · exact hname
    · cases hnone
  have houts : List.Forall₂ (c.reader.PageDelivers readSize c.disk) c.schedule outs := hpages
  clear hd hpages
  generalize c.schedule = names at houts hmem ⊢
  induction houts with
  | nil => exact ⟨rfl, fun name hname => absurd hname List.not_mem_nil⟩
  | @cons name out names outs hpage _ ih =>
    obtain ⟨hname, hmem⟩ := List.forall_mem_cons.mp hmem
    obtain ⟨rfl, hown⟩ := h.pageDelivers hname hpage
    obtain ⟨hrest, hall⟩ := ih hmem
    rw [List.flatten_cons, hrest, List.flatMap_cons]
    exact ⟨rfl, List.forall_mem_cons.mpr ⟨hown, hall⟩⟩

/-- Where no page is scheduled twice: the slots, and what the pages have themselves, in some order. -/
theorem OfPages.delivers_perm (h : c.OfPages) (hnodup : c.schedule.Nodup) (hd : c.reader.Delivers readSize c.disk out) :
    out.Perm (c.slots ++ c.own) ∧
      ∀ q, q ∈ c.chosen → OwnRead c.query c.fromTime c.toTime (openedPage c.disk q.name) := by
  obtain ⟨hout, hown⟩ := h.delivers hd
  have hperm : c.schedule.Perm (c.chosen.map PageInfo.name) := by
    unfold schedule at hnodup ⊢
    rw [readInterval_pages] at hnodup ⊢
    exact visits_perm h.ordered h.query h.names hnodup
  constructor
  · have hall := hperm.flatMap_right fun name => c.slotsOf name ++ c.ownOf name
    rw [← hout, List.flatMap_map] at hall
    exact hall.trans (List.flatMap_append_perm _ _ _).symm
  · exact fun q hq => hown _ (hperm.mem_iff.mpr (List.mem_map_of_mem hq))

end IntervalCall

/-! ### Once -/

/-- Nothing of `stored` is delivered more often than it is stored. -/
def Once (stored out : List Meas) : Prop := ∀ m, m ∈ stored →
  out.countP (fun x => decide (SameMeas x m)) ≤ stored.countP fun x => decide (SameMeas x m)

instance (stored out : List Meas) : Decidable (Once stored out) := by
  unfold Once
  infer_instance

/-- No two are the same. -/
def Distinct (stored : List Meas) : Prop := stored.Pairwise fun a b => ¬ SameMeas a b

instance (stored : List Meas) : Decidable (Distinct stored) := by
  unfold Distinct
  infer_instance

theorem countP_pos {ms : List Meas} {m : Meas} :
    0 < ms.countP (fun x => decide (SameMeas x m)) ↔ ∃ x, x ∈ ms ∧ SameMeas x m := by
  rw [List.countP_pos_iff]
  simp

theorem Distinct.countP_le {ms : List Meas} (h : Distinct ms) (m : Meas) :
    ms.countP (fun x => decide (SameMeas x m)) ≤ 1 := by
  induction ms with
  | nil => exact Nat.zero_le _
  | cons a ms ih =>
    obtain ⟨ha, hms⟩ := List.pairwise_cons.mp h
    rw [List.countP_cons]
    by_cases hsame : SameMeas a m
    · have hnone : ms.countP (fun x => decide (SameMeas x m)) = 0 := by
        by_contra hne
        obtain ⟨x, hx, hxm⟩ := countP_pos.mp (Nat.pos_of_ne_zero hne)
        exact ha x hx (hsame.trans hxm.symm)
      rw [hnone, if_pos (decide_eq_true hsame)]
    · rw [if_neg (by simpa using hsame)]
      exact ih hms

namespace IntervalCall

/-- No page is scheduled twice, and the reader delivers no measurement more often than it lies on the pages. -/
def ReadOnce (c : IntervalCall) : Prop :=
  c.schedule.Nodup ∧ ∀ out, c.reader.Delivers readSize c.disk out → Once c.values out

/-- A page ends with the beginning of the query, and the next one, after a gap, schedules it again. -/
def Repeats (c : IntervalCall) : Prop := ∃ i q p, c.pages[i]? = some q ∧ c.pages[i + 1]? = some p ∧
  Again c.ids c.source c.flag c.fromTime c.toTime q p

/-- A measurement of the pages stands in one slot at most of those that come with the pages read, and in none if a
page read has it for the query itself. A page whose index is not settled is searched for no position twice. -/
structure Apart (c : IntervalCall) : Prop where
  slots : ∀ m, m ∈ c.values → c.slots.countP (fun x => decide (SameMeas x m)) ≤ 1
  own : ∀ m, m ∈ c.values → (∃ x, x ∈ c.slots ∧ SameMeas x m) → ∀ x, x ∈ c.own → ¬ SameMeas x m
  positions : ∀ q, q ∈ c.chosen → ¬ Index.Settled (openedPage c.disk q.name).index.tree c.fromTime →
    (c.positionsOf q.name).Nodup

section
variable {c : IntervalCall} {out : List Meas}

/-- What the pages have themselves is part of what lies on them. -/
theorem Apart.own_countP_le (ha : c.Apart) (f : Meas → Bool)
    (hown : ∀ q, q ∈ c.chosen → OwnRead c.query c.fromTime c.toTime (openedPage c.disk q.name)) :
    c.own.countP f ≤ c.values.countP f := by
  have hpart : (c.chosen.map fun q => (c.ownOf q.name).countP f).sum ≤
      (c.chosen.map fun q => (Page.values (openedPage c.disk q.name)).countP f).sum := by
    refine List.sum_le_sum fun q hq => ((hown q hq).subperm ?_).countP_le f
    by_cases hs : Index.Settled (openedPage c.disk q.name).index.tree c.fromTime
    · exact (hown q hq).apart hs
    · exact ha.positions q hq hs
  have hsub : (c.chosen.flatMap fun q => Page.values (openedPage c.disk q.name)).countP f ≤ c.values.countP f :=
    ((chosenPages_sublist none c.pages).flatMap fun q => Page.values (openedPage c.disk q.name)).countP_le
  unfold IntervalCall.own
  rw [List.countP_flatMap] at hsub ⊢
  exact hpart.trans hsub

/-- What comes by slots that are apart and from the pages is delivered once. -/
theorem Apart.once (ha : c.Apart) (hperm : out.Perm (c.slots ++ c.own))
    (hown : ∀ q, q ∈ c.chosen → OwnRead c.query c.fromTime c.toTime (openedPage c.disk q.name)) :
    Once c.values out := by
  intro m hm
  have hle := ha.own_countP_le (fun x => decide (SameMeas x m)) hown
  rw [hperm.countP_eq, List.countP_append]
  by_cases hslot : ∃ x, x ∈ c.slots ∧ SameMeas x m
  · have hnone : c.own.countP (fun x => decide (SameMeas x m)) = 0 := by
      by_contra hne
      obtain ⟨x, hx, hxm⟩ := countP_pos.mp (Nat.pos_of_ne_zero hne)
      exact ha.own m hm hslot x hx hxm
    have hone := ha.slots m hm
    have hpos := countP_pos.mpr ⟨m, hm, SameMeas.refl m⟩
    omega
  · have hnone := mt countP_pos.mp hslot
    omega

/-- A position searched for twice is put out twice. -/
theorem two_le_own {q : PageInfo} (hq : q ∈ c.chosen)
    (hown : OwnRead c.query c.fromTime c.toTime (openedPage c.disk q.name)) (h : ¬ (c.positionsOf q.name).Nodup) :
    ∃ m, m ∈ c.values ∧ 2 ≤ c.own.countP fun x => decide (SameMeas x m) := by
  obtain ⟨i, hi⟩ := List.exists_duplicate_iff_not_nodup.mpr h
  obtain ⟨hlt, hread⟩ := hown.positions i hi.mem
  obtain ⟨m, hm⟩ : ∃ m, (openedPage c.disk q.name).valueAt i = m := ⟨_, rfl⟩
  refine ⟨m, List.mem_flatMap.mpr ⟨q, (chosenPages_sublist none c.pages).subset hq, ?_⟩, ?_⟩
  · refine List.mem_filterMap.mpr ⟨i, List.mem_range.mpr hlt, ?_⟩
    rw [hread, hm]
    rfl
  · have htwo : [m, m].Sublist ((c.positionsOf q.name).map (openedPage c.disk q.name).valueAt) := by
      have := (List.duplicate_iff_sublist.mp hi).map (openedPage c.disk q.name).valueAt
      rwa [List.map_cons, List.map_cons, List.map_nil, hm] at this
    have hpage : [m, m].Sublist (c.ownOf q.name) := htwo.trans (List.sublist_append_right _ _)
    have hall : [m, m].Sublist c.own := hpage.trans (List.sublist_flatten_of_mem (List.mem_map_of_mem hq))
    have hcount := hall.countP_le (p := fun x => decide (SameMeas x m))
    simpa [SameMeas.refl] using hcount

/-- If all is delivered once, of measurements that differ, the slots are apart. -/
theorem apart_of_once (hperm : out.Perm (c.slots ++ c.own))
    (hown : ∀ q, q ∈ c.chosen → OwnRead c.query c.fromTime c.toTime (openedPage c.disk q.name))
    (hdistinct : Distinct c.values) (h : Once c.values out) : c.Apart := by
  have hone : ∀ m, m ∈ c.values → c.slots.countP (fun x => decide (SameMeas x m)) +
      c.own.countP (fun x => decide (SameMeas x m)) ≤ 1 := by
    intro m hm
    have hle := h m hm
    rw [hperm.countP_eq, List.countP_append] at hle
    exact hle.trans (hdistinct.countP_le m)
  refine ⟨fun m hm => ?_, fun m hm hslot x hx hxm => ?_, fun q hq _ => ?_⟩
  · exact (Nat.le_add_right ..).trans (hone m hm)
  · have hslots := countP_pos.mpr hslot
    have howns := countP_pos.mpr ⟨x, hx, hxm⟩
    have := hone m hm
    omega
  · by_contra htwice
    obtain ⟨m, hm, htwo⟩ := two_le_own hq (hown q hq) htwice
    have := hone m hm
    omega

end
end IntervalCall

/-! ### Queries over a few files -/

/-- A closed page of two measurements at most. -/
def closedPage (ms : List Meas) : Except Fault PageFile := do
  let res ← appendAll [.array ms] (create (calcSize 2))
  res.2.close

theorem FromCalls.closedPage {ms : List Meas} {f : PageFile} (hf : closedPage ms = .ok f) : FromCalls f := by
  obtain ⟨⟨log, p⟩, hrun, hclose⟩ := bind_ok hf
  exact ⟨_, _, p, Used.create.appendAll hrun, .inl hclose⟩

/-- A query for all ids over page files with their names. -/
def callOver (files : List (String × PageFile)) (fromTime toTime : Time) : IntervalCall :=
  ⟨fun name => (files.lookup name).getD (onDisk (create 0)), files.map fun x => ⟨x.2.header, x.1⟩, [], 0, 0,
    fromTime, toTime⟩

theorem callOver_ofPages {files : List (String × PageFile)} {fromTime toTime : Time} (hmade : ∀ x, x ∈ files → FromCalls x.2)
    (hnames : (files.map Prod.fst).Nodup) (hnamed : "" ∉ files.map Prod.fst)
    (hle : ∀ x, x ∈ files → x.2.header.minTime ≤ x.2.header.maxTime) (hq : fromTime ≤ toTime) :
    (callOver files fromTime toTime).OfPages := by
  have hname : (callOver files fromTime toTime).pages.map PageInfo.name = files.map Prod.fst := List.map_map
  constructor
  case names => exact hname ▸ hnames
  case named => exact fun q hmem he => hnamed (hname ▸ he ▸ List.mem_map_of_mem hmem)
  case ordered => exact List.forall_mem_map.mpr hle
  case query => exact hq
  case made =>
    intro q _
    show FromCalls ((files.lookup q.name).getD _)
    cases h : files.lookup q.name with
    | none => exact ⟨0, [], create 0, .create, .inr ⟨rfl, rfl⟩⟩
    | some f =>
      obtain ⟨before, after, rfl, -⟩ := List.lookup_eq_some_iff.mp h
      exact hmade (q.name, f) (List.mem_append_right _ List.mem_cons_self)

/-- What a reader delivers is what its calls in all give. -/
theorem delivers_readAll {r : StorageReader} {disk : String → PageFile} {fuel : Nat} {out all : List Meas}
    (hd : r.Delivers readSize disk out) (hread : r.readAll disk fuel = .ok all) : out = all := by
  obtain ⟨steps, hd⟩ := hd
  have hmore := StorageReader.readAll_more hread (le_max_right steps fuel)
  exact Except.ok.inj ((hd _ (le_max_left steps fuel)).symm.trans hmore)

/-! ### The property of a call -/

open IntervalCall in
/-- No page is scheduled twice and nothing is delivered twice if no page that ends with the beginning of the query
is scheduled again and the slots are apart; and only then, as far as the measurements on the pages differ and
the reader comes to its end. -/
theorem readOnce_iff (c : IntervalCall) (h : c.OfPages) :
    (¬ c.Repeats ∧ c.Apart → c.ReadOnce) ∧
    (Distinct c.values → (∃ out, c.reader.Delivers readSize c.disk out) → (c.ReadOnce ↔ ¬ c.Repeats ∧ c.Apart)) := by
  have hschedule : c.schedule.Nodup ↔ ¬ c.Repeats := by
    unfold schedule Repeats
    rw [readInterval_pages]
    exact schedule_nodup_iff c.ids c.source c.flag h.query h.ordered h.names
  unfold ReadOnce
  rw [← hschedule]
  have henough : c.schedule.Nodup ∧ c.Apart →
      c.schedule.Nodup ∧ ∀ out, c.reader.Delivers readSize c.disk out → Once c.values out := by
    rintro ⟨hnodup, ha⟩
    refine ⟨hnodup, fun out hd => ?_⟩
    obtain ⟨hperm, hown⟩ := h.delivers_perm hnodup hd
    exact ha.once hperm hown
  refine ⟨henough, fun hdistinct ⟨out, hd⟩ => ⟨?_, henough⟩⟩
  rintro ⟨hnodup, honce⟩
  obtain ⟨hperm, hown⟩ := h.delivers_perm hnodup hd
  exact ⟨hnodup, apart_of_once hperm hown hdistinct (honce out hd)⟩

open IntervalCall in
/-- A query that begins on the second of three pages: what stands in a slot of the window of the first comes with the
second, and each measurement is delivered once. -/
theorem readOnce_iff_three : ∃ c : IntervalCall, c.pages.length = 3 ∧ c.OfPages ∧ Distinct c.values ∧ c.ReadOnce ∧
    (¬ c.Repeats ∧ c.Apart) ∧
    c.reader.readAll c.disk 9 = .ok [.plain 1 1, .plain 2 4, .plain 3 8, .plain 4 12] := by
  obtain ⟨f, hf, hok⟩ := exists_ok (x := closedPage [.plain 1 1]) (p := fun f : PageFile =>
    (closedPage [.plain 2 4, .plain 3 8]).toOption.any fun g : PageFile =>
      (closedPage [.plain 4 12]).toOption.any fun h : PageFile =>
        let files := [("1_0.page", f), ("1_1.page", g), ("1_2.page", h)]
        let c := callOver files 6 20
        decide ((∀ x, x ∈ files → x.2.header.minTime ≤ x.2.header.maxTime) ∧ Distinct c.values ∧ c.schedule.Nodup ∧
          Once c.values [.plain 1 1, .plain 2 4, .plain 3 8, .plain 4 12] ∧
          (c.reader.readAll c.disk 9).toOption = some [.plain 1 1, .plain 2 4, .plain 3 8, .plain 4 12]))
    (by decide +kernel)
  obtain ⟨g, hg, hok⟩ := exists_ok hok
  obtain ⟨h, hh, hok⟩ := exists_ok hok
  obtain ⟨hle, hdistinct, hnodup, honce, hread⟩ := of_decide_eq_true hok
  have hmade : ∀ x, x ∈ [("1_0.page", f), ("1_1.page", g), ("1_2.page", h)] → FromCalls x.2 := by
    simpa using ⟨FromCalls.closedPage hf, FromCalls.closedPage hg, FromCalls.closedPage hh⟩
  have hpages := callOver_ofPages hmade (by simp) (by simp) hle (by decide : (6 : Time) ≤ 20)
  have hread := toOption_eq_some.mp hread
  have hro : ReadOnce _ := ⟨hnodup, fun out hd => delivers_readAll hd hread ▸ honce⟩
  refine ⟨_, rfl, hpages, hdistinct, hro, ?_, hread⟩
  exact ((readOnce_iff _ hpages).2 hdistinct ⟨_, 9, fun fuel hfuel => StorageReader.readAll_more hread hfuel⟩).mp hro

open IntervalCall in
/-- Pages with one measurement each, of the times 10 and 20: a query for the time 10 reads the first page twice,
and puts its measurement out twice. -/
theorem readOnce_twice : ∃ c : IntervalCall, c.OfPages ∧ ¬ c.ReadOnce ∧
    c.schedule = ["1_0.page", "1_0.page", "1_1.page"] ∧
    c.values = [.plain 1 10, .plain 2 20] ∧ c.reader.readAll c.disk 9 = .ok [.plain 1 10, .plain 1 10] := by
  obtain ⟨f, hf, hok⟩ := exists_ok (x := closedPage [.plain 1 10]) (p := fun f : PageFile =>
    (closedPage [.plain 2 20]).toOption.any fun g : PageFile =>
      let files := [("1_0.page", f), ("1_1.page", g)]
      let c := callOver files 10 10
      decide ((∀ x, x ∈ files → x.2.header.minTime ≤ x.2.header.maxTime) ∧
        c.schedule = ["1_0.page", "1_0.page", "1_1.page"] ∧ c.values = [.plain 1 10, .plain 2 20] ∧
        (c.reader.readAll c.disk 9).toOption = some [.plain 1 10, .plain 1 10]))
    (by decide +kernel)
  obtain ⟨g, hg, hok⟩ := exists_ok hok
  obtain ⟨hle, hschedule, hvalues, hread⟩ := of_decide_eq_true hok
  have hmade : ∀ x, x ∈ [("1_0.page", f), ("1_1.page", g)] → FromCalls x.2 := by
    simpa using ⟨FromCalls.closedPage hf, FromCalls.closedPage hg⟩
  refine ⟨_, callOver_ofPages hmade (by simp) (by simp) hle (le_refl (10 : Time)), fun h => ?_, hschedule, hvalues,
    toOption_eq_some.mp hread⟩
  exact absurd (hschedule ▸ h.1) (by decide)

open IntervalCall in
/-- Pages of the times 1 to 10 and 4 to 20, and a query from 5 to 30: each page is scheduled once, and the
measurement of the time 10 comes with each from the window and from its own page. -/
theorem readOnce_thrice : ∃ c : IntervalCall, c.OfPages ∧ c.schedule.Nodup ∧ ¬ c.ReadOnce ∧
    c.values = [.plain 1 1, .plain 9 10, .plain 2 4, .plain 2 20] ∧ c.reader.readAll c.disk 9 =
      .ok [.plain 9 10, .plain 1 1, .plain 9 10, .plain 1 1, .plain 9 10, .plain 2 4, .plain 2 20] := by
  obtain ⟨f, hf, hok⟩ := exists_ok (x := closedPage [.plain 1 1, .plain 9 10]) (p := fun f : PageFile =>
    (closedPage [.plain 2 4, .plain 2 20]).toOption.any fun g : PageFile =>
      let files := [("1_0.page", f), ("1_1.page", g)]
      let c := callOver files 5 30
      decide ((∀ x, x ∈ files → x.2.header.minTime ≤ x.2.header.maxTime) ∧ c.schedule.Nodup ∧
        c.values = [.plain 1 1, .plain 9 10, .plain 2 4, .plain 2 20] ∧
        (c.reader.readAll c.disk 9).toOption =
          some [.plain 9 10, .plain 1 1, .plain 9 10, .plain 1 1, .plain 9 10, .plain 2 4, .plain 2 20]))
    (by decide +kernel)
  obtain ⟨g, hg, hok⟩ := exists_ok hok
  obtain ⟨hle, hnodup, hvalues, hread⟩ := of_decide_eq_true hok
  have hread := toOption_eq_some.mp hread
  have hmade : ∀ x, x ∈ [("1_0.page", f), ("1_1.page", g)] → FromCalls x.2 := by
    simpa using ⟨FromCalls.closedPage hf, FromCalls.closedPage hg⟩
  refine ⟨_, callOver_ofPages hmade (by simp) (by simp) hle (by decide : (5 : Time) ≤ 30), hnodup, fun h => ?_,
    hvalues, hread⟩
  have honce := h.2 _ ⟨9, fun fuel hfuel => StorageReader.readAll_more hread hfuel⟩
  rw [hvalues] at honce
  exact absurd honce (by decide)

end Nkvdb.Storage
