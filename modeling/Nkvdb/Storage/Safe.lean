import Nkvdb.Page.Survive
import Nkvdb.Storage.Directory
import Nkvdb.Storage.Reached
import Nkvdb.Storage.Schedule

/-! Queries of storages with and without measurements.

A page without a measurement has no reader, and the storage's reader uses it all the same. Such a
page is scheduled where its zeroed header meets the query, and is met with in an empty storage alone
(`queries_served_iff`). -/
namespace Nkvdb

/-! ### One page -/

namespace CurrentReader

/-- After this call of `readNext` and at most `n` more the reader is at its end, or one has thrown. -/
inductive Ends : Nat → CurrentReader → Prop
  | throws {n : Nat} {c : CurrentReader} {e : Fault} :
      c.readNextBy PageReaderInterval.readSize = .error e → e.Thrown → Ends n c
  | last {n : Nat} {c c' : CurrentReader} {out : List Meas} :
      c.readNextBy PageReaderInterval.readSize = .ok (out, c') → c'.isEnd = true → Ends n c
  | next {n : Nat} {c c' : CurrentReader} {out : List Meas} :
      c.readNextBy PageReaderInterval.readSize = .ok (out, c') → c'.isEnd = false → Ends n c' → Ends (n + 1) c

section
variable {fsize : U64} {log : List Meas} {recs : List IndexRecord} {r : PageReaderInterval} {p : Page} {e : Fault}

theorem interval_error (h : r.readNext p = .error e) :
    (CurrentReader.interval r p).readNextBy PageReaderInterval.readSize = .error e := by
  have h : r.readNextBy PageReaderInterval.readSize p = .error e := h
  simp only [readNextBy, h, bind, Except.bind]

theorem interval_ok {out : List Meas} {r' : PageReaderInterval} {p' : Page} (h : r.readNext p = .ok (out, r', p')) :
    (CurrentReader.interval r p).readNextBy PageReaderInterval.readSize = .ok (out, .interval r' p') := by
  have h : r.readNextBy PageReaderInterval.readSize p = .ok (out, r', p') := h
  simp only [readNextBy, h, bind, Except.bind]
  rfl

theorem ends_of_sound (hs : r.Sound p) (hp : Page.Posted fsize log recs p) : ∃ n, Ends n (.interval r p) := by
  induction hw : r.work using Nat.strong_induction_on generalizing r p with
  | h w ih =>
    by_cases he : r.isEnd = true
    · exact ⟨0, .last (interval_ok (if_pos he)) he⟩
    rcases PageReaderInterval.readNext_cases hp.logged hs he with ⟨e, herr, ht⟩ | ⟨out, r', ix, hok, hix, hs', hwork⟩
    · exact ⟨0, .throws (interval_error herr) ht⟩
    · obtain ⟨n, hn⟩ := ih r'.work (by omega) hs' (hp.searched hix) rfl
      cases he' : r'.isEnd with
      | true => exact ⟨0, .last (interval_ok hok) he'⟩
      | false => exact ⟨n + 1, .next (interval_ok hok) he' hn⟩

theorem ends_of_watches (hw : r.Watches) (hp : Page.Posted fsize log recs p) (hpos : 0 < p.header.writePos)
    (hs : r.Spared p) : Ends 0 (.interval r p) := by
  rcases hw.readNext_spared hp hpos hs with ⟨e, herr, ht⟩ | ⟨out, r', hok, he⟩
  · exact .throws (interval_error herr) ht
  · exact .last (interval_ok hok) he

theorem ends_of_timePoint {r : PageReaderTimePoint} (hp : Page.Posted fsize log recs p) : Ends 0 (.timePoint r p) := by
  by_cases he : r.isEnd = true
  · have hok : (CurrentReader.timePoint r p).readNextBy PageReaderInterval.readSize = .ok ([], .timePoint r p) := by
      simp only [readNextBy, PageReaderTimePoint.readNext, he, if_true, bind, Except.bind]
      rfl
    exact .last hok he
  · cases hread : r.timePointRead r.timePoint p with
    | error e =>
      refine .throws ?_ (Page.timePointRead_thrown hp.logged hread)
      simp only [readNextBy, PageReaderTimePoint.readNext, if_neg he, hread, bind, Except.bind]
    | ok x =>
      have hok : (CurrentReader.timePoint r p).readNextBy PageReaderInterval.readSize =
          .ok (x.1, .timePoint {r with wwWindowReaderReadEnd := true} x.2) := by
        simp only [readNextBy, PageReaderTimePoint.readNext, if_neg he, hread, bind, Except.bind]
        rfl
      exact .last hok rfl

end
end CurrentReader

/-! ### All pages -/

namespace StorageReader
open CurrentReader
variable {disk : String → PageFile} {r : StorageReader} {c : CurrentReader} {e : Fault} {fuel n steps : Nat}

/-- Whatever goes wrong, it is no null reader, and no want of more calls than so many. -/
def Fine (disk : String → PageFile) (steps : Nat) (r : StorageReader) : Prop :=
  ∀ fuel e, r.readAll disk fuel = .error e → e ≠ .nullReader ∧ (e = .outOfFuel → fuel ≤ steps)

/-- `readAll` uses no null reader, and ends within some number of calls. -/
structure Safe (disk : String → PageFile) (r : StorageReader) : Prop where
  reader : ∀ fuel, r.readAll disk fuel ≠ .error .nullReader
  ends : ∃ steps, ∀ fuel, steps ≤ fuel → r.readAll disk fuel ≠ .error .outOfFuel

theorem Fine.safe (h : r.Fine disk steps) : r.Safe disk := by
  constructor
  case reader => exact fun fuel hrun => (h fuel _ hrun).1 rfl
  case ends =>
    refine ⟨steps + 1, fun fuel hle hrun => ?_⟩
    have := (h fuel _ hrun).2 rfl
    omega

/-- The calls from one of the page's reader on. -/
def readFrom (disk : String → PageFile) (fuel : Nat) (c : CurrentReader) (r : StorageReader) :
    Except Fault (List Meas) := do
  let (out, c) ← c.readNextBy PageReaderInterval.readSize
  let rest ← {r with currentReader := if c.isEnd then none else some c}.readAll disk fuel
  return out ++ rest

theorem readAll_end (he : r.isEnd = true) : r.readAll disk (fuel + 1) = .ok [] := by
  unfold readAll readAllBy
  exact if_pos he

theorem readAll_some (hc : r.currentReader = some c) (he : r.isEnd = false) :
    r.readAll disk (fuel + 1) = r.readFrom disk fuel c := by
  unfold readAll readAllBy readFrom readNextBy current
  simp only [he, hc, Bool.false_eq_true, if_false, bind, Except.bind, pure, Except.pure]
  cases c.readNextBy PageReaderInterval.readSize with
  | error e => rfl
  | ok x => rfl

theorem readAll_open {name : String} {pages : List String} (hc : r.currentReader = none)
    (hp : r.pages = name :: pages) : r.readAll disk (fuel + 1) =
      r.openPage disk name >>= fun c => {r with pages := pages}.readFrom disk fuel c := by
  have he : r.isEnd = false := by
    unfold isEnd
    rw [hp]
    rfl
  unfold readAll readAllBy readFrom readNextBy current
  simp only [he, hc, hp, Bool.false_eq_true, if_false, bind, Except.bind, pure, Except.pure]
  cases r.openPage disk name with
  | error e => rfl
  | ok c =>
    simp only []
    cases c.readNextBy PageReaderInterval.readSize with
    | error e => rfl
    | ok x => rfl

theorem Fine.readFrom (h : {r with currentReader := none}.Fine disk steps) (hc : Ends n c)
    (hrun : r.readFrom disk fuel c = .error e) : e ≠ .nullReader ∧ (e = .outOfFuel → fuel ≤ steps + n) := by
  induction hc generalizing fuel with
  | @throws n c e' herr ht =>
    simp only [StorageReader.readFrom, herr, bind, Except.bind] at hrun
    obtain rfl := Except.error.inj hrun
    exact ⟨ht.1, fun he => absurd he ht.2⟩
  | @last n c c' out hok hend =>
    simp only [StorageReader.readFrom, hok, hend, if_true, bind, Except.bind] at hrun
    rcases bind_error hrun with hrun | ⟨rest, -, hrun⟩
    · obtain ⟨hnull, hfuel⟩ := h fuel e hrun
      exact ⟨hnull, fun he => (hfuel he).trans (Nat.le_add_right ..)⟩
    · cases hrun
  | @next n c c' out hok hend _ ih =>
    simp only [StorageReader.readFrom, hok, hend, Bool.false_eq_true, if_false, bind, Except.bind] at hrun
    rcases bind_error hrun with hrun | ⟨rest, -, hrun⟩
    · cases fuel with
      | zero =>
        obtain rfl := Except.error.inj hrun
        exact ⟨nofun, fun _ => Nat.zero_le _⟩
      | succ fuel =>
        have hnot : {r with currentReader := some c'}.isEnd = false := by
          unfold StorageReader.isEnd
          split
          · exact hend
          · rfl
        rw [readAll_some rfl hnot] at hrun
        obtain ⟨hnull, hfuel⟩ := ih hrun
        exact ⟨hnull, fun he => by have := hfuel he; omega⟩
    · cases hrun

/-- A reader of pages that all open to readers that end. -/
theorem fine_of_pages {pages : List String} (hp : r.pages = pages) (hc : r.currentReader = none)
    (h : ∀ name, name ∈ pages → (∃ e, r.openPage disk name = .error e ∧ e.Thrown) ∨
      ∃ c n, r.openPage disk name = .ok c ∧ Ends n c) : ∃ steps, r.Fine disk steps := by
  induction pages generalizing r with
  | nil =>
    refine ⟨0, fun fuel e hrun => ?_⟩
    cases fuel with
    | zero =>
      obtain rfl := Except.error.inj hrun
      exact ⟨nofun, fun _ => le_rfl⟩
    | succ fuel =>
      have he : r.isEnd = true := by
        unfold isEnd
        rw [hp, hc]
        rfl
      rw [readAll_end he] at hrun
      cases hrun
  | cons name pages ih =>
    obtain ⟨hname, hpages⟩ := List.forall_mem_cons.mp h
    obtain ⟨steps, hrest⟩ := @ih {r with pages := pages} rfl hc hpages
    have hzero : ∀ {e bound}, r.readAll disk 0 = .error e → e ≠ .nullReader ∧ (e = .outOfFuel → 0 ≤ bound) := by
      intro e bound hrun
      obtain rfl := Except.error.inj hrun
      exact ⟨nofun, fun _ => Nat.zero_le _⟩
    rcases hname with ⟨e', herr, ht⟩ | ⟨c, n, hok, hends⟩
    · refine ⟨0, fun fuel e hrun => ?_⟩
      cases fuel with
      | zero => exact hzero hrun
      | succ fuel =>
        rw [readAll_open hc hp, herr] at hrun
        obtain rfl := Except.error.inj hrun
        exact ⟨ht.1, fun he => absurd he ht.2⟩
    · refine ⟨steps + n + 1, fun fuel e hrun => ?_⟩
      cases fuel with
      | zero => exact hzero hrun
      | succ fuel =>
        rw [readAll_open hc hp, hok] at hrun
        have hrest' : {({r with pages := pages} : StorageReader) with currentReader := none}.Fine disk steps := by
          rw [← hc]
          exact hrest
        obtain ⟨hnull, hfuel⟩ := hrest'.readFrom hends hrun
        exact ⟨hnull, fun he => Nat.succ_le_succ (hfuel he)⟩

/-! ### Opening a page -/

theorem update_thrown {m : Meas} {w : WriteWindow} (h : w.update m = .error e) : e.Thrown := by
  rcases WriteWindow.update_fault h with rfl | rfl <;> decide

theorem updateAll_thrown {ms : List Meas} {w : WriteWindow} (h : w.updateAll ms = .error e) : e.Thrown := by
  induction ms generalizing w with
  | nil => cases h
  | cons m ms ih =>
    rcases bind_error h with h | ⟨w', -, h⟩
    · exact update_thrown h
    · exact ih h

theorem load_thrown {file : Option (List Meas)} (h : WriteWindow.load file [] = .error e) : e.Thrown := by
  cases file with
  | none => cases h
  | some slots =>
    rcases bind_error h with h | ⟨w, -, h⟩
    · exact updateAll_thrown h
    · exact update_thrown h

theorem openFile_thrown {f : PageFile} (h : Page.openFile f true = .error e) : e.Thrown := by
  unfold Page.openFile at h
  simp only [Bool.not_true, Bool.false_eq_true, false_and, if_false] at h
  split at h
  · obtain rfl : Fault.pageFormat = e := Except.error.inj h
    decide
  · rcases bind_error h with h | ⟨w, -, h⟩
    · exact load_thrown h
    · cases h

theorem prevWw_thrown (h : r.prevWw disk = .error e) : e.Thrown := by
  unfold prevWw at h
  split at h
  · rcases bind_error h with h | ⟨p, -, h⟩
    · exact openFile_thrown h
    · cases h
  · cases h

/-- A page with a measurement opens to a reader that ends. -/
theorem openPage_ends {name : String} (hs : Storage.Shelf (disk name)) (hpos : (disk name).header.writePos ≠ 0) :
    (∃ e, r.openPage disk name = .error e ∧ e.Thrown) ∨ ∃ c n, r.openPage disk name = .ok c ∧ Ends n c := by
  obtain ⟨p, hopen, hproper, -⟩ := hs
  obtain ⟨fsize, log, recs, hposted⟩ := hproper.posted
  have hwp : p.header.writePos ≠ 0 := by
    rw [(Storage.openFile_header hopen).2.2.1]
    exact hpos
  unfold openPage
  rw [hopen]
  cases hw : r.prevWw disk with
  | error e =>
    refine .inl ⟨e, ?_, prevWw_thrown hw⟩
    simp only [bind, Except.bind]
  | ok w =>
    simp only [bind, Except.bind]
    by_cases htp : r.timePoint ≠ 0
    · rw [if_pos htp, Page.readInTimePoint, if_neg hwp]
      exact .inr ⟨_, 0, rfl, ends_of_timePoint hposted⟩
    rw [if_neg htp]
    cases hread : p.readInterval r.ids r.source r.flag r.fromTime r.toTime with
    | error e => exact .inl ⟨e, rfl, Page.readInterval_thrown hposted.logged hread⟩
    | ok x =>
      obtain ⟨preader, p'⟩ := x
      obtain ⟨preader, rfl⟩ := Page.readInterval_some hwp hread
      refine .inr ⟨.interval {preader with prevWw := w} p', ?_⟩
      rcases Page.readInterval_kinds hposted hread with ⟨hwatch, hmax, rfl⟩ | ⟨hs, ix, rfl, hix⟩
      · have hfrom := (Page.readInterval_reader hread).2.2
        have hw' : {preader with prevWw := w}.Watches :=
          ⟨hwatch.window, hwatch.list, hwatch.cur, hwatch.unread, hwatch.first⟩
        exact ⟨0, rfl, ends_of_watches hw' hposted (Nat.pos_of_ne_zero hwp) (.inl (hfrom ▸ hmax))⟩
      · have hs' : {preader with prevWw := w}.Sound {p with index := ix} :=
          ⟨hs.window, hs.inside, hs.cur, hs.list, hs.short⟩
        obtain ⟨n, hn⟩ := ends_of_sound hs' (hposted.searched hix)
        exact ⟨n, rfl, hn⟩

/-- Without a measurement the page has no reader. -/
theorem openPage_null {name : String} {p : Page} (hopen : Page.openFile (disk name) true = .ok p)
    (hpos : (disk name).header.writePos = 0) (hprev : r.prevIntervalPage = "") :
    r.openPage disk name = .error .nullReader := by
  have hwp : p.header.writePos = 0 := by
    rw [(Storage.openFile_header hopen).2.2.1]
    exact hpos
  have hw : r.prevWw disk = .ok [] := if_neg (not_not.mpr hprev)
  unfold openPage
  simp only [hopen, hw, bind, Except.bind]
  by_cases htp : r.timePoint ≠ 0
  · rw [if_pos htp, Page.readInTimePoint, if_pos hwp]
    rfl
  · simp only [if_neg htp, Page.readInterval, if_pos hwp]
    rfl

end StorageReader

namespace Storage
open StorageReader

/-! ### What is scheduled -/

section
variable {ids : List Id} {source flag : Flag} {fromTime toTime tp : Time} {p : PageInfo}

theorem mem_timePointLoop {prev : Option PageInfo} {pages : List PageInfo} {name : String}
    (h : name ∈ (timePointLoop ids source flag tp prev pages).pagesToRead) :
    name ∈ pages.map PageInfo.name ∨ ∃ q, prev = some q ∧ name = q.name := by
  induction pages generalizing prev with
  | nil => cases h
  | cons p pages ih =>
    have hself : name ∈ [p.name] → name ∈ (p :: pages).map PageInfo.name := fun hn =>
      List.mem_cons.mpr (.inl (List.mem_singleton.mp hn))
    have hrest : name ∈ (timePointLoop ids source flag tp (some p) pages).pagesToRead →
        name ∈ (p :: pages).map PageInfo.name := by
      intro hn
      rcases ih hn with hn | ⟨q, hq, rfl⟩
      · exact List.mem_cons_of_mem _ hn
      · exact hself (Option.some.inj hq ▸ List.mem_cons_self)
    unfold timePointLoop at h
    dsimp only at h
    split at h
    · exact .inl (hrest h)
    split at h
    · exact .inl (hself h)
    split at h
    · exact .inl (hself h)
    split at h
    next hgap =>
      cases prev with
      | none => exact absurd hgap.2 Bool.false_ne_true
      | some q => exact .inr ⟨q, rfl, List.mem_singleton.mp h⟩
    · exact .inl (hrest h)

theorem Blank.filteredOut (h : Blank p.header) : filteredOut ids source flag p.header = false := by
  unfold Storage.filteredOut
  simp [h.idFltr, h.flagFltr, h.srcFltr]

/-- The zeroed header meets the queries from 0 on. -/
theorem Blank.readInterval (h : Blank p.header) (hq : fromTime ≤ toTime) :
    Storage.readInterval ids source flag fromTime toTime [p] = ⟨if fromTime = 0 then [p.name] else [], ""⟩ := by
  unfold Storage.readInterval
  simp only [intervalLoop, h.filteredOut, Bool.false_eq_true, if_false]
  unfold visitInterval
  simp only [h.minTime, h.maxTime, Option.any_none, Bool.false_eq_true, and_false, if_false, List.nil_append]
  by_cases h0 : fromTime = 0
  · subst h0
    rw [if_pos rfl]
    by_cases hto : (0 : Time) ≤ 0 ∧ toTime ≤ 0
    · rw [if_pos hto]
    · have hlater : ¬ toTime ≤ 0 := fun hle => hto ⟨le_rfl, hle⟩
      simp only [lt_irrefl, hlater, and_false, false_and, if_false, le_refl, Fin.zero_le, and_self, if_true]
  · have hpos : 0 < fromTime := Fin.pos_of_ne_zero h0
    have hto : ¬ toTime ≤ 0 := not_le.mpr (hpos.trans_le hq)
    simp only [if_neg h0, hto, hpos.not_ge, not_lt.mpr hpos.le, and_false, false_and, if_false]

/-- And every time point. -/
theorem Blank.readInTimePoint (h : Blank p.header) :
    Storage.readInTimePoint ids source flag tp [p] = ⟨[p.name], ""⟩ := by
  unfold Storage.readInTimePoint timePointLoop
  simp only [h.filteredOut, h.minTime, h.maxTime, Bool.false_eq_true, if_false, Fin.zero_le, and_self, if_true]

end

/-! ### All queries -/

section
variable {S : TimeSort} {pm : PageManager} {r : StorageReader}

theorem Directory.mem_pageFiles (d : Directory pm) {name : String} (h : name ∈ d.pages.map PageInfo.name) :
    d.disk name ∈ pageFiles pm := by
  refine d.files.mem_iff.mp (List.mem_map_of_mem ?_)
  obtain ⟨q, hq, rfl⟩ := List.mem_map.mp h
  obtain ⟨n, hn, rfl⟩ := List.mem_map.mp hq
  exact hn

/-- A read is safe, and of a storage without a measurement it puts out nothing. -/
structure Served (d : Directory pm) (r : StorageReader) : Prop extends Safe d.disk r where
  nothing : ¬ Filled pm → ∃ steps, ∀ fuel, steps ≤ fuel → r.readAll d.disk fuel = .ok []

/-- With a measurement on every page all reads are. -/
theorem Orderly.served (h : Orderly pm) (hfilled : Filled pm) (d : Directory pm) (hcur : r.currentReader = none)
    (hpages : ∀ name, name ∈ r.pages → name ∈ d.pages.map PageInfo.name) : Served d r := by
  obtain ⟨steps, hfine⟩ := fine_of_pages rfl hcur fun name hname => by
    obtain ⟨hs, hpos⟩ := h.pages (d.mem_pageFiles (hpages name hname))
    exact openPage_ends hs (hpos hfilled)
  exact ⟨hfine.safe, fun hn => absurd hfilled hn⟩

theorem served_of_none {d : Directory pm} (hcur : r.currentReader = none) (hpages : r.pages = []) : Served d r := by
  have he : r.isEnd = true := by
    unfold StorageReader.isEnd
    rw [hpages, hcur]
    rfl
  have hrun : ∀ fuel, 1 ≤ fuel → r.readAll d.disk fuel = .ok [] := by
    intro fuel hf
    obtain ⟨fuel, rfl⟩ : ∃ n, fuel = n + 1 := ⟨fuel - 1, by omega⟩
    exact readAll_end he
  refine ⟨⟨fun fuel herr => ?_, 1, fun fuel hf herr => ?_⟩, fun _ => ⟨1, hrun⟩⟩
  · cases fuel with
    | zero => cases herr
    | succ fuel =>
      rw [hrun (fuel + 1) (Nat.succ_pos _)] at herr
      cases herr
  · rw [hrun fuel hf] at herr
    cases herr

/-- The one page of a storage without a measurement is blank, and has no reader. -/
theorem Orderly.unread (h : Orderly pm) (hn : ¬ Filled pm) (d : Directory pm) :
    ∃ p : PageInfo, d.pages = [p] ∧ Blank p.header ∧ ∀ r : StorageReader, r.currentReader = none → r.pages = [p.name] →
      r.prevIntervalPage = "" → r.readAll d.disk 1 = .error .nullReader := by
  obtain ⟨f, hfiles, hs, hpos, hblank⟩ := h.blank hn
  have hmap : d.names.map d.disk = [f] := List.perm_singleton.mp (hfiles ▸ d.files)
  obtain ⟨n, hnames, rfl⟩ := List.map_eq_singleton_iff.mp hmap
  have hpages : d.pages = [⟨(d.disk n).header, n⟩] := by
    unfold Directory.pages
    rw [hnames]
    rfl
  obtain ⟨q, hopen, -, -⟩ := hs
  refine ⟨_, hpages, hblank, fun r hcur hr hprev => ?_⟩
  rw [readAll_open hcur hr, openPage_null hopen hpos hprev]
  rfl

/-- Every read of a reachable storage is safe if a measurement lies on it; of one without, those of
intervals are that begin after 0, and those at time points are not. -/
theorem queries_served_iff (h : Reached S pm) (d : Directory pm) (ids : List Id) (source flag : Flag) :
    (∀ fromTime toTime, fromTime ≤ toTime →
      (Served d (intervalReader ids source flag fromTime toTime d.pages) ↔ Filled pm ∨ 0 < fromTime)) ∧
      ∀ tp, 0 < tp → (Served d (timePointReader ids source flag tp d.pages) ↔ Filled pm) := by
  have ho := h.orderly
  by_cases hfilled : Filled pm
  · refine ⟨fun fromTime toTime _ => iff_of_true (ho.served hfilled d rfl fun name hname => ?_) (.inl hfilled),
      fun tp _ => iff_of_true (ho.served hfilled d rfl fun name hname => ?_) hfilled⟩
    · have hname : name ∈ (readInterval ids source flag fromTime toTime d.pages).pagesToRead := hname
      rw [readInterval_pages] at hname
      rcases mem_visits hname with hname | ⟨q, _, _, hq, _⟩
      · exact hname
      · cases hq
    · rcases mem_timePointLoop hname with hname | ⟨q, hq, _⟩
      · exact hname
      · cases hq
  obtain ⟨p, hpages, hblank, hnull⟩ := ho.unread hfilled d
  have hnever : ∀ r : StorageReader, r.currentReader = none → r.pages = [p.name] → r.prevIntervalPage = "" →
      ¬ Served d r := fun r hcur hr hprev hserved => hserved.reader 1 (hnull r hcur hr hprev)
  refine ⟨fun fromTime toTime hq => ?_, fun tp htp => ?_⟩
  · have hsel := @Blank.readInterval ids source flag fromTime toTime p hblank hq
    rw [← hpages] at hsel
    by_cases h0 : fromTime = 0
    · rw [if_pos h0] at hsel
      refine iff_of_false (hnever _ rfl ?_ ?_) (not_or.mpr ⟨hfilled, fun hlt => hlt.ne' h0⟩)
      · exact congrArg Selection.pagesToRead hsel
      · exact congrArg Selection.prevIntervalPage hsel
    · rw [if_neg h0] at hsel
      exact iff_of_true (served_of_none rfl (congrArg Selection.pagesToRead hsel)) (.inr (Fin.pos_of_ne_zero h0))
  · have hsel := @Blank.readInTimePoint ids source flag tp p hblank
    rw [← hpages] at hsel
    refine iff_of_false (hnever _ rfl ?_ ?_) hfilled
    · exact congrArg Selection.pagesToRead hsel
    · exact congrArg Selection.prevIntervalPage hsel

theorem queries_served_iff_one : ∃ pm, Reached TimeSort.insertion pm ∧ ∀ d : Directory pm,
    (∀ fromTime toTime, fromTime ≤ toTime → Served d (intervalReader [1] 0 0 fromTime toTime d.pages)) ∧
      ∀ tp, 0 < tp → Served d (timePointReader [1] 0 0 tp d.pages) := by
  let pm₀ : PageManager :=
    {PageManager.start (Page.calcSize 2) with curpage := some (Page.create (Page.calcSize 2))}
  obtain ⟨⟨new, pm⟩, hcall, hx⟩ := exists_ok (x := AsyncWriter.call TimeSort.insertion 3 [.plain 1 5] pm₀)
    (p := fun x : List Meas × PageManager => decide (∃ f, f ∈ pageFiles x.2 ∧ f.header.writePos ≠ 0))
    (by decide +kernel)
  have hfilled := of_decide_eq_true hx
  have hstart : (PageManager.start (Page.calcSize 2)).createNewPage = .ok pm₀ := rfl
  have hreached : Reached TimeSort.insertion pm := (Reached.create hstart).call hcall
  refine ⟨pm, hreached, fun d => ?_⟩
  obtain ⟨hinterval, hpoint⟩ := queries_served_iff hreached d [1] 0 0
  exact ⟨fun fromTime toTime hle => (hinterval fromTime toTime hle).mpr (.inl hfilled), fun tp htp =>
    (hpoint tp htp).mpr hfilled⟩

/-- A storage just created, read at a time point and over an interval from 0. -/
theorem created_unread : ∃ pm, Reached TimeSort.insertion pm ∧ ∀ d : Directory pm,
    (timePointReader [] 0 0 1 d.pages).readAll d.disk 1 = .error .nullReader ∧
      (intervalReader [] 0 0 0 5 d.pages).readAll d.disk 1 = .error .nullReader := by
  let pm₀ : PageManager :=
    {PageManager.start (Page.calcSize 2) with curpage := some (Page.create (Page.calcSize 2))}
  have hreached : Reached TimeSort.insertion pm₀ := .create rfl
  refine ⟨pm₀, hreached, fun d => ?_⟩
  have hempty : ¬ Filled pm₀ := by
    rintro ⟨f, hf, hpos⟩
    obtain rfl := List.mem_singleton.mp hf
    exact hpos rfl
  obtain ⟨p, hpages, hblank, hnull⟩ := hreached.orderly.unread hempty d
  have hpoint := @Blank.readInTimePoint [] 0 0 1 p hblank
  have hinterval := @Blank.readInterval [] 0 0 0 5 p hblank (by decide)
  rw [← hpages] at hpoint hinterval
  constructor
  · exact hnull _ rfl (congrArg Selection.pagesToRead hpoint) (congrArg Selection.prevIntervalPage hpoint)
  · exact hnull _ rfl (congrArg Selection.pagesToRead hinterval) (congrArg Selection.prevIntervalPage hinterval)

end
end Storage
end Nkvdb
