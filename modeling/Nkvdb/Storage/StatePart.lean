import Nkvdb.Storage.Beginning
import Nkvdb.Storage.TimePoint

/-! What an interval query delivers of the times before it, and what a time point does.

Behind a page both read its window, the query without leaving out what stands in it for ids that were
not written. On a page both take over from the window of the page before and add what `backwardRead`
finds; but the query does so only if its search comes by a record, and where the page ends with the
beginning of the query the two walks disagree on the page before and on how often the page is read. -/
namespace Nkvdb.Storage
open Page WriteWindow

/-- What an unfiltered `Storage::readInterval` delivers. -/
def Directory.readInterval {pm : PageManager} (d : Directory pm) (fuel : Nat) (fromTime toTime : Time) :
    Except Fault (List Meas) :=
  (intervalReader [] 0 0 fromTime toTime d.pages).readAll d.disk fuel

/-- With enough calls of `readNext` both reads end, and what the query delivers of the times before it
is what the time point does. -/
def StateAgrees {pm : PageManager} (d : Directory pm) (fromTime toTime : Time) : Prop :=
  ∃ out outPoint steps, (∀ fuel, steps ≤ fuel → d.readInterval fuel fromTime toTime = .ok out ∧
    d.readInTimePoint fuel fromTime = .ok outPoint) ∧ (statePart fromTime out).Perm outPoint

/-! ### The condition -/

/-- A record of the page overlaps the query. -/
def Reaches (fromTime toTime : Time) (f : PageFile) : Prop :=
  ∃ r, Indexed f.indexFile r ∧ r.minTime ≤ toTime ∧ fromTime ≤ r.maxTime

/-- No record of the page begins before the time point and does not end before it. -/
def Unspanned (tp : Time) (f : PageFile) : Prop := ∀ r, Indexed f.indexFile r → tp ≤ r.maxTime → tp ≤ r.minTime

/-- Nothing was written before the page. -/
def First (log : List Meas) (f : PageFile) : Prop := ∀ m, m ∈ log → f.header.minTime ≤ m.time

/-- Something was measured after the time. -/
def Later (tp : Time) (log : List Meas) : Prop := ∃ m, m ∈ log ∧ tp < m.time

/-- Each id written before the page has a measurement on it before the time point, counted by a record that does
not end before the time point. -/
def Superseded (tp : Time) (log : List Meas) (f : PageFile) : Prop :=
  ∀ m, m ∈ log → m.time < f.header.minTime → ∃ m', m' ∈ log ∧ m'.id = m.id ∧ f.header.minTime ≤ m'.time ∧
    m'.time < tp ∧ ∃ r, Indexed f.indexFile r ∧ r.minTime ≤ m'.time ∧ tp ≤ r.maxTime

/-- What has to hold of the page on which the query begins. -/
structure BeginsOn (fromTime toTime : Time) (log : List Meas) (f : PageFile) : Prop where
  /-- The page goes on: its search comes by a record, or there is nothing to take over. -/
  inside : fromTime < f.header.maxTime → Reaches fromTime toTime f ∨ First log f
  /-- It ends there and is read for itself and for the page after it. -/
  twice : f.header.maxTime = fromTime → toTime = fromTime → Later fromTime log →
    First log f ∧ Unspanned fromTime f
  /-- It ends there, and one of the two takes over from the page before. -/
  apart : f.header.maxTime = fromTime → (toTime = fromTime ↔ ¬ Later fromTime log) → Superseded fromTime log f
  /-- It ends there, and the query does not read it. -/
  passed : f.header.maxTime = fromTime → fromTime < toTime → ¬ Later fromTime log → Unspanned fromTime f

/-- What has to hold of the measurements before a query that begins on no page. -/
def BeginsBehind (fromTime : Time) (log : List Meas) : Prop :=
  (∃ m, m ∈ log ∧ m.time < fromTime) →
    Later fromTime log ∧ Dense (log.filter fun m => decide (m.time < fromTime))

section
variable {fsize : U64} {before log seg after : List Meas} {f : PageFile} {p : Page} {recs : List IndexRecord}
  {fromTime toTime tp : Time} {w : WriteWindow} {vs : List Meas}

namespace Reading

theorem reaches_iff (h : Reading fsize seg recs f p) : Reaches fromTime toTime f ↔
    ∃ r, r ∈ recs ∧ r.minTime ≤ toTime ∧ fromTime ≤ r.maxTime :=
  exists_congr fun r => and_congr_left fun _ => h.indexed r

/-- The record of the last position ends with the page. -/
theorem reaches_end (h : Reading fsize seg recs f p) (hmax : f.header.maxTime = fromTime) (hq : fromTime ≤ toTime) :
    Reaches fromTime toTime f := by
  obtain ⟨m, hm, he⟩ := h.bounds.maxMem
  obtain ⟨r, hr, hle, hge⟩ := h.posted.counted h.increasing hm
  rw [he, hmax] at hle hge
  exact h.reaches_iff.mpr ⟨r, hr, hle.trans hq, hge⟩

end Reading

/-! ### What is found, and what is taken over -/

/-- What `backwardRead` finds before the query, and what is taken over from a window with all that was written
before the page. -/
structure Found (fromTime toTime : Time) (log : List Meas) (f : PageFile) (w : WriteWindow) (vs : List Meas) :
    Prop where
  nothing : vs = [] ↔ Unspanned fromTime f
  taken : takenOver w vs = [] ↔ Superseded fromTime log f
  first : vs = [] → (takenOver w vs = [] ↔ First log f)
  missed : ¬ Reaches fromTime toTime f → vs = []
  begins : fromTime ≤ f.header.minTime → vs = []

namespace Reading

/-- Nothing is found if and only if no record of the page spans the time point. -/
theorem nothing_iff (h : Reading fsize seg recs f p)
    (hvs : TimePoint tp (seg.filter fun m => decide (Spans recs tp m)) vs) : vs = [] ↔ Unspanned tp f := by
  rw [hvs.eq_nil_iff]
  constructor
  · intro hnone r hr hge
    replace hr := (h.indexed r).mp hr
    obtain ⟨-, m, hm, he⟩ := h.begins hr
    rw [← he]
    exact hnone m (List.mem_filter.mpr ⟨hm, decide_eq_true ⟨r, hr, he.ge, hge⟩⟩)
  · intro hspan x hx
    obtain ⟨r, hr, hle, hge⟩ := of_decide_eq_true (List.mem_filter.mp hx).2
    exact (hspan r ((h.indexed r).mpr hr) hge).trans hle

/-- Nothing is taken over if and only if what was written before the page is superseded on it. -/
theorem taken_iff (h : Reading fsize seg recs f p) (hi : Increasing (before ++ (seg ++ after)))
    (hmin : f.header.minTime ≤ tp) (hmax : tp ≤ f.header.maxTime)
    (hvs : TimePoint tp (seg.filter fun m => decide (Spans recs tp m)) vs)
    (hw : TimePoint tp before (w.filter fun m => m.time != 0)) :
    takenOver w vs = [] ↔ Superseded tp (before ++ (seg ++ after)) f := by
  have hkey : ∀ v x : Meas, SameMeas v x → v.id = x.id := fun v x hsame => hsame.id
  rw [takenOver_eq_nil]
  constructor
  · intro hall m hm hlt
    have hbefore := h.bounds.mem_before hi hm hlt
    obtain ⟨u, hu, hid⟩ := (hw.key_iff hkey).mpr ⟨m, hbefore, rfl, hlt.trans_le hmin⟩
    obtain ⟨hu, hne⟩ := List.mem_filter.mp hu
    obtain ⟨v, hv, hvid⟩ := hall u hu (bne_iff_ne.mp hne)
    obtain ⟨x, hx, hxid, hxt⟩ := (hvs.key_iff hkey).mp ⟨v, hv, hvid.trans hid⟩
    obtain ⟨hx, hspan⟩ := List.mem_filter.mp hx
    obtain ⟨r, hr, hle, hge⟩ := of_decide_eq_true hspan
    exact ⟨x, List.mem_append_right _ (List.mem_append_left _ hx), hxid, (h.bounds.le x hx).1, hxt, r,
      (h.indexed r).mpr hr, hle, hge⟩
  · intro hall u hu hne
    obtain ⟨m, hm, hid, -⟩ := (hw.key_iff hkey).mp ⟨u, List.mem_filter.mpr ⟨hu, bne_iff_ne.mpr hne⟩, rfl⟩
    obtain ⟨x, hx, hxid, hxmin, hxt, r, hr, hle, hge⟩ := hall m (List.mem_append_left _ hm) (h.bounds.before_lt hi hm)
    have hseg := h.bounds.mem_seg hi hx hxmin (hxt.le.trans hmax)
    have hspan : Spans recs tp x := ⟨r, (h.indexed r).mp hr, hle, hge⟩
    exact (hvs.key_iff hkey).mpr ⟨x, List.mem_filter.mpr ⟨hseg, decide_eq_true hspan⟩, hxid.trans hid, hxt⟩

/-- Where nothing is found, nothing is taken over if and only if there is nothing before the page. -/
theorem first_iff (h : Reading fsize seg recs f p) (hi : Increasing (before ++ (seg ++ after)))
    (hmin : f.header.minTime ≤ tp) (hw : TimePoint tp before (w.filter fun m => m.time != 0)) :
    takenOver w [] = [] ↔ First (before ++ (seg ++ after)) f := by
  have hall : takenOver w [] = w.filter fun m => m.time != 0 := by simp [takenOver]
  rw [hall, hw.eq_nil_iff]
  constructor
  · intro hnone m hm
    by_contra hlt
    have hbefore := h.bounds.mem_before hi hm (not_le.mp hlt)
    exact hlt (hmin.trans (hnone m hbefore))
  · intro hfirst m hm
    exact absurd (h.bounds.before_lt hi hm) (not_lt.mpr (hfirst m (List.mem_append_left _ hm)))

theorem found (h : Reading fsize seg recs f p) (hi : Increasing (before ++ (seg ++ after)))
    (hmin : f.header.minTime ≤ fromTime) (hmax : fromTime ≤ f.header.maxTime) (hq : fromTime ≤ toTime)
    (hvs : TimePoint fromTime (seg.filter fun m => decide (Spans recs fromTime m)) vs)
    (hw : TimePoint fromTime before (w.filter fun m => m.time != 0)) :
    Found fromTime toTime (before ++ (seg ++ after)) f w vs where
  nothing := h.nothing_iff hvs
  taken := h.taken_iff hi hmin hmax hvs hw
  first := by
    rintro rfl
    exact h.first_iff hi hmin hw
  missed := by
    intro hreach
    refine (h.nothing_iff hvs).mpr fun r hr hge => ?_
    by_contra hlt
    exact hreach ⟨r, hr, (not_le.mp hlt).le.trans hq, hge⟩
  begins := by
    intro hbegin
    refine (h.nothing_iff hvs).mpr fun r hr _ => ?_
    exact hbegin.trans (h.begins ((h.indexed r).mp hr)).1

/-- The reader at the time point and that of the query take over from the same window and find the same, if the
query's search comes by a record. -/
theorem within (h : Reading fsize seg recs f p) (hback : ReadsBack seg p) (hmin : f.header.minTime ≤ fromTime)
    (hmax : fromTime ≤ f.header.maxTime) (hq : fromTime ≤ toTime) :
    ∃ vs, TimePoint fromTime (seg.filter fun m => decide (Spans recs fromTime m)) vs ∧ ∀ w,
      (∃ p', (⟨[], 0, 0, w⟩ : PageReader).timePointRead fromTime p = .ok (takenOver w vs ++ vs, p')) ∧
      ((∀ m, m ∈ w → m.time < fromTime) → ∃ out, IntervalDelivers PageReaderInterval.readSize fromTime toTime w p out ∧
        (Reaches fromTime toTime f → statePart fromTime out = takenOver w vs ++ vs) ∧
        (¬ Reaches fromTime toTime f → statePart fromTime out = [])) := by
  obtain ⟨vs, hvs, hread⟩ := h.posted.statePart_within h.increasing h.nonempty h.flushed hq (h.minTime ▸ hmin)
    (h.maxTime ▸ hmax) h.least h.greatest hback
  refine ⟨vs, hvs, fun w => ⟨(hread w).1, fun hw => ?_⟩⟩
  by_cases hreach : Reaches fromTime toTime f
  · obtain ⟨out, hout, hpart⟩ := (hread w).2 hw (h.reaches_iff.mp hreach)
    exact ⟨out, hout, fun _ => hpart, fun hnot => absurd hreach hnot⟩
  · have hnone : IntervalDelivers PageReaderInterval.readSize fromTime toTime w p [] :=
      h.posted.delivers_nothing h.increasing h.nonempty h.flushed hq (h.maxTime ▸ hmax) h.least h.greatest
        (mt h.reaches_iff.mpr hreach) w
    exact ⟨[], hnone, fun hin => absurd hin hreach, fun _ => rfl⟩

end Reading

/-! ### The page where the query begins -/

/-- The page goes on. -/
theorem beginsOn_inside (hmax : fromTime < f.header.maxTime) :
    BeginsOn fromTime toTime log f ↔ Reaches fromTime toTime f ∨ First log f :=
  ⟨fun h => h.inside hmax, fun h => ⟨fun _ => h, fun he => absurd he hmax.ne', fun he => absurd he hmax.ne',
    fun he => absurd he hmax.ne'⟩⟩

/-- It ends there, and is read twice. -/
theorem beginsOn_twice (hmax : f.header.maxTime = fromTime) (hto : toTime = fromTime) (hlater : Later fromTime log) :
    BeginsOn fromTime toTime log f ↔ First log f ∧ Unspanned fromTime f :=
  ⟨fun h => h.twice hmax hto hlater, fun h => ⟨fun hlt => absurd hmax hlt.ne', fun _ _ _ => h,
    fun _ hiff => absurd hlater (hiff.mp hto), fun _ hlt => absurd hto hlt.ne'⟩⟩

/-- It ends there, and is read once for both. -/
theorem beginsOn_apart (hmax : f.header.maxTime = fromTime) (h : toTime = fromTime ↔ ¬ Later fromTime log) :
    BeginsOn fromTime toTime log f ↔ Superseded fromTime log f :=
  ⟨fun hb => hb.apart hmax h, fun hs => ⟨fun hlt => absurd hmax hlt.ne', fun _ hto hlater => absurd hlater (h.mp hto),
    fun _ _ => hs, fun _ hlt hnone => absurd (h.mpr hnone) hlt.ne'⟩⟩

/-- It ends there, and the query passes it over. -/
theorem beginsOn_passed (hmax : f.header.maxTime = fromTime) (hto : fromTime < toTime) (hnone : ¬ Later fromTime log) :
    BeginsOn fromTime toTime log f ↔ Unspanned fromTime f :=
  ⟨fun h => h.passed hmax hto hnone, fun h => ⟨fun hlt => absurd hmax hlt.ne', fun _ he => absurd he hto.ne',
    fun _ hiff => absurd (hiff.mpr hnone) hto.ne', fun _ _ _ => h⟩⟩

theorem append_perm_iff {a b : List Meas} : (a ++ b).Perm b ↔ a = [] := by
  have h : (a ++ b).Perm ([] ++ b) ↔ a.Perm [] := List.perm_append_right_iff b
  rwa [List.nil_append, List.perm_nil] at h

namespace Found
variable {part : List Meas}

/-- Where the page goes on, the query finds what the time point does or nothing. -/
theorem inside_iff (h : Found fromTime toTime log f w vs) (hmax : fromTime < f.header.maxTime)
    (hin : Reaches fromTime toTime f → part = takenOver w vs ++ vs) (hout : ¬ Reaches fromTime toTime f → part = []) :
    part.Perm (takenOver w vs ++ vs) ↔ BeginsOn fromTime toTime log f := by
  rw [beginsOn_inside hmax]
  by_cases hreach : Reaches fromTime toTime f
  · rw [hin hreach]
    exact iff_of_true (List.Perm.refl _) (.inl hreach)
  · have hnone := h.missed hreach
    rw [hout hreach, or_iff_right hreach, List.nil_perm, ← h.first hnone, hnone, List.append_nil]

/-- Where the page is read twice, it is so only if there is nothing to find. -/
theorem twice_iff (h : Found fromTime toTime log f w vs) (hmax : f.header.maxTime = fromTime)
    (hto : toTime = fromTime) (hlater : Later fromTime log) :
    (takenOver w vs ++ vs ++ (takenOver w vs ++ vs)).Perm (takenOver w vs ++ vs) ↔ BeginsOn fromTime toTime log f := by
  rw [beginsOn_twice hmax hto hlater, append_perm_iff, List.append_eq_nil_iff, ← h.nothing]
  exact and_congr_left h.first

/-- Where only one of the two takes over, it finds the same if nothing is left to take over. -/
theorem apart_iff (h : Found fromTime toTime log f w vs) (hmax : f.header.maxTime = fromTime)
    (hto : toTime = fromTime ↔ ¬ Later fromTime log) :
    (takenOver w vs ++ vs).Perm vs ↔ BeginsOn fromTime toTime log f := by
  rw [beginsOn_apart hmax hto, append_perm_iff, h.taken]

/-- Where the query passes the page over, there must be nothing to find. -/
theorem passed_iff (h : Found fromTime toTime log f w vs) (hmax : f.header.maxTime = fromTime)
    (hto : fromTime < toTime) (hnone : ¬ Later fromTime log) :
    ([] : List Meas).Perm vs ↔ BeginsOn fromTime toTime log f := by
  rw [beginsOn_passed hmax hto hnone, List.nil_perm, h.nothing]

end Found
end

/-! ### What the two reads deliver -/

section
variable {fsize : U64} {log seg before outPoint part : List Meas} {files : List PageFile} {pm : PageManager}
  {d : Directory pm} {fromTime toTime : Time} {name prev : String} {own names : List String} {w : WriteWindow}

theorem stateAgrees_iff
    (hquery : ReaderState PageReaderInterval.readSize d.disk (intervalReader [] 0 0 fromTime toTime d.pages) fromTime
      part)
    (hpoint : ∀ fuel, 2 ≤ fuel → d.readInTimePoint fuel fromTime = .ok outPoint) :
    StateAgrees d fromTime toTime ↔ part.Perm outPoint := by
  obtain ⟨out, ⟨steps, hrun⟩, rfl⟩ := hquery
  constructor
  · rintro ⟨out', outPoint', steps', hall, hperm⟩
    obtain ⟨hout, hpoint'⟩ := hall (max steps' (max steps 2)) (le_max_left ..)
    have hsteps := hrun _ (le_trans (le_max_left steps 2) (le_max_right steps' (max steps 2)))
    have htwo := hpoint _ (le_trans (le_max_right steps 2) (le_max_right steps' (max steps 2)))
    obtain rfl := Except.ok.inj (hsteps.symm.trans hout)
    obtain rfl := Except.ok.inj (htwo.symm.trans hpoint')
    exact hperm
  · intro hperm
    refine ⟨out, outPoint, max steps 2, fun fuel hfuel => ⟨?_, ?_⟩, hperm⟩
    · exact hrun fuel (le_trans (le_max_left ..) hfuel)
    · exact hpoint fuel (le_trans (le_max_right ..) hfuel)

/-- Of the pages scheduled the later ones add nothing to the state. -/
theorem query_state (hsel : Storage.readInterval [] 0 0 fromTime toTime d.pages = ⟨own ++ names, prev⟩)
    (hown : ∀ k, k ∈ own → PageState PageReaderInterval.readSize d.disk
      (queryReader fromTime toTime (own ++ names) prev) fromTime k part)
    (hlater : ∀ k, k ∈ names → PageState PageReaderInterval.readSize d.disk
      (queryReader fromTime toTime (own ++ names) prev) fromTime k []) :
    ReaderState PageReaderInterval.readSize d.disk (intervalReader [] 0 0 fromTime toTime d.pages) fromTime
      (own.map fun _ => part).flatten := by
  have hfirst : List.Forall₂ (PageState PageReaderInterval.readSize d.disk
      (queryReader fromTime toTime (own ++ names) prev) fromTime) own (own.map fun _ => part) :=
    List.forall₂_map_right_iff.mpr (List.forall₂_same.mpr hown)
  have hrest : List.Forall₂ (PageState PageReaderInterval.readSize d.disk
      (queryReader fromTime toTime (own ++ names) prev) fromTime) names (names.map fun _ => []) :=
    List.forall₂_map_right_iff.mpr (List.forall₂_same.mpr hlater)
  have hnone : (names.map fun _ => ([] : List Meas)).flatten = [] := by simp
  have hstate := readerState_parts (List.rel_append hfirst hrest) rfl rfl
  rwa [List.flatten_append, hnone, List.append_nil, ← intervalReader_eq hsel] at hstate

/-- A page that begins after the query does. -/
theorem later_state (hvs : Volumes fsize log files) (hwp : ∀ f, f ∈ files → f.header.writePos ≠ 0)
    (hi : Increasing log) (hq : fromTime ≤ toTime) (hf : d.disk name ∈ files)
    (hmin : fromTime < (d.disk name).header.minTime)
    (hleg : (d.disk name).header.minTime ≤ toTime → Legible log (d.disk name)) (hw : windowOf d.disk prev = .ok w) :
    PageState PageReaderInterval.readSize d.disk (queryReader fromTime toTime names prev) fromTime name [] := by
  obtain ⟨earlier, later, rfl⟩ := List.append_of_mem hf
  obtain ⟨before, seg, after, rfl, -, hs, -⟩ := hvs.split
  obtain ⟨p, recs, h, -, hback⟩ := hs.reading (hwp _ hf) hi
  obtain ⟨out, hout, hpart⟩ := h.posted.statePart_later h.increasing h.nonempty h.flushed hq (h.minTime ▸ hmin) h.least
    h.greatest (fun hto => hback (hleg (h.minTime ▸ hto))) w
  exact ⟨out, pageDelivers h.opened hw hout, hpart⟩

/-- In the window nothing stands for ids that were not written if and only if these have no gaps. -/
theorem window_perm_iff (h : Tracks log w) (hne : log ≠ []) (hpos : ∀ m, m ∈ log → 0 < m.time) :
    w.Perm (w.filter fun m => m.time != 0) ↔ Dense log := by
  have hempty := h.empty_mem_iff (fun hnil => absurd hnil hne) hpos
  constructor
  · intro hperm
    by_contra hgaps
    have hmem := hperm.mem_iff.mp (hempty.mpr hgaps)
    exact absurd rfl (bne_iff_ne.mp (List.mem_filter.mp hmem).2)
  · intro hdense
    rw [List.filter_eq_self.mpr fun m hm => bne_iff_ne.mpr ?_]
    rcases h.mem_cases hpos hm with rfl | hfirst
    · exact absurd hdense (hempty.mp hm)
    · exact (hpos m hfirst.mem).ne'

/-- The pages of a storage as both reads see them: the one the query begins on or behind, those before it, and
those after it. -/
structure Parted (fsize : U64) (log : List Meas) (d : Directory pm) (fromTime toTime : Time) (ns ms : List String)
    (n : String) : Prop where
  volumes : Volumes fsize log (ns.map d.disk ++ d.disk n :: ms.map d.disk)
  nonempty : ∀ f, f ∈ ns.map d.disk ++ d.disk n :: ms.map d.disk → f.header.writePos ≠ 0
  increasing : Increasing log
  query : fromTime ≤ toTime
  earlier : ∀ f, f ∈ ns.map d.disk → f.header.maxTime < fromTime
  later : ∀ f, f ∈ ms.map d.disk → fromTime < f.header.minTime
  legible : ∀ f, f ∈ ns.map d.disk ++ d.disk n :: ms.map d.disk → f.header.minTime ≤ toTime →
    fromTime ≤ f.header.maxTime → Legible log f
  pages : d.pages = (ns.map fun n => ⟨(d.disk n).header, n⟩) ++ ⟨(d.disk n).header, n⟩ ::
    ms.map fun n => ⟨(d.disk n).header, n⟩

namespace Parted
variable {ns ms : List String} {n : String}

theorem ordered (h : Parted fsize log d fromTime toTime ns ms n) :
    ∀ f, f ∈ ns.map d.disk ++ d.disk n :: ms.map d.disk → f.header.minTime ≤ f.header.maxTime := fun f hf =>
  ((h.volumes.ascending h.increasing h.nonempty).2 f hf).1

/-- No other page has the beginning of the query. -/
theorem within_eq (h : Parted fsize log d fromTime toTime ns ms n) (hmin : (d.disk n).header.minTime ≤ fromTime)
    {f : PageFile} (hf : f ∈ ns.map d.disk ++ d.disk n :: ms.map d.disk) (hin : Within fromTime f) : f = d.disk n :=
  within_unique (h.volumes.ascending h.increasing h.nonempty).1 (.inl hmin) h.later
    (h.ordered _ (List.mem_append_right _ List.mem_cons_self)) hf hin

theorem mem_later {k : String} (hk : k ∈ ms) : d.disk k ∈ ns.map d.disk ++ d.disk n :: ms.map d.disk :=
  List.mem_append_right _ (List.mem_cons_of_mem _ (List.mem_map_of_mem hk))

/-- The pages the query schedules, from what the walk has chosen at the page. -/
theorem selected (h : Parted fsize log d fromTime toTime ns ms n)
    (hvisit : visitInterval fromTime toTime (ns.map fun n => (⟨(d.disk n).header, n⟩ : PageInfo)).getLast?
      ⟨(d.disk n).header, n⟩ ⟨[], ""⟩ = ⟨own, prev⟩) : ∃ names, (∀ k, k ∈ names → k ∈ ms) ∧
    Storage.readInterval [] 0 0 fromTime toTime d.pages =
      ⟨own ++ (if (d.disk n).header.maxTime ≤ fromTime ∧ ms ≠ [] then [n] else []) ++ names, prev⟩ := by
  have hle : ∀ q, q ∈ (ns.map fun n => (⟨(d.disk n).header, n⟩ : PageInfo)) ++ ⟨(d.disk n).header, n⟩ ::
      (ms.map fun n => ⟨(d.disk n).header, n⟩) → q.header.minTime ≤ q.header.maxTime := by
    have hfiles := h.ordered
    rw [List.forall_mem_append, List.forall_mem_cons, List.forall_mem_map, List.forall_mem_map] at hfiles ⊢
    exact hfiles
  have hearlier : ∀ q, q ∈ (ns.map fun n => (⟨(d.disk n).header, n⟩ : PageInfo)) → q.header.maxTime < fromTime :=
    List.forall_mem_map.mpr fun k hk => h.earlier _ (List.mem_map_of_mem hk)
  have hlater : ∀ q, q ∈ (ms.map fun n => (⟨(d.disk n).header, n⟩ : PageInfo)) → fromTime < q.header.minTime :=
    List.forall_mem_map.mpr fun k hk => h.later _ (List.mem_map_of_mem hk)
  obtain ⟨names, hnames, hsel⟩ := readInterval_from hle hearlier hlater h.query hvisit
  refine ⟨names, fun k hk => by simpa using hnames.subset hk, ?_⟩
  rw [h.pages, hsel]
  unfold again
  simp only [ne_eq, List.map_eq_nil_iff]

/-- What the query delivers of the times before it is what the page gives, as often as it is scheduled. -/
theorem state (h : Parted fsize log d fromTime toTime ns ms n)
    (hvisit : visitInterval fromTime toTime (ns.map fun n => (⟨(d.disk n).header, n⟩ : PageInfo)).getLast?
      ⟨(d.disk n).header, n⟩ ⟨[], ""⟩ = ⟨own, prev⟩) (hown : ∀ k, k ∈ own → k = n)
    (hw : windowOf d.disk prev = .ok w) {p : Page} {out : List Meas} (hopen : openFile (d.disk n) true = .ok p)
    (hout : IntervalDelivers PageReaderInterval.readSize fromTime toTime w p out)
    (hpart : statePart fromTime out = part) :
    ReaderState PageReaderInterval.readSize d.disk (intervalReader [] 0 0 fromTime toTime d.pages) fromTime
      ((own ++ if (d.disk n).header.maxTime ≤ fromTime ∧ ms ≠ [] then [n] else []).map fun _ => part).flatten := by
  obtain ⟨names, hnames, hsel⟩ := h.selected hvisit
  refine query_state hsel (fun k hk => ?_) (fun k hk => ?_)
  · obtain rfl : k = n := by
      rcases List.mem_append.mp hk with hk | hk
      · exact hown k hk
      · split at hk
        · exact List.mem_singleton.mp hk
        · cases hk
    exact ⟨out, pageDelivers hopen hw hout, hpart⟩
  · have hmem : d.disk k ∈ ns.map d.disk ++ d.disk n :: ms.map d.disk := mem_later (hnames k hk)
    have hmin := h.later _ (List.mem_map_of_mem (hnames k hk))
    exact later_state h.volumes h.nonempty h.increasing h.query hmem hmin
      (fun hto => h.legible _ hmem hto (hmin.le.trans (h.ordered _ hmem))) hw

/-- Whether anything is later than the beginning of the query. -/
theorem later_iff (h : Parted fsize log d fromTime toTime ns ms n) :
    Later fromTime log ↔ ¬ ((d.disk n).header.maxTime ≤ fromTime ∧ ms = []) := by
  have hvs := h.volumes
  have hi := h.increasing
  obtain ⟨-, hends⟩ := hvs.ascending hi h.nonempty
  obtain ⟨before, seg, after, rfl, -, hs, hafter⟩ := hvs.split
  obtain ⟨-, hb⟩ := hs.bounds (h.nonempty _ (List.mem_append_right _ List.mem_cons_self))
  have hall := none_later_iff hb hi hafter h.later fun g hg =>
    hends g (List.mem_append_right _ (List.mem_cons_of_mem _ hg))
  rw [List.map_eq_nil_iff] at hall
  rw [← hall]
  unfold Later
  push Not
  rfl

/-- Behind the page both read its window, if another page follows. -/
theorem agrees_behind (h : Parted fsize log d fromTime toTime ns ms n) (hpos : ∀ m, m ∈ log → 0 < m.time)
    (hfrom : 0 < fromTime) (hmax : (d.disk n).header.maxTime < fromTime)
    (hsel : Storage.readInTimePoint [] 0 0 fromTime d.pages = ⟨[n], ""⟩) :
    StateAgrees d fromTime toTime ↔ BeginsBehind fromTime log := by
  have hlater := h.later_iff
  have hi := h.increasing
  have hmem : d.disk n ∈ ns.map d.disk ++ d.disk n :: ms.map d.disk := List.mem_append_right _ List.mem_cons_self
  have hvisit : visitInterval fromTime toTime (ns.map fun n => (⟨(d.disk n).header, n⟩ : PageInfo)).getLast?
      ⟨(d.disk n).header, n⟩ ⟨[], ""⟩ = ⟨[], ""⟩ := visitInterval_before (h.ordered _ hmem) hmax h.query
  obtain ⟨before, seg, after, rfl, -, hs, hafter⟩ := h.volumes.split
  obtain ⟨p, recs, hr, htracks, -⟩ := hs.reading (h.nonempty _ hmem) hi
  have hassoc : before ++ (seg ++ after) = (before ++ seg) ++ after := (List.append_assoc ..).symm
  rw [hassoc] at hi hpos hlater ⊢
  have hib := (List.pairwise_append.mp hi).1
  have hlt : ∀ m, m ∈ before ++ seg → m.time < fromTime := fun m hm => (hr.bounds.le_max hib hm).trans_lt hmax
  have hgt : ∀ m, m ∈ after → fromTime < m.time := by
    intro m hm
    obtain ⟨g, _, _, hg, hsg, hm⟩ := hafter m hm
    have hwpg := h.nonempty g (List.mem_append_right _ (List.mem_cons_of_mem _ hg))
    exact (h.later g hg).trans_le ((hsg.bounds hwpg).2.le m hm).1
  have hposb : ∀ m, m ∈ before ++ seg → 0 < m.time := fun m hm => hpos m (List.mem_append_left _ hm)
  have hne : before ++ seg ≠ [] := List.append_ne_nil_of_right_ne_nil _ hr.nonempty
  have hpart : statePart fromTime p.writeWindow = p.writeWindow := by
    refine statePart_self fun m hm => ?_
    rcases htracks.mem_cases hposb hm with rfl | hfirst
    · exact hfrom
    · exact hlt m hfirst.mem
  have hstate := h.state hvisit (fun k hk => absurd hk List.not_mem_nil) rfl hr.opened
    (.behind hr.writePos (hr.maxTime ▸ hmax)) hpart
  have hread := timePointRead_window (r := ⟨[], 0, 0, []⟩) (p := p) ⟨rfl, rfl, rfl⟩ (hr.maxTime ▸ hmax)
  rw [stateAgrees_iff hstate fun fuel hfuel =>
    readInTimePoint_one hsel hfrom.ne' hr.opened rfl hr.writePos hread hfuel]
  have holder : ((before ++ seg) ++ after).filter (fun m => decide (m.time < fromTime)) = before ++ seg := by
    rw [List.filter_append, List.filter_eq_self.mpr fun m hm => decide_eq_true (hlt m hm),
      List.filter_eq_nil_iff.mpr fun m hm => by simp [(hgt m hm).le], List.append_nil]
  have hsome : ∃ m, m ∈ (before ++ seg) ++ after ∧ m.time < fromTime := by
    obtain ⟨m, hm⟩ := List.exists_mem_of_ne_nil _ hne
    exact ⟨m, List.mem_append_left _ hm, hlt m hm⟩
  have hwindow := timePoint_window htracks hib hposb hlt
  unfold BeginsBehind
  rw [holder, hlater, forall_prop_of_true hsome, ← window_perm_iff htracks hne hposb]
  by_cases hms : ms = []
  · -- the query schedules no page
    rw [if_neg fun hand => hand.2 hms]
    refine iff_of_false (fun hperm => ?_) fun hand => hand.1 ⟨hmax.le, hms⟩
    obtain ⟨m, hm⟩ := List.exists_mem_of_ne_nil _ hne
    exact absurd (hlt m hm) (not_lt.mpr (hwindow.eq_nil_iff.mp (List.nil_perm.mp hperm) m hm))
  · rw [if_pos ⟨hmax.le, hms⟩, and_iff_right fun hand => hms hand.2]
    simp

/-- What both reads give of the page the query begins on: `w` is the window of the page before, and `vs` what is found
on the page. -/
structure BothReads (log : List Meas) (d : Directory pm) (fromTime toTime : Time) (ns : List String) (n : String)
    (w : WriteWindow) (vs : List Meas) : Prop where
  window : windowOf d.disk (lastName (ns.map fun n => ⟨(d.disk n).header, n⟩)) = .ok w
  older : ∀ m, m ∈ w → m.time < fromTime
  found : Found fromTime toTime log (d.disk n) w vs
  reaches : fromTime = (d.disk n).header.maxTime → Reaches fromTime toTime (d.disk n)
  point : ∀ {prev w'}, windowOf d.disk prev = .ok w' →
    Storage.readInTimePoint [] 0 0 fromTime d.pages = ⟨[n], prev⟩ →
    ∀ fuel, 2 ≤ fuel → d.readInTimePoint fuel fromTime = .ok (takenOver w' vs ++ vs)
  query : ∀ {w'}, (∀ m, m ∈ w' → m.time < fromTime) → ∃ p out, openFile (d.disk n) true = .ok p ∧
    IntervalDelivers PageReaderInterval.readSize fromTime toTime w' p out ∧
    (Reaches fromTime toTime (d.disk n) → statePart fromTime out = takenOver w' vs ++ vs) ∧
    (¬ Reaches fromTime toTime (d.disk n) → statePart fromTime out = [])

theorem bothReads (h : Parted fsize log d fromTime toTime ns ms n) (hpos : ∀ m, m ∈ log → 0 < m.time)
    (hfrom : 0 < fromTime) (hnamed : ∀ k, k ∈ ns → k ≠ "") (hmin : (d.disk n).header.minTime ≤ fromTime)
    (hmax : fromTime ≤ (d.disk n).header.maxTime) : ∃ w vs, BothReads log d fromTime toTime ns n w vs := by
  have hi := h.increasing
  have hmem : d.disk n ∈ ns.map d.disk ++ d.disk n :: ms.map d.disk := List.mem_append_right _ List.mem_cons_self
  have hleg := h.legible _ hmem (hmin.trans h.query) hmax
  obtain ⟨before, seg, after, rfl, hvs, hs, -⟩ := h.volumes.split
  obtain ⟨p, recs, hr, -, hback⟩ := hs.reading (h.nonempty _ hmem) hi
  obtain ⟨vs, hvs', hread⟩ := hr.within (hback hleg) hmin hmax h.query
  have hbefore : ∀ m, m ∈ before → m.time < fromTime := fun m hm => (hr.bounds.before_lt hi hm).trans_le hmin
  obtain ⟨w, hw, hc⟩ := carried_window hnamed hvs (List.pairwise_append.mp hi).1
    (fun m hm => hpos m (List.mem_append_left _ hm)) hbefore
  refine ⟨w, vs, hw, fun m hm => ?_, hr.found hi hmin hmax h.query hvs' hc, fun he => hr.reaches_end he.symm h.query,
    fun {prev w'} hw' hsel fuel hfuel => ?_, fun {w'} hw' => ?_⟩
  · by_cases hzero : m.time = 0
    · rwa [hzero]
    · obtain ⟨x, hx, hsame⟩ := hc.only m (List.mem_filter.mpr ⟨hm, bne_iff_ne.mpr hzero⟩)
      rw [hsame.time]
      exact hx.before
  · obtain ⟨p', hpoint⟩ := (hread w').1
    exact readInTimePoint_one hsel hfrom.ne' hr.opened hw' hr.writePos hpoint hfuel
  · obtain ⟨out, hout, hparts⟩ := (hread w').2 hw'
    exact ⟨p, out, hr.opened, hout, hparts⟩

section
variable {vs : List Meas}

/-- The page goes on. -/
theorem agrees_inside (h : Parted fsize log d fromTime toTime ns ms n) (hb : BothReads log d fromTime toTime ns n w vs)
    (hmin : (d.disk n).header.minTime ≤ fromTime) (hmax : fromTime < (d.disk n).header.maxTime)
    (hsel : Storage.readInTimePoint [] 0 0 fromTime d.pages =
      ⟨[n], lastName (ns.map fun n => ⟨(d.disk n).header, n⟩)⟩) :
    StateAgrees d fromTime toTime ↔ BeginsOn fromTime toTime log (d.disk n) := by
  obtain ⟨p, out, hopen, hout, hin, hnone⟩ := hb.query hb.older
  have hstate := h.state (visitInterval_inside hmin hmax.le (.inl hmax)) (fun k hk => List.mem_singleton.mp hk)
    hb.window hopen hout rfl
  rw [if_neg fun hand => absurd hand.1 (not_le.mpr hmax), List.append_nil, List.map_singleton,
    List.flatten_singleton] at hstate
  rw [stateAgrees_iff hstate (hb.point hb.window hsel)]
  exact hb.found.inside_iff hmax hin hnone

/-- The query is only the end of the page. -/
theorem agrees_only (h : Parted fsize log d fromTime toTime ns ms n) (hb : BothReads log d fromTime toTime ns n w vs)
    (hmin : (d.disk n).header.minTime ≤ fromTime) (hmax : fromTime = (d.disk n).header.maxTime)
    (hto : fromTime = toTime)
    (hsel : Storage.readInTimePoint [] 0 0 fromTime d.pages =
      ⟨[n], if ms = [] then "" else lastName (ns.map fun n => ⟨(d.disk n).header, n⟩)⟩) :
    StateAgrees d fromTime toTime ↔ BeginsOn fromTime toTime log (d.disk n) := by
  obtain ⟨p, out, hopen, hout, hin, -⟩ := hb.query hb.older
  have hstate := h.state (visitInterval_inside hmin hmax.le (.inr hto.symm)) (fun k hk => List.mem_singleton.mp hk)
    hb.window hopen hout (hin (hb.reaches hmax))
  by_cases hms : ms = []
  · rw [if_neg fun hand => hand.2 hms, List.append_nil, List.map_singleton, List.flatten_singleton] at hstate
    rw [if_pos hms] at hsel
    rw [stateAgrees_iff hstate (hb.point rfl hsel)]
    exact hb.found.apart_iff hmax.symm (iff_of_true hto.symm fun hl => h.later_iff.mp hl ⟨hmax.ge, hms⟩)
  · -- the page is scheduled for itself and for the next one
    rw [if_pos ⟨hmax.ge, hms⟩] at hstate
    rw [if_neg hms] at hsel
    rw [stateAgrees_iff hstate (hb.point hb.window hsel)]
    simp only [List.cons_append, List.nil_append, List.map_cons, List.map_nil, List.flatten_cons, List.flatten_nil,
      List.append_nil]
    exact hb.found.twice_iff hmax.symm hto.symm (h.later_iff.mpr fun hand => hms hand.2)

/-- The query goes on behind the page. -/
theorem agrees_over (h : Parted fsize log d fromTime toTime ns ms n) (hb : BothReads log d fromTime toTime ns n w vs)
    (hmin : (d.disk n).header.minTime ≤ fromTime) (hmax : fromTime = (d.disk n).header.maxTime)
    (hto : fromTime < toTime)
    (hsel : Storage.readInTimePoint [] 0 0 fromTime d.pages =
      ⟨[n], if ms = [] then "" else lastName (ns.map fun n => ⟨(d.disk n).header, n⟩)⟩) :
    StateAgrees d fromTime toTime ↔ BeginsOn fromTime toTime log (d.disk n) := by
  obtain ⟨p, out, hopen, hout, hin, -⟩ := hb.query fun m hm => absurd hm List.not_mem_nil
  have hown : ∀ k, k ∈ (if fromTime ≤ (d.disk n).header.minTime then [n] else []) → k = n := by
    intro k hk
    by_cases hbegin : fromTime ≤ (d.disk n).header.minTime
    · rw [if_pos hbegin] at hk
      exact List.mem_singleton.mp hk
    · rw [if_neg hbegin] at hk
      cases hk
  have hstate := h.state (visitInterval_ending hmax.symm hmin hto) hown rfl hopen hout (hin (hb.reaches hmax))
  -- a page that begins with the query has nothing before it
  have hnone : ((if fromTime ≤ (d.disk n).header.minTime then [n] else []).map fun _ => vs).flatten = [] := by
    by_cases hbegin : fromTime ≤ (d.disk n).header.minTime
    · rw [if_pos hbegin, List.map_singleton, List.flatten_singleton]
      exact hb.found.begins hbegin
    · rw [if_neg hbegin]
      rfl
  rw [takenOver_nil, List.nil_append, List.map_append, List.flatten_append, hnone, List.nil_append] at hstate
  by_cases hms : ms = []
  · rw [if_neg fun hand => hand.2 hms] at hstate
    rw [if_pos hms] at hsel
    rw [stateAgrees_iff hstate (hb.point rfl hsel)]
    exact hb.found.passed_iff hmax.symm hto fun hl => h.later_iff.mp hl ⟨hmax.ge, hms⟩
  · rw [if_pos ⟨hmax.ge, hms⟩, List.map_singleton, List.flatten_singleton] at hstate
    rw [if_neg hms] at hsel
    rw [stateAgrees_iff hstate (hb.point hb.window hsel), List.perm_comm]
    exact hb.found.apart_iff hmax.symm (iff_of_false hto.ne' fun hl => hl (h.later_iff.mpr fun hand => hms hand.2))

end

/-- On the page. -/
theorem agrees_within (h : Parted fsize log d fromTime toTime ns ms n) (hpos : ∀ m, m ∈ log → 0 < m.time)
    (hfrom : 0 < fromTime) (hnamed : ∀ k, k ∈ ns → k ≠ "") (hmin : (d.disk n).header.minTime ≤ fromTime)
    (hmax : fromTime ≤ (d.disk n).header.maxTime)
    (hsel : Storage.readInTimePoint [] 0 0 fromTime d.pages =
      ⟨[n], if (d.disk n).header.maxTime ≤ fromTime ∧ ms = [] then "" else
        lastName (ns.map fun n => ⟨(d.disk n).header, n⟩)⟩) :
    StateAgrees d fromTime toTime ↔ BeginsOn fromTime toTime log (d.disk n) := by
  obtain ⟨w, vs, hb⟩ := h.bothReads hpos hfrom hnamed hmin hmax
  rcases lt_or_eq_of_le hmax with hlt | heq
  · rw [if_neg fun hand => absurd hand.1 (not_le.mpr hlt)] at hsel
    exact h.agrees_inside hb hmin hlt hsel
  · simp only [heq.ge, true_and] at hsel
    rcases eq_or_lt_of_le h.query with hto | hto
    · exact h.agrees_only hb hmin heq hto hsel
    · exact h.agrees_over hb hmin heq hto hsel

end Parted

/-- Where all pages begin later, neither read has anything older. -/
theorem agrees_before (hvs : Volumes fsize log (pageFiles pm)) (hwp : ∀ f, f ∈ pageFiles pm → f.header.writePos ≠ 0)
    (hi : Increasing log) (hq : fromTime ≤ toTime) (hmap : d.names.map d.disk = pageFiles pm)
    (hmin : ∀ f, f ∈ pageFiles pm → fromTime < f.header.minTime)
    (hleg : ∀ f, f ∈ pageFiles pm → f.header.minTime ≤ toTime → fromTime ≤ f.header.maxTime → Legible log f)
    (hsel : Storage.readInTimePoint [] 0 0 fromTime d.pages = ⟨[], ""⟩) : StateAgrees d fromTime toTime := by
  obtain ⟨-, hends⟩ := hvs.ascending hi hwp
  have hpage : ∀ k, k ∈ d.names → d.disk k ∈ pageFiles pm := fun k hk => hmap ▸ List.mem_map_of_mem hk
  have hlater : ∀ q, q ∈ d.pages → fromTime < q.header.minTime :=
    List.forall_mem_map.mpr fun k hk => hmin _ (hpage k hk)
  have hle : ∀ q, q ∈ d.pages → q.header.minTime ≤ q.header.maxTime :=
    List.forall_mem_map.mpr fun k hk => (hends _ (hpage k hk)).1
  have hprev : (none : Option PageInfo).any (fun q => decide (q.header.maxTime ≤ fromTime)) = false := rfl
  obtain ⟨names, hnames, hloop⟩ := intervalLoop_own toTime ⟨[], ""⟩ hlater hle hprev
  have hown : ∀ k, k ∈ ([] : List String) → PageState PageReaderInterval.readSize d.disk
      (queryReader fromTime toTime ([] ++ names) "") fromTime k [] := fun k hk => absurd hk List.not_mem_nil
  have hstate := query_state hloop hown fun k hk => ?_
  · exact (stateAgrees_iff hstate fun fuel hfuel => readInTimePoint_none hsel hfuel).mpr (List.Perm.refl _)
  · have hk : k ∈ d.names := by simpa [Directory.pages] using hnames.subset hk
    have hmem := hpage k hk
    have hnone : windowOf d.disk "" = .ok [] := rfl
    exact later_state hvs hwp hi hq hmem (hmin _ hmem)
      (fun hto => hleg _ hmem hto ((hmin _ hmem).le.trans (hends _ hmem).1)) hnone

/-- The pages of a directory, parted at one that does not begin after the query. -/
theorem Directory.parted (hvs : Volumes fsize log (pageFiles pm)) (hwp : ∀ f, f ∈ pageFiles pm → f.header.writePos ≠ 0)
    (hi : Increasing log) (hq : fromTime ≤ toTime)
    (hleg : ∀ f, f ∈ pageFiles pm → f.header.minTime ≤ toTime → fromTime ≤ f.header.maxTime → Legible log f)
    {earlier later : List PageInfo} {q : PageInfo} (hpages : d.pages = earlier ++ q :: later)
    (hmin : q.header.minTime ≤ fromTime) (hlater : ∀ p, p ∈ later → fromTime < p.header.minTime) :
    ∃ ns ms n, q = ⟨(d.disk n).header, n⟩ ∧ earlier = (ns.map fun n => ⟨(d.disk n).header, n⟩) ∧
      (later = [] ↔ ms = []) ∧ (∀ k, k ∈ ns → k ≠ "") ∧ pageFiles pm = ns.map d.disk ++ d.disk n :: ms.map d.disk ∧
      Parted fsize log d fromTime toTime ns ms n := by
  obtain ⟨hp, hends⟩ := hvs.ascending hi hwp
  have hmap := d.map_disk hp fun f hf => (hends f hf).1
  obtain ⟨ns, ms, n, rfl, rfl, rfl, hnamed, hfiles⟩ := d.split hmap hpages
  rw [hfiles] at hvs hp hwp hleg
  refine ⟨ns, ms, n, rfl, rfl, List.map_eq_nil_iff, hnamed, hfiles, hvs, hwp, hi, hq, fun f hf => ?_, ?_, hleg, hpages⟩
  · exact ((List.pairwise_append.mp hp).2.2 f hf _ List.mem_cons_self).trans_le hmin
  · exact List.forall_mem_map.mpr fun k hk => hlater _ (List.mem_map_of_mem hk)

/-- Of pages none of which is empty. -/
theorem agrees_iff (hvs : Volumes fsize log (pageFiles pm)) (hwp : ∀ f, f ∈ pageFiles pm → f.header.writePos ≠ 0)
    (hi : Increasing log) (hpos : ∀ m, m ∈ log → 0 < m.time) (hfrom : 0 < fromTime) (hq : fromTime ≤ toTime)
    (hleg : ∀ f, f ∈ pageFiles pm → f.header.minTime ≤ toTime → fromTime ≤ f.header.maxTime → Legible log f) :
    StateAgrees d fromTime toTime ↔
      (∀ f, f ∈ pageFiles pm → Within fromTime f → BeginsOn fromTime toTime log f) ∧
      ((∀ f, f ∈ pageFiles pm → ¬ Within fromTime f) → BeginsBehind fromTime log) := by
  obtain ⟨hp, hends⟩ := hvs.ascending hi hwp
  have hle : ∀ f, f ∈ pageFiles pm → f.header.minTime ≤ f.header.maxTime := fun f hf => (hends f hf).1
  have hmap := d.map_disk hp hle
  obtain ⟨hchain, hmm⟩ := d.pages_chain hp hle
  obtain ⟨sel, hsel⟩ : ∃ sel, Storage.readInTimePoint [] 0 0 fromTime d.pages = sel := ⟨_, rfl⟩
  have hchosen : Chosen fromTime d.pages sel := hsel ▸ d.chosen hp hle
  cases hchosen with
  | none hlater =>
    have hmin : ∀ f, f ∈ pageFiles pm → fromTime < f.header.minTime := by
      rw [← hmap]
      exact List.forall_mem_map.mpr fun k hk => hlater _ (List.mem_map_of_mem hk)
    refine iff_of_true (agrees_before hvs hwp hi hq hmap hmin hleg hsel)
      ⟨fun f hf hin => absurd hin.1 (not_le.mpr (hmin f hf)), fun _ hbefore => ?_⟩
    obtain ⟨m, hm, hlt⟩ := hbefore
    obtain ⟨f, hf, hge, -⟩ := hvs.covers hwp hm
    exact absurd ((hmin f hf).trans_le hge) (not_lt.mpr hlt.le)
  | after hpages hmax hlater =>
    have hmin := (hmm _ (hpages ▸ List.mem_append_right _ List.mem_cons_self)).trans hmax.le
    obtain ⟨ns, ms, n, rfl, rfl, -, -, hfiles, h⟩ := Directory.parted hvs hwp hi hq hleg hpages hmin hlater
    rw [h.agrees_behind hpos hfrom hmax hsel, hfiles]
    have hnone : ∀ f, f ∈ ns.map d.disk ++ d.disk n :: ms.map d.disk → ¬ Within fromTime f := by
      intro f hf hin
      rw [h.within_eq hmin hf hin] at hin
      exact absurd hin.2 (not_le.mpr hmax)
    constructor
    · exact fun hbehind => ⟨fun f hf hin => absurd hin (hnone f hf), fun _ => hbehind⟩
    · exact fun hand => hand.2 hnone
  | within hpages hmin hmax =>
    rw [hpages] at hchain
    have hlater := (List.pairwise_cons.mp (List.pairwise_append.mp hchain).2.1).1
    obtain ⟨ns, ms, n, rfl, rfl, hnil, hnamed, hfiles, h⟩ := Directory.parted hvs hwp hi hq hleg hpages hmin
      fun p hp => hmax.trans_lt (hlater p hp)
    simp only [hnil] at hsel
    rw [h.agrees_within hpos hfrom hnamed hmin hmax hsel, hfiles]
    have hmem : d.disk n ∈ ns.map d.disk ++ d.disk n :: ms.map d.disk := List.mem_append_right _ List.mem_cons_self
    constructor
    · refine fun hon => ⟨fun f hf hin => ?_, fun hnone => absurd ⟨hmin, hmax⟩ (hnone _ hmem)⟩
      rwa [h.within_eq hmin hf hin]
    · exact fun hand => hand.1 _ hmem ⟨hmin, hmax⟩

/-- A storage without a measurement has no reader for its page. -/
theorem not_agrees_empty {f : PageFile} (hvs : Volumes fsize [] (pageFiles pm)) (hfiles : pageFiles pm = [f])
    (hwp : f.header.writePos = 0) (hfrom : 0 < fromTime) : ¬ StateAgrees d fromTime toTime := by
  rintro ⟨out, outPoint, steps, hall, -⟩
  exact readInTimePoint_empty hvs hfiles hwp hfrom steps (hall steps le_rfl).2

end

/-- The pages that the query overlaps read back. -/
def LegibleIn (fromTime toTime : Time) (log : List Meas) (pm : PageManager) : Prop :=
  ∀ f, f ∈ pageFiles pm → f.header.minTime ≤ toTime → fromTime ≤ f.header.maxTime → Legible log f

/-- After batches in the order of the times what a query delivers of the times before it is what a read at its
beginning does if something was written, the pages that the query overlaps read back, the page on which it
begins meets `BeginsOn` and, where it begins on none, the measurements meet `BeginsBehind`; and only then, as far
as these pages read back. -/
theorem statePart_iff (S : TimeSort) (fuel : Nat) (pageSize : U64) (batches : List (List Meas)) (log : List Meas)
    (pm₀ pm : PageManager) (hstart : (PageManager.start pageSize).createNewPage = .ok pm₀)
    (hrun : PageManager.runAll S fuel (batches.map .call) pm₀ = .ok (log, pm)) (hi : Increasing log)
    (hpos : ∀ m, m ∈ log → 0 < m.time) (d : Directory pm) (fromTime toTime : Time) (hfrom : 0 < fromTime)
    (hq : fromTime ≤ toTime) :
    ((LegibleIn fromTime toTime log pm ∧ log ≠ [] ∧
        (∀ f, f ∈ pageFiles pm → Within fromTime f → BeginsOn fromTime toTime log f) ∧
        ((∀ f, f ∈ pageFiles pm → ¬ Within fromTime f) → BeginsBehind fromTime log)) →
      StateAgrees d fromTime toTime) ∧
    (LegibleIn fromTime toTime log pm → (StateAgrees d fromTime toTime ↔ log ≠ [] ∧
      (∀ f, f ∈ pageFiles pm → Within fromTime f → BeginsOn fromTime toTime log f) ∧
      ((∀ f, f ∈ pageFiles pm → ¬ Within fromTime f) → BeginsBehind fromTime log))) := by
  obtain ⟨hvs, hempty⟩ := volumes_of_calls hstart hrun hi
  have hiff : LegibleIn fromTime toTime log pm → (StateAgrees d fromTime toTime ↔ log ≠ [] ∧
      (∀ f, f ∈ pageFiles pm → Within fromTime f → BeginsOn fromTime toTime log f) ∧
      ((∀ f, f ∈ pageFiles pm → ¬ Within fromTime f) → BeginsBehind fromTime log)) := by
    intro hleg
    rcases hempty with ⟨rfl, f, hfiles, hwp⟩ | ⟨hne, hwp⟩
    · exact iff_of_false (not_agrees_empty hvs hfiles hwp hfrom) fun h => h.1 rfl
    · rw [agrees_iff hvs hwp hi hpos hfrom hq hleg]
      exact (and_iff_right hne).symm
  exact ⟨fun h => (hiff h.1).mpr h.2, hiff⟩

/-- Two pages with two measurements each, and a query between the two of the second page. -/
theorem statePart_iff_two : ∃ log pm, PageManager.runAll TimeSort.insertion 4 ([[.plain 0 3, .plain 1 5],
      [.plain 1 7, .plain 2 9]].map .call)
        {PageManager.start (calcSize 2) with curpage := some (create (calcSize 2))} = .ok (log, pm) ∧
    (pageFiles pm).length = 2 ∧ ∃ d : Directory pm, StateAgrees d 8 8 := by
  let pm₀ : PageManager := {PageManager.start (calcSize 2) with curpage := some (create (calcSize 2))}
  have hstart : (PageManager.start (calcSize 2)).createNewPage = .ok pm₀ := rfl
  obtain ⟨⟨log, pm⟩, hrun, hok⟩ := exists_ok
    (x := PageManager.runAll TimeSort.insertion 4 ([[.plain 0 3, .plain 1 5], [.plain 1 7, .plain 2 9]].map .call) pm₀)
    (p := fun x => decide (x.1 = [.plain 0 3, .plain 1 5, .plain 1 7, .plain 2 9] ∧ (pageFiles x.2).length = 2 ∧
      (∃ f, f ∈ pageFiles x.2 ∧ f.header.minTime ≤ 8 ∧ 8 ≤ f.header.maxTime) ∧
      ∀ f, f ∈ pageFiles x.2 → Apart f ∧ f.header.writePos ≠ 0 ∧
        (f.header.minTime ≤ 8 → 8 ≤ f.header.maxTime → 8 < f.header.maxTime ∧ 1 < f.indexFile.cachePos ∧
          (f.indexFile.cache 1).isLeaf = true ∧
            ∃ kv, kv ∈ (f.indexFile.cache 1).live ∧ kv.2.minTime ≤ 8 ∧ 8 ≤ kv.2.maxTime)))
    (by decide +kernel)
  obtain ⟨rfl, hlen, ⟨f₀, hf₀, hin₀⟩, hfiles⟩ := of_decide_eq_true hok
  have hi : Increasing [.plain 0 3, .plain 1 5, .plain 1 7, .plain 2 9] := by
    unfold Increasing
    decide
  obtain ⟨hvs, -⟩ := volumes_of_calls hstart hrun hi
  obtain ⟨d⟩ := exists_directory pm
  refine ⟨_, pm, hrun, hlen, d, ?_⟩
  refine (statePart_iff TimeSort.insertion 4 (calcSize 2) _ _ pm₀ pm hstart hrun hi (by decide) d 8 8 (by decide)
    le_rfl).1 ⟨fun f hf _ _ => ?_, List.cons_ne_nil _ _, fun f hf hin => ?_, fun hnone => absurd hin₀ (hnone f₀ hf₀)⟩
  · exact hvs.legible (fun g hg => (hfiles g hg).2.1) hi (by decide) hf (hfiles f hf).1
  · obtain ⟨hmax, hmade, hl, kv, hkv, hfirst, hlast⟩ := (hfiles f hf).2.2 hin.1 hin.2
    exact (beginsOn_inside hmax).mpr (.inl ⟨kv.2, ⟨1, kv, ⟨Nat.one_pos, hmade⟩, hl, hkv, rfl⟩, hfirst, hlast⟩)

/-- One measurement, and a query that begins after it: no page is scheduled, and at the time point the window of
the page has the measurement. -/
theorem statePart_misses : ∃ log pm, PageManager.runAll TimeSort.insertion 3 ([[.plain 1 5]].map .call)
        {PageManager.start (calcSize 2) with curpage := some (create (calcSize 2))} = .ok (log, pm) ∧
    log = [.plain 1 5] ∧ Increasing log ∧ (∀ m, m ∈ log → 0 < m.time) ∧ ∃ d : Directory pm, ¬ StateAgrees d 10 20 := by
  let pm₀ : PageManager := {PageManager.start (calcSize 2) with curpage := some (create (calcSize 2))}
  have hstart : (PageManager.start (calcSize 2)).createNewPage = .ok pm₀ := rfl
  obtain ⟨⟨log, pm⟩, hrun, hok⟩ := exists_ok
    (x := PageManager.runAll TimeSort.insertion 3 ([[.plain 1 5]].map .call) pm₀)
    (p := fun x => decide (x.1 = [.plain 1 5] ∧
      ∀ f, f ∈ pageFiles x.2 → f.header.writePos ≠ 0 ∧ f.header.maxTime < 10)) (by decide +kernel)
  obtain ⟨rfl, hfiles⟩ := of_decide_eq_true hok
  have hi : Increasing [.plain 1 5] := List.pairwise_singleton _ _
  obtain ⟨hvs, -⟩ := volumes_of_calls hstart hrun hi
  obtain ⟨d⟩ := exists_directory pm
  refine ⟨_, pm, hrun, rfl, hi, by decide, d, fun h => ?_⟩
  have hbehind : ∀ f, f ∈ pageFiles pm → ¬ 10 ≤ f.header.maxTime := fun f hf => not_le.mpr (hfiles f hf).2
  obtain ⟨-, hnone⟩ := (agrees_iff hvs (fun f hf => (hfiles f hf).1) hi (by decide) (by decide) (by decide)
    fun f hf _ hge => absurd hge (hbehind f hf)).mp h
  obtain ⟨⟨m, hm, hlt⟩, -⟩ := hnone (fun f hf hin => hbehind f hf hin.2) ⟨.plain 1 5, by decide, by decide⟩
  rw [List.mem_singleton.mp hm] at hlt
  exact absurd hlt (by decide)

end Nkvdb.Storage
