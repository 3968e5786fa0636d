import Nkvdb.Page.Chunks

/-! Readers that invent nothing.

A reader of positions delivers what passes of those it goes over, so it invents nothing just where these
read back what was appended. In the window the slots never written lie between those that were; where
`readNext` answers from it, they are delivered as far as the filter lets them through (`honest_iff`). -/
namespace Nkvdb.Page
open Index PageReaderInterval

/-! ### What a query goes over -/

/-- The measurement is kept of those that a page is read backwards over at `tp`: it is the newest of its id, from
the first one on that passes the tests. -/
def KeptBefore (ids : List Id) (source flag : Flag) (tp : Time) (p : Page) (m : Meas) : Prop :=
  ∃ irecords p', p.backwardRanges ids source flag tp = .ok (irecords, p') ∧
    (∀ i, i ∈ backwardPositions irecords → p.Readable i) ∧
    KeyedFold.Kept (backwardCheck ids source flag) Meas.time
      (seenBefore tp m.id ((backwardPositions irecords).map p.valueAt)) m

/-- What passes of the positions that a query goes over was appended, if it reads all of them. -/
def PassesAppended (given : List Meas) (ids : List Id) (source flag : Flag) (p : Page) : Query → Prop
  | .timePoint tp => p.header.writePos ≠ 0 → tp ≤ p.header.maxTime →
    ∀ m, KeptBefore ids source flag tp p m → Appended given m
  | .interval fromTime toTime => p.header.writePos ≠ 0 → fromTime ≤ p.header.maxTime →
    ∀ ranges p', p.intervalRanges ids source flag fromTime toTime = .ok (ranges, p') →
      (∀ i, i ∈ rangePositions ranges → p.Readable i) →
      (PointDue p' fromTime ranges → PointLegible ids source flag fromTime p') →
      (∀ i, i ∈ rangePositions ranges → inside fromTime toTime (p.valueAt i) = true →
        PageReader.checkValueFlags ⟨ids, source, flag, []⟩ (p.valueAt i) = true → Appended given (p.valueAt i)) ∧
      (PointDue p' fromTime ranges → ∀ m, KeptBefore ids source flag fromTime p' m → Appended given m)

/-! ### What it delivers -/

section
variable {fsize : U64} {log : List Meas} {recs : List IndexRecord} {p p' : Page} {ids : List Id} {source flag : Flag}
  {tp fromTime toTime : Time} {w : WriteWindow} {out : List Meas} {ranges : List (Nat × Nat)}

/-- A read at a time point on the page delivers what is kept of the positions, and slots of the window before. -/
theorem mem_timePointRead (hmax : tp ≤ p.header.maxTime)
    (h : (⟨ids, source, flag, w⟩ : PageReader).timePointRead tp p = .ok (out, p')) {m : Meas} (hm : m ∈ out) :
    m ∈ w ∧ m.time ≠ 0 ∨ KeptBefore ids source flag tp p m := by
  rw [PageReader.timePointRead_back hmax] at h
  obtain ⟨⟨vs, p₁⟩, hback, h⟩ := bind_ok h
  obtain ⟨rfl, -⟩ := Prod.mk.inj (Except.ok.inj h)
  obtain ⟨irecords, hranges, -, hread, rfl⟩ := backwardRead_iff.mp hback
  rcases List.mem_append.mp hm with hm | hm
  · obtain ⟨hm, hpass⟩ := List.mem_filter.mp hm
    simp only [Bool.and_eq_true, bne_iff_ne, ne_eq] at hpass
    exact .inl ⟨hm, hpass.1.1⟩
  · exact .inr ⟨irecords, _, hranges, hread, mem_visitAll_iff.mp hm⟩

/-- And all that is kept. -/
theorem Posted.timePointRead_kept (h : Posted fsize log recs p) (hpos : p.header.writePos ≠ 0)
    (hmax : tp ≤ p.header.maxTime) {m : Meas} (hm : KeptBefore ids source flag tp p m) :
    ∃ out p', (⟨ids, source, flag, w⟩ : PageReader).timePointRead tp p = .ok (out, p') ∧ m ∈ out := by
  obtain ⟨irecords, p', hranges, hread, hkept⟩ := hm
  have hin := h.backwardRanges_in (Nat.pos_of_ne_zero hpos) hranges
  have hback := backwardRead_iff.mpr ⟨irecords, hranges, fun x hx => by have := (hin x hx).1; omega, hread, rfl⟩
  obtain ⟨older, hrun⟩ : ∃ older, (⟨ids, source, flag, w⟩ : PageReader).timePointRead tp p = .ok (older ++ visitAll
      (backwardCheck ids source flag) tp ((backwardPositions irecords).map p.valueAt) [], p') := by
    rw [PageReader.timePointRead_back hmax, show p.backwardRead _ _ _ _ = _ from hback]
    exact ⟨_, rfl⟩
  exact ⟨_, p', hrun, List.mem_append_right _ (mem_visitAll_iff.mpr hkept)⟩

theorem ofRanges_passes {m : Meas} : (ofRanges ⟨ids, source, flag, w⟩ fromTime toTime ranges).passes m = true ↔
    inside fromTime toTime m = true ∧ PageReader.checkValueFlags ⟨ids, source, flag, []⟩ m = true := by
  rw [ofRanges_eq]
  exact Bool.and_eq_true_iff

/-- The reader of an interval, with the window before. -/
theorem deliver_interval (hpos : p.header.writePos ≠ 0) (hmax : fromTime ≤ p.header.maxTime) (fuel : Nat) :
    (Query.interval fromTime toTime).deliver ids source flag w fuel p =
      (p.intervalRanges ids source flag fromTime toTime).bind fun x =>
        ((ofRanges ⟨ids, source, flag, w⟩ fromTime toTime x.1).readAllBy readSize fuel x.2).map Prod.fst := by
  simp only [Query.deliver, readInterval_eq hpos hmax]
  cases p.intervalRanges ids source flag fromTime toTime with
  | error e => rfl
  | ok x =>
    simp only [Except.map, bind, Except.bind, PageReaderInterval.readAll, ofRanges_eq]
    cases PageReaderInterval.readAllBy readSize fuel _ x.2 <;> rfl

end

/-! ### Nothing is invented -/

/-- All that the reader of the query delivers was appended. -/
def Honest (given : List Meas) (ids : List Id) (source flag : Flag) (prev : WriteWindow) (p : Page) (q : Query) :
    Prop :=
  ∀ fuel out, q.deliver ids source flag prev fuel p = .ok out → ∀ m, m ∈ out → Appended given m

/-- No slot that was never written passes the filter, unless it looks like something appended. -/
def NoFiller (given : List Meas) (ids : List Id) (source flag : Flag) (p : Page) : Prop :=
  Meas.empty ∈ p.writeWindow → PageReader.checkValueFlags ⟨ids, source, flag, []⟩ Meas.empty = true →
    Appended given Meas.empty

section
variable {fsize : U64} {log given : List Meas} {recs : List IndexRecord} {p p' : Page} {ids : List Id}
  {source flag : Flag} {w : WriteWindow} {q : Query}

/-- The reader at a time point, on a page with something on it. -/
theorem deliver_timePoint (hpos : p.header.writePos ≠ 0) (tp : Time) (fuel : Nat) :
    (Query.timePoint tp).deliver ids source flag w fuel p =
      ((⟨ids, source, flag, w⟩ : PageReader).timePointRead tp p).map Prod.fst := by
  unfold Query.deliver readInTimePoint PageReaderTimePoint.readNext
  simp only [if_neg hpos, PageReaderTimePoint.isEnd, Bool.false_eq_true, if_false]
  cases PageReader.timePointRead ⟨ids, source, flag, w⟩ tp p <;> rfl

theorem deliver_nothing (hpos : p.header.writePos = 0) (fuel : Nat) : q.deliver ids source flag w fuel p = .ok [] := by
  cases q with
  | interval fromTime toTime =>
    unfold Query.deliver readInterval
    simp only [if_pos hpos]
    rfl
  | timePoint tp =>
    unfold Query.deliver readInTimePoint
    simp only [if_pos hpos]

/-- A query of positions invents nothing where what passes of them was appended, and the windows invent nothing. -/
theorem Posted.honest_of_passes (h : Posted fsize log recs p)
    (hpage : ∀ m, m ∈ p.writeWindow → m.time ≠ 0 → Appended given m)
    (hw : ∀ m, m ∈ w → m.time ≠ 0 → Appended given m) (hq : ¬ q.FromWindow p)
    (hpass : PassesAppended given ids source flag p q) : Honest given ids source flag w p q := by
  intro fuel out hout m hm
  by_cases hpos : p.header.writePos = 0
  · rw [deliver_nothing hpos] at hout
    obtain rfl := Except.ok.inj hout
    cases hm
  cases q with
  | timePoint tp =>
    rw [deliver_timePoint hpos] at hout
    cases hpoint : (⟨ids, source, flag, w⟩ : PageReader).timePointRead tp p with
    | error e =>
      rw [hpoint] at hout
      cases hout
    | ok x =>
      rw [hpoint] at hout
      obtain rfl := Except.ok.inj hout
      by_cases hmax : tp ≤ p.header.maxTime
      · rcases mem_timePointRead hmax hpoint hm with ⟨hm, ht⟩ | hkept
        · exact hw m hm ht
        · exact hpass hpos hmax m hkept
      · rw [PageReader.timePointRead_behind (not_le.mp hmax)] at hpoint
        obtain rfl := Except.ok.inj hpoint
        obtain ⟨hm, hcheck⟩ := List.mem_filter.mp hm
        exact hpage m hm (by simpa using (Bool.and_eq_true_iff.mp hcheck).1)
  | interval fromTime toTime =>
    have hmax : fromTime ≤ p.header.maxTime := not_lt.mp fun hlt => hq ⟨hpos, hlt⟩
    rw [deliver_interval hpos hmax] at hout
    obtain ⟨⟨ranges, p'⟩, hranges, hout⟩ := bind_ok hout
    cases hrun : (ofRanges ⟨ids, source, flag, w⟩ fromTime toTime ranges).readAllBy readSize fuel p' with
    | error e =>
      rw [hrun] at hout
      cases hout
    | ok x =>
      rw [hrun] at hout
      obtain rfl := Except.ok.inj hout
      obtain ⟨h', ⟨ix, rfl⟩, hin⟩ := h.intervalRanges_in hranges
      have hs : (ofRanges ⟨ids, source, flag, w⟩ fromTime toTime ranges).Sound {p with index := ix} :=
        ofRanges_sound hmax hin h'.areas.short
      obtain ⟨hread, first, p₁, hdue, hnone, rfl⟩ := (ofRanges_readAll_iff hs hs.steps
        (Nat.lt_succ_of_le (le_max_right fuel _))).mp (readAll_more hrun (Nat.le_succ_of_le (le_max_left ..)))
      obtain ⟨hall, hbefore⟩ := hpass hpos hmax ranges _ hranges hread fun d =>
        (h'.timePointRead_iff (q := ⟨ids, source, flag, w⟩) (Nat.pos_of_ne_zero hpos) hmax).mp ⟨_, hdue d⟩
      rcases List.mem_append.mp hm with hm | hm
      · by_cases d : PointDue {p with index := ix} fromTime ranges
        · have hmax' : fromTime ≤ ({p with index := ix} : Page).header.maxTime := hmax
          rcases mem_timePointRead hmax' (hdue d) hm with ⟨hm, ht⟩ | hkept
          · exact hw m hm ht
          · exact hbefore d m hkept
        · obtain ⟨rfl, -⟩ := hnone d
          cases hm
      · obtain ⟨hm, hpasses⟩ := List.mem_filter.mp hm
        obtain ⟨i, hi, rfl⟩ := List.mem_map.mp hm
        obtain ⟨hinside, hcheck⟩ := ofRanges_passes.mp hpasses
        exact hall i hi hinside hcheck

/-- All that passes is delivered. -/
theorem Posted.passes_of_honest (h : Posted fsize log recs p) (hall : Honest given ids source flag w p q) :
    PassesAppended given ids source flag p q := by
  cases q with
  | timePoint tp =>
    intro hpos hmax m hkept
    obtain ⟨out, p', hpoint, hm⟩ := h.timePointRead_kept (w := w) hpos hmax hkept
    refine hall 0 out ?_ m hm
    rw [deliver_timePoint hpos, hpoint]
    rfl
  | interval fromTime toTime =>
    intro hpos hmax ranges p' hranges hread hlegible
    obtain ⟨h', ⟨ix, rfl⟩, hin⟩ := h.intervalRanges_in hranges
    have hs : (ofRanges ⟨ids, source, flag, w⟩ fromTime toTime ranges).Sound {p with index := ix} :=
      ofRanges_sound hmax hin h'.areas.short
    have hpos' : 0 < p.header.writePos := Nat.pos_of_ne_zero hpos
    obtain ⟨ms, first, p₁, steps, hms, hdue, -, hrun⟩ := Steps.readsRanges hs.steps hs hread fun d =>
      (h'.timePointRead_iff (q := ⟨ids, source, flag, w⟩) hpos' hmax).mpr (hlegible d)
    obtain ⟨-, rfl⟩ := mapM_readAt_iff.mp hms
    have hout := hall steps _ (by
      rw [deliver_interval hpos hmax, hranges]
      show Except.map Prod.fst _ = _
      rw [hrun steps le_rfl]
      rfl)
    constructor
    · intro i hi hinside hcheck
      refine hout _ (List.mem_append_right _ (List.mem_filter.mpr ⟨List.mem_map_of_mem hi, ?_⟩))
      exact ofRanges_passes.mpr ⟨hinside, hcheck⟩
    · intro d m hkept
      obtain ⟨out, p₂, hpoint, hm⟩ := h'.timePointRead_kept (w := w) hpos hmax hkept
      obtain ⟨rfl, -⟩ := Prod.mk.inj (Except.ok.inj ((hdue d).symm.trans hpoint))
      exact hout m (List.mem_append_left _ hm)

/-- Where the positions read back what was appended, so does what passes of them. -/
theorem ReadsTrue.passes (hread : ReadsTrue log p) (hsub : ∀ m, m ∈ log → m ∈ given) :
    PassesAppended given ids source flag p q := by
  have hkept : ∀ {tp p' m}, Searched p p' → KeptBefore ids source flag tp p' m → Appended given m := by
    rintro tp p' m ⟨ix, rfl⟩ ⟨irecords, p₁, -, hall, hkept⟩
    obtain ⟨hm, -⟩ := mem_seenBefore.mp hkept.mem
    obtain ⟨i, hi, rfl⟩ := List.mem_map.mp hm
    exact (hread i _ (hall i hi)).mono hsub
  cases q with
  | timePoint tp => exact fun _ _ m hm => hkept ⟨p.index, rfl⟩ hm
  | interval fromTime toTime =>
    intro _ _ ranges p' hranges hall _
    refine ⟨fun i hi _ _ => (hread i _ (hall i hi)).mono hsub, fun _ m hm => hkept ?_ hm⟩
    unfold intervalRanges at hranges
    split at hranges
    · obtain ⟨-, rfl⟩ := Prod.mk.inj (Except.ok.inj hranges)
      exact ⟨p.index, rfl⟩
    · obtain ⟨x, -, hranges⟩ := bind_ok hranges
      obtain ⟨-, rfl⟩ := Prod.mk.inj (Except.ok.inj hranges)
      exact ⟨x.2, rfl⟩

end
/-- A window with a gap, and an interval after the page. -/
theorem filler_delivered : ¬ ∀ (fsize fsize' : U64) (log carried log' carried' : List Meas) (p p' : Page)
    (ids : List Id) (source flag : Flag) (q : Query), Built fsize log carried p → Built fsize' log' carried' p' →
    Honest (log ++ carried ++ (log' ++ carried')) ids source flag p'.writeWindow p q := by
  intro h
  have hrun : ((Op.single (.plain 5 1) (0, 0)).run (create (calcSize 2))).toOption.any (fun x =>
      (Query.deliver [] 0 0 [] 2 x.2 (.interval 2 3)).toOption.any fun out => decide (Meas.empty ∈ out)) = true := by
    decide +kernel
  obtain ⟨⟨r, p⟩, hp, hout⟩ := (Option.any_eq_true _ _).mp hrun
  obtain ⟨out, hout, hmem⟩ := (Option.any_eq_true _ _).mp hout
  have hbuilt := (Built.create (calcSize 2)).append (toOption_eq_some.mp hp)
  obtain ⟨g, hg, hsame⟩ := h _ (calcSize 2) _ [] [] [] p _ [] 0 0 (.interval 2 3) hbuilt (.create _) 2 out
    (toOption_eq_some.mp hout) Meas.empty (of_decide_eq_true hmem)
  have hid := hsame.id
  rw [List.append_nil, List.append_nil, List.append_nil] at hg
  obtain rfl := List.mem_singleton.mp (List.mem_of_mem_take hg)
  exact absurd hid (by decide)

/-- A page made by appends is one in use. -/
theorem Built.posted {fsize : U64} {log carried : List Meas} {p : Page} (h : Built fsize log carried p) :
    ∃ recs, Posted fsize log recs p := by
  have hused : Used fsize log p := by
    induction h with
    | create => exact .create
    | append _ hrun ih => exact ih.append hrun
    | flushIndex _ hflush ih =>
      obtain ⟨ix, hf, rfl⟩ := flushIndex_iff.mp hflush
      exact ih.flush hf
    | setWriteWindow _ _ ih _ => exact ih.setWriteWindow _
  exact hused.posted

/-- A page built by appends and carried windows, a query, and the window of another such page as
the one before. Where the window answers the query, nothing is invented if and only if no
slot never written passes the filter. Every other query invents nothing if and only if what passes of
the positions that it goes over was appended. -/
theorem honest_iff {fsize fsize' : U64} {log carried log' carried' : List Meas} {p p' : Page}
    (h : Built fsize log carried p) (h' : Built fsize' log' carried' p') (ids : List Id) (source flag : Flag)
    (q : Query) :
    (q.FromWindow p → (Honest (log ++ carried ++ (log' ++ carried')) ids source flag p'.writeWindow p q ↔
      NoFiller (log ++ carried ++ (log' ++ carried')) ids source flag p)) ∧
    (¬ q.FromWindow p → (Honest (log ++ carried ++ (log' ++ carried')) ids source flag p'.writeWindow p q ↔
      PassesAppended (log ++ carried ++ (log' ++ carried')) ids source flag p q)) := by
  constructor
  · intro hq
    constructor
    · intro hall hmem hpass
      exact hall 2 _ (deliver_window_two hq) Meas.empty (List.mem_filter.mpr ⟨hmem, hpass⟩)
    · intro hnone fuel out hout m hm
      rw [deliver_window hq hout] at hm
      obtain ⟨hm, hpass⟩ := List.mem_filter.mp hm
      rcases h.window hm with rfl | hgiven
      · exact hnone hm hpass
      · exact .of_mem (List.mem_append_left _ hgiven)
  · intro hq
    obtain ⟨recs, hp⟩ := h.posted
    -- the empty measurement has time 0
    have htime : ∀ {x : Meas}, x.time ≠ 0 → x ≠ Meas.empty := by
      rintro x hx rfl
      exact hx rfl
    refine ⟨hp.passes_of_honest, hp.honest_of_passes (fun m hm ht => ?_) (fun m hm ht => ?_) hq⟩
    · exact .of_mem (List.mem_append_left _ ((h.window hm).resolve_left (htime ht)))
    · exact .of_mem (List.mem_append_right _ ((h'.window hm).resolve_left (htime ht)))

/-- A page of one measurement, for the id 0. -/
theorem honest_iff_one : ∃ r p, (Op.single (.plain 0 1) (0, 0)).run (create (calcSize 2)) = .ok (r, p) ∧
    Honest [.plain 0 1] [] 0 0 [] p (.interval 2 3) ∧ Honest [.plain 0 1] [] 0 0 [] p (.timePoint 1) := by
  have hrun : ((Op.single (.plain 0 1) (0, 0)).run (create (calcSize 2))).toOption.any (fun x =>
      decide (x.1 = ⟨1, 0⟩ ∧ x.2.header.writePos ≠ 0 ∧ x.2.header.maxTime < 2 ∧ Meas.empty ∉ x.2.writeWindow)) =
      true := by decide +kernel
  obtain ⟨⟨r, p⟩, hp, hx⟩ := (Option.any_eq_true _ _).mp hrun
  obtain ⟨rfl, hpos, hmax, hwin⟩ := of_decide_eq_true hx
  have hp := toOption_eq_some.mp hp
  have hbuilt : Built (calcSize 2) [.plain 0 1] [] p := (Built.create (calcSize 2)).append hp
  have hread := hbuilt.readsTrue (by unfold Fits; decide)
  refine ⟨_, p, hp, ?_, ?_⟩
  · exact ((honest_iff hbuilt (.create (calcSize 2)) [] 0 0 (.interval 2 3)).1 ⟨hpos, hmax⟩).mpr
      fun hmem => absurd hmem hwin
  · exact ((honest_iff hbuilt (.create (calcSize 2)) [] 0 0 (.timePoint 1)).2 id).mpr
      (hread.passes fun m hm => hm)

end Nkvdb.Page
