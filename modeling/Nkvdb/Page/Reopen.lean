import Nkvdb.Page.Capacity

/-! Closing and opening a page between appends.

A run with and one without it go through pages that differ in the index and the window
file only. What closing needs is that the tree takes the records it flushes. -/
namespace Nkvdb.Page

/-- A step of a run: an append, or `close` and `Open`. -/
inductive Event where
  | append (op : Op)
  | reopen

def Event.run : Event → Page → Except Fault (List Meas × Page)
  | .append op, p => do
    let (r, p) ← op.run p
    return (op.meases.take r.writed, p)
  | .reopen, p => do
    let f ← p.close
    let p ← openFile f false
    return ([], p)

def runAll : List Event → Page → Except Fault (List Meas × Page)
  | [], p => .ok ([], p)
  | e :: events, p => do
    let (new, p) ← e.run p
    let (log, p) ← runAll events p
    return (new ++ log, p)

/-- The appends of a run. -/
def appends : List Event → List Op
  | [] => []
  | .append op :: events => op :: appends events
  | .reopen :: events => appends events

/-! ### What the index is asked to do -/

instance (fsize : U64) (log : List Meas) : Decidable (FullAt fsize log) := by
  unfold FullAt
  infer_instance

/-- How many of `ms` a page that holds `log` accepts. -/
def accepts (fsize : U64) : List Meas → List Meas → Nat
  | _, [] => 0
  | log, m :: ms => if FullAt fsize log then 0 else accepts fsize (log ++ [m]) ms + 1

/-- The measurements accepted, the records written, and how many of these are in the tree. -/
structure Progress where
  log : List Meas
  recs : List IndexRecord
  done : Nat

/-- An automatic flush comes with the record that finds the buffer full; closing flushes all. -/
def Progress.next (fsize : U64) (s : Progress) : Event → Progress
  | .append op =>
    let k := accepts fsize s.log op.meases
    let new := op.records s.log.length k
    ⟨s.log ++ op.meases.take k, s.recs ++ new, Index.lastFlush indexCacheSize s.recs.length s.done new.length⟩
  | .reopen => {s with done := s.recs.length}

def progress (fsize : U64) (events : List Event) (s : Progress) : Progress := events.foldl (Progress.next fsize) s

theorem Progress.next_bounds (fsize : U64) (s : Progress) (e : Event) (h : s.done ≤ s.recs.length) :
    s.done ≤ (s.next fsize e).done ∧ (s.next fsize e).done ≤ (s.next fsize e).recs.length ∧
      s.recs <+: (s.next fsize e).recs := by
  cases e with
  | append op =>
    have := Index.lastFlush_bounds indexCacheSize (op.records s.log.length (accepts fsize s.log op.meases)).length h
    refine ⟨this.1, ?_, List.prefix_append ..⟩
    show _ ≤ (s.recs ++ _).length
    rw [List.length_append]
    exact this.2
  | reopen => exact ⟨h, le_rfl, List.prefix_rfl⟩

theorem progress_bounds (fsize : U64) (events : List Event) (s : Progress) (h : s.done ≤ s.recs.length) :
    s.done ≤ (progress fsize events s).done ∧ s.recs <+: (progress fsize events s).recs := by
  induction events generalizing s with
  | nil => exact ⟨le_rfl, List.prefix_rfl⟩
  | cons e events ih =>
    obtain ⟨h1, h2, h3⟩ := s.next_bounds fsize e h
    obtain ⟨h4, h5⟩ := ih (s.next fsize e) h2
    exact ⟨h1.trans h4, h3.trans h5⟩

theorem acceptAll_accepts {fsize : U64} {log ms : List Meas} {p q : Page} {k : Nat} (h : Areas fsize log p)
    (ha : acceptAll ms p = .ok (k, q)) : k = accepts fsize log ms := by
  induction ms generalizing log p k with
  | nil => exact (acceptAll_nil ha).1
  | cons m ms ih =>
    unfold accepts
    rcases acceptAll_cons ha with ⟨hfull, rfl, -⟩ | ⟨hfull, w, n, -, hr, hrest, rfl⟩
    · exact (if_pos (h.isFull_iff.mp hfull)).symm
    · rw [if_neg fun hf => hfull (h.isFull_iff.mpr hf), ih (h.put hr w) hrest]

/-! ### The page in use -/

/-- A page open for appends that holds `log`. -/
structure InUse (fsize : U64) (log : List Meas) (p : Page) : Prop where
  areas : Areas fsize log p
  tracks : WriteWindow.Tracks log p.writeWindow
  version : p.header.version = pageVersion
  isOpen : p.header.isOpen = true
  readers : p.header.readersCount = 0
  windowSize : p.header.writeWindowSize = p.writeWindow.length

theorem InUse.create (fsize : U64) : InUse fsize [] (create fsize) :=
  ⟨Areas.create fsize, WriteWindow.Tracks.empty, rfl, rfl, rfl, rfl⟩

theorem InUse.acceptAll {fsize : U64} {log ms : List Meas} {p q : Page} {k : Nat} (h : InUse fsize log p)
    (ha : acceptAll ms p = .ok (k, q)) : InUse fsize (log ++ ms.take k) q := by
  have htracks := h.tracks.updateAll (acceptAll_window ha)
  have hareas := (acceptAll_taken h.areas ha).1
  -- the other fields of the header stay, or follow the window
  have hrest : q.header.version = p.header.version ∧ q.header.isOpen = p.header.isOpen ∧
      q.header.readersCount = p.header.readersCount ∧ q.header.writeWindowSize = q.writeWindow.length :=
    acceptAll_keeps (P := fun q => q.header.version = p.header.version ∧ q.header.isOpen = p.header.isOpen ∧
        q.header.readersCount = p.header.readersCount ∧ q.header.writeWindowSize = q.writeWindow.length)
      (fun _ _ _ _ hp => ⟨hp.1, hp.2.1, hp.2.2.1, rfl⟩) ha ⟨rfl, rfl, rfl, h.windowSize⟩
  exact ⟨hareas, htracks, hrest.1.trans h.version, hrest.2.1.trans h.isOpen, hrest.2.2.1.trans h.readers,
    hrest.2.2.2⟩

theorem InUse.finish {fsize : U64} {log : List Meas} {p : Page} (h : InUse fsize log p) (op : Op) (k : Nat)
    (ix : Index) : InUse fsize log (p.finish op k ix) := by
  have harea := h.areas.finish op k ix
  obtain ⟨init, lo, hi, he⟩ := op.minMax_eq k p.header
  unfold Page.finish at harea ⊢
  rw [he] at harea ⊢
  exact ⟨harea, h.tracks, h.version, h.isOpen, h.readers, h.windowSize⟩

theorem InUse.appendAll {fsize : U64} {log new : List Meas} {ops : List Op} {p p' : Page} (h : InUse fsize log p)
    (hrun : appendAll ops p = .ok (new, p')) : InUse fsize (log ++ new) p' := by
  apply appendAll_keeps (P := fun log p => InUse fsize log p) _ h hrun
  intro op _ log p r p' hp hrun
  obtain ⟨-, k, q, ix, ha, -, rfl, rfl⟩ := Op.run_iff.mp hrun
  exact (hp.acceptAll ha).finish op k ix

/-! ### The two runs side by side -/

/-- The page of the run without closing, and that of the run with it. -/
structure Beside (fsize : U64) (s : Progress) (p p' : Page) : Prop where
  inUse : InUse fsize s.log p
  same : p' = p.rebase p'.index p'.windowFile
  kept : Index.Kept indexCacheSize (indexNodes fsize) s.recs s.done p'.index
  file : p'.writeWindow = [] → p'.windowFile = none

theorem Beside.create (fsize : U64) : Beside fsize ⟨[], [], 0⟩ (create fsize) (create fsize) :=
  ⟨InUse.create fsize, rfl, Index.Kept.create .., fun _ => rfl⟩

/-- An append with its parts, from either page. -/
theorem Beside.run_iff {fsize : U64} {s : Progress} {p p' p₁ : Page} {op : Op} {r : AppendResult}
    (h : Beside fsize s p p') (hrun : op.run p = .ok (r, p₁)) (r' : AppendResult) (p₁' : Page) :
    op.run p' = .ok (r', p₁') ↔ ∃ q ix ix', acceptAll op.meases p = .ok (accepts fsize s.log op.meases, q) ∧
      Index.Kept indexCacheSize (indexNodes fsize) (s.next fsize (.append op)).recs
        (s.next fsize (.append op)).done ix' ∧
      r = ⟨accepts fsize s.log op.meases, 0⟩ ∧ r' = r ∧
      p₁ = q.finish op (accepts fsize s.log op.meases) ix ∧ p₁' = p₁.rebase ix' p'.windowFile := by
  obtain ⟨hall, k, q, ix, hacc, -, rfl, rfl⟩ := Op.run_iff.mp hrun
  obtain rfl := acceptAll_accepts h.inUse.areas hacc
  have hacc' : acceptAll op.meases p' =
      .ok (accepts fsize s.log op.meases, q.rebase p'.index p'.windowFile) := by
    rw [h.same, acceptAll_rebase, hacc]
    rfl
  have hall' : op.Allowed p' := by
    rw [h.same]
    exact hall
  have hpos : p'.header.writePos = s.log.length := by
    rw [h.same]
    exact h.inUse.areas.writePos
  rw [Op.run_iff, hpos]
  constructor
  · rintro ⟨-, k, q', ix', hq', hf, rfl, rfl⟩
    rw [hacc'] at hq'
    obtain ⟨rfl, rfl⟩ : accepts fsize s.log op.meases = k ∧ _ = q' := by simpa using hq'
    exact ⟨q, ix, ix', hacc, (h.kept.feed_iff _).mp hf, rfl, rfl, rfl, rfl⟩
  · rintro ⟨q', ix₁, ix', hq', hk, -, rfl, hp, rfl⟩
    rw [hacc] at hq'
    obtain rfl : q = q' := by simpa using hq'
    exact ⟨hall', _, _, ix', hacc', (h.kept.feed_iff _).mpr hk, rfl, rfl⟩

theorem Beside.append {fsize : U64} {s : Progress} {p p' p₁ p₁' : Page} {op : Op} {r r' : AppendResult}
    (h : Beside fsize s p p') (hrun : op.run p = .ok (r, p₁)) (hrun' : op.run p' = .ok (r', p₁')) :
    r' = r ∧ r = ⟨accepts fsize s.log op.meases, 0⟩ ∧ Beside fsize (s.next fsize (.append op)) p₁ p₁' := by
  obtain ⟨q, ix, ix', hacc, hk, hr, rfl, rfl, rfl⟩ := (h.run_iff hrun r' p₁').mp hrun'
  refine ⟨rfl, hr, (h.inUse.acceptAll hacc).finish op _ ix, rfl, hk, fun hw => ?_⟩
  -- the window has not grown, so there was none before
  have hgrown : p'.writeWindow = [] := by
    have hq : q.writeWindow = [] := hw
    have := WriteWindow.length_updateAll (acceptAll_window hacc)
    rw [hq] at this
    rw [h.same]
    exact List.eq_nil_of_length_eq_zero (Nat.le_zero.mp this)
  exact h.file hgrown

/-- The window is loaded as it was saved. -/
theorem load_windowFile {log : List Meas} {w : WriteWindow} {file : Option (List Meas)}
    (h : WriteWindow.Tracks log w) (hfile : w = [] → file = none) :
    WriteWindow.load (if w.length ≠ 0 then some w else file) [] = .ok w := by
  by_cases hw : w = []
  · rw [hfile hw, hw]
    rfl
  · rw [if_pos fun h0 => hw (List.eq_nil_of_length_eq_zero h0)]
    exact WriteWindow.load_saved h hw

/-- Closing and opening gives the same page, with its index flushed. -/
theorem Beside.run_reopen_iff {fsize : U64} {s : Progress} {p p' p₁' : Page} {new : List Meas}
    (h : Beside fsize s p p') : Event.reopen.run p' = .ok (new, p₁') ↔ new = [] ∧
      ∃ ix, Index.Kept indexCacheSize (indexNodes fsize) s.recs s.recs.length ix ∧
        p₁' = p.rebase ix (if p.writeWindow.length ≠ 0 then some p.writeWindow else p'.windowFile) := by
  have hw : p'.writeWindow = p.writeWindow := by rw [h.same]; rfl
  have hopen : ∀ ix, Index.Kept indexCacheSize (indexNodes fsize) s.recs s.recs.length ix →
      openFile ⟨{p'.header with writeWindowSize := p'.writeWindow.length, isOpen := false, readersCount := 0},
        p'.rawData, ix.tree, if p'.writeWindow.length ≠ 0 then some p'.writeWindow else p'.windowFile⟩ false =
      .ok (p.rebase ix (if p.writeWindow.length ≠ 0 then some p.writeWindow else p'.windowFile)) := by
    intro ix hk
    have hix : Index.openFile indexCacheSize ix.tree = ix := by
      refine Index.Kept.unique ⟨rfl, le_rfl, hk.tree, ?_⟩ hk
      rw [List.drop_length]
      rfl
    have hload := load_windowFile h.inUse.tracks (hw ▸ h.file)
    have hheader : p'.header = p.header := by rw [h.same]; rfl
    have hraw : p'.rawData = p.rawData := by rw [h.same]; rfl
    have hsame : ({p.header with
        writeWindowSize := p.writeWindow.length, isOpen := true, readersCount := 0} : Header) = p.header := by
      rw [← h.inUse.windowSize, ← h.inUse.isOpen, ← h.inUse.readers]
    rw [hw, hheader, hraw]
    refine openFile_iff.mpr ⟨fun _ => rfl, h.inUse.version, p.writeWindow, hload, ?_⟩
    rw [hix]
    exact congrArg (fun x => Page.mk x p.rawData ix p.writeWindow _) hsame.symm
  constructor
  · intro hrun
    obtain ⟨f, hf, hrun⟩ := bind_ok hrun
    obtain ⟨ix, hix, rfl⟩ := close_iff.mp hf
    have hk := h.kept.flush_iff.mp hix
    rw [hopen ix hk] at hrun
    obtain ⟨rfl, rfl⟩ := Prod.mk.inj (Except.ok.inj hrun)
    exact ⟨rfl, ix, hk, rfl⟩
  · rintro ⟨rfl, ix, hk, rfl⟩
    have hclose := close_iff.mpr ⟨ix, h.kept.flush_iff.mpr hk, rfl⟩
    simp only [Event.run, hclose, hopen ix hk, bind, Except.bind, pure, Except.pure]

theorem Beside.reopen {fsize : U64} {s : Progress} {p p' : Page} (h : Beside fsize s p p') {ix : Index}
    (hk : Index.Kept indexCacheSize (indexNodes fsize) s.recs s.recs.length ix) :
    Beside fsize (s.next fsize .reopen) p
      (p.rebase ix (if p.writeWindow.length ≠ 0 then some p.writeWindow else p'.windowFile)) := by
  refine ⟨h.inUse, rfl, hk, fun hw => ?_⟩
  have hw : p.writeWindow = [] := hw
  have hw' : p'.writeWindow = [] := by
    rw [h.same]
    exact hw
  show (if p.writeWindow.length ≠ 0 then _ else _) = none
  rw [hw]
  exact h.file hw'

/-! ### Whole runs -/

/-- What closing and opening must leave alone: all but the index and the window file. -/
structure SameContents (p p' : Page) : Prop where
  header : p'.header = p.header
  rawData : p'.rawData = p.rawData
  writeWindow : p'.writeWindow = p.writeWindow

theorem Beside.sameContents {fsize : U64} {s : Progress} {p p' : Page} (h : Beside fsize s p p') :
    SameContents p p' := by
  rw [h.same]
  exact ⟨rfl, rfl, rfl⟩

theorem Beside.runAll_iff {fsize : U64} {s : Progress} {p p' q : Page} {events : List Event} {log : List Meas}
    (h : Beside fsize s p p') (hrun : appendAll (appends events) p = .ok (log, q)) :
    (∃ q', runAll events p' = .ok (log, q') ∧ SameContents q q') ↔
      Index.Takes (indexNodes fsize) (progress fsize events s).recs (progress fsize events s).done := by
  induction events generalizing s p p' log with
  | nil =>
    obtain ⟨rfl, rfl⟩ : [] = log ∧ p = q := by simpa [appends, appendAll] using hrun
    exact ⟨fun _ => h.kept.takes, fun _ => ⟨p', rfl, h.sameContents⟩⟩
  | cons e events ih =>
    -- what comes after needs what the step itself needs
    have hstep : Index.Takes (indexNodes fsize) (progress fsize events (s.next fsize e)).recs
        (progress fsize events (s.next fsize e)).done →
        ∃ ix, Index.Kept indexCacheSize (indexNodes fsize) (s.next fsize e).recs (s.next fsize e).done ix := by
      intro ht
      obtain ⟨-, hb, -⟩ := s.next_bounds fsize e h.kept.le
      obtain ⟨hd, rest, hrest⟩ := progress_bounds fsize events (s.next fsize e) hb
      rw [← hrest] at ht
      exact Index.Kept.exists_of_takes _ hb (ht.le hd hb)
    cases e with
    | append op =>
      obtain ⟨⟨r, p₁⟩, h₁, h₂⟩ := bind_ok hrun
      obtain ⟨⟨rest, p₂⟩, h₃, h₄⟩ := bind_ok h₂
      obtain ⟨rfl, rfl⟩ := Prod.mk.inj (Except.ok.inj h₄)
      constructor
      · rintro ⟨q', hq', hsame⟩
        obtain ⟨⟨new, p₁'⟩, h₁', h₂'⟩ := bind_ok hq'
        obtain ⟨⟨r', p₁''⟩, h₅, h₆⟩ := bind_ok h₁'
        obtain ⟨rfl, rfl⟩ := Prod.mk.inj (Except.ok.inj h₆)
        obtain ⟨⟨rest', q''⟩, h₇, h₈⟩ := bind_ok h₂'
        obtain ⟨heq, rfl⟩ := Prod.mk.inj (Except.ok.inj h₈)
        obtain ⟨rfl, -, hb⟩ := h.append h₁ h₅
        obtain rfl := List.append_cancel_left heq
        exact (ih hb h₃).mp ⟨q'', h₇, hsame⟩
      · intro ht
        obtain ⟨ix', hk⟩ := hstep ht
        obtain ⟨hall, k, q₁, ix, hacc, hf, rfl, rfl⟩ := Op.run_iff.mp h₁
        have hk' := acceptAll_accepts h.inUse.areas hacc
        have hrun' := (h.run_iff h₁ _ _).mpr ⟨q₁, ix, ix', hk' ▸ hacc, hk, by rw [hk'], rfl, by rw [hk'], rfl⟩
        obtain ⟨-, -, hb⟩ := h.append h₁ hrun'
        obtain ⟨q', hq', hsame⟩ := (ih hb h₃).mpr ht
        refine ⟨q', ?_, hsame⟩
        simp only [runAll, Event.run, hrun', hq', bind, Except.bind, pure, Except.pure]
    | reopen =>
      constructor
      · rintro ⟨q', hq', hsame⟩
        obtain ⟨⟨new, p₁'⟩, h₁', h₂'⟩ := bind_ok hq'
        obtain ⟨rfl, ix, hk, rfl⟩ := h.run_reopen_iff.mp h₁'
        obtain ⟨⟨rest', q''⟩, h₇, h₈⟩ := bind_ok h₂'
        obtain ⟨rfl, rfl⟩ := Prod.mk.inj (Except.ok.inj h₈)
        exact (ih (h.reopen hk) hrun).mp ⟨q'', h₇, hsame⟩
      · intro ht
        obtain ⟨ix, hk⟩ := hstep ht
        obtain ⟨q', hq', hsame⟩ := (ih (h.reopen hk) hrun).mpr ht
        refine ⟨q', ?_, hsame⟩
        have hrun' := h.run_reopen_iff.mpr ⟨rfl, ix, hk, rfl⟩
        show (Event.reopen.run p' >>= _) = _
        rw [hrun']
        simp only [hq', bind, Except.bind, pure, Except.pure, List.nil_append]

/-- Twenty measurements one by one, and a close: the tree of the index file of a page of
`calcSize 20` has no node to split its root with. -/
theorem reopen_broken : ¬ ∀ (fsize : U64) (events : List Event) (log : List Meas) (p : Page),
    (∀ m, m ∈ handed (appends events) → m.id.val + 1 < 2 ^ 64) →
    appendAll (appends events) (create fsize) = .ok (log, p) →
    ∃ p', runAll events (create fsize) = .ok (log, p') ∧ SameContents p p' := by
  intro h
  let events : List Event := (List.range 20).map (fun i => .append (.single (.plain i (i + 1)) (0, 0))) ++ [.reopen]
  have hplain : (appendAll (appends events) (create (calcSize 20))).toOption.isSome = true := by decide +kernel
  have hrun : (runAll events (create (calcSize 20))).toOption.isNone = true := by decide +kernel
  cases hp : appendAll (appends events) (create (calcSize 20)) with
  | error e =>
    rw [hp] at hplain
    cases hplain
  | ok x =>
    obtain ⟨p', hp', -⟩ := h (calcSize 20) events x.1 x.2 (by decide) hp
    rw [hp'] at hrun
    cases hrun

/-- For a run of appends that completes, closing and opening at any points between them
leaves header, data and window as they are if and only if the tree of the index file
takes the records written before the last close or automatic flush. -/
theorem reopen_iff (fsize : U64) (events : List Event) (log : List Meas) (p : Page)
    (hrun : appendAll (appends events) (create fsize) = .ok (log, p)) :
    (∃ p', runAll events (create fsize) = .ok (log, p') ∧ SameContents p p') ↔
      Index.Takes (indexNodes fsize) (progress fsize events ⟨[], [], 0⟩).recs
        (progress fsize events ⟨[], [], 0⟩).done :=
  (Beside.create fsize).runAll_iff hrun

theorem reopen_iff_two : ∃ log p, appendAll [.single (.plain 3 1) (0, 0), .array [.plain 1 0, .plain 3 2]]
      (create (calcSize 4)) = .ok (log, p) ∧
    ∃ p', runAll [.reopen, .append (.single (.plain 3 1) (0, 0)), .reopen, .append (.array [.plain 1 0, .plain 3 2]),
      .reopen] (create (calcSize 4)) = .ok (log, p') ∧ SameContents p p' := by
  refine ⟨_, _, rfl, (reopen_iff (calcSize 4) _ _ _ rfl).mpr ⟨_, rfl⟩⟩

end Nkvdb.Page
