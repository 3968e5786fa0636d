import Nkvdb.Page.Beginning
import Nkvdb.Storage.Directory
import Nkvdb.Storage.Pages

/-! The pages that an interval query begins with.

The pages before it push nothing. From the page behind which, or on which, the query begins the walk
depends on whether that page ends by then and whether another follows (`again`), and on all later pages
only by their own cases. -/
namespace Nkvdb.Storage
open Page

section
variable {fromTime toTime : Time} {prev : Option PageInfo} {earlier later pages : List PageInfo} {p q : PageInfo}
  {sel : Selection}

/-! ### The walk of `readInterval` -/

theorem visitInterval_before (hle : p.header.minTime ≤ p.header.maxTime) (hmax : p.header.maxTime < fromTime)
    (hq : fromTime ≤ toTime) : visitInterval fromTime toTime prev p sel = sel := by
  have hmin := hle.trans_lt hmax
  have h1 : ¬ (p.header.minTime ≤ fromTime ∧ toTime ≤ p.header.maxTime) := fun h =>
    absurd (hq.trans h.2) (not_le.mpr hmax)
  have h2 : ¬ (p.header.minTime ≤ fromTime ∧ fromTime < p.header.maxTime) := fun h => absurd h.2 (not_lt.mpr hmax.le)
  have h3 : ¬ (fromTime < p.header.minTime ∧ prev.any fun q => q.header.maxTime ≤ fromTime) := fun h =>
    absurd h.1 (not_lt.mpr hmin.le)
  have h4 : ¬ (fromTime ≤ p.header.minTime ∧ toTime ≤ p.header.maxTime ∧ p.header.minTime ≤ toTime) := fun h =>
    absurd h.1 (not_le.mpr hmin)
  have h5 : ¬ (fromTime ≤ p.header.minTime ∧ p.header.maxTime ≤ toTime) := fun h => absurd h.1 (not_le.mpr hmin)
  unfold visitInterval
  simp only [if_neg h1, if_neg h2, if_neg h3, if_neg h4, if_neg h5]

/-- Pages that end before the query does begin are passed over. -/
theorem intervalLoop_earlier (hle : ∀ p, p ∈ earlier → p.header.minTime ≤ p.header.maxTime)
    (hmax : ∀ p, p ∈ earlier → p.header.maxTime < fromTime) (hq : fromTime ≤ toTime) :
    intervalLoop [] 0 0 fromTime toTime prev (earlier ++ pages) sel =
      intervalLoop [] 0 0 fromTime toTime (earlier.getLast?.or prev) pages sel := by
  induction earlier generalizing prev with
  | nil => rfl
  | cons p earlier ih =>
    obtain ⟨hp, hle⟩ := List.forall_mem_cons.mp hle
    obtain ⟨hpm, hmax⟩ := List.forall_mem_cons.mp hmax
    have hfilter : filteredOut [] 0 0 p.header = false := rfl
    rw [List.cons_append, intervalLoop, hfilter, if_neg Bool.false_ne_true, visitInterval_before hp hpm hq, ih hle hmax]
    congr 1
    cases earlier with
    | nil => rfl
    | cons p' earlier => simp [List.getLast?_cons]

/-- A page that begins after the query does, with none before it that ends by then. -/
theorem visitInterval_later (toTime : Time) (sel : Selection) (hmin : fromTime < p.header.minTime)
    (hprev : prev.any (fun q => decide (q.header.maxTime ≤ fromTime)) = false) :
    ∃ names, names.Sublist [p.name] ∧
      visitInterval fromTime toTime prev p sel = ⟨sel.pagesToRead ++ names, sel.prevIntervalPage⟩ := by
  have h1 : ¬ (p.header.minTime ≤ fromTime ∧ toTime ≤ p.header.maxTime) := fun h => absurd h.1 (not_le.mpr hmin)
  have h2 : ¬ (p.header.minTime ≤ fromTime ∧ fromTime < p.header.maxTime) := fun h => absurd h.1 (not_le.mpr hmin)
  have h3 : ¬ (fromTime < p.header.minTime ∧ prev.any fun q => q.header.maxTime ≤ fromTime) := by
    rw [hprev]
    exact fun h => Bool.false_ne_true h.2
  unfold visitInterval
  simp only [if_neg h1, if_neg h2, if_neg h3]
  by_cases h4 : fromTime ≤ p.header.minTime ∧ toTime ≤ p.header.maxTime ∧ p.header.minTime ≤ toTime
  · exact ⟨[p.name], List.Sublist.refl _, by rw [if_pos h4]⟩
  by_cases h5 : fromTime ≤ p.header.minTime ∧ p.header.maxTime ≤ toTime
  · exact ⟨[p.name], List.Sublist.refl _, by rw [if_neg h4, if_pos h5]⟩
  · exact ⟨[], List.nil_sublist _, by rw [if_neg h4, if_neg h5, List.append_nil]⟩

/-- Such pages are pushed by their own cases alone, and the page before the first stays. -/
theorem intervalLoop_own (toTime : Time) (sel : Selection) (hmin : ∀ p, p ∈ pages → fromTime < p.header.minTime)
    (hle : ∀ p, p ∈ pages → p.header.minTime ≤ p.header.maxTime)
    (hprev : prev.any (fun q => decide (q.header.maxTime ≤ fromTime)) = false) :
    ∃ names, names.Sublist (pages.map PageInfo.name) ∧
      intervalLoop [] 0 0 fromTime toTime prev pages sel = ⟨sel.pagesToRead ++ names, sel.prevIntervalPage⟩ := by
  induction pages generalizing prev sel with
  | nil => exact ⟨[], List.Sublist.refl _, by rw [List.append_nil]; rfl⟩
  | cons p pages ih =>
    obtain ⟨hp, hmin⟩ := List.forall_mem_cons.mp hmin
    obtain ⟨hpm, hle⟩ := List.forall_mem_cons.mp hle
    have hnext : (some p).any (fun q => decide (q.header.maxTime ≤ fromTime)) = false :=
      decide_eq_false (not_le.mpr (hp.trans_le hpm))
    have hfilter : filteredOut [] 0 0 p.header = false := rfl
    obtain ⟨own, hown, hvisit⟩ := visitInterval_later toTime sel hp hprev
    obtain ⟨names, hnames, hloop⟩ := ih ⟨sel.pagesToRead ++ own, sel.prevIntervalPage⟩ hmin hle hnext
    refine ⟨own ++ names, ?_, ?_⟩
    · exact hown.append hnames
    · rw [intervalLoop, hfilter, if_neg Bool.false_ne_true, hvisit, hloop, List.append_assoc]

/-- The page before the later ones, where they schedule it. -/
def again (fromTime : Time) (q : PageInfo) (later : List PageInfo) : List String :=
  if q.header.maxTime ≤ fromTime ∧ later ≠ [] then [q.name] else []

theorem intervalLoop_later (toTime : Time) (q : PageInfo) (sel : Selection)
    (hmin : ∀ p, p ∈ later → fromTime < p.header.minTime)
    (hle : ∀ p, p ∈ later → p.header.minTime ≤ p.header.maxTime) :
    ∃ names, names.Sublist (later.map PageInfo.name) ∧ intervalLoop [] 0 0 fromTime toTime (some q) later sel =
      ⟨sel.pagesToRead ++ again fromTime q later ++ names, sel.prevIntervalPage⟩ := by
  unfold again
  by_cases hend : q.header.maxTime ≤ fromTime ∧ later ≠ []
  · obtain ⟨hq, hne⟩ := hend
    rw [if_pos ⟨hq, hne⟩]
    obtain ⟨p, later, rfl⟩ := List.exists_cons_of_ne_nil hne
    obtain ⟨hp, hmin⟩ := List.forall_mem_cons.mp hmin
    obtain ⟨hpm, hle⟩ := List.forall_mem_cons.mp hle
    have hnext : (some p).any (fun q => decide (q.header.maxTime ≤ fromTime)) = false :=
      decide_eq_false (not_le.mpr (hp.trans_le hpm))
    have hfilter : filteredOut [] 0 0 p.header = false := rfl
    have h1 : ¬ (p.header.minTime ≤ fromTime ∧ toTime ≤ p.header.maxTime) := fun h => absurd h.1 (not_le.mpr hp)
    have h2 : ¬ (p.header.minTime ≤ fromTime ∧ fromTime < p.header.maxTime) := fun h => absurd h.1 (not_le.mpr hp)
    have h3 : fromTime < p.header.minTime ∧ (some q).any (fun q => q.header.maxTime ≤ fromTime) :=
      ⟨hp, decide_eq_true hq⟩
    have hvisit : visitInterval fromTime toTime (some q) p sel =
        ⟨sel.pagesToRead ++ [q.name] ++ [p.name], sel.prevIntervalPage⟩ := by
      unfold visitInterval
      simp only [if_neg h1, if_neg h2, if_pos h3]
      rfl
    obtain ⟨names, hnames, hloop⟩ := intervalLoop_own toTime
      ⟨sel.pagesToRead ++ [q.name] ++ [p.name], sel.prevIntervalPage⟩ hmin hle hnext
    refine ⟨p.name :: names, hnames.cons_cons _, ?_⟩
    rw [intervalLoop, hfilter, if_neg Bool.false_ne_true, hvisit, hloop]
    simp only [List.append_assoc, List.cons_append, List.nil_append]
  · rw [if_neg hend, List.append_nil]
    by_cases hnil : later = []
    · rw [hnil]
      exact ⟨[], List.Sublist.refl _, by rw [List.append_nil]; rfl⟩
    · exact intervalLoop_own toTime sel hmin hle (decide_eq_false fun hq => hend ⟨hq, hnil⟩)

/-! ### The page chosen first -/

/-- The walk from the last page that does not begin after the query. -/
theorem readInterval_from (hle : ∀ p, p ∈ earlier ++ q :: later → p.header.minTime ≤ p.header.maxTime)
    (hmax : ∀ p, p ∈ earlier → p.header.maxTime < fromTime) (hmin : ∀ p, p ∈ later → fromTime < p.header.minTime)
    (hq : fromTime ≤ toTime) {own : List String} {prev : String}
    (hown : visitInterval fromTime toTime earlier.getLast? q ⟨[], ""⟩ = ⟨own, prev⟩) :
    ∃ names, names.Sublist (later.map PageInfo.name) ∧ readInterval [] 0 0 fromTime toTime (earlier ++ q :: later) =
      ⟨own ++ again fromTime q later ++ names, prev⟩ := by
  have hfilter : filteredOut [] 0 0 q.header = false := rfl
  obtain ⟨names, hnames, hloop⟩ := intervalLoop_later toTime q ⟨own, prev⟩ hmin fun p hp =>
    hle p (List.mem_append_right _ (List.mem_cons_of_mem _ hp))
  refine ⟨names, hnames, ?_⟩
  unfold readInterval
  rw [intervalLoop_earlier (fun p hp => hle p (List.mem_append_left _ hp)) hmax hq, Option.or_none, intervalLoop,
    hfilter, if_neg Bool.false_ne_true, hown, hloop]

/-- The page is read, and with it the window of the page before, where it goes on after the beginning of the query
or the query is only that. -/
theorem visitInterval_inside (hmin : p.header.minTime ≤ fromTime) (hmax : fromTime ≤ p.header.maxTime)
    (hin : fromTime < p.header.maxTime ∨ toTime = fromTime) :
    visitInterval fromTime toTime earlier.getLast? p ⟨[], ""⟩ = ⟨[p.name], lastName earlier⟩ := by
  unfold visitInterval lastName
  by_cases h1 : p.header.minTime ≤ fromTime ∧ toTime ≤ p.header.maxTime
  · rw [if_pos h1]
    cases earlier.getLast? with
    | none => rfl
    | some q => rfl
  · have h2 : p.header.minTime ≤ fromTime ∧ fromTime < p.header.maxTime :=
      ⟨hmin, hin.resolve_right fun hto => h1 ⟨hmin, hto.le.trans hmax⟩⟩
    simp only [if_neg h1, if_pos h2]
    cases earlier.getLast? with
    | none => rfl
    | some q => rfl

/-- A page that ends with the beginning of a longer query is read by its own case only if it begins with it, and
without the window of the page before. -/
theorem visitInterval_ending (hmax : p.header.maxTime = fromTime) (hmin : p.header.minTime ≤ fromTime)
    (hq : fromTime < toTime) : visitInterval fromTime toTime prev p ⟨[], ""⟩ =
      ⟨if fromTime ≤ p.header.minTime then [p.name] else [], ""⟩ := by
  have h1 : ¬ (p.header.minTime ≤ fromTime ∧ toTime ≤ p.header.maxTime) := fun h =>
    absurd (h.2.trans hmax.le) (not_le.mpr hq)
  have h2 : ¬ (p.header.minTime ≤ fromTime ∧ fromTime < p.header.maxTime) := fun h => absurd h.2 (not_lt.mpr hmax.le)
  have h3 : ¬ (fromTime < p.header.minTime ∧ prev.any fun q => q.header.maxTime ≤ fromTime) := fun h =>
    absurd h.1 (not_lt.mpr hmin)
  have h4 : ¬ (fromTime ≤ p.header.minTime ∧ toTime ≤ p.header.maxTime ∧ p.header.minTime ≤ toTime) := fun h =>
    absurd (h.2.1.trans hmax.le) (not_le.mpr hq)
  unfold visitInterval
  simp only [if_neg h1, if_neg h2, if_neg h3, if_neg h4]
  by_cases hbegin : fromTime ≤ p.header.minTime
  · rw [if_pos hbegin, if_pos ⟨hbegin, hmax.le.trans hq.le⟩]
    rfl
  · rw [if_neg hbegin, if_neg fun h => hbegin h.1]

end

/-! ### The reader of a query -/

section
variable {size : U64} {fromTime toTime : Time} {names : List String} {name prev : String} {disk : String → PageFile}
  {w : WriteWindow} {p : Page} {out : List Meas}

theorem readNext_currentReader (r : PageReaderInterval) (p : Page) : (CurrentReader.interval r p).readNextBy size =
    (r.readNextBy size p).map fun x => (x.1, .interval x.2.1 x.2.2) := by
  show (r.readNextBy size p >>= fun x => pure (x.1, CurrentReader.interval x.2.1 x.2.2)) = _
  cases r.readNextBy size p with
  | error e => rfl
  | ok x => rfl

/-- `Reader::readAll` of the reader in use is that of the reader of the page. -/
theorem readAll_currentReader (r : PageReaderInterval) (p : Page) (fuel : Nat) :
    (CurrentReader.interval r p).readAllBy size fuel = (r.readAllBy size fuel p).map Prod.fst := by
  induction fuel generalizing r p with
  | zero => rfl
  | succ fuel ih =>
    unfold CurrentReader.readAllBy PageReaderInterval.readAllBy
    by_cases he : r.isEnd = true
    · have hc : (CurrentReader.interval r p).isEnd = true := he
      rw [if_pos he, if_pos hc]
      rfl
    · have hc : ¬ (CurrentReader.interval r p).isEnd = true := he
      rw [if_neg he, if_neg hc, readNext_currentReader]
      cases r.readNextBy size p with
      | error e => rfl
      | ok x =>
        simp only [Except.map, bind, Except.bind, pure, Except.pure, ih]
        cases x.2.1.readAllBy size fuel x.2.2 with
        | error e => rfl
        | ok y => rfl

/-- The reader `Storage::readInterval` makes for a query without a filter, from what the walk has chosen. -/
def queryReader (fromTime toTime : Time) (names : List String) (prev : String) : StorageReader :=
  ⟨names, none, prev, [], 0, 0, fromTime, toTime, 0⟩

theorem intervalReader_eq {pages : List PageInfo} (h : readInterval [] 0 0 fromTime toTime pages = ⟨names, prev⟩) :
    intervalReader [] 0 0 fromTime toTime pages = queryReader fromTime toTime names prev := by
  unfold intervalReader queryReader
  rw [h]

/-- A page is read by the reader of its own, which gets the window of the page before. -/
theorem pageDelivers (hopen : openFile (disk name) true = .ok p)
    (hw : windowOf disk prev = .ok w)
    (h : IntervalDelivers size fromTime toTime w p out) :
    (queryReader fromTime toTime names prev).PageDelivers size disk name out := by
  obtain ⟨r, p', hr, fuel, p'', hrun⟩ := h
  have hprev : (queryReader fromTime toTime names prev).prevWw disk = .ok w := (prevWw_eq disk _).trans hw
  refine ⟨.interval {r with prevWw := w} p', ?_, ?_⟩
  · unfold queryReader at hprev ⊢
    unfold StorageReader.openPage
    simp only [hopen, hprev, hr, ne_eq, not_true_eq_false, if_false, bind, Except.bind, pure, Except.pure]
  · refine CurrentReader.delivers_iff.mpr ⟨fuel, ?_⟩
    rw [readAll_currentReader, hrun]
    rfl

/-- The reader of one page delivers `part` of the times before the query. -/
def PageState (size : U64) (disk : String → PageFile) (r : StorageReader) (fromTime : Time) (name : String)
    (part : List Meas) : Prop := ∃ out, r.PageDelivers size disk name out ∧ statePart fromTime out = part

/-- The reader does. -/
def ReaderState (size : U64) (disk : String → PageFile) (r : StorageReader) (fromTime : Time) (part : List Meas) :
    Prop := ∃ out, r.Delivers size disk out ∧ statePart fromTime out = part

/-- What is delivered before the query, page by page. -/
theorem readerState_parts {r : StorageReader} {pages : List String} {parts : List (List Meas)}
    (h : List.Forall₂ (PageState size disk r fromTime) pages parts) (hcur : r.currentReader = none)
    (hpages : r.pages = pages) : ReaderState size disk r fromTime parts.flatten := by
  obtain ⟨outs, houts, hparts⟩ : ∃ outs, List.Forall₂ (r.PageDelivers size disk) pages outs ∧
      outs.map (statePart fromTime) = parts := by
    clear hpages
    induction h with
    | nil => exact ⟨[], .nil, rfl⟩
    | @cons name part pages parts hpage _ ih =>
      obtain ⟨out, hout, rfl⟩ := hpage
      obtain ⟨outs, houts, rfl⟩ := ih
      exact ⟨out :: outs, .cons hout houts, rfl⟩
  refine ⟨outs.flatten, (StorageReader.delivers_iff hcur).mpr ⟨outs, ?_, rfl⟩, ?_⟩
  · rwa [hpages]
  · rw [statePart_flatten, hparts]

end
end Nkvdb.Storage
