import Nkvdb.Lib.Runs
import Nkvdb.Page.Append

/-! Several `Page` objects over the files of one name.

Header and data lie in the mapped page file, which all objects that map it share; the index
file and the window file are shared by their names. An object keeps its mapping, the index
records it has buffered and its window. -/
namespace Nkvdb.Handles

/-- A `Page` object. `writing` says how it was obtained, which the source does not record. -/
structure Handle where
  file : Nat
  writing : Bool
  /-- `m_file` and `m_region` are set. -/
  mapped : Bool
  cache : List IndexRecord
  writeWindow : WriteWindow

/-- The files, and the objects obtained so far. `Page::Create` removes the page file and makes
another; objects that map the removed one keep it. -/
structure Sys where
  /-- The page file that has the name. -/
  current : Nat
  header : Nat → Header
  rawData : Nat → ByteMemory
  indexFile : IndexTree
  windowFile : Option (List Meas)
  opened : Nat
  handle : Nat → Handle

namespace Sys

/-- The page as handle `i` sees it. -/
def page (s : Sys) (i : Nat) : Page :=
  ⟨s.header (s.handle i).file, s.rawData (s.handle i).file, ⟨indexCacheSize, (s.handle i).cache, s.indexFile⟩,
    (s.handle i).writeWindow, s.windowFile⟩

/-- A call on handle `i` leaves `p`. -/
def store (i : Nat) (p : Page) (s : Sys) : Sys :=
  {s with
    header := Function.update s.header (s.handle i).file p.header
    rawData := Function.update s.rawData (s.handle i).file p.rawData
    indexFile := p.index.tree
    windowFile := p.windowFile
    handle := Function.update s.handle i {s.handle i with cache := p.index.cache, writeWindow := p.writeWindow}}

/-- A new object that maps file `f`. -/
def attach (f : Nat) (writing : Bool) (p : Page) (s : Sys) : Sys :=
  {s with
    current := f
    header := Function.update s.header f p.header
    rawData := Function.update s.rawData f p.rawData
    indexFile := p.index.tree
    windowFile := p.windowFile
    opened := s.opened + 1
    handle := Function.update s.handle s.opened ⟨f, writing, true, p.index.cache, p.writeWindow⟩}

/-- The files, and no object. -/
def disk (f : PageFile) : Sys :=
  ⟨0, fun _ => f.header, fun _ => f.rawData, f.indexFile, f.windowFile, 0, fun _ => ⟨0, false, false, [], []⟩⟩

/-- One object, which writes. -/
def start (p : Page) : Sys := attach 0 true p (disk ⟨p.header, p.rawData, p.index.tree, p.windowFile⟩)

/-- `Page::Create`. The index file and the window file stay; the first is opened. -/
def create (fsize : U64) (s : Sys) : Sys :=
  s.attach (s.current + 1) true
    {Page.create fsize with index := Index.openFile indexCacheSize s.indexFile, windowFile := s.windowFile}

/-- `Page::Open`. -/
def openFile (readOnly : Bool) (s : Sys) : Option Sys :=
  (Page.openFile ⟨s.header s.current, s.rawData s.current, s.indexFile, s.windowFile⟩ readOnly).toOption.map
    fun p => s.attach s.current (!readOnly) p

/-- The mapping of handle `i` is gone. -/
def unmap (i : Nat) (f : PageFile) (s : Sys) : Sys :=
  {s with
    header := Function.update s.header (s.handle i).file f.header
    rawData := Function.update s.rawData (s.handle i).file f.rawData
    indexFile := f.indexFile
    windowFile := f.windowFile
    handle := Function.update s.handle i {s.handle i with mapped := false, cache := []}}

/-- `Page::close`, which the destructor calls. -/
def close (i : Nat) (s : Sys) : Option Sys :=
  if (s.handle i).mapped then (s.page i).close.toOption.map fun f => s.unmap i f else some s

/-- `ReadersCount--`. -/
def release (i : Nat) (s : Sys) : Sys :=
  {s with header := Function.update s.header (s.handle i).file {s.header (s.handle i).file with
    readersCount := (s.header (s.handle i).file).readersCount - 1}}

/-- `Page::readComplete`, which the destructor of a `PageReader` calls. -/
def readComplete (i : Nat) (s : Sys) : Option Sys :=
  if (s.header (s.handle i).file).readersCount ≠ 0 then
    if (s.header (s.handle i).file).readersCount - 1 = 0 then (s.release i).close i else some (s.release i)
  else some s

end Sys

inductive Event where
  | create (fsize : U64)
  | openFile (readOnly : Bool)
  | append (i : Nat) (op : Page.Op)
  | flushWriteWindow (i : Nat)
  | readComplete (i : Nat)
  | close (i : Nat)

/-- A call that throws is no step; an `Open` that does has changed nothing. Only handles opened
for writing append and flush. -/
def step (e : Event) (s : Sys) : Option Sys :=
  match e with
  | .create fsize => some (s.create fsize)
  | .openFile readOnly => s.openFile readOnly
  | .append i op =>
    if (s.handle i).mapped ∧ (s.handle i).writing then (op.run (s.page i)).toOption.map fun x => s.store i x.2
    else none
  | .flushWriteWindow i =>
    if (s.handle i).mapped ∧ (s.handle i).writing then some (s.store i (s.page i).flushWriteWindow) else none
  | .readComplete i => if (s.handle i).mapped then s.readComplete i else none
  | .close i => s.close i

/-! ### One writer -/

/-- Handle `i` was opened for writing on file `f` and is open. -/
structure Writer (s : Sys) (f i : Nat) : Prop where
  mapped : (s.handle i).mapped = true
  writing : (s.handle i).writing = true
  file : (s.handle i).file = f

/-- `Open` for writing finds no writer, and `readComplete` leaves writers open. -/
def Safe (e : Event) (s s' : Sys) : Prop :=
  match e with
  | .openFile false => ∀ i, ¬ Writer s s.current i
  | .readComplete i => (s.handle i).writing = true → (s'.handle i).mapped = true
  | _ => True

/-- Handle `i` is no read-only one of the page file of a writer. -/
def Parted (i : Nat) (s : Sys) : Prop :=
  (s.handle i).mapped = true → (s.handle i).writing = false → (s.handle i).file = s.current →
    ∀ j, ¬ Writer s s.current j

/-- No read-only handle closes beside a writer, and `readComplete` is not called on a writer
while one reader is counted. -/
def Kept (e : Event) (s : Sys) : Prop :=
  match e with
  | .close i => Parted i s
  | .readComplete i => (s.header (s.handle i).file).readersCount = 1 → (s.handle i).writing = false ∧ Parted i s
  | _ => True

/-- A page file with a writer is marked open, and has one writer. -/
structure Marked (s : Sys) : Prop where
  isOpen : ∀ i, Writer s s.current i → (s.header s.current).isOpen = true
  unique : ∀ i j, Writer s s.current i → Writer s s.current j → i = j
  file : ∀ i, (s.handle i).file ≤ s.current

variable {s s' : Sys}

/-- A call on a handle keeps how it was obtained. -/
theorem handle_store (s : Sys) (i : Nat) (p : Page) (j : Nat) :
    ((s.store i p).handle j).mapped = (s.handle j).mapped ∧ ((s.store i p).handle j).writing = (s.handle j).writing ∧
      ((s.store i p).handle j).file = (s.handle j).file := by
  show (Function.update s.handle i _ j).mapped = _ ∧ (Function.update s.handle i _ j).writing = _ ∧
    (Function.update s.handle i _ j).file = _
  by_cases hj : j = i
  · rw [hj, Function.update_self]
    exact ⟨rfl, rfl, rfl⟩
  · rw [Function.update_of_ne hj]
    exact ⟨rfl, rfl, rfl⟩

/-- After a close the handle is no writer; the others stay as they are. -/
theorem Writer.of_unmap {i j f : Nat} {g : PageFile} (h : Writer (s.unmap i g) f j) : Writer s f j ∧ j ≠ i := by
  have hj : j ≠ i := by
    intro he
    have hmapped := h.mapped
    rw [he] at hmapped
    simp [Sys.unmap] at hmapped
  have hsame : (s.unmap i g).handle j = s.handle j := Function.update_of_ne hj ..
  exact ⟨⟨hsame ▸ h.mapped, hsame ▸ h.writing, hsame ▸ h.file⟩, hj⟩

/-- A new handle is one writer more, if it was opened for writing. -/
theorem Writer.of_attach {f g j : Nat} {writing : Bool} {p : Page} (h : Writer (s.attach f writing p) g j) :
    Writer s g j ∨ (j = s.opened ∧ writing = true) := by
  by_cases hj : j = s.opened
  · refine .inr ⟨hj, ?_⟩
    have hwriting := h.writing
    rw [hj] at hwriting
    simpa [Sys.attach] using hwriting
  · have hsame : (s.attach f writing p).handle j = s.handle j := Function.update_of_ne hj ..
    exact .inl ⟨hsame ▸ h.mapped, hsame ▸ h.writing, hsame ▸ h.file⟩

/-- What adds no writer, and keeps the mark where one is left. -/
theorem Marked.sub (h : Marked s) (hc : s'.current = s.current) (hf : ∀ i, (s'.handle i).file = (s.handle i).file)
    (hw : ∀ i, Writer s' s.current i → Writer s s.current i)
    (ho : ∀ i, Writer s' s.current i → (s'.header s.current).isOpen = (s.header s.current).isOpen) : Marked s' := by
  refine ⟨?_, ?_, ?_⟩
  · intro i hi
    rw [hc] at hi ⊢
    rw [ho i hi]
    exact h.isOpen i (hw i hi)
  · intro i j hi hj
    rw [hc] at hi hj
    exact h.unique i j (hw i hi) (hw j hj)
  · intro i
    rw [hc, hf]
    exact h.file i

theorem Marked.store (h : Marked s) {i : Nat} {p : Page}
    (ho : p.header.isOpen = (s.header (s.handle i).file).isOpen) : Marked (s.store i p) := by
  refine h.sub rfl (fun j => (handle_store s i p j).2.2) ?_ ?_
  · intro j hj
    obtain ⟨hm, hw, hf⟩ := handle_store s i p j
    exact ⟨hm ▸ hj.mapped, hw ▸ hj.writing, hf ▸ hj.file⟩
  · intro j _
    show (Function.update s.header (s.handle i).file p.header s.current).isOpen = _
    by_cases hi : s.current = (s.handle i).file
    · rw [hi, Function.update_self, ho]
    · rw [Function.update_of_ne hi]

/-- An append leaves the mark. -/
theorem Op.run_isOpen {op : Page.Op} {p q : Page} {r : AppendResult} (h : op.run p = .ok (r, q)) :
    q.header.isOpen = p.header.isOpen := by
  obtain ⟨-, k, q₁, ix, hacc, -, -, rfl⟩ := Page.Op.run_iff.mp h
  obtain ⟨init, lo, hi, he⟩ := op.minMax_eq k q₁.header
  show (op.minMax k q₁.header).isOpen = _
  rw [he]
  exact Page.acceptAll_keeps (P := fun q => q.header.isOpen = p.header.isOpen) (fun _ _ _ _ hp => hp) hacc rfl

theorem Marked.attach (h : Marked s) {writing : Bool} {p : Page} (ho : p.header.isOpen = true)
    (hnone : writing = true → ∀ i, ¬ Writer s s.current i) : Marked (s.attach s.current writing p) := by
  refine ⟨?_, ?_, ?_⟩
  · intro i _
    show (Function.update s.header s.current p.header s.current).isOpen = true
    rw [Function.update_self, ho]
  · intro i j hi hj
    rcases hi.of_attach with hi | ⟨rfl, hw⟩
    · rcases hj.of_attach with hj | ⟨rfl, hw⟩
      · exact h.unique i j hi hj
      · exact absurd hi (hnone hw i)
    · rcases hj.of_attach with hj | ⟨rfl, -⟩
      · exact absurd hj (hnone hw j)
      · rfl
  · intro i
    show (Function.update s.handle s.opened _ i).file ≤ s.current
    by_cases hi : i = s.opened
    · rw [hi, Function.update_self]
    · rw [Function.update_of_ne hi]
      exact h.file i

/-- A new page file has the one writer that made it. -/
theorem Marked.create (hfile : ∀ i, (s.handle i).file ≤ s.current) {p : Page} (ho : p.header.isOpen = true) :
    Marked (s.attach (s.current + 1) true p) := by
  have hold : ∀ i, ¬ Writer s (s.current + 1) i := by
    intro i hi
    have := hfile i
    have := hi.file
    omega
  refine ⟨?_, ?_, ?_⟩
  · intro i _
    show (Function.update s.header (s.current + 1) p.header (s.current + 1)).isOpen = true
    rw [Function.update_self, ho]
  · intro i j hi hj
    obtain ⟨rfl, -⟩ := hi.of_attach.resolve_left (hold i)
    obtain ⟨rfl, -⟩ := hj.of_attach.resolve_left (hold j)
    rfl
  · intro i
    show (Function.update s.handle s.opened _ i).file ≤ s.current + 1
    by_cases hi : i = s.opened
    · rw [hi, Function.update_self]
    · rw [Function.update_of_ne hi]
      exact (hfile i).trans (Nat.le_succ _)

/-- Closing takes the mark away, and no writer may be left that has it. -/
theorem Marked.close (h : Marked s) {i : Nat} (hp : Parted i s) (hs : s.close i = some s') : Marked s' := by
  unfold Sys.close at hs
  split at hs
  next hm =>
    obtain ⟨g, -, rfl⟩ := Option.map_eq_some_iff.mp hs
    refine h.sub rfl ?_ (fun j hj => hj.of_unmap.1) ?_
    · intro j
      show (Function.update s.handle i _ j).file = _
      by_cases hj : j = i
      · rw [hj, Function.update_self]
      · rw [Function.update_of_ne hj]
    · intro j hj
      obtain ⟨hj, hji⟩ := hj.of_unmap
      show (Function.update s.header (s.handle i).file g.header s.current).isOpen = _
      by_cases hi : s.current = (s.handle i).file
      · cases hw : (s.handle i).writing with
        | true => exact absurd (h.unique j i hj ⟨hm, hw, hi.symm⟩) hji
        | false => exact absurd hj (hp hm hw hi.symm j)
      · rw [Function.update_of_ne hi]
  next =>
    obtain rfl := Option.some.inj hs
    exact h

theorem Marked.release (h : Marked s) (i : Nat) : Marked (s.release i) := by
  refine h.sub rfl (fun _ => rfl) (fun j hj => ⟨hj.mapped, hj.writing, hj.file⟩) ?_
  intro j _
  show (Function.update s.header (s.handle i).file _ s.current).isOpen = _
  by_cases hi : s.current = (s.handle i).file
  · rw [hi, Function.update_self]
  · rw [Function.update_of_ne hi]

/-- `readComplete` closes when one reader is counted, and else no more than counts. -/
theorem readComplete_cases {i : Nat} (hs : s.readComplete i = some s') :
    ((s.header (s.handle i).file).readersCount = 1 ∧ (s.release i).close i = some s') ∨
      ((s.header (s.handle i).file).readersCount ≠ 1 ∧ (s' = s.release i ∨ s' = s)) := by
  unfold Sys.readComplete at hs
  split at hs
  next h0 =>
    split at hs
    next h1 => exact .inl ⟨by omega, hs⟩
    next h1 => exact .inr ⟨by omega, .inl (Option.some.inj hs).symm⟩
  next h0 => exact .inr ⟨by omega, .inr (Option.some.inj hs).symm⟩

theorem Parted.release {i : Nat} (h : Parted i s) : Parted i (s.release i) :=
  fun hm hw hf j hj => h hm hw hf j ⟨hj.mapped, hj.writing, hj.file⟩

theorem Marked.step {e : Event} (h : Marked s) (hk : Kept e s) (hs : step e s = some s') : Marked s' := by
  cases e with
  | create fsize =>
    obtain rfl := Option.some.inj hs
    exact Marked.create h.file rfl
  | openFile readOnly =>
    obtain ⟨p, hp, rfl⟩ := Option.map_eq_some_iff.mp hs
    obtain ⟨hclosed, -, w, -, rfl⟩ := Page.openFile_iff.mp (toOption_eq_some.mp hp)
    refine h.attach rfl fun hw i hi => ?_
    have hmark := h.isOpen i hi
    rw [hclosed (by simpa using hw)] at hmark
    cases hmark
  | append i op =>
    unfold Handles.step at hs
    simp only [Option.ite_none_right_eq_some, Option.map_eq_some_iff] at hs
    obtain ⟨-, x, hx, rfl⟩ := hs
    exact h.store (Op.run_isOpen (toOption_eq_some.mp hx))
  | flushWriteWindow i =>
    unfold Handles.step at hs
    simp only [Option.ite_none_right_eq_some, Option.some.injEq] at hs
    obtain ⟨-, rfl⟩ := hs
    exact h.store rfl
  | readComplete i =>
    unfold Handles.step at hs
    simp only [Option.ite_none_right_eq_some] at hs
    rcases readComplete_cases hs.2 with ⟨h1, hclose⟩ | ⟨-, rfl | rfl⟩
    · exact (h.release i).close (hk h1).2.release hclose
    · exact h.release i
    · exact h
  | close i => exact h.close hk hs

theorem Marked.safe {e : Event} (h : Marked s) (hk : Kept e s) (hs : Handles.step e s = some s') : Safe e s s' := by
  cases e with
  | openFile readOnly =>
    cases readOnly with
    | true => trivial
    | false =>
      intro i hi
      obtain ⟨p, hp, -⟩ := Option.map_eq_some_iff.mp hs
      have hmark := h.isOpen i hi
      rw [(Page.openFile_iff.mp (toOption_eq_some.mp hp)).1 rfl] at hmark
      cases hmark
  | readComplete i =>
    intro hw
    unfold Handles.step at hs
    simp only [Option.ite_none_right_eq_some] at hs
    rcases readComplete_cases hs.2 with ⟨h1, -⟩ | ⟨-, rfl | rfl⟩
    · have := (hk h1).1
      rw [hw] at this
      cases this
    · exact hs.1
    · exact hs.1
  | _ => trivial

/-- Where a run begins: with a page just made, or one on disk. -/
inductive Start : Sys → Prop
  | create (fsize : U64) : Start (Sys.start (Page.create fsize))
  | disk (f : PageFile) : Start (Sys.disk f)

theorem Marked.disk (f : PageFile) : Marked (Sys.disk f) := by
  refine ⟨?_, ?_, fun _ => le_rfl⟩
  · intro i hi
    cases hi.mapped
  · intro i j hi
    cases hi.mapped

theorem Marked.start {s₀ : Sys} (h : Start s₀) : Marked s₀ := by
  cases h with
  | disk f => exact Marked.disk f
  | create fsize =>
    have hnone := Marked.disk ⟨(Page.create fsize).header, (Page.create fsize).rawData, (Page.create fsize).index.tree,
      (Page.create fsize).windowFile⟩
    refine hnone.attach rfl fun _ i hi => ?_
    cases hi.mapped

/-- A reader takes the mark of the writer it closes beside. -/
theorem unmarked_of_close {i : Nat} (hp : ¬ Parted i s) (hs : s.close i = some s') :
    (s'.header s'.current).isOpen = false ∧ ∃ j, Writer s' s'.current j := by
  unfold Parted at hp
  push Not at hp
  obtain ⟨hm, hw, hf, j, hj⟩ := hp
  unfold Sys.close at hs
  rw [if_pos hm] at hs
  obtain ⟨g, hg, rfl⟩ := Option.map_eq_some_iff.mp hs
  obtain ⟨ix, -, rfl⟩ := Page.close_iff.mp (toOption_eq_some.mp hg)
  constructor
  · show (Function.update s.header (s.handle i).file _ s.current).isOpen = false
    rw [hf, Function.update_self]
  · have hji : j ≠ i := by
      intro he
      have := hj.writing
      rw [he, hw] at this
      cases this
    have hsame : ∀ g, (s.unmap i g).handle j = s.handle j := fun g => Function.update_of_ne hji ..
    exact ⟨j, (hsame _).symm ▸ hj.mapped, (hsame _).symm ▸ hj.writing, (hsame _).symm ▸ hj.file⟩

/-- What the condition excludes closes a writer, or leaves a writer's page file unmarked, where
the next `Open` for writing is not refused. -/
theorem unguarded {e : Event} (hk : ¬ Kept e s) (hs : step e s = some s') :
    ¬ Safe e s s' ∨ ((s'.header s'.current).isOpen = false ∧ ∃ j, Writer s' s'.current j) := by
  cases e with
  | close i => exact .inr (unmarked_of_close hk hs)
  | readComplete i =>
    unfold step at hs
    simp only [Option.ite_none_right_eq_some] at hs
    obtain ⟨hm, hs⟩ := hs
    have hk : (s.header (s.handle i).file).readersCount = 1 ∧ ((s.handle i).writing = false → ¬ Parted i s) := by
      unfold Kept at hk
      push Not at hk
      exact hk
    obtain ⟨-, hclose⟩ := (readComplete_cases hs).resolve_right fun h => h.1 hk.1
    cases hw : (s.handle i).writing with
    | true =>
      refine .inl fun hsafe => ?_
      have hmapped : (s'.handle i).mapped = true := hsafe hw
      unfold Sys.close at hclose
      rw [if_pos (show ((s.release i).handle i).mapped = true from hm)] at hclose
      obtain ⟨g, -, rfl⟩ := Option.map_eq_some_iff.mp hclose
      simp [Sys.unmap] at hmapped
    | false =>
      refine .inr (unmarked_of_close (fun hp => hk.2 hw ?_) hclose)
      exact fun hm hw hf j hj => hp hm hw hf j ⟨hj.mapped, hj.writing, hj.file⟩
  | _ => exact absurd trivial hk

/-- A reader opens the page just made and completes; another writer opens it beside the first. -/
theorem two_writers : ¬ ∀ (s₀ s s' : Sys) (e : Event), Start s₀ → Runs.Reachable step s₀ s → step e s = some s' →
    Safe e s s' := by
  intro h
  let s₀ := Sys.start (Page.create (Page.calcSize 1))
  obtain ⟨s, hs, hw, hopen⟩ : ∃ s, Runs.run step [.openFile true, .readComplete 1] s₀ = some s ∧
      Writer s s.current 0 ∧ (step (.openFile false) s).isSome = true := ⟨_, rfl, ⟨rfl, rfl, rfl⟩, rfl⟩
  obtain ⟨s', hs'⟩ := Option.isSome_iff_exists.mp hopen
  exact h s₀ s s' (.openFile false) (.create _) (Runs.reachable_run hs) hs' 0 hw

theorem marked_of_reach {s₀ : Sys} (h₀ : Start s₀) (h : Runs.Reach step Kept s₀ s) : Marked s :=
  h.inv (Marked.start h₀) fun _ _ _ h hc hs => h.step hc hs

/-- In a run where no read-only handle closes beside a writer of its page file, and none is
completed through a writer, each `Open` for writing finds no writer and no `readComplete`
closes one. -/
theorem one_writer {s₀ s s' : Sys} {e : Event} (h₀ : Start s₀) (h : Runs.Reach step Kept s₀ s) (hk : Kept e s)
    (hs : step e s = some s') : Safe e s s' :=
  (marked_of_reach h₀ h).safe hk hs

/-- The reader closes after the writer. -/
theorem one_writer_two : ∃ s s', Runs.Reach step Kept (Sys.start (Page.create (Page.calcSize 1))) s ∧
    step (.openFile false) s = some s' ∧ Safe (.openFile false) s s' := by
  have h₀ := Start.create (Page.calcSize 1)
  have hmade : Runs.Reach step Kept (Sys.start (Page.create (Page.calcSize 1))) _ := .init
  have hread := hmade.step (Event.openFile true) trivial rfl
  have hclosed := hread.step (Event.close 0) (fun _ hw => by cases hw) rfl
  have hfree := hclosed.step (Event.close 1) (fun _ _ _ j hj => by cases (marked_of_reach h₀ hclosed).isOpen j hj) rfl
  exact ⟨_, _, hfree, rfl, one_writer h₀ hfree trivial rfl⟩

end Nkvdb.Handles
