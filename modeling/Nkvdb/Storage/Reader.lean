import Nkvdb.Readers
import Nkvdb.Storage

/-! The reader of a storage (`StorageReader`).

It opens the pages scheduled one after the other, and each is read by a reader of its own. The
pages are opened read-only; of their files only what tells who has them open changes, which
no read looks at. -/
namespace Nkvdb

/-- A reader of a page, with the page it holds. -/
inductive CurrentReader where
  | interval (r : PageReaderInterval) (p : Page)
  | timePoint (r : PageReaderTimePoint) (p : Page)

namespace CurrentReader

def isEnd : CurrentReader → Bool
  | .interval r _ => r.isEnd
  | .timePoint r _ => r.isEnd

/-- `readNext`, with `size` for `ReadSize`. -/
def readNextBy (size : U64) : CurrentReader → Except Fault (List Meas × CurrentReader)
  | .interval r p => do
    let (out, r, p) ← r.readNextBy size p
    return (out, .interval r p)
  | .timePoint r p => do
    let (out, r, p) ← r.readNext p
    return (out, .timePoint r p)

end CurrentReader

structure StorageReader where
  /-- `m_pages`. -/
  pages : List String
  currentReader : Option CurrentReader
  prevIntervalPage : String
  ids : List Id
  source : Flag
  flag : Flag
  fromTime : Time
  toTime : Time
  timePoint : Time

namespace StorageReader

def isEnd (r : StorageReader) : Bool :=
  if r.pages.isEmpty then
    match r.currentReader with
    | none => true
    | some c => c.isEnd
  else false

/-- `prev_ww`: the window of the page before, where there is one. -/
def prevWw (disk : String → PageFile) (r : StorageReader) : Except Fault WriteWindow :=
  if r.prevIntervalPage ≠ "" then do
    let p ← Page.openFile (disk r.prevIntervalPage) true
    return p.writeWindow
  else .ok []

/-- The reader of a page. It is used without a look whether there is one. -/
def openPage (disk : String → PageFile) (name : String) (r : StorageReader) : Except Fault CurrentReader := do
  let p ← Page.openFile (disk name) true
  let w ← r.prevWw disk
  if r.timePoint ≠ 0 then
    match p.readInTimePoint r.ids r.source r.flag r.timePoint with
    | none => throw .nullReader
    | some preader => return .timePoint {preader with prevWw := w} p
  else
    let (preader, p) ← p.readInterval r.ids r.source r.flag r.fromTime r.toTime
    match preader with
    | none => throw .nullReader
    | some preader => return .interval {preader with prevWw := w} p

/-- The reader in use, after the next page was opened where there was none. -/
def current (disk : String → PageFile) (r : StorageReader) : Except Fault (CurrentReader × StorageReader) :=
  match r.currentReader, r.pages with
  | some c, _ => .ok (c, r)
  | none, [] => .error .nullReader
  | none, name :: pages => do
    let c ← r.openPage disk name
    return (c, {r with pages := pages})

/-- `readNext`, with `size` for `ReadSize`. -/
def readNextBy (size : U64) (disk : String → PageFile) (r : StorageReader) :
    Except Fault (List Meas × StorageReader) :=
  if r.isEnd then .ok ([], r)
  else do
    let (c, r) ← r.current disk
    let (out, c) ← c.readNextBy size
    return (out, {r with currentReader := if c.isEnd then none else some c})

/-- `Reader::readAll`, with `size` for `ReadSize`. -/
def readAllBy (size : U64) (disk : String → PageFile) : Nat → StorageReader → Except Fault (List Meas)
  | 0, _ => .error .outOfFuel
  | fuel + 1, r =>
    if r.isEnd then .ok []
    else do
      let (out, r) ← r.readNextBy size disk
      let rest ← readAllBy size disk fuel r
      return out ++ rest

/-- `Reader::readAll`. -/
def readAll (disk : String → PageFile) (fuel : Nat) (r : StorageReader) : Except Fault (List Meas) :=
  r.readAllBy PageReaderInterval.readSize disk fuel

/-! ### One page at a time point -/

section
variable {disk : String → PageFile} {r : StorageReader} {name : String} {p p' : Page} {w : WriteWindow}
  {out : List Meas}

/-- A reader of one page at a time point, before it has read. -/
structure AtPoint (name : String) (r : StorageReader) : Prop where
  pages : r.pages = [name]
  currentReader : r.currentReader = none
  timePoint : r.timePoint ≠ 0

/-- It delivers what the page's own reader does. -/
theorem AtPoint.readAll (h : r.AtPoint name) (hopen : Page.openFile (disk name) true = .ok p)
    (hw : r.prevWw disk = .ok w) (hpos : p.header.writePos ≠ 0)
    (hread : (⟨r.ids, r.source, r.flag, w⟩ : PageReader).timePointRead r.timePoint p = .ok (out, p')) {fuel : Nat}
    (hf : 2 ≤ fuel) : r.readAll disk fuel = .ok out := by
  obtain ⟨fuel, rfl⟩ : ∃ n, fuel = n + 2 := ⟨fuel - 2, by omega⟩
  obtain ⟨hpages, hcur, htp⟩ := h
  have hend : r.isEnd = false := by
    unfold isEnd
    rw [hpages]
    rfl
  have hpage : r.openPage disk name = .ok (.timePoint ⟨⟨r.ids, r.source, r.flag, w⟩, r.timePoint, false⟩ p) := by
    unfold openPage Page.readInTimePoint
    simp only [hopen, hw, bind, Except.bind, if_pos htp, if_neg hpos]
    rfl
  have hnext : r.readNextBy PageReaderInterval.readSize disk =
      .ok (out, {r with pages := [], currentReader := none}) := by
    unfold readNextBy current
    rw [hend, hcur, hpages]
    simp only [hpage, bind, Except.bind, CurrentReader.readNextBy, PageReaderTimePoint.readNext,
      PageReaderTimePoint.isEnd, hread, Bool.false_eq_true, if_false, pure, Except.pure, CurrentReader.isEnd, if_true]
  have hrest : ({r with pages := [], currentReader := none} : StorageReader).isEnd = true := rfl
  simp only [StorageReader.readAll, readAllBy, hend, hnext, hrest, bind, Except.bind, Bool.false_eq_true, if_false,
    if_true, pure, Except.pure, List.append_nil]

/-- Without a measurement on the page there is no reader of it, and it is used all the same. -/
theorem AtPoint.readAll_empty (h : r.AtPoint name) (hopen : Page.openFile (disk name) true = .ok p)
    (hpos : p.header.writePos = 0) (fuel : Nat) : ∀ out, r.readAll disk fuel ≠ .ok out := by
  intro out hrun
  cases fuel with
  | zero => cases hrun
  | succ fuel =>
    obtain ⟨hpages, hcur, htp⟩ := h
    have hend : r.isEnd = false := by
      unfold isEnd
      rw [hpages]
      rfl
    unfold StorageReader.readAll readAllBy at hrun
    rw [hend, if_neg Bool.false_ne_true] at hrun
    obtain ⟨⟨out₁, r₁⟩, hnext, -⟩ := bind_ok hrun
    unfold readNextBy at hnext
    rw [hend, if_neg Bool.false_ne_true] at hnext
    obtain ⟨⟨c, r₂⟩, hc, -⟩ := bind_ok hnext
    unfold current at hc
    rw [hcur, hpages] at hc
    obtain ⟨c', hc', -⟩ := bind_ok hc
    obtain ⟨p₁, hp₁, hc'⟩ := bind_ok hc'
    obtain rfl := Except.ok.inj (hopen.symm.trans hp₁)
    obtain ⟨w, -, hc'⟩ := bind_ok hc'
    rw [if_pos htp, Page.readInTimePoint, if_pos hpos] at hc'
    cases hc'

end
end StorageReader

namespace Storage

/-- The reader `Storage::readInTimePoint` returns, of pages in the order of their greatest times. `from` and `to`
stand at 0; the source does not set them, and reads them at time point 0 alone. -/
def timePointReader (ids : List Id) (source flag : Flag) (timePoint : Time) (pages : List PageInfo) : StorageReader :=
  let sel := readInTimePoint ids source flag timePoint pages
  ⟨sel.pagesToRead, none, sel.prevIntervalPage, ids, source, flag, 0, 0, timePoint⟩

/-- The reader `Storage::readInterval` returns. -/
def intervalReader (ids : List Id) (source flag : Flag) (fromTime toTime : Time) (pages : List PageInfo) :
    StorageReader :=
  let sel := readInterval ids source flag fromTime toTime pages
  ⟨sel.pagesToRead, none, sel.prevIntervalPage, ids, source, flag, fromTime, toTime, 0⟩

/-- The window of a page that is named. -/
def windowOf (disk : String → PageFile) (prev : String) : Except Fault WriteWindow :=
  if prev ≠ "" then (Page.openFile (disk prev) true).map Page.writeWindow else .ok []

theorem prevWw_eq (disk : String → PageFile) (r : StorageReader) :
    r.prevWw disk = windowOf disk r.prevIntervalPage := rfl

end Storage
end Nkvdb
