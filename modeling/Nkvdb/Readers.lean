import Nkvdb.Page

/-! The readers of a page (`readers.cpp` and the reading part of `page.cpp`).

A reader holds its page; here the page is handed to it and back, since a search of the
index flushes it. -/
namespace Nkvdb

/-- The fields of `PageReader` but for the page. -/
structure PageReader where
  ids : List Id
  source : Flag
  flag : Flag
  prevWw : WriteWindow

def PageReader.checkValueFlags (r : PageReader) (m : Meas) : Bool :=
  !(r.flag != 0 && m.flag != r.flag) && !(r.source != 0 && m.source != r.source) &&
    (r.ids.isEmpty || r.ids.contains m.id)

/-- `std::map<Id, Meas>`, in the order of its keys. -/
abbrev MeasMap := List Meas

namespace MeasMap

def find (id : Id) (vs : MeasMap) : Option Meas := vs.find? fun v => v.id == id

/-- `m` under its id, in place of what was there. -/
def assign (m : Meas) : MeasMap → MeasMap
  | [] => [m]
  | v :: vs => if m.id < v.id then m :: v :: vs else if m.id = v.id then m :: vs else v :: assign m vs

end MeasMap

namespace Page

/-- `read` into a new measurement, where a read that fails throws. -/
def readAt (i : Nat) (p : Page) : Except Fault Meas := do
  match ← p.read Meas.empty i with
  | some m => return m
  | none => throw (.readError i)

/-! ### `backwardRead` -/

/-- The tests of `backwardRead`. A measurement with one of the ids does not pass. -/
def backwardCheck (ids : List Id) (source flag : Flag) (m : Meas) : Bool :=
  !(flag != 0 && m.flag != flag) && !(source != 0 && m.source != source) && (ids.isEmpty || !ids.contains m.id)

/-- What `backwardRead` does with one measurement. -/
def backwardVisit (check : Meas → Bool) (timePoint : Time) (m : Meas) (readedValues : MeasMap) : MeasMap :=
  if m.time < timePoint then
    match readedValues.find m.id with
    | none => if check m then readedValues.assign m else readedValues
    | some v => if v.time < m.time then readedValues.assign m else readedValues
  else readedValues

/-- The loop over the `n` positions from `pos` on, the last one first. -/
def backwardLoop (check : Meas → Bool) (timePoint : Time) (p : Page) (pos : Nat) :
    Nat → MeasMap → Except Fault MeasMap
  | 0, readedValues => .ok readedValues
  | n + 1, readedValues => do
    let m ← p.readAt (pos + n)
    backwardLoop check timePoint p pos n (backwardVisit check timePoint m readedValues)

/-- The loop over the records, as the positions they begin at and their counts. With no
positions at 0 the first one is that before 0. -/
def backwardRecords (check : Meas → Bool) (timePoint : Time) (p : Page) :
    List (Nat × Nat) → MeasMap → Except Fault MeasMap
  | [], readedValues => .ok readedValues
  | (pos, count) :: irecords, readedValues => do
    if pos = 0 ∧ count = 0 then throw (.readError (2 ^ 64 - 1))
    let readedValues ← backwardLoop check timePoint p pos count readedValues
    backwardRecords check timePoint p irecords readedValues

def backwardRead (ids : List Id) (source flag : Flag) (timePoint : Time) (p : Page) :
    Except Fault (List Meas × Page) := do
  let (irecords, p) ← if timePoint = p.header.minTime then pure ([(0, p.header.writePos)], p)
    else do
      let (irecords, ix) ← p.index.findInIndex ids timePoint p.header.maxTime flag source
      pure (irecords.reverse.map fun r => (r.pos, r.count), {p with index := ix})
  let readedValues ← backwardRecords (backwardCheck ids source flag) timePoint p irecords []
  return (readedValues, p)

end Page

/-- `PageReader::timePointRead`. -/
def PageReader.timePointRead (r : PageReader) (tp : Time) (p : Page) : Except Fault (List Meas × Page) :=
  if p.header.maxTime < tp then
    .ok (p.writeWindow.filter fun m => m.time != 0 && r.checkValueFlags m, p)
  else do
    let (subResult, p) ← p.backwardRead r.ids r.source r.flag tp
    -- from `prev_ww`, what is not in `sub_result`
    let older := r.prevWw.filter fun m =>
      m.time != 0 && !(subResult.any fun v => v.id == m.id) && r.checkValueFlags m
    return (older ++ subResult, p)

namespace PageReader
variable {r : PageReader} {tp : Time} {p : Page}

/-- Behind the page, its window answers. -/
theorem timePointRead_behind (htp : p.header.maxTime < tp) : r.timePointRead tp p =
    .ok (p.writeWindow.filter fun m => m.time != 0 && r.checkValueFlags m, p) := if_pos htp

/-- Up to its last time the page is read backwards. -/
theorem timePointRead_back (htp : tp ≤ p.header.maxTime) : r.timePointRead tp p =
    p.backwardRead r.ids r.source r.flag tp >>= fun x =>
      .ok ((r.prevWw.filter fun m => m.time != 0 && !(x.1.any fun v => v.id == m.id) && r.checkValueFlags m) ++ x.1,
        x.2) := if_neg (not_lt.mpr htp)

end PageReader

/-! ### `PageReaderInterval` -/

structure PageReaderInterval extends PageReader where
  fromTime : Time
  toTime : Time
  isWindowReader : Bool
  readPosList : List (Nat × Nat)
  curPosBegin : Nat
  curPosEnd : Nat
  wwWindowReaderReadEnd : Bool
  valuesInPointReader : Bool

namespace PageReaderInterval

/-- `PageReader::ReadSize`, as long as nothing else is assigned to it. -/
def readSize : U64 := 1024

/-- The constructor. -/
def new : PageReaderInterval := ⟨⟨[], 0, 0, []⟩, 0, 0, false, [], 0, 0, false, false⟩

def addReadPos (first last : Nat) (r : PageReaderInterval) : PageReaderInterval :=
  {r with readPosList := r.readPosList ++ [(first, last)]}

def isEnd (r : PageReaderInterval) : Bool :=
  if r.isWindowReader then r.wwWindowReaderReadEnd
  else r.readPosList.isEmpty && r.curPosBegin == r.curPosEnd

def checkValueInterval (r : PageReaderInterval) (m : Meas) : Bool := inInterval r.fromTime r.toTime m.time

/-- The loop of `readNext`, with `n` turns to go: what it puts out, and where it stops. -/
def readLoop (r : PageReaderInterval) (p : Page) : Nat → Nat → Except Fault (List Meas × Nat)
  | 0, i => .ok ([], i)
  | n + 1, i =>
    if i = r.curPosEnd then .ok ([], i)
    else do
      let m ← p.readAt i
      let (out, i) ← readLoop r p n (i + 1)
      return ((if r.checkValueInterval m && r.checkValueFlags m then [m] else []) ++ out, i)

/-- The first part of `readNext`: the values at the beginning of the interval, once. -/
def readInPoint (r : PageReaderInterval) (p : Page) :
    Except Fault (List Meas × PageReaderInterval × Page) :=
  if p.header.minTime ≤ r.fromTime ∧ r.valuesInPointReader = false then do
    let (out, p) ← r.timePointRead r.fromTime p
    return (out, {r with valuesInPointReader := true}, p)
  else .ok ([], r, p)

/-- The next positions to read, when the last are read up. -/
def nextPos (r : PageReaderInterval) : Except Fault PageReaderInterval :=
  if r.curPosBegin = r.curPosEnd then
    match r.readPosList with
    | [] => .error .nullReader
    | pos :: rest => .ok {r with readPosList := rest, curPosBegin := pos.1, curPosEnd := pos.2}
  else .ok r

/-- `read_to` of `readNext`, an unsigned sum. -/
def readTo (size : U64) (r : PageReaderInterval) : Nat := (r.curPosBegin + size.val) % 2 ^ 64

/-- `readNext`, with `size` for `ReadSize`. -/
def readNextBy (size : U64) (r : PageReaderInterval) (p : Page) :
    Except Fault (List Meas × PageReaderInterval × Page) :=
  if r.isEnd then .ok ([], r, p)
  else if p.header.maxTime < r.fromTime then
    .ok (p.writeWindow.filter r.checkValueFlags, {r with wwWindowReaderReadEnd := true}, p)
  else do
    let (first, r, p) ← r.readInPoint p
    let r ← r.nextPos
    let (out, i) ← r.readLoop p (r.readTo size - r.curPosBegin) r.curPosBegin
    return (first ++ out, {r with curPosBegin := i}, p)

def readNext (r : PageReaderInterval) (p : Page) : Except Fault (List Meas × PageReaderInterval × Page) :=
  r.readNextBy readSize p

/-- `Reader::readAll`, with `size` for `ReadSize`. -/
def readAllBy (size : U64) : Nat → PageReaderInterval → Page → Except Fault (List Meas × Page)
  | 0, _, _ => .error .outOfFuel
  | fuel + 1, r, p =>
    if r.isEnd then .ok ([], p)
    else do
      let (out, r, p) ← r.readNextBy size p
      let (rest, p) ← readAllBy size fuel r p
      return (out ++ rest, p)

/-- `Reader::readAll`. -/
def readAll (fuel : Nat) (r : PageReaderInterval) (p : Page) : Except Fault (List Meas × Page) :=
  r.readAllBy readSize fuel p

end PageReaderInterval

/-! ### `PageReader_TimePoint` -/

structure PageReaderTimePoint extends PageReader where
  timePoint : Time
  wwWindowReaderReadEnd : Bool

namespace PageReaderTimePoint

def isEnd (r : PageReaderTimePoint) : Bool := r.wwWindowReaderReadEnd

def readNext (r : PageReaderTimePoint) (p : Page) : Except Fault (List Meas × PageReaderTimePoint × Page) :=
  if r.isEnd then .ok ([], r, p)
  else do
    let (out, p) ← r.timePointRead r.timePoint p
    return (out, {r with wwWindowReaderReadEnd := true}, p)

end PageReaderTimePoint

namespace Page

/-! ### The readers a page makes -/

/-- `Page::readAll`. -/
def readAll (p : Page) : Option PageReaderInterval :=
  if p.header.writePos = 0 then none else some (PageReaderInterval.new.addReadPos 0 p.header.writePos)

def readFromToPos (ids : List Id) (source flag : Flag) (fromTime toTime : Time) (first last : Nat) (p : Page) :
    Option PageReaderInterval :=
  if p.header.writePos = 0 then none
  else some {PageReaderInterval.new.addReadPos first last with
    ids := ids, source := source, flag := flag, fromTime := fromTime, toTime := toTime}

/-- `Page::readInterval`. -/
def readInterval (ids : List Id) (source flag : Flag) (fromTime toTime : Time) (p : Page) :
    Except Fault (Option PageReaderInterval × Page) :=
  let preader := {PageReaderInterval.new with
    ids := ids, source := source, flag := flag, fromTime := fromTime, toTime := toTime}
  if p.header.writePos = 0 then .ok (none, p)
  -- from the write window
  else if p.header.maxTime < fromTime then .ok (some {preader with isWindowReader := true}, p)
  -- [from...minTime,maxTime...to]
  else if fromTime ≤ p.header.minTime ∧ p.header.maxTime ≤ toTime then
    if ids.isEmpty ∧ source = 0 ∧ flag = 0 then
      .ok (p.readAll.map fun preader => {preader with fromTime := fromTime, toTime := toTime}, p)
    else .ok (p.readFromToPos ids source flag fromTime toTime 0 p.header.writePos, p)
  else do
    let (irecords, ix) ← p.index.findInIndex ids fromTime toTime flag source
    return (some (irecords.foldl (fun preader r => preader.addReadPos r.pos (r.pos + r.count)) preader),
      {p with index := ix})

def readInTimePoint (ids : List Id) (source flag : Flag) (timePoint : Time) (p : Page) :
    Option PageReaderTimePoint :=
  if p.header.writePos = 0 then none else some ⟨⟨ids, source, flag, []⟩, timePoint, false⟩

end Page
end Nkvdb
