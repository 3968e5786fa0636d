import Nkvdb.Index
import Nkvdb.WriteWindow
import Nkvdb.Lib.ByteMemory

/-! A page (`page.h`, `page.cpp`).

The records grow up from the header, the values down from the end of the file. The
header's fields are kept apart from the bytes; a copy that would leave the data area
of the file ends the run. -/
namespace Nkvdb

/-- `page_version`. -/
def pageVersion : Nat := 3

/-- `indexCacheSize`. -/
def indexCacheSize : Nat := 1000000

/-- `PageCommonHeader`, the same for `Page::Header`. -/
structure Header where
  version : Nat
  isOpen : Bool
  readersCount : Nat
  minMaxInit : Bool
  minTime : Time
  maxTime : Time
  writePos : Nat
  writeValuePos : U64
  size : U64
  writeWindowSize : Nat
  idFltr : Id
  flagFltr : Flag
  srcFltr : Flag

/-- `InternalMeas`. -/
structure InternalMeas where
  id : Id
  time : Time
  source : Flag
  flag : Flag
  size : U64
  valuePos : U64

namespace InternalMeas

def toBytes (im : InternalMeas) : List UInt8 :=
  ByteMemory.words [im.id, im.time, im.source, im.flag, im.size, im.valuePos]

def ofBytes (bs : List UInt8) : InternalMeas :=
  ⟨ByteMemory.ofWords 0 bs, ByteMemory.ofWords 1 bs, ByteMemory.ofWords 2 bs, ByteMemory.ofWords 3 bs,
    ByteMemory.ofWords 4 bs, ByteMemory.ofWords 5 bs⟩

@[simp] theorem length_toBytes (im : InternalMeas) : im.toBytes.length = sizeofInternalMeas := by
  simp [toBytes, sizeofInternalMeas]

theorem ofBytes_toBytes (im : InternalMeas) : ofBytes im.toBytes = im := by
  unfold ofBytes toBytes
  rw [ByteMemory.ofWords_words (by simp), ByteMemory.ofWords_words (by simp), ByteMemory.ofWords_words (by simp),
    ByteMemory.ofWords_words (by simp), ByteMemory.ofWords_words (by simp), ByteMemory.ofWords_words (by simp)]
  rfl

end InternalMeas

/-- A page open in memory. `windowFile` is the `.pagew` file. -/
structure Page where
  header : Header
  rawData : ByteMemory
  index : Index
  writeWindow : WriteWindow
  windowFile : Option (List Meas)

/-- What a closed page leaves on disk. -/
structure PageFile where
  header : Header
  rawData : ByteMemory
  indexFile : IndexTree
  windowFile : Option (List Meas)

namespace Page

/-- `Page::calc_size`. -/
def calcSize (n : Nat) : U64 := word (sizeofHeader + sizeofMeas * n + 8 * n)

/-- `Page::page_size_to_count`. -/
def pageSizeToCount (fsize : U64) : Nat := (fsize - word sizeofHeader).val / sizeofInternalMeas

/-- `Page::initHeader`. -/
def initHeader (fsize : U64) : Header :=
  ⟨pageVersion, false, 0, false, 0, 0, 0, fsize, fsize, 0, 0, 0, 0⟩

/-- `Page::Create`, where no index file and no window file of the name exist. -/
def create (fsize : U64) : Page :=
  ⟨{initHeader fsize with isOpen := true}, fun _ => 0, Index.create indexCacheSize (pageSizeToCount fsize / 10),
    [], none⟩

/-- `Page::isFull`: the space between the areas, counting a `Meas` for each record, as an
unsigned difference. -/
def isFull (p : Page) : Bool :=
  decide (p.header.writeValuePos - word (sizeofHeader + sizeofMeas * p.header.writePos) < word sizeofMeas)

/-- Where record `i` lies: `m_data_begin[i]`. -/
def recordPos (i : Nat) : Nat := sizeofHeader + sizeofInternalMeas * i

/-- `memcpy` into the mapped file. -/
def copyIn (i : Nat) (bs : List UInt8) (p : Page) : Except Fault Page :=
  if bs = [] ∨ (sizeofHeader ≤ i ∧ i + bs.length ≤ p.header.size.val) then
    .ok {p with rawData := ByteMemory.store i bs p.rawData}
  else .error .bufferOverflow

/-- `memcpy` out of the mapped file. -/
def copyOut (i n : Nat) (p : Page) : Except Fault (List UInt8) :=
  if n = 0 ∨ (sizeofHeader ≤ i ∧ i + n ≤ p.header.size.val) then .ok (ByteMemory.load i n p.rawData)
  else .error .bufferOverflow

def updateMinMax (m : Meas) (h : Header) : Header :=
  if h.minMaxInit then {h with minTime := min m.time h.minTime, maxTime := max m.time h.maxTime}
  else {h with minMaxInit := true, minTime := m.time, maxTime := m.time}

/-- What both `append`s do with one measurement but for the index and `write_pos`. The
value is copied from the 16 bytes of the `Meas`. -/
def put (m : Meas) (p : Page) : Except Fault Page := do
  let w ← p.writeWindow.update m
  let p := {p with writeWindow := w, header := {p.header with
    writeWindowSize := w.length
    idFltr := bloomAdd p.header.idFltr m.id
    flagFltr := bloomAdd p.header.flagFltr m.flag
    srcFltr := bloomAdd p.header.srcFltr m.source}}
  let newWriteValuePos := p.header.writeValuePos - m.size
  if sizeofValue < m.size.val then throw .bufferOverflow
  let p ← p.copyIn newWriteValuePos.val (m.value.toList.take m.size.val)
  let p := {p with header := {p.header with writeValuePos := newWriteValuePos}}
  p.copyIn (recordPos p.header.writePos)
    (InternalMeas.toBytes ⟨m.id, m.time, m.source, m.flag, m.size, newWriteValuePos⟩)

/-- `Page::append` of one measurement. `junk` is what the two filters of the index record
hold, which the function does not set. -/
def append (m : Meas) (junk : Flag × Flag) (p : Page) : Except Fault (AppendResult × Page) := do
  if p.header.readersCount ≠ 0 then throw .assertion
  if p.isFull then return ({}, p)
  let p ← put m {p with header := updateMinMax m p.header}
  let ix ← p.index.writeIndexRec ⟨p.header.writePos, 1, m.time, m.time, m.id, m.id, junk.1, junk.2⟩
  return (⟨1, 0⟩, {p with index := ix, header := {p.header with writePos := p.header.writePos + 1}})

/-- `begin[i]`. -/
def nth (ms : List Meas) (i : Nat) : Meas := ms.getD i Meas.empty

/-- The locals of `Page::append` of an array. -/
structure Cursor where
  page : Page
  writePosBegin : Nat
  start : Nat
  curFlgFltr : Flag
  curSrcFltr : Flag

/-- One turn of the loop of `Page::append` of an array, for element `i`. A record is
written before each hundredth element is counted in; its ids are set to times. -/
def appendNext (ms : List Meas) (i : Nat) (s : Cursor) : Except Fault Cursor := do
  let m := nth ms i
  let curFlgFltr := bloomAdd s.curSrcFltr m.id
  let curSrcFltr := bloomAdd curFlgFltr m.id
  let p ← put m s.page
  let p := {p with header := {p.header with writePos := p.header.writePos + 1}}
  if i ≠ 0 ∧ i % 100 = 0 then
    let ix ← p.index.writeIndexRec ⟨s.writePosBegin, 100, (nth ms s.start).time, (nth ms (i - 1)).time,
      (nth ms s.start).time, (nth ms (i - 1)).time, curFlgFltr, curSrcFltr⟩
    return ⟨{p with index := ix}, s.writePosBegin + 100, i, 0, 0⟩
  return ⟨p, s.writePosBegin, s.start, curFlgFltr, curSrcFltr⟩

/-- The loop of `Page::append` of an array, with `n` elements to go: the element it stops
at, and the locals. -/
def appendLoop (ms : List Meas) : Nat → Nat → Cursor → Except Fault (Nat × Cursor)
  | 0, i, s => .ok (i, s)
  | n + 1, i, s =>
    if s.page.isFull then .ok (i, s)
    else do
      let s ← appendNext ms i s
      appendLoop ms n (i + 1) s

/-- `Page::append` of an array. -/
def appendArray (ms : List Meas) (p : Page) : Except Fault (AppendResult × Page) := do
  let (i, s) ← appendLoop ms ms.length 0 ⟨p, p.header.writePos, 0, 0, 0⟩
  let p ← if s.start ≠ i then do
      let ix ← s.page.index.writeIndexRec ⟨s.writePosBegin, i - s.start, (nth ms s.start).time,
        (nth ms (i - 1)).time, (nth ms s.start).id, (nth ms (i - 1)).id, s.curFlgFltr, s.curSrcFltr⟩
      pure {s.page with index := ix}
    else pure s.page
  let p := if i ≠ 0 then
      {p with header := updateMinMax (nth ms (i - 1)) (updateMinMax (nth ms 0) p.header)}
    else p
  return (⟨i, 0⟩, p)

/-- What `Meas::setValue` of an `int64_t` leaves in the value: the bytes copied into it,
zeros after them, and what the value held from byte 8 on. -/
def setValue (bs : List UInt8) (v : Value) : Value :=
  Vector.ofFn fun k => if k.val < 8 then bs.getD k.val 0 else v[k]

/-- `Page::read`. The value goes through an `int64_t`. -/
def read (result : Meas) (i : Nat) (p : Page) : Except Fault (Option Meas) := do
  if p.header.writePos = 0 then return none
  if p.header.writePos ≤ i then return none
  let im := InternalMeas.ofBytes (← p.copyOut (recordPos i) sizeofInternalMeas)
  if 8 < im.size.val then throw .bufferOverflow
  let bs ← p.copyOut im.valuePos.val im.size.val
  return some ⟨im.id, im.time, im.source, im.flag, setValue bs result.value, im.size⟩

def flushWriteWindow (p : Page) : Page :=
  {p with
    header := {p.header with writeWindowSize := p.writeWindow.length}
    windowFile := if p.writeWindow.length ≠ 0 then some p.writeWindow else p.windowFile}

def flushIndex (p : Page) : Except Fault Page := do
  let ix ← p.index.flush
  return {p with index := ix}

/-- `Page::close`; closing the index flushes it once more. -/
def close (p : Page) : Except Fault PageFile := do
  let p ← p.flushWriteWindow.flushIndex
  let ix ← p.index.flush
  return ⟨{p.header with isOpen := false, readersCount := 0}, p.rawData, ix.tree, p.windowFile⟩

/-- `Page::Open`. The index has what `f` has of it. -/
def openFile (f : PageFile) (readOnly : Bool) : Except Fault Page := do
  if !readOnly ∧ f.header.isOpen then throw .alreadyOpenned
  if f.header.version ≠ pageVersion then throw .pageFormat
  let w ← WriteWindow.load f.windowFile []
  return ⟨{f.header with
      isOpen := true
      readersCount := if readOnly then f.header.readersCount + 1 else f.header.readersCount},
    f.rawData, Index.openFile indexCacheSize f.indexFile, w, f.windowFile⟩

/-! ### Runs -/

/-- An append of either kind. -/
inductive Op where
  | single (m : Meas) (junk : Flag × Flag)
  | array (ms : List Meas)

/-- The measurements handed to an append. -/
def Op.meases : Op → List Meas
  | .single m _ => [m]
  | .array ms => ms

def Op.run (op : Op) (p : Page) : Except Fault (AppendResult × Page) :=
  match op with
  | .single m junk => p.append m junk
  | .array ms => p.appendArray ms

/-- A run of appends: the measurements accepted, in order, and the page. -/
def appendAll : List Op → Page → Except Fault (List Meas × Page)
  | [], p => .ok ([], p)
  | op :: ops, p => do
    let (r, p) ← op.run p
    let (log, p) ← appendAll ops p
    return (op.meases.take r.writed ++ log, p)

end Page
end Nkvdb
