import Nkvdb.Page

/-! Which pages a read opens (`Storage::readInterval`, `Storage::readInTimePoint`).

Both walk the pages in the order of their greatest times and decide by the headers alone. -/
namespace Nkvdb

/-- `PageManager::PageInfo`. -/
structure PageInfo where
  header : Header
  name : String

/-- What a walk has chosen: `pages_to_read`, and `prev_interval_page`. -/
structure Selection where
  pagesToRead : List String
  prevIntervalPage : String
  deriving DecidableEq

namespace Storage

/-- The tests of the header's filters that let a page be passed over. -/
def filteredOut (ids : List Id) (source flag : Flag) (hdr : Header) : Bool :=
  (flag != 0 && hdr.flagFltr != 0 && !bloomCheck hdr.flagFltr flag) ||
    (source != 0 && hdr.srcFltr != 0 && !bloomCheck hdr.srcFltr source) ||
    (!ids.isEmpty && hdr.idFltr != 0 && !ids.any fun id => bloomCheck hdr.idFltr id)

/-- What the loop of `readInterval` does with a page; `prev` is `pages[i - 1]`. -/
def visitInterval (fromTime toTime : Time) (prev : Option PageInfo) (p : PageInfo) (sel : Selection) : Selection :=
  let hdr := p.header
  let pushed := sel.pagesToRead ++ [p.name]
  -- [min from to max]
  if hdr.minTime ≤ fromTime ∧ toTime ≤ hdr.maxTime then
    ⟨pushed, match prev with
      | some q => if sel.prevIntervalPage = "" ∧ pushed.length = 1 then q.name else sel.prevIntervalPage
      | none => sel.prevIntervalPage⟩
  -- [min from max]
  else if hdr.minTime ≤ fromTime ∧ fromTime < hdr.maxTime then
    ⟨pushed, match prev with
      | some q => q.name
      | none => sel.prevIntervalPage⟩
  -- [...max] from [min...]
  else if fromTime < hdr.minTime ∧ prev.any (fun q => q.header.maxTime ≤ fromTime) then
    {sel with pagesToRead := sel.pagesToRead ++ (prev.map PageInfo.name).toList ++ [p.name]}
  -- from  [min to max]
  else if fromTime ≤ hdr.minTime ∧ toTime ≤ hdr.maxTime ∧ hdr.minTime ≤ toTime then {sel with pagesToRead := pushed}
  -- from  [min  max] to
  else if fromTime ≤ hdr.minTime ∧ hdr.maxTime ≤ toTime then {sel with pagesToRead := pushed}
  else sel

def intervalLoop (ids : List Id) (source flag : Flag) (fromTime toTime : Time) :
    Option PageInfo → List PageInfo → Selection → Selection
  | _, [], sel => sel
  | prev, p :: pages, sel =>
    intervalLoop ids source flag fromTime toTime (some p) pages
      (if filteredOut ids source flag p.header then sel else visitInterval fromTime toTime prev p sel)

/-- The pages `Storage::readInterval` schedules, of those in the order of their greatest times. -/
def readInterval (ids : List Id) (source flag : Flag) (fromTime toTime : Time) (pages : List PageInfo) : Selection :=
  intervalLoop ids source flag fromTime toTime none pages ⟨[], ""⟩

/-- The loop of `readInTimePoint`; `last` is whether the page is the last one. It ends with
the first page chosen. -/
def timePointLoop (ids : List Id) (source flag : Flag) (timePoint : Time) :
    Option PageInfo → List PageInfo → Selection
  | _, [] => ⟨[], ""⟩
  | prev, p :: pages =>
    let hdr := p.header
    let prevName := match prev with
      | some q => q.name
      | none => ""
    if filteredOut ids source flag hdr then timePointLoop ids source flag timePoint (some p) pages
    -- [min  max] tp
    else if (hdr.minTime ≤ timePoint ∧ hdr.maxTime ≤ timePoint) ∧ pages = [] then ⟨[p.name], ""⟩
    -- [min tp max]
    else if hdr.minTime ≤ timePoint ∧ timePoint ≤ hdr.maxTime then ⟨[p.name], prevName⟩
    -- [...max] from [min...]
    else if timePoint < hdr.minTime ∧ prev.any (fun q => q.header.maxTime ≤ timePoint) then ⟨[prevName], ""⟩
    else timePointLoop ids source flag timePoint (some p) pages

/-- The page `Storage::readInTimePoint` schedules, if any, and the one before it. -/
def readInTimePoint (ids : List Id) (source flag : Flag) (timePoint : Time) (pages : List PageInfo) : Selection :=
  timePointLoop ids source flag timePoint none pages

end Storage
end Nkvdb
