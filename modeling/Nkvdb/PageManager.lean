import Nkvdb.Page.Sorted
import Mathlib.Data.List.Sort

/-! The pages of a storage and what writes to them (`page_manager.cpp`, `AsyncWriter`).

Only the current page is open; a page that does not take all of a batch is closed and
its write window copied to a new one. -/
namespace Nkvdb

/-- What `std::sort` with `MeasCmpByTime` promises: the order of equal times is not fixed. -/
structure TimeSort where
  sort : List Meas → List Meas
  perm : ∀ ms, (sort ms).Perm ms
  sorted : ∀ ms, (sort ms).Pairwise fun a b => a.time ≤ b.time

/-- Insertion sort keeps the promise. -/
def TimeSort.insertion : TimeSort where
  sort := List.insertionSort fun a b => a.time ≤ b.time
  perm := List.perm_insertionSort _
  sorted := by
    have : Std.Total fun a b : Meas => a.time ≤ b.time := ⟨fun a b => le_total a.time b.time⟩
    have : IsTrans Meas fun a b => a.time ≤ b.time := ⟨fun a b c => le_trans⟩
    exact List.pairwise_insertionSort _

structure PageManager where
  defaultPageSize : U64
  curpage : Option Page
  /-- The files of `m_page_list` but for that of the current page. -/
  files : List PageFile

namespace PageManager

/-- `PageManager::start` on an empty directory. -/
def start (pageSize : U64) : PageManager := ⟨pageSize, none, []⟩

/-- `PageManager::getCurPage`, where it is used. -/
def getCurPage (pm : PageManager) : Except Fault Page :=
  match pm.curpage with
  | some p => .ok p
  | none => .error .nullReader

def createNewPage (pm : PageManager) : Except Fault PageManager :=
  match pm.curpage with
  | none => .ok {pm with curpage := some (Page.create pm.defaultPageSize)}
  | some p => do
    let wwindow := p.writeWindow
    let f ← p.close
    .ok {pm with
      curpage := some {Page.create pm.defaultPageSize with writeWindow := wwindow}
      files := pm.files ++ [f]}

def closeCurrentPage (pm : PageManager) : Except Fault PageManager :=
  match pm.curpage with
  | none => .ok pm
  | some p => do
    let f ← p.close
    .ok {pm with curpage := none, files := pm.files ++ [f]}

end PageManager

namespace AsyncWriter

/-- A page that did not take all of the `toWrite` measurements is followed by a new one. -/
def rollOver (ares : AppendResult) (toWrite : Nat) (pm : PageManager) : Except Fault PageManager :=
  if ares.writed ≠ toWrite then pm.createNewPage else .ok pm

/-- The loop of `AsyncWriter::call`: what is left of the batch, and the measurements the
pages took, in order. -/
def writeLoop : Nat → List Meas → PageManager → Except Fault (List Meas × PageManager)
  | 0, _, _ => .error .outOfFuel
  | fuel + 1, output, pm =>
    if output = [] then .ok ([], pm)
    else do
      let p ← pm.getCurPage
      let (ares, p) ← p.appendArray output
      let pm ← rollOver ares output.length {pm with curpage := some p}
      let (log, pm) ← writeLoop fuel (output.drop ares.writed) pm
      return (output.take ares.writed ++ log, pm)

/-- `AsyncWriter::call` on the measurements of a cache. -/
def call (S : TimeSort) (fuel : Nat) (data : List Meas) (pm : PageManager) :
    Except Fault (List Meas × PageManager) := do
  let (log, pm) ← writeLoop fuel (S.sort data) pm
  let p ← pm.getCurPage
  let p ← p.flushWriteWindow.flushIndex
  return (log, {pm with curpage := some p})

end AsyncWriter

namespace PageManager

/-- A write to the pages: a batch from the writer, or a single append to the current page. -/
inductive Write where
  | call (data : List Meas)
  | append (m : Meas) (junk : Flag × Flag)

/-- The measurements handed to a write. -/
def Write.meases : Write → List Meas
  | .call data => data
  | .append m _ => [m]

/-- What a write puts into the pages, in order. -/
def Write.run (S : TimeSort) (fuel : Nat) : Write → PageManager → Except Fault (List Meas × PageManager)
  | .call data, pm => AsyncWriter.call S fuel data pm
  | .append m junk, pm => do
    let p ← pm.getCurPage
    let (ares, p) ← p.append m junk
    return ([m].take ares.writed, {pm with curpage := some p})

def runAll (S : TimeSort) (fuel : Nat) : List Write → PageManager → Except Fault (List Meas × PageManager)
  | [], pm => .ok ([], pm)
  | w :: writes, pm => do
    let (new, pm) ← w.run S fuel pm
    let (log, pm) ← runAll S fuel writes pm
    return (new ++ log, pm)

/-! ### What a step gives -/

theorem getCurPage_iff {pm : PageManager} {p : Page} : pm.getCurPage = .ok p ↔ pm.curpage = some p := by
  unfold getCurPage
  cases pm.curpage with
  | none => exact ⟨nofun, nofun⟩
  | some q => exact ⟨fun h => congrArg _ (Except.ok.inj h), fun h => congrArg _ (Option.some.inj h)⟩

theorem createNewPage_iff {pm pm' : PageManager} {p : Page} (hp : pm.curpage = some p) :
    pm.createNewPage = .ok pm' ↔ ∃ f, p.close = .ok f ∧ pm' = {pm with
      curpage := some {Page.create pm.defaultPageSize with writeWindow := p.writeWindow}
      files := pm.files ++ [f]} := by
  unfold createNewPage
  rw [hp]
  constructor
  · intro h
    obtain ⟨f, hf, h⟩ := bind_ok h
    exact ⟨f, hf, (Except.ok.inj h).symm⟩
  · rintro ⟨f, hf, rfl⟩
    simp only [hf, bind, Except.bind]

/-- One turn of the loop. -/
theorem writeLoop_cons {fuel : Nat} {output new : List Meas} {pm pm' : PageManager} (hne : output ≠ [])
    (hw : AsyncWriter.writeLoop (fuel + 1) output pm = .ok (new, pm')) : ∃ p ares p' pm₁ rest,
      pm.curpage = some p ∧ p.appendArray output = .ok (ares, p') ∧
      AsyncWriter.rollOver ares output.length {pm with curpage := some p'} = .ok pm₁ ∧
      AsyncWriter.writeLoop fuel (output.drop ares.writed) pm₁ = .ok (rest, pm') ∧
      new = output.take ares.writed ++ rest := by
  unfold AsyncWriter.writeLoop at hw
  rw [if_neg hne] at hw
  obtain ⟨p, hp, hw⟩ := bind_ok hw
  obtain ⟨⟨ares, p'⟩, ha, hw⟩ := bind_ok hw
  obtain ⟨pm₁, hc, hw⟩ := bind_ok hw
  obtain ⟨⟨rest, pm₂⟩, hrest, hw⟩ := bind_ok hw
  obtain ⟨rfl, rfl⟩ := Prod.mk.inj (Except.ok.inj hw)
  exact ⟨p, ares, p', pm₁, rest, getCurPage_iff.mp hp, ha, hc, hrest, rfl⟩

theorem writeLoop_nil {fuel : Nat} {new : List Meas} {pm pm' : PageManager}
    (hw : AsyncWriter.writeLoop fuel [] pm = .ok (new, pm')) : new = [] ∧ pm' = pm := by
  cases fuel with
  | zero => cases hw
  | succ fuel =>
    obtain ⟨rfl, rfl⟩ := Prod.mk.inj (Except.ok.inj hw)
    exact ⟨rfl, rfl⟩

/-- A batch is the loop and the flushes of the page it ends with. -/
theorem call_spec {S : TimeSort} {fuel : Nat} {data new : List Meas} {pm pm' : PageManager}
    (hc : AsyncWriter.call S fuel data pm = .ok (new, pm')) : ∃ pm₁ p p',
      AsyncWriter.writeLoop fuel (S.sort data) pm = .ok (new, pm₁) ∧ pm₁.curpage = some p ∧
      p.flushWriteWindow.flushIndex = .ok p' ∧ pm' = {pm₁ with curpage := some p'} := by
  obtain ⟨⟨new₁, pm₁⟩, hw, hc⟩ := bind_ok hc
  obtain ⟨p, hp, hc⟩ := bind_ok hc
  obtain ⟨p', hf, hc⟩ := bind_ok hc
  obtain ⟨rfl, rfl⟩ := Prod.mk.inj (Except.ok.inj hc)
  exact ⟨pm₁, p, p', hw, getCurPage_iff.mp hp, hf, rfl⟩

theorem runAll_cons {S : TimeSort} {fuel : Nat} {w : Write} {writes : List Write} {log : List Meas}
    {pm pm' : PageManager} (hr : runAll S fuel (w :: writes) pm = .ok (log, pm')) : ∃ new pm₁ rest,
      w.run S fuel pm = .ok (new, pm₁) ∧ runAll S fuel writes pm₁ = .ok (rest, pm') ∧ log = new ++ rest := by
  obtain ⟨⟨new, pm₁⟩, h₁, hr⟩ := bind_ok hr
  obtain ⟨⟨rest, pm₂⟩, h₂, hr⟩ := bind_ok hr
  obtain ⟨rfl, rfl⟩ := Prod.mk.inj (Except.ok.inj hr)
  exact ⟨new, pm₁, rest, h₁, h₂, rfl⟩

/-! ### What writes keep -/

/-- `P` speaks of what was written to the pages and of the pages; appends to the current page,
new pages and flushes keep it. -/
structure Kept (P : List Meas → PageManager → Prop) : Prop where
  append : ∀ {log pm p op r p'}, P log pm → pm.curpage = some p → Page.Op.run op p = .ok (r, p') →
    P (log ++ op.meases.take r.writed) {pm with curpage := some p'}
  createNewPage : ∀ {log pm pm'}, P log pm → pm.createNewPage = .ok pm' → P log pm'
  flush : ∀ {log pm p p'}, P log pm → pm.curpage = some p → p.flushWriteWindow.flushIndex = .ok p' →
    P log {pm with curpage := some p'}

/-- Nothing of a batch is left out. -/
theorem writeLoop_eq {fuel : Nat} {output new : List Meas} {pm pm' : PageManager}
    (hw : AsyncWriter.writeLoop fuel output pm = .ok (new, pm')) : new = output := by
  induction fuel generalizing output new pm with
  | zero => cases hw
  | succ fuel ih =>
    by_cases hne : output = []
    · subst hne
      exact (writeLoop_nil hw).1
    · obtain ⟨p, ares, p', pm₁, rest, -, -, -, hrest, rfl⟩ := writeLoop_cons hne hw
      rw [ih hrest, List.take_append_drop]

theorem call_eq {S : TimeSort} {fuel : Nat} {data new : List Meas} {pm pm' : PageManager}
    (hc : AsyncWriter.call S fuel data pm = .ok (new, pm')) : new = S.sort data := by
  obtain ⟨pm₁, p, p', hw, -, -, -⟩ := call_spec hc
  exact writeLoop_eq hw

/-- What batches write. -/
theorem calls_eq {S : TimeSort} {fuel : Nat} {batches : List (List Meas)} {log : List Meas} {pm pm' : PageManager}
    (hr : runAll S fuel (batches.map .call) pm = .ok (log, pm')) : log = (batches.map S.sort).flatten := by
  induction batches generalizing pm log with
  | nil =>
    obtain ⟨rfl, -⟩ := Prod.mk.inj (Except.ok.inj hr)
    rfl
  | cons data batches ih =>
    obtain ⟨new, pm₁, rest, h₁, h₂, rfl⟩ := runAll_cons hr
    rw [call_eq h₁, ih h₂]
    rfl

/-- The same where the appends are sorted, as those of all writes are. -/
structure KeptSorted (P : List Meas → PageManager → Prop) : Prop where
  append : ∀ {log pm p op r p'}, P log pm → pm.curpage = some p → op.Sorted → Page.Op.run op p = .ok (r, p') →
    P (log ++ op.meases.take r.writed) {pm with curpage := some p'}
  createNewPage : ∀ {log pm pm'}, P log pm → pm.createNewPage = .ok pm' → P log pm'
  flush : ∀ {log pm p p'}, P log pm → pm.curpage = some p → p.flushWriteWindow.flushIndex = .ok p' →
    P log {pm with curpage := some p'}

namespace KeptSorted
variable {P : List Meas → PageManager → Prop}

theorem writeLoop (h : KeptSorted P) {fuel : Nat} {log output new : List Meas} {pm pm' : PageManager} (hp : P log pm)
    (hs : output.Pairwise fun a b => a.time ≤ b.time) (hw : AsyncWriter.writeLoop fuel output pm = .ok (new, pm')) :
    P (log ++ new) pm' := by
  induction fuel generalizing log output new pm with
  | zero => cases hw
  | succ fuel ih =>
    by_cases hne : output = []
    · subst hne
      obtain ⟨rfl, rfl⟩ := writeLoop_nil hw
      rwa [List.append_nil]
    · obtain ⟨p, ares, p', pm₁, rest, hcur, ha, hc, hrest, rfl⟩ := writeLoop_cons hne hw
      have ha : Page.Op.run (.array output) p = .ok (ares, p') := ha
      have hsorted : Page.Op.Sorted (.array output) := hs
      have happ := h.append hp hcur hsorted ha
      have hnext : P (log ++ output.take ares.writed) pm₁ := by
        unfold AsyncWriter.rollOver at hc
        split at hc
        · exact h.createNewPage happ hc
        · rwa [← Except.ok.inj hc]
      rw [← List.append_assoc]
      exact ih hnext (hs.sublist (List.drop_sublist ..)) hrest

theorem call (h : KeptSorted P) {S : TimeSort} {fuel : Nat} {log data new : List Meas} {pm pm' : PageManager}
    (hp : P log pm) (hc : AsyncWriter.call S fuel data pm = .ok (new, pm')) : P (log ++ new) pm' := by
  obtain ⟨pm₁, p, p', hw, hcur, hf, rfl⟩ := call_spec hc
  exact h.flush (h.writeLoop hp (S.sorted data) hw) hcur hf

theorem run (h : KeptSorted P) {S : TimeSort} {fuel : Nat} {log new : List Meas} {w : Write} {pm pm' : PageManager}
    (hp : P log pm) (hr : w.run S fuel pm = .ok (new, pm')) : P (log ++ new) pm' := by
  cases w with
  | call data => exact h.call hp hr
  | append m junk =>
    obtain ⟨p, hcur, hr⟩ := bind_ok hr
    obtain ⟨⟨ares, p'⟩, ha, hr⟩ := bind_ok hr
    obtain ⟨rfl, rfl⟩ := Prod.mk.inj (Except.ok.inj hr)
    have ha : Page.Op.run (.single m junk) p = .ok (ares, p') := ha
    have hsorted : Page.Op.Sorted (.single m junk) := List.pairwise_singleton _ _
    exact h.append hp (getCurPage_iff.mp hcur) hsorted ha

theorem runAll (h : KeptSorted P) {S : TimeSort} {fuel : Nat} {log new : List Meas} {writes : List Write}
    {pm pm' : PageManager} (hp : P log pm) (hr : PageManager.runAll S fuel writes pm = .ok (new, pm')) :
    P (log ++ new) pm' := by
  induction writes generalizing log new pm with
  | nil =>
    obtain ⟨rfl, rfl⟩ := Prod.mk.inj (Except.ok.inj hr)
    rwa [List.append_nil]
  | cons w writes ih =>
    obtain ⟨new₁, pm₁, rest, h₁, h₂, rfl⟩ := runAll_cons hr
    have := ih (h.run hp h₁) h₂
    rwa [List.append_assoc] at this

end KeptSorted

theorem Kept.sorted {P : List Meas → PageManager → Prop} (h : Kept P) : KeptSorted P :=
  ⟨fun hp hcur _ hrun => h.append hp hcur hrun, h.createNewPage, h.flush⟩

theorem Kept.runAll {P : List Meas → PageManager → Prop} (h : Kept P) {S : TimeSort} {fuel : Nat} {log new : List Meas}
    {writes : List Write} {pm pm' : PageManager} (hp : P log pm)
    (hr : PageManager.runAll S fuel writes pm = .ok (new, pm')) : P (log ++ new) pm' :=
  h.sorted.runAll hp hr

/-! ### The window over all pages -/

/-- There is a current page, and its window is that of all that was written to the pages. -/
def Windowed (log : List Meas) (pm : PageManager) : Prop :=
  ∃ p, pm.curpage = some p ∧ WriteWindow.Tracks log p.writeWindow

theorem Windowed.start {pageSize : U64} {pm : PageManager} (h : (start pageSize).createNewPage = .ok pm) :
    Windowed [] pm := by
  obtain rfl : _ = pm := Except.ok.inj h
  exact ⟨_, rfl, WriteWindow.Tracks.empty⟩

theorem Windowed.kept : Kept Windowed where
  append := by
    intro log pm p op r p' h hp hrun
    obtain ⟨p₁, hp₁, ht⟩ := h
    obtain rfl := Option.some.inj (hp₁.symm.trans hp)
    obtain ⟨-, k, q, ix, hacc, -, rfl, rfl⟩ := Page.Op.run_iff.mp hrun
    have hw := ht.updateAll (Page.acceptAll_window hacc)
    exact ⟨_, rfl, hw⟩
  createNewPage := by
    intro log pm pm' h hc
    obtain ⟨p, hp, ht⟩ := h
    obtain ⟨f, -, rfl⟩ := (createNewPage_iff hp).mp hc
    exact ⟨_, rfl, ht⟩
  flush := by
    intro log pm p p' h hp hf
    obtain ⟨p₁, hp₁, ht⟩ := h
    obtain rfl := Option.some.inj (hp₁.symm.trans hp)
    obtain ⟨ix, -, rfl⟩ := Page.flushIndex_iff.mp hf
    exact ⟨_, rfl, ht⟩

/-- Every measurement handed to a batch is written. -/
theorem runAll_mem {S : TimeSort} {fuel : Nat} {new data : List Meas} {writes : List Write}
    {pm pm' : PageManager} (hr : PageManager.runAll S fuel writes pm = .ok (new, pm'))
    (hd : .call data ∈ writes) {m : Meas} (hm : m ∈ data) : m ∈ new := by
  induction writes generalizing new pm with
  | nil => exact absurd hd List.not_mem_nil
  | cons w writes ih =>
    obtain ⟨new₁, pm₁, rest, h₁, h₂, rfl⟩ := runAll_cons hr
    rcases List.mem_cons.mp hd with rfl | hd
    · obtain rfl := call_eq h₁
      exact List.mem_append_left _ ((S.perm data).mem_iff.mpr hm)
    · exact List.mem_append_right _ (ih h₂ hd)

/-- After batches and single appends in any order, with any number of pages begun on the
way: the current page's window holds, for every id with a measurement of a time above
zero, the first written of its newest ones over all pages; every slot is empty or holds
a measurement of its id; and nothing handed to a batch is missing from what was written. -/
theorem window_newest (S : TimeSort) (fuel : Nat) (pageSize : U64) (writes : List Write) (log : List Meas)
    (pm₀ pm : PageManager) (hstart : (start pageSize).createNewPage = .ok pm₀)
    (hrun : PageManager.runAll S fuel writes pm₀ = .ok (log, pm)) :
    ∃ p, pm.curpage = some p ∧
      (∀ i, (∃ m, m ∈ log ∧ m.id.val = i ∧ 0 < m.time) →
        FirstMax (fun m => m.id.val) Meas.time i log (p.writeWindow.slot i)) ∧
      (∀ i, p.writeWindow.slot i = Meas.empty ∨
        (p.writeWindow.slot i ∈ log ∧ (p.writeWindow.slot i).id.val = i)) ∧
      ∀ data, .call data ∈ writes → ∀ m, m ∈ data → m ∈ log := by
  have h₀ := Windowed.start hstart
  obtain ⟨p, hp, ht⟩ := Windowed.kept.runAll h₀ hrun
  rw [List.nil_append] at ht
  exact ⟨p, hp, ht.newest, ht.own, fun data hd m hm => runAll_mem hrun hd hm⟩

theorem window_newest_two : ∃ pm₀ log pm, (start (Page.calcSize 2)).createNewPage = .ok pm₀ ∧
    PageManager.runAll TimeSort.insertion 8 [.call [.plain 1 5, .plain 0 3], .append (.plain 0 9) (0, 0),
      .call [.plain 1 5, .plain 2 7, .plain 0 4]] pm₀ = .ok (log, pm) ∧
    ∃ p, pm.curpage = some p ∧ FirstMax (fun m => m.id.val) Meas.time 1 log (p.writeWindow.slot 1) := by
  let writes : List Write := [.call [.plain 1 5, .plain 0 3], .append (.plain 0 9) (0, 0),
    .call [.plain 1 5, .plain 2 7, .plain 0 4]]
  let pm₀ : PageManager := {start (Page.calcSize 2) with curpage := some (Page.create (Page.calcSize 2))}
  have hrun : (PageManager.runAll TimeSort.insertion 8 writes pm₀).toOption.isSome = true := by decide +kernel
  cases hok : PageManager.runAll TimeSort.insertion 8 writes pm₀ with
  | error e =>
    rw [hok] at hrun
    cases hrun
  | ok x =>
    obtain ⟨p, hp, hnew, -, hall⟩ := window_newest TimeSort.insertion 8 (Page.calcSize 2) writes x.1 pm₀ x.2 rfl hok
    refine ⟨pm₀, x.1, x.2, rfl, hok, p, hp, hnew 1 ⟨.plain 1 5, ?_, rfl, by decide⟩⟩
    exact hall [.plain 1 5, .plain 0 3] List.mem_cons_self _ List.mem_cons_self

end PageManager
end Nkvdb
