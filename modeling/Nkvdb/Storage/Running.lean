import Nkvdb.Pipeline.Guarantees
import Nkvdb.Storage.Progress
import Nkvdb.Storage.Reached

/-! A storage that runs.

The clients and the writer take their steps as in the pipeline, in any order, and under them lie the pages of
a `PageManager`: a turn of the loop of `AsyncWriter::call` appends to the current page, a page that does not
take all is followed by a new one, and the batch ends with the flushes. A step that throws ends the process,
so there is none.

Whatever the interleaving, the pages are those that the batches give one after the other, in the order the
measurements were accepted in. So what is known of a storage that is written a batch at a time is known of
one that runs. -/
namespace Nkvdb
open Pipeline

/-- The threads, over pages that take nothing by themselves: here they only record what the real ones took. -/
abbrev Threads : Type := Sys (PageStore.bounded 0)

structure Running where
  threads : Threads
  pages : PageManager

namespace Running

def init (poolSize cacheSize : Nat) (pm : PageManager) : Running := ⟨Sys.init _ poolSize cacheSize, pm⟩

inductive Step (S : TimeSort) : Running → Running → Prop
  | client (r : Running) (t : Threads) (h : ClientStep r.threads t) : Step S r {r with threads := t}
  | writer (r : Running) (t : Threads) (h : WriterStep S r.threads t)
      (hout : r.threads.writer.inLoop = false) : Step S r {r with threads := t}
  | append (r : Running) (i : Nat) (output : List Meas) (p p' : Page) (ares : AppendResult)
      (h : r.threads.writer = .call i output) (hne : output ≠ []) (hp : r.pages.curpage = some p)
      (ha : p.appendArray output = .ok (ares, p')) : Step S r {
        threads := {r.threads with
          curpage := List.append r.threads.curpage (output.take ares.writed)
          writer := .afterAppend i output ares.writed}
        pages := {r.pages with curpage := some p'}}
  | createNewPage (r : Running) (i : Nat) (output : List Meas) (pm : PageManager)
      (h : r.threads.writer = .createNewPage i output) (hc : r.pages.createNewPage = .ok pm) : Step S r {
        threads := {r.threads with
          pages := r.threads.pages ++ [r.threads.curpage]
          curpage := ([] : List Meas)
          writer := .call i output}
        pages := pm}
  -- `flushWriteWindow` and `flushIndex`, after the loop
  | flush (r : Running) (i : Nat) (p p' : Page) (h : r.threads.writer = .call i []) (hp : r.pages.curpage = some p)
      (hf : p.flushWriteWindow.flushIndex = .ok p') : Step S r {
        threads := {r.threads with writer := .clear i}
        pages := {r.pages with curpage := some p'}}

/-- The states of all interleavings, from the pages `pm` on. -/
inductive Reachable (S : TimeSort) (poolSize cacheSize : Nat) (pm : PageManager) : Running → Prop
  | init : Reachable S poolSize cacheSize pm (init poolSize cacheSize pm)
  | step {r r' : Running} (h : Reachable S poolSize cacheSize pm r) (hs : Step S r r') :
      Reachable S poolSize cacheSize pm r'

section
variable {S : TimeSort} {poolSize cacheSize : Nat} {pm pm₀ : PageManager} {r r' : Running}

/-! ### The threads -/

/-- The threads over pages that take any `n`. -/
def taking (n : Nat) (s : Threads) : Sys (PageStore.bounded n) :=
  ⟨s.pool, s.cache, s.data, s.writer, s.pages, s.curpage, s.threadLock, s.addLock, s.calls, s.client, s.accepted⟩

theorem inv_taking {n : Nat} {s : Threads} : Inv (taking n s) ↔ Inv s :=
  ⟨fun h => ⟨h.owned, h.cleared, h.ledger, h.thread, h.calls, h.client⟩,
    fun h => ⟨h.owned, h.cleared, h.ledger, h.thread, h.calls, h.client⟩⟩

theorem Step.inv (h : Inv r.threads) (hs : Step S r r') : Inv r'.threads := by
  cases hs with
  | client t hc => exact hc.inv h
  | writer t hw _ => exact hw.inv h
  | append i output p p' ares hw hne hp ha =>
    -- the page takes as much as one that has room for just this
    have hle := Storage.appendArray_writed ha
    have hstep := WriterStep.append (S := S) (taking (r.threads.curpage.length + ares.writed) r.threads) i output hw hne
    have hinv := hstep.inv (inv_taking.mpr h)
    have htook : (PageStore.bounded (r.threads.curpage.length + ares.writed)).append output r.threads.curpage =
        (ares.writed, List.append r.threads.curpage (output.take ares.writed)) := by
      simp only [PageStore.bounded, Nat.add_sub_cancel_left, Nat.min_eq_left hle]
      rfl
    simp only [taking, htook] at hinv
    exact ⟨hinv.owned, hinv.cleared, hinv.ledger, hinv.thread, hinv.calls, hinv.client⟩
  | createNewPage i output pm' hw hc =>
    have hstep := WriterStep.createNewPage (S := S) r.threads i output hw
    exact hstep.inv h
  | flush i p p' hw hp hf =>
    have hstep := WriterStep.written (S := S) r.threads i hw
    exact hstep.inv h

theorem Reachable.inv (h : Reachable S poolSize cacheSize pm₀ r) : Inv r.threads := by
  induction h with
  | init => exact inv_init poolSize cacheSize
  | step _ hs ih => exact hs.inv ih

/-- What the clients do with the measurements: those accepted join the ones behind them, in this order, and none
moves past another. -/
structure Joins {P : PageStore} (s s' : Sys P) : Prop where
  writer : s'.writer = s.writer
  left : s'.left = s.left
  queue : ∃ new, s'.accepted = s.accepted ++ new ∧ s'.queued ++ s'.current = s.queued ++ s.current ++ new

theorem joins_nothing {P : PageStore} {s s' : Sys P} (hw : s'.writer = s.writer) (hpool : s'.pool = s.pool)
    (hdata : s'.data = s.data) (hcache : s'.cache = s.cache) (hacc : s'.accepted = s.accepted) : Joins s s' := by
  refine ⟨hw, ?_, [], by rw [hacc, List.append_nil], ?_⟩
  · unfold Sys.left
    rw [hw, hpool]
  · unfold Sys.queued Sys.current
    rw [hdata, hcache, hpool, List.append_nil]

/-- The client's cache takes something behind what it holds. -/
theorem joins_store {P : PageStore} {s : Sys P} (h : Inv s) {i : Nat} {x : Cache} {new : List Meas} {k : Option Client}
    (hc : s.cache = some i) (hx : x.meases = (s.pool.cacheAt i).meases ++ new) :
    Joins s {s with pool := s.pool.set i x, client := k, accepted := s.accepted ++ new} := by
  obtain ⟨-, hcur, hl, hq, hnew⟩ := current_set h hc x
  refine ⟨rfl, hl, new, rfl, ?_⟩
  show (s.data.flatMap fun j => (CachePool.cacheAt (s.pool.set i x) j).meases) ++
    (s.cache.toList.flatMap fun j => (CachePool.cacheAt (s.pool.set i x) j).meases) = _
  rw [hq, hc, hnew, hx, hcur, List.append_assoc]

theorem joins_of_clientStep {P : PageStore} {s s' : Sys P} (h : Inv s) (hs : ClientStep s s') : Joins s s' := by
  cases hs with
  | append m i now pastTime hk hc => exact joins_store h hc (Cache.append_spec m now pastTime (s.pool.cacheAt i)).1
  | appendArray ms i now pastTime hk hne hc =>
    exact joins_store h hc (Cache.appendArray_spec ms now pastTime (s.pool.cacheAt i)).1
  | syncBegin p i hk hc he =>
    have hjoins : Joins s {s with
        pool := s.pool.set i (s.pool.cacheAt i).syncBegin, client := some (.add p), accepted := s.accepted ++ []} :=
      joins_store h hc (List.append_nil _).symm
    rwa [List.append_nil] at hjoins
  | push p i hk hc =>
    obtain ⟨-, hcur, -⟩ := current_set h hc default
    refine ⟨rfl, rfl, [], (List.append_nil _).symm, ?_⟩
    show ((s.data ++ [i]).flatMap fun j => (s.pool.cacheAt j).meases) ++ [] = _
    rw [List.append_nil, List.append_nil, List.flatMap_append, List.flatMap_singleton, ← hcur]
    rfl
  | getCache p i hk hc =>
    obtain ⟨hi, hfree⟩ := CachePool.getCache_some hc
    have hnone : s.cache = none := (h.client _ hk).2
    have ho := h.owned
    rw [hnone] at ho
    obtain ⟨-, hempty⟩ := ho.take hi hfree
    have hcur : s.current = [] := by
      unfold Sys.current
      rw [hnone]
      rfl
    refine ⟨rfl, rfl, [], (List.append_nil _).symm, ?_⟩
    show s.queued ++ ((s.pool.cacheAt i).meases ++ []) = _
    simp only [hempty, hcur, List.append_nil]
  | _ => exact joins_nothing rfl rfl rfl rfl rfl

/-- What the writer does to the cache in its hands is none of the queue's or the clients'. -/
theorem held_apart {P : PageStore} {s : Sys P} (h : Inv s) {i : Nat} (hheld : s.writer.held = some i) (c : Cache) :
    (s.data.flatMap fun j => (CachePool.cacheAt (s.pool.set i c) j).meases) = s.queued ∧
      (s.cache.toList.flatMap fun j => (CachePool.cacheAt (s.pool.set i c) j).meases) = s.current := by
  have ho := h.owned
  rw [hheld] at ho
  have hi := CachePool.lt_of_sync (ho.sync i (List.mem_cons_self ..))
  have hne := ho.held_not_queued
  exact ⟨queued_set hi c fun hd => hne (List.mem_append_left _ hd),
    queued_set hi c fun hd => hne (List.mem_append_right _ hd)⟩

end

/-! ### One batch after the other -/

section
variable {S : TimeSort} {fuel fuel' turns : Nat} {batches : List (List Meas)} {data new log output : List Meas}
  {pm pm' pm₀ pm₁ : PageManager} {p p' : Page} {ares : AppendResult}

theorem call_of_loop (hloop : AsyncWriter.writeLoop fuel (S.sort data) pm = .ok (new, pm₁)) (hp : pm₁.curpage = some p)
    (hf : p.flushWriteWindow.flushIndex = .ok p') :
    AsyncWriter.call S fuel data pm = .ok (new, {pm₁ with curpage := some p'}) := by
  unfold AsyncWriter.call
  rw [hloop]
  simp only [bind, Except.bind, PageManager.getCurPage_iff.mpr hp, hf]
  rfl

theorem call_more (h : AsyncWriter.call S fuel data pm = .ok (new, pm')) (hle : fuel ≤ fuel') :
    AsyncWriter.call S fuel' data pm = .ok (new, pm') := by
  obtain ⟨pm₁, p, p', hw, hp, hf, rfl⟩ := PageManager.call_spec h
  have hmore := Storage.writeLoop_more (by rw [hw]; nofun) hle
  exact call_of_loop (hmore.trans hw) hp hf

theorem runAll_one (h : AsyncWriter.call S fuel data pm = .ok (new, pm')) :
    PageManager.runAll S fuel ([data].map .call) pm = .ok (new, pm') := by
  have hcall : PageManager.Write.run S fuel (.call data) pm = .ok (new, pm') := h
  rw [List.map_singleton, PageManager.runAll, hcall]
  show Except.ok (new ++ [], pm') = _
  rw [List.append_nil]

/-- Batches and then one more, which may need more turns. -/
theorem runAll_concat (h : PageManager.runAll S fuel (batches.map .call) pm = .ok (log, pm₁))
    (hc : AsyncWriter.call S fuel' data pm₁ = .ok (new, pm')) :
    PageManager.runAll S (max fuel fuel') ((batches ++ [data]).map .call) pm = .ok (log ++ new, pm') := by
  induction batches generalizing log pm with
  | nil =>
    obtain ⟨rfl, rfl⟩ := Prod.mk.inj (Except.ok.inj h)
    exact runAll_one (call_more hc (le_max_right ..))
  | cons b batches ih =>
    obtain ⟨new₁, pm₂, rest, hcall, hrest, rfl⟩ := PageManager.runAll_cons h
    have hcall' : PageManager.Write.run S (max fuel fuel') (.call b) pm = .ok (new₁, pm₂) :=
      call_more hcall (le_max_left ..)
    rw [List.cons_append, List.map_cons, PageManager.runAll, hcall']
    simp only [bind, Except.bind, ih hrest, List.append_assoc]
    rfl

/-- What the batches make of the pages. -/
def Written (S : TimeSort) (pm₀ : PageManager) (batches : List (List Meas)) (pm : PageManager) : Prop :=
  ∃ fuel log, PageManager.runAll S fuel (batches.map .call) pm₀ = .ok (log, pm)

/-- The loop has come from the sorted batch and `pm₁` to what is left of it and `pm`. -/
def Underway (S : TimeSort) (data : List Meas) (pm₁ : PageManager) (output : List Meas) (pm : PageManager) : Prop :=
  ∃ turns log, ∀ fuel new pm', AsyncWriter.writeLoop fuel output pm = .ok (new, pm') →
    AsyncWriter.writeLoop (turns + fuel) (S.sort data) pm₁ = .ok (log ++ new, pm')

/-- The same in the middle of a turn, before the new page. -/
def Turning (S : TimeSort) (data : List Meas) (pm₁ : PageManager) (output : List Meas) (pm : PageManager) : Prop :=
  ∃ turns log, ∀ fuel new pm₂ pm', pm.createNewPage = .ok pm₂ →
    AsyncWriter.writeLoop fuel output pm₂ = .ok (new, pm') →
    AsyncWriter.writeLoop (turns + fuel) (S.sort data) pm₁ = .ok (log ++ new, pm')

theorem Underway.append (h : Underway S data pm₁ output pm) (hne : output ≠ []) (hp : pm.curpage = some p)
    (ha : p.appendArray output = .ok (ares, p')) :
    (ares.writed = output.length → Underway S data pm₁ (output.drop ares.writed) {pm with curpage := some p'}) ∧
      (ares.writed ≠ output.length → Turning S data pm₁ (output.drop ares.writed) {pm with curpage := some p'}) := by
  obtain ⟨turns, log, hall⟩ := h
  have hturn : ∀ fuel new pm₂ pm', AsyncWriter.rollOver ares output.length {pm with curpage := some p'} = .ok pm₂ →
      AsyncWriter.writeLoop fuel (output.drop ares.writed) pm₂ = .ok (new, pm') →
      AsyncWriter.writeLoop (turns + 1 + fuel) (S.sort data) pm₁ =
        .ok (log ++ output.take ares.writed ++ new, pm') := by
    intro fuel new pm₂ pm' hroll hloop
    have hone : AsyncWriter.writeLoop (fuel + 1) output pm = .ok (output.take ares.writed ++ new, pm') := by
      rw [Storage.writeLoop_turn hne hp, ha]
      simp only [bind, Except.bind, hroll, hloop]
    have hsum : turns + 1 + fuel = turns + (fuel + 1) := by omega
    rw [hsum, hall _ _ _ hone, List.append_assoc]
  constructor
  · intro hall
    refine ⟨turns + 1, _, fun fuel new pm' hloop => hturn fuel new _ pm' ?_ hloop⟩
    unfold AsyncWriter.rollOver
    rw [if_neg (not_not.mpr hall)]
  · intro hpart
    refine ⟨turns + 1, _, fun fuel new pm₂ pm' hc hloop => hturn fuel new pm₂ pm' ?_ hloop⟩
    unfold AsyncWriter.rollOver
    rwa [if_pos hpart]

theorem Turning.createNewPage (h : Turning S data pm₁ output pm) (hc : pm.createNewPage = .ok pm') :
    Underway S data pm₁ output pm' := by
  obtain ⟨turns, log, hall⟩ := h
  exact ⟨turns, log, fun fuel new pm'' hloop => hall fuel new pm' pm'' hc hloop⟩

/-- The flushes end the batch. -/
theorem Underway.flush (h : Underway S data pm₁ [] pm) (hp : pm.curpage = some p)
    (hf : p.flushWriteWindow.flushIndex = .ok p') (hw : Written S pm₀ batches pm₁) :
    Written S pm₀ (batches ++ [data]) {pm with curpage := some p'} := by
  obtain ⟨turns, log, hall⟩ := h
  obtain ⟨fuel, before, hrun⟩ := hw
  exact ⟨_, _, runAll_concat hrun (call_of_loop (hall 1 [] pm rfl) hp hf)⟩

/-- Where the writer is: the batches before, and how far it is with the measurements in its hands, of which
`left` are still in its cache. -/
def Phase (S : TimeSort) (pm₀ pm : PageManager) (batches : List (List Meas)) (hand left : List Meas) : Writer → Prop
  | .unlock _ | .sort _ => Written S pm₀ batches pm ∧ left = hand
  | .call _ output => ∃ pm₁, Written S pm₀ batches pm₁ ∧ Underway S hand pm₁ output pm
  | .createNewPage _ output => ∃ pm₁, Written S pm₀ batches pm₁ ∧ Turning S hand pm₁ output pm
  | _ => Written S pm₀ batches pm ∧ hand = []

theorem Phase.idle {w : Writer} {hand left : List Meas} (h : Phase S pm₀ pm batches hand left w)
    (hidle : w.held = none) : Written S pm₀ batches pm ∧ hand = [] := by
  cases w with
  | unlock i | sort i | call i output | createNewPage i output | clear i | syncComplete i => cases hidle
  | _ => exact h

end

/-- The pages are those of the batches so far, and the measurements stand in the order they were accepted in. -/
structure InOrder (S : TimeSort) (pm₀ : PageManager) (batches : List (List Meas)) (hand : List Meas)
    (r : Running) : Prop where
  phase : Phase S pm₀ r.pages batches hand r.threads.left r.threads.writer
  accepted : r.threads.accepted = batches.flatten ++ hand ++ r.threads.queued ++ r.threads.current

section
variable {S : TimeSort} {poolSize cacheSize : Nat} {pm₀ : PageManager} {batches : List (List Meas)} {hand : List Meas}
  {r r' : Running}

theorem InOrder.init (S : TimeSort) (poolSize cacheSize : Nat) (pm₀ : PageManager) :
    InOrder S pm₀ [] [] (init poolSize cacheSize pm₀) := by
  have hnothing := List.perm_nil.mp (inv_init (P := PageStore.bounded 0) poolSize cacheSize).ledger.perm
  obtain ⟨hrest, hcur⟩ := List.append_eq_nil_iff.mp hnothing
  have hq := (List.append_eq_nil_iff.mp hrest).2
  refine ⟨⟨⟨0, [], rfl⟩, rfl⟩, ?_⟩
  show [] = [] ++ [] ++ (Sys.init (PageStore.bounded 0) poolSize cacheSize).queued ++ _
  rw [hq]
  exact hcur.symm

theorem InOrder.client {t : Threads} (h : InOrder S pm₀ batches hand r) (hj : Joins r.threads t) :
    InOrder S pm₀ batches hand {r with threads := t} := by
  obtain ⟨new, hacc, hqueue⟩ := hj.queue
  refine ⟨?_, ?_⟩
  · show Phase S pm₀ r.pages batches hand t.left t.writer
    rw [hj.writer, hj.left]
    exact h.phase
  · show t.accepted = batches.flatten ++ hand ++ t.queued ++ t.current
    rw [List.append_assoc (_ ++ hand), hqueue, hacc, h.accepted]
    simp only [List.append_assoc]

/-- A step of the writer outside the loop over the pages. -/
theorem InOrder.writer {t : Threads} (hinv : Inv r.threads) (h : InOrder S pm₀ batches hand r)
    (hs : WriterStep S r.threads t) (hout : r.threads.writer.inLoop = false) :
    ∃ hand', InOrder S pm₀ batches hand' {r with threads := t} := by
  obtain ⟨hphase, hacc⟩ := h
  cases hs with
  | pop i rest hw hd =>
    rw [hw] at hphase
    obtain ⟨hwritten, rfl⟩ := hphase
    refine ⟨(r.threads.pool.cacheAt i).meases, ⟨hwritten, rfl⟩, ?_⟩
    have hq : r.threads.queued = (r.threads.pool.cacheAt i).meases ++
        rest.flatMap fun j => (r.threads.pool.cacheAt j).meases := by
      unfold Sys.queued
      rw [hd, List.flatMap_cons]
    rw [hq, List.append_nil, ← List.append_assoc] at hacc
    exact hacc
  | sort i hw =>
    obtain ⟨hq, hc⟩ := held_apart hinv (by rw [hw]; rfl) (sorted S (r.threads.pool.cacheAt i))
    rw [hw] at hphase
    obtain ⟨hwritten, hleft⟩ := hphase
    have hhand : (r.threads.pool.cacheAt i).meases = hand := by
      unfold Sys.left at hleft
      rwa [hw] at hleft
    refine ⟨hand, ⟨r.pages, hwritten, 0, [], fun fuel new pm' hloop => ?_⟩, ?_⟩
    · rw [Nat.zero_add, ← hhand]
      exact hloop
    · rw [← hq, ← hc] at hacc
      exact hacc
  | clear i hw =>
    obtain ⟨hq, hc⟩ := held_apart hinv (by rw [hw]; rfl) (r.threads.pool.cacheAt i).clear
    rw [hw] at hphase
    refine ⟨hand, hphase, ?_⟩
    rw [← hq, ← hc] at hacc
    exact hacc
  | syncComplete i hw =>
    obtain ⟨hq, hc⟩ := held_apart hinv (by rw [hw]; rfl) (r.threads.pool.cacheAt i).syncComplete
    rw [hw] at hphase
    refine ⟨hand, hphase, ?_⟩
    rw [← hq, ← hc] at hacc
    exact hacc
  | unlock i hw =>
    rw [hw] at hphase
    obtain ⟨hwritten, hleft⟩ := hphase
    refine ⟨hand, ⟨hwritten, ?_⟩, hacc⟩
    unfold Sys.left at hleft
    rwa [hw] at hleft
  | append i output hw hne => 
    rw [hw] at hout
    cases hout
  | createNewPage i output hw =>
    rw [hw] at hout
    cases hout
  | written i hw =>
    rw [hw] at hout
    cases hout
  | start hw hl | empty hw hd | haveData hw hd | wait hw | wake hw hl | lock hw hl =>
    rw [hw] at hphase
    exact ⟨hand, hphase, hacc⟩

theorem InOrder.step (hinv : Inv r.threads) (h : InOrder S pm₀ batches hand r) (hs : Step S r r') :
    ∃ batches' hand', InOrder S pm₀ batches' hand' r' := by
  cases hs with
  | client t hc => exact ⟨batches, hand, h.client (joins_of_clientStep hinv hc)⟩
  | writer t hw hout => exact ⟨batches, h.writer hinv hw hout⟩
  | append i output p p' ares hw hne hp ha =>
    obtain ⟨hphase, hacc⟩ := h
    rw [hw] at hphase
    obtain ⟨pm₁, hwritten, hunder⟩ := hphase
    obtain ⟨hall, hpart⟩ := hunder.append hne hp ha
    refine ⟨batches, hand, ?_, hacc⟩
    show Phase S pm₀ _ batches hand _ (Writer.afterAppend i output ares.writed)
    unfold Writer.afterAppend
    split
    · next hne => exact ⟨pm₁, hwritten, hpart hne⟩
    · next heq => exact ⟨pm₁, hwritten, hall (not_not.mp heq)⟩
  | createNewPage i output pm hw hc =>
    obtain ⟨hphase, hacc⟩ := h
    rw [hw] at hphase
    obtain ⟨pm₁, hwritten, hturn⟩ := hphase
    exact ⟨batches, hand, ⟨pm₁, hwritten, hturn.createNewPage hc⟩, hacc⟩
  | flush i p p' hw hp hf =>
    obtain ⟨hphase, hacc⟩ := h
    rw [hw] at hphase
    obtain ⟨pm₁, hwritten, hunder⟩ := hphase
    refine ⟨batches ++ [hand], [], ⟨hunder.flush hp hf hwritten, rfl⟩, ?_⟩
    rw [List.flatten_concat, List.append_nil]
    exact hacc

theorem Reachable.inOrder (h : Reachable S poolSize cacheSize pm₀ r) :
    ∃ batches hand, InOrder S pm₀ batches hand r := by
  induction h with
  | init => exact ⟨[], [], .init S poolSize cacheSize pm₀⟩
  | step hr hs ih =>
    obtain ⟨batches, hand, h⟩ := ih
    exact h.step hr.inv hs

/-- One append, and a read that hands its cache over and waits for the writer. -/
theorem exists_paused : ∃ (pm₀ : PageManager) (r : Running),
    (PageManager.start (Page.calcSize 1500)).createNewPage = .ok pm₀ ∧
    Reachable TimeSort.insertion 2 1 pm₀ r ∧ r.threads.client = some (.paused [.plain 7 5]) ∧
    r.threads.accepted = [.plain 7 5] ∧ Storage.IndexesWhole r.pages := by
  let pm₀ : PageManager := {PageManager.start (Page.calcSize 1500) with
    curpage := some (Page.create (Page.calcSize 1500))}
  obtain ⟨⟨p', p''⟩, hrun, hwhole⟩ := exists_ok
    (x := (Page.create (Page.calcSize 1500)).appendArray [.plain 7 5] >>= fun x =>
      if x.1.writed = 1 then x.2.flushWriteWindow.flushIndex >>= fun p => .ok (x.2, p) else .error .nullReader)
    (p := fun x : Page × Page => decide (Storage.onDisk x.2).IndexWhole) (by decide +kernel)
  obtain ⟨⟨⟨writed, ignored⟩, q⟩, ha, hrun⟩ := bind_ok hrun
  obtain rfl : writed = 1 := by
    by_contra hne
    rw [if_neg hne] at hrun
    cases hrun
  rw [if_pos rfl] at hrun
  obtain ⟨p, hf, heq⟩ := bind_ok hrun
  obtain ⟨rfl, rfl⟩ := Prod.mk.inj (Except.ok.inj heq)
  have h : Reachable TimeSort.insertion 2 1 pm₀ (init 2 1 pm₀) := .init
  -- an append
  have h := h.step (.client _ _ (.callAppend _ (.plain 7 5)))
  have h := h.step (.client _ _ (.enter _ [] [] (.append (.plain 7 5)) rfl rfl))
  have h := h.step (.client _ _ (.append _ (.plain 7 5) 1 0 0 rfl rfl))
  have h := h.step (.client _ _ (.leave _ rfl))
  -- a read hands the cache over
  have h := h.step (.client _ _ (.callRead _))
  have h := h.step (.client _ _ (.enter _ [] [] (.read [.plain 7 5]) rfl rfl))
  have h := h.step (.client _ _ (.syncBegin _ (.read [.plain 7 5]) 1 rfl rfl (by decide)))
  have h := h.step (.client _ _ (.addLock _ _ rfl rfl))
  have h := h.step (.client _ _ (.push _ _ 1 rfl rfl))
  have h := h.step (.client _ _ (.addUnlock _ _ rfl))
  have h := h.step (.client _ _ (.getCache _ _ 0 rfl rfl))
  -- the writer takes it to the page and waits
  have h := h.step (.writer _ _ (.start _ rfl rfl) rfl)
  have h := h.step (.writer _ _ (.haveData _ rfl (by decide)) rfl)
  have h := h.step (.writer _ _ (.lock _ rfl rfl) rfl)
  have h := h.step (.writer _ _ (.pop _ 1 [] rfl rfl) rfl)
  have h := h.step (.writer _ _ (.unlock _ 1 rfl) rfl)
  have h := h.step (.writer _ _ (.sort _ 1 rfl) rfl)
  have h := h.step (.append _ 1 [.plain 7 5] _ q ⟨1, ignored⟩ rfl (by decide) rfl ha)
  have h := h.step (.flush _ 1 q p rfl rfl hf)
  have h := h.step (.writer _ _ (.clear _ 1 rfl) rfl)
  have h := h.step (.writer _ _ (.syncComplete _ 1 rfl) rfl)
  have h := h.step (.writer _ _ (.empty _ rfl rfl) rfl)
  have h := h.step (.writer _ _ (.wait _ rfl) rfl)
  have h := h.step (.client _ _ (.notBusy _ _ rfl rfl))
  have h := h.step (.client _ _ (.pauseWork _ _ rfl rfl))
  refine ⟨pm₀, _, rfl, h, rfl, rfl, fun f hf => ?_⟩
  obtain rfl := List.mem_singleton.mp hf
  exact of_decide_eq_true hwhole

/-- Between two batches the pages are what the caches handed over give, one after the other. -/
theorem Reachable.between (h : Reachable S poolSize cacheSize pm₀ r) (hidle : r.threads.writer.held = none) :
    ∃ (batches : List (List Meas)) (fuel : Nat) (log : List Meas),
      PageManager.runAll S fuel (batches.map .call) pm₀ = .ok (log, r.pages) ∧
      r.threads.accepted = batches.flatten ++ r.threads.queued ++ r.threads.current := by
  obtain ⟨batches, hand, hphase, hacc⟩ := h.inOrder
  obtain ⟨⟨fuel, log, hrun⟩, rfl⟩ := hphase.idle hidle
  rw [List.append_nil] at hacc
  exact ⟨batches, fuel, log, hrun, hacc⟩

/-- Where a read has paused the writer, nothing waits. -/
theorem Reachable.paused (h : Reachable S poolSize cacheSize pm₀ r) {written seen : List Meas}
    (hacc : r.threads.accepted = written ++ r.threads.queued ++ r.threads.current)
    (hp : r.threads.client = some (.paused seen)) : r.threads.accepted = written ∧ seen <+: written := by
  obtain ⟨-, -, -, hq, hcur⟩ := h.inv.paused hp
  rw [hq, hcur, List.append_nil, List.append_nil] at hacc
  have hseen : seen <+: r.threads.accepted := (h.inv.client _ hp).1
  exact ⟨hacc, hacc ▸ hseen⟩

/-- Between two batches the pages are what the caches handed over give, one after the other, and behind those
accepted before stand the ones that wait; a read that has paused the writer finds none of these. -/
theorem running_in_order (h : Reachable S poolSize cacheSize pm₀ r) (hidle : r.threads.writer.held = none) :
    ∃ (batches : List (List Meas)) (fuel : Nat) (log : List Meas),
      PageManager.runAll S fuel (batches.map .call) pm₀ = .ok (log, r.pages) ∧
      r.threads.accepted = batches.flatten ++ r.threads.queued ++ r.threads.current ∧
      ∀ seen, r.threads.client = some (.paused seen) → r.threads.accepted = batches.flatten ∧
        seen <+: batches.flatten := by
  obtain ⟨batches, fuel, log, hrun, hacc⟩ := h.between hidle
  exact ⟨batches, fuel, log, hrun, hacc, fun seen hp => h.paused hacc hp⟩

theorem running_in_order_one : ∃ (pm₀ : PageManager) (r : Running), r.threads.client = some (.paused [.plain 7 5]) ∧
    ∃ (batches : List (List Meas)) (fuel : Nat) (log : List Meas),
      PageManager.runAll TimeSort.insertion fuel (batches.map .call) pm₀ = .ok (log, r.pages) ∧
      batches.flatten = [.plain 7 5] := by
  obtain ⟨pm₀, r, -, h, hp, hacc, -⟩ := exists_paused
  obtain ⟨batches, fuel, log, hrun, -, hpaused⟩ := running_in_order h (h.inv.paused hp).2.1
  exact ⟨pm₀, r, hp, batches, fuel, log, hrun, ((hpaused _ hp).1.symm.trans hacc)⟩

end
end Running
end Nkvdb
