import Nkvdb.Page.Reopen
import Nkvdb.Storage.Open

/-! Appends after `Storage::Open`.

`default_page_size` is zero in the `PageManager` that `start` makes; `Create` sets it and
`Open` does not. The next page is then one of 0 bytes, for which `Page::Create` asks for an
index file of a wrapped size; where that is granted, the first append leaves the file. So the
page that `Open` makes current is the last one that is written. -/
namespace Nkvdb.Storage
variable {ν : Type}

/-- `Storage::Open` of named page files, in the order they are listed. -/
def openPages [DecidableEq ν] (listing : List (ν × PageFile)) : Except Fault PageManager := do
  let name ← orFault .pageNotFound (getOldesPage (listing.map fun x => (x.1, x.2.header)))
  let x ← orFault .pageNotFound (listing.find? fun x => x.1 = name)
  let p ← Page.openFile x.2 false
  return ⟨0, some p, (listing.filter fun x => x.1 ≠ name).map Prod.snd⟩

theorem openPages_ok [DecidableEq ν] {listing : List (ν × PageFile)} {pm : PageManager} :
    openPages listing = .ok pm ↔ ∃ name x p, getOldesPage (listing.map fun x => (x.1, x.2.header)) = some name ∧
      listing.find? (fun x => x.1 = name) = some x ∧ Page.openFile x.2 false = .ok p ∧
      pm = ⟨0, some p, (listing.filter fun x => x.1 ≠ name).map Prod.snd⟩ := by
  constructor
  · intro h
    obtain ⟨name, hname, h⟩ := bind_ok h
    obtain ⟨x, hx, h⟩ := bind_ok h
    obtain ⟨p, hp, h⟩ := bind_ok h
    exact ⟨name, x, p, orFault_iff.mp hname, orFault_iff.mp hx, hp, (Except.ok.inj h).symm⟩
  · rintro ⟨name, x, p, hname, hx, hp, rfl⟩
    simp only [openPages, hname, hx, hp, orFault, bind, Except.bind]
    rfl

/-! ### The page takes what it has room for -/

section Room
open Page

/-- The page is not full and the copies stay in the file, for each of the measurements. -/
def RoomFor : List Meas → Page → Prop
  | [], _ => True
  | m :: ms, p => p.isFull = false ∧ Room m p ∧ RoomFor ms (p.withMeas m p.writeWindow).advance

/-- Where two pages are to be written next. -/
structure SameEnds (p p' : Page) : Prop where
  writePos : p'.header.writePos = p.header.writePos
  writeValuePos : p'.header.writeValuePos = p.header.writeValuePos
  size : p'.header.size = p.header.size

theorem SameEnds.isFull {p p' : Page} (h : SameEnds p p') : p'.isFull = p.isFull := by
  unfold Page.isFull
  rw [h.writePos, h.writeValuePos]

theorem SameEnds.room {p p' : Page} (h : SameEnds p p') (m : Meas) : Room m p' ↔ Room m p := by
  unfold Room
  rw [h.writePos, h.writeValuePos, h.size]

theorem SameEnds.next {p p' : Page} (h : SameEnds p p') (m : Meas) (w w' : WriteWindow) :
    SameEnds (p.withMeas m w).advance (p'.withMeas m w').advance := by
  refine ⟨congrArg (· + 1) h.writePos, ?_, h.size⟩
  show p'.header.writeValuePos - m.size = p.header.writeValuePos - m.size
  rw [h.writeValuePos]

theorem SameEnds.roomFor {p p' : Page} (h : SameEnds p p') (ms : List Meas) : RoomFor ms p' ↔ RoomFor ms p := by
  induction ms generalizing p p' with
  | nil => exact Iff.rfl
  | cons m ms ih =>
    unfold RoomFor
    rw [h.isFull, h.room m, ih (h.next m _ _)]

theorem SameEnds.finish (op : Op) (k : Nat) (ix : Index) (p : Page) : SameEnds p (p.finish op k ix) := by
  obtain ⟨init, lo, hi, he⟩ := op.minMax_eq k p.header
  unfold Page.finish
  rw [he]
  exact ⟨rfl, rfl, rfl⟩

/-- A page takes all of some measurements if it has room for them. -/
theorem acceptAll_iff {ms : List Meas} (hids : ∀ m, m ∈ ms → Indexable m) (p : Page) :
    (∃ q, acceptAll ms p = .ok (ms.length, q)) ↔ RoomFor ms p := by
  induction ms generalizing p with
  | nil => exact ⟨fun _ => trivial, fun _ => ⟨p, rfl⟩⟩
  | cons m ms ih =>
    obtain ⟨hid, hids⟩ := List.forall_mem_cons.mp hids
    have hends : ∀ w, SameEnds (p.withMeas m p.writeWindow).advance (p.withMeas m w).advance := fun _ => ⟨rfl, rfl, rfl⟩
    constructor
    · rintro ⟨q, hq⟩
      rcases acceptAll_cons hq with ⟨-, h0, -⟩ | ⟨hfull, w, n, -, hroom, hrest, hn⟩
      · cases h0
      · obtain rfl : ms.length = n := Nat.succ.inj hn
        exact ⟨Bool.eq_false_iff.mpr hfull, hroom, ((hends w).roomFor ms).mp ((ih hids _).mp ⟨q, hrest⟩)⟩
    · rintro ⟨hfull, hroom, hrest⟩
      obtain ⟨w, hw⟩ := update_indexable hid p.writeWindow
      obtain ⟨q, hq⟩ := (ih hids _).mpr (((hends w).roomFor ms).mpr hrest)
      refine ⟨q, ?_⟩
      unfold acceptAll
      rw [if_neg (Bool.eq_false_iff.mp hfull), put_iff.mpr ⟨w, hw, hroom, rfl⟩]
      show Except.map _ (acceptAll ms (p.withMeas m w).advance) = _
      rw [hq]
      rfl

/-- What is left of the room after some measurements. -/
theorem acceptAll_roomFor {a : List Meas} (b : List Meas) {p q : Page} {k : Nat} (h : acceptAll a p = .ok (k, q))
    (hk : k = a.length) : (RoomFor a p ∧ (RoomFor (a ++ b) p ↔ RoomFor b q)) ∧
      q.header.writePos = p.header.writePos + k := by
  induction a generalizing p k with
  | nil =>
    obtain ⟨rfl, rfl⟩ := acceptAll_nil h
    exact ⟨⟨trivial, Iff.rfl⟩, rfl⟩
  | cons m a ih =>
    rcases acceptAll_cons h with ⟨-, rfl, -⟩ | ⟨hfull, w, n, -, hroom, hrest, rfl⟩
    · cases hk
    · obtain ⟨⟨ha, hb⟩, hpos⟩ := ih hrest (Nat.succ.inj hk)
      have hends : SameEnds (p.withMeas m p.writeWindow).advance (p.withMeas m w).advance := ⟨rfl, rfl, rfl⟩
      have hfull : p.isFull = false := Bool.eq_false_iff.mpr hfull
      refine ⟨⟨⟨hfull, hroom, (hends.roomFor a).mp ha⟩, ?_⟩, ?_⟩
      · rw [← hb, hends.roomFor]
        exact ⟨fun h => h.2.2, fun h => ⟨hfull, hroom, h⟩⟩
      · rw [hpos]
        show p.header.writePos + 1 + n = _
        omega

theorem RoomFor.left {a b : List Meas} {p : Page} (h : RoomFor (a ++ b) p) : RoomFor a p := by
  induction a generalizing p with
  | nil => trivial
  | cons m a ih => exact ⟨h.1, h.2.1, ih h.2.2⟩

/-- A page of no size takes nothing, and is not full. -/
theorem appendArray_void {ms : List Meas} (hne : ms ≠ []) (w : WriteWindow) (x : AppendResult × Page) :
    ({Page.create 0 with writeWindow := w} : Page).appendArray ms ≠ .ok x := by
  intro h
  obtain ⟨k, q, ix, hacc, -⟩ := appendArray_iff.mp h
  have hends : SameEnds (Page.create 0) {Page.create 0 with writeWindow := w} := ⟨rfl, rfl, rfl⟩
  cases ms with
  | nil => exact hne rfl
  | cons m ms =>
    rcases acceptAll_cons hacc with ⟨hfull, -⟩ | ⟨-, -, n, -, hroom, -⟩
    · rw [hends.isFull] at hfull
      exact absurd hfull (by decide)
    · exact absurd ((hends.room m).mp hroom).2.2 (by decide)

end Room

/-! ### Batches -/

variable {S : TimeSort} {fuel : Nat} {pm pm' : PageManager} {p p' : Page} {data output log : List Meas}

/-- The records of the index for a batch that the page takes whole. -/
def batchRecords (S : TimeSort) (data : List Meas) (p : Page) : List IndexRecord :=
  (Page.Op.array (S.sort data)).records p.header.writePos (S.sort data).length

/-- The page after a batch that it took whole. -/
structure Took (S : TimeSort) (data : List Meas) (p p' : Page) : Prop where
  intro ::
  out : ∃ q t, Page.acceptAll (S.sort data) p = .ok ((S.sort data).length, q) ∧
    p.index.tree.insertAll (Index.keyed (batchRecords S data p)) = .ok t ∧
    p' = (q.finish (.array (S.sort data)) (S.sort data).length ⟨p.index.cacheSize, [], t⟩).flushWriteWindow

/-- Without pages to follow, the loop ends when the page has taken all. -/
theorem writeLoop_whole (h0 : pm.defaultPageSize = 0) (hp : pm.curpage = some p) (hne : output ≠ [])
    (hw : AsyncWriter.writeLoop fuel output pm = .ok (log, pm')) :
    ∃ p', p.appendArray output = .ok (⟨output.length, 0⟩, p') ∧ pm' = {pm with curpage := some p'} := by
  cases fuel with
  | zero => cases hw
  | succ fuel =>
    obtain ⟨p₁, ares, q, pm₁, rest, hp₁, ha, hc, hrest, -⟩ := PageManager.writeLoop_cons hne hw
    obtain rfl := Option.some.inj (hp.symm.trans hp₁)
    obtain ⟨k, q₁, ix, hacc, hf, rfl, rfl⟩ := Page.appendArray_iff.mp ha
    unfold AsyncWriter.rollOver at hc
    by_cases hall : k = output.length
    · rw [if_neg (not_not.mpr hall)] at hc
      obtain rfl := Except.ok.inj hc
      rw [hall, List.drop_length] at hrest
      obtain ⟨-, rfl⟩ := PageManager.writeLoop_nil hrest
      exact ⟨_, by rw [ha, hall], rfl⟩
    · -- what is left goes to a page of no size
      rw [if_pos hall] at hc
      have hvoid : ∃ w, pm₁.curpage = some {Page.create 0 with writeWindow := w} := by
        obtain ⟨g, -, rfl⟩ := (PageManager.createNewPage_iff rfl).mp hc
        rw [h0]
        exact ⟨_, rfl⟩
      obtain ⟨w, hvoid⟩ := hvoid
      have hleft : output.drop k ≠ [] := by
        have hle := Page.acceptAll_le hacc
        intro hnil
        have := List.drop_eq_nil_iff.mp hnil
        omega
      cases fuel with
      | zero => cases hrest
      | succ fuel =>
        obtain ⟨p₂, ares', q', -, -, hp₂, hx, -⟩ := PageManager.writeLoop_cons hleft hrest
        obtain rfl := Option.some.inj (hvoid.symm.trans hp₂)
        exact absurd hx (appendArray_void hleft w (ares', q'))

/-- Without pages to follow, a batch is written if the page takes it whole. -/
theorem took_of_call (h0 : pm.defaultPageSize = 0) (hp : pm.curpage = some p) (hc : p.index.cache = [])
    (hcall : AsyncWriter.call S fuel data pm = .ok (log, pm')) :
    ∃ p', pm' = {pm with curpage := some p'} ∧ Took S data p p' := by
  obtain ⟨pm₁, p₁, p₂, hw, hp₁, hflush, rfl⟩ := PageManager.call_spec hcall
  obtain ⟨p', ha, rfl⟩ : ∃ p', p.appendArray (S.sort data) = .ok (⟨(S.sort data).length, 0⟩, p') ∧
      pm₁ = {pm with curpage := some p'} := by
    by_cases hne : S.sort data = []
    · rw [hne] at hw ⊢
      obtain ⟨-, rfl⟩ := PageManager.writeLoop_nil hw
      refine ⟨p, rfl, ?_⟩
      rw [← hp]
    · exact writeLoop_whole h0 hp hne hw
  obtain rfl := Option.some.inj hp₁
  obtain ⟨k, q, ix, hacc, hf, hk, rfl⟩ := Page.appendArray_iff.mp ha
  obtain rfl : (S.sort data).length = k := congrArg AppendResult.writed hk
  obtain ⟨ix', hix', hflush⟩ := bind_ok hflush
  obtain rfl := Except.ok.inj hflush
  have hboth : p.index.feed (batchRecords S data p) >>= Index.flush = .ok ix' := by
    rw [batchRecords, hf]
    exact hix'
  obtain ⟨t, ht, rfl⟩ := Index.feed_flush_iff.mp hboth
  rw [hc, List.nil_append] at ht
  exact ⟨_, rfl, ⟨q, t, hacc, ht, rfl⟩⟩

theorem writeLoop_of_whole (hp : pm.curpage = some p) (ha : p.appendArray output = .ok (⟨output.length, 0⟩, p')) :
    AsyncWriter.writeLoop 2 output pm = .ok (output, {pm with curpage := some p'}) := by
  unfold AsyncWriter.writeLoop
  by_cases hne : output = []
  · subst hne
    have hsame : p.appendArray [] = .ok (⟨0, 0⟩, p) := rfl
    rw [hsame] at ha
    obtain ⟨-, rfl⟩ := Prod.mk.inj (Except.ok.inj ha)
    rw [if_pos rfl, ← hp]
  · have hcur : pm.getCurPage = .ok p := by
      unfold PageManager.getCurPage
      rw [hp]
    have hstay : AsyncWriter.rollOver ⟨output.length, 0⟩ output.length {pm with curpage := some p'} =
        .ok {pm with curpage := some p'} := if_neg (not_not.mpr rfl)
    rw [if_neg hne, hcur]
    simp only [bind, Except.bind, ha, hstay, List.drop_length]
    show Except.ok (output.take output.length ++ [], _) = _
    rw [List.take_length, List.append_nil]

theorem Took.call (h : Took S data p p') (hp : pm.curpage = some p) (hc : p.index.cache = []) :
    AsyncWriter.call S 2 data pm = .ok (S.sort data, {pm with curpage := some p'}) := by
  obtain ⟨q, t, hacc, ht, rfl⟩ := h.out
  have hboth : p.index.feed (batchRecords S data p) >>= Index.flush = .ok _ := Index.feed_flush_iff.mpr
    ⟨t, by rw [hc, List.nil_append]; exact ht, rfl⟩
  obtain ⟨ix, hf, hflush⟩ := bind_ok hboth
  have ha : p.appendArray (S.sort data) = .ok (⟨(S.sort data).length, 0⟩,
      q.finish (.array (S.sort data)) (S.sort data).length ix) :=
    Page.appendArray_iff.mpr ⟨_, q, ix, hacc, hf, rfl, rfl⟩
  have hlast : (q.finish (.array (S.sort data)) (S.sort data).length ix).flushWriteWindow.flushIndex = .ok
      (q.finish (.array (S.sort data)) (S.sort data).length ⟨p.index.cacheSize, [], t⟩).flushWriteWindow := by
    show ix.flush >>= _ = _
    rw [hflush]
    rfl
  unfold AsyncWriter.call
  rw [writeLoop_of_whole hp ha]
  show Page.flushIndex _ >>= _ = _
  rw [hlast]
  rfl

/-- What is left of the room after a batch, and where the index stands. -/
theorem Took.next (h : Took S data p p') (ms : List Meas) : (RoomFor (S.sort data ++ ms) p ↔ RoomFor ms p') ∧
    RoomFor (S.sort data) p ∧ p'.header.writePos = p.header.writePos + (S.sort data).length ∧
    p'.index.cache = [] ∧ p.index.tree.insertAll (Index.keyed (batchRecords S data p)) = .ok p'.index.tree := by
  obtain ⟨q, t, hacc, ht, rfl⟩ := h.out
  obtain ⟨⟨hroom, hrest⟩, hpos⟩ := acceptAll_roomFor ms hacc rfl
  have hends : SameEnds q (q.finish (.array (S.sort data)) (S.sort data).length
      ⟨p.index.cacheSize, [], t⟩).flushWriteWindow :=
    ⟨(SameEnds.finish ..).writePos, (SameEnds.finish ..).writeValuePos, (SameEnds.finish ..).size⟩
  exact ⟨hrest.trans (hends.roomFor ms).symm, hroom, hends.writePos.trans hpos, rfl, ht⟩

/-- The appends of batches to one page. -/
def batchOps (S : TimeSort) (batches : List (List Meas)) : List Page.Op := batches.map fun data => .array (S.sort data)

/-- The index takes the records of batches that the page takes whole. -/
def IndexTakes (S : TimeSort) (batches : List (List Meas)) (p : Page) : Prop :=
  ∃ t, p.index.tree.insertAll (Index.keyed (Page.opsRecords p.header.writePos (batchOps S batches))) = .ok t

variable {batches : List (List Meas)}

theorem Took.indexTakes (h : Took S data p p') : IndexTakes S (data :: batches) p ↔ IndexTakes S batches p' := by
  obtain ⟨-, -, hpos, -, ht⟩ := h.next []
  have hcons : Page.opsRecords p.header.writePos (batchOps S (data :: batches)) =
      batchRecords S data p ++ Page.opsRecords p'.header.writePos (batchOps S batches) := by
    rw [hpos]
    rfl
  unfold IndexTakes
  rw [hcons, Index.keyed_append, Index.insertAll_append, ht]
  exact Iff.rfl

/-- Without pages to follow, batches that are written have room on the page. -/
theorem room_of_calls (h0 : pm.defaultPageSize = 0) (hp : pm.curpage = some p) (hc : p.index.cache = [])
    (hrun : PageManager.runAll S fuel (batches.map .call) pm = .ok (log, pm')) :
    RoomFor (batches.map S.sort).flatten p ∧ IndexTakes S batches p := by
  induction batches generalizing pm p log with
  | nil => exact ⟨trivial, _, rfl⟩
  | cons data batches ih =>
    obtain ⟨new, pm₁, rest, hcall, hrest, rfl⟩ := PageManager.runAll_cons hrun
    obtain ⟨p', rfl, htook⟩ := took_of_call h0 hp hc hcall
    obtain ⟨hroom, -, -, hc', -⟩ := htook.next (batches.map S.sort).flatten
    have hnext : RoomFor (batches.map S.sort).flatten p' ∧ IndexTakes S batches p' := by
      refine ih ?_ ?_ hc' hrest
      · exact h0
      · rfl
    exact ⟨hroom.mpr hnext.1, htook.indexTakes.mpr hnext.2⟩

/-- Batches that have room on the page are written. -/
theorem calls_of_room (hids : ∀ m, m ∈ (batches.map S.sort).flatten → Page.Indexable m) (hp : pm.curpage = some p)
    (hc : p.index.cache = []) (hroom : RoomFor (batches.map S.sort).flatten p) (hi : IndexTakes S batches p) :
    ∃ pm', PageManager.runAll S 2 (batches.map .call) pm = .ok ((batches.map S.sort).flatten, pm') := by
  induction batches generalizing pm p with
  | nil => exact ⟨pm, rfl⟩
  | cons data batches ih =>
    obtain ⟨hids, hids'⟩ := List.forall_mem_append.mp
      (show ∀ m, m ∈ S.sort data ++ (batches.map S.sort).flatten → _ from hids)
    have hfirst : RoomFor (S.sort data) p := RoomFor.left hroom
    obtain ⟨q, hq⟩ := (acceptAll_iff hids p).mpr hfirst
    obtain ⟨t, ht⟩ := hi
    rw [batchOps, List.map_cons, Page.opsRecords, Index.keyed_append, Index.insertAll_append] at ht
    obtain ⟨t₁, ht₁, -⟩ := bind_ok ht
    have htook : Took S data p _ := ⟨q, t₁, hq, ht₁, rfl⟩
    obtain ⟨hnext, -, -, hc', -⟩ := htook.next (batches.map S.sort).flatten
    obtain ⟨pm', hrun⟩ := ih hids' (show PageManager.curpage {pm with curpage := some _} = some _ from rfl) hc'
      (hnext.mp hroom)
      (htook.indexTakes.mp ⟨t, by
        rw [batchOps, List.map_cons, Page.opsRecords, Index.keyed_append, Index.insertAll_append]
        exact ht⟩)
    refine ⟨pm', ?_⟩
    show (AsyncWriter.call S 2 data pm >>= _) = _
    rw [htook.call hp hc]
    show (PageManager.runAll S 2 (batches.map .call) _ >>= _) = _
    rw [hrun]
    rfl

/-! ### Opening what was closed -/

/-- A page that can be opened once it is closed. -/
structure Reopens (p : Page) : Prop where
  version : p.header.version = pageVersion
  tracks : ∃ log, WriteWindow.Tracks log p.writeWindow
  file : p.writeWindow = [] → p.windowFile = none

theorem Reopens.close (h : Reopens p) {f : PageFile} (hf : p.close = .ok f) : ∃ q, Page.openFile f false = .ok q := by
  obtain ⟨ix, -, rfl⟩ := Page.close_iff.mp hf
  obtain ⟨log, ht⟩ := h.tracks
  exact ⟨_, Page.openFile_iff.mpr ⟨fun _ => rfl, h.version, _, Page.load_windowFile ht h.file, rfl⟩⟩

theorem Reopens.run (h : Reopens p) {op : Page.Op} {r : AppendResult} (hrun : op.run p = .ok (r, p')) : Reopens p' := by
  obtain ⟨-, k, q, ix, hacc, -, -, rfl⟩ := Page.Op.run_iff.mp hrun
  have hw := Page.acceptAll_window hacc
  obtain ⟨init, lo, hi, he⟩ := op.minMax_eq k q.header
  obtain ⟨log, ht⟩ := h.tracks
  refine ⟨?_, ⟨_, ht.updateAll hw⟩, fun hnil => ?_⟩
  · show (op.minMax k q.header).version = pageVersion
    rw [he]
    exact Page.acceptAll_keeps (P := fun q => q.header.version = pageVersion) (fun _ _ _ _ hp => hp) hacc h.version
  · have hgrown := WriteWindow.length_updateAll hw
    have hq : q.writeWindow = [] := hnil
    rw [hq] at hgrown
    exact (Page.acceptAll_rest hacc).2.trans (h.file (List.eq_nil_of_length_eq_zero (Nat.le_zero.mp hgrown)))

theorem Reopens.flush (h : Reopens p) (hf : p.flushWriteWindow.flushIndex = .ok p') : Reopens p' := by
  obtain ⟨ix, -, rfl⟩ := Page.flushIndex_iff.mp hf
  refine ⟨h.version, h.tracks, fun hnil => ?_⟩
  have hnil : p.writeWindow = [] := hnil
  show (if p.writeWindow.length ≠ 0 then _ else _) = none
  rw [hnil]
  exact h.file hnil

/-- The current page can be opened once it is closed, and the others can. -/
def Reopenable (_ : List Meas) (pm : PageManager) : Prop :=
  (∃ p, pm.curpage = some p ∧ Reopens p) ∧ ∀ f, f ∈ pm.files → ∃ q, Page.openFile f false = .ok q

theorem Reopenable.start {pageSize : U64} (h : (PageManager.start pageSize).createNewPage = .ok pm) :
    Reopenable [] pm := by
  obtain rfl := Except.ok.inj h
  exact ⟨⟨_, rfl, rfl, ⟨[], WriteWindow.Tracks.empty⟩, fun _ => rfl⟩, nofun⟩

theorem Reopenable.files {f : PageFile} (h : Reopenable log pm) (hp : pm.curpage = some p) (hf : p.close = .ok f) :
    ∀ g, g ∈ pm.files ++ [f] → ∃ q, Page.openFile g false = .ok q := by
  obtain ⟨⟨p₁, hp₁, hr⟩, hfiles⟩ := h
  obtain rfl := Option.some.inj (hp₁.symm.trans hp)
  intro g hg
  rcases List.mem_append.mp hg with hg | hg
  · exact hfiles g hg
  · rw [List.mem_singleton.mp hg]
    exact hr.close hf

theorem Reopenable.kept : PageManager.Kept Reopenable where
  append := by
    intro log pm p op r p' h hp hrun
    obtain ⟨⟨p₁, hp₁, hr⟩, hfiles⟩ := h
    obtain rfl := Option.some.inj (hp₁.symm.trans hp)
    exact ⟨⟨p', rfl, hr.run hrun⟩, hfiles⟩
  createNewPage := by
    intro log pm pm' h hc
    have hall := h
    obtain ⟨⟨p, hp, hr⟩, hfiles⟩ := h
    obtain ⟨f, hf, rfl⟩ := (PageManager.createNewPage_iff hp).mp hc
    exact ⟨⟨_, rfl, rfl, hr.tracks, fun _ => rfl⟩, hall.files hp hf⟩
  flush := by
    intro log pm p p' h hp hf
    obtain ⟨⟨p₁, hp₁, hr⟩, hfiles⟩ := h
    obtain rfl := Option.some.inj (hp₁.symm.trans hp)
    exact ⟨⟨p', rfl, hr.flush hf⟩, hfiles⟩

/-- After batches nothing is buffered in the index. -/
theorem cache_of_calls (hp : ∃ p, pm.curpage = some p ∧ p.index.cache = [])
    (hrun : PageManager.runAll S fuel (batches.map .call) pm = .ok (log, pm')) :
    ∃ p, pm'.curpage = some p ∧ p.index.cache = [] := by
  induction batches generalizing pm log with
  | nil =>
    obtain ⟨-, rfl⟩ := Prod.mk.inj (Except.ok.inj hrun)
    exact hp
  | cons data batches ih =>
    obtain ⟨new, pm₁, rest, hcall, hrest, -⟩ := PageManager.runAll_cons hrun
    obtain ⟨pm₂, q, q', -, -, hf, rfl⟩ := PageManager.call_spec hcall
    obtain ⟨ix, hix, rfl⟩ := Page.flushIndex_iff.mp hf
    obtain ⟨t, -, rfl⟩ := Index.flush_ok_iff.mp hix
    exact ih ⟨_, rfl, rfl⟩ hrest

/-- So the current page can be closed. -/
theorem closes (hp : pm.curpage = some p) (hc : p.index.cache = []) :
    ∃ f, p.close = .ok f ∧ pm.closeCurrentPage = .ok {pm with curpage := none, files := pm.files ++ [f]} := by
  have hclose := Page.close_iff.mpr ⟨p.index, if_pos hc, rfl⟩
  refine ⟨_, hclose, ?_⟩
  unfold PageManager.closeCurrentPage
  rw [hp]
  show (p.close >>= _) = _
  rw [hclose]
  rfl

/-- A page is found where there is one. -/
theorem getOldesPage_mem {pages : List (ν × Header)} (hne : pages ≠ []) :
    ∃ page, page ∈ pages ∧ getOldesPage pages = some page.1 := by
  cases pages with
  | nil => exact absurd rfl hne
  | cons a pages =>
    cases pages with
    | nil => exact ⟨a, List.mem_cons_self, rfl⟩
    | cons b pages =>
      rw [getOldesPage_eq, List.foldl_cons, oldesNext_first]
      rcases foldl_oldes_name (b :: pages) (a.2.maxTime, some a.1) with h | ⟨page, hp, h⟩
      · exact ⟨a, List.mem_cons_self, h⟩
      · exact ⟨page, List.mem_cons_of_mem _ hp, h⟩

theorem openPages_page [DecidableEq ν] {listing : List (ν × PageFile)} (h : openPages listing = .ok pm) :
    pm.defaultPageSize = 0 ∧ ∃ p, pm.curpage = some p ∧ p.index.cache = [] := by
  obtain ⟨name, x, p, -, -, hp, rfl⟩ := openPages_ok.mp h
  obtain ⟨-, -, w, -, rfl⟩ := Page.openFile_iff.mp hp
  exact ⟨rfl, _, rfl, rfl⟩

theorem openPages_some [DecidableEq ν] {listing : List (ν × PageFile)} (hne : listing ≠ [])
    (hopen : ∀ x, x ∈ listing → ∃ q, Page.openFile x.2 false = .ok q) : ∃ pm, openPages listing = .ok pm := by
  have hheaders : listing.map (fun x => (x.1, x.2.header)) ≠ [] := fun h => hne (List.map_eq_nil_iff.mp h)
  obtain ⟨page, hpage, hname⟩ := getOldesPage_mem hheaders
  obtain ⟨x, hx, rfl⟩ := List.mem_map.mp hpage
  have hfind : (listing.find? fun y => y.1 = x.1).isSome = true :=
    List.find?_isSome.mpr ⟨x, hx, decide_eq_true rfl⟩
  obtain ⟨y, hy⟩ := Option.isSome_iff_exists.mp hfind
  obtain ⟨q, hq⟩ := hopen y (List.mem_of_find?_eq_some hy)
  exact ⟨_, openPages_ok.mpr ⟨x.1, y, q, hname, hy, hq, rfl⟩⟩

/-- The page files, named in the order they were made. -/
def named (files : List PageFile) : List (Nat × PageFile) := files.mapIdx fun i f => (i, f)

/-- After batches a storage closes, and opens whatever order the page files are listed in. -/
theorem reopens_of_calls {pageSize : U64} (hstart : (PageManager.start pageSize).createNewPage = .ok pm)
    (hrun : PageManager.runAll S fuel (batches.map .call) pm = .ok (log, pm')) :
    ∃ closed, pm'.closeCurrentPage = .ok closed ∧
      ∀ listing, listing.Perm (named closed.files) → ∃ pm₂, openPages listing = .ok pm₂ := by
  have hall := Reopenable.kept.runAll (Reopenable.start hstart) hrun
  obtain ⟨p, hp, hc⟩ := cache_of_calls (by obtain rfl := Except.ok.inj hstart; exact ⟨_, rfl, rfl⟩) hrun
  obtain ⟨f, hf, hclose⟩ := closes hp hc
  refine ⟨_, hclose, fun listing hlist => ?_⟩
  have hfiles := hall.files hp hf
  have hne : listing ≠ [] := by
    rintro rfl
    have hlen := hlist.length_eq
    simp [named] at hlen
  refine openPages_some hne fun x hx => ?_
  obtain ⟨i, hi, rfl⟩ := List.mem_mapIdx.mp (hlist.mem_iff.mp hx)
  exact hfiles _ (List.getElem_mem hi)

/-- The ids of what was written can be indexed by. -/
theorem indexable_of_calls {log₁ : List Meas} (h : PageManager.Windowed log₁ pm)
    (hrun : PageManager.runAll S fuel (batches.map .call) pm = .ok (log, pm')) : ∀ m, m ∈ log → Page.Indexable m := by
  obtain ⟨p, -, ht⟩ := PageManager.Windowed.kept.runAll h hrun
  intro m hm
  have hreach := ht.reach m (List.mem_append_right _ hm)
  have hbound := ht.bound
  unfold Page.Indexable
  omega

/-- One measurement on a page of one, and one after the storage was opened again. -/
theorem resume_stuck : ¬ ∀ (S : TimeSort) (fuel : Nat) (pageSize : U64) (before after : List (List Meas))
    (log₁ log₂ : List Meas) (pm₀ pm pm' closed : PageManager) (listing : List (Nat × PageFile)),
    sizeofHeader + sizeofMeas ≤ pageSize.val → (PageManager.start pageSize).createNewPage = .ok pm₀ →
    PageManager.runAll S fuel (before.map .call) pm₀ = .ok (log₁, pm) →
    PageManager.runAll S fuel (after.map .call) pm = .ok (log₂, pm') → pm.closeCurrentPage = .ok closed →
    listing.Perm (named closed.files) →
    ∃ pm₂, openPages listing = .ok pm₂ ∧
      ∃ fuel log pm₃, PageManager.runAll S fuel (after.map .call) pm₂ = .ok (log, pm₃) ∧ log.Perm log₂ := by
  intro h
  let pm₀ : PageManager := {PageManager.start (Page.calcSize 1) with curpage := some (Page.create (Page.calcSize 1))}
  have hrun : ((PageManager.runAll TimeSort.insertion 3 [.call [.plain 0 1]] pm₀).toOption.bind fun x =>
      (PageManager.runAll TimeSort.insertion 3 [.call [.plain 0 2]] x.2).toOption.bind fun y =>
      x.2.closeCurrentPage.toOption.map fun closed => (x, y, closed)).any (fun z =>
        decide ((openPages (named z.2.2.files)).toOption.bind (fun pm₂ => pm₂.curpage.map Page.isFull) = some true)) =
          true := by
    decide +kernel
  obtain ⟨⟨⟨log₁, pm⟩, ⟨log₂, pm'⟩, closed⟩, hz, hfull⟩ := (Option.any_eq_true _ _).mp hrun
  obtain ⟨x, hbefore, hz⟩ := Option.bind_eq_some_iff.mp hz
  obtain ⟨y, hplain, hz⟩ := Option.bind_eq_some_iff.mp hz
  obtain ⟨c, hclose, heq⟩ := Option.map_eq_some_iff.mp hz
  obtain ⟨rfl, hrest⟩ := Prod.mk.inj heq
  obtain ⟨rfl, rfl⟩ := Prod.mk.inj hrest
  obtain ⟨pm₂, hopen, fuel, log, pm₃, hrun, -⟩ := h TimeSort.insertion 3 (Page.calcSize 1) [[.plain 0 1]] [[.plain 0 2]]
    log₁ log₂ pm₀ pm pm' c _ (by decide) rfl (toOption_eq_some.mp hbefore) (toOption_eq_some.mp hplain)
    (toOption_eq_some.mp hclose) (.refl _)
  -- the page is full, and no other one follows
  have hfull := of_decide_eq_true hfull
  rw [hopen] at hfull
  obtain ⟨p, hp, hfull⟩ := Option.map_eq_some_iff.mp hfull
  obtain ⟨h0, q, hq, hc⟩ := openPages_page hopen
  obtain rfl := Option.some.inj (hp.symm.trans hq)
  have hroom := (room_of_calls h0 hp hc hrun).1.1
  rw [hfull] at hroom
  cases hroom

/-- After any batches a storage closes, and opens whatever order the page files are listed in.
Further batches are then written as without closing if and only if the page that `Open` made
current has room for all of them, and its index for their records. -/
theorem resumed_iff (S : TimeSort) (fuel : Nat) (pageSize : U64) (before after : List (List Meas))
    (log₁ log₂ : List Meas) (pm₀ pm pm' : PageManager) (hstart : (PageManager.start pageSize).createNewPage = .ok pm₀)
    (hbefore : PageManager.runAll S fuel (before.map .call) pm₀ = .ok (log₁, pm))
    (hplain : PageManager.runAll S fuel (after.map .call) pm = .ok (log₂, pm')) :
    ∃ closed, pm.closeCurrentPage = .ok closed ∧
      ∀ listing, listing.Perm (named closed.files) → ∃ pm₂ p, openPages listing = .ok pm₂ ∧ pm₂.curpage = some p ∧
        ((∃ fuel log pm₃, PageManager.runAll S fuel (after.map .call) pm₂ = .ok (log, pm₃) ∧ log.Perm log₂) ↔
          RoomFor (after.map S.sort).flatten p ∧ IndexTakes S after p) := by
  have hwindow := PageManager.Windowed.kept.runAll (PageManager.Windowed.start hstart) hbefore
  have hids := indexable_of_calls hwindow hplain
  obtain ⟨closed, hclose, hopens⟩ := reopens_of_calls hstart hbefore
  refine ⟨closed, hclose, fun listing hlist => ?_⟩
  obtain ⟨pm₂, hopen⟩ := hopens listing hlist
  obtain ⟨h0, p, hp, hc⟩ := openPages_page hopen
  refine ⟨pm₂, p, hopen, hp, ?_, ?_⟩
  · rintro ⟨fuel', log, pm₃, hrun, -⟩
    exact room_of_calls h0 hp hc hrun
  · rintro ⟨hroom, hi⟩
    rw [PageManager.calls_eq hplain] at hids ⊢
    obtain ⟨pm₃, hrun⟩ := calls_of_room hids hp hc hroom hi
    exact ⟨2, _, pm₃, hrun, .refl _⟩

/-- The page has room for one more, which is written after `Open` as without closing. -/
theorem resumed_iff_two : ∃ pm₀ pm pm' closed pm₂ p,
    PageManager.runAll TimeSort.insertion 3 [.call [.plain 0 1]] pm₀ = .ok ([.plain 0 1], pm) ∧
    PageManager.runAll TimeSort.insertion 3 [.call [.plain 0 2]] pm = .ok ([.plain 0 2], pm') ∧
    pm.closeCurrentPage = .ok closed ∧ openPages (named closed.files) = .ok pm₂ ∧ pm₂.curpage = some p ∧
    (RoomFor [.plain 0 2] p ∧ IndexTakes TimeSort.insertion [[.plain 0 2]] p) ∧
      ∃ fuel log pm₃, PageManager.runAll TimeSort.insertion fuel [.call [.plain 0 2]] pm₂ = .ok (log, pm₃) ∧
        log.Perm [.plain 0 2] := by
  let pm₀ : PageManager := {PageManager.start (Page.calcSize 2) with curpage := some (Page.create (Page.calcSize 2))}
  obtain ⟨⟨log₁, pm⟩, hbefore, hx⟩ := exists_ok
    (x := PageManager.runAll TimeSort.insertion 3 [.call [.plain 0 1]] pm₀)
    (p := fun x : List Meas × PageManager => decide (x.1 = [.plain 0 1]) &&
      (PageManager.runAll TimeSort.insertion 3 [.call [.plain 0 2]] x.2).toOption.any
        fun y : List Meas × PageManager => decide (y.1 = [.plain 0 2]) &&
          x.2.closeCurrentPage.toOption.any fun closed => (openPages (named closed.files)).toOption.any fun pm₂ =>
            (PageManager.runAll TimeSort.insertion 3 [.call [.plain 0 2]] pm₂).toOption.any
              fun z : List Meas × PageManager => decide (z.1 = [.plain 0 2])) (by decide +kernel)
  obtain ⟨hlog, hx⟩ := Bool.and_eq_true_iff.mp hx
  obtain rfl := of_decide_eq_true hlog
  obtain ⟨⟨log₂, pm'⟩, hplain, hx⟩ := (Option.any_eq_true _ _).mp hx
  obtain ⟨hlog, hx⟩ := Bool.and_eq_true_iff.mp hx
  obtain rfl := of_decide_eq_true hlog
  have hplain := toOption_eq_some.mp hplain
  obtain ⟨closed, hclose, hx⟩ := (Option.any_eq_true _ _).mp hx
  have hclose := toOption_eq_some.mp hclose
  obtain ⟨pm₂, hopen, hx⟩ := (Option.any_eq_true _ _).mp hx
  have hopen := toOption_eq_some.mp hopen
  obtain ⟨⟨log, pm₃⟩, hrun, hlog⟩ := (Option.any_eq_true _ _).mp hx
  obtain rfl := of_decide_eq_true hlog
  obtain ⟨closed', hclose', hall⟩ := resumed_iff TimeSort.insertion 3 (Page.calcSize 2) [[.plain 0 1]] [[.plain 0 2]]
    _ _ pm₀ pm pm' rfl hbefore hplain
  obtain rfl := Except.ok.inj (hclose.symm.trans hclose')
  obtain ⟨pm₂', p, hopen', hp, hiff⟩ := hall _ (.refl _)
  obtain rfl := Except.ok.inj (hopen.symm.trans hopen')
  have hwritten : ∃ fuel log pm₃, PageManager.runAll TimeSort.insertion fuel [.call [.plain 0 2]] pm₂ = .ok (log, pm₃) ∧
      log.Perm [.plain 0 2] := ⟨3, _, pm₃, toOption_eq_some.mp hrun, .refl _⟩
  have hroom := hiff.mp hwritten
  rw [List.map_singleton, List.flatten_singleton] at hroom
  exact ⟨pm₀, pm, pm', closed, pm₂, p, hbefore, hplain, hclose, hopen, hp, hroom, hwritten⟩

end Nkvdb.Storage
