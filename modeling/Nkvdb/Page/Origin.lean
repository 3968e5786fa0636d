import Nkvdb.Readers
import Nkvdb.Page.Read

/-! Where the measurements come from that a reader delivers.

A slot of the window that was never written holds the empty measurement. `timePointRead`
passes over slots of time 0; `readNext`, where the interval begins after the page's greatest
time, tests a slot by the filter alone. -/
namespace Nkvdb.Page

/-- `Page::setWriteWindow`. -/
def setWriteWindow (other : WriteWindow) (p : Page) : Page := {p with writeWindow := other}

/-- A page made by appends, flushes of its index and windows set on it. `log` was appended to
it, `carried` to the pages that the windows come from. -/
inductive Built : U64 → List Meas → List Meas → Page → Prop
  | create (fsize : U64) : Built fsize [] [] (create fsize)
  | append {fsize : U64} {log carried : List Meas} {p p' : Page} {op : Op} {r : AppendResult}
      (h : Built fsize log carried p) (hrun : op.run p = .ok (r, p')) :
      Built fsize (log ++ op.meases.take r.writed) carried p'
  | flushIndex {fsize : U64} {log carried : List Meas} {p p' : Page} (h : Built fsize log carried p)
      (hf : p.flushIndex = .ok p') : Built fsize log carried p'
  | setWriteWindow {fsize fsize' : U64} {log carried log' carried' : List Meas} {p q : Page}
      (h : Built fsize log carried p) (h' : Built fsize' log' carried' q) :
      Built fsize log (carried ++ (log' ++ carried')) (p.setWriteWindow q.writeWindow)

/-- The measurement agrees with one of `given`. -/
def Appended (given : List Meas) (m : Meas) : Prop := ∃ g, g ∈ given ∧ SameMeas m g

theorem Appended.of_mem {given : List Meas} {m : Meas} (h : m ∈ given) : Appended given m :=
  ⟨m, h, rfl, rfl, rfl, rfl, rfl, rfl⟩

theorem Appended.mono {a b : List Meas} {m : Meas} (h : Appended a m) (hab : ∀ x, x ∈ a → x ∈ b) : Appended b m := by
  obtain ⟨g, hg, hsame⟩ := h
  exact ⟨g, hab g hg, hsame⟩

/-! ### The window -/

theorem mem_update {w w' : WriteWindow} {m x : Meas} (h : w.update m = .ok w') (hx : x ∈ w') :
    x = Meas.empty ∨ x ∈ w ∨ x = m := by
  have hset : ∀ v : WriteWindow, x ∈ v.set m.id.val m → x ∈ v ∨ x = m := fun v hv => List.mem_or_eq_of_mem_set hv
  unfold WriteWindow.update at h
  split at h
  · split at h
    · cases h
    split at h
    · cases h
    · obtain rfl := Except.ok.inj h
      rcases hset _ hx with hx | hx
      · rcases List.mem_append.mp hx with hx | hx
        · exact .inr (.inl hx)
        · exact .inl (List.eq_of_mem_replicate hx)
      · exact .inr (.inr hx)
  · split at h
    · obtain rfl := Except.ok.inj h
      exact .inr (hset _ hx)
    · obtain rfl := Except.ok.inj h
      exact .inr (.inl hx)

theorem mem_updateAll {ms : List Meas} {w w' : WriteWindow} {x : Meas} (h : w.updateAll ms = .ok w') (hx : x ∈ w') :
    x = Meas.empty ∨ x ∈ w ∨ x ∈ ms := by
  induction ms generalizing w with
  | nil =>
    obtain rfl := Except.ok.inj h
    exact .inr (.inl hx)
  | cons m ms ih =>
    obtain ⟨w₁, h₁, h₂⟩ := bind_ok h
    rcases ih h₂ with hx | hx | hx
    · exact .inl hx
    · rcases mem_update h₁ hx with hx | hx | rfl
      · exact .inl hx
      · exact .inr (.inl hx)
      · exact .inr (.inr List.mem_cons_self)
    · exact .inr (.inr (List.mem_cons_of_mem _ hx))

variable {fsize : U64} {log carried : List Meas} {p : Page}

/-- A slot of the window is empty or holds what was appended. -/
theorem Built.window (h : Built fsize log carried p) {x : Meas} (hx : x ∈ p.writeWindow) :
    x = Meas.empty ∨ x ∈ log ++ carried := by
  induction h with
  | create => exact absurd hx List.not_mem_nil
  | append h hrun ih =>
    obtain ⟨-, k, q, ix, hacc, -, rfl, rfl⟩ := Op.run_iff.mp hrun
    rcases mem_updateAll (acceptAll_window hacc) hx with hx | hx | hx
    · exact .inl hx
    · rcases ih hx with hx | hx
      · exact .inl hx
      · refine .inr ?_
        rcases List.mem_append.mp hx with hx | hx
        · exact List.mem_append_left _ (List.mem_append_left _ hx)
        · exact List.mem_append_right _ hx
    · exact .inr (List.mem_append_left _ (List.mem_append_right _ hx))
  | flushIndex h hf ih =>
    obtain ⟨ix, -, rfl⟩ := flushIndex_iff.mp hf
    exact ih hx
  | setWriteWindow h h' ih ih' =>
    rcases ih' hx with hx | hx
    · exact .inl hx
    · exact .inr (List.mem_append_right _ (List.mem_append_right _ hx))

/-! ### The positions -/

/-- What the positions of the page read back was appended to it. -/
def ReadsTrue (log : List Meas) (p : Page) : Prop := ∀ i m, p.readAt i = .ok m → Appended log m

theorem Built.areas (h : Built fsize log carried p) : Areas fsize log p := by
  induction h with
  | create fsize => exact Areas.create fsize
  | append h hrun ih =>
    obtain ⟨-, k, q, ix, hacc, -, rfl, rfl⟩ := Op.run_iff.mp hrun
    exact ((acceptAll_taken ih hacc).1).finish ..
  | flushIndex h hf ih =>
    obtain ⟨ix, -, rfl⟩ := flushIndex_iff.mp hf
    exact ⟨ih.size, ih.writePos, ih.writeValuePos, ih.records⟩
  | setWriteWindow h h' ih ih' => exact ⟨ih.size, ih.writePos, ih.writeValuePos, ih.records⟩

theorem Stored.acceptAll {ms : List Meas} {q : Page} {k : Nat} (hs : Stored fsize log p.rawData)
    (ha : Areas fsize log p)
    (hacc : acceptAll ms p = .ok (k, q)) (hf : Fits fsize (log ++ ms.take k)) :
    Stored fsize (log ++ ms.take k) q.rawData := by
  induction ms generalizing log p k with
  | nil =>
    obtain ⟨rfl, rfl⟩ := acceptAll_nil hacc
    rwa [List.take_zero, List.append_nil]
  | cons m ms ih =>
    rcases acceptAll_cons hacc with ⟨-, rfl, rfl⟩ | ⟨-, w, n, -, hroom, hrest, rfl⟩
    · rwa [List.take_zero, List.append_nil]
    · rw [List.take_succ_cons, List.append_cons] at hf ⊢
      have hfirst : Fits fsize (log ++ [m]) := hf.mono (List.prefix_append ..)
      exact ih (p := (p.withMeas m w).advance) (hs.put ha hroom.1 hfirst w) (ha.put hroom w) hrest hf

theorem Built.stored (h : Built fsize log carried p) (hf : Fits fsize log) : Stored fsize log p.rawData := by
  induction h with
  | create fsize =>
    intro i m hi
    rw [List.getElem?_nil] at hi
    cases hi
  | append h hrun ih =>
    obtain ⟨-, k, q, ix, hacc, -, rfl, rfl⟩ := Op.run_iff.mp hrun
    have hold := ih (hf.mono (List.prefix_append ..))
    have hnew := hold.acceptAll h.areas hacc hf
    exact hnew
  | flushIndex h hflush ih =>
    obtain ⟨ix, -, hflush⟩ := bind_ok hflush
    obtain rfl := Except.ok.inj hflush
    exact ih hf
  | setWriteWindow h h' ih ih' => exact ih hf

/-- A page whose areas are apart reads back what was appended to it. -/
theorem Stored.readsTrue (hs : Stored fsize log p.rawData) (ha : Areas fsize log p) (hf : Fits fsize log) :
    ReadsTrue log p := by
  intro i m hread
  obtain ⟨x, hx, hread⟩ := bind_ok hread
  cases hi : log[i]? with
  | none =>
    have hle : p.header.writePos ≤ i := by
      rw [ha.writePos]
      exact List.getElem?_eq_none_iff.mp hi
    obtain rfl := Except.ok.inj ((read_none hle Meas.empty).symm.trans hx)
    cases hread
  | some g =>
    rw [read_eq ha hs hf hi] at hx
    split at hx
    · cases hx
    next hsize =>
      obtain rfl := Except.ok.inj hx
      obtain rfl := Except.ok.inj hread
      exact ⟨g, List.mem_of_getElem? hi, rfl, rfl, rfl, rfl, rfl, setValue_take g.value _ (not_lt.mp hsize)⟩

theorem Built.readsTrue (h : Built fsize log carried p) (hf : Fits fsize log) : ReadsTrue log p :=
  (h.stored hf).readsTrue h.areas hf

/-! ### What a reader delivers -/

/-- A position of the page reads it back, or a window holds it and its time is not 0. -/
def Source (prev : WriteWindow) (p : Page) (m : Meas) : Prop :=
  (∃ i, p.readAt i = .ok m) ∨ m ∈ p.writeWindow ∧ m.time ≠ 0 ∨ m ∈ prev ∧ m.time ≠ 0

/-- The page after a search of the index. -/
def Searched (p p' : Page) : Prop := ∃ ix, p' = {p with index := ix}

theorem Searched.source {p p' : Page} (h : Searched p p') {prev : WriteWindow} {m : Meas} (hm : Source prev p' m) :
    Source prev p m := by
  obtain ⟨ix, rfl⟩ := h
  exact hm

theorem of_mem_assign {m x : Meas} {vs : MeasMap} (h : x ∈ vs.assign m) : x = m ∨ x ∈ vs := by
  induction vs with
  | nil => exact .inl (List.mem_singleton.mp h)
  | cons v vs ih =>
    unfold MeasMap.assign at h
    split at h
    · exact List.mem_cons.mp h
    · split at h
      · exact (List.mem_cons.mp h).imp_right (List.mem_cons_of_mem _)
      · rcases List.mem_cons.mp h with rfl | h
        · exact .inr List.mem_cons_self
        · exact (ih h).imp_right (List.mem_cons_of_mem _)

theorem of_mem_backwardVisit {check : Meas → Bool} {tp : Time} {m x : Meas} {vs : MeasMap}
    (h : x ∈ backwardVisit check tp m vs) : x = m ∨ x ∈ vs := by
  unfold backwardVisit at h
  split at h
  · split at h
    · split at h
      · exact of_mem_assign h
      · exact .inr h
    · split at h
      · exact of_mem_assign h
      · exact .inr h
  · exact .inr h

section Loops
variable {check : Meas → Bool} {tp : Time} {vs vs' : MeasMap} {x : Meas}

theorem backwardLoop_source {pos n : Nat} (h : backwardLoop check tp p pos n vs = .ok vs') (hx : x ∈ vs') :
    x ∈ vs ∨ ∃ i, p.readAt i = .ok x := by
  induction n generalizing vs with
  | zero =>
    obtain rfl := Except.ok.inj h
    exact .inl hx
  | succ n ih =>
    obtain ⟨m, hm, h⟩ := bind_ok h
    rcases ih h with hv | hread
    · rcases of_mem_backwardVisit hv with rfl | hv
      · exact .inr ⟨_, hm⟩
      · exact .inl hv
    · exact .inr hread

theorem backwardRecords_source {irecords : List (Nat × Nat)} (h : backwardRecords check tp p irecords vs = .ok vs')
    (hx : x ∈ vs') : x ∈ vs ∨ ∃ i, p.readAt i = .ok x := by
  induction irecords generalizing vs with
  | nil =>
    obtain rfl := Except.ok.inj h
    exact .inl hx
  | cons r irecords ih =>
    unfold backwardRecords at h
    split at h
    · cases h
    · obtain ⟨vs₁, h₁, h⟩ := bind_ok h
      rcases ih h with hv | hread
      · exact backwardLoop_source h₁ hv
      · exact .inr hread

end Loops

theorem backwardRead_source {ids : List Id} {source flag : Flag} {tp : Time} {out : List Meas} {p' : Page}
    (h : p.backwardRead ids source flag tp = .ok (out, p')) :
    Searched p p' ∧ ∀ m, m ∈ out → ∃ i, p.readAt i = .ok m := by
  have hall : ∃ irecords p₁ vs, Searched p p₁ ∧
      backwardRecords (backwardCheck ids source flag) tp p₁ irecords [] = .ok vs ∧ out = vs ∧ p' = p₁ := by
    unfold backwardRead at h
    by_cases htp : tp = p.header.minTime
    · rw [if_pos htp] at h
      obtain ⟨vs, hvs, h⟩ := bind_ok (show backwardRecords _ tp p _ [] >>= _ = _ from h)
      obtain ⟨rfl, rfl⟩ := Prod.mk.inj (Except.ok.inj h)
      exact ⟨_, p, _, ⟨p.index, rfl⟩, hvs, rfl, rfl⟩
    · rw [if_neg htp] at h
      obtain ⟨⟨irecords, ix⟩, -, h⟩ := bind_ok h
      obtain ⟨vs, hvs, h⟩ := bind_ok (show backwardRecords _ tp {p with index := ix} _ [] >>= _ = _ from h)
      obtain ⟨rfl, rfl⟩ := Prod.mk.inj (Except.ok.inj h)
      exact ⟨_, _, _, ⟨ix, rfl⟩, hvs, rfl, rfl⟩
  obtain ⟨irecords, p₁, vs, ⟨ix, rfl⟩, hvs, rfl, rfl⟩ := hall
  refine ⟨⟨ix, rfl⟩, fun m hm => ?_⟩
  obtain ⟨i, hi⟩ := (backwardRecords_source hvs hm).resolve_left List.not_mem_nil
  exact ⟨i, hi⟩

theorem timePointRead_source {r : PageReader} {tp : Time} {out : List Meas} {p' : Page}
    (h : r.timePointRead tp p = .ok (out, p')) : Searched p p' ∧ ∀ m, m ∈ out → Source r.prevWw p m := by
  by_cases htp : p.header.maxTime < tp
  · rw [PageReader.timePointRead_behind htp] at h
    obtain ⟨rfl, rfl⟩ := Prod.mk.inj (Except.ok.inj h)
    refine ⟨⟨p.index, rfl⟩, fun m hm => .inr (.inl ?_)⟩
    obtain ⟨hm, hpass⟩ := List.mem_filter.mp hm
    exact ⟨hm, by simpa using (Bool.and_eq_true_iff.mp hpass).1⟩
  · rw [PageReader.timePointRead_back (not_lt.mp htp)] at h
    obtain ⟨⟨subResult, p₁⟩, hback, h⟩ := bind_ok h
    obtain ⟨rfl, rfl⟩ := Prod.mk.inj (Except.ok.inj h)
    obtain ⟨hsearched, hread⟩ := backwardRead_source hback
    refine ⟨hsearched, fun m hm => ?_⟩
    rcases List.mem_append.mp hm with hm | hm
    · obtain ⟨hm, hpass⟩ := List.mem_filter.mp hm
      simp only [Bool.and_eq_true, bne_iff_ne, ne_eq] at hpass
      exact .inr (.inr ⟨hm, hpass.1.1⟩)
    · exact .inl (hread m hm)

end Nkvdb.Page

namespace Nkvdb.PageReaderInterval
open Page
variable {size : U64} {r r' : PageReaderInterval} {p p' : Page} {out : List Meas} {m : Meas}

theorem readLoop_source {n i j : Nat} (h : r.readLoop p n i = .ok (out, j)) (hm : m ∈ out) :
    ∃ i, p.readAt i = .ok m := by
  induction n generalizing i out with
  | zero =>
    obtain ⟨rfl, -⟩ := Prod.mk.inj (Except.ok.inj h)
    cases hm
  | succ n ih =>
    unfold readLoop at h
    split at h
    · obtain ⟨rfl, -⟩ := Prod.mk.inj (Except.ok.inj h)
      cases hm
    · obtain ⟨x, hx, h⟩ := bind_ok h
      obtain ⟨⟨rest, k⟩, hrest, h⟩ := bind_ok h
      obtain ⟨rfl, rfl⟩ := Prod.mk.inj (Except.ok.inj h)
      rcases List.mem_append.mp hm with hm | hm
      · split at hm
        · rw [List.mem_singleton.mp hm]
          exact ⟨i, hx⟩
        · cases hm
      · exact ih hrest hm

/-- The two readers have the same interval and the same window of the page before. -/
structure SameQuery (r r' : PageReaderInterval) : Prop where
  fromTime : r'.fromTime = r.fromTime
  prevWw : r'.prevWw = r.prevWw

theorem readInPoint_source (h : r.readInPoint p = .ok (out, r', p')) :
    Searched p p' ∧ r.SameQuery r' ∧ ∀ m, m ∈ out → Source r.prevWw p m := by
  unfold readInPoint at h
  split at h
  · obtain ⟨⟨out₁, p₁⟩, hpoint, h⟩ := bind_ok h
    obtain ⟨rfl, heq⟩ := Prod.mk.inj (Except.ok.inj h)
    obtain ⟨rfl, rfl⟩ := Prod.mk.inj heq
    obtain ⟨hsearched, hsource⟩ := timePointRead_source hpoint
    exact ⟨hsearched, ⟨rfl, rfl⟩, hsource⟩
  · obtain ⟨rfl, heq⟩ := Prod.mk.inj (Except.ok.inj h)
    obtain ⟨rfl, rfl⟩ := Prod.mk.inj heq
    exact ⟨⟨p.index, rfl⟩, ⟨rfl, rfl⟩, nofun⟩

theorem nextPos_sameQuery (h : r.nextPos = .ok r') : r.SameQuery r' := by
  unfold nextPos at h
  split at h
  · split at h
    · cases h
    · obtain rfl := Except.ok.inj h
      exact ⟨rfl, rfl⟩
  · obtain rfl := Except.ok.inj h
    exact ⟨rfl, rfl⟩

/-- One call of `readNext` on an interval that does not begin after the page. -/
theorem readNext_source (hfrom : ¬ p.header.maxTime < r.fromTime) (h : r.readNextBy size p = .ok (out, r', p')) :
    Searched p p' ∧ r.SameQuery r' ∧ ∀ m, m ∈ out → Source r.prevWw p m := by
  unfold readNextBy at h
  split at h
  · obtain ⟨rfl, heq⟩ := Prod.mk.inj (Except.ok.inj h)
    obtain ⟨rfl, rfl⟩ := Prod.mk.inj heq
    exact ⟨⟨p.index, rfl⟩, ⟨rfl, rfl⟩, nofun⟩
  · obtain ⟨⟨first, r₁, p₁⟩, hpoint, h⟩ := bind_ok h
    obtain ⟨r₂, hnext, h⟩ := bind_ok h
    obtain ⟨⟨rest, i⟩, hloop, h⟩ := bind_ok h
    obtain ⟨rfl, heq⟩ := Prod.mk.inj (Except.ok.inj h)
    obtain ⟨rfl, rfl⟩ := Prod.mk.inj heq
    obtain ⟨hsearched, hsame, hfirst⟩ := readInPoint_source hpoint
    have hsame' := nextPos_sameQuery hnext
    refine ⟨hsearched, ⟨hsame'.fromTime.trans hsame.fromTime, hsame'.prevWw.trans hsame.prevWw⟩, fun m hm => ?_⟩
    rcases List.mem_append.mp hm with hm | hm
    · exact hfirst m hm
    · exact hsearched.source (.inl (readLoop_source hloop hm))

theorem readAll_source {fuel : Nat} (hfrom : ¬ p.header.maxTime < r.fromTime)
    (h : r.readAllBy size fuel p = .ok (out, p')) (hm : m ∈ out) : Source r.prevWw p m := by
  induction fuel generalizing r p out with
  | zero => cases h
  | succ fuel ih =>
    unfold readAllBy at h
    split at h
    · obtain ⟨rfl, -⟩ := Prod.mk.inj (Except.ok.inj h)
      cases hm
    · obtain ⟨⟨first, r₁, p₁⟩, hnext, h⟩ := bind_ok h
      obtain ⟨⟨rest, p₂⟩, hrest, h⟩ := bind_ok h
      obtain ⟨rfl, rfl⟩ := Prod.mk.inj (Except.ok.inj h)
      obtain ⟨hsearched, hsame, hfirst⟩ := readNext_source hfrom hnext
      rcases List.mem_append.mp hm with hm | hm
      · exact hfirst m hm
      · have hfrom' : ¬ p₁.header.maxTime < r₁.fromTime := by
          obtain ⟨ix, rfl⟩ := hsearched
          rw [hsame.fromTime]
          exact hfrom
        have hsource := ih hfrom' hrest hm
        rw [hsame.prevWw] at hsource
        exact hsearched.source hsource

/-- A reader of the window. -/
theorem readNext_window (hw : r.isWindowReader = true) (hend : r.wwWindowReaderReadEnd = false)
    (hfrom : p.header.maxTime < r.fromTime) :
    r.readNextBy size p = .ok (p.writeWindow.filter r.checkValueFlags, {r with wwWindowReaderReadEnd := true}, p) ∧
      r.isEnd = false := by
  have hnot : r.isEnd = false := by
    unfold isEnd
    rw [if_pos hw, hend]
  refine ⟨?_, hnot⟩
  unfold readNextBy
  rw [if_neg (Bool.eq_false_iff.mp hnot), if_pos hfrom]

theorem readAll_window {fuel : Nat} (hw : r.isWindowReader = true) (hend : r.wwWindowReaderReadEnd = false)
    (hfrom : p.header.maxTime < r.fromTime) (h : r.readAllBy size fuel p = .ok (out, p')) :
    out = p.writeWindow.filter r.checkValueFlags := by
  obtain ⟨hnext, hnot⟩ := readNext_window hw hend hfrom
  cases fuel with
  | zero => cases h
  | succ fuel =>
    unfold readAllBy at h
    rw [if_neg (Bool.eq_false_iff.mp hnot), hnext] at h
    obtain ⟨⟨rest, p₁⟩, hrest, h⟩ := bind_ok (show PageReaderInterval.readAllBy size fuel _ p >>= _ = _ from h)
    obtain ⟨rfl, rfl⟩ := Prod.mk.inj (Except.ok.inj h)
    have hended : ({r with wwWindowReaderReadEnd := true} : PageReaderInterval).isEnd = true := if_pos hw
    cases fuel with
    | zero => cases hrest
    | succ fuel =>
      unfold readAllBy at hrest
      rw [if_pos hended] at hrest
      obtain ⟨rfl, -⟩ := Prod.mk.inj (Except.ok.inj hrest)
      exact List.append_nil _

theorem readAll_window_two (hw : r.isWindowReader = true) (hend : r.wwWindowReaderReadEnd = false)
    (hfrom : p.header.maxTime < r.fromTime) :
    r.readAllBy size 2 p = .ok (p.writeWindow.filter r.checkValueFlags, p) := by
  obtain ⟨hnext, hnot⟩ := readNext_window hw hend hfrom
  have hended : ({r with wwWindowReaderReadEnd := true} : PageReaderInterval).isEnd = true := if_pos hw
  unfold readAllBy
  rw [if_neg (Bool.eq_false_iff.mp hnot), hnext]
  unfold readAllBy
  simp only [bind, Except.bind, if_pos hended, pure, Except.pure, List.append_nil]

end Nkvdb.PageReaderInterval

namespace Nkvdb.Page

/-! ### Queries -/

inductive Query where
  | interval (fromTime toTime : Time)
  | timePoint (tp : Time)

/-- What the reader of a query delivers in all, with `prev` as the window of the page before. -/
def Query.deliver (ids : List Id) (source flag : Flag) (prev : WriteWindow) (fuel : Nat) (p : Page) :
    Query → Except Fault (List Meas)
  | .interval fromTime toTime => do
    let (preader, p) ← p.readInterval ids source flag fromTime toTime
    match preader with
    | none => return []
    | some r => do
      let (out, _) ← PageReaderInterval.readAll fuel {r with prevWw := prev} p
      return out
  | .timePoint tp =>
    match p.readInTimePoint ids source flag tp with
    | none => .ok []
    | some r => do
      let (out, _, _) ← PageReaderTimePoint.readNext {r with prevWw := prev} p
      return out

/-- `readNext` answers the query from the window. -/
def Query.FromWindow (p : Page) : Query → Prop
  | .interval fromTime _ => p.header.writePos ≠ 0 ∧ p.header.maxTime < fromTime
  | .timePoint _ => False

variable {ids : List Id} {source flag : Flag} {prev : WriteWindow} {fuel : Nat} {out : List Meas} {q : Query} {m : Meas}

theorem addReadPos_fromTime (records : List IndexRecord) (r : PageReaderInterval) :
    (records.foldl (fun preader rec => preader.addReadPos rec.pos (rec.pos + rec.count)) r).fromTime = r.fromTime := by
  induction records generalizing r with
  | nil => rfl
  | cons rec records ih => exact ih (r.addReadPos rec.pos (rec.pos + rec.count))

/-- The reader of an interval, where there is one. -/
theorem readInterval_reader {fromTime toTime : Time} {r : PageReaderInterval} {p' : Page}
    (h : p.readInterval ids source flag fromTime toTime = .ok (some r, p')) :
    p.header.writePos ≠ 0 ∧ Searched p p' ∧ r.fromTime = fromTime := by
  unfold readInterval at h
  by_cases hpos : p.header.writePos = 0
  · simp only [if_pos hpos] at h
    cases h
  refine ⟨hpos, ?_⟩
  simp only [if_neg hpos] at h
  split at h
  · obtain ⟨hr, rfl⟩ := Prod.mk.inj (Except.ok.inj h)
    rw [← Option.some.inj hr]
    exact ⟨⟨p.index, rfl⟩, rfl⟩
  · split at h
    · split at h
      · obtain ⟨hr, rfl⟩ := Prod.mk.inj (Except.ok.inj h)
        obtain ⟨r₁, -, rfl⟩ := Option.map_eq_some_iff.mp hr
        exact ⟨⟨p.index, rfl⟩, rfl⟩
      · obtain ⟨hr, rfl⟩ := Prod.mk.inj (Except.ok.inj h)
        unfold readFromToPos at hr
        rw [if_neg hpos] at hr
        rw [← Option.some.inj hr]
        exact ⟨⟨p.index, rfl⟩, rfl⟩
    · obtain ⟨⟨irecords, ix⟩, -, h⟩ := bind_ok h
      obtain ⟨hr, rfl⟩ := Prod.mk.inj (Except.ok.inj h)
      rw [← Option.some.inj hr, addReadPos_fromTime]
      exact ⟨⟨ix, rfl⟩, rfl⟩

theorem deliver_source (hq : ¬ q.FromWindow p) (h : q.deliver ids source flag prev fuel p = .ok out) (hm : m ∈ out) :
    Source prev p m := by
  cases q with
  | interval fromTime toTime =>
    obtain ⟨⟨preader, p'⟩, hr, h⟩ := bind_ok h
    cases preader with
    | none =>
      obtain rfl := Except.ok.inj h
      cases hm
    | some r =>
      obtain ⟨hpos, hsearched, hfrom⟩ := readInterval_reader hr
      obtain ⟨⟨out₁, p₁⟩, hall, h⟩ := bind_ok h
      obtain rfl := Except.ok.inj h
      have hinside : ¬ p'.header.maxTime < ({r with prevWw := prev} : PageReaderInterval).fromTime := by
        obtain ⟨ix, rfl⟩ := hsearched
        show ¬ p.header.maxTime < r.fromTime
        rw [hfrom]
        exact fun hlt => hq ⟨hpos, hlt⟩
      exact hsearched.source (PageReaderInterval.readAll_source hinside hall hm)
  | timePoint tp =>
    cases hr : p.readInTimePoint ids source flag tp with
    | none =>
      simp only [Query.deliver, hr] at h
      obtain rfl := Except.ok.inj h
      cases hm
    | some r =>
      simp only [Query.deliver, hr] at h
      obtain ⟨⟨out₁, r₁, p₁⟩, hnext, h⟩ := bind_ok h
      obtain rfl := Except.ok.inj h
      unfold PageReaderTimePoint.readNext at hnext
      split at hnext
      · obtain ⟨rfl, -⟩ := Prod.mk.inj (Except.ok.inj hnext)
        cases hm
      · obtain ⟨⟨out₂, p₂⟩, hpoint, hnext⟩ := bind_ok hnext
        obtain ⟨rfl, -⟩ := Prod.mk.inj (Except.ok.inj hnext)
        exact (timePointRead_source hpoint).2 m hm

/-- From the window, all slots are delivered that pass the filter. -/
theorem deliver_window (hq : q.FromWindow p) (h : q.deliver ids source flag prev fuel p = .ok out) :
    out = p.writeWindow.filter (PageReader.checkValueFlags ⟨ids, source, flag, prev⟩) := by
  cases q with
  | timePoint tp => exact absurd hq id
  | interval fromTime toTime =>
    obtain ⟨hpos, hlt⟩ := hq
    unfold Query.deliver readInterval at h
    simp only [if_neg hpos, if_pos hlt] at h
    obtain ⟨⟨out₁, p₁⟩, hall, h⟩ := bind_ok (show PageReaderInterval.readAll fuel _ p >>= _ = _ from h)
    obtain rfl := Except.ok.inj h
    exact PageReaderInterval.readAll_window rfl rfl hlt hall

/-- And it takes two calls. -/
theorem deliver_window_two (hq : q.FromWindow p) : q.deliver ids source flag prev 2 p =
    .ok (p.writeWindow.filter (PageReader.checkValueFlags ⟨ids, source, flag, prev⟩)) := by
  cases q with
  | timePoint tp => exact absurd hq id
  | interval fromTime toTime =>
    obtain ⟨hpos, hlt⟩ := hq
    unfold Query.deliver readInterval
    simp only [if_neg hpos, if_pos hlt]
    show PageReaderInterval.readAll 2 _ p >>= _ = _
    unfold PageReaderInterval.readAll
    rw [PageReaderInterval.readAll_window_two (by rfl) (by rfl) hlt]
    rfl

end Nkvdb.Page
