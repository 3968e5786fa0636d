import Nkvdb.Page.Tiles
import Nkvdb.Storage.Interval

/-! What the header of a page says of what the page holds.

The bounds of the times are the least and the greatest time, and whatever was appended passes the
three filters, so that a walk never passes over a page for its filters that holds
something the query asks for (`page_summarised`). -/
namespace Nkvdb
open Page

namespace Storage

/-- What passes the filters of the header. -/
structure Passes (hdr : Header) (m : Meas) : Prop where
  id : bloomCheck hdr.idFltr m.id = true
  flag : bloomCheck hdr.flagFltr m.flag = true
  source : bloomCheck hdr.srcFltr m.source = true

/-- The header has the bounds of the times, once there are some. -/
structure Timed (hdr : Header) (log : List Meas) : Prop where
  init : hdr.minMaxInit = true ↔ log ≠ []
  bounds : log ≠ [] → Bounds hdr log

/-- A measurement that a query asks for. -/
structure Asked (ids : List Id) (source flag : Flag) (m : Meas) : Prop where
  id : ids = [] ∨ m.id ∈ ids
  flag : flag = 0 ∨ m.flag = flag
  source : source = 0 ∨ m.source = source

/-- No test passes over a page that one measurement gets through. -/
theorem Passes.filteredOut {hdr : Header} {m : Meas} (h : Passes hdr m) {ids : List Id} {source flag : Flag}
    (ha : Asked ids source flag m) : filteredOut ids source flag hdr = false := by
  have hflag : (flag != 0 && hdr.flagFltr != 0 && !bloomCheck hdr.flagFltr flag) = false := by
    rcases ha.flag with rfl | rfl
    · rfl
    · rw [h.flag]
      exact Bool.and_false _
  have hsource : (source != 0 && hdr.srcFltr != 0 && !bloomCheck hdr.srcFltr source) = false := by
    rcases ha.source with rfl | rfl
    · rfl
    · rw [h.source]
      exact Bool.and_false _
  have hid : (!ids.isEmpty && hdr.idFltr != 0 && !ids.any fun id => bloomCheck hdr.idFltr id) = false := by
    rcases ha.id with rfl | hmem
    · rfl
    · rw [show (ids.any fun id => bloomCheck hdr.idFltr id) = true from List.any_eq_true.mpr ⟨m.id, hmem, h.id⟩]
      exact Bool.and_false _
  unfold Storage.filteredOut
  rw [hflag, hsource, hid]
  rfl

/-! ### The bounds of the times -/

theorem Timed.updateMinMax {hdr : Header} {log : List Meas} (h : Timed hdr log) (m : Meas) :
    Timed (updateMinMax m hdr) (log ++ [m]) := by
  have hne : log ++ [m] ≠ [] := List.append_ne_nil_of_right_ne_nil _ (List.cons_ne_nil _ _)
  by_cases hlog : log = []
  · have hinit : ¬ hdr.minMaxInit = true := fun hi => h.init.mp hi hlog
    have hupd : Page.updateMinMax m hdr = {hdr with minMaxInit := true, minTime := m.time, maxTime := m.time} :=
      if_neg hinit
    rw [hlog, hupd]
    refine ⟨⟨fun _ => List.cons_ne_nil _ _, fun _ => rfl⟩, fun _ => ⟨?_, ?_, fun x hx => ?_⟩⟩
    · exact ⟨m, List.mem_singleton_self m, rfl⟩
    · exact ⟨m, List.mem_singleton_self m, rfl⟩
    · obtain rfl := List.mem_singleton.mp hx
      exact ⟨le_rfl, le_rfl⟩
  · have hinit : hdr.minMaxInit = true := h.init.mpr hlog
    have hupd : Page.updateMinMax m hdr =
        {hdr with minTime := min m.time hdr.minTime, maxTime := max m.time hdr.maxTime} := if_pos hinit
    obtain ⟨⟨a, ha, hmin⟩, ⟨b, hb, hmax⟩, hle⟩ := h.bounds hlog
    rw [hupd]
    refine ⟨⟨fun _ => hne, fun _ => hinit⟩, fun _ => ⟨?_, ?_, fun x hx => ?_⟩⟩
    · show ∃ x, x ∈ log ++ [m] ∧ x.time = min m.time hdr.minTime
      rcases le_total m.time hdr.minTime with hlt | hlt
      · exact ⟨m, List.mem_append_right _ (List.mem_singleton_self m), (min_eq_left hlt).symm⟩
      · exact ⟨a, List.mem_append_left _ ha, hmin.trans (min_eq_right hlt).symm⟩
    · show ∃ x, x ∈ log ++ [m] ∧ x.time = max m.time hdr.maxTime
      rcases le_total m.time hdr.maxTime with hlt | hlt
      · exact ⟨b, List.mem_append_left _ hb, hmax.trans (max_eq_right hlt).symm⟩
      · exact ⟨m, List.mem_append_right _ (List.mem_singleton_self m), (max_eq_left hlt).symm⟩
    · show min m.time hdr.minTime ≤ x.time ∧ x.time ≤ max m.time hdr.maxTime
      rcases List.mem_append.mp hx with hx | hx
      · exact ⟨(min_le_right ..).trans (hle x hx).1, (hle x hx).2.trans (le_max_right ..)⟩
      · obtain rfl := List.mem_singleton.mp hx
        exact ⟨min_le_left .., le_max_left ..⟩

theorem Timed.minMaxAll {hdr : Header} {log : List Meas} (h : Timed hdr log) (ms : List Meas) :
    Timed (minMaxAll ms hdr) (log ++ ms) := by
  induction ms generalizing hdr log with
  | nil =>
    rw [List.append_nil]
    exact h
  | cons m ms ih =>
    rw [List.append_cons]
    exact ih (h.updateMinMax m)

/-! ### The filters -/

/-- What is accepted passes the filters, and so does what passed them before. -/
theorem acceptAll_passes {ms : List Meas} {p q : Page} {k : Nat} (h : acceptAll ms p = .ok (k, q)) {m : Meas}
    (hm : Passes p.header m ∨ m ∈ ms.take k) : Passes q.header m := by
  induction ms generalizing p k with
  | nil =>
    obtain ⟨rfl, rfl⟩ := acceptAll_nil h
    rcases hm with hm | hm
    · exact hm
    · exact absurd hm List.not_mem_nil
  | cons m' ms ih =>
    rcases acceptAll_cons h with ⟨-, rfl, rfl⟩ | ⟨-, w, n, -, -, hrest, rfl⟩
    · rcases hm with hm | hm
      · exact hm
      · exact absurd hm List.not_mem_nil
    · apply ih hrest
      rw [List.take_succ_cons, List.mem_cons] at hm
      rcases hm with hm | rfl | hm
      · exact .inl ⟨bloomCheck_add hm.id _, bloomCheck_add hm.flag _, bloomCheck_add hm.source _⟩
      · exact .inl ⟨bloomCheck_added .., bloomCheck_added .., bloomCheck_added ..⟩
      · exact .inr hm

/-! ### Runs -/

/-- The header of the page says what holds of `log`. -/
structure Summarises (log : List Meas) (p : Page) : Prop where
  timed : Timed p.header log
  passes : ∀ m, m ∈ log → Passes p.header m

theorem Summarises.create (fsize : U64) : Summarises [] (create fsize) :=
  ⟨⟨⟨nofun, fun h => absurd rfl h⟩, fun h => absurd rfl h⟩, fun _ hm => absurd hm List.not_mem_nil⟩

theorem Summarises.append {log : List Meas} {p p' : Page} {op : Op} {r : AppendResult} (h : Summarises log p)
    (hop : op.Sorted) (hrun : op.run p = .ok (r, p')) : Summarises (log ++ op.meases.take r.writed) p' := by
  obtain ⟨-, k, q, ix, ha, -, rfl, rfl⟩ := Op.run_iff.mp hrun
  constructor
  · -- what is accepted leaves the bounds alone
    have hq : Timed q.header log := acceptAll_keeps (P := fun q => Timed q.header log)
      (fun _ _ _ _ hp => ⟨hp.init, fun hne => ⟨(hp.bounds hne).minMem, (hp.bounds hne).maxMem, (hp.bounds hne).le⟩⟩)
      ha h.timed
    show Timed (op.minMax k q.header) _
    rw [hop.minMax (acceptAll_le ha)]
    exact hq.minMaxAll _
  · intro m hm
    have hpass : Passes q.header m := by
      rcases List.mem_append.mp hm with hm | hm
      · exact acceptAll_passes ha (.inl (h.passes m hm))
      · exact acceptAll_passes ha (.inr hm)
    obtain ⟨init, lo, hi, he⟩ := op.minMax_eq k q.header
    show Passes (op.minMax k q.header) m
    rw [he]
    exact ⟨hpass.id, hpass.flag, hpass.source⟩

theorem Summarises.appendAll {log new : List Meas} {ops : List Op} {p p' : Page} (h : Summarises log p)
    (hops : ∀ op, op ∈ ops → op.Sorted) (hrun : appendAll ops p = .ok (new, p')) : Summarises (log ++ new) p' := by
  apply appendAll_keeps (P := Summarises) _ h hrun
  intro op hop log p r p' hp hrun
  exact hp.append (hops op hop) hrun

/-- After any sorted appends the header has exactly the least and the greatest time, and no query
that asks for something the page holds passes the page over. -/
theorem page_summarised (fsize : U64) {ops : List Op} (hops : ∀ op, op ∈ ops → op.Sorted) {log : List Meas} {p : Page}
    (hrun : appendAll ops (create fsize) = .ok (log, p)) :
    (log ≠ [] → Bounds p.header log) ∧
      (∀ ids source flag m, m ∈ log → Asked ids source flag m → filteredOut ids source flag p.header = false) ∧
      (p.Layout → Stored fsize log p.rawData) := by
  have h := (Summarises.create fsize).appendAll hops hrun
  have hbuilt := appendAll_built (Built.create fsize) hrun
  rw [List.nil_append] at h hbuilt
  exact ⟨h.timed.bounds, fun ids source flag m hm ha => (h.passes m hm).filteredOut ha,
    fun hl => hbuilt.stored (hbuilt.areas.layout_iff.mp hl)⟩

/-- A single append and an array, and a query for the second measurement of the array. -/
theorem page_summarised_three : ∃ log p, appendAll [.single (.plain 6 4) (0, 0), .array [.plain 1 2, .plain 2 3]]
      (create (calcSize 3)) = .ok (log, p) ∧ p.header.minTime = 2 ∧ p.header.maxTime = 4 ∧ Bounds p.header log ∧
    filteredOut [2] 0 0 p.header = false := by
  obtain ⟨⟨log, p⟩, hrun, hok⟩ := exists_ok
    (x := appendAll [.single (.plain 6 4) (0, 0), .array [.plain 1 2, .plain 2 3]] (create (calcSize 3)))
    (p := fun x => decide (.plain 2 3 ∈ x.1 ∧ x.2.header.minTime = 2 ∧ x.2.header.maxTime = 4)) (by decide +kernel)
  obtain ⟨hmem, hmin, hmax⟩ := of_decide_eq_true hok
  obtain ⟨hbounds, hfilter, -⟩ := page_summarised (calcSize 3) (by decide) hrun
  exact ⟨log, p, hrun, hmin, hmax, hbounds (List.ne_nil_of_mem hmem),
    hfilter [2] 0 0 (.plain 2 3) hmem ⟨by decide, by decide, by decide⟩⟩

end Storage
end Nkvdb
