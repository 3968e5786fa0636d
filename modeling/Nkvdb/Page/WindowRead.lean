import Nkvdb.Page.Backward
import Nkvdb.Page.Origin
import Nkvdb.Page.Reopen

/-! A read at a time point behind the page.

It is answered from the write window, which has the newest measurement of each id whatever its flag and
source are. These are looked at afterwards, so an id whose newest measurement does not match is left
out, though an older one would match (`windowRead_iff`). -/
namespace Nkvdb.Page

/-- The measurement is one that is asked for. -/
def Asked (ids : List Id) (source flag : Flag) (m : Meas) : Prop :=
  Matches source flag m ∧ (ids = [] ∨ m.id ∈ ids)

instance (source flag : Flag) : DecidablePred (Matches source flag) := fun m => by
  unfold Matches
  infer_instance

instance (ids : List Id) (source flag : Flag) : DecidablePred (Asked ids source flag) := fun m => by
  unfold Asked
  infer_instance

theorem checkValueFlags_iff {r : PageReader} {m : Meas} :
    r.checkValueFlags m = true ↔ Asked r.ids r.source r.flag m := by
  simp [PageReader.checkValueFlags, Asked, Matches, or_iff_not_imp_left]

/-- What is asked for of an id is asked for of all its measurements. -/
theorem Asked.of_matches {ids : List Id} {source flag : Flag} {m x : Meas} (h : Asked ids source flag m)
    (hid : x.id = m.id) (hx : Matches source flag x) : Asked ids source flag x :=
  ⟨hx, hid ▸ h.2⟩

/-- The newest of what is asked for, once for each id: of equal times the one written first. -/
structure DeliversNewest (ids : List Id) (source flag : Flag) (log out : List Meas) : Prop where
  once : (out.map Meas.id).Nodup
  newest : ∀ v, v ∈ out ↔
    FirstMax Meas.id Meas.time v.id (log.filter fun m => decide (Asked ids source flag m)) v

section
variable {ids : List Id} {source flag : Flag} {tp : Time} {prev : WriteWindow} {fuel : Nat} {p : Page}

/-- A page with nothing on it has no reader, and one that is left behind answers from its window. -/
theorem deliver_behind (htp : p.header.maxTime < tp) : (Query.timePoint tp).deliver ids source flag prev fuel p =
    .ok (if p.header.writePos = 0 then []
      else p.writeWindow.filter fun m => m.time != 0 && decide (Asked ids source flag m)) := by
  unfold Query.deliver readInTimePoint
  by_cases hpos : p.header.writePos = 0
  · simp [hpos]
  · have hcheck : (⟨ids, source, flag, prev⟩ : PageReader).checkValueFlags =
        fun m => decide (Asked ids source flag m) := by
      funext m
      rw [← Bool.coe_iff_coe, decide_eq_true_iff]
      exact checkValueFlags_iff
    have hread : (⟨ids, source, flag, prev⟩ : PageReader).timePointRead tp p =
        .ok (p.writeWindow.filter fun m => m.time != 0 && decide (Asked ids source flag m), p) := by
      rw [PageReader.timePointRead_behind htp, hcheck]
    simp only [if_neg hpos, PageReaderTimePoint.readNext, PageReaderTimePoint.isEnd, hread]
    rfl

/-- The slots of a window that are asked for are the newest of what is asked for if and only if the
newest of each id matches where any of its measurements does. -/
theorem tracks_newest_iff {log : List Meas} {w : WriteWindow} (h : WriteWindow.Tracks log w)
    (hpos : ∀ m, m ∈ log → 0 < m.time) :
    DeliversNewest ids source flag log (w.filter fun m => m.time != 0 && decide (Asked ids source flag m)) ↔
      ∀ m, m ∈ log → Asked ids source flag m → ∀ x, FirstMax Meas.id Meas.time m.id log x →
        Matches source flag x := by
  have hmem : ∀ v, v ∈ w.filter (fun m => m.time != 0 && decide (Asked ids source flag m)) ↔
      FirstMax Meas.id Meas.time v.id log v ∧ Asked ids source flag v := by
    intro v
    simp [← h.mem_iff hpos, and_assoc]
  constructor
  · intro hall m hm hasked x hx
    have hin : m ∈ log.filter fun m => decide (Asked ids source flag m) := by simpa using ⟨hm, hasked⟩
    obtain ⟨v, hv⟩ : ∃ v, FirstMax Meas.id Meas.time m.id (log.filter fun m => decide (Asked ids source flag m)) v :=
      FirstMax.exists_of_mem hin rfl
    have hid : v.id = m.id := hv.1
    rw [← hid] at hv hx
    obtain ⟨hfirst, hmatch⟩ := (hmem v).mp ((hall.newest v).mpr hv)
    rw [hx.unique hfirst]
    exact hmatch.1
  · intro hcond
    constructor
    case once =>
      refine h.once.sublist (List.Sublist.map _ (List.monotone_filter_right w fun m hm => ?_))
      exact (Bool.and_eq_true_iff.mp hm).1
    case newest =>
      intro v
      rw [hmem]
      constructor
      · rintro ⟨hfirst, hasked⟩
        exact hfirst.filter (decide_eq_true hasked)
      · intro hv
        obtain ⟨hv', hasked⟩ := List.mem_filter.mp hv.mem
        replace hasked := of_decide_eq_true hasked
        obtain ⟨x, hx⟩ : ∃ x, FirstMax Meas.id Meas.time v.id log x := FirstMax.exists_of_mem hv' rfl
        have hax := hasked.of_matches hx.1 (hcond v hv' hasked x hx)
        obtain rfl := hv.unique (hx.filter (p := fun m => decide (Asked ids source flag m)) (decide_eq_true hax))
        exact ⟨hx, hasked⟩

end

/-- The read of a page at a time point behind all of it gives, of each id asked for, the newest
measurement with the flag and the source if and only if for each id that has such a measurement the
newest of all its measurements is one. -/
theorem windowRead_iff (fsize : U64) {ops : List Op} {log : List Meas} {p : Page}
    (hrun : appendAll ops (create fsize) = .ok (log, p)) (hpos : ∀ m, m ∈ log → 0 < m.time) {tp : Time}
    (htp : p.header.maxTime < tp) (ids : List Id) (source flag : Flag) (prev : WriteWindow) (fuel : Nat) :
    ∃ out, (Query.timePoint tp).deliver ids source flag prev fuel p = .ok out ∧
      (DeliversNewest ids source flag log out ↔
        ∀ m, m ∈ log → Asked ids source flag m → ∀ x, FirstMax Meas.id Meas.time m.id log x →
          Matches source flag x) := by
  have h := (InUse.create fsize).appendAll hrun
  rw [List.nil_append] at h
  refine ⟨_, deliver_behind htp, ?_⟩
  by_cases hzero : p.header.writePos = 0
  · have hnil : log = [] := List.eq_nil_of_length_eq_zero (h.areas.writePos.symm.trans hzero)
    rw [if_pos hzero, hnil]
    refine iff_of_true ⟨List.nodup_nil, fun v => ?_⟩ fun m hm => absurd hm List.not_mem_nil
    exact iff_of_false List.not_mem_nil fun hv => absurd hv.mem List.not_mem_nil
  · rw [if_neg hzero]
    exact tracks_newest_iff h.tracks hpos

/-- An id whose flag does not change, and one that never has the flag. -/
theorem windowRead_iff_two : ∃ log p out,
    appendAll [.array [{Meas.plain 1 10 with flag := 1}, Meas.plain 2 20, {Meas.plain 1 30 with flag := 1}]]
      (create (calcSize 3)) = .ok (log, p) ∧
    (Query.timePoint 40).deliver [] 0 1 [] 0 p = .ok out ∧ out.length = 1 ∧ DeliversNewest [] 0 1 log out := by
  obtain ⟨⟨log, p⟩, hrun, hok⟩ := exists_ok
    (x := appendAll [.array [{Meas.plain 1 10 with flag := 1}, Meas.plain 2 20, {Meas.plain 1 30 with flag := 1}]]
      (create (calcSize 3)))
    (p := fun x : List Meas × Page => decide ((∀ m, m ∈ x.1 → 0 < m.time) ∧ x.2.header.maxTime < 40 ∧
        ∀ m, m ∈ x.1 → Asked [] 0 1 m → ∀ y, y ∈ x.1 → y.id = m.id → Matches 0 1 y) &&
      ((Query.timePoint 40).deliver [] 0 1 [] 0 x.2).toOption.any fun out : List Meas => decide (out.length = 1))
    (by decide +kernel)
  obtain ⟨hlog, hdeliver⟩ := Bool.and_eq_true_iff.mp hok
  obtain ⟨hpos, hmax, hsame⟩ := of_decide_eq_true hlog
  obtain ⟨out, hout, hlen⟩ := exists_ok hdeliver
  obtain ⟨out', hout', hiff⟩ := windowRead_iff (calcSize 3) hrun hpos hmax [] 0 1 [] 0
  obtain rfl := Except.ok.inj (hout.symm.trans hout')
  refine ⟨log, p, out, hrun, hout, of_decide_eq_true hlen, hiff.mpr fun m hm hasked x hx => ?_⟩
  exact hsame m hm hasked x hx.mem hx.1

/-- The id had flag 1 and has flag 2 now: asked for flag 1, it is not delivered. -/
theorem windowRead_drops : ∃ log p,
    appendAll [.single {Meas.plain 1 1 with flag := 1} (0, 0), .single {Meas.plain 1 2 with flag := 2} (0, 0)]
      (create (calcSize 2)) = .ok (log, p) ∧ p.header.maxTime < 3 ∧
    (Query.timePoint 3).deliver [] 0 1 [] 0 p = .ok [] ∧ ∃ m, m ∈ log ∧ Asked [] 0 1 m := by
  obtain ⟨⟨log, p⟩, hrun, hok⟩ := exists_ok
    (x := appendAll [.single {Meas.plain 1 1 with flag := 1} (0, 0), .single {Meas.plain 1 2 with flag := 2} (0, 0)]
      (create (calcSize 2)))
    (p := fun x : List Meas × Page => decide (x.2.header.maxTime < 3 ∧ ∃ m, m ∈ x.1 ∧ Asked [] 0 1 m) &&
      ((Query.timePoint 3).deliver [] 0 1 [] 0 x.2).toOption.any fun out : List Meas => decide (out = []))
    (by decide +kernel)
  obtain ⟨hlog, hdeliver⟩ := Bool.and_eq_true_iff.mp hok
  obtain ⟨hmax, hasked⟩ := of_decide_eq_true hlog
  obtain ⟨out, hout, hnil⟩ := exists_ok hdeliver
  obtain rfl := of_decide_eq_true hnil
  exact ⟨log, p, hrun, hmax, hout, hasked⟩

end Nkvdb.Page
