import Nkvdb.Page.Origin
import Nkvdb.Page.Sorted

/-! The records of the index as a summary of the page.

The records written by sorted appends divide the positions of the page among them, and the
times of each are the least and the greatest of what it counts (`records_summarise`). For an
unsorted array they are still those at its two ends, which is all that `Counts` says. -/
namespace Nkvdb.Page
open Index

/-- The records count every position below `n` once. -/
structure Tiles (n : Nat) (recs : List IndexRecord) : Prop where
  nonempty : ∀ r, r ∈ recs → 0 < r.count
  apart : recs.Pairwise fun r r' => List.Disjoint r.positions r'.positions
  union : ∀ i, i < n ↔ ∃ r, r ∈ recs ∧ r.pos ≤ i ∧ i < r.pos + r.count

/-- The record has the least and the greatest time of the measurements it counts. -/
structure Summary (log : List Meas) (r : IndexRecord) : Prop where
  minMem : ∃ i m, i ∈ r.positions ∧ log[i]? = some m ∧ m.time = r.minTime
  maxMem : ∃ i m, i ∈ r.positions ∧ log[i]? = some m ∧ m.time = r.maxTime
  le : ∀ i, i ∈ r.positions → ∃ m, log[i]? = some m ∧ r.minTime ≤ m.time ∧ m.time ≤ r.maxTime

theorem Tiles.of_positions {n : Nat} {recs : List IndexRecord} (hp : positions recs = List.range n)
    (hc : ∀ r, r ∈ recs → 0 < r.count) : Tiles n recs := by
  have hnodup : (positions recs).Nodup := hp ▸ List.nodup_range
  refine ⟨hc, (List.nodup_flatMap.mp hnodup).2, fun i => ?_⟩
  rw [← mem_positions, hp, List.mem_range]

/-- A record whose measurements are sorted. -/
theorem Counts.summary {log : List Meas} {r : IndexRecord} (h : Counts log r)
    (hs : ∀ i j, r.pos ≤ i → i ≤ j → j < r.pos + r.count → (nth log i).time ≤ (nth log j).time) : Summary log r := by
  have hpos := h.nonempty
  have hin := h.inside
  have hmem : ∀ i, i ∈ r.positions ↔ r.pos ≤ i ∧ i < r.pos + r.count := fun i => List.mem_range'_1
  constructor
  case minMem =>
    exact ⟨r.pos, _, (hmem _).mpr ⟨le_rfl, by omega⟩, getElem?_nth (by omega), h.minTime.symm⟩
  case maxMem =>
    exact ⟨r.pos + r.count - 1, _, (hmem _).mpr ⟨by omega, by omega⟩, getElem?_nth (by omega), h.maxTime.symm⟩
  case le =>
    intro i hi
    obtain ⟨hle, hlt⟩ := (hmem i).mp hi
    refine ⟨_, getElem?_nth (by omega), ?_, ?_⟩
    · rw [h.minTime]
      exact hs r.pos i le_rfl hle hlt
    · rw [h.maxTime]
      exact hs i (r.pos + r.count - 1) hle (by omega) (by omega)

theorem Summary.append {log : List Meas} {r : IndexRecord} (h : Summary log r) (b : List Meas) :
    Summary (log ++ b) r := by
  have hleft : ∀ {i : Nat} {m : Meas}, log[i]? = some m → (log ++ b)[i]? = some m := by
    intro i m hi
    rw [List.getElem?_append_left (List.getElem?_eq_some_iff.mp hi).1, hi]
  constructor
  case minMem =>
    obtain ⟨i, m, hi, hm, ht⟩ := h.minMem
    exact ⟨i, m, hi, hleft hm, ht⟩
  case maxMem =>
    obtain ⟨i, m, hi, hm, ht⟩ := h.maxMem
    exact ⟨i, m, hi, hleft hm, ht⟩
  case le =>
    intro i hi
    obtain ⟨m, hm, hle⟩ := h.le i hi
    exact ⟨m, hleft hm, hle⟩

/-- The records that a sorted append writes. -/
theorem Op.Sorted.summary {op : Op} (hop : op.Sorted) {log : List Meas} {k : Nat} (hk : k ≤ op.meases.length)
    {r : IndexRecord} (hr : r ∈ op.records log.length k) : Summary (log ++ op.meases.take k) r := by
  have hcut := (op.records_positions log.length hk).2 r hr
  have hfirst := hcut.first
  have hin := hcut.inside
  refine (hcut.counts hk).summary fun i j hi hij hj => ?_
  obtain ⟨a, rfl⟩ := Nat.exists_eq_add_of_le (hfirst.trans hi)
  obtain ⟨b, rfl⟩ := Nat.exists_eq_add_of_le (hfirst.trans (hi.trans hij))
  rw [nth_append_right, nth_append_right, nth_take (by omega), nth_take (by omega)]
  exact nth_time_le hop (by omega) (by omega)

/-! ### Runs -/

/-- The page holds `log`; `recs` were written to its index one after the other, and each has the
least and the greatest time of what it counts. -/
structure Summarised (fsize : U64) (log : List Meas) (recs : List IndexRecord) (p : Page) : Prop where
  posted : Posted fsize log recs p
  fed : (create fsize).index.feed recs = .ok p.index
  summary : ∀ r, r ∈ recs → Summary log r

theorem Summarised.create (fsize : U64) : Summarised fsize [] [] (create fsize) :=
  ⟨Posted.create fsize, rfl, fun _ hr => absurd hr List.not_mem_nil⟩

theorem Summarised.append {fsize : U64} {log : List Meas} {recs : List IndexRecord} {p p' : Page} {op : Op}
    {r : AppendResult} (h : Summarised fsize log recs p) (hop : op.Sorted) (hrun : op.run p = .ok (r, p')) :
    Summarised fsize (log ++ op.meases.take r.writed) (recs ++ op.records log.length r.writed) p' := by
  have hposted := h.posted.append hrun
  obtain ⟨-, k, q, ix, ha, hf, rfl, rfl⟩ := Op.run_iff.mp hrun
  rw [h.posted.areas.writePos] at hf
  refine ⟨hposted, ?_, fun x hx => ?_⟩
  · rw [feed_append, h.fed]
    exact hf
  · rcases List.mem_append.mp hx with hx | hx
    · exact (h.summary x hx).append _
    · exact hop.summary (acceptAll_le ha) hx

theorem Summarised.appendAll {fsize : U64} {log new : List Meas} {recs : List IndexRecord} {ops : List Op} {p p' : Page}
    (h : Summarised fsize log recs p) (hops : ∀ op, op ∈ ops → op.Sorted) (hrun : appendAll ops p = .ok (new, p')) :
    ∃ recs', Summarised fsize (log ++ new) recs' p' := by
  apply appendAll_keeps (P := fun log p => ∃ recs, Summarised fsize log recs p) _ ⟨recs, h⟩ hrun
  intro op hop log p r p' hp hrun
  obtain ⟨recs, hp⟩ := hp
  exact ⟨_, hp.append (hops op hop) hrun⟩

theorem appendAll_built {fsize : U64} {log new carried : List Meas} {ops : List Op} {p p' : Page}
    (h : Built fsize log carried p) (hrun : appendAll ops p = .ok (new, p')) : Built fsize (log ++ new) carried p' := by
  apply appendAll_keeps (P := fun log p => Built fsize log carried p) _ h hrun
  intro op _ log p r p' hp hop
  exact hp.append hop

/-- The records that sorted appends write to the index of a page count each of its positions once,
and each has the least and the greatest time of the measurements it counts, which are those
that lie at its positions while the areas are apart. -/
theorem records_summarise (fsize : U64) {ops : List Op} (hops : ∀ op, op ∈ ops → op.Sorted) {log : List Meas} {p : Page}
    (hrun : appendAll ops (create fsize) = .ok (log, p)) :
    ∃ recs, (create fsize).index.feed recs = .ok p.index ∧ Tiles p.header.writePos recs ∧
      (∀ r, r ∈ recs → Summary log r) ∧ (p.Layout → Stored fsize log p.rawData) := by
  obtain ⟨recs, h⟩ := (Summarised.create fsize).appendAll hops hrun
  have hbuilt := appendAll_built (Built.create fsize) hrun
  rw [List.nil_append] at h hbuilt
  refine ⟨recs, h.fed, ?_, h.summary, fun hl => hbuilt.stored (hbuilt.areas.layout_iff.mp hl)⟩
  rw [h.posted.areas.writePos]
  exact Tiles.of_positions h.posted.positions fun r hr => (h.posted.counts r hr).nonempty

/-- An array cut short: the page takes two of its three measurements. -/
theorem records_summarise_cut : ∃ log p recs, log.length = 3 ∧
    appendAll [.single (.plain 0 4) (0, 0), .array [.plain 1 2, .plain 2 3, .plain 0 9]] (create (calcSize 3)) =
      .ok (log, p) ∧
    (create (calcSize 3)).index.feed recs = .ok p.index ∧ Tiles p.header.writePos recs ∧
    (∀ r, r ∈ recs → Summary log r) ∧ (p.Layout → Stored (calcSize 3) log p.rawData) := by
  obtain ⟨⟨log, p⟩, hrun, hlen⟩ := exists_ok
    (x := appendAll [.single (.plain 0 4) (0, 0), .array [.plain 1 2, .plain 2 3, .plain 0 9]] (create (calcSize 3)))
    (p := fun x => decide (x.1.length = 3)) (by decide +kernel)
  obtain ⟨recs, h⟩ := records_summarise (calcSize 3) (by decide) hrun
  exact ⟨log, p, recs, of_decide_eq_true hlen, hrun, h⟩

end Nkvdb.Page
