import Nkvdb.Page.Layout
import Nkvdb.Index.Find
import Mathlib.Data.List.GetD

/-! The records of a page and the positions they count.

Whatever is appended, the records written to the index of a page count each position that
was written once, and the times of a record are those of its first and its last
measurement. -/
namespace Nkvdb.Page
open Index

/-- A record that counts positions of `ms`, its times those at the two ends. -/
structure Counts (ms : List Meas) (r : IndexRecord) : Prop where
  nonempty : 0 < r.count
  inside : r.pos + r.count ≤ ms.length
  minTime : r.minTime = (nth ms r.pos).time
  maxTime : r.maxTime = (nth ms (r.pos + r.count - 1)).time

theorem nth_append_left {a : List Meas} {i : Nat} (b : List Meas) (h : i < a.length) : nth (a ++ b) i = nth a i := by
  unfold nth
  rw [List.getD_append a b _ i h]

theorem nth_append_right (a b : List Meas) (i : Nat) : nth (a ++ b) (a.length + i) = nth b i := by
  unfold nth
  rw [List.getD_append_right a b _ _ (Nat.le_add_right ..), Nat.add_sub_cancel_left]

theorem nth_take {ms : List Meas} {k i : Nat} (h : i < k) : nth (ms.take k) i = nth ms i := by
  unfold nth
  rw [List.getD_eq_getElem?_getD, List.getD_eq_getElem?_getD, List.getElem?_take_of_lt h]

theorem Counts.append {a : List Meas} {r : IndexRecord} (h : Counts a r) (b : List Meas) : Counts (a ++ b) r := by
  have hpos := h.nonempty
  have hin := h.inside
  refine ⟨hpos, ?_, ?_, ?_⟩
  · rw [List.length_append]
    omega
  · rw [h.minTime, nth_append_left b (by omega)]
  · rw [h.maxTime, nth_append_left b (by omega)]

/-! ### The records of an append -/

/-- A record of the elements from `start` on, of an array whose first element is stored at `pos`. -/
structure Cut (ms : List Meas) (pos k : Nat) (r : IndexRecord) : Prop where
  first : pos ≤ r.pos
  nonempty : 0 < r.count
  inside : r.pos + r.count ≤ pos + k
  minTime : r.minTime = (nth ms (r.pos - pos)).time
  maxTime : r.maxTime = (nth ms (r.pos - pos + r.count - 1)).time

theorem Cut.counts {log ms : List Meas} {k : Nat} {r : IndexRecord} (h : Cut ms log.length k r) (hk : k ≤ ms.length) :
    Counts (log ++ ms.take k) r := by
  obtain ⟨j, hj⟩ := Nat.exists_eq_add_of_le h.first
  have hpos := h.nonempty
  have hin := h.inside
  have hmin := h.minTime
  have hmax := h.maxTime
  rw [hj, Nat.add_sub_cancel_left] at hmin hmax
  refine ⟨hpos, ?_, ?_, ?_⟩
  · rw [List.length_append, List.length_take, Nat.min_eq_left hk]
    exact hin
  · rw [hmin, hj, nth_append_right, nth_take (by omega)]
  · have hlast : r.pos + r.count - 1 = log.length + (j + r.count - 1) := by omega
    rw [hmax, hlast, nth_append_right, nth_take (by omega)]

/-- The locals at element `i`: the records before count the positions before `start`. -/
structure Chunk.At (pos i : Nat) (c : Chunk) : Prop where
  writePosBegin : c.writePosBegin = pos + c.start
  start : c.start ≤ i
  full : i ≤ c.start + 100
  hundreds : c.start % 100 = 0
  first : c.start = i → i = 0

theorem Chunk.At.init (pos : Nat) : Chunk.At pos 0 ⟨pos, 0, 0, 0⟩ :=
  ⟨rfl, le_rfl, Nat.zero_le _, rfl, fun _ => rfl⟩

theorem chunkNext_positions (ms : List Meas) {pos i : Nat} {c : Chunk} (h : c.At pos i) :
    (chunkNext ms i c).1.At pos (i + 1) ∧ c.start ≤ (chunkNext ms i c).1.start ∧
      positions (chunkNext ms i c).2 = List.range' (pos + c.start) ((chunkNext ms i c).1.start - c.start) ∧
      ∀ r, r ∈ (chunkNext ms i c).2 → Cut ms pos (i + 1) r := by
  have hwp := h.writePosBegin
  have hs := h.start
  have hfull := h.full
  have h100 := h.hundreds
  have hfirst := h.first
  unfold chunkNext
  by_cases hi : i ≠ 0 ∧ i % 100 = 0
  · have hstart : i = c.start + 100 := by omega
    rw [if_pos hi]
    refine ⟨⟨?_, Nat.le_succ i, ?_, hi.2, ?_⟩, hs, ?_, fun r hr => ?_⟩
    · show c.writePosBegin + 100 = pos + i
      omega
    · show i + 1 ≤ i + 100
      omega
    · show i = i + 1 → _
      omega
    · show positions [_] = List.range' (pos + c.start) (i - c.start)
      rw [hstart, Nat.add_sub_cancel_left, ← hwp]
      exact List.append_nil _
    · obtain rfl := List.mem_singleton.mp hr
      have hoff : c.writePosBegin - pos = c.start := by omega
      refine ⟨?_, Nat.zero_lt_succ 99, ?_, ?_, ?_⟩
      · show pos ≤ c.writePosBegin
        omega
      · show c.writePosBegin + 100 ≤ pos + (i + 1)
        omega
      · show _ = (nth ms (c.writePosBegin - pos)).time
        rw [hoff]
      · show (nth ms (i - 1)).time = (nth ms (c.writePosBegin - pos + 100 - 1)).time
        rw [hoff, hstart]
  · rw [if_neg hi]
    refine ⟨⟨hwp, Nat.le_succ_of_le hs, ?_, h100, ?_⟩, le_rfl, ?_, fun r hr => absurd hr List.not_mem_nil⟩
    · show i + 1 ≤ c.start + 100
      omega
    · show c.start = i + 1 → _
      omega
    · show [] = List.range' (pos + c.start) (c.start - c.start)
      rw [Nat.sub_self]
      rfl

theorem Cut.mono {ms : List Meas} {pos k k' : Nat} {r : IndexRecord} (h : Cut ms pos k r) (hk : k ≤ k') :
    Cut ms pos k' r :=
  ⟨h.first, h.nonempty, h.inside.trans (Nat.add_le_add_left hk pos), h.minTime, h.maxTime⟩

theorem chunkLoop_positions (ms : List Meas) (k : Nat) {pos i : Nat} {c : Chunk} (h : c.At pos i) :
    (chunkLoop ms k i c).1.At pos (i + k) ∧ c.start ≤ (chunkLoop ms k i c).1.start ∧
      positions (chunkLoop ms k i c).2 = List.range' (pos + c.start) ((chunkLoop ms k i c).1.start - c.start) ∧
      ∀ r, r ∈ (chunkLoop ms k i c).2 → Cut ms pos (i + k) r := by
  induction k generalizing i c with
  | zero =>
    refine ⟨h, le_rfl, ?_, fun r hr => absurd hr List.not_mem_nil⟩
    show [] = List.range' (pos + c.start) (c.start - c.start)
    rw [Nat.sub_self]
    rfl
  | succ k ih =>
    obtain ⟨hn, hle, hpos, hcut⟩ := chunkNext_positions ms h
    obtain ⟨hn', hle', hpos', hcut'⟩ := ih hn
    have hi : i + 1 + k = i + (k + 1) := by omega
    rw [hi] at hn' hcut'
    refine ⟨hn', hle.trans hle', ?_, fun r hr => ?_⟩
    · show positions ((chunkNext ms i c).2 ++ (chunkLoop ms k (i + 1) (chunkNext ms i c).1).2) = _
      rw [positions_append, hpos, hpos']
      have hsum : (chunkLoop ms (k + 1) i c).1.start - c.start = ((chunkNext ms i c).1.start - c.start) +
          ((chunkLoop ms k (i + 1) (chunkNext ms i c).1).1.start - (chunkNext ms i c).1.start) := by
        show (chunkLoop ms k (i + 1) (chunkNext ms i c).1).1.start - c.start = _
        omega
      have hmid : pos + (chunkNext ms i c).1.start = pos + c.start + ((chunkNext ms i c).1.start - c.start) := by
        omega
      rw [hsum, hmid]
      exact List.range'_append_1
    · rcases List.mem_append.mp hr with hr | hr
      · exact (hcut r hr).mono (by omega)
      · exact hcut' r hr

/-- The records of an append of `k` measurements count the `k` positions from `pos` on. -/
theorem Op.records_positions (op : Op) (pos : Nat) {k : Nat} (hk : k ≤ op.meases.length) :
    positions (op.records pos k) = List.range' pos k ∧ ∀ r, r ∈ op.records pos k → Cut op.meases pos k r := by
  cases op with
  | single m junk =>
    rcases Nat.le_one_iff_eq_zero_or_eq_one.mp hk with rfl | rfl
    · exact ⟨rfl, fun r hr => absurd hr List.not_mem_nil⟩
    · refine ⟨List.append_nil _, fun r hr => ?_⟩
      obtain rfl := List.mem_singleton.mp hr
      refine ⟨le_rfl, Nat.one_pos, le_rfl, ?_, ?_⟩
      · show m.time = (nth [m] (pos - pos)).time
        rw [Nat.sub_self]
        rfl
      · show m.time = (nth [m] (pos - pos + 1 - 1)).time
        rw [Nat.sub_self]
        rfl
  | array ms =>
    obtain ⟨hat, -, hpos, hcut⟩ := chunkLoop_positions ms k (Chunk.At.init pos)
    rw [Nat.zero_add] at hat hcut
    obtain ⟨⟨c, recs⟩, hloop⟩ : ∃ x, chunkLoop ms k 0 ⟨pos, 0, 0, 0⟩ = x := ⟨_, rfl⟩
    have hrecords : (Op.array ms).records pos k = recs ++ lastRecord ms k c := by
      show (chunkLoop ms k 0 ⟨pos, 0, 0, 0⟩).2 ++ lastRecord ms k (chunkLoop ms k 0 ⟨pos, 0, 0, 0⟩).1 = _
      rw [hloop]
    rw [hloop] at hat hpos hcut
    have hwp : c.writePosBegin = pos + c.start := hat.writePosBegin
    have hs : c.start ≤ k := hat.start
    rw [hrecords, positions_append, hpos]
    unfold lastRecord
    by_cases hlast : c.start ≠ k
    · rw [if_pos hlast]
      constructor
      · show List.range' pos (c.start - 0) ++ (List.range' c.writePosBegin (k - c.start) ++ []) = _
        rw [List.append_nil, hwp, Nat.sub_zero]
        have := @List.range'_append_1 pos c.start (k - c.start)
        rwa [Nat.add_sub_of_le hs] at this
      · intro r hr
        rcases List.mem_append.mp hr with hr | hr
        · exact hcut r hr
        · obtain rfl := List.mem_singleton.mp hr
          have hoff : c.writePosBegin - pos = c.start := by omega
          refine ⟨?_, ?_, ?_, ?_, ?_⟩
          · show pos ≤ c.writePosBegin
            omega
          · show 0 < k - c.start
            omega
          · show c.writePosBegin + (k - c.start) ≤ pos + k
            omega
          · show _ = (nth ms (c.writePosBegin - pos)).time
            rw [hoff]
          · show (nth ms (k - 1)).time = (nth ms (c.writePosBegin - pos + (k - c.start) - 1)).time
            rw [hoff]
            congr 2
            omega
    · rw [if_neg hlast]
      obtain rfl := not_not.mp hlast
      refine ⟨List.append_nil _, fun r hr => ?_⟩
      rw [List.append_nil] at hr
      exact hcut r hr

/-! ### Runs -/

/-- The records of an append count the positions after those that were counted before. -/
theorem Op.records_tile {op : Op} {log : List Meas} {recs : List IndexRecord} {k : Nat} (hk : k ≤ op.meases.length)
    (hp : positions recs = List.range log.length) (hc : ∀ r, r ∈ recs → Counts log r) :
    positions (recs ++ op.records log.length k) = List.range (log ++ op.meases.take k).length ∧
      ∀ r, r ∈ recs ++ op.records log.length k → Counts (log ++ op.meases.take k) r := by
  obtain ⟨hpos, hcut⟩ := op.records_positions log.length hk
  constructor
  · rw [positions_append, hp, hpos, List.length_append, List.length_take, Nat.min_eq_left hk, List.range_eq_range',
      List.range_eq_range']
    have := @List.range'_append_1 0 log.length k
    rwa [Nat.zero_add] at this
  · intro r hr
    rcases List.mem_append.mp hr with hr | hr
    · exact (hc r hr).append _
    · exact (hcut r hr).counts hk

/-- The records written to the index of a page that holds `log`. -/
structure Posted (fsize : U64) (log : List Meas) (recs : List IndexRecord) (p : Page) : Prop where
  areas : Areas fsize log p
  logged : p.index.Logged (pageSizeToCount fsize / 10 / (treeN * treeN)) recs
  positions : positions recs = List.range log.length
  counts : ∀ r, r ∈ recs → Counts log r

theorem Posted.create (fsize : U64) : Posted fsize [] [] (create fsize) :=
  ⟨Areas.create fsize, Logged.create indexCacheSize _, rfl, fun _ hr => absurd hr List.not_mem_nil⟩

theorem Posted.append {fsize : U64} {log : List Meas} {recs : List IndexRecord} {p p' : Page} {op : Op}
    {r : AppendResult} (h : Posted fsize log recs p) (hrun : op.run p = .ok (r, p')) :
    Posted fsize (log ++ op.meases.take r.writed) (recs ++ op.records log.length r.writed) p' := by
  obtain ⟨-, k, q, ix, ha, hf, rfl, rfl⟩ := Op.run_iff.mp hrun
  obtain ⟨hpos, hcounts⟩ := Op.records_tile (acceptAll_le ha) h.positions h.counts
  rw [h.areas.writePos] at hf
  exact ⟨(acceptAll_taken h.areas ha).1.finish op k ix, (h.logged.feed hf).1, hpos, hcounts⟩

/-- A search of the index flushes it. -/
theorem Posted.flush {fsize : U64} {log : List Meas} {recs : List IndexRecord} {p : Page} {ix : Index}
    (h : Posted fsize log recs p) (hf : p.index.flush = .ok ix) : Posted fsize log recs {p with index := ix} :=
  ⟨⟨h.areas.size, h.areas.writePos, h.areas.writeValuePos, h.areas.records⟩, h.logged.flush hf, h.positions, h.counts⟩

theorem Posted.appendAll {fsize : U64} {log new : List Meas} {recs : List IndexRecord} {ops : List Op} {p p' : Page}
    (h : Posted fsize log recs p) (hrun : appendAll ops p = .ok (new, p')) :
    ∃ recs', Posted fsize (log ++ new) recs' p' := by
  apply appendAll_keeps (P := fun log p => ∃ recs, Posted fsize log recs p) _ ⟨recs, h⟩ hrun
  intro op _ log p r p' hp hop
  obtain ⟨recs, hp⟩ := hp
  exact ⟨_, hp.append hop⟩

/-- What the records count, as a set of positions. -/
theorem Posted.mem_positions {fsize : U64} {log : List Meas} {recs : List IndexRecord} {p : Page}
    (h : Posted fsize log recs p) {r : IndexRecord} (hr : r ∈ recs) {i : Nat} (hi : i ∈ r.positions) :
    i < p.header.writePos := by
  rw [h.areas.writePos, ← List.mem_range, ← h.positions]
  exact List.mem_flatMap.mpr ⟨r, hr, hi⟩

/-- Of the records that count each position once, one counts a given position. -/
theorem record_unique {log : List Meas} {recs : List IndexRecord} (hp : positions recs = List.range log.length)
    {r r' : IndexRecord} (hr : r ∈ recs) (hr' : r' ∈ recs) {i : Nat} (hi : i ∈ r.positions) (hi' : i ∈ r'.positions) :
    r = r' := by
  have hnodup : (positions recs).Nodup := hp ▸ List.nodup_range
  have hapart := (List.nodup_flatMap.mp hnodup).2
  have : Std.Symm (Function.onFun List.Disjoint IndexRecord.positions) := ⟨fun a b hab => hab.symm⟩
  by_contra hne
  exact hapart.forall hr hr' hne hi hi'

/-- Measurements with distinct times are told apart by them. -/
theorem nth_inj {log : List Meas} (hd : (log.map Meas.time).Nodup) {i j : Nat} (hi : i < log.length)
    (hj : j < log.length) (h : (nth log i).time = (nth log j).time) : i = j := by
  have hi' : i < (log.map Meas.time).length := by rwa [List.length_map]
  have hj' : j < (log.map Meas.time).length := by rwa [List.length_map]
  rw [nth_eq hi, nth_eq hj] at h
  refine hd.getElem_inj_iff.mp (show (log.map Meas.time)[i] = (log.map Meas.time)[j] from ?_)
  rw [List.getElem_map, List.getElem_map, h]

/-- Records of measurements with distinct times have distinct times. -/
theorem minTimes_nodup {log : List Meas} {recs : List IndexRecord} (hp : positions recs = List.range log.length)
    (hc : ∀ r, r ∈ recs → Counts log r) (ht : (log.map Meas.time).Nodup) : (recs.map IndexRecord.minTime).Nodup := by
  have hnodup : (positions recs).Nodup := hp ▸ List.nodup_range
  have hapart := (List.nodup_flatMap.mp hnodup).2
  unfold List.Nodup
  rw [List.pairwise_map]
  refine hapart.imp_of_mem fun {r r'} hr hr' hdisj he => ?_
  have hr₀ := hc r hr
  have hr₁ := hc r' hr'
  have hin := hr₀.inside
  have hin' := hr₁.inside
  have hpos := hr₀.nonempty
  have hpos' := hr₁.nonempty
  -- equal times are at one position, which both records count
  rw [hr₀.minTime, hr₁.minTime] at he
  have hsame : r.pos = r'.pos := nth_inj ht (by omega) (by omega) he
  refine @hdisj r.pos ?_ ?_
  · exact List.mem_range'_1.mpr ⟨le_rfl, by omega⟩
  · exact List.mem_range'_1.mpr ⟨hsame.ge, by omega⟩

end Nkvdb.Page
