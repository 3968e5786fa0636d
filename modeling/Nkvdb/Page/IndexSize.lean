import Nkvdb.BTree.Size
import Nkvdb.Page.IndexFile
import Nkvdb.Page.IndexRoom

/-! How many records the index of a page has room for.

A node takes nine records at least once the root has been split, and nineteen at most, whatever the order
of their times. Single appends write a record each, which is far too many for the nodes that
`Page::Create` asks for; an array append writes one for a hundred measurements. -/
namespace Nkvdb.Page
variable {size done : Nat} {recs : List IndexRecord}

/-- Whatever the order of the times, these records fit. -/
theorem takes_of_lt (h : (recs.map IndexRecord.minTime).Nodup)
    (hfew : recs.length < (treeN - 1) * max 1 size) : Index.Takes size recs done := by
  have hsub := h.sublist ((List.take_sublist done recs).map IndexRecord.minTime)
  have hle := (BTree.nodesFor_bounds (N := treeN) (by decide) hsub).1
  rw [List.length_map, List.length_take] at hle
  refine (takes_iff h).mpr ?_
  unfold treeN at hle hfew ⊢
  omega

/-- And these are too many. -/
theorem takes_le (h : (recs.map IndexRecord.minTime).Nodup) (ht : Index.Takes size recs recs.length) :
    recs.length ≤ (2 * treeN - 1) * max 1 size := by
  have hsub := h.sublist ((List.take_sublist recs.length recs).map IndexRecord.minTime)
  have hle := (BTree.nodesFor_bounds (N := treeN) (by decide) hsub).2
  rw [List.length_map, List.take_length] at hle
  have hroom := (takes_iff h).mp ht
  rw [List.take_length] at hroom
  exact hle.trans (Nat.mul_le_mul_left _ hroom)

/-! ### One by one -/

/-- Each measurement in an append of its own. -/
def singly (calls : List (Meas × (Flag × Flag))) : List Op := calls.map fun c => .single c.1 c.2

theorem handed_singly (calls : List (Meas × (Flag × Flag))) : handed (singly calls) = calls.map Prod.fst := by
  induction calls with
  | nil => rfl
  | cons c calls ih => exact congrArg (c.1 :: ·) ih

theorem minTimes_singly (calls : List (Meas × (Flag × Flag))) (pos : Nat) :
    (opsRecords pos (singly calls)).map IndexRecord.minTime = calls.map fun c => c.1.time := by
  induction calls generalizing pos with
  | nil => rfl
  | cons c calls ih => exact congrArg (c.1.time :: ·) (ih (pos + 1))

/-- A page has a node for 750 of the measurements it is made for. -/
theorem Exact.indexNodes {n : Nat} (hn : Exact n) : indexNodes (calcSize n) = 64 * n / 48 / 10 / 100 := by
  unfold Page.indexNodes pageSizeToCount
  have hval : (calcSize n).val = 224 + 56 * n + 8 * n := hn
  have hle : word sizeofHeader ≤ calcSize n := by
    rw [Fin.le_def, hval]
    show 224 ≤ _
    omega
  rw [Fin.sub_val_of_le hle, hval]
  have hheader : (word sizeofHeader).val = 224 := rfl
  have hroom : 224 + 56 * n + 8 * n - 224 = 64 * n := by omega
  rw [hheader, hroom]
  rfl

/-- A page of `calcSize n` that is filled by single appends can be closed if and only if that is nineteen of them
or fewer, which fit into the root. -/
theorem filled_singly_iff {n : Nat} (hn : Exact n) (calls : List (Meas × (Flag × Flag))) (hlen : calls.length = n)
    (hsize : ∀ c, c ∈ calls → c.1.size.val ≤ 8) (hids : ∀ c, c ∈ calls → Indexable c.1)
    (htimes : (calls.map fun c => c.1.time).Nodup) :
    (∃ p f, appendAll (singly calls) (create (calcSize n)) = .ok (calls.map Prod.fst, p) ∧ p.close = .ok f) ↔
      n < 20 := by
  have hmem : ∀ m, m ∈ handed (singly calls) → ∃ c, c ∈ calls ∧ c.1 = m := by
    rw [handed_singly]
    exact fun m hm => List.mem_map.mp hm
  have hsmall : ∀ m, m ∈ handed (singly calls) → m.size.val ≤ 8 := by
    intro m hm
    obtain ⟨c, hc, rfl⟩ := hmem m hm
    exact hsize c hc
  have hhanded : (handed (singly calls)).length ≤ n := by
    rw [handed_singly, List.length_map, hlen]
  have ha := hn.admits hhanded hsmall
  have hsizes : ∀ m, m ∈ handed (singly calls) → m.size.val ≤ sizeofValue :=
    fun m hm => (hsmall m hm).trans (by decide)
  have hk := Index.Kept.create indexCacheSize (pageSizeToCount (calcSize n) / 10)
  have hnodup : ((opsRecords 0 (singly calls)).map IndexRecord.minTime).Nodup := by
    rwa [minTimes_singly]
  have hrecs : (opsRecords 0 (singly calls)).length = n := by
    rw [← List.length_map, minTimes_singly, List.length_map, hlen]
  constructor
  · rintro ⟨p, f, hrun, hclose⟩
    obtain ⟨-, -, -, hkept⟩ := appendAll_all (Holding.create (calcSize n)) hk ha hsizes hrun
    obtain ⟨ix, hflush, -⟩ := close_iff.mp hclose
    have htakes := (hkept.flush_iff.mp hflush).takes
    rw [List.nil_append] at htakes
    have hle := takes_le hnodup htakes
    have hnodes : indexNodes (calcSize n) = 64 * n / 48 / 10 / 100 := hn.indexNodes
    have hle' : n ≤ 19 * max 1 (indexNodes (calcSize n)) := hrecs ▸ hle
    omega
  · intro hfew
    have htakes : ∀ done, Index.Takes (indexNodes (calcSize n)) (opsRecords 0 (singly calls)) done := by
      intro done
      refine (takes_iff hnodup).mpr ?_
      rw [KeyLevels.nodesFor_few]
      · exact Nat.le_max_left ..
      · rw [List.length_map, List.length_take, hrecs]
        show _ < 2 * 10
        omega
    obtain ⟨p, hrun⟩ := appendAll_completes (Holding.create (calcSize n)) hk ha hsizes
      (fun m hm => by
        obtain ⟨c, hc, rfl⟩ := hmem m hm
        exact hids c hc) (htakes _)
    obtain ⟨-, -, -, hkept⟩ := appendAll_all (Holding.create (calcSize n)) hk ha hsizes hrun
    rw [List.nil_append] at hkept
    obtain ⟨ix, hix⟩ := Index.Kept.exists_of_takes indexCacheSize (Nat.le_refl _)
      (htakes (opsRecords 0 (singly calls)).length)
    rw [handed_singly] at hrun
    exact ⟨p, _, hrun, close_iff.mpr ⟨ix, hkept.flush_iff.mpr hix, rfl⟩⟩

theorem filled_singly_iff_two : ∃ p f, appendAll (singly [(.plain 3 1, (0, 0)), (.plain 1 5, (0, 0))])
    (create (calcSize 2)) = .ok ([.plain 3 1, .plain 1 5], p) ∧ p.close = .ok f :=
  (filled_singly_iff (n := 2) (by unfold Exact; decide) [(.plain 3 1, (0, 0)), (.plain 1 5, (0, 0))] rfl (by decide)
    (by unfold Indexable; decide) (by decide)).mpr (by decide)

/-! ### Arrays -/

/-- The records cut off on the way count a hundred measurements each. -/
theorem chunkLoop_hundreds (ms : List Meas) (k : Nat) {pos i : Nat} {c : Chunk} (h : c.At pos i) :
    100 * (chunkLoop ms k i c).2.length + c.start = (chunkLoop ms k i c).1.start := by
  induction k generalizing i c with
  | zero => exact Nat.zero_add _
  | succ k ih =>
    have hnext : 100 * (chunkNext ms i c).2.length + c.start = (chunkNext ms i c).1.start := by
      have hs := h.start
      have hfull := h.full
      have h100 := h.hundreds
      have hfirst := h.first
      unfold chunkNext
      by_cases hi : i ≠ 0 ∧ i % 100 = 0
      · rw [if_pos hi]
        show 100 * 1 + c.start = i
        omega
      · rw [if_neg hi]
        exact Nat.zero_add _
    have hrest := ih (chunkNext_positions ms h).1
    show 100 * ((chunkNext ms i c).2 ++ (chunkLoop ms k (i + 1) (chunkNext ms i c).1).2).length + c.start =
      (chunkLoop ms k (i + 1) (chunkNext ms i c).1).1.start
    rw [List.length_append]
    omega

/-- An array append writes a record for each hundred that it begins. -/
theorem length_records_array (ms : List Meas) (pos k : Nat) :
    ((Op.array ms).records pos k).length = (k + 99) / 100 := by
  have hat := (chunkLoop_positions ms k (Chunk.At.init pos)).1
  have hlen := chunkLoop_hundreds ms k (Chunk.At.init pos)
  rw [Nat.zero_add] at hat
  show ((chunkLoop ms k 0 ⟨pos, 0, 0, 0⟩).2 ++ lastRecord ms k (chunkLoop ms k 0 ⟨pos, 0, 0, 0⟩).1).length = _
  have hs := hat.start
  have hfull := hat.full
  have h100 := hat.hundreds
  have hfirst := hat.first
  have hzero : (⟨pos, 0, 0, 0⟩ : Chunk).start = 0 := rfl
  rw [hzero, Nat.add_zero] at hlen
  rw [List.length_append, lastRecord]
  by_cases hlast : (chunkLoop ms k 0 ⟨pos, 0, 0, 0⟩).1.start ≠ k
  · rw [if_pos hlast, List.length_singleton]
    omega
  · rw [if_neg hlast, List.length_nil]
    omega

/-- The number of appends. -/
def appendCount : List Call → Nat
  | [] => 0
  | .append _ :: calls => appendCount calls + 1
  | _ :: calls => appendCount calls

/-- The records that array appends write, and those of before. -/
theorem progress_records {fsize : U64} {calls : List Call}
    (hops : ∀ op, Call.append op ∈ calls → ∃ ms, op = .array ms) (s : Progress) :
    100 * (progress fsize (calls.map Call.event) s).recs.length + s.log.length ≤
      100 * s.recs.length + (progress fsize (calls.map Call.event) s).log.length + 99 * appendCount calls := by
  induction calls generalizing s with
  | nil => exact Nat.le_of_eq rfl
  | cons c calls ih =>
    have hrest := ih (fun op hop => hops op (List.mem_cons_of_mem _ hop)) (s.next fsize c.event)
    show 100 * (progress fsize (calls.map Call.event) (s.next fsize c.event)).recs.length + _ ≤
      _ + (progress fsize (calls.map Call.event) (s.next fsize c.event)).log.length + _
    cases c with
    | append op =>
      obtain ⟨ms, rfl⟩ := hops op List.mem_cons_self
      have hle := accepts_le fsize s.log ms
      have hlog : (s.next fsize (Call.append (.array ms)).event).log.length =
          s.log.length + accepts fsize s.log ms := by
        show (s.log ++ ms.take (accepts fsize s.log ms)).length = _
        rw [List.length_append, List.length_take, Nat.min_eq_left hle]
      have hnew : (s.next fsize (Call.append (.array ms)).event).recs.length =
          s.recs.length + (accepts fsize s.log ms + 99) / 100 := by
        show (s.recs ++ (Op.array ms).records s.log.length (accepts fsize s.log ms)).length = _
        rw [List.length_append, length_records_array]
      have hcount : appendCount (.append (.array ms) :: calls) = appendCount calls + 1 := rfl
      omega
    | flushIndex => exact hrest
    | findInIndex ids fromTime toTime flag source => exact hrest

/-- A page that array appends fill never runs out of nodes, in whatever order the times come, as long as the
hundreds of measurements it takes and the appends together stay below nine for each node. -/
theorem arrays_never_full {fsize : U64} {calls : List Call} (hops : ∀ op, Call.append op ∈ calls → ∃ ms, op = .array ms)
    (htimes : ((called fsize calls).log.map Meas.time).Nodup)
    (hfew : (called fsize calls).log.length / 100 + appendCount calls < 9 * max 1 (indexNodes fsize)) :
    NeverFull fsize calls := by
  have hrecs : 100 * (called fsize calls).recs.length + 0 ≤
      100 * 0 + (called fsize calls).log.length + 99 * appendCount calls := progress_records hops ⟨[], [], 0⟩
  refine NeverFull.of_takes (takes_of_lt ((called_tiled fsize calls).times htimes) ?_)
  show (called fsize calls).recs.length < 9 * max 1 (indexNodes fsize)
  omega

/-- Eight arrays and a flush after each, with times that go up and down. -/
theorem arrays_never_full_eight : NeverFull (calcSize 20)
    ((List.range 8).flatMap fun i => [.append (.array [.plain i (9 - i), .plain i (20 + i)]), .flushIndex]) := by
  refine arrays_never_full (fun op hop => ?_) (by decide +kernel) (by decide +kernel)
  obtain ⟨i, -, hop⟩ := List.mem_flatMap.mp hop
  rcases List.mem_cons.mp hop with hop | hop
  · exact ⟨_, Call.append.inj hop⟩
  · cases List.mem_singleton.mp hop

end Nkvdb.Page
