import Nkvdb.BTree.Growth
import Nkvdb.Page.Records
import Nkvdb.Page.Reopen

/-! The nodes that the index of a page needs.

The file has nodes for a thousandth of the records that fit into the page, while appends of
one measurement write a record each. The nodes that the records flushed to the tree need
are `KeyLevels.nodesFor` of their times, and `make_node` throws where these are too many. -/
namespace Nkvdb.Page

/-- A call on a page that is open for appends. -/
inductive Call where
  | append (op : Op)
  | flushIndex
  | findInIndex (ids : List Id) (fromTime toTime : Time) (flag source : Flag)

def Call.run : Call → Page → Except Fault (List Meas × Page)
  | .append op, p => do
    let (r, p) ← op.run p
    return (op.meases.take r.writed, p)
  | .flushIndex, p => do
    let p ← p.flushIndex
    return ([], p)
  | .findInIndex ids fromTime toTime flag source, p => do
    let (_, ix) ← p.index.findInIndex ids fromTime toTime flag source
    return ([], {p with index := ix})

def callAll : List Call → Page → Except Fault (List Meas × Page)
  | [], p => .ok ([], p)
  | c :: calls, p => do
    let (new, p) ← c.run p
    let (log, p) ← callAll calls p
    return (new ++ log, p)

/-- A flush puts the records into the tree as closing the page does. -/
def Call.event : Call → Event
  | .append op => .append op
  | .flushIndex => .reopen
  | .findInIndex .. => .reopen

/-- What a run of calls accepts, the records it writes and how many of them it flushes. -/
def called (fsize : U64) (calls : List Call) : Progress := progress fsize (calls.map Call.event) ⟨[], [], 0⟩

/-! ### What a call asks of the tree -/

/-- A page that got so far. -/
structure Going (fsize : U64) (s : Progress) (p : Page) : Prop where
  areas : Areas fsize s.log p
  kept : Index.Kept indexCacheSize (indexNodes fsize) s.recs s.done p.index

theorem Going.create (fsize : U64) : Going fsize ⟨[], [], 0⟩ (create fsize) :=
  ⟨Areas.create fsize, Index.Kept.create ..⟩

theorem findNode_fault {t : IndexTree} {key : Time} {e : Fault} (h : t.findNode key = .error e) : e = .outOfFuel := by
  have hfind : ∀ fuel cur, t.inerFind key fuel cur = .error e → e = .outOfFuel := by
    intro fuel
    induction fuel with
    | zero => exact fun _ h => (Except.error.inj h).symm
    | succ fuel ih =>
      intro cur h
      simp only [BTree.inerFind] at h
      split at h
      · cases h
      · repeat' split at h
        all_goals first | exact ih _ h | cases h
  unfold BTree.findNode at h
  cases hf : t.inerFind key t.cachePos t.root with
  | error e' =>
    rw [hf] at h
    obtain rfl : e' = e := Except.error.inj h
    exact hfind _ _ hf
  | ok x =>
    rw [hf] at h
    cases x <;> cases h

theorem walk_fault {want : IndexRecord → Bool} {t : IndexTree} {stop fuel cur : Nat} {found : Index.Found} {e : Fault}
    (h : Index.walk want t stop fuel cur found = .error e) : e = .outOfFuel := by
  induction fuel generalizing cur found with
  | zero => exact (Except.error.inj h).symm
  | succ fuel ih =>
    unfold Index.walk at h
    split at h
    · dsimp only at h
      split at h
      · cases h
      · exact ih h
    · cases h

/-- The only node that a search of the index makes is made by its flush. -/
theorem findInIndex_full {ids : List Id} {fromTime toTime : Time} {flag source : Flag} {ix : Index}
    (h : ix.findInIndex ids fromTime toTime flag source = .error .cacheIsFull) : ix.flush = .error .cacheIsFull := by
  rcases bind_error h with hf | ⟨ix₁, -, h⟩
  · exact hf
  rcases bind_error h with hs | ⟨start, -, h⟩
  · cases findNode_fault hs
  rcases bind_error h with hs | ⟨stop, -, h⟩
  · cases findNode_fault hs
  rcases bind_error h with hw | ⟨found, -, h⟩
  · cases walk_fault hw
  · cases h

/-- What a call that completes leaves. -/
theorem Going.run {fsize : U64} {s : Progress} {p p' : Page} {c : Call} {new : List Meas} (h : Going fsize s p)
    (hrun : c.run p = .ok (new, p')) :
    Going fsize (s.next fsize c.event) p' ∧ (s.next fsize c.event).log = s.log ++ new := by
  -- a flush changes the index alone
  have hflush : ∀ ix, p.index.flush = .ok ix → Going fsize (s.next fsize .reopen) {p with index := ix} :=
    fun ix hf => ⟨⟨h.areas.size, h.areas.writePos, h.areas.writeValuePos, h.areas.records⟩, h.kept.flush_iff.mp hf⟩
  cases c with
  | append op =>
    obtain ⟨⟨r, p₁⟩, hop, hrun⟩ := bind_ok hrun
    obtain ⟨rfl, rfl⟩ := Prod.mk.inj (Except.ok.inj hrun)
    obtain ⟨-, k, q, ix, hacc, hf, rfl, rfl⟩ := Op.run_iff.mp hop
    obtain rfl := acceptAll_accepts h.areas hacc
    rw [h.areas.writePos] at hf
    refine ⟨⟨(acceptAll_taken h.areas hacc).1.finish op _ ix, ?_⟩, rfl⟩
    exact (h.kept.feed_iff _).mp hf
  | flushIndex =>
    obtain ⟨p₁, hf, hrun⟩ := bind_ok hrun
    obtain ⟨ix, hix, rfl⟩ := flushIndex_iff.mp hf
    obtain ⟨rfl, rfl⟩ := Prod.mk.inj (Except.ok.inj hrun)
    exact ⟨hflush ix hix, (List.append_nil _).symm⟩
  | findInIndex ids fromTime toTime flag source =>
    obtain ⟨⟨recs, ix⟩, hf, hrun⟩ := bind_ok hrun
    obtain ⟨rfl, rfl⟩ := Prod.mk.inj (Except.ok.inj hrun)
    exact ⟨hflush ix (Index.findInIndex_flush hf), (List.append_nil _).symm⟩

/-! ### Where an append runs out of nodes -/

/-- The loop runs out of nodes at one of the records it is to write. -/
theorem appendLoop_full {fsize : U64} {log ms : List Meas} {n i : Nat} {s : Cursor} (hn : i + n = ms.length)
    (ha : Areas fsize log s.page) (herr : appendLoop ms n i s = .error .cacheIsFull) :
    ∃ new, new <+: (chunkLoop ms (accepts fsize log (ms.drop i)) i s.chunk).2 ∧
      s.page.index.feed new = .error .cacheIsFull := by
  induction n generalizing log i s with
  | zero => cases herr
  | succ n ih =>
    have hlt : i < ms.length := by omega
    rw [List.drop_eq_getElem_cons hlt, ← nth_eq hlt]
    unfold appendLoop at herr
    unfold accepts
    by_cases hfull : s.page.isFull = true
    · rw [if_pos hfull] at herr
      cases herr
    rw [if_neg hfull] at herr
    rw [if_neg fun hf => hfull (ha.isFull_iff.mpr hf), chunkLoop]
    cases hp : put (nth ms i) s.page with
    | error e =>
      simp only [appendNext, hp, bind, Except.bind, Except.error.injEq] at herr
      rw [herr] at hp
      rcases put_fault hp with he | he | he <;> cases he
    | ok p₁ =>
      obtain ⟨w, hw, hroom, rfl⟩ := put_iff.mp hp
      cases hx : s.page.index.feed (chunkNext ms i s.chunk).2 with
      | error e =>
        rw [appendNext_eq, hp] at herr
        simp only [Except.bind, put_index hp, hx, Except.map, bind, Except.error.injEq] at herr
        exact ⟨_, List.prefix_append .., by rw [hx, herr]⟩
      | ok ix₁ =>
        have hnext := appendNext_iff.mpr ⟨_, ix₁, hp, hx, rfl⟩
        simp only [hnext, bind, Except.bind] at herr
        have hareas := ha.put hroom w
        have hnext' : Areas fsize (log ++ [nth ms i]) {(withMeas (nth ms i) w s.page).advance with index := ix₁} :=
          ⟨hareas.size, hareas.writePos, hareas.writeValuePos, hareas.records⟩
        obtain ⟨new, hnew, hfeed⟩ := ih (by omega) hnext' herr
        refine ⟨(chunkNext ms i s.chunk).2 ++ new, (List.prefix_append_right_inj _).mpr hnew, ?_⟩
        rw [Index.feed_append, hx]
        exact hfeed

/-- An append runs out of nodes at one of the records it is to write. -/
theorem Op.run_full {fsize : U64} {log : List Meas} {op : Op} {p : Page} (ha : Areas fsize log p)
    (herr : op.run p = .error .cacheIsFull) :
    ∃ new, new <+: op.records log.length (accepts fsize log op.meases) ∧ p.index.feed new = .error .cacheIsFull := by
  cases op with
  | single m junk =>
    replace herr : p.append m junk = .error .cacheIsFull := herr
    rw [append_eq] at herr
    split at herr
    · cases herr
    split at herr
    · cases herr
    next hfull =>
      have hone : accepts fsize log [m] = 1 := by
        unfold accepts
        rw [if_neg fun hf => hfull (ha.isFull_iff.mpr hf), accepts]
      cases hp : put m p with
      | error e =>
        rw [hp] at herr
        rw [Except.error.inj herr] at hp
        rcases put_fault hp with he | he | he <;> cases he
      | ok q =>
        obtain ⟨w, -, -, rfl⟩ := put_iff.mp hp
        rw [hp] at herr
        replace herr : Except.map _ (p.index.writeIndexRec ⟨p.header.writePos, 1, m.time, m.time, m.id, m.id, junk.1,
          junk.2⟩) = .error .cacheIsFull := herr
        rw [ha.writePos] at herr
        refine ⟨_, List.prefix_rfl, ?_⟩
        show p.index.feed ((Op.single m junk).records log.length (accepts fsize log [m])) = _
        rw [hone]
        show p.index.feed [_] = _
        rw [Index.feed_one]
        cases hw : p.index.writeIndexRec ⟨log.length, 1, m.time, m.time, m.id, m.id, junk.1, junk.2⟩ with
        | ok ix =>
          rw [hw] at herr
          cases herr
        | error e =>
          rw [hw] at herr
          rw [Except.error.inj herr]
  | array ms =>
    replace herr : p.appendArray ms = .error .cacheIsFull := herr
    rw [appendArray_eq, ha.writePos] at herr
    cases hloop : appendLoop ms ms.length 0 ⟨p, log.length, 0, 0, 0⟩ with
    | error e =>
      rw [hloop] at herr
      obtain rfl : e = _ := Except.error.inj herr
      obtain ⟨new, hnew, hfeed⟩ := appendLoop_full (Nat.zero_add _) ha hloop
      exact ⟨new, hnew.trans (List.prefix_append ..), hfeed⟩
    | ok x =>
      obtain ⟨j, s⟩ := x
      obtain ⟨k, q, ix, hacc, hf, hj, rfl⟩ := (appendLoop_iff (Nat.zero_add _)).mp hloop
      obtain rfl : k = accepts fsize log ms := acceptAll_accepts ha hacc
      obtain rfl : j = accepts fsize log ms := by omega
      rw [hloop] at herr
      replace herr : Except.map _ (ix.feed (lastRecord ms (accepts fsize log ms)
        (chunkLoop ms (accepts fsize log ms) 0 ⟨log.length, 0, 0, 0⟩).1)) = .error .cacheIsFull := herr
      cases hx : ix.feed (lastRecord ms (accepts fsize log ms)
          (chunkLoop ms (accepts fsize log ms) 0 ⟨log.length, 0, 0, 0⟩).1) with
      | ok ix' =>
        rw [hx] at herr
        cases herr
      | error e =>
        rw [hx] at herr
        refine ⟨_, List.prefix_rfl, ?_⟩
        show p.index.feed (_ ++ _) = _
        rw [Index.feed_append]
        replace hf : p.index.feed (chunkLoop ms (accepts fsize log ms) 0 ⟨log.length, 0, 0, 0⟩).2 = .ok ix := hf
        show (p.index.feed (chunkLoop ms (accepts fsize log ms) 0 ⟨log.length, 0, 0, 0⟩).2 >>= _) = _
        rw [hf]
        exact hx.trans (congrArg _ (Except.error.inj herr))

/-- A call that the tree has the nodes for does not run out of them. -/
theorem Going.spared {fsize : U64} {s : Progress} {p : Page} {c : Call} (h : Going fsize s p)
    (ht : Index.Takes (indexNodes fsize) (s.next fsize c.event).recs (s.next fsize c.event).done) :
    c.run p ≠ .error .cacheIsFull := by
  have hflush : Index.Takes (indexNodes fsize) s.recs s.recs.length → p.index.flush ≠ .error .cacheIsFull := by
    intro ht he
    obtain ⟨ix, hk⟩ := Index.Kept.exists_of_takes indexCacheSize le_rfl ht
    rw [h.kept.flush_iff.mpr hk] at he
    cases he
  intro herr
  cases c with
  | append op =>
    rcases bind_error herr with hop | ⟨⟨r, p₁⟩, -, hret⟩
    · obtain ⟨new, ⟨rest, hnew⟩, hfeed⟩ := Op.run_full h.areas hop
      replace ht : Index.Takes (indexNodes fsize) (s.recs ++ op.records s.log.length (accepts fsize s.log op.meases))
          (Index.lastFlush indexCacheSize s.recs.length s.done
            (op.records s.log.length (accepts fsize s.log op.meases)).length) := ht
      rw [← hnew, List.length_append, Index.lastFlush_add, ← List.append_assoc] at ht
      have hd := Index.lastFlush_bounds indexCacheSize new.length h.kept.le
      have hd' := Index.lastFlush_bounds indexCacheSize rest.length hd.2
      have hlen : Index.lastFlush indexCacheSize s.recs.length s.done new.length ≤ (s.recs ++ new).length := by
        rw [List.length_append]
        exact hd.2
      obtain ⟨ix, hk⟩ := Index.Kept.exists_of_takes indexCacheSize hlen (ht.le hd'.1 hlen)
      rw [(h.kept.feed_iff new).mpr hk] at hfeed
      cases hfeed
    · cases hret
  | flushIndex =>
    rcases bind_error herr with hf | ⟨p₁, -, hret⟩
    · rcases bind_error hf with hf | ⟨ix, -, hret⟩
      · exact hflush ht hf
      · cases hret
    · cases hret
  | findInIndex ids fromTime toTime flag source =>
    rcases bind_error herr with hf | ⟨x, -, hret⟩
    · exact hflush ht (findInIndex_full hf)
    · cases hret

/-! ### Whole runs -/

theorem Going.runAll {fsize : U64} {s : Progress} {p p' : Page} {calls : List Call} {log : List Meas}
    (h : Going fsize s p) (hrun : callAll calls p = .ok (log, p')) :
    Going fsize (progress fsize (calls.map Call.event) s) p' ∧
      (progress fsize (calls.map Call.event) s).log = s.log ++ log := by
  induction calls generalizing s p log with
  | nil =>
    obtain ⟨rfl, rfl⟩ := Prod.mk.inj (Except.ok.inj hrun)
    exact ⟨h, (List.append_nil _).symm⟩
  | cons c calls ih =>
    obtain ⟨⟨new, p₁⟩, h₁, hrun⟩ := bind_ok hrun
    obtain ⟨⟨rest, p₂⟩, h₂, hrun⟩ := bind_ok hrun
    obtain ⟨rfl, rfl⟩ := Prod.mk.inj (Except.ok.inj hrun)
    obtain ⟨hn, hlog⟩ := h.run h₁
    obtain ⟨hg, hlog'⟩ := ih hn h₂
    refine ⟨hg, hlog'.trans ?_⟩
    rw [hlog, List.append_assoc]

theorem Going.sparedAll {fsize : U64} {s : Progress} {p : Page} {calls : List Call} (h : Going fsize s p)
    (ht : Index.Takes (indexNodes fsize) (progress fsize (calls.map Call.event) s).recs
      (progress fsize (calls.map Call.event) s).done) : callAll calls p ≠ .error .cacheIsFull := by
  induction calls generalizing s p with
  | nil => exact nofun
  | cons c calls ih =>
    intro herr
    rcases bind_error herr with hc | ⟨⟨new, p₁⟩, h₁, herr⟩
    · obtain ⟨-, hb, -⟩ := s.next_bounds fsize c.event h.kept.le
      obtain ⟨hd, rest, hrest⟩ := progress_bounds fsize (calls.map Call.event) (s.next fsize c.event) hb
      replace ht : Index.Takes (indexNodes fsize)
          (progress fsize (calls.map Call.event) (s.next fsize c.event)).recs
          (progress fsize (calls.map Call.event) (s.next fsize c.event)).done := ht
      rw [← hrest] at ht
      exact h.spared (ht.le hd hb) hc
    · rcases bind_error herr with hr | ⟨x, -, hret⟩
      · exact ih (h.run h₁).1 ht hr
      · cases hret

/-! ### The times of the records -/

theorem accepts_le (fsize : U64) (log ms : List Meas) : accepts fsize log ms ≤ ms.length := by
  induction ms generalizing log with
  | nil => exact le_rfl
  | cons m ms ih =>
    unfold accepts
    split
    · exact Nat.zero_le _
    · exact Nat.succ_le_succ (ih _)

/-- The records count every measurement once. -/
structure Tiled (s : Progress) : Prop where
  positions : Index.positions s.recs = List.range s.log.length
  counts : ∀ r, r ∈ s.recs → Counts s.log r

theorem Tiled.next {fsize : U64} {s : Progress} (h : Tiled s) (e : Event) : Tiled (s.next fsize e) := by
  cases e with
  | append op =>
    obtain ⟨hpos, hcounts⟩ := Op.records_tile (accepts_le fsize s.log op.meases) h.positions h.counts
    exact ⟨hpos, hcounts⟩
  | reopen => exact ⟨h.positions, h.counts⟩

theorem Tiled.progress {fsize : U64} (events : List Event) {s : Progress} (h : Tiled s) :
    Tiled (Page.progress fsize events s) := by
  induction events generalizing s with
  | nil => exact h
  | cons e events ih => exact ih (h.next e)

theorem Tiled.times {s : Progress} (h : Tiled s) (ht : (s.log.map Meas.time).Nodup) :
    (s.recs.map IndexRecord.minTime).Nodup :=
  minTimes_nodup h.positions h.counts ht

/-- The tree of an index file takes records with distinct times if it has the nodes. -/
theorem takes_iff {size done : Nat} {recs : List IndexRecord} (h : (recs.map IndexRecord.minTime).Nodup) :
    Index.Takes size recs done ↔
      KeyLevels.nodesFor treeN ((recs.take done).map IndexRecord.minTime) ≤ max 1 size := by
  have hkeys : (Index.keyed (recs.take done)).map Prod.fst = (recs.take done).map IndexRecord.minTime :=
    List.map_map
  have hsub : ((recs.take done).map IndexRecord.minTime).Nodup := h.sublist ((List.take_sublist done recs).map _)
  rw [← hkeys] at hsub ⊢
  exact BTree.insertAll_fits (by decide) size hsub

/-! ### No call runs out of nodes -/

/-- The run does not reach the throw of `make_node`; and where it completes, every measurement
accepted is counted by one record that the index was given. -/
structure NeverFull (fsize : U64) (calls : List Call) : Prop where
  spared : callAll calls (create fsize) ≠ .error .cacheIsFull
  indexed : ∀ log p, callAll calls (create fsize) = .ok (log, p) → ∃ recs, Posted fsize log recs p

theorem called_tiled (fsize : U64) (calls : List Call) : Tiled (called fsize calls) :=
  Tiled.progress (calls.map Call.event) ⟨rfl, fun _ hr => absurd hr List.not_mem_nil⟩

theorem NeverFull.of_takes {fsize : U64} {calls : List Call}
    (ht : Index.Takes (indexNodes fsize) (called fsize calls).recs (called fsize calls).done) :
    NeverFull fsize calls := by
  refine ⟨(Going.create fsize).sparedAll ht, fun log p hc => ?_⟩
  obtain ⟨hg, hlog⟩ := (Going.create fsize).runAll hc
  have htiled := called_tiled fsize calls
  rw [List.nil_append] at hlog
  rw [← hlog]
  exact ⟨(called fsize calls).recs, hg.areas, hg.kept.logged, htiled.positions, htiled.counts⟩

/-- Nineteen records or fewer fit into the root, which every index file has. -/
theorem NeverFull.few {fsize : U64} {calls : List Call}
    (htimes : ((called fsize calls).log.map Meas.time).Nodup) (hfew : (called fsize calls).recs.length < 20) :
    NeverFull fsize calls := by
  refine of_takes ((takes_iff ((called_tiled fsize calls).times htimes)).mpr ?_)
  rw [KeyLevels.nodesFor_few]
  · exact Nat.le_max_left ..
  · rw [List.length_map, List.length_take]
    show _ < 2 * 10
    omega

/-- Twenty measurements one by one, and a flush, on a page of `calcSize 20`: their records need
three nodes, and the index file has one. -/
theorem pool_exhausted : ¬ ∀ (fsize : U64) (calls : List Call), calcSize 1 ≤ fsize →
    (∀ e, callAll calls (create fsize) = .error e → e = .cacheIsFull) →
    ((called fsize calls).log.map Meas.time).Nodup → NeverFull fsize calls := by
  intro h
  let calls : List Call :=
    (List.range 20).map (fun i => .append (.single (.plain i (i + 1)) (0, 0))) ++ [.flushIndex]
  have hrun : (callAll calls (create (calcSize 20))).map (fun _ => ()) = .error .cacheIsFull := by decide +kernel
  cases hc : callAll calls (create (calcSize 20)) with
  | ok x =>
    rw [hc] at hrun
    cases hrun
  | error e =>
    rw [hc] at hrun
    obtain rfl : e = .cacheIsFull := Except.error.inj hrun
    have hacc : ∀ e, callAll calls (create (calcSize 20)) = .error e → e = .cacheIsFull := fun e he => by
      rw [hc] at he
      exact (Except.error.inj he).symm
    exact (h (calcSize 20) calls (by decide) hacc (by decide +kernel)).spared hc

/-- A run of calls that does not fail otherwise, on measurements with distinct times, never runs
out of nodes if and only if the index file has those that the records flushed to its tree
need, in the order they are written. -/
theorem never_full_iff (fsize : U64) (calls : List Call)
    (hacc : ∀ e, callAll calls (create fsize) = .error e → e = .cacheIsFull)
    (htimes : ((called fsize calls).log.map Meas.time).Nodup) :
    NeverFull fsize calls ↔ KeyLevels.nodesFor treeN
      (((called fsize calls).recs.take (called fsize calls).done).map IndexRecord.minTime) ≤
        max 1 (indexNodes fsize) := by
  have htakes := @takes_iff (indexNodes fsize) (called fsize calls).done _ ((called_tiled fsize calls).times htimes)
  rw [← htakes]
  constructor
  · intro h
    cases hc : callAll calls (create fsize) with
    | error e => exact absurd (hacc e hc ▸ hc) h.spared
    | ok x => exact ((Going.create fsize).runAll hc).1.kept.takes
  · exact NeverFull.of_takes

theorem never_full_iff_two : NeverFull (calcSize 4) [.append (.single (.plain 3 1) (0, 0)),
    .findInIndex [3] 0 5 0 0, .append (.array [.plain 1 5, .plain 3 2]), .flushIndex] := by
  refine (never_full_iff (calcSize 4) _ (fun e he => ?_) (by decide)).mpr (by decide)
  have hrun : (callAll [.append (.single (.plain 3 1) (0, 0)), .findInIndex [3] 0 5 0 0,
    .append (.array [.plain 1 5, .plain 3 2]), .flushIndex] (create (calcSize 4))).toOption.isSome = true := by
    decide +kernel
  rw [he] at hrun
  cases hrun

end Nkvdb.Page
