import Nkvdb.Index.Routed
import Nkvdb.Page.Chunks
import Nkvdb.Page.Newest

/-! Reading an interval through the index.

A query of part of a page reads the positions that some records count: those of the leaves from that of the
lower bound on, and the search stops before the leaf of the upper bound once it found something. What
lies there, or in an earlier leaf than that of the lower bound, is not delivered
(`readInterval_iff`). -/
namespace Nkvdb.Page
open Index PageReaderInterval

/-- What an unfiltered `readInterval` delivers; without a reader nothing is. -/
def queryInterval (fuel : Nat) (fromTime toTime : Time) (p : Page) : Except Fault (List Meas) := do
  let (preader, p) ← p.readInterval [] 0 0 fromTime toTime
  match preader with
  | none => return []
  | some r => do
    let (out, _) ← r.readAll fuel p
    return out

/-- With enough calls of `readNext` the query delivers, of the interval, what `log` has in it, in some order. -/
def Agrees (fromTime toTime : Time) (log : List Meas) (p : Page) : Prop :=
  ∃ steps, ∀ fuel, steps ≤ fuel → ∃ out same, p.queryInterval fuel fromTime toTime = .ok out ∧
    List.Forall₂ SameMeas (out.filter (inside fromTime toTime)) same ∧
    same.Perm (log.filter (inside fromTime toTime))

/-- The tree of the records, inserted one after the other as they were written. -/
def Planted (fsize : U64) (recs : List IndexRecord) (t : IndexTree) : Prop :=
  (BTree.init (pageSizeToCount fsize / 10 / (treeN * treeN)) : IndexTree).insertAll (keyed recs) = .ok t

/-- A record that overlaps the interval, and that a walk over the tree comes by, counts the position. -/
def MetAt (fromTime toTime : Time) (t : IndexTree) (i : Nat) : Prop :=
  ∃ r, Met (Behind t) (overlaps fromTime toTime) fromTime toTime r ∧ i ∈ r.positions

/-- The positions gone over for the values at the beginning of the interval. -/
def MetBefore (fromTime : Time) (t : IndexTree) (p : Page) (i : Nat) : Prop :=
  if fromTime = p.header.minTime then i < p.header.writePos else MetAt fromTime p.header.maxTime t i

/-- The search goes down to a leaf, what it comes by is legible, and all that lies in the interval is among it. -/
structure Covered (fromTime toTime : Time) (log : List Meas) (t : IndexTree) (p : Page) : Prop where
  settled : Settled t fromTime
  legible : ∀ i, MetAt fromTime toTime t i → ReadsBackAt log p i
  begun : p.header.minTime ≤ fromTime → (∃ i, MetAt fromTime toTime t i) →
    ∀ i, MetBefore fromTime t p i → p.Readable i
  counted : ∀ i, i < log.length → inside fromTime toTime (nth log i) = true → MetAt fromTime toTime t i

/-- The page is empty, or all of it is asked for and legible, or its index leads to what is asked for. -/
def AgreesWhen (fsize : U64) (fromTime toTime : Time) (log : List Meas) (recs : List IndexRecord) (p : Page) : Prop :=
  log ≠ [] →
    if fromTime ≤ p.header.minTime ∧ p.header.maxTime ≤ toTime then ∀ i, i < log.length → ReadsBackAt log p i
    else ∃ t, Planted fsize recs t ∧ Covered fromTime toTime log t p

/-! ### What is read of some positions -/

section
variable {log : List Meas} {D : List Nat} {p : Page} {q : Meas → Bool}

/-- A choice of positions, each once, holds as many that pass as there are only if it has all of theirs, and then
it holds just these. -/
theorem covers_positions (hnd : D.Nodup) (hlt : ∀ i, i ∈ D → i < log.length) (q : Meas → Bool) :
    (((D.map (nth log)).filter q).length = (log.filter q).length →
        ∀ i, i < log.length → q (nth log i) = true → i ∈ D) ∧
      ((∀ i, i < log.length → q (nth log i) = true → i ∈ D) → ((D.map (nth log)).filter q).Perm (log.filter q)) := by
  have hall : log.filter q = ((List.range log.length).filter (q ∘ nth log)).map (nth log) := by
    rw [← List.filter_map, map_nth_range]
  rw [hall, List.filter_map, List.length_map, List.length_map]
  have hsub : (D.filter (q ∘ nth log)).Subperm ((List.range log.length).filter (q ∘ nth log)) := by
    refine List.subperm_of_subset (hnd.filter _) fun i hi => ?_
    obtain ⟨hi, hq⟩ := List.mem_filter.mp hi
    exact List.mem_filter.mpr ⟨List.mem_range.mpr (hlt i hi), hq⟩
  constructor
  · intro hlen i hi hq
    have hperm := hsub.perm_of_length_le hlen.ge
    exact List.mem_of_mem_filter (hperm.mem_iff.mpr (List.mem_filter.mpr ⟨List.mem_range.mpr hi, hq⟩))
  · intro h
    refine List.Perm.map _ ((List.perm_ext_iff_of_nodup (hnd.filter _) (List.nodup_range.filter _)).mpr fun i => ?_)
    rw [List.mem_filter, List.mem_filter, List.mem_range]
    exact ⟨fun hi => ⟨hlt i hi.1, hi.2⟩, fun hi => ⟨h i hi.1 hi.2, hi.2⟩⟩

theorem inside_congr {fromTime toTime : Time} {a b : Meas} (h : SameMeas a b) :
    inside fromTime toTime a = inside fromTime toTime b := by
  unfold inside
  rw [h.time]

/-- What is read of legible positions is what `log` has in the interval if and only if all its positions are
among them. -/
theorem reads_positions_iff {fromTime toTime : Time} (hnd : D.Nodup) (hlt : ∀ i, i ∈ D → i < log.length)
    (hleg : ∀ i, i ∈ D → SameMeas (p.valueAt i) (nth log i)) :
    (∃ same, List.Forall₂ SameMeas ((D.map p.valueAt).filter (inside fromTime toTime)) same ∧
        same.Perm (log.filter (inside fromTime toTime))) ↔
      ∀ i, i < log.length → inside fromTime toTime (nth log i) = true → i ∈ D := by
  obtain ⟨hall, hperm⟩ := covers_positions hnd hlt (inside fromTime toTime)
  have hsame : List.Forall₂ SameMeas ((D.map p.valueAt).filter (inside fromTime toTime))
      ((D.map (nth log)).filter (inside fromTime toTime)) := by
    refine List.rel_filter (fun a b hab => ?_) ?_
    · show inside fromTime toTime a = true ↔ inside fromTime toTime b = true
      rw [inside_congr hab]
    · rw [List.forall₂_map_left_iff, List.forall₂_map_right_iff, List.forall₂_same]
      exact hleg
  constructor
  · rintro ⟨same, hf, hp⟩
    exact hall (hsame.length_eq.symm.trans (hf.length_eq.trans hp.length_eq))
  · exact fun h => ⟨_, hsame, hperm h⟩

end

/-! ### What the reader of ranges delivers -/

section
variable {fsize : U64} {log : List Meas} {recs : List IndexRecord} {p p' : Page} {ix : Index} {fromTime toTime : Time}
  {ranges : List (Nat × Nat)} {nodes : List Nat}

/-- Without filters a reader of ranges delivers of the interval what the ranges have in it: what comes before is
older. -/
theorem ofRanges_inside {size : U64} {fuel : Nat} {x : List Meas × Page}
    (hs : (ofRanges ⟨[], 0, 0, []⟩ fromTime toTime ranges).Sound p)
    (hsteps : (ofRanges ⟨[], 0, 0, []⟩ fromTime toTime ranges).Steps size)
    (hf : (ofRanges ⟨[], 0, 0, []⟩ fromTime toTime ranges).work < fuel)
    (hrun : (ofRanges ⟨[], 0, 0, []⟩ fromTime toTime ranges).readAllBy size fuel p = .ok x) :
    x.1.filter (inside fromTime toTime) =
      ((rangePositions ranges).map p.valueAt).filter (inside fromTime toTime) := by
  obtain ⟨-, first, p', hdue, hnone, rfl⟩ := (ofRanges_readAll_iff hs hsteps hf).mp hrun
  have hfirst : first.filter (inside fromTime toTime) = [] := by
    refine List.filter_eq_nil_iff.mpr fun m hm => ?_
    have hlt : m.time < fromTime := by
      by_cases d : PointDue p fromTime ranges
      · have hpoint := hdue d
        have hin : fromTime ≤ p.header.maxTime := by
          have := hs.inside
          rwa [ofRanges_eq] at this
        rw [PageReader.timePointRead_back hin] at hpoint
        obtain ⟨⟨vs, p₁⟩, hback, hpoint⟩ := bind_ok hpoint
        obtain ⟨rfl, -⟩ := Prod.mk.inj (Except.ok.inj hpoint)
        obtain ⟨irecords, -, -, -, rfl⟩ := backwardRead_iff.mp hback
        rcases List.mem_append.mp hm with hm | hm
        · cases hm
        · exact (seen_of_mem hm).2
      · obtain ⟨rfl, -⟩ := hnone d
        cases hm
    unfold inside inInterval
    rw [decide_eq_false (not_le.mpr hlt), Bool.false_and]
    exact Bool.false_ne_true
  have hpass : (ofRanges ⟨[], 0, 0, []⟩ fromTime toTime ranges).passes = inside fromTime toTime := by
    funext m
    rw [ofRanges_eq]
    unfold passes checkValueInterval PageReader.checkValueFlags inside
    simp
  rw [List.filter_append, hfirst, List.nil_append, hpass, List.filter_filter]
  simp

/-- A query that reads some ranges delivers what was appended in the interval if and only if these, and what comes
before them, can be read, and hold it. -/
theorem Posted.agrees_iff (h : Posted fsize log recs p') (hpos : 0 < p'.header.writePos)
    (hmax : fromTime ≤ p'.header.maxTime) (hranges : ∀ x, x ∈ ranges → x.1 ≤ x.2 ∧ x.2 ≤ p'.header.writePos)
    (hopen : p.readInterval [] 0 0 fromTime toTime =
      .ok (some (ofRanges ⟨[], 0, 0, []⟩ fromTime toTime ranges), p')) :
    p.Agrees fromTime toTime log ↔ (∀ i, i ∈ rangePositions ranges → p'.Readable i) ∧
      (PointDue p' fromTime ranges → PointLegible [] 0 0 fromTime p') ∧
      ∃ same, List.Forall₂ SameMeas (((rangePositions ranges).map p'.valueAt).filter (inside fromTime toTime)) same ∧
        same.Perm (log.filter (inside fromTime toTime)) := by
  have hs : (ofRanges ⟨[], 0, 0, []⟩ fromTime toTime ranges).Sound p' := ofRanges_sound hmax hranges h.areas.short
  have hsteps := hs.steps
  have hpoint : (∃ x, (⟨[], 0, 0, []⟩ : PageReader).timePointRead fromTime p' = .ok x) ↔
      PointLegible [] 0 0 fromTime p' := h.timePointRead_iff hpos hmax
  have hquery : ∀ {fuel out}, p.queryInterval fuel fromTime toTime = .ok out ↔
      ∃ p'', (ofRanges ⟨[], 0, 0, []⟩ fromTime toTime ranges).readAllBy readSize fuel p' = .ok (out, p'') := by
    intro fuel out
    simp only [queryInterval, PageReaderInterval.readAll, hopen, bind, Except.bind]
    cases (ofRanges ⟨[], 0, 0, []⟩ fromTime toTime ranges).readAllBy readSize fuel p' with
    | error e => simp
    | ok x => simp [pure, Except.pure, Prod.ext_iff]
  constructor
  · rintro ⟨steps, hq⟩
    obtain ⟨fuel, hfuel⟩ : ∃ fuel, fuel = max steps ((ofRanges ⟨[], 0, 0, []⟩ fromTime toTime ranges).work + 1) :=
      ⟨_, rfl⟩
    obtain ⟨out, same, hout, hsame, hperm⟩ := hq fuel (by omega)
    obtain ⟨p'', hrun⟩ := hquery.mp hout
    have hin := ofRanges_inside hs hsteps (by omega) hrun
    obtain ⟨hread, first, p₁, hdue, -⟩ := (ofRanges_readAll_iff hs hsteps (by omega)).mp hrun
    exact ⟨hread, fun d => hpoint.mp ⟨_, hdue d⟩, same, hin ▸ hsame, hperm⟩
  · rintro ⟨hread, hdue, same, hsame, hperm⟩
    obtain ⟨ms, first, p'', steps, hms, hfirst, hnone, hrun⟩ :=
      Steps.readsRanges hsteps hs hread fun d => hpoint.mpr (hdue d)
    refine ⟨max steps ((ofRanges ⟨[], 0, 0, []⟩ fromTime toTime ranges).work + 1), fun fuel hfuel => ?_⟩
    have hout := hrun fuel (by omega)
    refine ⟨_, same, hquery.mpr ⟨p'', hout⟩, ?_, hperm⟩
    rw [ofRanges_inside hs hsteps (by omega) hout]
    exact hsame

/-! ### The ranges of a query -/

/-- A query that covers the page reads all of it. -/
theorem readInterval_whole (hpos : 0 < p.header.writePos) (hmax : fromTime ≤ p.header.maxTime)
    (hwhole : fromTime ≤ p.header.minTime ∧ p.header.maxTime ≤ toTime) :
    p.readInterval [] 0 0 fromTime toTime =
      .ok (some (ofRanges ⟨[], 0, 0, []⟩ fromTime toTime [(0, p.header.writePos)]), p) := by
  rw [readInterval_eq hpos.ne' hmax, intervalRanges, if_pos hwhole]
  rfl

/-- The ranges of records have the positions that these count. -/
theorem rangePositions_records (rs : List IndexRecord) :
    rangePositions (rs.map fun r => (r.pos, r.pos + r.count)) = Index.positions rs := by
  unfold rangePositions
  rw [List.flatMap_map]
  simp only [Nat.add_sub_cancel_left]
  rfl

/-- The ranges of the records that the walk comes by, joined. -/
def walkedRanges (fromTime toTime : Time) (t : IndexTree) (nodes : List Nat) : List (Nat × Nat) :=
  (joined (selected (overlaps fromTime toTime) t nodes)).map fun r => (r.pos, r.pos + r.count)

theorem walkedRanges_positions (fromTime toTime : Time) (t : IndexTree) (nodes : List Nat) :
    rangePositions (walkedRanges fromTime toTime t nodes) =
      Index.positions (selected (overlaps fromTime toTime) t nodes) := by
  unfold walkedRanges
  rw [rangePositions_records, positions_joined]

/-- A query of part of the page reads the positions of the records found. -/
theorem Posted.readInterval_part (h : Posted fsize log recs p) (hf : p.index.flush = .ok ix)
    (hpos : 0 < p.header.writePos) (hmax : fromTime ≤ p.header.maxTime)
    (hpart : ¬ (fromTime ≤ p.header.minTime ∧ p.header.maxTime ≤ toTime)) :
    ∃ nodes, Walked ix.tree fromTime toTime (overlaps fromTime toTime) nodes ∧
      p.readInterval [] 0 0 fromTime toTime = .ok (some (ofRanges ⟨[], 0, 0, []⟩ fromTime toTime
        (walkedRanges fromTime toTime ix.tree nodes)), {p with index := ix}) ∧
      ∀ x, x ∈ walkedRanges fromTime toTime ix.tree nodes → x.1 < x.2 ∧ x.2 ≤ p.header.writePos := by
  obtain ⟨nodes, hw, hfind⟩ := h.logged.findInIndex hf [] fromTime toTime 0 0
  rw [wanted_none] at hw hfind
  refine ⟨nodes, hw, ?_, fun x hx => ?_⟩
  · rw [readInterval_eq hpos.ne' hmax, intervalRanges, if_neg hpart, hfind]
    rfl
  · obtain ⟨r, hr, rfl⟩ := List.mem_map.mp hx
    obtain ⟨hsome, hin⟩ := h.joined hf hw hr
    exact ⟨Nat.lt_add_of_pos_right hsome, hin⟩

/-- No record is written twice. -/
theorem Posted.nodup (h : Posted fsize log recs p) : recs.Nodup := by
  have hpositions : (Index.positions recs).Nodup := h.positions ▸ List.nodup_range
  refine (List.nodup_flatMap.mp hpositions).2.imp_of_mem fun {r r'} hr _ hdisj he => ?_
  have hsome := (h.counts r hr).nonempty
  have hmem : r.pos ∈ r.positions := List.mem_range'_1.mpr ⟨le_rfl, Nat.lt_add_of_pos_right hsome⟩
  exact hdisj hmem (he ▸ hmem)

/-- The positions read are those come by, each once. -/
theorem Posted.walked_positions (h : Posted fsize log recs p) (hf : p.index.flush = .ok ix)
    (hs : Settled ix.tree fromTime) (hw : Walked ix.tree fromTime toTime (overlaps fromTime toTime) nodes) :
    (Index.positions (Index.selected (overlaps fromTime toTime) ix.tree nodes)).Nodup ∧
      ∀ i, i ∈ Index.positions (Index.selected (overlaps fromTime toTime) ix.tree nodes) ↔
        MetAt fromTime toTime ix.tree i := by
  constructor
  · obtain ⟨ht, l, hshape, hc, hp, -⟩ := (h.logged.flush hf).records (h.logged.flush_ok hf).2.1
    rcases hw.cases hshape hc with ⟨-, hsub, -⟩ | ⟨hne, -⟩
    · have hrecs : (Index.selected (overlaps fromTime toTime) ix.tree nodes).Sublist
          ((ix.tree.records l).map Prod.snd) := List.filter_sublist.trans ((hsub.flatMap _).map _)
      refine (hrecs.flatMap _).nodup ?_
      have hrange : (recs.flatMap IndexRecord.positions).Nodup := by
        rw [show recs.flatMap IndexRecord.positions = _ from h.positions]
        exact List.nodup_range
      exact (hp.flatMap_right IndexRecord.positions).nodup_iff.mpr hrange
    · exact absurd ((h.logged.settled_iff hf).mp hs) hne
  · intro i
    rw [Index.positions, List.mem_flatMap]
    exact exists_congr fun r => and_congr_left fun _ => h.logged.mem_selected_routed hf h.nodup hs hw

/-- So are those gone over for the values at the beginning. -/
theorem Posted.before_positions (h : Posted fsize log recs p) (hf : p.index.flush = .ok ix)
    (hs : Settled ix.tree fromTime) :
    PointLegible [] 0 0 fromTime p ↔ ∀ i, MetBefore fromTime ix.tree p i → p.Readable i := by
  unfold PointLegible backwardRanges MetBefore
  by_cases he : fromTime = p.header.minTime
  · simp only [if_pos he, pure, Except.pure, Except.ok.injEq, Prod.mk.injEq]
    constructor
    · rintro ⟨irecords, p', ⟨rfl, rfl⟩, hread⟩ i hi
      exact hread i (mem_backwardPositions.mpr ⟨_, List.mem_singleton_self _, Nat.zero_le _, by omega⟩)
    · refine fun hread => ⟨_, _, ⟨rfl, rfl⟩, fun i hi => ?_⟩
      obtain ⟨x, hx, -, hlt⟩ := mem_backwardPositions.mp hi
      obtain rfl := List.mem_singleton.mp hx
      exact hread i (by omega)
  · obtain ⟨nodes, hw, hfind⟩ := h.logged.findInIndex hf [] fromTime p.header.maxTime 0 0
    rw [wanted_none] at hw hfind
    obtain ⟨-, hmet⟩ := h.walked_positions hf hs hw
    have hmem : ∀ i, i ∈ backwardPositions ((Index.joined (Index.selected (overlaps fromTime p.header.maxTime) ix.tree
        nodes)).reverse.map fun r => (r.pos, r.count)) ↔ MetAt fromTime p.header.maxTime ix.tree i := by
      intro i
      rw [mem_backwardPositions_found, positions_joined, hmet]
    simp only [if_neg he, hfind, bind, Except.bind, pure, Except.pure, Except.ok.injEq, Prod.mk.injEq]
    constructor
    · rintro ⟨irecords, p', ⟨rfl, rfl⟩, hread⟩ i hi
      exact hread i ((hmem i).mpr hi)
    · exact fun hread => ⟨_, _, ⟨rfl, rfl⟩, fun i hi => hread i ((hmem i).mp hi)⟩

/-! ### The query -/

/-- A query that covers the page delivers what was appended where all of it is legible. -/
theorem Posted.agrees_whole (h : Posted fsize log recs p) (hpos : 0 < p.header.writePos)
    (hmax : fromTime ≤ p.header.maxTime) (hwhole : fromTime ≤ p.header.minTime ∧ p.header.maxTime ≤ toTime) :
    ((∀ i, i < log.length → ReadsBackAt log p i) → p.Agrees fromTime toTime log) ∧
      (p.Agrees fromTime toTime log → ∀ i, i < log.length → p.Readable i) := by
  have hlen := h.areas.writePos
  have hranges : ∀ x : Nat × Nat, x ∈ [(0, p.header.writePos)] → x.1 ≤ x.2 ∧ x.2 ≤ p.header.writePos := by
    intro x hx
    obtain rfl := List.mem_singleton.mp hx
    exact ⟨Nat.zero_le _, le_rfl⟩
  have hall : rangePositions [(0, p.header.writePos)] = List.range log.length := by
    rw [← hlen, List.range_eq_range']
    exact List.append_nil _
  have hiff := h.agrees_iff hpos hmax hranges (readInterval_whole hpos hmax hwhole)
  rw [hall] at hiff
  constructor
  · intro hleg
    refine hiff.mpr ⟨fun i hi => (hleg i (List.mem_range.mp hi)).1, fun d => ?_, ?_⟩
    · -- what comes before is gone over at the least time
      have he : fromTime = p.header.minTime := le_antisymm hwhole.1 d.1
      refine ⟨[(0, p.header.writePos)], p, if_pos he, fun i hi => ?_⟩
      obtain ⟨x, hx, -, hlt⟩ := mem_backwardPositions.mp hi
      obtain rfl := List.mem_singleton.mp hx
      exact (hleg i (by omega)).1
    · exact (reads_positions_iff List.nodup_range (fun i hi => List.mem_range.mp hi)
        fun i hi => (hleg i (List.mem_range.mp hi)).2).mpr fun i hi _ => List.mem_range.mpr hi
  · intro hq i hi
    exact (hiff.mp hq).1 i (List.mem_range.mpr hi)

/-- A query of part of the page delivers what was appended where the index leads to it; and only there, as long as
what can be read is what was appended, and the search goes down to a leaf. -/
theorem Posted.agrees_part (h : Posted fsize log recs p) (hf : p.index.flush = .ok ix) (hpos : 0 < p.header.writePos)
    (hmax : fromTime ≤ p.header.maxTime) (hpart : ¬ (fromTime ≤ p.header.minTime ∧ p.header.maxTime ≤ toTime))
    (hs : Settled ix.tree fromTime) : (Covered fromTime toTime log ix.tree p → p.Agrees fromTime toTime log) ∧
      ((∀ i, i < log.length → p.Readable i → SameMeas (p.valueAt i) (nth log i)) →
        p.Agrees fromTime toTime log → Covered fromTime toTime log ix.tree p) := by
  obtain ⟨nodes, hw, hopen, hranges⟩ := h.readInterval_part hf hpos hmax hpart
  obtain ⟨hnd, hmet⟩ := h.walked_positions hf hs hw
  have hiff := (h.flush hf).agrees_iff hpos hmax
    (fun x hx => ⟨(hranges x hx).1.le, (hranges x hx).2⟩) hopen
  rw [walkedRanges_positions] at hiff
  have hbefore := (h.flush hf).before_positions (h.logged.flush_again hf) hs
  have hlt : ∀ i, i ∈ Index.positions (Index.selected (overlaps fromTime toTime) ix.tree nodes) → i < log.length := by
    intro i hi
    rw [← h.areas.writePos]
    exact h.selected_lt hf hw hi
  -- there are ranges just where a position is come by
  have hdue : PointDue {p with index := ix} fromTime (walkedRanges fromTime toTime ix.tree nodes) ↔
      p.header.minTime ≤ fromTime ∧ ∃ i, MetAt fromTime toTime ix.tree i := by
    refine and_congr_right fun _ => ?_
    rw [← exists_congr hmet, ← walkedRanges_positions]
    constructor
    · intro hne
      obtain ⟨x, hx⟩ := List.exists_mem_of_ne_nil _ hne
      have := (hranges x hx).1
      exact ⟨x.1, List.mem_flatMap.mpr ⟨x, hx, List.mem_range'_1.mpr ⟨le_rfl, by omega⟩⟩⟩
    · rintro ⟨i, hi⟩ hnil
      rw [hnil] at hi
      cases hi
  constructor
  · intro hc
    refine hiff.mpr ⟨fun i hi => (hc.legible i ((hmet i).mp hi)).1, fun d => ?_, ?_⟩
    · obtain ⟨hmin, hsome⟩ := hdue.mp d
      exact hbefore.mpr (hc.begun hmin hsome)
    · exact (reads_positions_iff hnd hlt fun i hi => (hc.legible i ((hmet i).mp hi)).2).mpr
        fun i hi hin => (hmet i).mpr (hc.counted i hi hin)
  · intro htrue hq
    obtain ⟨hread, hpoint, hsame⟩ := hiff.mp hq
    have hleg : ∀ i, i ∈ Index.positions (Index.selected (overlaps fromTime toTime) ix.tree nodes) →
        ReadsBackAt log p i := fun i hi => ⟨hread i hi, htrue i (hlt i hi) (hread i hi)⟩
    constructor
    case settled => exact hs
    case legible => exact fun i hi => hleg i ((hmet i).mpr hi)
    case begun => exact fun hmin hsome => hbefore.mp (hpoint (hdue.mpr ⟨hmin, hsome⟩))
    case counted =>
      intro i hi hin
      exact (hmet i).mp ((reads_positions_iff hnd hlt fun i hi => (hleg i hi).2).mp hsame i hi hin)

end

theorem queryInterval_more {fuel fuel' : Nat} {fromTime toTime : Time} {p : Page} {out : List Meas}
    (h : p.queryInterval fuel fromTime toTime = .ok out) (hle : fuel ≤ fuel') :
    p.queryInterval fuel' fromTime toTime = .ok out := by
  obtain ⟨⟨preader, p'⟩, hopen, h⟩ := bind_ok h
  simp only [queryInterval, hopen, bind, Except.bind]
  cases preader with
  | none => exact h
  | some r =>
    obtain ⟨x, hrun, h⟩ := bind_ok h
    simp only [PageReaderInterval.readAll, PageReaderInterval.readAll_more hrun hle]
    exact h

/-- Of twenty measurements appended one by one, the search for times 5 to 15 does not come by
the last five: it scans the first leaf, finds times 5 to 10 in it, and stops before the other. -/
theorem readInterval_broken : ¬ ∀ (fsize : U64) (ops : List Op) (log : List Meas) (p : Page) (fromTime toTime : Time),
    (∀ op, op ∈ ops → op.Sorted) → appendAll ops (create fsize) = .ok (log, p) → fromTime ≤ toTime →
    fromTime ≤ p.header.maxTime → p.Agrees fromTime toTime log := by
  intro h
  let ops : List Op := (List.range' 1 20).map fun i => .single (.plain 0 i) (0, 0)
  have hsorted : ∀ op, op ∈ ops → op.Sorted := by
    intro op hop
    obtain ⟨i, -, rfl⟩ := List.mem_map.mp hop
    exact List.pairwise_singleton _ _
  obtain ⟨⟨log, p⟩, hrun, hok⟩ := exists_ok (x := appendAll ops (create (word 144224)))
    (p := fun x : List Meas × Page => decide (5 ≤ x.2.header.maxTime ∧ (x.1.filter (inside 5 15)).length = 11) &&
      (x.2.queryInterval 3 5 15).toOption.any fun out : List Meas => decide ((out.filter (inside 5 15)).length = 6))
    (by decide +kernel)
  obtain ⟨hpage, hok⟩ := Bool.and_eq_true_iff.mp hok
  obtain ⟨hmax, hmany⟩ := of_decide_eq_true hpage
  obtain ⟨out, hquery, hfew⟩ := exists_ok hok
  obtain ⟨steps, hq⟩ := h (word 144224) ops log p 5 15 hsorted hrun (by decide) hmax
  obtain ⟨out', same, hout, hsame, hperm⟩ := hq (max steps 3) (le_max_left ..)
  obtain rfl : out = out' := Except.ok.inj ((queryInterval_more hquery (le_max_right ..)).symm.trans hout)
  have hsix : (out.filter (inside 5 15)).length = 11 := hsame.length_eq.trans (hperm.length_eq.trans hmany)
  rw [of_decide_eq_true hfew] at hsix
  cases hsix

/-- The query of a page that was appended to delivers what was appended in the interval where the page is
empty, or the interval covers it and it is legible, or in the tree of the records, inserted as they were
written, the search goes down to a leaf and what it comes by is legible and has all of the interval; and
only there, as long as what can be read is what was appended, and the search does not give up above the
leaves. At distinct times it never does, and what it comes by is known from the times that the leaves are cut at. -/
theorem readInterval_iff (fsize : U64) (ops : List Op) (log : List Meas) (p : Page)
    (hrun : appendAll ops (create fsize) = .ok (log, p)) (fromTime toTime : Time) (hmax : fromTime ≤ p.header.maxTime) :
    ∃ recs, Posted fsize log recs p ∧
      (AgreesWhen fsize fromTime toTime log recs p → p.Agrees fromTime toTime log) ∧
      ((∀ i, i < log.length → p.Readable i → SameMeas (p.valueAt i) (nth log i)) →
        (∀ t, Planted fsize recs t → Settled t fromTime) →
        (p.Agrees fromTime toTime log ↔ AgreesWhen fsize fromTime toTime log recs p)) ∧
      ((log.map Meas.time).Nodup → ∀ t, Planted fsize recs t → (∀ time, Settled t time) ∧
        ∀ want fromTime toTime r, Met (Behind t) want fromTime toTime r ↔ Visited want fromTime toTime recs r) := by
  obtain ⟨recs, h⟩ := (Posted.create fsize).appendAll hrun
  rw [List.nil_append] at h
  have hplanted : ∀ t, Planted fsize recs t → ∃ ix, p.index.flush = .ok ix ∧ ix.tree = t := by
    intro t ht
    obtain ⟨ix, hf⟩ := h.logged.flush_iff.mpr ⟨t, ht⟩
    exact ⟨ix, hf, Except.ok.inj ((h.logged.flush_ok hf).1.symm.trans ht)⟩
  have henough : AgreesWhen fsize fromTime toTime log recs p → p.Agrees fromTime toTime log := by
    intro hw
    by_cases hnil : log = []
    -- nothing is stored, and there is no reader
    · refine ⟨0, fun fuel _ => ⟨[], [], ?_, .nil, by rw [hnil]; rfl⟩⟩
      unfold queryInterval readInterval
      rw [if_pos (by rw [h.areas.writePos, hnil]; rfl)]
      rfl
    have hpos : 0 < p.header.writePos := h.areas.writePos ▸ List.length_pos_iff.mpr hnil
    have hw := hw hnil
    split at hw
    next hwhole => exact (h.agrees_whole hpos hmax hwhole).1 hw
    next hpart =>
      obtain ⟨t, ht, hc⟩ := hw
      obtain ⟨ix, hf, rfl⟩ := hplanted t ht
      exact (h.agrees_part hf hpos hmax hpart hc.settled).1 hc
  refine ⟨recs, h, henough, fun htrue hsettled => ⟨fun hq hne => ?_, henough⟩, fun hd t ht => ?_⟩
  · have hpos : 0 < p.header.writePos := h.areas.writePos ▸ List.length_pos_iff.mpr hne
    split
    next hwhole =>
      intro i hi
      have hread := (h.agrees_whole hpos hmax hwhole).2 hq i hi
      exact ⟨hread, htrue i hi hread⟩
    next hpart =>
      cases hf : p.index.flush with
      | error e =>
        obtain ⟨steps, hq⟩ := hq
        obtain ⟨out, same, hout, -⟩ := hq steps le_rfl
        simp only [queryInterval, readInterval, if_neg hpos.ne', if_neg (not_lt.mpr hmax), if_neg hpart,
          Index.findInIndex, hf, bind, Except.bind] at hout
        cases hout
      | ok ix =>
        have ht : Planted fsize recs ix.tree := (h.logged.flush_ok hf).1
        exact ⟨ix.tree, ht, (h.agrees_part hf hpos hmax hpart (hsettled _ ht)).2 htrue hq⟩
  · obtain ⟨ix, hf, rfl⟩ := hplanted t ht
    have htimes := minTimes_nodup h.positions h.counts hd
    refine ⟨fun time => (h.logged.settled_iff hf).mpr (h.logged.endsAtLeaf hf htimes time),
      fun want fromTime toTime r => ?_⟩
    rw [← h.logged.met_iff hf htimes]
    exact (Met.congr fun time r => h.logged.reachable_routed hf).symm

/-- An array and two single appends: the query delivers the two measurements of its interval. -/
theorem readInterval_iff_four : ∃ log p, appendAll [.array [.plain 1 2, .plain 2 3], .single (.plain 1 9) (0, 0),
      .single (.plain 0 5) (0, 0)] (create (calcSize 4)) = .ok (log, p) ∧ (log.filter (inside 3 5)).length = 2 ∧
    p.Agrees 3 5 log ∧ ∃ recs, Posted (calcSize 4) log recs p ∧ AgreesWhen (calcSize 4) 3 5 log recs p := by
  obtain ⟨⟨log, p⟩, hrun, hok⟩ := exists_ok
    (x := appendAll [.array [.plain 1 2, .plain 2 3], .single (.plain 1 9) (0, 0), .single (.plain 0 5) (0, 0)]
      (create (calcSize 4)))
    (p := fun x : List Meas × Page => decide (3 ≤ x.2.header.maxTime ∧ (x.1.filter (inside 3 5)).length = 2 ∧
        (x.1.map Meas.time).Nodup ∧ ∀ i, i < x.1.length → SameMeas (x.2.valueAt i) (nth x.1 i)) &&
      (x.2.queryInterval 3 3 5).toOption.any fun out : List Meas =>
        decide (List.Forall₂ SameMeas (out.filter (inside 3 5)) (x.1.filter (inside 3 5))))
    (by decide +kernel)
  obtain ⟨hpage, hok⟩ := Bool.and_eq_true_iff.mp hok
  obtain ⟨hmax, htwo, hd, hsame⟩ := of_decide_eq_true hpage
  obtain ⟨out, hquery, hout⟩ := exists_ok hok
  have hagrees : p.Agrees 3 5 log := ⟨3, fun fuel hfuel =>
    ⟨out, _, queryInterval_more hquery hfuel, of_decide_eq_true hout, .refl _⟩⟩
  obtain ⟨recs, h, -, hiff, hdistinct⟩ := readInterval_iff (calcSize 4) _ log p hrun 3 5 hmax
  exact ⟨log, p, hrun, htwo, hagrees, recs, h,
    (hiff (fun i hi _ => hsame i hi) fun t ht => (hdistinct hd t ht).1 3).mp hagrees⟩

end Nkvdb.Page
