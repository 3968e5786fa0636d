import Nkvdb.Readers
import Nkvdb.Page.Records
import Mathlib.Data.List.Flatten

/-! What the readers of a page deliver.

`Reads` gives the measurement at every position; over it the loops of the readers are maps
and folds of lists. `drain_eq` says what a reader of positions delivers, and
`backwardRead_eq` what `backwardRead` leaves in its map: for each id the newest
measurement before the time point among those it came by. -/
namespace Nkvdb.Page
open Index

def readRange (p : Page) : Nat → Nat → Except Fault (List Meas)
  | _, 0 => .ok []
  | pos, n + 1 => do
    let m ← p.readAt pos
    let ms ← readRange p (pos + 1) n
    return m :: ms

/-- The measurements of all positions, in order. -/
def contents (p : Page) : Except Fault (List Meas) := p.readRange 0 p.header.writePos

/-- `all` is what the positions of the page hold. -/
structure Reads (p : Page) (all : List Meas) : Prop where
  length : all.length = p.header.writePos
  readAt : ∀ i, i < all.length → p.readAt i = .ok (nth all i)

/-- What the position holds, if it can be read. -/
def valueAt (p : Page) (i : Nat) : Meas := (p.readAt i).toOption.getD Meas.empty

def Readable (p : Page) (i : Nat) : Prop := p.readAt i = .ok (p.valueAt i)

theorem readable_of_ok {p : Page} {i : Nat} {m : Meas} (h : p.readAt i = .ok m) : p.valueAt i = m ∧ p.Readable i := by
  have hv : p.valueAt i = m := by
    unfold valueAt
    rw [h]
    rfl
  refine ⟨hv, ?_⟩
  unfold Readable
  rw [hv, h]

theorem readRange_iff {p : Page} {pos n : Nat} {ms : List Meas} : p.readRange pos n = .ok ms ↔
    ms.length = n ∧ ∀ i, i < n → p.readAt (pos + i) = .ok (nth ms i) := by
  induction n generalizing pos ms with
  | zero =>
    constructor
    · intro h
      rw [← Except.ok.inj h]
      exact ⟨rfl, fun i hi => absurd hi (Nat.not_lt_zero i)⟩
    · rintro ⟨h, -⟩
      rw [List.eq_nil_of_length_eq_zero h]
      rfl
  | succ n ih =>
    constructor
    · intro h
      obtain ⟨m, hm, h⟩ := bind_ok h
      obtain ⟨rest, hr, h⟩ := bind_ok h
      rw [← Except.ok.inj h]
      obtain ⟨hlen, hrest⟩ := ih.mp hr
      refine ⟨congrArg (· + 1) hlen, fun i hi => ?_⟩
      cases i with
      | zero => exact hm
      | succ i =>
        have := hrest i (Nat.lt_of_succ_lt_succ hi)
        rwa [Nat.add_right_comm] at this
    · rintro ⟨hlen, hread⟩
      cases ms with
      | nil => cases hlen
      | cons m rest =>
        have hm : p.readAt pos = .ok m := hread 0 (Nat.succ_pos n)
        have hr : p.readRange (pos + 1) n = .ok rest := by
          refine ih.mpr ⟨Nat.succ.inj hlen, fun i hi => ?_⟩
          have := hread (i + 1) (Nat.succ_lt_succ hi)
          rwa [Nat.add_right_comm]
        simp only [readRange, hm, hr, bind, Except.bind]
        rfl

theorem contents_iff {p : Page} {all : List Meas} : p.contents = .ok all ↔ p.Reads all := by
  unfold contents
  rw [readRange_iff]
  constructor
  · rintro ⟨hlen, h⟩
    refine ⟨hlen, fun i hi => ?_⟩
    have := h i (hlen ▸ hi)
    rwa [Nat.zero_add] at this
  · intro h
    refine ⟨h.length, fun i hi => ?_⟩
    rw [Nat.zero_add]
    exact h.readAt i (by rw [h.length]; exact hi)

/-- Reading does not use the index. -/
theorem Reads.withIndex {p : Page} {all : List Meas} (h : p.Reads all) (ix : Index) :
    Reads {p with index := ix} all := ⟨h.length, h.readAt⟩

/-! ### `backwardRead` -/

/-- The newest measurements before `tp`, one for an id, of those that pass. -/
structure Latest (tp : Time) (seen : List Meas) (vs : MeasMap) : Prop where
  keys : vs.Pairwise fun a b => a.id < b.id
  old : ∀ v, v ∈ vs → v ∈ seen ∧ v.time < tp
  newest : ∀ m, m ∈ seen → m.time < tp → ∃ v, v ∈ vs ∧ v.id = m.id ∧ m.time ≤ v.time

theorem Latest.nil (tp : Time) : Latest tp [] [] :=
  ⟨List.Pairwise.nil, fun _ h => absurd h List.not_mem_nil, fun _ h => absurd h List.not_mem_nil⟩

theorem mem_assign {m x : Meas} {vs : MeasMap} (h : vs.Pairwise fun a b => a.id < b.id) :
    x ∈ vs.assign m ↔ x = m ∨ (x ∈ vs ∧ x.id ≠ m.id) := by
  induction vs with
  | nil => simp [MeasMap.assign]
  | cons v vs ih =>
    obtain ⟨hv, hvs⟩ := List.pairwise_cons.mp h
    unfold MeasMap.assign
    rcases lt_trichotomy m.id v.id with hlt | heq | hgt
    · have hne : ∀ y, y ∈ v :: vs → y.id ≠ m.id := by
        intro y hy
        rcases List.mem_cons.mp hy with rfl | hy
        · exact hlt.ne'
        · exact (hlt.trans (hv y hy)).ne'
      rw [if_pos hlt, List.mem_cons]
      exact or_congr_right ⟨fun hx => ⟨hx, hne x hx⟩, fun hx => hx.1⟩
    · have hne : ∀ y, y ∈ vs → y.id ≠ m.id := fun y hy => heq ▸ (hv y hy).ne'
      rw [if_neg heq.not_lt, if_pos heq, List.mem_cons, List.mem_cons]
      constructor
      · rintro (rfl | hx)
        · exact .inl rfl
        · exact .inr ⟨.inr hx, hne x hx⟩
      · rintro (rfl | ⟨rfl | hx, hid⟩)
        · exact .inl rfl
        · exact absurd heq.symm hid
        · exact .inr hx
    · rw [if_neg hgt.not_gt, if_neg hgt.ne', List.mem_cons, ih hvs, List.mem_cons]
      constructor
      · rintro (rfl | rfl | ⟨hx, hid⟩)
        · exact .inr ⟨.inl rfl, hgt.ne⟩
        · exact .inl rfl
        · exact .inr ⟨.inr hx, hid⟩
      · rintro (rfl | ⟨rfl | hx, hid⟩)
        · exact .inr (.inl rfl)
        · exact .inl rfl
        · exact .inr (.inr ⟨hx, hid⟩)

theorem assign_keys {m : Meas} {vs : MeasMap} (h : vs.Pairwise fun a b => a.id < b.id) :
    (vs.assign m).Pairwise fun a b => a.id < b.id := by
  induction vs with
  | nil => exact List.pairwise_singleton _ _
  | cons v vs ih =>
    obtain ⟨hv, hvs⟩ := List.pairwise_cons.mp h
    unfold MeasMap.assign
    rcases lt_trichotomy m.id v.id with hlt | heq | hgt
    · rw [if_pos hlt]
      refine List.pairwise_cons.mpr ⟨fun y hy => ?_, h⟩
      rcases List.mem_cons.mp hy with rfl | hy
      · exact hlt
      · exact hlt.trans (hv y hy)
    · rw [if_neg heq.not_lt, if_pos heq]
      exact List.pairwise_cons.mpr ⟨fun y hy => heq ▸ hv y hy, hvs⟩
    · rw [if_neg hgt.not_gt, if_neg hgt.ne']
      refine List.pairwise_cons.mpr ⟨fun y hy => ?_, ih hvs⟩
      rcases (mem_assign hvs).mp hy with rfl | ⟨hy, -⟩
      · exact hgt
      · exact hv y hy

theorem Latest.unique {tp : Time} {seen : List Meas} {vs : MeasMap} (h : Latest tp seen vs) {a b : Meas}
    (ha : a ∈ vs) (hb : b ∈ vs) (hid : a.id = b.id) : a = b := by
  have hnd : (vs.map Meas.id).Nodup := List.pairwise_map.mpr (h.keys.imp fun hlt => hlt.ne)
  exact List.inj_on_of_nodup_map hnd ha hb hid

/-- A measurement assigned where nothing of its id is newer. -/
theorem Latest.assign {tp : Time} {seen : List Meas} {vs : MeasMap} {m : Meas} (h : Latest tp seen vs)
    (hm : m.time < tp) (hle : ∀ v, v ∈ vs → v.id = m.id → v.time ≤ m.time) :
    Latest tp (m :: seen) (vs.assign m) := by
  refine ⟨assign_keys h.keys, fun v hv => ?_, fun x hx ht => ?_⟩
  · rcases (mem_assign h.keys).mp hv with rfl | ⟨hv, -⟩
    · exact ⟨List.mem_cons_self, hm⟩
    · exact ⟨List.mem_cons_of_mem _ (h.old v hv).1, (h.old v hv).2⟩
  · have hself : m ∈ vs.assign m := (mem_assign h.keys).mpr (.inl rfl)
    rcases List.mem_cons.mp hx with rfl | hx
    · exact ⟨x, hself, rfl, le_rfl⟩
    · obtain ⟨v, hv, hid, hlev⟩ := h.newest x hx ht
      by_cases hvm : v.id = m.id
      · exact ⟨m, hself, hvm.symm.trans hid, hlev.trans (hle v hv hvm)⟩
      · exact ⟨v, (mem_assign h.keys).mpr (.inr ⟨hv, hvm⟩), hid, hlev⟩

/-- A measurement that is not used. -/
theorem Latest.skip {tp : Time} {seen : List Meas} {vs : MeasMap} {m : Meas} (h : Latest tp seen vs)
    (hm : m.time < tp → ∃ v, v ∈ vs ∧ v.id = m.id ∧ m.time ≤ v.time) : Latest tp (m :: seen) vs := by
  refine ⟨h.keys, fun v hv => ⟨List.mem_cons_of_mem _ (h.old v hv).1, (h.old v hv).2⟩, fun x hx ht => ?_⟩
  rcases List.mem_cons.mp hx with rfl | hx
  · exact hm ht
  · exact h.newest x hx ht

theorem Latest.visit {tp : Time} {seen : List Meas} {vs : MeasMap} {check : Meas → Bool} (h : Latest tp seen vs)
    (hc : ∀ m, check m = true) (m : Meas) : Latest tp (m :: seen) (backwardVisit check tp m vs) := by
  unfold backwardVisit
  by_cases hm : m.time < tp
  · rw [if_pos hm]
    cases hf : vs.find m.id with
    | none =>
      have hnone : ∀ v, v ∈ vs → v.id ≠ m.id := by simpa [MeasMap.find] using hf
      simp only [if_pos (hc m)]
      exact h.assign hm fun v hv hid => absurd hid (hnone v hv)
    | some v =>
      have hv : v ∈ vs ∧ v.id = m.id := ⟨List.mem_of_find?_eq_some hf, by simpa using List.find?_some hf⟩
      by_cases hlt : v.time < m.time
      · simp only [if_pos hlt]
        refine h.assign hm fun x hx hid => ?_
        rw [h.unique hx hv.1 (hid.trans hv.2.symm)]
        exact hlt.le
      · simp only [if_neg hlt]
        exact h.skip fun _ => ⟨v, hv.1, hv.2, not_lt.mp hlt⟩
  · rw [if_neg hm]
    exact h.skip fun ht => absurd ht hm

/-- What is kept of some measurements, visited one after the other. -/
theorem Latest.visitAll {tp : Time} {seen : List Meas} {vs : MeasMap} {check : Meas → Bool} (h : Latest tp seen vs)
    (hc : ∀ m, check m = true) (ms : List Meas) :
    Latest tp (ms.reverse ++ seen) (ms.foldl (fun vs m => backwardVisit check tp m vs) vs) := by
  induction ms generalizing seen vs with
  | nil => exact h
  | cons m ms ih =>
    rw [List.reverse_cons, List.append_assoc]
    exact ih (h.visit hc m)

theorem Latest.congr {tp : Time} {seen seen' : List Meas} {vs : MeasMap} (h : Latest tp seen vs)
    (hmem : ∀ m, m ∈ seen' ↔ m ∈ seen) : Latest tp seen' vs :=
  ⟨h.keys, fun v hv => ⟨(hmem v).mpr (h.old v hv).1, (h.old v hv).2⟩,
    fun m hm ht => h.newest m ((hmem m).mp hm) ht⟩

section Loops
variable {p : Page} {all seen : List Meas} {tp : Time} {vs : MeasMap} {check : Meas → Bool}

theorem Latest.backwardLoop (h : Latest tp seen vs) (hr : p.Reads all) (hc : ∀ m, check m = true) {pos n : Nat}
    (hb : pos + n ≤ all.length) : ∃ vs', backwardLoop check tp p pos n vs = .ok vs' ∧
      Latest tp ((List.range' pos n).map (nth all) ++ seen) vs' := by
  induction n generalizing seen vs with
  | zero => exact ⟨vs, rfl, h⟩
  | succ n ih =>
    have hread := hr.readAt (pos + n) (by omega)
    obtain ⟨vs', hrun, hl⟩ := ih (h.visit hc (nth all (pos + n))) (by omega)
    refine ⟨vs', ?_, ?_⟩
    · simp only [Page.backwardLoop, hread, bind, Except.bind]
      exact hrun
    · rw [List.range'_1_concat, List.map_append, List.append_assoc]
      exact hl

theorem Latest.backwardRecords (h : Latest tp seen vs) (hr : p.Reads all) (hc : ∀ m, check m = true)
    {irecords : List (Nat × Nat)} (hb : ∀ x, x ∈ irecords → 0 < x.2 ∧ x.1 + x.2 ≤ all.length) :
    ∃ vs', backwardRecords check tp p irecords vs = .ok vs' ∧
      Latest tp ((irecords.flatMap fun x => List.range' x.1 x.2).map (nth all) ++ seen) vs' := by
  induction irecords generalizing seen vs with
  | nil => exact ⟨vs, rfl, h⟩
  | cons x irecords ih =>
    obtain ⟨⟨hpos, hin⟩, hrest⟩ := List.forall_mem_cons.mp hb
    obtain ⟨vs₁, h₁, hl₁⟩ := h.backwardLoop hr hc hin
    obtain ⟨vs', h', hl'⟩ := ih hl₁ hrest
    refine ⟨vs', ?_, hl'.congr fun m => ?_⟩
    · have hne : ¬ (x.1 = 0 ∧ x.2 = 0) := fun h => by omega
      simp only [Page.backwardRecords, if_neg hne, h₁, bind, Except.bind]
      exact h'
    · rw [List.flatMap_cons, List.map_append]
      simp only [List.mem_append]
      tauto

end Loops

theorem backwardCheck_none (m : Meas) : backwardCheck [] 0 0 m = true := rfl

section Posted
variable {fsize : U64} {log all : List Meas} {recs : List IndexRecord} {p : Page} {ix : Index} {fromTime toTime : Time}
  {want : IndexRecord → Bool} {nodes : List Nat}

/-- A search comes by records that were written. -/
theorem Posted.selected (h : Posted fsize log recs p) (hf : p.index.flush = .ok ix)
    (hw : Walked ix.tree fromTime toTime want nodes) {r : IndexRecord} (hr : r ∈ selected want ix.tree nodes) :
    r ∈ recs := by
  obtain ⟨ht, l, hs, hc, hp, hroot⟩ := (h.logged.flush hf).records (h.logged.flush_ok hf).2.1
  have hmem := List.mem_of_mem_filter hr
  rcases hw.cases hs hc with ⟨-, hsub, -⟩ | ⟨-, rfl⟩
  · refine hp.mem_iff.mp (List.Sublist.mem hmem (List.Sublist.map _ ?_))
    exact hsub.flatMap _
  · exact hroot r hmem

theorem Posted.selected_lt (h : Posted fsize log recs p) (hf : p.index.flush = .ok ix)
    (hw : Walked ix.tree fromTime toTime want nodes) {i : Nat}
    (hi : i ∈ Index.positions (Index.selected want ix.tree nodes)) :
    i < p.header.writePos := by
  obtain ⟨r, hr, hi⟩ := List.mem_flatMap.mp hi
  exact h.mem_positions (h.selected hf hw hr) hi

theorem Posted.joined (h : Posted fsize log recs p) (hf : p.index.flush = .ok ix)
    (hw : Walked ix.tree fromTime toTime want nodes) {r : IndexRecord}
    (hr : r ∈ Index.joined (Index.selected want ix.tree nodes)) :
    0 < r.count ∧ r.pos + r.count ≤ p.header.writePos := by
  have hpos : 0 < r.count := joined_some (fun x hx => (h.counts x (h.selected hf hw hx)).nonempty) r hr
  refine ⟨hpos, ?_⟩
  have hlast : r.pos + (r.count - 1) ∈ Index.positions (Index.selected want ix.tree nodes) := by
    rw [← positions_joined]
    exact Index.mem_positions.mpr ⟨r, hr, by omega, by omega⟩
  have := h.selected_lt hf hw hlast
  omega

/-- `backwardRead` over the whole page. -/
theorem backwardRead_first (hr : p.Reads all) (hpos : 0 < p.header.writePos) :
    ∃ vs, p.backwardRead [] 0 0 p.header.minTime = .ok (vs, p) ∧ Latest p.header.minTime all vs := by
  have hb : ∀ x : Nat × Nat, x ∈ [(0, p.header.writePos)] → 0 < x.2 ∧ x.1 + x.2 ≤ all.length := by
    intro x hx
    obtain rfl := List.mem_singleton.mp hx
    exact ⟨hpos, by rw [hr.length, Nat.zero_add]⟩
  obtain ⟨vs, hrun, hl⟩ := (Latest.nil p.header.minTime).backwardRecords hr backwardCheck_none hb
  refine ⟨vs, ?_, hl.congr fun m => ?_⟩
  · simp only [backwardRead, if_true, pure, Except.pure, bind, Except.bind, hrun]
  · rw [List.append_nil, List.flatMap_singleton, List.mem_map]
    constructor
    · intro hm
      obtain ⟨i, hi, rfl⟩ := List.mem_iff_getElem.mp hm
      exact ⟨i, List.mem_range'_1.mpr ⟨Nat.zero_le i, by rw [← hr.length]; omega⟩, nth_eq hi⟩
    · rintro ⟨i, hi, rfl⟩
      have hlt : i < all.length := by
        have := (List.mem_range'_1.mp hi).2
        rw [hr.length]
        omega
      rw [nth_eq hlt]
      exact List.getElem_mem hlt

/-- `backwardRead` through the index. -/
theorem Posted.backwardRead (h : Posted fsize log recs p) (hr : p.Reads all) (hf : p.index.flush = .ok ix) {tp : Time}
    (hne : tp ≠ p.header.minTime) : ∃ nodes vs,
      Walked ix.tree tp p.header.maxTime (wanted [] tp p.header.maxTime 0 0) nodes ∧
      p.backwardRead [] 0 0 tp = .ok (vs, {p with index := ix}) ∧
      Latest tp
        ((Index.positions (Index.selected (wanted [] tp p.header.maxTime 0 0) ix.tree nodes)).map (nth all)) vs := by
  obtain ⟨nodes, hw, hfind⟩ := h.logged.findInIndex hf [] tp p.header.maxTime 0 0
  obtain ⟨rs, hrs⟩ : ∃ rs, Index.selected (wanted [] tp p.header.maxTime 0 0) ix.tree nodes = rs := ⟨_, rfl⟩
  have hb : ∀ x : Nat × Nat, x ∈ (Index.joined rs).reverse.map (fun r => (r.pos, r.count)) →
      0 < x.2 ∧ x.1 + x.2 ≤ all.length := by
    intro x hx
    obtain ⟨r, hmem, rfl⟩ := List.mem_map.mp hx
    rw [hr.length]
    rw [← hrs, List.mem_reverse] at hmem
    exact h.joined hf hw hmem
  obtain ⟨vs, hrun, hl⟩ := (Latest.nil tp).backwardRecords (hr.withIndex ix) backwardCheck_none hb
  refine ⟨nodes, vs, hw, ?_, hl.congr fun m => ?_⟩
  · rw [hrs] at hfind
    simp only [Page.backwardRead, if_neg hne, hfind, pure, Except.pure, bind, Except.bind, hrun]
  · rw [hrs, List.append_nil, List.mem_map, List.mem_map, ← positions_joined]
    refine exists_congr fun i => and_congr_left fun _ => ?_
    simp [Index.mem_positions, List.mem_flatMap, List.mem_range'_1]

end Posted
end Nkvdb.Page
