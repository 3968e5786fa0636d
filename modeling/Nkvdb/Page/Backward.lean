import Nkvdb.Page.Scan
import Nkvdb.Lib.KeyedFold

/-! The filters of `backwardRead`.

`backwardScan` gives the measurements that `backwardRead` comes by, in the order it does, and what it
returns is a fold over these. The ids are tested the wrong way round, so that a read for some ids
returns what it would return without them for all others (`backwardRead_ids`). Flag and source are
tested of the first value of an id alone: a newer one that is come by later replaces it whatever its
flag is. -/
namespace Nkvdb.Page

/-! ### What is come by -/

/-- The positions that `backwardRead` goes over, as those they begin at and their counts. -/
def backwardRanges (ids : List Id) (source flag : Flag) (timePoint : Time) (p : Page) :
    Except Fault (List (Nat × Nat) × Page) :=
  if timePoint = p.header.minTime then pure ([(0, p.header.writePos)], p)
  else do
    let (irecords, ix) ← p.index.findInIndex ids timePoint p.header.maxTime flag source
    pure (irecords.reverse.map fun r => (r.pos, r.count), {p with index := ix})

/-- The positions one by one. -/
def backwardPositions (irecords : List (Nat × Nat)) : List Nat :=
  irecords.flatMap fun x => (List.range' x.1 x.2).reverse

def backwardScan (ids : List Id) (source flag : Flag) (timePoint : Time) (p : Page) :
    Except Fault (List Meas × Page) := do
  let (irecords, p) ← p.backwardRanges ids source flag timePoint
  let seen ← (backwardPositions irecords).mapM fun i => p.readAt i
  return (seen, p)

theorem mapM_cons_iff {p : Page} {i : Nat} {is : List Nat} {ms : List Meas} :
    (i :: is).mapM (fun i => p.readAt i) = .ok ms ↔
      ∃ m rest, p.readAt i = .ok m ∧ is.mapM (fun i => p.readAt i) = .ok rest ∧ ms = m :: rest := by
  rw [List.mapM_cons]
  cases p.readAt i with
  | error e => simp [bind, Except.bind]
  | ok m =>
    cases is.mapM fun i => p.readAt i with
    | error e => simp [bind, Except.bind]
    | ok rest => simp [bind, Except.bind, pure, Except.pure, eq_comm]

theorem mapM_append_iff {p : Page} {as bs : List Nat} {ms : List Meas} :
    (as ++ bs).mapM (fun i => p.readAt i) = .ok ms ↔
      ∃ xs ys, as.mapM (fun i => p.readAt i) = .ok xs ∧ bs.mapM (fun i => p.readAt i) = .ok ys ∧ ms = xs ++ ys := by
  induction as generalizing ms with
  | nil => simp [pure, Except.pure]
  | cons a as ih =>
    simp only [List.cons_append, mapM_cons_iff, ih]
    constructor
    · rintro ⟨m, rest, hm, ⟨xs, ys, hxs, hys, rfl⟩, rfl⟩
      exact ⟨m :: xs, ys, ⟨m, xs, hm, hxs, rfl⟩, hys, rfl⟩
    · rintro ⟨xs, ys, ⟨m, rest, hm, hrest, rfl⟩, hys, rfl⟩
      exact ⟨m, rest ++ ys, hm, ⟨rest, ys, hrest, hys, rfl⟩, rfl⟩

/-- Positions are read one after the other if and only if each of them can be. -/
theorem mapM_readAt_iff {p : Page} {is : List Nat} {ms : List Meas} :
    is.mapM (fun i => p.readAt i) = .ok ms ↔ (∀ i, i ∈ is → p.Readable i) ∧ ms = is.map p.valueAt := by
  induction is generalizing ms with
  | nil => simp [pure, Except.pure, eq_comm]
  | cons i is ih =>
    rw [mapM_cons_iff, List.forall_mem_cons, List.map_cons]
    constructor
    · rintro ⟨m, rest, hm, hrest, rfl⟩
      obtain ⟨hall, rfl⟩ := ih.mp hrest
      obtain ⟨hv, hread⟩ := readable_of_ok hm
      exact ⟨⟨hread, hall⟩, by rw [hv]⟩
    · rintro ⟨⟨hread, hall⟩, rfl⟩
      exact ⟨_, _, hread, ih.mpr ⟨hall, rfl⟩, rfl⟩

/-- What `backwardRead` keeps of some measurements. -/
def visitAll (check : Meas → Bool) (timePoint : Time) (seen : List Meas) (readedValues : MeasMap) : MeasMap :=
  seen.foldl (fun vs m => backwardVisit check timePoint m vs) readedValues

section
variable {check : Meas → Bool} {tp : Time} {p : Page} {vs vs' : MeasMap}

theorem backwardLoop_iff {pos n : Nat} : backwardLoop check tp p pos n vs = .ok vs' ↔
    ∃ seen, (List.range' pos n).reverse.mapM (fun i => p.readAt i) = .ok seen ∧ vs' = visitAll check tp seen vs := by
  induction n generalizing vs with
  | zero => simp [backwardLoop, pure, Except.pure, visitAll, eq_comm]
  | succ n ih =>
    rw [List.range'_1_concat, List.reverse_append, List.reverse_singleton, List.singleton_append]
    simp only [mapM_cons_iff]
    constructor
    · intro h
      obtain ⟨m, hm, h⟩ := bind_ok h
      obtain ⟨seen, hseen, rfl⟩ := ih.mp h
      exact ⟨m :: seen, ⟨m, seen, hm, hseen, rfl⟩, rfl⟩
    · rintro ⟨seen, ⟨m, rest, hm, hrest, rfl⟩, rfl⟩
      simp only [backwardLoop, hm, bind, Except.bind]
      exact ih.mpr ⟨rest, hrest, rfl⟩

theorem backwardRecords_ok {irecords : List (Nat × Nat)} (h : backwardRecords check tp p irecords vs = .ok vs') :
    (∀ x, x ∈ irecords → ¬ (x.1 = 0 ∧ x.2 = 0)) ∧
      ∃ seen, (backwardPositions irecords).mapM (fun i => p.readAt i) = .ok seen ∧ vs' = visitAll check tp seen vs := by
  induction irecords generalizing vs with
  | nil =>
    obtain rfl := Except.ok.inj h
    exact ⟨fun x hx => absurd hx List.not_mem_nil, [], rfl, rfl⟩
  | cons x irecords ih =>
    unfold backwardRecords at h
    by_cases hzero : x.1 = 0 ∧ x.2 = 0
    · rw [if_pos hzero] at h
      cases h
    · rw [if_neg hzero] at h
      obtain ⟨vs₁, h₁, h⟩ := bind_ok h
      obtain ⟨seen₁, hs₁, rfl⟩ := backwardLoop_iff.mp h₁
      obtain ⟨hrest, seen₂, hs₂, rfl⟩ := ih h
      refine ⟨List.forall_mem_cons.mpr ⟨hzero, hrest⟩, seen₁ ++ seen₂, ?_, ?_⟩
      · exact mapM_append_iff.mpr ⟨seen₁, seen₂, hs₁, hs₂, rfl⟩
      · exact (List.foldl_append ..).symm

theorem backwardRecords_of_scan {irecords : List (Nat × Nat)} (hne : ∀ x, x ∈ irecords → ¬ (x.1 = 0 ∧ x.2 = 0))
    {seen : List Meas} (h : (backwardPositions irecords).mapM (fun i => p.readAt i) = .ok seen) :
    backwardRecords check tp p irecords vs = .ok (visitAll check tp seen vs) := by
  induction irecords generalizing vs seen with
  | nil =>
    obtain rfl := Except.ok.inj h
    rfl
  | cons x irecords ih =>
    obtain ⟨hx, hrest⟩ := List.forall_mem_cons.mp hne
    obtain ⟨seen₁, seen₂, hs₁, hs₂, rfl⟩ := mapM_append_iff.mp h
    unfold backwardRecords
    rw [if_neg hx, backwardLoop_iff.mpr ⟨seen₁, hs₁, rfl⟩]
    show backwardRecords check tp p irecords (visitAll check tp seen₁ vs) = _
    rw [ih hrest hs₂]
    exact congrArg _ (List.foldl_append ..).symm

/-- `backwardRead` in its two parts. -/
theorem backwardRead_eq (ids : List Id) (source flag : Flag) (tp : Time) (p : Page) :
    p.backwardRead ids source flag tp = (p.backwardRanges ids source flag tp).bind fun x =>
      (backwardRecords (backwardCheck ids source flag) tp x.2 x.1 []).map fun vs => (vs, x.2) := by
  unfold backwardRead backwardRanges
  by_cases he : tp = p.header.minTime
  · rw [if_pos he, if_pos he]
    simp only [pure, Except.pure, bind, Except.bind]
    cases backwardRecords (backwardCheck ids source flag) tp p [(0, p.header.writePos)] [] <;> rfl
  · rw [if_neg he, if_neg he]
    simp only [pure, Except.pure, bind, Except.bind]
    cases p.index.findInIndex ids tp p.header.maxTime flag source with
    | error e => rfl
    | ok x =>
      simp only
      cases backwardRecords (backwardCheck ids source flag) tp {p with index := x.2}
        (x.1.reverse.map fun r => (r.pos, r.count)) [] <;> rfl

/-- What `backwardRead` returns is kept of what it comes by. -/
theorem backwardRead_ok {ids : List Id} {source flag : Flag} {out : List Meas} {p' : Page}
    (h : p.backwardRead ids source flag tp = .ok (out, p')) : ∃ irecords seen,
      p.backwardRanges ids source flag tp = .ok (irecords, p') ∧ p.backwardScan ids source flag tp = .ok (seen, p') ∧
      (∀ x, x ∈ irecords → ¬ (x.1 = 0 ∧ x.2 = 0)) ∧
      (backwardPositions irecords).mapM (fun i => p'.readAt i) = .ok seen ∧
      out = visitAll (backwardCheck ids source flag) tp seen [] := by
  rw [backwardRead_eq] at h
  obtain ⟨⟨irecords, p₁⟩, hranges, h⟩ := bind_ok h
  cases hrec : backwardRecords (backwardCheck ids source flag) tp p₁ irecords [] with
  | error e =>
    simp only [hrec] at h
    cases h
  | ok vs =>
    simp only [hrec] at h
    obtain ⟨rfl, rfl⟩ := Prod.mk.inj (Except.ok.inj h)
    obtain ⟨hne, seen, hseen, rfl⟩ := backwardRecords_ok hrec
    refine ⟨irecords, seen, hranges, ?_, hne, hseen, rfl⟩
    simp only [backwardScan, hranges, hseen, bind, Except.bind, pure, Except.pure]

end

theorem backwardRanges_readAt {ids : List Id} {source flag : Flag} {tp : Time} {p p' : Page}
    {irecords : List (Nat × Nat)} (h : p.backwardRanges ids source flag tp = .ok (irecords, p')) :
    p'.readAt = p.readAt := by
  unfold backwardRanges at h
  split at h
  · obtain ⟨-, rfl⟩ := Prod.mk.inj (Except.ok.inj h)
    rfl
  · obtain ⟨x, -, h⟩ := bind_ok h
    obtain ⟨-, rfl⟩ := Prod.mk.inj (Except.ok.inj h)
    rfl

/-- It returns where the positions that it goes over can be read, and keeps what it keeps of these. -/
theorem backwardRead_iff {ids : List Id} {source flag : Flag} {tp : Time} {out : List Meas} {p p' : Page} :
    p.backwardRead ids source flag tp = .ok (out, p') ↔ ∃ irecords,
      p.backwardRanges ids source flag tp = .ok (irecords, p') ∧ (∀ x, x ∈ irecords → ¬ (x.1 = 0 ∧ x.2 = 0)) ∧
      (∀ i, i ∈ backwardPositions irecords → p.Readable i) ∧
      out = visitAll (backwardCheck ids source flag) tp ((backwardPositions irecords).map p.valueAt) [] := by
  have hsame : ∀ {irecords seen}, p.backwardRanges ids source flag tp = .ok (irecords, p') →
      ((backwardPositions irecords).mapM (fun i => p'.readAt i) = .ok seen ↔
        (∀ i, i ∈ backwardPositions irecords → p.Readable i) ∧ seen = (backwardPositions irecords).map p.valueAt) := by
    intro irecords seen hranges
    rw [backwardRanges_readAt hranges]
    exact mapM_readAt_iff
  constructor
  · intro h
    obtain ⟨irecords, seen, hranges, -, hne, hseen, rfl⟩ := backwardRead_ok h
    obtain ⟨hread, rfl⟩ := (hsame hranges).mp hseen
    exact ⟨irecords, hranges, hne, hread, rfl⟩
  · rintro ⟨irecords, hranges, hne, hread, rfl⟩
    rw [backwardRead_eq, hranges]
    show Except.map _ (backwardRecords _ tp p' irecords []) = _
    rw [backwardRecords_of_scan hne ((hsame hranges).mpr ⟨hread, rfl⟩)]
    rfl

/-- What a search gives can be read backwards: no record is empty, and all positions are of the page. -/
theorem Posted.backwardRanges_in {fsize : U64} {log : List Meas} {recs : List IndexRecord} {ids : List Id}
    {source flag : Flag} {tp : Time} {p p' : Page} {irecords : List (Nat × Nat)} (h : Posted fsize log recs p)
    (hpos : 0 < p.header.writePos) (hr : p.backwardRanges ids source flag tp = .ok (irecords, p')) :
    ∀ x, x ∈ irecords → 0 < x.2 ∧ x.1 + x.2 ≤ p.header.writePos := by
  unfold backwardRanges at hr
  by_cases he : tp = p.header.minTime
  · rw [if_pos he] at hr
    obtain ⟨rfl, -⟩ := Prod.mk.inj (Except.ok.inj hr)
    intro x hx
    obtain rfl := List.mem_singleton.mp hx
    exact ⟨hpos, (Nat.zero_add _).le⟩
  · rw [if_neg he] at hr
    obtain ⟨⟨found, ix⟩, hfind, hr⟩ := bind_ok hr
    obtain ⟨rfl, -⟩ := Prod.mk.inj (Except.ok.inj hr)
    have hf := Index.findInIndex_flush hfind
    obtain ⟨nodes, hw, hfound⟩ := h.logged.findInIndex hf ids tp p.header.maxTime flag source
    obtain ⟨rfl, -⟩ := Prod.mk.inj (Except.ok.inj (hfind.symm.trans hfound))
    intro x hx
    obtain ⟨r, hmem, rfl⟩ := List.mem_map.mp hx
    exact h.joined hf hw (List.mem_reverse.mp hmem)

theorem mem_backwardPositions {irecords : List (Nat × Nat)} {i : Nat} : i ∈ backwardPositions irecords ↔
    ∃ x, x ∈ irecords ∧ x.1 ≤ i ∧ i < x.1 + x.2 := by
  simp [backwardPositions, List.mem_range'_1]

/-! ### What is kept for an id -/

theorem find_assign (m : Meas) (vs : MeasMap) (id : Id) :
    (vs.assign m).find id = if m.id = id then some m else vs.find id := by
  induction vs with
  | nil =>
    by_cases h : m.id = id <;> simp [MeasMap.assign, MeasMap.find, h]
  | cons v vs ih =>
    unfold MeasMap.find at ih ⊢
    unfold MeasMap.assign
    by_cases hm : m.id = id
    · split
      · simp [hm]
      · split
        · simp [hm]
        next hge hne =>
          have hv : ¬ v.id = id := fun he => hne (hm.trans he.symm)
          simp [hv, ih, hm]
    · split
      · simp [hm]
      · split
        next heq =>
          have hv : ¬ v.id = id := fun he => hm (heq.trans he)
          simp [hm, hv]
        · by_cases hv : v.id = id
          · simp [hv]
          · simp [hv, ih, hm]

/-- What a measurement does to the value of its id. -/
def visitOne (check : Meas → Bool) (timePoint : Time) (v : Option Meas) (m : Meas) : Option Meas :=
  if decide (m.time < timePoint) = true then KeyedFold.keepNewest check Meas.time v m else v

theorem find_backwardVisit (check : Meas → Bool) (tp : Time) (vs : MeasMap) (m : Meas) (id : Id) :
    (backwardVisit check tp m vs).find id =
      if m.id = id then visitOne check tp (vs.find id) m else vs.find id := by
  unfold backwardVisit visitOne
  by_cases ht : m.time < tp
  · rw [if_pos ht, if_pos (decide_eq_true ht)]
    cases hf : vs.find m.id with
    | none =>
      by_cases hm : m.id = id
      · subst hm
        cases hc : check m <;> simp [find_assign, hf, KeyedFold.keepNewest, hc]
      · cases hc : check m <;> simp [find_assign, hm]
    | some v =>
      by_cases hm : m.id = id
      · subst hm
        by_cases hlt : v.time < m.time <;> simp [find_assign, hf, KeyedFold.keepNewest, hlt]
      · by_cases hlt : v.time < m.time <;> simp [find_assign, hm, hlt]
  · simp [ht]

/-- The measurements of an id before the time point. -/
def seenBefore (tp : Time) (id : Id) (seen : List Meas) : List Meas :=
  (seen.filter fun m => decide (m.id = id)).filter fun m => decide (m.time < tp)

theorem mem_seenBefore {tp : Time} {id : Id} {seen : List Meas} {m : Meas} :
    m ∈ seenBefore tp id seen ↔ m ∈ seen ∧ m.id = id ∧ m.time < tp := by
  simp [seenBefore, and_comm]

/-- What is kept for an id is the newest of its measurements before the time point, from the first one
that passes on. -/
theorem find_visitAll (check : Meas → Bool) (tp : Time) (seen : List Meas) (id : Id) :
    (visitAll check tp seen []).find id =
      (seenBefore tp id seen).foldl (KeyedFold.keepNewest check Meas.time) none := by
  have hfind := @KeyedFold.find_foldl _ _ _ _ _ Meas.id (fun id (vs : MeasMap) => vs.find id)
    (fun vs m => backwardVisit check tp m vs) (visitOne check tp)
    (fun vs m id => find_backwardVisit check tp vs m id) seen [] id
  have hskip := @KeyedFold.foldl_skip _ _ (KeyedFold.keepNewest check Meas.time) (fun m => decide (m.time < tp))
    (visitOne check tp) (fun _ _ => rfl) (seen.filter fun m => decide (m.id = id)) none
  exact hfind.trans hskip

theorem visitAll_keys (check : Meas → Bool) (tp : Time) (seen : List Meas) {vs : MeasMap}
    (h : vs.Pairwise fun a b => a.id < b.id) : (visitAll check tp seen vs).Pairwise fun a b => a.id < b.id := by
  induction seen generalizing vs with
  | nil => exact h
  | cons m seen ih =>
    apply ih
    show (backwardVisit check tp m vs).Pairwise _
    unfold backwardVisit
    split
    · split
      · split
        · exact assign_keys h
        · exact h
      · split
        · exact assign_keys h
        · exact h
    · exact h

/-- A map has one value for an id. -/
theorem mem_iff_find {vs : MeasMap} (h : vs.Pairwise fun a b => a.id < b.id) {v : Meas} :
    v ∈ vs ↔ vs.find v.id = some v := by
  unfold MeasMap.find
  constructor
  · intro hv
    cases hf : vs.find? fun x => x.id == v.id with
    | none =>
      have := List.find?_eq_none.mp hf v hv
      simp at this
    | some x =>
      have hx := List.mem_of_find?_eq_some hf
      have hid : x.id = v.id := by simpa using List.find?_some hf
      have hnd : (vs.map Meas.id).Nodup := List.pairwise_map.mpr (h.imp fun hlt => hlt.ne)
      rw [List.inj_on_of_nodup_map hnd hx hv hid]
  · exact List.mem_of_find?_eq_some

section
variable {check : Meas → Bool} {tp : Time} {seen : List Meas} {v : Meas}

theorem mem_visitAll : v ∈ visitAll check tp seen [] ↔
    (seenBefore tp v.id seen).foldl (KeyedFold.keepNewest check Meas.time) none = some v := by
  rw [mem_iff_find (visitAll_keys check tp seen .nil), find_visitAll]

/-- What is kept was come by before the time point. -/
theorem seen_of_mem (h : v ∈ visitAll check tp seen []) : v ∈ seen ∧ v.time < tp := by
  obtain ⟨hseen, -, hlt⟩ := mem_seenBefore.mp (KeyedFold.kept_of_foldl (mem_visitAll.mp h)).mem
  exact ⟨hseen, hlt⟩

theorem mem_visitAll_iff : v ∈ visitAll check tp seen [] ↔
    KeyedFold.Kept check Meas.time (seenBefore tp v.id seen) v := by
  rw [mem_visitAll, KeyedFold.foldl_keepNewest_some]

end

/-! ### The requested ids -/

/-- A read for some ids keeps what a read without them keeps, of all other ids. -/
theorem visitAll_ids {ids : List Id} (hids : ids ≠ []) (tp : Time) (seen : List Meas) :
    visitAll (backwardCheck ids 0 0) tp seen [] =
      (visitAll (backwardCheck [] 0 0) tp seen []).filter fun v => !ids.contains v.id := by
  have hcheck : ∀ m, backwardCheck ids 0 0 m = !ids.contains m.id := by
    intro m
    simp [backwardCheck, hids]
  refine (visitAll_keys _ tp seen .nil).eq_of_mem_iff ((visitAll_keys _ tp seen .nil).filter _) fun v => ?_
  rw [List.mem_filter, mem_visitAll, mem_visitAll]
  have hid : ∀ m, m ∈ seenBefore tp v.id seen → backwardCheck ids 0 0 m = !ids.contains v.id := by
    intro m hm
    rw [hcheck, (mem_seenBefore.mp hm).2.1]
  cases hv : ids.contains v.id with
  | true =>
    have hnone : (seenBefore tp v.id seen).foldl (KeyedFold.keepNewest (backwardCheck ids 0 0) Meas.time) none =
        none := by
      apply KeyedFold.foldl_keepNewest_none.mpr
      intro m hm
      rw [hid m hm, hv]
      rfl
    simp [hnone]
  | false =>
    have hsame : (seenBefore tp v.id seen).foldl (KeyedFold.keepNewest (backwardCheck ids 0 0) Meas.time) none =
        (seenBefore tp v.id seen).foldl (KeyedFold.keepNewest (backwardCheck [] 0 0) Meas.time) none := by
      apply KeyedFold.foldl_keepNewest_congr
      intro m hm
      rw [hid m hm, hv]
      rfl
    simp [hsame]

/-- The same positions are gone over for the ids as without them. -/
def SameRanges (ids : List Id) (tp : Time) (p : Page) : Prop :=
  (p.backwardRanges ids 0 0 tp).map Prod.fst = (p.backwardRanges [] 0 0 tp).map Prod.fst

/-- What is asked of a read for `ids` that comes by `seen` and returns `out`, with `w` the window of the
page before: it returns these ids alone; where the same positions are gone over without the ids, it
returns what is returned then of these ids; and a read at a time point that uses it delivers nothing
that is older than what was come by of its id. -/
structure HonoursIds (ids : List Id) (tp : Time) (w : WriteWindow) (p : Page) (seen out : List Meas) : Prop where
  only : ∀ v, v ∈ out → v.id ∈ ids
  restricted : SameRanges ids tp p →
    ∃ all p', p.backwardRead [] 0 0 tp = .ok (all, p') ∧ out = all.filter fun v => ids.contains v.id
  newest : tp ≤ p.header.maxTime → ∀ res p', (⟨ids, 0, 0, w⟩ : PageReader).timePointRead tp p = .ok (res, p') →
    ∀ v, v ∈ res → v.id ∈ ids → ∀ m, m ∈ seen → m.time < tp → m.id = v.id → m.time ≤ v.time

section
variable {ids : List Id} {tp : Time} {p p' : Page} {irecords : List (Nat × Nat)} {seen : List Meas}

/-- Without ids there is a value for every id that was come by before the time point. -/
theorem exists_of_seen {m : Meas} (hm : m ∈ seen) (hlt : m.time < tp) :
    ∃ v, v ∈ visitAll (backwardCheck [] 0 0) tp seen [] ∧ v.id = m.id := by
  cases hf : (visitAll (backwardCheck [] 0 0) tp seen []).find m.id with
  | none =>
    rw [find_visitAll] at hf
    have := KeyedFold.foldl_keepNewest_none.mp hf m (mem_seenBefore.mpr ⟨hm, rfl, hlt⟩)
    simp [backwardCheck] at this
  | some v => exact ⟨v, List.mem_of_find?_eq_some hf, by simpa [MeasMap.find] using List.find?_some hf⟩

/-- Nothing is kept where only the ids asked for were come by. -/
theorem visitAll_ids_nil (hids : ids ≠ []) (h : ∀ m, m ∈ seen → m.time < tp → m.id ∈ ids) :
    visitAll (backwardCheck ids 0 0) tp seen [] = [] := by
  rw [visitAll_ids hids, List.filter_eq_nil_iff]
  intro v hv
  obtain ⟨hmem, hlt⟩ := seen_of_mem hv
  simpa using h v hmem hlt

/-- Where it is asked for no id, a read that goes over the same positions comes by the same. -/
theorem backwardRead_unfiltered (hsame : SameRanges ids tp p)
    (hranges : p.backwardRanges ids 0 0 tp = .ok (irecords, p'))
    (hne : ∀ x, x ∈ irecords → ¬ (x.1 = 0 ∧ x.2 = 0))
    (hseen : (backwardPositions irecords).mapM (fun i => p'.readAt i) = .ok seen) :
    ∃ p'', p.backwardRead [] 0 0 tp = .ok (visitAll (backwardCheck [] 0 0) tp seen [], p'') := by
  unfold SameRanges at hsame
  rw [hranges] at hsame
  cases hr : p.backwardRanges [] 0 0 tp with
  | error e =>
    rw [hr] at hsame
    cases hsame
  | ok x =>
    obtain ⟨irecords', p''⟩ := x
    rw [hr] at hsame
    obtain rfl : irecords = irecords' := Except.ok.inj hsame
    have hread : p'.readAt = p''.readAt := (backwardRanges_readAt hranges).trans (backwardRanges_readAt hr).symm
    simp only [hread] at hseen
    refine ⟨p'', ?_⟩
    rw [backwardRead_eq, hr]
    show Except.map _ (backwardRecords _ tp p'' irecords []) = _
    rw [backwardRecords_of_scan hne hseen]
    rfl

/-- A read at a time point that gets nothing from the page has what the window of the page before has of
the ids. -/
theorem timePointRead_ids_iff (hids : ids ≠ []) {w res : List Meas} {p₁ : Page} (htp : tp ≤ p.header.maxTime)
    (hnil : p.backwardRead ids 0 0 tp = .ok ([], p')) :
    (⟨ids, 0, 0, w⟩ : PageReader).timePointRead tp p = .ok (res, p₁) ↔
      (w.filter fun m => m.time != 0 && ids.contains m.id) = res ∧ p' = p₁ := by
  have hflags : ∀ v : Meas, (⟨ids, 0, 0, w⟩ : PageReader).checkValueFlags v = ids.contains v.id := by
    intro v
    simp [PageReader.checkValueFlags, hids]
  rw [PageReader.timePointRead_back htp]
  simp [hnil, hflags, bind, Except.bind]

end

/-- A page read backwards for some ids honours them only where it can return nothing: if it comes by
nothing before the time point, or by these ids alone, on positions it would not go over without
them, with nothing older in the window that it hides. -/
theorem backwardRead_ids_iff {ids : List Id} (hids : ids ≠ []) {tp : Time} (w : WriteWindow) {p p' : Page}
    {out : List Meas} (h : p.backwardRead ids 0 0 tp = .ok (out, p')) :
    ∃ seen, p.backwardScan ids 0 0 tp = .ok (seen, p') ∧
      (HonoursIds ids tp w p seen out ↔ (∀ m, m ∈ seen → tp ≤ m.time) ∨
        (¬ SameRanges ids tp p ∧ ∀ m, m ∈ seen → m.time < tp → m.id ∈ ids ∧
          (tp ≤ p.header.maxTime → ∀ v, v ∈ w → v.time ≠ 0 → v.id = m.id → m.time ≤ v.time))) := by
  obtain ⟨irecords, seen, hranges, hscan, hne, hseen, hout⟩ := backwardRead_ok h
  refine ⟨seen, hscan, ?_⟩
  have hunfiltered := fun hsame => backwardRead_unfiltered hsame hranges hne hseen
  by_cases hold : ∀ m, m ∈ seen → tp ≤ m.time
  · obtain rfl : out = [] := hout.trans (visitAll_ids_nil hids fun m hm hlt => absurd hlt (not_lt.mpr (hold m hm)))
    refine iff_of_true ?_ (.inl hold)
    constructor
    case only => exact fun v hv => absurd hv List.not_mem_nil
    case restricted =>
      intro hsame
      obtain ⟨p'', hrun⟩ := hunfiltered hsame
      refine ⟨_, p'', hrun, (List.filter_eq_nil_iff.mpr fun v hv => ?_).symm⟩
      obtain ⟨hmem, hlt⟩ := seen_of_mem hv
      exact absurd hlt (not_lt.mpr (hold v hmem))
    case newest =>
      intro _ _ _ _ _ _ _ m hm hlt
      exact absurd hlt (not_lt.mpr (hold m hm))
  rw [or_iff_right hold]
  obtain ⟨m₀, hm₀, hlt₀⟩ : ∃ m, m ∈ seen ∧ m.time < tp := by simpa using hold
  constructor
  · intro hh
    -- an id that was not asked for would be returned
    have hin : ∀ m, m ∈ seen → m.time < tp → m.id ∈ ids := by
      intro m hm hlt
      obtain ⟨v, hv, hid⟩ := exists_of_seen hm hlt
      by_contra hno
      have hmem : v ∈ out := by
        rw [hout, visitAll_ids hids, List.mem_filter]
        simpa [hid, hv] using hno
      exact hno (hid ▸ hh.only v hmem)
    obtain rfl : out = [] := hout.trans (visitAll_ids_nil hids hin)
    refine ⟨fun hsame => ?_, fun m hm hlt => ⟨hin m hm hlt, fun hle v hv hv0 hid => ?_⟩⟩
    · obtain ⟨all, p'', hrun, hrest⟩ := hh.restricted hsame
      obtain ⟨p₁, hrun₁⟩ := hunfiltered hsame
      rw [hrun] at hrun₁
      obtain ⟨rfl, -⟩ := Prod.mk.inj (Except.ok.inj hrun₁)
      obtain ⟨v, hv, hid⟩ := exists_of_seen hm₀ hlt₀
      have := List.filter_eq_nil_iff.mp hrest.symm v hv
      simp [hid, hin m₀ hm₀ hlt₀] at this
    · refine hh.newest hle _ p' ((timePointRead_ids_iff hids hle h).mpr ⟨rfl, rfl⟩) v ?_ (hid ▸ hin m hm hlt) m hm hlt
        hid.symm
      simpa [hv, hv0] using (hid ▸ hin m hm hlt : v.id ∈ ids)
  · rintro ⟨hdiff, hin⟩
    obtain rfl : out = [] := hout.trans (visitAll_ids_nil hids fun m hm hlt => (hin m hm hlt).1)
    constructor
    case only => exact fun v hv => absurd hv List.not_mem_nil
    case restricted => exact fun hsame => absurd hsame hdiff
    case newest =>
      intro hle res p₁ hrun v hv _ m hm hlt hid
      obtain ⟨rfl, -⟩ := (timePointRead_ids_iff hids hle h).mp hrun
      obtain ⟨hv, hv0⟩ := List.mem_filter.mp hv
      exact (hin m hm hlt).2 hle v hv (by simpa using (Bool.and_eq_true_iff.mp hv0).1) hid.symm

/-- A read for id 1 that comes by nothing before the time point. -/
theorem backwardRead_ids_iff_first : ∃ log p out p' seen,
    appendAll [.array [.plain 1 10, .plain 2 20]] (create (calcSize 2)) = .ok (log, p) ∧
      p.backwardRead [1] 0 0 10 = .ok (out, p') ∧ p.backwardScan [1] 0 0 10 = .ok (seen, p') ∧
      HonoursIds [1] 10 [] p seen out := by
  obtain ⟨⟨log, p⟩, hrun, hok⟩ := exists_ok
    (x := appendAll [.array [.plain 1 10, .plain 2 20]] (create (calcSize 2)))
    (p := fun x : List Meas × Page => (x.2.backwardRead [1] 0 0 10).toOption.any fun _ : List Meas × Page =>
      (x.2.backwardScan [1] 0 0 10).toOption.any fun y : List Meas × Page => decide (∀ m, m ∈ y.1 → 10 ≤ m.time))
    (by decide +kernel)
  obtain ⟨⟨out, p'⟩, hread, hok⟩ := exists_ok hok
  obtain ⟨⟨seen', p₁⟩, hscan', hok⟩ := exists_ok hok
  obtain ⟨seen, hscan, hiff⟩ := backwardRead_ids_iff (by decide) [] hread
  obtain ⟨rfl, rfl⟩ := Prod.mk.inj (Except.ok.inj (hscan'.symm.trans hscan))
  exact ⟨log, p, out, p₁, seen', hrun, hread, hscan, hiff.mpr (.inl (of_decide_eq_true hok))⟩

/-- A read for id 1 returns id 2, and not id 1. -/
theorem backwardRead_ids_wrong : ∃ log p out p',
    appendAll [.array [.plain 1 10, .plain 2 20, .plain 1 30]] (create (calcSize 3)) = .ok (log, p) ∧
      p.backwardRead [1] 0 0 30 = .ok (out, p') ∧ (∃ v, v ∈ out ∧ v.id = 2) ∧ ¬ ∃ v, v ∈ out ∧ v.id = 1 := by
  obtain ⟨⟨log, p⟩, hrun, hok⟩ := exists_ok
    (x := appendAll [.array [.plain 1 10, .plain 2 20, .plain 1 30]] (create (calcSize 3)))
    (p := fun x : List Meas × Page => (x.2.backwardRead [1] 0 0 30).toOption.any fun y : List Meas × Page =>
      decide ((∃ v, v ∈ y.1 ∧ v.id = 2) ∧ ¬ ∃ v, v ∈ y.1 ∧ v.id = 1)) (by decide +kernel)
  obtain ⟨⟨out, p'⟩, hread, hok⟩ := exists_ok hok
  exact ⟨log, p, out, p', hrun, hread, of_decide_eq_true hok⟩

/-! ### Flags and sources -/

/-- The measurement has the flag and the source, where these are not 0. -/
def Matches (source flag : Flag) (m : Meas) : Prop := (flag = 0 ∨ m.flag = flag) ∧ (source = 0 ∨ m.source = source)

theorem backwardCheck_iff {source flag : Flag} {m : Meas} :
    backwardCheck [] source flag m = true ↔ Matches source flag m := by
  simp [backwardCheck, Matches, or_iff_not_imp_left]

/-- A value returned is the newest of its id, of those with the flag and the source that were come by before
the time point. -/
structure NewestMatch (source flag : Flag) (tp : Time) (seen : List Meas) (v : Meas) : Prop where
  passes : Matches source flag v
  mem : v ∈ seen
  before : v.time < tp
  newest : ∀ m, m ∈ seen → m.id = v.id → m.time < tp → Matches source flag m → m.time ≤ v.time

/-- A page read backwards returns the newest measurements with the flag and the source if and only if,
for each id, what is come by without them after one with them is outdone by one with them: by a
newer one, or by one come by before it that is not older. -/
theorem backwardRead_flags_iff {source flag : Flag} {tp : Time} {p p' : Page} {out : List Meas}
    (h : p.backwardRead [] source flag tp = .ok (out, p')) :
    ∃ seen, p.backwardScan [] source flag tp = .ok (seen, p') ∧
      ((∀ v, v ∈ out → NewestMatch source flag tp seen v) ↔
        ∀ id, KeyedFold.Outdone (backwardCheck [] source flag) Meas.time (seenBefore tp id seen)) := by
  obtain ⟨irecords, seen, -, hscan, -, -, rfl⟩ := backwardRead_ok h
  refine ⟨seen, hscan, ?_⟩
  constructor
  · intro hall id
    cases hf : (visitAll (backwardCheck [] source flag) tp seen []).find id with
    | none =>
      rw [find_visitAll] at hf
      intro before x after he _ hsome
      obtain ⟨y, hy, hay⟩ := hsome
      have := KeyedFold.foldl_keepNewest_none.mp hf y (by rw [he]; exact List.mem_append_left _ hy)
      rw [hay] at this
      cases this
    | some v =>
      have hid : v.id = id := by simpa [MeasMap.find] using List.find?_some hf
      have hv : v ∈ visitAll (backwardCheck [] source flag) tp seen [] := List.mem_of_find?_eq_some hf
      rw [← hid]
      exact (mem_visitAll_iff.mp hv).admits_iff.mp (backwardCheck_iff.mpr (hall v hv).passes)
  · intro hall v hv
    have hkept := mem_visitAll_iff.mp hv
    obtain ⟨hseen, hlt⟩ := seen_of_mem hv
    refine ⟨backwardCheck_iff.mp (hkept.admits_iff.mpr (hall v.id)), hseen, hlt, fun m hm hid hmt hpass => ?_⟩
    exact hkept.rank_le (mem_seenBefore.mpr ⟨hm, hid, hmt⟩) (backwardCheck_iff.mpr hpass)

/-- Two ids with the flag asked for. -/
theorem backwardRead_flags_iff_two : ∃ log p out p' seen,
    appendAll [.array [{Meas.plain 1 10 with flag := 1}, {Meas.plain 8 20 with flag := 1}, Meas.plain 9 30]]
      (create (calcSize 3)) = .ok (log, p) ∧
    p.backwardRead [] 0 1 30 = .ok (out, p') ∧ p.backwardScan [] 0 1 30 = .ok (seen, p') ∧ out.length = 2 ∧
    ∀ v, v ∈ out → NewestMatch 0 1 30 seen v := by
  obtain ⟨⟨log, p⟩, hrun, hok⟩ := exists_ok
    (x := appendAll [.array [{Meas.plain 1 10 with flag := 1}, {Meas.plain 8 20 with flag := 1}, Meas.plain 9 30]]
      (create (calcSize 3)))
    (p := fun x : List Meas × Page => (x.2.backwardRead [] 0 1 30).toOption.any fun y : List Meas × Page =>
      decide (y.1.length = 2) && (x.2.backwardScan [] 0 1 30).toOption.any fun z : List Meas × Page =>
        decide (∀ m, m ∈ z.1 → m.time < 30 → backwardCheck [] 0 1 m = true)) (by decide +kernel)
  obtain ⟨⟨out, p'⟩, hread, hok⟩ := exists_ok hok
  obtain ⟨hlen, hpass⟩ := Bool.and_eq_true_iff.mp hok
  obtain ⟨⟨seen', p₁⟩, hscan', hpass⟩ := exists_ok hpass
  obtain ⟨seen, hscan, hiff⟩ := backwardRead_flags_iff hread
  obtain ⟨rfl, rfl⟩ := Prod.mk.inj (Except.ok.inj (hscan'.symm.trans hscan))
  refine ⟨log, p, out, p₁, seen', hrun, hread, hscan, of_decide_eq_true hlen, hiff.mpr fun id => ?_⟩
  intro before x after he hx _
  have hmem : x ∈ seenBefore 30 id seen' := by simp [he]
  obtain ⟨hseen, -, hlt⟩ := mem_seenBefore.mp hmem
  rw [of_decide_eq_true hpass x hseen hlt] at hx
  cases hx

/-- The second batch carries late data. Its record is gone over after that of the first one, and the
measurement with flag 8 there replaces the one with flag 1. -/
theorem backwardRead_flags_wrong : ∃ log p out p',
    appendAll [.array [{Meas.plain 1 20 with flag := 1}, Meas.plain 9 40],
      .array [Meas.plain 9 10, {Meas.plain 1 22 with flag := 8}, Meas.plain 9 30]] (create (calcSize 5)) =
        .ok (log, p) ∧
    p.backwardRead [] 0 1 25 = .ok (out, p') ∧ ∃ v, v ∈ out ∧ v.flag ≠ 1 := by
  obtain ⟨⟨log, p⟩, hrun, hok⟩ := exists_ok
    (x := appendAll [.array [{Meas.plain 1 20 with flag := 1}, Meas.plain 9 40],
      .array [Meas.plain 9 10, {Meas.plain 1 22 with flag := 8}, Meas.plain 9 30]] (create (calcSize 5)))
    (p := fun x : List Meas × Page => (x.2.backwardRead [] 0 1 25).toOption.any fun y : List Meas × Page =>
      decide (∃ v, v ∈ y.1 ∧ v.flag ≠ 1)) (by decide +kernel)
  obtain ⟨⟨out, p'⟩, hread, hok⟩ := exists_ok hok
  exact ⟨log, p, out, p', hrun, hread, of_decide_eq_true hok⟩

end Nkvdb.Page
