import Nkvdb.Page.Records

/-! What the filters of an index record let through.

An array append cuts its elements into slices of a hundred and writes a record for each. Both
filters of a record gather ids: those of its slice, but the first one of a later slice, and the id
behind it. The bounds of the ids are the ids at the two ends of the last slice, and the times there
of every other. So a search can pass over a record that counts what it is for. -/
namespace Nkvdb.Page
open Index

/-! ### The tests of a search -/

/-- The tests on the two filters. -/
def fltrsPass (flag source : Flag) (r : IndexRecord) : Bool :=
  !(flag != 0 && r.flgFltr != 0 && !bloomCheck r.flgFltr flag) &&
    !(source != 0 && r.srcFltr != 0 && !bloomCheck r.srcFltr source)

/-- The test on the bounds of the ids. -/
def idsPass (ids : List Id) (r : IndexRecord) : Bool :=
  ids.isEmpty || inInterval (ids.foldl min (ids.headD 0)) (ids.foldl max (ids.headD 0)) r.minId ||
    inInterval (ids.foldl min (ids.headD 0)) (ids.foldl max (ids.headD 0)) r.maxId

theorem wanted_eq (ids : List Id) (fromTime toTime : Time) (flag source : Flag) (r : IndexRecord) :
    wanted ids fromTime toTime flag source r =
      (fltrsPass flag source r && checkInterval r fromTime toTime && idsPass ids r) := rfl

/-! ### The record of a slice -/

theorem bloomAdd_self (fltr val : U64) : bloomAdd (bloomAdd fltr val) val = bloomAdd fltr val := by
  apply Fin.ext
  apply Nat.eq_of_testBit_eq
  intro i
  simp [testBit_bloomAdd]

/-- The ids of the elements from `a` on and before `b`, or'ed. -/
def idFilter (ms : List Meas) (a b : Nat) : Flag :=
  (List.range' a (b - a)).foldl (fun fltr j => bloomAdd fltr (nth ms j).id) 0

theorem idFilter_self (ms : List Meas) (a : Nat) : idFilter ms a a = 0 := by
  simp [idFilter]

theorem idFilter_succ (ms : List Meas) {a b : Nat} (h : a ≤ b) :
    idFilter ms a (b + 1) = bloomAdd (idFilter ms a b) (nth ms b).id := by
  unfold idFilter
  rw [Nat.succ_sub h, List.range'_concat, List.foldl_append, Nat.one_mul, Nat.add_sub_cancel' h]
  rfl

/-- Where the slice of element `i` begins. -/
def sliceStart (i : Nat) : Nat := i / 100 * 100

/-- The first element of a slice that is gathered in. -/
def gatherStart (s : Nat) : Nat := if s = 0 then 0 else s + 1

/-- The filter of the slice of element `i`, of `k` elements. -/
def sliceFilter (ms : List Meas) (k i : Nat) : Flag :=
  idFilter ms (gatherStart (sliceStart i)) (min (sliceStart i + 101) k)

/-- What stands for the ids of the slice of element `i`, of `k` elements. -/
def sliceIds (ms : List Meas) (k i : Nat) : Id × Id :=
  if sliceStart i + 100 < k then ((nth ms (sliceStart i)).time, (nth ms (sliceStart i + 99)).time)
  else ((nth ms (sliceStart i)).id, (nth ms (k - 1)).id)

/-- The record has the filters and the ids of the slice that begins at its first element. -/
structure Sliced (ms : List Meas) (pos k : Nat) (r : IndexRecord) : Prop where
  first : ∃ s, s % 100 = 0 ∧ r.pos = pos + s
  count : r.count ≤ 100
  flgFltr : r.flgFltr = sliceFilter ms k (r.pos - pos)
  srcFltr : r.srcFltr = sliceFilter ms k (r.pos - pos)
  ids : (r.minId, r.maxId) = sliceIds ms k (r.pos - pos)

/-- The locals at element `i` have gathered the ids before it. -/
structure Gathering (ms : List Meas) (pos i : Nat) (c : Chunk) : Prop where
  locals : c.At pos i
  flg : c.curFlgFltr = idFilter ms (gatherStart c.start) i
  src : c.curSrcFltr = idFilter ms (gatherStart c.start) i

theorem Gathering.init (ms : List Meas) (pos : Nat) : Gathering ms pos 0 ⟨pos, 0, 0, 0⟩ :=
  ⟨Chunk.At.init pos, (idFilter_self ms 0).symm, (idFilter_self ms 0).symm⟩

theorem sliceStart_of_dvd {s : Nat} (h : s % 100 = 0) : sliceStart s = s := by
  unfold sliceStart
  omega

theorem Gathering.next {ms : List Meas} {pos i : Nat} {c : Chunk} (h : Gathering ms pos i c) {k : Nat} (hk : i < k) :
    Gathering ms pos (i + 1) (chunkNext ms i c).1 ∧ ∀ r, r ∈ (chunkNext ms i c).2 → Sliced ms pos k r := by
  have hat := (chunkNext_positions ms h.locals).1
  have hwp := h.locals.writePosBegin
  have hs := h.locals.start
  have hfull := h.locals.full
  have h100 := h.locals.hundreds
  have hfirst := h.locals.first
  have hgather : gatherStart c.start ≤ i := by
    unfold gatherStart
    split <;> omega
  have hflg : bloomAdd c.curSrcFltr (nth ms i).id = idFilter ms (gatherStart c.start) (i + 1) := by
    rw [h.src, idFilter_succ ms hgather]
  have hsrc : bloomAdd (bloomAdd c.curSrcFltr (nth ms i).id) (nth ms i).id =
      idFilter ms (gatherStart c.start) (i + 1) := by
    rw [bloomAdd_self, hflg]
  unfold chunkNext at hat ⊢
  by_cases hi : i ≠ 0 ∧ i % 100 = 0
  · have hstart : i = c.start + 100 := by omega
    have hoff : c.writePosBegin - pos = c.start := by omega
    have hslice := sliceStart_of_dvd h100
    rw [if_pos hi] at hat ⊢
    have hempty : idFilter ms (gatherStart i) (i + 1) = 0 := by
      rw [gatherStart, if_neg hi.1, idFilter_self]
    have hmin : min (c.start + 101) k = i + 1 := by omega
    refine ⟨⟨hat, hempty.symm, hempty.symm⟩, fun r hr => ?_⟩
    obtain rfl := List.mem_singleton.mp hr
    refine ⟨⟨c.start, h100, hwp⟩, le_rfl, ?_, ?_, ?_⟩
    · show _ = sliceFilter ms k (c.writePosBegin - pos)
      rw [hoff, sliceFilter, hslice, hmin]
      exact hflg
    · show _ = sliceFilter ms k (c.writePosBegin - pos)
      rw [hoff, sliceFilter, hslice, hmin]
      exact hsrc
    · show ((nth ms c.start).time, (nth ms (i - 1)).time) = sliceIds ms k (c.writePosBegin - pos)
      have hlast : i - 1 = c.start + 99 := by omega
      rw [hoff, sliceIds, hslice, if_pos (by omega), hlast]
  · rw [if_neg hi] at hat ⊢
    exact ⟨⟨hat, hflg, hsrc⟩, fun r hr => absurd hr List.not_mem_nil⟩

/-- The loop over `n` elements, of `k` to come in all. -/
theorem Gathering.loop {ms : List Meas} {pos i n : Nat} {c : Chunk} (h : Gathering ms pos i c) {k : Nat}
    (hk : i + n ≤ k) :
    Gathering ms pos (i + n) (chunkLoop ms n i c).1 ∧ ∀ r, r ∈ (chunkLoop ms n i c).2 → Sliced ms pos k r := by
  induction n generalizing i c with
  | zero => exact ⟨h, fun r hr => absurd hr List.not_mem_nil⟩
  | succ n ih =>
    obtain ⟨hnext, hrecs⟩ := h.next (k := k) (by omega)
    obtain ⟨hend, hrest⟩ := ih hnext (by omega)
    have hi : i + 1 + n = i + (n + 1) := by omega
    rw [hi] at hend
    refine ⟨hend, fun r hr => ?_⟩
    rcases List.mem_append.mp hr with hr | hr
    · exact hrecs r hr
    · exact hrest r hr

/-- Every record of an array append is one of a slice. -/
theorem records_sliced (ms : List Meas) (pos k : Nat) {r : IndexRecord} (hr : r ∈ (Op.array ms).records pos k) :
    Sliced ms pos k r := by
  obtain ⟨hend, hrecs⟩ := (Gathering.init ms pos).loop (n := k) (k := k) (by omega)
  rw [Nat.zero_add] at hend
  obtain ⟨⟨c, recs⟩, hloop⟩ : ∃ x, chunkLoop ms k 0 ⟨pos, 0, 0, 0⟩ = x := ⟨_, rfl⟩
  have hrecords : (Op.array ms).records pos k = recs ++ lastRecord ms k c := by
    show (chunkLoop ms k 0 ⟨pos, 0, 0, 0⟩).2 ++ lastRecord ms k (chunkLoop ms k 0 ⟨pos, 0, 0, 0⟩).1 = _
    rw [hloop]
  rw [hloop] at hend hrecs
  rw [hrecords] at hr
  rcases List.mem_append.mp hr with hr | hr
  · exact hrecs r hr
  · unfold lastRecord at hr
    by_cases hlast : c.start ≠ k
    · rw [if_pos hlast] at hr
      obtain rfl := List.mem_singleton.mp hr
      have hwp : c.writePosBegin = pos + c.start := hend.locals.writePosBegin
      have hs : c.start ≤ k := hend.locals.start
      have hfull : k ≤ c.start + 100 := hend.locals.full
      have h100 : c.start % 100 = 0 := hend.locals.hundreds
      have hoff : c.writePosBegin - pos = c.start := by omega
      have hslice := sliceStart_of_dvd h100
      have hmin : min (c.start + 101) k = k := by omega
      refine ⟨⟨c.start, h100, hwp⟩, ?_, ?_, ?_, ?_⟩
      · show k - c.start ≤ 100
        omega
      · show c.curFlgFltr = sliceFilter ms k (c.writePosBegin - pos)
        rw [hoff, sliceFilter, hslice, hmin]
        exact hend.flg
      · show c.curSrcFltr = sliceFilter ms k (c.writePosBegin - pos)
        rw [hoff, sliceFilter, hslice, hmin]
        exact hend.src
      · show ((nth ms c.start).id, (nth ms (k - 1)).id) = sliceIds ms k (c.writePosBegin - pos)
        rw [hoff, sliceIds, hslice, if_neg (by omega)]
    · rw [if_neg hlast] at hr
      exact absurd hr List.not_mem_nil

/-- The record that counts an element is the one of its slice. -/
theorem Sliced.slice {ms : List Meas} {pos k i : Nat} {r : IndexRecord} (h : Sliced ms pos k r)
    (hi : pos + i ∈ r.positions) : sliceStart (r.pos - pos) = sliceStart i := by
  obtain ⟨s, hs, hpos⟩ := h.first
  obtain ⟨hle, hlt⟩ := List.mem_range'_1.mp hi
  have hcount := h.count
  unfold sliceStart
  omega

section
variable {ms : List Meas} {pos k i : Nat} {r : IndexRecord}

theorem Sliced.filters (h : Sliced ms pos k r) (hi : pos + i ∈ r.positions) :
    r.flgFltr = sliceFilter ms k i ∧ r.srcFltr = sliceFilter ms k i := by
  rw [h.flgFltr, h.srcFltr, sliceFilter, sliceFilter, h.slice hi]
  exact ⟨rfl, rfl⟩

theorem Sliced.bounds (h : Sliced ms pos k r) (hi : pos + i ∈ r.positions) : (r.minId, r.maxId) = sliceIds ms k i := by
  rw [h.ids, sliceIds, sliceIds, h.slice hi]

end

/-- The records that an array append writes for the elements it accepts. -/
def written (ms : List Meas) (p : Page) (res : AppendResult) : List IndexRecord :=
  (Op.array ms).records p.header.writePos res.writed

/-- They go to the index, and one of them counts each position written. -/
theorem written_spec {ms : List Meas} {p p' : Page} {res : AppendResult} (h : p.appendArray ms = .ok (res, p')) :
    p.index.feed (written ms p res) = .ok p'.index ∧
      positions (written ms p res) = List.range' p.header.writePos res.writed := by
  obtain ⟨k, q, ix, ha, hf, rfl, rfl⟩ := appendArray_iff.mp h
  exact ⟨hf, ((Op.array ms).records_positions p.header.writePos (acceptAll_le ha)).1⟩

/-- What is asked of every stored element and the record that counts it. -/
theorem written_covered {ms : List Meas} {p p' : Page} {res : AppendResult} (h : p.appendArray ms = .ok (res, p'))
    {P : Nat → IndexRecord → Prop} {Q : Nat → Prop}
    (hPQ : ∀ i r, Sliced ms p.header.writePos res.writed r → p.header.writePos + i ∈ r.positions → (P i r ↔ Q i)) :
    (∀ i, i < res.writed → ∀ r, r ∈ written ms p res → p.header.writePos + i ∈ r.positions → P i r) ↔
      ∀ i, i < res.writed → Q i := by
  have hsliced : ∀ r, r ∈ written ms p res → Sliced ms p.header.writePos res.writed r := fun r hr =>
    records_sliced ms _ _ hr
  constructor
  · intro hall i hi
    have hpos : p.header.writePos + i ∈ positions (written ms p res) := by
      rw [(written_spec h).2, List.mem_range'_1]
      omega
    obtain ⟨r, hr, hmem⟩ := List.mem_flatMap.mp hpos
    exact (hPQ i r (hsliced r hr) hmem).mp (hall i hi r hr hmem)
  · intro hall i hi r hr hmem
    exact (hPQ i r (hsliced r hr) hmem).mpr (hall i hi)

/-! ### Flags and sources -/

theorem bloomCheck_zero (fltr : U64) : bloomCheck fltr 0 = true := by
  apply bloomCheck_iff.mpr
  intro i hi
  simp at hi

theorem fltrsPass_iff {flag source : Flag} {r : IndexRecord} : fltrsPass flag source r = true ↔
    (r.flgFltr = 0 ∨ bloomCheck r.flgFltr flag = true) ∧ (r.srcFltr = 0 ∨ bloomCheck r.srcFltr source = true) := by
  have hone : ∀ fltr val : U64, (!(val != 0 && fltr != 0 && !bloomCheck fltr val)) = true ↔
      fltr = 0 ∨ bloomCheck fltr val = true := by
    intro fltr val
    by_cases hval : val = 0
    · simp [hval, bloomCheck_zero]
    · by_cases hfltr : fltr = 0
      · simp [hfltr]
      · simp [hval, hfltr]
  rw [fltrsPass, Bool.and_eq_true, hone, hone]

/-- The filters of the records an array append writes let every search through that is for a stored
measurement if and only if the ids gathered for its slice cover its flag and its source, or are
all 0. -/
theorem filters_pass_iff {ms : List Meas} {p p' : Page} {res : AppendResult} (h : p.appendArray ms = .ok (res, p')) :
    p.index.feed (written ms p res) = .ok p'.index ∧
    positions (written ms p res) = List.range' p.header.writePos res.writed ∧
    ((∀ i, i < res.writed → ∀ r, r ∈ written ms p res → p.header.writePos + i ∈ r.positions →
        ∀ flag source, flag = 0 ∨ (nth ms i).flag = flag → source = 0 ∨ (nth ms i).source = source →
          fltrsPass flag source r = true) ↔
      ∀ i, i < res.writed → sliceFilter ms res.writed i = 0 ∨
        (bloomCheck (sliceFilter ms res.writed i) (nth ms i).flag = true ∧
          bloomCheck (sliceFilter ms res.writed i) (nth ms i).source = true)) := by
  obtain ⟨hfeed, hpos⟩ := written_spec h
  refine ⟨hfeed, hpos, written_covered h fun i r hr hi => ?_⟩
  obtain ⟨hflg, hsrc⟩ := hr.filters hi
  simp only [fltrsPass_iff, hflg, hsrc]
  constructor
  · intro hall
    have hboth := hall (nth ms i).flag (nth ms i).source (.inr rfl) (.inr rfl)
    tauto
  · intro hcover flag source hflag hsource
    have hzero := bloomCheck_zero (sliceFilter ms res.writed i)
    constructor
    · rcases hflag with rfl | rfl
      · exact .inr hzero
      · tauto
    · rcases hsource with rfl | rfl
      · exact .inr hzero
      · tauto

/-- The id 3 covers the flag 2, and the id 0 what there is. -/
theorem filters_pass_iff_two : ∃ res p', (create (calcSize 2)).appendArray
      [{Meas.plain 3 1 with flag := 2}, Meas.plain 0 2] = .ok (res, p') ∧ res.writed = 2 ∧
    ∀ i, i < res.writed → ∀ r,
      r ∈ written [{Meas.plain 3 1 with flag := 2}, Meas.plain 0 2] (create (calcSize 2)) res → i ∈ r.positions →
      ∀ flag source, flag = 0 ∨ (nth [{Meas.plain 3 1 with flag := 2}, Meas.plain 0 2] i).flag = flag →
        source = 0 ∨ (nth [{Meas.plain 3 1 with flag := 2}, Meas.plain 0 2] i).source = source →
          fltrsPass flag source r = true := by
  obtain ⟨⟨res, p'⟩, hrun, hlen⟩ := exists_ok
    (x := (create (calcSize 2)).appendArray [{Meas.plain 3 1 with flag := 2}, Meas.plain 0 2])
    (p := fun x => decide (x.1.writed = 2)) (by decide +kernel)
  have hlen : res.writed = 2 := of_decide_eq_true hlen
  refine ⟨res, p', hrun, hlen, fun i hi r hr hmem => ?_⟩
  refine (filters_pass_iff hrun).2.2.mpr ?_ i hi r hr (by rwa [show (create (calcSize 2)).header.writePos = 0 from rfl,
    Nat.zero_add])
  rw [hlen]
  decide +kernel

/-- A measurement of id 1 with flag 2: the filter of its record is 1, and a search for flag 2 passes
over it. -/
theorem filters_drop : ∃ res p', (create (calcSize 1)).appendArray [{Meas.plain 1 1 with flag := 2}] = .ok (res, p') ∧
    res.writed = 1 ∧ ∃ r, r ∈ written [{Meas.plain 1 1 with flag := 2}] (create (calcSize 1)) res ∧ 0 ∈ r.positions ∧
      fltrsPass 2 0 r = false := by
  obtain ⟨⟨res, p'⟩, hrun, hlen⟩ := exists_ok
    (x := (create (calcSize 1)).appendArray [{Meas.plain 1 1 with flag := 2}])
    (p := fun x => decide (x.1.writed = 1)) (by decide +kernel)
  have hlen : res.writed = 1 := of_decide_eq_true hlen
  refine ⟨res, p', hrun, hlen, ?_⟩
  unfold written
  rw [hlen]
  decide +kernel

/-! ### Ids -/

theorem foldl_min_le (ids : List Id) (a : Id) : ids.foldl min a ≤ a ∧ ∀ x, x ∈ ids → ids.foldl min a ≤ x := by
  induction ids generalizing a with
  | nil => simp
  | cons y ids ih =>
    obtain ⟨hle, hall⟩ := ih (min a y)
    simp only [List.foldl_cons, List.mem_cons]
    refine ⟨hle.trans (min_le_left ..), ?_⟩
    rintro x (rfl | hx)
    · exact hle.trans (min_le_right ..)
    · exact hall x hx

theorem le_foldl_max (ids : List Id) (a : Id) : a ≤ ids.foldl max a ∧ ∀ x, x ∈ ids → x ≤ ids.foldl max a := by
  induction ids generalizing a with
  | nil => simp
  | cons y ids ih =>
    obtain ⟨hle, hall⟩ := ih (max a y)
    simp only [List.foldl_cons, List.mem_cons]
    refine ⟨(le_max_left ..).trans hle, ?_⟩
    rintro x (rfl | hx)
    · exact (le_max_right ..).trans hle
    · exact hall x hx

/-- A record whose bounds are wanted passes. -/
theorem idsPass_of_mem {ids : List Id} {r : IndexRecord} (h : r.minId ∈ ids ∨ r.maxId ∈ ids) :
    idsPass ids r = true := by
  have hin : ∀ x, x ∈ ids → inInterval (ids.foldl min (ids.headD 0)) (ids.foldl max (ids.headD 0)) x = true := by
    intro x hx
    have hmin := (foldl_min_le ids (ids.headD 0)).2 x hx
    have hmax := (le_foldl_max ids (ids.headD 0)).2 x hx
    simp only [inInterval, hmin, hmax, decide_true, Bool.and_true]
  unfold idsPass
  rcases h with h | h
  · simp only [hin _ h, Bool.or_true, Bool.true_or]
  · simp only [hin _ h, Bool.or_true]

/-- A search for one id wants it as a bound. -/
theorem idsPass_single {id : Id} {r : IndexRecord} : idsPass [id] r = true ↔ id = r.minId ∨ id = r.maxId := by
  have hone : ∀ x : Id, inInterval id id x = true ↔ id = x := by
    intro x
    simp only [inInterval, Bool.and_eq_true, decide_eq_true_eq]
    exact le_antisymm_iff.symm
  simp only [idsPass, List.isEmpty_cons, List.headD_cons, List.foldl_cons, List.foldl_nil, min_self, max_self,
    Bool.false_or, Bool.or_eq_true, hone]

/-- The id test of a search for a stored measurement passes the record that counts it if and only if
its id is one of the two that the record has for its slice. -/
theorem ids_pass_iff {ms : List Meas} {p p' : Page} {res : AppendResult} (h : p.appendArray ms = .ok (res, p')) :
    p.index.feed (written ms p res) = .ok p'.index ∧
    positions (written ms p res) = List.range' p.header.writePos res.writed ∧
    ((∀ i, i < res.writed → ∀ r, r ∈ written ms p res → p.header.writePos + i ∈ r.positions →
        ∀ ids, (nth ms i).id ∈ ids → idsPass ids r = true) ↔
      ∀ i, i < res.writed →
        (nth ms i).id = (sliceIds ms res.writed i).1 ∨ (nth ms i).id = (sliceIds ms res.writed i).2) := by
  obtain ⟨hfeed, hpos⟩ := written_spec h
  refine ⟨hfeed, hpos, written_covered h fun i r hr hi => ?_⟩
  rw [← hr.bounds hi]
  constructor
  · intro hall
    exact idsPass_single.mp (hall [(nth ms i).id] List.mem_cons_self)
  · intro hbound ids hid
    apply idsPass_of_mem
    exact hbound.imp (fun he => by rwa [he] at hid) (fun he => by rwa [he] at hid)

/-- Two ids, at the ends of the slice. -/
theorem ids_pass_iff_two : ∃ res p',
    (create (calcSize 2)).appendArray [Meas.plain 7 1, Meas.plain 5 2] = .ok (res, p') ∧ res.writed = 2 ∧
      ∀ i, i < res.writed → ∀ r, r ∈ written [Meas.plain 7 1, Meas.plain 5 2] (create (calcSize 2)) res →
        i ∈ r.positions → ∀ ids, (nth [Meas.plain 7 1, Meas.plain 5 2] i).id ∈ ids → idsPass ids r = true := by
  obtain ⟨⟨res, p'⟩, hrun, hlen⟩ := exists_ok
    (x := (create (calcSize 2)).appendArray [Meas.plain 7 1, Meas.plain 5 2])
    (p := fun x => decide (x.1.writed = 2)) (by decide +kernel)
  have hlen : res.writed = 2 := of_decide_eq_true hlen
  refine ⟨res, p', hrun, hlen, fun i hi r hr hmem => ?_⟩
  refine (ids_pass_iff hrun).2.2.mpr ?_ i hi r hr (by rwa [show (create (calcSize 2)).header.writePos = 0 from rfl,
    Nat.zero_add])
  rw [hlen]
  decide +kernel

/-- Ids 5, 1 and 5: the bounds of the record are 5 and 5, and a search for id 1 passes over it. -/
theorem ids_drop : ∃ res p', (create (calcSize 3)).appendArray [Meas.plain 5 1, Meas.plain 1 2, Meas.plain 5 3] =
      .ok (res, p') ∧ res.writed = 3 ∧
    ∃ r, r ∈ written [Meas.plain 5 1, Meas.plain 1 2, Meas.plain 5 3] (create (calcSize 3)) res ∧ 1 ∈ r.positions ∧
      idsPass [1] r = false := by
  obtain ⟨⟨res, p'⟩, hrun, hlen⟩ := exists_ok
    (x := (create (calcSize 3)).appendArray [Meas.plain 5 1, Meas.plain 1 2, Meas.plain 5 3])
    (p := fun x => decide (x.1.writed = 3)) (by decide +kernel)
  have hlen : res.writed = 3 := of_decide_eq_true hlen
  refine ⟨res, p', hrun, hlen, ?_⟩
  unfold written
  rw [hlen]
  decide +kernel

end Nkvdb.Page
