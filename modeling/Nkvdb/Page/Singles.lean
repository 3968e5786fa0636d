import Nkvdb.Page.Reopen
import Nkvdb.Page.Sorted

/-! Appending an array, and appending its elements.

Both ways put the same measurements on the page, with the same bounds of the times where the
array is sorted. They write different records to the index, so that one of them can throw
where the other does not only when the index does not take its records. -/
namespace Nkvdb.Page
open Index

/-- `Page::append` of one measurement after the other, until one is refused: how many were
written. With each comes what its index record leaves unset. -/
def appendEach : List (Meas × (Flag × Flag)) → Page → Except Fault (Nat × Page)
  | [], p => .ok (0, p)
  | (m, junk) :: calls, p => do
    let (r, p) ← p.append m junk
    if r.writed = 0 then return (0, p)
    let (n, p) ← appendEach calls p
    return (r.writed + n, p)

/-- The records written for measurements stored from `pos` on. -/
def eachRecords : Nat → List (Meas × (Flag × Flag)) → List IndexRecord
  | _, [] => []
  | pos, (m, junk) :: calls => ⟨pos, 1, m.time, m.time, m.id, m.id, junk.1, junk.2⟩ :: eachRecords (pos + 1) calls

/-! ### The bounds of the times on the way -/

/-- The page with the bounds of its times moved by a measurement. -/
def bound (m : Meas) (p : Page) : Page := {p with header := updateMinMax m p.header}

theorem isFull_bound (m : Meas) (p : Page) : (p.bound m).isFull = p.isFull := by
  obtain ⟨lo, hi, he⟩ := updateMinMax_eq m p.header
  unfold isFull bound
  rw [he]

theorem advance_bound (m : Meas) (p : Page) : (p.bound m).advance = p.advance.bound m := by
  cases hi : p.header.minMaxInit <;> simp [advance, bound, updateMinMax, hi]

theorem writePos_bound (m : Meas) (p : Page) : (p.bound m).header.writePos = p.header.writePos := by
  obtain ⟨lo, hi, he⟩ := updateMinMax_eq m p.header
  show (updateMinMax m p.header).writePos = _
  rw [he]

theorem readersCount_bound (m : Meas) (p : Page) : (p.bound m).header.readersCount = p.header.readersCount := by
  obtain ⟨lo, hi, he⟩ := updateMinMax_eq m p.header
  show (updateMinMax m p.header).readersCount = _
  rw [he]

/-- The bounds of the times do not matter to what is accepted. -/
theorem acceptAll_bound (m : Meas) (ms : List Meas) (p : Page) :
    acceptAll ms (p.bound m) = (acceptAll ms p).map fun x => (x.1, x.2.bound m) := by
  induction ms generalizing p with
  | nil => rfl
  | cons m' ms ih =>
    show (if (p.bound m).isFull then _ else _) = Except.map _ (if p.isFull then _ else _)
    rw [isFull_bound]
    split
    · rfl
    · rw [show put m' (p.bound m) = (put m' p).map fun q => q.bound m from put_minMax m' m p]
      cases put m' p with
      | error e => rfl
      | ok q =>
        show Except.map _ (acceptAll ms (q.bound m).advance) = Except.map _ (Except.map _ (acceptAll ms q.advance))
        rw [advance_bound, ih]
        cases acceptAll ms q.advance <;> rfl

/-! ### One by one -/

/-- The page after one of the single appends, with `ix` as its index. -/
def stored (m : Meas) (ix : Index) (q : Page) : Page := {q.advance.bound m with index := ix}

theorem appendEach_cons (m : Meas) (junk : Flag × Flag) (calls : List (Meas × (Flag × Flag))) (p : Page) :
    p.appendEach ((m, junk) :: calls) =
      if p.header.readersCount ≠ 0 then .error .assertion
      else if p.isFull then .ok (0, p)
      else (put m p).bind fun q =>
        (q.index.writeIndexRec ⟨q.header.writePos, 1, m.time, m.time, m.id, m.id, junk.1, junk.2⟩).bind fun ix =>
          ((q.stored m ix).appendEach calls).map fun x => (x.1 + 1, x.2) := by
  rw [appendEach, append_eq]
  by_cases hreaders : p.header.readersCount ≠ 0
  · rw [if_pos hreaders, if_pos hreaders]
    rfl
  rw [if_neg hreaders, if_neg hreaders]
  by_cases hfull : p.isFull = true
  · rw [if_pos hfull, if_pos hfull]
    rfl
  rw [if_neg hfull, if_neg hfull]
  cases put m p with
  | error e => rfl
  | ok q =>
    simp only [bind, Except.bind, Except.map]
    cases q.index.writeIndexRec _ with
    | error e => rfl
    | ok ix =>
      show Except.bind (appendEach calls (q.stored m ix)) _ = Except.map _ (appendEach calls (q.stored m ix))
      cases appendEach calls (q.stored m ix) with
      | error e => rfl
      | ok x => exact congrArg (fun k => Except.ok (k, x.2)) (Nat.add_comm 1 x.1)

theorem acceptAll_stored (ms : List Meas) (m : Meas) (ix : Index) {q q' : Page} {n : Nat} :
    acceptAll ms (q.stored m ix) = .ok (n, q') ↔
      ∃ q₁, acceptAll ms q.advance = .ok (n, q₁) ∧ q' = {q₁.bound m with index := ix} := by
  unfold stored
  rw [acceptAll_index ix, acceptAll_bound]
  constructor
  · rintro ⟨q₂, h, rfl⟩
    cases hq : acceptAll ms q.advance with
    | error e =>
      rw [hq] at h
      cases h
    | ok x =>
      rw [hq] at h
      obtain ⟨rfl, rfl⟩ := Prod.mk.inj (Except.ok.inj h)
      exact ⟨x.2, rfl, rfl⟩
  · rintro ⟨q₁, h, rfl⟩
    rw [h]
    exact ⟨q₁.bound m, rfl, rfl⟩

/-- Appending one by one is what is accepted, the records fed to the index and the bounds. -/
theorem appendEach_iff {calls : List (Meas × (Flag × Flag))} {p p' : Page} {n : Nat} :
    p.appendEach calls = .ok (n, p') ↔ (calls ≠ [] → p.header.readersCount = 0) ∧
      ∃ q ix, acceptAll (calls.map Prod.fst) p = .ok (n, q) ∧
        p.index.feed (eachRecords p.header.writePos (calls.take n)) = .ok ix ∧
        p' = {q with index := ix, header := minMaxAll ((calls.map Prod.fst).take n) q.header} := by
  induction calls generalizing p p' n with
  | nil =>
    constructor
    · intro h
      obtain ⟨rfl, rfl⟩ := Prod.mk.inj (Except.ok.inj h)
      exact ⟨fun hne => absurd rfl hne, p, p.index, rfl, rfl, rfl⟩
    · rintro ⟨-, q, ix, ha, hf, rfl⟩
      obtain ⟨rfl, rfl⟩ := acceptAll_nil ha
      obtain rfl : q.index = ix := by simpa [Index.feed, eachRecords] using hf
      rfl
  | cons c calls ih =>
    obtain ⟨m, junk⟩ := c
    rw [appendEach_cons]
    by_cases hreaders : p.header.readersCount ≠ 0
    · rw [if_pos hreaders]
      constructor
      · intro h
        cases h
      · intro h
        exact absurd (h.1 (List.cons_ne_nil _ _)) hreaders
    have hzero : p.header.readersCount = 0 := not_not.mp hreaders
    rw [if_neg hreaders]
    refine Iff.trans ?_ (and_iff_right fun _ => hzero).symm
    rw [List.map_cons]
    unfold acceptAll
    by_cases hfull : p.isFull = true
    · rw [if_pos hfull, if_pos hfull]
      constructor
      · intro h
        obtain ⟨rfl, rfl⟩ := Prod.mk.inj (Except.ok.inj h)
        exact ⟨p, p.index, rfl, rfl, rfl⟩
      · rintro ⟨q, ix, ha, hf, rfl⟩
        obtain ⟨rfl, rfl⟩ := Prod.mk.inj (Except.ok.inj ha)
        obtain rfl : p.index = ix := by simpa [Index.feed, eachRecords] using hf
        rfl
    rw [if_neg hfull, if_neg hfull]
    cases hput : put m p with
    | error e => simp [bind, Except.bind]
    | ok q =>
      obtain ⟨w, -, -, rfl⟩ := put_iff.mp hput
      -- the page that the next of them is appended to
      have hwp : ∀ ix, ((p.withMeas m w).stored m ix).header.writePos = p.header.writePos + 1 := fun ix =>
        writePos_bound m (p.withMeas m w).advance
      have hrc : ∀ ix, ((p.withMeas m w).stored m ix).header.readersCount = 0 := fun ix =>
        (readersCount_bound m (p.withMeas m w).advance).trans hzero
      simp only [bind, Except.bind]
      constructor
      · intro h
        obtain ⟨ix₁, hw, h⟩ := bind_ok (x := p.index.writeIndexRec ⟨p.header.writePos, 1, m.time, m.time, m.id, m.id,
          junk.1, junk.2⟩) h
        cases hrest : ((p.withMeas m w).stored m ix₁).appendEach calls with
        | error e =>
          rw [hrest] at h
          cases h
        | ok x =>
          rw [hrest] at h
          obtain ⟨rfl, rfl⟩ := Prod.mk.inj (Except.ok.inj h)
          obtain ⟨-, q₁, ix, ha, hf, hp⟩ := ih.mp hrest
          obtain ⟨q₂, hacc, rfl⟩ := (acceptAll_stored ..).mp ha
          rw [hwp] at hf
          refine ⟨q₂, ix, ?_, ?_, hp⟩
          · rw [hacc]
            rfl
          · show (p.index.writeIndexRec _ >>= Index.feed _) = _
            rw [hw]
            exact hf
      · rintro ⟨q', ix, ha, hf, rfl⟩
        cases hrest : acceptAll (calls.map Prod.fst) (p.withMeas m w).advance with
        | error e =>
          rw [hrest] at ha
          cases ha
        | ok x =>
          rw [hrest] at ha
          obtain ⟨rfl, rfl⟩ := Prod.mk.inj (Except.ok.inj ha)
          obtain ⟨ix₁, hw, hf⟩ := bind_ok hf
          have hnext : ((p.withMeas m w).stored m ix₁).appendEach calls = .ok (x.1, _) :=
            ih.mpr ⟨fun _ => hrc ix₁, {x.2.bound m with index := ix₁}, ix, (acceptAll_stored ..).mpr ⟨x.2, hrest, rfl⟩,
              by rw [hwp]; exact hf, rfl⟩
          show Except.bind (p.index.writeIndexRec _) _ = _
          rw [show p.index.writeIndexRec ⟨(p.withMeas m w).header.writePos, 1, m.time, m.time, m.id, m.id, junk.1,
            junk.2⟩ = .ok ix₁ from hw]
          show Except.map _ (appendEach calls ((p.withMeas m w).stored m ix₁)) = _
          rw [hnext]
          rfl

/-! ### Both ways -/

/-- The buffer of an index takes the records it has room for. -/
theorem feed_room {recs : List IndexRecord} {ix : Index} (h : ix.cache.length + recs.length ≤ ix.cacheSize) :
    ∃ ix', ix.feed recs = .ok ix' := by
  induction recs generalizing ix with
  | nil => exact ⟨ix, rfl⟩
  | cons r recs ih =>
    rw [List.length_cons] at h
    have hw : ix.writeIndexRec r = .ok {ix with cache := ix.cache ++ [r]} := by
      unfold Index.writeIndexRec
      rw [if_neg (by omega)]
      rfl
    have hroom : ({ix with cache := ix.cache ++ [r]} : Index).cache.length + recs.length ≤ ix.cacheSize := by
      show (ix.cache ++ [r]).length + recs.length ≤ ix.cacheSize
      rw [List.length_append, List.length_singleton]
      omega
    obtain ⟨ix', hf⟩ := ih hroom
    exact ⟨ix', by simp only [Index.feed, hw, bind, Except.bind]; exact hf⟩

theorem length_eachRecords (pos : Nat) (calls : List (Meas × (Flag × Flag))) :
    (eachRecords pos calls).length = calls.length := by
  induction calls generalizing pos with
  | nil => rfl
  | cons c calls ih => exact congrArg (· + 1) (ih (pos + 1))

theorem length_le_positions {recs : List IndexRecord} (h : ∀ r, r ∈ recs → 0 < r.count) :
    recs.length ≤ (positions recs).length := by
  induction recs with
  | nil => exact le_rfl
  | cons r recs ih =>
    have hr := h r List.mem_cons_self
    have hrest := ih fun x hx => h x (List.mem_cons_of_mem _ hx)
    show recs.length + 1 ≤ (r.positions ++ positions recs).length
    rw [List.length_append, IndexRecord.positions, List.length_range']
    omega

/-- The index takes the records of the measurements accepted, written either way. -/
def BothTaken (calls : List (Meas × (Flag × Flag))) (p : Page) : Prop :=
  ∀ k, k ≤ calls.length →
    (∃ ix, p.index.feed ((Op.array (calls.map Prod.fst)).records p.header.writePos k) = .ok ix) ∧
      ∃ ix, p.index.feed (eachRecords p.header.writePos (calls.take k)) = .ok ix

/-- Neither way has more records than measurements. -/
theorem BothTaken.of_room {calls : List (Meas × (Flag × Flag))} {p : Page}
    (h : p.index.cache.length + calls.length ≤ p.index.cacheSize) : BothTaken calls p := by
  intro k hk
  have hlen : k ≤ (Op.array (calls.map Prod.fst)).meases.length := by
    show k ≤ (calls.map Prod.fst).length
    rwa [List.length_map]
  obtain ⟨hpos, hcut⟩ := (Op.array (calls.map Prod.fst)).records_positions p.header.writePos hlen
  have harray := length_le_positions fun r hr => (hcut r hr).nonempty
  rw [hpos, List.length_range'] at harray
  refine ⟨feed_room (by omega), feed_room ?_⟩
  rw [length_eachRecords, List.length_take]
  omega

/-- Appending a sorted array and appending its elements in order until one is refused: where both
return they wrote the same number and leave the same page but for the index; and where no
reader is counted and the index takes the records, one returns if the other does. -/
theorem appendArray_appendEach (calls : List (Meas × (Flag × Flag)))
    (hsorted : (calls.map Prod.fst).Pairwise fun a b => a.time ≤ b.time) (p : Page) :
    (∀ r p₁ n p₂, p.appendArray (calls.map Prod.fst) = .ok (r, p₁) → p.appendEach calls = .ok (n, p₂) →
      r.writed = n ∧ SameContents p₁ p₂) ∧
    (p.header.readersCount = 0 → BothTaken calls p →
      ((∃ x, p.appendArray (calls.map Prod.fst) = .ok x) ↔ ∃ x, p.appendEach calls = .ok x)) := by
  constructor
  · intro r p₁ n p₂ harray heach
    obtain ⟨k, q, ix, ha, -, rfl, rfl⟩ := appendArray_iff.mp harray
    obtain ⟨-, q', ix', ha', -, rfl⟩ := appendEach_iff.mp heach
    obtain ⟨rfl, rfl⟩ := Prod.mk.inj (Except.ok.inj (ha.symm.trans ha'))
    have hop : (Op.array (calls.map Prod.fst)).Sorted := hsorted
    exact ⟨rfl, (hop.minMax (acceptAll_le ha) q.header).symm, rfl, rfl⟩
  · intro hreaders htaken
    constructor
    · rintro ⟨⟨r, p₁⟩, harray⟩
      obtain ⟨k, q, ix, ha, -, rfl, rfl⟩ := appendArray_iff.mp harray
      have hk := acceptAll_le ha
      rw [List.length_map] at hk
      obtain ⟨ix', hf⟩ := (htaken k hk).2
      exact ⟨_, appendEach_iff.mpr ⟨fun _ => hreaders, q, ix', ha, hf, rfl⟩⟩
    · rintro ⟨⟨n, p₂⟩, heach⟩
      obtain ⟨-, q, ix, ha, -, rfl⟩ := appendEach_iff.mp heach
      have hk := acceptAll_le ha
      rw [List.length_map] at hk
      obtain ⟨ix', hf⟩ := (htaken n hk).1
      exact ⟨_, appendArray_iff.mpr ⟨n, q, ix', ha, hf, rfl, rfl⟩⟩

/-- Three measurements on a page that takes two of them. -/
theorem appendArray_appendEach_two : ∃ r p₁ p₂,
    (create (calcSize 2)).appendArray [.plain 1 4, .plain 0 6, .plain 1 6] = .ok (r, p₁) ∧
      (create (calcSize 2)).appendEach [(.plain 1 4, 0, 0), (.plain 0 6, 0, 0), (.plain 1 6, 0, 0)] = .ok (2, p₂) ∧
      r.writed = 2 ∧ SameContents p₁ p₂ := by
  obtain ⟨⟨r, p₁⟩, harray, hr⟩ := exists_ok
    (x := (create (calcSize 2)).appendArray [.plain 1 4, .plain 0 6, .plain 1 6])
    (p := fun x => decide (x.1.writed = 2)) (by decide +kernel)
  have hboth := appendArray_appendEach [(.plain 1 4, 0, 0), (.plain 0 6, 0, 0), (.plain 1 6, 0, 0)] (by decide)
    (create (calcSize 2))
  obtain ⟨⟨n, p₂⟩, heach⟩ := (hboth.2 rfl (BothTaken.of_room (by decide))).mp ⟨(r, p₁), harray⟩
  obtain ⟨hn, hsame⟩ := hboth.1 r p₁ n p₂ harray heach
  obtain rfl : 2 = n := (of_decide_eq_true hr).symm.trans hn
  exact ⟨r, p₁, p₂, harray, heach, hn, hsame⟩

end Nkvdb.Page
