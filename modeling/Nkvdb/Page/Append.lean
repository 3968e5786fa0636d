import Nkvdb.Page
import Nkvdb.Index.Feed

/-! What an append does.

The measurements it accepts, the records it writes to the index and the bounds of the
times do not depend on each other. `acceptAll`, `Op.records` and `Op.minMax` say what
each is, and `Op.run_iff` that an append is the three together. -/
namespace Nkvdb.Page

/-! ### One measurement -/

/-- The page after a measurement was put, with `w` as its window. -/
def withMeas (m : Meas) (w : WriteWindow) (p : Page) : Page :=
  {p with
    writeWindow := w
    header := {p.header with
      writeWindowSize := w.length
      idFltr := bloomAdd p.header.idFltr m.id
      flagFltr := bloomAdd p.header.flagFltr m.flag
      srcFltr := bloomAdd p.header.srcFltr m.source
      writeValuePos := p.header.writeValuePos - m.size}
    rawData := ByteMemory.store (recordPos p.header.writePos)
      (InternalMeas.toBytes ⟨m.id, m.time, m.source, m.flag, m.size, p.header.writeValuePos - m.size⟩)
      (ByteMemory.store (p.header.writeValuePos - m.size).val (m.value.toList.take m.size.val) p.rawData)}

/-- The two copies of a `put` stay in the data area. -/
def Room (m : Meas) (p : Page) : Prop :=
  m.size.val ≤ sizeofValue ∧
    (m.size.val = 0 ∨ (sizeofHeader ≤ (p.header.writeValuePos - m.size).val ∧
      (p.header.writeValuePos - m.size).val + m.size.val ≤ p.header.size.val)) ∧
    recordPos p.header.writePos + sizeofInternalMeas ≤ p.header.size.val

instance (m : Meas) (p : Page) : Decidable (Room m p) := by
  unfold Room
  infer_instance

theorem length_valueBytes {m : Meas} (h : m.size.val ≤ sizeofValue) :
    (m.value.toList.take m.size.val).length = m.size.val := by
  have : m.size.val ≤ 16 := h
  rw [List.length_take, Vector.length_toList]
  omega

theorem put_eq (m : Meas) (p : Page) : put m p =
    (p.writeWindow.update m).bind fun w =>
      if Room m p then .ok (p.withMeas m w) else .error .bufferOverflow := by
  unfold put
  cases p.writeWindow.update m with
  | error e => rfl
  | ok w =>
    show Except.bind _ _ = ite _ _ _
    by_cases hs : sizeofValue < m.size.val
    · have hr : ¬ Room m p := fun h => absurd h.1 (by omega)
      simp only [hs, if_true, if_neg hr]
      rfl
    have hs' : m.size.val ≤ sizeofValue := by omega
    have hl := length_valueBytes hs'
    have hnil : m.value.toList.take m.size.val = [] ↔ m.size.val = 0 := by
      rw [← List.length_eq_zero_iff, hl]
    simp only [hs, if_false, copyIn, hl, hnil, Except.bind]
    by_cases hv : m.size.val = 0 ∨ (sizeofHeader ≤ (p.header.writeValuePos - m.size).val ∧
        (p.header.writeValuePos - m.size).val + m.size.val ≤ p.header.size.val)
    · simp only [hv, if_true]
      by_cases hr : recordPos p.header.writePos + sizeofInternalMeas ≤ p.header.size.val
      · have hroom : Room m p := ⟨hs', hv, hr⟩
        rw [if_pos hroom]
        exact if_pos (.inr ⟨Nat.le_add_right .., by rw [InternalMeas.length_toBytes]; exact hr⟩)
      · have hroom : ¬ Room m p := fun h => hr h.2.2
        rw [if_neg hroom]
        refine if_neg fun h => hr ?_
        rcases h with h | ⟨-, h⟩
        · exact absurd (congrArg List.length h) (by rw [InternalMeas.length_toBytes]; decide)
        · rwa [InternalMeas.length_toBytes] at h
    · have hroom : ¬ Room m p := fun h => hv h.2.1
      simp only [hv, if_false, if_neg hroom]
      rfl

theorem put_iff {m : Meas} {p p' : Page} : put m p = .ok p' ↔
    ∃ w, p.writeWindow.update m = .ok w ∧ Room m p ∧ p' = p.withMeas m w := by
  rw [put_eq]
  cases hu : p.writeWindow.update m with
  | error e => simp [Except.bind]
  | ok w =>
    by_cases hr : Room m p
    · simp [Except.bind, hr, eq_comm]
    · simp [Except.bind, hr]

theorem put_fault {m : Meas} {p : Page} {e : Fault} (h : put m p = .error e) :
    e = .outOfRange ∨ e = .lengthError ∨ e = .bufferOverflow := by
  rw [put_eq] at h
  cases hw : p.writeWindow.update m with
  | error e' =>
    rw [hw] at h
    obtain rfl : e' = e := Except.error.inj h
    exact (WriteWindow.update_fault hw).imp_right .inl
  | ok w =>
    rw [hw] at h
    replace h : (if Room m p then _ else _) = Except.error _ := h
    split at h
    · cases h
    · exact .inr (.inr (Except.error.inj h).symm)

/-! ### The measurements accepted -/

/-- `write_pos++`. -/
def advance (p : Page) : Page := {p with header := {p.header with writePos := p.header.writePos + 1}}

/-- Put the measurements one after the other until the page is full: how many were, and
the page, its index and the bounds of its times aside. -/
def acceptAll : List Meas → Page → Except Fault (Nat × Page)
  | [], p => .ok (0, p)
  | m :: ms, p =>
    if p.isFull then .ok (0, p)
    else do
      let p ← put m p
      (acceptAll ms p.advance).map fun x => (x.1 + 1, x.2)

theorem acceptAll_nil {p q : Page} {k : Nat} (h : acceptAll [] p = .ok (k, q)) : k = 0 ∧ q = p := by
  obtain ⟨rfl, rfl⟩ := Prod.mk.inj (Except.ok.inj h)
  exact ⟨rfl, rfl⟩

/-- What the first of some measurements does. -/
theorem acceptAll_cons {m : Meas} {ms : List Meas} {p q : Page} {k : Nat} (h : acceptAll (m :: ms) p = .ok (k, q)) :
    (p.isFull = true ∧ k = 0 ∧ q = p) ∨ (¬ p.isFull = true ∧ ∃ w n, p.writeWindow.update m = .ok w ∧ Room m p ∧
      acceptAll ms (p.withMeas m w).advance = .ok (n, q) ∧ k = n + 1) := by
  unfold acceptAll at h
  split at h
  next hfull =>
    obtain ⟨rfl, rfl⟩ := Prod.mk.inj (Except.ok.inj h)
    exact .inl ⟨hfull, rfl, rfl⟩
  next hfull =>
    obtain ⟨p₁, hp, h⟩ := bind_ok h
    obtain ⟨w, hw, hroom, rfl⟩ := put_iff.mp hp
    cases hrest : acceptAll ms (p.withMeas m w).advance with
    | error e =>
      rw [hrest] at h
      cases h
    | ok x =>
      rw [hrest] at h
      obtain ⟨rfl, rfl⟩ := Prod.mk.inj (Except.ok.inj h)
      exact .inr ⟨hfull, w, x.1, hw, hroom, hrest, rfl⟩

theorem acceptAll_le {ms : List Meas} {p q : Page} {k : Nat} (h : acceptAll ms p = .ok (k, q)) : k ≤ ms.length := by
  induction ms generalizing p k with
  | nil => exact (acceptAll_nil h).1.le
  | cons m ms ih =>
    rcases acceptAll_cons h with ⟨-, rfl, -⟩ | ⟨-, w, n, -, -, hrest, rfl⟩
    · exact Nat.zero_le _
    · exact Nat.succ_le_succ (ih hrest)

theorem acceptAll_fault {ms : List Meas} {p : Page} {e : Fault} (h : acceptAll ms p = .error e) :
    e = .outOfRange ∨ e = .lengthError ∨ e = .bufferOverflow := by
  induction ms generalizing p with
  | nil => cases h
  | cons m ms ih =>
    unfold acceptAll at h
    split at h
    · cases h
    cases hp : put m p with
    | error e' =>
      rw [hp] at h
      obtain rfl : e' = e := Except.error.inj h
      exact put_fault hp
    | ok q =>
      rw [hp] at h
      replace h : Except.map _ (acceptAll ms q.advance) = .error e := h
      cases ha : acceptAll ms q.advance with
      | ok x =>
        rw [ha] at h
        cases h
      | error e' =>
        rw [ha] at h
        obtain rfl : e' = e := Except.error.inj h
        exact ih ha

/-- What each measurement put keeps, all of them keep. -/
theorem acceptAll_keeps {P : Page → Prop}
    (hput : ∀ m w p, p.writeWindow.update m = .ok w → P p → P (p.withMeas m w).advance) {ms : List Meas} {p q : Page}
    {k : Nat} (h : acceptAll ms p = .ok (k, q)) (hp : P p) : P q := by
  induction ms generalizing p k with
  | nil =>
    obtain ⟨-, rfl⟩ := acceptAll_nil h
    exact hp
  | cons m ms ih =>
    rcases acceptAll_cons h with ⟨-, -, rfl⟩ | ⟨-, w, n, hw, -, hrest, -⟩
    · exact hp
    · exact ih hrest (hput m w p hw hp)

/-- What an append keeps of a page: all but what it is put together from. -/
def rebase (ix : Index) (file : Option (List Meas)) (p : Page) : Page :=
  {p with index := ix, windowFile := file}

theorem put_rebase (ix : Index) (file : Option (List Meas)) (m : Meas) (p : Page) :
    put m (p.rebase ix file) = (put m p).map (rebase ix file) := by
  rw [put_eq, put_eq]
  show Except.bind (p.writeWindow.update m) _ = _
  cases p.writeWindow.update m with
  | error e => rfl
  | ok w =>
    show (if Room m p then _ else _) = Except.map _ (if Room m p then _ else _)
    split
    · rfl
    · rfl

theorem acceptAll_rebase (ix : Index) (file : Option (List Meas)) (ms : List Meas) (p : Page) :
    acceptAll ms (p.rebase ix file) = (acceptAll ms p).map fun x => (x.1, x.2.rebase ix file) := by
  induction ms generalizing p with
  | nil => rfl
  | cons m ms ih =>
    show (if p.isFull then _ else _) = Except.map _ (if p.isFull then _ else _)
    split
    · rfl
    · rw [put_rebase]
      cases put m p with
      | error e => rfl
      | ok p₁ =>
        have hrun := ih p₁.advance
        show Except.map _ (acceptAll ms (p₁.advance.rebase ix file)) = Except.map _ (Except.map _ _)
        rw [hrun]
        cases acceptAll ms p₁.advance <;> rfl

/-! ### The records -/

/-- The locals of the array append that the records are cut by. -/
structure Chunk where
  writePosBegin : Nat
  start : Nat
  curFlgFltr : Flag
  curSrcFltr : Flag

/-- What the loop does to them at element `i`, and the record it writes there. -/
def chunkNext (ms : List Meas) (i : Nat) (c : Chunk) : Chunk × List IndexRecord :=
  let curFlgFltr := bloomAdd c.curSrcFltr (nth ms i).id
  let curSrcFltr := bloomAdd curFlgFltr (nth ms i).id
  if i ≠ 0 ∧ i % 100 = 0 then
    (⟨c.writePosBegin + 100, i, 0, 0⟩, [⟨c.writePosBegin, 100, (nth ms c.start).time, (nth ms (i - 1)).time,
      (nth ms c.start).time, (nth ms (i - 1)).time, curFlgFltr, curSrcFltr⟩])
  else (⟨c.writePosBegin, c.start, curFlgFltr, curSrcFltr⟩, [])

/-- `k` turns of the loop from element `i` on. -/
def chunkLoop (ms : List Meas) : Nat → Nat → Chunk → Chunk × List IndexRecord
  | 0, _, c => (c, [])
  | k + 1, i, c =>
    let (c, recs) := chunkNext ms i c
    let (c, rest) := chunkLoop ms k (i + 1) c
    (c, recs ++ rest)

/-- The record written after the loop for the elements since the last one. -/
def lastRecord (ms : List Meas) (k : Nat) (c : Chunk) : List IndexRecord :=
  if c.start ≠ k then
    [⟨c.writePosBegin, k - c.start, (nth ms c.start).time, (nth ms (k - 1)).time, (nth ms c.start).id,
      (nth ms (k - 1)).id, c.curFlgFltr, c.curSrcFltr⟩]
  else []

/-- The records an append writes when it accepts `k` measurements from position `pos` on. -/
def Op.records (pos k : Nat) : Op → List IndexRecord
  | .single m junk => if k = 0 then [] else [⟨pos, 1, m.time, m.time, m.id, m.id, junk.1, junk.2⟩]
  | .array ms =>
    let (c, recs) := chunkLoop ms k 0 ⟨pos, 0, 0, 0⟩
    recs ++ lastRecord ms k c

/-! ### An append is the three together -/

/-- What an append of `k` measurements does to the bounds of the times. -/
def Op.minMax (k : Nat) (h : Header) : Op → Header
  | .single m _ => if k = 0 then h else updateMinMax m h
  | .array ms => if k = 0 then h else updateMinMax (nth ms (k - 1)) (updateMinMax (nth ms 0) h)

theorem updateMinMax_eq (m : Meas) (h : Header) : ∃ lo hi,
    updateMinMax m h = {h with minMaxInit := true, minTime := lo, maxTime := hi} := by
  unfold updateMinMax
  by_cases hi : h.minMaxInit = true
  · rw [if_pos hi, ← hi]
    exact ⟨_, _, rfl⟩
  · rw [if_neg hi]
    exact ⟨_, _, rfl⟩

/-- Only the bounds of the times change. -/
theorem Op.minMax_eq (op : Op) (k : Nat) (h : Header) : ∃ init lo hi,
    op.minMax k h = {h with minMaxInit := init, minTime := lo, maxTime := hi} := by
  by_cases hk : k = 0
  · cases op with
    | single m junk => exact ⟨_, _, _, if_pos hk⟩
    | array ms => exact ⟨_, _, _, if_pos hk⟩
  · cases op with
    | single m junk =>
      obtain ⟨lo, hi, he⟩ := updateMinMax_eq m h
      exact ⟨_, lo, hi, (if_neg hk).trans he⟩
    | array ms =>
      obtain ⟨lo, hi, he⟩ := updateMinMax_eq (nth ms 0) h
      obtain ⟨lo', hi', he'⟩ := updateMinMax_eq (nth ms (k - 1)) (updateMinMax (nth ms 0) h)
      rw [he] at he'
      exact ⟨_, lo', hi', (if_neg hk).trans (by rw [he]; exact he')⟩

/-- The assertion of the single append. -/
def Op.Allowed (p : Page) : Op → Prop
  | .single _ _ => p.header.readersCount = 0
  | .array _ => True

/-- A page put together from what was accepted, the index and the bounds of the times. -/
def finish (op : Op) (k : Nat) (ix : Index) (p : Page) : Page :=
  {p with index := ix, header := op.minMax k p.header}

theorem put_index {m : Meas} {p p' : Page} (h : put m p = .ok p') : p'.index = p.index := by
  obtain ⟨w, -, -, rfl⟩ := put_iff.mp h
  rfl

theorem acceptAll_rest {ms : List Meas} {p q : Page} {k : Nat} (h : acceptAll ms p = .ok (k, q)) :
    q.index = p.index ∧ q.windowFile = p.windowFile :=
  acceptAll_keeps (P := fun q => q.index = p.index ∧ q.windowFile = p.windowFile) (fun _ _ _ _ hp => hp) h ⟨rfl, rfl⟩

/-- The window is updated with what is accepted. -/
theorem acceptAll_window {ms : List Meas} {p q : Page} {k : Nat} (h : acceptAll ms p = .ok (k, q)) :
    p.writeWindow.updateAll (ms.take k) = .ok q.writeWindow := by
  induction ms generalizing p k with
  | nil =>
    obtain ⟨rfl, rfl⟩ := acceptAll_nil h
    rfl
  | cons m ms ih =>
    rcases acceptAll_cons h with ⟨-, rfl, rfl⟩ | ⟨-, w, n, hw, -, hrest, rfl⟩
    · rfl
    · show (p.writeWindow.update m >>= WriteWindow.updateAll (ms.take n)) = _
      rw [hw]
      exact ih hrest

theorem nth_eq {ms : List Meas} {i : Nat} (h : i < ms.length) : nth ms i = ms[i] := by
  unfold nth
  rw [List.getD_eq_getElem?_getD, List.getElem?_eq_getElem h, Option.getD_some]

def Cursor.chunk (s : Cursor) : Chunk := ⟨s.writePosBegin, s.start, s.curFlgFltr, s.curSrcFltr⟩

def Chunk.at (c : Chunk) (p : Page) : Cursor := ⟨p, c.writePosBegin, c.start, c.curFlgFltr, c.curSrcFltr⟩

/-- One turn of the loop, in its two parts. -/
theorem appendNext_eq (ms : List Meas) (i : Nat) (s : Cursor) : appendNext ms i s =
    (put (nth ms i) s.page).bind fun p =>
      (p.index.feed (chunkNext ms i s.chunk).2).map fun ix =>
        (chunkNext ms i s.chunk).1.at {p.advance with index := ix} := by
  cases hp : put (nth ms i) s.page with
  | error e => simp only [appendNext, hp, bind, Except.bind]
  | ok p =>
    simp only [appendNext, hp, bind, Except.bind, pure, Except.pure]
    by_cases hi : i ≠ 0 ∧ i % 100 = 0
    · rw [if_pos hi, show chunkNext ms i s.chunk = _ from if_pos hi, Index.feed_one]
      simp only [Cursor.chunk]
      cases p.index.writeIndexRec _ with
      | error e => rfl
      | ok ix => rfl
    · rw [if_neg hi, show chunkNext ms i s.chunk = _ from if_neg hi]
      rfl

theorem appendNext_iff {ms : List Meas} {i : Nat} {s s' : Cursor} : appendNext ms i s = .ok s' ↔
    ∃ p ix, put (nth ms i) s.page = .ok p ∧ s.page.index.feed (chunkNext ms i s.chunk).2 = .ok ix ∧
      s' = (chunkNext ms i s.chunk).1.at {p.advance with index := ix} := by
  rw [appendNext_eq]
  cases hp : put (nth ms i) s.page with
  | error e => simp [Except.bind]
  | ok p =>
    simp only [Except.bind, put_index hp]
    cases s.page.index.feed (chunkNext ms i s.chunk).2 with
    | error e => simp [Except.map]
    | ok ix => simp [Except.map, eq_comm]

@[simp] theorem Chunk.chunk_at (c : Chunk) (p : Page) : (c.at p).chunk = c := rfl

/-- A page with another index accepts the same measurements. -/
theorem acceptAll_index {ms : List Meas} {p : Page} (ix : Index) {k : Nat} {q : Page} :
    acceptAll ms {p with index := ix} = .ok (k, q) ↔
      ∃ q', acceptAll ms p = .ok (k, q') ∧ q = {q' with index := ix} := by
  have hr := acceptAll_rebase ix p.windowFile ms p
  rw [show ({p with index := ix} : Page) = p.rebase ix p.windowFile from rfl, hr]
  cases ha : acceptAll ms p with
  | error e => simp [Except.map]
  | ok x =>
    obtain ⟨k', q'⟩ := x
    have hw := (acceptAll_rest ha).2
    simp only [Except.map, Except.ok.injEq, Prod.mk.injEq, rebase, ← hw]
    constructor
    · rintro ⟨rfl, rfl⟩
      exact ⟨q', ⟨rfl, rfl⟩, rfl⟩
    · rintro ⟨q'', ⟨rfl, rfl⟩, rfl⟩
      exact ⟨rfl, rfl⟩

/-- Where the loop ends no measurement is accepted. -/
theorem stop_iff {ms : List Meas} {i j : Nat} {s s' : Cursor} :
    (.ok (i, s) : Except Fault (Nat × Cursor)) = .ok (j, s') ↔
      ∃ k p ix, (.ok (0, s.page) : Except Fault (Nat × Page)) = .ok (k, p) ∧
        s.page.index.feed (chunkLoop ms k i s.chunk).2 = .ok ix ∧
        j = i + k ∧ s' = (chunkLoop ms k i s.chunk).1.at {p with index := ix} := by
  constructor
  · intro h
    obtain ⟨rfl, rfl⟩ : i = j ∧ s = s' := by simpa using h
    exact ⟨0, s.page, s.page.index, rfl, rfl, rfl, rfl⟩
  · rintro ⟨k, p, ix, hk, hf, rfl, rfl⟩
    obtain ⟨rfl, rfl⟩ : 0 = k ∧ s.page = p := by simpa using hk
    obtain rfl : s.page.index = ix := by simpa [chunkLoop, Index.feed] using hf
    rfl

/-- The loop, in its two parts. -/
theorem appendLoop_iff {ms : List Meas} {n i j : Nat} {s s' : Cursor} (hn : i + n = ms.length) :
    appendLoop ms n i s = .ok (j, s') ↔
      ∃ k p ix, acceptAll (ms.drop i) s.page = .ok (k, p) ∧
        s.page.index.feed (chunkLoop ms k i s.chunk).2 = .ok ix ∧
        j = i + k ∧ s' = (chunkLoop ms k i s.chunk).1.at {p with index := ix} := by
  induction n generalizing i s with
  | zero =>
    rw [List.drop_eq_nil_of_le (by omega)]
    exact stop_iff
  | succ n ih =>
    have hlt : i < ms.length := by omega
    rw [List.drop_eq_getElem_cons hlt, ← nth_eq hlt]
    unfold appendLoop acceptAll
    by_cases hfull : s.page.isFull = true
    · rw [if_pos hfull, if_pos hfull]
      exact stop_iff
    rw [if_neg hfull, if_neg hfull]
    constructor
    · intro h
      obtain ⟨s₁, h₁, h₂⟩ := bind_ok h
      obtain ⟨p₁, ix₁, hp₁, hix₁, rfl⟩ := appendNext_iff.mp h₁
      obtain ⟨k, p, ix, hk, hf, rfl, rfl⟩ := (ih (by omega)).mp h₂
      obtain ⟨q, hq, rfl⟩ := (acceptAll_index ix₁).mp hk
      refine ⟨k + 1, q, ix, ?_, ?_, by omega, rfl⟩
      · rw [hp₁]
        show Except.map _ (acceptAll _ p₁.advance) = _
        rw [hq]
        rfl
      · rw [chunkLoop, Index.feed_append, hix₁]
        exact hf
    · rintro ⟨k, p, ix, hk, hf, rfl, rfl⟩
      obtain ⟨p₁, hp₁, hk₁⟩ := bind_ok hk
      cases hq : acceptAll (ms.drop (i + 1)) p₁.advance with
      | error e => rw [hq] at hk₁; cases hk₁
      | ok x =>
        rw [hq] at hk₁
        obtain ⟨rfl, rfl⟩ : x.1 + 1 = k ∧ x.2 = p := by simpa [Except.map] using hk₁
        rw [chunkLoop, Index.feed_append] at hf
        obtain ⟨ix₁, hix₁, hf₁⟩ := bind_ok hf
        have hnext := appendNext_iff.mpr ⟨p₁, ix₁, hp₁, hix₁, rfl⟩
        simp only [hnext, bind, Except.bind]
        refine (ih (by omega)).mpr ⟨x.1, {x.2 with index := ix₁}, ix, (acceptAll_index ix₁).mpr ⟨x.2, hq, rfl⟩,
          hf₁, by omega, rfl⟩

/-- The bounds of the times do not matter to what is put. -/
theorem put_minMax (m m' : Meas) (p : Page) :
    put m {p with header := updateMinMax m' p.header} =
      (put m p).map fun q => {q with header := updateMinMax m' q.header} := by
  have hroom : Room m {p with header := updateMinMax m' p.header} ↔ Room m p := by
    unfold updateMinMax
    split <;> exact Iff.rfl
  rw [put_eq, put_eq]
  show Except.bind (p.writeWindow.update m) _ = _
  cases p.writeWindow.update m with
  | error e => rfl
  | ok w =>
    show (if Room m {p with header := updateMinMax m' p.header} then _ else _) =
      Except.map _ (if Room m p then _ else _)
    by_cases hr : Room m p
    · rw [if_pos (hroom.mpr hr), if_pos hr]
      cases hi : p.header.minMaxInit <;> simp [Except.map, withMeas, updateMinMax, hi]
    · rw [if_neg (fun h => hr (hroom.mp h)), if_neg hr]
      rfl

theorem append_eq (m : Meas) (junk : Flag × Flag) (p : Page) : p.append m junk =
    if p.header.readersCount ≠ 0 then .error .assertion
    else if p.isFull then .ok ({}, p)
    else (put m p).bind fun q =>
      (q.index.writeIndexRec ⟨q.header.writePos, 1, m.time, m.time, m.id, m.id, junk.1, junk.2⟩).map fun ix =>
        (⟨1, 0⟩, {q.advance with index := ix, header := updateMinMax m q.advance.header}) := by
  unfold append
  by_cases hreaders : p.header.readersCount ≠ 0
  · rw [if_pos hreaders, if_pos hreaders]
    rfl
  rw [if_neg hreaders, if_neg hreaders]
  by_cases hfull : p.isFull = true
  · rw [if_pos hfull]
    simp only [if_pos hfull]
    rfl
  rw [if_neg hfull]
  simp only [if_neg hfull, put_minMax]
  cases put m p with
  | error e => rfl
  | ok q =>
    have hadv : ({q with header := {updateMinMax m q.header with
        writePos := (updateMinMax m q.header).writePos + 1}} : Page) =
        {q.advance with header := updateMinMax m q.advance.header} := by
      cases hi : q.header.minMaxInit <;> simp [advance, updateMinMax, hi]
    have hwp : (updateMinMax m q.header).writePos = q.header.writePos := by
      unfold updateMinMax
      split <;> rfl
    simp only [bind, Except.bind, Except.map, pure, Except.pure, hwp] at hadv ⊢
    cases q.index.writeIndexRec _ with
    | error e => rfl
    | ok ix => exact congrArg (fun p => Except.ok (_, {p with index := ix})) hadv

theorem append_iff {m : Meas} {junk : Flag × Flag} {p p' : Page} {r : AppendResult} :
    p.append m junk = .ok (r, p') ↔
      p.header.readersCount = 0 ∧ ∃ k q ix, acceptAll [m] p = .ok (k, q) ∧
        p.index.feed ((Op.single m junk).records p.header.writePos k) = .ok ix ∧ r = ⟨k, 0⟩ ∧
        p' = q.finish (.single m junk) k ix := by
  rw [append_eq]
  by_cases hreaders : p.header.readersCount ≠ 0
  · rw [if_pos hreaders]
    constructor
    · intro h
      cases h
    · intro h
      exact absurd h.1 hreaders
  rw [if_neg hreaders]
  refine Iff.trans ?_ (and_iff_right (not_not.mp hreaders)).symm
  unfold acceptAll
  by_cases hfull : p.isFull = true
  · rw [if_pos hfull, if_pos hfull]
    constructor
    · intro h
      obtain ⟨rfl, rfl⟩ : ({} : AppendResult) = r ∧ p = p' := by simpa using h
      exact ⟨0, p, p.index, rfl, rfl, rfl, rfl⟩
    · rintro ⟨k, q, ix, hk, hf, rfl, rfl⟩
      obtain ⟨rfl, rfl⟩ : 0 = k ∧ p = q := by simpa using hk
      obtain rfl : p.index = ix := by simpa [Op.records, Index.feed] using hf
      rfl
  rw [if_neg hfull, if_neg hfull]
  cases hp : put m p with
  | error e => simp [bind, Except.bind]
  | ok q =>
    have hq : q.index = p.index ∧ q.header.writePos = p.header.writePos := by
      obtain ⟨w, -, -, rfl⟩ := put_iff.mp hp
      exact ⟨rfl, rfl⟩
    have hrec : (Op.single m junk).records p.header.writePos 1 =
        [⟨q.header.writePos, 1, m.time, m.time, m.id, m.id, junk.1, junk.2⟩] := by
      rw [hq.2]
      rfl
    simp only [Except.bind, bind, acceptAll, Except.map, Except.ok.injEq, Prod.mk.injEq]
    constructor
    · intro h
      cases hw : q.index.writeIndexRec ⟨q.header.writePos, 1, m.time, m.time, m.id, m.id, junk.1, junk.2⟩ with
      | error e => rw [hw] at h; cases h
      | ok ix =>
        rw [hw] at h
        obtain ⟨rfl, rfl⟩ : _ = r ∧ _ = p' := by simpa using h
        exact ⟨1, q.advance, ix, ⟨rfl, rfl⟩, by rw [hrec, Index.feed_one, ← hq.1, hw], rfl, rfl⟩
    · rintro ⟨k, q', ix, ⟨rfl, rfl⟩, hf, rfl, rfl⟩
      rw [hrec, Index.feed_one, ← hq.1] at hf
      rw [hf]
      rfl

theorem appendArray_eq (ms : List Meas) (p : Page) : p.appendArray ms =
    (appendLoop ms ms.length 0 ⟨p, p.header.writePos, 0, 0, 0⟩).bind fun x =>
      (x.2.page.index.feed (lastRecord ms x.1 x.2.chunk)).map fun ix =>
        (⟨x.1, 0⟩, x.2.page.finish (.array ms) x.1 ix) := by
  unfold appendArray
  cases appendLoop ms ms.length 0 ⟨p, p.header.writePos, 0, 0, 0⟩ with
  | error e => rfl
  | ok x =>
    obtain ⟨i, s⟩ := x
    have hfin : ∀ ix, (if i ≠ 0 then
        {({s.page with index := ix} : Page) with
          header := updateMinMax (nth ms (i - 1)) (updateMinMax (nth ms 0) s.page.header)}
      else {s.page with index := ix}) = s.page.finish (.array ms) i ix := by
      intro ix
      by_cases hi : i = 0 <;> simp [finish, Op.minMax, hi]
    simp only [bind, Except.bind, pure, Except.pure]
    by_cases hs : s.start ≠ i
    · rw [if_pos hs, show lastRecord ms i s.chunk = _ from if_pos hs, Index.feed_one]
      simp only [Cursor.chunk]
      cases s.page.index.writeIndexRec _ with
      | error e => rfl
      | ok ix => exact congrArg (fun p => Except.ok ((⟨i, 0⟩ : AppendResult), p)) (hfin ix)
    · rw [if_neg hs, show lastRecord ms i s.chunk = _ from if_neg hs]
      exact congrArg (fun p => Except.ok ((⟨i, 0⟩ : AppendResult), p)) (hfin s.page.index)

/-- An array append is its loop, the record after it and the bounds of the times. -/
theorem appendArray_iff {ms : List Meas} {p p' : Page} {r : AppendResult} :
    p.appendArray ms = .ok (r, p') ↔
      ∃ k q ix, acceptAll ms p = .ok (k, q) ∧
        p.index.feed ((Op.array ms).records p.header.writePos k) = .ok ix ∧ r = ⟨k, 0⟩ ∧
        p' = q.finish (.array ms) k ix := by
  have hloop := fun j s' =>
    @appendLoop_iff ms ms.length 0 j ⟨p, p.header.writePos, 0, 0, 0⟩ s' (Nat.zero_add ms.length)
  rw [appendArray_eq]
  constructor
  · intro h
    obtain ⟨⟨j, s⟩, h₁, h₂⟩ := bind_ok h
    obtain ⟨k, q, ix, hk, hf, hj, rfl⟩ := (hloop j s).mp h₁
    obtain rfl : j = k := by omega
    cases hl : ix.feed (lastRecord ms j (chunkLoop ms j 0 ⟨p.header.writePos, 0, 0, 0⟩).1) with
    | error e =>
      replace h₂ : Except.map _ (ix.feed (lastRecord ms j (chunkLoop ms j 0 ⟨p.header.writePos, 0, 0, 0⟩).1)) =
        .ok (r, p') := h₂
      rw [hl] at h₂
      cases h₂
    | ok ix' =>
      replace h₂ : Except.map _ (ix.feed (lastRecord ms j (chunkLoop ms j 0 ⟨p.header.writePos, 0, 0, 0⟩).1)) =
        .ok (r, p') := h₂
      rw [hl] at h₂
      obtain ⟨rfl, rfl⟩ : _ = r ∧ _ = p' := by simpa [Except.map] using h₂
      refine ⟨j, q, ix', by simpa using hk, ?_, rfl, rfl⟩
      show p.index.feed (_ ++ lastRecord ms j _) = _
      rw [Index.feed_append]
      exact (congrArg (fun x => x >>= _) hf).trans hl
  · rintro ⟨k, q, ix, hk, hf, rfl, rfl⟩
    replace hf : p.index.feed ((chunkLoop ms k 0 ⟨p.header.writePos, 0, 0, 0⟩).2 ++
      lastRecord ms k (chunkLoop ms k 0 ⟨p.header.writePos, 0, 0, 0⟩).1) = .ok ix := hf
    rw [Index.feed_append] at hf
    obtain ⟨ix₁, hf₁, hf₂⟩ := bind_ok hf
    rw [(hloop k _).mpr ⟨k, q, ix₁, by simpa using hk, hf₁, (Nat.zero_add k).symm, rfl⟩]
    show Except.map _ (ix₁.feed (lastRecord ms k _)) = _
    rw [Chunk.chunk_at, Cursor.chunk, hf₂]
    rfl

/-- An append of either kind is the measurements accepted, the records fed to the index
and the bounds of the times. -/
theorem Op.run_iff {op : Op} {p p' : Page} {r : AppendResult} : op.run p = .ok (r, p') ↔
    op.Allowed p ∧ ∃ k q ix, acceptAll op.meases p = .ok (k, q) ∧
      p.index.feed (op.records p.header.writePos k) = .ok ix ∧ r = ⟨k, 0⟩ ∧ p' = q.finish op k ix := by
  cases op with
  | single m junk => exact append_iff
  | array ms => exact appendArray_iff.trans (and_iff_right trivial).symm

theorem appendAll_cons {op : Op} {ops : List Op} {new : List Meas} {p p' : Page}
    (hrun : appendAll (op :: ops) p = .ok (new, p')) : ∃ r p₁ rest, op.run p = .ok (r, p₁) ∧
      appendAll ops p₁ = .ok (rest, p') ∧ new = op.meases.take r.writed ++ rest := by
  obtain ⟨⟨r, p₁⟩, h₁, hrun⟩ := bind_ok hrun
  obtain ⟨⟨rest, p₂⟩, h₂, hrun⟩ := bind_ok hrun
  obtain ⟨rfl, rfl⟩ := Prod.mk.inj (Except.ok.inj hrun)
  exact ⟨r, p₁, rest, h₁, h₂, rfl⟩

/-- What every append of a run keeps, the run keeps. -/
theorem appendAll_keeps {P : List Meas → Page → Prop} {ops : List Op}
    (hstep : ∀ op, op ∈ ops → ∀ log p r p', P log p → op.run p = .ok (r, p') →
      P (log ++ op.meases.take r.writed) p')
    {log new : List Meas} {p p' : Page} (h : P log p) (hrun : appendAll ops p = .ok (new, p')) : P (log ++ new) p' := by
  induction ops generalizing log new p with
  | nil =>
    obtain ⟨rfl, rfl⟩ := Prod.mk.inj (Except.ok.inj hrun)
    rwa [List.append_nil]
  | cons op ops ih =>
    obtain ⟨r, p₁, rest, h₁, h₂, rfl⟩ := appendAll_cons hrun
    have hfirst := hstep op List.mem_cons_self log p r p₁ h h₁
    rw [← List.append_assoc]
    exact ih (fun o ho => hstep o (List.mem_cons_of_mem _ ho)) hfirst h₂

/-! ### How an append fails -/

theorem appendLoop_fault {size : Nat} {recs : List IndexRecord} {ms : List Meas} {n i : Nat} {s : Cursor}
    {e : Fault} (hn : i + n = ms.length) (hl : s.page.index.Logged size recs)
    (herr : appendLoop ms n i s = .error e) :
    (e = .cacheIsFull ∨ e = .nullNode) ∨ acceptAll (ms.drop i) s.page = .error e := by
  induction n generalizing i s recs with
  | zero => cases herr
  | succ n ih =>
    have hlt : i < ms.length := by omega
    rw [List.drop_eq_getElem_cons hlt, ← nth_eq hlt]
    unfold appendLoop at herr
    unfold acceptAll
    by_cases hfull : s.page.isFull = true
    · rw [if_pos hfull] at herr
      cases herr
    rw [if_neg hfull] at herr ⊢
    cases hp : put (nth ms i) s.page with
    | error e' =>
      refine .inr ?_
      simp only [appendNext, hp, bind, Except.bind, Except.error.injEq] at herr
      rw [herr]
      rfl
    | ok p₁ =>
      cases hx : s.page.index.feed (chunkNext ms i s.chunk).2 with
      | error e' =>
        rw [appendNext_eq, hp] at herr
        simp only [Except.bind, put_index hp, hx, Except.map, bind, Except.error.injEq] at herr
        exact .inl (herr ▸ hl.feed_fault hx)
      | ok ix₁ =>
        have hnext := appendNext_iff.mpr ⟨p₁, ix₁, hp, hx, rfl⟩
        simp only [hnext, bind, Except.bind] at herr
        rcases ih (by omega) (hl.feed hx).1 herr with hf | hf
        · exact .inl hf
        · refine .inr ?_
          have hr := acceptAll_rebase ix₁ p₁.windowFile (ms.drop (i + 1)) p₁.advance
          replace hf : acceptAll (ms.drop (i + 1)) (p₁.advance.rebase ix₁ p₁.windowFile) = .error e := hf
          rw [hr] at hf
          show Except.map _ (acceptAll (ms.drop (i + 1)) p₁.advance) = _
          cases ha : acceptAll (ms.drop (i + 1)) p₁.advance with
          | ok x => rw [ha] at hf; cases hf
          | error e' => rw [ha] at hf; exact hf

/-- An append fails by its assertion, by the index, or at a measurement. -/
theorem Op.run_fault {size : Nat} {recs : List IndexRecord} {op : Op} {p : Page} {e : Fault}
    (hl : p.index.Logged size recs) (herr : op.run p = .error e) :
    e = .assertion ∨ (e = .cacheIsFull ∨ e = .nullNode) ∨ acceptAll op.meases p = .error e := by
  cases op with
  | single m junk =>
    replace herr : p.append m junk = .error e := herr
    rw [append_eq] at herr
    split at herr
    · exact .inl (Except.error.inj herr).symm
    refine .inr ?_
    split at herr
    · cases herr
    next hfull =>
      show _ ∨ acceptAll [m] p = .error e
      unfold acceptAll
      rw [if_neg hfull]
      cases hp : put m p with
      | error e' =>
        rw [hp] at herr
        obtain rfl : e' = e := Except.error.inj herr
        exact .inr rfl
      | ok q =>
        rw [hp] at herr
        replace herr : Except.map _ (q.index.writeIndexRec _) = .error e := herr
        rw [put_index hp] at herr
        cases hw : p.index.writeIndexRec ⟨q.header.writePos, 1, m.time, m.time, m.id, m.id, junk.1, junk.2⟩ with
        | ok ix => rw [hw] at herr; cases herr
        | error e' =>
          rw [hw] at herr
          obtain rfl : e' = e := Except.error.inj herr
          exact .inl (hl.writeIndexRec_fault hw)
  | array ms =>
    refine .inr ?_
    replace herr : p.appendArray ms = .error e := herr
    rw [appendArray_eq] at herr
    cases hloop : appendLoop ms ms.length 0 ⟨p, p.header.writePos, 0, 0, 0⟩ with
    | error e' =>
      rw [hloop] at herr
      obtain rfl : e' = e := Except.error.inj herr
      exact appendLoop_fault (Nat.zero_add _) hl hloop
    | ok x =>
      obtain ⟨j, s⟩ := x
      obtain ⟨k, q, ix, -, hf, -, rfl⟩ := (appendLoop_iff (Nat.zero_add _)).mp hloop
      rw [hloop] at herr
      replace herr : Except.map _ (ix.feed (lastRecord ms j (chunkLoop ms k 0 ⟨p.header.writePos, 0, 0, 0⟩).1)) =
        .error e := herr
      cases hx : ix.feed (lastRecord ms j (chunkLoop ms k 0 ⟨p.header.writePos, 0, 0, 0⟩).1) with
      | ok ix' => rw [hx] at herr; cases herr
      | error e' =>
        rw [hx] at herr
        obtain rfl : e' = e := Except.error.inj herr
        exact .inl ((hl.feed hf).1.feed_fault hx)

/-! ### Closing and opening -/

theorem flushIndex_iff {p p' : Page} :
    p.flushIndex = .ok p' ↔ ∃ ix, p.index.flush = .ok ix ∧ p' = {p with index := ix} := by
  constructor
  · intro hf
    obtain ⟨ix, hix, hf⟩ := bind_ok hf
    exact ⟨ix, hix, (Except.ok.inj hf).symm⟩
  · rintro ⟨ix, hix, rfl⟩
    unfold flushIndex
    simp only [hix, bind, Except.bind, pure, Except.pure]

/-- What closing leaves on disk. -/
theorem close_iff {p : Page} {f : PageFile} : p.close = .ok f ↔ ∃ ix, p.index.flush = .ok ix ∧
    f = ⟨{p.header with writeWindowSize := p.writeWindow.length, isOpen := false, readersCount := 0}, p.rawData,
      ix.tree, if p.writeWindow.length ≠ 0 then some p.writeWindow else p.windowFile⟩ := by
  unfold close flushIndex flushWriteWindow
  simp only [bind, Except.bind, pure, Except.pure]
  cases hf : p.index.flush with
  | error e => simp
  | ok ix =>
    have hnil : ix.flush = .ok ix := by
      have hc : ix.cache = [] := by
        unfold Index.flush at hf
        split at hf
        next h => rwa [← Except.ok.inj hf]
        next =>
          split at hf
          · rw [← Except.ok.inj hf]
          · cases hf
      exact if_pos hc
    simp [hnil, eq_comm]

/-- What opening a page takes, and what it gives. -/
theorem openFile_iff {f : PageFile} {readOnly : Bool} {p : Page} : openFile f readOnly = .ok p ↔
    (readOnly = false → f.header.isOpen = false) ∧ f.header.version = pageVersion ∧
      ∃ w, WriteWindow.load f.windowFile [] = .ok w ∧
        p = ⟨{f.header with
            isOpen := true
            readersCount := if readOnly then f.header.readersCount + 1 else f.header.readersCount},
          f.rawData, Index.openFile indexCacheSize f.indexFile, w, f.windowFile⟩ := by
  unfold openFile
  by_cases hopen : !readOnly ∧ f.header.isOpen
  · have hrefused : ¬ (readOnly = false → f.header.isOpen = false) := by simpa using hopen
    simp only [if_pos hopen, throw, throwThe, MonadExceptOf.throw, bind, Except.bind]
    exact ⟨nofun, fun h => absurd h.1 hrefused⟩
  have hfree : readOnly = false → f.header.isOpen = false := by simpa using hopen
  by_cases hv : f.header.version ≠ pageVersion
  · simp only [if_neg hopen, if_pos hv, throw, throwThe, MonadExceptOf.throw, bind, Except.bind, pure, Except.pure]
    exact ⟨nofun, fun h => absurd h.2.1 hv⟩
  simp only [if_neg hopen, if_neg hv, bind, Except.bind, pure, Except.pure]
  cases hw : WriteWindow.load f.windowFile [] with
  | error e => exact ⟨nofun, fun ⟨_, _, w, h, _⟩ => by cases h⟩
  | ok w =>
    constructor
    · intro h
      exact ⟨hfree, not_not.mp hv, w, rfl, (Except.ok.inj h).symm⟩
    · rintro ⟨-, -, w', hw', rfl⟩
      obtain rfl := Except.ok.inj hw'
      rfl

end Nkvdb.Page
