import Nkvdb.Page.Scan

/-! A reader of positions.

Each call of `readNext` takes some of the positions pending, in order, and lets through what passes. In all
the reader delivers what passes of the positions it was given, if each of these can be read
(`readAll_iff`); values at the beginning of the interval come before (`readAll_point`). -/
namespace Nkvdb
open Page

namespace PageReaderInterval

/-- What a reader lets through. -/
def passes (r : PageReaderInterval) (m : Meas) : Bool := r.checkValueInterval m && r.checkValueFlags m

/-- The positions a reader has not read yet. -/
def pending (r : PageReaderInterval) : List Nat :=
  List.range' r.curPosBegin (r.curPosEnd - r.curPosBegin) ++
    r.readPosList.flatMap fun x => List.range' x.1 (x.2 - x.1)

/-- A bound on the calls of `readNext` to come. -/
def work (r : PageReaderInterval) : Nat :=
  (r.curPosEnd - r.curPosBegin) + (r.readPosList.map fun x => x.2 - x.1 + 1).sum

/-- A reader of positions of the page, which does not read the window. -/
structure Sound (r : PageReaderInterval) (p : Page) : Prop where
  window : r.isWindowReader = false
  inside : r.fromTime ≤ p.header.maxTime
  cur : r.curPosBegin ≤ r.curPosEnd ∧ r.curPosEnd ≤ p.header.writePos
  list : ∀ x, x ∈ r.readPosList → x.1 ≤ x.2 ∧ x.2 ≤ p.header.writePos
  short : p.header.writePos < 2 ^ 59

/-- The loop of `readNext` does not stop where it begins: `read_to` is no sum that wrapped, neither for the
positions in turn nor for those to come. -/
structure Steps (r : PageReaderInterval) (size : U64) : Prop where
  sizePos : 0 < size.val
  cur : r.curPosBegin < r.curPosEnd → r.curPosBegin + size.val < 2 ^ 64
  list : ∀ x, x ∈ r.readPosList → x.1 < x.2 → x.1 + size.val < 2 ^ 64

/-- The values at the beginning of the interval were read, or are not read. -/
def PastPoint (r : PageReaderInterval) (p : Page) : Prop :=
  r.valuesInPointReader = true ∨ r.fromTime < p.header.minTime

section
variable {size : U64} {r : PageReaderInterval} {p : Page}

/-- It never wraps for the size that is set. -/
theorem Sound.steps (hs : r.Sound p) : r.Steps readSize := by
  have hshort := hs.short
  constructor
  case sizePos => decide
  case cur =>
    intro hlt
    have := hs.cur.2
    show r.curPosBegin + 1024 < 2 ^ 64
    omega
  case list =>
    intro x hx hlt
    have := (hs.list x hx).2
    show x.1 + 1024 < 2 ^ 64
    omega

/-- The loop reads the positions up to where it stops, and puts out those that pass. -/
theorem readLoop_iff {n i : Nat} (hi : i ≤ r.curPosEnd) {x : List Meas × Nat} : r.readLoop p n i = .ok x ↔
    (∀ j, j ∈ List.range' i (min n (r.curPosEnd - i)) → p.Readable j) ∧
      x = (((List.range' i (min n (r.curPosEnd - i))).map p.valueAt).filter r.passes,
        i + min n (r.curPosEnd - i)) := by
  induction n generalizing i x with
  | zero => simp [readLoop, eq_comm]
  | succ n ih =>
    unfold readLoop
    by_cases he : i = r.curPosEnd
    · rw [if_pos he, ← he, Nat.sub_self, Nat.min_zero]
      simp [eq_comm]
    have hmin : min (n + 1) (r.curPosEnd - i) = min n (r.curPosEnd - (i + 1)) + 1 := by omega
    have hrest : i + (min n (r.curPosEnd - (i + 1)) + 1) = i + 1 + min n (r.curPosEnd - (i + 1)) := by omega
    rw [if_neg he, hmin, List.range'_succ, List.forall_mem_cons, List.map_cons, List.filter_cons, hrest]
    have hloop := @ih (i + 1) (by omega)
    constructor
    · intro h
      obtain ⟨m, hm, h⟩ := bind_ok h
      obtain ⟨y, hy, h⟩ := bind_ok h
      obtain ⟨hv, hread⟩ := readable_of_ok hm
      obtain ⟨hall, rfl⟩ := hloop.mp hy
      refine ⟨⟨hread, hall⟩, ?_⟩
      rw [← Except.ok.inj h, hv]
      unfold passes
      split <;> rfl
    · rintro ⟨⟨hread, hall⟩, rfl⟩
      simp only [show p.readAt i = .ok (p.valueAt i) from hread, hloop.mpr ⟨hall, rfl⟩, bind, Except.bind, pure,
        Except.pure]
      unfold passes
      split <;> rfl

theorem isEnd_iff (hw : r.isWindowReader = false) :
    r.isEnd = true ↔ r.readPosList = [] ∧ r.curPosBegin = r.curPosEnd := by
  unfold isEnd
  rw [hw]
  simp

theorem pending_nil (hs : r.Sound p) (he : r.isEnd = true) : r.pending = [] := by
  obtain ⟨hlist, hcur⟩ := (isEnd_iff hs.window).mp he
  unfold pending
  rw [hlist, hcur, Nat.sub_self]
  rfl

theorem readInPoint_past (h : r.PastPoint p) : r.readInPoint p = .ok ([], r, p) := by
  unfold readInPoint
  rw [if_neg]
  rintro ⟨hle, hfalse⟩
  rcases h with h | h
  · rw [hfalse] at h
    cases h
  · exact absurd hle (not_le.mpr h)

/-- Where there is more to read, the reader turns to it. -/
theorem nextPos_spec (hs : r.Sound p) (he : ¬ r.isEnd = true) :
    ∃ r', r.nextPos = .ok r' ∧ r'.Sound p ∧ r'.pending = r.pending ∧ (∀ size, r.Steps size → r'.Steps size) ∧
      (r'.work + 1 ≤ r.work ∨ r'.work = r.work ∧ r'.curPosBegin < r'.curPosEnd) ∧
      r' = {r with readPosList := r'.readPosList, curPosBegin := r'.curPosBegin, curPosEnd := r'.curPosEnd} := by
  unfold nextPos
  by_cases hcur : r.curPosBegin = r.curPosEnd
  · rw [if_pos hcur]
    cases hlist : r.readPosList with
    | nil => exact absurd ((isEnd_iff hs.window).mpr ⟨hlist, hcur⟩) he
    | cons x rest =>
      have hx := List.forall_mem_cons.mp (hlist ▸ hs.list)
      refine ⟨_, rfl, ⟨hs.window, hs.inside, hx.1, hx.2, hs.short⟩, ?_, fun size hst => ?_, .inl ?_, rfl⟩
      · unfold pending
        rw [hlist, hcur, Nat.sub_self, List.flatMap_cons]
        rfl
      · have hsteps := List.forall_mem_cons.mp (hlist ▸ hst.list)
        exact ⟨hst.sizePos, hsteps.1, hsteps.2⟩
      · unfold work
        rw [hlist, List.map_cons, List.sum_cons]
        show x.2 - x.1 + (rest.map fun x => x.2 - x.1 + 1).sum + 1 ≤ _
        omega
  · rw [if_neg hcur]
    exact ⟨r, rfl, hs, rfl, fun _ => id, .inr ⟨rfl, lt_of_le_of_ne hs.cur.1 hcur⟩, rfl⟩

/-- A call of `readNext` past the beginning of the interval, for the positions in turn. -/
theorem readNext_iff {r₁ : PageReaderInterval} (hs : r.Sound p) (hp : r.PastPoint p) (he : ¬ r.isEnd = true)
    (h₁ : r.nextPos = .ok r₁) (hs₁ : r₁.Sound p) {n : Nat}
    (hn : min (r₁.readTo size - r₁.curPosBegin) (r₁.curPosEnd - r₁.curPosBegin) = n)
    {x : List Meas × PageReaderInterval × Page} : r.readNextBy size p = .ok x ↔
      (∀ i, i ∈ List.range' r₁.curPosBegin n → p.Readable i) ∧
        x = (((List.range' r₁.curPosBegin n).map p.valueAt).filter r₁.passes,
          {r₁ with curPosBegin := r₁.curPosBegin + n}, p) := by
  have hloop : ∀ y, r₁.readLoop p (r₁.readTo size - r₁.curPosBegin) r₁.curPosBegin = .ok y ↔ _ :=
    fun y => readLoop_iff hs₁.cur.1
  rw [hn] at hloop
  unfold readNextBy
  rw [if_neg he, if_neg (not_lt.mpr hs.inside), readInPoint_past hp]
  simp only [bind, Except.bind, h₁, pure, Except.pure, List.nil_append]
  constructor
  · intro h
    obtain ⟨y, hy, h⟩ := bind_ok h
    obtain ⟨hall, rfl⟩ := (hloop y).mp hy
    exact ⟨hall, (Except.ok.inj h).symm⟩
  · rintro ⟨hall, rfl⟩
    rw [(hloop _).mpr ⟨hall, rfl⟩]

/-- The loop makes as many turns as the sum says. -/
theorem Steps.turns (hst : r.Steps size) (hlt : r.curPosBegin < r.curPosEnd) :
    r.readTo size - r.curPosBegin = size.val := by
  have := hst.cur hlt
  unfold readTo
  rw [Nat.mod_eq_of_lt this, Nat.add_sub_cancel_left]

/-- The reader after `n` more positions, if these are as many as the loop reads of them. -/
theorem Sound.advance {w n : Nat} (hs : r.Sound p) (hst : r.Steps size)
    (hwork : r.work + 1 ≤ w ∨ r.work = w ∧ r.curPosBegin < r.curPosEnd)
    (hn : min (r.readTo size - r.curPosBegin) (r.curPosEnd - r.curPosBegin) = n) :
    ({r with curPosBegin := r.curPosBegin + n} : PageReaderInterval).Sound p ∧
      ({r with curPosBegin := r.curPosBegin + n} : PageReaderInterval).Steps size ∧
      ({r with curPosBegin := r.curPosBegin + n} : PageReaderInterval).work < w := by
  have hcur := hs.cur
  have hle : n ≤ r.curPosEnd - r.curPosBegin := hn ▸ Nat.min_le_right ..
  -- the loop reads something, unless there was nothing to read
  have hsome : r.curPosBegin < r.curPosEnd → 0 < n ∧ (r.curPosBegin + n < r.curPosEnd → n = size.val) := by
    intro hlt
    have hpos := hst.sizePos
    rw [hst.turns hlt] at hn
    omega
  refine ⟨⟨hs.window, hs.inside, ?_, hs.list, hs.short⟩, ⟨hst.sizePos, ?_, hst.list⟩, ?_⟩
  · show r.curPosBegin + n ≤ r.curPosEnd ∧ _
    exact ⟨by omega, hcur.2⟩
  · show r.curPosBegin + n < r.curPosEnd → r.curPosBegin + n + size.val < 2 ^ 64
    intro hlt
    have hfull := (hsome (by omega)).2 hlt
    have hshort := hs.short
    omega
  · show (r.curPosEnd - (r.curPosBegin + n)) + (r.readPosList.map fun x => x.2 - x.1 + 1).sum < w
    unfold work at hwork
    rcases hwork with hwork | ⟨hwork, hlt⟩
    · omega
    · have := (hsome hlt).1
      omega

/-- The positions pending are those that come next and those after `n` of them. -/
theorem pending_advance {n : Nat} (hn : n ≤ r.curPosEnd - r.curPosBegin) :
    r.pending = List.range' r.curPosBegin n ++ pending {r with curPosBegin := r.curPosBegin + n} := by
  unfold pending
  rw [← List.append_assoc]
  congr 1
  have := @List.range'_append_1 r.curPosBegin n (r.curPosEnd - (r.curPosBegin + n))
  rw [this]
  congr 1
  omega

/-- One call of `readNext` takes the first of the positions pending. -/
theorem readNext_spec (hs : r.Sound p) (hp : r.PastPoint p) (hst : r.Steps size) (he : ¬ r.isEnd = true) :
    ∃ done r', r.pending = done ++ r'.pending ∧ r'.Sound p ∧ r'.PastPoint p ∧ r'.Steps size ∧ r'.work < r.work ∧
      r'.passes = r.passes ∧ ∀ x, r.readNextBy size p = .ok x ↔
        (∀ i, i ∈ done → p.Readable i) ∧ x = ((done.map p.valueAt).filter r.passes, r', p) := by
  obtain ⟨r₁, h₁, hs₁, hpend, hsteps, hwork, heq⟩ := nextPos_spec hs he
  have hpass : r₁.passes = r.passes := by
    rw [heq]
    rfl
  obtain ⟨n, hn⟩ : ∃ n, min (r₁.readTo size - r₁.curPosBegin) (r₁.curPosEnd - r₁.curPosBegin) = n := ⟨_, rfl⟩
  have hcur := hs₁.cur
  have hle : n ≤ r₁.curPosEnd - r₁.curPosBegin := hn ▸ Nat.min_le_right ..
  obtain ⟨hs', hst', hwork'⟩ := hs₁.advance (hsteps size hst) hwork hn
  refine ⟨List.range' r₁.curPosBegin n, _, hpend.symm.trans (pending_advance hle), hs', ?_, hst', hwork', hpass,
    fun x => ?_⟩
  · rw [heq]
    exact hp
  · rw [← hpass]
    exact readNext_iff hs hp he h₁ hs₁ hn

/-- A reader delivers what it lets through of the positions pending, if these can be read. -/
theorem readAll_iff (hs : r.Sound p) (hp : r.PastPoint p) (hst : r.Steps size) {fuel : Nat} (hf : r.work < fuel)
    {x : List Meas × Page} : r.readAllBy size fuel p = .ok x ↔
      (∀ i, i ∈ r.pending → p.Readable i) ∧ x = ((r.pending.map p.valueAt).filter r.passes, p) := by
  induction fuel generalizing r x with
  | zero => omega
  | succ fuel ih =>
    unfold readAllBy
    by_cases he : r.isEnd = true
    · rw [if_pos he, pending_nil hs he]
      simp [eq_comm]
    obtain ⟨done, r', hpend, hs', hp', hst', hwork, hpass, hnext⟩ := readNext_spec hs hp hst he
    have hrest := @ih r' hs' hp' hst' (by omega)
    rw [if_neg he, hpend, List.forall_mem_append, List.map_append, List.filter_append]
    constructor
    · intro h
      obtain ⟨y, hy, h⟩ := bind_ok h
      obtain ⟨hdone, rfl⟩ := (hnext y).mp hy
      obtain ⟨z, hz, h⟩ := bind_ok h
      obtain ⟨hall, rfl⟩ := hrest.mp hz
      rw [← Except.ok.inj h, hpass]
      exact ⟨⟨hdone, hall⟩, rfl⟩
    · rintro ⟨⟨hdone, hall⟩, rfl⟩
      simp only [(hnext _).mpr ⟨hdone, rfl⟩, hrest.mpr ⟨hall, rfl⟩, hpass, bind, Except.bind, pure, Except.pure]

theorem readAll_eq (hs : r.Sound p) (hp : r.PastPoint p) (hst : r.Steps size)
    (hread : ∀ i, i ∈ r.pending → p.Readable i) {fuel : Nat} (hf : r.work < fuel) :
    r.readAllBy size fuel p = .ok ((r.pending.map p.valueAt).filter r.passes, p) :=
  (readAll_iff hs hp hst hf).mpr ⟨hread, rfl⟩

end

/-- More calls than needed change nothing. -/
theorem readAll_more {size : U64} {r : PageReaderInterval} {p : Page} {fuel : Nat} {x : List Meas × Page}
    (h : r.readAllBy size fuel p = .ok x) {fuel' : Nat} (hle : fuel ≤ fuel') : r.readAllBy size fuel' p = .ok x := by
  induction fuel generalizing r p x fuel' with
  | zero => cases h
  | succ fuel ih =>
    obtain ⟨fuel', rfl⟩ : ∃ n, fuel' = n + 1 := ⟨fuel' - 1, by omega⟩
    unfold readAllBy at h ⊢
    by_cases he : r.isEnd = true
    · rwa [if_pos he] at h ⊢
    · rw [if_neg he] at h ⊢
      obtain ⟨⟨out, r', p'⟩, hnext, h⟩ := bind_ok h
      obtain ⟨⟨rest, p''⟩, hrest, h⟩ := bind_ok h
      rw [← h, hnext]
      simp only [ih hrest (Nat.le_of_succ_le_succ hle), bind, Except.bind, pure, Except.pure]

/-! ### The values at the beginning of the interval -/

section
variable {size : U64} {r : PageReaderInterval} {p : Page}

/-- The first call puts out the values at the beginning of the interval before the others. -/
theorem readNext_point {r' : PageReaderInterval} {p' : Page} {first : List Meas} (hs : r.Sound p) (hs' : r'.Sound p')
    (he : ¬ r.isEnd = true) (he' : ¬ r'.isEnd = true) (hpoint : r.readInPoint p = .ok (first, r', p'))
    (hpast : r'.PastPoint p') :
    r.readNextBy size p = (r'.readNextBy size p').map fun x => (first ++ x.1, x.2) := by
  unfold readNextBy
  rw [if_neg he, if_neg he', if_neg (not_lt.mpr hs.inside), if_neg (not_lt.mpr hs'.inside), hpoint,
    readInPoint_past hpast]
  simp only [bind, Except.bind]
  cases r'.nextPos with
  | error e => rfl
  | ok r₁ =>
    simp only
    cases r₁.readLoop p' (r₁.readTo size - r₁.curPosBegin) r₁.curPosBegin with
    | error e => rfl
    | ok x => rfl

/-- They come before all that is read after them. -/
theorem readAll_point {r' : PageReaderInterval} {p' : Page} {first : List Meas} (hs : r.Sound p) (hs' : r'.Sound p')
    (he : ¬ r.isEnd = true) (he' : ¬ r'.isEnd = true) (hpoint : r.readInPoint p = .ok (first, r', p'))
    (hpast : r'.PastPoint p') (fuel : Nat) :
    r.readAllBy size (fuel + 1) p = (r'.readAllBy size (fuel + 1) p').map fun x => (first ++ x.1, x.2) := by
  unfold readAllBy
  rw [if_neg he, if_neg he', readNext_point hs hs' he he' hpoint hpast]
  cases r'.readNextBy size p' with
  | error e => rfl
  | ok x =>
    simp only [Except.map, bind, Except.bind]
    cases x.2.1.readAllBy size fuel x.2.2 with
    | error e => rfl
    | ok y => simp only [pure, Except.pure, List.append_assoc]

theorem Sound.of_header {p' : Page} (hs : r.Sound p) (hhead : p'.header = p.header) : r.Sound p' := by
  obtain ⟨hw, hin, hcur, hlist, hshort⟩ := hs
  rw [← hhead] at hin hcur hlist hshort
  exact ⟨hw, hin, hcur, hlist, hshort⟩

end
end PageReaderInterval

namespace Page
open Index

/-- The measurement lies in the interval. -/
def inside (fromTime toTime : Time) (m : Meas) : Bool := inInterval fromTime toTime m.time

/-- The tests a record is put to without ids and flags. -/
def overlaps (fromTime toTime : Time) (r : IndexRecord) : Bool := checkInterval r fromTime toTime

theorem wanted_none (fromTime toTime : Time) : wanted [] fromTime toTime 0 0 = overlaps fromTime toTime := by
  funext r
  simp [wanted, overlaps]

theorem map_nth_range (all : List Meas) : (List.range all.length).map (nth all) = all := by
  apply List.ext_getElem
  · simp
  · intro i h₁ h₂
    simp [nth_eq h₂]

/-- What the reader of a range of records has before it. -/
theorem foldl_addReadPos (rs : List IndexRecord) (r : PageReaderInterval) :
    rs.foldl (fun r rec => r.addReadPos rec.pos (rec.pos + rec.count)) r =
      {r with readPosList := r.readPosList ++ rs.map fun rec => (rec.pos, rec.pos + rec.count)} := by
  induction rs generalizing r with
  | nil => simp
  | cons rec rs ih =>
    rw [List.foldl_cons, ih]
    simp [PageReaderInterval.addReadPos]

end Page
end Nkvdb
