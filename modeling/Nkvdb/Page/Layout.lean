import Nkvdb.Page.Append
import Mathlib.Tactic.NormNum

/-! The two areas of a page.

`isFull` counts 56 bytes for each record, not 48, takes the values' bytes as they are,
and reads the difference as unsigned. What it counts as free is `gap`, a signed number;
a gap that steps over the range from 0 to 55 is never seen as full again. -/
namespace Nkvdb.Page

/-- The record area ends before the value area, which ends with the page. -/
structure Layout (p : Page) : Prop where
  disjoint : recordPos p.header.writePos ≤ p.header.writeValuePos.val
  inside : p.header.writeValuePos.val ≤ p.header.size.val

/-- The bytes of the values of some measurements. -/
def valueBytes (ms : List Meas) : Nat := (ms.map fun m => m.size.val).sum

/-- What `isFull` counts as free once `ms` are stored, before it reads it as unsigned. -/
def gap (fsize : U64) (ms : List Meas) : Int :=
  fsize.val - (sizeofHeader + sizeofMeas * ms.length + valueBytes ms)

/-- The page counts as full. -/
def FullAt (fsize : U64) (log : List Meas) : Prop := gap fsize log % 2 ^ 64 < 56

/-- The gap comes to rest between 0 and 55 bytes while `ms` are stored one after the other. -/
def Stops (fsize : U64) (ms : List Meas) : Prop :=
  ∃ j, j ≤ ms.length ∧ (∀ i, i < j → 56 ≤ gap fsize (ms.take i)) ∧
    0 ≤ gap fsize (ms.take j) ∧ gap fsize (ms.take j) < 56

/-- There is room for all of `ms`. -/
def Fits (fsize : U64) (ms : List Meas) : Prop :=
  sizeofHeader + sizeofInternalMeas * ms.length + valueBytes ms ≤ fsize.val

@[simp] theorem valueBytes_nil : valueBytes [] = 0 := rfl

@[simp] theorem valueBytes_append (a b : List Meas) : valueBytes (a ++ b) = valueBytes a + valueBytes b := by
  simp [valueBytes]

theorem valueBytes_singleton (m : Meas) : valueBytes [m] = m.size.val := by
  simp [valueBytes]

/-! ### The write positions -/

/-- The write positions of a page of `fsize` bytes that holds `log`. -/
structure Areas (fsize : U64) (log : List Meas) (p : Page) : Prop where
  size : p.header.size = fsize
  writePos : p.header.writePos = log.length
  writeValuePos : p.header.writeValuePos.val + valueBytes log = fsize.val
  records : log ≠ [] → recordPos log.length ≤ fsize.val

theorem Areas.create (fsize : U64) : Areas fsize [] (create fsize) :=
  ⟨rfl, rfl, rfl, fun h => absurd rfl h⟩

/-- A new page that takes over a window. -/
theorem Areas.carrying (fsize : U64) (w : WriteWindow) : Areas fsize [] {Page.create fsize with writeWindow := w} :=
  ⟨rfl, rfl, rfl, fun h => absurd rfl h⟩

/-- A page holds fewer records than a position can count by far. -/
theorem Areas.short {fsize : U64} {log : List Meas} {p : Page} (h : Areas fsize log p) :
    p.header.writePos < 2 ^ 59 := by
  rw [h.writePos]
  by_cases hne : log = []
  · simp [hne]
  · have hin := h.records hne
    have hsize := fsize.isLt
    unfold recordPos sizeofInternalMeas sizeofHeader at hin
    omega

theorem Areas.layout_iff {fsize : U64} {log : List Meas} {p : Page} (h : Areas fsize log p) :
    p.Layout ↔ Fits fsize log := by
  have h2 := h.writeValuePos
  constructor
  · intro hl
    have := hl.disjoint
    rw [h.writePos] at this
    unfold Fits
    unfold recordPos at this
    omega
  · intro hf
    unfold Fits at hf
    refine ⟨?_, ?_⟩
    · rw [h.writePos, recordPos]
      omega
    · rw [h.size]
      omega

theorem Areas.isFull_iff {fsize : U64} {log : List Meas} {p : Page} (h : Areas fsize log p) :
    p.isFull = true ↔ FullAt fsize log := by
  have h2 := h.writeValuePos
  have hlt := fsize.isLt
  simp only [isFull, decide_eq_true_eq, Fin.lt_def, Fin.sub_def, h.writePos, word, Fin.ofNat, FullAt, gap,
    sizeofHeader, sizeofMeas]
  omega

/-- What a put does to the write positions. -/
theorem Areas.put {fsize : U64} {log : List Meas} {p : Page} (h : Areas fsize log p) {m : Meas}
    (hr : Room m p) (w : WriteWindow) : Areas fsize (log ++ [m]) (p.withMeas m w).advance := by
  obtain ⟨-, hv, hrec⟩ := hr
  have h2 := h.writeValuePos
  have hlt := fsize.isLt
  have hwlt := p.header.writeValuePos.isLt
  have hs := m.size.isLt
  rw [h.size] at hv hrec
  have hsub : (p.header.writeValuePos - m.size).val =
      (2 ^ 64 - m.size.val + p.header.writeValuePos.val) % 2 ^ 64 := congrArg Fin.val (Fin.sub_def ..)
  constructor
  case size => exact h.size
  case writePos =>
    rw [List.length_append]
    exact congrArg (· + 1) h.writePos
  case writeValuePos =>
    show (p.header.writeValuePos - m.size).val + valueBytes (log ++ [m]) = fsize.val
    rw [valueBytes_append, valueBytes_singleton]
    omega
  case records =>
    intro _
    rw [h.writePos] at hrec
    rw [List.length_append, recordPos]
    rw [recordPos] at hrec
    simp only [List.length_singleton, sizeofInternalMeas, sizeofHeader] at hrec ⊢
    omega

/-- What a run stores of the measurements it is handed, on top of `log`: a first part, of
which none was put on a full page, and all of them unless the page is full in the end. -/
structure Taken (fsize : U64) (log ms new : List Meas) : Prop where
  isPrefix : new <+: ms
  open_ : ∀ i, i < new.length → ¬ FullAt fsize (log ++ new.take i)
  full : new ≠ ms → FullAt fsize (log ++ new)

theorem Taken.nil {fsize : U64} {log ms : List Meas} (h : ms ≠ [] → FullAt fsize log) : Taken fsize log ms [] := by
  refine ⟨List.nil_prefix, fun i hi => absurd hi (Nat.not_lt_zero i), fun hne => ?_⟩
  rw [List.append_nil]
  exact h (Ne.symm hne)

theorem Taken.cons {fsize : U64} {log ms new : List Meas} {m : Meas} (hopen : ¬ FullAt fsize log)
    (h : Taken fsize (log ++ [m]) ms new) : Taken fsize log (m :: ms) (m :: new) := by
  refine ⟨List.prefix_cons_inj m |>.mpr h.isPrefix, fun i hi => ?_, fun hne => ?_⟩
  · cases i with
    | zero => simpa using hopen
    | succ i =>
      have := h.open_ i (Nat.lt_of_succ_lt_succ hi)
      rwa [List.append_assoc] at this
  · have := h.full fun he => hne (by rw [he])
    rwa [List.append_assoc] at this

/-- After a part that left the page full nothing more is stored. -/
theorem Taken.append {fsize : U64} {log a b na nb : List Meas} (ha : Taken fsize log a na)
    (hb : Taken fsize (log ++ na) b nb) : Taken fsize log (a ++ b) (na ++ nb) := by
  induction a generalizing log na with
  | nil =>
    obtain rfl : na = [] := List.prefix_nil.mp ha.isPrefix
    simpa using hb
  | cons m a ih =>
    cases na with
    | nil =>
      have hfull := ha.full (by simp)
      rw [List.append_nil] at hfull hb
      have hnb : nb = [] := by
        by_contra hne
        have := hb.open_ 0 (List.length_pos_of_ne_nil hne)
        rw [List.take_zero, List.append_nil] at this
        exact this hfull
      subst hnb
      exact Taken.nil fun _ => hfull
    | cons m' na =>
      obtain ⟨rfl, hp⟩ := List.cons_prefix_cons.mp ha.isPrefix
      have hopen := ha.open_ 0 (Nat.succ_pos _)
      rw [List.take_zero, List.append_nil] at hopen
      have htail : Taken fsize (log ++ [m']) a na := by
        refine ⟨hp, fun i hi => ?_, fun hne => ?_⟩
        · have := ha.open_ (i + 1) (Nat.succ_lt_succ hi)
          rwa [List.take_succ_cons, List.append_cons] at this
        · have := ha.full fun he => hne (List.cons.inj he).2
          rwa [List.append_cons] at this
      rw [List.append_cons] at hb
      exact (ih htail hb).cons hopen

theorem acceptAll_taken {fsize : U64} {log ms : List Meas} {p q : Page} {k : Nat} (h : Areas fsize log p)
    (ha : acceptAll ms p = .ok (k, q)) :
    Areas fsize (log ++ ms.take k) q ∧ Taken fsize log ms (ms.take k) := by
  induction ms generalizing log p k with
  | nil =>
    obtain ⟨rfl, rfl⟩ := acceptAll_nil ha
    exact ⟨by simpa using h, Taken.nil fun hne => absurd rfl hne⟩
  | cons m ms ih =>
    rcases acceptAll_cons ha with ⟨hfull, rfl, rfl⟩ | ⟨hfull, w, n, -, hr, hrest, rfl⟩
    · exact ⟨by simpa using h, Taken.nil fun _ => h.isFull_iff.mp hfull⟩
    · obtain ⟨hq, ht⟩ := ih (h.put hr w) hrest
      rw [List.take_succ_cons]
      refine ⟨?_, ht.cons fun hf => hfull (h.isFull_iff.mpr hf)⟩
      rwa [List.append_assoc] at hq

/-- A run that leaves the data area does so at a measurement there is no room for. -/
theorem acceptAll_overflow {fsize : U64} {log ms : List Meas} {p : Page} (h : Areas fsize log p)
    (ha : acceptAll ms p = .error .bufferOverflow) :
    ∃ new m q, new ++ [m] <+: ms ∧ Areas fsize (log ++ new) q ∧ ¬ Room m q ∧
      ∀ i, i ≤ new.length → ¬ FullAt fsize (log ++ new.take i) := by
  induction ms generalizing log p with
  | nil => cases ha
  | cons m ms ih =>
    unfold acceptAll at ha
    split at ha
    · cases ha
    next hfull =>
      have hopen : ¬ FullAt fsize log := fun hf => hfull (h.isFull_iff.mpr hf)
      rw [put_eq] at ha
      cases hu : p.writeWindow.update m with
      | error e =>
        rw [hu] at ha
        replace ha : Except.error e = Except.error Fault.bufferOverflow := ha
        rcases WriteWindow.update_fault hu with rfl | rfl <;> cases ha
      | ok w =>
        rw [hu] at ha
        by_cases hr : Room m p
        · replace ha : ((if Room m p then (.ok (p.withMeas m w) : Except Fault Page) else .error .bufferOverflow)
            >>= fun p => (acceptAll ms p.advance).map fun x => (x.1 + 1, x.2)) = .error .bufferOverflow := ha
          rw [if_pos hr] at ha
          cases hrest : acceptAll ms (p.withMeas m w).advance with
          | ok x =>
            simp only [bind, Except.bind, hrest, Except.map] at ha
            cases ha
          | error e =>
            simp only [bind, Except.bind, hrest, Except.map, Except.error.injEq] at ha
            subst ha
            obtain ⟨new, m', q, hp, hq, hnr, ho⟩ := ih (h.put hr w) hrest
            refine ⟨m :: new, m', q, (List.prefix_cons_inj m).mpr hp, ?_, hnr, fun i hi => ?_⟩
            · rwa [List.append_assoc] at hq
            · cases i with
              | zero => simpa using hopen
              | succ i =>
                have := ho i (Nat.le_of_succ_le_succ hi)
                rwa [List.append_assoc] at this
        · refine ⟨[], m, p, ?_, by simpa using h, hr, fun i _ => ?_⟩
          · exact (List.prefix_cons_inj m).mpr List.nil_prefix
          · simpa using hopen

/-! ### Runs -/

/-- The measurements handed to a run. -/
def handed (ops : List Op) : List Meas := ops.flatMap Op.meases

theorem Areas.finish {fsize : U64} {log : List Meas} {p : Page} (h : Areas fsize log p) (op : Op) (k : Nat)
    (ix : Index) : Areas fsize log (p.finish op k ix) := by
  obtain ⟨init, lo, hi, he⟩ := op.minMax_eq k p.header
  unfold Page.finish
  rw [he]
  exact ⟨h.size, h.writePos, h.writeValuePos, h.records⟩

/-- What a run of appends stores, and where it leaves the write positions. -/
theorem appendAll_taken {fsize : U64} {log new : List Meas} {ops : List Op} {p p' : Page} (h : Areas fsize log p)
    (hrun : appendAll ops p = .ok (new, p')) :
    Areas fsize (log ++ new) p' ∧ Taken fsize log (handed ops) new := by
  induction ops generalizing log new p with
  | nil =>
    obtain ⟨rfl, rfl⟩ := Prod.mk.inj (Except.ok.inj hrun)
    rw [List.append_nil]
    exact ⟨h, Taken.nil fun hne => absurd rfl hne⟩
  | cons op ops ih =>
    obtain ⟨r, p₁, rest, h₁, h₃, rfl⟩ := appendAll_cons hrun
    obtain ⟨-, k, q, ix, ha, -, rfl, rfl⟩ := Op.run_iff.mp h₁
    obtain ⟨hq, ht⟩ := acceptAll_taken h ha
    obtain ⟨hp, ht'⟩ := ih (hq.finish op k ix) h₃
    rw [← List.append_assoc]
    exact ⟨hp, ht.append ht'⟩

/-- A run of appends that leaves the data area does so at a measurement there is no room for. -/
theorem appendAll_overflow {fsize : U64} {size : Nat} {recs : List IndexRecord} {log : List Meas} {ops : List Op}
    {p : Page} (h : Areas fsize log p) (hl : p.index.Logged size recs)
    (hrun : appendAll ops p = .error .bufferOverflow) :
    ∃ new m q, new ++ [m] <+: handed ops ∧ Areas fsize (log ++ new) q ∧ ¬ Room m q ∧
      ∀ i, i ≤ new.length → ¬ FullAt fsize (log ++ new.take i) := by
  induction ops generalizing log p recs with
  | nil => cases hrun
  | cons op ops ih =>
    cases hop : op.run p with
    | error e =>
      simp only [appendAll, hop, bind, Except.bind, Except.error.injEq] at hrun
      subst hrun
      rcases Op.run_fault hl hop with hf | (hf | hf) | hf
      · cases hf
      · cases hf
      · cases hf
      · obtain ⟨new, m, q, hp, hq, hr, ho⟩ := acceptAll_overflow h hf
        exact ⟨new, m, q, hp.trans (List.prefix_append ..), hq, hr, ho⟩
    | ok x =>
      obtain ⟨r, p₁⟩ := x
      obtain ⟨-, k, q, ix, ha, hf, rfl, rfl⟩ := Op.run_iff.mp hop
      obtain ⟨hq, ht⟩ := acceptAll_taken h ha
      simp only [appendAll, hop, bind, Except.bind] at hrun
      cases hrest : appendAll ops (q.finish op k ix) with
      | ok y => rw [hrest] at hrun; cases hrun
      | error e =>
        rw [hrest] at hrun
        obtain rfl : e = .bufferOverflow := Except.error.inj hrun
        have hix : (q.finish op k ix).index.Logged size (recs ++ op.records p.header.writePos k) := (hl.feed hf).1
        obtain ⟨new, m, q', hp, hq', hr, ho⟩ := ih (hq.finish op k ix) hix hrest
        -- the append before took all it was handed, or the page would count as full
        have hall : op.meases.take k = op.meases := by
          by_contra hne
          have := ho 0 (Nat.zero_le _)
          rw [List.take_zero, List.append_nil] at this
          exact this (ht.full hne)
        rw [hall] at hq' ho ht
        refine ⟨op.meases ++ new, m, q', ?_, ?_, hr, fun i hi => ?_⟩
        · rw [List.append_assoc]
          exact (List.prefix_append_right_inj _).mpr hp
        · rwa [← List.append_assoc]
        · rcases Nat.lt_or_ge i op.meases.length with hlt | hge
          · rw [List.take_append_of_le_length hlt.le]
            exact ht.open_ i hlt
          · rw [List.take_append, List.take_of_length_le hge, ← List.append_assoc]
            exact ho _ (by rw [List.length_append] at hi; omega)

/-! ### When the areas stay apart -/

theorem valueBytes_mono {a b : List Meas} (h : a <+: b) : valueBytes a ≤ valueBytes b ∧ a.length ≤ b.length := by
  obtain ⟨c, rfl⟩ := h
  rw [valueBytes_append, List.length_append]
  omega

theorem Fits.mono {fsize : U64} {a b : List Meas} (h : Fits fsize b) (hp : a <+: b) : Fits fsize a := by
  obtain ⟨h1, h2⟩ := valueBytes_mono hp
  unfold Fits sizeofHeader sizeofInternalMeas at *
  omega

theorem gap_mono {fsize : U64} {a b : List Meas} (hp : a <+: b) : gap fsize b ≤ gap fsize a := by
  obtain ⟨h1, h2⟩ := valueBytes_mono hp
  unfold gap sizeofHeader sizeofMeas
  omega

/-- A gap that is not negative leaves room. -/
theorem fits_of_gap {fsize : U64} {ms : List Meas} (h : 0 ≤ gap fsize ms) : Fits fsize ms := by
  unfold gap at h
  unfold Fits
  simp only [sizeofHeader, sizeofMeas, sizeofInternalMeas] at h ⊢
  omega

/-- While there was room for all that is stored, full means a gap of 0 to 55 bytes. -/
theorem Fits.fullAt_iff {fsize : U64} {log : List Meas} (h : Fits fsize log) :
    FullAt fsize log ↔ 0 ≤ gap fsize log ∧ gap fsize log < 56 := by
  have := fsize.isLt
  unfold Fits sizeofHeader sizeofInternalMeas at h
  unfold FullAt gap sizeofHeader sizeofMeas
  omega

/-- The areas stay apart if the gap comes to rest before it is stepped over, or if there
is room for everything handed to the page. -/
def Roomy (fsize : U64) (ms : List Meas) : Prop := Stops fsize ms ∨ Fits fsize ms

theorem Taken.fits_iff {fsize : U64} {ms new : List Meas} (h : Taken fsize [] ms new) :
    Fits fsize new ↔ Roomy fsize ms := by
  have hpre := h.isPrefix
  have htake : ∀ i, i ≤ new.length → ms.take i = new.take i := by
    intro i hi
    obtain ⟨c, rfl⟩ := hpre
    rw [List.take_append_of_le_length hi]
  constructor
  · intro hf
    by_cases hall : new = ms
    · exact .inr (hall ▸ hf)
    have hfull := hf.fullAt_iff.mp (h.full hall)
    refine .inl ⟨new.length, hpre.length_le, fun i hi => ?_, ?_⟩
    · have hpi : new.take i <+: new := List.take_prefix ..
      have hopen := h.open_ i hi
      rw [List.nil_append, (hf.mono hpi).fullAt_iff] at hopen
      have hgap : gap fsize new ≤ gap fsize (new.take i) := gap_mono hpi
      rw [htake i hi.le]
      omega
    · rw [htake _ le_rfl, List.take_length]
      exact hfull
  · rintro (⟨j, hj, hopen, hrest⟩ | hfits)
    · have hle : new.length ≤ j := by
        by_contra hlt
        have hopen' := h.open_ j (by omega)
        rw [List.nil_append, ← htake j (by omega)] at hopen'
        unfold FullAt at hopen'
        omega
      have hpj : new <+: ms.take j := by
        rw [List.prefix_take_iff]
        exact ⟨hpre, hle⟩
      exact (fits_of_gap hrest.1).mono hpj
    · exact hfits.mono hpre

/-- Five values of eight bytes do not fit into the 248 bytes of a page of 472, and the gap
goes from 56 to -8 with the fourth: the page never counts as full. -/
theorem layout_broken : ¬ ∀ (fsize : U64) (ops : List Op), sizeofHeader ≤ fsize.val →
    (∀ m, m ∈ handed ops → m.size.val ≤ sizeofValue) →
    ∀ log p, appendAll ops (create fsize) = .ok (log, p) → p.Layout := by
  intro h
  let ops : List Op := [.single (.plain 0 1) (0, 0), .single (.plain 0 2) (0, 0), .single (.plain 0 3) (0, 0),
    .single (.plain 0 4) (0, 0), .single (.plain 0 5) (0, 0)]
  have hpos : (appendAll ops (create (word 472))).toOption.map
      (fun x => (x.2.header.writePos, x.2.header.writeValuePos)) = some (5, word 432) := by decide
  cases hrun : appendAll ops (create (word 472)) with
  | error e =>
    rw [hrun] at hpos
    cases hpos
  | ok x =>
    have hlayout := h (word 472) ops (by decide) (by decide) x.1 x.2 hrun
    rw [hrun] at hpos
    obtain ⟨h1, h2⟩ : x.2.header.writePos = 5 ∧ x.2.header.writeValuePos = word 432 := by
      simpa [Except.toOption] using hpos
    have := hlayout.disjoint
    rw [h1, h2] at this
    exact absurd this (by decide)

/-- For a page of any size and any appends of measurements of at most 16 value bytes: a run
that completes leaves the two areas apart, as they were at every step of it, if and only
if the measurements are `Roomy`; and no run of `Roomy` measurements leaves the data area. -/
theorem appendAll_layout_iff (fsize : U64) (ops : List Op)
    (hsize : ∀ m, m ∈ handed ops → m.size.val ≤ sizeofValue) :
    (∀ log p, appendAll ops (create fsize) = .ok (log, p) → (p.Layout ↔ Roomy fsize (handed ops))) ∧
      (appendAll ops (create fsize) = .error .bufferOverflow → ¬ Roomy fsize (handed ops)) := by
  constructor
  · intro log p hrun
    obtain ⟨ha, ht⟩ := appendAll_taken (Areas.create fsize) hrun
    rw [List.nil_append] at ha
    rw [ha.layout_iff, ht.fits_iff]
  · intro hrun
    obtain ⟨new, m, q, hp, ha, hr, ho⟩ := appendAll_overflow (Areas.create fsize)
      (Index.Logged.create indexCacheSize (pageSizeToCount fsize / 10)) hrun
    rw [List.nil_append] at ha
    have hm : m.size.val ≤ 16 := by
      refine hsize m (hp.subset ?_)
      exact List.mem_append_right _ List.mem_cons_self
    have hpre : new <+: handed ops := (List.prefix_append ..).trans hp
    -- there was room for the measurement after all
    have hroom : Fits fsize (new ++ [m]) → False := by
      intro hfits
      apply hr
      have h2 := ha.writeValuePos
      have hsub : (q.header.writeValuePos - m.size).val =
          (2 ^ 64 - m.size.val + q.header.writeValuePos.val) % 2 ^ 64 := congrArg Fin.val (Fin.sub_def ..)
      have hlt := fsize.isLt
      have hwlt := q.header.writeValuePos.isLt
      unfold Fits at hfits
      rw [valueBytes_append, valueBytes_singleton, List.length_append] at hfits
      simp only [sizeofHeader, sizeofInternalMeas, List.length_singleton] at hfits
      refine ⟨hm, ?_, ?_⟩
      · rw [ha.size]
        unfold sizeofHeader
        omega
      · rw [ha.writePos, ha.size]
        simp only [recordPos, sizeofHeader, sizeofInternalMeas]
        omega
    rintro (⟨j, hj, hopen, hrest⟩ | hfits)
    · have htake : ∀ i, i ≤ new.length → (handed ops).take i = new.take i := by
        intro i hi
        obtain ⟨c, hc⟩ := hpre
        rw [← hc, List.take_append_of_le_length hi]
      have hlt : new.length < j := by
        by_contra hge
        have := ho j (by omega)
        rw [List.nil_append, ← htake j (by omega)] at this
        unfold FullAt at this
        omega
      -- what the gap comes to rest after fits, and the measurement is among it
      have hpj : new ++ [m] <+: (handed ops).take j := by
        rw [List.prefix_take_iff]
        exact ⟨hp, by rw [List.length_append]; exact hlt⟩
      exact hroom ((fits_of_gap hrest.1).mono hpj)
    · exact hroom (hfits.mono hp)

theorem appendAll_layout_iff_three :
    (∀ m, m ∈ handed [.single (.plain 0 1) (0, 0), .array [.plain 1 2, .plain 2 3]] → m.size.val ≤ sizeofValue) ∧
      (∀ log p, appendAll [.single (.plain 0 1) (0, 0), .array [.plain 1 2, .plain 2 3]] (create (word 472)) =
          .ok (log, p) →
        (p.Layout ↔ Roomy (word 472)
          (handed [.single (.plain 0 1) (0, 0), .array [.plain 1 2, .plain 2 3]]))) := by
  have hsize : ∀ m, m ∈ handed [.single (.plain 0 1) (0, 0), .array [.plain 1 2, .plain 2 3]] →
      m.size.val ≤ sizeofValue := by decide
  exact ⟨hsize, (appendAll_layout_iff (word 472) _ hsize).1⟩

end Nkvdb.Page
