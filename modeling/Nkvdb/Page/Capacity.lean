import Nkvdb.Page.Read

/-! Pages that take all they are handed.

Where the areas have room and never look full, a run of appends completes if and only if
the window can have a slot for each id and the index takes the records (`appendAll_all`,
`appendAll_completes`). A page of `calcSize n` is such a page for `n` measurements. -/
namespace Nkvdb.Page

/-- The page has room for `ms` after `log`, and never looks full before the last of them. -/
structure Admits (fsize : U64) (log ms : List Meas) : Prop where
  fits : Fits fsize (log ++ ms)
  open_ : ∀ i, i < ms.length → ¬ FullAt fsize (log ++ ms.take i)

theorem Admits.left {fsize : U64} {log a b : List Meas} (h : Admits fsize log (a ++ b)) : Admits fsize log a := by
  refine ⟨h.fits.mono ?_, fun i hi => ?_⟩
  · rw [← List.append_assoc]
    exact List.prefix_append ..
  · have := h.open_ i (by rw [List.length_append]; omega)
    rwa [List.take_append_of_le_length hi.le] at this

theorem Admits.right {fsize : U64} {log a b : List Meas} (h : Admits fsize log (a ++ b)) :
    Admits fsize (log ++ a) b := by
  refine ⟨by rw [List.append_assoc]; exact h.fits, fun i hi => ?_⟩
  have := h.open_ (a.length + i) (by rw [List.length_append]; omega)
  rwa [List.take_length_add_append, ← List.append_assoc] at this

/-- A window can have a slot for the id. -/
def Indexable (m : Meas) : Prop := m.id.val < WriteWindow.maxSize

/-- Such an id can be written, whatever the window. -/
theorem update_indexable {m : Meas} (h : Indexable m) (w : WriteWindow) : ∃ w', w.update m = .ok w' := by
  unfold Indexable at h
  have hmax := WriteWindow.maxSize_lt
  unfold WriteWindow.update
  split
  · rw [if_neg (by omega), if_neg (by omega)]
    exact ⟨_, rfl⟩
  · split
    · exact ⟨_, rfl⟩
    · exact ⟨_, rfl⟩

theorem update_iff {m : Meas} {w : WriteWindow} (h : w.length ≤ WriteWindow.maxSize) :
    (∃ w', w.update m = .ok w') ↔ Indexable m := by
  refine ⟨?_, fun hid => update_indexable hid w⟩
  unfold Indexable
  rintro ⟨w', hw⟩
  rcases (WriteWindow.update_cases hw).2 with ⟨-, hid, -⟩ | ⟨hid, -⟩ | ⟨hid, -⟩
  · omega
  · omega
  · omega

theorem update_length {m : Meas} {w w' : WriteWindow} (h : w.length ≤ WriteWindow.maxSize)
    (hu : w.update m = .ok w') : w'.length ≤ WriteWindow.maxSize := by
  rcases (WriteWindow.update_cases hu).2 with ⟨-, h1, h2, -⟩ | ⟨-, h2, -⟩ | ⟨-, h2, -⟩
  · omega
  · omega
  · rwa [h2]

theorem Areas.room {fsize : U64} {log : List Meas} {p : Page} (h : Areas fsize log p) {m : Meas}
    (hm : m.size.val ≤ sizeofValue) (hf : Fits fsize (log ++ [m])) : Room m p := by
  have hv := valueStart_val fsize (log ++ [m])
  rw [← valueStart_put h hf] at hv
  unfold Fits at hf
  rw [valueBytes_append, valueBytes_singleton, List.length_append, List.length_singleton] at hf
  rw [valueBytes_append, valueBytes_singleton] at hv
  refine ⟨hm, .inr ⟨?_, ?_⟩, ?_⟩
  · omega
  · rw [h.size]
    omega
  · rw [h.writePos, h.size, recordPos]
    unfold sizeofHeader sizeofInternalMeas at *
    omega

theorem Holding.put {fsize : U64} {log : List Meas} {p : Page} (h : Holding fsize log p) {m : Meas}
    {w : WriteWindow} (hw : p.writeWindow.update m = .ok w) (hm : m.size.val ≤ sizeofValue)
    (hf : Fits fsize (log ++ [m])) : Holding fsize (log ++ [m]) (p.withMeas m w).advance :=
  ⟨h.areas.put (h.areas.room hm hf) w, h.stored.put h.areas hm hf w, update_length h.window hw, h.readers⟩

/-- All of the measurements are put, if their ids can be indexed by. -/
theorem acceptAll_admits {fsize : U64} {log ms : List Meas} {p : Page} (h : Holding fsize log p)
    (ha : Admits fsize log ms) (hsize : ∀ m, m ∈ ms → m.size.val ≤ sizeofValue) :
    (∀ k q, acceptAll ms p = .ok (k, q) →
      k = ms.length ∧ (∀ m, m ∈ ms → Indexable m) ∧ Holding fsize (log ++ ms) q) ∧
    ((∀ m, m ∈ ms → Indexable m) → ∃ q, acceptAll ms p = .ok (ms.length, q)) := by
  induction ms generalizing log p with
  | nil =>
    refine ⟨fun k q hq => ?_, fun _ => ⟨p, rfl⟩⟩
    obtain ⟨rfl, rfl⟩ : 0 = k ∧ p = q := by simpa [acceptAll] using hq
    exact ⟨rfl, fun m hm => absurd hm List.not_mem_nil, by rwa [List.append_nil]⟩
  | cons m ms ih =>
    have hm : m.size.val ≤ sizeofValue := hsize m List.mem_cons_self
    have hsplit : Admits fsize log ([m] ++ ms) := ha
    have hfull : ¬ p.isFull = true := by
      rw [h.areas.isFull_iff]
      have := ha.open_ 0 (Nat.succ_pos _)
      rwa [List.take_zero, List.append_nil] at this
    have hput : ∀ w, p.writeWindow.update m = .ok w → put m p = .ok (p.withMeas m w) := fun w hw =>
      put_iff.mpr ⟨w, hw, h.areas.room hm hsplit.left.fits, rfl⟩
    have hrest := fun w (hw : p.writeWindow.update m = .ok w) =>
      ih (h.put hw hm hsplit.left.fits) hsplit.right fun x hx => hsize x (List.mem_cons_of_mem _ hx)
    unfold acceptAll
    rw [if_neg hfull]
    constructor
    · intro k q hq
      obtain ⟨p₁, hp₁, hq⟩ := bind_ok hq
      obtain ⟨w, hw, -, rfl⟩ := put_iff.mp hp₁
      cases hr : acceptAll ms (p.withMeas m w).advance with
      | error e => rw [hr] at hq; cases hq
      | ok x =>
        rw [hr] at hq
        obtain ⟨rfl, rfl⟩ : x.1 + 1 = k ∧ x.2 = q := by simpa [Except.map] using hq
        obtain ⟨h1, h2, h3⟩ := (hrest w hw).1 x.1 x.2 hr
        refine ⟨by rw [h1]; rfl, ?_, by rwa [List.append_assoc] at h3⟩
        exact List.forall_mem_cons.mpr ⟨(update_iff h.window).mp ⟨w, hw⟩, h2⟩
    · intro hids
      obtain ⟨hid, hids⟩ := List.forall_mem_cons.mp hids
      obtain ⟨w, hw⟩ := (update_iff h.window).mpr hid
      obtain ⟨q, hq⟩ := (hrest w hw).2 hids
      refine ⟨q, ?_⟩
      rw [hput w hw]
      show Except.map _ (acceptAll ms (p.withMeas m w).advance) = _
      rw [hq]
      rfl

/-! ### Runs -/

/-- The records that appends write from position `pos` on, when all is accepted. -/
def opsRecords : Nat → List Op → List IndexRecord
  | _, [] => []
  | pos, op :: ops => op.records pos op.meases.length ++ opsRecords (pos + op.meases.length) ops

theorem Holding.finish {fsize : U64} {log : List Meas} {p : Page} (h : Holding fsize log p) (op : Op) (k : Nat)
    (ix : Index) : Holding fsize log (p.finish op k ix) := by
  refine ⟨h.areas.finish op k ix, h.stored, h.window, ?_⟩
  obtain ⟨init, lo, hi, he⟩ := op.minMax_eq k p.header
  unfold Page.finish
  rw [he]
  exact h.readers

variable {fsize : U64} {cacheSize size done : Nat} {log : List Meas} {recs : List IndexRecord}

/-- A run that completes took everything, and its ids and records were in order. -/
theorem appendAll_all {ops : List Op} {p p' : Page} {new : List Meas} (h : Holding fsize log p)
    (hk : Index.Kept cacheSize size recs done p.index) (ha : Admits fsize log (handed ops))
    (hsize : ∀ m, m ∈ handed ops → m.size.val ≤ sizeofValue) (hrun : appendAll ops p = .ok (new, p')) :
    new = handed ops ∧ (∀ m, m ∈ handed ops → Indexable m) ∧ Holding fsize (log ++ handed ops) p' ∧
      Index.Kept cacheSize size (recs ++ opsRecords log.length ops)
        (Index.lastFlush cacheSize recs.length done (opsRecords log.length ops).length) p'.index := by
  induction ops generalizing log p recs done new with
  | nil =>
    obtain ⟨rfl, rfl⟩ := Prod.mk.inj (Except.ok.inj hrun)
    refine ⟨rfl, fun m hm => absurd hm List.not_mem_nil, ?_, ?_⟩
    · show Holding fsize (log ++ []) p
      rwa [List.append_nil]
    · show Index.Kept cacheSize size (recs ++ []) done p.index
      rwa [List.append_nil]
  | cons op ops ih =>
    have hsplit : Admits fsize log (op.meases ++ handed ops) := ha
    obtain ⟨hs, hs'⟩ := List.forall_mem_append.mp (show ∀ m, m ∈ op.meases ++ handed ops → _ from hsize)
    obtain ⟨r, p₁, rest, h₁, h₃, rfl⟩ := appendAll_cons hrun
    obtain ⟨-, k, q, ix, hacc, hf, rfl, rfl⟩ := Op.run_iff.mp h₁
    obtain ⟨rfl, hids, hq⟩ := (acceptAll_admits h hsplit.left hs).1 k q hacc
    rw [h.areas.writePos] at hf
    obtain ⟨rfl, hids', hp', hk'⟩ := ih (hq.finish op _ ix) ((hk.feed_iff _).mp hf) hsplit.right hs' h₃
    have hall : handed (op :: ops) = op.meases ++ handed ops := rfl
    refine ⟨?_, ?_, ?_, ?_⟩
    · rw [List.take_length]
      rfl
    · exact List.forall_mem_append.mpr ⟨hids, hids'⟩
    · rwa [hall, ← List.append_assoc]
    · rw [List.length_append, List.append_assoc, List.length_append, ← Index.lastFlush_add] at hk'
      rw [opsRecords, List.length_append]
      exact hk'

/-- A run whose ids and records are in order completes. -/
theorem appendAll_completes {ops : List Op} {p : Page} (h : Holding fsize log p)
    (hk : Index.Kept cacheSize size recs done p.index) (ha : Admits fsize log (handed ops))
    (hsize : ∀ m, m ∈ handed ops → m.size.val ≤ sizeofValue) (hids : ∀ m, m ∈ handed ops → Indexable m)
    (ht : Index.Takes size (recs ++ opsRecords log.length ops)
      (Index.lastFlush cacheSize recs.length done (opsRecords log.length ops).length)) :
    ∃ p', appendAll ops p = .ok (handed ops, p') := by
  induction ops generalizing log p recs done with
  | nil => exact ⟨p, rfl⟩
  | cons op ops ih =>
    have hsplit : Admits fsize log (op.meases ++ handed ops) := ha
    obtain ⟨hs, hs'⟩ := List.forall_mem_append.mp (show ∀ m, m ∈ op.meases ++ handed ops → _ from hsize)
    obtain ⟨hi, hi'⟩ := List.forall_mem_append.mp (show ∀ m, m ∈ op.meases ++ handed ops → _ from hids)
    obtain ⟨hacc, hcomp⟩ := acceptAll_admits h hsplit.left hs
    obtain ⟨q, hq⟩ := hcomp hi
    have hlen : (opsRecords log.length (op :: ops)).length =
        (op.records log.length op.meases.length).length +
          (opsRecords (log ++ op.meases).length ops).length := by
      rw [opsRecords, List.length_append, List.length_append]
    rw [hlen, Index.lastFlush_add, opsRecords, ← List.append_assoc, ← List.length_append,
      ← List.length_append] at ht
    have hd := Index.lastFlush_bounds cacheSize (op.records log.length op.meases.length).length hk.le
    obtain ⟨ix, hix⟩ := Index.Kept.exists_of_takes cacheSize
      (by rw [List.length_append]; exact hd.2)
      (ht.le (Index.lastFlush_bounds cacheSize _ (by rw [List.length_append]; exact hd.2)).1
        (by rw [List.length_append]; exact hd.2))
    have hf := (hk.feed_iff _).mpr hix
    have hrun : op.run p = .ok (⟨op.meases.length, 0⟩, q.finish op op.meases.length ix) := by
      refine Op.run_iff.mpr ⟨?_, _, q, ix, hq, ?_, rfl, rfl⟩
      · cases op with
        | single m junk => exact h.readers
        | array ms => trivial
      · rw [h.areas.writePos]
        exact hf
    obtain ⟨p', hp'⟩ := ih ((hacc _ q hq).2.2.finish op op.meases.length ix) hix hsplit.right hs' hi' ht
    refine ⟨p', ?_⟩
    simp only [appendAll, hrun, hp', bind, Except.bind, pure, Except.pure, List.take_length]
    rfl

/-! ### Pages of `calcSize n` -/

/-- Every measurement is accepted and read back; and if they are `n`, of eight value bytes
each, the next append of either kind accepts nothing. -/
def Intact (n : Nat) (ops : List Op) : Prop :=
  ∃ p, appendAll ops (create (calcSize n)) = .ok (handed ops, p) ∧ ReadsBack (handed ops) p ∧
    ((handed ops).length = n → (∀ m, m ∈ handed ops → m.size.val = 8) → ∀ op : Op, op.run p = .ok (⟨0, 0⟩, p))

/-- `calc_size` does not wrap. -/
def Exact (n : Nat) : Prop := (calcSize n).val = sizeofHeader + sizeofMeas * n + 8 * n

/-- The nodes of the index file of a page. -/
def indexNodes (fsize : U64) : Nat := pageSizeToCount fsize / 10 / (treeN * treeN)

theorem valueBytes_le {ms : List Meas} {b : Nat} (h : ∀ m, m ∈ ms → m.size.val ≤ b) :
    valueBytes ms ≤ b * ms.length := by
  induction ms with
  | nil => simp
  | cons m ms ih =>
    obtain ⟨hm, hms⟩ := List.forall_mem_cons.mp h
    have hcons : valueBytes (m :: ms) = m.size.val + valueBytes ms := by
      unfold valueBytes
      rw [List.map_cons, List.sum_cons]
    have := ih hms
    rw [hcons, List.length_cons, Nat.mul_succ]
    omega

theorem valueBytes_eq {ms : List Meas} {b : Nat} (h : ∀ m, m ∈ ms → m.size.val = b) :
    valueBytes ms = b * ms.length := by
  unfold valueBytes
  rw [List.map_congr_left h, List.map_const', List.sum_replicate_nat, Nat.mul_comm]

theorem Exact.admits {n : Nat} (hn : Exact n) {ms : List Meas} (hlen : ms.length ≤ n)
    (hsize : ∀ m, m ∈ ms → m.size.val ≤ 8) : Admits (calcSize n) [] ms := by
  unfold Exact sizeofHeader sizeofMeas at hn
  constructor
  · have := valueBytes_le hsize
    unfold Fits sizeofHeader sizeofInternalMeas
    rw [List.nil_append]
    omega
  · intro i hi
    have hbytes := valueBytes_le fun m hm => hsize m (List.mem_of_mem_take (i := i) hm)
    have hlt := (calcSize n).isLt
    rw [List.length_take] at hbytes
    unfold FullAt gap sizeofHeader sizeofMeas
    rw [List.nil_append, List.length_take]
    omega

/-- A full page stays as it is. -/
theorem run_full {op : Op} {p : Page} (hr : p.header.readersCount = 0) (hfull : p.isFull = true) :
    op.run p = .ok (⟨0, 0⟩, p) := by
  refine Op.run_iff.mpr ⟨?_, 0, p, p.index, ?_, ?_, rfl, ?_⟩
  · cases op with
    | single m junk => exact hr
    | array ms => trivial
  · cases op.meases with
    | nil => rfl
    | cons m ms => exact if_pos hfull
  · cases op <;> rfl
  · cases op <;> rfl

/-- One measurement with the greatest id: the window it is to be kept in has no slot for it. -/
theorem intact_broken : ¬ ∀ (n : Nat) (ops : List Op), (handed ops).length ≤ n →
    (∀ m, m ∈ handed ops → m.size.val ≤ 8) → Intact n ops := by
  intro h
  obtain ⟨p, hp, -⟩ := h 1 [.single (.plain (2 ^ 64 - 1) 1) (0, 0)] (by decide) (by decide)
  have hrun : (appendAll [.single (.plain (2 ^ 64 - 1) 1) (0, 0)] (create (calcSize 1))).toOption.isNone = true := by
    decide
  rw [hp] at hrun
  cases hrun

/-- A page of `calcSize n` holds `n` measurements of at most eight value bytes intact if and
only if a window can have a slot for each id and the tree of its index takes the records flushed to
it. Where `calcSize` wraps there are measurements it does not hold. -/
theorem intact_iff (n : Nat) :
    (Exact n → ∀ ops : List Op, (handed ops).length ≤ n → (∀ m, m ∈ handed ops → m.size.val ≤ 8) →
      (Intact n ops ↔ (∀ m, m ∈ handed ops → m.id.val < WriteWindow.maxSize) ∧
        Index.Takes (indexNodes (calcSize n)) (opsRecords 0 ops)
          (Index.lastFlush indexCacheSize 0 0 (opsRecords 0 ops).length))) ∧
    (¬ Exact n → ∃ ops : List Op, (handed ops).length ≤ n ∧ (∀ m, m ∈ handed ops → m.size.val ≤ 8) ∧
      ¬ Intact n ops) := by
  constructor
  · intro hn ops hlen hsize
    have ha := hn.admits hlen hsize
    have hsize' : ∀ m, m ∈ handed ops → m.size.val ≤ sizeofValue := fun m hm => (hsize m hm).trans (by decide)
    have hh := Holding.create (calcSize n)
    have hk := Index.Kept.create indexCacheSize (pageSizeToCount (calcSize n) / 10)
    constructor
    · rintro ⟨p, hrun, -⟩
      obtain ⟨-, hids, -, hk'⟩ := appendAll_all hh hk ha hsize' hrun
      exact ⟨hids, hk'.takes⟩
    · rintro ⟨hids, ht⟩
      obtain ⟨p, hrun⟩ := appendAll_completes hh hk ha hsize' hids ht
      have hp : Holding (calcSize n) (handed ops) p := (appendAll_all hh hk ha hsize' hrun).2.2.1
      refine ⟨p, hrun, hp.readsBack ha.fits hsize, fun hall height op => ?_⟩
      apply run_full hp.readers
      rw [hp.areas.isFull_iff]
      unfold Exact sizeofHeader sizeofMeas at hn
      unfold FullAt gap sizeofHeader sizeofMeas
      rw [valueBytes_eq height, hall]
      omega
  · intro hn
    have hval : (calcSize n).val = (224 + 56 * n + 8 * n) % 2 ^ 64 := rfl
    unfold Exact sizeofHeader sizeofMeas at hn
    -- more measurements than the wrapped size has room for
    refine ⟨[.array (List.replicate ((calcSize n).val / 64 + 1) (.plain 0 1))], ?_, ?_, ?_⟩
    · show (List.replicate _ _ ++ []).length ≤ n
      rw [List.append_nil, List.length_replicate]
      omega
    · intro m hm
      have hm : m ∈ List.replicate ((calcSize n).val / 64 + 1) (Meas.plain 0 1) ++ [] := hm
      rw [List.append_nil] at hm
      rw [List.eq_of_mem_replicate hm]
      decide
    · rintro ⟨p, hrun, -⟩
      obtain ⟨harea, ht⟩ := appendAll_taken (Areas.create (calcSize n)) hrun
      have hhanded : handed [.array (List.replicate ((calcSize n).val / 64 + 1) (.plain 0 1))] =
          List.replicate ((calcSize n).val / 64 + 1) (.plain 0 1) := List.append_nil _
      rw [hhanded] at harea ht
      have hrec := harea.records (List.cons_ne_nil _ _)
      rw [List.nil_append, List.length_replicate, recordPos, sizeofHeader, sizeofInternalMeas] at hrec
      have hopen := ht.open_ (((calcSize n).val - 224) / 64) (by rw [List.length_replicate]; omega)
      apply hopen
      have hbytes : valueBytes (List.replicate (((calcSize n).val - 224) / 64) (Meas.plain 0 1)) =
          8 * (((calcSize n).val - 224) / 64) := by
        rw [valueBytes_eq (b := 8), List.length_replicate]
        intro m hm
        rw [List.eq_of_mem_replicate hm]
        decide
      rw [List.nil_append, List.take_replicate, Nat.min_eq_left (by omega)]
      unfold FullAt gap sizeofHeader sizeofMeas
      rw [hbytes, List.length_replicate]
      omega

theorem intact_iff_two : Intact 2 [.single (.plain 0 1) (0, 0), .array [.plain 1 2]] := by
  refine ((intact_iff 2).1 (by unfold Exact; decide) _ (by decide) (by decide)).mpr ⟨by decide, ?_⟩
  exact Index.Takes.zero _ _

end Nkvdb.Page
