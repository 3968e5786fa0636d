import Nkvdb.Page.IndexSize
import Nkvdb.Storage.Progress
import Nkvdb.Storage.RoundTrip

/-! Writing up does not fail.

What can go wrong on the way from the caches to the pages is that a copy leaves its page, that an id
leaves the window or that an index runs out of nodes. Values of one size that pages stack exclude the
first. Whole caches write few records each, so the sizes of page and cache decide on the last. -/
namespace Nkvdb.Storage
open Page

/-- The measurements with values of `size` bytes that pages of this size stack. -/
def stackHeight (fsize : U64) (size : Nat) : Nat := (fsize.val - sizeofHeader) / (sizeofMeas + size)

/-- An index file holds the nodes for what is stacked on its page a cache at a time, with two caches begun. -/
def IndexSuffices (fsize : U64) (size cacheSize : Nat) : Prop :=
  stackHeight fsize size / 100 + stackHeight fsize size / cacheSize + 2 < 9 * (nodesInFile fsize - 1)

instance (fsize : U64) (size cacheSize : Nat) : Decidable (IndexSuffices fsize size cacheSize) := by
  unfold IndexSuffices
  infer_instance

/-- Measurements that no append to a page fails on. -/
structure Plain (size : Nat) (ms : List Meas) : Prop where
  size : ∀ m, m ∈ ms → m.size.val = size
  ids : ∀ m, m ∈ ms → Indexable m

section
variable {fsize : U64} {size cacheSize begun : Nat} {log ms output : List Meas} {p p' : Page} {ix : Index}

theorem Plain.perm {ms' : List Meas} (h : Plain size ms) (hp : ms'.Perm ms) : Plain size ms' :=
  ⟨fun m hm => h.size m (hp.mem_iff.mp hm), fun m hm => h.ids m (hp.mem_iff.mp hm)⟩

theorem Plain.drop (h : Plain size ms) (k : Nat) : Plain size (ms.drop k) :=
  ⟨fun m hm => h.size m (List.mem_of_mem_drop hm), fun m hm => h.ids m (List.mem_of_mem_drop hm)⟩

/-! ### A page -/

/-- A page that holds `log` of such measurements, written to it a cache at a time but for `begun` of the
appends. -/
structure Supplied (fsize : U64) (size cacheSize begun : Nat) (log : List Meas) (p : Page) : Prop where
  areas : Areas fsize log p
  stacked : Stacked fsize log
  sizes : ∀ m, m ∈ log → m.size.val = size
  posted : ∃ recs done appends, Index.Kept indexCacheSize (indexNodes fsize) recs done p.index ∧
    Tiled ⟨log, recs, done⟩ ∧ 100 * recs.length ≤ log.length + 99 * appends ∧
    (appends - begun) * cacheSize ≤ log.length

theorem Supplied.create (w : WriteWindow) :
    Supplied fsize size cacheSize 0 [] {Page.create fsize with writeWindow := w} := by
  refine ⟨Areas.carrying fsize w, fun i hi => absurd hi (Nat.not_lt_zero i), fun m hm => absurd hm List.not_mem_nil,
    [], 0, 0, Index.Kept.create .., ⟨rfl, fun r hr => absurd hr List.not_mem_nil⟩, Nat.le_refl _, ?_⟩
  rw [Nat.zero_sub, Nat.zero_mul]
  exact Nat.zero_le _

theorem Supplied.mono {begun' : Nat} (h : Supplied fsize size cacheSize begun log p) (hle : begun ≤ begun') :
    Supplied fsize size cacheSize begun' log p := by
  obtain ⟨recs, done, appends, hk, ht, hrecs, hwhole⟩ := h.posted
  exact ⟨h.areas, h.stacked, h.sizes, recs, done, appends, hk, ht, hrecs,
    (Nat.mul_le_mul_right _ (Nat.sub_le_sub_left hle _)).trans hwhole⟩

theorem stacked_le (h : Stacked fsize log) (hs : Stacks fsize size) (hsize : ∀ m, m ∈ log → m.size.val = size) :
    log.length ≤ stackHeight fsize size := by
  have hgap := h.gap_nonneg hs hsize
  have hroom := hs.1
  rw [gap_eq hsize] at hgap
  refine (Nat.le_div_iff_mul_le (by unfold sizeofMeas; omega)).mpr ?_
  rw [Nat.mul_comm]
  omega

/-- There are few records. -/
theorem tallied_lt {recs : List IndexRecord} {appends : Nat} (hindex : IndexSuffices fsize size cacheSize)
    (hcache : 0 < cacheSize) (hlog : log.length ≤ stackHeight fsize size)
    (hrecs : 100 * recs.length ≤ log.length + 99 * appends) (hwhole : (appends - 2) * cacheSize ≤ log.length) :
    recs.length < (treeN - 1) * (nodesInFile fsize - 1) := by
  have happends : appends - 2 ≤ stackHeight fsize size / cacheSize :=
    (Nat.le_div_iff_mul_le hcache).mpr (hwhole.trans hlog)
  unfold IndexSuffices at hindex
  show recs.length < 9 * (nodesInFile fsize - 1)
  omega

/-- Whatever records these are, the index takes them. -/
theorem takes_tallied {recs : List IndexRecord} {done appends : Nat} (hindex : IndexSuffices fsize size cacheSize)
    (hcache : 0 < cacheSize) (hlog : log.length ≤ stackHeight fsize size) (ht : Tiled ⟨log, recs, done⟩)
    (hrecs : 100 * recs.length ≤ log.length + 99 * appends) (hwhole : (appends - 2) * cacheSize ≤ log.length)
    (htimes : (log.map Meas.time).Nodup) (d : Nat) : Index.Takes (indexNodes fsize) recs d := by
  refine takes_of_lt (ht.times htimes) ((tallied_lt hindex hcache hlog hrecs hwhole).trans_le ?_)
  refine Nat.mul_le_mul_left _ ?_
  have hnodes := nodesInFile_le fsize
  omega

/-- And its file holds the nodes for them. -/
theorem Supplied.whole (h : Supplied fsize size cacheSize begun log p) (hbegun : begun ≤ 2) (hcache : 0 < cacheSize)
    (hindex : IndexSuffices fsize size cacheSize) (hs : Stacks fsize size) :
    p.index.tree.cachePos ≤ nodesInFile p.header.size := by
  obtain ⟨recs, done, appends, hk, -, hrecs, hwhole⟩ := h.posted
  rw [h.areas.size]
  refine whole_of_lt hk.logged (tallied_lt hindex hcache (stacked_le h.stacked hs h.sizes) hrecs ?_)
  exact (Nat.mul_le_mul_right _ (Nat.sub_le_sub_left hbegun _)).trans hwhole

/-- Each measurement is put until the page is full. -/
theorem acceptAll_plain (ha : Areas fsize log p) (hst : Stacked fsize log) (hs : Stacks fsize size)
    (hvalue : size ≤ sizeofValue) (hsize : ∀ m, m ∈ log → m.size.val = size) (hms : Plain size ms) :
    ∃ q, acceptAll ms p = .ok (accepts fsize log ms, q) := by
  induction ms generalizing log p with
  | nil => exact ⟨p, rfl⟩
  | cons m ms ih =>
    by_cases hfull : FullAt fsize log
    · refine ⟨p, ?_⟩
      rw [acceptAll, if_pos (ha.isFull_iff.mpr hfull), accepts, if_pos hfull]
    have hm : m.size.val = size := hms.size m List.mem_cons_self
    have hsize' : ∀ x, x ∈ log ++ [m] → x.size.val = size := by
      intro x hx
      rcases List.mem_append.mp hx with hx | hx
      · exact hsize x hx
      · rw [List.mem_singleton.mp hx, hm]
    have htaken : Taken fsize log [m] [m] := Taken.cons hfull (Taken.nil fun hne => absurd rfl hne)
    have hst' : Stacked fsize (log ++ [m]) := hst.taken htaken
    obtain ⟨w, hw⟩ := update_indexable (hms.ids m List.mem_cons_self) p.writeWindow
    have hput : put m p = .ok (p.withMeas m w) :=
      put_iff.mpr ⟨w, hw, ha.room (hm.trans_le hvalue) (hst'.fits hs hsize'), rfl⟩
    obtain ⟨q, hq⟩ := ih (ha.put (ha.room (hm.trans_le hvalue) (hst'.fits hs hsize')) w) hst' hsize' (hms.drop 1)
    refine ⟨q, ?_⟩
    rw [acceptAll, if_neg fun hf => hfull (ha.isFull_iff.mp hf), accepts, if_neg hfull, hput]
    show Except.map _ (acceptAll ms (p.withMeas m w).advance) = _
    rw [hq]
    rfl

/-- An append begins one cache more, or writes up a whole one. -/
theorem Supplied.append (h : Supplied fsize size cacheSize begun log p) (hbegun : begun ≤ 1) (hcache : 0 < cacheSize)
    (hindex : IndexSuffices fsize size cacheSize) (hs : Stacks fsize size) (hvalue : size ≤ sizeofValue)
    (hms : Plain size ms) (htimes : ((log ++ ms).map Meas.time).Nodup) :
    ∃ k p', k = accepts fsize log ms ∧ p.appendArray ms = .ok (⟨k, 0⟩, p') ∧ (k ≠ ms.length → p'.isFull = true) ∧
      Supplied fsize size cacheSize (begun + 1) (log ++ ms.take k) p' ∧
      (k = cacheSize → Supplied fsize size cacheSize begun (log ++ ms.take k) p') := by
  obtain ⟨recs, done, appends, hk, ht, hrecs, hwhole⟩ := h.posted
  obtain ⟨q, hq⟩ := acceptAll_plain h.areas h.stacked hs hvalue h.sizes hms
  obtain ⟨ha, htaken⟩ := acceptAll_taken h.areas hq
  obtain ⟨k, hkdef⟩ : ∃ k, k = accepts fsize log ms := ⟨_, rfl⟩
  rw [← hkdef] at hq ha htaken
  have hkle : k ≤ ms.length := acceptAll_le hq
  have hlen : (log ++ ms.take k).length = log.length + k := by
    rw [List.length_append, List.length_take, Nat.min_eq_left hkle]
  have hst := h.stacked.taken htaken
  have hsizes : ∀ m, m ∈ log ++ ms.take k → m.size.val = size := by
    intro m hm
    rcases List.mem_append.mp hm with hm | hm
    · exact h.sizes m hm
    · exact hms.size m (List.mem_of_mem_take hm)
  -- the records that are written
  obtain ⟨new, hnew⟩ : ∃ new, new = (Op.array ms).records log.length k := ⟨_, rfl⟩
  have hcount : new.length = (k + 99) / 100 := by rw [hnew, length_records_array]
  have hkmeases : k ≤ (Op.array ms).meases.length := hkle
  obtain ⟨hpos, hcounts⟩ := Op.records_tile hkmeases ht.positions ht.counts
  rw [← hnew] at hpos hcounts
  have ht' : ∀ d, Tiled ⟨log ++ ms.take k, recs ++ new, d⟩ := fun d => ⟨hpos, hcounts⟩
  have hrecs' : 100 * (recs ++ new).length ≤ (log ++ ms.take k).length + 99 * (appends + 1) := by
    rw [List.length_append, hlen]
    omega
  have hwhole' : (appends + 1 - (begun + 1)) * cacheSize ≤ (log ++ ms.take k).length := by
    rw [Nat.add_sub_add_right, hlen]
    exact hwhole.trans (Nat.le_add_right _ _)
  have htimes' : ((log ++ ms.take k).map Meas.time).Nodup :=
    htimes.sublist (((List.take_sublist k ms).append_left log).map Meas.time)
  have hwhole₂ : (appends + 1 - 2) * cacheSize ≤ (log ++ ms.take k).length :=
    (Nat.mul_le_mul_right _ (by omega)).trans hwhole'
  have hdone : Index.lastFlush indexCacheSize recs.length done new.length ≤ (recs ++ new).length := by
    rw [List.length_append]
    exact (Index.lastFlush_bounds indexCacheSize new.length hk.le).2
  obtain ⟨ix, hix⟩ := Index.Kept.exists_of_takes indexCacheSize hdone
    (takes_tallied hindex hcache (stacked_le hst hs hsizes) (ht' 0) hrecs' hwhole₂ htimes' _)
  have hfeed : p.index.feed new = .ok ix := (hk.feed_iff new).mpr hix
  have hrun : p.appendArray ms = .ok (⟨k, 0⟩, q.finish (.array ms) k ix) := by
    refine appendArray_iff.mpr ⟨k, q, ix, hq, ?_, rfl, rfl⟩
    rw [h.areas.writePos, ← hnew]
    exact hfeed
  have hareas := ha.finish (.array ms) k ix
  refine ⟨k, _, hkdef, hrun, fun hcut => ?_, ?_, fun hall => ?_⟩
  · refine hareas.isFull_iff.mpr (htaken.full fun he => hcut ?_)
    rw [← he, List.length_take, Nat.min_eq_left hkle]
  · exact ⟨hareas, hst, hsizes, _, _, appends + 1, hix, ht' _, hrecs', hwhole'⟩
  · refine ⟨hareas, hst, hsizes, _, _, appends + 1, hix, ht' _, hrecs', ?_⟩
    rw [hlen, hall]
    calc (appends + 1 - begun) * cacheSize ≤ (appends - begun + 1) * cacheSize :=
          Nat.mul_le_mul_right _ (by omega)
      _ = (appends - begun) * cacheSize + cacheSize := Nat.succ_mul ..
      _ ≤ log.length + cacheSize := Nat.add_le_add_right hwhole _

/-- The index of such a page can be flushed. -/
theorem Supplied.flush (h : Supplied fsize size cacheSize begun log p) (hbegun : begun ≤ 2) (hcache : 0 < cacheSize)
    (hindex : IndexSuffices fsize size cacheSize) (hs : Stacks fsize size) (htimes : (log.map Meas.time).Nodup) :
    ∃ ix, p.index.flush = .ok ix ∧ ∀ q : Page, Areas fsize log q → q.index = ix →
      Supplied fsize size cacheSize begun log q := by
  obtain ⟨recs, done, appends, hk, ht, hrecs, hwhole⟩ := h.posted
  have hwhole₂ : (appends - 2) * cacheSize ≤ log.length :=
    (Nat.mul_le_mul_right _ (Nat.sub_le_sub_left hbegun _)).trans hwhole
  obtain ⟨ix, hix⟩ := Index.Kept.exists_of_takes indexCacheSize (Nat.le_refl recs.length)
    (takes_tallied hindex hcache (stacked_le h.stacked hs h.sizes) ht hrecs hwhole₂ htimes recs.length)
  refine ⟨ix, hk.flush_iff.mpr hix, fun q ha hq => ?_⟩
  subst hq
  exact ⟨ha, h.stacked, h.sizes, recs, recs.length, appends, hix, ⟨ht.positions, ht.counts⟩, hrecs, hwhole⟩

/-! ### The pages -/

variable {all data : List Meas} {pm pm' : PageManager} {fuel : Nat} {S : TimeSort}

/-- The current page is such a page, with the last of all measurements, and the others are whole. -/
structure Writing (fsize : U64) (size cacheSize begun : Nat) (all : List Meas) (pm : PageManager) : Prop where
  pageSize : pm.defaultPageSize = fsize
  files : ∀ f, f ∈ pm.files → f.IndexWhole
  cur : ∃ before log p, all = before ++ log ∧ pm.curpage = some p ∧ Supplied fsize size cacheSize begun log p

theorem Writing.start (h : (PageManager.start fsize).createNewPage = .ok pm) :
    Writing fsize size cacheSize 0 [] pm := by
  obtain rfl := Except.ok.inj h
  exact ⟨rfl, fun f hf => absurd hf List.not_mem_nil, [], [], _, rfl, rfl, Supplied.create []⟩

theorem Writing.mono {begun' : Nat} (h : Writing fsize size cacheSize begun all pm) (hle : begun ≤ begun') :
    Writing fsize size cacheSize begun' all pm := by
  obtain ⟨before, log, p, hall, hp, hsup⟩ := h.cur
  exact ⟨h.pageSize, h.files, before, log, p, hall, hp, hsup.mono hle⟩

/-- What pages, caches and measurements are like. -/
structure Setting (fsize : U64) (size cacheSize : Nat) : Prop where
  cache : 0 < cacheSize
  stack : Stacks fsize size
  takes : ¬ Cramped fsize
  indexed : IndexSuffices fsize size cacheSize
  value : size ≤ sizeofValue

theorem Writing.whole (h : Writing fsize size cacheSize begun all pm) (hbegun : begun ≤ 2)
    (hset : Setting fsize size cacheSize) : IndexesWhole pm := by
  obtain ⟨before, log, p, -, hp, hsup⟩ := h.cur
  intro f hf
  rw [pageFiles_some hp] at hf
  rcases List.mem_append.mp hf with hf | hf
  · exact h.files f hf
  · rw [List.mem_singleton.mp hf]
    exact hsup.whole hbegun hset.cache hset.indexed hset.stack

/-- The loop writes up what it is given. The induction is on the turns; a page that is not new costs one turn
more, as it can be full. -/
theorem writeLoop_supplied (hset : Setting fsize size cacheSize) {before log : List Meas}
    (hsize : pm.defaultPageSize = fsize) (hfiles : ∀ f, f ∈ pm.files → f.IndexWhole) (hp : pm.curpage = some p)
    (h : Supplied fsize size cacheSize begun log p) (hbegun : begun ≤ 1) (hout : Plain size output)
    (htimes : ((before ++ log ++ output).map Meas.time).Nodup)
    (hf : output.length < fuel ∧ (log = [] ∨ output.length + 1 < fuel)) :
    ∃ pm', AsyncWriter.writeLoop fuel output pm = .ok (output, pm') ∧
      Writing fsize size cacheSize (begun + 1) (before ++ log ++ output) pm' ∧
      (begun = 0 ∨ output.length = cacheSize → Writing fsize size cacheSize 1 (before ++ log ++ output) pm') := by
  induction fuel generalizing output pm p begun before log with
  | zero => exact absurd hf.1 (Nat.not_lt_zero _)
  | succ fuel ih =>
    by_cases hne : output = []
    · subst hne
      rw [List.append_nil]
      have hw : Writing fsize size cacheSize begun (before ++ log) pm := ⟨hsize, hfiles, before, log, p, rfl, hp, h⟩
      exact ⟨pm, rfl, hw.mono (Nat.le_succ _), fun _ => hw.mono hbegun⟩
    have htimes' : ((log ++ output).map Meas.time).Nodup := by
      rw [List.append_assoc, List.map_append] at htimes
      exact (List.nodup_append.mp htimes).2.1
    obtain ⟨k, p', hk, hrun, hfull, hmore, hwhole⟩ :=
      h.append hbegun hset.cache hset.indexed hset.stack hset.value hout htimes'
    rw [writeLoop_turn hne hp, hrun]
    simp only [bind, Except.bind, AsyncWriter.rollOver]
    by_cases hall : k = output.length
    · -- all of it is on the page
      obtain ⟨left, rfl⟩ : ∃ left, fuel = left + 1 := by
        have := List.length_pos_iff.mpr hne
        exact ⟨fuel - 1, by omega⟩
      have hend : ∀ pm : PageManager, AsyncWriter.writeLoop (left + 1) [] pm = .ok ([], pm) := fun _ => rfl
      rw [if_neg (not_not.mpr hall)]
      simp only [hall, List.drop_length, List.take_length, hend, List.append_nil] at hmore hwhole ⊢
      refine ⟨_, rfl, ?_, fun hb => ?_⟩
      · exact ⟨hsize, hfiles, before, _, _, by rw [List.append_assoc], rfl, hmore⟩
      · refine ⟨hsize, hfiles, before, _, _, by rw [List.append_assoc], rfl, ?_⟩
        rcases hb with rfl | hb
        · exact hmore
        · exact (hwhole hb).mono hbegun
    · -- the rest goes to a new page
      rw [if_pos hall]
      have hkle : k ≤ output.length := by
        rw [hk]
        exact accepts_le ..
      have hfirst : log = [] → 0 < k := by
        rintro rfl
        obtain ⟨m, ms, rfl⟩ := List.exists_cons_of_ne_nil hne
        rw [hk, accepts, if_neg fun hf => hset.takes (fullAt_nil_iff.mp hf)]
        exact Nat.succ_pos _
      have htaken : ((log ++ output.take k).map Meas.time).Nodup :=
        htimes'.sublist (((List.take_sublist k output).append_left log).map Meas.time)
      obtain ⟨ix, hix, hkeep⟩ := hmore.flush (by omega) hset.cache hset.indexed hset.stack htaken
      obtain ⟨f, hclose, hf'⟩ : ∃ f, p'.close = .ok f ∧ f.IndexWhole := by
        refine ⟨_, close_iff.mpr ⟨ix, hix, rfl⟩, ?_⟩
        have ha := hmore.areas
        exact (hkeep {p' with index := ix} ⟨ha.size, ha.writePos, ha.writeValuePos, ha.records⟩ rfl).whole (by omega)
          hset.cache hset.indexed hset.stack
      obtain ⟨next, hnext, hsize', hfiles', q, hcur, hempty⟩ : ∃ next : PageManager,
          PageManager.createNewPage {pm with curpage := some p'} = .ok next ∧ next.defaultPageSize = fsize ∧
          (∀ g, g ∈ next.files → g.IndexWhole) ∧ ∃ q, next.curpage = some q ∧ Supplied fsize size cacheSize 0 [] q := by
        refine ⟨_, (PageManager.createNewPage_iff rfl).mpr ⟨f, hclose, rfl⟩, hsize, fun g hg => ?_, _, rfl,
          hsize ▸ Supplied.create p'.writeWindow⟩
        rcases List.mem_append.mp hg with hg | hg
        · exact hfiles g hg
        · exact List.mem_singleton.mp hg ▸ hf'
      rw [hnext]
      have hjoin : before ++ log ++ output.take k ++ [] ++ output.drop k = before ++ log ++ output := by
        rw [List.append_nil, List.append_assoc (before ++ log), List.take_append_drop]
      have hlt : (output.drop k).length < fuel := by
        rw [List.length_drop]
        rcases hf.2 with hnil | hf
        · have := hfirst hnil
          omega
        · omega
      have htimes₁ : ((before ++ log ++ output.take k ++ [] ++ output.drop k).map Meas.time).Nodup := by rwa [hjoin]
      obtain ⟨pm', hloop, hw, hw1⟩ := ih hsize' hfiles' hcur hempty (Nat.zero_le 1) (hout.drop k) htimes₁
        ⟨hlt, .inl rfl⟩
      rw [hjoin] at hw hw1
      simp only [hloop, List.take_append_drop]
      exact ⟨pm', rfl, hw.mono (Nat.le_add_left 1 _), fun _ => hw⟩

/-- A batch is written up and flushed. -/
theorem call_supplied (hset : Setting fsize size cacheSize) (h : Writing fsize size cacheSize 1 all pm)
    (hdata : Plain size data) (htimes : ((all ++ data).map Meas.time).Nodup) (hf : data.length + 1 < fuel) :
    ∃ pm', AsyncWriter.call S fuel data pm = .ok (S.sort data, pm') ∧
      Writing fsize size cacheSize 2 (all ++ S.sort data) pm' ∧
      (data.length = cacheSize → Writing fsize size cacheSize 1 (all ++ S.sort data) pm') := by
  obtain ⟨before, log, p, rfl, hp, hsup⟩ := h.cur
  have hlen : (S.sort data).length = data.length := (S.perm data).length_eq
  have htimes' : ((before ++ log ++ S.sort data).map Meas.time).Nodup :=
    (((S.perm data).append_left (before ++ log)).map Meas.time).nodup_iff.mpr htimes
  obtain ⟨pm₁, hloop, hw, hw1⟩ := writeLoop_supplied hset h.pageSize h.files hp hsup le_rfl (hdata.perm (S.perm data))
    htimes'
    (show (S.sort data).length < fuel ∧ (log = [] ∨ (S.sort data).length + 1 < fuel) from ⟨by omega, .inr (by omega)⟩)
  -- the page that is current then can be flushed
  obtain ⟨before', log', q, hall, hq, hsup'⟩ := hw.cur
  have htimes₂ : (log'.map Meas.time).Nodup := by
    rw [hall, List.map_append] at htimes'
    exact (List.nodup_append.mp htimes').2.1
  obtain ⟨ix, hix, hkeep'⟩ := hsup'.flush (by omega) hset.cache hset.indexed hset.stack htimes₂
  have hflush : q.flushWriteWindow.flushIndex = .ok {q.flushWriteWindow with index := ix} :=
    flushIndex_iff.mpr ⟨ix, hix, rfl⟩
  have hcall : AsyncWriter.call S fuel data pm =
      .ok (S.sort data, {pm₁ with curpage := some {q.flushWriteWindow with index := ix}}) := by
    unfold AsyncWriter.call
    rw [hloop]
    simp only [bind, Except.bind, PageManager.getCurPage, hq, hflush]
    rfl
  have ha' := hsup'.areas
  refine ⟨_, hcall, ⟨hw.pageSize, hw.files, before', log', _, hall, rfl,
    hkeep' _ ⟨ha'.size, ha'.writePos, ha'.writeValuePos, ha'.records⟩ rfl⟩, fun hwhole => ?_⟩
  obtain ⟨before₁, log₁, q₁, hall₁, hq₁, hsup₁⟩ := (hw1 (.inr (hlen.trans hwhole))).cur
  obtain rfl := Option.some.inj (hq₁.symm.trans hq)
  have htimes₁ : (log₁.map Meas.time).Nodup := by
    rw [hall₁, List.map_append] at htimes'
    exact (List.nodup_append.mp htimes').2.1
  obtain ⟨ix₁, hix₁, hkeep⟩ := hsup₁.flush (by omega) hset.cache hset.indexed hset.stack htimes₁
  obtain rfl := Except.ok.inj (hix₁.symm.trans hix)
  have ha := hsup₁.areas
  exact ⟨hw.pageSize, hw.files, before₁, log₁, _, hall₁, rfl,
    hkeep _ ⟨ha.size, ha.writePos, ha.writeValuePos, ha.records⟩ rfl⟩

/-- Whole caches, and what is left of a last one. -/
theorem runAll_supplied (hset : Setting fsize size cacheSize) {batches : List (List Meas)} {last : List (List Meas)}
    (h : Writing fsize size cacheSize 1 all pm) (hwhole : ∀ b, b ∈ batches → b.length = cacheSize)
    (hlast : last.length ≤ 1) (hdata : Plain size (batches ++ last).flatten)
    (htimes : ((all ++ (batches ++ last).flatten).map Meas.time).Nodup)
    (hf : (batches ++ last).flatten.length + 1 < fuel) :
    ∃ log pm', PageManager.runAll S fuel ((batches ++ last).map .call) pm = .ok (log, pm') ∧
      Writing fsize size cacheSize 2 (all ++ log) pm' := by
  have hone : ∀ {b : List Meas} {rest : List (List Meas)} {all : List Meas} {pm : PageManager},
      Writing fsize size cacheSize 1 all pm → Plain size (b :: rest).flatten →
      ((all ++ (b :: rest).flatten).map Meas.time).Nodup → (b :: rest).flatten.length + 1 < fuel →
      ∃ pm', AsyncWriter.call S fuel b pm = .ok (S.sort b, pm') ∧
        Writing fsize size cacheSize 2 (all ++ S.sort b) pm' ∧
        (b.length = cacheSize → Writing fsize size cacheSize 1 (all ++ S.sort b) pm') := by
    intro b rest all pm h hdata htimes hf
    rw [List.flatten_cons] at hdata htimes hf
    rw [List.length_append] at hf
    refine call_supplied hset h ⟨fun m hm => hdata.size m (List.mem_append_left _ hm),
      fun m hm => hdata.ids m (List.mem_append_left _ hm)⟩ ?_ (by omega)
    refine htimes.sublist (List.Sublist.map _ ?_)
    rw [← List.append_assoc]
    exact List.sublist_append_left ..
  induction batches generalizing all pm with
  | nil =>
    cases last with
    | nil => exact ⟨[], pm, rfl, by rw [List.append_nil]; exact h.mono (by omega)⟩
    | cons b rest =>
      obtain rfl : rest = [] := List.eq_nil_of_length_eq_zero (by rw [List.length_cons] at hlast; omega)
      obtain ⟨pm₁, hcall, hw, -⟩ := hone h hdata htimes hf
      refine ⟨S.sort b ++ [], pm₁, ?_, by rwa [List.append_nil]⟩
      show AsyncWriter.call S fuel b pm >>= _ = _
      rw [hcall]
      rfl
  | cons b batches ih =>
    rw [List.cons_append] at hdata htimes hf ⊢
    obtain ⟨pm₁, hcall, -, hw⟩ := hone h hdata htimes hf
    have hperm : (all ++ S.sort b ++ (batches ++ last).flatten).Perm (all ++ (b :: (batches ++ last)).flatten) := by
      rw [List.flatten_cons, List.append_assoc]
      exact ((S.perm b).append_right _).append_left all
    rw [List.flatten_cons] at hf hdata
    rw [List.length_append] at hf
    obtain ⟨log, pm', hrest, hlast⟩ := ih (hw (hwhole b List.mem_cons_self))
      (fun x hx => hwhole x (List.mem_cons_of_mem _ hx))
      ⟨fun m hm => hdata.size m (List.mem_append_right _ hm), fun m hm => hdata.ids m (List.mem_append_right _ hm)⟩
      ((hperm.map Meas.time).nodup_iff.mpr htimes) (by omega)
    refine ⟨S.sort b ++ log, pm', ?_, by rwa [← List.append_assoc]⟩
    show AsyncWriter.call S fuel b pm >>= _ = _
    rw [hcall]
    simp only [bind, Except.bind, hrest]
    rfl

end

/-! ### The storage -/

/-- `defaultPageSize`. -/
def defaultPageSize : U64 := word (sizeofHeader + sizeofMeas * 1000000)

/-- `defaultcacheSize`. -/
def defaultcacheSize : Nat := 10000

/-- A default page has 1166 nodes and holds 875000 values of eight bytes. -/
theorem Setting.default : Setting defaultPageSize 8 defaultcacheSize :=
  ⟨by decide, by decide, by decide, by decide, by decide⟩

/-- Any calls of `append`, with values of one size that pages stack, ids that the window can be as long as and no time
twice: the caches are written up without a failure, however often a page is full, and the pages then have what was
appended, each once. Every index file holds all the nodes of its tree. -/
theorem appended_written (S : TimeSort) {pageSize : U64} {cacheSize valueSize : Nat}
    (hset : Setting pageSize valueSize cacheSize) (calls : List Call)
    (hmeases : Plain valueSize (calls.flatMap Call.meases))
    (htimes : ((calls.flatMap Call.meases).map Meas.time).Nodup) {fuel : Nat}
    (hf : (calls.flatMap Call.meases).length + 1 < fuel) (clock : Nat → Nat → Nat → Time) :
    ∃ s pm₀, runAll fuel clock calls (Storage.create cacheSize) = .ok (⟨(calls.flatMap Call.meases).length, 0⟩, s) ∧
      (PageManager.start pageSize).createNewPage = .ok pm₀ ∧
      ∀ steps, (calls.flatMap Call.meases).length + 1 < steps →
        ∃ stored pm, s.flush S steps pm₀ = .ok (stored, pm) ∧ stored.Perm (calls.flatMap Call.meases) ∧
          IndexesWhole pm := by
  obtain ⟨s, hrun, hs, -⟩ := runAll_spec hset.cache hf (.create cacheSize) clock
  rw [List.nil_append] at hs
  have hstart : (PageManager.start pageSize).createNewPage = .ok _ := rfl
  have hw : Writing pageSize valueSize cacheSize 1 [] _ := (Writing.start hstart).mono (Nat.zero_le 1)
  -- what is handed over at the end
  obtain ⟨last, hhanded, hlast, hall⟩ : ∃ last : List (List Meas), s.writeCache.handed = s.handed ++ last ∧
      last.length ≤ 1 ∧ (s.handed ++ last).flatten = calls.flatMap Call.meases := by
    unfold writeCache
    by_cases hnil : s.cache.meases = []
    · rw [if_pos hnil]
      have hall := hs.all
      rw [hnil, List.append_nil] at hall
      exact ⟨[], (List.append_nil _).symm, Nat.zero_le 1, by rwa [List.append_nil]⟩
    · rw [if_neg hnil]
      refine ⟨[s.cache.meases], rfl, le_rfl, ?_⟩
      rw [List.flatten_append, List.flatten_singleton]
      exact hs.all
  refine ⟨s, _, hrun, hstart, fun steps hsteps => ?_⟩
  obtain ⟨stored, pm, hflush, hwriting⟩ := runAll_supplied (S := S) hset hw hs.whole hlast (hall ▸ hmeases)
    (hall ▸ htimes)
    (show (s.handed ++ last).flatten.length + 1 < steps by rwa [hall])
  rw [← hhanded] at hflush
  exact ⟨stored, pm, hflush, hs.flush_perm hflush, hwriting.whole le_rfl hset⟩

/-- Pages and caches of the default sizes. -/
theorem appended_written_default : ∃ s pm₀ stored pm,
    runAll 5 (fun _ _ _ => 0) [.append (.plain 1 5), .appendArray [.plain 0 3, .plain 2 9]]
      (Storage.create defaultcacheSize) = .ok (⟨3, 0⟩, s) ∧
    (PageManager.start defaultPageSize).createNewPage = .ok pm₀ ∧
    s.flush TimeSort.insertion 5 pm₀ = .ok (stored, pm) ∧
    stored.Perm [.plain 1 5, .plain 0 3, .plain 2 9] ∧ IndexesWhole pm := by
  obtain ⟨s, pm₀, hrun, hstart, h⟩ := appended_written TimeSort.insertion Setting.default
    [.append (.plain 1 5), .appendArray [.plain 0 3, .plain 2 9]] ⟨by decide, by unfold Indexable; decide⟩ (by decide)
    (show 3 + 1 < 5 by decide) fun _ _ _ => 0
  obtain ⟨stored, pm, hflush, hperm, hwhole⟩ := h 5 (by decide)
  exact ⟨s, pm₀, stored, pm, hrun, hstart, hflush, hperm, hwhole⟩

end Nkvdb.Storage
