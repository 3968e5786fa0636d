import Nkvdb.Storage.Directory

/-! The bounds of a storage (`Storage::minTime`, `Storage::maxTime`).

Both take what the header at one end of `pagesByTime` says, which goes by the greatest times. The
page that ends first need not be the one that begins first. -/
namespace Nkvdb.Storage
open Page

/-! ### What the headers say, whatever the order of the times -/

/-- The header counts `log` and summarises it. -/
structure Headed (hdr : Header) (log : List Meas) : Prop where
  writePos : hdr.writePos = log.length
  timed : Timed hdr log
  passes : ∀ m, m ∈ log → Passes hdr m

theorem Headed.bounds {hdr : Header} {log : List Meas} (h : Headed hdr log) (hne : log ≠ []) : Bounds hdr log :=
  h.timed.bounds hne

/-- What `Headed` goes by. -/
def summary (hdr : Header) : Nat × Bool × Time × Time × Id × Flag × Flag :=
  (hdr.writePos, hdr.minMaxInit, hdr.minTime, hdr.maxTime, hdr.idFltr, hdr.flagFltr, hdr.srcFltr)

theorem Headed.congr {hdr hdr' : Header} {log : List Meas} (h : Headed hdr log) (he : summary hdr = summary hdr') :
    Headed hdr' log := by
  simp only [summary, Prod.mk.injEq] at he
  obtain ⟨hpos, hinit, hmin, hmax, hid, hflag, hsrc⟩ := he
  refine ⟨hpos ▸ h.writePos, ⟨hinit ▸ h.timed.init, fun hne => ⟨?_, ?_, ?_⟩⟩, fun m hm => ⟨?_, ?_, ?_⟩⟩
  · exact hmin ▸ (h.bounds hne).minMem
  · exact hmax ▸ (h.bounds hne).maxMem
  · exact hmin ▸ hmax ▸ (h.bounds hne).le
  · exact hid ▸ (h.passes m hm).id
  · exact hflag ▸ (h.passes m hm).flag
  · exact hsrc ▸ (h.passes m hm).source

/-- The log lies on the page files and the current page, one after the other. -/
def Lined (log : List Meas) (pm : PageManager) : Prop :=
  ∃ segs last p fsize, log = segs.flatten ++ last ∧ pm.curpage = some p ∧ Areas fsize last p ∧ Headed p.header last ∧
    List.Forall₂ (fun f seg => Headed f.header seg) pm.files segs

section
variable {fsize : U64} {log : List Meas} {pm pm' : PageManager}

theorem Headed.create (fsize : U64) : Headed (Page.create fsize).header [] :=
  ⟨rfl, (Summarises.create fsize).timed, fun _ hm => absurd hm List.not_mem_nil⟩

theorem Headed.append {fsize : U64} {seg : List Meas} {p p' : Page} {op : Op} {r : AppendResult}
    (h : Headed p.header seg) (ha : Areas fsize seg p) (hsorted : op.Sorted) (hrun : op.run p = .ok (r, p')) :
    Areas fsize (seg ++ op.meases.take r.writed) p' ∧ Headed p'.header (seg ++ op.meases.take r.writed) := by
  have hs := (Summarises.mk h.timed h.passes).append hsorted hrun
  obtain ⟨-, k, q, ix, hacc, -, rfl, rfl⟩ := Op.run_iff.mp hrun
  have ha' := ((acceptAll_taken ha hacc).1).finish op k ix
  exact ⟨ha', ha'.writePos, hs.timed, hs.passes⟩

theorem Lined.start (h : (PageManager.start fsize).createNewPage = .ok pm) : Lined [] pm := by
  obtain rfl := Except.ok.inj h
  exact ⟨[], [], _, fsize, rfl, rfl, Areas.create fsize, Headed.create fsize, .nil⟩

theorem Lined.kept : PageManager.KeptSorted Lined where
  append := by
    intro log pm p op r p' h hp hsorted hrun
    obtain ⟨segs, last, p₁, fsize, rfl, hp₁, ha, hh, hfiles⟩ := h
    obtain rfl := Option.some.inj (hp₁.symm.trans hp)
    obtain ⟨ha', hh'⟩ := hh.append ha hsorted hrun
    exact ⟨segs, _, p', fsize, List.append_assoc .., rfl, ha', hh', hfiles⟩
  createNewPage := by
    intro log pm pm' h hc
    obtain ⟨segs, last, p, fsize, rfl, hp, ha, hh, hfiles⟩ := h
    obtain ⟨f, hf, rfl⟩ := (PageManager.createNewPage_iff hp).mp hc
    obtain ⟨ix, -, rfl⟩ := close_iff.mp hf
    refine ⟨segs ++ [last], [], _, pm.defaultPageSize, ?_, rfl, ?_, (Headed.create _).congr rfl, ?_⟩
    · simp
    · exact Areas.carrying _ _
    · exact List.rel_append hfiles (.cons (hh.congr rfl) .nil)
  flush := by
    intro log pm p p' h hp hf
    obtain ⟨segs, last, p₁, fsize, rfl, hp₁, ha, hh, hfiles⟩ := h
    obtain rfl := Option.some.inj (hp₁.symm.trans hp)
    obtain ⟨ix, -, rfl⟩ := Page.flushIndex_iff.mp hf
    exact ⟨segs, last, _, fsize, rfl, rfl, ⟨ha.size, ha.writePos, ha.writeValuePos, ha.records⟩, hh.congr rfl, hfiles⟩

end

/-! ### Storages -/

section
variable {fsize : U64} {log : List Meas} {pm pm' : PageManager}

theorem exists_left {α β : Type} {R : α → β → Prop} {as : List α} {bs : List β} (h : List.Forall₂ R as bs) {b : β}
    (hb : b ∈ bs) : ∃ a, a ∈ as ∧ R a b := by
  induction h with
  | nil => cases hb
  | @cons a b' as bs hab _ ih =>
    rcases List.mem_cons.mp hb with rfl | hb
    · exact ⟨a, List.mem_cons_self, hab⟩
    · obtain ⟨a', ha', hab'⟩ := ih hb
      exact ⟨a', List.mem_cons_of_mem _ ha', hab'⟩

theorem exists_right {α β : Type} {R : α → β → Prop} {as : List α} {bs : List β} (h : List.Forall₂ R as bs) {a : α}
    (ha : a ∈ as) : ∃ b, b ∈ bs ∧ R a b := exists_left h.flip ha

variable {S : TimeSort} {fuel : Nat} {batches : List (List Meas)}

/-- After batches in any order the page files hold what was written one after the other, and none
is empty once something was. -/
theorem headed_of_calls (hstart : (PageManager.start fsize).createNewPage = .ok pm)
    (hrun : PageManager.runAll S fuel (batches.map .call) pm = .ok (log, pm')) :
    ∃ segs, log = segs.flatten ∧ List.Forall₂ (fun f seg => Headed f.header seg) (pageFiles pm') segs ∧
      (log ≠ [] → ∀ seg, seg ∈ segs → seg ≠ []) := by
  have hlined := Lined.kept.runAll (Lined.start hstart) hrun
  rw [List.nil_append] at hlined
  obtain ⟨segs, last, p, size, rfl, hp, ha, hh, hfiles⟩ := hlined
  have hrest := (Resting.start hstart).calls hrun
  refine ⟨segs ++ [last], ?_, ?_, fun hne seg hseg hnil => ?_⟩
  · simp
  · rw [pageFiles_some hp]
    exact List.rel_append hfiles (.cons hh .nil)
  subst hnil
  rcases List.mem_append.mp hseg with hseg | hseg
  · obtain ⟨f, hf, hhead⟩ := exists_left hfiles hseg
    exact hrest.files f hf hhead.writePos
  · obtain rfl := List.mem_singleton.mp hseg
    have hnone := hrest.first p hp hh.writePos
    rw [hnone] at hfiles
    cases hfiles
    exact hne rfl

/-- The times that occur. -/
def times (log : List Meas) : Set Time := {t | ∃ m, m ∈ log ∧ m.time = t}

/-- `Storage::minTime`, where there is a page: `pages.back()`. -/
def Directory.minTime (d : Directory pm) : Option Time := d.pages.head?.map fun p => p.header.minTime

/-- `Storage::maxTime`, where there is a page: `pages.front()`. -/
def Directory.maxTime (d : Directory pm) : Option Time := d.pages.getLast?.map fun p => p.header.maxTime

/-- The two are the least and the greatest of the times. -/
def Directory.Exact (d : Directory pm) (log : List Meas) : Prop :=
  (∃ t, d.minTime = some t ∧ IsLeast (times log) t) ∧ ∃ t, d.maxTime = some t ∧ IsGreatest (times log) t

section
variable {segs : List (List Meas)} {d : Directory pm}

/-- A page of the storage has the bounds of what lies on it. -/
theorem Directory.exists_seg (hfiles : List.Forall₂ (fun f seg => Headed f.header seg) (pageFiles pm) segs)
    (hne : ∀ seg, seg ∈ segs → seg ≠ []) {p : PageInfo} (hp : p ∈ d.pages) :
    ∃ seg, seg ∈ segs ∧ Bounds p.header seg := by
  obtain ⟨n, hn, rfl⟩ := List.mem_map.mp hp
  have hmem : d.disk n ∈ pageFiles pm := d.files.mem_iff.mp (List.mem_map_of_mem hn)
  obtain ⟨seg, hseg, hhead⟩ := exists_right hfiles hmem
  exact ⟨seg, hseg, hhead.bounds (hne seg hseg)⟩

/-- What was written lies in the bounds of a page. -/
theorem Directory.exists_page (hfiles : List.Forall₂ (fun f seg => Headed f.header seg) (pageFiles pm) segs)
    {m : Meas} (hm : m ∈ segs.flatten) :
    ∃ p, p ∈ d.pages ∧ p.header.minTime ≤ m.time ∧ m.time ≤ p.header.maxTime := by
  obtain ⟨seg, hseg, hm⟩ := List.mem_flatten.mp hm
  obtain ⟨f, hf, hhead⟩ := exists_left hfiles hseg
  obtain ⟨n, hn, rfl⟩ := List.mem_map.mp (d.files.mem_iff.mpr hf)
  exact ⟨_, List.mem_map_of_mem hn, (hhead.bounds (List.ne_nil_of_mem hm)).le m hm⟩

theorem Directory.pages_ascending (d : Directory pm) :
    d.pages.Pairwise fun a b => a.header.maxTime ≤ b.header.maxTime := List.pairwise_map.mpr d.ascending

/-- The page listed last by `pagesByTime` is one that ends first. -/
theorem Directory.head_ends_first {first : PageInfo} (h : d.pages.head? = some first) :
    ∃ f, f ∈ pageFiles pm ∧ f.header = first.header ∧ ∀ g, g ∈ pageFiles pm → f.header.maxTime ≤ g.header.maxTime := by
  obtain ⟨rest, hrest⟩ := List.head?_eq_some_iff.mp h
  obtain ⟨n, names, hnames, rfl, -⟩ := List.map_eq_cons_iff.mp hrest
  have hasc := d.ascending
  have hmem : ∀ g, g ∈ pageFiles pm → ∃ k, k ∈ n :: names ∧ d.disk k = g := fun g hg =>
    hnames ▸ List.mem_map.mp (d.files.mem_iff.mpr hg)
  rw [hnames] at hasc
  refine ⟨d.disk n, d.files.mem_iff.mp (List.mem_map_of_mem ?_), rfl, fun g hg => ?_⟩
  · rw [hnames]
    exact List.mem_cons_self
  · obtain ⟨k, hk, rfl⟩ := hmem g hg
    rcases List.mem_cons.mp hk with rfl | hk
    · exact le_rfl
    · exact (List.pairwise_cons.mp hasc).1 k hk

end

/-- After batches in any order, with something written: `maxTime` is the greatest time, and
`minTime` the least if and only if no page begins before the one that `pagesByTime` lists last, which
is one that ends first. -/
theorem bounds_iff (S : TimeSort) (fuel : Nat) (pageSize : U64) (batches : List (List Meas)) (log : List Meas)
    (pm₀ pm : PageManager) (hstart : (PageManager.start pageSize).createNewPage = .ok pm₀)
    (hrun : PageManager.runAll S fuel (batches.map .call) pm₀ = .ok (log, pm)) (hne : log ≠ []) (d : Directory pm) :
    (∃ t, d.maxTime = some t ∧ IsGreatest (times log) t) ∧
      (d.Exact log ↔
        ∀ first p, d.pages.head? = some first → p ∈ d.pages → first.header.minTime ≤ p.header.minTime) := by
  obtain ⟨segs, rfl, hfiles, hall⟩ := headed_of_calls hstart hrun
  have hseg := hall hne
  obtain ⟨m, hm⟩ := List.exists_mem_of_ne_nil _ hne
  obtain ⟨p₀, hp₀, -⟩ := d.exists_page hfiles hm
  have hpages : d.pages ≠ [] := List.ne_nil_of_mem hp₀
  have hmax : ∃ t, d.maxTime = some t ∧ IsGreatest (times segs.flatten) t := by
    have hlast := List.getLast_mem hpages
    obtain ⟨seg, hmem, hb⟩ := d.exists_seg hfiles hseg hlast
    obtain ⟨a, ha, hmax⟩ := hb.maxMem
    refine ⟨(d.pages.getLast hpages).header.maxTime, ?_, ⟨a, List.mem_flatten_of_mem hmem ha, hmax⟩, ?_⟩
    · unfold Directory.maxTime
      rw [List.getLast?_eq_some_getLast hpages]
      rfl
    · rintro t ⟨b, hb, rfl⟩
      obtain ⟨p, hp, -, hle⟩ := d.exists_page hfiles hb
      have : Std.Refl fun a b : PageInfo => a.header.maxTime ≤ b.header.maxTime := ⟨fun _ => le_rfl⟩
      exact hle.trans (d.pages_ascending.rel_getLast hp)
  refine ⟨hmax, ?_⟩
  obtain ⟨first, rest, hfirst⟩ := List.exists_cons_of_ne_nil hpages
  have hhead : d.pages.head? = some first := by rw [hfirst, List.head?_cons]
  have hmin : d.minTime = some first.header.minTime := by
    unfold Directory.minTime
    rw [hhead]
    rfl
  constructor
  · rintro ⟨⟨t, ht, hleast⟩, -⟩ first' p hf hp
    obtain rfl := Option.some.inj (hhead.symm.trans hf)
    obtain rfl := Option.some.inj (hmin.symm.trans ht)
    obtain ⟨seg, hmem, hb⟩ := d.exists_seg hfiles hseg hp
    obtain ⟨a, ha, heq⟩ := hb.minMem
    exact hleast.2 ⟨a, List.mem_flatten_of_mem hmem ha, heq⟩
  · refine fun h => ⟨⟨_, hmin, ?_, ?_⟩, hmax⟩
    · obtain ⟨seg, hmem, hb⟩ := d.exists_seg hfiles hseg (List.mem_of_mem_head? hhead)
      obtain ⟨a, ha, heq⟩ := hb.minMem
      exact ⟨a, List.mem_flatten_of_mem hmem ha, heq⟩
    · rintro t ⟨b, hb, rfl⟩
      obtain ⟨p, hp, hle, -⟩ := d.exists_page hfiles hb
      exact (h first p hhead hp).trans hle

end

/-- Two pages with later data on the second. -/
theorem bounds_iff_two : ∃ log pm, PageManager.runAll TimeSort.insertion 4
    ([[.plain 0 3, .plain 1 5], [.plain 1 7, .plain 2 9]].map .call)
        {PageManager.start (calcSize 2) with curpage := some (create (calcSize 2))} = .ok (log, pm) ∧
    log.length = 4 ∧ ∀ d : Directory pm, d.Exact log := by
  let pm₀ : PageManager := {PageManager.start (calcSize 2) with curpage := some (create (calcSize 2))}
  obtain ⟨⟨log, pm⟩, hrun, hok⟩ := exists_ok
    (x := PageManager.runAll TimeSort.insertion 4 ([[.plain 0 3, .plain 1 5], [.plain 1 7, .plain 2 9]].map .call) pm₀)
    (p := fun x => decide (x.1.length = 4 ∧ ∀ f, f ∈ pageFiles x.2 →
      (∀ g, g ∈ pageFiles x.2 → f.header.maxTime ≤ g.header.maxTime) →
        ∀ g, g ∈ pageFiles x.2 → f.header.minTime ≤ g.header.minTime)) (by decide +kernel)
  obtain ⟨hlen, hfirst⟩ := of_decide_eq_true hok
  replace hlen : log.length = 4 := hlen
  have hne : log ≠ [] := List.ne_nil_of_length_pos (by omega)
  refine ⟨log, pm, hrun, hlen, fun d => ?_⟩
  refine (bounds_iff TimeSort.insertion 4 (calcSize 2) _ log pm₀ pm rfl hrun hne d).2.mpr fun first p hf hp => ?_
  obtain ⟨f, hmem, heq, hends⟩ := d.head_ends_first hf
  obtain ⟨n, hn, rfl⟩ := List.mem_map.mp hp
  rw [← heq]
  exact hfirst f hmem hends _ (d.files.mem_iff.mp (List.mem_map_of_mem hn))

/-- A page of the times 1 and 20, and then late data of the times 5 and 10 on a second page. The second
ends first, and `minTime` is 5. -/
theorem minTime_late : ∃ log pm, PageManager.runAll TimeSort.insertion 4
    ([[.plain 0 1, .plain 1 20], [.plain 1 5, .plain 2 10]].map .call)
        {PageManager.start (calcSize 2) with curpage := some (create (calcSize 2))} = .ok (log, pm) ∧
    .plain 0 1 ∈ log ∧ ∀ d : Directory pm, d.minTime = some 5 ∧ ¬ d.Exact log := by
  let pm₀ : PageManager := {PageManager.start (calcSize 2) with curpage := some (create (calcSize 2))}
  obtain ⟨⟨log, pm⟩, hrun, hok⟩ := exists_ok
    (x := PageManager.runAll TimeSort.insertion 4 ([[.plain 0 1, .plain 1 20], [.plain 1 5, .plain 2 10]].map .call)
      pm₀)
    (p := fun x => decide (.plain 0 1 ∈ x.1 ∧ pageFiles x.2 ≠ [] ∧ ∀ f, f ∈ pageFiles x.2 →
      (∀ g, g ∈ pageFiles x.2 → f.header.maxTime ≤ g.header.maxTime) → f.header.minTime = 5)) (by decide +kernel)
  obtain ⟨hmem, hne, hfirst⟩ := of_decide_eq_true hok
  refine ⟨log, pm, hrun, hmem, fun d => ?_⟩
  have hpages : d.pages ≠ [] := by
    intro hnil
    have hnames := List.map_eq_nil_iff.mp hnil
    have hfiles := d.files
    rw [hnames] at hfiles
    exact hne hfiles.symm.eq_nil
  obtain ⟨first, rest, hcons⟩ := List.exists_cons_of_ne_nil hpages
  have hhead : d.pages.head? = some first := by rw [hcons, List.head?_cons]
  obtain ⟨f, hf, heq, hends⟩ := d.head_ends_first hhead
  have hmin : d.minTime = some 5 := by
    unfold Directory.minTime
    rw [hhead, ← hfirst f hf hends, heq]
    rfl
  refine ⟨hmin, ?_⟩
  rintro ⟨⟨t, ht, hleast⟩, -⟩
  obtain rfl := Option.some.inj (hmin.symm.trans ht)
  exact absurd (hleast.2 ⟨.plain 0 1, hmem, rfl⟩) (by decide)

end Nkvdb.Storage
