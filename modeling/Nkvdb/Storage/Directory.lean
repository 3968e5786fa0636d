import Nkvdb.Storage.Reader
import Nkvdb.Storage.Volumes

/-! The walk of `Storage::readInTimePoint` over the pages.

Pages that are written in the order of the times follow each other in it, so there is one
order of their greatest times, and the walk ends in one of three places: before them all,
behind one of them, or in one of them (`Chosen`). -/
namespace Nkvdb.Storage
open Page

/-! ### The page chosen -/

section
variable {tp : Time} {prev : Option PageInfo} {pages : List PageInfo}

/-- Where all pages begin later none is chosen. -/
theorem timePointLoop_later (hprev : prev.any (fun q => decide (q.header.maxTime ≤ tp)) = false)
    (hmin : ∀ p, p ∈ pages → tp < p.header.minTime) (hle : ∀ p, p ∈ pages → p.header.minTime ≤ p.header.maxTime) :
    timePointLoop [] 0 0 tp prev pages = ⟨[], ""⟩ := by
  induction pages generalizing prev with
  | nil => rfl
  | cons p pages ih =>
    obtain ⟨hlt, hmin⟩ := List.forall_mem_cons.mp hmin
    obtain ⟨hmm, hle⟩ := List.forall_mem_cons.mp hle
    have h1 : ¬ ((p.header.minTime ≤ tp ∧ p.header.maxTime ≤ tp) ∧ pages = []) := fun h => absurd h.1.1 (not_le.mpr hlt)
    have h2 : ¬ (p.header.minTime ≤ tp ∧ tp ≤ p.header.maxTime) := fun h => absurd h.1 (not_le.mpr hlt)
    have h3 : ¬ (tp < p.header.minTime ∧ prev.any fun q => decide (q.header.maxTime ≤ tp)) := by
      rw [hprev]
      exact fun h => Bool.false_ne_true h.2
    have hnext : (some p).any (fun q => decide (q.header.maxTime ≤ tp)) = false :=
      decide_eq_false (not_le.mpr (hlt.trans_le hmm))
    have hfilter : filteredOut [] 0 0 p.header = false := rfl
    unfold timePointLoop
    simp only [hfilter, Bool.false_eq_true, if_false, if_neg h1, if_neg h2, if_neg h3]
    exact ih hnext hmin hle

/-- The name of the last page, if any. -/
def lastName (pages : List PageInfo) : String :=
  match pages.getLast? with
  | some q => q.name
  | none => ""

/-- Which page the walk chooses, of pages that follow each other in time. -/
inductive Chosen (tp : Time) (pages : List PageInfo) : Selection → Prop
  | none : (∀ p, p ∈ pages → tp < p.header.minTime) → Chosen tp pages ⟨[], ""⟩
  | after {earlier later : List PageInfo} {p : PageInfo} : pages = earlier ++ p :: later → p.header.maxTime < tp →
      (∀ q, q ∈ later → tp < q.header.minTime) → Chosen tp pages ⟨[p.name], ""⟩
  | within {earlier later : List PageInfo} {p : PageInfo} : pages = earlier ++ p :: later → p.header.minTime ≤ tp →
      tp ≤ p.header.maxTime →
      Chosen tp pages ⟨[p.name], if p.header.maxTime ≤ tp ∧ later = [] then "" else lastName earlier⟩

theorem timePointLoop_chosen {earlier : List PageInfo}
    (hchain : (earlier ++ pages).Pairwise fun a b => a.header.maxTime < b.header.minTime)
    (hle : ∀ p, p ∈ earlier ++ pages → p.header.minTime ≤ p.header.maxTime)
    (hbefore : ∀ p, p ∈ earlier → p.header.maxTime < tp)
    (hsome : earlier ≠ [] → pages ≠ []) :
    Chosen tp (earlier ++ pages) (timePointLoop [] 0 0 tp earlier.getLast? pages) := by
  induction pages generalizing earlier with
  | nil =>
    have hnil : earlier = [] := by
      by_contra hne
      exact hsome hne rfl
    rw [hnil]
    exact .none fun p hp => absurd hp List.not_mem_nil
  | cons p pages ih =>
    have hmm := hle p (List.mem_append_right _ List.mem_cons_self)
    have hrest := (List.pairwise_cons.mp (List.pairwise_append.mp hchain).2.1).1
    have hfilter : filteredOut [] 0 0 p.header = false := rfl
    unfold timePointLoop
    simp only [hfilter, Bool.false_eq_true, if_false]
    by_cases h1 : (p.header.minTime ≤ tp ∧ p.header.maxTime ≤ tp) ∧ pages = []
    · rw [if_pos h1]
      rcases lt_or_eq_of_le h1.1.2 with hlt | heq
      · refine .after rfl hlt fun q hq => ?_
        rw [h1.2] at hq
        cases hq
      · have hlast : Chosen tp (earlier ++ p :: pages) _ := .within rfl h1.1.1 heq.ge
        rwa [if_pos ⟨heq.le, h1.2⟩] at hlast
    rw [if_neg h1]
    by_cases h2 : p.header.minTime ≤ tp ∧ tp ≤ p.header.maxTime
    · rw [if_pos h2]
      have hin : Chosen tp (earlier ++ p :: pages) _ := .within rfl h2.1 h2.2
      rwa [if_neg fun h => h1 ⟨⟨h2.1, h.1⟩, h.2⟩] at hin
    rw [if_neg h2]
    by_cases hlt : tp < p.header.minTime
    · have hlater : ∀ q, q ∈ p :: pages → tp < q.header.minTime :=
        List.forall_mem_cons.mpr ⟨hlt, fun q hq => (hlt.trans_le hmm).trans (hrest q hq)⟩
      cases hlast : earlier.getLast? with
      | none =>
        rw [List.getLast?_eq_none_iff] at hlast
        subst hlast
        rw [if_neg fun h => Bool.false_ne_true h.2]
        rw [timePointLoop_later]
        · exact .none hlater
        · exact decide_eq_false (not_le.mpr (hlt.trans_le hmm))
        · exact fun q hq => hlater q (List.mem_cons_of_mem _ hq)
        · exact fun q hq => hle q (List.mem_cons_of_mem _ hq)
      | some q =>
        obtain ⟨es, rfl⟩ := List.getLast?_eq_some_iff.mp hlast
        have hq := hbefore q (List.mem_append_right _ List.mem_cons_self)
        rw [if_pos ⟨hlt, decide_eq_true hq.le⟩]
        exact .after (List.append_assoc es [q] (p :: pages)) hq hlater
    · -- the page is over before the time point, and not the last one
      have hmax : p.header.maxTime < tp := by
        by_contra hge
        exact h2 ⟨not_lt.mp hlt, not_lt.mp hge⟩
      rw [if_neg fun h => hlt h.1]
      have hconcat : earlier ++ p :: pages = (earlier ++ [p]) ++ pages := by simp
      rw [hconcat] at hchain hle ⊢
      have hnext := ih hchain hle ?_ ?_
      · rwa [List.getLast?_concat] at hnext
      · intro q hq
        rcases List.mem_append.mp hq with hq | hq
        · exact hbefore q hq
        · rw [List.mem_singleton.mp hq]
          exact hmax
      · exact fun _ hnil => h1 ⟨⟨not_lt.mp hlt, hmax.le⟩, hnil⟩

end

/-! ### Page files in the order of their times -/

section
variable {fsize : U64} {before log seg : List Meas} {files : List PageFile} {f : PageFile} {p : Page}

/-- What opening a file leaves alone. -/
theorem openFile_header {readOnly : Bool} (h : openFile f readOnly = .ok p) :
    p.header.minTime = f.header.minTime ∧ p.header.maxTime = f.header.maxTime ∧
      p.header.writePos = f.header.writePos ∧ p.index = Index.openFile indexCacheSize f.indexFile := by
  obtain ⟨-, -, w, -, rfl⟩ := openFile_iff.mp h
  exact ⟨rfl, rfl, rfl, rfl⟩

theorem Saved.bounds (h : Saved fsize before seg f) (hpos : f.header.writePos ≠ 0) :
    seg ≠ [] ∧ Bounds f.header seg := by
  obtain ⟨p, hopen, hv⟩ := h
  obtain ⟨hmin, hmax, hwp, -⟩ := openFile_header hopen
  obtain ⟨recs, hposted⟩ := hv.posted
  have hne : seg ≠ [] := by
    rintro rfl
    exact hpos (hwp.symm.trans hposted.areas.writePos)
  have hb := hv.timed.bounds hne
  refine ⟨hne, ?_, ?_, ?_⟩
  · rw [← hmin]
    exact hb.minMem
  · rw [← hmax]
    exact hb.maxMem
  · rw [← hmin, ← hmax]
    exact hb.le

/-- A page ends before the next one begins. -/
theorem Volumes.ascending (h : Volumes fsize log files) (hi : Increasing log)
    (hpos : ∀ f, f ∈ files → f.header.writePos ≠ 0) :
    files.Pairwise (fun a b => a.header.maxTime < b.header.minTime) ∧
      ∀ f, f ∈ files → f.header.minTime ≤ f.header.maxTime ∧ ∃ m, m ∈ log ∧ m.time = f.header.maxTime := by
  induction h with
  | nil => exact ⟨List.Pairwise.nil, fun f hf => absurd hf List.not_mem_nil⟩
  | @snoc before seg files f hvs hs ih =>
    obtain ⟨hib, -, hlt⟩ := List.pairwise_append.mp hi
    obtain ⟨hp, hends⟩ := ih hib fun f hf => hpos f (List.mem_append_left _ hf)
    obtain ⟨-, hb⟩ := hs.bounds (hpos f (List.mem_append_right _ List.mem_cons_self))
    obtain ⟨a, ha, hmin⟩ := hb.minMem
    obtain ⟨b, hb', hmax⟩ := hb.maxMem
    refine ⟨List.pairwise_append.mpr ⟨hp, List.pairwise_singleton _ _, fun g hg f' hf' => ?_⟩, fun g hg => ?_⟩
    · rw [List.mem_singleton.mp hf']
      obtain ⟨-, m, hm, he⟩ := hends g hg
      rw [← he, ← hmin]
      exact hlt m hm a ha
    · rcases List.mem_append.mp hg with hg | hg
      · obtain ⟨hle, m, hm, he⟩ := hends g hg
        exact ⟨hle, m, List.mem_append_left _ hm, he⟩
      · rw [List.mem_singleton.mp hg]
        refine ⟨?_, b, List.mem_append_right _ hb', hmax⟩
        rw [← hmin]
        exact (hb.le a ha).2

/-- What was written lies on a page that has its time. -/
theorem Volumes.covers (h : Volumes fsize log files) (hpos : ∀ f, f ∈ files → f.header.writePos ≠ 0) {m : Meas}
    (hm : m ∈ log) :
    ∃ f, f ∈ files ∧ f.header.minTime ≤ m.time ∧ m.time ≤ f.header.maxTime := by
  induction h with
  | nil => exact absurd hm List.not_mem_nil
  | @snoc before seg files f hvs hs ih =>
    rcases List.mem_append.mp hm with hm | hm
    · obtain ⟨g, hg, hle⟩ := ih (fun g hg => hpos g (List.mem_append_left _ hg)) hm
      exact ⟨g, List.mem_append_left _ hg, hle⟩
    · have hf : f ∈ files ++ [f] := List.mem_append_right _ List.mem_cons_self
      exact ⟨f, hf, (hs.bounds (hpos f hf)).2.le m hm⟩

/-- The name of a new page (`getNewPageUniqueName`), at the time 0. -/
def pageName (suffix : Nat) : String := "0_" ++ suffix.repr ++ ".page"

theorem pageName_ne (suffix : Nat) : pageName suffix ≠ "" := by
  intro h
  have hlen := congrArg String.length h
  simp [pageName] at hlen

theorem pageName_inj {i j : Nat} (h : pageName i = pageName j) : i = j := by
  unfold pageName at h
  rw [String.append_left_inj, String.append_right_inj] at h
  exact Nat.repr_injective h

/-- Any files have names. -/
theorem exists_disk (files : List PageFile) : ∃ (names : List String) (disk : String → PageFile),
    (∀ n, n ∈ names → n ≠ "") ∧ names.map disk = files := by
  obtain ⟨names, hnames⟩ : ∃ names, (List.range files.length).map pageName = names := ⟨_, rfl⟩
  have hnodup : names.Nodup := hnames ▸ List.nodup_range.map fun i j => pageName_inj
  have hlen : names.length = files.length := by rw [← hnames, List.length_map, List.length_range]
  refine ⟨names, fun n => files.getD (names.idxOf n) (onDisk (Page.create 0)), fun n hn => ?_, ?_⟩
  · rw [← hnames] at hn
    obtain ⟨i, -, rfl⟩ := List.mem_map.mp hn
    exact pageName_ne i
  · refine List.ext_getElem (by rw [List.length_map, hlen]) fun i hi hi' => ?_
    rw [List.getElem_map, hnodup.idxOf_getElem, List.getD_eq_getElem _ _ hi']

/-- The files of a storage under their names, in the order of their greatest times. -/
structure Directory (pm : PageManager) where
  names : List String
  disk : String → PageFile
  named : ∀ n, n ∈ names → n ≠ ""
  files : (names.map disk).Perm (pageFiles pm)
  ascending : names.Pairwise fun a b => (disk a).header.maxTime ≤ (disk b).header.maxTime

theorem exists_directory (pm : PageManager) : Nonempty (Directory pm) := by
  obtain ⟨names, disk, hnamed, hfiles⟩ := exists_disk
    ((pageFiles pm).insertionSort fun a b => a.header.maxTime ≤ b.header.maxTime)
  refine ⟨⟨names, disk, hnamed, hfiles ▸ List.perm_insertionSort .., ?_⟩⟩
  rw [← List.pairwise_map (R := fun a b : PageFile => a.header.maxTime ≤ b.header.maxTime), hfiles]
  exact List.pairwise_insertionSort ..

namespace Directory
variable {pm : PageManager}

/-- `PageManager::pagesByTime`, reversed. -/
def pages (d : Directory pm) : List PageInfo := d.names.map fun n => ⟨(d.disk n).header, n⟩

/-- What an unfiltered `Storage::readInTimePoint` delivers. -/
def readInTimePoint (d : Directory pm) (fuel : Nat) (tp : Time) : Except Fault (List Meas) :=
  (timePointReader [] 0 0 tp d.pages).readAll d.disk fuel

/-- Where the pages follow each other in time there is one order of their files. -/
theorem map_disk (d : Directory pm) (hp : (pageFiles pm).Pairwise fun a b => a.header.maxTime < b.header.minTime)
    (hle : ∀ f, f ∈ pageFiles pm → f.header.minTime ≤ f.header.maxTime) : d.names.map d.disk = pageFiles pm := by
  have hlt : (pageFiles pm).Pairwise fun a b => a.header.maxTime < b.header.maxTime :=
    hp.imp_of_mem fun _ hb hab => hab.trans_le (hle _ hb)
  have hnodup : ((pageFiles pm).map fun f => f.header.maxTime).Nodup :=
    List.pairwise_map.mpr (hlt.imp fun hab => hab.ne)
  have hmax : (d.names.map d.disk).Pairwise fun a b => a.header.maxTime ≤ b.header.maxTime :=
    List.pairwise_map.mpr d.ascending
  refine d.files.eq_of_pairwise (fun a b ha hb hab hba => ?_) hmax (hlt.imp fun hab => hab.le)
  exact List.inj_on_of_nodup_map hnodup (d.files.mem_iff.mp ha) hb (le_antisymm hab hba)

variable {d : Directory pm} {tp : Time}

/-- The pages follow each other in time as their files do. -/
theorem pages_chain (hp : (pageFiles pm).Pairwise fun a b => a.header.maxTime < b.header.minTime)
    (hle : ∀ f, f ∈ pageFiles pm → f.header.minTime ≤ f.header.maxTime) :
    d.pages.Pairwise (fun a b => a.header.maxTime < b.header.minTime) ∧
      ∀ q, q ∈ d.pages → q.header.minTime ≤ q.header.maxTime := by
  have hmap := d.map_disk hp hle
  rw [← hmap] at hp hle
  exact ⟨List.pairwise_map.mpr (List.pairwise_map.mp hp),
    List.forall_mem_map.mpr fun k hk => hle _ (List.mem_map_of_mem hk)⟩

/-- Where the walk over the pages of a storage ends. -/
theorem chosen (hp : (pageFiles pm).Pairwise fun a b => a.header.maxTime < b.header.minTime)
    (hle : ∀ f, f ∈ pageFiles pm → f.header.minTime ≤ f.header.maxTime) :
    Chosen tp d.pages (Storage.readInTimePoint [] 0 0 tp d.pages) := by
  obtain ⟨hpages, hmem⟩ := d.pages_chain hp hle
  have hwalk : Chosen tp ([] ++ d.pages) (timePointLoop [] 0 0 tp none d.pages) :=
    timePointLoop_chosen hpages hmem (fun q hq => absurd hq List.not_mem_nil) fun h => absurd rfl h
  exact hwalk

/-- A page found at a place among the pages. -/
theorem split (hmap : d.names.map d.disk = pageFiles pm) {earlier later : List PageInfo} {q : PageInfo}
    (h : d.pages = earlier ++ q :: later) : ∃ (ns ms : List String) (n : String), q = ⟨(d.disk n).header, n⟩ ∧
      earlier = (ns.map fun n => ⟨(d.disk n).header, n⟩) ∧ later = (ms.map fun n => ⟨(d.disk n).header, n⟩) ∧
      (∀ n, n ∈ ns → n ≠ "") ∧ pageFiles pm = ns.map d.disk ++ d.disk n :: ms.map d.disk := by
  obtain ⟨ns, rest, hnames, rfl, hrest⟩ := List.map_eq_append_iff.mp h
  obtain ⟨n, ms, rfl, rfl, rfl⟩ := List.map_eq_cons_iff.mp hrest
  refine ⟨ns, ms, n, rfl, rfl, rfl, fun n hn => d.named n ?_, ?_⟩
  · rw [hnames]
    exact List.mem_append_left _ hn
  · rw [← hmap, hnames, List.map_append, List.map_cons]

end Directory

/-- The time point lies in the times of the page. -/
def Within (tp : Time) (f : PageFile) : Prop := f.header.minTime ≤ tp ∧ tp ≤ f.header.maxTime

/-- The pages apart from one do not have the time point. -/
theorem within_unique {files later : List PageFile} {tp : Time} {f g : PageFile}
    (hp : (files ++ f :: later).Pairwise fun a b => a.header.maxTime < b.header.minTime)
    (hearlier : f.header.minTime ≤ tp ∨ f.header.maxTime < tp) (hlater : ∀ g, g ∈ later → tp < g.header.minTime)
    (hle : f.header.minTime ≤ f.header.maxTime) (hg : g ∈ files ++ f :: later) (hw : Within tp g) : g = f := by
  have hmin : f.header.minTime ≤ tp := hearlier.elim id fun hlt => hle.trans hlt.le
  rcases List.mem_append.mp hg with hg | hg
  · have hlt := (List.pairwise_append.mp hp).2.2 g hg f List.mem_cons_self
    exact absurd (hw.2.trans_lt hlt) (not_lt.mpr hmin)
  rcases List.mem_cons.mp hg with rfl | hg
  · rfl
  · exact absurd hw.1 (not_le.mpr (hlater g hg))

end
end Nkvdb.Storage
