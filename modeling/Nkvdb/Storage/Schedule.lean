import Nkvdb.Storage.Interval
import Nkvdb.Storage.Pages

/-! Which pages a query reads, and whether one is scheduled twice.

A page that begins after the query does schedules the one before it again, if that ends by
then, whatever the case of that page itself was (`schedule_nodup_iff`). What is scheduled, and the page whose
window is handed to the readers, are told from the headers alone (`chosenPages`, `handedOn`). -/
namespace Nkvdb.Storage

section
variable (ids : List Id) (source flag : Flag) (fromTime toTime : Time)

/-- What the loop of `readInterval` pushes, page by page. -/
def visits : Option PageInfo → List PageInfo → List String
  | _, [] => []
  | prev, p :: pages =>
    (if filteredOut ids source flag p.header then [] else pushed fromTime toTime prev p) ++ visits (some p) pages

theorem intervalLoop_pages (prev : Option PageInfo) (pages : List PageInfo) (sel : Selection) :
    (intervalLoop ids source flag fromTime toTime prev pages sel).pagesToRead =
      sel.pagesToRead ++ visits ids source flag fromTime toTime prev pages := by
  induction pages generalizing prev sel with
  | nil => exact (List.append_nil _).symm
  | cons p pages ih =>
    rw [intervalLoop, visits, ih]
    by_cases hf : filteredOut ids source flag p.header = true
    · rw [if_pos hf, if_pos hf, List.nil_append]
    · rw [if_neg hf, if_neg hf, visitInterval_pages, List.append_assoc]

theorem readInterval_pages (pages : List PageInfo) :
    (readInterval ids source flag fromTime toTime pages).pagesToRead =
      visits ids source flag fromTime toTime none pages :=
  intervalLoop_pages ids source flag fromTime toTime none pages ⟨[], ""⟩

end

/-! ### One page and the page before it -/

section
variable {fromTime toTime : Time} {prev : Option PageInfo} {p q : PageInfo} {name : String}

/-- The query begins between the two pages. -/
def Between (fromTime : Time) (q p : PageInfo) : Prop := q.header.maxTime ≤ fromTime ∧ fromTime < p.header.minTime

/-- The page ends with the beginning of the query, and begins with it or the query is only that. -/
def Meets (fromTime toTime : Time) (q : PageInfo) : Prop :=
  q.header.maxTime = fromTime ∧ (q.header.minTime = fromTime ∨ toTime = fromTime)

theorem pushed_cases (fromTime toTime : Time) (prev : Option PageInfo) (p : PageInfo) :
    pushed fromTime toTime prev p = [] ∨ pushed fromTime toTime prev p = [p.name] ∨
    ∃ q, prev = some q ∧ Between fromTime q p ∧ pushed fromTime toTime prev p = [q.name, p.name] := by
  unfold pushed visitInterval
  by_cases h1 : p.header.minTime ≤ fromTime ∧ toTime ≤ p.header.maxTime
  · exact .inr (.inl (by simp only [if_pos h1, List.nil_append]))
  by_cases h2 : p.header.minTime ≤ fromTime ∧ fromTime < p.header.maxTime
  · exact .inr (.inl (by simp only [if_neg h1, if_pos h2, List.nil_append]))
  by_cases h3 : fromTime < p.header.minTime ∧ prev.any (fun q => q.header.maxTime ≤ fromTime)
  · refine .inr (.inr ?_)
    cases prev with
    | none => exact absurd h3.2 Bool.false_ne_true
    | some q =>
      refine ⟨q, rfl, ⟨of_decide_eq_true h3.2, h3.1⟩, ?_⟩
      simp only [if_neg h1, if_neg h2, if_pos h3, List.nil_append]
      rfl
  by_cases h4 : fromTime ≤ p.header.minTime ∧ toTime ≤ p.header.maxTime ∧ p.header.minTime ≤ toTime
  · exact .inr (.inl (by simp only [if_neg h1, if_neg h2, if_neg h3, if_pos h4, List.nil_append]))
  by_cases h5 : fromTime ≤ p.header.minTime ∧ p.header.maxTime ≤ toTime
  · exact .inr (.inl (by simp only [if_neg h1, if_neg h2, if_neg h3, if_neg h4, if_pos h5, List.nil_append]))
  · exact .inl (by simp only [if_neg h1, if_neg h2, if_neg h3, if_neg h4, if_neg h5])

/-- A page that ends by the beginning of the query schedules itself only where the two meet. -/
theorem mem_pushed_self_iff (hle : p.header.minTime ≤ p.header.maxTime) (hq : fromTime ≤ toTime)
    (hend : p.header.maxTime ≤ fromTime) : p.name ∈ pushed fromTime toTime prev p ↔ Meets fromTime toTime p := by
  constructor
  · intro h
    unfold pushed visitInterval at h
    by_cases h1 : p.header.minTime ≤ fromTime ∧ toTime ≤ p.header.maxTime
    · exact ⟨le_antisymm hend (hq.trans h1.2), .inr (le_antisymm (h1.2.trans hend) hq)⟩
    by_cases h2 : p.header.minTime ≤ fromTime ∧ fromTime < p.header.maxTime
    · exact absurd h2.2 (not_lt.mpr hend)
    by_cases h3 : fromTime < p.header.minTime ∧ prev.any (fun q => q.header.maxTime ≤ fromTime)
    · exact absurd (h3.1.trans_le (hle.trans hend)) (lt_irrefl _)
    by_cases hbegin : fromTime ≤ p.header.minTime
    · exact ⟨le_antisymm hend (hbegin.trans hle), .inl (le_antisymm (hle.trans hend) hbegin)⟩
    · simp only [if_neg h1, if_neg h2, if_neg h3, if_neg fun h4 : _ ∧ _ ∧ _ => hbegin h4.1,
        if_neg fun h5 : _ ∧ _ => hbegin h5.1] at h
      cases h
  · rintro ⟨hmax, hmin⟩
    refine mem_pushed_self (hle.trans (hend.trans hq)) hmax.ge hq fun ht => ?_
    rcases hmin with hmin | hto
    · exact absurd hmin ht.1.ne
    · exact absurd hto ht.2.2.ne'

end

/-! ### All pages -/

section
variable {ids : List Id} {source flag : Flag} {fromTime toTime : Time}

/-- Two neighbours, both let through by the filters, of which the second schedules the first again. -/
def Again (ids : List Id) (source flag : Flag) (fromTime toTime : Time) (q p : PageInfo) : Prop :=
  filteredOut ids source flag q.header = false ∧ filteredOut ids source flag p.header = false ∧
    Meets fromTime toTime q ∧ Between fromTime q p

/-- What is scheduled from some pages on is one of them, or the page before them from a gap. -/
theorem mem_visits {prev : Option PageInfo} {pages : List PageInfo} {name : String}
    (h : name ∈ visits ids source flag fromTime toTime prev pages) : name ∈ pages.map PageInfo.name ∨
      ∃ q p rest, prev = some q ∧ pages = p :: rest ∧ name = q.name ∧ filteredOut ids source flag p.header = false ∧
        Between fromTime q p := by
  induction pages generalizing prev with
  | nil => cases h
  | cons p pages ih =>
    rw [List.map_cons]
    rcases List.mem_append.mp h with h | h
    · by_cases hf : filteredOut ids source flag p.header = true
      · rw [if_pos hf] at h
        cases h
      rw [if_neg hf] at h
      have hf := Bool.eq_false_iff.mpr hf
      rcases pushed_cases fromTime toTime prev p with he | he | ⟨q, hq, hb, he⟩
      · rw [he] at h
        cases h
      · rw [he] at h
        exact .inl (List.mem_cons.mpr (.inl (List.mem_singleton.mp h)))
      · rw [he] at h
        rcases List.mem_cons.mp h with h | h
        · exact .inr ⟨q, p, pages, hq, rfl, h, hf, hb⟩
        · exact .inl (List.mem_cons.mpr (.inl (List.mem_singleton.mp h)))
    · rcases ih h with h | ⟨q, p', rest, hq, -, hname, -⟩
      · exact .inl (List.mem_cons_of_mem _ h)
      · rw [← Option.some.inj hq] at hname
        exact .inl (List.mem_cons.mpr (.inl hname))

/-- From a gap the page before is scheduled. -/
theorem visits_between {q p : PageInfo} {rest : List PageInfo} (hf : filteredOut ids source flag p.header = false)
    (h : Between fromTime q p) : q.name ∈ visits ids source flag fromTime toTime (some q) (p :: rest) := by
  rw [visits, hf, if_neg Bool.false_ne_true, pushed_between h.2 h.1]
  exact List.mem_append_left _ List.mem_cons_self

/-- What is scheduled at a page and again after it is the page, where the next one does. -/
theorem not_disjoint_iff (ids : List Id) (source flag : Flag) (hq : fromTime ≤ toTime) {prev : Option PageInfo}
    {p : PageInfo} {pages : List PageInfo}
    (hle : p.header.minTime ≤ p.header.maxTime) (hnames : ((prev.toList ++ p :: pages).map PageInfo.name).Nodup) :
    (∃ name, name ∈ (if filteredOut ids source flag p.header then [] else pushed fromTime toTime prev p) ∧
      name ∈ visits ids source flag fromTime toTime (some p) pages) ↔
      ∃ p', p' ∈ pages.head? ∧ Again ids source flag fromTime toTime p p' := by
  rw [List.map_append, List.nodup_append] at hnames
  obtain ⟨-, hself, hapart⟩ := hnames
  have hself := (List.nodup_cons.mp hself).1
  constructor
  · rintro ⟨name, hown, hlater⟩
    by_cases hf : filteredOut ids source flag p.header = true
    · rw [if_pos hf] at hown
      cases hown
    rw [if_neg hf] at hown
    rcases of_mem_pushed hown with ⟨rfl, -⟩ | ⟨q, rfl, rfl, -⟩
    · rcases mem_visits hlater with hmem | ⟨q, p', rest, hq', rfl, -, hf', hb⟩
      · exact absurd hmem hself
      · obtain rfl := Option.some.inj hq'
        exact ⟨p', rfl, Bool.eq_false_iff.mpr hf, hf', (mem_pushed_self_iff hle hq hb.1).mp hown, hb⟩
    -- the page before is pushed here only
    · have hbefore := hapart q.name (List.mem_singleton.mpr rfl)
      rcases mem_visits hlater with hmem | ⟨p', -, -, hp', -, hname, -⟩
      · exact absurd rfl (hbefore _ (List.mem_cons_of_mem _ hmem))
      · rw [← Option.some.inj hp'] at hname
        exact absurd hname (hbefore _ List.mem_cons_self)
  · rintro ⟨p', hp', hfp, hfp', hmeets, hbetween⟩
    obtain ⟨rest, rfl⟩ := List.head?_eq_some_iff.mp hp'
    refine ⟨p.name, ?_, visits_between hfp' hbetween⟩
    rw [hfp, if_neg Bool.false_ne_true]
    exact (mem_pushed_self_iff hle hq hbetween.1).mpr hmeets

theorem visits_nodup_iff (ids : List Id) (source flag : Flag) (hq : fromTime ≤ toTime) (prev : Option PageInfo)
    {pages : List PageInfo}
    (hle : ∀ p, p ∈ pages → p.header.minTime ≤ p.header.maxTime)
    (hnames : ((prev.toList ++ pages).map PageInfo.name).Nodup) :
    (visits ids source flag fromTime toTime prev pages).Nodup ↔
      pages.IsChain fun q p => ¬ Again ids source flag fromTime toTime q p := by
  induction pages generalizing prev with
  | nil => simp [visits]
  | cons p pages ih =>
    have htail : ((Option.toList (some p) ++ pages).map PageInfo.name).Nodup := by
      rw [List.map_append, List.nodup_append] at hnames
      exact hnames.2.1
    have hown : (if filteredOut ids source flag p.header then [] else pushed fromTime toTime prev p).Nodup := by
      by_cases hf : filteredOut ids source flag p.header = true
      · rw [if_pos hf]
        exact List.nodup_nil
      rw [if_neg hf]
      rcases pushed_cases fromTime toTime prev p with he | he | ⟨q, rfl, -, he⟩
      · rw [he]
        exact List.nodup_nil
      · rw [he]
        exact List.nodup_singleton _
      · rw [he]
        exact hnames.sublist (List.Sublist.cons_cons _ (List.Sublist.cons_cons _ (List.nil_sublist _)))
    have hnext := not_disjoint_iff ids source flag hq (hle p List.mem_cons_self) hnames
    rw [visits, List.nodup_append, List.isChain_cons,
      ← ih (some p) (fun x hx => hle x (List.mem_cons_of_mem _ hx)) htail]
    constructor
    · rintro ⟨-, hnodup, hapart⟩
      refine ⟨fun p' hp' ha => ?_, hnodup⟩
      obtain ⟨name, h1, h2⟩ := hnext.mpr ⟨p', hp', ha⟩
      exact hapart name h1 name h2 rfl
    · rintro ⟨hnone, hnodup⟩
      refine ⟨hown, hnodup, fun name h1 name' h2 heq => ?_⟩
      obtain ⟨p', hp', ha⟩ := hnext.mp ⟨name, h1, heq ▸ h2⟩
      exact hnone p' hp' ha

/-- No page is scheduled twice if and only if no two neighbours schedule the first of them again. -/
theorem schedule_nodup_iff (ids : List Id) (source flag : Flag) (hq : fromTime ≤ toTime) {pages : List PageInfo}
    (hle : ∀ p, p ∈ pages → p.header.minTime ≤ p.header.maxTime) (hnames : (pages.map PageInfo.name).Nodup) :
    (visits ids source flag fromTime toTime none pages).Nodup ↔
      ¬ ∃ i q p, pages[i]? = some q ∧ pages[i + 1]? = some p ∧ Again ids source flag fromTime toTime q p := by
  rw [visits_nodup_iff ids source flag hq none hle hnames, List.isChain_iff_getElem]
  constructor
  · rintro h ⟨i, q, p, hqi, hpi, ha⟩
    obtain ⟨_, rfl⟩ := List.getElem?_eq_some_iff.mp hqi
    obtain ⟨hi, rfl⟩ := List.getElem?_eq_some_iff.mp hpi
    exact h i hi ha
  · exact fun h i hi ha => h ⟨i, _, _, List.getElem?_eq_getElem _, List.getElem?_eq_getElem hi, ha⟩

end

/-! ### The pages read -/

section
variable {ids : List Id} {source flag : Flag} {fromTime toTime : Time} {prev : Option PageInfo} {p q : PageInfo}
  {pages : List PageInfo} {name : String}

/-- The page meets the query and does more than touch it. -/
def Overlaps (fromTime toTime : Time) (p : PageInfo) : Prop :=
  p.header.minTime ≤ toTime ∧ fromTime ≤ p.header.maxTime ∧ ¬ Touches fromTime toTime p.header

instance (fromTime toTime : Time) (p : PageInfo) : Decidable (Overlaps fromTime toTime p) := by
  unfold Overlaps Touches
  infer_instance

instance (fromTime : Time) (q p : PageInfo) : Decidable (Between fromTime q p) := by
  unfold Between
  infer_instance

/-- What a page pushes for itself, with no gap before it. -/
theorem pushed_own (hle : p.header.minTime ≤ p.header.maxTime) (hq : fromTime ≤ toTime)
    (hb : ∀ q, prev = some q → ¬ Between fromTime q p) :
    pushed fromTime toTime prev p = if Overlaps fromTime toTime p then [p.name] else [] := by
  by_cases ho : Overlaps fromTime toTime p
  · rw [if_pos ho]
    rcases pushed_cases fromTime toTime prev p with he | he | ⟨q, rfl, h, -⟩
    · have hself : p.name ∈ pushed fromTime toTime prev p := mem_pushed_self ho.1 ho.2.1 hq ho.2.2
      rw [he] at hself
      cases hself
    · exact he
    · exact absurd h (hb q rfl)
  · rw [if_neg ho]
    unfold pushed visitInterval
    have hmeets : ¬ (p.header.minTime ≤ toTime ∧ fromTime ≤ p.header.maxTime) ∨ Touches fromTime toTime p.header := by
      by_contra h
      obtain ⟨hin, ht⟩ := not_or.mp h
      exact ho ⟨(not_not.mp hin).1, (not_not.mp hin).2, ht⟩
    have h1 : ¬ (p.header.minTime ≤ fromTime ∧ toTime ≤ p.header.maxTime) := by
      rintro ⟨hmin, hmax⟩
      rcases hmeets with hin | ht
      · exact hin ⟨hmin.trans hq, hq.trans hmax⟩
      · exact absurd (hmax.trans ht.2.1.le) (not_le.mpr ht.2.2)
    have h2 : ¬ (p.header.minTime ≤ fromTime ∧ fromTime < p.header.maxTime) := by
      rintro ⟨hmin, hmax⟩
      rcases hmeets with hin | ht
      · exact hin ⟨hmin.trans hq, hmax.le⟩
      · exact absurd ht.2.1 hmax.ne'
    have h3 : ¬ (fromTime < p.header.minTime ∧ prev.any fun q => q.header.maxTime ≤ fromTime) := by
      rintro ⟨hmin, hany⟩
      cases prev with
      | none => cases hany
      | some q => exact hb q rfl ⟨of_decide_eq_true hany, hmin⟩
    have hbegin : fromTime ≤ p.header.minTime → toTime < p.header.minTime := by
      intro hmin
      rcases hmeets with hin | ht
      · exact not_le.mp fun hto => hin ⟨hto, hmin.trans hle⟩
      · exact absurd ht.1 (not_lt.mpr hmin)
    have h4 : ¬ (fromTime ≤ p.header.minTime ∧ toTime ≤ p.header.maxTime ∧ p.header.minTime ≤ toTime) := fun h =>
      absurd h.2.2 (not_le.mpr (hbegin h.1))
    have h5 : ¬ (fromTime ≤ p.header.minTime ∧ p.header.maxTime ≤ toTime) := fun h =>
      absurd (hle.trans h.2) (not_le.mpr (hbegin h.1))
    simp only [if_neg h1, if_neg h2, if_neg h3, if_neg h4, if_neg h5]

/-- The query begins between the page before and this one. -/
def afterGap (fromTime : Time) (prev : Option PageInfo) (p : PageInfo) : Bool :=
  prev.any fun q => decide (Between fromTime q p)

theorem afterGap_iff : afterGap fromTime prev p = true ↔ ∃ q, prev = some q ∧ Between fromTime q p := by
  cases prev with
  | none => simp [afterGap]
  | some q => simp [afterGap]

theorem mem_pushed_iff (hle : p.header.minTime ≤ p.header.maxTime) (hq : fromTime ≤ toTime) :
    name ∈ pushed fromTime toTime prev p ↔
      (name = p.name ∧ (Overlaps fromTime toTime p ∨ afterGap fromTime prev p = true)) ∨
      ∃ q, prev = some q ∧ name = q.name ∧ Between fromTime q p := by
  by_cases hb : ∃ q, prev = some q ∧ Between fromTime q p
  · have hgap := afterGap_iff.mpr hb
    obtain ⟨q, rfl, hb⟩ := hb
    rw [pushed_between hb.2 hb.1]
    simp [hb, hgap, or_comm]
  · have hnone : ¬ ∃ q, prev = some q ∧ name = q.name ∧ Between fromTime q p := fun ⟨q, he, _, h⟩ => hb ⟨q, he, h⟩
    rw [pushed_own hle hq fun q he h => hb ⟨q, he, h⟩, or_iff_left hnone, afterGap_iff, or_iff_left hb]
    by_cases ho : Overlaps fromTime toTime p
    · rw [if_pos ho, List.mem_singleton, and_iff_left ho]
    · rw [if_neg ho]
      exact iff_of_false List.not_mem_nil fun h => ho h.2

/-- The next page is let through by the filters, and the query begins before it. -/
def beforeGap (ids : List Id) (source flag : Flag) (fromTime : Time) (p : PageInfo) (pages : List PageInfo) : Bool :=
  pages.head?.any fun p' => !filteredOut ids source flag p'.header && decide (Between fromTime p p')

/-- The pages that a query reads, each once: those let through by the filters that overlap it or come after the
gap in which it begins, and the page before such a gap. -/
def chosenPages (ids : List Id) (source flag : Flag) (fromTime toTime : Time) :
    Option PageInfo → List PageInfo → List PageInfo
  | _, [] => []
  | prev, p :: pages =>
    (if (filteredOut ids source flag p.header = false ∧
          (Overlaps fromTime toTime p ∨ afterGap fromTime prev p = true)) ∨
        beforeGap ids source flag fromTime p pages = true then [p] else []) ++
      chosenPages ids source flag fromTime toTime (some p) pages

theorem chosenPages_sublist (prev : Option PageInfo) (pages : List PageInfo) :
    (chosenPages ids source flag fromTime toTime prev pages).Sublist pages := by
  induction pages generalizing prev with
  | nil => exact List.Sublist.refl _
  | cons p pages ih =>
    unfold chosenPages
    split
    · exact (ih (some p)).cons_cons p
    · exact (ih (some p)).cons p

/-- What is scheduled are the pages read, and from a gap the page before them. -/
theorem mem_visits_iff (hle : ∀ p, p ∈ pages → p.header.minTime ≤ p.header.maxTime) (hq : fromTime ≤ toTime) :
    name ∈ visits ids source flag fromTime toTime prev pages ↔
      (∃ p, p ∈ chosenPages ids source flag fromTime toTime prev pages ∧ name = p.name) ∨
      ∃ q, prev = some q ∧ name = q.name ∧ beforeGap ids source flag fromTime q pages = true := by
  induction pages generalizing prev with
  | nil => simp [visits, chosenPages, beforeGap]
  | cons p pages ih =>
    obtain ⟨hp, hle⟩ := List.forall_mem_cons.mp hle
    have hgap : ∀ q : PageInfo, beforeGap ids source flag fromTime q (p :: pages) = true ↔
        filteredOut ids source flag p.header = false ∧ Between fromTime q p := by
      intro q
      simp [beforeGap]
    have hown : name ∈ (if filteredOut ids source flag p.header then [] else pushed fromTime toTime prev p) ↔
        filteredOut ids source flag p.header = false ∧ name ∈ pushed fromTime toTime prev p := by
      by_cases hf : filteredOut ids source flag p.header = true
      · simp [hf]
      · simp [hf]
    rw [visits, List.mem_append, hown, mem_pushed_iff hp hq, ih hle, chosenPages]
    simp only [hgap, List.mem_append, Option.some.injEq, exists_eq_left']
    by_cases hread : (filteredOut ids source flag p.header = false ∧
        (Overlaps fromTime toTime p ∨ afterGap fromTime prev p = true)) ∨
        beforeGap ids source flag fromTime p pages = true
    · simp only [if_pos hread, List.mem_singleton]
      constructor
      · rintro (⟨hf, ⟨rfl, -⟩ | ⟨q, rfl, rfl, hb⟩⟩ | ⟨p', hp', rfl⟩ | ⟨rfl, -⟩)
        · exact .inl ⟨p, .inl rfl, rfl⟩
        · exact .inr ⟨q, rfl, rfl, hf, hb⟩
        · exact .inl ⟨p', .inr hp', rfl⟩
        · exact .inl ⟨p, .inl rfl, rfl⟩
      · rintro (⟨p', rfl | hp', rfl⟩ | ⟨q, rfl, rfl, hf, hb⟩)
        · rcases hread with ⟨hf, hr⟩ | hn
          · exact .inl ⟨hf, .inl ⟨rfl, hr⟩⟩
          · exact .inr (.inr ⟨rfl, hn⟩)
        · exact .inr (.inl ⟨p', hp', rfl⟩)
        · exact .inl ⟨hf, .inr ⟨q, rfl, rfl, hb⟩⟩
    · simp only [if_neg hread, List.not_mem_nil, false_or]
      obtain ⟨hnot, hnone⟩ := not_or.mp hread
      constructor
      · rintro (⟨hf, ⟨rfl, hr⟩ | ⟨q, rfl, rfl, hb⟩⟩ | ⟨p', hp', rfl⟩ | ⟨rfl, hn⟩)
        · exact absurd ⟨hf, hr⟩ hnot
        · exact .inr ⟨q, rfl, rfl, hf, hb⟩
        · exact .inl ⟨p', hp', rfl⟩
        · exact absurd hn hnone
      · rintro (⟨p', hp', rfl⟩ | ⟨q, rfl, rfl, hf, hb⟩)
        · exact .inr (.inl ⟨p', hp', rfl⟩)
        · exact .inl ⟨hf, .inr ⟨q, rfl, rfl, hb⟩⟩

/-- A schedule without a repetition has the pages read, in some order. -/
theorem visits_perm (hle : ∀ p, p ∈ pages → p.header.minTime ≤ p.header.maxTime) (hq : fromTime ≤ toTime)
    (hnames : (pages.map PageInfo.name).Nodup)
    (h : (visits ids source flag fromTime toTime none pages).Nodup) :
    (visits ids source flag fromTime toTime none pages).Perm
      ((chosenPages ids source flag fromTime toTime none pages).map PageInfo.name) := by
  refine (List.perm_ext_iff_of_nodup h ?_).mpr fun name => ?_
  · exact hnames.sublist ((chosenPages_sublist none pages).map PageInfo.name)
  · rw [mem_visits_iff hle hq, or_iff_left fun ⟨q, hnone, _⟩ => absurd hnone (Option.some_ne_none q).symm, List.mem_map]
    exact exists_congr fun p => and_congr_right fun _ => eq_comm

/-! ### The page before -/

/-- The query begins on the page, and ends behind it. -/
def Begins (fromTime toTime : Time) (p : PageInfo) : Prop :=
  p.header.minTime ≤ fromTime ∧ fromTime < p.header.maxTime ∧ p.header.maxTime < toTime

/-- The query lies on the page. -/
def Surrounds (fromTime toTime : Time) (p : PageInfo) : Prop := p.header.minTime ≤ fromTime ∧ toTime ≤ p.header.maxTime

instance (fromTime toTime : Time) (p : PageInfo) : Decidable (Begins fromTime toTime p) := by
  unfold Begins
  infer_instance

instance (fromTime toTime : Time) (p : PageInfo) : Decidable (Surrounds fromTime toTime p) := by
  unfold Surrounds
  infer_instance

/-- The page before the last one on which the query begins and which it ends behind. -/
def beforeLast (ids : List Id) (source flag : Flag) (fromTime toTime : Time) :
    Option PageInfo → List PageInfo → Option PageInfo
  | _, [] => none
  | prev, p :: pages =>
    (beforeLast ids source flag fromTime toTime (some p) pages).or
      (if filteredOut ids source flag p.header = false ∧ Begins fromTime toTime p then prev else none)

/-- The page before the first one read, if the query lies on this. -/
def beforeFirst (ids : List Id) (source flag : Flag) (fromTime toTime : Time) :
    Option PageInfo → List PageInfo → Option PageInfo
  | _, [] => none
  | prev, p :: pages =>
    if filteredOut ids source flag p.header = false ∧
        (Overlaps fromTime toTime p ∨ afterGap fromTime prev p = true) then
      if Surrounds fromTime toTime p then prev else none
    else beforeFirst ids source flag fromTime toTime (some p) pages

/-- The page whose window is handed to the readers. -/
def handedOn (ids : List Id) (source flag : Flag) (fromTime toTime : Time) (pages : List PageInfo) : Option PageInfo :=
  (beforeLast ids source flag fromTime toTime none pages).or (beforeFirst ids source flag fromTime toTime none pages)

theorem visitInterval_handed (sel : Selection) : (visitInterval fromTime toTime prev p sel).prevIntervalPage =
    if Surrounds fromTime toTime p then
      if sel.pagesToRead = [] ∧ sel.prevIntervalPage = "" then (prev.map PageInfo.name).getD "" else sel.prevIntervalPage
    else if Begins fromTime toTime p then (prev.map PageInfo.name).getD sel.prevIntervalPage
    else sel.prevIntervalPage := by
  unfold visitInterval
  by_cases h1 : Surrounds fromTime toTime p
  · have h1' : p.header.minTime ≤ fromTime ∧ toTime ≤ p.header.maxTime := h1
    simp only [if_pos h1, if_pos h1']
    cases prev with
    | none =>
      by_cases hs : sel.pagesToRead = [] ∧ sel.prevIntervalPage = ""
      · rw [if_pos hs]
        exact hs.2
      · rw [if_neg hs]
    | some q =>
      have hlen : (sel.prevIntervalPage = "" ∧ (sel.pagesToRead ++ [p.name]).length = 1) ↔
          sel.pagesToRead = [] ∧ sel.prevIntervalPage = "" := by
        rw [List.length_append, List.length_singleton, Nat.succ_inj, List.length_eq_zero_iff, and_comm]
      simp only [hlen, Option.map_some, Option.getD_some]
  have h1' : ¬ (p.header.minTime ≤ fromTime ∧ toTime ≤ p.header.maxTime) := h1
  by_cases h2 : p.header.minTime ≤ fromTime ∧ fromTime < p.header.maxTime
  · have hb : Begins fromTime toTime p := ⟨h2.1, h2.2, not_le.mp fun hle => h1 ⟨h2.1, hle⟩⟩
    simp only [if_neg h1, if_neg h1', if_pos h2, if_pos hb]
    cases prev with
    | none => rfl
    | some q => rfl
  have hb : ¬ Begins fromTime toTime p := fun h => h2 ⟨h.1, h.2.1⟩
  simp only [if_neg h1, if_neg h1', if_neg h2, if_neg hb]
  by_cases h3 : fromTime < p.header.minTime ∧ prev.any (fun q => q.header.maxTime ≤ fromTime)
  · rw [if_pos h3]
  by_cases h4 : fromTime ≤ p.header.minTime ∧ toTime ≤ p.header.maxTime ∧ p.header.minTime ≤ toTime
  · rw [if_neg h3, if_pos h4]
  by_cases h5 : fromTime ≤ p.header.minTime ∧ p.header.maxTime ≤ toTime
  · rw [if_neg h3, if_neg h4, if_pos h5]
  · rw [if_neg h3, if_neg h4, if_neg h5]

/-- A page pushes nothing if it is not read. -/
theorem pushed_eq_nil_iff (hle : p.header.minTime ≤ p.header.maxTime) (hq : fromTime ≤ toTime) :
    pushed fromTime toTime prev p = [] ↔ ¬ (Overlaps fromTime toTime p ∨ afterGap fromTime prev p = true) := by
  by_cases hb : ∃ q, prev = some q ∧ Between fromTime q p
  · have hgap := afterGap_iff.mpr hb
    obtain ⟨q, rfl, hb⟩ := hb
    rw [pushed_between hb.2 hb.1]
    exact iff_of_false (List.cons_ne_nil _ _) fun h => h (.inr hgap)
  · rw [pushed_own hle hq fun q he h => hb ⟨q, he, h⟩, afterGap_iff, or_iff_left hb]
    by_cases ho : Overlaps fromTime toTime p
    · rw [if_pos ho]
      exact iff_of_false (List.cons_ne_nil _ _) fun h => h ho
    · rw [if_neg ho]
      exact iff_of_true rfl ho

theorem intervalLoop_handed (hle : ∀ p, p ∈ pages → p.header.minTime ≤ p.header.maxTime) (hq : fromTime ≤ toTime)
    (sel : Selection) : (intervalLoop ids source flag fromTime toTime prev pages sel).prevIntervalPage =
      (((beforeLast ids source flag fromTime toTime prev pages).or
        (if sel.pagesToRead = [] ∧ sel.prevIntervalPage = "" then
          beforeFirst ids source flag fromTime toTime prev pages else none)).map PageInfo.name).getD
        sel.prevIntervalPage := by
  induction pages generalizing prev sel with
  | nil => simp [intervalLoop, beforeLast, beforeFirst]
  | cons p pages ih =>
    obtain ⟨hp, hle⟩ := List.forall_mem_cons.mp hle
    rw [intervalLoop, beforeLast, beforeFirst, ih hle]
    by_cases hf : filteredOut ids source flag p.header = true
    · simp [hf]
    have hf' : filteredOut ids source flag p.header = false := Bool.eq_false_iff.mpr hf
    have hpages : (visitInterval fromTime toTime prev p sel).pagesToRead = [] ↔ sel.pagesToRead = [] ∧
        ¬ (Overlaps fromTime toTime p ∨ afterGap fromTime prev p = true) := by
      rw [visitInterval_pages, List.append_eq_nil_iff, pushed_eq_nil_iff hp hq]
    simp only [hf', if_neg Bool.false_ne_true, true_and, hpages, visitInterval_handed]
    cases beforeLast ids source flag fromTime toTime (some p) pages with
    | some q => simp
    | none =>
      by_cases hh : Surrounds fromTime toTime p
      · have hread : Overlaps fromTime toTime p := ⟨hh.1.trans hq, hq.trans hh.2, fun ht =>
          absurd (hh.2.trans ht.2.1.le) (not_le.mpr ht.2.2)⟩
        have hb : ¬ Begins fromTime toTime p := fun h => absurd hh.2 (not_le.mpr h.2.2)
        by_cases hs : sel.pagesToRead = [] ∧ sel.prevIntervalPage = ""
        · simp [hh, hread, hb, hs]
        · simp [hh, hread, hb, hs]
      · by_cases hb : Begins fromTime toTime p
        · have hread : Overlaps fromTime toTime p := ⟨hb.1.trans hq, hb.2.1.le, fun ht =>
            absurd ht.2.1 hb.2.1.ne'⟩
          cases prev with
          | none => simp [hh, hb, hread]
          | some q => simp [hh, hb, hread]
        · by_cases hread : Overlaps fromTime toTime p ∨ afterGap fromTime prev p = true
          · simp [hh, hb, hread]
          · simp [hh, hb, hread]

theorem readInterval_handed (hle : ∀ p, p ∈ pages → p.header.minTime ≤ p.header.maxTime) (hq : fromTime ≤ toTime) :
    (readInterval ids source flag fromTime toTime pages).prevIntervalPage =
      ((handedOn ids source flag fromTime toTime pages).map PageInfo.name).getD "" := by
  have h : (intervalLoop ids source flag fromTime toTime none pages ⟨[], ""⟩).prevIntervalPage = _ :=
    intervalLoop_handed hle hq ⟨[], ""⟩
  rw [if_pos ⟨rfl, rfl⟩] at h
  exact h

end
end Nkvdb.Storage
