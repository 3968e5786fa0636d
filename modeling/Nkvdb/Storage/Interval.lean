import Nkvdb.Storage

/-! Whether every page with something to read is scheduled.

A page that ends at the very time the query begins with is scheduled by no case of its
own, unless it begins there too or the query ends there; the page after it schedules it
if that begins later. -/
namespace Nkvdb.Storage

/-- The header of a page has the least and the greatest of its times. -/
structure Bounds (hdr : Header) (log : List Meas) : Prop where
  minMem : ∃ m, m ∈ log ∧ m.time = hdr.minTime
  maxMem : ∃ m, m ∈ log ∧ m.time = hdr.maxTime
  le : ∀ m, m ∈ log → hdr.minTime ≤ m.time ∧ m.time ≤ hdr.maxTime

/-- The pages of a storage with what they hold, in the order `pagesByTime` gives when
reversed: by the greatest times, in any order where these are equal. -/
structure Listing where
  entries : List (PageInfo × List Meas)
  bounds : ∀ e, e ∈ entries → Bounds e.1.header e.2
  ascending : entries.Pairwise fun a b => a.1.header.maxTime ≤ b.1.header.maxTime
  names : (entries.map fun e => e.1.name).Nodup

/-- The headers alone. -/
def Listing.pages (l : Listing) : List PageInfo := l.entries.map Prod.fst

/-- The pages a visit pushes. -/
def pushed (fromTime toTime : Time) (prev : Option PageInfo) (p : PageInfo) : List String :=
  (visitInterval fromTime toTime prev p ⟨[], ""⟩).pagesToRead

theorem visitInterval_pages (fromTime toTime : Time) (prev : Option PageInfo) (p : PageInfo) (sel : Selection) :
    (visitInterval fromTime toTime prev p sel).pagesToRead = sel.pagesToRead ++ pushed fromTime toTime prev p := by
  unfold pushed visitInterval
  by_cases h1 : p.header.minTime ≤ fromTime ∧ toTime ≤ p.header.maxTime
  · simp only [if_pos h1, List.nil_append]
  by_cases h2 : p.header.minTime ≤ fromTime ∧ fromTime < p.header.maxTime
  · simp only [if_neg h1, if_pos h2, List.nil_append]
  by_cases h3 : fromTime < p.header.minTime ∧ prev.any (fun q => q.header.maxTime ≤ fromTime)
  · simp only [if_neg h1, if_neg h2, if_pos h3, List.nil_append, List.append_assoc]
  by_cases h4 : fromTime ≤ p.header.minTime ∧ toTime ≤ p.header.maxTime ∧ p.header.minTime ≤ toTime
  · simp only [if_neg h1, if_neg h2, if_neg h3, if_pos h4, List.nil_append]
  by_cases h5 : fromTime ≤ p.header.minTime ∧ p.header.maxTime ≤ toTime
  · simp only [if_neg h1, if_neg h2, if_neg h3, if_neg h4, if_pos h5, List.nil_append]
  · simp only [if_neg h1, if_neg h2, if_neg h3, if_neg h4, if_neg h5, List.append_nil]

/-- The page before the `i`-th. -/
def before (prev : Option PageInfo) (pages : List PageInfo) : Nat → Option PageInfo
  | 0 => prev
  | i + 1 => pages[i]?

theorem mem_intervalLoop {fromTime toTime : Time} {prev : Option PageInfo} {pages : List PageInfo}
    {sel : Selection} {name : String} :
    name ∈ (intervalLoop [] 0 0 fromTime toTime prev pages sel).pagesToRead ↔ name ∈ sel.pagesToRead ∨
      ∃ i p, pages[i]? = some p ∧ name ∈ pushed fromTime toTime (before prev pages i) p := by
  induction pages generalizing prev sel with
  | nil =>
    constructor
    · exact .inl
    · rintro (h | ⟨i, p, hp, -⟩)
      · exact h
      · cases hp
  | cons q pages ih =>
    have hfilter : filteredOut [] 0 0 q.header = false := rfl
    rw [intervalLoop, hfilter, ih, if_neg Bool.false_ne_true, visitInterval_pages, List.mem_append, or_assoc]
    apply or_congr_right
    constructor
    · rintro (h | ⟨i, p, hp, h⟩)
      · exact ⟨0, q, rfl, h⟩
      · refine ⟨i + 1, p, hp, ?_⟩
        cases i with
        | zero => exact h
        | succ i => exact h
    · rintro ⟨i, p, hp, h⟩
      cases i with
      | zero =>
        obtain rfl := Option.some.inj hp
        exact .inl h
      | succ i =>
        refine .inr ⟨i, p, hp, ?_⟩
        cases i with
        | zero => exact h
        | succ i => exact h

/-- The page ends with the beginning of the query, and goes back and the query on from there. -/
def Touches (fromTime toTime : Time) (hdr : Header) : Prop :=
  hdr.minTime < fromTime ∧ hdr.maxTime = fromTime ∧ fromTime < toTime

/-- A page schedules itself, unless it only touches the query, and the one before it from a gap. -/
theorem of_mem_pushed {fromTime toTime : Time} {prev : Option PageInfo} {p : PageInfo} {name : String}
    (h : name ∈ pushed fromTime toTime prev p) :
    (name = p.name ∧ ¬ Touches fromTime toTime p.header) ∨
      ∃ q, prev = some q ∧ name = q.name ∧ fromTime < p.header.minTime := by
  unfold pushed visitInterval at h
  by_cases h1 : p.header.minTime ≤ fromTime ∧ toTime ≤ p.header.maxTime
  · simp only [if_pos h1, List.nil_append, List.mem_singleton] at h
    exact .inl ⟨h, fun ht => absurd (h1.2.trans ht.2.1.le) (not_le.mpr ht.2.2)⟩
  by_cases h2 : p.header.minTime ≤ fromTime ∧ fromTime < p.header.maxTime
  · simp only [if_neg h1, if_pos h2, List.nil_append, List.mem_singleton] at h
    exact .inl ⟨h, fun ht => absurd ht.2.1 (ne_of_gt h2.2)⟩
  by_cases h3 : fromTime < p.header.minTime ∧ prev.any (fun q => q.header.maxTime ≤ fromTime)
  · simp only [if_neg h1, if_neg h2, if_pos h3, List.nil_append] at h
    rcases List.mem_append.mp h with h | h
    · cases prev with
      | none => cases h
      | some q => exact .inr ⟨q, rfl, List.mem_singleton.mp h, h3.1⟩
    · exact .inl ⟨List.mem_singleton.mp h, fun ht => absurd ht.1 (not_lt.mpr h3.1.le)⟩
  by_cases h4 : fromTime ≤ p.header.minTime ∧ toTime ≤ p.header.maxTime ∧ p.header.minTime ≤ toTime
  · simp only [if_neg h1, if_neg h2, if_neg h3, if_pos h4, List.nil_append, List.mem_singleton] at h
    exact .inl ⟨h, fun ht => absurd ht.1 (not_lt.mpr h4.1)⟩
  by_cases h5 : fromTime ≤ p.header.minTime ∧ p.header.maxTime ≤ toTime
  · simp only [if_neg h1, if_neg h2, if_neg h3, if_neg h4, if_pos h5, List.nil_append, List.mem_singleton] at h
    exact .inl ⟨h, fun ht => absurd ht.1 (not_lt.mpr h5.1)⟩
  · simp only [if_neg h1, if_neg h2, if_neg h3, if_neg h4, if_neg h5] at h
    cases h

/-- A page that meets the query and does more than touch it schedules itself. -/
theorem mem_pushed_self {fromTime toTime : Time} {prev : Option PageInfo} {p : PageInfo}
    (hmin : p.header.minTime ≤ toTime) (hmax : fromTime ≤ p.header.maxTime) (hq : fromTime ≤ toTime)
    (h : ¬ Touches fromTime toTime p.header) : p.name ∈ pushed fromTime toTime prev p := by
  unfold pushed visitInterval
  by_cases h1 : p.header.minTime ≤ fromTime ∧ toTime ≤ p.header.maxTime
  · simp only [if_pos h1, List.nil_append, List.mem_singleton]
  by_cases h2 : p.header.minTime ≤ fromTime ∧ fromTime < p.header.maxTime
  · simp only [if_neg h1, if_pos h2, List.nil_append, List.mem_singleton]
  by_cases h3 : fromTime < p.header.minTime ∧ prev.any (fun q => q.header.maxTime ≤ fromTime)
  · simp only [if_neg h1, if_neg h2, if_pos h3, List.nil_append]
    exact List.mem_append_right _ (List.mem_singleton.mpr rfl)
  by_cases h4 : fromTime ≤ p.header.minTime ∧ toTime ≤ p.header.maxTime ∧ p.header.minTime ≤ toTime
  · simp only [if_neg h1, if_neg h2, if_neg h3, if_pos h4, List.nil_append, List.mem_singleton]
  by_cases h5 : fromTime ≤ p.header.minTime ∧ p.header.maxTime ≤ toTime
  · simp only [if_neg h1, if_neg h2, if_neg h3, if_neg h4, if_pos h5, List.nil_append, List.mem_singleton]
  -- no case is left: the page would begin before the query and end with its beginning
  exfalso
  rcases lt_or_ge p.header.minTime fromTime with hlt | hge
  · have hend : p.header.maxTime = fromTime := le_antisymm (not_lt.mp fun hgt => h2 ⟨hlt.le, hgt⟩) hmax
    refine h ⟨hlt, hend, lt_of_le_of_ne hq fun heq => h1 ⟨hlt.le, ?_⟩⟩
    rw [hend, heq]
  · rcases le_total toTime p.header.maxTime with hle | hle
    · exact h4 ⟨hge, hle, hmin⟩
    · exact h5 ⟨hge, hle⟩

/-- A page that begins after the query does schedules the one before it and itself, if that one ends by then. -/
theorem pushed_between {fromTime toTime : Time} {p q : PageInfo} (hp : fromTime < p.header.minTime)
    (hq : q.header.maxTime ≤ fromTime) : pushed fromTime toTime (some q) p = [q.name, p.name] := by
  have h1 : ¬ (p.header.minTime ≤ fromTime ∧ toTime ≤ p.header.maxTime) := fun h => absurd h.1 (not_le.mpr hp)
  have h2 : ¬ (p.header.minTime ≤ fromTime ∧ fromTime < p.header.maxTime) := fun h => absurd h.1 (not_le.mpr hp)
  have h3 : fromTime < p.header.minTime ∧ (some q).any (fun q => q.header.maxTime ≤ fromTime) :=
    ⟨hp, decide_eq_true hq⟩
  unfold pushed visitInterval
  simp only [if_neg h1, if_neg h2, if_pos h3, List.nil_append]
  rfl

theorem mem_pushed_before {fromTime toTime : Time} {p q : PageInfo} (hp : fromTime < p.header.minTime)
    (hq : q.header.maxTime ≤ fromTime) : q.name ∈ pushed fromTime toTime (some q) p := by
  rw [pushed_between hp hq]
  exact List.mem_cons_self

/-! ### Listings -/

/-- The pages a query schedules. -/
def Listing.scheduled (l : Listing) (fromTime toTime : Time) : List String :=
  (readInterval [] 0 0 fromTime toTime l.pages).pagesToRead

theorem Listing.name_inj (l : Listing) {i j : Nat} {e e' : PageInfo × List Meas} (hi : l.entries[i]? = some e)
    (hj : l.entries[j]? = some e') (h : e.1.name = e'.1.name) : i = j := by
  have hi' : (l.entries.map fun x => x.1.name)[i]? = some e.1.name := by
    rw [List.getElem?_map, hi]
    rfl
  have hj' : (l.entries.map fun x => x.1.name)[j]? = some e.1.name := by
    rw [List.getElem?_map, hj, h]
    rfl
  exact (List.getElem?_inj (List.getElem?_eq_some_iff.mp hi').1 l.names).mp (hi'.trans hj'.symm)

/-- A page is scheduled from its own case or from that of the page after it. -/
theorem Listing.mem_scheduled (l : Listing) {fromTime toTime : Time} {i : Nat} {e : PageInfo × List Meas}
    (he : l.entries[i]? = some e) : e.1.name ∈ l.scheduled fromTime toTime ↔
      e.1.name ∈ pushed fromTime toTime (before none l.pages i) e.1 ∨
      ∃ e', l.entries[i + 1]? = some e' ∧ e.1.name ∈ pushed fromTime toTime (some e.1) e'.1 := by
  have hpage : ∀ (j : Nat) (e : PageInfo × List Meas), l.entries[j]? = some e → l.pages[j]? = some e.1 := by
    intro j e h
    unfold Listing.pages
    rw [List.getElem?_map, h]
    rfl
  unfold Listing.scheduled readInterval
  rw [mem_intervalLoop, or_iff_right List.not_mem_nil]
  constructor
  · rintro ⟨j, p, hp, hmem⟩
    unfold Listing.pages at hp
    rw [List.getElem?_map, Option.map_eq_some_iff] at hp
    obtain ⟨e', he', rfl⟩ := hp
    rcases of_mem_pushed hmem with ⟨hname, -⟩ | ⟨q, hq, hname, -⟩
    · obtain rfl := l.name_inj he he' hname
      obtain rfl := Option.some.inj (he.symm.trans he')
      exact .inl hmem
    · cases j with
      | zero => cases hq
      | succ j =>
        have hq' : l.pages[j]? = some q := hq
        unfold Listing.pages at hq'
        rw [List.getElem?_map, Option.map_eq_some_iff] at hq'
        obtain ⟨e'', he'', rfl⟩ := hq'
        obtain rfl := l.name_inj he he'' hname
        obtain rfl := Option.some.inj (he.symm.trans he'')
        rw [hq] at hmem
        exact .inr ⟨e', he', hmem⟩
  · rintro (hmem | ⟨e', he', hmem⟩)
    · exact ⟨i, e.1, hpage i e he, hmem⟩
    · refine ⟨i + 1, e'.1, hpage (i + 1) e' he', ?_⟩
      show e.1.name ∈ pushed fromTime toTime l.pages[i]? e'.1
      rw [hpage i e he]
      exact hmem

/-- The query has something to read from a page. -/
def Wanted (fromTime toTime : Time) (log : List Meas) : Prop := ∃ m, m ∈ log ∧ fromTime ≤ m.time ∧ m.time ≤ toTime

theorem Bounds.wanted_meets {hdr : Header} {log : List Meas} {fromTime toTime : Time} (h : Bounds hdr log)
    (hw : Wanted fromTime toTime log) : hdr.minTime ≤ toTime ∧ fromTime ≤ hdr.maxTime := by
  obtain ⟨m, hm, h1, h2⟩ := hw
  obtain ⟨h3, h4⟩ := h.le m hm
  exact ⟨h3.trans h2, h1.trans h4⟩

/-- A page of the times 1 to 5 is not scheduled for what was measured from 5 to 7. -/
theorem schedule_misses : ¬ ∀ (l : Listing) (fromTime toTime : Time), fromTime ≤ toTime →
    ∀ e, e ∈ l.entries → Wanted fromTime toTime e.2 → e.1.name ∈ l.scheduled fromTime toTime := by
  intro h
  let hdr : Header := {Page.initHeader 1000 with minMaxInit := true, minTime := 1, maxTime := 5}
  let log : List Meas := [.plain 0 1, .plain 0 5]
  let l : Listing := {
    entries := [(⟨hdr, "1_0.page"⟩, log)]
    bounds := by
      intro e he
      rw [List.mem_singleton.mp he]
      exact ⟨⟨.plain 0 1, by decide, rfl⟩, ⟨.plain 0 5, by decide, rfl⟩, by decide⟩
    ascending := List.pairwise_singleton _ _
    names := List.nodup_singleton _ }
  have hmem := h l 5 7 (by decide) _ (List.mem_singleton.mpr rfl) ⟨.plain 0 5, by decide, by decide, by decide⟩
  exact absurd hmem (by decide)

/-- For any pages and any query: every page with something to read is scheduled if and
only if each page that only touches the query is followed by one that begins later. -/
theorem scheduled_iff (l : Listing) (fromTime toTime : Time) (hq : fromTime ≤ toTime) :
    (∀ e, e ∈ l.entries → Wanted fromTime toTime e.2 → e.1.name ∈ l.scheduled fromTime toTime) ↔
      ∀ i e, l.entries[i]? = some e → Touches fromTime toTime e.1.header →
        ∃ e', l.entries[i + 1]? = some e' ∧ fromTime < e'.1.header.minTime := by
  constructor
  · intro h i e he ht
    have hmem := List.mem_of_getElem? he
    obtain ⟨m, hm, hmax⟩ := (l.bounds e hmem).maxMem
    have hmt : m.time = fromTime := hmax.trans ht.2.1
    have hsched := h e hmem ⟨m, hm, hmt.ge, hmt.le.trans hq⟩
    rcases (l.mem_scheduled he).mp hsched with hown | ⟨e', he', hnext⟩
    · rcases of_mem_pushed hown with ⟨-, hnot⟩ | ⟨q, hq, hname, -⟩
      · exact absurd ht hnot
      -- another page would have the name
      · cases i with
        | zero => cases hq
        | succ i =>
          have hq : l.pages[i]? = some q := hq
          unfold Listing.pages at hq
          rw [List.getElem?_map, Option.map_eq_some_iff] at hq
          obtain ⟨e'', he'', rfl⟩ := hq
          exact absurd (l.name_inj he he'' hname) (Nat.succ_ne_self i)
    · refine ⟨e', he', ?_⟩
      rcases of_mem_pushed hnext with ⟨hname, -⟩ | ⟨q, hq, -, hlt⟩
      · exact absurd (l.name_inj he he' hname) (Nat.succ_ne_self i).symm
      · exact hlt
  · intro h e hmem hw
    obtain ⟨i, he⟩ := List.getElem?_of_mem hmem
    obtain ⟨hmin, hmax⟩ := (l.bounds e hmem).wanted_meets hw
    rw [l.mem_scheduled he]
    by_cases ht : Touches fromTime toTime e.1.header
    · obtain ⟨e', he', hlt⟩ := h i e he ht
      exact .inr ⟨e', he', mem_pushed_before hlt ht.2.1.le⟩
    · exact .inl (mem_pushed_self hmin hmax hq ht)

theorem scheduled_iff_two : ∃ l : Listing, l.entries.length = 2 ∧
    ∀ e, e ∈ l.entries → Wanted 5 7 e.2 → e.1.name ∈ l.scheduled 5 7 := by
  let first : Header := {Page.initHeader 1000 with minMaxInit := true, minTime := 1, maxTime := 5}
  let second : Header := {Page.initHeader 1000 with minMaxInit := true, minTime := 6, maxTime := 9}
  let l : Listing := {
    entries := [(⟨first, "1_0.page"⟩, [.plain 0 1, .plain 0 5]), (⟨second, "1_1.page"⟩, [.plain 0 6, .plain 0 9])]
    bounds := by
      intro e he
      rcases List.mem_cons.mp he with rfl | he
      · exact ⟨⟨.plain 0 1, by decide, rfl⟩, ⟨.plain 0 5, by decide, rfl⟩, by decide⟩
      · rw [List.mem_singleton.mp he]
        exact ⟨⟨.plain 0 6, by decide, rfl⟩, ⟨.plain 0 9, by decide, rfl⟩, by decide⟩
    ascending := List.pairwise_pair.mpr (by decide)
    names := by decide }
  refine ⟨l, rfl, (scheduled_iff l 5 7 (by decide)).mpr fun i e he ht => ?_⟩
  match i, he with
  | 0, he => exact ⟨_, rfl, by decide⟩
  | 1, he =>
    obtain rfl := Option.some.inj he
    exact absurd ht.1 (by decide)
  | i + 2, he => cases he

end Nkvdb.Storage
