import Nkvdb.PageManager
import Nkvdb.Page.Capacity

/-! Closing a storage and opening it (`Storage::Close`, `Storage::Open`).

`Open` finds the page to go on with by the greatest times in the headers alone. -/
namespace Nkvdb.Storage
variable {ν : Type}

/-- One turn of the loop of `getOldesPage`: `maxTime`, and `maxTimePage` where it is set. -/
def oldesNext (best : Time × Option ν) (page : ν × Header) : Time × Option ν :=
  if best.1 < page.2.maxTime ∨ page.2.maxTime = 0 then (page.2.maxTime, some page.1) else best

/-- `PageManager::getOldesPage` of named pages, in the order they are listed; it throws where
none is found. -/
def getOldesPage (pages : List (ν × Header)) : Option ν :=
  match pages with
  | [page] => some page.1
  | pages => (pages.foldl oldesNext (0, none)).2

/-! ### The page found -/

variable {listing older rest : List (ν × Header)} {cur page : ν × Header}

theorem oldesNext_name (best : Time × Option ν) (page : ν × Header) :
    (oldesNext best page).2 = best.2 ∨ (oldesNext best page).2 = some page.1 := by
  unfold oldesNext
  split
  · exact .inr rfl
  · exact .inl rfl

/-- The page found is the one of before, or one of those that follow. -/
theorem foldl_oldes_name (pages : List (ν × Header)) (best : Time × Option ν) :
    (pages.foldl oldesNext best).2 = best.2 ∨ ∃ page, page ∈ pages ∧ (pages.foldl oldesNext best).2 = some page.1 := by
  induction pages generalizing best with
  | nil => exact .inl rfl
  | cons page pages ih =>
    rcases ih (oldesNext best page) with h | ⟨q, hq, h⟩
    · rcases oldesNext_name best page with hn | hn
      · exact .inl (h.trans hn)
      · exact .inr ⟨page, List.mem_cons_self, h.trans hn⟩
    · exact .inr ⟨q, List.mem_cons_of_mem _ hq, h⟩

/-- Pages with times below a bound leave `maxTime` below it. -/
theorem foldl_oldes_lt {pages : List (ν × Header)} {best : Time × Option ν} {t : Time} (hb : best.1 < t)
    (h : ∀ page, page ∈ pages → page.2.maxTime < t) : (pages.foldl oldesNext best).1 < t := by
  induction pages generalizing best with
  | nil => exact hb
  | cons page pages ih =>
    obtain ⟨hpage, hpages⟩ := List.forall_mem_cons.mp h
    refine ih ?_ hpages
    unfold oldesNext
    split
    · exact hpage
    · exact hb

/-- Older pages, none of them at time 0, change nothing. -/
theorem foldl_oldes_keep {pages : List (ν × Header)} {best : Time × Option ν}
    (h : ∀ page, page ∈ pages → 0 < page.2.maxTime ∧ page.2.maxTime < best.1) :
    pages.foldl oldesNext best = best := by
  induction pages with
  | nil => rfl
  | cons page pages ih =>
    obtain ⟨hpage, hpages⟩ := List.forall_mem_cons.mp h
    have hskip : oldesNext best page = best :=
      if_neg fun ht => ht.elim (fun hlt => lt_asymm hlt hpage.2) fun h0 => hpage.1.ne' h0
    rw [List.foldl_cons, hskip]
    exact ih hpages

theorem getOldesPage_eq (a b : ν × Header) (pages : List (ν × Header)) :
    getOldesPage (a :: b :: pages) = ((a :: b :: pages).foldl oldesNext (0, none)).2 := rfl

/-- The first page is always taken. -/
theorem oldesNext_first (page : ν × Header) : oldesNext (0, none) page = (page.2.maxTime, some page.1) := by
  refine if_pos ?_
  rcases eq_or_ne page.2.maxTime 0 with h | h
  · exact .inr h
  · exact .inl (Fin.pos_of_ne_zero h)

/-- The page with the greatest time is found, where no page is at time 0. -/
theorem getOldesPage_newest (hlist : listing.Perm (older ++ [cur]))
    (h : ∀ page, page ∈ older → 0 < page.2.maxTime ∧ page.2.maxTime < cur.2.maxTime) :
    getOldesPage listing = some cur.1 := by
  obtain ⟨a, b, rfl⟩ := List.append_of_mem (hlist.mem_iff.mpr (List.mem_append_right _ List.mem_cons_self))
  have hperm : (a ++ b).Perm older := by
    have hcons := (List.perm_middle.symm.trans hlist).trans (List.perm_append_singleton cur older)
    exact hcons.cons_inv
  have hold : ∀ page, page ∈ a ++ b → 0 < page.2.maxTime ∧ page.2.maxTime < cur.2.maxTime :=
    fun page hp => h page (hperm.mem_iff.mp hp)
  by_cases hone : a ++ b = []
  · obtain ⟨rfl, rfl⟩ := List.append_eq_nil_iff.mp hone
    rfl
  -- the current page is after time 0, as another page is
  have hpos : 0 < cur.2.maxTime := by
    obtain ⟨page, hp⟩ := List.exists_mem_of_ne_nil _ hone
    exact (hold page hp).1.trans (hold page hp).2
  have hfold : ((a ++ cur :: b).foldl oldesNext (0, none)).2 = some cur.1 := by
    have hlt : (a.foldl oldesNext (0, none)).1 < cur.2.maxTime :=
      foldl_oldes_lt hpos fun page hp => (hold page (List.mem_append_left _ hp)).2
    have htake : oldesNext (a.foldl oldesNext (0, none)) cur = (cur.2.maxTime, some cur.1) := if_pos (.inl hlt)
    rw [List.foldl_append, List.foldl_cons, htake,
      foldl_oldes_keep fun page hp => hold page (List.mem_append_right _ hp)]
  cases a with
  | nil =>
    cases b with
    | nil => exact absurd rfl hone
    | cons q b => exact hfold
  | cons p a =>
    cases a with
    | nil => exact hfold
    | cons q a => exact hfold

/-- A page listed after another one that it is followed by none of is not found. -/
theorem getOldesPage_ne {a b : ν × Header} {pages : List (ν × Header)}
    (hb : (oldesNext (oldesNext (0, none) a) b).2 ≠ some cur.1)
    (h : ∀ page, page ∈ pages → page.1 ≠ cur.1) : getOldesPage (a :: b :: pages) ≠ some cur.1 := by
  rw [getOldesPage_eq, List.foldl_cons, List.foldl_cons]
  rcases foldl_oldes_name pages (oldesNext (oldesNext (0, none) a) b) with hn | ⟨page, hp, hn⟩
  · rw [hn]
    exact hb
  · rw [hn]
    exact fun he => h page hp (Option.some.inj he)

/-- Whatever the order of the listing, the current page is found if and only if every older
page has a greatest time above 0 and below its own. -/
theorem getOldesPage_iff (hname : ∀ page, page ∈ older → page.1 ≠ cur.1) :
    (∀ listing, listing.Perm (older ++ [cur]) → getOldesPage listing = some cur.1) ↔
      ∀ page, page ∈ older → 0 < page.2.maxTime ∧ page.2.maxTime < cur.2.maxTime := by
  refine ⟨fun h page hp => ?_, fun h listing hlist => getOldesPage_newest hlist h⟩
  obtain ⟨a, b, rfl⟩ := List.append_of_mem hp
  have hperm : (page :: (a ++ b)).Perm (a ++ page :: b) := List.perm_middle.symm
  have hrest : ∀ q, q ∈ a ++ b → q.1 ≠ cur.1 := fun q hq => hname q (hperm.mem_iff.mp (List.mem_cons_of_mem _ hq))
  have hcur : (cur :: page :: (a ++ b)).Perm (a ++ page :: b ++ [cur]) :=
    (hperm.cons cur).trans (List.perm_append_singleton _ _).symm
  by_contra hbad
  by_cases hafter : cur.2.maxTime < page.2.maxTime ∨ page.2.maxTime = 0
  · -- listed right after the current page it takes its place
    refine getOldesPage_ne ?_ hrest (h _ hcur)
    rw [oldesNext_first, oldesNext, if_pos hafter]
    exact fun he => hname page hp (Option.some.inj he)
  · -- its time is that of the current page, which then does not take its place
    rw [not_or, not_lt] at hafter
    have hbefore : ¬ (page.2.maxTime < cur.2.maxTime ∨ cur.2.maxTime = 0) := by
      have hpos := Fin.pos_of_ne_zero hafter.2
      rintro (hlt | h0)
      · exact hbad ⟨hpos, hlt⟩
      · rw [h0] at hafter
        exact hafter.2 (le_antisymm hafter.1 (Fin.zero_le _))
    refine getOldesPage_ne ?_ hrest (h _ ((List.Perm.swap cur page _).trans hcur))
    rw [oldesNext_first, oldesNext, if_neg hbefore]
    exact fun he => hname page hp (Option.some.inj he)

/-! ### Closing -/

/-- The headers of page files, named in the order they were made. -/
def headers (files : List PageFile) : List (Nat × Header) := files.mapIdx fun i f => (i, f.header)

theorem headers_append (files : List PageFile) (f : PageFile) :
    headers (files ++ [f]) = headers files ++ [(files.length, f.header)] := List.mapIdx_concat

theorem mem_headers {files : List PageFile} {page : Nat × Header} (h : page ∈ headers files) :
    page.1 < files.length ∧ ∃ f, f ∈ files ∧ f.header = page.2 := by
  obtain ⟨i, hi, rfl⟩ := List.mem_mapIdx.mp h
  exact ⟨hi, _, List.getElem_mem hi, rfl⟩

theorem exists_mem_headers {files : List PageFile} {f : PageFile} (h : f ∈ files) :
    ∃ i, (i, f.header) ∈ headers files := by
  obtain ⟨i, hi, rfl⟩ := List.getElem_of_mem h
  exact ⟨i, List.mem_mapIdx.mpr ⟨i, hi, rfl⟩⟩

/-- Two measurements of one time, each on a page of its own. -/
theorem current_lost : ¬ ∀ (S : TimeSort) (fuel : Nat) (pageSize : U64) (writes : List PageManager.Write)
    (log : List Meas) (pm₀ pm pm' : PageManager), (PageManager.start pageSize).createNewPage = .ok pm₀ →
    PageManager.runAll S fuel writes pm₀ = .ok (log, pm) → pm.closeCurrentPage = .ok pm' →
    ∀ listing, listing.Perm (headers pm'.files) → getOldesPage listing = some pm.files.length := by
  intro h
  let pm₀ : PageManager := {PageManager.start (Page.calcSize 1) with curpage := some (Page.create (Page.calcSize 1))}
  have hrun : ((PageManager.runAll TimeSort.insertion 3 [.call [.plain 0 5, .plain 1 5]] pm₀).toOption.bind fun x =>
      x.2.closeCurrentPage.toOption.map fun pm' => (x.2, pm')).any (fun y =>
        decide (getOldesPage (headers y.2.files) ≠ some y.1.files.length)) = true := by
    decide +kernel
  obtain ⟨⟨pm, pm'⟩, hy, hbad⟩ := (Option.any_eq_true _ _).mp hrun
  obtain ⟨⟨log, pm₁⟩, hok, hsome⟩ := Option.bind_eq_some_iff.mp hy
  obtain ⟨pm₂, hclose, heq⟩ := Option.map_eq_some_iff.mp hsome
  obtain ⟨rfl, rfl⟩ := Prod.mk.inj heq
  exact of_decide_eq_true hbad (h _ 3 _ _ log pm₀ _ _ rfl (toOption_eq_some.mp hok) (toOption_eq_some.mp hclose) _
    (.refl _))

/-- After any run of writes and a close: whatever order the page files are listed in, the page
found is the one that was current, if and only if every page before it has a greatest time
above 0 and below its own. -/
theorem current_reopened_iff (S : TimeSort) (fuel : Nat) (pageSize : U64) (writes : List PageManager.Write)
    (log : List Meas) (pm₀ pm pm' : PageManager) (hstart : (PageManager.start pageSize).createNewPage = .ok pm₀)
    (hrun : PageManager.runAll S fuel writes pm₀ = .ok (log, pm)) (hclose : pm.closeCurrentPage = .ok pm') :
    ∃ p, pm.curpage = some p ∧
      ((∀ listing, listing.Perm (headers pm'.files) → getOldesPage listing = some pm.files.length) ↔
        ∀ f, f ∈ pm.files → 0 < f.header.maxTime ∧ f.header.maxTime < p.header.maxTime) := by
  obtain ⟨p, hp, -⟩ := PageManager.Windowed.kept.runAll (PageManager.Windowed.start hstart) hrun
  refine ⟨p, hp, ?_⟩
  unfold PageManager.closeCurrentPage at hclose
  rw [hp] at hclose
  obtain ⟨f, hf, hclose⟩ := bind_ok hclose
  obtain rfl := Except.ok.inj hclose
  obtain ⟨ix, -, rfl⟩ := Page.close_iff.mp hf
  have hname : ∀ page, page ∈ headers pm.files → page.1 ≠ pm.files.length := fun page hpage => (mem_headers hpage).1.ne
  show (∀ listing : List (Nat × Header), listing.Perm (headers (pm.files ++ [_])) → _) ↔ _
  rw [headers_append]
  refine (getOldesPage_iff ?_).trans ?_
  · exact hname
  constructor
  · intro h f hf
    obtain ⟨i, hi⟩ := exists_mem_headers hf
    exact h _ hi
  · intro h page hpage
    obtain ⟨-, f, hf, heq⟩ := mem_headers hpage
    rw [← heq]
    exact h f hf

/-- Two pages with later data on the second. -/
theorem current_reopened_iff_two : ∃ pm₀ log pm pm',
    (PageManager.start (Page.calcSize 1)).createNewPage = .ok pm₀ ∧
    PageManager.runAll TimeSort.insertion 3 [.call [.plain 0 5, .plain 1 6]] pm₀ = .ok (log, pm) ∧
    pm.closeCurrentPage = .ok pm' ∧ pm.files.length = 1 ∧
    ∀ listing, listing.Perm (headers pm'.files) → getOldesPage listing = some 1 := by
  let pm₀ : PageManager := {PageManager.start (Page.calcSize 1) with curpage := some (Page.create (Page.calcSize 1))}
  obtain ⟨⟨log, pm⟩, hok, hx⟩ := exists_ok
    (x := PageManager.runAll TimeSort.insertion 3 [.call [.plain 0 5, .plain 1 6]] pm₀)
    (p := fun x : List Meas × PageManager => x.2.closeCurrentPage.toOption.isSome &&
      (decide (x.2.files.length = 1) && x.2.curpage.any fun p : Page =>
        decide (∀ f, f ∈ x.2.files → 0 < f.header.maxTime ∧ f.header.maxTime < p.header.maxTime))) (by decide +kernel)
  obtain ⟨hclose, hx⟩ := Bool.and_eq_true_iff.mp hx
  obtain ⟨pm', hclose⟩ := Option.isSome_iff_exists.mp hclose
  have hclose := toOption_eq_some.mp hclose
  obtain ⟨hlen, hx⟩ := Bool.and_eq_true_iff.mp hx
  have hlen := of_decide_eq_true hlen
  obtain ⟨q, hq, hbefore⟩ := (Option.any_eq_true _ _).mp hx
  obtain ⟨p, hp, hiff⟩ := current_reopened_iff TimeSort.insertion 3 (Page.calcSize 1) _ log pm₀ pm pm' rfl hok hclose
  obtain rfl := Option.some.inj (hp.symm.trans hq)
  have hfound := hiff.mpr (of_decide_eq_true hbefore)
  rw [hlen] at hfound
  exact ⟨pm₀, log, pm, pm', rfl, hok, hclose, hlen, hfound⟩

end Nkvdb.Storage
