import Nkvdb.Storage.Directory
import Nkvdb.Storage.Names
import Nkvdb.Storage.Reached

/-! A storage in its directory.

Here pages have names: `m_page_list` has them, the directory is listed by them, and a new page is put
under one that no file has. Forgetting the names leaves a `PageManager`; what the names are good for is
that no page file is ever written over and that each is listed once. -/
namespace Nkvdb

/-- A `PageManager` and the files in its `m_path`. -/
structure Located where
  defaultPageSize : U64
  curpage : Option (String × Page)
  /-- `m_page_list`. -/
  pageList : List String
  /-- The page files that are not open, each with its index and window file. -/
  disk : List (String × PageFile)

namespace Located
open Storage

/-- The page files by their names, that of the current page as it is mapped. -/
def bundles (d : Located) : List (String × PageFile) :=
  d.disk ++ (d.curpage.map fun c => (c.1, onDisk c.2)).toList

/-- The names in the directory. -/
def entries (d : Located) : List String :=
  d.bundles.flatMap fun b =>
    b.1 :: indexFileName b.1 :: (if b.2.windowFile.isSome then [writewindowFileName b.1] else [])

/-- `utils::ls`. -/
def ls (ext : String) (d : Located) : List String := d.entries.filter fun n => extension n = ext

/-- The page file of a name. -/
def file (fname : String) (d : Located) : Option PageFile := (d.bundles.find? fun b => b.1 = fname).map Prod.snd

/-- `PageManager::start` on an empty directory. -/
def start (pageSize : U64) : Located := ⟨pageSize, none, [], []⟩

def getCurPage (d : Located) : Except Fault (String × Page) :=
  match d.curpage with
  | some c => .ok c
  | none => .error .nullReader

def getNewPageUniqueName (clock : Nat → Int) (d : Located) : Except Fault String :=
  (freeName clock d.entries).elim (.error .outOfFuel) .ok

def closeCurrentPage (d : Located) : Except Fault Located :=
  match d.curpage with
  | none => .ok d
  | some c => do
    let f ← c.2.close
    .ok {d with curpage := none, disk := d.disk ++ [(c.1, f)]}

/-- `PageManager::createNewPage`. A page file of the name there is would be truncated. -/
def createNewPage (clock : Nat → Int) (d : Located) : Except Fault Located := do
  let wwindow := d.curpage.map fun c => c.2.writeWindow
  let d ← d.closeCurrentPage
  let pagePath ← d.getNewPageUniqueName clock
  .ok {d with
    curpage := some (pagePath, {Page.create d.defaultPageSize with writeWindow := wwindow.getD []})
    pageList := d.pageList ++ [pagePath]
    disk := d.disk.filter fun b => b.1 ≠ pagePath}

def rollOver (clock : Nat → Int) (ares : AppendResult) (toWrite : Nat) (d : Located) : Except Fault Located :=
  if ares.writed ≠ toWrite then d.createNewPage clock else .ok d

/-- The loop of `AsyncWriter::call`. -/
def writeLoop : Nat → (Nat → Nat → Int) → List Meas → Located → Except Fault (List Meas × Located)
  | 0, _, _, _ => .error .outOfFuel
  | fuel + 1, clock, output, d =>
    if output = [] then .ok ([], d)
    else do
      let c ← d.getCurPage
      let (ares, p) ← c.2.appendArray output
      let d ← rollOver (clock 0) ares output.length {d with curpage := some (c.1, p)}
      let (log, d) ← writeLoop fuel (fun i => clock (i + 1)) (output.drop ares.writed) d
      return (output.take ares.writed ++ log, d)

/-- `AsyncWriter::call`. -/
def call (S : TimeSort) (fuel : Nat) (clock : Nat → Nat → Int) (data : List Meas) (d : Located) :
    Except Fault (List Meas × Located) := do
  let (log, d) ← d.writeLoop fuel clock (S.sort data)
  let c ← d.getCurPage
  let p ← c.2.flushWriteWindow.flushIndex
  return (log, {d with curpage := some (c.1, p)})

/-- `Storage::Open` on a directory with no page open, that is listed in some order. -/
def openPages (listing : List String) (d : Located) : Except Fault Located := do
  let pages ← orFault .pageNotFound (listing.mapM fun n => (d.file n).map fun f => (n, f))
  let maxTimePage ← orFault .pageNotFound (getOldesPage (pages.map fun x => (x.1, x.2.header)))
  let f ← orFault .pageNotFound (d.file maxTimePage)
  let p ← Page.openFile f false
  return ⟨0, some (maxTimePage, p), listing, pages.filter fun b => b.1 ≠ maxTimePage⟩

/-- What is left without the names. -/
def forget (d : Located) : PageManager := ⟨d.defaultPageSize, d.curpage.map Prod.snd, d.disk.map Prod.snd⟩

/-- What `Create`, batches, and `Close` and `Open` lead to. `Create` empties the directory first. -/
inductive Run (S : TimeSort) : Located → Prop
  | create {pageSize : U64} {clock : Nat → Int} {d : Located} : (start pageSize).createNewPage clock = .ok d → Run S d
  | call {fuel : Nat} {clock : Nat → Nat → Int} {data new : List Meas} {d d' : Located} : Run S d →
      d.call S fuel clock data = .ok (new, d') → Run S d'
  | reopen {d closed d' : Located} {listing : List String} : Run S d → d.closeCurrentPage = .ok closed →
      listing.Perm (closed.ls ".page") → closed.openPages listing = .ok d' → Run S d'

/-! ### Names and files -/

/-- The page files have names of page files, each its own, and these are the ones in the list. -/
structure Registered (d : Located) : Prop where
  named : ∀ n, n ∈ d.bundles.map Prod.fst → IsPageName n
  apart : (d.bundles.map Prod.fst).Nodup
  listed : d.pageList.Perm (d.bundles.map Prod.fst)

section
variable {d d' closed : Located} {clock : Nat → Int} {c : String × Page} {p : Page} {S : TimeSort}

theorem bundles_some (hc : d.curpage = some c) : d.bundles = d.disk ++ [(c.1, onDisk c.2)] := by
  unfold bundles
  rw [hc]
  rfl

theorem bundles_none (hc : d.curpage = none) : d.bundles = d.disk := by
  unfold bundles
  rw [hc]
  exact List.append_nil _

theorem pageFiles_forget (d : Located) : pageFiles d.forget = d.bundles.map Prod.snd := by
  unfold pageFiles bundles forget
  cases d.curpage <;> simp

theorem mem_entries {n : String} (h : n ∈ d.bundles.map Prod.fst) : n ∈ d.entries := by
  obtain ⟨b, hb, rfl⟩ := List.mem_map.mp h
  exact List.mem_flatMap.mpr ⟨b, hb, List.mem_cons_self⟩

/-- The directory lists the page files. -/
theorem ls_page (h : ∀ n, n ∈ d.bundles.map Prod.fst → IsPageName n) : d.ls ".page" = d.bundles.map Prod.fst := by
  have hone : ∀ b, b ∈ d.bundles → (b.1 :: indexFileName b.1 ::
      (if b.2.windowFile.isSome then [writewindowFileName b.1] else [])).filter (fun n => extension n = ".page") =
        [b.1] := by
    intro b hb
    obtain ⟨hpage, hindex, hwindow⟩ := (h b.1 (List.mem_map_of_mem hb)).extension
    rw [List.filter_cons, if_pos (decide_eq_true hpage), List.filter_cons, if_neg (by simpa using hindex)]
    split
    · rw [List.filter_cons, if_neg (by simpa using hwindow)]
      rfl
    · rfl
  unfold ls entries
  rw [List.filter_flatMap, List.flatMap_congr hone, List.map_eq_flatMap]

/-- A name leads to its file. -/
theorem file_of_mem (h : (d.bundles.map Prod.fst).Nodup) {n : String} {f : PageFile} (hm : (n, f) ∈ d.bundles) :
    d.file n = some f := by
  obtain ⟨a, b, hab⟩ := List.append_of_mem hm
  have hnot : ∀ x, x ∈ a → ¬ decide (x.1 = n) = true := by
    intro x hx he
    rw [hab, List.map_append, List.map_cons] at h
    refine (List.nodup_append.mp h).2.2 x.1 (List.mem_map_of_mem hx) n List.mem_cons_self (of_decide_eq_true he)
  unfold file
  rw [hab, List.find?_append, List.find?_eq_none.mpr hnot]
  simp

/-! ### Steps -/

theorem closeCurrentPage_iff (hc : d.curpage = some c) : d.closeCurrentPage = .ok d' ↔
    ∃ f, c.2.close = .ok f ∧ d' = {d with curpage := none, disk := d.disk ++ [(c.1, f)]} := by
  unfold closeCurrentPage
  rw [hc]
  constructor
  · intro h
    obtain ⟨f, hf, h⟩ := bind_ok h
    exact ⟨f, hf, (Except.ok.inj h).symm⟩
  · rintro ⟨f, hf, rfl⟩
    simp only [hf, bind, Except.bind]

theorem closeCurrentPage_none (hc : d.curpage = none) : d.closeCurrentPage = .ok d := by
  unfold closeCurrentPage
  rw [hc]

/-- A page is closed under the name it has. -/
theorem closeCurrentPage_names (h : d.closeCurrentPage = .ok d') : d'.curpage = none ∧
    d'.pageList = d.pageList ∧ d'.defaultPageSize = d.defaultPageSize ∧ d.disk <+: d'.disk ∧
    d'.bundles.map Prod.fst = d.bundles.map Prod.fst ∧ d.forget.closeCurrentPage = .ok d'.forget := by
  cases hc : d.curpage with
  | none =>
    rw [closeCurrentPage_none hc] at h
    obtain rfl := Except.ok.inj h
    refine ⟨hc, rfl, rfl, List.prefix_rfl, rfl, ?_⟩
    simp only [PageManager.closeCurrentPage, forget, hc, Option.map_none]
  | some c =>
    obtain ⟨f, hf, rfl⟩ := (closeCurrentPage_iff hc).mp h
    refine ⟨rfl, rfl, rfl, List.prefix_append .., ?_, ?_⟩
    · rw [bundles_some hc, bundles_none rfl, List.map_append, List.map_append]
      rfl
    · simp only [PageManager.closeCurrentPage, forget, hc, Option.map_some, hf, bind, Except.bind, Option.map_none,
        List.map_append, List.map_cons, List.map_nil]

theorem getNewPageUniqueName_ok {name : String} (h : d.getNewPageUniqueName clock = .ok name) :
    IsPageName name ∧ name ∉ d.entries := by
  unfold getNewPageUniqueName at h
  cases hn : freeName clock d.entries with
  | none => rw [hn] at h; cases h
  | some n =>
    rw [hn] at h
    obtain rfl := Except.ok.inj h
    exact freeName_ok hn

theorem getNewPageUniqueName_finds (clock : Nat → Int) (hlt : d.entries.length < 2 ^ 32) :
    ∃ name, d.getNewPageUniqueName clock = .ok name := by
  obtain ⟨name, hname⟩ := freeName_finds clock hlt
  refine ⟨name, ?_⟩
  unfold getNewPageUniqueName
  rw [hname]
  rfl

/-- A new page joins the others, under a name that none of them has. -/
theorem createNewPage_spec (h : d.createNewPage clock = .ok d') : ∃ closed name, d.closeCurrentPage = .ok closed ∧
    IsPageName name ∧ name ∉ closed.entries ∧ d' = {closed with
      curpage := some (name, {Page.create d.defaultPageSize with
        writeWindow := (d.curpage.map fun c => c.2.writeWindow).getD []})
      pageList := d.pageList ++ [name]} := by
  obtain ⟨closed, hc, h⟩ := bind_ok h
  obtain ⟨name, hname, h⟩ := bind_ok h
  obtain rfl := Except.ok.inj h
  obtain ⟨hpage, hfree⟩ := getNewPageUniqueName_ok hname
  obtain ⟨hnone, hlist, hsize, -, -, -⟩ := closeCurrentPage_names hc
  refine ⟨closed, name, hc, hpage, hfree, ?_⟩
  have hkeep : closed.disk.filter (fun b => b.1 ≠ name) = closed.disk := by
    refine List.filter_eq_self.mpr fun b hb => decide_eq_true ?_
    rintro rfl
    refine hfree (mem_entries ?_)
    rw [bundles_none hnone]
    exact List.mem_map_of_mem hb
  rw [hkeep, hlist, hsize]

theorem createNewPage_forget (hc : d.closeCurrentPage = .ok closed) (name : String) :
    d.forget.createNewPage = .ok (forget {closed with
      curpage := some (name, {Page.create d.defaultPageSize with
        writeWindow := (d.curpage.map fun c => c.2.writeWindow).getD []})
      pageList := d.pageList ++ [name]}) := by
  cases hcur : d.curpage with
  | none =>
    rw [closeCurrentPage_none hcur] at hc
    obtain rfl := Except.ok.inj hc
    simp only [PageManager.createNewPage, forget, hcur, Option.map_none, Option.map_some]
    rfl
  | some c =>
    obtain ⟨f, hf, rfl⟩ := (closeCurrentPage_iff hcur).mp hc
    have hp : d.forget.curpage = some c.2 := by
      show d.curpage.map Prod.snd = some c.2
      rw [hcur]
      rfl
    refine (PageManager.createNewPage_iff hp).mpr ⟨f, hf, ?_⟩
    simp only [forget, Option.map_some, Option.getD_some, List.map_append, List.map_cons, List.map_nil]

/-- What a step leaves as it was: closed pages, and the names in the list. -/
structure Extends (d d' : Located) : Prop where
  disk : d.disk <+: d'.disk
  pageList : d.pageList <+: d'.pageList

theorem Extends.trans {d'' : Located} (h : Extends d d') (h' : Extends d' d'') : Extends d d'' :=
  ⟨h.disk.trans h'.disk, h.pageList.trans h'.pageList⟩

theorem Registered.createNewPage (h : Registered d) (hc : d.createNewPage clock = .ok d') :
    Registered d' ∧ Extends d d' ∧ d.forget.createNewPage = .ok d'.forget := by
  obtain ⟨closed, name, hclose, hpage, hfree, rfl⟩ := createNewPage_spec hc
  obtain ⟨hnone, hlist, -, hdisk, hnames, -⟩ := closeCurrentPage_names hclose
  have hnew : ∀ p : Page, (bundles {closed with curpage := some (name, p), pageList := d.pageList ++ [name]}).map
      Prod.fst = d.bundles.map Prod.fst ++ [name] := by
    intro p
    rw [bundles_some rfl, List.map_append, ← hnames, bundles_none hnone]
    rfl
  have hnot : name ∉ d.bundles.map Prod.fst := fun hm => hfree (mem_entries (hnames ▸ hm))
  refine ⟨⟨?_, ?_, ?_⟩, ⟨hdisk, List.prefix_append ..⟩, createNewPage_forget hclose name⟩
  · rw [hnew]
    intro n hn
    rcases List.mem_append.mp hn with hn | hn
    · exact h.named n hn
    · rw [List.mem_singleton.mp hn]
      exact hpage
  · rw [hnew]
    exact List.nodup_append.mpr ⟨h.apart, List.nodup_singleton name, fun a ha b hb he => hnot (by
      rw [List.mem_singleton] at hb
      rwa [← hb, ← he])⟩
  · rw [hnew]
    exact h.listed.append_right _

/-- Another content of the current page changes no name. -/
theorem Registered.setPage (h : Registered d) (hc : d.curpage = some c) (p : Page) :
    Registered {d with curpage := some (c.1, p)} ∧ Extends d {d with curpage := some (c.1, p)} := by
  have hnames : (bundles {d with curpage := some (c.1, p)}).map Prod.fst = d.bundles.map Prod.fst := by
    rw [bundles_some hc, bundles_some rfl, List.map_append, List.map_append]
    rfl
  exact ⟨⟨hnames ▸ h.named, hnames ▸ h.apart, hnames ▸ h.listed⟩, List.prefix_rfl, List.prefix_rfl⟩

theorem getCurPage_iff : d.getCurPage = .ok c ↔ d.curpage = some c := by
  unfold getCurPage
  cases d.curpage with
  | none =>
    constructor
    · intro h
      cases h
    · intro h
      cases h
  | some x => exact ⟨fun h => congrArg some (Except.ok.inj h), fun h => congrArg Except.ok (Option.some.inj h)⟩

theorem forget_cur (hc : d.curpage = some c) : d.forget.getCurPage = .ok c.2 := by
  refine PageManager.getCurPage_iff.mpr ?_
  show d.curpage.map Prod.snd = some c.2
  rw [hc]
  rfl

/-- The loop writes what it writes without the names. -/
theorem Registered.writeLoop {clock : Nat → Nat → Int} {fuel : Nat} {output log : List Meas} (h : Registered d)
    (hw : d.writeLoop fuel clock output = .ok (log, d')) :
    Registered d' ∧ Extends d d' ∧ AsyncWriter.writeLoop fuel output d.forget = .ok (log, d'.forget) := by
  induction fuel generalizing clock output log d with
  | zero => cases hw
  | succ fuel ih =>
    unfold Located.writeLoop at hw
    unfold AsyncWriter.writeLoop
    by_cases hne : output = []
    · rw [if_pos hne] at hw ⊢
      obtain ⟨rfl, rfl⟩ := Prod.mk.inj (Except.ok.inj hw)
      exact ⟨h, ⟨List.prefix_rfl, List.prefix_rfl⟩, rfl⟩
    rw [if_neg hne] at hw ⊢
    obtain ⟨c, hc, hw⟩ := bind_ok hw
    obtain ⟨⟨ares, p⟩, ha, hw⟩ := bind_ok hw
    obtain ⟨d₁, hroll, hw⟩ := bind_ok hw
    obtain ⟨⟨rest, d₂⟩, hloop, hw⟩ := bind_ok hw
    obtain ⟨rfl, rfl⟩ := Prod.mk.inj (Except.ok.inj hw)
    rw [getCurPage_iff] at hc
    obtain ⟨hset, hext⟩ := h.setPage hc p
    have hforget : forget {d with curpage := some (c.1, p)} = {d.forget with curpage := some p} := rfl
    obtain ⟨h₁, hext₁, hroll'⟩ : Registered d₁ ∧ Extends d d₁ ∧
        AsyncWriter.rollOver ares output.length {d.forget with curpage := some p} = .ok d₁.forget := by
      unfold Located.rollOver at hroll
      unfold AsyncWriter.rollOver
      split at hroll
      · next hcut =>
        obtain ⟨h₁, hext₁, hnew⟩ := hset.createNewPage hroll
        rw [if_pos hcut, ← hforget]
        exact ⟨h₁, hext.trans hext₁, hnew⟩
      · next hcut =>
        obtain rfl := Except.ok.inj hroll
        rw [if_neg hcut]
        exact ⟨hset, hext, rfl⟩
    obtain ⟨h₂, hext₂, hloop'⟩ := ih h₁ hloop
    refine ⟨h₂, hext₁.trans hext₂, ?_⟩
    simp only [forget_cur hc, ha, hroll', hloop', bind, Except.bind]
    rfl

theorem Registered.call {clock : Nat → Nat → Int} {fuel : Nat} {data log : List Meas} (h : Registered d)
    (hcall : d.call S fuel clock data = .ok (log, d')) :
    Registered d' ∧ Extends d d' ∧ AsyncWriter.call S fuel data d.forget = .ok (log, d'.forget) := by
  obtain ⟨⟨log', d₁⟩, hloop, hcall⟩ := bind_ok hcall
  obtain ⟨c, hc, hcall⟩ := bind_ok hcall
  obtain ⟨p, hp, hcall⟩ := bind_ok hcall
  obtain ⟨rfl, rfl⟩ := Prod.mk.inj (Except.ok.inj hcall)
  rw [getCurPage_iff] at hc
  obtain ⟨h₁, hext, hloop'⟩ := h.writeLoop hloop
  obtain ⟨hset, hext'⟩ := h₁.setPage hc p
  refine ⟨hset, hext.trans hext', ?_⟩
  unfold AsyncWriter.call
  simp only [hloop', forget_cur hc, hp, bind, Except.bind]
  rfl

/-! ### Opening -/

/-- The pages that are opened are those of the directory, in the order listed. -/
theorem mapM_file {listing : List String} {pages : List (String × PageFile)}
    (h : (listing.mapM fun n => (d.file n).map fun f => (n, f)) = some pages) :
    pages.map Prod.fst = listing ∧ ∀ x, x ∈ pages → d.file x.1 = some x.2 := by
  induction listing generalizing pages with
  | nil =>
    obtain rfl : [] = pages := Option.some.inj h
    exact ⟨rfl, fun x hx => absurd hx List.not_mem_nil⟩
  | cons n listing ih =>
    rw [List.mapM_cons] at h
    obtain ⟨x, hx, h⟩ := Option.bind_eq_some_iff.mp h
    obtain ⟨rest, hrest, h⟩ := Option.bind_eq_some_iff.mp h
    obtain rfl : x :: rest = pages := Option.some.inj h
    obtain ⟨f, hf, rfl⟩ := Option.map_eq_some_iff.mp hx
    obtain ⟨hnames, hall⟩ := ih hrest
    exact ⟨congrArg (n :: ·) hnames, List.forall_mem_cons.mpr ⟨hf, hall⟩⟩

/-- A file is found by its name alone. -/
theorem perm_of_names (h : Registered d) {pages : List (String × PageFile)}
    (hnames : (pages.map Prod.fst).Perm (d.bundles.map Prod.fst)) (hfile : ∀ x, x ∈ pages → d.file x.1 = some x.2) :
    pages.Perm d.bundles := by
  have hpair : ∀ l : List (String × PageFile), (∀ x, x ∈ l → d.file x.1 = some x.2) →
      (l.map Prod.fst).map (fun n => (n, (d.file n).getD (onDisk (Page.create 0)))) = l := by
    intro l hl
    rw [List.map_map]
    refine (List.map_congr_left fun x hx => ?_).trans (List.map_id l)
    show (x.1, (d.file x.1).getD _) = x
    rw [hl x hx]
    rfl
  have hperm := hnames.map fun n => (n, (d.file n).getD (onDisk (Page.create 0)))
  rwa [hpair pages hfile, hpair d.bundles fun x hx => file_of_mem h.apart hx] at hperm

end

section Rename
variable {μ ν : Type} [DecidableEq μ] [DecidableEq ν]

omit [DecidableEq μ] [DecidableEq ν] in
theorem getOldesPage_rename (f : μ → ν) (pages : List (μ × Header)) :
    getOldesPage (pages.map fun x => (f x.1, x.2)) = (getOldesPage pages).map f := by
  have hnext : ∀ best page, oldesNext (best.1, best.2.map f) (f page.1, page.2) =
      ((oldesNext best page).1, (oldesNext best page).2.map f) := by
    intro best page
    unfold oldesNext
    split <;> rfl
  have hfold : ∀ (pages : List (μ × Header)) best,
      (pages.map fun x => (f x.1, x.2)).foldl oldesNext (best.1, best.2.map f) =
        ((pages.foldl oldesNext best).1, (pages.foldl oldesNext best).2.map f) := by
    intro pages
    induction pages with
    | nil => exact fun _ => rfl
    | cons page pages ih =>
      intro best
      rw [List.map_cons, List.foldl_cons, List.foldl_cons, hnext]
      exact ih _
  match pages with
  | [] => exact congrArg Prod.snd (hfold [] (0, none))
  | [page] => rfl
  | a :: b :: rest => exact congrArg Prod.snd (hfold (a :: b :: rest) (0, none))

/-- The page that is opened does not depend on what the pages are called. -/
theorem openPages_rename (f : μ → ν) {listing : List (μ × PageFile)}
    (hinj : ∀ x, x ∈ listing → ∀ y, y ∈ listing → f x.1 = f y.1 → x.1 = y.1) :
    Storage.openPages (listing.map fun x => (f x.1, x.2)) = Storage.openPages listing := by
  unfold Storage.openPages
  have hheaders : (listing.map fun x => (f x.1, x.2)).map (fun x => (x.1, x.2.header)) =
      (listing.map fun x => (x.1, x.2.header)).map fun x => (f x.1, x.2) := by
    rw [List.map_map, List.map_map]
    rfl
  rw [hheaders, getOldesPage_rename]
  cases ho : getOldesPage (listing.map fun x => (x.1, x.2.header)) with
  | none => rfl
  | some name =>
    -- the name found is one of those listed
    obtain ⟨y, hy, rfl⟩ : ∃ y, y ∈ listing ∧ y.1 = name := by
      have hne : listing.map (fun x => (x.1, x.2.header)) ≠ [] := by
        intro hnil
        rw [hnil] at ho
        cases ho
      obtain ⟨page, hpage, hname⟩ := getOldesPage_mem hne
      obtain ⟨x, hx, rfl⟩ := List.mem_map.mp hpage
      exact ⟨x, hx, Option.some.inj (hname.symm.trans ho)⟩
    have hsame : ∀ x, x ∈ listing → (f x.1 = f y.1 ↔ x.1 = y.1) := fun x hx =>
      ⟨hinj x hx y hy, fun h => congrArg f h⟩
    have hfind : (listing.map fun x => (f x.1, x.2)).find? (fun x => x.1 = f y.1) =
        (listing.find? fun x => x.1 = y.1).map fun x => (f x.1, x.2) := by
      rw [List.find?_map]
      refine congrArg _ (List.find?_congr fun x hx => ?_)
      exact decide_eq_decide.mpr (hsame x hx)
    have hothers : ((listing.map fun x => (f x.1, x.2)).filter fun x => x.1 ≠ f y.1).map Prod.snd =
        (listing.filter fun x => x.1 ≠ y.1).map Prod.snd := by
      rw [List.filter_map, List.map_map]
      refine congrArg _ (List.filter_congr fun x hx => ?_)
      exact decide_eq_decide.mpr (not_congr (hsame x hx))
    simp only [Option.map_some, orFault, bind, Except.bind, hfind, hothers]
    cases listing.find? fun x => x.1 = y.1 <;> rfl

end Rename

section
variable {d d' : Located} {S : TimeSort}

/-- Opening a directory opens its pages, which are then in the list. -/
theorem Registered.openPages (h : Registered d) {listing : List String} (hlist : listing.Perm (d.ls ".page"))
    (hopen : d.openPages listing = .ok d') : Registered d' ∧ ∃ pages : List (String × PageFile),
      pages.Perm d.bundles ∧ Storage.openPages pages = .ok d'.forget := by
  obtain ⟨pages, hpages, hopen⟩ := bind_ok hopen
  obtain ⟨name, hname, hopen⟩ := bind_ok hopen
  obtain ⟨f, hf, hopen⟩ := bind_ok hopen
  obtain ⟨p, hp, hopen⟩ := bind_ok hopen
  obtain rfl := Except.ok.inj hopen
  have hname := orFault_iff.mp hname
  have hf := orFault_iff.mp hf
  have hpages := orFault_iff.mp hpages
  obtain ⟨hnames, hfile⟩ := mapM_file hpages
  rw [ls_page h.named] at hlist
  have hperm := perm_of_names h (hnames ▸ hlist) hfile
  have hnodup : (pages.map Prod.fst).Nodup := hnames ▸ hlist.nodup_iff.mpr h.apart
  -- the page found, and the others
  have hmem : (name, f) ∈ d.bundles := by
    obtain ⟨b, hb, rfl⟩ := Option.map_eq_some_iff.mp hf
    have hbn : b.1 = name := by simpa using List.find?_some hb
    rw [← hbn]
    exact List.mem_of_find?_eq_some hb
  obtain ⟨a, b, hab⟩ := List.append_of_mem (hperm.mem_iff.mpr hmem)
  have hsplit : ∀ x, x ∈ a ++ b → x.1 ≠ name := by
    rw [hab, List.map_append, List.map_cons, List.nodup_middle, List.nodup_cons, ← List.map_append] at hnodup
    intro x hx he
    exact hnodup.1 (List.mem_map.mpr ⟨x, hx, he⟩)
  have hothers : pages.filter (fun x => x.1 ≠ name) = a ++ b := by
    rw [hab, List.filter_append, List.filter_cons_of_neg (by simp), ← List.filter_append]
    exact List.filter_eq_self.mpr fun x hx => decide_eq_true (hsplit x hx)
  have hfind : pages.find? (fun x => x.1 = name) = some (name, f) := by
    have hnone : a.find? (fun x => x.1 = name) = none :=
      List.find?_eq_none.mpr fun x hx he => hsplit x (List.mem_append_left _ hx) (of_decide_eq_true he)
    rw [hab, List.find?_append, hnone]
    simp
  have hbundles : (a ++ b ++ [(name, onDisk p)]).map Prod.fst = (a ++ b).map Prod.fst ++ [name] :=
    List.map_append
  have hlisted : listing.Perm ((a ++ b).map Prod.fst ++ [name]) := by
    rw [← hnames, hab, List.map_append, List.map_cons, List.map_append]
    exact List.perm_middle.trans (List.perm_append_singleton _ _).symm
  refine ⟨⟨?_, ?_, ?_⟩, pages, hperm, ?_⟩
  · rw [bundles_some rfl]
    simp only [hothers, hbundles]
    exact fun n hn => h.named n (hlist.mem_iff.mp (hlisted.mem_iff.mpr hn))
  · rw [bundles_some rfl]
    simp only [hothers, hbundles]
    rw [← hnames] at hlisted
    exact hlisted.nodup_iff.mp hnodup
  · rw [bundles_some rfl]
    simp only [hothers, hbundles]
    exact hlisted
  · exact Storage.openPages_ok.mpr ⟨name, (name, f), p, hname, hfind, hp, rfl⟩

/-- Files by numbers. -/
theorem named_idxOf {l : List (String × PageFile)} (h : (l.map Prod.fst).Nodup) :
    l.map (fun x => ((l.map Prod.fst).idxOf x.1, x.2)) = named (l.map Prod.snd) := by
  refine List.ext_getElem (by simp [named]) fun i hi hi' => ?_
  rw [List.length_map] at hi
  have hidx : (l.map Prod.fst).idxOf (l[i]).1 = i := by
    have hi' : i < (l.map Prod.fst).length := by rwa [List.length_map]
    have hget : (l.map Prod.fst)[i] = (l[i]).1 := List.getElem_map ..
    rw [← hget]
    exact h.idxOf_getElem i hi'
  simp only [named, List.getElem_map, List.getElem_mapIdx, hidx]

theorem Run.registered (h : Run S d) : Registered d ∧ Storage.Reached S d.forget := by
  induction h with
  | @create pageSize clock d h =>
    have hstart : Registered (start pageSize) := ⟨fun n hn => absurd hn List.not_mem_nil, List.nodup_nil, .nil⟩
    obtain ⟨hreg, -, hnew⟩ := hstart.createNewPage h
    exact ⟨hreg, .create hnew⟩
  | call _ hcall ih =>
    obtain ⟨hreg, -, hcall'⟩ := ih.1.call hcall
    exact ⟨hreg, ih.2.call hcall'⟩
  | @reopen d closed d' listing _ hclose hlist hopen ih =>
    obtain ⟨hnone, hpages, -, -, hnames, hclose'⟩ := closeCurrentPage_names hclose
    have hreg : Registered closed :=
      ⟨hnames ▸ ih.1.named, hnames ▸ ih.1.apart, by rw [hnames, hpages]; exact ih.1.listed⟩
    obtain ⟨hreg', pages, hperm, hopen'⟩ := hreg.openPages hlist hopen
    refine ⟨hreg', ih.2.reopen hclose' ?_
      ((openPages_rename (fun n => (closed.disk.map Prod.fst).idxOf n) ?_).trans hopen')⟩
    · rw [bundles_none hnone] at hperm
      have hapart := hreg.apart
      rw [bundles_none hnone] at hapart
      exact (hperm.map _).trans (List.Perm.of_eq (named_idxOf hapart))
    · intro x hx y hy he
      have hmem : ∀ x, x ∈ pages → x.1 ∈ closed.disk.map Prod.fst := by
        intro x hx
        rw [bundles_none hnone] at hperm
        exact List.mem_map_of_mem (hperm.mem_iff.mp hx)
      exact (List.idxOf_inj (hmem x hx)).mp he

/-! ### What queries see -/

/-- A result of `PageManager::pagesByTime`: `std::sort` fixes no order of equal times. -/
structure PagesByTime (d : Located) (pages : List PageInfo) : Prop where
  names : (pages.map PageInfo.name).Perm d.pageList
  headers : ∀ p, p ∈ pages → ∃ f, d.file p.name = some f ∧ p.header = f.header
  descending : pages.Pairwise fun a b => b.header.maxTime ≤ a.header.maxTime

/-- The pages found by their names are a directory of the manager without names. -/
theorem Registered.directory (h : Registered d) {pages : List PageInfo} (hpages : PagesByTime d pages) :
    ∃ dir : Directory d.forget, dir.pages = pages.reverse ∧ ∀ n, n ∈ dir.names → d.file n = some (dir.disk n) := by
  obtain ⟨disk, hdisk⟩ : ∃ disk : String → PageFile, disk = fun n => (d.file n).getD (onDisk (Page.create 0)) :=
    ⟨_, rfl⟩
  have hfile : ∀ p, p ∈ pages → d.file p.name = some (disk p.name) ∧ p.header = (disk p.name).header := by
    intro p hp
    obtain ⟨f, hf, hh⟩ := hpages.headers p hp
    have hget : disk p.name = f := by
      rw [hdisk]
      show (d.file p.name).getD _ = f
      rw [hf]
      rfl
    exact ⟨hget ▸ hf, hget ▸ hh⟩
  have hnamed : ∀ n, n ∈ (pages.reverse.map PageInfo.name) → d.file n = some (disk n) := by
    intro n hn
    obtain ⟨p, hp, rfl⟩ := List.mem_map.mp hn
    exact (hfile p (List.mem_reverse.mp hp)).1
  have hperm : (pages.reverse.map PageInfo.name).Perm (d.bundles.map Prod.fst) :=
    ((List.reverse_perm pages).map _).trans (hpages.names.trans h.listed)
  -- the files are those under the names
  have hpairs : ((pages.reverse.map PageInfo.name).map fun n => (n, disk n)).Perm d.bundles := by
    refine perm_of_names h ?_ fun x hx => ?_
    · rw [List.map_map]
      exact (List.Perm.of_eq (List.map_id _)).trans hperm
    · obtain ⟨n, hn, rfl⟩ := List.mem_map.mp hx
      exact hnamed n hn
  refine ⟨⟨pages.reverse.map PageInfo.name, disk, ?_, ?_, ?_⟩, ?_, hnamed⟩
  · intro n hn
    obtain ⟨now, suffix, rfl⟩ := h.named n (hperm.mem_iff.mp hn)
    exact pageName_ne_empty now suffix
  · have hfiles := hpairs.map Prod.snd
    rw [List.map_map] at hfiles
    rw [pageFiles_forget]
    exact hfiles
  · rw [List.pairwise_map, List.pairwise_reverse]
    refine hpages.descending.imp_of_mem fun ha hb hle => ?_
    rwa [(hfile _ ha).2, (hfile _ hb).2] at hle
  · unfold Directory.pages
    rw [List.map_map]
    refine (List.map_congr_left fun p hp => ?_).trans (List.map_id _)
    obtain ⟨-, hh⟩ := hfile p (List.mem_reverse.mp hp)
    show (⟨(disk p.name).header, p.name⟩ : PageInfo) = p
    rw [← hh]

/-- In every run the list has the page files of the directory, each once; without their names the pages are a
storage that is reached, and what is found by the names, in the order of `pagesByTime`, is a directory of
it. -/
theorem run_directory (h : Run S d) : d.pageList.Nodup ∧ d.pageList.Perm (d.ls ".page") ∧
    Storage.Reached S d.forget ∧ ∀ pages, PagesByTime d pages →
      ∃ dir : Directory d.forget, dir.pages = pages.reverse ∧ ∀ n, n ∈ dir.names → d.file n = some (dir.disk n) := by
  obtain ⟨hreg, hreached⟩ := h.registered
  exact ⟨hreg.listed.nodup_iff.mpr hreg.apart, ls_page hreg.named ▸ hreg.listed, hreached,
    fun pages => hreg.directory⟩

/-- Three measurements on pages of two, and a clock that stands still. -/
theorem run_directory_two : ∃ d : Located, d.pageList = ["5_0.page", "5_1.page"] ∧
    d.pageList.Perm (d.ls ".page") ∧ ∀ pages, PagesByTime d pages →
      ∃ dir : Directory d.forget, dir.pages = pages.reverse ∧ ∀ n, n ∈ dir.names → d.file n = some (dir.disk n) := by
  obtain ⟨d₀, hstart, -⟩ := exists_ok (x := (start (Page.calcSize 2)).createNewPage fun _ => 5) (p := fun _ => true)
    (by decide +kernel)
  obtain ⟨⟨new, d⟩, hcall, hlist⟩ := exists_ok
    (x := (start (Page.calcSize 2)).createNewPage (fun _ => 5) >>= fun d =>
      d.call TimeSort.insertion 4 (fun _ _ => 5) [.plain 1 5, .plain 0 9, .plain 1 7])
    (p := fun x : List Meas × Located => decide (x.2.pageList = ["5_0.page", "5_1.page"])) (by decide +kernel)
  rw [hstart] at hcall
  obtain ⟨-, hperm, -, hdir⟩ := run_directory ((Run.create hstart).call hcall)
  exact ⟨d, of_decide_eq_true hlist, hperm, hdir⟩

/-! ### Nothing is written over -/

theorem entries_le (d : Located) : d.entries.length ≤ 3 * d.bundles.length := by
  have hone : ∀ k, k ∈ d.bundles.map (fun b => (b.1 :: indexFileName b.1 ::
      (if b.2.windowFile.isSome then [writewindowFileName b.1] else [])).length) → k ≤ 3 := by
    intro k hk
    obtain ⟨b, -, rfl⟩ := List.mem_map.mp hk
    rw [List.length_cons, List.length_cons]
    split <;> simp
  have hsum := List.sum_le_card_nsmul _ 3 hone
  rw [List.length_map, smul_eq_mul, Nat.mul_comm] at hsum
  unfold entries
  rwa [List.length_flatMap]

/-- Where the numbers do not give out a new page finds a name. -/
theorem Registered.createNewPage_completes (h : Registered d) (clock : Nat → Int)
    (hlt : 3 * d.bundles.length < 2 ^ 32) {pm : PageManager} (hc : d.forget.createNewPage = .ok pm) :
    ∃ d', d.createNewPage clock = .ok d' ∧ d'.forget = pm ∧ d'.bundles.length = d.bundles.length + 1 := by
  obtain ⟨closed, hclose⟩ : ∃ closed, d.closeCurrentPage = .ok closed := by
    cases hcur : d.curpage with
    | none => exact ⟨d, closeCurrentPage_none hcur⟩
    | some c =>
      have hp : d.forget.curpage = some c.2 := by
        show d.curpage.map Prod.snd = some c.2
        rw [hcur]
        rfl
      obtain ⟨f, hf, -⟩ := (PageManager.createNewPage_iff hp).mp hc
      exact ⟨_, (closeCurrentPage_iff hcur).mpr ⟨f, hf, rfl⟩⟩
  obtain ⟨-, -, -, -, hnames, -⟩ := closeCurrentPage_names hclose
  have hlen : closed.bundles.length = d.bundles.length := by
    simpa only [List.length_map] using congrArg List.length hnames
  obtain ⟨name, hname⟩ := getNewPageUniqueName_finds (d := closed) clock
    ((entries_le closed).trans_lt (by rwa [hlen]))
  obtain ⟨d', hd'⟩ : ∃ d', d.createNewPage clock = .ok d' := by
    unfold Located.createNewPage
    simp only [hclose, hname, bind, Except.bind]
    exact ⟨_, rfl⟩
  obtain ⟨hreg, -, hnew⟩ := h.createNewPage hd'
  refine ⟨d', hd', Except.ok.inj (hnew.symm.trans hc), ?_⟩
  obtain ⟨closed', name', hclose', -, -, rfl⟩ := createNewPage_spec hd'
  obtain ⟨hnone, -, -, -, hnames', -⟩ := closeCurrentPage_names hclose'
  have hlen' : closed'.bundles.length = d.bundles.length := by
    simpa only [List.length_map] using congrArg List.length hnames'
  rw [bundles_some rfl, List.length_append, ← hlen', bundles_none hnone]
  rfl

theorem Registered.writeLoop_completes {fuel : Nat} {clock : Nat → Nat → Int} {output log : List Meas}
    (h : Registered d) (hlt : 3 * (d.bundles.length + fuel) < 2 ^ 32) {pm : PageManager}
    (hw : AsyncWriter.writeLoop fuel output d.forget = .ok (log, pm)) :
    ∃ d', d.writeLoop fuel clock output = .ok (log, d') := by
  induction fuel generalizing clock output log d pm with
  | zero => cases hw
  | succ fuel ih =>
    unfold AsyncWriter.writeLoop at hw
    unfold Located.writeLoop
    by_cases hne : output = []
    · rw [if_pos hne] at hw ⊢
      obtain ⟨rfl, -⟩ := Prod.mk.inj (Except.ok.inj hw)
      exact ⟨d, rfl⟩
    rw [if_neg hne] at hw ⊢
    obtain ⟨q, hq, hw⟩ := bind_ok hw
    obtain ⟨⟨ares, p⟩, ha, hw⟩ := bind_ok hw
    obtain ⟨pm₁, hroll, hw⟩ := bind_ok hw
    obtain ⟨⟨rest, pm₂⟩, hloop, hw⟩ := bind_ok hw
    obtain ⟨rfl, -⟩ := Prod.mk.inj (Except.ok.inj hw)
    obtain ⟨c, hc, rfl⟩ : ∃ c, d.curpage = some c ∧ c.2 = q :=
      Option.map_eq_some_iff.mp (PageManager.getCurPage_iff.mp hq)
    obtain ⟨hset, -⟩ := h.setPage hc p
    have hlen : (bundles {d with curpage := some (c.1, p)}).length = d.bundles.length := by
      rw [bundles_some hc, bundles_some rfl, List.length_append, List.length_append]
      rfl
    obtain ⟨d₁, hroll', h₁, hforget, hlen₁⟩ : ∃ d₁, rollOver (clock 0) ares output.length
        {d with curpage := some (c.1, p)} = .ok d₁ ∧ Registered d₁ ∧ d₁.forget = pm₁ ∧
        d₁.bundles.length ≤ d.bundles.length + 1 := by
      unfold AsyncWriter.rollOver at hroll
      unfold Located.rollOver
      split at hroll
      · next hcut =>
        rw [if_pos hcut]
        obtain ⟨d₁, hd₁, hforget, hlen₁⟩ := hset.createNewPage_completes (clock 0) (by rw [hlen]; omega) hroll
        exact ⟨d₁, hd₁, (hset.createNewPage hd₁).1, hforget, by rw [hlen₁, hlen]⟩
      · next hcut =>
        rw [if_neg hcut]
        exact ⟨_, rfl, hset, Except.ok.inj hroll, by rw [hlen]; exact Nat.le_succ _⟩
    rw [← hforget] at hloop
    obtain ⟨d₂, hloop'⟩ : ∃ d₂, d₁.writeLoop fuel (fun i => clock (i + 1)) (output.drop ares.writed) =
        .ok (rest, d₂) := ih h₁ (by omega) hloop
    refine ⟨d₂, ?_⟩
    simp only [getCurPage_iff.mpr hc, ha, hroll', hloop', bind, Except.bind]
    rfl

/-- A batch is written under names as it is without, as long as there are numbers for its pages; it leaves every
closed page file as it was, and adds names to the list that none has. -/
theorem call_named {fuel : Nat} {clock : Nat → Nat → Int} {data : List Meas} (h : Run S d)
    (hlt : 3 * (d.bundles.length + fuel) < 2 ^ 32) :
    (∀ new pm, AsyncWriter.call S fuel data d.forget = .ok (new, pm) ↔
      ∃ d', d.call S fuel clock data = .ok (new, d') ∧ d'.forget = pm) ∧
    ∀ new d', d.call S fuel clock data = .ok (new, d') →
      (∀ b, b ∈ d.disk → d'.file b.1 = some b.2) ∧ d.pageList <+: d'.pageList ∧ d'.pageList.Nodup := by
  obtain ⟨hreg, -⟩ := h.registered
  refine ⟨fun new pm => ⟨fun hcall => ?_, ?_⟩, fun new d' hcall => ?_⟩
  · obtain ⟨⟨log, pm₁⟩, hloop, hrest⟩ := bind_ok hcall
    obtain ⟨q, hq, hrest⟩ := bind_ok hrest
    obtain ⟨p, hp, hrest⟩ := bind_ok hrest
    obtain ⟨rfl, -⟩ := Prod.mk.inj (Except.ok.inj hrest)
    obtain ⟨d₁, hloop'⟩ : ∃ d₁, d.writeLoop fuel clock (S.sort data) = .ok (log, d₁) :=
      hreg.writeLoop_completes hlt hloop
    obtain ⟨-, -, hforget⟩ := hreg.writeLoop hloop'
    obtain ⟨-, rfl⟩ := Prod.mk.inj (Except.ok.inj (hforget.symm.trans hloop))
    obtain ⟨c, hc, rfl⟩ : ∃ c, d₁.curpage = some c ∧ c.2 = q :=
      Option.map_eq_some_iff.mp (PageManager.getCurPage_iff.mp hq)
    have hnamed : d.call S fuel clock data = .ok (log, {d₁ with curpage := some (c.1, p)}) := by
      unfold Located.call
      simp only [hloop', getCurPage_iff.mpr hc, hp, bind, Except.bind]
      rfl
    obtain ⟨-, -, hsame⟩ := hreg.call hnamed
    exact ⟨_, hnamed, (Prod.mk.inj (Except.ok.inj (hsame.symm.trans hcall))).2⟩
  · rintro ⟨d', hcall, rfl⟩
    exact (hreg.call hcall).2.2
  · obtain ⟨hreg', hext, -⟩ := hreg.call hcall
    refine ⟨fun b hb => file_of_mem hreg'.apart ?_, hext.pageList, hreg'.listed.nodup_iff.mpr hreg'.apart⟩
    exact List.mem_append_left _ (hext.disk.subset hb)

end

/-- The first batch fills the page of `Create`; a clock that goes back gives the second page its name. -/
theorem call_named_two : ∃ d d' : Located, d.pageList = ["5_0.page"] ∧ d'.pageList = ["5_0.page", "4_0.page"] ∧
    (∀ b, b ∈ d.disk → d'.file b.1 = some b.2) ∧ d.pageList <+: d'.pageList ∧
    AsyncWriter.call TimeSort.insertion 4 [.plain 1 5, .plain 0 9, .plain 1 7] d.forget =
      .ok ([.plain 1 5, .plain 1 7, .plain 0 9], d'.forget) := by
  obtain ⟨d, hstart, hlist⟩ := exists_ok (x := (start (Page.calcSize 2)).createNewPage fun _ => 5)
    (p := fun d : Located => decide (d.pageList = ["5_0.page"] ∧ 3 * (d.bundles.length + 4) < 2 ^ 32))
    (by decide +kernel)
  obtain ⟨⟨new, d'⟩, hcall, hlist'⟩ := exists_ok
    (x := (start (Page.calcSize 2)).createNewPage (fun _ => 5) >>= fun d =>
      d.call TimeSort.insertion 4 (fun _ _ => 4) [.plain 1 5, .plain 0 9, .plain 1 7])
    (p := fun x : List Meas × Located => decide (x.2.pageList = ["5_0.page", "4_0.page"] ∧
      x.1 = [.plain 1 5, .plain 1 7, .plain 0 9])) (by decide +kernel)
  rw [hstart] at hcall
  obtain ⟨hnames, hsmall⟩ := of_decide_eq_true hlist
  obtain ⟨hnames', rfl⟩ := of_decide_eq_true hlist'
  obtain ⟨hiff, hkeep⟩ := call_named (Run.create hstart) hsmall
  obtain ⟨hfiles, hprefix, -⟩ := hkeep _ d' hcall
  exact ⟨d, d', hnames, hnames', hfiles, hprefix, (hiff _ _).mpr ⟨d', hcall, rfl⟩⟩

end Located
end Nkvdb
