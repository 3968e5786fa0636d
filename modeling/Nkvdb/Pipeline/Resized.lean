import Nkvdb.Pipeline.Guarantees
import Nkvdb.Pipeline.Resize

/-! Which runs lose and invent nothing while caches are resized.

The caches are seen as those of `Nkvdb.Pipeline`, so that `Owned` says who uses them. What keeps
a run sound is then what keeps the counters of each cache in use as they are. -/
namespace Nkvdb.Resize

/-! ### The caches as those of the pipeline -/

/-- All caches made. -/
def CachePool.view (pool : CachePool) : Nkvdb.CachePool :=
  (List.range pool.made).map fun i => (pool.caches i).toCache

namespace CachePool

@[simp] theorem length_view (pool : CachePool) : pool.view.length = pool.made := by
  unfold view
  rw [List.length_map, List.length_range]

theorem getElem_view (pool : CachePool) {i : Nat} (h : i < pool.view.length) :
    pool.view[i] = (pool.caches i).toCache :=
  (List.getElem_map _).trans (congrArg (fun j => (pool.caches j).toCache) (List.getElem_range _))

theorem cacheAt_view {pool : CachePool} {i : Nat} (h : i < pool.made) :
    Nkvdb.CachePool.cacheAt pool.view i = (pool.caches i).toCache := by
  unfold Nkvdb.CachePool.cacheAt
  rw [List.getD_eq_getElem _ _ (by rw [length_view]; exact h), getElem_view]

theorem put_self (pool : CachePool) (i : Nat) (c : Cache) : (pool.put i c).caches i = c :=
  Function.update_self ..

theorem put_ne (pool : CachePool) {i j : Nat} (h : j ≠ i) (c : Cache) : (pool.put i c).caches j = pool.caches j :=
  Function.update_of_ne h ..

theorem view_put (pool : CachePool) (i : Nat) (c : Cache) : (pool.put i c).view = pool.view.set i c.toCache := by
  apply List.ext_getElem
  · rw [List.length_set, length_view, length_view]
    rfl
  · intro j h₁ h₂
    rw [getElem_view, List.getElem_set, getElem_view]
    by_cases hj : i = j
    · subst hj
      rw [if_pos rfl, put_self]
    · rw [if_neg hj, put_ne _ (Ne.symm hj)]

end CachePool

/-- Who uses which cache stays, where the caches used are as full and as much in sync as before. -/
theorem owned_of_view {pool pool' : Nkvdb.CachePool} {held cache : Option Nat} {data : List Nat} {b : Bool}
    (h : Pipeline.Owned pool held data cache b) (hlen : pool.length ≤ pool'.length)
    (hold : ∀ i, i < pool.length → (pool'.cacheAt i).sync = (pool.cacheAt i).sync ∧
      (pool'.cacheAt i).meases = (pool.cacheAt i).meases)
    (hnew : ∀ i, pool.length ≤ i → i < pool'.length → (pool'.cacheAt i).sync = false ∧ (pool'.cacheAt i).meases = []) :
    Pipeline.Owned pool' held data cache b := by
  refine ⟨h.nodup, fun i hi => ?_, fun i hi => ?_, fun i hi hfree => ?_⟩
  · have hs := h.sync i hi
    rw [(hold i (Nkvdb.CachePool.lt_of_sync hs)).1, hs]
  · obtain ⟨hlt, hs⟩ := h.cacheSync i hi
    exact ⟨hlt.trans_le hlen, (hold i hlt).1.trans hs⟩
  · by_cases hlt : i < pool.length
    · rw [(hold i hlt).1, (hold i hlt).2]
      exact h.free i hlt hfree
    · exact hnew i (not_lt.mp hlt) hi

/-! ### The invariant -/

variable {P : PageStore}

/-- The cache is in sync but not yet queued. -/
def Client.syncing : Client → Bool
  | .push _ => true
  | _ => false

def syncingOf (client : Option Client) : Bool := (client.map Client.syncing).getD false

structure Inv (s : Sys P) : Prop extends s.Sound where
  ids : ∀ i, i ∈ s.pool.ids → i < s.pool.made
  counted : ∀ i, i < s.pool.made → (s.pool.caches i).Counted
  owned : Pipeline.Owned s.pool.view s.writer.held s.data s.cache (syncingOf s.client)
  cleared : ∀ i, s.writer = .syncComplete i → (s.pool.caches i).contents = []
  noCache : ∀ p, s.client = some (.getCache p) → s.cache = none
  unmade : ∀ i, s.pool.made ≤ i → s.appended i = []

namespace Inv
variable {s : Sys P} {i : Nat}

theorem sync_held (h : Inv s) (hi : i ∈ s.writer.held.toList ++ s.data) :
    i < s.pool.made ∧ (s.pool.caches i).sync = true := by
  have hs := h.owned.sync i hi
  have hlt := Nkvdb.CachePool.lt_of_sync hs
  rw [CachePool.length_view] at hlt
  rw [CachePool.cacheAt_view hlt] at hs
  exact ⟨hlt, hs⟩

theorem sync_current (h : Inv s) (hc : s.cache = some i) :
    i < s.pool.made ∧ (s.pool.caches i).sync = syncingOf s.client := by
  obtain ⟨hlt, hs⟩ := h.owned.cacheSync i hc
  rw [CachePool.length_view] at hlt
  rw [CachePool.cacheAt_view hlt] at hs
  exact ⟨hlt, hs⟩

theorem inUse_lt (h : Inv s) (hi : i ∈ s.writer.held.toList ++ s.data ++ s.cache.toList) : i < s.pool.made := by
  cases List.mem_append.mp hi with
  | inl hi => exact (h.sync_held hi).1
  | inr hi => exact (h.sync_current (Option.mem_toList.mp hi)).1

/-- A cache that nobody uses is empty. -/
theorem free (h : Inv s) (hlt : i < s.pool.made) (hi : i ∉ s.writer.held.toList ++ s.data ++ s.cache.toList) :
    (s.pool.caches i).sync = false ∧ (s.pool.caches i).contents = [] := by
  have := h.owned.free i (by rw [CachePool.length_view]; exact hlt) hi
  rw [CachePool.cacheAt_view hlt, (h.counted i hlt).meases] at this
  exact this

theorem size_eq (h : Inv s) (hlt : i < s.pool.made) : (s.pool.caches i).contents.length = (s.appended i).length := by
  rw [Cache.length_contents]
  exact h.counts i hlt

end Inv

/-- What is cached depends on the caches in use. -/
theorem cached_congr {w : Writer} {data : List Nat} {cache : Option Nat} {f g : Nat → Cache}
    (h : ∀ i, i ∈ w.held.toList ++ data ++ cache.toList → (f i).contents = (g i).contents) :
    w.left f ++ (data.flatMap fun i => (f i).contents) ++ (cache.toList.flatMap fun i => (f i).contents) =
      w.left g ++ (data.flatMap fun i => (g i).contents) ++ (cache.toList.flatMap fun i => (g i).contents) := by
  have hleft : w.left f = w.left g := by
    cases w with
    | sort i => exact h i (List.mem_append_left _ (List.mem_append_left _ (List.mem_singleton.mpr rfl)))
    | _ => rfl
  rw [hleft, List.flatMap_congr fun i hi => h i (List.mem_append_left _ (List.mem_append_right _ hi)),
    List.flatMap_congr fun i hi => h i (List.mem_append_right _ hi)]

theorem others_put (pool : CachePool) {i : Nat} {w : Writer} {data : List Nat}
    (h : i ∉ w.held.toList ++ data) (c : Cache) :
    w.left (pool.put i c).caches ++ (data.flatMap fun j => ((pool.put i c).caches j).contents) =
      w.left pool.caches ++ data.flatMap fun j => (pool.caches j).contents := by
  have hcongr : ∀ j, j ∈ w.held.toList ++ data ++ (none : Option Nat).toList →
      ((pool.put i c).caches j).contents = (pool.caches j).contents := by
    intro j hj
    rw [Option.toList_none, List.append_nil] at hj
    rw [CachePool.put_ne]
    rintro rfl
    exact h hj
  have := cached_congr hcongr
  rwa [Option.toList_none, List.flatMap_nil, List.flatMap_nil, List.append_nil, List.append_nil] at this

theorem inv_init (P : PageStore) (poolSize cacheSize : Nat) : Inv (Sys.init P poolSize cacheSize) := by
  have hmade : (CachePool.create poolSize cacheSize).tick.made = poolSize := Nat.zero_add _
  have hnew : ∀ i, (CachePool.create poolSize cacheSize).tick.caches i = Cache.create cacheSize := by
    intro i
    show (if i < 0 then Cache.create cacheSize else Cache.create cacheSize) = _
    rw [ite_self]
  have hview : ∀ i, i < poolSize →
      Nkvdb.CachePool.cacheAt (CachePool.create poolSize cacheSize).tick.view i = (Cache.create cacheSize).toCache := by
    intro i hi
    rw [CachePool.cacheAt_view (by rwa [hmade]), hnew]
  have howned : Pipeline.Owned (CachePool.create poolSize cacheSize).tick.view none [] none false := by
    refine ⟨List.nodup_nil, fun i hi => absurd hi List.not_mem_nil, fun i hi => absurd hi nofun, fun i hi _ => ?_⟩
    rw [CachePool.length_view, hmade] at hi
    rw [hview i hi]
    exact ⟨rfl, List.take_nil⟩
  have hids : ∀ i, i ∈ (CachePool.create poolSize cacheSize).ids → i < poolSize := by
    intro i hi
    have := (List.mem_range'_1.mp hi).2
    rwa [Nat.zero_add] at this
  have htaken : ∀ i, (Sys.init P poolSize cacheSize).cache = some i →
      i < poolSize ∧ (Cache.create cacheSize).sync = false := by
    intro i hi
    have hi : (CachePool.create poolSize cacheSize).scan.1 = some i := hi
    exact ⟨hids i (CachePool.scan_some hi).1, rfl⟩
  constructor
  case toSound =>
    refine ⟨fun i _ => ?_, fun size hmem => ?_, ?_⟩
    · exact congrArg Cache.size (hnew i)
    · obtain ⟨i, -, rfl⟩ := List.mem_map.mp hmem
      exact congrArg Cache.size (hnew i)
    · have hcached : (Sys.init P poolSize cacheSize).cached = [] := by
        apply List.flatMap_eq_nil_iff.mpr
        intro i _
        exact congrArg Cache.contents (hnew i)
      rw [hcached, List.append_nil]
      show ([] ++ P.contents P.fresh).Perm []
      rw [P.fresh_contents]
      rfl
  case ids => exact fun i hi => hmade.symm ▸ hids i hi
  case counted =>
    intro i _
    show ((CachePool.create poolSize cacheSize).tick.caches i).Counted
    rw [hnew]
    exact Cache.counted_create cacheSize
  case owned =>
    show Pipeline.Owned (CachePool.create poolSize cacheSize).tick.view none [] (Sys.init P poolSize cacheSize).cache
      false
    cases hget : (Sys.init P poolSize cacheSize).cache with
    | none => exact howned
    | some i =>
      have hlt := (htaken i hget).1
      exact (howned.take (by rwa [CachePool.length_view, hmade]) (by rw [hview i hlt]; rfl)).1
  case cleared =>
    intro i hi
    cases hi
  case noCache =>
    intro p hp
    cases hp
  case unmade => exact fun _ _ => rfl

namespace Inv
variable {s : Sys P}

/-! ### The pool is resized -/

/-- The caches there are hold what they held. -/
theorem repool (h : Inv s) {pool : CachePool} (hmade : s.pool.made ≤ pool.made)
    (hold : ∀ i, i < s.pool.made → (pool.caches i).Counted ∧ (pool.caches i).contents = (s.pool.caches i).contents ∧
      (pool.caches i).sync = (s.pool.caches i).sync)
    (hnew : ∀ i, s.pool.made ≤ i → i < pool.made → ∃ size, pool.caches i = Cache.create size)
    (hids : ∀ i, i ∈ pool.ids → i < pool.made) : Inv {s with pool := pool} := by
  have hcounted : ∀ i, i < pool.made → (pool.caches i).Counted := by
    intro i hi
    by_cases hlt : i < s.pool.made
    · exact (hold i hlt).1
    · obtain ⟨size, hcreate⟩ := hnew i (not_lt.mp hlt) hi
      rw [hcreate]
      exact Cache.counted_create size
  constructor
  case toSound =>
    refine ⟨fun i hi => ?_, h.handed, ?_⟩
    · show (pool.caches i).size = (s.appended i).length
      by_cases hlt : i < s.pool.made
      · rw [← Cache.length_contents, (hold i hlt).2.1, h.size_eq hlt]
      · obtain ⟨size, hcreate⟩ := hnew i (not_lt.mp hlt) hi
        rw [hcreate, h.unmade i (not_lt.mp hlt)]
        rfl
    · have hcached : (s.stored ++ s.cached).Perm s.accepted := h.ledger
      unfold Sys.cached at hcached
      rwa [cached_congr fun i hi => ((hold i (h.inUse_lt hi)).2.1).symm] at hcached
  case ids => exact hids
  case counted => exact hcounted
  case owned =>
    apply owned_of_view h.owned
    · rwa [CachePool.length_view, CachePool.length_view]
    · intro i hi
      rw [CachePool.length_view] at hi
      rw [CachePool.cacheAt_view hi, CachePool.cacheAt_view (hi.trans_le hmade),
        (hcounted i (hi.trans_le hmade)).meases,
        (h.counted i hi).meases]
      exact ⟨(hold i hi).2.2, (hold i hi).2.1⟩
    · intro i hge hi
      rw [CachePool.length_view] at hge hi
      rw [CachePool.cacheAt_view hi, (hcounted i hi).meases]
      obtain ⟨size, hcreate⟩ := hnew i hge hi
      rw [hcreate]
      exact ⟨rfl, rfl⟩
  case cleared =>
    intro i hi
    have hw : s.writer = .syncComplete i := hi
    have hlt := (h.sync_held (i := i) (by rw [hw]; exact List.mem_append_left _ (List.mem_singleton.mpr rfl))).1
    exact (hold i hlt).2.1.trans (h.cleared i hw)
  case noCache => exact h.noCache
  case unmade => exact fun i hi => h.unmade i (hmade.trans hi)

theorem extend (h : Inv s) {pool : CachePool} (hext : s.pool.Extends pool) : Inv {s with pool := pool} := by
  apply h.repool hext.made
  · intro i hi
    rw [hext.old i hi]
    exact ⟨h.counted i hi, rfl, rfl⟩
  · exact hext.new
  · intro i hi
    cases hext.ids i hi with
    | inl hmem => exact (h.ids i hmem).trans_le hext.made
    | inr hnew => exact hnew.2

theorem setCacheSize (h : Inv s) {sz : Nat} (hk : Event.Keeps (.setCacheSize sz) s) :
    Inv {s with pool := s.pool.setCacheSize sz} := by
  apply h.repool (show s.pool.made ≤ (s.pool.setCacheSize sz).made from le_rfl)
  · intro i hi
    have hc := h.counted i hi
    unfold CachePool.setCacheSize
    dsimp only
    split
    next hmem => exact hc.setSize (hk i hmem.1 hmem.2)
    next => exact ⟨hc, rfl, rfl⟩
  · intro i hge hi
    exact absurd hi (not_lt.mpr hge)
  · exact h.ids

/-! ### The steps of the client -/

theorem goOn (h : Inv s) {c : Option Client} (hs : syncingOf c = syncingOf s.client)
    (hn : ∀ p, c ≠ some (.getCache p)) : Inv {s with client := c} where
  counts := h.counts
  handed := h.handed
  ledger := h.ledger
  ids := h.ids
  counted := h.counted
  owned := by
    rw [hs]
    exact h.owned
  cleared := h.cleared
  noCache p hp := absurd hp (hn p)
  unmade := h.unmade

theorem current_not_queued (h : Inv s) (hc : s.cache = some i) : i ∉ s.writer.held.toList ++ s.data := by
  have ho := h.owned
  rw [hc] at ho
  exact ho.cache_not_queued

/-- The client's cache takes something in, or is marked. -/
theorem appendTo (h : Inv s) (hc : s.cache = some i) {c : Cache} {new : List Meas} {next : Option Client}
    (hcounted : c.Counted) (hcont : c.contents = (s.pool.caches i).contents ++ new) (hsync : c.sync = syncingOf next)
    (hn : ∀ p, next ≠ some (.getCache p)) : Inv (s.appendTo i c new next) := by
  have hlt := (h.sync_current hc).1
  have hnot := h.current_not_queued hc
  constructor
  case toSound =>
    refine ⟨fun j hj => ?_, h.handed, ?_⟩
    · show ((s.pool.put i c).caches j).size = (Function.update s.appended i (s.appended i ++ new) j).length
      by_cases hji : j = i
      · subst hji
        rw [CachePool.put_self, Function.update_self, List.length_append, ← h.size_eq hlt, ← List.length_append,
          ← hcont, Cache.length_contents]
      · rw [CachePool.put_ne _ hji, Function.update_of_ne hji]
        exact h.counts j hj
    · have hold := others_put s.pool hnot c
      have hledger := h.ledger
      show (s.stored ++ (s.writer.left (s.pool.put i c).caches ++
        (s.data.flatMap fun j => ((s.pool.put i c).caches j).contents) ++
        s.cache.toList.flatMap fun j => ((s.pool.put i c).caches j).contents)).Perm (s.accepted ++ new)
      unfold Sys.cached at hledger
      rw [hc] at hledger ⊢
      rw [hold]
      simp only [Option.toList_some, List.flatMap_cons, List.flatMap_nil, List.append_nil, CachePool.put_self]
        at hledger ⊢
      rw [hcont, ← List.append_assoc _ _ new, ← List.append_assoc _ _ new]
      exact hledger.append_right new
  case ids => exact h.ids
  case counted =>
    intro j hj
    show ((s.pool.put i c).caches j).Counted
    by_cases hji : j = i
    · subst hji
      rw [CachePool.put_self]
      exact hcounted
    · rw [CachePool.put_ne _ hji]
      exact h.counted j hj
  case owned =>
    show Pipeline.Owned (s.pool.put i c).view s.writer.held s.data s.cache (syncingOf next)
    have ho := h.owned
    rw [hc] at ho ⊢
    rw [CachePool.view_put]
    exact ho.setCache hsync
  case cleared =>
    intro j hj
    show ((s.pool.put i c).caches j).contents = []
    have hw : s.writer = .syncComplete j := hj
    rw [CachePool.put_ne]
    · exact h.cleared j hw
    · rintro rfl
      rw [hw] at hnot
      exact hnot (List.mem_append_left _ (List.mem_singleton.mpr rfl))
  case noCache => exact fun p hp => absurd hp (hn p)
  case unmade =>
    intro j hj
    show Function.update s.appended i _ j = []
    rw [Function.update_of_ne]
    · exact h.unmade j hj
    · rintro rfl
      exact absurd hlt (not_lt.mpr hj)

theorem push (h : Inv s) (hc : s.cache = some i) {p : Point} (hp : s.client = some (.push p)) :
    Inv {s with data := s.data ++ [i], cache := none, client := some (.getCache p)} where
  counts := h.counts
  handed := h.handed
  ledger := by
    have hledger := h.ledger
    unfold Sys.cached at hledger ⊢
    rw [hc] at hledger
    simp only [Option.toList_some, Option.toList_none, List.flatMap_cons, List.flatMap_nil, List.append_nil,
      List.flatMap_append] at hledger ⊢
    rw [← List.append_assoc (s.writer.left s.pool.caches)]
    exact hledger
  ids := h.ids
  counted := h.counted
  owned := by
    have ho := h.owned
    rw [hc, hp] at ho
    exact ho.push _
  cleared := h.cleared
  noCache _ _ := rfl
  unmade := h.unmade

/-- The client takes a cache that is not in sync. -/
theorem take (h : Inv s) {p : Point} (hp : s.client = some (.getCache p)) (hlt : i < s.pool.made)
    (hs : (s.pool.caches i).sync = false) : (s.pool.caches i).size = 0 ∧
      Inv {s with cache := some i, client := some (.atPoint p), handed := s.handed ++ [(s.pool.caches i).size]} := by
  have hc := h.noCache p hp
  have ho := h.owned
  rw [hc] at ho
  have hview := CachePool.cacheAt_view hlt
  obtain ⟨howned, hempty⟩ := ho.take (by rwa [CachePool.length_view]) (by rw [hview]; exact hs)
  rw [hview, (h.counted i hlt).meases] at hempty
  have hsize : (s.pool.caches i).size = 0 := by rw [← Cache.length_contents, hempty, List.length_nil]
  refine ⟨hsize, ?_⟩
  constructor
  case toSound =>
    refine ⟨h.counts, fun size hmem => ?_, ?_⟩
    · cases List.mem_append.mp hmem with
      | inl hmem => exact h.handed size hmem
      | inr hmem => exact (List.mem_singleton.mp hmem).trans hsize
    · have hledger := h.ledger
      unfold Sys.cached at hledger ⊢
      rw [hc] at hledger
      simp only [Option.toList_some, List.flatMap_cons, List.flatMap_nil, hempty]
      exact hledger
  case ids => exact h.ids
  case counted => exact h.counted
  case owned => exact howned
  case cleared => exact h.cleared
  case noCache =>
    intro q hq
    cases hq
  case unmade => exact h.unmade

/-! ### The steps of the writer -/

theorem pop (h : Inv s) (hw : s.writer = .idle) {rest : List Nat} (hd : s.data = i :: rest) :
    Inv {s with data := rest, writer := .sort i} where
  counts := h.counts
  handed := h.handed
  ledger := by
    have hledger := h.ledger
    unfold Sys.cached at hledger ⊢
    rw [hw, hd] at hledger
    exact hledger
  ids := h.ids
  counted := h.counted
  owned := by
    have ho := h.owned
    rw [hw, hd] at ho
    exact ho.pop
  cleared j hj := by cases hj
  noCache := h.noCache
  unmade := h.unmade

theorem held_not_queued (h : Inv s) (hw : s.writer.held = some i) : i ∉ s.data ++ s.cache.toList := by
  have ho := h.owned
  rw [hw] at ho
  exact ho.held_not_queued

theorem held_lt (h : Inv s) (hw : s.writer.held = some i) : i < s.pool.made :=
  (h.sync_held (by rw [hw]; exact List.mem_append_left _ (List.mem_singleton.mpr rfl))).1

/-- The caches that the writer does not hold are as they were. -/
theorem flatMap_put (h : Inv s) (hw : s.writer.held = some i) (c : Cache) :
    (s.data.flatMap fun j => ((s.pool.put i c).caches j).contents) =
        (s.data.flatMap fun j => (s.pool.caches j).contents) ∧
      (s.cache.toList.flatMap fun j => ((s.pool.put i c).caches j).contents) =
        s.cache.toList.flatMap fun j => (s.pool.caches j).contents := by
  have hnot := h.held_not_queued hw
  have hcongr : ∀ j, j ∈ s.data ++ s.cache.toList →
      ((s.pool.put i c).caches j).contents = (s.pool.caches j).contents := by
    intro j hj
    rw [CachePool.put_ne]
    rintro rfl
    exact hnot hj
  exact ⟨List.flatMap_congr fun j hj => hcongr j (List.mem_append_left _ hj),
    List.flatMap_congr fun j hj => hcongr j (List.mem_append_right _ hj)⟩

/-- The writer changes the cache in its hands. -/
theorem setHeld (h : Inv s) (hw : s.writer.held = some i) {c : Cache} {w : Writer} {appended : Nat → List Meas}
    (hcounted : c.Counted) (hsize : c.size = (appended i).length)
    (happ : ∀ j, j ≠ i → appended j = s.appended j)
    (hleft : (w.left (s.pool.put i c).caches).Perm (s.writer.left s.pool.caches))
    (howned : Pipeline.Owned (s.pool.put i c).view w.held s.data s.cache (syncingOf s.client))
    (hcleared : ∀ j, w = .syncComplete j → ((s.pool.put i c).caches j).contents = []) :
    Inv {s with pool := s.pool.put i c, appended := appended, writer := w} := by
  have hlt := h.held_lt hw
  constructor
  case toSound =>
    refine ⟨fun j hj => ?_, h.handed, ?_⟩
    · show ((s.pool.put i c).caches j).size = (appended j).length
      by_cases hji : j = i
      · subst hji
        rw [CachePool.put_self, hsize]
      · rw [CachePool.put_ne _ hji, happ j hji]
        exact h.counts j hj
    · obtain ⟨hdata, hcache⟩ := h.flatMap_put hw c
      have hledger := h.ledger
      unfold Sys.cached at hledger ⊢
      dsimp only at hledger ⊢
      rw [hdata, hcache]
      exact ((((hleft.append_right _).append_right _).append_left _).trans hledger)
  case ids => exact h.ids
  case counted =>
    intro j hj
    show ((s.pool.put i c).caches j).Counted
    by_cases hji : j = i
    · subst hji
      rw [CachePool.put_self]
      exact hcounted
    · rw [CachePool.put_ne _ hji]
      exact h.counted j hj
  case owned => exact howned
  case cleared => exact hcleared
  case noCache => exact h.noCache
  case unmade =>
    intro j hj
    show appended j = []
    rw [happ]
    · exact h.unmade j hj
    · rintro rfl
      exact absurd hlt (not_lt.mpr hj)

/-- The writer goes on with what is left of the cache in its hands. -/
theorem write (h : Inv s) {w : Writer} {pages : List P.Page} {curpage : P.Page} (hheld : w.held = s.writer.held)
    (hleft : (pages.flatMap P.contents ++ P.contents curpage) ++ w.left s.pool.caches =
      s.stored ++ s.writer.left s.pool.caches)
    (hw : ∀ i, w ≠ .syncComplete i) : Inv {s with pages := pages, curpage := curpage, writer := w} where
  counts := h.counts
  handed := h.handed
  ledger := by
    have hledger := h.ledger
    unfold Sys.cached at hledger ⊢
    rw [List.append_assoc (s.writer.left s.pool.caches), ← List.append_assoc, ← hleft, List.append_assoc,
      ← List.append_assoc (w.left s.pool.caches)] at hledger
    exact hledger
  ids := h.ids
  counted := h.counted
  owned := by
    rw [hheld]
    exact h.owned
  cleared i hi := absurd hi (hw i)
  noCache := h.noCache
  unmade := h.unmade

theorem writerStep (h : Inv s) {S : TimeSort} {s' : Sys P} (hs : s.writerStep S = some s') : Inv s' := by
  unfold Sys.writerStep at hs
  split at hs
  next hw =>
    split at hs
    · cases hs
    next i rest hd =>
      obtain rfl := Option.some.inj hs
      exact h.pop hw hd
  next i hw =>
    obtain rfl := Option.some.inj hs
    have hheld : s.writer.held = some i := by rw [hw]; rfl
    have hlt := h.held_lt hheld
    have hc := h.counted i hlt
    have ho := h.owned
    rw [hheld] at ho
    refine h.setHeld hheld (c := (s.pool.caches i).sorted S) ⟨hc.index, hc.fits⟩ (h.counts i hlt) (fun _ _ => rfl)
      ?_ ?_ nofun
    · rw [hw]
      show ((s.pool.caches i).sorted S).contents.Perm (s.pool.caches i).contents
      rw [Cache.contents_sorted]
      exact S.perm _
    · rw [CachePool.view_put]
      exact ho.setHeld (h.sync_held (by rw [hheld]; exact List.mem_cons_self ..)).2
  next i hw =>
    obtain rfl := Option.some.inj hs
    refine h.write ?_ ?_ nofun
    · rw [hw]
      rfl
    · rw [hw]
      rfl
  next i m ms hw =>
    obtain rfl := Option.some.inj hs
    refine h.write ?_ ?_ ?_
    · rw [hw]
      split <;> rfl
    · rw [hw, P.append_contents, ← List.append_assoc, List.append_assoc]
      split
      · exact congrArg _ (List.take_append_drop ..)
      · exact congrArg _ (List.take_append_drop ..)
    · intro j hj
      split at hj <;> cases hj
  next i output hw =>
    obtain rfl := Option.some.inj hs
    refine h.write ?_ ?_ nofun
    · rw [hw]
      rfl
    · rw [hw, P.fresh_contents, List.flatMap_append, List.append_nil, List.flatMap_singleton]
      rfl
  next i hw =>
    obtain rfl := Option.some.inj hs
    have hheld : s.writer.held = some i := by rw [hw]; rfl
    have ho := h.owned
    rw [hheld] at ho
    refine h.setHeld hheld Cache.Counted.clear ?_ (fun j hj => Function.update_of_ne hj ..) ?_ ?_ ?_
    · rw [Function.update_self]
      rfl
    · rw [hw]
      rfl
    · rw [CachePool.view_put]
      exact ho.setHeld (h.sync_held (by rw [hheld]; exact List.mem_cons_self ..)).2
    · intro j hj
      cases hj
      rw [CachePool.put_self]
      rfl
  next i hw =>
    obtain rfl := Option.some.inj hs
    have hheld : s.writer.held = some i := by rw [hw]; rfl
    have hlt := h.held_lt hheld
    have hc := h.counted i hlt
    have ho := h.owned
    rw [hheld] at ho
    refine h.setHeld hheld (c := (s.pool.caches i).syncComplete) ⟨hc.index, hc.fits⟩ (h.counts i hlt) (fun _ _ => rfl)
      ?_ ?_ nofun
    · rw [hw]
      rfl
    · have hview := CachePool.cacheAt_view hlt
      have hrel := ho.release (by rw [hview, hc.meases]; exact h.cleared i hw)
      rw [hview] at hrel
      rw [CachePool.view_put]
      exact hrel

/-! ### What `getCache` hands out -/

/-- Where the caches of an enlarged pool have the size they had, the call only adds empty caches,
and hands out one that is not in sync. -/
theorem getCache_free (h : Inv s) {fuel : Nat} {r : Option Nat} {pool : CachePool}
    (hget : s.pool.getCache fuel = some (r, pool))
    (hk : s.pool.dynamicSize = true → s.pool.scan.1 = none → s.pool.cacheSize * 3 / 2 = s.pool.cacheSize) :
    s.pool.Extends pool ∧ ∀ i, r = some i → i < pool.made ∧ (pool.caches i).sync = false := by
  cases CachePool.getCache_cases hget with
  | inl hfree =>
    obtain ⟨-, hr, hext⟩ := hfree
    refine ⟨hext, fun i hi => ?_⟩
    obtain ⟨hmem, hsync⟩ := CachePool.scan_some (hr.symm.trans hi)
    have hlt := h.ids i hmem
    rw [hext.old i hlt]
    exact ⟨hlt.trans_le hext.made, hsync⟩
  | inr hnone =>
    obtain ⟨⟨hdyn, hscan⟩, j, hr, hj, hext⟩ := hnone
    have henl := CachePool.enlarge_extends (hk hdyn hscan)
    refine ⟨henl.trans hext, fun i hi => ?_⟩
    obtain rfl := Option.some.inj (hr.symm.trans hi)
    obtain ⟨hmem, hsync⟩ := CachePool.scan_some hj
    have hlt := (CachePool.enlarge_caches hmem).2.1
    rw [hext.old j hlt]
    exact ⟨hlt.trans_le hext.made, hsync⟩

theorem clientStep (h : Inv s) {now : Nat → Time} {pastTime : Time} {s' : Sys P}
    (hk : Event.Keeps (.client now pastTime) s) (hs : s.clientStep now pastTime = some s') : Inv s' := by
  have hcur : ∀ {i c}, s.client = some c → c.syncing = false → s.cache = some i →
      (s.pool.caches i).Counted ∧ (s.pool.caches i).sync = false := by
    intro i c hc hsync hi
    obtain ⟨hlt, hs⟩ := h.sync_current hi
    rw [hc] at hs
    exact ⟨h.counted i hlt, hs.trans hsync⟩
  unfold Sys.clientStep at hs
  split at hs
  · cases hs
  next ms hc =>
    obtain ⟨i, hi, rfl⟩ := Option.map_eq_some_iff.mp hs
    apply h.goOn
    · rw [hc]
      split <;> rfl
    · intro p hp
      split at hp <;> cases hp
  next m hc =>
    obtain ⟨i, hi, rfl⟩ := Option.map_eq_some_iff.mp hs
    obtain ⟨hcounted, hsync⟩ := hcur hc rfl hi
    obtain ⟨hcont, hkept⟩ := Cache.append_stores hcounted m (now 0) pastTime
    refine h.appendTo hi (Cache.append_toCache hcounted m (now 0) pastTime).1 hcont ?_ ?_
    · rw [hkept, hsync]
      split <;> rfl
    · intro p hp
      split at hp <;> cases hp
  next hc =>
    obtain rfl := Option.some.inj hs
    apply h.goOn
    · rw [hc]
      rfl
    · exact nofun
  next m ms hc =>
    obtain ⟨i, hi, rfl⟩ := Option.map_eq_some_iff.mp hs
    obtain ⟨hcounted, hsync⟩ := hcur hc rfl hi
    obtain ⟨hcont, hkept⟩ := Cache.appendArray_stores hcounted (m :: ms) now pastTime
    refine h.appendTo hi (Cache.appendArray_toCache hcounted (m :: ms) now pastTime).1 hcont ?_ ?_
    · rw [hkept, hsync]
      split <;> rfl
    · intro p hp
      split at hp <;> cases hp
  next p hc =>
    obtain ⟨i, hi, rfl⟩ := Option.map_eq_some_iff.mp hs
    obtain ⟨hcounted, hsync⟩ := hcur hc rfl hi
    unfold Sys.writeCache
    split
    · apply h.goOn
      · rw [hc]
        rfl
      · exact nofun
    · have heq : s.appendTo i (s.pool.caches i).syncBegin [] (some (.push p)) =
          {s with pool := s.pool.put i (s.pool.caches i).syncBegin, client := some (.push p)} := by
        unfold Sys.appendTo
        rw [List.append_nil, List.append_nil, Function.update_eq_self]
      rw [← heq]
      exact h.appendTo hi ⟨hcounted.index, hcounted.fits⟩ (List.append_nil _).symm rfl nofun
  next p hc =>
    obtain ⟨i, hi, rfl⟩ := Option.map_eq_some_iff.mp hs
    exact h.push hi hc
  next p hc =>
    obtain ⟨⟨r, pool⟩, hget, rfl⟩ := Option.map_eq_some_iff.mp hs
    obtain ⟨hext, hfree⟩ := h.getCache_free hget (hk p hc)
    have hnext := h.extend hext
    unfold Sys.getCache
    cases r with
    | none => exact hnext
    | some i =>
      obtain ⟨hlt, hsync⟩ := hfree i rfl
      exact (hnext.take hc hlt hsync).2

theorem step (h : Inv s) {S : TimeSort} {e : Event} {s' : Sys P} (hk : e.Keeps s) (hs : Resize.step S e s = some s') :
    Inv s' := by
  have henter : ∀ {c : Client}, c.syncing = false → (∀ p, c ≠ .getCache p) → s.enter c = some s' → Inv s' := by
    intro c hsync hn hs
    unfold Sys.enter at hs
    split at hs
    next hnone =>
      obtain rfl := Option.some.inj hs
      apply h.goOn
      · rw [Option.isNone_iff_eq_none.mp hnone]
        exact hsync
      · exact fun p hp => hn p (Option.some.inj hp)
    next => cases hs
  cases e with
  | append m => exact henter rfl (fun p hp => by cases hp) hs
  | appendArray ms => exact henter rfl (fun p hp => by cases hp) hs
  | client now pastTime => exact h.clientStep hk hs
  | writer => exact h.writerStep hs
  | setCacheSize sz =>
    obtain rfl := Option.some.inj hs
    exact h.setCacheSize hk
  | setPoolSize sz =>
    obtain rfl := Option.some.inj hs
    exact h.extend (.setPoolSize ..)
  | enableDynamicSize flg =>
    obtain rfl := Option.some.inj hs
    exact h.extend (.of_eq rfl rfl rfl)

/-! ### What a step that does not keep them leaves -/

/-- Where the sizes are sound after `setCacheSize`, each cache had the size or as many blanks. -/
theorem keeps_setCacheSize (h : Inv s) {sz : Nat} (hs : Sys.Sound {s with pool := s.pool.setCacheSize sz}) :
    Event.Keeps (.setCacheSize sz) s := by
  intro i hi hsync
  by_cases hmax : (s.pool.caches i).maxSize = sz
  · exact .inl hmax
  right
  have hlt := h.ids i hi
  have hset : (s.pool.setCacheSize sz).caches i = (s.pool.caches i).setSize sz := if_pos ⟨hi, hsync⟩
  obtain ⟨hsize, hblank⟩ := Cache.setSize_blank hmax
  have hcount := hs.counts i hlt
  rw [show Sys.pool {s with pool := s.pool.setCacheSize sz} = s.pool.setCacheSize sz from rfl, hset, hsize] at hcount
  have hnot : i ∉ s.writer.held.toList ++ s.data := by
    intro hmem
    rw [(h.sync_held hmem).2] at hsync
    cases hsync
  by_cases hc : s.cache = some i
  · -- what the others hold is as it was, so the blanks stand for what the current cache held
    have hothers : ∀ j, j ∈ s.writer.held.toList ++ s.data ++ (none : Option Nat).toList →
        ((s.pool.setCacheSize sz).caches j).contents = (s.pool.caches j).contents := by
      intro j hj
      rw [Option.toList_none, List.append_nil] at hj
      refine congrArg Cache.contents (if_neg fun hfree => ?_)
      rw [(h.sync_held hj).2] at hfree
      exact absurd hfree.2 nofun
    have hsame := cached_congr hothers
    have hafter := hs.ledger
    have hbefore := h.ledger
    unfold Sys.cached at hafter hbefore
    dsimp only at hafter
    rw [hc] at hafter hbefore
    simp only [Option.toList_none, Option.toList_some, List.flatMap_nil, List.flatMap_cons,
      List.append_nil] at hafter hbefore hsame
    rw [hsame, hset, hblank] at hafter
    have hperm := hafter.trans hbefore.symm
    have := (List.perm_append_left_iff _).mp ((List.perm_append_left_iff _).mp hperm)
    exact List.perm_replicate.mp this.symm
  · have hunused : i ∉ s.writer.held.toList ++ s.data ++ s.cache.toList := by
      intro hmem
      cases List.mem_append.mp hmem with
      | inl hmem => exact hnot hmem
      | inr hmem => exact hc (Option.mem_toList.mp hmem)
    have hfree := (h.free hlt hunused).2
    rw [hfree]
    rw [← h.counts i hlt, ← Cache.length_contents, hfree, List.length_nil] at hcount
    rw [hcount]
    rfl

/-- Where the cache handed out is empty, an enlarged pool has caches of the size there was. -/
theorem keeps_client {now : Nat → Time} {pastTime : Time} {s' : Sys P} (hs' : s'.Sound)
    (hs : s.clientStep now pastTime = some s') : Event.Keeps (.client now pastTime) s := by
  intro p hc hdyn hscan
  unfold Sys.clientStep at hs
  rw [hc] at hs
  obtain ⟨⟨r, pool⟩, hget, rfl⟩ := Option.map_eq_some_iff.mp hs
  cases CachePool.getCache_cases hget with
  | inl hfree => exact absurd ⟨hdyn, hscan⟩ hfree.1
  | inr hnone =>
    obtain ⟨-, i, rfl, hi, hext⟩ := hnone
    have hmem := (CachePool.scan_some hi).1
    obtain ⟨-, hlt, hcache⟩ := CachePool.enlarge_caches hmem
    have hzero := hs'.handed (pool.caches i).size (List.mem_append_right _ (List.mem_singleton.mpr rfl))
    rw [hext.old i hlt, hcache] at hzero
    by_contra hne
    have hsize := (Cache.setSize_blank (c := Cache.create s.pool.cacheSize) (Ne.symm hne)).1
    omega

end Inv

/-- The caches are sound at every step of a run exactly if every `setCacheSize` of the run finds the
size it sets, or as many blanks as that, in each cache of the pool that is not in sync, and
`getCache` enlarges no pool whose caches would change their size. -/
theorem sound_iff (S : TimeSort) (P : PageStore) (poolSize cacheSize : Nat) (es : List Event) :
    Runs.Always (step S) Sys.Sound es (Sys.init P poolSize cacheSize) ↔
      Runs.Each (step S) Event.Keeps es (Sys.init P poolSize cacheSize) := by
  have hinit := inv_init P poolSize cacheSize
  apply Runs.always_iff_each (I := Inv)
  · intro e s s' h _ hs
    constructor
    · intro hs'
      cases e with
      | setCacheSize sz =>
        obtain rfl := Option.some.inj hs
        exact h.keeps_setCacheSize hs'
      | client now pastTime => exact Inv.keeps_client hs' hs
      | _ => trivial
    · exact fun hk => (h.step hk hs).toSound
  · exact fun e s s' h _ hs hk => h.step hk hs
  · exact hinit
  · exact hinit.toSound

/-- Of two caches of four both are given the size two, and the measurement appended then finds the
one in use full: two blanks are on the page, and nothing was accepted. -/
theorem blanks_written : ¬ ∀ (S : TimeSort) (P : PageStore) (poolSize cacheSize : Nat) (es : List Event),
    1 ≤ poolSize → 1 ≤ cacheSize →
    (∀ sz, Event.setCacheSize sz ∈ es ∨ Event.setPoolSize sz ∈ es → 1 ≤ sz) →
    Runs.Always (step S) Sys.Sound es (Sys.init P poolSize cacheSize) := by
  intro h
  have hfacts : (Runs.run (step TimeSort.insertion) (.setCacheSize 2 :: .append (Meas.plain 1 10) ::
      .replicate 3 (.client (fun _ => 0) 0) ++ .replicate 3 .writer) (Sys.init (Pipeline.PageStore.bounded 4) 2 4)).any
      (fun s => s.stored = [Meas.empty, Meas.empty] ∧ s.accepted = []) = true := by decide +kernel
  obtain ⟨s, hrun, hs⟩ := (Option.any_eq_true _ _).mp hfacts
  obtain ⟨hstored, haccepted⟩ := of_decide_eq_true hs
  have hledger : (s.stored ++ s.cached).Perm s.accepted := by
    refine ((h TimeSort.insertion (Pipeline.PageStore.bounded 4) 2 4 _ (by decide) (by decide) ?_).run hrun).ledger
    intro sz hsz
    simp at hsz
    omega
  rw [hstored, haccepted] at hledger
  exact absurd hledger.length_eq nofun

end Nkvdb.Resize
