import Nkvdb.Cache
import Nkvdb.PageManager

/-! Caches and pools whose sizes change (`cache.h`, `cache.cpp`).

A cache is here the array it is in the source, under two counters. While these agree it is a
`Nkvdb.Cache`; `setSize` puts a blank array under them. The values of `m_cur_values` are
kept apart from this. -/
namespace Nkvdb.Resize

structure Cache where
  maxSize : Nat
  meases : Nat → Meas
  size : Nat
  index : Nat
  sync : Bool

namespace Cache

/-- `Cache::Cache`. -/
def create (size : Nat) : Cache := ⟨size, fun _ => Meas.empty, 0, 0, false⟩

def isFull (c : Cache) : Bool := c.size == c.maxSize

def clear (c : Cache) : Cache := {c with size := 0, index := 0}

def syncBegin (c : Cache) : Cache := {c with sync := true}

def syncComplete (c : Cache) : Cache := {c with sync := false}

/-- `m_meases[m_index] = value`, and both counters go on. -/
def store (value : Meas) (c : Cache) : Cache :=
  {c with meases := Function.update c.meases c.index value, size := c.size + 1, index := c.index + 1}

/-- `Cache::append` of one measurement, with the clock reading it takes. -/
def append (value : Meas) (now pastTime : Time) (c : Cache) : AppendResult × Cache :=
  if !checkPastTime now value.time pastTime then (⟨1, 1⟩, c)
  else if !c.isFull then (⟨1, 0⟩, c.store value)
  else ({}, c)

/-- The loop of `Cache::append` of an array; `now i` is the clock reading for element `i`. -/
def storeLoop (now : Nat → Time) (pastTime : Time) : Nat → List Meas → AppendResult → Cache → AppendResult × Cache
  | _, [], res, c => (res, c)
  | i, m :: ms, res, c =>
    if !checkPastTime (now i) m.time pastTime then
      storeLoop now pastTime (i + 1) ms ⟨res.writed, res.ignored + 1⟩ c
    else storeLoop now pastTime (i + 1) ms res (c.store m)

/-- `Cache::append` of an array. -/
def appendArray (ms : List Meas) (now : Nat → Time) (pastTime : Time) (c : Cache) : AppendResult × Cache :=
  let toWrite := min (c.maxSize - c.size) ms.length
  storeLoop now pastTime 0 (ms.take toWrite) ⟨toWrite, 0⟩ c

/-- What the writer takes a cache to hold: `size()` elements of `asArray()`. -/
def contents (c : Cache) : List Meas := (List.range c.size).map c.meases

/-- `std::sort` of the `size()` elements. -/
def sorted (S : TimeSort) (c : Cache) : Cache :=
  {c with meases := fun j => (S.sort c.contents).getD j (c.meases j)}

/-- The array is a new one, and counts as full; `m_index` stays. -/
def setSize (sz : Nat) (c : Cache) : Cache :=
  if sz ≠ c.maxSize then {c with meases := fun _ => Meas.empty, maxSize := sz, size := sz} else c

/-! ### Caches whose counters agree -/

@[simp] theorem length_contents (c : Cache) : c.contents.length = c.size := by
  unfold contents
  rw [List.length_map, List.length_range]

structure Counted (c : Cache) : Prop where
  index : c.index = c.size
  fits : c.size ≤ c.maxSize

/-- The cache, as far as its array goes. -/
def toCache (c : Cache) : Nkvdb.Cache := ⟨c.maxSize, c.contents.take c.maxSize, c.sync, List.length_take_le ..⟩

theorem Counted.meases {c : Cache} (h : c.Counted) : c.toCache.meases = c.contents :=
  List.take_of_length_le (by rw [length_contents]; exact h.fits)

theorem toCache_eq {c : Cache} {a : Nkvdb.Cache} (h : c.Counted) (hmax : c.maxSize = a.maxSize)
    (hmeases : c.contents = a.meases) (hsync : c.sync = a.sync) : c.toCache = a := by
  have := h.meases
  cases a
  cases c
  simp only [toCache] at *
  simp_all

theorem counted_create (size : Nat) : (create size).Counted := ⟨rfl, Nat.zero_le _⟩

theorem Counted.clear {c : Cache} : c.clear.Counted := ⟨rfl, Nat.zero_le _⟩

theorem contents_store {c : Cache} (h : c.Counted) (value : Meas) :
    (c.store value).contents = c.contents ++ [value] := by
  unfold contents store
  rw [List.range_succ, List.map_append, h.index]
  have hold : (List.range c.size).map (Function.update c.meases c.size value) = (List.range c.size).map c.meases := by
    apply List.map_congr_left
    intro j hj
    rw [Function.update_of_ne (ne_of_lt (List.mem_range.mp hj))]
  rw [hold, List.map_singleton]
  show _ ++ [Function.update c.meases c.size value c.size] = _
  rw [Function.update_self]

theorem Counted.store {c : Cache} (h : c.Counted) (hlt : c.size < c.maxSize) (value : Meas) :
    (c.store value).Counted :=
  ⟨congrArg (· + 1) h.index, hlt⟩

theorem contents_sorted (S : TimeSort) (c : Cache) : (c.sorted S).contents = S.sort c.contents := by
  have hlen : (S.sort c.contents).length = c.size := by rw [(S.perm c.contents).length_eq, length_contents]
  show (List.range c.size).map (fun j => (S.sort c.contents).getD j (c.meases j)) = S.sort c.contents
  rw [← hlen]
  apply List.ext_getElem
  · rw [List.length_map, List.length_range]
  · intro j h₁ h₂
    rw [List.getElem_map, List.getElem_range]
    exact List.getD_eq_getElem _ _ h₂

/-- A cache whose counters agree appends as a `Nkvdb.Cache` does. -/
theorem append_toCache {c : Cache} (h : c.Counted) (value : Meas) (now pastTime : Time) :
    (c.append value now pastTime).2.Counted ∧
      (c.append value now pastTime).1 = (c.toCache.append value now pastTime).1 ∧
      (c.append value now pastTime).2.toCache = (c.toCache.append value now pastTime).2 := by
  have hm := h.meases
  have hlen : c.toCache.meases.length = c.size := by rw [hm, length_contents]
  unfold append Nkvdb.Cache.append isFull
  split
  · exact ⟨h, rfl, rfl⟩
  · by_cases hfull : c.size = c.maxSize
    · rw [dif_pos (show c.toCache.meases.length = c.toCache.maxSize from hlen.trans hfull), if_neg (by simp [hfull])]
      exact ⟨h, rfl, rfl⟩
    · have hne : ¬ c.toCache.meases.length = c.toCache.maxSize := fun heq => hfull (hlen.symm.trans heq)
      rw [dif_neg hne, if_pos (by simpa using hfull)]
      have hs := h.store (lt_of_le_of_ne h.fits hfull) value
      refine ⟨hs, rfl, toCache_eq hs rfl ?_ rfl⟩
      rw [contents_store h, ← hm]

theorem storeLoop_spec (now : Nat → Time) (pastTime : Time) (ms : List Meas) {i : Nat} {c : Cache} (h : c.Counted)
    (hfits : c.size + ms.length ≤ c.maxSize) (res : AppendResult) :
    let kept := Nkvdb.Cache.admitted now pastTime i ms
    (storeLoop now pastTime i ms res c).1 = ⟨res.writed, res.ignored + (ms.length - kept.length)⟩ ∧
      (storeLoop now pastTime i ms res c).2.Counted ∧
      (storeLoop now pastTime i ms res c).2.contents = c.contents ++ kept ∧
      (storeLoop now pastTime i ms res c).2.maxSize = c.maxSize ∧
      (storeLoop now pastTime i ms res c).2.sync = c.sync := by
  induction ms generalizing i c res with
  | nil => exact ⟨rfl, h, (List.append_nil _).symm, rfl, rfl⟩
  | cons m ms ih =>
    rw [List.length_cons] at hfits
    have hle := Nkvdb.Cache.length_admitted now pastTime (i + 1) ms
    unfold storeLoop Nkvdb.Cache.admitted
    cases hcheck : checkPastTime (now i) m.time pastTime with
    | false =>
      obtain ⟨hres, hc, hcont, hmax, hsync⟩ := ih (i := i + 1) h (by omega) ⟨res.writed, res.ignored + 1⟩
      simp only [Bool.not_false, if_true, Bool.false_eq_true, if_false]
      refine ⟨hres.trans ?_, hc, hcont, hmax, hsync⟩
      show (⟨res.writed, res.ignored + 1 + _⟩ : AppendResult) = _
      rw [List.length_cons]
      congr 1
      omega
    | true =>
      have hs := h.store (by omega) m
      obtain ⟨hres, hc, hcont, hmax, hsync⟩ := ih (i := i + 1) hs
        (show c.size + 1 + ms.length ≤ c.maxSize by omega) res
      simp only [Bool.not_true, Bool.false_eq_true, if_false, if_true]
      refine ⟨hres.trans ?_, hc, ?_, hmax, hsync⟩
      · rw [List.length_cons, List.length_cons]
        congr 1
        omega
      · rw [hcont, contents_store h, List.append_assoc, List.singleton_append]

theorem appendArray_toCache {c : Cache} (h : c.Counted) (ms : List Meas) (now : Nat → Time) (pastTime : Time) :
    (c.appendArray ms now pastTime).2.Counted ∧
      (c.appendArray ms now pastTime).1 = (c.toCache.appendArray ms now pastTime).1 ∧
      (c.appendArray ms now pastTime).2.toCache = (c.toCache.appendArray ms now pastTime).2 := by
  have hm := h.meases
  have hlen : c.toCache.meases.length = c.size := by rw [hm, length_contents]
  have hfits := h.fits
  obtain ⟨hres, hc, hcont, hmax, hsync⟩ := storeLoop_spec now pastTime
    (ms.take (min (c.maxSize - c.size) ms.length)) (i := 0) h (by rw [List.length_take]; omega)
    ⟨min (c.maxSize - c.size) ms.length, 0⟩
  have hmax' : c.toCache.maxSize = c.maxSize := rfl
  unfold appendArray Nkvdb.Cache.appendArray
  simp only [hlen, hmax']
  refine ⟨hc, hres.trans ?_, toCache_eq hc hmax ?_ hsync⟩
  · show (⟨_, 0 + _⟩ : AppendResult) = _
    rw [Nat.zero_add, List.length_take, min_assoc, min_self]
  · rw [hcont, ← hm]

/-- What an append reports to have been stored was stored, behind what was there. -/
theorem append_stores {c : Cache} (h : c.Counted) (value : Meas) (now pastTime : Time) :
    (c.append value now pastTime).2.contents = c.contents ++
      (if (c.append value now pastTime).1.ignored = 0 then [value].take (c.append value now pastTime).1.writed
        else []) ∧
      (c.append value now pastTime).2.sync = c.sync := by
  obtain ⟨hc, hres, hto⟩ := append_toCache h value now pastTime
  have hspec := Nkvdb.Cache.append_spec value now pastTime c.toCache
  rw [← hto, ← hres, hc.meases, h.meases] at hspec
  exact hspec

theorem appendArray_stores {c : Cache} (h : c.Counted) (ms : List Meas) (now : Nat → Time) (pastTime : Time) :
    (c.appendArray ms now pastTime).2.contents =
      c.contents ++ Nkvdb.Cache.admitted now pastTime 0 (ms.take (c.appendArray ms now pastTime).1.writed) ∧
      (c.appendArray ms now pastTime).2.sync = c.sync := by
  obtain ⟨hc, hres, hto⟩ := appendArray_toCache h ms now pastTime
  have hspec := Nkvdb.Cache.appendArray_spec ms now pastTime c.toCache
  rw [← hto, ← hres, hc.meases, h.meases] at hspec
  exact hspec

/-- A new size loses nothing where it is the size there was, or where as many blanks were held. -/
theorem Counted.setSize {c : Cache} (h : c.Counted) {sz : Nat}
    (hk : c.maxSize = sz ∨ c.contents = List.replicate sz Meas.empty) :
    (c.setSize sz).Counted ∧ (c.setSize sz).contents = c.contents ∧ (c.setSize sz).sync = c.sync := by
  unfold Cache.setSize
  split
  next hne =>
    have hblank := hk.resolve_left (Ne.symm hne)
    have hsize : c.size = sz := by rw [← length_contents, hblank, List.length_replicate]
    refine ⟨⟨h.index.trans hsize, le_rfl⟩, ?_, rfl⟩
    rw [hblank]
    show (List.range sz).map (fun _ => Meas.empty) = _
    rw [List.map_const', List.length_range]
  next => exact ⟨h, rfl, rfl⟩

theorem setSize_eq (c : Cache) : c.setSize c.maxSize = c := if_neg fun h => h rfl

/-- Under another size the array counts as full, of blanks. -/
theorem setSize_blank {c : Cache} {sz : Nat} (h : c.maxSize ≠ sz) :
    (c.setSize sz).size = sz ∧ (c.setSize sz).contents = List.replicate sz Meas.empty := by
  unfold setSize
  rw [if_pos (Ne.symm h)]
  refine ⟨rfl, ?_⟩
  show (List.range sz).map (fun _ => Meas.empty) = _
  rw [List.map_const', List.length_range]

end Cache

structure CachePool where
  /-- Every cache made: one that the pool lets go lives on where it is in use. -/
  caches : Nat → Cache
  made : Nat
  /-- The vector of the pool. -/
  ids : List Nat
  poolSize : Nat
  cacheSize : Nat
  defaultPoolSize : Nat
  recalcPeriod : Int
  dynamicSize : Bool

namespace CachePool

/-- `CachePool::init_pool`: all caches of the vector are new ones. -/
def initPool (pool : CachePool) : CachePool := {pool with
  caches := fun i => if i < pool.made then pool.caches i else Cache.create pool.cacheSize
  made := pool.made + pool.poolSize
  ids := List.range' pool.made pool.poolSize}

/-- `CachePool::CachePool`. -/
def create (poolSize cacheSize : Nat) : CachePool :=
  initPool ⟨fun _ => Cache.create cacheSize, 0, [], poolSize, cacheSize, poolSize, (poolSize / 3 : Nat), false⟩

def enableDynamicSize (flg : Bool) (pool : CachePool) : CachePool := {pool with dynamicSize := flg}

/-- The caches that are not in sync are given the size. -/
def setCacheSize (sz : Nat) (pool : CachePool) : CachePool := {pool with
  cacheSize := sz
  caches := fun i =>
    if i ∈ pool.ids ∧ (pool.caches i).sync = false then (pool.caches i).setSize sz else pool.caches i}

def setPoolSize (sz : Nat) (pool : CachePool) : CachePool := initPool {pool with poolSize := sz}

/-- The loop of `getCache`: the last cache that is not in sync, and how many there are. -/
def scan (pool : CachePool) : Option Nat × Nat :=
  pool.ids.foldl (fun r i => if !(pool.caches i).sync then (some i, r.2 + 1) else r) (none, 0)

/-- Half of the caches are free, and there are more than at first. -/
def shrink (countOfFree : Nat) (pool : CachePool) : CachePool :=
  if pool.poolSize / 2 ≤ countOfFree ∧ pool.defaultPoolSize < pool.poolSize then
    let pool := pool.setPoolSize (max (pool.poolSize / 2) pool.defaultPoolSize)
    {pool with recalcPeriod := (pool.poolSize / 2 : Nat)}
  else pool

/-- At most 0.85 of the caches are free: as a `double` that product is the nearest one to the
exact product, and compares to a count as the exact one does. -/
def grow (countOfFree : Nat) (pool : CachePool) : CachePool :=
  if 100 * countOfFree ≤ 85 * pool.poolSize then
    let pool := pool.setPoolSize (pool.poolSize * 2)
    {pool with recalcPeriod := (pool.poolSize / 2 : Nat)}
  else pool

/-- What `getCache` does where no cache is free: more caches, and larger ones. -/
def enlarge (pool : CachePool) : CachePool :=
  let pool := (pool.setPoolSize (pool.poolSize * 3 / 2)).setCacheSize (pool.cacheSize * 3 / 2)
  {pool with recalcPeriod := pool.poolSize}

/-- `m_recalc_period--`. -/
def tick (pool : CachePool) : CachePool := {pool with recalcPeriod := pool.recalcPeriod - 1}

/-- `CachePool::getCache`; `none` where the recursion has not ended. -/
def getCache : Nat → CachePool → Option (Option Nat × CachePool)
  | 0, _ => none
  | fuel + 1, pool =>
    let result := pool.tick.scan.1
    let countOfFree := pool.tick.scan.2
    if pool.tick.dynamicSize then
      if result = none then getCache fuel pool.tick.enlarge
      else if pool.tick.recalcPeriod ≤ 0 then some (result, (pool.tick.shrink countOfFree).grow countOfFree)
      else some (result, pool.tick)
    else some (result, pool.tick)

/-! ### What `getCache` leaves -/

/-- The caches there were are as they were; the new ones are empty. -/
structure Extends (pool pool' : CachePool) : Prop where
  made : pool.made ≤ pool'.made
  old : ∀ i, i < pool.made → pool'.caches i = pool.caches i
  new : ∀ i, pool.made ≤ i → i < pool'.made → ∃ size, pool'.caches i = Cache.create size
  ids : ∀ i, i ∈ pool'.ids → i ∈ pool.ids ∨ pool.made ≤ i ∧ i < pool'.made

namespace Extends

theorem of_eq {pool pool' : CachePool} (hcaches : pool'.caches = pool.caches) (hmade : pool'.made = pool.made)
    (hids : pool'.ids = pool.ids) : Extends pool pool' where
  made := hmade.ge
  old i _ := congrFun hcaches i
  new i h₁ h₂ := by omega
  ids i h := .inl (hids ▸ h)

theorem trans {p q r : CachePool} (h₁ : Extends p q) (h₂ : Extends q r) : Extends p r := by
  have hpq := h₁.made
  have hqr := h₂.made
  refine ⟨hpq.trans hqr, fun i hi => ?_, fun i hi hlt => ?_, fun i hi => ?_⟩
  · rw [h₂.old i (hi.trans_le hpq), h₁.old i hi]
  · by_cases hq : i < q.made
    · rw [h₂.old i hq]
      exact h₁.new i hi hq
    · exact h₂.new i (not_lt.mp hq) hlt
  · cases h₂.ids i hi with
    | inl hmem =>
      cases h₁.ids i hmem with
      | inl hp => exact .inl hp
      | inr hp => exact .inr ⟨hp.1, hp.2.trans_le hqr⟩
    | inr hnew => exact .inr ⟨hpq.trans hnew.1, hnew.2⟩

theorem setPoolSize (pool : CachePool) (sz : Nat) : Extends pool (pool.setPoolSize sz) where
  made := Nat.le_add_right ..
  old i hi := if_pos hi
  new i hi _ := ⟨pool.cacheSize, if_neg (not_lt.mpr hi)⟩
  ids i hi := by
    have := List.mem_range'_1.mp hi
    exact .inr this

theorem shrink (pool : CachePool) (n : Nat) : Extends pool (pool.shrink n) := by
  unfold CachePool.shrink
  split
  · exact (setPoolSize ..).trans (of_eq rfl rfl rfl)
  · exact of_eq rfl rfl rfl

theorem grow (pool : CachePool) (n : Nat) : Extends pool (pool.grow n) := by
  unfold CachePool.grow
  split
  · exact (setPoolSize ..).trans (of_eq rfl rfl rfl)
  · exact of_eq rfl rfl rfl

end Extends

theorem scan_spec (caches : Nat → Cache) (ids : List Nat) (r : Option Nat × Nat) :
    let found := (ids.foldl (fun r i => if !(caches i).sync then (some i, r.2 + 1) else r) r).1
    (∀ i, found = some i → i ∈ ids ∧ (caches i).sync = false ∨ r.1 = some i) ∧
      (found = none → r.1 = none ∧ ∀ i, i ∈ ids → (caches i).sync = true) := by
  induction ids generalizing r with
  | nil => exact ⟨fun i hi => .inr hi, fun hn => ⟨hn, fun i hi => absurd hi List.not_mem_nil⟩⟩
  | cons j ids ih =>
    rw [List.foldl_cons]
    cases hj : (caches j).sync with
    | false =>
      obtain ⟨hsome, hnone⟩ := ih (some j, r.2 + 1)
      refine ⟨fun i hi => ?_, fun hn => absurd (hnone hn).1 nofun⟩
      cases hsome i hi with
      | inl h => exact .inl ⟨List.mem_cons_of_mem _ h.1, h.2⟩
      | inr h =>
        obtain rfl := Option.some.inj h
        exact .inl ⟨List.mem_cons_self .., hj⟩
    | true =>
      obtain ⟨hsome, hnone⟩ := ih r
      refine ⟨fun i hi => ?_, fun hn => ⟨(hnone hn).1, fun i hi => ?_⟩⟩
      · cases hsome i hi with
        | inl h => exact .inl ⟨List.mem_cons_of_mem _ h.1, h.2⟩
        | inr h => exact .inr h
      · cases List.mem_cons.mp hi with
        | inl h => rw [h, hj]
        | inr h => exact (hnone hn).2 i h

theorem scan_some {pool : CachePool} {i : Nat} (h : pool.scan.1 = some i) :
    i ∈ pool.ids ∧ (pool.caches i).sync = false :=
  ((scan_spec pool.caches pool.ids (none, 0)).1 i h).resolve_right nofun

theorem scan_none {pool : CachePool} (h : pool.scan.1 = none) {i : Nat} (hi : i ∈ pool.ids) :
    (pool.caches i).sync = true :=
  ((scan_spec pool.caches pool.ids (none, 0)).2 h).2 i hi

/-- The caches of the pool are new ones, given the larger size. -/
theorem enlarge_caches {pool : CachePool} {i : Nat} (h : i ∈ pool.enlarge.ids) :
    pool.made ≤ i ∧ i < pool.enlarge.made ∧
      pool.enlarge.caches i = (Cache.create pool.cacheSize).setSize (pool.cacheSize * 3 / 2) := by
  obtain ⟨hge, hlt⟩ := List.mem_range'_1.mp h
  refine ⟨hge, hlt, ?_⟩
  have hnew : (pool.setPoolSize (pool.poolSize * 3 / 2)).caches i = Cache.create pool.cacheSize :=
    if_neg (not_lt.mpr hge)
  have hsync : ((pool.setPoolSize (pool.poolSize * 3 / 2)).caches i).sync = false := by
    rw [hnew]
    rfl
  rw [← hnew]
  exact if_pos ⟨h, hsync⟩

theorem enlarge_extends {pool : CachePool} (h : pool.cacheSize * 3 / 2 = pool.cacheSize) :
    Extends pool pool.enlarge where
  made := Nat.le_add_right ..
  old i hi := by
    have hnot : i ∉ pool.enlarge.ids := fun hmem => absurd (List.mem_range'_1.mp hmem).1 (not_le.mpr hi)
    exact (if_neg fun hmem => hnot hmem.1).trans (if_pos hi)
  new i hge hlt := by
    refine ⟨pool.cacheSize, ?_⟩
    rw [(enlarge_caches (List.mem_range'_1.mpr ⟨hge, hlt⟩)).2.2, h]
    exact Cache.setSize_eq (Cache.create pool.cacheSize)
  ids i hi := by
    have := enlarge_caches hi
    exact .inr ⟨this.1, this.2.1⟩

theorem enlarge_scan {pool : CachePool} (h : pool.enlarge.scan.1 = none) : pool.enlarge.ids = [] := by
  apply List.eq_nil_iff_forall_not_mem.mpr
  intro i hi
  have hsync := scan_none h hi
  rw [(enlarge_caches hi).2.2] at hsync
  unfold Cache.setSize at hsync
  split at hsync <;> cases hsync

theorem getCache_succ (fuel : Nat) (pool : CachePool) : getCache (fuel + 1) pool =
    if pool.dynamicSize then
      if pool.scan.1 = none then getCache fuel pool.enlarge
      else if pool.tick.recalcPeriod ≤ 0 then
        some (pool.scan.1, (pool.tick.shrink pool.scan.2).grow pool.scan.2)
      else some (pool.scan.1, pool.tick)
    else some (pool.scan.1, pool.tick) :=
  rfl

/-- A pool of no caches has none to enlarge. -/
theorem getCache_empty (fuel : Nat) {pool : CachePool} (hdyn : pool.dynamicSize = true) (hids : pool.ids = [])
    (hsize : pool.poolSize = 0) : getCache fuel pool = none := by
  induction fuel generalizing pool with
  | zero => rfl
  | succ fuel ih =>
    have hscan : pool.scan.1 = none := by
      unfold scan
      rw [hids]
      rfl
    rw [getCache_succ, if_pos hdyn, if_pos hscan]
    apply ih (show pool.enlarge.dynamicSize = true from hdyn)
    · show List.range' pool.made (pool.poolSize * 3 / 2) = []
      rw [hsize]
      rfl
    · show pool.poolSize * 3 / 2 = 0
      rw [hsize]

theorem getCache_enlarge (fuel : Nat) {pool : CachePool} (hdyn : pool.dynamicSize = true)
    (h : pool.enlarge.scan.1 = none) : getCache fuel pool.enlarge = none := by
  have hids := enlarge_scan h
  apply getCache_empty fuel (show pool.enlarge.dynamicSize = true from hdyn) hids
  have hlen := congrArg List.length hids
  rwa [show pool.enlarge.ids = List.range' pool.made pool.enlarge.poolSize from rfl, List.length_range'] at hlen

/-- A call finds a free cache, or finds none and may not make one, or enlarges the pool and then
finds one. -/
theorem getCache_cases {fuel : Nat} {pool pool' : CachePool} {r : Option Nat}
    (h : getCache fuel pool = some (r, pool')) :
    (¬ (pool.dynamicSize = true ∧ pool.scan.1 = none) ∧ r = pool.scan.1 ∧ Extends pool pool') ∨
      ((pool.dynamicSize = true ∧ pool.scan.1 = none) ∧ ∃ i, r = some i ∧ pool.enlarge.scan.1 = some i ∧
        Extends pool.enlarge pool') := by
  induction fuel generalizing pool with
  | zero => cases h
  | succ fuel ih =>
    have htick : Extends pool pool.tick := .of_eq rfl rfl rfl
    rw [getCache_succ] at h
    split at h
    next hdyn =>
      split at h
      next hnone =>
        refine .inr ⟨⟨hdyn, hnone⟩, ?_⟩
        cases hi : pool.enlarge.scan.1 with
        | none => exact absurd ((getCache_enlarge fuel hdyn hi).symm.trans h) nofun
        | some i =>
          cases ih h with
          | inl hfree => exact ⟨i, hfree.2.1.trans hi, rfl, hfree.2.2⟩
          | inr hagain => exact absurd (hi.symm.trans hagain.1.2) nofun
      next hsome =>
        refine .inl ⟨fun hd => hsome hd.2, ?_⟩
        split at h
        · obtain ⟨rfl, rfl⟩ := Prod.mk.inj (Option.some.inj h)
          exact ⟨rfl, (htick.trans (.shrink ..)).trans (.grow ..)⟩
        · obtain ⟨rfl, rfl⟩ := Prod.mk.inj (Option.some.inj h)
          exact ⟨rfl, htick⟩
    next hdyn =>
      obtain ⟨rfl, rfl⟩ := Prod.mk.inj (Option.some.inj h)
      exact .inl ⟨fun hd => hdyn hd.1, rfl, htick⟩

/-- The recursion ends in its first call or its second, or not at all. -/
theorem getCache_fuel (fuel : Nat) (pool : CachePool) : getCache (fuel + 2) pool = getCache 2 pool := by
  have henlarge : pool.dynamicSize = true → getCache (fuel + 1) pool.enlarge = getCache 1 pool.enlarge := by
    intro hdyn
    cases hi : pool.enlarge.scan.1 with
    | none => rw [getCache_enlarge _ hdyn hi, getCache_enlarge _ hdyn hi]
    | some i =>
      have hne : ¬ pool.enlarge.scan.1 = none := fun hn => absurd (hi.symm.trans hn) nofun
      rw [getCache_succ, getCache_succ, if_neg hne, if_neg hne]
  rw [getCache_succ (fuel + 1), getCache_succ 1]
  by_cases hdyn : pool.dynamicSize = true
  · rw [if_pos hdyn, if_pos hdyn, henlarge hdyn]
  · rw [if_neg hdyn, if_neg hdyn]

end CachePool
end Nkvdb.Resize
