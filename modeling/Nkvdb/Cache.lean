import Nkvdb.Basic

/-! The caches that measurements wait in for their page (`cache.h`, `cache.cpp`).

The pool neither grows nor shrinks here: that is what `m_dynamic_size` off means. The
values of `m_cur_values` are kept apart from this. -/
namespace Nkvdb

structure Cache where
  maxSize : Nat
  /-- The first `m_size` of `m_meases`. -/
  meases : List Meas
  /-- `m_sync`. -/
  sync : Bool
  fits : meases.length ≤ maxSize

namespace Cache

/-- `Cache::Cache`. -/
def create (size : Nat) : Cache := ⟨size, [], false, Nat.zero_le _⟩

instance : Inhabited Cache := ⟨create 0⟩

def isFull (c : Cache) : Bool := c.meases.length == c.maxSize

/-- `Cache::clear`. -/
def clear (c : Cache) : Cache := ⟨c.maxSize, [], c.sync, Nat.zero_le _⟩

def syncBegin (c : Cache) : Cache := {c with sync := true}

def syncComplete (c : Cache) : Cache := {c with sync := false}

/-- `Cache::append` of one measurement, with the clock reading it takes. A measurement
out of time counts as written. -/
def append (value : Meas) (now pastTime : Time) (c : Cache) : AppendResult × Cache :=
  if !checkPastTime now value.time pastTime then (⟨1, 1⟩, c)
  else if h : c.meases.length = c.maxSize then ({}, c)
  else (⟨1, 0⟩, ⟨c.maxSize, c.meases ++ [value], c.sync, by
    have := c.fits
    rw [List.length_append, List.length_singleton]
    omega⟩)

/-- The measurements that are not ignored; `now i` is the clock reading for element `i`. -/
def admitted (now : Nat → Time) (pastTime : Time) : Nat → List Meas → List Meas
  | _, [] => []
  | i, m :: ms =>
    if checkPastTime (now i) m.time pastTime then m :: admitted now pastTime (i + 1) ms
    else admitted now pastTime (i + 1) ms

theorem length_admitted (now : Nat → Time) (pastTime : Time) (i : Nat) (ms : List Meas) :
    (admitted now pastTime i ms).length ≤ ms.length := by
  induction ms generalizing i with
  | nil => exact le_rfl
  | cons m ms ih =>
    have := ih (i + 1)
    unfold admitted
    split
    · rw [List.length_cons, List.length_cons]
      omega
    · rw [List.length_cons]
      omega

theorem fits_admitted (ms : List Meas) (now : Nat → Time) (pastTime : Time) (c : Cache) :
    (c.meases ++ admitted now pastTime 0 (ms.take (min (c.maxSize - c.meases.length) ms.length))).length ≤
      c.maxSize := by
  have h1 := c.fits
  have h2 := length_admitted now pastTime 0 (ms.take (min (c.maxSize - c.meases.length) ms.length))
  rw [List.length_take] at h2
  rw [List.length_append]
  omega

/-- `Cache::append` of an array: as much as there is capacity for counts as written. -/
def appendArray (ms : List Meas) (now : Nat → Time) (pastTime : Time) (c : Cache) : AppendResult × Cache :=
  let toWrite := min (c.maxSize - c.meases.length) ms.length
  let kept := admitted now pastTime 0 (ms.take toWrite)
  (⟨toWrite, toWrite - kept.length⟩, ⟨c.maxSize, c.meases ++ kept, c.sync, fits_admitted ms now pastTime c⟩)

/-- What an append reports to have been stored was stored, behind what was there. -/
theorem append_spec (value : Meas) (now pastTime : Time) (c : Cache) :
    (c.append value now pastTime).2.meases = c.meases ++
      (if (c.append value now pastTime).1.ignored = 0 then [value].take (c.append value now pastTime).1.writed
        else []) ∧
      (c.append value now pastTime).2.sync = c.sync := by
  unfold append
  split
  · simp
  · split
    · simp
    · simp

theorem appendArray_spec (ms : List Meas) (now : Nat → Time) (pastTime : Time) (c : Cache) :
    (c.appendArray ms now pastTime).2.meases =
      c.meases ++ admitted now pastTime 0 (ms.take (c.appendArray ms now pastTime).1.writed) ∧
      (c.appendArray ms now pastTime).2.sync = c.sync :=
  ⟨rfl, rfl⟩

end Cache

abbrev CachePool := List Cache

namespace CachePool

/-- `CachePool::init_pool`. -/
def create (poolSize cacheSize : Nat) : CachePool := List.replicate poolSize (Cache.create cacheSize)

/-- Cache `i` of the pool. -/
def cacheAt (pool : CachePool) (i : Nat) : Cache := pool.getD i default

/-- `CachePool::getCache`: the last cache that is not in sync. -/
def getCache (pool : CachePool) : Option Nat :=
  (List.range pool.length).foldl (fun result i => if (pool.cacheAt i).sync then result else some i) none

theorem cacheAt_set (pool : CachePool) {i : Nat} (h : i < pool.length) (c : Cache) (j : Nat) :
    cacheAt (pool.set i c) j = if j = i then c else pool.cacheAt j := by
  unfold cacheAt
  rw [List.getD_eq_getElem?_getD, List.getD_eq_getElem?_getD, List.getElem?_set]
  by_cases hj : i = j
  · subst hj
    simp [h]
  · rw [if_neg hj, if_neg (Ne.symm hj)]

/-- A cache in sync is one of the pool. -/
theorem lt_of_sync {pool : CachePool} {i : Nat} (h : (pool.cacheAt i).sync = true) : i < pool.length := by
  by_contra hge
  unfold cacheAt at h
  rw [List.getD_eq_getElem?_getD, List.getElem?_eq_none (not_lt.mp hge)] at h
  cases h

theorem getCache_some {pool : CachePool} {i : Nat} (h : pool.getCache = some i) :
    i < pool.length ∧ (pool.cacheAt i).sync = false := by
  have hrun : ∀ n, ∀ i, (List.range n).foldl (fun result i => if (pool.cacheAt i).sync then result else some i) none =
      some i → i < n ∧ (pool.cacheAt i).sync = false := by
    intro n
    induction n with
    | zero =>
      intro i hi
      cases hi
    | succ n ih =>
      intro i hi
      rw [List.range_succ, List.foldl_append, List.foldl_cons, List.foldl_nil] at hi
      split at hi
      · have := ih i hi
        exact ⟨by omega, this.2⟩
      next hs =>
        obtain rfl := Option.some.inj hi
        exact ⟨Nat.lt_succ_self n, by simpa using hs⟩
  exact hrun _ i h

theorem cacheAt_create {poolSize cacheSize i : Nat} (h : i < poolSize) :
    cacheAt (create poolSize cacheSize) i = Cache.create cacheSize := by
  unfold cacheAt create
  rw [List.getD_eq_getElem?_getD, List.getElem?_replicate, if_pos h, Option.getD_some]

end CachePool
end Nkvdb
