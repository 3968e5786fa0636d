import Nkvdb.Pipeline

/-! What every interleaving keeps.

`Owned` says which caches are in use and by whom: a cache that is neither the current
one, nor queued, nor in the writer's hands is empty and not in sync. `Ledger` says that
nothing is lost and nothing doubled. -/
namespace Nkvdb.Pipeline

/-! ### The caches in use -/

/-- No cache is in use twice; those handed over are in sync, the current one is while it
is handed over, and all others are free. -/
structure Owned (pool : CachePool) (held : Option Nat) (data : List Nat) (cache : Option Nat)
    (syncing : Bool) : Prop where
  nodup : (held.toList ++ data ++ cache.toList).Nodup
  sync : ∀ i, i ∈ held.toList ++ data → (pool.cacheAt i).sync = true
  cacheSync : ∀ i, cache = some i → i < pool.length ∧ (pool.cacheAt i).sync = syncing
  free : ∀ i, i < pool.length → i ∉ held.toList ++ data ++ cache.toList →
    (pool.cacheAt i).sync = false ∧ (pool.cacheAt i).meases = []

namespace Owned
variable {pool : CachePool} {held cache : Option Nat} {data : List Nat} {b : Bool} {i : Nat}

theorem cache_not_queued (h : Owned pool held data (some i) b) : i ∉ held.toList ++ data := by
  have := List.nodup_append.mp h.nodup
  intro hi
  exact this.2.2 i hi i (List.mem_singleton.mpr rfl) rfl

theorem held_not_queued (h : Owned pool (some i) data cache b) : i ∉ data ++ cache.toList := by
  have hn := h.nodup
  rw [List.append_assoc] at hn
  exact (List.nodup_cons.mp hn).1

/-- The client changes its cache. -/
theorem setCache (h : Owned pool held data (some i) b) {c : Cache} {b' : Bool} (hc : c.sync = b') :
    Owned (pool.set i c) held data (some i) b' := by
  have hi := (h.cacheSync i rfl).1
  have hset := CachePool.cacheAt_set pool hi c
  refine ⟨h.nodup, fun j hj => ?_, fun j hj => ?_, fun j hj hfree => ?_⟩
  · rw [hset, if_neg]
    · exact h.sync j hj
    · rintro rfl
      exact h.cache_not_queued hj
  · obtain rfl := Option.some.inj hj
    rw [hset, if_pos rfl, List.length_set]
    exact ⟨hi, hc⟩
  · rw [List.length_set] at hj
    rw [hset, if_neg]
    · exact h.free j hj hfree
    · rintro rfl
      exact hfree (List.mem_append_right _ (List.mem_singleton.mpr rfl))

/-- The client hands its cache over. -/
theorem push (h : Owned pool held data (some i) true) (b : Bool) : Owned pool held (data ++ [i]) none b := by
  have happ : held.toList ++ data ++ [i] = held.toList ++ (data ++ [i]) ++ [] := by simp
  refine ⟨?_, fun j hj => ?_, fun j hj => ?_, fun j hj hfree => ?_⟩
  · have := h.nodup
    rwa [Option.toList_some, happ] at this
  · rw [← List.append_assoc] at hj
    rcases List.mem_append.mp hj with hj | hj
    · exact h.sync j hj
    · rw [List.mem_singleton.mp hj]
      exact (h.cacheSync i rfl).2
  · cases hj
  · refine h.free j hj ?_
    rw [Option.toList_some, happ]
    exact hfree

/-- The client takes a cache that is not in sync: it is a free one. -/
theorem take (h : Owned pool held data none b) (hi : i < pool.length) (hs : (pool.cacheAt i).sync = false) :
    Owned pool held data (some i) false ∧ (pool.cacheAt i).meases = [] := by
  have hfree : i ∉ held.toList ++ data := by
    intro hmem
    rw [h.sync i hmem] at hs
    cases hs
  have hempty : i ∉ held.toList ++ data ++ (none : Option Nat).toList := by
    rw [Option.toList_none, List.append_nil]
    exact hfree
  refine ⟨⟨?_, h.sync, fun j hj => ?_, fun j hj hj' => ?_⟩, (h.free i hi hempty).2⟩
  · have hn := h.nodup
    rw [Option.toList_none, List.append_nil] at hn
    refine List.nodup_append.mpr ⟨hn, List.nodup_singleton i, fun x hx y hy => ?_⟩
    rintro rfl
    rw [Option.toList_some, List.mem_singleton] at hy
    exact hfree (hy ▸ hx)
  · obtain rfl := Option.some.inj hj
    exact ⟨hi, hs⟩
  · apply h.free j hj
    rw [Option.toList_none, List.append_nil]
    exact fun hmem => hj' (List.mem_append_left _ hmem)

/-- The writer takes the front of the queue. -/
theorem pop (h : Owned pool none (i :: data) cache b) : Owned pool (some i) data cache b :=
  ⟨h.nodup, h.sync, h.cacheSync, h.free⟩

/-- The writer changes the cache in its hands. -/
theorem setHeld (h : Owned pool (some i) data cache b) {c : Cache} (hc : c.sync = true) :
    Owned (pool.set i c) (some i) data cache b := by
  have hi := CachePool.lt_of_sync (h.sync i (List.mem_cons_self ..))
  have hset := CachePool.cacheAt_set pool hi c
  have hne := h.held_not_queued
  refine ⟨h.nodup, fun j hj => ?_, fun j hj => ?_, fun j hj hfree => ?_⟩
  · rw [hset]
    split
    · exact hc
    · exact h.sync j hj
  · rw [hset, if_neg, List.length_set]
    · exact h.cacheSync j hj
    · rintro rfl
      rw [hj] at hne
      exact hne (List.mem_append_right _ (List.mem_singleton.mpr rfl))
  · rw [List.length_set] at hj
    rw [hset, if_neg]
    · exact h.free j hj hfree
    · rintro rfl
      exact hfree (List.mem_append_left _ (List.mem_append_left _ (List.mem_singleton.mpr rfl)))

/-- The writer gives the cache in its hands back. -/
theorem release (h : Owned pool (some i) data cache b) (he : (pool.cacheAt i).meases = []) :
    Owned (pool.set i (pool.cacheAt i).syncComplete) none data cache b := by
  have hi := CachePool.lt_of_sync (h.sync i (List.mem_cons_self ..))
  have hset := CachePool.cacheAt_set pool hi (pool.cacheAt i).syncComplete
  have hne := h.held_not_queued
  refine ⟨(List.nodup_cons.mp h.nodup).2, fun j hj => ?_, fun j hj => ?_, fun j hj hfree => ?_⟩
  · rw [hset, if_neg]
    · exact h.sync j (List.mem_cons_of_mem _ hj)
    · rintro rfl
      exact hne (List.mem_append_left _ hj)
  · rw [hset, if_neg, List.length_set]
    · exact h.cacheSync j hj
    · rintro rfl
      rw [hj] at hne
      exact hne (List.mem_append_right _ (List.mem_singleton.mpr rfl))
  · rw [List.length_set] at hj
    rw [hset]
    split
    next heq =>
      subst heq
      exact ⟨rfl, he⟩
    next hji =>
      apply h.free j hj
      intro hmem
      rcases List.mem_cons.mp hmem with heq | hmem
      · exact hji heq
      · exact hfree hmem

end Owned

/-! ### The ledger -/

/-- All that is anywhere is what was accepted; and in the same order if the times accepted
ascend. -/
structure Ledger (all accepted : List Meas) : Prop where
  perm : all.Perm accepted
  order : accepted.Pairwise (fun a b => a.time < b.time) → all = accepted

theorem Ledger.append {all accepted : List Meas} (h : Ledger all accepted) (new : List Meas) :
    Ledger (all ++ new) (accepted ++ new) :=
  ⟨h.perm.append_right new, fun hs => by rw [h.order (List.pairwise_append.mp hs).1]⟩

/-- Sorting a part of it changes nothing if the times ascend. -/
theorem Ledger.sort {a ms c accepted : List Meas} (S : TimeSort) (h : Ledger (a ++ ms ++ c) accepted) :
    Ledger (a ++ S.sort ms ++ c) accepted := by
  refine ⟨(((S.perm ms).append_left a).append_right c).trans h.perm, fun hs => ?_⟩
  have heq := h.order hs
  rw [← heq] at hs
  have hms := (List.pairwise_append.mp (List.pairwise_append.mp hs).1).2.1
  have hdistinct : (ms.map Meas.time).Nodup := List.pairwise_map.mpr (hms.imp fun hab => ne_of_lt hab)
  have hsort : S.sort ms = ms := by
    refine List.Perm.eq_of_pairwise (fun x y hx hy hxy hyx => ?_) (S.sorted ms) (hms.imp fun hab => hab.le) (S.perm ms)
    exact List.inj_on_of_nodup_map hdistinct ((S.perm ms).mem_iff.mp hx) hy (le_antisymm hxy hyx)
  rw [hsort, heq]

variable {P : PageStore}

theorem queued_set {pool : CachePool} {i : Nat} (hi : i < pool.length) (c : Cache) {data : List Nat} (h : i ∉ data) :
    (data.flatMap fun j => (CachePool.cacheAt (pool.set i c) j).meases) =
      data.flatMap fun j => (pool.cacheAt j).meases := by
  refine List.flatMap_congr fun j hj => ?_
  rw [CachePool.cacheAt_set pool hi, if_neg]
  rintro rfl
  exact h hj

theorem left_set {pool : CachePool} {i : Nat} (hi : i < pool.length) (c : Cache) {w : Writer}
    (h : w.held ≠ some i) : w.left (pool.set i c) = w.left pool := by
  have hset := CachePool.cacheAt_set pool hi c
  cases w with
  | unlock j =>
    show (CachePool.cacheAt (pool.set i c) j).meases = _
    rw [hset, if_neg]
    · rfl
    · rintro rfl
      exact h rfl
  | sort j =>
    show (CachePool.cacheAt (pool.set i c) j).meases = _
    rw [hset, if_neg]
    · rfl
    · rintro rfl
      exact h rfl
  | _ => rfl

/-! ### The invariant -/

def Point.seen : Point → List Meas
  | .read seen => seen
  | _ => []

/-- The cache is in sync but not yet queued. -/
def Client.syncing : Client → Bool
  | .add _ | .push _ => true
  | _ => false

/-- What a read has reached: what was accepted before it began is a first part of what is,
and from the loop of `flush_and_stop` on no client writes. -/
def Client.Reached (accepted current : List Meas) (data : List Nat) (cache : Option Nat)
    (threadLock : Option Party) : Client → Prop
  | .atPoint (.read seen) => seen <+: accepted ∧ current = []
  | .writeCache p | .add p | .push p => p.seen <+: accepted
  | .unlock p | .getCache p => p.seen <+: accepted ∧ cache = none
  | .pauseWork seen => seen <+: accepted ∧ current = [] ∧ data = []
  | .paused seen => seen <+: accepted ∧ current = [] ∧ data = [] ∧ threadLock = some .client
  | _ => True

/-- The writer holds `m_thread_lock`. -/
def Writer.running : Writer → Bool
  | .start | .waiting => false
  | _ => true

def Sys.syncing (s : Sys P) : Bool := (s.client.map Client.syncing).getD false

structure Inv (s : Sys P) : Prop where
  owned : Owned s.pool s.writer.held s.data s.cache s.syncing
  cleared : ∀ i, s.writer = .syncComplete i → (s.pool.cacheAt i).meases = []
  ledger : Ledger (s.stored ++ s.left ++ s.queued ++ s.current) s.accepted
  thread : s.threadLock = some .writer ↔ s.writer.running = true
  calls : ∀ seen, .read seen ∈ s.calls → seen <+: s.accepted
  client : ∀ c, s.client = some c → c.Reached s.accepted s.current s.data s.cache s.threadLock

/-- A step of the writer takes nothing from a read. -/
theorem Client.Reached.mono {accepted current : List Meas} {data data' : List Nat} {cache : Option Nat}
    {lock lock' : Option Party} {c : Client} (h : c.Reached accepted current data cache lock)
    (hd : data = [] → data' = []) (hl : lock = some .client → lock' = some .client) :
    c.Reached accepted current data' cache lock' := by
  cases c with
  | pauseWork seen => exact ⟨h.1, h.2.1, hd h.2.2⟩
  | paused seen => exact ⟨h.1, h.2.1, hd h.2.2.1, hl h.2.2.2⟩
  | atPoint p => cases p <;> exact h
  | _ => exact h

theorem inv_init (poolSize cacheSize : Nat) : Inv (Sys.init P poolSize cacheSize) := by
  have hat : ∀ i, i < poolSize →
      CachePool.cacheAt (CachePool.create poolSize cacheSize) i = Cache.create cacheSize :=
    fun i hi => CachePool.cacheAt_create hi
  have hlen : (CachePool.create poolSize cacheSize).length = poolSize := List.length_replicate
  have howned : Owned (CachePool.create poolSize cacheSize) none [] none false := by
    refine ⟨List.nodup_nil, fun i hi => ?_, fun i hi => ?_, fun i hi _ => ?_⟩
    · exact absurd hi List.not_mem_nil
    · cases hi
    · rw [hat i (hlen ▸ hi)]
      exact ⟨rfl, rfl⟩
  have hcur : Owned (CachePool.create poolSize cacheSize) none []
      (CachePool.create poolSize cacheSize).getCache false ∧
      (Sys.init P poolSize cacheSize).current = [] := by
    unfold Sys.current Sys.init
    cases hget : (CachePool.create poolSize cacheSize).getCache with
    | none => exact ⟨howned, rfl⟩
    | some i =>
      obtain ⟨hi, hs⟩ := CachePool.getCache_some hget
      obtain ⟨ho, he⟩ := howned.take hi hs
      refine ⟨ho, ?_⟩
      show (CachePool.cacheAt _ i).meases ++ [] = []
      rw [he]
      rfl
  constructor
  case owned => exact hcur.1
  case cleared =>
    intro i hi
    cases hi
  case ledger =>
    have hstored : (Sys.init P poolSize cacheSize).stored = [] := by
      show [] ++ P.contents P.fresh = []
      rw [P.fresh_contents]
      rfl
    rw [hcur.2, hstored]
    exact ⟨List.Perm.refl _, fun _ => rfl⟩
  case thread =>
    constructor
    · intro h
      cases h
    · intro h
      cases h
  case calls =>
    intro seen hs
    exact absurd hs List.not_mem_nil
  case client =>
    intro c hc
    cases hc

/-! ### The steps of the clients -/

theorem Sys.syncing_eq {s : Sys P} {c : Client} (h : s.client = some c) : s.syncing = c.syncing := by
  unfold Sys.syncing
  rw [h]
  rfl

/-- The client's cache with something behind what it holds. -/
theorem current_set {s : Sys P} (h : Inv s) {i : Nat} (hc : s.cache = some i) (c : Cache) :
    i < s.pool.length ∧ s.current = (s.pool.cacheAt i).meases ∧
      s.writer.left (s.pool.set i c) = s.left ∧
      (s.data.flatMap fun j => (CachePool.cacheAt (s.pool.set i c) j).meases) = s.queued ∧
      ((some i).toList.flatMap fun j => (CachePool.cacheAt (s.pool.set i c) j).meases) = c.meases := by
  have ho := h.owned
  rw [hc] at ho
  have hi := (ho.cacheSync i rfl).1
  have hq := ho.cache_not_queued
  refine ⟨hi, ?_, left_set hi c fun hw => hq ?_, queued_set hi c fun hd => hq (List.mem_append_right _ hd), ?_⟩
  · unfold Sys.current
    rw [hc]
    exact List.append_nil _
  · rw [hw]
    exact List.mem_append_left _ (List.mem_singleton.mpr rfl)
  · show (CachePool.cacheAt _ i).meases ++ [] = _
    rw [CachePool.cacheAt_set _ hi, if_pos rfl, List.append_nil]

/-- The client's cache takes something behind what it holds, or is marked. -/
theorem inv_store {s : Sys P} (h : Inv s) {i : Nat} {c : Client} {x : Cache} (new : List Meas)
    (hc : s.cache = some i) (hx : x.meases = (s.pool.cacheAt i).meases ++ new) (hcs : x.sync = c.syncing)
    (hcr : ∀ current data cache lock, c.Reached (s.accepted ++ new) current data cache lock) :
    Inv {s with pool := s.pool.set i x, client := some c, accepted := s.accepted ++ new} := by
  obtain ⟨hi, hcur, hl, hq, hnew⟩ := current_set h hc x
  have ho := h.owned
  rw [hc] at ho
  constructor
  case owned =>
    show Owned (s.pool.set i x) s.writer.held s.data s.cache c.syncing
    rw [hc]
    exact ho.setCache hcs
  case cleared =>
    intro j hj
    have hne : j ≠ i := by
      rintro rfl
      have hw : s.writer = .syncComplete j := hj
      have := ho.cache_not_queued
      rw [hw] at this
      exact this (List.mem_append_left _ (List.mem_singleton.mpr rfl))
    show (CachePool.cacheAt (s.pool.set i x) j).meases = []
    rw [CachePool.cacheAt_set _ hi, if_neg hne]
    exact h.cleared j hj
  case ledger =>
    have := h.ledger.append new
    rw [hcur, List.append_assoc, ← hx] at this
    show Ledger (s.stored ++ s.writer.left (s.pool.set i x) ++
      (s.data.flatMap fun j => (CachePool.cacheAt (s.pool.set i x) j).meases) ++
      (s.cache.toList.flatMap fun j => (CachePool.cacheAt (s.pool.set i x) j).meases)) (s.accepted ++ new)
    rw [hl, hq, hc, hnew]
    exact this
  case thread => exact h.thread
  case calls =>
    intro seen hs
    exact (h.calls seen hs).trans (List.prefix_append ..)
  case client =>
    intro c' hc'
    obtain rfl := Option.some.inj hc'
    exact hcr _ _ _ _

/-- The client goes on, with nothing moved. -/
theorem inv_client {s : Sys P} (h : Inv s) {k c : Client} {add : Option Party} (hk : s.client = some k)
    (hs : c.syncing = k.syncing)
    (hr : c.Reached s.accepted s.current s.data s.cache s.threadLock) :
    Inv {s with addLock := add, client := some c} := by
  have ho := h.owned
  rw [Sys.syncing_eq hk, ← hs] at ho
  refine ⟨ho, h.cleared, h.ledger, h.thread, h.calls, fun c' hc' => ?_⟩
  obtain rfl := Option.some.inj hc'
  exact hr

theorem Point.reached_of_empty {p : Point} {accepted current : List Meas} {data : List Nat} {cache : Option Nat}
    {lock : Option Party} (hs : p.seen <+: accepted) (he : current = []) :
    (Client.atPoint p).Reached accepted current data cache lock := by
  cases p with
  | read seen => exact ⟨hs, he⟩
  | _ => trivial

theorem Client.afterAppend_next (m : Meas) (res : AppendResult) : (Client.afterAppend m res).syncing = false ∧
    ∀ accepted current data cache lock, (Client.afterAppend m res).Reached accepted current data cache lock := by
  unfold Client.afterAppend
  split
  · exact ⟨rfl, fun _ _ _ _ _ => List.nil_prefix⟩
  · exact ⟨rfl, fun _ _ _ _ _ => trivial⟩

theorem Client.afterAppendArray_next (ms : List Meas) (res : AppendResult) :
    (Client.afterAppendArray ms res).syncing = false ∧
    ∀ accepted current data cache lock, (Client.afterAppendArray ms res).Reached accepted current data cache lock := by
  unfold Client.afterAppendArray
  split
  · exact ⟨rfl, fun _ _ _ _ _ => List.nil_prefix⟩
  · exact ⟨rfl, fun _ _ _ _ _ => trivial⟩

/-- One more call waits. -/
theorem inv_call {s : Sys P} (h : Inv s) {c : Call} (hc : ∀ seen, c = .read seen → seen = s.accepted) :
    Inv {s with calls := s.calls ++ [c]} := by
  refine ⟨h.owned, h.cleared, h.ledger, h.thread, fun seen hm => ?_, h.client⟩
  rcases List.mem_append.mp hm with hm | hm
  · exact h.calls seen hm
  · rw [hc seen (List.mem_singleton.mp hm).symm]

/-- A call that waited gets the lock. -/
theorem inv_enter {s : Sys P} (h : Inv s) {before after : List Call} {c : Call}
    (hcalls : s.calls = before ++ c :: after) (hfree : s.client = none) : Inv {s with calls := before ++ after, client := some c.start} := by
  have hmem : c ∈ s.calls := hcalls ▸ List.mem_append_right _ List.mem_cons_self
  have ho := h.owned
  have hsync : s.syncing = false := by
    unfold Sys.syncing
    rw [hfree]
    rfl
  rw [hsync] at ho
  refine ⟨?_, h.cleared, h.ledger, h.thread, fun seen hm => h.calls seen ?_, fun c' hc' => ?_⟩
  · cases c <;> exact ho
  · rw [hcalls]
    rcases List.mem_append.mp hm with hm | hm
    · exact List.mem_append_left _ hm
    · exact List.mem_append_right _ (List.mem_cons_of_mem _ hm)
  · obtain rfl := Option.some.inj hc'
    cases c with
    | read seen => exact h.calls seen hmem
    | _ => trivial

/-- The client's cache goes to the queue. -/
theorem inv_push {s : Sys P} (h : Inv s) {p : Point} {i : Nat} (hk : s.client = some (.push p))
    (hc : s.cache = some i) : Inv {s with data := s.data ++ [i], cache := none, client := some (.unlock p)} := by
  obtain ⟨-, hcur, -⟩ := current_set h hc default
  have ho := h.owned
  rw [Sys.syncing_eq hk, hc] at ho
  refine ⟨ho.push false, h.cleared, ?_, h.thread, h.calls, fun c' hc' => ?_⟩
  · have hl := h.ledger
    rw [hcur, List.append_assoc] at hl
    show Ledger (s.stored ++ s.left ++ ((s.data ++ [i]).flatMap fun j => (s.pool.cacheAt j).meases) ++ []) s.accepted
    rw [List.append_nil, List.flatMap_append, List.flatMap_singleton]
    exact hl
  · obtain rfl := Option.some.inj hc'
    exact ⟨h.client _ hk, rfl⟩

/-- The client takes a cache from the pool, which is empty. -/
theorem inv_getCache {s : Sys P} (h : Inv s) {p : Point} {i : Nat} (hk : s.client = some (.getCache p))
    (hc : s.pool.getCache = some i) : Inv {s with cache := some i, client := some (.atPoint p)} := by
  obtain ⟨hseen, hnone⟩ := h.client _ hk
  obtain ⟨hi, hs⟩ := CachePool.getCache_some hc
  have ho := h.owned
  rw [Sys.syncing_eq hk, hnone] at ho
  obtain ⟨ho', he⟩ := ho.take hi hs
  have hcur : ((some i).toList.flatMap fun j => (s.pool.cacheAt j).meases) = [] := by
    show (s.pool.cacheAt i).meases ++ [] = []
    rw [he]
    rfl
  have hcur' : s.current = [] := by
    unfold Sys.current
    rw [hnone]
    rfl
  refine ⟨ho', h.cleared, ?_, h.thread, h.calls, fun c' hc' => ?_⟩
  · have hl := h.ledger
    rw [hcur'] at hl
    show Ledger (s.stored ++ s.left ++ s.queued ++ ((some i).toList.flatMap fun j => (s.pool.cacheAt j).meases))
      s.accepted
    rw [hcur]
    exact hl
  · obtain rfl := Option.some.inj hc'
    exact Point.reached_of_empty hseen hcur

/-- The client takes the writer's lock, or gives it back. -/
theorem inv_thread {s : Sys P} (h : Inv s) {k c : Client} {thread : Option Party} (hk : s.client = some k)
    (hs : c.syncing = k.syncing) (hfree : s.threadLock ≠ some .writer) (hthread : thread ≠ some .writer)
    (hr : c.Reached s.accepted s.current s.data s.cache thread) :
    Inv {s with threadLock := thread, client := some c} := by
  have ho := h.owned
  rw [Sys.syncing_eq hk, ← hs] at ho
  refine ⟨ho, h.cleared, h.ledger, ⟨fun he => absurd he hthread, fun hw => absurd (h.thread.mpr hw) hfree⟩, h.calls,
    fun c' hc' => ?_⟩
  obtain rfl := Option.some.inj hc'
  exact hr

theorem ClientStep.inv {s s' : Sys P} (h : Inv s) (hs : ClientStep s s') : Inv s' := by
  cases hs with
  | callAppend m => exact inv_call h nofun
  | callAppendArray ms => exact inv_call h nofun
  | callRead => exact inv_call h fun seen he => (Call.read.inj he).symm
  | enter before after c hcalls hfree => exact inv_enter h hcalls hfree
  | append m i now pastTime hk hc =>
    obtain ⟨hm, hs⟩ := Cache.append_spec m now pastTime (s.pool.cacheAt i)
    obtain ⟨hsync, hr⟩ := Client.afterAppend_next m ((s.pool.cacheAt i).append m now pastTime).1
    have hb := (h.owned.cacheSync i hc).2
    rw [Sys.syncing_eq hk] at hb
    exact inv_store h _ hc hm (hs.trans (hb.trans hsync.symm)) fun _ _ _ _ => hr _ _ _ _ _
  | entry ms i hk hc =>
    refine inv_client h hk ?_ ?_
    · split
      · rfl
      · rfl
    · split
      · exact List.nil_prefix
      · trivial
  | appendArray ms i now pastTime hk hne hc =>
    obtain ⟨hm, hs⟩ := Cache.appendArray_spec ms now pastTime (s.pool.cacheAt i)
    obtain ⟨hsync, hr⟩ := Client.afterAppendArray_next ms ((s.pool.cacheAt i).appendArray ms now pastTime).1
    have hb := (h.owned.cacheSync i hc).2
    rw [Sys.syncing_eq hk] at hb
    exact inv_store h _ hc hm (hs.trans (hb.trans hsync.symm)) fun _ _ _ _ => hr _ _ _ _ _
  | appended hk => exact inv_client h hk rfl trivial
  | nothingToWrite p i hk hc he =>
    refine inv_client h hk rfl (Point.reached_of_empty (h.client _ hk) ?_)
    rw [(current_set h hc default).2.1, he]
  | syncBegin p i hk hc he =>
    have := inv_store h (c := .add p) (x := (s.pool.cacheAt i).syncBegin) [] hc (List.append_nil _).symm rfl
      fun _ _ _ _ => by
        rw [List.append_nil]
        exact h.client _ hk
    rwa [List.append_nil] at this
  | addLock p hk hl =>
    have hr := h.client _ hk
    exact inv_client h hk rfl hr
  | push p i hk hc => exact inv_push h hk hc
  | addUnlock p hk =>
    have hr := h.client _ hk
    exact inv_client h hk rfl hr
  | getCache p i hk hc => exact inv_getCache h hk hc
  | notBusy seen hk hb =>
    have hr := h.client _ hk
    exact inv_client h hk rfl ⟨hr.1, hr.2, hb⟩
  | pauseWork seen hk hl =>
    have hr := h.client _ hk
    exact inv_thread h hk rfl (hl ▸ nofun) nofun ⟨hr.1, hr.2.1, hr.2.2, rfl⟩
  | continueWork seen hk =>
    have hr := h.client _ hk
    exact inv_thread h hk rfl (hr.2.2.2 ▸ nofun) nofun trivial
  | leave hk =>
    have ho := h.owned
    rw [Sys.syncing_eq hk] at ho
    refine ⟨ho, h.cleared, h.ledger, h.thread, h.calls, fun c' hc' => ?_⟩
    cases hc'

/-! ### The steps of the writer -/

/-- The writer changes the cache in its hands, and goes on with it or gives it back. -/
theorem inv_held {s : Sys P} (h : Inv s) {i : Nat} {w : Writer} {c : Cache} (hw : s.writer.held = some i)
    (hrun : s.writer.running = true ∧ w.running = true)
    (ho : Owned (s.pool.set i c) w.held s.data s.cache s.syncing)
    (hcl : ∀ j, w = .syncComplete j → j = i ∧ c.meases = [])
    (hl : Ledger (s.stored ++ s.left ++ (s.queued ++ s.current)) s.accepted →
      Ledger (s.stored ++ w.left (s.pool.set i c) ++ (s.queued ++ s.current)) s.accepted) :
    Inv {s with pool := s.pool.set i c, writer := w} := by
  have ho' := h.owned
  rw [hw] at ho'
  have hi := CachePool.lt_of_sync (ho'.sync i (List.mem_cons_self ..))
  have hne := ho'.held_not_queued
  have hq := queued_set hi c fun hd => hne (List.mem_append_left s.cache.toList hd)
  have hc := queued_set hi c fun hd => hne (List.mem_append_right s.data hd)
  have hcur : ({s with pool := s.pool.set i c, writer := w} : Sys P).current = s.current := hc
  refine ⟨ho, fun j hj => ?_, ?_, h.thread.trans (iff_of_true hrun.1 hrun.2), h.calls, fun k hk => ?_⟩
  · obtain ⟨rfl, he⟩ := hcl j hj
    show (CachePool.cacheAt (s.pool.set j c) j).meases = []
    rw [CachePool.cacheAt_set _ hi, if_pos rfl, he]
  · show Ledger (s.stored ++ w.left (s.pool.set i c) ++
      (s.data.flatMap fun j => (CachePool.cacheAt (s.pool.set i c) j).meases) ++
      (s.cache.toList.flatMap fun j => (CachePool.cacheAt (s.pool.set i c) j).meases)) s.accepted
    rw [hq, hc, List.append_assoc _ (s.data.flatMap _)]
    refine hl ?_
    rw [← List.append_assoc]
    exact h.ledger
  · rw [hcur]
    exact h.client k hk

/-- The writer goes on and leaves the caches alone. -/
theorem inv_move {s : Sys P} (h : Inv s) {w : Writer} {data : List Nat} {thread add : Option Party}
    (ho : Owned s.pool w.held data s.cache s.syncing)
    (hcl : ∀ i, w = .syncComplete i → (s.pool.cacheAt i).meases = [])
    (hleft : (w.left s.pool ++ data.flatMap fun i => (s.pool.cacheAt i).meases) = s.left ++ s.queued)
    (ht : thread = some .writer ↔ w.running = true) (hd : s.data = [] → data = [])
    (hl : s.threadLock = some .client → thread = some .client) :
    Inv {s with data := data, writer := w, threadLock := thread, addLock := add} := by
  refine ⟨ho, hcl, ?_, ht, h.calls, fun c hc => (h.client c hc).mono hd hl⟩
  have hledger := h.ledger
  show Ledger (s.stored ++ w.left s.pool ++ (data.flatMap fun i => (s.pool.cacheAt i).meases) ++ s.current) s.accepted
  rwa [List.append_assoc s.stored, hleft, ← List.append_assoc s.stored]

/-- It takes its lock, with nothing in its hands. -/
theorem inv_takeLock {s : Sys P} (h : Inv s) (hheld : s.writer.held = none) (hleft : s.left = [])
    (hfree : s.threadLock = none) : Inv {s with threadLock := some .writer, writer := .check} := by
  have ho := h.owned
  rw [hheld] at ho
  refine inv_move h (w := .check) ho nofun ?_ (iff_of_true rfl rfl) id fun hc => ?_
  · rw [hleft]
    rfl
  · rw [hfree] at hc
    cases hc

/-- It keeps its lock and what it has in its hands. -/
theorem inv_turn {s : Sys P} (h : Inv s) {w : Writer} {add : Option Party} (hheld : w.held = s.writer.held)
    (hleft : w.left s.pool = s.left) (hrun : s.writer.running = w.running) (hcl : ∀ i, w ≠ .syncComplete i) :
    Inv {s with writer := w, addLock := add} := by
  have ho := h.owned
  have ht := h.thread
  rw [← hheld] at ho
  rw [hrun] at ht
  exact inv_move h ho (fun i hi => absurd hi (hcl i)) (congrArg (· ++ s.queued) hleft) ht id id

/-- It takes the first cache of the queue. -/
theorem inv_pop {s : Sys P} (h : Inv s) {i : Nat} {rest : List Nat} (hw : s.writer = .pop) (hd : s.data = i :: rest) :
    Inv {s with data := rest, writer := .unlock i} := by
  have ho := h.owned
  rw [hw, hd] at ho
  have hleft : s.left = [] := congrArg (Writer.left s.pool) hw
  have ht := h.thread
  rw [hw] at ht
  refine inv_move h (w := .unlock i) ho.pop nofun ?_ ht (fun he => ?_) id
  · rw [hleft]
    unfold Sys.queued
    rw [hd]
    rfl
  · rw [hd] at he
    cases he

theorem Writer.afterAppend_next (i : Nat) (output : List Meas) (n : Nat) (pool : CachePool) :
    (Writer.afterAppend i output n).held = some i ∧ (Writer.afterAppend i output n).left pool = output.drop n ∧
      (Writer.afterAppend i output n).running = true ∧ ∀ j, Writer.afterAppend i output n ≠ .syncComplete j := by
  unfold Writer.afterAppend
  split
  · exact ⟨rfl, rfl, rfl, nofun⟩
  · exact ⟨rfl, rfl, rfl, nofun⟩

/-- The page takes a prefix of what is left. -/
theorem inv_append {s : Sys P} (h : Inv s) {i : Nat} {output : List Meas} (hw : s.writer = .call i output) :
    Inv {s with
      curpage := (P.append output s.curpage).2
      writer := .afterAppend i output (P.append output s.curpage).1} := by
  have ho := h.owned
  have ht := h.thread
  have hledger := h.ledger
  rw [show s.left = output from congrArg (Writer.left s.pool) hw] at hledger
  rw [hw] at ho ht
  obtain ⟨hheld, hl, hr, hs⟩ := Writer.afterAppend_next i output (P.append output s.curpage).1 s.pool
  refine ⟨?_, fun j hj => absurd hj (hs j), ?_, ht.trans (iff_of_true rfl hr), h.calls, h.client⟩
  · show Owned s.pool (Writer.afterAppend i output _).held s.data s.cache s.syncing
    rw [hheld]
    exact ho
  · show Ledger (s.pages.flatMap P.contents ++ P.contents (P.append output s.curpage).2 ++
      (Writer.afterAppend i output _).left s.pool ++ s.queued ++ s.current) s.accepted
    rw [hl, P.append_contents, ← List.append_assoc, List.append_assoc _ (output.take _), List.take_append_drop]
    exact hledger

/-- The pages get an empty one. -/
theorem inv_createNewPage {s : Sys P} (h : Inv s) {i : Nat} {output : List Meas}
    (hw : s.writer = .createNewPage i output) :
    Inv {s with pages := s.pages ++ [s.curpage], curpage := P.fresh, writer := .call i output} := by
  have ho := h.owned
  have ht := h.thread
  have hledger := h.ledger
  rw [show s.left = output from congrArg (Writer.left s.pool) hw] at hledger
  rw [hw] at ho ht
  refine ⟨ho, nofun, ?_, ht, h.calls, h.client⟩
  show Ledger ((s.pages ++ [s.curpage]).flatMap P.contents ++ P.contents P.fresh ++ output ++ s.queued ++ s.current)
    s.accepted
  rw [List.flatMap_append, List.flatMap_singleton, P.fresh_contents, List.append_nil]
  exact hledger

theorem WriterStep.inv {S : TimeSort} {s s' : Sys P} (h : Inv s) (hs : WriterStep S s s') : Inv s' := by
  have ho := h.owned
  have hleft : s.left = s.writer.left s.pool := rfl
  cases hs with
  | start hw hl => exact inv_takeLock h (by rw [hw]; rfl) (by rw [hleft, hw]; rfl) hl
  | empty hw hd => exact inv_turn h (w := .wait) (by rw [hw]; rfl) (by rw [hleft, hw]; rfl) (by rw [hw]; rfl) nofun
  | haveData hw hd => exact inv_turn h (w := .lock) (by rw [hw]; rfl) (by rw [hleft, hw]; rfl) (by rw [hw]; rfl) nofun
  | wait hw =>
    have ht : s.threadLock = some .writer := h.thread.mpr (by rw [hw]; rfl)
    rw [hw] at ho hleft
    refine inv_move h (w := .waiting) ho nofun (by rw [hleft]; rfl) (iff_of_false nofun nofun) id fun hc => ?_
    rw [ht] at hc
    cases hc
  | wake hw hl => exact inv_takeLock h (by rw [hw]; rfl) (by rw [hleft, hw]; rfl) hl
  | lock hw hl => exact inv_turn h (w := .pop) (by rw [hw]; rfl) (by rw [hleft, hw]; rfl) (by rw [hw]; rfl) nofun
  | pop i rest hw hd => exact inv_pop h hw hd
  | unlock i hw => exact inv_turn h (w := .sort i) (by rw [hw]; rfl) (by rw [hleft, hw]; rfl) (by rw [hw]; rfl) nofun
  | written i hw => exact inv_turn h (w := .clear i) (by rw [hw]; rfl) (by rw [hleft, hw]; rfl) (by rw [hw]; rfl) nofun
  | append i output hw hne => exact inv_append h hw
  | createNewPage i output hw => exact inv_createNewPage h hw
  | sort i hw =>
    rw [hw] at ho hleft
    refine inv_held h (w := .call i _) (by rw [hw]; rfl) (by rw [hw]; exact ⟨rfl, rfl⟩) ?_ nofun fun hl => ?_
    · exact ho.setHeld (ho.sync i (List.mem_cons_self ..))
    · rw [hleft] at hl
      exact hl.sort S
  | clear i hw =>
    rw [hw] at ho hleft
    refine inv_held h (w := .syncComplete i) (by rw [hw]; rfl) (by rw [hw]; exact ⟨rfl, rfl⟩) ?_ ?_ fun hl => ?_
    · exact ho.setHeld (ho.sync i (List.mem_cons_self ..))
    · intro j hj
      cases hj
      exact ⟨rfl, rfl⟩
    · rw [hleft] at hl
      exact hl
  | syncComplete i hw =>
    have he := h.cleared i hw
    rw [hw] at ho hleft
    refine inv_held h (w := .check) (by rw [hw]; rfl) (by rw [hw]; exact ⟨rfl, rfl⟩) (ho.release he) nofun fun hl => ?_
    rw [hleft] at hl
    exact hl

theorem Reachable.inv {S : TimeSort} {poolSize cacheSize : Nat} {s : Sys P} (h : Reachable S poolSize cacheSize s) :
    Inv s := by
  induction h with
  | init => exact inv_init poolSize cacheSize
  | step _ hs ih =>
    cases hs with
    | client hs => exact hs.inv ih
    | writer hs => exact hs.inv ih

end Nkvdb.Pipeline
