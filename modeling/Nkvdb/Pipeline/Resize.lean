import Nkvdb.Cache.Resize
import Nkvdb.Lib.Runs
import Nkvdb.Pipeline.Invariant

/-! The write pipeline while its caches are resized (`Storage`, `CachePool`).

The steps are those of `Nkvdb.Pipeline`, its locks left out: appends, the writer, and the
calls that resize, in any order. What was appended to a cache since it was cleared, what was
accepted and the sizes at which caches were handed out are kept beside. -/
namespace Nkvdb.Resize

/-- Where an append goes on after `writeCache`. -/
inductive Point where
  | append (m : Meas)
  | appendArray (ms : List Meas)

/-- What the client that holds `m_write_mutex` does next. -/
inductive Client where
  /-- `if (m_cache->isFull())`. -/
  | entry (ms : List Meas)
  | atPoint (p : Point)
  | writeCache (p : Point)
  | push (p : Point)
  | getCache (p : Point)

/-- What the writer does next. -/
inductive Writer where
  | idle
  | sort (i : Nat)
  | call (i : Nat) (output : List Meas)
  | createNewPage (i : Nat) (output : List Meas)
  | clear (i : Nat)
  | syncComplete (i : Nat)

/-- The cache with another one put in its place. -/
def CachePool.put (i : Nat) (c : Cache) (pool : CachePool) : CachePool :=
  {pool with caches := Function.update pool.caches i c}

structure Sys (P : PageStore) where
  pool : CachePool
  /-- `m_cache`. -/
  cache : Option Nat
  /-- `m_data`. -/
  data : List Nat
  writer : Writer
  /-- The pages before the current one. -/
  pages : List P.Page
  curpage : P.Page
  client : Option Client
  /-- The measurements that appends did not ignore. -/
  accepted : List Meas
  /-- Those appended to each cache since it was cleared. -/
  appended : Nat → List Meas
  /-- `size()` of each cache that `getCache` handed out, as it was then. -/
  handed : List Nat

namespace Sys
variable {P : PageStore}

/-- `Storage::Storage` and `Storage::Create`. -/
def init (P : PageStore) (poolSize cacheSize : Nat) : Sys P :=
  let pool := CachePool.create poolSize cacheSize
  let r := (pool.getCache 2).getD (none, pool)
  { pool := r.2
    cache := r.1
    data := []
    writer := .idle
    pages := []
    curpage := P.fresh
    client := none
    accepted := []
    appended := fun _ => []
    handed := r.1.toList.map fun i => (r.2.caches i).size }

/-- A client takes `m_write_mutex`. -/
def enter (c : Client) (s : Sys P) : Option (Sys P) :=
  if s.client.isNone then some {s with client := some c} else none

/-- The cache `c` has taken `new` in. -/
def appendTo (i : Nat) (c : Cache) (new : List Meas) (next : Option Client) (s : Sys P) : Sys P := {s with
  pool := s.pool.put i c
  appended := Function.update s.appended i (s.appended i ++ new)
  accepted := s.accepted ++ new
  client := next}

/-- The loop of `Storage::append` of one measurement. -/
def append (m : Meas) (now pastTime : Time) (i : Nat) (s : Sys P) : Sys P :=
  let r := (s.pool.caches i).append m now pastTime
  s.appendTo i r.2 (if r.1.ignored = 0 then [m].take r.1.writed else [])
    (if r.1.writed = 0 then some (.writeCache (.append m)) else none)

/-- A turn of the loop of `Storage::append` of an array. -/
def appendArray (ms : List Meas) (now : Nat → Time) (pastTime : Time) (i : Nat) (s : Sys P) : Sys P :=
  let r := (s.pool.caches i).appendArray ms now pastTime
  s.appendTo i r.2 (Nkvdb.Cache.admitted now pastTime 0 (ms.take r.1.writed))
    (some (if r.1.writed ≠ ms.length then .writeCache (.appendArray (ms.drop r.1.writed))
      else .atPoint (.appendArray (ms.drop r.1.writed))))

/-- `Storage::writeCache` until the cache is handed over. -/
def writeCache (p : Point) (i : Nat) (s : Sys P) : Sys P :=
  if (s.pool.caches i).size = 0 then {s with client := some (.atPoint p)}
  else {s with pool := s.pool.put i (s.pool.caches i).syncBegin, client := some (.push p)}

/-- A turn of the loop of `Storage::writeCache` around `getCache`. -/
def getCache (p : Point) (r : Option Nat × CachePool) (s : Sys P) : Sys P :=
  match r.1 with
  | none => {s with pool := r.2}
  | some i => {s with
      pool := r.2
      cache := some i
      client := some (.atPoint p)
      handed := s.handed ++ [(r.2.caches i).size]}

def clientStep (now : Nat → Time) (pastTime : Time) (s : Sys P) : Option (Sys P) :=
  match s.client with
  | none => none
  | some (.entry ms) => s.cache.map fun i => {s with
      client := some (if (s.pool.caches i).isFull then .writeCache (.appendArray ms) else .atPoint (.appendArray ms))}
  | some (.atPoint (.append m)) => s.cache.map fun i => s.append m (now 0) pastTime i
  | some (.atPoint (.appendArray [])) => some {s with client := none}
  | some (.atPoint (.appendArray (m :: ms))) => s.cache.map fun i => s.appendArray (m :: ms) now pastTime i
  | some (.writeCache p) => s.cache.map fun i => s.writeCache p i
  -- `m_cache` is the client's own: it is let go with the push
  | some (.push p) => s.cache.map fun i => {s with
      data := s.data ++ [i]
      cache := none
      client := some (.getCache p)}
  | some (.getCache p) => (s.pool.getCache 2).map fun r => s.getCache p r

/-- The loop of `_thread_func`, and within it `AsyncWriter::call`. -/
def writerStep (S : TimeSort) (s : Sys P) : Option (Sys P) :=
  match s.writer with
  | .idle =>
    match s.data with
    | [] => none
    | i :: rest => some {s with data := rest, writer := .sort i}
  | .sort i => some {s with
      pool := s.pool.put i ((s.pool.caches i).sorted S)
      writer := .call i ((s.pool.caches i).sorted S).contents}
  | .call i [] => some {s with writer := .clear i}
  | .call i (m :: ms) =>
    let (writed, p) := P.append (m :: ms) s.curpage
    some {s with
      curpage := p
      writer := if writed ≠ (m :: ms).length then .createNewPage i ((m :: ms).drop writed)
        else .call i ((m :: ms).drop writed)}
  | .createNewPage i output => some {s with
      pages := s.pages ++ [s.curpage]
      curpage := P.fresh
      writer := .call i output}
  | .clear i => some {s with
      pool := s.pool.put i (s.pool.caches i).clear
      appended := Function.update s.appended i []
      writer := .syncComplete i}
  | .syncComplete i => some {s with
      pool := s.pool.put i (s.pool.caches i).syncComplete
      writer := .idle}

end Sys

inductive Event where
  | append (m : Meas)
  | appendArray (ms : List Meas)
  /-- The next step of the client, with the clock readings it takes. -/
  | client (now : Nat → Time) (pastTime : Time)
  | writer
  | setCacheSize (sz : Nat)
  | setPoolSize (sz : Nat)
  | enableDynamicSize (flg : Bool)

variable {P : PageStore}

def step (S : TimeSort) : Event → Sys P → Option (Sys P)
  | .append m, s => s.enter (.atPoint (.append m))
  | .appendArray ms, s => s.enter (.entry ms)
  | .client now pastTime, s => s.clientStep now pastTime
  | .writer, s => s.writerStep S
  | .setCacheSize sz, s => some {s with pool := s.pool.setCacheSize sz}
  | .setPoolSize sz, s => some {s with pool := s.pool.setPoolSize sz}
  | .enableDynamicSize flg, s => some {s with pool := s.pool.enableDynamicSize flg}

/-! ### Where the measurements are -/

/-- The cache in the writer's hands. -/
def Writer.held : Writer → Option Nat
  | .idle => none
  | .sort i | .call i _ | .createNewPage i _ | .clear i | .syncComplete i => some i

/-- What is left to write of it. -/
def Writer.left (caches : Nat → Cache) : Writer → List Meas
  | .sort i => (caches i).contents
  | .call _ output | .createNewPage _ output => output
  | _ => []

namespace Sys

/-- What the pages hold. -/
def stored (s : Sys P) : List Meas := s.pages.flatMap P.contents ++ P.contents s.curpage

/-- What the caches hold that is not written: that of the writer, the queued ones, and `m_cache`. -/
def cached (s : Sys P) : List Meas :=
  s.writer.left s.pool.caches ++ (s.data.flatMap fun i => (s.pool.caches i).contents) ++
    s.cache.toList.flatMap fun i => (s.pool.caches i).contents

/-- Every cache counts what was appended to it, the caches handed out were empty, and what is
written and what is cached make up what was accepted. -/
structure Sound (s : Sys P) : Prop where
  counts : ∀ i, i < s.pool.made → (s.pool.caches i).size = (s.appended i).length
  handed : ∀ size, size ∈ s.handed → size = 0
  ledger : (s.stored ++ s.cached).Perm s.accepted

end Sys

/-- A new size of the caches is the old one of each that takes it, or finds as many blanks there;
and no pool is enlarged whose caches would be. -/
def Event.Keeps (e : Event) (s : Sys P) : Prop :=
  match e with
  | .setCacheSize sz => ∀ i, i ∈ s.pool.ids → (s.pool.caches i).sync = false →
      (s.pool.caches i).maxSize = sz ∨ (s.pool.caches i).contents = List.replicate sz Meas.empty
  | .client _ _ => ∀ p, s.client = some (.getCache p) → s.pool.dynamicSize = true → s.pool.scan.1 = none →
      s.pool.cacheSize * 3 / 2 = s.pool.cacheSize
  | _ => True

end Nkvdb.Resize
