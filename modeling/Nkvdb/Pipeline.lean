import Nkvdb.Cache
import Nkvdb.PageManager

/-! The write pipeline (`Storage`, `AsyncWorker`, `AsyncWriter`).

Clients put measurements into a cache and hand it to the writer's queue when it is full
or a read begins; the writer sorts the caches and writes them to the pages. A step is
one lock, unlock, wait, push or pop, or one turn of a loop on data that no other thread
may touch. Pages are what the store makes of them. -/
namespace Nkvdb

/-- Pages that store exactly the prefix that an append reports. -/
structure PageStore where
  Page : Type
  fresh : Page
  contents : Page → List Meas
  append : List Meas → Page → Nat × Page
  fresh_contents : contents fresh = []
  append_le : ∀ ms p, (append ms p).1 ≤ ms.length
  append_contents : ∀ ms p, contents (append ms p).2 = contents p ++ ms.take (append ms p).1

namespace Pipeline

/-- Who holds a lock that both threads take. -/
inductive Party where
  | client
  | writer
  deriving DecidableEq

/-- A call that waits for `m_write_mutex`. A read remembers what was accepted before it. -/
inductive Call where
  | append (m : Meas)
  | appendArray (ms : List Meas)
  | read (seen : List Meas)

/-- Where a client goes on after `writeCache`: in the loop of an append, or at that of
`flush_and_stop`. -/
inductive Point where
  | append (m : Meas)
  | appendArray (ms : List Meas)
  | read (seen : List Meas)

/-- What the client that holds `m_write_mutex` does next. -/
inductive Client where
  /-- `if (m_cache->isFull())`. -/
  | entry (ms : List Meas)
  | atPoint (p : Point)
  | writeCache (p : Point)
  /-- `m_add_lock` of `AsyncWorker::add`. -/
  | add (p : Point)
  | push (p : Point)
  | unlock (p : Point)
  | getCache (p : Point)
  | pauseWork (seen : List Meas)
  /-- `pause_work` has returned. -/
  | paused (seen : List Meas)
  | leave

def Call.start : Call → Client
  | .append m => .atPoint (.append m)
  | .appendArray ms => .entry ms
  | .read seen => .writeCache (.read seen)

/-- What the writer does next: `_thread_func`, and within it `call` on a cache. -/
inductive Writer where
  | start
  /-- `while (m_data.empty())`. -/
  | check
  | wait
  /-- In the wait, without the lock. -/
  | waiting
  | lock
  | pop
  | unlock (i : Nat)
  | sort (i : Nat)
  | call (i : Nat) (output : List Meas)
  | createNewPage (i : Nat) (output : List Meas)
  | clear (i : Nat)
  | syncComplete (i : Nat)

structure Sys (P : PageStore) where
  pool : CachePool
  /-- `m_cache`. -/
  cache : Option Nat
  /-- `m_data`. -/
  data : List Nat
  writer : Writer
  /-- The pages before the current one. -/
  pages : List P.Page
  curpage : P.Page
  /-- `m_thread_lock`. -/
  threadLock : Option Party
  /-- `m_add_lock`. -/
  addLock : Option Party
  calls : List Call
  /-- The client that holds `m_write_mutex`. -/
  client : Option Client
  /-- The measurements that appends did not ignore. -/
  accepted : List Meas

/-- `Storage::Storage` and `Storage::Create`. -/
def Sys.init (P : PageStore) (poolSize cacheSize : Nat) : Sys P where
  pool := CachePool.create poolSize cacheSize
  cache := (CachePool.create poolSize cacheSize).getCache
  data := []
  writer := .start
  pages := []
  curpage := P.fresh
  threadLock := none
  addLock := none
  calls := []
  client := none
  accepted := []

variable {P : PageStore}

/-- The loop of `Storage::append` of one measurement. -/
def Client.afterAppend (m : Meas) (res : AppendResult) : Client :=
  if res.writed = 0 then .writeCache (.append m) else .leave

/-- The loop of `Storage::append` of an array. -/
def Client.afterAppendArray (ms : List Meas) (res : AppendResult) : Client :=
  if res.writed ≠ ms.length then .writeCache (.appendArray (ms.drop res.writed))
  else .atPoint (.appendArray (ms.drop res.writed))

/-- A turn of the loop of `AsyncWriter::call`. -/
def Writer.afterAppend (i : Nat) (output : List Meas) (writed : Nat) : Writer :=
  if writed ≠ output.length then .createNewPage i (output.drop writed) else .call i (output.drop writed)

/-- The cache with the measurements of its array sorted. -/
def sorted (S : TimeSort) (c : Cache) : Cache :=
  ⟨c.maxSize, S.sort c.meases, c.sync, by rw [(S.perm c.meases).length_eq]; exact c.fits⟩

/-- The steps of the clients. -/
inductive ClientStep : Sys P → Sys P → Prop
  | callAppend (s : Sys P) (m : Meas) : ClientStep s {s with calls := s.calls ++ [.append m]}
  | callAppendArray (s : Sys P) (ms : List Meas) : ClientStep s {s with calls := s.calls ++ [.appendArray ms]}
  | callRead (s : Sys P) : ClientStep s {s with calls := s.calls ++ [.read s.accepted]}
  | enter (s : Sys P) (before after : List Call) (c : Call) (h : s.calls = before ++ c :: after)
      (hfree : s.client = none) : ClientStep s {s with calls := before ++ after, client := some c.start}
  | append (s : Sys P) (m : Meas) (i : Nat) (now pastTime : Time) (h : s.client = some (.atPoint (.append m)))
      (hc : s.cache = some i) : ClientStep s {s with
        pool := s.pool.set i ((s.pool.cacheAt i).append m now pastTime).2
        client := some (.afterAppend m ((s.pool.cacheAt i).append m now pastTime).1)
        accepted := s.accepted ++
          if ((s.pool.cacheAt i).append m now pastTime).1.ignored = 0 then
            [m].take ((s.pool.cacheAt i).append m now pastTime).1.writed
          else []}
  | entry (s : Sys P) (ms : List Meas) (i : Nat) (h : s.client = some (.entry ms)) (hc : s.cache = some i) :
      ClientStep s {s with
        client := some (if (s.pool.cacheAt i).isFull then .writeCache (.appendArray ms)
          else .atPoint (.appendArray ms))}
  | appendArray (s : Sys P) (ms : List Meas) (i : Nat) (now : Nat → Time) (pastTime : Time)
      (h : s.client = some (.atPoint (.appendArray ms))) (hne : ms ≠ []) (hc : s.cache = some i) :
      ClientStep s {s with
        pool := s.pool.set i ((s.pool.cacheAt i).appendArray ms now pastTime).2
        client := some (.afterAppendArray ms ((s.pool.cacheAt i).appendArray ms now pastTime).1)
        accepted := s.accepted ++ Cache.admitted now pastTime 0
          (ms.take ((s.pool.cacheAt i).appendArray ms now pastTime).1.writed)}
  | appended (s : Sys P) (h : s.client = some (.atPoint (.appendArray []))) :
      ClientStep s {s with client := some .leave}
  | nothingToWrite (s : Sys P) (p : Point) (i : Nat) (h : s.client = some (.writeCache p)) (hc : s.cache = some i)
      (he : (s.pool.cacheAt i).meases = []) : ClientStep s {s with client := some (.atPoint p)}
  | syncBegin (s : Sys P) (p : Point) (i : Nat) (h : s.client = some (.writeCache p)) (hc : s.cache = some i)
      (he : (s.pool.cacheAt i).meases ≠ []) : ClientStep s {s with
        pool := s.pool.set i (s.pool.cacheAt i).syncBegin
        client := some (.add p)}
  | addLock (s : Sys P) (p : Point) (h : s.client = some (.add p)) (hl : s.addLock = none) :
      ClientStep s {s with addLock := some .client, client := some (.push p)}
  -- `m_cache` is the client's own: it is let go with the push
  | push (s : Sys P) (p : Point) (i : Nat) (h : s.client = some (.push p)) (hc : s.cache = some i) :
      ClientStep s {s with data := s.data ++ [i], cache := none, client := some (.unlock p)}
  | addUnlock (s : Sys P) (p : Point) (h : s.client = some (.unlock p)) :
      ClientStep s {s with addLock := none, client := some (.getCache p)}
  | getCache (s : Sys P) (p : Point) (i : Nat) (h : s.client = some (.getCache p))
      (hc : s.pool.getCache = some i) : ClientStep s {s with cache := some i, client := some (.atPoint p)}
  | notBusy (s : Sys P) (seen : List Meas) (h : s.client = some (.atPoint (.read seen))) (hb : s.data = []) :
      ClientStep s {s with client := some (.pauseWork seen)}
  | pauseWork (s : Sys P) (seen : List Meas) (h : s.client = some (.pauseWork seen)) (hl : s.threadLock = none) :
      ClientStep s {s with threadLock := some .client, client := some (.paused seen)}
  | continueWork (s : Sys P) (seen : List Meas) (h : s.client = some (.paused seen)) :
      ClientStep s {s with threadLock := none, client := some .leave}
  | leave (s : Sys P) (h : s.client = some .leave) : ClientStep s {s with client := none}

/-- The steps of the writer. -/
inductive WriterStep (S : TimeSort) : Sys P → Sys P → Prop
  | start (s : Sys P) (h : s.writer = .start) (hl : s.threadLock = none) :
      WriterStep S s {s with threadLock := some .writer, writer := .check}
  | empty (s : Sys P) (h : s.writer = .check) (hd : s.data = []) : WriterStep S s {s with writer := .wait}
  | haveData (s : Sys P) (h : s.writer = .check) (hd : s.data ≠ []) : WriterStep S s {s with writer := .lock}
  | wait (s : Sys P) (h : s.writer = .wait) : WriterStep S s {s with threadLock := none, writer := .waiting}
  | wake (s : Sys P) (h : s.writer = .waiting) (hl : s.threadLock = none) :
      WriterStep S s {s with threadLock := some .writer, writer := .check}
  | lock (s : Sys P) (h : s.writer = .lock) (hl : s.addLock = none) :
      WriterStep S s {s with addLock := some .writer, writer := .pop}
  | pop (s : Sys P) (i : Nat) (rest : List Nat) (h : s.writer = .pop) (hd : s.data = i :: rest) :
      WriterStep S s {s with data := rest, writer := .unlock i}
  | unlock (s : Sys P) (i : Nat) (h : s.writer = .unlock i) :
      WriterStep S s {s with addLock := none, writer := .sort i}
  | sort (s : Sys P) (i : Nat) (h : s.writer = .sort i) : WriterStep S s {s with
      pool := s.pool.set i (sorted S (s.pool.cacheAt i))
      writer := .call i (sorted S (s.pool.cacheAt i)).meases}
  | append (s : Sys P) (i : Nat) (output : List Meas) (h : s.writer = .call i output) (hne : output ≠ []) :
      WriterStep S s {s with
        curpage := (P.append output s.curpage).2
        writer := .afterAppend i output (P.append output s.curpage).1}
  | createNewPage (s : Sys P) (i : Nat) (output : List Meas) (h : s.writer = .createNewPage i output) :
      WriterStep S s {s with
        pages := s.pages ++ [s.curpage]
        curpage := P.fresh
        writer := .call i output}
  | written (s : Sys P) (i : Nat) (h : s.writer = .call i []) : WriterStep S s {s with writer := .clear i}
  | clear (s : Sys P) (i : Nat) (h : s.writer = .clear i) : WriterStep S s {s with
      pool := s.pool.set i (s.pool.cacheAt i).clear
      writer := .syncComplete i}
  | syncComplete (s : Sys P) (i : Nat) (h : s.writer = .syncComplete i) : WriterStep S s {s with
      pool := s.pool.set i (s.pool.cacheAt i).syncComplete
      writer := .check}

inductive Step (S : TimeSort) (s s' : Sys P) : Prop
  | client (h : ClientStep s s')
  | writer (h : WriterStep S s s')

/-- The states of all interleavings. -/
inductive Reachable (S : TimeSort) (poolSize cacheSize : Nat) : Sys P → Prop
  | init : Reachable S poolSize cacheSize (Sys.init P poolSize cacheSize)
  | step {s s' : Sys P} (h : Reachable S poolSize cacheSize s) (hs : Step S s s') :
      Reachable S poolSize cacheSize s'

/-! ### Where the measurements are -/

/-- The cache in the writer's hands. -/
def Writer.held : Writer → Option Nat
  | .unlock i | .sort i | .call i _ | .createNewPage i _ | .clear i | .syncComplete i => some i
  | _ => none

/-- What the pages hold. -/
def Sys.stored (s : Sys P) : List Meas := s.pages.flatMap P.contents ++ P.contents s.curpage

/-- What is left to write of the cache in the writer's hands. -/
def Writer.left (pool : CachePool) : Writer → List Meas
  | .unlock i | .sort i => (pool.cacheAt i).meases
  | .call _ output | .createNewPage _ output => output
  | _ => []

def Sys.left (s : Sys P) : List Meas := s.writer.left s.pool

/-- What the queued caches hold. -/
def Sys.queued (s : Sys P) : List Meas := s.data.flatMap fun i => (s.pool.cacheAt i).meases

/-- What `m_cache` holds. -/
def Sys.current (s : Sys P) : List Meas := s.cache.toList.flatMap fun i => (s.pool.cacheAt i).meases

end Pipeline
end Nkvdb
