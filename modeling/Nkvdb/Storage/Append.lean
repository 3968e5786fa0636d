import Nkvdb.Cache
import Nkvdb.CurValues
import Nkvdb.PageManager

/-! Measurements on their way to the writer (`Storage::append`).

A full cache is handed to the writer, which brings what it is handed to the pages in that order, and
another one is taken: one that is free, and so empty. -/
namespace Nkvdb

structure Storage where
  /-- `m_cache`. -/
  cache : Cache
  /-- What was handed to `m_cache_writer`. -/
  handed : List (List Meas)
  /-- `m_cur_values`. -/
  curValues : CurValuesCache
  pastTime : Time

namespace Storage

/-- `Storage::Create`, with caches of this size. -/
protected def create (cacheSize : Nat) : Storage := ⟨Cache.create cacheSize, [], CurValuesCache.create, 0⟩

def writeCache (s : Storage) : Storage :=
  if s.cache.meases = [] then s
  else {s with cache := Cache.create s.cache.maxSize, handed := s.handed ++ [s.cache.meases]}

/-- `Storage::append` of one measurement; `clock i` is the reading that round `i` takes. -/
def append (m : Meas) : Nat → (Nat → Time) → Storage → Except Fault (AppendResult × Storage)
  | 0, _, _ => .error .outOfFuel
  | fuel + 1, clock, s =>
    let (res, cache) := s.cache.append m (clock 0) s.pastTime
    let s := {s with cache}
    if res.writed = 0 then s.writeCache.append m fuel fun i => clock (i + 1)
    else .ok (res, s)

/-- `Cache::append` of an array, with what it writes to `m_cur_values`. -/
def appendCache (ms : List Meas) (now : Nat → Time) (s : Storage) : AppendResult × Storage :=
  let (res, cache) := s.cache.appendArray ms now s.pastTime
  (res, {s with cache, curValues := s.curValues.writeValues (Cache.admitted now s.pastTime 0 (ms.take res.writed))})

/-- The loop of `Storage::append` of an array. -/
def appendLoop : Nat → (Nat → Nat → Time) → List Meas → Storage → Except Fault (AppendResult × Storage)
  | 0, _, _, _ => .error .outOfFuel
  | fuel + 1, clock, ms, s =>
    if ms = [] then .ok ({}, s)
    else do
      let (wrtRes, s) := s.appendCache ms (clock 0)
      let s := if wrtRes.writed ≠ ms.length then s.writeCache else s
      let (result, s) ← appendLoop fuel (fun i => clock (i + 1)) (ms.drop wrtRes.writed) s
      return (wrtRes.add result, s)

/-- `Storage::append` of an array. -/
def appendArray (ms : List Meas) (fuel : Nat) (clock : Nat → Nat → Time) (s : Storage) :
    Except Fault (AppendResult × Storage) :=
  appendLoop fuel clock ms (if s.cache.isFull then s.writeCache else s)

/-- A call of either. -/
inductive Call where
  | append (m : Meas)
  | appendArray (ms : List Meas)

def Call.meases : Call → List Meas
  | .append m => [m]
  | .appendArray ms => ms

/-- The measurements of an array. -/
def Call.array : Call → List Meas
  | .append _ => []
  | .appendArray ms => ms

def Call.run (fuel : Nat) (clock : Nat → Nat → Time) : Call → Storage → Except Fault (AppendResult × Storage)
  | .append m, s => s.append m fuel fun i => clock i 0
  | .appendArray ms, s => s.appendArray ms fuel clock

/-- The calls one after the other, and what they report together. -/
def runAll (fuel : Nat) : (Nat → Nat → Nat → Time) → List Call → Storage → Except Fault (AppendResult × Storage)
  | _, [], s => .ok ({}, s)
  | clock, c :: calls, s => do
    let (res, s) ← c.run fuel (clock 0) s
    let (result, s) ← runAll fuel (fun i => clock (i + 1)) calls s
    return (res.add result, s)

/-- What the writer brings to the pages once the last cache is handed over as well. -/
def flush (S : TimeSort) (fuel : Nat) (pm : PageManager) (s : Storage) : Except Fault (List Meas × PageManager) :=
  PageManager.runAll S fuel (s.writeCache.handed.map .call) pm

/-! ### Where the measurements are -/

/-- Those appended are in the caches handed over, which were full, and in the one in use. -/
structure Holds (size : Nat) (log : List Meas) (s : Storage) : Prop where
  all : s.handed.flatten ++ s.cache.meases = log
  whole : ∀ b, b ∈ s.handed → b.length = size
  maxSize : s.cache.maxSize = size
  pastTime : s.pastTime = 0

namespace Holds
variable {size : Nat} {log : List Meas} {s : Storage}

theorem create (size : Nat) : Holds size [] (Storage.create size) :=
  ⟨rfl, fun _ hb => absurd hb List.not_mem_nil, rfl, rfl⟩

/-- A full cache is followed by an empty one. -/
theorem writeCache (h : Holds size log s) (hsize : 0 < size) (hfull : s.cache.meases.length = size) :
    Holds size log s.writeCache ∧ s.writeCache.cache.meases = [] ∧ s.writeCache.curValues = s.curValues := by
  have hne : s.cache.meases ≠ [] := List.ne_nil_of_length_pos (by omega)
  have heq : s.writeCache = {s with cache := Cache.create s.cache.maxSize, handed := s.handed ++ [s.cache.meases]} :=
    if_neg hne
  rw [heq]
  refine ⟨⟨?_, fun b hb => ?_, h.maxSize, h.pastTime⟩, rfl, rfl⟩
  · simpa [Cache.create] using h.all
  · rcases List.mem_append.mp hb with hb | hb
    · exact h.whole b hb
    · rw [List.mem_singleton.mp hb, hfull]

end Holds

theorem admitted_zero (now : Nat → Time) (i : Nat) (ms : List Meas) : Cache.admitted now 0 i ms = ms := by
  induction ms generalizing i with
  | nil => rfl
  | cons m ms ih =>
    have hcheck : checkPastTime (now i) m.time 0 = true := rfl
    rw [Cache.admitted, if_pos hcheck, ih]

section
variable {size : Nat} {log : List Meas} {s : Storage}

/-- A measurement for which there is room. -/
theorem append_room (h : Holds size log s) (hroom : s.cache.meases.length < size) (m : Meas) (fuel : Nat)
    (clock : Nat → Time) : ∃ s', s.append m (fuel + 1) clock = .ok (⟨1, 0⟩, s') ∧ Holds size (log ++ [m]) s' ∧
      s'.curValues = s.curValues := by
  have hcheck : checkPastTime (clock 0) m.time s.pastTime = true := by
    rw [h.pastTime]
    rfl
  have hne : s.cache.meases.length ≠ s.cache.maxSize := by
    rw [h.maxSize]
    exact hroom.ne
  simp only [append, Cache.append, hcheck, Bool.not_true, Bool.false_eq_true, if_false, dif_neg hne, one_ne_zero]
  refine ⟨_, rfl, ⟨?_, h.whole, h.maxSize, h.pastTime⟩, rfl⟩
  rw [← List.append_assoc, h.all]

theorem append_spec (h : Holds size log s) (hsize : 0 < size) (m : Meas) {fuel : Nat} (hf : 2 ≤ fuel)
    (clock : Nat → Time) : ∃ s', s.append m fuel clock = .ok (⟨1, 0⟩, s') ∧ Holds size (log ++ [m]) s' ∧
      s'.curValues = s.curValues := by
  obtain ⟨fuel, rfl⟩ : ∃ n, fuel = n + 2 := ⟨fuel - 2, by omega⟩
  have hle := h.maxSize ▸ s.cache.fits
  rcases hle.lt_or_eq with hroom | hfull
  · exact append_room h hroom m (fuel + 1) clock
  · have hcheck : checkPastTime (clock 0) m.time s.pastTime = true := by
      rw [h.pastTime]
      rfl
    have heq : s.cache.meases.length = s.cache.maxSize := hfull.trans h.maxSize.symm
    obtain ⟨hnext, hempty, hvalues⟩ := h.writeCache hsize hfull
    have hroom : s.writeCache.cache.meases.length < size := by
      rw [hempty]
      exact hsize
    obtain ⟨s', hrun, hs', hv⟩ := append_room hnext hroom m fuel fun i => clock (i + 1)
    refine ⟨s', ?_, hs', hv.trans hvalues⟩
    rw [append]
    simpa only [Cache.append, hcheck, Bool.not_true, Bool.false_eq_true, if_false, dif_pos heq, if_true] using hrun

/-- A round of an array's loop writes as much as there is room for. -/
theorem appendCache_spec (h : Holds size log s) (ms : List Meas) (now : Nat → Time) :
    ∃ k s', k = min (size - s.cache.meases.length) ms.length ∧ s.appendCache ms now = (⟨k, 0⟩, s') ∧
      Holds size (log ++ ms.take k) s' ∧ s'.cache.meases.length = s.cache.meases.length + k ∧
      s'.curValues = s.curValues.writeValues (ms.take k) := by
  obtain ⟨k, hk⟩ : ∃ k, k = min (size - s.cache.meases.length) ms.length := ⟨_, rfl⟩
  have hroom : min (s.cache.maxSize - s.cache.meases.length) ms.length = k := by rw [h.maxSize, hk]
  have hadmitted : Cache.admitted now s.pastTime 0 (ms.take k) = ms.take k := by rw [h.pastTime, admitted_zero]
  have hlen : (ms.take k).length = k := by
    rw [List.length_take]
    omega
  have hres : (s.appendCache ms now).1 = ⟨k, 0⟩ := by
    show (⟨min (s.cache.maxSize - s.cache.meases.length) ms.length, _⟩ : AppendResult) = _
    rw [hroom, hadmitted, hlen, Nat.sub_self]
  have hmeases : (s.appendCache ms now).2.cache.meases = s.cache.meases ++ ms.take k := by
    show s.cache.meases ++ Cache.admitted now s.pastTime 0 (ms.take (min (s.cache.maxSize - _) ms.length)) = _
    rw [hroom, hadmitted]
  have hvalues : (s.appendCache ms now).2.curValues = s.curValues.writeValues (ms.take k) := by
    show s.curValues.writeValues (Cache.admitted now s.pastTime 0 (ms.take (min (s.cache.maxSize - _) ms.length))) = _
    rw [hroom, hadmitted]
  refine ⟨k, _, hk, Prod.ext hres rfl, ⟨?_, h.whole, h.maxSize, h.pastTime⟩, ?_, hvalues⟩
  · rw [hmeases, ← List.append_assoc]
    exact congrArg (· ++ _) h.all
  · rw [hmeases, List.length_append, hlen]

/-- The loop ends: each round but the first writes something, and the last all that is left. -/
theorem appendLoop_spec (hsize : 0 < size) {ms : List Meas} {fuel : Nat} (hf : ms.length < fuel)
    (h : Holds size log s) (hroom : s.cache.meases.length < size) (clock : Nat → Nat → Time) :
    ∃ s', appendLoop fuel clock ms s = .ok (⟨ms.length, 0⟩, s') ∧ Holds size (log ++ ms) s' ∧
      s'.curValues = s.curValues.writeValues ms := by
  induction fuel generalizing ms log s clock with
  | zero => exact absurd hf (Nat.not_lt_zero _)
  | succ fuel ih =>
    by_cases hnil : ms = []
    · subst hnil
      exact ⟨s, rfl, by rwa [List.append_nil], rfl⟩
    have hpos := List.length_pos_of_ne_nil hnil
    obtain ⟨k, s₁, hk, hrun, h₁, hlen, hv₁⟩ := appendCache_spec h ms (clock 0)
    by_cases hall : k = ms.length
    -- the rest is empty, whatever room there is
    · rw [hall, List.take_length] at h₁ hv₁
      have hdone : appendLoop fuel (fun i => clock (i + 1)) [] s₁ = .ok ({}, s₁) := by
        obtain ⟨fuel, rfl⟩ : ∃ n, fuel = n + 1 := ⟨fuel - 1, by omega⟩
        rfl
      refine ⟨s₁, ?_, h₁, hv₁⟩
      rw [appendLoop, if_neg hnil, hrun]
      simp only [hall, ne_eq, not_true, if_false, List.drop_length, hdone]
      rfl
    · obtain ⟨h₂, hempty, hv₂⟩ := h₁.writeCache hsize (by omega)
      have hroom₂ : s₁.writeCache.cache.meases.length < size := by rwa [hempty]
      have hshort : (ms.drop k).length < fuel := by
        rw [List.length_drop]
        omega
      obtain ⟨s', hrest, h', hv'⟩ := ih hshort h₂ hroom₂ fun i => clock (i + 1)
      refine ⟨s', ?_, ?_, ?_⟩
      · rw [appendLoop, if_neg hnil, hrun]
        simp only [ne_eq, hall, not_false_eq_true, if_true, hrest]
        have hsum : k + (ms.length - k) = ms.length := by omega
        show Except.ok ((⟨k + (ms.drop k).length, 0⟩ : AppendResult), s') = _
        rw [List.length_drop, hsum]
      · rwa [List.append_assoc, List.take_append_drop] at h'
      · rw [hv', hv₂, hv₁, ← CurValuesCache.writeValues_append, List.take_append_drop]

theorem appendArray_spec (h : Holds size log s) (hsize : 0 < size) {ms : List Meas} {fuel : Nat} (hf : ms.length < fuel)
    (clock : Nat → Nat → Time) : ∃ s', s.appendArray ms fuel clock = .ok (⟨ms.length, 0⟩, s') ∧
      Holds size (log ++ ms) s' ∧ s'.curValues = s.curValues.writeValues ms := by
  have hle := h.maxSize ▸ s.cache.fits
  rcases hle.lt_or_eq with hroom | hfull
  · have hnot : s.cache.isFull = false := by
      rw [Cache.isFull, h.maxSize]
      exact beq_eq_false_iff_ne.mpr hroom.ne
    rw [appendArray, hnot, if_neg Bool.false_ne_true]
    exact appendLoop_spec hsize hf h hroom clock
  · have his : s.cache.isFull = true := by
      rw [Cache.isFull, h.maxSize]
      exact beq_iff_eq.mpr hfull
    obtain ⟨hnext, hempty, hvalues⟩ := h.writeCache hsize hfull
    rw [appendArray, his, if_pos rfl, ← hvalues]
    exact appendLoop_spec hsize hf hnext (by rwa [hempty]) clock

/-- What a call does to the caches does not depend on which of the two it is. -/
theorem Call.run_spec (h : Holds size log s) (hsize : 0 < size) (c : Call) {fuel : Nat}
    (hf : c.meases.length + 1 < fuel) (clock : Nat → Nat → Time) :
    ∃ s', c.run fuel clock s = .ok (⟨c.meases.length, 0⟩, s') ∧ Holds size (log ++ c.meases) s' ∧
      s'.curValues = s.curValues.writeValues c.array := by
  cases c with
  | append m => exact append_spec h hsize m (by omega) _
  | appendArray ms => exact appendArray_spec h hsize (Nat.lt_of_succ_lt hf) clock

theorem runAll_spec (hsize : 0 < size) {calls : List Call} {fuel : Nat}
    (hf : (calls.flatMap Call.meases).length + 1 < fuel) (h : Holds size log s) (clock : Nat → Nat → Nat → Time) :
    ∃ s', runAll fuel clock calls s = .ok (⟨(calls.flatMap Call.meases).length, 0⟩, s') ∧
      Holds size (log ++ calls.flatMap Call.meases) s' ∧
      s'.curValues = s.curValues.writeValues (calls.flatMap Call.array) := by
  induction calls generalizing log s clock with
  | nil => exact ⟨s, rfl, by rwa [List.flatMap_nil, List.append_nil], rfl⟩
  | cons c calls ih =>
    rw [List.flatMap_cons, List.length_append] at hf
    have hc : c.meases.length + 1 < fuel := by omega
    obtain ⟨s₁, hrun, h₁, hv₁⟩ := c.run_spec h hsize hc (clock 0)
    obtain ⟨s', hrest, h', hv'⟩ := ih (by omega) h₁ fun i => clock (i + 1)
    refine ⟨s', ?_, ?_, ?_⟩
    · rw [runAll, hrun]
      simp only [bind, Except.bind, hrest]
      rw [AppendResult.add, List.flatMap_cons, List.length_append]
      rfl
    · rwa [List.flatMap_cons, ← List.append_assoc]
    · rw [hv', hv₁, ← CurValuesCache.writeValues_append, List.flatMap_cons]

end

/-! ### Splits of one list -/

section
variable {α : Type} {size : Nat}

/-- A block that is all of a list no longer than it. -/
theorem block_last (hsize : 0 < size) {b rest rest' : List α} {blocks : List (List α)}
    (h : ∀ x, x ∈ b :: blocks → x.length = size) (hr : rest.length ≤ size)
    (heq : rest = (b :: blocks).flatten ++ rest') : rest = b ∧ blocks = [] ∧ rest' = [] := by
  have hb := h b List.mem_cons_self
  have hlen := congrArg List.length heq
  rw [List.flatten_cons, List.append_assoc, List.length_append, List.length_append] at hlen
  have hnone : blocks = [] := by
    cases blocks with
    | nil => rfl
    | cons x blocks =>
      have hx := h x (List.mem_cons_of_mem _ List.mem_cons_self)
      rw [List.flatten_cons, List.length_append] at hlen
      omega
  have hrest : rest' = [] := List.eq_nil_of_length_eq_zero (by omega)
  subst hnone hrest
  exact ⟨by simpa using heq, rfl, rfl⟩

/-- Blocks of one size, and the rest that is no longer than they are, are found in what they
make together, but for a rest that is a block itself. -/
theorem blocks_unique (hsize : 0 < size) {blocks blocks' : List (List α)} {rest rest' : List α}
    (h : ∀ b, b ∈ blocks → b.length = size) (h' : ∀ b, b ∈ blocks' → b.length = size) (hr : rest.length ≤ size)
    (hr' : rest'.length ≤ size) (heq : blocks.flatten ++ rest = blocks'.flatten ++ rest') :
    (if rest = [] then blocks else blocks ++ [rest]) = if rest' = [] then blocks' else blocks' ++ [rest'] := by
  induction blocks generalizing blocks' with
  | nil =>
    cases blocks' with
    | nil =>
      obtain rfl : rest = rest' := heq
      rfl
    | cons b blocks' =>
      obtain ⟨rfl, rfl, rfl⟩ := block_last hsize h' hr heq
      have hne : rest ≠ [] := List.ne_nil_of_length_pos (by rw [h' rest List.mem_cons_self]; exact hsize)
      rw [if_neg hne, if_pos rfl, List.nil_append]
  | cons b blocks ih =>
    have hb := h b List.mem_cons_self
    cases blocks' with
    | nil =>
      obtain ⟨rfl, rfl, rfl⟩ := block_last hsize h hr' heq.symm
      have hne : rest' ≠ [] := List.ne_nil_of_length_pos (by rw [hb]; exact hsize)
      rw [if_neg hne, if_pos rfl, List.nil_append]
    | cons b' blocks' =>
      rw [List.flatten_cons, List.flatten_cons, List.append_assoc, List.append_assoc] at heq
      obtain ⟨rfl, htail⟩ := List.append_inj heq (hb.trans (h' b' List.mem_cons_self).symm)
      have hrest := ih (fun x hx => h x (List.mem_cons_of_mem _ hx)) (fun x hx => h' x (List.mem_cons_of_mem _ hx))
        htail
      have hcons : ∀ (bs : List (List α)) (r : List α), (if r = [] then b :: bs else b :: bs ++ [r]) =
          b :: if r = [] then bs else bs ++ [r] := by
        intro bs r
        by_cases hr : r = []
        · rw [if_pos hr, if_pos hr]
        · rw [if_neg hr, if_neg hr, List.cons_append]
      rw [hcons, hcons, hrest]

end

/-- The caches handed over in the end depend on what was appended alone. -/
theorem Holds.handed_eq {size : Nat} {log : List Meas} {s s' : Storage} (h : Holds size log s) (h' : Holds size log s')
    (hsize : 0 < size) : s.writeCache.handed = s'.writeCache.handed := by
  have hle := h.maxSize ▸ s.cache.fits
  have hle' := h'.maxSize ▸ s'.cache.fits
  have heq := blocks_unique hsize h.whole h'.whole hle hle' (h.all.trans h'.all.symm)
  have hhanded : ∀ s : Storage, s.writeCache.handed =
      if s.cache.meases = [] then s.handed else s.handed ++ [s.cache.meases] := by
    intro s
    rw [Storage.writeCache, apply_ite handed]
  rw [hhanded, hhanded, heq]

/-- All that is handed over comes to the pages. -/
theorem runAll_perm {S : TimeSort} {fuel : Nat} {batches : List (List Meas)} {log : List Meas} {pm pm' : PageManager}
    (hr : PageManager.runAll S fuel (batches.map .call) pm = .ok (log, pm')) : log.Perm batches.flatten := by
  have hsorted : List.Forall₂ List.Perm (batches.map S.sort) batches :=
    List.forall₂_map_left_iff.mpr (List.forall₂_same.mpr fun b _ => S.perm b)
  rw [PageManager.calls_eq hr]
  exact List.Perm.flatten_congr hsorted

/-- With the last cache handed over, what comes to the pages is what was appended. -/
theorem Holds.flush_perm {size : Nat} {log stored : List Meas} {s : Storage} (h : Holds size log s) {S : TimeSort}
    {fuel : Nat} {pm pm' : PageManager} (hf : s.flush S fuel pm = .ok (stored, pm')) : stored.Perm log := by
  have hall : s.writeCache.handed.flatten = log := by
    rw [← h.all, Storage.writeCache]
    by_cases hnil : s.cache.meases = []
    · rw [if_pos hnil, hnil, List.append_nil]
    · rw [if_neg hnil]
      simp
  exact hall ▸ runAll_perm hf

/-- What two ways of appending leave alike: what they report, what the writer makes of it on any
pages, and the answers to every query of current values. -/
structure Agree (x y : AppendResult × Storage) : Prop where
  result : x.1 = y.1
  stored : ∀ S fuel pm, x.2.flush S fuel pm = y.2.flush S fuel pm
  curValues : ∀ ids, x.2.curValues.readValue ids = y.2.curValues.readValue ids

/-- The same list in two splits: both end, and what comes to the pages is the list. They agree if
and only if for each id the arrays of both have the same last measurement, where that of an id
without one is the empty one. -/
theorem appends_agree_iff {cacheSize : Nat} (hsize : 0 < cacheSize) (calls calls' : List Call)
    (hsame : calls.flatMap Call.meases = calls'.flatMap Call.meases) {fuel : Nat}
    (hf : (calls.flatMap Call.meases).length + 1 < fuel) (clock clock' : Nat → Nat → Nat → Time) :
    ∃ x y, runAll fuel clock calls (Storage.create cacheSize) = .ok x ∧
      runAll fuel clock' calls' (Storage.create cacheSize) = .ok y ∧
      (∀ S fuel pm stored pm', x.2.flush S fuel pm = .ok (stored, pm') → stored.Perm (calls.flatMap Call.meases)) ∧
      (Agree x y ↔ ∀ id, (CurValuesCache.last id (calls.flatMap Call.array)).getD Meas.empty =
        (CurValuesCache.last id (calls'.flatMap Call.array)).getD Meas.empty) := by
  obtain ⟨s, hrun, hs, hv⟩ := runAll_spec hsize hf (.create cacheSize) clock
  obtain ⟨s', hrun', hs', hv'⟩ := runAll_spec hsize (hsame ▸ hf) (.create cacheSize) clock'
  refine ⟨_, _, hrun, hrun', fun S fuel pm stored pm' => hs.flush_perm, ?_⟩
  have hvalues : ∀ (t : Storage) (cs : List Call),
      t.curValues = CurValuesCache.create.writeValues (cs.flatMap Call.array) → ∀ id,
        t.curValues.values id = CurValuesCache.last id (cs.flatMap Call.array) := by
    intro t cs ht id
    rw [ht, CurValuesCache.values_writeValues]
    exact Option.or_none
  have hiff := CurValuesCache.readValue_eq_iff s.curValues s'.curValues
  simp only [hvalues s calls hv, hvalues s' calls' hv'] at hiff
  rw [← hiff]
  refine ⟨Agree.curValues, fun h => ⟨by rw [hsame], fun S fuel pm => ?_, h⟩⟩
  rw [flush, flush, hs.handed_eq (hsame ▸ hs') hsize]

theorem appends_agree_iff_two : ∃ x y,
    runAll 4 (fun _ _ _ => 0) [.append (.plain 1 5), .appendArray [.plain 1 6]] (Storage.create 1) = .ok x ∧
      runAll 4 (fun _ _ _ => 0) [.appendArray [.plain 1 5, .plain 1 6]] (Storage.create 1) = .ok y ∧ Agree x y := by
  obtain ⟨x, y, hx, hy, -, h⟩ := appends_agree_iff Nat.zero_lt_one [.append (.plain 1 5), .appendArray [.plain 1 6]]
    [.appendArray [.plain 1 5, .plain 1 6]] rfl (show 2 + 1 < 4 by decide) (fun _ _ _ => 0) fun _ _ _ => 0
  refine ⟨x, y, hx, hy, h.mpr fun id => ?_⟩
  show (CurValuesCache.last id ([] ++ [.plain 1 6])).getD Meas.empty =
    (CurValuesCache.last id ([.plain 1 5] ++ [.plain 1 6])).getD Meas.empty
  rw [CurValuesCache.last_append_singleton, CurValuesCache.last_append_singleton,
    ← List.nil_append [Meas.plain 1 5], CurValuesCache.last_append_singleton]
  by_cases hid : (Meas.plain 1 6).id = id
  · rw [if_pos hid, if_pos hid]
  · have hid' : ¬ (Meas.plain 1 5).id = id := hid
    rw [if_neg hid, if_neg hid, if_neg hid']

/-- One measurement: appended alone it is no current value, appended as an array it is. -/
theorem append_not_current : ∃ x y, runAll 3 (fun _ _ _ => 0) [.append (.plain 1 5)] (Storage.create 10000) = .ok x ∧
    runAll 3 (fun _ _ _ => 0) [.appendArray [.plain 1 5]] (Storage.create 10000) = .ok y ∧
    x.2.curValues.readValue [1] = [Meas.empty] ∧ y.2.curValues.readValue [1] = [.plain 1 5] ∧ ¬ Agree x y := by
  refine ⟨_, _, rfl, rfl, rfl, rfl, fun h => ?_⟩
  exact absurd (h.curValues [1]) (by decide)

end Storage
end Nkvdb
