import Nkvdb.BTree.WellFormed

/-! The index of a page (`index.h`, `index.cpp`, `bloom_filter.h`).

Records are buffered in `m_cache` and inserted into the tree of the mapped index file
by a flush. The tree's nodes and the header of the file are one value here. It has every node
that `make_node` hands out, also those that lie past the end of the file in the mapped memory;
`Page.nodesInFile` counts those that the file holds. -/
namespace Nkvdb

def bloomAdd (fltr val : U64) : U64 := fltr ||| val

def bloomCheck (fltr val : U64) : Bool := fltr &&& val == val

theorem bloomCheck_iff {fltr val : U64} :
    bloomCheck fltr val = true ↔ ∀ i, val.val.testBit i = true → fltr.val.testBit i = true := by
  have hand : (fltr &&& val).val = fltr.val &&& val.val :=
    Nat.mod_eq_of_lt (lt_of_le_of_lt Nat.and_le_left fltr.isLt)
  unfold bloomCheck
  rw [beq_iff_eq, Fin.ext_iff, hand]
  constructor
  · intro h i hi
    rw [← h, Nat.testBit_and] at hi
    exact (Bool.and_eq_true_iff.mp hi).1
  · intro h
    apply Nat.eq_of_testBit_eq
    intro i
    rw [Nat.testBit_and]
    cases hi : val.val.testBit i with
    | false => exact Bool.and_false _
    | true => rw [h i hi]; rfl

theorem testBit_bloomAdd (fltr val : U64) (i : Nat) :
    (bloomAdd fltr val).val.testBit i = (fltr.val.testBit i || val.val.testBit i) := by
  have hor : (fltr ||| val).val = fltr.val ||| val.val :=
    Nat.mod_eq_of_lt (Nat.or_lt_two_pow fltr.isLt val.isLt)
  unfold bloomAdd
  rw [hor, Nat.testBit_or]

/-- A value that was added passes. -/
theorem bloomCheck_added (fltr val : U64) : bloomCheck (bloomAdd fltr val) val = true := by
  apply bloomCheck_iff.mpr
  intro i hi
  rw [testBit_bloomAdd, hi, Bool.or_true]

/-- What passes still does after another was added. -/
theorem bloomCheck_add {fltr val : U64} (h : bloomCheck fltr val = true) (other : U64) :
    bloomCheck (bloomAdd fltr other) val = true := by
  apply bloomCheck_iff.mpr
  intro i hi
  rw [testBit_bloomAdd, bloomCheck_iff.mp h i hi, Bool.true_or]

/-- `utils::inInterval`. -/
def inInterval (fromTime toTime value : U64) : Bool := decide (fromTime ≤ value) && decide (value ≤ toTime)

/-- `Index::IndexRecord`: `count` measurements from `pos` on. -/
structure IndexRecord where
  pos : Nat
  count : Nat
  minTime : Time
  maxTime : Time
  minId : Id
  maxId : Id
  flgFltr : Flag
  srcFltr : Flag
  deriving DecidableEq, Inhabited

/-- `tree_N`. -/
def treeN : Nat := 10

abbrev IndexTree := BTree Time IndexRecord treeN

structure Index where
  /-- `m_cache.size()`. -/
  cacheSize : Nat
  /-- The records `m_cache` holds, `m_cache_pos` of them. -/
  cache : List IndexRecord
  tree : IndexTree

namespace Index

/-- `Index::Index` and `Index::setFileName` on a file that does not exist: the mapped memory, which
goes on past the end of the file. -/
def create (cacheSize fsize : Nat) : Index := ⟨cacheSize, [], BTree.init (fsize / (treeN * treeN))⟩

/-- `Index::setFileName` on a file that exists. What lay past its end is in `file` as it comes back,
which `PageFile.writtenBack` says. -/
def openFile (cacheSize : Nat) (file : IndexTree) : Index := ⟨cacheSize, [], file⟩

/-- What a record is inserted as. -/
def keyed (recs : List IndexRecord) : List (Time × IndexRecord) := recs.map fun r => (r.minTime, r)

def flush (ix : Index) : Except Fault Index :=
  if ix.cache = [] then .ok ix
  else match ix.tree.insertAll (keyed ix.cache) with
    | .ok t => .ok {ix with cache := [], tree := t}
    | .error (e, _) => .error e

def writeIndexRec (r : IndexRecord) (ix : Index) : Except Fault Index := do
  let ix ← if ix.cache.length = ix.cacheSize then ix.flush else .ok ix
  .ok {ix with cache := ix.cache ++ [r]}

def checkInterval (r : IndexRecord) (fromTime toTime : Time) : Bool :=
  inInterval fromTime toTime r.minTime || inInterval fromTime toTime r.maxTime ||
    inInterval r.minTime r.maxTime fromTime || inInterval r.minTime r.maxTime fromTime

/-- The tests `findInIndex` puts a record to. -/
def wanted (ids : List Id) (fromTime toTime : Time) (flag source : Flag) (r : IndexRecord) : Bool :=
  !(flag != 0 && r.flgFltr != 0 && !bloomCheck r.flgFltr flag) &&
    !(source != 0 && r.srcFltr != 0 && !bloomCheck r.srcFltr source) &&
    checkInterval r fromTime toTime &&
    (ids.isEmpty || inInterval (ids.foldl min (ids.headD 0)) (ids.foldl max (ids.headD 0)) r.minId ||
      inInterval (ids.foldl min (ids.headD 0)) (ids.foldl max (ids.headD 0)) r.maxId)

/-- `result` and `prev_value`, which is `none` while `first` is set. -/
abbrev Found := List IndexRecord × Option IndexRecord

/-- A wanted record joins `prev_value` if it begins where that ends. -/
def merge (found : Found) (r : IndexRecord) : Found :=
  match found.2 with
  | none => (found.1, some r)
  | some prev =>
    if prev.pos + prev.count = r.pos then (found.1, some {prev with count := prev.count + r.count})
    else (found.1 ++ [prev], some r)

/-- The loop over the values of one node. -/
def scanNode (want : IndexRecord → Bool) (n : BTree.Node Time IndexRecord) (found : Found) : Found :=
  ((n.live.map Prod.snd).filter want).foldl merge found

/-- The walk of `findInIndex` along `next`. -/
def walk (want : IndexRecord → Bool) (t : IndexTree) (stop : Nat) : Nat → Nat → Found → Except Fault Found
  | 0, _, _ => .error .outOfFuel
  | fuel + 1, cur, found =>
    if (t.cache cur).id ≠ (t.cache stop).id ∨ found.2 = none then
      let found := scanNode want (t.cache cur) found
      if (t.cache cur).next = 0 then .ok found else walk want t stop fuel (t.cache cur).next found
    else .ok found

def findInIndex (ids : List Id) (fromTime toTime : Time) (flag source : Flag) (ix : Index) :
    Except Fault (List IndexRecord × Index) := do
  let ix ← ix.flush
  let start ← ix.tree.findNode fromTime
  let stop ← ix.tree.findNode toTime
  let found ← walk (wanted ids fromTime toTime flag source) ix.tree stop ix.tree.cachePos start ([], none)
  .ok (found.1 ++ found.2.toList, ix)

/-- A search flushes the index. -/
theorem findInIndex_flush {ids : List Id} {fromTime toTime : Time} {flag source : Flag} {ix ix' : Index}
    {recs : List IndexRecord} (h : ix.findInIndex ids fromTime toTime flag source = .ok (recs, ix')) :
    ix.flush = .ok ix' := by
  obtain ⟨ix₁, hf, h⟩ := bind_ok h
  obtain ⟨start, -, h⟩ := bind_ok h
  obtain ⟨stop, -, h⟩ := bind_ok h
  obtain ⟨found, -, h⟩ := bind_ok h
  rw [hf, (Prod.mk.inj (Except.ok.inj h)).2]

/-! ### What the index has been given -/

/-- `recs` are the records written to an index that began with a file of `size` nodes:
some were inserted, in order, and the others are buffered. -/
def Logged (size : Nat) (recs : List IndexRecord) (ix : Index) : Prop :=
  ∃ done, (BTree.init size : IndexTree).insertAll (keyed done) = .ok ix.tree ∧ done ++ ix.cache = recs

@[simp] theorem keyed_append (a b : List IndexRecord) : keyed (a ++ b) = keyed a ++ keyed b :=
  List.map_append

theorem Logged.create (cacheSize fsize : Nat) : Logged (fsize / (treeN * treeN)) [] (create cacheSize fsize) :=
  ⟨[], rfl, rfl⟩

theorem insertAll_append (a b : List (Time × IndexRecord)) (t : IndexTree) :
    t.insertAll (a ++ b) = t.insertAll a >>= BTree.insertAll b := by
  induction a generalizing t with
  | nil => rfl
  | cons kv a ih =>
    obtain ⟨k, v⟩ := kv
    simp only [List.cons_append, BTree.insertAll, bind, Except.bind]
    cases t.insert k v with
    | error e => rfl
    | ok t => exact ih t

namespace Logged
variable {size : Nat} {recs : List IndexRecord} {ix ix' : Index}

theorem insertAll_eq {done : List IndexRecord}
    (ht : (BTree.init size : IndexTree).insertAll (keyed done) = .ok ix.tree) (hr : done ++ ix.cache = recs) :
    (BTree.init size : IndexTree).insertAll (keyed recs) = ix.tree.insertAll (keyed ix.cache) := by
  rw [← hr, keyed_append, insertAll_append, ht]
  rfl

/-- A flush inserts every record written. -/
theorem flush_ok (h : Logged size recs ix) (hf : ix.flush = .ok ix') :
    (BTree.init size : IndexTree).insertAll (keyed recs) = .ok ix'.tree ∧ ix'.cache = [] ∧
      ix'.cacheSize = ix.cacheSize := by
  obtain ⟨done, ht, hr⟩ := h
  rw [insertAll_eq ht hr]
  unfold flush at hf
  split at hf
  next he =>
    obtain rfl : ix = ix' := by simpa using hf
    rw [he]
    exact ⟨rfl, rfl, rfl⟩
  next =>
    split at hf
    next t hi =>
      obtain rfl : _ = ix' := by simpa using hf
      exact ⟨hi, rfl, rfl⟩
    next => cases hf

/-- A flush completes if the tree takes every record written. -/
theorem flush_iff (h : Logged size recs ix) : (∃ ix', ix.flush = .ok ix') ↔
    ∃ t, (BTree.init size : IndexTree).insertAll (keyed recs) = .ok t := by
  constructor
  · rintro ⟨ix', hf⟩
    exact ⟨ix'.tree, (h.flush_ok hf).1⟩
  · rintro ⟨t, hi⟩
    obtain ⟨done, ht, hr⟩ := h
    rw [insertAll_eq ht hr] at hi
    unfold flush
    split
    · exact ⟨ix, rfl⟩
    · rw [hi]
      exact ⟨_, rfl⟩

/-- The tree is one that inserts leave. -/
theorem sound (h : Logged size recs ix) : ∃ ht kvs, BTree.Shape ht 0 ix.tree ∧ BTree.Holds kvs ix.tree := by
  obtain ⟨done, ht, -⟩ := h
  obtain ⟨⟨ht', hs⟩, hq⟩ := BTree.insertAll_holds (by decide) (BTree.Shape.init size (by decide))
    (BTree.Holds.init size) ht
  exact ⟨ht', _, hs, hq⟩

theorem flush_fault (h : Logged size recs ix) {e : Fault} (hf : ix.flush = .error e) :
    e = .cacheIsFull ∨ e = .nullNode := by
  obtain ⟨ht, kvs, hs, hq⟩ := h.sound
  unfold Index.flush at hf
  split at hf
  · cases hf
  · split at hf
    · cases hf
    next f t hi =>
      obtain rfl : f = e := by simpa using hf
      exact BTree.insertAll_fault (by decide) hs hq hi

theorem flush (h : Logged size recs ix) (hf : ix.flush = .ok ix') : Logged size recs ix' := by
  obtain ⟨ht, hc, -⟩ := h.flush_ok hf
  exact ⟨recs, ht, by rw [hc, List.append_nil]⟩

theorem flush_again (h : Logged size recs ix) (hf : ix.flush = .ok ix') : ix'.flush = .ok ix' := by
  unfold Index.flush
  rw [if_pos (h.flush_ok hf).2.1]

theorem writeIndexRec {r : IndexRecord} (h : Logged size recs ix) (hw : ix.writeIndexRec r = .ok ix') :
    Logged size (recs ++ [r]) ix' ∧ ix'.cacheSize = ix.cacheSize := by
  have push : ∀ ix₁ : Index, Logged size recs ix₁ →
      Logged size (recs ++ [r]) {ix₁ with cache := ix₁.cache ++ [r]} := by
    rintro ix₁ ⟨done, ht, hr⟩
    exact ⟨done, ht, by rw [← hr, List.append_assoc]⟩
  unfold Index.writeIndexRec at hw
  split at hw
  · cases hf : ix.flush with
    | error e => rw [hf] at hw; cases hw
    | ok ix₁ =>
      rw [hf] at hw
      obtain rfl : _ = ix' := by simpa [bind, Except.bind] using hw
      exact ⟨push ix₁ (h.flush hf), (h.flush_ok hf).2.2⟩
  · obtain rfl : _ = ix' := by simpa [bind, Except.bind] using hw
    exact ⟨push ix h, rfl⟩

theorem writeIndexRec_fault {r : IndexRecord} (h : Logged size recs ix) {e : Fault}
    (hw : ix.writeIndexRec r = .error e) : e = .cacheIsFull ∨ e = .nullNode := by
  unfold Index.writeIndexRec at hw
  split at hw
  · cases hf : ix.flush with
    | error e' =>
      rw [hf] at hw
      obtain rfl : e' = e := by simpa [bind, Except.bind] using hw
      exact h.flush_fault hf
    | ok ix₁ => rw [hf] at hw; cases hw
  · cases hw

end Logged
end Index
end Nkvdb
