import Nkvdb.Index.Find

/-! The index and its mapped file.

Between calls nothing is left of a tree but the nodes in the file and three fields of its
header; each flush and each search makes a tree object of them, and a flush puts the fields
that a tree changes back. However flushes, searches and reopenings fall between the records
written, the file is that of one tree that took them in order (`runAll_flush`). -/
namespace Nkvdb

/-- `index_file_format`. -/
def indexFileFormat : Nat := 3

/-- `Index::IndexHeader`. -/
structure IndexHeader where
  format : Nat
  cachePos : Nat
  rootPos : Nat
  cacheSize : Nat

/-- The mapped file: the header and the nodes after it. -/
structure IndexFile where
  header : IndexHeader
  data : Nat → BTree.Node Time IndexRecord

/-- `Index`, its file open. -/
structure MappedIndex where
  /-- `m_cache.size()`. -/
  cacheSize : Nat
  /-- The records `m_cache` holds, `m_cache_pos` of them. -/
  cache : List IndexRecord
  region : IndexFile

/-- `BTree::init_cache`. -/
def initCache (data : Nat → BTree.Node Time IndexRecord) : Nat → BTree.Node Time IndexRecord :=
  Function.update data 1 {data 1 with isLeaf := true, id := 1}

/-- `IndexTree tree(data, header->cache_size, header->root_pos, header->cache_pos)`. -/
def IndexFile.tree (f : IndexFile) : IndexTree :=
  ⟨f.data, f.header.cacheSize, f.header.cachePos, f.header.rootPos⟩

namespace MappedIndex

/-- `Index::setFileName`, on a file that does not exist or on one that does. -/
def setFileName (cacheSize fsize : Nat) : Option IndexFile → Except Fault MappedIndex
  | none => .ok ⟨cacheSize, [], ⟨indexFileFormat, 2, 1, fsize / (treeN * treeN)⟩, initCache fun _ => BTree.Node.zero⟩
  | some f => if f.header.format ≠ indexFileFormat then .error .pageFormat else .ok ⟨cacheSize, [], f⟩

def flush (ix : MappedIndex) : Except Fault MappedIndex :=
  if ix.cache = [] then .ok ix
  else match ix.region.tree.insertAll (Index.keyed ix.cache) with
    | .ok t => .ok {ix with
        cache := []
        region := ⟨{ix.region.header with rootPos := (t.cache t.root).id, cachePos := t.cachePos}, t.cache⟩}
    | .error (e, _) => .error e

def writeIndexRec (r : IndexRecord) (ix : MappedIndex) : Except Fault MappedIndex := do
  let ix ← if ix.cache.length = ix.cacheSize then ix.flush else .ok ix
  if ix.cache.length < ix.cacheSize then .ok {ix with cache := ix.cache ++ [r]} else .error .bufferOverflow

def findInIndex (ids : List Id) (fromTime toTime : Time) (flag source : Flag) (ix : MappedIndex) :
    Except Fault (List IndexRecord × MappedIndex) := do
  let ix ← ix.flush
  let start ← ix.region.tree.findNode fromTime
  let stop ← ix.region.tree.findNode toTime
  let found ← Index.walk (Index.wanted ids fromTime toTime flag source) ix.region.tree stop ix.region.tree.cachePos
    start ([], none)
  .ok (found.1 ++ found.2.toList, ix)

/-- `Index::close`: what is left is the file. -/
def close (ix : MappedIndex) : Except Fault IndexFile := do
  let ix ← ix.flush
  .ok ix.region

/-- A call on the index; `reopen` closes it and opens the file again. -/
inductive Call where
  | writeIndexRec (r : IndexRecord)
  | flush
  | findInIndex (ids : List Id) (fromTime toTime : Time) (flag source : Flag)
  | reopen (fsize : Nat)

def Call.run : Call → MappedIndex → Except Fault MappedIndex
  | .writeIndexRec r, ix => ix.writeIndexRec r
  | .flush, ix => ix.flush
  | .findInIndex ids fromTime toTime flag source, ix => do
    let (_, ix) ← ix.findInIndex ids fromTime toTime flag source
    .ok ix
  | .reopen fsize, ix => do
    let file ← ix.close
    setFileName ix.cacheSize fsize (some file)

def runAll : List Call → MappedIndex → Except Fault MappedIndex
  | [], ix => .ok ix
  | c :: cs, ix => do
    let ix ← c.run ix
    runAll cs ix

/-- The record that a call writes. -/
def Call.written : Call → List IndexRecord
  | .writeIndexRec r => [r]
  | _ => []

/-! ### The index over it -/

/-- The index with the file taken for the tree in it. -/
def toIndex (ix : MappedIndex) : Index := ⟨ix.cacheSize, ix.cache, ix.region.tree⟩

/-- `recs` have been written to an index with room for `room` of them, on a file that began
with `size` nodes. -/
structure Sound (room size : Nat) (recs : List IndexRecord) (ix : MappedIndex) : Prop where
  logged : Index.Logged size recs ix.toIndex
  cacheSize : ix.cacheSize = room
  fits : ix.cache.length ≤ room
  format : ix.region.header.format = indexFileFormat
  nodes : ix.region.header.cacheSize = size

theorem Sound.create (room fsize : Nat) : ∃ ix, setFileName room fsize none = .ok ix ∧
    Sound room (fsize / (treeN * treeN)) [] ix := by
  refine ⟨_, rfl, ⟨?_, rfl, Nat.zero_le _, rfl, rfl⟩⟩
  exact Index.Logged.create room fsize

/-- A root is stored under its own position, and the size of the cache never changes. -/
theorem insertAll_header {size : Nat} {kvs : List (Time × IndexRecord)} {t : IndexTree}
    (h : (BTree.init size : IndexTree).insertAll kvs = .ok t) :
    (t.cache t.root).id = t.root ∧ t.cacheSize = size := by
  have hkeeps : (∃ ht, BTree.Shape ht 0 t) ∧ t.cacheSize = size :=
    BTree.insertAll_carries (Q := fun t => t.cacheSize = size) (by decide)
      (fun _ _ _ _ _ _ _ hs _ hq => hs.cacheSize.trans hq) (fun _ _ _ _ _ _ hq => hq)
      (BTree.Shape.init size (by decide)) rfl h
  obtain ⟨⟨ht, hs⟩, hsize⟩ := hkeeps
  exact ⟨hs.ident t.root hs.root, hsize⟩

section
variable {room size : Nat} {recs : List IndexRecord} {ix : MappedIndex} {t : IndexTree}

/-- A flush leaves in the file the tree of the records written so far. -/
theorem Sound.flush (h : Sound room size recs ix)
    (hok : (BTree.init size : IndexTree).insertAll (Index.keyed recs) = .ok t) :
    ∃ ix', ix.flush = .ok ix' ∧ Sound room size recs ix' ∧ ix'.cache = [] ∧
      ix'.region = ⟨⟨indexFileFormat, t.cachePos, t.root, size⟩, t.cache⟩ := by
  obtain ⟨done, htree, hrecs⟩ := h.logged
  have hins : ix.region.tree.insertAll (Index.keyed ix.cache) = .ok t :=
    (Index.Logged.insertAll_eq htree hrecs).symm.trans hok
  obtain ⟨hid, hsize⟩ := insertAll_header hok
  have hdone : ∀ ix' : MappedIndex, ix'.cacheSize = ix.cacheSize → ix'.cache = [] →
      ix'.region = ⟨⟨indexFileFormat, t.cachePos, t.root, size⟩, t.cache⟩ → Sound room size recs ix' := by
    intro ix' hcs hnil hregion
    have ht : ix'.region.tree = t := by
      rw [hregion, ← hsize]
      rfl
    refine ⟨⟨recs, ?_, ?_⟩, hcs.trans h.cacheSize, ?_, by rw [hregion], by rw [hregion]⟩
    · exact hok.trans (congrArg _ ht.symm)
    · show recs ++ ix'.cache = recs
      rw [hnil, List.append_nil]
    · rw [hnil]
      exact Nat.zero_le _
  have hheader : ix.region.header = ⟨indexFileFormat, ix.region.header.cachePos, ix.region.header.rootPos, size⟩ := by
    rw [← h.format, ← h.nodes]
  unfold MappedIndex.flush
  by_cases hnil : ix.cache = []
  · rw [if_pos hnil]
    rw [hnil] at hins
    obtain rfl : ix.region.tree = t := Except.ok.inj hins
    have hregion : ix.region = ⟨⟨indexFileFormat, ix.region.tree.cachePos, ix.region.tree.root, size⟩,
        ix.region.tree.cache⟩ := by
      conv_lhs => rw [show ix.region = ⟨ix.region.header, ix.region.data⟩ from rfl, hheader]
      rfl
    exact ⟨ix, rfl, hdone ix rfl hnil hregion, hnil, hregion⟩
  · rw [if_neg hnil, hins]
    have hregion : (⟨{ix.region.header with rootPos := (t.cache t.root).id, cachePos := t.cachePos}, t.cache⟩ :
        IndexFile) = ⟨⟨indexFileFormat, t.cachePos, t.root, size⟩, t.cache⟩ := by
      rw [hheader, hid]
    exact ⟨_, rfl, hdone _ rfl rfl hregion, rfl, hregion⟩

/-- One call, when the tree takes what it writes too. -/
theorem Sound.call (h : Sound room size recs ix) (hroom : 1 ≤ room) {c : Call}
    (hok : ∃ t, (BTree.init size : IndexTree).insertAll (Index.keyed (recs ++ c.written)) = .ok t) :
    ∃ ix', c.run ix = .ok ix' ∧ Sound room size (recs ++ c.written) ix' := by
  obtain ⟨t, hok⟩ := hok
  rw [Index.keyed_append, Index.insertAll_append] at hok
  obtain ⟨t₁, ht₁, -⟩ := bind_ok hok
  obtain ⟨ix₁, hf, h₁, hnil, hregion⟩ := h.flush ht₁
  cases c with
  | writeIndexRec r =>
    have push : ∀ ix₂ : MappedIndex, Sound room size recs ix₂ → ix₂.cache.length < room →
        Sound room size (recs ++ [r]) {ix₂ with cache := ix₂.cache ++ [r]} := by
      intro ix₂ h₂ hlt
      obtain ⟨done, htree, hrecs⟩ := h₂.logged
      refine ⟨⟨done, htree, ?_⟩, h₂.cacheSize, ?_, h₂.format, h₂.nodes⟩
      · rw [← hrecs, List.append_assoc]
        rfl
      · rw [List.length_append]
        exact hlt
    show ∃ ix', ix.writeIndexRec r = .ok ix' ∧ Sound room size (recs ++ [r]) ix'
    unfold MappedIndex.writeIndexRec
    by_cases hfull : ix.cache.length = ix.cacheSize
    · have hlt : ix₁.cache.length < room := by
        rw [hnil]
        exact hroom
      rw [if_pos hfull, hf]
      refine ⟨_, ?_, push ix₁ h₁ hlt⟩
      simp only [bind, Except.bind]
      rw [if_pos (h₁.cacheSize.symm ▸ hlt)]
    · have hlt : ix.cache.length < room := by
        have := h.fits
        rw [h.cacheSize] at hfull
        omega
      rw [if_neg hfull]
      refine ⟨_, ?_, push ix h hlt⟩
      simp only [bind, Except.bind]
      rw [if_pos (h.cacheSize.symm ▸ hlt)]
  | flush =>
    refine ⟨ix₁, hf, ?_⟩
    rw [show recs ++ Call.flush.written = recs from List.append_nil recs]
    exact h₁
  | findInIndex ids fromTime toTime flag source =>
    have hself : ix₁.toIndex.flush = .ok ix₁.toIndex := by
      unfold Index.flush
      exact if_pos hnil
    -- the search is that of the index over the file
    obtain ⟨nodes, -, hfind⟩ := h₁.logged.findInIndex hself ids fromTime toTime flag source
    obtain ⟨ix₂, h₂, hfind⟩ := bind_ok hfind
    obtain rfl : ix₁.toIndex = ix₂ := Except.ok.inj (hself.symm.trans h₂)
    obtain ⟨start, hstart, hfind⟩ := bind_ok hfind
    obtain ⟨stop, hstop, hfind⟩ := bind_ok hfind
    obtain ⟨found, hwalk, -⟩ := bind_ok hfind
    replace hstart : ix₁.region.tree.findNode fromTime = .ok start := hstart
    replace hstop : ix₁.region.tree.findNode toTime = .ok stop := hstop
    replace hwalk : Index.walk (Index.wanted ids fromTime toTime flag source) ix₁.region.tree stop
        ix₁.region.tree.cachePos start ([], none) = .ok found := hwalk
    refine ⟨ix₁, ?_, ?_⟩
    · simp only [Call.run, MappedIndex.findInIndex, hf, hstart, hstop, hwalk, bind, Except.bind]
    · rw [show recs ++ (Call.findInIndex ids fromTime toTime flag source).written = recs from List.append_nil recs]
      exact h₁
  | reopen fsize =>
    refine ⟨ix₁, ?_, ?_⟩
    · have hsame : ix₁ = ⟨ix.cacheSize, [], ix₁.region⟩ := by
        rw [← hnil, h.cacheSize, ← h₁.cacheSize]
      simp only [Call.run, close, hf, bind, Except.bind, setFileName]
      rw [if_neg (not_not.mpr h₁.format), ← hsame]
    · rw [show recs ++ (Call.reopen fsize).written = recs from List.append_nil recs]
      exact h₁

/-- A run of calls, when the tree takes all that they write. -/
theorem Sound.calls (h : Sound room size recs ix) (hroom : 1 ≤ room) {calls : List Call}
    (hok : (BTree.init size : IndexTree).insertAll (Index.keyed (recs ++ calls.flatMap Call.written)) = .ok t) :
    ∃ ix', runAll calls ix = .ok ix' ∧ Sound room size (recs ++ calls.flatMap Call.written) ix' := by
  induction calls generalizing recs ix with
  | nil =>
    rw [List.flatMap_nil, List.append_nil]
    exact ⟨ix, rfl, h⟩
  | cons c cs ih =>
    rw [List.flatMap_cons, ← List.append_assoc] at hok ⊢
    have hcall := hok
    rw [Index.keyed_append, Index.insertAll_append] at hcall
    obtain ⟨t₁, ht₁, -⟩ := bind_ok hcall
    obtain ⟨ix₁, hrun, h₁⟩ := h.call hroom ⟨t₁, ht₁⟩
    obtain ⟨ix', hrest, h'⟩ := ih h₁ hok
    exact ⟨ix', by simp only [runAll, hrun, bind, Except.bind]; exact hrest, h'⟩

end

/-- Whatever flushes, searches and reopenings stand between them, the records written end up in
the file as one tree would hold them that took each once, in the order written: its nodes, its
root and its count of nodes. -/
theorem runAll_flush {room : Nat} (hroom : 1 ≤ room) (fsize : Nat) (calls : List Call) {t : IndexTree}
    (hok : (BTree.init (fsize / (treeN * treeN)) : IndexTree).insertAll
      (Index.keyed (calls.flatMap Call.written)) = .ok t) :
    ∃ ix, (setFileName room fsize none >>= runAll calls >>= flush) = .ok ix ∧
      ix.region.data = t.cache ∧ ix.region.header.rootPos = t.root ∧ ix.region.header.cachePos = t.cachePos := by
  obtain ⟨ix, hnew, h⟩ := Sound.create room fsize
  obtain ⟨ix₁, hrun, h₁⟩ := h.calls hroom hok
  obtain ⟨ix₂, hf, -, -, hregion⟩ := h₁.flush hok
  refine ⟨ix₂, ?_, ?_⟩
  · rw [hnew]
    show (runAll calls ix >>= MappedIndex.flush) = _
    rw [hrun]
    exact hf
  · rw [hregion]
    exact ⟨rfl, rfl, rfl⟩

/-- Three records through a buffer of one, with a search and a reopening between them. -/
theorem runAll_flush_three : ∃ (t : IndexTree) (ix : MappedIndex),
    (BTree.init 10 : IndexTree).insertAll
      (Index.keyed [⟨0, 1, 5, 5, 1, 1, 0, 0⟩, ⟨1, 1, 7, 7, 1, 1, 0, 0⟩, ⟨2, 1, 6, 6, 1, 1, 0, 0⟩]) = .ok t ∧
    (setFileName 1 1000 none >>= runAll
      [.writeIndexRec ⟨0, 1, 5, 5, 1, 1, 0, 0⟩, .writeIndexRec ⟨1, 1, 7, 7, 1, 1, 0, 0⟩, .findInIndex [] 0 9 0 0,
        .reopen 1000, .writeIndexRec ⟨2, 1, 6, 6, 1, 1, 0, 0⟩] >>= flush) = .ok ix ∧
      ix.region.data = t.cache ∧ ix.region.header.rootPos = t.root ∧ ix.region.header.cachePos = t.cachePos := by
  obtain ⟨ix, hix⟩ := runAll_flush le_rfl 1000
    [.writeIndexRec ⟨0, 1, 5, 5, 1, 1, 0, 0⟩, .writeIndexRec ⟨1, 1, 7, 7, 1, 1, 0, 0⟩, .findInIndex [] 0 9 0 0,
      .reopen 1000, .writeIndexRec ⟨2, 1, 6, 6, 1, 1, 0, 0⟩] rfl
  exact ⟨_, ix, rfl, hix⟩

end MappedIndex
end Nkvdb
