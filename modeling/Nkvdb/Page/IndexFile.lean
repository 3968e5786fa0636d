import Nkvdb.BTree.Size
import Nkvdb.Page.Capacity
import Nkvdb.Page.Records

/-! The end of an index file.

`setFileName` gives the file the bytes of a node for each hundred of what it is asked for, and `make_node` counts the
nodes from 1 up to that number. So the last node it hands out lies past the end of the file, and on a small page the
root does. The mapped memory takes what is stored there, but the file does not get it when it is written back. -/
namespace Nkvdb
open Page

/-! ### Trees -/

/-- The tree after its file was written back, which keeps the nodes below `held`. The others that were handed out
come back as something else. -/
def BTree.writtenBack {K V : Type} {N : Nat} (held : Nat) (lost : Nat → BTree.Node K V) (t : BTree K V N) :
    BTree K V N :=
  {t with cache := fun i => if held ≤ i ∧ i < t.cachePos then lost i else t.cache i}

theorem BTree.writtenBack_eq {K V : Type} {N held : Nat} {lost : Nat → BTree.Node K V} {t : BTree K V N}
    (h : t.cachePos ≤ held) : t.writtenBack held lost = t := by
  have hcache : (fun i => if held ≤ i ∧ i < t.cachePos then lost i else t.cache i) = t.cache :=
    funext fun i => if_neg fun hi => absurd (hi.1.trans_lt hi.2) (Nat.not_lt.mpr h)
  unfold writtenBack
  rw [hcache]

/-! ### Pages -/

namespace Page

/-- `sizeof(Index::IndexHeader)`. -/
def sizeofIndexHeader : Nat := 32

/-- `sizeof(IndexTree::Node)`. -/
def sizeofNode : Nat := 1648

/-- The bytes of the index file of a page, as `Index::setFileName` makes it. -/
def indexFileSize (fsize : U64) : Nat :=
  sizeofIndexHeader + (word (sizeofNode * (pageSizeToCount fsize / 10))).val / (treeN * treeN) + 1

/-- The nodes that lie in the file to their end, counted from node 0. -/
def nodesInFile (fsize : U64) : Nat := (indexFileSize fsize - sizeofIndexHeader) / sizeofNode

theorem nodesInFile_le (fsize : U64) : nodesInFile fsize ≤ indexNodes fsize := by
  have hwrap : (word (sizeofNode * (pageSizeToCount fsize / 10))).val ≤ sizeofNode * (pageSizeToCount fsize / 10) :=
    Nat.mod_le _ _
  unfold nodesInFile indexFileSize indexNodes sizeofNode sizeofIndexHeader treeN at *
  omega

end Page

/-- The index file holds every node of its tree. -/
def PageFile.IndexWhole (f : PageFile) : Prop := f.indexFile.cachePos ≤ nodesInFile f.header.size

instance (f : PageFile) : Decidable f.IndexWhole := inferInstanceAs (Decidable (_ ≤ _))

/-- The page file with its index file written back. -/
def PageFile.writtenBack (lost : Nat → BTree.Node Time IndexRecord) (f : PageFile) : PageFile :=
  {f with indexFile := f.indexFile.writtenBack (nodesInFile f.header.size) lost}

/-- The page that is open, after its index file was written back. -/
def Page.writtenBack (lost : Nat → BTree.Node Time IndexRecord) (p : Page) : Page :=
  {p with index := {p.index with tree := p.index.tree.writtenBack (nodesInFile p.header.size) lost}}

theorem PageFile.IndexWhole.writtenBack_eq {f : PageFile} (h : f.IndexWhole)
    (lost : Nat → BTree.Node Time IndexRecord) : f.writtenBack lost = f := by
  unfold PageFile.writtenBack
  rw [BTree.writtenBack_eq h]

theorem Page.writtenBack_eq {p : Page} (h : p.index.tree.cachePos ≤ nodesInFile p.header.size)
    (lost : Nat → BTree.Node Time IndexRecord) : p.writtenBack lost = p := by
  unfold Page.writtenBack
  rw [BTree.writtenBack_eq h]

/-! ### How many records the file is long enough for -/

namespace Page
variable {fsize : U64} {recs : List IndexRecord} {ix : Index}

/-- A tree takes a node for each nine records at most, and two. -/
theorem whole_of_lt (h : ix.Logged (indexNodes fsize) recs)
    (hfew : recs.length < (treeN - 1) * (nodesInFile fsize - 1)) :
    ix.tree.cachePos ≤ nodesInFile fsize := by
  obtain ⟨done, hok, hrecs⟩ := h
  have hle := BTree.insertAll_nodes (N := treeN) (by decide) hok
  have hdone : done.length ≤ recs.length := by
    rw [← hrecs, List.length_append]
    exact Nat.le_add_right _ _
  rw [Index.keyed, List.length_map] at hle
  unfold treeN at hle hfew
  omega

end Page
end Nkvdb
