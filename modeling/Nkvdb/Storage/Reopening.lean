import Nkvdb.Storage.Bounds
import Nkvdb.Storage.Reached

/-! Closing a storage and opening it again, for its readers.

Every page is as it was but for the mark that it is open, and a reader that opens a page sets this mark
itself. So each query has the same answer from the storage that is opened as from the one that was closed:
the same measurements in the same order, or the same failure. -/
namespace Nkvdb

/-! ### What a reader looks at -/

namespace StorageReader
variable {disk disk' : String → PageFile}

end StorageReader

namespace Storage
open Page

section
variable {ids : List Id} {source flag : Flag} {fromTime toTime tp : Time}

end

/-! ### What every page file says of its readers and its window -/

/-- Nobody reads the file, and its header counts the slots of its window. -/
structure Tidy (f : PageFile) : Prop where
  readers : f.header.readersCount = 0
  window : f.header.writeWindowSize = (f.windowFile.getD []).length

/-- The file with the count of its window. -/
def counted (f : PageFile) : PageFile :=
  {f with header := {f.header with writeWindowSize := (f.windowFile.getD []).length}}

/-- A page that is written to, and read by nobody. -/
structure Attended (p : Page) : Prop extends Reopens p where
  readers : p.header.readersCount = 0

section
variable {p p' : Page} {f : PageFile}

theorem Attended.run (h : Attended p) {op : Op} {r : AppendResult} (hrun : op.run p = .ok (r, p')) : Attended p' := by
  refine ⟨h.toReopens.run hrun, ?_⟩
  obtain ⟨-, k, q, ix, hacc, -, -, rfl⟩ := Op.run_iff.mp hrun
  obtain ⟨init, lo, hi, he⟩ := op.minMax_eq k q.header
  show (op.minMax k q.header).readersCount = 0
  rw [he]
  exact acceptAll_keeps (P := fun q => q.header.readersCount = 0) (fun _ _ _ _ hp => hp) hacc h.readers

theorem Attended.flush (h : Attended p) (hf : p.flushWriteWindow.flushIndex = .ok p') : Attended p' := by
  have hreopens := h.toReopens.flush hf
  obtain ⟨ix, -, rfl⟩ := Page.flushIndex_iff.mp hf
  exact ⟨hreopens, h.readers⟩

/-- Where the window is empty there is no file of it. -/
theorem Reopens.windowFile (h : Reopens p) :
    ((if p.writeWindow.length ≠ 0 then some p.writeWindow else p.windowFile).getD []).length =
      p.writeWindow.length := by
  by_cases hnil : p.writeWindow = []
  · rw [hnil, h.file hnil]
    rfl
  · rw [if_pos (List.length_pos_iff.mpr hnil).ne']
    rfl

theorem Attended.close (h : Attended p) (hc : p.close = .ok f) : Tidy f ∧ f.header.isOpen = false := by
  obtain ⟨ix, -, rfl⟩ := close_iff.mp hc
  exact ⟨⟨rfl, h.toReopens.windowFile.symm⟩, rfl⟩

/-- Flushed, the page has its files so too. -/
theorem Attended.onDisk (h : Attended p) (hf : p.flushWriteWindow.flushIndex = .ok p') : Tidy (onDisk p') := by
  obtain ⟨ix, -, rfl⟩ := Page.flushIndex_iff.mp hf
  exact ⟨h.readers, h.toReopens.windowFile.symm⟩

theorem Tidy.openFile (h : Tidy f) (ho : openFile f false = .ok p) : Tidy (Storage.onDisk p) ∧
    p.header.readersCount = 0 := by
  obtain ⟨-, -, w, -, rfl⟩ := openFile_iff.mp ho
  exact ⟨⟨h.readers, h.window⟩, h.readers⟩

end

/-- The current page and the others are ones of this kind, and `K` holds of the others. -/
def Tended (K : PageFile → Prop) (_ : List Meas) (pm : PageManager) : Prop :=
  (∃ p, pm.curpage = some p ∧ Attended p) ∧ ∀ f, f ∈ pm.files → Tidy f ∧ K f

theorem Tended.kept {K : PageFile → Prop} (hK : ∀ f : PageFile, f.header.isOpen = false → K f) :
    PageManager.Kept (Tended K) where
  append := by
    intro log pm p op r p' h hp hrun
    obtain ⟨⟨p₁, hp₁, ha⟩, hfiles⟩ := h
    obtain rfl := Option.some.inj (hp₁.symm.trans hp)
    exact ⟨⟨p', rfl, ha.run hrun⟩, hfiles⟩
  createNewPage := by
    intro log pm pm' h hc
    obtain ⟨⟨p, hp, ha⟩, hfiles⟩ := h
    obtain ⟨f, hf, rfl⟩ := (PageManager.createNewPage_iff hp).mp hc
    refine ⟨⟨_, rfl, ⟨rfl, ha.tracks, fun _ => rfl⟩, rfl⟩, fun g hg => ?_⟩
    rcases List.mem_append.mp hg with hg | hg
    · exact hfiles g hg
    · rw [List.mem_singleton.mp hg]
      exact ⟨(ha.close hf).1, hK f (ha.close hf).2⟩
  flush := by
    intro log pm p p' h hp hf
    obtain ⟨⟨p₁, hp₁, ha⟩, hfiles⟩ := h
    obtain rfl := Option.some.inj (hp₁.symm.trans hp)
    exact ⟨⟨p', rfl, ha.flush hf⟩, hfiles⟩

/-- The same between batches, when the files of the current page are up to date. -/
structure Quiet (pm : PageManager) : Prop where
  cur : ∃ p, pm.curpage = some p ∧ Tidy (onDisk p) ∧ p.header.readersCount = 0
  files : ∀ f, f ∈ pm.files → Tidy f ∧ f.header.isOpen = false

section
variable {S : TimeSort} {pm pm' closed : PageManager} {p : Page} {listing : List (Nat × PageFile)}

/-- After a batch the files of the current page are up to date. -/
theorem Tended.call {K : PageFile → Prop} {log data new : List Meas} {fuel : Nat} (h : Tended K log pm)
    (hK : ∀ f : PageFile, f.header.isOpen = false → K f) (hc : AsyncWriter.call S fuel data pm = .ok (new, pm')) :
    ∃ p, pm'.curpage = some p ∧ (Tidy (onDisk p) ∧ p.header.readersCount = 0) ∧
      ∀ f, f ∈ pm'.files → Tidy f ∧ K f := by
  obtain ⟨pm₁, q, q', hw, hq, hf, rfl⟩ := PageManager.call_spec hc
  obtain ⟨⟨q₁, hq₁, ha⟩, hfiles⟩ := (Tended.kept hK).sorted.writeLoop h (S.sorted _) hw
  obtain rfl := Option.some.inj (hq₁.symm.trans hq)
  exact ⟨q', rfl, ⟨ha.onDisk hf, (ha.flush hf).readers⟩, hfiles⟩

theorem mem_listing {files : List PageFile} (hlist : listing.Perm (named files)) {x : Nat × PageFile}
    (hx : x ∈ listing) : x.2 ∈ files := by
  have hperm := hlist.map Prod.snd
  rw [map_snd_named] at hperm
  exact hperm.mem_iff.mp (List.mem_map_of_mem hx)

theorem Quiet.tidy (h : Quiet pm) {f : PageFile} (hf : f ∈ pageFiles pm) : Tidy f := by
  obtain ⟨p, hp, htidy, -⟩ := h.cur
  rw [pageFiles_some hp] at hf
  rcases List.mem_append.mp hf with hf | hf
  · exact (h.files f hf).1
  · rwa [List.mem_singleton.mp hf]

end

end Storage
end Nkvdb
