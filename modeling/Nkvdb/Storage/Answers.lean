import Nkvdb.Storage.Honest
import Nkvdb.Storage.Running

/-! What a running storage answers, after any number of sessions.

Clients and the writer take their steps in any order, over pages that earlier sessions have left. Between two
batches these pages are those of some batches, one after the other, so a query has all that was written in the
sessions before and by these batches, and nothing else. -/
namespace Nkvdb

/-- Batches go on with a storage. -/
theorem Storage.Survived.calls {S : TimeSort} {fsize : U64} {fuel : Nat} {all log : List Meas}
    {batches : List (List Meas)} {pm pm' : PageManager} (h : Storage.Survived S fsize all pm)
    (hrun : PageManager.runAll S fuel (batches.map .call) pm = .ok (log, pm')) :
    Storage.Survived S fsize (all ++ log) pm' := by
  induction batches generalizing all pm log with
  | nil =>
    obtain ⟨rfl, rfl⟩ := Prod.mk.inj (Except.ok.inj hrun)
    rwa [List.append_nil]
  | cons data batches ih =>
    obtain ⟨new, pm₁, rest, hcall, hrest, rfl⟩ := PageManager.runAll_cons hrun
    rw [← List.append_assoc]
    exact ih (h.call hcall) hrest

namespace Running
open Storage

variable {S : TimeSort} {poolSize cacheSize : Nat} {pm₀ : PageManager} {r : Running}

/-- With values of one size that pages stack, and index files that hold all their nodes: a query that is answered
between two batches has what was written in the sessions before and by the batches so far, which is all that was
accepted and does not wait; a read that has paused the writer has all that was accepted before it began. Beginning
before all times and ending after them it delivers each measurement once, and no query delivers anything else but the
empty slots of a window. -/
theorem running_read {valueSize : Nat} (hvalue : valueSize ≤ 8) {pageSize : U64} (hpage : Stacks pageSize valueSize)
    {earlier : List Meas} (h₀ : Survived S pageSize earlier pm₀) (h : Reachable S poolSize cacheSize pm₀ r)
    (hidle : r.threads.writer.held = none) (hwhole : IndexesWhole r.pages)
    (hsizes : ∀ m, m ∈ earlier ++ r.threads.accepted → m.size.val = valueSize) :
    ∃ written, r.threads.accepted = written ++ r.threads.queued ++ r.threads.current ∧
      (∀ seen, r.threads.client = some (.paused seen) → r.threads.accepted = written ∧ seen <+: written) ∧
      ∀ (lost : PageFile → Nat → BTree.Node Time IndexRecord) (d : Directory (pagesWrittenBack lost r.pages))
        (ids : List Id) (source flag : Flag) (size : U64),
        (∀ fromTime toTime, 0 < size.val → earlier ++ written ≠ [] →
          (∀ m, m ∈ earlier ++ written → fromTime < m.time ∧ m.time ≤ toTime) →
          DeliversAsked size ids source flag d.disk (intervalReader ids source flag fromTime toTime d.pages)
            (earlier ++ written)) ∧
        (∀ fromTime toTime fuel out,
          (intervalReader ids source flag fromTime toTime d.pages).readAllBy size d.disk fuel = .ok out →
            ∀ m, m ∈ out → Page.Appended (earlier ++ written) m ∨ Filler ids source flag fromTime m) ∧
        ∀ tp fuel out, 0 < tp →
          (timePointReader ids source flag tp d.pages).readAllBy size d.disk fuel = .ok out →
            ∀ m, m ∈ out → Page.Appended (earlier ++ written) m := by
  obtain ⟨batches, fuel, log, hrun, hacc⟩ := h.between hidle
  have hperm : (earlier ++ log).Perm (earlier ++ batches.flatten) := (runAll_perm hrun).append_left _
  have hsurvived := h₀.calls hrun
  have hvalues : ∀ m, m ∈ earlier ++ log → m.size.val = valueSize := by
    intro m hm
    refine hsizes m ?_
    rw [hacc, List.append_assoc, ← List.append_assoc]
    exact List.mem_append_left _ (hperm.mem_iff.mp hm)
  have happended : ∀ {m}, Page.Appended (earlier ++ log) m → Page.Appended (earlier ++ batches.flatten) m :=
    fun hm => hm.mono fun x hx => hperm.mem_iff.mp hx
  refine ⟨batches.flatten, hacc, fun seen hp => h.paused hacc hp, fun lost d ids source flag size =>
    ⟨fun fromTime toTime hsize hne hwithin => ?_, fun fromTime toTime fuel out hout m hm => ?_,
      fun tp fuel out _ hout m hm => ?_⟩⟩
  · have hsome : earlier ++ log ≠ [] := fun hnil => hne (List.perm_nil.mp (hnil ▸ hperm.symm))
    have hread := hsurvived.readsBack hwhole hsome hvalue hpage hvalues d ids source flag hsize fun m hm =>
      hwithin m (hperm.mem_iff.mp hm)
    exact hread.perm hperm
  · exact (hsurvived.interval_answers hpage hvalues d hout m hm).imp_left happended
  · exact happended (hsurvived.timePoint_answers hpage hvalues d hout m hm)

/-- A read that has paused the writer, after one append to a storage just created. -/
theorem running_read_one : ∃ r : Running, r.threads.client = some (.paused [.plain 7 5]) ∧ IndexesWhole r.pages ∧
    ∀ lost, ∀ d : Directory (pagesWrittenBack lost r.pages),
      DeliversAsked 7 [7] 0 0 d.disk (intervalReader [7] 0 0 1 10 d.pages) [.plain 7 5] ∧
      ∀ fuel out, (timePointReader [] 0 0 9 d.pages).readAllBy 7 d.disk fuel = .ok out →
        ∀ m, m ∈ out → Page.Appended [.plain 7 5] m := by
  obtain ⟨pm₀, r, hstart, h, hp, hacc, hwhole⟩ := exists_paused
  have hpage : Stacks (Page.calcSize 1500) 8 := by decide
  have hsizes : ∀ m, m ∈ [] ++ r.threads.accepted → m.size.val = 8 := by
    rw [hacc]
    decide
  obtain ⟨written, -, hpaused, hread⟩ :=
    running_read le_rfl hpage (.create hstart) h (h.inv.paused hp).2.1 hwhole hsizes
  obtain rfl : [.plain 7 5] = written := hacc.symm.trans (hpaused _ hp).1
  refine ⟨r, hp, hwhole, fun lost d => ⟨?_, fun fuel out => (hread lost d [] 0 0 7).2.2 9 fuel out (by decide)⟩⟩
  exact (hread lost d [7] 0 0 7).1 1 10 (by decide) (by decide) (by decide)

end Running
end Nkvdb
