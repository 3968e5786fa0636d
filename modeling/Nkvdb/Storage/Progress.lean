import Nkvdb.Page.Survive
import Nkvdb.Storage.Reached

/-! Whether the writer comes to the end of a batch (`AsyncWriter::call`).

A page that takes nothing is followed by a new one, and so on for ever if new pages take nothing either:
the loop ends unless `Page::isFull` holds of a page without a measurement. Otherwise each page but the
first takes one at least, so the turns are bounded by the length of the batch. -/
namespace Nkvdb.Storage
open Page

/-- A page of this size is full from the start: it has its header, and no room for a measurement. -/
def Cramped (fsize : U64) : Prop := sizeofHeader ≤ fsize.val ∧ fsize.val < sizeofHeader + sizeofMeas

instance (fsize : U64) : Decidable (Cramped fsize) := by
  unfold Cramped
  infer_instance

section
variable {S : TimeSort} {fsize : U64} {log output data : List Meas} {recs : List IndexRecord} {p p' : Page}
  {pm pm' : PageManager} {fuel fuel' : Nat} {e : Fault}

theorem fullAt_nil_iff : FullAt fsize [] ↔ Cramped fsize := by
  have hlt := fsize.isLt
  unfold FullAt gap Cramped
  simp only [valueBytes_nil, List.length_nil, sizeofHeader, sizeofMeas]
  omega

/-! ### What a step can fail with -/

theorem appendArray_thrown (h : Posted fsize log recs p) (herr : p.appendArray output = .error e) : e.Thrown := by
  rcases Op.run_fault h.logged (show Op.run (.array output) p = _ from herr) with rfl | (rfl | rfl) | hacc
  · decide
  · decide
  · decide
  · rcases acceptAll_fault hacc with rfl | rfl | rfl
    · decide
    · decide
    · decide

theorem flushIndex_thrown (h : Posted fsize log recs p) (herr : p.flushWriteWindow.flushIndex = .error e) :
    e.Thrown := by
  rcases bind_error herr with herr | ⟨ix, -, herr⟩
  · rcases h.logged.flush_fault herr with rfl | rfl
    · decide
    · decide
  · cases herr

theorem close_thrown (h : Posted fsize log recs p) (herr : p.close = .error e) : e.Thrown := by
  rcases bind_error herr with herr | ⟨p', hp', herr⟩
  · exact flushIndex_thrown h herr
  · obtain ⟨ix, hix, rfl⟩ := Page.flushIndex_iff.mp hp'
    rcases bind_error herr with herr | ⟨ix', -, herr⟩
    · rcases (h.logged.flush hix).flush_fault herr with rfl | rfl
      · decide
      · decide
    · cases herr

theorem createNewPage_thrown (h : Posted fsize log recs p) (hp : pm.curpage = some p)
    (herr : pm.createNewPage = .error e) : e.Thrown := by
  unfold PageManager.createNewPage at herr
  rw [hp] at herr
  rcases bind_error herr with herr | ⟨f, -, herr⟩
  · exact close_thrown h herr
  · cases herr

/-! ### More turns -/

/-- A turn of the loop, as an equation. -/
theorem writeLoop_turn (hne : output ≠ []) (hp : pm.curpage = some p) :
    AsyncWriter.writeLoop (fuel + 1) output pm = p.appendArray output >>= fun x =>
      AsyncWriter.rollOver x.1 output.length {pm with curpage := some x.2} >>= fun pm₁ =>
        AsyncWriter.writeLoop fuel (output.drop x.1.writed) pm₁ >>= fun y =>
          .ok (output.take x.1.writed ++ y.1, y.2) := by
  conv_lhs => unfold AsyncWriter.writeLoop
  rw [if_neg hne, PageManager.getCurPage, hp]
  rfl

/-- A loop that has ended ends alike with more turns to go. -/
theorem writeLoop_more (h : AsyncWriter.writeLoop fuel output pm ≠ .error .outOfFuel) (hle : fuel ≤ fuel') :
    AsyncWriter.writeLoop fuel' output pm = AsyncWriter.writeLoop fuel output pm := by
  induction fuel generalizing fuel' output pm with
  | zero => exact absurd rfl h
  | succ fuel ih =>
    obtain ⟨fuel', rfl⟩ : ∃ n, fuel' = n + 1 := ⟨fuel' - 1, by omega⟩
    by_cases hne : output = []
    · subst hne
      rfl
    cases hp : pm.curpage with
    | none =>
      unfold AsyncWriter.writeLoop
      rw [if_neg hne, if_neg hne, PageManager.getCurPage, hp]
      rfl
    | some p =>
      rw [writeLoop_turn hne hp] at h
      rw [writeLoop_turn hne hp, writeLoop_turn hne hp]
      cases ha : p.appendArray output with
      | error e => rfl
      | ok x =>
        rw [ha] at h
        simp only [bind, Except.bind] at h ⊢
        cases hr : AsyncWriter.rollOver x.1 output.length {pm with curpage := some x.2} with
        | error e => rfl
        | ok pm₁ =>
          rw [hr] at h
          simp only at h ⊢
          rw [ih (fun herr => h (by rw [herr])) (Nat.le_of_succ_le_succ hle)]

/-! ### Pages that take something -/

/-- A current page without a measurement. -/
structure Unwritten (pm : PageManager) (p : Page) : Prop where
  cur : pm.curpage = some p
  posted : Posted pm.defaultPageSize [] [] p

theorem Unwritten.next (hp : pm.curpage = some p) (hc : pm.createNewPage = .ok pm') :
    ∃ p', Unwritten pm' p' ∧ pm'.defaultPageSize = pm.defaultPageSize := by
  obtain ⟨f, -, rfl⟩ := (PageManager.createNewPage_iff hp).mp hc
  obtain ⟨-, hl, hpos, hcounts⟩ := Posted.create pm.defaultPageSize
  refine ⟨_, ⟨rfl, ?_, hl, hpos, hcounts⟩, rfl⟩
  exact Areas.carrying pm.defaultPageSize p.writeWindow

/-- What an array append leaves of the batch is less, unless the page was full. -/
theorem appendArray_writed {ares : AppendResult} (ha : p.appendArray output = .ok (ares, p')) :
    ares.writed ≤ output.length := by
  obtain ⟨-, k, q, ix, hacc, -, rfl, -⟩ := Op.run_iff.mp (show Op.run (.array output) p = _ from ha)
  exact acceptAll_le hacc

/-- From a page on which the append writes what it may, the loop ends. -/
theorem writeLoop_from (hp : pm.curpage = some p) (h : Posted fsize log recs p) {left : Nat}
    (hrest : ∀ ares p' pm₁, p.appendArray output = .ok (ares, p') → ares.writed ≠ output.length →
      PageManager.createNewPage {pm with curpage := some p'} = .ok pm₁ →
      AsyncWriter.writeLoop left (output.drop ares.writed) pm₁ ≠ .error .outOfFuel) (hleft : 0 < left) :
    AsyncWriter.writeLoop (left + 1) output pm ≠ .error .outOfFuel := by
  by_cases hne : output = []
  · subst hne
    exact nofun
  rw [writeLoop_turn hne hp]
  intro herr
  rcases bind_error herr with herr | ⟨⟨ares, p'⟩, ha, herr⟩
  · exact (appendArray_thrown h herr).2 rfl
  have hposted' := h.append (show Op.run (.array output) p = _ from ha)
  rcases bind_error herr with herr | ⟨pm₁, hroll, herr⟩
  · unfold AsyncWriter.rollOver at herr
    split at herr
    · exact (createNewPage_thrown hposted' rfl herr).2 rfl
    · cases herr
  rcases bind_error herr with herr | ⟨y, -, herr⟩
  · unfold AsyncWriter.rollOver at hroll
    by_cases hall : ares.writed ≠ output.length
    · rw [if_pos hall] at hroll
      exact hrest ares p' pm₁ ha hall hroll herr
    · -- the batch is written up
      obtain ⟨left, rfl⟩ : ∃ n, left = n + 1 := ⟨left - 1, by omega⟩
      rw [not_not.mp hall, List.drop_length] at herr
      cases herr
  · cases herr

theorem writeLoop_unwritten (hroom : ¬ Cramped pm.defaultPageSize) (h : Unwritten pm p)
    (hf : output.length < fuel) : AsyncWriter.writeLoop fuel output pm ≠ .error .outOfFuel := by
  induction fuel generalizing output pm p with
  | zero => exact absurd hf (Nat.not_lt_zero _)
  | succ fuel ih =>
    by_cases hne : output = []
    · subst hne
      exact nofun
    have hlen := List.length_pos_iff.mpr hne
    refine writeLoop_from h.cur h.posted (fun ares p' pm₁ ha hall hc => ?_) (by omega)
    obtain ⟨q, hq, hsize⟩ := Unwritten.next rfl hc
    -- a page that is not full takes one
    have hsome : ares.writed ≠ 0 := fun hzero =>
      hroom (fullAt_nil_iff.mp ((areas_appendArray h.posted.areas ha).2 hzero hne))
    refine ih ?_ hq ?_
    · rw [hsize]
      exact hroom
    · rw [List.length_drop]
      omega

/-- From any page on, one more turn may be needed. -/
theorem writeLoop_ends (hroom : ¬ Cramped pm.defaultPageSize) (hp : pm.curpage = some p) (h : Posted fsize log recs p)
    (hf : output.length + 1 < fuel) : AsyncWriter.writeLoop fuel output pm ≠ .error .outOfFuel := by
  obtain ⟨fuel, rfl⟩ : ∃ n, fuel = n + 1 := ⟨fuel - 1, by omega⟩
  refine writeLoop_from hp h (fun ares p' pm₁ ha hall hc => ?_) (by omega)
  obtain ⟨q, hq, hsize⟩ := Unwritten.next rfl hc
  refine writeLoop_unwritten ?_ hq ?_
  · rw [hsize]
    exact hroom
  · rw [List.length_drop]
    omega

/-! ### Pages that take nothing -/

/-- The append to a full page does nothing. -/
theorem appendArray_full (hfull : p.isFull = true) : p.appendArray output = .ok (⟨0, 0⟩, p) := by
  refine appendArray_iff.mpr ⟨0, p, p.index, ?_, rfl, rfl, rfl⟩
  cases output with
  | nil => rfl
  | cons m ms =>
    unfold acceptAll
    rw [if_pos hfull]

/-- New page after new page, and the batch is as it was. -/
theorem writeLoop_cramped (hsize : Cramped pm.defaultPageSize) (hp : pm.curpage = some p)
    (ha : Areas pm.defaultPageSize [] p) (hc : p.index.cache = []) (hne : output ≠ []) (fuel : Nat) :
    AsyncWriter.writeLoop fuel output pm = .error .outOfFuel := by
  induction fuel generalizing pm p with
  | zero => rfl
  | succ fuel ih =>
    have hfull : p.isFull = true := ha.isFull_iff.mpr (fullAt_nil_iff.mpr hsize)
    have hlen := List.length_pos_iff.mpr hne
    obtain ⟨f, hclose⟩ : ∃ f, p.close = .ok f := ⟨_, close_iff.mpr ⟨p.index, if_pos hc, rfl⟩⟩
    have hnew : PageManager.createNewPage {pm with curpage := some p} = .ok _ :=
      (PageManager.createNewPage_iff rfl).mpr ⟨f, hclose, rfl⟩
    rw [writeLoop_turn hne hp, appendArray_full hfull]
    simp only [bind, Except.bind, AsyncWriter.rollOver, if_pos hlen.ne, hnew, List.drop_zero]
    rw [ih ?_ rfl ?_ rfl]
    · exact hsize
    · exact Areas.carrying _ _

/-! ### Batches of reachable storages -/

theorem kept_size (fsize : U64) : PageManager.Kept fun _ pm => pm.defaultPageSize = fsize where
  append h _ _ := h
  createNewPage := by
    intro log pm pm' h hc
    cases hp : pm.curpage with
    | none =>
      unfold PageManager.createNewPage at hc
      rw [hp] at hc
      obtain rfl := Except.ok.inj hc
      exact h
    | some p =>
      obtain ⟨f, -, rfl⟩ := (PageManager.createNewPage_iff hp).mp hc
      exact h
  flush h _ _ := h

theorem sort_eq_nil : S.sort data = [] ↔ data = [] := by
  rw [← List.length_eq_zero_iff, (S.perm data).length_eq, List.length_eq_zero_iff]

theorem call_cramped (hsize : Cramped pm.defaultPageSize) (hp : pm.curpage = some p)
    (ha : Areas pm.defaultPageSize [] p) (hc : p.index.cache = []) (hne : data ≠ []) (fuel : Nat) :
    AsyncWriter.call S fuel data pm = .error .outOfFuel := by
  unfold AsyncWriter.call
  rw [writeLoop_cramped hsize hp ha hc (fun hnil => hne (sort_eq_nil.mp hnil)) fuel]
  rfl

/-- Where pages take nothing, the current page has nothing. -/
theorem Reached.cramped (h : Reached S pm) (hsize : Cramped pm.defaultPageSize) :
    ∃ p, pm.curpage = some p ∧ Areas pm.defaultPageSize [] p ∧ p.index.cache = [] := by
  induction h with
  | create h =>
    obtain rfl := Except.ok.inj h
    exact ⟨_, rfl, Areas.create _, rfl⟩
  | @call fuel data new pm pm' hr hc ih =>
    have hkept : pm'.defaultPageSize = pm.defaultPageSize :=
      @PageManager.KeptSorted.call _ (kept_size pm.defaultPageSize).sorted S fuel [] data new pm pm' rfl hc
    rw [hkept] at hsize ⊢
    obtain ⟨p, hp, ha, hcache⟩ := ih hsize
    by_cases hne : data = []
    · obtain ⟨pm₁, q, q', hw, hq, hf, rfl⟩ := PageManager.call_spec hc
      rw [sort_eq_nil.mpr hne] at hw
      obtain ⟨-, rfl⟩ := PageManager.writeLoop_nil hw
      obtain rfl := Option.some.inj (hq.symm.trans hp)
      obtain ⟨ix, hix, rfl⟩ := Page.flushIndex_iff.mp hf
      obtain ⟨t, -, rfl⟩ := Index.flush_ok_iff.mp hix
      exact ⟨_, rfl, ⟨ha.size, ha.writePos, ha.writeValuePos, ha.records⟩, rfl⟩
    · rw [call_cramped hsize hp ha hcache hne fuel] at hc
      cases hc
  | reopen _ _ _ hopen =>
    rw [(openPages_iff hopen).1] at hsize
    exact absurd hsize (by decide)

/-- The call ends, after a number of turns that the length of the batch bounds. -/
def CallEnds (S : TimeSort) (data : List Meas) (pm : PageManager) : Prop :=
  ∃ x, x ≠ .error .outOfFuel ∧ ∀ fuel, data.length + 2 ≤ fuel → AsyncWriter.call S fuel data pm = x

theorem call_ends_of (h : Reached S pm) (hroom : data = [] ∨ ¬ Cramped pm.defaultPageSize) : CallEnds S data pm := by
  obtain ⟨p, hp, hproper, -⟩ := h.orderly.cur
  obtain ⟨fsize, log, recs, hposted⟩ := hproper.posted
  have hlen : (S.sort data).length = data.length := (S.perm data).length_eq
  have hloop : AsyncWriter.writeLoop (data.length + 2) (S.sort data) pm ≠ .error .outOfFuel := by
    rcases hroom with rfl | hroom
    · rw [sort_eq_nil.mpr rfl]
      exact nofun
    · exact writeLoop_ends hroom hp hposted (by omega)
  refine ⟨AsyncWriter.call S (data.length + 2) data pm, fun herr => ?_, fun fuel hle => ?_⟩
  · rcases bind_error herr with herr | ⟨⟨new, pm₁⟩, hw, herr⟩
    · exact hloop herr
    have hshelves : Shelves [] pm := ⟨⟨p, hp, hproper⟩, fun f hf => (h.orderly.files f hf).1⟩
    obtain ⟨⟨q, hq, hproper'⟩, -⟩ := Shelves.kept.sorted.writeLoop hshelves (S.sorted data) hw
    obtain ⟨fsize', log', recs', hposted'⟩ := hproper'.posted
    have hcur := PageManager.getCurPage_iff.mpr hq
    rcases bind_error herr with herr | ⟨q₁, hq₁, herr⟩
    · cases hcur.symm.trans herr
    obtain rfl := Except.ok.inj (hcur.symm.trans hq₁)
    rcases bind_error herr with herr | ⟨q', -, herr⟩
    · exact (flushIndex_thrown hposted' herr).2 rfl
    · cases herr
  · unfold AsyncWriter.call
    rw [writeLoop_more hloop hle]

/-- A batch is written up, or fails, after at most two turns more than it has measurements, if and only if there
is nothing in it or a new page has room; otherwise the writer makes new pages for ever. -/
theorem call_ends_iff (h : Reached S pm) (data : List Meas) :
    (CallEnds S data pm ↔ data = [] ∨ ¬ Cramped pm.defaultPageSize) ∧
      (¬ CallEnds S data pm → ∀ fuel, AsyncWriter.call S fuel data pm = .error .outOfFuel) := by
  have hstuck : ¬ (data = [] ∨ ¬ Cramped pm.defaultPageSize) →
      ∀ fuel, AsyncWriter.call S fuel data pm = .error .outOfFuel := by
    intro hroom fuel
    obtain ⟨hne, hsize⟩ := not_or.mp hroom
    obtain ⟨p, hp, ha, hc⟩ := h.cramped (not_not.mp hsize)
    exact call_cramped (not_not.mp hsize) hp ha hc hne fuel
  refine ⟨⟨fun ⟨x, hx, hall⟩ => ?_, call_ends_of h⟩, fun hnot => hstuck (mt (call_ends_of h) hnot)⟩
  by_contra hroom
  exact hx ((hall _ le_rfl).symm.trans (hstuck hroom _))

end

/-- Pages of 224 bytes, which hold nothing, and of 288, which hold one measurement. -/
theorem call_ends_iff_one : ∃ pm pm', Reached TimeSort.insertion pm ∧ Reached TimeSort.insertion pm' ∧
    ¬ CallEnds TimeSort.insertion [.plain 1 5] pm ∧ CallEnds TimeSort.insertion [.plain 1 5, .plain 1 7] pm' := by
  let pm : PageManager := {PageManager.start (calcSize 0) with curpage := some (Page.create (calcSize 0))}
  let pm' : PageManager := {PageManager.start (calcSize 1) with curpage := some (Page.create (calcSize 1))}
  have h : Reached TimeSort.insertion pm := .create rfl
  have h' : Reached TimeSort.insertion pm' := .create rfl
  refine ⟨pm, pm', h, h', fun hends => ?_, ((call_ends_iff h' _).1).mpr (.inr (by decide))⟩
  rcases ((call_ends_iff h _).1).mp hends with hnil | hroom
  · cases hnil
  · exact hroom (by decide)

end Nkvdb.Storage
