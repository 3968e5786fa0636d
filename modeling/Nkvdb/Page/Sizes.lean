import Nkvdb.Page.Chunks

/-! Values of every size.

An append copies the value bytes in use from the 16 of the `Meas`. `read` copies them into an
`int64_t` first, whatever their number. -/
namespace Nkvdb.Page

/-- Reading position `i` gives the size and the value bytes of `m`, and copies nothing past
the end of the `int64_t`. -/
def ReadsValue (result : Meas) (i : Nat) (m : Meas) (p : Page) : Prop :=
  ∃ m', p.read result i = .ok (some m') ∧ m'.size = m.size ∧
    m'.value.toList.take m.size.val = m.value.toList.take m.size.val

theorem Used.stored {fsize : U64} {log : List Meas} {p : Page} (h : Used fsize log p) (hf : Fits fsize log) :
    Stored fsize log p.rawData := by
  induction h with
  | create => exact (Holding.create fsize).stored
  | append h hrun ih =>
    obtain ⟨recs, hp⟩ := h.posted
    obtain ⟨-, k, q, ix, hacc, -, rfl, rfl⟩ := Op.run_iff.mp hrun
    have hold := ih (hf.mono (List.prefix_append ..))
    have hnew := hold.acceptAll hp.areas hacc hf
    exact hnew
  | flush _ _ ih => exact ih hf
  | setWriteWindow w _ ih => exact ih hf
  | reopen _ hclose hopen ih =>
    obtain ⟨ix, -, rfl⟩ := close_iff.mp hclose
    obtain ⟨-, -, w, -, rfl⟩ := openFile_iff.mp hopen
    exact ih hf

/-- What was appended to a page whose areas are apart is read back exactly if its value has at
most eight bytes. -/
theorem readsValue_iff {fsize : U64} {log : List Meas} {p : Page} (h : Used fsize log p) (hl : p.Layout) {i : Nat}
    {m : Meas} (hi : log[i]? = some m) (result : Meas) : ReadsValue result i m p ↔ m.size.val ≤ 8 := by
  obtain ⟨recs, hp⟩ := h.posted
  have hf := hp.areas.layout_iff.mp hl
  have hread := read_eq hp.areas (h.stored hf) hf hi result
  constructor
  · rintro ⟨m', hm', -⟩
    by_contra hbig
    rw [if_pos (not_le.mp hbig), hm'] at hread
    cases hread
  · intro hsmall
    rw [if_neg (not_lt.mpr hsmall)] at hread
    exact ⟨_, hread, rfl, setValue_take m.value result.value hsmall⟩

/-- A value of all the bytes there are. -/
def wide (time : Nat) : Meas := ⟨0, word time, 0, 0, Vector.replicate 16 7, 16⟩

theorem readsValue_iff_array : ∃ p, Used (calcSize 3) [.plain 0 1, .plain 1 2] p ∧ p.Layout ∧
    ReadsValue Meas.empty 1 (.plain 1 2) p := by
  obtain ⟨⟨r, p⟩, hrun, hp⟩ := exists_ok (x := Op.run (.array [.plain 0 1, .plain 1 2]) (create (calcSize 3)))
    (p := fun x => decide (x.1.writed = 2 ∧ recordPos x.2.header.writePos ≤ x.2.header.writeValuePos.val ∧
      x.2.header.writeValuePos.val ≤ x.2.header.size.val)) (by decide +kernel)
  obtain ⟨hr, hdisjoint, hinside⟩ := of_decide_eq_true hp
  have hused : Used (calcSize 3) [.plain 0 1, .plain 1 2] p := by
    have hstep := Used.append (.create) hrun
    rwa [hr] at hstep
  exact ⟨p, hused, ⟨hdisjoint, hinside⟩, (readsValue_iff hused ⟨hdisjoint, hinside⟩ rfl _).mpr (by decide)⟩

/-- Both appends store a value of 16 bytes, and reading neither gives it back. -/
theorem read_wide_overflows : ∃ p, appendAll [.single (wide 1) (0, 0), .array [wide 2]] (create (calcSize 4)) =
    .ok ([wide 1, wide 2], p) ∧ p.Layout ∧ (wide 1).size.val ≤ sizeofValue ∧ (wide 2).size.val ≤ sizeofValue ∧
      ¬ ReadsValue Meas.empty 0 (wide 1) p ∧ ¬ ReadsValue Meas.empty 1 (wide 2) p := by
  obtain ⟨⟨log, p⟩, hrun, hp⟩ := exists_ok
    (x := appendAll [.single (wide 1) (0, 0), .array [wide 2]] (create (calcSize 4)))
    (p := fun x => decide (x.1 = [wide 1, wide 2] ∧ recordPos x.2.header.writePos ≤ x.2.header.writeValuePos.val ∧
      x.2.header.writeValuePos.val ≤ x.2.header.size.val ∧ (x.2.read Meas.empty 0).toOption = none ∧
        (x.2.read Meas.empty 1).toOption = none)) (by decide +kernel)
  obtain ⟨rfl, hdisjoint, hinside, hfirst, hsecond⟩ := of_decide_eq_true hp
  refine ⟨p, hrun, ⟨hdisjoint, hinside⟩, by decide, by decide, ?_, ?_⟩
  · rintro ⟨m', hm', -⟩
    rw [hm'] at hfirst
    cases hfirst
  · rintro ⟨m', hm', -⟩
    rw [hm'] at hsecond
    cases hsecond

end Nkvdb.Page
